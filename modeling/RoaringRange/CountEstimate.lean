import RoaringRange.FilteredSearch
import RoaringRange.IndexLookup
import RoaringRange.SessionSearch

/-!
# Estimated counts of a split set (`splitset.rs`)

`count_estimate` opens the splits that their Bloom filters do not turn away, takes of each the size of the query's
smallest posting from the posting's header, and adds these up.  `count_exact` counts what a search finds.

    an index settles on the size of the query's smallest posting                   (Index.settles_countEstimate)
    a set's estimate is a bound on its hits, and is them where it says so                     (Stocked.settles_estimate)
    so it is after every session over a build                                                  (session_estimate)
-/

namespace RoaringRange

open ByteString Faults Slices Runs Tiles

/-! ## The estimate of an index -/

/-- The size of the smallest posting of the keys; none has docs where a key has no posting. -/
def smallest (posting : Key → Option Bitmap) (keys : List Key) : Nat :=
  match keys.mapM posting with
  | none => 0
  | some sets => (sets.map AscSet.len).foldl min Index.u64Max

theorem le_foldl_min {ns : List Nat} {m l : Nat} (hm : l ≤ m) (h : ∀ n ∈ ns, l ≤ n) : l ≤ ns.foldl min m := by
  induction ns generalizing m with
  | nil => exact hm
  | cons k ns ih =>
    rw [List.foldl_cons]
    exact ih (Nat.le_min.mpr ⟨hm, h k List.mem_cons_self⟩) fun n hn => h n (List.mem_cons_of_mem _ hn)

theorem length_lt_u64 (S : Bitmap) : S.len ≤ Index.u64Max := by
  have hsub : S.toList ⊆ List.range u32Bound := fun d hd => List.mem_range.mpr (S.all d hd)
  have hle := (List.subperm_of_subset (AscSet.nodup S) hsub).length_le
  rw [List.length_range] at hle
  exact Nat.le_trans hle (by decide)

/-- **The smallest posting bounds the docs with all the keys**, and a single key's posting is theirs. -/
theorem strictDocs_le_smallest (posts : PostMap) {keys : List Key} (hne : keys ≠ []) :
    (posts.strictDocs keys).len ≤ smallest posts.find? keys ∧
      (keys.length = 1 → (posts.strictDocs keys).len = smallest posts.find? keys) := by
  have hdocs : ∀ d, d ∈ posts.strictDocs keys ↔ ∀ k ∈ keys, d ∈ posts.docs k := by
    intro d
    rw [PostMap.mem_strictDocs]
    exact ⟨fun h => h.2, fun h => ⟨hne, h⟩⟩
  unfold smallest
  cases hm : keys.mapM posts.find? with
  | none =>
    obtain ⟨k, hk, hnone⟩ := mapM_eq_none_iff.mp hm
    have hempty : posts.strictDocs keys = ∅ := by
      refine AscSet.isEmpty_iff.mp (AscSet.isEmpty_iff_forall.mpr fun d hd => ?_)
      have hmem := (hdocs d).mp hd k hk
      unfold PostMap.docs at hmem
      rw [hnone] at hmem
      exact AscSet.not_mem_empty d hmem
    rw [hempty]
    exact ⟨Nat.le_refl 0, fun _ => rfl⟩
  | some sets =>
    have hall := mapM_some_forall₂ hm
    have hle : ∀ S ∈ sets, (posts.strictDocs keys).len ≤ S.len := by
      intro S hS
      obtain ⟨k, hk, hfind⟩ := exists_partner_left hall hS
      refine AscSet.len_le_of_subset fun d hd => ?_
      have hmem := (hdocs d).mp hd k hk
      unfold PostMap.docs at hmem
      rwa [hfind] at hmem
    refine ⟨le_foldl_min (length_lt_u64 _) fun n hn => ?_, fun hone => ?_⟩
    · obtain ⟨S, hS, rfl⟩ := List.mem_map.mp hn
      exact hle S hS
    · obtain ⟨k, rfl⟩ := List.length_eq_one_iff.mp hone
      obtain ⟨S, hfind, rfl⟩ : ∃ S, posts.find? k = some S ∧ sets = [S] := by
        cases hall with
        | cons hk hnil =>
          cases hnil
          exact ⟨_, hk, rfl⟩
      have heq : posts.strictDocs [k] = S := by
        refine AscSet.ext_mem fun d => ?_
        rw [hdocs]
        simp [PostMap.docs, hfind]
      rw [heq]
      show S.len = min Index.u64Max S.len
      exact (Nat.min_eq_right (length_lt_u64 S)).symm

section

variable [Roaring] [Unicode]

/-- **An index settles on the size of the query's smallest posting.** -/
theorem Index.settles_countEstimate {ix : Index} (hw : ix.WellFormed) {query : String} (hne : ix.queryKeys query ≠ []) :
    ∃ exact, Settles (ix.countEstimate query) (.ok (smallest ix.postingOf (ix.queryKeys query), exact)) ∧
      (exact = true → (ix.queryKeys query).length = 1 ∨ (ix.queryKeys query).mapM ix.postingOf = none) := by
  unfold countEstimate smallest
  simp only
  rw [if_neg (by simpa using hne)]
  cases hrecs : (ix.queryKeys query).mapM ix.findRec with
  | none =>
    obtain ⟨k, hk, hnone⟩ := mapM_eq_none_iff.mp hrecs
    have hsets : (ix.queryKeys query).mapM ix.postingOf = none :=
      mapM_none ⟨k, hk, by rw [postingOf, hnone, Option.map_none]⟩
    have hids : ((ix.queryKeys query).map ix.findRec).mapM id = none :=
      mapM_none ⟨none, List.mem_map.mpr ⟨k, hk, hnone⟩, rfl⟩
    rw [hsets]
    refine ⟨true, (settles_lookupMany hw _).bind ?_, fun _ => Or.inr rfl⟩
    rw [hids]
    exact Settles.pure _
  | some recs =>
    have hall := mapM_some_forall₂ hrecs
    have hsets : (ix.queryKeys query).mapM ix.postingOf = some (recs.map ix.postingSet) := by
      refine mapM_of_forall₂ (List.forall₂_map_right_iff.mpr (hall.imp fun k r hr => ?_))
      rw [postingOf, hr, Option.map_some]
    have hids : ((ix.queryKeys query).map ix.findRec).mapM id = some recs :=
      mapM_of_forall₂ (List.forall₂_map_left_iff.mpr hall)
    rw [hsets]
    refine ⟨(ix.queryKeys query).length == 1, (settles_lookupMany hw _).bind ?_, fun hone => Or.inl (by simpa using hone)⟩
    rw [hids]
    simp only
    have hcounts : ∀ r ∈ recs, Settles (postingCardinality ix.fetch r.offset r.size) (.ok (ix.postingSet r).len) := by
      intro r hr
      obtain ⟨k, -, hk⟩ := exists_partner_left hall hr
      exact settles_postingCardinality (hw.postingAt hk)
    refine (settles_tryAll_map hcounts).bind ?_
    rw [List.map_map]
    exact Settles.pure _

end

/-! ## The estimate of a set -/

namespace SplitSet

section

variable [Roaring] [Unicode] [Fst]

/-- What `count_estimate` reads of a split. -/
def countSplit (set : SplitSet) (resolver : SplitFetcher) (query : String) (split : Split) : Io Nat := do
  let body ← openSplit resolver split set.bodyKind
  match body with
  | .trigram ix => do
    let estimate ← ix.countEstimate query
    pure estimate.1
  | .term _ => throw (.unsupported "count_estimate is not supported on term-bodied split sets")

def countEstimate (set : SplitSet) (resolver : SplitFetcher) (query : String) : Io (Nat × Bool) :=
  if set.bodyKind = .term then throw (.unsupported "count_estimate is not supported on term-bodied split sets")
  else
    let keys := ngramKeysWith query set.gramSize set.caseFold
    if keys.isEmpty then pure (0, true)
    else do
      let survivors := set.splits.filter fun split => !set.prunedByBloom split keys
      let counts ← tryAll (survivors.map (set.countSplit resolver query))
      pure (counts.foldl (fun total n => min (total + n) Index.u64Max) 0,
        keys.length == 1 && set.deltaSplits.isEmpty && !hasFlag set.flags flagTombstones)

end

end SplitSet

theorem foldl_saturating (ns : List Nat) {total : Nat} (h : total ≤ Index.u64Max) :
    ns.foldl (fun total n => min (total + n) Index.u64Max) total = min (total + ns.sum) Index.u64Max := by
  induction ns generalizing total with
  | nil =>
    rw [List.foldl_nil, List.sum_nil]
    omega
  | cons n ns ih =>
    rw [List.foldl_cons, ih (Nat.min_le_right _ _), List.sum_cons]
    omega

section

variable [Roaring] [Unicode] [TokenFilters] [Fst] {set : SplitSet} {resolver : SplitFetcher} {split : Split} {s : Shelf}
  {query : String}

omit [TokenFilters] in
theorem ServesShelf.settles_countSplit (h : ServesShelf set resolver split s) (hkind : set.bodyKind = .trigram)
    (hne : ngramKeysWith query set.gramSize set.caseFold ≠ []) : Settles (set.countSplit resolver query split)
      (.ok (smallest s.posts.find? (ngramKeysWith query set.gramSize set.caseFold))) := by
  obtain ⟨ix, hix, hwell, hgram, hcase, hpost⟩ := h.serves.opens
  have hkeys : ix.queryKeys query = ngramKeysWith query set.gramSize set.caseFold := by
    rw [Index.queryKeys, hgram, hcase]
  have hposting : ix.postingOf = s.posts.find? := funext hpost
  obtain ⟨exact, hcount, -⟩ := @Index.settles_countEstimate _ _ ix hwell query (by rwa [hkeys])
  rw [hkeys, hposting] at hcount
  unfold SplitSet.countSplit
  rw [hkind]
  refine hix.bind (hcount.bind (Settles.pure _))

omit [TokenFilters] in
/-- The estimates of the splits that are opened add up to a bound on the hits of all, and to them for a single key. -/
theorem exists_counts (hkind : set.bodyKind = .trigram)
    (hne : ngramKeysWith query set.gramSize set.caseFold ≠ []) {splits : List Split} {shelves : List Shelf}
    (h : List.Forall₂ (ServesShelf set resolver) splits shelves) : ∃ counts : List Nat,
    Settles (tryAll ((splits.filter fun split => !set.prunedByBloom split (ngramKeysWith query set.gramSize set.caseFold)).map
      (set.countSplit resolver query))) (.ok counts) ∧
    (shelfHits shelves (ngramKeysWith query set.gramSize set.caseFold)).length ≤ counts.sum ∧
    ((ngramKeysWith query set.gramSize set.caseFold).length = 1 →
      (shelfHits shelves (ngramKeysWith query set.gramSize set.caseFold)).length = counts.sum) := by
  have hall : ∃ counts : List Nat, List.Forall₂ (fun x n => Settles x (.ok n))
      ((splits.filter fun split => !set.prunedByBloom split (ngramKeysWith query set.gramSize set.caseFold)).map
        (set.countSplit resolver query)) counts ∧
      (shelfHits shelves (ngramKeysWith query set.gramSize set.caseFold)).length ≤ counts.sum ∧
      ((ngramKeysWith query set.gramSize set.caseFold).length = 1 →
        (shelfHits shelves (ngramKeysWith query set.gramSize set.caseFold)).length = counts.sum) := by
    induction h with
    | nil => exact ⟨[], List.Forall₂.nil, Nat.le_refl 0, fun _ => rfl⟩
    | @cons split s splits shelves hserves _ ih =>
      obtain ⟨counts, hcounts, hle, heq⟩ := ih
      unfold shelfHits at hle heq ⊢
      rw [List.flatMap_cons, List.length_append]
      cases hpruned : set.prunedByBloom split (ngramKeysWith query set.gramSize set.caseFold) with
      | true =>
        have hnone : s.hits (ngramKeysWith query set.gramSize set.caseFold) = [] := by
          unfold Shelf.hits
          rw [hserves.serves.strictDocs_of_pruned hpruned]
          rfl
        rw [List.filter_cons_of_neg (by simp [hpruned]), hnone, List.length_nil, Nat.zero_add]
        exact ⟨counts, hcounts, hle, heq⟩
      | false =>
        obtain ⟨hbound, hone⟩ := strictDocs_le_smallest s.posts hne
        have hlen : (s.hits (ngramKeysWith query set.gramSize set.caseFold)).length =
            (s.posts.strictDocs (ngramKeysWith query set.gramSize set.caseFold)).len := List.length_map _
        rw [List.filter_cons_of_pos (by simp [hpruned]), List.map_cons, hlen]
        refine ⟨_ :: counts, List.Forall₂.cons (hserves.settles_countSplit hkind hne) hcounts, ?_, fun hsingle => ?_⟩
        · rw [List.sum_cons]
          exact Nat.add_le_add hbound hle
        · rw [List.sum_cons, hone hsingle, heq hsingle]
  obtain ⟨counts, hcounts, hbound⟩ := hall
  refine ⟨counts, ?_, hbound⟩
  rw [← collect_ok]
  exact Settles.tryAll (List.forall₂_map_right_iff.mpr hcounts)

omit [Roaring] [Unicode] [TokenFilters] [Fst] in
/-- No more hits are live than there are, and all of them where nothing is masked. -/
theorem length_liveHits (policy : Policy) (ranking : Option ((Nat → Option Int) × Bool)) (base deltas : List Shelf)
    (dead : Bitmap) (keys : List Key) :
    (liveHits policy ranking base deltas dead keys).length ≤ (shelfHits (base ++ deltas) keys).length ∧
      ((∀ d, d ∉ dead) → (liveHits policy ranking base deltas dead keys).length = (shelfHits (base ++ deltas) keys).length) := by
  have hall : shelfHits (base ++ deltas) keys = shelfHits base keys ++ shelfHits deltas keys := List.flatMap_append
  unfold liveHits
  rw [hall, List.length_append, List.length_append, (perm_baseOrder policy ranking _).length_eq,
    (sortByKey_perm id _).length_eq]
  refine ⟨Nat.add_le_add (List.length_filter_le _ _) (List.length_filter_le _ _), fun hnone => ?_⟩
  rw [List.filter_eq_self.mpr fun d _ => decide_eq_true (hnone d), List.filter_eq_self.mpr fun d _ => decide_eq_true (hnone d)]

omit [TokenFilters] in
/-- **The estimate bounds the live hits**, and is their number where it says so. -/
theorem Stocked.settles_estimate {base deltas : List Shelf} {dead : Bitmap} (h : Stocked set resolver base deltas)
    (hplain : deltas = [] → ∀ d, d ∉ dead) (ranking : Option ((Nat → Option Int) × Bool)) (query : String)
    (hlt : (shelfHits (base ++ deltas) (ngramKeysWith query set.gramSize set.caseFold)).length ≤ Index.u64Max) :
    ∃ n exact, Settles (set.countEstimate resolver query) (.ok (n, exact)) ∧
      (liveHits set.policy ranking base deltas dead (ngramKeysWith query set.gramSize set.caseFold)).length ≤ n ∧
      (exact = true →
        (liveHits set.policy ranking base deltas dead (ngramKeysWith query set.gramSize set.caseFold)).length = n) := by
  obtain ⟨hle, heq⟩ := length_liveHits set.policy ranking base deltas dead (ngramKeysWith query set.gramSize set.caseFold)
  unfold SplitSet.countEstimate
  rw [if_neg (by rw [h.bodyKind]; decide)]
  simp only
  by_cases hkeys : ngramKeysWith query set.gramSize set.caseFold = []
  · rw [if_pos (by rw [hkeys]; rfl), hkeys, liveHits_nil]
    exact ⟨0, true, Settles.pure _, Nat.le_refl 0, fun _ => rfl⟩
  rw [if_neg (by simpa using hkeys)]
  have hall : List.Forall₂ (ServesShelf set resolver) set.splits (base ++ deltas) := by
    have hsplits : set.splits = set.baseSplits ++ set.deltaSplits := (List.take_append_drop _ _).symm
    rw [hsplits]
    exact List.rel_append h.base h.deltas
  obtain ⟨counts, hcounts, hbound, hone⟩ := exists_counts h.bodyKind hkeys hall
  refine ⟨_, _, hcounts.bind (Settles.pure _), ?_, fun hexact => ?_⟩
  · rw [foldl_saturating counts (Nat.zero_le _), Nat.zero_add]
    omega
  · rw [Bool.and_eq_true, Bool.and_eq_true, beq_iff_eq, List.isEmpty_iff] at hexact
    obtain ⟨⟨hsingle, hdelta⟩, -⟩ := hexact
    have hnil : deltas = [] := by
      have hd := h.deltas
      rw [hdelta] at hd
      cases hd
      rfl
    rw [foldl_saturating counts (Nat.zero_le _), Nat.zero_add, heq (hplain hnil), hone hsingle]
    rw [hone hsingle] at hlt
    omega

/-- **The estimate after a session**: whatever was flushed, deleted, merged or resumed, `count_estimate` is at least what
`count_exact` counts, and is that number where it says that it is exact. -/
theorem session_estimate {docs : List BuildDoc} {σ₀ σ : Session} {tr : List (WriterCall × WriterOutcome)}
    (h₀ : σ₀.OverBuild docs) (hrun : Run Session.SearchedStep σ₀ tr σ) :
    ∃ bytes set, σ.manifest = some bytes ∧ SplitSet.fromBytes bytes = .ok set ∧
      ∀ (resolver : SplitFetcher) (ranking : Option ((Nat → Option Int) × Bool)),
        resolver.ServesSet set σ.files docs ranking → ∀ query, ∃ n exact live,
          Settles (set.countEstimate resolver query) (.ok (n, exact)) ∧
          Settles (set.countExact resolver query []) (.ok live) ∧ live ≤ n ∧ (exact = true → live = n) ∧
          live = (answer set.policy ranking docs (.ofTrace tr) (ngramKeysWith query set.gramSize set.caseFold)).length := by
  obtain ⟨t, base, hb, hstart⟩ := h₀.kept
  obtain ⟨deltas, h, hfinds⟩ := hstart.finds_run hb.covers hrun
  obtain ⟨bytes, set, hm, hset, -⟩ := h.housed.current
  obtain ⟨dead, hdead, hsearch⟩ := h.settles_search hb hm hset
  obtain ⟨hterms, -⟩ := h.terms.manifest bytes set hm hset
  refine ⟨bytes, set, hm, hset, fun resolver ranking hserves query => ?_⟩
  have hstocked := h.stocked hm hset hserves.splits
  have hnodup := h.nodup_shelfHits (ngramKeysWith query set.gramSize set.caseFold)
  have hfew : (shelfHits (base ++ deltas) (ngramKeysWith query set.gramSize set.caseFold)).length ≤ Index.u64Max := by
    have hlt : ∀ d ∈ shelfHits (base ++ deltas) (ngramKeysWith query set.gramSize set.caseFold), d < usizeMax := by
      intro d hd
      obtain ⟨s, -, hs⟩ := mem_shelfHits.mp hd
      exact Nat.lt_of_lt_of_le (Shelf.hits_lt d hs) (by decide)
    have hsub := List.subperm_of_subset hnodup fun d hd => List.mem_range.mpr (hlt d hd)
    have hle := hsub.length_le
    rw [List.length_range] at hle
    exact Nat.le_trans hle (by decide)
  have hplain : deltas = [] → ∀ d, d ∉ dead := by
    rintro rfl d hd
    have hmask := (h.logged.masked d).mpr ((hdead d).mp hd)
    rw [h.housed.shelved.specs, List.append_nil] at hmask
    exact hb.plain d hmask
  obtain ⟨n, exact, hestimate, hle, heq⟩ := hstocked.settles_estimate hplain ranking query hfew
  have hlive := h.liveHits_eq hb hfinds hdead set.policy ranking (ngramKeysWith query set.gramSize set.caseFold)
  refine ⟨n, exact, _, hestimate, ?_, hle, heq, by rw [hlive]⟩
  have hall := hsearch resolver ranking hserves query usizeMax
  rw [← hterms] at hall
  have hmax : (liveHits set.policy ranking base deltas dead (ngramKeysWith query set.gramSize set.caseFold)).take usizeMax =
      liveHits set.policy ranking base deltas dead (ngramKeysWith query set.gramSize set.caseFold) :=
    take_usizeMax (nodup_liveHits hnodup) liveHits_lt
  have hcounted : Settles (set.countedIds resolver query [])
      (.ok (liveHits set.policy ranking base deltas dead (ngramKeysWith query set.gramSize set.caseFold))) := by
    unfold SplitSet.countedIds
    rw [if_pos List.isEmpty_nil, ← hmax]
    exact hall
  unfold SplitSet.countExact
  exact hcounted.bind (Settles.pure _)

end

section

attribute [local instance] PortableCodec.roaring asciiUnicode asciiFilters FlatRouter.fst

open Session

theorem session_estimate_deleted : ∃ (σ₀ σ : Session) (tr : List (WriterCall × WriterOutcome)) (bytes : Bytes)
    (set : SplitSet), σ₀.OverBuild [⟨[abcKey], []⟩] ∧ Run SearchedStep σ₀ tr σ ∧ tr.length = 3 ∧
    σ.manifest = some bytes ∧ SplitSet.fromBytes bytes = .ok set ∧ ∃ n exact,
      Settles (set.countEstimate (.ofFiles σ.files) "abc") (.ok (n, exact)) ∧
      Settles (set.countExact (.ofFiles σ.files) "abc" []) (.ok 1) ∧ 1 ≤ n ∧ (exact = true → 1 = n) := by
  obtain ⟨σ₀, σ₁, σ₂, -, -, -, new, -, h₀, hrun, hflush, -, -, hnew, -, hpolicy, hgrams, hfold, -⟩ := exists_mergedSession
  obtain ⟨bytes, set, hm, hset, hcounts⟩ := session_estimate h₀ (hrun.step hflush)
  rw [hm, Option.map_some, hset] at hnew
  obtain rfl : set = new := Except.ok.inj (Option.some.inj hnew)
  obtain ⟨n, exact, live, hestimate, hexact, hle, heq, hlive⟩ :=
    hcounts (.ofFiles σ₂.files) none (SplitFetcher.servesSet_ofFiles hpolicy σ₂.files _) "abc"
  rw [hpolicy, hgrams, hfold] at hlive
  obtain rfl : live = 1 := hlive
  exact ⟨σ₀, σ₂, _, bytes, set, h₀, hrun.step hflush, rfl, hm, hset, n, exact, hestimate, hexact, hle, heq⟩

end

end RoaringRange
