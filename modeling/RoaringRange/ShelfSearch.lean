import RoaringRange.SortColsBuild
import RoaringRange.WriterRoutes

/-!
# Searching the shelves of a writer (`splitset.rs`)

Whatever way `search` takes, it lists the hits of the base shelves in the order of the policy and behind them those of
the delta shelves by id, without the ids that are masked, up to the limit.

    every split is searched as its shelf says                                          (settles_searchAll)
    the base is ranked by the policy                                                   (settles_rankBase)
    the set finds the live hits of its shelves                                     (settles_searchShelves)
-/

namespace RoaringRange

open ByteString Faults Slices Tiles

/-! ## Hits -/

/-- The ids of a shelf's documents with all the keys. -/
def Shelf.hits (keys : List Key) (s : Shelf) : List Nat := (s.posts.strictDocs keys).toList.map s.spec.entry.toGlobal

/-- The hits of the shelves, one after the other. -/
def shelfHits (shelves : List Shelf) (keys : List Key) : List Nat := shelves.flatMap (Shelf.hits keys)

theorem Shelf.mem_hits {s : Shelf} {keys : List Key} {d : Nat} :
    d ∈ s.hits keys ↔ keys ≠ [] ∧ ∃ l, (∀ k ∈ keys, l ∈ s.posts.docs k) ∧ s.spec.entry.toGlobal l = d := by
  unfold hits
  rw [List.mem_map]
  simp only [AscSet.mem_toList, PostMap.mem_strictDocs]
  constructor
  · rintro ⟨l, ⟨hne, hall⟩, rfl⟩
    exact ⟨hne, l, hall, rfl⟩
  · rintro ⟨hne, l, hall, rfl⟩
    exact ⟨l, ⟨hne, hall⟩, rfl⟩

theorem mem_shelfHits {shelves : List Shelf} {keys : List Key} {d : Nat} :
    d ∈ shelfHits shelves keys ↔ ∃ s ∈ shelves, d ∈ s.hits keys := List.mem_flatMap

/-- A hit is a document of the shelf. -/
theorem Shelf.Placed.holds_hit {s : Shelf} (h : s.Placed) {keys : List Key} {d : Nat} (hd : d ∈ s.hits keys) :
    s.Holds d := by
  obtain ⟨hne, l, hall, rfl⟩ := Shelf.mem_hits.mp hd
  obtain ⟨k, hk⟩ := List.exists_mem_of_ne_nil keys hne
  exact ⟨l, h.stored k l (hall k hk), rfl⟩

theorem Shelf.Placed.nodup_hits {s : Shelf} (h : s.Placed) (keys : List Key) : (s.hits keys).Nodup := by
  unfold Shelf.hits
  refine List.Nodup.map_on (fun l hl l' hl' heq => ?_) (AscSet.nodup _)
  have hstored : ∀ l ∈ (s.posts.strictDocs keys).toList, s.Stores l := by
    intro l hl
    obtain ⟨hne, hall⟩ := PostMap.mem_strictDocs.mp hl
    obtain ⟨k, hk⟩ := List.exists_mem_of_ne_nil keys hne
    exact h.stored k l (hall k hk)
  rw [← h.toLocal l (hstored l hl), heq, h.toLocal l' (hstored l' hl')]

/-- A document is a hit once. -/
theorem nodup_shelfHits {shelves : List Shelf} (hplaced : ∀ s ∈ shelves, s.Placed)
    (hdisjoint : shelves.Pairwise fun a b => ∀ d, b.Holds d → ¬ a.Holds d) (keys : List Key) :
    (shelfHits shelves keys).Nodup := by
  unfold shelfHits
  rw [List.nodup_flatMap]
  refine ⟨fun s hs => (hplaced s hs).nodup_hits keys, hdisjoint.imp_of_mem fun {a b} ha hb hab d hda hdb => ?_⟩
  exact hab d ((hplaced b hb).holds_hit hdb) ((hplaced a ha).holds_hit hda)

/-- There are no more ids than a search may be asked for. -/
theorem take_usizeMax {ids : List Nat} (hnodup : ids.Nodup) (hlt : ∀ d ∈ ids, d < u32Bound) : ids.take usizeMax = ids := by
  have hsub : ids ⊆ List.range u32Bound := fun d hd => List.mem_range.mpr (hlt d hd)
  have hle := (List.subperm_of_subset hnodup hsub).length_le
  rw [List.length_range] at hle
  refine List.take_of_length_le (Nat.le_trans hle ?_)
  decide

theorem Shelf.hits_lt {s : Shelf} {keys : List Key} : ∀ d ∈ s.hits keys, d < u32Bound := by
  intro d hd
  obtain ⟨l, hl, rfl⟩ := List.mem_map.mp hd
  unfold Split.toGlobal
  split
  · exact (s.posts.strictDocs keys).all l hl
  · exact saturate_lt _

theorem shelfHits_nil (shelves : List Shelf) : shelfHits shelves [] = [] := by
  refine List.eq_nil_iff_forall_not_mem.mpr fun d hd => ?_
  obtain ⟨s, -, hs⟩ := mem_shelfHits.mp hd
  exact (Shelf.mem_hits.mp hs).1 rfl

/-! ## The splits of a set -/

section

variable [Roaring] [Unicode] [TokenFilters] [Fst] {set : SplitSet} {resolver : SplitFetcher} {splits : List Split}
  {shelves : List Shelf} {query : String}

/-- A split that serves what is on its shelf. -/
structure ServesShelf (set : SplitSet) (resolver : SplitFetcher) (split : Split) (s : Shelf) : Prop where
  serves : SplitServes set resolver split s.posts
  toGlobal : split.toGlobal = s.spec.entry.toGlobal

/-- **Every split is searched as its shelf says.** -/
theorem settles_searchAll (hkind : set.bodyKind = .trigram)
    (h : List.Forall₂ (ServesShelf set resolver) splits shelves) :
    Settles (set.searchAll resolver splits query (ngramKeysWith query set.gramSize set.caseFold))
      (.ok (shelfHits shelves (ngramKeysWith query set.gramSize set.caseFold))) := by
  have hresults : ∃ results, List.Forall₂ (fun x r => Settles x (.ok r))
      ((splits.filter fun split => !set.prunedByBloom split (ngramKeysWith query set.gramSize set.caseFold)).map
        (set.searchSplit resolver query usizeMax)) results ∧
      results.flatten = shelfHits shelves (ngramKeysWith query set.gramSize set.caseFold) := by
    induction h with
    | nil => exact ⟨[], List.Forall₂.nil, rfl⟩
    | @cons split s splits shelves hserves _ ih =>
      obtain ⟨results, hall, hflat⟩ := ih
      unfold shelfHits at hflat ⊢
      rw [List.flatMap_cons, ← hflat]
      cases hpruned : set.prunedByBloom split (ngramKeysWith query set.gramSize set.caseFold) with
      | true =>
        rw [List.filter_cons_of_neg (by simp [hpruned])]
        refine ⟨results, hall, ?_⟩
        unfold Shelf.hits
        rw [hserves.serves.strictDocs_of_pruned hpruned]
        rfl
      | false =>
        rw [List.filter_cons_of_pos (by simp [hpruned]), List.map_cons]
        refine ⟨s.hits (ngramKeysWith query set.gramSize set.caseFold) :: results, List.Forall₂.cons ?_ hall, rfl⟩
        have hsearch := hserves.serves.settles_searchSplit hkind query usizeMax
        rw [take_usizeMax (AscSet.nodup _) (s.posts.strictDocs _).all, hserves.toGlobal] at hsearch
        exact hsearch
  obtain ⟨results, hall, hflat⟩ := hresults
  unfold SplitSet.searchAll
  refine Settles.bind (a := results) ?_ ?_
  · rw [← collect_ok]
    exact Settles.tryAll (List.forall₂_map_right_iff.mpr hall)
  · rw [hflat]
    exact Settles.pure _

/-! ## The order of the base -/

/-- Base hits in the order of the policy: by id, or by the numbers of a sort column, up or down. -/
def baseOrder (policy : Policy) (ranking : Option ((Nat → Option Int) × Bool)) (ids : List Nat) : List Nat :=
  match policy, ranking with
  | .stableKey, some (num, descending) => rankedIds num descending ids
  | _, _ => sortByKey id ids

/-- The resolver serves the sort column, if there is one, with a value for each of the first `n` documents. -/
structure RankedBy (sortcol : Option SortColDescriptor) (resolver : SplitFetcher) (n : Nat)
    (ranking : Option ((Nat → Option Int) × Bool)) : Prop where
  none : sortcol = none → ranking = none
  some : ∀ desc, sortcol = some desc → ∃ cols bytes c, writeSortcols cols = .ok bytes ∧ colLen cols < 2 ^ 32 ∧
    resolver.fetchNamed desc.name = .new bytes ∧ cols[desc.column]? = some c ∧ n ≤ c.values.len ∧
    ranking = some (c.values.number?, desc.descending)

omit [Roaring] [Unicode] [TokenFilters] [Fst] in
theorem perm_baseOrder (policy : Policy) (ranking : Option ((Nat → Option Int) × Bool)) (ids : List Nat) :
    (baseOrder policy ranking ids).Perm ids := by
  unfold baseOrder
  split
  · exact List.mergeSort_perm _ _
  · exact sortByKey_perm _ _

omit [Roaring] [Unicode] [TokenFilters] [Fst] in
theorem settles_rankStableKey {n : Nat} {ranking : Option ((Nat → Option Int) × Bool)}
    (h : RankedBy set.sortcol resolver n ranking) {ids : List Nat} (hids : ∀ d ∈ ids, d < n) (limit : Nat) :
    Settles (set.rankStableKey resolver ids limit) (.ok ((baseOrder .stableKey ranking ids).take limit)) := by
  unfold SplitSet.rankStableKey
  cases hsort : set.sortcol with
  | none =>
    rw [h.none hsort]
    exact Settles.pure _
  | some desc =>
    obtain ⟨cols, bytes, c, hwrite, hlen, hfetch, hcol, hn, rfl⟩ := h.some desc hsort
    obtain ⟨names, blob, hlaid⟩ := exists_laid hwrite
    obtain ⟨info, hinfo, hstored, hat⟩ := exists_column hlaid hlen hcol
    have hrows := hlaid.len_eq c (List.mem_of_getElem? hcol)
    simp only [hfetch]
    refine (hlaid.settles_open hlen).bind ?_
    exact settles_topk_rankedIds hinfo hstored hrows.symm hat (fun d hd => Nat.lt_of_lt_of_le (hids d hd) hn) limit
      desc.descending

omit [Roaring] [Unicode] [TokenFilters] [Fst] in
theorem settles_rankBase {n : Nat} {ranking : Option ((Nat → Option Int) × Bool)}
    (h : set.policy = .stableKey → RankedBy set.sortcol resolver n ranking) {ids : List Nat} (hids : ∀ d ∈ ids, d < n) :
    Settles (set.rankBase resolver ids) (.ok (baseOrder set.policy ranking ids)) := by
  unfold SplitSet.rankBase
  cases hpolicy : set.policy with
  | tiered =>
    have horder : baseOrder .tiered ranking ids = sortByKey id ids := by
      unfold baseOrder
      rfl
    rw [horder]
    exact Settles.pure _
  | stableKey =>
    have hrank := settles_rankStableKey (h hpolicy) hids ids.length
    have hperm := perm_baseOrder .stableKey ranking ids
    rwa [List.take_of_length_le hperm.length_eq.le] at hrank

/-! ## The search of a set -/

/-- The hits of a set with these shelves: those of the base in the order of the policy, then those of the deltas by id,
all without the masked ones. -/
def liveHits (policy : Policy) (ranking : Option ((Nat → Option Int) × Bool)) (base deltas : List Shelf) (dead : Bitmap)
    (keys : List Key) : List Nat :=
  baseOrder policy ranking ((shelfHits base keys).filter fun d => d ∉ dead) ++
    sortByKey id ((shelfHits deltas keys).filter fun d => d ∉ dead)

/-- The resolver serves a set's splits as the shelves say. -/
structure Stocked (set : SplitSet) (resolver : SplitFetcher) (base deltas : List Shelf) : Prop where
  bodyKind : set.bodyKind = .trigram
  base : List.Forall₂ (ServesShelf set resolver) set.baseSplits base
  deltas : List.Forall₂ (ServesShelf set resolver) set.deltaSplits deltas

variable {base deltas : List Shelf} {dead : Bitmap} {n : Nat} {ranking : Option ((Nat → Option Int) × Bool)}
  {indexed : Key → Prop}

/-- A descent over the base. -/
theorem Stocked.settles_searchTiered (h : Stocked set resolver base deltas) (hbloom : resolver.BloomOver indexed)
    (hindexed : ∀ s ∈ base, ∀ k, ∀ l ∈ s.posts.docs k, indexed k) (limit : Nat) :
    Settles (set.searchTiered resolver query (ngramKeysWith query set.gramSize set.caseFold) limit)
      (.ok ((shelfHits base (ngramKeysWith query set.gramSize set.caseFold)).take limit)) := by
  generalize hkeys : ngramKeysWith query set.gramSize set.caseFold = keys
  have hresults : List.Forall₂ (fun split hits => Settles (set.searchUnpruned resolver query keys limit split) (.ok hits))
      set.baseSplits ((base.map (Shelf.hits keys)).map (List.take limit)) := by
    rw [List.map_map, List.forall₂_map_right_iff]
    refine h.base.imp fun split s hserves => ?_
    have hsearch := hserves.serves.settles_searchUnpruned h.bodyKind query limit
    rw [hkeys, hserves.toGlobal, List.map_take] at hsearch
    exact hsearch
  have hprobe : Answers (fun present => present = false → ∀ hits ∈ (base.map (Shelf.hits keys)).map (List.take limit),
      hits = []) (globalBloomSaysPresent resolver keys) := by
    refine (answers_globalBloom hbloom keys).imp fun present habsent hfalse hits hhits => ?_
    obtain ⟨k, hk, hnot⟩ := habsent hfalse
    rw [List.map_map] at hhits
    obtain ⟨s, hs, rfl⟩ := List.mem_map.mp hhits
    have hnone : s.hits keys = [] := by
      refine List.eq_nil_iff_forall_not_mem.mpr fun d hd => ?_
      obtain ⟨-, l, hall, -⟩ := Shelf.mem_hits.mp hd
      exact hnot (hindexed s hs k l (hall k hk))
    show (s.hits keys).take limit = []
    rw [hnone, List.take_nil]
  have hdescent := @settles_searchTiers _ limit _ _ _ _ hresults hprobe
  rw [take_flatten_take] at hdescent
  exact hdescent

/-- **The set finds the live hits of its shelves**, as many as are wanted. -/
theorem Stocked.settles_search (h : Stocked set resolver base deltas) (hdead : set.dead = .ok dead)
    (hplain : deltas = [] → ∀ d, d ∉ dead)
    (hasc : ∀ keys, (shelfHits base keys).Pairwise (· < ·)) (hlt : ∀ keys, ∀ d ∈ shelfHits base keys, d < n)
    (hranked : set.policy = .stableKey → RankedBy set.sortcol resolver n ranking) (hbloom : resolver.BloomOver indexed)
    (hindexed : ∀ s ∈ base, ∀ k, ∀ l ∈ s.posts.docs k, indexed k) (query : String) (limit : Nat) :
    Settles (set.search resolver query limit) (.ok ((liveHits set.policy ranking base deltas dead
      (ngramKeysWith query set.gramSize set.caseFold)).take limit)) := by
  unfold SplitSet.search
  by_cases hzero : limit = 0
  · rw [if_pos hzero, hzero, List.take_zero]
    exact Settles.pure _
  rw [if_neg hzero]
  generalize hkeys : ngramKeysWith query set.gramSize set.caseFold = keys
  have hsearch : ∀ {splits shelves}, List.Forall₂ (ServesShelf set resolver) splits shelves →
      Settles (set.searchAll resolver splits query keys) (.ok (shelfHits shelves keys)) := by
    intro splits shelves hserves
    have := @settles_searchAll _ _ _ _ _ _ _ _ query h.bodyKind hserves
    rwa [hkeys] at this
  cases hdeltas : set.deltaSplits with
  | nil =>
    have hnil : deltas = [] := by
      have := h.deltas
      rw [hdeltas] at this
      cases this
      rfl
    have hlive : (shelfHits base keys).filter (fun d => d ∉ dead) = shelfHits base keys :=
      List.filter_eq_self.mpr fun d _ => decide_eq_true (hplain hnil d)
    have hhits : liveHits set.policy ranking base deltas dead keys =
        baseOrder set.policy ranking (shelfHits base keys) := by
      unfold liveHits
      rw [hlive, hnil]
      exact List.append_nil _
    rw [hhits]
    cases hpolicy : set.policy with
    | tiered =>
      have horder : baseOrder .tiered ranking (shelfHits base keys) = shelfHits base keys :=
        ((hasc keys).imp Nat.le_of_lt).insertionSort_eq
      rw [horder]
      have htiered := @Stocked.settles_searchTiered _ _ _ _ _ _ query _ _ _ h hbloom hindexed limit
      rw [hkeys] at htiered
      exact htiered
    | stableKey => exact (hsearch h.base).bind (settles_rankStableKey (hranked hpolicy) (hlt keys) limit)
  | cons split splits =>
    show Settles (set.searchWithDelta resolver query keys limit) _
    unfold SplitSet.searchWithDelta
    refine (hsearch h.base).bind ((hsearch h.deltas).bind ?_)
    unfold SplitSet.mergeSupersedeRank
    rw [hdead]
    refine (Settles.ofOutcome _).bind ((settles_rankBase hranked fun d hd => ?_).bind (Settles.pure _))
    exact hlt keys d (List.mem_of_mem_filter hd)

end

end RoaringRange
