import RoaringRange.Candidates
import RoaringRange.CountEstimate
import RoaringRange.FacetCounts
import RoaringRange.Membership

/-!
# An index with its facets, as a page uses it (`wasm.rs`)

`RrsIndex` is an open index with, where there is one, its facet sidecar.  `countEstimate` says how many docs a filtered
query has before anything is paged: the size of the smallest posting, or what the resident counts of the selected
categories leave, if that is less.  `filterIds` filters and counts a list of ids that comes from elsewhere.

    no set of docs that pass the filter is larger than the resident counts say           (len_le_filterCountBound)
    a query is priced at the bytes of the postings it names                              (RrsIndex.settles_queryCost)
    whatever reads fail, no more docs are paged than estimated                           (estimate_bounds_paging)
    filtering what a search has found is searching with the filter                       (filter_after_search)
-/

namespace RoaringRange

open ByteString Faults Slices Runs

/-! ## What a filter can leave -/

namespace FacetIndex

/-- The resident count of a pair. -/
def pairCount (fi : FacetIndex) (pair : String × String) : Nat := ((fi.named pair).map fun x => x.2.count).getD 0

/-- Adds a pair's count to its field's sum. -/
def sumPair (fi : FacetIndex) (sums : OrdMap String Nat) (pair : String × String) : OrdMap String Nat :=
  sums.update pair.1 fun old => old.getD 0 + fi.pairCount pair

def filterCountBound (fi : FacetIndex) (pairs : List (String × String)) : Option Nat :=
  if pairs.isEmpty then none else (pairs.foldl fi.sumPair ∅).values.min?

def filterCost (fi : FacetIndex) (pairs : List (String × String)) : Nat :=
  pairs.foldl (fun total p =>
    total + ((fi.named p).map fun x => x.2.range.headSize + x.2.range.tailSize).getD 0) 0

variable {fi : FacetIndex}

/-- A field's sum is that of the counts of its pairs. -/
theorem find?_foldl_sumPair (fi : FacetIndex) (pairs : List (String × String)) (sums : OrdMap String Nat)
    (field : String) : (pairs.foldl fi.sumPair sums).find? field =
      if field ∈ pairs.map Prod.fst then
        some ((sums.find? field).getD 0 + ((pairs.filter fun p => p.1 == field).map fi.pairCount).sum)
      else sums.find? field := by
  induction pairs generalizing sums with
  | nil => simp
  | cons p pairs ih =>
    rw [List.foldl_cons, ih, sumPair, OrdMap.find?_update]
    by_cases hp : field = p.1
    · subst hp
      simp only [if_true, List.map_cons, List.mem_cons, true_or, Option.getD_some, beq_self_eq_true,
        List.filter_cons_of_pos, List.sum_cons, Nat.add_assoc]
      split
      · rfl
      · next hnot =>
        have hnil : (pairs.filter fun q => q.1 == p.1) = [] := by
          rw [List.filter_eq_nil_iff]
          intro q hq hqp
          exact hnot (List.mem_map.mpr ⟨q, hq, by simpa using hqp⟩)
        rw [hnil, List.map_nil, List.sum_nil, Nat.add_zero]
    · have hne : ¬ p.1 = field := fun h => hp h.symm
      simp only [hp, if_false, List.map_cons, List.mem_cons, false_or]
      rw [List.filter_cons_of_neg (by simpa using hne)]

/-- A bound is the sum of one of the fields. -/
theorem filterCountBound_some {pairs : List (String × String)} {bound : Nat} (h : fi.filterCountBound pairs = some bound) :
    ∃ p ∈ pairs, bound = ((pairs.filter fun q => q.1 == p.1).map fi.pairCount).sum := by
  unfold filterCountBound at h
  split at h
  · cases h
  · obtain ⟨e, he, hbound⟩ := List.mem_map.mp (List.min?_mem h)
    have hfind := OrdMap.find?_eq_some_iff.mpr (show (e.1, e.2) ∈ (pairs.foldl fi.sumPair ∅).toList from he)
    rw [find?_foldl_sumPair] at hfind
    split at hfind
    · next hfield =>
      obtain ⟨p, hp, hname⟩ := List.mem_map.mp hfield
      refine ⟨p, hp, ?_⟩
      rw [← hbound, hname, ← Option.some.inj hfind, OrdMap.find?_empty, Option.getD_none, Nat.zero_add]
    · cases hfind

/-- Docs that are in one of some sets are no more than the sets have together. -/
theorem len_le_sum {α : Type} {S : Bitmap} {xs : List α} {docs : α → Bitmap} (h : ∀ d ∈ S, ∃ x ∈ xs, d ∈ docs x) :
    S.len ≤ (xs.map fun x => (docs x).len).sum := by
  have hsub : S.toList ⊆ xs.flatMap fun x => (docs x).toList := by
    intro d hd
    obtain ⟨x, hx, hdx⟩ := h d hd
    exact List.mem_flatMap.mpr ⟨x, hx, hdx⟩
  have hle := (List.subperm_of_subset (AscSet.nodup S) hsub).length_le
  rwa [List.length_flatMap] at hle

end FacetIndex

/-- Per field with includes the doc has one of the included categories, and it has no excluded one. -/
def FacetMap.Chosen (m : FacetMap) (sels : List FilterSel) (d : Nat) : Prop :=
  (∀ s ∈ sels, s.negate = false → ∃ q ∈ sels, q.negate = false ∧ q.field = s.field ∧ d ∈ m.docs q.field q.category) ∧
    ∀ s ∈ sels, s.negate = true → d ∉ m.docs s.field s.category

instance (m : FacetMap) (sels : List FilterSel) (d : Nat) : Decidable (m.Chosen sels d) :=
  inferInstanceAs (Decidable (_ ∧ _))

namespace FacetIndex

variable {fi : FacetIndex}

/-- A filter whose postings have the doc where the map does lets it through when it is chosen. -/
theorem passes_iff_chosen {m : FacetMap} {docs : CatRange → Bitmap} {d : Nat} (h : ∀ field category,
    (∃ r, fi.catRange field category = some r ∧ d ∈ docs r) ↔ d ∈ m.docs field category) (sels : List FilterSel) :
    ((fi.resolveSels sels).side docs).passes d = true ↔ m.Chosen sels d := by
  rw [passes_resolveSels, FacetMap.Chosen]
  refine and_congr ?_ ?_
  · simp only [h]
  · refine forall₂_congr fun s _ => imp_congr_right fun _ => ?_
    rw [← h, not_exists]
    exact forall_congr' fun r => not_and.symm

section

variable [Roaring]

/-- **An open sidecar of a map**: its names find the postings, cut at the boundary, and the counts of these. -/
structure Stands (fi : FacetIndex) (m : FacetMap) (headBoundary : Nat) : Prop where
  holds : fi.Holds m headBoundary
  splitAt : fi.SplitAt headBoundary
  category : ∀ f ∈ fi.fields, ∀ c ∈ f.categories, c.count = (m.docs f.name c.name).len ∧
    fi.headDocs c.range ∪ fi.tailDocs c.range = m.docs f.name c.name
  counts : headBoundary = bucketSize → fi.CountsHold fi.headDocs fi.tailDocs

/-- The sidecar that was written stands for its map, unless a category has all the 2^32 ids. -/
theorem SidecarOf.stands {m : FacetMap} {headBoundary : Nat} {file : Bytes} (h : fi.SidecarOf m headBoundary file)
    (hlen : ∀ field category, (m.docs field category).len < 2 ^ 32) : fi.Stands m headBoundary := by
  refine ⟨h.holds, h.splitAt, fun f hf c hc => ?_, fun heq => ?_⟩
  · obtain ⟨y, hy, hcy⟩ := h.category hf hc
    have hname : c.name = y.1 := hcy.name
    have hcount : c.count = y.2.len % 2 ^ 32 := hcy.count
    obtain ⟨hhead, htail⟩ := hcy.postings h.length_lt
    rw [← h.fetch] at hhead htail
    rw [← hname] at hy
    have hlt := hlen f.name c.name
    rw [hy] at hlt
    refine ⟨by rw [hcount, hy, Nat.mod_eq_of_lt hlt], ?_⟩
    have h1 : fi.headDocs c.range = y.2.below headBoundary := hhead.postingIn_eq
    have h2 : fi.tailDocs c.range = y.2.atLeast headBoundary := htail.postingIn_eq
    rw [h1, h2, hy]
    refine AscSet.ext_mem fun d => ?_
    rw [AscSet.mem_union, Bitmap.mem_below, Bitmap.mem_atLeast, ← and_or_left, and_iff_left (Nat.lt_or_ge d headBoundary)]
  · subst heq
    exact h.countsHold

variable {m : FacetMap} {headBoundary : Nat}

/-- Docs of a pair need the sidecar to have the pair. -/
theorem Stands.len_docs_le (h : fi.Stands m headBoundary) (p : String × String) :
    (m.docs p.1 p.2).len = fi.pairCount p := by
  unfold pairCount
  cases hx : fi.named p with
  | some x =>
    obtain ⟨f, hf, hmap⟩ := Option.bind_eq_some_iff.mp hx
    obtain ⟨c, hc, rfl⟩ := Option.map_eq_some_iff.mp hmap
    have hfname : f.name = p.1 := by simpa using List.find?_some hf
    have hcname : c.name = p.2 := by simpa using List.find?_some hc
    have hcount := (h.category f (List.mem_of_find?_eq_some hf) c (List.mem_of_find?_eq_some hc)).1
    rw [hfname, hcname] at hcount
    rw [Option.map_some, Option.getD_some]
    exact hcount.symm
  | none =>
    have hfound := h.holds.found p.1 p.2
    rw [catRange_named, hx] at hfound
    have hnone : m.posting p.1 p.2 = none := by
      simpa using hfound.symm
    rw [FacetMap.docs, hnone]
    rfl

/-- **The resident counts bound the filter**: docs that have, per selected field, one of its selected categories. -/
theorem Stands.len_le_filterCountBound (h : fi.Stands m headBoundary) {pairs : List (String × String)} {S : Bitmap}
    (hS : ∀ d ∈ S, m.Selects pairs d) {bound : Nat} (hb : fi.filterCountBound pairs = some bound) : S.len ≤ bound := by
  obtain ⟨p, hp, rfl⟩ := filterCountBound_some hb
  have hle := @len_le_sum _ S (pairs.filter fun q => q.1 == p.1) (fun q => m.docs q.1 q.2) (by
    intro d hd
    obtain ⟨q, hq, hname, hdq⟩ := hS d hd p hp
    exact ⟨q, List.mem_filter.mpr ⟨hq, by simpa using hname⟩, hdq⟩)
  have hcounts : ((pairs.filter fun q => q.1 == p.1).map fun q => (m.docs q.1 q.2).len) =
      (pairs.filter fun q => q.1 == p.1).map fi.pairCount := List.map_congr_left fun q _ => h.len_docs_le q
  rwa [hcounts] at hle

end

end FacetIndex

/-! ## The index and its facets -/

structure RrsIndex where
  inner : Index
  facets : Option FacetIndex

def selPairs (sels : List FilterSel) (includeOnly : Bool) : List (String × String) :=
  (sels.filter fun s => !(includeOnly && s.negate)).map fun s => (s.field, s.category)

/-- The ids as a bitmap. -/
theorem vals_lt (ids : List (Fin u32Bound)) : ∀ x ∈ ids.map Fin.val, x < u32Bound := by
  intro x hx
  obtain ⟨id, -, rfl⟩ := List.mem_map.mp hx
  exact id.isLt

def bitmapOf (ids : List (Fin u32Bound)) : Bitmap := AscSet.ofList (ids.map Fin.val) (vals_lt ids)

def facetCountsTopPerField : Nat := 64

namespace RrsIndex

/-- What the selections' bound leaves of an estimate. -/
def bounded (r : RrsIndex) (filters : Option (List FilterSel)) (est : Nat × Bool) : Nat × Bool :=
  match filters, r.facets with
  | some sels, some f =>
    match f.filterCountBound (selPairs sels true) with
    | some bound => (if bound < est.1 then bound else est.1, false)
    | none => est
  | _, _ => est

/-- The filter of a search: none without a sidecar or without selections. -/
def resolved (r : RrsIndex) (sels : List FilterSel) : Option ResolvedFilter :=
  match r.facets with
  | some f => if sels.isEmpty then none else some (f.resolveSels sels)
  | none => none

section

variable [Roaring]

/-- The ids that pass the selections, in the order they were given. -/
def keptIds (r : RrsIndex) (ids : List (Fin u32Bound)) (sels : List FilterSel) : Io (List (Fin u32Bound)) :=
  match r.resolved sels with
  | none => pure ids
  | some filter =>
    if filter.isEmpty then pure ids
    else do
      let mask ← filter.membershipBitmap (bitmapOf ids)
      pure (ids.filter fun id => decide (id.val ∈ mask))

/-- `wasm::filtered_ids`: the kept ids, and their counts where there are facets and they are wanted. -/
def filterIds [SelectNth] (r : RrsIndex) (ids : List (Fin u32Bound)) (sels : List FilterSel) (wantCounts : Bool) :
    Io (List (Fin u32Bound) × List (List Nat)) := do
  let kept ← r.keptIds ids sels
  match r.facets with
  | none => pure (kept, [])
  | some f =>
    if wantCounts then do
      let counts ← f.countsFull (bitmapOf kept) facetCountsTopPerField
      pure (kept, counts)
    else pure (kept, [])

variable [Unicode]

def queryCost (r : RrsIndex) (query : String) (filters : Option (List FilterSel)) : Io Nat := do
  let total ← r.inner.queryCost query
  match filters, r.facets with
  | some sels, some f => pure (total + f.filterCost (selPairs sels false))
  | _, _ => pure total

def countEstimate (r : RrsIndex) (query : String) (filters : Option (List FilterSel)) : Io (Nat × Bool) := do
  let est ← r.inner.countEstimate query
  pure (r.bounded filters est)

/-- `RrsIndex::search_cursor_filtered`: the cursor, and the counts in its head. -/
def searchCursorFiltered (r : RrsIndex) (query : String) (maxMissing : Nat) (sels : List FilterSel) :
    Io (Cursor × List (List Nat)) := do
  let cursor ← r.inner.searchCursorFiltered query maxMissing (r.resolved sels)
  match r.facets with
  | none => pure (cursor, [])
  | some f => pure (cursor, f.counts cursor.headResult)

end

end RrsIndex

/-! ## Docs that have all the keys -/

namespace Index

section

variable [Roaring] [Unicode] {ix : Index} {query : String}

/-- The estimate bounds the docs that have all the keys, and is their number where it says so. -/
theorem settles_countEstimate_strict (hw : ix.WellFormed) (query : String) :
    ∃ n exact, Settles (ix.countEstimate query) (.ok (n, exact)) ∧ (ix.strictDocs (ix.queryKeys query)).len ≤ n ∧
      (exact = true → (ix.strictDocs (ix.queryKeys query)).len = n) := by
  by_cases hne : ix.queryKeys query = []
  · refine ⟨0, true, ?_, ?_, fun _ => ?_⟩
    · unfold countEstimate
      simp only [hne]
      exact Settles.pure _
    · rw [hne]
      exact Nat.le_refl 0
    · rw [hne]
      rfl
  · obtain ⟨exact, hsettles, hexact⟩ := settles_countEstimate hw hne
    refine ⟨_, exact, hsettles, ?_⟩
    unfold smallest strictDocs
    cases hm : (ix.queryKeys query).mapM ix.postingOf with
    | none => exact ⟨Nat.le_refl 0, fun _ => rfl⟩
    | some sets =>
      have hall := mapM_some_forall₂ hm
      simp only
      have hsets : sets ≠ [] := by
        intro hnil
        rw [hnil, List.forall₂_nil_right_iff] at hall
        exact hne hall
      refine ⟨le_foldl_min (length_lt_u64 _) fun n hn => ?_, fun hex => ?_⟩
      · obtain ⟨S, hS, rfl⟩ := List.mem_map.mp hn
        exact AscSet.len_le_of_subset fun d hd => (AscSet.mem_inters hsets).mp hd S hS
      · have hone : (ix.queryKeys query).length = 1 := by
          rcases hexact hex with hone | hnone
          · exact hone
          · rw [hm] at hnone
            cases hnone
        rw [hall.length_eq] at hone
        obtain ⟨S, rfl⟩ := List.length_eq_one_iff.mp hone
        have hS : AscSet.inters [S] = S := by
          refine AscSet.ext_mem fun d => ?_
          rw [AscSet.mem_inters (List.cons_ne_nil _ _), List.forall_mem_singleton]
        rw [hS]
        exact (Nat.min_eq_right (length_lt_u64 S)).symm

end

end Index

/-! ## What a query is priced at -/

section

variable [Roaring] {fi : FacetIndex} {m : FacetMap} {headBoundary : Nat} {file : Bytes}

/-- The bytes of the two parts of a pair's posting. -/
def pairBytes (m : FacetMap) (headBoundary : Nat) (pair : String × String) : Nat :=
  ((m.posting pair.1 pair.2).map fun S =>
    (serialize (S.below headBoundary)).length + (serialize (S.atLeast headBoundary)).length).getD 0

/-- **The price of a filter** is the bytes of the postings it reads. -/
theorem FacetIndex.SidecarOf.filterCost_eq (h : fi.SidecarOf m headBoundary file) (pairs : List (String × String)) :
    fi.filterCost pairs = (pairs.map (pairBytes m headBoundary)).sum := by
  have hpair : ∀ p, ((fi.named p).map fun x => x.2.range.headSize + x.2.range.tailSize).getD 0 =
      pairBytes m headBoundary p := by
    intro p
    have hfound := h.found p.1 p.2
    rw [FacetIndex.catRange_named] at hfound
    unfold pairBytes
    cases hx : fi.named p with
    | none =>
      rw [hx] at hfound
      have hnone : m.posting p.1 p.2 = none := by simpa using hfound.symm
      rw [hnone]
      rfl
    | some x =>
      obtain ⟨f, hf, hmap⟩ := Option.bind_eq_some_iff.mp hx
      obtain ⟨c, hc, rfl⟩ := Option.map_eq_some_iff.mp hmap
      obtain ⟨y, -, hcy⟩ := h.category (List.mem_of_find?_eq_some hf) (List.mem_of_find?_eq_some hc)
      obtain ⟨hhead, htail⟩ := hcy.postings h.length_lt
      rw [← h.fetch] at hhead htail
      rw [hx, Option.map_some, Option.map_some] at hfound
      obtain ⟨S, hS, hparts⟩ := Option.map_eq_some_iff.mp hfound.symm
      have h1 : S.below headBoundary = y.2.below headBoundary :=
        (congrArg Prod.fst hparts).trans hhead.postingIn_eq
      have h2 : S.atLeast headBoundary = y.2.atLeast headBoundary :=
        (congrArg Prod.snd hparts).trans htail.postingIn_eq
      rw [hS, Option.map_some, Option.map_some, Option.getD_some, Option.getD_some, h1, h2]
      have e1 : (slice file c.range.headOff c.range.headSize).length = (serialize (y.2.below headBoundary)).length :=
        congrArg List.length hcy.head.2
      have e2 : (slice file c.range.tailOff c.range.tailSize).length = (serialize (y.2.atLeast headBoundary)).length :=
        congrArg List.length hcy.tail.2
      rw [length_slice _ _ _ hcy.head.1] at e1
      rw [length_slice _ _ _ hcy.tail.1] at e2
      rw [← e1, ← e2]
  have hfold : ∀ total, pairs.foldl (fun total p =>
      total + ((fi.named p).map fun x => x.2.range.headSize + x.2.range.tailSize).getD 0) total =
      total + (pairs.map (pairBytes m headBoundary)).sum := by
    induction pairs with
    | nil => simp
    | cons p pairs ih =>
      intro total
      rw [List.foldl_cons, ih, hpair, List.map_cons, List.sum_cons, Nat.add_assoc]
  exact (hfold 0).trans (Nat.zero_add _)

/-- The price of a query is the bytes of its keys' postings; with a key missing nothing is read. -/
theorem Index.settles_queryCost [Unicode] {ix : Index} (hw : ix.WellFormed) (query : String) :
    Settles (ix.queryCost query) (.ok (if (ix.queryKeys query).all fun k => (ix.findRec k).isSome then
      ((ix.queryKeys query).map ix.postingSize).sum else 0)) := by
  unfold queryCost
  generalize ix.queryKeys query = keys
  simp only
  split
  · next hnil =>
    rw [List.isEmpty_iff.mp hnil]
    exact Settles.pure _
  · refine (settles_lookupMany hw keys).bind ?_
    cases hrecs : (keys.map ix.findRec).mapM id with
    | none =>
      obtain ⟨o, ho, hnone⟩ := mapM_eq_none_iff.mp hrecs
      obtain ⟨k, hk, rfl⟩ := List.mem_map.mp ho
      have hnone : ix.findRec k = none := hnone
      have hsome : ¬ (keys.all fun k => (ix.findRec k).isSome) = true := by
        intro hall
        have hk' := List.all_eq_true.mp hall k hk
        rw [hnone] at hk'
        cases hk'
      rw [if_neg hsome]
      exact Settles.pure _
    | some recs =>
      have hall := mapM_some_forall₂ hrecs
      rw [List.forall₂_map_left_iff] at hall
      have hsome : (keys.all fun k => (ix.findRec k).isSome) = true := by
        refine List.all_eq_true.mpr fun k hk => ?_
        obtain ⟨rec, -, hrec⟩ := exists_partner hall hk
        have hrec : ix.findRec k = some rec := hrec
        rw [hrec]
        rfl
      have hsizes : recs.map DictRec.size = keys.map ix.postingSize := by
        have heq : List.Forall₂ Eq (recs.map DictRec.size) (keys.map ix.postingSize) := by
          rw [List.forall₂_map_left_iff, List.forall₂_map_right_iff]
          refine hall.flip.imp fun rec k hrec => ?_
          have hrec : ix.findRec k = some rec := hrec
          rw [postingSize, hrec]
          rfl
        rwa [List.forall₂_eq_eq_eq] at heq
      rw [if_pos hsome, ← hsizes]
      exact Settles.pure _

/-- **The price of a filtered query**, of files that were written: the bytes of the postings of the query's keys, or
nothing for them where a key has none, and those of both parts of every selected category. -/
theorem RrsIndex.settles_queryCost [Unicode] (c : Corpus) (h : fi.SidecarOf m headBoundary file) (query : String)
    (sels : List FilterSel) :
    let keys := ngramKeysWith query c.gramSize c.caseFold
    Settles (RrsIndex.queryCost ⟨c.index (MemoryFetch.new c.bytes), some fi⟩ query (some sels))
      (.ok ((if keys.all fun k => (c.posting k).isSome then
          (keys.map fun k => (((c.posting k).map fun S => (serialize S).length).getD 0)).sum else 0) +
        ((sels.map fun s => (s.field, s.category)).map (pairBytes m headBoundary)).sum)) := by
  intro keys
  have hcost := Index.settles_queryCost (@Corpus.wellFormed _ c) query
  have hkeys : (c.index (MemoryFetch.new c.bytes)).queryKeys query = keys := rfl
  rw [hkeys] at hcost
  have hpost : ∀ k, (c.index (MemoryFetch.new c.bytes)).postingOf k = c.posting k := c.postingOf_eq
  have hfind : ∀ k, ((c.index (MemoryFetch.new c.bytes)).findRec k).isSome = (c.posting k).isSome := by
    intro k
    rw [← hpost k, Index.postingOf, Option.isSome_map]
  have hsize : (c.index (MemoryFetch.new c.bytes)).postingSize =
      fun k => ((c.posting k).map fun S => (serialize S).length).getD 0 := by
    funext k
    cases hS : c.posting k with
    | some S => exact c.postingSize_eq ((hpost k).trans hS)
    | none =>
      have hnone := hfind k
      rw [hS, Option.isSome_none, Option.isSome_eq_false_iff, Option.isNone_iff_eq_none] at hnone
      rw [Index.postingSize, hnone]
      rfl
  have hpairs : selPairs sels false = sels.map fun s => (s.field, s.category) := by
    unfold selPairs
    simp
  simp only [hfind] at hcost
  rw [hsize] at hcost
  unfold RrsIndex.queryCost
  refine Settles.bind hcost ?_
  rw [← h.filterCost_eq, ← hpairs]
  exact Settles.pure _

end

/-! ## Pages and estimates -/

namespace RrsIndex

section

variable [Roaring]

/-- The head postings of the selections. -/
def headSide (r : RrsIndex) (sels : List FilterSel) : FilterSets :=
  match r.facets with
  | some f => (f.resolveSels sels).side f.headDocs
  | none => ⟨[], []⟩

/-- The tail postings of the selections. -/
def tailSide (r : RrsIndex) (sels : List FilterSel) : FilterSets :=
  match r.facets with
  | some f => (f.resolveSels sels).side f.tailDocs
  | none => ⟨[], []⟩

/-- An index that can be read, with the facets of a map where it has facets. -/
structure Stands (r : RrsIndex) (m : FacetMap) (headBoundary : Nat) : Prop where
  inner : r.inner.WellFormed
  facets : ∀ f, r.facets = some f → f.Stands m headBoundary

variable {r : RrsIndex} {m : FacetMap} {headBoundary : Nat}

theorem Stands.filterHolds (h : r.Stands m headBoundary) (sels : List FilterSel) :
    FilterHolds (r.resolved sels) (r.headSide sels) (r.tailSide sels) := by
  unfold resolved headSide tailSide
  cases hf : r.facets with
  | none => exact ⟨rfl, rfl⟩
  | some f =>
    simp only
    split
    · next hnil =>
      rw [List.isEmpty_iff.mp hnil]
      exact ⟨rfl, rfl⟩
    · exact f.resolveSels_filterAt (h.facets f hf).holds.posted sels

variable [Unicode]

/-- The docs that the cursor of a search pages. -/
def pagedBy (r : RrsIndex) (query : String) (maxMissing : Nat) (sels : List FilterSel) : Bitmap :=
  r.inner.paged query maxMissing (r.headSide sels) (r.tailSide sels)

/-- **What a search pages**, whatever reads fail, as long as no tail is loaded again after an error. -/
theorem Stands.paging (h : r.Stands m headBoundary) {query : String} {maxMissing : Nat} {sels : List FilterSel}
    {c : Cursor} {counts : List (List Nat)} {s s' : Schedule FetchError}
    (hopen : (r.searchCursorFiltered query maxMissing sels).run s = (.ok (c, counts), s'))
    {tr : List (Call × Outcome)} {σ : Cursor × Schedule FetchError} (hrun : Run Cursor.CarefulStep (c, s') tr σ) :
    σ.1.results <+: (r.pagedBy query maxMissing sels).toList ∧
      (Cursor.TailLoaded tr → σ.1.results = (r.pagedBy query maxMissing sels).toList) := by
  have hcursor : Settles (r.searchCursorFiltered query maxMissing sels)
      (.ok (r.inner.cursorFor query maxMissing (r.resolved sels) (r.headSide sels),
        (r.facets.map fun f => f.counts (r.inner.cursorFor query maxMissing (r.resolved sels)
          (r.headSide sels)).headResult).getD [])) := by
    unfold searchCursorFiltered
    refine (Index.settles_searchCursorFiltered h.inner (h.filterHolds sels)).bind ?_
    cases r.facets with
    | none => exact Settles.pure _
    | some f => exact Settles.pure _
  have hc := hcursor.eq_of_ok (congrArg Prod.fst hopen)
  have hc : c = r.inner.cursorFor query maxMissing (r.resolved sels) (r.headSide sels) :=
    (congrArg Prod.fst (Except.ok.inj hc)).symm
  obtain ⟨hP, -, hpos⟩ := @Index.cursorFor_pages _ _ _ _ _ r.inner query maxMissing h.inner (h.filterHolds sels)
  rw [← hc] at hP hpos
  have hpaging := Cursor.Paging.run hP hpos hrun
  exact ⟨hpaging.pages.isPrefix, hpaging.whole⟩

/-- A doc that is paged passes the selections by the head postings or by the tail postings. -/
theorem passes_of_paged {query : String} {maxMissing : Nat} {sels : List FilterSel} {d : Nat}
    (hd : d ∈ r.pagedBy query maxMissing sels) : d ∈ r.inner.candidates query maxMissing ∧
      ((r.headSide sels).passes d = true ∨ (r.tailSide sels).passes d = true) := by
  obtain ⟨hm, hs⟩ := AscSet.mem_filter.mp hd
  refine ⟨hm, ?_⟩
  unfold sided at hs
  split at hs
  · exact Or.inl hs
  · exact Or.inr hs

/-- A doc that is paged has one of the included categories of every field with includes. -/
theorem Stands.selects_of_paged (h : r.Stands m headBoundary) {f : FacetIndex} (hf : r.facets = some f) {query : String}
    {maxMissing : Nat} {sels : List FilterSel} {d : Nat} (hd : d ∈ r.pagedBy query maxMissing sels) :
    m.Selects (selPairs sels true) d := by
  have hstands := (h.facets f hf).holds
  have hmem : ∀ p, p ∈ selPairs sels true ↔ ∃ s ∈ sels, s.negate = false ∧ (s.field, s.category) = p := by
    intro p
    unfold selPairs
    rw [List.mem_map]
    simp only [List.mem_filter, Bool.true_and, Bool.not_eq_true', and_assoc]
  have hsel : ∀ docs : CatRange → Bitmap, (∀ field category r, f.catRange field category = some r → d ∈ docs r →
      d ∈ m.docs field category) → ((f.resolveSels sels).side docs).passes d = true → m.Selects (selPairs sels true) d := by
    intro docs hdocs hpass p hp
    obtain ⟨s, hs, hn, rfl⟩ := (hmem p).mp hp
    obtain ⟨q, hq, hqn, hfield, range, hrange, hdr⟩ := (FacetIndex.passes_resolveSels.mp hpass).1 s hs hn
    exact ⟨(q.field, q.category), (hmem _).mpr ⟨q, hq, hqn, rfl⟩, hfield, hdocs _ _ _ hrange hdr⟩
  obtain ⟨-, hpass⟩ := passes_of_paged hd
  unfold headSide tailSide at hpass
  rw [hf] at hpass
  rcases hpass with hpass | hpass
  · exact hsel f.headDocs (fun field category range hr hdr => (hstands.head_iff.mp ⟨range, hr, hdr⟩).1) hpass
  · exact hsel f.tailDocs (fun field category range hr hdr => (hstands.tail_iff.mp ⟨range, hr, hdr⟩).1) hpass

/-- Without selections every candidate is paged. -/
theorem pagedBy_nil (r : RrsIndex) (query : String) (maxMissing : Nat) :
    r.pagedBy query maxMissing [] = r.inner.candidates query maxMissing := by
  have hhead : r.headSide [] = ⟨[], []⟩ := by
    unfold headSide
    cases r.facets with
    | none => rfl
    | some f => rfl
  have htail : r.tailSide [] = ⟨[], []⟩ := by
    unfold tailSide
    cases r.facets with
    | none => rfl
    | some f => rfl
  refine AscSet.ext_mem fun d => ⟨fun hd => (passes_of_paged hd).1, fun hd => AscSet.mem_filter.mpr ⟨hd, ?_⟩⟩
  rw [hhead, htail, sided]
  split
  · rfl
  · rfl

/-- **A filtered query pages no more docs than were estimated**, whatever reads fail.  An estimate that says it is exact
is the number of docs of the query without its selections. -/
theorem estimate_bounds_paging (h : r.Stands m headBoundary) (query : String) (filters : Option (List FilterSel)) :
    ∃ n exact, Settles (r.countEstimate query filters) (.ok (n, exact)) ∧
      (∀ c counts s s', (r.searchCursorFiltered query 0 (filters.getD [])).run s = (.ok (c, counts), s') →
        ∀ tr σ, Run Cursor.CarefulStep (c, s') tr σ → σ.1.results.length ≤ n) ∧
      (exact = true → ∀ c counts s s', (r.searchCursorFiltered query 0 []).run s = (.ok (c, counts), s') →
        ∀ tr σ, Run Cursor.CarefulStep (c, s') tr σ → Cursor.TailLoaded tr → σ.1.results.length = n) := by
  obtain ⟨n, exact, hest, hle, hexact⟩ := Index.settles_countEstimate_strict h.inner query
  rw [← Index.candidates_zero, ← pagedBy_nil] at hle hexact
  have hpaged : ∀ sels, (r.pagedBy query 0 sels).len ≤ n := by
    intro sels
    refine Nat.le_trans (AscSet.len_le_of_subset fun d hd => ?_) hle
    rw [pagedBy_nil]
    exact (passes_of_paged hd).1
  have hbounded : (r.pagedBy query 0 (filters.getD [])).len ≤ (r.bounded filters (n, exact)).1 ∧
      ((r.bounded filters (n, exact)).2 = true → r.bounded filters (n, exact) = (n, exact)) := by
    unfold bounded
    split
    · next sels f hf =>
      have hn := hpaged sels
      split
      · next bound hb =>
        have hfew : (r.pagedBy query 0 sels).len ≤ bound :=
          (h.facets f hf).len_le_filterCountBound (fun d hd => h.selects_of_paged hf hd) hb
        refine ⟨?_, fun hno => (by cases hno)⟩
        simp only [Option.getD_some]
        split
        · exact hfew
        · exact hn
      · exact ⟨hn, fun _ => rfl⟩
    · exact ⟨hpaged _, fun _ => rfl⟩
  refine ⟨(r.bounded filters (n, exact)).1, (r.bounded filters (n, exact)).2, hest.bind (Settles.pure _), ?_, ?_⟩
  · intro c counts s s' hopen tr σ hrun
    exact (h.paging hopen hrun).1.length_le.trans hbounded.1
  · intro hex c counts s s' hopen tr σ hrun hload
    have hsame := hbounded.2 hex
    rw [hsame] at hex
    rw [(h.paging hopen hrun).2 hload, hsame]
    exact hexact hex

end

/-! ## Filtering ids that come from elsewhere -/

section

variable [Roaring] {r : RrsIndex} {m : FacetMap} {f : FacetIndex} {sels : List FilterSel}

omit [Roaring] in
theorem mem_bitmapOf {ids : List (Fin u32Bound)} {id : Fin u32Bound} : id.val ∈ bitmapOf ids ↔ id ∈ ids := by
  unfold bitmapOf
  rw [AscSet.mem_ofList, List.mem_map]
  constructor
  · rintro ⟨other, hother, heq⟩
    rwa [← Fin.ext heq]
  · intro hid
    exact ⟨id, hid, rfl⟩

/-- The two parts of a posting together are the category's docs. -/
theorem mem_parts_iff_docs {headBoundary d : Nat} (h : f.Holds m headBoundary) (field category : String) :
    (∃ range, f.catRange field category = some range ∧ d ∈ f.headDocs range ∪ f.tailDocs range) ↔
      d ∈ m.docs field category := by
  simp only [AscSet.mem_union, and_or_left, exists_or, h.head_iff, h.tail_iff]
  rw [← and_or_left, and_iff_left (Nat.lt_or_ge d headBoundary)]

/-- An id of the list has a category by what the list's ids have read of its postings when the map has it. -/
theorem mem_readDocs_iff_docs (h : f.Stands m bucketSize) {ids : Bitmap} {d : Nat} (hd : d ∈ ids) (field category : String) :
    (∃ range, f.catRange field category = some range ∧ d ∈ readDocs f.fetch f.headDocs f.tailDocs ids range) ↔
      d ∈ m.docs field category := by
  rw [← mem_parts_iff_docs h.holds]
  refine exists_congr fun range => and_congr_right fun hrange => ?_
  rw [h.splitAt.mem_readDocs_iff hrange hd, Nat.min_self, Nat.max_self, FacetIndex.Has, AscSet.mem_union, and_iff_left]
  rintro ⟨hge, hlt, -⟩
  omega

omit [Roaring] in
/-- Without selections every doc is chosen. -/
theorem chosen_nil (m : FacetMap) (d : Nat) : m.Chosen [] d :=
  ⟨fun _ hs => absurd hs List.not_mem_nil, fun _ hs => absurd hs List.not_mem_nil⟩

/-- **The kept ids are those that are chosen**, in the order they came. -/
theorem settles_keptIds (hf : r.facets = some f) (h : f.Stands m bucketSize) (ids : List (Fin u32Bound)) :
    Settles (r.keptIds ids sels) (.ok (ids.filter fun id => decide (m.Chosen sels id.val))) := by
  have hall : (∀ d, m.Chosen sels d) → ids.filter (fun id => decide (m.Chosen sels id.val)) = ids := by
    intro hall
    exact List.filter_eq_self.mpr fun id _ => decide_eq_true (hall id.val)
  unfold keptIds resolved
  rw [hf]
  simp only
  split
  · next hnone =>
    have hnil : sels = [] := by
      by_contra hne
      rw [if_neg (by simpa using hne)] at hnone
      cases hnone
    rw [hall fun d => by rw [hnil]; exact chosen_nil m d]
    exact Settles.pure _
  · next filter hfilter =>
    have hres : filter = f.resolveSels sels := by
      split at hfilter
      · cases hfilter
      · exact (Option.some.inj hfilter).symm
    rw [hres]
    split
    · next hempty =>
      have hchosen : ∀ d, m.Chosen sels d := by
        intro d
        rw [ResolvedFilter.isEmpty, Bool.and_eq_true, List.isEmpty_iff, List.isEmpty_iff] at hempty
        rw [← FacetIndex.passes_iff_chosen (mem_parts_iff_docs h.holds), passes_side, hempty.1, hempty.2]
        exact ⟨fun _ hc => absurd hc List.not_mem_nil, fun _ hc => absurd hc List.not_mem_nil⟩
      rw [hall hchosen]
      exact Settles.pure _
    · refine (ResolvedFilter.settles_membershipBitmap (h.splitAt.posted_resolveSels sels) (bitmapOf ids)).bind ?_
      have hkept : (ids.filter fun id => decide (id.val ∈ (bitmapOf ids).filter ((f.resolveSels sels).side
          (readDocs (f.resolveSels sels).fetch f.headDocs f.tailDocs (bitmapOf ids))).passes)) =
          ids.filter fun id => decide (m.Chosen sels id.val) := by
        refine List.filter_congr fun id hid => decide_eq_decide.mpr ?_
        rw [AscSet.mem_filter, and_iff_right (mem_bitmapOf.mpr hid)]
        exact FacetIndex.passes_iff_chosen (mem_readDocs_iff_docs h (mem_bitmapOf.mpr hid)) sels
      rw [hkept]
      exact Settles.pure _

variable [Unicode]

/-- A search with selections pages the docs of the search without them that are chosen. -/
theorem pagedBy_eq_filter (hf : r.facets = some f) (h : f.Stands m bucketSize) (query : String) (maxMissing : Nat)
    (sels : List FilterSel) : r.pagedBy query maxMissing sels =
      (r.pagedBy query maxMissing []).filter fun d => decide (m.Chosen sels d) := by
  have hside : ∀ sels d, sided (r.headSide sels) (r.tailSide sels) d = decide (m.Chosen sels d) := by
    intro sels d
    refine Bool.eq_iff_iff.mpr ?_
    rw [decide_eq_true_eq, sided, headSide, tailSide, hf]
    split
    · next hlt =>
      refine FacetIndex.passes_iff_chosen (fun field category => ?_) sels
      exact h.holds.head_iff.trans (and_iff_left hlt)
    · next hge =>
      refine FacetIndex.passes_iff_chosen (fun field category => ?_) sels
      exact h.holds.tail_iff.trans (and_iff_left (Nat.not_lt.mp hge))
  refine AscSet.ext_mem fun d => ?_
  unfold pagedBy Index.paged pagedDocs
  rw [AscSet.mem_filter, AscSet.mem_filter, AscSet.mem_filter, hside, hside, decide_eq_true (chosen_nil m d),
    and_iff_left rfl]

omit [Roaring] [Unicode] in
theorem category_mem_of {t : Nat × Nat} {g : Field} (hg : f.fields[t.1]? = some g) (ht : t.2 < g.categories.length) :
    f.category t ∈ g.categories := by
  have hfield : f.fields.getD t.1 ⟨"", []⟩ = g := by simp [List.getD_eq_getElem?_getD, hg]
  unfold FacetIndex.category
  rw [hfield, List.getD_eq_getElem _ _ ht]
  exact List.getElem_mem ht

variable [SelectNth]

/-- **Filtering what a search has found is searching with the filter**: of any ids, those that are chosen are kept in
their order and counted per category; of all the ids that a search without selections pages they are the ids that the
search with them pages, whatever reads fail in the two. -/
theorem filter_after_search (hf : r.facets = some f) (h : r.Stands m bucketSize) (sels : List FilterSel)
    (ids : List (Fin u32Bound)) (wantCounts : Bool) :
    ∃ kept counts, Settles (r.filterIds ids sels wantCounts) (.ok (kept, counts)) ∧
      kept = ids.filter (fun id => decide (m.Chosen sels id.val)) ∧
      (wantCounts = true → ∀ t ∈ f.pricedTargets facetCountsTopPerField, ∀ g, f.fields[t.1]? = some g →
        FacetIndex.countAt counts t = some (bitmapOf kept ∩ m.docs g.name (f.category t).name).len) ∧
      ∀ query maxMissing c₁ n₁ s₁ s₁' c₂ n₂ s₂ s₂',
        (r.searchCursorFiltered query maxMissing []).run s₁ = (.ok (c₁, n₁), s₁') →
        (r.searchCursorFiltered query maxMissing sels).run s₂ = (.ok (c₂, n₂), s₂') →
        ∀ tr₁ σ₁ tr₂ σ₂, Run Cursor.CarefulStep (c₁, s₁') tr₁ σ₁ → Run Cursor.CarefulStep (c₂, s₂') tr₂ σ₂ →
          Cursor.TailLoaded tr₁ → Cursor.TailLoaded tr₂ →
          ids.map Fin.val = σ₁.1.results → kept.map Fin.val = σ₂.1.results := by
  have hstands := h.facets f hf
  have hkept := @settles_keptIds _ r m f sels hf hstands ids
  generalize hsame : ids.filter (fun id => decide (m.Chosen sels id.val)) = kept at hkept
  have hpages : ∀ query maxMissing c₁ n₁ s₁ s₁' c₂ n₂ s₂ s₂',
      (r.searchCursorFiltered query maxMissing []).run s₁ = (.ok (c₁, n₁), s₁') →
      (r.searchCursorFiltered query maxMissing sels).run s₂ = (.ok (c₂, n₂), s₂') →
      ∀ tr₁ σ₁ tr₂ σ₂, Run Cursor.CarefulStep (c₁, s₁') tr₁ σ₁ → Run Cursor.CarefulStep (c₂, s₂') tr₂ σ₂ →
        Cursor.TailLoaded tr₁ → Cursor.TailLoaded tr₂ →
        ids.map Fin.val = σ₁.1.results → kept.map Fin.val = σ₂.1.results := by
    intro query maxMissing c₁ n₁ s₁ s₁' c₂ n₂ s₂ s₂' hopen₁ hopen₂ tr₁ σ₁ tr₂ σ₂ hrun₁ hrun₂ hload₁ hload₂ hids
    have h₁ := (h.paging hopen₁ hrun₁).2 hload₁
    have h₂ := (h.paging hopen₂ hrun₂).2 hload₂
    rw [h₂, pagedBy_eq_filter hf hstands, AscSet.toList_filter, ← h₁, ← hids, List.filter_map, ← hsame]
    rfl
  unfold filterIds
  cases wantCounts with
  | false =>
    refine ⟨kept, [], hkept.bind ?_, rfl, fun hno => (by cases hno), hpages⟩
    rw [hf]
    exact Settles.pure _
  | true =>
    obtain ⟨counts, hcounts, hall⟩ := FacetIndex.settles_countsFull (hstands.counts rfl) (bitmapOf kept)
      facetCountsTopPerField
    refine ⟨kept, counts, hkept.bind ?_, rfl, fun _ t ht g hg => ?_, hpages⟩
    · rw [hf]
      exact hcounts.bind (Settles.pure _)
    · have hpresent := FacetIndex.pricedTargets_present ht
      obtain ⟨g', hg', hlt⟩ := hpresent
      rw [hg] at hg'
      obtain rfl := Option.some.inj hg'
      have hmem := category_mem_of hg hlt
      rw [hall t ⟨g, hg, hlt⟩, if_pos ht, ((hstands.category g (List.mem_of_getElem? hg) _ hmem).2)]

end

end RrsIndex

section

attribute [local instance] PortableCodec.roaring asciiUnicode stableSelect

theorem oneCategory_len (field category : String) : (oneCategory.docs field category).len < 2 ^ 32 := by
  unfold FacetMap.docs FacetMap.posting oneCategory
  rw [OrdMap.find?_update]
  split
  · rw [Option.bind_some, OrdMap.find?_update]
    split
    · decide
    · rw [OrdMap.find?_empty]
      decide
  · rw [OrdMap.find?_empty, Option.bind_none]
    decide

/-- Three docs, of which one has the category. -/
def spreadIndex (fi : FacetIndex) : RrsIndex := ⟨abcIndex spreadResult, some fi⟩

theorem exists_spreadIndex : ∃ file fi, writeFacetsWith (facetFields oneCategory bucketSize) true = .ok file ∧
    Settles (FacetIndex.openMeta (MemoryFetch.new file)) (.ok fi) ∧ (spreadIndex fi).Stands oneCategory bucketSize := by
  obtain ⟨file, fi, hfile, hopen, hside⟩ := exists_sidecarOf oneCategory_fits bucketSize true
  refine ⟨file, fi, hfile, hopen, abcIndex_wellFormed spreadResult, fun f hf => ?_⟩
  rw [← Option.some.inj hf]
  exact hside.stands oneCategory_len

theorem estimate_bounds_paging_abc : ∃ file fi n exact,
    writeFacetsWith (facetFields oneCategory bucketSize) true = .ok file ∧
    Settles (FacetIndex.openMeta (MemoryFetch.new file)) (.ok fi) ∧
    Settles ((spreadIndex fi).countEstimate "abc" (some [⟨"f", "c", false⟩])) (.ok (n, exact)) ∧
    ∀ c counts s s', ((spreadIndex fi).searchCursorFiltered "abc" 0 [⟨"f", "c", false⟩]).run s = (.ok (c, counts), s') →
      ∀ tr σ, Run Cursor.CarefulStep (c, s') tr σ → σ.1.results.length ≤ n := by
  obtain ⟨file, fi, hfile, hopen, hstands⟩ := exists_spreadIndex
  obtain ⟨n, exact, hest, hle, -⟩ := RrsIndex.estimate_bounds_paging hstands "abc" (some [⟨"f", "c", false⟩])
  exact ⟨file, fi, n, exact, hfile, hopen, hest, hle⟩

/-- With exclusions only the estimate still says it is exact, although one of the three docs is not paged. -/
theorem exact_with_exclusion : ∃ fi, ((spreadIndex fi).countEstimate "abc" (some [⟨"f", "c", true⟩])).run Schedule.calm =
      (.ok (3, true), Schedule.calm) ∧ ((spreadIndex fi).pagedBy "abc" 0 [⟨"f", "c", true⟩]).toList = [3, 131072] := by
  obtain ⟨file, fi, -, -, hstands⟩ := exists_spreadIndex
  refine ⟨fi, ?_, ?_⟩
  · obtain ⟨n, exact, hest, -⟩ := Index.settles_countEstimate_strict hstands.inner "abc"
    have hvalue : (match ((abcIndex spreadResult).countEstimate "abc").run Schedule.calm with
        | (.ok est, _) => est == (3, true)
        | (.error _, _) => false) = true := by decide +kernel
    have hcalm : ((abcIndex spreadResult).countEstimate "abc").run Schedule.calm = (.ok (n, exact), Schedule.calm) := hest.calm
    rw [hcalm] at hvalue
    have hvalue : (n, exact) = (3, true) := by simpa using hvalue
    rw [hvalue] at hest
    exact (hest.bind (Settles.pure _)).calm
  · rw [RrsIndex.pagedBy_eq_filter rfl (hstands.facets fi rfl), RrsIndex.pagedBy_nil, AscSet.toList_filter]
    have hall : (spreadIndex fi).inner.candidates "abc" 0 = spreadResult := abcIndex_candidates spreadResult
    rw [hall]
    decide +kernel

theorem filter_after_search_abc : ∃ file fi kept counts,
    writeFacetsWith (facetFields oneCategory bucketSize) true = .ok file ∧
    Settles (FacetIndex.openMeta (MemoryFetch.new file)) (.ok fi) ∧
    Settles ((spreadIndex fi).filterIds [wrapAdd 0 131072, wrapAdd 0 65541, wrapAdd 0 3] [⟨"f", "c", true⟩] true)
      (.ok (kept, counts)) ∧ kept = [wrapAdd 0 131072, wrapAdd 0 3] := by
  obtain ⟨file, fi, hfile, hopen, hstands⟩ := exists_spreadIndex
  obtain ⟨kept, counts, hkept, hchosen, -⟩ := @RrsIndex.filter_after_search _ (spreadIndex fi) oneCategory fi _ _ rfl hstands
    [⟨"f", "c", true⟩] [wrapAdd 0 131072, wrapAdd 0 65541, wrapAdd 0 3] true
  refine ⟨file, fi, kept, counts, hfile, hopen, hkept, hchosen.trans ?_⟩
  decide +kernel

end

end RoaringRange
