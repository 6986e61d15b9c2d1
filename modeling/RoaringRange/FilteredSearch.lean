import RoaringRange.CursorDrain
import RoaringRange.FacetCorpus
import RoaringRange.ShelfSearch

/-!
# Filtered search over a split set (`splitset.rs`)

A filter is a list of selected categories.  A split is passed over where its Bloom filter or its facet keys say that it has
no hit; the others are searched by a cursor with the filter of their own sidecar.

    a split is searched as its postings and its facets say                          (SplitFilters.settles_search)
    a split that is passed over has no hit                                          (SplitFilters.hits_of_pruned)
-/

namespace RoaringRange

open ByteString Faults Slices Tiles

/-! ## The search -/

/-- The category keys of a filter, by field. -/
def selectedKeys [Unicode] (filter : List (String × String)) (caseFold : Bool) : List (List Key) :=
  (filter.foldl (fun arms p => arms.update p.1 fun ks => ks.getD [] ++ [facetKey p.1 p.2 caseFold])
    (∅ : OrdMap String (List Key))).values

namespace SplitSet

section

variable [Roaring] [Unicode] [TokenFilters] [Fst]

def searchSplitFiltered (set : SplitSet) (resolver : SplitFetcher) (query : String) (filter : List (String × String))
    (limit : Nat) (split : Split) : Io (List Nat) := do
  let facets ← FacetIndex.openMeta (resolver.fetchNamed (facetFileName split.dataFile))
  let resolved := facets.resolve filter
  if resolved.hasEmptyArm then pure []
  else do
    let body ← openSplit resolver split set.bodyKind
    match body with
    | .trigram ix => do
      let cursor ← ix.searchCursorFiltered query 0 (some resolved)
      let (hits, _) ← (Cursor.firstHits limit).on cursor
      pure (hits.map split.toGlobal)
    | .term _ => throw (.unsupported "facet-filtered search is not yet supported on term-bodied splits")

/-- Whether a split survives: the Bloom filter is asked first. -/
def survives (set : SplitSet) (keys : List Key) (fields : List (List Key)) (split : Split) : Except IndexError Bool :=
  if set.prunedByBloom split keys then pure false
  else do
    let pruned ← set.facetPruned split fields
    pure (!pruned)

/-- The search of a split that may be passed over. -/
def searchSurviving (set : SplitSet) (resolver : SplitFetcher) (query : String) (filter : List (String × String))
    (keys : List Key) (fields : List (List Key)) (limit : Nat) (split : Split) : Io (List Nat) := do
  let alive ← ofOutcome (set.survives keys fields split)
  if alive then set.searchSplitFiltered resolver query filter limit split else pure []

/-- The splits that survive, or the first summary that is malformed. -/
def survivors (set : SplitSet) (keys : List Key) (fields : List (List Key)) : List Split → Except IndexError (List Split)
  | [] => .ok []
  | split :: splits => do
    let alive ← set.survives keys fields split
    let rest ← set.survivors keys fields splits
    pure (if alive then split :: rest else rest)

/-- The part of `SplitSet::search_filtered` for a stable-key set or one with deltas. -/
def searchFilteredAll (set : SplitSet) (resolver : SplitFetcher) (query : String) (filter : List (String × String))
    (keys : List Key) (fields : List (List Key)) (limit : Nat) : Io (List Nat) := do
  let baseTargets ← ofOutcome (set.survivors keys fields set.baseSplits)
  let deltaTargets ← ofOutcome (set.survivors keys fields set.deltaSplits)
  let baseResults ← joinAll (baseTargets.map (set.searchSplitFiltered resolver query filter usizeMax))
  let deltaResults ← joinAll (deltaTargets.map (set.searchSplitFiltered resolver query filter usizeMax))
  let base ← ofOutcome (collect baseResults)
  let delta ← ofOutcome (collect deltaResults)
  set.mergeSupersedeRank resolver base.flatten delta.flatten limit

def searchFiltered (set : SplitSet) (resolver : SplitFetcher) (query : String) (filter : List (String × String))
    (limit : Nat) : Io (List Nat) :=
  if limit = 0 then pure []
  else if filter.isEmpty then set.search resolver query limit
  else
    let keys := ngramKeysWith query set.gramSize set.caseFold
    let fields := selectedKeys filter set.caseFold
    if set.deltaSplits.isEmpty ∧ set.policy = .tiered then
      searchTiers resolver keys (set.searchSurviving resolver query filter keys fields limit) limit set.baseSplits
    else set.searchFilteredAll resolver query filter keys fields limit

/-- The hits that `count_exact` counts. -/
def countedIds (set : SplitSet) (resolver : SplitFetcher) (query : String) (filter : List (String × String)) :
    Io (List Nat) :=
  if filter.isEmpty then set.search resolver query usizeMax else set.searchFiltered resolver query filter usizeMax

def countExact (set : SplitSet) (resolver : SplitFetcher) (query : String) (filter : List (String × String)) : Io Nat := do
  let ids ← set.countedIds resolver query filter
  pure ids.length

end

end SplitSet

/-! ## A split -/

/-- The docs of a split that have all the keys and, per selected field, one of its selected categories. -/
def PostMap.filteredDocs (posts : PostMap) (facets : FacetMap) (keys : List Key) (filter : List (String × String)) : Bitmap :=
  (posts.strictDocs keys).filter fun d => decide (facets.Selects filter d)

theorem PostMap.filteredDocs_eq_empty {posts : PostMap} {facets : FacetMap} {keys : List Key}
    {filter : List (String × String)} (h : ∀ d ∈ posts.strictDocs keys, ¬ facets.Selects filter d) :
    posts.filteredDocs facets keys filter = ∅ := by
  refine AscSet.isEmpty_iff.mp (AscSet.isEmpty_iff_forall.mpr fun d hd => ?_)
  obtain ⟨hmem, hsel⟩ := AscSet.mem_filter.mp hd
  exact h d hmem (of_decide_eq_true hsel)

section

variable [Roaring] [Unicode]

theorem Index.candidates_zero (ix : Index) (query : String) : ix.candidates query 0 = ix.strictDocs (ix.queryKeys query) := by
  refine AscSet.ext_mem fun d => ?_
  have hpos : 1 ≤ ix.minMatch query 0 := Nat.le_max_right _ _
  have hcount : hits (ix.foundSets query) d =
      (ix.queryKeys query).countP fun k => ((ix.postingOf k).map fun S => decide (d ∈ S)).getD false :=
    List.countP_filterMap
  have hhas : ∀ k, ((ix.postingOf k).map fun S => decide (d ∈ S)).getD false = true ↔
      ∃ S, ix.postingOf k = some S ∧ d ∈ S := by
    intro k
    cases ix.postingOf k <;> simp
  rw [Index.candidates, mem_matching hpos, hcount, Index.mem_strictDocs]
  simp only [← hhas]
  rw [← List.countP_eq_length, Index.minMatch, Nat.sub_zero]
  have hle := @List.countP_le_length _ (fun k => ((ix.postingOf k).map fun S => decide (d ∈ S)).getD false) (ix.queryKeys query)
  rw [← List.length_pos_iff]
  omega

variable [Fst]

/-- A split that answers with a filter: it is passed over rightly, or it has the sidecar of its facets, and none of its docs
lies between the eager bound and the boundary where the sidecar cuts its postings. -/
structure SplitFilters (set : SplitSet) (resolver : SplitFetcher) (split : Split) (posts : PostMap) (facets : FacetMap) :
    Prop where
  serves : SplitServes set resolver split posts
  answers : ∀ filter, filter ≠ [] → ∃ pruned,
    set.facetPruned split (selectedKeys filter set.caseFold) = .ok pruned ∧
      (pruned = true → ∀ d, ¬ facets.Selects filter d) ∧ (pruned = false → ∃ fi headBoundary,
        Settles (FacetIndex.openMeta (resolver.fetchNamed (facetFileName split.dataFile))) (.ok fi) ∧
        fi.Holds facets headBoundary ∧ ∀ k, ∀ d ∈ posts.docs k, d < eagerDocBound ↔ d < headBoundary)

variable {set : SplitSet} {resolver : SplitFetcher} {split : Split} {posts : PostMap} {facets : FacetMap} {query : String}
  {filter : List (String × String)} {limit : Nat}

omit [Fst] in
theorem Index.paged_filtered {ix : Index} (hpost : ∀ k, ix.postingOf k = posts.find? k) {fi : FacetIndex} {headBoundary : Nat}
    (hfi : fi.Holds facets headBoundary) (hcut : ∀ k, ∀ d ∈ posts.docs k, d < eagerDocBound ↔ d < headBoundary) :
    ix.paged query 0 ((fi.resolve filter).side fi.headDocs) ((fi.resolve filter).side fi.tailDocs) =
      posts.filteredDocs facets (ix.queryKeys query) filter := by
  have hstrict : ix.strictDocs (ix.queryKeys query) = posts.strictDocs (ix.queryKeys query) := by
    refine AscSet.ext_mem fun d => ?_
    rw [mem_strictDocs_iff hpost, PostMap.mem_strictDocs]
  have hsides : ix.SidesAgree query 0 ((fi.resolve filter).side fi.headDocs) ((fi.resolve filter).side fi.tailDocs) := by
    intro d hd
    rw [Index.candidates_zero, hstrict] at hd
    obtain ⟨hne, hall⟩ := PostMap.mem_strictDocs.mp hd
    obtain ⟨k, hk⟩ := List.exists_mem_of_ne_nil _ hne
    have hside := hcut k d (hall k hk)
    rw [Bool.eq_iff_iff, hfi.join_passes]
    unfold sided FacetMap.Selects
    split
    · next hlt =>
      rw [hfi.head_passes]
      simp only [hside.mp hlt, and_true]
    · next hge =>
      rw [hfi.tail_passes]
      simp only [Nat.not_lt.mp fun h => hge (hside.mpr h), and_true]
  rw [Index.paged_eq_exact_iff.mpr hsides, Index.exact, Index.candidates_zero, hstrict]
  refine AscSet.filter_congr fun d _ => ?_
  rw [Bool.eq_iff_iff, hfi.join_passes, decide_eq_true_eq]

omit [Fst] in
/-- A cursor that was just opened is on its way through what it pages. -/
theorem Index.cursorFor_onTheWay {ix : Index} (hw : ix.WellFormed) {rf : Option ResolvedFilter} {H T : FilterSets}
    (h : FilterHolds rf H T) (maxMissing : Nat) :
    (ix.cursorFor query maxMissing rf H).OnTheWay (ix.paged query maxMissing H T) := by
  obtain ⟨hpages, hscanned, -⟩ := @Index.cursorFor_pages _ rf H T _ _ query maxMissing hw h
  refine ⟨hpages, hscanned, fun scan hs => ?_⟩
  unfold Index.cursorFor at hs
  split at hs <;> cases hs

theorem settles_searchSplitFiltered (hserves : SplitServes set resolver split posts) (hkind : set.bodyKind = .trigram)
    {fi : FacetIndex} {headBoundary : Nat}
    (hopen : Settles (FacetIndex.openMeta (resolver.fetchNamed (facetFileName split.dataFile))) (.ok fi))
    (hfi : fi.Holds facets headBoundary) (hcut : ∀ k, ∀ d ∈ posts.docs k, d < eagerDocBound ↔ d < headBoundary) :
    Settles (set.searchSplitFiltered resolver query filter limit split)
      (.ok (((posts.filteredDocs facets (ngramKeysWith query set.gramSize set.caseFold) filter).toList.take limit).map
        split.toGlobal)) := by
  obtain ⟨ix, hix, hwell, hgram, hcase, hpost⟩ := hserves.opens
  have hkeys : ix.queryKeys query = ngramKeysWith query set.gramSize set.caseFold := by
    rw [Index.queryKeys, hgram, hcase]
  have hholds : FilterHolds (some (fi.resolve filter)) ((fi.resolve filter).side fi.headDocs)
      ((fi.resolve filter).side fi.tailDocs) := FacetIndex.resolve_filterAt hfi.posted filter
  have hpaged := @Index.paged_filtered _ _ posts facets query filter ix hpost fi headBoundary hfi hcut
  rw [hkeys] at hpaged
  unfold SplitSet.searchSplitFiltered
  refine hopen.bind ?_
  simp only
  split
  · next harm =>
    have hnone := @Index.paged_eq_empty _ _ _ _ _ ix query 0 hholds (Or.inl harm)
    rw [← hpaged, hnone, AscSet.toList_empty, List.take_nil, List.map_nil]
    exact Settles.pure _
  · next harm =>
    rw [hkind]
    refine hix.bind ?_
    refine (Index.settles_searchCursorFiltered hwell hholds).bind ?_
    have hway := @Index.cursorFor_onTheWay _ _ query ix hwell _ _ _ hholds 0
    rw [hpaged] at hway
    exact Cursor.settles_firstHits hway limit fun c' => Settles.pure _

/-- **A split that is passed over has no hit**, and one that is not is searched as its postings and its facets say. -/
theorem SplitFilters.survives (h : SplitFilters set resolver split posts facets) (hkind : set.bodyKind = .trigram)
    (hfilter : filter ≠ []) (query : String) : ∃ alive,
    set.survives (ngramKeysWith query set.gramSize set.caseFold) (selectedKeys filter set.caseFold) split = .ok alive ∧
      (alive = false → posts.filteredDocs facets (ngramKeysWith query set.gramSize set.caseFold) filter = ∅) ∧
      (alive = true → ∀ limit, Settles (set.searchSplitFiltered resolver query filter limit split)
        (.ok (((posts.filteredDocs facets (ngramKeysWith query set.gramSize set.caseFold) filter).toList.take limit).map
          split.toGlobal))) := by
  obtain ⟨pruned, hpruned, hgone, hthere⟩ := h.answers filter hfilter
  unfold SplitSet.survives
  by_cases hbloom : set.prunedByBloom split (ngramKeysWith query set.gramSize set.caseFold) = true
  · rw [if_pos hbloom]
    refine ⟨false, rfl, fun _ => PostMap.filteredDocs_eq_empty fun d hd => ?_, fun h => by cases h⟩
    rw [h.serves.strictDocs_of_pruned hbloom] at hd
    exact absurd hd (AscSet.not_mem_empty d)
  · rw [if_neg hbloom, hpruned]
    refine ⟨!pruned, rfl, fun hdead => ?_, fun halive limit => ?_⟩
    · exact PostMap.filteredDocs_eq_empty fun d _ => hgone (by simpa using hdead) d
    · obtain ⟨fi, headBoundary, hopen, hfi, hcut⟩ := hthere (by simpa using halive)
      exact settles_searchSplitFiltered h.serves hkind hopen hfi hcut

theorem SplitFilters.settles_search (h : SplitFilters set resolver split posts facets) (hkind : set.bodyKind = .trigram)
    (hfilter : filter ≠ []) (query : String) (limit : Nat) : Settles (set.searchSurviving resolver query filter
      (ngramKeysWith query set.gramSize set.caseFold) (selectedKeys filter set.caseFold) limit split)
      (.ok (((posts.filteredDocs facets (ngramKeysWith query set.gramSize set.caseFold) filter).toList.take limit).map
        split.toGlobal)) := by
  obtain ⟨alive, halive, hnone, hsome⟩ := h.survives hkind hfilter query
  unfold SplitSet.searchSurviving
  rw [halive]
  refine (Settles.ofOutcome (.ok alive)).bind ?_
  cases alive with
  | true => exact hsome rfl limit
  | false =>
    rw [hnone rfl, AscSet.toList_empty, List.take_nil, List.map_nil]
    exact Settles.pure _

/-! ## The splits of a set -/

/-- The ids of a shelf's documents that have all the keys and, per selected field, one of its selected categories. -/
def filteredHits (keys : List Key) (filter : List (String × String)) (x : Shelf × FacetMap) : List Nat :=
  (x.1.posts.filteredDocs x.2 keys filter).toList.map x.1.spec.entry.toGlobal

structure ServesFaceted (set : SplitSet) (resolver : SplitFetcher) (split : Split) (x : Shelf × FacetMap) : Prop where
  filters : SplitFilters set resolver split x.1.posts x.2
  toGlobal : split.toGlobal = x.1.spec.entry.toGlobal

variable {splits : List Split} {shelves : List (Shelf × FacetMap)}

theorem exists_survivors (hkind : set.bodyKind = .trigram) (hfilter : filter ≠ [])
    (h : List.Forall₂ (ServesFaceted set resolver) splits shelves) (query : String) : ∃ alive results,
    set.survivors (ngramKeysWith query set.gramSize set.caseFold) (selectedKeys filter set.caseFold) splits = .ok alive ∧
      List.Forall₂ (fun x r => Settles x (.ok r)) (alive.map (set.searchSplitFiltered resolver query filter usizeMax)) results ∧
      results.flatten = shelves.flatMap (filteredHits (ngramKeysWith query set.gramSize set.caseFold) filter) := by
  induction h with
  | nil => exact ⟨[], [], rfl, List.Forall₂.nil, rfl⟩
  | @cons split x splits shelves hserves _ ih =>
    obtain ⟨rest, results, hrest, hall, hflat⟩ := ih
    obtain ⟨alive, halive, hnone, hsome⟩ := hserves.filters.survives hkind hfilter query
    have hsurvivors : set.survivors (ngramKeysWith query set.gramSize set.caseFold) (selectedKeys filter set.caseFold)
        (split :: splits) = .ok (if alive then split :: rest else rest) := by
      unfold SplitSet.survivors
      rw [halive, hrest]
      rfl
    rw [hsurvivors, List.flatMap_cons, ← hflat]
    cases alive with
    | false =>
      refine ⟨rest, results, rfl, hall, ?_⟩
      unfold filteredHits
      rw [hnone rfl, AscSet.toList_empty, List.map_nil, List.nil_append]
    | true =>
      refine ⟨split :: rest, _ :: results, rfl, List.Forall₂.cons ?_ hall, rfl⟩
      have hsearch := hsome rfl usizeMax
      rw [take_usizeMax (AscSet.nodup _) (AscSet.all _), hserves.toGlobal] at hsearch
      exact hsearch

/-- The filtered hits of a set: those of the base in the order of the policy, then those of the deltas by id, all without
the masked ones. -/
def filteredLive (policy : Policy) (ranking : Option ((Nat → Option Int) × Bool)) (base deltas : List (Shelf × FacetMap))
    (dead : Bitmap) (keys : List Key) (filter : List (String × String)) : List Nat :=
  baseOrder policy ranking ((base.flatMap (filteredHits keys filter)).filter fun d => d ∉ dead) ++
    sortByKey id ((deltas.flatMap (filteredHits keys filter)).filter fun d => d ∉ dead)

/-- The resolver serves a set's splits and sidecars as the shelves and facets say. -/
structure StockedFacets (set : SplitSet) (resolver : SplitFetcher) (base deltas : List (Shelf × FacetMap)) : Prop where
  bodyKind : set.bodyKind = .trigram
  base : List.Forall₂ (ServesFaceted set resolver) set.baseSplits base
  deltas : List.Forall₂ (ServesFaceted set resolver) set.deltaSplits deltas

omit [Roaring] [Unicode] [Fst] in
theorem mem_hits_of_filtered {x : Shelf × FacetMap} {keys : List Key} {d : Nat} (h : d ∈ filteredHits keys filter x) :
    d ∈ x.1.hits keys := by
  obtain ⟨l, hl, rfl⟩ := List.mem_map.mp h
  exact List.mem_map_of_mem (AscSet.mem_filter.mp hl).1

variable {base deltas : List (Shelf × FacetMap)} {dead : Bitmap} {n : Nat} {ranking : Option ((Nat → Option Int) × Bool)}
  {indexed : Key → Prop}

theorem StockedFacets.settles_descent (h : StockedFacets set resolver base deltas) (hfilter : filter ≠ [])
    (hbloom : resolver.BloomOver indexed) (hindexed : ∀ x ∈ base, ∀ k, ∀ l ∈ x.1.posts.docs k, indexed k) (limit : Nat) :
    Settles (searchTiers resolver (ngramKeysWith query set.gramSize set.caseFold)
      (set.searchSurviving resolver query filter (ngramKeysWith query set.gramSize set.caseFold)
        (selectedKeys filter set.caseFold) limit) limit set.baseSplits)
      (.ok ((base.flatMap (filteredHits (ngramKeysWith query set.gramSize set.caseFold) filter)).take limit)) := by
  generalize hkeys : ngramKeysWith query set.gramSize set.caseFold = keys
  have hresults : List.Forall₂ (fun split hits => Settles (set.searchSurviving resolver query filter keys
      (selectedKeys filter set.caseFold) limit split) (.ok hits)) set.baseSplits
      ((base.map (filteredHits keys filter)).map (List.take limit)) := by
    rw [List.map_map, List.forall₂_map_right_iff]
    refine h.base.imp fun split x hserves => ?_
    have hsearch := hserves.filters.settles_search h.bodyKind hfilter query limit
    rw [hkeys, hserves.toGlobal, List.map_take] at hsearch
    exact hsearch
  have hprobe : Answers (fun present => present = false → ∀ hits ∈ (base.map (filteredHits keys filter)).map (List.take limit),
      hits = []) (globalBloomSaysPresent resolver keys) := by
    refine (answers_globalBloom hbloom keys).imp fun present habsent hfalse hits hhits => ?_
    obtain ⟨k, hk, hnot⟩ := habsent hfalse
    rw [List.map_map] at hhits
    obtain ⟨x, hx, rfl⟩ := List.mem_map.mp hhits
    have hnone : filteredHits keys filter x = [] := by
      refine List.eq_nil_iff_forall_not_mem.mpr fun d hd => ?_
      obtain ⟨-, l, hall, -⟩ := Shelf.mem_hits.mp (mem_hits_of_filtered hd)
      exact hnot (hindexed x hx k l (hall k hk))
    show (filteredHits keys filter x).take limit = []
    rw [hnone, List.take_nil]
  have hdescent := @settles_searchTiers _ limit _ _ _ _ hresults hprobe
  rw [take_flatten_take] at hdescent
  exact hdescent

/-- **The set finds the filtered hits of its shelves**, as many as are wanted. -/
theorem StockedFacets.settles_searchFiltered (h : StockedFacets set resolver base deltas) (hfilter : filter ≠ [])
    (hdead : set.dead = .ok dead) (hplain : deltas = [] → ∀ d, d ∉ dead)
    (hasc : ∀ keys, (base.flatMap (filteredHits keys filter)).Pairwise (· < ·))
    (hlt : ∀ keys, ∀ d ∈ base.flatMap (filteredHits keys filter), d < n)
    (hranked : set.policy = .stableKey → RankedBy set.sortcol resolver n ranking) (hbloom : resolver.BloomOver indexed)
    (hindexed : ∀ x ∈ base, ∀ k, ∀ l ∈ x.1.posts.docs k, indexed k) (query : String) (limit : Nat) [TokenFilters] :
    Settles (set.searchFiltered resolver query filter limit) (.ok ((filteredLive set.policy ranking base deltas dead
      (ngramKeysWith query set.gramSize set.caseFold) filter).take limit)) := by
  unfold SplitSet.searchFiltered
  by_cases hzero : limit = 0
  · rw [if_pos hzero, hzero, List.take_zero]
    exact Settles.pure _
  rw [if_neg hzero, if_neg (by simpa using hfilter)]
  simp only
  split
  · next htiered =>
    obtain ⟨hnone, hpolicy⟩ := htiered
    have hnil : deltas = [] := by
      have hd := h.deltas
      rw [List.isEmpty_iff.mp hnone] at hd
      cases hd
      rfl
    have hlive : filteredLive set.policy ranking base deltas dead (ngramKeysWith query set.gramSize set.caseFold) filter =
        base.flatMap (filteredHits (ngramKeysWith query set.gramSize set.caseFold) filter) := by
      unfold filteredLive
      rw [hnil, hpolicy, List.filter_eq_self.mpr fun d _ => decide_eq_true (hplain hnil d)]
      exact (List.append_nil _).trans ((hasc _).imp Nat.le_of_lt).insertionSort_eq
    rw [hlive]
    exact h.settles_descent hfilter hbloom hindexed limit
  · obtain ⟨alive, results, hbase, hall, hflat⟩ := exists_survivors h.bodyKind hfilter h.base query
    obtain ⟨alive', results', hdeltas, hall', hflat'⟩ := exists_survivors h.bodyKind hfilter h.deltas query
    unfold SplitSet.searchFilteredAll
    rw [hbase, hdeltas]
    refine (Settles.ofOutcome (.ok alive)).bind ((Settles.ofOutcome (.ok alive')).bind ?_)
    refine Settles.joinAll_both hall hall' ?_
    rw [hflat, hflat']
    unfold SplitSet.mergeSupersedeRank
    rw [hdead]
    refine (Settles.ofOutcome (.ok dead)).bind ((settles_rankBase hranked fun d hd => ?_).bind (Settles.pure _))
    exact hlt _ d (List.mem_of_mem_filter hd)

end

end RoaringRange
