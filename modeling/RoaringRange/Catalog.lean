import RoaringRange.PageReach
import RoaringRange.Paging
import RoaringRange.Records

/-!
# The catalog (`catalog.rs`)

A catalog bundles an index with a facet sidecar and a record store.  `search` resolves the selections,
opens a cursor, asks it once for the page and adds the records of the page and the counts of the head.

    the page is the part of the answer asked for just when one call reaches its end, and not past that of the
    answer, and the sides of the filter agree there                                     (search_page)
-/

namespace RoaringRange

open ByteString Faults Slices

/-! ## What a page asks for -/

namespace Index

section

variable [Roaring] [Unicode] {ix : Index} {query : String} {maxMissing : Nat} {H T : FilterSets}

/-- The sides of the filter agree where a page is: before its first doc as many candidates pass it by their side as
by both, and from there to its last doc the same candidates. -/
structure SidesAgreeOn (ix : Index) (query : String) (maxMissing : Nat) (H T : FilterSets) (page : List Nat) :
    Prop where
  before : ∀ first ∈ page.head?, ((ix.paged query maxMissing H T).below first).len =
    ((ix.exact query maxMissing H T).below first).len
  inside : ∀ first ∈ page.head?, ∀ last ∈ page.getLast?, ∀ d ∈ ix.candidates query maxMissing, first ≤ d → d ≤ last →
    sided H T d = (H.join T).passes d

/-- One call has the page of the answer: it gets its docs, none behind the last doc of the answer, and the sides of
the filter agree on it. -/
structure HasPage (ix : Index) (query : String) (maxMissing : Nat) (filter : Option ResolvedFilter) (H T : FilterSets)
    (offset limit : Nat) : Prop where
  reached : pageOf (ix.exact query maxMissing H T) offset limit ≠ [] →
    ix.InReach query maxMissing filter H T (offset + (pageOf (ix.exact query maxMissing H T) offset limit).length)
  ended : (pageOf (ix.exact query maxMissing H T) offset limit).length < limit →
    ¬ ix.InReach query maxMissing filter H T (offset + (pageOf (ix.exact query maxMissing H T) offset limit).length + 1)
  sides : ix.SidesAgreeOn query maxMissing H T (pageOf (ix.exact query maxMissing H T) offset limit)

/-- What is paged and what is the answer are the candidates of the one decision and of the other. -/
theorem agreeOn_iff {page : List Nat} : AgreeOn (ix.paged query maxMissing H T) (ix.exact query maxMissing H T) page ↔
    ix.SidesAgreeOn query maxMissing H T page := by
  have hmem : ∀ d, (d ∈ ix.paged query maxMissing H T ↔ d ∈ ix.exact query maxMissing H T) ↔
      (d ∈ ix.candidates query maxMissing → sided H T d = (H.join T).passes d) := by
    intro d
    have hpaged : d ∈ ix.paged query maxMissing H T ↔ d ∈ ix.candidates query maxMissing ∧ sided H T d = true :=
      AscSet.mem_filter
    have hexact : d ∈ ix.exact query maxMissing H T ↔
        d ∈ ix.candidates query maxMissing ∧ (H.join T).passes d = true := AscSet.mem_filter
    rw [hpaged, hexact, and_congr_right_iff, ← Bool.eq_iff_iff]
  constructor
  · exact fun h => ⟨h.before, fun first hf last hl d hd h1 h2 => (hmem d).mp (h.inside first hf last hl d h1 h2) hd⟩
  · exact fun h => ⟨h.before, fun first hf last hl d h1 h2 =>
      (hmem d).mpr fun hd => h.inside first hf last hl d hd h1 h2⟩

end

end Index

/-! ## The catalog -/

structure Catalog where
  index : Index
  facets : Option FacetIndex
  records : Option RecordStore

structure SearchPage where
  ids : List Nat
  records : Option (List (Option Bytes))
  facetCounts : Option (List (List Nat))

namespace Catalog

section

variable [Roaring] [Unicode] [Zstd]

def «open» (index : MemoryFetch) : Io Catalog := do
  let ix ← Index.open index
  pure ⟨ix, none, none⟩

def loadFacets (cat : Catalog) (facets : MemoryFetch) : Io Catalog := do
  let fi ← FacetIndex.open facets
  pure { cat with facets := some fi }

def loadRecords (cat : Catalog) (idx bin : MemoryFetch) : Io Catalog := do
  let store ← RecordStore.open idx bin
  pure { cat with records := some store }

/-- The selections as the filter of a cursor. -/
def resolved (cat : Catalog) (filter : List FilterSel) : Option ResolvedFilter :=
  match cat.facets with
  | some f => if filter.isEmpty then none else some (f.resolveSels filter)
  | none => none

/-- The records and the counts that go with a page. -/
def hydrate (cat : Catalog) (ids : List Nat) (head : Bitmap) : Io SearchPage := do
  let records ← match cat.records with
    | some store => some <$> store.getMany ids
    | none => pure none
  pure ⟨ids, records, cat.facets.map fun f => f.counts head⟩

def search (cat : Catalog) (query : String) (offset limit maxMissing : Nat) (filter : List FilterSel) :
    Io SearchPage := do
  let cursor ← cat.index.searchCursorFiltered query maxMissing (cat.resolved filter)
  let (ids, cursor) ← (Cursor.page offset limit).on cursor
  cat.hydrate ids cursor.headResult

/-! ## Pages -/

/-- The index and the sidecar's postings can be read. -/
structure WellFormed (cat : Catalog) : Prop where
  index : cat.index.WellFormed
  facets : ∀ f, cat.facets = some f → f.PostedAt f.headDocs f.tailDocs

/-- What the filter's postings hold, by the posting `docs` picks. -/
def sets (cat : Catalog) (docs : FacetIndex → CatRange → Bitmap) (filter : List FilterSel) : FilterSets :=
  match cat.facets with
  | some f => if filter.isEmpty then ⟨[], []⟩ else (f.resolveSels filter).side (docs f)
  | none => ⟨[], []⟩

def headSets (cat : Catalog) (filter : List FilterSel) : FilterSets := cat.sets FacetIndex.headDocs filter

def tailSets (cat : Catalog) (filter : List FilterSel) : FilterSets := cat.sets FacetIndex.tailDocs filter

variable {cat : Catalog} {query : String} {maxMissing : Nat} {filter : List FilterSel}

omit [Unicode] [Zstd] in
theorem filterHolds_resolved (hw : cat.WellFormed) :
    FilterHolds (cat.resolved filter) (cat.headSets filter) (cat.tailSets filter) := by
  unfold resolved headSets tailSets sets
  cases hf : cat.facets with
  | none => exact filterHolds_none
  | some f =>
    simp only
    split
    · exact filterHolds_none
    · exact f.resolveSels_filterAt (hw.facets f hf) filter

omit [Roaring] [Unicode] in
/-- A page that comes back has the ids it was asked to hydrate. -/
theorem ids_of_hydrate {ids : List Nat} {head : Bitmap} {page : SearchPage} {s s' : Schedule FetchError}
    (h : (cat.hydrate ids head).run s = (.ok page, s')) : page.ids = ids := by
  unfold hydrate at h
  cases hr : cat.records with
  | none =>
    rw [hr] at h
    exact (congrArg SearchPage.ids (Except.ok.inj (congrArg Prod.fst h))).symm
  | some store =>
    rw [hr] at h
    simp only at h
    rw [run_bind] at h
    split at h
    · exact (congrArg SearchPage.ids (Except.ok.inj (congrArg Prod.fst h))).symm
    · cases congrArg Prod.fst h

/-- **One page of a catalog** is the part of the answer asked for just when one call has it. -/
theorem search_page (hw : cat.WellFormed) (offset limit : Nat) :
    ∃ ids head,
      (cat.search query offset limit maxMissing filter).run Schedule.calm =
        (cat.hydrate ids head).run Schedule.calm ∧
      (∀ page s, (cat.search query offset limit maxMissing filter).run Schedule.calm = (.ok page, s) →
        page.ids = ids) ∧
      (ids = ((cat.index.exact query maxMissing (cat.headSets filter) (cat.tailSets filter)).toList.drop
          offset).take limit ↔
        cat.index.HasPage query maxMissing (cat.resolved filter) (cat.headSets filter) (cat.tailSets filter)
          offset limit) := by
  have hf : FilterHolds (cat.resolved filter) (cat.headSets filter) (cat.tailSets filter) :=
    filterHolds_resolved hw
  have hopen := (@Index.settles_searchCursorFiltered _ _ _ _ _ cat.index query maxMissing hw.index hf).calm
  obtain ⟨out, c', hpage, -, hpre, hreach⟩ := @Index.page_cursorFor _ _ cat.index query maxMissing _ _ _ hw.index hf
    offset limit
  have hrun : (cat.search query offset limit maxMissing filter).run Schedule.calm =
      (cat.hydrate ((out.drop offset).take limit) c'.headResult).run Schedule.calm := by
    rw [search, run_bind, hopen]
    simp only
    rw [run_bind, run_on hpage]
  refine ⟨_, c'.headResult, hrun, fun page s h => ids_of_hydrate (hrun ▸ h), ?_⟩
  have hlen : (pageOf (cat.index.exact query maxMissing (cat.headSets filter) (cat.tailSets filter)) offset limit).length ≤
      limit := List.length_take_le _ _
  refine (page_eq_iff hpre offset limit).trans ?_
  rw [Index.agreeOn_iff]
  constructor
  · rintro ⟨hin, hend, hsides⟩
    refine ⟨fun hne => (hreach _ (by omega)).mp (hin hne), fun hlt hmore => ?_, hsides⟩
    have := (hreach _ (by omega)).mpr hmore
    have := hend hlt
    omega
  · rintro ⟨hin, hend, hsides⟩
    refine ⟨fun hne => (hreach _ (by omega)).mpr (hin hne), fun hlt => ?_, hsides⟩
    by_contra hpast
    exact hend hlt ((hreach _ (by omega)).mp (by omega))

end

/-! ## A page that ends early -/

section

attribute [local instance] PortableCodec.roaring asciiUnicode

/-- No frame is decoded. -/
@[reducible] def noZstd : Zstd := ⟨fun _ _ => none⟩

attribute [local instance] noZstd

/-- A doc in each of the buckets 1 to 17. -/
def seventeenBuckets : Bitmap := ⟨(List.range' 1 17).map (· * bucketSize), by decide, by decide⟩

/-- A catalog of an index alone. -/
def seventeenCatalog : Catalog := ⟨abcIndex seventeenBuckets, none, none⟩

theorem seventeenCatalog_wellFormed : seventeenCatalog.WellFormed :=
  ⟨abcIndex_wellFormed _, fun _ h => by cases h⟩

/-- The 17 docs of a page of 17 are in reach of a call just when all of them are returned. -/
theorem search_page_seventeen : ∃ ids head,
    (seventeenCatalog.search "abc" 0 17 0 []).run Schedule.calm =
      (seventeenCatalog.hydrate ids head).run Schedule.calm ∧
    (∀ page s, (seventeenCatalog.search "abc" 0 17 0 []).run Schedule.calm = (.ok page, s) → page.ids = ids) ∧
    (ids = ((seventeenCatalog.index.exact "abc" 0 ⟨[], []⟩ ⟨[], []⟩).toList.drop 0).take 17 ↔
      seventeenCatalog.index.HasPage "abc" 0 none ⟨[], []⟩ ⟨[], []⟩ 0 17) :=
  search_page seventeenCatalog_wellFormed 0 17

/-- The page of 17 ends after 16 docs, and the seventeenth is never returned. -/
theorem short_page : ∃ page, (seventeenCatalog.search "abc" 0 17 0 []).run Schedule.calm = (.ok page, Schedule.calm) ∧
    page.ids ≠ ((seventeenCatalog.index.exact "abc" 0 ⟨[], []⟩ ⟨[], []⟩).toList.drop 0).take 17 := by
  have hexact : seventeenCatalog.index.exact "abc" 0 ⟨[], []⟩ ⟨[], []⟩ = seventeenBuckets := by
    rw [Index.exact]
    have : seventeenCatalog.index.candidates "abc" 0 = seventeenBuckets := abcIndex_candidates seventeenBuckets
    rw [this]
    exact AscSet.filter_true _
  have hopen := (@Index.settles_searchCursorFiltered _ _ _ _ _ (abcIndex seventeenBuckets) "abc" 0
    (abcIndex_wellFormed _) filterHolds_none).calm
  obtain ⟨out, c', hpage, -, -⟩ := @Index.page_cursorFor _ _ (abcIndex seventeenBuckets) "abc" 0 _ _ _
    (abcIndex_wellFormed _) filterHolds_none 0 17
  generalize (out.drop 0).take 17 = ids at hpage
  have hrun : (seventeenCatalog.search "abc" 0 17 0 []).run Schedule.calm =
      (.ok ⟨ids, none, none⟩, Schedule.calm) := by
    show (do
      let cursor ← (abcIndex seventeenBuckets).searchCursorFiltered "abc" 0 none
      let (ids, cursor) ← (Cursor.page 0 17).on cursor
      seventeenCatalog.hydrate ids cursor.headResult : Io SearchPage).run Schedule.calm = _
    rw [run_bind, hopen]
    simp only
    rw [run_bind, run_on hpage]
    rfl
  refine ⟨_, hrun, ?_⟩
  have hlen : ((seventeenCatalog.search "abc" 0 17 0 []).run Schedule.calm).1.map (fun page => page.ids.length) =
      .ok 16 := by decide +kernel
  rw [hrun] at hlen
  have hlen : ids.length = 16 := Except.ok.inj hlen
  rw [hexact]
  intro heq
  have h17 : ids.length = 17 := by
    rw [show ids = _ from heq]
    decide
  omega

end

end Catalog

end RoaringRange
