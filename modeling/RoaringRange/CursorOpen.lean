import RoaringRange.CursorRuns

/-!
# The cursor of a query

`searchCursorFiltered` finds the query's dictionary entries, intersects their head parts and filters
them.  `cursorFor` is the cursor it opens, `paged` the docs this cursor pages: those of `matching` that
pass the filter's head sets below the eager bound and its tail sets from there.

    searchCursorFiltered settles on the cursor of the query        (settles_searchCursorFiltered)
    that cursor pages the docs of the query                                        (cursorFor_pages)
-/

namespace RoaringRange

open ByteString Faults Slices Runs

section

variable [Roaring] {filter : Option ResolvedFilter} {H T : FilterSets}

/-- The filter's postings hold the sets `H` (head) and `T` (tail); no filter holds none. -/
def FilterHolds (filter : Option ResolvedFilter) (H T : FilterSets) : Prop :=
  match filter with
  | some rf => rf.FilterAt H T
  | none => H = ⟨[], []⟩ ∧ T = ⟨[], []⟩

/-- A doc has a category when its head or its tail posting has the doc. -/
def FilterSets.join (H T : FilterSets) : FilterSets :=
  ⟨List.zipWith (List.zipWith (· ∪ ·)) H.fields T.fields, List.zipWith (· ∪ ·) H.excludes T.excludes⟩

theorem filterHolds_filter (h : FilterHolds filter H T) :
    FilterHolds (filter.filter fun f => !f.isEmpty) H T := by
  cases filter with
  | none => exact h
  | some rf =>
    rw [Option.filter_some]
    split
    · exact h
    · next hempty =>
      simp only [Bool.not_eq_true, Bool.not_eq_false', ResolvedFilter.isEmpty, Bool.and_eq_true,
        List.isEmpty_iff] at hempty
      have h' : rf.FilterAt H T := h
      have hf := h'.head.fields
      have hx := h'.head.excludes
      have tf := h'.tail.fields
      have tx := h'.tail.excludes
      rw [hempty.1, List.forall₂_nil_left_iff] at hf tf
      rw [hempty.2] at hx tx
      rw [PostingsAt, List.map_nil, List.forall₂_nil_left_iff] at hx tx
      obtain ⟨Hf, Hx⟩ := H
      obtain ⟨Tf, Tx⟩ := T
      simp only at hf hx tf tx
      subst hf hx tf tx
      exact ⟨rfl, rfl⟩

theorem settles_applyHeadFilter (h : FilterHolds filter H T) (head : Bitmap) :
    Settles (applyHeadFilter filter head) (.ok (head.filter H.passes)) := by
  cases filter with
  | none =>
    have heq : head.filter H.passes = head := by
      rw [h.1]
      exact AscSet.filter_true head
    rw [heq]
    exact Settles.pure _
  | some rf => exact ResolvedFilter.settles_applyHead h head

namespace Index

variable [Unicode]

/-- The dictionary entries of the query's keys that the index has. -/
def foundRecs (ix : Index) (query : String) : List DictRec := (ix.queryKeys query).filterMap ix.findRec

/-- The postings of the query's keys that the index has. -/
def foundSets (ix : Index) (query : String) : List Bitmap := (ix.queryKeys query).filterMap ix.postingOf

/-- How many of the query's keys a doc must have. -/
def minMatch (ix : Index) (query : String) (maxMissing : Nat) : Nat :=
  max ((ix.queryKeys query).length - maxMissing) 1

/-- A cursor at the docs of the head. -/
def freshCursor (ix : Index) (query : String) (maxMissing : Nat) (filter : Option ResolvedFilter)
    (H : FilterSets) : Cursor :=
  let headResult := headDocs (ix.foundSets query) (ix.minMatch query maxMissing) H
  ⟨ix.fetch, ix.foundRecs query, ix.minMatch query maxMissing, filter.filter fun f => !f.isEmpty,
    headResult, headResult.toList, 0, false, none, false⟩

/-- The cursor a query opens when no read fails. -/
def cursorFor (ix : Index) (query : String) (maxMissing : Nat) (filter : Option ResolvedFilter)
    (H : FilterSets) : Cursor :=
  if filter.any ResolvedFilter.hasEmptyArm = true ∨
      (ix.foundRecs query).length < ix.minMatch query maxMissing then
    Cursor.empty ix.fetch
  else ix.freshCursor query maxMissing filter H

variable {ix : Index} {query : String} {maxMissing : Nat}

theorem foundSets_eq : ix.foundSets query = (ix.foundRecs query).map ix.postingSet := by
  rw [foundSets, foundRecs, List.map_filterMap]
  rfl

omit [Roaring] in
theorem foundRecs_found {r : DictRec} (hr : r ∈ ix.foundRecs query) : ∃ key, ix.findRec key = some r := by
  obtain ⟨key, -, hkey⟩ := List.mem_filterMap.mp hr
  exact ⟨key, hkey⟩

omit [Roaring] in
theorem foundRecs_eq :
    ((ix.presentBlocks (ix.queryKeys query)).map fun x =>
      parseBlock (ix.blockBytes x.2) x.2.entries x.1).filterMap id = ix.foundRecs query := by
  unfold foundRecs presentBlocks
  rw [List.filterMap_map, List.filterMap_filterMap]
  refine List.filterMap_congr fun k _ => ?_
  unfold findRec
  cases ix.dictBlockFor k <;> rfl

theorem settles_found (hw : ix.WellFormed) :
    Settles (ix.parsePresent (ix.presentBlocks (ix.queryKeys query)))
      (.ok ((ix.presentBlocks (ix.queryKeys query)).map fun x =>
        parseBlock (ix.blockBytes x.2) x.2.entries x.1)) := by
  refine settles_parsePresent fun x hx => ?_
  obtain ⟨k, -, hk⟩ := List.mem_filterMap.mp hx
  obtain ⟨blk, hblk, rfl⟩ := Option.map_eq_some_iff.mp hk
  exact ⟨isBlock_dictBlockFor hblk, hw.block k blk hblk⟩

/-- **Opening a cursor** settles on the cursor of the query. -/
theorem settles_searchCursorFiltered (hw : ix.WellFormed) (h : FilterHolds filter H T) :
    Settles (ix.searchCursorFiltered query maxMissing filter) (.ok (ix.cursorFor query maxMissing filter H)) := by
  unfold searchCursorFiltered cursorFor
  split
  · next harm =>
    rw [if_pos (Or.inl harm)]
    exact Settles.pure _
  · next harm =>
    refine (settles_found hw).bind ?_
    simp only [foundRecs_eq]
    have hmm : max ((ix.queryKeys query).length - maxMissing) 1 = ix.minMatch query maxMissing := rfl
    rw [hmm]
    split
    · next hlt =>
      rw [if_pos (Or.inr hlt)]
      exact Settles.pure _
    · next hge =>
      rw [if_neg (not_or.mpr ⟨harm, hge⟩)]
      refine (settles_fetchHeadPrefixes hw fun r hr => foundRecs_found hr).bind ?_
      refine (settles_applyHeadFilter (filterHolds_filter h) _).bind ?_
      have hheads : ((threshold ((ix.foundRecs query).map fun r => Bitmap.below (ix.postingSet r) eagerDocBound)
          (ix.minMatch query maxMissing)).getD ∅).filter H.passes =
          headDocs (ix.foundSets query) (ix.minMatch query maxMissing) H := by
        have hpos : 1 ≤ ix.minMatch query maxMissing := Nat.le_max_right _ _
        rw [threshold_eq hpos (by rw [List.length_map]; omega), headDocs, foundSets_eq]
        congr 1
        refine AscSet.ext_mem fun d => ?_
        rw [Bitmap.mem_below, mem_matching hpos, mem_matching hpos]
        rcases Nat.lt_or_ge d eagerDocBound with hd | hd
        · have hcount : hits ((ix.foundRecs query).map fun r => Bitmap.below (ix.postingSet r) eagerDocBound) d =
              hits ((ix.foundRecs query).map ix.postingSet) d := by
            simp only [hits, List.countP_map]
            refine List.countP_congr fun r _ => ?_
            simp [Bitmap.mem_below, hd]
          rw [hcount]
          exact ⟨fun hx => ⟨hx, hd⟩, fun hx => hx.1⟩
        · have hcount : hits ((ix.foundRecs query).map fun r => Bitmap.below (ix.postingSet r) eagerDocBound) d =
              0 := by
            simp only [hits, List.countP_map, List.countP_eq_zero]
            intro r _
            simp [Bitmap.mem_below, Nat.not_lt.mpr hd]
          rw [hcount]
          constructor
          · intro hx
            omega
          · intro hx
            omega
      rw [hheads]
      exact Settles.pure _

/-- The docs a query's cursor pages. -/
def paged (ix : Index) (query : String) (maxMissing : Nat) (H T : FilterSets) : Bitmap :=
  pagedDocs (ix.foundSets query) (ix.minMatch query maxMissing) H T

theorem freshCursor_serves (hw : ix.WellFormed) (h : FilterHolds filter H T)
    (hlen : ix.minMatch query maxMissing ≤ (ix.foundRecs query).length) :
    (ix.freshCursor query maxMissing filter H).Serves (ix.foundSets query) H T ∧
      (ix.freshCursor query maxMissing filter H).Paged (ix.foundSets query) H T := by
  refine ⟨⟨?_, Nat.le_max_right _ _, hlen, filterHolds_filter h, rfl⟩, .fresh rfl rfl rfl⟩
  rw [foundSets_eq]
  exact hw.postingsAt fun r hr => foundRecs_found hr

theorem paged_eq_empty (h : FilterHolds filter H T)
    (hc : filter.any ResolvedFilter.hasEmptyArm = true ∨
      (ix.foundRecs query).length < ix.minMatch query maxMissing) :
    ix.paged query maxMissing H T = ∅ := by
  refine AscSet.isEmpty_iff.mp (AscSet.isEmpty_iff_forall.mpr fun d hd => ?_)
  obtain ⟨hm, hs⟩ := AscSet.mem_filter.mp hd
  rcases hc with harm | hlt
  · cases filter with
    | none => simp at harm
    | some rf =>
      obtain ⟨cats, hcats, hnil⟩ := List.any_eq_true.mp (show rf.hasEmptyArm = true by simpa using harm)
      obtain ⟨i, hi, rfl⟩ := List.getElem_of_mem hcats
      have hside : ∀ {rangeOf : CatRange → Nat × Nat} {F : FilterSets}, rf.SideAt rangeOf F →
          F.passes d = false := by
        intro rangeOf F hF
        have hi' : i < F.fields.length := by rw [← hF.fields.length_eq]; exact hi
        have hsets := (List.forall₂_iff_get.mp hF.fields).2 i hi hi'
        simp only [List.get_eq_getElem, List.isEmpty_iff.mp hnil] at hsets
        have hmem : [] ∈ F.fields := by
          rw [← List.forall₂_nil_left_iff.mp hsets]
          exact List.getElem_mem hi'
        rw [FilterSets.passes, Bool.and_eq_false_iff]
        exact Or.inl (List.all_eq_false.mpr ⟨[], hmem, by simp [inAny]⟩)
      have h' : rf.FilterAt H T := h
      rw [sided, hside h'.head, hside h'.tail] at hs
      simp at hs
  · have hpos : 1 ≤ ix.minMatch query maxMissing := Nat.le_max_right _ _
    have h1 := (mem_matching hpos).mp hm
    have h2 := hits_le_length (ix.foundSets query) d
    rw [foundSets_eq, List.length_map] at h2
    rw [foundSets_eq] at h1
    omega

/-- A query's cursor starts at the docs of the head and pages the docs of the query. -/
theorem cursorFor_pages (hw : ix.WellFormed) (h : FilterHolds filter H T) :
    (ix.cursorFor query maxMissing filter H).Pages (ix.paged query maxMissing H T) ∧
      ¬ (ix.cursorFor query maxMissing filter H).Lost ∧
      (ix.cursorFor query maxMissing filter H).pos = 0 := by
  unfold cursorFor
  split
  · next hc =>
    rw [paged_eq_empty h hc]
    exact ⟨.complete rfl rfl, (fun hl => Bool.noConfusion hl.1), rfl⟩
  · next hc =>
    obtain ⟨hS, hP⟩ := freshCursor_serves hw h (Nat.not_lt.mp (not_or.mp hc).2)
    exact ⟨.paging _ H T hS hP rfl, (fun hl => Bool.noConfusion hl.2.2.1), rfl⟩

end Index

end

end RoaringRange
