import RoaringRange.FacetCorpus
import RoaringRange.PortableCodec

/-!
# Paging through a filtered query

`exact` is the answer to a filtered query: the docs that have enough of its keys and pass the filter, a doc
having a category when the head or the tail posting of the category has it.  The cursor decides a doc by
one of the two postings only, the head's below `eagerDocBound` and the tail's from there; `SidesAgree` says
that this makes no difference to a doc that has enough keys.

    a cursor over reads that do not fail pages exactly        ↔ SidesAgree              (pages_exactly)
    a cursor over reads that may fail is exact in every run without a reload             (retry_exact)
-/

namespace RoaringRange

open ByteString Faults Slices Runs

section

variable [Roaring] [Unicode]

namespace Index

/-- The docs that have enough of the query's keys. -/
def candidates (ix : Index) (query : String) (maxMissing : Nat) : Bitmap :=
  matching (ix.foundSets query) (ix.minMatch query maxMissing)

/-- The answer to a filtered query. -/
def exact (ix : Index) (query : String) (maxMissing : Nat) (H T : FilterSets) : Bitmap :=
  (ix.candidates query maxMissing).filter (H.join T).passes

/-- A candidate passes the filter by the posting of its side just when it passes by both. -/
def SidesAgree (ix : Index) (query : String) (maxMissing : Nat) (H T : FilterSets) : Prop :=
  ∀ d ∈ ix.candidates query maxMissing, sided H T d = (H.join T).passes d

/-- Without a filter there is nothing to disagree about. -/
theorem sidesAgree_none (ix : Index) (query : String) (maxMissing : Nat) :
    ix.SidesAgree query maxMissing ⟨[], []⟩ ⟨[], []⟩ := by
  intro d _
  unfold sided
  split <;> rfl

/-- The sides agree where no head posting of the filter reaches past the boundary and no tail posting below it. -/
theorem sidesAgree_of_apart (ix : Index) (query : String) (maxMissing : Nat) {rf : ResolvedFilter}
    {head tail : CatRange → Bitmap} (hhead : ∀ c, c ∈ rf.fields.flatten ∨ c ∈ rf.excludes → ∀ d ∈ head c, d < eagerDocBound)
    (htail : ∀ c, c ∈ rf.fields.flatten ∨ c ∈ rf.excludes → ∀ d ∈ tail c, eagerDocBound ≤ d) :
    ix.SidesAgree query maxMissing (rf.side head) (rf.side tail) := by
  intro d _
  have hside : ∀ {docs : CatRange → Bitmap}, (∀ c, c ∈ rf.fields.flatten ∨ c ∈ rf.excludes →
      (d ∈ docs c ↔ d ∈ head c ∪ tail c)) → (rf.side docs).passes d = ((rf.side head).join (rf.side tail)).passes d := by
    intro docs h
    rw [ResolvedFilter.side_join, Bool.eq_iff_iff, passes_side, passes_side]
    refine and_congr (forall₂_congr fun cats hcats => exists_congr fun c => and_congr_right fun hc => ?_)
      (forall₂_congr fun c hc => not_congr (h c (Or.inr hc)))
    exact h c (Or.inl (List.mem_flatten.mpr ⟨cats, hcats, hc⟩))
  unfold sided
  split
  · next hlt =>
    refine hside fun c hc => ?_
    rw [AscSet.mem_union, or_iff_left fun ht => absurd (htail c hc d ht) (Nat.not_le.mpr hlt)]
  · next hge =>
    refine hside fun c hc => ?_
    rw [AscSet.mem_union, or_iff_right fun hh => absurd (hhead c hc d hh) hge]

/-- A sidecar split at the reader's boundary has sides that agree. -/
theorem sidesAgree_of_holds (ix : Index) (query : String) (maxMissing : Nat) {fi : FacetIndex} {m : FacetMap}
    (h : fi.Holds m eagerDocBound) (sels : List FilterSel) : ix.SidesAgree query maxMissing
      ((fi.resolveSels sels).side fi.headDocs) ((fi.resolveSels sels).side fi.tailDocs) := by
  have hsplit : ∀ field category r, fi.catRange field category = some r →
      (∀ d ∈ fi.headDocs r, d < eagerDocBound) ∧ ∀ d ∈ fi.tailDocs r, eagerDocBound ≤ d := by
    intro field category r hr
    exact ⟨fun d hd => (h.head_iff.mp ⟨r, hr, hd⟩).2, fun d hd => (h.tail_iff.mp ⟨r, hr, hd⟩).2⟩
  obtain ⟨hfields, hexcludes⟩ := fi.resolveSels_ranges sels hsplit
  have hall : ∀ c, c ∈ (fi.resolveSels sels).fields.flatten ∨ c ∈ (fi.resolveSels sels).excludes →
      (∀ d ∈ fi.headDocs c, d < eagerDocBound) ∧ ∀ d ∈ fi.tailDocs c, eagerDocBound ≤ d := by
    rintro c (hc | hc)
    · obtain ⟨cats, hcats, hc⟩ := List.mem_flatten.mp hc
      exact hfields cats hcats c hc
    · exact hexcludes c hc
  exact sidesAgree_of_apart ix query maxMissing (fun c hc => (hall c hc).1) fun c hc => (hall c hc).2

theorem paged_eq_exact_iff {ix : Index} {query : String} {maxMissing : Nat} {H T : FilterSets} :
    ix.paged query maxMissing H T = ix.exact query maxMissing H T ↔ ix.SidesAgree query maxMissing H T := by
  constructor
  · intro heq d hd
    have hmem : d ∈ ix.paged query maxMissing H T ↔ d ∈ ix.exact query maxMissing H T := by rw [heq]
    have h1 : d ∈ ix.paged query maxMissing H T ↔ sided H T d = true :=
      AscSet.mem_filter.trans (and_iff_right hd)
    have h2 : d ∈ ix.exact query maxMissing H T ↔ (H.join T).passes d = true :=
      AscSet.mem_filter.trans (and_iff_right hd)
    rw [h1, h2] at hmem
    exact Bool.eq_iff_iff.mpr hmem
  · intro h
    exact AscSet.filter_congr fun d hd => h d hd

end Index

omit [Unicode] in
theorem filterHolds_none : FilterHolds none ⟨[], []⟩ ⟨[], []⟩ := ⟨rfl, rfl⟩

/-! ## Reads that do not fail -/

/-- What every sequence of calls on the cursor does when no read fails. -/
structure Cursor.PagesExactly (c : Cursor) (R : Bitmap) : Prop where
  results : ∀ tr σ, Run Cursor.Step (c, Schedule.calm) tr σ → σ.1.results <+: R.toList
  pages : ∀ tr σ, Run Cursor.Step (c, Schedule.calm) tr σ → Cursor.nextPages tr <+: R.toList
  loaded : ∀ tr σ, Run Cursor.Step (c, Schedule.calm) tr σ → ∃ fuel c',
    Cursor.loadTail fuel σ.1 σ.2 = some ((.ok (), c'), Schedule.calm) ∧ c'.results = R.toList

omit [Unicode] in
/-- A cursor that pages one set pages no other. -/
theorem Cursor.pagesExactly_iff {c : Cursor} {P R : Bitmap} (hP : c.Pages P) (hnl : ¬ c.Lost) (hpos : c.pos = 0) :
    c.PagesExactly R ↔ P = R := by
  constructor
  · intro h
    obtain ⟨fuel, c', hload, hres⟩ := h.loaded [] _ Run.start
    obtain ⟨-, -, m, -, hout⟩ := loadTail_pages fuel c Schedule.calm hP (fun hx => hnl hx.2) hload
    rcases hout with ⟨-, hall, -⟩ | ⟨e, he, -⟩
    · exact AscSet.ext (hall.symm.trans hres)
    · exact absurd he (Schedule.not_met_calm m e)
  · rintro rfl
    refine ⟨fun tr σ hr => ?_, fun tr σ hr => ?_, fun tr σ hr => ?_⟩
    · exact (Paging.run_calm hP hnl hpos hr).1.pages.isPrefix
    · rw [(Paging.run_calm hP hnl hpos hr).1.handed]
      exact List.take_prefix _ _
    · obtain ⟨hI, hnl', hcalm⟩ := Paging.run_calm hP hnl hpos hr
      obtain ⟨c', s'⟩ := σ
      obtain rfl : s' = Schedule.calm := hcalm
      obtain ⟨fuel, c'', hload⟩ := loadTail_calm hI.pages hnl'
      refine ⟨fuel, c'', hload, ?_⟩
      obtain ⟨-, -, m, -, hout⟩ := loadTail_pages fuel c' Schedule.calm hI.pages (fun hx => hnl' hx.2) hload
      rcases hout with ⟨-, hall, -⟩ | ⟨e, he, -⟩
      · exact hall
      · exact absurd he (Schedule.not_met_calm m e)

namespace Index

variable {ix : Index} {query : String} {maxMissing : Nat} {filter : Option ResolvedFilter} {H T : FilterSets}

theorem cursorFor_pagesExactly_iff (hw : ix.WellFormed) (h : FilterHolds filter H T) :
    (ix.cursorFor query maxMissing filter H).PagesExactly (ix.exact query maxMissing H T) ↔
      ix.SidesAgree query maxMissing H T := by
  obtain ⟨hP, hnl, hpos⟩ := @cursorFor_pages _ _ _ _ _ ix query maxMissing hw h
  rw [Cursor.pagesExactly_iff hP hnl hpos, paged_eq_exact_iff]

/-- **Paging is exact** when no read fails, just when the two sides of the filter agree. -/
theorem pages_exactly (hw : ix.WellFormed) (h : FilterHolds filter H T) :
    ∃ c, (ix.searchCursorFiltered query maxMissing filter).run Schedule.calm = (.ok c, Schedule.calm) ∧
      (c.PagesExactly (ix.exact query maxMissing H T) ↔ ix.SidesAgree query maxMissing H T) :=
  ⟨_, (settles_searchCursorFiltered hw h).calm, cursorFor_pagesExactly_iff hw h⟩

/-! ## Reads that may fail -/

/-- **A cursor that is called again after an error is exact** in every run without a reload, whatever reads
fail. -/
theorem retry_exact (hw : ix.WellFormed) (h : FilterHolds filter H T) (hs : ix.SidesAgree query maxMissing H T)
    {c : Cursor} {s s' : Schedule FetchError}
    (hopen : (ix.searchCursorFiltered query maxMissing filter).run s = (.ok c, s'))
    {tr : List (Call × Outcome)} {σ : Cursor × Schedule FetchError}
    (hrun : Run Cursor.CarefulStep (c, s') tr σ) :
    σ.1.results.Pairwise (· < ·) ∧ σ.1.results <+: (ix.exact query maxMissing H T).toList ∧
      (Cursor.TailLoaded tr → σ.1.results = (ix.exact query maxMissing H T).toList) := by
  have hc : c = ix.cursorFor query maxMissing filter H := by
    have := (settles_searchCursorFiltered hw h).eq_of_ok (congrArg Prod.fst hopen)
    exact (Except.ok.inj this).symm
  obtain ⟨hP, -, hpos⟩ := @cursorFor_pages _ _ _ _ _ ix query maxMissing hw h
  rw [← hc] at hP hpos
  have hI := Cursor.Paging.run hP hpos hrun
  rw [paged_eq_exact_iff.mpr hs] at hI
  refine ⟨?_, hI.pages.isPrefix, hI.whole⟩
  exact (ix.exact query maxMissing H T).asc.sublist hI.pages.isPrefix.sublist

end Index

end

/-! ## An index of one key -/

/-- The key of the gram `abc`. -/
def abcKey : Key := ⟨6382179, by decide⟩

/-- The corpus whose only key is the gram `abc`. -/
def abcCorpus (S : Bitmap) : Corpus :=
  ⟨3, 512, true, [(abcKey, S)], by decide, by decide, by decide, List.pairwise_singleton _ _,
    Nat.one_lt_two_pow (by decide)⟩

def abcIndex [Roaring] (S : Bitmap) : Index := (abcCorpus S).index (MemoryFetch.new (abcCorpus S).bytes)

section

variable [Roaring]

theorem abcIndex_wellFormed (S : Bitmap) : (abcIndex S).WellFormed := (abcCorpus S).wellFormed

theorem abcIndex_candidates (S : Bitmap) : @Index.candidates _ asciiUnicode (abcIndex S) "abc" 0 = S := by
  have hkeys : @Index.queryKeys asciiUnicode (abcIndex S) "abc" = [abcKey] := by
    show @ngramKeysWith asciiUnicode "abc" 3 true = [abcKey]
    decide +kernel
  have hpost : (abcIndex S).postingOf abcKey = some S := by
    rw [abcIndex, Corpus.postingOf_eq]
    rfl
  unfold Index.candidates Index.foundSets Index.minMatch
  rw [hkeys]
  simp only [List.filterMap_cons, hpost, List.filterMap_nil, List.length_singleton]
  refine AscSet.ext_mem fun d => ?_
  rw [mem_matching (by decide)]
  by_cases hd : d ∈ S <;> simp [hits, hd]

end

/-! ## A filter whose sidecar is split elsewhere -/

/-- The doc 65541 alone. -/
def doc65541 : Bitmap := ⟨[65541], List.pairwise_singleton _ _, by decide⟩

/-- One category, of the doc 65541. -/
def oneCategory : FacetMap := (∅ : FacetMap).update "f" fun _ => (∅ : OrdMap String Bitmap).update "c" fun _ => doc65541

theorem oneCategory_fits : oneCategory.Fits where
  fields_lt := by decide
  cats_lt := by decide
  names_lt := by decide +kernel
  name_lt := by decide +kernel

/-- Docs of the head, of the category's bucket and of a later one. -/
def spreadResult : Bitmap := ⟨[3, 65541, 131072], by decide, by decide⟩

/-- The docs of a tail posting that is longer than a header read. -/
def longTail : Bitmap where
  toList := (List.range 2100).map (65536 + ·)
  asc := List.pairwise_lt_range.map _ fun _ _ h => Nat.add_lt_add_left h 65536
  all := by
    intro d hd
    obtain ⟨i, hi, rfl⟩ := List.mem_map.mp hd
    have hlt := List.mem_range.mp hi
    exact (Nat.add_lt_add_left hlt 65536).trans (by decide)

/-- A category with a head alone, one with a short tail, and one with a tail that is read by its directory. -/
def severalCategories : FacetMap :=
  ((∅ : FacetMap).update "kind" fun _ => ((∅ : OrdMap String Bitmap).update "a" fun _ =>
      ⟨[3, 9], by decide, by decide⟩).update "b" fun _ => spreadResult).update
    "lang" fun _ => (∅ : OrdMap String Bitmap).update "en" fun _ => longTail

theorem severalCategories_fits : severalCategories.Fits where
  fields_lt := by decide +kernel
  cats_lt := by decide +kernel
  names_lt := by decide +kernel
  name_lt := by decide +kernel

section

variable [Roaring]

/-- The sidecar's boundary is 131072: the doc is in the head posting, where no cursor looks for it. -/
theorem not_sidesAgree_131072 {fi : FacetIndex} (h : fi.Holds oneCategory 131072) :
    ¬ @Index.SidesAgree _ asciiUnicode (abcIndex doc65541) "abc" 0
      ((fi.resolve [("f", "c")]).side fi.headDocs) ((fi.resolve [("f", "c")]).side fi.tailDocs) := by
  intro hagree
  have hd : 65541 ∈ @Index.candidates _ asciiUnicode (abcIndex doc65541) "abc" 0 := by
    rw [abcIndex_candidates]
    decide
  have hjoin : (((fi.resolve [("f", "c")]).side fi.headDocs).join
      ((fi.resolve [("f", "c")]).side fi.tailDocs)).passes 65541 = true := by
    rw [h.join_passes]
    decide
  have htail : ((fi.resolve [("f", "c")]).side fi.tailDocs).passes 65541 = true := by
    have := hagree 65541 hd
    rw [hjoin] at this
    exact this
  rw [h.tail_passes] at htail
  obtain ⟨q, -, -, -, hle⟩ := htail ("f", "c") List.mem_cons_self
  omega

end

section

attribute [local instance] PortableCodec.roaring asciiUnicode

/-- The cursor of a sidecar split at 131072 misses the doc 65541. -/
theorem pages_inexactly_131072 :
    ∃ file fi c, writeFacetsWith (facetFields oneCategory 131072) true = .ok file ∧
      (FacetIndex.openMeta (MemoryFetch.new file)).run Schedule.calm = (.ok fi, Schedule.calm) ∧
      ((abcIndex doc65541).searchCursorFiltered "abc" 0 (some (fi.resolve [("f", "c")]))).run Schedule.calm =
        (.ok c, Schedule.calm) ∧
      ¬ c.PagesExactly ((abcIndex doc65541).exact "abc" 0 ((fi.resolve [("f", "c")]).side fi.headDocs)
        ((fi.resolve [("f", "c")]).side fi.tailDocs)) := by
  obtain ⟨file, fi, hfile, -, -, hopen, hholds⟩ := exists_sidecar oneCategory_fits 131072 true
  have hw := abcIndex_wellFormed doc65541
  have hfilter : FilterHolds (some (fi.resolve [("f", "c")])) _ _ := fi.resolve_filterAt hholds.posted [("f", "c")]
  refine ⟨file, fi, _, hfile, hopen.calm, (Index.settles_searchCursorFiltered hw hfilter).calm, ?_⟩
  rw [Index.cursorFor_pagesExactly_iff hw hfilter]
  exact not_sidesAgree_131072 hholds

/-- Paging with a filter whose sidecar is split at the reader's boundary. -/
theorem pages_exactly_65536 :
    ∃ fi : FacetIndex, fi.Holds oneCategory 65536 ∧ ∃ c,
      ((abcIndex doc65541).searchCursorFiltered "abc" 0 (some (fi.resolve [("f", "c")]))).run Schedule.calm =
        (.ok c, Schedule.calm) ∧
      (c.PagesExactly ((abcIndex doc65541).exact "abc" 0 ((fi.resolve [("f", "c")]).side fi.headDocs)
        ((fi.resolve [("f", "c")]).side fi.tailDocs)) ↔
      (abcIndex doc65541).SidesAgree "abc" 0 ((fi.resolve [("f", "c")]).side fi.headDocs)
        ((fi.resolve [("f", "c")]).side fi.tailDocs)) ∧
      (abcIndex doc65541).SidesAgree "abc" 0 ((fi.resolve [("f", "c")]).side fi.headDocs)
        ((fi.resolve [("f", "c")]).side fi.tailDocs) := by
  obtain ⟨file, fi, -, -, -, -, hholds⟩ := exists_sidecar oneCategory_fits 65536 true
  have hfilter : FilterHolds (some (fi.resolve [("f", "c")])) _ _ := fi.resolve_filterAt hholds.posted [("f", "c")]
  obtain ⟨c, hopen, hiff⟩ := @Index.pages_exactly _ _ _ "abc" 0 _ _ _ (abcIndex_wellFormed doc65541) hfilter
  refine ⟨fi, hholds, c, hopen, hiff, ?_⟩
  rw [fi.resolve_eq_resolveSels]
  exact Index.sidesAgree_of_holds _ "abc" 0 hholds _

/-! ## A read that fails behind the first window -/

/-- A doc in each of the buckets 1 to 9. -/
def nineBuckets : Bitmap := ⟨(List.range' 1 9).map (· * bucketSize), by decide, by decide⟩

/-- The fifth read fails. -/
def fifthFails : Schedule FetchError := fun i => if i = 4 then some (.transport "connection reset") else none

/-- A page, and the page again with room for more. -/
def pageAgain : List Call := [.page 0 9, .page 0 17]

/-- The page alone, whose fifth read fails, is a run without a reload. -/
theorem retry_exact_fifthFails : ∃ c s' tr σ,
    ((abcIndex nineBuckets).searchCursorFiltered "abc" 0 none).run fifthFails = (.ok c, s') ∧
      Run Cursor.CarefulStep (c, s') tr σ ∧ σ.1.results.Pairwise (· < ·) ∧
      σ.1.results <+: ((abcIndex nineBuckets).exact "abc" 0 ⟨[], []⟩ ⟨[], []⟩).toList ∧
      (Cursor.TailLoaded tr → σ.1.results = ((abcIndex nineBuckets).exact "abc" 0 ⟨[], []⟩ ⟨[], []⟩).toList) := by
  have hw := abcIndex_wellFormed nineBuckets
  have hopens : (((abcIndex nineBuckets).searchCursorFiltered "abc" 0 none).run fifthFails).1.isOk = true := by
    decide +kernel
  cases hopen : ((abcIndex nineBuckets).searchCursorFiltered "abc" 0 none).run fifthFails with
  | mk o s' =>
    rw [hopen] at hopens
    cases o with
    | error e => exact absurd hopens (by simp [Except.isOk, Except.toBool])
    | ok c =>
      have hc : (abcIndex nineBuckets).cursorFor "abc" 0 none ⟨[], []⟩ = c := by
        have := (Index.settles_searchCursorFiltered hw filterHolds_none).eq_of_ok (congrArg Prod.fst hopen)
        exact Except.ok.inj this
      obtain ⟨-, hnl, -⟩ := @Index.cursorFor_pages _ _ _ _ _ (abcIndex nineBuckets) "abc" 0 hw filterHolds_none
      rw [hc] at hnl
      have hstep : Cursor.CarefulStep (c, s') (.page 0 9, ((Cursor.page 0 9).call c s').1.1)
          (((Cursor.page 0 9).call c s').1.2, ((Cursor.page 0 9).call c s').2) :=
        ⟨rfl, fun hr => hnl hr.1⟩
      exact ⟨c, s', _, _, rfl, Run.single hstep, Index.retry_exact hw filterHolds_none
        (Index.sidesAgree_none _ _ _) hopen (Run.single hstep)⟩

/-- The first eight docs are handed out twice. -/
theorem duplicates_after_retry : ∃ c s' tr σ,
    ((abcIndex nineBuckets).searchCursorFiltered "abc" 0 none).run fifthFails = (.ok c, s') ∧
      Run Cursor.Step (c, s') tr σ ∧ ¬ σ.1.results.Pairwise (· < ·) ∧
      ¬ σ.1.results <+: ((abcIndex nineBuckets).exact "abc" 0 ⟨[], []⟩ ⟨[], []⟩).toList := by
  have hrun : (match ((abcIndex nineBuckets).searchCursorFiltered "abc" 0 none).run fifthFails with
      | (.ok c, s') => (Cursor.replay 0 pageAgain (c, s')).any fun r =>
          decide (¬ r.2.1.results.Pairwise (· < ·) ∧ ¬ r.2.1.results <+: nineBuckets.toList)
      | (.error _, _) => false) = true := by decide +kernel
  have hexact : (abcIndex nineBuckets).exact "abc" 0 ⟨[], []⟩ ⟨[], []⟩ = nineBuckets := by
    rw [Index.exact, abcIndex_candidates]
    exact AscSet.filter_true _
  cases hopen : ((abcIndex nineBuckets).searchCursorFiltered "abc" 0 none).run fifthFails with
  | mk o s' =>
    rw [hopen] at hrun
    cases o with
    | error e => exact absurd hrun (by simp)
    | ok c =>
      obtain ⟨⟨tr, σ⟩, hreplay, hres⟩ := (Option.any_eq_true _ _).mp hrun
      obtain ⟨hasc, hpre⟩ := of_decide_eq_true hres
      exact ⟨c, s', tr, σ, rfl, Cursor.run_of_replay Run.start hreplay, hasc, by rwa [hexact]⟩

end

end RoaringRange
