import RoaringRange.Lib.Routes
import RoaringRange.SplitFacets
import RoaringRange.SplitMonolith
import RoaringRange.WriterShelves

/-!
# Where the ids of a writer's documents lead (`splitset.rs`, `splitset_write.rs`)

An id leads to the first split in the manifest that contains it.  A merged split has a range from its first document to
its last, which may go over documents of splits that were not merged; as it comes last in the manifest, these are found
before it.  Once one of them is compacted itself, it comes after the merged split, and its ids lead there.

    the splits of a build are routed to                                         (CutInto.housed, routes_base)
    so are those of any session whose compactions stay apart                          (Housed.routes_step)
    every live document is found in its split, under its local id                             (live_routed)
-/

namespace RoaringRange

open ByteString Faults Slices Runs Routes Tiles

/-! ## Ids by split -/

/-- An id and those before it each lead to the first split that contains them. -/
theorem mem_idsBySplit {splits : List Split} {ids : List (Fin u32Bound)} {i l : Nat} :
    (∃ bm, (i, bm) ∈ idsBySplit splits ids ∧ l ∈ bm) ↔ ∃ id ∈ ids, ∃ split,
      splits.zipIdx.find? (fun x => x.1.contains id.val) = some (split, i) ∧ split.toLocal id.val = l := by
  have hall : ∀ (ids : List (Fin u32Bound)) (m : OrdMap Nat Bitmap),
      (∃ bm, (ids.foldl (placeId splits) m).find? i = some bm ∧ l ∈ bm) ↔ (∃ bm, m.find? i = some bm ∧ l ∈ bm) ∨
        ∃ id ∈ ids, ∃ split, splits.zipIdx.find? (fun x => x.1.contains id.val) = some (split, i) ∧
          split.toLocal id.val = l := by
    intro ids
    induction ids with
    | nil => simp
    | cons id ids ih =>
      intro m
      have hone : (∃ bm, (placeId splits m id).find? i = some bm ∧ l ∈ bm) ↔ (∃ bm, m.find? i = some bm ∧ l ∈ bm) ∨
          ∃ split, splits.zipIdx.find? (fun x => x.1.contains id.val) = some (split, i) ∧ split.toLocal id.val = l := by
        unfold placeId
        cases hfind : splits.zipIdx.find? fun x => x.1.contains id.val with
        | none => simp
        | some x =>
          obtain ⟨split, j⟩ := x
          simp only [OrdMap.find?_update, Option.some.injEq, Prod.mk.injEq]
          by_cases hj : i = j
          · subst hj
            rw [if_pos rfl]
            simp only [Option.some.injEq, exists_eq_left', AscSet.mem_insert, and_true]
            cases m.find? i with
            | none => simp [eq_comm]
            | some bm => simp [or_comm, eq_comm]
          · rw [if_neg hj]
            simp [Ne.symm hj]
      rw [List.foldl_cons, ih, hone, or_assoc, List.exists_mem_cons_iff]
  have h := hall ids ∅
  simp only [OrdMap.find?_eq_some_iff] at h
  refine h.trans (or_iff_right ?_)
  rintro ⟨bm, hbm, -⟩
  exact absurd hbm List.not_mem_nil

theorem find?_zipIdx_first {splits : List Split} {i : Nat} {split : Split} {d : Nat} (hs : splits[i]? = some split)
    (hc : split.contains d = true) (hfirst : ∀ j < i, ∀ s, splits[j]? = some s → s.contains d = false) :
    splits.zipIdx.find? (fun x => x.1.contains d) = some (split, i) := by
  rw [List.find?_eq_some_iff_getElem]
  obtain ⟨hi, rfl⟩ := List.getElem?_eq_some_iff.mp hs
  refine ⟨hc, i, by rwa [List.length_zipIdx], by rw [List.getElem_zipIdx, Nat.zero_add], fun j hj => ?_⟩
  have hj' : j < splits.length := by omega
  rw [List.getElem_zipIdx]
  show (!splits[j].contains d) = true
  rw [hfirst j hj _ (List.getElem?_eq_getElem hj')]
  rfl

/-! ## Shelves that are routed to -/

section

variable [Roaring]

/-- Every live document of a shelf is in the range of its split, and in that of no split before it. -/
def RoutesLive (shelves : List Shelf) : Prop :=
  Routed (fun s d => s.spec.entry.contains d = true) (fun s d => s.Holds d ∧ ¬ Masked (shelves.map Shelf.spec) d) shelves

theorem routes_of_placed {shelves : List Shelf} (hplaced : ∀ s ∈ shelves, s.Placed)
    (hfree : shelves.Pairwise fun a b => ∀ d, b.Holds d → a.spec.entry.contains d = false) : RoutesLive shelves := by
  refine ⟨fun s hs d hd => (hplaced s hs).holds_contains hd.1, hfree.imp fun hab d hd => ?_⟩
  rw [hab d hd.1]
  exact Bool.false_ne_true

/-- A shelf more, behind those that stay, where no split that stays covers its live documents. -/
theorem RoutesLive.snoc {shelves stay : List Shelf} (h : RoutesLive shelves) (hsub : stay.Sublist shelves) {s : Shelf}
    (hplaced : s.Placed)
    (hmask : ∀ d, Masked (shelves.map Shelf.spec) d → Masked ((stay ++ [s]).map Shelf.spec) d)
    (hfree : ∀ d, s.Holds d → ¬ Masked (shelves.map Shelf.spec) d → ∀ t ∈ stay, t.spec.entry.contains d = false) :
    RoutesLive (stay ++ [s]) := by
  refine routed_snoc_iff.mpr ⟨?_, fun d hd => hplaced.holds_contains hd.1, fun t ht d hd => ?_⟩
  · exact (h.sublist hsub).mono fun t _ d hd => ⟨hd.1, fun hm => hd.2 (hmask d hm)⟩
  · rw [hfree d hd.1 (fun hm => hd.2 (hmask d hm)) t ht]
    exact Bool.false_ne_true

namespace Session

variable {σ σ' : Session} {base deltas deltas' : List Shelf}

/-- A compaction stays apart from the splits that it leaves. -/
def StaysApart (σ : Session) : WriterCall → Prop
  | .compact inputs => σ.writer.Apart inputs
  | _ => True

/-- A call that goes through, and a compaction that stays apart. -/
def RoutedStep (σ : Session) (l : WriterCall × WriterOutcome) (σ' : Session) : Prop :=
  σ.Step l σ' ∧ σ.Orderly l.1 ∧ σ.StaysApart l.1

/-- **A compaction that stays apart keeps every live document routed to.** -/
theorem Housed.routes_step {c : WriterCall} (h : Housed base deltas σ) (hr : RoutesLive (base ++ deltas))
    (horderly : σ.Orderly c) (hapart : σ.StaysApart c) (hre : σ.Reshelved σ' deltas c deltas') :
    RoutesLive (base ++ deltas') := by
  cases hre with
  | same => exact hr
  | flushed bytes =>
    rw [← List.append_assoc]
    refine hr.snoc (List.Sublist.refl _) (h.filling.placed bytes.length) (fun d hm => ?_) fun d hd _ => ?_
    · exact hm.subset fun s hs => by
        rw [List.map_append]
        exact List.mem_append_left _ hs
    · exact h.shelved.free_flushed h.filling bytes.length hd
  | compacted inputs merged dead bytes hgather =>
    obtain ⟨gs, hgs, hdocs, hdead⟩ := SplitSetWriter.gather_ok hgather
    have hfiled : ∀ s ∈ deltas, s.Filed σ.files true := by
      rw [← horderly.caseFold]
      exact h.filed
    have hkept := h.shelved.kept_eq hgs
    have hsub : (base ++ deltas.filter (Shelf.stays inputs)).Sublist (base ++ deltas) :=
      List.Sublist.append (List.Sublist.refl _) List.filter_sublist
    have hholds : ∀ k, ∀ d ∈ (SplitSetWriter.surviving merged dead).docs k, ∃ g ∈ gs, g.Has k d := by
      intro k d hd
      exact (hdocs k d).mp (SplitSetWriter.mem_docs_surviving.mp hd).1
    rw [← List.append_assoc]
    refine hr.snoc hsub (SplitSetWriter.placed_mergedShelf (fun k d hd => ?_) bytes.length) (fun d hm => ?_)
      fun d hd hlive t ht => ?_
    · obtain ⟨s, hs, -, hhold⟩ := h.shelved.holds_merged hfiled horderly.files hgs hdocs
        (SplitSetWriter.mem_docs_surviving.mp hd).1
      obtain ⟨hpos, -, hle⟩ := (h.shelved.placed s (List.mem_append_right _ hs)).le_docIdHi hhold
      have := h.shelved.capped s hs hpos
      omega
    · rw [← h.shelved.specs] at hm
      have := (h.shelved.masked_compacted hgs hdead (SplitSetWriter.surviving merged dead) bytes.length).mpr hm
      rw [List.map_append, ← hkept]
      exact this
    · obtain ⟨k, hk⟩ := SplitSetWriter.holds_mergedShelf.mp hd
      obtain ⟨g, hg, hhas⟩ := hholds k d hk
      obtain ⟨input, hinput, hgathers⟩ := exists_partner_left hgs hg
      rw [← h.shelved.specs] at hlive
      refine hapart input hinput g hgathers k d hhas hlive t.spec ?_
      rw [hkept]
      exact List.mem_map_of_mem ht

/-- A compaction of all the deltas stays apart. -/
theorem Housed.apart_of_all (h : Housed base deltas σ) (hr : RoutesLive (base ++ deltas))
    {inputs : List (String × Bytes)} (hc : σ.Compactable inputs)
    (hall : ∀ s ∈ σ.writer.specs.drop σ.writer.baseCount, ∃ i ∈ inputs, i.1 = s.dataFile) : σ.writer.Apart inputs := by
  have hdrop : σ.writer.specs.drop σ.writer.baseCount = deltas.map Shelf.spec := by
    rw [h.shelved.specs, h.shelved.baseCount, List.map_append]
    exact List.drop_left' (List.length_map _)
  rw [hdrop] at hall
  have hfiled : ∀ s ∈ deltas, s.Filed σ.files true := by
    rw [← hc.caseFold]
    exact h.filed
  intro input hinput g hg k d hhas hlive spec hspec
  obtain ⟨s, hs, -, -, hiff⟩ := h.shelved.gathers hfiled (hc.files input hinput) hg
  obtain ⟨l, hl, rfl⟩ := (hiff k d).mp hhas
  have hhold : s.Holds (s.spec.entry.toGlobal l) :=
    ⟨l, (h.shelved.placed s (List.mem_append_right _ hs)).stored k l hl, rfl⟩
  obtain ⟨hmem, hstays⟩ := List.mem_filter.mp hspec
  rw [h.shelved.specs] at hmem hlive
  obtain ⟨t, ht, rfl⟩ := List.mem_map.mp hmem
  rcases List.mem_append.mp ht with ht | ht
  · exact Bool.eq_false_iff.mpr ((List.pairwise_append.mp hr.first).2.2 t ht s hs _ ⟨hhold, hlive⟩)
  · have hgone : t.stays inputs = false := Shelf.stays_eq_false.mpr (hall _ (List.mem_map_of_mem ht))
    have hstays' : t.stays inputs = true := hstays
    exact absurd (hgone.symm.trans hstays') Bool.false_ne_true

theorem Housed.routes_run {σ₀ : Session} {tr : List (WriterCall × WriterOutcome)} (h₀ : Housed base [] σ₀)
    (hr₀ : RoutesLive base) (hrun : Run RoutedStep σ₀ tr σ) :
    ∃ deltas, Housed base deltas σ ∧ RoutesLive (base ++ deltas) := by
  refine hrun.invariant (I := fun _ (σ : Session) => ∃ deltas, Housed base deltas σ ∧ RoutesLive (base ++ deltas)) ?_ ?_
  · exact ⟨[], h₀, by rwa [List.append_nil]⟩
  · rintro _ σ l σ' ⟨deltas, h, hr⟩ ⟨hs, horderly, hapart⟩
    obtain ⟨deltas', hre, h'⟩ := h.step hs horderly
    exact ⟨deltas', h', h.routes_step hr horderly hapart hre⟩

end Session

end

/-! ## The base -/

section

variable [Roaring] [Unicode] {config : SplitBuildConfig} {top : Nat} {v2 : Bool} {docs : List BuildDoc}
  {all : BuiltSplitSet} {st : List SealedSplit × List BuildDoc}

def baseShelves (parts : List SealedSplit) : List Shelf := parts.map fun s => ⟨s.spec, (postsAndUpper s.docs).1⟩

/-- The records of a sealed split's summary: a filter if one was asked for, and what its facets add. -/
theorem CutInto.exists_records (h : CutInto (SplitSetBuilder.start config top v2) docs all st) {s : SealedSplit}
    (hs : s ∈ st.1) (hlen : s.spec.summary.length < 2 ^ 32) : ∃ rs, SummaryOf s.spec.summary rs ∧
      recordOf rs summaryTagFacet = (if (facetsOf s.docs).isEmpty then none
        else some (facetPresence (facetsOf s.docs) (SplitSetBuilder.start config top v2).caseNormalization)) ∧
      ∀ r ∈ rs, r.1 ≠ summaryTagTombstone := by
  obtain ⟨i, hi⟩ := List.mem_iff_getElem?.mp hs
  obtain ⟨bytes, more, sidecar, -, hside, hspec⟩ := SplitSetBuilder.cut_ok (h.each i s hi).2
  have hsummary : s.spec.summary = SplitSetBuilder.bloomRecord
      (SplitSetBuilder.start config top v2).bloomBitsPerKey (postsAndUpper s.docs).1 ++ more := by rw [hspec]
  obtain ⟨rs, hrs, htags⟩ := filter_records (0 < (SplitSetBuilder.start config top v2).bloomBitsPerKey)
    (postsAndUpper s.docs).1.keys (SplitSetBuilder.start config top v2).bloomBitsPerKey
  obtain ⟨rs', hrs', htags', hfacet⟩ := sealFacetSidecar_records hside
  have htag : ∀ r ∈ rs ++ rs', r.1 < 256 ∧ r.1 ≠ summaryTagTombstone := by
    intro r hr
    rcases List.mem_append.mp hr with hr | hr
    · rw [htags r hr]
      decide
    · exact ⟨(htags' r hr).1, (htags' r hr).2.2⟩
  have hsum : s.spec.summary = (rs ++ rs').flatMap fun r => tlvRecord r.1 r.2 := by
    rw [hsummary, List.flatMap_append, ← hrs, ← hrs']
    rfl
  refine ⟨rs ++ rs', ⟨hsum, fun r hr => (htag r hr).1, hlen⟩, ?_, fun r hr => (htag r hr).2⟩
  rw [recordOf_append, recordOf_eq_none fun r hr => by rw [htags r hr]; decide]
  exact hfacet

theorem CutInto.parseTombstone_eq (h : CutInto (SplitSetBuilder.start config top v2) docs all st) {s : SealedSplit}
    (hs : s ∈ st.1) (hlen : s.spec.summary.length < 2 ^ 32) : parseTombstone s.spec.summary = .ok none := by
  obtain ⟨rs, hrs, -, htags⟩ := h.exists_records hs hlen
  exact parseTombstone_of_records hrs htags

theorem CutInto.placed (h : CutInto (SplitSetBuilder.start config top v2) docs all st)
    (htiles : Each SealedSplit.docs (SealedAt (SplitSetBuilder.start config top v2)) st.1) (hn : docs.length ≤ u32Bound)
    {s : SealedSplit} (hs : s ∈ st.1) (hsize : s.bytes.length < u64Bound) :
    (⟨s.spec, (postsAndUpper s.docs).1⟩ : Shelf).Placed := by
  obtain ⟨i, hi⟩ := List.mem_iff_getElem?.mp hs
  have hat := htiles i s hi
  obtain ⟨-, hflags, hle⟩ := h.spec_inRange htiles hn hi hsize
  have hlo := hat.docIdLo
  have hhi := hat.docIdHi
  obtain ⟨hcount, hpos⟩ := hat.docCount
  refine Shelf.placed_of_range ?_ (fun k l hl => ?_) fun _ => ⟨?_, ?_⟩
  · show hasFlag s.spec.flags splitFlagAbsoluteIds = false
    rw [hflags]
    rfl
  · obtain ⟨doc, hdoc, -⟩ := (mem_postsAndUpper (by omega)).mp hl
    show l < s.spec.docCount
    rw [hcount]
    exact (List.getElem?_eq_some_iff.mp hdoc).1
  · show s.spec.docIdHi + 1 = s.spec.docIdLo + s.spec.docCount
    omega
  · show s.spec.docIdHi < u32Bound
    omega

theorem CutInto.pairwise_free (h : CutInto (SplitSetBuilder.start config top v2) docs all st)
    (htiles : Each SealedSplit.docs (SealedAt (SplitSetBuilder.start config top v2)) st.1) (hn : docs.length ≤ u32Bound)
    (hsizes : ∀ s ∈ st.1, s.bytes.length < u64Bound) :
    (baseShelves st.1).Pairwise fun a b => ∀ d, b.Holds d → a.spec.entry.contains d = false := by
  unfold baseShelves
  rw [List.pairwise_map, List.pairwise_iff_getElem]
  intro i j hi hj hij d hd
  have hati := htiles i _ (List.getElem?_eq_getElem hi)
  have hatj := htiles j _ (List.getElem?_eq_getElem hj)
  obtain ⟨-, hlo, -⟩ := (h.placed htiles hn (List.getElem_mem hj) (hsizes _ (List.getElem_mem hj))).le_docIdHi hd
  have hnext : startOf SealedSplit.docs st.1 (i + 1) = startOf SealedSplit.docs st.1 i + st.1[i].docs.length :=
    startOf_succ (List.getElem?_eq_getElem hi)
  have hmono : startOf SealedSplit.docs st.1 (i + 1) ≤ startOf SealedSplit.docs st.1 j := startOf_mono hij
  have hhi := hati.docIdHi
  have hlo' := hatj.docIdLo
  have hd' : st.1[j].spec.docIdLo ≤ d := hlo
  rw [Bool.eq_false_iff]
  intro hc
  have hc' : (decide (0 < st.1[i].spec.docCount) && decide (st.1[i].spec.docIdLo ≤ d) &&
    decide (d ≤ st.1[i].spec.docIdHi)) = true := hc
  rw [Bool.and_eq_true] at hc'
  have hle := of_decide_eq_true hc'.2
  omega

/-- **A writer resumed over a build** has the splits of the build on its shelves, and they are routed to. -/
theorem CutInto.housed (h : CutInto (SplitSetBuilder.start config top v2) docs all st) (hn : docs.length ≤ u32Bound)
    (hne : docs.length = u32Bound → all.splits ≠ []) (hsizes : ∀ s ∈ st.1, s.bytes.length < u64Bound)
    (hlen : all.manifest.length < u64Bound) {prev : SplitSet} (hprev : SplitSet.fromBytes all.manifest = .ok prev)
    (args : ResumeArgs) (files : NamedFiles) : Session.Housed (baseShelves st.1) []
      ⟨.resume prev args.gramSize args.stride args.namePrefix args.bloomBitsPerKey, some all.manifest, files⟩ ∧
      RoutesLive (baseShelves st.1) := by
  have hem := h.emitted hn hne
  obtain ⟨set, hset, hcount, hsummary, hdesc⟩ := h.exists_described hn hne hsizes hlen
  obtain rfl : prev = set := Except.ok.inj (hprev.symm.trans hset)
  have hcarried := SplitSetWriter.carried_of_describes hdesc
  have hspecs : (baseShelves st.1).map Shelf.spec = st.1.map SealedSplit.spec := by
    unfold baseShelves
    rw [List.map_map]
    rfl
  have hplaced : ∀ s ∈ baseShelves st.1, s.Placed := by
    intro s hs
    obtain ⟨t, ht, rfl⟩ := List.mem_map.mp hs
    exact h.placed hem.tiles hn ht (hsizes t ht)
  have hfree := h.pairwise_free hem.tiles hn hsizes
  have hstarts := Session.Starts.reopened all.manifest files prev args hlen hprev
  have hpub : (⟨.resume prev args.gramSize args.stride args.namePrefix args.bloomBitsPerKey, some all.manifest, files⟩ :
      Session).published = prev.splits.map (SplitSetWriter.carried prev) := Session.published_of_fromBytes rfl hprev
  refine ⟨⟨Session.sized_starts hstarts, Session.named_starts hstarts ?_, ?_, Session.filling_of_empty rfl rfl,
    fun s hs => absurd hs List.not_mem_nil, all.manifest, prev, rfl, hprev, rfl, rfl, rfl⟩, routes_of_placed hplaced hfree⟩
  · intro spec hspec
    rw [hpub, hcarried] at hspec
    obtain ⟨s, hs, rfl⟩ := List.mem_map.mp hspec
    obtain ⟨i, hi⟩ := List.mem_iff_getElem?.mp hs
    rw [(hem.tiles i s hi).dataFile]
    have hnone : ∀ c : Char, c ≠ 's' → c ≠ '-' → seqOf args.namePrefix (String.ofList ['-', c])
        (splitStem (SplitSetBuilder.start config top v2).namePrefix i ++ ".rrs") ≠ some (u32Bound - 1) := by
      intro c hc hhyphen heq
      rw [seqOf_splitStem _ _ _ hc hhyphen] at heq
      cases heq
    exact ⟨hnone 'd' (by decide) (by decide), hnone 'c' (by decide) (by decide)⟩
  · have hw : (SplitSetWriter.resume prev args.gramSize args.stride args.namePrefix args.bloomBitsPerKey).specs =
        st.1.map SealedSplit.spec := hcarried
    refine ⟨?_, ?_, ?_, fun s hs => ?_, fun spec hspec => ?_, ?_, fun s hs hpos => Session.free_resumed args hs hpos,
      fun s hs => absurd hs List.not_mem_nil⟩
    · rw [List.append_nil, hspecs, hw]
    · show prev.baseCount = (baseShelves st.1).length
      rw [hcount, baseShelves, List.length_map]
    · have hnames := hem.names
      rw [hem.files, List.map_map] at hnames
      rw [hw, List.map_map]
      exact hnames
    · rw [List.append_nil] at hs
      exact hplaced s hs
    · rw [hw] at hspec
      obtain ⟨s, hs, rfl⟩ := List.mem_map.mp hspec
      exact ⟨none, h.parseTombstone_eq hs (hsummary s hs)⟩
    · rw [List.append_nil]
      refine hfree.imp_of_mem fun {a b} ha _ hab d hb hda => ?_
      exact Bool.false_ne_true ((hab d hb).symm.trans ((hplaced a ha).holds_contains hda))

end

/-! ## What a client finds -/

section

variable [Roaring]

/-- The split has a document under the local id: one of its count or, in a merged split, one of a posting in its file. -/
def Split.StoresDoc (split : Split) (files : NamedFiles) (l : Nat) : Prop :=
  if split.absoluteIds then ∃ file ix k S, fileOf files split.dataFile = some file ∧
    Settles (Index.open (MemoryFetch.new file)) (.ok ix) ∧ ix.postingOf k = some S ∧ l ∈ S
  else l < split.docCount

/-- The global id of a document leads to the split `i` that stores it, under its local id `l`. -/
structure LeadsTo (splits : List Split) (i : Nat) (split : Split) (l : Nat) : Prop where
  contains : split.contains (split.toGlobal l) = true
  first : ∀ j < i, ∀ s, splits[j]? = some s → s.contains (split.toGlobal l) = false
  toLocal : split.toLocal (split.toGlobal l) = l
  handed : ∀ ids : List (Fin u32Bound), ∀ id ∈ ids, id.val = split.toGlobal l →
    ∃ bm, (i, bm) ∈ idsBySplit splits ids ∧ l ∈ bm
  alone : ∀ id : Fin u32Bound, id.val = split.toGlobal l → ∀ j bm, (j, bm) ∈ idsBySplit splits [id] →
    ∀ l' ∈ bm, j = i ∧ l' = l

omit [Roaring] in
theorem leadsTo_of_first {splits : List Split} {i l : Nat} {split : Split} (hs : splits[i]? = some split)
    (hc : split.contains (split.toGlobal l) = true)
    (hfirst : ∀ j < i, ∀ s, splits[j]? = some s → s.contains (split.toGlobal l) = false)
    (hlocal : split.toLocal (split.toGlobal l) = l) : LeadsTo splits i split l := by
  have hfind := find?_zipIdx_first hs hc hfirst
  refine ⟨hc, hfirst, hlocal, fun ids id hid heq => ?_, fun id heq j bm hbm l' hl' => ?_⟩
  · refine mem_idsBySplit.mpr ⟨id, hid, split, ?_, ?_⟩
    · rw [heq]
      exact hfind
    · rw [heq]
      exact hlocal
  · obtain ⟨id', hid', split', hfind', rfl⟩ := mem_idsBySplit.mp ⟨bm, hbm, hl'⟩
    rw [List.mem_singleton.mp hid', heq, hfind] at hfind'
    obtain ⟨rfl, rfl⟩ := Prod.mk.inj (Option.some.inj hfind')
    rw [List.mem_singleton.mp hid', heq]
    exact ⟨rfl, hlocal⟩

theorem exists_dead {set : SplitSet}
    (h : ∀ s ∈ set.splits.map (SplitSetWriter.carried set), ∃ ids, parseTombstone s.summary = .ok ids) :
    ∃ dead, set.dead = .ok dead ∧ ∀ d, d ∈ dead ↔ Masked (set.splits.map (SplitSetWriter.carried set)) d := by
  have htomb : ∀ split ids, parseTombstone (SplitSetWriter.carried set split).summary = .ok ids ↔
      set.tombstone split = .ok ids := by
    intro split ids
    unfold parseTombstone SplitSet.tombstone
    rw [show (SplitSetWriter.carried set split).summary = (set.summary split).getD [] from rfl]
    cases findTlv ((set.summary split).getD []) summaryTagTombstone with
    | error e => exact iff_of_false (fun h => by cases h) (fun h => by cases h)
    | ok payload =>
      cases payload with
      | none => exact ⟨fun h => congrArg Except.ok (Except.ok.inj h), fun h => congrArg Except.ok (Except.ok.inj h)⟩
      | some bytes =>
        simp only [bind, Except.bind]
        cases deserialize bytes with
        | error e => exact iff_of_false (fun h => by cases h) (fun h => by cases h)
        | ok bm => exact ⟨fun h => congrArg Except.ok (Except.ok.inj h), fun h => congrArg Except.ok (Except.ok.inj h)⟩
  have hread : ∀ split ∈ set.splits, ∃ ids, set.tombstone split = .ok ids := by
    intro split hsplit
    obtain ⟨ids, hids⟩ := h _ (List.mem_map_of_mem hsplit)
    exact ⟨ids, (htomb split ids).mp hids⟩
  obtain ⟨tombstones, hcollect, hall⟩ := exists_collect hread
  refine ⟨AscSet.unions (tombstones.filterMap id), ?_, fun d => ?_⟩
  · unfold SplitSet.dead
    rw [hcollect]
    rfl
  · rw [AscSet.mem_unions]
    constructor
    · rintro ⟨ids, hids, hd⟩
      obtain ⟨t, ht, rfl⟩ := List.mem_filterMap.mp hids
      obtain ⟨split, hsplit, heq⟩ := exists_partner_left hall ht
      exact ⟨_, List.mem_map_of_mem hsplit, ids, (htomb split _).mpr heq, hd⟩
    · rintro ⟨s, hs, ids, hids, hd⟩
      obtain ⟨split, hsplit, rfl⟩ := List.mem_map.mp hs
      obtain ⟨t, ht, heq⟩ := exists_partner hall hsplit
      have hsome : t = some ids := Except.ok.inj (heq.symm.trans ((htomb split _).mp hids))
      exact ⟨ids, List.mem_filterMap.mpr ⟨t, ht, hsome⟩, hd⟩

theorem Shelf.Filed.mem_docs {s : Shelf} {files : NamedFiles} {caseFold : Bool} (h : s.Filed files caseFold)
    {file : Bytes} {ix : Index} {k : Key} {S : Bitmap} {l : Nat} (hfile : fileOf files s.spec.dataFile = some file)
    (hopen : Settles (Index.open (MemoryFetch.new file)) (.ok ix)) (hposting : ix.postingOf k = some S) (hl : l ∈ S) :
    l ∈ s.posts.docs k := by
  obtain ⟨gramSize, stride, file', hg, hstride, hwrite, hfile'⟩ := h.file
  obtain rfl : file' = file := Option.some.inj (hfile'.symm.trans hfile)
  obtain ⟨c, rfl, -, -, hpost⟩ := exists_corpus hg hstride h.keys_lt hwrite
  have hix : ix = c.index (MemoryFetch.new c.bytes) :=
    Except.ok.inj ((hopen.unless fun _ => False).unique (c.settles_open.unless fun _ => False))
  rw [hix, c.postingOf_eq, hpost] at hposting
  unfold PostMap.docs
  rw [hposting]
  exact hl

/-- **Shelves that are routed to**: the ids of their live documents lead to their splits. -/
theorem Session.Housed.leadsTo {σ : Session} {base deltas : List Shelf} (h : σ.Housed base deltas)
    (hbase : ∀ s ∈ base, s.spec.entry.absoluteIds = false) (hr : RoutesLive (base ++ deltas)) :
    ∃ bytes set dead, σ.manifest = some bytes ∧ SplitSet.fromBytes bytes = .ok set ∧ set.dead = .ok dead ∧
      ∀ i split l, set.splits[i]? = some split → split.StoresDoc σ.files l → split.toGlobal l ∉ dead →
        LeadsTo set.splits i split l := by
  obtain ⟨bytes, set, hm, hset, hspecs, -⟩ := h.current
  have hshelves : set.splits.map (SplitSetWriter.carried set) = (base ++ deltas).map Shelf.spec :=
    hspecs.trans h.shelved.specs
  obtain ⟨dead, hdead, hmasked⟩ := @exists_dead _ set (by rw [hspecs]; exact h.shelved.tombstones)
  have hshelf : ∀ (i : Nat) (split : Split), set.splits[i]? = some split → ∃ s, (base ++ deltas)[i]? = some s ∧
      s.spec = SplitSetWriter.carried set split := by
    intro i split hi
    have hget := congrArg (fun xs => xs[i]?) hshelves
    simp only [List.getElem?_map, hi, Option.map_some] at hget
    obtain ⟨s, hs, hspec⟩ := Option.map_eq_some_iff.mp hget.symm
    exact ⟨s, hs, hspec⟩
  have hcontains : ∀ (s : Shelf) (split : Split), s.spec = SplitSetWriter.carried set split →
      s.spec.entry.contains = split.contains ∧ s.spec.entry.toGlobal = split.toGlobal ∧
        s.spec.entry.toLocal = split.toLocal := by
    intro s split hspec
    rw [hspec]
    exact ⟨rfl, rfl, rfl⟩
  refine ⟨bytes, set, dead, hm, hset, hdead, fun i split l hi hstores hlive => ?_⟩
  obtain ⟨s, hs, hspec⟩ := hshelf i split hi
  obtain ⟨hc, hglobal, hlocal⟩ := hcontains s split hspec
  have hmem := List.mem_of_getElem? hs
  have hstored : s.Stores l := by
    have habs : s.spec.entry.absoluteIds = split.absoluteIds := by rw [hspec]; rfl
    have hcount : s.spec.docCount = split.docCount := by rw [hspec]; rfl
    have hname : s.spec.dataFile = split.dataFile := by rw [hspec]; rfl
    unfold Split.StoresDoc at hstores
    unfold Shelf.Stores
    rw [habs]
    cases hsplit : split.absoluteIds with
    | false =>
      rw [hsplit] at hstores
      show l < s.spec.docCount
      rw [hcount]
      exact hstores
    | true =>
      rw [hsplit] at hstores
      obtain ⟨file, ix, k, S, hfile, hopen, hposting, hl⟩ := hstores
      rcases List.mem_append.mp hmem with hmem | hmem
      · rw [hbase s hmem, hsplit] at habs
        cases habs
      · exact ⟨k, (h.filed s hmem).mem_docs (hname ▸ hfile) hopen hposting hl⟩
  have hholds : s.Holds (split.toGlobal l) ∧ ¬ Masked ((base ++ deltas).map Shelf.spec) (split.toGlobal l) := by
    refine ⟨⟨l, hstored, congrFun hglobal l⟩, ?_⟩
    rw [← hshelves, ← hmasked]
    exact hlive
  obtain ⟨hown, hfirst⟩ := hr.first_cover hs hholds
  refine leadsTo_of_first hi (by rw [← hc]; exact hown) (fun j hj t ht => ?_) ?_
  · obtain ⟨u, hu, huspec⟩ := hshelf j t ht
    rw [← (hcontains u t huspec).1]
    exact Bool.eq_false_iff.mpr (hfirst j hj u hu)
  · rw [← hglobal, ← hlocal]
    exact (h.shelved.placed s hmem).toLocal l hstored

variable [Unicode]

theorem housed_over_build {config : SplitBuildConfig} {top : Nat} {v2 : Bool} {calls : List BuildCall} {r : BuildRun}
    {built : BuiltSplitSet} (hcalls : BuildRun.calls ⟨SplitSetBuilder.start config top v2, [], []⟩ calls = ([], r))
    (hfin : r.builder.finish = .ok built)
    (hn : (BuildCall.documents (SplitSetBuilder.start config top v2) calls).length ≤ 2 ^ 32)
    (hne : (BuildCall.documents (SplitSetBuilder.start config top v2) calls).length = 2 ^ 32 →
      r.files ++ built.splits ≠ [])
    (hsizes : ∀ f ∈ r.files ++ built.splits, f.2.length < 2 ^ 64) (hlen : built.manifest.length < 2 ^ 64)
    {prev : SplitSet} (hprev : SplitSet.fromBytes built.manifest = .ok prev) (args : ResumeArgs) (files : NamedFiles) :
    ∃ base : List Shelf, (∀ s ∈ base, s.spec.entry.absoluteIds = false) ∧ RoutesLive base ∧ Session.Housed base []
      ⟨.resume prev args.gramSize args.stride args.namePrefix args.bloomBitsPerKey, some built.manifest, files⟩ := by
  obtain ⟨cut, st, -, -, hinto⟩ := exists_cutInto hcalls hfin
  have hparts : ∀ s ∈ st.1, s.bytes.length < u64Bound := by
    intro s hs
    refine hsizes s.file ?_
    rw [show r.files ++ built.splits = st.1.map SealedSplit.file from hinto.files]
    exact List.mem_map_of_mem hs
  obtain ⟨hhoused, hroutes⟩ := hinto.housed hn hne hparts hlen hprev args files
  refine ⟨baseShelves st.1, fun s hs => ?_, hroutes, hhoused⟩
  obtain ⟨t, ht, rfl⟩ := List.mem_map.mp hs
  obtain ⟨i, hi⟩ := List.mem_iff_getElem?.mp ht
  obtain ⟨-, hflags, -⟩ := hinto.spec_inRange (hinto.emitted hn hne).tiles hn hi (hparts t ht)
  show hasFlag t.spec.flags splitFlagAbsoluteIds = false
  rw [hflags]
  rfl

/-- **The id of every live document leads to the split that stores it**, under its local id there, in every session over a
build whose compactions stay apart from the splits that they leave. -/
theorem live_routed {config : SplitBuildConfig} {top : Nat} {v2 : Bool} {calls : List BuildCall} {r : BuildRun}
    {built : BuiltSplitSet} (hcalls : BuildRun.calls ⟨SplitSetBuilder.start config top v2, [], []⟩ calls = ([], r))
    (hfin : r.builder.finish = .ok built)
    (hn : (BuildCall.documents (SplitSetBuilder.start config top v2) calls).length ≤ 2 ^ 32)
    (hne : (BuildCall.documents (SplitSetBuilder.start config top v2) calls).length = 2 ^ 32 →
      r.files ++ built.splits ≠ [])
    (hsizes : ∀ f ∈ r.files ++ built.splits, f.2.length < 2 ^ 64) (hlen : built.manifest.length < 2 ^ 64)
    {prev : SplitSet} (hprev : SplitSet.fromBytes built.manifest = .ok prev) (args : ResumeArgs) (files : NamedFiles)
    {tr : List (WriterCall × WriterOutcome)} {σ : Session}
    (hrun : Run Session.RoutedStep
      ⟨.resume prev args.gramSize args.stride args.namePrefix args.bloomBitsPerKey, some built.manifest, files⟩ tr σ) :
    ∃ bytes set dead, σ.manifest = some bytes ∧ SplitSet.fromBytes bytes = .ok set ∧ set.dead = .ok dead ∧
      ∀ i split l, set.splits[i]? = some split → split.StoresDoc σ.files l → split.toGlobal l ∉ dead →
        LeadsTo set.splits i split l := by
  obtain ⟨base, hrelative, hroutes, hhoused⟩ := housed_over_build hcalls hfin hn hne hsizes hlen hprev args files
  obtain ⟨deltas, h, hr⟩ := Session.Housed.routes_run hhoused hroutes hrun
  exact h.leadsTo hrelative hr

end

/-! ## A range over another split -/

namespace Session

section

variable [Roaring] {σ σ' : Session} {name : String}

theorem flushFits_of_emitted (h : σ.Step (.flush, .emitted name) σ') : σ.writer.FlushFits := by
  cases call_effect h.1 with
  | flushed bytes manifest hsome hfile hemit => exact Or.inr ((σ.writer.emit_flushed_iff _).mp ⟨manifest, hemit⟩)

theorem compactFits_of_emitted {inputs : List (String × Bytes)} (h : σ.Step (.compact inputs, .emitted name) σ') :
    σ.writer.CompactFits inputs := by
  cases call_effect h.1 with
  | compacted inputs merged dead bytes manifest hgather hfile hemit =>
    exact Or.inr ((σ.writer.emit_compacted_iff _ _ _ _).mp ⟨manifest, hemit⟩)

end

end Session

theorem SplitSetWriter.fewKeys_of_length [Roaring] {w : SplitSetWriter} {inputs : List (String × Bytes)} {m : Nat}
    (h : ∀ i ∈ inputs, ∀ es, readRrsEntries i.2 = .ok es → es.length ≤ m) (hlt : inputs.length * m < 2 ^ 32) :
    w.FewKeys inputs := by
  intro gs hgs
  have hlen : (gs.flatMap Gathered.entries).length ≤ inputs.length * m := by
    clear hlt
    induction hgs with
    | nil => simp
    | cons hg _ ih =>
      have hfirst := h _ List.mem_cons_self _ hg.entries
      have hrest := ih fun i hi => h i (List.mem_cons_of_mem _ hi)
      rw [List.flatMap_cons, List.length_append, List.length_cons, Nat.succ_mul]
      omega
  refine Nat.lt_of_le_of_lt (Nat.le_trans (List.dedup_sublist _).length_le ?_) hlt
  rwa [List.length_map]

theorem eq_ok_of_toOption {ε α : Type} {x : Except ε α} {a : α} (h : x.toOption = some a) : x = .ok a := by
  cases x with
  | error e => cases h
  | ok b => rw [Option.some.inj h]

section

attribute [local instance] PortableCodec.roaring asciiUnicode

open Session

/-- A build of one document. -/
def oneDocRun : BuildRun := (BuildRun.calls ⟨tieredTight, [], []⟩ [.addKeys [abcKey]]).2

/-- The manifest of the build, and the session of a writer that is resumed over it. -/
def overOneDoc : Option ((BuiltSplitSet × SplitSet) × Session) :=
  oneDocRun.builder.finish.toOption.bind fun built => (SplitSet.fromBytes built.manifest).toOption.map fun prev =>
    ((built, prev), ⟨.resume prev 3 0 "p" 0, some built.manifest, oneDocRun.files ++ built.splits⟩)

theorem overOneDoc_some {built : BuiltSplitSet} {prev : SplitSet} {σ : Session}
    (h : overOneDoc = some ((built, prev), σ)) : oneDocRun.builder.finish = .ok built ∧
      SplitSet.fromBytes built.manifest = .ok prev ∧
      σ = ⟨.resume prev 3 0 "p" 0, some built.manifest, oneDocRun.files ++ built.splits⟩ := by
  unfold overOneDoc at h
  obtain ⟨built', hbuilt, h⟩ := Option.bind_eq_some_iff.mp h
  obtain ⟨prev', hprev, h⟩ := Option.map_eq_some_iff.mp h
  obtain ⟨hpair, rfl⟩ := Prod.mk.inj h
  obtain ⟨rfl, rfl⟩ := Prod.mk.inj hpair
  exact ⟨eq_ok_of_toOption hbuilt, eq_ok_of_toOption hprev, rfl⟩

def threeFlushes : List WriterCall := [.addKeys [abcKey], .flush, .addKeys [abcKey], .flush, .addKeys [abcKey], .flush]

/-- The first and the last of the flushed splits are compacted, and then the one between them. -/
def mergesAround : NamedFiles → List WriterCall
  | last :: middle :: first :: _ => [.compact [first, last], .compact [middle]]
  | _ => []

/-- The ids that are masked, where they can be read. -/
def deadOf (set : SplitSet) : Option Bitmap := set.dead.toOption

/-- The id of the document between the others leads to the split of these. -/
theorem live_misrouted : ∃ (built : BuiltSplitSet) (prev : SplitSet) (tr : List (WriterCall × WriterOutcome)) (σ : Session),
    BuildRun.calls ⟨tieredTight, [], []⟩ [.addKeys [abcKey]] = ([], oneDocRun) ∧ oneDocRun.builder.finish = .ok built ∧
    SplitSet.fromBytes built.manifest = .ok prev ∧
    Run Step ⟨.resume prev 3 0 "p" 0, some built.manifest, oneDocRun.files ++ built.splits⟩ tr σ ∧
    ∃ bytes set dead split, σ.manifest = some bytes ∧ SplitSet.fromBytes bytes = .ok set ∧ set.dead = .ok dead ∧
      set.splits[2]? = some split ∧ split.StoresDoc σ.files 2 ∧ split.toGlobal 2 ∉ dead ∧
      ¬ LeadsTo set.splits 2 split 2 := by
  have hcheck : (overOneDoc.bind fun base => (base.2.replay threeFlushes).bind fun x =>
      (x.2.replay (mergesAround x.2.files)).bind fun y => y.2.manifest.bind fun bytes =>
        (SplitSet.fromBytes bytes).toOption.bind fun set => (deadOf set).bind fun dead => set.splits[2]?.bind fun split =>
          set.splits[1]?.map fun other => decide (split.absoluteIds = true ∧ other.contains 2 = true ∧ 2 ∉ dead ∧
            fileOf y.2.files split.dataFile = some (abcCorpus ((∅ : Bitmap).insert 2 (by decide))).bytes)) = some true := by
    decide +kernel
  obtain ⟨⟨⟨built, prev⟩, σ₀⟩, hbase, hcheck⟩ := Option.bind_eq_some_iff.mp hcheck
  obtain ⟨⟨tr₁, σ₁⟩, hflushes, hcheck⟩ := Option.bind_eq_some_iff.mp hcheck
  obtain ⟨⟨tr₂, σ⟩, hmerges, hcheck⟩ := Option.bind_eq_some_iff.mp hcheck
  obtain ⟨bytes, hm, hcheck⟩ := Option.bind_eq_some_iff.mp hcheck
  obtain ⟨set, hset, hcheck⟩ := Option.bind_eq_some_iff.mp hcheck
  obtain ⟨dead, hdead, hcheck⟩ := Option.bind_eq_some_iff.mp hcheck
  obtain ⟨split, hsplit, hcheck⟩ := Option.bind_eq_some_iff.mp hcheck
  obtain ⟨other, hother, hcheck⟩ := Option.map_eq_some_iff.mp hcheck
  obtain ⟨habs, hcontains, hlive, hfile⟩ := of_decide_eq_true hcheck
  obtain ⟨hbuilt, hprev, rfl⟩ := overOneDoc_some hbase
  have hcalls : BuildRun.calls ⟨tieredTight, [], []⟩ [.addKeys [abcKey]] = ([], oneDocRun) :=
    Prod.ext (by decide +kernel) rfl
  have hglobal : split.toGlobal 2 = 2 := by
    unfold Split.toGlobal
    rw [habs]
    rfl
  refine ⟨built, prev, _, σ, hcalls, hbuilt, hprev,
    run_of_replay (run_of_replay Run.start hflushes) hmerges, bytes, set, dead, split, hm, eq_ok_of_toOption hset,
    eq_ok_of_toOption hdead, hsplit, ?_, by rwa [hglobal], fun hleads => ?_⟩
  · unfold Split.StoresDoc
    rw [habs]
    exact ⟨_, _, abcKey, _, hfile, (abcCorpus _).settles_open, (abcCorpus _).postingOf_eq abcKey, by decide⟩
  · have hnot := hleads.first 1 (by decide) other hother
    rw [hglobal, hcontains] at hnot
    cases hnot

/-- Two documents are flushed and their splits compacted. -/
theorem live_routed_merged : ∃ (built : BuiltSplitSet) (prev : SplitSet) (tr : List (WriterCall × WriterOutcome))
    (σ : Session), oneDocRun.builder.finish = .ok built ∧ SplitSet.fromBytes built.manifest = .ok prev ∧
    Run RoutedStep ⟨.resume prev 3 0 "p" 0, some built.manifest, oneDocRun.files ++ built.splits⟩ tr σ ∧
    σ.published.length = 2 ∧ ∃ bytes set dead, σ.manifest = some bytes ∧ SplitSet.fromBytes bytes = .ok set ∧
      set.dead = .ok dead ∧ ∀ i split l, set.splits[i]? = some split → split.StoresDoc σ.files l →
        split.toGlobal l ∉ dead → LeadsTo set.splits i split l := by
  have hcheck : (overOneDoc.bind fun base => (base.2.call (.addKeys [abcKey])).bind fun a => (a.2.call .flush).bind fun b =>
      (b.2.call (.addKeys [abcKey])).bind fun c => (c.2.call .flush).bind fun d =>
        (d.2.call (.compact (d.2.files.take 2))).map fun e => decide (
          (base.1.1.manifest.length < u64Bound ∧ ∀ f ∈ oneDocRun.files ++ base.1.1.splits, f.2.length < u64Bound) ∧
          (a.2.InMemory ∧ b.2.InMemory ∧ c.2.InMemory ∧ d.2.InMemory ∧ e.2.InMemory) ∧
          (b.1 = .emitted "p-d00000.rrs" ∧ d.1 = .emitted "p-d00001.rrs" ∧ e.1 = .emitted "p-c00000.rrs") ∧
          (base.2.writer.nextGlobalId.val + 1 < u32Bound ∧ b.2.writer.nextGlobalId.val + 1 < u32Bound) ∧
          (a.2.writer.flushSeq.val + 1 < u32Bound ∧ c.2.writer.flushSeq.val + 1 < u32Bound ∧
            d.2.writer.compactSeq.val + 1 < u32Bound) ∧
          (a.2.writer.memtable.len < 2 ^ 32 ∧ c.2.writer.memtable.len < 2 ^ 32) ∧
          (d.2.writer.caseNormalization = true ∧ (∀ i ∈ d.2.files.take 2, fileOf d.2.files i.1 = some i.2) ∧
            (∀ i ∈ d.2.files.take 2, (readRrsEntries i.2).toOption.map List.length = some 1) ∧
            ∀ s ∈ d.2.writer.specs.drop d.2.writer.baseCount, ∃ i ∈ d.2.files.take 2, i.1 = s.dataFile) ∧
          e.2.published.length = 2)) = some true := by
    decide +kernel
  obtain ⟨⟨⟨built, prev⟩, σ₀⟩, hbase, hcheck⟩ := Option.bind_eq_some_iff.mp hcheck
  obtain ⟨⟨o₁, σ₁⟩, h₁, hcheck⟩ := Option.bind_eq_some_iff.mp hcheck
  obtain ⟨⟨o₂, σ₂⟩, h₂, hcheck⟩ := Option.bind_eq_some_iff.mp hcheck
  obtain ⟨⟨o₃, σ₃⟩, h₃, hcheck⟩ := Option.bind_eq_some_iff.mp hcheck
  obtain ⟨⟨o₄, σ₄⟩, h₄, hcheck⟩ := Option.bind_eq_some_iff.mp hcheck
  obtain ⟨⟨o₅, σ₅⟩, h₅, hcheck⟩ := Option.map_eq_some_iff.mp hcheck
  obtain ⟨⟨hlen, hsizes⟩, ⟨hm₁, hm₂, hm₃, hm₄, hm₅⟩, ⟨ho₂, ho₄, ho₅⟩, ⟨hroom, hroom'⟩, ⟨hseq, hseq', hseq''⟩, ⟨hfew, hfew'⟩,
    ⟨hcase, hfiles, hentries, hall⟩, htwo⟩ := of_decide_eq_true hcheck
  simp only at ho₂ ho₄ ho₅
  subst ho₂ ho₄ ho₅
  obtain ⟨hbuilt, hprev, hσ⟩ := overOneDoc_some hbase
  have hcalls : BuildRun.calls ⟨tieredTight, [], []⟩ [.addKeys [abcKey]] = ([], oneDocRun) :=
    Prod.ext (by decide +kernel) rfl
  have hdocs : (BuildCall.documents tieredTight [.addKeys [abcKey]]).length = 1 := rfl
  have s₂ : σ₁.Step (.flush, .emitted "p-d00000.rrs") σ₂ := ⟨h₂, hm₂⟩
  have s₄ : σ₃.Step (.flush, .emitted "p-d00001.rrs") σ₄ := ⟨h₄, hm₄⟩
  have s₅ : σ₄.Step (.compact (σ₄.files.take 2), .emitted "p-c00000.rrs") σ₅ := ⟨h₅, hm₅⟩
  have r₁ : σ₀.RoutedStep (.addKeys [abcKey], o₁) σ₁ := ⟨⟨h₁, hm₁⟩, hroom, trivial⟩
  have r₂ : σ₁.RoutedStep (.flush, .emitted "p-d00000.rrs") σ₂ := ⟨s₂, ⟨flushFits_of_emitted s₂, hseq, hfew⟩, trivial⟩
  have r₃ : σ₂.RoutedStep (.addKeys [abcKey], o₃) σ₃ := ⟨⟨h₃, hm₃⟩, hroom', trivial⟩
  have r₄ : σ₃.RoutedStep (.flush, .emitted "p-d00001.rrs") σ₄ := ⟨s₄, ⟨flushFits_of_emitted s₄, hseq', hfew'⟩, trivial⟩
  have hflushes := (((Run.single r₁).step r₂).step r₃).step r₄
  have hcompact : σ₄.Compactable (σ₄.files.take 2) := by
    refine ⟨compactFits_of_emitted s₅, hseq'', ?_, hfiles, hcase⟩
    refine @SplitSetWriter.fewKeys_of_length _ _ _ 1 (fun i hi es hes => ?_) ?_
    · have hone := hentries i hi
      rw [hes] at hone
      exact Nat.le_of_eq (Option.some.inj hone)
    · have := List.length_take_le 2 σ₄.files
      omega
  subst hσ
  obtain ⟨base, -, hroutes, hhoused⟩ := @housed_over_build _ _ (tieredConfig 100 tight_fits) 0 false _ _ _ hcalls hbuilt
    (by rw [show SplitSetBuilder.start (tieredConfig 100 tight_fits) 0 false = tieredTight from rfl, hdocs]; decide)
    (fun heq => absurd (hdocs.symm.trans heq) (by decide)) hsizes hlen prev hprev resumeArgs
    (oneDocRun.files ++ built.splits)
  obtain ⟨deltas, hhoused', hroutes'⟩ := hhoused.routes_run hroutes hflushes
  have hrun := hflushes.step ⟨s₅, hcompact, hhoused'.apart_of_all hroutes' hcompact hall⟩
  exact ⟨built, prev, _, σ₅, hbuilt, hprev, hrun, htwo, @live_routed _ _ (tieredConfig 100 tight_fits) 0 false _ _ _ hcalls
    hbuilt (by rw [show SplitSetBuilder.start (tieredConfig 100 tight_fits) 0 false = tieredTight from rfl, hdocs]; decide)
    (fun heq => absurd (hdocs.symm.trans heq) (by decide)) hsizes hlen prev hprev resumeArgs
    (oneDocRun.files ++ built.splits) _ _ hrun⟩

end

end RoaringRange
