import Mathlib.Data.List.Flatten
import RoaringRange.FacetRoundTrip
import RoaringRange.Lib.Tiles
import RoaringRange.SplitSetBuild

/-!
# The splits of a build tile its documents

A build is a sequence of calls ended by `finish`.  The ids of the documents are the places in the sequence; the
sealed splits are consecutive runs of them, and every file is emitted once, by a drain or by `finish`.

    the splits tile the documents, drained or not                                    (build_tiles)
    a call that failed has emptied the open split, and 2^32 documents count as none  (build_loses)
-/

namespace RoaringRange

open ByteString Faults Tiles

/-! ## What a split holds -/

/-- The facets of a document at a place of a list of documents. -/
theorem mem_docs_insertFacet {m : FacetMap} {doc : Fin u32Bound} {p : String × String} {field category : String}
    {d : Nat} : d ∈ (insertFacet m doc p).docs field category ↔
      d ∈ m.docs field category ∨ (d = doc.val ∧ (field, category) = p) := by
  unfold FacetMap.docs FacetMap.posting insertFacet
  rw [OrdMap.find?_update]
  by_cases hf : field = p.1
  · subst hf
    rw [if_pos rfl, Option.bind_some, OrdMap.find?_update]
    by_cases hc : category = p.2
    · subst hc
      rw [if_pos rfl, Option.getD_some, AscSet.mem_insert, or_comm]
      cases m.find? p.1 with
      | none => simp [OrdMap.find?_empty]
      | some cats => simp
    · rw [if_neg hc]
      have hp : (p.1, category) ≠ p := fun h => hc (congrArg Prod.snd h)
      cases m.find? p.1 with
      | none => simp [OrdMap.find?_empty, hp]
      | some cats => simp [hp]
  · rw [if_neg hf]
    have hp : (field, category) ≠ p := fun h => hf (congrArg Prod.fst h)
    simp [hp]

theorem mem_docs_insertFacets {doc : Fin u32Bound} {ps : List (String × String)} {field category : String} {d : Nat} :
    ∀ {m : FacetMap}, d ∈ (ps.foldl (fun fs p => insertFacet fs doc p) m).docs field category ↔
      d ∈ m.docs field category ∨ (d = doc.val ∧ (field, category) ∈ ps) := by
  induction ps with
  | nil => simp
  | cons p ps ih =>
    intro m
    rw [List.foldl_cons, ih, mem_docs_insertFacet, List.mem_cons, or_assoc, ← and_or_left]

/-- The postings that `insertKey` collects. -/
theorem fst_insertKeys (doc : Fin u32Bound) (keys : List Key) (st : PostMap × Nat) :
    (keys.foldl (SplitSetBuilder.insertKey doc) st).1 = st.1.add doc keys := by
  induction keys generalizing st with
  | nil => rfl
  | cons k keys ih =>
    rw [List.foldl_cons, ih]
    rfl

section

variable {docs : List BuildDoc}

/-- A posting of the open split lists the local ids of the documents with the key. -/
theorem mem_postsAndUpper (h : docs.length ≤ u32Bound) {k : Key} {d : Nat} :
    d ∈ (postsAndUpper docs).1.docs k ↔ ∃ doc, docs[d]? = some doc ∧ k ∈ doc.keys := by
  induction docs using List.reverseRecOn with
  | nil =>
    have hempty : d ∉ PostMap.docs ∅ k := AscSet.not_mem_empty d
    simp [postsAndUpper, hempty]
  | append_singleton docs doc ih =>
    rw [List.length_append, List.length_singleton] at h
    have hval : (wrapAdd 0 docs.length).val = docs.length := by
      show (0 + docs.length) % u32Bound = _
      rw [Nat.zero_add, Nat.mod_eq_of_lt (by omega)]
    rw [postsAndUpper_snoc, fst_insertKeys, PostMap.mem_docs_add, ih (by omega), hval]
    constructor
    · rintro (⟨doc', hd, hk⟩ | ⟨rfl, hk⟩)
      · exact ⟨doc', getElem?_snoc.mpr (Or.inl hd), hk⟩
      · exact ⟨doc, getElem?_snoc.mpr (Or.inr ⟨rfl, rfl⟩), hk⟩
    · rintro ⟨doc', hd, hk⟩
      rcases getElem?_snoc.mp hd with hd | ⟨rfl, rfl⟩
      · exact Or.inl ⟨doc', hd, hk⟩
      · exact Or.inr ⟨rfl, hk⟩

/-- A category of the open split lists the local ids of the documents that have it. -/
theorem mem_facetsOf (h : docs.length ≤ u32Bound) {field category : String} {d : Nat} :
    d ∈ (facetsOf docs).docs field category ↔ ∃ doc, docs[d]? = some doc ∧ (field, category) ∈ doc.facets := by
  induction docs using List.reverseRecOn with
  | nil =>
    have hempty : d ∉ FacetMap.docs ∅ field category := AscSet.not_mem_empty d
    simp [facetsOf, hempty]
  | append_singleton docs doc ih =>
    rw [List.length_append, List.length_singleton] at h
    have hval : (wrapAdd 0 docs.length).val = docs.length := by
      show (0 + docs.length) % u32Bound = _
      rw [Nat.zero_add, Nat.mod_eq_of_lt (by omega)]
    rw [facetsOf_snoc, mem_docs_insertFacets, ih (by omega), hval]
    constructor
    · rintro (⟨doc', hd, hk⟩ | ⟨rfl, hk⟩)
      · exact ⟨doc', getElem?_snoc.mpr (Or.inl hd), hk⟩
      · exact ⟨doc, getElem?_snoc.mpr (Or.inr ⟨rfl, rfl⟩), hk⟩
    · rintro ⟨doc', hd, hk⟩
      rcases getElem?_snoc.mp hd with hd | ⟨rfl, rfl⟩
      · exact Or.inl ⟨doc', hd, hk⟩
      · exact Or.inr ⟨rfl, hk⟩

end

/-! ## Runs -/

/-- A call of a build. -/
inductive BuildCall where
  | addFaceted (text : String) (facets : List (String × String))
  | addKeys (keys : List Key)
  | drainSealed
  deriving DecidableEq

/-- The document a call adds. -/
def BuildCall.doc? [Unicode] (b : SplitSetBuilder) : BuildCall → Option BuildDoc
  | .addFaceted text facets => some ⟨ngramKeysWith text b.gramSize b.caseNormalization, facets⟩
  | .addKeys keys => some ⟨keys, []⟩
  | .drainSealed => none

/-- The documents of a sequence of calls. -/
def BuildCall.documents [Unicode] (b : SplitSetBuilder) (calls : List BuildCall) : List BuildDoc :=
  calls.filterMap (BuildCall.doc? b)

/-- A builder with the files its caller has drained. -/
structure BuildRun where
  builder : SplitSetBuilder
  files : NamedFiles
  facetFiles : NamedFiles

namespace BuildRun

section

variable [Roaring] [Unicode]

/-- A call to `add_inner`: its error, if any, and what it leaves. -/
def add (r : BuildRun) (keys : List Key) (facets : List (String × String)) : Option String × BuildRun :=
  match r.builder.addInner keys facets with
  | .ok (_, b) => (none, { r with builder := b })
  | .error e => (some e, { r with builder := r.builder.sealFailed })

def call (r : BuildRun) : BuildCall → Option String × BuildRun
  | .addFaceted text facets => r.add (ngramKeysWith text r.builder.gramSize r.builder.caseNormalization) facets
  | .addKeys keys => r.add keys []
  | .drainSealed =>
    let drained := r.builder.drainSealed
    (none, ⟨drained.2, r.files ++ drained.1.1, r.facetFiles ++ drained.1.2⟩)

/-- The calls in order, with the errors they returned. -/
def calls (r : BuildRun) : List BuildCall → List String × BuildRun
  | [] => ([], r)
  | c :: cs =>
    let rest := (r.call c).2.calls cs
    ((r.call c).1.toList ++ rest.1, rest.2)

end

/-- The run that has sealed `splits` and drained the first `taken` of them, with `docs` in the open split. -/
def holding (b : SplitSetBuilder) (splits : List SealedSplit) (docs : List BuildDoc) (taken : Nat) : BuildRun where
  builder := b.holding splits docs taken
  files := (splits.take taken).map SealedSplit.file
  facetFiles := (splits.take taken).flatMap SealedSplit.sidecar

section

variable [Roaring] [Unicode] {b : SplitSetBuilder} {splits : List SealedSplit} {docs : List BuildDoc} {taken : Nat}

/-- What a document does to the cut. -/
theorem cutStep_ok {doc : BuildDoc} {st : List SealedSplit × List BuildDoc} (h : b.cutStep (splits, docs) doc = .ok st) :
    st = (splits, docs ++ [doc]) ∨ ∃ s, docs.length % u32Bound ≠ 0 ∧
      b.cut splits.length (splits.flatMap SealedSplit.docs).length docs = .ok s ∧ st = (splits ++ [s], [doc]) := by
  unfold SplitSetBuilder.cutStep at h
  by_cases hfull : (b.holding splits docs 0).full doc.keys = true
  · rw [if_pos hfull] at h
    cases hcut : b.cut splits.length (splits.flatMap SealedSplit.docs).length docs with
    | error e =>
      simp only [hcut, bind, Except.bind] at h
      cases h
    | ok s =>
      simp only [hcut, bind, Except.bind] at h
      exact Or.inr ⟨s, SplitSetBuilder.docs_of_full hfull, rfl, (Except.ok.inj h).symm⟩
  · rw [if_neg hfull] at h
    exact Or.inl (Except.ok.inj h).symm

/-- No split that was drained is lost by a document more. -/
theorem take_cutStep (ht : taken ≤ splits.length) {doc : BuildDoc} {st : List SealedSplit × List BuildDoc}
    (h : b.cutStep (splits, docs) doc = .ok st) : taken ≤ st.1.length ∧ st.1.take taken = splits.take taken := by
  rcases cutStep_ok h with rfl | ⟨s, -, -, rfl⟩
  · exact ⟨ht, rfl⟩
  · refine ⟨?_, List.take_append_of_le_length ht⟩
    rw [List.length_append]
    omega

theorem add_holding (ht : taken ≤ splits.length) {doc : BuildDoc} {st : List SealedSplit × List BuildDoc}
    (h : b.cutStep (splits, docs) doc = .ok st) :
    (holding b splits docs taken).add doc.keys doc.facets = (none, holding b st.1 st.2 taken) := by
  have hadd : (holding b splits docs taken).builder.addInner doc.keys doc.facets =
      .ok (wrapAdd 0 (splits.flatMap SealedSplit.docs ++ docs).length, b.holding st.1 st.2 taken) := by
    show (b.holding splits docs taken).addInner doc.keys doc.facets = _
    rw [SplitSetBuilder.addInner_holding ht, h]
    rfl
  unfold add
  rw [hadd]
  unfold holding
  rw [(take_cutStep ht h).2]

/-- A call that returned `Ok` made its step of the cut. -/
theorem cutStep_of_add (ht : taken ≤ splits.length) {doc : BuildDoc}
    (h : ((holding b splits docs taken).add doc.keys doc.facets).1 = none) :
    ∃ st, b.cutStep (splits, docs) doc = .ok st := by
  cases hstep : b.cutStep (splits, docs) doc with
  | ok st => exact ⟨st, rfl⟩
  | error e =>
    have hadd : (holding b splits docs taken).builder.addInner doc.keys doc.facets = .error e := by
      show (b.holding splits docs taken).addInner doc.keys doc.facets = _
      rw [SplitSetBuilder.addInner_holding ht, hstep]
      rfl
    unfold add at h
    rw [hadd] at h
    cases h

theorem call_drainSealed (b : SplitSetBuilder) (splits : List SealedSplit) (docs : List BuildDoc) (taken : Nat) :
    (holding b splits docs taken).call .drainSealed = (none, holding b splits docs splits.length) := by
  have hfiles : (splits.take taken).map SealedSplit.file ++ (splits.drop taken).map SealedSplit.file =
      (splits.take splits.length).map SealedSplit.file := by
    rw [← List.map_append, List.take_append_drop, List.take_length]
  have hsides : (splits.take taken).flatMap SealedSplit.sidecar ++ (splits.drop taken).flatMap SealedSplit.sidecar =
      (splits.take splits.length).flatMap SealedSplit.sidecar := by
    rw [← List.flatMap_append, List.take_append_drop, List.take_length]
  unfold call
  simp only [holding, SplitSetBuilder.drainSealed, SplitSetBuilder.holding, hfiles, hsides, List.drop_length,
    List.map_nil, List.flatMap_nil]

/-- A call either adds its document or drains. -/
theorem call_cases (b : SplitSetBuilder) (c : BuildCall) : (c.doc? b = none ∧ c = .drainSealed) ∨
    ∃ doc, c.doc? b = some doc ∧ ∀ splits docs taken,
      (holding b splits docs taken).call c = (holding b splits docs taken).add doc.keys doc.facets := by
  cases c with
  | addFaceted text facets => exact Or.inr ⟨_, rfl, fun _ _ _ => rfl⟩
  | addKeys keys => exact Or.inr ⟨_, rfl, fun _ _ _ => rfl⟩
  | drainSealed => exact Or.inl ⟨rfl, rfl⟩

omit [Roaring] in
theorem documents_cons_some {c : BuildCall} {cs : List BuildCall} {doc : BuildDoc} (h : c.doc? b = some doc) :
    BuildCall.documents b (c :: cs) = doc :: BuildCall.documents b cs := List.filterMap_cons_some h

omit [Roaring] in
theorem documents_cons_none {c : BuildCall} {cs : List BuildCall} (h : c.doc? b = none) :
    BuildCall.documents b (c :: cs) = BuildCall.documents b cs := List.filterMap_cons_none h

/-- **Calls that all succeed cut their documents.** -/
theorem cut_of_calls {cs : List BuildCall} (ht : taken ≤ splits.length)
    (h : ((holding b splits docs taken).calls cs).1 = []) : ∃ splits' docs' taken', taken' ≤ splits'.length ∧
      (BuildCall.documents b cs).foldlM b.cutStep (splits, docs) = .ok (splits', docs') ∧
      ((holding b splits docs taken).calls cs).2 = holding b splits' docs' taken' := by
  induction cs generalizing splits docs taken with
  | nil => exact ⟨splits, docs, taken, ht, rfl, rfl⟩
  | cons c cs ih =>
    simp only [calls, List.append_eq_nil_iff] at h ⊢
    rcases call_cases b c with ⟨hnone, rfl⟩ | ⟨doc, hsome, hcall⟩
    · rw [call_drainSealed] at h ⊢
      rw [documents_cons_none hnone]
      exact ih (Nat.le_refl _) h.2
    · rw [hcall] at h ⊢
      obtain ⟨st, hst⟩ := cutStep_of_add ht (Option.toList_eq_nil_iff.mp h.1)
      rw [add_holding ht hst] at h ⊢
      obtain ⟨splits', docs', taken', ht', hcut, hrun⟩ := ih (take_cutStep ht hst).1 h.2
      refine ⟨splits', docs', taken', ht', ?_, hrun⟩
      rw [documents_cons_some hsome, List.foldlM_cons, hst]
      exact hcut

/-- Calls that only add succeed where their documents can be cut. -/
theorem calls_of_cut {cs : List BuildCall} (hadds : BuildCall.drainSealed ∉ cs) (ht : taken ≤ splits.length)
    {st : List SealedSplit × List BuildDoc}
    (h : (BuildCall.documents b cs).foldlM b.cutStep (splits, docs) = .ok st) :
    (holding b splits docs taken).calls cs = ([], holding b st.1 st.2 taken) := by
  induction cs generalizing splits docs with
  | nil =>
    obtain rfl := Except.ok.inj h
    rfl
  | cons c cs ih =>
    rw [List.mem_cons, not_or] at hadds
    rcases call_cases b c with ⟨_, rfl⟩ | ⟨doc, hsome, hcall⟩
    · exact absurd rfl hadds.1
    · rw [documents_cons_some hsome, List.foldlM_cons] at h
      cases hst : b.cutStep (splits, docs) doc with
      | error e =>
        rw [hst] at h
        cases h
      | ok st' =>
        rw [hst] at h
        simp only [calls]
        rw [hcall, add_holding ht hst, ih hadds.2 (take_cutStep ht hst).1 h]
        rfl

/-- **What holds of a cut**: the splits are consecutive runs of the documents, each cut with its index and its start. -/
theorem each_cut {more : List BuildDoc} {st : List SealedSplit × List BuildDoc}
    (h : more.foldlM b.cutStep (splits, docs) = .ok st)
    (hsplits : Each SealedSplit.docs (fun i lo s => s.docs.length % u32Bound ≠ 0 ∧ b.cut i lo s.docs = .ok s) splits) :
    st.1.flatMap SealedSplit.docs ++ st.2 = splits.flatMap SealedSplit.docs ++ docs ++ more ∧
      Each SealedSplit.docs (fun i lo s => s.docs.length % u32Bound ≠ 0 ∧ b.cut i lo s.docs = .ok s) st.1 := by
  induction more generalizing splits docs with
  | nil =>
    obtain rfl := Except.ok.inj h
    exact ⟨(List.append_nil _).symm, hsplits⟩
  | cons doc more ih =>
    rw [List.foldlM_cons] at h
    cases hst : b.cutStep (splits, docs) doc with
    | error e =>
      rw [hst] at h
      cases h
    | ok st' =>
      rw [hst] at h
      rcases cutStep_ok hst with rfl | ⟨s, hne, hcut, rfl⟩
      · obtain ⟨hdocs, heach⟩ := ih h hsplits
        refine ⟨?_, heach⟩
        rw [hdocs]
        simp
      · have hs := SplitSetBuilder.docs_of_cut hcut
        obtain ⟨hdocs, heach⟩ := ih h (each_snoc.mpr ⟨hsplits, by rw [hs]; exact ⟨hne, hcut⟩⟩)
        refine ⟨?_, heach⟩
        rw [hdocs, List.flatMap_append, List.flatMap_singleton, hs]
        simp

/-- The end of the documents keeps what holds of the cut, and leaves at most 2^32 documents or none. -/
theorem each_cutEnd {st : List SealedSplit × List BuildDoc} (h : b.cutEnd (splits, docs) = .ok st)
    (hsplits : Each SealedSplit.docs (fun i lo s => s.docs.length % u32Bound ≠ 0 ∧ b.cut i lo s.docs = .ok s) splits) :
    st.1.flatMap SealedSplit.docs ++ st.2 = splits.flatMap SealedSplit.docs ++ docs ∧
      Each SealedSplit.docs (fun i lo s => s.docs.length % u32Bound ≠ 0 ∧ b.cut i lo s.docs = .ok s) st.1 ∧
      st.2.length % u32Bound = 0 ∧ splits.length ≤ st.1.length ∧ st.1.take splits.length = splits := by
  unfold SplitSetBuilder.cutEnd at h
  by_cases hz : docs.length % u32Bound = 0
  · rw [if_pos hz] at h
    obtain rfl := Except.ok.inj h
    exact ⟨rfl, hsplits, hz, Nat.le_refl _, List.take_length⟩
  · rw [if_neg hz] at h
    cases hcut : b.cut splits.length (splits.flatMap SealedSplit.docs).length docs with
    | error e =>
      simp only [hcut, bind, Except.bind] at h
      cases h
    | ok s =>
      simp only [hcut, bind, Except.bind] at h
      obtain rfl := Except.ok.inj h
      have hs := SplitSetBuilder.docs_of_cut hcut
      refine ⟨?_, each_snoc.mpr ⟨hsplits, by rw [hs]; exact ⟨hz, hcut⟩⟩, rfl, ?_, List.take_left⟩
      · rw [List.flatMap_append, List.flatMap_singleton, hs, List.append_nil]
      · rw [List.length_append]
        omega

end

end BuildRun

/-! ## The tiles -/

/-- The name of a sidecar is its split's with another ending. -/
theorem facetFileName_rrs (stem : String) : facetFileName (stem ++ ".rrs") = stem ++ ".rrf" := by
  unfold facetFileName
  rw [stripSuffix_append]
  rfl

theorem splitStem_injective {namePrefix : String} {i j : Nat} (h : splitStem namePrefix i = splitStem namePrefix j) :
    i = j := by
  unfold splitStem paddedIdx at h
  have hlist := congrArg String.toList h
  simp only [String.toList_append, String.toList_ofList, List.append_cancel_left_eq] at hlist
  exact Decimal.padded_injective hlist

theorem isEmpty_insertFacet (m : FacetMap) (doc : Fin u32Bound) (p : String × String) :
    (insertFacet m doc p).isEmpty = false := by
  have hfind : (insertFacet m doc p).find? p.1 ≠ none := by
    unfold insertFacet
    rw [OrdMap.find?_update, if_pos rfl]
    exact Option.some_ne_none _
  by_contra hempty
  rw [Bool.not_eq_false, OrdMap.isEmpty, List.isEmpty_iff] at hempty
  exact hfind (by rw [OrdMap.find?, hempty]; rfl)

theorem isEmpty_insertFacets (doc : Fin u32Bound) (ps : List (String × String)) (m : FacetMap) :
    (ps.foldl (fun fs p => insertFacet fs doc p) m).isEmpty = (m.isEmpty && ps.isEmpty) := by
  induction ps generalizing m with
  | nil => rw [List.foldl_nil, List.isEmpty_nil, Bool.and_true]
  | cons p ps ih => rw [List.foldl_cons, ih, isEmpty_insertFacet, Bool.false_and, List.isEmpty_cons, Bool.and_false]

/-- A split has facets where a document of it does. -/
theorem isEmpty_facetsOf (docs : List BuildDoc) : (facetsOf docs).isEmpty = docs.all fun d => d.facets.isEmpty := by
  induction docs using List.reverseRecOn with
  | nil => rfl
  | append_singleton docs doc ih =>
    rw [facetsOf_snoc, isEmpty_insertFacets, ih, List.all_append, List.all_cons, List.all_nil, Bool.and_true]

section

variable [Roaring] [Unicode]

theorem sealFacetSidecar_ok {m : FacetMap} {cfg : FacetSealCfg} {more : Bytes} {sidecar : NamedFiles}
    (h : sealFacetSidecar m cfg = .ok (more, sidecar)) : (m.isEmpty = true ∧ more = [] ∧ sidecar = []) ∨
      (m.isEmpty = false ∧ ∃ bytes digest, writeFacetsWith (facetFields m cfg.headBoundary) cfg.caseNormalization = .ok bytes ∧
        facetDigestRecord cfg bytes = .ok digest ∧
        more = tlvRecord summaryTagFacet (facetPresence m cfg.caseNormalization) ++ digest ∧
        sidecar = [(splitStem cfg.namePrefix cfg.idx ++ ".rrf", bytes)]) := by
  unfold sealFacetSidecar at h
  by_cases hm : m.isEmpty = true
  · rw [if_pos hm] at h
    have := Except.ok.inj h
    exact Or.inl ⟨hm, (congrArg Prod.fst this).symm, (congrArg Prod.snd this).symm⟩
  · rw [if_neg hm] at h
    refine Or.inr ⟨by simpa using hm, ?_⟩
    cases hw : writeFacetsWith (facetFields m cfg.headBoundary) cfg.caseNormalization with
    | error e =>
      simp only [hw, bind, Except.bind] at h
      cases h
    | ok bytes =>
      cases hd : facetDigestRecord cfg bytes with
      | error e =>
        simp only [hw, hd, bind, Except.bind] at h
        cases h
      | ok digest =>
        simp only [hw, hd, bind, Except.bind] at h
        have := Except.ok.inj h
        exact ⟨bytes, digest, rfl, hd, (congrArg Prod.fst this).symm, (congrArg Prod.snd this).symm⟩

/-- The split at index `i` whose first document has the id `lo`. -/
structure SealedAt (b : SplitSetBuilder) (i lo : Nat) (s : SealedSplit) : Prop where
  docCount : s.spec.docCount = s.docs.length ∧ 0 < s.docs.length
  docIdLo : s.spec.docIdLo = lo
  docIdHi : s.spec.docIdHi + 1 = lo + s.docs.length
  dataFile : s.spec.dataFile = splitStem b.namePrefix i ++ ".rrs"
  byteSize : s.spec.byteSize = s.bytes.length
  keys : ∃ posts : PostMap, (∀ k d, d ∈ posts.docs k ↔ ∃ doc, s.docs[d]? = some doc ∧ k ∈ doc.keys) ∧
    writeIndexWith b.gramSize b.stride (serializeEntries posts.toList) b.caseNormalization = .ok s.bytes
  facets : ∃ m : FacetMap, (∀ field category d, d ∈ m.docs field category ↔
      ∃ doc, s.docs[d]? = some doc ∧ (field, category) ∈ doc.facets) ∧
    (((∀ doc ∈ s.docs, doc.facets = []) ∧ s.sidecar = []) ∨ ((∃ doc ∈ s.docs, doc.facets ≠ []) ∧
      ∃ bytes, writeFacetsWith (facetFields m b.headBoundary) b.caseNormalization = .ok bytes ∧
        s.sidecar = [(facetFileName s.spec.dataFile, bytes)]))

variable {b : SplitSetBuilder} {i lo : Nat} {s : SealedSplit}

theorem sealedAt_of_cut (hpos : s.docs.length % u32Bound ≠ 0) (hcut : b.cut i lo s.docs = .ok s)
    (hle : lo + s.docs.length ≤ u32Bound) : SealedAt b i lo s := by
  have hlt : s.docs.length < u32Bound := by
    rcases Nat.lt_or_eq_of_le (show s.docs.length ≤ u32Bound by omega) with h | h
    · exact h
    · rw [h, Nat.mod_self] at hpos
      exact absurd rfl hpos
  rw [Nat.mod_eq_of_lt hlt] at hpos
  obtain ⟨bytes, more, sidecar, hbytes, hside, hs⟩ := SplitSetBuilder.cut_ok hcut
  rw [Nat.mod_eq_of_lt hlt, Nat.mod_eq_of_lt (show lo < u32Bound by omega),
    Nat.mod_eq_of_lt (show lo + (s.docs.length - 1) < u32Bound by omega)] at hs
  have hname : s.spec.dataFile = splitStem b.namePrefix i ++ ".rrs" := by rw [hs]
  have hsidecar : s.sidecar = sidecar := by rw [hs]
  refine ⟨⟨by rw [hs], by omega⟩, by rw [hs], ?_, hname, by rw [hs], ?_, ?_⟩
  · rw [hs]
    show lo + (s.docs.length - 1) + 1 = lo + s.docs.length
    omega
  · refine ⟨(postsAndUpper s.docs).1, fun k d => mem_postsAndUpper hlt.le, ?_⟩
    rw [hbytes, hs]
  · refine ⟨facetsOf s.docs, fun field category d => mem_facetsOf hlt.le, ?_⟩
    rcases sealFacetSidecar_ok hside with ⟨hempty, -, hnil⟩ | ⟨hsome, bytes', digest, hw, -, -, hone⟩
    · left
      rw [isEmpty_facetsOf, List.all_eq_true] at hempty
      exact ⟨fun doc hd => List.isEmpty_iff.mp (hempty doc hd), by rw [hsidecar, hnil]⟩
    · right
      refine ⟨?_, bytes', hw, ?_⟩
      · rw [isEmpty_facetsOf, List.all_eq_false] at hsome
        obtain ⟨doc, hd, hne⟩ := hsome
        exact ⟨doc, hd, fun h => hne (List.isEmpty_iff.mpr h)⟩
      · rw [hsidecar, hone, hname, facetFileName_rrs]

/-- A new builder, with the facet digest asked for (none where `top` is 0). -/
def SplitSetBuilder.start (config : SplitBuildConfig) (top : Nat) (v2 : Bool) : SplitSetBuilder :=
  if v2 then (SplitSetBuilder.new config).withFacetDigestV2 top else (SplitSetBuilder.new config).withFacetDigest top

omit [Roaring] [Unicode] in
theorem start_holding (config : SplitBuildConfig) (top : Nat) (v2 : Bool) :
    (⟨SplitSetBuilder.start config top v2, [], []⟩ : BuildRun) =
      BuildRun.holding (SplitSetBuilder.start config top v2) [] [] 0 := by
  cases v2 with
  | false => rfl
  | true => rfl

/-- What a build of `docs` has emitted, all files together. -/
structure Emitted (b : SplitSetBuilder) (docs : List BuildDoc) (all : BuiltSplitSet) (splits : List SealedSplit) :
    Prop where
  documents : splits.flatMap SealedSplit.docs = docs
  manifest : ∃ config, writeSplitset (splits.map SealedSplit.spec) config = .ok all.manifest
  tiles : Each SealedSplit.docs (SealedAt b) splits
  files : all.splits = splits.map SealedSplit.file
  sidecars : all.facets = splits.flatMap SealedSplit.sidecar
  names : (all.splits.map Prod.fst).Nodup
  facetNames : (all.facets.map Prod.fst).Nodup

omit [Roaring] [Unicode] in
/-- Splits named by their index have different names. -/
theorem nodup_stems {names : List String} {namePrefix suffix : String}
    (h : ∀ (i : Nat) (n : String), names[i]? = some n → n = splitStem namePrefix i ++ suffix) : names.Nodup := by
  rw [List.Nodup, List.pairwise_iff_getElem]
  intro i j hi hj hij heq
  have h1 := h i _ (List.getElem?_eq_getElem hi)
  have h2 := h j _ (List.getElem?_eq_getElem hj)
  rw [heq, h2] at h1
  have hlist := congrArg String.toList h1
  simp only [String.toList_append, List.append_cancel_right_eq] at hlist
  have := splitStem_injective (String.toList_injective hlist)
  omega

/-- The manifest names every file of the splits once. -/
theorem nodup_names {splits : List SealedSplit} (h : Each SealedSplit.docs (SealedAt b) splits) :
    ((splits.map SealedSplit.file).map Prod.fst).Nodup ∧ ((splits.flatMap SealedSplit.sidecar).map Prod.fst).Nodup := by
  have hstems : ∀ (i : Nat) (s : SealedSplit), splits[i]? = some s →
      s.spec.dataFile = splitStem b.namePrefix i ++ ".rrs" := fun i s hs => (h i s hs).dataFile
  constructor
  · apply @nodup_stems _ b.namePrefix ".rrs"
    intro i n hn
    rw [List.map_map, List.getElem?_map, Option.map_eq_some_iff] at hn
    obtain ⟨s, hs, rfl⟩ := hn
    exact hstems i s hs
  · have hsub : ((splits.flatMap SealedSplit.sidecar).map Prod.fst).Sublist
        (splits.map fun s => facetFileName s.spec.dataFile) := by
      rw [List.map_flatMap, List.map_eq_flatMap]
      apply List.Sublist.flatMap_right
      intro s hs
      obtain ⟨i, hi⟩ := List.mem_iff_getElem?.mp hs
      obtain ⟨-, -, ⟨-, hnil⟩ | ⟨-, bytes, -, hone⟩⟩ := (h i s hi).facets
      · rw [hnil]
        exact List.nil_sublist _
      · rw [hone]
        exact List.Sublist.refl _
    apply hsub.nodup
    apply @nodup_stems _ b.namePrefix ".rrf"
    intro i n hn
    rw [List.getElem?_map, Option.map_eq_some_iff] at hn
    obtain ⟨s, hs, rfl⟩ := hn
    rw [hstems i s hs, facetFileName_rrs]

/-- The splits of a build with at most 2^32 documents, every id of which is counted. -/
theorem emitted_of_cut {docs : List BuildDoc} {st : List SealedSplit × List BuildDoc} {manifest : Bytes}
    (hdocs : st.1.flatMap SealedSplit.docs ++ st.2 = docs) (hn : docs.length ≤ u32Bound) (hend : st.2.length % u32Bound = 0)
    (hne : docs.length = u32Bound → st.1 ≠ [])
    (heach : Each SealedSplit.docs (fun i lo s => s.docs.length % u32Bound ≠ 0 ∧ b.cut i lo s.docs = .ok s) st.1)
    (hm : (b.holding st.1 st.2 0).manifest = .ok manifest) :
    Emitted b docs ⟨manifest, st.1.map SealedSplit.file, st.1.flatMap SealedSplit.sidecar⟩ st.1 := by
  have hlen : (st.1.flatMap SealedSplit.docs).length + st.2.length = docs.length := by
    rw [← hdocs, List.length_append]
  have hopen : st.2 = [] := by
    rw [← List.length_eq_zero_iff]
    by_contra hpos
    have hfull : st.2.length = u32Bound := by
      have := Nat.le_of_dvd (by omega) (Nat.dvd_of_mod_eq_zero hend)
      omega
    have hsome : st.1 ≠ [] := hne (by omega)
    obtain ⟨s, hs⟩ := List.exists_mem_of_ne_nil _ hsome
    obtain ⟨i, hi⟩ := List.mem_iff_getElem?.mp hs
    have h1 := (heach i s hi).1
    have h2 := @startOf_add_le _ _ SealedSplit.docs _ _ _ hi
    have h3 : s.docs.length = 0 := by omega
    rw [h3] at h1
    exact h1 rfl
  rw [hopen, List.append_nil] at hdocs
  have htiles : Each SealedSplit.docs (SealedAt b) st.1 := by
    intro i s hi
    have hle := @startOf_add_le _ _ SealedSplit.docs _ _ _ hi
    exact sealedAt_of_cut (heach i s hi).1 (heach i s hi).2 (by rw [hdocs] at hle; omega)
  obtain ⟨h1, h2⟩ := nodup_names htiles
  refine ⟨hdocs, ⟨(b.holding st.1 st.2 0).manifestConfig, ?_⟩, htiles, rfl, rfl, h1, h2⟩
  unfold SplitSetBuilder.manifest at hm
  cases hover : (b.holding st.1 st.2 0).oversized with
  | some x =>
    rw [hover] at hm
    cases hm
  | none =>
    rw [hover] at hm
    exact hm

/-- What `finish` emits ends the cut. -/
theorem finish_ok {splits : List SealedSplit} {docs : List BuildDoc} {taken : Nat} {built : BuiltSplitSet}
    (ht : taken ≤ splits.length) (h : (b.holding splits docs taken).finish = .ok built) : ∃ st,
    b.cutEnd (splits, docs) = .ok st ∧ (b.holding st.1 st.2 0).manifest = .ok built.manifest ∧
    built.splits = (st.1.drop taken).map SealedSplit.file ∧
    built.facets = (st.1.drop taken).flatMap SealedSplit.sidecar := by
  rw [SplitSetBuilder.finish_holding ht] at h
  cases hend : b.cutEnd (splits, docs) with
  | error e =>
    rw [hend] at h
    cases h
  | ok st =>
    rw [hend] at h
    cases hm : (b.holding st.1 st.2 0).manifest with
    | error e =>
      simp only [Except.bind, hm] at h
      cases h
    | ok manifest =>
      simp only [Except.bind, hm] at h
      obtain rfl := Except.ok.inj h
      exact ⟨st, rfl, hm, rfl, rfl⟩

omit [Roaring] in
/-- Drains add no document. -/
theorem documents_filter (calls : List BuildCall) :
    BuildCall.documents b (calls.filter (· ≠ .drainSealed)) = BuildCall.documents b calls := by
  induction calls with
  | nil => rfl
  | cons c cs ih =>
    cases c with
    | addFaceted text facets => exact congrArg (BuildDoc.mk _ facets :: ·) ih
    | addKeys keys => exact congrArg (BuildDoc.mk keys [] :: ·) ih
    | drainSealed => exact ih

/-- What a finished run has cut its documents into, and what is left of them. -/
structure CutInto (b : SplitSetBuilder) (docs : List BuildDoc) (all : BuiltSplitSet)
    (st : List SealedSplit × List BuildDoc) : Prop where
  documents : st.1.flatMap SealedSplit.docs ++ st.2 = docs
  each : Each SealedSplit.docs (fun i lo s => s.docs.length % u32Bound ≠ 0 ∧ b.cut i lo s.docs = .ok s) st.1
  rest : st.2.length % u32Bound = 0
  manifest : (b.holding st.1 st.2 0).manifest = .ok all.manifest
  files : all.splits = st.1.map SealedSplit.file
  sidecars : all.facets = st.1.flatMap SealedSplit.sidecar

/-- At most 2^32 documents, every id of which is counted. -/
theorem CutInto.emitted {docs : List BuildDoc} {all : BuiltSplitSet} {st : List SealedSplit × List BuildDoc}
    (h : CutInto b docs all st) (hn : docs.length ≤ u32Bound) (hne : docs.length = u32Bound → all.splits ≠ []) :
    Emitted b docs all st.1 := by
  have hall : all = ⟨all.manifest, st.1.map SealedSplit.file, st.1.flatMap SealedSplit.sidecar⟩ := by
    rw [← h.files, ← h.sidecars]
  rw [hall]
  refine emitted_of_cut h.documents hn h.rest (fun heq hnil => hne heq ?_) h.each h.manifest
  rw [h.files, hnil, List.map_nil]

/-- A run that ends without an error has cut its documents, drained or not. -/
theorem exists_cutInto {config : SplitBuildConfig} {top : Nat} {v2 : Bool} {calls : List BuildCall} {r : BuildRun}
    {built : BuiltSplitSet} (hcalls : BuildRun.calls ⟨SplitSetBuilder.start config top v2, [], []⟩ calls = ([], r))
    (hfin : r.builder.finish = .ok built) :
    let b := SplitSetBuilder.start config top v2
    let docs := BuildCall.documents b calls
    ∃ cut st, docs.foldlM b.cutStep ([], []) = .ok cut ∧ b.cutEnd cut = .ok st ∧
      CutInto b docs ⟨built.manifest, r.files ++ built.splits, r.facetFiles ++ built.facets⟩ st := by
  intro b docs
  have hrun : (BuildRun.calls ⟨b, [], []⟩ calls).1 = [] := by rw [hcalls]
  rw [start_holding] at hrun
  obtain ⟨splits, rest, taken, ht, hcut, hr⟩ := BuildRun.cut_of_calls (Nat.zero_le _) hrun
  rw [← start_holding, hcalls] at hr
  obtain rfl : r = _ := hr
  obtain ⟨st, hend, hm, hsplits, hfacets⟩ := finish_ok ht hfin
  obtain ⟨hdocs, heach⟩ := BuildRun.each_cut hcut (each_nil _)
  obtain ⟨hdocs', heach', hmod, -, htake⟩ := BuildRun.each_cutEnd hend heach
  rw [hdocs, List.flatMap_nil, List.nil_append, List.nil_append] at hdocs'
  -- the drained files are those of the first splits
  have htaken : splits.take taken = st.1.take taken := by
    rw [← htake, List.take_take, Nat.min_eq_left ht]
  refine ⟨(splits, rest), st, hcut, hend, hdocs', heach', hmod, hm, ?_, ?_⟩
  · show (splits.take taken).map SealedSplit.file ++ built.splits = _
    rw [hsplits, htaken, ← List.map_append, List.take_append_drop]
  · show (splits.take taken).flatMap SealedSplit.sidecar ++ built.facets = _
    rw [hfacets, htaken, ← List.flatMap_append, List.take_append_drop]

/-- **The splits tile the documents**: each document is in the one split whose range has its id, at its local id,
and the files drained on the way with those of `finish` are those of a build that never drains. -/
theorem build_tiles {config : SplitBuildConfig} {top : Nat} {v2 : Bool} {calls : List BuildCall} {r : BuildRun}
    {built : BuiltSplitSet} (hcalls : BuildRun.calls ⟨SplitSetBuilder.start config top v2, [], []⟩ calls = ([], r))
    (hfin : r.builder.finish = .ok built)
    (hn : (BuildCall.documents (SplitSetBuilder.start config top v2) calls).length ≤ 2 ^ 32)
    (hne : (BuildCall.documents (SplitSetBuilder.start config top v2) calls).length = 2 ^ 32 →
      r.files ++ built.splits ≠ []) :
    let b := SplitSetBuilder.start config top v2
    let docs := BuildCall.documents b calls
    let all : BuiltSplitSet := ⟨built.manifest, r.files ++ built.splits, r.facetFiles ++ built.facets⟩
    (∃ r', BuildRun.calls ⟨b, [], []⟩ (calls.filter (· ≠ .drainSealed)) = ([], r') ∧ r'.builder.finish = .ok all) ∧
    ∃ splits, Emitted b docs all splits ∧ ∀ (id : Nat) (doc : BuildDoc), docs[id]? = some doc →
      ∃ (i : Nat) (s : SealedSplit), splits[i]? = some s ∧ s.spec.docIdLo ≤ id ∧ id ≤ s.spec.docIdHi ∧
        s.docs[id - s.spec.docIdLo]? = some doc ∧
        ∀ (j : Nat) (t : SealedSplit), splits[j]? = some t → t.spec.docIdLo ≤ id → id ≤ t.spec.docIdHi → j = i := by
  intro b docs all
  obtain ⟨cut, st, hcut, hend, hinto⟩ := exists_cutInto hcalls hfin
  have hfiles : r.files ++ built.splits = st.1.map SealedSplit.file := hinto.files
  have hsides : r.facetFiles ++ built.facets = st.1.flatMap SealedSplit.sidecar := hinto.sidecars
  have hall : all = ⟨built.manifest, st.1.map SealedSplit.file, st.1.flatMap SealedSplit.sidecar⟩ := by
    show BuiltSplitSet.mk _ _ _ = _
    rw [hfiles, hsides]
  have hemitted : Emitted b docs all st.1 := hinto.emitted hn hne
  refine ⟨⟨BuildRun.holding b cut.1 cut.2 0, ?_, ?_⟩, st.1, hemitted, fun id doc hid => ?_⟩
  · rw [start_holding]
    refine @BuildRun.calls_of_cut _ _ b [] [] 0 _ ?_ (Nat.zero_le _) cut ?_
    · intro hmem
      exact absurd rfl (of_decide_eq_true (List.mem_filter.mp hmem).2)
    · rw [documents_filter]
      exact hcut
  · show (b.holding cut.1 cut.2 0).finish = _
    rw [SplitSetBuilder.finish_holding (Nat.zero_le _), hend, hall]
    show (b.holding st.1 st.2 0).manifest.map _ = _
    rw [show (b.holding st.1 st.2 0).manifest = .ok built.manifest from hinto.manifest]
    rfl
  · rw [← hemitted.documents] at hid
    obtain ⟨i, s, hs, hle, hdoc⟩ := exists_part hid
    have hat := hemitted.tiles i s hs
    have hlt : id - startOf SealedSplit.docs st.1 i < s.docs.length := (List.getElem?_eq_some_iff.mp hdoc).1
    have hlo := hat.docIdLo
    have hhi := hat.docIdHi
    refine ⟨i, s, hs, by omega, by omega, by rwa [hlo], fun j t ht' h1 h2 => ?_⟩
    have hat' := hemitted.tiles j t ht'
    have hlo' := hat'.docIdLo
    have hhi' := hat'.docIdHi
    have hpos := hat'.docCount.2
    exact part_unique ht' hs ⟨by omega, by omega⟩ ⟨hle, by omega⟩

end

/-! ## What a run can lose -/

section

variable [Roaring] [Unicode]

/-- A category's name that is too long fails the seal of its split. -/
theorem sealFacetSidecar_long {field category : String} {cfg : FacetSealCfg} (h : 2 ^ 16 ≤ (utf8 category).length)
    (doc : Fin u32Bound) : ∃ e, sealFacetSidecar (insertFacet ∅ doc (field, category)) cfg = .error e := by
  cases hseal : sealFacetSidecar (insertFacet ∅ doc (field, category)) cfg with
  | error e => exact ⟨e, rfl⟩
  | ok r =>
    exfalso
    rcases sealFacetSidecar_ok hseal with ⟨hempty, -, -⟩ | ⟨-, bytes, -, hw, -, -, -⟩
    · rw [isEmpty_insertFacet] at hempty
      cases hempty
    · unfold writeFacetsWith at hw
      cases hplace : placeFields cfg.caseNormalization [] 0
          (facetFields (insertFacet ∅ doc (field, category)) cfg.headBoundary) with
      | error e =>
        simp only [hplace, bind, Except.bind] at hw
        cases hw
      | ok placed =>
        have hfits : PushesFit 0 [utf8 field, utf8 category] := placeFields_ok hplace
        have := hfits.2.2.2.1
        omega

omit [Unicode] in
theorem sealFailed_of_ok {b : SplitSetBuilder} {bytes : Bytes}
    (h : writeIndexWith b.gramSize b.stride (serializeEntries b.openPosts.toList) b.caseNormalization = .ok bytes) :
    b.sealFailed = { b with openPosts := ∅, openFacets := ∅ } := by
  unfold SplitSetBuilder.sealFailed
  rw [h]

/-- A seal whose files are made. -/
theorem seal_ok {b : SplitSetBuilder} {bytes more : Bytes} {sidecar : NamedFiles} (hn : b.openCount.val ≠ 0)
    (hbytes : writeIndexWith b.gramSize b.stride (serializeEntries b.openPosts.toList) b.caseNormalization = .ok bytes)
    (hside : sealFacetSidecar b.openFacets ⟨b.namePrefix, b.specs.length, b.headBoundary, b.caseNormalization,
      b.facetDigestTop, b.facetDigestV2⟩ = .ok (more, sidecar)) :
    b.seal = .ok { b with
      openPosts := ∅
      openFacets := ∅
      specs := b.specs ++ [⟨splitStem b.namePrefix b.specs.length ++ ".rrs", SplitSetBuilder.tier b.policy b.specs.length,
        b.openCount.val, b.globalBase.val, (wrapAdd b.globalBase.val (b.openCount.val - 1)).val, 0, bytes.length, 0,
        SplitSetBuilder.bloomRecord b.bloomBitsPerKey b.openPosts ++ more⟩]
      blobs := b.blobs ++ [(splitStem b.namePrefix b.specs.length ++ ".rrs", bytes)]
      facetBlobs := b.facetBlobs ++ sidecar
      openCount := wrapAdd 0 0
      globalBase := b.nextGlobalId
      postingsUpper := 0 } := by
  unfold SplitSetBuilder.seal
  rw [if_neg hn]
  simp only [hbytes, hside]
  rfl

theorem addInner_error {b : SplitSetBuilder} {splits : List SealedSplit} {docs : List BuildDoc} {taken : Nat}
    {doc : BuildDoc} {e : String} (ht : taken ≤ splits.length) (hfull : (b.holding splits docs 0).full doc.keys = true)
    (hcut : b.cut splits.length (splits.flatMap SealedSplit.docs).length docs = .error e) :
    (b.holding splits docs taken).addInner doc.keys doc.facets = .error e := by
  rw [SplitSetBuilder.addInner_holding ht]
  unfold SplitSetBuilder.cutStep
  rw [if_pos hfull]
  simp only [hcut, bind, Except.bind]
  rfl

theorem add_error {r : BuildRun} {keys : List Key} {facets : List (String × String)} {e : String}
    (h : r.builder.addInner keys facets = .error e) :
    r.add keys facets = (some e, { r with builder := r.builder.sealFailed }) := by
  unfold BuildRun.add
  rw [h]

omit [Roaring] [Unicode] in
/-- A document without keys adds no posting. -/
theorem postsAndUpper_keyless (docs : List BuildDoc) (n : Nat) :
    postsAndUpper (docs ++ List.replicate n ⟨[], []⟩) = postsAndUpper docs := by
  induction n with
  | zero => rw [List.replicate_zero, List.append_nil]
  | succ n ih =>
    rw [List.replicate_succ', ← List.append_assoc, postsAndUpper_snoc, ih]
    rfl

/-- Documents without keys never fill a split with room for what it has. -/
theorem cut_keyless {b : SplitSetBuilder} {docs : List BuildDoc}
    (hroom : (b.holding [] docs 0).estimate ≤ capFor b.byteCap b.byteCapMax 0) (n m : Nat) :
    (List.replicate n (⟨[], []⟩ : BuildDoc)).foldlM b.cutStep ([], docs ++ List.replicate m ⟨[], []⟩) =
      .ok ([], docs ++ List.replicate (m + n) ⟨[], []⟩) := by
  induction n generalizing m with
  | zero => rfl
  | succ n ih =>
    have hest : (b.holding [] (docs ++ List.replicate m ⟨[], []⟩) 0).estimate = (b.holding [] docs 0).estimate := by
      simp only [SplitSetBuilder.estimate, SplitSetBuilder.holding, postsAndUpper_keyless]
    have hcap : capFor (b.holding [] (docs ++ List.replicate m ⟨[], []⟩) 0).byteCap
        (b.holding [] (docs ++ List.replicate m ⟨[], []⟩) 0).byteCapMax
        (b.holding [] (docs ++ List.replicate m ⟨[], []⟩) 0).specs.length = capFor b.byteCap b.byteCapMax 0 := by
      simp only [SplitSetBuilder.holding, List.map_nil, List.length_nil]
    have hmore : (b.holding [] (docs ++ List.replicate m ⟨[], []⟩) 0).marginal [] = 0 := by
      simp [SplitSetBuilder.marginal]
    have hopen : (b.holding [] (docs ++ List.replicate m ⟨[], []⟩) 0).full [] = false := by
      unfold SplitSetBuilder.full
      rw [hest, hcap, hmore, Nat.add_zero, decide_eq_false (Nat.not_lt.mpr hroom), Bool.and_false]
    have hstep : b.cutStep ([], docs ++ List.replicate m ⟨[], []⟩) ⟨[], []⟩ =
        .ok ([], docs ++ List.replicate (m + 1) ⟨[], []⟩) := by
      unfold SplitSetBuilder.cutStep
      simp only [hopen, Bool.false_eq_true, if_false]
      rw [List.replicate_succ', ← List.append_assoc]
      rfl
    rw [List.replicate_succ, List.foldlM_cons, hstep]
    show (List.replicate n (⟨[], []⟩ : BuildDoc)).foldlM b.cutStep ([], docs ++ List.replicate (m + 1) ⟨[], []⟩) = _
    rw [ih, Nat.add_assoc, Nat.add_comm 1 n]

omit [Roaring] [Unicode] in
/-- A manifest of no splits can be written. -/
theorem exists_manifest_nil {b : SplitSetBuilder} (hsort : b.sortcol = none) (docs : List BuildDoc) :
    ∃ m, (b.holding [] docs 0).manifest = .ok m := by
  unfold SplitSetBuilder.manifest
  apply writeSplitset_ok_iff.mpr
  refine ⟨by simp [SplitSetBuilder.holding], Nat.zero_le _, by simp [SplitSetBuilder.holding], ?_, ?_,
    by simp [SplitSetBuilder.holding]⟩
  · intro sc hsc
    have : b.sortcol = some sc := hsc
    rw [hsort] at this
    cases this
  · show (nameBytes [] b.sortcol).length < 2 ^ 32
    rw [hsort]
    decide

end

section

attribute [local instance] PortableCodec.roaring asciiUnicode

theorem tight_fits : ConfigFits 100 0 3 0 0 none := by
  refine ⟨?_, ?_, ?_, ?_, ?_, ?_⟩ <;> simp

/-- Splits of at most 100 bytes. -/
def tightConfig : SplitBuildConfig where
  policy := .stableKey
  byteCap := 100
  byteCapMax := 0
  gramSize := 3
  headBoundary := 0
  stride := 0
  namePrefix := "p"
  sortcol := none
  bloomBitsPerKey := 0
  caseSensitive := false
  fits := tight_fits

def tight : SplitSetBuilder := SplitSetBuilder.start tightConfig 0 false

/-- Three documents of one key each, the second with a facet, drained after the second. -/
def tiledCalls : List BuildCall :=
  [.addKeys [⟨70, by decide⟩], .addFaceted "abc" [("f", "x")], .drainSealed, .addKeys [⟨70, by decide⟩]]

theorem build_tiles_three : ∃ (r : BuildRun) (built : BuiltSplitSet),
    BuildRun.calls ⟨tight, [], []⟩ tiledCalls = ([], r) ∧ r.builder.finish = .ok built ∧
    ∃ splits, Emitted tight (BuildCall.documents tight tiledCalls)
      ⟨built.manifest, r.files ++ built.splits, r.facetFiles ++ built.facets⟩ splits ∧ splits.length = 3 := by
  have hcalls : BuildRun.calls ⟨tight, [], []⟩ tiledCalls = ([], (BuildRun.calls ⟨tight, [], []⟩ tiledCalls).2) :=
    Prod.ext (by decide +kernel) rfl
  have hfin : ((BuildRun.calls ⟨tight, [], []⟩ tiledCalls).2.builder.finish.map fun b =>
      b.splits.length) = .ok 2 := by decide +kernel
  have hfiles : (BuildRun.calls ⟨tight, [], []⟩ tiledCalls).2.files.length = 1 := by decide +kernel
  cases h : (BuildRun.calls ⟨tight, [], []⟩ tiledCalls).2.builder.finish with
  | error e =>
    rw [h] at hfin
    cases hfin
  | ok built =>
    rw [h] at hfin
    have hlen : built.splits.length = 2 := Except.ok.inj hfin
    obtain ⟨-, splits, hemitted, -⟩ := @build_tiles _ _ tightConfig 0 false _ _ _ hcalls h (by decide +kernel)
      (fun h => absurd h (by decide +kernel))
    refine ⟨_, built, hcalls, h, splits, hemitted, ?_⟩
    have hsplits := congrArg List.length hemitted.files
    rw [List.length_append, List.length_map, hfiles, hlen] at hsplits
    omega

def lossyKey : Key := ⟨77, by decide⟩

/-- A document with a category whose name is too long, and one without facets, twice: the first add of it fails. -/
def lossyCalls (category : String) : List BuildCall :=
  [.addFaceted "abc" [("f", category)], .addKeys [lossyKey], .addKeys [lossyKey]]

/-- What the failed seal has left of the builder. -/
def lossyBuilder : SplitSetBuilder :=
  { tight with openCount := wrapAdd 0 1, nextGlobalId := wrapAdd 0 1, postingsUpper := 2, hasFacets := true }

theorem lossyPosts : (postsAndUpper [⟨ngramKeysWith "abc" 3 true, []⟩]).2 = 2 ∧
    (tight.holding [] [⟨ngramKeysWith "abc" 3 true, []⟩] 0).full [lossyKey] = true ∧
    lossyBuilder.full [lossyKey] = false ∧ (postsAndUpper [⟨ngramKeysWith "abc" 3 true, []⟩]).1.toList.length = 1 := by
  decide +kernel

/-- The seal of the first document fails, and its postings are gone. -/
theorem lossyCalls_run {category : String} (h : 2 ^ 16 ≤ (utf8 category).length) : ∃ e,
    BuildRun.calls ⟨tight, [], []⟩ (lossyCalls category) = ([e], ⟨lossyBuilder.insertDoc [lossyKey] [], [], []⟩) := by
  let doc : BuildDoc := ⟨ngramKeysWith "abc" 3 true, [("f", category)]⟩
  have hlen : (postsAndUpper [doc]).1.toList.length < 2 ^ 32 := by
    rw [show (postsAndUpper [doc]).1.toList.length = 1 from lossyPosts.2.2.2]
    decide
  obtain ⟨bytes, -, hbytes, -⟩ := @postMap_search _ _ 3 defaultStride (by decide) (by decide) true
    (postsAndUpper [doc]).1 _ (List.Perm.refl _) hlen
  obtain ⟨e, he⟩ := @sealFacetSidecar_long _ _ "f" category
    ⟨"p", 0, defaultHeadBoundary, true, 0, false⟩ h (wrapAdd 0 0)
  have hfull : (tight.holding [] [doc] 0).full [lossyKey] = true := lossyPosts.2.1
  have hcut : tight.cut 0 0 [doc] = .error e := by
    unfold SplitSetBuilder.cut
    show (writeIndexWith 3 defaultStride (serializeEntries (postsAndUpper [doc]).1.toList) true >>= _) = _
    rw [hbytes]
    show (sealFacetSidecar (insertFacet ∅ (wrapAdd 0 0) ("f", category))
      ⟨"p", 0, defaultHeadBoundary, true, 0, false⟩ >>= _) = _
    rw [he]
    rfl
  have hstep : tight.cutStep ([], []) doc = .ok ([], [doc]) := rfl
  have h1 : BuildRun.call ⟨tight, [], []⟩ (.addFaceted "abc" [("f", category)]) =
      (none, BuildRun.holding tight [] [doc] 0) := BuildRun.add_holding (Nat.zero_le _) hstep
  have hfailed : (tight.holding [] [doc] 0).sealFailed = lossyBuilder := by
    have hupper : (postsAndUpper [doc]).2 = 2 := lossyPosts.1
    rw [@sealFailed_of_ok _ (tight.holding [] [doc] 0) bytes hbytes]
    unfold SplitSetBuilder.holding
    simp only [hupper]
    rfl
  have h2 : BuildRun.call (BuildRun.holding tight [] [doc] 0) (.addKeys [lossyKey]) =
      (some e, ⟨lossyBuilder, [], []⟩) := by
    have hadd : (tight.holding [] [doc] 0).addInner [lossyKey] [] = .error e :=
      @addInner_error _ _ tight [] [doc] 0 ⟨[lossyKey], []⟩ e (Nat.zero_le _) hfull hcut
    rw [← hfailed]
    exact @add_error _ _ ⟨tight.holding [] [doc] 0, [], []⟩ [lossyKey] [] e hadd
  have h3 : BuildRun.call ⟨lossyBuilder, [], []⟩ (.addKeys [lossyKey]) =
      (none, ⟨lossyBuilder.insertDoc [lossyKey] [], [], []⟩) := by
    have hadd : lossyBuilder.addInner [lossyKey] [] =
        .ok (lossyBuilder.nextGlobalId, lossyBuilder.insertDoc [lossyKey] []) := by
      unfold SplitSetBuilder.addInner SplitSetBuilder.sealIfFull
      rw [if_neg (by rw [lossyPosts.2.2.1]; exact Bool.false_ne_true)]
      rfl
    show BuildRun.add ⟨lossyBuilder, [], []⟩ [lossyKey] [] = _
    unfold BuildRun.add
    rw [hadd]
  refine ⟨e, ?_⟩
  unfold lossyCalls
  simp only [BuildRun.calls, h1, h2, h3]
  rfl

/-- The split that is emitted has the postings of the last document only. -/
theorem lossyBuilder_finish : ∃ built bytes ix,
    (lossyBuilder.insertDoc [lossyKey] []).finish = .ok built ∧ built.splits = [("p-s00000.rrs", bytes)] ∧
    Settles (Index.open (MemoryFetch.new bytes)) (.ok ix) ∧ ∀ k, ix.postingOf k ≠ none → k = lossyKey := by
  obtain ⟨bytes, ix, hbytes, hopen, -, -, hpost, -⟩ := @postMap_search _ _ 3 defaultStride (by decide) (by decide) true
    (lossyBuilder.insertDoc [lossyKey] []).openPosts _ (List.Perm.refl _) (by decide +kernel)
  let spec : SplitSpec := ⟨"p-s00000.rrs", 0, 2, 0, 1, 0, bytes.length, 0, []⟩
  let last : SplitSetBuilder := { lossyBuilder.insertDoc [lossyKey] [] with
    openPosts := ∅
    openFacets := ∅
    specs := [spec]
    blobs := [("p-s00000.rrs", bytes)]
    openCount := wrapAdd 0 0
    globalBase := (lossyBuilder.insertDoc [lossyKey] []).nextGlobalId
    postingsUpper := 0 }
  have hname : splitStem "p" 0 ++ ".rrs" = "p-s00000.rrs" := by decide
  have hseal : (lossyBuilder.insertDoc [lossyKey] []).seal = .ok last := by
    rw [@seal_ok _ _ (lossyBuilder.insertDoc [lossyKey] []) bytes [] [] (by decide) hbytes rfl]
    show Except.ok { lossyBuilder.insertDoc [lossyKey] [] with
      openPosts := ∅
      openFacets := ∅
      specs := [⟨splitStem "p" 0 ++ ".rrs", 0, 2, 0, 1, 0, bytes.length, 0, []⟩]
      blobs := [(splitStem "p" 0 ++ ".rrs", bytes)]
      facetBlobs := []
      openCount := wrapAdd 0 0
      globalBase := (lossyBuilder.insertDoc [lossyKey] []).nextGlobalId
      postingsUpper := 0 } = _
    rw [hname]
    rfl
  obtain ⟨manifest, hm⟩ : ∃ m, last.manifest = .ok m := by
    have hover : last.oversized = none := rfl
    unfold SplitSetBuilder.manifest
    rw [hover]
    apply writeSplitset_ok_iff.mpr
    have hfit : ManifestFits [spec] last.manifestConfig := {
      count_lt := by show 1 < 2 ^ 32; decide
      base_le := by show 1 % u32Bound ≤ 1; decide
      name_lt := fun s hs => by
        rw [List.mem_singleton.mp hs]
        show (utf8 "p-s00000.rrs").length < 2 ^ 16
        decide +kernel
      sortcol_lt := fun sc hsc => by cases hsc
      names_lt := by show (utf8 "p-s00000.rrs" ++ []).length < 2 ^ 32; decide +kernel
      summary_lt := fun s hs => by
        rw [List.mem_singleton.mp hs]
        show 0 < 2 ^ 32
        decide }
    exact hfit
  refine ⟨⟨manifest, [("p-s00000.rrs", bytes)], []⟩, bytes, ix, ?_, rfl, hopen, fun k hk => ?_⟩
  · unfold SplitSetBuilder.finish
    rw [hseal]
    simp only [bind, Except.bind, hm]
    rfl
  · rw [hpost] at hk
    by_contra hne
    have hposts : (lossyBuilder.insertDoc [lossyKey] []).openPosts = PostMap.insert ∅ (wrapAdd 0 1) lossyKey := rfl
    rw [hposts, PostMap.insert, OrdMap.find?_update, if_neg hne] at hk
    exact hk rfl

/-- Documents that the counter of the open split does not show are not emitted. -/
theorem keyless_run {n : Nat} (hn : n % u32Bound = 0) : ∃ (r : BuildRun) (built : BuiltSplitSet),
    BuildRun.calls ⟨tight, [], []⟩ (List.replicate n (.addKeys [])) = ([], r) ∧ r.files = [] ∧
    r.builder.finish = .ok built ∧ built.splits = [] := by
  have hdocs : BuildCall.documents tight (List.replicate n (.addKeys [])) = List.replicate n ⟨[], []⟩ :=
    List.filterMap_replicate_of_some rfl
  have hcut := @cut_keyless _ _ tight [] (by decide) n 0
  rw [Nat.zero_add] at hcut
  obtain ⟨m, hm⟩ := @exists_manifest_nil tight rfl (List.replicate n ⟨[], []⟩)
  refine ⟨BuildRun.holding tight [] (List.replicate n ⟨[], []⟩) 0, ⟨m, [], []⟩, ?_, rfl, ?_, rfl⟩
  · refine @BuildRun.calls_of_cut _ _ tight [] [] 0 _ ?_ (Nat.zero_le _) ([], List.replicate n ⟨[], []⟩) ?_
    · intro hmem
      cases List.eq_of_mem_replicate hmem
    · rw [hdocs]
      exact hcut
  · show (tight.holding [] (List.replicate n ⟨[], []⟩) 0).finish = _
    rw [SplitSetBuilder.finish_holding (Nat.zero_le _), SplitSetBuilder.cutEnd, if_pos (by rwa [List.length_replicate])]
    simp only [pure, Except.pure, Except.bind, hm]
    rfl

/-- **What a run can lose**: after an add that failed, the documents of the open split have no postings; and 2^32
documents in one split are emitted as none. -/
theorem build_loses :
    (∃ (text category : String) (k : Key) (calls : List BuildCall) (e : String) (r : BuildRun) (built : BuiltSplitSet)
      (name : String) (bytes : Bytes) (ix : Index), k ∈ ngramKeysWith text 3 true ∧
      calls.head? = some (.addFaceted text [("f", category)]) ∧ BuildRun.calls ⟨tight, [], []⟩ calls = ([e], r) ∧
      r.files = [] ∧ r.builder.finish = .ok built ∧ built.splits = [(name, bytes)] ∧
      Settles (Index.open (MemoryFetch.new bytes)) (.ok ix) ∧ ix.postingOf k = none) ∧
    ∃ (r : BuildRun) (built : BuiltSplitSet),
      BuildRun.calls ⟨tight, [], []⟩ (List.replicate u32Bound (.addKeys [])) = ([], r) ∧ r.files = [] ∧
      r.builder.finish = .ok built ∧ built.splits = [] := by
  refine ⟨?_, keyless_run (Nat.mod_self _)⟩
  obtain ⟨built, bytes, ix, hfin, hsplits, hopen, hpost⟩ := lossyBuilder_finish
  obtain ⟨category, hlong⟩ : ∃ c : String, 2 ^ 16 ≤ (utf8 c).length := ⟨_, (length_utf8_replicate (2 ^ 16)).ge⟩
  obtain ⟨e, hrun⟩ := lossyCalls_run hlong
  obtain ⟨k, hk⟩ := List.exists_mem_of_ne_nil
    ((ngramKeysWith "abc" 3 true).filter fun k => k ≠ lossyKey) (by decide +kernel)
  have hne : k ≠ lossyKey := of_decide_eq_true (List.mem_filter.mp hk).2
  refine ⟨"abc", _, k, _, e, _, built, _, bytes, ix, (List.mem_filter.mp hk).1, rfl, hrun, rfl, hfin, hsplits, hopen, ?_⟩
  by_contra hsome
  exact hne (hpost k hsome)

end

end RoaringRange
