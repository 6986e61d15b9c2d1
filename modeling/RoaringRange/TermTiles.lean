import RoaringRange.SplitTiles
import RoaringRange.TermSplitBuild

/-!
# The splits of a term-bodied build tile its documents (`splitset_build.rs`)

A document of a term-bodied build is its terms and its facets.  However its calls and drains follow each other, a build
has cut its documents into consecutive runs: the sealed splits, each with the index of its documents, and the open one.

    a posting of the open split lists its documents with the term                     (mem_docs_insertTerms)
    one call, and any sequence of calls that succeed, keeps the cut           (Cuts.call, Cuts.calls)
    and so does the seal at the end                                                  (Cuts.sealAndCheck)
-/

namespace RoaringRange

open ByteString Faults Slices Tiles

def TermMap.docs (m : TermMap) (t : Term) : Bitmap := (m.find? t).getD ∅

theorem TermMap.mem_strictDocs {m : TermMap} {terms : List String} {d : Nat} :
    d ∈ m.strictDocs terms ↔ terms ≠ [] ∧ ∀ t ∈ terms, d ∈ m.docs ⟨t⟩ := by
  unfold strictDocs
  cases hsets : terms.mapM fun t => m.find? ⟨t⟩ with
  | none =>
    refine iff_of_false (AscSet.not_mem_empty d) fun h => ?_
    have hall : ∀ t ∈ terms, ∃ S, m.find? ⟨t⟩ = some S := by
      intro t ht
      have hd := h.2 t ht
      unfold docs at hd
      cases hfind : m.find? ⟨t⟩ with
      | none =>
        rw [hfind] at hd
        exact absurd hd (AscSet.not_mem_empty d)
      | some S => exact ⟨S, rfl⟩
    have hsome : ∀ (ts : List String), (∀ t ∈ ts, ∃ S, m.find? ⟨t⟩ = some S) →
        (ts.mapM fun t => m.find? ⟨t⟩) ≠ none := by
      intro ts
      induction ts with
      | nil =>
        intro _ h
        cases h
      | cons t ts ih =>
        intro hts hnone
        obtain ⟨S, hS⟩ := hts t List.mem_cons_self
        rw [List.mapM_cons, hS] at hnone
        cases hrest : ts.mapM fun t => m.find? ⟨t⟩ with
        | none => exact ih (fun u hu => hts u (List.mem_cons_of_mem t hu)) hrest
        | some rest =>
          rw [hrest] at hnone
          cases hnone
    exact hsome terms hall hsets
  | some sets =>
    have hrel := mapM_some_forall₂ hsets
    have hlen := hrel.length_eq
    by_cases hnil : terms = []
    · rw [hnil] at hrel
      cases hrel
      exact iff_of_false (AscSet.not_mem_empty d) fun h => h.1 hnil
    · have hsets' : sets ≠ [] := by
        rintro rfl
        exact hnil (List.length_eq_zero_iff.mp hlen)
      show d ∈ AscSet.inters sets ↔ _
      rw [AscSet.mem_inters hsets']
      constructor
      · intro h
        refine ⟨hnil, fun t ht => ?_⟩
        obtain ⟨S, hS, hfind⟩ := exists_partner hrel ht
        unfold docs
        rw [hfind]
        exact h S hS
      · rintro ⟨-, h⟩ S hS
        obtain ⟨t, ht, hfind⟩ := exists_partner_left hrel hS
        have hd := h t ht
        unfold docs at hd
        rwa [hfind] at hd

/-! ## Documents -/

structure TermDoc where
  terms : List Term
  facets : List (String × String)

inductive TermBuildCall where
  | addFaceted (text : String) (facets : List (String × String))
  | drainSealed

section

variable [Unicode] [TokenFilters]

def TermBuildCall.doc? (tk : Tokenizer) : TermBuildCall → Option TermDoc
  | .addFaceted text facets => some ⟨sortedTerms (tk.tokenize text), facets⟩
  | .drainSealed => none

def TermBuildCall.documents (tk : Tokenizer) (calls : List TermBuildCall) : List TermDoc :=
  calls.filterMap (TermBuildCall.doc? tk)

end

/-- The postings of an open split are those of its documents. -/
def TermMap.Lists (m : TermMap) (docs : List TermDoc) : Prop :=
  ∀ t d, d ∈ m.docs t ↔ ∃ doc, docs[d]? = some doc ∧ t ∈ doc.terms

/-- The facets of an open split are those of its documents. -/
structure FacetMap.Lists (m : FacetMap) (docs : List TermDoc) : Prop where
  mem : ∀ field category d, d ∈ m.docs field category ↔ ∃ doc, docs[d]? = some doc ∧ (field, category) ∈ doc.facets
  empty : m.isEmpty = docs.all fun doc => doc.facets.isEmpty

theorem TermMap.lists_nil : TermMap.Lists ∅ [] := by
  intro t d
  have hempty : d ∉ TermMap.docs ∅ t := AscSet.not_mem_empty d
  simp [hempty]

theorem FacetMap.lists_nil : FacetMap.Lists ∅ [] := by
  refine ⟨fun field category d => ?_, rfl⟩
  have hempty : d ∉ FacetMap.docs ∅ field category := AscSet.not_mem_empty d
  simp [hempty]

namespace TermSplitSetBuilder

theorem mem_docs_insertTerm {doc : Fin u32Bound} {st : TermMap × Nat} {t u : Term} {d : Nat} :
    d ∈ (insertTerm doc st t).1.docs u ↔ d ∈ st.1.docs u ∨ (d = doc.val ∧ u = t) := by
  unfold insertTerm TermMap.docs
  simp only
  rw [OrdMap.find?_update]
  by_cases hu : u = t
  · rw [if_pos hu, Option.getD_some, AscSet.mem_insert, hu, or_comm]
    simp
  · rw [if_neg hu]
    simp [hu]

theorem mem_docs_insertTerms {doc : Fin u32Bound} {terms : List Term} {u : Term} {d : Nat} : ∀ {st : TermMap × Nat},
    d ∈ (terms.foldl (insertTerm doc) st).1.docs u ↔ d ∈ st.1.docs u ∨ (d = doc.val ∧ u ∈ terms) := by
  induction terms with
  | nil => simp
  | cons t terms ih =>
    intro st
    rw [List.foldl_cons, ih, mem_docs_insertTerm, List.mem_cons, or_assoc, ← and_or_left]

end TermSplitSetBuilder

section

variable {docs : List TermDoc} {doc : TermDoc} {place : Fin u32Bound}

theorem TermMap.Lists.snoc {st : TermMap × Nat} (h : st.1.Lists docs) (hplace : place.val = docs.length) :
    (doc.terms.foldl (TermSplitSetBuilder.insertTerm place) st).1.Lists (docs ++ [doc]) := by
  intro t d
  rw [TermSplitSetBuilder.mem_docs_insertTerms, h, hplace]
  constructor
  · rintro (⟨doc', hd, ht⟩ | ⟨rfl, ht⟩)
    · exact ⟨doc', getElem?_snoc.mpr (Or.inl hd), ht⟩
    · exact ⟨doc, getElem?_snoc.mpr (Or.inr ⟨rfl, rfl⟩), ht⟩
  · rintro ⟨doc', hd, ht⟩
    rcases getElem?_snoc.mp hd with hd | ⟨rfl, rfl⟩
    · exact Or.inl ⟨doc', hd, ht⟩
    · exact Or.inr ⟨rfl, ht⟩

theorem FacetMap.Lists.snoc {m : FacetMap} (h : m.Lists docs) (hplace : place.val = docs.length) :
    FacetMap.Lists (doc.facets.foldl (fun fs p => insertFacet fs place p) m) (docs ++ [doc]) := by
  refine ⟨fun field category d => ?_, ?_⟩
  · rw [mem_docs_insertFacets, h.mem, hplace]
    constructor
    · rintro (⟨doc', hd, hp⟩ | ⟨rfl, hp⟩)
      · exact ⟨doc', getElem?_snoc.mpr (Or.inl hd), hp⟩
      · exact ⟨doc, getElem?_snoc.mpr (Or.inr ⟨rfl, rfl⟩), hp⟩
    · rintro ⟨doc', hd, hp⟩
      rcases getElem?_snoc.mp hd with hd | ⟨rfl, rfl⟩
      · exact Or.inl ⟨doc', hd, hp⟩
      · exact Or.inr ⟨rfl, hp⟩
  · rw [isEmpty_insertFacets, h.empty, List.all_append, List.all_cons, List.all_nil, Bool.and_true]

end

/-! ## Runs -/

/-- A term-bodied builder with the files its caller has drained. -/
structure TermBuildRun where
  builder : TermSplitSetBuilder
  files : NamedFiles
  facetFiles : NamedFiles

namespace TermBuildRun

variable [Roaring] [Unicode] [Fst] [TokenFilters]

/-- A call: its error, if any, and what it leaves. -/
def call (r : TermBuildRun) : TermBuildCall → Option String × TermBuildRun
  | .addFaceted text facets =>
    let added := r.builder.addFaceted text facets
    (match added.1 with
      | .ok _ => none
      | .error e => some e, { r with builder := added.2 })
  | .drainSealed =>
    let drained := r.builder.drainSealed
    (none, ⟨drained.2, r.files ++ drained.1.1, r.facetFiles ++ drained.1.2⟩)

/-- The calls in order, with the errors they returned. -/
def calls (r : TermBuildRun) : List TermBuildCall → List String × TermBuildRun
  | [] => ([], r)
  | c :: cs =>
    let rest := (r.call c).2.calls cs
    ((r.call c).1.toList ++ rest.1, rest.2)

end TermBuildRun

/-! ## The cut -/

/-- A split that was sealed: its documents, its manifest entry and its files. -/
structure TermPart where
  docs : List TermDoc
  spec : SplitSpec
  bytes : Bytes
  sidecar : NamedFiles

def TermPart.file (s : TermPart) : String × Bytes := (s.spec.dataFile, s.bytes)

section

variable [Roaring] [Unicode] [Fst]

/-- The split at index `i`, `lo` documents into a build that began with `b`. -/
structure TermPartAt (b : TermSplitSetBuilder) (i lo : Nat) (s : TermPart) : Prop where
  docs_ne : s.docs ≠ []
  docCount : s.spec.docCount = s.docs.length
  docIdLo : s.spec.docIdLo = b.globalBase.val + lo
  docIdHi : s.spec.docIdHi + 1 = b.globalBase.val + lo + s.docs.length
  dataFile : s.spec.dataFile = splitStem b.namePrefix i ++ ".rrt"
  tier : s.spec.tier = SplitSetBuilder.tier b.policy i
  epoch : s.spec.epoch = 0
  flags : s.spec.flags = 0
  byteSize : s.spec.byteSize = s.bytes.length
  terms : ∃ m : TermMap, m.Lists s.docs ∧ writeTermIndexFromPostings m b.index = .ok s.bytes
  facets : ∃ m : FacetMap, m.Lists s.docs ∧ sealFacetSidecar m ⟨b.namePrefix, i, b.index.headBoundary,
    !b.index.caseSensitive, b.facetDigestTop, b.facetDigestV2⟩ = .ok (s.spec.summary, s.sidecar)

/-- What a builder keeps of the one a build began with. -/
structure TermSplitSetBuilder.Keeps (b c : TermSplitSetBuilder) : Prop where
  policy : c.policy = b.policy
  byteCap : c.byteCap = b.byteCap
  byteCapMax : c.byteCapMax = b.byteCapMax
  namePrefix : c.namePrefix = b.namePrefix
  sortcol : c.sortcol = b.sortcol
  index : c.index = b.index
  facetDigestTop : c.facetDigestTop = b.facetDigestTop
  facetDigestV2 : c.facetDigestV2 = b.facetDigestV2

/-- **The run has cut its documents**: into the sealed splits, and the open one. -/
structure Cuts (b : TermSplitSetBuilder) (docs : List TermDoc) (parts : List TermPart) (last : List TermDoc)
    (r : TermBuildRun) : Prop where
  keeps : b.Keeps r.builder
  documents : parts.flatMap TermPart.docs ++ last = docs
  specs : r.builder.specs = parts.map TermPart.spec
  files : r.files ++ r.builder.blobs = parts.map TermPart.file
  facetFiles : r.facetFiles ++ r.builder.facetBlobs = parts.flatMap TermPart.sidecar
  each : Each TermPart.docs (TermPartAt b) parts
  posts : r.builder.openPosts.Lists last
  facets : FacetMap.Lists r.builder.openFacets last
  count : r.builder.openCount.val = last.length
  base : r.builder.globalBase.val = (b.globalBase.val + (parts.flatMap TermPart.docs).length) % u32Bound
  next : r.builder.nextGlobalId.val = (b.globalBase.val + docs.length) % u32Bound
  hasFacets : r.builder.hasFacets = docs.any fun doc => !doc.facets.isEmpty

/-- A builder that nothing was added to. -/
structure TermSplitSetBuilder.Fresh (b : TermSplitSetBuilder) : Prop where
  posts : b.openPosts = ∅
  facets : b.openFacets = ∅
  count : b.openCount.val = 0
  next : b.nextGlobalId = b.globalBase
  hasFacets : b.hasFacets = false
  specs : b.specs = []
  blobs : b.blobs = []
  facetBlobs : b.facetBlobs = []

variable {b : TermSplitSetBuilder} {docs last : List TermDoc} {parts : List TermPart} {r : TermBuildRun}

theorem TermSplitSetBuilder.Fresh.cuts (h : b.Fresh) : Cuts b [] [] [] ⟨b, [], []⟩ := by
  refine ⟨⟨rfl, rfl, rfl, rfl, rfl, rfl, rfl, rfl⟩, rfl, h.specs, h.blobs, h.facetBlobs, each_nil _, ?_, ?_, h.count, ?_, ?_,
    h.hasFacets⟩
  · rw [h.posts]
    exact TermMap.lists_nil
  · rw [h.facets]
    exact FacetMap.lists_nil
  · exact (Nat.mod_eq_of_lt b.globalBase.isLt).symm
  · rw [h.next]
    exact (Nat.mod_eq_of_lt b.globalBase.isLt).symm

/-- **A seal moves the open split to the sealed ones.** -/
theorem Cuts.seal (h : Cuts b docs parts last r) (hle : b.globalBase.val + docs.length ≤ u32Bound)
    {c : TermSplitSetBuilder} (hseal : r.builder.seal = .ok c) :
    ∃ parts', parts <+: parts' ∧ Cuts b docs parts' [] { r with builder := c } := by
  have hlen : docs.length = (parts.flatMap TermPart.docs).length + last.length := by
    rw [← h.documents, List.length_append]
  rcases TermSplitSetBuilder.seal_inv hseal with ⟨hz, rfl⟩ | ⟨hne, bytes, summary, sidecar, hbytes, hside, rfl⟩
  · rw [h.count, List.length_eq_zero_iff] at hz
    subst hz
    exact ⟨parts, List.prefix_refl _, h⟩
  · rw [h.count] at hne
    have hcount := h.count
    have hlast : last ≠ [] := fun hnil => hne (by rw [hnil, List.length_nil])
    have hbase : r.builder.globalBase.val = b.globalBase.val + (parts.flatMap TermPart.docs).length := by
      rw [h.base]
      exact Nat.mod_eq_of_lt (by omega)
    have hspecs : r.builder.specs.length = parts.length := by rw [h.specs, List.length_map]
    let s : TermPart := ⟨last, r.builder.sealedSpec bytes summary, bytes, sidecar⟩
    have hdocs : (parts ++ [s]).flatMap TermPart.docs = docs := by
      rw [List.flatMap_append, List.flatMap_singleton, ← h.documents]
    have hat : TermPartAt b parts.length (parts.flatMap TermPart.docs).length s := by
      refine ⟨hlast, h.count, hbase, ?_, ?_, ?_, rfl, rfl, rfl, ⟨_, h.posts, ?_⟩, ⟨_, h.facets, ?_⟩⟩
      · show (r.builder.globalBase.val + (r.builder.openCount.val - 1)) % u32Bound + 1 = _
        rw [Nat.mod_eq_of_lt (by omega), hbase, hcount]
        show b.globalBase.val + (parts.flatMap TermPart.docs).length + (last.length - 1) + 1 =
          b.globalBase.val + (parts.flatMap TermPart.docs).length + last.length
        omega
      · show splitStem r.builder.namePrefix r.builder.specs.length ++ ".rrt" = _
        rw [h.keeps.namePrefix, hspecs]
      · show SplitSetBuilder.tier r.builder.policy r.builder.specs.length = _
        rw [h.keeps.policy, hspecs]
      · rw [← h.keeps.index]
        exact hbytes
      · rw [← h.keeps.namePrefix, ← h.keeps.index, ← h.keeps.facetDigestTop, ← h.keeps.facetDigestV2, ← hspecs]
        exact hside
    refine ⟨parts ++ [s], List.prefix_append _ _, ⟨h.keeps.policy, h.keeps.byteCap, h.keeps.byteCapMax, h.keeps.namePrefix,
      h.keeps.sortcol, h.keeps.index, h.keeps.facetDigestTop, h.keeps.facetDigestV2⟩, ?_, ?_, ?_, ?_,
      each_snoc.mpr ⟨h.each, hat⟩, TermMap.lists_nil, FacetMap.lists_nil, rfl, ?_, h.next, h.hasFacets⟩
    · rw [hdocs, List.append_nil]
    · rw [List.map_append, ← h.specs]
      rfl
    · rw [List.map_append, ← h.files, List.append_assoc]
      rfl
    · rw [List.flatMap_append, ← h.facetFiles, List.append_assoc, List.flatMap_singleton]
    · rw [hdocs]
      exact h.next

theorem Cuts.insertDoc (h : Cuts b docs parts last r) {doc : TermDoc} (hlt : docs.length + 1 < u32Bound) :
    Cuts b (docs ++ [doc]) parts (last ++ [doc]) { r with builder := r.builder.insertDoc doc.terms doc.facets } := by
  have hlen : docs.length = (parts.flatMap TermPart.docs).length + last.length := by
    rw [← h.documents, List.length_append]
  have hcount := h.count
  refine ⟨⟨h.keeps.policy, h.keeps.byteCap, h.keeps.byteCapMax, h.keeps.namePrefix, h.keeps.sortcol, h.keeps.index,
    h.keeps.facetDigestTop, h.keeps.facetDigestV2⟩, ?_, h.specs, h.files, h.facetFiles, h.each, ?_, ?_, ?_, h.base, ?_, ?_⟩
  · rw [← List.append_assoc, h.documents]
  · have hposts : (r.builder.openPosts, r.builder.bytesUpper).1.Lists last := h.posts
    exact hposts.snoc h.count
  · exact h.facets.snoc h.count
  · show (r.builder.openCount.val + 1) % u32Bound = _
    rw [List.length_append, List.length_singleton, hcount]
    exact Nat.mod_eq_of_lt (by omega)
  · show (r.builder.nextGlobalId.val + 1) % u32Bound = _
    rw [h.next, List.length_append, List.length_singleton, Nat.mod_add_mod, Nat.add_assoc]
  · show (r.builder.hasFacets || !doc.facets.isEmpty) = _
    rw [h.hasFacets, List.any_append, List.any_cons, List.any_nil, Bool.or_false]

variable [TokenFilters]

/-- **A call that succeeds keeps the cut.** -/
theorem Cuts.call (h : Cuts b docs parts last r) {c : TermBuildCall} (hok : (r.call c).1 = none)
    (hle : b.globalBase.val + (docs ++ (c.doc? b.index.tokenizer).toList).length ≤ u32Bound)
    (hlt : (docs ++ (c.doc? b.index.tokenizer).toList).length < u32Bound) :
    ∃ parts' last', Cuts b (docs ++ (c.doc? b.index.tokenizer).toList) parts' last' (r.call c).2 := by
  cases c with
  | drainSealed =>
    refine ⟨parts, last, ?_⟩
    show Cuts b (docs ++ []) parts last _
    rw [List.append_nil]
    refine ⟨⟨h.keeps.policy, h.keeps.byteCap, h.keeps.byteCapMax, h.keeps.namePrefix, h.keeps.sortcol, h.keeps.index,
      h.keeps.facetDigestTop, h.keeps.facetDigestV2⟩, h.documents, h.specs, ?_, ?_, h.each, h.posts, h.facets, h.count,
      h.base, h.next, h.hasFacets⟩
    · show (r.files ++ r.builder.blobs) ++ [] = _
      rw [List.append_nil, h.files]
    · show (r.facetFiles ++ r.builder.facetBlobs) ++ [] = _
      rw [List.append_nil, h.facetFiles]
  | addFaceted text facets =>
    have hindex := h.keeps.index
    have hdoc : ((TermBuildCall.addFaceted text facets).doc? b.index.tokenizer).toList =
        [⟨sortedTerms (b.index.tokenizer.tokenize text), facets⟩] := rfl
    rw [hdoc, List.length_append, List.length_singleton] at hle hlt
    rw [hdoc]
    unfold TermBuildRun.call TermSplitSetBuilder.addFaceted at hok ⊢
    simp only [hindex] at hok ⊢
    generalize sortedTerms (b.index.tokenizer.tokenize text) = terms at hok ⊢
    by_cases hfull : r.builder.full terms = true
    · rw [if_pos hfull] at hok ⊢
      cases hseal : r.builder.seal with
      | error e =>
        rw [hseal] at hok
        cases hok
      | ok c =>
        obtain ⟨parts', -, h'⟩ := h.seal (by omega) hseal
        exact ⟨parts', [] ++ [⟨terms, facets⟩], h'.insertDoc hlt⟩
    · rw [if_neg hfull]
      exact ⟨parts, last ++ [⟨terms, facets⟩], h.insertDoc hlt⟩

/-- **So does any sequence of them.** -/
theorem Cuts.calls {cs : List TermBuildCall} : ∀ {docs parts last r}, Cuts b docs parts last r →
    (r.calls cs).1 = [] → b.globalBase.val + (docs ++ TermBuildCall.documents b.index.tokenizer cs).length ≤ u32Bound →
    (docs ++ TermBuildCall.documents b.index.tokenizer cs).length < u32Bound →
    ∃ parts' last', Cuts b (docs ++ TermBuildCall.documents b.index.tokenizer cs) parts' last' (r.calls cs).2 := by
  induction cs with
  | nil =>
    intro docs parts last r h _ _ _
    refine ⟨parts, last, ?_⟩
    rw [show docs ++ TermBuildCall.documents b.index.tokenizer [] = docs from List.append_nil _]
    exact h
  | cons c cs ih =>
    intro docs parts last r h hok hle hlt
    simp only [TermBuildRun.calls, List.append_eq_nil_iff, Option.toList_eq_nil_iff] at hok ⊢
    have hdocs : docs ++ TermBuildCall.documents b.index.tokenizer (c :: cs) =
        (docs ++ (c.doc? b.index.tokenizer).toList) ++ TermBuildCall.documents b.index.tokenizer cs := by
      unfold TermBuildCall.documents
      rw [List.append_assoc]
      cases hdoc : c.doc? b.index.tokenizer with
      | none => rw [List.filterMap_cons_none hdoc, Option.toList_none, List.nil_append]
      | some doc =>
        rw [List.filterMap_cons_some hdoc, Option.toList_some]
        rfl
    rw [hdocs] at hle hlt ⊢
    have hlen : (docs ++ (c.doc? b.index.tokenizer).toList).length ≤
        ((docs ++ (c.doc? b.index.tokenizer).toList) ++ TermBuildCall.documents b.index.tokenizer cs).length := by
      rw [@List.length_append _ (docs ++ (c.doc? b.index.tokenizer).toList)]
      exact Nat.le_add_right _ _
    obtain ⟨parts', last', h'⟩ := h.call hok.1 (by omega) (by omega)
    exact ih h' hok.2 hle hlt

/-! ## The end of a build -/

omit [TokenFilters] in
/-- **The end of a build seals what is open.** -/
theorem Cuts.sealAndCheck (h : Cuts b docs parts last r) (hle : b.globalBase.val + docs.length ≤ u32Bound)
    {c : TermSplitSetBuilder} (hseal : r.builder.sealAndCheck = .ok c) :
    ∃ parts', Cuts b docs parts' [] { r with builder := c } := by
  unfold TermSplitSetBuilder.sealAndCheck at hseal
  obtain ⟨d, hd, hseal⟩ := exists_of_bind_ok hseal
  cases hover : d.oversized with
  | some x =>
    rw [hover] at hseal
    cases hseal
  | none =>
    rw [hover] at hseal
    obtain rfl := Except.ok.inj hseal
    obtain ⟨parts', -, h'⟩ := h.seal hle hd
    exact ⟨parts', h'⟩

/-- What a build of `docs` that began with `b` has emitted, all files together. -/
structure CutsAll (b : TermSplitSetBuilder) (docs : List TermDoc) (parts : List TermPart) (files facetFiles : NamedFiles) :
    Prop where
  documents : parts.flatMap TermPart.docs = docs
  files : files = parts.map TermPart.file
  facetFiles : facetFiles = parts.flatMap TermPart.sidecar
  each : Each TermPart.docs (TermPartAt b) parts

omit [TokenFilters] in
theorem Cuts.finishParts (h : Cuts b docs parts last r) (hle : b.globalBase.val + docs.length ≤ u32Bound)
    {band : TermSplitParts} (hfin : r.builder.finishParts = .ok band) : ∃ parts',
      CutsAll b docs parts' (r.files ++ band.splits) (r.facetFiles ++ band.facets) ∧
      band.specs = parts'.map TermPart.spec ∧ band.hasFacets = docs.any fun doc => !doc.facets.isEmpty := by
  unfold TermSplitSetBuilder.finishParts at hfin
  obtain ⟨c, hc, hfin⟩ := exists_of_bind_ok hfin
  obtain ⟨parts', h'⟩ := h.sealAndCheck hle hc
  obtain rfl := Except.ok.inj hfin
  have hdocs := h'.documents
  rw [List.append_nil] at hdocs
  exact ⟨parts', ⟨hdocs, h'.files, h'.facetFiles, h'.each⟩, h'.specs, h'.hasFacets⟩

def termManifestConfig (b : TermSplitSetBuilder) (count : Nat) (hasFacets : Bool) : SplitSetConfig where
  policy := b.policy
  tierCount := SplitSetBuilder.tier b.policy count
  baseCount := count % u32Bound
  byteCap := b.byteCap
  gramSize := 0
  bodyKind := .term
  sortcol := b.sortcol
  flags := (if hasFacets then flagFacet else 0) ||| (if b.index.caseSensitive then flagCaseSensitive else 0)

omit [TokenFilters] in
/-- The manifest and the last files of a build. -/
theorem Cuts.finish (h : Cuts b docs parts last r) (hle : b.globalBase.val + docs.length ≤ u32Bound)
    {built : BuiltSplitSet} (hfin : r.builder.finish = .ok built) : ∃ parts',
      CutsAll b docs parts' (r.files ++ built.splits) (r.facetFiles ++ built.facets) ∧
      writeSplitset (parts'.map TermPart.spec)
        (termManifestConfig b parts'.length (docs.any fun doc => !doc.facets.isEmpty)) = .ok built.manifest := by
  unfold TermSplitSetBuilder.finish at hfin
  obtain ⟨c, hc, hfin⟩ := exists_of_bind_ok hfin
  obtain ⟨parts', h'⟩ := h.sealAndCheck hle hc
  obtain ⟨manifest, hm, hfin⟩ := exists_of_bind_ok hfin
  obtain rfl := Except.ok.inj hfin
  have hdocs := h'.documents
  rw [List.append_nil] at hdocs
  have hlen : c.specs.length = parts'.length := by
    have hspecs : c.specs = parts'.map TermPart.spec := h'.specs
    rw [hspecs, List.length_map]
  have hspecs : c.specs = parts'.map TermPart.spec := h'.specs
  have hpolicy : c.policy = b.policy := h'.keeps.policy
  have hcap : c.byteCap = b.byteCap := h'.keeps.byteCap
  have hsort : c.sortcol = b.sortcol := h'.keeps.sortcol
  have hfacets : c.hasFacets = docs.any fun doc => !doc.facets.isEmpty := h'.hasFacets
  have hindex : c.index = b.index := h'.keeps.index
  rw [hlen, hspecs, hpolicy, hcap, hsort, hfacets, hindex] at hm
  exact ⟨parts', ⟨hdocs, h'.files, h'.facetFiles, h'.each⟩, hm⟩

end

end RoaringRange
