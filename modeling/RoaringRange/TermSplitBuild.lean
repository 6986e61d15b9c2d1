import RoaringRange.SplitTiles
import RoaringRange.TermsBuild

/-!
# The term-bodied split-set builder (`splitset_build.rs`)

`TermSplitSetBuilder` packs documents like the trigram builder, but a sealed split is a term index.  A worker of
a parallel build starts at its band's first id (`with_global_base`) and ends with `finish_parts`, its share of a
manifest.

    whatever is called, and whether it fails: every file is named after a split and holds its index
                                                                                     (Reached.named)
-/

namespace RoaringRange

open ByteString Faults Slices Tiles

/-- The integers of a configuration are within their types. -/
structure TermConfigFits (byteCap byteCapMax headBoundary : Nat) (sortcol : Option SortColDescriptor) : Prop where
  byteCap_lt : byteCap < 2 ^ 64
  byteCapMax_lt : byteCapMax < 2 ^ 64
  headBoundary_lt : headBoundary < 2 ^ 32
  sortcol_lt : ∀ sc ∈ sortcol, sc.column < 2 ^ 16

structure TermSplitBuildConfig where
  policy : Policy
  byteCap : Nat
  byteCapMax : Nat
  headBoundary : Nat
  namePrefix : String
  sortcol : Option SortColDescriptor
  language : Option Language
  stem : Bool
  stopwords : Bool
  caseSensitive : Bool
  fits : TermConfigFits byteCap byteCapMax headBoundary sortcol

theorem defaultHeadBoundary_lt : defaultHeadBoundary < 2 ^ 32 := by decide

/-- The boundary of a builder is a 32-bit number. -/
theorem headBoundary_or_default_lt {hb : Nat} (h : hb < 2 ^ 32) :
    (if hb = 0 then defaultHeadBoundary else hb) < 2 ^ 32 := by
  by_cases h0 : hb = 0
  · rw [if_pos h0]
    exact defaultHeadBoundary_lt
  · rw [if_neg h0]
    exact h

def perNewTermBytes : Nat := 24

def perTermElementBytes : Nat := 2

def termIndexHeaderEst : Nat := 128

structure TermSplitParts where
  specs : List SplitSpec
  splits : NamedFiles
  facets : NamedFiles
  hasFacets : Bool

/-- `sort` and `dedup` of a document's terms. -/
def sortedTerms (tokens : List String) : List Term :=
  (AscSet.ofList (p := fun _ => True) (tokens.map Term.mk) fun _ _ => trivial).toList

structure TermSplitSetBuilder where
  policy : Policy
  byteCap : Nat
  byteCapMax : Nat
  namePrefix : String
  sortcol : Option SortColDescriptor
  /-- `head_boundary`, `language`, `stem`, `stopwords` and `case_normalization`, as the writer takes them. -/
  index : TermIndexConfig
  /-- `open`: the open split's postings. -/
  openPosts : TermMap
  openCount : Fin u32Bound
  globalBase : Fin u32Bound
  nextGlobalId : Fin u32Bound
  globalOrigin : Fin u32Bound
  bytesUpper : Nat
  openFacets : FacetMap
  hasFacets : Bool
  facetDigestTop : Nat
  facetDigestV2 : Bool
  specs : List SplitSpec
  blobs : NamedFiles
  facetBlobs : NamedFiles

namespace TermSplitSetBuilder

def new (config : TermSplitBuildConfig) : TermSplitSetBuilder where
  policy := config.policy
  byteCap := config.byteCap
  byteCapMax := config.byteCapMax
  namePrefix := config.namePrefix
  sortcol := config.sortcol
  index := ⟨if config.headBoundary = 0 then defaultHeadBoundary else config.headBoundary, config.language, config.stem,
    config.stopwords, config.caseSensitive, 0, headBoundary_or_default_lt config.fits.headBoundary_lt⟩
  openPosts := ∅
  openCount := wrapAdd 0 0
  globalBase := wrapAdd 0 0
  nextGlobalId := wrapAdd 0 0
  globalOrigin := wrapAdd 0 0
  bytesUpper := 0
  openFacets := ∅
  hasFacets := false
  facetDigestTop := 0
  facetDigestV2 := false
  specs := []
  blobs := []
  facetBlobs := []

/-- `TermSplitSetBuilder::with_global_base`, where its assertion holds. -/
def withGlobalBase (b : TermSplitSetBuilder) (base : Fin u32Bound) : TermSplitSetBuilder :=
  { b with globalBase := base, nextGlobalId := base, globalOrigin := base }

/-- `TermSplitSetBuilder::with_facet_digest` and `with_facet_digest_v2`. -/
def withFacetDigest (b : TermSplitSetBuilder) (topPerField : Nat) (v2 : Bool) : TermSplitSetBuilder :=
  { b with facetDigestTop := topPerField, facetDigestV2 := v2 }

def estimate (b : TermSplitSetBuilder) : Nat := termIndexHeaderEst + b.bytesUpper

/-- What a document would add to the estimate. -/
def marginal (b : TermSplitSetBuilder) (terms : List Term) : Nat :=
  terms.foldl (fun n t => n + (if b.openPosts.contains t then 0 else perNewTermBytes + t.bytes.length) +
    perTermElementBytes) 0

/-- Whether the open split is sealed before a document with these terms. -/
def full (b : TermSplitSetBuilder) (terms : List Term) : Bool :=
  0 < b.openCount.val && capFor b.byteCap b.byteCapMax b.specs.length < b.estimate + b.marginal terms

/-- The insertion of one term: the posting, and what it adds to `bytes_upper`. -/
def insertTerm (doc : Fin u32Bound) (st : TermMap × Nat) (t : Term) : TermMap × Nat :=
  (st.1.update t fun bm => (bm.getD ∅).insert doc.val doc.isLt,
    match st.1.find? t with
    | none => st.2 + (perTermElementBytes + (perNewTermBytes + t.bytes.length))
    | some bm => if doc.val ∈ bm then st.2 else st.2 + perTermElementBytes)

/-- The part of `TermSplitSetBuilder::add_faceted` after the seal decision. -/
def insertDoc (b : TermSplitSetBuilder) (terms : List Term) (facets : List (String × String)) : TermSplitSetBuilder :=
  let posts := terms.foldl (insertTerm b.openCount) (b.openPosts, b.bytesUpper)
  { b with
    openPosts := posts.1
    bytesUpper := posts.2
    openFacets := facets.foldl (fun fs p => insertFacet fs b.openCount p) b.openFacets
    hasFacets := b.hasFacets || !facets.isEmpty
    openCount := wrapAdd b.openCount.val 1
    nextGlobalId := wrapAdd b.nextGlobalId.val 1 }

section

variable [Roaring] [Unicode] [Fst]

def «seal» (b : TermSplitSetBuilder) : Except String TermSplitSetBuilder :=
  if b.openCount.val = 0 then .ok b
  else do
    let bytes ← writeTermIndexFromPostings b.openPosts b.index
    let idx := b.specs.length
    let name := splitStem b.namePrefix idx ++ ".rrt"
    let (summary, sidecar) ← sealFacetSidecar b.openFacets
      ⟨b.namePrefix, idx, b.index.headBoundary, !b.index.caseSensitive, b.facetDigestTop, b.facetDigestV2⟩
    let spec : SplitSpec := {
      dataFile := name
      tier := SplitSetBuilder.tier b.policy idx
      docCount := b.openCount.val
      docIdLo := b.globalBase.val
      docIdHi := (wrapAdd b.globalBase.val (b.openCount.val - 1)).val
      epoch := 0
      byteSize := bytes.length
      flags := 0
      summary := summary }
    pure { b with
      openPosts := ∅
      openFacets := ∅
      specs := b.specs ++ [spec]
      blobs := b.blobs ++ [(name, bytes)]
      facetBlobs := b.facetBlobs ++ sidecar
      openCount := wrapAdd 0 0
      globalBase := b.nextGlobalId
      bytesUpper := 0 }

/-- What `TermSplitSetBuilder::seal` leaves of the builder where it fails. -/
def sealFailed (b : TermSplitSetBuilder) : TermSplitSetBuilder :=
  match writeTermIndexFromPostings b.openPosts b.index with
  | .error _ => { b with openPosts := ∅ }
  | .ok _ => { b with openPosts := ∅, openFacets := ∅ }

variable [TokenFilters]

/-- `TermSplitSetBuilder::add_faceted`, and `add_text` for no facets: its result, and what it leaves. -/
def addFaceted (b : TermSplitSetBuilder) (text : String) (facets : List (String × String)) :
    Except String (Fin u32Bound) × TermSplitSetBuilder :=
  let terms := sortedTerms (b.index.tokenizer.tokenize text)
  match if b.full terms then b.seal else .ok b with
  | .error e => (.error e, b.sealFailed)
  | .ok b => (.ok b.nextGlobalId, b.insertDoc terms facets)

omit [Roaring] [Unicode] [Fst] [TokenFilters]

def drainSealed (b : TermSplitSetBuilder) : (NamedFiles × NamedFiles) × TermSplitSetBuilder :=
  ((b.blobs, b.facetBlobs), { b with blobs := [], facetBlobs := [] })

/-- The check of `TermSplitSetBuilder::seal_and_check`. -/
def oversized (b : TermSplitSetBuilder) : Option (SplitSpec × Nat) :=
  b.specs.zipIdx.find? fun s => s.1.docCount = 1 && capFor b.byteCap b.byteCapMax s.2 < s.1.byteSize

end

section

variable [Roaring] [Unicode] [Fst]

def sealAndCheck (b : TermSplitSetBuilder) : Except String TermSplitSetBuilder := do
  let b ← b.seal
  match b.oversized with
  | some (spec, i) =>
    throw ("RRSS term split " ++ debugText spec.dataFile ++ ": a single document's postings (" ++ toString spec.byteSize ++
      " B) exceed the byte cap (" ++ toString (capFor b.byteCap b.byteCapMax i) ++ " B)")
  | none => pure b

def finishParts (b : TermSplitSetBuilder) : Except String TermSplitParts := do
  let b ← b.sealAndCheck
  pure ⟨b.specs, b.blobs, b.facetBlobs, b.hasFacets⟩

def finish (b : TermSplitSetBuilder) : Except String BuiltSplitSet := do
  let b ← b.sealAndCheck
  let manifest ← writeSplitset b.specs {
    policy := b.policy
    tierCount := SplitSetBuilder.tier b.policy b.specs.length
    baseCount := b.specs.length % u32Bound
    byteCap := b.byteCap
    gramSize := 0
    bodyKind := .term
    sortcol := b.sortcol
    flags := (if b.hasFacets then flagFacet else 0) ||| (if b.index.caseSensitive then flagCaseSensitive else 0) }
  pure ⟨manifest, b.blobs, b.facetBlobs⟩

/-- The entry of the split that a seal makes. -/
def sealedSpec (b : TermSplitSetBuilder) (bytes summary : Bytes) : SplitSpec where
  dataFile := splitStem b.namePrefix b.specs.length ++ ".rrt"
  tier := SplitSetBuilder.tier b.policy b.specs.length
  docCount := b.openCount.val
  docIdLo := b.globalBase.val
  docIdHi := (wrapAdd b.globalBase.val (b.openCount.val - 1)).val
  epoch := 0
  byteSize := bytes.length
  flags := 0
  summary := summary

/-- What a seal that succeeds does: nothing, or a split more with its file. -/
theorem seal_inv {b c : TermSplitSetBuilder} (h : b.seal = .ok c) :
    (b.openCount.val = 0 ∧ c = b) ∨ (b.openCount.val ≠ 0 ∧ ∃ bytes summary sidecar,
      writeTermIndexFromPostings b.openPosts b.index = .ok bytes ∧
      sealFacetSidecar b.openFacets ⟨b.namePrefix, b.specs.length, b.index.headBoundary, !b.index.caseSensitive,
        b.facetDigestTop, b.facetDigestV2⟩ = .ok (summary, sidecar) ∧
      c = { b with
        openPosts := ∅
        openFacets := ∅
        specs := b.specs ++ [b.sealedSpec bytes summary]
        blobs := b.blobs ++ [((b.sealedSpec bytes summary).dataFile, bytes)]
        facetBlobs := b.facetBlobs ++ sidecar
        openCount := wrapAdd 0 0
        globalBase := b.nextGlobalId
        bytesUpper := 0 }) := by
  unfold TermSplitSetBuilder.seal at h
  split at h
  · next hz => exact Or.inl ⟨hz, (Except.ok.inj h).symm⟩
  · next hne =>
    obtain ⟨bytes, hbytes, h⟩ := exists_of_bind_ok h
    obtain ⟨⟨summary, sidecar⟩, hside, h⟩ := exists_of_bind_ok h
    exact Or.inr ⟨hne, bytes, summary, sidecar, hbytes, hside, (Except.ok.inj h).symm⟩

/-! ## Every builder that can be reached -/

/-- The builders that some sequence of calls leads to. -/
inductive Reached [TokenFilters] : TermSplitSetBuilder → Prop where
  | new (config : TermSplitBuildConfig) : Reached (new config)
  | withGlobalBase {b : TermSplitSetBuilder} (base : Fin u32Bound) : Reached b → b.nextGlobalId = b.globalOrigin →
      Reached (b.withGlobalBase base)
  | withFacetDigest {b : TermSplitSetBuilder} (topPerField : Nat) (v2 : Bool) : Reached b →
      Reached (b.withFacetDigest topPerField v2)
  | addFaceted {b : TermSplitSetBuilder} (text : String) (facets : List (String × String)) : Reached b →
      Reached (b.addFaceted text facets).2
  | drainSealed {b : TermSplitSetBuilder} : Reached b → Reached b.drainSealed.2

/-- A builder whose splits and files are named in seal order, every split's file an index. -/
structure Named (b : TermSplitSetBuilder) : Prop where
  specs : ∀ (i : Nat) (s : SplitSpec), b.specs[i]? = some s →
    s.dataFile = splitStem b.namePrefix i ++ ".rrt" ∧ s.docIdHi < u32Bound
  blobs : ∀ f ∈ b.blobs, ∃ i, i < b.specs.length ∧ f.1 = splitStem b.namePrefix i ++ ".rrt" ∧
    ∃ posts, writeTermIndexFromPostings posts b.index = .ok f.2
  facetBlobs : ∀ f ∈ b.facetBlobs, ∃ i, i < b.specs.length ∧ f.1 = splitStem b.namePrefix i ++ ".rrf"

variable {b : TermSplitSetBuilder}

omit [Unicode] in
/-- A builder with the same splits and files, named the same. -/
theorem Named.congr (h : Named b) {c : TermSplitSetBuilder} (hp : c.namePrefix = b.namePrefix) (hi : c.index = b.index)
    (hs : c.specs = b.specs) (hb : c.blobs ⊆ b.blobs) (hf : c.facetBlobs ⊆ b.facetBlobs) : Named c := by
  refine ⟨fun i s hsi => ?_, fun f hfb => ?_, fun f hff => ?_⟩
  · rw [hp]
    rw [hs] at hsi
    exact h.specs i s hsi
  · rw [hp, hi, hs]
    exact h.blobs f (hb hfb)
  · rw [hp, hs]
    exact h.facetBlobs f (hf hff)

theorem Named.seal (h : Named b) {c : TermSplitSetBuilder} (hc : b.seal = .ok c) : Named c := by
  rcases seal_inv hc with ⟨-, rfl⟩ | ⟨-, bytes, facets, sidecar, hbytes, hside, rfl⟩
  · exact h
  · have hlen : ∀ x : SplitSpec, (b.specs ++ [x]).length = b.specs.length + 1 := fun x => by
      rw [List.length_append, List.length_singleton]
    refine ⟨fun i s hs => ?_, fun f hf => ?_, fun f hf => ?_⟩
    · rcases getElem?_snoc.mp hs with hs | ⟨rfl, rfl⟩
      · exact h.specs i s hs
      · exact ⟨rfl, (wrapAdd _ _).isLt⟩
    · rcases List.mem_append.mp hf with hf | hf
      · obtain ⟨i, hi, hname, hposts⟩ := h.blobs f hf
        exact ⟨i, by rw [hlen]; omega, hname, hposts⟩
      · rw [List.mem_singleton.mp hf]
        exact ⟨b.specs.length, by rw [hlen]; omega, rfl, b.openPosts, hbytes⟩
    · rcases List.mem_append.mp hf with hf | hf
      · obtain ⟨i, hi, hname⟩ := h.facetBlobs f hf
        exact ⟨i, by rw [hlen]; omega, hname⟩
      · rcases sealFacetSidecar_ok hside with ⟨-, -, hnil⟩ | ⟨-, bytes', digest, -, -, -, hone⟩
        · rw [hnil] at hf
          cases hf
        · rw [hone] at hf
          rw [List.mem_singleton.mp hf]
          exact ⟨b.specs.length, by rw [hlen]; omega, rfl⟩

omit [Unicode] in
theorem Named.sealFailed (h : Named b) : Named b.sealFailed := by
  unfold TermSplitSetBuilder.sealFailed
  cases writeTermIndexFromPostings b.openPosts b.index with
  | error e => exact h.congr rfl rfl rfl (List.Subset.refl _) (List.Subset.refl _)
  | ok bytes => exact h.congr rfl rfl rfl (List.Subset.refl _) (List.Subset.refl _)

omit [Unicode] in
theorem Named.insertDoc (h : Named b) (terms : List Term) (facets : List (String × String)) :
    Named (b.insertDoc terms facets) := h.congr rfl rfl rfl (List.Subset.refl _) (List.Subset.refl _)

theorem Named.addFaceted [TokenFilters] (h : Named b) (text : String) (facets : List (String × String)) :
    Named (b.addFaceted text facets).2 := by
  unfold TermSplitSetBuilder.addFaceted
  simp only
  by_cases hfull : b.full (sortedTerms (b.index.tokenizer.tokenize text)) = true
  · rw [if_pos hfull]
    cases hseal : b.seal with
    | error e => exact h.sealFailed
    | ok c => exact (h.seal hseal).insertDoc _ _
  · rw [if_neg hfull]
    exact h.insertDoc _ _

/-- **Whatever is called**: every file is named after a split and holds its index. -/
theorem Reached.named [TokenFilters] (h : Reached b) : Named b := by
  induction h with
  | new config =>
    refine ⟨fun i s hs => ?_, fun f hf => ?_, fun f hf => ?_⟩
    · have hs' : ([] : List SplitSpec)[i]? = some s := hs
      simp at hs'
    · exact absurd hf List.not_mem_nil
    · exact absurd hf List.not_mem_nil
  | withGlobalBase base _ _ ih => exact ih.congr rfl rfl rfl (List.Subset.refl _) (List.Subset.refl _)
  | withFacetDigest topPerField v2 _ ih => exact ih.congr rfl rfl rfl (List.Subset.refl _) (List.Subset.refl _)
  | addFaceted text facets _ ih => exact ih.addFaceted text facets
  | drainSealed _ ih => exact ih.congr rfl rfl rfl (List.nil_subset _) (List.nil_subset _)

theorem Named.sealAndCheck (h : Named b) {c : TermSplitSetBuilder} (hc : b.sealAndCheck = .ok c) : Named c := by
  unfold TermSplitSetBuilder.sealAndCheck at hc
  cases hseal : b.seal with
  | error e =>
    simp only [hseal, bind, Except.bind] at hc
    cases hc
  | ok d =>
    simp only [hseal, bind, Except.bind] at hc
    cases hover : d.oversized with
    | some x =>
      rw [hover] at hc
      cases hc
    | none =>
      rw [hover] at hc
      obtain rfl := Except.ok.inj hc
      exact h.seal hseal

end

end TermSplitSetBuilder

end RoaringRange
