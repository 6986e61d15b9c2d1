import RoaringRange.FacetDigest
import RoaringRange.Lib.Decimal
import RoaringRange.SplitFiles
import RoaringRange.TextIndex

/-!
# The byte-capped split-set builder (`splitset_build.rs`)

`SplitSetBuilder` takes documents in order and puts each into the open split.  Where a running estimate of
the open split's bytes would pass the cap of its tier, the split is sealed: its index file, its facet sidecar
and its manifest entry are made, and the next split begins with local ids from zero.

All that the builder keeps is told by the sealed splits, the documents of the open split and how many splits
were drained (`holding`): a document cuts the open split off or joins it (`cutStep`).

    a document added is one step of the cut                                        (addInner_holding)
    a seal cuts the open split off, if it has a document                               (seal_holding)
-/

namespace RoaringRange

open ByteString Faults Slices

/-! ## Configuration -/

/-- The integers of a configuration are within their types. -/
structure ConfigFits (byteCap byteCapMax gramSize headBoundary stride : Nat) (sortcol : Option SortColDescriptor) :
    Prop where
  byteCap_lt : byteCap < 2 ^ 64
  byteCapMax_lt : byteCapMax < 2 ^ 64
  gramSize_lt : gramSize < 2 ^ 16
  headBoundary_lt : headBoundary < 2 ^ 32
  stride_lt : stride < 2 ^ 32
  sortcol_lt : ∀ sc ∈ sortcol, sc.column < 2 ^ 16

structure SplitBuildConfig where
  policy : Policy
  byteCap : Nat
  byteCapMax : Nat
  gramSize : Nat
  headBoundary : Nat
  stride : Nat
  namePrefix : String
  sortcol : Option SortColDescriptor
  bloomBitsPerKey : Nat
  caseSensitive : Bool
  fits : ConfigFits byteCap byteCapMax gramSize headBoundary stride sortcol

abbrev NamedFiles := List (String × Bytes)

structure BuiltSplitSet where
  manifest : Bytes
  splits : NamedFiles
  facets : NamedFiles

def perNewKeyBytes : Nat := 64

def perElementBytes : Nat := 2

/-- `u64::checked_shl`: only the shift is checked, the bits shifted out are gone. -/
def checkedShl (x shift : Nat) : Option Nat := if shift < 64 then some (x * 2 ^ shift % u64Bound) else none

def capFor (byteCap byteCapMax tier : Nat) : Nat :=
  if byteCapMax = 0 then byteCap
  else min ((checkedShl byteCap (min tier 63)).getD usizeMax) (max byteCapMax byteCap)

/-- `{idx:05}`. -/
def paddedIdx (idx : Nat) : String := String.ofList (Decimal.padded 5 idx)

/-- `‹prefix›-s‹idx›`, the stem that the files of a split share. -/
def splitStem (namePrefix : String) (idx : Nat) : String := namePrefix ++ "-s" ++ paddedIdx idx

/-! ## Facet sidecars -/

/-- `Display` of `FetchError`. -/
def FetchError.display : FetchError → String
  | .outOfRange offset len available => "ranged read [" ++ toString offset ++ ", " ++
      toString (saturatingAdd offset len) ++ ") exceeds " ++ toString available ++ " available bytes"
  | .notFound => "object not found"
  | .transport msg => "transport error: " ++ msg

/-- `Display` of `IndexError`. -/
def IndexError.display : IndexError → String
  | .fetch e => "fetch: " ++ e.display
  | .badMagic m => "bad magic [" ++ ", ".intercalate (m.map fun b => toString b.toNat) ++ "], expected RRSI"
  | .badVersion v => "unsupported version " ++ toString v
  | .roaring msg => "roaring deserialize: " ++ msg
  | .malformed msg => "malformed index: " ++ msg
  | .badQuery msg => "bad query: " ++ msg
  | .unsupported msg => "unsupported operation: " ++ msg

structure FacetSealCfg where
  namePrefix : String
  idx : Nat
  headBoundary : Nat
  caseNormalization : Bool
  digestTop : Nat
  digestV2 : Bool

/-- A document's membership in a category of the open split. -/
def insertFacet (facets : FacetMap) (doc : Fin u32Bound) (p : String × String) : FacetMap :=
  facets.update p.1 fun cats => (cats.getD ∅).update p.2 fun bm => (bm.getD ∅).insert doc.val doc.isLt

section

variable [Roaring] [Unicode]

/-- The digest record of a summary, if the configuration asks for one. -/
def facetDigestRecord (cfg : FacetSealCfg) (facetBytes : Bytes) : Except String Bytes :=
  if cfg.digestTop = 0 then .ok []
  else
    let digest := if cfg.digestV2 then facetDigestV2 facetBytes cfg.digestTop else facetDigest facetBytes cfg.digestTop
    match digest with
    | .ok d => .ok (tlvRecord (if cfg.digestV2 then summaryTagFacetDigestV2 else summaryTagFacetDigest) d)
    | .error e => .error e.display

/-- `splitset_build::seal_facet_sidecar`: what the summary gains, and the sidecar if the split has facets. -/
def sealFacetSidecar (openFacets : FacetMap) (cfg : FacetSealCfg) : Except String (Bytes × NamedFiles) :=
  if openFacets.isEmpty then .ok ([], [])
  else do
    let presence := tlvRecord summaryTagFacet (facetPresence openFacets cfg.caseNormalization)
    let facetBytes ← writeFacetsWith (facetFields openFacets cfg.headBoundary) cfg.caseNormalization
    let digest ← facetDigestRecord cfg facetBytes
    pure (presence ++ digest, [(splitStem cfg.namePrefix cfg.idx ++ ".rrf", facetBytes)])

end

/-! ## The builder -/

structure SplitSetBuilder where
  policy : Policy
  byteCap : Nat
  byteCapMax : Nat
  gramSize : Nat
  headBoundary : Nat
  stride : Nat
  namePrefix : String
  sortcol : Option SortColDescriptor
  bloomBitsPerKey : Nat
  caseNormalization : Bool
  /-- `open`: the open split's postings. -/
  openPosts : PostMap
  openCount : Fin u32Bound
  globalBase : Fin u32Bound
  nextGlobalId : Fin u32Bound
  postingsUpper : Nat
  openFacets : FacetMap
  hasFacets : Bool
  facetDigestTop : Nat
  facetDigestV2 : Bool
  specs : List SplitSpec
  blobs : NamedFiles
  facetBlobs : NamedFiles

/-- A sum of 32-bit counters. -/
def wrapAdd (a b : Nat) : Fin u32Bound := ⟨(a + b) % u32Bound, Nat.mod_lt _ (by decide)⟩

namespace SplitSetBuilder

def new (config : SplitBuildConfig) : SplitSetBuilder where
  policy := config.policy
  byteCap := config.byteCap
  byteCapMax := config.byteCapMax
  gramSize := config.gramSize
  headBoundary := if config.headBoundary = 0 then defaultHeadBoundary else config.headBoundary
  stride := if config.stride = 0 then defaultStride else config.stride
  namePrefix := config.namePrefix
  sortcol := config.sortcol
  bloomBitsPerKey := config.bloomBitsPerKey
  caseNormalization := !config.caseSensitive
  openPosts := ∅
  openCount := wrapAdd 0 0
  globalBase := wrapAdd 0 0
  nextGlobalId := wrapAdd 0 0
  postingsUpper := 0
  openFacets := ∅
  hasFacets := false
  facetDigestTop := 0
  facetDigestV2 := false
  specs := []
  blobs := []
  facetBlobs := []

def withFacetDigest (b : SplitSetBuilder) (topPerField : Nat) : SplitSetBuilder :=
  { b with facetDigestTop := topPerField, facetDigestV2 := false }

def withFacetDigestV2 (b : SplitSetBuilder) (topPerField : Nat) : SplitSetBuilder :=
  { b with facetDigestTop := topPerField, facetDigestV2 := true }

def estimate (b : SplitSetBuilder) : Nat :=
  let nkeys := b.openPosts.len
  let sparse := (nkeys + (max b.stride 1 - 1)) / max b.stride 1 * 8
  20 + nkeys * perNewKeyBytes + sparse + b.postingsUpper

def marginal (b : SplitSetBuilder) (keys : List Key) : Nat :=
  let newKeys := (keys.filter fun k => !b.openPosts.contains k).length
  newKeys * perNewKeyBytes + keys.length * perElementBytes

/-- Whether the open split is sealed before a document with these keys. -/
def full (b : SplitSetBuilder) (keys : List Key) : Bool :=
  0 < b.openCount.val && capFor b.byteCap b.byteCapMax b.specs.length < b.estimate + b.marginal keys

/-- The insertion of one key: the posting, and what it adds to `postings_upper`. -/
def insertKey (doc : Fin u32Bound) (st : PostMap × Nat) (k : Key) : PostMap × Nat :=
  (st.1.insert doc k, if doc.val ∈ st.1.docs k then st.2 else st.2 + perElementBytes)

/-- The part of `SplitSetBuilder::add_inner` after the seal decision. -/
def insertDoc (b : SplitSetBuilder) (keys : List Key) (facets : List (String × String)) : SplitSetBuilder :=
  let posts := keys.foldl (insertKey b.openCount) (b.openPosts, b.postingsUpper)
  { b with
    openPosts := posts.1
    postingsUpper := posts.2
    openFacets := facets.foldl (fun fs p => insertFacet fs b.openCount p) b.openFacets
    hasFacets := b.hasFacets || !facets.isEmpty
    openCount := wrapAdd b.openCount.val 1
    nextGlobalId := wrapAdd b.nextGlobalId.val 1 }

/-- The rank tier of the split at `idx`. -/
def tier (policy : Policy) (idx : Nat) : Nat :=
  match policy with
  | .tiered => min idx (2 ^ 16 - 1)
  | .stableKey => 0

section

variable [Roaring] [Unicode]

/-- The Bloom record of a summary, if the configuration asks for one. -/
def bloomRecord (bitsPerKey : Nat) (posts : PostMap) : Bytes :=
  if 0 < bitsPerKey then tlvRecord summaryTagBloom (bloomBuild posts.keys bitsPerKey) else []

def «seal» (b : SplitSetBuilder) : Except String SplitSetBuilder :=
  if b.openCount.val = 0 then .ok b
  else do
    let bytes ← writeIndexWith b.gramSize b.stride (serializeEntries b.openPosts.toList) b.caseNormalization
    let idx := b.specs.length
    let name := splitStem b.namePrefix idx ++ ".rrs"
    let (more, sidecar) ← sealFacetSidecar b.openFacets
      ⟨b.namePrefix, idx, b.headBoundary, b.caseNormalization, b.facetDigestTop, b.facetDigestV2⟩
    let spec : SplitSpec := {
      dataFile := name
      tier := tier b.policy idx
      docCount := b.openCount.val
      docIdLo := b.globalBase.val
      docIdHi := (wrapAdd b.globalBase.val (b.openCount.val - 1)).val
      epoch := 0
      byteSize := bytes.length
      flags := 0
      summary := bloomRecord b.bloomBitsPerKey b.openPosts ++ more }
    pure { b with
      openPosts := ∅
      openFacets := ∅
      specs := b.specs ++ [spec]
      blobs := b.blobs ++ [(name, bytes)]
      facetBlobs := b.facetBlobs ++ sidecar
      openCount := wrapAdd 0 0
      globalBase := b.nextGlobalId
      postingsUpper := 0 }

/-- The seal of `SplitSetBuilder::add_inner`, where the document does not fit the open split. -/
def sealIfFull (b : SplitSetBuilder) (keys : List Key) : Except String SplitSetBuilder :=
  if b.full keys then b.seal else .ok b

/-- `SplitSetBuilder::add_inner`, and `add_keys` for no facets: the document's global id, and the builder. -/
def addInner (b : SplitSetBuilder) (keys : List Key) (facets : List (String × String)) :
    Except String (Fin u32Bound × SplitSetBuilder) := do
  let b ← b.sealIfFull keys
  pure (b.nextGlobalId, b.insertDoc keys facets)

/-- `SplitSetBuilder::add_faceted`, and `add_text` for no facets. -/
def addFaceted (b : SplitSetBuilder) (text : String) (facets : List (String × String)) :
    Except String (Fin u32Bound × SplitSetBuilder) :=
  b.addInner (ngramKeysWith text b.gramSize b.caseNormalization) facets

def drainSealed (b : SplitSetBuilder) : (NamedFiles × NamedFiles) × SplitSetBuilder :=
  ((b.blobs, b.facetBlobs), { b with blobs := [], facetBlobs := [] })

/-- The check of `SplitSetBuilder::finish`: the first split that one document alone makes too large. -/
def oversized (b : SplitSetBuilder) : Option (SplitSpec × Nat) :=
  b.specs.zipIdx.find? fun s => s.1.docCount = 1 && capFor b.byteCap b.byteCapMax s.2 < s.1.byteSize

/-- The manifest configuration of `SplitSetBuilder::finish`. -/
def manifestConfig (b : SplitSetBuilder) : SplitSetConfig where
  policy := b.policy
  tierCount := tier b.policy b.specs.length
  baseCount := b.specs.length % u32Bound
  byteCap := b.byteCap
  gramSize := b.gramSize
  bodyKind := .trigram
  sortcol := b.sortcol
  flags := (if 0 < b.bloomBitsPerKey then flagBloom else 0) ||| (if b.hasFacets then flagFacet else 0) |||
    (if b.caseNormalization then 0 else flagCaseSensitive)

/-- The manifest of the sealed splits, unless one is too large. -/
def manifest (b : SplitSetBuilder) : Except String Bytes :=
  match b.oversized with
  | some (spec, i) =>
    .error ("RRSS split " ++ debugText spec.dataFile ++ ": a single document's postings (" ++ toString spec.byteSize ++
      " B) exceed the byte cap (" ++ toString (capFor b.byteCap b.byteCapMax i) ++ " B)")
  | none => writeSplitset b.specs b.manifestConfig

def finish (b : SplitSetBuilder) : Except String BuiltSplitSet := do
  let b ← b.seal
  let manifest ← b.manifest
  pure ⟨manifest, b.blobs, b.facetBlobs⟩

/-- What `SplitSetBuilder::seal` leaves of the builder where it fails: `mem::take` has emptied the open split. -/
def sealFailed (b : SplitSetBuilder) : SplitSetBuilder :=
  match writeIndexWith b.gramSize b.stride (serializeEntries b.openPosts.toList) b.caseNormalization with
  | .error _ => { b with openPosts := ∅ }
  | .ok _ => { b with openPosts := ∅, openFacets := ∅ }

end

/-- The entry of the split that a seal makes, with the records of its facets. -/
def sealedSpec (b : SplitSetBuilder) (bytes facets : Bytes) : SplitSpec where
  dataFile := splitStem b.namePrefix b.specs.length ++ ".rrs"
  tier := tier b.policy b.specs.length
  docCount := b.openCount.val
  docIdLo := b.globalBase.val
  docIdHi := (wrapAdd b.globalBase.val (b.openCount.val - 1)).val
  epoch := 0
  byteSize := bytes.length
  flags := 0
  summary := bloomRecord b.bloomBitsPerKey b.openPosts ++ facets

/-- What a seal that succeeds does: nothing, or a split more with its file. -/
theorem seal_inv [Roaring] [Unicode] {b c : SplitSetBuilder} (h : b.seal = .ok c) :
    (b.openCount.val = 0 ∧ c = b) ∨ (b.openCount.val ≠ 0 ∧ ∃ bytes facets sidecar,
      writeIndexWith b.gramSize b.stride (serializeEntries b.openPosts.toList) b.caseNormalization = .ok bytes ∧
      sealFacetSidecar b.openFacets ⟨b.namePrefix, b.specs.length, b.headBoundary, b.caseNormalization, b.facetDigestTop,
        b.facetDigestV2⟩ = .ok (facets, sidecar) ∧
      c = { b with
        openPosts := ∅
        openFacets := ∅
        specs := b.specs ++ [b.sealedSpec bytes facets]
        blobs := b.blobs ++ [((b.sealedSpec bytes facets).dataFile, bytes)]
        facetBlobs := b.facetBlobs ++ sidecar
        openCount := wrapAdd 0 0
        globalBase := b.nextGlobalId
        postingsUpper := 0 }) := by
  unfold SplitSetBuilder.seal at h
  split at h
  · next hz => exact Or.inl ⟨hz, (Except.ok.inj h).symm⟩
  · next hne =>
    obtain ⟨bytes, hbytes, h⟩ := exists_of_bind_ok h
    obtain ⟨⟨facets, sidecar⟩, hside, h⟩ := exists_of_bind_ok h
    exact Or.inr ⟨hne, bytes, facets, sidecar, hbytes, hside, (Except.ok.inj h).symm⟩

end SplitSetBuilder

/-! ## What the builder holds -/

/-- A document as the builder takes it. -/
structure BuildDoc where
  keys : List Key
  facets : List (String × String)
  deriving DecidableEq

/-- The postings of the documents of an open split, and `postings_upper`. -/
def postsAndUpper (docs : List BuildDoc) : PostMap × Nat :=
  docs.zipIdx.foldl (fun st x => x.1.keys.foldl (SplitSetBuilder.insertKey (wrapAdd 0 x.2)) st) (∅, 0)

/-- The facets of the documents of an open split. -/
def facetsOf (docs : List BuildDoc) : FacetMap :=
  docs.zipIdx.foldl (fun fs x => x.1.facets.foldl (fun fs p => insertFacet fs (wrapAdd 0 x.2) p) fs) ∅

/-- A split that was sealed: its documents, its manifest entry and its files. -/
structure SealedSplit where
  docs : List BuildDoc
  spec : SplitSpec
  bytes : Bytes
  sidecar : NamedFiles

def SealedSplit.file (s : SealedSplit) : String × Bytes := (s.spec.dataFile, s.bytes)

namespace SplitSetBuilder

/-- The builder that has sealed `splits` and drained the first `taken` of them, with `docs` in the open split. -/
def holding (b : SplitSetBuilder) (splits : List SealedSplit) (docs : List BuildDoc) (taken : Nat) :
    SplitSetBuilder :=
  { b with
    openPosts := (postsAndUpper docs).1
    openCount := wrapAdd 0 docs.length
    globalBase := wrapAdd 0 (splits.flatMap SealedSplit.docs).length
    nextGlobalId := wrapAdd 0 (splits.flatMap SealedSplit.docs ++ docs).length
    postingsUpper := (postsAndUpper docs).2
    openFacets := facetsOf docs
    hasFacets := (splits.flatMap SealedSplit.docs ++ docs).any fun d => !d.facets.isEmpty
    specs := splits.map SealedSplit.spec
    blobs := (splits.drop taken).map SealedSplit.file
    facetBlobs := (splits.drop taken).flatMap SealedSplit.sidecar }

section

variable [Roaring] [Unicode]

/-- The split with index `idx` and first id `lo` that the documents make. -/
def cut (b : SplitSetBuilder) (idx lo : Nat) (docs : List BuildDoc) : Except String SealedSplit := do
  let posts := (postsAndUpper docs).1
  let bytes ← writeIndexWith b.gramSize b.stride (serializeEntries posts.toList) b.caseNormalization
  let (more, sidecar) ← sealFacetSidecar (facetsOf docs)
    ⟨b.namePrefix, idx, b.headBoundary, b.caseNormalization, b.facetDigestTop, b.facetDigestV2⟩
  let name := splitStem b.namePrefix idx ++ ".rrs"
  pure ⟨docs, ⟨name, tier b.policy idx, docs.length % u32Bound, lo % u32Bound,
    (lo % u32Bound + (docs.length % u32Bound - 1)) % u32Bound, 0, bytes.length, 0,
    bloomRecord b.bloomBitsPerKey posts ++ more⟩, bytes, sidecar⟩

/-- A document more: the open split is cut off, or the document joins it. -/
def cutStep (b : SplitSetBuilder) (st : List SealedSplit × List BuildDoc) (doc : BuildDoc) :
    Except String (List SealedSplit × List BuildDoc) :=
  if (b.holding st.1 st.2 0).full doc.keys then do
    let s ← b.cut st.1.length (st.1.flatMap SealedSplit.docs).length st.2
    pure (st.1 ++ [s], [doc])
  else pure (st.1, st.2 ++ [doc])

/-- The end of the documents: the open split is cut off, if it has a document. -/
def cutEnd (b : SplitSetBuilder) (st : List SealedSplit × List BuildDoc) :
    Except String (List SealedSplit × List BuildDoc) :=
  if st.2.length % u32Bound = 0 then pure st
  else do
    let s ← b.cut st.1.length (st.1.flatMap SealedSplit.docs).length st.2
    pure (st.1 ++ [s], [])

end

end SplitSetBuilder

theorem wrapAdd_wrapAdd (n m : Nat) : wrapAdd (wrapAdd 0 n).val m = wrapAdd 0 (n + m) := by
  apply Fin.ext
  simp only [wrapAdd, Nat.zero_add]
  exact Nat.mod_add_mod n u32Bound m

theorem postsAndUpper_snoc (docs : List BuildDoc) (doc : BuildDoc) : postsAndUpper (docs ++ [doc]) =
    doc.keys.foldl (SplitSetBuilder.insertKey (wrapAdd 0 docs.length)) (postsAndUpper docs) := by
  unfold postsAndUpper
  rw [List.zipIdx_append, List.foldl_append, Nat.zero_add]
  rfl

theorem facetsOf_snoc (docs : List BuildDoc) (doc : BuildDoc) : facetsOf (docs ++ [doc]) =
    doc.facets.foldl (fun fs p => insertFacet fs (wrapAdd 0 docs.length) p) (facetsOf docs) := by
  unfold facetsOf
  rw [List.zipIdx_append, List.foldl_append, Nat.zero_add]
  rfl

namespace SplitSetBuilder

variable (b : SplitSetBuilder) (splits : List SealedSplit) (docs : List BuildDoc) (taken : Nat)

theorem insertDoc_holding (doc : BuildDoc) :
    (b.holding splits docs taken).insertDoc doc.keys doc.facets = b.holding splits (docs ++ [doc]) taken := by
  simp only [insertDoc, holding, postsAndUpper_snoc, facetsOf_snoc, wrapAdd_wrapAdd, List.length_append,
    List.length_singleton, List.any_append, List.any_cons, List.any_nil, Bool.or_false, Bool.or_assoc, Nat.add_assoc]

/-- What was drained does not count for the seal decision. -/
theorem full_holding (keys : List Key) :
    (b.holding splits docs taken).full keys = (b.holding splits docs 0).full keys := rfl

variable {b splits docs taken}

theorem docs_of_full {keys : List Key} (h : (b.holding splits docs taken).full keys = true) :
    docs.length % u32Bound ≠ 0 := by
  unfold full at h
  rw [Bool.and_eq_true] at h
  have hcount : 0 < (0 + docs.length) % u32Bound := of_decide_eq_true h.1
  rw [Nat.zero_add] at hcount
  omega

theorem holding_snoc (ht : taken ≤ splits.length) (s : SealedSplit) : b.holding (splits ++ [s]) [] taken =
    { b.holding splits s.docs taken with
      openPosts := ∅
      openFacets := ∅
      specs := splits.map SealedSplit.spec ++ [s.spec]
      blobs := (splits.drop taken).map SealedSplit.file ++ [s.file]
      facetBlobs := (splits.drop taken).flatMap SealedSplit.sidecar ++ s.sidecar
      openCount := wrapAdd 0 0
      globalBase := (b.holding splits s.docs taken).nextGlobalId
      postingsUpper := 0 } := by
  simp only [holding, List.flatMap_append, List.flatMap_singleton, List.append_nil, List.map_append, List.map_singleton,
    List.drop_append_of_le_length ht]
  rfl

section

variable [Roaring] [Unicode]

theorem cut_ok {idx lo : Nat} {s : SealedSplit} (h : b.cut idx lo docs = .ok s) : ∃ bytes more sidecar,
    writeIndexWith b.gramSize b.stride (serializeEntries (postsAndUpper docs).1.toList) b.caseNormalization = .ok bytes ∧
    sealFacetSidecar (facetsOf docs) ⟨b.namePrefix, idx, b.headBoundary, b.caseNormalization, b.facetDigestTop,
      b.facetDigestV2⟩ = .ok (more, sidecar) ∧
    s = ⟨docs, ⟨splitStem b.namePrefix idx ++ ".rrs", tier b.policy idx, docs.length % u32Bound, lo % u32Bound,
      (lo % u32Bound + (docs.length % u32Bound - 1)) % u32Bound, 0, bytes.length, 0,
      bloomRecord b.bloomBitsPerKey (postsAndUpper docs).1 ++ more⟩, bytes, sidecar⟩ := by
  unfold cut at h
  cases hbytes : writeIndexWith b.gramSize b.stride (serializeEntries (postsAndUpper docs).1.toList)
      b.caseNormalization with
  | error e =>
    simp only [hbytes, bind, Except.bind] at h
    cases h
  | ok bytes =>
    cases hside : sealFacetSidecar (facetsOf docs)
        ⟨b.namePrefix, idx, b.headBoundary, b.caseNormalization, b.facetDigestTop, b.facetDigestV2⟩ with
    | error e =>
      simp only [hbytes, hside, bind, Except.bind] at h
      cases h
    | ok r =>
      simp only [hbytes, hside, bind, Except.bind] at h
      exact ⟨bytes, r.1, r.2, rfl, rfl, (Except.ok.inj h).symm⟩

theorem docs_of_cut {idx lo : Nat} {s : SealedSplit} (h : b.cut idx lo docs = .ok s) : s.docs = docs := by
  obtain ⟨_, _, _, -, -, rfl⟩ := cut_ok h
  rfl

/-- **A seal cuts the open split off**, if it has a document. -/
theorem seal_holding (ht : taken ≤ splits.length) : (b.holding splits docs taken).seal =
    if docs.length % u32Bound = 0 then .ok (b.holding splits docs taken)
    else (b.cut splits.length (splits.flatMap SealedSplit.docs).length docs).map fun s =>
      b.holding (splits ++ [s]) [] taken := by
  have hcount : (b.holding splits docs taken).openCount.val = docs.length % u32Bound := by
    show (0 + docs.length) % u32Bound = _
    rw [Nat.zero_add]
  have hbase : (b.holding splits docs taken).globalBase.val = (splits.flatMap SealedSplit.docs).length % u32Bound := by
    show (0 + (splits.flatMap SealedSplit.docs).length) % u32Bound = _
    rw [Nat.zero_add]
  have hlen : (b.holding splits docs taken).specs.length = splits.length := by
    show (splits.map SealedSplit.spec).length = _
    rw [List.length_map]
  unfold «seal»
  rw [hcount, hbase, hlen]
  by_cases hz : docs.length % u32Bound = 0
  · rw [if_pos hz, if_pos hz]
  · rw [if_neg hz, if_neg hz]
    unfold cut
    simp only [holding_snoc ht]
    cases hbytes : writeIndexWith b.gramSize b.stride (serializeEntries (postsAndUpper docs).1.toList)
        b.caseNormalization with
    | error e =>
      simp only [holding, hbytes]
      rfl
    | ok bytes =>
      cases hside : sealFacetSidecar (facetsOf docs)
          ⟨b.namePrefix, splits.length, b.headBoundary, b.caseNormalization, b.facetDigestTop, b.facetDigestV2⟩ with
      | error e =>
        simp only [holding, hbytes, hside]
        rfl
      | ok r =>
        simp only [holding, hbytes, hside]
        rfl

theorem finish_holding (ht : taken ≤ splits.length) : (b.holding splits docs taken).finish =
    (b.cutEnd (splits, docs)).bind fun st => (b.holding st.1 st.2 0).manifest.map fun manifest =>
      ⟨manifest, (st.1.drop taken).map SealedSplit.file, (st.1.drop taken).flatMap SealedSplit.sidecar⟩ := by
  unfold finish cutEnd
  rw [seal_holding ht]
  by_cases hz : docs.length % u32Bound = 0
  · rw [if_pos hz, if_pos hz]
    rfl
  · rw [if_neg hz, if_neg hz]
    cases hcut : b.cut splits.length (splits.flatMap SealedSplit.docs).length docs with
    | error e => rfl
    | ok s => rfl

/-- **A document added is one step of the cut.** -/
theorem addInner_holding (ht : taken ≤ splits.length) (doc : BuildDoc) :
    (b.holding splits docs taken).addInner doc.keys doc.facets = (b.cutStep (splits, docs) doc).map fun st =>
      (wrapAdd 0 (splits.flatMap SealedSplit.docs ++ docs).length, b.holding st.1 st.2 taken) := by
  unfold addInner sealIfFull cutStep
  rw [full_holding]
  by_cases hfull : (b.holding splits docs 0).full doc.keys = true
  · rw [if_pos hfull, if_pos hfull, seal_holding ht, if_neg (docs_of_full hfull)]
    cases hcut : b.cut splits.length (splits.flatMap SealedSplit.docs).length docs with
    | error e => rfl
    | ok s =>
      have hnext : (b.holding (splits ++ [s]) [] taken).nextGlobalId =
          wrapAdd 0 (splits.flatMap SealedSplit.docs ++ docs).length := by
        rw [holding_snoc ht, docs_of_cut hcut]
        rfl
      simp only [bind, Except.bind, pure, Except.pure, Except.map, insertDoc_holding, hnext]
      rfl
  · rw [if_neg hfull, if_neg hfull]
    simp only [bind, Except.bind, pure, Except.pure, Except.map, insertDoc_holding]
    rfl

end

end SplitSetBuilder

end RoaringRange
