import RoaringRange.SplitSetBuild

/-!
# The split-set writer (`splitset_write.rs`)

A writer collects documents and deletes in memory.  `flush` seals them into a delta split and emits a manifest of
all splits, `compact` merges delta splits into one with absolute ids, and a writer that was dropped is resumed from
the manifest last emitted.  Both put the new split among the splits they hold, and forget what it was made of, before
they know that its manifest can be written.

    flush returns an error and the writer is as before it, or none      ↔ FlushFits    (flush_atomic_iff)
    compact returns an error and the writer is as before it, or none    ↔ CompactFits  (compact_atomic_iff)
-/

namespace RoaringRange

open ByteString Faults Slices

/-! ## Configuration and outputs -/

/-- The integers of a writer are within their types. -/
structure WriterFits (gramSize stride byteCap tierCount : Nat) (sortcol : Option SortColDescriptor) : Prop where
  gramSize_lt : gramSize < 2 ^ 16
  stride_lt : stride < 2 ^ 32
  byteCap_lt : byteCap < 2 ^ 64
  tierCount_lt : tierCount < 2 ^ 16
  sortcol_lt : ∀ sc, sortcol = some sc → sc.column < 2 ^ 16

structure WriterConfig where
  gramSize : Nat
  headBoundary : Nat
  stride : Nat
  byteCap : Nat
  namePrefix : String
  policy : Policy
  tierCount : Nat
  sortcol : Option SortColDescriptor
  bloomBitsPerKey : Nat
  caseSensitive : Bool
  fits : WriterFits gramSize stride byteCap tierCount sortcol

def WriterConfig.new (policy : Policy) (byteCap gramSize : Nat) (namePrefix : String)
    (h : WriterFits gramSize 0 byteCap 0 none) : WriterConfig where
  gramSize := gramSize
  headBoundary := 0
  stride := 0
  byteCap := byteCap
  namePrefix := namePrefix
  policy := policy
  tierCount := 0
  sortcol := none
  bloomBitsPerKey := 0
  caseSensitive := false
  fits := h

structure FlushOutput where
  splitName : String
  splitBytes : Bytes
  manifest : Bytes

structure CompactOutput where
  splitName : String
  splitBytes : Bytes
  manifest : Bytes
  removed : List String

structure SplitSetWriter where
  gramSize : Nat
  stride : Nat
  byteCap : Nat
  namePrefix : String
  policy : Policy
  tierCount : Nat
  sortcol : Option SortColDescriptor
  bloomBitsPerKey : Nat
  caseNormalization : Bool
  baseCount : Nat
  specs : List SplitSpec
  nextGlobalId : Fin u32Bound
  nextEpoch : Nat
  flushSeq : Fin u32Bound
  compactSeq : Fin u32Bound
  memtable : PostMap
  memtableBase : Fin u32Bound
  memtableCount : Fin u32Bound
  pendingDeletes : Bitmap

/-! ## Names of delta splits -/

/-- `‹prefix›‹marker›‹seq›.rrs`. -/
def seqName (namePrefix marker : String) (seq : Nat) : String := namePrefix ++ marker ++ paddedIdx seq ++ ".rrs"

/-- The digits of `str::parse::<u32>`, after a sign that may be there. -/
def unsigned : List Char → List Char
  | '+' :: rest => rest
  | s => s

/-- `str::parse::<u32>`. -/
def parseU32 (s : List Char) : Option Nat :=
  let digits := unsigned s
  if digits.isEmpty || !digits.all Char.isDigit then none
  else if Nat.ofDigitChars 10 digits 0 < u32Bound then some (Nat.ofDigitChars 10 digits 0)
  else none

/-- The number in a name `‹prefix›‹marker›‹seq›.rrs`. -/
def seqOf (namePrefix marker dataFile : String) : Option Nat := do
  let rest ← stripPrefix dataFile namePrefix
  let rest ← stripPrefix rest marker
  let digits ← stripSuffix rest ".rrs"
  parseU32 digits.toList

/-! ## Reading the inputs of a compaction -/

section

variable [Roaring]

def tombstoneTlv (dead : Bitmap) : Bytes := tlvRecord summaryTagTombstone (serialize dead)

def parseTombstone (summary : Bytes) : Except String (Option Bitmap) :=
  match findTlv summary summaryTagTombstone with
  | .error e => .error e.display
  | .ok none => .ok none
  | .ok (some bytes) =>
    match deserialize bytes with
    | .error e => .error e.display
    | .ok bm => .ok (some bm)

/-- `read` of `read_rrs_entries`. -/
def readRrsPosting (bytes : Bytes) (off len : Nat) : Except String Bitmap :=
  if bytes.length < off + len ∨ u64Bound ≤ off + len then .error "RRSS compact: posting out of range"
  else
    match deserialize (slice bytes off len) with
    | .error e => .error e.display
    | .ok bm => .ok bm

/-- A dictionary row of `read_rrs_entries`, and its posting. -/
def readRrsEntry (bytes : Bytes) (base : Nat) : Except String (Key × Bitmap) :=
  if bytes.length < base + 20 then .error "RRSS compact: truncated dictionary"
  else do
    let bm ← readRrsPosting bytes (getLe 8 bytes (base + 8)) (getLe 4 bytes (base + 16))
    pure (getKey bytes base, bm)

def readRrsEntries (bytes : Bytes) : Except String (List (Key × Bitmap)) :=
  if bytes.length < 16 ∨ slice bytes 0 4 ≠ rrsMagic then .error "RRSS compact: input is not an RRS split"
  else
    let ngrams := getLe 4 bytes 8
    let stride := getLe 4 bytes 12
    let sparseCount := if ngrams = 0 ∨ stride = 0 then 0 else (ngrams + stride - 1) / stride
    let dictStart := 16 + sparseCount * 8
    collect ((List.range ngrams).map fun i => readRrsEntry bytes (dictStart + i * 20))

end

theorem saturate_lt (x : Nat) : min x (u32Bound - 1) < u32Bound :=
  Nat.lt_of_le_of_lt (Nat.min_le_right _ _) (by decide)

theorem saturated_lt {base : Nat} {ids : List Nat} : ∀ x ∈ ids.map fun l => min (base + l) (u32Bound - 1), x < u32Bound := by
  intro x hx
  obtain ⟨l, -, rfl⟩ := List.mem_map.mp hx
  exact saturate_lt _

/-- The ids of a delta split from `base`, saturating. -/
def rebase (base : Nat) (bm : Bitmap) : Bitmap :=
  AscSet.ofList (bm.toList.map fun l => min (base + l) (u32Bound - 1)) saturated_lt

/-- `*merged.entry(key).or_default() |= bm`. -/
def mergePosting (merged : PostMap) (e : Key × Bitmap) : PostMap := merged.update e.1 fun bm => bm.getD ∅ ∪ e.2

/-! ## The writer -/

def nonzeroOr (v default : Nat) : Nat := if v = 0 then default else v

namespace SplitSetWriter

def new (config : WriterConfig) : SplitSetWriter where
  gramSize := config.gramSize
  stride := nonzeroOr config.stride defaultStride
  byteCap := config.byteCap
  namePrefix := config.namePrefix
  policy := config.policy
  tierCount := config.tierCount
  sortcol := config.sortcol
  bloomBitsPerKey := config.bloomBitsPerKey
  caseNormalization := !config.caseSensitive
  baseCount := 0
  specs := []
  nextGlobalId := wrapAdd 0 0
  nextEpoch := 1
  flushSeq := wrapAdd 0 0
  compactSeq := wrapAdd 0 0
  memtable := ∅
  memtableBase := wrapAdd 0 0
  memtableCount := wrapAdd 0 0
  pendingDeletes := ∅

/-- A split of the manifest, as the writer carries it. -/
def carried (prev : SplitSet) (s : Split) : SplitSpec where
  dataFile := s.dataFile
  tier := s.tier
  docCount := s.docCount
  docIdLo := s.docIdLo
  docIdHi := s.docIdHi
  epoch := s.epoch
  byteSize := s.byteSize
  flags := s.flags
  summary := (prev.summary s).getD []

/-- The id after the last one of a split that holds documents. -/
def nextIdOf (splits : List Split) : Nat :=
  (((splits.filter fun s => 0 < s.docCount).map fun s => min (s.docIdHi + 1) (u32Bound - 1)).max?).getD 0

/-- `next_seq` of `SplitSetWriter::resume`. -/
def nextSeq (splits : List Split) (namePrefix marker : String) : Fin u32Bound :=
  match (splits.filterMap fun s => seqOf namePrefix marker s.dataFile).max? with
  | none => wrapAdd 0 0
  | some m => wrapAdd m 1

def resume (prev : SplitSet) (gramSize stride : Nat) (namePrefix : String) (bloomBitsPerKey : Nat) :
    SplitSetWriter where
  gramSize := gramSize
  stride := nonzeroOr stride defaultStride
  byteCap := prev.byteCap
  namePrefix := namePrefix
  policy := prev.policy
  tierCount := prev.tierCount
  sortcol := prev.sortcol
  bloomBitsPerKey := bloomBitsPerKey
  caseNormalization := !hasFlag prev.flags flagCaseSensitive
  baseCount := prev.baseCount
  specs := prev.splits.map (carried prev)
  nextGlobalId := wrapAdd (nextIdOf prev.splits) 0
  nextEpoch := (((prev.splits.map Split.epoch).max?).getD 0 + 1) % u64Bound
  flushSeq := nextSeq prev.splits namePrefix "-d"
  compactSeq := nextSeq prev.splits namePrefix "-c"
  memtable := ∅
  memtableBase := wrapAdd (nextIdOf prev.splits) 0
  memtableCount := wrapAdd 0 0
  pendingDeletes := ∅

/-- `SplitSetWriter::add_keys`: the document's global id, and the writer. -/
def addKeys (w : SplitSetWriter) (keys : List Key) : Fin u32Bound × SplitSetWriter :=
  (w.nextGlobalId, { w with
    memtableBase := if w.memtableCount.val = 0 then w.nextGlobalId else w.memtableBase
    memtable := w.memtable.add w.memtableCount keys
    memtableCount := wrapAdd w.memtableCount.val 1
    nextGlobalId := wrapAdd w.nextGlobalId.val 1 })

def addText [Unicode] (w : SplitSetWriter) (text : String) : Fin u32Bound × SplitSetWriter :=
  w.addKeys (ngramKeysWith text w.gramSize w.caseNormalization)

def delete (w : SplitSetWriter) (globalId : Fin u32Bound) : SplitSetWriter :=
  { w with pendingDeletes := w.pendingDeletes.insert globalId.val globalId.isLt }

/-- The configuration of `SplitSetWriter::emit_manifest`. -/
def manifestConfig (w : SplitSetWriter) : SplitSetConfig where
  policy := w.policy
  tierCount := w.tierCount
  baseCount := w.baseCount % u32Bound
  byteCap := w.byteCap
  gramSize := w.gramSize
  bodyKind := .trigram
  sortcol := w.sortcol
  flags := (if w.specs.any fun s => hasFlag s.flags splitFlagHasTombstone then flagTombstones else 0) |||
    (if 0 < w.bloomBitsPerKey then flagBloom else 0) ||| (if w.caseNormalization then 0 else flagCaseSensitive)

def emitManifest (w : SplitSetWriter) : Except String Bytes := writeSplitset w.specs w.manifestConfig

/-- The Bloom record of a new split. -/
def bloomTlv (w : SplitSetWriter) (keys : List Key) (wanted : Bool) : Bytes :=
  if 0 < w.bloomBitsPerKey && wanted then tlvRecord summaryTagBloom (bloomBuild keys w.bloomBitsPerKey) else []

section

variable [Roaring]

/-- The index file of the postings. -/
def indexFile (w : SplitSetWriter) (posts : PostMap) : Except String Bytes :=
  writeIndexWith w.gramSize w.stride (serializeEntries posts.toList) w.caseNormalization

/-- The tombstone record of a new split, if it has superseded ids. -/
def tombstoneRecord (dead : Bitmap) : Bytes := if dead.isEmpty then [] else tombstoneTlv dead

/-- The manifest entry of a flushed split. -/
def deltaSpec (w : SplitSetWriter) (byteSize : Nat) : SplitSpec where
  dataFile := seqName w.namePrefix "-d" w.flushSeq.val
  tier := 0
  docCount := w.memtableCount.val
  docIdLo := if 0 < w.memtableCount.val then w.memtableBase.val else w.nextGlobalId.val
  docIdHi := if 0 < w.memtableCount.val then (wrapAdd w.memtableBase.val (w.memtableCount.val - 1)).val
    else w.nextGlobalId.val
  epoch := w.nextEpoch
  byteSize := byteSize
  flags := if w.pendingDeletes.isEmpty then 0 else splitFlagHasTombstone
  summary := w.bloomTlv w.memtable.keys (0 < w.memtableCount.val) ++ tombstoneRecord w.pendingDeletes

/-- The writer with the split flushed, before its manifest is emitted. -/
def flushed (w : SplitSetWriter) (byteSize : Nat) : SplitSetWriter :=
  { w with
    flushSeq := wrapAdd w.flushSeq.val 1
    specs := w.specs ++ [w.deltaSpec byteSize]
    nextEpoch := (w.nextEpoch + 1) % u64Bound
    memtable := ∅
    memtableCount := wrapAdd 0 0
    pendingDeletes := ∅ }

/-- `SplitSetWriter::flush`: what it returns, and the writer it leaves. -/
def flush (w : SplitSetWriter) : Except String (Option FlushOutput) × SplitSetWriter :=
  if w.memtableCount.val = 0 && w.pendingDeletes.isEmpty then (.ok none, w)
  else
    match w.indexFile w.memtable with
    | .error e => (.error e, w)
    | .ok bytes =>
      ((w.flushed bytes.length).emitManifest.map fun manifest =>
        some ⟨seqName w.namePrefix "-d" w.flushSeq.val, bytes, manifest⟩, w.flushed bytes.length)

/-- The postings of an input of a compaction, with global ids. -/
def inputPostings (spec : SplitSpec) (entries : List (Key × Bitmap)) : List (Key × Bitmap) :=
  entries.map fun e => (e.1, if hasFlag spec.flags splitFlagAbsoluteIds then e.2 else rebase spec.docIdLo e.2)

/-- One input of a compaction: its postings, and the ids it supersedes. -/
def gatherInput (w : SplitSetWriter) (st : PostMap × Bitmap) (input : String × Bytes) :
    Except String (PostMap × Bitmap) :=
  match w.specs.findIdx? fun s => s.dataFile = input.1 with
  | none => .error ("RRSS compact: " ++ debugText input.1 ++ " not in manifest")
  | some idx =>
    if idx < w.baseCount then .error "RRSS compact: base splits need a full rebuild, not minor compaction"
    else
      match w.specs[idx]? with
      | none => .ok st
      | some spec => do
        let tombstone ← parseTombstone spec.summary
        let entries ← readRrsEntries input.2
        pure ((inputPostings spec entries).foldl mergePosting st.1, st.2 ∪ tombstone.getD ∅)

/-- The inputs of a compaction, one after the other: the postings of all, and the ids they supersede. -/
def gather (w : SplitSetWriter) (inputs : List (String × Bytes)) : Except String (PostMap × Bitmap) :=
  inputs.foldlM w.gatherInput (∅, ∅)

/-- The postings without the superseded ids; a key without postings goes. -/
def surviving (merged : PostMap) (dead : Bitmap) : PostMap :=
  (merged.mapValues fun bm => bm \ dead).retain fun bm => !bm.isEmpty

/-- The ids that have a posting. -/
def present (merged : PostMap) : Bitmap := AscSet.unions merged.values

/-- The epoch of a merged split: the latest of its inputs. -/
def mergedEpoch (w : SplitSetWriter) (inputs : List (String × Bytes)) : Nat :=
  ((inputs.filterMap fun i => (w.specs.find? fun s => s.dataFile = i.1).map SplitSpec.epoch).max?).getD w.nextEpoch

/-- The manifest entry of a merged split. -/
def mergedSpec (w : SplitSetWriter) (inputs : List (String × Bytes)) (merged : PostMap) (dead : Bitmap)
    (byteSize : Nat) : SplitSpec where
  dataFile := seqName w.namePrefix "-c" w.compactSeq.val
  tier := 0
  docCount := (present merged).len % u32Bound
  docIdLo := (present merged).toList.headD 0
  docIdHi := (present merged).toList.getLastD 0
  epoch := w.mergedEpoch inputs
  byteSize := byteSize
  flags := splitFlagAbsoluteIds ||| (if dead.isEmpty then 0 else splitFlagHasTombstone)
  summary := w.bloomTlv merged.keys (!merged.isEmpty) ++ tombstoneRecord dead

/-- The splits a compaction leaves in place. -/
def kept (w : SplitSetWriter) (inputs : List (String × Bytes)) : List SplitSpec :=
  w.specs.filter fun s => !(inputs.map Prod.fst).contains s.dataFile

/-- The writer with the splits merged, before its manifest is emitted. -/
def compacted (w : SplitSetWriter) (inputs : List (String × Bytes)) (merged : PostMap) (dead : Bitmap)
    (byteSize : Nat) : SplitSetWriter :=
  { w with
    compactSeq := wrapAdd w.compactSeq.val 1
    specs := w.kept inputs ++ [w.mergedSpec inputs merged dead byteSize] }

/-- `SplitSetWriter::compact`: what it returns, and the writer it leaves. -/
def compact (w : SplitSetWriter) (inputs : List (String × Bytes)) : Except String CompactOutput × SplitSetWriter :=
  match w.gather inputs with
  | .error e => (.error e, w)
  | .ok (merged, dead) =>
    let merged := surviving merged dead
    match w.indexFile merged with
    | .error e => (.error e, w)
    | .ok bytes =>
      let w' := w.compacted inputs merged dead bytes.length
      (w'.emitManifest.map fun manifest =>
        ⟨seqName w.namePrefix "-c" w.compactSeq.val, bytes, manifest, inputs.map Prod.fst⟩, w')

end

end SplitSetWriter

/-! ## Errors -/

/-- An index file of distinct keys can always be written. -/
theorem exists_writeIndexWith (gramSize stride : Nat) (caseFold : Bool) {entries : List (Key × Bytes)}
    (hnd : (entries.map Prod.fst).Nodup) (hlen : ∀ e ∈ entries, e.2.length < 2 ^ 32) :
    ∃ bytes, writeIndexWith gramSize stride entries caseFold = .ok bytes := by
  have hperm := sortByKey_perm Prod.fst entries
  have hnd' : (sortByKey Prod.fst entries).Pairwise (fun a b => a.1 ≠ b.1) :=
    List.pairwise_map.mp ((hperm.map Prod.fst).nodup_iff.mpr hnd)
  have hdup : ((sortByKey Prod.fst entries).zip (sortByKey Prod.fst entries).tail).any
      (fun w => w.1.1 == w.2.1) = false := by
    rw [List.any_eq_false]
    intro w hw
    obtain ⟨i, hi, rfl⟩ := List.getElem_of_mem hw
    rw [List.length_zip, List.length_tail] at hi
    rw [List.getElem_zip, List.getElem_tail]
    simpa using List.pairwise_iff_getElem.mp hnd' i (i + 1) (by omega) (by omega) (by omega)
  unfold writeIndexWith
  simp only [hdup, Bool.false_eq_true, if_false]
  rw [writeDict_eq fun e he => hlen e (hperm.mem_iff.mp he)]
  exact ⟨_, rfl⟩

namespace SplitSetWriter

variable [Roaring] {w : SplitSetWriter} {inputs : List (String × Bytes)}

theorem exists_indexFile (w : SplitSetWriter) (posts : PostMap) : ∃ bytes, w.indexFile posts = .ok bytes := by
  apply exists_writeIndexWith
  · have : (serializeEntries posts.toList).map Prod.fst = posts.keys := by
      rw [serializeEntries, List.map_map]
      rfl
    rw [this]
    exact posts.keys_nodup
  · intro e he
    obtain ⟨p, -, rfl⟩ := List.mem_map.mp he
    exact Nat.lt_trans (Roaring.length_serialize_lt p.2) (by decide)

/-- The summary of a new split always fits. -/
theorem length_newSummary_lt (w : SplitSetWriter) (keys : List Key) (wanted : Bool) (dead : Bitmap) :
    (w.bloomTlv keys wanted ++ tombstoneRecord dead).length < 2 ^ 32 := by
  have hbloom : (w.bloomTlv keys wanted).length ≤ 5 + 2 ^ 30 := by
    unfold bloomTlv
    split
    · rw [tlvRecord, Tlv.length_record]
      exact Nat.add_le_add_left (Nat.le_of_lt (length_bloomBuild_lt _ _)) _
    · exact Nat.zero_le _
  have hdead : (tombstoneRecord dead).length ≤ 5 + 2 ^ 30 := by
    unfold tombstoneRecord
    split
    · exact Nat.zero_le _
    · rw [tombstoneTlv, tlvRecord, Tlv.length_record]
      exact Nat.add_le_add_left (Nat.le_of_lt (Roaring.length_serialize_lt _)) _
  rw [List.length_append]
  omega

/-- The splits, and a new one under a name, fit the manifest of the writer. -/
structure NameFits (w : SplitSetWriter) (specs : List SplitSpec) (name : String) : Prop where
  count_lt : specs.length + 1 < 2 ^ 32
  base_le : w.baseCount % u32Bound ≤ specs.length + 1
  name_lt : (utf8 name).length < 2 ^ 16
  names_lt : ∀ s ∈ specs, (utf8 s.dataFile).length < 2 ^ 16
  sortcol_lt : ∀ sc, w.sortcol = some sc → (utf8 sc.name).length < 2 ^ 16
  blob_lt : ((specs.flatMap fun s => utf8 s.dataFile) ++ utf8 name ++
    (w.sortcol.map fun sc => utf8 sc.name).getD []).length < 2 ^ 32
  summaries_lt : ∀ s ∈ specs, s.summary.length < 2 ^ 32

omit [Roaring] in
/-- The manifest of the splits and the new one can be written just when they fit. -/
theorem emitManifest_ok_iff {w w' : SplitSetWriter} {specs : List SplitSpec} {spec : SplitSpec}
    (hspecs : w'.specs = specs ++ [spec]) (hbase : w'.baseCount = w.baseCount) (hsort : w'.sortcol = w.sortcol)
    (hsum : spec.summary.length < 2 ^ 32) :
    (∃ manifest, w'.emitManifest = .ok manifest) ↔ w.NameFits specs spec.dataFile := by
  unfold emitManifest
  rw [writeSplitset_ok_iff]
  have hmem : ∀ p : SplitSpec → Prop, (∀ s ∈ specs ++ [spec], p s) ↔ (∀ s ∈ specs, p s) ∧ p spec := by
    simp [or_imp, forall_and]
  have hblob : nameBytes (specs ++ [spec]) w.sortcol =
      (specs.flatMap fun s => utf8 s.dataFile) ++ utf8 spec.dataFile ++ (w.sortcol.map fun sc => utf8 sc.name).getD [] := by
    simp [nameBytes]
  constructor
  · rintro ⟨h1, h2, h3, h4, h5, h6⟩
    simp only [manifestConfig, hspecs, hbase, hsort, hmem, hblob, List.length_append, List.length_singleton] at h1 h2 h3 h4 h5 h6
    exact ⟨h1, h2, h3.2, h3.1, h4, by simpa only [List.length_append] using h5, h6.1⟩
  · rintro ⟨h1, h2, h3, h4, h5, h6, h7⟩
    refine ⟨?_, ?_, ?_, ?_, ?_, ?_⟩
    · simpa only [hspecs, List.length_append, List.length_singleton] using h1
    · simpa only [manifestConfig, hspecs, hbase, List.length_append, List.length_singleton] using h2
    · rw [hspecs, hmem]
      exact ⟨h4, h3⟩
    · simpa only [manifestConfig, hsort] using h5
    · simpa only [manifestConfig, hspecs, hsort, hblob] using h6
    · rw [hspecs, hmem]
      exact ⟨h7, hsum⟩

/-- The manifest after a flush can be written just when the name of the new split fits. -/
theorem emit_flushed_iff (w : SplitSetWriter) (byteSize : Nat) :
    (∃ manifest, (w.flushed byteSize).emitManifest = .ok manifest) ↔
      w.NameFits w.specs (seqName w.namePrefix "-d" w.flushSeq.val) := by
  have hemit : (∃ manifest, (w.flushed byteSize).emitManifest = .ok manifest) ↔
      w.NameFits w.specs (w.deltaSpec byteSize).dataFile :=
    emitManifest_ok_iff rfl rfl rfl (w.length_newSummary_lt _ _ _)
  exact hemit

/-- The manifest after a compaction can be written just when the name of the merged split fits. -/
theorem emit_compacted_iff (w : SplitSetWriter) (inputs : List (String × Bytes)) (merged : PostMap) (dead : Bitmap)
    (byteSize : Nat) : (∃ manifest, (w.compacted inputs merged dead byteSize).emitManifest = .ok manifest) ↔
      w.NameFits (w.kept inputs) (seqName w.namePrefix "-c" w.compactSeq.val) := by
  have hemit : (∃ manifest, (w.compacted inputs merged dead byteSize).emitManifest = .ok manifest) ↔
      w.NameFits (w.kept inputs) (w.mergedSpec inputs merged dead byteSize).dataFile :=
    emitManifest_ok_iff rfl rfl rfl (w.length_newSummary_lt _ _ _)
  exact hemit

/-- Where `flush` returns an error, the writer is as before it. -/
def FlushAtomic (w : SplitSetWriter) : Prop := ∀ e w', w.flush = (.error e, w') → w' = w

/-- Where `compact` returns an error, the writer is as before it. -/
def CompactAtomic (w : SplitSetWriter) (inputs : List (String × Bytes)) : Prop :=
  ∀ e w', w.compact inputs = (.error e, w') → w' = w

/-- There is nothing to flush, or the name of the new split fits the manifest with those of the others. -/
def FlushFits (w : SplitSetWriter) : Prop :=
  (w.memtableCount.val = 0 ∧ w.pendingDeletes.isEmpty = true) ∨
    w.NameFits w.specs (seqName w.namePrefix "-d" w.flushSeq.val)

/-- An input is refused, or the name of the merged split fits the manifest with those of the others. -/
def CompactFits (w : SplitSetWriter) (inputs : List (String × Bytes)) : Prop :=
  (∃ e, w.gather inputs = .error e) ∨ w.NameFits (w.kept inputs) (seqName w.namePrefix "-c" w.compactSeq.val)

/-- What `flush` does where there is something to flush. -/
theorem flush_eq (h : ¬ (w.memtableCount.val = 0 ∧ w.pendingDeletes.isEmpty = true)) :
    ∃ bytes, w.indexFile w.memtable = .ok bytes ∧ w.flush =
      ((w.flushed bytes.length).emitManifest.map fun manifest =>
        some ⟨seqName w.namePrefix "-d" w.flushSeq.val, bytes, manifest⟩, w.flushed bytes.length) := by
  obtain ⟨bytes, hbytes⟩ := w.exists_indexFile w.memtable
  refine ⟨bytes, hbytes, ?_⟩
  unfold flush
  rw [if_neg (by simpa using h), hbytes]

/-- What `compact` does with inputs that are not refused. -/
theorem compact_eq {merged : PostMap} {dead : Bitmap} (h : w.gather inputs = .ok (merged, dead)) :
    ∃ bytes, w.indexFile (surviving merged dead) = .ok bytes ∧ w.compact inputs =
      ((w.compacted inputs (surviving merged dead) dead bytes.length).emitManifest.map fun manifest =>
        ⟨seqName w.namePrefix "-c" w.compactSeq.val, bytes, manifest, inputs.map Prod.fst⟩,
        w.compacted inputs (surviving merged dead) dead bytes.length) := by
  obtain ⟨bytes, hbytes⟩ := w.exists_indexFile (surviving merged dead)
  refine ⟨bytes, hbytes, ?_⟩
  unfold compact
  rw [h]
  simp only
  rw [hbytes]

omit [Roaring] in
theorem wrapAdd_one_ne (n : Fin u32Bound) : wrapAdd n.val 1 ≠ n := by
  intro h
  have hv : (n.val + 1) % u32Bound = n.val := congrArg Fin.val h
  have hlt := n.isLt
  unfold u32Bound at hv hlt
  omega

theorem flushed_ne (w : SplitSetWriter) (byteSize : Nat) : w.flushed byteSize ≠ w := by
  intro h
  exact wrapAdd_one_ne _ (congrArg flushSeq h)

theorem compacted_ne (w : SplitSetWriter) (inputs : List (String × Bytes)) (merged : PostMap) (dead : Bitmap)
    (byteSize : Nat) : w.compacted inputs merged dead byteSize ≠ w := by
  intro h
  exact wrapAdd_one_ne _ (congrArg compactSeq h)

omit [Roaring] in
/-- A call that has changed the writer is atomic just when its manifest is written. -/
theorem atomic_iff {α β : Type} {x : Except String α} {f : α → β} {w' : SplitSetWriter} (hne : w' ≠ w) :
    (∀ e w'', (x.map f, w') = (.error e, w'') → w'' = w) ↔ ∃ r, x = .ok r := by
  cases x with
  | error e =>
    constructor
    · intro h
      exact absurd (h e w' rfl) hne
    · rintro ⟨r, hr⟩
      cases hr
  | ok r =>
    constructor
    · intro _
      exact ⟨r, rfl⟩
    · rintro _ e w'' h
      cases h

theorem flush_atomic_iff (w : SplitSetWriter) : w.FlushAtomic ↔ w.FlushFits := by
  by_cases h : w.memtableCount.val = 0 ∧ w.pendingDeletes.isEmpty = true
  · have hnone : w.flush = (.ok none, w) := by
      unfold flush
      rw [if_pos (by simpa using h)]
    refine ⟨fun _ => Or.inl h, fun _ e w' heq => ?_⟩
    rw [hnone] at heq
    cases heq
  · obtain ⟨bytes, -, hflush⟩ := flush_eq h
    unfold FlushAtomic FlushFits
    rw [hflush, atomic_iff (w.flushed_ne _), or_iff_right h]
    exact w.emit_flushed_iff _

theorem compact_atomic_iff (w : SplitSetWriter) (inputs : List (String × Bytes)) :
    w.CompactAtomic inputs ↔ w.CompactFits inputs := by
  unfold CompactAtomic CompactFits
  cases hg : w.gather inputs with
  | error e =>
    refine ⟨fun _ => Or.inl ⟨e, rfl⟩, fun _ e' w' heq => ?_⟩
    unfold compact at heq
    rw [hg] at heq
    cases heq
    rfl
  | ok r =>
    obtain ⟨merged, dead⟩ := r
    obtain ⟨bytes, -, hcompact⟩ := compact_eq hg
    rw [hcompact, atomic_iff (w.compacted_ne _ _ _ _), emit_compacted_iff]
    refine ⟨Or.inr, fun h => ?_⟩
    rcases h with ⟨e, he⟩ | h
    · cases he
    · exact h

/-- **`flush` and `compact` leave the writer as it was where they fail** just when the names fit: the manifest is
emitted last, and nothing is put back. -/
theorem writer_atomic_iff (w : SplitSetWriter) :
    (w.FlushAtomic ↔ w.FlushFits) ∧ ∀ inputs, w.CompactAtomic inputs ↔ w.CompactFits inputs :=
  ⟨w.flush_atomic_iff, w.compact_atomic_iff⟩

/-- With a prefix of 65536 bytes every flush of a document fails and forgets the document. -/
theorem flush_long_prefix (hlong : 2 ^ 16 ≤ (utf8 w.namePrefix).length) (hsome : w.memtableCount.val ≠ 0) :
    ∃ e w', w.flush = (.error e, w') ∧ w' ≠ w ∧ w'.memtableCount.val = 0 ∧ w'.specs.length = w.specs.length + 1 := by
  obtain ⟨bytes, -, hflush⟩ := flush_eq fun h => hsome h.1
  have hnot : ¬ ∃ manifest, (w.flushed bytes.length).emitManifest = .ok manifest := by
    intro hemit
    have hname := ((w.emit_flushed_iff _).mp hemit).name_lt
    unfold seqName at hname
    rw [String.append_assoc, String.append_assoc, utf8_append, List.length_append] at hname
    omega
  rw [hflush]
  cases hemit : (w.flushed bytes.length).emitManifest with
  | error e => exact ⟨e, _, rfl, flushed_ne _ _, rfl, List.length_append⟩
  | ok manifest => exact absurd ⟨manifest, hemit⟩ hnot

/-- A writer whose file names begin with `namePrefix`. -/
def namedConfig (namePrefix : String) : WriterConfig where
  gramSize := 3
  headBoundary := 0
  stride := 0
  byteCap := 1
  namePrefix := namePrefix
  policy := .tiered
  tierCount := 0
  sortcol := none
  bloomBitsPerKey := 0
  caseSensitive := false
  fits := ⟨by decide, by decide, by decide, by decide, by simp⟩

end SplitSetWriter

section

open SplitSetWriter

attribute [local instance] PortableCodec.roaring

/-- The first flush under a prefix of 65536 bytes fails, and the document added before it is gone. -/
theorem SplitSetWriter.flush_loses_doc : ∃ namePrefix e w',
    ((new (namedConfig namePrefix)).addKeys []).2.flush = (.error e, w') ∧
    w' ≠ ((new (namedConfig namePrefix)).addKeys []).2 ∧ w'.memtableCount.val = 0 ∧ w'.specs.length = 1 :=
  ⟨String.ofList (List.replicate (2 ^ 16) 'a'),
    flush_long_prefix (Nat.le_of_eq (length_utf8_replicate (2 ^ 16)).symm) Nat.one_ne_zero⟩

end

end RoaringRange
