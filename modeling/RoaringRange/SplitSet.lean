import RoaringRange.Lib.Tlv
import RoaringRange.Fetch
import RoaringRange.Bitmap

/-!
# The RRSS split-set manifest (`splitset.rs`)

A manifest names the splits of a set, base splits first and delta splits after them.  Of each split it
records the data file, the doc-id range, flags, and a summary region of tag-length-value records (term
Bloom filter, facet presence, tombstones).  The whole manifest is made resident by two reads.
-/

namespace RoaringRange

open ByteString Faults

/-- `RRSS`. -/
def rrssMagic : Bytes := [82, 82, 83, 83]

/-- `splitset::HEADER_SIZE`. -/
def rrssHeaderSize : Nat := 64

/-- `splitset::ENTRY_SIZE`. -/
def rrssEntrySize : Nat := 56

/-- `splitset::VERSION`. -/
def rrssVersion : Nat := 1

def flagBloom : Nat := 1
def flagFacet : Nat := 2
def flagTime : Nat := 4
def flagTombstones : Nat := 8
def flagCaseSensitive : Nat := 16

def splitFlagHasTombstone : Nat := 1
def splitFlagAbsoluteIds : Nat := 2

def sortcolFlagDescending : Nat := 1

def summaryTagBloom : Nat := 1
def summaryTagFacet : Nat := 2
def summaryTagFacetDigest : Nat := 3
def summaryTagTombstone : Nat := 4
def summaryTagFacetDigestV2 : Nat := 6

/-- `flags & bit != 0`. -/
def hasFlag (flags bit : Nat) : Bool := flags &&& bit ≠ 0

/-- `splitset::BodyKind`. -/
inductive BodyKind where
  | trigram
  | term
  deriving DecidableEq, Repr

def BodyKind.toU8 : BodyKind → Nat
  | trigram => 0
  | term => 1

/-- `BodyKind::try_from`. -/
def BodyKind.tryFrom : Nat → Except IndexError BodyKind
  | 0 => .ok trigram
  | 1 => .ok term
  | _ => .error (.malformed "RRSS unknown body-kind code")

/-- `splitset::Policy`. -/
inductive Policy where
  | tiered
  | stableKey
  deriving DecidableEq, Repr

def Policy.toU8 : Policy → Nat
  | tiered => 0
  | stableKey => 1

/-- `Policy::try_from`. -/
def Policy.tryFrom : Nat → Except IndexError Policy
  | 0 => .ok tiered
  | 1 => .ok stableKey
  | _ => .error (.malformed "RRSS unknown policy code")

/-- `splitset::SortColDescriptor`, and `splitset_build::SortColSpec`, which has the same fields. -/
structure SortColDescriptor where
  name : String
  column : Nat
  descending : Bool
  deriving DecidableEq, Repr

/-- `splitset::Split`. -/
structure Split where
  dataFile : String
  tier : Nat
  docCount : Nat
  docIdLo : Nat
  docIdHi : Nat
  flags : Nat
  byteSize : Nat
  epoch : Nat
  summaryOff : Nat
  summaryLen : Nat
  deriving DecidableEq, Repr

namespace Split

/-- `Split::has_tombstone`. -/
def hasTombstone (s : Split) : Bool := hasFlag s.flags splitFlagHasTombstone

/-- `Split::absolute_ids`. -/
def absoluteIds (s : Split) : Bool := hasFlag s.flags splitFlagAbsoluteIds

/-- `Split::to_global`. -/
def toGlobal (s : Split) (d : Nat) : Nat := if s.absoluteIds then d else min (s.docIdLo + d) (u32Bound - 1)

/-- `Split::contains`. -/
def contains (s : Split) (d : Nat) : Bool := 0 < s.docCount && s.docIdLo ≤ d && d ≤ s.docIdHi

/-- `Split::to_local`. -/
def toLocal (s : Split) (d : Nat) : Nat := if s.absoluteIds then d else d - s.docIdLo

end Split

/-- `splitset::SplitSet`. -/
structure SplitSet where
  policy : Policy
  flags : Nat
  tierCount : Nat
  baseCount : Nat
  byteCap : Nat
  gramSize : Nat
  bodyKind : BodyKind
  caseFold : Bool
  sortcol : Option SortColDescriptor
  splits : List Split
  summaryBlob : Bytes
  deriving DecidableEq

/-! ## Opening -/

/-- `read_name` of `SplitSet::parse`. -/
def readSplitName (blob : Bytes) (off len : Nat) : Except IndexError String :=
  if off + len ≤ blob.length then
    match fromUtf8 (slice blob off len) with
    | some name => .ok name
    | none => .error (.malformed "RRSS non-UTF-8 name")
  else .error (.malformed "RRSS name out of string blob")

/-- The split entry at `base`. -/
def parseSplit (body stringBlob : Bytes) (summaryBytes base : Nat) : Except IndexError Split := do
  let dataFile ← readSplitName stringBlob (getLe 4 body base) (getLe 2 body (base + 4))
  let summaryOff := getLe 8 body (base + 40)
  let summaryLen := getLe 4 body (base + 48)
  if 0 < summaryLen ∧ u64Bound ≤ summaryOff + summaryLen then
    throw (.malformed "RRSS summary range overflow")
  else if 0 < summaryLen ∧ summaryBytes < summaryOff + summaryLen then
    throw (.malformed "RRSS summary out of summary blob")
  else
    pure {
      dataFile := dataFile
      tier := getLe 2 body (base + 6)
      docCount := getLe 4 body (base + 8)
      docIdLo := getLe 4 body (base + 12)
      docIdHi := getLe 4 body (base + 16)
      flags := getLe 2 body (base + 20)
      byteSize := getLe 8 body (base + 24)
      epoch := getLe 8 body (base + 32)
      summaryOff := summaryOff
      summaryLen := summaryLen }

namespace SplitSet

/-- `SplitSet::body_len`. -/
def bodyLen (header : Bytes) : Except IndexError Nat :=
  if header.length < rrssHeaderSize then .error (.malformed "short RRSS header")
  else if slice header 0 4 ≠ rrssMagic then .error (.badMagic (slice header 0 4))
  else if getLe 2 header 4 ≠ rrssVersion then .error (.badVersion (getLe 2 header 4))
  else
    let splitCount := getLe 4 header 12
    let baseCount := getLe 4 header 16
    let strBytes := getLe 4 header 20
    let summaryBytes := getLe 8 header 24
    if splitCount < baseCount then .error (.malformed "RRSS base count exceeds split count")
    else if u64Bound ≤ splitCount * rrssEntrySize + strBytes + summaryBytes then
      .error (.malformed "RRSS body size overflow")
    else .ok (splitCount * rrssEntrySize + strBytes + summaryBytes)

/-- The sort column the header names, if it names one. -/
def parseSortcol (header stringBlob : Bytes) : Except IndexError (Option SortColDescriptor) :=
  if 0 < getLe 2 header 44 then do
    let name ← readSplitName stringBlob (getLe 4 header 40) (getLe 2 header 44)
    pure (some ⟨name, getLe 2 header 46, hasFlag (getLe 1 header 48) sortcolFlagDescending⟩)
  else pure none

/-- `SplitSet::parse`. -/
def parse (header body : Bytes) : Except IndexError SplitSet := do
  let flags := getLe 2 header 6
  let policy ← Policy.tryFrom (getLe 1 header 8)
  let bodyKind ← BodyKind.tryFrom (getLe 1 header 9)
  let splitCount := getLe 4 header 12
  let strBytes := getLe 4 header 20
  let summaryBytes := getLe 8 header 24
  let manifestBytes := splitCount * rrssEntrySize
  if body.length < manifestBytes + strBytes + summaryBytes then throw (.malformed "short RRSS body")
  else do
    let stringBlob := slice body manifestBytes strBytes
    let summaryBlob := slice body (manifestBytes + strBytes) summaryBytes
    let sortcol ← parseSortcol header stringBlob
    let splits ← collect ((List.range splitCount).map fun i =>
      parseSplit body stringBlob summaryBlob.length (i * rrssEntrySize))
    pure {
      policy := policy
      flags := flags
      tierCount := getLe 2 header 10
      baseCount := getLe 4 header 16
      byteCap := getLe 8 header 32
      gramSize := getLe 2 header 49
      bodyKind := bodyKind
      caseFold := !hasFlag flags flagCaseSensitive
      sortcol := sortcol
      splits := splits
      summaryBlob := summaryBlob }

/-- `SplitSet::open`. -/
def «open» (rrss : MemoryFetch) : Io SplitSet := do
  let header ← rrss.read 0 rrssHeaderSize
  let len ← ofOutcome (bodyLen header)
  let body ← rrss.read rrssHeaderSize len
  if body.length < len then ofOutcome (.error (.malformed "short RRSS body"))
  else ofOutcome (parse header body)

/-- `SplitSet::from_bytes`. -/
def fromBytes (buf : Bytes) : Except IndexError SplitSet := do
  let len ← bodyLen buf
  if buf.length < rrssHeaderSize + len then throw (.malformed "short RRSS body")
  else parse (slice buf 0 rrssHeaderSize) (slice buf rrssHeaderSize len)

/-! ## Splits and their summaries -/

/-- `SplitSet::base_splits`. -/
def baseSplits (s : SplitSet) : List Split := s.splits.take s.baseCount

/-- `SplitSet::delta_splits`. -/
def deltaSplits (s : SplitSet) : List Split := s.splits.drop s.baseCount

/-- `SplitSet::summary`. -/
def summary (s : SplitSet) (split : Split) : Option Bytes :=
  if split.summaryLen = 0 then none else some (slice s.summaryBlob split.summaryOff split.summaryLen)

end SplitSet

/-- `splitset::find_tlv`. -/
def findTlv (summary : Bytes) (tag : Nat) : Except IndexError (Option Bytes) :=
  Tlv.find (.malformed "RRSS summary TLV out of range") summary tag

/-- `splitset::tlv_record`. -/
def tlvRecord (tag : Nat) (payload : Bytes) : Bytes := Tlv.record tag payload

/-! ## What a parse has read -/

/-- What a parse that succeeds has read. -/
theorem parse_ok {header body : Bytes} {set : SplitSet} (h : SplitSet.parse header body = .ok set) :
    ∃ policy kind sortcol splits, getLe 4 header 12 * rrssEntrySize + getLe 4 header 20 + getLe 8 header 24 ≤ body.length ∧
      SplitSet.parseSortcol header (slice body (getLe 4 header 12 * rrssEntrySize) (getLe 4 header 20)) = .ok sortcol ∧
      collect ((List.range (getLe 4 header 12)).map fun i =>
        parseSplit body (slice body (getLe 4 header 12 * rrssEntrySize) (getLe 4 header 20))
          (slice body (getLe 4 header 12 * rrssEntrySize + getLe 4 header 20) (getLe 8 header 24)).length
          (i * rrssEntrySize)) = .ok splits ∧
      set = ⟨policy, getLe 2 header 6, getLe 2 header 10, getLe 4 header 16, getLe 8 header 32, getLe 2 header 49, kind,
        !hasFlag (getLe 2 header 6) flagCaseSensitive, sortcol, splits,
        slice body (getLe 4 header 12 * rrssEntrySize + getLe 4 header 20) (getLe 8 header 24)⟩ := by
  unfold SplitSet.parse at h
  cases hpolicy : Policy.tryFrom (getLe 1 header 8) with
  | error e => simp only [hpolicy, bind, Except.bind] at h; cases h
  | ok policy =>
    cases hkind : BodyKind.tryFrom (getLe 1 header 9) with
    | error e => simp only [hpolicy, hkind, bind, Except.bind] at h; cases h
    | ok kind =>
      simp only [hpolicy, hkind, bind, Except.bind] at h
      split at h
      · cases h
      · next hshort =>
        cases hsort : SplitSet.parseSortcol header
            (slice body (getLe 4 header 12 * rrssEntrySize) (getLe 4 header 20)) with
        | error e => simp only [hsort] at h; cases h
        | ok sortcol =>
          simp only [hsort] at h
          cases hsplits : collect ((List.range (getLe 4 header 12)).map fun i =>
              parseSplit body (slice body (getLe 4 header 12 * rrssEntrySize) (getLe 4 header 20))
                (slice body (getLe 4 header 12 * rrssEntrySize + getLe 4 header 20) (getLe 8 header 24)).length
                (i * rrssEntrySize)) with
          | error e => simp only [hsplits] at h; cases h
          | ok splits =>
            simp only [hsplits] at h
            exact ⟨policy, kind, sortcol, splits, by omega, rfl, rfl, (Except.ok.inj h).symm⟩

end RoaringRange
