import RoaringRange.CheckedFetch
import RoaringRange.SplitSet
import Mathlib.Algebra.Order.Group.Nat

/-!
# Parsing a manifest of untrusted bytes (`splitset.rs`)

`SplitSet::from_bytes`, `summary` and `find_tlv` with every sum, product and slice an operation that may trap.  Where
the end of the body is a 64-bit number nothing traps, and the outcome is that of the model without bounds:

    fromBytesChecked buf = lift (SplitSet.fromBytes buf)                              (fromBytesChecked_eq)
    nothing traps ↔ the body that the header announces ends below 2 ^ 64              (parsesSafely_iff)
-/

namespace RoaringRange

open ByteString Faults Checked

/-! ## The parser with its bounds -/

/-- `read_name` of `SplitSet::parse`. -/
def readNameChecked (blob : Bytes) (off len : Nat) : Except (Abort IndexError) String := do
  reject (u64Bound ≤ off + len ∨ blob.length < off + len) (.malformed "RRSS name out of string blob")
  let b ← range blob off (off + len)
  match fromUtf8 b with
  | some name => .ok name
  | none => .error (.err (.malformed "RRSS non-UTF-8 name"))

/-- The field of `w` bytes at `base + off`. -/
def fieldAt (w : Nat) (body : Bytes) (base off : Nat) : Except (Abort IndexError) Nat := do
  let pos ← add u64Bound base off
  readLe w body pos

/-- The split entry `i`. -/
def parseSplitChecked (body stringBlob : Bytes) (summaryBytes i : Nat) : Except (Abort IndexError) Split := do
  let base ← mul u64Bound i rrssEntrySize
  let nameOff ← readLe 4 body base
  let nameLen ← fieldAt 2 body base 4
  let tier ← fieldAt 2 body base 6
  let docCount ← fieldAt 4 body base 8
  let docIdLo ← fieldAt 4 body base 12
  let docIdHi ← fieldAt 4 body base 16
  let flags ← fieldAt 2 body base 20
  let byteSize ← fieldAt 8 body base 24
  let epoch ← fieldAt 8 body base 32
  let summaryOff ← fieldAt 8 body base 40
  let summaryLen ← fieldAt 4 body base 48
  let dataFile ← readNameChecked stringBlob nameOff nameLen
  reject (0 < summaryLen ∧ u64Bound ≤ summaryOff + summaryLen) (.malformed "RRSS summary range overflow")
  reject (0 < summaryLen ∧ summaryBytes < summaryOff + summaryLen) (.malformed "RRSS summary out of summary blob")
  .ok ⟨dataFile, tier, docCount, docIdLo, docIdHi, flags, byteSize, epoch, summaryOff, summaryLen⟩

/-- The sort column the header names, if it names one. -/
def parseSortcolChecked (header stringBlob : Bytes) : Except (Abort IndexError) (Option SortColDescriptor) := do
  let nameOff ← readLe 4 header 40
  let nameLen ← readLe 2 header 44
  let column ← readLe 2 header 46
  let flags ← readLe 1 header 48
  if 0 < nameLen then do
    let name ← readNameChecked stringBlob nameOff nameLen
    .ok (some ⟨name, column, hasFlag flags sortcolFlagDescending⟩)
  else .ok none

namespace SplitSet

/-- `SplitSet::body_len`: `checked_mul` and `checked_add` all the way. -/
def bodyLenChecked (header : Bytes) : Except (Abort IndexError) Nat := do
  reject (header.length < rrssHeaderSize) (.malformed "short RRSS header")
  let magic ← range header 0 4
  reject (magic ≠ rrssMagic) (.badMagic magic)
  let version ← readLe 2 header 4
  reject (version ≠ rrssVersion) (.badVersion version)
  let splitCount ← readLe 4 header 12
  let baseCount ← readLe 4 header 16
  let strBytes ← readLe 4 header 20
  let summaryBytes ← readLe 8 header 24
  reject (splitCount < baseCount) (.malformed "RRSS base count exceeds split count")
  reject (u64Bound ≤ splitCount * rrssEntrySize + strBytes + summaryBytes) (.malformed "RRSS body size overflow")
  .ok (splitCount * rrssEntrySize + strBytes + summaryBytes)

/-- `SplitSet::parse`. -/
def parseChecked (header body : Bytes) : Except (Abort IndexError) SplitSet := do
  let flags ← readLe 2 header 6
  let policyCode ← readLe 1 header 8
  let policy ← lift (Policy.tryFrom policyCode)
  let bodyCode ← readLe 1 header 9
  let bodyKind ← lift (BodyKind.tryFrom bodyCode)
  let tierCount ← readLe 2 header 10
  let splitCount ← readLe 4 header 12
  let baseCount ← readLe 4 header 16
  let strBytes ← readLe 4 header 20
  let summaryBytes ← readLe 8 header 24
  let byteCap ← readLe 8 header 32
  let gramSize ← readLe 2 header 49
  let manifestBytes ← mul u64Bound splitCount rrssEntrySize
  let summaryStart ← add u64Bound manifestBytes strBytes
  let total ← add u64Bound summaryStart summaryBytes
  reject (body.length < total) (.malformed "short RRSS body")
  let stringBlob ← range body manifestBytes summaryStart
  let summaryBlob ← range body summaryStart total
  let sortcol ← parseSortcolChecked header stringBlob
  let splits ← (List.range splitCount).mapM fun i => parseSplitChecked body stringBlob summaryBlob.length i
  .ok ⟨policy, flags, tierCount, baseCount, byteCap, gramSize, bodyKind, !hasFlag flags flagCaseSensitive, sortcol,
    splits, summaryBlob⟩

/-- `SplitSet::from_bytes`; `HEADER_SIZE + body_len` is a plain sum. -/
def fromBytesChecked (buf : Bytes) : Except (Abort IndexError) SplitSet := do
  let len ← bodyLenChecked buf
  let stop ← add u64Bound rrssHeaderSize len
  reject (buf.length < stop) (.malformed "short RRSS body")
  let header ← range buf 0 rrssHeaderSize
  let body ← range buf rrssHeaderSize stop
  parseChecked header body

/-- `SplitSet::summary`. -/
def summaryChecked (s : SplitSet) (split : Split) : Except (Abort IndexError) (Option Bytes) :=
  if split.summaryLen = 0 then .ok none
  else do
    let stop ← add u64Bound split.summaryOff split.summaryLen
    let b ← range s.summaryBlob split.summaryOff stop
    .ok (some b)

end SplitSet

/-- The scan of `find_tlv` from `off`. -/
def findTlvFromChecked (b : Bytes) (tag : Nat) : Nat → Nat → Except (Abort IndexError) (Option Bytes)
  | 0, _ => .ok none
  | fuel + 1, off => do
    let start ← add u64Bound off 5
    if start ≤ b.length then do
      let recTag ← readLe 1 b off
      let len ← fieldAt 4 b off 1
      reject (u64Bound ≤ start + len ∨ b.length < start + len) (.malformed "RRSS summary TLV out of range")
      if recTag = tag then do
        let payload ← range b start (start + len)
        .ok (some payload)
      else findTlvFromChecked b tag fuel (start + len)
    else .ok none

/-- `splitset::find_tlv`. -/
def findTlvChecked (summary : Bytes) (tag : Nat) : Except (Abort IndexError) (Option Bytes) :=
  findTlvFromChecked summary tag summary.length 0

/-! ## In bounds, the bounds change nothing -/

theorem readNameChecked_eq {blob : Bytes} (hblob : blob.length < u64Bound) (off len : Nat) :
    readNameChecked blob off len = lift (readSplitName blob off len) := by
  unfold readNameChecked readSplitName
  by_cases h : off + len ≤ blob.length
  · rw [reject_ok (by omega), ok_bind, range_ok (by omega) h, ok_bind, if_pos h, Nat.add_sub_cancel_left]
    show (match fromUtf8 (slice blob off len) with | some name => _ | none => _) = _
    cases fromUtf8 (slice blob off len) <;> rfl
  · rw [reject_err (by omega), if_neg h]
    rfl

theorem fieldAt_ok {w : Nat} {body : Bytes} {base off : Nat} (h : base + off + w ≤ body.length)
    (hb : body.length < u64Bound) : fieldAt w body base off = .ok (getLe w body (base + off)) := by
  unfold fieldAt
  rw [add_ok (by omega), ok_bind, readLe_ok h (by omega)]

/-- An entry that lies in the body. -/
theorem parseSplitChecked_eq {body stringBlob : Bytes} {i : Nat} (hbody : body.length < u64Bound)
    (hblob : stringBlob.length < u64Bound) (h : i * rrssEntrySize + rrssEntrySize ≤ body.length) (summaryBytes : Nat) :
    parseSplitChecked body stringBlob summaryBytes i =
      lift (parseSplit body stringBlob summaryBytes (i * rrssEntrySize)) := by
  unfold rrssEntrySize at h
  unfold parseSplitChecked rrssEntrySize
  rw [mul_ok (by omega), ok_bind, readLe_ok (by omega) (by omega), ok_bind, fieldAt_ok (by omega) hbody, ok_bind,
    fieldAt_ok (by omega) hbody, ok_bind, fieldAt_ok (by omega) hbody, ok_bind, fieldAt_ok (by omega) hbody, ok_bind,
    fieldAt_ok (by omega) hbody, ok_bind, fieldAt_ok (by omega) hbody, ok_bind, fieldAt_ok (by omega) hbody, ok_bind,
    fieldAt_ok (by omega) hbody, ok_bind, fieldAt_ok (by omega) hbody, ok_bind, fieldAt_ok (by omega) hbody, ok_bind,
    readNameChecked_eq hblob]
  unfold parseSplit
  cases readSplitName stringBlob (getLe 4 body (i * 56)) (getLe 2 body (i * 56 + 4)) with
  | error e => rfl
  | ok name =>
    rw [lift_ok, ok_bind]
    show _ = lift (if _ then _ else _)
    by_cases hover : 0 < getLe 4 body (i * 56 + 48) ∧ u64Bound ≤ getLe 8 body (i * 56 + 40) + getLe 4 body (i * 56 + 48)
    · rw [reject_err hover, if_pos hover]
      rfl
    · rw [reject_ok hover, ok_bind, if_neg hover]
      by_cases hout : 0 < getLe 4 body (i * 56 + 48) ∧ summaryBytes < getLe 8 body (i * 56 + 40) + getLe 4 body (i * 56 + 48)
      · rw [reject_err hout, if_pos hout]
        rfl
      · rw [reject_ok hout, ok_bind, if_neg hout]
        rfl

theorem parseSortcolChecked_eq {header stringBlob : Bytes} (hheader : header.length = rrssHeaderSize)
    (hblob : stringBlob.length < u64Bound) :
    parseSortcolChecked header stringBlob = lift (SplitSet.parseSortcol header stringBlob) := by
  unfold rrssHeaderSize at hheader
  unfold parseSortcolChecked SplitSet.parseSortcol
  rw [readLe_ok (by omega) (by decide), ok_bind, readLe_ok (by omega) (by decide), ok_bind,
    readLe_ok (by omega) (by decide), ok_bind, readLe_ok (by omega) (by decide), ok_bind]
  split
  · rw [readNameChecked_eq hblob]
    cases readSplitName stringBlob (getLe 4 header 40) (getLe 2 header 44) <;> rfl
  · rfl

namespace SplitSet

theorem parseChecked_eq {header body : Bytes} (hheader : header.length = rrssHeaderSize) (hbody : body.length < u64Bound)
    (hsize : getLe 4 header 12 * rrssEntrySize + getLe 4 header 20 + getLe 8 header 24 < u64Bound) :
    parseChecked header body = lift (parse header body) := by
  have h64 : header.length = 64 := hheader
  unfold parseChecked parse
  rw [readLe_ok (by omega) (by decide), ok_bind, readLe_ok (by omega) (by decide), ok_bind]
  cases Policy.tryFrom (getLe 1 header 8) with
  | error e => rfl
  | ok policy =>
    rw [lift_ok, ok_bind, readLe_ok (by omega) (by decide), ok_bind]
    cases BodyKind.tryFrom (getLe 1 header 9) with
    | error e => rfl
    | ok kind =>
      rw [lift_ok, ok_bind, readLe_ok (by omega) (by decide), ok_bind, readLe_ok (by omega) (by decide), ok_bind,
        readLe_ok (by omega) (by decide), ok_bind, readLe_ok (by omega) (by decide), ok_bind,
        readLe_ok (by omega) (by decide), ok_bind, readLe_ok (by omega) (by decide), ok_bind,
        readLe_ok (by omega) (by decide), ok_bind, mul_ok (by omega), ok_bind, add_ok (by omega), ok_bind,
        add_ok hsize, ok_bind]
      show _ = lift (if _ then _ else _)
      by_cases hshort : body.length < getLe 4 header 12 * rrssEntrySize + getLe 4 header 20 + getLe 8 header 24
      · rw [reject_err hshort, if_pos hshort]
        rfl
      · rw [reject_ok hshort, ok_bind, if_neg hshort, range_slice rfl (by omega), ok_bind,
          range_slice rfl (by omega), ok_bind]
        show _ = lift (parseSortcol header (slice body _ _) >>= _)
        have hblob : (slice body (getLe 4 header 12 * rrssEntrySize) (getLe 4 header 20)).length < u64Bound := by
          rw [length_slice _ _ _ (by omega)]
          omega
        rw [parseSortcolChecked_eq hheader hblob]
        cases parseSortcol header (slice body (getLe 4 header 12 * rrssEntrySize) (getLe 4 header 20)) with
        | error e => rfl
        | ok sortcol =>
          rw [lift_ok, ok_bind, mapM_lift fun i hi => parseSplitChecked_eq hbody hblob ?_ _]
          · show _ = lift (collect ((List.range _).map fun i => parseSplit body _ _ (i * rrssEntrySize)) >>= _)
            cases collect ((List.range (getLe 4 header 12)).map fun i =>
              parseSplit body (slice body (getLe 4 header 12 * rrssEntrySize) (getLe 4 header 20))
                (slice body (getLe 4 header 12 * rrssEntrySize + getLe 4 header 20) (getLe 8 header 24)).length
                (i * rrssEntrySize)) <;> rfl
          · have hlt := Nat.mul_le_mul_right rrssEntrySize (List.mem_range.mp hi)
            rw [Nat.succ_mul] at hlt
            omega

theorem bodyLenChecked_eq (header : Bytes) : bodyLenChecked header = lift (bodyLen header) := by
  unfold bodyLenChecked bodyLen
  by_cases hlen : header.length < rrssHeaderSize
  · rw [reject_err hlen, if_pos hlen]
    rfl
  · have h64 : 64 ≤ header.length := Nat.not_lt.mp hlen
    rw [reject_ok hlen, ok_bind, if_neg hlen, range_ok (by omega) (by omega), ok_bind]
    show (reject (slice header 0 4 ≠ rrssMagic) _ >>= _) = _
    by_cases hmagic : slice header 0 4 ≠ rrssMagic
    · rw [reject_err hmagic, if_pos hmagic]
      rfl
    · rw [reject_ok hmagic, ok_bind, if_neg hmagic, readLe_ok (by omega) (by decide), ok_bind]
      by_cases hversion : getLe 2 header 4 ≠ rrssVersion
      · rw [reject_err hversion, if_pos hversion]
        rfl
      · rw [reject_ok hversion, ok_bind, if_neg hversion, readLe_ok (by omega) (by decide), ok_bind,
          readLe_ok (by omega) (by decide), ok_bind, readLe_ok (by omega) (by decide), ok_bind,
          readLe_ok (by omega) (by decide), ok_bind]
        simp only
        by_cases hbase : getLe 4 header 12 < getLe 4 header 16
        · rw [reject_err hbase, if_pos hbase]
          rfl
        · rw [reject_ok hbase, ok_bind, if_neg hbase]
          by_cases hover : u64Bound ≤ getLe 4 header 12 * rrssEntrySize + getLe 4 header 20 + getLe 8 header 24
          · rw [reject_err hover, if_pos hover]
            rfl
          · rw [reject_ok hover, ok_bind, if_neg hover]
            rfl

/-- What the length check leaves. -/
theorem bodyLen_ok {header : Bytes} {n : Nat} (h : bodyLen header = .ok n) :
    rrssHeaderSize ≤ header.length ∧ n = getLe 4 header 12 * rrssEntrySize + getLe 4 header 20 + getLe 8 header 24 ∧
      n < u64Bound := by
  unfold bodyLen at h
  split at h
  · cases h
  next hlen =>
  split at h
  · cases h
  split at h
  · cases h
  simp only at h
  split at h
  · cases h
  split at h
  · cases h
  next hover =>
  have hn := Except.ok.inj h
  exact ⟨Nat.not_lt.mp hlen, hn.symm, by omega⟩

end SplitSet

/-- Where a body is announced at all, its end is a 64-bit number. -/
def BodyFits (buf : Bytes) : Prop := ∀ n, SplitSet.bodyLen buf = .ok n → rrssHeaderSize + n < u64Bound

namespace SplitSet

/-- **In bounds, parsing is what it is without bounds.** -/
theorem fromBytesChecked_eq {buf : Bytes} (h : BodyFits buf) : fromBytesChecked buf = lift (fromBytes buf) := by
  unfold fromBytesChecked fromBytes
  rw [bodyLenChecked_eq]
  cases hlen : bodyLen buf with
  | error e => rfl
  | ok n =>
    obtain ⟨hheader, hn, hlt⟩ := bodyLen_ok hlen
    have hstop := h n hlen
    rw [lift_ok, ok_bind, add_ok hstop, ok_bind]
    show _ = lift (if _ then _ else _)
    by_cases hshort : buf.length < rrssHeaderSize + n
    · rw [reject_err hshort, if_pos hshort]
      rfl
    · rw [reject_ok hshort, ok_bind, if_neg hshort, range_ok (Nat.zero_le _) hheader, ok_bind,
        range_ok (by omega) (by omega), ok_bind, Nat.sub_zero, Nat.add_sub_cancel_left]
      have hfields : ∀ w off, off + w ≤ rrssHeaderSize → getLe w (slice buf 0 rrssHeaderSize) off = getLe w buf off := by
        intro w off hoff
        rw [getLe_slice _ _ _ _ _ hoff, Nat.zero_add]
      refine parseChecked_eq (length_slice _ _ _ (by omega)) ?_ ?_
      · show (slice buf rrssHeaderSize n).length < u64Bound
        rw [length_slice _ _ _ (by omega)]
        exact hlt
      · show getLe 4 (slice buf 0 rrssHeaderSize) 12 * rrssEntrySize + getLe 4 (slice buf 0 rrssHeaderSize) 20 +
          getLe 8 (slice buf 0 rrssHeaderSize) 24 < u64Bound
        rw [hfields 4 12 (by decide), hfields 4 20 (by decide), hfields 8 24 (by decide), ← hn]
        exact hlt

/-- A body that would end past 64 bits overflows the sum that finds its end. -/
theorem fromBytesChecked_trap {buf : Bytes} (h : ¬ BodyFits buf) : fromBytesChecked buf = .error (.trap .overflow) := by
  unfold BodyFits at h
  push Not at h
  obtain ⟨n, hlen, hbig⟩ := h
  unfold fromBytesChecked
  rw [bodyLenChecked_eq, hlen, lift_ok, ok_bind, add, if_neg (Nat.not_lt.mpr hbig)]
  rfl

/-! ## The summaries of an accepted manifest -/

/-- The summary of a split lies in the summary blob, and its length is a 32-bit number. -/
structure SummaryFits (set : SplitSet) (split : Split) : Prop where
  inBlob : split.summaryLen ≠ 0 → split.summaryOff + split.summaryLen ≤ set.summaryBlob.length
  len_lt : split.summaryLen < 2 ^ 32

theorem parseSplit_summary {body stringBlob : Bytes} {summaryBytes base : Nat} {split : Split}
    (h : parseSplit body stringBlob summaryBytes base = .ok split) :
    (split.summaryLen ≠ 0 → split.summaryOff + split.summaryLen ≤ summaryBytes) ∧ split.summaryLen < 2 ^ 32 := by
  unfold parseSplit at h
  cases hname : readSplitName stringBlob (getLe 4 body base) (getLe 2 body (base + 4)) with
  | error e =>
    rw [hname] at h
    cases h
  | ok name =>
    rw [hname, ok_bind] at h
    simp only at h
    split at h
    · cases h
    · split at h
      · cases h
      · next hout =>
        rw [← Except.ok.inj h]
        have hlen : getLe 4 body (base + 48) < 2 ^ 32 := getLe_lt 4 body (base + 48)
        exact ⟨fun hne => by simp only at hne ⊢; omega, hlen⟩

theorem parse_summaries {header body : Bytes} {set : SplitSet} (h : parse header body = .ok set) :
    set.summaryBlob.length ≤ body.length ∧ ∀ split ∈ set.splits, SummaryFits set split := by
  obtain ⟨policy, kind, sortcol, splits, hshort, -, hsplits, rfl⟩ := parse_ok h
  refine ⟨?_, fun split hmem => ?_⟩
  · show (slice body _ _).length ≤ _
    rw [length_slice _ _ _ hshort]
    omega
  · obtain ⟨i, -, hi⟩ := List.mem_map.mp (mem_of_collect_ok hsplits hmem)
    obtain ⟨hin, hlen⟩ := parseSplit_summary hi
    exact ⟨hin, hlen⟩

theorem fromBytes_summaries {buf : Bytes} {set : SplitSet} (h : fromBytes buf = .ok set) :
    set.summaryBlob.length < u64Bound ∧ ∀ split ∈ set.splits, SummaryFits set split := by
  unfold fromBytes at h
  cases hlen : bodyLen buf with
  | error e => simp only [hlen, bind, Except.bind] at h; cases h
  | ok n =>
    obtain ⟨-, hn, hlt⟩ := bodyLen_ok hlen
    simp only [hlen, ok_bind] at h
    split at h
    · cases h
    · next hshort =>
      obtain ⟨hblob, hsplits⟩ := parse_summaries h
      rw [length_slice _ _ _ (by omega)] at hblob
      exact ⟨by omega, hsplits⟩

/-- The bytes of a summary that lies in the blob. -/
theorem summaryChecked_eq {set : SplitSet} {split : Split} (hblob : set.summaryBlob.length < u64Bound)
    (h : SummaryFits set split) : set.summaryChecked split = .ok (set.summary split) := by
  unfold summaryChecked summary
  by_cases hzero : split.summaryLen = 0
  · rw [if_pos hzero, if_pos hzero]
  · have hin := h.inBlob hzero
    rw [if_neg hzero, if_neg hzero, add_ok (by omega), ok_bind, range_slice rfl hin]
    rfl

end SplitSet

/-- The scan of a region shorter than a 32-bit number. -/
theorem findTlvFromChecked_eq {b : Bytes} (hb : b.length < 2 ^ 32) (tag fuel off : Nat) (hoff : off ≤ b.length) :
    findTlvFromChecked b tag fuel off =
      lift (Tlv.findFrom (.malformed "RRSS summary TLV out of range") b tag fuel off) := by
  have hbound : (2 : Nat) ^ 33 < u64Bound := by decide
  induction fuel generalizing off with
  | zero => rfl
  | succ fuel ih =>
    unfold findTlvFromChecked Tlv.findFrom
    rw [add_ok (by omega), ok_bind]
    split
    · next hstart =>
      rw [readLe_ok (by omega) (by omega), ok_bind, fieldAt_ok (by omega) (by omega), ok_bind]
      have hlen : getLe 4 b (off + 1) < 2 ^ 32 := getLe_lt 4 b (off + 1)
      simp only
      by_cases hout : b.length < off + 5 + getLe 4 b (off + 1)
      · rw [reject_err (Or.inr hout), if_pos hout]
        rfl
      · rw [reject_ok (by omega), ok_bind, if_neg hout]
        split
        · rw [range_slice rfl (by omega)]
          rfl
        · exact ih _ (by omega)
    · rfl

/-- The scan of a summary is the one without bounds. -/
theorem findTlvChecked_eq {summary : Bytes} (h : summary.length < 2 ^ 32) (tag : Nat) :
    findTlvChecked summary tag = lift (findTlv summary tag) :=
  findTlvFromChecked_eq h tag _ 0 (Nat.zero_le _)

/-- Nothing traps: not the parse, and of an accepted manifest no summary and no scan of one. -/
def ParsesSafely (buf : Bytes) : Prop :=
  (∀ t, SplitSet.fromBytesChecked buf ≠ .error (.trap t)) ∧
  ∀ set : SplitSet, SplitSet.fromBytesChecked buf = .ok set → ∀ (i : Nat) (split : Split), set.splits[i]? = some split →
    (∀ t, set.summaryChecked split ≠ .error (.trap t)) ∧
    ∀ (summary : Bytes) (tag : Nat) (t : Trap), set.summaryChecked split = .ok (some summary) →
      findTlvChecked summary tag ≠ .error (.trap t)

/-- **When parsing a manifest of any bytes never traps**, nor reading its summaries. -/
theorem parsesSafely_iff (buf : Bytes) : ParsesSafely buf ↔ BodyFits buf := by
  constructor
  · rintro ⟨hparse, -⟩
    by_contra h
    exact hparse _ (SplitSet.fromBytesChecked_trap h)
  · intro h
    unfold ParsesSafely
    rw [SplitSet.fromBytesChecked_eq h]
    refine ⟨fun t => lift_ne_trap _ t, fun set hset i split hi => ?_⟩
    obtain ⟨hblob, hsplits⟩ := SplitSet.fromBytes_summaries (lift_eq_ok hset)
    have hfits := hsplits split (List.mem_of_getElem? hi)
    rw [SplitSet.summaryChecked_eq hblob hfits]
    refine ⟨fun t ht => (by cases ht), fun summary tag t hsummary => ?_⟩
    have hsome := Except.ok.inj hsummary
    unfold SplitSet.summary at hsome
    split at hsome
    · cases hsome
    · next hne =>
      have hlen : summary.length = split.summaryLen := by
        rw [← Option.some.inj hsome, length_slice _ _ _ (hfits.inBlob hne)]
      rw [findTlvChecked_eq (by rw [hlen]; exact hfits.len_lt)]
      exact lift_ne_trap _ t

/-- A header alone, whose summaries are announced to take `n` bytes. -/
def emptyManifest (n : Nat) : Bytes :=
  rrssMagic ++ le 2 rrssVersion ++ le 2 0 ++ [0, 0] ++ le 2 0 ++ le 4 0 ++ le 4 0 ++ le 4 0 ++ le 8 n ++ le 32 0

/-- Sixty-four bytes whose body ends past the last `u64`. -/
theorem fromBytes_overflows : ¬ ParsesSafely (emptyManifest (2 ^ 64 - 1)) ∧
    SplitSet.bodyLen (emptyManifest (2 ^ 64 - 1)) = .ok (2 ^ 64 - 1) ∧
    SplitSet.fromBytesChecked (emptyManifest (2 ^ 64 - 1)) = .error (.trap .overflow) := by
  have htrap : SplitSet.fromBytesChecked (emptyManifest (2 ^ 64 - 1)) = .error (.trap .overflow) := rfl
  exact ⟨fun h => h.1 _ htrap, rfl, htrap⟩

end RoaringRange
