import RoaringRange.Fetch
import RoaringRange.Lib.Runs

/-!
# The record store (`build.rs`, `records.rs`)

Records are stored one after the other in a blob, an offset index says where each starts and ends.  The
second format version frames each record with a tag and may compress it against a dictionary.  A store
may keep a prefix of the offset index resident; the ids it covers are resolved without a read.

    the blob and the index of a list of records                                 (writeAll_eq)
    what a store serves: get and get_many of every id            (Serves.settles_get, _getMany)
    resident prefixes, however they come and go, keep it serving                  (Serves.step)
    the round trip                                                           (records_roundTrip)
-/

namespace RoaringRange

open ByteString Faults Slices Runs

/-- The zstd decoder: the bytes a frame yields under a dictionary, and whether it ends with an error. -/
class Zstd where
  decoder : (dict frame : Bytes) → Option (Bytes × Bool)

/-- The decoder with a compressor: what was compressed at some level comes back under the same dictionary. -/
class ZstdCodec extends Zstd where
  /-- `Compressor::compress`. -/
  compress : (dict : Bytes) → (level : Int) → (rec : Bytes) → Except String Bytes
  decoder_compress : ∀ dict level rec frame, compress dict level rec = .ok frame → decoder dict frame = some (rec, false)

/-- `RRSR`. -/
def recordMagic : Bytes := [82, 82, 83, 82]

/-- `records::HEADER_SIZE`. -/
def recordHeaderSize : Nat := 16

def tagRaw : UInt8 := 0

def tagZstdDict : UInt8 := 1

/-- `MAX_DECOMPRESSED_RECORD`. -/
def maxDecompressedRecord : Nat := 64 * 2 ^ 20

/-! ## Writing -/

/-- `build::RecordWriter`; a compressor is its dictionary and level. -/
structure RecordWriter where
  bin : Bytes
  idx : Bytes
  off : Nat
  written : Nat
  zstd : Option (Bytes × Int)
  deriving DecidableEq

namespace RecordWriter

/-- The header of an offset index, with the first offset. -/
def header (version count : Nat) : Bytes :=
  recordMagic ++ (le 2 version ++ (le 2 0 ++ (le 4 count ++ le 4 0)))

/-- `RecordWriter::new`. -/
def new (count : Nat) : RecordWriter := ⟨[], header 1 count ++ le 8 0, 0, 0, none⟩

/-- `RecordWriter::new_zstd`. -/
def newZstd (count : Nat) (dict : Bytes) (level : Int) : RecordWriter :=
  ⟨[], header 2 count ++ le 8 0, 0, 0, some (dict, level)⟩

variable [ZstdCodec]

/-- `RecordWriter::frame_zstd`. -/
def frameZstd (dict : Bytes) (level : Int) (rec : Bytes) : Except String Bytes :=
  if rec.isEmpty then .ok []
  else do
    let compressed ← ZstdCodec.compress dict level rec
    pure (if compressed.length < rec.length then tagZstdDict :: compressed else tagRaw :: rec)

/-- What is stored of a record. -/
def frame (zstd : Option (Bytes × Int)) (rec : Bytes) : Except String Bytes :=
  match zstd with
  | some (dict, level) => frameZstd dict level rec
  | none => .ok rec

/-- `RecordWriter::write`. -/
def write (w : RecordWriter) (rec : Bytes) : Except String RecordWriter := do
  let stored ← frame w.zstd rec
  let off := (w.off + stored.length) % u64Bound
  pure { w with bin := w.bin ++ stored, idx := w.idx ++ le 8 off, off := off, written := (w.written + 1) % 2 ^ 32 }

/-- Writes the records in order. -/
def writeAll (w : RecordWriter) : List Bytes → Except String RecordWriter
  | [] => .ok w
  | rec :: recs => do
    let w ← w.write rec
    writeAll w recs

end RecordWriter

section

variable [ZstdCodec]

/-- `build::write_records`: the blob and the index. -/
def writeRecords (records : List Bytes) : Except String (Bytes × Bytes) := do
  let w ← (RecordWriter.new (records.length % 2 ^ 32)).writeAll records
  pure (w.bin, w.idx)

/-- `build::write_records_zstd`. -/
def writeRecordsZstd (records : List Bytes) (dict : Bytes) (level : Int) : Except String (Bytes × Bytes) := do
  let w ← (RecordWriter.newZstd (records.length % 2 ^ 32) dict level).writeAll records
  pure (w.bin, w.idx)

end

/-! ## Reading -/

/-- `records::ResidentIdx`. -/
structure ResidentIdx where
  upto : Nat
  bytes : Bytes

/-- `records::RecordStore`. -/
structure RecordStore where
  idx : MemoryFetch
  bin : MemoryFetch
  count : Nat
  version : Nat
  dict : Option Bytes
  coalesceGap : Nat
  residentIdx : Option ResidentIdx

namespace RecordStore

/-- `RecordStore::from_boot`. -/
def fromBoot (header : Bytes) (idx bin : MemoryFetch) : Except IndexError RecordStore :=
  if header.length < recordHeaderSize then .error (.malformed "short RRSR header")
  else if slice header 0 4 ≠ recordMagic then .error (.badMagic (slice header 0 4))
  else if getLe 2 header 4 ≠ 1 ∧ getLe 2 header 4 ≠ 2 then .error (.badVersion (getLe 2 header 4))
  else .ok ⟨idx, bin, getLe 4 header 8, getLe 2 header 4, none, RoaringRange.coalesceGap, none⟩

/-- `RecordStore::open`. -/
def «open» (idx bin : MemoryFetch) : Io RecordStore := do
  let header ← idx.read 0 recordHeaderSize
  ofOutcome (fromBoot header idx bin)

/-- `RecordStore::with_dict`. -/
def withDict (store : RecordStore) (dict : Bytes) : RecordStore := { store with dict := some dict }

/-- `RecordStore::open_with_dict`. -/
def openWithDict (idx bin : MemoryFetch) (dict : Bytes) : Io RecordStore := do
  let store ← RecordStore.open idx bin
  pure (store.withDict dict)

/-- `RecordStore::resident_pair`. -/
def residentPair (store : RecordStore) (id : Nat) : Option (Nat × Nat) :=
  store.residentIdx.bind fun r =>
    if r.upto ≤ id then none
    else some (getLe 8 r.bytes (recordHeaderSize + id * 8), getLe 8 r.bytes (recordHeaderSize + id * 8 + 8))

/-- `RecordStore::set_coalesce_gap`. -/
def setCoalesceGap (store : RecordStore) (gap : Nat) : RecordStore := { store with coalesceGap := gap }

/-- `RecordStore::preload_idx_prefix`. -/
def preloadIdxPrefix (store : RecordStore) (first : Nat) : Io RecordStore := do
  let upto := min first store.count
  let bytes ← store.idx.read 0 (recordHeaderSize + (upto + 1) * 8)
  pure { store with residentIdx := some ⟨upto, bytes⟩ }

/-- `RecordStore::preload_idx`. -/
def preloadIdx (store : RecordStore) : Io RecordStore := store.preloadIdxPrefix store.count

/-- `RecordStore::set_resident_idx`. -/
def setResidentIdx (store : RecordStore) (bytes : Bytes) : Except IndexError RecordStore :=
  if bytes.length < recordHeaderSize + 8 then
    .error (.malformed "resident RRSR idx shorter than header + one offset")
  else if slice bytes 0 4 ≠ recordMagic then .error (.badMagic (slice bytes 0 4))
  else if getLe 2 bytes 4 ≠ store.version ∨ getLe 4 bytes 8 ≠ store.count then
    .error (.malformed "resident RRSR idx header disagrees with the open store")
  else
    let m := (bytes.length - recordHeaderSize) / 8
    .ok { store with residentIdx := some ⟨min (m - 1) store.count, bytes⟩ }

section

variable [Zstd]

/-- `RecordStore::inflate_zstd`. -/
def inflateZstd (store : RecordStore) (frame : Bytes) : Except IndexError Bytes :=
  match store.dict with
  | none => .error (.malformed "compressed record but no dictionary set")
  | some dict =>
    match Zstd.decoder dict frame with
    | none => .error (.malformed "zstd frame header failed to decode")
    | some (out, failed) =>
      if maxDecompressedRecord < out.length then .error (.malformed "decompressed record exceeds size cap")
      else if failed then .error (.malformed "zstd frame failed to decode")
      else .ok out

/-- `RecordStore::decode`. -/
def decode (store : RecordStore) (raw : Bytes) : Except IndexError Bytes :=
  if store.version = 1 then .ok raw
  else
    match raw with
    | [] => .ok []
    | tag :: payload =>
      if tag = tagRaw then .ok payload
      else if tag = tagZstdDict then store.inflateZstd payload
      else .error (.malformed "RRSR record has an unknown frame tag")

/-- The record's range: of no bytes for an id the store does not have. -/
def recordRange (store : RecordStore) (id : Nat) (pair : Bytes) : Except IndexError (Nat × Nat) :=
  if store.count ≤ id then .ok (0, 0)
  else
    let (start, stop) := (store.residentPair id).getD (getLe 8 pair 0, getLe 8 pair 8)
    if stop < start then .error (.malformed "RRSR record offset pair has end < start")
    else .ok (start, stop - start)

/-- The bytes of the offset pair, none when the pair is resident. -/
def readPair (store : RecordStore) (id : Nat) : Io Bytes :=
  if (store.residentPair id).isNone then store.idx.read (recordHeaderSize + id * 8) 16 else pure []

/-- `RecordStore::get`. -/
def get (store : RecordStore) (id : Nat) : Io (Option Bytes) :=
  if store.count ≤ id then pure none
  else do
    let pair ← store.readPair id
    let range ← ofOutcome (store.recordRange id pair)
    let bytes ← store.bin.read range.1 range.2
    let rec ← ofOutcome (store.decode bytes)
    pure (some rec)

/-- `RecordStore::get_many`. -/
def getMany (store : RecordStore) (ids : List Nat) : Io (List (Option Bytes)) := do
  let pairRanges := ids.map fun id =>
    if id < store.count ∧ (store.residentPair id).isNone then (recordHeaderSize + id * 8, 16) else (0, 0)
  let pairs ← readCoalesced store.idx pairRanges store.coalesceGap
  let recRanges ← ofOutcome (collect ((ids.zip pairs).map fun x => store.recordRange x.1 x.2))
  let blobs ← readCoalesced store.bin recRanges store.coalesceGap
  ofOutcome (collect ((ids.zip blobs).map fun x =>
    if store.count ≤ x.1 then .ok none else (store.decode x.2).map some))

end

end RecordStore

/-! ## The files of a list of records -/

/-- Where each stored record ends, from the offset the first starts at. -/
def ends (off : Nat) : List Bytes → List Nat
  | [] => []
  | s :: stored => (off + s.length) % u64Bound :: ends ((off + s.length) % u64Bound) stored

@[simp] theorem length_ends (off : Nat) (stored : List Bytes) : (ends off stored).length = stored.length := by
  induction stored generalizing off with
  | nil => rfl
  | cons s stored ih => simp [ends, ih]

/-- The offsets of an index file: where each stored record starts, and the end. -/
def starts (stored : List Bytes) : List Nat := 0 :: ends 0 stored

@[simp] theorem length_starts (stored : List Bytes) : (starts stored).length = stored.length + 1 := by
  simp [starts]

theorem getElem?_ends (off : Nat) (stored : List Bytes) (i : Nat) (hi : i < stored.length) :
    (ends off stored)[i]? = some ((off + (stored.take (i + 1)).flatten.length) % u64Bound) := by
  induction stored generalizing off i with
  | nil => cases hi
  | cons s stored ih =>
    cases i with
    | zero => simp [ends]
    | succ i =>
      rw [ends, List.getElem?_cons_succ, ih _ i (by simpa using hi), List.take_succ_cons, List.flatten_cons,
        List.length_append, Nat.mod_add_mod, Nat.add_assoc]

/-- Offset `i` is the length of the records before it. -/
theorem getElem?_starts (stored : List Bytes) (i : Nat) (hi : i ≤ stored.length) :
    (starts stored)[i]? = some ((stored.take i).flatten.length % u64Bound) := by
  cases i with
  | zero => rfl
  | succ i => rw [starts, List.getElem?_cons_succ, getElem?_ends _ _ _ hi, Nat.zero_add]

theorem length_take_flatten_le {stored : List Bytes} {n : Nat} (h : ∀ s ∈ stored, s.length ≤ n) (i : Nat) :
    (stored.take i).flatten.length ≤ i * n := by
  induction stored generalizing i with
  | nil => simp
  | cons s stored ih =>
    cases i with
    | zero => simp
    | succ i =>
      have h1 := h s List.mem_cons_self
      have h2 := ih (fun x hx => h x (List.mem_cons_of_mem _ hx)) i
      rw [List.take_succ_cons, List.flatten_cons, List.length_append, Nat.succ_mul]
      omega

/-- A record's bytes are between its offsets. -/
theorem slice_flatten (stored : List Bytes) (i : Nat) (hi : i < stored.length) :
    slice stored.flatten (stored.take i).flatten.length stored[i].length = stored[i] ∧
      (stored.take (i + 1)).flatten.length = (stored.take i).flatten.length + stored[i].length ∧
      (stored.take (i + 1)).flatten.length ≤ stored.flatten.length := by
  have hsplit : stored.flatten = (stored.take i).flatten ++ (stored[i] ++ (stored.drop (i + 1)).flatten) := by
    rw [← List.flatten_cons, ← List.drop_eq_getElem_cons hi, ← List.flatten_append, List.take_append_drop]
  have hnext : (stored.take (i + 1)).flatten.length = (stored.take i).flatten.length + stored[i].length := by
    rw [List.take_succ_eq_append_getElem hi, List.flatten_append, List.length_append]
    simp
  refine ⟨?_, hnext, ?_⟩
  · rw [hsplit]
    exact slice_middle _ _ _ _ _ rfl rfl
  · rw [hnext, hsplit, List.length_append, List.length_append]
    omega

section

variable [ZstdCodec]

/-- What the writer makes of a list of records. -/
theorem writeAll_eq {records : List Bytes} : ∀ {w w' : RecordWriter}, w.writeAll records = .ok w' →
    ∃ stored, List.Forall₂ (fun rec s => RecordWriter.frame w.zstd rec = .ok s) records stored ∧
      w'.bin = w.bin ++ stored.flatten ∧ w'.idx = w.idx ++ table (le 8) (ends w.off stored) := by
  induction records with
  | nil =>
    intro w w' h
    obtain rfl := Except.ok.inj h
    exact ⟨[], List.Forall₂.nil, by simp, by simp [ends]⟩
  | cons rec records ih =>
    intro w w' h
    unfold RecordWriter.writeAll RecordWriter.write at h
    cases hs : RecordWriter.frame w.zstd rec with
    | error e =>
      rw [hs] at h
      cases h
    | ok s =>
      rw [hs] at h
      obtain ⟨stored, hframes, hbin, hidx⟩ := ih h
      refine ⟨s :: stored, List.Forall₂.cons hs hframes, ?_, ?_⟩
      · rw [hbin, List.flatten_cons, List.append_assoc]
      · rw [hidx, ends, table_cons, List.append_assoc]

/-- A plain writer never fails. -/
theorem writeAll_plain {records : List Bytes} : ∀ {w : RecordWriter}, w.zstd = none → ∃ w', w.writeAll records = .ok w' := by
  induction records with
  | nil => exact fun _ => ⟨_, rfl⟩
  | cons rec records ih =>
    intro w hw
    unfold RecordWriter.writeAll RecordWriter.write
    rw [hw]
    exact ih (w := { w with bin := w.bin ++ rec, idx := w.idx ++ _, off := _, written := _, zstd := none }) rfl

end

/-! ## What a store serves -/

namespace RecordStore

/-- The store reads the files of the stored records, and keeps resident at most a prefix of the index. -/
structure Serves [Zstd] (st : RecordStore) (records stored : List Bytes) : Prop where
  idx_eq : st.idx = MemoryFetch.new (RecordWriter.header st.version st.count ++ table (le 8) (starts stored))
  bin_eq : st.bin = MemoryFetch.new stored.flatten
  count_le : st.count ≤ stored.length
  count_lt : st.count < 2 ^ 32
  small : ∀ s ∈ stored, s.length ≤ 2 ^ 27
  decodes : List.Forall₂ (fun rec s => st.decode s = .ok rec) records stored
  resident : ∀ r, st.residentIdx = some r →
    r.bytes <+: st.idx.bytes ∧ recordHeaderSize + (r.upto + 1) * 8 ≤ r.bytes.length

@[simp] theorem length_header (version count : Nat) : (RecordWriter.header version count).length = recordHeaderSize := by
  simp [RecordWriter.header, recordMagic, recordHeaderSize]

theorem header_fields {version count : Nat} (hv : version < 2 ^ 16) (hc : count < 2 ^ 32) (rest : Bytes) :
    slice (RecordWriter.header version count ++ rest) 0 4 = recordMagic ∧
      getLe 2 (RecordWriter.header version count ++ rest) 4 = version ∧
      getLe 4 (RecordWriter.header version count ++ rest) 8 = count := by
  have hmagic : ∀ (w off : Nat) (x : Bytes), getLe w (recordMagic ++ x) (4 + off) = getLe w x off := by
    intro w off x
    rw [getLe_append_right _ _ _ _ (by simp [recordMagic])]
    congr 1
    simp [recordMagic]
  unfold RecordWriter.header
  simp only [List.append_assoc]
  refine ⟨?_, ?_, ?_⟩
  · rw [slice_append_left _ _ _ _ (by simp [recordMagic])]
    rfl
  · exact (hmagic 2 0 _).trans (getLe_field hv _)
  · exact (hmagic 4 4 _).trans ((getLe_le_skip 4 2 _ _ 2).trans ((getLe_le_skip 4 2 _ _ 0).trans (getLe_field hc _)))

section

variable [Zstd] {st : RecordStore} {records stored : List Bytes}

theorem Serves.length_idx (h : st.Serves records stored) :
    st.idx.bytes.length = recordHeaderSize + (stored.length + 1) * 8 := by
  rw [h.idx_eq]
  show (RecordWriter.header _ _ ++ table (le 8) (starts stored)).length = _
  rw [List.length_append, length_header, length_table (length_le 8), length_starts]

/-- Where record `id` starts and ends. -/
def span (stored : List Bytes) (id : Nat) : Nat × Nat :=
  ((stored.take id).flatten.length, (stored.take (id + 1)).flatten.length)

/-- The offsets of the ids are in the index file. -/
theorem Serves.offset_eq (h : st.Serves records stored) {i : Nat} (hi : i ≤ st.count) :
    getLe 8 st.idx.bytes (recordHeaderSize + i * 8) = (stored.take i).flatten.length := by
  have hcount := h.count_le
  have hlt := h.count_lt
  have hget := getElem?_starts stored i (by omega)
  have hi' : i < (starts stored).length := by rw [length_starts]; omega
  have hsmall : (stored.take i).flatten.length < u64Bound := by
    have := length_take_flatten_le h.small i
    unfold u64Bound
    omega
  rw [Nat.mod_eq_of_lt hsmall, List.getElem?_eq_getElem hi'] at hget
  rw [h.idx_eq]
  show getLe 8 (RecordWriter.header _ _ ++ table (le 8) (starts stored)) _ = _
  rw [getLe_append_right _ _ _ _ (by rw [length_header]; omega), length_header, Nat.add_sub_cancel_left]
  have hrow := getLe_table (length_le 8) (starts stored) i hi' 8 0 (by omega)
  rw [Nat.add_zero] at hrow
  rw [hrow, Option.some.inj hget, getLe_last hsmall]

theorem Serves.inFile_idx (h : st.Serves records stored) {id : Nat} (hid : id < st.count) :
    st.idx.InFile (recordHeaderSize + id * 8) 16 := by
  have hlen := h.length_idx
  have hcount := h.count_le
  have hlt := h.count_lt
  have hhead : recordHeaderSize = 16 := rfl
  refine ⟨by rw [h.idx_eq]; rfl, ?_, by omega⟩
  unfold u64Bound
  omega

/-- The pair that is read is the span of the record. -/
theorem Serves.pair_eq (h : st.Serves records stored) {id : Nat} (hid : id < st.count) :
    (getLe 8 (slice st.idx.bytes (recordHeaderSize + id * 8) 16) 0,
      getLe 8 (slice st.idx.bytes (recordHeaderSize + id * 8) 16) 8) = span stored id := by
  unfold span
  rw [getLe_slice _ _ _ _ _ (by omega), getLe_slice _ _ _ _ _ (by omega), Nat.add_zero, h.offset_eq (by omega)]
  have := h.offset_eq (show id + 1 ≤ st.count by omega)
  rw [show recordHeaderSize + id * 8 + 8 = recordHeaderSize + (id + 1) * 8 by omega, this]

omit [Zstd] in
theorem getLe_of_isPrefix {a b : Bytes} (h : a <+: b) {w off : Nat} (hw : off + w ≤ a.length) :
    getLe w a off = getLe w b off := by
  obtain ⟨c, rfl⟩ := h
  rw [getLe_append_left _ _ _ _ hw]

/-- A resident pair is the span of the record too. -/
theorem Serves.residentPair_eq (h : st.Serves records stored) {id : Nat} (hid : id < st.count) :
    st.residentPair id = none ∨ st.residentPair id = some (span stored id) := by
  unfold residentPair
  cases hr : st.residentIdx with
  | none => exact Or.inl rfl
  | some r =>
    rw [Option.bind_some]
    split
    · exact Or.inl rfl
    · next hupto =>
      obtain ⟨hpre, hlen⟩ := h.resident r hr
      refine Or.inr (congrArg some ?_)
      rw [getLe_of_isPrefix hpre (by omega), getLe_of_isPrefix hpre (by omega), h.offset_eq (by omega)]
      have := h.offset_eq (show id + 1 ≤ st.count by omega)
      rw [show recordHeaderSize + id * 8 + 8 = recordHeaderSize + (id + 1) * 8 by omega, this]
      rfl

theorem Serves.getElem_le (h : st.Serves records stored) {id : Nat} (hid : id < st.count) :
    ∃ hid' : id < stored.length, (span stored id).2 = (span stored id).1 + stored[id].length ∧
      (span stored id).2 ≤ stored.flatten.length ∧ (span stored id).2 < u64Bound ∧
      slice st.bin.bytes (span stored id).1 stored[id].length = stored[id] := by
  have hcount := h.count_le
  have hlt := h.count_lt
  have hid' : id < stored.length := by omega
  obtain ⟨hslice, hnext, hle⟩ := slice_flatten stored id hid'
  have hbound := length_take_flatten_le h.small (id + 1)
  refine ⟨hid', hnext, hle, ?_, ?_⟩
  · unfold span u64Bound
    simp only
    omega
  · rw [h.bin_eq]
    exact hslice

/-- The range of a record, from the pair that was read where it is not resident. -/
theorem Serves.recordRange_eq (h : st.Serves records stored) {id : Nat} (hid : id < st.count) {pair : Bytes}
    (hpair : st.residentPair id = none → pair = slice st.idx.bytes (recordHeaderSize + id * 8) 16) :
    st.recordRange id pair = .ok ((span stored id).1, (span stored id).2 - (span stored id).1) := by
  obtain ⟨hid', hnext, -, hlt, -⟩ := h.getElem_le hid
  have hspan : (st.residentPair id).getD (getLe 8 pair 0, getLe 8 pair 8) = span stored id := by
    rcases h.residentPair_eq hid with hp | hp
    · rw [hpair hp, hp, Option.getD_none, h.pair_eq hid]
    · rw [hp, Option.getD_some]
  unfold recordRange
  rw [if_neg (by omega), hspan]
  simp only
  rw [if_neg (by omega)]

/-- The bytes of the span are the stored record, which decodes to the record. -/
theorem Serves.blob_eq (h : st.Serves records stored) {id : Nat} (hid : id < st.count) :
    st.bin.InFile (span stored id).1 ((span stored id).2 - (span stored id).1) ∧
      ∃ rec, records[id]? = some rec ∧
        st.decode (slice st.bin.bytes (span stored id).1 ((span stored id).2 - (span stored id).1)) = .ok rec := by
  obtain ⟨hid', hnext, hle, hlt, hslice⟩ := h.getElem_le hid
  have hlen := h.decodes.length_eq
  refine ⟨⟨by rw [h.bin_eq]; rfl, by omega, ?_⟩, ?_⟩
  · rw [show st.bin.bytes = stored.flatten by rw [h.bin_eq]; rfl]
    omega
  · refine ⟨records[id], List.getElem?_eq_getElem (by omega), ?_⟩
    rw [hnext, Nat.add_sub_cancel_left, hslice]
    exact (List.forall₂_iff_get.mp h.decodes).2 id (by omega) hid'

/-- The record a store answers for an id. -/
def answer (st : RecordStore) (records : List Bytes) (id : Nat) : Option Bytes :=
  if id < st.count then records[id]? else none

/-- **`get` answers exactly the record**, and nothing past the count. -/
theorem Serves.settles_get (h : st.Serves records stored) (id : Nat) :
    Settles (st.get id) (.ok (st.answer records id)) := by
  unfold get answer
  by_cases hid : id < st.count
  · rw [if_neg (by omega), if_pos hid]
    obtain ⟨hin, rec, hrec, hdec⟩ := h.blob_eq hid
    have hread : ∃ pair, Settles (st.readPair id) (.ok pair) ∧
        (st.residentPair id = none → pair = slice st.idx.bytes (recordHeaderSize + id * 8) 16) := by
      unfold readPair
      cases hp : st.residentPair id with
      | none => exact ⟨_, MemoryFetch.settles_read (h.inFile_idx hid), fun _ => rfl⟩
      | some p => exact ⟨[], Settles.pure _, fun h => by cases h⟩
    obtain ⟨pair, hread, hpair⟩ := hread
    refine hread.bind ?_
    rw [h.recordRange_eq hid hpair]
    refine (Settles.ofOutcome _).bind ((MemoryFetch.settles_read hin).bind ?_)
    rw [hdec, hrec]
    exact (Settles.ofOutcome _).bind (Settles.pure _)
  · rw [if_pos (by omega), if_neg hid]
    exact Settles.pure _

/-- The range of the index that the first wave reads for an id, empty when it needs none. -/
def pairRange (st : RecordStore) (id : Nat) : Nat × Nat :=
  if id < st.count ∧ (st.residentPair id).isNone then (recordHeaderSize + id * 8, 16) else (0, 0)

/-- The range of the blob that the second wave reads for an id. -/
def wanted (st : RecordStore) (stored : List Bytes) (id : Nat) : Nat × Nat :=
  if st.count ≤ id then (0, 0) else ((span stored id).1, (span stored id).2 - (span stored id).1)

/-- **`get_many` answers for each id what `get` does**, whatever the order, the repetitions and the gap. -/
theorem Serves.settles_getMany (h : st.Serves records stored) (ids : List Nat) :
    Settles (st.getMany ids) (.ok (ids.map (st.answer records))) := by
  have hwave1 : Readable st.idx (ids.map st.pairRange) := by
    intro r hr hne
    obtain ⟨id, -, rfl⟩ := List.mem_map.mp hr
    unfold pairRange at hne ⊢
    split
    · next hid => exact h.inFile_idx hid.1
    · next hid =>
      rw [if_neg hid] at hne
      exact absurd rfl hne
  have hranges : ∀ id, st.recordRange id (slice st.idx.bytes (st.pairRange id).1 (st.pairRange id).2) =
      .ok (st.wanted stored id) := by
    intro id
    unfold wanted
    by_cases hid : st.count ≤ id
    · rw [if_pos hid, recordRange, if_pos hid]
    · rw [if_neg hid]
      refine h.recordRange_eq (by omega) fun hp => ?_
      have hread : st.pairRange id = (recordHeaderSize + id * 8, 16) := if_pos ⟨by omega, by rw [hp]; rfl⟩
      rw [hread]
  have hwave2 : Readable st.bin (ids.map (st.wanted stored)) := by
    intro r hr hne
    obtain ⟨id, -, rfl⟩ := List.mem_map.mp hr
    unfold wanted at hne ⊢
    split
    · next hid =>
      rw [if_pos hid] at hne
      exact absurd rfl hne
    · next hid => exact (h.blob_eq (show id < st.count by omega)).1
  have hfinish : ∀ id, (if st.count ≤ id then .ok none
      else (st.decode (slice st.bin.bytes (st.wanted stored id).1 (st.wanted stored id).2)).map some) =
      .ok (st.answer records id) := by
    intro id
    unfold wanted answer
    by_cases hid : st.count ≤ id
    · rw [if_pos hid, if_neg (by omega)]
    · obtain ⟨-, rec, hrec, hdec⟩ := h.blob_eq (show id < st.count by omega)
      rw [if_neg hid, if_neg hid, if_pos (by omega), hdec, hrec]
      rfl
  have hzip : ∀ (g : Nat → Bytes), ids.zip (ids.map g) = ids.map fun id => (id, g id) := by
    intro g
    have := @List.zip_map' _ _ _ id g ids
    rwa [List.map_id] at this
  have hcollect1 : collect ((ids.zip ((ids.map st.pairRange).map fun r => slice st.idx.bytes r.1 r.2)).map
      fun x => st.recordRange x.1 x.2) = .ok (ids.map (st.wanted stored)) := by
    rw [List.map_map, hzip, List.map_map]
    exact collect_map_ok fun id _ => hranges id
  have hcollect2 : collect ((ids.zip ((ids.map (st.wanted stored)).map fun r => slice st.bin.bytes r.1 r.2)).map
      fun x => if st.count ≤ x.1 then .ok none else (st.decode x.2).map some) = .ok (ids.map (st.answer records)) := by
    rw [List.map_map, hzip, List.map_map]
    exact collect_map_ok fun id _ => hfinish id
  unfold getMany
  refine (settles_readCoalesced hwave1).bind ?_
  rw [hcollect1]
  refine (Settles.ofOutcome _).bind ((settles_readCoalesced hwave2).bind ?_)
  rw [hcollect2]
  exact Settles.ofOutcome _

/-! ## Resident prefixes -/

/-- The calls that change what a store keeps resident or how it merges reads. -/
inductive Setting where
  | preloadIdx
  | preloadIdxPrefix (first : Nat)
  | setResidentIdx (bytes : Bytes)
  | setCoalesceGap (gap : Nat)

/-- A call whose reads go as the schedule says; one that fails leaves the store. -/
def Setting.apply (st : RecordStore) (s : Schedule FetchError) : Setting → RecordStore
  | preloadIdx => ((st.preloadIdx.run s).1.toOption).getD st
  | preloadIdxPrefix first => (((st.preloadIdxPrefix first).run s).1.toOption).getD st
  | setResidentIdx bytes => (st.setResidentIdx bytes).toOption.getD st
  | setCoalesceGap gap => st.setCoalesceGap gap

/-- Resident bytes that are handed over are a prefix of the index file. -/
def Setting.Honest (st : RecordStore) : Setting → Prop
  | setResidentIdx bytes => bytes <+: st.idx.bytes
  | _ => True

/-- One call, under some schedule. -/
def Step (st : RecordStore) (call : Setting) (st' : RecordStore) : Prop :=
  call.Honest st ∧ ∃ s, st' = call.apply st s

/-- What is kept resident does not matter to the rest. -/
theorem Serves.withResident (h : st.Serves records stored) (gap : Nat) {r : Option ResidentIdx}
    (hr : ∀ x, r = some x → x.bytes <+: st.idx.bytes ∧ recordHeaderSize + (x.upto + 1) * 8 ≤ x.bytes.length) :
    Serves { st with coalesceGap := gap, residentIdx := r } records stored :=
  ⟨h.idx_eq, h.bin_eq, h.count_le, h.count_lt, h.small, h.decodes, hr⟩

theorem Serves.settles_preload (h : st.Serves records stored) (first : Nat) :
    Settles (st.preloadIdxPrefix first) (.ok { st with residentIdx := some ⟨min first st.count,
      slice st.idx.bytes 0 (recordHeaderSize + (min first st.count + 1) * 8)⟩ }) := by
  have hlen := h.length_idx
  have hcount := h.count_le
  have hlt := h.count_lt
  have hhead : recordHeaderSize = 16 := rfl
  have hbound : recordHeaderSize + (min first st.count + 1) * 8 < u64Bound := by
    unfold u64Bound
    omega
  unfold preloadIdxPrefix
  refine (MemoryFetch.settles_read ⟨by rw [h.idx_eq]; rfl, by omega, by omega⟩).bind ?_
  exact Settles.pure _

theorem Serves.preload (h : st.Serves records stored) (first : Nat) (s : Schedule FetchError) :
    Serves ((((st.preloadIdxPrefix first).run s).1.toOption).getD st) records stored ∧
      ((((st.preloadIdxPrefix first).run s).1.toOption).getD st).count = st.count := by
  cases hrun : ((st.preloadIdxPrefix first).run s).1 with
  | error e => exact ⟨h, rfl⟩
  | ok st' =>
    obtain rfl := Except.ok.inj ((h.settles_preload first).eq_of_ok hrun)
    have hlen := h.length_idx
    have hcount := h.count_le
    refine ⟨h.withResident st.coalesceGap fun x hx => ?_, rfl⟩
    obtain rfl := Option.some.inj hx
    refine ⟨?_, ?_⟩
    · show slice _ _ _ <+: _
      rw [slice_zero]
      exact List.take_prefix _ _
    · show _ ≤ (slice _ _ _).length
      rw [length_slice _ _ _ (by omega)]

/-- **A store goes on serving** through every such call. -/
theorem Serves.step (h : st.Serves records stored) {call : Setting} {st' : RecordStore} (hs : Step st call st') :
    st'.Serves records stored ∧ st'.count = st.count := by
  obtain ⟨hhonest, s, rfl⟩ := hs
  cases call with
  | preloadIdx => exact h.preload st.count s
  | preloadIdxPrefix first => exact h.preload first s
  | setCoalesceGap gap => exact ⟨h.withResident gap h.resident, rfl⟩
  | setResidentIdx bytes =>
    show Serves ((st.setResidentIdx bytes).toOption.getD st) records stored ∧
      ((st.setResidentIdx bytes).toOption.getD st).count = st.count
    unfold setResidentIdx
    split
    · exact ⟨h, rfl⟩
    · next hlen =>
      split
      · exact ⟨h, rfl⟩
      · split
        · exact ⟨h, rfl⟩
        · refine ⟨h.withResident st.coalesceGap fun x hx => ?_, rfl⟩
          obtain rfl := Option.some.inj hx
          refine ⟨hhonest, ?_⟩
          show recordHeaderSize + (min ((bytes.length - recordHeaderSize) / 8 - 1) st.count + 1) * 8 ≤ bytes.length
          omega

theorem Serves.run (h : st.Serves records stored) {calls : List Setting} {st' : RecordStore}
    (hrun : Run Step st calls st') : st'.Serves records stored ∧ st'.count = st.count := by
  refine Run.invariant (I := fun _ st' => st'.Serves records stored ∧ st'.count = st.count) ⟨h, rfl⟩ ?_ hrun
  rintro _ c _ c' ⟨hserves, hcount⟩ hs
  obtain ⟨hserves', hcount'⟩ := hserves.step hs
  exact ⟨hserves', hcount'.trans hcount⟩

/-! ## The round trip -/

omit [Zstd] in
/-- Opening the files of a list of stored records. -/
theorem settles_open (version count : Nat) (hv : version = 1 ∨ version = 2) (hc : count < 2 ^ 32) (idx : Bytes)
    (bin : MemoryFetch) :
    Settles (RecordStore.open (MemoryFetch.new (RecordWriter.header version count ++ idx)) bin)
      (.ok ⟨MemoryFetch.new (RecordWriter.header version count ++ idx), bin, count, version, none,
        RoaringRange.coalesceGap, none⟩) := by
  unfold RecordStore.open
  have hin : (MemoryFetch.new (RecordWriter.header version count ++ idx)).InFile 0 recordHeaderSize := by
    refine ⟨rfl, by decide, ?_⟩
    show _ ≤ (RecordWriter.header version count ++ idx).length
    rw [List.length_append, length_header]
    omega
  refine (MemoryFetch.settles_read hin).bind ?_
  have hslice : slice (MemoryFetch.new (RecordWriter.header version count ++ idx)).bytes 0 recordHeaderSize =
      RecordWriter.header version count ++ [] := by
    show slice (RecordWriter.header version count ++ idx) 0 recordHeaderSize = _
    rw [slice_zero, ← length_header version count, List.take_left, List.append_nil]
  obtain ⟨hmagic, hver, hcnt⟩ := header_fields (show version < 2 ^ 16 by omega) hc []
  rw [hslice]
  unfold fromBoot
  rw [hmagic, hver, hcnt, if_neg (by rw [List.append_nil, length_header]; omega), if_neg (not_not.mpr rfl),
    if_neg (by omega)]
  exact Settles.ofOutcome _

/-- Whatever is made resident and however reads are merged, the store answers with the records. -/
def Answers (st : RecordStore) (records : List Bytes) : Prop :=
  st.count = records.length % 2 ^ 32 ∧ ∀ calls st', Run Step st calls st' →
    (∀ id, Settles (st'.get id) (.ok (if id < st.count then records[id]? else none))) ∧
    ∀ ids, Settles (st'.getMany ids) (.ok (ids.map fun id => if id < st.count then records[id]? else none))

theorem Serves.answers (h : st.Serves records stored) (hcount : st.count = records.length % 2 ^ 32) :
    st.Answers records := by
  refine ⟨hcount, fun calls st' hrun => ?_⟩
  obtain ⟨hserves, hcount'⟩ := h.run hrun
  have hanswer : st'.answer records = fun id => if id < st.count then records[id]? else none := by
    funext id
    rw [answer, hcount']
  refine ⟨fun id => ?_, fun ids => ?_⟩
  · have := hserves.settles_get id
    rwa [hanswer] at this
  · have := hserves.settles_getMany ids
    rwa [hanswer] at this

end

/-- A frame decodes to the record it was made of, and is little longer. -/
theorem decode_frame [ZstdCodec] {st : RecordStore} (hv : st.version = 2) {dict : Bytes} (hd : st.dict = some dict) {level : Int} {rec s : Bytes}
    (hsize : rec.length ≤ maxDecompressedRecord) (h : RecordWriter.frameZstd dict level rec = .ok s) :
    st.decode s = .ok rec ∧ s.length ≤ rec.length + 1 := by
  unfold RecordWriter.frameZstd at h
  split at h
  · next hempty =>
    obtain rfl := Except.ok.inj h
    rw [List.isEmpty_iff.mp hempty]
    refine ⟨?_, Nat.zero_le _⟩
    unfold decode
    rw [if_neg (by omega)]
  · cases hc : ZstdCodec.compress dict level rec with
    | error e =>
      rw [hc] at h
      cases h
    | ok compressed =>
      rw [hc] at h
      obtain rfl := Except.ok.inj h
      have hver : ¬ st.version = 1 := by omega
      split
      · next hshorter =>
        refine ⟨?_, ?_⟩
        · unfold decode
          simp only
          rw [if_neg hver, if_neg (by decide), if_pos trivial, inflateZstd, hd]
          simp only
          rw [ZstdCodec.decoder_compress dict level rec compressed hc]
          simp only
          rw [if_neg (by omega)]
          rfl
        · rw [List.length_cons]
          omega
      · refine ⟨?_, Nat.le_refl _⟩
        unfold decode
        simp only
        rw [if_neg hver, if_pos trivial]

/-- **The record store round trip**, plain or compressed. -/
theorem records_roundTrip [ZstdCodec] {records : List Bytes} (hsize : ∀ rec ∈ records, rec.length ≤ 64 * 2 ^ 20) :
    (∃ bin idx st, writeRecords records = .ok (bin, idx) ∧
      Settles (RecordStore.open (MemoryFetch.new idx) (MemoryFetch.new bin)) (.ok st) ∧ st.Answers records) ∧
    ∀ dict level bin idx, writeRecordsZstd records dict level = .ok (bin, idx) →
      ∃ st, Settles (openWithDict (MemoryFetch.new idx) (MemoryFetch.new bin) dict) (.ok st) ∧ st.Answers records := by
  have hcount : records.length % 2 ^ 32 < 2 ^ 32 := Nat.mod_lt _ (by decide)
  have hcount' : records.length % 2 ^ 32 ≤ records.length := Nat.mod_le _ _
  have hidx : ∀ (version : Nat) (stored : List Bytes),
      (RecordWriter.header version (records.length % 2 ^ 32) ++ le 8 0) ++ table (le 8) (ends 0 stored) =
        RecordWriter.header version (records.length % 2 ^ 32) ++ table (le 8) (starts stored) := by
    intro version stored
    rw [starts, table_cons, List.append_assoc]
  refine ⟨?_, fun dict level bin idx hwrite => ?_⟩
  · obtain ⟨w, hw⟩ := @writeAll_plain _ records (RecordWriter.new (records.length % 2 ^ 32)) rfl
    obtain ⟨stored, hframes, hbin, hix⟩ := writeAll_eq hw
    obtain rfl : records = stored := by
      refine List.forall₂_eq_eq_eq ▸ hframes.imp fun rec s h => ?_
      exact Except.ok.inj h
    have hserves : Serves ⟨MemoryFetch.new w.idx, MemoryFetch.new w.bin, records.length % 2 ^ 32, 1, none,
        RoaringRange.coalesceGap, none⟩ records records := by
      refine ⟨?_, ?_, hcount', hcount, fun s hs => ?_, ?_, fun r hr => by cases hr⟩
      · rw [hix]
        exact congrArg MemoryFetch.new (hidx 1 records)
      · rw [hbin]
        rfl
      · have := hsize s hs
        omega
      · refine List.forall₂_same.mpr fun rec _ => ?_
        unfold decode
        cases rec with
        | nil => rfl
        | cons tag payload => rfl
    refine ⟨w.bin, w.idx, _, ?_, ?_, hserves.answers rfl⟩
    · unfold writeRecords
      rw [hw]
      rfl
    · have hopen := settles_open 1 (records.length % 2 ^ 32) (Or.inl rfl) hcount (table (le 8) (starts records))
        (MemoryFetch.new w.bin)
      have hixeq : w.idx = RecordWriter.header 1 (records.length % 2 ^ 32) ++ table (le 8) (starts records) :=
        hix.trans (hidx 1 records)
      rwa [← hixeq] at hopen
  · unfold writeRecordsZstd at hwrite
    cases hw : (RecordWriter.newZstd (records.length % 2 ^ 32) dict level).writeAll records with
    | error e =>
      rw [hw] at hwrite
      cases hwrite
    | ok w =>
      rw [hw] at hwrite
      obtain ⟨rfl, rfl⟩ := Prod.mk.inj (Except.ok.inj hwrite)
      obtain ⟨stored, hframes, hbin, hix⟩ := writeAll_eq hw
      have hlen := hframes.length_eq
      have hboth : List.Forall₂ (fun rec s => RecordStore.decode ⟨MemoryFetch.new w.idx, MemoryFetch.new w.bin,
          records.length % 2 ^ 32, 2, some dict, RoaringRange.coalesceGap, none⟩ s = .ok rec ∧
          s.length ≤ rec.length + 1) records stored := by
        refine List.forall₂_iff_get.mpr ⟨hlen, fun i h1 h2 => ?_⟩
        exact decode_frame rfl rfl (hsize _ (List.get_mem _ _)) ((List.forall₂_iff_get.mp hframes).2 i h1 h2)
      have hserves : Serves ⟨MemoryFetch.new w.idx, MemoryFetch.new w.bin, records.length % 2 ^ 32, 2, some dict,
          RoaringRange.coalesceGap, none⟩ records stored := by
        refine ⟨?_, ?_, by show records.length % 2 ^ 32 ≤ _; omega, hcount, fun s hs => ?_, hboth.imp fun _ _ h => h.1,
          fun r hr => by cases hr⟩
        · rw [hix]
          exact congrArg MemoryFetch.new (hidx 2 stored)
        · rw [hbin]
          rfl
        · obtain ⟨rec, hrec, -, hs'⟩ := exists_partner_left hboth hs
          have := hsize rec hrec
          omega
      refine ⟨_, ?_, hserves.answers rfl⟩
      unfold openWithDict
      have hopen := settles_open 2 (records.length % 2 ^ 32) (Or.inr rfl) hcount (table (le 8) (starts stored))
        (MemoryFetch.new w.bin)
      have hixeq : w.idx = RecordWriter.header 2 (records.length % 2 ^ 32) ++ table (le 8) (starts stored) :=
        hix.trans (hidx 2 stored)
      rw [← hixeq] at hopen
      exact hopen.bind (Settles.pure _)

/-- A store of a multiple of `2 ^ 32` records holds none. -/
theorem none_of_wrapped [ZstdCodec] {records : List Bytes} (hlen : records.length % 2 ^ 32 = 0) :
    ∃ bin idx st, writeRecords records = .ok (bin, idx) ∧
      Settles (RecordStore.open (MemoryFetch.new idx) (MemoryFetch.new bin)) (.ok st) ∧
      Settles (st.get 0) (.ok none) := by
  obtain ⟨w, hw⟩ := @writeAll_plain _ records (RecordWriter.new 0) rfl
  obtain ⟨stored, -, -, hidx⟩ := writeAll_eq hw
  refine ⟨w.bin, w.idx, ⟨MemoryFetch.new w.idx, MemoryFetch.new w.bin, 0, 1, none, RoaringRange.coalesceGap, none⟩,
    ?_, ?_, ?_⟩
  · unfold writeRecords
    rw [hlen, hw]
    rfl
  · have hopen := settles_open 1 0 (Or.inl rfl) (by decide) (le 8 0 ++ table (le 8) (ends 0 stored)) (MemoryFetch.new w.bin)
    have hixeq : w.idx = RecordWriter.header 1 0 ++ (le 8 0 ++ table (le 8) (ends 0 stored)) := by
      rw [hidx, ← List.append_assoc]
      rfl
    rwa [← hixeq] at hopen
  · exact Settles.pure _

section

/-- A frame of one raw block, which is how zstd stores a record too short to gain from compression. -/
def rawBlockFrame (rec : Bytes) : Except String Bytes :=
  if rec.length < 256 then .ok ([0x28, 0xB5, 0x2F, 0xFD, 0x20] ++ (le 1 rec.length ++ (le 3 (8 * rec.length + 1) ++ rec)))
  else .error "block too large"

def rawBlockPayload (frame : Bytes) : Option (Bytes × Bool) :=
  if frame.take 4 = [0x28, 0xB5, 0x2F, 0xFD] then some (frame.drop 9, false) else none

theorem rawBlockPayload_frame (_ : Bytes) (_ : Int) (rec frame : Bytes) (h : rawBlockFrame rec = .ok frame) :
    rawBlockPayload frame = some (rec, false) := by
  unfold rawBlockFrame at h
  split at h
  · obtain rfl := Except.ok.inj h
    simp [rawBlockPayload, le]
  · cases h

@[reducible] def rawBlockZstd : ZstdCodec where
  decoder _ := rawBlockPayload
  compress _ _ := rawBlockFrame
  decoder_compress := rawBlockPayload_frame

attribute [local instance] rawBlockZstd

def threeRecords : List Bytes := [[7, 7], [], [9]]

theorem records_roundTrip_threeRecords :
    (∃ bin idx st, writeRecords threeRecords = .ok (bin, idx) ∧
      Settles (RecordStore.open (MemoryFetch.new idx) (MemoryFetch.new bin)) (.ok st) ∧ st.Answers threeRecords) ∧
    ∃ bin idx st, writeRecordsZstd threeRecords [1] 3 = .ok (bin, idx) ∧
      Settles (openWithDict (MemoryFetch.new idx) (MemoryFetch.new bin) [1]) (.ok st) ∧ st.Answers threeRecords := by
  obtain ⟨hplain, hzstd⟩ := @records_roundTrip _ threeRecords (by decide)
  obtain ⟨bin, idx, hwrite⟩ : ∃ bin idx, writeRecordsZstd threeRecords [1] 3 = .ok (bin, idx) := ⟨_, _, rfl⟩
  obtain ⟨st, hopen, hanswers⟩ := hzstd [1] 3 bin idx hwrite
  exact ⟨hplain, bin, idx, st, hwrite, hopen, hanswers⟩

/-- More empty records than the header can count. -/
def crowdedRecords : List Bytes := List.replicate (2 ^ 32) []

theorem crowded_records_lost : crowdedRecords[0]? = some [] ∧
    ∃ bin idx st, writeRecords crowdedRecords = .ok (bin, idx) ∧
      Settles (RecordStore.open (MemoryFetch.new idx) (MemoryFetch.new bin)) (.ok st) ∧
      Settles (st.get 0) (.ok none) := by
  refine ⟨?_, none_of_wrapped ?_⟩
  · unfold crowdedRecords
    rw [List.getElem?_replicate, if_pos (by decide)]
  · unfold crowdedRecords
    rw [List.length_replicate, Nat.mod_self]

end

end RecordStore

end RoaringRange
