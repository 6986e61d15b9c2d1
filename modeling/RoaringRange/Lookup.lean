import RoaringRange.Fetch
import RoaringRange.Ngram
import RoaringRange.Lib.Interpolate
import Mathlib.Order.Lex
import Mathlib.Data.Prod.Lex

/-!
# The identifier index (`lookup.rs`, `build.rs`)

An identifier is normalized and hashed twice; the table of `(hash, verify, doc)` records is sorted by
`(hash, doc)`.  A lookup narrows the table by interpolation until a window fits one read, skips to the
first record of the hash and takes the docs of its run whose verify word is the identifier's.

    the search never panics and never runs on, whatever the table holds            (returns_lookup)
    over a written table a lookup gives the docs of the identifier's records        (lookup_exact)
-/

namespace RoaringRange

open ByteString Faults Slices Interpolate

/-! ## Hashing identifiers -/

/-- `lookup::FNV_VERIFY_BASIS`. -/
def fnvVerifyBasis : UInt64 := 0x9E3779B97F4A7C15

/-- The char a byte of an identifier is kept as. -/
def idChar (c : UInt8) : Option Char :=
  if (48 ≤ c ∧ c ≤ 57) ∨ (65 ≤ c ∧ c ≤ 90) then some (Char.ofNat c.toNat)
  else if 97 ≤ c ∧ c ≤ 122 then some (Char.ofNat (c.toNat - 32))
  else none

/-- `lookup::normalize_id`. -/
def normalizeId (s : String) : String := String.ofList ((utf8 s).filterMap idChar)

/-- `lookup::fnv64a_basis`. -/
def fnv64aBasis (s : String) (basis : UInt64) : UInt64 := (utf8 s).foldl (fun h b => fnvByte h b.toUInt64) basis

/-- A record of the table. -/
structure LookupRow where
  hash : Key
  verify : Fin (2 ^ 32)
  doc : Fin (2 ^ 32)
  deriving DecidableEq, Repr

/-- The two words an identifier is found by; one that normalizes to nothing has none. -/
def idWords (id : String) : Option (Key × Fin (2 ^ 32)) :=
  let n := normalizeId id
  if n.isEmpty then none
  else some ((fnv64aBasis n fnvOffset64).toFin, (fnv64aBasis n fnvVerifyBasis).toUInt32.toFin)

/-! ## Writing -/

/-- `RRIL`. -/
def rrilMagic : Bytes := [82, 82, 73, 76]

/-- `lookup::HEADER_SIZE`. -/
def rrilHeaderSize : Nat := 16

/-- `lookup::REC_SIZE`. -/
def recSize : Nat := 16

/-- The records of the entries, in their order. -/
def lookupRows (entries : List (String × Fin (2 ^ 32))) : List LookupRow :=
  entries.filterMap fun e => (idWords e.1).map fun w => ⟨w.1, w.2, e.2⟩

def writeRow (r : LookupRow) : Bytes := le 8 r.hash.val ++ (le 4 r.verify.val ++ le 4 r.doc.val)

/-- The order of the table. -/
def LookupRow.sortKey (r : LookupRow) : Key ×ₗ Fin (2 ^ 32) := toLex (r.hash, r.doc)

/-- `build::write_lookup_streaming`. -/
def writeLookupStreaming (entries : List (String × Fin (2 ^ 32))) : Bytes :=
  let recs := sortByKey LookupRow.sortKey (lookupRows entries)
  rrilMagic ++ (le 2 1 ++ (le 2 0 ++ (le 4 (recs.length % 2 ^ 32) ++ le 4 0))) ++ table writeRow recs

/-! ## Reading -/

/-- `lookup::BLOCK_RECORDS`. -/
def blockRecords : Nat := 512

/-- `lookup::Lookup`. -/
structure Lookup where
  fetch : MemoryFetch
  count : Nat
  deriving DecidableEq

namespace Lookup

/-- `Lookup::from_boot`. -/
def fromBoot (header : Bytes) (f : MemoryFetch) : Except IndexError Lookup :=
  if header.length < rrilHeaderSize then .error (.malformed "short RRIL header")
  else if slice header 0 4 ≠ rrilMagic then .error (.badMagic (slice header 0 4))
  else if getLe 2 header 4 ≠ 1 then .error (.badVersion (getLe 2 header 4))
  else .ok ⟨f, getLe 4 header 8⟩

/-- `Lookup::open`. -/
def «open» (f : MemoryFetch) : Io Lookup := do
  let header ← f.read 0 rrilHeaderSize
  ofOutcome (fromBoot header f)

/-- The fields `(hash, verify, doc)` of the record at `off`. -/
def fields (b : Bytes) (off : Nat) : Nat × Nat × Nat := (getLe 8 b off, getLe 4 b (off + 8), getLe 4 b (off + 12))

/-- `Lookup::record`. -/
def record (lk : Lookup) (i : Nat) : Io (Nat × Nat × Nat) := do
  let b ← lk.fetch.read (rrilHeaderSize + i * recSize) recSize
  pure (fields b 0)

/-- `Lookup::read_records`. -/
def readRecords (lk : Lookup) (start stop : Nat) : Io Bytes :=
  lk.fetch.read (rrilHeaderSize + start * recSize) ((stop - start) * recSize)

/-- The search's loop; none where its arithmetic panics, or when it has not ended after `fuel` probes. -/
def search (lk : Lookup) (hash : Nat) : Nat → Window → Io (Option Window)
  | 0, _ => pure none
  | fuel + 1, w =>
    match sub w.hi w.lo with
    | none => pure none
    | some width =>
      if width ≤ blockRecords then pure (some w)
      else
        match w.probe hash with
        | none => pure none
        | some mid => do
          let r ← lk.record mid
          match w.narrow mid r.1 hash with
          | none => pure none
          | some w' => search lk hash fuel w'

/-- The first of the `n` records of the block from `i` on that does not hash below the target. -/
def skipBelow (block : Bytes) (lo hash : Nat) : Nat → Nat → Nat
  | 0, i => i
  | n + 1, i => if (fields block ((i - lo) * recSize)).1 < hash then skipBelow block lo hash n (i + 1) else i

/-- Record `i`, from the block up to `stop` and by a read of its own from there. -/
def rowAt (lk : Lookup) (block : Bytes) (lo stop i : Nat) : Io (Nat × Nat × Nat) :=
  if i < stop then pure (fields block ((i - lo) * recSize)) else lk.record i

/-- The docs of the run of equal hashes among the `n` records from `i` on. -/
def scanRun (lk : Lookup) (block : Bytes) (lo stop hash verify : Nat) : Nat → Nat → Io (List Nat)
  | 0, _ => pure []
  | n + 1, i => do
    let r ← lk.rowAt block lo stop i
    if r.1 ≠ hash then pure []
    else do
      let rest ← scanRun lk block lo stop hash verify n (i + 1)
      pure (if r.2.1 = verify then r.2.2 :: rest else rest)

/-- `Lookup::lookup`; none where it panics or does not end. -/
def lookup (lk : Lookup) (identifier : String) : Io (Option (List Nat)) :=
  match idWords identifier with
  | none => pure (some [])
  | some (hash, verify) =>
    if lk.count = 0 then pure (some [])
    else do
      match ← lk.search hash.val (lk.count + 1) ⟨0, lk.count, 0, 2 ^ 64⟩ with
      | none => pure none
      | some w =>
        if lk.count ≤ w.lo then pure (some [])
        else do
          let stop := min (min (w.lo + blockRecords) (2 ^ 32 - 1)) lk.count
          let block ← lk.readRecords w.lo stop
          let i := skipBelow block w.lo hash.val (stop - w.lo) w.lo
          let docs ← lk.scanRun block w.lo stop hash.val verify.val (lk.count - i) i
          pure (some docs)

/-! ## The search always ends -/

theorem fields_fst_lt (b : Bytes) (off : Nat) : (fields b off).1 < 2 ^ 64 := getLe_lt 8 b off

theorem returns_record (lk : Lookup) (i : Nat) : Returns (fun r => r.1 < 2 ^ 64) (lk.record i) :=
  (Returns.true _).bind fun b _ => Returns.pure (fields_fst_lt b 0)

/-- From a bracketed window the search ends in one that fits a read. -/
theorem returns_search {lk : Lookup} (hcount : lk.count < 2 ^ 32) {hash : Nat} : ∀ {fuel : Nat} {w : Window},
    w.Brackets lk.count hash → w.hi - w.lo < fuel →
    Returns (fun r => ∃ w', r = some w' ∧ w'.Brackets lk.count hash) (lk.search hash fuel w) := by
  intro fuel
  induction fuel with
  | zero => intro w _ h; omega
  | succ fuel ih =>
    intro w hw hfuel
    unfold search
    rw [sub_eq hw.lo_le]
    simp only
    split
    · exact Returns.pure ⟨w, rfl, hw⟩
    · next hwide =>
      have hblock : blockRecords = 512 := rfl
      obtain ⟨mid, hprobe, hmid, hmid'⟩ := Window.probe_spec hw hcount (by omega)
      rw [hprobe]
      refine (returns_record lk mid).bind fun r hr => ?_
      obtain ⟨w', hnarrow, hw', hless⟩ := Window.narrow_spec hw hcount hmid hmid' hr
      rw [hnarrow]
      exact ih hw' (by omega)

theorem brackets_start {lk : Lookup} (hash : Key) :
    (Window.mk 0 lk.count 0 (2 ^ 64)).Brackets lk.count hash.val :=
  ⟨Nat.zero_le _, Nat.le_refl _, Nat.zero_le _, Nat.le_of_lt hash.isLt, Nat.le_refl _⟩

/-- **A lookup never panics and never runs on**, whatever the table holds. -/
theorem returns_lookup {lk : Lookup} (hcount : lk.count < 2 ^ 32) (identifier : String) :
    Returns (fun r => r ≠ none) (lk.lookup identifier) := by
  unfold lookup
  split
  · exact Returns.pure (by simp)
  · next hash verify _ =>
    split
    · exact Returns.pure (by simp)
    · refine (returns_search hcount (brackets_start hash) (Nat.lt_succ_self _)).bind ?_
      rintro _ ⟨w, rfl, -⟩
      simp only
      split
      · exact Returns.pure (by simp)
      · refine (Returns.true _).bind fun block _ => (Returns.true _).bind fun docs _ => ?_
        exact Returns.pure (by simp)

/-! ## Over a written table -/

/-- The lookup reads the table of `rows`. -/
structure Holds (lk : Lookup) (rows : List LookupRow) : Prop where
  count_eq : lk.count = rows.length
  count_lt : rows.length < 2 ^ 32
  file : ∃ header : Bytes, header.length = rrilHeaderSize ∧ lk.fetch = MemoryFetch.new (header ++ table writeRow rows)

@[simp] theorem length_writeRow (r : LookupRow) : (writeRow r).length = recSize := by
  simp [writeRow, recSize]

/-- The fields of a row. -/
theorem fields_writeRow (r : LookupRow) : fields (writeRow r) 0 = (r.hash.val, r.verify.val, r.doc.val) := by
  unfold fields writeRow
  rw [getLe_field r.hash.isLt]
  have h8 : getLe 4 (le 8 r.hash.val ++ (le 4 r.verify.val ++ le 4 r.doc.val)) (8 + 0) = r.verify.val := by
    rw [getLe_le_skip, getLe_field r.verify.isLt]
  have h12 : getLe 4 (le 8 r.hash.val ++ (le 4 r.verify.val ++ le 4 r.doc.val)) (8 + (4 + 0)) = r.doc.val := by
    rw [getLe_le_skip, getLe_le_skip, getLe_last r.doc.isLt]
  rw [Nat.zero_add, Nat.zero_add]
  rw [h8, h12]

theorem fields_slice (b : Bytes) (off len off' : Nat) (h : off' + recSize ≤ len) :
    fields (slice b off len) off' = fields (slice b (off + off') recSize) 0 := by
  have hrec : recSize = 16 := rfl
  unfold fields
  rw [getLe_slice _ _ _ _ _ (by omega), getLe_slice _ _ _ _ _ (by omega), getLe_slice _ _ _ _ _ (by omega),
    getLe_slice _ _ _ _ _ (by omega), getLe_slice _ _ _ _ _ (by omega), getLe_slice _ _ _ _ _ (by omega)]
  simp only [Nat.zero_add, Nat.add_zero, Nat.add_assoc]

section

variable {lk : Lookup} {rows : List LookupRow}

theorem Holds.inFile (h : lk.Holds rows) {i n : Nat} (hi : i + n ≤ rows.length) :
    lk.fetch.InFile (rrilHeaderSize + i * recSize) (n * recSize) := by
  obtain ⟨header, hlen, hfile⟩ := h.file
  have hlt := h.count_lt
  have hrec : recSize = 16 := rfl
  have hsize : (header ++ table writeRow rows).length = rrilHeaderSize + rows.length * recSize := by
    rw [List.length_append, hlen, length_table length_writeRow]
  have hhead : rrilHeaderSize = 16 := rfl
  rw [hfile]
  refine MemoryFetch.inFile_new ?_ ?_
  · rw [hsize, hrec, hhead, u64Bound]
    omega
  · rw [hsize, hrec]
    omega

theorem Holds.slice_eq (h : lk.Holds rows) {i : Nat} (hi : i < rows.length) :
    slice lk.fetch.bytes (rrilHeaderSize + i * recSize) recSize = writeRow rows[i] := by
  obtain ⟨header, hlen, hfile⟩ := h.file
  rw [hfile]
  show slice (header ++ table writeRow rows) _ _ = _
  rw [slice_append_right _ _ _ _ (by omega), hlen, Nat.add_sub_cancel_left, slice_table length_writeRow _ _ hi]

theorem Holds.settles_record (h : lk.Holds rows) {i : Nat} (hi : i < rows.length) :
    Settles (lk.record i) (.ok (rows[i].hash.val, rows[i].verify.val, rows[i].doc.val)) := by
  have hin := @Holds.inFile _ _ h i 1 (by omega)
  rw [Nat.one_mul] at hin
  have hread := MemoryFetch.settles_read hin
  rw [h.slice_eq hi] at hread
  rw [← fields_writeRow]
  exact hread.bind (Settles.pure _)

/-- A row of a window that was read. -/
theorem Holds.fields_block (h : lk.Holds rows) {start stop i : Nat} (hs : start ≤ i) (hi : i < stop)
    (hstop : stop ≤ rows.length) :
    fields (slice lk.fetch.bytes (rrilHeaderSize + start * recSize) ((stop - start) * recSize))
      ((i - start) * recSize) = ((rows[i]).hash.val, (rows[i]).verify.val, (rows[i]).doc.val) := by
  have hrec : recSize = 16 := rfl
  rw [fields_slice _ _ _ _ (by rw [hrec]; omega), ← fields_writeRow, ← h.slice_eq (by omega)]
  congr 2
  rw [hrec]
  omega

/-- The hash of record `i`. -/
def hashAt (rows : List LookupRow) (i : Nat) : Nat := (rows[i]?.map fun r => r.hash.val).getD 0

theorem hashAt_eq {i : Nat} (hi : i < rows.length) : hashAt rows i = rows[i].hash.val := by
  rw [hashAt, List.getElem?_eq_getElem hi]
  rfl

/-- The window the search ends in holds the first record that does not hash below the target. -/
theorem Holds.settles_search (h : lk.Holds rows) (hasc : rows.Pairwise fun a b => a.hash ≤ b.hash) {hash : Nat} :
    ∀ {fuel : Nat} {w : Window}, w.Brackets lk.count hash → w.hi - w.lo < fuel →
      w.Splits (hashAt rows) lk.count hash →
      ∃ w', Settles (lk.search hash fuel w) (.ok (some w')) ∧ w'.Brackets lk.count hash ∧
        w'.Splits (hashAt rows) lk.count hash ∧
        w'.hi - w'.lo ≤ blockRecords := by
  have hlen := h.count_eq
  have hlt := h.count_lt
  have hmono : ∀ i j, i ≤ j → j < lk.count → hashAt rows i ≤ hashAt rows j := by
    intro i j hij hj
    rw [hashAt_eq (show i < rows.length by omega), hashAt_eq (show j < rows.length by omega)]
    rcases Nat.eq_or_lt_of_le hij with rfl | hij
    · exact Nat.le_refl _
    · exact List.pairwise_iff_getElem.mp hasc i j (by omega) (by omega) hij
  intro fuel
  induction fuel with
  | zero => intro w _ hf; omega
  | succ fuel ih =>
    intro w hw hfuel hsplit
    unfold search
    rw [sub_eq hw.lo_le]
    simp only
    split
    · next hwide => exact ⟨w, Settles.pure _, hw, hsplit, hwide⟩
    · next hwide =>
      have hblock : blockRecords = 512 := rfl
      have hhi := hw.hi_le
      obtain ⟨mid, hprobe, hmid, hmid'⟩ := Window.probe_spec hw (by omega) (by omega)
      have hmidlt : mid < rows.length := by omega
      obtain ⟨w', hnarrow, hw', hless⟩ := Window.narrow_spec hw (by omega) hmid hmid' (rows[mid]).hash.isLt
      have hsplit' := hsplit.narrow hmono (show mid < lk.count by omega) (by rw [hashAt_eq hmidlt]; exact hnarrow)
      obtain ⟨w'', hsettles, hrest⟩ := ih hw' (by omega) hsplit'
      refine ⟨w'', ?_, hrest⟩
      rw [hprobe]
      refine (h.settles_record hmidlt).bind ?_
      simp only
      rw [hnarrow]
      exact hsettles

/-- Skipping stops at the first record that does not hash below the target. -/
theorem Holds.skipBelow_spec (h : lk.Holds rows) {start stop hash : Nat} (hstop : stop ≤ rows.length) :
    ∀ {n i : Nat}, start ≤ i → i + n = stop →
    ∃ j, skipBelow (slice lk.fetch.bytes (rrilHeaderSize + start * recSize) ((stop - start) * recSize)) start hash n i = j ∧
      i ≤ j ∧ j ≤ stop ∧ (∀ k (hk : k < rows.length), i ≤ k → k < j → rows[k].hash.val < hash) ∧
      (∀ hj : j < rows.length, j < stop → hash ≤ rows[j].hash.val) := by
  intro n
  induction n with
  | zero =>
    intro i _ hn
    exact ⟨i, rfl, Nat.le_refl _, by omega, fun k _ h1 h2 => by omega, fun _ h1 => by omega⟩
  | succ n ih =>
    intro i hs hn
    unfold skipBelow
    rw [h.fields_block hs (show i < stop by omega) hstop]
    simp only
    split
    · next hlt =>
      obtain ⟨j, hj, hij, hjs, hbelow, hat⟩ := ih (show start ≤ i + 1 by omega) (by omega)
      refine ⟨j, hj, by omega, hjs, fun k hk h1 h2 => ?_, hat⟩
      rcases Nat.eq_or_lt_of_le h1 with rfl | h1
      · exact hlt
      · exact hbelow k hk h1 h2
    · next hge =>
      exact ⟨i, rfl, Nat.le_refl _, by omega, fun k _ h1 h2 => by omega, fun _ _ => by omega⟩

theorem Holds.settles_rowAt (h : lk.Holds rows) {start stop i : Nat} (hs : start ≤ i) (hi : i < rows.length)
    (hstop : stop ≤ rows.length) :
    Settles (lk.rowAt (slice lk.fetch.bytes (rrilHeaderSize + start * recSize) ((stop - start) * recSize)) start stop i)
      (.ok (rows[i].hash.val, rows[i].verify.val, rows[i].doc.val)) := by
  unfold rowAt
  split
  · next hlt =>
    rw [h.fields_block hs hlt hstop]
    exact Settles.pure _
  · exact h.settles_record hi

/-- The scan takes the run of the hash from `i` on, and of it the docs with the verify word. -/
theorem Holds.settles_scanRun (h : lk.Holds rows) {start stop hash verify : Nat} (hstop : stop ≤ rows.length) :
    ∀ {n i : Nat}, start ≤ i → i + n = rows.length →
    Settles (lk.scanRun (slice lk.fetch.bytes (rrilHeaderSize + start * recSize) ((stop - start) * recSize)) start stop
      hash verify n i) (.ok ((((rows.drop i).takeWhile fun r => r.hash.val == hash).filter
        fun r => r.verify.val == verify).map fun r => r.doc.val)) := by
  intro n
  induction n with
  | zero =>
    intro i _ hn
    rw [List.drop_of_length_le (by omega)]
    exact Settles.pure _
  | succ n ih =>
    intro i hs hn
    have hi : i < rows.length := by omega
    rw [List.drop_eq_getElem_cons hi]
    unfold scanRun
    refine (h.settles_rowAt hs hi hstop).bind ?_
    simp only
    by_cases hhash : rows[i].hash.val = hash
    · rw [if_neg (by simpa using hhash), List.takeWhile_cons_of_pos (by simpa using hhash)]
      refine (ih (show start ≤ i + 1 by omega) (by omega)).bind ?_
      by_cases hverify : rows[i].verify.val = verify
      · rw [if_pos hverify, List.filter_cons_of_pos (by simpa using hverify), List.map_cons]
        exact Settles.pure _
      · rw [if_neg hverify, List.filter_cons_of_neg (by simpa using hverify)]
        exact Settles.pure _
    · rw [if_pos hhash, List.takeWhile_cons_of_neg (by simpa using hhash)]
      exact Settles.pure _

end

/-- The run of a hash in a sorted list none of which hashes below it is all its records. -/
theorem takeWhile_hash {rows : List LookupRow} (hasc : rows.Pairwise fun a b => a.hash ≤ b.hash) {hash : Nat}
    (hge : ∀ r ∈ rows, hash ≤ r.hash.val) :
    (rows.takeWhile fun r => r.hash.val == hash) = rows.filter fun r => r.hash.val == hash := by
  induction rows with
  | nil => rfl
  | cons r rows ih =>
    rw [List.pairwise_cons] at hasc
    by_cases hr : r.hash.val = hash
    · rw [List.takeWhile_cons_of_pos (by simpa using hr), List.filter_cons_of_pos (by simpa using hr),
        ih hasc.2 fun x hx => hge x (List.mem_cons_of_mem _ hx)]
    · have hlt : hash < r.hash.val := by
        have := hge r List.mem_cons_self
        omega
      rw [List.takeWhile_cons_of_neg (by simpa using hr), eq_comm, List.filter_eq_nil_iff]
      intro x hx
      rcases List.mem_cons.mp hx with rfl | hx
      · simpa using hr
      · have : r.hash.val ≤ x.hash.val := hasc.1 x hx
        simp only [beq_iff_eq]
        omega

/-- Records that hash below the target can be dropped. -/
theorem filter_hash_drop {rows : List LookupRow} {hash j : Nat}
    (hlow : ∀ k (hk : k < rows.length), k < j → rows[k].hash.val < hash) :
    (rows.filter fun r => r.hash.val == hash) = (rows.drop j).filter fun r => r.hash.val == hash := by
  conv => lhs; rw [← List.take_append_drop j rows]
  rw [List.filter_append, List.filter_eq_nil_iff.mpr, List.nil_append]
  intro r hr
  obtain ⟨k, hk, rfl⟩ := List.mem_take_iff_getElem.mp hr
  have := hlow k (by omega) (by omega)
  simp only [beq_iff_eq]
  omega

/-- Over a sorted table, a lookup gives the docs of the records with the identifier's words, in table order. -/
theorem Holds.settles_lookup {lk : Lookup} {rows : List LookupRow} (h : lk.Holds rows)
    (hasc : rows.Pairwise fun a b => a.hash ≤ b.hash) (identifier : String) :
    Settles (lk.lookup identifier) (.ok (some ((rows.filter fun r =>
      decide (idWords identifier = some (r.hash, r.verify))).map fun r => r.doc.val))) := by
  have hcount := h.count_eq
  have hlt := h.count_lt
  unfold lookup
  cases hwords : idWords identifier with
  | none =>
    have hnil : (rows.filter fun r => decide ((none : Option (Key × Fin (2 ^ 32))) = some (r.hash, r.verify))) = [] := by
      simp
    rw [hnil]
    exact Settles.pure _
  | some words =>
    obtain ⟨hash, verify⟩ := words
    have hmatch : (rows.filter fun r => decide (some (hash, verify) = some (r.hash, r.verify))) =
        ((rows.filter fun r => r.hash.val == hash.val).filter fun r => r.verify.val == verify.val) := by
      rw [List.filter_filter]
      refine List.filter_congr fun r _ => ?_
      rw [Bool.eq_iff_iff, decide_eq_true_iff, Option.some_inj, Prod.mk.injEq, Bool.and_eq_true, beq_iff_eq,
        beq_iff_eq, Fin.ext_iff, Fin.ext_iff, and_comm, eq_comm, @eq_comm _ hash.val]
    rw [hmatch]
    simp only
    split
    · next hz =>
      have hnil : rows = [] := List.length_eq_zero_iff.mp (by omega)
      rw [hnil]
      exact Settles.pure _
    · obtain ⟨w, hsearch, hw, ⟨hbelow, habove⟩, hwidth⟩ := @Holds.settles_search _ _ h hasc hash.val (lk.count + 1)
        ⟨0, lk.count, 0, 2 ^ 64⟩ (brackets_start hash) (Nat.lt_succ_self _)
        ⟨fun i hi => absurd hi (Nat.not_lt_zero i), fun i hi hle => absurd hi (Nat.not_lt.mpr hle)⟩
      have hbefore : ∀ k (hk : k < rows.length), k < w.lo → rows[k].hash.val < hash.val := by
        intro k hk hkw
        have := hbelow k hkw
        rwa [hashAt_eq hk] at this
      have hafter : ∀ k (hk : k < rows.length), w.hi ≤ k → hash.val ≤ rows[k].hash.val := by
        intro k hk hkw
        have := habove k (by omega) hkw
        rwa [hashAt_eq hk] at this
      have hhi := hw.hi_le
      have hlo := hw.lo_le
      have hblock : blockRecords = 512 := rfl
      refine hsearch.bind ?_
      simp only
      split
      · next hpast =>
        rw [filter_hash_drop (fun k hk (_ : k < rows.length) => hbefore k hk (by omega)), List.drop_length]
        exact Settles.pure _
      · next hin =>
        generalize hstop : min (min (w.lo + blockRecords) (2 ^ 32 - 1)) lk.count = stop
        have hstop1 : stop ≤ rows.length := by omega
        have hstop2 : w.hi ≤ stop := by omega
        have hread := MemoryFetch.settles_read (@Holds.inFile _ _ h w.lo (stop - w.lo) (by omega))
        refine Settles.bind hread ?_
        obtain ⟨j, hj, hwj, hjs, hskip, hat⟩ := @Holds.skipBelow_spec _ _ h w.lo stop hash.val hstop1 (stop - w.lo) w.lo
          (Nat.le_refl _) (by omega)
        rw [hj]
        have hlow : ∀ k (hk : k < rows.length), k < j → rows[k].hash.val < hash.val := by
          intro k hk hkj
          by_cases hkw : k < w.lo
          · exact hbefore k hk hkw
          · exact hskip k hk (by omega) hkj
        have hhigh : ∀ r ∈ rows.drop j, hash.val ≤ r.hash.val := by
          intro r hr
          obtain ⟨k, hk, rfl⟩ := List.mem_iff_getElem.mp hr
          rw [List.length_drop] at hk
          rw [List.getElem_drop]
          by_cases hjstop : j < stop
          · refine Nat.le_trans (hat (by omega) hjstop) ?_
            rcases Nat.eq_zero_or_pos k with rfl | hk0
            · exact Nat.le_refl _
            · exact List.pairwise_iff_getElem.mp hasc j (j + k) (by omega) (by omega) (by omega)
          · exact hafter _ (by omega) (by omega)
        rw [filter_hash_drop hlow, ← takeWhile_hash (hasc.drop) hhigh, hcount]
        exact (h.settles_scanRun hstop1 hwj (by omega)).bind (Settles.pure _)

/-! ## The written table -/

/-- The header of a table of `n` records. -/
def header (n : Nat) : Bytes := rrilMagic ++ (le 2 1 ++ (le 2 0 ++ (le 4 (n % 2 ^ 32) ++ le 4 0)))

@[simp] theorem length_header (n : Nat) : (header n).length = rrilHeaderSize := by
  simp [header, rrilMagic, rrilHeaderSize]

theorem fromBoot_header (n : Nat) (f : MemoryFetch) : fromBoot (header n) f = .ok ⟨f, n % 2 ^ 32⟩ := by
  have hmagic : ∀ (w off : Nat) (x : Bytes), getLe w (rrilMagic ++ x) (4 + off) = getLe w x off := by
    intro w off x
    rw [getLe_append_right _ _ _ _ (by simp [rrilMagic])]
    congr 1
    simp [rrilMagic]
  have hversion : getLe 2 (header n) 4 = 1 := (hmagic 2 0 _).trans (getLe_field (by decide) _)
  have hcount : getLe 4 (header n) 8 = n % 2 ^ 32 :=
    (hmagic 4 4 _).trans ((getLe_le_skip 4 2 _ _ 2).trans ((getLe_le_skip 4 2 _ _ 0).trans
      (getLe_field (Nat.mod_lt _ (by decide)) _)))
  unfold fromBoot
  rw [if_neg (by rw [length_header]; omega), if_neg (not_not.mpr (by
    rw [header, slice_append_left _ _ _ _ (by simp [rrilMagic])]
    rfl)), hversion, if_neg (by decide), hcount]

theorem writeLookupStreaming_eq (entries : List (String × Fin (2 ^ 32))) : writeLookupStreaming entries =
    header (lookupRows entries).length ++ table writeRow (sortByKey LookupRow.sortKey (lookupRows entries)) := by
  simp only [writeLookupStreaming, header, length_sortByKey]

/-- Opening a written table. -/
theorem settles_open (entries : List (String × Fin (2 ^ 32))) :
    Settles (Lookup.open (MemoryFetch.new (writeLookupStreaming entries)))
      (.ok ⟨MemoryFetch.new (writeLookupStreaming entries), (lookupRows entries).length % 2 ^ 32⟩) := by
  have hfile := writeLookupStreaming_eq entries
  have hin : (MemoryFetch.new (writeLookupStreaming entries)).InFile 0 rrilHeaderSize := by
    refine ⟨rfl, by decide, ?_⟩
    show 0 + rrilHeaderSize ≤ (writeLookupStreaming entries).length
    rw [hfile, List.length_append, length_header]
    omega
  unfold Lookup.open
  refine (MemoryFetch.settles_read hin).bind ?_
  have hslice : slice (MemoryFetch.new (writeLookupStreaming entries)).bytes 0 rrilHeaderSize =
      header (lookupRows entries).length := by
    show slice (writeLookupStreaming entries) 0 rrilHeaderSize = _
    rw [hfile, slice_zero, ← length_header (lookupRows entries).length, List.take_left]
  rw [hslice, fromBoot_header]
  exact Settles.ofOutcome _

theorem holds_write {entries : List (String × Fin (2 ^ 32))} (hlen : (lookupRows entries).length < 2 ^ 32) :
    (Lookup.mk (MemoryFetch.new (writeLookupStreaming entries)) ((lookupRows entries).length % 2 ^ 32)).Holds
      (sortByKey LookupRow.sortKey (lookupRows entries)) where
  count_eq := by
    rw [length_sortByKey]
    exact Nat.mod_eq_of_lt hlen
  count_lt := by rwa [length_sortByKey]
  file := ⟨header (lookupRows entries).length, length_header _, by rw [writeLookupStreaming_eq]⟩

end Lookup

/-- The docs of the entries stored under the words of the identifier. -/
def docsOf (entries : List (String × Fin (2 ^ 32))) (identifier : String) : List Nat :=
  (entries.filter fun e => (idWords identifier).isSome && decide (idWords e.1 = idWords identifier)).map fun e => e.2.val

theorem docsOf_eq (entries : List (String × Fin (2 ^ 32))) (identifier : String) :
    docsOf entries identifier = ((lookupRows entries).filter fun r =>
      decide (idWords identifier = some (r.hash, r.verify))).map fun r => r.doc.val := by
  induction entries with
  | nil => rfl
  | cons e entries ih =>
    unfold docsOf lookupRows at ih ⊢
    cases he : idWords e.1 with
    | none =>
      rw [List.filterMap_cons_none (by rw [he]; rfl), List.filter_cons_of_neg, ih]
      cases idWords identifier <;> simp [he]
    | some w =>
      rw [List.filterMap_cons_some (by rw [he]; rfl)]
      by_cases hid : idWords identifier = some w
      · rw [List.filter_cons_of_pos (by simp [he, hid]), List.filter_cons_of_pos (by simp [hid]), List.map_cons,
          List.map_cons, ih]
      · rw [List.filter_cons_of_neg, List.filter_cons_of_neg (by simpa using hid), ih]
        rw [he]
        simpa using fun _ h => hid h.symm

/-- **Exact-id lookup is complete and sound** over every written table, duplicates kept, and the search of any table
ends without a panic. -/
theorem lookup_exact :
    (∀ entries : List (String × Fin (2 ^ 32)), entries.length < 2 ^ 32 →
      ∃ lk, Settles (Lookup.open (MemoryFetch.new (writeLookupStreaming entries))) (.ok lk) ∧
        ∀ identifier, ∃ docs, Settles (lk.lookup identifier) (.ok (some docs)) ∧ docs.Pairwise (· ≤ ·) ∧
          docs.Perm (docsOf entries identifier)) ∧
    ∀ (f : MemoryFetch) (count : Nat), count < 2 ^ 32 → ∀ identifier,
      Returns (fun r => r ≠ none) ((Lookup.mk f count).lookup identifier) := by
  refine ⟨fun entries hlen => ?_, fun f count hcount identifier => Lookup.returns_lookup hcount identifier⟩
  have hrows : (lookupRows entries).length < 2 ^ 32 := Nat.lt_of_le_of_lt (List.length_filterMap_le _ _) hlen
  have hsorted := sortByKey_sorted LookupRow.sortKey (lookupRows entries)
  have hasc : (sortByKey LookupRow.sortKey (lookupRows entries)).Pairwise fun a b => a.hash ≤ b.hash := by
    refine hsorted.imp fun {a b} hab => ?_
    rcases Prod.Lex.toLex_le_toLex.mp hab with h | h
    · exact le_of_lt h
    · exact le_of_eq h.1
  refine ⟨_, Lookup.settles_open entries, fun identifier => ⟨_, (Lookup.holds_write hrows).settles_lookup hasc identifier,
    ?_, ?_⟩⟩
  · -- the records found share their hash, so they are in the order of their docs
    rw [List.pairwise_map, List.pairwise_filter]
    refine hsorted.imp fun {a b} hab ha hb => ?_
    have hhash : a.hash = b.hash := by
      have := (of_decide_eq_true ha).symm.trans (of_decide_eq_true hb)
      exact (Prod.mk.inj (Option.some.inj this)).1
    rcases Prod.Lex.toLex_le_toLex.mp hab with h | h
    · exact absurd hhash (ne_of_lt h)
    · exact h.2
  · rw [docsOf_eq]
    exact ((sortByKey_perm _ _).filter _).map _

/-- Two editions of one book and another book. -/
def threeIds : List (String × Fin (2 ^ 32)) :=
  [("978-1-23", ⟨7, by decide⟩), ("b00a", ⟨10, by decide⟩), ("978123", ⟨5, by decide⟩)]

theorem lookup_exact_threeIds :
    (∃ lk, Settles (Lookup.open (MemoryFetch.new (writeLookupStreaming threeIds))) (.ok lk) ∧
      ∃ docs, Settles (lk.lookup "978 123") (.ok (some docs)) ∧ docs.Pairwise (· ≤ ·) ∧ docs.Perm [7, 5]) ∧
    Returns (fun r => r ≠ none) ((Lookup.mk MemoryFetch.absent 3).lookup "978 123") := by
  refine ⟨?_, lookup_exact.2 MemoryFetch.absent 3 (by decide) _⟩
  obtain ⟨lk, hopen, hlookup⟩ := lookup_exact.1 threeIds (by decide)
  obtain ⟨docs, hdocs, hasc, hperm⟩ := hlookup "978 123"
  exact ⟨lk, hopen, docs, hdocs, hasc, hperm.trans (by decide +kernel)⟩

/-- One identifier of `2 ^ 32` docs: more records than the header can count. -/
def crowdedIds : List (String × Fin (2 ^ 32)) := List.replicate (2 ^ 32) ("A", ⟨12, by decide⟩)

theorem lookupRows_replicate (n : Nat) {e : String × Fin (2 ^ 32)} {w : Key × Fin (2 ^ 32)} (h : idWords e.1 = some w) :
    lookupRows (List.replicate n e) = List.replicate n ⟨w.1, w.2, e.2⟩ := by
  induction n with
  | zero => rfl
  | succ n ih =>
    unfold lookupRows at ih ⊢
    rw [List.replicate_succ, List.filterMap_cons_some (by rw [h]; rfl), ih, List.replicate_succ]

/-- The header of `2 ^ 32` records says there are none. -/
theorem crowded_ids_lost : docsOf crowdedIds "A" ≠ [] ∧
    ∃ lk, Settles (Lookup.open (MemoryFetch.new (writeLookupStreaming crowdedIds))) (.ok lk) ∧
      Settles (lk.lookup "A") (.ok (some [])) := by
  obtain ⟨w, hw⟩ := Option.isSome_iff_exists.mp (show (idWords "A").isSome = true by decide +kernel)
  have hrows : lookupRows crowdedIds = List.replicate (2 ^ 32) ⟨w.1, w.2, ⟨12, by decide⟩⟩ :=
    lookupRows_replicate (2 ^ 32) hw
  refine ⟨?_, _, Lookup.settles_open crowdedIds, ?_⟩
  · rw [docsOf_eq, hrows, hw, List.filter_replicate_of_pos (by simp), List.map_replicate]
    exact List.ne_nil_of_length_pos (by rw [List.length_replicate]; decide)
  · rw [hrows, List.length_replicate, Nat.mod_self]
    unfold Lookup.lookup
    rw [hw]
    exact Settles.pure _

end RoaringRange
