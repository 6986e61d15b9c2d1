import RoaringRange.Roaring
import Mathlib.Tactic.IntervalCases

/-!
# The portable layout as a `Roaring` implementation

The no-run half of the portable format written out: a container of at most 4,096 docs is the array
of its low halves, a larger one a bitset of 65,536 bits.  `decode` inverts it (`decode_portable`), so
the assumptions of `Roaring` have a model.
-/

namespace RoaringRange.PortableCodec

open ByteString Slices

/-- The most docs an array container holds. -/
def arrayLimit : Nat := 4096

/-- Byte `j` of a bitset: bit `k` is set when `8 * j + k` is a member. -/
def bitsetByte (lows : List Nat) (j : Nat) : UInt8 :=
  UInt8.ofNat (((List.range 8).map fun k => if 8 * j + k ∈ lows then 2 ^ k else 0).sum)

def encodeBody (lows : List Nat) : Bytes :=
  if lows.length ≤ arrayLimit then table (le 2) lows
  else (List.range 8192).map (bitsetByte lows)

def decodeBody (card : Nat) (b : Bytes) : List Nat :=
  if card ≤ arrayLimit then (List.range card).map fun i => getLe 2 b (i * 2)
  else (List.range bucketSize).filter fun l => (b.getD (l / 8) 0).toNat.testBit (l % 8)

/-- The docs of one directory entry. -/
def decodeContainer (b : Bytes) (c : Container) : List Nat :=
  (decodeBody c.card (slice b c.start c.len)).map fun l => c.key * bucketSize + l

def decode (b : Bytes) : Except String Bitmap :=
  match parseDir b b.length with
  | none => .error "not a portable bitmap without run containers"
  | some dir =>
    let docs := dir.flatMap (decodeContainer b)
    if h : ∀ d ∈ docs, d < u32Bound then .ok (AscSet.ofList docs h)
    else .error "document id out of range"

theorem length_encodeBody_le (lows : List Nat) : (encodeBody lows).length ≤ 8192 := by
  unfold encodeBody
  split
  · next h =>
    rw [length_table (length_le 2)]
    simp only [arrayLimit] at h
    omega
  · simp

theorem testBit_byte : ∀ b₀ b₁ b₂ b₃ b₄ b₅ b₆ b₇ : Bool, ∀ k < 8,
    (UInt8.ofNat (b₀.toNat + 2 * b₁.toNat + 4 * b₂.toNat + 8 * b₃.toNat + 16 * b₄.toNat +
      32 * b₅.toNat + 64 * b₆.toNat + 128 * b₇.toNat)).toNat.testBit k =
      [b₀, b₁, b₂, b₃, b₄, b₅, b₆, b₇].getD k false := by
  decide +kernel

theorem testBit_bitsetByte (lows : List Nat) (j k : Nat) (hk : k < 8) :
    (bitsetByte lows j).toNat.testBit k = decide (8 * j + k ∈ lows) := by
  have hbit : ∀ i n : Nat, (if 8 * j + i ∈ lows then n else 0) = n * (decide (8 * j + i ∈ lows)).toNat := by
    intro i n
    by_cases h : 8 * j + i ∈ lows <;> simp [h]
  have h := testBit_byte (decide (8 * j + 0 ∈ lows)) (decide (8 * j + 1 ∈ lows))
    (decide (8 * j + 2 ∈ lows)) (decide (8 * j + 3 ∈ lows)) (decide (8 * j + 4 ∈ lows))
    (decide (8 * j + 5 ∈ lows)) (decide (8 * j + 6 ∈ lows)) (decide (8 * j + 7 ∈ lows)) k hk
  have hsum : ((List.range 8).map fun k => if 8 * j + k ∈ lows then 2 ^ k else 0).sum =
      (decide (8 * j + 0 ∈ lows)).toNat + 2 * (decide (8 * j + 1 ∈ lows)).toNat +
      4 * (decide (8 * j + 2 ∈ lows)).toNat + 8 * (decide (8 * j + 3 ∈ lows)).toNat +
      16 * (decide (8 * j + 4 ∈ lows)).toNat + 32 * (decide (8 * j + 5 ∈ lows)).toNat +
      64 * (decide (8 * j + 6 ∈ lows)).toNat + 128 * (decide (8 * j + 7 ∈ lows)).toNat := by
    simp only [hbit, List.range_succ, List.range_zero, List.nil_append, List.cons_append, List.map_cons,
      List.map_nil, List.sum_cons, List.sum_nil]
    omega
  rw [bitsetByte, hsum, h]
  interval_cases k <;> rfl

theorem decode_encodeBody {lows : List Nat} (hasc : lows.Pairwise (· < ·)) (hlt : ∀ l ∈ lows, l < bucketSize) :
    decodeBody lows.length (encodeBody lows) = lows := by
  unfold decodeBody encodeBody
  split
  · next h =>
    refine List.ext_getElem (by simp) fun i h1 h2 => ?_
    have hl := getLe_table (f := le 2) (length_le 2) lows i h2 2 0 (by omega)
    rw [Nat.add_zero] at hl
    simp only [List.getElem_map, List.getElem_range, hl, getLe_le]
    exact Nat.mod_eq_of_lt (hlt _ (List.getElem_mem h2))
  · refine List.Pairwise.eq_of_mem_iff (r := (· < ·)) (List.pairwise_lt_range.filter _) hasc fun {l} => ?_
    rw [List.mem_filter, List.mem_range]
    constructor
    · rintro ⟨hl, ht⟩
      have hj : l / 8 < 8192 := by
        simp only [bucketSize] at hl
        omega
      simp only [List.getD_eq_getElem?_getD, List.getElem?_map, List.getElem?_range hj,
        Option.map_some, Option.getD_some, testBit_bitsetByte _ _ _ (Nat.mod_lt l (by omega : 8 > 0)),
        decide_eq_true_eq] at ht
      rwa [Nat.div_add_mod] at ht
    · intro hl
      have hb := hlt l hl
      have hj : l / 8 < 8192 := by
        simp only [bucketSize] at hb
        omega
      refine ⟨hb, ?_⟩
      simp only [List.getD_eq_getElem?_getD, List.getElem?_map, List.getElem?_range hj,
        Option.map_some, Option.getD_some, testBit_bitsetByte _ _ _ (Nat.mod_lt l (by omega : 8 > 0)),
        decide_eq_true_eq, Nat.div_add_mod]
      exact hl

theorem encodable (S : Bitmap) : Encodable (containersWith encodeBody S) :=
  encodable_containersWith (fun lows _ => length_encodeBody_le lows) S

/-- The docs of the entry of bucket `k` are the members in that bucket. -/
theorem decodeContainer_entry (S : Bitmap) (i : Nat) (h : i < (containersWith encodeBody S).length) :
    decodeContainer (assemble (containersWith encodeBody S))
      (getElem (dirFrom (dataStart (containersWith encodeBody S)) (containersWith encodeBody S)) i (by
        rw [length_dirFrom]; exact h)) =
      (S.lows (containersWith encodeBody S)[i].key).map
        fun l => (containersWith encodeBody S)[i].key * bucketSize + l := by
  rw [getElem_dirFrom _ _ _ h, decodeContainer]
  simp only
  rw [slice_dirFrom _ _ h]
  simp only [containersWith, List.getElem_map]
  rw [decode_encodeBody (S.lows_asc _) fun l hl => (Bitmap.mem_lows.mp hl).1]

theorem mem_docs (S : Bitmap) (d : Nat) :
    d ∈ (dirFrom (dataStart (containersWith encodeBody S)) (containersWith encodeBody S)).flatMap
      (decodeContainer (assemble (containersWith encodeBody S))) ↔ d ∈ S := by
  rw [List.mem_flatMap]
  constructor
  · rintro ⟨c, hc, hd⟩
    obtain ⟨i, hi, rfl⟩ := List.getElem_of_mem hc
    rw [length_dirFrom] at hi
    rw [decodeContainer_entry S i hi] at hd
    obtain ⟨l, hl, rfl⟩ := List.mem_map.mp hd
    exact (Bitmap.mem_lows.mp hl).2
  · intro hd
    have hk : highKey d ∈ distinctHighKeys S := mem_distinctHighKeys.mpr ⟨d, hd, rfl⟩
    obtain ⟨i, hi, hik⟩ := List.getElem_of_mem hk
    have hi' : i < (containersWith encodeBody S).length := by
      simpa [containersWith] using hi
    have hkey : (containersWith encodeBody S)[i].key = highKey d := by
      simp only [containersWith, List.getElem_map, hik]
    refine ⟨_, List.getElem_mem (by rw [length_dirFrom]; exact hi'), ?_⟩
    rw [decodeContainer_entry S i hi', hkey]
    refine List.mem_map.mpr ⟨lowBits d, Bitmap.mem_lows.mpr ⟨lowBits_lt d, ?_⟩, highKey_lowBits d⟩
    rw [highKey_lowBits]
    exact hd

theorem decode_portable (S : Bitmap) : decode (assemble (containersWith encodeBody S)) = .ok S := by
  have hparse := parseDir_assemble (encodable S) (h := (assemble (containersWith encodeBody S)).length)
    (by rw [length_assemble]; omega) (Nat.le_refl _)
  rw [slice_zero_length] at hparse
  unfold decode
  rw [hparse]
  simp only
  rw [dif_pos fun d hd => S.property ((mem_docs S d).mp hd)]
  congr 1
  exact AscSet.ext_mem fun d => by rw [AscSet.mem_ofList, mem_docs]

theorem length_serialized_pos (S : Bitmap) : 0 < (assemble (containersWith encodeBody S)).length := by
  rw [length_assemble, dataStart]
  omega

/-- The crate restricted to bitmaps without run containers. -/
@[reducible] def roaring : Roaring where
  deserialize := decode
  serialize S := assemble (containersWith encodeBody S)
  body := encodeBody
  length_body_le lows _ := length_encodeBody_le lows
  deserialize_portable := decode_portable
  deserialize_serialize := decode_portable
  serialize_portable _ _ := rfl
  length_serialize_lt S :=
    length_assemble_containersWith_lt (fun lows _ => length_encodeBody_le lows) S
  length_serialize_pos S := length_serialized_pos S

end RoaringRange.PortableCodec
