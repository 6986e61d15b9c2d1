import Mathlib.Algebra.Order.Group.Nat
import Mathlib.Data.List.Basic
import Mathlib.Tactic.Ring

/-!
# Byte strings: little-endian fields and slices

A binary file is a list of bytes; a reader takes slices of it and decodes fixed-width
little-endian numbers at offsets.  The three facts a file reader's proof needs:

    ofLe (le w n) = n % 256 ^ w                                         (ofLe_le)
    a slice inside the left part of `b ++ c` is a slice of `b`, one past it a slice of `c`
                                                                        (slice_append_left, _right)
    a slice of a slice is a slice                                       (slice_slice)

`table w xs` is the usual array of fixed-width records, with `slice_table` reading one back.
-/

namespace ByteString

abbrev Bytes := List UInt8

/-! ## Little-endian numbers -/

/-- The `w` low bytes of `n`, least significant first. -/
def le : Nat → Nat → Bytes
  | 0, _ => []
  | w + 1, n => UInt8.ofNat (n % 256) :: le w (n / 256)

def ofLe : Bytes → Nat
  | [] => 0
  | b :: bs => b.toNat + 256 * ofLe bs

@[simp] theorem length_le (w n : Nat) : (le w n).length = w := by
  induction w generalizing n with
  | zero => rfl
  | succ w ih => simp [le, ih]

theorem ofLe_le (w n : Nat) : ofLe (le w n) = n % 256 ^ w := by
  induction w generalizing n with
  | zero => simp [le, ofLe, Nat.mod_one]
  | succ w ih =>
    have hb : (UInt8.ofNat (n % 256)).toNat = n % 256 := by
      rw [UInt8.toNat_ofNat']
      omega
    rw [le, ofLe, ih, hb, pow_succ', Nat.mod_mul]

theorem ofLe_le_of_lt {w n : Nat} (h : n < 256 ^ w) : ofLe (le w n) = n := by
  rw [ofLe_le, Nat.mod_eq_of_lt h]

theorem ofLe_lt (b : Bytes) : ofLe b < 256 ^ b.length := by
  induction b with
  | nil => simp [ofLe]
  | cons x xs ih =>
    have hx : x.toNat < 256 := x.toNat_lt
    rw [ofLe, List.length_cons, pow_succ]
    omega

theorem le_ofLe (b : Bytes) : le b.length (ofLe b) = b := by
  induction b with
  | nil => rfl
  | cons x xs ih =>
    have hx : x.toNat < 256 := x.toNat_lt
    have hdiv : (x.toNat + 256 * ofLe xs) / 256 = ofLe xs := by omega
    have hmod : (x.toNat + 256 * ofLe xs) % 256 = x.toNat := by omega
    rw [List.length_cons, ofLe, le, hdiv, hmod, ih]
    simp

/-- A number is written as far as it fits. -/
theorem le_mod (w n : Nat) : le w (n % 256 ^ w) = le w n := by
  have h := le_ofLe (le w n)
  rwa [length_le, ofLe_le] at h

/-! ## Slices -/

/-- The `len` bytes at `off` (fewer where the string ends before). -/
def slice (b : Bytes) (off len : Nat) : Bytes := (b.drop off).take len

theorem length_slice (b : Bytes) (off len : Nat) (h : off + len ≤ b.length) :
    (slice b off len).length = len := by
  simp only [slice, List.length_take, List.length_drop]
  omega

@[simp] theorem slice_zero_length (b : Bytes) : slice b 0 b.length = b := by
  simp [slice]

@[simp] theorem slice_len_zero (b : Bytes) (off : Nat) : slice b off 0 = [] := by
  simp [slice]

theorem slice_zero (b : Bytes) (n : Nat) : slice b 0 n = b.take n := by
  simp [slice]

theorem slice_slice (b : Bytes) (off len off' len' : Nat) (h : off' + len' ≤ len) :
    slice (slice b off len) off' len' = slice b (off + off') len' := by
  simp only [slice, List.drop_take, List.drop_drop, List.take_take]
  congr 1
  omega

theorem slice_append_left (b c : Bytes) (off len : Nat) (h : off + len ≤ b.length) :
    slice (b ++ c) off len = slice b off len := by
  simp only [slice]
  rw [List.drop_append_of_le_length (by omega), List.take_append_of_le_length]
  simp only [List.length_drop]
  omega

theorem slice_append_right (b c : Bytes) (off len : Nat) (h : b.length ≤ off) :
    slice (b ++ c) off len = slice c (off - b.length) len := by
  simp only [slice]
  rw [List.drop_append, List.drop_of_length_le h, List.nil_append]

/-- The part of `a ++ b ++ c` that `b` is. -/
theorem slice_middle (a b c : Bytes) (off len : Nat) (ho : off = a.length) (hl : len = b.length) :
    slice (a ++ (b ++ c)) off len = b := by
  subst ho hl
  rw [slice_append_right _ _ _ _ (Nat.le_refl _), Nat.sub_self, slice_append_left _ _ _ _ (by omega),
    slice_zero_length]

/-- The `w`-byte number at `off`. -/
def getLe (w : Nat) (b : Bytes) (off : Nat) : Nat := ofLe (slice b off w)

theorem getLe_lt (w : Nat) (b : Bytes) (off : Nat) : getLe w b off < 256 ^ w := by
  have h := ofLe_lt (slice b off w)
  have hlen : (slice b off w).length ≤ w := by
    rw [slice, List.length_take]
    exact Nat.min_le_left _ _
  exact Nat.lt_of_lt_of_le h (Nat.pow_le_pow_right (by decide) hlen)

theorem getLe_slice (w : Nat) (b : Bytes) (off len off' : Nat) (h : off' + w ≤ len) :
    getLe w (slice b off len) off' = getLe w b (off + off') := by
  simp only [getLe, slice_slice b off len off' w h]

theorem getLe_append_left (w : Nat) (b c : Bytes) (off : Nat) (h : off + w ≤ b.length) :
    getLe w (b ++ c) off = getLe w b off := by
  simp only [getLe, slice_append_left b c off w h]

theorem getLe_append_right (w : Nat) (b c : Bytes) (off : Nat) (h : b.length ≤ off) :
    getLe w (b ++ c) off = getLe w c (off - b.length) := by
  simp only [getLe, slice_append_right b c off w h]

@[simp] theorem getLe_le (w n : Nat) : getLe w (le w n) 0 = n % 256 ^ w := by
  have h : slice (le w n) 0 w = le w n := by
    conv => lhs; arg 3; rw [← length_le w n]
    exact slice_zero_length _
  rw [getLe, h, ofLe_le]

@[simp] theorem getLe_le_append (w n : Nat) (c : Bytes) : getLe w (le w n ++ c) 0 = n % 256 ^ w := by
  rw [getLe_append_left _ _ _ _ (by simp), getLe_le]

theorem getLe_field {w n : Nat} (h : n < 256 ^ w) (c : Bytes) : getLe w (le w n ++ c) 0 = n := by
  rw [getLe_le_append, Nat.mod_eq_of_lt h]

theorem getLe_last {w n : Nat} (h : n < 256 ^ w) : getLe w (le w n) 0 = n := by
  rw [getLe_le, Nat.mod_eq_of_lt h]

/-- Skipping a field of the width the offset starts with. -/
theorem getLe_le_skip (w v n : Nat) (c : Bytes) (off : Nat) :
    getLe w (le v n ++ c) (v + off) = getLe w c off := by
  rw [getLe_append_right _ _ _ _ (by simp), length_le, Nat.add_sub_cancel_left]

/-! ## Tables of fixed-width records -/

/-- The records of `xs` one after the other. -/
def table {α : Type*} (f : α → Bytes) (xs : List α) : Bytes := xs.flatMap f

section Table

variable {α : Type*} {f : α → Bytes} {w : Nat}

@[simp] theorem table_nil : table f ([] : List α) = [] := rfl

@[simp] theorem table_cons (x : α) (xs : List α) : table f (x :: xs) = f x ++ table f xs := rfl

theorem table_append (xs ys : List α) : table f (xs ++ ys) = table f xs ++ table f ys := by
  simp [table]

theorem length_table (hw : ∀ x, (f x).length = w) (xs : List α) :
    (table f xs).length = xs.length * w := by
  induction xs with
  | nil => simp
  | cons x xs ih =>
    rw [table_cons, List.length_append, hw, ih, List.length_cons]
    ring

/-- Record `i` of a table. -/
theorem slice_table (hw : ∀ x, (f x).length = w) (xs : List α) (i : Nat) (h : i < xs.length) :
    slice (table f xs) (i * w) w = f xs[i] := by
  induction xs generalizing i with
  | nil => simp at h
  | cons x xs ih =>
    cases i with
    | zero =>
      rw [Nat.zero_mul, table_cons, slice_append_left _ _ _ _ (by rw [hw]; omega)]
      rw [← hw x, slice_zero_length]
      rfl
    | succ i =>
      have hoff : (i + 1) * w = w + i * w := by ring
      rw [table_cons, slice_append_right _ _ _ _ (by rw [hw, hoff]; omega), hw, hoff,
        Nat.add_sub_cancel_left, ih i (by simpa using h)]
      rfl

/-- A whole run of records is the table of that run. -/
theorem slice_table_run (hw : ∀ x, (f x).length = w) (xs : List α) (i n : Nat)
    (h : i + n ≤ xs.length) :
    slice (table f xs) (i * w) (n * w) = table f ((xs.drop i).take n) := by
  have hsplit : xs = xs.take i ++ ((xs.drop i).take n ++ (xs.drop i).drop n) := by
    rw [List.take_append_drop, List.take_append_drop]
  conv => lhs; rw [hsplit, table_append, table_append]
  refine slice_middle _ _ _ _ _ ?_ ?_
  · rw [length_table hw, List.length_take]
    congr 1
    omega
  · rw [length_table hw, List.length_take, List.length_drop]
    congr 1
    omega

/-- A field inside record `i` of a table. -/
theorem getLe_table (hw : ∀ x, (f x).length = w) (xs : List α) (i : Nat) (h : i < xs.length)
    (v off : Nat) (ho : off + v ≤ w) :
    getLe v (table f xs) (i * w + off) = getLe v (f xs[i]) off := by
  rw [← slice_table hw xs i h, getLe_slice _ _ _ _ _ ho]

end Table

/-! ## Text -/

/-- The UTF-8 bytes of a string. -/
def utf8 (s : String) : Bytes := s.toByteArray.data.toList

/-- The string the bytes are the UTF-8 of, if they are. -/
def fromUtf8 (b : Bytes) : Option String := String.fromUTF8? ⟨b.toArray⟩

theorem fromUtf8_utf8 (s : String) : fromUtf8 (utf8 s) = some s := by
  have h : (⟨(utf8 s).toArray⟩ : ByteArray) = s.toByteArray := by simp [utf8]
  rw [fromUtf8, h, String.fromUTF8?, dif_pos s.isValidUTF8]
  rfl

theorem utf8_injective {s t : String} (h : utf8 s = utf8 t) : s = t := by
  have := congrArg fromUtf8 h
  rw [fromUtf8_utf8, fromUtf8_utf8] at this
  exact Option.some.inj this

theorem utf8_append (s t : String) : utf8 (s ++ t) = utf8 s ++ utf8 t := by
  simp [utf8, String.toByteArray_append]

theorem utf8_ofList (cs : List Char) : utf8 (String.ofList cs) = cs.flatMap String.utf8EncodeChar := by
  rw [utf8, String.toByteArray_ofList, List.utf8Encode]
  simp

theorem length_utf8_replicate (n : Nat) : (utf8 (String.ofList (List.replicate n 'a'))).length = n := by
  rw [utf8_ofList]
  simp [String.utf8EncodeChar]

end ByteString
