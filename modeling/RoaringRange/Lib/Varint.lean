import RoaringRange.Lib.Bytes

/-!
# LEB128 varints

A 64-bit number as seven bits a byte, lowest first, every byte but the last with its high bit set.
Reading stops at the first byte without that bit and leaves the rest:

    v < 2 ^ 64 → decode (encode v ++ rest) = some (v, rest)                   (decode_encode)
-/

namespace Varint

open ByteString

/-- Writes `v` in at most `fuel + 1` bytes. -/
def encodeFrom : Nat → Nat → Bytes
  | 0, v => [UInt8.ofNat (v % 128)]
  | fuel + 1, v =>
    if v / 128 = 0 then [UInt8.ofNat (v % 128)] else UInt8.ofNat (v % 128 + 128) :: encodeFrom fuel (v / 128)

/-- The varint of a 64-bit number. -/
def encode (v : Nat) : Bytes := encodeFrom 9 v

/-- The number whose bytes from bit `shift` on are next, over the bits already read. -/
def decodeFrom (shift acc : Nat) : Bytes → Option (Nat × Bytes)
  | [] => none
  | b :: rest =>
    if 64 ≤ shift then none
    else
      let acc := acc ||| (b.toNat % 128) <<< shift % 2 ^ 64
      if b.toNat < 128 then some (acc, rest) else decodeFrom (shift + 7) acc rest

/-- The number at the start of the bytes, and the bytes after it. -/
def decode (b : Bytes) : Option (Nat × Bytes) := decodeFrom 0 0 b

/-- How many bytes `encodeFrom` writes. -/
def sizeFrom : Nat → Nat → Nat
  | 0, _ => 1
  | fuel + 1, v => if v < 128 then 1 else 1 + sizeFrom fuel (v / 128)

/-- The length of a varint. -/
def size (v : Nat) : Nat := sizeFrom 9 v

theorem length_encodeFrom (fuel v : Nat) : (encodeFrom fuel v).length = sizeFrom fuel v := by
  induction fuel generalizing v with
  | zero => rfl
  | succ fuel ih =>
    unfold encodeFrom sizeFrom
    by_cases h : v < 128
    · rw [if_pos (show v / 128 = 0 by omega), if_pos h]
      rfl
    · rw [if_neg (show ¬ v / 128 = 0 by omega), if_neg h, List.length_cons, ih]
      omega

theorem length_encode (v : Nat) : (encode v).length = size v := length_encodeFrom 9 v

theorem size_pos (v : Nat) : 0 < size v := by
  unfold size sizeFrom
  split <;> omega

theorem sizeFrom_le (fuel v : Nat) : sizeFrom fuel v ≤ fuel + 1 := by
  induction fuel generalizing v with
  | zero => exact Nat.le_refl _
  | succ fuel ih =>
    have := ih (v / 128)
    unfold sizeFrom
    split <;> omega

theorem size_le (v : Nat) : size v ≤ 10 := sizeFrom_le 9 v

/-- Or-ing in the next seven bits adds them. -/
theorem or_shift {acc shift n : Nat} (ha : acc < 2 ^ shift) (hn : n * 2 ^ shift < 2 ^ 64) :
    acc ||| n <<< shift % 2 ^ 64 = acc + n * 2 ^ shift := by
  rw [Nat.shiftLeft_eq, Nat.mod_eq_of_lt hn, Nat.mul_comm, Nat.or_comm, ← Nat.two_pow_add_eq_or_of_lt ha]
  exact Nat.add_comm _ _

theorem decodeFrom_encodeFrom {fuel : Nat} : ∀ {v shift acc : Nat} (rest : Bytes), v < 128 ^ (fuel + 1) →
    acc < 2 ^ shift → shift < 64 → v * 2 ^ shift < 2 ^ 64 →
    decodeFrom shift acc (encodeFrom fuel v ++ rest) = some (acc + v * 2 ^ shift, rest) := by
  have hlast : ∀ {v shift acc : Nat} (rest : Bytes), v < 128 → acc < 2 ^ shift → shift < 64 →
      v * 2 ^ shift < 2 ^ 64 →
      decodeFrom shift acc ([UInt8.ofNat (v % 128)] ++ rest) = some (acc + v * 2 ^ shift, rest) := by
    intro v shift acc rest hv ha hs hfit
    have hb : (UInt8.ofNat (v % 128)).toNat = v := by
      rw [UInt8.toNat_ofNat']
      omega
    show decodeFrom shift acc (UInt8.ofNat (v % 128) :: rest) = _
    unfold decodeFrom
    rw [hb, if_neg (by omega), Nat.mod_eq_of_lt hv, or_shift ha hfit]
    exact if_pos hv
  induction fuel with
  | zero =>
    intro v shift acc rest hv ha hs hfit
    exact hlast rest (by omega) ha hs hfit
  | succ fuel ih =>
    intro v shift acc rest hv ha hs hfit
    unfold encodeFrom
    by_cases hz : v / 128 = 0
    · rw [if_pos hz]
      exact hlast rest (by omega) ha hs hfit
    · have hb : (UInt8.ofNat (v % 128 + 128)).toNat = v % 128 + 128 := by
        rw [UInt8.toNat_ofNat']
        omega
      have hsplit : v % 128 * 2 ^ shift + v / 128 * 2 ^ (shift + 7) = v * 2 ^ shift := by
        have h7 : 2 ^ (shift + 7) = 128 * 2 ^ shift := by
          rw [Nat.pow_add]
          omega
        rw [h7, ← Nat.mul_assoc, ← Nat.add_mul]
        congr 1
        omega
      have hlow : v % 128 * 2 ^ shift ≤ v * 2 ^ shift := Nat.mul_le_mul_right _ (Nat.mod_le _ _)
      have hacc : acc + v % 128 * 2 ^ shift < 2 ^ (shift + 7) := by
        have h1 : v % 128 * 2 ^ shift ≤ 127 * 2 ^ shift := Nat.mul_le_mul_right _ (by omega)
        have h7 : 2 ^ (shift + 7) = 128 * 2 ^ shift := by
          rw [Nat.pow_add]
          omega
        omega
      have hshift : shift + 7 < 64 := by
        apply (Nat.pow_lt_pow_iff_right (show 1 < 2 by omega)).mp
        have h1 : 1 * 2 ^ (shift + 7) ≤ v / 128 * 2 ^ (shift + 7) := Nat.mul_le_mul_right _ (by omega)
        omega
      rw [if_neg hz]
      show decodeFrom shift acc (UInt8.ofNat (v % 128 + 128) :: (encodeFrom fuel (v / 128) ++ rest)) = _
      unfold decodeFrom
      rw [hb, if_neg (by omega), show (v % 128 + 128) % 128 = v % 128 by omega, or_shift ha (by omega)]
      simp only
      rw [if_neg (by omega), ih rest (by omega) hacc hshift (by omega), Nat.add_assoc, hsplit]

/-- **What is written is read back**, whatever follows it. -/
theorem decode_encode {v : Nat} (hv : v < 2 ^ 64) (rest : Bytes) : decode (encode v ++ rest) = some (v, rest) := by
  have h := @decodeFrom_encodeFrom 9 v 0 0 rest (Nat.lt_of_lt_of_le hv (by decide)) (by decide) (by decide) (by omega)
  rwa [Nat.zero_add, Nat.pow_zero, Nat.mul_one] at h

end Varint
