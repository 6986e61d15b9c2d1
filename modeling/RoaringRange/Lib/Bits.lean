import RoaringRange.Lib.Bytes
import Mathlib.Data.List.GetD

/-!
# Bit arrays in byte strings

Bit `p` of a byte string is bit `p % 8` of byte `p / 8`.  `setBits` sets a list of bits one after the
other.

    every bit of the list that the string has is set                        (testBit_setBits)
    a bit once set stays set                                                (testBit_setBits_mono)
-/

namespace ByteString

/-- Bit `p`, which is not set past the end. -/
def testBit (b : Bytes) (p : Nat) : Bool := (b.getD (p / 8) 0).toNat.testBit (p % 8)

def setBit (b : Bytes) (p : Nat) : Bytes := b.modify (p / 8) fun x => x ||| UInt8.ofNat (2 ^ (p % 8))

def setBits (b : Bytes) (ps : List Nat) : Bytes := ps.foldl setBit b

@[simp] theorem length_setBit (b : Bytes) (p : Nat) : (setBit b p).length = b.length := by
  simp [setBit]

@[simp] theorem length_setBits (b : Bytes) (ps : List Nat) : (setBits b ps).length = b.length := by
  induction ps generalizing b with
  | nil => rfl
  | cons p ps ih =>
    show (setBits (setBit b p) ps).length = b.length
    rw [ih, length_setBit]

/-- Oring one bit into a byte. -/
theorem testBit_or_two_pow (x : UInt8) {k : Nat} (hk : k < 8) (j : Nat) :
    (x ||| UInt8.ofNat (2 ^ k)).toNat.testBit j = (x.toNat.testBit j || decide (k = j)) := by
  have hlt : 2 ^ k < 2 ^ 8 := Nat.pow_lt_pow_right (by omega) hk
  have hm : (UInt8.ofNat (2 ^ k)).toNat = 2 ^ k := by
    rw [UInt8.toNat_ofNat']
    exact Nat.mod_eq_of_lt hlt
  rw [UInt8.toNat_or, hm, Nat.testBit_or, Nat.testBit_two_pow]

theorem testBit_setBit_self {b : Bytes} {p : Nat} (h : p / 8 < b.length) : testBit (setBit b p) p = true := by
  have hlt : p % 8 < 8 := Nat.mod_lt _ (by omega)
  have hget : (setBit b p).getD (p / 8) 0 = b[p / 8] ||| UInt8.ofNat (2 ^ (p % 8)) := by
    rw [setBit, List.getD_eq_getElem _ _ (by simpa using h), List.getElem_modify_eq]
  rw [testBit, hget, testBit_or_two_pow _ hlt]
  simp

theorem testBit_setBit_mono {b : Bytes} {q : Nat} (h : testBit b q = true) (p : Nat) :
    testBit (setBit b p) q = true := by
  have hlt : p % 8 < 8 := Nat.mod_lt _ (by omega)
  by_cases hq : q / 8 < b.length
  · rw [testBit, List.getD_eq_getElem _ _ hq] at h
    rw [testBit, List.getD_eq_getElem _ _ (by rw [length_setBit]; exact hq)]
    simp only [setBit, List.getElem_modify]
    split
    · rw [testBit_or_two_pow _ hlt, h, Bool.true_or]
    · exact h
  · rw [testBit, List.getD_eq_default _ _ (by omega)] at h
    simp at h

theorem testBit_setBits_mono {b : Bytes} {q : Nat} (h : testBit b q = true) (ps : List Nat) :
    testBit (setBits b ps) q = true := by
  induction ps generalizing b with
  | nil => exact h
  | cons p ps ih =>
    show testBit (setBits (setBit b p) ps) q = true
    apply ih
    exact testBit_setBit_mono h p

theorem testBit_setBits {b : Bytes} {ps : List Nat} {p : Nat} (hp : p ∈ ps) (h : p / 8 < b.length) :
    testBit (setBits b ps) p = true := by
  induction ps generalizing b with
  | nil => cases hp
  | cons q ps ih =>
    show testBit (setBits (setBit b q) ps) p = true
    rcases List.mem_cons.mp hp with rfl | hp
    · apply testBit_setBits_mono
      exact testBit_setBit_self h
    · apply ih hp
      rw [length_setBit]
      exact h

end ByteString
