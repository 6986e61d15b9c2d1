import Mathlib.Algebra.Order.Group.Nat
import Mathlib.Data.List.Basic

/-!
# Decimal numbers padded with zeros

The digits of a number, with zeros before them up to a width.  Numbers of at most that many digits have digits of
one length, so none is a prefix of another; a longer number begins with the digits of its tenth.

    the number is in its digits                                                (padded_injective)
    a prefix of the digits of a short number is the number                     (eq_of_padded_prefix)
    a long number has a prefix among the smaller ones                          (padded_div_ten)
-/

namespace RoaringRange.Decimal

/-- The decimal digits of `n`, at least `width` of them. -/
def padded (width n : Nat) : List Char :=
  List.replicate (width - (Nat.toDigits 10 n).length) '0' ++ Nat.toDigits 10 n

variable {width m n : Nat}

theorem ofDigitChars_padded (width n : Nat) : Nat.ofDigitChars 10 (padded width n) 0 = n := by
  rw [padded, Nat.ofDigitChars_append, Nat.ofDigitChars_replicate_zero, Nat.mul_zero, Nat.ofDigitChars_ten_toDigits]

theorem padded_injective (h : padded width m = padded width n) : m = n := by
  rw [← ofDigitChars_padded width m, h, ofDigitChars_padded]

theorem length_padded (width n : Nat) : (padded width n).length = max width (Nat.toDigits 10 n).length := by
  rw [padded, List.length_append, List.length_replicate]
  omega

theorem isDigit_of_mem_padded {c : Char} (h : c ∈ padded width n) : c.isDigit = true := by
  unfold padded at h
  rcases List.mem_append.mp h with h | h
  · rw [List.eq_of_mem_replicate h]
    rfl
  · exact Nat.isDigit_of_mem_toDigits (by decide) (Nat.le_refl _) h

/-- No digits are the start of those of a number with at most `width` digits but its own. -/
theorem eq_of_padded_prefix (hw : 0 < width) (hn : n < 10 ^ width) (h : padded width m <+: padded width n) :
    m = n := by
  have hlen : (Nat.toDigits 10 n).length ≤ width := (Nat.length_toDigits_le_iff (by decide) hw).mpr hn
  have h1 := length_padded width m
  have h2 := length_padded width n
  exact padded_injective (h.eq_of_length_le (by omega))

/-- A number with all its digits has no zeros before them. -/
theorem padded_eq (hn : 10 ^ (width - 1) ≤ n) : padded width n = Nat.toDigits 10 n := by
  have hlen : width ≤ (Nat.toDigits 10 n).length := by
    by_cases hw : 1 < width
    · have := mt (Nat.length_toDigits_le_iff (show 1 < 10 by decide) (show 0 < width - 1 by omega)).mp
        (Nat.not_lt.mpr hn)
      omega
    · have : 0 < (Nat.toDigits 10 n).length := Nat.length_toDigits_pos
      omega
  rw [padded, Nat.sub_eq_zero_of_le hlen]
  rfl

/-- A number with more than `width` digits begins with the digits of its tenth. -/
theorem padded_div_ten (hw : 0 < width) (hn : 10 ^ width ≤ n) : padded width (n / 10) <+: padded width n := by
  have hpow : 10 ^ width = 10 ^ (width - 1) * 10 := by
    rw [← Nat.pow_succ, Nat.succ_eq_add_one, Nat.sub_add_cancel hw]
  have htenth : 10 ^ (width - 1) ≤ n / 10 := by omega
  have hpos : 0 < 10 ^ (width - 1) := Nat.pow_pos (by decide)
  have hdigits : Nat.toDigits 10 (n / 10) ++ Nat.toDigits 10 (n % 10) = Nat.toDigits 10 n := by
    rw [Nat.toDigits_append_toDigits (by decide) (by omega) (Nat.mod_lt _ (by decide)), Nat.div_add_mod]
  rw [padded_eq htenth, padded_eq (by omega), ← hdigits]
  exact List.prefix_append _ _

/-- What follows the digits of `m` in those of `n` are the last digits of `n`. -/
theorem eq_of_padded_append {rest : List Char} (h : padded width n = padded width m ++ rest) :
    n = 10 ^ rest.length * m + Nat.ofDigitChars 10 rest 0 := by
  rw [← ofDigitChars_padded width n, h, Nat.ofDigitChars_append, ofDigitChars_padded,
    Nat.ofDigitChars_eq_ofDigitChars_zero]

end RoaringRange.Decimal
