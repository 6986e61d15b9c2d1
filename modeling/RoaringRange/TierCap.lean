import Mathlib.Algebra.Order.Group.Nat
import RoaringRange.SplitSetBuild

/-!
# The byte cap of a tier (`cap_for`, `splitsetbuild.go`)

The cap doubles from split to split until it reaches `byteCapMax`.  `cap_for` shifts in 64 bits, and the check of
the shift looks at the number of places only; `capForGo` shifts back and compares.

    capFor ≤ unboundedCap, and the two agree exactly where `CapExact` holds         (capFor_le, capHolds_iff)
    capFor = unboundedCap → capFor = capForGo, and no lower tier has a higher cap   (capForGo_eq, capFor_mono)
-/

namespace RoaringRange

/-- Go's `capFor`: a shift that does not come back saturates. -/
def capForGo (byteCap capMax tier : Nat) : Nat :=
  if capMax = 0 then byteCap
  else
    let shift := min tier 63
    let shifted := byteCap * 2 ^ shift % u64Bound
    let shifted := if shift ≠ 0 ∧ shifted / 2 ^ shift ≠ byteCap then usizeMax else shifted
    min shifted (max capMax byteCap)

/-- The cap that doubling is meant to give: the product without a bound, clamped. -/
def unboundedCap (byteCap byteCapMax tier : Nat) : Nat := min (byteCap * 2 ^ tier) (max byteCapMax byteCap)

/-- The cap is flat, or the product fits in 64 bits, or what the shift leaves of it still reaches both caps. -/
def CapExact (byteCap byteCapMax tier : Nat) : Prop :=
  byteCapMax = 0 ∨ byteCap * 2 ^ tier < u64Bound ∨ max byteCapMax byteCap ≤ byteCap * 2 ^ min tier 63 % u64Bound

instance (byteCap byteCapMax tier : Nat) : Decidable (CapExact byteCap byteCapMax tier) :=
  inferInstanceAs (Decidable (_ ∨ _))

/-- What is asked of the cap of a tier. -/
structure CapHolds (byteCap byteCapMax tier : Nat) : Prop where
  exact : capFor byteCap byteCapMax tier = unboundedCap byteCap byteCapMax tier
  ge : byteCap ≤ capFor byteCap byteCapMax tier
  mono : ∀ lower ≤ tier, capFor byteCap byteCapMax lower ≤ capFor byteCap byteCapMax tier
  go : capFor byteCap byteCapMax tier = capForGo byteCap byteCapMax tier

section Tiers

variable {byteCap byteCapMax tier : Nat}

theorem unboundedCap_flat (byteCap tier : Nat) : unboundedCap byteCap 0 tier = byteCap := by
  have h : byteCap * 1 ≤ byteCap * 2 ^ tier := Nat.mul_le_mul_left _ Nat.one_le_two_pow
  unfold unboundedCap
  omega

theorem unboundedCap_mono {lower : Nat} (h : lower ≤ tier) :
    unboundedCap byteCap byteCapMax lower ≤ unboundedCap byteCap byteCapMax tier := by
  have hpow : byteCap * 2 ^ lower ≤ byteCap * 2 ^ tier :=
    Nat.mul_le_mul_left _ (Nat.pow_le_pow_right (by decide) h)
  unfold unboundedCap
  omega

/-- The shift by at most 63 places always has a value: its low 64 bits. -/
theorem capFor_eq (h : byteCapMax ≠ 0) :
    capFor byteCap byteCapMax tier = min (byteCap * 2 ^ min tier 63 % u64Bound) (max byteCapMax byteCap) := by
  unfold capFor checkedShl
  rw [if_neg h, if_pos (by omega), Option.getD_some]

/-- Bits that are shifted out only ever make the cap smaller. -/
theorem capFor_le : capFor byteCap byteCapMax tier ≤ unboundedCap byteCap byteCapMax tier := by
  by_cases h : byteCapMax = 0
  · subst h
    rw [unboundedCap_flat, capFor, if_pos rfl]
  · have hmod : byteCap * 2 ^ min tier 63 % u64Bound ≤ byteCap * 2 ^ min tier 63 := Nat.mod_le _ _
    have hpow : byteCap * 2 ^ min tier 63 ≤ byteCap * 2 ^ tier :=
      Nat.mul_le_mul_left _ (Nat.pow_le_pow_right (by decide) (Nat.min_le_left _ _))
    rw [capFor_eq h]
    unfold unboundedCap
    omega

theorem unboundedCap_ge : byteCap ≤ unboundedCap byteCap byteCapMax tier := by
  have h : byteCap * 1 ≤ byteCap * 2 ^ tier := Nat.mul_le_mul_left _ Nat.one_le_two_pow
  unfold unboundedCap
  omega

/-- A product that fits is shifted by its own tier, or is of a cap of nothing. -/
theorem shift_of_fits (h : byteCap * 2 ^ tier < u64Bound) : byteCap * 2 ^ min tier 63 = byteCap * 2 ^ tier := by
  by_cases ht : tier ≤ 63
  · rw [Nat.min_eq_left ht]
  · have hbig : 2 ^ 64 ≤ 2 ^ tier := Nat.pow_le_pow_right (by decide) (by omega)
    have hzero : byteCap = 0 := by
      by_contra hne
      have : 1 * 2 ^ tier ≤ byteCap * 2 ^ tier := Nat.mul_le_mul_right _ (by omega)
      unfold u64Bound at h
      omega
    rw [hzero, Nat.zero_mul, Nat.zero_mul]

theorem exact_iff (hcap : byteCap < u64Bound) (hmax : byteCapMax < u64Bound) :
    capFor byteCap byteCapMax tier = unboundedCap byteCap byteCapMax tier ↔ CapExact byteCap byteCapMax tier := by
  by_cases hflat : byteCapMax = 0
  · subst hflat
    rw [unboundedCap_flat, capFor, if_pos rfl]
    exact iff_of_true rfl (Or.inl rfl)
  · rw [capFor_eq hflat]
    unfold unboundedCap CapExact
    by_cases hfits : byteCap * 2 ^ tier < u64Bound
    · rw [shift_of_fits hfits, Nat.mod_eq_of_lt hfits]
      exact iff_of_true rfl (Or.inr (Or.inl hfits))
    · -- the product is past both caps, so only the clamp is left of it
      have hclamp : min (byteCap * 2 ^ tier) (max byteCapMax byteCap) = max byteCapMax byteCap := by omega
      rw [hclamp, min_eq_right_iff]
      constructor
      · exact fun h => Or.inr (Or.inr h)
      · rintro (h | h | h)
        · exact absurd h hflat
        · exact absurd h hfits
        · exact h

/-- A cap that nothing was shifted out of is no lower than those of the tiers before it. -/
theorem capFor_mono {lower : Nat} (h : capFor byteCap byteCapMax tier = unboundedCap byteCap byteCapMax tier)
    (hle : lower ≤ tier) : capFor byteCap byteCapMax lower ≤ capFor byteCap byteCapMax tier := by
  rw [h]
  exact Nat.le_trans capFor_le (unboundedCap_mono hle)

/-- Shifting back finds out whether anything was shifted out. -/
theorem shift_back {shift : Nat} :
    byteCap * 2 ^ shift % u64Bound / 2 ^ shift = byteCap ↔ byteCap * 2 ^ shift < u64Bound := by
  have hpos : 0 < 2 ^ shift := Nat.two_pow_pos shift
  constructor
  · intro h
    have hle : byteCap * 2 ^ shift ≤ byteCap * 2 ^ shift % u64Bound := by
      conv => lhs; rw [← h]
      exact Nat.div_mul_le_self _ _
    have hlt : byteCap * 2 ^ shift % u64Bound < u64Bound := Nat.mod_lt _ (Nat.two_pow_pos 64)
    omega
  · intro h
    rw [Nat.mod_eq_of_lt h, Nat.mul_div_cancel _ hpos]

/-- The Go builder's cap is the Rust builder's wherever nothing was lost. -/
theorem capForGo_eq (hcap : byteCap < u64Bound) (hmax : byteCapMax < u64Bound)
    (h : CapExact byteCap byteCapMax tier) : capFor byteCap byteCapMax tier = capForGo byteCap byteCapMax tier := by
  by_cases hflat : byteCapMax = 0
  · rw [capFor, capForGo, if_pos hflat, if_pos hflat]
  · rw [capFor_eq hflat]
    unfold capForGo
    rw [if_neg hflat]
    simp only
    split
    · next hlost =>
      -- the shift lost bits, and yet what is left reaches the clamp
      have hnot : ¬ byteCap * 2 ^ min tier 63 < u64Bound := fun hfits => hlost.2 (shift_back.mpr hfits)
      have hleft : max byteCapMax byteCap ≤ byteCap * 2 ^ min tier 63 % u64Bound := by
        rcases h with h | h | h
        · exact absurd h hflat
        · rw [shift_of_fits h] at hnot
          exact absurd h hnot
        · exact h
      have hclamp : max byteCapMax byteCap ≤ usizeMax := by
        unfold usizeMax
        omega
      rw [Nat.min_eq_right hleft, Nat.min_eq_right hclamp]
    · rfl

end Tiers

/-- **When the cap of a tier is the doubled one**: never smaller than the first, no lower than an earlier one, and
the Go builder's too. -/
theorem capHolds_iff (byteCap byteCapMax tier : Nat) (hcap : byteCap < u64Bound) (hmax : byteCapMax < u64Bound) :
    CapHolds byteCap byteCapMax tier ↔ CapExact byteCap byteCapMax tier := by
  constructor
  · exact fun h => (exact_iff hcap hmax).mp h.exact
  · intro h
    have hexact := (exact_iff hcap hmax).mpr h
    refine ⟨hexact, ?_, fun lower hle => capFor_mono hexact hle, capForGo_eq hcap hmax h⟩
    rw [hexact]
    exact unboundedCap_ge

theorem capHolds_iff_mib : CapHolds (2 ^ 20) (2 ^ 26) 7 ↔ CapExact (2 ^ 20) (2 ^ 26) 7 :=
  capHolds_iff _ _ _ (by decide) (by decide)

/-- Doubled forty-four times, a cap of one MiB is shifted out to nothing; the Go builder stays at the clamp. -/
theorem capFor_shifted_out : ¬ CapHolds (2 ^ 20) (2 ^ 26) 44 ∧ capFor (2 ^ 20) (2 ^ 26) 44 = 0 ∧
    capFor (2 ^ 20) (2 ^ 26) 43 = 2 ^ 26 ∧ unboundedCap (2 ^ 20) (2 ^ 26) 44 = 2 ^ 26 ∧
    capForGo (2 ^ 20) (2 ^ 26) 44 = 2 ^ 26 := by
  refine ⟨fun h => ?_, by decide, by decide, by decide, by decide⟩
  have := h.ge
  revert this
  decide

end RoaringRange
