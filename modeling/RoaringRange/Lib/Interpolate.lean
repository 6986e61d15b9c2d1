import Mathlib.Algebra.Order.Group.Nat
import Mathlib.Algebra.Order.Ring.Nat

/-!
# Interpolation search

A window of positions with a bracket of the values known at its ends.  The next probe is where the
target would be if the values in between were evenly spread (`Window.probe`), and the value found there
narrows the window (`Window.narrow`).  All arithmetic is on machine integers and checked: `none` is an
overflow, an underflow or a division by zero.

    a probe of a bracketed window succeeds and is inside it                            (probe_spec)
    narrowing keeps the bracket and makes the window smaller                          (narrow_spec)
    over ascending values it keeps the target inside the window                     (Splits.narrow)
-/

namespace Interpolate

/-! ## Checked arithmetic -/

def sub (a b : Nat) : Option Nat := if b ≤ a then some (a - b) else none

/-- `n` in an unsigned integer of `w` bits. -/
def fit (w n : Nat) : Option Nat := if n < 2 ^ w then some n else none

def div (a b : Nat) : Option Nat := if b = 0 then none else some (a / b)

/-- `x` moved into `lo..=hi`; there must be such values. -/
def clamp (x lo hi : Nat) : Option Nat := if lo ≤ hi then some (max lo (min x hi)) else none

theorem sub_eq {a b : Nat} (h : b ≤ a) : sub a b = some (a - b) := if_pos h

theorem fit_eq {w n : Nat} (h : n < 2 ^ w) : fit w n = some n := if_pos h

theorem div_eq {a b : Nat} (h : b ≠ 0) : div a b = some (a / b) := if_neg h

theorem clamp_eq {x lo hi : Nat} (h : lo ≤ hi) : clamp x lo hi = some (max lo (min x hi)) := if_pos h

/-! ## Windows -/

/-- Positions `lo..hi`, the values before them below `loVal` and those after at least `hiVal`. -/
structure Window where
  lo : Nat
  hi : Nat
  loVal : Nat
  hiVal : Nat
  deriving DecidableEq, Repr

namespace Window

/-- Where to look next: the target's linear offset in the bracket, or the middle when the bracket is empty. -/
def probe (w : Window) (target : Nat) : Option Nat :=
  if w.loVal < w.hiVal then do
    let width ← sub w.hi w.lo
    let span ← sub width 1
    let ahead ← sub target w.loVal
    let scaled ← fit 128 (ahead * span)
    let bracket ← sub w.hiVal w.loVal
    let step ← div scaled bracket
    let est ← fit 128 (w.lo + step)
    let last ← sub w.hi 1
    let mid ← clamp est w.lo last
    pure (mid % 2 ^ 32)
  else do
    let width ← sub w.hi w.lo
    fit 32 (w.lo + width / 2)

/-- The window after `value` was found at `mid`. -/
def narrow (w : Window) (mid value target : Nat) : Option Window :=
  if value < target then do
    let lo ← fit 32 (mid + 1)
    let loVal ← fit 128 (value + 1)
    pure { w with lo := lo, loVal := loVal }
  else some { w with hi := mid, hiVal := value }

/-- The window is one of `count` positions and its bracket is around the target. -/
structure Brackets (count target : Nat) (w : Window) : Prop where
  lo_le : w.lo ≤ w.hi
  hi_le : w.hi ≤ count
  loVal_le : w.loVal ≤ target
  le_hiVal : target ≤ w.hiVal
  hiVal_le : w.hiVal ≤ 2 ^ 64

variable {count target : Nat} {w : Window}

/-- **A probe never fails** and looks inside the window. -/
theorem probe_spec (h : w.Brackets count target) (hcount : count < 2 ^ 32) (hne : w.lo < w.hi) :
    ∃ mid, w.probe target = some mid ∧ w.lo ≤ mid ∧ mid < w.hi := by
  obtain ⟨hlo, hhi, hlv, hhv, h64⟩ := h
  unfold probe
  split
  · next hval =>
    have hscaled : (target - w.loVal) * (w.hi - w.lo - 1) < 2 ^ 128 := by
      calc (target - w.loVal) * (w.hi - w.lo - 1) ≤ 2 ^ 64 * 2 ^ 32 := Nat.mul_le_mul (by omega) (by omega)
        _ < 2 ^ 128 := by decide
    -- the target is in the bracket, so the step is at most the span
    have hstep : (target - w.loVal) * (w.hi - w.lo - 1) / (w.hiVal - w.loVal) ≤ w.hi - w.lo - 1 := by
      refine Nat.div_le_of_le_mul ?_
      exact Nat.mul_le_mul_right _ (by omega)
    have hest : w.lo + (target - w.loVal) * (w.hi - w.lo - 1) / (w.hiVal - w.loVal) < 2 ^ 128 := by omega
    have hwidth := sub_eq (show 1 ≤ w.hi - w.lo by omega)
    have hlast := sub_eq (show 1 ≤ w.hi by omega)
    have hbracket := sub_eq (Nat.le_of_lt hval)
    have hdiv := @div_eq ((target - w.loVal) * (w.hi - w.lo - 1)) (w.hiVal - w.loVal) (by omega)
    have hclamp := @clamp_eq (w.lo + (target - w.loVal) * (w.hi - w.lo - 1) / (w.hiVal - w.loVal)) w.lo (w.hi - 1)
      (by omega)
    simp only [sub_eq hlo, hwidth, sub_eq hlv, fit_eq hscaled, hbracket, hdiv, fit_eq hest, hlast, hclamp,
      Option.bind_eq_bind, Option.bind_some]
    refine ⟨_, rfl, ?_, ?_⟩ <;> rw [Nat.mod_eq_of_lt (by omega)] <;> omega
  · refine ⟨w.lo + (w.hi - w.lo) / 2, ?_, by omega, by omega⟩
    rw [sub_eq hlo]
    exact fit_eq (by omega)

/-- **Narrowing never fails**, keeps the bracket and makes the window smaller. -/
theorem narrow_spec (h : w.Brackets count target) (hcount : count < 2 ^ 32) {mid value : Nat} (hmid : w.lo ≤ mid)
    (hmid' : mid < w.hi) (hvalue : value < 2 ^ 64) :
    ∃ w', w.narrow mid value target = some w' ∧ w'.Brackets count target ∧ w'.hi - w'.lo < w.hi - w.lo := by
  obtain ⟨hlo, hhi, hlv, hhv, h64⟩ := h
  unfold narrow
  split
  · next hlt =>
    refine ⟨{ w with lo := mid + 1, loVal := value + 1 }, ?_, ⟨?_, hhi, ?_, hhv, h64⟩, ?_⟩
    · rw [fit_eq (show mid + 1 < 2 ^ 32 by omega), fit_eq (show value + 1 < 2 ^ 128 by omega)]
      rfl
    · show mid + 1 ≤ w.hi
      omega
    · show value + 1 ≤ target
      omega
    · show w.hi - (mid + 1) < w.hi - w.lo
      omega
  · next hle =>
    refine ⟨{ w with hi := mid, hiVal := value }, rfl, ⟨hmid, ?_, hlv, ?_, ?_⟩, ?_⟩
    · show mid ≤ count
      omega
    · show target ≤ value
      omega
    · show value ≤ 2 ^ 64
      omega
    · show mid - w.lo < w.hi - w.lo
      omega

/-- The values before the window are below the target, those after are not. -/
def Splits (values : Nat → Nat) (count target : Nat) (w : Window) : Prop :=
  (∀ i < w.lo, values i < target) ∧ ∀ i < count, w.hi ≤ i → target ≤ values i

/-- Over ascending values narrowing keeps the target inside. -/
theorem Splits.narrow {values : Nat → Nat} (hasc : ∀ i j, i ≤ j → j < count → values i ≤ values j)
    (h : w.Splits values count target) {mid : Nat} {w' : Window} (hmid : mid < count)
    (hw : w.narrow mid (values mid) target = some w') : w'.Splits values count target := by
  unfold Window.narrow at hw
  split at hw
  · next hlt =>
    obtain ⟨lo, hlo, hw⟩ := Option.bind_eq_some_iff.mp hw
    obtain ⟨loVal, -, hw⟩ := Option.bind_eq_some_iff.mp hw
    obtain rfl := Option.some.inj hw
    have hlo' : lo = mid + 1 := by
      unfold fit at hlo
      split at hlo
      · exact (Option.some.inj hlo).symm
      · cases hlo
    refine ⟨fun i hi => ?_, h.2⟩
    have hi' : i < lo := hi
    exact Nat.lt_of_le_of_lt (hasc i mid (by omega) hmid) hlt
  · next hle =>
    obtain rfl := Option.some.inj hw
    refine ⟨h.1, fun i hi hmi => ?_⟩
    have hmi' : mid ≤ i := hmi
    exact Nat.le_trans (by omega) (hasc mid i hmi' hi)

end Window

end Interpolate
