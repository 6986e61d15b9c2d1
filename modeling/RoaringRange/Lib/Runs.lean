import Mathlib.Order.Basic

/-!
# Runs of a labelled step relation

`Run Step c₀ tr c`: from `c₀` the steps labelled `tr`, one after the other, lead to `c`.  What holds
of the empty run and is kept by every further step holds of every run, of its labels and its last
state together:

    I [] c₀ → (I tr c → Step c l c' → I (tr ++ [l]) c') → Run Step c₀ tr c → I tr c   (Run.invariant)
-/

namespace Runs

variable {σ lab : Type} {Step Step' : σ → lab → σ → Prop} {c₀ : σ} {tr : List lab} {c : σ}

inductive Run (Step : σ → lab → σ → Prop) (c₀ : σ) : List lab → σ → Prop
  | start : Run Step c₀ [] c₀
  | step {tr : List lab} {c c' : σ} {l : lab} : Run Step c₀ tr c → Step c l c' → Run Step c₀ (tr ++ [l]) c'

theorem Run.invariant {I : List lab → σ → Prop} (h₀ : I [] c₀)
    (hstep : ∀ tr c l c', I tr c → Step c l c' → I (tr ++ [l]) c') (h : Run Step c₀ tr c) : I tr c := by
  induction h with
  | start => exact h₀
  | step _ hs ih => exact hstep _ _ _ _ ih hs

theorem Run.single {l : lab} {c' : σ} (h : Step c₀ l c') : Run Step c₀ [l] c' := Run.step Run.start h

end Runs
