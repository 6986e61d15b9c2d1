import RoaringRange.Lib.Faults

/-!
# Computations that end the same

`Onward x`: whatever becomes of `x`, it leaves a rest of the schedule it was given.  Programs made of accesses are all
so, those that take faults for answers too.

`Alike x y`: where no access fails, `x` and `y` have the same outcome, however many accesses each makes:

    Alike x y → x.run calm = y.run calm                                      (Alike.run_eq)

The rules for `bind` and the waves let a part of a program be exchanged for another that ends the same.
-/

namespace Faults

section

variable {ε δ α β γ : Type}

/-! ## Moving on -/

/-- Under every schedule, what `x` leaves is a rest of it. -/
def Onward (x : Faulty ε δ α) : Prop := ∀ s, ∃ n, (x.run s).2 = s.drop n

namespace Onward

variable {x : Faulty ε δ α} {f : α → Faulty ε δ β}

theorem pure (a : α) : Onward (Pure.pure a : Faulty ε δ α) := fun s => ⟨0, (Schedule.drop_zero s).symm⟩

theorem ofOutcome (r : Except δ α) : Onward (Faults.ofOutcome r : Faulty ε δ α) := fun s =>
  ⟨0, (Schedule.drop_zero s).symm⟩

theorem access [Raises ε δ] (r : Except δ α) : Onward (Faults.access r : Faulty ε δ α) := by
  intro s
  refine ⟨1, ?_⟩
  show (Faults.access r s).2 = _
  unfold Faults.access
  cases s 0 with
  | none => rfl
  | some e => rfl

theorem bind (hx : Onward x) (hf : ∀ a, Onward (f a)) : Onward (x >>= f) := by
  intro s
  obtain ⟨n, hn⟩ := hx s
  rw [run_bind]
  rcases hrun : x.run s with ⟨_ | a, s'⟩
  · rw [hrun] at hn
    exact ⟨n, hn⟩
  · obtain ⟨m, hm⟩ := hf a s'
    rw [hrun] at hn
    refine ⟨n + m, ?_⟩
    show ((f a).run s').2 = _
    rw [hm, show s' = s.drop n from hn, Schedule.drop_drop]

theorem map (g : α → β) (hx : Onward x) : Onward (g <$> x) := hx.bind fun a => Onward.pure (g a)

theorem observe (hx : Onward x) : Onward (observe x) := hx

theorem joinAll {xs : List (Faulty ε δ α)} (h : ∀ x ∈ xs, Onward x) : Onward (joinAll xs) := by
  induction xs with
  | nil => exact Onward.pure []
  | cons x xs ih =>
    refine (h x List.mem_cons_self).observe.bind fun r => ?_
    exact (ih fun y hy => h y (List.mem_cons_of_mem _ hy)).bind fun rs => Onward.pure (r :: rs)

theorem tryAll {xs : List (Faulty ε δ α)} (h : ∀ x ∈ xs, Onward x) : Onward (tryAll xs) :=
  (joinAll h).bind fun rs => Onward.ofOutcome (collect rs)

/-- A wave of computations of one kind. -/
theorem tryAll_map {xs : List γ} {f : γ → Faulty ε δ α} (h : ∀ c, Onward (f c)) : Onward (Faults.tryAll (xs.map f)) :=
  tryAll fun _ hx => by
    obtain ⟨c, -, rfl⟩ := List.mem_map.mp hx
    exact h c

end Onward

/-! ## Ending the same -/

/-- Where no access fails, `x` and `y` have the same outcome. -/
def Alike (x y : Faulty ε δ α) : Prop :=
  ∃ r, x.run Schedule.calm = (r, Schedule.calm) ∧ y.run Schedule.calm = (r, Schedule.calm)

theorem Onward.alike {x : Faulty ε δ α} (h : Onward x) : Alike x x := by
  obtain ⟨n, hn⟩ := h Schedule.calm
  rw [Schedule.drop_calm] at hn
  exact ⟨(x.run Schedule.calm).1, Prod.ext rfl hn, Prod.ext rfl hn⟩

theorem Settles.alike [Raises ε δ] {x y : Faulty ε δ α} {r : Except δ α} (hx : Settles x r) (hy : Settles y r) :
    Alike x y := ⟨r, hx.calm, hy.calm⟩

namespace Alike

variable {x y : Faulty ε δ α} {f g : α → Faulty ε δ β}

theorem run_eq (h : Alike x y) : x.run Schedule.calm = y.run Schedule.calm := by
  obtain ⟨r, hx, hy⟩ := h
  rw [hx, hy]

theorem bind (h : Alike x y) (hf : ∀ a, Alike (f a) (g a)) : Alike (x >>= f) (y >>= g) := by
  obtain ⟨r, hx, hy⟩ := h
  unfold Alike
  rw [run_bind, run_bind, hx, hy]
  cases r with
  | error e => exact ⟨.error e, rfl, rfl⟩
  | ok a => exact hf a

theorem joinAll {xs ys : List (Faulty ε δ α)} (h : List.Forall₂ Alike xs ys) :
    Alike (joinAll xs) (Faults.joinAll ys) := by
  induction h with
  | nil => exact (Onward.pure []).alike
  | @cons x y xs ys hxy _ ih =>
    have hobs : Alike (observe x) (observe y) := by
      obtain ⟨r, hx, hy⟩ := hxy
      exact ⟨.ok r, by rw [run_observe, hx], by rw [run_observe, hy]⟩
    exact hobs.bind fun r => ih.bind fun rs => (Onward.pure (r :: rs)).alike

theorem tryAll {xs ys : List (Faulty ε δ α)} (h : List.Forall₂ Alike xs ys) :
    Alike (tryAll xs) (Faults.tryAll ys) :=
  (joinAll h).bind fun rs => (Onward.ofOutcome (collect rs)).alike

/-- Two waves over the same items. -/
theorem tryAll_map {xs : List γ} {f g : γ → Faulty ε δ α} (h : ∀ c ∈ xs, Alike (f c) (g c)) :
    Alike (Faults.tryAll (xs.map f)) (Faults.tryAll (xs.map g)) := by
  apply tryAll
  rw [List.forall₂_map_left_iff, List.forall₂_map_right_iff]
  exact List.forall₂_same.mpr h

end Alike

end

end Faults
