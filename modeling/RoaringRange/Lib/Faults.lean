import Mathlib.Data.List.Forall2

/-!
# Computations over a store whose accesses may fail

A `Faulty ε δ α` computation makes accesses one after the other; a schedule says which of them
fail and how.  Errors of the computation itself (`δ`) include the faults (`Raises ε δ`).

`Settles x r`: under every schedule `x` ends in `r`, or in the error of a fault it met.  A
computation that settles on a value is therefore right whenever it returns one, and under the
calm schedule it does return it:

    Settles x r → x.run calm = (r, calm)                                     (Settles.calm)
    Settles x r → (x.run s).1 = .ok a → r = .ok a                            (Settles.eq_of_ok)

The rules follow the shape of the program: `pure`, `throw`, one access, `bind`, and a wave of
independent computations that all run before any outcome is looked at (`joinAll`, `tryAll`).

`SettlesUnless bad x r` is the same for a program that takes some kind of fault for an answer: the schedules
have none of that kind.

`Returns p x`: whatever the schedule, a value that `x` returns has the property `p`.  `Answers p x`: `x` also
returns one, as a program does that takes its faults for answers (`observe`).

A `Method σ ε δ α` is the same over an object of type `σ` that it updates in place: what the
updates before an error did to the object stays done.
-/

namespace Faults

/-! ## Schedules -/

/-- Which accesses fail: `s i = some e` makes the `i`-th access from now fail with `e`. -/
abbrev Schedule (ε : Type) := Nat → Option ε

namespace Schedule

variable {ε : Type}

/-- No access fails. -/
def calm : Schedule ε := fun _ => none

/-- What is left of a schedule after `n` accesses. -/
def drop (s : Schedule ε) (n : Nat) : Schedule ε := fun i => s (n + i)

/-- One of the next `n` accesses fails with `e`. -/
def Met (s : Schedule ε) (n : Nat) (e : ε) : Prop := ∃ i, i < n ∧ s i = some e

@[simp] theorem drop_zero (s : Schedule ε) : s.drop 0 = s := by
  funext i
  simp [drop]

theorem drop_drop (s : Schedule ε) (m n : Nat) : (s.drop m).drop n = s.drop (m + n) := by
  funext i
  simp [drop, Nat.add_assoc]

@[simp] theorem drop_calm (n : Nat) : (calm : Schedule ε).drop n = calm := rfl

theorem not_met_calm (n : Nat) (e : ε) : ¬ (calm : Schedule ε).Met n e := by
  rintro ⟨i, -, h⟩
  simp [calm] at h

theorem Met.mono {s : Schedule ε} {m n : Nat} {e : ε} (h : s.Met m e) (hmn : m ≤ n) :
    s.Met n e := by
  obtain ⟨i, hi, he⟩ := h
  exact ⟨i, by omega, he⟩

theorem Met.of_drop {s : Schedule ε} {m n : Nat} {e : ε} (h : (s.drop m).Met n e) :
    s.Met (m + n) e := by
  obtain ⟨i, hi, he⟩ := h
  exact ⟨m + i, by omega, he⟩

end Schedule

/-! ## Computations -/

/-- The error type `δ` has a case for every fault `ε`. -/
class Raises (ε δ : Type) where
  raise : ε → δ

export Raises (raise)

abbrev Faulty (ε δ α : Type) := ExceptT δ (StateM (Schedule ε)) α

section Computations

variable {ε δ α β : Type}

/-- One access, which answers `r` unless the schedule makes it fail. -/
def access [Raises ε δ] (r : Except δ α) : Faulty ε δ α := fun s =>
  match s 0 with
  | some e => (.error (raise e), s.drop 1)
  | none => (r, s.drop 1)

/-- Runs `x` and hands its outcome over as a value. -/
def observe (x : Faulty ε δ α) : Faulty ε δ (Except δ α) := fun s => (.ok (x.run s).1, (x.run s).2)

/-- Runs every computation of a wave to its end and collects the outcomes. -/
def joinAll : List (Faulty ε δ α) → Faulty ε δ (List (Except δ α))
  | [] => pure []
  | x :: xs => do
    let r ← observe x
    let rs ← joinAll xs
    pure (r :: rs)

def ofOutcome (r : Except δ α) : Faulty ε δ α := fun s => (r, s)

/-- The values of a list of outcomes, or its first error. -/
def collect : List (Except δ α) → Except δ (List α)
  | [] => .ok []
  | r :: rs =>
    match r, collect rs with
    | .error e, _ => .error e
    | .ok _, .error e => .error e
    | .ok a, .ok as => .ok (a :: as)

/-- A chain that returned a value: what each of its two parts returned. -/
theorem exists_of_bind_ok {r : Except δ α} {f : α → Except δ β} {b : β} (h : (r >>= f) = .ok b) :
    ∃ a, r = .ok a ∧ f a = .ok b := by
  cases r with
  | error e => cases h
  | ok a => exact ⟨a, rfl, h⟩

/-- A wave whose outcomes must all be values. -/
def tryAll (xs : List (Faulty ε δ α)) : Faulty ε δ (List α) := do
  let rs ← joinAll xs
  ofOutcome (collect rs)

@[simp] theorem run_pure (a : α) (s : Schedule ε) : (pure a : Faulty ε δ α).run s = (.ok a, s) := rfl

@[simp] theorem run_throw (e : δ) (s : Schedule ε) :
    (throw e : Faulty ε δ α).run s = (.error e, s) := rfl

@[simp] theorem run_ofOutcome (r : Except δ α) (s : Schedule ε) :
    (ofOutcome r : Faulty ε δ α).run s = (r, s) := rfl

@[simp] theorem run_observe (x : Faulty ε δ α) (s : Schedule ε) :
    (observe x).run s = (.ok (x.run s).1, (x.run s).2) := rfl

theorem run_bind (x : Faulty ε δ α) (f : α → Faulty ε δ β) (s : Schedule ε) :
    (x >>= f).run s =
      match x.run s with
      | (.ok a, s') => (f a).run s'
      | (.error e, s') => (.error e, s') := by
  show (ExceptT.bindCont f (x s).1) (x s).2 = _
  show _ = match x s with
    | (.ok a, s') => (f a) s'
    | (.error e, s') => (.error e, s')
  rcases x s with ⟨_ | _, _⟩ <;> rfl

/-! ## Settling on an outcome -/

variable [Raises ε δ]

/-- `o` is `r`, or the error of one of the faults `F`. -/
def Agrees (F : ε → Prop) (o r : Except δ α) : Prop := o = r ∨ ∃ e, F e ∧ o = .error (raise e)

theorem Agrees.mono {F G : ε → Prop} {o r : Except δ α} (h : Agrees F o r)
    (hFG : ∀ e, F e → G e) : Agrees G o r := by
  rcases h with h | ⟨e, he, h⟩
  · exact Or.inl h
  · exact Or.inr ⟨e, hFG e he, h⟩

theorem agrees_collect {F : ε → Prop} {os rs : List (Except δ α)}
    (h : List.Forall₂ (Agrees F) os rs) : Agrees F (collect os) (collect rs) := by
  induction h with
  | nil => exact Or.inl rfl
  | @cons o r os rs ho _ ih =>
    rcases ho with rfl | ⟨e, he, rfl⟩
    · cases o with
      | error e => exact Or.inl rfl
      | ok a =>
        rcases ih with ih | ⟨e, he, ih⟩
        · exact Or.inl (by simp only [collect, ih])
        · exact Or.inr ⟨e, he, by simp only [collect, ih]⟩
    · exact Or.inr ⟨e, he, rfl⟩

/-- Under every schedule `x` ends in `r` or in the error of a fault it met. -/
def Settles (x : Faulty ε δ α) (r : Except δ α) : Prop :=
  ∀ s : Schedule ε, ∃ n, (x.run s).2 = s.drop n ∧ Agrees (s.Met n) (x.run s).1 r

namespace Settles

variable {x : Faulty ε δ α} {f : α → Faulty ε δ β} {r : Except δ α} {t : Except δ β} {a : α} {e : δ}

theorem pure (a : α) : Settles (Pure.pure a : Faulty ε δ α) (.ok a) := fun s =>
  ⟨0, by simp, Or.inl rfl⟩

theorem ofOutcome (r : Except δ α) : Settles (ofOutcome r : Faulty ε δ α) r := fun s =>
  ⟨0, by simp, Or.inl rfl⟩

theorem access (r : Except δ α) : Settles (access r : Faulty ε δ α) r := by
  intro s
  cases h : s 0 with
  | none =>
    have hrun : (Faults.access r : Faulty ε δ α).run s = (r, s.drop 1) := by
      show Faults.access r s = _
      simp only [Faults.access, h]
    exact ⟨1, by rw [hrun], Or.inl (by rw [hrun])⟩
  | some e =>
    have hrun : (Faults.access r : Faulty ε δ α).run s = (.error (raise e), s.drop 1) := by
      show Faults.access r s = _
      simp only [Faults.access, h]
    exact ⟨1, by rw [hrun], Or.inr ⟨e, ⟨0, by omega, h⟩, by rw [hrun]⟩⟩

theorem bind (hx : Settles x (.ok a)) (hf : Settles (f a) t) : Settles (x >>= f) t := by
  intro s
  obtain ⟨n, hs, ho⟩ := hx s
  rw [run_bind]
  rcases hrun : x.run s with ⟨o, s'⟩
  rw [hrun] at hs ho
  simp only at hs ho
  rcases ho with rfl | ⟨e, he, rfl⟩
  · obtain ⟨m, hs', ho'⟩ := hf s'
    refine ⟨n + m, ?_, ?_⟩
    · simp only
      rw [hs', hs, Schedule.drop_drop]
    · refine ho'.mono fun e he => ?_
      rw [hs] at he
      exact he.of_drop
  · exact ⟨n, hs, Or.inr ⟨e, he, rfl⟩⟩

theorem bind_error (hx : Settles x (.error e)) : Settles (x >>= f) (.error e) := by
  intro s
  obtain ⟨n, hs, ho⟩ := hx s
  rw [run_bind]
  rcases hrun : x.run s with ⟨o, s'⟩
  rw [hrun] at hs ho
  simp only at hs ho
  rcases ho with rfl | ⟨e', he, rfl⟩
  · exact ⟨n, hs, Or.inl rfl⟩
  · exact ⟨n, hs, Or.inr ⟨e', he, rfl⟩⟩

theorem map {g : α → β} (hx : Settles x (.ok a)) :
    Settles (do let v ← x; Pure.pure (g v)) (.ok (g a)) :=
  hx.bind (Settles.pure _)

/-- Every member of a wave runs, so each outcome agrees with what its computation settles on. -/
theorem joinAll_run {xs : List (Faulty ε δ α)} {rs : List (Except δ α)}
    (h : List.Forall₂ Settles xs rs) (s : Schedule ε) :
    ∃ n os, (joinAll xs).run s = (.ok os, s.drop n) ∧ List.Forall₂ (Agrees (s.Met n)) os rs := by
  induction h generalizing s with
  | nil => exact ⟨0, [], by simp [joinAll], List.Forall₂.nil⟩
  | @cons x r xs rs hx _ ih =>
    obtain ⟨n, hs, ho⟩ := hx s
    obtain ⟨m, os, hrun, hos⟩ := ih (s.drop n)
    refine ⟨n + m, (x.run s).1 :: os, ?_, List.Forall₂.cons ?_ ?_⟩
    · simp only [joinAll, run_bind, run_observe]
      rw [hs, hrun]
      simp only [run_pure, Schedule.drop_drop]
    · exact ho.mono fun e he => he.mono (by omega)
    · exact hos.imp fun _ _ ha => ha.mono fun e he => he.of_drop

/-- A wave followed by a pure reading of its outcomes that tolerates faults. -/
theorem joinAll_consume {xs : List (Faulty ε δ α)} {rs : List (Except δ α)}
    {g : List (Except δ α) → Except δ β} (h : List.Forall₂ Settles xs rs)
    (hg : ∀ (F : ε → Prop) os, List.Forall₂ (Agrees F) os rs → Agrees F (g os) (g rs)) :
    Settles (joinAll xs >>= fun os => Faults.ofOutcome (g os)) (g rs) := by
  intro s
  obtain ⟨n, os, hrun, hos⟩ := joinAll_run h s
  refine ⟨n, ?_, ?_⟩
  · rw [run_bind, hrun]
    rfl
  · rw [run_bind, hrun]
    exact hg _ _ hos

theorem tryAll {xs : List (Faulty ε δ α)} {rs : List (Except δ α)}
    (h : List.Forall₂ Settles xs rs) : Settles (tryAll xs) (collect rs) :=
  joinAll_consume h fun _ _ => agrees_collect

theorem calm (h : Settles x r) : x.run Schedule.calm = (r, Schedule.calm) := by
  obtain ⟨n, hs, ho⟩ := h Schedule.calm
  rcases ho with ho | ⟨e, he, -⟩
  · rw [Schedule.drop_calm] at hs
    exact Prod.ext ho hs
  · exact absurd he (Schedule.not_met_calm n e)

theorem eq_of_ok (h : Settles x r) {s : Schedule ε} (hok : (x.run s).1 = .ok a) : r = .ok a := by
  obtain ⟨n, -, ho | ⟨e, -, ho⟩⟩ := h s
  · rw [← ho, hok]
  · rw [hok] at ho
    cases ho

/-- A computation settles on one value at most. -/
theorem ok_unique {b : α} (ha : Settles x (.ok a)) (hb : Settles x (.ok b)) : a = b := by
  have h := ha.calm.symm.trans hb.calm
  exact Except.ok.inj (congrArg Prod.fst h)

end Settles

theorem collect_cons_ok {r : Except δ α} {rs : List (Except δ α)} {as : List α} (h : collect (r :: rs) = .ok as) :
    ∃ a as', r = .ok a ∧ collect rs = .ok as' ∧ as = a :: as' := by
  unfold collect at h
  cases r with
  | error e => cases h
  | ok a =>
    cases hrs : collect rs with
    | error e =>
      rw [hrs] at h
      cases h
    | ok as' =>
      rw [hrs] at h
      exact ⟨a, as', rfl, rfl, (Except.ok.inj h).symm⟩

/-- Outcomes that were all values. -/
theorem exists_of_collect_ok {rs : List (Except δ α)} {as : List α} (h : collect rs = .ok as) {r : Except δ α}
    (hr : r ∈ rs) : ∃ a, r = .ok a := by
  induction rs generalizing as with
  | nil => cases hr
  | cons r' rs ih =>
    obtain ⟨a, as', ha, has, -⟩ := collect_cons_ok h
    rcases List.mem_cons.mp hr with rfl | hr
    · exact ⟨a, ha⟩
    · exact ih has hr

/-- A collected value is one of the outcomes. -/
theorem mem_of_collect_ok {rs : List (Except δ α)} {as : List α} (h : collect rs = .ok as) {a : α} (ha : a ∈ as) :
    Except.ok a ∈ rs := by
  induction rs generalizing as with
  | nil =>
    rw [← Except.ok.inj h] at ha
    cases ha
  | cons r rs ih =>
    obtain ⟨b, bs, rfl, hbs, rfl⟩ := collect_cons_ok h
    rcases List.mem_cons.mp ha with rfl | ha
    · exact List.mem_cons_self
    · exact List.mem_cons_of_mem _ (ih hbs ha)

theorem collect_ok (as : List α) : collect (as.map (Except.ok (ε := δ))) = .ok as := by
  induction as with
  | nil => rfl
  | cons a as ih => simp only [List.map_cons, collect, ih]

/-- Outcomes that are all values. -/
theorem collect_map_ok {γ : Type} {xs : List γ} {f : γ → Except δ α} {g : γ → α} (h : ∀ x ∈ xs, f x = .ok (g x)) :
    collect (xs.map f) = .ok (xs.map g) := by
  rw [List.map_congr_left h, ← collect_ok (δ := δ) (xs.map g), List.map_map]
  rfl

/-- Items that each have a value. -/
theorem exists_collect {γ : Type} {xs : List γ} {f : γ → Except δ α} (h : ∀ x ∈ xs, ∃ a, f x = .ok a) :
    ∃ as, collect (xs.map f) = .ok as ∧ List.Forall₂ (fun x a => f x = .ok a) xs as := by
  induction xs with
  | nil => exact ⟨[], rfl, List.Forall₂.nil⟩
  | cons x xs ih =>
    obtain ⟨a, ha⟩ := h x List.mem_cons_self
    obtain ⟨as, has, hall⟩ := ih fun y hy => h y (List.mem_cons_of_mem _ hy)
    refine ⟨a :: as, ?_, List.Forall₂.cons ha hall⟩
    simp only [List.map_cons, collect, ha, has]

/-- Items whose outcomes were all values. -/
theorem forall₂_of_collect {γ : Type} {xs : List γ} {f : γ → Except δ α} {as : List α} (h : collect (xs.map f) = .ok as) :
    List.Forall₂ (fun x a => f x = .ok a) xs as := by
  obtain ⟨as', has, hall⟩ := exists_collect fun x hx => exists_of_collect_ok h (List.mem_map_of_mem hx)
  rw [h] at has
  rw [Except.ok.inj has]
  exact hall

/-- Items read one by one, each as its number says. -/
theorem collect_range {γ : Type} {R : α → γ → Prop} (ys : List γ) (f : Nat → Except δ α)
    (h : ∀ (i : Nat) (hi : i < ys.length), ∃ x, f i = .ok x ∧ R x ys[i]) :
    ∃ xs, collect ((List.range ys.length).map f) = .ok xs ∧ List.Forall₂ R xs ys := by
  induction ys generalizing f with
  | nil => exact ⟨[], rfl, List.Forall₂.nil⟩
  | cons y ys ih =>
    obtain ⟨x, hx, hr⟩ := h 0 (Nat.succ_pos _)
    obtain ⟨xs, hxs, hrs⟩ := ih (fun i => f (i + 1)) fun i hi => h (i + 1) (Nat.succ_lt_succ hi)
    refine ⟨x :: xs, ?_, List.Forall₂.cons hr hrs⟩
    have hcomp : f ∘ Nat.succ = fun i => f (i + 1) := rfl
    rw [List.length_cons, List.range_succ_eq_map, List.map_cons, List.map_map, hcomp, hx]
    simp only [collect, hxs]

/-- A wave of computations that all settle on values. -/
theorem settles_tryAll_map {γ : Type} {xs : List γ} {f : γ → Faulty ε δ α} {g : γ → α}
    (h : ∀ x ∈ xs, Settles (f x) (.ok (g x))) : Settles (tryAll (xs.map f)) (.ok (xs.map g)) := by
  rw [← collect_ok (δ := δ), List.map_map]
  refine Settles.tryAll ?_
  rw [List.forall₂_map_left_iff, List.forall₂_map_right_iff]
  exact List.forall₂_same.mpr h

/-- A wave over elements that each have a partner, the value being theirs together. -/
theorem settles_tryAll_zipWith {γ κ : Type} {xs : List γ} {ys : List κ} {f : γ → Faulty ε δ α} {g : γ → κ → α}
    (h : List.Forall₂ (fun x y => Settles (f x) (.ok (g x y))) xs ys) :
    Settles (tryAll (xs.map f)) (.ok (List.zipWith g xs ys)) := by
  rw [← collect_ok (δ := δ)]
  apply Settles.tryAll
  induction h with
  | nil => exact List.Forall₂.nil
  | cons hxy _ ih => exact List.Forall₂.cons hxy ih

/-- A wave of single accesses, none of which fails. -/
theorem run_joinAll_access {xs : List (Except δ α)} {s : Schedule ε} (h : ∀ i < xs.length, s i = none) :
    (joinAll (xs.map fun r => (access r : Faulty ε δ α))).run s = (.ok xs, s.drop xs.length) := by
  induction xs generalizing s with
  | nil => rw [List.length_nil, Schedule.drop_zero]; rfl
  | cons r rs ih =>
    have hfirst : (access r : Faulty ε δ α).run s = (r, s.drop 1) := by
      show access r s = _
      unfold access
      rw [h 0 (Nat.succ_pos _)]
    have hrest : ∀ i < rs.length, s.drop 1 i = none := fun i hi => by
      have := h (1 + i) (by rw [List.length_cons]; omega)
      exact this
    simp only [List.map_cons, joinAll, run_bind, run_observe, hfirst, ih hrest, run_pure, Schedule.drop_drop,
      List.length_cons, Nat.add_comm 1]

/-- A wave of single accesses makes them all, and returns values where each answers one and none fails. -/
theorem run_tryAll_access (xs : List (Except δ α)) (s : Schedule ε) :
    ((tryAll (xs.map fun r => (access r : Faulty ε δ α))).run s).2 = s.drop xs.length ∧
      ((∃ as, ((tryAll (xs.map fun r => (access r : Faulty ε δ α))).run s).1 = .ok as) ↔
        (∀ r ∈ xs, ∃ a, r = .ok a) ∧ ∀ i < xs.length, s i = none) := by
  have wave : ∃ os, (joinAll (xs.map fun r => (access r : Faulty ε δ α))).run s = (.ok os, s.drop xs.length) ∧
      ((∃ as, collect os = .ok as) ↔ (∀ r ∈ xs, ∃ a, r = .ok a) ∧ ∀ i < xs.length, s i = none) := by
    induction xs generalizing s with
    | nil => exact ⟨[], by rw [List.length_nil, Schedule.drop_zero]; rfl, by simp [collect]⟩
    | cons r rs ih =>
      obtain ⟨os, hrun, hok⟩ := ih (s.drop 1)
      have hdrop : (s.drop 1).drop rs.length = s.drop (r :: rs).length := by
        rw [Schedule.drop_drop, List.length_cons, Nat.add_comm]
      have hfirst : ∃ o, (access r : Faulty ε δ α).run s = (o, s.drop 1) ∧
          ((∃ a, o = .ok a) ↔ (∃ a, r = .ok a) ∧ s 0 = none) := by
        show ∃ o, access r s = _ ∧ _
        unfold access
        cases h0 : s 0 with
        | none => exact ⟨r, rfl, by simp⟩
        | some e => exact ⟨.error (raise e), rfl, by simp⟩
      obtain ⟨o, ho, hfirst⟩ := hfirst
      refine ⟨o :: os, ?_, ?_⟩
      · simp only [List.map_cons, joinAll, run_bind, run_observe, ho, hrun, run_pure, hdrop]
      · have hrest : (∀ i < (r :: rs).length, s i = none) ↔ s 0 = none ∧ ∀ i < rs.length, s.drop 1 i = none := by
          constructor
          · intro h
            refine ⟨h 0 (Nat.succ_pos _), fun i hi => h (1 + i) ?_⟩
            rw [List.length_cons]
            omega
          · rintro ⟨h0, h⟩ i hi
            cases i with
            | zero => exact h0
            | succ i =>
              have := h i (by rw [List.length_cons] at hi; omega)
              rwa [Schedule.drop, Nat.add_comm] at this
        rw [hrest, List.forall_mem_cons]
        constructor
        · rintro ⟨as, has⟩
          obtain ⟨a, as', ha, has', -⟩ := collect_cons_ok has
          obtain ⟨hr, h0⟩ := hfirst.mp ⟨a, ha⟩
          obtain ⟨hrs, hnone⟩ := hok.mp ⟨as', has'⟩
          exact ⟨⟨hr, hrs⟩, h0, hnone⟩
        · rintro ⟨⟨hr, hrs⟩, h0, hnone⟩
          obtain ⟨a, rfl⟩ := hfirst.mpr ⟨hr, h0⟩
          obtain ⟨as, has⟩ := hok.mpr ⟨hrs, hnone⟩
          exact ⟨a :: as, by simp only [collect, has]⟩
  obtain ⟨os, hrun, hok⟩ := wave
  have hall : (tryAll (xs.map fun r => (access r : Faulty ε δ α))).run s = (collect os, s.drop xs.length) := by
    rw [tryAll, run_bind, hrun]
    rfl
  rw [hall]
  exact ⟨rfl, hok⟩
/-! ## Faults that are told apart -/

/-- Under every schedule without a fault of a `bad` kind, `x` ends in `r` or in the error of a fault it met. -/
def SettlesUnless (bad : ε → Prop) (x : Faulty ε δ α) (r : Except δ α) : Prop :=
  ∀ s : Schedule ε, (∀ i e, s i = some e → ¬ bad e) → ∃ n, (x.run s).2 = s.drop n ∧ Agrees (s.Met n) (x.run s).1 r

theorem Settles.unless {x : Faulty ε δ α} {r : Except δ α} (h : Settles x r) (bad : ε → Prop) :
    SettlesUnless bad x r := fun s _ => h s

theorem SettlesUnless.calm {bad : ε → Prop} {x : Faulty ε δ α} {r : Except δ α} (h : SettlesUnless bad x r) :
    (x.run Schedule.calm).1 = r := by
  obtain ⟨n, -, ho | ⟨e, he, -⟩⟩ := h Schedule.calm fun _ _ h => by cases h
  · exact ho
  · exact absurd he (Schedule.not_met_calm n e)

/-- A computation settles on one outcome at most. -/
theorem SettlesUnless.unique {bad : ε → Prop} {x : Faulty ε δ α} {r t : Except δ α} (hr : SettlesUnless bad x r)
    (ht : SettlesUnless bad x t) : r = t := hr.calm.symm.trans ht.calm

/-- A wave whose outcomes are read by a program that takes faults of the `bad` kind for answers. -/
theorem SettlesUnless.joinAll_consume {bad : ε → Prop} {xs : List (Faulty ε δ α)} {rs : List (Except δ α)}
    {g : List (Except δ α) → Except δ β} (h : List.Forall₂ Settles xs rs)
    (hg : ∀ F : ε → Prop, (∀ e, F e → ¬ bad e) → ∀ os, List.Forall₂ (Agrees F) os rs → Agrees F (g os) (g rs)) :
    SettlesUnless bad (joinAll xs >>= fun os => Faults.ofOutcome (g os)) (g rs) := by
  intro s hs
  obtain ⟨n, os, hrun, hos⟩ := Settles.joinAll_run h s
  refine ⟨n, ?_, ?_⟩
  · rw [run_bind, hrun]
    rfl
  · rw [run_bind, hrun]
    refine hg _ (fun e he => ?_) os hos
    obtain ⟨i, -, hi⟩ := he
    exact hs i e hi

/-! ## What is returned -/

/-- Under every schedule, a value that `x` returns has the property. -/
def Returns (p : α → Prop) (x : Faulty ε δ α) : Prop := ∀ s a, (x.run s).1 = .ok a → p a

omit [Raises ε δ] in
theorem Returns.pure {p : α → Prop} {a : α} (h : p a) : Returns p (Pure.pure a : Faulty ε δ α) := by
  intro s b hb
  rw [← Except.ok.inj hb]
  exact h

omit [Raises ε δ] in
theorem Returns.bind {p : α → Prop} {q : β → Prop} {x : Faulty ε δ α} {f : α → Faulty ε δ β} (hx : Returns p x)
    (hf : ∀ a, p a → Returns q (f a)) : Returns q (x >>= f) := by
  intro s b hb
  rw [run_bind] at hb
  rcases hrun : x.run s with ⟨_ | a, s'⟩
  · rw [hrun] at hb
    cases hb
  · rw [hrun] at hb
    exact hf a (hx s a (by rw [hrun])) s' b hb

omit [Raises ε δ] in
theorem Returns.true (x : Faulty ε δ α) : Returns (fun _ => True) x := fun _ _ _ => trivial

/-! ## What is answered -/

/-- Under every schedule `x` returns a value that has the property. -/
def Answers (p : α → Prop) (x : Faulty ε δ α) : Prop := ∀ s, ∃ n a, x.run s = (.ok a, s.drop n) ∧ p a

omit [Raises ε δ] in
theorem Answers.pure {p : α → Prop} {a : α} (h : p a) : Answers p (Pure.pure a : Faulty ε δ α) := fun s =>
  ⟨0, a, by rw [Schedule.drop_zero]; rfl, h⟩

omit [Raises ε δ] in
theorem Answers.bind {p : α → Prop} {q : β → Prop} {x : Faulty ε δ α} {f : α → Faulty ε δ β} (hx : Answers p x)
    (hf : ∀ a, p a → Answers q (f a)) : Answers q (x >>= f) := by
  intro s
  obtain ⟨n, a, hrun, ha⟩ := hx s
  obtain ⟨m, b, hrun', hb⟩ := hf a ha (s.drop n)
  refine ⟨n + m, b, ?_, hb⟩
  rw [run_bind, hrun]
  simp only
  rw [hrun', Schedule.drop_drop]

omit [Raises ε δ] in
theorem Answers.imp {p q : α → Prop} {x : Faulty ε δ α} (hx : Answers p x) (h : ∀ a, p a → q a) : Answers q x := by
  intro s
  obtain ⟨n, a, hrun, ha⟩ := hx s
  exact ⟨n, a, hrun, h a ha⟩

/-- The outcome of a computation that settles, or that of a fault. -/
theorem Settles.observe {x : Faulty ε δ α} {r : Except δ α} (h : Settles x r) :
    Answers (fun o => o = r ∨ ∃ e : ε, o = .error (raise e)) (observe x) := by
  intro s
  obtain ⟨n, hs, ho⟩ := h s
  refine ⟨n, (x.run s).1, by rw [run_observe, hs], ho.imp_right ?_⟩
  rintro ⟨e, -, he⟩
  exact ⟨e, he⟩

/-- What follows an answer settles where it does for every answer there can be. -/
theorem Answers.settles_bind {p : α → Prop} {x : Faulty ε δ α} {f : α → Faulty ε δ β} {t : Except δ β}
    (hx : Answers p x) (hf : ∀ a, p a → Settles (f a) t) : Settles (x >>= f) t := by
  intro s
  obtain ⟨n, a, hrun, ha⟩ := hx s
  obtain ⟨m, hs, ho⟩ := hf a ha (s.drop n)
  refine ⟨n + m, ?_, ?_⟩
  · rw [run_bind, hrun]
    simp only
    rw [hs, Schedule.drop_drop]
  · rw [run_bind, hrun]
    exact ho.mono fun e he => he.of_drop

end Computations

/-! ## Methods of an object -/

/-- A computation of an object's method: an error leaves the object as the updates made it. -/
abbrev Method (σ ε δ α : Type) := ExceptT δ (StateT σ (StateM (Schedule ε))) α

section Methods

variable {σ ε δ α β : Type}

/-- Runs `x` from the object `c` under the schedule `s`. -/
def Method.call (x : Method σ ε δ α) (c : σ) (s : Schedule ε) : (Except δ α × σ) × Schedule ε :=
  (x.run c).run s

/-- Calls a method of an object of one's own, and hands the object over with the value. -/
def Method.on (x : Method σ ε δ α) (c : σ) : Faulty ε δ (α × σ) := fun s =>
  match x.call c s with
  | ((.ok a, c'), s') => (.ok (a, c'), s')
  | ((.error e, _), s') => (.error e, s')

theorem run_on {x : Method σ ε δ α} {c c' : σ} {a : α} {s s' : Schedule ε} (h : x.call c s = ((.ok a, c'), s')) :
    (x.on c).run s = (.ok (a, c'), s') := by
  show Method.on x c s = _
  unfold Method.on
  rw [h]

/-- A computation that leaves the object alone. -/
def perform (x : Faulty ε δ α) : Method σ ε δ α := fun c s =>
  (((x.run s).1, c), (x.run s).2)

@[simp] theorem call_pure (a : α) (c : σ) (s : Schedule ε) :
    Method.call (pure a : Method σ ε δ α) c s = ((.ok a, c), s) := rfl

@[simp] theorem call_perform (x : Faulty ε δ α) (c : σ) (s : Schedule ε) :
    Method.call (perform x) c s = (((x.run s).1, c), (x.run s).2) := rfl

@[simp] theorem call_get (c : σ) (s : Schedule ε) :
    Method.call (get : Method σ ε δ σ) c s = ((.ok c, c), s) := rfl

@[simp] theorem call_modify (f : σ → σ) (c : σ) (s : Schedule ε) :
    Method.call (modify f : Method σ ε δ PUnit) c s = ((.ok ⟨⟩, f c), s) := rfl

theorem call_bind (x : Method σ ε δ α) (f : α → Method σ ε δ β) (c : σ) (s : Schedule ε) :
    Method.call (x >>= f) c s =
      match Method.call x c s with
      | ((.ok a, c'), s') => Method.call (f a) c' s'
      | ((.error e, c'), s') => ((.error e, c'), s') := by
  show (ExceptT.bindCont f ((x c) s).1.1) ((x c) s).1.2 ((x c) s).2 = _
  show _ = match (x c) s with
    | ((.ok a, c'), s') => (f a) c' s'
    | ((.error e, c'), s') => ((.error e, c'), s')
  rcases (x c) s with ⟨⟨_ | _, _⟩, _⟩ <;> rfl

/-- What follows an access that settled: the value it settled on, or a fault met on the way. -/
theorem call_perform_bind [Raises ε δ] {x : Faulty ε δ α} {a : α} (h : Settles x (.ok a))
    (f : α → Method σ ε δ β) (c : σ) (s : Schedule ε) :
    (∃ n, Method.call (perform x >>= f) c s = Method.call (f a) c (s.drop n)) ∨
    (∃ n e, s.Met n e ∧ Method.call (perform x >>= f) c s = ((.error (raise e), c), s.drop n)) := by
  obtain ⟨n, hs, ho⟩ := h s
  rw [call_bind, call_perform]
  rcases ho with ho | ⟨e, he, ho⟩
  · exact Or.inl ⟨n, by rw [ho, hs]⟩
  · exact Or.inr ⟨n, e, he, by rw [ho, hs]⟩

end Methods

end Faults
