import RoaringRange.Lib.Faults

/-!
# Code that traps

A machine program ends in a value, in an error it returns, or in a trap: arithmetic that leaves its width, an
index past the end, an allocation no memory could hold.  `Abort δ` has both of the latter, so that "never
traps" is a statement about the outcome.  Each operation that can trap is a definition here:

    add, mul, sub       a sum or product below a bound, a difference that is not negative
    range, get, set     xs[lo..hi], xs[i], xs[i] = x
    chunksExact, reserve

`Safe p r`: `r` is no trap, and a value it has satisfies `p`.  The rules follow the program: `pure`, `bind`, a map
and a loop with its invariant.
-/

namespace Checked

open Faults

/-- Why a program was stopped. -/
inductive Trap where
  | overflow
  | outOfBounds
  | zeroSize
  | zeroDivisor
  | capacity
  deriving DecidableEq, Repr

/-- An error the program returns, or a trap. -/
inductive Abort (δ : Type) where
  | err (e : δ)
  | trap (t : Trap)
  deriving DecidableEq, Repr

variable {ε δ α β : Type}

@[reducible] instance [Raises ε δ] : Raises ε (Abort δ) := ⟨fun e => .err (raise e)⟩

/-- The outcome of code that does not trap. -/
def lift (r : Except δ α) : Except (Abort δ) α := r.mapError Abort.err

theorem lift_ne_trap (r : Except δ α) (t : Trap) : lift r ≠ .error (.trap t) := by
  cases r with
  | error e => exact fun h => (by cases h)
  | ok a => exact fun h => (by cases h)

theorem lift_eq_ok {r : Except δ α} {a : α} (h : lift r = .ok a) : r = .ok a := by
  cases r with
  | error e => cases h
  | ok b => rw [Except.ok.inj h]

@[simp] theorem lift_ok (a : α) : (lift (.ok a) : Except (Abort δ) α) = .ok a := rfl

@[simp] theorem lift_error (e : δ) : (lift (.error e) : Except (Abort δ) α) = .error (.err e) := rfl

/-- Returns the error where the condition holds. -/
def reject (c : Prop) [Decidable c] (e : δ) : Except (Abort δ) Unit := if c then .error (.err e) else .ok ()

/-! ## Operations that trap -/

/-- `a + b` of numbers below `bound`. -/
def add (bound a b : Nat) : Except (Abort δ) Nat := if a + b < bound then .ok (a + b) else .error (.trap .overflow)

/-- `a * b` of numbers below `bound`. -/
def mul (bound a b : Nat) : Except (Abort δ) Nat := if a * b < bound then .ok (a * b) else .error (.trap .overflow)

/-- `a - b` of unsigned numbers. -/
def sub (a b : Nat) : Except (Abort δ) Nat := if b ≤ a then .ok (a - b) else .error (.trap .overflow)

/-- `&xs[lo..hi]`. -/
def range (xs : List α) (lo hi : Nat) : Except (Abort δ) (List α) :=
  if lo ≤ hi ∧ hi ≤ xs.length then .ok ((xs.drop lo).take (hi - lo)) else .error (.trap .outOfBounds)

/-- `xs[i]`. -/
def get (xs : List α) (i : Nat) : Except (Abort δ) α :=
  match xs[i]? with
  | some x => .ok x
  | none => .error (.trap .outOfBounds)

/-- `xs[i] = x`. -/
def set (xs : List α) (i : Nat) (x : α) : Except (Abort δ) (List α) :=
  if i < xs.length then .ok (xs.set i x) else .error (.trap .outOfBounds)

/-- The whole pieces of `w` items; what is left over is dropped. -/
def chunks (w : Nat) (xs : List α) : List (List α) :=
  (List.range (xs.length / w)).map fun i => (xs.drop (i * w)).take w

/-- `chunks_exact`. -/
def chunksExact (w : Nat) (xs : List α) : Except (Abort δ) (List (List α)) :=
  if w = 0 then .error (.trap .zeroSize) else .ok (chunks w xs)

/-- The memory of `n` items of `size` bytes: at most `limit` bytes. -/
def reserve (limit size n : Nat) : Except (Abort δ) Unit :=
  if n * size ≤ limit then .ok () else .error (.trap .capacity)

section Operations

variable {bound a b lo hi i w : Nat} {xs : List α} {x : α}

@[simp] theorem ok_bind (a : α) (f : α → Except δ β) : (Except.ok a >>= f) = f a := rfl

theorem reject_ok {c : Prop} [Decidable c] {e : δ} (h : ¬ c) : reject c e = .ok () := if_neg h

theorem reject_err {c : Prop} [Decidable c] {e : δ} (h : c) : reject c e = .error (.err e) := if_pos h

theorem add_ok (h : a + b < bound) : (add bound a b : Except (Abort δ) Nat) = .ok (a + b) := if_pos h

theorem add_trap (h : bound ≤ a + b) : (add bound a b : Except (Abort δ) Nat) = .error (.trap .overflow) :=
  if_neg (Nat.not_lt.mpr h)

theorem sub_ok (h : b ≤ a) : (sub a b : Except (Abort δ) Nat) = .ok (a - b) := if_pos h

theorem mul_ok (h : a * b < bound) : (mul bound a b : Except (Abort δ) Nat) = .ok (a * b) := if_pos h

theorem range_ok (h : lo ≤ hi) (h' : hi ≤ xs.length) :
    (range xs lo hi : Except (Abort δ) (List α)) = .ok ((xs.drop lo).take (hi - lo)) := if_pos ⟨h, h'⟩

theorem reserve_ok {limit size n : Nat} (h : n * size ≤ limit) : (reserve limit size n : Except (Abort δ) Unit) = .ok () :=
  if_pos h

theorem reserve_trap {limit size n : Nat} (h : ¬ n * size ≤ limit) :
    (reserve limit size n : Except (Abort δ) Unit) = .error (.trap .capacity) := if_neg h

theorem get_ok (h : xs[i]? = some x) : (get xs i : Except (Abort δ) α) = .ok x := by
  unfold get
  rw [h]

theorem get_trap (h : xs.length ≤ i) : (get xs i : Except (Abort δ) α) = .error (.trap .outOfBounds) := by
  unfold get
  rw [List.getElem?_eq_none h]

theorem exists_get (h : i < xs.length) : ∃ y, y ∈ xs ∧ (get xs i : Except (Abort δ) α) = .ok y :=
  ⟨xs[i], List.getElem_mem h, get_ok (List.getElem?_eq_getElem h)⟩

theorem set_ok (h : i < xs.length) : (set xs i x : Except (Abort δ) (List α)) = .ok (xs.set i x) := if_pos h

theorem chunksExact_ok (h : w ≠ 0) : (chunksExact w xs : Except (Abort δ) (List (List α))) = .ok (chunks w xs) :=
  if_neg h

@[simp] theorem length_chunks (w : Nat) (xs : List α) : (chunks w xs).length = xs.length / w := by
  simp [chunks]

theorem length_of_mem_chunks {c : List α} (h : c ∈ chunks w xs) : c.length = w := by
  obtain ⟨i, hi, rfl⟩ := List.mem_map.mp h
  have hlt := List.mem_range.mp hi
  have hend : (i + 1) * w ≤ xs.length := by
    refine Nat.le_trans (Nat.mul_le_mul_right w hlt) ?_
    exact Nat.div_mul_le_self _ _
  rw [List.length_take, List.length_drop]
  rw [Nat.add_mul, Nat.one_mul] at hend
  omega

theorem getElem?_chunks (h : i < xs.length / w) : (chunks w xs)[i]? = some ((xs.drop (i * w)).take w) := by
  simp [chunks, h]

end Operations

/-! ## Safe outcomes -/

/-- `r` is no trap, and its value has the property. -/
def Safe (p : α → Prop) (r : Except (Abort δ) α) : Prop :=
  (∀ a, r = .ok a → p a) ∧ ∀ t, r ≠ .error (.trap t)

namespace Safe

variable {p q : α → Prop} {r : Except (Abort δ) α}

theorem ok {a : α} (h : p a) : Safe p (.ok a : Except (Abort δ) α) := by
  refine ⟨fun b hb => ?_, fun t ht => by cases ht⟩
  rw [← Except.ok.inj hb]
  exact h

theorem err (e : δ) : Safe p (.error (.err e) : Except (Abort δ) α) :=
  ⟨fun _ h => (by cases h), fun _ h => (by cases h)⟩

theorem of_eq {a : α} (hr : r = .ok a) (h : p a) : Safe p r := by
  rw [hr]
  exact ok h

theorem lift (r : Except δ α) : Safe (fun a => r = .ok a) (Checked.lift r) := by
  cases r with
  | error e => exact err e
  | ok a => exact ok rfl

theorem reject (c : Prop) [Decidable c] (e : δ) : Safe (fun _ => ¬ c) (Checked.reject c e) := by
  by_cases h : c
  · rw [reject_err h]
    exact err e
  · exact of_eq (reject_ok h) h

theorem mono (h : Safe p r) (hpq : ∀ a, p a → q a) : Safe q r := ⟨fun a ha => hpq a (h.1 a ha), h.2⟩

theorem bind {s : β → Prop} {f : α → Except (Abort δ) β} (hr : Safe p r) (hf : ∀ a, p a → Safe s (f a)) :
    Safe s (r >>= f) := by
  cases r with
  | ok a => exact hf a (hr.1 a rfl)
  | error e =>
    cases e with
    | err e => exact err e
    | trap t => exact absurd rfl (hr.2 t)

theorem bind_ok {s : β → Prop} {f : α → Except (Abort δ) β} {a : α} (hr : r = .ok a) (hf : Safe s (f a)) :
    Safe s (r >>= f) := by
  rw [hr]
  exact hf

/-- A map, each of whose items is safe. -/
theorem mapM {γ : Type} {s : γ → β → Prop} {f : γ → Except (Abort δ) β} {xs : List γ}
    (h : ∀ x ∈ xs, Safe (s x) (f x)) : Safe (List.Forall₂ s xs) (xs.mapM f) := by
  induction xs with
  | nil => exact ok List.Forall₂.nil
  | cons x xs ih =>
    rw [List.mapM_cons]
    refine (h x List.mem_cons_self).bind fun b hb => ?_
    refine (ih fun y hy => h y (List.mem_cons_of_mem _ hy)).bind fun bs hbs => ?_
    exact ok (List.Forall₂.cons hb hbs)

/-- A map whose items have one property in common. -/
theorem mapM_all {γ : Type} {s : β → Prop} {f : γ → Except (Abort δ) β} {xs : List γ}
    (h : ∀ x ∈ xs, Safe s (f x)) : Safe (fun bs => bs.length = xs.length ∧ ∀ b ∈ bs, s b) (xs.mapM f) := by
  refine (mapM h).mono fun bs hbs => ⟨hbs.length_eq.symm, ?_⟩
  induction hbs with
  | nil => exact fun b hb => absurd hb List.not_mem_nil
  | cons hb _ ih =>
    intro c hc
    rcases List.mem_cons.mp hc with rfl | hc
    · exact hb
    · exact ih (fun y hy => h y (List.mem_cons_of_mem _ hy)) c hc

end Safe

/-- A map all of whose items have values. -/
theorem mapM_ok {γ : Type} {f : γ → Except δ β} {g : γ → β} {xs : List γ} (h : ∀ x ∈ xs, f x = .ok (g x)) :
    xs.mapM f = .ok (xs.map g) := by
  induction xs with
  | nil => rfl
  | cons x xs ih =>
    rw [List.mapM_cons, h x List.mem_cons_self, ih fun y hy => h y (List.mem_cons_of_mem _ hy)]
    rfl

/-- A map one of whose items fails with `e`, as does every item that fails. -/
theorem mapM_error {γ : Type} {f : γ → Except δ β} {e : δ} {xs : List γ}
    (h : ∀ x ∈ xs, (∃ b, f x = .ok b) ∨ f x = .error e) (hx : ∃ x ∈ xs, f x = .error e) : xs.mapM f = .error e := by
  induction xs with
  | nil =>
    obtain ⟨x, hx, -⟩ := hx
    cases hx
  | cons x xs ih =>
    rw [List.mapM_cons]
    rcases h x List.mem_cons_self with ⟨b, hb⟩ | hb
    · obtain ⟨y, hy, hye⟩ := hx
      have hmem : y ∈ xs := by
        rcases List.mem_cons.mp hy with rfl | hy
        · rw [hb] at hye
          cases hye
        · exact hy
      rw [hb, show xs.mapM f = .error e from ih (fun z hz => h z (List.mem_cons_of_mem _ hz)) ⟨y, hmem, hye⟩]
      rfl
    · rw [hb]
      rfl

/-- A map whose items do not trap is the map without bounds. -/
theorem mapM_lift {γ : Type} {f : γ → Except (Abort δ) β} {g : γ → Except δ β} {xs : List γ}
    (h : ∀ x ∈ xs, f x = lift (g x)) : xs.mapM f = lift (collect (xs.map g)) := by
  induction xs with
  | nil => rfl
  | cons x xs ih =>
    have hrest : xs.mapM f = lift (collect (xs.map g)) := ih fun y hy => h y (List.mem_cons_of_mem _ hy)
    rw [List.mapM_cons, h x List.mem_cons_self, List.map_cons, hrest]
    cases hx : g x with
    | error e => simp only [collect, lift_error, bind, Except.bind]
    | ok b =>
      cases hxs : collect (xs.map g) with
      | error e => simp only [collect, hxs, lift_ok, lift_error, bind, Except.bind]
      | ok bs => simp only [collect, hxs, lift_ok, bind, Except.bind, pure, Except.pure]

/-- A loop whose steps all have values. -/
theorem foldlM_ok {γ : Type} {f : α → γ → Except δ α} {g : α → γ → α} {xs : List γ}
    (h : ∀ x ∈ xs, ∀ a, f a x = .ok (g a x)) (a : α) : xs.foldlM f a = .ok (xs.foldl g a) := by
  induction xs generalizing a with
  | nil => rfl
  | cons x xs ih =>
    rw [List.foldlM_cons, h x List.mem_cons_self a, List.foldl_cons]
    exact ih (fun y hy => h y (List.mem_cons_of_mem _ hy)) _

/-- A loop that stops with `e` at some step, and stops no other way. -/
theorem foldlM_error {γ : Type} {f : α → γ → Except δ α} {e : δ} {xs : List γ}
    (h : ∀ x ∈ xs, (∀ a, ∃ b, f a x = .ok b) ∨ ∀ a, f a x = .error e) (hx : ∃ x ∈ xs, ∀ a, f a x = .error e) (a : α) :
    xs.foldlM f a = .error e := by
  induction xs generalizing a with
  | nil =>
    obtain ⟨x, hx, -⟩ := hx
    cases hx
  | cons x xs ih =>
    rw [List.foldlM_cons]
    rcases h x List.mem_cons_self with hok | herr
    · obtain ⟨y, hy, hye⟩ := hx
      obtain ⟨b, hb⟩ := hok a
      have hmem : y ∈ xs := by
        rcases List.mem_cons.mp hy with rfl | hy
        · rw [hye a] at hb
          cases hb
        · exact hy
      rw [hb]
      exact ih (fun z hz => h z (List.mem_cons_of_mem _ hz)) ⟨y, hmem, hye⟩ b
    · rw [herr a]
      rfl

/-! ## Safe computations -/

theorem outcome_ok_bind (a : α) (f : α → Faulty ε δ β) : (ofOutcome (.ok a) : Faulty ε δ α) >>= f = f a := rfl

theorem outcome_error_bind (e : δ) (f : α → Faulty ε δ β) :
    (ofOutcome (.error e) : Faulty ε δ α) >>= f = ofOutcome (.error e) := rfl

/-- Under every schedule the outcome is safe. -/
def SafeRun (p : α → Prop) (x : Faulty ε (Abort δ) α) : Prop := ∀ s, Safe p (x.run s).1

namespace SafeRun

variable {p : α → Prop} {q : β → Prop} {x : Faulty ε (Abort δ) α}

theorem outcome {r : Except (Abort δ) α} (h : Safe p r) : SafeRun p (ofOutcome r : Faulty ε (Abort δ) α) := fun _ => h

theorem bind {f : α → Faulty ε (Abort δ) β} (hx : SafeRun p x) (hf : ∀ a, p a → SafeRun q (f a)) :
    SafeRun q (x >>= f) := by
  intro s
  have hs := hx s
  rw [run_bind]
  rcases hrun : x.run s with ⟨o, s'⟩
  rw [hrun] at hs
  cases o with
  | ok a => exact hf a (hs.1 a rfl) s'
  | error e =>
    cases e with
    | err e => exact Safe.err e
    | trap t => exact absurd rfl (hs.2 t)

theorem access [Raises ε δ] {r : Except (Abort δ) α} (h : Safe p r) :
    SafeRun p (Faults.access r : Faulty ε (Abort δ) α) := by
  intro s
  show Safe p (Faults.access r s).1
  unfold Faults.access
  split
  · exact Safe.err _
  · exact h

end SafeRun

end Checked
