import RoaringRange.Lib.Runs
import Mathlib.Algebra.Order.Group.Nat
import Mathlib.Data.List.Basic

/-!
# The in-flight window for ranged reads (`fetch_window.rs`)

A gate admits at most `limit` permits at a time (any number when the limit is 0).  An acquisition that is
polled while the gate is full parks its waker in a queue; releasing a permit or setting the limit wakes
the whole queue, and dropping an acquisition takes its entry out.

`World` is a gate with everything its users hold: the acquisitions made, each with what happened to it
last, and the permits alive.  An `Event` is one call of a user; a run is calls in any order.

    a call keeps the invariant, as long as no id was handed out twice                       (step_inv)
    no wakeup is lost in any run of up to 2 ^ 64 acquisitions                              (gate_safe)
-/

namespace RoaringRange

open Runs

/-- A task's waker, by the task it wakes. -/
abbrev Waker := Nat

/-- `fetch_window::FetchGate`.  Every permit holds a counted reference to the gate, so `active` is never near the
end of a `usize`; ids are taken from a `u64`. -/
structure FetchGate where
  limit : Nat
  active : Nat
  waiters : List (Nat × Waker)
  nextId : Nat
  deriving DecidableEq, Repr

namespace FetchGate

/-- `FetchGate::new`. -/
def new (limit : Nat) : FetchGate := ⟨limit, 0, [], 0⟩

/-- `FetchGate::wake_all`, with the wakers it wakes. -/
def wakeAll (g : FetchGate) : List Waker × FetchGate := (g.waiters.map Prod.snd, { g with waiters := [] })

/-- `FetchGate::set_limit`. -/
def setLimit (g : FetchGate) (limit : Nat) : List Waker × FetchGate := { g with limit := limit }.wakeAll

/-- `FetchGate::acquire`: the id of the acquisition. -/
def acquire (g : FetchGate) : Nat × FetchGate := (g.nextId, { g with nextId := (g.nextId + 1) % 2 ^ 64 })

/-- `FetchGate::release`. -/
def release (g : FetchGate) : List Waker × FetchGate := { g with active := g.active - 1 }.wakeAll

/-- A permit is free. -/
def Admits (g : FetchGate) : Prop := g.limit = 0 ∨ g.active < g.limit

instance (g : FetchGate) : Decidable g.Admits := inferInstanceAs (Decidable (_ ∨ _))

/-- Takes the entry of an id out of the queue. -/
def forget (id : Nat) (waiters : List (Nat × Waker)) : List (Nat × Waker) := waiters.filter fun e => e.1 != id

/-- Puts the waker in the first entry of the id, or in a new one at the back. -/
def park (id : Nat) (w : Waker) : List (Nat × Waker) → List (Nat × Waker)
  | [] => [(id, w)]
  | e :: es => if e.1 = id then (id, w) :: es else e :: park id w es

/-- `Acquire::poll`: whether it is ready. -/
def poll (g : FetchGate) (id : Nat) (w : Waker) : Bool × FetchGate :=
  if g.Admits then (true, { g with waiters := forget id g.waiters, active := g.active + 1 })
  else (false, { g with waiters := park id w g.waiters })

/-- `Acquire::drop`. -/
def dropAcquire (g : FetchGate) (id : Nat) : FetchGate := { g with waiters := forget id g.waiters }

theorem mem_forget {id : Nat} {ws : List (Nat × Waker)} {e : Nat × Waker} :
    e ∈ forget id ws ↔ e ∈ ws ∧ e.1 ≠ id := by
  rw [forget, List.mem_filter, bne_iff_ne]

theorem mem_park_self (id : Nat) (w : Waker) (ws : List (Nat × Waker)) : (id, w) ∈ park id w ws := by
  induction ws with
  | nil => exact List.mem_singleton_self _
  | cons e ws ih =>
    unfold park
    split
    · exact List.mem_cons_self
    · exact List.mem_cons_of_mem _ ih

theorem mem_park {id : Nat} {w : Waker} {ws : List (Nat × Waker)} {e : Nat × Waker} (h : e ∈ ws) (hid : e.1 ≠ id) :
    e ∈ park id w ws := by
  induction ws with
  | nil => cases h
  | cons x ws ih =>
    unfold park
    rcases List.mem_cons.mp h with rfl | h
    · rw [if_neg hid]
      exact List.mem_cons_self
    · split
      · exact List.mem_cons_of_mem _ h
      · exact List.mem_cons_of_mem _ (ih h)

end FetchGate

/-! ## Gates in use -/

/-- What happened to an acquisition last: nothing, a poll that parked this waker, a wake, or a poll that was ready. -/
inductive Phase where
  | fresh
  | pending (w : Waker)
  | woken
  | ready
  deriving DecidableEq, Repr

/-- `fetch_window::Acquire`. -/
structure Acquire where
  id : Nat
  phase : Phase
  deriving DecidableEq, Repr

/-- A gate, the acquisitions made of it (none for one that was dropped), and the number of its permits alive. -/
structure World where
  gate : FetchGate
  acquires : List (Option Acquire)
  permits : Nat
  deriving DecidableEq, Repr

/-- A call; an acquisition is named by its place in the order they were made. -/
inductive Event where
  | acquire
  | poll (h : Nat) (w : Waker)
  | drop (h : Nat)
  | release
  | setLimit (limit : Nat)
  deriving DecidableEq, Repr

namespace World

def new (limit : Nat) : World := ⟨FetchGate.new limit, [], 0⟩

/-- An acquisition whose waker is woken. -/
def wake (ws : List Waker) (a : Acquire) : Acquire :=
  match a.phase with
  | .pending w => if w ∈ ws then { a with phase := .woken } else a
  | _ => a

/-- Acquisition `h`, if it is alive. -/
def acquired (c : World) (h : Nat) : Option Acquire := (c.acquires[h]?).join

/-- One call; none when there is no such acquisition or permit. -/
def step (c : World) : Event → Option World
  | .acquire => some { c with gate := c.gate.acquire.2, acquires := c.acquires ++ [some ⟨c.gate.acquire.1, .fresh⟩] }
  | .poll h w => (c.acquired h).map fun a =>
    let r := c.gate.poll a.id w
    ⟨r.2, c.acquires.set h (some { a with phase := if r.1 then .ready else .pending w }),
      if r.1 then c.permits + 1 else c.permits⟩
  | .drop h => (c.acquired h).map fun a =>
    { c with gate := c.gate.dropAcquire a.id, acquires := c.acquires.set h none }
  | .release =>
    if c.permits = 0 then none
    else some ⟨c.gate.release.2, c.acquires.map (Option.map (wake c.gate.release.1)), c.permits - 1⟩
  | .setLimit limit =>
    some { c with gate := (c.gate.setLimit limit).2, acquires := c.acquires.map (Option.map (wake (c.gate.setLimit limit).1)) }

def Step (c : World) (e : Event) (c' : World) : Prop := c.step e = some c'

/-- Acquisitions have the ids in order, wrapping at the end of a `u64`; each that waits is in the queue, and there
is a queue only while the gate is full. -/
structure Inv (c : World) : Prop where
  active_eq : c.gate.active = c.permits
  nextId_eq : c.gate.nextId = c.acquires.length % 2 ^ 64
  id_eq : ∀ h a, c.acquired h = some a → a.id = h % 2 ^ 64
  parked : ∀ h a w, c.acquired h = some a → a.phase = .pending w → (a.id, w) ∈ c.gate.waiters
  full : c.gate.waiters ≠ [] → ¬ c.gate.Admits

/-- What a counting semaphore without lost wakeups promises. -/
structure Safe (c : World) : Prop where
  active_eq : c.gate.active = c.permits
  parked : ∀ h a w, c.acquired h = some a → a.phase = .pending w →
    (a.id, w) ∈ c.gate.waiters ∧ c.gate.limit ≠ 0 ∧ c.gate.limit ≤ c.gate.active

theorem Inv.safe {c : World} (hi : c.Inv) : c.Safe := by
  refine ⟨hi.active_eq, fun h a w ha hw => ?_⟩
  have hmem := hi.parked h a w ha hw
  have hfull := hi.full (List.ne_nil_of_mem hmem)
  unfold FetchGate.Admits at hfull
  exact ⟨hmem, by omega, by omega⟩

theorem inv_new (limit : Nat) : (new limit).Inv where
  active_eq := rfl
  nextId_eq := rfl
  id_eq h a ha := by simp [new, acquired] at ha
  parked h a w ha := by simp [new, acquired] at ha
  full h := absurd rfl h

/-! ## One call -/

section

variable {c : World} {h h' : Nat} {a a' : Acquire}

theorem acquired_eq_some_iff : c.acquired h = some a ↔ c.acquires[h]? = some (some a) := by
  unfold acquired
  rw [Option.join_eq_some_iff]

theorem acquired_lt (ha : c.acquired h = some a) : h < c.acquires.length :=
  (List.getElem?_eq_some_iff.mp (acquired_eq_some_iff.mp ha)).1

/-- Two acquisitions alive have different ids, while fewer than all ids were handed out. -/
theorem Inv.id_ne (hi : c.Inv) (hlen : c.acquires.length ≤ 2 ^ 64) (ha : c.acquired h = some a)
    (ha' : c.acquired h' = some a') (hne : h' ≠ h) : a'.id ≠ a.id := by
  have h1 := acquired_lt ha
  have h2 := acquired_lt ha'
  rw [hi.id_eq h a ha, hi.id_eq h' a' ha', Nat.mod_eq_of_lt (by omega), Nat.mod_eq_of_lt (by omega)]
  exact hne

/-- A wake leaves the id, and no acquisition pending on a waker that was woken. -/
theorem wake_spec (ws : List Waker) (a : Acquire) :
    (wake ws a).id = a.id ∧ ∀ w, (wake ws a).phase = .pending w → a.phase = .pending w ∧ w ∉ ws := by
  unfold wake
  cases hp : a.phase with
  | pending v =>
    by_cases hv : v ∈ ws
    · simp [hv]
    · refine ⟨by simp [hv], fun w hw => ?_⟩
      simp only [hv, if_false, hp, Phase.pending.injEq] at hw
      exact ⟨by rw [hw], hw ▸ hv⟩
  | _ => simp [hp]

/-- After every entry of the queue was woken nothing waits. -/
theorem Inv.wakeAll (hi : c.Inv) (limit active permits : Nat) (hactive : active = permits) :
    (World.mk ⟨limit, active, [], c.gate.nextId⟩ (c.acquires.map (Option.map (wake (c.gate.waiters.map Prod.snd))))
      permits).Inv := by
  have hget : ∀ h a, (World.mk ⟨limit, active, [], c.gate.nextId⟩
      (c.acquires.map (Option.map (wake (c.gate.waiters.map Prod.snd)))) permits).acquired h = some a →
      ∃ b, c.acquired h = some b ∧ wake (c.gate.waiters.map Prod.snd) b = a := by
    intro h a ha
    rw [acquired_eq_some_iff] at ha
    simp only [List.getElem?_map, Option.map_eq_some_iff] at ha
    obtain ⟨_, hb, b, rfl, hba⟩ := ha
    exact ⟨b, acquired_eq_some_iff.mpr hb, hba⟩
  refine ⟨hactive, ?_, ?_, ?_, fun hne => absurd rfl hne⟩
  · show c.gate.nextId = (c.acquires.map _).length % 2 ^ 64
    rw [List.length_map]
    exact hi.nextId_eq
  · intro h a ha
    obtain ⟨b, hb, rfl⟩ := hget h a ha
    rw [(wake_spec _ b).1]
    exact hi.id_eq h b hb
  · intro h a w ha hw
    obtain ⟨b, hb, rfl⟩ := hget h a ha
    obtain ⟨hpend, hnot⟩ := (wake_spec _ b).2 w hw
    exact absurd (List.mem_map_of_mem (hi.parked h b w hb hpend)) hnot

/-- An acquisition after that of `h` was replaced. -/
theorem acquired_set {g : FetchGate} {permits : Nat} {x : Option Acquire} (h h' : Nat) (hlt : h < c.acquires.length) :
    (World.mk g (c.acquires.set h x) permits).acquired h' = if h' = h then x else c.acquired h' := by
  unfold acquired
  simp only
  by_cases heq : h' = h
  · subst heq
    rw [if_pos rfl, List.getElem?_set_self hlt]
    rfl
  · rw [if_neg heq, List.getElem?_set_ne (Ne.symm heq)]

/-- Making an acquisition. -/
theorem Inv.acquire (hi : c.Inv) {c' : World} (h : c.step .acquire = some c') : c'.Inv := by
  obtain rfl := Option.some.inj h
  have hget : ∀ h a, (World.mk c.gate.acquire.2 (c.acquires ++ [some ⟨c.gate.acquire.1, .fresh⟩]) c.permits).acquired h =
      some a → c.acquired h = some a ∨ (h = c.acquires.length ∧ a = ⟨c.gate.nextId, .fresh⟩) := by
    intro h a ha
    rw [acquired_eq_some_iff] at ha
    rcases Nat.lt_or_ge h c.acquires.length with hlt | hge
    · rw [List.getElem?_append_left hlt] at ha
      exact Or.inl (acquired_eq_some_iff.mpr ha)
    · rw [List.getElem?_append_right hge] at ha
      obtain ⟨hz, ha⟩ := List.getElem?_eq_some_iff.mp ha
      rw [List.length_singleton] at hz
      refine Or.inr ⟨by omega, ?_⟩
      rw [List.getElem_singleton] at ha
      exact (Option.some.inj ha).symm
  refine ⟨hi.active_eq, ?_, ?_, ?_, hi.full⟩
  · show (c.gate.nextId + 1) % 2 ^ 64 = (c.acquires ++ _).length % 2 ^ 64
    rw [List.length_append, List.length_singleton, hi.nextId_eq]
    omega
  · intro h a ha
    rcases hget h a ha with ha | ⟨rfl, rfl⟩
    · exact hi.id_eq h a ha
    · exact hi.nextId_eq
  · intro h a w ha hw
    rcases hget h a ha with ha | ⟨rfl, rfl⟩
    · exact hi.parked h a w ha hw
    · cases hw

/-- Polling an acquisition: it is ready, or it waits in the queue of a full gate. -/
theorem Inv.poll (hi : c.Inv) (hlen : c.acquires.length ≤ 2 ^ 64) {w : Waker} {c' : World}
    (hs : c.step (.poll h w) = some c') : c'.Inv := by
  obtain ⟨a, ha, rfl⟩ := Option.map_eq_some_iff.mp hs
  have hlt := acquired_lt ha
  by_cases hadmits : c.gate.Admits
  · have hpoll : c.gate.poll a.id w =
        (true, { c.gate with waiters := FetchGate.forget a.id c.gate.waiters, active := c.gate.active + 1 }) :=
      if_pos hadmits
    have hnone : c.gate.waiters = [] := by
      by_contra hne
      exact hi.full hne hadmits
    simp only [hpoll, if_true]
    refine ⟨?_, ?_, ?_, ?_, fun hne => absurd ?_ hne⟩
    · show c.gate.active + 1 = c.permits + 1
      rw [hi.active_eq]
    · show c.gate.nextId = _
      rw [List.length_set]
      exact hi.nextId_eq
    · intro h' a' ha'
      rw [acquired_set h h' hlt] at ha'
      split at ha'
      · next heq =>
        subst heq
        rw [← Option.some.inj ha']
        exact hi.id_eq h' a ha
      · exact hi.id_eq h' a' ha'
    · intro h' a' w' ha' hw'
      rw [acquired_set h h' hlt] at ha'
      split at ha'
      · rw [← Option.some.inj ha'] at hw'
        cases hw'
      · have := hi.parked h' a' w' ha' hw'
        rw [hnone] at this
        cases this
    · show FetchGate.forget a.id c.gate.waiters = []
      rw [hnone]
      rfl
  · have hpoll : c.gate.poll a.id w = (false, { c.gate with waiters := FetchGate.park a.id w c.gate.waiters }) :=
      if_neg hadmits
    simp only [hpoll, Bool.false_eq_true, if_false]
    refine ⟨hi.active_eq, ?_, ?_, ?_, fun _ => hadmits⟩
    · show c.gate.nextId = _
      rw [List.length_set]
      exact hi.nextId_eq
    · intro h' a' ha'
      rw [acquired_set h h' hlt] at ha'
      split at ha'
      · next heq =>
        subst heq
        rw [← Option.some.inj ha']
        exact hi.id_eq h' a ha
      · exact hi.id_eq h' a' ha'
    · intro h' a' w' ha' hw'
      rw [acquired_set h h' hlt] at ha'
      split at ha'
      · rw [← Option.some.inj ha'] at hw' ⊢
        obtain rfl := Phase.pending.inj hw'
        exact FetchGate.mem_park_self _ _ _
      · next hne =>
        exact FetchGate.mem_park (hi.parked h' a' w' ha' hw') (hi.id_ne hlen ha ha' hne)

/-- Dropping an acquisition takes no entry but its own. -/
theorem Inv.drop (hi : c.Inv) (hlen : c.acquires.length ≤ 2 ^ 64) {c' : World} (hs : c.step (.drop h) = some c') :
    c'.Inv := by
  obtain ⟨a, ha, rfl⟩ := Option.map_eq_some_iff.mp hs
  have hlt := acquired_lt ha
  refine ⟨hi.active_eq, ?_, ?_, ?_, fun hne => hi.full fun hnil => hne ?_⟩
  · show c.gate.nextId = _
    rw [List.length_set]
    exact hi.nextId_eq
  · intro h' a' ha'
    rw [acquired_set h h' hlt] at ha'
    split at ha'
    · cases ha'
    · exact hi.id_eq h' a' ha'
  · intro h' a' w' ha' hw'
    rw [acquired_set h h' hlt] at ha'
    split at ha'
    · cases ha'
    · next hne =>
      exact FetchGate.mem_forget.mpr ⟨hi.parked h' a' w' ha' hw', hi.id_ne hlen ha ha' hne⟩
  · show FetchGate.forget a.id c.gate.waiters = []
    rw [hnil]
    rfl

theorem step_release {c' : World} (hs : c.step .release = some c') : c.permits ≠ 0 ∧
    c' = ⟨c.gate.release.2, c.acquires.map (Option.map (wake c.gate.release.1)), c.permits - 1⟩ := by
  by_cases hp : c.permits = 0
  · rw [show c.step .release = none from if_pos hp] at hs
    cases hs
  · rw [show c.step .release = _ from if_neg hp] at hs
    exact ⟨hp, (Option.some.inj hs).symm⟩

/-- **Every call keeps the invariant** while no id was handed out twice. -/
theorem step_inv (hi : c.Inv) (hlen : c.acquires.length ≤ 2 ^ 64) {e : Event} {c' : World} (hs : c.step e = some c') :
    c'.Inv := by
  cases e with
  | acquire => exact hi.acquire hs
  | poll h w => exact hi.poll hlen hs
  | drop h => exact hi.drop hlen hs
  | release =>
    obtain ⟨-, rfl⟩ := step_release hs
    refine hi.wakeAll c.gate.limit (c.gate.active - 1) (c.permits - 1) ?_
    rw [hi.active_eq]
  | setLimit limit =>
    obtain rfl := Option.some.inj hs
    exact hi.wakeAll limit c.gate.active c.permits hi.active_eq

/-- Only an acquisition adds to the acquisitions made. -/
theorem length_step {e : Event} {c' : World} (hs : c.step e = some c') :
    c'.acquires.length = c.acquires.length + if e = .acquire then 1 else 0 := by
  cases e with
  | acquire =>
    obtain rfl := Option.some.inj hs
    simp
  | poll h w =>
    obtain ⟨a, -, rfl⟩ := Option.map_eq_some_iff.mp hs
    simp
  | drop h =>
    obtain ⟨a, -, rfl⟩ := Option.map_eq_some_iff.mp hs
    simp
  | release =>
    obtain ⟨-, rfl⟩ := step_release hs
    simp
  | setLimit limit =>
    obtain rfl := Option.some.inj hs
    simp

/-- A permit comes from a poll of a gate that admits one. -/
theorem admits_of_permit {e : Event} {c' : World} (hs : c.step e = some c') (hmore : c.permits < c'.permits) :
    c.gate.Admits := by
  cases e with
  | poll h w =>
    obtain ⟨a, -, rfl⟩ := Option.map_eq_some_iff.mp hs
    by_contra hfull
    have hpoll : (c.gate.poll a.id w).1 = false := by
      unfold FetchGate.poll
      rw [if_neg hfull]
    simp [hpoll] at hmore
  | acquire =>
    obtain rfl := Option.some.inj hs
    exact absurd hmore (Nat.lt_irrefl _)
  | drop h =>
    obtain ⟨a, -, rfl⟩ := Option.map_eq_some_iff.mp hs
    exact absurd hmore (Nat.lt_irrefl _)
  | release =>
    obtain ⟨-, rfl⟩ := step_release hs
    simp only at hmore
    omega
  | setLimit limit =>
    obtain rfl := Option.some.inj hs
    exact absurd hmore (Nat.lt_irrefl _)

end

/-! ## Runs -/

theorem run_inv {limit : Nat} {es : List Event} {c : World} (h : Run Step (World.new limit) es c) :
    c.acquires.length = es.count .acquire ∧ (es.count .acquire ≤ 2 ^ 64 → c.Inv) := by
  refine Run.invariant (I := fun es c => c.acquires.length = es.count .acquire ∧ (es.count .acquire ≤ 2 ^ 64 → c.Inv))
    ⟨rfl, fun _ => inv_new limit⟩ ?_ h
  rintro es c e c' ⟨hlen, hinv⟩ hs
  have hlen' := length_step hs
  rw [List.count_append, List.count_singleton]
  refine ⟨?_, fun hle => ?_⟩
  · rw [hlen', hlen]
    simp
  · exact step_inv (hinv (by omega)) (by omega) hs

/-- **A safe counting semaphore**, whatever the order of the calls. -/
theorem gate_safe {limit : Nat} {es : List Event} {c : World} (h : Run Step (World.new limit) es c)
    (hids : es.count .acquire ≤ 2 ^ 64) :
    c.Safe ∧ ∀ e c', c.step e = some c' → c.permits < c'.permits → c.gate.limit = 0 ∨ c.gate.active < c.gate.limit :=
  ⟨((run_inv h).2 hids).safe, fun _ _ hs hmore => admits_of_permit hs hmore⟩

/-- One permit held, one acquisition waiting for it. -/
def oneWaits : World := ⟨⟨1, 1, [(1, 8)], 2⟩, [some ⟨0, .ready⟩, some ⟨1, .pending 8⟩], 1⟩

theorem run_oneWaits : Run Step (World.new 1) [.acquire, .poll 0 7, .acquire, .poll 1 8] oneWaits := by
  have h1 : Run Step (World.new 1) [.acquire] ⟨⟨1, 0, [], 1⟩, [some ⟨0, .fresh⟩], 0⟩ := Run.single rfl
  have h2 : Run Step (World.new 1) [.acquire, .poll 0 7] ⟨⟨1, 1, [], 1⟩, [some ⟨0, .ready⟩], 1⟩ := h1.step rfl
  have h3 : Run Step (World.new 1) [.acquire, .poll 0 7, .acquire]
      ⟨⟨1, 1, [], 2⟩, [some ⟨0, .ready⟩, some ⟨1, .fresh⟩], 1⟩ := h2.step rfl
  exact h3.step rfl

theorem gate_safe_oneWaits : ∃ c, Run Step (World.new 1) [.acquire, .poll 0 7, .acquire, .poll 1 8] c ∧
    c.permits = 1 ∧ (1, 8) ∈ c.gate.waiters ∧ c.Safe :=
  ⟨_, run_oneWaits, rfl, List.mem_singleton_self _, (gate_safe run_oneWaits (by decide)).1⟩

/-! ## When the ids run out -/

/-- While one acquisition waits, others are made and dropped until every id was used. -/
theorem exists_churn (n : Nat) (hn : n ≤ 2 ^ 64) : ∃ es c, Run Step (World.new 1) es c ∧
    c.gate.nextId = (2 + n) % 2 ^ 64 ∧ c.acquired 1 = some ⟨1, .pending 8⟩ ∧
    (n = 2 ^ 64 → ∀ e ∈ c.gate.waiters, e.1 ≠ 1) := by
  induction n with
  | zero =>
    exact ⟨_, oneWaits, run_oneWaits, by decide, rfl, fun h => absurd h (by decide)⟩
  | succ n ih =>
    obtain ⟨es, c, hrun, hnext, hwaits, -⟩ := ih (by omega)
    have hlt := acquired_lt hwaits
    have hrun' := hrun.step (show Step c .acquire _ from rfl)
    generalize hc : World.mk c.gate.acquire.2 (c.acquires ++ [some ⟨c.gate.acquire.1, .fresh⟩]) c.permits = c'
    have hstep : c.step .acquire = some c' := by
      rw [← hc]
      rfl
    have hlast : c'.acquired c.acquires.length = some ⟨c.gate.nextId, .fresh⟩ := by
      rw [← hc, acquired_eq_some_iff]
      show (c.acquires ++ _)[_]? = _
      rw [List.getElem?_append_right (Nat.le_refl _), Nat.sub_self]
      rfl
    have hone : c'.acquired 1 = some ⟨1, .pending 8⟩ := by
      rw [acquired_eq_some_iff] at hwaits ⊢
      rw [← hc]
      show (c.acquires ++ _)[_]? = _
      rw [List.getElem?_append_left hlt, hwaits]
    refine ⟨es ++ [.acquire] ++ [.drop c.acquires.length],
      { c' with gate := c'.gate.dropAcquire c.gate.nextId, acquires := c'.acquires.set c.acquires.length none },
      (hrun.step hstep).step (by rw [Step, step, hlast]; rfl), ?_, ?_, fun hlast' e he => ?_⟩
    · rw [← hc]
      show (c.gate.nextId + 1) % 2 ^ 64 = _
      rw [hnext]
      omega
    · rw [acquired_set _ _ (acquired_lt hlast), if_neg (by omega), hone]
    · -- the id given out last is that of the acquisition that waits
      have hid : c.gate.nextId = 1 := by
        rw [hnext]
        omega
      have := (FetchGate.mem_forget.mp he).2
      rwa [hid] at this

/-- Ids that were all used are used again, and dropping the second holder of an id takes the entry of the first. -/
theorem wakeup_lost_after_id_reuse : ∃ es c, Run Step (World.new 1) es c ∧ ¬ c.Safe := by
  obtain ⟨es, c, hrun, -, hwaits, hgone⟩ := exists_churn (2 ^ 64) (Nat.le_refl _)
  refine ⟨es, c, hrun, fun hsafe => ?_⟩
  exact hgone rfl _ (hsafe.parked 1 _ 8 hwaits rfl).1 rfl

end World

end RoaringRange
