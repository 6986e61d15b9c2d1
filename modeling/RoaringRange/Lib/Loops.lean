import RoaringRange.Lib.Faults

/-!
# What a method achieves, loops of methods, and waves awaited together

`Achieves x c Q`: whatever reads fail, the method `x` of the object `c` returns a value and leaves an object as `Q` says, or
it ends with a fault it met.  `whilePasses` is a `while` loop that is cut off after so many passes.  A loop with a variant
is over before that: each pass makes the variant less, and at zero the condition is false.

    a loop with a variant ends with its condition false                        (achieves_whilePasses)
    what a method achieves is what its caller settles on                       (Achieves.settles_on)
    two waves that are both awaited before either is looked at                 (Settles.joinAll_both)
-/

namespace Faults

variable {σ ε δ α β : Type}

/-- `while p { step }`, given so many passes. -/
def whilePasses (p : σ → Bool) (step : Method σ ε δ α) : Nat → Method σ ε δ Unit
  | 0 => pure ()
  | passes + 1 => do
    let c ← get
    if p c then do
      let _ ← step
      whilePasses p step passes
    else pure ()

theorem run_on_error {x : Method σ ε δ α} {c c' : σ} {e : δ} {s s' : Schedule ε} (h : x.call c s = ((.error e, c'), s')) :
    (x.on c).run s = (.error e, s') := by
  show Method.on x c s = _
  unfold Method.on
  rw [h]

variable [Raises ε δ]

/-- The method returns as `Q` says, or with a fault it met. -/
def Achieves (x : Method σ ε δ α) (c : σ) (Q : α → σ → Prop) : Prop :=
  ∀ s : Schedule ε, ∃ n o c', x.call c s = ((o, c'), s.drop n) ∧
    ((∃ a, o = .ok a ∧ Q a c') ∨ ∃ e, s.Met n e ∧ o = .error (raise e))

namespace Achieves

variable {c : σ} {Q : α → σ → Prop} {R : β → σ → Prop}

theorem pure {a : α} (h : Q a c) : Achieves (Pure.pure a : Method σ ε δ α) c Q := by
  intro s
  refine ⟨0, .ok a, c, ?_, Or.inl ⟨a, rfl, h⟩⟩
  rw [Schedule.drop_zero, call_pure]

theorem bind {x : Method σ ε δ α} {f : α → Method σ ε δ β} (hx : Achieves x c Q)
    (hf : ∀ a c', Q a c' → Achieves (f a) c' R) : Achieves (x >>= f) c R := by
  intro s
  obtain ⟨n, o, c', hcall, ⟨a, rfl, ha⟩ | ⟨e, he, rfl⟩⟩ := hx s
  · obtain ⟨m, o', c'', hcall', hout⟩ := hf a c' ha (s.drop n)
    refine ⟨n + m, o', c'', ?_, hout.imp_right ?_⟩
    · rw [call_bind, hcall]
      show Method.call (f a) c' (s.drop n) = _
      rw [hcall', Schedule.drop_drop]
    · rintro ⟨e, he, rfl⟩
      exact ⟨e, he.of_drop, rfl⟩
  · refine ⟨n, _, c', ?_, Or.inr ⟨e, he, rfl⟩⟩
    rw [call_bind, hcall]

theorem mono {x : Method σ ε δ α} {P : α → σ → Prop} (h : Achieves x c Q) (hPQ : ∀ a c', Q a c' → P a c') : Achieves x c P := by
  intro s
  obtain ⟨n, o, c', hcall, hout⟩ := h s
  refine ⟨n, o, c', hcall, hout.imp_left ?_⟩
  rintro ⟨a, rfl, ha⟩
  exact ⟨a, rfl, hPQ a c' ha⟩

theorem get_bind {f : σ → Method σ ε δ β} (h : Achieves (f c) c R) :
    Achieves ((MonadState.get : Method σ ε δ σ) >>= f) c R := by
  intro s
  rw [call_bind, call_get]
  exact h s

/-- Called on an object of one's own, the method settles on the value it always returns. -/
theorem settles_on {x : Method σ ε δ α} (h : Achieves x c Q) {f : α × σ → Faulty ε δ β} {r : Except δ β}
    (hf : ∀ a c', Q a c' → Settles (f (a, c')) r) : Settles (x.on c >>= f) r := by
  intro s
  obtain ⟨n, o, c', hcall, ⟨a, rfl, ha⟩ | ⟨e, he, rfl⟩⟩ := h s
  · obtain ⟨m, hs, ho⟩ := hf a c' ha (s.drop n)
    have hrun : (x.on c >>= f).run s = (f (a, c')).run (s.drop n) := by
      rw [run_bind, run_on hcall]
    refine ⟨n + m, ?_, ?_⟩
    · rw [hrun, hs, Schedule.drop_drop]
    · rw [hrun]
      exact ho.mono fun e he => he.of_drop
  · have hrun : (x.on c >>= f).run s = (.error (raise e), s.drop n) := by
      rw [run_bind, run_on_error hcall]
    exact ⟨n, by rw [hrun], Or.inr ⟨e, he, by rw [hrun]⟩⟩

end Achieves

/-- **A loop with a variant is over before it is cut off**, with its condition false. -/
theorem achieves_whilePasses {p : σ → Bool} {step : Method σ ε δ α} {I : Nat → σ → Prop}
    (hstep : ∀ k c, I (k + 1) c → p c = true → Achieves step c fun _ c' => I k c') (hzero : ∀ c, I 0 c → p c = false) :
    ∀ (passes : Nat) (c : σ), I passes c → Achieves (whilePasses p step passes) c fun _ c' => p c' = false ∧ ∃ k, I k c'
  | 0, c, hI => Achieves.pure ⟨hzero c hI, 0, hI⟩
  | passes + 1, c, hI => by
    unfold whilePasses
    refine Achieves.get_bind ?_
    split
    · next hp => exact (hstep passes c hI hp).bind fun _ c' hI' => achieves_whilePasses hstep hzero passes c' hI'
    · next hp => exact Achieves.pure ⟨Bool.eq_false_iff.mpr hp, passes + 1, hI⟩

/-- Two waves that are both awaited before the outcomes of either are looked at. -/
theorem Settles.joinAll_both {xs : List (Faulty ε δ α)} {ys : List (Faulty ε δ β)} {as : List α} {bs : List β} {γ : Type}
    {f : List α → List β → Faulty ε δ γ} {r : Except δ γ} (hx : List.Forall₂ (fun x a => Settles x (.ok a)) xs as)
    (hy : List.Forall₂ (fun y b => Settles y (.ok b)) ys bs) (hf : Settles (f as bs) r) :
    Settles (do
      let os ← joinAll xs
      let ps ← joinAll ys
      let as ← Faults.ofOutcome (collect os)
      let bs ← Faults.ofOutcome (collect ps)
      f as bs) r := by
  intro s
  obtain ⟨n, os, hos, hagree⟩ := Settles.joinAll_run (List.forall₂_map_right_iff.mpr hx) s
  obtain ⟨m, ps, hps, hagree'⟩ := Settles.joinAll_run (List.forall₂_map_right_iff.mpr hy) (s.drop n)
  have has := agrees_collect hagree
  have hbs := agrees_collect hagree'
  rw [collect_ok] at has hbs
  simp only [run_bind, hos, hps, run_ofOutcome]
  rcases has with has | ⟨e, he, has⟩
  · rcases hbs with hbs | ⟨e, he, hbs⟩
    · obtain ⟨k, hs, ho⟩ := hf ((s.drop n).drop m)
      simp only [has, hbs]
      refine ⟨n + m + k, ?_, ?_⟩
      · rw [hs, Schedule.drop_drop, Schedule.drop_drop, Nat.add_assoc]
      · refine ho.mono fun e he => ?_
        rw [Schedule.drop_drop] at he
        exact he.of_drop
    · simp only [has, hbs]
      refine ⟨n + m, ?_, Or.inr ⟨e, he.of_drop, rfl⟩⟩
      rw [Schedule.drop_drop]
  · simp only [has]
    refine ⟨n + m, ?_, Or.inr ⟨e, he.mono (Nat.le_add_right n m), rfl⟩⟩
    rw [Schedule.drop_drop]

end Faults
