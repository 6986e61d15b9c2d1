import RoaringRange.CheckedFetch

/-!
# Fetchers that answer anything of the right length

An `ExactFetch` answers each read with exactly as many bytes as were asked for, or fails; what the bytes are it may
choose anew for every read.  A computation over it counts its reads (`OracleIo`).  `SafeFrom p x`: whatever was read
before, `x` does not trap, and a value it has satisfies `p`.

    coalesced reads do not trap, and every range comes back at its length              (safe_readCoalesced)
-/

namespace RoaringRange

open ByteString Faults Slices Checked

/-- A fetcher: what the `n`-th read answers. -/
structure ExactFetch where
  answer : Nat → Nat → Nat → Except FetchError Bytes
  exact : ∀ (n offset len : Nat) (b : Bytes), answer n offset len = .ok b → b.length = len

/-- Code that may trap, over a fetcher whose reads are counted. -/
abbrev OracleIo (α : Type) := StateT Nat (Except (Abort IndexError)) α

/-- A step without reads. -/
def outcome {α : Type} (r : Except (Abort IndexError) α) : OracleIo α := fun n => r.map fun a => (a, n)

def ExactFetch.read (f : ExactFetch) (offset len : Nat) : OracleIo Bytes := fun n =>
  match f.answer n offset len with
  | .ok b => .ok (b, n + 1)
  | .error e => .error (.err (.fetch e))

/-! ## Safe computations -/

section

variable {α β γ : Type} {p : α → Prop} {q : β → Prop} {x : OracleIo α}

def SafeFrom (p : α → Prop) (x : OracleIo α) : Prop := ∀ n, Safe (fun r : α × Nat => p r.1) (x.run n)

theorem oracle_bind (x : OracleIo α) (f : α → OracleIo β) (n : Nat) :
    (x >>= f).run n = x.run n >>= fun r => (f r.1).run r.2 := rfl

theorem outcome_run (r : Except (Abort IndexError) α) (n : Nat) : (outcome r).run n = r.map fun a => (a, n) := rfl

namespace SafeFrom

theorem pure {a : α} (h : p a) : SafeFrom p (Pure.pure a : OracleIo α) := fun _ => Safe.ok h

theorem outcome {r : Except (Abort IndexError) α} (h : Safe p r) : SafeFrom p (RoaringRange.outcome r) := by
  intro n
  rw [outcome_run]
  cases r with
  | ok a => exact Safe.ok (h.1 a rfl)
  | error e =>
    cases e with
    | err e => exact Safe.err e
    | trap t => exact absurd rfl (h.2 t)

theorem bind {f : α → OracleIo β} (hx : SafeFrom p x) (hf : ∀ a, p a → SafeFrom q (f a)) : SafeFrom q (x >>= f) := by
  intro n
  rw [oracle_bind]
  exact (hx n).bind fun r hr => hf r.1 hr r.2

theorem read (f : ExactFetch) (offset len : Nat) : SafeFrom (fun b : Bytes => b.length = len) (f.read offset len) := by
  intro n
  show Safe _ (f.read offset len n)
  unfold ExactFetch.read
  split
  · next b hb => exact Safe.ok (f.exact n offset len b hb)
  · exact Safe.err _

theorem mapM {s : γ → β → Prop} {f : γ → OracleIo β} {xs : List γ} (h : ∀ x ∈ xs, SafeFrom (s x) (f x)) :
    SafeFrom (List.Forall₂ s xs) (xs.mapM f) := by
  induction xs with
  | nil => exact pure List.Forall₂.nil
  | cons x xs ih =>
    rw [List.mapM_cons]
    refine (h x List.mem_cons_self).bind fun b hb => ?_
    refine (ih fun y hy => h y (List.mem_cons_of_mem _ hy)).bind fun bs hbs => ?_
    exact pure (List.Forall₂.cons hb hbs)

end SafeFrom

end

/-! ## Coalesced reads -/

/-- The bytes of range `i`, cut out of the span that was read for it. -/
def sliceBackChecked (plan : SpanPlan) (datas : List Bytes) (r : (Nat × Nat) × Nat) : Except (Abort IndexError) Bytes :=
  let off := r.1.1
  let len := r.1.2
  if len = 0 then .ok []
  else do
    let sp ← get plan.spans (plan.spanOf r.2)
    let rel ← sub off sp.1
    reject (u64Bound ≤ rel + len) (.fetch (.outOfRange off len usizeMax))
    let data ← get datas (plan.spanOf r.2)
    if rel + len ≤ data.length then .ok (slice data rel len)
    else .error (.err (.fetch (.outOfRange off len usizeMax)))

/-- `fetch::read_coalesced`. -/
def readCoalescedChecked (f : ExactFetch) (ranges : List (Nat × Nat)) (gap : Nat) : OracleIo (List Bytes) := do
  let order := sortByKey (fun i => (ranges.getD i (0, 0)).1) (List.range ranges.length)
  let plan ← outcome (lift (planSpans ranges gap ⟨[], fun _ => usizeMax⟩ order))
  let datas ← plan.spans.mapM fun sp => do
    let len ← outcome (sub sp.2 sp.1)
    f.read sp.1 len
  outcome (ranges.zipIdx.mapM (sliceBackChecked plan datas))

/-- A range that was read: it ends in 64 bits unless it is empty, and as many bytes came back. -/
structure Fetched (r : Nat × Nat) (b : Bytes) : Prop where
  length_eq : b.length = r.2
  bound : r.2 ≠ 0 → r.1 + r.2 < u64Bound

section

variable {ranges : List (Nat × Nat)} {gap : Nat}

theorem safe_sliceBack {plan : SpanPlan} {placed : List Nat} (hg : plan.Sound ranges placed []) {datas : List Bytes}
    (hdatas : List.Forall₂ (fun sp b => b.length = sp.2 - sp.1) plan.spans datas) {r : Nat × Nat} {i : Nat}
    (hi : i ∈ placed) (hri : ranges[i]? = some r) :
    Safe (fun b : Bytes => b.length = r.2) (sliceBackChecked plan datas (r, i)) := by
  have hgetD : ranges.getD i (0, 0) = r := by simp [List.getD_eq_getElem?_getD, hri]
  unfold sliceBackChecked
  simp only
  split
  · next hlen => exact Safe.ok hlen.symm
  · next hlen =>
    obtain ⟨sp, hsp, hlo, hhi⟩ := hg.holds i hi (by rwa [hgetD])
    rw [hgetD] at hlo hhi
    obtain ⟨hlt, hget⟩ := List.getElem?_eq_some_iff.mp hsp
    have hlt' : plan.spanOf i < datas.length := by
      rw [← hdatas.length_eq]
      exact hlt
    have hdata : datas[plan.spanOf i].length = sp.2 - sp.1 := by
      have := (List.forall₂_iff_get.mp hdatas).2 (plan.spanOf i) hlt hlt'
      simp only [List.get_eq_getElem] at this
      rw [this, hget]
    refine Safe.bind_ok (get_ok hsp) ?_
    refine Safe.bind_ok (sub_ok hlo) ?_
    refine (Safe.reject _ _).bind fun _ _ => ?_
    refine Safe.bind_ok (get_ok (List.getElem?_eq_getElem hlt')) ?_
    rw [if_pos (by omega)]
    exact Safe.ok (length_slice _ _ _ (by omega))

/-- **Coalesced reads do not trap**: they fail, or bring every range at its length. -/
theorem safe_readCoalesced (f : ExactFetch) (ranges : List (Nat × Nat)) (gap : Nat) :
    SafeFrom (List.Forall₂ Fetched ranges) (readCoalescedChecked f ranges gap) := by
  have hperm := sortByKey_perm (fun i => (ranges.getD i (0, 0)).1) (List.range ranges.length)
  unfold readCoalescedChecked
  refine (SafeFrom.outcome (Safe.lift _)).bind fun plan hplan => ?_
  have hstart : (SpanPlan.mk [] fun _ => usizeMax).Sound ranges []
      (sortByKey (fun i => (ranges.getD i (0, 0)).1) (List.range ranges.length)) := ⟨by simp, by simp, by simp⟩
  obtain ⟨hg, hbounds⟩ := planSpans_sound _ _ _ _ hstart
    (by simpa using hperm.nodup_iff.mpr List.nodup_range) (sortByKey_sorted _ _) hplan
  rw [List.nil_append] at hg
  have hreads : SafeFrom (List.Forall₂ (fun (sp : Nat × Nat) (b : Bytes) => b.length = sp.2 - sp.1) plan.spans)
      (plan.spans.mapM fun sp => do
        let len ← outcome (sub sp.2 sp.1)
        f.read sp.1 len) := by
    refine SafeFrom.mapM fun sp hsp => ?_
    have hlen : SafeFrom (fun len => len = sp.2 - sp.1) (outcome (sub sp.2 sp.1)) :=
      SafeFrom.outcome (Safe.of_eq (sub_ok (hg.ordered sp hsp)) rfl)
    refine hlen.bind fun len hlen => ?_
    subst hlen
    exact SafeFrom.read f sp.1 _
  refine hreads.bind fun datas hdatas => SafeFrom.outcome ?_
  have hslices : Safe (List.Forall₂ (fun (r : (Nat × Nat) × Nat) (b : Bytes) => Fetched r.1 b) ranges.zipIdx)
      (ranges.zipIdx.mapM (sliceBackChecked plan datas)) := by
    refine Safe.mapM fun r hr => ?_
    have hget : ranges[r.2]? = some r.1 := List.mem_zipIdx_iff_getElem?.mp hr
    have hlt : r.2 < ranges.length := (List.getElem?_eq_some_iff.mp hget).1
    have hmem : r.2 ∈ sortByKey (fun i => (ranges.getD i (0, 0)).1) (List.range ranges.length) := by simpa using hlt
    refine (safe_sliceBack hg hdatas hmem hget).mono fun b hb => ⟨hb, fun hne => ?_⟩
    have hgetD : ranges.getD r.2 (0, 0) = r.1 := by simp [List.getD_eq_getElem?_getD, hget]
    have := hbounds r.2 hmem
    rw [hgetD] at this
    exact this hne
  refine hslices.mono fun bs hbs => ?_
  have hfst : ranges = ranges.zipIdx.map Prod.fst := by simp
  rw [hfst]
  exact List.forall₂_map_left_iff.mpr hbs

end

end RoaringRange
