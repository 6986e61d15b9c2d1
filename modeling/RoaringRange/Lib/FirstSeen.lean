import Mathlib.Data.List.Basic

/-!
# Association lists in first-seen order

`upsert` changes the value of a key where it is, or puts a new key last: what an accumulator does that keeps its
entries in the order they were first seen.  `List.lookup` reads it.

    (upsert k f es).lookup j is f of the old value at k, and unchanged elsewhere         (lookup_upsert)
    items with keys of their own, some left out, each change the value of their key      (lookup_foldl_upsert)
-/

namespace FirstSeen

variable {κ α : Type} [DecidableEq κ]

/-- Puts `f` of the value of `k` (or of none) where `k` was first seen. -/
def upsert (k : κ) (f : Option α → α) : List (κ × α) → List (κ × α)
  | [] => [(k, f none)]
  | e :: es => if e.1 = k then (k, f (some e.2)) :: es else e :: upsert k f es

theorem lookup_cons_eq (j : κ) (e : κ × α) (es : List (κ × α)) :
    (e :: es).lookup j = if j = e.1 then some e.2 else es.lookup j := by
  rw [List.lookup_cons]
  by_cases h : j = e.1
  · rw [if_pos h, beq_iff_eq.mpr h]
  · rw [if_neg h, beq_eq_false_iff_ne.mpr h]

theorem lookup_upsert (k : κ) (f : Option α → α) (es : List (κ × α)) (j : κ) :
    (upsert k f es).lookup j = if j = k then some (f (es.lookup k)) else es.lookup j := by
  induction es with
  | nil => exact lookup_cons_eq j (k, f none) []
  | cons e es ih =>
    unfold upsert
    by_cases he : e.1 = k
    · rw [if_pos he, lookup_cons_eq, lookup_cons_eq k, lookup_cons_eq, if_pos he.symm, he]
      split <;> rfl
    · rw [if_neg he, lookup_cons_eq, lookup_cons_eq k, lookup_cons_eq, ih, if_neg (Ne.symm he)]
      by_cases hj : j = k
      · rw [if_pos hj, if_pos hj, if_neg (by rw [hj]; exact Ne.symm he)]
      · rw [if_neg hj, if_neg hj]

/-- Items with keys of their own, some of them left out. -/
theorem lookup_foldl_upsert {β : Type} {key : β → κ} (skip : β → Prop) [DecidablePred skip] (f : β → Option α → α)
    {xs : List β} (hk : (xs.map key).Nodup) (j : κ) : ∀ es : List (κ × α),
    (xs.foldl (fun es x => if skip x then es else upsert (key x) (f x) es) es).lookup j =
      ((xs.find? fun x => key x = j).elim (es.lookup j) fun x =>
        if skip x then es.lookup j else some (f x (es.lookup j))) := by
  induction xs with
  | nil => exact fun _ => rfl
  | cons x xs ih =>
    intro es
    obtain ⟨hnot, hnd⟩ := List.nodup_cons.mp hk
    rw [List.foldl_cons, ih hnd]
    by_cases hx : key x = j
    · -- no later item has this key
      have hnone : (xs.find? fun y => decide (key y = j)) = none := by
        rw [List.find?_eq_none]
        intro y hy hyj
        refine hnot (List.mem_map.mpr ⟨y, hy, ?_⟩)
        rw [hx, of_decide_eq_true hyj]
      have hself : ((x :: xs).find? fun y => decide (key y = j)) = some x := by
        simp [hx]
      rw [hnone, hself]
      show List.lookup j (if skip x then es else upsert (key x) (f x) es) = _
      simp only [Option.elim_some]
      split
      · rfl
      · rw [lookup_upsert, if_pos hx.symm, hx]
    · have hkeep : List.lookup j (if skip x then es else upsert (key x) (f x) es) = es.lookup j := by
        split
        · rfl
        · rw [lookup_upsert, if_neg (Ne.symm hx)]
      have hrest : ((x :: xs).find? fun y => decide (key y = j)) = xs.find? fun y => decide (key y = j) := by
        simp [hx]
      rw [hkeep, hrest]

end FirstSeen
