import RoaringRange.Lib.Search

/-!
# The `k` least of a stream, kept in a bounded max-heap

`offer k heap x` is the step of a top-`k` scan: below `k` items the heap takes `x`; at `k` it trades its greatest
item for a smaller `x`.  A heap is given by the items it holds, least first: what is popped is the last of them.

`LeastOf k ys xs`: `ys` are the `k` least of `xs` (all where there are no more), in ascending order.

    the scan of any list holds the k least of it                       (leastOf_keep)
    they are the same whatever the order of the list                   (LeastOf.unique)
-/

namespace BoundedHeap

variable {α : Type*} [LinearOrder α] {k : Nat} {x : α} {xs ys zs heap : List α}

def push (heap : List α) (x : α) : List α := heap.orderedInsert (· ≤ ·) x

/-- The greatest item. -/
def peek (heap : List α) : Option α := heap.getLast?

/-- The heap without its greatest item. -/
def pop (heap : List α) : List α := heap.dropLast

def offer (k : Nat) (heap : List α) (x : α) : List α :=
  if heap.length < k then push heap x
  else
    match peek heap with
    | some worst => if x < worst then push (pop heap) x else heap
    | none => heap

def keep (k : Nat) (heap xs : List α) : List α := xs.foldl (offer k) heap

/-- `ys` are the `k` least of `xs`, in ascending order. -/
structure LeastOf (k : Nat) (ys xs : List α) : Prop where
  sorted : ys.Pairwise (· ≤ ·)
  length : ys.length = min k xs.length
  rest : ∃ zs, xs.Perm (ys ++ zs) ∧ ∀ y ∈ ys, ∀ z ∈ zs, y ≤ z

theorem LeastOf.nil : LeastOf k ([] : List α) [] := ⟨List.Pairwise.nil, by simp, [], List.Perm.refl _, by simp⟩

theorem LeastOf.zero (xs : List α) : LeastOf 0 [] xs :=
  ⟨List.Pairwise.nil, by simp, xs, List.Perm.refl _, by simp⟩

/-- The order of the list does not matter. -/
theorem LeastOf.of_perm (h : LeastOf k ys xs) (hperm : xs.Perm zs) : LeastOf k ys zs := by
  obtain ⟨rest, hrest, hle⟩ := h.rest
  exact ⟨h.sorted, by rw [h.length, hperm.length_eq], rest, hperm.symm.trans hrest, hle⟩

theorem LeastOf.subset (h : LeastOf k ys xs) : ys ⊆ xs := by
  obtain ⟨rest, hrest, -⟩ := h.rest
  exact fun y hy => hrest.mem_iff.mpr (List.mem_append_left _ hy)

/-- The `k` least are the first `k` of the sorted list. -/
theorem LeastOf.eq_take (h : LeastOf k ys xs) : ys = (Slices.sortByKey id xs).take k := by
  obtain ⟨rest, hrest, hle⟩ := h.rest
  have hsorted : (ys ++ Slices.sortByKey id rest).Pairwise (· ≤ ·) := by
    refine List.pairwise_append.mpr ⟨h.sorted, Slices.sortByKey_sorted id rest, fun y hy z hz => ?_⟩
    exact hle y hy z (Slices.mem_sortByKey.mp hz)
  have hperm : (Slices.sortByKey id xs).Perm (ys ++ Slices.sortByKey id rest) :=
    (Slices.sortByKey_perm id xs).trans (hrest.trans ((Slices.sortByKey_perm id rest).symm.append_left ys))
  have heq := hperm.eq_of_pairwise (fun a b _ _ hab hba => le_antisymm hab hba) (Slices.sortByKey_sorted id xs) hsorted
  have hlen := h.length
  have htotal := hrest.length_eq
  rw [List.length_append] at htotal
  rw [heq]
  by_cases hk : k ≤ xs.length
  · rw [List.take_append_of_le_length (by omega), List.take_of_length_le (by omega)]
  · have hnil : rest = [] := List.length_eq_zero_iff.mp (by omega)
    subst hnil
    rw [List.take_of_length_le]
    · simp [Slices.sortByKey]
    · simp only [List.length_append, Slices.length_sortByKey, List.length_nil]
      omega

/-- The `k` least are one list. -/
theorem LeastOf.unique (h : LeastOf k ys xs) (h' : LeastOf k zs xs) : ys = zs := by rw [h.eq_take, h'.eq_take]

theorem push_perm (heap : List α) (x : α) : (push heap x).Perm (x :: heap) := List.perm_orderedInsert _ _ _

theorem push_sorted (h : heap.Pairwise (· ≤ ·)) (x : α) : (push heap x).Pairwise (· ≤ ·) := h.orderedInsert x heap

@[simp] theorem length_push (heap : List α) (x : α) : (push heap x).length = heap.length + 1 :=
  List.orderedInsert_length _ _ _

/-- **One step of the scan**: the heap holds the least of one item more. -/
theorem leastOf_offer (h : LeastOf k ys xs) (x : α) : LeastOf k (offer k ys x) (xs ++ [x]) := by
  obtain ⟨rest, hrest, hle⟩ := h.rest
  have hlen := h.length
  have htotal := hrest.length_eq
  rw [List.length_append] at htotal
  have hgrown : (xs ++ [x]).length = xs.length + 1 := by simp
  unfold offer
  split
  · next hlt =>
    -- fewer than `k` so far: nothing was left out
    have hnil : rest = [] := List.length_eq_zero_iff.mp (by omega)
    subst hnil
    refine ⟨push_sorted h.sorted x, by rw [length_push, hgrown]; omega, [], ?_, by simp⟩
    rw [List.append_nil] at hrest ⊢
    refine (hrest.append_right [x]).trans (List.Perm.trans ?_ (push_perm ys x).symm)
    exact List.perm_append_singleton x ys
  · next hge =>
    unfold peek
    split
    · next worst hworst =>
      obtain ⟨init, rfl⟩ : ∃ init, ys = init ++ [worst] := by
        obtain ⟨init, hinit⟩ := List.getLast?_eq_some_iff.mp hworst
        exact ⟨init, hinit⟩
      have hinit := List.pairwise_append.mp h.sorted
      rw [List.length_append, List.length_singleton] at hlen hge htotal
      split
      · next hlt =>
        -- the greatest goes to the items left out
        rw [pop, List.dropLast_concat]
        refine ⟨push_sorted hinit.1 x, by rw [length_push, hgrown]; omega, worst :: rest, ?_, ?_⟩
        · calc
            List.Perm (xs ++ [x]) ((init ++ [worst] ++ rest) ++ [x]) := hrest.append_right [x]
            List.Perm _ (x :: (init ++ [worst] ++ rest)) := List.perm_append_singleton _ _
            List.Perm _ ((x :: init) ++ (worst :: rest)) := by simp
            List.Perm _ (push init x ++ (worst :: rest)) := (push_perm init x).symm.append_right _
        · intro y hy z hz
          have hyw : y ≤ worst := by
            rcases List.mem_cons.mp ((push_perm init x).mem_iff.mp hy) with rfl | hy
            · exact le_of_lt hlt
            · exact hinit.2.2 y hy worst (by simp)
          rcases List.mem_cons.mp hz with rfl | hz
          · exact hyw
          · exact le_trans hyw (hle worst (by simp) z hz)
      · next hlt =>
        refine ⟨h.sorted, by rw [List.length_append, List.length_singleton, hgrown]; omega, x :: rest, ?_, ?_⟩
        · refine (hrest.append_right [x]).trans ?_
          rw [List.append_assoc]
          exact (List.perm_append_singleton x rest).append_left _
        · intro y hy z hz
          rcases List.mem_cons.mp hz with rfl | hz
          · have hyw : y ≤ worst := by
              rcases List.mem_append.mp hy with hy | hy
              · exact hinit.2.2 y hy worst (by simp)
              · exact le_of_eq (List.mem_singleton.mp hy)
            exact le_trans hyw (not_lt.mp hlt)
          · exact hle y hy z hz
    · next hnone =>
      have hnil : ys = [] := List.getLast?_eq_none_iff.mp hnone
      subst hnil
      have hk : k = 0 := by
        rw [List.length_nil] at hge
        omega
      subst hk
      exact LeastOf.zero _

/-- **The scan of a list holds the `k` least of it.** -/
theorem leastOf_keep (h : LeastOf k heap xs) (ys : List α) : LeastOf k (keep k heap ys) (xs ++ ys) := by
  induction ys generalizing heap xs with
  | nil =>
    rw [List.append_nil]
    exact h
  | cons y ys ih =>
    have hstep := ih (leastOf_offer h y)
    rw [List.append_assoc] at hstep
    exact hstep

theorem keep_append (k : Nat) (heap xs ys : List α) : keep k heap (xs ++ ys) = keep k (keep k heap xs) ys :=
  List.foldl_append

/-- Scanned in any order, the same items are kept. -/
theorem keep_perm (h : xs.Perm ys) : keep k [] xs = keep k [] ys := by
  have hx : LeastOf k (keep k [] xs) xs := leastOf_keep LeastOf.nil xs
  have hy : LeastOf k (keep k [] ys) ys := leastOf_keep LeastOf.nil ys
  exact (hx.of_perm h).unique hy

end BoundedHeap
