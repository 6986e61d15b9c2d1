import Mathlib.Algebra.Order.Group.Nat
import Mathlib.Data.List.Basic
import Mathlib.Data.List.Forall2
import Mathlib.Data.List.Induction

/-!
# Lists cut into parts

A list of parts stands for the elements of all parts in order.  `startOf` is where a part begins among them, so
that an element has a place in the whole and a place in its part.

    every place of the whole is in a part                                      (exists_part)
    and in no other                                                            (part_unique)
    what holds of each part at its start, one part more                        (each_snoc)
    the places of the elements that pass, part by part                     (flatten_findIdxs)

Parts of one size are `chunksOf`.
-/

namespace RoaringRange.Tiles

variable {α β : Type} (part : α → List β)

/-- How many elements the parts before the `i`-th have. -/
def startOf (xs : List α) (i : Nat) : Nat := ((xs.take i).flatMap part).length

/-- A relation of every part with its index and its start. -/
def Each (P : Nat → Nat → α → Prop) (xs : List α) : Prop :=
  ∀ (i : Nat) (x : α), xs[i]? = some x → P i (startOf part xs i) x

variable {part} {xs : List α}

theorem startOf_succ {i : Nat} {x : α} (h : xs[i]? = some x) :
    startOf part xs (i + 1) = startOf part xs i + (part x).length := by
  unfold startOf
  rw [List.take_add_one, h, List.flatMap_append, List.length_append]
  simp

theorem startOf_le_add (i n : Nat) : startOf part xs i ≤ startOf part xs (i + n) := by
  unfold startOf
  rw [List.take_add, List.flatMap_append, List.length_append]
  exact Nat.le_add_right _ _

theorem startOf_mono {i j : Nat} (h : i ≤ j) : startOf part xs i ≤ startOf part xs j := by
  obtain ⟨n, rfl⟩ := Nat.exists_eq_add_of_le h
  exact startOf_le_add i n

theorem startOf_of_length_le {i : Nat} (h : xs.length ≤ i) : startOf part xs i = (xs.flatMap part).length := by
  unfold startOf
  rw [List.take_of_length_le h]

theorem startOf_le (i : Nat) : startOf part xs i ≤ (xs.flatMap part).length := by
  by_cases h : i ≤ xs.length
  · rw [← @startOf_of_length_le _ _ part xs xs.length (Nat.le_refl _)]
    exact startOf_mono h
  · exact (startOf_of_length_le (by omega)).le

/-- A part ends within the whole. -/
theorem startOf_add_le {i : Nat} {x : α} (h : xs[i]? = some x) :
    startOf part xs i + (part x).length ≤ (xs.flatMap part).length := by
  rw [← startOf_succ h]
  exact startOf_le _

/-- Only the lengths of the parts matter to where they start. -/
theorem startOf_congr {γ : Type} {other : α → List γ} (h : ∀ x ∈ xs, (part x).length = (other x).length) (i : Nat) :
    startOf part xs i = startOf other xs i := by
  unfold startOf
  rw [List.length_flatMap, List.length_flatMap]
  exact congrArg List.sum (List.map_congr_left fun x hx => h x (List.mem_of_mem_take hx))

/-- The start of a part does not depend on the parts after it. -/
theorem startOf_append (ys : List α) {i : Nat} (h : i ≤ xs.length) : startOf part (xs ++ ys) i = startOf part xs i := by
  unfold startOf
  rw [List.take_append_of_le_length h]

/-- The elements of a list with one more at its end. -/
theorem getElem?_snoc {x y : α} {d : Nat} :
    (xs ++ [x])[d]? = some y ↔ xs[d]? = some y ∨ (d = xs.length ∧ x = y) := by
  rw [List.getElem?_append]
  by_cases h : d < xs.length
  · rw [if_pos h]
    simp [Nat.ne_of_lt h]
  · rw [if_neg h, List.getElem?_eq_none (Nat.le_of_not_lt h)]
    by_cases hd : d = xs.length
    · simp [hd]
    · rw [List.getElem?_eq_none (by rw [List.length_singleton]; omega)]
      simp [hd]

theorem each_nil (P : Nat → Nat → α → Prop) : Each part P [] := by
  intro i x h
  simp at h

theorem each_snoc {P : Nat → Nat → α → Prop} {x : α} :
    Each part P (xs ++ [x]) ↔ Each part P xs ∧ P xs.length (xs.flatMap part).length x := by
  constructor
  · intro h
    refine ⟨fun i y hy => ?_, ?_⟩
    · have hi : i < xs.length := (List.getElem?_eq_some_iff.mp hy).1
      have := h i y (by rw [List.getElem?_append_left hi, hy])
      rwa [startOf_append _ (by omega)] at this
    · have := h xs.length x (by simp)
      rwa [startOf_append _ (Nat.le_refl _), startOf_of_length_le (Nat.le_refl _)] at this
  · rintro ⟨h, hx⟩ i y hy
    rcases getElem?_snoc.mp hy with hy | ⟨rfl, rfl⟩
    · rw [startOf_append _ (List.getElem?_eq_some_iff.mp hy).1.le]
      exact h i y hy
    · rwa [startOf_append _ (Nat.le_refl _), startOf_of_length_le (Nat.le_refl _)]

/-- What holds of every part holds of the first parts alone. -/
theorem Each.of_prefix {P : Nat → Nat → α → Prop} {ys : List α} (hpre : ys <+: xs) (h : Each part P xs) : Each part P ys := by
  obtain ⟨zs, rfl⟩ := hpre
  intro i y hy
  have hi : i < ys.length := (List.getElem?_eq_some_iff.mp hy).1
  have hat := h i y (by rw [List.getElem?_append_left hi, hy])
  rwa [startOf_append _ hi.le] at hat

/-- Parts after other parts, each at its start among all. -/
theorem each_append {P : Nat → Nat → α → Prop} {ys : List α} : Each part P (xs ++ ys) ↔ Each part P xs ∧
    Each part (fun i lo y => P (xs.length + i) ((xs.flatMap part).length + lo) y) ys := by
  induction ys using List.reverseRecOn with
  | nil => simp [each_nil]
  | append_singleton ys y ih =>
    rw [← List.append_assoc, each_snoc, each_snoc, ih, and_assoc, List.length_append, List.flatMap_append,
      List.length_append]

/-- Parts in groups: what holds of every part of a group, from the group's start on, holds of all parts. -/
theorem Each.flatMap {γ : Type} {group : γ → List α} {P : Nat → α → Prop} {gs : List γ}
    (h : Each (fun g => (group g).flatMap part) (fun _ lo g => Each part (fun _ l x => P (lo + l) x) (group g)) gs) :
    Each part (fun _ lo x => P lo x) (gs.flatMap group) := by
  induction gs using List.reverseRecOn with
  | nil => exact each_nil _
  | append_singleton gs g ih =>
    obtain ⟨hgs, hg⟩ := each_snoc.mp h
    rw [List.flatMap_append, List.flatMap_singleton]
    refine each_append.mpr ⟨ih hgs, ?_⟩
    rwa [List.flatMap_assoc]

/-- Every element of the whole is one of a part, at its place after the part's start. -/
theorem exists_part {g : Nat} {b : β} (h : (xs.flatMap part)[g]? = some b) : ∃ (i : Nat) (x : α),
    xs[i]? = some x ∧ startOf part xs i ≤ g ∧ (part x)[g - startOf part xs i]? = some b := by
  induction xs generalizing g with
  | nil => simp at h
  | cons y ys ih =>
    rw [List.flatMap_cons] at h
    by_cases hg : g < (part y).length
    · rw [List.getElem?_append_left hg] at h
      refine ⟨0, y, rfl, ?_⟩
      simpa [startOf] using h
    · rw [List.getElem?_append_right (by omega)] at h
      obtain ⟨i, x, hx, hle, hb⟩ := ih h
      have hstart : startOf part (y :: ys) (i + 1) = (part y).length + startOf part ys i := by
        simp [startOf]
      refine ⟨i + 1, x, hx, by omega, ?_⟩
      rw [hstart, Nat.sub_add_eq]
      exact hb

/-- The places of the whole are those of its parts. -/
theorem lt_length_iff {g : Nat} : g < (xs.flatMap part).length ↔ ∃ (i : Nat) (x : α),
    xs[i]? = some x ∧ startOf part xs i ≤ g ∧ g < startOf part xs i + (part x).length := by
  constructor
  · intro hg
    obtain ⟨i, x, hx, hle, hat⟩ := exists_part (List.getElem?_eq_getElem hg)
    have hlt := (List.getElem?_eq_some_iff.mp hat).1
    exact ⟨i, x, hx, hle, by omega⟩
  · rintro ⟨i, x, hx, -, hlt⟩
    exact hlt.trans_le (startOf_add_le hx)

/-- Two parts that hold the same place are one. -/
theorem part_unique {i j g : Nat} {x y : α} (hx : xs[i]? = some x) (hy : xs[j]? = some y)
    (hi : startOf part xs i ≤ g ∧ g < startOf part xs i + (part x).length)
    (hj : startOf part xs j ≤ g ∧ g < startOf part xs j + (part y).length) : i = j := by
  have hi' := @startOf_succ _ _ part _ _ _ hx
  have hj' := @startOf_succ _ _ part _ _ _ hy
  rcases Nat.lt_trichotomy i j with h | h | h
  · have := @startOf_mono _ _ part xs _ _ (show i + 1 ≤ j from h)
    omega
  · exact h
  · have := @startOf_mono _ _ part xs _ _ (show j + 1 ≤ i from h)
    omega

/-- The places of the elements that pass, counted from a base, are those in each part, after its start. -/
theorem flatten_findIdxs_from {p : β → Bool} {f : α → List Nat} {base : Nat}
    (h : Each part (fun _ lo x => f x = (part x).findIdxs p (base + lo)) xs) :
    (xs.map f).flatten = (xs.flatMap part).findIdxs p base := by
  induction xs using List.reverseRecOn with
  | nil => rfl
  | append_singleton xs x ih =>
    obtain ⟨hxs, hx⟩ := each_snoc.mp h
    rw [List.map_append, List.flatten_append, ih hxs, List.map_singleton, List.flatten_singleton, hx,
      List.flatMap_append, List.flatMap_singleton, List.findIdxs_append]

/-- The places of the elements that pass are those in each part, after its start. -/
theorem flatten_findIdxs {p : β → Bool} {f : α → List Nat}
    (h : Each part (fun _ lo x => f x = (part x).findIdxs p lo) xs) :
    (xs.map f).flatten = (xs.flatMap part).findIdxs p := by
  refine flatten_findIdxs_from fun i x hx => ?_
  simp only [Nat.zero_add]
  exact h i x hx

/-! ## Parts of one size -/

/-- `slice::chunks`; every chunk takes at least one element. -/
def chunksOf (size : Nat) : Nat → List α → List (List α)
  | 0, _ => []
  | fuel + 1, xs => if xs.isEmpty then [] else xs.take size :: chunksOf size fuel (xs.drop size)

/-- Chunks put together again. -/
theorem flatten_chunksOf {size : Nat} (hsize : 0 < size) {fuel : Nat} (h : xs.length ≤ fuel) :
    (chunksOf size fuel xs).flatten = xs := by
  induction fuel generalizing xs with
  | zero => rw [List.length_eq_zero_iff.mp (Nat.le_zero.mp h)]; rfl
  | succ fuel ih =>
    unfold chunksOf
    split
    · next hnil => rw [List.isEmpty_iff.mp hnil]; rfl
    · next hne =>
      have hpos : xs ≠ [] := fun h => hne (List.isEmpty_iff.mpr h)
      have hlen := List.length_pos_iff.mpr hpos
      rw [List.flatten_cons, ih (by rw [List.length_drop]; omega), List.take_append_drop]

/-- Related elements are in chunks of one place. -/
theorem forall₂_chunksOf {R : α → β → Prop} {ys : List β} (h : List.Forall₂ R xs ys) (size fuel : Nat) :
    List.Forall₂ (List.Forall₂ R) (chunksOf size fuel xs) (chunksOf size fuel ys) := by
  induction fuel generalizing xs ys with
  | zero => exact List.Forall₂.nil
  | succ fuel ih =>
    unfold chunksOf
    cases h with
    | nil => exact List.Forall₂.nil
    | cons hxy hrest =>
      have hall := List.Forall₂.cons hxy hrest
      exact List.Forall₂.cons (List.forall₂_take size hall) (ih (List.forall₂_drop size hall))

/-- As many as are wanted of the whole are among as many of each part. -/
theorem take_flatten_take (xss : List (List α)) (n : Nat) : (xss.map (List.take n)).flatten.take n = xss.flatten.take n := by
  induction xss with
  | nil => rfl
  | cons xs xss ih =>
    rw [List.map_cons, List.flatten_cons, List.flatten_cons, List.take_append, List.take_append, List.take_take,
      Nat.min_self]
    by_cases hlen : xs.length ≤ n
    · rw [List.take_of_length_le hlen, ← Nat.min_eq_left (Nat.sub_le n xs.length), ← List.take_take, ih, List.take_take]
    · rw [List.length_take, Nat.min_eq_left (Nat.le_of_not_le hlen), Nat.sub_self,
        Nat.sub_eq_zero_of_le (Nat.le_of_not_le hlen), List.take_zero, List.take_zero]

end RoaringRange.Tiles
