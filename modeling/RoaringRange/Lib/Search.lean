import Mathlib.Data.List.Dedup
import Mathlib.Data.List.Perm.Basic
import Mathlib.Data.List.Sort

/-!
# Searching and ordering slices

`binarySearch` on an ascending slice: the position of the value, or where it would go.  `firstIndex` bisects for
the first index that has a property.
`sortByKey` is the stable sort of a list by a key.  A checked map over a list (`List.mapM` in
`Option`) that passes everywhere is the plain map.  Lists paired element by element (`List.Forall₂`)
stay paired when one is reordered or loses an element.
-/

namespace Slices

section Search

variable {α : Type*} [LinearOrder α]

/-- `.ok i` when `xs[i]` is `x`, otherwise `.error i` with `i` the place to insert it
(`xs` ascending). -/
def binarySearch (xs : List α) (x : α) : Except Nat Nat :=
  let i := xs.findIdx (fun y => decide (x ≤ y))
  match xs[i]? with
  | some y => if y = x then .ok i else .error i
  | none => .error i

/-- Where the search ends: at `x`, or with everything before it smaller and the next one larger. -/
theorem binarySearch_spec (xs : List α) (x : α) :
    match binarySearch xs x with
    | .ok i => (∃ h : i < xs.length, xs[i] = x) ∧ ∀ (j : Nat) (h : j < xs.length), j < i → xs[j] < x
    | .error i => i ≤ xs.length ∧ (∀ (j : Nat) (h : j < xs.length), j < i → xs[j] < x) ∧
        ∀ h : i < xs.length, x < xs[i] := by
  have hbefore : ∀ (j : Nat) (h : j < xs.length), j < xs.findIdx (fun y => decide (x ≤ y)) → xs[j] < x := by
    intro j h hj
    have := List.not_of_lt_findIdx hj
    simpa using this
  unfold binarySearch
  simp only
  split
  · next i heq =>
    split at heq
    · next y hy =>
      obtain ⟨hlt, rfl⟩ := List.getElem?_eq_some_iff.mp hy
      split at heq
      · next hyx =>
        obtain rfl := Except.ok.inj heq
        exact ⟨⟨hlt, hyx⟩, hbefore⟩
      · cases heq
    · cases heq
  · next i heq =>
    split at heq
    · next y hy =>
      obtain ⟨hlt, rfl⟩ := List.getElem?_eq_some_iff.mp hy
      split at heq
      · cases heq
      · next hyx =>
        obtain rfl := Except.error.inj heq
        refine ⟨Nat.le_of_lt hlt, hbefore, fun h => ?_⟩
        have hle : x ≤ xs[xs.findIdx (fun y => decide (x ≤ y))] := by
          simpa using List.findIdx_getElem (w := h)
        exact lt_of_le_of_ne hle (Ne.symm hyx)
    · next hnone =>
      obtain rfl := Except.error.inj heq
      have hge := List.getElem?_eq_none_iff.mp hnone
      exact ⟨List.findIdx_le_length, hbefore, fun h => absurd h (by omega)⟩

/-- Whether the search finds `x`. -/
def found (xs : List α) (x : α) : Bool := (binarySearch xs x).isOk

theorem found_iff {xs : List α} (h : xs.Pairwise (· < ·)) {x : α} :
    found xs x = true ↔ x ∈ xs := by
  simp only [found, binarySearch]
  constructor
  · intro hf
    split at hf
    · next y hy =>
      split at hf
      · next hyx =>
        rw [← hyx]
        exact List.mem_of_getElem? hy
      · simp [Except.isOk, Except.toBool] at hf
    · simp [Except.isOk, Except.toBool] at hf
  · intro hx
    have hlt : xs.findIdx (fun y => decide (x ≤ y)) < xs.length :=
      List.findIdx_lt_length_of_exists ⟨x, hx, by simp⟩
    have hle : x ≤ xs[xs.findIdx (fun y => decide (x ≤ y))] := by
      simpa using List.findIdx_getElem (w := hlt)
    obtain ⟨j, hj, hjx⟩ := List.getElem_of_mem hx
    have heq : xs[xs.findIdx (fun y => decide (x ≤ y))] = x := by
      rcases Nat.lt_trichotomy (xs.findIdx (fun y => decide (x ≤ y))) j with hij | hij | hij
      · have := List.pairwise_iff_getElem.mp h _ _ hlt hj hij
        rw [hjx] at this
        exact absurd hle (not_le.mpr this)
      · subst hij
        exact hjx
      · have := List.not_of_lt_findIdx hij
        simp [hjx] at this
    rw [List.getElem?_eq_getElem hlt]
    simp [heq, Except.isOk, Except.toBool]

end Search

section First

/-- The loop of `firstIndex` over `[i, j)`; every pass shrinks it, so `fuel = j - i` is enough. -/
def firstIndexLoop (f : Nat → Bool) : Nat → Nat → Nat → Nat
  | 0, i, _ => i
  | fuel + 1, i, j =>
    if i < j then
      let h := (i + j) / 2
      if f h then firstIndexLoop f fuel i h else firstIndexLoop f fuel (h + 1) j
    else i

/-- The first index below `n` at which `f` holds (or `n`), by bisection. -/
def firstIndex (n : Nat) (f : Nat → Bool) : Nat := firstIndexLoop f n 0 n

/-- Of an `f` that stays true once it is, no index below the result holds and every other one does. -/
structure IsFirst (n : Nat) (f : Nat → Bool) (i : Nat) : Prop where
  le : i ≤ n
  below : ∀ k < i, f k = false
  above : ∀ k, i ≤ k → k < n → f k = true

variable {n : Nat} {f : Nat → Bool}

theorem firstIndexLoop_spec (hmono : ∀ i j, i ≤ j → j < n → f i = true → f j = true) :
    ∀ (fuel i j : Nat), j - i ≤ fuel → i ≤ j → j ≤ n → (∀ k < i, f k = false) →
      (∀ k, j ≤ k → k < n → f k = true) → IsFirst n f (firstIndexLoop f fuel i j) := by
  intro fuel
  induction fuel with
  | zero =>
    intro i j hfuel hij hj hbelow habove
    obtain rfl : i = j := by omega
    exact ⟨hj, hbelow, habove⟩
  | succ fuel ih =>
    intro i j hfuel hij hj hbelow habove
    unfold firstIndexLoop
    split
    · next hlt =>
      simp only
      split
      · next hmid =>
        refine ih i _ (by omega) (by omega) (by omega) hbelow fun k hk hkn => ?_
        exact hmono _ k hk hkn hmid
      · next hmid =>
        refine ih _ j (by omega) (by omega) hj (fun k hk => ?_) habove
        by_contra hne
        exact hmid (hmono k _ (by omega) (by omega) (by simpa using hne))
    · next hge =>
      obtain rfl : i = j := by omega
      exact ⟨hj, hbelow, habove⟩

theorem firstIndex_spec (hmono : ∀ i j, i ≤ j → j < n → f i = true → f j = true) : IsFirst n f (firstIndex n f) :=
  firstIndexLoop_spec hmono n 0 n (by omega) (Nat.zero_le n) (Nat.le_refl n) (fun _ hk => absurd hk (by omega))
    (fun _ hk hkn => absurd hkn (by omega))

end First

section Sorting

variable {α β : Type*} [LinearOrder β]

/-- The stable sort of `xs` by `key`. -/
def sortByKey (key : α → β) (xs : List α) : List α :=
  xs.insertionSort (fun x y => key x ≤ key y)

@[simp] theorem mem_sortByKey {key : α → β} {xs : List α} {x : α} :
    x ∈ sortByKey key xs ↔ x ∈ xs := List.mem_insertionSort _

@[simp] theorem length_sortByKey (key : α → β) (xs : List α) :
    (sortByKey key xs).length = xs.length := List.length_insertionSort _ _

theorem sortByKey_perm (key : α → β) (xs : List α) : (sortByKey key xs).Perm xs :=
  List.perm_insertionSort _ _

theorem sortByKey_sorted (key : α → β) (xs : List α) :
    (sortByKey key xs).Pairwise (fun x y => key x ≤ key y) := by
  have : Std.Total (fun x y : α => key x ≤ key y) := ⟨fun x y => le_total (key x) (key y)⟩
  have : IsTrans α (fun x y => key x ≤ key y) := ⟨fun _ _ _ => le_trans⟩
  exact List.pairwise_insertionSort _ _

/-- Sorting the images of a list by a key of theirs. -/
theorem map_sortByKey {γ : Type*} (key : γ → β) (f : α → γ) (xs : List α) :
    (sortByKey (fun x => key (f x)) xs).map f = sortByKey key (xs.map f) :=
  List.map_insertionSort _ _ f xs fun _ _ _ _ => Iff.rfl

/-- What a stable sort keeps of a part of the list is the sorted part. -/
theorem filter_sortByKey (key : α → β) (p : α → Bool) (xs : List α) :
    (sortByKey key xs).filter p = sortByKey key (xs.filter p) := by
  have insert : ∀ (x : α) (ys : List α), ys.Pairwise (fun a b => key a ≤ key b) →
      (ys.orderedInsert (fun a b => key a ≤ key b) x).filter p =
        if p x then (ys.filter p).orderedInsert (fun a b => key a ≤ key b) x else ys.filter p := by
    intro x ys hys
    induction ys with
    | nil => cases hx : p x <;> simp [hx]
    | cons y ys ih =>
      rw [List.pairwise_cons] at hys
      by_cases hxy : key x ≤ key y
      · have hfirst : ∀ b ∈ (y :: ys).filter p, key x ≤ key b := by
          intro b hb
          rcases List.mem_cons.mp (List.mem_of_mem_filter hb) with rfl | hb
          · exact hxy
          · exact le_trans hxy (hys.1 b hb)
        rw [List.orderedInsert, if_pos hxy, List.filter_cons (x := x)]
        split
        · cases hkept : (y :: ys).filter p with
          | nil => rfl
          | cons z zs =>
            rw [hkept] at hfirst
            rw [List.orderedInsert, if_pos (hfirst z List.mem_cons_self)]
        · rfl
      · rw [List.orderedInsert, if_neg hxy, List.filter_cons, ih hys.2, List.filter_cons]
        split
        · split
          · rw [List.orderedInsert, if_neg hxy]
          · rfl
        · rfl
  induction xs with
  | nil => rfl
  | cons x xs ih =>
    have hcons : sortByKey key (x :: xs) = (sortByKey key xs).orderedInsert (fun a b => key a ≤ key b) x := rfl
    rw [hcons, insert x _ (sortByKey_sorted key xs), ih, List.filter_cons]
    split
    · rfl
    · rfl
theorem eq_of_key_eq {key : α → β} {ys : List α} (h : ys.Pairwise (fun a b => key a < key b)) {a b : α}
    (ha : a ∈ ys) (hb : b ∈ ys) (hk : key a = key b) : a = b := by
  obtain ⟨i, hi, rfl⟩ := List.getElem_of_mem ha
  obtain ⟨j, hj, rfl⟩ := List.getElem_of_mem hb
  rcases Nat.lt_trichotomy i j with hij | rfl | hij
  · exact absurd hk (ne_of_lt (List.pairwise_iff_getElem.mp h i j hi hj hij))
  · rfl
  · exact absurd hk (ne_of_lt (List.pairwise_iff_getElem.mp h j i hj hi hij)).symm

/-- Sorting by a key gives back the ascending list it is a permutation of. -/
theorem sortByKey_eq_of_perm {key : α → β} {xs ys : List α} (h : xs.Perm ys)
    (hys : ys.Pairwise (fun a b => key a < key b)) : sortByKey key xs = ys := by
  have hperm := (sortByKey_perm key xs).trans h
  exact hperm.eq_of_pairwise
    (fun a b ha hb hab hba => eq_of_key_eq hys (hperm.mem_iff.mp ha) hb (le_antisymm hab hba))
    (sortByKey_sorted key xs) (hys.imp le_of_lt)

theorem sortByKey_dedup_asc (xs : List β) : (sortByKey id xs).dedup.Pairwise (· < ·) := by
  have hle : (sortByKey id xs).dedup.Pairwise (· ≤ ·) :=
    (sortByKey_sorted id xs).sublist (List.dedup_sublist _)
  exact (hle.and (List.nodup_dedup (sortByKey id xs))).imp fun h => lt_of_le_of_ne h.1 h.2

end Sorting

section Partners

variable {α β : Type*} {R : α → β → Prop}

theorem forall₂_eraseIdx {xs : List α} {ys : List β} (h : List.Forall₂ R xs ys) (i : Nat) :
    List.Forall₂ R (xs.eraseIdx i) (ys.eraseIdx i) := by
  induction h generalizing i with
  | nil => exact List.Forall₂.nil
  | @cons x y xs ys hxy hrest ih =>
    cases i with
    | zero => exact hrest
    | succ i => exact List.Forall₂.cons hxy (ih i)

/-- A list paired with another keeps its partners under reordering. -/
theorem forall₂_of_perm {xs xs' : List α} {ys : List β} (h : List.Forall₂ R xs ys)
    (hp : xs'.Perm xs) : ∃ ys' : List β, ys'.Perm ys ∧ List.Forall₂ R xs' ys' := by
  obtain ⟨ys', h1, h2⟩ := List.perm_comp_forall₂ hp h
  exact ⟨ys', h2, h1⟩

/-- Every element of the first list has a partner in the second. -/
theorem exists_partner {xs : List α} {ys : List β} (h : List.Forall₂ R xs ys) {x : α} (hx : x ∈ xs) :
    ∃ y ∈ ys, R x y := by
  induction h with
  | nil => cases hx
  | cons hxy _ ih =>
    rcases List.mem_cons.mp hx with rfl | hx
    · exact ⟨_, List.mem_cons_self, hxy⟩
    · obtain ⟨y, hy, hr⟩ := ih hx
      exact ⟨y, List.mem_cons_of_mem _ hy, hr⟩

/-- Every element of the second list has a partner in the first. -/
theorem exists_partner_left {xs : List α} {ys : List β} (h : List.Forall₂ R xs ys) {y : β} (hy : y ∈ ys) :
    ∃ x ∈ xs, R x y := by
  induction h with
  | nil => cases hy
  | cons hxy _ ih =>
    rcases List.mem_cons.mp hy with rfl | hy
    · exact ⟨_, List.mem_cons_self, hxy⟩
    · obtain ⟨x, hx, hr⟩ := ih hy
      exact ⟨x, List.mem_cons_of_mem _ hx, hr⟩

/-- Partners that agree under two maps. -/
theorem map_eq_of_forall₂ {γ : Type} {f : α → γ} {g : β → γ} {xs : List α} {ys : List β}
    (h : List.Forall₂ (fun x y => f x = g y) xs ys) : xs.map f = ys.map g := by
  induction h with
  | nil => rfl
  | cons hxy _ ih => rw [List.map_cons, List.map_cons, hxy, ih]

/-- A search over a list finds the partner of what the search over the other list finds. -/
theorem find?_forall₂ {xs : List α} {ys : List β} (h : List.Forall₂ R xs ys) {p : α → Bool} {q : β → Bool}
    (hpq : ∀ x y, R x y → p x = q y) :
    (xs.find? p = none ∧ ys.find? q = none) ∨
      ∃ x y, xs.find? p = some x ∧ ys.find? q = some y ∧ R x y := by
  induction h with
  | nil => exact Or.inl ⟨rfl, rfl⟩
  | @cons x y xs ys hxy _ ih =>
    by_cases hp : p x = true
    · have hq : q y = true := hpq x y hxy ▸ hp
      exact Or.inr ⟨x, y, List.find?_cons_of_pos hp, List.find?_cons_of_pos hq, hxy⟩
    · have hq : ¬ q y = true := hpq x y hxy ▸ hp
      rw [List.find?_cons_of_neg hp, List.find?_cons_of_neg hq]
      exact ih

/-- Where keys are distinct, a search by an element's key finds the element. -/
theorem find?_of_nodup {γ : Type*} [DecidableEq γ] {key : α → γ} {xs : List α} (hnd : (xs.map key).Nodup) {x : α}
    (hx : x ∈ xs) : (xs.find? fun y => key y == key x) = some x := by
  cases hy : xs.find? fun y => key y == key x with
  | none => exact absurd (by simp) (List.find?_eq_none.mp hy x hx)
  | some y =>
    have hkey : key y = key x := by simpa using List.find?_some hy
    rw [List.inj_on_of_nodup_map hnd (List.mem_of_find?_eq_some hy) hx hkey]

/-- Where keys are distinct, the order does not matter to a search by key. -/
theorem find?_eq_of_perm {γ : Type*} [DecidableEq γ] {key : α → γ} {xs ys : List α} (h : xs.Perm ys)
    (hnd : (ys.map key).Nodup) (k : γ) : xs.find? (fun x => key x == k) = ys.find? fun y => key y == k := by
  cases hy : ys.find? fun y => key y == k with
  | none =>
    rw [List.find?_eq_none] at hy ⊢
    intro x hx
    exact hy x (h.subset hx)
  | some y =>
    have hyk : key y = k := by simpa using List.find?_some hy
    cases hx : xs.find? fun x => key x == k with
    | none =>
      rw [List.find?_eq_none] at hx
      exact absurd (by simpa using hyk) (hx y (h.symm.subset (List.mem_of_find?_eq_some hy)))
    | some x =>
      have hxk : key x = k := by simpa using List.find?_some hx
      exact congrArg some (List.inj_on_of_nodup_map hnd (h.subset (List.mem_of_find?_eq_some hx))
        (List.mem_of_find?_eq_some hy) (hxk.trans hyk.symm))

theorem forall_mem_iff_eraseIdx {xs : List α} {i : Nat} (h : i < xs.length) {p : α → Prop} :
    (∀ x ∈ xs, p x) ↔ p xs[i] ∧ ∀ x ∈ xs.eraseIdx i, p x := by
  have hperm := List.getElem_cons_eraseIdx_perm h
  rw [← List.forall_mem_cons]
  exact ⟨fun hp x hx => hp x (hperm.mem_iff.mp hx), fun hp x hx => hp x (hperm.mem_iff.mpr hx)⟩

end Partners

section Checked

variable {α β ε : Type*}

theorem mapM_some {f : α → Option β} {g : α → β} {xs : List α} (h : ∀ x ∈ xs, f x = some (g x)) :
    xs.mapM f = some (xs.map g) := by
  induction xs with
  | nil => rfl
  | cons x xs ih =>
    rw [List.mapM_cons, h x (by simp), ih fun y hy => h y (by simp [hy])]
    rfl

theorem mapM_of_forall₂ {f : α → Option β} {xs : List α} {ys : List β}
    (h : List.Forall₂ (fun x y => f x = some y) xs ys) : xs.mapM f = some ys := by
  induction h with
  | nil => rfl
  | cons hxy _ ih =>
    rw [List.mapM_cons, hxy, ih]
    rfl

theorem mapM_some_forall₂ {f : α → Option β} {xs : List α} {ys : List β} (h : xs.mapM f = some ys) :
    List.Forall₂ (fun x y => f x = some y) xs ys := by
  induction xs generalizing ys with
  | nil =>
    obtain rfl := Option.some.inj h
    exact List.Forall₂.nil
  | cons x xs ih =>
    rw [List.mapM_cons] at h
    cases hx : f x with
    | none => rw [hx] at h; cases h
    | some y =>
      cases hxs : xs.mapM f with
      | none => rw [hx, hxs] at h; cases h
      | some zs =>
        rw [hx, hxs] at h
        obtain rfl := Option.some.inj h
        exact List.Forall₂.cons hx (ih hxs)

theorem mapM_none {f : α → Option β} {xs : List α} (h : ∃ x ∈ xs, f x = none) : xs.mapM f = none := by
  induction xs with
  | nil => simp at h
  | cons x xs ih =>
    rw [List.exists_mem_cons_iff] at h
    rw [List.mapM_cons]
    rcases h with h | h
    · rw [h]
      rfl
    · rw [ih h]
      cases f x <;> rfl

theorem mapM_eq_none_iff {f : α → Option β} {xs : List α} :
    xs.mapM f = none ↔ ∃ x ∈ xs, f x = none := by
  refine ⟨fun h => ?_, mapM_none⟩
  by_contra hall
  push Not at hall
  have hsome : ∀ x ∈ xs, ∃ y, f x = some y := fun x hx => Option.ne_none_iff_exists'.mp (hall x hx)
  have : ∃ ys, xs.mapM f = some ys := by
    clear h hall
    induction xs with
    | nil => exact ⟨[], rfl⟩
    | cons x xs ih =>
      obtain ⟨y, hy⟩ := hsome x (by simp)
      obtain ⟨ys, hys⟩ := ih fun z hz => hsome z (by simp [hz])
      exact ⟨y :: ys, mapM_of_forall₂ (List.Forall₂.cons hy (mapM_some_forall₂ hys))⟩
  obtain ⟨ys, hys⟩ := this
  rw [hys] at h
  cases h

/-- A checked map that passes everywhere keeps what it can. -/
theorem mapM_eq_filterMap {f : α → Option β} {xs : List α} (h : ∀ x ∈ xs, f x ≠ none) :
    xs.mapM f = some (xs.filterMap f) := by
  induction xs with
  | nil => rfl
  | cons x xs ih =>
    obtain ⟨y, hy⟩ := Option.ne_none_iff_exists'.mp (h x List.mem_cons_self)
    rw [List.mapM_cons, hy, ih fun z hz => h z (List.mem_cons_of_mem _ hz), List.filterMap_cons_some hy]
    rfl

end Checked

end Slices
