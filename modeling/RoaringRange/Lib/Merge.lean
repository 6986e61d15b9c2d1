import Mathlib.Data.List.Sort
import Mathlib.Order.MinMax

/-!
# Merging ascending lists

A merge over the fronts of some lists, each ascending by a key: every step takes the least key in front,
with the elements of all the lists that have it in front.  The steps go through the keys in order, and
each key comes once, with its element of every list that has one:

    size xss ≤ fuel → the keys of runs fuel xss ascend, and the run of a key is its elements, list by list
                                                                                        (runs_spec)
-/

namespace Merge

variable {κ β : Type} [LinearOrder κ] (key : β → κ)

/-- The least key in front. -/
def leastKey (xss : List (List β)) : Option κ := (xss.filterMap fun xs => xs.head?.map key).min?

/-- The fronts that have the key. -/
def takeRun (k : κ) (xss : List (List β)) : List β := xss.filterMap fun xs => xs.head?.filter fun x => key x = k

/-- The lists without the fronts that have the key. -/
def dropRun (k : κ) (xss : List (List β)) : List (List β) :=
  xss.map fun xs => if xs.head?.map key = some k then xs.tail else xs

/-- The runs of a merge that ends within `fuel` steps. -/
def runs : Nat → List (List β) → List (κ × List β)
  | 0, _ => []
  | fuel + 1, xss =>
    match leastKey key xss with
    | none => []
    | some k => (k, takeRun key k xss) :: runs fuel (dropRun key k xss)

/-- How many elements are left. -/
def size : List (List β) → Nat
  | [] => 0
  | xs :: xss => xs.length + size xss

theorem length_le_size {xs : List β} {xss : List (List β)} (h : xs ∈ xss) : xs.length ≤ size xss := by
  induction xss with
  | nil => cases h
  | cons ys xss ih =>
    unfold size
    rcases List.mem_cons.mp h with rfl | h
    · exact Nat.le_add_right _ _
    · exact Nat.le_trans (ih h) (Nat.le_add_left _ _)

section

variable {key} {xss : List (List β)} {k : κ}

theorem leastKey_eq_none (h : leastKey key xss = none) : ∀ xs ∈ xss, xs = [] := by
  intro xs hxs
  have hnil : xss.filterMap (fun xs => xs.head?.map key) = [] := List.min?_eq_none_iff.mp h
  have := List.filterMap_eq_nil_iff.mp hnil xs hxs
  cases xs with
  | nil => rfl
  | cons x xs => cases this

/-- The least key is a front's, and no front's is smaller. -/
theorem leastKey_spec (h : leastKey key xss = some k) :
    (∃ x xs, (x :: xs) ∈ xss ∧ key x = k) ∧ ∀ x xs, (x :: xs) ∈ xss → k ≤ key x := by
  obtain ⟨hmem, hle⟩ := List.min?_eq_some_iff.mp h
  refine ⟨?_, ?_⟩
  · obtain ⟨xs, hxs, hx⟩ := List.mem_filterMap.mp hmem
    cases xs with
    | nil => cases hx
    | cons x xs => exact ⟨x, xs, hxs, Option.some.inj hx⟩
  · intro x xs hxs
    exact hle _ (List.mem_filterMap.mpr ⟨_, hxs, rfl⟩)

theorem size_dropRun_lt (h : leastKey key xss = some k) : size (dropRun key k xss) < size xss := by
  obtain ⟨⟨x, xs, hmem, hx⟩, -⟩ := leastKey_spec h
  clear h
  have hstep : ∀ ys : List β, (if ys.head?.map key = some k then ys.tail else ys).length ≤ ys.length := by
    intro ys
    split
    · rw [List.length_tail]
      omega
    · exact Nat.le_refl _
  have hall : ∀ l : List (List β), size (dropRun key k l) ≤ size l := by
    intro l
    induction l with
    | nil => exact Nat.le_refl _
    | cons ys l ih =>
      have := hstep ys
      unfold dropRun at ih ⊢
      rw [List.map_cons, size, size]
      omega
  induction xss with
  | nil => cases hmem
  | cons ys l ih =>
    have h1 := hstep ys
    have h2 := hall l
    unfold dropRun at h2 ih ⊢
    rw [List.map_cons, size, size]
    rcases List.mem_cons.mp hmem with rfl | hmem
    · rw [if_pos (by rw [List.head?_cons, Option.map_some, hx]), List.tail_cons, List.length_cons]
      omega
    · have := ih hmem
      omega

variable (hasc : ∀ xs ∈ xss, xs.Pairwise fun a b => key a < key b)

include hasc

theorem dropRun_asc : ∀ xs ∈ dropRun key k xss, xs.Pairwise fun a b => key a < key b := by
  intro xs hxs
  obtain ⟨ys, hys, rfl⟩ := List.mem_map.mp hxs
  split
  · exact (hasc ys hys).sublist (List.tail_sublist ys)
  · exact hasc ys hys

/-- In a list whose front is not before the key, the front is all there is of it. -/
theorem head?_eq_find? (h : leastKey key xss = some k) {xs : List β} (hxs : xs ∈ xss) :
    (xs.head?.filter fun x => key x = k) = xs.find? fun x => key x = k := by
  cases xs with
  | nil => rfl
  | cons x xs =>
    by_cases hx : key x = k
    · rw [List.find?_cons_of_pos (by simpa using hx), List.head?_cons, Option.filter_some, if_pos (by simpa using hx)]
    · have hlt : k < key x := lt_of_le_of_ne ((leastKey_spec h).2 x xs hxs) (Ne.symm hx)
      rw [List.head?_cons, Option.filter_some, if_neg (by simpa using hx), List.find?_cons_of_neg (by simpa using hx)]
      symm
      rw [List.find?_eq_none]
      intro y hy
      have := lt_trans hlt ((List.pairwise_cons.mp (hasc _ hxs)).1 y hy)
      simpa using ne_of_gt this

theorem takeRun_eq (h : leastKey key xss = some k) :
    takeRun key k xss = xss.filterMap fun xs => xs.find? fun x => key x = k := by
  unfold takeRun
  exact List.filterMap_congr fun xs hxs => head?_eq_find? hasc h hxs

omit hasc in
/-- The other keys are found as before. -/
theorem find?_dropRun {j : κ} (hj : j ≠ k) :
    ((dropRun key k xss).filterMap fun xs => xs.find? fun x => key x = j) =
      xss.filterMap fun xs => xs.find? fun x => key x = j := by
  unfold dropRun
  rw [List.filterMap_map]
  refine List.filterMap_congr fun xs _ => ?_
  show List.find? _ (if _ then _ else _) = _
  split
  · next hk =>
    cases xs with
    | nil => rfl
    | cons x xs =>
      have hx : key x = k := by simpa using hk
      rw [List.tail_cons, List.find?_cons_of_neg (by simpa [hx] using hj.symm)]
  · rfl

/-- What is left after a run is past its key. -/
theorem lt_of_mem_dropRun (h : leastKey key xss = some k) {xs : List β} (hxs : xs ∈ dropRun key k xss) {x : β}
    (hx : x ∈ xs) : k < key x := by
  obtain ⟨ys, hys, rfl⟩ := List.mem_map.mp hxs
  cases ys with
  | nil => simp at hx
  | cons y ys =>
    have hle := (leastKey_spec h).2 y ys hys
    obtain ⟨hrest, -⟩ := List.pairwise_cons.mp (hasc _ hys)
    split at hx
    · next hk =>
      have hy : key y = k := by simpa using hk
      rw [← hy]
      exact hrest x hx
    · next hk =>
      have hlt : k < key y := lt_of_le_of_ne hle (by simpa using Ne.symm hk)
      rcases List.mem_cons.mp hx with rfl | hx
      · exact hlt
      · exact lt_trans hlt (hrest x hx)

omit hasc in
/-- A key someone has is the key of an element. -/
theorem exists_of_filterMap_ne_nil {yss : List (List β)} {j : κ}
    (h : (yss.filterMap fun xs => xs.find? fun x => key x = j) ≠ []) : ∃ xs ∈ yss, ∃ x ∈ xs, key x = j := by
  obtain ⟨x, hx⟩ := List.exists_mem_of_ne_nil _ h
  obtain ⟨xs, hxs, hfind⟩ := List.mem_filterMap.mp hx
  exact ⟨xs, hxs, x, List.mem_of_find?_eq_some hfind, by simpa using List.find?_some hfind⟩

end

/-- **The runs of a merge**: each key of the lists once, in order, with its element of every list that
has one. -/
theorem runs_spec {fuel : Nat} : ∀ {xss : List (List β)}, (∀ xs ∈ xss, xs.Pairwise fun a b => key a < key b) →
    size xss ≤ fuel →
    (runs key fuel xss).Pairwise (fun a b => a.1 < b.1) ∧
      ∀ k vs, (k, vs) ∈ runs key fuel xss ↔
        vs = (xss.filterMap fun xs => xs.find? fun x => key x = k) ∧ vs ≠ [] := by
  induction fuel with
  | zero =>
    intro xss _ hsize
    refine ⟨List.Pairwise.nil, fun k vs => ⟨fun h => absurd h (by simp [runs]), ?_⟩⟩
    rintro ⟨rfl, hne⟩
    obtain ⟨xs, hxs, x, hx, -⟩ := exists_of_filterMap_ne_nil hne
    have hlen := length_le_size hxs
    have hpos := List.length_pos_of_mem hx
    omega
  | succ fuel ih =>
    intro xss hasc hsize
    unfold runs
    cases hk : leastKey key xss with
    | none =>
      refine ⟨List.Pairwise.nil, fun k vs => ⟨fun h => absurd h (by simp), ?_⟩⟩
      rintro ⟨rfl, hne⟩
      obtain ⟨xs, hxs, x, hx, -⟩ := exists_of_filterMap_ne_nil hne
      rw [leastKey_eq_none hk xs hxs] at hx
      cases hx
    | some k =>
      have hsmaller := size_dropRun_lt hk
      obtain ⟨hrest, hiff⟩ := ih (@dropRun_asc _ _ _ _ _ k hasc) (by omega)
      have hlt : ∀ e ∈ runs key fuel (dropRun key k xss), k < e.1 := by
        rintro ⟨j, vs⟩ he
        obtain ⟨hvs, hne⟩ := (hiff j vs).mp he
        rw [hvs] at hne
        obtain ⟨xs, hxs, x, hx, rfl⟩ := exists_of_filterMap_ne_nil hne
        exact lt_of_mem_dropRun hasc hk hxs hx
      refine ⟨List.pairwise_cons.mpr ⟨hlt, hrest⟩, fun j vs => ?_⟩
      rw [List.mem_cons, Prod.mk.injEq]
      by_cases hj : j = k
      · subst hj
        rw [takeRun_eq hasc hk]
        constructor
        · rintro (⟨-, hvs⟩ | he)
          · refine ⟨hvs, ?_⟩
            obtain ⟨⟨x, xs, hmem, hx⟩, -⟩ := leastKey_spec hk
            rw [hvs]
            have hfind : (x :: xs).find? (fun y => decide (key y = j)) = some x :=
              List.find?_cons_of_pos (by simpa using hx)
            exact List.ne_nil_of_mem (List.mem_filterMap.mpr ⟨_, hmem, hfind⟩)
          · exact absurd (hlt _ he) (lt_irrefl j)
        · intro h
          exact Or.inl ⟨rfl, h.1⟩
      · rw [hiff, find?_dropRun hj]
        constructor
        · rintro (⟨rfl, -⟩ | h)
          · exact absurd rfl hj
          · exact h
        · exact Or.inr

end Merge
