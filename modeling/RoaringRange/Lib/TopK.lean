import Mathlib.Data.Prod.Lex
import RoaringRange.Lib.Search

/-!
# The top `n` of a list, ties taken either way

`IsTop v n ys xs`: `ys` are `n` of the items `xs` (all of them where there are no more), and no other item has
a greater value `v`.  Which items these are is settled except among those `Tied` across the cut:

    x is not tied → (x ∈ ys ↔ at most n items have its value or more)                    (mem_iff)
    the top of a top is a top                                                            (trans)
-/

namespace TopK

variable {α : Type*} {v : α → Nat} {n k : Nat} {xs ys : List α} {x : α}

/-- `ys` are the top `n` of `xs` by `v`. -/
def IsTop (v : α → Nat) (n : Nat) (ys xs : List α) : Prop :=
  ∃ zs, xs.Perm (ys ++ zs) ∧ ys.length = min n xs.length ∧ ∀ y ∈ ys, ∀ z ∈ zs, v z ≤ v y

/-- Fewer than `n` items are above `x`, and with those at its value there are more than `n`. -/
def Tied (v : α → Nat) (n : Nat) (xs : List α) (x : α) : Prop :=
  (xs.countP fun y => decide (v x < v y)) < n ∧ n < xs.countP fun y => decide (v x ≤ v y)

instance (v : α → Nat) (n : Nat) (xs : List α) (x : α) : Decidable (Tied v n xs x) :=
  inferInstanceAs (Decidable (_ ∧ _))

theorem IsTop.refl (h : xs.length ≤ n) : IsTop v n xs xs :=
  ⟨[], by rw [List.append_nil], by omega, fun _ _ _ hz => absurd hz List.not_mem_nil⟩

theorem IsTop.subset (h : IsTop v n ys xs) : ys ⊆ xs := by
  obtain ⟨zs, hperm, -, -⟩ := h
  exact fun y hy => hperm.mem_iff.mpr (List.mem_append_left _ hy)

/-- The top of a top is a top. -/
theorem IsTop.trans {ws : List α} (h : IsTop v k ys xs) (h' : IsTop v n ws ys) (hnk : n ≤ k) : IsTop v n ws xs := by
  obtain ⟨zs, hperm, hlen, hle⟩ := h
  obtain ⟨us, hperm', hlen', hle'⟩ := h'
  refine ⟨us ++ zs, ?_, by omega, fun w hw z hz => ?_⟩
  · rw [← List.append_assoc]
    exact hperm.trans (hperm'.append_right zs)
  · rcases List.mem_append.mp hz with hz | hz
    · exact hle' w hw z hz
    · exact hle w (hperm'.mem_iff.mpr (List.mem_append_left _ hw)) z hz

/-- An item with few above it and at its value is in the top. -/
theorem IsTop.mem_of_few (h : IsTop v n ys xs) (hx : x ∈ xs) (hfew : (xs.countP fun y => decide (v x ≤ v y)) ≤ n) :
    x ∈ ys := by
  obtain ⟨zs, hperm, hlen, hle⟩ := h
  by_contra hnot
  have hz : x ∈ zs := by
    rcases List.mem_append.mp (hperm.mem_iff.mp hx) with h | h
    · exact absurd h hnot
    · exact h
  have hys : (ys.countP fun y => decide (v x ≤ v y)) = ys.length :=
    List.countP_eq_length.mpr fun y hy => decide_eq_true (hle y hy x hz)
  have hzs : 0 < zs.countP fun y => decide (v x ≤ v y) :=
    List.countP_pos_iff.mpr ⟨x, hz, decide_eq_true (Nat.le_refl _)⟩
  have hall := hperm.countP_eq fun y => decide (v x ≤ v y)
  have htotal := hperm.length_eq
  rw [List.countP_append] at hall
  rw [List.length_append] at htotal
  have hpos : 0 < zs.length := List.length_pos_of_mem hz
  omega

/-- An item with many above it is not in the top. -/
theorem IsTop.not_mem_of_many (h : IsTop v n ys xs) (hmany : n ≤ xs.countP fun y => decide (v x < v y)) : x ∉ ys := by
  obtain ⟨zs, hperm, hlen, hle⟩ := h
  intro hx
  have hzs : (zs.countP fun y => decide (v x < v y)) = 0 :=
    List.countP_eq_zero.mpr fun z hz => by
      have := hle x hx z hz
      simpa using this
  have hys : (ys.countP fun y => decide (v x < v y)) < ys.length := by
    refine lt_of_le_of_ne List.countP_le_length fun heq => ?_
    have := List.countP_eq_length.mp heq x hx
    simp at this
  have hall := hperm.countP_eq fun y => decide (v x < v y)
  rw [List.countP_append] at hall
  omega

/-- **What is not tied is settled.** -/
theorem IsTop.mem_iff (h : IsTop v n ys xs) (hx : x ∈ xs) (ht : ¬ Tied v n xs x) :
    x ∈ ys ↔ (xs.countP fun y => decide (v x ≤ v y)) ≤ n := by
  constructor
  · intro hmem
    by_contra hmore
    exact h.not_mem_of_many (Nat.le_of_not_lt fun hlt => ht ⟨hlt, by omega⟩) hmem
  · exact h.mem_of_few hx

/-- What is tied can be left out only of a list longer than the cut. -/
theorem Tied.lt_length (h : Tied v n xs x) : n < xs.length := Nat.lt_of_lt_of_le h.2 List.countP_le_length

theorem tied_perm (h : xs.Perm ys) : Tied v n xs x ↔ Tied v n ys x := by
  unfold Tied
  rw [h.countP_eq, h.countP_eq]

theorem tied_map {β : Type*} {w : β → Nat} (g : α → β) : Tied w n (xs.map g) (g x) ↔ Tied (fun a => w (g a)) n xs x := by
  unfold Tied
  rw [List.countP_map, List.countP_map]
  rfl

/-- The first `n` by a key that puts greater values first. -/
theorem isTop_take {β : Type*} [LinearOrder β] {key : α → β} (hkey : ∀ a b, key a ≤ key b → v b ≤ v a) (n : Nat)
    (xs : List α) : IsTop v n ((Slices.sortByKey key xs).take n) xs := by
  refine ⟨(Slices.sortByKey key xs).drop n, ?_, ?_, fun y hy z hz => ?_⟩
  · rw [List.take_append_drop]
    exact (Slices.sortByKey_perm key xs).symm
  · rw [List.length_take, (Slices.sortByKey_perm key xs).length_eq]
  · have hsorted := Slices.sortByKey_sorted key xs
    rw [← List.take_append_drop n (Slices.sortByKey key xs)] at hsorted
    exact hkey y z ((List.pairwise_append.mp hsorted).2.2 y hy z hz)

/-- A top of places is a top of the items there. -/
theorem IsTop.map {β : Type*} {w : β → Nat} (g : α → β) (hv : ∀ a ∈ xs, w (g a) = v a) (h : IsTop v n ys xs) :
    IsTop w n (ys.map g) (xs.map g) := by
  obtain ⟨zs, hperm, hlen, hle⟩ := h
  refine ⟨zs.map g, ?_, by rw [List.length_map, List.length_map, hlen], fun y hy z hz => ?_⟩
  · rw [← List.map_append]
    exact hperm.map g
  · obtain ⟨a, ha, rfl⟩ := List.mem_map.mp hy
    obtain ⟨b, hb, rfl⟩ := List.mem_map.mp hz
    rw [hv a (hperm.mem_iff.mpr (List.mem_append_left _ ha)), hv b (hperm.mem_iff.mpr (List.mem_append_right _ hb))]
    exact hle a ha b hb

/-! ## Choosing among the tied -/

/-- Sorted so that greater values come first and, among equals, the preferred items. -/
def preferred (v : α → Nat) (p : α → Bool) (xs : List α) : List α :=
  Slices.sortByKey (fun x => toLex (OrderDual.toDual (v x), !p x)) xs

theorem preferred_perm (v : α → Nat) (p : α → Bool) (xs : List α) : (preferred v p xs).Perm xs :=
  Slices.sortByKey_perm _ _

/-- The order of `preferred`: what comes first has a greater value, or the same and is preferred no less. -/
theorem preferred_le {p : α → Bool} {y z : α} (hy : y ∈ (preferred v p xs).take n)
    (hz : z ∈ (preferred v p xs).drop n) : v z < v y ∨ (v z = v y ∧ (p z = true → p y = true)) := by
  have hsorted := Slices.sortByKey_sorted (fun x => toLex (OrderDual.toDual (v x), !p x)) xs
  rw [← List.take_append_drop n (Slices.sortByKey _ xs)] at hsorted
  have hle := (List.pairwise_append.mp hsorted).2.2 y hy z hz
  rcases Prod.Lex.toLex_le_toLex.mp hle with h | h
  · exact Or.inl h
  · refine Or.inr ⟨(OrderDual.toDual_inj.mp h.1).symm, fun hpz => ?_⟩
    have h2 : (!p y) ≤ (!p z) := h.2
    rw [hpz] at h2
    cases hpy : p y with
    | true => rfl
    | false =>
      rw [hpy] at h2
      exact absurd h2 (by decide)

/-- A tied item that is preferred is taken. -/
theorem mem_preferred [DecidableEq α] (hx : x ∈ xs) (ht : Tied v n xs x) :
    x ∈ (preferred v (fun y => decide (y = x)) xs).take n := by
  by_contra hnot
  have hperm := preferred_perm v (fun y => decide (y = x)) xs
  have hdrop : x ∈ (preferred v (fun y => decide (y = x)) xs).drop n := by
    have hmem := hperm.mem_iff.mpr hx
    rw [← List.take_append_drop n (preferred v _ xs)] at hmem
    exact (List.mem_append.mp hmem).resolve_left hnot
  have habove : ∀ y ∈ (preferred v (fun y => decide (y = x)) xs).take n, decide (v x < v y) = true := by
    intro y hy
    rcases preferred_le hy hdrop with h | ⟨-, h⟩
    · exact decide_eq_true h
    · have hyx : y = x := by simpa using h (decide_eq_true rfl)
      rw [hyx] at hy
      exact absurd hy hnot
  have hlen : ((preferred v (fun y => decide (y = x)) xs).take n).length = n := by
    have := ht.lt_length
    rw [List.length_take, hperm.length_eq]
    omega
  have hcount := List.countP_eq_length.mpr habove
  have hle := ((List.take_sublist n (preferred v (fun y => decide (y = x)) xs)).countP_le
    (p := fun y => decide (v x < v y)))
  rw [hcount, hlen, hperm.countP_eq] at hle
  have := ht.1
  omega

/-- A tied item that is preferred last is left out. -/
theorem not_mem_preferred [DecidableEq α] (hnd : xs.Nodup) (ht : Tied v n xs x) :
    x ∉ (preferred v (fun y => decide (y ≠ x)) xs).take n := by
  intro hmem
  have hperm := preferred_perm v (fun y => decide (y ≠ x)) xs
  have hnd' := hperm.nodup_iff.mpr hnd
  rw [← List.take_append_drop n (preferred v _ xs)] at hnd'
  have hbelow : ((preferred v (fun y => decide (y ≠ x)) xs).drop n).countP (fun y => decide (v x ≤ v y)) = 0 := by
    refine List.countP_eq_zero.mpr fun z hz => ?_
    rcases preferred_le hmem hz with h | ⟨-, h⟩
    · simpa using h
    · have hzx : z = x := by
        by_contra hne
        simpa using h (decide_eq_true hne)
      rw [hzx] at hz
      exact absurd rfl ((List.nodup_append.mp hnd').2.2 x hmem x hz)
  have hsplit := hperm.countP_eq fun y => decide (v x ≤ v y)
  rw [← List.take_append_drop n (preferred v _ xs), List.countP_append, hbelow, Nat.add_zero] at hsplit
  have hle : ((preferred v (fun y => decide (y ≠ x)) xs).take n).countP (fun y => decide (v x ≤ v y)) ≤ n := by
    refine Nat.le_trans List.countP_le_length ?_
    rw [List.length_take]
    exact Nat.min_le_left _ _
  have := ht.2
  omega

end TopK
