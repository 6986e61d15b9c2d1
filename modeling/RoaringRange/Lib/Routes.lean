import Mathlib.Data.List.Basic
import Mathlib.Data.List.Pairwise

/-!
# Routing to the first that covers

Places in a row hold items, and each covers some more.  An item that looks for its place takes the first that covers
it.  `Routed`: that is the place that holds it.

    places may go, and may hold less                                          (Routed.sublist, Routed.mono)
    a place may come last if no place before it covers what it holds                        (routed_snoc_iff)
    what is held is first covered where it is held                                       (Routed.first_cover)
-/

namespace Routes

variable {α ι : Type*} {covers holds holds' : α → ι → Prop} {xs ys : List α}

/-- Every place covers what it holds, and no place before it does. -/
structure Routed (covers holds : α → ι → Prop) (xs : List α) : Prop where
  own : ∀ a ∈ xs, ∀ i, holds a i → covers a i
  first : xs.Pairwise fun a b => ∀ i, holds b i → ¬ covers a i

theorem Routed.sublist (h : Routed covers holds xs) (hs : ys.Sublist xs) : Routed covers holds ys :=
  ⟨fun a ha => h.own a (hs.subset ha), h.first.sublist hs⟩

/-- Holding less. -/
theorem Routed.mono (h : Routed covers holds xs) (hle : ∀ a ∈ xs, ∀ i, holds' a i → holds a i) :
    Routed covers holds' xs := by
  refine ⟨fun a ha i hi => h.own a ha i (hle a ha i hi), ?_⟩
  refine h.first.imp_of_mem fun {a b} _ hb hab i hi => ?_
  exact hab i (hle b hb i hi)

/-- A place more, at the end: it covers what it holds, and no place before it does. -/
theorem routed_snoc_iff {a : α} : Routed covers holds (xs ++ [a]) ↔
    Routed covers holds xs ∧ (∀ i, holds a i → covers a i) ∧ ∀ b ∈ xs, ∀ i, holds a i → ¬ covers b i := by
  constructor
  · intro h
    refine ⟨h.sublist (List.sublist_append_left _ _), h.own a (by simp), fun b hb => ?_⟩
    exact (List.pairwise_append.mp h.first).2.2 b hb a (List.mem_singleton_self a)
  · rintro ⟨h, hown, hfree⟩
    refine ⟨fun b hb => ?_, List.pairwise_append.mpr ⟨h.first, List.pairwise_singleton _ _, fun b hb c hc => ?_⟩⟩
    · rcases List.mem_append.mp hb with hb | hb
      · exact h.own b hb
      · rw [List.mem_singleton.mp hb]
        exact hown
    · rw [List.mem_singleton.mp hc]
      exact hfree b hb

/-- **An item's first cover is its holder.** -/
theorem Routed.first_cover (h : Routed covers holds xs) {n : Nat} {a : α} (hn : xs[n]? = some a) {i : ι}
    (hi : holds a i) : covers a i ∧ ∀ m < n, ∀ b, xs[m]? = some b → ¬ covers b i := by
  refine ⟨h.own a (List.mem_of_getElem? hn) i hi, fun m hm b hb => ?_⟩
  obtain ⟨hm', rfl⟩ := List.getElem?_eq_some_iff.mp hb
  obtain ⟨hn', rfl⟩ := List.getElem?_eq_some_iff.mp hn
  exact List.pairwise_iff_getElem.mp h.first m n hm' hn' hm i hi

end Routes
