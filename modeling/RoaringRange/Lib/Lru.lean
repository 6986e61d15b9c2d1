import Mathlib.Data.List.Basic
import Mathlib.Data.List.Induction
import Mathlib.Data.List.Nodup

/-!
# Least recently used

A cache lists its entries from the least to the most recently used one.  A hit or a put moves a key to the end, and
entries are evicted from the front, only as many as have to go for the rest to fit.

    what is left is the longest end of the list that fits                        (total_fitted_le, overflow_le)
    a key is held with the value of its last put unless it was evicted since            (find_after_run)
-/

namespace Lru

variable {κ α : Type}

section

variable [DecidableEq κ]

/-- The value of a key in a list of entries. -/
def find (k : κ) : List (κ × α) → Option α
  | [] => none
  | e :: es => if e.1 = k then some e.2 else find k es

/-- The entries of the other keys. -/
def without (k : κ) (es : List (κ × α)) : List (κ × α) := es.filter fun e => decide (e.1 ≠ k)

/-- The key becomes the most recently used one, if it is there. -/
def touch (k : κ) (es : List (κ × α)) : List (κ × α) :=
  match find k es with
  | some a => without k es ++ [(k, a)]
  | none => es

/-- The key becomes the most recently used one, with a new value. -/
def put (k : κ) (a : α) (es : List (κ × α)) : List (κ × α) := without k es ++ [(k, a)]

end

section

variable (weight : α → Nat)

def total : List (κ × α) → Nat
  | [] => 0
  | e :: es => weight e.2 + total es

/-- The entries that have to go for the rest to fit. -/
def overflow (budget : Nat) : List (κ × α) → List (κ × α)
  | [] => []
  | e :: es => if total weight (e :: es) ≤ budget then [] else e :: overflow budget es

/-- The entries that stay. -/
def fitted (budget : Nat) : List (κ × α) → List (κ × α)
  | [] => []
  | e :: es => if total weight (e :: es) ≤ budget then e :: es else fitted budget es

end

/-! ## Entries -/

section

variable [DecidableEq κ] {k j : κ} {a : α} {es : List (κ × α)}

theorem find_cons (k : κ) (e : κ × α) (es : List (κ × α)) :
    find k (e :: es) = if e.1 = k then some e.2 else find k es := rfl

theorem find_eq_some_iff (h : (es.map Prod.fst).Nodup) : find k es = some a ↔ (k, a) ∈ es := by
  induction es with
  | nil => exact ⟨fun h => (by cases h), fun h => absurd h List.not_mem_nil⟩
  | cons e es ih =>
    obtain ⟨hnot, hnd⟩ := List.nodup_cons.mp h
    unfold find
    split
    · next hk =>
      subst hk
      constructor
      · intro h
        rw [← Option.some.inj h]
        exact List.mem_cons_self
      · intro h
        rcases List.mem_cons.mp h with heq | h
        · rw [← heq]
        · exact absurd (List.mem_map_of_mem (f := Prod.fst) h) hnot
    · next hk =>
      rw [ih hnd, List.mem_cons]
      constructor
      · exact Or.inr
      · rintro (rfl | h)
        · exact absurd rfl hk
        · exact h

theorem find_eq_none_iff : find k es = none ↔ k ∉ es.map Prod.fst := by
  induction es with
  | nil => exact ⟨fun _ => List.not_mem_nil, fun _ => rfl⟩
  | cons e es ih =>
    unfold find
    rw [List.map_cons, List.mem_cons]
    split
    · next hk =>
      refine ⟨fun h => (by cases h), fun h => ?_⟩
      exact absurd (Or.inl hk.symm) h
    · next hk =>
      rw [ih]
      constructor
      · rintro h (rfl | h')
        · exact hk rfl
        · exact h h'
      · exact fun h h' => h (Or.inr h')

theorem find_append (es es' : List (κ × α)) : find k (es ++ es') = (find k es).or (find k es') := by
  induction es with
  | nil => rfl
  | cons e es ih =>
    rw [List.cons_append, find_cons, find_cons, ih]
    split <;> rfl

theorem find_without (k j : κ) (es : List (κ × α)) : find j (without k es) = if j = k then none else find j es := by
  induction es with
  | nil =>
    show none = _
    split <;> rfl
  | cons e es ih =>
    unfold without at ih ⊢
    rw [List.filter_cons]
    by_cases hk : e.1 = k
    · rw [if_neg (by simp [hk]), ih]
      split
      · rfl
      · next hj =>
        rw [find, if_neg (by rw [hk]; exact fun h => hj h.symm)]
    · rw [if_pos (by simp [hk])]
      unfold find
      rw [ih]
      by_cases hj : j = k
      · subst hj
        rw [if_neg hk, if_pos rfl, if_pos rfl]
      · rw [if_neg hj, if_neg hj]

theorem keys_without (k : κ) (es : List (κ × α)) :
    (without k es).map Prod.fst = (es.map Prod.fst).filter fun j => decide (j ≠ k) := by
  unfold without
  rw [List.filter_map]
  rfl

theorem nodup_without (h : (es.map Prod.fst).Nodup) (k : κ) : ((without k es).map Prod.fst).Nodup := by
  rw [keys_without]
  exact h.filter _

theorem not_mem_keys_without (k : κ) (es : List (κ × α)) : k ∉ (without k es).map Prod.fst := by
  rw [keys_without, List.mem_filter]
  exact fun h => absurd rfl (of_decide_eq_true h.2)

theorem without_of_not_mem (h : k ∉ es.map Prod.fst) : without k es = es := by
  unfold without
  refine List.filter_eq_self.mpr fun e he => decide_eq_true fun heq => h ?_
  rw [← heq]
  exact List.mem_map_of_mem he

theorem nodup_put (h : (es.map Prod.fst).Nodup) (k : κ) (a : α) : ((put k a es).map Prod.fst).Nodup := by
  unfold put
  rw [List.map_append, List.map_singleton]
  refine List.nodup_append.mpr ⟨nodup_without h k, List.nodup_singleton k, ?_⟩
  intro x hx y hy
  obtain rfl := List.mem_singleton.mp hy
  intro heq
  subst heq
  exact not_mem_keys_without _ es hx

theorem find_put (k j : κ) (a : α) (es : List (κ × α)) : find j (put k a es) = if k = j then some a else find j es := by
  unfold put
  rw [find_append, find_without]
  by_cases h : k = j
  · subst h
    rw [if_pos rfl, if_pos rfl, Option.none_or]
    show find k [(k, a)] = some a
    rw [find, if_pos rfl]
  · rw [if_neg h, if_neg fun heq => h heq.symm]
    show (find j es).or (find j [(k, a)]) = _
    rw [find, if_neg h, find, Option.or_none]

theorem touch_eq (k : κ) (es : List (κ × α)) : touch k es = (find k es).elim es fun a => put k a es := by
  unfold touch put
  cases find k es <;> rfl

theorem nodup_touch (h : (es.map Prod.fst).Nodup) (k : κ) : ((touch k es).map Prod.fst).Nodup := by
  rw [touch_eq]
  cases find k es with
  | none => exact h
  | some a => exact nodup_put h k a

/-- A use changes no value. -/
theorem find_touch (k j : κ) (es : List (κ × α)) : find j (touch k es) = find j es := by
  rw [touch_eq]
  cases hk : find k es with
  | none => rfl
  | some a =>
    show find j (put k a es) = _
    rw [find_put]
    split
    · next h =>
      subst h
      exact hk.symm
    · rfl

end

/-! ## Weights -/

section

variable {weight : α → Nat} {budget : Nat} {k j : κ} {a : α} {es : List (κ × α)}

theorem total_cons (weight : α → Nat) (e : κ × α) (es : List (κ × α)) :
    total weight (e :: es) = weight e.2 + total weight es := rfl

theorem total_append (es es' : List (κ × α)) : total weight (es ++ es') = total weight es + total weight es' := by
  induction es with
  | nil => exact (Nat.zero_add _).symm
  | cons e es ih => rw [List.cons_append, total_cons, total_cons, ih, Nat.add_assoc]

theorem total_perm {es es' : List (κ × α)} (h : es.Perm es') : total weight es = total weight es' := by
  induction h with
  | nil => rfl
  | cons e _ ih => rw [total_cons, total_cons, ih]
  | swap e e' es =>
    simp only [total_cons]
    omega
  | trans _ _ ih ih' => exact ih.trans ih'

/-- Taking a key out takes its weight out. -/
theorem total_without [DecidableEq κ] (h : (es.map Prod.fst).Nodup) (k : κ) :
    total weight (without k es) + (find k es).elim 0 weight = total weight es := by
  induction es with
  | nil => rfl
  | cons e es ih =>
    obtain ⟨hnot, hnd⟩ := List.nodup_cons.mp h
    have hrest := ih hnd
    unfold find
    by_cases hk : e.1 = k
    · subst hk
      rw [if_pos rfl]
      have hself : without e.1 (e :: es) = es := by
        have := without_of_not_mem hnot
        unfold without at this ⊢
        rw [List.filter_cons, if_neg (by simp), this]
      rw [hself]
      show total weight es + weight e.2 = weight e.2 + total weight es
      omega
    · rw [if_neg hk]
      have hcons : without k (e :: es) = e :: without k es := by
        unfold without
        rw [List.filter_cons, if_pos (by simp [hk])]
      rw [hcons]
      show weight e.2 + total weight (without k es) + _ = weight e.2 + total weight es
      omega

theorem total_put [DecidableEq κ] (h : (es.map Prod.fst).Nodup) (k : κ) (a : α) :
    total weight (put k a es) + (find k es).elim 0 weight = total weight es + weight a := by
  have hrest := @total_without _ _ weight es _ h k
  unfold put
  rw [total_append]
  show total weight (without k es) + (weight a + 0) + _ = _
  omega

/-- A use changes no weight. -/
theorem total_touch [DecidableEq κ] (h : (es.map Prod.fst).Nodup) (k : κ) :
    total weight (touch k es) = total weight es := by
  rw [touch_eq]
  cases hk : find k es with
  | none => rfl
  | some a =>
    have hput := @total_put _ _ weight es _ h k a
    rw [hk] at hput
    simp only [Option.elim_some] at hput ⊢
    omega

theorem fitted_of_le (h : total weight es ≤ budget) : fitted weight budget es = es := by
  cases es with
  | nil => rfl
  | cons e es => exact if_pos h

theorem overflow_of_le (h : total weight es ≤ budget) : overflow weight budget es = [] := by
  cases es with
  | nil => rfl
  | cons e es => exact if_pos h

theorem overflow_append_fitted (budget : Nat) (es : List (κ × α)) :
    overflow weight budget es ++ fitted weight budget es = es := by
  induction es with
  | nil => rfl
  | cons e es ih =>
    unfold overflow fitted
    split
    · rfl
    · rw [List.cons_append, ih]

/-- **What stays fits.** -/
theorem total_fitted_le (budget : Nat) (es : List (κ × α)) : total weight (fitted weight budget es) ≤ budget := by
  induction es with
  | nil => exact Nat.zero_le _
  | cons e es ih =>
    unfold fitted
    split
    · next h => exact h
    · exact ih

/-- **No more goes than has to**: what is left behind any shorter choice of the least recently used does not fit. -/
theorem overflow_le {gone left : List (κ × α)} (h : es = gone ++ left) (hfit : total weight left ≤ budget) :
    (overflow weight budget es).length ≤ gone.length := by
  subst h
  induction gone with
  | nil =>
    cases left with
    | nil => exact Nat.le_refl _
    | cons e left =>
      show (overflow weight budget (e :: left)).length ≤ 0
      unfold overflow
      rw [if_pos hfit]
      exact Nat.le_refl _
  | cons e gone ih =>
    rw [List.cons_append]
    unfold overflow
    split
    · exact Nat.zero_le _
    · exact Nat.succ_le_succ ih

theorem nodup_fitted (h : (es.map Prod.fst).Nodup) (budget : Nat) :
    ((fitted weight budget es).map Prod.fst).Nodup := by
  rw [← @overflow_append_fitted _ _ weight budget es, List.map_append] at h
  exact (List.nodup_append.mp h).2.1

/-- An entry is there unless it was evicted. -/
theorem find_fitted [DecidableEq κ] (h : (es.map Prod.fst).Nodup) (budget : Nat) (k : κ) : find k (fitted weight budget es) =
    if k ∈ (overflow weight budget es).map Prod.fst then none else find k es := by
  have hsplit := @overflow_append_fitted _ _ weight budget es
  split
  · next hgone =>
    rw [← hsplit, List.map_append] at h
    refine find_eq_none_iff.mpr fun hstay => ?_
    exact (List.nodup_append.mp h).2.2 k hgone k hstay rfl
  · next hstay =>
    conv => rhs; rw [← hsplit]
    rw [find_append, find_eq_none_iff.mpr hstay, Option.none_or]

end

/-! ## Histories -/

/-- What happens to a key. -/
inductive Event (κ α : Type) where
  | put (k : κ) (a : α)
  | evicted (k : κ)

section

variable [DecidableEq κ]

/-- The value a key was last put with, none where it was evicted since. -/
def current (k : κ) (history : List (Event κ α)) : Option α :=
  history.foldl (fun held e =>
    match e with
    | .put j a => if j = k then some a else held
    | .evicted j => if j = k then none else held) none

variable {k : κ} {history : List (Event κ α)}

theorem current_put (k j : κ) (a : α) (history : List (Event κ α)) :
    current k (history ++ [.put j a]) = if j = k then some a else current k history := by
  unfold current
  rw [List.foldl_append]
  rfl

/-- Evictions leave the other keys as they were. -/
theorem current_evicted (k : κ) (gone : List κ) (history : List (Event κ α)) :
    current k (history ++ gone.map Event.evicted) = if k ∈ gone then none else current k history := by
  induction gone generalizing history with
  | nil =>
    rw [List.map_nil, List.append_nil, if_neg List.not_mem_nil]
  | cons j gone ih =>
    have hstep : current k (history ++ [.evicted j]) = if j = k then none else current k history := by
      unfold current
      rw [List.foldl_append]
      rfl
    have hsplit : history ++ (j :: gone).map Event.evicted = (history ++ [.evicted j]) ++ gone.map Event.evicted := by
      rw [List.map_cons, List.append_assoc]
      rfl
    rw [hsplit, ih, hstep]
    by_cases hmem : k ∈ gone
    · rw [if_pos hmem, if_pos (List.mem_cons_of_mem j hmem)]
    · rw [if_neg hmem]
      by_cases hj : j = k
      · rw [if_pos hj, if_pos (by rw [hj]; exact List.mem_cons_self)]
      · rw [if_neg hj, if_neg fun h => (List.mem_cons.mp h).elim (fun heq => hj heq.symm) hmem]

/-- **A key's value is that of its last put**, where it was not evicted since. -/
theorem current_eq_some_iff {a : α} : current k history = some a ↔ ∃ before after,
    history = before ++ .put k a :: after ∧ (∀ b, Event.put k b ∉ after) ∧ Event.evicted k ∉ after := by
  induction history using List.reverseRecOn with
  | nil =>
    constructor
    · intro h
      cases h
    · rintro ⟨before, after, h, -, -⟩
      cases before <;> cases h
  | append_singleton history e ih =>
    -- a last event that is not about the key changes nothing
    have hother : (∀ b, e ≠ .put k b) → e ≠ .evicted k → current k (history ++ [e]) = current k history →
        (current k (history ++ [e]) = some a ↔ ∃ before after, history ++ [e] = before ++ .put k a :: after ∧
          (∀ b, Event.put k b ∉ after) ∧ Event.evicted k ∉ after) := by
      intro hput hev hsame
      rw [hsame, ih]
      constructor
      · rintro ⟨before, after, rfl, hputs, hevs⟩
        refine ⟨before, after ++ [e], by rw [List.append_assoc, List.cons_append], fun b hb => ?_, fun hb => ?_⟩
        · rcases List.mem_append.mp hb with hb | hb
          · exact hputs b hb
          · exact hput b (List.mem_singleton.mp hb).symm
        · rcases List.mem_append.mp hb with hb | hb
          · exact hevs hb
          · exact hev (List.mem_singleton.mp hb).symm
      · rintro ⟨before, after, h, hputs, hevs⟩
        rcases List.eq_nil_or_concat after with rfl | ⟨after, e', rfl⟩
        · exact absurd (List.append_inj_right' h rfl) fun heq => hput a (List.cons.inj heq).1
        · rw [List.concat_eq_append, ← List.cons_append, ← List.append_assoc] at h
          obtain ⟨rfl, -⟩ := List.append_inj' h rfl
          rw [List.concat_eq_append] at hputs hevs
          exact ⟨before, after, rfl, fun b hb => hputs b (List.mem_append_left _ hb),
            fun hb => hevs (List.mem_append_left _ hb)⟩
    cases e with
    | put j b =>
      by_cases hj : j = k
      · subst hj
        rw [current_put, if_pos rfl]
        constructor
        · intro h
          rw [← Option.some.inj h]
          exact ⟨history, [], rfl, fun _ => List.not_mem_nil, List.not_mem_nil⟩
        · rintro ⟨before, after, h, hputs, -⟩
          rcases List.eq_nil_or_concat after with rfl | ⟨after, e', rfl⟩
          · have := List.append_inj_right' h rfl
            rw [(Event.put.inj (List.cons.inj this).1).2]
          · rw [List.concat_eq_append, ← List.cons_append, ← List.append_assoc] at h
            obtain ⟨-, h⟩ := List.append_inj' h rfl
            rw [List.concat_eq_append, ← (List.cons.inj h).1] at hputs
            exact absurd (List.mem_append_right _ List.mem_cons_self) (hputs b)
      · refine hother (fun b' h => hj (Event.put.inj h).1) (fun h => (by cases h)) ?_
        rw [current_put, if_neg hj]
    | evicted j =>
      have hone := @current_evicted _ α _ k [j] history
      rw [List.map_singleton] at hone
      by_cases hj : j = k
      · subst hj
        rw [hone, if_pos List.mem_cons_self]
        constructor
        · intro h
          cases h
        · rintro ⟨before, after, h, -, hevs⟩
          rcases List.eq_nil_or_concat after with rfl | ⟨after, e', rfl⟩
          · exact absurd (List.append_inj_right' h rfl) fun heq => (by cases (List.cons.inj heq).1)
          · rw [List.concat_eq_append, ← List.cons_append, ← List.append_assoc] at h
            obtain ⟨-, h⟩ := List.append_inj' h rfl
            rw [List.concat_eq_append, ← (List.cons.inj h).1] at hevs
            exact absurd (List.mem_append_right _ List.mem_cons_self) hevs
      · refine hother (fun b h => (by cases h)) (fun h => hj (Event.evicted.inj h)) ?_
        rw [hone, if_neg fun h => hj (List.mem_singleton.mp h).symm]

end

end Lru
