import Mathlib.Order.Defs.LinearOrder
import Mathlib.Data.List.Pairwise
import Mathlib.Data.List.Sort

/-!
# Ordered maps

`OrdMap κ α` is a map whose entries are listed by ascending key.  `find?` looks a key up; `update`
inserts or changes the value of one key.  Two maps with the same lookups are the same (`ext_find?`).  `weigh` adds
a weight over the entries; changing one key changes that key's weight (`weigh_update`).  Elements are grouped by a key in a
map to lists (`find?_foldl_push`).
-/

/-- A list of entries with ascending keys. -/
structure OrdMap (κ α : Type) [LinearOrder κ] where
  toList : List (κ × α)
  asc : toList.Pairwise (fun a b => a.1 < b.1)

namespace OrdMap

variable {κ α β : Type} [LinearOrder κ]

def empty : OrdMap κ α := ⟨[], List.Pairwise.nil⟩

instance : EmptyCollection (OrdMap κ α) := ⟨empty⟩

def isEmpty (m : OrdMap κ α) : Bool := m.toList.isEmpty

def len (m : OrdMap κ α) : Nat := m.toList.length

def keys (m : OrdMap κ α) : List κ := m.toList.map Prod.fst

def values (m : OrdMap κ α) : List α := m.toList.map Prod.snd

/-- The value of a key in a list of entries. -/
def lookup (k : κ) : List (κ × α) → Option α
  | [] => none
  | e :: es => if e.1 = k then some e.2 else lookup k es

/-- The value of a key. -/
def find? (m : OrdMap κ α) (k : κ) : Option α := lookup k m.toList

def contains (m : OrdMap κ α) (k : κ) : Bool := (m.find? k).isSome

/-- Puts `f` of the value of `k` (or of none) where `k` belongs. -/
def updateList (k : κ) (f : Option α → α) : List (κ × α) → List (κ × α)
  | [] => [(k, f none)]
  | e :: es =>
    if k < e.1 then (k, f none) :: e :: es
    else if k = e.1 then (k, f (some e.2)) :: es
    else e :: updateList k f es

theorem mem_updateList {k : κ} {f : Option α → α} {es : List (κ × α)} {x : κ × α}
    (h : x ∈ updateList k f es) : x.1 = k ∨ x ∈ es := by
  induction es with
  | nil => exact Or.inl (by rw [List.mem_singleton.mp h])
  | cons e es ih =>
    unfold updateList at h
    split at h
    · rcases List.mem_cons.mp h with rfl | h
      · exact Or.inl rfl
      · exact Or.inr h
    · split at h
      · rcases List.mem_cons.mp h with rfl | h
        · exact Or.inl rfl
        · exact Or.inr (List.mem_cons_of_mem _ h)
      · rcases List.mem_cons.mp h with rfl | h
        · exact Or.inr List.mem_cons_self
        · exact (ih h).imp id (List.mem_cons_of_mem _)

theorem updateList_asc {k : κ} {f : Option α → α} {es : List (κ × α)}
    (h : es.Pairwise (fun a b => a.1 < b.1)) : (updateList k f es).Pairwise (fun a b => a.1 < b.1) := by
  induction es with
  | nil => exact List.pairwise_singleton _ _
  | cons e es ih =>
    obtain ⟨h1, h2⟩ := List.pairwise_cons.mp h
    unfold updateList
    split
    · next hlt =>
      refine List.pairwise_cons.mpr ⟨fun b hb => ?_, h⟩
      rcases List.mem_cons.mp hb with rfl | hb
      · exact hlt
      · exact lt_trans hlt (h1 b hb)
    · next hge =>
      split
      · next heq => exact List.pairwise_cons.mpr ⟨fun b hb => by rw [heq]; exact h1 b hb, h2⟩
      · next hne =>
        refine List.pairwise_cons.mpr ⟨fun b hb => ?_, ih h2⟩
        rcases mem_updateList hb with hb | hb
        · rw [hb]
          exact lt_of_le_of_ne (not_lt.mp hge) (Ne.symm hne)
        · exact h1 b hb

/-- `entry(k)`: the value of `k` becomes `f` of what it was. -/
def update (m : OrdMap κ α) (k : κ) (f : Option α → α) : OrdMap κ α :=
  ⟨updateList k f m.toList, updateList_asc m.asc⟩

/-- The values changed, key by key. -/
def mapValues (f : α → β) (m : OrdMap κ α) : OrdMap κ β :=
  ⟨m.toList.map fun e => (e.1, f e.2), List.pairwise_map.mpr m.asc⟩

/-- `retain`: the entries whose value passes. -/
def retain (p : α → Bool) (m : OrdMap κ α) : OrdMap κ α :=
  ⟨m.toList.filter fun e => p e.2, m.asc.filter _⟩

/-- `remove`: the entries of the other keys. -/
def erase (m : OrdMap κ α) (k : κ) : OrdMap κ α :=
  ⟨m.toList.filter fun e => decide (e.1 ≠ k), m.asc.filter _⟩

/-! ## Lookups -/

@[simp] theorem find?_empty (k : κ) : (∅ : OrdMap κ α).find? k = none := rfl

theorem lookup_eq_some_iff {es : List (κ × α)} (h : es.Pairwise (fun a b => a.1 < b.1)) {k : κ} {a : α} :
    lookup k es = some a ↔ (k, a) ∈ es := by
  induction es with
  | nil => simp [lookup]
  | cons e es ih =>
    obtain ⟨h1, h2⟩ := List.pairwise_cons.mp h
    rw [lookup, List.mem_cons]
    split
    · next hk =>
      constructor
      · intro ha
        exact Or.inl (Prod.ext hk.symm (Option.some.inj ha).symm)
      · rintro (rfl | hmem)
        · rfl
        · exact absurd (h1 _ hmem) (by rw [hk]; exact lt_irrefl _)
    · next hk =>
      rw [ih h2]
      constructor
      · exact Or.inr
      · rintro (rfl | hmem)
        · exact absurd rfl hk
        · exact hmem

theorem find?_eq_some_iff {m : OrdMap κ α} {k : κ} {a : α} : m.find? k = some a ↔ (k, a) ∈ m.toList :=
  lookup_eq_some_iff m.asc

theorem find?_eq_none_iff {m : OrdMap κ α} {k : κ} : m.find? k = none ↔ k ∉ m.keys := by
  constructor
  · intro h hk
    obtain ⟨e, he, rfl⟩ := List.mem_map.mp hk
    have : m.find? e.1 = some e.2 := find?_eq_some_iff.mpr he
    rw [h] at this
    cases this
  · intro h
    cases hf : m.find? k with
    | none => rfl
    | some a => exact absurd (List.mem_map_of_mem (f := Prod.fst) (find?_eq_some_iff.mp hf)) h

theorem mem_keys_iff {m : OrdMap κ α} {k : κ} : k ∈ m.keys ↔ ∃ a, m.find? k = some a := by
  rw [← not_iff_not, ← find?_eq_none_iff, not_exists, Option.eq_none_iff_forall_ne_some]

theorem contains_iff {m : OrdMap κ α} {k : κ} : m.contains k = true ↔ k ∈ m.keys := by
  rw [contains, Option.isSome_iff_exists, mem_keys_iff]

theorem keys_asc (m : OrdMap κ α) : m.keys.Pairwise (· < ·) := List.pairwise_map.mpr m.asc

theorem lookup_updateList {es : List (κ × α)} (h : es.Pairwise (fun a b => a.1 < b.1)) (k : κ)
    (f : Option α → α) (j : κ) :
    lookup j (updateList k f es) = if j = k then some (f (lookup k es)) else lookup j es := by
  induction es with
  | nil =>
    simp only [updateList, lookup, eq_comm (a := j)]
  | cons e es ih =>
    obtain ⟨h1, h2⟩ := List.pairwise_cons.mp h
    unfold updateList
    split
    · next hlt =>
      have hnone : lookup k (e :: es) = none := by
        cases hf : lookup k (e :: es) with
        | none => rfl
        | some a =>
          rcases List.mem_cons.mp ((lookup_eq_some_iff h).mp hf) with rfl | hmem
          · exact absurd hlt (lt_irrefl _)
          · exact absurd (lt_trans hlt (h1 _ hmem)) (lt_irrefl _)
      rw [hnone]
      conv => lhs; rw [lookup]
      simp only [eq_comm (a := j)]
    · split
      · next heq =>
        subst heq
        conv => lhs; rw [lookup]
        conv => rhs; rw [lookup, if_pos rfl]
        by_cases hj : j = e.1
        · rw [if_pos hj.symm, if_pos hj]
        · rw [if_neg (Ne.symm hj), if_neg hj, lookup, if_neg (Ne.symm hj)]
      · next hne =>
        conv => lhs; rw [lookup]
        rw [ih h2]
        conv => rhs; rw [lookup, if_neg (Ne.symm hne)]
        by_cases hj : j = k
        · rw [if_neg (by rw [hj]; exact Ne.symm hne)]
          simp only [hj, if_true]
        · simp only [hj, if_false, lookup]

/-- Searching the entries for a key is a lookup. -/
theorem find?_toList (m : OrdMap κ α) (k : κ) :
    (m.toList.find? fun e => e.1 == k) = (m.find? k).map fun a => (k, a) := by
  have h : ∀ es : List (κ × α), (es.find? fun e => e.1 == k) = (lookup k es).map fun a => (k, a) := by
    intro es
    induction es with
    | nil => rfl
    | cons e es ih =>
      rw [lookup]
      split
      · next hk =>
        rw [List.find?_cons_of_pos (by simpa using hk)]
        simp [← hk]
      · next hk => rw [List.find?_cons_of_neg (by simpa using hk), ih]
  exact h m.toList

theorem keys_nodup (m : OrdMap κ α) : m.keys.Nodup := m.keys_asc.imp fun h => ne_of_lt h

/-- Changing one key. -/
theorem find?_update (m : OrdMap κ α) (k : κ) (f : Option α → α) (j : κ) :
    (m.update k f).find? j = if j = k then some (f (m.find? k)) else m.find? j :=
  lookup_updateList m.asc k f j

theorem lookup_map (f : α → β) (k : κ) (es : List (κ × α)) :
    lookup k (es.map fun e => (e.1, f e.2)) = (lookup k es).map f := by
  induction es with
  | nil => rfl
  | cons e es ih =>
    simp only [List.map_cons, lookup]
    split
    · rfl
    · exact ih

/-- What changing values does to lookups. -/
theorem find?_mapValues (f : α → β) (m : OrdMap κ α) (k : κ) : (m.mapValues f).find? k = (m.find? k).map f :=
  lookup_map f k m.toList

theorem find?_retain (p : α → Bool) (m : OrdMap κ α) (k : κ) :
    (m.retain p).find? k = (m.find? k).filter p := by
  rw [Option.ext_iff]
  intro a
  rw [Option.filter_eq_some_iff, find?_eq_some_iff, find?_eq_some_iff, retain, List.mem_filter]

/-- A key past all others goes to the end. -/
theorem toList_update_last {m : OrdMap κ α} {k : κ} (f : Option α → α) (h : ∀ e ∈ m.toList, e.1 < k) :
    (m.update k f).toList = m.toList ++ [(k, f none)] := by
  show updateList k f m.toList = _
  generalize m.toList = es at h
  induction es with
  | nil => rfl
  | cons e es ih =>
    have he := h e List.mem_cons_self
    unfold updateList
    rw [if_neg (not_lt_of_gt he), if_neg (ne_of_gt he), ih fun x hx => h x (List.mem_cons_of_mem _ hx)]
    rfl

theorem keys_update_subset {m : OrdMap κ α} {k : κ} {f : Option α → α} {j : κ} :
    j ∈ (m.update k f).keys ↔ j = k ∨ j ∈ m.keys := by
  rw [mem_keys_iff, find?_update]
  by_cases hj : j = k
  · simp [hj]
  · simp [hj, mem_keys_iff]

/-- Maps with the same lookups have the same entries. -/
theorem ext_find? {m n : OrdMap κ α} (h : ∀ k, m.find? k = n.find? k) : m = n := by
  have hmem : ∀ x : κ × α, x ∈ m.toList ↔ x ∈ n.toList := fun x => by
    rw [← find?_eq_some_iff, ← find?_eq_some_iff, h]
  obtain ⟨es, hes⟩ := m
  obtain ⟨fs, hfs⟩ := n
  congr
  refine @List.Perm.eq_of_pairwise _ (fun a b => a.1 < b.1) _ _ ?_ hes hfs ?_
  · intro a b _ _ hab hba
    exact absurd (lt_trans hab hba) (lt_irrefl _)
  · have hnd : ∀ {l : List (κ × α)}, l.Pairwise (fun a b => a.1 < b.1) → l.Nodup := fun hl =>
      hl.imp fun hlt heq => absurd hlt (by rw [heq]; exact lt_irrefl _)
    exact (List.perm_ext_iff_of_nodup (hnd hes) (hnd hfs)).mpr hmem

/-! ## Weights -/

/-- The weights of the entries, added up. -/
def weighList (w : κ → α → Nat) : List (κ × α) → Nat
  | [] => 0
  | e :: es => w e.1 e.2 + weighList w es

/-- The weight of a map. -/
def weigh (w : κ → α → Nat) (m : OrdMap κ α) : Nat := weighList w m.toList

omit [LinearOrder κ] in
theorem weighList_const (c : Nat) (es : List (κ × α)) : weighList (fun _ _ => c) es = c * es.length := by
  induction es with
  | nil => rfl
  | cons e es ih => rw [weighList, ih, List.length_cons, Nat.mul_succ, Nat.add_comm]

/-- The number of entries is the weight that counts each once. -/
theorem len_eq_weigh (m : OrdMap κ α) : m.len = weigh (fun _ _ => 1) m := by
  unfold weigh
  rw [weighList_const, Nat.one_mul]
  rfl

omit [LinearOrder κ] in
theorem weighList_add (v w : κ → α → Nat) (es : List (κ × α)) :
    weighList (fun k a => v k a + w k a) es = weighList v es + weighList w es := by
  induction es with
  | nil => rfl
  | cons e es ih =>
    simp only [weighList, ih]
    omega

omit [LinearOrder κ] in
theorem weighList_mul (c : Nat) (w : κ → α → Nat) (es : List (κ × α)) :
    weighList (fun k a => c * w k a) es = c * weighList w es := by
  induction es with
  | nil => rfl
  | cons e es ih => simp only [weighList, ih, Nat.mul_add]

theorem lookup_eq_none_of_lt {es : List (κ × α)} {k : κ} (h : ∀ e ∈ es, k < e.1) : lookup k es = none := by
  induction es with
  | nil => rfl
  | cons e es ih =>
    have hne : e.1 ≠ k := ne_of_gt (h e List.mem_cons_self)
    rw [lookup, if_neg hne]
    exact ih fun x hx => h x (List.mem_cons_of_mem _ hx)

theorem weighList_updateList (w : κ → α → Nat) (k : κ) (f : Option α → α) {es : List (κ × α)}
    (h : es.Pairwise (fun a b => a.1 < b.1)) :
    weighList w (updateList k f es) + (lookup k es).elim 0 (w k) = weighList w es + w k (f (lookup k es)) := by
  induction es with
  | nil =>
    simp only [updateList, lookup, weighList, Option.elim]
    omega
  | cons e es ih =>
    obtain ⟨h1, h2⟩ := List.pairwise_cons.mp h
    unfold updateList
    split
    · next hlt =>
      have hnone : lookup k (e :: es) = none := by
        apply lookup_eq_none_of_lt
        intro x hx
        rcases List.mem_cons.mp hx with rfl | hx
        · exact hlt
        · exact lt_trans hlt (h1 x hx)
      simp only [hnone, weighList, Option.elim]
      omega
    · split
      · next heq =>
        subst heq
        simp only [weighList, lookup, if_true, Option.elim]
        omega
      · next hne =>
        rw [lookup, if_neg (Ne.symm hne)]
        have := ih h2
        simp only [weighList]
        omega

/-- Changing one key takes its old weight off and puts the new one on. -/
theorem weigh_update (w : κ → α → Nat) (m : OrdMap κ α) (k : κ) (f : Option α → α) :
    weigh w (m.update k f) + (m.find? k).elim 0 (w k) = weigh w m + w k (f (m.find? k)) :=
  weighList_updateList w k f m.asc

/-- A key more, or none. -/
theorem len_update (m : OrdMap κ α) (k : κ) (f : Option α → α) :
    (m.update k f).len = m.len + if m.contains k then 0 else 1 := by
  have h := weigh_update (fun _ _ => 1) m k f
  rw [← len_eq_weigh, ← len_eq_weigh] at h
  unfold contains
  cases hf : m.find? k with
  | none =>
    rw [hf] at h
    simpa using h
  | some a =>
    rw [hf] at h
    simpa using h

/-! ## Grouping by key -/

/-- The lists of a grouping: that of a key has what its elements add to it, in their order. -/
theorem find?_foldl_push {ι : Type} (key : ι → κ) (items : ι → List β) :
    ∀ (xs : List ι) (m : OrdMap κ (List β)) (k : κ),
      (xs.foldl (fun m x => m.update (key x) fun old => old.getD [] ++ items x) m).find? k =
        if k ∈ xs.map key then some ((m.find? k).getD [] ++ (xs.filter fun x => key x = k).flatMap items)
        else m.find? k
  | [], m, k => by simp
  | x :: xs, m, k => by
    rw [List.foldl_cons, find?_foldl_push key items xs, find?_update]
    by_cases hk : k = key x
    · subst hk
      rw [if_pos rfl, Option.getD_some, List.filter_cons_of_pos (by simp), List.flatMap_cons, List.map_cons,
        if_pos List.mem_cons_self]
      split
      · rw [List.append_assoc]
      · next hnot =>
        have hnil : (xs.filter fun y => decide (key y = key x)) = [] := by
          refine List.filter_eq_nil_iff.mpr fun y hy hyx => hnot ?_
          exact List.mem_map.mpr ⟨y, hy, of_decide_eq_true hyx⟩
        rw [hnil, List.flatMap_nil, List.append_nil]
    · have hne : ¬ key x = k := fun h => hk h.symm
      rw [if_neg hk, List.filter_cons_of_neg (by simpa using hne), List.map_cons]
      simp only [List.mem_cons, hk, false_or]

/-- Each list of a grouping is that of an element's key. -/
theorem mem_values_foldl_push {ι : Type} (key : ι → κ) (items : ι → List β) {xs : List ι} {ys : List β} :
    ys ∈ (xs.foldl (fun m x => m.update (key x) fun old => old.getD [] ++ items x) (∅ : OrdMap κ (List β))).values ↔
      ∃ x ∈ xs, (xs.filter fun y => key y = key x).flatMap items = ys := by
  have hfind := fun k => find?_foldl_push key items xs (∅ : OrdMap κ (List β)) k
  simp only [find?_empty, Option.getD_none, List.nil_append] at hfind
  constructor
  · intro h
    obtain ⟨e, he, rfl⟩ := List.mem_map.mp h
    have hmem := find?_eq_some_iff.mpr (show (e.1, e.2) ∈ _ from he)
    rw [hfind] at hmem
    split at hmem
    · next hk =>
      obtain ⟨x, hx, hxk⟩ := List.mem_map.mp hk
      refine ⟨x, hx, ?_⟩
      rw [hxk]
      exact Option.some.inj hmem
    · cases hmem
  · rintro ⟨x, hx, rfl⟩
    have hmem := hfind (key x)
    rw [if_pos (List.mem_map_of_mem hx)] at hmem
    exact List.mem_map.mpr ⟨_, find?_eq_some_iff.mp hmem, rfl⟩

end OrdMap
