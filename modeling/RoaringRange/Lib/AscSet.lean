import Mathlib.Data.List.Sort
import Mathlib.Data.Set.Basic

/-!
# Finite sets as strictly ascending lists

`AscSet p` is a finite set of values satisfying `p`, held as the strictly ascending list of its
members; the order and `p` are fields, so every set built is a good one.  Two sets with the same
members are equal (`AscSet.ext_mem`), and the operations are characterised by their members.

Reading a set in order is reading its list.  The fact used for that: a part of the set that is
closed downwards is a first segment of the list (`toList_filter_append`), so a set can be read
off part by part, each part in order.
-/

/-- A finite set of `p`-values, as its ascending list. -/
structure AscSet {α : Type*} [LinearOrder α] (p : α → Prop) where
  toList : List α
  asc : toList.Pairwise (· < ·)
  all : ∀ x ∈ toList, p x

namespace AscSet

variable {α : Type*} [LinearOrder α] {p : α → Prop}

instance : Membership α (AscSet p) := ⟨fun s x => x ∈ s.toList⟩

theorem mem_def {s : AscSet p} {x : α} : x ∈ s ↔ x ∈ s.toList := Iff.rfl

@[simp] theorem mem_toList {s : AscSet p} {x : α} : x ∈ s.toList ↔ x ∈ s := Iff.rfl

instance (s : AscSet p) (x : α) : Decidable (x ∈ s) := inferInstanceAs (Decidable (x ∈ s.toList))

@[ext] theorem ext {s t : AscSet p} (h : s.toList = t.toList) : s = t := by
  cases s
  cases t
  simp_all

instance : DecidableEq (AscSet p) := fun _ _ => decidable_of_iff _ ⟨ext, congrArg toList⟩

theorem ext_mem {s t : AscSet p} (h : ∀ x, x ∈ s ↔ x ∈ t) : s = t :=
  ext (s.asc.eq_of_mem_iff t.asc fun {x} => h x)

theorem nodup (s : AscSet p) : s.toList.Nodup := s.asc.imp fun h => ne_of_lt h

theorem property {s : AscSet p} {x : α} (h : x ∈ s) : p x := s.all x h

/-! ## Size -/

def len (s : AscSet p) : Nat := s.toList.length

def isEmpty (s : AscSet p) : Bool := s.toList.isEmpty

instance : EmptyCollection (AscSet p) := ⟨⟨[], List.Pairwise.nil, by simp⟩⟩

instance : Inhabited (AscSet p) := ⟨∅⟩

@[simp] theorem toList_empty : (∅ : AscSet p).toList = [] := rfl

@[simp] theorem not_mem_empty (x : α) : x ∉ (∅ : AscSet p) := by
  simp [mem_def]

theorem isEmpty_iff {s : AscSet p} : s.isEmpty = true ↔ s = ∅ := by
  rw [isEmpty, List.isEmpty_iff]
  exact ⟨fun h => ext h, fun h => by rw [h]; rfl⟩

theorem isEmpty_iff_forall {s : AscSet p} : s.isEmpty = true ↔ ∀ x, x ∉ s := by
  rw [isEmpty, List.isEmpty_iff, List.eq_nil_iff_forall_not_mem]
  rfl

theorem isEmpty_eq_false {s : AscSet p} : s.isEmpty = false ↔ ∃ x, x ∈ s := by
  rw [← Bool.not_eq_true, isEmpty_iff_forall]
  simp only [not_forall, not_not]

@[simp] theorem len_empty : (∅ : AscSet p).len = 0 := rfl

theorem len_eq_zero {s : AscSet p} : s.len = 0 ↔ s = ∅ := by
  rw [len, List.length_eq_zero_iff]
  exact ⟨fun h => ext h, fun h => by rw [h]; rfl⟩

/-! ## Selecting members -/

def filter (s : AscSet p) (q : α → Bool) : AscSet p where
  toList := s.toList.filter q
  asc := s.asc.filter q
  all x hx := s.all x (List.mem_filter.mp hx).1

@[simp] theorem mem_filter {s : AscSet p} {q : α → Bool} {x : α} :
    x ∈ s.filter q ↔ x ∈ s ∧ q x = true := List.mem_filter

theorem toList_filter (s : AscSet p) (q : α → Bool) :
    (s.filter q).toList = s.toList.filter q := rfl

theorem filter_true (s : AscSet p) : s.filter (fun _ => true) = s := ext_mem (by simp)

theorem filter_congr {s : AscSet p} {q r : α → Bool} (h : ∀ x ∈ s, q x = r x) :
    s.filter q = s.filter r := by
  refine ext_mem fun x => ?_
  simp only [mem_filter]
  constructor <;> rintro ⟨hx, hq⟩
  · exact ⟨hx, by rw [← h x hx, hq]⟩
  · exact ⟨hx, by rw [h x hx, hq]⟩

instance : Inter (AscSet p) := ⟨fun s t => s.filter (fun x => decide (x ∈ t))⟩

instance : SDiff (AscSet p) := ⟨fun s t => s.filter (fun x => !decide (x ∈ t))⟩

@[simp] theorem mem_inter {s t : AscSet p} {x : α} : x ∈ s ∩ t ↔ x ∈ s ∧ x ∈ t := by
  show x ∈ s.filter _ ↔ _
  simp

@[simp] theorem mem_sdiff {s t : AscSet p} {x : α} : x ∈ s \ t ↔ x ∈ s ∧ x ∉ t := by
  show x ∈ s.filter _ ↔ _
  simp

/-! ## Adding members -/

/-- Puts `x` in its place in an ascending list. -/
def insertAsc (x : α) : List α → List α
  | [] => [x]
  | y :: ys => if x < y then x :: y :: ys else if x = y then y :: ys else y :: insertAsc x ys

theorem mem_insertAsc {x y : α} {l : List α} : y ∈ insertAsc x l ↔ y = x ∨ y ∈ l := by
  induction l with
  | nil => simp [insertAsc]
  | cons z zs ih =>
    unfold insertAsc
    split
    · simp
    split
    · next h =>
      subst h
      simp
    · simp only [List.mem_cons, ih]
      tauto

theorem insertAsc_asc {x : α} {l : List α} (h : l.Pairwise (· < ·)) :
    (insertAsc x l).Pairwise (· < ·) := by
  induction l with
  | nil => simp [insertAsc]
  | cons z zs ih =>
    rw [List.pairwise_cons] at h
    unfold insertAsc
    split
    · next hxz =>
      refine List.Pairwise.cons ?_ (List.Pairwise.cons h.1 h.2)
      intro y hy
      rcases List.mem_cons.mp hy with rfl | hy
      · exact hxz
      · exact lt_trans hxz (h.1 y hy)
    split
    · exact List.Pairwise.cons h.1 h.2
    · next h1 h2 =>
      refine List.Pairwise.cons ?_ (ih h.2)
      intro y hy
      rcases mem_insertAsc.mp hy with rfl | hy
      · exact lt_of_le_of_ne (not_lt.mp h1) (Ne.symm h2)
      · exact h.1 y hy

def insert (s : AscSet p) (x : α) (hx : p x) : AscSet p where
  toList := insertAsc x s.toList
  asc := insertAsc_asc s.asc
  all y hy := by
    rcases mem_insertAsc.mp hy with rfl | hy
    · exact hx
    · exact s.all y hy

@[simp] theorem mem_insert {s : AscSet p} {x y : α} (hx : p x) :
    y ∈ s.insert x hx ↔ y = x ∨ y ∈ s := mem_insertAsc

theorem length_insertAsc {x : α} {l : List α} (h : l.Pairwise (· < ·)) :
    (insertAsc x l).length = l.length + if x ∈ l then 0 else 1 := by
  induction l with
  | nil => simp [insertAsc]
  | cons y ys ih =>
    rw [List.pairwise_cons] at h
    unfold insertAsc
    split
    · next hxy =>
      have hnot : x ∉ y :: ys := by
        intro hx
        rcases List.mem_cons.mp hx with rfl | hx
        · exact absurd hxy (lt_irrefl _)
        · exact absurd (lt_trans hxy (h.1 x hx)) (lt_irrefl _)
      rw [if_neg hnot, List.length_cons]
    split
    · next heq => rw [if_pos (by rw [heq]; exact List.mem_cons_self), Nat.add_zero]
    · next hne =>
      have hiff : x ∈ y :: ys ↔ x ∈ ys := by
        rw [List.mem_cons]
        exact or_iff_right hne
      simp only [List.length_cons, ih h.2, hiff]
      omega

/-- An element more, or none. -/
theorem len_insert (s : AscSet p) {x : α} (hx : p x) [Decidable (x ∈ s)] :
    (s.insert x hx).len = s.len + if x ∈ s then 0 else 1 := by
  have h := length_insertAsc (x := x) s.asc
  unfold len insert
  rw [h]
  simp only [mem_toList]

theorem mem_foldr_insertAsc {xs l : List α} {y : α} :
    y ∈ xs.foldr insertAsc l ↔ y ∈ xs ∨ y ∈ l := by
  induction xs with
  | nil => simp
  | cons x xs ih => rw [List.foldr_cons, mem_insertAsc, ih, List.mem_cons, or_assoc]

theorem foldr_insertAsc_asc {xs l : List α} (h : l.Pairwise (· < ·)) :
    (xs.foldr insertAsc l).Pairwise (· < ·) := by
  induction xs with
  | nil => exact h
  | cons x xs ih => exact insertAsc_asc ih

/-- The set of a list's values, in any order and with repetitions. -/
def ofList (xs : List α) (h : ∀ x ∈ xs, p x) : AscSet p where
  toList := xs.foldr insertAsc []
  asc := foldr_insertAsc_asc List.Pairwise.nil
  all x hx := h x (by simpa using mem_foldr_insertAsc.mp hx)

@[simp] theorem mem_ofList {xs : List α} {h : ∀ x ∈ xs, p x} {x : α} :
    x ∈ ofList xs h ↔ x ∈ xs := by
  show x ∈ xs.foldr insertAsc [] ↔ _
  simp [mem_foldr_insertAsc]

instance : Union (AscSet p) := ⟨fun s t =>
  { toList := s.toList.foldr insertAsc t.toList
    asc := foldr_insertAsc_asc t.asc
    all := fun x hx => (mem_foldr_insertAsc.mp hx).elim (s.all x) (t.all x) }⟩

@[simp] theorem mem_union {s t : AscSet p} {x : α} : x ∈ s ∪ t ↔ x ∈ s ∨ x ∈ t :=
  mem_foldr_insertAsc

/-! ## Many sets -/

/-- The union of a list of sets. -/
def unions (ss : List (AscSet p)) : AscSet p := ss.foldl (· ∪ ·) ∅

theorem mem_foldl_union {ss : List (AscSet p)} {s : AscSet p} {x : α} :
    x ∈ ss.foldl (· ∪ ·) s ↔ x ∈ s ∨ ∃ t ∈ ss, x ∈ t := by
  induction ss generalizing s with
  | nil => simp
  | cons t ts ih =>
    rw [List.foldl_cons, ih, mem_union, List.exists_mem_cons_iff, or_assoc]

@[simp] theorem mem_unions {ss : List (AscSet p)} {x : α} : x ∈ unions ss ↔ ∃ t ∈ ss, x ∈ t := by
  simp [unions, mem_foldl_union]

/-- Intersects `acc` with one set after the other, stopping as soon as nothing is left. -/
def interAll (acc : AscSet p) : List (AscSet p) → AscSet p
  | [] => acc
  | s :: ss =>
    let acc' := acc ∩ s
    if acc'.isEmpty then acc' else interAll acc' ss

theorem mem_interAll {ss : List (AscSet p)} {acc : AscSet p} {x : α} :
    x ∈ interAll acc ss ↔ x ∈ acc ∧ ∀ s ∈ ss, x ∈ s := by
  induction ss generalizing acc with
  | nil => simp [interAll]
  | cons s ss ih =>
    simp only [interAll, List.forall_mem_cons]
    split
    · next h =>
      have hno := isEmpty_iff_forall.mp h x
      rw [mem_inter] at hno
      rw [mem_inter]
      tauto
    · rw [ih, mem_inter, and_assoc]

/-- What a list of sets has in common (nothing when there is no set). -/
def inters : List (AscSet p) → AscSet p
  | [] => ∅
  | s :: ss => interAll s ss

theorem mem_inters {ss : List (AscSet p)} (h : ss ≠ []) {x : α} :
    x ∈ inters ss ↔ ∀ s ∈ ss, x ∈ s := by
  cases ss with
  | nil => exact absurd rfl h
  | cons s ss => rw [inters, mem_interAll, List.forall_mem_cons]

/-- Intersecting all of them into one of them. -/
theorem interAll_mem {ss : List (AscSet p)} {s : AscSet p} (hs : s ∈ ss) : interAll s ss = inters ss := by
  refine ext_mem fun x => ?_
  rw [mem_interAll, mem_inters (List.ne_nil_of_mem hs)]
  exact ⟨fun h => h.2, fun h => ⟨h s hs, h⟩⟩

/-- Only which sets are intersected matters, not their order. -/
theorem inters_congr {ss ts : List (AscSet p)} (h : ∀ s, s ∈ ss ↔ s ∈ ts) : inters ss = inters ts := by
  cases ss with
  | nil =>
    cases ts with
    | nil => rfl
    | cons t ts => exact absurd ((h t).mpr (by simp)) (by simp)
  | cons s ss =>
    have hts : ts ≠ [] := List.ne_nil_of_mem ((h s).mp (by simp))
    refine ext_mem fun x => ?_
    rw [mem_inters (by simp), mem_inters hts]
    exact forall_congr' fun t => imp_congr_left (h t)

/-- Sets in order of size, the smaller of two first (equal sizes keep their order). -/
def sortByLen (ss : List (AscSet p)) : List (AscSet p) :=
  ss.insertionSort (fun s t => s.len ≤ t.len)

@[simp] theorem mem_sortByLen {ss : List (AscSet p)} {s : AscSet p} :
    s ∈ sortByLen ss ↔ s ∈ ss := List.mem_insertionSort _

@[simp] theorem inters_sortByLen (ss : List (AscSet p)) : inters (sortByLen ss) = inters ss :=
  inters_congr fun _ => mem_sortByLen

theorem sortByLen_eq_nil {ss : List (AscSet p)} : sortByLen ss = [] ↔ ss = [] := by
  rw [← List.length_eq_zero_iff, sortByLen, List.length_insertionSort, List.length_eq_zero_iff]

/-! ## Reading a set in order -/

/-- The members for which a downward closed `q` holds come first. -/
theorem filter_append_filter_not {l : List α} (h : l.Pairwise (· < ·)) (q : α → Bool)
    (hq : ∀ x ∈ l, ∀ y ∈ l, x < y → q y = true → q x = true) :
    l.filter q ++ l.filter (fun x => !q x) = l := by
  induction l with
  | nil => rfl
  | cons x xs ih =>
    rw [List.pairwise_cons] at h
    have ih' := ih h.2 fun y hy z hz => hq y (List.mem_cons_of_mem _ hy) z (List.mem_cons_of_mem _ hz)
    by_cases hx : q x = true
    · simp only [List.filter_cons, hx, if_true, Bool.not_true, List.cons_append]
      simpa using ih'
    · have hnone : xs.filter q = [] := by
        rw [List.filter_eq_nil_iff]
        intro y hy hqy
        exact hx (hq x (by simp) y (List.mem_cons_of_mem _ hy) (h.1 y hy) hqy)
      rw [hnone] at ih'
      simp only [List.filter_cons, hx, hnone, Bool.not_false, if_true]
      simpa using ih'

theorem toList_filter_append (s : AscSet p) (q : α → Bool)
    (hq : ∀ x ∈ s, ∀ y ∈ s, x < y → q y = true → q x = true) :
    (s.filter q).toList ++ (s.filter (fun x => !q x)).toList = s.toList :=
  filter_append_filter_not s.asc q hq

/-- Two ascending lists, all of the first below all of the second. -/
theorem toList_append {s t u : AscSet p} (hlt : ∀ x ∈ s, ∀ y ∈ t, x < y)
    (hu : ∀ x, x ∈ u ↔ x ∈ s ∨ x ∈ t) : s.toList ++ t.toList = u.toList := by
  refine List.Pairwise.eq_of_mem_iff (r := (· < ·)) ?_ u.asc ?_
  · exact List.pairwise_append.mpr ⟨s.asc, t.asc, hlt⟩
  · intro x
    rw [List.mem_append]
    exact (hu x).symm

theorem len_le_of_subset {s t : AscSet p} (h : ∀ x ∈ s, x ∈ t) : s.len ≤ t.len :=
  (List.subperm_of_subset s.nodup h).length_le

/-! ## Windows of a set -/

section

variable {s : AscSet p} {pre win post : List α} {a b : α}

theorem between_ends (hwin : win.Pairwise (· < ·)) (ha : a ∈ win.head?) (hb : b ∈ win.getLast?) :
    ∀ x ∈ win, a ≤ x ∧ x ≤ b := by
  intro x hx
  constructor
  · obtain ⟨rest, rfl⟩ := List.head?_eq_some_iff.mp ha
    rcases List.mem_cons.mp hx with rfl | hx
    · exact le_refl _
    · exact le_of_lt (List.rel_of_pairwise_cons hwin hx)
  · obtain ⟨front, rfl⟩ := List.getLast?_eq_some_iff.mp hb
    rcases List.mem_append.mp hx with hx | hx
    · exact le_of_lt ((List.pairwise_append.mp hwin).2.2 x hx b (List.mem_singleton_self b))
    · exact le_of_eq (List.mem_singleton.mp hx)

/-- A piece of an ascending list has what is between its ends, and what is before it is less. -/
theorem window_spec (h : s.toList = pre ++ (win ++ post)) (ha : a ∈ win.head?) (hb : b ∈ win.getLast?) :
    (s.filter fun x => decide (x < a)).len = pre.length ∧ ∀ x, a ≤ x → x ≤ b → (x ∈ s ↔ x ∈ win) := by
  have hasc := s.asc
  rw [h, List.pairwise_append, List.pairwise_append] at hasc
  obtain ⟨-, ⟨hwin, -, hpost⟩, hpre⟩ := hasc
  have hlast : b ∈ win := List.mem_of_getLast? hb
  have hbefore : ∀ x ∈ pre, x < a := fun x hx => hpre x hx a (List.mem_append_left _ (List.mem_of_head? ha))
  constructor
  · have hnone : (win ++ post).filter (fun x => decide (x < a)) = [] := by
      rw [List.filter_eq_nil_iff]
      intro x hx
      rw [decide_eq_true_eq, not_lt]
      rcases List.mem_append.mp hx with hx | hx
      · exact (between_ends hwin ha hb x hx).1
      · exact le_of_lt (lt_of_le_of_lt (between_ends hwin ha hb b hlast).1 (hpost b hlast x hx))
    rw [len, toList_filter, h, List.filter_append, hnone, List.append_nil,
      List.filter_eq_self.mpr fun x hx => decide_eq_true (hbefore x hx)]
  · intro x hax hxb
    rw [mem_def, h, List.mem_append, List.mem_append]
    constructor
    · rintro (hx | hx | hx)
      · exact absurd (hbefore x hx) (not_lt.mpr hax)
      · exact hx
      · exact absurd (hpost b hlast x hx) (not_lt.mpr hxb)
    · exact fun hx => Or.inr (Or.inl hx)

/-- What is between two ends is the piece of the list behind what is less. -/
theorem window_eq (hwin : win.Pairwise (· < ·)) (hends : ∀ x ∈ win, a ≤ x ∧ x ≤ b)
    (hmem : ∀ x, a ≤ x → x ≤ b → (x ∈ s ↔ x ∈ win)) :
    (s.toList.drop (s.filter fun x => decide (x < a)).len).take win.length = win := by
  have hbelow := s.toList_filter_append (fun x => decide (x < a)) fun x _ y _ hxy hy =>
    decide_eq_true (lt_trans hxy (of_decide_eq_true hy))
  have hrest := (s.filter fun x => !decide (x < a)).toList_filter_append (fun x => decide (x ≤ b)) fun x _ y _ hxy hy =>
    decide_eq_true (le_trans (le_of_lt hxy) (of_decide_eq_true hy))
  have hbetween : ((s.filter fun x => !decide (x < a)).filter fun x => decide (x ≤ b)).toList = win := by
    refine List.Pairwise.eq_of_mem_iff (r := (· < ·)) (AscSet.asc _) hwin fun {x} => ?_
    simp only [mem_toList, mem_filter, Bool.not_eq_true', decide_eq_false_iff_not, not_lt, decide_eq_true_eq]
    constructor
    · rintro ⟨⟨hx, hax⟩, hxb⟩
      exact (hmem x hax hxb).mp hx
    · intro hx
      obtain ⟨hax, hxb⟩ := hends x hx
      exact ⟨⟨(hmem x hax hxb).mpr hx, hax⟩, hxb⟩
  rw [← hbelow, ← hrest, hbetween, len, List.drop_left, List.take_left]

end

end AscSet
