import RoaringRange.Bitmap

/-!
# Docs in at least `t` of the postings (`index.rs`, `threshold`)

`matching sets t` is the set of docs that lie in at least `t` of `sets`.  `threshold` computes it with
shortcuts for one posting and for all of them, and otherwise with cascading counters: after some
postings, counter `k` holds the docs seen in at least `k` of them.

    1 ≤ t ≤ sets.length → (threshold sets t).getD ∅ = matching sets t          (threshold_eq)
-/

namespace RoaringRange

/-- How many of the sets hold the doc. -/
def hits (sets : List Bitmap) (d : Nat) : Nat := sets.countP fun S => decide (d ∈ S)

/-- The docs in at least `t` of the sets. -/
def matching (sets : List Bitmap) (t : Nat) : Bitmap :=
  (AscSet.unions sets).filter fun d => decide (t ≤ hits sets d)

theorem mem_matching {sets : List Bitmap} {t d : Nat} (ht : 1 ≤ t) :
    d ∈ matching sets t ↔ t ≤ hits sets d := by
  rw [matching, AscSet.mem_filter, AscSet.mem_unions, decide_eq_true_eq, and_iff_right_iff_imp]
  intro h
  have hpos : 0 < hits sets d := by omega
  obtain ⟨S, hS, hd⟩ := List.countP_pos_iff.mp hpos
  exact ⟨S, hS, of_decide_eq_true hd⟩

theorem hits_le_length (sets : List Bitmap) (d : Nat) : hits sets d ≤ sets.length :=
  List.countP_le_length

/-- All of them is the intersection. -/
theorem matching_length {sets : List Bitmap} (hne : sets ≠ []) :
    matching sets sets.length = AscSet.inters sets := by
  refine AscSet.ext_mem fun d => ?_
  have hpos := List.length_pos_iff.mpr hne
  rw [mem_matching hpos, AscSet.mem_inters hne]
  have hle := hits_le_length sets d
  constructor
  · intro h S hS
    have : hits sets d = sets.length := by omega
    exact of_decide_eq_true (List.countP_eq_length.mp this S hS)
  · intro h
    exact Nat.le_of_eq (List.countP_eq_length.mpr fun S hS => decide_eq_true (h S hS)).symm

/-! ## Algorithm -/

/-- One posting's pass over the counters `c[0..=t]`, from `c[k]` down to `c[1]`. -/
def bumpCounters (b : Bitmap) : Nat → List Bitmap → List Bitmap
  | 0, c => c
  | k + 1, c =>
    let c' :=
      if k = 0 then c.set 1 (c.getD 1 ∅ ∪ b)
      else c.set (k + 1) (c.getD (k + 1) ∅ ∪ (c.getD k ∅ ∩ b))
    bumpCounters b k c'

/-- `index::threshold`. -/
def threshold (bitmaps : List Bitmap) (minMatch : Nat) : Option Bitmap :=
  let n := bitmaps.length
  if n = 0 ∨ minMatch = 0 ∨ n < minMatch then none
  else if minMatch = 1 then
    let acc := AscSet.unions bitmaps
    if acc.isEmpty then none else some acc
  else if minMatch = n then
    let acc := AscSet.inters (AscSet.sortByLen bitmaps)
    if acc.isEmpty then none else some acc
  else
    let c := bitmaps.foldl (fun c b => bumpCounters b minMatch c) (List.replicate (minMatch + 1) ∅)
    let res := c.getD minMatch ∅
    if res.isEmpty then none else some res

/-! ## Lemmas -/

/-- The counters after the postings `seen`: `c[k]` holds the docs in at least `k` of them. -/
def Counts (seen : List Bitmap) (t : Nat) (c : List Bitmap) : Prop :=
  c.length = t + 1 ∧ ∀ k, 1 ≤ k → k ≤ t → ∀ d, d ∈ c.getD k ∅ ↔ k ≤ hits seen d

/-- While a posting is passed down from `c[t]`, the counters above `k` are already those after it and
the others still those before it. -/
theorem bumpCounters_spec {seen : List Bitmap} {b : Bitmap} {t : Nat} :
    ∀ (k : Nat) (c : List Bitmap), k ≤ t → c.length = t + 1 →
      (∀ j, k < j → j ≤ t → ∀ d, d ∈ c.getD j ∅ ↔ j ≤ hits (seen ++ [b]) d) →
      (∀ j, 1 ≤ j → j ≤ k → ∀ d, d ∈ c.getD j ∅ ↔ j ≤ hits seen d) →
      Counts (seen ++ [b]) t (bumpCounters b k c)
  | 0, c, _, hlen, habove, _ => ⟨hlen, fun j hj hjt d => habove j (by omega) hjt d⟩
  | k + 1, c, hk, hlen, habove, hbelow => by
    have hhits : ∀ d, hits (seen ++ [b]) d = hits seen d + if d ∈ b then 1 else 0 := by
      intro d
      by_cases hd : d ∈ b <;> simp [hits, hd]
    have hset : ∀ (X : Bitmap) (j : Nat), j ≤ t →
        (c.set (k + 1) X).getD j ∅ = if j = k + 1 then X else c.getD j ∅ := by
      intro X j hj
      by_cases hjk : j = k + 1
      · subst hjk
        simp [List.getD_eq_getElem?_getD, List.getElem?_set_self (by omega : k + 1 < c.length)]
      · simp [List.getD_eq_getElem?_getD, List.getElem?_set_ne (Ne.symm hjk), hjk]
    -- whichever way counter `k + 1` is updated, it becomes the one after `b`
    have hstep : ∀ X : Bitmap, (∀ d, d ∈ X ↔ k + 1 ≤ hits (seen ++ [b]) d) →
        Counts (seen ++ [b]) t (bumpCounters b k (c.set (k + 1) X)) := by
      intro X hX
      refine bumpCounters_spec k _ (by omega) (by simpa using hlen) (fun j hj hjt d => ?_)
        fun j hj hjk d => ?_
      · rw [hset X j hjt]
        split
        · next hjk =>
          subst hjk
          exact hX d
        · exact habove j (by omega) hjt d
      · rw [hset X j (by omega), if_neg (by omega)]
        exact hbelow j hj (by omega) d
    unfold bumpCounters
    simp only
    split
    · next hk0 =>
      subst hk0
      refine hstep _ fun d => ?_
      rw [AscSet.mem_union, hbelow 1 (by omega) (by omega), hhits]
      split <;> simp_all
    · refine hstep _ fun d => ?_
      rw [AscSet.mem_union, AscSet.mem_inter, hbelow (k + 1) (by omega) (by omega),
        hbelow k (by omega) (by omega), hhits]
      by_cases hd : d ∈ b
      · simp only [hd, and_true, if_true]
        omega
      · simp only [hd, and_false, or_false, if_false, Nat.add_zero]

theorem counts_nil (t : Nat) : Counts [] t (List.replicate (t + 1) ∅) := by
  refine ⟨by simp, fun k hk hkt d => ?_⟩
  have : (List.replicate (t + 1) (∅ : Bitmap)).getD k ∅ = ∅ := by
    simp [List.getD_eq_getElem?_getD, show k < t + 1 by omega]
  rw [this]
  simp [hits]
  omega

theorem counts_foldl {t : Nat} (bs : List Bitmap) : ∀ (seen c : List Bitmap), Counts seen t c →
    Counts (seen ++ bs) t (bs.foldl (fun c b => bumpCounters b t c) c) := by
  induction bs with
  | nil => intro seen c h; simpa using h
  | cons b bs ih =>
    intro seen c h
    have := ih (seen ++ [b]) _ (bumpCounters_spec t c (Nat.le_refl _) h.1 (by omega) h.2)
    simpa using this

/-- **Threshold counting is exact.** -/
theorem threshold_eq {sets : List Bitmap} {t : Nat} (ht : 1 ≤ t) (hn : t ≤ sets.length) :
    (threshold sets t).getD ∅ = matching sets t := by
  have hopt : ∀ acc : Bitmap, (if acc.isEmpty then none else some acc).getD ∅ = acc := by
    intro acc
    split
    · next h => exact (AscSet.isEmpty_iff.mp h).symm
    · rfl
  have hne : sets ≠ [] := by
    intro h
    simp only [h, List.length_nil] at hn
    omega
  unfold threshold
  simp only
  rw [if_neg (by omega)]
  split
  · next h1 =>
    subst h1
    rw [hopt]
    refine AscSet.ext_mem fun d => ?_
    rw [mem_matching (Nat.le_refl _), AscSet.mem_unions]
    exact ⟨fun ⟨S, hS, hd⟩ => List.countP_pos_iff.mpr ⟨S, hS, decide_eq_true hd⟩, fun h => by
      obtain ⟨S, hS, hd⟩ := List.countP_pos_iff.mp h
      exact ⟨S, hS, of_decide_eq_true hd⟩⟩
  · split
    · next hall => rw [hopt, AscSet.inters_sortByLen, hall, matching_length hne]
    · rw [hopt]
      refine AscSet.ext_mem fun d => ?_
      have hc := counts_foldl sets [] _ (counts_nil t)
      rw [List.nil_append] at hc
      rw [hc.2 t ht (Nat.le_refl _), mem_matching ht]

/-- Nothing lies in more postings than there are. -/
theorem getD_threshold {sets : List Bitmap} {t : Nat} (ht : 1 ≤ t) :
    (threshold sets t).getD ∅ = matching sets t := by
  by_cases hn : t ≤ sets.length
  · exact threshold_eq ht hn
  · refine AscSet.ext_mem fun d => ?_
    have hle := hits_le_length sets d
    have hnone : threshold sets t = none := by
      unfold threshold
      simp only
      rw [if_pos (by omega)]
    rw [hnone, mem_matching ht]
    constructor
    · intro h
      exact absurd h (AscSet.not_mem_empty d)
    · intro h
      omega

/-- An answer is never the empty set. -/
theorem threshold_ne_some_empty (sets : List Bitmap) (t : Nat) : threshold sets t ≠ some ∅ := by
  have hopt : ∀ acc : Bitmap, (if acc.isEmpty then none else some acc) ≠ some ∅ := by
    intro acc
    split
    · exact Option.some_ne_none ∅ |>.symm
    · next h =>
      intro heq
      exact h (AscSet.isEmpty_iff.mpr (Option.some.inj heq))
  unfold threshold
  simp only
  split
  · exact (Option.some_ne_none ∅).symm
  · split
    · exact hopt _
    · split
      · exact hopt _
      · exact hopt _

end RoaringRange
