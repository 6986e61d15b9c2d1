import RoaringRange.Lib.AscSet

/-!
# Document bitmaps

The `roaring` crate's `RoaringBitmap` as a set of `u32` doc ids read in ascending order.  A doc's
high key (`doc >> 16`) names the 65,536-doc bucket, that is the container, it lives in.
`distinctHighKeys` lists the buckets a bitmap occupies, and `restrict` keeps the docs of some
buckets only.
-/

namespace RoaringRange

/-- One past the largest `u32`. -/
def u32Bound : Nat := 4294967296

/-- `roaring::RoaringBitmap`. -/
abbrev Bitmap := AscSet (fun d : Nat => d < u32Bound)

/-- Docs per container. -/
def bucketSize : Nat := 65536

/-- `doc >> 16`. -/
def highKey (d : Nat) : Nat := d / bucketSize

def lowBits (d : Nat) : Nat := d % bucketSize

theorem highKey_mono {d e : Nat} (h : d ≤ e) : highKey d ≤ highKey e := Nat.div_le_div_right h

theorem highKey_lt {d : Nat} (h : d < u32Bound) : highKey d < bucketSize := by
  simp only [highKey, bucketSize, u32Bound] at *
  omega

theorem lowBits_lt (d : Nat) : lowBits d < bucketSize := Nat.mod_lt _ (by decide)

theorem highKey_lowBits (d : Nat) : highKey d * bucketSize + lowBits d = d := by
  simp only [highKey, lowBits, bucketSize]
  omega

theorem highKey_join {k l : Nat} (hl : l < bucketSize) : highKey (k * bucketSize + l) = k := by
  simp only [highKey, bucketSize] at *
  omega

theorem lowBits_join {k l : Nat} (hl : l < bucketSize) : lowBits (k * bucketSize + l) = l := by
  simp only [lowBits, bucketSize] at *
  omega

/-! ## The buckets a bitmap occupies -/

/-- The loop of `posting::distinct_high_keys`: `last` is the key pushed last. -/
def highKeysFrom (last : Option Nat) : List Nat → List Nat
  | [] => []
  | d :: ds =>
    if last ≠ some (highKey d) then highKey d :: highKeysFrom (some (highKey d)) ds
    else highKeysFrom last ds

/-- `posting::distinct_high_keys`. -/
def distinctHighKeys (bm : Bitmap) : List Nat := highKeysFrom none bm.toList

theorem highKeysFrom_some {k : Nat} {ds : List Nat} (hd : ds.Pairwise (· < ·))
    (hk : ∀ d ∈ ds, k ≤ highKey d) :
    (highKeysFrom (some k) ds).Pairwise (· < ·) ∧ (∀ j ∈ highKeysFrom (some k) ds, k < j) ∧
      ∀ j, j ∈ highKeysFrom (some k) ds ↔ j ≠ k ∧ ∃ d ∈ ds, highKey d = j := by
  induction ds generalizing k with
  | nil => simp [highKeysFrom]
  | cons d ds ih =>
    rw [List.pairwise_cons] at hd
    have hkd : k ≤ highKey d := hk d (by simp)
    unfold highKeysFrom
    split
    · next hne =>
      have hlt : k < highKey d := lt_of_le_of_ne hkd fun h => hne (by rw [h])
      obtain ⟨h1, h2, h3⟩ := ih (k := highKey d) hd.2 fun e he => highKey_mono (le_of_lt (hd.1 e he))
      refine ⟨List.Pairwise.cons h2 h1, ?_, fun j => ?_⟩
      · intro j hj
        rcases List.mem_cons.mp hj with rfl | hj
        · exact hlt
        · exact lt_trans hlt (h2 j hj)
      · rw [List.mem_cons, h3, List.exists_mem_cons_iff]
        constructor
        · rintro (rfl | ⟨hj, e, he, rfl⟩)
          · exact ⟨by omega, Or.inl rfl⟩
          · have := highKey_mono (le_of_lt (hd.1 e he))
            exact ⟨by omega, Or.inr ⟨e, he, rfl⟩⟩
        · rintro ⟨hj, rfl | ⟨e, he, rfl⟩⟩
          · exact Or.inl rfl
          · by_cases hed : highKey e = highKey d
            · exact Or.inl hed
            · exact Or.inr ⟨hed, e, he, rfl⟩
    · next heq =>
      have hkd' : k = highKey d := by simpa using heq
      obtain ⟨h1, h2, h3⟩ := ih (k := k) hd.2 fun e he => hk e (by simp [he])
      refine ⟨h1, h2, fun j => ?_⟩
      rw [h3, List.exists_mem_cons_iff]
      constructor
      · rintro ⟨hj, h⟩
        exact ⟨hj, Or.inr h⟩
      · rintro ⟨hj, rfl | h⟩
        · exact absurd hkd'.symm hj
        · exact ⟨hj, h⟩

theorem distinctHighKeys_spec (bm : Bitmap) :
    (distinctHighKeys bm).Pairwise (· < ·) ∧
      ∀ k, k ∈ distinctHighKeys bm ↔ ∃ d ∈ bm, highKey d = k := by
  obtain ⟨ds, hasc, hall⟩ := bm
  show (highKeysFrom none ds).Pairwise (· < ·) ∧
    ∀ k, k ∈ highKeysFrom none ds ↔ ∃ d ∈ ds, highKey d = k
  cases ds with
  | nil => simp [highKeysFrom]
  | cons d ds =>
    rw [List.pairwise_cons] at hasc
    obtain ⟨h1, h2, h3⟩ := highKeysFrom_some (k := highKey d) hasc.2 fun e he =>
      highKey_mono (le_of_lt (hasc.1 e he))
    simp only [highKeysFrom, ne_eq, reduceCtorEq, not_false_eq_true, if_true]
    refine ⟨List.Pairwise.cons h2 h1, fun k => ?_⟩
    rw [List.mem_cons, h3, List.exists_mem_cons_iff]
    constructor
    · rintro (rfl | ⟨-, h⟩)
      · exact Or.inl rfl
      · exact Or.inr h
    · rintro (rfl | h)
      · exact Or.inl rfl
      · by_cases hk : k = highKey d
        · exact Or.inl hk
        · exact Or.inr ⟨hk, h⟩

theorem distinctHighKeys_asc (bm : Bitmap) : (distinctHighKeys bm).Pairwise (· < ·) :=
  (distinctHighKeys_spec bm).1

@[simp] theorem mem_distinctHighKeys {bm : Bitmap} {k : Nat} :
    k ∈ distinctHighKeys bm ↔ ∃ d ∈ bm, highKey d = k := (distinctHighKeys_spec bm).2 k

theorem lt_of_mem_distinctHighKeys {bm : Bitmap} {k : Nat} (h : k ∈ distinctHighKeys bm) :
    k < bucketSize := by
  obtain ⟨d, hd, rfl⟩ := mem_distinctHighKeys.mp h
  exact highKey_lt (bm.property hd)

theorem length_distinctHighKeys_le (S : Bitmap) : (distinctHighKeys S).length ≤ bucketSize := by
  have hsub : distinctHighKeys S ⊆ List.range bucketSize := fun k hk =>
    List.mem_range.mpr (lt_of_mem_distinctHighKeys hk)
  have hnd : (distinctHighKeys S).Nodup := (distinctHighKeys_asc S).imp fun h => Nat.ne_of_lt h
  simpa using (List.subperm_of_subset hnd hsub).length_le

/-! ## Keeping some buckets, or one side of a boundary -/

namespace Bitmap

/-- The docs whose bucket is in `keys`. -/
def restrict (bm : Bitmap) (keys : List Nat) : Bitmap :=
  bm.filter (fun d => decide (highKey d ∈ keys))

/-- `remove_range(bound..)`. -/
def below (bm : Bitmap) (bound : Nat) : Bitmap := bm.filter (fun d => decide (d < bound))

/-- `remove_range(0..bound)`. -/
def atLeast (bm : Bitmap) (bound : Nat) : Bitmap := bm.filter (fun d => decide (bound ≤ d))

@[simp] theorem mem_restrict {bm : Bitmap} {keys : List Nat} {d : Nat} :
    d ∈ bm.restrict keys ↔ d ∈ bm ∧ highKey d ∈ keys := by
  simp [restrict]

@[simp] theorem mem_below {bm : Bitmap} {bound d : Nat} : d ∈ bm.below bound ↔ d ∈ bm ∧ d < bound := by
  simp [below]

@[simp] theorem mem_atLeast {bm : Bitmap} {bound d : Nat} :
    d ∈ bm.atLeast bound ↔ d ∈ bm ∧ bound ≤ d := by
  simp [atLeast]

theorem below_append_atLeast (bm : Bitmap) (bound : Nat) :
    (bm.below bound).toList ++ (bm.atLeast bound).toList = bm.toList :=
  AscSet.toList_append
    (fun x hx y hy => Nat.lt_of_lt_of_le (mem_below.mp hx).2 (mem_atLeast.mp hy).2) fun x => by
      simp only [mem_below, mem_atLeast]
      rcases Nat.lt_or_ge x bound with h | h <;> simp [h]

theorem below_union_atLeast (bm : Bitmap) (bound : Nat) : bm.below bound ∪ bm.atLeast bound = bm := by
  refine AscSet.ext_mem fun d => ?_
  rw [AscSet.mem_union, mem_below, mem_atLeast]
  constructor
  · rintro (h | h)
    · exact h.1
    · exact h.1
  · intro h
    rcases Nat.lt_or_ge d bound with hd | hd
    · exact Or.inl ⟨h, hd⟩
    · exact Or.inr ⟨h, hd⟩

/-- Intersecting eager prefixes is the eager prefix of the intersection. -/
theorem inters_below {sets : List Bitmap} (hne : sets ≠ []) (bound : Nat) :
    AscSet.inters (sets.map fun S => S.below bound) = Bitmap.below (AscSet.inters sets) bound := by
  refine AscSet.ext_mem fun d => ?_
  rw [AscSet.mem_inters (by simpa using hne), Bitmap.mem_below, AscSet.mem_inters hne, List.forall_mem_map]
  simp only [Bitmap.mem_below]
  constructor
  · intro hall
    obtain ⟨S, hS⟩ := List.exists_mem_of_ne_nil _ hne
    exact ⟨fun S hS => (hall S hS).1, (hall S hS).2⟩
  · rintro ⟨hall, hd⟩ S hS
    exact ⟨hall S hS, hd⟩

/-- The head and then the tail of a set, up to a limit. -/
theorem take_below_append (S : Bitmap) (bound limit : Nat) :
    (S.below bound).toList.take limit ++
      (S.atLeast bound).toList.take (limit - ((S.below bound).toList.take limit).length) =
      S.toList.take limit := by
  rw [← S.below_append_atLeast bound, List.take_append, List.length_take]
  congr 2
  omega

/-- A page that the docs below the bound fill. -/
theorem take_below {S : Bitmap} {bound limit : Nat} (h : limit ≤ (S.below bound).len) :
    (S.below bound).toList.take limit = S.toList.take limit := by
  rw [← S.below_append_atLeast bound]
  exact (List.take_append_of_le_length h).symm

/-- The low halves of the docs in bucket `k`, ascending. -/
def lows (bm : Bitmap) (k : Nat) : List Nat :=
  (bm.toList.filter (fun d => highKey d = k)).map lowBits

theorem mem_lows {bm : Bitmap} {k l : Nat} :
    l ∈ bm.lows k ↔ l < bucketSize ∧ k * bucketSize + l ∈ bm := by
  simp only [lows, List.mem_map, List.mem_filter, decide_eq_true_eq]
  constructor
  · rintro ⟨d, ⟨hd, rfl⟩, rfl⟩
    exact ⟨lowBits_lt d, by rw [highKey_lowBits]; exact hd⟩
  · rintro ⟨hl, hd⟩
    exact ⟨_, ⟨hd, highKey_join hl⟩, lowBits_join hl⟩

theorem lows_asc (bm : Bitmap) (k : Nat) : (bm.lows k).Pairwise (· < ·) := by
  refine List.pairwise_map.mpr ((bm.asc.filter _).imp_of_mem ?_)
  intro d e hd he hde
  have hdk : highKey d = k := by simpa using (List.mem_filter.mp hd).2
  have hek : highKey e = k := by simpa using (List.mem_filter.mp he).2
  have hd' := highKey_lowBits d
  have he' := highKey_lowBits e
  rw [hdk] at hd'
  rw [hek] at he'
  omega

theorem lows_ne_nil {bm : Bitmap} {k : Nat} (h : k ∈ distinctHighKeys bm) : bm.lows k ≠ [] := by
  obtain ⟨d, hd, rfl⟩ := mem_distinctHighKeys.mp h
  refine List.ne_nil_of_mem (a := lowBits d) (mem_lows.mpr ⟨lowBits_lt d, ?_⟩)
  rw [highKey_lowBits]
  exact hd

theorem length_lows_le (bm : Bitmap) (k : Nat) : (bm.lows k).length ≤ bucketSize := by
  have hsub : bm.lows k ⊆ List.range bucketSize := fun l hl => List.mem_range.mpr (mem_lows.mp hl).1
  have hnd : (bm.lows k).Nodup := (bm.lows_asc k).imp fun h => Nat.ne_of_lt h
  simpa using (List.subperm_of_subset hnd hsub).length_le

theorem lows_restrict {bm : Bitmap} {keys : List Nat} {k : Nat} (h : k ∈ keys) :
    (bm.restrict keys).lows k = bm.lows k := by
  refine List.Pairwise.eq_of_mem_iff (r := (· < ·)) (lows_asc _ _) (lows_asc _ _) fun {l} => ?_
  rw [mem_lows, mem_lows, mem_restrict]
  constructor
  · rintro ⟨hl, hd, -⟩
    exact ⟨hl, hd⟩
  · rintro ⟨hl, hd⟩
    exact ⟨hl, hd, by rw [highKey_join hl]; exact h⟩

theorem distinctHighKeys_restrict (bm : Bitmap) (keys : List Nat) :
    distinctHighKeys (bm.restrict keys) = (distinctHighKeys bm).filter (fun k => decide (k ∈ keys)) := by
  refine List.Pairwise.eq_of_mem_iff (r := (· < ·)) (distinctHighKeys_asc _)
    ((distinctHighKeys_asc bm).filter _) fun {k} => ?_
  rw [mem_distinctHighKeys, List.mem_filter, mem_distinctHighKeys]
  constructor
  · rintro ⟨d, hd, rfl⟩
    rw [mem_restrict] at hd
    exact ⟨⟨d, hd.1, rfl⟩, decide_eq_true hd.2⟩
  · rintro ⟨⟨d, hd, rfl⟩, hk⟩
    exact ⟨d, mem_restrict.mpr ⟨hd, of_decide_eq_true hk⟩, rfl⟩

end Bitmap

end RoaringRange
