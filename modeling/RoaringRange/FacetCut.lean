import RoaringRange.FacetDigest
import RoaringRange.Lib.TopK

/-!
# The cut-off of facet counts (`facet.rs`)

`counts_full` prices the categories of highest count of each field.  Which categories of equal count it takes at
the cut-off is up to the selection, and up to their names where a digest was cut there first.  By name,

    counts_full counts a priced category's docs, of any other none        (settles_countsFull_rows)
    what is priced of a meta, or of its digest, are the top of the field  (isTop_priced, isTop_priced_digested)
    a category tied at the cut-off is priced by some selection, and left out by some other
                                                                          (priced_of_tied, not_priced_of_tied)
    a digest counts as its meta does what is not tied there               (Named.countNamed_digested_eq)
-/

namespace RoaringRange

open ByteString Faults Slices TopK

/-- What the cut-off looks at: a category's name and count. -/
def Category.entry (c : Category) : String × Nat := (c.name, c.count)

/-- The categories of a field that `counts_full` prices. -/
def pricedCategories [SelectNth] (topPerField : Nat) (cats : List Category) : List Category :=
  if topPerField = 0 ∨ cats.length ≤ topPerField then cats
  else ((SelectNth.select (cats.map Category.count) (topPerField - 1)).take topPerField).map
    fun ci => cats.getD ci ⟨"", 0, ⟨0, 0, 0, 0⟩, ∅, none⟩

/-- The entries of the priced categories. -/
def pricedEntries [SelectNth] (topPerField : Nat) (cats : List Category) : List (String × Nat) :=
  (pricedCategories topPerField cats).map Category.entry

section

variable {cats : List Category}

theorem getD_count (cats : List Category) (i : Nat) :
    (cats.map Category.count).getD i 0 = (cats.getD i ⟨"", 0, ⟨0, 0, 0, 0⟩, ∅, none⟩).count :=
  List.getD_map cats (⟨"", 0, ⟨0, 0, 0, 0⟩, ∅, none⟩ : Category) Category.count

theorem map_getD_range (cats : List Category) :
    (List.range cats.length).map (fun i => cats.getD i ⟨"", 0, ⟨0, 0, 0, 0⟩, ∅, none⟩) = cats := by
  refine List.ext_getElem (by simp) fun i h1 h2 => ?_
  rw [List.getElem_map, List.getElem_range, List.getD_eq_getElem _ _ h2]

/-- The categories a selection takes are the top of the field. -/
theorem isTop_pricedCategories [SelectNth] {n : Nat} (hn : n ≠ 0) (cats : List Category) :
    IsTop Category.count n (pricedCategories n cats) cats := by
  unfold pricedCategories
  by_cases hfew : cats.length ≤ n
  · rw [if_pos (Or.inr hfew)]
    exact IsTop.refl hfew
  · have hlt : n - 1 < (cats.map Category.count).length := by
      rw [List.length_map]
      omega
    have hperm := SelectNth.perm (cats.map Category.count) (n - 1) hlt
    have hlargest := SelectNth.largest (cats.map Category.count) (n - 1) hlt
    have hsucc : n - 1 + 1 = n := by omega
    rw [hsucc] at hlargest
    rw [List.length_map] at hperm
    have hplaces : IsTop (fun i => (cats.getD i ⟨"", 0, ⟨0, 0, 0, 0⟩, ∅, none⟩).count) n
        ((SelectNth.select (cats.map Category.count) (n - 1)).take n) (List.range cats.length) := by
      refine ⟨(SelectNth.select (cats.map Category.count) (n - 1)).drop n, ?_, ?_, fun i hi j hj => ?_⟩
      · rw [List.take_append_drop]
        exact hperm.symm
      · rw [List.length_take, hperm.length_eq]
      · have := hlargest i hi j hj
        rwa [getD_count, getD_count] at this
    have hmap := hplaces.map (w := Category.count) (fun i => cats.getD i ⟨"", 0, ⟨0, 0, 0, 0⟩, ∅, none⟩)
      fun _ _ => rfl
    rw [map_getD_range] at hmap
    rwa [if_neg (by omega)]

theorem isTop_entries {n : Nat} {ys xs : List Category} (h : IsTop Category.count n ys xs) :
    IsTop Prod.snd n (ys.map Category.entry) (xs.map Category.entry) := h.map Category.entry fun _ _ => rfl

/-- **What is priced of a field** is its top. -/
theorem isTop_priced [SelectNth] {n : Nat} (hn : n ≠ 0) (cats : List Category) :
    IsTop Prod.snd n (pricedEntries n cats) (cats.map Category.entry) := isTop_entries (isTop_pricedCategories hn cats)

theorem isTop_topCategories (k : Nat) (cats : List Category) :
    IsTop Category.count k (topCategories k cats) cats := by
  apply isTop_take
  intro a b h
  rcases Prod.Lex.toLex_le_toLex.mp h with h | h
  · exact Nat.le_of_lt h
  · exact Nat.le_of_eq (OrderDual.toDual_inj.mp h.1).symm

theorem map_entry_kept (dirOf : Category → Option (List Container)) (cats : List Category) :
    (cats.map (keptCategory dirOf)).map Category.entry = cats.map Category.entry := by
  rw [List.map_map]
  rfl

/-- **What is priced of a digest** of no fewer categories is the top of the field too. -/
theorem isTop_priced_digested [SelectNth] {n k : Nat} (hn : n ≠ 0) (hnk : n ≤ k)
    (dirOf : Category → Option (List Container)) (f : Field) :
    IsTop Prod.snd n (pricedEntries n (keptField dirOf k f).categories) (f.categories.map Category.entry) := by
  have hkept : IsTop Prod.snd k ((keptField dirOf k f).categories.map Category.entry)
      (f.categories.map Category.entry) := by
    show IsTop Prod.snd k (((topCategories k f.categories).map (keptCategory dirOf)).map Category.entry) _
    rw [map_entry_kept]
    exact isTop_entries (isTop_topCategories k f.categories)
  exact hkept.trans (isTop_priced hn _) hnk

/-- Of a digest cut at the cut-off everything is priced. -/
theorem pricedEntries_digested [SelectNth] (n : Nat) (dirOf : Category → Option (List Container)) (f : Field) :
    pricedEntries n (keptField dirOf n f).categories = (topCategories n f.categories).map Category.entry := by
  have hlen : (keptField dirOf n f).categories.length ≤ n := by
    show ((topCategories n f.categories).map (keptCategory dirOf)).length ≤ n
    rw [List.length_map, topCategories, List.length_take]
    exact Nat.min_le_left _ _
  unfold pricedEntries pricedCategories
  rw [if_pos (Or.inr hlen)]
  exact map_entry_kept dirOf _

end

/-! ## Selections that prefer a place -/

/-- Items of different names are at different places. -/
theorem place_eq {cats : List Category} (h : (cats.map Category.name).Nodup) {i j : Nat} (hi : i < cats.length)
    (hj : j < cats.length) (hname : cats[i].name = cats[j].name) : i = j := by
  have hi' : i < (cats.map Category.name).length := by rwa [List.length_map]
  have hj' : j < (cats.map Category.name).length := by rwa [List.length_map]
  refine (@List.Nodup.getElem_inj_iff _ _ h i hi' j hj').mp ?_
  rw [List.getElem_map, List.getElem_map, hname]

/-- A selection that takes, among equals, the places of `p` first. -/
def preferOrder (p : Nat → Bool) (values : List Nat) (_ : Nat) : List Nat :=
  preferred (fun i => values.getD i 0) p (List.range values.length)

theorem preferOrder_perm (p : Nat → Bool) (values : List Nat) (n : Nat) (_ : n < values.length) :
    (preferOrder p values n).Perm (List.range values.length) := preferred_perm _ _ _

theorem preferOrder_largest (p : Nat → Bool) (values : List Nat) (n : Nat) (_ : n < values.length) :
    ∀ i ∈ (preferOrder p values n).take (n + 1), ∀ j ∈ (preferOrder p values n).drop (n + 1),
      values.getD j 0 ≤ values.getD i 0 := by
  intro i hi j hj
  rcases preferred_le hi hj with h | ⟨h, -⟩
  · exact Nat.le_of_lt h
  · exact Nat.le_of_eq h

@[reducible] def preferSelect (p : Nat → Bool) : SelectNth := ⟨preferOrder p, preferOrder_perm p, preferOrder_largest p⟩

section

variable {cats : List Category} {n j : Nat}

/-- A tied category, as a tied place. -/
theorem tied_place (hj : j < cats.length) (h : Tied Prod.snd n (cats.map Category.entry) cats[j].entry) :
    Tied (fun i => (cats.map Category.count).getD i 0) n (List.range (cats.map Category.count).length) j := by
  have hcats : cats.map Category.entry = (List.range (cats.map Category.count).length).map
      (fun i => (cats.getD i ⟨"", 0, ⟨0, 0, 0, 0⟩, ∅, none⟩).entry) := by
    rw [List.length_map]
    conv => lhs; rw [← map_getD_range cats]
    rw [List.map_map]
    rfl
  have hval : ∀ i, (cats.map Category.count).getD i 0 =
      (cats.getD i ⟨"", 0, ⟨0, 0, 0, 0⟩, ∅, none⟩).entry.2 := getD_count cats
  have hself : cats[j].entry.2 = (cats.map Category.count).getD j 0 := by
    rw [hval, List.getD_eq_getElem _ _ hj]
  unfold Tied at h ⊢
  rw [hcats, List.countP_map, List.countP_map, hself] at h
  simp only [Function.comp_def, ← hval] at h
  exact h

/-- What a selection of places comes to, as entries. -/
theorem pricedEntries_preferSelect {p : Nat → Bool} (hn : n ≠ 0) (hlt : n < cats.length) :
    @pricedEntries (preferSelect p) n cats =
      ((preferred (fun i => (cats.map Category.count).getD i 0) p (List.range (cats.map Category.count).length)).take
        n).map fun i => (cats.getD i ⟨"", 0, ⟨0, 0, 0, 0⟩, ∅, none⟩).entry := by
  unfold pricedEntries pricedCategories
  rw [if_neg (by omega), List.map_map]
  rfl

/-- **A tied category is priced** by the selection that prefers it. -/
theorem priced_of_tied (hn : n ≠ 0) (hj : j < cats.length)
    (h : Tied Prod.snd n (cats.map Category.entry) cats[j].entry) :
    cats[j].entry ∈ @pricedEntries (preferSelect fun i => decide (i = j)) n cats := by
  have hlt := h.lt_length
  rw [List.length_map] at hlt
  rw [pricedEntries_preferSelect hn hlt, List.mem_map]
  refine ⟨j, mem_preferred (List.mem_range.mpr ?_) (tied_place hj h), ?_⟩
  · rwa [List.length_map]
  · rw [List.getD_eq_getElem _ _ hj]

/-- **A tied category is left out** by the selection that takes it last. -/
theorem not_priced_of_tied (hn : n ≠ 0) (hnames : (cats.map Category.name).Nodup) (hj : j < cats.length)
    (h : Tied Prod.snd n (cats.map Category.entry) cats[j].entry) :
    cats[j].entry ∉ @pricedEntries (preferSelect fun i => decide (i ≠ j)) n cats := by
  have hlt := h.lt_length
  rw [List.length_map] at hlt
  rw [pricedEntries_preferSelect hn hlt, List.mem_map]
  rintro ⟨i, hi, heq⟩
  have hmem := (preferred_perm _ _ _).mem_iff.mp (List.mem_of_mem_take hi)
  rw [List.length_map, List.mem_range] at hmem
  rw [List.getD_eq_getElem _ _ hmem] at heq
  have hname : cats[i].name = cats[j].name := congrArg Prod.fst heq
  have hij : i = j := place_eq hnames hmem hj hname
  rw [hij] at hi
  exact not_mem_preferred List.nodup_range (tied_place hj h) hi

end

/-! ## Counts by name -/

theorem find?_key {α κ : Type} [DecidableEq κ] {key : α → κ} {xs : List α} (h : (xs.map key).Nodup) {k : κ} {x : α} :
    xs.find? (fun y => decide (key y = k)) = some x ↔ x ∈ xs ∧ key x = k := by
  constructor
  · intro hf
    have hk := List.find?_some hf
    exact ⟨List.mem_of_find?_eq_some hf, of_decide_eq_true hk⟩
  · rintro ⟨hx, hk⟩
    have hsome : (xs.find? fun y => decide (key y = k)).isSome := List.find?_isSome.mpr ⟨x, hx, decide_eq_true hk⟩
    obtain ⟨y, hy⟩ := Option.isSome_iff_exists.mp hsome
    have hyk := List.find?_some hy
    simp only [decide_eq_true_eq] at hyk
    rw [hy, List.inj_on_of_nodup_map h (List.mem_of_find?_eq_some hy) hx (hyk.trans hk.symm)]

namespace FacetIndex

variable {fi : FacetIndex}

/-- With distinct names a pair names the category there is of it. -/
theorem Named.named_iff (h : fi.Named) {pair : String × String} {f : Field} {c : Category} :
    fi.named pair = some (f, c) ↔ (f ∈ fi.fields ∧ f.name = pair.1) ∧ c ∈ f.categories ∧ c.name = pair.2 := by
  unfold named
  constructor
  · intro hn
    obtain ⟨g, hg, hn⟩ := Option.bind_eq_some_iff.mp hn
    obtain ⟨d, hd, heq⟩ := Option.map_eq_some_iff.mp hn
    obtain ⟨rfl, rfl⟩ := Prod.mk.inj heq
    have hmem := (find?_key h.fields).mp hg
    exact ⟨hmem, (find?_key (h.cats g hmem.1)).mp hd⟩
  · rintro ⟨hf, hc⟩
    rw [(find?_key h.fields).mpr hf, Option.bind_some, (find?_key (h.cats f hf.1)).mpr hc]
    rfl

variable [SelectNth] {head tail : CatRange → Bitmap}

/-- What a category is counted at, whose head is not resident: its price if it is priced. -/
def countOf (head tail : CatRange → Bitmap) (result : Bitmap) (topPerField : Nat) (f : Field) (c : Category) : Nat :=
  if c.entry ∈ pricedEntries topPerField f.categories then priceOf result c (head c.range) (tail c.range) else 0

/-- What the category of a pair is counted at. -/
def countNamed (fi : FacetIndex) (head tail : CatRange → Bitmap) (result : Bitmap) (topPerField : Nat)
    (pair : String × String) : Nat :=
  ((fi.named pair).map fun x => countOf head tail result topPerField x.1 x.2).getD 0

/-- No head posting is resident. -/
def Bare (fi : FacetIndex) : Prop := ∀ f ∈ fi.fields, ∀ c ∈ f.categories, c.head = ∅

/-- A place is priced if its entry is. -/
theorem mem_pricedTargets_iff (topPerField : Nat) {t : Nat × Nat} {f : Field} (hf : fi.fields[t.1]? = some f)
    (hnames : (f.categories.map Category.name).Nodup) (ht : t.2 < f.categories.length) :
    t ∈ fi.pricedTargets topPerField ↔ f.categories[t.2].entry ∈ pricedEntries topPerField f.categories := by
  rw [mem_pricedTargets]
  unfold pricedEntries pricedCategories
  constructor
  · rintro ⟨g, hg, hmem⟩
    obtain rfl : f = g := Option.some.inj (hf.symm.trans hg)
    split at hmem
    · next hall =>
      rw [if_pos hall]
      exact List.mem_map_of_mem (List.getElem_mem ht)
    · next hnot =>
      rw [if_neg hnot]
      refine List.mem_map_of_mem (List.mem_map.mpr ⟨t.2, hmem, ?_⟩)
      exact List.getD_eq_getElem _ _ ht
  · intro hmem
    refine ⟨f, hf, ?_⟩
    split
    · exact ht
    · next hnot =>
      rw [if_neg hnot, List.map_map] at hmem
      obtain ⟨j, hj, heq⟩ := List.mem_map.mp hmem
      have hn : topPerField - 1 < (f.categories.map Category.count).length := by
        rw [List.length_map]
        omega
      have hlt := (SelectNth.perm _ _ hn).mem_iff.mp (List.mem_of_mem_take hj)
      rw [List.length_map, List.mem_range] at hlt
      have hname : f.categories[j].name = f.categories[t.2].name := by
        have := congrArg Prod.fst heq
        rwa [Function.comp_apply, List.getD_eq_getElem _ _ hlt] at this
      have hjt : j = t.2 := place_eq hnames hlt ht hname
      rwa [← hjt]

omit [SelectNth] in
/-- Counts of the same shape that agree at every place. -/
theorem ext_countAt {xs ys : List (List Nat)} (hlen : xs.length = ys.length) (h : ∀ t, countAt xs t = countAt ys t) :
    xs = ys := by
  refine List.ext_getElem hlen fun i h1 h2 => List.ext_getElem? fun j => ?_
  have := h (i, j)
  unfold countAt at this
  rwa [List.getElem?_eq_getElem h1, List.getElem?_eq_getElem h2] at this

omit [SelectNth] in
theorem length_foldl_setCount (xs : List ((Nat × Nat) × Nat)) : ∀ counts : List (List Nat),
    (xs.foldl setCount counts).length = counts.length := by
  induction xs with
  | nil => exact fun _ => rfl
  | cons x xs ih =>
    intro counts
    rw [List.foldl_cons, ih, setCount, List.length_modify]

variable [Roaring]

/-- **Counts per field, row by row**: a priced category's is its price, another's is zero. -/
theorem settles_countsFull_rows (h : fi.PostsHold head tail) (hn : fi.Named) (hb : fi.Bare) (result : Bitmap)
    (topPerField : Nat) : Settles (fi.countsFull result topPerField)
      (.ok (fi.fields.map fun f => f.categories.map fun c => countOf head tail result topPerField f c)) := by
  have hprice : Settles (fi.countCategoriesBatched (fi.pricedTargets topPerField) result (headNeeded result)
      (tailKeys result)) (.ok ((fi.pricedTargets topPerField).map (fi.priceAt head tail result))) :=
    settles_prices fun t ht => h.category (pricedTargets_present ht)
  have hrows : ((fi.pricedTargets topPerField).zip ((fi.pricedTargets topPerField).map
      (fi.priceAt head tail result))).foldl setCount (fi.counts result) =
        fi.fields.map fun f => f.categories.map fun c => countOf head tail result topPerField f c := by
    refine ext_countAt (by rw [length_foldl_setCount, counts, List.length_map, List.length_map]) fun t => ?_
    rw [countAt_foldl]
    unfold countAt counts
    rw [List.getElem?_map, List.getElem?_map]
    cases hf : fi.fields[t.1]? with
    | none =>
      simp only [Option.map_none, Option.bind_none]
      split <;> rfl
    | some f =>
      simp only [Option.map_some, Option.bind_some]
      by_cases ht : t.2 < f.categories.length
      · have hmem := mem_pricedTargets_iff topPerField hf (hn.cats f (List.mem_of_getElem? hf)) ht
        have hc : fi.category t = f.categories[t.2] := by
          have hfield : fi.fields.getD t.1 ⟨"", []⟩ = f := by simp [List.getD_eq_getElem?_getD, hf]
          unfold category
          rw [hfield]
          exact List.getD_eq_getElem _ _ ht
        have hhead : (f.categories[t.2]).head = ∅ := hb f (List.mem_of_getElem? hf) _ (List.getElem_mem ht)
        rw [List.getElem?_map, List.getElem?_map, List.getElem?_eq_getElem ht]
        simp only [Option.map_some, countOf, priceAt, hc, hhead, len_inter_empty]
        by_cases hpriced : t ∈ fi.pricedTargets topPerField
        · rw [if_pos hpriced, if_pos (hmem.mp hpriced)]
        · rw [if_neg hpriced, if_neg fun h => hpriced (hmem.mpr h)]
      · have hnone : ∀ g : Category → Nat, (f.categories.map g)[t.2]? = none := fun g =>
          List.getElem?_eq_none (by rw [List.length_map]; omega)
        rw [hnone, hnone]
        split <;> rfl
  rw [← hrows]
  exact hprice.bind (Settles.pure _)

omit [SelectNth] in
/-- What the category of a pair is priced at, none if there is no such category. -/
def priceNamed (fi : FacetIndex) (head tail : CatRange → Bitmap) (result : Bitmap) (pair : String × String) : Nat :=
  ((fi.named pair).map fun x => priceOf result x.2 (head x.2.range) (tail x.2.range)).getD 0

omit [SelectNth] in
theorem settles_countsFor_named (h : fi.PostsHold head tail) (result : Bitmap) (pairs : List (String × String)) :
    Settles (fi.countsFor result pairs) (.ok (pairs.map (fi.priceNamed head tail result))) := by
  have heq : (pairs.map fun p => ((fi.position p).map (fi.priceAt head tail result)).getD 0) =
      pairs.map (fi.priceNamed head tail result) := by
    refine List.map_congr_left fun p _ => ?_
    unfold priceNamed
    rcases @position_spec fi p with ⟨h1, h2⟩ | ⟨t, f, h1, -, -, h2⟩
    · rw [h1, h2]
      rfl
    · rw [h1, h2]
      rfl
  rw [← heq]
  exact settles_countsFor_prices h result pairs

end FacetIndex

/-! ## A digest against the meta it was made of -/

theorem pricedCategories_subset [SelectNth] (n : Nat) (cats : List Category) : pricedCategories n cats ⊆ cats := by
  by_cases hn : n = 0
  · unfold pricedCategories
    rw [if_pos (Or.inl hn)]
    exact List.Subset.refl cats
  · exact (isTop_pricedCategories hn cats).subset

namespace FacetIndex

variable {fi : FacetIndex} {dirOf : Category → Option (List Container)} {k : Nat} {head tail : CatRange → Bitmap}

theorem bare_digested (fi : FacetIndex) (dirOf : Category → Option (List Container)) (k : Nat) :
    (fi.digested dirOf k).Bare := by
  intro f hf c hc
  obtain ⟨g, hg, rfl⟩ := List.mem_map.mp hf
  obtain ⟨d, hd, rfl⟩ := List.mem_map.mp hc
  rfl

/-- A category that the digest kept is named by the same pair. -/
theorem Named.named_digested_kept (h : fi.Named) {pair : String × String} {f : Field} {c : Category}
    (hn : fi.named pair = some (f, c)) (hc : c ∈ topCategories k f.categories) :
    (fi.digested dirOf k).named pair = some (keptField dirOf k f, keptCategory dirOf c) := by
  obtain ⟨⟨hf, hname⟩, -, hcname⟩ := h.named_iff.mp hn
  exact (h.digested dirOf k).named_iff.mpr
    ⟨⟨List.mem_map_of_mem hf, hname⟩, List.mem_map_of_mem (f := keptCategory dirOf) hc, hcname⟩

/-- What a digest names, the meta does. -/
theorem Named.named_of_digested (h : fi.Named) {pair : String × String} {f' : Field} {c' : Category}
    (hn : (fi.digested dirOf k).named pair = some (f', c')) :
    ∃ f c, fi.named pair = some (f, c) ∧ c ∈ topCategories k f.categories ∧ f' = keptField dirOf k f ∧
      c' = keptCategory dirOf c := by
  obtain ⟨⟨hf, hname⟩, hc, hcname⟩ := (h.digested dirOf k).named_iff.mp hn
  obtain ⟨f, hfi, rfl⟩ := List.mem_map.mp hf
  obtain ⟨c, hcf, rfl⟩ := List.mem_map.mp hc
  exact ⟨f, c, h.named_iff.mpr ⟨⟨hfi, hname⟩, mem_topCategories hcf, hcname⟩, hcf, rfl, rfl⟩

/-- A pair that the digest names, or that the meta does not, is priced as by the meta. -/
theorem Named.priceNamed_digested (h : fi.Named) (hb : fi.Bare) (result : Bitmap) {pair : String × String}
    (hp : ((fi.digested dirOf k).named pair).isSome ∨ fi.named pair = none) :
    (fi.digested dirOf k).priceNamed head tail result pair = fi.priceNamed head tail result pair := by
  unfold priceNamed
  cases hd : (fi.digested dirOf k).named pair with
  | none =>
    rw [hd] at hp
    rw [hp.resolve_left (by decide)]
  | some x =>
    obtain ⟨f, c, hn, hc, hf', hc'⟩ := h.named_of_digested hd
    have hmem := (h.named_iff.mp hn).1.1
    have hbare : c.head = ∅ := hb f hmem c (mem_topCategories hc)
    rw [hn, Option.map_some, Option.map_some, hc']
    unfold priceOf headCount
    rw [hbare]
    rfl

variable [SelectNth] {topPerField : Nat}

/-- What a digest counts for a category of the meta. -/
theorem Named.countNamed_digested (h : fi.Named) (hb : fi.Bare) (result : Bitmap) {pair : String × String} {f : Field}
    {c : Category} (hn : fi.named pair = some (f, c)) :
    (fi.digested dirOf k).countNamed head tail result topPerField pair =
      if c.entry ∈ pricedEntries topPerField (keptField dirOf k f).categories then
        priceOf result c (head c.range) (tail c.range) else 0 := by
  obtain ⟨⟨hf, -⟩, hcf, -⟩ := h.named_iff.mp hn
  unfold countNamed
  by_cases hc : c ∈ topCategories k f.categories
  · rw [h.named_digested_kept hn hc, Option.map_some]
    have hbare : c.head = ∅ := hb f hf c hcf
    have hprice : priceOf result (keptCategory dirOf c) (head c.range) (tail c.range) =
        priceOf result c (head c.range) (tail c.range) := by
      unfold priceOf headCount
      rw [hbare]
      rfl
    show (if c.entry ∈ pricedEntries topPerField (keptField dirOf k f).categories then
      priceOf result (keptCategory dirOf c) (head c.range) (tail c.range) else 0) = _
    rw [hprice]
  · have hnone : (fi.digested dirOf k).named pair = none := by
      by_contra hne
      obtain ⟨x, hx⟩ := Option.ne_none_iff_exists'.mp hne
      obtain ⟨g, d, hgd, hd, -, -⟩ := h.named_of_digested hx
      obtain ⟨rfl, rfl⟩ := Prod.mk.inj (Option.some.inj (hn.symm.trans hgd))
      exact hc hd
    have hout : c.entry ∉ pricedEntries topPerField (keptField dirOf k f).categories := by
      intro hmem
      obtain ⟨d', hd', heq⟩ := List.mem_map.mp hmem
      obtain ⟨d, hd, rfl⟩ := List.mem_map.mp (pricedCategories_subset _ _ hd')
      have hname : d.name = c.name := congrArg Prod.fst heq
      have hdc : d = c := List.inj_on_of_nodup_map (h.cats f hf) (mem_topCategories hd) hcf hname
      rw [hdc] at hd
      exact hc hd
    rw [hnone, if_neg hout]
    rfl

/-- What the meta does not name, a digest does not count. -/
theorem Named.countNamed_digested_none (h : fi.Named) (result : Bitmap) {pair : String × String}
    (hn : fi.named pair = none) : (fi.digested dirOf k).countNamed head tail result topPerField pair = 0 := by
  unfold countNamed
  cases hd : (fi.digested dirOf k).named pair with
  | none => rfl
  | some x =>
    obtain ⟨f, c, hfc, -⟩ := h.named_of_digested hd
    rw [hn] at hfc
    cases hfc

/-- **A digest counts as the meta does** a category that is not tied at the cut-off, or has no doc of the result. -/
theorem Named.countNamed_digested_eq (h : fi.Named) (hb : fi.Bare) (result : Bitmap) (htop : topPerField ≠ 0)
    (hk : topPerField ≤ k) {pair : String × String}
    (hu : ∀ f c, fi.named pair = some (f, c) → Tied Prod.snd topPerField (f.categories.map Category.entry) c.entry →
      priceOf result c (head c.range) (tail c.range) = 0) :
    (fi.digested dirOf k).countNamed head tail result topPerField pair =
      fi.countNamed head tail result topPerField pair := by
  cases hn : fi.named pair with
  | none =>
    rw [h.countNamed_digested_none result hn]
    unfold countNamed
    rw [hn]
    rfl
  | some x =>
    obtain ⟨f, c⟩ := x
    rw [h.countNamed_digested hb result hn]
    unfold countNamed
    rw [hn, Option.map_some, Option.getD_some, countOf]
    by_cases ht : Tied Prod.snd topPerField (f.categories.map Category.entry) c.entry
    · rw [hu f c hn ht, ite_self, ite_self]
    · have hmem : c.entry ∈ f.categories.map Category.entry := List.mem_map_of_mem (h.named_iff.mp hn).2.1
      have hdig := (isTop_priced_digested htop hk dirOf f).mem_iff hmem ht
      have hfull := (isTop_priced htop f.categories).mem_iff hmem ht
      simp only [hdig, hfull]

end FacetIndex

end RoaringRange
