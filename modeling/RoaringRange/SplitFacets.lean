import RoaringRange.FacetCut
import RoaringRange.Lib.FirstSeen
import RoaringRange.SplitFiles

/-!
# Facet counts of a split set (`splitset.rs`)

`facet_counts_top` groups the ids of a result by split, prices the top categories of every split they fall in, and
adds the counts up by name; `facet_counts_for` does it for named pairs.  A split's categories come from the digest
that the manifest keeps of its sidecar, where the digest can serve the call, and from the sidecar otherwise.

    ids are routed by the ranges of the splits only                                (idsBySplit_congr)
    a split's counts are added to the others by name                               (readCounts_tallySplit)
    a wave over splits settles on what their outcomes add up to                    (settles_foldPresent)
-/

namespace RoaringRange

open ByteString Faults Slices TopK

/-! ## Ids by split -/

theorem Split.toLocal_lt (s : Split) (d : Fin u32Bound) : s.toLocal d.val < u32Bound := by
  unfold Split.toLocal
  split
  · exact d.isLt
  · exact Nat.lt_of_le_of_lt (Nat.sub_le _ _) d.isLt

/-- The loop body of `SplitSet::ids_by_split`: an id goes to the first split that contains it. -/
def placeId (splits : List Split) (perSplit : OrdMap Nat Bitmap) (gid : Fin u32Bound) : OrdMap Nat Bitmap :=
  match splits.zipIdx.find? fun x => x.1.contains gid.val with
  | some (split, si) =>
    perSplit.update si fun ids => (ids.getD ∅).insert (split.toLocal gid.val) (split.toLocal_lt gid)
  | none => perSplit

def idsBySplit (splits : List Split) (ids : List (Fin u32Bound)) : List (Nat × Bitmap) :=
  (ids.foldl (placeId splits) ∅).toList

/-! ## Counts by name -/

/-- `splitset::FieldCounts`: a field's name and the counts of its categories, in first-seen order. -/
abbrev FieldCounts := String × List (String × Nat)

/-- A category's count, added to what is counted of it; a count of zero is left out. -/
def tallyCategory (cats : List (String × Nat)) (x : Category × Nat) : List (String × Nat) :=
  if x.2 = 0 then cats else FirstSeen.upsert x.1.name (fun existing => existing.getD 0 + x.2) cats

def tallyField (fields : List FieldCounts) (x : Field × List Nat) : List FieldCounts :=
  FirstSeen.upsert x.1.name (fun cats => (x.1.categories.zip x.2).foldl tallyCategory (cats.getD [])) fields

/-- The counts of a split, added to those of the splits before it. -/
def tallySplit (fields : List FieldCounts) (x : FacetIndex × List (List Nat)) : List FieldCounts :=
  (x.1.fields.zip x.2).foldl tallyField fields

/-- Adds a split's counts of named pairs; `zip` ends with the shorter list. -/
def addTotals : List Nat → List Nat → List Nat
  | t :: totals, n :: counts => (t + n) :: addTotals totals counts
  | totals, _ => totals

/-- The loops over the outcomes of the contributing splits: a split without a sidecar contributes nothing. -/
def foldPresent {α β : Type} (step : β → α → β) (acc : β) : List (Except IndexError α) → Except IndexError β
  | [] => .ok acc
  | r :: rs =>
    match r with
    | .ok a => foldPresent step (step acc a) rs
    | .error (.fetch .notFound) => foldPresent step acc rs
    | .error e => .error e

/-- The counts as a map from field and category to count. -/
def readCounts (fields : List FieldCounts) (pair : String × String) : Option Nat :=
  (fields.lookup pair.1).bind fun cats => cats.lookup pair.2

/-! ## The calls -/

/-- The digest of a summary, the second version before the first. -/
def digestOf (summary : Bytes) : Option (Nat × List Field) :=
  match findTlv summary summaryTagFacetDigestV2 with
  | .ok (some payload) => (parseFacetDigestV2 payload).toOption
  | _ =>
    match findTlv summary summaryTagFacetDigest with
    | .ok (some payload) => (parseFacetDigest payload).toOption
    | _ => none

namespace SplitSet

def split (s : SplitSet) (si : Nat) : Split := s.splits.getD si ⟨"", 0, 0, 0, 0, 0, 0, 0, 0, 0⟩

section

variable [Unicode]

/-- `usable` of `SplitSet::facet_pricing_meta`: whether the digest serves the call. -/
def digestUsable (s : SplitSet) (split : Split) (digest : Nat × List Field) (topPerField : Nat)
    (pairs : Option (List (String × String))) : Except IndexError Bool :=
  match pairs with
  | some ps => do
    let present ← if hasFlag s.flags flagFacet then s.facetKeys split else pure none
    pure (ps.all fun p =>
      (digest.2.any fun f => f.name == p.1 && f.categories.any fun c => c.name == p.2) ||
        (present.map fun keys => !found keys (facetKey p.1 p.2 s.caseFold)).getD false)
  | none => pure (topPerField != 0 && decide (topPerField ≤ digest.1))

def facetPricingMeta (s : SplitSet) (split : Split) (f : MemoryFetch) (topPerField : Nat)
    (pairs : Option (List (String × String))) : Io FacetIndex :=
  match (s.summary split).bind digestOf with
  | some digest => do
    let usable ← ofOutcome (s.digestUsable split digest topPerField pairs)
    if usable then pure ⟨f, digest.2⟩ else FacetIndex.openMeta f
  | none => FacetIndex.openMeta f

variable [Roaring]

/-- What `facet_counts_top` reads of the split at `e.1`, for the ids `e.2` of it. -/
def splitCounts [SelectNth] (s : SplitSet) (resolver : SplitFetcher) (topPerField : Nat) (e : Nat × Bitmap) :
    Io (FacetIndex × List (List Nat)) := do
  let f := resolver.fetchNamed (facetFileName (s.split e.1).dataFile)
  let facets ← s.facetPricingMeta (s.split e.1) f topPerField none
  let counts ← facets.countsFull e.2 topPerField
  pure (facets, counts)

def facetCountsTop [SelectNth] (s : SplitSet) (resolver : SplitFetcher) (ids : List (Fin u32Bound))
    (topPerField : Nat) : Io (List FieldCounts) := do
  let outcomes ← joinAll ((idsBySplit s.splits ids).map (s.splitCounts resolver topPerField))
  ofOutcome (foldPresent tallySplit [] outcomes)

/-- What `facet_counts_for` reads of a split. -/
def splitCountsFor (s : SplitSet) (resolver : SplitFetcher) (pairs : List (String × String)) (e : Nat × Bitmap) :
    Io (List Nat) := do
  let f := resolver.fetchNamed (facetFileName (s.split e.1).dataFile)
  let facets ← s.facetPricingMeta (s.split e.1) f 0 (some pairs)
  facets.countsFor e.2 pairs

def facetCountsFor (s : SplitSet) (resolver : SplitFetcher) (ids : List (Fin u32Bound))
    (pairs : List (String × String)) : Io (List Nat) := do
  let outcomes ← joinAll ((idsBySplit s.splits ids).map (s.splitCountsFor resolver pairs))
  ofOutcome (foldPresent addTotals (List.replicate pairs.length 0) outcomes)

end

end SplitSet

/-! ## Routing -/

theorem forall₂_zipIdx {α β : Type} {R : α → β → Prop} {xs : List α} {ys : List β} (h : List.Forall₂ R xs ys) (n : Nat) :
    List.Forall₂ (fun x y => R x.1 y.1 ∧ x.2 = y.2) (xs.zipIdx n) (ys.zipIdx n) := by
  induction h generalizing n with
  | nil => exact List.Forall₂.nil
  | cons hxy _ ih =>
    rw [List.zipIdx_cons, List.zipIdx_cons]
    exact List.Forall₂.cons ⟨hxy, rfl⟩ (ih (n + 1))

/-- Ids are routed by the ranges of the splits only. -/
theorem idsBySplit_congr {xs ys : List Split}
    (h : List.Forall₂ (fun x y => x.contains = y.contains ∧ x.toLocal = y.toLocal) xs ys) (ids : List (Fin u32Bound)) :
    idsBySplit xs ids = idsBySplit ys ids := by
  have hplace : ∀ m gid, placeId xs m gid = placeId ys m gid := by
    intro m gid
    unfold placeId
    rcases find?_forall₂ (forall₂_zipIdx h 0) (p := fun x => x.1.contains gid.val) (q := fun x => x.1.contains gid.val)
      (fun x y hxy => by rw [hxy.1.1]) with ⟨h1, h2⟩ | ⟨x, y, h1, h2, hxy⟩
    · rw [h1, h2]
    · rw [h1, h2]
      obtain ⟨⟨-, hlocal⟩, hi⟩ := hxy
      simp only [hlocal, hi]
  have hfun : placeId xs = placeId ys := funext fun m => funext (hplace m)
  unfold idsBySplit
  rw [hfun]

theorem lt_of_mem_idsBySplit {splits : List Split} {ids : List (Fin u32Bound)} {e : Nat × Bitmap}
    (h : e ∈ idsBySplit splits ids) : e.1 < splits.length := by
  have hall : ∀ (ids : List (Fin u32Bound)) (m : OrdMap Nat Bitmap), (∀ k ∈ m.keys, k < splits.length) →
      ∀ k ∈ (ids.foldl (placeId splits) m).keys, k < splits.length := by
    intro ids
    induction ids with
    | nil => exact fun m hm => hm
    | cons gid ids ih =>
      intro m hm
      apply ih
      intro k hk
      unfold placeId at hk
      split at hk
      · next split si hfind =>
        rcases OrdMap.keys_update_subset.mp hk with rfl | hk
        · have hmem := List.mem_zipIdx_iff_getElem?.mp (List.mem_of_find?_eq_some hfind)
          exact (List.getElem?_eq_some_iff.mp hmem).1
        · exact hm k hk
      · exact hm k hk
  exact hall ids ∅ (fun k hk => absurd hk List.not_mem_nil) e.1 (List.mem_map_of_mem h)

/-! ## Counting by name -/

def addCount (existing : Option Nat) (n : Nat) : Option Nat := if n = 0 then existing else some (existing.getD 0 + n)

theorem foldl_addCount (ns : List Nat) (m : Nat) :
    ns.foldl addCount (if m = 0 then none else some m) = if m + ns.sum = 0 then none else some (m + ns.sum) := by
  induction ns generalizing m with
  | nil => rfl
  | cons n ns ih =>
    have hstep : addCount (if m = 0 then none else some m) n = if m + n = 0 then none else some (m + n) := by
      unfold addCount
      by_cases hn : n = 0
      · rw [if_pos hn, hn, Nat.add_zero]
      · rw [if_neg hn, if_neg (show ¬ m + n = 0 by omega)]
        by_cases hm : m = 0
        · rw [if_pos hm, hm]
          rfl
        · rw [if_neg hm]
          rfl
    rw [List.foldl_cons, hstep, ih, List.sum_cons, Nat.add_assoc]

theorem zip_map_self {α β : Type} (xs : List α) (g : α → β) : xs.zip (xs.map g) = xs.map fun x => (x, g x) := by
  induction xs with
  | nil => rfl
  | cons x xs ih => rw [List.map_cons, List.zip_cons_cons, ih, List.map_cons]

theorem lookup_tallyCategories {cats : List Category} (hn : (cats.map Category.name).Nodup) (count : Category → Nat)
    (acc : List (String × Nat)) (name : String) :
    ((cats.zip (cats.map count)).foldl tallyCategory acc).lookup name =
      addCount (acc.lookup name) (((cats.find? fun c => c.name = name).map count).getD 0) := by
  have hfold := FirstSeen.lookup_foldl_upsert (fun c => count c = 0)
    (fun c (existing : Option Nat) => existing.getD 0 + count c) hn name acc
  rw [zip_map_self, List.foldl_map]
  unfold tallyCategory
  rw [hfold]
  cases cats.find? fun c => decide (c.name = name) <;> rfl

/-- **A split's counts are added by name.** -/
theorem readCounts_tallySplit {fi : FacetIndex} (hn : fi.Named) (count : Field → Category → Nat)
    (acc : List FieldCounts) (pair : String × String) :
    readCounts (tallySplit acc (fi, fi.fields.map fun f => f.categories.map (count f))) pair =
      addCount (readCounts acc pair) (((fi.named pair).map fun x => count x.1 x.2).getD 0) := by
  have hfold := FirstSeen.lookup_foldl_upsert (fun _ => False)
    (fun (f : Field) (cats : Option (List (String × Nat))) =>
      (f.categories.zip (f.categories.map (count f))).foldl tallyCategory (cats.getD [])) hn.fields pair.1 acc
  simp only [if_false] at hfold
  unfold tallySplit readCounts
  rw [zip_map_self, List.foldl_map]
  unfold tallyField
  rw [hfold]
  unfold FacetIndex.named
  cases hf : fi.fields.find? fun f => decide (f.name = pair.1) with
  | none => rfl
  | some f =>
    have hcats := hn.cats f (List.mem_of_find?_eq_some hf)
    simp only [Option.elim_some, Option.bind_some]
    rw [lookup_tallyCategories hcats]
    cases acc.lookup pair.1 with
    | none =>
      cases f.categories.find? fun c => decide (c.name = pair.2) <;> rfl
    | some cats =>
      cases f.categories.find? fun c => decide (c.name = pair.2) <;> rfl

/-! ## Outcomes of a wave -/

section

variable {α β γ ν : Type} {step : β → α → β} {view : β → γ} {add : γ → ν → γ}

/-- What an outcome adds to what is seen of the accumulator; a missing sidecar adds nothing. -/
def Adds (step : β → α → β) (view : β → γ) (add : γ → ν → γ) (r : Except IndexError α) (n : ν) : Prop :=
  (r = .error (.fetch .notFound) ∧ ∀ g, add g n = g) ∨ ∃ a, r = .ok a ∧ ∀ b, view (step b a) = add (view b) n

theorem foldPresent_adds {rs : List (Except IndexError α)} {ns : List ν} (h : List.Forall₂ (Adds step view add) rs ns) :
    ∀ b, ∃ b', foldPresent step b rs = .ok b' ∧ view b' = ns.foldl add (view b) := by
  induction h with
  | nil => exact fun b => ⟨b, rfl, rfl⟩
  | cons hr _ ih =>
    intro b
    rcases hr with ⟨rfl, hzero⟩ | ⟨a, rfl, hstep⟩
    · obtain ⟨b', hb', hview⟩ := ih b
      refine ⟨b', hb', ?_⟩
      rw [List.foldl_cons, hzero, hview]
    · obtain ⟨b', hb', hview⟩ := ih (step b a)
      refine ⟨b', hb', ?_⟩
      rw [List.foldl_cons, ← hstep, hview]

/-- A fault that is not a missing object is passed on. -/
theorem agrees_foldPresent {F : FetchError → Prop} (hF : ∀ e, F e → ¬ e = .notFound)
    {os rs : List (Except IndexError α)} (h : List.Forall₂ (Agrees F) os rs) :
    ∀ b : β, Agrees F (foldPresent step b os) (foldPresent step b rs) := by
  induction h with
  | nil => exact fun _ => Or.inl rfl
  | @cons o _ _ _ ho _ ih =>
    intro b
    rcases ho with rfl | ⟨e, he, rfl⟩
    · cases o with
      | ok a => exact ih (step b a)
      | error e =>
        cases e with
        | fetch e =>
          cases e with
          | notFound => exact ih b
          | outOfRange offset len available => exact Or.inl rfl
          | transport msg => exact Or.inl rfl
        | badMagic m => exact Or.inl rfl
        | badVersion v => exact Or.inl rfl
        | roaring msg => exact Or.inl rfl
        | malformed msg => exact Or.inl rfl
        | badQuery msg => exact Or.inl rfl
        | unsupported msg => exact Or.inl rfl
    · refine Or.inr ⟨e, he, ?_⟩
      cases e with
      | notFound => exact absurd rfl (hF _ he)
      | outOfRange offset len available => rfl
      | transport msg => rfl

/-- **A wave over splits** whose outcomes add up, if no fault is a missing object. -/
theorem settles_foldPresent {ios : List (Io α)} {rs : List (Except IndexError α)} {ns : List ν}
    (hs : List.Forall₂ Settles ios rs) (ha : List.Forall₂ (Adds step view add) rs ns) (b : β) :
    ∃ b', SettlesUnless (· = FetchError.notFound)
      (do let os ← joinAll ios; ofOutcome (foldPresent step b os)) (.ok b') ∧ view b' = ns.foldl add (view b) := by
  obtain ⟨b', hb', hview⟩ := foldPresent_adds ha b
  refine ⟨b', ?_, hview⟩
  rw [← hb']
  exact SettlesUnless.joinAll_consume hs fun F hF os hos => agrees_foldPresent hF hos b

end

end RoaringRange
