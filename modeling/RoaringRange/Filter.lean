import RoaringRange.TailScan

/-!
# Resolved facet filters (`index.rs`, `ResolvedFilter`)

A resolved filter is, per included field, the posting ranges of its chosen categories, and the
ranges of the excluded categories.  Every category has a head and a tail posting in the facet file.

`FilterAt g rf H T`: the head postings of `rf` hold the sets `H` and the tail postings the sets `T`.
Then the head filter keeps the docs that pass `H`, the tail filter those that pass `T`:

    FilterAt g rf H T → applyHead settles on result.filter H.passes           (settles_applyHead)
    FilterAt g rf H T → applyTail settles on result.filter T.passes           (settles_applyTail)
-/

namespace RoaringRange

open ByteString Faults Slices

/-- `index::CatRange`. -/
structure CatRange where
  headOff : Nat
  headSize : Nat
  tailOff : Nat
  tailSize : Nat
  deriving DecidableEq, Repr

def CatRange.headRange (c : CatRange) : Nat × Nat := (c.headOff, c.headSize)

def CatRange.tailRange (c : CatRange) : Nat × Nat := (c.tailOff, c.tailSize)

/-- `index::ResolvedFilter`. -/
structure ResolvedFilter where
  fetch : MemoryFetch
  fields : List (List CatRange)
  excludes : List CatRange

namespace ResolvedFilter

/-- `ResolvedFilter::is_empty`. -/
def isEmpty (rf : ResolvedFilter) : Bool := rf.fields.isEmpty && rf.excludes.isEmpty

/-- `ResolvedFilter::has_empty_arm`. -/
def hasEmptyArm (rf : ResolvedFilter) : Bool := rf.fields.any fun cats => cats.isEmpty

section

variable [Roaring]

/-- The bitmaps of the ranges, read in one coalesced wave. -/
def readRanges (f : MemoryFetch) (ranges : List (Nat × Nat)) : Io (List Bitmap) := do
  let datas ← readCoalesced f ranges coalesceGap
  ofOutcome (collect (datas.map deserialize))

/-- `ResolvedFilter::exclude_union`. -/
def excludeUnion (rf : ResolvedFilter) (rangeOf : CatRange → Nat × Nat) : Io Bitmap :=
  if rf.excludes.isEmpty then pure ∅
  else do
    let bms ← readRanges rf.fetch (rf.excludes.map rangeOf)
    pure (AscSet.unions bms)

/-- The postings of a wave ORed into their fields. -/
def orIntoFields (perField : List Bitmap) : List (Nat × Bitmap) → List Bitmap
  | [] => perField
  | (fi, bm) :: rest => orIntoFields (perField.set fi (perField.getD fi ∅ ∪ bm)) rest

/-- `ResolvedFilter::combine`. -/
def combine (rf : ResolvedFilter) (rangeOf : CatRange → Nat × Nat) : Io Bitmap :=
  if rf.hasEmptyArm then pure ∅
  else do
    let flat := rf.fields.zipIdx.flatMap fun x => x.1.map fun c => (x.2, rangeOf c)
    let bms ← readRanges rf.fetch (flat.map Prod.snd)
    let perField := orIntoFields (List.replicate rf.fields.length ∅) ((flat.map Prod.fst).zip bms)
    pure (AscSet.inters (AscSet.sortByLen perField))

/-- Intersects with the includes, on the side `rangeOf` picks. -/
def applyIncludes (rf : ResolvedFilter) (rangeOf : CatRange → Nat × Nat) (result : Bitmap) : Io Bitmap :=
  if rf.fields.isEmpty then pure result
  else do
    let b ← rf.combine rangeOf
    pure (result ∩ b)

/-- Subtracts the excludes, on the side `rangeOf` picks. -/
def applyExcludes (rf : ResolvedFilter) (rangeOf : CatRange → Nat × Nat) (result : Bitmap) : Io Bitmap :=
  if rf.excludes.isEmpty then pure result
  else do
    let x ← rf.excludeUnion rangeOf
    pure (result \ x)

def applySide (rf : ResolvedFilter) (rangeOf : CatRange → Nat × Nat) (result : Bitmap) : Io Bitmap := do
  let result ← rf.applyIncludes rangeOf result
  rf.applyExcludes rangeOf result

/-- `ResolvedFilter::apply_head`. -/
def applyHead (rf : ResolvedFilter) (result : Bitmap) : Io Bitmap := rf.applySide CatRange.headRange result

/-- `ResolvedFilter::apply_tail`. -/
def applyTail (rf : ResolvedFilter) (result : Bitmap) : Io Bitmap := rf.applySide CatRange.tailRange result

end

/-- The postings `rangeOf` picks hold the sets `F`. -/
structure SideAt [Roaring] (rf : ResolvedFilter) (rangeOf : CatRange → Nat × Nat) (F : FilterSets) :
    Prop where
  fields : List.Forall₂ (fun cats sets => PostingsAt rf.fetch (cats.map rangeOf) sets) rf.fields F.fields
  excludes : PostingsAt rf.fetch (rf.excludes.map rangeOf) F.excludes

/-- The head postings of the filter hold `H`, its tail postings `T`. -/
structure FilterAt [Roaring] (rf : ResolvedFilter) (H T : FilterSets) : Prop where
  head : rf.SideAt CatRange.headRange H
  tail : rf.SideAt CatRange.tailRange T

/-! ## Lemmas -/

/-- After ORing a wave into its fields, field `i` has what it had and what was sent to it. -/
theorem mem_orIntoFields {posts : List (Nat × Bitmap)} :
    ∀ {perField : List Bitmap} {i d : Nat}, i < perField.length →
      ((orIntoFields perField posts).length = perField.length ∧
        (d ∈ (orIntoFields perField posts).getD i ∅ ↔
          d ∈ perField.getD i ∅ ∨ ∃ p ∈ posts, p.1 = i ∧ d ∈ p.2)) := by
  induction posts with
  | nil => intro perField i d _; simp [orIntoFields]
  | cons p posts ih =>
    obtain ⟨fi, bm⟩ := p
    intro perField i d hi
    obtain ⟨hlen, hmem⟩ := @ih (perField.set fi (perField.getD fi ∅ ∪ bm)) i d
      (by simpa using hi)
    refine ⟨by simpa [orIntoFields] using hlen, ?_⟩
    rw [orIntoFields, hmem, List.exists_mem_cons_iff]
    have hget : d ∈ (perField.set fi (perField.getD fi ∅ ∪ bm)).getD i ∅ ↔
        d ∈ perField.getD i ∅ ∨ fi = i ∧ d ∈ bm := by
      by_cases hfi : fi = i
      · subst hfi
        simp [List.getD_eq_getElem?_getD, List.getElem?_set_self hi]
      · simp [List.getD_eq_getElem?_getD, List.getElem?_set_ne hfi, hfi]
    rw [hget, or_assoc]

/-- What is sent to field `i` are the postings of its categories. -/
theorem mem_flat_fields {sets : List (List Bitmap)} {i d : Nat} (hi : i < sets.length) :
    (∃ p ∈ (sets.zipIdx).flatMap (fun x => x.1.map fun S => (x.2, S)), p.1 = i ∧ d ∈ p.2) ↔
      inAny sets[i] d = true := by
  simp only [List.mem_flatMap, List.mem_map, inAny, List.any_eq_true, decide_eq_true_eq]
  constructor
  · rintro ⟨p, ⟨x, hx, S, hS, rfl⟩, hxi, hd⟩
    have hget : sets[x.2]? = some x.1 := List.mem_zipIdx_iff_getElem?.mp hx
    simp only at hxi
    subst hxi
    rw [List.getElem?_eq_getElem hi] at hget
    rw [Option.some.inj hget]
    exact ⟨S, hS, hd⟩
  · rintro ⟨S, hS, hd⟩
    refine ⟨(i, S), ⟨(sets[i], i), ?_, S, hS, rfl⟩, rfl, hd⟩
    exact List.mem_zipIdx_iff_getElem?.mpr (List.getElem?_eq_getElem hi)

/-- The wave of all fields' postings, ORed into the fields: a doc is in all of them when every field has it. -/
theorem mem_perField {sets : List (List Bitmap)} {n d : Nat} (hn : n = sets.length) :
    (∀ S ∈ orIntoFields (List.replicate n ∅) ((sets.zipIdx).flatMap fun x => x.1.map fun S => (x.2, S)), d ∈ S) ↔
      ∀ cats ∈ sets, inAny cats d = true := by
  subst hn
  generalize hper : orIntoFields (List.replicate sets.length ∅)
    ((sets.zipIdx).flatMap fun x => x.1.map fun S => (x.2, S)) = perField
  have hspec : ∀ i (hi : i < sets.length), perField.length = sets.length ∧
      (d ∈ perField.getD i ∅ ↔ inAny sets[i] d = true) := by
    intro i hi
    obtain ⟨hl, hm⟩ := @mem_orIntoFields
      ((sets.zipIdx).flatMap fun x => x.1.map fun S => (x.2, S)) (List.replicate sets.length ∅) i d (by simpa using hi)
    rw [hper] at hl hm
    have hempty : d ∉ (List.replicate sets.length (∅ : Bitmap)).getD i ∅ := by
      simp [List.getD_eq_getElem?_getD, hi]
    refine ⟨by simpa using hl, ?_⟩
    rw [hm, mem_flat_fields hi]
    simp only [hempty, false_or]
  constructor
  · intro hall cats hcats
    obtain ⟨i, hi, rfl⟩ := List.getElem_of_mem hcats
    obtain ⟨hl, hm⟩ := hspec i hi
    refine hm.mp (hall _ ?_)
    rw [List.getD_eq_getElem _ _ (by omega)]
    exact List.getElem_mem _
  · intro hall S hS
    obtain ⟨i, hi, rfl⟩ := List.getElem_of_mem hS
    have hpos : 0 < sets.length := by
      rw [← Nat.ne_zero_iff_zero_lt]
      intro h0
      rw [List.length_eq_zero_iff.mp h0] at hper
      rw [← hper] at hi
      exact absurd hi (by simp [orIntoFields])
    have hi' : i < sets.length := by rw [← (hspec 0 hpos).1]; exact hi
    have := (hspec i hi').2.mpr (hall _ (List.getElem_mem _))
    rwa [List.getD_eq_getElem _ _ hi] at this

section

variable [Roaring]

theorem settles_readRanges {f : MemoryFetch} {ranges : List (Nat × Nat)} {sets : List Bitmap}
    (h : PostingsAt f ranges sets) : Settles (readRanges f ranges) (.ok sets) := by
  refine (settles_readCoalesced ?_).bind ?_
  · intro r hr _
    obtain ⟨S, -, hp⟩ := h.exists_set hr
    exact hp.inFile
  · have hdes : (ranges.map fun r => slice f.bytes r.1 r.2).map deserialize =
        sets.map (Except.ok (ε := IndexError)) := by
      induction h with
      | nil => rfl
      | @cons r S ranges sets hr _ ih =>
        rw [List.map_cons, List.map_cons, deserialize_of_represents hr.represents, ih]
        rfl
    rw [hdes, collect_ok]
    exact Settles.ofOutcome _

theorem PostingsAt.append {f : MemoryFetch} {rs ss : List (Nat × Nat)} {Ss Ts : List Bitmap}
    (h : PostingsAt f rs Ss) (h' : PostingsAt f ss Ts) : PostingsAt f (rs ++ ss) (Ss ++ Ts) :=
  List.rel_append h h'

/-- The postings of all fields one after the other, each with the index of its field. -/
theorem flat_postingsAt {f : MemoryFetch} {rangeOf : CatRange → Nat × Nat} {fields : List (List CatRange)}
    {sets : List (List Bitmap)}
    (h : List.Forall₂ (fun cats sets => PostingsAt f (cats.map rangeOf) sets) fields sets) (n : Nat) :
    PostingsAt f (((fields.zipIdx n).flatMap fun x => x.1.map fun c => (x.2, rangeOf c)).map Prod.snd)
      ((sets.zipIdx n).flatMap Prod.fst) ∧
    (((fields.zipIdx n).flatMap fun x => x.1.map fun c => (x.2, rangeOf c)).map Prod.fst).zip
      ((sets.zipIdx n).flatMap Prod.fst) = (sets.zipIdx n).flatMap fun x => x.1.map fun S => (x.2, S) := by
  induction h generalizing n with
  | nil => exact ⟨List.Forall₂.nil, rfl⟩
  | @cons cats Ss fields sets hcats _ ih =>
    obtain ⟨h1, h2⟩ := ih (n + 1)
    have hlen : cats.length = Ss.length := by simpa using hcats.length_eq
    have hzip : ∀ (cs : List CatRange) (Ts : List Bitmap), cs.length = Ts.length →
        (cs.map fun _ => n).zip Ts = Ts.map fun S => (n, S) := by
      intro cs
      induction cs with
      | nil => intro Ts hT; rw [List.length_eq_zero_iff.mp hT.symm]; rfl
      | cons c cs ih =>
        rintro (_ | ⟨T, Ts⟩) hT
        · exact absurd hT (by simp)
        · rw [List.map_cons, List.zip_cons_cons, List.map_cons, ih Ts (by simpa using hT)]
    simp only [List.zipIdx_cons, List.flatMap_cons, List.map_append, List.map_map]
    refine ⟨PostingsAt.append hcats h1, ?_⟩
    rw [List.zip_append (by simpa using hlen), h2]
    exact congrArg (· ++ _) (hzip cats Ss hlen)

/-- The includes of one side: the docs that have a chosen category of every field. -/
theorem settles_combine {rf : ResolvedFilter} {rangeOf : CatRange → Nat × Nat} {F : FilterSets}
    (h : rf.SideAt rangeOf F) (hne : rf.fields ≠ []) :
    ∃ B : Bitmap, Settles (rf.combine rangeOf) (.ok B) ∧
      ∀ d, d ∈ B ↔ F.fields.all (fun cats => inAny cats d) = true := by
  have hlen := h.fields.length_eq
  unfold combine
  split
  · next hempty =>
    refine ⟨∅, Settles.pure _, fun d => ⟨fun hd => absurd hd (AscSet.not_mem_empty d), fun hall => ?_⟩⟩
    obtain ⟨cats, hcats, hnil⟩ := List.any_eq_true.mp hempty
    obtain ⟨i, hi, rfl⟩ := List.getElem_of_mem hcats
    have hi' : i < F.fields.length := by omega
    have hsets := (List.forall₂_iff_get.mp h.fields).2 i hi hi'
    simp only [List.get_eq_getElem] at hsets
    rw [List.isEmpty_iff.mp hnil] at hsets
    have hfalse := List.all_eq_true.mp hall _ (List.getElem_mem hi')
    rw [List.forall₂_nil_left_iff.mp hsets] at hfalse
    simp [inAny] at hfalse
  · obtain ⟨h1, h2⟩ := flat_postingsAt h.fields 0
    refine ⟨_, (settles_readRanges h1).bind (Settles.pure _), fun d => ?_⟩
    rw [AscSet.inters_sortByLen, h2, hlen]
    have hpne : orIntoFields (List.replicate F.fields.length ∅)
        ((F.fields.zipIdx).flatMap fun x => x.1.map fun S => (x.2, S)) ≠ [] := by
      have hpos : 0 < F.fields.length := by rw [← hlen]; exact List.length_pos_iff.mpr hne
      obtain ⟨hl, -⟩ := @mem_orIntoFields ((F.fields.zipIdx).flatMap fun x => x.1.map fun S => (x.2, S))
        (List.replicate F.fields.length ∅) 0 d (by simpa using hpos)
      rw [List.length_replicate] at hl
      exact List.length_pos_iff.mp (by omega)
    rw [AscSet.mem_inters hpne, mem_perField rfl, List.all_eq_true]

theorem settles_excludeUnion {rf : ResolvedFilter} {rangeOf : CatRange → Nat × Nat} {F : FilterSets}
    (h : rf.SideAt rangeOf F) :
    Settles (rf.excludeUnion rangeOf) (.ok (AscSet.unions F.excludes)) := by
  unfold excludeUnion
  split
  · next hnil =>
    have hx := h.excludes
    rw [List.isEmpty_iff.mp hnil] at hx
    rw [List.forall₂_nil_left_iff.mp hx]
    exact Settles.pure _
  · exact (settles_readRanges h.excludes).bind (Settles.pure _)

/-- Applying one side keeps the docs that pass it. -/
theorem settles_applySide {rf : ResolvedFilter} {rangeOf : CatRange → Nat × Nat} {F : FilterSets}
    (h : rf.SideAt rangeOf F) (result : Bitmap) :
    Settles (rf.applySide rangeOf result) (.ok (result.filter F.passes)) := by
  have hincl : Settles (rf.applyIncludes rangeOf result)
      (.ok (result.filter fun d => F.fields.all fun cats => inAny cats d)) := by
    unfold applyIncludes
    split
    · next hnil =>
      have hf := h.fields
      rw [List.isEmpty_iff.mp hnil] at hf
      have heq : result.filter (fun d => F.fields.all fun cats => inAny cats d) = result := by
        rw [List.forall₂_nil_left_iff.mp hf]
        exact AscSet.filter_true result
      rw [heq]
      exact Settles.pure _
    · next hcons =>
      obtain ⟨B, hB, hmem⟩ := settles_combine h (by simpa using hcons)
      have heq : result ∩ B = result.filter fun d => F.fields.all fun cats => inAny cats d :=
        AscSet.ext_mem fun d => by rw [AscSet.mem_inter, AscSet.mem_filter, hmem]
      rw [← heq]
      exact hB.bind (Settles.pure _)
  refine hincl.bind ?_
  generalize hres : result.filter (fun d => F.fields.all fun cats => inAny cats d) = res
  have hfinal : result.filter F.passes = res.filter fun d => !inAny F.excludes d := by
    refine AscSet.ext_mem fun d => ?_
    rw [← hres]
    simp only [AscSet.mem_filter, FilterSets.passes, Bool.and_eq_true, and_assoc]
  rw [hfinal]
  unfold applyExcludes
  split
  · next hnil =>
    have hx := h.excludes
    rw [List.isEmpty_iff.mp hnil] at hx
    have heq : res.filter (fun d => !inAny F.excludes d) = res := by
      rw [List.forall₂_nil_left_iff.mp hx]
      exact AscSet.filter_true res
    rw [heq]
    exact Settles.pure _
  · have heq : res \ AscSet.unions F.excludes = res.filter fun d => !inAny F.excludes d := by
      refine AscSet.ext_mem fun d => ?_
      rw [AscSet.mem_sdiff, AscSet.mem_filter, AscSet.mem_unions]
      simp [inAny]
    rw [← heq]
    exact (settles_excludeUnion h).bind (Settles.pure _)

theorem settles_applyHead {rf : ResolvedFilter} {H T : FilterSets} (h : rf.FilterAt H T) (result : Bitmap) :
    Settles (rf.applyHead result) (.ok (result.filter H.passes)) := settles_applySide h.head result

theorem settles_applyTail {rf : ResolvedFilter} {H T : FilterSets} (h : rf.FilterAt H T) (result : Bitmap) :
    Settles (rf.applyTail result) (.ok (result.filter T.passes)) := settles_applySide h.tail result

end

end ResolvedFilter

end RoaringRange
