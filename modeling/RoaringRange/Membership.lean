import RoaringRange.Paging

/-!
# The filter of a list of ids (`index.rs`, `ResolvedFilter`)

`fullBitmap` reads the chosen postings whole; `membershipBitmap` reads of each only what the ids can lie in: the head
posting where some id is in bucket 0, and of the tail posting the other buckets of the ids.  Which posting a doc is in
is a matter of the sidecar's head boundary, though, and not of its bucket:

    fullBitmap settles on the docs that pass                                        (settles_fullBitmap)
    membershipBitmap settles on the ids that pass by the postings it has read       (settles_membershipBitmap)
    the two agree exactly when no id between the boundaries is decided otherwise          (membership_iff)
-/

namespace RoaringRange

open ByteString Faults Slices

/-! ## The two filters -/

namespace ResolvedFilter

section

variable [Roaring]

def fullBitmap (rf : ResolvedFilter) : Io Bitmap := do
  let sides ← tryAll [rf.combine CatRange.headRange, rf.combine CatRange.tailRange]
  let b := AscSet.unions sides
  if rf.excludes.isEmpty then pure b
  else do
    let xs ← tryAll [rf.excludeUnion CatRange.headRange, rf.excludeUnion CatRange.tailRange]
    pure (xs.foldl (· \ ·) b)

/-- A posting that is read only when it is needed. -/
def readIf (needed : Prop) [Decidable needed] (posting : Io Bitmap) : Io Bitmap := if needed then posting else pure ∅

/-- What the membership wave reads of a category. -/
def readCategory (f : MemoryFetch) (headNeeded : Bool) (tailKeys : List Nat) (c : CatRange) : Io Bitmap := do
  let head ← readIf (headNeeded ∧ 0 < c.headSize) (readPosting f c.headOff c.headSize)
  let tail ← readIf (¬ tailKeys.isEmpty ∧ 0 < c.tailSize) (readPostingSubset f c.tailOff c.tailSize tailKeys)
  pure (head ∪ tail)

def membershipBitmap (rf : ResolvedFilter) (ids : Bitmap) : Io Bitmap :=
  if ids.isEmpty ∨ rf.hasEmptyArm then pure ∅
  else do
    let keys := distinctHighKeys ids
    let headNeeded := keys.head? == some 0
    let tailKeys := keys.filter (· ≠ 0)
    let flat := rf.fields.zipIdx.flatMap fun x => x.1.map fun c => (x.2, c)
    let bms ← tryAll (flat.map fun x => readCategory rf.fetch headNeeded tailKeys x.2)
    let perField := orIntoFields (List.replicate rf.fields.length ∅) ((flat.map Prod.fst).zip bms)
    let acc := AscSet.interAll ids (AscSet.sortByLen perField)
    if rf.excludes.isEmpty ∨ acc.isEmpty then pure acc
    else do
      let xs ← tryAll (rf.excludes.map (readCategory rf.fetch headNeeded tailKeys))
      pure (acc \ AscSet.unions xs)

end

end ResolvedFilter

/-! ## What they settle on -/

section

variable [Roaring]

def readDocs (f : MemoryFetch) (head tail : CatRange → Bitmap) (ids : Bitmap) (c : CatRange) : Bitmap :=
  let keys := distinctHighKeys ids
  let tailKeys := keys.filter (· ≠ 0)
  (if keys.head? == some 0 then head c else ∅) ∪
    if tailKeys.isEmpty then ∅ else subsetRead f c.tailOff c.tailSize (tail c) tailKeys

/-- The ranges are postings, none of them without a byte. -/
structure CatRange.Posted (f : MemoryFetch) (head tail : CatRange → Bitmap) (c : CatRange) : Prop where
  head : PostingAt f c.headOff c.headSize (head c)
  tail : PostingAt f c.tailOff c.tailSize (tail c)
  headSize_pos : 0 < c.headSize
  tailSize_pos : 0 < c.tailSize

theorem settles_readCategory {f : MemoryFetch} {head tail : CatRange → Bitmap} {c : CatRange}
    (h : c.Posted f head tail) (ids : Bitmap) :
    Settles (ResolvedFilter.readCategory f ((distinctHighKeys ids).head? == some 0)
      ((distinctHighKeys ids).filter (· ≠ 0)) c) (.ok (readDocs f head tail ids c)) := by
  have hasc : ((distinctHighKeys ids).filter (· ≠ 0)).Pairwise (· < ·) := (distinctHighKeys_asc ids).filter _
  unfold ResolvedFilter.readCategory
  refine Settles.bind (a := if (distinctHighKeys ids).head? == some 0 then head c else ∅) ?_ ?_
  · unfold ResolvedFilter.readIf
    by_cases hneed : ((distinctHighKeys ids).head? == some 0) = true
    · rw [if_pos ⟨hneed, h.headSize_pos⟩, if_pos hneed]
      exact settles_readPosting h.head
    · rw [if_neg fun hh => hneed hh.1, if_neg hneed]
      exact Settles.pure _
  · refine Settles.bind (a := if ((distinctHighKeys ids).filter (· ≠ 0)).isEmpty then ∅
        else subsetRead f c.tailOff c.tailSize (tail c) ((distinctHighKeys ids).filter (· ≠ 0))) ?_ (Settles.pure _)
    unfold ResolvedFilter.readIf
    by_cases hnone : ((distinctHighKeys ids).filter (· ≠ 0)).isEmpty = true
    · rw [if_neg fun hh => hh.1 hnone, if_pos hnone]
      exact Settles.pure _
    · rw [if_pos ⟨hnone, h.tailSize_pos⟩, if_neg hnone]
      exact settles_readPostingSubset h.tail hasc

namespace ResolvedFilter

variable {rf : ResolvedFilter} {head tail : CatRange → Bitmap}

def Posted (rf : ResolvedFilter) (head tail : CatRange → Bitmap) : Prop :=
  (∀ cats ∈ rf.fields, ∀ c ∈ cats, c.Posted rf.fetch head tail) ∧ ∀ c ∈ rf.excludes, c.Posted rf.fetch head tail

theorem Posted.filterAt (h : rf.Posted head tail) : rf.FilterAt (rf.side head) (rf.side tail) :=
  filterAt_side (fun cats hcats c hc => ⟨(h.1 cats hcats c hc).head, (h.1 cats hcats c hc).tail⟩)
    fun c hc => ⟨(h.2 c hc).head, (h.2 c hc).tail⟩

/-- **The membership filter keeps the ids that pass by the postings it has read.** -/
theorem settles_membershipBitmap (h : rf.Posted head tail) (ids : Bitmap) :
    Settles (rf.membershipBitmap ids) (.ok (ids.filter (rf.side (readDocs rf.fetch head tail ids)).passes)) := by
  unfold membershipBitmap
  generalize hread : readDocs rf.fetch head tail ids = read
  split
  · next hnone =>
    have hempty : ids.filter (rf.side read).passes = ∅ := by
      refine AscSet.isEmpty_iff.mp (AscSet.isEmpty_iff_forall.mpr fun d hd => ?_)
      rw [AscSet.mem_filter, passes_side] at hd
      rcases hnone with hids | harm
      · exact AscSet.isEmpty_iff_forall.mp hids d hd.1
      · obtain ⟨cats, hcats, hnil⟩ := List.any_eq_true.mp harm
        obtain ⟨c, hc, -⟩ := hd.2.1 cats hcats
        rw [List.isEmpty_iff.mp hnil] at hc
        exact absurd hc List.not_mem_nil
    rw [hempty]
    exact Settles.pure _
  · simp only
    refine (settles_tryAll_map (g := fun x => read x.2) fun x hx => ?_).bind ?_
    · obtain ⟨y, hy, hx⟩ := List.mem_flatMap.mp hx
      obtain ⟨c, hc, rfl⟩ := List.mem_map.mp hx
      rw [← hread]
      exact settles_readCategory (h.1 y.1 (List.fst_mem_of_mem_zipIdx hy) c hc) ids
    · have hflat : ((rf.fields.zipIdx.flatMap fun x => x.1.map fun c => (x.2, c)).map Prod.fst).zip
          ((rf.fields.zipIdx.flatMap fun x => x.1.map fun c => (x.2, c)).map fun x => read x.2) =
          ((rf.side read).fields.zipIdx).flatMap fun x => x.1.map fun S => (x.2, S) := by
        rw [List.zip_map', side, List.zipIdx_map, List.map_flatMap, List.flatMap_map]
        refine List.flatMap_congr fun x _ => ?_
        rw [List.map_map]
        simp
      rw [hflat]
      generalize hacc : AscSet.interAll ids (AscSet.sortByLen (orIntoFields (List.replicate rf.fields.length ∅)
        (((rf.side read).fields.zipIdx).flatMap fun x => x.1.map fun S => (x.2, S)))) = acc
      have hmem : ∀ d, d ∈ acc ↔ d ∈ ids ∧ ∀ cats ∈ (rf.side read).fields, inAny cats d = true := by
        intro d
        have hlen : rf.fields.length = (rf.side read).fields.length := (List.length_map _).symm
        rw [← hacc, AscSet.mem_interAll]
        simp only [AscSet.mem_sortByLen]
        rw [mem_perField hlen]
      split
      · next hdone =>
        have heq : ids.filter (rf.side read).passes = acc := by
          refine AscSet.ext_mem fun d => ?_
          rw [AscSet.mem_filter, hmem, FilterSets.passes, Bool.and_eq_true, List.all_eq_true]
          rcases hdone with hx | hacc
          · have hno : (rf.side read).excludes = [] := by rw [side, List.isEmpty_iff.mp hx, List.map_nil]
            simp [hno, inAny]
          · have hd := AscSet.isEmpty_iff_forall.mp hacc d
            rw [hmem] at hd
            tauto
        rw [heq]
        exact Settles.pure _
      · refine (settles_tryAll_map (g := read) fun c hc => ?_).bind ?_
        · rw [← hread]
          exact settles_readCategory (h.2 c hc) ids
        · have heq : ids.filter (rf.side read).passes = acc \ AscSet.unions (rf.excludes.map read) := by
            refine AscSet.ext_mem fun d => ?_
            rw [AscSet.mem_filter, AscSet.mem_sdiff, hmem, AscSet.mem_unions, FilterSets.passes, Bool.and_eq_true,
              List.all_eq_true, Bool.not_eq_true', ← Bool.not_eq_true, inAny, List.any_eq_true, and_assoc]
            simp [side]
          rw [heq]
          exact Settles.pure _

/-- **The full filter** has the docs of which one side has every field and neither an exclude. -/
theorem settles_fullBitmap (h : rf.Posted head tail) (hne : rf.fields ≠ []) :
    ∃ full, Settles rf.fullBitmap (.ok full) ∧ ∀ d, d ∈ full ↔
      ((∀ cats ∈ rf.fields, ∃ c ∈ cats, d ∈ head c) ∨ ∀ cats ∈ rf.fields, ∃ c ∈ cats, d ∈ tail c) ∧
        ∀ c ∈ rf.excludes, d ∉ head c ∧ d ∉ tail c := by
  have hat := h.filterAt
  obtain ⟨H, hH, hmemH⟩ := settles_combine hat.head hne
  obtain ⟨T, hT, hmemT⟩ := settles_combine hat.tail hne
  have hside : ∀ {docs : CatRange → Bitmap} {d : Nat}, (rf.side docs).fields.all (fun cats => inAny cats d) = true ↔
      ∀ cats ∈ rf.fields, ∃ c ∈ cats, d ∈ docs c := by
    intro docs d
    rw [side, List.all_eq_true, List.forall_mem_map]
    simp only [inAny_map]
  have hsides := Settles.tryAll (List.Forall₂.cons hH (List.Forall₂.cons hT List.Forall₂.nil))
  have hok : collect [Except.ok (ε := IndexError) H, .ok T] = .ok [H, T] := rfl
  rw [hok] at hsides
  unfold fullBitmap
  have hxs := Settles.tryAll (List.Forall₂.cons (settles_excludeUnion hat.head)
    (List.Forall₂.cons (settles_excludeUnion hat.tail) List.Forall₂.nil))
  have hokx : collect [Except.ok (ε := IndexError) (AscSet.unions (rf.side head).excludes),
    .ok (AscSet.unions (rf.side tail).excludes)] = .ok [_, _] := rfl
  rw [hokx] at hxs
  have hunion : ∀ d, d ∈ AscSet.unions [H, T] ↔
      (∀ cats ∈ rf.fields, ∃ c ∈ cats, d ∈ head c) ∨ ∀ cats ∈ rf.fields, ∃ c ∈ cats, d ∈ tail c := by
    intro d
    rw [AscSet.mem_unions]
    simp [hmemH, hmemT, hside]
  by_cases hx : rf.excludes = []
  · refine ⟨AscSet.unions [H, T], hsides.bind ?_, fun d => ?_⟩
    · rw [if_pos (List.isEmpty_iff.mpr hx)]
      exact Settles.pure _
    · rw [hunion, hx]
      simp
  · refine ⟨(AscSet.unions [H, T] \ AscSet.unions (rf.side head).excludes) \ AscSet.unions (rf.side tail).excludes,
      hsides.bind ?_, fun d => ?_⟩
    · have hne' : ¬ rf.excludes.isEmpty = true := fun h0 => hx (List.isEmpty_iff.mp h0)
      rw [if_neg hne']
      exact hxs.bind (Settles.pure _)
    · rw [AscSet.mem_sdiff, AscSet.mem_sdiff, hunion, AscSet.mem_unions, AscSet.mem_unions]
      simp only [side, List.mem_map, exists_exists_and_eq_and, not_exists, not_and]
      constructor
      · rintro ⟨⟨hd, hh⟩, ht⟩
        exact ⟨hd, fun c hc => ⟨hh c hc, ht c hc⟩⟩
      · rintro ⟨hd, hx⟩
        exact ⟨⟨hd, fun c hc => (hx c hc).1⟩, fun c hc => (hx c hc).2⟩

end ResolvedFilter

/-! ## Ids between the boundaries -/

omit [Roaring] in
theorem head?_eq_zero_iff {keys : List Nat} (h : keys.Pairwise (· < ·)) : (keys.head? == some 0) = true ↔ 0 ∈ keys := by
  cases keys with
  | nil => simp
  | cons k keys =>
    rw [List.head?_cons, beq_iff_eq, Option.some.injEq, List.mem_cons]
    refine ⟨fun hk => Or.inl hk.symm, fun hk => ?_⟩
    rcases hk with hk | hk
    · exact hk.symm
    · exact absurd ((List.pairwise_cons.mp h).1 0 hk) (Nat.not_lt_zero k)

omit [Roaring] in
theorem highKey_eq_zero_iff {d : Nat} : highKey d = 0 ↔ d < bucketSize := by
  unfold highKey
  rw [Nat.div_eq_zero_iff]
  exact ⟨fun h => h.resolve_left (by decide), Or.inr⟩

omit [Roaring] in
/-- An id is found by the head posting where some id is in bucket 0, by the tail posting where some id is not, unless
the reader seeks in it and skips the bucket 0. -/
theorem mem_readDocs {f : MemoryFetch} {head tail : CatRange → Bitmap} {ids : Bitmap} {c : CatRange} {d : Nat}
    (hd : d ∈ ids) : d ∈ readDocs f head tail ids c ↔
      (d ∈ head c ∧ ∃ e ∈ ids, e < bucketSize) ∨ (d ∈ tail c ∧ (∃ e ∈ ids, bucketSize ≤ e) ∧
        (bucketSize ≤ d ∨ ¬ (headerPrefix < c.tailSize ∧ Seekable f c.tailOff c.tailSize))) := by
  have hfirst : ((distinctHighKeys ids).head? == some 0) = true ↔ ∃ e ∈ ids, e < bucketSize := by
    rw [head?_eq_zero_iff (distinctHighKeys_asc ids), mem_distinctHighKeys]
    exact exists_congr fun e => and_congr_right fun _ => highKey_eq_zero_iff
  have hmem : ∀ {k : Nat}, k ∈ (distinctHighKeys ids).filter (· ≠ 0) ↔ (∃ e ∈ ids, highKey e = k) ∧ k ≠ 0 := by
    intro k
    rw [List.mem_filter, mem_distinctHighKeys, decide_eq_true_eq]
  have hother : ((distinctHighKeys ids).filter (· ≠ 0)).isEmpty = true ↔ ¬ ∃ e ∈ ids, bucketSize ≤ e := by
    rw [List.isEmpty_iff, List.eq_nil_iff_forall_not_mem]
    constructor
    · rintro h ⟨e, he, hle⟩
      refine h (highKey e) (hmem.mpr ⟨⟨e, he, rfl⟩, fun h0 => ?_⟩)
      exact absurd (highKey_eq_zero_iff.mp h0) (not_lt.mpr hle)
    · intro h k hk
      obtain ⟨⟨e, he, rfl⟩, hne⟩ := hmem.mp hk
      exact h ⟨e, he, not_lt.mp fun hlt => hne (highKey_eq_zero_iff.mpr hlt)⟩
  have hsub : d ∈ subsetRead f c.tailOff c.tailSize (tail c) ((distinctHighKeys ids).filter (· ≠ 0)) ↔
      d ∈ tail c ∧ (bucketSize ≤ d ∨ ¬ (headerPrefix < c.tailSize ∧ Seekable f c.tailOff c.tailSize)) := by
    unfold subsetRead
    split
    · next hseek =>
      rw [Bitmap.mem_restrict, hmem]
      refine and_congr_right fun _ => ?_
      rw [ne_eq, highKey_eq_zero_iff, not_lt]
      constructor
      · rintro ⟨-, hle⟩
        exact Or.inl hle
      · rintro (hle | hno)
        · exact ⟨⟨d, hd, rfl⟩, hle⟩
        · exact absurd hseek hno
    · next hno => exact ⟨fun h => ⟨h, Or.inr hno⟩, And.left⟩
  unfold readDocs
  simp only
  rw [AscSet.mem_union]
  refine or_congr ?_ ?_
  · split
    · next h => exact ⟨fun hh => ⟨hh, hfirst.mp h⟩, And.left⟩
    · next h => exact iff_of_false (AscSet.not_mem_empty d) fun hh => h (hfirst.mpr hh.2)
  · split
    · next h => exact iff_of_false (AscSet.not_mem_empty d) fun hh => hother.mp h hh.2.1
    · next h =>
      have hsome : ∃ e ∈ ids, bucketSize ≤ e := not_not.mp fun hno => h (hother.mpr hno)
      rw [hsub]
      tauto

namespace FacetIndex

/-- Every category that a name finds has its docs below the boundary in the head posting, the others in the tail. -/
structure SplitAt (fi : FacetIndex) (headBoundary : Nat) : Prop where
  posted : ∀ field category r, fi.catRange field category = some r → r.Posted fi.fetch fi.headDocs fi.tailDocs
  head_lt : ∀ field category r, fi.catRange field category = some r → ∀ d ∈ fi.headDocs r, d < headBoundary
  tail_ge : ∀ field category r, fi.catRange field category = some r → ∀ d ∈ fi.tailDocs r, headBoundary ≤ d

/-- The membership filter agrees with the full one on the ids, or with what the excludes leave of them. -/
def MembershipAgrees (fi : FacetIndex) (sels : List FilterSel) (ids : Bitmap) : Prop :=
  ∃ found, Settles ((fi.resolveSels sels).membershipBitmap ids) (.ok found) ∧
    ((fi.resolveSels sels).fields ≠ [] → ∃ full, Settles (fi.resolveSels sels).fullBitmap (.ok full) ∧
      ∀ d, d ∈ found ↔ d ∈ ids ∧ d ∈ full) ∧
    ((fi.resolveSels sels).fields = [] → ∀ d, d ∈ found ↔
      d ∈ ids ∧ ∀ c ∈ (fi.resolveSels sels).excludes, d ∉ fi.headDocs c ∧ d ∉ fi.tailDocs c)

def Has (fi : FacetIndex) (c : CatRange) (d : Nat) : Prop := d ∈ fi.headDocs c ∨ d ∈ fi.tailDocs c

/-- The reads for these ids pass over the posting that an id between the boundaries is in: over the head posting where
no id is in bucket 0, and over bucket 0 of the tail posting where all ids are in it or the posting is seeked in. -/
def PassesOver (fi : FacetIndex) (ids : Bitmap) (c : CatRange) (d : Nat) : Prop :=
  (bucketSize ≤ d ∧ ∀ e ∈ ids, bucketSize ≤ e) ∨
    (d < bucketSize ∧ ((∀ e ∈ ids, e < bucketSize) ∨ headerPrefix < c.tailSize ∧ Seekable fi.fetch c.tailOff c.tailSize))

/-- What is passed over makes no difference to the doc: a field that has it still has it by a posting that is read, or
an exclude that drops it still drops it. -/
def ReadsEnough (fi : FacetIndex) (rf : ResolvedFilter) (ids : Bitmap) (d : Nat) : Prop :=
  ((∀ cats ∈ rf.fields, ∃ c ∈ cats, fi.Has c d) → (∀ c ∈ rf.excludes, ¬ fi.Has c d) →
    ∀ cats ∈ rf.fields, ∃ c ∈ cats, fi.Has c d ∧ ¬ fi.PassesOver ids c d) ∧
  ((∀ cats ∈ rf.fields, ∃ c ∈ cats, fi.Has c d ∧ ¬ fi.PassesOver ids c d) → (∃ c ∈ rf.excludes, fi.Has c d) →
    ∃ c ∈ rf.excludes, fi.Has c d ∧ ¬ fi.PassesOver ids c d)

variable {fi : FacetIndex} {headBoundary : Nat}

/-- An id is found unless it is between the boundaries and its posting passed over. -/
theorem SplitAt.mem_readDocs_iff (h : fi.SplitAt headBoundary) {field category : String} {c : CatRange}
    (hc : fi.catRange field category = some c) {ids : Bitmap} {d : Nat} (hd : d ∈ ids) :
    d ∈ readDocs fi.fetch fi.headDocs fi.tailDocs ids c ↔ fi.Has c d ∧
      ¬ (min headBoundary bucketSize ≤ d ∧ d < max headBoundary bucketSize ∧ fi.PassesOver ids c d) := by
  rw [mem_readDocs hd]
  unfold Has PassesOver
  have hfirst : (∃ e ∈ ids, e < bucketSize) ↔ ¬ ∀ e ∈ ids, bucketSize ≤ e := by simp
  have hother : (∃ e ∈ ids, bucketSize ≤ e) ↔ ¬ ∀ e ∈ ids, e < bucketSize := by simp
  rcases Nat.lt_or_ge d headBoundary with hlt | hge
  · have hno : d ∉ fi.tailDocs c := fun ht => absurd (h.tail_ge field category c hc d ht) (not_le.mpr hlt)
    rcases Nat.lt_or_ge d bucketSize with hb | hb
    · have hin : ∃ e ∈ ids, e < bucketSize := ⟨d, hd, hb⟩
      have hout : ¬ min headBoundary bucketSize ≤ d := not_le.mpr (lt_min hlt hb)
      simp only [hno, hin, hout, false_and, or_false, and_true, not_false_eq_true]
    · have hin : min headBoundary bucketSize ≤ d := (min_le_right _ _).trans hb
      have hmax : d < max headBoundary bucketSize := lt_max_of_lt_left hlt
      have hnlt : ¬ d < bucketSize := not_lt.mpr hb
      simp only [hno, hin, hmax, hb, hnlt, false_and, or_false, true_and, hfirst]
  · have hno : d ∉ fi.headDocs c := fun hh => absurd (h.head_lt field category c hc d hh) (not_lt.mpr hge)
    rcases Nat.lt_or_ge d bucketSize with hb | hb
    · have hin : min headBoundary bucketSize ≤ d := (min_le_left _ _).trans hge
      have hmax : d < max headBoundary bucketSize := lt_max_of_lt_right hb
      have hnle : ¬ bucketSize ≤ d := not_le.mpr hb
      simp only [hno, hin, hmax, hnle, hb, false_and, false_or, true_and, hother, not_or]
    · have hin : ∃ e ∈ ids, bucketSize ≤ e := ⟨d, hd, hb⟩
      have hout : ¬ d < max headBoundary bucketSize := not_lt.mpr (max_le hge hb)
      simp only [hno, hin, hb, hout, false_and, false_or, true_or, and_true, and_false, true_and, not_false_eq_true]

theorem SplitAt.posted_resolveSels (h : fi.SplitAt headBoundary) (sels : List FilterSel) :
    (fi.resolveSels sels).Posted fi.headDocs fi.tailDocs :=
  fi.resolveSels_ranges sels h.posted

/-- The docs of the full filter are those that pass by head and tail together. -/
theorem SplitAt.full_iff (h : fi.SplitAt headBoundary) {sels : List FilterSel} {d : Nat} : ((∀ cats ∈ (fi.resolveSels sels).fields, ∃ c ∈ cats, d ∈ fi.headDocs c) ∨
      ∀ cats ∈ (fi.resolveSels sels).fields, ∃ c ∈ cats, d ∈ fi.tailDocs c) ↔
      ∀ cats ∈ (fi.resolveSels sels).fields, ∃ c ∈ cats, fi.Has c d := by
  have hsplit := (fi.resolveSels_ranges sels fun field category r hr =>
    And.intro (h.head_lt field category r hr d) (h.tail_ge field category r hr d)).1
  constructor
  · rintro (hall | hall) cats hcats
    · obtain ⟨c, hc, hd⟩ := hall cats hcats
      exact ⟨c, hc, Or.inl hd⟩
    · obtain ⟨c, hc, hd⟩ := hall cats hcats
      exact ⟨c, hc, Or.inr hd⟩
  · intro hall
    rcases Nat.lt_or_ge d headBoundary with hlt | hge
    · refine Or.inl fun cats hcats => ?_
      obtain ⟨c, hc, hd⟩ := hall cats hcats
      exact ⟨c, hc, hd.resolve_right fun ht => absurd ((hsplit cats hcats c hc).2 ht) (not_le.mpr hlt)⟩
    · refine Or.inr fun cats hcats => ?_
      obtain ⟨c, hc, hd⟩ := hall cats hcats
      exact ⟨c, hc, hd.resolve_left fun hh => absurd ((hsplit cats hcats c hc).1 hh) (not_lt.mpr hge)⟩

omit [Roaring] in
/-- A filter that finds fewer of the categories decides alike when what it misses makes no difference. -/
theorem decided_alike_iff {rf : ResolvedFilter} {has finds : CatRange → Prop} (hsub : ∀ c, finds c → has c) :
    (((∀ cats ∈ rf.fields, ∃ c ∈ cats, finds c) ∧ ∀ c ∈ rf.excludes, ¬ finds c) ↔
      (∀ cats ∈ rf.fields, ∃ c ∈ cats, has c) ∧ ∀ c ∈ rf.excludes, ¬ has c) ↔
    ((∀ cats ∈ rf.fields, ∃ c ∈ cats, has c) → (∀ c ∈ rf.excludes, ¬ has c) →
      ∀ cats ∈ rf.fields, ∃ c ∈ cats, finds c) ∧
    ((∀ cats ∈ rf.fields, ∃ c ∈ cats, finds c) → (∃ c ∈ rf.excludes, has c) → ∃ c ∈ rf.excludes, finds c) := by
  constructor
  · intro h
    refine ⟨fun hall hno => (h.mpr ⟨hall, hno⟩).1, fun hall hex => ?_⟩
    by_contra hno
    obtain ⟨c, hc, hd⟩ := hex
    exact (h.mp ⟨hall, fun c hc hf => hno ⟨c, hc, hf⟩⟩).2 c hc hd
  · rintro ⟨hfields, hexcludes⟩
    constructor
    · rintro ⟨hall, hno⟩
      refine ⟨fun cats hcats => ?_, fun c hc hd => ?_⟩
      · obtain ⟨c, hc, hf⟩ := hall cats hcats
        exact ⟨c, hc, hsub c hf⟩
      · obtain ⟨x, hx, hf⟩ := hexcludes hall ⟨c, hc, hd⟩
        exact hno x hx hf
    · rintro ⟨hall, hno⟩
      exact ⟨hfields hall hno, fun c hc hf => hno c hc (hsub c hf)⟩

/-- The two filters agree when every id passes alike by what is read and by all of head and tail. -/
theorem SplitAt.agrees_iff (h : fi.SplitAt headBoundary) (sels : List FilterSel) (ids : Bitmap) :
    fi.MembershipAgrees sels ids ↔ ∀ d ∈ ids,
      (((fi.resolveSels sels).side (readDocs fi.fetch fi.headDocs fi.tailDocs ids)).passes d = true ↔
        ((fi.resolveSels sels).side fun c => fi.headDocs c ∪ fi.tailDocs c).passes d = true) := by
  have hposted := h.posted_resolveSels sels
  have hall := @SplitAt.full_iff _ fi headBoundary h sels
  have hfull := ResolvedFilter.settles_fullBitmap hposted
  have hfound := ResolvedFilter.settles_membershipBitmap hposted ids
  rw [show (fi.resolveSels sels).fetch = fi.fetch from rfl] at hfound
  unfold MembershipAgrees
  generalize fi.resolveSels sels = rf at *
  have hagrees : ∀ found : Bitmap, ((rf.fields ≠ [] → ∃ full, Settles rf.fullBitmap (.ok full) ∧
      ∀ d, d ∈ found ↔ d ∈ ids ∧ d ∈ full) ∧ (rf.fields = [] → ∀ d, d ∈ found ↔
      d ∈ ids ∧ ∀ c ∈ rf.excludes, d ∉ fi.headDocs c ∧ d ∉ fi.tailDocs c)) ↔
      ∀ d, d ∈ found ↔ d ∈ ids ∧ (rf.side fun c => fi.headDocs c ∪ fi.tailDocs c).passes d = true := by
    intro found
    simp only [passes_side, AscSet.mem_union, Has, not_or] at hall ⊢
    by_cases hne : rf.fields = []
    · simp [hne]
    · obtain ⟨full, hsettles, hmem⟩ := hfull hne
      refine ⟨fun hh d => ?_, fun hh => ⟨fun _ => ⟨full, hsettles, fun d => ?_⟩, fun h0 => absurd h0 hne⟩⟩
      · obtain ⟨full', hsettles', hd⟩ := hh.1 hne
        obtain rfl := Settles.ok_unique hsettles hsettles'
        rw [hd d, hmem, hall]
      · rw [hh d, hmem, hall]
  constructor
  · rintro ⟨found, hsettles, hspec⟩ d hd
    obtain rfl := Settles.ok_unique hfound hsettles
    have := (hagrees _).mp hspec d
    rw [AscSet.mem_filter] at this
    exact and_congr_right_iff.mp this hd
  · intro hh
    refine ⟨_, hfound, (hagrees _).mpr fun d => ?_⟩
    rw [AscSet.mem_filter]
    exact and_congr_right fun hd => hh d hd

/-- **The membership filter is exact when it reads enough of every id between the boundaries**, and only then. -/
theorem membership_iff (h : fi.SplitAt headBoundary) (sels : List FilterSel) (ids : Bitmap) :
    fi.MembershipAgrees sels ids ↔ ∀ d ∈ ids, min headBoundary bucketSize ≤ d → d < max headBoundary bucketSize →
      fi.ReadsEnough (fi.resolveSels sels) ids d := by
  rw [h.agrees_iff]
  obtain ⟨hfields, hexcludes⟩ := fi.resolveSels_ranges sels fun field category c hc d (hd : d ∈ ids) =>
    h.mem_readDocs_iff hc hd
  generalize fi.resolveSels sels = rf at *
  refine forall₂_congr fun d hd => ?_
  rw [passes_side, passes_side]
  have hf : (∀ cats ∈ rf.fields, ∃ c ∈ cats, d ∈ readDocs fi.fetch fi.headDocs fi.tailDocs ids c) ↔
      ∀ cats ∈ rf.fields, ∃ c ∈ cats, fi.Has c d ∧
        ¬ (min headBoundary bucketSize ≤ d ∧ d < max headBoundary bucketSize ∧ fi.PassesOver ids c d) :=
    forall₂_congr fun cats hcats => exists_congr fun c => and_congr_right fun hc => hfields cats hcats c hc d hd
  have hx : (∀ c ∈ rf.excludes, d ∉ readDocs fi.fetch fi.headDocs fi.tailDocs ids c) ↔
      ∀ c ∈ rf.excludes, ¬ (fi.Has c d ∧
        ¬ (min headBoundary bucketSize ≤ d ∧ d < max headBoundary bucketSize ∧ fi.PassesOver ids c d)) :=
    forall₂_congr fun c hc => not_congr (hexcludes c hc d hd)
  simp only [AscSet.mem_union]
  rw [hf, hx]
  refine (@decided_alike_iff rf (fun c => fi.Has c d) _ fun c hc => hc.1).trans ?_
  by_cases hbetween : min headBoundary bucketSize ≤ d ∧ d < max headBoundary bucketSize
  · simp only [hbetween.1, hbetween.2, true_and, forall_true_left]
    rfl
  · have hout : ∀ P : Prop, ¬ (min headBoundary bucketSize ≤ d ∧ d < max headBoundary bucketSize ∧ P) :=
      fun P hP => hbetween ⟨hP.1, hP.2.1⟩
    simp only [hout, not_false_eq_true, and_true]
    exact iff_of_true ⟨fun hall _ => hall, fun _ hex => hex⟩ fun h1 h2 => absurd ⟨h1, h2⟩ hbetween

/-- A sidecar that was written is split at the writer's boundary. -/
theorem SidecarOf.splitAt {m : FacetMap} {file : Bytes} (h : fi.SidecarOf m headBoundary file) : fi.SplitAt headBoundary := by
  have hfound : ∀ field category r, fi.catRange field category = some r → ∃ S : Bitmap,
      fi.headDocs r = S.below headBoundary ∧ fi.tailDocs r = S.atLeast headBoundary := by
    intro field category r hr
    have hf := h.found field category
    rw [hr, Option.map_some] at hf
    obtain ⟨S, -, hS⟩ := Option.map_eq_some_iff.mp hf.symm
    exact ⟨S, (congrArg Prod.fst hS).symm, (congrArg Prod.snd hS).symm⟩
  refine ⟨fun field category r hr => ?_, fun field category r hr d hd => ?_, fun field category r hr d hd => ?_⟩
  · obtain ⟨f, hf, c, hc, -, -, rfl⟩ := catRange_mem hr
    obtain ⟨hhead, htail⟩ := h.posted f hf c hc
    obtain ⟨x, -, hcx⟩ := h.category hf hc
    have hsize : ∀ {off len : Nat} {S : Bitmap}, off + len ≤ file.length → slice file off len = serialize S → 0 < len := by
      intro off len S hle hS
      rw [← length_slice file off len hle, hS]
      exact Roaring.length_serialize_pos S
    exact ⟨hhead, htail, hsize hcx.head.1 hcx.head.2, hsize hcx.tail.1 hcx.tail.2⟩
  · obtain ⟨S, hS, -⟩ := hfound field category r hr
    rw [hS, Bitmap.mem_below] at hd
    exact hd.2
  · obtain ⟨S, -, hS⟩ := hfound field category r hr
    rw [hS, Bitmap.mem_atLeast] at hd
    exact hd.2

end FacetIndex

end

section

attribute [local instance] PortableCodec.roaring asciiUnicode

/-- The sidecar's boundary is 131072: the doc 65541 is in the head posting, which is not read for an id of bucket 1. -/
theorem membership_misses : ∃ file fi, writeFacetsWith (facetFields oneCategory 131072) true = .ok file ∧
    Settles (FacetIndex.openMeta (MemoryFetch.new file)) (.ok fi) ∧
    ¬ fi.MembershipAgrees [⟨"f", "c", false⟩] doc65541 := by
  obtain ⟨file, fi, hfile, hopen, hside⟩ := exists_sidecarOf oneCategory_fits 131072 true
  refine ⟨file, fi, hfile, hopen, fun hagrees => ?_⟩
  have hsplit := hside.splitAt
  have hdoc : 65541 ∈ doc65541 := by decide
  have hall : (((fi.resolveSels [⟨"f", "c", false⟩]).side fun c => fi.headDocs c ∪ fi.tailDocs c).passes 65541) = true := by
    rw [FacetIndex.passes_resolveSels, List.forall_mem_singleton, List.forall_mem_singleton]
    obtain ⟨r, hr, hd⟩ := hside.holds.head_iff.mpr (show 65541 ∈ oneCategory.docs "f" "c" ∧ 65541 < 131072 by decide)
    refine ⟨fun _ => ⟨_, List.mem_singleton_self _, rfl, rfl, r, hr, AscSet.mem_union.mpr (Or.inl hd)⟩, fun h => ?_⟩
    cases h
  have hread := ((hsplit.agrees_iff _ _).mp hagrees 65541 hdoc).mpr hall
  rw [FacetIndex.passes_resolveSels, List.forall_mem_singleton] at hread
  obtain ⟨q, -, -, -, r, hr, hd⟩ := hread.1 rfl
  rcases (mem_readDocs hdoc).mp hd with ⟨-, e, he, hlt⟩ | ⟨htail, -⟩
  · rw [show e = 65541 from List.mem_singleton.mp he] at hlt
    exact absurd hlt (by decide)
  · exact absurd (hsplit.tail_ge _ _ r hr 65541 htail) (by decide)

/-- At the boundary 65536 nothing is between the boundaries. -/
theorem membership_iff_65536 : ∃ file fi, writeFacetsWith (facetFields severalCategories 65536) true = .ok file ∧
    Settles (FacetIndex.openMeta (MemoryFetch.new file)) (.ok fi) ∧
    fi.MembershipAgrees [⟨"kind", "b", false⟩, ⟨"kind", "a", true⟩, ⟨"lang", "en", true⟩] spreadResult := by
  obtain ⟨file, fi, hfile, hopen, hside⟩ := exists_sidecarOf severalCategories_fits 65536 true
  refine ⟨file, fi, hfile, hopen, (FacetIndex.membership_iff hside.splitAt _ _).mpr fun d _ hle hlt => ?_⟩
  rw [show bucketSize = 65536 from rfl, min_self] at hle
  rw [show bucketSize = 65536 from rfl, max_self] at hlt
  exact absurd hlt (not_lt.mpr hle)

end

end RoaringRange
