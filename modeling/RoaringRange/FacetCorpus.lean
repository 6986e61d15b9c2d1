import RoaringRange.CursorOpen
import RoaringRange.FacetBuild

/-!
# The facets of a corpus and their sidecar

A `FacetMap` is the facet postings a builder collects: per field, per category, its docs.  `facetFields`
splits every posting at the head boundary for the writer.  An open sidecar `Holds` a map at a boundary when
each category of the map is resolved to the two parts of its posting.

    the sidecar of a map holds it                                                (exists_sidecar)
    Holds → the head postings of a selection let its docs below the boundary through, the tail
    postings those from the boundary on                                (head_passes, tail_passes)
-/

namespace RoaringRange

open ByteString Faults Slices

/-- The docs of every category of every field (`open_facets` of a builder). -/
abbrev FacetMap := OrdMap String (OrdMap String Bitmap)

namespace FacetMap

/-- The docs of a category, if the map has it. -/
def posting (m : FacetMap) (field category : String) : Option Bitmap :=
  (m.find? field).bind fun cats => cats.find? category

def docs (m : FacetMap) (field category : String) : Bitmap := (m.posting field category).getD ∅

/-- Every field and category of the map. -/
def pairs (m : FacetMap) : List (String × String) := m.toList.flatMap fun f => f.2.keys.map fun c => (f.1, c)

/-- The map is within the ranges of the sidecar's integer fields. -/
structure Fits (m : FacetMap) : Prop where
  fields_lt : m.len < 2 ^ 32
  cats_lt : m.pairs.length < 2 ^ 32
  names_lt : (m.toList.flatMap fun f => utf8 f.1 ++ f.2.toList.flatMap fun c => utf8 c.1).length < 2 ^ 32
  name_lt : ∀ f ∈ m.toList, (utf8 f.1).length < 2 ^ 16 ∧ ∀ c ∈ f.2.toList, (utf8 c.1).length < 2 ^ 16

end FacetMap

/-- Serialized postings are short. -/
theorem length_flatMap_postings {cs : List FacetCategory} (h : ∀ c ∈ cs, c.head.length < 2 ^ 30 ∧ c.tail.length < 2 ^ 30) :
    (cs.flatMap fun c => c.head ++ c.tail).length ≤ cs.length * 2 ^ 31 := by
  induction cs with
  | nil => simp
  | cons c cs ih =>
    have h1 := h c List.mem_cons_self
    have h2 := ih fun x hx => h x (List.mem_cons_of_mem _ hx)
    simp only [List.flatMap_cons, List.length_append, List.length_cons]
    omega

section

variable [Roaring]

/-- The category's row of `splitset_build::facet_fields`. -/
def facetCategory (headBoundary : Nat) (c : String × Bitmap) : FacetCategory :=
  ⟨c.1, c.2.len % 2 ^ 32, (splitPosting c.2 headBoundary).1, (splitPosting c.2 headBoundary).2⟩

/-- `splitset_build::facet_fields`. -/
def facetFields (facets : FacetMap) (headBoundary : Nat) : List FacetField :=
  facets.toList.map fun f => ⟨f.1, f.2.toList.map (facetCategory headBoundary)⟩

/-- The names of a map's fields, in the order they are pushed. -/
theorem flatten_pushedNames (m : FacetMap) (headBoundary : Nat) : (pushedNames (facetFields m headBoundary)).flatten =
    m.toList.flatMap fun f => utf8 f.1 ++ f.2.toList.flatMap fun c => utf8 c.1 := by
  rw [pushedNames, facetFields, List.flatMap_map]
  induction m.toList with
  | nil => rfl
  | cons f fs ih =>
    rw [List.flatMap_cons, List.flatMap_cons, List.flatten_append, ih, List.flatten_cons, List.map_map, List.flatMap_def]
    rfl

theorem length_flatMap_cats (m : FacetMap) (headBoundary : Nat) :
    ((facetFields m headBoundary).flatMap FacetField.cats).length = m.pairs.length := by
  rw [facetFields, FacetMap.pairs, List.flatMap_map, List.length_flatMap, List.length_flatMap]
  simp only [List.length_map, OrdMap.keys]

theorem posting_facetFields {m : FacetMap} {headBoundary : Nat} : ∀ f ∈ facetFields m headBoundary, ∀ c ∈ f.cats,
    c.head.length < 2 ^ 30 ∧ c.tail.length < 2 ^ 30 := by
  intro f hf c hc
  obtain ⟨g, hg, rfl⟩ := List.mem_map.mp hf
  obtain ⟨d, hd, rfl⟩ := List.mem_map.mp hc
  exact ⟨Roaring.length_serialize_lt _, Roaring.length_serialize_lt _⟩

theorem FacetMap.Fits.facetFields {m : FacetMap} (h : m.Fits) (headBoundary : Nat) :
    FacetsFit (facetFields m headBoundary) where
  fields_lt := by
    rw [RoaringRange.facetFields, List.length_map]
    exact h.fields_lt
  cats_lt := by
    rw [length_flatMap_cats]
    exact h.cats_lt
  names := by
    apply pushesFit_of_length
    · rw [flatten_pushedNames, Nat.zero_add]
      exact h.names_lt
    · intro b hb
      obtain ⟨f, hf, hb⟩ := List.mem_flatMap.mp hb
      obtain ⟨g, hg, rfl⟩ := List.mem_map.mp hf
      obtain ⟨h1, h2⟩ := h.name_lt g hg
      rcases List.mem_cons.mp hb with rfl | hb
      · exact h1
      · obtain ⟨c, hc, rfl⟩ := List.mem_map.mp hb
        obtain ⟨d, hd, rfl⟩ := List.mem_map.mp hc
        exact h2 d hd
  card_lt := by
    intro f hf c hc
    obtain ⟨g, hg, rfl⟩ := List.mem_map.mp hf
    obtain ⟨d, hd, rfl⟩ := List.mem_map.mp hc
    exact Nat.mod_lt _ (by decide)
  posting_lt := by
    intro f hf c hc
    have := posting_facetFields f hf c hc
    omega
  file_lt := by
    have h1 := h.fields_lt
    have h2 := h.cats_lt
    have h3 := h.names_lt
    have h4 := @length_flatMap_postings ((RoaringRange.facetFields m headBoundary).flatMap FacetField.cats) fun c hc => by
      obtain ⟨f, hf, hc⟩ := List.mem_flatMap.mp hc
      exact posting_facetFields f hf c hc
    have h5 : (RoaringRange.facetFields m headBoundary).length = m.len := List.length_map ..
    rw [length_flatMap_cats] at h4
    rw [facetFileLength, postingBytes, length_flatMap_cats, flatten_pushedNames, h5, rrsfHeaderSize, fieldEntry, catEntry]
    unfold u64Bound
    omega

/-! ## A sidecar that holds a map -/

/-- The docs of the posting at a range of a file. -/
def MemoryFetch.postingIn (f : MemoryFetch) (range : Nat × Nat) : Bitmap :=
  match deserialize (slice f.bytes range.1 range.2) with
  | .ok S => S
  | .error _ => ∅

theorem PostingAt.postingIn_eq {f : MemoryFetch} {off len : Nat} {S : Bitmap} (h : PostingAt f off len S) :
    f.postingIn (off, len) = S := by
  simp only [MemoryFetch.postingIn, deserialize_of_represents h.represents]

namespace FacetIndex

/-- The docs of a category's head posting. -/
def headDocs (fi : FacetIndex) (r : CatRange) : Bitmap := fi.fetch.postingIn r.headRange

/-- The docs of a category's tail posting. -/
def tailDocs (fi : FacetIndex) (r : CatRange) : Bitmap := fi.fetch.postingIn r.tailRange

/-- The sidecar has the categories of the map, their postings split at the boundary. -/
structure Holds (fi : FacetIndex) (m : FacetMap) (headBoundary : Nat) : Prop where
  posted : fi.PostedAt fi.headDocs fi.tailDocs
  found : ∀ field category, (fi.catRange field category).map (fun r => (fi.headDocs r, fi.tailDocs r)) =
    (m.posting field category).map fun S => (S.below headBoundary, S.atLeast headBoundary)

end FacetIndex

/-- A category read back holds the two parts of its posting. -/
theorem CategoryOf.postings {file : Bytes} (hlen : file.length < u64Bound) {c : Category} {headBoundary : Nat}
    {x : String × Bitmap} (h : CategoryOf file c (facetCategory headBoundary x)) :
    PostingAt (MemoryFetch.new file) c.range.headOff c.range.headSize (x.2.below headBoundary) ∧
      PostingAt (MemoryFetch.new file) c.range.tailOff c.range.tailSize (x.2.atLeast headBoundary) := by
  refine ⟨⟨MemoryFetch.inFile_new hlen h.head.1, ?_⟩, ⟨MemoryFetch.inFile_new hlen h.tail.1, ?_⟩⟩
  · show Represents (slice file _ _) _
    rw [h.head.2]
    exact represents_serialize _
  · show Represents (slice file _ _) _
    rw [h.tail.2]
    exact represents_serialize _

/-- What a reader keeps of the file of a map's categories, split at the boundary. -/
structure FacetIndex.SidecarOf (fi : FacetIndex) (m : FacetMap) (headBoundary : Nat) (file : Bytes) : Prop where
  fetch : fi.fetch = MemoryFetch.new file
  length_lt : file.length < u64Bound
  fields : List.Forall₂ (FieldOf file) fi.fields (facetFields m headBoundary)

/-- The writer's file is read back. -/
theorem exists_sidecarOf [Unicode] {m : FacetMap} (hm : m.Fits) (headBoundary : Nat) (caseNormalization : Bool) :
    ∃ file fi, writeFacetsWith (facetFields m headBoundary) caseNormalization = .ok file ∧
      Settles (FacetIndex.openMeta (MemoryFetch.new file)) (.ok fi) ∧ fi.SidecarOf m headBoundary file := by
  obtain ⟨w, -, hw⟩ := writeFacetsWith_eq (hm.facetFields headBoundary) caseNormalization
  obtain ⟨fs, hfs, -, hopen⟩ := w.settles_openMeta (by rw [w.blob_eq, flatten_pushedNames]; exact hm.names_lt)
  exact ⟨w.bytes, ⟨MemoryFetch.new w.bytes, fs⟩, hw, hopen, rfl, w.length_bytes_lt, hfs⟩

namespace FacetIndex.SidecarOf

variable {fi : FacetIndex} {m : FacetMap} {headBoundary : Nat} {file : Bytes}

/-- Every category is one of the map. -/
theorem category (h : fi.SidecarOf m headBoundary file) {f : Field} (hf : f ∈ fi.fields) {c : Category}
    (hc : c ∈ f.categories) : ∃ x : String × Bitmap, m.docs f.name x.1 = x.2 ∧
      CategoryOf file c (facetCategory headBoundary x) := by
  obtain ⟨g, hg, hfg⟩ := exists_partner h.fields hf
  obtain ⟨y, hy, rfl⟩ := List.mem_map.mp hg
  obtain ⟨cs, hperm, hcs⟩ := hfg.cats
  obtain ⟨d, hd, hcd⟩ := exists_partner hcs hc
  obtain ⟨x, hx, rfl⟩ := List.mem_map.mp (hperm.subset hd)
  refine ⟨x, ?_, hcd⟩
  have hfind : m.find? y.1 = some y.2 := OrdMap.find?_eq_some_iff.mpr hy
  have hfind' : y.2.find? x.1 = some x.2 := OrdMap.find?_eq_some_iff.mpr hx
  rw [hfg.name]
  simp only [FacetMap.docs, FacetMap.posting, hfind, Option.bind_some, hfind', Option.getD_some]

theorem posted (h : fi.SidecarOf m headBoundary file) : fi.PostedAt fi.headDocs fi.tailDocs := by
  intro f hf c hc
  obtain ⟨x, -, hcx⟩ := h.category hf hc
  obtain ⟨hh, ht⟩ := hcx.postings h.length_lt
  rw [← h.fetch] at hh ht
  have e1 := hh.postingIn_eq
  have e2 := ht.postingIn_eq
  exact ⟨by rw [← e1] at hh; exact hh, by rw [← e2] at ht; exact ht⟩

/-- The names find the map's postings. -/
theorem found (h : fi.SidecarOf m headBoundary file) (field category : String) :
    (fi.catRange field category).map (fun r => (fi.headDocs r, fi.tailDocs r)) =
      (m.posting field category).map fun S => (S.below headBoundary, S.atLeast headBoundary) := by
  have hfield : ∀ (f : Field) (g : FacetField), FieldOf file f g → (f.name == field) = (g.name == field) :=
    fun f g h => by rw [h.name]
  have hgs : (facetFields m headBoundary).find? (fun g => g.name == field) =
      (m.find? field).map fun cats => ⟨field, cats.toList.map (facetCategory headBoundary)⟩ := by
    rw [facetFields, List.find?_map]
    have hcomp : (fun g : FacetField => g.name == field) ∘ (fun f : String × OrdMap String Bitmap =>
      (⟨f.1, f.2.toList.map (facetCategory headBoundary)⟩ : FacetField)) = fun e => e.1 == field := rfl
    rw [hcomp, OrdMap.find?_toList, Option.map_map]
    rfl
  unfold FacetIndex.catRange FacetMap.posting
  rcases find?_forall₂ h.fields hfield with ⟨h1, h2⟩ | ⟨f, g, h1, h2, hfg⟩
  · rw [h1]
    rw [hgs, Option.map_eq_none_iff] at h2
    rw [h2]
    rfl
  · rw [h1]
    rw [hgs, Option.map_eq_some_iff] at h2
    obtain ⟨cats, hcats, rfl⟩ := h2
    rw [hcats]
    simp only [Option.bind_some]
    obtain ⟨cs, hperm, hcs⟩ := hfg.cats
    have hcat : ∀ (c : Category) (d : FacetCategory), CategoryOf file c d →
        (c.name == category) = (d.name == category) := fun c d h => by rw [h.name]
    have hnd : ((cats.toList.map (facetCategory headBoundary)).map FacetCategory.name).Nodup := by
      rw [List.map_map]
      exact cats.keys_nodup
    have hfind := find?_eq_of_perm hperm hnd category
    have hcats' : (cats.toList.map (facetCategory headBoundary)).find? (fun d => d.name == category) =
        (cats.find? category).map fun S => facetCategory headBoundary (category, S) := by
      rw [List.find?_map]
      have hcomp : (fun d : FacetCategory => d.name == category) ∘ facetCategory headBoundary =
        fun e => e.1 == category := rfl
      rw [hcomp, OrdMap.find?_toList, Option.map_map]
      rfl
    rw [hcats'] at hfind
    rcases find?_forall₂ hcs hcat with ⟨h3, h4⟩ | ⟨c, d, h3, h4, hcd⟩
    · rw [h3]
      rw [hfind, Option.map_eq_none_iff] at h4
      rw [h4]
      rfl
    · rw [h3]
      rw [hfind, Option.map_eq_some_iff] at h4
      obtain ⟨S, hS, rfl⟩ := h4
      rw [hS]
      obtain ⟨hh, ht⟩ := hcd.postings h.length_lt
      rw [← h.fetch] at hh ht
      simp only [Option.map_some]
      exact congrArg some (Prod.ext hh.postingIn_eq ht.postingIn_eq)

theorem holds (h : fi.SidecarOf m headBoundary file) : fi.Holds m headBoundary := ⟨h.posted, h.found⟩

end FacetIndex.SidecarOf

/-- **The sidecar of a map holds it.** -/
theorem exists_sidecar [Unicode] {m : FacetMap} (hm : m.Fits) (headBoundary : Nat) (caseNormalization : Bool) :
    ∃ file fi, writeFacetsWith (facetFields m headBoundary) caseNormalization = .ok file ∧
      file.length < u64Bound ∧ fi.fetch = MemoryFetch.new file ∧
      Settles (FacetIndex.openMeta (MemoryFetch.new file)) (.ok fi) ∧ fi.Holds m headBoundary := by
  obtain ⟨file, fi, hwrite, hopen, hside⟩ := exists_sidecarOf hm headBoundary caseNormalization
  exact ⟨file, fi, hwrite, hside.length_lt, hside.fetch, hopen, hside.holds⟩

/-! ## Selections of a sidecar that holds a map -/

/-- Per selected field, the doc has one of the selected categories. -/
def FacetMap.Selects (m : FacetMap) (pairs : List (String × String)) (d : Nat) : Prop :=
  ∀ p ∈ pairs, ∃ q ∈ pairs, q.1 = p.1 ∧ d ∈ m.docs q.1 q.2

instance (m : FacetMap) (pairs : List (String × String)) (d : Nat) : Decidable (m.Selects pairs d) :=
  inferInstanceAs (Decidable (∀ p ∈ pairs, ∃ q ∈ pairs, q.1 = p.1 ∧ d ∈ m.docs q.1 q.2))

omit [Roaring] in
theorem ResolvedFilter.side_join (rf : ResolvedFilter) (head tail : CatRange → Bitmap) :
    (rf.side head).join (rf.side tail) = rf.side fun r => head r ∪ tail r := by
  simp only [FilterSets.join, ResolvedFilter.side, List.zipWith_map_left, List.zipWith_map_right, List.zipWith_self]

namespace FacetIndex.Holds

variable {fi : FacetIndex} {m : FacetMap} {headBoundary : Nat}

theorem head_iff (h : fi.Holds m headBoundary) {field category : String} {d : Nat} :
    (∃ r, fi.catRange field category = some r ∧ d ∈ fi.headDocs r) ↔
      d ∈ m.docs field category ∧ d < headBoundary := by
  have hf := h.found field category
  unfold FacetMap.docs
  cases hr : fi.catRange field category with
  | none =>
    rw [hr, Option.map_none] at hf
    rw [Option.map_eq_none_iff.mp hf.symm]
    simp
  | some r =>
    rw [hr, Option.map_some] at hf
    obtain ⟨S, hS, hrS⟩ := Option.map_eq_some_iff.mp hf.symm
    have hhead : fi.headDocs r = S.below headBoundary := (congrArg Prod.fst hrS).symm
    rw [hS, Option.getD_some, ← Bitmap.mem_below, ← hhead]
    simp

theorem tail_iff (h : fi.Holds m headBoundary) {field category : String} {d : Nat} :
    (∃ r, fi.catRange field category = some r ∧ d ∈ fi.tailDocs r) ↔
      d ∈ m.docs field category ∧ headBoundary ≤ d := by
  have hf := h.found field category
  unfold FacetMap.docs
  cases hr : fi.catRange field category with
  | none =>
    rw [hr, Option.map_none] at hf
    rw [Option.map_eq_none_iff.mp hf.symm]
    simp
  | some r =>
    rw [hr, Option.map_some] at hf
    obtain ⟨S, hS, hrS⟩ := Option.map_eq_some_iff.mp hf.symm
    have htail : fi.tailDocs r = S.atLeast headBoundary := (congrArg Prod.snd hrS).symm
    rw [hS, Option.getD_some, ← Bitmap.mem_atLeast, ← htail]
    simp

/-- The head sets of a selection. -/
theorem head_passes (h : fi.Holds m headBoundary) {pairs : List (String × String)} {d : Nat} :
    ((fi.resolve pairs).side fi.headDocs).passes d = true ↔
      ∀ p ∈ pairs, ∃ q ∈ pairs, q.1 = p.1 ∧ d ∈ m.docs q.1 q.2 ∧ d < headBoundary := by
  rw [passes_resolve]
  simp only [h.head_iff]

/-- The tail sets of a selection. -/
theorem tail_passes (h : fi.Holds m headBoundary) {pairs : List (String × String)} {d : Nat} :
    ((fi.resolve pairs).side fi.tailDocs).passes d = true ↔
      ∀ p ∈ pairs, ∃ q ∈ pairs, q.1 = p.1 ∧ d ∈ m.docs q.1 q.2 ∧ headBoundary ≤ d := by
  rw [passes_resolve]
  simp only [h.tail_iff]

/-- Head and tail together are the selection. -/
theorem join_passes (h : fi.Holds m headBoundary) {pairs : List (String × String)} {d : Nat} :
    (((fi.resolve pairs).side fi.headDocs).join ((fi.resolve pairs).side fi.tailDocs)).passes d = true ↔
      m.Selects pairs d := by
  rw [ResolvedFilter.side_join, passes_resolve]
  refine forall₂_congr fun p _ => exists_congr fun q => and_congr_right fun _ => and_congr_right fun _ => ?_
  simp only [AscSet.mem_union, and_or_left, exists_or, h.head_iff, h.tail_iff]
  constructor
  · rintro (⟨hd, -⟩ | ⟨hd, -⟩) <;> exact hd
  · intro hd
    rcases Nat.lt_or_ge d headBoundary with hlt | hge
    · exact Or.inl ⟨hd, hlt⟩
    · exact Or.inr ⟨hd, hge⟩

end FacetIndex.Holds

end

end RoaringRange
