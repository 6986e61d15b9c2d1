import RoaringRange.Build
import RoaringRange.Facet

/-!
# The facet sidecar writer (`build.rs`)

`writeFacetsWith` lays out the header, the field and category tables, the names and the postings of an
RRSF file.  Its categories are sorted by key within a field, its names are in the order given.

    open_meta reads the fields back: names, counts, postings          (exists_written, Written.settles)
-/

namespace RoaringRange

open ByteString Faults Slices

/-! ## The writer -/

/-- `build::FacetCategory`. -/
structure FacetCategory where
  name : String
  card : Nat
  head : Bytes
  tail : Bytes

/-- `build::FacetField`. -/
structure FacetField where
  name : String
  cats : List FacetCategory

/-- `COut` of `build::write_facets_with`. -/
structure CatOut where
  key : Key
  card : Nat
  nameOff : Nat
  nameLen : Nat
  head : Bytes
  tail : Bytes

/-- `FOut` of `build::write_facets_with`. -/
structure FieldOut where
  nameOff : Nat
  nameLen : Nat
  catStart : Nat
  cats : List CatOut

/-- `push` of `build::write_facets_with`: where the name is put, and the blob with it. -/
def pushFacetName (blob : Bytes) (s : String) : Except String (Nat × Nat × Bytes) := do
  let off ← u32Len blob.length "facet string blob"
  if 2 ^ 16 ≤ (utf8 s).length then throw "facet name exceeds the 16-bit length limit"
  else pure (off, (utf8 s).length, blob ++ utf8 s)

section

variable [Unicode]

/-- The inner loop of `build::write_facets_with`: one field's categories. -/
def placeCats (field : String) (caseNormalization : Bool) (blob : Bytes) :
    List FacetCategory → Except String (List CatOut × Bytes)
  | [] => .ok ([], blob)
  | c :: cats => do
    let (off, len, blob) ← pushFacetName blob c.name
    let (outs, blob) ← placeCats field caseNormalization blob cats
    pure (⟨facetKey field c.name caseNormalization, c.card, off, len, c.head, c.tail⟩ :: outs, blob)

/-- The loop of `build::write_facets_with` over the fields: the placed fields, the blob, `total_cats`. -/
def placeFields (caseNormalization : Bool) (blob : Bytes) (totalCats : Nat) :
    List FacetField → Except String (List FieldOut × Bytes × Nat)
  | [] => .ok ([], blob, totalCats)
  | f :: fields => do
    let (off, len, blob) ← pushFacetName blob f.name
    let (cs, blob) ← placeCats f.name caseNormalization blob f.cats
    let (outs, blob, total) ← placeFields caseNormalization blob ((totalCats + cs.length) % 2 ^ 32) fields
    pure (⟨off, len, totalCats, sortByKey CatOut.key cs⟩ :: outs, blob, total)

end

/-- A row of the category table. -/
structure FacetRow where
  key : Key
  headOff : Nat
  headLen : Nat
  tailLen : Nat
  card : Nat
  nameOff : Nat
  nameLen : Nat

/-- Where the postings of a row lie. -/
def FacetRow.range (r : FacetRow) : CatRange := ⟨r.headOff, r.headLen, r.headOff + r.headLen, r.tailLen⟩

def facetRow (r : FacetRow) : Bytes :=
  le 8 r.key.val ++ (le 8 r.headOff ++ (le 4 r.headLen ++ (le 4 r.tailLen ++ (le 4 r.card ++
    (le 4 r.nameOff ++ (le 2 r.nameLen ++ le 2 0))))))

def fieldRow (f : FieldOut) : Bytes :=
  le 4 f.nameOff ++ (le 2 f.nameLen ++ (le 2 0 ++ (le 4 f.catStart ++ le 4 f.cats.length)))

/-- The rows of the category table, the first posting at `off`. -/
def writeCatTable (off : Nat) : List CatOut → Except String Bytes
  | [] => .ok []
  | c :: cats => do
    let headLen ← u32Len c.head.length "RRSF head posting"
    let tailLen ← u32Len c.tail.length "RRSF tail posting"
    let rows ← writeCatTable (off + (c.head.length + c.tail.length)) cats
    pure (facetRow ⟨c.key, off, headLen, tailLen, c.card, c.nameOff, c.nameLen⟩ ++ rows)

/-- The fixed header of an RRSF file. -/
def rrsfHeader (caseNormalization : Bool) (fieldsN catsN strBytes : Nat) : Bytes :=
  rrsfMagic ++ (le 2 1 ++ (le 2 (if caseNormalization then 0 else rrsfFlagCaseSensitive) ++
    (le 4 fieldsN ++ (le 4 catsN ++ (le 4 strBytes ++ le 4 0)))))

/-- `build::write_facets_with`. -/
def writeFacetsWith [Unicode] (fields : List FacetField) (caseNormalization : Bool) : Except String Bytes := do
  let (fos, blob, totalCats) ← placeFields caseNormalization [] 0 fields
  let strBlobOff := 24 + fos.length * 16 + totalCats * 36
  let postingsStart := strBlobOff + blob.length
  let cats := fos.flatMap FieldOut.cats
  let catTable ← writeCatTable postingsStart cats
  pure (rrsfHeader caseNormalization fos.length totalCats blob.length ++ (table fieldRow fos ++ (catTable ++
    (blob ++ cats.flatMap fun c => c.head ++ c.tail))))

/-! ## Placing names -/

/-- The names in the order they are pushed. -/
def pushedNames (fields : List FacetField) : List Bytes :=
  fields.flatMap fun f => utf8 f.name :: f.cats.map fun c => utf8 c.name

/-- Each of the names can be pushed, the first at `off`. -/
def PushesFit : Nat → List Bytes → Prop
  | _, [] => True
  | off, b :: names => off < 2 ^ 32 ∧ b.length < 2 ^ 16 ∧ PushesFit (off + b.length) names

/-- The bytes of all postings. -/
def postingBytes (fields : List FacetField) : Nat :=
  ((fields.flatMap FacetField.cats).flatMap fun c => c.head ++ c.tail).length

/-- The bytes of the file. -/
def facetFileLength (fields : List FacetField) : Nat :=
  rrsfHeaderSize + fields.length * fieldEntry + (fields.flatMap FacetField.cats).length * catEntry +
    (pushedNames fields).flatten.length + postingBytes fields

/-- Fields within the ranges of the file's integer fields. -/
structure FacetsFit (fields : List FacetField) : Prop where
  fields_lt : fields.length < 2 ^ 32
  cats_lt : (fields.flatMap FacetField.cats).length < 2 ^ 32
  names : PushesFit 0 (pushedNames fields)
  card_lt : ∀ f ∈ fields, ∀ c ∈ f.cats, c.card < 2 ^ 32
  posting_lt : ∀ f ∈ fields, ∀ c ∈ f.cats, c.head.length < 2 ^ 32 ∧ c.tail.length < 2 ^ 32
  file_lt : facetFileLength fields < u64Bound

theorem pushesFit_append {off : Nat} {names more : List Bytes} :
    PushesFit off (names ++ more) ↔ PushesFit off names ∧ PushesFit (off + names.flatten.length) more := by
  induction names generalizing off with
  | nil => simp [PushesFit]
  | cons b names ih =>
    rw [List.cons_append, PushesFit, PushesFit, ih, List.flatten_cons, List.length_append, ← Nat.add_assoc, and_assoc,
      and_assoc]

/-- Names that leave the blob short can be pushed. -/
theorem pushesFit_of_length {off : Nat} {names : List Bytes} (h : off + names.flatten.length < 2 ^ 32)
    (hn : ∀ b ∈ names, b.length < 2 ^ 16) : PushesFit off names := by
  induction names generalizing off with
  | nil => trivial
  | cons b names ih =>
    rw [List.flatten_cons, List.length_append] at h
    exact ⟨by omega, hn b List.mem_cons_self, ih (by omega) fun c hc => hn c (List.mem_cons_of_mem _ hc)⟩

/-- A name that can be pushed ends at most 2^16 bytes behind the last offset a name can have. -/
theorem PushesFit.length_lt {off : Nat} {names : List Bytes} (h : PushesFit off names) (hoff : off < 2 ^ 32 + 2 ^ 16) :
    off + names.flatten.length < 2 ^ 32 + 2 ^ 16 := by
  induction names generalizing off with
  | nil => exact hoff
  | cons b names ih =>
    obtain ⟨hlt, hb, hrest⟩ := h
    have := ih hrest (by omega)
    rw [List.flatten_cons, List.length_append]
    omega

/-- The name `s` is at `off` in the blob. -/
structure NameAt (blob : Bytes) (off len : Nat) (s : String) : Prop where
  off_lt : off < 2 ^ 32
  len_lt : len < 2 ^ 16
  inside : off + len ≤ blob.length
  slice_eq : slice blob off len = utf8 s

theorem NameAt.append {blob : Bytes} {off len : Nat} {s : String} (h : NameAt blob off len s) (more : Bytes) :
    NameAt (blob ++ more) off len s :=
  ⟨h.off_lt, h.len_lt, by rw [List.length_append]; exact Nat.le_add_right_of_le h.inside,
    by rw [slice_append_left _ _ _ _ h.inside, h.slice_eq]⟩

theorem pushFacetName_eq {blob : Bytes} {s : String} (hb : blob.length < 2 ^ 32)
    (hs : (utf8 s).length < 2 ^ 16) :
    pushFacetName blob s = .ok (blob.length, (utf8 s).length, blob ++ utf8 s) ∧
      NameAt (blob ++ utf8 s) blob.length (utf8 s).length s := by
  constructor
  · rw [pushFacetName, u32Len, if_pos hb]
    simp only [bind, Except.bind]
    rw [if_neg (by omega)]
    rfl
  · refine ⟨hb, hs, by rw [List.length_append], ?_⟩
    rw [slice_append_right _ _ _ _ (Nat.le_refl _), Nat.sub_self, slice_zero_length]

/-- A placed category is the category, its name in the blob. -/
structure PlacedCat (blob : Bytes) (o : CatOut) (c : FacetCategory) : Prop where
  card : o.card = c.card
  head : o.head = c.head
  tail : o.tail = c.tail
  name : NameAt blob o.nameOff o.nameLen c.name

/-- A placed field is the field, its categories in another order. -/
structure PlacedField (blob : Bytes) (o : FieldOut) (f : FacetField) : Prop where
  name : NameAt blob o.nameOff o.nameLen f.name
  cats : ∃ cs, cs.Perm f.cats ∧ List.Forall₂ (PlacedCat blob) o.cats cs

theorem PlacedCat.append {blob : Bytes} {o : CatOut} {c : FacetCategory} (h : PlacedCat blob o c) (more : Bytes) :
    PlacedCat (blob ++ more) o c := ⟨h.card, h.head, h.tail, h.name.append more⟩

theorem PlacedField.append {blob : Bytes} {o : FieldOut} {f : FacetField} (h : PlacedField blob o f) (more : Bytes) :
    PlacedField (blob ++ more) o f := by
  obtain ⟨cs, hperm, hcs⟩ := h.cats
  exact ⟨h.name.append more, cs, hperm, hcs.imp fun _ _ hp => hp.append more⟩

/-- The name pushed last ends at `stop`. -/
def EndsAt (outs : List FieldOut) (stop : Nat) : Prop :=
  ∃ o ∈ outs, o.nameOff + o.nameLen = stop ∨ ∃ c ∈ o.cats, c.nameOff + c.nameLen = stop

/-- `cat_start` of every field: the categories before it. -/
def CatStarts : Nat → List FieldOut → Prop
  | _, [] => True
  | start, o :: outs => o.catStart = start ∧ CatStarts (start + o.cats.length) outs

section

variable [Unicode]

theorem placeCats_eq {field : String} {cn : Bool} {cats : List FacetCategory} {blob : Bytes}
    (h : PushesFit blob.length (cats.map fun c => utf8 c.name)) :
    ∃ outs, placeCats field cn blob cats = .ok (outs, blob ++ (cats.map fun c => utf8 c.name).flatten) ∧
      List.Forall₂ (PlacedCat (blob ++ (cats.map fun c => utf8 c.name).flatten)) outs cats ∧
      (cats ≠ [] → ∃ o ∈ outs, o.nameOff + o.nameLen = (blob ++ (cats.map fun c => utf8 c.name).flatten).length) := by
  induction cats generalizing blob with
  | nil =>
    exact ⟨[], by rw [List.map_nil, List.flatten_nil, List.append_nil]; rfl, List.Forall₂.nil, fun h => absurd rfl h⟩
  | cons c cats ih =>
    obtain ⟨hb, hc, hrest⟩ := h
    rw [List.map_cons, List.flatten_cons, ← List.append_assoc]
    obtain ⟨hpush, hname⟩ := pushFacetName_eq hb hc
    obtain ⟨outs, houts, hplaced, hends⟩ := @ih (blob ++ utf8 c.name) (by rw [List.length_append]; exact hrest)
    refine ⟨⟨facetKey field c.name cn, c.card, blob.length, (utf8 c.name).length, c.head, c.tail⟩ :: outs, ?_,
      List.Forall₂.cons ⟨rfl, rfl, rfl, hname.append _⟩ hplaced, fun _ => ?_⟩
    · rw [placeCats, hpush]
      simp only [bind, Except.bind]
      rw [houts]
      rfl
    · by_cases hnil : cats = []
      · refine ⟨_, List.mem_cons_self, ?_⟩
        rw [hnil, List.map_nil, List.flatten_nil, List.append_nil, List.length_append]
      · obtain ⟨o, ho, heq⟩ := hends hnil
        exact ⟨o, List.mem_cons_of_mem _ ho, heq⟩

theorem placeFields_eq {cn : Bool} {fields : List FacetField} {blob : Bytes} {total : Nat}
    (h : PushesFit blob.length (pushedNames fields))
    (hc : total + (fields.flatMap FacetField.cats).length < 2 ^ 32) :
    ∃ outs, placeFields cn blob total fields = .ok (outs, blob ++ (pushedNames fields).flatten,
        total + (fields.flatMap FacetField.cats).length) ∧
      List.Forall₂ (PlacedField (blob ++ (pushedNames fields).flatten)) outs fields ∧
      CatStarts total outs ∧ (fields ≠ [] → EndsAt outs (blob ++ (pushedNames fields).flatten).length) := by
  induction fields generalizing blob total with
  | nil =>
    refine ⟨[], ?_, List.Forall₂.nil, trivial, fun h => absurd rfl h⟩
    rw [pushedNames, List.flatMap_nil, List.flatten_nil, List.append_nil]
    rfl
  | cons f fields ih =>
    have hnames : pushedNames (f :: fields) = (utf8 f.name :: f.cats.map fun c => utf8 c.name) ++ pushedNames fields :=
      List.flatMap_cons
    rw [hnames, pushesFit_append] at h
    obtain ⟨⟨hb, hf, hcats⟩, hrest⟩ := h
    rw [List.flatMap_cons, List.length_append, ← Nat.add_assoc] at hc ⊢
    rw [hnames, List.flatten_append, List.flatten_cons, ← List.append_assoc, ← List.append_assoc]
    rw [List.flatten_cons, List.length_append, ← Nat.add_assoc] at hrest
    obtain ⟨hpush, hname⟩ := pushFacetName_eq hb hf
    obtain ⟨cs, hcs, hplaced, hcsends⟩ := @placeCats_eq _ f.name cn f.cats (blob ++ utf8 f.name)
      (by rw [List.length_append]; exact hcats)
    have hcslen : cs.length = f.cats.length := hplaced.length_eq
    obtain ⟨outs, houts, hfields, hstarts, hends⟩ :=
      @ih (blob ++ utf8 f.name ++ (f.cats.map fun c => utf8 c.name).flatten) _
        (by rw [List.length_append, List.length_append]; exact hrest) hc
    refine ⟨⟨blob.length, (utf8 f.name).length, total, sortByKey CatOut.key cs⟩ :: outs, ?_,
      List.Forall₂.cons ?_ hfields, ⟨rfl, ?_⟩, fun _ => ?_⟩
    · rw [placeFields, hpush]
      simp only [bind, Except.bind]
      rw [hcs]
      simp only [hcslen]
      rw [Nat.mod_eq_of_lt (by omega), houts]
      rfl
    · refine PlacedField.append ⟨hname.append _, ?_⟩ _
      obtain ⟨cs', hcs', hperm⟩ := List.perm_comp_forall₂ (sortByKey_perm CatOut.key cs) hplaced
      exact ⟨cs', hperm, hcs'⟩
    · rw [length_sortByKey, hcslen]
      exact hstarts
    · by_cases hnil : fields = []
      · refine ⟨_, List.mem_cons_self, ?_⟩
        rw [hnil, pushedNames, List.flatMap_nil, List.flatten_nil, List.append_nil]
        by_cases hcats : f.cats = []
        · left
          rw [hcats, List.map_nil, List.flatten_nil, List.append_nil, List.length_append]
        · right
          obtain ⟨c, hc, heq⟩ := hcsends hcats
          exact ⟨c, (sortByKey_perm _ _).mem_iff.mpr hc, heq⟩
      · obtain ⟨o, ho, heq⟩ := hends hnil
        exact ⟨o, List.mem_cons_of_mem _ ho, heq⟩

end

/-! ## The category table -/

/-- The rows of a category table whose first posting is at `off`. -/
def facetRows (off : Nat) : List CatOut → List FacetRow
  | [] => []
  | c :: cats =>
    ⟨c.key, off, c.head.length, c.tail.length, c.card, c.nameOff, c.nameLen⟩ ::
      facetRows (off + (c.head.length + c.tail.length)) cats

theorem length_facetRow (r : FacetRow) : (facetRow r).length = 36 := by simp [facetRow]

theorem length_fieldRow (f : FieldOut) : (fieldRow f).length = 16 := by simp [fieldRow]

theorem length_rrsfHeader (cn : Bool) (fieldsN catsN strBytes : Nat) :
    (rrsfHeader cn fieldsN catsN strBytes).length = rrsfHeaderSize := by
  simp [rrsfHeader, rrsfMagic, rrsfHeaderSize]

section

variable {off : Nat} {cats : List CatOut}

theorem writeCatTable_eq (h : ∀ c ∈ cats, c.head.length < 2 ^ 32 ∧ c.tail.length < 2 ^ 32) :
    writeCatTable off cats = .ok (table facetRow (facetRows off cats)) := by
  induction cats generalizing off with
  | nil => rfl
  | cons c cats ih =>
    obtain ⟨hh, ht⟩ := h c List.mem_cons_self
    rw [writeCatTable, u32Len, if_pos hh, u32Len, if_pos ht, ih fun c hc => h c (List.mem_cons_of_mem _ hc)]
    rfl

/-- A row of the table is a placed category, its postings in the posting area. -/
structure RowOf (file : Bytes) (r : FacetRow) (c : CatOut) : Prop where
  card : r.card = c.card
  nameOff : r.nameOff = c.nameOff
  nameLen : r.nameLen = c.nameLen
  headLen : r.headLen = c.head.length
  tailLen : r.tailLen = c.tail.length
  inside : r.headOff + r.headLen + r.tailLen ≤ file.length
  head : slice file r.headOff r.headLen = c.head
  tail : slice file (r.headOff + r.headLen) r.tailLen = c.tail

theorem rowOf_facetRows {pre : Bytes} (hpre : pre.length = off) :
    List.Forall₂ (RowOf (pre ++ cats.flatMap fun c => c.head ++ c.tail)) (facetRows off cats) cats := by
  induction cats generalizing off pre with
  | nil => exact List.Forall₂.nil
  | cons c cats ih =>
    refine List.Forall₂.cons ⟨rfl, rfl, rfl, rfl, rfl, ?_, ?_, ?_⟩ ?_
    · simp only [List.flatMap_cons, List.length_append, hpre]
      omega
    · rw [List.flatMap_cons, List.append_assoc]
      exact slice_middle _ _ _ _ _ hpre.symm rfl
    · rw [List.flatMap_cons, List.append_assoc, ← List.append_assoc pre]
      exact slice_middle _ _ _ _ _ (by rw [List.length_append, hpre]) rfl
    · have := @ih (off + (c.head.length + c.tail.length)) (pre ++ (c.head ++ c.tail))
        (by simp only [List.length_append, hpre])
      simpa only [List.flatMap_cons, List.append_assoc] using this

end

/-- The field's part of all categories. -/
def FieldOut.span (cats : List Category) (o : FieldOut) : List Category :=
  (cats.take (o.catStart + o.cats.length)).drop o.catStart

/-- Where the postings of the categories lie, in the order of the file. -/
def catRanges (fields : List Field) : List CatRange := (fields.flatMap Field.categories).map Category.range

/-! ## The file -/

/-- Facet fields, and how their file places them. -/
structure Sidecar (fields : List FacetField) where
  caseNormalization : Bool
  outs : List FieldOut
  blob : Bytes
  fit : FacetsFit fields
  blob_eq : blob = (pushedNames fields).flatten
  placed : List.Forall₂ (PlacedField blob) outs fields
  starts : CatStarts 0 outs
  ends : fields ≠ [] → EndsAt outs blob.length

namespace Sidecar

variable {fields : List FacetField}

def cats (w : Sidecar fields) : List CatOut := w.outs.flatMap FieldOut.cats

def catTab (w : Sidecar fields) : Nat := rrsfHeaderSize + w.outs.length * fieldEntry

def strBlob (w : Sidecar fields) : Nat := w.catTab + w.cats.length * catEntry

def metaLen (w : Sidecar fields) : Nat := w.strBlob + w.blob.length

def rows (w : Sidecar fields) : List FacetRow := facetRows w.metaLen w.cats

/-- The meta region. -/
def metaBytes (w : Sidecar fields) : Bytes :=
  rrsfHeader w.caseNormalization w.outs.length w.cats.length w.blob.length ++
    (table fieldRow w.outs ++ (table facetRow w.rows ++ w.blob))

/-- The file. -/
def bytes (w : Sidecar fields) : Bytes := w.metaBytes ++ w.cats.flatMap fun c => c.head ++ c.tail

variable (w : Sidecar fields)

theorem length_outs : w.outs.length = fields.length := w.placed.length_eq

theorem length_cats : w.cats.length = (fields.flatMap FacetField.cats).length := by
  have h : ∀ (outs : List FieldOut) (fs : List FacetField), List.Forall₂ (PlacedField w.blob) outs fs →
      (outs.flatMap FieldOut.cats).length = (fs.flatMap FacetField.cats).length := by
    intro outs fs h
    induction h with
    | nil => rfl
    | cons hp _ ih =>
      obtain ⟨cs, hperm, hcs⟩ := hp.cats
      rw [List.flatMap_cons, List.flatMap_cons, List.length_append, List.length_append, ih, hcs.length_eq,
        hperm.length_eq]
  exact h _ _ w.placed

@[simp] theorem length_rows : w.rows.length = w.cats.length := by
  have h := (@rowOf_facetRows w.metaLen w.cats (List.replicate w.metaLen 0)
    (List.length_replicate ..)).length_eq
  exact h

theorem length_metaBytes : w.metaBytes.length = w.metaLen := by
  rw [metaBytes, List.length_append, List.length_append, List.length_append, length_rrsfHeader,
    length_table length_fieldRow, length_table length_facetRow, length_rows, metaLen, strBlob, catTab, fieldEntry,
    catEntry]
  omega

theorem rows_eq : List.Forall₂ (RowOf w.bytes) w.rows w.cats := rowOf_facetRows w.length_metaBytes

/-- A placed category is one of a field's categories. -/
theorem mem_cats {o : CatOut} (ho : o ∈ w.cats) :
    ∃ f ∈ fields, ∃ c ∈ f.cats, PlacedCat w.blob o c := by
  obtain ⟨out, hout, ho⟩ := List.mem_flatMap.mp ho
  obtain ⟨i, hi, rfl⟩ := List.getElem_of_mem hout
  obtain ⟨hlen, hget⟩ := List.forall₂_iff_get.mp w.placed
  obtain ⟨cs, hperm, hcs⟩ := (hget i hi (hlen ▸ hi)).cats
  obtain ⟨j, hj, rfl⟩ := List.getElem_of_mem ho
  obtain ⟨hlen', hget'⟩ := List.forall₂_iff_get.mp hcs
  exact ⟨_, List.getElem_mem _, _, hperm.subset (List.getElem_mem (hlen' ▸ hj)), hget' j hj (hlen' ▸ hj)⟩

theorem posting_lt {o : CatOut} (ho : o ∈ w.cats) : o.head.length < 2 ^ 32 ∧ o.tail.length < 2 ^ 32 := by
  obtain ⟨f, hf, c, hc, hp⟩ := w.mem_cats ho
  rw [hp.head, hp.tail]
  exact w.fit.posting_lt f hf c hc

/-- The postings take the room of the categories' postings. -/
theorem length_postings : (w.cats.flatMap fun c => c.head ++ c.tail).length = postingBytes fields := by
  have hcats : ∀ {outs : List CatOut} {cs : List FacetCategory}, List.Forall₂ (PlacedCat w.blob) outs cs →
      (outs.flatMap fun c => c.head ++ c.tail) = cs.flatMap fun c => c.head ++ c.tail := by
    intro outs cs h
    induction h with
    | nil => rfl
    | cons hp _ ih => rw [List.flatMap_cons, List.flatMap_cons, ih, hp.head, hp.tail]
  have hfields : ∀ {outs : List FieldOut} {fs : List FacetField}, List.Forall₂ (PlacedField w.blob) outs fs →
      ((outs.flatMap FieldOut.cats).flatMap fun c => c.head ++ c.tail).length =
        ((fs.flatMap FacetField.cats).flatMap fun c => c.head ++ c.tail).length := by
    intro outs fs h
    induction h with
    | nil => rfl
    | cons hp _ ih =>
      obtain ⟨cs, hperm, hcs⟩ := hp.cats
      simp only [List.flatMap_cons, List.flatMap_append, List.length_append]
      rw [ih, hcats hcs, (hperm.flatMap_right _).length_eq]
  exact hfields w.placed

theorem length_bytes : w.bytes.length = facetFileLength fields := by
  rw [bytes, List.length_append, length_metaBytes, length_postings, metaLen, strBlob, catTab, w.length_outs,
    w.length_cats, w.blob_eq, facetFileLength]

/-- The file is within the address space. -/
theorem length_bytes_lt : w.bytes.length < u64Bound := by
  rw [length_bytes]
  exact w.fit.file_lt

end Sidecar

/-- The writer's file is that of some placement of the fields. -/
theorem writeFacetsWith_eq [Unicode] {fields : List FacetField} (fit : FacetsFit fields) (cn : Bool) :
    ∃ w : Sidecar fields, w.caseNormalization = cn ∧ writeFacetsWith fields cn = .ok w.bytes := by
  obtain ⟨outs, houts, hplaced, hstarts, hends⟩ := @placeFields_eq _ cn fields [] 0 fit.names
    (by simpa only [Nat.zero_add] using fit.cats_lt)
  rw [List.nil_append, Nat.zero_add] at houts
  rw [List.nil_append] at hplaced hends
  refine ⟨⟨cn, outs, _, fit, rfl, hplaced, hstarts, hends⟩, rfl, ?_⟩
  generalize hw : (⟨cn, outs, _, fit, rfl, hplaced, hstarts, hends⟩ : Sidecar fields) = w
  have hout : outs = w.outs := by rw [← hw]
  have hblob : (pushedNames fields).flatten = w.blob := by rw [← hw]
  have hcn : cn = w.caseNormalization := by rw [← hw]
  rw [writeFacetsWith, houts, ← w.length_cats, hblob, hcn, hout]
  simp only [bind, Except.bind]
  have htab := @writeCatTable_eq w.metaLen w.cats fun c hc => by
    have := w.posting_lt hc
    omega
  have hoff : 24 + w.outs.length * 16 + w.cats.length * 36 + w.blob.length = w.metaLen := rfl
  rw [hoff, show w.outs.flatMap FieldOut.cats = w.cats from rfl, htab]
  simp only [pure, Except.pure, Sidecar.bytes, Sidecar.metaBytes, Sidecar.rows, List.append_assoc]

/-! ## Reading the file -/

/-- What a reader keeps of a category: its name, its count and where its postings are. -/
structure CategoryOf (file : Bytes) (c : Category) (d : FacetCategory) : Prop where
  name : c.name = d.name
  count : c.count = d.card
  head : c.range.headOff + c.range.headSize ≤ file.length ∧ slice file c.range.headOff c.range.headSize = d.head
  tail : c.range.tailOff + c.range.tailSize ≤ file.length ∧ slice file c.range.tailOff c.range.tailSize = d.tail
  tailOff : c.range.tailOff = c.range.headOff + c.range.headSize
  bare : c.head = ∅ ∧ c.tailDir = none

/-- What a reader keeps of a field: its name, and its categories in the order of the file. -/
structure FieldOf (file : Bytes) (f : Field) (g : FacetField) : Prop where
  name : f.name = g.name
  cats : ∃ cs, cs.Perm g.cats ∧ List.Forall₂ (CategoryOf file) f.categories cs

/-- The fields of a header. -/
theorem rrsfHeader_fields {cn : Bool} {fieldsN catsN strBytes : Nat} (hf : fieldsN < 2 ^ 32) (hc : catsN < 2 ^ 32)
    (hs : strBytes < 2 ^ 32) (rest : Bytes) :
    slice (rrsfHeader cn fieldsN catsN strBytes ++ rest) 0 4 = rrsfMagic ∧
    getLe 2 (rrsfHeader cn fieldsN catsN strBytes ++ rest) 4 = 1 ∧
    getLe 4 (rrsfHeader cn fieldsN catsN strBytes ++ rest) 8 = fieldsN ∧
    getLe 4 (rrsfHeader cn fieldsN catsN strBytes ++ rest) 12 = catsN ∧
    getLe 4 (rrsfHeader cn fieldsN catsN strBytes ++ rest) 16 = strBytes := by
  have hmagic : ∀ (w off : Nat) (x : Bytes), getLe w (rrsfMagic ++ x) (4 + off) = getLe w x off := by
    intro w off x
    rw [getLe_append_right _ _ _ _ (by simp [rrsfMagic])]
    congr 1
    simp [rrsfMagic]
  unfold rrsfHeader
  simp only [List.append_assoc]
  refine ⟨?_, ?_, ?_, ?_, ?_⟩
  · rw [slice_append_left _ _ _ _ (by simp [rrsfMagic])]
    rfl
  · exact (hmagic 2 0 _).trans (getLe_field (by decide) _)
  · exact (hmagic 4 4 _).trans ((getLe_le_skip 4 2 _ _ 2).trans ((getLe_le_skip 4 2 _ _ 0).trans
      (getLe_field hf _)))
  · exact (hmagic 4 8 _).trans ((getLe_le_skip 4 2 _ _ 6).trans ((getLe_le_skip 4 2 _ _ 4).trans
      ((getLe_le_skip 4 4 _ _ 0).trans (getLe_field hc _))))
  · exact (hmagic 4 12 _).trans ((getLe_le_skip 4 2 _ _ 10).trans ((getLe_le_skip 4 2 _ _ 8).trans
      ((getLe_le_skip 4 4 _ _ 4).trans ((getLe_le_skip 4 4 _ _ 0).trans (getLe_field hs _)))))

theorem facetRow_fields {r : FacetRow} (ho : r.headOff < 2 ^ 64) (hh : r.headLen < 2 ^ 32) (ht : r.tailLen < 2 ^ 32)
    (hc : r.card < 2 ^ 32) (hn : r.nameOff < 2 ^ 32) (hl : r.nameLen < 2 ^ 16) :
    getLe 8 (facetRow r) 8 = r.headOff ∧ getLe 4 (facetRow r) 16 = r.headLen ∧
    getLe 4 (facetRow r) 20 = r.tailLen ∧ getLe 4 (facetRow r) 24 = r.card ∧
    getLe 4 (facetRow r) 28 = r.nameOff ∧ getLe 2 (facetRow r) 32 = r.nameLen := by
  have h8 : ∀ w off, getLe w (facetRow r) (8 + off) = getLe w (le 8 r.headOff ++ (le 4 r.headLen ++
      (le 4 r.tailLen ++ (le 4 r.card ++ (le 4 r.nameOff ++ (le 2 r.nameLen ++ le 2 0)))))) off :=
    fun w off => getLe_le_skip w 8 _ _ off
  have h16 : ∀ w off, getLe w (facetRow r) (16 + off) = getLe w (le 4 r.headLen ++
      (le 4 r.tailLen ++ (le 4 r.card ++ (le 4 r.nameOff ++ (le 2 r.nameLen ++ le 2 0))))) off := by
    intro w off
    have := (h8 w (8 + off)).trans (getLe_le_skip w 8 _ _ off)
    rwa [← Nat.add_assoc] at this
  have h24 : ∀ w off, getLe w (facetRow r) (24 + off) = getLe w (le 4 r.card ++ (le 4 r.nameOff ++
      (le 2 r.nameLen ++ le 2 0))) off := by
    intro w off
    have := (h16 w (4 + (4 + off))).trans ((getLe_le_skip w 4 _ _ (4 + off)).trans (getLe_le_skip w 4 _ _ off))
    rwa [← Nat.add_assoc, ← Nat.add_assoc] at this
  refine ⟨(h8 8 0).trans (getLe_field ho _), (h16 4 0).trans (getLe_field hh _),
    (h16 4 4).trans ((getLe_le_skip 4 4 _ _ 0).trans (getLe_field ht _)), (h24 4 0).trans (getLe_field hc _),
    (h24 4 4).trans ((getLe_le_skip 4 4 _ _ 0).trans (getLe_field hn _)), ?_⟩
  exact (h24 2 8).trans ((getLe_le_skip 2 4 _ _ 4).trans ((getLe_le_skip 2 4 _ _ 0).trans (getLe_field hl _)))

theorem fieldRow_fields {f : FieldOut} (hn : f.nameOff < 2 ^ 32) (hl : f.nameLen < 2 ^ 16)
    (hs : f.catStart < 2 ^ 32) (hc : f.cats.length < 2 ^ 32) :
    getLe 4 (fieldRow f) 0 = f.nameOff ∧ getLe 2 (fieldRow f) 4 = f.nameLen ∧
    getLe 4 (fieldRow f) 8 = f.catStart ∧ getLe 4 (fieldRow f) 12 = f.cats.length := by
  have h4 : ∀ w off, getLe w (fieldRow f) (4 + off) = getLe w (le 2 f.nameLen ++ (le 2 0 ++
      (le 4 f.catStart ++ le 4 f.cats.length))) off := fun w off => getLe_le_skip w 4 _ _ off
  have h8 : ∀ w off, getLe w (fieldRow f) (8 + off) = getLe w (le 4 f.catStart ++ le 4 f.cats.length) off := by
    intro w off
    have := (h4 w (2 + (2 + off))).trans ((getLe_le_skip w 2 _ _ (2 + off)).trans (getLe_le_skip w 2 _ _ off))
    rwa [← Nat.add_assoc, ← Nat.add_assoc] at this
  exact ⟨getLe_field hn _, (h4 2 0).trans (getLe_field hl _), (h8 4 0).trans (getLe_field hs _),
    (h8 4 4).trans ((getLe_le_skip 4 4 _ _ 0).trans (getLe_last hc))⟩

namespace Sidecar

variable {fields : List FacetField} (w : Sidecar fields)

theorem fieldsN_lt : w.outs.length < 2 ^ 32 := by
  rw [w.length_outs]
  exact w.fit.fields_lt

theorem catsN_lt : w.cats.length < 2 ^ 32 := by
  rw [w.length_cats]
  exact w.fit.cats_lt

/-- A name of the blob is read. -/
theorem readFacetName_eq {off len : Nat} {s : String} (h : NameAt w.blob off len s) :
    readFacetName w.metaBytes w.strBlob w.blob.length off len = .ok s := by
  have h1 := h.off_lt
  have h2 := h.len_lt
  have hslice : slice w.metaBytes (w.strBlob + off) len = utf8 s := by
    have hpre : w.metaBytes = (rrsfHeader w.caseNormalization w.outs.length w.cats.length w.blob.length ++
        (table fieldRow w.outs ++ table facetRow w.rows)) ++ w.blob := by
      simp only [metaBytes, List.append_assoc]
    have hlen : (rrsfHeader w.caseNormalization w.outs.length w.cats.length w.blob.length ++
        (table fieldRow w.outs ++ table facetRow w.rows)).length = w.strBlob := by
      have := w.length_metaBytes
      rw [hpre, List.length_append, metaLen] at this
      omega
    rw [hpre, slice_append_right _ _ _ _ (by rw [hlen]; omega), hlen, Nat.add_sub_cancel_left, h.slice_eq]
  unfold readFacetName
  rw [if_pos ⟨by unfold u64Bound; omega, h.inside⟩, hslice, fromUtf8Lossy, fromUtf8_utf8]

theorem getLe_catTab {i : Nat} (hi : i < w.rows.length) (v off : Nat) (ho : off + v ≤ 36) :
    getLe v w.metaBytes (w.catTab + i * catEntry + off) = getLe v (facetRow w.rows[i]) off := by
  have hlen := length_table length_facetRow w.rows
  have hh := length_rrsfHeader w.caseNormalization w.outs.length w.cats.length w.blob.length
  have hf := length_table length_fieldRow w.outs
  have ht : w.catTab = rrsfHeaderSize + w.outs.length * 16 := rfl
  have hc : i * 36 + 36 ≤ w.rows.length * 36 := by omega
  rw [metaBytes, catEntry, getLe_append_right _ _ _ _ (by omega), getLe_append_right _ _ _ _ (by omega),
    getLe_append_left _ _ _ _ (by omega)]
  rw [show w.catTab + i * 36 + off - (rrsfHeader w.caseNormalization w.outs.length w.cats.length
    w.blob.length).length - (table fieldRow w.outs).length = i * 36 + off by omega]
  exact getLe_table length_facetRow _ i hi v off ho

theorem getLe_fieldTab {i : Nat} (hi : i < w.outs.length) (v off : Nat) (ho : off + v ≤ 16) :
    getLe v w.metaBytes (rrsfHeaderSize + i * fieldEntry + off) = getLe v (fieldRow w.outs[i]) off := by
  have hh := length_rrsfHeader w.caseNormalization w.outs.length w.cats.length w.blob.length
  have hf := length_table length_fieldRow w.outs
  have hc : i * 16 + 16 ≤ w.outs.length * 16 := by omega
  rw [metaBytes, fieldEntry, getLe_append_right _ _ _ _ (by omega), getLe_append_left _ _ _ _ (by omega)]
  rw [show rrsfHeaderSize + i * 16 + off - (rrsfHeader w.caseNormalization w.outs.length w.cats.length
    w.blob.length).length = i * 16 + off by omega]
  exact getLe_table length_fieldRow _ i hi v off ho

/-- A row of the category table is read. -/
theorem parseCategory_eq {i : Nat} (hr : i < w.rows.length) (hi : i < w.cats.length) : ∃ c,
    parseCategory w.metaBytes w.strBlob w.blob.length (w.catTab + i * catEntry) = .ok c ∧
      c.range = w.rows[i].range ∧ ∀ d, PlacedCat w.blob w.cats[i] d → CategoryOf w.bytes c d := by
  have hrow : RowOf w.bytes w.rows[i] w.cats[i] := (List.forall₂_iff_get.mp w.rows_eq).2 i hr hi
  obtain ⟨f, hf, d, hd, hp⟩ := w.mem_cats (List.getElem_mem hi)
  have hlt := w.length_bytes_lt
  have hin := hrow.inside
  have hpost := w.posting_lt (List.getElem_mem hi)
  unfold u64Bound at hlt
  obtain ⟨e1, e2, e3, e4, e5, e6⟩ := facetRow_fields (r := w.rows[i]) (by omega) (by rw [hrow.headLen]; omega)
    (by rw [hrow.tailLen]; omega) (by rw [hrow.card, hp.card]; exact w.fit.card_lt f hf d hd)
    (by rw [hrow.nameOff]; exact hp.name.off_lt) (by rw [hrow.nameLen]; exact hp.name.len_lt)
  refine ⟨⟨d.name, w.rows[i].card, w.rows[i].range, ∅, none⟩, ?_, rfl, ?_⟩
  · have hadd : saturatingAdd w.rows[i].headOff w.rows[i].headLen = w.rows[i].headOff + w.rows[i].headLen := by
      unfold saturatingAdd usizeMax u64Bound
      omega
    unfold parseCategory
    rw [w.getLe_catTab hr 8 8 (by omega), w.getLe_catTab hr 4 16 (by omega), w.getLe_catTab hr 4 28 (by omega),
      w.getLe_catTab hr 2 32 (by omega), w.getLe_catTab hr 4 24 (by omega), w.getLe_catTab hr 4 20 (by omega),
      e1, e2, e3, e4, e5, e6, hrow.nameOff, hrow.nameLen, w.readFacetName_eq hp.name]
    simp only [bind, Except.bind, pure, Except.pure, hadd]
    rfl
  · intro d' hp'
    have hname : d'.name = d.name := by
      have h := hp.name.slice_eq
      rw [hp'.name.slice_eq] at h
      exact Option.some.inj (by rw [← fromUtf8_utf8, ← fromUtf8_utf8, h])
    refine ⟨hname.symm, by rw [← hp'.card]; exact hrow.card, ⟨?_, ?_⟩, ⟨?_, ?_⟩, rfl, rfl, rfl⟩
    · exact Nat.le_trans (Nat.le_add_right _ _) hin
    · rw [← hp'.head]
      exact hrow.head
    · exact hin
    · rw [← hp'.tail]
      exact hrow.tail

theorem catStarts_slice {outs : List FieldOut} : ∀ {start : Nat} {pre : List CatOut}, CatStarts start outs →
    pre.length = start → ∀ (i : Nat) (hi : i < outs.length),
      outs[i].catStart + outs[i].cats.length ≤ (pre ++ outs.flatMap FieldOut.cats).length ∧
        ((pre ++ outs.flatMap FieldOut.cats).take (outs[i].catStart + outs[i].cats.length)).drop outs[i].catStart =
          outs[i].cats := by
  induction outs with
  | nil => exact fun _ _ i hi => absurd hi (Nat.not_lt_zero i)
  | cons o outs ih =>
    intro start pre hs hpre i hi
    obtain ⟨ho, hs⟩ := hs
    cases i with
    | zero =>
      simp only [List.getElem_cons_zero, List.flatMap_cons]
      rw [ho, ← hpre]
      refine ⟨by simp only [List.length_append]; omega, ?_⟩
      rw [← List.append_assoc, ← List.length_append, List.take_left, List.drop_left]
    | succ i =>
      have := @ih _ (pre ++ o.cats) hs (by rw [List.length_append, hpre]) i (Nat.lt_of_succ_lt_succ hi)
      simpa only [List.flatMap_cons, List.append_assoc, List.getElem_cons_succ] using this

/-- The fields' spans cover the categories in order. -/
theorem flatMap_span {cats : List Category} : ∀ {outs : List FieldOut} {start : Nat}, CatStarts start outs →
    outs.flatMap (FieldOut.span cats) = (cats.take (start + (outs.flatMap FieldOut.cats).length)).drop start
  | [], start, _ => by
    rw [List.flatMap_nil, List.flatMap_nil, List.length_nil, Nat.add_zero, List.drop_eq_nil_of_le]
    exact List.length_take_le _ _
  | o :: outs, start, h => by
    obtain ⟨ho, hrest⟩ := h
    rw [List.flatMap_cons, flatMap_span hrest, List.flatMap_cons, List.length_append, FieldOut.span, ho,
      ← Nat.add_assoc]
    generalize hn : start + o.cats.length = mid
    generalize (outs.flatMap FieldOut.cats).length = n
    have htake : (cats.take (mid + n)).take mid = cats.take mid := by
      rw [List.take_take, Nat.min_eq_left (by omega)]
    have hsplit := List.take_append_drop mid (cats.take (mid + n))
    rw [htake] at hsplit
    conv_rhs => rw [← hsplit]
    by_cases hlen : mid ≤ cats.length
    · rw [List.drop_append_of_le_length (by rw [List.length_take]; omega)]
    · have h1 : (cats.take (mid + n)).drop mid = [] := List.drop_eq_nil_of_le (by rw [List.length_take]; omega)
      rw [h1, List.append_nil, List.append_nil]

/-- A row of the field table is read. -/
theorem parseField_eq {cats : List Category}
    (hcats : List.Forall₂ (fun c o => ∀ d, PlacedCat w.blob o d → CategoryOf w.bytes c d) cats w.cats)
    {i : Nat} (hi : i < w.outs.length) : ∃ f,
    parseField w.metaBytes w.strBlob w.blob.length cats (rrsfHeaderSize + i * fieldEntry) = .ok f ∧
      f.categories = w.outs[i].span cats ∧ FieldOf w.bytes f (getElem fields i (by rw [← w.length_outs]; exact hi)) := by
  obtain ⟨hle, hslice⟩ := @catStarts_slice _ _ [] w.starts rfl i hi
  rw [List.nil_append] at hle hslice
  have hp : PlacedField w.blob w.outs[i] _ := (List.forall₂_iff_get.mp w.placed).2 i hi (w.length_outs ▸ hi)
  have hlen : cats.length = w.cats.length := hcats.length_eq
  have hlt := w.catsN_lt
  have hi' : i < fields.length := w.length_outs ▸ hi
  have hle' : w.outs[i].catStart + w.outs[i].cats.length ≤ w.cats.length := hle
  have hrow := fun v off => w.getLe_fieldTab hi v off
  have h0 := hrow 4 0 (by omega)
  rw [Nat.add_zero] at h0
  obtain ⟨e1, e2, e3, e4⟩ := fieldRow_fields (f := w.outs[i]) hp.name.off_lt hp.name.len_lt (by omega) (by omega)
  refine ⟨⟨fields[i].name, w.outs[i].span cats⟩, ?_, rfl, rfl, ?_⟩
  · unfold parseField
    rw [h0, hrow 2 4 (by omega), hrow 4 8 (by omega), hrow 4 12 (by omega), e1, e2, e3, e4,
      w.readFacetName_eq hp.name]
    simp only [hlen]
    rw [if_neg (by omega)]
    rfl
  · obtain ⟨cs, hperm, hcs⟩ := hp.cats
    refine ⟨cs, hperm, ?_⟩
    have hpart := List.forall₂_drop w.outs[i].catStart
      (List.forall₂_take (w.outs[i].catStart + w.outs[i].cats.length) hcats)
    rw [show w.cats = w.outs.flatMap FieldOut.cats from rfl, hslice] at hpart
    obtain ⟨hlen1, hget1⟩ := List.forall₂_iff_get.mp hpart
    obtain ⟨hlen2, hget2⟩ := List.forall₂_iff_get.mp hcs
    exact List.forall₂_iff_get.mpr ⟨hlen1.trans hlen2, fun j h1 h2 =>
      hget1 j h1 (hlen1 ▸ h1) _ (hget2 j (hlen1 ▸ h1) h2)⟩

theorem header_fields (hb : w.blob.length < 2 ^ 32) (rest : Bytes) :
    slice (w.metaBytes ++ rest) 0 4 = rrsfMagic ∧ getLe 2 (w.metaBytes ++ rest) 4 = 1 ∧
      getLe 4 (w.metaBytes ++ rest) 8 = w.outs.length ∧ getLe 4 (w.metaBytes ++ rest) 12 = w.cats.length ∧
      getLe 4 (w.metaBytes ++ rest) 16 = w.blob.length := by
  rw [metaBytes, List.append_assoc]
  exact rrsfHeader_fields w.fieldsN_lt w.catsN_lt hb _

theorem rrsfBootLen_eq (hb : w.blob.length < 2 ^ 32) (rest : Bytes) :
    rrsfBootLen (slice (w.metaBytes ++ rest) 0 rrsfHeaderSize) = .ok w.metaLen := by
  obtain ⟨h1, h2, h3, h4, h5⟩ := w.header_fields hb rest
  have hlen := w.length_metaBytes
  have hlt := w.length_bytes_lt
  have hml : w.outs.length * fieldEntry + rrsfHeaderSize + w.cats.length * catEntry + w.blob.length = w.metaLen := by
    rw [metaLen, strBlob, catTab]
    omega
  have hbytes : w.bytes.length = w.metaLen + (w.cats.flatMap fun c => c.head ++ c.tail).length := by
    rw [bytes, List.length_append, hlen]
  have hfield : ∀ v off, off + v ≤ 24 → getLe v (slice (w.metaBytes ++ rest) 0 rrsfHeaderSize) off =
      getLe v (w.metaBytes ++ rest) off := by
    intro v off ho
    rw [getLe_slice _ _ _ _ _ (by rw [rrsfHeaderSize]; omega), Nat.zero_add]
  have h24 : rrsfHeaderSize ≤ w.metaLen := by
    rw [metaLen, strBlob, catTab]
    omega
  unfold rrsfBootLen
  rw [if_neg (by rw [length_slice _ _ _ (by rw [List.length_append, hlen]; omega)]; omega),
    if_neg (by rw [slice_slice _ _ _ _ _ (by decide), Nat.add_zero, h1]; simp), hfield 2 4 (by omega), h2,
    if_neg (by simp), hfield 4 8 (by omega), hfield 4 12 (by omega), hfield 4 16 (by omega), h3, h4, h5, hml,
    if_pos (by omega)]

/-- The meta region is read back. -/
theorem fromMeta_eq (hb : w.blob.length < 2 ^ 32) : ∃ fs, fromMeta w.metaBytes = .ok fs ∧
    List.Forall₂ (FieldOf w.bytes) fs fields ∧ catRanges fs = w.rows.map FacetRow.range := by
  obtain ⟨-, -, h3, h4, h5⟩ := w.header_fields hb []
  rw [List.append_nil] at h3 h4 h5
  have hboot := w.rrsfBootLen_eq hb []
  rw [List.append_nil] at hboot
  have hlen := w.length_metaBytes
  have h24 : rrsfHeaderSize ≤ w.metaLen := by
    rw [metaLen, strBlob, catTab]
    omega
  have hzip : (w.rows.zip w.cats).length = w.cats.length := by rw [List.length_zip, length_rows, Nat.min_self]
  obtain ⟨cats, hcats, hzipped⟩ := @collect_range _ _ _
    (fun c (y : FacetRow × CatOut) => c.range = y.1.range ∧ ∀ d, PlacedCat w.blob y.2 d → CategoryOf w.bytes c d)
    (w.rows.zip w.cats) (fun i => parseCategory w.metaBytes w.strBlob w.blob.length (w.catTab + i * catEntry))
    fun i hi => by
      rw [List.getElem_zip]
      exact w.parseCategory_eq (by rw [length_rows]; omega) (by omega)
  rw [hzip] at hcats
  have hcs : List.Forall₂ (fun c o => ∀ d, PlacedCat w.blob o d → CategoryOf w.bytes c d) cats w.cats := by
    have hsnd : (w.rows.zip w.cats).map Prod.snd = w.cats := List.map_snd_zip (by rw [length_rows])
    rw [← hsnd, List.forall₂_map_right_iff]
    exact hzipped.imp fun _ _ h => h.2
  have hranges : cats.map Category.range = w.rows.map FacetRow.range := by
    have hfst : (w.rows.zip w.cats).map Prod.fst = w.rows := List.map_fst_zip (by rw [length_rows])
    rw [← hfst, List.map_map]
    exact map_eq_of_forall₂ (hzipped.imp fun _ _ h => h.1)
  have hzip' : (w.outs.zip fields).length = w.outs.length := by rw [List.length_zip, ← w.length_outs, Nat.min_self]
  obtain ⟨fs, hfs, hzipped'⟩ := @collect_range _ _ _
    (fun f (y : FieldOut × FacetField) => f.categories = y.1.span cats ∧ FieldOf w.bytes f y.2) (w.outs.zip fields)
    (fun i => parseField w.metaBytes w.strBlob w.blob.length cats (rrsfHeaderSize + i * fieldEntry))
    fun i hi => by
      rw [List.getElem_zip]
      exact w.parseField_eq hcs (by omega)
  rw [hzip'] at hfs
  have hfields : List.Forall₂ (FieldOf w.bytes) fs fields := by
    have hsnd : (w.outs.zip fields).map Prod.snd = fields := List.map_snd_zip (by rw [w.length_outs])
    have hf : List.Forall₂ (FieldOf w.bytes) fs ((w.outs.zip fields).map Prod.snd) :=
      List.forall₂_map_right_iff.mpr (hzipped'.imp fun _ _ h => h.2)
    rwa [hsnd] at hf
  have hspans : fs.flatMap Field.categories = cats := by
    have hfst : (w.outs.zip fields).map Prod.fst = w.outs := List.map_fst_zip (by rw [w.length_outs])
    have hmap : fs.map Field.categories = w.outs.map (FieldOut.span cats) := by
      rw [← hfst, List.map_map]
      exact map_eq_of_forall₂ (hzipped'.imp fun _ _ h => h.1)
    rw [List.flatMap_def, hmap, ← List.flatMap_def, flatMap_span w.starts, List.drop_zero, Nat.zero_add]
    exact List.take_of_length_le (by rw [hcs.length_eq]; exact Nat.le_refl _)
  refine ⟨fs, ?_, hfields, by rw [catRanges, hspans, hranges]⟩
  unfold fromMeta
  rw [if_neg (by omega), hboot]
  simp only [bind, Except.bind]
  rw [if_neg (by omega), h3, h4, h5, show rrsfHeaderSize + w.outs.length * fieldEntry = w.catTab from rfl,
    show w.catTab + w.cats.length * catEntry = w.strBlob from rfl, hcats]
  exact hfs

/-- **Opening the file**: every field and category is read back, with its postings where they are. -/
theorem settles_openMeta (hb : w.blob.length < 2 ^ 32) : ∃ fs, List.Forall₂ (FieldOf w.bytes) fs fields ∧
    catRanges fs = w.rows.map FacetRow.range ∧
    Settles (FacetIndex.openMeta (MemoryFetch.new w.bytes)) (.ok ⟨MemoryFetch.new w.bytes, fs⟩) := by
  obtain ⟨fs, hmeta, hfields, hranges⟩ := w.fromMeta_eq hb
  have hlen := w.length_metaBytes
  have hle : w.metaLen ≤ w.bytes.length := by
    rw [bytes, List.length_append, hlen]
    omega
  have h24 : rrsfHeaderSize ≤ w.metaLen := by
    rw [metaLen, strBlob, catTab]
    omega
  refine ⟨fs, hfields, hranges, ?_⟩
  unfold FacetIndex.openMeta
  refine (MemoryFetch.settles_read (MemoryFetch.inFile_new w.length_bytes_lt (by omega))).bind ?_
  have hboot : rrsfBootLen (slice (MemoryFetch.new w.bytes).bytes 0 rrsfHeaderSize) = .ok w.metaLen :=
    w.rrsfBootLen_eq hb _
  rw [hboot]
  refine (Settles.ofOutcome (.ok w.metaLen)).bind ?_
  refine (MemoryFetch.settles_read (MemoryFetch.inFile_new w.length_bytes_lt (by omega))).bind ?_
  have hbuf : slice (MemoryFetch.new w.bytes).bytes 0 w.metaLen = w.metaBytes := by
    show slice (w.metaBytes ++ _) 0 w.metaLen = _
    rw [slice_append_left _ _ _ _ (by omega), ← hlen, slice_zero_length]
  rw [hbuf, FacetIndex.fromBoot, hmeta]
  exact Settles.ofOutcome _

end Sidecar

end RoaringRange
