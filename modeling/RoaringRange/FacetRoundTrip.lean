import Mathlib.Algebra.Order.Group.Nat
import Mathlib.Data.Fintype.Card
import RoaringRange.FacetCorpus
import RoaringRange.FacetHeads
import RoaringRange.PortableCodec

/-!
# The round trip of a facet sidecar (`build.rs`, `facet.rs`)

The writer counts fields and categories in 32 bits.  Names of a set are distinct, so there are never more of
them than the names' bytes allow, and the writer refuses a name that starts past 2^32 bytes.  It does not look
where the last name ends: the header then has too small a blob, and the reader turns the file down.

    distinct names → the file is read back ↔ the names take less than 2^32 bytes          (sidecarReads_iff)
-/

namespace RoaringRange

open ByteString Faults Slices

/-! ## How many names fit a blob -/

/-- Distinct names take room: none but one is empty, and few are one byte long. -/
theorem room_of_nodup {names : List Bytes} (h : names.Nodup) :
    names.length ≤ names.flatten.length + 1 ∧ 2 * names.length ≤ names.flatten.length + 258 := by
  have hcount : ∀ l : List Bytes, l.length ≤ (l.filter fun b => b.length = 0).length + l.flatten.length ∧
      2 * l.length ≤ 2 * (l.filter fun b => b.length = 0).length + (l.filter fun b => b.length = 1).length +
        l.flatten.length := by
    intro l
    induction l with
    | nil => simp
    | cons b l ih =>
      rw [List.flatten_cons, List.length_append, List.length_cons]
      by_cases h0 : b.length = 0
      · rw [List.filter_cons_of_pos (by simpa using h0), List.filter_cons_of_neg (by simp [h0]), List.length_cons]
        omega
      · by_cases h1 : b.length = 1
        · rw [List.filter_cons_of_neg (by simpa using h0), List.filter_cons_of_pos (by simpa using h1),
            List.length_cons]
          omega
        · rw [List.filter_cons_of_neg (by simpa using h0), List.filter_cons_of_neg (by simpa using h1)]
          omega
  have hempty : (names.filter fun b => b.length = 0).length ≤ 1 := by
    have hnd := h.filter fun b => decide (b.length = 0)
    have hrep : (names.filter fun b => b.length = 0).toFinset ⊆ {[]} := by
      intro b hb
      have hb' := (List.mem_filter.mp (List.mem_toFinset.mp hb)).2
      exact Finset.mem_singleton.mpr (List.length_eq_zero_iff.mp (by simpa using hb'))
    have hcard := Finset.card_le_card hrep
    rwa [List.toFinset_card_of_nodup hnd, Finset.card_singleton] at hcard
  have hone : (names.filter fun b => b.length = 1).length ≤ 256 := by
    have hnd := h.filter fun b => decide (b.length = 1)
    have hbytes : (names.filter fun b => b.length = 1).toFinset ⊆
        (Finset.univ : Finset (Fin 256)).image fun i => [UInt8.ofFin i] := by
      intro b hb
      have hb' := (List.mem_filter.mp (List.mem_toFinset.mp hb)).2
      obtain ⟨x, rfl⟩ := List.length_eq_one_iff.mp (by simpa using hb')
      exact Finset.mem_image.mpr ⟨x.toFin, Finset.mem_univ _, by simp⟩
    have hcard := (Finset.card_le_card hbytes).trans Finset.card_image_le
    rwa [List.toFinset_card_of_nodup hnd, Finset.card_univ, Fintype.card_fin] at hcard
  obtain ⟨h1, h2⟩ := hcount names
  omega

/-- A set of fields, each with a set of categories. -/
structure DistinctNames (fields : List FacetField) : Prop where
  names : (fields.map FacetField.name).Nodup
  cats : ∀ f ∈ fields, (f.cats.map FacetCategory.name).Nodup

theorem utf8_nodup {names : List String} (h : names.Nodup) : (names.map utf8).Nodup :=
  h.map fun _ _ he => utf8_injective he

/-- The room of all names: that of the fields' names, and that of each field's categories. -/
theorem length_flatten_pushedNames (fields : List FacetField) : (pushedNames fields).flatten.length =
    ((fields.map FacetField.name).map utf8).flatten.length +
      (fields.map fun f => ((f.cats.map FacetCategory.name).map utf8).flatten.length).sum := by
  induction fields with
  | nil => rfl
  | cons f fields ih =>
    have hnames : pushedNames (f :: fields) = (utf8 f.name :: f.cats.map fun c => utf8 c.name) ++ pushedNames fields :=
      List.flatMap_cons
    have hcats : (f.cats.map FacetCategory.name).map utf8 = f.cats.map fun c => utf8 c.name := List.map_map
    rw [hnames, List.flatten_append, List.flatten_cons, List.length_append, List.length_append, ih, List.map_cons,
      List.map_cons, List.flatten_cons, List.length_append, List.map_cons, List.sum_cons, hcats]
    omega

/-- The counters of the file do not wrap where the names could be pushed. -/
theorem DistinctNames.counts {fields : List FacetField} (h : DistinctNames fields)
    (hroom : (pushedNames fields).flatten.length < 2 ^ 32 + 2 ^ 16) :
    fields.length < 2 ^ 32 ∧ (fields.flatMap FacetField.cats).length < 2 ^ 32 := by
  obtain ⟨-, hfields⟩ := room_of_nodup (utf8_nodup h.names)
  rw [List.length_map, List.length_map] at hfields
  have hcats : ∀ fs : List FacetField, (∀ f ∈ fs, (f.cats.map FacetCategory.name).Nodup) →
      (fs.flatMap FacetField.cats).length ≤
        (fs.map fun f => ((f.cats.map FacetCategory.name).map utf8).flatten.length).sum + fs.length ∧
      2 * (fs.flatMap FacetField.cats).length ≤
        (fs.map fun f => ((f.cats.map FacetCategory.name).map utf8).flatten.length).sum + 258 * fs.length := by
    intro fs
    induction fs with
    | nil => exact fun _ => ⟨Nat.le_refl _, Nat.le_refl _⟩
    | cons f fs ih =>
      intro hfs
      obtain ⟨h1, h2⟩ := ih fun g hg => hfs g (List.mem_cons_of_mem _ hg)
      obtain ⟨h3, h4⟩ := room_of_nodup (utf8_nodup (hfs f List.mem_cons_self))
      rw [List.length_map, List.length_map] at h3 h4
      rw [List.flatMap_cons, List.length_append, List.map_cons, List.sum_cons, List.length_cons]
      omega
  obtain ⟨h1, h2⟩ := hcats fields h.cats
  rw [length_flatten_pushedNames] at hroom
  omega

/-! ## What the writer accepts -/

theorem pushFacetName_ok {blob : Bytes} {s : String} {r : Nat × Nat × Bytes} (h : pushFacetName blob s = .ok r) :
    blob.length < 2 ^ 32 ∧ (utf8 s).length < 2 ^ 16 ∧ r = (blob.length, (utf8 s).length, blob ++ utf8 s) := by
  unfold pushFacetName u32Len at h
  by_cases hb : blob.length < 2 ^ 32
  · rw [if_pos hb] at h
    simp only [bind, Except.bind] at h
    split at h
    · cases h
    · next hs => exact ⟨hb, by omega, (Except.ok.inj h).symm⟩
  · rw [if_neg hb] at h
    cases h

section

variable [Unicode]

theorem placeCats_ok {field : String} {cn : Bool} {cats : List FacetCategory} {blob : Bytes}
    {r : List CatOut × Bytes} (h : placeCats field cn blob cats = .ok r) :
    PushesFit blob.length (cats.map fun c => utf8 c.name) := by
  induction cats generalizing blob r with
  | nil => trivial
  | cons c cats ih =>
    unfold placeCats at h
    cases hpush : pushFacetName blob c.name with
    | error e =>
      rw [hpush] at h
      cases h
    | ok p =>
      obtain ⟨hb, hs, rfl⟩ := pushFacetName_ok hpush
      rw [hpush] at h
      simp only [bind, Except.bind] at h
      cases hrest : placeCats field cn (blob ++ utf8 c.name) cats with
      | error e =>
        rw [hrest] at h
        cases h
      | ok q =>
        refine ⟨hb, hs, ?_⟩
        have := ih hrest
        rwa [List.length_append] at this

theorem placeFields_ok {cn : Bool} {fields : List FacetField} {blob : Bytes} {total : Nat}
    {r : List FieldOut × Bytes × Nat} (h : placeFields cn blob total fields = .ok r) :
    PushesFit blob.length (pushedNames fields) := by
  induction fields generalizing blob total r with
  | nil => trivial
  | cons f fields ih =>
    have hnames : pushedNames (f :: fields) = (utf8 f.name :: f.cats.map fun c => utf8 c.name) ++ pushedNames fields :=
      List.flatMap_cons
    unfold placeFields at h
    cases hpush : pushFacetName blob f.name with
    | error e =>
      rw [hpush] at h
      cases h
    | ok p =>
      obtain ⟨hb, hs, rfl⟩ := pushFacetName_ok hpush
      rw [hpush] at h
      simp only [bind, Except.bind] at h
      cases hcats : placeCats f.name cn (blob ++ utf8 f.name) f.cats with
      | error e =>
        rw [hcats] at h
        cases h
      | ok q =>
        have hfit := placeCats_ok hcats
        obtain ⟨outs, houts, -⟩ := @placeCats_eq _ f.name cn _ _ hfit
        rw [houts] at h
        simp only at h
        cases hrest : placeFields cn (blob ++ utf8 f.name ++ (f.cats.map fun c => utf8 c.name).flatten)
            ((total + outs.length) % 2 ^ 32) fields with
        | error e =>
          rw [hrest] at h
          cases h
        | ok q' =>
          have hmore := ih hrest
          rw [List.length_append] at hfit
          rw [List.length_append, List.length_append] at hmore
          rw [hnames, pushesFit_append]
          refine ⟨⟨hb, hs, hfit⟩, ?_⟩
          rwa [List.flatten_cons, List.length_append, ← Nat.add_assoc]

omit [Unicode] in
theorem writeCatTable_ok {cats : List CatOut} {off : Nat} {r : Bytes} (h : writeCatTable off cats = .ok r) :
    ∀ c ∈ cats, c.head.length < 2 ^ 32 ∧ c.tail.length < 2 ^ 32 := by
  induction cats generalizing off r with
  | nil => exact fun c hc => absurd hc List.not_mem_nil
  | cons c cats ih =>
    unfold writeCatTable u32Len at h
    by_cases hh : c.head.length < 2 ^ 32
    · rw [if_pos hh] at h
      simp only [bind, Except.bind] at h
      by_cases ht : c.tail.length < 2 ^ 32
      · rw [if_pos ht] at h
        simp only at h
        cases hrest : writeCatTable (off + (c.head.length + c.tail.length)) cats with
        | error e =>
          rw [hrest] at h
          cases h
        | ok q =>
          intro d hd
          rcases List.mem_cons.mp hd with rfl | hd
          · exact ⟨hh, ht⟩
          · exact ih hrest d hd
      · rw [if_neg ht] at h
        cases h
    · rw [if_neg hh] at h
      cases h

/-- The fields of a file that was written fit it. -/
theorem facetsFit_of_ok {fields : List FacetField} {cn : Bool} {file : Bytes} (h : DistinctNames fields)
    (hcard : ∀ f ∈ fields, ∀ c ∈ f.cats, c.card < 2 ^ 32) (hlen : facetFileLength fields < u64Bound)
    (hw : writeFacetsWith fields cn = .ok file) : FacetsFit fields := by
  unfold writeFacetsWith at hw
  cases hplace : placeFields cn [] 0 fields with
  | error e =>
    rw [hplace] at hw
    cases hw
  | ok r =>
    have hnames : PushesFit 0 (pushedNames fields) := placeFields_ok hplace
    have hroom := hnames.length_lt (by decide)
    rw [Nat.zero_add] at hroom
    obtain ⟨hfields, hcats⟩ := h.counts hroom
    obtain ⟨outs, houts, hplaced, -⟩ := @placeFields_eq _ cn fields [] 0 hnames (by rwa [Nat.zero_add])
    rw [houts] at hw
    simp only [bind, Except.bind] at hw
    refine ⟨hfields, hcats, hnames, hcard, ?_, hlen⟩
    intro f hf c hc
    cases htab : writeCatTable (24 + outs.length * 16 + (0 + (fields.flatMap FacetField.cats).length) * 36 +
        ([] ++ (pushedNames fields).flatten).length) (outs.flatMap FieldOut.cats) with
    | error e =>
      rw [htab] at hw
      cases hw
    | ok tab =>
      obtain ⟨o, ho, hof⟩ := exists_partner_left hplaced hf
      obtain ⟨cs, hperm, hcs⟩ := hof.cats
      obtain ⟨oc, hoc, hp⟩ := exists_partner_left hcs (hperm.mem_iff.mpr hc)
      rw [← hp.head, ← hp.tail]
      exact writeCatTable_ok htab oc (List.mem_flatMap.mpr ⟨o, ho, hoc⟩)

end

/-! ## A blob past 2^32 bytes -/

namespace Sidecar

variable {fields : List FacetField} (w : Sidecar fields)

/-- The length of the blob as the header has it. -/
def strBytes : Nat := w.blob.length % 2 ^ 32

theorem rrsfHeader_mod (cn : Bool) (fieldsN catsN strBytes : Nat) :
    rrsfHeader cn fieldsN catsN (strBytes % 2 ^ 32) = rrsfHeader cn fieldsN catsN strBytes := by
  unfold rrsfHeader
  rw [show (2 : Nat) ^ 32 = 256 ^ 4 by norm_num, le_mod]

/-- The meta region as a reader takes it. -/
def metaRead : Bytes := slice w.bytes 0 (w.strBlob + w.strBytes)

theorem strBytes_le : w.strBytes ≤ w.blob.length := Nat.mod_le _ _

theorem strBlob_add_le : w.strBlob + w.strBytes ≤ w.bytes.length := by
  have h := w.strBytes_le
  rw [bytes, List.length_append, length_metaBytes, metaLen]
  omega

theorem length_metaRead : w.metaRead.length = w.strBlob + w.strBytes :=
  length_slice _ _ _ (by have := w.strBlob_add_le; omega)

theorem headerSize_le : rrsfHeaderSize ≤ w.strBlob := by
  rw [strBlob, catTab]
  omega

/-- The tables are read as they are. -/
theorem getLe_metaRead {v off : Nat} (h : off + v ≤ w.strBlob) : getLe v w.metaRead off = getLe v w.metaBytes off := by
  have hlen := w.length_metaBytes
  rw [metaRead, getLe_slice _ _ _ _ _ (by omega), Nat.zero_add, bytes,
    getLe_append_left _ _ _ _ (by rw [hlen, metaLen]; omega)]

theorem header_read : slice w.bytes 0 4 = rrsfMagic ∧ getLe 2 w.bytes 4 = 1 ∧ getLe 4 w.bytes 8 = w.outs.length ∧
    getLe 4 w.bytes 12 = w.cats.length ∧ getLe 4 w.bytes 16 = w.strBytes := by
  rw [bytes, metaBytes, List.append_assoc, ← rrsfHeader_mod]
  exact rrsfHeader_fields w.fieldsN_lt w.catsN_lt (Nat.mod_lt _ (by norm_num)) _

theorem rrsfBootLen_read (file : Bytes) (hfile : slice file 0 rrsfHeaderSize = slice w.bytes 0 rrsfHeaderSize) :
    rrsfBootLen (slice file 0 rrsfHeaderSize) = .ok (w.strBlob + w.strBytes) := by
  obtain ⟨h1, h2, h3, h4, h5⟩ := w.header_read
  have hle := w.strBlob_add_le
  have hlt := w.length_bytes_lt
  have h24 := w.headerSize_le
  have hlen : (slice w.bytes 0 rrsfHeaderSize).length = rrsfHeaderSize := length_slice _ _ _ (by omega)
  have hfield : ∀ v off, off + v ≤ 24 → getLe v (slice w.bytes 0 rrsfHeaderSize) off = getLe v w.bytes off := by
    intro v off ho
    rw [getLe_slice _ _ _ _ _ (by rw [rrsfHeaderSize]; omega), Nat.zero_add]
  have hsum : w.outs.length * fieldEntry + rrsfHeaderSize + w.cats.length * catEntry + w.strBytes =
      w.strBlob + w.strBytes := by
    rw [strBlob, catTab]
    omega
  rw [hfile]
  unfold rrsfBootLen
  rw [if_neg (by omega), if_neg (by rw [slice_slice _ _ _ _ _ (by decide), Nat.add_zero, h1]; simp),
    hfield 2 4 (by omega), h2, if_neg (by simp), hfield 4 8 (by omega), hfield 4 12 (by omega),
    hfield 4 16 (by omega), h3, h4, h5, hsum, if_pos (by omega)]

/-- A name that ends past the header's blob is turned down. -/
theorem readFacetName_past {off len : Nat} (h : w.strBytes < off + len) :
    readFacetName w.metaRead w.strBlob w.strBytes off len = .error (.malformed "RRSF name out of string blob") := by
  unfold readFacetName
  rw [if_neg (by omega)]

/-- A category whose name is turned down. -/
theorem parseCategory_past {i : Nat} (hr : i < w.rows.length) (hi : i < w.cats.length)
    (h : w.strBytes < w.cats[i].nameOff + w.cats[i].nameLen) (c : Category) :
    parseCategory w.metaRead w.strBlob w.strBytes (w.catTab + i * catEntry) ≠ .ok c := by
  have hrow : RowOf w.bytes w.rows[i] w.cats[i] := (List.forall₂_iff_get.mp w.rows_eq).2 i hr hi
  obtain ⟨f, hf, d, hd, hp⟩ := w.mem_cats (List.getElem_mem hi)
  have hin := hrow.inside
  have hlt := w.length_bytes_lt
  have hpost := w.posting_lt (List.getElem_mem hi)
  have hlen := w.length_rows
  unfold u64Bound at hlt
  obtain ⟨-, -, -, -, e5, e6⟩ := facetRow_fields (r := w.rows[i]) (by omega) (by rw [hrow.headLen]; omega)
    (by rw [hrow.tailLen]; omega) (by rw [hrow.card, hp.card]; exact w.fit.card_lt f hf d hd)
    (by rw [hrow.nameOff]; exact hp.name.off_lt) (by rw [hrow.nameLen]; exact hp.name.len_lt)
  have htab : ∀ v off, off + v ≤ 36 → getLe v w.metaRead (w.catTab + i * catEntry + off) =
      getLe v (facetRow w.rows[i]) off := by
    intro v off ho
    have hrows : i * 36 + 36 ≤ w.cats.length * 36 := by omega
    rw [w.getLe_metaRead (by rw [strBlob, catEntry]; omega)]
    exact w.getLe_catTab hr v off ho
  intro hok
  unfold parseCategory at hok
  rw [htab 4 28 (by omega), htab 2 32 (by omega), e5, e6, hrow.nameOff, hrow.nameLen, w.readFacetName_past h] at hok
  cases hok

/-- A field whose name is turned down. -/
theorem parseField_past {cats : List Category} {i : Nat} (hi : i < w.outs.length)
    (h : w.strBytes < w.outs[i].nameOff + w.outs[i].nameLen) (f : Field) :
    parseField w.metaRead w.strBlob w.strBytes cats (rrsfHeaderSize + i * fieldEntry) ≠ .ok f := by
  have hp : PlacedField w.blob w.outs[i] _ := (List.forall₂_iff_get.mp w.placed).2 i hi (w.length_outs ▸ hi)
  obtain ⟨hle, -⟩ := @catStarts_slice _ _ [] w.starts rfl i hi
  rw [List.nil_append] at hle
  have hcats : w.outs[i].catStart + w.outs[i].cats.length ≤ w.cats.length := hle
  have hlt := w.catsN_lt
  obtain ⟨e1, e2, -, -⟩ := fieldRow_fields (f := w.outs[i]) hp.name.off_lt hp.name.len_lt (by omega) (by omega)
  have htab : ∀ v off, off + v ≤ 16 → getLe v w.metaRead (rrsfHeaderSize + i * fieldEntry + off) =
      getLe v (fieldRow w.outs[i]) off := by
    intro v off ho
    have hrows : i * 16 + 16 ≤ w.outs.length * 16 := by omega
    rw [w.getLe_metaRead (by rw [strBlob, catTab, fieldEntry]; omega)]
    exact w.getLe_fieldTab hi v off ho
  have h0 := htab 4 0 (by omega)
  rw [Nat.add_zero] at h0
  intro hok
  unfold parseField at hok
  rw [h0, htab 2 4 (by omega), e1, e2, w.readFacetName_past h] at hok
  simp only at hok
  split at hok
  · cases hok
  · cases hok

/-- **A blob past 2^32 bytes**: the name pushed last is not inside what the header calls the blob. -/
theorem fromMeta_crowded (hb : 2 ^ 32 ≤ w.blob.length) (fs : List Field) : fromMeta w.metaRead ≠ .ok fs := by
  intro hok
  have hlen := w.length_metaRead
  have h24 := w.headerSize_le
  have hshort : w.strBytes < w.blob.length := by
    have : w.strBytes < 2 ^ 32 := Nat.mod_lt _ (by norm_num)
    omega
  have hsame : slice w.metaRead 0 rrsfHeaderSize = slice w.bytes 0 rrsfHeaderSize := by
    rw [metaRead, slice_slice _ _ _ _ _ (by omega), Nat.zero_add]
  obtain ⟨h1, h2, h3, h4, h5⟩ := w.header_read
  have hhead : ∀ v off, off + v ≤ 24 → getLe v w.metaRead off = getLe v w.bytes off := by
    intro v off ho
    rw [metaRead, getLe_slice _ _ _ _ _ (by rw [rrsfHeaderSize] at h24; omega), Nat.zero_add]
  unfold fromMeta at hok
  rw [if_neg (by omega), w.rrsfBootLen_read _ hsame] at hok
  simp only [bind, Except.bind] at hok
  rw [if_neg (by omega), hhead 4 8 (by omega), hhead 4 12 (by omega), hhead 4 16 (by omega), h3, h4, h5,
    show rrsfHeaderSize + w.outs.length * fieldEntry = w.catTab from rfl,
    show w.catTab + w.cats.length * catEntry = w.strBlob from rfl] at hok
  have hne : fields ≠ [] := by
    intro hnil
    have hblob : w.blob = [] := by rw [w.blob_eq, hnil]; rfl
    rw [hblob, List.length_nil] at hb
    omega
  obtain ⟨o, ho, hends⟩ := w.ends hne
  cases hcats : collect ((List.range w.cats.length).map fun i =>
      parseCategory w.metaRead w.strBlob w.strBytes (w.catTab + i * catEntry)) with
  | error e =>
    rw [hcats] at hok
    cases hok
  | ok cats =>
    rw [hcats] at hok
    simp only at hok
    rcases hends with hends | ⟨c, hc, hends⟩
    · obtain ⟨i, hi, rfl⟩ := List.getElem_of_mem ho
      obtain ⟨f, hf⟩ := exists_of_collect_ok hok (List.mem_map_of_mem (List.mem_range.mpr hi))
      exact w.parseField_past hi (by omega) f hf
    · have hmem : c ∈ w.cats := List.mem_flatMap.mpr ⟨o, ho, hc⟩
      obtain ⟨i, hi, rfl⟩ := List.getElem_of_mem hmem
      obtain ⟨d, hd⟩ := exists_of_collect_ok hcats (List.mem_map_of_mem (List.mem_range.mpr hi))
      exact w.parseCategory_past (by rw [w.length_rows]; exact hi) hi (by omega) d hd

/-- Such a file is turned down. -/
theorem not_settles_openMeta (hb : 2 ^ 32 ≤ w.blob.length) (fi : FacetIndex) :
    ¬ Settles (FacetIndex.openMeta (MemoryFetch.new w.bytes)) (.ok fi) := by
  intro hok
  have hle := w.strBlob_add_le
  have h24 := w.headerSize_le
  have hfail : ∃ e, fromMeta w.metaRead = .error e := by
    cases hmeta : fromMeta w.metaRead with
    | error e => exact ⟨e, rfl⟩
    | ok fs => exact absurd hmeta (w.fromMeta_crowded hb fs)
  obtain ⟨e, he⟩ := hfail
  have hopen : Settles (FacetIndex.openMeta (MemoryFetch.new w.bytes)) (.error e) := by
    unfold FacetIndex.openMeta
    refine (MemoryFetch.settles_read (MemoryFetch.inFile_new w.length_bytes_lt (by omega))).bind ?_
    have hboot : rrsfBootLen (slice (MemoryFetch.new w.bytes).bytes 0 rrsfHeaderSize) = .ok (w.strBlob + w.strBytes) :=
      w.rrsfBootLen_read _ rfl
    rw [hboot]
    refine (Settles.ofOutcome (.ok (w.strBlob + w.strBytes))).bind ?_
    refine (MemoryFetch.settles_read (MemoryFetch.inFile_new w.length_bytes_lt (by omega))).bind ?_
    have hbuf : slice (MemoryFetch.new w.bytes).bytes 0 (w.strBlob + w.strBytes) = w.metaRead := rfl
    rw [hbuf, FacetIndex.fromBoot, he]
    exact Settles.ofOutcome _
  have h1 := hok.calm
  rw [hopen.calm] at h1
  cases h1

end Sidecar

/-! ## What is read back -/

section

variable {file : Bytes} {fields : List FacetField} {docs : FacetCategory → Bitmap} {loaded : Nat × Nat → Prop}
  {fi : FacetIndex}

/-- Every category is one of the fields', under the field's name. -/
theorem FacetIndex.Opened.named (h : fi.Opened file fields docs loaded) {f : Field} (hf : f ∈ fi.fields)
    {c : Category} (hc : c ∈ f.categories) : ∃ g ∈ fields, f.name = g.name ∧ ∃ d ∈ g.cats, c.name = d.name := by
  obtain ⟨i, hi⟩ := List.mem_iff_getElem?.mp hf
  obtain ⟨j, hj⟩ := List.mem_iff_getElem?.mp hc
  have hlt : i < fields.length := h.length ▸ (List.getElem?_eq_some_iff.mp hi).1
  obtain ⟨hname, cs, hperm, hlen, hcs⟩ := h.field i f _ hi (List.getElem?_eq_getElem hlt)
  have hjlt : j < cs.length := hlen ▸ (List.getElem?_eq_some_iff.mp hj).1
  exact ⟨_, List.getElem_mem hlt, hname, _, hperm.subset (List.getElem_mem hjlt),
    (hcs j c _ hj (List.getElem?_eq_getElem hjlt)).name⟩

/-- A category is found under its names. -/
theorem FacetIndex.Opened.catRange (h : fi.Opened file fields docs loaded) (hnames : DistinctNames fields)
    {g : FacetField} (hg : g ∈ fields) {d : FacetCategory} (hd : d ∈ g.cats) :
    ∃ place c, categoryAt fi.fields place = some c ∧ LoadedCategory file docs (loaded place) c d ∧
      fi.catRange g.name d.name = some c.range := by
  obtain ⟨i, hi⟩ := List.mem_iff_getElem?.mp hg
  have hlt : i < fi.fields.length := h.length ▸ (List.getElem?_eq_some_iff.mp hi).1
  have hf : fi.fields[i]? = some fi.fields[i] := List.getElem?_eq_getElem hlt
  obtain ⟨hname, cs, hperm, hlen, hcs⟩ := h.field i _ g hf hi
  obtain ⟨j, hj⟩ := List.mem_iff_getElem?.mp (hperm.mem_iff.mpr hd)
  have hjlt : j < fi.fields[i].categories.length := hlen ▸ (List.getElem?_eq_some_iff.mp hj).1
  have hc : fi.fields[i].categories[j]? = some fi.fields[i].categories[j] := List.getElem?_eq_getElem hjlt
  have hcd := hcs j _ d hc hj
  -- names are distinct in the index as they are in the fields
  have hfields : fi.fields.map Field.name = fields.map FacetField.name := by
    refine List.ext_getElem (by rw [List.length_map, List.length_map, h.length]) fun k hk hk' => ?_
    rw [List.length_map] at hk hk'
    rw [List.getElem_map, List.getElem_map]
    exact (h.field k _ _ (List.getElem?_eq_getElem hk) (List.getElem?_eq_getElem hk')).name
  have hcats : fi.fields[i].categories.map Category.name = cs.map FacetCategory.name := by
    refine List.ext_getElem (by rw [List.length_map, List.length_map, hlen]) fun k hk hk' => ?_
    rw [List.length_map] at hk hk'
    rw [List.getElem_map, List.getElem_map]
    exact (hcs k _ _ (List.getElem?_eq_getElem hk) (List.getElem?_eq_getElem hk')).name
  have hnd : (fi.fields[i].categories.map Category.name).Nodup := by
    rw [hcats]
    exact (hperm.map _).nodup_iff.mpr (hnames.cats g hg)
  have hfind : (fi.fields.find? fun f => f.name == g.name) = some fi.fields[i] := by
    rw [← hname]
    exact find?_of_nodup (by rw [hfields]; exact hnames.names) (List.getElem_mem hlt)
  have hfind' : (fi.fields[i].categories.find? fun c => c.name == d.name) = some fi.fields[i].categories[j] := by
    rw [← hcd.name]
    exact find?_of_nodup hnd (List.getElem_mem hjlt)
  refine ⟨(i, j), fi.fields[i].categories[j], ?_, hcd, ?_⟩
  · rw [categoryAt, hf, Option.bind_some, hc]
  · rw [FacetIndex.catRange, hfind, Option.bind_some, hfind', Option.map_some]

/-- A name that is not the fields' is not found. -/
theorem FacetIndex.Opened.catRange_none (h : fi.Opened file fields docs loaded) {field category : String}
    (hno : ¬ ∃ g ∈ fields, g.name = field ∧ ∃ d ∈ g.cats, d.name = category) : fi.catRange field category = none := by
  cases hr : fi.catRange field category with
  | none => rfl
  | some r =>
    obtain ⟨f, hf, c, hc, hfn, hcn, -⟩ := FacetIndex.catRange_mem hr
    obtain ⟨g, hg, hgn, d, hd, hdn⟩ := h.named hf hc
    exact absurd ⟨g, hg, hgn.symm.trans hfn, d, hd, hdn.symm.trans hcn⟩ hno

/-- One selection resolves to the ranges of its category. -/
theorem resolve_singleton (fi : FacetIndex) (field category : String) :
    fi.resolve [(field, category)] = ⟨fi.fetch, [(fi.catRange field category).toList], []⟩ := rfl

end

section

variable [Roaring]

/-- An index opened from the file, and the places whose heads were loaded since, in any order. -/
inductive FacetIndex.Loading (file : Bytes) (fields : List FacetField) : FacetIndex → (Nat × Nat → Prop) → Prop where
  | openMeta {fi : FacetIndex} (h : Settles (FacetIndex.openMeta (MemoryFetch.new file)) (.ok fi)) :
      Loading file fields fi fun _ => False
  | loadHeads {fi fi' : FacetIndex} {loaded : Nat × Nat → Prop} (eagerLimit topN : Nat)
      (h : Loading file fields fi loaded) (hl : Settles (fi.loadHeadsTuned eagerLimit topN) (.ok fi')) :
      Loading file fields fi' fun p => fi.loads fields eagerLimit topN p ∨ loaded p
  | loadRequests {fi fi' : FacetIndex} {loaded : Nat × Nat → Prop} (reqs : List ((Nat × Nat) × (Nat × Nat)))
      (hreqs : ∀ q ∈ reqs, HeadRequest fi.fields q) (h : Loading file fields fi loaded)
      (hl : Settles (fi.loadRequests reqs) (.ok fi')) :
      Loading file fields fi' fun p => p ∈ reqs.map Prod.fst ∨ loaded p

/-- **The file of `fields` is read back**: it opens, heads load, and at any time every category is there under
its names with its own count, ranges and, once loaded, head. -/
structure SidecarReads (file : Bytes) (fields : List FacetField) (docs : FacetCategory → Bitmap) : Prop where
  openMeta : ∃ fi, Settles (FacetIndex.openMeta (MemoryFetch.new file)) (.ok fi)
  opens : ∃ fi loaded, Settles (FacetIndex.open (MemoryFetch.new file)) (.ok fi) ∧
    FacetIndex.Loading file fields fi loaded
  loadHeads : ∀ fi loaded, FacetIndex.Loading file fields fi loaded → ∀ eagerLimit topN,
    ∃ fi', Settles (fi.loadHeadsTuned eagerLimit topN) (.ok fi')
  loadRequests : ∀ fi loaded, FacetIndex.Loading file fields fi loaded →
    ∀ reqs, (∀ q ∈ reqs, HeadRequest fi.fields q) → ∃ fi', Settles (fi.loadRequests reqs) (.ok fi')
  opened : ∀ fi loaded, FacetIndex.Loading file fields fi loaded → fi.Opened file fields docs loaded
  resolve : ∀ fi loaded, FacetIndex.Loading file fields fi loaded → ∀ g ∈ fields, ∀ d ∈ g.cats,
    ∃ place c, categoryAt fi.fields place = some c ∧ LoadedCategory file docs (loaded place) c d ∧
      fi.resolve [(g.name, d.name)] = ⟨MemoryFetch.new file, [[c.range]], []⟩
  unknown : ∀ fi loaded, FacetIndex.Loading file fields fi loaded → ∀ field category,
    (¬ ∃ g ∈ fields, g.name = field ∧ ∃ d ∈ g.cats, d.name = category) →
      fi.resolve [(field, category)] = ⟨MemoryFetch.new file, [[]], []⟩

namespace Sidecar

variable {fields : List FacetField} {docs : FacetCategory → Bitmap} (w : Sidecar fields)

omit [Roaring] in
theorem postingBytes_le : postingBytes fields ≤ w.bytes.length := by
  rw [w.length_bytes, facetFileLength]
  exact Nat.le_add_left _ _

omit [Roaring] in
/-- The postings of the rows fill the end of the file. -/
theorem postingsFill : PostingsFill (w.rows.map FacetRow.range) (w.bytes.length - postingBytes fields) w.bytes.length := by
  have h := @postingsFill_facetRows w.cats w.metaLen
  have hlen : w.bytes.length = w.metaLen + postingBytes fields := by
    rw [bytes, List.length_append, length_metaBytes, length_postings]
  rw [w.length_postings, ← hlen] at h
  have hstart : w.bytes.length - postingBytes fields = w.metaLen := by omega
  rw [hstart]
  exact h

omit [Roaring] in
theorem rows_ne_nil (h : 0 < postingBytes fields) : w.rows.map FacetRow.range ≠ [] := by
  intro hnil
  have hcats : w.cats = [] := by
    have := congrArg List.length hnil
    rw [List.length_map, length_rows, List.length_nil] at this
    exact List.length_eq_zero_iff.mp this
  have hlen := w.length_postings
  rw [hcats, List.flatMap_nil, List.length_nil] at hlen
  omega

/-- Whatever was loaded, the index is the file's. -/
theorem opened_of_loading (hb : w.blob.length < 2 ^ 32) (hdocs : HeadsOf fields docs) {fi : FacetIndex}
    {loaded : Nat × Nat → Prop} (h : FacetIndex.Loading w.bytes fields fi loaded) :
    fi.Opened w.bytes fields docs loaded ∧ catRanges fi.fields = w.rows.map FacetRow.range := by
  induction h with
  | openMeta h =>
    obtain ⟨fs, hfs, hranges, hopen⟩ := w.settles_openMeta hb
    rw [Settles.ok_unique h hopen]
    exact ⟨opened_of_fieldOf hfs, hranges⟩
  | loadHeads eagerLimit topN _ hl ih =>
    obtain ⟨ho, hr⟩ := ih
    obtain ⟨fi', hsettles, hranges, hopen⟩ := ho.settles_load w.length_bytes_lt hdocs w.postingBytes_le
      (by rw [hr]; exact w.postingsFill) (fun hpos => by rw [hr]; exact w.rows_ne_nil hpos) eagerLimit topN
    rw [Settles.ok_unique hl hsettles]
    exact ⟨hopen, hranges.trans hr⟩
  | loadRequests reqs hreqs _ hl ih =>
    obtain ⟨ho, hr⟩ := ih
    obtain ⟨fi', hsettles, hranges, hopen⟩ := ho.settles_loadRequests w.length_bytes_lt hdocs hreqs
    rw [Settles.ok_unique hl hsettles]
    exact ⟨hopen, hranges.trans hr⟩

theorem readsBack (hb : w.blob.length < 2 ^ 32) (hdocs : HeadsOf fields docs) (hnames : DistinctNames fields) :
    SidecarReads w.bytes fields docs := by
  have hload : ∀ fi loaded, FacetIndex.Loading w.bytes fields fi loaded → ∀ eagerLimit topN,
      ∃ fi', Settles (fi.loadHeadsTuned eagerLimit topN) (.ok fi') := by
    intro fi loaded h eagerLimit topN
    obtain ⟨ho, hr⟩ := w.opened_of_loading hb hdocs h
    obtain ⟨fi', hsettles, -⟩ := ho.settles_load w.length_bytes_lt hdocs w.postingBytes_le
      (by rw [hr]; exact w.postingsFill) (fun hpos => by rw [hr]; exact w.rows_ne_nil hpos) eagerLimit topN
    exact ⟨fi', hsettles⟩
  obtain ⟨fs, hfs, hranges, hopen⟩ := w.settles_openMeta hb
  refine ⟨⟨_, hopen⟩, ?_, hload, ?_, ?_, ?_, ?_⟩
  · have hmeta : FacetIndex.Loading w.bytes fields ⟨MemoryFetch.new w.bytes, fs⟩ fun _ => False := .openMeta hopen
    obtain ⟨fi', hfi'⟩ := hload _ _ hmeta FacetIndex.eagerRegionLimit FacetIndex.lazyTopN
    exact ⟨fi', _, hopen.bind hfi', hmeta.loadHeads _ _ hfi'⟩
  · intro fi loaded h reqs hreqs
    obtain ⟨ho, -⟩ := w.opened_of_loading hb hdocs h
    obtain ⟨fi', hsettles, -⟩ := ho.settles_loadRequests w.length_bytes_lt hdocs hreqs
    exact ⟨fi', hsettles⟩
  · exact fun fi loaded h => (w.opened_of_loading hb hdocs h).1
  · intro fi loaded h g hg d hd
    obtain ⟨ho, -⟩ := w.opened_of_loading hb hdocs h
    obtain ⟨place, c, hc, hcd, hrange⟩ := ho.catRange hnames hg hd
    refine ⟨place, c, hc, hcd, ?_⟩
    rw [resolve_singleton, hrange, ho.fetch]
    rfl
  · intro fi loaded h field category hno
    obtain ⟨ho, -⟩ := w.opened_of_loading hb hdocs h
    rw [resolve_singleton, ho.catRange_none hno, ho.fetch]
    rfl

end Sidecar

/-- **The round trip**: a file that was written is read back if and only if the names take less than 2^32
bytes. -/
theorem sidecarReads_iff [Unicode] {fields : List FacetField} {docs : FacetCategory → Bitmap}
    {caseNormalization : Bool} {file : Bytes} (hnames : DistinctNames fields)
    (hcard : ∀ f ∈ fields, ∀ c ∈ f.cats, c.card < 2 ^ 32) (hdocs : HeadsOf fields docs)
    (hlen : facetFileLength fields < u64Bound) (hw : writeFacetsWith fields caseNormalization = .ok file) :
    SidecarReads file fields docs ↔ (pushedNames fields).flatten.length < 2 ^ 32 := by
  obtain ⟨w, -, hbytes⟩ := writeFacetsWith_eq (facetsFit_of_ok hnames hcard hlen hw) caseNormalization
  obtain rfl : file = w.bytes := Except.ok.inj (hw.symm.trans hbytes)
  constructor
  · intro h
    by_contra hb
    obtain ⟨fi, hopen⟩ := h.openMeta
    exact w.not_settles_openMeta (by rw [w.blob_eq]; omega) fi hopen
  · intro hb
    exact w.readsBack (by rw [w.blob_eq]; exact hb) hdocs hnames

end

section

attribute [local instance] PortableCodec.roaring asciiUnicode

/-- A field of two categories. -/
def genreFields : List FacetField :=
  [⟨"genre", [⟨"jazz", 2, serialize ⟨[1, 6], by decide, by decide⟩, serialize ∅⟩,
    ⟨"rock", 1, serialize ⟨[2], by decide, by decide⟩, serialize ∅⟩]⟩]

def genreDocs (c : FacetCategory) : Bitmap :=
  if c.name = "jazz" then ⟨[1, 6], by decide, by decide⟩ else ⟨[2], by decide, by decide⟩

theorem genreFields_distinct : DistinctNames genreFields where
  names := by decide
  cats := by decide

theorem genreFields_card : ∀ f ∈ genreFields, ∀ c ∈ f.cats, c.card < 2 ^ 32 := by decide

theorem genreFields_heads : HeadsOf genreFields genreDocs := by
  intro g hg d hd
  obtain rfl := List.mem_singleton.mp hg
  rcases List.mem_pair.mp hd with rfl | rfl
  · exact deserialize_of_represents (represents_serialize _)
  · exact deserialize_of_represents (represents_serialize _)

/-- Two categories are read back. -/
theorem sidecarReads_iff_genre : ∃ file, writeFacetsWith genreFields true = .ok file ∧
    SidecarReads file genreFields genreDocs := by
  have hlen : facetFileLength genreFields < u64Bound := by decide +kernel
  have hpost : ∀ f ∈ genreFields, ∀ c ∈ f.cats, c.head.length < 2 ^ 32 ∧ c.tail.length < 2 ^ 32 := by
    decide +kernel
  have hnames : PushesFit 0 (pushedNames genreFields) :=
    pushesFit_of_length (by decide +kernel) (by decide +kernel)
  obtain ⟨w, -, hw⟩ := writeFacetsWith_eq (⟨by decide, by decide, hnames, genreFields_card, hpost, hlen⟩ :
    FacetsFit genreFields) true
  exact ⟨w.bytes, hw, (sidecarReads_iff genreFields_distinct genreFields_card genreFields_heads hlen hw).mpr
    (by decide +kernel)⟩

/-! ## Names that are too long together -/

/-- Categories of every length of name below `n`. -/
def triangle (n : Nat) : List FacetCategory :=
  (List.range n).map fun k => ⟨String.ofList (List.replicate k 'a'), 1, serialize ∅, serialize ∅⟩

/-- Two fields of `n` categories, and one whose only category has a name of `m` bytes. -/
def lopsided (n m : Nat) : List FacetField :=
  [⟨"", triangle n⟩, ⟨"a", triangle n⟩, ⟨"b", [⟨String.ofList (List.replicate m 'a'), 1, serialize ∅, serialize ∅⟩]⟩]

theorem name_triangle (n : Nat) : ((triangle n).map FacetCategory.name).Nodup := by
  rw [triangle, List.map_map]
  refine List.nodup_range.map fun i j hij => ?_
  have hlen := congrArg (fun s => (utf8 s).length) hij
  simpa only [Function.comp_apply, length_utf8_replicate] using hlen

theorem length_triangle_names (n : Nat) :
    2 * ((triangle n).map fun c => utf8 c.name).flatten.length = n * (n - 1) := by
  induction n with
  | zero => rfl
  | succ n ih =>
    have hsucc : (triangle (n + 1)).map (fun c => utf8 c.name) =
        (triangle n).map (fun c => utf8 c.name) ++ [utf8 (String.ofList (List.replicate n 'a'))] := by
      rw [triangle, triangle, List.range_succ, List.map_append, List.map_append]
      rfl
    rw [hsucc, List.flatten_append, List.length_append, Nat.mul_add, ih, List.flatten_cons, List.flatten_nil,
      List.append_nil, length_utf8_replicate]
    cases n with
    | zero => rfl
    | succ n =>
      rw [Nat.add_sub_cancel, Nat.add_sub_cancel]
      ring

theorem mem_triangle {n : Nat} {c : FacetCategory} (h : c ∈ triangle n) : (utf8 c.name).length < n ∧ c.card = 1 ∧
    c.head = serialize ∅ ∧ c.tail = serialize ∅ := by
  obtain ⟨k, hk, rfl⟩ := List.mem_map.mp h
  refine ⟨?_, rfl, rfl, rfl⟩
  rw [length_utf8_replicate]
  exact List.mem_range.mp hk

section

variable {n m : Nat}

theorem mem_lopsided {f : FacetField} (h : f ∈ lopsided n m) {c : FacetCategory} (hc : c ∈ f.cats) :
    c.card = 1 ∧ c.head = serialize ∅ ∧ c.tail = serialize ∅ := by
  rcases List.mem_cons.mp h with rfl | h
  · exact (mem_triangle hc).2
  · rcases List.mem_pair.mp h with rfl | rfl
    · exact (mem_triangle hc).2
    · obtain rfl := List.mem_singleton.mp hc
      exact ⟨rfl, rfl, rfl⟩

theorem lopsided_distinct : DistinctNames (lopsided n m) where
  names := by
    show ["", "a", "b"].Nodup
    decide
  cats := by
    intro f hf
    rcases List.mem_cons.mp hf with rfl | hf
    · exact name_triangle _
    · rcases List.mem_pair.mp hf with rfl | rfl
      · exact name_triangle _
      · exact List.nodup_singleton _

theorem lopsided_heads : HeadsOf (lopsided n m) fun _ => ∅ := by
  intro g hg d hd
  rw [(mem_lopsided hg hd).2.1]
  exact deserialize_of_represents (represents_serialize _)

/-- The names before the last one. -/
def lopsidedNames (n : Nat) : List Bytes :=
  (utf8 "" :: (triangle n).map fun c => utf8 c.name) ++
    ((utf8 "a" :: (triangle n).map fun c => utf8 c.name) ++ [utf8 "b"])

theorem pushedNames_lopsided : pushedNames (lopsided n m) =
    lopsidedNames n ++ [utf8 (String.ofList (List.replicate m 'a'))] := by
  rw [pushedNames, lopsided, lopsidedNames]
  simp only [List.flatMap_cons, List.flatMap_nil, List.cons_append, List.append_assoc, List.nil_append,
    List.map_cons, List.map_nil]

theorem length_lopsidedNames : (lopsidedNames n).flatten.length = n * (n - 1) + 2 := by
  have h := length_triangle_names n
  have h1 : (utf8 "").length = 0 := by decide
  have h2 : (utf8 "a").length = 1 := by decide
  have h3 : (utf8 "b").length = 1 := by decide
  rw [lopsidedNames, List.flatten_append, List.flatten_append, List.flatten_cons, List.flatten_cons, List.flatten_cons,
    List.flatten_nil]
  simp only [List.length_append, List.length_nil, h1, h2, h3]
  omega

theorem lopsided_names_fit (hn : n * (n - 1) + 2 < 2 ^ 32) (hn' : n ≤ 2 ^ 16) (hm : m < 2 ^ 16) :
    PushesFit 0 (pushedNames (lopsided n m)) := by
  have hshort : ∀ b ∈ (triangle n).map fun c => utf8 c.name, b.length < 2 ^ 16 := by
    intro b hb
    obtain ⟨c, hc, rfl⟩ := List.mem_map.mp hb
    have := (mem_triangle hc).1
    omega
  rw [pushedNames_lopsided, pushesFit_append]
  refine ⟨pushesFit_of_length (by rw [length_lopsidedNames]; omega) ?_, ?_, ?_, trivial⟩
  · intro b hb
    rcases List.mem_append.mp hb with hb | hb
    · rcases List.mem_cons.mp hb with rfl | hb
      · decide
      · exact hshort b hb
    · rcases List.mem_append.mp hb with hb | hb
      · rcases List.mem_cons.mp hb with rfl | hb
        · decide
        · exact hshort b hb
      · obtain rfl := List.mem_singleton.mp hb
        decide
  · rw [length_lopsidedNames]
    omega
  · rw [length_utf8_replicate]
    exact hm

theorem lopsided_fit (hn : n * (n - 1) + 2 < 2 ^ 32) (hn' : n ≤ 2 ^ 16) (hm : m < 2 ^ 16) :
    FacetsFit (lopsided n m) := by
  have hposts : ∀ f ∈ lopsided n m, ∀ c ∈ f.cats, c.head.length < 2 ^ 30 ∧ c.tail.length < 2 ^ 30 := by
    intro f hf c hc
    rw [(mem_lopsided hf hc).2.1, (mem_lopsided hf hc).2.2]
    exact ⟨Roaring.length_serialize_lt _, Roaring.length_serialize_lt _⟩
  have hcats : ((lopsided n m).flatMap FacetField.cats).length = 2 * n + 1 := by
    have htri : (triangle n).length = n := by rw [triangle, List.length_map, List.length_range]
    rw [lopsided]
    simp only [List.flatMap_cons, List.flatMap_nil, List.length_append, List.length_cons, List.length_nil, htri]
    omega
  have hbytes : postingBytes (lopsided n m) ≤ (2 * n + 1) * 2 ^ 31 := by
    rw [← hcats]
    refine length_flatMap_postings fun c hc => ?_
    obtain ⟨f, hf, hc⟩ := List.mem_flatMap.mp hc
    exact hposts f hf c hc
  refine ⟨?_, by omega, lopsided_names_fit hn hn' hm, ?_, ?_, ?_⟩
  · show 3 < 2 ^ 32
    norm_num
  · intro f hf c hc
    rw [(mem_lopsided hf hc).1]
    norm_num
  · intro f hf c hc
    have := hposts f hf c hc
    omega
  · have hlen : (pushedNames (lopsided n m)).flatten.length = n * (n - 1) + 2 + m := by
      rw [pushedNames_lopsided, List.flatten_append, List.length_append, length_lopsidedNames, List.flatten_cons,
        List.flatten_nil, List.append_nil, length_utf8_replicate]
    have hfields : (lopsided n m).length = 3 := rfl
    rw [facetFileLength, hcats, hlen, hfields, rrsfHeaderSize, fieldEntry, catEntry]
    unfold u64Bound
    omega

end

/-- Nearly 2^32 bytes of names, and one more name: the writer takes them, the reader does not. -/
theorem crowded_names_unread : ∃ file, writeFacetsWith (lopsided 65536 65535) true = .ok file ∧
    DistinctNames (lopsided 65536 65535) ∧ HeadsOf (lopsided 65536 65535) (fun _ => ∅) ∧
    ¬ SidecarReads file (lopsided 65536 65535) fun _ => ∅ := by
  obtain ⟨w, -, hw⟩ := writeFacetsWith_eq (@lopsided_fit 65536 65535 (by norm_num) (by norm_num) (by norm_num)) true
  refine ⟨w.bytes, hw, lopsided_distinct, lopsided_heads, fun h => ?_⟩
  obtain ⟨fi, hopen⟩ := h.openMeta
  refine w.not_settles_openMeta ?_ fi hopen
  rw [w.blob_eq, pushedNames_lopsided, List.flatten_append, List.length_append, length_lopsidedNames,
    List.flatten_cons, List.flatten_nil, List.append_nil, length_utf8_replicate]
  norm_num

end

end RoaringRange
