import RoaringRange.Build
import RoaringRange.FacetDigest
import RoaringRange.SortCols

/-!
# Writing sort columns (`build.rs`, `sortcols.rs`)

Columns of one length are laid out one after the other behind their names.  A store that was written gives every id's
value back as long as the number of values fits its header field, which the writer cuts to 32 bits.

`topk` compares values as numbers and takes a NaN for equal to any of them, so it sorts by one total order exactly
where no NaN stands between two docs of different values:

    the ids' values come back in their order, and candidates are ranked by one total order
        ↔ fewer than 2 ^ 32 values, and no NaN between different numbers              (sortCols_exact_iff)
-/

namespace RoaringRange

open ByteString Faults Slices

/-! ## Writing -/

/-- `build::ColumnValues`, an `f32` by its bits. -/
inductive ColumnValues where
  | u16 (xs : List UInt16)
  | u32 (xs : List UInt32)
  | i32 (xs : List Int32)
  | f32 (bits : List UInt32)

namespace ColumnValues

/-- `ColumnValues::len`. -/
def len : ColumnValues → Nat
  | u16 xs => xs.length
  | u32 xs => xs.length
  | i32 xs => xs.length
  | f32 bits => bits.length

/-- `ColumnValues::type_code`. -/
def typeCode : ColumnValues → Nat
  | u16 _ => 1
  | u32 _ => 2
  | i32 _ => 3
  | f32 _ => 4

/-- `ColumnValues::width`. -/
def width : ColumnValues → Nat
  | u16 _ => 2
  | _ => 4

/-- `ColumnValues::write_to`. -/
def writeTo : ColumnValues → Bytes
  | u16 xs => table (fun x => le 2 x.toNat) xs
  | u32 xs => table (fun x => le 4 x.toNat) xs
  | i32 xs => table (fun x => le 4 x.toUInt32.toNat) xs
  | f32 bits => table (fun x => le 4 x.toNat) bits

def valueType : ColumnValues → ValueType
  | u16 _ => .u16
  | u32 _ => .u32
  | i32 _ => .i32
  | f32 _ => .f32

/-- The value of a doc, if it has one. -/
def value? (v : ColumnValues) (id : Nat) : Option Value :=
  match v with
  | u16 xs => xs[id]?.map fun x => .u16 x.toNat
  | u32 xs => xs[id]?.map fun x => .u32 x.toNat
  | i32 xs => xs[id]?.map fun x => .i32 x.toInt
  | f32 bits => bits[id]?.map fun x => .f32 x.toNat

/-- The value of a doc as a number, none for a NaN or no value. -/
def number? (v : ColumnValues) (id : Nat) : Option Int := (v.value? id).bind Value.asF64

end ColumnValues

/-- `build::SortColumn`. -/
structure SortColumn where
  name : String
  values : ColumnValues

/-- The name loop of `build::write_sortcols`: the place of each name, and the names. -/
def pushColNames (blob : Bytes) : List SortColumn → Except String (List (Nat × Nat) × Bytes)
  | [] => .ok ([], blob)
  | c :: cs => do
    let off ← u32Len blob.length "sortcols string blob"
    if 2 ^ 16 ≤ (utf8 c.name).length then throw "sortcols column name exceeds the 16-bit length limit"
    else do
      let (spans, all) ← pushColNames (blob ++ utf8 c.name) cs
      pure ((off, (utf8 c.name).length) :: spans, all)

/-- A row of the column table. -/
structure ColRow where
  name : Nat × Nat
  typeCode : Nat
  off : Nat
  rows : Nat

def colRow (r : ColRow) : Bytes :=
  le 4 r.name.1 ++ (le 2 r.name.2 ++ (le 1 r.typeCode ++ (le 1 0 ++ (le 8 r.off ++ (le 4 r.rows ++ le 4 0)))))

/-- The rows of the columns, whose data begins at `off`. -/
def colRows (rows off : Nat) : List SortColumn → List (Nat × Nat) → List ColRow
  | c :: cs, name :: names =>
    ⟨name, c.values.typeCode, off, rows⟩ :: colRows rows (off + rows * c.values.width) cs names
  | _, _ => []

def rrscHeader (colCount rows strBytes : Nat) : Bytes :=
  rrscMagic ++ (le 2 1 ++ (le 2 colCount ++ (le 4 rows ++ le 4 strBytes)))

/-- The number of values of the first column. -/
def colLen (cols : List SortColumn) : Nat := (cols.head?.map fun c => c.values.len).getD 0

/-- `build::write_sortcols`. -/
def writeSortcols (cols : List SortColumn) : Except String Bytes :=
  let rows := colLen cols
  if cols.any fun c => c.values.len != rows then .error "sortcols columns must all have the same length"
  else if 2 ^ 16 ≤ cols.length then .error "sortcols column count exceeds the 16-bit limit"
  else do
    let (names, blob) ← pushColNames [] cols
    let blobLen ← u32Len blob.length "sortcols string blob"
    let dataStart := rrscHeaderSize + cols.length * colEntry + blob.length
    pure (rrscHeader cols.length rows blobLen ++ (table colRow (colRows rows dataStart cols names) ++
      (blob ++ cols.flatMap fun c => c.values.writeTo)))

/-! ## The values of a column -/

namespace ColumnValues

variable (v : ColumnValues)

theorem width_valueType : v.valueType.width = v.width := by
  cases v <;> rfl

theorem fromCode_typeCode : ValueType.fromCode v.typeCode = some v.valueType := by
  cases v <;> rfl

theorem length_writeTo : v.writeTo.length = v.len * v.width := by
  cases v <;> exact length_table (fun _ => length_le _ _) _

theorem asI32_toUInt32 (x : Int32) : asI32 x.toUInt32.toNat = x.toInt := by
  have h : x.toInt = x.toBitVec.toInt := rfl
  have hn : x.toUInt32.toNat = x.toBitVec.toNat := rfl
  rw [h, hn, BitVec.toInt_eq_toNat_cond]
  unfold asI32
  have hlt := x.toBitVec.isLt
  split <;> split <;> first | rfl | omega

/-- A value is decoded from its place in the data. -/
theorem value?_eq {id : Nat} (h : id < v.len) : v.value? id = some (v.valueType.decode v.writeTo (id * v.width)) := by
  cases v with
  | u16 xs =>
    have hread := getLe_table (fun x : UInt16 => length_le 2 x.toNat) xs id h 2 0 (by omega)
    rw [Nat.add_zero, getLe_last (UInt16.toNat_lt _)] at hread
    show xs[id]?.map _ = some (Value.u16 (getLe 2 (table (fun x => le 2 x.toNat) xs) (id * 2)))
    rw [hread, List.getElem?_eq_getElem h]
    rfl
  | u32 xs =>
    have hread := getLe_table (fun x : UInt32 => length_le 4 x.toNat) xs id h 4 0 (by omega)
    rw [Nat.add_zero, getLe_last (UInt32.toNat_lt _)] at hread
    show xs[id]?.map _ = some (Value.u32 (getLe 4 (table (fun x => le 4 x.toNat) xs) (id * 4)))
    rw [hread, List.getElem?_eq_getElem h]
    rfl
  | i32 xs =>
    have hread := getLe_table (fun x : Int32 => length_le 4 x.toUInt32.toNat) xs id h 4 0 (by omega)
    rw [Nat.add_zero, getLe_last (UInt32.toNat_lt _)] at hread
    show xs[id]?.map _ = some (Value.i32 (asI32 (getLe 4 (table (fun x => le 4 x.toUInt32.toNat) xs) (id * 4))))
    rw [hread, asI32_toUInt32, List.getElem?_eq_getElem h]
    rfl
  | f32 bits =>
    have hread := getLe_table (fun x : UInt32 => length_le 4 x.toNat) bits id h 4 0 (by omega)
    rw [Nat.add_zero, getLe_last (UInt32.toNat_lt _)] at hread
    show bits[id]?.map _ = some (Value.f32 (getLe 4 (table (fun x => le 4 x.toNat) bits) (id * 4)))
    rw [hread, List.getElem?_eq_getElem h]
    rfl

theorem value?_none {id : Nat} (h : v.len ≤ id) : v.value? id = none := by
  unfold value?
  cases v <;> (simp only [Option.map_eq_none_iff]; exact List.getElem?_eq_none h)

end ColumnValues

/-! ## A written store -/

section

variable {cols : List SortColumn} {bytes : Bytes}

theorem pushColNames_ok {blob all : Bytes} {spans : List (Nat × Nat)} (h : pushColNames blob cols = .ok (spans, all)) :
    (∃ more, all = blob ++ more) ∧ List.Forall₂ (fun sp c => NameAt all sp.1 sp.2 c.name) spans cols := by
  induction cols generalizing blob spans with
  | nil =>
    obtain ⟨rfl, rfl⟩ := Prod.mk.inj (Except.ok.inj h)
    exact ⟨⟨[], (List.append_nil _).symm⟩, List.Forall₂.nil⟩
  | cons c cols ih =>
    obtain ⟨off, hoff, h⟩ := exists_of_bind_ok h
    obtain ⟨hb, rfl⟩ : blob.length < 2 ^ 32 ∧ off = blob.length := by
      unfold u32Len at hoff
      split at hoff
      · next hlt => exact ⟨hlt, (Except.ok.inj hoff).symm⟩
      · cases hoff
    split at h
    · cases h
    next hname =>
    obtain ⟨⟨rest, all'⟩, hrest, h⟩ := exists_of_bind_ok h
    obtain ⟨rfl, rfl⟩ := Prod.mk.inj (Except.ok.inj h)
    obtain ⟨⟨more, hmore⟩, hall⟩ := ih hrest
    refine ⟨⟨utf8 c.name ++ more, by rw [hmore, List.append_assoc]⟩, List.Forall₂.cons ?_ hall⟩
    have hat : NameAt (blob ++ utf8 c.name) blob.length (utf8 c.name).length c.name := by
      refine ⟨hb, Nat.not_le.mp hname, by rw [List.length_append], ?_⟩
      rw [slice_append_right _ _ _ _ (Nat.le_refl _), Nat.sub_self, slice_zero_length]
    rw [hmore]
    exact hat.append more

/-- What a store is written from. -/
structure Laid (cols : List SortColumn) (bytes : Bytes) (names : List (Nat × Nat)) (blob : Bytes) : Prop where
  len_eq : ∀ c ∈ cols, c.values.len = colLen cols
  count_lt : cols.length < 2 ^ 16
  blob_lt : blob.length < 2 ^ 32
  named : List.Forall₂ (fun sp c => NameAt blob sp.1 sp.2 c.name) names cols
  bytes_eq : bytes = rrscHeader cols.length (colLen cols) blob.length ++
    (table colRow (colRows (colLen cols) (rrscHeaderSize + cols.length * colEntry + blob.length) cols names) ++
      (blob ++ cols.flatMap fun c => c.values.writeTo))

theorem exists_laid (h : writeSortcols cols = .ok bytes) : ∃ names blob, Laid cols bytes names blob := by
  unfold writeSortcols at h
  simp only at h
  split at h
  · cases h
  next hlen =>
  split at h
  · cases h
  next hcount =>
  obtain ⟨⟨names, blob⟩, hnames, h⟩ := exists_of_bind_ok h
  obtain ⟨blobLen, hblob, h⟩ := exists_of_bind_ok h
  obtain ⟨hlt, rfl⟩ : blob.length < 2 ^ 32 ∧ blobLen = blob.length := by
    unfold u32Len at hblob
    split at hblob
    · next hlt => exact ⟨hlt, (Except.ok.inj hblob).symm⟩
    · cases hblob
  refine ⟨names, blob, fun c hc => ?_, Nat.not_le.mp hcount, hlt, (pushColNames_ok hnames).2,
    (Except.ok.inj h).symm⟩
  rw [Bool.not_eq_true, List.any_eq_false] at hlen
  simpa using hlen c hc

theorem length_rrscHeader (n rows strBytes : Nat) : (rrscHeader n rows strBytes).length = rrscHeaderSize := by
  simp [rrscHeader, rrscMagic, rrscHeaderSize]

theorem length_colRow (r : ColRow) : (colRow r).length = colEntry := by
  simp [colRow, colEntry]

theorem length_colRows {rows off : Nat} {names : List (Nat × Nat)} (h : names.length = cols.length) :
    (colRows rows off cols names).length = cols.length := by
  induction cols generalizing off names with
  | nil => rfl
  | cons c cols ih =>
    cases names with
    | nil => cases h
    | cons name names =>
      unfold colRows
      rw [List.length_cons, List.length_cons, ih (Nat.succ.inj h)]

/-- The header's fields are read back, the number of values as far as it fits its field. -/
theorem rrscHeader_fields (n rows strBytes : Nat) (rest : Bytes) :
    slice (rrscHeader n rows strBytes ++ rest) 0 4 = rrscMagic ∧
    getLe 2 (rrscHeader n rows strBytes ++ rest) 4 = 1 ∧
    getLe 2 (rrscHeader n rows strBytes ++ rest) 6 = n % 2 ^ 16 ∧
    getLe 4 (rrscHeader n rows strBytes ++ rest) 8 = rows % 2 ^ 32 ∧
    getLe 4 (rrscHeader n rows strBytes ++ rest) 12 = strBytes % 2 ^ 32 := by
  have hmagic : ∀ (w off : Nat) (b : Bytes), getLe w (rrscMagic ++ b) (4 + off) = getLe w b off := by
    intro w off b
    rw [getLe_append_right _ _ _ _ (by simp [rrscMagic])]
    congr 1
    exact Nat.add_sub_cancel_left _ _
  unfold rrscHeader
  simp only [List.append_assoc]
  refine ⟨?_, ?_, ?_, ?_, ?_⟩
  · rw [slice_append_left _ _ _ _ (by simp [rrscMagic])]
    rfl
  · rw [show 4 = 4 + 0 from rfl, hmagic]
    exact getLe_field (by decide) _
  · rw [show 6 = 4 + (2 + 0) from rfl, hmagic, getLe_le_skip, getLe_le_append]
    rfl
  · rw [show 8 = 4 + (2 + (2 + 0)) from rfl, hmagic, getLe_le_skip, getLe_le_skip, getLe_le_append]
    rfl
  · rw [show 12 = 4 + (2 + (2 + (4 + 0))) from rfl, hmagic, getLe_le_skip, getLe_le_skip, getLe_le_skip, getLe_le_append]
    rfl

/-- The columns of a store whose data begins at `off`. -/
def colInfos (rows off : Nat) : List SortColumn → List ColInfo
  | [] => []
  | c :: cs => ⟨c.name, c.values.valueType, off⟩ :: colInfos rows (off + rows * c.values.width) cs

theorem length_colInfos (rows off : Nat) (cols : List SortColumn) : (colInfos rows off cols).length = cols.length := by
  induction cols generalizing off with
  | nil => rfl
  | cons c cols ih => rw [colInfos, List.length_cons, List.length_cons, ih]

/-- A row of the table is read back. -/
theorem parseColumn_eq {buf blob : Bytes} {strBlob base rows : Nat} {r : ColRow} {c : SortColumn}
    (hrow : slice buf base colEntry = colRow r) (hblob : slice buf strBlob blob.length = blob)
    (hname : NameAt blob r.name.1 r.name.2 c.name) (hcode : r.typeCode = c.values.typeCode) (hoff : r.off < 2 ^ 64)
    (hrows : r.rows = rows) (hlt : rows < 2 ^ 32) :
    parseColumn buf strBlob blob.length rows base = .ok ⟨c.name, c.values.valueType, r.off⟩ := by
  have hget : ∀ w off, off + w ≤ colEntry → getLe w buf (base + off) = getLe w (colRow r) off := by
    intro w off h
    rw [← hrow, getLe_slice _ _ _ _ _ h]
  have hcodelt : r.typeCode < 256 ^ 1 := by
    rw [hcode]
    cases c.values <;> (simp only [ColumnValues.typeCode]; decide)
  have h0 : getLe 4 buf base = r.name.1 := by
    have := hget 4 0 (by decide)
    rw [Nat.add_zero] at this
    rw [this]
    exact getLe_field hname.off_lt _
  have h4 : getLe 2 buf (base + 4) = r.name.2 := by
    rw [hget 2 4 (by decide)]
    exact (getLe_le_skip 2 4 _ _ 0).trans (getLe_field hname.len_lt _)
  have h6 : getLe 1 buf (base + 6) = c.values.typeCode := by
    rw [hget 1 6 (by decide), ← hcode]
    unfold colRow
    rw [show 6 = 4 + (2 + 0) from rfl, getLe_le_skip, getLe_le_skip]
    exact getLe_field hcodelt _
  have h8 : getLe 8 buf (base + 8) = r.off := by
    rw [hget 8 8 (by decide)]
    unfold colRow
    rw [show 8 = 4 + (2 + (1 + (1 + 0))) from rfl, getLe_le_skip, getLe_le_skip, getLe_le_skip, getLe_le_skip]
    exact getLe_field hoff _
  have h16 : getLe 4 buf (base + 16) = rows := by
    rw [hget 4 16 (by decide), ← hrows]
    unfold colRow
    rw [show 16 = 4 + (2 + (1 + (1 + (8 + 0)))) from rfl, getLe_le_skip, getLe_le_skip, getLe_le_skip, getLe_le_skip,
      getLe_le_skip]
    exact getLe_field (by rw [hrows]; exact hlt) _
  have hread : readColName buf strBlob blob.length r.name.1 r.name.2 = .ok c.name := by
    unfold readColName
    rw [if_pos hname.inside, ← slice_slice _ _ _ _ _ hname.inside, hblob, hname.slice_eq, fromUtf8Lossy_utf8]
  unfold parseColumn
  rw [h6, ColumnValues.fromCode_typeCode]
  simp only
  rw [if_neg (fun hne => hne h16), h0, h4, h8, hread]
  rfl

theorem colRows_getElem {rows off i : Nat} {names : List (Nat × Nat)} {blob : Bytes}
    (hn : List.Forall₂ (fun sp c => NameAt blob sp.1 sp.2 c.name) names cols) {r : ColRow}
    (hr : (colRows rows off cols names)[i]? = some r) : ∃ c info, cols[i]? = some c ∧
      (colInfos rows off cols)[i]? = some info ∧ info = ⟨c.name, c.values.valueType, r.off⟩ ∧
      NameAt blob r.name.1 r.name.2 c.name ∧ r.typeCode = c.values.typeCode ∧ r.rows = rows := by
  induction hn generalizing off i with
  | nil => cases hr
  | @cons name c names cols hname _ ih =>
    unfold colRows at hr
    cases i with
    | zero =>
      obtain rfl := Option.some.inj hr
      exact ⟨c, _, rfl, rfl, rfl, hname, rfl, rfl⟩
    | succ i =>
      rw [List.getElem?_cons_succ] at hr
      exact ih hr

theorem forall₂_getElem? {α β : Type} {R : α → β → Prop} {xs : List α} {ys : List β} (h : List.Forall₂ R xs ys) {i : Nat}
    {x : α} {y : β} (hx : xs[i]? = some x) (hy : ys[i]? = some y) : R x y := by
  obtain ⟨hi, rfl⟩ := List.getElem?_eq_some_iff.mp hx
  obtain ⟨hi', rfl⟩ := List.getElem?_eq_some_iff.mp hy
  exact (List.forall₂_iff_get.mp h).2 i hi hi'

/-- Where a column's data lies. -/
structure DataAt (bytes : Bytes) (rows : Nat) (c : SortColumn) (info : ColInfo) : Prop where
  valueType : info.valueType = c.values.valueType
  inside : info.dataOff + rows * c.values.width ≤ bytes.length
  slice_eq : slice bytes info.dataOff (rows * c.values.width) = c.values.writeTo

theorem dataAt_colInfos {rows : Nat} (hlen : ∀ c ∈ cols, c.values.len = rows) (pre : Bytes)
    (hbytes : bytes = pre ++ cols.flatMap fun c => c.values.writeTo) {off : Nat} (hoff : off = pre.length) :
    List.Forall₂ (DataAt bytes rows) cols (colInfos rows off cols) := by
  induction cols generalizing pre off with
  | nil => exact List.Forall₂.nil
  | cons c cols ih =>
    have hc : c.values.writeTo.length = rows * c.values.width := by
      rw [c.values.length_writeTo, hlen c List.mem_cons_self]
    rw [List.flatMap_cons] at hbytes
    unfold colInfos
    refine List.Forall₂.cons ⟨rfl, ?_, ?_⟩ ?_
    · rw [hbytes, List.length_append, List.length_append, hc]
      show off + _ ≤ _
      omega
    · rw [hbytes]
      exact slice_middle _ _ _ _ _ hoff hc.symm
    · refine ih (fun d hd => hlen d (List.mem_cons_of_mem _ hd)) (pre ++ c.values.writeTo) ?_ ?_
      · rw [hbytes, List.append_assoc]
      · rw [List.length_append, hc, hoff]

theorem length_data_lt {rows : Nat} (hrows : rows < 2 ^ 32) (hlen : ∀ c ∈ cols, c.values.len = rows) :
    (cols.flatMap fun c => c.values.writeTo).length ≤ cols.length * 2 ^ 34 := by
  induction cols with
  | nil => exact Nat.zero_le _
  | cons c cols ih =>
    have hrest := ih fun d hd => hlen d (List.mem_cons_of_mem _ hd)
    have hw : c.values.width ≤ 4 := by
      rw [← c.values.width_valueType]
      exact (SortCols.width_pos _).2
    have hc : c.values.writeTo.length ≤ 2 ^ 34 := by
      rw [c.values.length_writeTo, hlen c List.mem_cons_self]
      calc rows * c.values.width ≤ 2 ^ 32 * 4 := Nat.mul_le_mul (Nat.le_of_lt hrows) hw
        _ = 2 ^ 34 := by decide
    rw [List.flatMap_cons, List.length_append, List.length_cons, Nat.succ_mul]
    omega

variable {names : List (Nat × Nat)} {blob : Bytes}

/-- Where the data of the columns begins. -/
def colDataStart (cols : List SortColumn) (blob : Bytes) : Nat := rrscHeaderSize + cols.length * colEntry + blob.length

theorem Laid.length_table (h : Laid cols bytes names blob) :
    (table colRow (colRows (colLen cols) (colDataStart cols blob) cols names)).length = cols.length * colEntry := by
  rw [ByteString.length_table length_colRow, length_colRows h.named.length_eq]

theorem Laid.length_bytes (h : Laid cols bytes names blob) :
    bytes.length = colDataStart cols blob + (cols.flatMap fun c => c.values.writeTo).length := by
  have htable := h.length_table
  unfold colDataStart at htable ⊢
  rw [h.bytes_eq]
  simp only [List.length_append, length_rrscHeader, htable]
  omega

theorem Laid.length_lt (h : Laid cols bytes names blob) (hrows : colLen cols < 2 ^ 32) : bytes.length < u64Bound := by
  have hdata := length_data_lt hrows h.len_eq
  have hcount := h.count_lt
  have hblob := h.blob_lt
  rw [h.length_bytes]
  unfold colDataStart rrscHeaderSize colEntry u64Bound
  have : cols.length * 2 ^ 34 ≤ 2 ^ 16 * 2 ^ 34 := Nat.mul_le_mul_right _ (Nat.le_of_lt hcount)
  omega

theorem Laid.dataAt (h : Laid cols bytes names blob) :
    List.Forall₂ (DataAt bytes (colLen cols)) cols (colInfos (colLen cols) (colDataStart cols blob) cols) := by
  refine dataAt_colInfos h.len_eq (rrscHeader cols.length (colLen cols) blob.length ++
    (table colRow (colRows (colLen cols) (colDataStart cols blob) cols names) ++ blob)) ?_ ?_
  · rw [h.bytes_eq]
    simp only [List.append_assoc]
    rfl
  · simp only [List.length_append, length_rrscHeader, h.length_table]
    unfold colDataStart
    omega

/-- **A written store opens** as its columns, where its number of values fits the header. -/
theorem Laid.settles_open (h : Laid cols bytes names blob) (hrows : colLen cols < 2 ^ 32) :
    Settles (SortCols.open (MemoryFetch.new bytes))
      (.ok ⟨MemoryFetch.new bytes, colLen cols, colInfos (colLen cols) (colDataStart cols blob) cols⟩) := by
  have hlen := h.length_bytes
  have hlt := h.length_lt hrows
  have hstart : colDataStart cols blob = rrscHeaderSize + cols.length * colEntry + blob.length := rfl
  have htable := h.length_table
  have hdata := h.dataAt
  obtain ⟨hmagic, hversion, hcount, hrow, hstr⟩ := rrscHeader_fields cols.length (colLen cols) blob.length
    (table colRow (colRows (colLen cols) (colDataStart cols blob) cols names) ++
      (blob ++ cols.flatMap fun c => c.values.writeTo))
  have hbytes : bytes = rrscHeader cols.length (colLen cols) blob.length ++
      (table colRow (colRows (colLen cols) (colDataStart cols blob) cols names) ++
        (blob ++ cols.flatMap fun c => c.values.writeTo)) := h.bytes_eq
  rw [← hbytes] at hmagic hversion hcount hrow hstr
  rw [Nat.mod_eq_of_lt h.count_lt] at hcount
  rw [Nat.mod_eq_of_lt hrows] at hrow
  rw [Nat.mod_eq_of_lt h.blob_lt] at hstr
  have hheadLen : (slice bytes 0 rrscHeaderSize).length = rrscHeaderSize := length_slice _ _ _ (by omega)
  have hfield : ∀ w off, off + w ≤ rrscHeaderSize → getLe w (slice bytes 0 rrscHeaderSize) off = getLe w bytes off := by
    intro w off ho
    rw [getLe_slice _ _ _ _ _ ho, Nat.zero_add]
  unfold SortCols.open
  refine (MemoryFetch.settles_read (MemoryFetch.inFile_new hlt (by omega))).bind ?_
  have hnew : (MemoryFetch.new bytes).bytes = bytes := rfl
  have hmagic' : slice (slice bytes 0 rrscHeaderSize) 0 4 = rrscMagic := by
    rw [slice_slice _ _ _ _ _ (by decide), Nat.zero_add, hmagic]
  have hshort : ¬ (slice bytes 0 rrscHeaderSize).length < rrscHeaderSize := by omega
  rw [hnew, if_neg hshort, if_neg (not_not_intro hmagic'), hfield 2 4 (by decide), if_neg (not_not_intro hversion),
    hfield 2 6 (by decide), hfield 4 8 (by decide), hfield 4 12 (by decide), hcount, hrow, hstr]
  refine (MemoryFetch.settles_read (MemoryFetch.inFile_new hlt (by omega))).bind ?_
  rw [hnew]
  have hbufLen : (slice bytes 0 (rrscHeaderSize + cols.length * colEntry + blob.length)).length =
      rrscHeaderSize + cols.length * colEntry + blob.length := length_slice _ _ _ (by omega)
  rw [if_neg (Nat.not_lt.mpr (Nat.le_of_eq hbufLen.symm))]
  have hparse : (List.range cols.length).map (fun i =>
      parseColumn (slice bytes 0 (rrscHeaderSize + cols.length * colEntry + blob.length))
        (rrscHeaderSize + cols.length * colEntry) blob.length (colLen cols) (rrscHeaderSize + i * colEntry)) =
      (colInfos (colLen cols) (colDataStart cols blob) cols).map Except.ok := by
    refine List.ext_getElem (by rw [List.length_map, List.length_range, List.length_map, length_colInfos])
      fun i h1 h2 => ?_
    rw [List.length_map, List.length_range] at h1
    rw [List.getElem_map, List.getElem_map, List.getElem_range]
    have hrowLen := @length_colRows cols (colLen cols) (colDataStart cols blob) names h.named.length_eq
    have hi : i < (colRows (colLen cols) (colDataStart cols blob) cols names).length := by omega
    obtain ⟨c, info, hc, hinfo, heq, hname, hcode, hr⟩ := colRows_getElem h.named (List.getElem?_eq_getElem hi)
    have hslot : i * colEntry + colEntry ≤ cols.length * colEntry := by
      rw [← Nat.succ_mul]
      exact Nat.mul_le_mul_right _ h1
    have hslice : slice (slice bytes 0 (rrscHeaderSize + cols.length * colEntry + blob.length))
        (rrscHeaderSize + i * colEntry) colEntry =
        colRow (colRows (colLen cols) (colDataStart cols blob) cols names)[i] := by
      rw [slice_slice _ _ _ _ _ (by omega), Nat.zero_add, hbytes,
        slice_append_right _ _ _ _ (by rw [length_rrscHeader]; omega), length_rrscHeader, Nat.add_sub_cancel_left,
        slice_append_left _ _ _ _ (by rw [htable]; exact hslot)]
      exact slice_table length_colRow _ _ hi
    have hblob : slice (slice bytes 0 (rrscHeaderSize + cols.length * colEntry + blob.length))
        (rrscHeaderSize + cols.length * colEntry) blob.length = blob := by
      rw [slice_slice _ _ _ _ _ (Nat.le_refl _), Nat.zero_add, hbytes,
        slice_append_right _ _ _ _ (by rw [length_rrscHeader]; omega), length_rrscHeader, Nat.add_sub_cancel_left]
      exact slice_middle _ _ _ _ _ htable.symm rfl
    have hoff : (colRows (colLen cols) (colDataStart cols blob) cols names)[i].off < 2 ^ 64 := by
      have hinside := (forall₂_getElem? hdata hc hinfo).inside
      rw [heq] at hinside
      simp only at hinside
      have : bytes.length < 2 ^ 64 := hlt
      omega
    rw [parseColumn_eq hslice hblob hname hcode hoff hr hrows, ← heq, (List.getElem?_eq_some_iff.mp hinfo).2]
  rw [hparse, collect_ok]
  exact (Settles.ofOutcome _).bind (Settles.pure _)

end

/-! ## One total order -/

/-- A total order of the docs by their numbers in the direction asked for, equal ones by doc id; where a doc without a
number stands is left open. -/
structure RankOrder (num : Nat → Option Int) (descending : Bool) (R : Nat → Nat → Prop) : Prop where
  trans : ∀ a b c, R a b → R b c → R a c
  antisymm : ∀ a b, R a b → R b a → a = b
  total : ∀ a b, R a b ∨ R b a
  by_number : ∀ a b x y, num a = some x → num b = some y →
    (R a b ↔ (if descending then y < x else x < y) ∨ x = y ∧ a ≤ b)

/-- No doc without a number stands between two docs of different numbers. -/
def Untangled (num : Nat → Option Int) : Prop :=
  ∀ a b c x y, a < b → b < c → num b = none → num a = some x → num c = some y → x = y

/-- `SortCols::topk` places `a` no later than `b`. -/
def RankLe (num : Nat → Option Int) (descending : Bool) (a b : Nat) : Prop :=
  SortCols.rankCmp descending (a, num a) (b, num b) ≠ .gt

section

variable {num : Nat → Option Int} {descending : Bool} {a b c : Nat}

theorem rankLe_number {x y : Int} (ha : num a = some x) (hb : num b = some y) :
    RankLe num descending a b ↔ (if descending then y < x else x < y) ∨ x = y ∧ a ≤ b := by
  have hid : compare a b ≠ .gt ↔ a ≤ b := by
    rw [ne_eq, Nat.compare_eq_gt, Nat.not_lt]
  unfold RankLe SortCols.rankCmp
  rw [ha, hb]
  simp only [partialCmp]
  cases descending with
  | true =>
    simp only [if_true, Option.getD_some]
    rcases lt_trichotomy x y with hlt | heq | hgt
    · rw [compare_gt_iff_gt.mpr hlt]
      exact ⟨fun h => absurd rfl h, fun h => (by omega)⟩
    · rw [heq, compare_eq_iff_eq.mpr rfl]
      refine hid.trans ?_
      omega
    · rw [compare_lt_iff_lt.mpr hgt]
      exact ⟨fun _ => Or.inl hgt, fun _ => show Ordering.lt ≠ .gt by decide⟩
  | false =>
    simp only [Bool.false_eq_true, if_false, Option.getD_some]
    rcases lt_trichotomy x y with hlt | heq | hgt
    · rw [compare_lt_iff_lt.mpr hlt]
      exact ⟨fun _ => Or.inl hlt, fun _ => show Ordering.lt ≠ .gt by decide⟩
    · rw [heq, compare_eq_iff_eq.mpr rfl]
      refine hid.trans ?_
      omega
    · rw [compare_gt_iff_gt.mpr hgt]
      exact ⟨fun h => absurd rfl h, fun h => (by omega)⟩

/-- A NaN is equal to any value, so the ids decide. -/
theorem rankLe_none (h : num a = none ∨ num b = none) : RankLe num descending a b ↔ a ≤ b := by
  have hval : (if descending then partialCmp (num b) (num a) else partialCmp (num a) (num b)) = none := by
    rcases h with h | h
    · rw [h]
      cases descending <;> cases num b <;> rfl
    · rw [h]
      cases descending <;> cases num a <;> rfl
  unfold RankLe SortCols.rankCmp
  simp only
  rw [hval, Option.getD_none]
  show compare a b ≠ .gt ↔ a ≤ b
  rw [ne_eq, Nat.compare_eq_gt, Nat.not_lt]

/-- **Ranking is by one total order** where no NaN stands between different values. -/
theorem rankOrder_rankLe (h : Untangled num) (descending : Bool) : RankOrder num descending (RankLe num descending) where
  trans a b c hab hbc := by
    cases ha : num a with
    | none =>
      rw [rankLe_none (Or.inl ha)] at hab ⊢
      cases hb : num b with
      | none =>
        rw [rankLe_none (Or.inl hb)] at hbc
        omega
      | some y =>
        cases hc : num c with
        | none =>
          rw [rankLe_none (Or.inr hc)] at hbc
          omega
        | some z =>
          rw [rankLe_number hb hc] at hbc
          by_contra hlt
          have hne : a ≠ b := fun heq => by
            rw [heq, hb] at ha
            cases ha
          have := h c a b z y (by omega) (by omega) ha hc hb
          subst this
          cases descending <;> simp at hbc <;> omega
    | some x =>
      cases hc : num c with
      | none =>
        rw [rankLe_none (Or.inr hc)] at hbc ⊢
        cases hb : num b with
        | none =>
          rw [rankLe_none (Or.inr hb)] at hab
          omega
        | some y =>
          rw [rankLe_number ha hb] at hab
          by_contra hlt
          have hne : b ≠ c := fun heq => by
            rw [← heq, hb] at hc
            cases hc
          have := h b c a y x (by omega) (by omega) hc hb ha
          subst this
          cases descending <;> simp at hab <;> omega
      | some z =>
        rw [rankLe_number ha hc]
        cases hb : num b with
        | none =>
          rw [rankLe_none (Or.inr hb)] at hab
          rw [rankLe_none (Or.inl hb)] at hbc
          have hne : a ≠ b := fun heq => by
            rw [heq, hb] at ha
            cases ha
          have hne' : b ≠ c := fun heq => by
            rw [heq, hc] at hb
            cases hb
          exact Or.inr ⟨h a b c x z (by omega) (by omega) hb ha hc, by omega⟩
        | some y =>
          rw [rankLe_number ha hb] at hab
          rw [rankLe_number hb hc] at hbc
          cases descending <;> simp at hab hbc ⊢ <;> omega
  antisymm a b hab hba := by
    cases ha : num a with
    | none =>
      rw [rankLe_none (Or.inl ha)] at hab
      rw [rankLe_none (Or.inr ha)] at hba
      omega
    | some x =>
      cases hb : num b with
      | none =>
        rw [rankLe_none (Or.inr hb)] at hab
        rw [rankLe_none (Or.inl hb)] at hba
        omega
      | some y =>
        rw [rankLe_number ha hb] at hab
        rw [rankLe_number hb ha] at hba
        cases descending <;> simp at hab hba <;> omega
  total a b := by
    cases ha : num a with
    | none =>
      rw [rankLe_none (Or.inl ha), rankLe_none (Or.inr ha)]
      omega
    | some x =>
      cases hb : num b with
      | none =>
        rw [rankLe_none (Or.inr hb), rankLe_none (Or.inl hb)]
        omega
      | some y =>
        rw [rankLe_number ha hb, rankLe_number hb ha]
        cases descending <;> simp <;> omega
  by_number a b x y ha hb := rankLe_number ha hb

/-- The candidates in rank order. -/
def rankedIds (num : Nat → Option Int) (descending : Bool) (ids : List Nat) : List Nat :=
  ids.mergeSort fun a b => SortCols.rankCmp descending (a, num a) (b, num b) != .gt

theorem ranked_map (num : Nat → Option Int) (descending : Bool) (ids : List Nat) :
    SortCols.ranked descending (ids.map fun id => (id, num id)) =
      (rankedIds num descending ids).map fun id => (id, num id) := by
  unfold SortCols.ranked rankedIds
  exact (List.map_mergeSort (f := fun id => (id, num id)) fun _ _ _ _ => rfl).symm

theorem pairwise_rankedIds (h : Untangled num) (descending : Bool) (ids : List Nat) :
    (rankedIds num descending ids).Pairwise (RankLe num descending) := by
  have horder := rankOrder_rankLe h descending
  have hle : ∀ a b, (SortCols.rankCmp descending (a, num a) (b, num b) != .gt) = true ↔ RankLe num descending a b :=
    fun a b => bne_iff_ne
  refine (List.pairwise_mergeSort (fun a b c hab hbc => ?_) (fun a b => ?_) ids).imp fun {a b} hab => (hle a b).mp hab
  · exact (hle a c).mpr (horder.trans a b c ((hle a b).mp hab) ((hle b c).mp hbc))
  · rw [Bool.or_eq_true, hle, hle]
    exact horder.total a b

theorem rankedIds_pair (h : RankLe num descending a b) : rankedIds num descending [a, b] = [a, b] :=
  List.mergeSort_of_pairwise (List.pairwise_pair.mpr (bne_iff_ne.mpr h))

end

/-! ## Reading back -/

/-- `SortCols::values` gives the values of ids in any order. -/
def ValuesBack (sc : SortCols) (col : Nat) (v : ColumnValues) : Prop :=
  ∀ ids : List Nat, (∀ id ∈ ids, id < 2 ^ 32 ∧ id < v.len) → ∃ vals, Settles (sc.values col ids) (.ok vals) ∧
    vals.map some = ids.map v.value?

/-- `SortCols::topk` gives the first candidates by one total order, whatever order they come in. -/
def RanksBack (sc : SortCols) (col : Nat) (v : ColumnValues) (descending : Bool) : Prop :=
  ∃ R, RankOrder v.number? descending R ∧
    (∀ (ids : List Nat) (k : Nat), (∀ id ∈ ids, id < 2 ^ 32 ∧ id < v.len) → ∃ sorted : List Nat, sorted.Perm ids ∧
      sorted.Pairwise R ∧ Settles (sc.topk col ids k descending) (.ok (sorted.take k))) ∧
    ∀ (ids ids' : List Nat) (k : Nat), (∀ id ∈ ids, id < 2 ^ 32 ∧ id < v.len) → ids'.Perm ids → ∃ docs,
      Settles (sc.topk col ids k descending) (.ok docs) ∧ Settles (sc.topk col ids' k descending) (.ok docs)

/-- The store opens, and its columns are read and ranked as they were written. -/
def StoreReadsBack (cols : List SortColumn) (bytes : Bytes) : Prop :=
  ∃ sc, Settles (SortCols.open (MemoryFetch.new bytes)) (.ok sc) ∧ ∀ (i : Nat) (c : SortColumn), cols[i]? = some c →
    ValuesBack sc i c.values ∧ ∀ descending, RanksBack sc i c.values descending

section

variable {sc : SortCols} {col : Nat} {v : ColumnValues} {info : ColInfo}

/-- What a column that holds the values has at an id. -/
theorem valueAt_eq {c : SortColumn} {bytes : Bytes} {rows id : Nat} (hlen : c.values.len = rows)
    (h : DataAt bytes rows c info) (hid : id < rows) {f : MemoryFetch} (hf : f.bytes = bytes) (cs : List ColInfo) :
    some ((⟨f, rows, cs⟩ : SortCols).valueAt info id) = c.values.value? id := by
  rw [c.values.value?_eq (by omega), ← h.slice_eq]
  unfold SortCols.valueAt
  have hw := (SortCols.width_pos c.values.valueType).1
  have hfit : id * c.values.width + c.values.width ≤ rows * c.values.width := by
    rw [← Nat.succ_mul]
    exact Nat.mul_le_mul_right _ hid
  rw [h.valueType, hf, ← SortCols.decode_slice c.values.valueType (slice bytes _ _), slice_slice _ _ _ _ _ (by
    rw [c.values.width_valueType]; exact hfit), SortCols.decode_slice, c.values.width_valueType]

theorem valuesBack (hcol : sc.columns[col]? = some info) (hs : sc.Stored info) (hrows : sc.rows = v.len)
    (hat : ∀ id < v.len, some (sc.valueAt info id) = v.value? id) : ValuesBack sc col v := by
  intro ids hids
  refine ⟨_, SortCols.settles_values hcol hs fun id hid => by rw [hrows]; exact (hids id hid).2, ?_⟩
  rw [List.map_map]
  exact List.map_congr_left fun id hid => hat id (hids id hid).2

theorem settles_topk_rankedIds (hcol : sc.columns[col]? = some info) (hs : sc.Stored info) (hrows : sc.rows = v.len)
    (hat : ∀ id < v.len, some (sc.valueAt info id) = v.value? id) {ids : List Nat} (hids : ∀ id ∈ ids, id < v.len)
    (k : Nat) (descending : Bool) :
    Settles (sc.topk col ids k descending) (.ok ((rankedIds v.number? descending ids).take k)) := by
  have htop := SortCols.settles_topk hcol hs (fun id hid => by rw [hrows]; exact hids id hid) k descending
  have hnum : (ids.map fun id => (id, (sc.valueAt info id).asF64)) = ids.map fun id => (id, v.number? id) := by
    refine List.map_congr_left fun id hid => ?_
    unfold ColumnValues.number?
    rw [← hat id (hids id hid)]
    rfl
  rw [hnum, ranked_map, ← List.map_take, List.map_map] at htop
  have hid : (Prod.fst ∘ fun id : Nat => (id, v.number? id)) = id := rfl
  rwa [hid, List.map_id] at htop

theorem ranksBack (hcol : sc.columns[col]? = some info) (hs : sc.Stored info) (hrows : sc.rows = v.len)
    (hat : ∀ id < v.len, some (sc.valueAt info id) = v.value? id) (h : Untangled v.number?) (descending : Bool) :
    RanksBack sc col v descending := by
  have horder := rankOrder_rankLe h descending
  refine ⟨_, horder, fun ids k hids => ?_, fun ids ids' k hids hperm => ?_⟩
  · exact ⟨_, List.mergeSort_perm _ _, pairwise_rankedIds h descending ids,
      settles_topk_rankedIds hcol hs hrows hat (fun id hid => (hids id hid).2) k descending⟩
  · refine ⟨_, settles_topk_rankedIds hcol hs hrows hat (fun id hid => (hids id hid).2) k descending, ?_⟩
    have heq : rankedIds v.number? descending ids = rankedIds v.number? descending ids' := by
      refine List.Perm.eq_of_pairwise (fun a b _ _ hab hba => horder.antisymm a b hab hba)
        (pairwise_rankedIds h descending ids) (pairwise_rankedIds h descending ids') ?_
      exact (List.mergeSort_perm _ _).trans (hperm.symm.trans (List.mergeSort_perm _ _).symm)
    rw [heq]
    exact settles_topk_rankedIds hcol hs hrows hat (fun id hid => (hids id (hperm.mem_iff.mp hid)).2) k descending

/-- Two candidates come back in the order of the comparison, so a total order of all docs has to agree with it. -/
theorem untangled_of_ranksBack (hcol : sc.columns[col]? = some info) (hs : sc.Stored info) (hrows : sc.rows = v.len)
    (hat : ∀ id < v.len, some (sc.valueAt info id) = v.value? id) (hlt : v.len < 2 ^ 32)
    (h : ∀ descending, RanksBack sc col v descending) : Untangled v.number? := by
  intro a b c x y hab hbc hb ha hc
  by_contra hne
  have hclen : c < v.len := by
    by_contra hge
    unfold ColumnValues.number? at hc
    rw [v.value?_none (by omega)] at hc
    cases hc
  -- the direction in which `c` comes before `a`
  obtain ⟨descending, hdir⟩ : ∃ descending : Bool, if descending then x < y else y < x := by
    rcases Int.lt_or_gt_of_ne hne with hxy | hxy
    · exact ⟨true, hxy⟩
    · exact ⟨false, hxy⟩
  obtain ⟨R, horder, hsorted, -⟩ := h descending
  have hpair : ∀ i j, i < v.len → j < v.len → RankLe v.number? descending i j → R i j := by
    intro i j hi hj hle
    have hids : ∀ id ∈ [i, j], id < 2 ^ 32 ∧ id < v.len := by
      intro id hid
      simp only [List.mem_cons, List.not_mem_nil, or_false] at hid
      omega
    obtain ⟨sorted, hperm, hpw, hset⟩ := hsorted [i, j] 2 hids
    have hset' := settles_topk_rankedIds hcol hs hrows hat (fun id hid => (hids id hid).2) 2 descending
    rw [rankedIds_pair hle] at hset'
    have heq := hset.ok_unique hset'
    rw [List.take_of_length_le (by rw [hperm.length_eq]; exact Nat.le_refl _)] at heq
    rw [heq] at hpw
    exact List.pairwise_pair.mp hpw
  have h1 : R a b := hpair a b (by omega) (by omega) ((rankLe_none (Or.inr hb)).mpr (Nat.le_of_lt hab))
  have h2 : R b c := hpair b c (by omega) hclen ((rankLe_none (Or.inl hb)).mpr (Nat.le_of_lt hbc))
  have h3 : R c a := hpair c a hclen (by omega) ((rankLe_number hc ha).mpr (Or.inl hdir))
  have := horder.antisymm a c (horder.trans a b c h1 h2) h3
  omega

end

/-! ## What is read back -/

section

variable {cols : List SortColumn} {bytes : Bytes}

/-- A column of a written store that opens. -/
theorem exists_column {names : List (Nat × Nat)} {blob : Bytes} (h : Laid cols bytes names blob)
    (hrows : colLen cols < 2 ^ 32) {i : Nat} {c : SortColumn} (hc : cols[i]? = some c) :
    ∃ info, (colInfos (colLen cols) (colDataStart cols blob) cols)[i]? = some info ∧
      (⟨MemoryFetch.new bytes, colLen cols, colInfos (colLen cols) (colDataStart cols blob) cols⟩ : SortCols).Stored info ∧
      ∀ id < c.values.len, some ((⟨MemoryFetch.new bytes, colLen cols,
        colInfos (colLen cols) (colDataStart cols blob) cols⟩ : SortCols).valueAt info id) = c.values.value? id := by
  have hi : i < (colInfos (colLen cols) (colDataStart cols blob) cols).length := by
    rw [length_colInfos]
    exact (List.getElem?_eq_some_iff.mp hc).1
  have hat := forall₂_getElem? h.dataAt hc (List.getElem?_eq_getElem hi)
  have hlen := h.len_eq c (List.mem_of_getElem? hc)
  refine ⟨_, List.getElem?_eq_getElem hi, ⟨hrows, ?_⟩, fun id hid => ?_⟩
  · rw [hat.valueType, c.values.width_valueType]
    exact MemoryFetch.inFile_new (h.length_lt hrows) hat.inside
  · exact valueAt_eq hlen hat (by omega) rfl _

/-- A store that opens has as many rows as its header says. -/
theorem returns_rows (bytes : Bytes) :
    Returns (fun sc : SortCols => sc.rows = getLe 4 bytes 8) (SortCols.open (MemoryFetch.new bytes)) := by
  have hread : Returns (fun b => b = slice bytes 0 rrscHeaderSize) ((MemoryFetch.new bytes).read 0 rrscHeaderSize) := by
    intro s b hb
    have hanswer := (Settles.access ((MemoryFetch.new bytes).answer 0 rrscHeaderSize)).eq_of_ok hb
    unfold MemoryFetch.answer at hanswer
    split at hanswer
    · cases hanswer
    · split at hanswer
      · exact (Except.ok.inj hanswer).symm
      · cases hanswer
  unfold SortCols.open
  refine hread.bind fun header hheader => ?_
  have herror : ∀ e, Returns (fun sc : SortCols => sc.rows = getLe 4 bytes 8) (ofOutcome (.error e) : Io SortCols) := by
    intro e s a ha
    cases ha
  split
  · exact herror _
  · split
    · exact herror _
    · split
      · exact herror _
      · refine (Returns.true _).bind fun buf _ => ?_
        split
        · exact herror _
        · refine (Returns.true _).bind fun columns _ => Returns.pure ?_
          show getLe 4 header 8 = _
          rw [hheader, getLe_slice _ _ _ _ _ (by decide), Nat.zero_add]

/-- More values than the header can tell of: the first id past what it tells is refused. -/
theorem not_storeReadsBack {names : List (Nat × Nat)} {blob : Bytes} (h : Laid cols bytes names blob)
    (hrows : 2 ^ 32 ≤ colLen cols) : ¬ StoreReadsBack cols bytes := by
  rintro ⟨sc, hopen, hback⟩
  have hlen : sc.rows = colLen cols % 2 ^ 32 := by
    have hr := returns_rows bytes Schedule.calm sc (by rw [hopen.calm])
    rw [hr, h.bytes_eq]
    exact (rrscHeader_fields _ _ _ _).2.2.2.1
  have hlt : colLen cols % 2 ^ 32 < 2 ^ 32 := Nat.mod_lt _ (by decide)
  cases cols with
  | nil => exact absurd hrows (by decide)
  | cons c cols =>
    have hc : c.values.len = colLen (c :: cols) := rfl
    obtain ⟨vals, hvals, -⟩ := (hback 0 c rfl).1 [sc.rows] fun id hid => by
      obtain rfl := List.mem_singleton.mp hid
      exact ⟨by rw [hlen]; exact hlt, by rw [hlen, hc]; exact Nat.lt_of_lt_of_le hlt hrows⟩
    have hcalm := hvals.calm
    unfold SortCols.values at hcalm
    cases hcol : sc.columns[0]? with
    | none =>
      rw [hcol] at hcalm
      cases congrArg Prod.fst hcalm
    | some info =>
      have horder : sortByKey (fun i => [sc.rows].getD i 0) (List.range [sc.rows].length) = [0] := by
        unfold sortByKey
        rfl
      rw [hcol] at hcalm
      simp only [horder] at hcalm
      rw [if_neg (by simp), if_pos (by simp)] at hcalm
      cases congrArg Prod.fst hcalm

/-- **Sort columns are read and ranked consistently** if and only if there are fewer than `2 ^ 32` values and, in every
column, no NaN stands between two docs of different numbers. -/
theorem sortCols_exact_iff (h : writeSortcols cols = .ok bytes) :
    StoreReadsBack cols bytes ↔ ∀ c ∈ cols, c.values.len < 2 ^ 32 ∧ Untangled c.values.number? := by
  obtain ⟨names, blob, hlaid⟩ := exists_laid h
  by_cases hrows : colLen cols < 2 ^ 32
  · have hopen := hlaid.settles_open hrows
    constructor
    · rintro ⟨sc, hsc, hback⟩ c hc
      obtain rfl := hsc.ok_unique hopen
      obtain ⟨i, hi⟩ := List.mem_iff_getElem?.mp hc
      obtain ⟨info, hinfo, hstored, hat⟩ := exists_column hlaid hrows hi
      have hlen := hlaid.len_eq c hc
      refine ⟨by omega, ?_⟩
      exact untangled_of_ranksBack hinfo hstored hlen.symm hat (by omega) (hback i c hi).2
    · intro hall
      refine ⟨_, hopen, fun i c hi => ?_⟩
      obtain ⟨info, hinfo, hstored, hat⟩ := exists_column hlaid hrows hi
      have hmem := List.mem_of_getElem? hi
      have hlen := hlaid.len_eq c hmem
      exact ⟨valuesBack hinfo hstored hlen.symm hat,
        fun descending => ranksBack hinfo hstored hlen.symm hat (hall c hmem).2 descending⟩
  · constructor
    · intro hback
      exact absurd hback (not_storeReadsBack hlaid (Nat.not_lt.mp hrows))
    · intro hall
      cases cols with
      | nil => exact absurd (by decide) hrows
      | cons c cols => exact absurd (hall c List.mem_cons_self).1 hrows

end

/-- Two scores with no value between them, and a NaN behind. -/
def plainScores : List SortColumn := [⟨"score", .f32 [1073741824, 1065353216, 2143289344]⟩]

theorem plainScores_exact : ∃ bytes, writeSortcols plainScores = .ok bytes ∧ StoreReadsBack plainScores bytes := by
  obtain ⟨bytes, hbytes⟩ : ∃ bytes, writeSortcols plainScores = .ok bytes := ⟨_, rfl⟩
  refine ⟨bytes, hbytes, (sortCols_exact_iff hbytes).mpr fun c hc => ?_⟩
  obtain rfl := List.mem_singleton.mp hc
  refine ⟨by decide, fun a b c x y hab hbc hb _ hy => ?_⟩
  -- the only NaN is the last value
  match c, b, a with
  | 0, b, a => omega
  | 1, 0, a => omega
  | 1, b + 1, a => omega
  | 2, 0, a => omega
  | 2, 1, a =>
    have : ColumnValues.number? (.f32 [1073741824, 1065353216, 2143289344]) 1 ≠ none := by decide +kernel
    exact absurd hb this
  | 2, b + 2, a => omega
  | c + 3, b, a =>
    have : ColumnValues.number? (.f32 [1073741824, 1065353216, 2143289344]) (c + 3) = none := rfl
    rw [this] at hy
    cases hy

/-- The scores 2, NaN and 1: the NaN is equal to both. -/
def tangledScores : List SortColumn := [⟨"score", .f32 [1073741824, 2143289344, 1065353216]⟩]

/-- No total order ranks them as `topk` does. -/
theorem tangledScores_not_exact : ∃ bytes, writeSortcols tangledScores = .ok bytes ∧
    ¬ StoreReadsBack tangledScores bytes := by
  obtain ⟨bytes, hbytes⟩ : ∃ bytes, writeSortcols tangledScores = .ok bytes := ⟨_, rfl⟩
  refine ⟨bytes, hbytes, ?_⟩
  rintro ⟨sc, hsc, hback⟩
  obtain ⟨names, blob, hlaid⟩ := exists_laid hbytes
  obtain rfl := hsc.ok_unique (hlaid.settles_open (by decide))
  obtain ⟨info, hinfo, hstored, hat⟩ := exists_column hlaid (by decide) (i := 0) rfl
  have huntangled := untangled_of_ranksBack hinfo hstored rfl hat (by decide) (hback 0 _ rfl).2
  have htwo : ColumnValues.number? (.f32 [1073741824, 2143289344, 1065353216]) 0 = some (2 ^ 150) := by decide +kernel
  have hone : ColumnValues.number? (.f32 [1073741824, 2143289344, 1065353216]) 2 = some (2 ^ 149) := by decide +kernel
  have hnan : ColumnValues.number? (.f32 [1073741824, 2143289344, 1065353216]) 1 = none := by decide +kernel
  exact absurd (huntangled 0 1 2 _ _ (by decide) (by decide) hnan htwo hone) (by decide)

end RoaringRange
