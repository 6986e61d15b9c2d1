import RoaringRange.Facet

/-!
# The sort-column store (`sortcols.rs`)

A store holds dense, fixed-width columns indexed by doc id.  Opening reads the header, the column table
and the names; a candidate set's values are gathered by a few coalesced reads, and `topk` sorts the
candidates by them, equal values by ascending doc id.

    values of ids below the row count settle on the values the file holds             (settles_values)
    topk settles on the first k candidates in rank order                                (settles_topk)
-/

namespace RoaringRange

open ByteString Faults Slices

def rrscMagic : Bytes := [82, 82, 83, 67]

def rrscHeaderSize : Nat := 16

def colEntry : Nat := 24

def valueSpanGap : Nat := 4096

inductive ValueType where
  | u16
  | u32
  | i32
  | f32
  deriving DecidableEq, Repr

/-- `sortcols::Value`, an `f32` by its bits. -/
inductive Value where
  | u16 (x : Nat)
  | u32 (x : Nat)
  | i32 (x : Int)
  | f32 (bits : Nat)
  deriving DecidableEq, Repr

def ValueType.fromCode : Nat → Option ValueType
  | 1 => some u16
  | 2 => some u32
  | 3 => some i32
  | 4 => some f32
  | _ => none

def ValueType.width : ValueType → Nat
  | u16 => 2
  | _ => 4

/-- `u32 as i32`. -/
def asI32 (x : Nat) : Int := if x < 2 ^ 31 then x else (x : Int) - 2 ^ 32

def ValueType.decode (t : ValueType) (buf : Bytes) (off : Nat) : Value :=
  match t with
  | .u16 => .u16 (getLe 2 buf off)
  | .u32 => .u32 (getLe 4 buf off)
  | .i32 => .i32 (asI32 (getLe 4 buf off))
  | .f32 => .f32 (getLe 4 buf off)

/-- The magnitude of an `f32`, in units of `2 ^ -149`; infinity is `2 ^ 128` there. -/
def f32Magnitude (bits : Nat) : Nat :=
  let exponent := bits / 2 ^ 23 % 256
  let mantissa := bits % 2 ^ 23
  if exponent = 0 then mantissa else (2 ^ 23 + mantissa) * 2 ^ (exponent - 1)

/-- `Value::as_f64`, as a multiple of `2 ^ -149`, or none for a NaN. -/
def Value.asF64 : Value → Option Int
  | .u16 x => some (x * 2 ^ 149)
  | .u32 x => some (x * 2 ^ 149)
  | .i32 x => some (x * 2 ^ 149)
  | .f32 bits =>
    if bits / 2 ^ 23 % 256 = 255 ∧ bits % 2 ^ 23 ≠ 0 then none
    else if bits / 2 ^ 31 % 2 = 1 then some (-(f32Magnitude bits : Int))
    else some (f32Magnitude bits)

/-- `f64::partial_cmp`. -/
def partialCmp (a b : Option Int) : Option Ordering :=
  match a, b with
  | some a, some b => some (compare a b)
  | _, _ => none

structure ColInfo where
  name : String
  valueType : ValueType
  dataOff : Nat
  deriving DecidableEq, Repr

structure SortCols where
  fetch : MemoryFetch
  rows : Nat
  columns : List ColInfo
  deriving DecidableEq

/-! ## Opening -/

/-- `read_name` of `SortCols::open`. -/
def readColName (buf : Bytes) (strBlob strBytes off len : Nat) : Except IndexError String :=
  if off + len ≤ strBytes then .ok (fromUtf8Lossy (slice buf (strBlob + off) len))
  else .error (.malformed "RRSC name out of string blob")

/-- A row of the column table. -/
def parseColumn (buf : Bytes) (strBlob strBytes rows b : Nat) : Except IndexError ColInfo :=
  match ValueType.fromCode (getLe 1 buf (b + 6)) with
  | none => .error (.malformed "RRSC unknown value type")
  | some valueType =>
    if getLe 4 buf (b + 16) ≠ rows then .error (.malformed "RRSC column row count mismatch")
    else do
      let name ← readColName buf strBlob strBytes (getLe 4 buf b) (getLe 2 buf (b + 4))
      pure ⟨name, valueType, getLe 8 buf (b + 8)⟩

namespace SortCols

def «open» (f : MemoryFetch) : Io SortCols := do
  let header ← f.read 0 rrscHeaderSize
  if header.length < rrscHeaderSize then ofOutcome (.error (.malformed "short RRSC header"))
  else if slice header 0 4 ≠ rrscMagic then ofOutcome (.error (.badMagic (slice header 0 4)))
  else if getLe 2 header 4 ≠ 1 then ofOutcome (.error (.badVersion (getLe 2 header 4)))
  else do
    let colCount := getLe 2 header 6
    let rows := getLe 4 header 8
    let strBytes := getLe 4 header 12
    let strBlob := rrscHeaderSize + colCount * colEntry
    let buf ← f.read 0 (strBlob + strBytes)
    if buf.length < strBlob + strBytes then ofOutcome (.error (.malformed "RRSC meta region truncated"))
    else do
      let columns ← ofOutcome (collect ((List.range colCount).map fun i =>
        parseColumn buf strBlob strBytes rows (rrscHeaderSize + i * colEntry)))
      pure ⟨f, rows, columns⟩

/-! ## Gathering values -/

/-- One step of the span loop of `SortCols::values`. -/
def placeId (ids : List Nat) (w : Nat) (st : SpanPlan) (i : Nat) : SpanPlan :=
  let s := ids.getD i 0 * w
  let e := s + w
  let spans :=
    match st.spans.getLast? with
    | some last =>
      if s ≤ last.2 + valueSpanGap then
        if last.2 < e then st.spans.set (st.spans.length - 1) (last.1, e) else st.spans
      else st.spans ++ [(s, e)]
    | none => st.spans ++ [(s, e)]
  ⟨spans, Function.update st.spanOf i (spans.length - 1)⟩

/-- The value of the id at an index, cut out of its span. -/
def pickValue (t : ValueType) (plan : SpanPlan) (datas : List Bytes) (x : Nat × Nat) : Except IndexError Value :=
  let rel := x.1 * t.width - (plan.spans.getD (plan.spanOf x.2) (0, 0)).1
  let data := datas.getD (plan.spanOf x.2) []
  if data.length < rel + t.width then .error (.malformed "RRSC column read truncated")
  else .ok (t.decode data rel)

def values (sc : SortCols) (col : Nat) (ids : List Nat) : Io (List Value) :=
  match sc.columns[col]? with
  | none => ofOutcome (.error (.badQuery "sortcols column index out of range"))
  | some info =>
    if ids.isEmpty then pure []
    else
      let order := sortByKey (fun i => ids.getD i 0) (List.range ids.length)
      if sc.rows ≤ ids.getD (order.getLastD 0) 0 then
        ofOutcome (.error (.badQuery "sortcols doc id out of range"))
      else do
        let plan := order.foldl (placeId ids info.valueType.width) ⟨[], fun _ => 0⟩
        let datas ← tryAll (plan.spans.map fun sp =>
          sc.fetch.read (saturatingAdd info.dataOff sp.1) (sp.2 - sp.1))
        ofOutcome (collect (ids.zipIdx.map (pickValue info.valueType plan datas)))

/-- `SortCols::values_u32`; `values` has only `u32`s for a `u32` column. -/
def valuesU32 (sc : SortCols) (col : Nat) (ids : List Nat) : Io (List Nat) :=
  match sc.columns[col]? with
  | none => ofOutcome (.error (.badQuery "sortcols column index out of range"))
  | some info =>
    if info.valueType ≠ .u32 then ofOutcome (.error (.badQuery "sortcols column is not u32"))
    else do
      let vals ← sc.values col ids
      pure (vals.map fun v =>
        match v with
        | .u32 x => x
        | _ => 0)

def columnIndex (sc : SortCols) (name : String) : Option Nat := sc.columns.findIdx? fun c => c.name = name

/-- The comparison of `SortCols::topk`. -/
def rankCmp (descending : Bool) (a b : Nat × Option Int) : Ordering :=
  ((if descending then partialCmp b.2 a.2 else partialCmp a.2 b.2).getD .eq).then (compare a.1 b.1)

/-- The sort of `SortCols::topk`. -/
def ranked (descending : Bool) (paired : List (Nat × Option Int)) : List (Nat × Option Int) :=
  paired.mergeSort fun a b => rankCmp descending a b != .gt

def topk (sc : SortCols) (col : Nat) (candidates : List Nat) (k : Nat) (descending : Bool) : Io (List Nat) := do
  let vals ← sc.values col candidates
  pure (((ranked descending (candidates.zip (vals.map Value.asF64))).take k).map Prod.fst)

/-! ## What the file holds -/

/-- The value of a doc in a column. -/
def valueAt (sc : SortCols) (info : ColInfo) (id : Nat) : Value :=
  info.valueType.decode sc.fetch.bytes (info.dataOff + id * info.valueType.width)

/-- The column's data lies in the file. -/
def Stored (sc : SortCols) (info : ColInfo) : Prop :=
  sc.rows < u32Bound ∧ sc.fetch.InFile info.dataOff (sc.rows * info.valueType.width)

theorem width_pos (t : ValueType) : 0 < t.width ∧ t.width ≤ 4 := by
  cases t <;> decide

/-- A value needs its own bytes only. -/
theorem decode_slice (t : ValueType) (b : Bytes) (off : Nat) : t.decode (slice b off t.width) 0 = t.decode b off := by
  cases t <;> simp only [ValueType.decode, ValueType.width] <;> rw [getLe_slice _ _ _ _ _ (by omega), Nat.add_zero]

section

variable {ids : List Nat} {w : Nat}

/-- The span loop is the planning loop of the coalesced reads. -/
theorem placeRange_eq (hw : 0 < w) (hids : ∀ id ∈ ids, id * w + w < u64Bound) (st : SpanPlan) {i : Nat}
    (hi : i < ids.length) :
    placeRange (ids.map fun id => (id * w, w)) valueSpanGap st i = .ok (placeId ids w st i) := by
  have hr : (ids.map fun id => (id * w, w)).getD i (0, 0) = (ids[i] * w, w) := by
    rw [List.getD_eq_getElem _ _ (by rw [List.length_map]; exact hi), List.getElem_map]
  have hid : ids.getD i 0 = ids[i] := List.getD_eq_getElem _ _ hi
  have hlt := hids _ (List.getElem_mem hi)
  have hsat : ∀ a : Nat, ids[i] * w ≤ saturatingAdd a valueSpanGap ↔ ids[i] * w ≤ a + valueSpanGap := by
    intro a
    unfold saturatingAdd usizeMax
    omega
  unfold placeRange placeId
  simp only [hr, hid]
  rw [if_neg (by omega), if_neg (by omega)]
  cases st.spans.getLast? with
  | none => rfl
  | some last =>
    by_cases hgap : ids[i] * w ≤ last.2 + valueSpanGap
    · simp only [if_pos hgap, if_pos ((hsat last.2).mpr hgap)]
    · simp only [if_neg hgap, if_neg (mt (hsat last.2).mp hgap)]

theorem planSpans_eq (hw : 0 < w) (hids : ∀ id ∈ ids, id * w + w < u64Bound) (order : List Nat) (st : SpanPlan)
    (ho : ∀ i ∈ order, i < ids.length) :
    planSpans (ids.map fun id => (id * w, w)) valueSpanGap st order = .ok (order.foldl (placeId ids w) st) := by
  induction order generalizing st with
  | nil => rfl
  | cons i order ih =>
    rw [planSpans, placeRange_eq hw hids st (ho i List.mem_cons_self)]
    exact ih _ fun j hj => ho j (List.mem_cons_of_mem _ hj)

end

theorem sliceBack_ok {plan : SpanPlan} {datas : List Bytes} {r : (Nat × Nat) × Nat} {b : Bytes}
    (h : sliceBack plan datas r = .ok b) (hne : r.1.2 ≠ 0) :
    r.1.1 - (plan.spans.getD (plan.spanOf r.2) (0, 0)).1 + r.1.2 ≤ (datas.getD (plan.spanOf r.2) []).length ∧
      slice (datas.getD (plan.spanOf r.2) []) (r.1.1 - (plan.spans.getD (plan.spanOf r.2) (0, 0)).1) r.1.2 = b := by
  unfold sliceBack at h
  rw [if_neg hne] at h
  simp only at h
  split at h
  · next hfit => exact ⟨hfit, Except.ok.inj h⟩
  · cases h

section

variable {sc : SortCols} {col : Nat} {info : ColInfo} {ids : List Nat}

/-- **The values are the ones the file holds.** -/
theorem settles_values (hcol : sc.columns[col]? = some info) (hs : sc.Stored info) (hids : ∀ id ∈ ids, id < sc.rows) :
    Settles (sc.values col ids) (.ok (ids.map (sc.valueAt info))) := by
  obtain ⟨hrows, hin⟩ := hs
  obtain ⟨hw, hw4⟩ := width_pos info.valueType
  obtain ⟨hmiss, hbound, hlen⟩ := hin
  unfold values
  rw [hcol]
  simp only
  generalize hwt : info.valueType.width = w at *
  by_cases hnil : ids = []
  · rw [hnil]
    exact Settles.pure _
  rw [if_neg (by rw [List.isEmpty_iff]; exact hnil)]
  have hperm := sortByKey_perm (fun i => ids.getD i 0) (List.range ids.length)
  have hsorted := sortByKey_sorted (fun i => ids.getD i 0) (List.range ids.length)
  generalize sortByKey (fun i => ids.getD i 0) (List.range ids.length) = order at hperm hsorted ⊢
  have hmem : ∀ i, i ∈ order ↔ i < ids.length := fun i => by rw [hperm.mem_iff, List.mem_range]
  have hlast : ids.getD (order.getLastD 0) 0 < sc.rows := by
    have hpos : order ≠ [] := by
      intro h0
      rw [h0] at hperm
      have := hperm.length_eq
      rw [List.length_nil, List.length_range] at this
      exact hnil (List.length_eq_zero_iff.mp this.symm)
    have hl : order.getLastD 0 ∈ order := by
      rw [List.getLastD_eq_getLast?, List.getLast?_eq_some_getLast hpos]
      exact List.getLast_mem hpos
    have hlt := (hmem _).mp hl
    rw [List.getD_eq_getElem _ _ hlt]
    exact hids _ (List.getElem_mem hlt)
  rw [if_neg (by omega)]
  -- the column as a file of its own
  have hcolLen : (slice sc.fetch.bytes info.dataOff (sc.rows * w)).length = sc.rows * w := length_slice _ _ _ hlen
  have hidw : ∀ id ∈ ids, id * w + w ≤ sc.rows * w := by
    intro id hid
    have := Nat.mul_le_mul_right w (Nat.succ_le_of_lt (hids id hid))
    rw [Nat.succ_mul] at this
    exact this
  have hsmall : sc.rows * w < u64Bound := by omega
  have hread : Readable (MemoryFetch.new (slice sc.fetch.bytes info.dataOff (sc.rows * w)))
      (ids.map fun id => (id * w, w)) := by
    intro r hr _
    obtain ⟨id, hid, rfl⟩ := List.mem_map.mp hr
    exact MemoryFetch.inFile_new (by rw [hcolLen]; exact hsmall) (by rw [hcolLen]; exact hidw id hid)
  obtain ⟨plan, hplan, hgood⟩ := @planSpans_good _ _ valueSpanGap hread order [] ⟨[], fun _ => 0⟩
    ⟨by simp, by simp, by simp⟩ (by simpa using hperm.nodup_iff.mpr List.nodup_range) (by
      refine hsorted.imp_of_mem fun {i j} hi hj hij => ?_
      have hi' := (hmem i).mp hi
      have hj' := (hmem j).mp hj
      rw [List.getD_eq_getElem _ _ hi', List.getD_eq_getElem _ _ hj'] at hij
      simp only [List.getD_eq_getElem?_getD, List.getElem?_map, List.getElem?_eq_getElem hi',
        List.getElem?_eq_getElem hj', Option.map_some, Option.getD_some]
      exact Nat.mul_le_mul_right w hij)
  rw [planSpans_eq hw (fun id hid => Nat.lt_of_le_of_lt (hidw id hid) hsmall) _ _ fun i hi => (hmem i).mp hi] at hplan
  obtain rfl := Except.ok.inj hplan
  rw [List.nil_append] at hgood
  generalize order.foldl (placeId ids w) ⟨[], fun _ => 0⟩ = plan at hgood ⊢
  have hdatas : Settles (tryAll (plan.spans.map fun sp => sc.fetch.read (saturatingAdd info.dataOff sp.1) (sp.2 - sp.1)))
      (.ok (plan.spans.map fun sp =>
        slice (slice sc.fetch.bytes info.dataOff (sc.rows * w)) sp.1 (sp.2 - sp.1))) := by
    refine settles_tryAll_map fun sp hsp => ?_
    obtain ⟨hle, -, -, hfile⟩ := hgood.inFile sp hsp
    simp only [MemoryFetch.new, hcolLen] at hfile
    have hsat : saturatingAdd info.dataOff sp.1 = info.dataOff + sp.1 := by
      unfold saturatingAdd usizeMax
      omega
    rw [hsat, slice_slice _ _ _ _ _ hfile]
    exact MemoryFetch.settles_read ⟨hmiss, by omega, by omega⟩
  refine hdatas.bind ?_
  have hpick : ids.zipIdx.map (pickValue info.valueType plan (plan.spans.map fun sp =>
      slice (slice sc.fetch.bytes info.dataOff (sc.rows * w)) sp.1 (sp.2 - sp.1))) =
      (ids.map (sc.valueAt info)).map Except.ok := by
    have hfst : ids = ids.zipIdx.map Prod.fst := by simp
    conv => rhs; rw [hfst]
    rw [List.map_map, List.map_map]
    refine List.map_congr_left fun x hx => ?_
    have hget : ids[x.2]? = some x.1 := List.mem_zipIdx_iff_getElem?.mp hx
    have hlt : x.2 < ids.length := (List.getElem?_eq_some_iff.mp hget).1
    have hback := sliceBack_eq hgood ((hmem x.2).mpr hlt) (r := (x.1 * w, w))
      (by rw [List.getElem?_map, hget]; rfl)
    obtain ⟨hfit, hcut⟩ := sliceBack_ok hback (by simp only; omega)
    simp only [MemoryFetch.new] at hfit hcut
    have hin := hidw x.1 (List.mem_of_getElem? hget)
    have hdec : ∀ (b : Bytes) (off : Nat), info.valueType.decode (slice b off w) 0 = info.valueType.decode b off := by
      intro b off
      rw [← hwt]
      exact decode_slice _ _ _
    unfold pickValue
    rw [hwt]
    simp only
    have hval : sc.valueAt info x.1 = info.valueType.decode sc.fetch.bytes (info.dataOff + x.1 * w) := by
      rw [← hwt]
      rfl
    rw [if_neg (by omega)]
    simp only [Function.comp_apply]
    rw [hval, ← hdec, hcut, slice_slice _ _ _ _ _ hin, hdec]
  rw [hpick, collect_ok]
  exact Settles.ofOutcome _

def u32At (sc : SortCols) (info : ColInfo) (id : Nat) : Nat := getLe 4 sc.fetch.bytes (info.dataOff + id * 4)

theorem settles_valuesU32 (hcol : sc.columns[col]? = some info) (ht : info.valueType = .u32) (hs : sc.Stored info)
    (hids : ∀ id ∈ ids, id < sc.rows) : Settles (sc.valuesU32 col ids) (.ok (ids.map (sc.u32At info))) := by
  unfold valuesU32
  rw [hcol]
  simp only
  rw [if_neg (by rw [ht]; exact fun h => h rfl)]
  refine (settles_values hcol hs hids).bind ?_
  rw [List.map_map]
  have hu32 : ∀ id, sc.valueAt info id = .u32 (sc.u32At info id) := by
    intro id
    unfold valueAt u32At
    rw [ht]
    rfl
  have hmap : (ids.map ((fun v => match v with | .u32 x => x | _ => 0) ∘ sc.valueAt info)) = ids.map (sc.u32At info) :=
    List.map_congr_left fun id _ => by
      simp only [Function.comp_apply, hu32]
  rw [hmap]
  exact Settles.pure _

/-- The reads of a gather: one for each span. -/
def gatherReads (sc : SortCols) (col : Nat) (ids : List Nat) : Nat :=
  match sc.columns[col]? with
  | none => 0
  | some info =>
    ((sortByKey (fun i => ids.getD i 0) (List.range ids.length)).foldl (placeId ids info.valueType.width)
      ⟨[], fun _ => 0⟩).spans.length

/-- A gather none of whose reads fails answers as without faults. -/
theorem values_clear {s : Schedule FetchError} (h : ∀ i < sc.gatherReads col ids, s i = none) :
    ((sc.values col ids).run s).1 = ((sc.values col ids).run Schedule.calm).1 := by
  unfold values
  cases hcol : sc.columns[col]? with
  | none => rfl
  | some info =>
    unfold gatherReads at h
    rw [hcol] at h
    simp only at h ⊢
    split
    · rfl
    · split
      · rfl
      · generalize (sortByKey (fun i => ids.getD i 0) (List.range ids.length)).foldl
          (placeId ids info.valueType.width) ⟨[], fun _ => 0⟩ = plan at h ⊢
        have hwave : ∀ t : Schedule FetchError, (∀ i < plan.spans.length, t i = none) →
            (joinAll (plan.spans.map fun sp => (sc.fetch.read (saturatingAdd info.dataOff sp.1) (sp.2 - sp.1)))).run t =
              (.ok (plan.spans.map fun sp => sc.fetch.answer (saturatingAdd info.dataOff sp.1) (sp.2 - sp.1)),
                t.drop plan.spans.length) := by
          intro t ht
          have := @run_joinAll_access _ IndexError _ _ (plan.spans.map fun sp =>
            sc.fetch.answer (saturatingAdd info.dataOff sp.1) (sp.2 - sp.1)) t (by simpa using ht)
          rwa [List.map_map, List.length_map] at this
        unfold tryAll
        simp only [run_bind, hwave s h, hwave Schedule.calm fun _ _ => rfl, run_ofOutcome]
        cases collect (plan.spans.map fun sp => sc.fetch.answer (saturatingAdd info.dataOff sp.1) (sp.2 - sp.1)) <;> rfl

theorem valuesU32_clear {s : Schedule FetchError} (h : ∀ i < sc.gatherReads col ids, s i = none) :
    ((sc.valuesU32 col ids).run s).1 = ((sc.valuesU32 col ids).run Schedule.calm).1 := by
  unfold valuesU32
  cases sc.columns[col]? with
  | none => rfl
  | some info =>
    simp only
    split
    · rfl
    · have hvals := values_clear h
      rw [run_bind, run_bind]
      rcases hrun : (sc.values col ids).run s with ⟨o, s'⟩
      rcases hcalm : (sc.values col ids).run Schedule.calm with ⟨o', s''⟩
      rw [hrun, hcalm] at hvals
      simp only at hvals
      subst hvals
      cases o <;> rfl

/-- `topk` of values the file holds. -/
theorem settles_topk (hcol : sc.columns[col]? = some info) (hs : sc.Stored info) (hids : ∀ id ∈ ids, id < sc.rows)
    (k : Nat) (descending : Bool) : Settles (sc.topk col ids k descending)
      (.ok (((ranked descending (ids.map fun id => (id, (sc.valueAt info id).asF64))).take k).map Prod.fst)) := by
  unfold topk
  refine (settles_values hcol hs hids).bind ?_
  have hzip : ids.zip ((ids.map (sc.valueAt info)).map Value.asF64) =
      ids.map fun id => (id, (sc.valueAt info id).asF64) := by
    rw [List.map_map]
    conv => lhs; lhs; rw [← List.map_id ids]
    exact List.zip_map'
  rw [hzip]
  exact Settles.pure _

end

end SortCols

end RoaringRange
