import RoaringRange.Bitmap
import RoaringRange.Lib.Bytes
import RoaringRange.Lib.Search

/-!
# The container directory of a posting (`posting.rs`)

A portable bitmap without run containers is a cookie, the container count, a `(key, card - 1)`
header per container, a `u32` offset per container and the container bodies.  `parseDir` reads
that directory and `assemble` writes such a bitmap from containers:

    parseDir over (a first part of) `assemble sel` is `dirFrom sel`, whose ranges cut out
    exactly the bodies of `sel`                                  (parseDir_assemble, slice_dirFrom)

The `roaring` crate itself is the class `Roaring`: it turns bytes into bitmaps and back.  What the
reader relies on is that the crate reads the portable layout of every set as that set, and that
what it writes it reads back.
-/

namespace RoaringRange

open ByteString Slices

/-- `posting::NO_RUNCONTAINER_COOKIE`. -/
def noRunContainerCookie : Nat := 12346

/-- `posting::Container`: high key, cardinality, byte range relative to the posting start. -/
structure Container where
  key : Nat
  card : Nat
  start : Nat
  len : Nat
  deriving DecidableEq, Repr

/-- A container with its body, as `assemble` takes it. -/
structure FramedContainer where
  key : Nat
  card : Nat
  body : Bytes
  deriving DecidableEq

/-- The offset of each body when the first starts at `pos`. -/
def offsetsFrom (pos : Nat) : List FramedContainer → List Nat
  | [] => []
  | c :: cs => pos :: offsetsFrom (pos + c.body.length) cs

def describe (c : FramedContainer) : Bytes := le 2 c.key ++ le 2 (c.card - 1)

/-- `posting::assemble`. -/
def assemble (sel : List FramedContainer) : Bytes :=
  let n := sel.length
  let dataStart := 8 + n * 4 + n * 4
  le 4 noRunContainerCookie ++ (le 4 n ++ (table describe sel ++
    (table (le 4) (offsetsFrom dataStart sel) ++ sel.flatMap FramedContainer.body)))

/-- `posting::needed_header_len`. -/
def neededHeaderLen (bytes : Bytes) : Option Nat :=
  if bytes.length < 8 ∨ getLe 4 bytes 0 ≠ noRunContainerCookie then none
  else some (getLe 4 bytes 4 * 8 + 8)

/-- Entry `i` of the directory whose offset table starts at `offs`. -/
def parseEntry (header : Bytes) (total size offs i : Nat) : Option Container :=
  let key := getLe 2 header (8 + i * 4)
  let card := getLe 2 header (8 + i * 4 + 2) + 1
  let start := getLe 4 header (offs + i * 4)
  let «end» := if i + 1 < size then getLe 4 header (offs + (i + 1) * 4) else total
  if «end» < start ∨ total < «end» then none
  else some ⟨key, card, start, «end» - start⟩

/-- `posting::parse_dir`. -/
def parseDir (header : Bytes) (total : Nat) : Option (List Container) :=
  if header.length < 8 ∨ getLe 4 header 0 ≠ noRunContainerCookie then none
  else
    let size := getLe 4 header 4
    if size = 0 then some []
    else
      let offs := size * 4 + 8
      let data := size * 4 + offs
      if header.length < data ∨ total < data then none
      else if getLe 4 header offs ≠ data then none
      else (List.range size).mapM (parseEntry header total size offs)

/-! ## What the directory of an assembled bitmap is -/

/-- The directory entries of containers laid out from `pos` on. -/
def dirFrom (pos : Nat) : List FramedContainer → List Container
  | [] => []
  | c :: cs => ⟨c.key, c.card, pos, c.body.length⟩ :: dirFrom (pos + c.body.length) cs

/-- The bytes the bodies of `sel` take together. -/
def bodyBytes (sel : List FramedContainer) : Nat := (sel.map (fun c => c.body.length)).sum

@[simp] theorem bodyBytes_nil : bodyBytes [] = 0 := rfl

@[simp] theorem bodyBytes_cons (c : FramedContainer) (cs : List FramedContainer) :
    bodyBytes (c :: cs) = c.body.length + bodyBytes cs := by
  simp [bodyBytes]

@[simp] theorem bodyBytes_append (cs ds : List FramedContainer) :
    bodyBytes (cs ++ ds) = bodyBytes cs + bodyBytes ds := by
  simp [bodyBytes]

/-- Where the bodies of `assemble sel` start. -/
def dataStart (sel : List FramedContainer) : Nat := 8 + sel.length * 8

theorem length_offsetsFrom (pos : Nat) (sel : List FramedContainer) :
    (offsetsFrom pos sel).length = sel.length := by
  induction sel generalizing pos with
  | nil => rfl
  | cons c cs ih => simp [offsetsFrom, ih]

@[simp] theorem length_dirFrom (pos : Nat) (sel : List FramedContainer) :
    (dirFrom pos sel).length = sel.length := by
  induction sel generalizing pos with
  | nil => rfl
  | cons c cs ih => simp [dirFrom, ih]

theorem keys_dirFrom (pos : Nat) (sel : List FramedContainer) :
    (dirFrom pos sel).map Container.key = sel.map FramedContainer.key := by
  induction sel generalizing pos with
  | nil => rfl
  | cons c cs ih => simp [dirFrom, ih]

theorem length_flatMap_body (sel : List FramedContainer) :
    (sel.flatMap FramedContainer.body).length = bodyBytes sel := by
  simp [List.length_flatMap, bodyBytes]

@[simp] theorem length_describe (c : FramedContainer) : (describe c).length = 4 := by
  simp [describe]

theorem length_assemble (sel : List FramedContainer) :
    (assemble sel).length = dataStart sel + bodyBytes sel := by
  simp only [assemble, List.length_append, length_le, length_table length_describe,
    length_table (w := 4) (f := le 4) (length_le 4), length_offsetsFrom, length_flatMap_body, dataStart]
  omega

section Fields

variable {sel : List FramedContainer}

theorem getLe_cookie : getLe 4 (assemble sel) 0 = noRunContainerCookie := by
  rw [assemble, getLe_le_append]
  rfl

theorem getLe_size (hn : sel.length < u32Bound) : getLe 4 (assemble sel) 4 = sel.length := by
  have h := getLe_le_skip 4 4 noRunContainerCookie (le 4 sel.length ++ (table describe sel ++
    (table (le 4) (offsetsFrom (8 + sel.length * 4 + sel.length * 4) sel) ++
      sel.flatMap FramedContainer.body))) 0
  rw [assemble]
  simp only [Nat.add_zero] at h
  rw [h, getLe_le_append]
  exact Nat.mod_eq_of_lt hn

theorem getLe_desc {i : Nat} (hi : i < sel.length) (v off : Nat) (ho : off + v ≤ 4) :
    getLe v (assemble sel) (8 + i * 4 + off) = getLe v (describe sel[i]) off := by
  have hlen : (table describe sel).length = sel.length * 4 := length_table length_describe sel
  rw [assemble, show 8 + i * 4 + off = 4 + (4 + (i * 4 + off)) by omega, getLe_le_skip, getLe_le_skip,
    getLe_append_left _ _ _ _ (by rw [hlen]; omega), getLe_table length_describe sel i hi v off ho]

theorem getLe_key {i : Nat} (hi : i < sel.length) (hk : sel[i].key < 65536) :
    getLe 2 (assemble sel) (8 + i * 4) = sel[i].key := by
  have h := getLe_desc hi 2 0 (by omega)
  rw [Nat.add_zero] at h
  rw [h, describe, getLe_le_append]
  exact Nat.mod_eq_of_lt hk

theorem getLe_card {i : Nat} (hi : i < sel.length) (hc : 1 ≤ sel[i].card ∧ sel[i].card ≤ 65536) :
    getLe 2 (assemble sel) (8 + i * 4 + 2) + 1 = sel[i].card := by
  have h := getLe_le_skip 2 2 sel[i].key (le 2 (sel[i].card - 1)) 0
  rw [getLe_desc hi 2 2 (by omega), describe, h, getLe_le, Nat.mod_eq_of_lt (by omega)]
  omega

theorem getElem_offsetsFrom (pos : Nat) (sel : List FramedContainer) (i : Nat) (h : i < sel.length) :
    getElem (offsetsFrom pos sel) i (by rw [length_offsetsFrom]; exact h) =
      pos + bodyBytes (sel.take i) := by
  induction sel generalizing pos i with
  | nil => simp at h
  | cons c cs ih =>
    cases i with
    | zero => simp [offsetsFrom]
    | succ i =>
      have := ih (pos + c.body.length) i (by simpa using h)
      simp only [offsetsFrom, List.getElem_cons_succ, this, List.take_succ_cons, bodyBytes_cons]
      omega

theorem sum_take_le (sel : List FramedContainer) (i : Nat) :
    bodyBytes (sel.take i) ≤ bodyBytes sel := by
  conv => rhs; rw [← List.take_append_drop i sel, bodyBytes_append]
  omega

theorem getLe_offset {i : Nat} (hi : i < sel.length) (hlen : (assemble sel).length < u32Bound) :
    getLe 4 (assemble sel) (sel.length * 4 + 8 + i * 4) =
      dataStart sel + bodyBytes (sel.take i) := by
  have hdesc : (table describe sel).length = sel.length * 4 := length_table length_describe sel
  have hoff : (table (le 4) (offsetsFrom (8 + sel.length * 4 + sel.length * 4) sel)).length =
      sel.length * 4 := by
    rw [length_table (length_le 4), length_offsetsFrom]
  have hget := getLe_table (f := le 4) (length_le 4)
    (offsetsFrom (8 + sel.length * 4 + sel.length * 4) sel) i (by rw [length_offsetsFrom]; exact hi)
    4 0 (by omega)
  have hsum := sum_take_le sel i
  rw [length_assemble] at hlen
  rw [Nat.add_zero] at hget
  rw [assemble, show sel.length * 4 + 8 + i * 4 = 4 + (4 + (sel.length * 4 + i * 4)) by omega, getLe_le_skip,
    getLe_le_skip, getLe_append_right _ _ _ _ (by rw [hdesc]; omega), hdesc,
    Nat.add_sub_cancel_left, getLe_append_left _ _ _ _ (by rw [hoff]; omega), hget, getLe_le,
    getElem_offsetsFrom _ _ _ hi, dataStart]
  simp only [dataStart, u32Bound] at hlen
  rw [Nat.mod_eq_of_lt (by omega)]
  omega

end Fields

/-- The keys, cardinalities and offsets of `sel` fit the fields they are written to. -/
structure Encodable (sel : List FramedContainer) : Prop where
  key_lt : ∀ c ∈ sel, c.key < 65536
  card_pos : ∀ c ∈ sel, 1 ≤ c.card ∧ c.card ≤ 65536
  length_lt : (assemble sel).length < u32Bound

theorem Encodable.count_lt {sel : List FramedContainer} (h : Encodable sel) :
    sel.length < u32Bound := by
  have := h.length_lt
  rw [length_assemble, dataStart] at this
  omega

theorem getElem_dirFrom (pos : Nat) (sel : List FramedContainer) (i : Nat) (h : i < sel.length) :
    getElem (dirFrom pos sel) i (by rw [length_dirFrom]; exact h) =
      ⟨sel[i].key, sel[i].card, pos + bodyBytes (sel.take i),
        sel[i].body.length⟩ := by
  induction sel generalizing pos i with
  | nil => simp at h
  | cons c cs ih =>
    cases i with
    | zero => simp [dirFrom]
    | succ i =>
      have := ih (pos + c.body.length) i (by simpa using h)
      simp only [dirFrom, List.getElem_cons_succ, this, List.take_succ_cons, bodyBytes_cons,
        Nat.add_assoc]

theorem sum_take_succ (sel : List FramedContainer) (i : Nat) (h : i < sel.length) :
    bodyBytes (sel.take (i + 1)) =
      bodyBytes (sel.take i) + sel[i].body.length := by
  rw [List.take_succ_eq_append_getElem h, bodyBytes_append, bodyBytes_cons, bodyBytes_nil, Nat.add_zero]

theorem parseEntry_assemble {sel : List FramedContainer} (he : Encodable sel) {h : Nat}
    (hh : dataStart sel ≤ h) {i : Nat} (hi : i < sel.length) :
    parseEntry (slice (assemble sel) 0 h) (assemble sel).length sel.length (sel.length * 4 + 8) i =
      (dirFrom (dataStart sel) sel)[i]? := by
  have hmem : sel[i] ∈ sel := List.getElem_mem hi
  have hsum := sum_take_le sel (i + 1)
  rw [sum_take_succ sel i hi] at hsum
  have hlen := length_assemble sel
  rw [List.getElem?_eq_getElem (by rw [length_dirFrom]; exact hi), getElem_dirFrom _ _ _ hi]
  unfold parseEntry
  simp only [dataStart] at hh
  -- the end of the body: the next offset, or the posting's end for the last container
  have hend : (if i + 1 < sel.length then
      getLe 4 (slice (assemble sel) 0 h) (sel.length * 4 + 8 + (i + 1) * 4) else (assemble sel).length) =
      dataStart sel + bodyBytes (sel.take i) + sel[i].body.length := by
    split
    · next hlt =>
      rw [getLe_slice _ _ _ _ _ (by omega), Nat.zero_add, getLe_offset hlt he.length_lt,
        sum_take_succ sel i hi, Nat.add_assoc]
    · next hge =>
      have hall : sel.take (i + 1) = sel := List.take_of_length_le (by omega)
      rw [hlen, Nat.add_assoc, ← sum_take_succ sel i hi, hall]
  rw [hend, getLe_slice _ _ _ _ _ (by omega), getLe_slice _ _ _ _ _ (by omega),
    getLe_slice _ _ _ _ _ (by omega), Nat.zero_add, Nat.zero_add, Nat.zero_add,
    getLe_key hi (he.key_lt _ hmem), getLe_card hi (he.card_pos _ hmem),
    getLe_offset hi he.length_lt]
  simp only
  rw [if_neg (by omega), Nat.add_sub_cancel_left]

/-- **The directory read back**, from any first part of the posting that holds the header. -/
theorem parseDir_assemble {sel : List FramedContainer} (he : Encodable sel) {h : Nat}
    (hh : dataStart sel ≤ h) (hl : h ≤ (assemble sel).length) :
    parseDir (slice (assemble sel) 0 h) (assemble sel).length = some (dirFrom (dataStart sel) sel) := by
  have hlen : (slice (assemble sel) 0 h).length = h := length_slice _ _ _ (by omega)
  have hcookie : getLe 4 (slice (assemble sel) 0 h) 0 = noRunContainerCookie := by
    simp only [dataStart] at hh
    rw [getLe_slice _ _ _ _ _ (by omega), getLe_cookie]
  have hsize : getLe 4 (slice (assemble sel) 0 h) 4 = sel.length := by
    simp only [dataStart] at hh
    rw [getLe_slice _ _ _ _ _ (by omega), getLe_size he.count_lt]
  have htotal := length_assemble sel
  unfold parseDir
  rw [hlen, hcookie, hsize]
  simp only [dataStart] at hh htotal
  rw [if_neg (by simp; omega)]
  by_cases h0 : sel.length = 0
  · rw [if_pos h0, List.length_eq_zero_iff.mp h0]
    rfl
  · have hfirst : getLe 4 (slice (assemble sel) 0 h) (sel.length * 4 + 8) =
        sel.length * 4 + (sel.length * 4 + 8) := by
      have := @getLe_offset sel 0 (by omega) he.length_lt
      simp only [Nat.zero_mul, Nat.add_zero, List.take_zero, bodyBytes_nil, dataStart] at this
      rw [getLe_slice _ _ _ _ _ (by omega), Nat.zero_add, this]
      omega
    rw [if_neg h0, if_neg (by omega), if_neg (by simpa using hfirst)]
    have hmap := @mapM_some _ _
      (parseEntry (slice (assemble sel) 0 h) (assemble sel).length sel.length (sel.length * 4 + 8))
      (fun i => (dirFrom (dataStart sel) sel).getD i ⟨0, 0, 0, 0⟩) (List.range sel.length) fun i hi => by
        have hi' : i < sel.length := List.mem_range.mp hi
        rw [parseEntry_assemble he (by simpa [dataStart] using hh) hi', List.getD_eq_getElem?_getD,
          List.getElem?_eq_getElem (by rw [length_dirFrom]; exact hi')]
        rfl
    rw [hmap]
    congr 1
    refine List.ext_getElem (by simp) fun i h1 h2 => ?_
    simp only [List.getElem_map, List.getElem_range, List.getD_eq_getElem?_getD,
      List.getElem?_eq_getElem h2, Option.getD_some]

theorem neededHeaderLen_assemble {sel : List FramedContainer} (he : Encodable sel) {h : Nat}
    (hh : 8 ≤ h) (hl : h ≤ (assemble sel).length) :
    neededHeaderLen (slice (assemble sel) 0 h) = some (dataStart sel) := by
  have hlen : (slice (assemble sel) 0 h).length = h := length_slice _ _ _ (by omega)
  unfold neededHeaderLen
  rw [hlen, getLe_slice _ _ _ _ _ (by omega), getLe_slice _ _ _ _ _ (by omega), Nat.zero_add,
    getLe_cookie, getLe_size he.count_lt, if_neg (by simp; omega), dataStart, Nat.add_comm]

/-- The range of a directory entry holds that container's body. -/
theorem slice_dirFrom (sel : List FramedContainer) (i : Nat) (h : i < sel.length) :
    slice (assemble sel) (dataStart sel + bodyBytes (sel.take i))
      sel[i].body.length = sel[i].body := by
  have hsplit : sel.flatMap FramedContainer.body = (sel.take i).flatMap FramedContainer.body ++
      (sel[i].body ++ (sel.drop (i + 1)).flatMap FramedContainer.body) := by
    rw [← List.flatMap_cons, ← List.drop_eq_getElem_cons h, ← List.flatMap_append,
      List.take_append_drop]
  have hhead : assemble sel = (le 4 noRunContainerCookie ++ le 4 sel.length ++ table describe sel ++
      table (le 4) (offsetsFrom (8 + sel.length * 4 + sel.length * 4) sel) ++
      (sel.take i).flatMap FramedContainer.body) ++
      (sel[i].body ++ (sel.drop (i + 1)).flatMap FramedContainer.body) := by
    simp only [assemble, List.append_assoc, hsplit]
  rw [hhead]
  refine slice_middle _ _ _ _ _ ?_ rfl
  simp only [List.length_append, length_le, length_table length_describe,
    length_table (w := 4) (f := le 4) (length_le 4), length_offsetsFrom, length_flatMap_body, dataStart]
  omega

end RoaringRange
