import RoaringRange.Index

/-!
# The RRS writer (`build.rs`)

`writeIndexWith` lays out header, sparse index, dictionary and postings of an n-gram index.  A
`Corpus` is what such a file is made of: a posting per key, keys ascending, within the ranges of the
header's integer fields.  `Corpus.bytes` is its file, `Corpus.index` the index the reader keeps of it.

    writeIndexWith of a corpus' postings, in any order, is its file             (writeIndexWith_eq)
    open and from_boot of the file settle on the index                (settles_open, fromBoot_eq)
    a key's posting in the index is its posting in the corpus                    (postingOf_eq)
-/

namespace RoaringRange

open ByteString Faults Slices

/-! ## Writers -/

/-- `DEFAULT_HEAD_BOUNDARY`. -/
def defaultHeadBoundary : Nat := 65536

/-- `DEFAULT_STRIDE`. -/
def defaultStride : Nat := 512

section

variable [Roaring]

/-- `build::split_posting`. -/
def splitPosting (bm : Bitmap) (headBoundary : Nat) : Bytes × Bytes :=
  (serialize (bm.below headBoundary), serialize (bm.atLeast headBoundary))

/-- `build::serialize_posting`. -/
def serializePosting (bm : Bitmap) : Bytes := serialize bm

end

/-- `build::u32_len`. -/
def u32Len (n : Nat) (what : String) : Except String Nat :=
  if n < 2 ^ 32 then .ok n else .error (what ++ " size exceeds the 32-bit limit")

/-- `build::write_sparse_index`. -/
def writeSparseIndex (entries : List (Key × Bytes)) (sparseCount stride : Nat) : Bytes :=
  (List.range sparseCount).flatMap fun i => le 8 (entries.getD (i * stride) (zeroKey, [])).1.val

/-- The dictionary rows, the first posting at `off`. -/
def writeDict (off : Nat) : List (Key × Bytes) → Except String Bytes
  | [] => .ok []
  | (key, posting) :: entries => do
    let size ← u32Len posting.length "RRS posting"
    let rows ← writeDict (off + posting.length) entries
    pure (le 8 key.val ++ (le 8 off ++ le 4 size) ++ rows)

/-- The fixed header of an RRS file. -/
def rrsHeader (gramSize ngrams stride : Nat) (caseNormalization : Bool) : Bytes :=
  rrsMagic ++ (le 2 (if caseNormalization then formatVersion else formatVersionV4) ++ (le 2 gramSize ++
    (le 4 ngrams ++ (le 4 stride ++ if caseNormalization then [] else le 2 rrsiFlagCaseSensitive))))

/-- `build::write_index_with`. -/
def writeIndexWith (gramSize stride : Nat) (entries : List (Key × Bytes)) (caseNormalization : Bool) :
    Except String Bytes :=
  let entries := sortByKey Prod.fst entries
  if (entries.zip entries.tail).any fun w => w.1.1 == w.2.1 then
    .error "write_index requires distinct n-gram keys"
  else do
    let stride := if stride = 0 then defaultStride else stride
    let ngrams := entries.length % 2 ^ 32
    let sparseCount := if ngrams = 0 then 0 else (ngrams + stride - 1) / stride
    let headerSize := if caseNormalization then headerSize else headerSizeV4
    let dictStart := headerSize + sparseCount * 8
    let postingsStart := dictStart + entries.length * 20
    let dict ← writeDict postingsStart entries
    pure (rrsHeader gramSize ngrams stride caseNormalization ++ (writeSparseIndex entries sparseCount stride ++
      (dict ++ entries.flatMap Prod.snd)))

/-- `build::write_index`. -/
def writeIndex (gramSize stride : Nat) (entries : List (Key × Bytes)) : Except String Bytes :=
  writeIndexWith gramSize stride entries true

/-! ## The file of a corpus -/

/-- The rows of a dictionary whose first posting is at `off`. -/
def dictRecs (off : Nat) : List (Key × Bytes) → List DictRec
  | [] => []
  | (key, posting) :: entries => ⟨key, off, posting.length⟩ :: dictRecs (off + posting.length) entries

def dictRow (r : DictRec) : Bytes := le 8 r.key.val ++ (le 8 r.offset ++ le 4 r.size)

/-- A posting per key, and the parameters of its index file. -/
structure Corpus where
  gramSize : Nat
  stride : Nat
  caseFold : Bool
  posts : List (Key × Bitmap)
  gram_lt : gramSize < 2 ^ 16
  stride_pos : 0 < stride
  stride_lt : stride < 2 ^ 32
  asc : posts.Pairwise (fun a b => a.1 < b.1)
  count_lt : posts.length < 2 ^ 32

theorem trigram_lt : 3 < 2 ^ 16 := by decide

theorem length_dictRow (r : DictRec) : (dictRow r).length = 20 := by simp [dictRow]

section

variable {off : Nat} {entries : List (Key × Bytes)}

@[simp] theorem length_dictRecs : (dictRecs off entries).length = entries.length := by
  induction entries generalizing off with
  | nil => rfl
  | cons e entries ih => simp [dictRecs, ih]

theorem map_key_dictRecs : (dictRecs off entries).map DictRec.key = entries.map Prod.fst := by
  induction entries generalizing off with
  | nil => rfl
  | cons e entries ih => simp [dictRecs, ih]

theorem writeDict_eq (h : ∀ e ∈ entries, e.2.length < 2 ^ 32) :
    writeDict off entries = .ok (table dictRow (dictRecs off entries)) := by
  induction entries generalizing off with
  | nil => rfl
  | cons e entries ih =>
    obtain ⟨key, posting⟩ := e
    have hlen : posting.length < 2 ^ 32 := h _ List.mem_cons_self
    rw [writeDict, u32Len, if_pos hlen, ih fun e he => h e (List.mem_cons_of_mem _ he)]
    rfl

/-- Every row names its entry's bytes in the posting area. -/
theorem dictRecs_slice {area : Bytes} {pre : Bytes} (hpre : pre.length = off) :
    List.Forall₂ (fun r e => r.offset + r.size ≤ (pre ++ (entries.flatMap Prod.snd ++ area)).length ∧
      r.size = e.2.length ∧ slice (pre ++ (entries.flatMap Prod.snd ++ area)) r.offset r.size = e.2)
      (dictRecs off entries) entries := by
  induction entries generalizing off pre with
  | nil => exact List.Forall₂.nil
  | cons e entries ih =>
    obtain ⟨key, posting⟩ := e
    refine List.Forall₂.cons ⟨?_, rfl, ?_⟩ ?_
    · simp only [List.flatMap_cons, List.length_append, hpre]
      omega
    · rw [List.flatMap_cons, List.append_assoc]
      exact slice_middle _ _ _ _ _ hpre.symm rfl
    · have := @ih (off + posting.length) (pre ++ posting) (by simp [hpre])
      simpa only [List.flatMap_cons, List.append_assoc] using this

end

/-! ## Searching a dictionary block -/

section

variable {rs : List DictRec} {key : Key}

theorem getKey_table {i : Nat} (hi : i < rs.length) : getKey (table dictRow rs) (i * dictEntry) = rs[i].key := by
  have h : getLe 8 (table dictRow rs) (i * 20 + 0) = getLe 8 (dictRow rs[i]) 0 :=
    getLe_table length_dictRow rs i hi 8 0 (by omega)
  rw [Nat.add_zero] at h
  unfold getKey dictEntry
  rw [h, dictRow, getLe_field rs[i].key.isLt]
  exact Fin.ofNat_val_eq_self _

theorem row_table {i : Nat} (hi : i < rs.length) (ho : rs[i].offset < 2 ^ 64) (hs : rs[i].size < 2 ^ 32) :
    (⟨rs[i].key, getLe 8 (table dictRow rs) (i * dictEntry + 8),
      getLe 4 (table dictRow rs) (i * dictEntry + 16)⟩ : DictRec) = rs[i] := by
  have h8 : getLe 8 (table dictRow rs) (i * dictEntry + 8) = getLe 8 (dictRow rs[i]) 8 :=
    getLe_table length_dictRow rs i hi 8 8 (by omega)
  have h16 : getLe 4 (table dictRow rs) (i * dictEntry + 16) = getLe 4 (dictRow rs[i]) 16 :=
    getLe_table length_dictRow rs i hi 4 16 (by omega)
  have e8 : getLe 8 (dictRow rs[i]) 8 = rs[i].offset := by
    rw [dictRow]
    exact (getLe_le_skip 8 8 _ _ 0).trans (getLe_field ho _)
  have e16 : getLe 4 (dictRow rs[i]) 16 = rs[i].size := by
    rw [dictRow]
    exact (getLe_le_skip 4 8 _ _ 8).trans ((getLe_le_skip 4 8 _ _ 0).trans (getLe_last hs))
  rw [h8, h16, e8, e16]

theorem find?_eq_getElem (hasc : rs.Pairwise fun a b => a.key < b.key) {i : Nat} (hi : i < rs.length)
    (hk : rs[i].key = key) : rs.find? (fun r => r.key == key) = some rs[i] := by
  rw [List.find?_eq_some_iff_getElem]
  refine ⟨by simp [hk], i, hi, rfl, fun j hj => ?_⟩
  have hlt := List.pairwise_iff_getElem.mp hasc j i (by omega) hi hj
  rw [hk] at hlt
  simpa using ne_of_lt hlt

/-- The binary search of a block finds the row of the key. -/
theorem parseBlockLoop_eq (hasc : rs.Pairwise fun a b => a.key < b.key)
    (hwf : ∀ r ∈ rs, r.offset < 2 ^ 64 ∧ r.size < 2 ^ 32) :
    ∀ (fuel lo hi : Nat), hi - lo ≤ fuel → hi ≤ rs.length →
      (∀ (j : Nat) (hj : j < rs.length), j < lo → rs[j].key < key) →
      (∀ (j : Nat) (hj : j < rs.length), hi ≤ j → key < rs[j].key) →
      Index.parseBlockLoop (table dictRow rs) key fuel lo hi = rs.find? (fun r => r.key == key) := by
  have hnone : ∀ lo hi : Nat, hi ≤ lo → (∀ (j : Nat) (hj : j < rs.length), j < lo → rs[j].key < key) →
      (∀ (j : Nat) (hj : j < rs.length), hi ≤ j → key < rs[j].key) →
      rs.find? (fun r => r.key == key) = none := by
    intro lo hi hle h1 h2
    rw [List.find?_eq_none]
    intro r hr
    obtain ⟨j, hj, rfl⟩ := List.getElem_of_mem hr
    rcases Nat.lt_or_ge j lo with hlt | hge
    · simpa using ne_of_lt (h1 j hj hlt)
    · simpa using (ne_of_lt (h2 j hj (by omega))).symm
  intro fuel
  induction fuel with
  | zero =>
    intro lo hi hf _ h1 h2
    rw [Index.parseBlockLoop, hnone lo hi (by omega) h1 h2]
  | succ fuel ih =>
    intro lo hi hf hh h1 h2
    unfold Index.parseBlockLoop
    split
    · next hlt =>
      have hmid : lo + (hi - lo) / 2 < rs.length := by omega
      simp only
      rw [getKey_table hmid]
      have hmono : ∀ (i j : Nat) (hi : i < rs.length) (hj : j < rs.length), i < j → rs[i].key < rs[j].key :=
        fun i j hi hj hij => List.pairwise_iff_getElem.mp hasc i j hi hj hij
      split
      · next hlow =>
        refine ih _ _ (by omega) hh (fun j hj hjlt => ?_) h2
        rcases Nat.lt_or_ge j (lo + (hi - lo) / 2) with hjm | hjm
        · exact lt_trans (hmono _ _ hj hmid hjm) hlow
        · have : j = lo + (hi - lo) / 2 := by omega
          subst this
          exact hlow
      · split
        · next hhigh =>
          refine ih _ _ (by omega) (by omega) h1 (fun j hj hjge => ?_)
          rcases Nat.eq_or_lt_of_le hjge with hjm | hjm
          · subst hjm
            exact hhigh
          · exact lt_trans hhigh (hmono _ _ hmid hj hjm)
        · next hnlow hnhigh =>
          have hkey : rs[lo + (hi - lo) / 2].key = key := le_antisymm (not_lt.mp hnhigh) (not_lt.mp hnlow)
          rw [find?_eq_getElem hasc hmid hkey]
          obtain ⟨ho, hs⟩ := hwf _ (List.getElem_mem hmid)
          rw [← row_table hmid ho hs, hkey]
    · next hge => exact (hnone lo hi (by omega) h1 h2).symm

theorem parseBlock_eq (hasc : rs.Pairwise fun a b => a.key < b.key)
    (hwf : ∀ r ∈ rs, r.offset < 2 ^ 64 ∧ r.size < 2 ^ 32) :
    Index.parseBlock (table dictRow rs) rs.length key = rs.find? (fun r => r.key == key) :=
  parseBlockLoop_eq hasc hwf _ _ _ (by omega) (Nat.le_refl _) (fun _ _ h => absurd h (by omega))
    (fun _ hj h => absurd hj (by omega))

end

/-! ## The index of a corpus' file -/

namespace Corpus

def sparseCount (c : Corpus) : Nat := RoaringRange.sparseCount c.posts.length c.stride

def headerLen (c : Corpus) : Nat := if c.caseFold then headerSize else headerSizeV4

def dictStart (c : Corpus) : Nat := c.headerLen + c.sparseCount * 8

def postingsStart (c : Corpus) : Nat := c.dictStart + c.posts.length * 20

/-- Every `stride`-th key. -/
def sparseKeys (c : Corpus) : List Key :=
  (List.range c.sparseCount).map fun i => (c.posts.getD (i * c.stride) (zeroKey, ∅)).1

section

variable {c : Corpus}

theorem sparseCount_eq (c : Corpus) : c.sparseCount =
    if c.posts.length = 0 then 0 else (c.posts.length + c.stride - 1) / c.stride := by
  have hs : c.stride ≠ 0 := by
    have := c.stride_pos
    omega
  simp only [sparseCount, RoaringRange.sparseCount, hs, or_false]

theorem sparse_lt {b : Nat} (hb : b < c.sparseCount) : b * c.stride < c.posts.length := by
  rw [sparseCount_eq] at hb
  split at hb
  · omega
  · have hs := c.stride_pos
    have h1 : b * c.stride + c.stride ≤ c.posts.length + c.stride - 1 := by
      have := Nat.mul_le_of_le_div c.stride (b + 1) (c.posts.length + c.stride - 1) (by omega)
      rwa [Nat.add_mul, Nat.one_mul] at this
    omega

theorem le_sparse (c : Corpus) : c.posts.length ≤ c.sparseCount * c.stride := by
  rw [sparseCount_eq]
  split
  · omega
  · have hs := c.stride_pos
    have h := Nat.div_add_mod (c.posts.length + c.stride - 1) c.stride
    have hm := Nat.mod_lt (c.posts.length + c.stride - 1) hs
    rw [Nat.mul_comm] at h
    omega

theorem sparseCount_le (c : Corpus) : c.sparseCount ≤ c.posts.length := by
  rw [sparseCount_eq]
  split
  · omega
  · have hs := c.stride_pos
    rw [Nat.div_le_iff_le_mul hs]
    have h : c.posts.length * 1 ≤ c.posts.length * c.stride := Nat.mul_le_mul_left _ hs
    omega

@[simp] theorem length_sparseKeys (c : Corpus) : c.sparseKeys.length = c.sparseCount := by
  rw [sparseKeys, List.length_map, List.length_range]

theorem length_rrsHeader (gramSize ngrams stride : Nat) (cn : Bool) :
    (rrsHeader gramSize ngrams stride cn).length = if cn then headerSize else headerSizeV4 := by
  cases cn <;> simp [rrsHeader, rrsMagic, headerSize, headerSizeV4]

end

section

variable [Roaring]

def entries (c : Corpus) : List (Key × Bytes) := c.posts.map fun p => (p.1, serializePosting p.2)

def recs (c : Corpus) : List DictRec := dictRecs c.postingsStart c.entries

/-- The file. -/
def bytes (c : Corpus) : Bytes :=
  rrsHeader c.gramSize c.posts.length c.stride c.caseFold ++
    (table (fun k : Key => le 8 k.val) c.sparseKeys ++ (table dictRow c.recs ++ c.entries.flatMap Prod.snd))

/-- What a reader keeps of the file behind `f`. -/
def index (c : Corpus) (f : MemoryFetch) : Index :=
  ⟨f, c.gramSize, c.posts.length, c.stride, c.dictStart, c.sparseKeys, c.caseFold⟩

/-- The posting of a key. -/
def posting (c : Corpus) (key : Key) : Option Bitmap := (c.posts.find? fun p => p.1 == key).map Prod.snd

variable {c : Corpus}

@[simp] theorem length_entries (c : Corpus) : c.entries.length = c.posts.length := List.length_map _

@[simp] theorem length_recs (c : Corpus) : c.recs.length = c.posts.length := by
  rw [recs, length_dictRecs, length_entries]

omit [Roaring] in
theorem length_sparse (c : Corpus) :
    (table (fun k : Key => le 8 k.val) c.sparseKeys).length = c.sparseCount * 8 := by
  rw [length_table (fun k : Key => length_le 8 k.val), length_sparseKeys]

theorem length_dict (c : Corpus) : (table dictRow c.recs).length = c.posts.length * 20 := by
  rw [length_table length_dictRow, length_recs]

theorem entry_length_lt {e : Key × Bytes} (he : e ∈ c.entries) : e.2.length < 2 ^ 30 := by
  obtain ⟨p, -, rfl⟩ := List.mem_map.mp he
  exact Roaring.length_serialize_lt p.2

omit [Roaring] in
theorem length_flatMap_snd_le {es : List (Key × Bytes)} (h : ∀ e ∈ es, e.2.length < 2 ^ 30) :
    (es.flatMap Prod.snd).length ≤ es.length * 2 ^ 30 := by
  induction es with
  | nil => simp
  | cons e es ih =>
    have h1 := h e List.mem_cons_self
    have h2 := ih fun x hx => h x (List.mem_cons_of_mem _ hx)
    simp only [List.flatMap_cons, List.length_append, List.length_cons]
    omega

/-- The file is far from the end of the address space, of signed offsets too. -/
theorem length_bytes_lt_half (c : Corpus) : c.bytes.length < 2 ^ 63 := by
  have h1 := length_flatMap_snd_le fun e (he : e ∈ c.entries) => entry_length_lt he
  have h2 := c.count_lt
  have h3 := c.sparseCount_le
  have h4 : c.headerLen ≤ 18 := by
    unfold headerLen
    split <;> decide
  rw [length_entries] at h1
  rw [bytes, List.length_append, List.length_append, List.length_append, length_rrsHeader, length_sparse,
    length_dict, ← headerLen]
  omega

theorem length_bytes_lt (c : Corpus) : c.bytes.length < u64Bound :=
  Nat.lt_trans c.length_bytes_lt_half (by decide)

theorem slice_dict (c : Corpus) {b n : Nat} (h : b + n ≤ c.posts.length) :
    slice c.bytes (c.dictStart + b * 20) (n * 20) = table dictRow ((c.recs.drop b).take n) := by
  rw [bytes, slice_append_right _ _ _ _ (by rw [length_rrsHeader, ← headerLen, dictStart]; omega),
    slice_append_right _ _ _ _ (by rw [length_rrsHeader, ← headerLen, length_sparse, dictStart]; omega),
    slice_append_left _ _ _ _ (by
      rw [length_rrsHeader, ← headerLen, length_sparse, length_dict, dictStart]
      omega)]
  have ho : c.dictStart + b * 20 - (rrsHeader c.gramSize c.posts.length c.stride c.caseFold).length -
      (table (fun k : Key => le 8 k.val) c.sparseKeys).length = b * 20 := by
    rw [length_rrsHeader, ← headerLen, length_sparse, dictStart]
    omega
  rw [ho]
  exact slice_table_run length_dictRow _ _ _ (by rw [length_recs]; exact h)

theorem length_bytes (c : Corpus) :
    c.bytes.length = c.postingsStart + (c.entries.flatMap Prod.snd).length := by
  rw [bytes, List.length_append, List.length_append, List.length_append, length_rrsHeader, length_sparse,
    length_dict, ← headerLen, postingsStart, dictStart]
  omega

/-- The rows name the postings. -/
theorem recs_slice (c : Corpus) : List.Forall₂ (fun r e => r.offset + r.size ≤ c.bytes.length ∧
    r.size = e.2.length ∧ slice c.bytes r.offset r.size = e.2) c.recs c.entries := by
  have heq : c.bytes = rrsHeader c.gramSize c.posts.length c.stride c.caseFold ++
      (table (fun k : Key => le 8 k.val) c.sparseKeys ++ table dictRow c.recs) ++
        (c.entries.flatMap Prod.snd ++ []) := by
    simp only [bytes, List.append_assoc, List.append_nil]
  rw [heq]
  refine dictRecs_slice ?_
  rw [List.length_append, List.length_append, length_rrsHeader, length_sparse, length_dict, ← headerLen,
    postingsStart, dictStart]
  omega

theorem recs_asc (c : Corpus) : c.recs.Pairwise fun a b => a.key < b.key := by
  have h : (c.recs.map DictRec.key).Pairwise (· < ·) := by
    rw [recs, map_key_dictRecs, entries, List.map_map, List.pairwise_map]
    exact c.asc
  exact List.pairwise_map.mp h

theorem recs_fit (c : Corpus) : ∀ r ∈ c.recs, r.offset < 2 ^ 64 ∧ r.size < 2 ^ 32 := by
  intro r hr
  have hlt := c.length_bytes_lt
  obtain ⟨i, hi, rfl⟩ := List.getElem_of_mem hr
  have hi' : i < c.entries.length := by rw [length_entries, ← length_recs]; exact hi
  obtain ⟨h1, h2, -⟩ := (List.forall₂_iff_get.mp c.recs_slice).2 i hi hi'
  have h3 := entry_length_lt (c := c) (List.getElem_mem hi')
  simp only [List.get_eq_getElem] at h1 h2
  unfold u64Bound at hlt
  constructor
  · omega
  · rw [h2]
    omega

theorem key_recs {i : Nat} (hi : i < c.recs.length) :
    c.recs[i].key = (getElem c.posts i (by rw [← length_recs]; exact hi)).1 := by
  have h : getElem (c.recs.map DictRec.key) i (by rw [List.length_map]; exact hi) =
      getElem (c.entries.map Prod.fst) i (by rw [List.length_map, length_entries, ← length_recs]; exact hi) := by
    congr 1
    exact map_key_dictRecs
  simpa [entries] using h

theorem sparse_getElem {b : Nat} (hb : b < c.sparseCount) :
    getElem c.sparseKeys b (by rw [length_sparseKeys]; exact hb) =
      (getElem c.recs (b * c.stride) (by rw [length_recs]; exact sparse_lt hb)).key := by
  rw [key_recs]
  simp only [sparseKeys, List.getElem_map, List.getElem_range]
  rw [List.getD_eq_getElem _ _ (sparse_lt hb)]

theorem recs_lt (c : Corpus) {i j : Nat} (hi : i < c.recs.length) (hj : j < c.recs.length) (hij : i < j) :
    c.recs[i].key < c.recs[j].key := List.pairwise_iff_getElem.mp c.recs_asc i j hi hj hij

/-- The rows before a block that starts at the key or below it. -/
theorem recs_before {b : Nat} {key : Key} (hb : b < c.sparseCount)
    (hle : getElem c.sparseKeys b (by rw [length_sparseKeys]; exact hb) ≤ key) {j : Nat} (h : j < c.recs.length)
    (hj : j < b * c.stride) : c.recs[j].key < key := by
  rw [sparse_getElem hb] at hle
  exact lt_of_lt_of_le (c.recs_lt h _ hj) hle

/-- The rows from a block on that starts past the key, or is not there. -/
theorem recs_behind {b : Nat} {key : Key}
    (hlt : ∀ hb : b < c.sparseCount, key < getElem c.sparseKeys b (by rw [length_sparseKeys]; exact hb))
    {j : Nat} (h : j < c.recs.length) (hj : b * c.stride ≤ j) : key < c.recs[j].key := by
  have hb : b < c.sparseCount := by
    by_contra hge
    have h1 := Nat.mul_le_mul_right c.stride (Nat.not_lt.mp hge)
    have h2 := c.le_sparse
    rw [length_recs] at h
    omega
  have hk := hlt hb
  rw [sparse_getElem hb] at hk
  rcases Nat.eq_or_lt_of_le hj with rfl | hjlt
  · exact hk
  · exact lt_trans hk (c.recs_lt _ h hjlt)

/-- The block of a key, if any: all rows before it have smaller keys, all rows behind it larger ones. -/
theorem dictBlockFor_spec (c : Corpus) (f : MemoryFetch) (key : Key) :
    match (c.index f).dictBlockFor key with
    | none => ∀ r ∈ c.recs, key < r.key
    | some blk => ∃ b, b < c.sparseCount ∧ blk = (c.index f).block b ∧
        (∀ (j : Nat) (h : j < c.recs.length), j < b * c.stride → c.recs[j].key < key) ∧
        ∀ (j : Nat) (h : j < c.recs.length), b * c.stride + c.stride ≤ j → key < c.recs[j].key := by
  unfold Index.dictBlockFor
  have hng : (c.index f).ngrams = c.posts.length := rfl
  have hsp : (c.index f).sparseKeys = c.sparseKeys := rfl
  rw [hng, hsp]
  split
  · next heq =>
    split at heq
    · next h0 =>
      intro r hr
      have := List.length_pos_of_mem hr
      rw [length_recs] at this
      omega
    · have hspec := binarySearch_spec c.sparseKeys key
      split at heq
      · cases heq
      · next h0 hbs =>
        rw [hbs] at hspec
        intro r hr
        obtain ⟨j, hj, rfl⟩ := List.getElem_of_mem hr
        refine c.recs_behind (fun hb => hspec.2.2 (by rw [length_sparseKeys]; exact hb)) hj (by omega)
      · cases heq
  · next blk heq =>
    split at heq
    · cases heq
    · have hspec := binarySearch_spec c.sparseKeys key
      split at heq
      · next i hbs =>
        rw [hbs] at hspec
        obtain ⟨⟨hi, hik⟩, hlow⟩ := hspec
        rw [length_sparseKeys] at hi
        refine ⟨i, hi, (Option.some.inj heq).symm, fun j h hj => c.recs_before hi (le_of_eq hik) h hj, fun j h hj => ?_⟩
        refine c.recs_behind (b := i + 1) (fun hb => ?_) h (by rw [Nat.add_mul, Nat.one_mul]; exact hj)
        rw [sparse_getElem hb, ← hik, sparse_getElem hi]
        refine c.recs_lt _ _ ?_
        have := c.stride_pos
        rw [Nat.add_mul]
        omega
      · cases heq
      · next i hbs =>
        rw [hbs] at hspec
        obtain ⟨hi, hlow, hhigh⟩ := hspec
        rw [length_sparseKeys] at hi
        refine ⟨i, by omega, (Option.some.inj heq).symm, fun j h hj => c.recs_before (by omega) ?_ h hj,
          fun j h hj => ?_⟩
        · exact le_of_lt (hlow i (by rw [length_sparseKeys]; omega) (by omega))
        · exact c.recs_behind (b := i + 1) (fun hb => hhigh (by rw [length_sparseKeys]; exact hb)) h
            (by rw [Nat.add_mul, Nat.one_mul]; exact hj)

/-- The rows of block `b`. -/
def blockRecs (c : Corpus) (b : Nat) : List DictRec :=
  (c.recs.drop (b * c.stride)).take (min c.stride (c.posts.length - b * c.stride))

theorem length_blockRecs {b : Nat} (hb : b < c.sparseCount) :
    (c.blockRecs b).length = min c.stride (c.posts.length - b * c.stride) := by
  have hlt := sparse_lt hb
  rw [blockRecs, List.length_take, List.length_drop, length_recs]
  omega

theorem blockRecs_sublist (c : Corpus) (b : Nat) : (c.blockRecs b).Sublist c.recs :=
  (List.take_sublist _ _).trans (List.drop_sublist _ _)

/-- A key between the rows before a block and those behind it has its row, if any, in the block. -/
theorem find?_blockRecs {b : Nat} {key : Key} (hb : b < c.sparseCount)
    (hbefore : ∀ (j : Nat) (h : j < c.recs.length), j < b * c.stride → c.recs[j].key < key)
    (hbehind : ∀ (j : Nat) (h : j < c.recs.length), b * c.stride + c.stride ≤ j → key < c.recs[j].key) :
    (c.blockRecs b).find? (fun r => r.key == key) = c.recs.find? fun r => r.key == key := by
  have hlt := sparse_lt hb
  have hsplit : c.recs = c.recs.take (b * c.stride) ++
      (c.blockRecs b ++ (c.recs.drop (b * c.stride)).drop (min c.stride (c.posts.length - b * c.stride))) := by
    rw [blockRecs, List.take_append_drop, List.take_append_drop]
  conv => rhs; rw [hsplit]
  have hpre : (c.recs.take (b * c.stride)).find? (fun r => r.key == key) = none := by
    rw [List.find?_eq_none]
    intro r hr
    obtain ⟨j, hj, rfl⟩ := List.getElem_of_mem hr
    rw [List.length_take] at hj
    rw [List.getElem_take]
    simpa using ne_of_lt (hbefore j (by omega) (by omega))
  have hpost : ((c.recs.drop (b * c.stride)).drop (min c.stride (c.posts.length - b * c.stride))).find?
      (fun r => r.key == key) = none := by
    rw [List.find?_eq_none]
    intro r hr
    obtain ⟨j, hj, rfl⟩ := List.getElem_of_mem hr
    rw [List.length_drop, List.length_drop, length_recs] at hj
    rw [List.getElem_drop, List.getElem_drop]
    have := hbehind (b * c.stride + (min c.stride (c.posts.length - b * c.stride) + j))
      (by rw [length_recs]; omega) (by omega)
    simpa using (ne_of_lt this).symm
  rw [List.find?_append, hpre, Option.none_or, List.find?_append, hpost, Option.or_none]

/-- A key's row is found through its block. -/
theorem findRec_eq (c : Corpus) (key : Key) :
    (c.index (MemoryFetch.new c.bytes)).findRec key = c.recs.find? fun r => r.key == key := by
  have hspec := dictBlockFor_spec c (MemoryFetch.new c.bytes) key
  unfold Index.findRec
  cases hblk : (c.index (MemoryFetch.new c.bytes)).dictBlockFor key with
  | none =>
    rw [hblk] at hspec
    symm
    simp only [Option.bind_none, List.find?_eq_none]
    intro r hr
    simpa using (ne_of_lt (hspec r hr)).symm
  | some blk =>
    rw [hblk] at hspec
    obtain ⟨b, hb, rfl, hbefore, hbehind⟩ := hspec
    have hlt := sparse_lt hb
    simp only [Option.bind_some]
    have hent : ((c.index (MemoryFetch.new c.bytes)).block b).entries =
        min c.stride (c.posts.length - b * c.stride) := rfl
    have hbytes : (c.index (MemoryFetch.new c.bytes)).blockBytes
        ((c.index (MemoryFetch.new c.bytes)).block b) = table dictRow (c.blockRecs b) := by
      show slice c.bytes (c.dictStart + b * c.stride * 20) (min c.stride (c.posts.length - b * c.stride) * 20) = _
      exact slice_dict c (by omega)
    have hsub := c.blockRecs_sublist b
    rw [hent, hbytes, ← length_blockRecs hb,
      parseBlock_eq (c.recs_asc.sublist hsub) fun r hr => c.recs_fit r (hsub.subset hr)]
    exact find?_blockRecs hb hbefore hbehind

/-- The rows are the postings': of the key, and with the bytes of the set. -/
theorem recs_posts (c : Corpus) : List.Forall₂ (fun r p => r.key = p.1 ∧ r.offset + r.size ≤ c.bytes.length ∧
    r.size = (serialize p.2).length ∧ slice c.bytes r.offset r.size = serialize p.2) c.recs c.posts := by
  refine List.forall₂_iff_get.mpr ⟨c.length_recs, fun i hi hi' => ?_⟩
  have hent : i < c.entries.length := by rwa [length_entries]
  obtain ⟨h1, h2, h3⟩ := (List.forall₂_iff_get.mp c.recs_slice).2 i hi hent
  have hpost : c.entries[i].2 = serialize c.posts[i].2 := by simp [entries, serializePosting]
  simp only [List.get_eq_getElem] at h1 h2 h3 ⊢
  rw [hpost] at h2 h3
  exact ⟨key_recs hi, h1, h2, h3⟩

theorem recs_postingAt (c : Corpus) {r : DictRec} {p : Key × Bitmap} (hle : r.offset + r.size ≤ c.bytes.length)
    (hslice : slice c.bytes r.offset r.size = serialize p.2) :
    PostingAt (MemoryFetch.new c.bytes) r.offset r.size p.2 := by
  refine ⟨MemoryFetch.inFile_new c.length_bytes_lt hle, ?_⟩
  show Represents (slice c.bytes _ _) _
  rw [hslice]
  exact represents_serialize _

/-- The index of a corpus' file can be read. -/
theorem wellFormed (c : Corpus) : (c.index (MemoryFetch.new c.bytes)).WellFormed where
  block := by
    intro key blk h
    have hspec := dictBlockFor_spec c (MemoryFetch.new c.bytes) key
    rw [h] at hspec
    obtain ⟨b, hb, rfl, -, -⟩ := hspec
    have hlt := sparse_lt hb
    refine MemoryFetch.inFile_new c.length_bytes_lt ?_
    show c.dictStart + b * c.stride * 20 + min c.stride (c.posts.length - b * c.stride) * 20 ≤ _
    rw [length_bytes, postingsStart]
    omega
  posting := by
    intro key r h
    rw [findRec_eq] at h
    obtain ⟨p, -, -, hle, -, hslice⟩ := exists_partner c.recs_posts (List.mem_of_find?_eq_some h)
    exact ⟨_, c.recs_postingAt hle hslice⟩

/-- **A key's posting in the file is its posting in the corpus.** -/
theorem postingOf_eq (c : Corpus) (key : Key) :
    (c.index (MemoryFetch.new c.bytes)).postingOf key = c.posting key := by
  unfold Index.postingOf posting
  rw [findRec_eq]
  rcases find?_forall₂ c.recs_posts (p := fun r => r.key == key) (q := fun p => p.1 == key)
    (fun r p h => by rw [h.1]) with ⟨hr, hp⟩ | ⟨r, p, hr, hp, -, hle, -, hslice⟩
  · rw [hr, hp]
    rfl
  · rw [hr, hp, Option.map_some, Option.map_some, Index.postingSet_eq (c.recs_postingAt hle hslice)]

/-! ## Writing and opening -/

theorem keys_entries (c : Corpus) : c.entries.map Prod.fst = c.posts.map Prod.fst := by
  rw [entries, List.map_map]
  rfl

omit [Roaring] in
/-- The sparse index is of the keys alone. -/
theorem writeSparseIndex_eq (c : Corpus) {es : List (Key × Bytes)} (h : es.map Prod.fst = c.posts.map Prod.fst) :
    writeSparseIndex es c.sparseCount c.stride = table (fun k : Key => le 8 k.val) c.sparseKeys := by
  rw [writeSparseIndex, table, sparseKeys, List.flatMap_map, List.flatMap_def, List.flatMap_def]
  congr 1
  refine List.map_congr_left fun i hi => ?_
  have hlt := sparse_lt (List.mem_range.mp hi)
  have hlen : es.length = c.posts.length := by
    have := congrArg List.length h
    rwa [List.length_map, List.length_map] at this
  have hget : (es[i * c.stride]?).map Prod.fst = (c.posts[i * c.stride]?).map Prod.fst := by
    rw [← List.getElem?_map, ← List.getElem?_map, h]
  rw [List.getElem?_eq_getElem hlt, List.getElem?_eq_getElem (by omega)] at hget
  rw [List.getD_eq_getElem _ _ (by omega), List.getD_eq_getElem _ _ hlt, Option.some.inj hget]

/-- **The writer's file**: the postings of a corpus, in any order. -/
theorem writeIndexWith_eq (c : Corpus) {stride : Nat} (hs : (if stride = 0 then defaultStride else stride) = c.stride)
    {entries : List (Key × Bytes)} (hp : entries.Perm c.entries) :
    writeIndexWith c.gramSize stride entries c.caseFold = .ok c.bytes := by
  have hasc : c.entries.Pairwise fun a b => a.1 < b.1 := by
    rw [Corpus.entries, List.pairwise_map]
    exact c.asc
  have hdup : ((c.entries.zip c.entries.tail).any fun w => w.1.1 == w.2.1) = false := by
    rw [List.any_eq_false]
    intro w hw
    obtain ⟨i, hi, rfl⟩ := List.getElem_of_mem hw
    rw [List.length_zip, List.length_tail] at hi
    rw [List.getElem_zip, List.getElem_tail]
    simpa using ne_of_lt (List.pairwise_iff_getElem.mp hasc i (i + 1) (by omega) (by omega) (by omega))
  have hlen : c.entries.length % 2 ^ 32 = c.posts.length := by
    rw [length_entries]
    exact Nat.mod_eq_of_lt c.count_lt
  have hsparse := c.writeSparseIndex_eq c.keys_entries
  unfold writeIndexWith
  rw [sortByKey_eq_of_perm hp hasc]
  simp only [hdup, Bool.false_eq_true, if_false, hs, hlen]
  rw [← sparseCount_eq, hsparse, length_entries]
  have hstart : (if c.caseFold = true then headerSize else headerSizeV4) + c.sparseCount * 8 +
      c.posts.length * 20 = c.postingsStart := rfl
  rw [hstart, writeDict_eq fun e he => Nat.lt_trans (entry_length_lt he) (by decide)]
  rfl

omit [Roaring] in
/-- The fields of a header. -/
theorem rrsHeader_fields {gramSize ngrams stride : Nat} (hg : gramSize < 2 ^ 16) (hn : ngrams < 2 ^ 32)
    (hs : stride < 2 ^ 32) (cf : Bool) (rest : Bytes) :
    slice (rrsHeader gramSize ngrams stride cf ++ rest) 0 4 = rrsMagic ∧
    getLe 2 (rrsHeader gramSize ngrams stride cf ++ rest) 4 = (if cf then formatVersion else formatVersionV4) ∧
    getLe 2 (rrsHeader gramSize ngrams stride cf ++ rest) 6 = gramSize ∧
    getLe 4 (rrsHeader gramSize ngrams stride cf ++ rest) 8 = ngrams ∧
    getLe 4 (rrsHeader gramSize ngrams stride cf ++ rest) 12 = stride ∧
    (cf = false → getLe 2 (rrsHeader gramSize ngrams stride cf ++ rest) 16 = rrsiFlagCaseSensitive) := by
  have hmagic : ∀ (w off : Nat) (x : Bytes), getLe w (rrsMagic ++ x) (4 + off) = getLe w x off := by
    intro w off x
    rw [getLe_append_right _ _ _ _ (by simp [rrsMagic])]
    congr 1
    simp [rrsMagic]
  unfold rrsHeader
  simp only [List.append_assoc]
  refine ⟨?_, ?_, ?_, ?_, ?_, ?_⟩
  · rw [slice_append_left _ _ _ _ (by simp [rrsMagic])]
    rfl
  · refine (hmagic 2 0 _).trans (getLe_field ?_ _)
    cases cf <;> decide
  · exact (hmagic 2 2 _).trans ((getLe_le_skip 2 2 _ _ 0).trans (getLe_field hg _))
  · exact (hmagic 4 4 _).trans ((getLe_le_skip 4 2 _ _ 2).trans ((getLe_le_skip 4 2 _ _ 0).trans
      (getLe_field hn _)))
  · exact (hmagic 4 8 _).trans ((getLe_le_skip 4 2 _ _ 6).trans ((getLe_le_skip 4 2 _ _ 4).trans
      ((getLe_le_skip 4 4 _ _ 0).trans (getLe_field hs _))))
  · rintro rfl
    refine (hmagic 2 12 _).trans ((getLe_le_skip 2 2 _ _ 10).trans ((getLe_le_skip 2 2 _ _ 8).trans
      ((getLe_le_skip 2 4 _ _ 4).trans ((getLe_le_skip 2 4 _ _ 0).trans ?_))))
    exact getLe_field (by decide) _

theorem bytes_fields (c : Corpus) :
    slice c.bytes 0 4 = rrsMagic ∧ getLe 2 c.bytes 4 = (if c.caseFold then formatVersion else formatVersionV4) ∧
      getLe 2 c.bytes 6 = c.gramSize ∧ getLe 4 c.bytes 8 = c.posts.length ∧ getLe 4 c.bytes 12 = c.stride ∧
      (c.caseFold = false → getLe 2 c.bytes 16 = rrsiFlagCaseSensitive) :=
  rrsHeader_fields c.gram_lt c.count_lt c.stride_lt c.caseFold _

omit [Roaring] in
theorem headerLen_le (c : Corpus) : headerSize ≤ c.headerLen ∧ c.headerLen ≤ 18 := by
  unfold headerLen
  split <;> decide

theorem dictStart_le_length (c : Corpus) : c.dictStart ≤ c.bytes.length := by
  rw [length_bytes, postingsStart]
  omega

omit [Roaring] in
theorem sparseLayout_eq (c : Corpus) :
    sparseLayout c.posts.length c.stride = .ok (c.sparseCount, c.sparseCount * 8) := by
  have hs := c.stride_pos
  have h1 := c.sparseCount_le
  have h2 := c.count_lt
  have h3 : RoaringRange.sparseCount c.posts.length c.stride = c.sparseCount := rfl
  rw [sparseLayout, if_neg (by omega), h3, if_neg (by unfold u64Bound; omega)]

/-- The sparse keys are read back, from any copy of the boot region. -/
theorem parseSparse_eq (c : Corpus) {b : Bytes} {off : Nat}
    (h : slice b off (c.sparseCount * 8) = slice c.bytes c.headerLen (c.sparseCount * 8)) :
    parseSparse b off c.sparseCount = c.sparseKeys := by
  have hsl : slice c.bytes c.headerLen (c.sparseCount * 8) = table (fun k : Key => le 8 k.val) c.sparseKeys := by
    rw [bytes]
    exact slice_middle _ _ _ _ _ (length_rrsHeader _ _ _ _).symm (length_sparse c).symm
  refine List.ext_getElem (by rw [length_sparseKeys]; simp [parseSparse]) fun i h1 h2 => ?_
  rw [length_sparseKeys] at h2
  simp only [parseSparse, List.getElem_map, List.getElem_range, getKey]
  have hle : i * 8 + 8 ≤ c.sparseCount * 8 := by omega
  have hi : i < c.sparseKeys.length := by rw [length_sparseKeys]; exact h2
  rw [← getLe_slice 8 b off (c.sparseCount * 8) (i * 8) hle, h, hsl]
  have := getLe_table (fun k : Key => length_le 8 k.val) c.sparseKeys i hi 8 0 (by omega)
  rw [Nat.add_zero] at this
  rw [this, getLe_last (c.sparseKeys[i]).isLt]
  exact Fin.ofNat_val_eq_self _

/-- **Opening the file**: the index is read back. -/
theorem settles_open (c : Corpus) :
    Settles (Index.open (MemoryFetch.new c.bytes)) (.ok (c.index (MemoryFetch.new c.bytes))) := by
  obtain ⟨hm, hv, hg, hn, hs, hfl⟩ := c.bytes_fields
  obtain ⟨hh, hh'⟩ := c.headerLen_le
  have hds := c.dictStart_le_length
  have hdef : c.dictStart = c.headerLen + c.sparseCount * 8 := rfl
  have hfield : ∀ w off : Nat, off + w ≤ 16 → getLe w (slice c.bytes 0 headerSize) off = getLe w c.bytes off := by
    intro w off ho
    have := getLe_slice w c.bytes 0 headerSize off ho
    rwa [Nat.zero_add] at this
  have hrest : ∀ cf : Bool, cf = c.caseFold → Settles (openSparse (MemoryFetch.new c.bytes)
      (slice c.bytes 0 headerSize) c.headerLen cf) (.ok (c.index (MemoryFetch.new c.bytes))) := by
    rintro cf rfl
    unfold openSparse
    rw [hfield 4 8 (by omega), hfield 4 12 (by omega), hfield 2 6 (by omega), hn, hs, hg, sparseLayout_eq]
    refine (Settles.ofOutcome _).bind ?_
    refine (MemoryFetch.settles_read (MemoryFetch.inFile_new c.length_bytes_lt (by omega))).bind ?_
    have hsp : parseSparse (slice c.bytes c.headerLen (c.sparseCount * 8)) 0 c.sparseCount = c.sparseKeys := by
      refine c.parseSparse_eq ?_
      rw [slice_slice _ _ _ _ _ (by omega), Nat.add_zero]
    simp only [MemoryFetch.new] at hsp ⊢
    rw [hsp]
    exact Settles.pure _
  unfold Index.open
  refine (MemoryFetch.settles_read (MemoryFetch.inFile_new c.length_bytes_lt (by omega))).bind ?_
  have hb : (MemoryFetch.new c.bytes).bytes = c.bytes := rfl
  rw [hb, if_neg (by rw [length_slice _ _ _ (by omega)]; omega),
    if_neg (by rw [slice_slice _ _ _ _ _ (by decide), Nat.add_zero, hm]; simp), hfield 2 4 (by omega), hv]
  cases hcf : c.caseFold with
  | true =>
    rw [if_pos rfl, if_pos rfl]
    have hl : headerSize = c.headerLen := by rw [headerLen, hcf]; rfl
    have := hrest true hcf.symm
    rw [← hl] at this
    exact this
  | false =>
    have hl : headerSizeV4 = c.headerLen := by rw [headerLen, hcf]; rfl
    rw [if_neg (by decide), if_pos (by rfl)]
    refine (MemoryFetch.settles_read (MemoryFetch.inFile_new c.length_bytes_lt (by
      have h18 : headerSizeV4 = 18 := rfl
      rw [headerSize]
      omega))).bind ?_
    have hflag : getLe 2 (slice (MemoryFetch.new c.bytes).bytes headerSize 2) 0 = rrsiFlagCaseSensitive := by
      rw [getLe_slice _ _ _ _ _ (by decide)]
      exact hfl hcf
    rw [hflag, hl]
    exact hrest _ (by rw [hcf]; decide)

/-- Opening from a resident boot region. -/
theorem fromBoot_eq (c : Corpus) (f : MemoryFetch) :
    Index.fromBoot (slice c.bytes 0 c.dictStart) f = .ok (c.index f) := by
  obtain ⟨hm, hv, hg, hn, hs, hfl⟩ := c.bytes_fields
  obtain ⟨hh, hh'⟩ := c.headerLen_le
  have hds := c.dictStart_le_length
  have hdef : c.dictStart = c.headerLen + c.sparseCount * 8 := rfl
  have hsize : headerSize = 16 := rfl
  have hfield : ∀ w off : Nat, off + w ≤ c.headerLen →
      getLe w (slice c.bytes 0 c.dictStart) off = getLe w c.bytes off := by
    intro w off ho
    rw [getLe_slice _ _ _ _ _ (by omega), Nat.zero_add]
  have hlen : (slice c.bytes 0 c.dictStart).length = c.dictStart := length_slice _ _ _ (by omega)
  have hrest : ∀ cf : Bool, cf = c.caseFold →
      bootSparse (slice c.bytes 0 c.dictStart) f c.headerLen cf = .ok (c.index f) := by
    rintro cf rfl
    have hlt := c.length_bytes_lt
    unfold bootSparse
    rw [hfield 4 8 (by omega), hfield 4 12 (by omega), hfield 2 6 (by omega), hn, hs, hg, sparseLayout_eq]
    simp only [bind, Except.bind]
    rw [if_neg (by omega), if_neg (by rw [hlen]; omega)]
    rw [c.parseSparse_eq (by rw [slice_slice _ _ _ _ _ (by omega), Nat.zero_add])]
    rfl
  unfold Index.fromBoot
  rw [if_neg (by rw [hlen]; omega), if_neg (by
    rw [slice_slice _ _ _ _ _ (by omega), Nat.add_zero, hm]
    simp), hfield 2 4 (by omega), hv]
  cases hcf : c.caseFold with
  | true =>
    have hl : headerSize = c.headerLen := by rw [headerLen, hcf]; rfl
    rw [if_pos rfl, if_pos rfl, hl]
    exact hrest true hcf.symm
  | false =>
    have hl : headerSizeV4 = c.headerLen := by rw [headerLen, hcf]; rfl
    have h16 : getLe 2 (slice c.bytes 0 c.dictStart) headerSize = rrsiFlagCaseSensitive := by
      exact (hfield 2 16 (by rw [← hl]; decide)).trans (hfl hcf)
    rw [if_neg (by decide), if_pos (by rfl), if_neg (by rw [hlen, hl]; omega), h16, hl]
    exact hrest _ (by rw [hcf]; decide)

end

end Corpus

end RoaringRange
