import RoaringRange.Filter
import RoaringRange.Ngram
import RoaringRange.Threshold

/-!
# The RRS index reader (`index.rs`)

An open index keeps the header fields and the sparse keys; a key's dictionary entry is found with one
block read, and its posting is the byte range the entry names.  `findRec` is the entry the file holds
for a key, `postingOf` the docs of its posting.

`WellFormed ix`: every dictionary block can be read, and every entry's range is a posting.  Then

    search settles on the first `limit` docs that all the query's keys have     (settles_search)
-/

namespace RoaringRange

open ByteString Faults Slices

/-- `RRSI`. -/
def rrsMagic : Bytes := [82, 82, 83, 73]

def headerSize : Nat := 16

def dictEntry : Nat := 20

def formatVersion : Nat := 3

def headerSizeV4 : Nat := 18

def formatVersionV4 : Nat := 4

/-- `RRSI_FLAG_CASE_SENSITIVE`, bit 0 of the v4 flags. -/
def rrsiFlagCaseSensitive : Nat := 1

def eagerBuckets : Nat := 1

def eagerDocBound : Nat := eagerBuckets * bucketSize

structure DictRec where
  key : Key
  offset : Nat
  size : Nat
  deriving DecidableEq, Repr

def DictRec.range (r : DictRec) : Nat × Nat := (r.offset, r.size)

structure DictBlock where
  byteOff : Nat
  entries : Nat
  deriving DecidableEq, Repr

structure Index where
  fetch : MemoryFetch
  gramSize : Nat
  ngrams : Nat
  stride : Nat
  dictStart : Nat
  sparseKeys : List Key
  caseFold : Bool
  deriving DecidableEq

/-- `read_u64` as a key. -/
def getKey (b : Bytes) (off : Nat) : Key := Fin.ofNat _ (getLe 8 b off)

/-- The smallest key. -/
def zeroKey : Key := 0

theorem wrappedKey_lt (n : Nat) : n % 2 ^ 64 < 2 ^ 64 := Nat.mod_lt _ (Nat.two_pow_pos 64)

/-- The key of the low 64 bits of `n`. -/
def wrappedKey (n : Nat) : Key := ⟨n % 2 ^ 64, wrappedKey_lt n⟩

/-- The first `n` keys. -/
theorem nodup_firstKeys {n : Nat} (hn : n ≤ 2 ^ 64) : ((List.range n).map wrappedKey).Nodup := by
  refine List.Nodup.map_on (fun a ha b hb hab => ?_) List.nodup_range
  have ha := List.mem_range.mp ha
  have hb := List.mem_range.mp hb
  have hval : a % 2 ^ 64 = b % 2 ^ 64 := congrArg Fin.val hab
  rwa [Nat.mod_eq_of_lt (by omega), Nat.mod_eq_of_lt (by omega)] at hval

/-! ## Opening -/

def sparseCount (ngrams stride : Nat) : Nat :=
  if ngrams = 0 ∨ stride = 0 then 0 else (ngrams + stride - 1) / stride

def sparseLayout (ngrams stride : Nat) : Except IndexError (Nat × Nat) :=
  if stride = 0 ∧ ngrams ≠ 0 then .error (.malformed "RRS stride is zero")
  else if u64Bound ≤ sparseCount ngrams stride * 8 then
    .error (.malformed "RRS sparse index length overflows")
  else .ok (sparseCount ngrams stride, sparseCount ngrams stride * 8)

/-- The `count` sparse keys at `off`. -/
def parseSparse (b : Bytes) (off count : Nat) : List Key :=
  (List.range count).map fun i => getKey b (off + i * 8)

/-- The rest of `Index::open` once the header size is known. -/
def openSparse (f : MemoryFetch) (header : Bytes) (headerSize : Nat) (caseFold : Bool) : Io Index := do
  let (count, len) ← ofOutcome (sparseLayout (getLe 4 header 8) (getLe 4 header 12))
  let sparse ← f.read headerSize len
  pure ⟨f, getLe 2 header 6, getLe 4 header 8, getLe 4 header 12, headerSize + count * 8,
    parseSparse sparse 0 count, caseFold⟩

def Index.open (f : MemoryFetch) : Io Index := do
  let header ← f.read 0 headerSize
  if header.length < headerSize then ofOutcome (.error (.malformed "short RRS header"))
  else if slice header 0 4 ≠ rrsMagic then ofOutcome (.error (.badMagic (slice header 0 4)))
  else if getLe 2 header 4 = formatVersion then openSparse f header headerSize true
  else if getLe 2 header 4 = formatVersionV4 then do
    let flags ← f.read headerSize 2
    openSparse f header headerSizeV4 (getLe 2 flags 0 % 2 ≠ rrsiFlagCaseSensitive)
  else ofOutcome (.error (.badVersion (getLe 2 header 4)))

/-- The rest of `Index::from_boot` once the header size is known. -/
def bootSparse (boot : Bytes) (f : MemoryFetch) (headerSize : Nat) (caseFold : Bool) :
    Except IndexError Index := do
  let (count, len) ← sparseLayout (getLe 4 boot 8) (getLe 4 boot 12)
  if u64Bound ≤ headerSize + len then throw (.malformed "RRS boot region length overflows")
  else if boot.length < headerSize + len then throw (.malformed "RRS boot region missing sparse index")
  else
    pure ⟨f, getLe 2 boot 6, getLe 4 boot 8, getLe 4 boot 12, headerSize + len,
      parseSparse boot headerSize count, caseFold⟩

def Index.fromBoot (boot : Bytes) (f : MemoryFetch) : Except IndexError Index :=
  if boot.length < headerSize then .error (.malformed "short RRS boot region")
  else if slice boot 0 4 ≠ rrsMagic then .error (.badMagic (slice boot 0 4))
  else if getLe 2 boot 4 = formatVersion then bootSparse boot f headerSize true
  else if getLe 2 boot 4 = formatVersionV4 then
    if boot.length < headerSizeV4 then .error (.malformed "short RRS v4 boot region")
    else bootSparse boot f headerSizeV4 (getLe 2 boot headerSize % 2 ≠ rrsiFlagCaseSensitive)
  else .error (.badVersion (getLe 2 boot 4))

/-! ## The dictionary -/

namespace Index

/-- Block `b` of the dictionary. -/
def block (ix : Index) (b : Nat) : DictBlock :=
  ⟨ix.dictStart + b * ix.stride * dictEntry, min ix.stride (ix.ngrams - b * ix.stride)⟩

def dictBlockFor (ix : Index) (key : Key) : Option DictBlock :=
  if ix.ngrams = 0 then none
  else
    match binarySearch ix.sparseKeys key with
    | .ok i => some (ix.block i)
    | .error 0 => none
    | .error (i + 1) => some (ix.block i)

/-- The loop of `Index::parse_block` over `[lo, hi)`; every pass shrinks it, so `fuel = hi - lo` is
enough. -/
def parseBlockLoop (block : Bytes) (key : Key) : Nat → Nat → Nat → Option DictRec
  | 0, _, _ => none
  | fuel + 1, lo, hi =>
    if lo < hi then
      let mid := lo + (hi - lo) / 2
      let midKey := getKey block (mid * dictEntry)
      if midKey < key then parseBlockLoop block key fuel (mid + 1) hi
      else if key < midKey then parseBlockLoop block key fuel lo mid
      else some ⟨key, getLe 8 block (mid * dictEntry + 8), getLe 4 block (mid * dictEntry + 16)⟩
    else none

def parseBlock (block : Bytes) (entries : Nat) (key : Key) : Option DictRec :=
  parseBlockLoop block key entries 0 entries

/-- One step of the dedup in `read_dict_blocks`: the distinct blocks, and which one each block is. -/
def dedupBlock (st : List DictBlock × List Nat) (blk : DictBlock) : List DictBlock × List Nat :=
  match st.1.findIdx? (fun u => u.byteOff == blk.byteOff) with
  | some i => (st.1, st.2 ++ [i])
  | none => (st.1 ++ [blk], st.2 ++ [st.1.length])

def readDictBlocks (ix : Index) (blocks : List DictBlock) : Io (List Bytes × List Nat) := do
  let st := blocks.foldl dedupBlock ([], [])
  let fetched ← tryAll (st.1.map fun blk => ix.fetch.read blk.byteOff (blk.entries * dictEntry))
  pure (fetched, st.2)

/-- The entries found for keys whose blocks are known, from one deduped wave of block reads. -/
def parsePresent (ix : Index) (present : List (Key × DictBlock)) : Io (List (Option DictRec)) := do
  let (datas, which) ← ix.readDictBlocks (present.map Prod.snd)
  pure (present.zipIdx.map fun x => parseBlock (datas.getD (which.getD x.2 0) []) x.1.2.entries x.1.1)

/-- The keys whose block is known from the sparse index, with their blocks. -/
def presentBlocks (ix : Index) (keys : List Key) : List (Key × DictBlock) :=
  keys.filterMap fun k => (ix.dictBlockFor k).map fun blk => (k, blk)

section

variable [Roaring]

def fetchHeadPrefixes (ix : Index) (recs : List DictRec) : Io (List Bitmap) :=
  tryAll (recs.map fun r => fetchHeadPrefix ix.fetch r.offset r.size eagerBuckets)

/-- `Index::intersect`, with nothing for no postings. -/
def intersect (bitmaps : List Bitmap) : Bitmap := AscSet.inters (AscSet.sortByLen bitmaps)

def tailKeyBatch : Nat := 8

/-- The window loop of `Index::search`.  Every window moves the scan on, so as much fuel as there are
candidate keys is enough. -/
def searchTail (f : MemoryFetch) (limit : Nat) : Nat → TailScan → List Nat → Io (List Nat)
  | 0, _, out => pure out
  | fuel + 1, scan, out =>
    if out.length < limit ∧ scan.exhausted = false then do
      let (win, scan') ← scan.nextWindow f none tailKeyBatch
      searchTail f limit fuel scan' (out ++ win.toList.take (limit - out.length))
    else pure out

/-- The part of `Index::search` after the dictionary lookups. -/
def searchRecs (ix : Index) (recs : List DictRec) (limit : Nat) : Io (List Nat) := do
  let heads ← ix.fetchHeadPrefixes recs
  let out := (intersect heads).toList.take limit
  if limit ≤ out.length then pure out
  else do
    let ranges := recs.map DictRec.range
    let scan ← TailScan.open ix.fetch ranges none [] [] eagerBuckets
    match scan with
    | some scan => searchTail ix.fetch limit scan.keys.length scan out
    | none => do
      let fullAnd ← tailIntersectAnd ix.fetch ranges
      pure (out ++ (fullAnd.atLeast eagerDocBound).toList.take (limit - out.length))

variable [Unicode]

/-- The keys of a query, as this index makes them. -/
def queryKeys (ix : Index) (query : String) : List Key := ngramKeysWith query ix.gramSize ix.caseFold

def search (ix : Index) (query : String) (limit : Nat) : Io (List Nat) :=
  let keys := ix.queryKeys query
  if keys.isEmpty ∨ limit = 0 then pure []
  else
    match keys.mapM ix.dictBlockFor with
    | none => pure []
    | some blocks => do
      let recs ← ix.parsePresent (keys.zip blocks)
      match recs.mapM id with
      | none => pure []
      | some recs => ix.searchRecs recs limit

end

/-! ## What the file holds -/

def blockBytes (ix : Index) (blk : DictBlock) : Bytes :=
  slice ix.fetch.bytes blk.byteOff (blk.entries * dictEntry)

/-- The entry of `key`, or none. -/
def findRec (ix : Index) (key : Key) : Option DictRec :=
  (ix.dictBlockFor key).bind fun blk => parseBlock (ix.blockBytes blk) blk.entries key

section

variable [Roaring]

/-- The docs of an entry's posting. -/
def postingSet (ix : Index) (r : DictRec) : Bitmap :=
  match Roaring.deserialize (slice ix.fetch.bytes r.offset r.size) with
  | .ok S => S
  | .error _ => ∅

/-- The docs of a key, or none for a key the index lacks. -/
def postingOf (ix : Index) (key : Key) : Option Bitmap := (ix.findRec key).map ix.postingSet

/-- The dictionary blocks can be read and the entries name postings. -/
structure WellFormed (ix : Index) : Prop where
  block : ∀ key blk, ix.dictBlockFor key = some blk → ix.fetch.InFile blk.byteOff (blk.entries * dictEntry)
  posting : ∀ key r, ix.findRec key = some r → ∃ S, PostingAt ix.fetch r.offset r.size S

/-- The docs that every one of the keys has (none for no key, or when a key is absent). -/
def strictDocs (ix : Index) (keys : List Key) : Bitmap :=
  match keys.mapM ix.postingOf with
  | none => ∅
  | some sets => AscSet.inters sets

end

/-- A doc with all of the keys is in the posting of each. -/
theorem mem_strictDocs [Roaring] {ix : Index} {keys : List Key} {d : Nat} :
    d ∈ ix.strictDocs keys ↔ keys ≠ [] ∧ ∀ k ∈ keys, ∃ S, ix.postingOf k = some S ∧ d ∈ S := by
  unfold strictDocs
  cases hm : keys.mapM ix.postingOf with
  | none =>
    obtain ⟨k, hk, hnone⟩ := mapM_eq_none_iff.mp hm
    refine ⟨fun hd => absurd hd (AscSet.not_mem_empty _), fun ⟨_, hall⟩ => ?_⟩
    obtain ⟨S, hS, -⟩ := hall k hk
    rw [hnone] at hS
    cases hS
  | some sets =>
    have hall := mapM_some_forall₂ hm
    simp only
    by_cases hnil : keys = []
    · subst hnil
      cases hall
      simp [AscSet.inters]
    · have hne : sets ≠ [] := by
        rintro rfl
        cases hall
        exact hnil rfl
      rw [AscSet.mem_inters hne]
      refine ⟨fun hs => ⟨hnil, fun k hk => ?_⟩, fun ⟨_, hk⟩ S hS => ?_⟩
      · obtain ⟨S, hSmem, hkS⟩ := exists_partner hall hk
        exact ⟨S, hkS, hs S hSmem⟩
      · obtain ⟨k, hkmem, hkS⟩ := exists_partner_left hall hS
        obtain ⟨S', hS', hd⟩ := hk k hkmem
        rw [hkS] at hS'
        obtain rfl := Option.some.inj hS'
        exact hd

/-! ## Dictionary reads -/

/-- Deduping keeps of each block one that starts at the same byte. -/
theorem foldl_dedupBlock (P : DictBlock → Prop) (blocks : List DictBlock) :
    ∀ (seen : List DictBlock) (st : List DictBlock × List Nat),
      (∀ u ∈ st.1, P u) → (∀ b ∈ blocks, P b) → st.2.length = seen.length →
      (∀ (i : Nat) (b : DictBlock), seen[i]? = some b → ∃ k u, st.2[i]? = some k ∧ st.1[k]? = some u ∧
        u.byteOff = b.byteOff) →
      (∀ u ∈ (blocks.foldl dedupBlock st).1, P u) ∧
      ∀ (i : Nat) (b : DictBlock), (seen ++ blocks)[i]? = some b →
        ∃ k u, (blocks.foldl dedupBlock st).2[i]? = some k ∧ (blocks.foldl dedupBlock st).1[k]? = some u ∧
          u.byteOff = b.byteOff := by
  induction blocks with
  | nil =>
    intro seen st hst _ _ hseen
    rw [List.append_nil]
    exact ⟨hst, hseen⟩
  | cons blk blocks ih =>
    intro seen st hst hall hlen hseen
    have hstep : (∀ u ∈ (dedupBlock st blk).1, P u) ∧ (dedupBlock st blk).2.length = (seen ++ [blk]).length ∧
        ∀ (i : Nat) (b : DictBlock), (seen ++ [blk])[i]? = some b → ∃ k u,
          (dedupBlock st blk).2[i]? = some k ∧ (dedupBlock st blk).1[k]? = some u ∧ u.byteOff = b.byteOff := by
      unfold dedupBlock
      split
      · next j hj =>
        obtain ⟨hjlt, hjeq, -⟩ := List.findIdx?_eq_some_iff_getElem.mp hj
        refine ⟨hst, by simp [hlen], fun i b hi => ?_⟩
        rw [List.getElem?_append] at hi
        split at hi
        · next hlt =>
          obtain ⟨k, u, hk, hu, hb⟩ := hseen i b hi
          exact ⟨k, u, by rw [List.getElem?_append_left (by omega), hk], hu, hb⟩
        · next hge =>
          obtain ⟨hi0, rfl⟩ : i - seen.length = 0 ∧ blk = b := by
            have hlt := (List.getElem?_eq_some_iff.mp hi).1
            simp only [List.length_singleton] at hlt
            have h0 : i - seen.length = 0 := by omega
            rw [h0] at hi
            exact ⟨h0, by simpa using hi⟩
          refine ⟨j, st.1[j], ?_, List.getElem?_eq_getElem hjlt, by simpa using hjeq⟩
          rw [show i = st.2.length by omega]
          simp
      · refine ⟨fun u hu => ?_, by simp [hlen], fun i b hi => ?_⟩
        · rcases List.mem_append.mp hu with hu | hu
          · exact hst u hu
          · obtain rfl := List.mem_singleton.mp hu
            exact hall _ (by simp)
        rw [List.getElem?_append] at hi
        split at hi
        · next hlt =>
          obtain ⟨k, u, hk, hu, hb⟩ := hseen i b hi
          exact ⟨k, u, by rw [List.getElem?_append_left (by omega), hk],
            by rw [List.getElem?_append_left (List.getElem?_eq_some_iff.mp hu).1, hu], hb⟩
        · next hge =>
          obtain ⟨hi0, rfl⟩ : i - seen.length = 0 ∧ blk = b := by
            have hlt := (List.getElem?_eq_some_iff.mp hi).1
            simp only [List.length_singleton] at hlt
            have h0 : i - seen.length = 0 := by omega
            rw [h0] at hi
            exact ⟨h0, by simpa using hi⟩
          refine ⟨st.1.length, blk, ?_, by simp, rfl⟩
          rw [show i = st.2.length by omega]
          simp
    obtain ⟨h1, h2, h3⟩ := hstep
    have := ih (seen ++ [blk]) _ h1 (fun b hb => hall b (by simp [hb])) h2 h3
    simpa using this

/-- Blocks of one index that start at the same byte are the same block. -/
def IsBlock (ix : Index) (blk : DictBlock) : Prop := ∃ b, blk = ix.block b

theorem isBlock_dictBlockFor {ix : Index} {key : Key} {blk : DictBlock}
    (h : ix.dictBlockFor key = some blk) : ix.IsBlock blk := by
  unfold dictBlockFor at h
  split at h
  · cases h
  · split at h
    · exact ⟨_, (Option.some.inj h).symm⟩
    · cases h
    · exact ⟨_, (Option.some.inj h).symm⟩

theorem IsBlock.eq_of_byteOff {ix : Index} {blk blk' : DictBlock} (h : ix.IsBlock blk)
    (h' : ix.IsBlock blk') (ho : blk.byteOff = blk'.byteOff) : blk = blk' := by
  obtain ⟨b, rfl⟩ := h
  obtain ⟨b', rfl⟩ := h'
  simp only [block, dictEntry] at ho ⊢
  have : b * ix.stride = b' * ix.stride := by omega
  rw [this]

/-- The block reads hand every block its own bytes. -/
theorem settles_readDictBlocks {ix : Index} {blocks : List DictBlock}
    (hb : ∀ blk ∈ blocks, ix.IsBlock blk ∧ ix.fetch.InFile blk.byteOff (blk.entries * dictEntry)) :
    ∃ datas which, Settles (ix.readDictBlocks blocks) (.ok (datas, which)) ∧
      ∀ (j : Nat) (blk : DictBlock), blocks[j]? = some blk → datas.getD (which.getD j 0) [] = ix.blockBytes blk := by
  obtain ⟨huniq, hwhich⟩ := foldl_dedupBlock
    (fun u => ix.IsBlock u ∧ ix.fetch.InFile u.byteOff (u.entries * dictEntry)) blocks
    [] ([], []) (by simp) hb rfl (by simp)
  rw [List.nil_append] at hwhich
  unfold readDictBlocks
  generalize blocks.foldl dedupBlock ([], []) = st at huniq hwhich
  refine ⟨st.1.map ix.blockBytes, st.2, ?_, fun j blk hj => ?_⟩
  · exact (settles_tryAll_map fun u hu => MemoryFetch.settles_read (huniq u hu).2).bind (Settles.pure _)
  · obtain ⟨k, u, hk, hu, ho⟩ := hwhich j blk hj
    have hblk : u = blk := (huniq u (List.mem_of_getElem? hu)).1.eq_of_byteOff (hb _ (List.mem_of_getElem? hj)).1 ho
    rw [← hblk]
    simp [List.getD_eq_getElem?_getD, hk, hu]

/-- The block reads give every key the entry its block holds. -/
theorem settles_parsePresent {ix : Index} {present : List (Key × DictBlock)}
    (hb : ∀ x ∈ present, ix.IsBlock x.2 ∧ ix.fetch.InFile x.2.byteOff (x.2.entries * dictEntry)) :
    Settles (ix.parsePresent present)
      (.ok (present.map fun x => parseBlock (ix.blockBytes x.2) x.2.entries x.1)) := by
  obtain ⟨datas, which, hread, hdata⟩ := @settles_readDictBlocks ix (present.map Prod.snd) (by
    intro blk hblk
    obtain ⟨x, hx, rfl⟩ := List.mem_map.mp hblk
    exact hb x hx)
  unfold parsePresent
  refine hread.bind ?_
  have heq : present.zipIdx.map (fun x =>
      parseBlock (datas.getD (which.getD x.2 0) []) x.1.2.entries x.1.1) =
      present.map fun x => parseBlock (ix.blockBytes x.2) x.2.entries x.1 := by
    have hfst : present = present.zipIdx.map Prod.fst := by simp
    conv => rhs; rw [hfst]
    rw [List.map_map]
    refine List.map_congr_left fun x hx => ?_
    have hget : present[x.2]? = some x.1 := List.mem_zipIdx_iff_getElem?.mp hx
    rw [hdata x.2 x.1.2 (by simp [hget])]
    rfl
  rw [← heq]
  exact Settles.pure _

section

variable [Roaring] {ix : Index}

theorem postingSet_eq {r : DictRec} {S : Bitmap} (h : PostingAt ix.fetch r.offset r.size S) :
    ix.postingSet r = S := by
  simp only [postingSet, h.represents.reads]

theorem WellFormed.postingAt (hw : ix.WellFormed) {key : Key} {r : DictRec} (h : ix.findRec key = some r) :
    PostingAt ix.fetch r.offset r.size (ix.postingSet r) := by
  obtain ⟨S, hS⟩ := hw.posting key r h
  rw [postingSet_eq hS]
  exact hS

/-- Entries found in the dictionary name postings of the docs they stand for. -/
theorem WellFormed.postingsAt (hw : ix.WellFormed) {recs : List DictRec}
    (h : ∀ r ∈ recs, ∃ key, ix.findRec key = some r) :
    PostingsAt ix.fetch (recs.map DictRec.range) (recs.map ix.postingSet) := by
  rw [PostingsAt, List.forall₂_map_left_iff, List.forall₂_map_right_iff]
  refine List.forall₂_same.mpr fun r hr => ?_
  obtain ⟨key, hkey⟩ := h r hr
  exact hw.postingAt hkey

/-! ## Search -/

theorem settles_fetchHeadPrefixes (hw : ix.WellFormed) {recs : List DictRec}
    (h : ∀ r ∈ recs, ∃ key, ix.findRec key = some r) :
    Settles (ix.fetchHeadPrefixes recs) (.ok (recs.map fun r => (ix.postingSet r).below eagerDocBound)) := by
  refine settles_tryAll_map fun r hr => ?_
  obtain ⟨key, hkey⟩ := h r hr
  exact settles_fetchHeadPrefix (hw.postingAt hkey) eagerBuckets

/-- The window loop appends what is left of the scan, up to the limit. -/
theorem settles_searchTail {f : MemoryFetch} {sets : List Bitmap} {F : FilterSets} {limit : Nat}
    (hne : sets ≠ []) : ∀ (fuel : Nat) (scan : TailScan) (out : List Nat), scan.Holds f none sets F →
      scan.keys.length - scan.pos ≤ fuel → out.length ≤ limit →
      Settles (searchTail f limit fuel scan out)
        (.ok (out ++ (scan.remaining sets F).toList.take (limit - out.length)))
  | 0, scan, out, hs, hf, _ => by
    have hex : scan.exhausted = true := by
      simp only [TailScan.exhausted, decide_eq_true_eq]
      omega
    rw [TailScan.remaining_exhausted hex, AscSet.toList_empty, List.take_nil, List.append_nil]
    exact Settles.pure _
  | fuel + 1, scan, out, hs, hf, ho => by
    unfold searchTail
    split
    · next hgo =>
      have hpos : scan.pos < scan.keys.length := by
        simpa [TailScan.exhausted] using hgo.2
      refine (settles_nextWindow hs hne tailKeyBatch).bind ?_
      have hrest := TailScan.remaining_advance hs tailKeyBatch
      generalize windowResult sets F ((scan.keys.drop scan.pos).take tailKeyBatch) = win at hrest
      simp only
      have hlen : (out ++ win.toList.take (limit - out.length)).length ≤ limit := by
        simp only [List.length_append, List.length_take]
        omega
      have ih := settles_searchTail hne fuel (scan.advance tailKeyBatch)
        (out ++ win.toList.take (limit - out.length)) (hs.advance _) (by
          simp only [TailScan.advance, tailKeyBatch]
          omega) hlen
      rw [← hrest, List.take_append, ← List.append_assoc]
      convert ih using 4
      simp only [List.length_append, List.length_take]
      omega
    · next hstop =>
      rw [not_and_or] at hstop
      rcases hstop with hfull | hex
      · have h0 : limit - out.length = 0 := by omega
        rw [h0, List.take_zero, List.append_nil]
        exact Settles.pure _
      · rw [TailScan.remaining_exhausted (by simpa using hex), AscSet.toList_empty, List.take_nil,
          List.append_nil]
        exact Settles.pure _

theorem settles_searchRecs (hw : ix.WellFormed) {recs : List DictRec} (hne : recs ≠ [])
    (h : ∀ r ∈ recs, ∃ key, ix.findRec key = some r) (limit : Nat) :
    Settles (ix.searchRecs recs limit) (.ok ((AscSet.inters (recs.map ix.postingSet)).toList.take limit)) := by
  have hsets : recs.map ix.postingSet ≠ [] := by simpa using hne
  have hpost := hw.postingsAt h
  have hhead : intersect (recs.map fun r => (ix.postingSet r).below eagerDocBound) =
      Bitmap.below (AscSet.inters (recs.map ix.postingSet)) eagerDocBound := by
    rw [intersect, AscSet.inters_sortByLen, ← Bitmap.inters_below hsets, List.map_map]
    rfl
  refine (settles_fetchHeadPrefixes hw h).bind ?_
  simp only [hhead]
  generalize hall : AscSet.inters (recs.map ix.postingSet) = all
  rw [← Bitmap.take_below_append all eagerDocBound limit]
  split
  · next hfull =>
    have h0 : limit - ((Bitmap.below all eagerDocBound).toList.take limit).length = 0 := by omega
    rw [h0, List.take_zero, List.append_nil]
    exact Settles.pure _
  · refine (settles_open (F := ⟨[], []⟩) (g := ix.fetch) hpost (Or.inr ⟨rfl, rfl⟩) List.Forall₂.nil
      List.Forall₂.nil eagerBuckets).bind ?_
    split
    · next scan hscan =>
      split at hscan
      · next hseek =>
        obtain rfl := Option.some.inj hscan
        obtain ⟨hholds, hrem⟩ := @scanOf_holds _ _ ix.fetch none _ _ _ _ ⟨[], []⟩ hpost
          (Or.inr ⟨rfl, rfl⟩) List.Forall₂.nil List.Forall₂.nil hsets hseek.1 hseek.2.1 hseek.2.2 eagerBuckets
        have htail : (scanOf (recs.map DictRec.range) (recs.map ix.postingSet) [] [] ⟨[], []⟩
            eagerBuckets).remaining (recs.map ix.postingSet) ⟨[], []⟩ = Bitmap.atLeast all eagerDocBound := by
          refine AscSet.ext_mem fun d => ?_
          rw [hrem, hall, Bitmap.mem_atLeast]
          refine and_congr_right fun _ => ?_
          simp only [FilterSets.passes, inAny, List.all_nil, List.any_nil, Bool.not_false, Bool.and_self,
            true_and, eagerDocBound, eagerBuckets, highKey, bucketSize]
          omega
        rw [← htail]
        exact settles_searchTail hsets _ _ _ hholds (by omega) (by simp)
      · cases hscan
    · refine (settles_tailIntersectAnd hpost).bind ?_
      rw [hall]
      exact Settles.pure _

variable [Unicode]

/-- **Strict search is exact**: the first `limit` docs that have all the query's keys. -/
theorem settles_search (hw : ix.WellFormed) (query : String) (limit : Nat) :
    Settles (ix.search query limit) (.ok ((ix.strictDocs (ix.queryKeys query)).toList.take limit)) := by
  unfold search
  generalize ix.queryKeys query = keys
  simp only
  split
  · next htriv =>
    have hnil : (ix.strictDocs keys).toList.take limit = [] := by
      rcases htriv with hk | hl
      · have h0 : ix.strictDocs [] = ∅ := rfl
        rw [List.isEmpty_iff.mp hk, h0, AscSet.toList_empty, List.take_nil]
      · rw [hl, List.take_zero]
    rw [hnil]
    exact Settles.pure _
  · next hgo =>
    rw [not_or] at hgo
    split
    · next hnone =>
      obtain ⟨k, hk, hkn⟩ := mapM_eq_none_iff.mp hnone
      have hp : keys.mapM ix.postingOf = none :=
        mapM_none ⟨k, hk, by simp only [postingOf, findRec, hkn, Option.bind_none, Option.map_none]⟩
      rw [strictDocs, hp, AscSet.toList_empty, List.take_nil]
      exact Settles.pure _
    · next blocks hblocks =>
      have hpairs := mapM_some_forall₂ hblocks
      have hpresent : ∀ x ∈ keys.zip blocks, ix.dictBlockFor x.1 = some x.2 := by
        intro x hx
        obtain ⟨i, hi, rfl⟩ := List.getElem_of_mem hx
        rw [List.length_zip] at hi
        rw [List.getElem_zip]
        exact (List.forall₂_iff_get.mp hpairs).2 i (by omega) (by omega)
      have hrecs : (keys.zip blocks).map (fun x => parseBlock (ix.blockBytes x.2) x.2.entries x.1) =
          keys.map ix.findRec := by
        have hfst : keys = (keys.zip blocks).map Prod.fst := by
          rw [List.map_fst_zip (Nat.le_of_eq hpairs.length_eq)]
        conv => rhs; rw [hfst, List.map_map]
        refine List.map_congr_left fun x hx => ?_
        simp only [Function.comp_apply, findRec, hpresent x hx, Option.bind_some]
      refine (settles_parsePresent fun x hx => ?_).bind ?_
      · exact ⟨isBlock_dictBlockFor (hpresent x hx), hw.block _ _ (hpresent x hx)⟩
      · rw [hrecs]
        split
        · next hnone =>
          obtain ⟨o, ho, hon⟩ := mapM_eq_none_iff.mp hnone
          obtain ⟨k, hk, hko⟩ := List.mem_map.mp ho
          have hkn : ix.findRec k = none := by rw [hko]; exact hon
          have hp : keys.mapM ix.postingOf = none :=
            mapM_none ⟨k, hk, by simp only [postingOf, hkn, Option.map_none]⟩
          rw [strictDocs, hp, AscSet.toList_empty, List.take_nil]
          exact Settles.pure _
        · next recs hsome =>
          have hfound := mapM_some_forall₂ hsome
          rw [List.forall₂_map_left_iff] at hfound
          have hrec : ∀ r ∈ recs, ∃ key, ix.findRec key = some r := by
            intro r hr
            obtain ⟨i, hi, rfl⟩ := List.getElem_of_mem hr
            exact ⟨_, (List.forall₂_iff_get.mp hfound).2 i (by rw [hfound.length_eq]; exact hi) hi⟩
          have hp : keys.mapM ix.postingOf = some (recs.map ix.postingSet) := by
            refine mapM_of_forall₂ (List.forall₂_map_right_iff.mpr (hfound.imp fun k r hkr => ?_))
            simp only [postingOf, show ix.findRec k = some r from hkr, Option.map_some]
          have hne : recs ≠ [] := by
            intro hnil
            rw [hnil] at hfound
            exact hgo.1 (by rw [List.forall₂_nil_right_iff.mp hfound]; rfl)
          rw [strictDocs, hp]
          exact settles_searchRecs hw hne hrec limit

end

end Index

end RoaringRange
