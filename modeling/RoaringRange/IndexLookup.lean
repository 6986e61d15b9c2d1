import RoaringRange.Build
import RoaringRange.PortableCodec

/-!
# Dictionary lookups of an open index (`index.rs`, `posting.rs`)

A single lookup reads one dictionary block; a batched one reads every distinct block once.  Both answer
with the entry the file holds.  A posting's cardinality is the sum of its header's, where it has them.

    lookup settles on the entry of the key                                        (settles_lookup)
    lookup_many settles on the entry of every key                             (settles_lookupMany)
    posting settles on the key's docs                                            (settles_posting)
    posting_cardinality settles on how many docs there are            (settles_postingCardinality)

For the writer's file this is the round trip of an index (`rrs_roundTrip`).
-/

namespace RoaringRange

open ByteString Faults Slices

/-! ## Cardinalities -/

section

variable [Roaring]

def postingCardinality (f : MemoryFetch) (off len : Nat) : Io Nat := do
  let bytes ← f.read off (min len headerPrefix)
  if len ≤ bytes.length then do
    let S ← ofOutcome (deserialize bytes)
    pure S.len
  else if getLe 4 bytes 0 ≠ noRunContainerCookie then do
    let S ← readPosting f off len
    pure S.len
  else
    let size := getLe 4 bytes 4
    if len < size * 4 + 8 then ofOutcome (.error (.malformed "posting descriptive header out of range"))
    else do
      let desc ← if size * 4 + 8 ≤ bytes.length then pure bytes else f.read off (size * 4 + 8)
      pure ((List.range size).map fun i => getLe 2 desc (8 + i * 4 + 2) + 1).sum

end

theorem length_filter_or {α : Type*} {p q : α → Bool} {l : List α} (h : ∀ x ∈ l, p x = true → q x = false) :
    (l.filter p).length + (l.filter q).length = (l.filter fun x => p x || q x).length := by
  induction l with
  | nil => rfl
  | cons x l ih =>
    have hx := h x List.mem_cons_self
    have hrest := ih fun y hy => h y (List.mem_cons_of_mem _ hy)
    cases hp : p x with
    | true =>
      simp only [List.filter_cons, hp, hx hp, Bool.true_or, if_true, Bool.false_eq_true, if_false, List.length_cons]
      omega
    | false =>
      cases hq : q x with
      | true =>
        simp only [List.filter_cons, hp, hq, Bool.or_true, if_true, Bool.false_eq_true, if_false, List.length_cons]
        omega
      | false =>
        simp only [List.filter_cons, hp, hq, Bool.or_false, Bool.false_eq_true, if_false]
        exact hrest

/-- The elements of a list by the bucket each falls in. -/
theorem sum_filter_length {α : Type*} (g : α → Nat) (ks : List Nat) (hk : ks.Nodup) (l : List α) :
    (ks.map fun k => (l.filter fun x => g x = k).length).sum = (l.filter fun x => g x ∈ ks).length := by
  induction ks with
  | nil => simp
  | cons k ks ih =>
    obtain ⟨hnot, hnd⟩ := List.nodup_cons.mp hk
    rw [List.map_cons, List.sum_cons, ih hnd, length_filter_or]
    · simp only [List.mem_cons, Bool.decide_or]
    · intro x _ hx
      have hx : g x = k := of_decide_eq_true hx
      rw [hx]
      exact decide_eq_false hnot

section

variable [Roaring] {f : MemoryFetch} {off len : Nat} {S : Bitmap}

/-- The cardinalities of the containers add up. -/
theorem sum_card_containersOf (S : Bitmap) : ((containersOf S).map FramedContainer.card).sum = S.len := by
  obtain ⟨hasc, hmem⟩ := distinctHighKeys_spec S
  have hnd : (distinctHighKeys S).Nodup := hasc.imp fun h => Nat.ne_of_lt h
  have hcard : (containersOf S).map FramedContainer.card =
      (distinctHighKeys S).map fun k => (S.toList.filter fun d => highKey d = k).length := by
    simp only [containersOf, containersWith, List.map_map]
    refine List.map_congr_left fun k _ => ?_
    simp [Bitmap.lows]
  rw [hcard, sum_filter_length highKey _ hnd]
  have hall : (S.toList.filter fun d => highKey d ∈ distinctHighKeys S) = S.toList := by
    rw [List.filter_eq_self]
    intro d hd
    simpa using (hmem (highKey d)).mpr ⟨d, hd, rfl⟩
  rw [hall]
  rfl

/-- The header's cardinalities, from any first part that holds them. -/
theorem sum_header_cards {b : Bytes} {n : Nat} (hb : b = slice (portable S) 0 n)
    (hn : (containersOf S).length * 4 + 8 ≤ n) :
    ((List.range (containersOf S).length).map fun i => getLe 2 b (8 + i * 4 + 2) + 1).sum = S.len := by
  rw [← sum_card_containersOf]
  congr 1
  refine List.ext_getElem (by simp) fun i h1 h2 => ?_
  have hi : i < (containersOf S).length := by simpa using h1
  have hcard := (encodable_containersOf S).card_pos _ (List.getElem_mem hi)
  simp only [List.getElem_map, List.getElem_range]
  rw [hb, getLe_slice _ _ _ _ _ (by omega), Nat.zero_add]
  exact getLe_card hi hcard

/-- **The cardinality of a posting**, from its header or from the whole of it. -/
theorem settles_postingCardinality (h : PostingAt f off len S) :
    Settles (postingCardinality f off len) (.ok S.len) := by
  have hfile := h.inFile.2.2
  have hpre : (slice f.bytes off (min len headerPrefix)).length = min len headerPrefix :=
    length_slice _ _ _ (by omega)
  unfold postingCardinality
  refine (MemoryFetch.settles_read (h.inFile.mono (by omega))).bind ?_
  rw [hpre]
  by_cases hsmall : len ≤ min len headerPrefix
  · have hmin : min len headerPrefix = len := by omega
    rw [if_pos hsmall, hmin, deserialize_of_represents h.represents]
    exact (Settles.ofOutcome _).bind (Settles.pure _)
  have hbig : headerPrefix < len := by omega
  have hmin : min len headerPrefix = headerPrefix := by omega
  rw [if_neg hsmall, hmin]
  have h8 : headerPrefix = 4096 := rfl
  have hcookie : ∀ w o : Nat, o + w ≤ headerPrefix →
      getLe w (slice f.bytes off headerPrefix) o = getLe w (slice f.bytes off len) o := by
    intro w o ho
    rw [getLe_slice _ _ _ _ _ ho, getLe_slice _ _ _ _ _ (by omega)]
  rw [hcookie 4 0 (by omega), hcookie 4 4 (by omega)]
  by_cases hs : getLe 4 (slice f.bytes off len) 0 = noRunContainerCookie
  · have hp : slice f.bytes off len = portable S := h.represents.layout hs
    have hplen : (portable S).length = len := by rw [← hp, h.length_eq]
    have hcount := (encodable_containersOf S).count_lt
    have hsize : getLe 4 (slice f.bytes off len) 4 = (containersOf S).length := by
      rw [hp]
      exact getLe_size hcount
    have hdata := dataStart_le_length S
    unfold dataStart at hdata
    have hcut : ∀ n, n ≤ len → slice f.bytes off n = slice (portable S) 0 n := by
      intro n hn
      rw [← hp, slice_slice _ _ _ _ _ (by omega), Nat.add_zero]
    rw [if_neg (by simpa using hs), hsize]
    simp only
    rw [if_neg (by omega)]
    by_cases hfit : (containersOf S).length * 4 + 8 ≤ headerPrefix
    · rw [if_pos hfit]
      refine (Settles.pure _).bind ?_
      rw [sum_header_cards (hcut _ (by omega)) hfit]
      exact Settles.pure _
    · rw [if_neg hfit]
      refine (MemoryFetch.settles_read (h.inFile.mono (by omega))).bind ?_
      rw [sum_header_cards (hcut _ (by omega)) (Nat.le_refl _)]
      exact Settles.pure _
  · rw [if_pos hs]
    exact (settles_readPosting h).bind (Settles.pure _)

end

/-! ## Lookups -/

namespace Index

def lookup (ix : Index) (key : Key) : Io (Option DictRec) :=
  match ix.dictBlockFor key with
  | none => pure none
  | some blk => do
    let bytes ← ix.fetch.read blk.byteOff (blk.entries * dictEntry)
    pure (parseBlock bytes blk.entries key)

/-- The keys that have a block, each by its place. -/
def placedBlocks (ix : Index) (keys : List Key) : List (Nat × DictBlock) :=
  keys.zipIdx.filterMap fun x => (ix.dictBlockFor x.1).map fun blk => (x.2, blk)

def lookupMany (ix : Index) (keys : List Key) : Io (List (Option DictRec)) := do
  let present := ix.placedBlocks keys
  let (datas, which) ← ix.readDictBlocks (present.map Prod.snd)
  pure (present.zipIdx.foldl (fun out x => out.set x.1.1
    (parseBlock (datas.getD (which.getD x.2 0) []) x.1.2.entries (keys.getD x.1.1 zeroKey)))
    (List.replicate keys.length none))

section

variable [Roaring]

def termCount (ix : Index) (key : Key) : Io (Option Nat) := do
  match ← ix.lookup key with
  | none => pure none
  | some r => some <$> postingCardinality ix.fetch r.offset r.size

def posting (ix : Index) (key : Key) : Io (Option Bitmap) := do
  match ← ix.lookup key with
  | none => pure none
  | some r => some <$> readPosting ix.fetch r.offset r.size

variable [Unicode]

def queryCost (ix : Index) (query : String) : Io Nat :=
  let keys := ix.queryKeys query
  if keys.isEmpty then pure 0
  else do
    let recs ← ix.lookupMany keys
    match recs.mapM id with
    | none => pure 0
    | some recs => pure (recs.map DictRec.size).sum

/-- `u64::MAX`, where the running minimum of `count_estimate` starts. -/
def u64Max : Nat := u64Bound - 1

def countEstimate (ix : Index) (query : String) : Io (Nat × Bool) :=
  let keys := ix.queryKeys query
  if keys.isEmpty then pure (0, true)
  else do
    let recs ← ix.lookupMany keys
    match recs.mapM id with
    | none => pure (0, true)
    | some recs => do
      let counts ← tryAll (recs.map fun r => postingCardinality ix.fetch r.offset r.size)
      pure (counts.foldl min u64Max, keys.length == 1)

end

end Index

/-- The header size of a version. -/
def rrsHeaderSize (version : Nat) : Except IndexError Nat :=
  if version = formatVersion then .ok headerSize
  else if version = formatVersionV4 then .ok headerSizeV4
  else .error (.badVersion version)

def rrsBootLen (header : Bytes) : Except IndexError Nat :=
  if header.length < headerSize then .error (.malformed "short RRS header")
  else if slice header 0 4 ≠ rrsMagic then .error (.badMagic (slice header 0 4))
  else do
    let size ← rrsHeaderSize (getLe 2 header 4)
    let (_, len) ← sparseLayout (getLe 4 header 8) (getLe 4 header 12)
    if u64Bound ≤ size + len then throw (.malformed "RRS boot region length overflows")
    else pure (size + len)

/-! ## What lookups answer -/

/-- Setting places to what `g` says of them. -/
theorem getElem?_foldl_set {α β : Type*} (at' : β → Nat) (val : β → α) (g : Nat → α) (ps : List β)
    (hg : ∀ p ∈ ps, val p = g (at' p)) (out : List α) (i : Nat) :
    (ps.foldl (fun out p => out.set (at' p) (val p)) out)[i]? =
      if i ∈ ps.map at' then (out[i]?).map fun _ => g i else out[i]? := by
  induction ps generalizing out with
  | nil => simp
  | cons p ps ih =>
    rw [List.foldl_cons, ih fun q hq => hg q (List.mem_cons_of_mem _ hq), List.getElem?_set,
      hg p List.mem_cons_self]
    by_cases hi : at' p = i
    · rw [if_pos hi, ← hi, if_pos (show at' p ∈ (p :: ps).map at' by simp)]
      by_cases hlt : at' p < out.length
      · simp [hlt]
      · simp [hlt]
    · rw [if_neg hi]
      have hmem : i ∈ (p :: ps).map at' ↔ i ∈ ps.map at' := by
        rw [List.map_cons, List.mem_cons]
        exact or_iff_right fun h => hi h.symm
      simp only [hmem]

namespace Index

section

variable [Roaring] {ix : Index}

/-- **A single lookup** answers the entry the file holds. -/
theorem settles_lookup (hw : ix.WellFormed) (key : Key) : Settles (ix.lookup key) (.ok (ix.findRec key)) := by
  unfold lookup findRec
  split
  · next hnone =>
    rw [hnone]
    exact Settles.pure _
  · next blk hblk =>
    rw [hblk]
    refine (MemoryFetch.settles_read (hw.block key blk hblk)).bind ?_
    exact Settles.pure _

omit [Roaring] in
theorem mem_placedBlocks {keys : List Key} {x : Nat × DictBlock} :
    x ∈ ix.placedBlocks keys ↔ ∃ key, keys[x.1]? = some key ∧ ix.dictBlockFor key = some x.2 := by
  unfold placedBlocks
  rw [List.mem_filterMap]
  constructor
  · rintro ⟨⟨key, i⟩, hmem, hx⟩
    obtain ⟨blk, hblk, rfl⟩ := Option.map_eq_some_iff.mp hx
    exact ⟨key, List.mem_zipIdx_iff_getElem?.mp hmem, hblk⟩
  · rintro ⟨key, hkey, hblk⟩
    exact ⟨(key, x.1), List.mem_zipIdx_iff_getElem?.mpr hkey, by rw [hblk]; rfl⟩

/-- **A batched lookup** answers for every key what the single one does. -/
theorem settles_lookupMany (hw : ix.WellFormed) (keys : List Key) :
    Settles (ix.lookupMany keys) (.ok (keys.map ix.findRec)) := by
  obtain ⟨datas, which, hread, hdata⟩ := @settles_readDictBlocks ix ((ix.placedBlocks keys).map Prod.snd) (by
    intro blk hblk
    obtain ⟨x, hx, rfl⟩ := List.mem_map.mp hblk
    obtain ⟨key, -, hkey⟩ := mem_placedBlocks.mp hx
    exact ⟨isBlock_dictBlockFor hkey, hw.block key _ hkey⟩)
  unfold lookupMany
  refine hread.bind ?_
  have hval : ∀ x ∈ (ix.placedBlocks keys).zipIdx,
      parseBlock (datas.getD (which.getD x.2 0) []) x.1.2.entries (keys.getD x.1.1 zeroKey) =
        ix.findRec (keys.getD x.1.1 zeroKey) := by
    intro x hx
    have hget : (ix.placedBlocks keys)[x.2]? = some x.1 := List.mem_zipIdx_iff_getElem?.mp hx
    obtain ⟨key, hkey, hblk⟩ := mem_placedBlocks.mp (List.mem_of_getElem? hget)
    have hk : keys.getD x.1.1 zeroKey = key := by simp [List.getD_eq_getElem?_getD, hkey]
    rw [hdata x.2 x.1.2 (by simp [hget]), hk, findRec, hblk]
    rfl
  have hout : (ix.placedBlocks keys).zipIdx.foldl (fun out x => out.set x.1.1
      (parseBlock (datas.getD (which.getD x.2 0) []) x.1.2.entries (keys.getD x.1.1 zeroKey)))
      (List.replicate keys.length none) = keys.map ix.findRec := by
    refine List.ext_getElem? fun i => ?_
    have hset := getElem?_foldl_set (fun x : (Nat × DictBlock) × Nat => x.1.1)
      (fun x => parseBlock (datas.getD (which.getD x.2 0) []) x.1.2.entries (keys.getD x.1.1 zeroKey))
      (fun i => ix.findRec (keys.getD i zeroKey)) _ hval (List.replicate keys.length none) i
    rw [hset, List.getElem?_map, List.getElem?_replicate]
    have hplaced : i ∈ (ix.placedBlocks keys).zipIdx.map (fun x => x.1.1) ↔
        ∃ blk, (i, blk) ∈ ix.placedBlocks keys := by
      have hfst : (ix.placedBlocks keys).zipIdx.map (fun x => x.1.1) = (ix.placedBlocks keys).map Prod.fst := by
        conv => rhs; rw [show ix.placedBlocks keys = (ix.placedBlocks keys).zipIdx.map Prod.fst by simp]
        rw [List.map_map]
        rfl
      rw [hfst, List.mem_map]
      constructor
      · rintro ⟨x, hx, rfl⟩
        exact ⟨x.2, hx⟩
      · rintro ⟨blk, hx⟩
        exact ⟨_, hx, rfl⟩
    by_cases hlt : i < keys.length
    · have hkey : keys[i]? = some keys[i] := List.getElem?_eq_getElem hlt
      have hgetD : keys.getD i zeroKey = keys[i] := List.getD_eq_getElem _ _ hlt
      rw [if_pos hlt, hkey, hgetD]
      split
      · rfl
      · next hnot =>
        rw [hplaced] at hnot
        have hnone : ix.dictBlockFor keys[i] = none := by
          rw [Option.eq_none_iff_forall_ne_some]
          intro blk hblk
          exact hnot ⟨blk, mem_placedBlocks.mpr ⟨_, hkey, hblk⟩⟩
        simp only [Option.map_some, findRec, hnone, Option.bind_none]
    · rw [if_neg hlt, List.getElem?_eq_none (by omega)]
      simp
  rw [← hout]
  exact Settles.pure _

/-- **A key's posting**, through a lookup and one read. -/
theorem settles_posting (hw : ix.WellFormed) (key : Key) : Settles (ix.posting key) (.ok (ix.postingOf key)) := by
  unfold posting postingOf
  refine (settles_lookup hw key).bind ?_
  cases hrec : ix.findRec key with
  | none => exact Settles.pure _
  | some r => exact (settles_readPosting (hw.postingAt hrec)).map

/-- How many docs a key has. -/
theorem settles_termCount (hw : ix.WellFormed) (key : Key) :
    Settles (ix.termCount key) (.ok ((ix.postingOf key).map AscSet.len)) := by
  unfold termCount postingOf
  refine (settles_lookup hw key).bind ?_
  cases hrec : ix.findRec key with
  | none => exact Settles.pure _
  | some r => exact (settles_postingCardinality (hw.postingAt hrec)).map

end

end Index

/-! ## The writer's file -/

namespace Corpus

section

variable [Roaring]

/-- The boot region's length, from any first part of the file that holds the 16-byte header. -/
theorem rrsBootLen_eq (c : Corpus) {n : Nat} (hn : headerSize ≤ n) (hl : n ≤ c.bytes.length) :
    rrsBootLen (slice c.bytes 0 n) = .ok c.dictStart := by
  obtain ⟨hm, hv, -, hc, hs, -⟩ := c.bytes_fields
  have hsize : headerSize = 16 := rfl
  have hlt := c.length_bytes_lt
  have hds := c.dictStart_le_length
  have hdef : c.dictStart = c.headerLen + c.sparseCount * 8 := rfl
  have hfield : ∀ w off : Nat, off + w ≤ 16 → getLe w (slice c.bytes 0 n) off = getLe w c.bytes off := by
    intro w off ho
    rw [getLe_slice _ _ _ _ _ (by omega), Nat.zero_add]
  unfold rrsBootLen
  rw [if_neg (by rw [length_slice _ _ _ (by omega)]; omega), if_neg (by
    rw [slice_slice _ _ _ _ _ (by omega), Nat.zero_add, hm]
    simp), hfield 2 4 (by omega), hfield 4 8 (by omega), hfield 4 12 (by omega), hv, hc, hs, sparseLayout_eq]
  have hhead : rrsHeaderSize (if c.caseFold then formatVersion else formatVersionV4) = .ok c.headerLen := by
    unfold headerLen
    cases c.caseFold <;> rfl
  rw [hhead]
  show (if u64Bound ≤ c.headerLen + c.sparseCount * 8 then _ else _) = _
  rw [if_neg (by omega), hdef]
  rfl

end

/-- Entries with distinct keys, in any order, are the postings of a corpus. -/
theorem exists_perm {gramSize stride : Nat} (hg : gramSize < 2 ^ 16) (hs : stride < 2 ^ 32) (caseFold : Bool)
    {entries : List (Key × Bitmap)} (hnd : (entries.map Prod.fst).Nodup) (hn : entries.length < 2 ^ 32) :
    ∃ c : Corpus, c.gramSize = gramSize ∧ (if stride = 0 then defaultStride else stride) = c.stride ∧
      c.caseFold = caseFold ∧ entries.Perm c.posts := by
  have hperm := sortByKey_perm Prod.fst entries
  have hasc : (sortByKey Prod.fst entries).Pairwise (fun a b => a.1 < b.1) := by
    have hnd' : (sortByKey Prod.fst entries).Pairwise (fun a b => a.1 ≠ b.1) :=
      List.pairwise_map.mp ((hperm.map Prod.fst).nodup_iff.mpr hnd)
    exact ((sortByKey_sorted Prod.fst entries).and hnd').imp fun h => lt_of_le_of_ne h.1 h.2
  have hpos : 0 < (if stride = 0 then defaultStride else stride) := by
    split
    · decide
    · omega
  have hlt : (if stride = 0 then defaultStride else stride) < 2 ^ 32 := by
    split
    · decide
    · exact hs
  exact ⟨⟨gramSize, _, caseFold, sortByKey Prod.fst entries, hg, hpos, hlt, hasc, by
    rw [length_sortByKey]; exact hn⟩, rfl, rfl, rfl, hperm.symm⟩

end Corpus

section

variable [Roaring]

/-- Entries as `write_index_with` takes them. -/
def serializeEntries (entries : List (Key × Bitmap)) : List (Key × Bytes) :=
  entries.map fun e => (e.1, serializePosting e.2)

/-- **An index file is read back**, opened by reads or from its boot region: the same index, every key's
posting, and batched lookups that agree with single ones. -/
theorem rrs_roundTrip {gramSize stride : Nat} (hg : gramSize < 2 ^ 16) (hs : stride < 2 ^ 32) (caseFold : Bool)
    {entries : List (Key × Bitmap)} (hnd : (entries.map Prod.fst).Nodup) (hn : entries.length < 2 ^ 32) :
    ∃ file ix n, writeIndexWith gramSize stride (serializeEntries entries) caseFold = .ok file ∧
      Settles (Index.open (MemoryFetch.new file)) (.ok ix) ∧
      rrsBootLen file = .ok n ∧ Index.fromBoot (slice file 0 n) (MemoryFetch.new file) = .ok ix ∧
      ix.gramSize = gramSize ∧ ix.caseFold = caseFold ∧
      (∀ key, Settles (ix.posting key) (.ok ((entries.find? fun e => e.1 == key).map Prod.snd))) ∧
      ∀ keys, ∃ recs, Settles (ix.lookupMany keys) (.ok recs) ∧
        List.Forall₂ (fun key r => Settles (ix.lookup key) (.ok r)) keys recs := by
  obtain ⟨c, rfl, hstride, rfl, hperm⟩ := Corpus.exists_perm hg hs caseFold hnd hn
  have hw := c.wellFormed
  have h16 : headerSize ≤ c.bytes.length := by
    have h1 := c.dictStart_le_length
    have h2 := c.headerLen_le.1
    unfold Corpus.dictStart at h1
    omega
  refine ⟨c.bytes, c.index (MemoryFetch.new c.bytes), c.dictStart, ?_, c.settles_open, ?_,
    c.fromBoot_eq _, rfl, rfl, fun key => ?_, fun keys => ?_⟩
  · exact c.writeIndexWith_eq hstride (hperm.map _)
  · have := c.rrsBootLen_eq h16 (Nat.le_refl _)
    rwa [slice_zero_length] at this
  · have := Index.settles_posting hw key
    rw [c.postingOf_eq] at this
    rw [← find?_eq_of_perm hperm.symm hnd]
    exact this
  · refine ⟨_, Index.settles_lookupMany hw keys, ?_⟩
    rw [List.forall₂_map_right_iff, List.forall₂_same]
    intro key _
    exact Index.settles_lookup hw key

end

section

attribute [local instance] PortableCodec.roaring

def twoKeys : List (Key × Bitmap) :=
  [(⟨7, by decide⟩, AscSet.ofList [0, 70000] (by decide)), (zeroKey, AscSet.ofList [3] (by decide))]

theorem rrs_roundTrip_twoKeys : ∃ file ix, writeIndexWith 3 0 (serializeEntries twoKeys) false = .ok file ∧
    Settles (Index.open (MemoryFetch.new file)) (.ok ix) ∧
    Settles (ix.posting zeroKey) (.ok (some (AscSet.ofList [3] (by decide)))) ∧
    Settles (ix.posting ⟨8, by decide⟩) (.ok none) := by
  obtain ⟨file, ix, n, hfile, hopen, -, -, -, -, hpost, -⟩ := @rrs_roundTrip _ 3 0 (by decide) (by decide) false
    twoKeys (by decide) (by decide)
  exact ⟨file, ix, hfile, hopen, hpost zeroKey, hpost _⟩

end

/-! ## Where the count wraps -/

section

/-- A dictionary of `2 ^ 32` keys is declared empty. -/
theorem writeIndexWith_wraps (gramSize stride : Nat) {entries : List (Key × Bytes)}
    (hnd : (entries.map Prod.fst).Nodup) (hlen : entries.length = 2 ^ 32) (hpost : ∀ e ∈ entries, e.2.length < 2 ^ 30) :
    ∃ rest, writeIndexWith gramSize stride entries true =
        .ok (rrsHeader gramSize 0 (if stride = 0 then defaultStride else stride) true ++ rest) ∧
      2 ^ 32 * 20 ≤ rest.length ∧ rest.length ≤ 2 ^ 32 * 20 + 2 ^ 32 * 2 ^ 30 := by
  have hperm := sortByKey_perm Prod.fst entries
  have hslen : (sortByKey Prod.fst entries).length = 2 ^ 32 := by rw [length_sortByKey, hlen]
  have hsort : ∀ e ∈ sortByKey Prod.fst entries, e.2.length < 2 ^ 30 := by
    intro e he
    exact hpost e (hperm.mem_iff.mp he)
  have hdup : ((sortByKey Prod.fst entries).zip (sortByKey Prod.fst entries).tail).any
      (fun w => w.1.1 == w.2.1) = false := by
    have hnd' : (sortByKey Prod.fst entries).Pairwise (fun a b => a.1 ≠ b.1) :=
      List.pairwise_map.mp ((hperm.map Prod.fst).nodup_iff.mpr hnd)
    rw [List.any_eq_false]
    intro w hw
    obtain ⟨i, hi, rfl⟩ := List.getElem_of_mem hw
    rw [List.length_zip, List.length_tail] at hi
    rw [List.getElem_zip, List.getElem_tail]
    simpa using List.pairwise_iff_getElem.mp hnd' i (i + 1) (by omega) (by omega) (by omega)
  have hwrap : 2 ^ 32 % 2 ^ 32 = 0 := Nat.mod_self _
  unfold writeIndexWith
  simp only [hdup, Bool.false_eq_true, if_false, hslen, hwrap, if_true]
  rw [writeDict_eq fun e he => Nat.lt_trans (hsort e he) (by decide)]
  refine ⟨_, rfl, ?_⟩
  have hflat := Corpus.length_flatMap_snd_le hsort
  rw [hslen] at hflat
  rw [List.length_append, List.length_append, length_table length_dictRow, length_dictRecs, hslen]
  have hnone : (writeSparseIndex (sortByKey Prod.fst entries) 0
      (if stride = 0 then defaultStride else stride)).length = 0 := rfl
  constructor <;> omega

/-- A file that declares no keys opens as an empty index. -/
theorem settles_open_noKeys {gramSize stride : Nat} (hg : gramSize < 2 ^ 16) (hs : stride < 2 ^ 32) {rest : Bytes}
    (hlen : (rrsHeader gramSize 0 stride true ++ rest).length < u64Bound) :
    Settles (Index.open (MemoryFetch.new (rrsHeader gramSize 0 stride true ++ rest)))
      (.ok ⟨MemoryFetch.new (rrsHeader gramSize 0 stride true ++ rest), gramSize, 0, stride, headerSize, [], true⟩) := by
  obtain ⟨hm, hv, hgram, hn, hstride, -⟩ := Corpus.rrsHeader_fields hg (by decide : 0 < 2 ^ 32) hs true rest
  have hhead : headerSize ≤ (rrsHeader gramSize 0 stride true ++ rest).length := by
    rw [List.length_append, Corpus.length_rrsHeader]
    exact Nat.le_add_right _ _
  generalize rrsHeader gramSize 0 stride true ++ rest = file at *
  have hfield : ∀ w off : Nat, off + w ≤ 16 → getLe w (slice file 0 headerSize) off = getLe w file off := by
    intro w off ho
    have := getLe_slice w file 0 headerSize off ho
    rwa [Nat.zero_add] at this
  unfold Index.open
  refine (MemoryFetch.settles_read (MemoryFetch.inFile_new hlen (by omega))).bind ?_
  have hb : (MemoryFetch.new file).bytes = file := rfl
  rw [hb, if_neg (by rw [length_slice _ _ _ (by omega)]; omega),
    if_neg (by rw [slice_slice _ _ _ _ _ (by decide), Nat.add_zero, hm]; simp), hfield 2 4 (by omega), hv, if_pos rfl,
    if_pos rfl]
  unfold openSparse
  rw [hfield 4 8 (by omega), hfield 4 12 (by omega), hfield 2 6 (by omega), hn, hstride, hgram]
  have hlayout : sparseLayout 0 stride = .ok (0, 0) := by
    rw [sparseLayout, if_neg (by omega), sparseCount, if_pos (Or.inl rfl), if_neg (by decide)]
  rw [hlayout]
  refine (Settles.ofOutcome _).bind ?_
  refine (MemoryFetch.settles_read (MemoryFetch.inFile_new hlen (by omega))).bind ?_
  exact Settles.pure _

/-- An empty index has no posting. -/
theorem settles_posting_noKeys [Roaring] {ix : Index} (h : ix.ngrams = 0) (key : Key) :
    Settles (ix.posting key) (.ok none) := by
  have hnone : ix.dictBlockFor key = none := by rw [Index.dictBlockFor, if_pos h]
  unfold Index.posting Index.lookup
  rw [hnone]
  exact (Settles.pure _).bind (Settles.pure _)

end

section

attribute [local instance] PortableCodec.roaring

/-- `2 ^ 32` keys, every one of doc 0. -/
def crowdedEntries : List (Key × Bitmap) :=
  (List.range (2 ^ 32)).map fun i => (⟨i % 2 ^ 64, Nat.mod_lt _ (by decide)⟩, AscSet.ofList [0] (by decide))

theorem crowdedEntries_nodup : (crowdedEntries.map Prod.fst).Nodup := by
  have hkeys : crowdedEntries.map Prod.fst =
      (List.range (2 ^ 32)).map fun i => ⟨i % 2 ^ 64, Nat.mod_lt _ (by decide)⟩ := by
    unfold crowdedEntries
    rw [List.map_map]
    rfl
  rw [hkeys]
  refine List.Nodup.map_on (fun a ha b hb hab => ?_) List.nodup_range
  have ha := List.mem_range.mp ha
  have hb := List.mem_range.mp hb
  have := congrArg Fin.val hab
  simp only at this
  omega

theorem length_crowdedEntries : crowdedEntries.length = 2 ^ 32 := by
  unfold crowdedEntries
  rw [List.length_map, List.length_range]

/-- A list too long for the header's 32-bit count: the writer accepts it, and none of its keys is found. -/
theorem crowded_keys_lost :
    (crowdedEntries.map Prod.fst).Nodup ∧ (∀ e ∈ crowdedEntries, e.2.isEmpty = false) ∧
      (∃ e, crowdedEntries.find? (fun e => e.1 == zeroKey) = some e) ∧
      ∃ file ix, writeIndexWith 3 512 (serializeEntries crowdedEntries) true = .ok file ∧
        Settles (Index.open (MemoryFetch.new file)) (.ok ix) ∧ Settles (ix.posting zeroKey) (.ok none) := by
  have hnd := crowdedEntries_nodup
  have hlen := length_crowdedEntries
  refine ⟨hnd, ?_, ?_, ?_⟩
  · intro e he
    obtain ⟨i, -, rfl⟩ := List.mem_map.mp he
    rfl
  · have hmem : (zeroKey, AscSet.ofList [0] (by decide)) ∈ crowdedEntries :=
      List.mem_map.mpr ⟨0, List.mem_range.mpr (by decide), rfl⟩
    exact Option.isSome_iff_exists.mp (List.find?_isSome.mpr ⟨_, hmem, rfl⟩)
  · have hser : (serializeEntries crowdedEntries).map Prod.fst = crowdedEntries.map Prod.fst := by
      unfold serializeEntries
      rw [List.map_map]
      rfl
    obtain ⟨rest, hfile, -, hrest⟩ := @writeIndexWith_wraps 3 512 (serializeEntries crowdedEntries)
      (by rw [hser]; exact hnd) (by rw [serializeEntries, List.length_map]; exact hlen) (by
        intro e he
        obtain ⟨p, -, rfl⟩ := List.mem_map.mp he
        exact Roaring.length_serialize_lt p.2)
    refine ⟨_, _, hfile, settles_open_noKeys (by decide) (by decide) ?_, settles_posting_noKeys rfl zeroKey⟩
    rw [List.length_append, Corpus.length_rrsHeader]
    unfold u64Bound headerSize
    simp only [if_true]
    omega

end

end RoaringRange
