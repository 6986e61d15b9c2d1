import RoaringRange.SplitCap
import RoaringRange.TermsBuild
import Mathlib.Algebra.BigOperators.Group.List.Lemmas

/-!
# The size of a term index (`terms_build.rs`)

How many bytes the writer makes of some postings, from the terms and their docs alone, where bitmaps have no run
containers.  A term's posting block takes eight bytes for each container on either side of the boundary and two for
each doc, less what bitsets save; its dictionary entry four varints and what it does not share with the term before
it in its block.  The dictionary is cut into blocks greedily, and the router is over their last terms.

    a record, an entry and a block have these sizes      (recordSize_add, length_encodeFrom_add, length_encodeBlock)
    the writer's blocks are the greedy cut                                                        (finish_pushAll)
    and the file is their sum                                                              (length_writeTermIndex)
-/

namespace RoaringRange

open ByteString

/-! ## Postings -/

/-- The bytes of a set: a container takes eight in the header, and is an array of two bytes a doc or a bitset. -/
def plainSize (S : Bitmap) : Nat := 8 + ((distinctHighKeys S).map fun k => 8 + min (2 * (S.lows k).length) 8192).sum

/-- What the bitsets of a set save over arrays of its docs. -/
def bitsetSaving (S : Bitmap) : Nat := ((distinctHighKeys S).map fun k => 2 * (S.lows k).length - 8192).sum

theorem sum_lows (S : Bitmap) : ((distinctHighKeys S).map fun k => (S.lows k).length).sum = S.len := by
  have hcount : ∀ k, (S.lows k).length = (S.toList.map highKey).count k := by
    intro k
    rw [Bitmap.lows, List.length_map, ← List.countP_eq_length_filter, List.count, List.countP_map]
    congr 1
  have hperm : (distinctHighKeys S).Perm (S.toList.map highKey).dedup := by
    rw [List.perm_ext_iff_of_nodup ((distinctHighKeys_asc S).imp fun h => Nat.ne_of_lt h) (List.nodup_dedup _)]
    intro k
    rw [mem_distinctHighKeys, List.mem_dedup, List.mem_map]
    rfl
  simp only [hcount]
  rw [(hperm.map _).sum_nat, List.sum_map_count_dedup_eq_length, List.length_map]
  rfl

/-- The size of a set by its containers and docs. -/
theorem plainSize_add (S : Bitmap) :
    plainSize S + bitsetSaving S = 8 + 8 * (distinctHighKeys S).length + perElementBytes * S.len := by
  have h : ∀ ks : List Nat, (ks.map fun k => 8 + min (2 * (S.lows k).length) 8192).sum +
      (ks.map fun k => 2 * (S.lows k).length - 8192).sum =
        8 * ks.length + 2 * (ks.map fun k => (S.lows k).length).sum := by
    intro ks
    induction ks with
    | nil => rfl
    | cons k ks ih =>
      simp only [List.map_cons, List.sum_cons, List.length_cons]
      omega
  have hsum := h (distinctHighKeys S)
  rw [sum_lows] at hsum
  unfold plainSize bitsetSaving perElementBytes
  omega

/-- The size of a term's posting block: the tail's size, the head and the tail. -/
def recordSize (bound : Nat) (S : Bitmap) : Nat := 4 + plainSize (S.below bound) + plainSize (S.atLeast bound)

/-- The containers of a posting, on either side of the boundary. -/
def containerCount (bound : Nat) (S : Bitmap) : Nat :=
  (distinctHighKeys (S.below bound)).length + (distinctHighKeys (S.atLeast bound)).length

/-- What the bitsets of a posting save. -/
def postingSaving (bound : Nat) (S : Bitmap) : Nat := bitsetSaving (S.below bound) + bitsetSaving (S.atLeast bound)

theorem recordSize_add (bound : Nat) (S : Bitmap) :
    recordSize bound S + postingSaving bound S = 20 + 8 * containerCount bound S + perElementBytes * S.len := by
  have hhead := plainSize_add (S.below bound)
  have htail := plainSize_add (S.atLeast bound)
  have hlen : (S.below bound).len + (S.atLeast bound).len = S.len := by
    have h := congrArg List.length (S.below_append_atLeast bound)
    rwa [List.length_append] at h
  unfold recordSize postingSaving containerCount perElementBytes at *
  omega

section

variable [Roaring] (hplain : PlainContainers)

include hplain

theorem length_serialize_plain (S : Bitmap) : (serialize S).length = plainSize S := by
  have hbody : ∀ ks : List Nat,
      bodyBytes (ks.map fun k => ⟨k, (S.lows k).length, Roaring.body (S.lows k)⟩) + ks.length * 8 =
        (ks.map fun k => 8 + min (2 * (S.lows k).length) 8192).sum := by
    intro ks
    induction ks with
    | nil => rfl
    | cons k ks ih =>
      have hone := hplain.body (S.lows k) (S.length_lows_le k)
      simp only [List.map_cons, List.sum_cons, List.length_cons, bodyBytes_cons, hone]
      split
      · omega
      · omega
  have hall := hbody (distinctHighKeys S)
  rw [Roaring.serialize_portable S (hplain.cookie S), length_assemble]
  unfold containersWith dataStart plainSize
  rw [List.length_map]
  omega

theorem length_record_plain (bound : Nat) (S : Bitmap) : (termRecord bound S).length = recordSize bound S := by
  rw [length_termRecord, length_serialize_plain hplain, length_serialize_plain hplain]
  unfold recordSize
  omega

end

/-! ## Dictionary entries -/

/-- The dictionary entries of postings whose first record is at `off`. -/
def sizedEntries (bound : Nat) (off : Nat) : List (Term × Bitmap) → List DictEntry
  | [] => []
  | p :: posts => ⟨p.1.bytes, off, plainSize (p.2.below bound)⟩ :: sizedEntries bound (off + recordSize bound p.2) posts

theorem termEntries_plain [Roaring] (hplain : PlainContainers) (bound : Nat) (off : Nat) (posts : List (Term × Bitmap)) :
    termEntries bound off posts = sizedEntries bound off posts := by
  induction posts generalizing off with
  | nil => rfl
  | cons p posts ih =>
    rw [termEntries, sizedEntries, length_serialize_plain hplain, length_record_plain hplain, ih]

/-- A sum over entries, each after the one before it. -/
def sumOver (f : Bytes → Nat → DictEntry → Nat) (prev : Bytes) (prevOff : Nat) : List DictEntry → Nat
  | [] => 0
  | e :: es => f prev prevOff e + sumOver f e.term e.headOff es

/-- The varints of an entry: the bytes it shares and does not share with the term before it, how far its posting lies
behind that term's, and the size of its head. -/
def framing (prev : Bytes) (prevOff : Nat) (e : DictEntry) : Nat :=
  uvarintLen (commonPrefix prev e.term) + uvarintLen (e.term.length - commonPrefix prev e.term) +
    uvarintLen (e.headOff - prevOff) + uvarintLen e.headSize

/-- What an entry shares with the term before it. -/
def sharedBytes (prev : Bytes) (_ : Nat) (e : DictEntry) : Nat := commonPrefix prev e.term

/-- The size of an entry. -/
def dictEntrySize (prev : Bytes) (prevOff : Nat) (e : DictEntry) : Nat :=
  framing prev prevOff e + (e.term.length - commonPrefix prev e.term)

/-- The size of a block. -/
def blockSize (es : List DictEntry) : Nat := sumOver dictEntrySize [] 0 es

theorem length_encodeFrom (prev : Bytes) (prevOff : Nat) (es : List DictEntry) :
    (encodeFrom prev prevOff es).length = sumOver dictEntrySize prev prevOff es := by
  induction es generalizing prev prevOff with
  | nil => rfl
  | cons e es ih =>
    rw [encodeFrom, List.length_append, ih, sumOver]
    congr 1
    simp only [encodeEntry, writeUvarint, List.length_append, Varint.length_encode, List.length_drop, dictEntrySize, framing,
      uvarintLen]
    omega

theorem length_encodeBlock (es : List DictEntry) : (encodeBlock es).length = blockSize es := length_encodeFrom [] 0 es

/-- The size of entries by their varints and terms. -/
theorem sumOver_dictEntrySize (prev : Bytes) (prevOff : Nat) (es : List DictEntry) :
    sumOver dictEntrySize prev prevOff es + sumOver sharedBytes prev prevOff es =
      sumOver framing prev prevOff es + (es.map fun e => e.term.length).sum := by
  induction es generalizing prev prevOff with
  | nil => rfl
  | cons e es ih =>
    have hone := commonPrefix_le prev e.term
    have hrest := ih e.term e.headOff
    simp only [sumOver, List.map_cons, List.sum_cons, dictEntrySize, sharedBytes]
    omega

/-! ## Blocks -/

/-- The entries cut into blocks: behind those of the open block, one starts a block where it would take it past the
cap. -/
def cutBlocks (cap : Nat) (open' : List DictEntry) : List DictEntry → List (List DictEntry)
  | [] => if open'.isEmpty then [] else [open']
  | e :: es =>
    if !open'.isEmpty && cap < blockSize (open' ++ [e]) then open' :: cutBlocks cap [e] es
    else cutBlocks cap (open' ++ [e]) es

/-- The keys and values of the router over blocks from `off` on. -/
def routerOver (off : Nat) : List (List DictEntry) → List (Bytes × Nat)
  | [] => []
  | g :: gs => ((lastEntry g).term, packLoc off (blockSize g)) :: routerOver (off + blockSize g) gs

theorem map_blocksOf (off : Nat) (gs : List (List DictEntry)) :
    ((blocksOf off gs).map fun b => (b.lastTerm, packLoc b.off b.bytes.length)) = routerOver off gs := by
  induction gs generalizing off with
  | nil => rfl
  | cons g gs ih =>
    rw [blocksOf, List.map_cons, ih, routerOver, length_encodeBlock]

namespace BlockWriter

variable {w : BlockWriter} {groups : List (List DictEntry)} {open' : List DictEntry}

/-- A push starts a block where the entry would take the open one past the cap. -/
theorem Holds.push_cut (h : w.Holds groups open') (e : DictEntry) :
    if !open'.isEmpty && w.cap < blockSize (open' ++ [e]) then
      (w.push e.term e.headOff e.headSize).Holds (groups ++ [open']) [e]
    else (w.push e.term e.headOff e.headSize).Holds groups (open' ++ [e]) := by
  have hlen := h.entryLen_eq e
  rw [length_encodeBlock] at hlen
  have hcount : 0 < w.count ↔ (!open'.isEmpty) = true := by
    rw [h.count, Bool.not_eq_true', List.isEmpty_eq_false_iff, List.length_pos_iff]
  unfold BlockWriter.push makeRoom
  rw [hlen]
  by_cases hcut : 0 < w.count ∧ w.cap < blockSize (open' ++ [e])
  · have hflush := h.flush_groups
    rw [if_neg (by simpa using hcount.mp hcut.1)] at hflush
    rw [if_pos hcut, if_pos (by rw [hcount.mp hcut.1, Bool.true_and]; exact decide_eq_true hcut.2)]
    exact hflush.append e
  · rw [if_neg hcut, if_neg (by rw [Bool.and_eq_true, ← hcount, decide_eq_true_iff]; exact hcut)]
    exact h.append e

theorem Holds.pushAll_cut (h : w.Holds groups open') (es : List DictEntry) :
    (w.pushAll es).finish = blocksOf 0 (groups ++ cutBlocks w.cap open' es) := by
  induction es generalizing w groups open' with
  | nil => exact h.flush_groups.blocks
  | cons e es ih =>
    have hpush := h.push_cut e
    unfold cutBlocks
    split at hpush
    · next hcut =>
      have hrest := ih hpush
      rw [cap_push, List.append_assoc, List.singleton_append] at hrest
      rw [if_pos hcut]
      exact hrest
    · next hcut =>
      have hrest := ih hpush
      rw [cap_push] at hrest
      rw [if_neg hcut]
      exact hrest

end BlockWriter

/-- **The blocks of a dictionary are the greedy cut of its entries.** -/
theorem finish_pushAll (cap : Nat) (es : List DictEntry) : ((BlockWriter.new cap).pushAll es).finish =
    blocksOf 0 (cutBlocks (if cap = 0 then defaultDictBlockCap else cap) [] es) :=
  (BlockWriter.holds_new cap).pushAll_cut es

theorem flatten_cutBlocks (cap : Nat) (open' es : List DictEntry) : (cutBlocks cap open' es).flatten = open' ++ es := by
  induction es generalizing open' with
  | nil => cases open' <;> simp [cutBlocks]
  | cons e es ih =>
    unfold cutBlocks
    split
    · rw [List.flatten_cons, ih]
      rfl
    · rw [ih, List.append_assoc]
      rfl

/-! ## Files -/

/-- The blocks of an index over the postings. -/
def indexBlocks (posts : TermMap) (config : TermIndexConfig) : List (List DictEntry) :=
  cutBlocks (if config.blockCap = 0 then defaultDictBlockCap else config.blockCap) []
    (sizedEntries config.headBoundary 0 posts.toList)

/-- The bytes of all posting blocks. -/
def recordBytes (posts : TermMap) (config : TermIndexConfig) : Nat :=
  OrdMap.weigh (fun _ S => recordSize config.headBoundary S) posts

theorem length_termRegion_plain [Roaring] (hplain : PlainContainers) (bound : Nat) (posts : List (Term × Bitmap)) :
    (termRegion bound posts).length = OrdMap.weighList (fun _ S => recordSize bound S) posts := by
  induction posts with
  | nil => rfl
  | cons p posts ih =>
    have hsplit : (termRegion bound (p :: posts)).length =
        (termRecord bound p.2).length + (termRegion bound posts).length := List.length_append
    rw [hsplit, ih, length_record_plain hplain, OrdMap.weighList]

/-- **The length of a file**: header, router, blocks and posting blocks. -/
theorem length_writeTermIndex [Roaring] [Fst] (hplain : PlainContainers) {posts : TermMap} {config : TermIndexConfig}
    {file : Bytes} (h : writeTermIndexFromPostings posts config = .ok file) :
    ∃ router, Fst.build (routerOver 0 (indexBlocks posts config)) = .ok router ∧
      file.length = rrtiHeaderSize + router.length + ((indexBlocks posts config).map blockSize).sum +
        recordBytes posts config := by
  unfold writeTermIndexFromPostings at h
  cases hpush : pushPostings (TermIndexStreamWriter.new config) posts.toList with
  | error e =>
    simp only [hpush, bind, Except.bind] at h
    cases h
  | ok sw =>
    obtain ⟨hc, hr, hb, -, -, -⟩ := pushPostings_ok hpush
    have hfin : sw.blocks.finish = blocksOf 0 (indexBlocks posts config) := by
      rw [hb]
      show ((BlockWriter.new config.blockCap).pushAll (termEntries config.headBoundary 0 posts.toList)).finish = _
      rw [finish_pushAll, termEntries_plain hplain]
      rfl
    have hregion : sw.region.length = recordBytes posts config := by
      rw [hr]
      exact length_termRegion_plain hplain config.headBoundary posts.toList
    have hblocks : (((blocksOf 0 (indexBlocks posts config)).map Block.bytes).flatten).length =
        ((indexBlocks posts config).map blockSize).sum := by
      rw [← List.flatMap_def, length_flatMap_blocks]
      unfold groupsLen
      simp only [length_encodeBlock]
    cases hmeta : sw.finishMeta with
    | error e =>
      simp only [hpush, hmeta, bind, Except.bind] at h
      cases h
    | ok parts =>
      simp only [hpush, hmeta, bind, Except.bind] at h
      obtain rfl := Except.ok.inj h
      unfold TermIndexStreamWriter.finishMeta at hmeta
      split at hmeta
      · cases hmeta
      · rw [hfin] at hmeta
        cases hes : TermIndexStreamWriter.routerEntries (blocksOf 0 (indexBlocks posts config)) with
        | error e =>
          simp only [hes, bind, Except.bind] at hmeta
          cases hmeta
        | ok es =>
          obtain ⟨rfl, -⟩ := routerEntries_ok hes
          rw [map_blocksOf] at hes
          cases hbuild : Fst.build (routerOver 0 (indexBlocks posts config)) with
          | error e =>
            simp only [hes, hbuild, bind, Except.bind] at hmeta
            cases hmeta
          | ok router =>
            simp only [hes, hbuild, bind, Except.bind] at hmeta
            split at hmeta
            · cases hmeta
            · obtain rfl := Except.ok.inj hmeta
              refine ⟨router, rfl, ?_⟩
              simp only [List.length_append, TermFile.length_rrtiHeader, hregion, hblocks]
              omega

end RoaringRange
