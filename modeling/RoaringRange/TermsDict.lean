import RoaringRange.Lib.Varint
import RoaringRange.Fetch
import Mathlib.Data.List.Lex

/-!
# The blocked term dictionary (`terms_dict.rs`)

Entries in byte order of their terms are front-coded into blocks of about `cap` bytes: an entry writes
what its term does not share with the one before it, and its posting's offset as a difference.  A block
stands alone.

    the written blocks hold the pushed entries, in order                           (blocks_pushAll)
    iterating over a block gives its entries back                                  (iterBlock_encode)
    scanning a block finds exactly the terms it holds                              (scanBlock_encode)
-/

namespace RoaringRange

open ByteString

/-- Bytes compare as numbers, byte strings as dictionary words. -/
instance byteOrder : LinearOrder UInt8 where
  le_refl := UInt8.le_refl
  le_trans _ _ _ := UInt8.le_trans
  lt_iff_le_not_ge a b := by
    rw [UInt8.lt_iff_toNat_lt, UInt8.le_iff_toNat_le, UInt8.le_iff_toNat_le]
    omega
  le_antisymm _ _ := UInt8.le_antisymm
  le_total := UInt8.le_total
  toDecidableLE := inferInstance
  toDecidableEq := inferInstance
  toDecidableLT := inferInstance
  compare_eq_compareOfLessAndEq _ _ := rfl

/-- `DEFAULT_DICT_BLOCK_CAP`. -/
def defaultDictBlockCap : Nat := 4096

/-- `SIZE_BITS`. -/
def sizeBits : Nat := 24

/-- `terms_dict::pack_loc`. -/
def packLoc (off size : Nat) : Nat := off <<< sizeBits % 2 ^ 64 ||| size

/-- `terms_dict::unpack_loc`. -/
def unpackLoc (packed : Nat) : Nat × Nat := (packed >>> sizeBits, packed % 2 ^ sizeBits)

/-- `terms_dict::write_uvarint`, the bytes it appends. -/
def writeUvarint (v : Nat) : Bytes := Varint.encode v

/-- `terms_dict::read_uvarint`, with the bytes left after the number. -/
def readUvarint (b : Bytes) : Option (Nat × Bytes) := Varint.decode b

/-- `terms_dict::uvarint_len`. -/
def uvarintLen (v : Nat) : Nat := Varint.size v

/-- `terms_dict::common_prefix`. -/
def commonPrefix : Bytes → Bytes → Nat
  | a :: as, b :: bs => if a = b then commonPrefix as bs + 1 else 0
  | _, _ => 0

/-- `terms_dict::Block`. -/
structure Block where
  bytes : Bytes
  off : Nat
  lastTerm : Bytes
  deriving DecidableEq

/-- `terms_dict::BlockWriter`. -/
structure BlockWriter where
  cap : Nat
  cur : Bytes
  lastTerm : Bytes
  prevTerm : Bytes
  prevHeadOff : Nat
  count : Nat
  blocks : List Block
  dictLen : Nat

namespace BlockWriter

/-- `BlockWriter::new`. -/
def new (cap : Nat) : BlockWriter :=
  ⟨if cap = 0 then defaultDictBlockCap else cap, [], [], [], 0, 0, [], 0⟩

/-- `BlockWriter::flush`. -/
def flush (w : BlockWriter) : BlockWriter :=
  if w.count = 0 then w
  else
    { w with
      cur := []
      lastTerm := []
      prevTerm := []
      prevHeadOff := 0
      count := 0
      blocks := w.blocks ++ [⟨w.cur, w.dictLen, w.lastTerm⟩]
      dictLen := w.dictLen + w.cur.length }

/-- The length of an entry in the open block. -/
def entryLen (w : BlockWriter) (term : Bytes) (headOff headSize : Nat) : Nat :=
  let shared := commonPrefix w.prevTerm term
  uvarintLen shared + uvarintLen (term.length - shared) + (term.length - shared) +
    uvarintLen (headOff - w.prevHeadOff) + uvarintLen headSize

/-- The open block is sealed when the entry would take it past the cap. -/
def makeRoom (w : BlockWriter) (term : Bytes) (headOff headSize : Nat) : BlockWriter :=
  if 0 < w.count ∧ w.cap < w.cur.length + w.entryLen term headOff headSize then w.flush else w

/-- Appends the entry to the open block. -/
def append (w : BlockWriter) (term : Bytes) (headOff headSize : Nat) : BlockWriter :=
  let first := w.count = 0
  let shared := if first then 0 else commonPrefix w.prevTerm term
  let headOffD := if first then headOff else headOff - w.prevHeadOff
  { w with
    cur := w.cur ++ (writeUvarint shared ++ (writeUvarint (term.length - shared) ++ (term.drop shared ++
      (writeUvarint headOffD ++ writeUvarint headSize))))
    lastTerm := term
    prevTerm := term
    prevHeadOff := headOff
    count := w.count + 1 }

/-- `BlockWriter::push`. -/
def push (w : BlockWriter) (term : Bytes) (headOff headSize : Nat) : BlockWriter :=
  (w.makeRoom term headOff headSize).append term headOff headSize

/-- `BlockWriter::finish`. -/
def finish (w : BlockWriter) : List Block := w.flush.blocks

end BlockWriter

/-! ## Reading a block -/

/-- What an iteration over a block carries from one entry to the next. -/
structure BlockIter where
  rest : Bytes
  prev : Bytes
  headOff : Nat
  first : Bool

/-- The next entry of a block, `BlockIter::next` before the end of the block. -/
def BlockIter.entry (it : BlockIter) : Option ((Bytes × Nat × Nat) × BlockIter) := do
  let (shared, rest) ← readUvarint it.rest
  let (suffixLen, rest) ← readUvarint rest
  if rest.length < suffixLen then none
  else do
    let (headOffD, rest') ← readUvarint (rest.drop suffixLen)
    let (headSize, rest') ← readUvarint rest'
    let shared := min shared it.prev.length
    let term := it.prev.take shared ++ rest.take suffixLen
    let headOff := if it.first then headOffD else saturatingAdd it.headOff headOffD
    pure ((term, headOff, headSize), ⟨rest', term, headOff, false⟩)

/-- `BlockIter` run to its end; every entry takes at least a byte. -/
def BlockIter.run : Nat → BlockIter → List (Bytes × Nat × Nat)
  | 0, _ => []
  | fuel + 1, it =>
    if it.rest.isEmpty then []
    else
      match it.entry with
      | none => []
      | some (e, it) => e :: run fuel it

/-- `terms_dict::iter_block`. -/
def iterBlock (block : Bytes) : List (Bytes × Nat × Nat) := BlockIter.run block.length ⟨block, [], 0, true⟩

/-- The loop of `scan_block`. -/
def scanEntries (term : Bytes) : List (Bytes × Nat × Nat) → Option (Nat × Nat)
  | [] => none
  | (t, loc) :: es => if t = term then some loc else if term < t then none else scanEntries term es

/-- `terms_dict::scan_block`. -/
def scanBlock (block term : Bytes) : Option (Nat × Nat) := scanEntries term (iterBlock block)

/-! ## Locations -/

/-- **A packed location is unpacked.** -/
theorem unpackLoc_packLoc {off size : Nat} (ho : off < 2 ^ 40) (hs : size < 2 ^ sizeBits) :
    unpackLoc (packLoc off size) = (off, size) := by
  have hoff : off <<< sizeBits % 2 ^ 64 = off <<< sizeBits := by
    apply Nat.mod_eq_of_lt
    rw [Nat.shiftLeft_eq]
    unfold sizeBits
    omega
  have hadd : off <<< sizeBits ||| size = off <<< sizeBits + size := (Nat.shiftLeft_add_eq_or_of_lt hs off).symm
  unfold unpackLoc packLoc
  rw [hoff, hadd, Nat.shiftRight_eq_div_pow, Nat.shiftLeft_eq]
  unfold sizeBits at *
  ext
  · show (off * 2 ^ 24 + size) / 2 ^ 24 = off
    omega
  · show (off * 2 ^ 24 + size) % 2 ^ 24 = size
    omega

theorem packLoc_lt {off size : Nat} (hs : size < 2 ^ sizeBits) : packLoc off size < 2 ^ 64 := by
  apply Nat.or_lt_two_pow
  · exact Nat.mod_lt _ (by decide)
  · exact Nat.lt_trans hs (by decide)

/-! ## The entries of a block -/

/-- `term -> (head_off, head_size)`. -/
structure DictEntry where
  term : Bytes
  headOff : Nat
  headSize : Nat
  deriving DecidableEq

def DictEntry.item (e : DictEntry) : Bytes × Nat × Nat := (e.term, e.headOff, e.headSize)

/-- An entry after the one with term `prev` at `prevOff`. -/
def encodeEntry (prev : Bytes) (prevOff : Nat) (e : DictEntry) : Bytes :=
  writeUvarint (commonPrefix prev e.term) ++ (writeUvarint (e.term.length - commonPrefix prev e.term) ++
    (e.term.drop (commonPrefix prev e.term) ++ (writeUvarint (e.headOff - prevOff) ++ writeUvarint e.headSize)))

/-- Entries after the one with term `prev` at `prevOff`. -/
def encodeFrom (prev : Bytes) (prevOff : Nat) : List DictEntry → Bytes
  | [] => []
  | e :: es => encodeEntry prev prevOff e ++ encodeFrom e.term e.headOff es

/-- The bytes of a block. -/
def encodeBlock (es : List DictEntry) : Bytes := encodeFrom [] 0 es

def lastEntry (es : List DictEntry) : DictEntry := es.getLastD ⟨[], 0, 0⟩

theorem commonPrefix_le (a b : Bytes) : commonPrefix a b ≤ a.length ∧ commonPrefix a b ≤ b.length := by
  induction a generalizing b with
  | nil => exact ⟨Nat.le_refl _, Nat.zero_le _⟩
  | cons x a ih =>
    cases b with
    | nil => exact ⟨Nat.zero_le _, Nat.le_refl _⟩
    | cons y b =>
      unfold commonPrefix
      by_cases h : x = y
      · rw [if_pos h]
        simp only [List.length_cons]
        have := ih b
        omega
      · rw [if_neg h]
        exact ⟨Nat.zero_le _, Nat.zero_le _⟩

theorem take_commonPrefix (a b : Bytes) : a.take (commonPrefix a b) = b.take (commonPrefix a b) := by
  induction a generalizing b with
  | nil => rw [show commonPrefix [] b = 0 by simp [commonPrefix]]; rfl
  | cons x a ih =>
    cases b with
    | nil => rfl
    | cons y b =>
      unfold commonPrefix
      by_cases h : x = y
      · rw [if_pos h, List.take_succ_cons, List.take_succ_cons, ih b, h]
      · rw [if_neg h]
        rfl

@[simp] theorem commonPrefix_nil (b : Bytes) : commonPrefix [] b = 0 := by
  simp [commonPrefix]

theorem encodeFrom_append (prev : Bytes) (prevOff : Nat) (es : List DictEntry) (e : DictEntry) :
    encodeFrom prev prevOff (es ++ [e]) = encodeFrom prev prevOff es ++
      encodeEntry (es.getLastD ⟨prev, prevOff, 0⟩).term (es.getLastD ⟨prev, prevOff, 0⟩).headOff e := by
  induction es generalizing prev prevOff with
  | nil => simp [encodeFrom]
  | cons x es ih =>
    rw [List.cons_append, encodeFrom, ih, encodeFrom, List.append_assoc]
    congr 2
    cases es <;> rfl

theorem length_encodeEntry (prev : Bytes) (prevOff : Nat) (e : DictEntry) :
    e.term.length < prev.length + (encodeEntry prev prevOff e).length ∧
      e.term.length - commonPrefix prev e.term < (encodeEntry prev prevOff e).length ∧
      0 < (encodeEntry prev prevOff e).length := by
  have h := commonPrefix_le prev e.term
  have hpos := Varint.size_pos e.headSize
  simp only [encodeEntry, writeUvarint, List.length_append, Varint.length_encode, List.length_drop]
  omega

/-- A term is no longer than the bytes up to it. -/
theorem term_length_le {es : List DictEntry} {prev : Bytes} {prevOff : Nat} {e : DictEntry} (he : e ∈ es) :
    e.term.length ≤ prev.length + (encodeFrom prev prevOff es).length := by
  induction es generalizing prev prevOff with
  | nil => cases he
  | cons x es ih =>
    have hx := (length_encodeEntry prev prevOff x).1
    rw [encodeFrom, List.length_append]
    rcases List.mem_cons.mp he with rfl | he
    · omega
    · have := @ih x.term x.headOff he
      have := length_encodeEntry prev prevOff x
      omega

/-! ## Writing blocks -/

/-- The blocks of the groups, one after the other from `off`. -/
def blocksOf (off : Nat) : List (List DictEntry) → List Block
  | [] => []
  | g :: gs => ⟨encodeBlock g, off, (lastEntry g).term⟩ :: blocksOf (off + (encodeBlock g).length) gs

def groupsLen (gs : List (List DictEntry)) : Nat := (gs.map fun g => (encodeBlock g).length).sum

theorem blocksOf_append (off : Nat) (gs : List (List DictEntry)) (g : List DictEntry) :
    blocksOf off (gs ++ [g]) =
      blocksOf off gs ++ [⟨encodeBlock g, off + groupsLen gs, (lastEntry g).term⟩] := by
  induction gs generalizing off with
  | nil => simp [blocksOf, groupsLen]
  | cons h gs ih =>
    rw [List.cons_append, blocksOf, ih, blocksOf]
    simp [groupsLen, Nat.add_assoc]

/-- The writer has sealed `groups` and its open block holds `open'`. -/
structure BlockWriter.Holds (w : BlockWriter) (groups : List (List DictEntry)) (open' : List DictEntry) : Prop where
  blocks : w.blocks = blocksOf 0 groups
  dictLen : w.dictLen = groupsLen groups
  ne_nil : ∀ g ∈ groups, g ≠ []
  cur : w.cur = encodeBlock open'
  count : w.count = open'.length
  lastTerm : w.lastTerm = (lastEntry open').term
  prevTerm : w.prevTerm = (lastEntry open').term
  prevHeadOff : w.prevHeadOff = (lastEntry open').headOff

namespace BlockWriter

variable {w : BlockWriter} {groups : List (List DictEntry)} {open' : List DictEntry}

theorem holds_new (cap : Nat) : (new cap).Holds [] [] :=
  ⟨rfl, rfl, by simp, rfl, rfl, rfl, rfl, rfl⟩

/-- Sealing moves the open block to the sealed ones, if it has an entry. -/
theorem Holds.flush_groups (h : w.Holds groups open') :
    w.flush.Holds (groups ++ if open'.isEmpty then [] else [open']) [] := by
  unfold BlockWriter.flush
  by_cases hc : w.count = 0
  · have hnil : open' = [] := List.length_eq_zero_iff.mp (h.count ▸ hc)
    subst hnil
    rw [if_pos hc, List.isEmpty_nil, if_pos rfl, List.append_nil]
    exact h
  · have hne : open' ≠ [] := by
      rintro rfl
      exact hc h.count
    rw [if_neg hc, if_neg (by rwa [List.isEmpty_iff])]
    refine ⟨?_, ?_, ?_, rfl, rfl, rfl, rfl, rfl⟩
    · rw [blocksOf_append, Nat.zero_add, h.blocks, h.cur, h.lastTerm, h.dictLen]
    · simp [groupsLen, h.dictLen, h.cur]
    · intro g hg
      rcases List.mem_append.mp hg with hg | hg
      · exact h.ne_nil g hg
      · rw [List.mem_singleton.mp hg]
        exact hne

theorem Holds.flush (h : w.Holds groups open') : ∃ groups', w.flush.Holds groups' [] ∧
    groups'.flatten = groups.flatten ++ open' ∧ ∀ g ∈ groups', g ∈ groups ∨ g = open' := by
  refine ⟨_, h.flush_groups, ?_, fun g hg => ?_⟩
  · cases open' <;> simp
  · refine (List.mem_append.mp hg).imp_right fun hg => ?_
    split at hg
    · cases hg
    · exact List.mem_singleton.mp hg

/-- Appending an entry continues the open block. -/
theorem Holds.append (h : w.Holds groups open') (e : DictEntry) :
    (w.append e.term e.headOff e.headSize).Holds groups (open' ++ [e]) := by
  have hlast : lastEntry (open' ++ [e]) = e := by simp [lastEntry]
  refine ⟨h.blocks, h.dictLen, h.ne_nil, ?_, ?_, ?_, ?_, ?_⟩
  · rw [encodeBlock, encodeFrom_append, ← encodeBlock, ← h.cur]
    show w.cur ++ _ = w.cur ++ encodeEntry (lastEntry open').term (lastEntry open').headOff e
    rw [← h.prevTerm, ← h.prevHeadOff]
    congr 1
    by_cases hc : w.count = 0
    · have hnil : open' = [] := List.length_eq_zero_iff.mp (h.count ▸ hc)
      have hp : w.prevTerm = [] := by rw [h.prevTerm, hnil]; rfl
      have ho : w.prevHeadOff = 0 := by rw [h.prevHeadOff, hnil]; rfl
      unfold encodeEntry
      rw [if_pos hc, if_pos hc, hp, ho, commonPrefix_nil]
      rfl
    · rw [if_neg hc, if_neg hc]
      rfl
  · simp [BlockWriter.append, h.count]
  · rw [hlast]
    rfl
  · rw [hlast]
    rfl
  · rw [hlast]
    rfl

/-- The length of an entry is known before it is written. -/
theorem Holds.entryLen_eq (h : w.Holds groups open') (e : DictEntry) :
    w.cur.length + w.entryLen e.term e.headOff e.headSize = (encodeBlock (open' ++ [e])).length := by
  rw [encodeBlock, encodeFrom_append, ← encodeBlock, ← h.cur, List.length_append]
  show _ = w.cur.length + (encodeEntry (lastEntry open').term (lastEntry open').headOff e).length
  rw [← h.prevTerm, ← h.prevHeadOff]
  simp only [entryLen, encodeEntry, writeUvarint, uvarintLen, List.length_append, Varint.length_encode, List.length_drop]
  omega

/-- Every group of more than one entry is within the cap. -/
def Capped (cap : Nat) (groups : List (List DictEntry)) : Prop :=
  ∀ g ∈ groups, 1 < g.length → (encodeBlock g).length ≤ cap

/-- A push adds its entry at the end, in the open block or a new one, and to no block beyond the cap. -/
theorem Holds.push (h : w.Holds groups open') (hcap : Capped w.cap (open' :: groups)) (e : DictEntry) :
    ∃ groups' open'', (w.push e.term e.headOff e.headSize).Holds groups' open'' ∧
      groups'.flatten ++ open'' = groups.flatten ++ open' ++ [e] ∧ Capped w.cap (open'' :: groups') := by
  unfold BlockWriter.push makeRoom
  split
  · obtain ⟨groups', hf, hflat, hmem⟩ := h.flush
    refine ⟨groups', [] ++ [e], hf.append e, by rw [hflat, List.nil_append], fun g hg hlen => ?_⟩
    rcases List.mem_cons.mp hg with rfl | hg
    · exact absurd hlen (by simp)
    · rcases hmem g hg with hg | rfl
      · exact hcap g (List.mem_cons_of_mem _ hg) hlen
      · exact hcap g List.mem_cons_self hlen
  · next hroom =>
    refine ⟨groups, open' ++ [e], h.append e, by rw [List.append_assoc], fun g hg hlen => ?_⟩
    rcases List.mem_cons.mp hg with rfl | hg
    · have hcount := h.count
      rw [List.length_append, List.length_singleton] at hlen
      rw [← h.entryLen_eq e]
      omega
    · exact hcap g (List.mem_cons_of_mem _ hg) hlen

/-- Pushes of a whole dictionary. -/
def pushAll (w : BlockWriter) (es : List DictEntry) : BlockWriter :=
  es.foldl (fun w e => w.push e.term e.headOff e.headSize) w

@[simp] theorem cap_push (w : BlockWriter) (term : Bytes) (headOff headSize : Nat) :
    (w.push term headOff headSize).cap = w.cap := by
  show (w.makeRoom term headOff headSize).cap = w.cap
  unfold makeRoom BlockWriter.flush
  split
  · split
    · rfl
    · rfl
  · rfl

theorem Holds.pushAll (h : w.Holds groups open') (hcap : Capped w.cap (open' :: groups)) (es : List DictEntry) :
    ∃ groups' open'', (w.pushAll es).Holds groups' open'' ∧
      groups'.flatten ++ open'' = groups.flatten ++ open' ++ es ∧ Capped w.cap (open'' :: groups') := by
  induction es generalizing w groups open' with
  | nil => exact ⟨groups, open', h, (List.append_nil _).symm, hcap⟩
  | cons e es ih =>
    obtain ⟨groups1, open1, h1, hflat1, hcap1⟩ := h.push hcap e
    obtain ⟨groups2, open2, h2, hflat2, hcap2⟩ := ih h1 (by rw [cap_push]; exact hcap1)
    refine ⟨groups2, open2, h2, ?_, by rwa [cap_push] at hcap2⟩
    rw [hflat2, hflat1]
    simp

end BlockWriter

/-- **The blocks of a dictionary hold its entries, in order**, and none of more than one entry exceeds the cap. -/
theorem blocks_pushAll_capped (cap : Nat) (es : List DictEntry) :
    ∃ groups, ((BlockWriter.new cap).pushAll es).finish = blocksOf 0 groups ∧ groups.flatten = es ∧
      (∀ g ∈ groups, g ≠ []) ∧ BlockWriter.Capped (if cap = 0 then defaultDictBlockCap else cap) groups := by
  have hnew : BlockWriter.Capped (BlockWriter.new cap).cap [[]] := by
    intro g hg hlen
    obtain rfl := List.mem_singleton.mp hg
    exact absurd hlen (by decide)
  obtain ⟨groups, open', h, hflat, hcap⟩ := (BlockWriter.holds_new cap).pushAll hnew es
  obtain ⟨groups', h', hflat', hmem⟩ := h.flush
  refine ⟨groups', h'.blocks, ?_, h'.ne_nil, fun g hg => ?_⟩
  · rw [hflat', hflat]
    rfl
  · rcases hmem g hg with hg | rfl
    · exact hcap g (List.mem_cons_of_mem _ hg)
    · exact hcap g List.mem_cons_self

theorem blocks_pushAll (cap : Nat) (es : List DictEntry) :
    ∃ groups, ((BlockWriter.new cap).pushAll es).finish = blocksOf 0 groups ∧ groups.flatten = es ∧
      ∀ g ∈ groups, g ≠ [] := by
  obtain ⟨groups, h, hflat, hne, -⟩ := blocks_pushAll_capped cap es
  exact ⟨groups, h, hflat, hne⟩

/-! ## Reading blocks back -/

/-- An entry of machine words. -/
structure DictEntry.InWords (e : DictEntry) : Prop where
  length_lt : e.term.length < 2 ^ 64
  headOff_lt : e.headOff < 2 ^ 64
  headSize_lt : e.headSize < 2 ^ 64

/-- An entry is read back over the one before it. -/
theorem BlockIter.entry_encode {e : DictEntry} {prev : Bytes} {prevOff : Nat} {first : Bool} {rest : Bytes}
    (he : e.InWords) (hle : prevOff ≤ e.headOff) (hfirst : first = true → prevOff = 0) :
    (BlockIter.mk (encodeEntry prev prevOff e ++ rest) prev prevOff first).entry =
      some (e.item, ⟨rest, e.term, e.headOff, false⟩) := by
  have hc := commonPrefix_le prev e.term
  obtain ⟨hlen, ho, hs⟩ := he
  unfold BlockIter.entry encodeEntry readUvarint writeUvarint
  simp only [List.append_assoc]
  rw [Varint.decode_encode (by omega)]
  simp only [Option.bind_eq_bind, Option.bind_some]
  rw [Varint.decode_encode (by omega)]
  simp only [Option.bind_some]
  rw [if_neg (by simp), List.drop_left' (by simp), Varint.decode_encode (by omega)]
  simp only [Option.bind_some]
  rw [Varint.decode_encode hs]
  simp only [Option.bind_some, Option.pure_def]
  have hshared : min (commonPrefix prev e.term) prev.length = commonPrefix prev e.term := by omega
  have hjoin : prev.take (commonPrefix prev e.term) ++ (e.term.drop (commonPrefix prev e.term) ++
      (Varint.encode (e.headOff - prevOff) ++ (Varint.encode e.headSize ++ rest))).take
        (e.term.length - commonPrefix prev e.term) = e.term := by
    rw [List.take_left' (by simp), take_commonPrefix, List.take_append_drop]
  have hoff : (if first = true then e.headOff - prevOff else saturatingAdd prevOff (e.headOff - prevOff)) =
      e.headOff := by
    unfold saturatingAdd usizeMax u64Bound
    cases first with
    | true =>
      have := hfirst rfl
      simp only [if_true]
      omega
    | false =>
      simp only [Bool.false_eq_true, if_false]
      omega
  rw [hshared, hjoin, hoff]
  rfl

theorem BlockIter.run_encode {es : List DictEntry} : ∀ {prev : Bytes} {prevOff : Nat} {first : Bool} {fuel : Nat},
    (∀ e ∈ es, e.InWords) → es.Pairwise (fun a b => a.headOff ≤ b.headOff) → (∀ e ∈ es, prevOff ≤ e.headOff) →
    (first = true → prevOff = 0) → es.length ≤ fuel →
    BlockIter.run fuel ⟨encodeFrom prev prevOff es, prev, prevOff, first⟩ = es.map DictEntry.item := by
  induction es with
  | nil =>
    intro prev prevOff first fuel _ _ _ _ _
    cases fuel with
    | zero => rfl
    | succ fuel => rfl
  | cons e es ih =>
    intro prev prevOff first fuel hfit hasc hle hfirst hf
    obtain ⟨fuel, rfl⟩ : ∃ n, fuel = n + 1 := ⟨fuel - 1, by simp only [List.length_cons] at hf; omega⟩
    have hpos := length_encodeEntry prev prevOff e
    obtain ⟨hhead, htail⟩ := List.pairwise_cons.mp hasc
    have hentry := @BlockIter.entry_encode e prev prevOff first (encodeFrom e.term e.headOff es)
      (hfit e List.mem_cons_self) (hle e List.mem_cons_self) hfirst
    unfold BlockIter.run
    rw [encodeFrom, if_neg (by
      rw [List.isEmpty_iff]
      intro h
      have := congrArg List.length h
      simp only [List.length_append, List.length_nil] at this
      omega), hentry]
    simp only [List.map_cons]
    rw [ih (fun x hx => hfit x (List.mem_cons_of_mem _ hx)) htail hhead (by simp)
      (by simp only [List.length_cons] at hf; omega)]

theorem length_le_encodeFrom (prev : Bytes) (prevOff : Nat) (es : List DictEntry) :
    es.length ≤ (encodeFrom prev prevOff es).length := by
  induction es generalizing prev prevOff with
  | nil => exact Nat.zero_le _
  | cons e es ih =>
    have h1 := ih e.term e.headOff
    have h2 := length_encodeEntry prev prevOff e
    rw [encodeFrom, List.length_append, List.length_cons]
    omega

/-- **A block's entries are read back.** -/
theorem iterBlock_encode_words {es : List DictEntry} (hfit : ∀ e ∈ es, e.InWords)
    (hoff : es.Pairwise fun a b => a.headOff ≤ b.headOff) : iterBlock (encodeBlock es) = es.map DictEntry.item :=
  BlockIter.run_encode hfit hoff (fun _ _ => Nat.zero_le _) (fun _ => rfl) (length_le_encodeFrom _ _ _)

/-- An entry whose posting the packed locations can name. -/
def DictEntry.Fits (e : DictEntry) : Prop := e.headOff < 2 ^ 40 ∧ e.headSize < 2 ^ sizeBits

section

variable {es : List DictEntry} (hfit : ∀ e ∈ es, e.Fits) (hoff : es.Pairwise fun a b => a.headOff ≤ b.headOff)
  (hlen : (encodeBlock es).length < 2 ^ sizeBits)

include hfit hoff hlen

/-- The entries of a block of a file. -/
theorem iterBlock_encode : iterBlock (encodeBlock es) = es.map DictEntry.item := by
  refine iterBlock_encode_words (fun e he => ?_) hoff
  obtain ⟨ho, hs⟩ := hfit e he
  have hterm := @term_length_le es [] 0 e he
  rw [← encodeBlock, List.length_nil, Nat.zero_add] at hterm
  have h24 : 2 ^ sizeBits < 2 ^ 64 := by decide
  exact ⟨by omega, by omega, by omega⟩

omit hfit hoff hlen in
/-- The scan stops early only where the term cannot come any more. -/
theorem scanEntries_eq (hasc : es.Pairwise fun a b => a.term < b.term) (term : Bytes) :
    scanEntries term (es.map DictEntry.item) =
      (es.find? fun e => e.term == term).map fun e => (e.headOff, e.headSize) := by
  induction es with
  | nil => rfl
  | cons e es ih =>
    obtain ⟨hlt, htail⟩ := List.pairwise_cons.mp hasc
    show (if e.term = term then _ else if term < e.term then _ else _) = _
    by_cases heq : e.term = term
    · rw [if_pos heq, List.find?_cons_of_pos (by simpa using heq)]
      rfl
    · rw [if_neg heq, List.find?_cons_of_neg (by simpa using heq)]
      by_cases hgt : term < e.term
      · rw [if_pos hgt, List.find?_eq_none.mpr]
        · rfl
        · intro x hx
          have := lt_trans hgt (hlt x hx)
          simpa using ne_of_gt this
      · rw [if_neg hgt]
        exact ih htail

/-- **Scanning a block** finds exactly the terms it holds. -/
theorem scanBlock_encode (hasc : es.Pairwise fun a b => a.term < b.term) (term : Bytes) :
    scanBlock (encodeBlock es) term =
      (es.find? fun e => e.term == term).map fun e => (e.headOff, e.headSize) := by
  unfold scanBlock
  rw [iterBlock_encode hfit hoff hlen]
  exact scanEntries_eq hasc term

end

end RoaringRange
