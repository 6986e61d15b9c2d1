import RoaringRange.Build
import RoaringRange.PortableCodec
import RoaringRange.Terms

/-!
# The RRTI writer (`terms_build.rs`)

Terms arrive in byte order, each with its posting split in a head and a tail.  The postings go one after
the other into a region, the dictionary into front-coded blocks, and a router over the blocks' last terms.

    what the writer accepts is header, router, blocks and region                 (writeTermIndex_ok)
    terms and postings within 24 bits are accepted                           (exists_writeTermIndex)
    the index read from that file serves the written map                            (TermFile.serves)
    so a search over the file is exact                                              (termSearch_exact)
    unless its router is past what a reader keeps resident                      (termSearch_wideTerms)
-/

namespace RoaringRange

open ByteString Faults Slices

/-- `terms_build::TermIndexConfig`. -/
structure TermIndexConfig where
  headBoundary : Nat
  language : Option Language
  stem : Bool
  stopwords : Bool
  caseSensitive : Bool
  blockCap : Nat
  headBoundary_lt : headBoundary < 2 ^ 32

/-- The tokenizer a builder makes of its config. -/
def TermIndexConfig.tokenizer (config : TermIndexConfig) : Tokenizer :=
  Tokenizer.with config.language config.stem config.stopwords !config.caseSensitive

/-- `terms_build::TermIndexStreamWriter` over a region in memory. -/
structure TermIndexStreamWriter where
  config : TermIndexConfig
  region : Bytes
  blocks : BlockWriter
  termCount : Nat

namespace TermIndexStreamWriter

/-- `TermIndexStreamWriter::new`. -/
def new (config : TermIndexConfig) : TermIndexStreamWriter := ⟨config, [], BlockWriter.new config.blockCap, 0⟩

/-- `TermIndexStreamWriter::push`. -/
def push (w : TermIndexStreamWriter) (term : String) (head tail : Bytes) : Except String TermIndexStreamWriter :=
  if 2 ^ sizeBits ≤ head.length then
    .error ("term " ++ debugText term ++ ": head posting " ++ toString head.length ++ " B exceeds the 24-bit size limit")
  else if 2 ^ (64 - sizeBits) ≤ w.region.length then .error "postings region exceeds the 40-bit offset limit"
  else
    .ok { w with
      region := w.region ++ (le 4 tail.length ++ (head ++ tail))
      blocks := w.blocks.push (utf8 term) w.region.length head.length
      termCount := w.termCount + 1 }

/-- The router entries of the blocks, each checked first. -/
def routerEntries : List Block → Except String (List (Bytes × Nat))
  | [] => .ok []
  | b :: bs =>
    if 2 ^ sizeBits ≤ b.bytes.length then .error "dict block exceeds the 24-bit block-length limit"
    else if 2 ^ (64 - sizeBits) ≤ b.off then .error "dict region exceeds the 40-bit block-offset limit"
    else do
      let rest ← routerEntries bs
      pure ((b.lastTerm, packLoc b.off b.bytes.length) :: rest)

end TermIndexStreamWriter

/-- The 40-byte header. -/
def rrtiHeader (config : TermIndexConfig) (termCount routerLen dictLen : Nat) : Bytes :=
  rrtiMagic ++ (le 2 rrtiVersion ++ (le 2 (tokenizerFlags config.stem config.stopwords !config.caseSensitive) ++
    (le 4 termCount ++ (le 4 config.headBoundary ++ (le 8 routerLen ++ (le 8 dictLen ++
      (le 4 (if config.blockCap = 0 then defaultDictBlockCap else config.blockCap) ++
        (le 1 (languageByte config.language config.stem config.stopwords) ++ le 3 0))))))))

section

variable [Fst]

/-- `TermIndexStreamWriter::finish_meta`. -/
def TermIndexStreamWriter.finishMeta (w : TermIndexStreamWriter) : Except String (Bytes × Bytes × List Bytes) :=
  if (w.config.stem || w.config.stopwords) = true ∧ w.config.language = none then
    .error "RRTI: stemming and stop-word removal require a language, but none is set"
  else do
    let blocks := w.blocks.finish
    let entries ← routerEntries blocks
    let router ← Fst.build entries
    if 2 ^ 32 ≤ w.termCount then throw "RRTI term count exceeds the 32-bit limit"
    else
      pure (rrtiHeader w.config w.termCount router.length (blocks.map fun b => b.bytes.length).sum, router,
        blocks.map Block.bytes)

variable [Roaring]

/-- The pushes of `write_term_index_from_postings`. -/
def pushPostings (w : TermIndexStreamWriter) : List (Term × Bitmap) → Except String TermIndexStreamWriter
  | [] => .ok w
  | (term, bm) :: posts => do
    let (head, tail) := splitPosting bm w.config.headBoundary
    let w ← w.push term.text head tail
    pushPostings w posts

/-- `terms_build::write_term_index_from_postings`. -/
def writeTermIndexFromPostings (postings : TermMap) (config : TermIndexConfig) : Except String Bytes := do
  let sw ← pushPostings (TermIndexStreamWriter.new config) postings.toList
  let (header, router, blocks) ← sw.finishMeta
  pure (header ++ (router ++ (blocks.flatten ++ sw.region)))

end

/-! ## What is written -/

section

variable [Roaring]

/-- A term's bytes in the postings region. -/
def termRecord (bound : Nat) (bm : Bitmap) : Bytes :=
  le 4 (serialize (bm.atLeast bound)).length ++ (serialize (bm.below bound) ++ serialize (bm.atLeast bound))

/-- The region's bytes for some postings. -/
def termRegion (bound : Nat) (posts : List (Term × Bitmap)) : Bytes := posts.flatMap fun p => termRecord bound p.2

/-- The dictionary entries of postings whose first record is at `off`. -/
def termEntries (bound : Nat) (off : Nat) : List (Term × Bitmap) → List DictEntry
  | [] => []
  | p :: posts => ⟨p.1.bytes, off, (serialize (p.2.below bound)).length⟩ ::
      termEntries bound (off + (termRecord bound p.2).length) posts

theorem length_termRecord (bound : Nat) (bm : Bitmap) : (termRecord bound bm).length =
    (serialize (bm.below bound)).length + 4 + (serialize (bm.atLeast bound)).length := by
  simp only [termRecord, List.length_append, length_le]
  omega

/-- The writer after pushes it accepted. -/
theorem pushPostings_ok {posts : List (Term × Bitmap)} : ∀ {w w' : TermIndexStreamWriter},
    pushPostings w posts = .ok w' → w'.config = w.config ∧
      w'.region = w.region ++ termRegion w.config.headBoundary posts ∧
      w'.blocks = w.blocks.pushAll (termEntries w.config.headBoundary w.region.length posts) ∧
      w'.termCount = w.termCount + posts.length ∧
      (∀ e ∈ termEntries w.config.headBoundary w.region.length posts, e.Fits) ∧
      w'.region.length ≤ max w.region.length (2 ^ 40 + 2 ^ 31) := by
  induction posts with
  | nil =>
    intro w w' h
    obtain rfl := Except.ok.inj h
    exact ⟨rfl, (List.append_nil _).symm, rfl, rfl, by simp [termEntries], Nat.le_max_left _ _⟩
  | cons p posts ih =>
    intro w w' h
    obtain ⟨term, bm⟩ := p
    unfold pushPostings splitPosting at h
    simp only [bind, Except.bind] at h
    cases hpush : w.push term.text (serialize (bm.below w.config.headBoundary))
        (serialize (bm.atLeast w.config.headBoundary)) with
    | error e =>
      rw [hpush] at h
      cases h
    | ok w1 =>
      rw [hpush] at h
      unfold TermIndexStreamWriter.push at hpush
      split at hpush
      · cases hpush
      next hhead =>
      split at hpush
      · cases hpush
      next hregion =>
      obtain rfl := Except.ok.inj hpush
      obtain ⟨hc, hr, hb, ht, hfit, hlen⟩ := ih h
      have h40 : 2 ^ (64 - sizeBits) = 2 ^ 40 := by decide
      have htail := Roaring.length_serialize_lt (bm.atLeast w.config.headBoundary)
      have h24 : 2 ^ sizeBits = 2 ^ 24 := by decide
      have hrec := length_termRecord w.config.headBoundary bm
      simp only at hc hr hb ht hfit hlen
      have hoff : (w.region ++ (le 4 (serialize (bm.atLeast w.config.headBoundary)).length ++
          (serialize (bm.below w.config.headBoundary) ++ serialize (bm.atLeast w.config.headBoundary)))).length =
          w.region.length + (termRecord w.config.headBoundary bm).length := List.length_append
      rw [hoff] at hb hfit hlen
      refine ⟨hc, ?_, hb, by rw [ht, List.length_cons]; omega, ?_, by omega⟩
      · rw [hr, List.append_assoc]
        rfl
      · intro e he
        rcases List.mem_cons.mp he with rfl | he
        · exact ⟨by simp only; omega, by simp only; omega⟩
        · exact hfit e he

omit [Roaring] in
theorem routerEntries_ok {bs : List Block} {es : List (Bytes × Nat)}
    (h : TermIndexStreamWriter.routerEntries bs = .ok es) :
    es = bs.map (fun b => (b.lastTerm, packLoc b.off b.bytes.length)) ∧
      ∀ b ∈ bs, b.bytes.length < 2 ^ sizeBits ∧ b.off < 2 ^ 40 := by
  induction bs generalizing es with
  | nil =>
    obtain rfl := Except.ok.inj h
    exact ⟨rfl, by simp⟩
  | cons b bs ih =>
    unfold TermIndexStreamWriter.routerEntries at h
    split at h
    · cases h
    next hlen =>
    split at h
    · cases h
    next hoff =>
    cases hrest : TermIndexStreamWriter.routerEntries bs with
    | error e =>
      rw [hrest] at h
      cases h
    | ok rest =>
      rw [hrest] at h
      obtain rfl := Except.ok.inj h
      obtain ⟨heq, hall⟩ := ih hrest
      have h40 : 2 ^ (64 - sizeBits) = 2 ^ 40 := by decide
      refine ⟨by rw [heq]; rfl, fun x hx => ?_⟩
      rcases List.mem_cons.mp hx with rfl | hx
      · exact ⟨by omega, by omega⟩
      · exact hall x hx

end

theorem length_termRegion [Roaring] {bound n : Nat} {posts : List (Term × Bitmap)}
    (h : ∀ x ∈ posts, (termRecord bound x.2).length = n) : (termRegion bound posts).length = posts.length * n := by
  induction posts with
  | nil => exact (Nat.zero_mul n).symm
  | cons p posts ih =>
    have hrest := ih fun x hx => h x (List.mem_cons_of_mem _ hx)
    have hsplit : (termRegion bound (p :: posts)).length =
        (termRecord bound p.2).length + (termRegion bound posts).length := List.length_append
    rw [hsplit, hrest, h p List.mem_cons_self, List.length_cons, Nat.succ_mul, Nat.add_comm]

/-- The parts of a file the writer made, and what they satisfy. -/
structure TermFile [Roaring] [Fst] (m : TermMap) (config : TermIndexConfig) where
  router : Bytes
  groups : List (List DictEntry)
  flatten_eq : groups.flatten = termEntries config.headBoundary 0 m.toList
  ne_nil : ∀ g ∈ groups, g ≠ []
  fits : ∀ e ∈ termEntries config.headBoundary 0 m.toList, e.Fits
  block_lt : ∀ b ∈ blocksOf 0 groups, b.bytes.length < 2 ^ sizeBits ∧ b.off < 2 ^ 40
  language_ok : (config.stem || config.stopwords) = true → config.language ≠ none
  count_lt : m.toList.length < 2 ^ 32
  region_lt : (termRegion config.headBoundary m.toList).length ≤ 2 ^ 40 + 2 ^ 31
  build_eq : Fst.build ((blocksOf 0 groups).map fun b => (b.lastTerm, packLoc b.off b.bytes.length)) = .ok router

/-- Header, router, dictionary blocks and postings. -/
def TermFile.bytes [Roaring] [Fst] {m : TermMap} {config : TermIndexConfig} (t : TermFile m config) : Bytes :=
  rrtiHeader config m.toList.length t.router.length (groupsLen t.groups) ++
    (t.router ++ ((blocksOf 0 t.groups).flatMap Block.bytes ++ termRegion config.headBoundary m.toList))

theorem sum_blocksOf (off : Nat) (groups : List (List DictEntry)) :
    ((blocksOf off groups).map fun b => b.bytes.length).sum = groupsLen groups := by
  induction groups generalizing off with
  | nil => rfl
  | cons g groups ih =>
    rw [blocksOf, List.map_cons, List.sum_cons, ih]
    simp [groupsLen]

section

variable [Roaring] [Fst] {m : TermMap} {config : TermIndexConfig} {file : Bytes}

/-- **What the writer accepts is such a file.** -/
theorem writeTermIndex_ok (h : writeTermIndexFromPostings m config = .ok file) :
    ∃ t : TermFile m config, file = t.bytes := by
  unfold writeTermIndexFromPostings at h
  simp only [bind, Except.bind] at h
  cases hpush : pushPostings (TermIndexStreamWriter.new config) m.toList with
  | error e =>
    rw [hpush] at h
    cases h
  | ok sw =>
    rw [hpush] at h
    obtain ⟨hc, hr, hb, ht, hfit, hlen⟩ := pushPostings_ok hpush
    have hc : sw.config = config := hc
    have hr : sw.region = termRegion config.headBoundary m.toList := hr
    have hfit : ∀ e ∈ termEntries config.headBoundary 0 m.toList, e.Fits := hfit
    have hregion : (termRegion config.headBoundary m.toList).length ≤ 2 ^ 40 + 2 ^ 31 := by
      rw [← hr]
      exact Nat.le_trans hlen (by simp [TermIndexStreamWriter.new])
    obtain ⟨groups, hblocks, hflat, hne⟩ :=
      blocks_pushAll config.blockCap (termEntries config.headBoundary 0 m.toList)
    have hfin : sw.blocks.finish = blocksOf 0 groups := by
      rw [hb]
      exact hblocks
    unfold TermIndexStreamWriter.finishMeta at h
    simp only [bind, Except.bind] at h
    split at h
    · cases h
    next hmeta =>
    split at hmeta
    · cases hmeta
    next hlang =>
    rw [hfin] at hmeta
    cases hrouter : TermIndexStreamWriter.routerEntries (blocksOf 0 groups) with
    | error e =>
      rw [hrouter] at hmeta
      cases hmeta
    | ok es =>
      rw [hrouter] at hmeta
      obtain ⟨rfl, hblk⟩ := routerEntries_ok hrouter
      simp only at hmeta
      split at hmeta
      · cases hmeta
      next router hbuild =>
      split at hmeta
      · cases hmeta
      next hcount =>
      obtain rfl := Except.ok.inj hmeta
      obtain rfl := Except.ok.inj h
      have ht : sw.termCount = m.toList.length := by
        rw [ht]
        exact Nat.zero_add _
      rw [hc] at hlang
      rw [hc, ht, sum_blocksOf]
      refine ⟨⟨router, groups, hflat, hne, hfit, hblk, fun hon hnone => hlang ⟨hon, hnone⟩, by omega, hregion,
        hbuild⟩, ?_⟩
      rw [hr, TermFile.bytes, List.flatMap_def]

end

/-! ## The dictionary of a file -/

section

variable [Roaring] {bound : Nat} {off : Nat} {posts : List (Term × Bitmap)}

theorem map_term_termEntries : (termEntries bound off posts).map DictEntry.term = posts.map fun p => p.1.bytes := by
  induction posts generalizing off with
  | nil => rfl
  | cons p posts ih => rw [termEntries, List.map_cons, List.map_cons, ih]

theorem termEntries_asc (h : posts.Pairwise fun a b => a.1 < b.1) :
    (termEntries bound off posts).Pairwise fun a b => a.term < b.term := by
  have hmap : (posts.map fun p => p.1.bytes).Pairwise (· < ·) := List.pairwise_map.mpr h
  rw [← @map_term_termEntries _ bound off, List.pairwise_map] at hmap
  exact hmap

theorem le_headOff {e : DictEntry} (he : e ∈ termEntries bound off posts) : off ≤ e.headOff := by
  induction posts generalizing off with
  | nil => cases he
  | cons p posts ih =>
    rcases List.mem_cons.mp he with rfl | he
    · exact Nat.le_refl _
    · exact Nat.le_trans (Nat.le_add_right _ _) (ih he)

theorem termEntries_headOff_lt : (termEntries bound off posts).Pairwise fun a b => a.headOff < b.headOff := by
  induction posts generalizing off with
  | nil => exact List.Pairwise.nil
  | cons p posts ih =>
    refine List.pairwise_cons.mpr ⟨fun e he => ?_, ih⟩
    have h1 := le_headOff he
    have h2 := length_termRecord bound p.2
    show off < e.headOff
    omega

/-- Every entry names its term's record in the region. -/
theorem termEntries_slice {pre : Bytes} (hpre : pre.length = off) :
    List.Forall₂ (fun e p => e.term = p.1.bytes ∧ e.headSize = (serialize (Bitmap.below p.2 bound)).length ∧
      e.headOff + (termRecord bound p.2).length ≤ (pre ++ termRegion bound posts).length ∧
      slice (pre ++ termRegion bound posts) e.headOff (termRecord bound p.2).length = termRecord bound p.2)
      (termEntries bound off posts) posts := by
  induction posts generalizing off pre with
  | nil => exact List.Forall₂.nil
  | cons p posts ih =>
    have hcons : termRegion bound (p :: posts) = termRecord bound p.2 ++ termRegion bound posts := rfl
    rw [hcons]
    refine List.Forall₂.cons ⟨rfl, rfl, ?_, ?_⟩ ?_
    · simp only [List.length_append]
      omega
    · exact slice_middle _ _ _ _ _ hpre.symm rfl
    · have := @ih (off + (termRecord bound p.2).length) (pre ++ termRecord bound p.2) (by
        rw [List.length_append, hpre])
      rwa [List.append_assoc] at this

end

/-- Every block is where its offset says. -/
theorem blocksOf_slice {pre : Bytes} {off : Nat} (hpre : pre.length = off) (groups : List (List DictEntry)) :
    List.Forall₂ (fun b g => b.bytes = encodeBlock g ∧ b.lastTerm = (lastEntry g).term ∧
      b.off + b.bytes.length ≤ (pre ++ (blocksOf off groups).flatMap Block.bytes).length ∧
      slice (pre ++ (blocksOf off groups).flatMap Block.bytes) b.off b.bytes.length = b.bytes)
      (blocksOf off groups) groups := by
  induction groups generalizing off pre with
  | nil => exact List.Forall₂.nil
  | cons g groups ih =>
    rw [blocksOf, List.flatMap_cons]
    refine List.Forall₂.cons ⟨rfl, rfl, ?_, ?_⟩ ?_
    · simp only [List.length_append]
      omega
    · exact slice_middle _ _ _ _ _ hpre.symm rfl
    · have := @ih (pre ++ encodeBlock g) (off + (encodeBlock g).length) (by rw [List.length_append, hpre])
      rwa [List.append_assoc] at this

theorem length_flatMap_blocks (off : Nat) (groups : List (List DictEntry)) :
    ((blocksOf off groups).flatMap Block.bytes).length = groupsLen groups := by
  rw [List.length_flatMap, ← sum_blocksOf off groups]

/-- The blocks of a checked dictionary fill no more than the offsets can name. -/
theorem groupsLen_le {groups : List (List DictEntry)}
    (h : ∀ b ∈ blocksOf 0 groups, b.bytes.length < 2 ^ sizeBits ∧ b.off < 2 ^ 40) :
    groupsLen groups ≤ 2 ^ 40 + 2 ^ 24 := by
  rcases List.eq_nil_or_concat groups with rfl | ⟨gs, g, rfl⟩
  · exact Nat.zero_le _
  · rw [List.concat_eq_append] at h ⊢
    obtain ⟨h1, h2⟩ := h ⟨encodeBlock g, 0 + groupsLen gs, (lastEntry g).term⟩ (by
      rw [blocksOf_append]
      exact List.mem_append_right _ (List.mem_singleton.mpr rfl))
    have hsum : groupsLen (gs ++ [g]) = groupsLen gs + (encodeBlock g).length := by simp [groupsLen]
    have h24 : 2 ^ sizeBits = 2 ^ 24 := rfl
    simp only at h1 h2
    omega

section

variable {groups : List (List DictEntry)} (hne : ∀ g ∈ groups, g ≠ [])
  (hasc : groups.flatten.Pairwise fun a b => a.term < b.term)

theorem lastEntry_mem {g : List DictEntry} (h : g ≠ []) : lastEntry g ∈ g := by
  unfold lastEntry
  rw [List.getLastD_eq_getLast?, List.getLast?_eq_some_getLast h]
  exact List.getLast_mem h

/-- No term of a group is after its last one. -/
theorem term_le_lastEntry {g : List DictEntry} (h : g.Pairwise fun a b => a.term < b.term) {e : DictEntry}
    (he : e ∈ g) : e.term ≤ (lastEntry g).term := by
  have hg : g ≠ [] := List.ne_nil_of_mem he
  obtain ⟨i, hi, rfl⟩ := List.getElem_of_mem he
  have hlt : g.length - 1 < g.length := by omega
  have hlast : lastEntry g = g[g.length - 1] := by
    unfold lastEntry
    rw [List.getLastD_eq_getLast?, List.getLast?_eq_some_getLast hg, List.getLast_eq_getElem]
    rfl
  rw [hlast]
  rcases Nat.lt_or_ge i (g.length - 1) with hlt | hge
  · exact le_of_lt (List.pairwise_iff_getElem.mp h i (g.length - 1) hi (by omega) hlt)
  · have : i = g.length - 1 := by omega
    subst this
    exact le_refl _

include hne hasc

/-- The last terms of the blocks ascend. -/
theorem blocksOf_asc (off : Nat) : (blocksOf off groups).Pairwise fun a b => a.lastTerm < b.lastTerm := by
  induction groups generalizing off with
  | nil => exact List.Pairwise.nil
  | cons g groups ih =>
    rw [List.flatten_cons, List.pairwise_append] at hasc
    obtain ⟨-, hrest, hcross⟩ := hasc
    have hne' : ∀ h ∈ groups, h ≠ [] := fun h hh => hne h (List.mem_cons_of_mem _ hh)
    refine List.pairwise_cons.mpr ⟨fun b hb => ?_, ih hne' hrest _⟩
    obtain ⟨h, hh, -, hlast, -⟩ := exists_partner (@blocksOf_slice (List.replicate _ 0) _
      List.length_replicate groups) hb
    show (lastEntry g).term < b.lastTerm
    rw [hlast]
    exact hcross _ (lastEntry_mem (hne g List.mem_cons_self)) _
      (List.mem_flatten.mpr ⟨h, hh, lastEntry_mem (hne' h hh)⟩)

/-- **Routing**: a term is in the first group whose last term is not before it, or nowhere. -/
theorem find?_flatten (term : Bytes) : groups.flatten.find? (fun e => e.term == term) =
    (groups.find? fun g => term ≤ (lastEntry g).term).bind fun g => g.find? fun e => e.term == term := by
  induction groups with
  | nil => rfl
  | cons g groups ih =>
    rw [List.flatten_cons, List.pairwise_append] at hasc
    obtain ⟨hg, hrest, hcross⟩ := hasc
    have hgne := hne g List.mem_cons_self
    rw [List.flatten_cons, List.find?_append]
    by_cases hle : term ≤ (lastEntry g).term
    · rw [List.find?_cons_of_pos (by simpa using hle), Option.bind_some]
      have hnone : groups.flatten.find? (fun e => e.term == term) = none := by
        rw [List.find?_eq_none]
        intro e he
        have := lt_of_le_of_lt hle (hcross _ (lastEntry_mem hgne) e he)
        simpa using ne_of_gt this
      rw [hnone]
      cases g.find? fun e => e.term == term <;> rfl
    · rw [List.find?_cons_of_neg (by simpa using hle)]
      have hnone : g.find? (fun e => e.term == term) = none := by
        rw [List.find?_eq_none]
        intro e he
        have := lt_of_le_of_lt (term_le_lastEntry hg he) (not_le.mp hle)
        simpa using ne_of_lt this
      rw [hnone, ih (fun h hh => hne h (List.mem_cons_of_mem _ hh)) hrest]
      rfl

end

/-! ## The index read from a file -/

namespace TermFile

variable [Roaring] [Fst] {m : TermMap} {config : TermIndexConfig}

section

variable (t : TermFile m config)

/-- The dictionary blocks. -/
def dict : Bytes := (blocksOf 0 t.groups).flatMap Block.bytes

def dictStart : Nat := rrtiHeaderSize + t.router.length

def postingsOffset : Nat := t.dictStart + t.dict.length

/-- What a reader keeps of the file. -/
def index : TermIndex where
  fetch := MemoryFetch.new t.bytes
  router := (blocksOf 0 t.groups).map fun b => (b.lastTerm, packLoc b.off b.bytes.length)
  dictStart := t.dictStart
  postingsOffset := t.postingsOffset
  headBoundary := config.headBoundary
  termCount := m.toList.length
  tokenizer := Tokenizer.fromHeader (tokenizerFlags config.stem config.stopwords !config.caseSensitive)
    (languageByte config.language config.stem config.stopwords)

theorem entries_asc : t.groups.flatten.Pairwise fun a b => a.term < b.term := by
  rw [t.flatten_eq]
  exact termEntries_asc m.asc

theorem router_ok : t.router.length < 2 ^ 63 ∧ Fst.new t.router = some t.index.router ∧ Fst.verify t.router = true := by
  refine Fst.build_ok _ _ (List.pairwise_map.mpr (blocksOf_asc t.ne_nil t.entries_asc 0)) ?_ t.build_eq
  intro e he
  obtain ⟨b, hb, rfl⟩ := List.mem_map.mp he
  exact packLoc_lt (t.block_lt b hb).1

theorem length_dict : t.dict.length = groupsLen t.groups := length_flatMap_blocks 0 t.groups

omit [Roaring] [Fst] in
theorem length_rrtiHeader (config : TermIndexConfig) (termCount routerLen dictLen : Nat) :
    (rrtiHeader config termCount routerLen dictLen).length = rrtiHeaderSize := by
  simp [rrtiHeader, rrtiMagic, rrtiHeaderSize]

theorem length_file : t.bytes.length =
    t.postingsOffset + (termRegion config.headBoundary m.toList).length := by
  unfold bytes
  rw [List.length_append, List.length_append, List.length_append, length_rrtiHeader, postingsOffset, dictStart, dict]
  omega

theorem length_file_lt : t.bytes.length < u64Bound := by
  have h1 := t.length_file
  have h2 := t.router_ok.1
  have h3 := groupsLen_le t.block_lt
  have h4 := t.region_lt
  have h5 := t.length_dict
  unfold postingsOffset dictStart rrtiHeaderSize at h1
  unfold u64Bound
  omega

/-- The dictionary and the region in the file. -/
theorem slice_dict {off n : Nat} (h : off + n ≤ t.dict.length) :
    slice t.bytes (t.dictStart + off) n = slice t.dict off n := by
  have hhead := length_rrtiHeader config m.toList.length t.router.length (groupsLen t.groups)
  have hds : t.dictStart = rrtiHeaderSize + t.router.length := rfl
  unfold bytes
  rw [slice_append_right _ _ _ _ (by omega), slice_append_right _ _ _ _ (by omega),
    slice_append_left _ _ _ _ (by
      show _ ≤ t.dict.length
      omega)]
  show slice t.dict _ n = _
  congr 1
  omega

theorem slice_region (off n : Nat) :
    slice t.bytes (t.postingsOffset + off) n = slice (termRegion config.headBoundary m.toList) off n := by
  have hhead := length_rrtiHeader config m.toList.length t.router.length (groupsLen t.groups)
  have hpo : t.postingsOffset = rrtiHeaderSize + t.router.length + t.dict.length := rfl
  have hdict : ((blocksOf 0 t.groups).flatMap Block.bytes).length = t.dict.length := rfl
  unfold bytes
  rw [slice_append_right _ _ _ _ (by omega), slice_append_right _ _ _ _ (by omega),
    slice_append_right _ _ _ _ (by omega)]
  congr 1
  omega

/-- The fields of the header. -/
theorem header_fields : slice t.bytes 0 4 = rrtiMagic ∧ getLe 2 t.bytes 4 = rrtiVersion ∧
    getLe 2 t.bytes 6 = tokenizerFlags config.stem config.stopwords !config.caseSensitive ∧
    getLe 4 t.bytes 8 = m.toList.length ∧ getLe 4 t.bytes 12 = config.headBoundary ∧
    getLe 8 t.bytes 16 = t.router.length ∧ getLe 8 t.bytes 24 = t.dict.length ∧
    getLe 1 t.bytes 36 = languageByte config.language config.stem config.stopwords := by
  have hflags := tokenizerFlags_lt config.stem config.stopwords !config.caseSensitive
  have hlang := languageByte_lt config.language config.stem config.stopwords
  have hcount := t.count_lt
  have hbound := config.headBoundary_lt
  have hrouter := t.router_ok.1
  have hdict := groupsLen_le t.block_lt
  have hmagic : ∀ (w off : Nat) (x : Bytes), getLe w (rrtiMagic ++ x) (4 + off) = getLe w x off := by
    intro w off x
    rw [getLe_append_right _ _ _ _ (by simp [rrtiMagic])]
    congr 1
    simp [rrtiMagic]
  rw [t.length_dict]
  unfold bytes
  unfold rrtiHeader
  simp only [List.append_assoc]
  refine ⟨?_, ?_, ?_, ?_, ?_, ?_, ?_, ?_⟩
  · rw [slice_append_left _ _ _ _ (by simp [rrtiMagic])]
    rfl
  · exact (hmagic 2 0 _).trans (getLe_field (by decide) _)
  · exact (hmagic 2 2 _).trans ((getLe_le_skip 2 2 _ _ 0).trans (getLe_field (by omega) _))
  · exact (hmagic 4 4 _).trans ((getLe_le_skip 4 2 _ _ 2).trans ((getLe_le_skip 4 2 _ _ 0).trans
      (getLe_field (by omega) _)))
  · exact (hmagic 4 8 _).trans ((getLe_le_skip 4 2 _ _ 6).trans ((getLe_le_skip 4 2 _ _ 4).trans
      ((getLe_le_skip 4 4 _ _ 0).trans (getLe_field (by omega) _))))
  · exact (hmagic 8 12 _).trans ((getLe_le_skip 8 2 _ _ 10).trans ((getLe_le_skip 8 2 _ _ 8).trans
      ((getLe_le_skip 8 4 _ _ 4).trans ((getLe_le_skip 8 4 _ _ 0).trans (getLe_field (by omega) _)))))
  · exact (hmagic 8 20 _).trans ((getLe_le_skip 8 2 _ _ 18).trans ((getLe_le_skip 8 2 _ _ 16).trans
      ((getLe_le_skip 8 4 _ _ 12).trans ((getLe_le_skip 8 4 _ _ 8).trans ((getLe_le_skip 8 8 _ _ 0).trans
        (getLe_field (by omega) _))))))
  · exact (hmagic 1 32 _).trans ((getLe_le_skip 1 2 _ _ 30).trans ((getLe_le_skip 1 2 _ _ 28).trans
      ((getLe_le_skip 1 4 _ _ 24).trans ((getLe_le_skip 1 4 _ _ 20).trans ((getLe_le_skip 1 8 _ _ 12).trans
        ((getLe_le_skip 1 8 _ _ 4).trans ((getLe_le_skip 1 4 _ _ 0).trans (getLe_field (by omega) _))))))))

/-- The boot region's length is computed from any prefix that has the header. -/
theorem bootLen_eq {n : Nat} (hn : rrtiHeaderSize ≤ n) (hle : n ≤ t.bytes.length) :
    rrtiBootLen (slice t.bytes 0 n) =
      if maxResidentRouter < t.router.length then .error (.malformed "RRTI router FST length implausible")
      else .ok (rrtiHeaderSize + t.router.length) := by
  obtain ⟨hm, hv, -, -, -, hr, -, -⟩ := t.header_fields
  have hh : rrtiHeaderSize = 40 := rfl
  have hfield : ∀ w off : Nat, off + w ≤ 40 → getLe w (slice t.bytes 0 n) off = getLe w t.bytes off := by
    intro w off ho
    have := getLe_slice w t.bytes 0 n off (by omega)
    rwa [Nat.zero_add] at this
  unfold rrtiBootLen
  rw [if_neg (by rw [length_slice _ _ _ (by omega)]; omega),
    if_neg (by rw [slice_slice _ _ _ _ _ (by omega), Nat.add_zero, hm]; simp), hfield 2 4 (by omega), hv,
    if_neg (by simp), hfield 8 16 (by omega), hr]

theorem fromParts_eq : TermIndex.fromParts (slice t.bytes 0 rrtiHeaderSize) t.router (MemoryFetch.new t.bytes) =
    .ok t.index := by
  obtain ⟨-, -, hf, hc, hb, hr, hd, hl⟩ := t.header_fields
  obtain ⟨hrlen, hnew, hver⟩ := t.router_ok
  have hflen := t.length_file
  have hflt := t.length_file_lt
  have hpo : t.postingsOffset = rrtiHeaderSize + t.router.length + t.dict.length := rfl
  have hfield : ∀ w off : Nat, off + w ≤ 40 → getLe w (slice t.bytes 0 rrtiHeaderSize) off = getLe w t.bytes off := by
    intro w off ho
    have := getLe_slice w t.bytes 0 rrtiHeaderSize off ho
    rwa [Nat.zero_add] at this
  unfold TermIndex.fromParts
  rw [hnew]
  simp only
  rw [hver, if_neg (by decide), hfield 8 16 (by omega), hfield 8 24 (by omega), hfield 4 12 (by omega),
    hfield 4 8 (by omega), hfield 2 6 (by omega), hfield 1 36 (by omega), hr, hd, hb, hc, hf, hl]
  have hs1 : saturatingAdd rrtiHeaderSize t.router.length = t.dictStart := by
    unfold saturatingAdd usizeMax u64Bound dictStart rrtiHeaderSize
    omega
  have hs2 : saturatingAdd t.dictStart t.dict.length = t.postingsOffset := by
    unfold saturatingAdd usizeMax postingsOffset
    unfold u64Bound at hflt ⊢
    unfold dictStart
    omega
  rw [hs1, hs2]
  rfl

theorem slice_router : slice t.bytes rrtiHeaderSize t.router.length = t.router := by
  unfold bytes
  exact slice_middle _ _ _ _ _ (length_rrtiHeader _ _ _ _).symm rfl

/-- **Opening the file**: the reader's bound on the router refuses it, or the index is read back. -/
theorem settles_open : Settles (TermIndex.open (MemoryFetch.new t.bytes))
    (if maxResidentRouter < t.router.length then .error (.malformed "RRTI router FST length implausible")
      else .ok t.index) := by
  have hflen := t.length_file
  have hflt := t.length_file_lt
  have hpo : t.postingsOffset = rrtiHeaderSize + t.router.length + t.dict.length := rfl
  unfold TermIndex.open
  refine (MemoryFetch.settles_read (MemoryFetch.inFile_new hflt (by omega))).bind ?_
  show Settles (ofOutcome (rrtiBootLen (slice t.bytes 0 rrtiHeaderSize)) >>= _) _
  rw [t.bootLen_eq (Nat.le_refl _) (by omega)]
  by_cases hbig : maxResidentRouter < t.router.length
  · rw [if_pos hbig, if_pos hbig]
    exact (Settles.ofOutcome _).bind_error
  · rw [if_neg hbig, if_neg hbig]
    refine (Settles.ofOutcome _).bind ?_
    rw [Nat.add_sub_cancel_left]
    refine (MemoryFetch.settles_read (MemoryFetch.inFile_new hflt (by omega))).bind ?_
    show Settles (ofOutcome (TermIndex.fromParts (slice t.bytes 0 rrtiHeaderSize)
      (slice t.bytes rrtiHeaderSize t.router.length) (MemoryFetch.new t.bytes))) _
    rw [t.slice_router, t.fromParts_eq]
    exact Settles.ofOutcome _

/-- A resident boot region gives the same index. -/
theorem fromBoot_eq :
    TermIndex.fromBoot (slice t.bytes 0 (rrtiHeaderSize + t.router.length)) (MemoryFetch.new t.bytes) =
      if maxResidentRouter < t.router.length then .error (.malformed "RRTI router FST length implausible")
      else .ok t.index := by
  have hflen := t.length_file
  have hpo : t.postingsOffset = rrtiHeaderSize + t.router.length + t.dict.length := rfl
  unfold TermIndex.fromBoot
  rw [t.bootLen_eq (by omega) (by omega)]
  by_cases hbig : maxResidentRouter < t.router.length
  · rw [if_pos hbig, if_pos hbig]
    rfl
  · rw [if_neg hbig, if_neg hbig]
    simp only [bind, Except.bind]
    rw [if_neg (by rw [length_slice _ _ _ (by omega)]; omega), Nat.add_sub_cancel_left,
      slice_slice _ _ _ _ _ (by omega), slice_slice _ _ _ _ _ (by omega), Nat.add_zero, Nat.zero_add, t.slice_router]
    exact t.fromParts_eq

end

/-- A record in the region is its term's posting. -/
theorem termAt (t : TermFile m config) {off size : Nat} {S : Bitmap}
    (hsize : size = (serialize (Bitmap.below S config.headBoundary)).length)
    (hle : off + (termRecord config.headBoundary S).length ≤ (termRegion config.headBoundary m.toList).length)
    (hrec : slice (termRegion config.headBoundary m.toList) off (termRecord config.headBoundary S).length =
      termRecord config.headBoundary S) : t.index.TermAt (off, size) S := by
  have hflt := t.length_file_lt
  have hflen := t.length_file
  have hlen := length_termRecord config.headBoundary S
  have htail := Roaring.length_serialize_lt (Bitmap.atLeast S config.headBoundary)
  have hcut : ∀ o n : Nat, o + n ≤ (termRecord config.headBoundary S).length →
      slice t.bytes (t.postingsOffset + off + o) n = slice (termRecord config.headBoundary S) o n := by
    intro o n ho
    rw [← hrec, slice_slice _ _ _ _ _ ho, ← t.slice_region, Nat.add_assoc]
  have htailSize : t.index.tailSizeAt (off, size) = (serialize (Bitmap.atLeast S config.headBoundary)).length := by
    show ofLe (slice t.bytes (t.postingsOffset + off + 0) 4) = _
    rw [hcut 0 4 (by omega)]
    exact getLe_field (by omega) _
  refine ⟨?_, ?_, ?_, ?_⟩
  · rw [htailSize]
    exact Roaring.length_serialize_pos _
  · rw [htailSize]
    refine MemoryFetch.inFile_new hflt ?_
    show t.postingsOffset + off + _ ≤ _
    simp only
    omega
  · show Roaring.deserialize (slice t.bytes (t.postingsOffset + off + 4) size) = _
    rw [hcut 4 size (by omega), termRecord,
      slice_middle _ _ _ _ _ (length_le 4 _).symm hsize]
    exact Roaring.deserialize_serialize _
  · rw [htailSize]
    show Roaring.deserialize (slice t.bytes (t.postingsOffset + off + (size + 4)) _) = _
    have hlast : slice (termRecord config.headBoundary S) (size + 4)
        (serialize (Bitmap.atLeast S config.headBoundary)).length = serialize (Bitmap.atLeast S config.headBoundary) := by
      rw [termRecord, ← List.append_assoc, slice_append_right _ _ _ _ (by simp; omega)]
      have h0 : size + 4 - (le 4 (serialize (Bitmap.atLeast S config.headBoundary)).length ++
          serialize (Bitmap.below S config.headBoundary)).length = 0 := by
        simp only [List.length_append, length_le]
        omega
      rw [h0, slice_zero_length]
    rw [hcut _ _ (by omega), hlast]
    exact Roaring.deserialize_serialize _

/-- The router leads a term to the encoded block of the one group that can hold it. -/
theorem route (t : TermFile m config) (term : String) :
    (t.index.blockRangeFor term = none ∧ (t.groups.find? fun g => utf8 term ≤ (lastEntry g).term) = none) ∨
    ∃ (b : Block) (g : List DictEntry), t.index.blockRangeFor term = some (t.dictStart + b.off, b.bytes.length) ∧
      (t.groups.find? fun g => utf8 term ≤ (lastEntry g).term) = some g ∧ b.bytes = encodeBlock g ∧
      b.bytes.length < 2 ^ sizeBits ∧ b.off + b.bytes.length ≤ t.dict.length ∧
      slice t.dict b.off b.bytes.length = b.bytes := by
  have hblocks := @blocksOf_slice [] 0 rfl t.groups
  simp only [List.nil_append] at hblocks
  have hfind : (t.index.router.find? fun e => utf8 term ≤ e.1) =
      ((blocksOf 0 t.groups).find? fun b => utf8 term ≤ b.lastTerm).map
        fun b => (b.lastTerm, packLoc b.off b.bytes.length) := by
    show List.find? _ (List.map _ _) = _
    rw [List.find?_map]
    rfl
  unfold TermIndex.blockRangeFor
  rw [hfind]
  rcases find?_forall₂ hblocks (p := fun b : Block => decide (utf8 term ≤ b.lastTerm))
    (q := fun g : List DictEntry => decide (utf8 term ≤ (lastEntry g).term)) (fun b g h => by rw [h.2.1])
    with ⟨h1, h2⟩ | ⟨b, g, h1, h2, hbg⟩
  · rw [h1]
    exact Or.inl ⟨rfl, h2⟩
  · obtain ⟨hb, -, hle, hslice⟩ := hbg
    obtain ⟨hlen, hoff⟩ := t.block_lt b (List.mem_of_find?_eq_some h1)
    refine Or.inr ⟨b, g, ?_, h2, hb, hlen, hle, hslice⟩
    rw [h1]
    simp only [Option.map_some, unpackLoc_packLoc hoff hlen]
    rfl

/-- The scan of the routed block finds the term's entry among all entries. -/
theorem findLoc_eq (t : TermFile m config) (term : String) : t.index.findLoc term =
    ((termEntries config.headBoundary 0 m.toList).find? fun e => e.term == utf8 term).map
      fun e => (e.headOff, e.headSize) := by
  rw [← t.flatten_eq, find?_flatten t.ne_nil t.entries_asc]
  unfold TermIndex.findLoc
  rcases t.route term with ⟨h1, h2⟩ | ⟨b, g, h1, h2, hb, hlen, hle, hslice⟩
  · rw [h1, h2]
    rfl
  · have hg := List.mem_of_find?_eq_some h2
    have hsub : ∀ e ∈ g, e ∈ termEntries config.headBoundary 0 m.toList := by
      intro e he
      rw [← t.flatten_eq]
      exact List.mem_flatten.mpr ⟨g, hg, he⟩
    have hsubl : g.Sublist (termEntries config.headBoundary 0 m.toList) := by
      rw [← t.flatten_eq]
      exact List.sublist_flatten_of_mem hg
    rw [h1, h2]
    show scanBlock (slice t.bytes (t.dictStart + b.off) b.bytes.length) (utf8 term) = _
    rw [t.slice_dict hle, hslice, hb, scanBlock_encode (fun e he => t.fits e (hsub e he))
      ((termEntries_headOff_lt.imp le_of_lt).sublist hsubl) (by rw [← hb]; exact hlen)
      ((termEntries_asc m.asc).sublist hsubl)]
    rfl

/-- A term is either absent from dictionary and map, or its location holds its posting. -/
theorem findLoc_cases (t : TermFile m config) (term : String) :
    (t.index.findLoc term = none ∧ m.find? ⟨term⟩ = none) ∨
    ∃ loc S, t.index.findLoc term = some loc ∧ m.find? ⟨term⟩ = some S ∧ t.index.TermAt loc S := by
  have hpost := @termEntries_slice _ config.headBoundary 0 m.toList [] rfl
  simp only [List.nil_append] at hpost
  have hmap := m.find?_toList ⟨term⟩
  have hsame : ∀ (e : DictEntry) (x : Term × Bitmap), e.term = x.1.bytes →
      (e.term == utf8 term) = (x.1 == (⟨term⟩ : Term)) := by
    intro e x h
    have hiff : e.term = utf8 term ↔ x.1 = ⟨term⟩ := by
      rw [h]
      constructor
      · intro hx
        exact Term.bytes_injective hx
      · intro hx
        rw [hx]
        rfl
    by_cases hx : x.1 = ⟨term⟩
    · rw [beq_iff_eq.mpr (hiff.mpr hx), beq_iff_eq.mpr hx]
    · rw [beq_eq_false_iff_ne.mpr (mt hiff.mp hx), beq_eq_false_iff_ne.mpr hx]
  rw [t.findLoc_eq]
  rcases find?_forall₂ hpost (p := fun e : DictEntry => e.term == utf8 term)
    (q := fun x : Term × Bitmap => x.1 == ⟨term⟩) (fun e x h => hsame e x h.1)
    with ⟨h1, h2⟩ | ⟨e, x, h1, h2, hex⟩
  · rw [h2] at hmap
    exact Or.inl ⟨by rw [h1]; rfl, Option.map_eq_none_iff.mp hmap.symm⟩
  · rw [h2] at hmap
    obtain ⟨S, hS, hxS⟩ := Option.map_eq_some_iff.mp hmap.symm
    obtain ⟨-, hsize, hle, hrec⟩ := hex
    refine Or.inr ⟨(e.headOff, e.headSize), S, by rw [h1]; rfl, hS, ?_⟩
    have hx2 : x.2 = S := by rw [← hxS]
    rw [hx2] at hsize hle hrec
    exact t.termAt hsize hle hrec

/-- **A written file serves its map.** -/
theorem serves (t : TermFile m config) : t.index.Serves m := by
  have hflt := t.length_file_lt
  have hflen := t.length_file
  refine ⟨?_, ?_, ?_⟩
  · intro term r hr
    rcases t.route term with ⟨h1, -⟩ | ⟨b, g, h1, -, -, -, hle, -⟩
    · rw [h1] at hr
      cases hr
    · rw [h1] at hr
      obtain rfl := Option.some.inj hr
      refine MemoryFetch.inFile_new hflt ?_
      have hpo : t.postingsOffset = t.dictStart + t.dict.length := rfl
      omega
  · intro term hnone
    rcases t.findLoc_cases term with ⟨h1, -⟩ | ⟨loc, S, -, h2, -⟩
    · exact h1
    · rw [hnone] at h2
      cases h2
  · intro term S hS
    rcases t.findLoc_cases term with ⟨-, h2⟩ | ⟨loc, S', h1, h2, hat⟩
    · rw [hS] at h2
      cases h2
    · rw [hS] at h2
      obtain rfl := Option.some.inj h2
      exact ⟨loc, h1, hat⟩

end TermFile

/-! ## A router without an automaton -/

namespace FlatRouter

/-- The key after its length, then the value. -/
def encodeEntry (e : Bytes × Nat) : Bytes := Varint.encode e.1.length ++ (e.1 ++ Varint.encode e.2)

/-- At most `fuel` entries that fill the bytes. -/
def decode (fuel : Nat) (b : Bytes) : Option (List (Bytes × Nat)) :=
  if b = [] then some []
  else
    match fuel with
    | 0 => none
    | fuel + 1 =>
      (Varint.decode b).bind fun key =>
        (Varint.decode (key.2.drop key.1)).bind fun val =>
          (decode fuel val.2).map ((key.2.take key.1, val.1) :: ·)

theorem encodeEntry_ne_nil (e : Bytes × Nat) (rest : Bytes) : encodeEntry e ++ rest ≠ [] := by
  intro h
  have hlen := congrArg List.length h
  have hpos := Varint.size_pos e.1.length
  simp only [encodeEntry, List.length_append, Varint.length_encode, List.length_nil] at hlen
  omega

theorem decode_encode {es : List (Bytes × Nat)} : ∀ {fuel : Nat}, es.length ≤ fuel →
    (es.flatMap encodeEntry).length < 2 ^ 64 → (∀ e ∈ es, e.2 < 2 ^ 64) →
    decode fuel (es.flatMap encodeEntry) = some es := by
  induction es with
  | nil =>
    intro fuel _ _ _
    unfold decode
    rfl
  | cons e es ih =>
    intro fuel hfuel hlen hval
    rw [List.flatMap_cons] at hlen ⊢
    obtain ⟨fuel, rfl⟩ : ∃ n, fuel = n + 1 := Nat.exists_eq_add_of_le' (Nat.le_trans (Nat.le_add_left 1 _) hfuel)
    have hkey : e.1.length < 2 ^ 64 := by
      simp only [encodeEntry, List.length_append] at hlen
      omega
    have hrest : (es.flatMap encodeEntry).length < 2 ^ 64 := by
      rw [List.length_append] at hlen
      omega
    unfold decode
    rw [if_neg (encodeEntry_ne_nil e _)]
    simp only [encodeEntry, List.append_assoc]
    rw [Varint.decode_encode hkey, Option.bind_some]
    simp only
    rw [List.drop_left, List.take_left, Varint.decode_encode (hval e List.mem_cons_self), Option.bind_some]
    simp only
    rw [ih (Nat.le_of_succ_le_succ hfuel) hrest fun x hx => hval x (List.mem_cons_of_mem _ hx)]
    rfl

theorem length_le_flatMap (es : List (Bytes × Nat)) : es.length ≤ (es.flatMap encodeEntry).length := by
  induction es with
  | nil => exact Nat.le_refl _
  | cons e es ih =>
    have hpos := Varint.size_pos e.1.length
    rw [List.flatMap_cons, List.length_append, List.length_cons]
    simp only [encodeEntry, List.length_append, Varint.length_encode]
    omega

theorem le_length_flatMap {shortest : Nat} {es : List (Bytes × Nat)} (h : ∀ e ∈ es, shortest ≤ e.1.length) :
    es.length * shortest ≤ (es.flatMap encodeEntry).length := by
  induction es with
  | nil => exact Nat.le_of_eq (Nat.zero_mul _)
  | cons e es ih =>
    have hkey := h e List.mem_cons_self
    have hrest := ih fun x hx => h x (List.mem_cons_of_mem _ hx)
    rw [List.flatMap_cons, List.length_append, List.length_cons, Nat.succ_mul]
    simp only [encodeEntry, List.length_append]
    omega

theorem length_flatMap_le {longest : Nat} {es : List (Bytes × Nat)} (h : ∀ e ∈ es, e.1.length ≤ longest) :
    (es.flatMap encodeEntry).length ≤ es.length * (longest + 20) := by
  induction es with
  | nil => exact Nat.zero_le _
  | cons e es ih =>
    have hkey := h e List.mem_cons_self
    have hrest := ih fun x hx => h x (List.mem_cons_of_mem _ hx)
    have h1 := Varint.size_le e.1.length
    have h2 := Varint.size_le e.2
    rw [List.flatMap_cons, List.length_append, List.length_cons, Nat.succ_mul]
    simp only [encodeEntry, List.length_append, Varint.length_encode]
    omega

/-- A router that lists its entries. -/
@[reducible] def fst : Fst where
  build es := if 2 ^ 63 ≤ (es.flatMap encodeEntry).length then .error "router too large" else .ok (es.flatMap encodeEntry)
  new b := decode b.length b
  verify _ := true
  build_ok := by
    intro es b _ hval hb
    split at hb
    · cases hb
    next hlen =>
    obtain rfl := Except.ok.inj hb
    exact ⟨by omega, decode_encode (length_le_flatMap es) (by omega) hval, rfl⟩

end FlatRouter

/-! ## What the writer accepts -/

section

variable [Roaring]

/-- Postings whose records stay within the 24-bit sizes are pushed. -/
theorem pushPostings_accepts {posts : List (Term × Bitmap)} : ∀ {w : TermIndexStreamWriter},
    w.region.length + (termRegion w.config.headBoundary posts).length < 2 ^ sizeBits →
      ∃ w', pushPostings w posts = .ok w' := by
  induction posts with
  | nil => exact fun _ => ⟨_, rfl⟩
  | cons p posts ih =>
    intro w h
    obtain ⟨term, bm⟩ := p
    have hrec := length_termRecord w.config.headBoundary bm
    have hsplit : (termRegion w.config.headBoundary ((term, bm) :: posts)).length =
        (termRecord w.config.headBoundary bm).length + (termRegion w.config.headBoundary posts).length := List.length_append
    have h40 : 2 ^ sizeBits ≤ 2 ^ (64 - sizeBits) := by decide
    obtain ⟨w1, hpush, hconfig, hreg⟩ : ∃ w1, w.push term.text (serialize (bm.below w.config.headBoundary))
        (serialize (bm.atLeast w.config.headBoundary)) = .ok w1 ∧ w1.config = w.config ∧
        w1.region = w.region ++ termRecord w.config.headBoundary bm := by
      unfold TermIndexStreamWriter.push
      rw [if_neg (by omega), if_neg (by omega)]
      exact ⟨_, rfl, rfl, rfl⟩
    obtain ⟨w', hrest⟩ := @ih w1 (by
      rw [hconfig, hreg, List.length_append]
      omega)
    refine ⟨w', ?_⟩
    unfold pushPostings splitPosting
    simp only [hpush, bind, Except.bind]
    exact hrest

omit [Roaring] in
theorem routerEntries_accepts {bs : List Block} (h : ∀ b ∈ bs, b.bytes.length < 2 ^ sizeBits ∧ b.off < 2 ^ 40) :
    TermIndexStreamWriter.routerEntries bs = .ok (bs.map fun b => (b.lastTerm, packLoc b.off b.bytes.length)) := by
  induction bs with
  | nil => rfl
  | cons b bs ih =>
    obtain ⟨hlen, hoff⟩ := h b List.mem_cons_self
    have h40 : 2 ^ (64 - sizeBits) = 2 ^ 40 := by decide
    unfold TermIndexStreamWriter.routerEntries
    rw [if_neg (by omega), if_neg (by omega), ih fun x hx => h x (List.mem_cons_of_mem _ hx)]
    rfl

section

variable {longest : Nat}

omit [Roaring] in
/-- An entry is its term at most, and four varints. -/
theorem length_encodeFrom_le {es : List DictEntry} (h : ∀ e ∈ es, e.term.length ≤ longest) (prev : Bytes)
    (prevOff : Nat) : (encodeFrom prev prevOff es).length ≤ es.length * (longest + 40) := by
  induction es generalizing prev prevOff with
  | nil => exact Nat.zero_le _
  | cons e es ih =>
    have h1 := ih (fun x hx => h x (List.mem_cons_of_mem _ hx)) e.term e.headOff
    have hterm := h e List.mem_cons_self
    have h2 := Varint.size_le (commonPrefix prev e.term)
    have h3 := Varint.size_le (e.term.length - commonPrefix prev e.term)
    have h4 := Varint.size_le (e.headOff - prevOff)
    have h5 := Varint.size_le e.headSize
    rw [List.length_cons, Nat.succ_mul]
    simp only [encodeFrom, encodeEntry, writeUvarint, List.length_append, Varint.length_encode, List.length_drop]
    omega

omit [Roaring] in
theorem groupsLen_le_mul {groups : List (List DictEntry)} (h : ∀ e ∈ groups.flatten, e.term.length ≤ longest) :
    groupsLen groups ≤ groups.flatten.length * (longest + 40) := by
  induction groups with
  | nil => exact Nat.zero_le _
  | cons g groups ih =>
    have hg := length_encodeFrom_le (fun e he => h e (List.mem_append_left _ he)) [] 0
    have hrest := ih fun e he => h e (List.mem_append_right _ he)
    have hsum : groupsLen (g :: groups) = (encodeBlock g).length + groupsLen groups := by simp [groupsLen]
    rw [List.flatten_cons, List.length_append, Nat.add_mul, hsum]
    exact Nat.add_le_add hg hrest

omit [Roaring] in
theorem length_le_flatten {groups : List (List DictEntry)} (hne : ∀ g ∈ groups, g ≠ []) :
    groups.length ≤ groups.flatten.length := by
  induction groups with
  | nil => exact Nat.le_refl _
  | cons g groups ih =>
    have hpos := List.length_pos_iff.mpr (hne g List.mem_cons_self)
    have hrest := ih fun x hx => hne x (List.mem_cons_of_mem _ hx)
    rw [List.flatten_cons, List.length_append, List.length_cons]
    omega

omit [Roaring] in
/-- The router's keys are as many as there are entries at most, and no longer than these. -/
theorem blocksOf_keys {groups : List (List DictEntry)} (hne : ∀ g ∈ groups, g ≠ [])
    (h : ∀ e ∈ groups.flatten, e.term.length ≤ longest) :
    (blocksOf 0 groups).length ≤ groups.flatten.length ∧ ∀ b ∈ blocksOf 0 groups, b.lastTerm.length ≤ longest := by
  have hslice := @blocksOf_slice [] 0 rfl groups
  refine ⟨?_, fun b hb => ?_⟩
  · rw [hslice.length_eq]
    exact length_le_flatten hne
  · obtain ⟨g, hg, -, hlast, -⟩ := exists_partner hslice hb
    rw [hlast]
    exact h _ (List.mem_flatten.mpr ⟨g, hg, lastEntry_mem (hne g hg)⟩)

theorem length_termEntries (bound off : Nat) (posts : List (Term × Bitmap)) :
    (termEntries bound off posts).length = posts.length := by
  have h := congrArg List.length (@map_term_termEntries _ bound off posts)
  rwa [List.length_map, List.length_map] at h

/-- The blocks that the writer makes of a dictionary; where they and the router can be named it writes the file. -/
theorem exists_termFile [Fst] {m : TermMap} {config : TermIndexConfig}
    (hlang : (config.stem || config.stopwords) = true → config.language ≠ none)
    (hregion : (termRegion config.headBoundary m.toList).length < 2 ^ sizeBits) (hcount : m.toList.length < 2 ^ 32) :
    ∃ groups : List (List DictEntry), groups.flatten = termEntries config.headBoundary 0 m.toList ∧
      (∀ g ∈ groups, g ≠ []) ∧
      BlockWriter.Capped (if config.blockCap = 0 then defaultDictBlockCap else config.blockCap) groups ∧
      ((∀ b ∈ blocksOf 0 groups, b.bytes.length < 2 ^ sizeBits ∧ b.off < 2 ^ 40) → ∀ router,
        Fst.build ((blocksOf 0 groups).map fun b => (b.lastTerm, packLoc b.off b.bytes.length)) = .ok router →
        ∃ t : TermFile m config, t.router = router ∧ writeTermIndexFromPostings m config = .ok t.bytes) := by
  have hnew : (TermIndexStreamWriter.new config).region.length +
      (termRegion (TermIndexStreamWriter.new config).config.headBoundary m.toList).length < 2 ^ sizeBits := by
    rw [show (TermIndexStreamWriter.new config).region.length = 0 from rfl, Nat.zero_add]
    exact hregion
  obtain ⟨sw, hpush⟩ := pushPostings_accepts hnew
  obtain ⟨hc, hr, hb, ht, hfit, hlen⟩ := pushPostings_ok hpush
  have hc : sw.config = config := hc
  have hr : sw.region = termRegion config.headBoundary m.toList := hr
  have ht : sw.termCount = m.toList.length := by
    rw [ht]
    exact Nat.zero_add _
  obtain ⟨groups, hblocks, hflat, hne, hcap⟩ :=
    blocks_pushAll_capped config.blockCap (termEntries config.headBoundary 0 m.toList)
  have hfin : sw.blocks.finish = blocksOf 0 groups := by
    rw [hb]
    exact hblocks
  have h24 : 2 ^ sizeBits = 2 ^ 24 := rfl
  refine ⟨groups, hflat, hne, hcap, fun hsmall router hrouter => ?_⟩
  refine ⟨⟨router, groups, hflat, hne, hfit, hsmall, hlang, hcount, by omega, hrouter⟩, rfl, ?_⟩
  have hentries := routerEntries_accepts hsmall
  have hon : ¬ ((sw.config.stem || sw.config.stopwords) = true ∧ sw.config.language = none) := by
    rw [hc]
    exact fun h => hlang h.1 h.2
  unfold writeTermIndexFromPostings TermIndexStreamWriter.finishMeta
  simp only [hpush, hfin, hentries, hrouter, bind, Except.bind, if_neg hon, if_neg (show ¬ 2 ^ 32 ≤ sw.termCount by omega)]
  rw [hc, ht, hr, sum_blocksOf, TermFile.bytes, List.flatMap_def]
  rfl

/-- **The writer accepts** terms and postings that stay within 24 bits, when their router can be built. -/
theorem exists_writeTermIndex [Fst] {m : TermMap} {config : TermIndexConfig}
    (hlang : (config.stem || config.stopwords) = true → config.language ≠ none)
    (hregion : (termRegion config.headBoundary m.toList).length < 2 ^ sizeBits)
    (hterm : ∀ x ∈ m.toList, x.1.bytes.length ≤ longest) (hdict : m.toList.length * (longest + 40) < 2 ^ sizeBits)
    (hbuild : ∀ es : List (Bytes × Nat), es.length ≤ m.toList.length → (∀ e ∈ es, e.1.length ≤ longest) →
      ∃ router, Fst.build es = .ok router) : ∃ file, writeTermIndexFromPostings m config = .ok file := by
  have h24 : 2 ^ sizeBits = 2 ^ 24 := rfl
  have hle : m.toList.length ≤ m.toList.length * (longest + 40) := Nat.le_mul_of_pos_right _ (by omega)
  obtain ⟨groups, hflat, hne, -, hwrite⟩ := exists_termFile hlang hregion (by omega)
  have hlen : groups.flatten.length = m.toList.length := by rw [hflat, length_termEntries]
  have hterms : ∀ e ∈ groups.flatten, e.term.length ≤ longest := by
    intro e he
    rw [hflat] at he
    obtain ⟨x, hx, hex, -⟩ := exists_partner (@termEntries_slice _ config.headBoundary 0 m.toList [] rfl) he
    rw [hex]
    exact hterm x hx
  have hsum := groupsLen_le_mul hterms
  have hslice := @blocksOf_slice [] 0 rfl groups
  simp only [List.nil_append] at hslice
  have hsmall : ∀ b ∈ blocksOf 0 groups, b.bytes.length < 2 ^ sizeBits ∧ b.off < 2 ^ 40 := by
    intro b hb
    obtain ⟨g, hg, -, -, hle, -⟩ := exists_partner hslice hb
    rw [length_flatMap_blocks] at hle
    rw [hlen] at hsum
    omega
  obtain ⟨hkeys, hlast⟩ := blocksOf_keys hne hterms
  obtain ⟨router, hrouter⟩ := hbuild ((blocksOf 0 groups).map fun b => (b.lastTerm, packLoc b.off b.bytes.length))
    (by rw [List.length_map, ← hlen]; exact hkeys) (List.forall_mem_map.mpr hlast)
  obtain ⟨t, -, hfile⟩ := hwrite hsmall router hrouter
  exact ⟨t.bytes, hfile⟩

end

end

/-! ## Searching what was written -/

section

variable [Roaring] [Fst] [Unicode] [TokenFilters] {m : TermMap} {config : TermIndexConfig} {file : Bytes}

/-- **Term search is exact** over the bytes of `write_term_index_from_postings`.  The reader refuses a
router above its bound; the index it opens otherwise pages the docs that have every term of the query, and
pages the heads fill hold what the whole postings would put there. -/
theorem termSearch_exact (h : writeTermIndexFromPostings m config = .ok file) :
    ∃ ix : TermIndex,
      Settles (TermIndex.open (MemoryFetch.new file))
        (if maxResidentRouter < getLe 8 file 16 then .error (.malformed "RRTI router FST length implausible")
          else .ok ix) ∧
      TermIndex.fromBoot (slice file 0 (rrtiHeaderSize + getLe 8 file 16)) (MemoryFetch.new file) =
        (if maxResidentRouter < getLe 8 file 16 then .error (.malformed "RRTI router FST length implausible")
          else .ok ix) ∧
      (∀ query limit, Settles (ix.search query limit)
        (.ok ((m.strictDocs (TermIndex.queryTerms config.tokenizer query)).toList.take limit))) ∧
      ∀ terms locs, Settles (ix.resolveLocs terms false) (.ok (some locs)) →
        ∃ (blocks : List HeadBlock) (tails : List Bitmap),
          Settles (tryAll (locs.map ix.headBlock)) (.ok blocks) ∧
          Settles (tryAll (blocks.map fun b => ix.tail b.tailOff b.tailSize)) (.ok tails) ∧
          ∀ limit ≤ (AscSet.inters (blocks.map HeadBlock.head)).len,
            (AscSet.inters (blocks.map HeadBlock.head)).toList.take limit =
              (AscSet.inters (List.zipWith (fun b t => b.head ∪ t) blocks tails)).toList.take limit := by
  obtain ⟨t, rfl⟩ := writeTermIndex_ok h
  have hlen : getLe 8 t.bytes 16 = t.router.length := t.header_fields.2.2.2.2.2.1
  rw [hlen]
  refine ⟨t.index, t.settles_open, t.fromBoot_eq, fun query limit => ?_, fun terms locs hlocs => ?_⟩
  · have hterms : TermIndex.queryTerms t.index.tokenizer query = TermIndex.queryTerms config.tokenizer query := by
      unfold TermIndex.queryTerms
      have htk : t.index.tokenizer.tokenize query = config.tokenizer.tokenize query :=
        tokenize_fromHeader _ t.language_ok query
      rw [htk]
    rw [← hterms]
    exact TermIndex.settles_search t.serves query limit
  · exact TermIndex.settles_bothPaths t.serves hlocs

end

attribute [local instance] PortableCodec.roaring asciiUnicode asciiFilters FlatRouter.fst

/-- Two terms, one with docs on both sides of the boundary. -/
def twoTerms : TermMap :=
  ⟨[(⟨"a"⟩, AscSet.ofList [1, 70000] (by decide)), (⟨"b"⟩, AscSet.ofList [1] (by decide))], by decide⟩

/-- Case-folded terms without a language, split at the default boundary. -/
def plainTerms : TermIndexConfig := ⟨65536, none, false, false, false, 0, by decide⟩

theorem termSearch_exact_twoTerms : ∃ (file : Bytes) (ix : TermIndex),
    writeTermIndexFromPostings twoTerms plainTerms = .ok file ∧
    Settles (TermIndex.open (MemoryFetch.new file)) (.ok ix) ∧
    Settles (ix.search "A b" 10) (.ok [1]) ∧ Settles (ix.search "a" 10) (.ok [1, 70000]) ∧
    Settles (ix.search "a c" 10) (.ok []) := by
  have hwrite : ∃ file, writeTermIndexFromPostings twoTerms plainTerms = .ok file ∧
      ¬ maxResidentRouter < getLe 8 file 16 := ⟨_, rfl, by decide⟩
  obtain ⟨file, hfile, hlen⟩ := hwrite
  obtain ⟨ix, hopen, -, hsearch, -⟩ := termSearch_exact hfile
  rw [if_neg hlen] at hopen
  exact ⟨file, ix, hfile, hopen, hsearch "A b" 10, hsearch "a" 10, hsearch "a c" 10⟩

/-! ## A router past the reader's bound -/

/-- The term of `n` times one letter. -/
def wideTerm (n : Nat) (c : Char) : Term := ⟨String.ofList (List.replicate n c)⟩

/-- Letters of one byte each. -/
def wideLetters : List Char := (List.range 65).map fun i => Char.ofNat (48 + i)

theorem bytes_wideTerm {c : Char} (hc : c ∈ wideLetters) (n : Nat) :
    (wideTerm n c).bytes = List.replicate n c.val.toUInt8 := by
  have hall : wideLetters.all (fun c => decide (c.utf8Size = 1)) = true := by decide
  have hone : c.utf8Size = 1 := of_decide_eq_true (List.all_eq_true.mp hall c hc)
  rw [wideTerm, Term.bytes, utf8_ofList, List.flatMap_replicate, String.utf8EncodeChar_eq_singleton hone,
    List.flatten_replicate_singleton]

theorem wideTerms_asc (n : Nat) : (wideLetters.map fun c => (wideTerm (n + 1) c, AscSet.ofList [1] (by decide))).Pairwise
    fun (a b : Term × Bitmap) => a.1 < b.1 := by
  have hasc : wideLetters.Pairwise fun a b => a.val.toUInt8.toNat < b.val.toUInt8.toNat := by decide
  rw [List.pairwise_map]
  refine hasc.imp_of_mem fun {a b} ha hb hlt => ?_
  show (wideTerm (n + 1) a).bytes < (wideTerm (n + 1) b).bytes
  rw [bytes_wideTerm ha, bytes_wideTerm hb]
  exact List.Lex.rel (UInt8.lt_iff_toNat_lt.mpr hlt)

/-- Terms with no byte in common, one doc each. -/
def wideTerms (n : Nat) : TermMap :=
  ⟨wideLetters.map fun c => (wideTerm (n + 1) c, AscSet.ofList [1] (by decide)), wideTerms_asc n⟩

theorem mem_wideTerms {n : Nat} {x : Term × Bitmap} (hx : x ∈ (wideTerms n).toList) :
    x.1.bytes.length = n + 1 ∧ x.2 = AscSet.ofList [1] (by decide) := by
  obtain ⟨c, hc, rfl⟩ := List.mem_map.mp hx
  refine ⟨?_, rfl⟩
  show (wideTerm (n + 1) c).bytes.length = n + 1
  rw [bytes_wideTerm hc, List.length_replicate]

theorem length_wideTerms (n : Nat) : (wideTerms n).toList.length = 65 := by
  rw [wideTerms, List.length_map, wideLetters, List.length_map, List.length_range]

/-- Terms longer than the cap have a block each. -/
theorem length_le_one_of_capped {cap : Nat} {groups : List (List DictEntry)} (hcap : BlockWriter.Capped cap groups)
    (h : ∀ e ∈ groups.flatten, cap < e.term.length) : ∀ g ∈ groups, g.length ≤ 1 := by
  intro g hg
  by_contra hlt
  obtain ⟨e, he⟩ := List.exists_mem_of_length_pos (show 0 < g.length by omega)
  have hblock := hcap g hg (by omega)
  have hterm := @term_length_le g [] 0 e he
  have hlong := h e (List.mem_flatten.mpr ⟨g, hg, he⟩)
  rw [← encodeBlock, List.length_nil] at hterm
  omega

theorem length_flatten_le {groups : List (List DictEntry)} (h : ∀ g ∈ groups, g.length ≤ 1) :
    groups.flatten.length ≤ groups.length := by
  induction groups with
  | nil => exact Nat.le_refl _
  | cons g groups ih =>
    have hone := h g List.mem_cons_self
    have hrest := ih fun x hx => h x (List.mem_cons_of_mem _ hx)
    rw [List.flatten_cons, List.length_append, List.length_cons]
    omega

/-- **The writer's router may be past the reader's bound**: 65 terms of 8 MiB make one, and the file does not open. -/
theorem termSearch_wideTerms : ∃ file, writeTermIndexFromPostings (wideTerms 8388607) plainTerms = .ok file ∧
    Settles (TermIndex.open (MemoryFetch.new file)) (.error (.malformed "RRTI router FST length implausible")) ∧
    ¬ ∃ ix : TermIndex, Settles (TermIndex.open (MemoryFetch.new file)) (.ok ix) := by
  have h24 : 2 ^ sizeBits = 16777216 := rfl
  have hmax : maxResidentRouter = 536870912 := rfl
  have hregion : (termRegion plainTerms.headBoundary (wideTerms 8388607).toList).length = 65 * 30 := by
    rw [length_termRegion fun x hx => ?_, length_wideTerms]
    rw [(mem_wideTerms hx).2]
    decide
  obtain ⟨groups, hflat, hne, hcap, hwrite⟩ := @exists_termFile _ _ (wideTerms 8388607) plainTerms
    (fun h => (by cases h)) (by omega) (by rw [length_wideTerms]; decide)
  have hlen : groups.flatten.length = 65 := by rw [hflat, length_termEntries, length_wideTerms]
  have hterms : ∀ e ∈ groups.flatten, e.term.length = 8388608 := by
    intro e he
    rw [hflat] at he
    obtain ⟨x, hx, hex, -⟩ :=
      exists_partner (@termEntries_slice _ plainTerms.headBoundary 0 (wideTerms 8388607).toList [] rfl) he
    rw [hex]
    exact (mem_wideTerms hx).1
  have hone : ∀ g ∈ groups, g.length ≤ 1 := by
    refine length_le_one_of_capped hcap fun e he => ?_
    rw [hterms e he]
    decide
  have hgroups : groups.length = 65 :=
    Nat.le_antisymm (hlen ▸ length_le_flatten hne) (hlen ▸ length_flatten_le hone)
  have hslice := @blocksOf_slice [] 0 rfl groups
  simp only [List.nil_append] at hslice
  have hsum := groupsLen_le_mul fun e he => Nat.le_of_eq (hterms e he)
  have hsmall : ∀ b ∈ blocksOf 0 groups, b.bytes.length < 2 ^ sizeBits ∧ b.off < 2 ^ 40 := by
    intro b hb
    obtain ⟨g, hg, hbytes, -, hle, -⟩ := exists_partner hslice hb
    rw [length_flatMap_blocks] at hle
    have hblock := length_encodeFrom_le (fun e he => Nat.le_of_eq (hterms e (List.mem_flatten.mpr ⟨g, hg, he⟩))) [] 0
    rw [← encodeBlock, ← hbytes] at hblock
    have hmul := Nat.mul_le_mul_right (8388608 + 40) (hone g hg)
    omega
  -- the router lists the last term of each block, which is its only one
  let entries := (blocksOf 0 groups).map fun b => (b.lastTerm, packLoc b.off b.bytes.length)
  have hentries : entries.length = 65 := by rw [List.length_map, hslice.length_eq, hgroups]
  have hkeys : ∀ e ∈ entries, e.1.length = 8388608 := by
    refine List.forall_mem_map.mpr fun b hb => ?_
    obtain ⟨g, hg, -, hlast, -⟩ := exists_partner hslice hb
    rw [hlast]
    exact hterms _ (List.mem_flatten.mpr ⟨g, hg, lastEntry_mem (hne g hg)⟩)
  have hupper := FlatRouter.length_flatMap_le fun e he => Nat.le_of_eq (hkeys e he)
  have hlower := FlatRouter.le_length_flatMap fun e he => Nat.le_of_eq (hkeys e he).symm
  rw [hentries] at hupper hlower
  obtain ⟨t, hrouter, hfile⟩ := hwrite hsmall (entries.flatMap FlatRouter.encodeEntry)
    (if_neg (show ¬ 2 ^ 63 ≤ (entries.flatMap FlatRouter.encodeEntry).length by omega))
  have hopen := t.settles_open
  rw [if_pos (by rw [hrouter]; omega)] at hopen
  refine ⟨t.bytes, hfile, hopen, ?_⟩
  rintro ⟨ix, hix⟩
  cases congrArg Prod.fst (hopen.calm.symm.trans hix.calm)

end RoaringRange
