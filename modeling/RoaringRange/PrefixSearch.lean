import RoaringRange.FacetDigest
import RoaringRange.Lib.Tiles
import RoaringRange.TermsBuild

/-!
# Prefix search (`search_prefix_capped`, `complete`)

The terms that start with a prefix are consecutive in byte order.  The scan reads the blocks whose last term is
not before the prefix, several at a time, skips what is before the prefix and stops at the first term past it, or
when it has as many terms as it may take.

    a scan gathers the first terms that have the prefix                          (scanEntriesFor_eq)
    how blocks are grouped into waves does not matter                        (settles_scanPrefixBy)
    over a written file, completion and the union of postings are exact        (prefixSearch_exact)
-/

namespace RoaringRange

open ByteString Faults Slices Tiles

def maxPrefixTerms : Nat := 2048

def prefixBlockWave : Nat := 8

/-- The chars of a prefix as a case-folding tokenizer has them. -/
def lowerChars [Unicode] (pre : String) : String := String.ofList (pre.toList.flatMap Unicode.toLowercase)

/-- `locs` and `terms` of a scan. -/
structure PrefixHits where
  locs : List (Nat × Nat)
  terms : List String

/-- One more entry that has the prefix. -/
def PrefixHits.push (hits : PrefixHits) (wantTerms : Bool) (e : Bytes × Nat × Nat) : PrefixHits :=
  ⟨hits.locs ++ [e.2], if wantTerms then hits.terms ++ [fromUtf8Lossy e.1] else hits.terms⟩

/-- The loop over the entries of a block, and whether it ended the scan. -/
def scanEntriesFor (pb : Bytes) (max : Nat) (wantTerms : Bool) :
    List (Bytes × Nat × Nat) → PrefixHits → PrefixHits × Bool
  | [], hits => (hits, false)
  | e :: es, hits =>
    if e.1 < pb then scanEntriesFor pb max wantTerms es hits
    else if pb.isPrefixOf e.1 = false then (hits, true)
    else
      let hits := hits.push wantTerms e
      if max ≤ hits.locs.length then (hits, true) else scanEntriesFor pb max wantTerms es hits

/-- The loop over the fetched blocks of a wave. -/
def scanFetched (pb : Bytes) (max : Nat) (wantTerms : Bool) :
    List (Except IndexError Bytes) → PrefixHits → Except IndexError (PrefixHits × Bool)
  | [], hits => .ok (hits, false)
  | .error e :: _, _ => .error e
  | .ok block :: rs, hits =>
    let scanned := scanEntriesFor pb max wantTerms (iterBlock block) hits
    if scanned.2 then .ok scanned else scanFetched pb max wantTerms rs scanned.1

namespace TermIndex

variable (ix : TermIndex)

def foldPrefix [Unicode] (pre : String) : String := if ix.tokenizer.caseFold then lowerChars pre else pre

/-- The candidate blocks, every one whose last term is not before the prefix. -/
def prefixRanges (pb : Bytes) : List (Nat × Nat) :=
  (ix.router.filter fun e => pb ≤ e.1).map fun e => (ix.dictStart + (unpackLoc e.2).1, (unpackLoc e.2).2)

/-- The loop over the waves. -/
def scanWaves (pb : Bytes) (max : Nat) (wantTerms : Bool) : List (List (Nat × Nat)) → PrefixHits → Io PrefixHits
  | [], hits => pure hits
  | wave :: waves, hits => do
    let scanned ← joinAll (wave.map fun r => ix.fetch.read r.1 r.2) >>= fun rs =>
      ofOutcome (scanFetched pb max wantTerms rs hits)
    if scanned.2 then pure scanned.1 else scanWaves pb max wantTerms waves scanned.1

/-- `TermIndex::scan_prefix`, for any grouping of the candidate blocks into waves. -/
def scanPrefixBy (waves : List (Nat × Nat) → List (List (Nat × Nat))) (pb : Bytes) (max : Nat) (wantTerms : Bool) :
    Io PrefixHits :=
  if max = 0 then pure ⟨[], []⟩ else ix.scanWaves pb max wantTerms (waves (ix.prefixRanges pb)) ⟨[], []⟩

def scanPrefix (p : String) (max : Nat) (wantTerms : Bool) : Io PrefixHits :=
  ix.scanPrefixBy (fun ranges => chunksOf prefixBlockWave ranges.length ranges) (utf8 p) max wantTerms

def prefixLocs (p : String) : Io (List (Nat × Nat) × Bool) := do
  let hits ← ix.scanPrefix p (maxPrefixTerms + 1) false
  pure (hits.locs.take maxPrefixTerms, decide (maxPrefixTerms < hits.locs.length))

section

variable [Roaring]

def unionLocs (locs : List (Nat × Nat)) (limit : Nat) : Io (List Nat) :=
  if locs.isEmpty ∨ limit = 0 then pure []
  else do
    let blocks ← tryAll (locs.map ix.headBlock)
    let acc := AscSet.unions (blocks.map HeadBlock.head)
    if limit ≤ acc.len ∨ blocks.any (fun b => 0 < b.tailSize) = false then pure (acc.toList.take limit)
    else do
      let tails ← tryAll (blocks.map fun b => ix.tail b.tailOff b.tailSize)
      pure ((AscSet.unions (List.zipWith (fun b t => b.head ∪ t) blocks tails)).toList.take limit)

variable [Unicode]

def searchPrefixCapped (pre : String) (limit : Nat) : Io (List Nat × Bool) :=
  if limit = 0 then pure ([], false)
  else do
    let located ← ix.prefixLocs (ix.foldPrefix pre)
    let docs ← ix.unionLocs located.1 limit
    pure (docs, located.2)

end

def complete [Unicode] (pre : String) (maxTerms : Nat) : Io (List String) := do
  let hits ← ix.scanPrefix (ix.foldPrefix pre) maxTerms true
  pure hits.terms

end TermIndex

/-! ## Words with a prefix -/

section

variable {α : Type} [LinearOrder α]

/-- The words with a prefix are consecutive. -/
theorem starts_of_between {p t u : List α} (hp : p <+: u) (hle : p ≤ t) (hlt : t < u) : p <+: t := by
  induction p generalizing t u with
  | nil => exact List.nil_prefix
  | cons a p ih =>
    obtain ⟨s, rfl⟩ := hp
    cases t with
    | nil => exact absurd (List.nil_lt_cons a p) (not_lt.mpr hle)
    | cons b t =>
      rw [List.cons_append, List.cons_lt_cons_iff] at hlt
      have hle := not_lt.mpr hle
      rw [List.cons_lt_cons_iff, not_or] at hle
      rcases hlt with hba | ⟨rfl, hlt⟩
      · exact absurd hba hle.1
      · have hpt : p ≤ t := not_lt.mp fun h => hle.2 ⟨rfl, h⟩
        exact List.cons_prefix_cons.mpr ⟨rfl, ih (List.prefix_append p s) hpt hlt⟩

theorem le_of_starts {p t : List α} (h : p <+: t) : p ≤ t := by
  obtain ⟨s, rfl⟩ := h
  refine not_lt.mp fun hlt => ?_
  induction p with
  | nil => exact List.not_lt_nil _ hlt
  | cons a p ih =>
    rw [List.cons_append, List.cons_lt_cons_iff] at hlt
    rcases hlt with haa | ⟨-, hlt⟩
    · exact lt_irrefl _ haa
    · exact ih hlt

end

/-! ## Scanning -/

section

variable {pb : Bytes} {max : Nat} {wantTerms : Bool}

/-- A scan goes on where it stands, unless it has ended. -/
theorem scanEntriesFor_append (es fs : List (Bytes × Nat × Nat)) (hits : PrefixHits) :
    scanEntriesFor pb max wantTerms (es ++ fs) hits =
      let scanned := scanEntriesFor pb max wantTerms es hits
      if scanned.2 then scanned else scanEntriesFor pb max wantTerms fs scanned.1 := by
  induction es generalizing hits with
  | nil => rfl
  | cons e es ih =>
    simp only [List.cons_append, scanEntriesFor]
    split
    · exact ih hits
    split
    · rfl
    split
    · rfl
    · exact ih _

/-- Fetched blocks are scanned one after the other. -/
theorem scanFetched_ok (blocks : List Bytes) (hits : PrefixHits) :
    scanFetched pb max wantTerms (blocks.map Except.ok) hits =
      .ok (scanEntriesFor pb max wantTerms (blocks.flatMap iterBlock) hits) := by
  induction blocks generalizing hits with
  | nil => rfl
  | cons block blocks ih =>
    rw [List.map_cons, List.flatMap_cons, scanEntriesFor_append]
    unfold scanFetched
    simp only
    split
    · rfl
    · exact ih _

/-- A fault on a block that the scan reaches ends it. -/
theorem agrees_scanFetched {F : FetchError → Prop} {os rs : List (Except IndexError Bytes)}
    (h : List.Forall₂ (Agrees F) os rs) (hits : PrefixHits) :
    Agrees F (scanFetched pb max wantTerms os hits) (scanFetched pb max wantTerms rs hits) := by
  induction h generalizing hits with
  | nil => exact Or.inl rfl
  | @cons o r os rs ho _ ih =>
    rcases ho with rfl | ⟨e, he, rfl⟩
    · cases o with
      | error e => exact Or.inl rfl
      | ok block =>
        unfold scanFetched
        simp only
        split
        · exact Or.inl rfl
        · exact ih _
    · exact Or.inr ⟨e, he, rfl⟩

/-- The waves of a scan read as one list of entries. -/
theorem settles_scanWaves {ix : TermIndex} {waves : List (List (Nat × Nat))}
    (hfile : ∀ r ∈ waves.flatten, ix.fetch.InFile r.1 r.2) (hits : PrefixHits) :
    Settles (ix.scanWaves pb max wantTerms waves hits) (.ok (scanEntriesFor pb max wantTerms
      (waves.flatten.flatMap fun r => iterBlock (slice ix.fetch.bytes r.1 r.2)) hits).1) := by
  induction waves generalizing hits with
  | nil => exact Settles.pure _
  | cons wave waves ih =>
    have hwave : List.Forall₂ Settles (wave.map fun r => ix.fetch.read r.1 r.2)
        ((wave.map fun r => slice ix.fetch.bytes r.1 r.2).map Except.ok) := by
      rw [List.map_map, List.forall₂_map_left_iff, List.forall₂_map_right_iff]
      exact List.forall₂_same.mpr fun r hr =>
        MemoryFetch.settles_read (hfile r (List.mem_append_left _ hr))
    have hread := Settles.joinAll_consume hwave fun _ _ h => @agrees_scanFetched pb max wantTerms _ _ _ h hits
    rw [scanFetched_ok, List.flatMap_map] at hread
    unfold TermIndex.scanWaves
    refine hread.bind ?_
    rw [List.flatten_cons, List.flatMap_append, scanEntriesFor_append]
    simp only
    split
    · exact Settles.pure _
    · exact ih (fun r hr => hfile r (List.mem_append_right _ hr)) _

/-- What has the prefix, in the order of the entries. -/
def prefixed (pb : Bytes) (es : List (Bytes × Nat × Nat)) : List (Bytes × Nat × Nat) :=
  es.filter fun e => pb.isPrefixOf e.1

/-- What a scan has after it took some entries in. -/
def PrefixHits.pushAll (hits : PrefixHits) (wantTerms : Bool) (es : List (Bytes × Nat × Nat)) : PrefixHits :=
  ⟨hits.locs ++ es.map Prod.snd, if wantTerms then hits.terms ++ es.map fun e => fromUtf8Lossy e.1 else hits.terms⟩

theorem PrefixHits.pushAll_nil (hits : PrefixHits) : hits.pushAll wantTerms [] = hits := by
  unfold PrefixHits.pushAll
  simp

theorem PrefixHits.pushAll_cons (hits : PrefixHits) (e : Bytes × Nat × Nat) (es : List (Bytes × Nat × Nat)) :
    hits.pushAll wantTerms (e :: es) = (hits.push wantTerms e).pushAll wantTerms es := by
  unfold PrefixHits.pushAll PrefixHits.push
  cases wantTerms <;> simp

/-- No term past the prefix has it. -/
theorem prefixed_past {e : Bytes × Nat × Nat} {es : List (Bytes × Nat × Nat)} (hge : ¬ e.1 < pb)
    (hno : pb.isPrefixOf e.1 = false) (hlt : ∀ x ∈ es, e.1 < x.1) : prefixed pb (e :: es) = [] := by
  unfold prefixed
  rw [List.filter_eq_nil_iff]
  intro x hx hp
  rw [List.isPrefixOf_iff_prefix] at hp
  have hnot : ¬ pb <+: e.1 := by
    rw [← List.isPrefixOf_iff_prefix, hno]
    decide
  rcases List.mem_cons.mp hx with rfl | hx
  · exact hnot hp
  · exact hnot (starts_of_between hp (not_lt.mp hge) (hlt x hx))

/-- **A scan gathers the first terms that have the prefix**, as many as it may take. -/
theorem scanEntriesFor_eq {es : List (Bytes × Nat × Nat)} (hasc : es.Pairwise fun a b => a.1 < b.1) :
    ∀ {hits : PrefixHits}, hits.locs.length < max →
      (scanEntriesFor pb max wantTerms es hits).1 =
        hits.pushAll wantTerms ((prefixed pb es).take (max - hits.locs.length)) := by
  induction es with
  | nil =>
    intro hits _
    show hits = hits.pushAll wantTerms (List.take _ [])
    rw [List.take_nil, hits.pushAll_nil]
  | cons e es ih =>
    intro hits hroom
    obtain ⟨hlt, htail⟩ := List.pairwise_cons.mp hasc
    unfold scanEntriesFor
    by_cases hbefore : e.1 < pb
    · have hno : ¬ pb.isPrefixOf e.1 = true := by
        rw [List.isPrefixOf_iff_prefix]
        exact fun h => absurd (le_of_starts h) (not_le.mpr hbefore)
      have hskip : prefixed pb (e :: es) = prefixed pb es := List.filter_cons_of_neg hno
      rw [if_pos hbefore, ih htail hroom, hskip]
    rw [if_neg hbefore]
    by_cases hhas : pb.isPrefixOf e.1 = true
    · have hmatch : prefixed pb (e :: es) = e :: prefixed pb es := List.filter_cons_of_pos hhas
      have hlen : (hits.push wantTerms e).locs.length = hits.locs.length + 1 := by
        unfold PrefixHits.push
        rw [List.length_append, List.length_singleton]
      obtain ⟨room, hroom'⟩ : ∃ room, max - hits.locs.length = room + 1 := ⟨max - hits.locs.length - 1, by omega⟩
      rw [if_neg (by rw [hhas]; decide), hmatch, hroom', List.take_succ_cons, hits.pushAll_cons]
      simp only
      split
      · next hfull =>
        have hzero : room = 0 := by omega
        rw [hzero, List.take_zero, PrefixHits.pushAll_nil]
      · next hmore =>
        have hrest : max - (hits.push wantTerms e).locs.length = room := by omega
        rw [ih htail (by omega), hrest]
    · have hno : pb.isPrefixOf e.1 = false := Bool.eq_false_iff.mpr hhas
      rw [if_pos hno, prefixed_past hbefore hno hlt, List.take_nil, hits.pushAll_nil]

end

/-! ## The terms of a written file -/

/-- The postings of the terms that start with a prefix, in byte order. -/
def TermMap.withPrefix (m : TermMap) (pb : Bytes) : List (Term × Bitmap) :=
  m.toList.filter fun x => pb.isPrefixOf x.1.bytes

/-- A group that ends before a prefix has no term with it. -/
theorem filter_candidates {groups : List (List DictEntry)}
    (hasc : groups.flatten.Pairwise fun a b => a.term < b.term) (pb : Bytes) :
    (groups.filter fun g => pb ≤ (lastEntry g).term).flatten.filter (fun e => pb.isPrefixOf e.term) =
      groups.flatten.filter fun e => pb.isPrefixOf e.term := by
  induction groups with
  | nil => rfl
  | cons g groups ih =>
    rw [List.flatten_cons, List.pairwise_append] at hasc
    rw [List.flatten_cons, List.filter_append, ← ih hasc.2.1]
    by_cases hg : pb ≤ (lastEntry g).term
    · rw [List.filter_cons_of_pos (by simpa using hg), List.flatten_cons, List.filter_append]
    · have hnone : g.filter (fun e => pb.isPrefixOf e.term) = [] := by
        rw [List.filter_eq_nil_iff]
        intro e he hp
        rw [List.isPrefixOf_iff_prefix] at hp
        exact hg (le_trans (le_of_starts hp) (term_le_lastEntry hasc.1 he))
      rw [List.filter_cons_of_neg (by simpa using hg), hnone, List.nil_append]

namespace TermFile

variable [Roaring] [Fst] {m : TermMap} {config : TermIndexConfig} (t : TermFile m config) (pb : Bytes)

/-- The groups whose blocks a scan reads. -/
def candidates : List (List DictEntry) := t.groups.filter fun g => pb ≤ (lastEntry g).term

theorem candidates_sublist : (t.candidates pb).flatten.Sublist t.groups.flatten :=
  List.Sublist.flatten List.filter_sublist

/-- The ranges a scan reads hold the blocks of the candidates. -/
theorem ranges_blocks : List.Forall₂ (fun (r : Nat × Nat) g => t.index.fetch.InFile r.1 r.2 ∧
    iterBlock (slice t.index.fetch.bytes r.1 r.2) = g.map DictEntry.item)
    (t.index.prefixRanges pb) (t.candidates pb) := by
  have hblocks := @blocksOf_slice [] 0 rfl t.groups
  simp only [List.nil_append] at hblocks
  have hsub : ∀ g ∈ t.groups, ∀ e ∈ g, e ∈ termEntries config.headBoundary 0 m.toList := by
    intro g hg e he
    rw [← t.flatten_eq]
    exact List.mem_flatten.mpr ⟨g, hg, he⟩
  have hsubl : ∀ g ∈ t.groups, g.Sublist (termEntries config.headBoundary 0 m.toList) := by
    intro g hg
    rw [← t.flatten_eq]
    exact List.sublist_flatten_of_mem hg
  have hflt := t.length_file_lt
  have hflen := t.length_file
  have hpo : t.postingsOffset = t.dictStart + t.dict.length := rfl
  have hboth := (List.forall₂_and_left _ _).mpr ⟨fun g hg => hg,
    ((List.forall₂_and_left _ _).mpr ⟨fun b hb => hb, hblocks⟩).flip⟩
  have hread := (List.rel_filter (p := fun g : List DictEntry => decide (pb ≤ (lastEntry g).term))
    (q := fun b : Block => decide (pb ≤ b.lastTerm)) (fun g b h => by
      beta_reduce
      rw [h.2.2.2.1]) hboth).flip
  have hranges : t.index.prefixRanges pb = ((blocksOf 0 t.groups).filter fun b => pb ≤ b.lastTerm).map fun b =>
      (t.dictStart + (unpackLoc (packLoc b.off b.bytes.length)).1, (unpackLoc (packLoc b.off b.bytes.length)).2) := by
    show ((List.map _ _).filter _).map _ = _
    rw [List.filter_map, List.map_map]
    rfl
  rw [hranges, List.forall₂_map_left_iff]
  refine hread.imp ?_
  rintro b g ⟨hg, hb, henc, -, hle, hslice⟩
  have hle : b.off + b.bytes.length ≤ t.dict.length := hle
  have hslice : slice t.dict b.off b.bytes.length = b.bytes := hslice
  obtain ⟨hlen, hoff⟩ := t.block_lt b hb
  rw [unpackLoc_packLoc hoff hlen]
  refine ⟨MemoryFetch.inFile_new hflt (by simp only; omega), ?_⟩
  show iterBlock (slice t.bytes (t.dictStart + b.off) b.bytes.length) = _
  rw [t.slice_dict hle, hslice, henc]
  exact iterBlock_encode (fun e he => t.fits e (hsub g hg e he))
    ((termEntries_headOff_lt.imp le_of_lt).sublist (hsubl g hg)) (by rw [← henc]; exact hlen)

/-- The entries that a scan reads. -/
theorem flatMap_ranges : ((t.index.prefixRanges pb).flatMap fun r => iterBlock (slice t.index.fetch.bytes r.1 r.2)) =
    (t.candidates pb).flatten.map DictEntry.item := by
  have h := t.ranges_blocks pb
  generalize t.index.prefixRanges pb = ranges at h ⊢
  generalize t.candidates pb = groups at h ⊢
  induction h with
  | nil => rfl
  | cons hr _ ih => rw [List.flatMap_cons, List.flatten_cons, List.map_append, hr.2, ih]

/-- The locations that a scan may gather, with the postings there. -/
theorem prefixed_located : List.Forall₂ (fun (e : Bytes × Nat × Nat) x => e.1 = x.1.bytes ∧ t.index.TermAt e.2 x.2)
    (prefixed pb ((t.candidates pb).flatten.map DictEntry.item)) (m.withPrefix pb) := by
  have hpost := @termEntries_slice _ config.headBoundary 0 m.toList [] rfl
  simp only [List.nil_append] at hpost
  have hfilter := List.rel_filter (p := fun e : DictEntry => pb.isPrefixOf e.term)
    (q := fun x : Term × Bitmap => pb.isPrefixOf x.1.bytes) (fun e x h => by
      beta_reduce
      rw [h.1]) hpost
  have hmap : prefixed pb ((t.candidates pb).flatten.map DictEntry.item) =
      ((termEntries config.headBoundary 0 m.toList).filter fun e => pb.isPrefixOf e.term).map DictEntry.item := by
    rw [← t.flatten_eq, ← filter_candidates t.entries_asc, prefixed, List.filter_map]
    rfl
  rw [hmap, List.forall₂_map_left_iff]
  refine hfilter.imp ?_
  rintro e ⟨term, S⟩ ⟨hterm, hsize, hle, hrec⟩
  exact ⟨hterm, t.termAt hsize hle hrec⟩

/-- **The scan of a written file**, however its blocks are grouped into waves. -/
theorem settles_scanPrefixBy {waves : List (Nat × Nat) → List (List (Nat × Nat))}
    (hwaves : ∀ ranges, (waves ranges).flatten = ranges) (max : Nat) (wantTerms : Bool) :
    Settles (t.index.scanPrefixBy waves pb max wantTerms) (.ok (PrefixHits.pushAll ⟨[], []⟩ wantTerms
      ((prefixed pb ((t.candidates pb).flatten.map DictEntry.item)).take max))) := by
  unfold TermIndex.scanPrefixBy
  by_cases hmax : max = 0
  · rw [if_pos hmax, hmax, List.take_zero, PrefixHits.pushAll_nil]
    exact Settles.pure _
  rw [if_neg hmax]
  have hasc : ((t.candidates pb).flatten.map DictEntry.item).Pairwise fun a b => a.1 < b.1 :=
    List.pairwise_map.mpr (t.entries_asc.sublist (t.candidates_sublist pb))
  have hroom : (⟨[], []⟩ : PrefixHits).locs.length < max := Nat.pos_of_ne_zero hmax
  have hscan := @settles_scanWaves pb max wantTerms t.index (waves (t.index.prefixRanges pb)) (fun r hr => by
    rw [hwaves] at hr
    obtain ⟨g, -, hfile, -⟩ := exists_partner (t.ranges_blocks pb) hr
    exact hfile) ⟨[], []⟩
  rw [hwaves, t.flatMap_ranges, scanEntriesFor_eq hasc hroom] at hscan
  exact hscan

/-- **The scan of a written file**: where the terms with the prefix have their postings, and the terms. -/
theorem settles_scanPrefix (p : String) (max : Nat) (wantTerms : Bool) :
    ∃ locs, Settles (t.index.scanPrefix p max wantTerms) (.ok ⟨locs.take max,
        if wantTerms then ((m.withPrefix (utf8 p)).map fun x => x.1.text).take max else []⟩) ∧
      List.Forall₂ t.index.TermAt locs ((m.withPrefix (utf8 p)).map Prod.snd) := by
  have hchunks : ∀ ranges : List (Nat × Nat),
      (chunksOf prefixBlockWave ranges.length ranges).flatten = ranges := fun _ =>
    flatten_chunksOf (by decide) (Nat.le_refl _)
  have hscan := t.settles_scanPrefixBy (utf8 p) hchunks max wantTerms
  have hlocated := t.prefixed_located (utf8 p)
  generalize prefixed (utf8 p) ((t.candidates (utf8 p)).flatten.map DictEntry.item) = es at hscan hlocated
  refine ⟨es.map Prod.snd, ?_, ?_⟩
  · have hterms : es.map (fun e => fromUtf8Lossy e.1) = (m.withPrefix (utf8 p)).map fun x => x.1.text := by
      refine List.forall₂_eq_eq_eq ▸ ?_
      rw [List.forall₂_map_left_iff, List.forall₂_map_right_iff]
      refine hlocated.imp fun e x h => ?_
      rw [h.1]
      exact fromUtf8Lossy_utf8 x.1.text
    unfold PrefixHits.pushAll at hscan
    rw [List.nil_append, List.nil_append, List.map_take, List.map_take, hterms] at hscan
    exact hscan
  · rw [List.forall₂_map_left_iff, List.forall₂_map_right_iff]
    exact hlocated.imp fun e x h => h.2

end TermFile

/-! ## The union of the postings -/

theorem Bitmap.unions_below (sets : List Bitmap) (bound : Nat) :
    AscSet.unions (sets.map fun S => S.below bound) = Bitmap.below (AscSet.unions sets) bound := by
  refine AscSet.ext_mem fun d => ?_
  rw [AscSet.mem_unions, Bitmap.mem_below, AscSet.mem_unions]
  simp only [List.mem_map, exists_exists_and_eq_and, Bitmap.mem_below]
  constructor
  · rintro ⟨S, hS, hd, hlt⟩
    exact ⟨⟨S, hS, hd⟩, hlt⟩
  · rintro ⟨⟨S, hS, hd⟩, hlt⟩
    exact ⟨S, hS, hd, hlt⟩

namespace TermIndex

/-- The union of postings, from the heads alone or from all of them. -/
theorem settles_unionLocs [Roaring] {ix : TermIndex} {locs : List (Nat × Nat)} {sets : List Bitmap}
    (h : List.Forall₂ ix.TermAt locs sets) (limit : Nat) :
    Settles (ix.unionLocs locs limit) (.ok ((AscSet.unions sets).toList.take limit)) := by
  unfold unionLocs
  by_cases hlimit : limit = 0
  · rw [if_pos (Or.inr hlimit), hlimit, List.take_zero]
    exact Settles.pure _
  by_cases hnil : locs = []
  · subst hnil
    have hempty : ([] : List (Nat × Nat)).isEmpty = true ∨ limit = 0 := Or.inl rfl
    rw [List.forall₂_nil_left_iff.mp h, if_pos hempty]
    show Settles (pure []) (.ok (List.take limit []))
    rw [List.take_nil]
    exact Settles.pure _
  have hne : sets ≠ [] := by
    rintro rfl
    exact hnil (List.forall₂_nil_right_iff.mp h)
  rw [if_neg (by
    rw [List.isEmpty_iff]
    exact not_or.mpr ⟨hnil, hlimit⟩)]
  refine (settles_heads h).bind ?_
  have hfor := headsFor h
  generalize List.zipWith ix.headOf locs sets = blocks at hfor
  simp only
  rw [map_head_eq hfor, any_tail hfor hne, Bitmap.unions_below]
  split
  · next hfull =>
    have hlen := hfull.resolve_right (by decide)
    rw [Bitmap.take_below hlen]
    exact Settles.pure _
  · obtain ⟨tails, htails, hfull⟩ := settles_tails hfor
    refine htails.bind ?_
    rw [hfull]
    exact Settles.pure _

end TermIndex

/-! ## Prefix search over a written file -/

/-- A query's prefix as the index's terms have it. -/
def TermIndexConfig.foldPrefix [Unicode] (config : TermIndexConfig) (pre : String) : String :=
  if config.caseSensitive then pre else lowerChars pre

theorem TermFile.foldPrefix_eq [Roaring] [Fst] [Unicode] {m : TermMap} {config : TermIndexConfig} (t : TermFile m config)
    (pre : String) : t.index.foldPrefix pre = config.foldPrefix pre := by
  have hfold : t.index.tokenizer.caseFold = !config.caseSensitive := by
    show decide (tokenizerFlags config.stem config.stopwords (!config.caseSensitive) &&& flagTermsCaseSensitive = 0) = _
    cases config.stem <;> cases config.stopwords <;> cases config.caseSensitive <;> rfl
  unfold TermIndex.foldPrefix TermIndexConfig.foldPrefix
  rw [hfold]
  cases config.caseSensitive <;> rfl

section

variable [Roaring] [Fst] [Unicode] {m : TermMap} {config : TermIndexConfig} {file : Bytes}

/-- A capped search pages the union of the first terms, and tells when there are more. -/
theorem TermFile.settles_searchPrefixCapped (t : TermFile m config) (pre : String) (limit : Nat) :
    Settles (t.index.searchPrefixCapped pre limit) (.ok (if limit = 0 then ([], false) else
      ((AscSet.unions (((m.withPrefix (utf8 (config.foldPrefix pre))).map Prod.snd).take maxPrefixTerms)).toList.take limit,
        decide (maxPrefixTerms < (m.withPrefix (utf8 (config.foldPrefix pre))).length)))) := by
  unfold TermIndex.searchPrefixCapped
  by_cases hlimit : limit = 0
  · rw [if_pos hlimit, if_pos hlimit]
    exact Settles.pure _
  rw [if_neg hlimit, if_neg hlimit, t.foldPrefix_eq]
  obtain ⟨locs, hscan, hat⟩ := t.settles_scanPrefix (config.foldPrefix pre) (maxPrefixTerms + 1) false
  generalize m.withPrefix (utf8 (config.foldPrefix pre)) = found at hscan hat ⊢
  have hlen : locs.length = found.length := by rw [hat.length_eq, List.length_map]
  have hmore : decide (maxPrefixTerms < (locs.take (maxPrefixTerms + 1)).length) =
      decide (maxPrefixTerms < found.length) := by
    rw [List.length_take, hlen]
    exact decide_eq_decide.mpr ⟨fun h => by omega, fun h => by omega⟩
  have hlocated : Settles (t.index.prefixLocs (config.foldPrefix pre))
      (.ok (locs.take maxPrefixTerms, decide (maxPrefixTerms < found.length))) := by
    have hfirst : (locs.take (maxPrefixTerms + 1)).take maxPrefixTerms = locs.take maxPrefixTerms := by
      rw [List.take_take, Nat.min_eq_left (Nat.le_succ _)]
    rw [← hmore, ← hfirst]
    exact hscan.map
  exact hlocated.bind (TermIndex.settles_unionLocs (List.forall₂_take _ hat) limit).map

/-- **Prefix search is exact** over the bytes of `write_term_index_from_postings`.  Completion lists the first terms
with the prefix in byte order.  A search for a positive number of docs reports a truncated result exactly when more
terms match than its cap, and any other result is the first docs of the union of all matching postings; a search
for no docs returns at once.  How the dictionary blocks are grouped into waves changes nothing. -/
theorem prefixSearch_exact (h : writeTermIndexFromPostings m config = .ok file) :
    ∃ ix : TermIndex,
      Settles (TermIndex.open (MemoryFetch.new file))
        (if maxResidentRouter < getLe 8 file 16 then .error (.malformed "RRTI router FST length implausible")
          else .ok ix) ∧
      (∀ pre maxTerms, Settles (ix.complete pre maxTerms)
        (.ok (((m.withPrefix (utf8 (config.foldPrefix pre))).map fun x => x.1.text).take maxTerms))) ∧
      (∀ pre limit, ∃ docs truncated, Settles (ix.searchPrefixCapped pre limit) (.ok (docs, truncated)) ∧
        (truncated = false →
          docs = (AscSet.unions ((m.withPrefix (utf8 (config.foldPrefix pre))).map Prod.snd)).toList.take limit) ∧
        (truncated = true ↔ 0 < limit ∧ maxPrefixTerms < (m.withPrefix (utf8 (config.foldPrefix pre))).length)) ∧
      ∀ pb max wantTerms, ∃ hits, ∀ waves : List (Nat × Nat) → List (List (Nat × Nat)),
        (∀ ranges, (waves ranges).flatten = ranges) →
          Settles (ix.scanPrefixBy waves pb max wantTerms) (.ok hits) := by
  obtain ⟨t, rfl⟩ := writeTermIndex_ok h
  have hlen : getLe 8 t.bytes 16 = t.router.length := t.header_fields.2.2.2.2.2.1
  rw [hlen]
  refine ⟨t.index, t.settles_open, fun pre maxTerms => ?_, fun pre limit => ?_, fun pb max wantTerms => ?_⟩
  · obtain ⟨locs, hscan, -⟩ := t.settles_scanPrefix (config.foldPrefix pre) maxTerms true
    unfold TermIndex.complete
    rw [t.foldPrefix_eq]
    exact hscan.map
  · have hsearch := t.settles_searchPrefixCapped pre limit
    generalize m.withPrefix (utf8 (config.foldPrefix pre)) = found at hsearch ⊢
    by_cases hlimit : limit = 0
    · rw [if_pos hlimit] at hsearch
      refine ⟨[], false, hsearch, fun _ => ?_, ?_⟩
      · rw [hlimit, List.take_zero]
      · exact ⟨fun h => (by cases h), fun h => absurd hlimit (Nat.ne_of_gt h.1)⟩
    · rw [if_neg hlimit] at hsearch
      refine ⟨_, _, hsearch, fun hall => ?_, ?_⟩
      · have hfew : found.length ≤ maxPrefixTerms := Nat.le_of_not_lt (of_decide_eq_false hall)
        have hall : (found.map Prod.snd).take maxPrefixTerms = found.map Prod.snd :=
          List.take_of_length_le (by rw [List.length_map]; exact hfew)
        rw [hall]
      · rw [decide_eq_true_iff]
        exact ⟨fun h => ⟨Nat.pos_of_ne_zero hlimit, h⟩, fun h => h.2⟩
  · exact ⟨_, fun waves hwaves => t.settles_scanPrefixBy pb hwaves max wantTerms⟩

end

attribute [local instance] PortableCodec.roaring asciiUnicode asciiFilters FlatRouter.fst

theorem prefixSearch_exact_twoTerms : ∃ (file : Bytes) (ix : TermIndex),
    writeTermIndexFromPostings twoTerms plainTerms = .ok file ∧
    Settles (TermIndex.open (MemoryFetch.new file)) (.ok ix) ∧
    Settles (ix.complete "A" 10) (.ok ["a"]) ∧ Settles (ix.complete "" 1) (.ok ["a"]) ∧
    ∃ docs, Settles (ix.searchPrefixCapped "" 10) (.ok (docs, false)) ∧ docs = [1, 70000] := by
  have hwrite : ∃ file, writeTermIndexFromPostings twoTerms plainTerms = .ok file ∧
      ¬ maxResidentRouter < getLe 8 file 16 := ⟨_, rfl, by decide⟩
  obtain ⟨file, hfile, hlen⟩ := hwrite
  obtain ⟨ix, hopen, hcomplete, hsearch, -⟩ := prefixSearch_exact hfile
  rw [if_neg hlen] at hopen
  obtain ⟨docs, truncated, hdocs, hall, hmore⟩ := hsearch "" 10
  have hno : truncated = false := by
    rw [← Bool.not_eq_true, hmore]
    decide
  subst hno
  exact ⟨file, ix, hfile, hopen, hcomplete "A" 10, hcomplete "" 1, docs, hdocs, hall rfl⟩

/-- So many letters. -/
def longTerm (i : Nat) : Term := ⟨String.ofList (List.replicate i 'a')⟩

theorem longTerm_lt {i j : Nat} (h : i < j) : longTerm i < longTerm j := by
  show utf8 (String.ofList (List.replicate i 'a')) < utf8 (String.ofList (List.replicate j 'a'))
  obtain ⟨k, rfl⟩ := Nat.exists_eq_add_of_le (Nat.le_of_lt h)
  refine lt_of_le_of_ne (le_of_starts ⟨utf8 (String.ofList (List.replicate k 'a')), ?_⟩) fun heq => ?_
  · rw [← utf8_append, ← String.ofList_append, List.replicate_append_replicate]
  · have hlen := congrArg List.length heq
    rw [length_utf8_replicate, length_utf8_replicate] at hlen
    omega

theorem longTerms_asc (n : Nat) :
    ((List.range n).map fun i => (longTerm i, (∅ : Bitmap))).Pairwise fun a b => a.1 < b.1 := by
  rw [List.pairwise_map]
  exact List.pairwise_lt_range.imp longTerm_lt

/-- So many terms of no docs, each one letter longer than the one before. -/
def longTerms (n : Nat) : TermMap := ⟨(List.range n).map fun i => (longTerm i, ∅), longTerms_asc n⟩

theorem longTerm_le {n : Nat} {x : Term × Bitmap} (hx : x ∈ (longTerms n).toList) : x.1.bytes.length ≤ n := by
  obtain ⟨i, hi, rfl⟩ := List.mem_map.mp hx
  show (utf8 (String.ofList (List.replicate i 'a'))).length ≤ n
  rw [length_utf8_replicate]
  exact Nat.le_of_lt (List.mem_range.mp hi)

theorem longTerm_empty {n : Nat} {x : Term × Bitmap} (hx : x ∈ (longTerms n).toList) : x.2 = ∅ := by
  obtain ⟨i, -, rfl⟩ := List.mem_map.mp hx
  rfl

theorem length_longTerms (n : Nat) : (longTerms n).toList.length = n := by
  rw [longTerms, List.length_map, List.length_range]

theorem length_termRegion_empty {bound : Nat} {posts : List (Term × Bitmap)} (h : ∀ x ∈ posts, x.2 = ∅) :
    (termRegion bound posts).length = posts.length * 20 := by
  refine length_termRegion fun x hx => ?_
  have hempty : ∀ b, (serialize (Bitmap.below (∅ : Bitmap) b)).length = 8 ∧
      (serialize (Bitmap.atLeast (∅ : Bitmap) b)).length = 8 := fun b => ⟨rfl, rfl⟩
  rw [length_termRecord, h x hx, (hempty bound).1, (hempty bound).2]

/-- One term more than the cap. -/
theorem write_longTerms : ∃ file, writeTermIndexFromPostings (longTerms 2049) plainTerms = .ok file := by
  have h24 : 2 ^ sizeBits = 16777216 := rfl
  have hterm : ∀ x ∈ (longTerms 2049).toList, x.1.bytes.length ≤ 2049 := fun x hx => longTerm_le hx
  refine exists_writeTermIndex (fun h => (by cases h)) ?_ hterm ?_ fun es hes hkey => ?_
  · rw [length_termRegion_empty fun _ => longTerm_empty, length_longTerms]
    omega
  · rw [length_longTerms]
    omega
  · have hlen := FlatRouter.length_flatMap_le hkey
    rw [length_longTerms] at hes
    have hmul : es.length * (2049 + 20) ≤ 2049 * (2049 + 20) := Nat.mul_le_mul_right _ hes
    refine ⟨es.flatMap FlatRouter.encodeEntry, if_neg ?_⟩
    omega

/-- The router of those terms. -/
theorem length_router_le {n : Nat} (t : TermFile (longTerms n) plainTerms) : t.router.length ≤ n * (n + 20) := by
  have hlen : t.groups.flatten.length = n := by
    rw [t.flatten_eq, length_termEntries, length_longTerms]
  have hterms : ∀ e ∈ t.groups.flatten, e.term.length ≤ n := by
    intro e he
    rw [t.flatten_eq] at he
    obtain ⟨x, hx, hex, -⟩ := exists_partner (@termEntries_slice _ plainTerms.headBoundary 0 _ [] rfl) he
    rw [hex]
    exact longTerm_le hx
  obtain ⟨hkeys, hlast⟩ := blocksOf_keys t.ne_nil hterms
  have hbuild := t.build_eq
  generalize hes : (blocksOf 0 t.groups).map (fun b => (b.lastTerm, packLoc b.off b.bytes.length)) = es at hbuild
  have hkey : ∀ e ∈ es, e.1.length ≤ n := hes ▸ List.forall_mem_map.mpr hlast
  have hcount : es.length ≤ n := by
    rw [← hes, List.length_map]
    exact Nat.le_trans hkeys (Nat.le_of_eq hlen)
  have hmul : es.length * (n + 20) ≤ n * (n + 20) := Nat.mul_le_mul_right _ hcount
  have hrouter : t.router = es.flatMap FlatRouter.encodeEntry := by
    change (if _ then _ else _) = _ at hbuild
    split at hbuild
    · cases hbuild
    · exact (Except.ok.inj hbuild).symm
  rw [hrouter]
  exact Nat.le_trans (FlatRouter.length_flatMap_le hkey) hmul

/-- A search for no docs reports no truncation, however many terms match. -/
theorem prefixSearch_noDocs : ∃ (file : Bytes) (ix : TermIndex),
    writeTermIndexFromPostings (longTerms 2049) plainTerms = .ok file ∧
    Settles (TermIndex.open (MemoryFetch.new file)) (.ok ix) ∧
    maxPrefixTerms < ((longTerms 2049).withPrefix (utf8 (plainTerms.foldPrefix ""))).length ∧
    Settles (ix.searchPrefixCapped "" 0) (.ok ([], false)) := by
  obtain ⟨file, hfile⟩ := write_longTerms
  obtain ⟨t, rfl⟩ := writeTermIndex_ok hfile
  have hsearch := t.settles_searchPrefixCapped "" 0
  rw [if_pos rfl] at hsearch
  have hsmall : ¬ maxResidentRouter < t.router.length := by
    have hlen := length_router_le t
    have hmax : maxResidentRouter = 536870912 := rfl
    omega
  have hopen := t.settles_open
  rw [if_neg hsmall] at hopen
  refine ⟨t.bytes, t.index, hfile, hopen, ?_, hsearch⟩
  have hall : (longTerms 2049).withPrefix (utf8 (plainTerms.foldPrefix "")) = (longTerms 2049).toList :=
    List.filter_eq_self.mpr fun _ _ => rfl
  rw [hall, length_longTerms]
  decide

end RoaringRange
