import RoaringRange.TermsDict
import RoaringRange.Tokenizer
import RoaringRange.Posting
import RoaringRange.Lib.OrdMap

/-!
# The RRTI term index reader (`terms.rs`)

A resident router tells for a term which dictionary block would hold it: the first one whose last term
is not before it.  A term's posting is `[tail_size][head][tail]`, split at the same doc for all terms.
A search intersects the heads, and takes the tails in only when the heads do not fill the page.

`Serves ix m bound`: the index answers lookups as the map `m` does, its postings split at `bound`.  Then

    search settles on the first `limit` docs that every term of the query has        (settles_search)
    heads that fill the page hold what the whole postings would put there            (settles_bothPaths)
-/

namespace RoaringRange

open ByteString Faults Slices

/-- `RRTI`. -/
def rrtiMagic : Bytes := [82, 82, 84, 73]

/-- `terms::HEADER_SIZE`. -/
def rrtiHeaderSize : Nat := 40

def maxResidentRouter : Nat := 512 * 2 ^ 20

/-- `terms::VERSION`. -/
def rrtiVersion : Nat := 2

/-- The `fst` crate's map from byte strings to 64-bit numbers: the entries its bytes stream in key order.
Keys inserted in ascending order are read back, and the checksum of what was written holds. -/
class Fst where
  /-- `MapBuilder`, the inserts of the entries and `into_inner`. -/
  build : List (Bytes × Nat) → Except String Bytes
  /-- `Map::new`. -/
  new : Bytes → Option (List (Bytes × Nat))
  /-- `Fst::verify`. -/
  verify : Bytes → Bool
  build_ok : ∀ (es : List (Bytes × Nat)) (b : Bytes), es.Pairwise (fun a b => a.1 < b.1) → (∀ e ∈ es, e.2 < 2 ^ 64) →
    build es = .ok b → b.length < 2 ^ 63 ∧ new b = some es ∧ verify b = true

structure HeadBlock where
  head : Bitmap
  tailOff : Nat
  tailSize : Nat

structure TermIndex where
  fetch : MemoryFetch
  router : List (Bytes × Nat)
  dictStart : Nat
  postingsOffset : Nat
  headBoundary : Nat
  termCount : Nat
  tokenizer : Tokenizer

/-! ## Opening -/

def rrtiBootLen (header : Bytes) : Except IndexError Nat :=
  if header.length < rrtiHeaderSize then .error (.malformed "short RRTI header")
  else if slice header 0 4 ≠ rrtiMagic then .error (.badMagic (slice header 0 4))
  else if getLe 2 header 4 ≠ rrtiVersion then .error (.badVersion (getLe 2 header 4))
  else if maxResidentRouter < getLe 8 header 16 then .error (.malformed "RRTI router FST length implausible")
  else .ok (rrtiHeaderSize + getLe 8 header 16)

namespace TermIndex

section

variable [Fst]

def fromParts (header routerBytes : Bytes) (f : MemoryFetch) : Except IndexError TermIndex :=
  match Fst.new routerBytes with
  | none => .error (.malformed "RRTI invalid router FST")
  | some router =>
    if Fst.verify routerBytes = false then .error (.malformed "RRTI router FST failed checksum")
    else
      let dictStart := saturatingAdd rrtiHeaderSize (getLe 8 header 16)
      .ok {
        fetch := f
        router := router
        dictStart := dictStart
        postingsOffset := saturatingAdd dictStart (getLe 8 header 24)
        headBoundary := getLe 4 header 12
        termCount := getLe 4 header 8
        tokenizer := Tokenizer.fromHeader (getLe 2 header 6) (getLe 1 header 36) }

def «open» (f : MemoryFetch) : Io TermIndex := do
  let header ← f.read 0 rrtiHeaderSize
  let bootLen ← ofOutcome (rrtiBootLen header)
  let routerBytes ← f.read rrtiHeaderSize (bootLen - rrtiHeaderSize)
  ofOutcome (fromParts header routerBytes f)

def fromBoot (boot : Bytes) (f : MemoryFetch) : Except IndexError TermIndex := do
  let bootLen ← rrtiBootLen boot
  if boot.length < bootLen then throw (.malformed "RRTI boot region truncated")
  else fromParts (slice boot 0 rrtiHeaderSize) (slice boot rrtiHeaderSize (bootLen - rrtiHeaderSize)) f

end

/-! ## Resolving terms -/

def blockRangeFor (ix : TermIndex) (term : String) : Option (Nat × Nat) :=
  (ix.router.find? fun e => utf8 term ≤ e.1).map fun e => (ix.dictStart + (unpackLoc e.2).1, (unpackLoc e.2).2)

end TermIndex

/-- The values of a loop that gives up at the first element without one, or skips it when `lenient`. -/
def gather {α β : Type} (lenient : Bool) (f : α → Option β) : List α → Option (List β)
  | [] => some []
  | x :: xs =>
    match f x with
    | some y => (gather lenient f xs).map (y :: ·)
    | none => if lenient then gather lenient f xs else none

namespace TermIndex

/-- The distinct ranges, in first-seen order. -/
def uniqueRanges (ranges : List (Nat × Nat)) : List (Nat × Nat) :=
  ranges.foldl (fun unique r => if unique.contains r then unique else unique ++ [r]) []

def resolveLocs (ix : TermIndex) (terms : List String) (lenient : Bool) : Io (Option (List (Nat × Nat))) :=
  match gather lenient (fun t => (ix.blockRangeFor t).map fun r => (t, r)) terms with
  | none => pure none
  | some present => do
    let unique := uniqueRanges (present.map Prod.snd)
    let blocks ← tryAll (unique.map fun r => ix.fetch.read r.1 r.2)
    pure (gather lenient (fun x => scanBlock (blocks.getD (unique.idxOf x.2) []) (utf8 x.1)) present)

section

variable [Roaring]

def headBlock (ix : TermIndex) (loc : Nat × Nat) : Io HeadBlock :=
  let base := ix.postingsOffset + loc.1
  let want := loc.2 + 4
  if u64Bound ≤ base then ofOutcome (.error (.malformed "RRTI head posting offset overflow"))
  else if u64Bound ≤ want then ofOutcome (.error (.malformed "RRTI head posting size overflow"))
  else do
    let block ← ix.fetch.read base want
    if block.length < want then ofOutcome (.error (.malformed "RRTI short term posting block"))
    else do
      let head ← ofOutcome (deserialize (slice block 4 loc.2))
      if u64Bound ≤ base + want then ofOutcome (.error (.malformed "RRTI tail offset overflow"))
      else pure ⟨head, base + want, getLe 4 block 0⟩

def tail (ix : TermIndex) (tailOff tailSize : Nat) : Io Bitmap :=
  if tailSize = 0 then pure ∅
  else do
    let bytes ← ix.fetch.read tailOff tailSize
    ofOutcome (deserialize bytes)

def andLocs (ix : TermIndex) (locs : List (Nat × Nat)) (limit : Nat) : Io (List Nat) :=
  if locs.isEmpty then pure []
  else do
    let blocks ← tryAll (locs.map ix.headBlock)
    let blocks := sortByKey (fun b => b.head.len) blocks
    let acc := AscSet.inters (blocks.map HeadBlock.head)
    if limit ≤ acc.len ∨ blocks.any (fun b => 0 < b.tailSize) = false then pure (acc.toList.take limit)
    else do
      let tails ← tryAll (blocks.map fun b => ix.tail b.tailOff b.tailSize)
      let fulls := List.zipWith (fun b t => b.head ∪ t) blocks tails
      pure ((AscSet.inters (AscSet.sortByLen fulls)).toList.take limit)

variable [Unicode] [TokenFilters]

/-- The terms of a query, sorted, each once. -/
def queryTerms (tk : Tokenizer) (query : String) : List String := (sortByKey utf8 (tk.tokenize query)).dedup

def search (ix : TermIndex) (query : String) (limit : Nat) : Io (List Nat) :=
  if limit = 0 then pure []
  else
    let terms := queryTerms ix.tokenizer query
    if terms.isEmpty then pure []
    else do
      match ← ix.resolveLocs terms false with
      | none => pure []
      | some locs => ix.andLocs locs limit

def queryHeadPostings (ix : TermIndex) (query : String) : Io (Option (List (Nat × HeadBlock))) :=
  let terms := queryTerms ix.tokenizer query
  if terms.isEmpty then pure none
  else do
    match ← ix.resolveLocs terms false with
    | none => pure none
    | some locs => do
      let heads ← tryAll (locs.map ix.headBlock)
      pure (some ((locs.map Prod.fst).zip heads))

def queryHeadPostingsPresent (ix : TermIndex) (query : String) : Io (List (Nat × HeadBlock)) :=
  let terms := queryTerms ix.tokenizer query
  if terms.isEmpty then pure []
  else do
    let locs ← ix.resolveLocs terms true
    let locs := locs.getD []
    let heads ← tryAll (locs.map ix.headBlock)
    pure ((locs.map Prod.fst).zip heads)

end

def dictBlockLocs (ix : TermIndex) : List (Nat × Nat) :=
  ix.router.map fun e => (ix.dictStart + (unpackLoc e.2).1, (unpackLoc e.2).2)

/-- The term of an entry and where its posting is. -/
def entryTerm (e : Bytes × Nat × Nat) : Except IndexError (String × Nat) :=
  match fromUtf8 e.1 with
  | some term => .ok (term, e.2.1)
  | none => .error (.malformed "RRTI non-UTF-8 dictionary term")

/-- The terms of a block. -/
def blockTerms (block : Bytes) : Except IndexError (List (String × Nat)) := collect ((iterBlock block).map entryTerm)

/-- The loop of `dict_terms`, one read per block. -/
def dictTermsFrom (ix : TermIndex) : List (Nat × Nat) → Io (List (String × Nat))
  | [] => pure []
  | r :: rs => do
    let block ← ix.fetch.read r.1 r.2
    let terms ← ofOutcome (blockTerms block)
    let rest ← dictTermsFrom ix rs
    pure (terms ++ rest)

def dictTerms (ix : TermIndex) : Io (List (String × Nat)) := ix.dictTermsFrom ix.dictBlockLocs

end TermIndex

/-! ## Terms in byte order -/

/-- A term, in the byte order of a dictionary. -/
structure Term where
  text : String

def Term.bytes (t : Term) : Bytes := utf8 t.text

theorem Term.bytes_injective : Function.Injective Term.bytes := by
  rintro ⟨s⟩ ⟨t⟩ h
  exact congrArg Term.mk (utf8_injective h)

instance : LinearOrder Term := LinearOrder.lift' Term.bytes Term.bytes_injective

/-- `BTreeMap<String, RoaringBitmap>`. -/
abbrev TermMap := OrdMap Term Bitmap

/-! ## Loops that may give up -/

section

variable {α β γ : Type} {lenient : Bool}

theorem gather_strict (f : α → Option β) (xs : List α) : gather false f xs = xs.mapM f := by
  induction xs with
  | nil => rfl
  | cons x xs ih =>
    rw [List.mapM_cons]
    unfold gather
    cases f x with
    | none => rfl
    | some y =>
      show (gather false f xs).map (y :: ·) = _
      rw [ih]
      cases xs.mapM f <;> rfl

theorem gather_lenient (f : α → Option β) (xs : List α) : gather true f xs = some (xs.filterMap f) := by
  induction xs with
  | nil => rfl
  | cons x xs ih =>
    unfold gather
    cases hx : f x with
    | none => rw [List.filterMap_cons_none hx]; exact ih
    | some y => rw [List.filterMap_cons_some hx, ih]; rfl

/-- One loop over what another left. -/
theorem gather_bind (f : α → Option β) (g : β → Option γ) (xs : List α) :
    (gather lenient f xs).bind (gather lenient g) = gather lenient (fun x => (f x).bind g) xs := by
  cases lenient with
  | true => simp only [gather_lenient, Option.bind_some, List.filterMap_filterMap]
  | false =>
    induction xs with
    | nil => rfl
    | cons x xs ih =>
      unfold gather
      cases f x with
      | none => rfl
      | some y =>
        simp only [Option.bind_some, ← ih]
        cases hxs : gather false f xs with
        | none => cases g y <;> rfl
        | some ys =>
          show gather false g (y :: ys) = _
          rw [gather]
          rfl

theorem gather_congr {f g : α → Option β} {xs : List α} (h : ∀ x ∈ xs, f x = g x) :
    gather lenient f xs = gather lenient g xs := by
  induction xs with
  | nil => rfl
  | cons x xs ih =>
    unfold gather
    rw [h x List.mem_cons_self, ih fun y hy => h y (List.mem_cons_of_mem _ hy)]

/-- What such a loop keeps comes from its elements. -/
theorem mem_of_gather {f : α → Option β} {xs : List α} {ys : List β} (h : gather lenient f xs = some ys) {y : β}
    (hy : y ∈ ys) : ∃ x ∈ xs, f x = some y := by
  cases lenient with
  | true =>
    rw [gather_lenient] at h
    obtain rfl := Option.some.inj h
    exact List.mem_filterMap.mp hy
  | false =>
    rw [gather_strict] at h
    obtain ⟨x, hx, hxy⟩ := exists_partner_left (mapM_some_forall₂ h) hy
    exact ⟨x, hx, hxy⟩

end

/-! ## What the file holds -/

namespace TermIndex

/-- Where the posting of a term is, or none. -/
def findLoc (ix : TermIndex) (term : String) : Option (Nat × Nat) :=
  (ix.blockRangeFor term).bind fun r => scanBlock (slice ix.fetch.bytes r.1 r.2) (utf8 term)

/-- The length of the tail of a posting. -/
def tailSizeAt (ix : TermIndex) (loc : Nat × Nat) : Nat := getLe 4 ix.fetch.bytes (ix.postingsOffset + loc.1)

section

variable [Roaring]

/-- The posting of `S`, split at the boundary, is at `loc`. -/
structure TermAt (ix : TermIndex) (loc : Nat × Nat) (S : Bitmap) : Prop where
  tail_pos : 0 < ix.tailSizeAt loc
  inFile : ix.fetch.InFile (ix.postingsOffset + loc.1) (loc.2 + 4 + ix.tailSizeAt loc)
  head : Roaring.deserialize (slice ix.fetch.bytes (ix.postingsOffset + loc.1 + 4) loc.2) =
    .ok (S.below ix.headBoundary)
  tail : Roaring.deserialize (slice ix.fetch.bytes (ix.postingsOffset + loc.1 + (loc.2 + 4)) (ix.tailSizeAt loc)) =
    .ok (S.atLeast ix.headBoundary)

/-- The index answers for every term what the map says. -/
structure Serves (ix : TermIndex) (m : TermMap) : Prop where
  block : ∀ term r, ix.blockRangeFor term = some r → ix.fetch.InFile r.1 r.2
  absent : ∀ term, m.find? ⟨term⟩ = none → ix.findLoc term = none
  present : ∀ term S, m.find? ⟨term⟩ = some S → ∃ loc, ix.findLoc term = some loc ∧ ix.TermAt loc S

end

end TermIndex

/-- The docs that all the terms have (none for no term, or when a term is absent). -/
def TermMap.strictDocs (m : TermMap) (terms : List String) : Bitmap :=
  match terms.mapM fun t => m.find? ⟨t⟩ with
  | none => ∅
  | some sets => AscSet.inters sets

namespace TermIndex

/-! ## Reads -/

theorem mem_uniqueRanges {ranges : List (Nat × Nat)} {r : Nat × Nat} : r ∈ uniqueRanges ranges ↔ r ∈ ranges := by
  have hfold : ∀ seen : List (Nat × Nat),
      r ∈ ranges.foldl (fun unique r => if unique.contains r then unique else unique ++ [r]) seen ↔
        r ∈ seen ∨ r ∈ ranges := by
    induction ranges with
    | nil => intro seen; simp
    | cons x ranges ih =>
      intro seen
      rw [List.foldl_cons, ih]
      by_cases hx : x ∈ seen
      · rw [if_pos (by simpa using hx), List.mem_cons]
        constructor
        · rintro (h | h)
          · exact Or.inl h
          · exact Or.inr (Or.inr h)
        · rintro (h | rfl | h)
          · exact Or.inl h
          · exact Or.inl hx
          · exact Or.inr h
      · rw [if_neg (by simpa using hx), List.mem_append, List.mem_singleton, List.mem_cons, or_assoc]
  unfold uniqueRanges
  rw [hfold]
  simp

section

variable [Roaring] {ix : TermIndex} {m : TermMap}

/-- **Terms are resolved to where their postings are.** -/
theorem settles_resolveLocs (hs : ix.Serves m) (terms : List String) (lenient : Bool) :
    Settles (ix.resolveLocs terms lenient) (.ok (gather lenient ix.findLoc terms)) := by
  have hsplit : gather lenient ix.findLoc terms =
      (gather lenient (fun t => (ix.blockRangeFor t).map fun r => (t, r)) terms).bind
        (gather lenient fun x => scanBlock (slice ix.fetch.bytes x.2.1 x.2.2) (utf8 x.1)) := by
    rw [gather_bind]
    refine gather_congr fun t _ => ?_
    unfold findLoc
    cases ix.blockRangeFor t with
    | none => rfl
    | some r => rfl
  unfold resolveLocs
  rw [hsplit]
  cases hp : gather lenient (fun t => (ix.blockRangeFor t).map fun r => (t, r)) terms with
  | none => exact Settles.pure _
  | some present =>
    have hrange : ∀ x ∈ present, ix.blockRangeFor x.1 = some x.2 := by
      intro x hx
      obtain ⟨t, -, ht⟩ := mem_of_gather hp hx
      obtain ⟨r, hr, rfl⟩ := Option.map_eq_some_iff.mp ht
      exact hr
    have hread : Settles (tryAll ((uniqueRanges (present.map Prod.snd)).map fun r => ix.fetch.read r.1 r.2))
        (.ok ((uniqueRanges (present.map Prod.snd)).map fun r => slice ix.fetch.bytes r.1 r.2)) := by
      refine settles_tryAll_map fun r hr => ?_
      obtain ⟨x, hx, rfl⟩ := List.mem_map.mp (mem_uniqueRanges.mp hr)
      exact MemoryFetch.settles_read (hs.block _ _ (hrange x hx))
    refine hread.bind ?_
    have hscan : gather lenient (fun x => scanBlock (((uniqueRanges (present.map Prod.snd)).map fun r =>
        slice ix.fetch.bytes r.1 r.2).getD ((uniqueRanges (present.map Prod.snd)).idxOf x.2) []) (utf8 x.1)) present =
        gather lenient (fun x => scanBlock (slice ix.fetch.bytes x.2.1 x.2.2) (utf8 x.1)) present := by
      refine gather_congr fun x hx => ?_
      have hmem : x.2 ∈ uniqueRanges (present.map Prod.snd) := mem_uniqueRanges.mpr (List.mem_map_of_mem hx)
      have hlt := List.idxOf_lt_length_of_mem hmem
      rw [List.getD_eq_getElem _ _ (by rw [List.length_map]; exact hlt), List.getElem_map, List.getElem_idxOf]
    rw [hscan]
    exact Settles.pure _

/-- The head of a posting as a read hands it over. -/
def headOf (ix : TermIndex) (loc : Nat × Nat) (S : Bitmap) : HeadBlock :=
  ⟨S.below ix.headBoundary, ix.postingsOffset + loc.1 + (loc.2 + 4), ix.tailSizeAt loc⟩

theorem settles_headBlock {loc : Nat × Nat} {S : Bitmap} (h : ix.TermAt loc S) :
    Settles (ix.headBlock loc) (.ok (ix.headOf loc S)) := by
  obtain ⟨hmiss, hlt, hle⟩ := h.inFile
  have htail := h.tail_pos
  unfold headBlock
  simp only
  rw [if_neg (by omega), if_neg (by omega)]
  refine (MemoryFetch.settles_read ⟨hmiss, by omega, by omega⟩).bind ?_
  rw [length_slice _ _ _ (by omega), if_neg (by omega), slice_slice _ _ _ _ _ (by omega)]
  have hd : deserialize (slice ix.fetch.bytes (ix.postingsOffset + loc.1 + 4) loc.2) =
      .ok (S.below ix.headBoundary) := by
    simp only [deserialize, h.head]
  rw [hd]
  refine (Settles.ofOutcome _).bind ?_
  rw [if_neg (by omega), getLe_slice _ _ _ _ _ (by omega), Nat.add_zero]
  exact Settles.pure _

theorem settles_tail {loc : Nat × Nat} {S : Bitmap} (h : ix.TermAt loc S) :
    Settles (ix.tail (ix.headOf loc S).tailOff (ix.headOf loc S).tailSize) (.ok (S.atLeast ix.headBoundary)) := by
  obtain ⟨hmiss, hlt, hle⟩ := h.inFile
  have htail := h.tail_pos
  show Settles (ix.tail (ix.postingsOffset + loc.1 + (loc.2 + 4)) (ix.tailSizeAt loc)) _
  unfold TermIndex.tail
  rw [if_neg (by omega)]
  refine (MemoryFetch.settles_read ⟨hmiss, by omega, by omega⟩).bind ?_
  have hd : deserialize (slice ix.fetch.bytes (ix.postingsOffset + loc.1 + (loc.2 + 4)) (ix.tailSizeAt loc)) =
      .ok (S.atLeast ix.headBoundary) := by
    simp only [deserialize, h.tail]
  rw [hd]
  exact Settles.ofOutcome _

/-- A wave of heads. -/
theorem settles_heads {locs : List (Nat × Nat)} {sets : List Bitmap} (h : List.Forall₂ ix.TermAt locs sets) :
    Settles (tryAll (locs.map ix.headBlock)) (.ok (List.zipWith ix.headOf locs sets)) :=
  settles_tryAll_zipWith (h.imp fun _ _ => settles_headBlock)

/-! ## Strict search -/

/-- A head read with the set its posting stands for. -/
def HeadFor (ix : TermIndex) (b : HeadBlock) (S : Bitmap) : Prop := ∃ loc, ix.TermAt loc S ∧ b = ix.headOf loc S

theorem headsFor {locs : List (Nat × Nat)} {sets : List Bitmap} (h : List.Forall₂ ix.TermAt locs sets) :
    List.Forall₂ ix.HeadFor (List.zipWith ix.headOf locs sets) sets := by
  induction h with
  | nil => exact List.Forall₂.nil
  | cons hx _ ih => exact List.Forall₂.cons ⟨_, hx, rfl⟩ ih

section

variable {blocks : List HeadBlock} {sets : List Bitmap}

theorem map_head_eq (h : List.Forall₂ ix.HeadFor blocks sets) :
    blocks.map HeadBlock.head = sets.map fun S => S.below ix.headBoundary := by
  induction h with
  | nil => rfl
  | cons hx _ ih =>
    obtain ⟨loc, -, rfl⟩ := hx
    rw [List.map_cons, List.map_cons, ih]
    rfl

theorem any_tail (h : List.Forall₂ ix.HeadFor blocks sets) (hne : sets ≠ []) :
    blocks.any (fun b => 0 < b.tailSize) = true := by
  cases h with
  | nil => exact absurd rfl hne
  | cons hx _ =>
    obtain ⟨loc, hat, rfl⟩ := hx
    rw [List.any_cons, show decide (0 < (ix.headOf loc _).tailSize) = true from decide_eq_true hat.tail_pos]
    rfl

/-- A wave of tails makes the postings whole. -/
theorem settles_tails (h : List.Forall₂ ix.HeadFor blocks sets) :
    ∃ tails, Settles (tryAll (blocks.map fun b => ix.tail b.tailOff b.tailSize)) (.ok tails) ∧
      List.zipWith (fun b t => b.head ∪ t) blocks tails = sets := by
  refine ⟨List.zipWith (fun _ S => Bitmap.atLeast S ix.headBoundary) blocks sets,
    settles_tryAll_zipWith (h.imp fun b S hb => ?_), ?_⟩
  · obtain ⟨loc, hat, rfl⟩ := hb
    exact settles_tail hat
  · induction h with
    | nil => rfl
    | @cons b S bs Ss hx _ ih =>
      obtain ⟨loc, -, rfl⟩ := hx
      rw [List.zipWith_cons_cons, List.zipWith_cons_cons, ih]
      congr 1
      exact Bitmap.below_union_atLeast S ix.headBoundary

end

omit [Roaring] in
/-- **The head shortcut is sound**: heads that fill the page hold its docs. -/
theorem take_inters_heads {sets : List Bitmap} (hne : sets ≠ []) {bound limit : Nat}
    (h : limit ≤ (AscSet.inters (sets.map fun S => Bitmap.below S bound)).len) :
    (AscSet.inters (sets.map fun S => Bitmap.below S bound)).toList.take limit =
      (AscSet.inters sets).toList.take limit := by
  rw [Bitmap.inters_below hne] at h ⊢
  exact Bitmap.take_below h

/-- The intersection of postings, from the heads alone or from all of them. -/
theorem settles_andLocs {locs : List (Nat × Nat)} {sets : List Bitmap} (h : List.Forall₂ ix.TermAt locs sets)
    (limit : Nat) : Settles (ix.andLocs locs limit) (.ok ((AscSet.inters sets).toList.take limit)) := by
  unfold andLocs
  by_cases hnil : locs = []
  · subst hnil
    rw [List.forall₂_nil_left_iff.mp h]
    show Settles (pure []) (.ok (List.take limit []))
    rw [List.take_nil]
    exact Settles.pure _
  have hne : sets ≠ [] := by
    rintro rfl
    exact hnil (List.forall₂_nil_right_iff.mp h)
  rw [if_neg (by rw [List.isEmpty_iff]; exact hnil)]
  refine (settles_heads h).bind ?_
  -- sorting the heads reorders the sets they stand for
  obtain ⟨sets', hperm, hfor⟩ := forall₂_of_perm (headsFor h)
    (sortByKey_perm (fun b => b.head.len) (List.zipWith ix.headOf locs sets))
  generalize sortByKey (fun b => b.head.len) (List.zipWith ix.headOf locs sets) = blocks at hfor
  have hne' : sets' ≠ [] := by
    rintro rfl
    exact hne (List.nil_perm.mp hperm)
  have hinters : AscSet.inters sets = AscSet.inters sets' := AscSet.inters_congr fun S => hperm.mem_iff.symm
  simp only
  rw [map_head_eq hfor, any_tail hfor hne', hinters]
  split
  · next hfull =>
    have hlen := hfull.resolve_right (by decide)
    rw [take_inters_heads hne' hlen]
    exact Settles.pure _
  · obtain ⟨tails, htails, hfull⟩ := settles_tails hfor
    refine htails.bind ?_
    rw [hfull, AscSet.inters_sortByLen]
    exact Settles.pure _

/-- The postings of resolved terms. -/
theorem Serves.mapM_findLoc (hs : ix.Serves m) (terms : List String) :
    (terms.mapM ix.findLoc = none ∧ terms.mapM (fun t => m.find? ⟨t⟩) = none) ∨
      ∃ locs sets, terms.mapM ix.findLoc = some locs ∧ terms.mapM (fun t => m.find? ⟨t⟩) = some sets ∧
        List.Forall₂ ix.TermAt locs sets := by
  induction terms with
  | nil => exact Or.inr ⟨[], [], rfl, rfl, List.Forall₂.nil⟩
  | cons t terms ih =>
    rw [List.mapM_cons, List.mapM_cons]
    cases hfind : m.find? ⟨t⟩ with
    | none =>
      rw [hs.absent t hfind]
      exact Or.inl ⟨rfl, rfl⟩
    | some S =>
      obtain ⟨loc, hloc, hat⟩ := hs.present t S hfind
      rw [hloc]
      rcases ih with ⟨h1, h2⟩ | ⟨locs, sets, h1, h2, hall⟩
      · rw [h1, h2]
        exact Or.inl ⟨rfl, rfl⟩
      · rw [h1, h2]
        exact Or.inr ⟨loc :: locs, S :: sets, rfl, rfl, List.Forall₂.cons hat hall⟩

/-- **Both paths of a page agree**: heads that fill it hold what the whole postings would put there. -/
theorem settles_bothPaths (hs : ix.Serves m) {terms : List String} {locs : List (Nat × Nat)}
    (h : Settles (ix.resolveLocs terms false) (.ok (some locs))) :
    ∃ (blocks : List HeadBlock) (tails : List Bitmap), Settles (tryAll (locs.map ix.headBlock)) (.ok blocks) ∧
      Settles (tryAll (blocks.map fun b => ix.tail b.tailOff b.tailSize)) (.ok tails) ∧
      ∀ limit ≤ (AscSet.inters (blocks.map HeadBlock.head)).len,
        (AscSet.inters (blocks.map HeadBlock.head)).toList.take limit =
          (AscSet.inters (List.zipWith (fun b t => b.head ∪ t) blocks tails)).toList.take limit := by
  have hlocs := (settles_resolveLocs hs terms false).eq_of_ok (congrArg Prod.fst h.calm)
  rw [gather_strict] at hlocs
  have hlocs := Except.ok.inj hlocs
  rcases hs.mapM_findLoc terms with ⟨h1, -⟩ | ⟨locs', sets, h1, -, hall⟩
  · rw [h1] at hlocs
    cases hlocs
  · rw [h1] at hlocs
    obtain rfl := Option.some.inj hlocs
    have hfor := headsFor hall
    obtain ⟨tails, htails, hfull⟩ := settles_tails hfor
    refine ⟨_, tails, settles_heads hall, htails, fun limit hlimit => ?_⟩
    rw [hfull]
    rw [map_head_eq hfor] at hlimit ⊢
    by_cases hne : sets = []
    · subst hne
      rfl
    · exact take_inters_heads hne hlimit

variable [Unicode] [TokenFilters]

/-- **Term search is exact**: the first `limit` docs that have every term of the query. -/
theorem settles_search (hs : ix.Serves m) (query : String) (limit : Nat) :
    Settles (ix.search query limit) (.ok ((m.strictDocs (queryTerms ix.tokenizer query)).toList.take limit)) := by
  unfold search
  by_cases hl : limit = 0
  · rw [if_pos hl, hl, List.take_zero]
    exact Settles.pure _
  rw [if_neg hl]
  generalize queryTerms ix.tokenizer query = terms
  simp only
  by_cases hnil : terms = []
  · subst hnil
    show Settles (pure []) (.ok (List.take limit []))
    rw [List.take_nil]
    exact Settles.pure _
  rw [if_neg (by rw [List.isEmpty_iff]; exact hnil)]
  refine (settles_resolveLocs hs terms false).bind ?_
  rw [gather_strict]
  unfold TermMap.strictDocs
  rcases hs.mapM_findLoc terms with ⟨h1, h2⟩ | ⟨locs, sets, h1, h2, hall⟩
  · rw [h1, h2]
    show Settles (pure []) (.ok (List.take limit []))
    rw [List.take_nil]
    exact Settles.pure _
  · rw [h1, h2]
    exact settles_andLocs hall limit

end

end TermIndex

end RoaringRange
