import Mathlib.Data.String.Basic
import RoaringRange.Filter
import RoaringRange.Lib.OrdMap
import RoaringRange.Ngram

/-!
# The facet sidecar reader (`facet.rs`)

The meta region of an RRSF file lists fields, their categories and where each category's head and
tail posting lie.  `openMeta` reads it; `open` also reads head postings, which `counts` intersects with
a result.  `resolve` turns selections into the posting ranges of a filter.

    the ranges of the categories a filter selects hold their docs → the filter does
                                                              (resolve_filterAt, resolveSels_filterAt)
-/

namespace RoaringRange

open ByteString Faults Slices

/-! ## Category keys -/

section

variable [Unicode]

/-- `mix` of `facet::facet_key`: one FNV-1a pass over a name. -/
def mixName (h : UInt64) (s : String) (caseFold : Bool) : UInt64 :=
  (utf8 (if caseFold then Unicode.strToLowercase s else s)).foldl (fun h b => fnvByte h b.toUInt64) h

def facetKey (field category : String) (caseFold : Bool) : Key :=
  (mixName (fnvByte (mixName fnvOffset64 field caseFold) 0x1f) category caseFold).toFin

end

/-! ## Names -/

/-- A UTF-8 continuation byte. -/
def isContinuation (b : UInt8) : Bool := 0x80 ≤ b && b ≤ 0xBF

/-- Whether `c` may follow `b`, the first of three bytes. -/
def secondOfThree (b c : UInt8) : Bool :=
  if b = 0xE0 then 0xA0 ≤ c && c ≤ 0xBF
  else if b = 0xED then 0x80 ≤ c && c ≤ 0x9F
  else isContinuation c

/-- Whether `c` may follow `b`, the first of four bytes. -/
def secondOfFour (b c : UInt8) : Bool :=
  if b = 0xF0 then 0x90 ≤ c && c ≤ 0xBF
  else if b = 0xF4 then 0x80 ≤ c && c ≤ 0x8F
  else isContinuation c

/-- The next char's bytes, or the bytes that are replaced together: whether well formed, how many. -/
def utf8Chunk : Bytes → Bool × Nat
  | [] => (false, 0)
  | b :: rest =>
    let c := rest.getD 0 0
    let d := rest.getD 1 0
    let e := rest.getD 2 0
    if b < 0x80 then (true, 1)
    else if 0xC2 ≤ b ∧ b ≤ 0xDF then if isContinuation c then (true, 2) else (false, 1)
    else if 0xE0 ≤ b ∧ b ≤ 0xEF then
      if secondOfThree b c then if isContinuation d then (true, 3) else (false, 2) else (false, 1)
    else if 0xF0 ≤ b ∧ b ≤ 0xF4 then
      if secondOfFour b c then
        if isContinuation d then if isContinuation e then (true, 4) else (false, 3) else (false, 2)
      else (false, 1)
    else (false, 1)

/-- Every ill-formed sequence replaced by U+FFFD; each pass takes a byte, so `b.length` are enough. -/
def replaceInvalid : Nat → Bytes → Bytes
  | 0, _ => []
  | fuel + 1, b =>
    if b.isEmpty then []
    else
      let (ok, n) := utf8Chunk b
      (if ok then b.take n else utf8 "\uFFFD") ++ replaceInvalid fuel (b.drop n)

def fromUtf8Lossy (b : Bytes) : String :=
  match fromUtf8 b with
  | some s => s
  | none => (fromUtf8 (replaceInvalid b.length b)).getD ""

/-! ## The meta region -/

/-- `RRSF`. -/
def rrsfMagic : Bytes := [82, 82, 83, 70]

/-- `facet::HEADER_SIZE`. -/
def rrsfHeaderSize : Nat := 24

def fieldEntry : Nat := 16

def catEntry : Nat := 36

def rrsfFlagCaseSensitive : Nat := 1

structure Category where
  name : String
  count : Nat
  range : CatRange
  head : Bitmap
  tailDir : Option (List Container)

structure Field where
  name : String
  categories : List Category

structure FilterSel where
  field : String
  category : String
  negate : Bool
  deriving DecidableEq

structure FacetIndex where
  fetch : MemoryFetch
  fields : List Field

def rrsfBootLen (header : Bytes) : Except IndexError Nat :=
  if header.length < rrsfHeaderSize then .error (.malformed "short RRSF header")
  else if slice header 0 4 ≠ rrsfMagic then .error (.badMagic (slice header 0 4))
  else if getLe 2 header 4 ≠ 1 then .error (.badVersion (getLe 2 header 4))
  else
    let len := getLe 4 header 8 * fieldEntry + rrsfHeaderSize + getLe 4 header 12 * catEntry + getLe 4 header 16
    if len < u64Bound then .ok len else .error (.malformed "RRSF meta size overflow")

/-- A display name in the string blob, which starts at `strBlob`. -/
def readFacetName (buf : Bytes) (strBlob strBytes off len : Nat) : Except IndexError String :=
  if off + len < u64Bound ∧ off + len ≤ strBytes then .ok (fromUtf8Lossy (slice buf (strBlob + off) len))
  else .error (.malformed "RRSF name out of string blob")

/-- The category at `b` of the category table. -/
def parseCategory (buf : Bytes) (strBlob strBytes b : Nat) : Except IndexError Category := do
  let headOff := getLe 8 buf (b + 8)
  let headSize := getLe 4 buf (b + 16)
  let name ← readFacetName buf strBlob strBytes (getLe 4 buf (b + 28)) (getLe 2 buf (b + 32))
  pure ⟨name, getLe 4 buf (b + 24), ⟨headOff, headSize, saturatingAdd headOff headSize, getLe 4 buf (b + 20)⟩, ∅,
    none⟩

/-- The field at `b` of the field table. -/
def parseField (buf : Bytes) (strBlob strBytes : Nat) (cats : List Category) (b : Nat) :
    Except IndexError Field := do
  let catStart := getLe 4 buf (b + 8)
  let catEnd := catStart + getLe 4 buf (b + 12)
  if cats.length < catEnd then throw (.malformed "facet field category range out of bounds")
  else
    let name ← readFacetName buf strBlob strBytes (getLe 4 buf b) (getLe 2 buf (b + 4))
    pure ⟨name, (cats.take catEnd).drop catStart⟩

def fromMeta (buf : Bytes) : Except IndexError (List Field) :=
  if buf.length < rrsfHeaderSize then .error (.malformed "RRSF meta region truncated")
  else do
    let metaLen ← rrsfBootLen (slice buf 0 rrsfHeaderSize)
    if buf.length < metaLen then throw (.malformed "RRSF meta region truncated")
    else
      let fieldsN := getLe 4 buf 8
      let catsN := getLe 4 buf 12
      let strBytes := getLe 4 buf 16
      let catTab := rrsfHeaderSize + fieldsN * fieldEntry
      let strBlob := catTab + catsN * catEntry
      let cats ← collect ((List.range catsN).map fun i => parseCategory buf strBlob strBytes (catTab + i * catEntry))
      collect ((List.range fieldsN).map fun i =>
        parseField buf strBlob strBytes cats (rrsfHeaderSize + i * fieldEntry))

namespace FacetIndex

def fromBoot (buf : Bytes) (f : MemoryFetch) : Except IndexError FacetIndex := do
  let fields ← fromMeta buf
  pure ⟨f, fields⟩

def openMeta (f : MemoryFetch) : Io FacetIndex := do
  let header ← f.read 0 rrsfHeaderSize
  let metaLen ← ofOutcome (rrsfBootLen header)
  let buf ← f.read 0 metaLen
  ofOutcome (fromBoot buf f)

/-! ## Head postings -/

def eagerRegionLimit : Nat := 24 * 1024 * 1024

def lazyTopN : Nat := 128

section

variable [Roaring]

/-- A category with its head posting, cut out of the region that starts at `blobStart`. -/
def withHead (blob : Bytes) (blobStart : Nat) (c : Category) : Except IndexError Category :=
  if c.range.headOff < blobStart then .error (.malformed "RRSF head offset precedes region")
  else
    let s := c.range.headOff - blobStart
    if blob.length < s + c.range.headSize then .error (.malformed "RRSF head posting out of region")
    else do
      let head ← deserialize (slice blob s c.range.headSize)
      pure { c with head := head }

/-- The requests of the lazy load: per field, the `topN` categories of highest count. -/
def headRequests (fields : List Field) (topN : Nat) : List ((Nat × Nat) × (Nat × Nat)) :=
  fields.zipIdx.flatMap fun f =>
    let order := sortByKey (fun c : Category × Nat => OrderDual.toDual c.1.count) f.1.categories.zipIdx
    (order.take topN).map fun c => ((f.2, c.2), c.1.range.headRange)

/-- Puts a head posting in its place. -/
def setHead (fields : List Field) (place : Nat × Nat) (head : Bitmap) : List Field :=
  fields.modify place.1 fun f => { f with categories := f.categories.modify place.2 fun c => { c with head := head } }

def loadHeadsTuned (fi : FacetIndex) (eagerLimit topN : Nat) : Io FacetIndex := do
  let first := (fi.fields.flatMap fun f => f.categories.head?.toList).head?
  let last := (fi.fields.reverse.flatMap fun f => f.categories.getLast?.toList).head?
  match first, last with
  | some first, some last =>
    let regionEnd := saturatingAdd last.range.tailOff last.range.tailSize
    let blobStart := first.range.headOff
    if regionEnd < blobStart then ofOutcome (.error (.malformed "facet postings region has end < start"))
    else if regionEnd - blobStart = 0 then pure fi
    else if regionEnd - blobStart ≤ eagerLimit then do
      let blob ← fi.fetch.read blobStart (regionEnd - blobStart)
      let fields ← ofOutcome (collect (fi.fields.map fun f => do
        let cats ← collect (f.categories.map (withHead blob blobStart))
        pure { f with categories := cats }))
      pure { fi with fields := fields }
    else do
      let reqs := headRequests fi.fields topN
      let datas ← readCoalesced fi.fetch (reqs.map Prod.snd) coalesceGap
      let heads ← ofOutcome (collect (datas.map deserialize))
      pure { fi with fields := (reqs.zip heads).foldl (fun fields x => setHead fields x.1.1 x.2) fi.fields }
  | _, _ => pure fi

end

def counts (fi : FacetIndex) (result : Bitmap) : List (List Nat) :=
  fi.fields.map fun f => f.categories.map fun c => (result ∩ c.head).len

/-! ## Selections -/

/-- The posting ranges of a named category, if the sidecar has it. -/
def catRange (fi : FacetIndex) (field category : String) : Option CatRange :=
  (fi.fields.find? fun f => f.name == field).bind fun f =>
    (f.categories.find? fun c => c.name == category).map Category.range

/-- Adds what a selection resolved to its field's arm. -/
def addArm (arms : OrdMap String (List CatRange)) (field : String) (r : Option CatRange) :
    OrdMap String (List CatRange) :=
  arms.update field fun old => old.getD [] ++ r.toList

def resolve (fi : FacetIndex) (pairs : List (String × String)) : ResolvedFilter :=
  let byField := pairs.foldl (fun arms p => addArm arms p.1 (fi.catRange p.1 p.2)) ∅
  ⟨fi.fetch, byField.values, []⟩

def resolveSels (fi : FacetIndex) (sels : List FilterSel) : ResolvedFilter :=
  let st := sels.foldl (fun (st : OrdMap String (List CatRange) × List CatRange) sel =>
    let r := fi.catRange sel.field sel.category
    if sel.negate then (st.1, st.2 ++ r.toList) else (addArm st.1 sel.field r, st.2)) (∅, [])
  ⟨fi.fetch, st.1.values, st.2⟩

end FacetIndex

def FacetIndex.open [Roaring] (f : MemoryFetch) : Io FacetIndex := do
  let fi ← FacetIndex.openMeta f
  fi.loadHeadsTuned FacetIndex.eagerRegionLimit FacetIndex.lazyTopN

/-! ## What a resolved filter lets through -/

/-- The sets of a filter whose ranges stand for `docs`. -/
def ResolvedFilter.side (rf : ResolvedFilter) (docs : CatRange → Bitmap) : FilterSets :=
  ⟨rf.fields.map fun cats => cats.map docs, rf.excludes.map docs⟩

section

variable [Roaring]

/-- A filter whose ranges are postings. -/
theorem ResolvedFilter.filterAt_side {rf : ResolvedFilter} {head tail : CatRange → Bitmap}
    (hf : ∀ cats ∈ rf.fields, ∀ c ∈ cats, PostingAt rf.fetch c.headOff c.headSize (head c) ∧
      PostingAt rf.fetch c.tailOff c.tailSize (tail c))
    (hx : ∀ c ∈ rf.excludes, PostingAt rf.fetch c.headOff c.headSize (head c) ∧
      PostingAt rf.fetch c.tailOff c.tailSize (tail c)) :
    rf.FilterAt (rf.side head) (rf.side tail) := by
  refine ⟨⟨?_, ?_⟩, ⟨?_, ?_⟩⟩
  · rw [side, List.forall₂_map_right_iff]
    refine List.forall₂_same.mpr fun cats hcats => ?_
    rw [PostingsAt, List.forall₂_map_left_iff, List.forall₂_map_right_iff]
    exact List.forall₂_same.mpr fun c hc => (hf cats hcats c hc).1
  · rw [PostingsAt, side, List.forall₂_map_left_iff, List.forall₂_map_right_iff]
    exact List.forall₂_same.mpr fun c hc => (hx c hc).1
  · rw [side, List.forall₂_map_right_iff]
    refine List.forall₂_same.mpr fun cats hcats => ?_
    rw [PostingsAt, List.forall₂_map_left_iff, List.forall₂_map_right_iff]
    exact List.forall₂_same.mpr fun c hc => (hf cats hcats c hc).2
  · rw [PostingsAt, side, List.forall₂_map_left_iff, List.forall₂_map_right_iff]
    exact List.forall₂_same.mpr fun c hc => (hx c hc).2

end

theorem inAny_map {cats : List CatRange} {docs : CatRange → Bitmap} {d : Nat} :
    inAny (cats.map docs) d = true ↔ ∃ c ∈ cats, d ∈ docs c := by
  simp [inAny]

theorem passes_side {rf : ResolvedFilter} {docs : CatRange → Bitmap} {d : Nat} :
    (rf.side docs).passes d = true ↔
      (∀ cats ∈ rf.fields, ∃ c ∈ cats, d ∈ docs c) ∧ ∀ c ∈ rf.excludes, d ∉ docs c := by
  rw [FilterSets.passes, ResolvedFilter.side, Bool.and_eq_true, List.all_eq_true, Bool.not_eq_true',
    ← Bool.not_eq_true, inAny_map]
  constructor
  · rintro ⟨h1, h2⟩
    exact ⟨fun cats hcats => inAny_map.mp (h1 _ (List.mem_map_of_mem hcats)), fun c hc hd => h2 ⟨c, hc, hd⟩⟩
  · rintro ⟨h1, h2⟩
    constructor
    · intro cats hcats
      obtain ⟨arm, harm, rfl⟩ := List.mem_map.mp hcats
      exact inAny_map.mpr (h1 arm harm)
    · rintro ⟨c, hc, hd⟩
      exact h2 c hc hd

namespace FacetIndex

variable {fi : FacetIndex}

/-- A range a selection resolves to is that of a category the sidecar has. -/
theorem catRange_mem {field category : String} {r : CatRange} (h : fi.catRange field category = some r) :
    ∃ f ∈ fi.fields, ∃ c ∈ f.categories, f.name = field ∧ c.name = category ∧ c.range = r := by
  obtain ⟨f, hf, hr⟩ := Option.bind_eq_some_iff.mp h
  obtain ⟨c, hc, rfl⟩ := Option.map_eq_some_iff.mp hr
  exact ⟨f, List.mem_of_find?_eq_some hf, c, List.mem_of_find?_eq_some hc,
    by simpa using List.find?_some hf, by simpa using List.find?_some hc, rfl⟩

/-- The arms after some selections: a field's arm has what its selections resolved to. -/
theorem find?_foldl_addArm {α : Type} {field : α → String} {resolved : α → Option CatRange} :
    ∀ (sels : List α) (arms : OrdMap String (List CatRange)) (name : String),
      (sels.foldl (fun arms p => addArm arms (field p) (resolved p)) arms).find? name =
        if name ∈ sels.map field then
          some ((arms.find? name).getD [] ++
            (sels.filter fun p => field p == name).flatMap fun p => (resolved p).toList)
        else arms.find? name
  | [], arms, name => by simp
  | p :: sels, arms, name => by
    rw [List.foldl_cons, find?_foldl_addArm sels, addArm, OrdMap.find?_update]
    by_cases hp : name = field p
    · subst hp
      simp only [if_true, List.map_cons, List.mem_cons, true_or, Option.getD_some, beq_self_eq_true,
        List.filter_cons_of_pos, List.flatMap_cons, List.append_assoc]
      split
      · rfl
      · next hnot =>
        have hnil : (sels.filter fun q => field q == field p) = [] := by
          rw [List.filter_eq_nil_iff]
          intro q hq hqp
          exact hnot (List.mem_map.mpr ⟨q, hq, by simpa using hqp⟩)
        rw [hnil, List.flatMap_nil, List.append_nil]
    · have hne : ¬ field p = name := fun h => hp h.symm
      simp only [hp, if_false, List.map_cons, List.mem_cons, false_or]
      rw [List.filter_cons_of_neg (by simpa using hne)]

/-- The arms of selections, as a list of arms: one for each selected field. -/
theorem exists_arm_iff {α : Type} {field : α → String} {resolved : α → Option CatRange} {sels : List α}
    {p : List CatRange → Prop} :
    (∀ cats ∈ (sels.foldl (fun arms s => addArm arms (field s) (resolved s)) ∅).values, p cats) ↔
      ∀ s ∈ sels, p ((sels.filter fun q => field q == field s).flatMap fun q => (resolved q).toList) := by
  have hfind := fun name => @find?_foldl_addArm α field resolved sels ∅ name
  simp only [OrdMap.find?_empty, Option.getD_none, List.nil_append] at hfind
  constructor
  · intro h s hs
    have hmem := hfind (field s)
    rw [if_pos (List.mem_map_of_mem hs)] at hmem
    exact h _ (List.mem_map.mpr ⟨_, OrdMap.find?_eq_some_iff.mp hmem, rfl⟩)
  · intro h cats hcats
    obtain ⟨e, he, rfl⟩ := List.mem_map.mp hcats
    have hmem := OrdMap.find?_eq_some_iff.mpr (show (e.1, e.2) ∈ _ from he)
    rw [hfind] at hmem
    split at hmem
    · next hname =>
      obtain ⟨s, hs, hsn⟩ := List.mem_map.mp hname
      rw [← Option.some.inj hmem, ← hsn]
      exact h s hs
    · cases hmem

theorem mem_arm_iff {α : Type} {field : α → String} {resolved : α → Option CatRange} {sels : List α}
    {name : String} {c : CatRange} :
    c ∈ (sels.filter fun q => field q == name).flatMap (fun q => (resolved q).toList) ↔
      ∃ q ∈ sels, field q = name ∧ resolved q = some c := by
  simp only [List.mem_flatMap, List.mem_filter, beq_iff_eq, Option.mem_toList, and_assoc]

/-- **What a resolved selection lets through**: per selected field, one of its selected categories. -/
theorem passes_resolve {pairs : List (String × String)} {docs : CatRange → Bitmap} {d : Nat} :
    ((fi.resolve pairs).side docs).passes d = true ↔
      ∀ p ∈ pairs, ∃ q ∈ pairs, q.1 = p.1 ∧ ∃ r, fi.catRange q.1 q.2 = some r ∧ d ∈ docs r := by
  rw [passes_side]
  simp only [resolve, List.not_mem_nil, false_implies, implies_true, and_true]
  rw [@exists_arm_iff _ Prod.fst fun p => fi.catRange p.1 p.2]
  refine forall₂_congr fun p _ => ?_
  constructor
  · rintro ⟨c, hc, hd⟩
    obtain ⟨q, hq, hqf, hr⟩ := mem_arm_iff.mp hc
    exact ⟨q, hq, hqf, c, hr, hd⟩
  · rintro ⟨q, hq, hqf, c, hr, hd⟩
    exact ⟨c, mem_arm_iff.mpr ⟨q, hq, hqf, hr⟩, hd⟩

theorem foldl_sels (fi : FacetIndex) : ∀ (sels : List FilterSel) (arms : OrdMap String (List CatRange))
    (excludes : List CatRange),
    sels.foldl (fun (st : OrdMap String (List CatRange) × List CatRange) sel =>
      let r := fi.catRange sel.field sel.category
      if sel.negate then (st.1, st.2 ++ r.toList) else (addArm st.1 sel.field r, st.2)) (arms, excludes) =
    ((sels.filter fun s => !s.negate).foldl
        (fun arms s => addArm arms s.field (fi.catRange s.field s.category)) arms,
      excludes ++ (sels.filter FilterSel.negate).flatMap fun s => (fi.catRange s.field s.category).toList)
  | [], arms, excludes => by simp
  | s :: sels, arms, excludes => by
    rw [List.foldl_cons]
    cases hn : s.negate with
    | true =>
      simp only [if_true]
      rw [foldl_sels fi sels]
      simp [hn]
    | false =>
      simp only [Bool.false_eq_true, if_false]
      rw [foldl_sels fi sels]
      simp [hn]

/-- Pairs are selections none of which excludes. -/
theorem resolve_eq_resolveSels (fi : FacetIndex) (pairs : List (String × String)) :
    fi.resolve pairs = fi.resolveSels (pairs.map fun p => ⟨p.1, p.2, false⟩) := by
  unfold resolve resolveSels
  simp only [foldl_sels]
  simp only [List.filter_map, Function.comp_def, Bool.not_false, List.filter_true, List.filter_false, List.map_nil,
    List.flatMap_nil, List.append_nil, List.foldl_map]

/-- What resolved includes and excludes let through. -/
theorem passes_resolveSels {sels : List FilterSel} {docs : CatRange → Bitmap} {d : Nat} :
    ((fi.resolveSels sels).side docs).passes d = true ↔
      (∀ s ∈ sels, s.negate = false → ∃ q ∈ sels, q.negate = false ∧ q.field = s.field ∧
        ∃ r, fi.catRange q.field q.category = some r ∧ d ∈ docs r) ∧
      ∀ s ∈ sels, s.negate = true → ∀ r, fi.catRange s.field s.category = some r → d ∉ docs r := by
  rw [passes_side]
  simp only [resolveSels, foldl_sels, List.nil_append]
  rw [@exists_arm_iff _ FilterSel.field fun s => fi.catRange s.field s.category]
  refine and_congr ?_ ?_
  · constructor
    · intro h s hs hn
      obtain ⟨c, hc, hd⟩ := h s (List.mem_filter.mpr ⟨hs, by simp [hn]⟩)
      obtain ⟨q, hq, hqf, hr⟩ := mem_arm_iff.mp hc
      obtain ⟨hq, hqn⟩ := List.mem_filter.mp hq
      exact ⟨q, hq, by simpa using hqn, hqf, c, hr, hd⟩
    · intro h s hs
      obtain ⟨hs, hn⟩ := List.mem_filter.mp hs
      obtain ⟨q, hq, hqn, hqf, c, hr, hd⟩ := h s hs (by simpa using hn)
      exact ⟨c, mem_arm_iff.mpr ⟨q, List.mem_filter.mpr ⟨hq, by simp [hqn]⟩, hqf, hr⟩, hd⟩
  · constructor
    · intro h s hs hn r hr
      refine h r (List.mem_flatMap.mpr ⟨s, List.mem_filter.mpr ⟨hs, hn⟩, ?_⟩)
      rw [hr]
      exact Option.mem_toList.mpr rfl
    · intro h r hr
      obtain ⟨s, hs, hr⟩ := List.mem_flatMap.mp hr
      obtain ⟨hs, hn⟩ := List.mem_filter.mp hs
      exact h s hs hn r (Option.mem_toList.mp hr)

/-- Every category's postings hold the docs `head` and `tail` give its range. -/
def PostedAt [Roaring] (fi : FacetIndex) (head tail : CatRange → Bitmap) : Prop :=
  ∀ f ∈ fi.fields, ∀ c ∈ f.categories,
    PostingAt fi.fetch c.range.headOff c.range.headSize (head c.range) ∧
      PostingAt fi.fetch c.range.tailOff c.range.tailSize (tail c.range)

/-- What holds of the ranges that names find holds of all ranges of a resolved selection. -/
theorem resolveSels_ranges (fi : FacetIndex) (sels : List FilterSel) {P : CatRange → Prop}
    (h : ∀ field category r, fi.catRange field category = some r → P r) :
    (∀ cats ∈ (fi.resolveSels sels).fields, ∀ c ∈ cats, P c) ∧ ∀ c ∈ (fi.resolveSels sels).excludes, P c := by
  constructor
  · simp only [resolveSels, foldl_sels]
    rw [@exists_arm_iff _ FilterSel.field fun s => fi.catRange s.field s.category]
    intro p _ c hc
    obtain ⟨q, -, -, hr⟩ := mem_arm_iff.mp hc
    exact h _ _ _ hr
  · simp only [resolveSels, foldl_sels, List.nil_append]
    intro c hc
    obtain ⟨s, -, hr⟩ := List.mem_flatMap.mp hc
    exact h _ _ _ (Option.mem_toList.mp hr)

section

variable [Roaring] {head tail : CatRange → Bitmap}

theorem PostedAt.catRange (h : fi.PostedAt head tail) {field category : String} {r : CatRange}
    (hr : fi.catRange field category = some r) : PostingAt fi.fetch r.headOff r.headSize (head r) ∧
      PostingAt fi.fetch r.tailOff r.tailSize (tail r) := by
  obtain ⟨f, hf, c, hc, -, -, rfl⟩ := catRange_mem hr
  exact h f hf c hc

theorem resolve_filterAt (h : fi.PostedAt head tail) (pairs : List (String × String)) :
    (fi.resolve pairs).FilterAt ((fi.resolve pairs).side head) ((fi.resolve pairs).side tail) := by
  refine ResolvedFilter.filterAt_side ?_ (fun c hc => absurd hc (List.not_mem_nil))
  simp only [resolve]
  rw [@exists_arm_iff _ Prod.fst fun p => fi.catRange p.1 p.2]
  intro p _ c hc
  obtain ⟨q, -, -, hr⟩ := mem_arm_iff.mp hc
  exact h.catRange hr

theorem resolveSels_filterAt (h : fi.PostedAt head tail) (sels : List FilterSel) :
    (fi.resolveSels sels).FilterAt ((fi.resolveSels sels).side head) ((fi.resolveSels sels).side tail) := by
  obtain ⟨hfields, hexcludes⟩ := fi.resolveSels_ranges sels fun _ _ _ hr => h.catRange hr
  exact ResolvedFilter.filterAt_side hfields hexcludes

end

end FacetIndex

end RoaringRange
