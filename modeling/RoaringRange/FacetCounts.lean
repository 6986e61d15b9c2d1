import RoaringRange.FacetCorpus
import RoaringRange.Paging

/-!
# Facet counts over full postings (`facet.rs`)

`counts_full` and `counts_for` price categories: how many docs of a result have each.  All categories of a
call are priced together, in three waves of coalesced reads.  The first brings head postings and the first
bytes of tail postings, the second the headers and postings those were too short for, the third the tail
containers of the buckets the result has docs in.

A category that waits for a wave is `Pending`: what it waits for is among the ranges read, and its count so far
is that of its head.  Each wave moves every category on (waveA_pending, waveB_ready, finish_ready), so

    every category's postings hold `head` and `tail`, cut at doc 65,536 →
    a category is priced at |result ∩ (head ∪ tail)|                               (counts_exact)
-/

namespace RoaringRange

open ByteString Faults Slices

/-! ## The buckets of a result -/

/-- The loop over a result's docs: the buckets past the first one, each once. -/
def tailKeysFrom (last : Option Nat) : List Nat → List Nat
  | [] => []
  | d :: ds =>
    if highKey d = 0 then tailKeysFrom last ds
    else if last ≠ some (highKey d) then highKey d :: tailKeysFrom (some (highKey d)) ds
    else tailKeysFrom last ds

def tailKeys (result : Bitmap) : List Nat := tailKeysFrom none result.toList

def headNeeded (result : Bitmap) : Bool := result.toList.any fun d => highKey d = 0

/-! ## Waves -/

/-- `PRICING_GAP`. -/
def pricingGap : Nat := 2048

/-- `INTRA_CATEGORY_GAP`. -/
def intraCategoryGap : Nat := 16 * 1024

/-- What a category's tail waits for. -/
inductive Tail where
  | done
  | refetch (wb : Nat) (whole : Bool)
  | containers (needed : List Container)

/-- A category on its way: the count so far, and its tail. -/
structure Pricing where
  count : Nat
  tail : Tail

/-- `needed_of`: the entries whose high key the result spans. -/
def neededOf (dir : List Container) (keys : List Nat) : List Container := dir.filter fun c => found keys c.key

/-- `use_resident`: a resident directory is used for a tail longer than a header read. -/
def useResident (c : Category) : Bool := c.tailDir.isSome && decide (headerPrefix < c.range.tailSize)

/-- The head posting, where head counts need one and none is resident. -/
def headRequest (headNeeded : Bool) (c : Category) : Nat × Nat :=
  if headNeeded && c.head.isEmpty && decide (0 < c.range.headSize) then c.range.headRange else (0, 0)

/-- The first bytes of the tail posting, unless its directory is resident. -/
def tailRequest (tailKeys : List Nat) (c : Category) : Nat × Nat :=
  if !tailKeys.isEmpty && decide (0 < c.range.tailSize) && !useResident c then
    (c.range.tailOff, min c.range.tailSize headerPrefix)
  else (0, 0)

/-- What the first wave reads of a category. -/
def waveARanges (headNeeded : Bool) (tailKeys : List Nat) (c : Category) : List (Nat × Nat) :=
  [headRequest headNeeded c, tailRequest tailKeys c]

section

variable [Roaring]

/-- A posting read whole. -/
def postingBitmap (bytes : Bytes) (what : String) : Except IndexError Bitmap :=
  match Roaring.deserialize bytes with
  | .ok bm => .ok bm
  | .error _ => .error (.malformed what)

/-- The head posting of a category: the resident one unless one was read. -/
def headBitmap (c : Category) (headBytes : Bytes) : Except IndexError Bitmap :=
  if headBytes.isEmpty then .ok c.head else postingBitmap headBytes "RRSF head posting"

/-- A category's tail after the first wave, and what it has the second wave read: `wb` ranges are asked for
already, and `count` docs of the result are in its head. -/
def waveATail (result : Bitmap) (tailKeys : List Nat) (wb : Nat) (c : Category) (count : Nat) (pre : Bytes) :
    Except IndexError (Pricing × List (Nat × Nat)) :=
  let tailLen := c.range.tailSize
  if useResident c then
    if !tailKeys.isEmpty && decide (0 < tailLen) then
      .ok (⟨count, .containers (neededOf (c.tailDir.getD []) tailKeys)⟩, [])
    else .ok (⟨count, .done⟩, [])
  else if pre.isEmpty then .ok (⟨count, .done⟩, [])
  else if tailLen ≤ pre.length then do
    let tail ← postingBitmap pre "RRSF tail posting"
    pure (⟨count + (result ∩ tail).len, .done⟩, [])
  else
    match neededHeaderLen pre with
    | some hl =>
      if hl ≤ pre.length then
        match parseDir pre tailLen with
        | some dir => .ok (⟨count, .containers (neededOf dir tailKeys)⟩, [])
        | none => .ok (⟨count, .refetch wb true⟩, [c.range.tailRange])
      else .ok (⟨count, .refetch wb false⟩, [(c.range.tailOff, hl)])
    | none => .ok (⟨count, .refetch wb true⟩, [c.range.tailRange])

/-- A category after the first wave. -/
def waveA (result : Bitmap) (tailKeys : List Nat) (wb : Nat) (c : Category) (headBytes pre : Bytes) :
    Except IndexError (Pricing × List (Nat × Nat)) := do
  let head ← headBitmap c headBytes
  waveATail result tailKeys wb c (result ∩ head).len pre

/-- The first wave over all categories, each with the bytes read for it. -/
def waveAAll (result : Bitmap) (tailKeys : List Nat) (wb : Nat) :
    List (Category × (Bytes × Bytes)) → Except IndexError (List Pricing × List (Nat × Nat))
  | [] => .ok ([], [])
  | x :: xs => do
    let (p, ranges) ← waveA result tailKeys wb x.1 x.2.1 x.2.2
    let (ps, rest) ← waveAAll result tailKeys (wb + ranges.length) xs
    pure (p :: ps, ranges ++ rest)

/-- A category after the second wave, which read `bodies`. -/
def waveB (f : MemoryFetch) (result : Bitmap) (tailKeys : List Nat) (bodies : List Bytes) (c : Category)
    (p : Pricing) : Io Pricing :=
  match p.tail with
  | .refetch wb whole =>
    let bytes := bodies.getD wb []
    if whole then do
      let tail ← ofOutcome (postingBitmap bytes "RRSF tail posting")
      pure ⟨p.count + (result ∩ tail).len, .done⟩
    else
      match parseDir bytes c.range.tailSize with
      | some dir => pure ⟨p.count, .containers (neededOf dir tailKeys)⟩
      | none => do
        let raw ← f.read c.range.tailOff c.range.tailSize
        let tail ← ofOutcome (postingBitmap raw "RRSF tail posting")
        pure ⟨p.count + (result ∩ tail).len, .done⟩
  | _ => pure p

def waveBAll (f : MemoryFetch) (result : Bitmap) (tailKeys : List Nat) (bodies : List Bytes) :
    List (Category × Pricing) → Io (List Pricing)
  | [] => pure []
  | x :: xs => do
    let p ← waveB f result tailKeys bodies x.1 x.2
    let ps ← waveBAll f result tailKeys bodies xs
    pure (p :: ps)

end

/-- The spans of the third wave as `(start, len)`, the category's own last span, and for each of its
containers the span and the place in it. -/
structure BodyPlan where
  spans : List (Nat × Nat)
  myLast : Option Nat
  locs : List (Nat × Nat)

/-- Places a container: only the category's own last span may grow over a gap. -/
def placeBody (off : Nat) (st : BodyPlan) (c : Container) : BodyPlan :=
  let abs := off + c.start
  let fresh : BodyPlan :=
    ⟨st.spans ++ [(abs, c.len)], some st.spans.length, st.locs ++ [(st.spans.length, 0)]⟩
  match st.myLast with
  | none => fresh
  | some li =>
    let sp := st.spans.getD li (0, 0)
    if abs ≤ sp.1 + sp.2 + intraCategoryGap then
      ⟨st.spans.set li (sp.1, max sp.2 (abs + c.len - sp.1)), some li, st.locs ++ [(li, abs - sp.1)]⟩
    else fresh

/-- The spans with those of a category's containers, and where these are. -/
def planBodies (spans : List (Nat × Nat)) (c : Category) (p : Pricing) : List (Nat × Nat) × List (Nat × Nat) :=
  match p.tail with
  | .containers needed =>
    let st := needed.foldl (placeBody c.range.tailOff) ⟨spans, none, []⟩
    (st.spans, st.locs)
  | _ => (spans, [])

def planBodiesAll (spans : List (Nat × Nat)) :
    List (Category × Pricing) → List (Nat × Nat) × List (List (Nat × Nat))
  | [] => (spans, [])
  | x :: xs =>
    let st := planBodies spans x.1 x.2
    let rest := planBodiesAll st.1 xs
    (rest.1, st.2 :: rest.2)

/-- A container with its body cut out of the span it was placed in. -/
def frameBody (bodies : List Bytes) (x : Container × (Nat × Nat)) : FramedContainer :=
  ⟨x.1.key, x.1.card, slice (bodies.getD x.2.1 []) x.2.2 x.1.len⟩

section

variable [Roaring]

/-- The count after the third wave, which read `bodies`. -/
def finishPricing (result : Bitmap) (bodies : List Bytes) (p : Pricing) (locs : List (Nat × Nat)) :
    Except IndexError Nat :=
  match p.tail with
  | .containers needed =>
    if needed.isEmpty then pure p.count
    else do
      let bm ← deserialize (assemble ((needed.zip locs).map (frameBody bodies)))
      pure (p.count + (result ∩ bm).len)
  | _ => pure p.count

namespace FacetIndex

/-- `self.fields[fi].categories[ci]`. -/
def category (fi : FacetIndex) (t : Nat × Nat) : Category :=
  (fi.fields.getD t.1 ⟨"", []⟩).categories.getD t.2 ⟨"", 0, ⟨0, 0, 0, 0⟩, ∅, none⟩

/-- `FacetIndex::count_categories_batched`. -/
def countCategoriesBatched (fi : FacetIndex) (targets : List (Nat × Nat)) (result : Bitmap) (headNeeded : Bool)
    (tailKeys : List Nat) : Io (List Nat) := do
  let cats := targets.map fi.category
  let bytesA ← readCoalesced fi.fetch (cats.flatMap (waveARanges headNeeded tailKeys)) pricingGap
  let (pricings, rangesB) ← ofOutcome (waveAAll result tailKeys 0
    (cats.zipIdx.map fun x => (x.1, (bytesA.getD (2 * x.2) [], bytesA.getD (2 * x.2 + 1) []))))
  let bytesB ← readCoalesced fi.fetch rangesB pricingGap
  let pricings ← waveBAll fi.fetch result tailKeys bytesB (cats.zip pricings)
  let (spans, locs) := planBodiesAll [] (cats.zip pricings)
  let bodies ← readCoalesced fi.fetch spans pricingGap
  ofOutcome (collect ((pricings.zip locs).map fun x => finishPricing result bodies x.1 x.2))

/-- The categories of a named pair: `None` for an unknown field or category. -/
def position (fi : FacetIndex) (pair : String × String) : Option (Nat × Nat) :=
  (fi.fields.findIdx? fun f => f.name == pair.1).bind fun i =>
    ((fi.fields.getD i ⟨"", []⟩).categories.findIdx? fun c => c.name == pair.2).map fun j => (i, j)

/-- The slot of each pair, and the targets of those that are found. -/
def slots (fi : FacetIndex) (n : Nat) : List (String × String) → List (Option Nat) × List (Nat × Nat)
  | [] => ([], [])
  | pair :: pairs =>
    match fi.position pair with
    | some t =>
      let rest := slots fi (n + 1) pairs
      (some n :: rest.1, t :: rest.2)
    | none =>
      let rest := slots fi n pairs
      (none :: rest.1, rest.2)

/-- `FacetIndex::counts_for`. -/
def countsFor (fi : FacetIndex) (result : Bitmap) (pairs : List (String × String)) : Io (List Nat) := do
  let st := slots fi 0 pairs
  let priced ← fi.countCategoriesBatched st.2 result (headNeeded result) (tailKeys result)
  pure (st.1.map fun s => (s.map fun i => priced.getD i 0).getD 0)

end FacetIndex

end

/-- `slice::select_nth_unstable_by` by descending value: the places of a list, reordered so that no place of
the first `n + 1` has a value below one of the others.  Among equals the order is not said. -/
class SelectNth where
  select : List Nat → Nat → List Nat
  perm : ∀ (values : List Nat) (n : Nat), n < values.length → (select values n).Perm (List.range values.length)
  largest : ∀ (values : List Nat) (n : Nat), n < values.length →
    ∀ i ∈ (select values n).take (n + 1), ∀ j ∈ (select values n).drop (n + 1), values.getD j 0 ≤ values.getD i 0

namespace FacetIndex

/-- The categories `counts_full` prices: per field the `topPerField` of highest count, or all. -/
def pricedTargets [SelectNth] (fi : FacetIndex) (topPerField : Nat) : List (Nat × Nat) :=
  fi.fields.zipIdx.flatMap fun f =>
    let m := f.1.categories.length
    if topPerField = 0 ∨ m ≤ topPerField then (List.range m).map fun ci => (f.2, ci)
    else ((SelectNth.select (f.1.categories.map Category.count) (topPerField - 1)).take topPerField).map
      fun ci => (f.2, ci)

/-- `counts[fi][ci] = n`. -/
def setCount (counts : List (List Nat)) (x : (Nat × Nat) × Nat) : List (List Nat) :=
  counts.modify x.1.1 fun row => row.set x.1.2 x.2

/-- `FacetIndex::counts_full`. -/
def countsFull [Roaring] [SelectNth] (fi : FacetIndex) (result : Bitmap) (topPerField : Nat) :
    Io (List (List Nat)) := do
  let targets := fi.pricedTargets topPerField
  let priced ← fi.countCategoriesBatched targets result (headNeeded result) (tailKeys result)
  pure ((targets.zip priced).foldl setCount (fi.counts result))

end FacetIndex

/-! ## What the buckets say -/

theorem tailKeysFrom_eq (last : Option Nat) (ds : List Nat) :
    tailKeysFrom last ds = highKeysFrom last (ds.filter fun d => decide (highKey d ≠ 0)) := by
  induction ds generalizing last with
  | nil => rfl
  | cons d ds ih =>
    unfold tailKeysFrom
    by_cases hd : highKey d = 0
    · rw [if_pos hd, List.filter_cons_of_neg (by simpa using hd)]
      exact ih last
    · rw [if_neg hd, List.filter_cons_of_pos (by simpa using hd), highKeysFrom, ih, ih]

/-- The tail buckets are those of the docs past the first bucket. -/
theorem tailKeys_eq (result : Bitmap) :
    tailKeys result = distinctHighKeys (result.filter fun d => decide (highKey d ≠ 0)) := by
  unfold tailKeys distinctHighKeys
  rw [tailKeysFrom_eq, AscSet.toList_filter]

theorem tailKeys_asc (result : Bitmap) : (tailKeys result).Pairwise (· < ·) := by
  rw [tailKeys_eq]
  exact distinctHighKeys_asc _

theorem highKey_mem_tailKeys {result : Bitmap} {d : Nat} (hd : d ∈ result) (hle : bucketSize ≤ d) :
    highKey d ∈ tailKeys result := by
  rw [tailKeys_eq, mem_distinctHighKeys]
  refine ⟨d, AscSet.mem_filter.mpr ⟨hd, ?_⟩, rfl⟩
  have : 0 < highKey d := Nat.div_pos hle (by decide)
  simpa using by omega

/-- Without tail buckets no doc is in a tail posting. -/
theorem inter_tail_empty {result T : Bitmap} (h : tailKeys result = []) (hT : ∀ d ∈ T, bucketSize ≤ d) :
    (result ∩ T).len = 0 := by
  rw [AscSet.len_eq_zero]
  refine AscSet.isEmpty_iff.mp (AscSet.isEmpty_iff_forall.mpr fun d hd => ?_)
  obtain ⟨hr, hd⟩ := AscSet.mem_inter.mp hd
  have := highKey_mem_tailKeys hr (hT d hd)
  rw [h] at this
  exact List.not_mem_nil this

/-- Where no doc of the first bucket is needed, none is in a head posting. -/
theorem inter_head_empty {result H : Bitmap} (h : headNeeded result = false) (hH : ∀ d ∈ H, d < bucketSize) :
    (result ∩ H).len = 0 := by
  rw [AscSet.len_eq_zero]
  refine AscSet.isEmpty_iff.mp (AscSet.isEmpty_iff_forall.mpr fun d hd => ?_)
  obtain ⟨hr, hd⟩ := AscSet.mem_inter.mp hd
  have hzero : highKey d = 0 := Nat.div_eq_of_lt (hH d hd)
  have := List.any_eq_false.mp h d (AscSet.mem_toList.mpr hr)
  simp [hzero] at this

/-- The buckets of the result are all of a tail posting that counts. -/
theorem inter_restrict {result T : Bitmap} (hT : ∀ d ∈ T, bucketSize ≤ d) :
    result ∩ T.restrict (tailKeys result) = result ∩ T := by
  refine AscSet.ext_mem fun d => ?_
  rw [AscSet.mem_inter, AscSet.mem_inter, Bitmap.mem_restrict]
  refine and_congr_right fun hr => ?_
  constructor
  · exact And.left
  · intro hd
    exact ⟨hd, highKey_mem_tailKeys hr (hT d hd)⟩

/-- A posting cut in two is counted in two. -/
theorem len_inter_union {result H T : Bitmap} (hH : ∀ d ∈ H, d < bucketSize) (hT : ∀ d ∈ T, bucketSize ≤ d) :
    (result ∩ (H ∪ T)).len = (result ∩ H).len + (result ∩ T).len := by
  have happ : (result ∩ H).toList ++ (result ∩ T).toList = (result ∩ (H ∪ T)).toList := by
    refine AscSet.toList_append (fun x hx y hy => ?_) fun d => ?_
    · exact lt_of_lt_of_le (hH x (AscSet.mem_inter.mp hx).2) (hT y (AscSet.mem_inter.mp hy).2)
    · simp only [AscSet.mem_inter, AscSet.mem_union]
      tauto
  unfold AscSet.len
  rw [← happ, List.length_append]

/-! ## A category that holds its postings -/

section

variable [Roaring]

/-- The range is a posting of `S`; a range of no bytes is one of nothing. -/
def RangeHolds (f : MemoryFetch) (off len : Nat) (S : Bitmap) : Prop :=
  if len = 0 then S = ∅ else PostingAt f off len S

/-- The category's postings are `H` and `T`, cut at doc 65,536, and what is resident of it is theirs. -/
structure Category.Holds (f : MemoryFetch) (c : Category) (H T : Bitmap) : Prop where
  headAt : RangeHolds f c.range.headOff c.range.headSize H
  tailAt : RangeHolds f c.range.tailOff c.range.tailSize T
  head_lt : ∀ d ∈ H, d < bucketSize
  le_tail : ∀ d ∈ T, bucketSize ≤ d
  head : c.head = ∅ ∨ c.head = H
  tailDir : ∀ dir, c.tailDir = some dir →
    parseDir (slice f.bytes c.range.tailOff c.range.tailSize) c.range.tailSize = some dir

/-- The category's postings are `H` and `T`, and what is resident of it is theirs; only the docs of `T` are known to
be past the first bucket. -/
structure Category.Posts (f : MemoryFetch) (c : Category) (H T : Bitmap) : Prop where
  headAt : RangeHolds f c.range.headOff c.range.headSize H
  tailAt : RangeHolds f c.range.tailOff c.range.tailSize T
  le_tail : ∀ d ∈ T, bucketSize ≤ d
  head : c.head = ∅ ∨ c.head = H
  tailDir : ∀ dir, c.tailDir = some dir →
    parseDir (slice f.bytes c.range.tailOff c.range.tailSize) c.range.tailSize = some dir

theorem Category.Holds.posts {f : MemoryFetch} {c : Category} {H T : Bitmap} (h : c.Holds f H T) : c.Posts f H T :=
  ⟨h.headAt, h.tailAt, h.le_tail, h.head, h.tailDir⟩

omit [Roaring] in
/-- What the head posting counts for: nothing where no head is resident and the result has no doc that asks for it. -/
def headCount (result : Bitmap) (c : Category) (H : Bitmap) : Nat :=
  if headNeeded result || !c.head.isEmpty then (result ∩ H).len else 0

/-- What a category with these postings is priced at. -/
def priceOf (result : Bitmap) (c : Category) (H T : Bitmap) : Nat := headCount result c H + (result ∩ T).len

/-- The directory of a tail posting. -/
def tailDirOf (T : Bitmap) : List Container := dirFrom (dataStart (containersOf T)) (containersOf T)

/-- What a category waits for is read next, and its count so far is that of what it does not wait for; `n` docs
are counted for its head. -/
def Pending (f : MemoryFetch) (result : Bitmap) (rangesB : List (Nat × Nat)) (c : Category) (n : Nat) (T : Bitmap)
    (p : Pricing) : Prop :=
  match p.tail with
  | .done => p.count = n + (result ∩ T).len
  | .refetch wb whole => p.count = n ∧ PostingAt f c.range.tailOff c.range.tailSize T ∧
      if whole then rangesB[wb]? = some c.range.tailRange
      else Seekable f c.range.tailOff c.range.tailSize ∧
        rangesB[wb]? = some (c.range.tailOff, dataStart (containersOf T))
  | .containers needed => p.count = n ∧ PostingAt f c.range.tailOff c.range.tailSize T ∧
      Seekable f c.range.tailOff c.range.tailSize ∧ needed = neededOf (tailDirOf T) (tailKeys result)

variable {f : MemoryFetch} {result : Bitmap} {c : Category} {H T : Bitmap}

theorem RangeHolds.postingAt {off len : Nat} {S : Bitmap} (h : RangeHolds f off len S) (hlen : 0 < len) :
    PostingAt f off len S := by
  unfold RangeHolds at h
  rwa [if_neg (by omega)] at h

theorem postingBitmap_eq {b : Bytes} {S : Bitmap} (h : Represents b S) (what : String) :
    postingBitmap b what = .ok S := by
  simp only [postingBitmap, h.reads]

/-- What the first wave reads can be read. -/
theorem Category.Posts.readable_waveA (h : c.Posts f H T) (hn : Bool) (keys : List Nat) :
    Readable f (waveARanges hn keys c) := by
  intro r hr hne
  unfold waveARanges headRequest tailRequest at hr
  rcases List.mem_cons.mp hr with rfl | hr
  · split at hne
    · next hc =>
      rw [if_pos hc]
      exact (h.headAt.postingAt (Nat.pos_of_ne_zero hne)).inFile
    · exact absurd rfl hne
  · obtain rfl := List.mem_singleton.mp hr
    split at hne
    · next hc =>
      rw [if_pos hc]
      simp only [Bool.and_eq_true, decide_eq_true_eq] at hc
      exact (h.tailAt.postingAt hc.1.2).inFile.mono (by simp only; omega)
    · exact absurd rfl hne

omit [Roaring] in
theorem len_inter_empty (result : Bitmap) : (result ∩ (∅ : Bitmap)).len = 0 := by
  rw [AscSet.len_eq_zero]
  exact AscSet.ext_mem fun d => by simp

/-- Where no head is resident, a head posting past no doc of the first bucket counts whole. -/
theorem Category.Holds.headCount_eq (h : c.Holds f H T) : headCount result c H = (result ∩ H).len := by
  unfold headCount
  split
  · rfl
  · next hc =>
    simp only [Bool.or_eq_true, not_or, Bool.not_eq_true] at hc
    exact (inter_head_empty hc.1 h.head_lt).symm

theorem Category.Holds.priceOf_eq (h : c.Holds f H T) : priceOf result c H T = (result ∩ (H ∪ T)).len := by
  rw [priceOf, h.headCount_eq, len_inter_union h.head_lt h.le_tail]

/-- The head of a category after the first wave. -/
theorem Category.Posts.head_counted (h : c.Posts f H T) {headBytes : Bytes}
    (hb : headBytes = slice f.bytes (headRequest (headNeeded result) c).1 (headRequest (headNeeded result) c).2) :
    ∃ head, headBitmap c headBytes = .ok head ∧ (result ∩ head).len = headCount result c H := by
  unfold headBitmap headCount
  unfold headRequest at hb
  by_cases hc : (headNeeded result && c.head.isEmpty && decide (0 < c.range.headSize)) = true
  · rw [if_pos hc] at hb
    simp only [Bool.and_eq_true, decide_eq_true_eq] at hc
    have hpost := h.headAt.postingAt hc.2
    have hlen : headBytes.length = c.range.headSize := by
      rw [hb]
      exact hpost.length_eq
    have hne : headBytes.isEmpty = false := by
      rw [List.isEmpty_eq_false_iff, ← List.length_pos_iff]
      omega
    refine ⟨H, ?_, by rw [hc.1.1, Bool.true_or, if_pos rfl]⟩
    rw [hne, if_neg (by decide), hb]
    exact postingBitmap_eq hpost.represents _
  · rw [if_neg hc] at hb
    have hnil : headBytes.isEmpty = true := by
      rw [hb, List.isEmpty_iff]
      exact slice_len_zero _ _
    refine ⟨c.head, by rw [hnil, if_pos rfl], ?_⟩
    by_cases hempty : c.head = ∅
    · -- no head is resident and none was read
      have hisEmpty : c.head.isEmpty = true := AscSet.isEmpty_iff.mpr hempty
      rw [hisEmpty] at hc ⊢
      rw [hempty, len_inter_empty]
      cases hneed : headNeeded result with
      | false => rfl
      | true =>
        have hsize : c.range.headSize = 0 := by simpa [hneed] using hc
        have hnone := h.headAt
        unfold RangeHolds at hnone
        rw [if_pos hsize] at hnone
        rw [hnone, len_inter_empty]
        rfl
    · have hisEmpty : c.head.isEmpty = false := by
        rw [← Bool.not_eq_true]
        exact fun h => hempty (AscSet.isEmpty_iff.mp h)
      rw [hisEmpty, Bool.not_false, Bool.or_true, if_pos rfl]
      rw [h.head.resolve_left hempty]

/-- A directory in hand is that of the tail posting. -/
theorem PostingAt.dir_eq {off len : Nat} (h : PostingAt f off len T) {dir : List Container}
    (hdir : parseDir (slice f.bytes off len) len = some dir) : Seekable f off len ∧ dir = tailDirOf T := by
  have hs : Seekable f off len := by
    unfold Seekable
    by_contra hne
    unfold parseDir at hdir
    rw [if_pos (Or.inr hne)] at hdir
    cases hdir
  refine ⟨hs, ?_⟩
  rw [h.parseDir_eq hs (by rw [← h.length_portable hs]; exact dataStart_le_length T) (Nat.le_refl _)] at hdir
  exact (Option.some.inj hdir).symm

/-- **The first wave** leaves a category done or waiting for what it has the second wave read. -/
theorem waveA_pending (h : c.Posts f H T) (wb : Nat) {headBytes pre : Bytes}
    (hb : headBytes = slice f.bytes (headRequest (headNeeded result) c).1 (headRequest (headNeeded result) c).2)
    (hpre : pre = slice f.bytes (tailRequest (tailKeys result) c).1 (tailRequest (tailKeys result) c).2) :
    ∃ p rs, waveA result (tailKeys result) wb c headBytes pre = .ok (p, rs) ∧ Readable f rs ∧
      ∀ before after, before.length = wb → Pending f result (before ++ (rs ++ after)) c (headCount result c H) T p := by
  obtain ⟨head, hhead, hcount⟩ := h.head_counted hb
  unfold tailRequest at hpre
  have hread : Readable f [] := fun _ hr => absurd hr List.not_mem_nil
  unfold waveA
  rw [hhead]
  simp only [bind, Except.bind, hcount]
  unfold waveATail
  by_cases hres : useResident c = true
  · -- the directory is resident
    rw [if_pos hres]
    unfold useResident at hres
    simp only [Bool.and_eq_true, decide_eq_true_eq] at hres
    obtain ⟨hsome, hbig⟩ := hres
    obtain ⟨dir, hdir⟩ := Option.isSome_iff_exists.mp hsome
    have hpost := h.tailAt.postingAt (by omega)
    obtain ⟨hs, rfl⟩ := hpost.dir_eq (h.tailDir dir hdir)
    by_cases hkeys : tailKeys result = []
    · rw [if_neg (by simp [hkeys])]
      refine ⟨_, [], rfl, hread, fun _ _ _ => ?_⟩
      show headCount result c H = _
      rw [inter_tail_empty hkeys h.le_tail, Nat.add_zero]
    · rw [if_pos (by simp only [Bool.and_eq_true, Bool.not_eq_true', List.isEmpty_eq_false_iff, decide_eq_true_eq]
                     exact ⟨hkeys, by omega⟩), hdir]
      exact ⟨_, [], rfl, hread, fun _ _ _ => ⟨rfl, hpost, hs, rfl⟩⟩
  rw [if_neg hres]
  by_cases hneed : (!(tailKeys result).isEmpty && decide (0 < c.range.tailSize) && !useResident c) = true
  · rw [if_pos hneed] at hpre
    simp only [Bool.and_eq_true, decide_eq_true_eq] at hneed
    have hpost := h.tailAt.postingAt hneed.1.2
    have hfile := hpost.inFile.2.2
    have hlen : pre.length = min c.range.tailSize headerPrefix := by
      rw [hpre]
      exact length_slice _ _ _ (by simp only; omega)
    have hprefix : 0 < headerPrefix := by decide
    rw [if_neg (by rw [List.isEmpty_iff, ← List.length_eq_zero_iff]; omega)]
    by_cases hsmall : c.range.tailSize ≤ pre.length
    · -- the whole tail came with the first bytes
      have hmin : min c.range.tailSize headerPrefix = c.range.tailSize := by omega
      rw [if_pos hsmall, hpre, hmin, postingBitmap_eq hpost.represents]
      exact ⟨_, [], rfl, hread, fun _ _ _ => rfl⟩
    · have hmin : min c.range.tailSize headerPrefix = headerPrefix := by omega
      rw [if_neg hsmall, hpre, hmin, hpost.neededHeaderLen_eq (by omega) (Or.inr (show 8 ≤ headerPrefix by decide))]
      have hbody : (slice f.bytes c.range.tailOff headerPrefix).length = headerPrefix := length_slice _ _ _ (by omega)
      have hlast : ∀ before after : List (Nat × Nat), ∀ x, before.length = wb →
          (before ++ ([x] ++ after))[wb]? = some x := by
        rintro before after x rfl
        simp
      by_cases hs : Seekable f c.range.tailOff c.range.tailSize
      · have hd : dataStart (containersOf T) ≤ c.range.tailSize := by
          rw [← hpost.length_portable hs]
          exact dataStart_le_length T
        rw [if_pos hs]
        simp only [hbody]
        by_cases hfit : dataStart (containersOf T) ≤ headerPrefix
        · rw [if_pos hfit, hpost.parseDir_eq hs hfit (by omega)]
          exact ⟨_, [], rfl, hread, fun _ _ _ => ⟨rfl, hpost, hs, rfl⟩⟩
        · rw [if_neg hfit]
          refine ⟨_, [(c.range.tailOff, dataStart (containersOf T))], rfl, ?_, fun before after hwb => ?_⟩
          · intro x hx _
            obtain rfl := List.mem_singleton.mp hx
            exact hpost.inFile.mono (by simp only; omega)
          · exact ⟨rfl, hpost, by simpa using ⟨hs, hlast before after _ hwb⟩⟩
      · rw [if_neg hs]
        refine ⟨_, [c.range.tailRange], rfl, ?_, fun before after hwb => ?_⟩
        · intro x hx _
          obtain rfl := List.mem_singleton.mp hx
          exact hpost.inFile
        · exact ⟨rfl, hpost, by simpa using hlast before after _ hwb⟩
  · -- no tail bucket is asked for, or there is no tail
    rw [if_neg hneed] at hpre
    have hnil : pre.isEmpty = true := by
      rw [hpre, List.isEmpty_iff]
      exact slice_len_zero _ _
    rw [if_pos hnil]
    refine ⟨_, [], rfl, hread, fun _ _ _ => ?_⟩
    show headCount result c H = _
    have hzero : (result ∩ T).len = 0 := by
      by_cases hkeys : tailKeys result = []
      · exact inter_tail_empty hkeys h.le_tail
      · have hsize : c.range.tailSize = 0 := by
          by_contra hne
          exact hneed (by
            have : (tailKeys result).isEmpty = false := by simpa using hkeys
            simp [this, hres, Nat.pos_of_ne_zero hne])
        have hnone := h.tailAt
        unfold RangeHolds at hnone
        rw [if_pos hsize] at hnone
        rw [hnone, AscSet.len_eq_zero]
        exact AscSet.ext_mem fun d => by simp
    rw [hzero, Nat.add_zero]

omit [Roaring] in
theorem getElem?_flatMap_pair {α β : Type} (g h : α → β) (xs : List α) (i : Nat) :
    (xs.flatMap fun x => [g x, h x])[2 * i]? = xs[i]?.map g ∧
      (xs.flatMap fun x => [g x, h x])[2 * i + 1]? = xs[i]?.map h := by
  induction xs generalizing i with
  | nil => exact ⟨rfl, rfl⟩
  | cons x xs ih =>
    cases i with
    | zero => exact ⟨rfl, rfl⟩
    | succ i =>
      obtain ⟨h1, h2⟩ := ih i
      rw [List.flatMap_cons]
      exact ⟨h1, h2⟩

omit [Roaring] in
/-- The bytes read for two ranges per category, by category. -/
theorem bytes_by_category (f : MemoryFetch) (hn : Bool) (keys : List Nat) (cats : List Category) :
    (cats.zipIdx.map fun x => (x.1,
      (((cats.flatMap (waveARanges hn keys)).map fun r => slice f.bytes r.1 r.2).getD (2 * x.2) [],
        ((cats.flatMap (waveARanges hn keys)).map fun r => slice f.bytes r.1 r.2).getD (2 * x.2 + 1) []))) =
      cats.map fun c => (c, (slice f.bytes (headRequest hn c).1 (headRequest hn c).2,
        slice f.bytes (tailRequest keys c).1 (tailRequest keys c).2)) := by
  refine List.ext_getElem (by simp) fun i h1 h2 => ?_
  have hi : i < cats.length := by simpa using h2
  obtain ⟨e1, e2⟩ := getElem?_flatMap_pair (headRequest hn) (tailRequest keys) cats i
  rw [List.getElem?_eq_getElem hi] at e1 e2
  unfold waveARanges
  simp only [List.getElem_map, List.getElem_zipIdx, Nat.zero_add, List.getD_eq_getElem?_getD, List.getElem?_map, e1,
    e2, Option.map_some, Option.getD_some]

/-- The first wave over all categories. -/
theorem waveAAll_pending {head tail : CatRange → Bitmap} {cats : List Category}
    (hcats : ∀ c ∈ cats, c.Posts f (head c.range) (tail c.range)) : ∀ wb, ∃ ps rs,
      waveAAll result (tailKeys result) wb (cats.map fun c =>
          (c, (slice f.bytes (headRequest (headNeeded result) c).1 (headRequest (headNeeded result) c).2,
            slice f.bytes (tailRequest (tailKeys result) c).1 (tailRequest (tailKeys result) c).2))) = .ok (ps, rs) ∧
        Readable f rs ∧ ∀ before after, before.length = wb →
          List.Forall₂ (fun c p => Pending f result (before ++ (rs ++ after)) c (headCount result c (head c.range))
            (tail c.range) p) cats ps := by
  induction cats with
  | nil => exact fun wb => ⟨[], [], rfl, fun _ hr => absurd hr List.not_mem_nil, fun _ _ _ => List.Forall₂.nil⟩
  | cons c cats ih =>
    intro wb
    obtain ⟨p, rs, hp, hread, hpend⟩ := waveA_pending (hcats c List.mem_cons_self) wb rfl rfl
    obtain ⟨ps, rest, hps, hreads, hpends⟩ := ih (fun x hx => hcats x (List.mem_cons_of_mem _ hx)) (wb + rs.length)
    refine ⟨p :: ps, rs ++ rest, ?_, ?_, fun before after hwb => ?_⟩
    · rw [List.map_cons, waveAAll, hp]
      simp only [bind, Except.bind, hps]
      rfl
    · intro r hr
      rcases List.mem_append.mp hr with hr | hr
      · exact hread r hr
      · exact hreads r hr
    · refine List.Forall₂.cons ?_ ?_
      · have := hpend before (rest ++ after) hwb
        rwa [List.append_assoc]
      · have := hpends (before ++ rs) after (by rw [List.length_append, hwb])
        simpa only [List.append_assoc] using this

/-- **The second wave** leaves a category done or waiting for containers. -/
theorem waveB_ready {rangesB : List (Nat × Nat)} {p : Pricing} {n : Nat} (h : Pending f result rangesB c n T p) :
    ∃ p', Settles (waveB f result (tailKeys result) (rangesB.map fun r => slice f.bytes r.1 r.2) c p) (.ok p') ∧
      Pending f result [] c n T p' := by
  obtain ⟨count, tail⟩ := p
  cases tail with
  | done => exact ⟨_, Settles.pure _, h⟩
  | containers needed => exact ⟨_, Settles.pure _, h⟩
  | refetch wb whole =>
    obtain ⟨rfl, hpost, hread⟩ := h
    have hbytes : ∀ r, rangesB[wb]? = some r →
        (rangesB.map fun r => slice f.bytes r.1 r.2).getD wb [] = slice f.bytes r.1 r.2 := by
      intro r hr
      simp [List.getD_eq_getElem?_getD, hr]
    unfold waveB
    cases whole with
    | true =>
      simp only [if_true] at hread ⊢
      have hwhole : postingBitmap (slice f.bytes c.range.tailRange.1 c.range.tailRange.2) "RRSF tail posting" = .ok T :=
        postingBitmap_eq hpost.represents _
      rw [hbytes _ hread, hwhole]
      exact ⟨_, (Settles.ofOutcome _).bind (Settles.pure _), rfl⟩
    | false =>
      simp only [Bool.false_eq_true, if_false] at hread ⊢
      obtain ⟨hs, hread⟩ := hread
      rw [hbytes _ hread, hpost.parseDir_eq hs (Nat.le_refl _)
        (by rw [← hpost.length_portable hs]; exact dataStart_le_length T)]
      exact ⟨_, Settles.pure _, rfl, hpost, hs, rfl⟩

theorem waveBAll_ready {rangesB : List (Nat × Nat)} {n : Category → Nat} {tail : CatRange → Bitmap} {cats : List Category}
    {ps : List Pricing}
    (h : List.Forall₂ (fun c p => Pending f result rangesB c (n c) (tail c.range) p) cats ps) :
    ∃ ps', Settles (waveBAll f result (tailKeys result) (rangesB.map fun r => slice f.bytes r.1 r.2) (cats.zip ps))
        (.ok ps') ∧
      List.Forall₂ (fun c p => Pending f result [] c (n c) (tail c.range) p) cats ps' := by
  induction h with
  | nil => exact ⟨[], Settles.pure _, List.Forall₂.nil⟩
  | cons hp _ ih =>
    obtain ⟨p', hp', hready⟩ := waveB_ready hp
    obtain ⟨ps', hps', hreadys⟩ := ih
    exact ⟨p' :: ps', hp'.bind (hps'.bind (Settles.pure _)), List.Forall₂.cons hready hreadys⟩

end

/-! ## The third wave -/

/-- Every span of the list is still there, at its start and no shorter. -/
def Grown (spans spans' : List (Nat × Nat)) : Prop :=
  ∀ (n : Nat) (sp : Nat × Nat), spans[n]? = some sp → ∃ sp', spans'[n]? = some sp' ∧ sp'.1 = sp.1 ∧ sp.2 ≤ sp'.2

theorem Grown.refl (spans : List (Nat × Nat)) : Grown spans spans := fun _ sp h => ⟨sp, h, rfl, Nat.le_refl _⟩

theorem Grown.trans {a b c : List (Nat × Nat)} (h : Grown a b) (h' : Grown b c) : Grown a c := by
  intro n sp hsp
  obtain ⟨sp', hsp', hstart, hlen⟩ := h n sp hsp
  obtain ⟨sp'', hsp'', hstart', hlen'⟩ := h' n sp' hsp'
  exact ⟨sp'', hsp'', by omega, by omega⟩

/-- The place of a container of the posting at `off`: which span, and where in it. -/
def Placed (spans : List (Nat × Nat)) (off : Nat) (c : Container) (loc : Nat × Nat) : Prop :=
  ∃ sp, spans[loc.1]? = some sp ∧ sp.1 + loc.2 = off + c.start ∧ loc.2 + c.len ≤ sp.2

theorem Placed.grown {spans spans' : List (Nat × Nat)} {off : Nat} {c : Container} {loc : Nat × Nat}
    (h : Placed spans off c loc) (hg : Grown spans spans') : Placed spans' off c loc := by
  obtain ⟨sp, hsp, hstart, hend⟩ := h
  obtain ⟨sp', hsp', hstart', hlen⟩ := hg _ sp hsp
  exact ⟨sp', hsp', by omega, by omega⟩

/-- The plan after some containers of the posting `(off, total)`, the next not before `pos`. -/
structure BodyPlan.Good (f : MemoryFetch) (off total pos : Nat) (spans : List (Nat × Nat)) (placed : List Container)
    (st : BodyPlan) : Prop where
  inFile : ∀ sp ∈ st.spans, f.InFile sp.1 sp.2
  last : ∀ li, st.myLast = some li → ∃ sp, st.spans[li]? = some sp ∧ sp.1 ≤ off + pos ∧ sp.1 + sp.2 ≤ off + total
  locs : List.Forall₂ (Placed st.spans off) placed st.locs
  grown : Grown spans st.spans

theorem Grown.append (spans : List (Nat × Nat)) (sp : Nat × Nat) : Grown spans (spans ++ [sp]) := by
  intro n x hx
  refine ⟨x, ?_, rfl, Nat.le_refl _⟩
  rw [List.getElem?_append_left (List.getElem?_eq_some_iff.mp hx).1, hx]

theorem Grown.set {spans : List (Nat × Nat)} {li : Nat} {sp : Nat × Nat} (h : spans[li]? = some sp) {len : Nat}
    (hlen : sp.2 ≤ len) : Grown spans (spans.set li (sp.1, len)) := by
  intro n x hx
  by_cases hn : n = li
  · subst hn
    obtain rfl : sp = x := by rw [h] at hx; exact Option.some.inj hx
    refine ⟨(sp.1, len), ?_, rfl, hlen⟩
    rw [List.getElem?_set_self (List.getElem?_eq_some_iff.mp h).1]
  · exact ⟨x, by rw [List.getElem?_set_ne (Ne.symm hn), hx], rfl, Nat.le_refl _⟩

theorem placeBody_good {f : MemoryFetch} {off total pos : Nat} {spans : List (Nat × Nat)} {placed : List Container}
    {st : BodyPlan} (hg : st.Good f off total pos spans placed) (hin : f.InFile off total) {c : Container}
    (hpos : pos ≤ c.start) (hend : c.start + c.len ≤ total) :
    (placeBody off st c).Good f off total (c.start + c.len) spans (placed ++ [c]) := by
  have hfresh : (BodyPlan.mk (st.spans ++ [(off + c.start, c.len)]) (some st.spans.length)
      (st.locs ++ [(st.spans.length, 0)])).Good f off total (c.start + c.len) spans (placed ++ [c]) := by
    refine ⟨fun sp hsp => ?_, fun li hli => ?_, ?_, hg.grown.trans (Grown.append _ _)⟩
    · rcases List.mem_append.mp hsp with hsp | hsp
      · exact hg.inFile sp hsp
      · obtain rfl := List.mem_singleton.mp hsp
        exact hin.mono (by simp only; omega)
    · obtain rfl := Option.some.inj hli
      exact ⟨(off + c.start, c.len), by simp, by simp only; omega, by simp only; omega⟩
    · refine List.rel_append (hg.locs.imp fun _ _ h => h.grown (Grown.append _ _)) (List.Forall₂.cons ?_ .nil)
      exact ⟨(off + c.start, c.len), by simp, rfl, by simp only; omega⟩
  unfold placeBody
  cases hlast : st.myLast with
  | none => exact hfresh
  | some li =>
    obtain ⟨sp, hsp, hstart, hfit⟩ := hg.last li hlast
    have hget : st.spans.getD li (0, 0) = sp := by simp [List.getD_eq_getElem?_getD, hsp]
    simp only [hget]
    split
    · -- the last span grows over the container
      obtain ⟨hm, h64, hlen⟩ := hg.inFile sp (List.mem_of_getElem? hsp)
      obtain ⟨-, h64', hlen'⟩ := hin
      have hgrown : Grown st.spans (st.spans.set li (sp.1, max sp.2 (off + c.start + c.len - sp.1))) :=
        Grown.set hsp (Nat.le_max_left _ _)
      have hself : (st.spans.set li (sp.1, max sp.2 (off + c.start + c.len - sp.1)))[li]? =
          some (sp.1, max sp.2 (off + c.start + c.len - sp.1)) :=
        List.getElem?_set_self (List.getElem?_eq_some_iff.mp hsp).1
      refine ⟨fun x hx => ?_, fun i hi => ?_, ?_, hg.grown.trans hgrown⟩
      · rcases List.mem_or_eq_of_mem_set hx with hx | rfl
        · exact hg.inFile x hx
        · exact ⟨hm, by simp only; omega, by simp only; omega⟩
      · obtain rfl := Option.some.inj hi
        exact ⟨_, hself, by simp only; omega, by simp only; omega⟩
      · refine List.rel_append (hg.locs.imp fun _ _ h => h.grown hgrown) (List.Forall₂.cons ?_ .nil)
        exact ⟨_, hself, by simp only; omega, by simp only; omega⟩
    · exact hfresh

theorem foldl_placeBody_good {f : MemoryFetch} {off total : Nat} {spans : List (Nat × Nat)} {needed : List Container} :
    ∀ {placed : List Container} {pos : Nat} {st : BodyPlan}, st.Good f off total pos spans placed →
      f.InFile off total → Tiled pos needed → (∀ c ∈ needed, c.start + c.len ≤ total) →
      ∃ pos', (needed.foldl (placeBody off) st).Good f off total pos' spans (placed ++ needed) := by
  induction needed with
  | nil =>
    intro placed pos st hg _ _ _
    exact ⟨pos, by simpa using hg⟩
  | cons c cs ih =>
    intro placed pos st hg hin ht hend
    have hstep := placeBody_good hg hin ht.1 (hend c List.mem_cons_self)
    obtain ⟨pos', hgood⟩ := ih hstep hin ht.2 fun d hd => hend d (List.mem_cons_of_mem _ hd)
    exact ⟨pos', by simpa using hgood⟩

section

variable [Roaring] {f : MemoryFetch} {result : Bitmap}

omit [Roaring] in
/-- Cutting placed containers out of the spans gives the containers they locate. -/
theorem frameBody_eq {off total : Nat} {spans : List (Nat × Nat)} {needed : List Container}
    {sel : List FramedContainer} {locs : List (Nat × Nat)} (hl : List.Forall₂ (Locates (slice f.bytes off total)) needed sel)
    (hp : List.Forall₂ (Placed spans off) needed locs) (hend : ∀ c ∈ needed, c.start + c.len ≤ total) :
    (needed.zip locs).map (frameBody (spans.map fun sp => slice f.bytes sp.1 sp.2)) = sel := by
  induction hl generalizing locs with
  | nil => rfl
  | @cons c e needed sel hc _ ih =>
    cases hp with
    | @cons _ loc _ locs hloc hlocs =>
      obtain ⟨hkey, hcard, hlen, hslice, -⟩ := hc
      obtain ⟨sp, hsp, hstart, hfit⟩ := hloc
      rw [List.zip_cons_cons, List.map_cons, ih hlocs fun c hc => hend c (List.mem_cons_of_mem _ hc)]
      refine congrArg (· :: sel) ?_
      have hdata : (spans.map fun sp => slice f.bytes sp.1 sp.2).getD loc.1 [] = slice f.bytes sp.1 sp.2 := by
        simp [List.getD_eq_getElem?_getD, hsp]
      have hbody : slice f.bytes (off + c.start) c.len = e.body := by
        rw [← hslice, slice_slice _ _ _ _ _ (hend c List.mem_cons_self)]
      unfold frameBody
      rw [hdata, slice_slice _ _ _ _ _ hfit, hstart, hbody, hkey, hcard]

/-- **The third wave** gives every category its count, also when other categories' spans are read too. -/
theorem finish_ready {c : Category} {n : Nat} {T : Bitmap} (hT : ∀ d ∈ T, bucketSize ≤ d) {p : Pricing}
    (h : Pending f result [] c n T p) {spans : List (Nat × Nat)} (hin : ∀ sp ∈ spans, f.InFile sp.1 sp.2) :
    (∀ sp ∈ (planBodies spans c p).1, f.InFile sp.1 sp.2) ∧ Grown spans (planBodies spans c p).1 ∧
      ∀ all, Grown (planBodies spans c p).1 all →
        finishPricing result (all.map fun sp => slice f.bytes sp.1 sp.2) p (planBodies spans c p).2 =
          .ok (n + (result ∩ T).len) := by
  obtain ⟨count, tail⟩ := p
  cases tail with
  | done => exact ⟨hin, Grown.refl _, fun all _ => congrArg Except.ok h⟩
  | refetch wb whole =>
    obtain ⟨-, -, hread⟩ := h
    cases whole with
    | true => simp at hread
    | false => simp at hread
  | containers needed =>
    obtain ⟨rfl, hpost, hs, rfl⟩ := h
    have hq : ∀ k, found (tailKeys result) k = decide (k ∈ tailKeys result) := fun k => by
      rw [Bool.eq_iff_iff, found_iff (tailKeys_asc result), decide_eq_true_eq]
    have hloc := locates_filter (fun k => decide (k ∈ tailKeys result)) (locates_dirFrom (containersOf T))
    have hdes := deserialize_assemble_filter T (tailKeys result)
    have hneed : neededOf (tailDirOf T) (tailKeys result) =
        (dirFrom (dataStart (containersOf T)) (containersOf T)).filter fun e => decide (e.key ∈ tailKeys result) := by
      unfold neededOf tailDirOf
      simp only [hq]
    have hbytes : slice f.bytes c.range.tailOff c.range.tailSize = assemble (containersOf T) := hpost.portable_eq hs
    have htotal : (assemble (containersOf T)).length = c.range.tailSize := hpost.length_portable hs
    rw [← hneed, ← hbytes] at hloc
    have hend : ∀ e ∈ neededOf (tailDirOf T) (tailKeys result), e.start + e.len ≤ c.range.tailSize := by
      intro e he
      obtain ⟨i, hi, rfl⟩ := List.getElem_of_mem he
      have := (List.forall₂_iff_get.mp hloc |>.2 i hi (by rw [← hloc.length_eq]; exact hi)).2.2.2.2
      rwa [hbytes, htotal] at this
    have htiled : Tiled 0 (neededOf (tailDirOf T) (tailKeys result)) := by
      rw [hneed]
      exact (Tiled.filter (tiled_dirFrom _ _)).of_le (Nat.zero_le _)
    obtain ⟨pos', hgood⟩ := @foldl_placeBody_good f c.range.tailOff c.range.tailSize spans
      (neededOf (tailDirOf T) (tailKeys result)) [] 0 ⟨spans, none, []⟩
      ⟨hin, fun _ hli => absurd hli (by simp), List.Forall₂.nil, Grown.refl _⟩ hpost.inFile htiled hend
    rw [List.nil_append] at hgood
    refine ⟨hgood.inFile, hgood.grown, fun all hall => ?_⟩
    have hframe := frameBody_eq hloc (hgood.locs.imp fun _ _ h => h.grown hall) hend
    have hcount : (result ∩ T.restrict (tailKeys result)).len = (result ∩ T).len := by rw [inter_restrict hT]
    unfold finishPricing planBodies
    simp only
    split
    · next hnil =>
      -- no bucket of the result is in the posting
      have hsel := hloc
      rw [List.isEmpty_iff.mp hnil] at hsel
      rw [List.forall₂_nil_left_iff.mp hsel] at hdes
      have hempty : Roaring.deserialize (assemble []) = .ok (∅ : Bitmap) := Roaring.deserialize_portable ∅
      rw [hempty] at hdes
      rw [← hcount, ← Except.ok.inj hdes]
      have hzero : (result ∩ (∅ : Bitmap)).len = 0 := by
        rw [AscSet.len_eq_zero]
        exact AscSet.ext_mem fun d => by simp
      rw [hzero, Nat.add_zero]
      rfl
    · rw [hframe, deserialize, hdes]
      show Except.ok (_ + (result ∩ T.restrict (tailKeys result)).len) = _
      rw [hcount]

theorem finishAll_ready {n : Category → Nat} {tail : CatRange → Bitmap} {cats : List Category} {ps : List Pricing}
    (hT : ∀ c ∈ cats, ∀ d ∈ tail c.range, bucketSize ≤ d)
    (h : List.Forall₂ (fun c p => Pending f result [] c (n c) (tail c.range) p) cats ps) :
    ∀ spans, (∀ sp ∈ spans, f.InFile sp.1 sp.2) →
      (∀ sp ∈ (planBodiesAll spans (cats.zip ps)).1, f.InFile sp.1 sp.2) ∧
        Grown spans (planBodiesAll spans (cats.zip ps)).1 ∧
        ∀ all, Grown (planBodiesAll spans (cats.zip ps)).1 all →
          (ps.zip (planBodiesAll spans (cats.zip ps)).2).map
              (fun x => finishPricing result (all.map fun sp => slice f.bytes sp.1 sp.2) x.1 x.2) =
            cats.map fun c => .ok (n c + (result ∩ tail c.range).len) := by
  induction h with
  | nil => exact fun spans hin => ⟨hin, Grown.refl _, fun _ _ => rfl⟩
  | @cons c p cats ps hp _ ih =>
    intro spans hin
    obtain ⟨hin', hgrown, hfinish⟩ := finish_ready (hT c List.mem_cons_self) hp hin
    obtain ⟨hin'', hgrown', hfinish'⟩ := ih (fun x hx => hT x (List.mem_cons_of_mem _ hx)) _ hin'
    rw [List.zip_cons_cons, planBodiesAll]
    refine ⟨hin'', hgrown.trans hgrown', fun all hall => ?_⟩
    rw [List.zip_cons_cons, List.map_cons, List.map_cons, hfinish all (hgrown'.trans hall), hfinish' all hall]

namespace FacetIndex

variable {fi : FacetIndex} {head tail : CatRange → Bitmap}

/-- All the categories of a call are priced, each by its own postings. -/
theorem settles_prices {targets : List (Nat × Nat)}
    (h : ∀ t ∈ targets, (fi.category t).Posts fi.fetch (head (fi.category t).range) (tail (fi.category t).range)) :
    Settles (fi.countCategoriesBatched targets result (headNeeded result) (tailKeys result))
      (.ok (targets.map fun t => priceOf result (fi.category t) (head (fi.category t).range)
        (tail (fi.category t).range))) := by
  have hcats : ∀ c ∈ targets.map fi.category, c.Posts fi.fetch (head c.range) (tail c.range) := by
    intro c hc
    obtain ⟨t, ht, rfl⟩ := List.mem_map.mp hc
    exact h t ht
  have hreadA : Readable fi.fetch
      ((targets.map fi.category).flatMap (waveARanges (headNeeded result) (tailKeys result))) := by
    intro r hr
    obtain ⟨c, hc, hr⟩ := List.mem_flatMap.mp hr
    exact (hcats c hc).readable_waveA _ _ r hr
  obtain ⟨ps, rs, hA, hreadB, hpend⟩ := waveAAll_pending hcats 0
  obtain ⟨ps', hB, hready⟩ := waveBAll_ready (hpend [] [] rfl)
  rw [List.nil_append, List.append_nil] at hB
  obtain ⟨hin, -, hfinish⟩ := finishAll_ready (fun c hc => (hcats c hc).le_tail) hready []
    fun sp hsp => absurd hsp List.not_mem_nil
  unfold countCategoriesBatched
  refine (settles_readCoalesced hreadA).bind ?_
  rw [bytes_by_category, hA]
  refine (Settles.ofOutcome _).bind ((settles_readCoalesced hreadB).bind (hB.bind ?_))
  refine (settles_readCoalesced fun sp hsp _ => hin sp hsp).bind ?_
  have hall := hfinish _ (Grown.refl _)
  have hok : ((targets.map fi.category).map fun c => (Except.ok (headCount result c (head c.range) +
      (result ∩ tail c.range).len) : Except IndexError Nat)) = (targets.map fun t =>
        priceOf result (fi.category t) (head (fi.category t).range) (tail (fi.category t).range)).map Except.ok := by
    rw [List.map_map, List.map_map]
    rfl
  rw [hall, hok, collect_ok]
  exact Settles.ofOutcome _

/-- **Categories cut at doc 65,536 are priced** at the docs of the result in their postings. -/
theorem settles_countCategoriesBatched {targets : List (Nat × Nat)}
    (h : ∀ t ∈ targets, (fi.category t).Holds fi.fetch (head (fi.category t).range) (tail (fi.category t).range)) :
    Settles (fi.countCategoriesBatched targets result (headNeeded result) (tailKeys result))
      (.ok (targets.map fun t => (result ∩ (head (fi.category t).range ∪ tail (fi.category t).range)).len)) := by
  have hprices : Settles (fi.countCategoriesBatched targets result (headNeeded result) (tailKeys result)) _ :=
    settles_prices fun t ht => (h t ht).posts
  rwa [List.map_congr_left fun t ht => (h t ht).priceOf_eq] at hprices

/-! ## The counts of a call -/

/-- Every category's postings are `head` and `tail` of its range, cut at doc 65,536. -/
def CountsHold (fi : FacetIndex) (head tail : CatRange → Bitmap) : Prop :=
  ∀ f ∈ fi.fields, ∀ c ∈ f.categories, c.Holds fi.fetch (head c.range) (tail c.range)

/-- The place of a category there is. -/
def Present (fi : FacetIndex) (t : Nat × Nat) : Prop := ∃ f, fi.fields[t.1]? = some f ∧ t.2 < f.categories.length

omit [Roaring] in
theorem Present.category_mem {t : Nat × Nat} (h : fi.Present t) : ∃ f ∈ fi.fields, fi.category t ∈ f.categories := by
  obtain ⟨f, hf, ht⟩ := h
  refine ⟨f, List.mem_of_getElem? hf, ?_⟩
  have hfield : fi.fields.getD t.1 ⟨"", []⟩ = f := by simp [List.getD_eq_getElem?_getD, hf]
  unfold category
  rw [hfield, List.getD_eq_getElem _ _ ht]
  exact List.getElem_mem ht

/-- Every category's postings are `head` and `tail` of its range. -/
def PostsHold (fi : FacetIndex) (head tail : CatRange → Bitmap) : Prop :=
  ∀ f ∈ fi.fields, ∀ c ∈ f.categories, c.Posts fi.fetch (head c.range) (tail c.range)

theorem CountsHold.posts (h : fi.CountsHold head tail) : fi.PostsHold head tail := fun f hf c hc => (h f hf c hc).posts

theorem PostsHold.category (h : fi.PostsHold head tail) {t : Nat × Nat} (ht : fi.Present t) :
    (fi.category t).Posts fi.fetch (head (fi.category t).range) (tail (fi.category t).range) := by
  obtain ⟨f, hf, hc⟩ := ht.category_mem
  exact h f hf _ hc

omit [Roaring] in
/-- The price of the category at a place. -/
def priceAt (fi : FacetIndex) (head tail : CatRange → Bitmap) (result : Bitmap) (t : Nat × Nat) : Nat :=
  priceOf result (fi.category t) (head (fi.category t).range) (tail (fi.category t).range)

theorem CountsHold.priceAt_eq (h : fi.CountsHold head tail) (result : Bitmap) {t : Nat × Nat} (ht : fi.Present t) :
    fi.priceAt head tail result t =
      (result ∩ (head (fi.category t).range ∪ tail (fi.category t).range)).len := by
  obtain ⟨f, hf, hc⟩ := ht.category_mem
  exact (h f hf _ hc).priceOf_eq

omit [Roaring] in
/-- The first field and category with the names of a pair. -/
def named (fi : FacetIndex) (pair : String × String) : Option (Field × Category) :=
  (fi.fields.find? fun f => f.name = pair.1).bind fun f =>
    (f.categories.find? fun c => c.name = pair.2).map fun c => (f, c)

omit [Roaring] in
theorem catRange_named (pair : String × String) :
    fi.catRange pair.1 pair.2 = (fi.named pair).map fun x => x.2.range := by
  have hbeq : ∀ a b : String, (a == b) = decide (a = b) := fun _ _ => rfl
  unfold catRange named
  simp only [hbeq]
  cases fi.fields.find? fun f => decide (f.name = pair.1) with
  | none => rfl
  | some f =>
    simp only [Option.bind_some, Option.map_map]
    rfl

omit [Roaring] in
/-- A pair is found where its names are first met. -/
theorem position_spec (pair : String × String) :
    (fi.position pair = none ∧ fi.named pair = none) ∨
      ∃ t f, fi.position pair = some t ∧ fi.fields[t.1]? = some f ∧ t.2 < f.categories.length ∧
        fi.named pair = some (f, fi.category t) := by
  have hbeq : ∀ a b : String, (a == b) = decide (a = b) := fun _ _ => rfl
  unfold position named
  simp only [hbeq]
  cases hf : fi.fields.findIdx? fun f => decide (f.name = pair.1) with
  | none =>
    have hnone : (fi.fields.find? fun f => decide (f.name = pair.1)) = none := by
      rw [List.find?_eq_none]
      intro f hmem
      simpa using List.findIdx?_eq_none_iff.mp hf f hmem
    rw [hnone]
    exact Or.inl ⟨rfl, rfl⟩
  | some i =>
    obtain ⟨hi, hname, hbefore⟩ := List.findIdx?_eq_some_iff_getElem.mp hf
    have hfind : (fi.fields.find? fun f => decide (f.name = pair.1)) = some fi.fields[i] :=
      List.find?_eq_some_iff_getElem.mpr ⟨hname, i, hi, rfl, fun j hj => by simpa using hbefore j hj⟩
    have hget : fi.fields.getD i ⟨"", []⟩ = fi.fields[i] := List.getD_eq_getElem _ _ hi
    simp only [hfind, Option.bind_some, hget]
    cases hc : fi.fields[i].categories.findIdx? fun c => decide (c.name = pair.2) with
    | none =>
      have hnone : (fi.fields[i].categories.find? fun c => decide (c.name = pair.2)) = none := by
        rw [List.find?_eq_none]
        intro c hmem
        simpa using List.findIdx?_eq_none_iff.mp hc c hmem
      rw [hnone]
      exact Or.inl ⟨rfl, rfl⟩
    | some j =>
      obtain ⟨hj, hname', hbefore'⟩ := List.findIdx?_eq_some_iff_getElem.mp hc
      have hfind' : (fi.fields[i].categories.find? fun c => decide (c.name = pair.2)) = some fi.fields[i].categories[j] :=
        List.find?_eq_some_iff_getElem.mpr ⟨hname', j, hj, rfl, fun k hk => by simpa using hbefore' k hk⟩
      refine Or.inr ⟨(i, j), fi.fields[i], rfl, List.getElem?_eq_getElem hi, hj, ?_⟩
      unfold FacetIndex.category
      rw [hfind', hget, List.getD_eq_getElem _ _ hj]
      rfl

omit [Roaring] in
theorem slots_present (pairs : List (String × String)) (n : Nat) : ∀ t ∈ (slots fi n pairs).2, fi.Present t := by
  induction pairs generalizing n with
  | nil => exact fun t ht => absurd ht List.not_mem_nil
  | cons pair pairs ih =>
    unfold slots
    rcases @position_spec fi pair with ⟨hnone, -⟩ | ⟨t, f, hsome, hf, hlt, -⟩
    · rw [hnone]
      exact ih n
    · rw [hsome]
      intro u hu
      rcases List.mem_cons.mp hu with rfl | hu
      · exact ⟨f, hf, hlt⟩
      · exact ih (n + 1) u hu

omit [Roaring] in
/-- Each pair's slot has the price of its category. -/
theorem slots_priced (price : Nat × Nat → Nat) (pairs : List (String × String)) :
    ∀ (n : Nat) (pre : List Nat), pre.length = n →
      ((slots fi n pairs).1.map fun s => (s.map fun i => (pre ++ (slots fi n pairs).2.map price).getD i 0).getD 0) =
        pairs.map fun p => ((fi.position p).map price).getD 0 := by
  induction pairs with
  | nil => exact fun _ _ _ => rfl
  | cons pair pairs ih =>
    intro n pre hpre
    unfold slots
    cases hp : fi.position pair with
    | none =>
      simp only [List.map_cons, Option.map_none, Option.getD_none, hp]
      rw [ih n pre hpre]
    | some t =>
      simp only [List.map_cons, Option.map_some, Option.getD_some, hp]
      have hself : (pre ++ price t :: (slots fi (n + 1) pairs).2.map price).getD n 0 = price t := by
        subst hpre
        simp [List.getD_eq_getElem?_getD]
      rw [hself]
      have hrest := ih (n + 1) (pre ++ [price t]) (by rw [List.length_append, hpre]; rfl)
      rw [List.append_assoc] at hrest
      exact congrArg _ hrest

/-- The counts of named categories are their prices. -/
theorem settles_countsFor_prices (h : fi.PostsHold head tail) (result : Bitmap) (pairs : List (String × String)) :
    Settles (fi.countsFor result pairs)
      (.ok (pairs.map fun p => ((fi.position p).map (fi.priceAt head tail result)).getD 0)) := by
  have hprice : Settles (fi.countCategoriesBatched (slots fi 0 pairs).2 result (headNeeded result) (tailKeys result)) _ :=
    settles_prices fun t ht => h.category (slots_present pairs 0 t ht)
  unfold countsFor
  refine hprice.bind ?_
  have hslots := @slots_priced fi (fi.priceAt head tail result) pairs 0 [] rfl
  rw [List.nil_append] at hslots
  rw [← hslots]
  exact Settles.pure _

/-- **Counts of named categories**: of an unknown field or category, none. -/
theorem settles_countsFor (h : fi.CountsHold head tail) (result : Bitmap) (pairs : List (String × String)) :
    Settles (fi.countsFor result pairs)
      (.ok (pairs.map fun p => ((fi.catRange p.1 p.2).map fun r => (result ∩ (head r ∪ tail r)).len).getD 0)) := by
  have heq : (pairs.map fun p => ((fi.position p).map (fi.priceAt head tail result)).getD 0) =
      pairs.map fun p => ((fi.catRange p.1 p.2).map fun r => (result ∩ (head r ∪ tail r)).len).getD 0 := by
    refine List.map_congr_left fun p _ => ?_
    rw [catRange_named]
    rcases @position_spec fi p with ⟨h1, h2⟩ | ⟨t, f, h1, hf, hlt, h2⟩
    · rw [h1, h2]
      rfl
    · rw [h1, h2]
      exact h.priceAt_eq result ⟨f, hf, hlt⟩
  rw [← heq]
  exact settles_countsFor_prices h.posts result pairs

/-! ## Counts per field -/

/-- The count of a category. -/
def countAt (counts : List (List Nat)) (t : Nat × Nat) : Option Nat := counts[t.1]?.bind fun row => row[t.2]?

omit [Roaring] in
theorem countAt_setCount (counts : List (List Nat)) (t u : Nat × Nat) (n : Nat) :
    countAt (setCount counts (t, n)) u = if t = u then (countAt counts u).map fun _ => n else countAt counts u := by
  unfold countAt setCount
  rw [List.getElem?_modify]
  by_cases h1 : t.1 = u.1
  · simp only [h1, if_true]
    cases counts[u.1]? with
    | none => simp
    | some row =>
      show (row.set t.2 n)[u.2]? = if t = u then Option.map (fun _ => n) row[u.2]? else row[u.2]?
      rw [List.getElem?_set]
      by_cases h2 : t.2 = u.2
      · rw [if_pos h2, if_pos (Prod.ext h1 h2)]
        by_cases hlt : u.2 < row.length
        · simp [h2, hlt]
        · simp [h2, hlt]
      · rw [if_neg h2, if_neg fun h => h2 (congrArg Prod.snd h)]
  · simp only [h1, if_false]
    rw [if_neg fun h => h1 (congrArg Prod.fst h)]
    cases counts[u.1]? <;> rfl

omit [Roaring] in
/-- After pricing, the targets have their prices and the others what they had. -/
theorem countAt_foldl (price : Nat × Nat → Nat) (targets : List (Nat × Nat)) (u : Nat × Nat) :
    ∀ counts, countAt ((targets.zip (targets.map price)).foldl setCount counts) u =
      if u ∈ targets then (countAt counts u).map fun _ => price u else countAt counts u := by
  induction targets with
  | nil => exact fun _ => by simp
  | cons t targets ih =>
    intro counts
    rw [List.map_cons, List.zip_cons_cons, List.foldl_cons, ih, countAt_setCount]
    by_cases ht : t = u
    · subst ht
      rw [if_pos rfl, if_pos List.mem_cons_self]
      split
      · rw [Option.map_map]
        rfl
      · rfl
    · have hmem : u ∈ t :: targets ↔ u ∈ targets := by
        rw [List.mem_cons]
        exact or_iff_right fun h => ht h.symm
      simp only [if_neg ht, hmem]

omit [Roaring] in
theorem countAt_counts (result : Bitmap) {t : Nat × Nat} (h : fi.Present t) :
    countAt (fi.counts result) t = some (result ∩ (fi.category t).head).len := by
  obtain ⟨f, hf, ht⟩ := h
  have hfield : fi.fields.getD t.1 ⟨"", []⟩ = f := by simp [List.getD_eq_getElem?_getD, hf]
  unfold countAt counts category
  rw [List.getElem?_map, hf, hfield, List.getD_eq_getElem _ _ ht]
  simp [ht]

section

variable [SelectNth]

omit [Roaring] in
/-- The priced categories of a field. -/
theorem mem_pricedTargets {topPerField : Nat} {t : Nat × Nat} :
    t ∈ fi.pricedTargets topPerField ↔ ∃ f, fi.fields[t.1]? = some f ∧
      if topPerField = 0 ∨ f.categories.length ≤ topPerField then t.2 < f.categories.length
      else t.2 ∈ (SelectNth.select (f.categories.map Category.count) (topPerField - 1)).take topPerField := by
  unfold pricedTargets
  rw [List.mem_flatMap]
  constructor
  · rintro ⟨⟨f, i⟩, hmem, ht⟩
    have hget := List.mem_zipIdx_iff_getElem?.mp hmem
    simp only at ht hget
    split at ht
    · next hall =>
      obtain ⟨j, hj, rfl⟩ := List.mem_map.mp ht
      exact ⟨f, hget, by rw [if_pos hall]; exact List.mem_range.mp hj⟩
    · next hnot =>
      obtain ⟨j, hj, rfl⟩ := List.mem_map.mp ht
      exact ⟨f, hget, by rw [if_neg hnot]; exact hj⟩
  · rintro ⟨f, hf, ht⟩
    refine ⟨(f, t.1), List.mem_zipIdx_iff_getElem?.mpr hf, ?_⟩
    simp only
    split at ht
    · next hall =>
      rw [if_pos hall]
      exact List.mem_map.mpr ⟨t.2, List.mem_range.mpr ht, rfl⟩
    · next hnot =>
      rw [if_neg hnot]
      exact List.mem_map.mpr ⟨t.2, ht, rfl⟩

omit [Roaring] in
theorem pricedTargets_present {topPerField : Nat} {t : Nat × Nat} (h : t ∈ fi.pricedTargets topPerField) :
    fi.Present t := by
  obtain ⟨f, hf, ht⟩ := mem_pricedTargets.mp h
  refine ⟨f, hf, ?_⟩
  split at ht
  · exact ht
  · next hnot =>
    have hn : topPerField - 1 < (f.categories.map Category.count).length := by
      rw [List.length_map]
      omega
    have hmem := (SelectNth.perm _ _ hn).mem_iff.mp (List.mem_of_mem_take ht)
    rw [List.length_map] at hmem
    exact List.mem_range.mp hmem

/-- A priced category's count is its price, another's that of its resident head. -/
theorem settles_countsFull_prices (h : fi.PostsHold head tail) (result : Bitmap) (topPerField : Nat) :
    ∃ counts, Settles (fi.countsFull result topPerField) (.ok counts) ∧ ∀ t, fi.Present t →
      countAt counts t = some (if t ∈ fi.pricedTargets topPerField then fi.priceAt head tail result t
        else (result ∩ (fi.category t).head).len) := by
  have hprice : Settles (fi.countCategoriesBatched (fi.pricedTargets topPerField) result (headNeeded result)
      (tailKeys result)) (.ok ((fi.pricedTargets topPerField).map (fi.priceAt head tail result))) :=
    settles_prices fun t ht => h.category (pricedTargets_present ht)
  refine ⟨_, hprice.bind (Settles.pure _), fun t ht => ?_⟩
  rw [countAt_foldl, countAt_counts result ht]
  split <;> rfl

/-- **Counts per field**: a priced category's is exact, another's is that of its resident head. -/
theorem settles_countsFull (h : fi.CountsHold head tail) (result : Bitmap) (topPerField : Nat) :
    ∃ counts, Settles (fi.countsFull result topPerField) (.ok counts) ∧ ∀ t, fi.Present t →
      countAt counts t = some (if t ∈ fi.pricedTargets topPerField then
        (result ∩ (head (fi.category t).range ∪ tail (fi.category t).range)).len
        else (result ∩ (fi.category t).head).len) := by
  obtain ⟨counts, hcounts, hall⟩ := settles_countsFull_prices h.posts result topPerField
  refine ⟨counts, hcounts, fun t ht => ?_⟩
  rw [hall t ht, h.priceAt_eq result ht]

/-- **Facet counts are exact**: every category that a call prices has as many docs of the result as its full
posting does, whatever else is priced with it. -/
theorem counts_exact (h : fi.CountsHold head tail) (result : Bitmap) :
    (∀ topPerField, ∃ counts, Settles (fi.countsFull result topPerField) (.ok counts) ∧
      ∀ t ∈ fi.pricedTargets topPerField,
        countAt counts t = some (result ∩ (head (fi.category t).range ∪ tail (fi.category t).range)).len) ∧
    ∀ pairs, Settles (fi.countsFor result pairs) (.ok (pairs.map fun p =>
      ((fi.catRange p.1 p.2).map fun r => (result ∩ (head r ∪ tail r)).len).getD 0)) := by
  refine ⟨fun topPerField => ?_, settles_countsFor h result⟩
  obtain ⟨counts, hcounts, hall⟩ := settles_countsFull h result topPerField
  refine ⟨counts, hcounts, fun t ht => ?_⟩
  rw [hall t (pricedTargets_present ht), if_pos ht]

end

/-- The categories of a sidecar as it is opened: nothing is resident. -/
theorem SidecarOf.posts {m : FacetMap} {headBoundary : Nat} {file : Bytes} (hb : bucketSize ≤ headBoundary)
    (h : fi.SidecarOf m headBoundary file) {f : Field} (hf : f ∈ fi.fields) {c : Category} (hc : c ∈ f.categories) :
    c.Posts fi.fetch (fi.headDocs c.range) (fi.tailDocs c.range) ∧ c.head = ∅ ∧
      ∃ S, m.docs f.name c.name = S ∧ c.count = S.len % 2 ^ 32 ∧
        fi.headDocs c.range = S.below headBoundary ∧ fi.tailDocs c.range = S.atLeast headBoundary := by
  obtain ⟨x, hx, hcx⟩ := h.category hf hc
  obtain ⟨hh, ht⟩ := hcx.postings h.length_lt
  have hhead : fi.headDocs c.range = x.2.below headBoundary := by
    rw [← h.fetch] at hh
    exact hh.postingIn_eq
  have htail : fi.tailDocs c.range = x.2.atLeast headBoundary := by
    rw [← h.fetch] at ht
    exact ht.postingIn_eq
  have hpos : ∀ {off len : Nat} {S T : Bitmap}, PostingAt (MemoryFetch.new file) off len S →
      slice file off len = serialize T → RangeHolds fi.fetch off len S := by
    intro off len S T hpost hslice
    have hlen : len = (serialize T).length := by rw [← hslice]; exact hpost.length_eq.symm
    unfold RangeHolds
    rw [if_neg (by have := Roaring.length_serialize_pos T; omega), h.fetch]
    exact hpost
  have hname : c.name = x.1 := hcx.name
  refine ⟨?_, hcx.bare.1, x.2, by rw [hname]; exact hx, hcx.count, hhead, htail⟩
  rw [hhead, htail]
  refine ⟨hpos hh hcx.head.2, hpos ht hcx.tail.2, ?_, Or.inl hcx.bare.1, ?_⟩
  · intro d hd
    exact Nat.le_trans hb (Bitmap.mem_atLeast.mp hd).2
  · intro dir hdir
    rw [hcx.bare.2] at hdir
    cases hdir

/-- The categories of a sidecar cut at doc 65,536. -/
theorem SidecarOf.countsHold {m : FacetMap} {file : Bytes} (h : fi.SidecarOf m bucketSize file) :
    fi.CountsHold fi.headDocs fi.tailDocs := by
  intro f hf c hc
  obtain ⟨hposts, -, S, -, -, hhead, -⟩ := h.posts (Nat.le_refl _) hf hc
  refine ⟨hposts.headAt, hposts.tailAt, fun d hd => ?_, hposts.le_tail, hposts.head, hposts.tailDir⟩
  rw [hhead] at hd
  exact (Bitmap.mem_below.mp hd).2

end FacetIndex

end

section

/-- The places of a list by descending value, equals in order. -/
def stableOrder (values : List Nat) (_ : Nat) : List Nat :=
  sortByKey (fun i => OrderDual.toDual (values.getD i 0)) (List.range values.length)

theorem stableOrder_perm (values : List Nat) (n : Nat) (_ : n < values.length) :
    (stableOrder values n).Perm (List.range values.length) := sortByKey_perm _ _

theorem stableOrder_largest (values : List Nat) (n : Nat) (_ : n < values.length) :
    ∀ i ∈ (stableOrder values n).take (n + 1), ∀ j ∈ (stableOrder values n).drop (n + 1),
      values.getD j 0 ≤ values.getD i 0 := by
  intro i hi j hj
  have hsorted := sortByKey_sorted (fun i => OrderDual.toDual (values.getD i 0)) (List.range values.length)
  rw [← List.take_append_drop (n + 1) (sortByKey _ _)] at hsorted
  exact (List.pairwise_append.mp hsorted).2.2 i hi j hj

/-- A selection by a stable sort. -/
@[reducible] def stableSelect : SelectNth := ⟨stableOrder, stableOrder_perm, stableOrder_largest⟩

attribute [local instance] PortableCodec.roaring asciiUnicode stableSelect

theorem counts_exact_severalCategories : ∃ file fi counts,
    writeFacetsWith (facetFields severalCategories 65536) true = .ok file ∧
      Settles (FacetIndex.openMeta (MemoryFetch.new file)) (.ok fi) ∧
      headerPrefix < (serialize (longTail.atLeast 65536)).length ∧
      Settles (fi.countsFull spreadResult 1) (.ok counts) ∧
      (∀ t ∈ fi.pricedTargets 1, FacetIndex.countAt counts t =
        some (spreadResult ∩ (fi.headDocs (fi.category t).range ∪ fi.tailDocs (fi.category t).range)).len) ∧
      Settles (fi.countsFor spreadResult [("kind", "a"), ("lang", "en"), ("kind", "b"), ("lang", "fr")]) (.ok [1, 1, 3, 0]) := by
  obtain ⟨file, fi, hwrite, hopen, hside⟩ := exists_sidecarOf severalCategories_fits 65536 true
  have hcounts : fi.CountsHold fi.headDocs fi.tailDocs := FacetIndex.SidecarOf.countsHold hside
  obtain ⟨hfull, hfor⟩ := FacetIndex.counts_exact hcounts spreadResult
  obtain ⟨counts, hcounts', hpriced⟩ := hfull 1
  refine ⟨file, fi, counts, hwrite, hopen, by decide +kernel, hcounts', hpriced, ?_⟩
  have hpairs := hfor [("kind", "a"), ("lang", "en"), ("kind", "b"), ("lang", "fr")]
  have hfound : ∀ f c, ((fi.catRange f c).map fun r => (spreadResult ∩ (fi.headDocs r ∪ fi.tailDocs r)).len) =
      (severalCategories.posting f c).map fun S => (spreadResult ∩ (S.below 65536 ∪ S.atLeast 65536)).len := by
    intro f c
    have h := congrArg (Option.map fun x : Bitmap × Bitmap => (spreadResult ∩ (x.1 ∪ x.2)).len) (hside.found f c)
    rw [Option.map_map, Option.map_map] at h
    exact h
  simp only [List.map_cons, List.map_nil, hfound, Bitmap.below_union_atLeast] at hpairs
  have hvalues : [("kind", "a"), ("lang", "en"), ("kind", "b"), ("lang", "fr")].map (fun p : String × String =>
      ((severalCategories.posting p.1 p.2).map fun S => (spreadResult ∩ S).len).getD 0) = [1, 1, 3, 0] := by
    decide +kernel
  rwa [← hvalues]

end

end RoaringRange
