import RoaringRange.Index

/-!
# The paging cursor (`index.rs`, `Cursor`)

`searchCursorFiltered` resolves a query's postings, intersects their eager prefixes (with the head
side of the filter) into the first results, and leaves the rest to `ensure`, which extends the
results window by window or, for a threshold query or postings it cannot seek in, with one load of
the whole tail.  Methods are `CursorM` computations: what a method did to the cursor before a read
failed stays done.

The reference is `pagedDocs`: the docs that match the query's threshold, those below the eager bound
decided by the head side of the filter and the others by its tail side.  `Cursor.Serves` ties the
fixed part of a cursor to it and `Cursor.Paged` says how far the changing part has got:

    Serves, Paged → results are a first segment of pagedDocs                  (Paged.isPrefix)
    Serves, Paged, not lost → ensure keeps both, extends the results, and on a fault changes
      nothing but how far it got                                             (ensure_spec)
-/

namespace RoaringRange

open ByteString Faults Slices

/-- `index::Cursor`. -/
structure Cursor where
  fetch : MemoryFetch
  recs : List DictRec
  minMatch : Nat
  filter : Option ResolvedFilter
  headResult : Bitmap
  results : List Nat
  pos : Nat
  tailDone : Bool
  tailScan : Option TailScan
  tailScanTried : Bool

abbrev CursorM (α : Type) := Method Cursor FetchError IndexError α

/-- `TAIL_WINDOWS_PER_CALL`. -/
def tailWindowsPerCall : Nat := 12

namespace Cursor

/-- `Cursor::empty`. -/
def empty (f : MemoryFetch) : Cursor := ⟨f, [], 1, none, ∅, [], 0, true, none, true⟩

def ranges (c : Cursor) : List (Nat × Nat) := c.recs.map DictRec.range

/-- The filter's own fetcher. -/
def facetFetch (c : Cursor) : Option MemoryFetch := c.filter.map ResolvedFilter.fetch

/-- The tail ranges of the included fields. -/
def facetFields (c : Cursor) : List (List (Nat × Nat)) :=
  match c.filter with
  | some f => f.fields.map fun cats => cats.map CatRange.tailRange
  | none => []

/-- The tail ranges of the excluded categories. -/
def excludeRanges (c : Cursor) : List (Nat × Nat) :=
  match c.filter with
  | some f => f.excludes.map CatRange.tailRange
  | none => []

/-- `Cursor::pending_tail`. -/
def pendingTail (c : Cursor) : Bool := !c.tailDone && !c.recs.isEmpty

/-- `Cursor::loaded`. -/
def loaded (c : Cursor) : Nat := c.results.length

/-- `Cursor::head_count`. -/
def headCount (c : Cursor) : Nat := c.headResult.len

section

variable [Roaring]

/-- Opens the tail scan on the first tail access. -/
def openTailScan : CursorM Unit := do
  let c ← get
  if c.tailScanTried then pure ()
  else do
    let scan ← perform (TailScan.open c.fetch c.ranges c.facetFetch c.facetFields c.excludeRanges eagerBuckets)
    modify fun c => { c with tailScan := scan }
    modify fun c => { c with tailScanTried := true }

/-- The window loop of `ensure`: `windows` is the budget left, `startLen` the results it began with. -/
def windowLoop (need startLen : Nat) : Nat → TailScan → CursorM TailScan
  | 0, scan => pure scan
  | windows + 1, scan => do
    let c ← get
    if c.results.length < need ∧ scan.exhausted = false then do
      let (win, scan) ← perform (scan.nextWindow c.fetch c.facetFetch Index.tailKeyBatch)
      modify fun c => { c with results := c.results ++ win.toList }
      let c ← get
      -- first paint: something new surfaced, and at least two windows were scanned
      if startLen < c.results.length ∧ windows ≤ tailWindowsPerCall - 2 then pure scan
      else windowLoop need startLen windows scan
    else pure scan

/-- The whole tail's docs before the filter: the strict AND, or the threshold of full postings. -/
def wholeTail (c : Cursor) : Io Bitmap :=
  if c.minMatch = c.recs.length then tailIntersectAnd c.fetch c.ranges
  else do
    let tails ← tryAll (c.ranges.map fun r => readPosting c.fetch r.1 r.2)
    pure ((threshold tails c.minMatch).getD ∅)

/-- The tail side of the filter, when there is one. -/
def applyTailFilter (filter : Option ResolvedFilter) (tail : Bitmap) : Io Bitmap :=
  match filter with
  | some f => f.applyTail tail
  | none => pure tail

/-- The whole-tail load of `ensure`. -/
def loadWholeTail : CursorM Unit := do
  let c ← get
  let tailAnd ← perform c.wholeTail
  let tailAnd := tailAnd.atLeast eagerDocBound
  if tailAnd.isEmpty then modify fun c => { c with tailDone := true }
  else do
    let tailAnd ← perform (applyTailFilter c.filter tailAnd)
    modify fun c => { c with results := c.results ++ tailAnd.toList }
    modify fun c => { c with tailDone := true }

/-- The windowed part of `ensure`: the scan is taken out of the cursor while it runs. -/
def scanTail (need : Nat) (scan : TailScan) : CursorM Unit := do
  modify fun c => { c with tailScan := none }
  let c ← get
  let scan ← windowLoop need c.results.length tailWindowsPerCall scan
  modify fun c => { c with tailDone := c.tailDone || scan.exhausted }
  modify fun c => { c with tailScan := some scan }

/-- `Cursor::ensure`. -/
def ensure (need : Nat) : CursorM Unit := do
  let c ← get
  if c.tailDone = true ∨ c.recs.isEmpty = true ∨ need ≤ c.results.length then pure ()
  else if c.minMatch = c.recs.length then do
    openTailScan
    let c ← get
    match c.tailScan with
    | some scan => scanTail need scan
    | none => loadWholeTail
  else loadWholeTail

/-- `Cursor::next`. -/
def next (n : Nat) : CursorM (List Nat) := do
  let c ← get
  let want := saturatingAdd c.pos n
  ensure want
  let c ← get
  let «end» := min want c.results.length
  modify fun c => { c with pos := «end» }
  pure ((c.results.drop c.pos).take («end» - c.pos))

/-- `Cursor::page`. -/
def page (offset limit : Nat) : CursorM (List Nat) := do
  let want := saturatingAdd offset limit
  ensure want
  let c ← get
  let start := min offset c.results.length
  let «end» := min want c.results.length
  pure ((c.results.drop start).take («end» - start))

/-- The first `fuel` passes of the loop of `Cursor::load_tail`; `none` when it is not over by then. -/
def loadTail : Nat → Cursor → Schedule FetchError →
    Option ((Except IndexError Unit × Cursor) × Schedule FetchError)
  | 0, _, _ => none
  | fuel + 1, c, s =>
    if c.pendingTail then
      match (ensure usizeMax).call c s with
      | ((.ok (), c'), s') => loadTail fuel c' s'
      | ((.error e, c'), s') => some ((.error e, c'), s')
    else some ((.ok (), c), s)

end

end Cursor

section

variable [Roaring]

/-- The head side of the filter, when there is one. -/
def applyHeadFilter (filter : Option ResolvedFilter) (head : Bitmap) : Io Bitmap :=
  match filter with
  | some f => f.applyHead head
  | none => pure head

variable [Unicode]

/-- `Index::search_cursor_filtered`. -/
def Index.searchCursorFiltered (ix : Index) (query : String) (maxMissing : Nat)
    (filter : Option ResolvedFilter) : Io Cursor :=
  if filter.any ResolvedFilter.hasEmptyArm then pure (Cursor.empty ix.fetch)
  else do
    let keys := ix.queryKeys query
    let minMatch := max (keys.length - maxMissing) 1
    let found ← ix.parsePresent (ix.presentBlocks keys)
    let recs := found.filterMap id
    if recs.length < minMatch then pure (Cursor.empty ix.fetch)
    else do
      let heads ← ix.fetchHeadPrefixes recs
      let filter := filter.filter fun f => !f.isEmpty
      let headResult ← applyHeadFilter filter ((threshold heads minMatch).getD ∅)
      pure ⟨ix.fetch, recs, minMatch, filter, headResult, headResult.toList, 0, false, none, false⟩

end

/-! ## What a cursor pages -/

/-- The two sides of a filter as one decision: the head side below the eager bound, the tail side
from there on. -/
def sided (H T : FilterSets) (d : Nat) : Bool :=
  if d < eagerDocBound then H.passes d else T.passes d

/-- The docs in at least `t` of the sets that their side of the filter lets through. -/
def pagedDocs (sets : List Bitmap) (t : Nat) (H T : FilterSets) : Bitmap :=
  (matching sets t).filter (sided H T)

def headDocs (sets : List Bitmap) (t : Nat) (H : FilterSets) : Bitmap :=
  (Bitmap.below (matching sets t) eagerDocBound).filter H.passes

def tailDocs (sets : List Bitmap) (t : Nat) (T : FilterSets) : Bitmap :=
  (Bitmap.atLeast (matching sets t) eagerDocBound).filter T.passes

theorem headDocs_append_tailDocs (sets : List Bitmap) (t : Nat) (H T : FilterSets) :
    (headDocs sets t H).toList ++ (tailDocs sets t T).toList = (pagedDocs sets t H T).toList := by
  refine AscSet.toList_append (fun x hx y hy => ?_) fun d => ?_
  · have h1 := (Bitmap.mem_below.mp (AscSet.mem_filter.mp hx).1).2
    have h2 := (Bitmap.mem_atLeast.mp (AscSet.mem_filter.mp hy).1).2
    omega
  · simp only [headDocs, tailDocs, pagedDocs, AscSet.mem_filter, Bitmap.mem_below, Bitmap.mem_atLeast, sided]
    rcases Nat.lt_or_ge d eagerDocBound with h | h
    · simp [h]
    · simp [Nat.not_lt.mpr h, h]

theorem length_toList_lt (S : Bitmap) : S.toList.length < usizeMax := by
  have hsub : S.toList ⊆ List.range u32Bound := fun d hd => List.mem_range.mpr (S.all d hd)
  have hle := (List.subperm_of_subset S.nodup hsub).length_le
  rw [List.length_range] at hle
  exact Nat.lt_of_le_of_lt hle (by decide)

/-- The postings and the filter of a cursor hold `sets`, `H` and `T`. -/
structure Cursor.Serves [Roaring] (sets : List Bitmap) (H T : FilterSets) (c : Cursor) : Prop where
  postings : PostingsAt c.fetch c.ranges sets
  minMatch_pos : 1 ≤ c.minMatch
  minMatch_le : c.minMatch ≤ c.recs.length
  filterAt : match c.filter with
    | some rf => rf.FilterAt H T
    | none => H = ⟨[], []⟩ ∧ T = ⟨[], []⟩
  headResult_eq : c.headResult = headDocs sets c.minMatch H

/-- How far a cursor has got: the tail is done; a scan has the rest to find; nothing of the tail is
there yet; or the scan is gone after part of the tail was found. -/
inductive Cursor.Paged [Roaring] (sets : List Bitmap) (H T : FilterSets) (c : Cursor) : Prop where
  | done (hd : c.tailDone = true) (hr : c.results = (pagedDocs sets c.minMatch H T).toList)
  | scanning (hd : c.tailDone = false) (scan : TailScan) (hs : c.tailScan = some scan)
      (ht : c.tailScanTried = true) (hm : c.minMatch = c.recs.length)
      (hh : scan.Holds c.fetch c.facetFetch sets T)
      (hp : (headDocs sets c.minMatch H).toList <+: c.results)
      (hr : c.results ++ (scan.remaining sets T).toList = (pagedDocs sets c.minMatch H T).toList)
  | fresh (hd : c.tailDone = false) (hs : c.tailScan = none)
      (hr : c.results = (headDocs sets c.minMatch H).toList)
  | lost (hd : c.tailDone = false) (hs : c.tailScan = none) (ht : c.tailScanTried = true)
      (hm : c.minMatch = c.recs.length)
      (hp : (headDocs sets c.minMatch H).toList <+: c.results)
      (hr : c.results <+: (pagedDocs sets c.minMatch H T).toList)

/-! ## How a call may change a cursor -/

namespace Cursor

/-- `c'` is `c` with more of the tail worked off. -/
structure Extends (c c' : Cursor) : Prop where
  pos_eq : c'.pos = c.pos
  query_eq : c'.fetch = c.fetch ∧ c'.recs = c.recs ∧ c'.minMatch = c.minMatch ∧ c'.filter = c.filter ∧
    c'.headResult = c.headResult
  results : c.results <+: c'.results

theorem Extends.refl (c : Cursor) : c.Extends c :=
  ⟨rfl, ⟨rfl, rfl, rfl, rfl, rfl⟩, List.prefix_refl _⟩

theorem Extends.trans {c₁ c₂ c₃ : Cursor} (h : c₁.Extends c₂) (h' : c₂.Extends c₃) : c₁.Extends c₃ := by
  obtain ⟨h1, ⟨h2, h3, h4, h5, h6⟩, h7⟩ := h
  obtain ⟨g1, ⟨g2, g3, g4, g5, g6⟩, g7⟩ := h'
  exact ⟨g1.trans h1, ⟨g2.trans h2, g3.trans h3, g4.trans h4, g5.trans h5, g6.trans h6⟩, h7.trans g7⟩

/-- The scan was taken out by a call that failed, after part of the tail was found. -/
def Lost (c : Cursor) : Prop :=
  c.tailDone = false ∧ c.tailScan = none ∧ c.tailScanTried = true ∧ c.headCount < c.results.length

instance (c : Cursor) : Decidable c.Lost := inferInstanceAs (Decidable (_ ∧ _ ∧ _ ∧ _))

end Cursor

/-! ## The window loop -/

/-- What the window loop finds when no read fails: the results and the scan it ends with. -/
def scanWindows (sets : List Bitmap) (F : FilterSets) (need startLen : Nat) :
    Nat → TailScan → List Nat → List Nat × TailScan
  | 0, scan, out => (out, scan)
  | windows + 1, scan, out =>
    if out.length < need ∧ scan.exhausted = false then
      let out := out ++ (windowResult sets F ((scan.keys.drop scan.pos).take Index.tailKeyBatch)).toList
      let scan := scan.advance Index.tailKeyBatch
      if startLen < out.length ∧ windows ≤ tailWindowsPerCall - 2 then (out, scan)
      else scanWindows sets F need startLen windows scan out
    else (out, scan)

section

variable [Roaring] {sets : List Bitmap} {F H T : FilterSets} {need startLen : Nat}

/-- The loop's scan still holds the sets, and results and scan together still make up the same docs. -/
theorem scanWindows_spec {f : MemoryFetch} {ff : Option MemoryFetch} :
    ∀ (windows : Nat) (scan : TailScan) (out : List Nat), scan.Holds f ff sets F →
      (scanWindows sets F need startLen windows scan out).2.Holds f ff sets F ∧
      out <+: (scanWindows sets F need startLen windows scan out).1 ∧
      (scanWindows sets F need startLen windows scan out).1 ++
        ((scanWindows sets F need startLen windows scan out).2.remaining sets F).toList =
        out ++ (scan.remaining sets F).toList ∧
      (scanWindows sets F need startLen windows scan out).2.keys = scan.keys ∧
      scan.pos ≤ (scanWindows sets F need startLen windows scan out).2.pos
  | 0, scan, out, h => ⟨h, List.prefix_refl _, rfl, rfl, Nat.le_refl _⟩
  | windows + 1, scan, out, h => by
    have hadv := h.advance Index.tailKeyBatch
    have hrest := TailScan.remaining_advance h Index.tailKeyBatch
    have hpos : scan.pos ≤ (scan.advance Index.tailKeyBatch).pos := by
      have := h.pos_le
      simp only [TailScan.advance]
      omega
    unfold scanWindows
    split
    · simp only
      split
      · refine ⟨hadv, List.prefix_append _ _, ?_, rfl, hpos⟩
        rw [List.append_assoc, hrest]
      · obtain ⟨h1, h2, h3, h4, h5⟩ := scanWindows_spec windows (scan.advance Index.tailKeyBatch)
          (out ++ (windowResult sets F ((scan.keys.drop scan.pos).take Index.tailKeyBatch)).toList) hadv
        refine ⟨h1, (List.prefix_append _ _).trans h2, ?_, h4, Nat.le_trans hpos h5⟩
        rw [h3, List.append_assoc, hrest]
    · exact ⟨h, List.prefix_refl _, rfl, rfl, Nat.le_refl _⟩

/-- A loop that has work to do moves the scan on. -/
theorem scanWindows_progress {f : MemoryFetch} {ff : Option MemoryFetch} {windows : Nat} {scan : TailScan}
    {out : List Nat} (h : scan.Holds f ff sets F) (hneed : out.length < need)
    (hex : scan.exhausted = false) :
    scan.pos < (scanWindows sets F need startLen (windows + 1) scan out).2.pos := by
  have hlt : scan.pos < scan.keys.length := by simpa [TailScan.exhausted] using hex
  have hpos : scan.pos < (scan.advance Index.tailKeyBatch).pos := by
    simp only [TailScan.advance, Index.tailKeyBatch]
    omega
  unfold scanWindows
  rw [if_pos ⟨hneed, hex⟩]
  simp only
  split
  · exact hpos
  · exact Nat.lt_of_lt_of_le hpos (scanWindows_spec windows (scan.advance Index.tailKeyBatch) _
      (h.advance _)).2.2.2.2

namespace Cursor

/-! ## One call of `ensure` -/

/-- Every tail posting of the query and of the filter can be seeked in. -/
def AllSeekable (c : Cursor) : Prop :=
  (∀ t ∈ c.ranges, Seekable c.fetch t.1 t.2) ∧
    RoaringRange.AllSeekable (c.facetFetch.getD c.fetch) c.facetFields ∧
    ∀ t ∈ c.excludeRanges, Seekable (c.facetFetch.getD c.fetch) t.1 t.2

instance (c : Cursor) : Decidable c.AllSeekable := inferInstanceAs (Decidable (_ ∧ _ ∧ _))

/-- The cursor after the scan was opened (or found to be impossible). -/
def opened (sets : List Bitmap) (T : FilterSets) (c : Cursor) : Cursor :=
  if c.tailScanTried then c
  else
    { c with
      tailScan := if c.AllSeekable then
        some (scanOf c.ranges sets c.facetFields c.excludeRanges T eagerBuckets) else none
      tailScanTried := true }

/-- The cursor after the whole-tail load. -/
def wholeLoaded (sets : List Bitmap) (T : FilterSets) (c : Cursor) : Cursor :=
  { c with results := c.results ++ (tailDocs sets c.minMatch T).toList, tailDone := true }

/-- The cursor after the window loop. -/
def scanned (sets : List Bitmap) (T : FilterSets) (need : Nat) (scan : TailScan) (c : Cursor) : Cursor :=
  let r := scanWindows sets T need c.results.length tailWindowsPerCall scan c.results
  { c with results := r.1, tailDone := c.tailDone || r.2.exhausted, tailScan := some r.2 }

/-- The cursor `ensure need` leaves when no read fails. -/
def ensured (sets : List Bitmap) (T : FilterSets) (need : Nat) (c : Cursor) : Cursor :=
  if c.tailDone = true ∨ c.recs.isEmpty = true ∨ need ≤ c.results.length then c
  else if c.minMatch = c.recs.length then
    match (c.opened sets T).tailScan with
    | some scan => (c.opened sets T).scanned sets T need scan
    | none => (c.opened sets T).wholeLoaded sets T
  else c.wholeLoaded sets T

/-- The window loop of a cursor: all it finds, or a part of it when a read failed. -/
theorem windowLoop_call (hne : sets ≠ []) :
    ∀ (windows : Nat) (scan : TailScan) (c : Cursor) (s : Schedule FetchError),
      scan.Holds c.fetch c.facetFetch sets F →
      (∃ n, (windowLoop need startLen windows scan).call c s =
        ((.ok (scanWindows sets F need startLen windows scan c.results).2,
          { c with results := (scanWindows sets F need startLen windows scan c.results).1 }), s.drop n)) ∨
      ∃ n e out, s.Met n e ∧ (windowLoop need startLen windows scan).call c s =
        ((.error (.fetch e), { c with results := out }), s.drop n) ∧
        c.results <+: out ∧ out <+: c.results ++ (scan.remaining sets F).toList
  | 0, scan, c, s, _ => Or.inl ⟨0, by simp [windowLoop, scanWindows]⟩
  | windows + 1, scan, c, s, h => by
    unfold windowLoop scanWindows
    rw [call_bind, call_get]
    simp only
    split
    · have hwin := settles_nextWindow h hne Index.tailKeyBatch
      have hrest := TailScan.remaining_advance h Index.tailKeyBatch
      generalize windowResult sets F ((scan.keys.drop scan.pos).take Index.tailKeyBatch) = win at hwin hrest
      rcases call_perform_bind hwin _ c s with ⟨n, hok⟩ | ⟨n, e, he, herr⟩
      · rw [hok]
        simp only [call_bind, call_modify, call_get]
        split
        · exact Or.inl ⟨n, rfl⟩
        · rcases windowLoop_call hne windows (scan.advance Index.tailKeyBatch)
            { c with results := c.results ++ win.toList } (s.drop n) (h.advance _) with
            ⟨m, hm⟩ | ⟨m, e, out, he, hm, hp, hq⟩
          · exact Or.inl ⟨n + m, by rw [hm, Schedule.drop_drop]⟩
          · refine Or.inr ⟨n + m, e, out, he.of_drop, by rw [hm, Schedule.drop_drop], ?_, ?_⟩
            · exact (List.prefix_append _ _).trans hp
            · rwa [List.append_assoc, hrest] at hq
      · exact Or.inr ⟨n, e, c.results, he, herr, List.prefix_refl _, List.prefix_append _ _⟩
    · exact Or.inl ⟨0, by simp⟩

section

variable {c : Cursor}

theorem Serves.sets_length (h : c.Serves sets H T) : sets.length = c.recs.length := by
  rw [← h.postings.length_eq, ranges, List.length_map]

theorem Serves.sets_ne_nil (h : c.Serves sets H T) : sets ≠ [] := by
  have h1 := h.minMatch_pos
  have h2 := h.minMatch_le
  have h3 := h.sets_length
  exact List.length_pos_iff.mp (by omega)

theorem Serves.recs_ne_nil (h : c.Serves sets H T) : c.recs.isEmpty = false := by
  have h1 := h.minMatch_pos
  have h2 := h.minMatch_le
  cases hr : c.recs with
  | nil =>
    rw [hr, List.length_nil] at h2
    omega
  | cons r rs => rfl

/-- The tail postings of the filter hold `T` in its fetcher. -/
theorem Serves.facets (h : c.Serves sets H T) :
    (c.facetFetch = some (c.facetFetch.getD c.fetch) ∨ c.facetFields = [] ∧ c.excludeRanges = []) ∧
      List.Forall₂ (PostingsAt (c.facetFetch.getD c.fetch)) c.facetFields T.fields ∧
      PostingsAt (c.facetFetch.getD c.fetch) c.excludeRanges T.excludes := by
  have hf := h.filterAt
  unfold facetFetch facetFields excludeRanges
  cases hc : c.filter with
  | none =>
    rw [hc] at hf
    rw [hf.2]
    exact ⟨Or.inr ⟨rfl, rfl⟩, List.Forall₂.nil, List.Forall₂.nil⟩
  | some rf =>
    rw [hc] at hf
    exact ⟨Or.inl rfl, List.forall₂_map_left_iff.mpr hf.tail.fields, hf.tail.excludes⟩

/-- Opening settles on the scan over the query's sets, or on none. -/
theorem Serves.settles_open (h : c.Serves sets H T) :
    Settles (TailScan.open c.fetch c.ranges c.facetFetch c.facetFields c.excludeRanges eagerBuckets)
      (.ok (if c.AllSeekable then
        some (scanOf c.ranges sets c.facetFields c.excludeRanges T eagerBuckets) else none)) := by
  obtain ⟨h1, h2, h3⟩ := h.facets
  exact RoaringRange.settles_open h.postings h1 h2 h3 eagerBuckets

/-- The scan over seekable postings has the tail docs of a strict query to find. -/
theorem Serves.scanOf_spec (h : c.Serves sets H T) (hm : c.minMatch = c.recs.length)
    (hs : c.AllSeekable) :
    (scanOf c.ranges sets c.facetFields c.excludeRanges T eagerBuckets).Holds c.fetch c.facetFetch sets T ∧
      (scanOf c.ranges sets c.facetFields c.excludeRanges T eagerBuckets).remaining sets T =
        tailDocs sets c.minMatch T := by
  obtain ⟨h1, h2, h3⟩ := h.facets
  obtain ⟨hh, hr⟩ := scanOf_holds h.postings h1 h2 h3 h.sets_ne_nil hs.1 hs.2.1 hs.2.2 eagerBuckets
  refine ⟨hh, AscSet.ext_mem fun d => ?_⟩
  rw [hr, tailDocs, AscSet.mem_filter, Bitmap.mem_atLeast, hm, ← h.sets_length,
    matching_length h.sets_ne_nil]
  have hkey : eagerBuckets ≤ highKey d ↔ eagerDocBound ≤ d := by
    simp only [eagerBuckets, highKey, eagerDocBound, bucketSize]
    omega
  rw [hkey]
  tauto

theorem Serves.settles_wholeTail (h : c.Serves sets H T) :
    Settles c.wholeTail (.ok (matching sets c.minMatch)) := by
  unfold wholeTail
  split
  · next hm =>
    rw [hm, ← h.sets_length, matching_length h.sets_ne_nil]
    exact settles_tailIntersectAnd h.postings
  · have hread : Settles (tryAll (c.ranges.map fun r => readPosting c.fetch r.1 r.2)) (.ok sets) := by
      rw [← collect_ok (δ := IndexError)]
      refine Settles.tryAll ?_
      rw [List.forall₂_map_left_iff, List.forall₂_map_right_iff]
      exact h.postings.imp fun r S hr => settles_readPosting hr
    have hlen : c.minMatch ≤ sets.length := by
      rw [h.sets_length]
      exact h.minMatch_le
    rw [← threshold_eq h.minMatch_pos hlen]
    exact hread.map

theorem Serves.settles_applyTailFilter (h : c.Serves sets H T) (tail : Bitmap) :
    Settles (applyTailFilter c.filter tail) (.ok (tail.filter T.passes)) := by
  have hf := h.filterAt
  unfold applyTailFilter
  cases hc : c.filter with
  | none =>
    rw [hc] at hf
    have heq : tail.filter T.passes = tail := by
      rw [hf.2]
      exact AscSet.filter_true tail
    rw [heq]
    exact Settles.pure _
  | some rf =>
    rw [hc] at hf
    exact ResolvedFilter.settles_applyTail hf tail

/-- The whole-tail load appends the tail docs, or a failed read leaves the cursor as it was. -/
theorem loadWholeTail_call (h : c.Serves sets H T) (s : Schedule FetchError) :
    (∃ n, loadWholeTail.call c s = ((.ok (), c.wholeLoaded sets T), s.drop n)) ∨
    ∃ n e, s.Met n e ∧ loadWholeTail.call c s = ((.error (.fetch e), c), s.drop n) := by
  unfold loadWholeTail
  rw [call_bind, call_get]
  simp only
  rcases call_perform_bind h.settles_wholeTail _ c s with ⟨n, hok⟩ | ⟨n, e, he, herr⟩
  · rw [hok]
    split
    · next hempty =>
      have htail : tailDocs sets c.minMatch T = ∅ := by
        rw [tailDocs, AscSet.isEmpty_iff.mp hempty]
        rfl
      refine Or.inl ⟨n, ?_⟩
      simp [wholeLoaded, htail]
    · rcases call_perform_bind (h.settles_applyTailFilter _) _ c (s.drop n) with ⟨m, hm⟩ | ⟨m, e, he, hm⟩
      · refine Or.inl ⟨n + m, ?_⟩
        rw [hm]
        simp only [call_bind, call_modify, Schedule.drop_drop]
        rfl
      · exact Or.inr ⟨n + m, e, he.of_drop, by rw [hm, Schedule.drop_drop]; rfl⟩
  · exact Or.inr ⟨n, e, he, herr⟩

/-- Opening the scan, or a failed read that leaves the cursor as it was. -/
theorem openTailScan_call (h : c.Serves sets H T) (s : Schedule FetchError) :
    (∃ n, openTailScan.call c s = ((.ok (), c.opened sets T), s.drop n)) ∨
    ∃ n e, s.Met n e ∧ openTailScan.call c s = ((.error (.fetch e), c), s.drop n) := by
  unfold openTailScan opened
  rw [call_bind, call_get]
  simp only
  split
  · exact Or.inl ⟨0, by simp⟩
  · rcases call_perform_bind h.settles_open _ c s with ⟨n, hok⟩ | ⟨n, e, he, herr⟩
    · refine Or.inl ⟨n, ?_⟩
      rw [hok]
      simp only [call_bind, call_modify]
    · exact Or.inr ⟨n, e, he, herr⟩

/-- The windowed part: the loop's scan is put back, or a failed read leaves the cursor without one. -/
theorem scanTail_call (hne : sets ≠ []) {scan : TailScan} (hs : scan.Holds c.fetch c.facetFetch sets T)
    (s : Schedule FetchError) :
    (∃ n, (scanTail need scan).call c s = ((.ok (), c.scanned sets T need scan), s.drop n)) ∨
    ∃ n e out, s.Met n e ∧ (scanTail need scan).call c s =
      ((.error (.fetch e), { c with tailScan := none, results := out }), s.drop n) ∧
      c.results <+: out ∧ out <+: c.results ++ (scan.remaining sets T).toList := by
  unfold scanTail
  simp only [call_bind, call_modify, call_get]
  rcases @windowLoop_call _ _ _ need c.results.length hne tailWindowsPerCall scan
    { c with tailScan := none } s hs with ⟨n, hok⟩ | ⟨n, e, out, he, herr, hp, hq⟩
  · refine Or.inl ⟨n, ?_⟩
    rw [hok]
    rfl
  · refine Or.inr ⟨n, e, out, he, ?_, hp, hq⟩
    rw [herr]

theorem Serves.opened (h : c.Serves sets H T) : (c.opened sets T).Serves sets H T := by
  unfold Cursor.opened
  split
  · exact h
  · exact ⟨h.postings, h.minMatch_pos, h.minMatch_le, h.filterAt, h.headResult_eq⟩

theorem Serves.headCount_eq (h : c.Serves sets H T) :
    c.headCount = (headDocs sets c.minMatch H).toList.length := by
  rw [headCount, h.headResult_eq]
  rfl

/-- The scan of an opened cursor has the rest to find. -/
theorem Paged.opened_scan (hS : c.Serves sets H T) (hP : c.Paged sets H T) (hd : c.tailDone = false)
    (hm : c.minMatch = c.recs.length) {scan : TailScan} (hs : (c.opened sets T).tailScan = some scan) :
    scan.Holds c.fetch c.facetFetch sets T ∧ (headDocs sets c.minMatch H).toList <+: c.results ∧
      c.results ++ (scan.remaining sets T).toList = (pagedDocs sets c.minMatch H T).toList := by
  unfold Cursor.opened at hs
  cases hP with
  | done hd' _ => rw [hd] at hd'; cases hd'
  | scanning _ scan' hs' ht _ hh hp hr =>
    rw [if_pos ht, hs'] at hs
    obtain rfl := Option.some.inj hs
    exact ⟨hh, hp, hr⟩
  | fresh _ hs' hr =>
    split at hs
    · rw [hs'] at hs
      cases hs
    · simp only at hs
      split at hs
      · next hseek =>
        obtain rfl := Option.some.inj hs
        obtain ⟨hh, hrem⟩ := hS.scanOf_spec hm hseek
        refine ⟨hh, hr ▸ List.prefix_refl _, ?_⟩
        rw [hr, hrem, headDocs_append_tailDocs]
      · cases hs
  | lost _ hs' ht _ _ _ =>
    rw [if_pos ht, hs'] at hs
    cases hs

/-- An opened cursor without a scan has nothing of the tail yet, unless it was lost. -/
theorem Paged.opened_none (hS : c.Serves sets H T) (hP : c.Paged sets H T) (hd : c.tailDone = false)
    (hl : ¬ c.Lost) (hs : (c.opened sets T).tailScan = none) :
    c.results = (headDocs sets c.minMatch H).toList := by
  unfold Cursor.opened at hs
  cases hP with
  | done hd' _ => rw [hd] at hd'; cases hd'
  | scanning _ scan' hs' ht _ _ _ _ =>
    rw [if_pos ht, hs'] at hs
    cases hs
  | fresh _ _ hr => exact hr
  | lost _ hs' ht _ hp _ =>
    have hle : ¬ (headDocs sets c.minMatch H).toList.length < c.results.length := by
      intro hlt
      exact hl ⟨hd, hs', ht, by rw [hS.headCount_eq]; exact hlt⟩
    exact (hp.eq_of_length_le (by omega)).symm

theorem Extends.serves {c' : Cursor} (h : c.Extends c') (hS : c.Serves sets H T) : c'.Serves sets H T := by
  obtain ⟨hf, hr, hm, hfl, hh⟩ := h.query_eq
  have h1 := hS.postings
  have h2 := hS.minMatch_pos
  have h3 := hS.minMatch_le
  have h4 := hS.filterAt
  have h5 := hS.headResult_eq
  refine ⟨?_, ?_, ?_, ?_, ?_⟩
  · rw [ranges, hf, hr]
    exact h1
  · rwa [hm]
  · rwa [hm, hr]
  · rwa [hfl]
  · rwa [hh, hm]

theorem opened_extends (c : Cursor) : c.Extends (c.opened sets T) := by
  unfold Cursor.opened
  split
  · exact Extends.refl c
  · exact ⟨rfl, ⟨rfl, rfl, rfl, rfl, rfl⟩, List.prefix_refl _⟩

theorem opened_tried (c : Cursor) : (c.opened sets T).tailScanTried = true := by
  unfold Cursor.opened
  split
  · next h => exact h
  · rfl

theorem opened_results (c : Cursor) : (c.opened sets T).results = c.results := by
  unfold Cursor.opened
  split <;> rfl

theorem opened_tailDone (c : Cursor) : (c.opened sets T).tailDone = c.tailDone := by
  unfold Cursor.opened
  split <;> rfl

/-- Opening the scan keeps the state of the results. -/
theorem Paged.opened (hS : c.Serves sets H T) (hP : c.Paged sets H T) (hd : c.tailDone = false)
    (hm : c.minMatch = c.recs.length) : (c.opened sets T).Paged sets H T := by
  have hP' := hP
  cases hP with
  | done hd' _ => rw [hd] at hd'; cases hd'
  | scanning _ scan hs ht _ hh hp hr =>
    rw [Cursor.opened, if_pos ht]
    exact hP'
  | fresh _ hs hr =>
    cases hsc : (c.opened sets T).tailScan with
    | none => exact .fresh (by rw [opened_tailDone]; exact hd) hsc (by
        rw [opened_results, (opened_extends c).query_eq.2.2.1]
        exact hr)
    | some scan =>
      obtain ⟨hh, hp, hr⟩ := Paged.opened_scan hS hP' hd hm hsc
      obtain ⟨hf, hrecs, hmm, hfl, -⟩ := (@opened_extends _ sets T c).query_eq
      refine .scanning (by rw [opened_tailDone]; exact hd) scan hsc (opened_tried c) (by rw [hmm, hrecs, hm])
        ?_ ?_ ?_
      · rw [hf, facetFetch, hfl]
        exact hh
      · rw [hmm, opened_results]
        exact hp
      · rw [hmm, opened_results]
        exact hr
  | lost _ _ ht _ _ _ =>
    rw [Cursor.opened, if_pos ht]
    exact hP'

/-- **One call of `ensure`**: what it leaves when nothing fails, or, when a read failed, a cursor
with more of the tail worked off and the fault's error. -/
theorem ensure_call (hS : c.Serves sets H T) (hP : c.Paged sets H T) (need : Nat)
    (s : Schedule FetchError) :
    (∃ n, (ensure need).call c s = ((.ok (), c.ensured sets T need), s.drop n)) ∨
    ∃ n e c', s.Met n e ∧ (ensure need).call c s = ((.error (.fetch e), c'), s.drop n) ∧
      c.Extends c' ∧ c'.Paged sets H T := by
  unfold ensure ensured
  rw [call_bind, call_get]
  simp only
  split
  · exact Or.inl ⟨0, by simp⟩
  · next hgo =>
    rw [not_or, not_or] at hgo
    have hd : c.tailDone = false := by simpa using hgo.1
    split
    · next hm =>
      rw [call_bind]
      rcases openTailScan_call hS s with ⟨n, hok⟩ | ⟨n, e, he, herr⟩
      · rw [hok]
        simp only [call_bind, call_get]
        have hopen := Paged.opened hS hP hd hm
        cases hsc : (c.opened sets T).tailScan with
        | none =>
          rcases loadWholeTail_call hS.opened (s.drop n) with ⟨m, hm'⟩ | ⟨m, e, he, hm'⟩
          · exact Or.inl ⟨n + m, by rw [hm', Schedule.drop_drop]⟩
          · exact Or.inr ⟨n + m, e, _, he.of_drop, by rw [hm', Schedule.drop_drop], opened_extends c, hopen⟩
        | some scan =>
          obtain ⟨hh, hp, hr⟩ := Paged.opened_scan hS hP hd hm hsc
          obtain ⟨hf, hrecs, hmm, hfl, hhead⟩ := (@opened_extends _ sets T c).query_eq
          have hh' : scan.Holds (c.opened sets T).fetch (c.opened sets T).facetFetch sets T := by
            rw [hf, facetFetch, hfl]
            exact hh
          rcases @scanTail_call _ _ _ need _ hS.sets_ne_nil _ hh' (s.drop n) with
            ⟨m, hm'⟩ | ⟨m, e, out, he, hm', hpre, hq⟩
          · exact Or.inl ⟨n + m, by rw [hm', Schedule.drop_drop]⟩
          · rw [opened_results] at hpre hq
            refine Or.inr ⟨n + m, e, _, he.of_drop, by rw [hm', Schedule.drop_drop], ?_, ?_⟩
            · exact ⟨(opened_extends c).pos_eq, ⟨hf, hrecs, hmm, hfl, hhead⟩, hpre⟩
            · refine .lost (by rw [← hd]; exact opened_tailDone c) rfl (opened_tried c)
                (by simp only; rw [hmm, hrecs, hm]) ?_ ?_
              · simp only
                rw [hmm]
                exact hp.trans hpre
              · simp only
                rw [hmm, ← hr]
                exact hq
      · rw [herr]
        exact Or.inr ⟨n, e, c, he, rfl, Extends.refl c, hP⟩
    · rcases loadWholeTail_call hS s with ⟨n, hok⟩ | ⟨n, e, he, herr⟩
      · exact Or.inl ⟨n, hok⟩
      · exact Or.inr ⟨n, e, c, he, herr, Extends.refl c, hP⟩

end

end Cursor

end

end RoaringRange
