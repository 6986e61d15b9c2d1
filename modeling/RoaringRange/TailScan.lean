import RoaringRange.Posting

/-!
# The windowed tail scan (`posting.rs`)

`TailScan` holds the container directories of a query's postings (and of a facet filter's), and the
candidate buckets: those every posting, and some category of each filter field, has a container for.
`nextWindow` intersects the next few candidate buckets.  A scan whose directories are those of sets
(`Holds`) returns for each window exactly the docs of these buckets in the filtered intersection,
whether or not the cost heuristic reads one posting first:

    Holds … sc → nextWindow settles on (windowResult …, sc moved on)          (settles_nextWindow)
    every tail seekable → open settles on a scan that Holds, else on none     (settles_open)
-/

namespace RoaringRange

open ByteString Faults Slices

/-- `posting::TailDir`. -/
structure TailDir where
  off : Nat
  dir : List Container
  deriving DecidableEq

/-- `posting::TailScan`. -/
structure TailScan where
  trigrams : List TailDir
  facets : List (List TailDir)
  excludes : List TailDir
  keys : List Nat
  pos : Nat

/-- A facet filter as sets: the chosen categories of each included field, and the excluded ones. -/
structure FilterSets where
  fields : List (List Bitmap)
  excludes : List Bitmap

/-- The doc is in one of the sets. -/
def inAny (sets : List Bitmap) (d : Nat) : Bool := sets.any fun S => decide (d ∈ S)

/-- The doc has a chosen category of every included field and no excluded one. -/
def FilterSets.passes (F : FilterSets) (d : Nat) : Bool :=
  F.fields.all (fun cats => inAny cats d) && !inAny F.excludes d

/-- The filtered intersection in the buckets of a window. -/
def windowResult (sets : List Bitmap) (F : FilterSets) (window : List Nat) : Bitmap :=
  (Bitmap.restrict (AscSet.inters sets) window).filter F.passes

section Results

variable {sets : List Bitmap} {F : FilterSets}

theorem mem_windowResult {window : List Nat} {d : Nat} :
    d ∈ windowResult sets F window ↔
      d ∈ AscSet.inters sets ∧ highKey d ∈ window ∧ F.passes d = true := by
  simp only [windowResult, AscSet.mem_filter, Bitmap.mem_restrict, and_assoc]

/-- No bucket, no doc. -/
theorem restrict_nil (S : Bitmap) : S.restrict [] = ∅ := by
  refine AscSet.isEmpty_iff.mp (AscSet.isEmpty_iff_forall.mpr fun d hd => ?_)
  rw [Bitmap.mem_restrict] at hd
  simp at hd

theorem windowResult_nil : windowResult sets F [] = ∅ := by
  refine AscSet.isEmpty_iff.mp (AscSet.isEmpty_iff_forall.mpr fun d hd => ?_)
  rw [mem_windowResult] at hd
  simp at hd

/-- Buckets scanned one part after the other give the docs one part after the other. -/
theorem windowResult_append {w₁ w₂ : List Nat} (h : (w₁ ++ w₂).Pairwise (· < ·)) :
    (windowResult sets F w₁).toList ++ (windowResult sets F w₂).toList =
      (windowResult sets F (w₁ ++ w₂)).toList := by
  refine AscSet.toList_append (fun x hx y hy => ?_) fun d => ?_
  · have hkey := (List.pairwise_append.mp h).2.2 _ (mem_windowResult.mp hx).2.1 _ (mem_windowResult.mp hy).2.1
    by_contra hle
    exact absurd (highKey_mono (not_lt.mp hle)) (not_le.mpr hkey)
  · simp only [mem_windowResult, List.mem_append]
    tauto

theorem take_window (keys : List Nat) (pos batch : Nat) :
    (keys.drop pos).take (min (pos + batch) keys.length - pos) = (keys.drop pos).take batch := by
  rcases Nat.le_total (pos + batch) keys.length with h | h
  · rw [Nat.min_eq_left h, Nat.add_sub_cancel_left]
  · rw [Nat.min_eq_right h, List.take_of_length_le (by simp), List.take_of_length_le (by simp; omega)]

theorem mem_unions_restrict {window : List Nat} {d : Nat} (hd : highKey d ∈ window) :
    d ∈ AscSet.unions (sets.map fun S => S.restrict window) ↔ inAny sets d = true := by
  simp only [AscSet.mem_unions, List.mem_map, inAny, List.any_eq_true, decide_eq_true_eq]
  constructor
  · rintro ⟨_, ⟨S, hS, rfl⟩, hdS⟩
    exact ⟨S, hS, (Bitmap.mem_restrict.mp hdS).1⟩
  · rintro ⟨S, hS, hdS⟩
    exact ⟨_, ⟨S, hS, rfl⟩, Bitmap.mem_restrict.mpr ⟨hdS, hd⟩⟩

end Results

/-- `TailScan::exhausted`. -/
def TailScan.exhausted (sc : TailScan) : Bool := decide (sc.keys.length ≤ sc.pos)

/-- The scan after `batch` more buckets. -/
def TailScan.advance (sc : TailScan) (batch : Nat) : TailScan :=
  { sc with pos := min (sc.pos + batch) sc.keys.length }

/-- The docs the scan has still to find. -/
def TailScan.remaining (sets : List Bitmap) (F : FilterSets) (sc : TailScan) : Bitmap :=
  windowResult sets F (sc.keys.drop sc.pos)

theorem TailScan.remaining_exhausted {sets : List Bitmap} {F : FilterSets} {sc : TailScan} (h : sc.exhausted = true) :
    sc.remaining sets F = ∅ := by
  have hpos : sc.keys.length ≤ sc.pos := by simpa [TailScan.exhausted] using h
  rw [TailScan.remaining, List.drop_of_length_le hpos, windowResult_nil]

/-- `facet_fetch.ok_or(..)`. -/
def facetFetcher (ff : Option MemoryFetch) : Except IndexError MemoryFetch :=
  match ff with
  | some f => .ok f
  | none => .error (.badQuery "facet fetcher required for a filtered tail scan")

theorem facetFetcher_eq {ff : Option MemoryFetch} {g : MemoryFetch} {α : Type} {xs : List α} (hg : ff = some g ∨ xs = [])
    (hne : xs.isEmpty = false) : facetFetcher ff = .ok g := by
  rcases hg with hg | hg
  · rw [hg, facetFetcher]
  · rw [hg] at hne
    cases hne

/-! ## Directories -/

/-- Puts the headers read again in place of the ones the prefix cut short. -/
def patchHeaders : List Bytes → List Nat → List Bytes → List Bytes
  | h :: hs, n :: ns, rs =>
    if n ≤ h.length then h :: patchHeaders hs ns rs
    else
      match rs with
      | r :: rs' => r :: patchHeaders hs ns rs'
      | [] => h :: patchHeaders hs ns []
  | hs, _, _ => hs

/-- `posting::open_tail_dirs`; `none` when some posting is not seekable. -/
def openTailDirs (f : MemoryFetch) (tails : List (Nat × Nat)) : Io (Option (List TailDir)) := do
  let headers ← tryAll (tails.map fun t => f.read t.1 (min t.2 headerPrefix))
  match headers.mapM neededHeaderLen with
  | none => pure none
  | some needed => do
    let refetch := (tails.zip (headers.zip needed)).filter fun x => decide (¬ x.2.2 ≤ x.2.1.length)
    let again ← tryAll (refetch.map fun x => f.read x.1.1 x.2.2)
    let headers := patchHeaders headers needed again
    pure ((tails.zip headers).mapM fun x => (parseDir x.2 x.1.2).map (TailDir.mk x.1.1))

/-- The key sequence of a directory. -/
def TailDir.keys (d : TailDir) : List Nat := d.dir.map Container.key

/-- `posting::candidate_keys`. -/
def candidateKeys (dirs : List TailDir) : List Nat :=
  match sortByKey (fun d => d.dir.length) dirs with
  | [] => []
  | d :: ds => ds.foldl (fun keys d => keys.filter fun k => found d.keys k) d.keys

/-- `posting::union_keys`. -/
def unionKeys (field : List TailDir) : List Nat :=
  (sortByKey id (field.flatMap TailDir.keys)).dedup

/-- `posting::window_cost`. -/
def windowCost (d : TailDir) (window : List Nat) : Nat :=
  ((d.dir.filter fun c => found window c.key).map Container.len).sum

/-- `posting::SEED_COST_RATIO`. -/
def seedCostRatio : Nat := 4

/-- Every range of every field is seekable. -/
def AllSeekable (g : MemoryFetch) (fields : List (List (Nat × Nat))) : Prop :=
  ∀ field ∈ fields, ∀ t ∈ field, Seekable g t.1 t.2

theorem allSeekable_cons {g : MemoryFetch} {field : List (Nat × Nat)} {fields : List (List (Nat × Nat))} :
    AllSeekable g (field :: fields) ↔ (∀ t ∈ field, Seekable g t.1 t.2) ∧ AllSeekable g fields :=
  List.forall_mem_cons

instance (g : MemoryFetch) (fields : List (List (Nat × Nat))) : Decidable (AllSeekable g fields) :=
  inferInstanceAs (Decidable (∀ field ∈ fields, ∀ t ∈ field, Seekable g t.1 t.2))

/-- The first index with the least cost. -/
def minIndex (costs : List Nat) : Nat :=
  (List.range costs.length).foldl
    (fun best i => if costs.getD i 0 < costs.getD best 0 then i else best) 0

theorem minIndex_lt {costs : List Nat} (h : costs ≠ []) : minIndex costs < costs.length := by
  have hfold : ∀ (is : List Nat) (best : Nat), (∀ i ∈ is, i < costs.length) → best < costs.length →
      is.foldl (fun best i => if costs.getD i 0 < costs.getD best 0 then i else best) best < costs.length := by
    intro is
    induction is with
    | nil => exact fun _ _ hb => hb
    | cons i is ih =>
      intro best his hb
      refine ih _ (fun j hj => his j (by simp [hj])) ?_
      simp only
      split
      · exact his i (by simp)
      · exact hb
  exact hfold _ 0 (fun i hi => List.mem_range.mp hi) (List.length_pos_iff.mpr h)

/-- The outcomes of a wave in order: an error, `none` at the first empty bitmap, or all bitmaps. -/
def takeNonEmpty : List (Except IndexError Bitmap) → Except IndexError (Option (List Bitmap))
  | [] => .ok (some [])
  | .error e :: _ => .error e
  | .ok b :: rs =>
    if b.isEmpty then .ok none
    else
      match takeNonEmpty rs with
      | .error e => .error e
      | .ok none => .ok none
      | .ok (some bs) => .ok (some (b :: bs))

theorem agrees_takeNonEmpty {F : FetchError → Prop} {os rs : List (Except IndexError Bitmap)}
    (h : List.Forall₂ (Agrees F) os rs) : Agrees F (takeNonEmpty os) (takeNonEmpty rs) := by
  induction h with
  | nil => exact Or.inl rfl
  | @cons o r os rs ho _ ih =>
    rcases ho with rfl | ⟨e, he, rfl⟩
    · cases o with
      | error e => exact Or.inl rfl
      | ok b =>
        simp only [takeNonEmpty]
        split
        · exact Or.inl rfl
        · rcases ih with ih | ⟨e, he, ih⟩
          · rw [ih]
            exact Or.inl rfl
          · rw [ih]
            exact Or.inr ⟨e, he, rfl⟩
    · exact Or.inr ⟨e, he, rfl⟩

theorem takeNonEmpty_ok (bs : List Bitmap) :
    takeNonEmpty (bs.map Except.ok) = .ok (if ∃ b ∈ bs, b.isEmpty = true then none else some bs) := by
  induction bs with
  | nil => rfl
  | cons b bs ih =>
    simp only [List.map_cons, takeNonEmpty, List.exists_mem_cons_iff]
    by_cases hb : b.isEmpty = true
    · simp [hb]
    · rw [ih]
      by_cases hbs : ∃ b ∈ bs, b.isEmpty = true <;> simp [hb, hbs]

section

variable [Roaring]

/-- `posting::read_dir_subset`. -/
def readDirSubset (f : MemoryFetch) (d : TailDir) (keys : List Nat) : Io Bitmap :=
  fetchContainers f d.off (d.dir.filter fun c => found keys c.key)

/-- The wave over every posting but the seed, and the intersection with the seed's docs. -/
def intersectWave (f : MemoryFetch) (dirs : List TailDir) (keys : List Nat) (seed : List Bitmap) :
    Io Bitmap := do
  let bms ← joinAll (dirs.map fun d => readDirSubset f d keys) >>= fun rs => ofOutcome (takeNonEmpty rs)
  match bms with
  | none => pure ∅
  | some bms => pure (AscSet.inters (AscSet.sortByLen (bms ++ seed)))

/-- The wave over every posting but the seed, which is read first. -/
def seededWave (f : MemoryFetch) (dirs : List TailDir) (window : List Nat) (seed : Nat) : Io Bitmap := do
  let acc ← readDirSubset f (dirs.getD seed ⟨0, []⟩) window
  if acc.isEmpty then pure ∅
  else intersectWave f (dirs.eraseIdx seed) (distinctHighKeys acc) [acc]

/-- `posting::intersect_key_window`. -/
def intersectKeyWindow (f : MemoryFetch) (dirs : List TailDir) (window : List Nat) : Io Bitmap :=
  if dirs.isEmpty ∨ window.isEmpty then pure ∅
  else
    let costs := dirs.map fun d => windowCost d window
    let seed := minIndex costs
    let densest := costs.foldl max 0
    if 1 < dirs.length ∧ min (costs.getD seed 0 * seedCostRatio) usizeMax ≤ densest then do
      let acc ← readDirSubset f (dirs.getD seed ⟨0, []⟩) window
      if acc.isEmpty then pure ∅
      else intersectWave f (dirs.eraseIdx seed) (distinctHighKeys acc) [acc]
    else intersectWave f dirs window []

/-- The category-OR of one field, or of the excludes, over a window. -/
def orWindow (f : MemoryFetch) (cats : List TailDir) (window : List Nat) : Io Bitmap := do
  let bms ← tryAll (cats.map fun cat => readDirSubset f cat window)
  pure (AscSet.unions bms)

/-- ANDs the filter's fields into `bm`, stopping when nothing is left. -/
def andFields (f : MemoryFetch) (window : List Nat) (bm : Bitmap) : List (List TailDir) → Io Bitmap
  | [] => pure bm
  | field :: fields =>
    if bm.isEmpty then pure bm
    else do
      let fieldBm ← orWindow f field window
      andFields f window (bm ∩ fieldBm) fields

/-- The facet filter's part of a window. -/
def andFacets (ff : Option MemoryFetch) (window : List Nat) (bm : Bitmap)
    (facets : List (List TailDir)) : Io Bitmap :=
  if facets.isEmpty then pure bm
  else do
    let f ← ofOutcome (facetFetcher ff)
    andFields f window bm facets

/-- The excludes' part of a window. -/
def dropExcluded (ff : Option MemoryFetch) (window : List Nat) (bm : Bitmap) (excludes : List TailDir) :
    Io Bitmap :=
  if excludes.isEmpty ∨ bm.isEmpty then pure bm
  else do
    let f ← ofOutcome (facetFetcher ff)
    let x ← orWindow f excludes window
    pure (bm \ x)

/-- `TailScan::next_window`: the surviving docs of the next `batch` buckets, and the scan after. -/
def TailScan.nextWindow (sc : TailScan) (f : MemoryFetch) (ff : Option MemoryFetch) (batch : Nat) :
    Io (Bitmap × TailScan) :=
  if sc.exhausted then pure (∅, sc)
  else do
    let «end» := min (sc.pos + batch) sc.keys.length
    let window := (sc.keys.drop sc.pos).take («end» - sc.pos)
    let bm ← intersectKeyWindow f sc.trigrams window
    let bm ← andFacets ff window bm sc.facets
    let bm ← dropExcluded ff window bm sc.excludes
    pure (bm, { sc with pos := «end» })

/-- `nextWindow` over any way to intersect the postings in a window. -/
def TailScan.nextWindowWith (sc : TailScan) (intersect : List TailDir → List Nat → Io Bitmap)
    (ff : Option MemoryFetch) (batch : Nat) : Io (Bitmap × TailScan) :=
  if sc.exhausted then pure (∅, sc)
  else do
    let «end» := min (sc.pos + batch) sc.keys.length
    let window := (sc.keys.drop sc.pos).take («end» - sc.pos)
    let bm ← intersect sc.trigrams window
    let bm ← andFacets ff window bm sc.facets
    let bm ← dropExcluded ff window bm sc.excludes
    pure (bm, { sc with pos := «end» })

theorem TailScan.nextWindow_eq (sc : TailScan) (f : MemoryFetch) (ff : Option MemoryFetch) (batch : Nat) :
    sc.nextWindow f ff batch = sc.nextWindowWith (intersectKeyWindow f) ff batch := rfl

/-- Opens the directories of each field in turn; `none` at the first that is not seekable. -/
def openFields (ff : Option MemoryFetch) : List (List (Nat × Nat)) → Io (Option (List (List TailDir)))
  | [] => pure (some [])
  | field :: fields => do
    let f ← ofOutcome (facetFetcher ff)
    let dirs ← openTailDirs f field
    match dirs with
    | none => pure none
    | some d => do
      let rest ← openFields ff fields
      pure (rest.map (d :: ·))

/-- Opens the directories of the excluded categories. -/
def openExcludes (ff : Option MemoryFetch) (excludeRanges : List (Nat × Nat)) :
    Io (Option (List TailDir)) :=
  if excludeRanges.isEmpty then pure (some [])
  else do
    let f ← ofOutcome (facetFetcher ff)
    openTailDirs f excludeRanges

/-- Keeps the keys every field has, field by field, stopping when none is left. -/
def retainFields (keys : List Nat) : List (List TailDir) → List Nat
  | [] => keys
  | field :: fields =>
    if keys.isEmpty then keys
    else retainFields (keys.filter fun k => found (unionKeys field) k) fields

/-- `TailScan::open`. -/
def TailScan.open (f : MemoryFetch) (tails : List (Nat × Nat)) (ff : Option MemoryFetch)
    (facetFields : List (List (Nat × Nat))) (excludeRanges : List (Nat × Nat)) (minKey : Nat) :
    Io (Option TailScan) := do
  let trigrams ← openTailDirs f tails
  match trigrams with
  | none => pure none
  | some trigrams => do
    let facets ← openFields ff facetFields
    match facets with
    | none => pure none
    | some facets => do
      let excludes ← openExcludes ff excludeRanges
      match excludes with
      | none => pure none
      | some excludes =>
        let keys := (candidateKeys trigrams).filter fun k => decide (minKey ≤ k)
        pure (some ⟨trigrams, facets, excludes, retainFields keys facets, 0⟩)

/-! ## Directories of sets -/

/-- The directory of a seekable posting of `S`. -/
def dirOf (t : Nat × Nat) (S : Bitmap) : TailDir :=
  ⟨t.1, dirFrom (dataStart (containersOf S)) (containersOf S)⟩

/-- `d` is the directory of a seekable posting of `S` in the file. -/
def DirOf (f : MemoryFetch) (d : TailDir) (S : Bitmap) : Prop :=
  ∃ len, PostingAt f d.off len S ∧ Seekable f d.off len ∧ d = dirOf (d.off, len) S

theorem keys_containersOf (S : Bitmap) :
    (containersOf S).map FramedContainer.key = distinctHighKeys S := by
  simp [containersOf, containersWith, Function.comp_def]

theorem DirOf.keys_eq {f : MemoryFetch} {d : TailDir} {S : Bitmap} (h : DirOf f d S) :
    d.keys = distinctHighKeys S := by
  obtain ⟨len, -, -, hd⟩ := h
  rw [hd, TailDir.keys, dirOf, keys_dirFrom, keys_containersOf]

theorem settles_readDirSubset {f : MemoryFetch} {d : TailDir} {S : Bitmap} (h : DirOf f d S)
    {keys : List Nat} (hk : keys.Pairwise (· < ·)) :
    Settles (readDirSubset f d keys) (.ok (S.restrict keys)) := by
  obtain ⟨len, hp, hs, hd⟩ := h
  rw [readDirSubset, hd]
  exact settles_fetchContainers hp hs hk

/-- A wave of subset reads, one per directory. -/
theorem settles_readDirs {f : MemoryFetch} {dirs : List TailDir} {sets : List Bitmap}
    (h : List.Forall₂ (DirOf f) dirs sets) {keys : List Nat} (hk : keys.Pairwise (· < ·)) :
    List.Forall₂ Settles (dirs.map fun d => readDirSubset f d keys)
      ((sets.map fun S => S.restrict keys).map Except.ok) := by
  rw [List.map_map, List.forall₂_map_left_iff, List.forall₂_map_right_iff]
  exact h.imp fun d S hd => settles_readDirSubset hd hk

section Open

variable {f : MemoryFetch}

theorem patchHeaders_eq {tails : List (Nat × Nat)} {sets : List Bitmap}
    (h : PostingsAt f tails sets) :
    patchHeaders (tails.map fun t => slice f.bytes t.1 (min t.2 headerPrefix))
      (sets.map fun S => dataStart (containersOf S))
      (((tails.zip ((tails.map fun t => slice f.bytes t.1 (min t.2 headerPrefix)).zip
        (sets.map fun S => dataStart (containersOf S)))).filter
          fun x => decide (¬ x.2.2 ≤ x.2.1.length)).map fun x => slice f.bytes x.1.1 x.2.2) =
      List.zipWith (fun t S =>
        slice f.bytes t.1 (max (min t.2 headerPrefix) (dataStart (containersOf S)))) tails sets := by
  induction h with
  | nil => rfl
  | @cons t S tails sets ht _ ih =>
    have hlen : (slice f.bytes t.1 (min t.2 headerPrefix)).length = min t.2 headerPrefix := by
      have := ht.inFile.2.2
      exact length_slice _ _ _ (by omega)
    simp only [List.map_cons, List.zip_cons_cons, List.filter_cons, List.zipWith_cons_cons, patchHeaders]
    by_cases hle : dataStart (containersOf S) ≤ (slice f.bytes t.1 (min t.2 headerPrefix)).length
    · simp only [hle, not_true_eq_false, decide_false, Bool.false_eq_true, if_false, if_true, ih]
      rw [hlen] at hle
      rw [Nat.max_eq_left hle]
    · simp only [hle, not_false_eq_true, decide_true, if_true, if_false, List.map_cons, ih]
      rw [hlen] at hle
      rw [Nat.max_eq_right (by omega)]

theorem parseDirs_eq {tails : List (Nat × Nat)} {sets : List Bitmap} (h : PostingsAt f tails sets)
    (hs : ∀ t ∈ tails, Seekable f t.1 t.2) :
    ((tails.zip (List.zipWith (fun t S =>
      slice f.bytes t.1 (max (min t.2 headerPrefix) (dataStart (containersOf S)))) tails sets)).mapM
        fun x => (parseDir x.2 x.1.2).map (TailDir.mk x.1.1)) =
      some (List.zipWith dirOf tails sets) := by
  induction h with
  | nil => rfl
  | @cons t S tails sets ht _ ih =>
    have hseek := hs t (by simp)
    have hd : dataStart (containersOf S) ≤ t.2 := by
      rw [← ht.length_portable hseek]
      exact dataStart_le_length S
    have hparse := ht.parseDir_eq hseek
      (n := max (min t.2 headerPrefix) (dataStart (containersOf S))) (by omega) (by omega)
    simp only [List.zipWith_cons_cons, List.zip_cons_cons, List.mapM_cons, hparse, Option.map_some,
      ih fun u hu => hs u (by simp [hu])]
    rfl

theorem dirOf_forall₂ {tails : List (Nat × Nat)} {sets : List Bitmap} (h : PostingsAt f tails sets)
    (hs : ∀ t ∈ tails, Seekable f t.1 t.2) :
    List.Forall₂ (DirOf f) (List.zipWith dirOf tails sets) sets := by
  induction h with
  | nil => exact List.Forall₂.nil
  | @cons t S tails sets ht _ ih =>
    exact List.Forall₂.cons ⟨t.2, ht, hs t (by simp), rfl⟩ (ih fun u hu => hs u (by simp [hu]))

theorem neededHeaderLens_some {tails : List (Nat × Nat)} {sets : List Bitmap}
    (h : PostingsAt f tails sets) (hs : ∀ t ∈ tails, Seekable f t.1 t.2) :
    (tails.map fun t => slice f.bytes t.1 (min t.2 headerPrefix)).mapM neededHeaderLen =
      some (sets.map fun S => dataStart (containersOf S)) := by
  induction h with
  | nil => rfl
  | @cons t S tails sets ht _ ih =>
    have hn := ht.neededHeaderLen_eq (n := min t.2 headerPrefix) (by omega)
      (by simp only [headerPrefix]; omega)
    rw [if_pos (hs t (by simp))] at hn
    simp only [List.map_cons, List.mapM_cons, hn, ih fun u hu => hs u (by simp [hu])]
    rfl

theorem neededHeaderLens_none {tails : List (Nat × Nat)} {sets : List Bitmap}
    (h : PostingsAt f tails sets) (hs : ¬ ∀ t ∈ tails, Seekable f t.1 t.2) :
    (tails.map fun t => slice f.bytes t.1 (min t.2 headerPrefix)).mapM neededHeaderLen = none := by
  push Not at hs
  obtain ⟨t, ht, hns⟩ := hs
  refine mapM_none ⟨_, List.mem_map_of_mem ht, ?_⟩
  obtain ⟨S, -, hp⟩ := h.exists_set ht
  have hn := hp.neededHeaderLen_eq (n := min t.2 headerPrefix) (Nat.min_le_left _ _)
    (by simp only [headerPrefix]; omega)
  rw [if_neg hns] at hn
  exact hn

/-- The directories of all postings, or `none` when one is not seekable. -/
theorem settles_openTailDirs {tails : List (Nat × Nat)} {sets : List Bitmap}
    (h : PostingsAt f tails sets) :
    Settles (openTailDirs f tails)
      (.ok (if ∀ t ∈ tails, Seekable f t.1 t.2 then some (List.zipWith dirOf tails sets) else none)) := by
  refine Settles.bind (settles_tryAll_map (g := fun t => slice f.bytes t.1 (min t.2 headerPrefix)) ?_) ?_
  · intro t ht
    obtain ⟨S, -, hp⟩ := h.exists_set ht
    exact MemoryFetch.settles_read (hp.inFile.mono (by omega))
  by_cases hs : ∀ t ∈ tails, Seekable f t.1 t.2
  · rw [neededHeaderLens_some h hs, if_pos hs]
    refine Settles.bind (settles_tryAll_map (g := fun x : (Nat × Nat) × Bytes × Nat =>
      slice f.bytes x.1.1 x.2.2) ?_) ?_
    · intro x hx
      have hmem := (List.mem_filter.mp hx).1
      obtain ⟨i, hi, rfl⟩ := List.getElem_of_mem hmem
      have hit : i < tails.length := by
        simp only [List.length_zip, List.length_map] at hi
        omega
      have his : i < sets.length := by rw [← h.length_eq]; exact hit
      have hp := h.getElem hit his
      have hd := dataStart_le_length sets[i]
      rw [hp.length_portable (hs _ (List.getElem_mem hit))] at hd
      simp only [List.getElem_zip, List.getElem_map]
      exact MemoryFetch.settles_read (hp.inFile.mono (by omega))
    · simp only [patchHeaders_eq h, parseDirs_eq h hs]
      exact Settles.pure _
  · rw [neededHeaderLens_none h hs, if_neg hs]
    exact Settles.pure _

end Open

/-! ## One window -/

section Window

variable {f : MemoryFetch}

/-- The wave finds what all its postings and the seed have in common in the buckets asked for. -/
theorem settles_intersectWave {dirs : List TailDir} {sets seed : List Bitmap}
    (h : List.Forall₂ (DirOf f) dirs sets) {keys : List Nat} (hk : keys.Pairwise (· < ·))
    (hne : sets ≠ [] ∨ seed ≠ []) :
    Settles (intersectWave f dirs keys seed)
      (.ok (AscSet.inters (sets.map (fun S => S.restrict keys) ++ seed))) := by
  have hne' : sets.map (fun S => S.restrict keys) ++ seed ≠ [] := by
    intro hnil
    rw [List.append_eq_nil_iff, List.map_eq_nil_iff] at hnil
    rcases hne with hne | hne
    · exact hne hnil.1
    · exact hne hnil.2
  have hwave := Settles.joinAll_consume (settles_readDirs h hk) fun _ _ => agrees_takeNonEmpty
  rw [takeNonEmpty_ok] at hwave
  refine hwave.bind ?_
  split
  · next hempty =>
    split at hempty
    · next hex =>
      obtain ⟨b, hb, hbe⟩ := hex
      have : AscSet.inters (sets.map (fun S => S.restrict keys) ++ seed) = ∅ := by
        refine AscSet.isEmpty_iff.mp (AscSet.isEmpty_iff_forall.mpr fun d hd => ?_)
        exact AscSet.isEmpty_iff_forall.mp hbe d
          ((AscSet.mem_inters hne').mp hd b (List.mem_append_left _ hb))
      rw [this]
      exact Settles.pure _
    · cases hempty
  · next bms hsome =>
    split at hsome
    · cases hsome
    · obtain rfl := Option.some.inj hsome
      rw [AscSet.inters_sortByLen]
      exact Settles.pure _

/-- Any posting may be read first. -/
theorem settles_seededWave {dirs : List TailDir} {sets : List Bitmap} (h : List.Forall₂ (DirOf f) dirs sets)
    {window : List Nat} (hw : window.Pairwise (· < ·)) {seed : Nat} (hlt : seed < dirs.length) :
    Settles (seededWave f dirs window seed) (.ok (Bitmap.restrict (AscSet.inters sets) window)) := by
  have hlt' : seed < sets.length := by rw [← h.length_eq]; exact hlt
  have hne : sets ≠ [] := List.length_pos_iff.mp (Nat.zero_lt_of_lt hlt')
  have hacc : Settles (readDirSubset f (dirs.getD seed ⟨0, []⟩) window)
      (.ok (sets[seed].restrict window)) := by
    rw [List.getD_eq_getElem _ _ hlt]
    exact settles_readDirSubset ((List.forall₂_iff_get.mp h).2 seed hlt hlt') hw
  refine hacc.bind ?_
  split
  · next hempty =>
    have : Bitmap.restrict (AscSet.inters sets) window = ∅ := by
      refine AscSet.isEmpty_iff.mp (AscSet.isEmpty_iff_forall.mpr fun d hd => ?_)
      rw [Bitmap.mem_restrict, AscSet.mem_inters hne] at hd
      exact AscSet.isEmpty_iff_forall.mp hempty d
        (Bitmap.mem_restrict.mpr ⟨hd.1 _ (List.getElem_mem hlt'), hd.2⟩)
    rw [this]
    exact Settles.pure _
  · have hwave := @settles_intersectWave _ _ _ _ [sets[seed].restrict window] (forall₂_eraseIdx h seed)
      _ (distinctHighKeys_asc (sets[seed].restrict window)) (Or.inr (by simp))
    have heq : AscSet.inters ((sets.eraseIdx seed).map (fun S =>
        S.restrict (distinctHighKeys (sets[seed].restrict window))) ++ [sets[seed].restrict window]) =
        Bitmap.restrict (AscSet.inters sets) window := by
      refine AscSet.ext_mem fun d => ?_
      rw [AscSet.mem_inters (by simp), Bitmap.mem_restrict, AscSet.mem_inters hne,
        forall_mem_iff_eraseIdx hlt']
      simp only [List.forall_mem_append, List.forall_mem_map, List.forall_mem_singleton,
        Bitmap.mem_restrict]
      constructor
      · rintro ⟨hrest, hd, hdw⟩
        exact ⟨⟨hd, fun S hS => (hrest S hS).1⟩, hdw⟩
      · rintro ⟨⟨hd, hrest⟩, hdw⟩
        refine ⟨fun S hS => ⟨hrest S hS, ?_⟩, hd, hdw⟩
        exact mem_distinctHighKeys.mpr ⟨d, Bitmap.mem_restrict.mpr ⟨hd, hdw⟩, rfl⟩
    rw [← heq]
    exact hwave

/-- All postings may be read in one wave. -/
theorem settles_oneWave {dirs : List TailDir} {sets : List Bitmap} (h : List.Forall₂ (DirOf f) dirs sets)
    (hne : sets ≠ []) {window : List Nat} (hw : window.Pairwise (· < ·)) :
    Settles (intersectWave f dirs window []) (.ok (Bitmap.restrict (AscSet.inters sets) window)) := by
  have hwave := @settles_intersectWave _ _ _ _ [] h _ hw (Or.inl hne)
  have heq : AscSet.inters (sets.map (fun S => S.restrict window) ++ []) =
      Bitmap.restrict (AscSet.inters sets) window := by
    refine AscSet.ext_mem fun d => ?_
    rw [List.append_nil, AscSet.mem_inters (by simpa using hne), Bitmap.mem_restrict,
      AscSet.mem_inters hne, List.forall_mem_map]
    simp only [Bitmap.mem_restrict]
    constructor
    · intro hall
      obtain ⟨S, hS⟩ := List.exists_mem_of_ne_nil _ hne
      exact ⟨fun S hS => (hall S hS).1, (hall S hS).2⟩
    · rintro ⟨hall, hdw⟩ S hS
      exact ⟨hall S hS, hdw⟩
  rw [← heq]
  exact hwave

/-- **One window's intersection**, seeded or not, is the postings' intersection in its buckets. -/
theorem settles_intersectKeyWindow {dirs : List TailDir} {sets : List Bitmap}
    (h : List.Forall₂ (DirOf f) dirs sets) (hne : sets ≠ []) {window : List Nat}
    (hw : window.Pairwise (· < ·)) :
    Settles (intersectKeyWindow f dirs window) (.ok (Bitmap.restrict (AscSet.inters sets) window)) := by
  have hdirs : dirs ≠ [] := by
    intro hnil
    rw [hnil] at h
    exact hne (List.forall₂_nil_left_iff.mp h)
  unfold intersectKeyWindow
  split
  · next hempty =>
    have hw' : window = [] := by
      rcases hempty with hd | hw'
      · exact absurd (List.isEmpty_iff.mp hd) hdirs
      · exact List.isEmpty_iff.mp hw'
    rw [hw', restrict_nil]
    exact Settles.pure _
  · simp only
    split
    · have hlt : minIndex (dirs.map fun d => windowCost d window) < dirs.length := by
        have := @minIndex_lt (dirs.map fun d => windowCost d window) (by simpa using hdirs)
        simpa using this
      exact settles_seededWave h hw hlt
    · exact settles_oneWave h hne hw

theorem settles_orWindow {cats : List TailDir} {sets : List Bitmap} (h : List.Forall₂ (DirOf f) cats sets)
    {window : List Nat} (hw : window.Pairwise (· < ·)) :
    Settles (orWindow f cats window) (.ok (AscSet.unions (sets.map fun S => S.restrict window))) := by
  have hall := Settles.tryAll (settles_readDirs h hw)
  rw [collect_ok] at hall
  exact hall.map

theorem settles_andFields {dirs : List (List TailDir)} {fields : List (List Bitmap)}
    (h : List.Forall₂ (List.Forall₂ (DirOf f)) dirs fields) {window : List Nat}
    (hw : window.Pairwise (· < ·)) {bm : Bitmap} (hbm : ∀ d ∈ bm, highKey d ∈ window) :
    Settles (andFields f window bm dirs) (.ok (bm.filter fun d => fields.all fun cats => inAny cats d)) := by
  induction h generalizing bm with
  | nil =>
    have : bm.filter (fun d => ([] : List (List Bitmap)).all fun cats => inAny cats d) = bm :=
      AscSet.filter_true bm
    rw [this]
    exact Settles.pure _
  | @cons field cats dirs fields hfield _ ih =>
    unfold andFields
    split
    · next hempty =>
      have : bm.filter (fun d => (cats :: fields).all fun cats => inAny cats d) = bm := by
        refine AscSet.ext_mem fun d => ?_
        have := AscSet.isEmpty_iff_forall.mp hempty d
        rw [AscSet.mem_filter]
        tauto
      rw [this]
      exact Settles.pure _
    · refine (settles_orWindow hfield hw).bind ?_
      have hsub : ∀ d ∈ bm ∩ AscSet.unions (cats.map fun S => S.restrict window), highKey d ∈ window :=
        fun d hd => hbm d (AscSet.mem_inter.mp hd).1
      have heq : (bm ∩ AscSet.unions (cats.map fun S => S.restrict window)).filter
          (fun d => fields.all fun cats => inAny cats d) =
          bm.filter fun d => (cats :: fields).all fun cats => inAny cats d := by
        refine AscSet.ext_mem fun d => ?_
        simp only [AscSet.mem_filter, AscSet.mem_inter, List.all_cons, Bool.and_eq_true, and_assoc]
        exact and_congr_right fun hd => and_congr_left fun _ => mem_unions_restrict (hbm d hd)
      rw [← heq]
      exact ih hsub

end Window

/-! ## Scanning -/

section Scan

variable {f : MemoryFetch} {ff : Option MemoryFetch} {sets : List Bitmap} {F : FilterSets}

/-- The directories of a scan are those of the sets `sets` in the index file and of the filter's in
the facet file, and its candidate buckets are in order. -/
structure TailScan.Holds (f : MemoryFetch) (ff : Option MemoryFetch) (sets : List Bitmap)
    (F : FilterSets) (sc : TailScan) : Prop where
  trigrams : List.Forall₂ (DirOf f) sc.trigrams sets
  facets : ∃ g, (ff = some g ∨ F.fields = [] ∧ F.excludes = []) ∧
    List.Forall₂ (List.Forall₂ (DirOf g)) sc.facets F.fields ∧
    List.Forall₂ (DirOf g) sc.excludes F.excludes
  keys_asc : sc.keys.Pairwise (· < ·)
  pos_le : sc.pos ≤ sc.keys.length

theorem TailScan.Holds.advance {sc : TailScan} (h : sc.Holds f ff sets F) (batch : Nat) :
    (sc.advance batch).Holds f ff sets F :=
  ⟨h.trigrams, h.facets, h.keys_asc, Nat.min_le_right _ _⟩

theorem settles_andFacets {g : MemoryFetch} {facets : List (List TailDir)} {fields : List (List Bitmap)}
    (hg : ff = some g ∨ fields = []) (h : List.Forall₂ (List.Forall₂ (DirOf g)) facets fields)
    {window : List Nat} (hw : window.Pairwise (· < ·)) {bm : Bitmap}
    (hbm : ∀ d ∈ bm, highKey d ∈ window) :
    Settles (andFacets ff window bm facets)
      (.ok (bm.filter fun d => fields.all fun cats => inAny cats d)) := by
  unfold andFacets
  split
  · next hnil =>
    have heq : bm.filter (fun d => fields.all fun cats => inAny cats d) = bm := by
      rw [List.isEmpty_iff.mp hnil] at h
      rw [List.forall₂_nil_left_iff.mp h]
      exact AscSet.filter_true bm
    rw [heq]
    exact Settles.pure _
  · next hcons =>
    have hff : facetFetcher ff = .ok g := by
      refine facetFetcher_eq (hg.imp_right fun h0 => ?_) (by simpa using hcons)
      rw [h0] at h
      exact List.forall₂_nil_right_iff.mp h
    rw [hff]
    exact (Settles.ofOutcome _).bind (settles_andFields h hw hbm)

theorem settles_dropExcluded {g : MemoryFetch} {cats : List TailDir} {excludes : List Bitmap}
    (hg : ff = some g ∨ excludes = []) (h : List.Forall₂ (DirOf g) cats excludes)
    {window : List Nat} (hw : window.Pairwise (· < ·)) {bm : Bitmap}
    (hbm : ∀ d ∈ bm, highKey d ∈ window) :
    Settles (dropExcluded ff window bm cats) (.ok (bm.filter fun d => !inAny excludes d)) := by
  unfold dropExcluded
  split
  · next hnil =>
    have heq : bm.filter (fun d => !inAny excludes d) = bm := by
      refine AscSet.ext_mem fun d => ?_
      rw [AscSet.mem_filter]
      rcases hnil with hnil | hnil
      · rw [List.isEmpty_iff.mp hnil] at h
        rw [List.forall₂_nil_left_iff.mp h]
        simp [inAny]
      · have := AscSet.isEmpty_iff_forall.mp hnil d
        tauto
    rw [heq]
    exact Settles.pure _
  · next hcons =>
    rw [not_or] at hcons
    have hff : facetFetcher ff = .ok g := by
      refine facetFetcher_eq (hg.imp_right fun h0 => ?_) (by simpa using hcons.1)
      rw [h0] at h
      exact List.forall₂_nil_right_iff.mp h
    have heq : bm \ AscSet.unions (excludes.map fun S => S.restrict window) =
        bm.filter fun d => !inAny excludes d := by
      refine AscSet.ext_mem fun d => ?_
      rw [AscSet.mem_sdiff, AscSet.mem_filter]
      refine and_congr_right fun hd => ?_
      rw [mem_unions_restrict (hbm d hd)]
      simp
    rw [hff, ← heq]
    exact (Settles.ofOutcome _).bind ((settles_orWindow h hw).bind (Settles.pure _))

/-- A window returns the filtered intersection in its buckets, however the postings are intersected there. -/
theorem settles_nextWindowWith {sc : TailScan} (h : sc.Holds f ff sets F)
    {intersect : List TailDir → List Nat → Io Bitmap} (hint : ∀ window : List Nat, window.Pairwise (· < ·) →
      Settles (intersect sc.trigrams window) (.ok (Bitmap.restrict (AscSet.inters sets) window))) (batch : Nat) :
    Settles (sc.nextWindowWith intersect ff batch)
      (.ok (windowResult sets F ((sc.keys.drop sc.pos).take batch), sc.advance batch)) := by
  obtain ⟨g, hg, hfacets, hexcl⟩ := h.facets
  unfold TailScan.nextWindowWith
  split
  · next hex =>
    have hpos : sc.pos = sc.keys.length := by
      have h1 : sc.keys.length ≤ sc.pos := by simpa [TailScan.exhausted] using hex
      have h2 := h.pos_le
      omega
    have hadv : sc.advance batch = sc := by
      rw [TailScan.advance, hpos, Nat.min_eq_right (by omega), ← hpos]
    rw [hadv, hpos, List.drop_length, List.take_nil, windowResult_nil]
    exact Settles.pure _
  · simp only
    rw [take_window]
    generalize hwin : (sc.keys.drop sc.pos).take batch = window
    have hw : window.Pairwise (· < ·) := by
      rw [← hwin]
      exact (h.keys_asc.sublist (List.drop_sublist _ _)).sublist (List.take_sublist _ _)
    refine (hint window hw).bind ?_
    generalize hbm : Bitmap.restrict (AscSet.inters sets) window = bm
    have hbm' : ∀ d ∈ bm, highKey d ∈ window := by
      intro d hd
      rw [← hbm] at hd
      exact (Bitmap.mem_restrict.mp hd).2
    refine (settles_andFacets (hg.imp_right And.left) hfacets hw hbm').bind ?_
    generalize hbf : bm.filter (fun d => F.fields.all fun cats => inAny cats d) = bf
    have hbf' : ∀ d ∈ bf, highKey d ∈ window := by
      intro d hd
      rw [← hbf] at hd
      exact hbm' d (AscSet.mem_filter.mp hd).1
    have hfinal : bf.filter (fun d => !inAny F.excludes d) = windowResult sets F window := by
      refine AscSet.ext_mem fun d => ?_
      rw [← hbf, ← hbm, mem_windowResult]
      simp only [AscSet.mem_filter, Bitmap.mem_restrict, FilterSets.passes, Bool.and_eq_true, and_assoc]
    rw [← hfinal]
    exact (settles_dropExcluded (hg.imp_right And.right) hexcl hw hbf').bind (Settles.pure _)

/-- **A window** returns the filtered intersection in its buckets and moves the scan past them. -/
theorem settles_nextWindow {sc : TailScan} (h : sc.Holds f ff sets F) (hne : sets ≠ []) (batch : Nat) :
    Settles (sc.nextWindow f ff batch)
      (.ok (windowResult sets F ((sc.keys.drop sc.pos).take batch), sc.advance batch)) := by
  rw [TailScan.nextWindow_eq]
  exact settles_nextWindowWith h (fun _ hw => settles_intersectKeyWindow h.trigrams hne hw) batch

theorem TailScan.remaining_advance {sc : TailScan} (h : sc.Holds f ff sets F) (batch : Nat) :
    (windowResult sets F ((sc.keys.drop sc.pos).take batch)).toList ++
      ((sc.advance batch).remaining sets F).toList = (sc.remaining sets F).toList := by
  have hdrop : sc.keys.drop (min (sc.pos + batch) sc.keys.length) = (sc.keys.drop sc.pos).drop batch := by
    rw [List.drop_drop]
    rcases Nat.le_total (sc.pos + batch) sc.keys.length with hle | hle
    · rw [Nat.min_eq_left hle]
    · rw [Nat.min_eq_right hle, List.drop_length, List.drop_of_length_le hle]
  rw [TailScan.remaining, TailScan.remaining, TailScan.advance, hdrop, windowResult_append,
    List.take_append_drop]
  rw [List.take_append_drop]
  exact h.keys_asc.sublist (List.drop_sublist _ _)

end Scan

/-! ## Opening a scan -/

section OpenScan

variable {f g : MemoryFetch}

theorem mem_foldl_found {ds : List TailDir} {sets : List Bitmap} (h : List.Forall₂ (DirOf f) ds sets)
    {keys : List Nat} (hk : keys.Pairwise (· < ·)) :
    (ds.foldl (fun keys d => keys.filter fun k => found d.keys k) keys).Pairwise (· < ·) ∧
      ∀ k, k ∈ ds.foldl (fun keys d => keys.filter fun k => found d.keys k) keys ↔
        k ∈ keys ∧ ∀ S ∈ sets, k ∈ distinctHighKeys S := by
  induction h generalizing keys with
  | nil => exact ⟨hk, by simp⟩
  | @cons d S ds sets hd _ ih =>
    obtain ⟨h1, h2⟩ := ih (hk.filter fun k => found d.keys k)
    refine ⟨h1, fun k => ?_⟩
    rw [List.foldl_cons, h2, List.mem_filter, hd.keys_eq, found_iff (distinctHighKeys_asc S),
      List.forall_mem_cons, and_assoc]

/-- The candidate buckets are those every posting has docs in. -/
theorem candidateKeys_spec {dirs : List TailDir} {sets : List Bitmap}
    (h : List.Forall₂ (DirOf f) dirs sets) (hne : sets ≠ []) :
    (candidateKeys dirs).Pairwise (· < ·) ∧
      ∀ k, k ∈ candidateKeys dirs ↔ ∀ S ∈ sets, k ∈ distinctHighKeys S := by
  obtain ⟨sets', hperm, h'⟩ := forall₂_of_perm h (sortByKey_perm (fun d => d.dir.length) dirs)
  have hne' : sets' ≠ [] := fun hnil => hne (List.Perm.nil_eq (hnil ▸ hperm)).symm
  unfold candidateKeys
  generalize sortByKey (fun d : TailDir => d.dir.length) dirs = order at h'
  cases h' with
  | nil => exact absurd rfl hne'
  | @cons d S order sets' hd hrest =>
    obtain ⟨h1, h2⟩ := @mem_foldl_found _ _ _ _ hrest d.keys (by
      rw [hd.keys_eq]
      exact distinctHighKeys_asc S)
    refine ⟨h1, fun k => ?_⟩
    simp only
    rw [h2, hd.keys_eq, ← List.forall_mem_cons (p := fun S => k ∈ distinctHighKeys S)]
    exact ⟨fun hall T hT => hall T (hperm.mem_iff.mpr hT), fun hall T hT => hall T (hperm.mem_iff.mp hT)⟩

theorem mem_unionKeys {field : List TailDir} {cats : List Bitmap}
    (h : List.Forall₂ (DirOf f) field cats) {k : Nat} :
    k ∈ unionKeys field ↔ ∃ S ∈ cats, k ∈ distinctHighKeys S := by
  rw [unionKeys, List.mem_dedup, mem_sortByKey, List.mem_flatMap]
  induction h with
  | nil => simp
  | @cons d S field cats hd _ ih => rw [List.exists_mem_cons_iff, List.exists_mem_cons_iff, ih, hd.keys_eq]

/-- A field drops the buckets that none of its categories has docs in. -/
theorem retainFields_spec {facets : List (List TailDir)} {fields : List (List Bitmap)}
    (h : List.Forall₂ (List.Forall₂ (DirOf g)) facets fields) {keys : List Nat}
    (hk : keys.Pairwise (· < ·)) :
    (retainFields keys facets).Pairwise (· < ·) ∧ ∀ k, k ∈ retainFields keys facets ↔
      k ∈ keys ∧ ∀ cats ∈ fields, ∃ S ∈ cats, k ∈ distinctHighKeys S := by
  induction h generalizing keys with
  | nil => exact ⟨hk, fun k => by simp [retainFields]⟩
  | @cons field cats facets fields hfield _ ih =>
    unfold retainFields
    split
    · next hempty =>
      rw [List.isEmpty_iff.mp hempty]
      exact ⟨List.Pairwise.nil, fun k => by simp⟩
    · obtain ⟨h1, h2⟩ := ih (hk.filter fun k => found (unionKeys field) k)
      refine ⟨h1, fun k => ?_⟩
      have hfound : found (unionKeys field) k = true ↔ ∃ S ∈ cats, k ∈ distinctHighKeys S :=
        (found_iff (sortByKey_dedup_asc _)).trans (mem_unionKeys hfield)
      rw [h2, List.mem_filter, hfound, List.forall_mem_cons, and_assoc]

theorem settles_openFields {ff : Option MemoryFetch} {ranges : List (List (Nat × Nat))}
    {fields : List (List Bitmap)} (hg : ff = some g ∨ ranges = [])
    (h : List.Forall₂ (PostingsAt g) ranges fields) :
    Settles (openFields ff ranges)
      (.ok (if AllSeekable g ranges then some (List.zipWith (List.zipWith dirOf) ranges fields) else none)) := by
  induction h with
  | nil => exact Settles.pure _
  | @cons field cats ranges fields hfield _ ih =>
    have hg' : ff = some g := hg.resolve_right (by simp)
    have hff : facetFetcher ff = .ok g := by rw [hg', facetFetcher]
    unfold openFields
    rw [hff]
    refine (Settles.ofOutcome _).bind ((settles_openTailDirs hfield).bind ?_)
    by_cases hs : ∀ t ∈ field, Seekable g t.1 t.2
    · rw [if_pos hs]
      refine (ih (Or.inl hg')).bind ?_
      by_cases hrest : AllSeekable g ranges
      · rw [if_pos hrest, if_pos (allSeekable_cons.mpr ⟨hs, hrest⟩)]
        exact Settles.pure _
      · rw [if_neg hrest, if_neg fun hall => hrest (allSeekable_cons.mp hall).2]
        exact Settles.pure _
    · rw [if_neg hs, if_neg fun hall => hs (allSeekable_cons.mp hall).1]
      exact Settles.pure _

theorem dirsOf_forall₂ {ranges : List (List (Nat × Nat))} {fields : List (List Bitmap)}
    (h : List.Forall₂ (PostingsAt g) ranges fields) (hs : AllSeekable g ranges) :
    List.Forall₂ (List.Forall₂ (DirOf g)) (List.zipWith (List.zipWith dirOf) ranges fields) fields := by
  induction h with
  | nil => exact List.Forall₂.nil
  | @cons field cats ranges fields hfield _ ih =>
    have hs' := allSeekable_cons.mp hs
    exact List.Forall₂.cons (dirOf_forall₂ hfield hs'.1) (ih hs'.2)

/-- The scan `TailScan.open` builds over seekable postings. -/
def scanOf (tails : List (Nat × Nat)) (sets : List Bitmap) (fieldRanges : List (List (Nat × Nat)))
    (excludeRanges : List (Nat × Nat)) (F : FilterSets) (minKey : Nat) : TailScan :=
  let trigrams := List.zipWith dirOf tails sets
  let facets := List.zipWith (List.zipWith dirOf) fieldRanges F.fields
  ⟨trigrams, facets, List.zipWith dirOf excludeRanges F.excludes,
    retainFields ((candidateKeys trigrams).filter fun k => decide (minKey ≤ k)) facets, 0⟩

variable {ff : Option MemoryFetch} {tails : List (Nat × Nat)} {sets : List Bitmap}
  {fieldRanges : List (List (Nat × Nat))} {excludeRanges : List (Nat × Nat)} {F : FilterSets}

theorem settles_openExcludes {excludes : List Bitmap} (hg : ff = some g ∨ excludeRanges = [])
    (hx : PostingsAt g excludeRanges excludes) :
    Settles (openExcludes ff excludeRanges)
      (.ok (if ∀ t ∈ excludeRanges, Seekable g t.1 t.2 then
        some (List.zipWith dirOf excludeRanges excludes) else none)) := by
  unfold openExcludes
  split
  · next hnil =>
    obtain rfl := List.isEmpty_iff.mp hnil
    exact Settles.pure _
  · next hcons =>
    have hff : facetFetcher ff = .ok g := facetFetcher_eq hg (by simpa using hcons)
    rw [hff]
    exact (Settles.ofOutcome _).bind (settles_openTailDirs hx)

/-- **Opening** gives that scan, or `none` when some posting is not seekable. -/
theorem settles_open (ht : PostingsAt f tails sets)
    (hg : ff = some g ∨ fieldRanges = [] ∧ excludeRanges = [])
    (hf : List.Forall₂ (PostingsAt g) fieldRanges F.fields) (hx : PostingsAt g excludeRanges F.excludes)
    (minKey : Nat) :
    Settles (TailScan.open f tails ff fieldRanges excludeRanges minKey)
      (.ok (if (∀ t ∈ tails, Seekable f t.1 t.2) ∧ AllSeekable g fieldRanges ∧
        (∀ t ∈ excludeRanges, Seekable g t.1 t.2) then
        some (scanOf tails sets fieldRanges excludeRanges F minKey) else none)) := by
  unfold TailScan.open
  refine (settles_openTailDirs ht).bind ?_
  by_cases hst : ∀ t ∈ tails, Seekable f t.1 t.2
  · rw [if_pos hst]
    refine (settles_openFields (hg.imp_right And.left) hf).bind ?_
    by_cases hsf : AllSeekable g fieldRanges
    · rw [if_pos hsf]
      refine (settles_openExcludes (hg.imp_right And.right) hx).bind ?_
      by_cases hsx : ∀ t ∈ excludeRanges, Seekable g t.1 t.2
      · rw [if_pos hsx, if_pos ⟨hst, hsf, hsx⟩]
        exact Settles.pure _
      · rw [if_neg hsx, if_neg fun h => hsx h.2.2]
        exact Settles.pure _
    · rw [if_neg hsf, if_neg fun h => hsf h.2.1]
      exact Settles.pure _
  · rw [if_neg hst, if_neg fun h => hst h.1]
    exact Settles.pure _

/-- The opened scan holds its sets, and what it has to find is the filtered intersection in the
buckets from `minKey` on. -/
theorem scanOf_holds (ht : PostingsAt f tails sets)
    (hg : ff = some g ∨ fieldRanges = [] ∧ excludeRanges = [])
    (hf : List.Forall₂ (PostingsAt g) fieldRanges F.fields) (hx : PostingsAt g excludeRanges F.excludes)
    (hne : sets ≠ []) (hst : ∀ t ∈ tails, Seekable f t.1 t.2) (hsf : AllSeekable g fieldRanges)
    (hsx : ∀ t ∈ excludeRanges, Seekable g t.1 t.2) (minKey : Nat) :
    (scanOf tails sets fieldRanges excludeRanges F minKey).Holds f ff sets F ∧
      ∀ d, d ∈ (scanOf tails sets fieldRanges excludeRanges F minKey).remaining sets F ↔
        d ∈ AscSet.inters sets ∧ F.passes d = true ∧ minKey ≤ highKey d := by
  have htri := dirOf_forall₂ ht hst
  have hfac := dirsOf_forall₂ hf hsf
  obtain ⟨hc1, hc2⟩ := candidateKeys_spec htri hne
  obtain ⟨hr1, hr2⟩ := retainFields_spec hfac (hc1.filter fun k => decide (minKey ≤ k))
  refine ⟨⟨htri, ⟨g, hg.imp_right fun h => ⟨?_, ?_⟩, hfac, dirOf_forall₂ hx hsx⟩, hr1, Nat.zero_le _⟩,
    fun d => ?_⟩
  · rw [h.1] at hf
    exact List.forall₂_nil_left_iff.mp hf
  · rw [h.2] at hx
    exact List.forall₂_nil_left_iff.mp hx
  · rw [TailScan.remaining, mem_windowResult, scanOf, List.drop_zero]
    simp only
    constructor
    · rintro ⟨hd, hkey, hpass⟩
      exact ⟨hd, hpass, of_decide_eq_true (List.mem_filter.mp ((hr2 _).mp hkey).1).2⟩
    · rintro ⟨hd, hpass, hmin⟩
      have hall := (AscSet.mem_inters hne).mp hd
      refine ⟨hd, (hr2 _).mpr ⟨List.mem_filter.mpr ⟨(hc2 _).mpr fun S hS => ?_, decide_eq_true hmin⟩, ?_⟩, hpass⟩
      · exact mem_distinctHighKeys.mpr ⟨d, hall S hS, rfl⟩
      · intro cats hcats
        have hfields : F.fields.all (fun cats => inAny cats d) = true :=
          (Bool.and_eq_true _ _ ▸ hpass : _ ∧ _).1
        have hany := List.all_eq_true.mp hfields cats hcats
        obtain ⟨S, hS, hdS⟩ := List.any_eq_true.mp hany
        exact ⟨S, hS, mem_distinctHighKeys.mpr ⟨d, of_decide_eq_true hdS, rfl⟩⟩

/-- The buckets from `minKey` on that every set has docs in, and some category of every included field. -/
def tailBuckets (sets : List Bitmap) (F : FilterSets) (minKey : Nat) : List Nat :=
  (distinctHighKeys (sets.headD ∅)).filter fun k => decide (minKey ≤ k) &&
    (sets.all (fun S => decide (k ∈ distinctHighKeys S)) &&
      F.fields.all fun cats => cats.any fun S => decide (k ∈ distinctHighKeys S))

/-- The opened scan goes through these buckets. -/
theorem keys_scanOf (ht : PostingsAt f tails sets) (hf : List.Forall₂ (PostingsAt g) fieldRanges F.fields)
    (hne : sets ≠ []) (hst : ∀ t ∈ tails, Seekable f t.1 t.2) (hsf : AllSeekable g fieldRanges) (minKey : Nat) :
    (scanOf tails sets fieldRanges excludeRanges F minKey).keys = tailBuckets sets F minKey := by
  obtain ⟨hc1, hc2⟩ := candidateKeys_spec (dirOf_forall₂ ht hst) hne
  obtain ⟨hr1, hr2⟩ := retainFields_spec (dirsOf_forall₂ hf hsf) (hc1.filter fun k => decide (minKey ≤ k))
  have hasc : (tailBuckets sets F minKey).Pairwise (· < ·) := (distinctHighKeys_asc _).filter _
  have hnd : ∀ {l : List Nat}, l.Pairwise (· < ·) → l.Nodup := fun h => h.imp ne_of_lt
  have hmem : ∀ k, k ∈ (scanOf tails sets fieldRanges excludeRanges F minKey).keys ↔
      k ∈ tailBuckets sets F minKey := by
    intro k
    have hhead : (∀ S ∈ sets, k ∈ distinctHighKeys S) → k ∈ distinctHighKeys (sets.headD ∅) := by
      cases sets with
      | nil => exact absurd rfl hne
      | cons S sets => exact fun h => h S List.mem_cons_self
    rw [scanOf, hr2, List.mem_filter, hc2, tailBuckets, List.mem_filter]
    simp only [Bool.and_eq_true, List.all_eq_true, List.any_eq_true, decide_eq_true_eq]
    constructor
    · rintro ⟨⟨hall, hmin⟩, hfields⟩
      exact ⟨hhead hall, hmin, hall, hfields⟩
    · rintro ⟨-, hmin, hall, hfields⟩
      exact ⟨⟨hall, hmin⟩, hfields⟩
  exact ((List.perm_ext_iff_of_nodup (hnd hr1) (hnd hasc)).mpr hmem).eq_of_pairwise
    (fun a b _ _ hab hba => absurd (lt_trans hab hba) (lt_irrefl a)) hr1 hasc

end OpenScan

end

end RoaringRange
