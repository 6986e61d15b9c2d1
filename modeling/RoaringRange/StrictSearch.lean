import RoaringRange.Paging

/-!
# Draining a tail scan, and strict search (`posting.rs`, `index.rs`)

A scan is drained window by window, with windows of any sizes (`TailScan.drain`).  In each window the postings are
intersected in one wave, or one of them is read first and the others where it has docs; `drainBy` leaves that choice
open.  The windows come out as the filtered intersection, cut where the sizes say:

    any sizes, any choice of what to read first → the same windows                    (TailScan.settles_drainBy)
    a scan that is drained has found each doc of the filtered intersection once                 (tailScan_exact)
    a search lists the first docs that have all the query's keys                            (Index.search_exact)
-/

namespace RoaringRange

open ByteString Faults Slices

/-! ## Windows of any sizes -/

/-- The items taken by these many at a time. -/
def cutBy {α : Type} (items : List α) : List Nat → List (List α)
  | [] => []
  | size :: sizes => items.take size :: cutBy (items.drop size) sizes

theorem flatten_cutBy {α : Type} (items : List α) (sizes : List Nat) :
    (cutBy items sizes).flatten = items.take sizes.sum := by
  induction sizes generalizing items with
  | nil => simp [cutBy]
  | cons size sizes ih => rw [cutBy, List.flatten_cons, ih, List.sum_cons, List.take_add]

/-- The docs of the windows are those of their buckets, window by window. -/
theorem flatMap_windowResult {sets : List Bitmap} {F : FilterSets} {windows : List (List Nat)}
    (h : windows.flatten.Pairwise (· < ·)) :
    (windows.map (windowResult sets F)).flatMap AscSet.toList = (windowResult sets F windows.flatten).toList := by
  induction windows with
  | nil => rw [List.map_nil, List.flatMap_nil, List.flatten_nil, windowResult_nil, AscSet.toList_empty]
  | cons w windows ih =>
    rw [List.flatten_cons] at h
    rw [List.map_cons, List.flatMap_cons, ih (List.pairwise_append.mp h).2.1, List.flatten_cons, windowResult_append h]

/-- No bucket is in two windows. -/
theorem windows_apart {sets : List Bitmap} {F : FilterSets} {windows : List (List Nat)}
    (h : windows.flatten.Pairwise (· < ·)) :
    (windows.map (windowResult sets F)).Pairwise fun v w => ∀ d ∈ v, ∀ e ∈ w, highKey d < highKey e := by
  rw [List.pairwise_map]
  refine (List.pairwise_flatten.mp h).2.imp fun hlt d hd e he => ?_
  exact hlt _ (mem_windowResult.mp hd).2.1 _ (mem_windowResult.mp he).2.1

section

variable [Roaring]

/-- What to read first in a window: one of the postings, or none of them. -/
abbrev SeedChoice := List TailDir → List Nat → Option Nat

/-- The choice is of a posting that there is. -/
def SeedChoice.InRange (choose : SeedChoice) : Prop :=
  ∀ dirs window seed, choose dirs window = some seed → seed < dirs.length

/-- The choice by the postings' bytes in the window. -/
def costChoice : SeedChoice := fun dirs window =>
  let costs := dirs.map fun d => windowCost d window
  if 1 < dirs.length ∧ min (costs.getD (minIndex costs) 0 * seedCostRatio) usizeMax ≤ costs.foldl max 0 then
    some (minIndex costs)
  else none

/-- `intersectKeyWindow` with a choice of its own. -/
def intersectBy (choose : SeedChoice) (f : MemoryFetch) (dirs : List TailDir) (window : List Nat) : Io Bitmap :=
  if dirs.isEmpty ∨ window.isEmpty then pure ∅
  else
    match choose dirs window with
    | some seed => seededWave f dirs window seed
    | none => intersectWave f dirs window []

theorem intersectKeyWindow_eq (f : MemoryFetch) (dirs : List TailDir) (window : List Nat) :
    intersectKeyWindow f dirs window = intersectBy costChoice f dirs window := by
  unfold intersectKeyWindow intersectBy costChoice
  simp only
  split
  · rfl
  · split
    · rfl
    · rfl

theorem settles_intersectBy {choose : SeedChoice} (hc : choose.InRange) {f : MemoryFetch} {dirs : List TailDir}
    {sets : List Bitmap} (h : List.Forall₂ (DirOf f) dirs sets) {window : List Nat} (hw : window.Pairwise (· < ·)) :
    Settles (intersectBy choose f dirs window) (.ok (Bitmap.restrict (AscSet.inters sets) window)) := by
  unfold intersectBy
  split
  · next hempty =>
    have hnil : Bitmap.restrict (AscSet.inters sets) window = ∅ := by
      rcases hempty with hd | hw'
      · rw [List.isEmpty_iff.mp hd] at h
        rw [List.forall₂_nil_left_iff.mp h]
        refine AscSet.isEmpty_iff.mp (AscSet.isEmpty_iff_forall.mpr fun d hd => ?_)
        exact absurd (Bitmap.mem_restrict.mp hd).1 (AscSet.not_mem_empty d)
      · rw [List.isEmpty_iff.mp hw', restrict_nil]
    rw [hnil]
    exact Settles.pure _
  · next hgo =>
    have hne : sets ≠ [] := by
      rintro rfl
      rw [List.forall₂_nil_right_iff.mp h] at hgo
      exact hgo (Or.inl rfl)
    split
    · next seed hseed => exact settles_seededWave h hw (hc _ _ _ hseed)
    · exact settles_oneWave h hne hw

omit [Roaring] in
theorem costChoice_inRange : costChoice.InRange := by
  intro dirs window seed hseed
  unfold costChoice at hseed
  simp only at hseed
  split at hseed
  · next hmany =>
    have hlt := @minIndex_lt (dirs.map fun d => windowCost d window) (by
      rw [ne_eq, List.map_eq_nil_iff]
      rintro rfl
      exact absurd hmany.1 (by decide))
    rw [List.length_map] at hlt
    rw [← Option.some.inj hseed]
    exact hlt
  · cases hseed

namespace TailScan

/-- The windows of these sizes, and the scan after them. -/
def drainWith (intersect : List TailDir → List Nat → Io Bitmap) (ff : Option MemoryFetch) (sc : TailScan) :
    List Nat → Io (List Bitmap × TailScan)
  | [] => pure ([], sc)
  | size :: sizes => do
    let (window, sc) ← sc.nextWindowWith intersect ff size
    let (windows, sc) ← drainWith intersect ff sc sizes
    pure (window :: windows, sc)

/-- `nextWindow` after `nextWindow`. -/
def drain (sc : TailScan) (f : MemoryFetch) (ff : Option MemoryFetch) : List Nat → Io (List Bitmap × TailScan)
  | [] => pure ([], sc)
  | size :: sizes => do
    let (window, sc) ← sc.nextWindow f ff size
    let (windows, sc) ← sc.drain f ff sizes
    pure (window :: windows, sc)

/-- The same with a choice of its own in every window. -/
def drainBy (choose : SeedChoice) (sc : TailScan) (f : MemoryFetch) (ff : Option MemoryFetch) (sizes : List Nat) :
    Io (List Bitmap × TailScan) :=
  sc.drainWith (intersectBy choose f) ff sizes

theorem drain_eq (sc : TailScan) (f : MemoryFetch) (ff : Option MemoryFetch) (sizes : List Nat) :
    sc.drain f ff sizes = sc.drainBy costChoice f ff sizes := by
  have hint : intersectKeyWindow f = intersectBy costChoice f := by
    funext dirs window
    exact intersectKeyWindow_eq f dirs window
  induction sizes generalizing sc with
  | nil => rfl
  | cons size sizes ih =>
    unfold drain drainBy drainWith
    rw [nextWindow_eq, hint]
    simp only [ih]
    rfl

/-- The scan after windows of these sizes. -/
def after (sc : TailScan) (sizes : List Nat) : TailScan := sizes.foldl advance sc

variable {f : MemoryFetch} {ff : Option MemoryFetch} {sets : List Bitmap} {F : FilterSets} {sc : TailScan}

omit [Roaring] in
theorem keys_after (sc : TailScan) (sizes : List Nat) : (sc.after sizes).keys = sc.keys := by
  unfold after
  induction sizes generalizing sc with
  | nil => rfl
  | cons size sizes ih => rw [List.foldl_cons, ih, advance]

omit [Roaring] in
theorem pos_after (h : sc.pos ≤ sc.keys.length) (sizes : List Nat) :
    (sc.after sizes).pos = min (sc.pos + sizes.sum) sc.keys.length := by
  unfold after
  induction sizes generalizing sc with
  | nil => simpa using h
  | cons size sizes ih =>
    rw [List.foldl_cons, ih (Nat.min_le_right _ _), advance, List.sum_cons]
    simp only
    omega

omit [Roaring] in
theorem drop_advance (sc : TailScan) (size : Nat) :
    (sc.advance size).keys.drop (sc.advance size).pos = (sc.keys.drop sc.pos).drop size := by
  show sc.keys.drop (min (sc.pos + size) sc.keys.length) = _
  rw [List.drop_drop]
  rcases Nat.le_total (sc.pos + size) sc.keys.length with hle | hle
  · rw [Nat.min_eq_left hle]
  · rw [Nat.min_eq_right hle, List.drop_length, List.drop_of_length_le hle]

/-- **The windows are those of the candidate buckets**, cut by the sizes, whatever is read first in each. -/
theorem settles_drainBy {choose : SeedChoice} (hc : choose.InRange) (h : sc.Holds f ff sets F) (sizes : List Nat) :
    Settles (sc.drainBy choose f ff sizes)
      (.ok ((cutBy (sc.keys.drop sc.pos) sizes).map (windowResult sets F), sc.after sizes)) := by
  unfold drainBy
  induction sizes generalizing sc with
  | nil => exact Settles.pure _
  | cons size sizes ih =>
    unfold drainWith
    refine (settles_nextWindowWith h (fun _ hw => settles_intersectBy hc h.trigrams hw) size).bind ?_
    refine (ih (h.advance size)).bind ?_
    rw [drop_advance]
    exact Settles.pure _

end TailScan

/-! ## A scan that is drained -/

section

variable {f g : MemoryFetch} {ff : Option MemoryFetch} {tails : List (Nat × Nat)} {sets : List Bitmap}
  {fieldRanges : List (List (Nat × Nat))} {excludeRanges : List (Nat × Nat)} {F : FilterSets}

omit [Roaring] in
theorem retainFields_nil (facets : List (List TailDir)) : retainFields [] facets = [] := by
  cases facets with
  | nil => rfl
  | cons field fields => rfl

/-- There are no more candidate buckets than buckets. -/
theorem length_keys_scanOf (ht : PostingsAt f tails sets) (hf : List.Forall₂ (PostingsAt g) fieldRanges F.fields)
    (hst : ∀ t ∈ tails, Seekable f t.1 t.2) (hsf : AllSeekable g fieldRanges) (minKey : Nat) :
    (scanOf tails sets fieldRanges excludeRanges F minKey).keys.length ≤ bucketSize := by
  by_cases hne : sets = []
  · subst hne
    obtain rfl := List.forall₂_nil_right_iff.mp ht
    have hkeys : (scanOf [] [] fieldRanges excludeRanges F minKey).keys = [] := retainFields_nil _
    rw [hkeys]
    exact Nat.zero_le _
  · have hlt : ∀ k ∈ tailBuckets sets F minKey, k ∈ List.range bucketSize := by
      intro k hk
      obtain ⟨d, hd, rfl⟩ := mem_distinctHighKeys.mp (List.mem_of_mem_filter hk)
      exact List.mem_range.mpr (highKey_lt (AscSet.all _ d hd))
    have hnd : (tailBuckets sets F minKey).Nodup := ((distinctHighKeys_asc _).filter _).imp ne_of_lt
    have hle := (List.subperm_of_subset hnd hlt).length_le
    rw [keys_scanOf ht hf hne hst hsf]
    rwa [List.length_range] at hle

/-- The opened scan has the docs of the filtered intersection to find, and none without a posting. -/
theorem scanOf_finds (ht : PostingsAt f tails sets) (hg : ff = some g ∨ fieldRanges = [] ∧ excludeRanges = [])
    (hf : List.Forall₂ (PostingsAt g) fieldRanges F.fields) (hx : PostingsAt g excludeRanges F.excludes)
    (hst : ∀ t ∈ tails, Seekable f t.1 t.2) (hsf : AllSeekable g fieldRanges)
    (hsx : ∀ t ∈ excludeRanges, Seekable g t.1 t.2) (minKey : Nat) :
    (scanOf tails sets fieldRanges excludeRanges F minKey).Holds f ff sets F ∧
      ∀ d, d ∈ (scanOf tails sets fieldRanges excludeRanges F minKey).remaining sets F ↔
        tails ≠ [] ∧ (∀ S ∈ sets, d ∈ S) ∧ F.passes d = true ∧ minKey ≤ highKey d := by
  by_cases hne : sets = []
  · subst hne
    obtain rfl := List.forall₂_nil_right_iff.mp ht
    have hkeys : (scanOf [] [] fieldRanges excludeRanges F minKey).keys = [] := retainFields_nil _
    refine ⟨⟨List.Forall₂.nil, ⟨g, hg.imp_right fun h => ⟨?_, ?_⟩, dirsOf_forall₂ hf hsf, dirOf_forall₂ hx hsx⟩, ?_,
      Nat.zero_le _⟩, fun d => ?_⟩
    · rw [h.1] at hf
      exact List.forall₂_nil_left_iff.mp hf
    · rw [h.2] at hx
      exact List.forall₂_nil_left_iff.mp hx
    · rw [hkeys]
      exact List.Pairwise.nil
    · rw [TailScan.remaining, hkeys, List.drop_nil, windowResult_nil]
      exact iff_of_false (AscSet.not_mem_empty d) fun h => h.1 rfl
  · have htails : tails ≠ [] := by
      rintro rfl
      exact hne (List.forall₂_nil_left_iff.mp ht)
    obtain ⟨hholds, hrem⟩ := scanOf_holds ht hg hf hx hne hst hsf hsx minKey
    refine ⟨hholds, fun d => ?_⟩
    rw [hrem, AscSet.mem_inters hne]
    exact ⟨fun h => ⟨htails, h⟩, And.right⟩

omit [Roaring] in
theorem passes_iff {d : Nat} : F.passes d = true ↔
    (∀ cats ∈ F.fields, ∃ S ∈ cats, d ∈ S) ∧ ¬ ∃ S ∈ F.excludes, d ∈ S := by
  simp only [FilterSets.passes, inAny, Bool.and_eq_true, List.all_eq_true, List.any_eq_true, decide_eq_true_eq,
    Bool.not_eq_true', Bool.eq_false_iff, ne_eq]

/-- **A drained scan has found the filtered intersection**, each doc in its place and each bucket in one window. -/
theorem tailScan_exact (ht : PostingsAt f tails sets) (hg : ff = some g ∨ fieldRanges = [] ∧ excludeRanges = [])
    (hf : List.Forall₂ (PostingsAt g) fieldRanges F.fields) (hx : PostingsAt g excludeRanges F.excludes)
    (hst : ∀ t ∈ tails, Seekable f t.1 t.2) (hsf : AllSeekable g fieldRanges)
    (hsx : ∀ t ∈ excludeRanges, Seekable g t.1 t.2) (minKey : Nat) :
    ∃ sc, Settles (TailScan.open f tails ff fieldRanges excludeRanges minKey) (.ok (some sc)) ∧
      sc.keys.length ≤ bucketSize ∧ ∀ sizes, ∃ windows sc', Settles (sc.drain f ff sizes) (.ok (windows, sc')) ∧
        (∀ choose : SeedChoice, choose.InRange → Settles (sc.drainBy choose f ff sizes) (.ok (windows, sc'))) ∧
        (windows.flatMap AscSet.toList).Pairwise (· < ·) ∧
        windows.Pairwise (fun v w => ∀ d ∈ v, ∀ e ∈ w, highKey d < highKey e) ∧
        (sc'.exhausted = true ↔ sc.keys.length ≤ sizes.sum) ∧
        (sc'.exhausted = true → ∀ d, (∃ w ∈ windows, d ∈ w) ↔ tails ≠ [] ∧ minKey ≤ highKey d ∧
          (∀ S ∈ sets, d ∈ S) ∧ (∀ cats ∈ F.fields, ∃ S ∈ cats, d ∈ S) ∧ ¬ ∃ S ∈ F.excludes, d ∈ S) := by
  obtain ⟨hholds, hrem⟩ := scanOf_finds ht hg hf hx hst hsf hsx minKey
  have hopen := settles_open ht hg hf hx minKey
  rw [if_pos ⟨hst, hsf, hsx⟩] at hopen
  refine ⟨_, hopen, length_keys_scanOf ht hf hst hsf minKey, fun sizes => ?_⟩
  have hpos : (scanOf tails sets fieldRanges excludeRanges F minKey).pos = 0 := rfl
  generalize scanOf tails sets fieldRanges excludeRanges F minKey = sc at hholds hrem hpos
  have hend : (sc.after sizes).exhausted = true ↔ sc.keys.length ≤ sizes.sum := by
    rw [TailScan.exhausted, decide_eq_true_eq, TailScan.keys_after, TailScan.pos_after hholds.pos_le, hpos]
    omega
  have hflat := flatten_cutBy (sc.keys.drop sc.pos) sizes
  have hasc : (cutBy (sc.keys.drop sc.pos) sizes).flatten.Pairwise (· < ·) := by
    rw [hflat]
    exact hholds.keys_asc.sublist ((List.take_sublist _ _).trans (List.drop_sublist _ _))
  have hdocs := @flatMap_windowResult sets F _ hasc
  refine ⟨(cutBy (sc.keys.drop sc.pos) sizes).map (windowResult sets F), sc.after sizes, ?_, ?_, ?_,
    windows_apart hasc, hend, fun hex d => ?_⟩
  · rw [TailScan.drain_eq]
    exact TailScan.settles_drainBy costChoice_inRange hholds sizes
  · exact fun choose hc => TailScan.settles_drainBy hc hholds sizes
  · rw [hdocs]
    exact AscSet.asc _
  · have hall : (cutBy (sc.keys.drop sc.pos) sizes).flatten = sc.keys.drop sc.pos := by
      rw [hflat, hpos, List.drop_zero]
      exact List.take_of_length_le (hend.mp hex)
    rw [hall] at hdocs
    have hmem : (∃ w ∈ (cutBy (sc.keys.drop sc.pos) sizes).map (windowResult sets F), d ∈ w) ↔
        d ∈ (windowResult sets F (sc.keys.drop sc.pos)).toList := by
      rw [← hdocs, List.mem_flatMap]
      rfl
    rw [hmem]
    refine (hrem d).trans ?_
    rw [passes_iff]
    tauto

end

end

section

attribute [local instance] PortableCodec.roaring

/-- A file of two postings, of the doc 65541 and of no doc. -/
def twoPostings : Bytes := serialize doc65541 ++ serialize (∅ : Bitmap)

theorem twoPostings_at : PostingAt (MemoryFetch.new twoPostings) 0 18 doc65541 ∧
    PostingAt (MemoryFetch.new twoPostings) 18 8 ∅ ∧ Seekable (MemoryFetch.new twoPostings) 0 18 ∧
    Seekable (MemoryFetch.new twoPostings) 18 8 := by
  have hlen : twoPostings.length < u64Bound ∧ 18 + 8 ≤ twoPostings.length := by decide +kernel
  have hfst : slice twoPostings 0 18 = serialize doc65541 := by decide +kernel
  have hsnd : slice twoPostings 18 8 = serialize (∅ : Bitmap) := by decide +kernel
  refine ⟨⟨MemoryFetch.inFile_new hlen.1 (by omega), ?_⟩, ⟨MemoryFetch.inFile_new hlen.1 hlen.2, ?_⟩, by decide +kernel,
    by decide +kernel⟩
  · show Represents (slice twoPostings 0 18) doc65541
    rw [hfst]
    exact represents_serialize _
  · show Represents (slice twoPostings 18 8) ∅
    rw [hsnd]
    exact represents_serialize _

/-- Two windows over a posting that is also a category's, with an empty category excluded. -/
theorem tailScan_exact_two : ∃ sc windows sc',
    Settles (TailScan.open (MemoryFetch.new twoPostings) [(0, 18)] (some (MemoryFetch.new twoPostings)) [[(0, 18)]]
      [(18, 8)] 1) (.ok (some sc)) ∧
    Settles (sc.drain (MemoryFetch.new twoPostings) (some (MemoryFetch.new twoPostings)) [0, bucketSize])
      (.ok (windows, sc')) ∧ sc'.exhausted = true ∧ ∃ w ∈ windows, 65541 ∈ w := by
  obtain ⟨hS, hE, hsS, hsE⟩ := twoPostings_at
  let F : FilterSets := ⟨[[doc65541]], [∅]⟩
  have ht : PostingsAt (MemoryFetch.new twoPostings) [(0, 18)] [doc65541] := List.Forall₂.cons hS List.Forall₂.nil
  have hf : List.Forall₂ (PostingsAt (MemoryFetch.new twoPostings)) [[(0, 18)]] F.fields :=
    List.Forall₂.cons ht List.Forall₂.nil
  have hx : PostingsAt (MemoryFetch.new twoPostings) [(18, 8)] F.excludes := List.Forall₂.cons hE List.Forall₂.nil
  have hst : ∀ t ∈ [(0, 18)], Seekable (MemoryFetch.new twoPostings) t.1 t.2 := List.forall_mem_singleton.mpr hsS
  obtain ⟨sc, hopen, hlen, hall⟩ := tailScan_exact ht (Or.inl rfl) hf hx hst (List.forall_mem_singleton.mpr hst)
    (List.forall_mem_singleton.mpr hsE) 1
  obtain ⟨windows, sc', hdrain, -, -, -, hend, hdocs⟩ := hall [0, bucketSize]
  have hex : sc'.exhausted = true := hend.mpr (by simpa using hlen)
  refine ⟨sc, windows, sc', hopen, hdrain, hex, (hdocs hex 65541).mpr ⟨?_, ?_, ?_, ?_, ?_⟩⟩
  · exact List.cons_ne_nil _ _
  · decide
  · exact List.forall_mem_singleton.mpr (by decide)
  · exact List.forall_mem_singleton.mpr ⟨doc65541, List.mem_singleton_self _, by decide⟩
  · rintro ⟨S, hS, hd⟩
    rw [List.mem_singleton.mp hS] at hd
    exact AscSet.not_mem_empty _ hd

/-- A scan over no postings finds nothing, although any doc is in all of them. -/
theorem tailScan_none : ∃ sc windows sc',
    Settles (TailScan.open (MemoryFetch.new []) [] none [] [] 0) (.ok (some sc)) ∧
    Settles (sc.drain (MemoryFetch.new []) none [1]) (.ok (windows, sc')) ∧ sc'.exhausted = true ∧
    ¬ ((∃ w ∈ windows, 0 ∈ w) ↔ 0 ≤ highKey 0 ∧ (∀ S ∈ ([] : List Bitmap), 0 ∈ S) ∧
      (∀ cats ∈ ([] : List (List Bitmap)), ∃ S ∈ cats, 0 ∈ S) ∧ ¬ ∃ S ∈ ([] : List Bitmap), 0 ∈ S) := by
  refine ⟨⟨[], [], [], [], 0⟩, [∅], ⟨[], [], [], [], 0⟩, ?_, ?_, rfl, ?_⟩
  · exact @settles_open _ (MemoryFetch.new []) (MemoryFetch.new []) none [] [] [] [] ⟨[], []⟩ List.Forall₂.nil
      (Or.inr ⟨rfl, rfl⟩) List.Forall₂.nil List.Forall₂.nil 0
  · exact Settles.pure _
  · simp [AscSet.not_mem_empty]

end

/-! ## Strict search -/

/-- **Strict search is exact**, of any index file and of every one that is written. -/
theorem Index.search_exact [Roaring] [Unicode] :
    (∀ ix : Index, ix.WellFormed → ∀ query limit, ∃ docs : Bitmap,
      Settles (ix.search query limit) (.ok (docs.toList.take limit)) ∧
      ∀ d, d ∈ docs ↔ ix.queryKeys query ≠ [] ∧ ∀ k ∈ ix.queryKeys query, ∃ S, ix.postingOf k = some S ∧ d ∈ S) ∧
    ∀ c : Corpus, Settles (Index.open (MemoryFetch.new c.bytes)) (.ok (c.index (MemoryFetch.new c.bytes))) ∧
      (c.index (MemoryFetch.new c.bytes)).WellFormed ∧
      ∀ k, (c.index (MemoryFetch.new c.bytes)).postingOf k = c.posting k := by
  refine ⟨fun ix hw query limit => ?_, fun c => ⟨c.settles_open, c.wellFormed, c.postingOf_eq⟩⟩
  exact ⟨_, settles_search hw query limit, fun d => mem_strictDocs⟩

section

attribute [local instance] PortableCodec.roaring asciiUnicode

/-- The key of the gram `bcd`. -/
def bcdKey : Key := ⟨6447972, by decide⟩

/-- Three keys in two blocks of the dictionary, with docs of the head and behind it. -/
def threeKeys : Corpus :=
  ⟨3, 2, true, [(abcKey, ⟨[1, 65541, 70000], by decide, by decide⟩), (bcdKey, ⟨[1, 4, 65541], by decide, by decide⟩),
    (⟨7895418, by decide⟩, ⟨[4, 70001], by decide, by decide⟩)], trigram_lt, by decide, by decide, by decide,
    Nat.lt_two_pow_self.trans (by decide)⟩

/-- Two docs have both keys of the query. -/
theorem Index.search_exact_abcd : Settles ((threeKeys.index (MemoryFetch.new threeKeys.bytes)).search "abcd" 2)
    (.ok [1, 65541]) := by
  obtain ⟨docs, hsearch, hdocs⟩ := search_exact.1 _ threeKeys.wellFormed "abcd" 2
  have hkeys : (threeKeys.index (MemoryFetch.new threeKeys.bytes)).queryKeys "abcd" = [abcKey, bcdKey] := by
    show ngramKeysWith "abcd" 3 true = [abcKey, bcdKey]
    decide +kernel
  have hset : docs = ⟨[1, 65541], by decide, by decide⟩ := by
    refine AscSet.ext_mem fun d => (hdocs d).trans ?_
    rw [hkeys, List.forall_mem_cons, List.forall_mem_singleton, threeKeys.postingOf_eq, threeKeys.postingOf_eq,
      show threeKeys.posting abcKey = some ⟨[1, 65541, 70000], by decide, by decide⟩ from rfl,
      show threeKeys.posting bcdKey = some ⟨[1, 4, 65541], by decide, by decide⟩ from rfl]
    simp only [Option.some.injEq, exists_eq_left', ne_eq, List.cons_ne_nil, not_false_iff, true_and]
    show (d ∈ [1, 65541, 70000] ∧ d ∈ [1, 4, 65541]) ↔ d ∈ [1, 65541]
    simp only [List.mem_cons, List.not_mem_nil, or_false]
    omega
  rw [hset] at hsearch
  exact hsearch

end

end RoaringRange
