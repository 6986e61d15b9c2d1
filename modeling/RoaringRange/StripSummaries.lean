import RoaringRange.FilteredBuild

/-!
# A manifest without its summaries (`splitset_strip_summaries.rs`)

The stripper re-emits a manifest without the summaries, over the same split files: nothing is passed over any more, and a
client needs only a small manifest to begin with.  It may keep the first tiers only.

    the splits that are kept are the first ones                              (CutInto.exists_kept)
    and hold the first documents                                             (CutInto.keptDoc_iff)
    the stripped manifest is written and opens as the set of these       (CutInto.exists_stripped)
    a stripped split serves what its split does                           (CutInto.servesStripped)
    a stripped set finds what the set found, of the documents that are kept          (strip_build)

The flags of the new manifest are all zero, the mark of a case-sensitive set among them: the results are for sets whose
keys are folded.
-/

namespace RoaringRange

open ByteString Faults Slices Tiles

/-! ## The stripper -/

/-- A split as it is re-emitted. -/
def Split.stripped (s : Split) : SplitSpec where
  dataFile := s.dataFile
  tier := s.tier
  docCount := s.docCount
  docIdLo := s.docIdLo
  docIdHi := s.docIdHi
  epoch := s.epoch
  byteSize := s.byteSize
  flags := 0
  summary := []

namespace SplitSet

/-- The splits up to a tier, or all. -/
def keptSplits (set : SplitSet) (maxTier : Option Nat) : List Split :=
  set.splits.filter fun s => maxTier.all fun mt => decide (s.tier ≤ mt)

/-- The configuration of the new manifest.  The sum wraps, as in a release build. -/
def strippedConfig (set : SplitSet) (maxTier : Option Nat) : SplitSetConfig where
  policy := set.policy
  tierCount := maxTier.elim set.tierCount fun mt => (mt + 1) % 2 ^ 16
  baseCount := (set.keptSplits maxTier).length % u32Bound
  byteCap := set.byteCap
  gramSize := set.gramSize
  bodyKind := set.bodyKind
  sortcol := none
  flags := 0

/-- `splitset_strip_summaries`: the new manifest, or the assertion that does not hold. -/
def stripSummaries (set : SplitSet) (maxTier : Option Nat) : Except String Bytes :=
  if set.sortcol.isSome then .error "sortcol present — stable-key sets aren't handled by this stripper"
  else if maxTier.isSome && !set.deltaSplits.isEmpty then
    .error "tier filtering over a set with delta splits is not supported"
  else
    match (set.keptSplits maxTier).find? fun s => s.hasTombstone || s.absoluteIds with
    | some s =>
      .error ("split " ++ s.dataFile ++ " carries tombstone/absolute-id state tied to a summary — not strippable")
    | none => writeSplitset ((set.keptSplits maxTier).map Split.stripped) (set.strippedConfig maxTier)

end SplitSet

/-- Where the assertions hold, the stripped manifest is written. -/
theorem stripSummaries_eq {set : SplitSet} (hsort : set.sortcol = none) (hdelta : set.deltaSplits = [])
    (hflags : ∀ s ∈ set.splits, s.flags = 0) (maxTier : Option Nat) : set.stripSummaries maxTier =
      writeSplitset ((set.keptSplits maxTier).map Split.stripped) (set.strippedConfig maxTier) := by
  have hnone : ((set.keptSplits maxTier).find? fun s => s.hasTombstone || s.absoluteIds) = none := by
    refine List.find?_eq_none.mpr fun s hs => ?_
    unfold Split.hasTombstone Split.absoluteIds
    rw [hflags s (List.mem_of_mem_filter hs)]
    decide
  unfold SplitSet.stripSummaries
  rw [hsort, hdelta, hnone, if_neg (by decide), if_neg (by simp)]

/-! ## The splits that are kept -/

theorem filter_eq_take {α : Type} {p : α → Bool} {j : Nat} : ∀ {xs : List α},
    (∀ (i : Nat) (x : α), xs[i]? = some x → (p x = true ↔ i < j)) → xs.filter p = xs.take j := by
  intro xs
  induction xs using List.reverseRecOn with
  | nil =>
    intro _
    rw [List.take_nil]
    rfl
  | append_singleton xs x ih =>
    intro h
    have hxs := ih fun i y hy => h i y (getElem?_snoc.mpr (Or.inl hy))
    have hx := h xs.length x (getElem?_snoc.mpr (Or.inr ⟨rfl, rfl⟩))
    rw [List.filter_append, hxs]
    by_cases hj : xs.length < j
    · rw [List.filter_cons_of_pos (hx.mpr hj), List.take_of_length_le (by omega), List.filter_nil,
        List.take_of_length_le (by rw [List.length_append, List.length_singleton]; omega)]
    · rw [List.filter_cons_of_neg fun hp => hj (hx.mp hp), List.filter_nil, List.append_nil,
        List.take_append_of_le_length (by omega)]

/-- The parts up to a tier, or all. -/
def keptParts (parts : List SealedSplit) (maxTier : Option Nat) : List SealedSplit :=
  parts.filter fun s => maxTier.all fun mt => decide (s.spec.tier ≤ mt)

/-- The tiers of the splits do not fall, so those up to one of them are the first. -/
theorem exists_tier_bound (policy : Policy) (maxTier : Option Nat) (n : Nat) :
    ∃ j, ∀ i < n, (maxTier.all fun mt => decide (SplitSetBuilder.tier policy i ≤ mt)) = true ↔ i < j := by
  cases maxTier with
  | none => exact ⟨n, fun i hi => iff_of_true rfl hi⟩
  | some mt =>
    simp only [Option.all_some, decide_eq_true_eq]
    unfold SplitSetBuilder.tier
    cases policy with
    | stableKey => exact ⟨n, fun i hi => iff_of_true (Nat.zero_le mt) hi⟩
    | tiered =>
      simp only
      by_cases hmt : 2 ^ 16 - 1 ≤ mt
      · exact ⟨n, fun i hi => iff_of_true (by omega) hi⟩
      · exact ⟨mt + 1, fun i hi => by omega⟩

section

variable [Roaring] [Unicode] {config : SplitBuildConfig} {top : Nat} {v2 : Bool} {docs : List BuildDoc}
  {all : BuiltSplitSet} {st : List SealedSplit × List BuildDoc} {set new : SplitSet} {maxTier : Option Nat}

/-- **The splits that are kept are the first ones.** -/
theorem CutInto.exists_kept (h : CutInto (SplitSetBuilder.start config top v2) docs all st) (maxTier : Option Nat) :
    keptParts st.1 maxTier <+: st.1 := by
  obtain ⟨j, hj⟩ := exists_tier_bound (SplitSetBuilder.start config top v2).policy maxTier st.1.length
  have htake : keptParts st.1 maxTier = st.1.take j := by
    refine filter_eq_take fun i s hi => ?_
    obtain ⟨bytes, more, sidecar, -, -, hspec⟩ := SplitSetBuilder.cut_ok (h.each i s hi).2
    rw [show s.spec.tier = SplitSetBuilder.tier (SplitSetBuilder.start config top v2).policy i by rw [hspec]]
    exact hj i (List.getElem?_eq_some_iff.mp hi).1
  rw [htake]
  exact List.take_prefix j st.1

/-! ## The new manifest -/

/-- The set that a stripped manifest of a build opens as. -/
structure SplitSet.Stripped (new : SplitSet) (b : SplitSetBuilder) (parts : List SealedSplit) : Prop where
  policy : new.policy = b.policy
  gramSize : new.gramSize = b.gramSize
  caseFold : new.caseFold = true
  bodyKind : new.bodyKind = .trigram
  sortcol : new.sortcol = none
  flags : new.flags = 0
  base : new.baseSplits = new.splits
  delta : new.deltaSplits = []
  splits : List.Forall₂ (fun split s => SplitOf new split s.spec.entry.stripped) new.splits parts

omit [Roaring] [Unicode] in
theorem stripped_congr {split : Split} {s : SealedSplit} (h : SplitOf set split s.spec) :
    split.stripped = s.spec.entry.stripped := by
  unfold Split.stripped SplitSpec.entry
  rw [h.dataFile, h.tier, h.docCount, h.docIdLo, h.docIdHi, h.epoch, h.byteSize]

omit [Roaring] [Unicode] in
theorem SplitSet.OfBuild.kept {b : SplitSetBuilder} {parts : List SealedSplit} (hof : set.OfBuild b parts)
    (maxTier : Option Nat) :
    List.Forall₂ (fun split s => SplitOf set split s.spec) (set.keptSplits maxTier) (keptParts parts maxTier) := by
  refine List.rel_filter (fun split s hsplit => ?_) hof.splits
  simp only [hsplit.tier]

/-- The document is in a split up to the tier, or in any. -/
def SplitSet.keptDoc (set : SplitSet) (maxTier : Option Nat) (d : Nat) : Bool :=
  set.splits.any fun s => (maxTier.all fun mt => decide (s.tier ≤ mt)) && s.contains d

/-- The documents of the kept splits are the first ones. -/
theorem CutInto.keptDoc_iff (h : CutInto (SplitSetBuilder.start config top v2) docs all st)
    (hof : set.OfBuild (SplitSetBuilder.start config top v2) st.1) (hn : docs.length ≤ u32Bound)
    (hne : docs.length = u32Bound → all.splits ≠ []) (maxTier : Option Nat) (d : Nat) :
    set.keptDoc maxTier d = true ↔ d < ((keptParts st.1 maxTier).flatMap SealedSplit.docs).length := by
  have htiles := (h.emitted hn hne).tiles.of_prefix (h.exists_kept maxTier)
  have hkept := hof.kept maxTier
  have hholds : ∀ {i : Nat} {s : SealedSplit} {split : Split}, (keptParts st.1 maxTier)[i]? = some s →
      SplitOf set split s.spec → (split.contains d = true ↔
        startOf SealedSplit.docs (keptParts st.1 maxTier) i ≤ d ∧
        d < startOf SealedSplit.docs (keptParts st.1 maxTier) i + s.docs.length) := by
    intro i s split hi hsplit
    obtain ⟨hcount, hlo, hhi, -⟩ := htiles i s hi
    unfold Split.contains
    rw [hsplit.docCount, hsplit.docIdLo, hsplit.docIdHi, hlo, hcount.1]
    simp only [Bool.and_eq_true, decide_eq_true_eq]
    omega
  rw [lt_length_iff]
  unfold SplitSet.keptDoc
  simp only [List.any_eq_true, Bool.and_eq_true]
  constructor
  · rintro ⟨split, hmem, htier, hd⟩
    obtain ⟨s, hs, hsplit⟩ := exists_partner hkept (List.mem_filter.mpr ⟨hmem, htier⟩)
    obtain ⟨i, hi⟩ := List.mem_iff_getElem?.mp hs
    exact ⟨i, s, hi, (hholds hi hsplit).mp hd⟩
  · rintro ⟨i, s, hs, hd⟩
    obtain ⟨split, hmem, hsplit⟩ := exists_partner_left hkept (List.mem_of_getElem? hs)
    obtain ⟨hin, htier⟩ := List.mem_filter.mp hmem
    exact ⟨split, hin, htier, (hholds hs hsplit).mpr hd⟩

omit [Roaring] [Unicode] in
theorem SplitSet.OfBuild.specs_stripped {b : SplitSetBuilder} {parts : List SealedSplit} (hof : set.OfBuild b parts)
    (maxTier : Option Nat) :
    (set.keptSplits maxTier).map Split.stripped = (keptParts parts maxTier).map fun s => s.spec.entry.stripped := by
  refine List.forall₂_eq_eq_eq ▸ List.forall₂_map_left_iff.mpr (List.forall₂_map_right_iff.mpr ?_)
  exact (hof.kept maxTier).imp fun split s hsplit => stripped_congr hsplit

/-- The splits of a manifest fit, and a stripped one has no more of them. -/
theorem CutInto.stripped_fits (h : CutInto (SplitSetBuilder.start config top v2) docs all st)
    (hof : set.OfBuild (SplitSetBuilder.start config top v2) st.1) (maxTier : Option Nat) :
    ManifestFits ((set.keptSplits maxTier).map Split.stripped) (set.strippedConfig maxTier) := by
  have hfits := writeSplitset_fits h.written
  have hspecs := hof.specs_stripped maxTier
  have hsub : ((keptParts st.1 maxTier).map SealedSplit.spec).Sublist (st.1.map SealedSplit.spec) :=
    List.filter_sublist.map _
  refine ⟨?_, ?_, ?_, ?_, ?_, ?_⟩
  · have hcount := hsub.length_le.trans_lt hfits.count_lt
    rwa [hspecs, List.length_map, ← List.length_map (f := SealedSplit.spec)]
  · rw [List.length_map]
    exact Nat.mod_le _ _
  · intro spec hspec
    rw [hspecs] at hspec
    obtain ⟨s, hs, rfl⟩ := List.mem_map.mp hspec
    exact hfits.name_lt s.spec (hsub.subset (List.mem_map_of_mem hs))
  · intro sc hsc
    cases hsc
  · have hnames := hfits.names_lt
    have hpart : ((keptParts st.1 maxTier).flatMap fun s => utf8 s.spec.dataFile).length ≤
        (st.1.flatMap fun s => utf8 s.spec.dataFile).length :=
      (List.filter_sublist.flatMap fun s : SealedSplit => utf8 s.spec.dataFile).length_le
    unfold nameBytes at hnames ⊢
    rw [List.length_append, List.flatMap_map] at hnames
    rw [hspecs, List.flatMap_map]
    show ((keptParts st.1 maxTier).flatMap (fun s : SealedSplit => utf8 s.spec.dataFile) ++ []).length < 2 ^ 32
    rw [List.append_nil]
    omega
  · intro spec hspec
    obtain ⟨split, -, rfl⟩ := List.mem_map.mp hspec
    exact Nat.two_pow_pos 32

omit [Roaring] [Unicode] in
theorem SplitSet.strippedConfig_inRange {set : SplitSet} (htier : set.tierCount < 2 ^ 16) (hcap : set.byteCap < 2 ^ 64)
    (hgram : set.gramSize < 2 ^ 16) (maxTier : Option Nat) : (set.strippedConfig maxTier).InRange := by
  refine ⟨Nat.two_pow_pos 16, ?_, hcap, hgram, fun sc hsc => by cases hsc⟩
  cases maxTier with
  | none => exact htier
  | some mt => exact Nat.mod_lt _ (Nat.two_pow_pos 16)

omit [Roaring] [Unicode] in
/-- There is nothing left of the summaries. -/
theorem flatMap_summary_stripped (splits : List Split) : (splits.map Split.stripped).flatMap SplitSpec.summary = [] := by
  refine List.flatMap_eq_nil_iff.mpr fun spec hspec => ?_
  obtain ⟨split, -, rfl⟩ := List.mem_map.mp hspec
  rfl

/-- **A stripped manifest is written and opens as the set of the splits that are kept.** -/
theorem CutInto.exists_stripped (h : CutInto (SplitSetBuilder.start config top v2) docs all st)
    (hof : set.OfBuild (SplitSetBuilder.start config top v2) st.1) (hn : docs.length ≤ u32Bound)
    (hne : docs.length = u32Bound → all.splits ≠ []) (hsizes : ∀ s ∈ st.1, s.bytes.length < u64Bound)
    (hset : SplitSet.fromBytes all.manifest = .ok set) (hlen : all.manifest.length < u64Bound)
    (hsort : set.sortcol = none) (maxTier : Option Nat) :
    ∃ bytes new, set.stripSummaries maxTier = .ok bytes ∧ SplitSet.fromBytes bytes = .ok new ∧
      new.Stripped (SplitSetBuilder.start config top v2) (keptParts st.1 maxTier) := by
  obtain ⟨hg, -, hcap, -, -⟩ := @start_fits config top v2
  obtain ⟨set', hset', -, -, hdesc⟩ := h.exists_described hn hne hsizes hlen
  obtain rfl : set = set' := Except.ok.inj (hset.symm.trans hset')
  have hin := fun {i : Nat} {s : SealedSplit} (hi : st.1[i]? = some s) =>
    h.spec_inRange (h.emitted hn hne).tiles hn hi (hsizes s (List.mem_of_getElem? hi))
  have hspecs := hof.specs_stripped maxTier
  have hrange : ∀ spec ∈ (set.keptSplits maxTier).map Split.stripped, spec.InRange := by
    intro spec hspec
    rw [hspecs] at hspec
    obtain ⟨s, hs, rfl⟩ := List.mem_map.mp hspec
    obtain ⟨i, hi⟩ := List.mem_iff_getElem?.mp (List.mem_of_mem_filter hs)
    obtain ⟨hin, -, -⟩ := hin hi
    exact ⟨hin.tier_lt, hin.docCount_lt, hin.docIdLo_lt, hin.docIdHi_lt, Nat.two_pow_pos 16, hin.byteSize_lt, hin.epoch_lt⟩
  have hconfig : (set.strippedConfig maxTier).InRange := by
    refine SplitSet.strippedConfig_inRange ?_ ?_ ?_ maxTier
    · rw [hdesc.tierCount]
      exact tier_lt _ _
    · rw [hdesc.byteCap]
      exact hcap
    · rw [hof.gramSize]
      exact hg
  have hflags : ∀ split ∈ set.splits, split.flags = 0 := by
    intro split hmem
    obtain ⟨s, hs, hsplit⟩ := exists_partner hof.splits hmem
    obtain ⟨i, hi⟩ := List.mem_iff_getElem?.mp hs
    rw [hsplit.flags]
    exact (hin hi).2.1
  have hnosum : (((set.keptSplits maxTier).map Split.stripped).flatMap SplitSpec.summary).length < 2 ^ 32 := by
    rw [flatMap_summary_stripped]
    exact Nat.two_pow_pos 32
  obtain ⟨bytes, hwrite, hlen'⟩ := exists_shortManifest (h.stripped_fits hof maxTier) hnosum
  obtain ⟨new, hnew, -, hdesc'⟩ := exists_manifest hconfig hrange hwrite hlen'
  have hcount := (writeSplitset_fits hwrite).count_lt
  rw [List.length_map] at hcount
  have hbase : new.baseCount = new.splits.length := by
    rw [hdesc'.baseCount, hdesc'.splits.length_eq, List.length_map]
    exact Nat.mod_eq_of_lt hcount
  refine ⟨bytes, new, (stripSummaries_eq hsort hof.delta hflags maxTier).trans hwrite, hnew,
    hdesc'.policy.trans hof.policy, hdesc'.gramSize.trans hof.gramSize, ?_, hdesc'.bodyKind.trans hof.bodyKind,
    hdesc'.sortcol, hdesc'.flags, ?_, ?_, ?_⟩
  · rw [hdesc'.caseFold]
    show (!hasFlag 0 flagCaseSensitive) = true
    decide
  · rw [SplitSet.baseSplits, hbase, List.take_length]
  · rw [SplitSet.deltaSplits, hbase, List.drop_length]
  · have hsplits := hdesc'.splits
    rw [hspecs] at hsplits
    exact List.forall₂_map_right_iff.mp hsplits

theorem CutInto.sortcol_none (h : CutInto (SplitSetBuilder.start config top v2) docs all st) (hn : docs.length ≤ u32Bound)
    (hne : docs.length = u32Bound → all.splits ≠ []) (hsizes : ∀ s ∈ st.1, s.bytes.length < u64Bound)
    (hset : SplitSet.fromBytes all.manifest = .ok set) (hlen : all.manifest.length < u64Bound)
    (hsort : config.sortcol = none) : set.sortcol = none := by
  obtain ⟨set', hset', -, -, hdesc⟩ := h.exists_described hn hne hsizes hlen
  obtain rfl : set = set' := Except.ok.inj (hset.symm.trans hset')
  have hnone : (SplitSetBuilder.start config top v2).sortcol = none := by
    cases v2 <;> exact hsort
  rw [hdesc.sortcol]
  show (SplitSetBuilder.start config top v2).sortcol.filter _ = none
  rw [hnone]
  rfl

/-! ## The splits of the new set -/

variable {i : Nat} {s : SealedSplit} {split : Split} {resolver : SplitFetcher}

theorem CutInto.some_facets (h : CutInto (SplitSetBuilder.start config top v2) docs all st) (hi : st.1[i]? = some s)
    (hside : ∃ f ∈ all.facets, f.1 = facetFileName s.spec.dataFile) : (facetsOf s.docs).isEmpty = false := by
  have hname : ∀ {j : Nat} {t : SealedSplit}, st.1[j]? = some t →
      facetFileName t.spec.dataFile = splitStem (SplitSetBuilder.start config top v2).namePrefix j ++ ".rrf" := by
    intro j t hj
    obtain ⟨bytes, more, sidecar, -, -, hspec⟩ := SplitSetBuilder.cut_ok (h.each j t hj).2
    rw [show t.spec.dataFile = splitStem (SplitSetBuilder.start config top v2).namePrefix j ++ ".rrs" by rw [hspec],
      facetFileName_rrs]
  obtain ⟨f, hf, heq⟩ := hside
  rw [h.sidecars] at hf
  obtain ⟨t, ht, hf⟩ := List.mem_flatMap.mp hf
  obtain ⟨j, hj⟩ := List.mem_iff_getElem?.mp ht
  obtain ⟨bytes, more, sidecar, -, hside, hspec⟩ := SplitSetBuilder.cut_ok (h.each j t hj).2
  rw [show t.sidecar = sidecar by rw [hspec]] at hf
  rcases sealFacetSidecar_ok hside with ⟨-, -, rfl⟩ | ⟨hsome, file, -, -, -, -, rfl⟩
  · exact absurd hf List.not_mem_nil
  · rw [List.mem_singleton.mp hf, hname hi] at heq
    have hij : j = i := splitStem_injective (String.append_left_inj _ |>.mp heq)
    rw [hij, hi] at hj
    rw [Option.some.inj hj]
    exact hsome

variable [Fst]

/-- **A stripped split serves what its split does**, where its index was folded. -/
theorem CutInto.servesStripped (h : CutInto (SplitSetBuilder.start config top v2) docs all st)
    {parts : List SealedSplit} (hnew : new.Stripped (SplitSetBuilder.start config top v2) parts)
    (hfold : (SplitSetBuilder.start config top v2).caseNormalization = true) (hserves : resolver.Serves all.splits)
    (hi : st.1[i]? = some s) (hkeys : (distinctKeys s.docs).length < 2 ^ 32)
    (hsplit : SplitOf new split s.spec.entry.stripped) : SplitServes new resolver split (postsAndUpper s.docs).1 := by
  obtain ⟨hg, hstride, -⟩ := @start_fits config top v2
  obtain ⟨bytes, more, sidecar, hbytes, -, hspec⟩ := SplitSetBuilder.cut_ok (h.each i s hi).2
  obtain ⟨c, rfl, hcg, hcf, hpost⟩ := exists_corpus hg hstride ((length_postsAndUpper _).trans_lt hkeys) hbytes
  have hmem : (split.dataFile, c.bytes) ∈ all.splits := by
    rw [h.files, hsplit.dataFile]
    refine List.mem_map.mpr ⟨s, List.mem_of_getElem? hi, ?_⟩
    rw [SealedSplit.file, show s.bytes = c.bytes by rw [hspec]]
    rfl
  refine ⟨⟨_, c.settles_openSplit (hserves.servesFile hmem), c.wellFormed, ?_, ?_, fun k => ?_⟩, ?_⟩
  · rw [hnew.gramSize, ← hcg]
    rfl
  · rw [hnew.caseFold, ← hfold, ← hcf]
    rfl
  · rw [c.postingOf_eq, hpost]
  · refine Blooms.neverPruned ?_ ?_
    · rw [hsplit.summary]
      exact blooms_nil _
    · rw [hsplit.summary]
      exact Nat.two_pow_pos 32

omit [Roaring] [Unicode] [Fst] in
theorem SplitSet.OfBuild.dataFiles_stripped {b : SplitSetBuilder} {parts : List SealedSplit} (hof : set.OfBuild b parts)
    (hnew : new.Stripped b (keptParts parts maxTier)) : new.splits.map Split.dataFile =
      (set.splits.filter fun s => maxTier.all fun mt => decide (s.tier ≤ mt)).map Split.dataFile := by
  have hold := (hof.kept maxTier).imp fun split s hsplit => hsplit.dataFile
  have hfiles := hnew.splits.imp fun split s hsplit => hsplit.dataFile
  exact (map_eq_of_forall₂ hfiles).trans (map_eq_of_forall₂ hold).symm

omit [Roaring] [Unicode] [Fst] in
theorem SplitSet.OfBuild.cutAlike_stripped {b : SplitSetBuilder} {parts : List SealedSplit} (hof : set.OfBuild b parts)
    (hnew : new.Stripped b (keptParts parts maxTier)) {headBoundary : Nat} (hcut : CutAlike headBoundary set.splits) :
    CutAlike headBoundary new.splits := by
  refine hcut.imp_right fun hle split hsplit => ?_
  obtain ⟨s, hs, hcount⟩ := exists_partner hnew.splits hsplit
  obtain ⟨old, hold, hcount'⟩ := exists_partner_left (hof.kept maxTier) hs
  rw [hcount.docCount, show s.spec.entry.stripped.docCount = old.docCount from hcount'.docCount.symm]
  exact hle old (List.mem_of_mem_filter hold)

def strippedShelf (s : SealedSplit) : Shelf := ⟨s.spec.entry.stripped, (postsAndUpper s.docs).1⟩

omit [Roaring] [Unicode] [Fst] in
theorem toGlobal_stripped (hsplit : SplitOf new split s.spec.entry.stripped) :
    split.toGlobal = (strippedShelf s).spec.entry.toGlobal := by
  unfold Split.toGlobal Split.absoluteIds
  rw [hsplit.flags, hsplit.docIdLo]
  rfl

omit [Fst] in
theorem CutInto.toGlobal_strippedShelf (h : CutInto (SplitSetBuilder.start config top v2) docs all st) (hs : s ∈ st.1) :
    (strippedShelf s).spec.entry.toGlobal = s.spec.entry.toGlobal := by
  obtain ⟨i, hi⟩ := List.mem_iff_getElem?.mp hs
  obtain ⟨bytes, more, sidecar, -, -, hspec⟩ := SplitSetBuilder.cut_ok (h.each i s hi).2
  have hflags : s.spec.flags = 0 := by rw [hspec]
  have habs : s.spec.entry.absoluteIds = (strippedShelf s).spec.entry.absoluteIds := by
    show hasFlag s.spec.flags splitFlagAbsoluteIds = hasFlag 0 splitFlagAbsoluteIds
    rw [hflags]
  funext d
  unfold Split.toGlobal
  rw [habs]
  rfl

/-- A stripped split with a sidecar answers with a filter. -/
theorem CutInto.servesFacetedStripped (h : CutInto (SplitSetBuilder.start config top v2) docs all st)
    {parts : List SealedSplit} (hnew : new.Stripped (SplitSetBuilder.start config top v2) parts)
    (hfold : (SplitSetBuilder.start config top v2).caseNormalization = true)
    (hcut : CutAlike (SplitSetBuilder.start config top v2).headBoundary new.splits)
    (hnames : (facetNames docs).length < 2 ^ 32) (hserves : resolver.ServesBuild all) (hn : docs.length ≤ u32Bound)
    (hi : st.1[i]? = some s) (hkeys : (distinctKeys s.docs).length < 2 ^ 32) (hmem : split ∈ new.splits)
    (hsplit : SplitOf new split s.spec.entry.stripped) (hside : ∃ f ∈ all.facets, f.1 = facetFileName split.dataFile) :
    ServesFaceted new resolver split (strippedShelf s, facetsOf s.docs) := by
  obtain ⟨hlt, hcount⟩ := h.length_part_lt hn hi
  refine ⟨⟨h.servesStripped hnew hfold hserves.splits hi hkeys hsplit, fun filter _ => ⟨false, ?_, (fun h => by cases h),
    fun _ => ?_⟩⟩, toGlobal_stripped hsplit⟩
  · unfold SplitSet.facetPruned
    rw [hnew.flags, if_pos (by rw [Bool.or_eq_true]; exact Or.inr (by decide))]
    rfl
  · rw [hsplit.dataFile] at hside ⊢
    obtain ⟨fi, hopen, hholds⟩ := h.exists_holds hnames hserves hi (h.some_facets hi hside)
    exact ⟨fi, _, hopen, hholds, hcut.same_side hmem hlt (hsplit.docCount.trans hcount)⟩

/-! ## The search -/

omit [Fst] in
theorem CutInto.kept_documents (h : CutInto (SplitSetBuilder.start config top v2) docs all st) (hn : docs.length ≤ u32Bound)
    (hne : docs.length = u32Bound → all.splits ≠ []) (maxTier : Option Nat) :
    (keptParts st.1 maxTier).flatMap SealedSplit.docs <+: docs := by
  obtain ⟨rest, hrest⟩ := h.exists_kept maxTier
  have hdocs := (h.emitted hn hne).documents
  rw [← hrest, List.flatMap_append] at hdocs
  exact ⟨_, hdocs⟩

omit [Roaring] [Unicode] [Fst] in
/-- The places in the first documents are the places below their number. -/
theorem findIdxs_filter_lt {kept : List BuildDoc} (hpre : kept <+: docs) (p : BuildDoc → Bool) :
    kept.findIdxs p = (docs.findIdxs p).filter fun d => decide (d < kept.length) := by
  obtain ⟨rest, rfl⟩ := hpre
  rw [List.findIdxs_append, List.filter_append, List.filter_eq_self.mpr, List.filter_eq_nil_iff.mpr, List.append_nil]
  · intro d hd
    have hle := List.ge_of_mem_findIdxs d hd
    rw [decide_eq_true_eq]
    omega
  · intro d hd
    exact decide_eq_true (List.lt_add_of_mem_findIdxs d hd)

omit [Roaring] [Unicode] [Fst] in
theorem baseOrder_findIdxs (policy : Policy) (p : BuildDoc → Bool) :
    baseOrder policy none (docs.findIdxs p) = docs.findIdxs p := by
  have hasc : (docs.findIdxs p).Pairwise (· < ·) := List.pairwise_findIdxs
  cases policy with
  | stableKey => exact (hasc.imp Nat.le_of_lt).insertionSort_eq
  | tiered => exact (hasc.imp Nat.le_of_lt).insertionSort_eq

omit [Unicode] [Fst] in
theorem SplitSet.Stripped.exists_unmasked {b : SplitSetBuilder} {parts : List SealedSplit} (h : new.Stripped b parts) :
    ∃ dead : Bitmap, new.dead = .ok dead ∧ ∀ d, d ∉ dead := by
  have hnone : ∀ spec ∈ new.splits.map (SplitSetWriter.carried new), parseTombstone spec.summary = .ok none := by
    intro spec hspec
    obtain ⟨split, hsplit, rfl⟩ := List.mem_map.mp hspec
    obtain ⟨s, -, hsof⟩ := exists_partner h.splits hsplit
    rw [show (SplitSetWriter.carried new split).summary = (new.summary split).getD [] from rfl, hsof.summary]
    rfl
  obtain ⟨dead, hdead, hmasked⟩ := @exists_dead _ new fun spec hspec => ⟨_, hnone spec hspec⟩
  refine ⟨dead, hdead, fun d hd => ?_⟩
  obtain ⟨spec, hspec, ids, hids, -⟩ := (hmasked d).mp hd
  rw [hnone spec hspec] at hids
  cases hids

/-- The shelves of a stripped set are served. -/
theorem CutInto.stockedStripped (h : CutInto (SplitSetBuilder.start config top v2) docs all st)
    (hnew : new.Stripped (SplitSetBuilder.start config top v2) (keptParts st.1 maxTier))
    (hfold : (SplitSetBuilder.start config top v2).caseNormalization = true)
    (hkeys : ∀ s ∈ st.1, (distinctKeys s.docs).length < 2 ^ 32) (hserves : resolver.Serves all.splits) :
    Stocked new resolver ((keptParts st.1 maxTier).map strippedShelf) [] := by
  refine ⟨hnew.bodyKind, ?_, by rw [hnew.delta]; exact .nil⟩
  rw [hnew.base, List.forall₂_map_right_iff]
  have hboth := (List.forall₂_and_left _ _).mpr ⟨fun s (hs : s ∈ keptParts st.1 maxTier) => hs, hnew.splits.flip⟩
  refine hboth.flip.imp fun split s hf => ?_
  obtain ⟨hs, hsplit⟩ := hf
  have hmem := (h.exists_kept maxTier).subset hs
  obtain ⟨i, hi⟩ := List.mem_iff_getElem?.mp hmem
  exact ⟨h.servesStripped hnew hfold hserves hi (hkeys s hmem) hsplit, toGlobal_stripped hsplit⟩

/-- So are they with their facets, if every split has a sidecar. -/
theorem CutInto.stockedFacetsStripped (h : CutInto (SplitSetBuilder.start config top v2) docs all st)
    (hnew : new.Stripped (SplitSetBuilder.start config top v2) (keptParts st.1 maxTier))
    (hfold : (SplitSetBuilder.start config top v2).caseNormalization = true)
    (hcut : CutAlike (SplitSetBuilder.start config top v2).headBoundary new.splits)
    (hnames : (facetNames docs).length < 2 ^ 32) (hn : docs.length ≤ u32Bound)
    (hkeys : ∀ s ∈ st.1, (distinctKeys s.docs).length < 2 ^ 32) (hserves : resolver.ServesBuild all)
    (hside : ∀ split ∈ new.splits, ∃ f ∈ all.facets, f.1 = facetFileName split.dataFile) :
    StockedFacets new resolver ((keptParts st.1 maxTier).map fun s => (strippedShelf s, facetsOf s.docs)) [] := by
  refine ⟨hnew.bodyKind, ?_, by rw [hnew.delta]; exact .nil⟩
  rw [hnew.base, List.forall₂_map_right_iff]
  have hboth := (List.forall₂_and_left _ _).mpr ⟨fun s (hs : s ∈ keptParts st.1 maxTier) => hs, hnew.splits.flip⟩
  have hall := (List.forall₂_and_left _ _).mpr ⟨fun split (hs : split ∈ new.splits) => hs, hboth.flip⟩
  refine hall.imp fun split s hf => ?_
  obtain ⟨hsplits, hs, hsplit⟩ := hf
  have hmem := (h.exists_kept maxTier).subset hs
  obtain ⟨i, hi⟩ := List.mem_iff_getElem?.mp hmem
  exact h.servesFacetedStripped hnew hfold hcut hnames hserves hn hi (hkeys s hmem) hsplits hsplit (hside split hsplits)

variable [TokenFilters]

/-- **A stripped set finds the places of the documents in the kept splits.** -/
theorem CutInto.settles_stripped (h : CutInto (SplitSetBuilder.start config top v2) docs all st)
    (hnew : new.Stripped (SplitSetBuilder.start config top v2) (keptParts st.1 maxTier))
    (hfold : (SplitSetBuilder.start config top v2).caseNormalization = true)
    (hnames : (facetNames docs).length < 2 ^ 32) (hn : docs.length ≤ u32Bound)
    (hne : docs.length = u32Bound → all.splits ≠ []) (hkeys : ∀ s ∈ st.1, (distinctKeys s.docs).length < 2 ^ 32)
    (hserves : resolver.ServesBuild all) (hbloom : resolver.BloomOver fun k => k ∈ distinctKeys docs)
    (query : String) {filter : List (String × String)}
    (hfacets : filter ≠ [] → CutAlike (SplitSetBuilder.start config top v2).headBoundary new.splits ∧
      ∀ split ∈ new.splits, ∃ f ∈ all.facets, f.1 = facetFileName split.dataFile) (limit : Nat) :
    Settles (new.searchFiltered resolver query filter limit) (.ok
      ((((keptParts st.1 maxTier).flatMap SealedSplit.docs).findIdxs
        (BuildDoc.wanted (ngramKeysWith query new.gramSize true) filter)).take limit)) := by
  have hsizes : ∀ s ∈ st.1, s.bytes.length < u64Bound := by
    intro s hs
    obtain ⟨i, hi⟩ := List.mem_iff_getElem?.mp hs
    exact h.bytes_lt hi (hkeys s hs)
  have hpre := h.exists_kept maxTier
  have hplaces := h.places_prefix hn hne hsizes hpre
  obtain ⟨dead, hdead, hnone⟩ := hnew.exists_unmasked
  have hindexed : ∀ s ∈ keptParts st.1 maxTier, ∀ k, ∀ l ∈ (postsAndUpper s.docs).1.docs k, k ∈ distinctKeys docs := by
    intro s hs k l hl
    obtain ⟨doc, hdoc, hk⟩ := mem_keys_postsAndUpper.mp (mem_keys_of_mem_docs hl)
    refine List.mem_dedup.mpr (List.mem_flatMap.mpr ⟨doc, ?_, hk⟩)
    rw [← h.documents]
    exact List.mem_append_left _ (List.mem_flatMap.mpr ⟨s, hpre.subset hs, hdoc⟩)
  have hranked : RankedBy new.sortcol resolver ((keptParts st.1 maxTier).flatMap SealedSplit.docs).length none :=
    ⟨fun _ => rfl, fun desc hdesc => absurd (hnew.sortcol ▸ hdesc) (by simp)⟩
  by_cases hfilter : filter = []
  · have hstocked := h.stockedStripped hnew hfold hkeys hserves.splits
    have hsearch := hstocked.settles_places hdead hnone (fun keys => ?_) (fun _ => hranked) hbloom (fun x hx => ?_) query limit
    · unfold SplitSet.searchFiltered
      by_cases hzero : limit = 0
      · rw [if_pos hzero, hzero, List.take_zero]
        exact Settles.pure _
      · rw [if_neg hzero, hfilter, if_pos List.isEmpty_nil, BuildDoc.wanted_nil]
        rwa [hnew.caseFold, baseOrder_findIdxs] at hsearch
    · rw [← hplaces, shelfHits, List.flatMap_map]
      refine List.flatMap_congr fun s hs => ?_
      unfold Shelf.hits
      rw [h.toGlobal_strippedShelf (hpre.subset hs)]
      exact congrArg _ (strictDocs_postsAndUpper ((h.length_part_le (hpre.subset hs)).trans hn) keys)
    · obtain ⟨s, hs, rfl⟩ := List.mem_map.mp hx
      exact hindexed s hs
  · obtain ⟨hcut, hside⟩ := hfacets hfilter
    have hstocked := h.stockedFacetsStripped hnew hfold hcut hnames hn hkeys hserves hside
    have hsearch := hstocked.settles_places hdead hnone hfilter (fun keys => ?_) (fun _ => hranked) hbloom
      (fun x hx => ?_) query limit
    · rwa [hnew.caseFold, baseOrder_findIdxs] at hsearch
    · rw [← hplaces, List.flatMap_map]
      refine List.flatMap_congr fun s hs => ?_
      unfold filteredHits
      rw [h.toGlobal_strippedShelf (hpre.subset hs)]
      exact congrArg _ (filteredDocs_postsAndUpper ((h.length_part_le (hpre.subset hs)).trans hn) keys filter)
    · obtain ⟨s, hs, rfl⟩ := List.mem_map.mp hx
      exact hindexed s hs

/-- A set without a sort column finds the places of the documents that are wanted, in their order. -/
theorem CutInto.settles_unsorted (h : CutInto (SplitSetBuilder.start config top v2) docs all st)
    (hof : set.OfBuild (SplitSetBuilder.start config top v2) st.1)
    (hset : SplitSet.fromBytes all.manifest = .ok set) (hlen : all.manifest.length < u64Bound) (hnosort : set.sortcol = none)
    (hfold : (SplitSetBuilder.start config top v2).caseNormalization = true) (hnames : (facetNames docs).length < 2 ^ 32)
    (hn : docs.length ≤ u32Bound) (hne : docs.length = u32Bound → all.splits ≠ [])
    (hsizes : ∀ s ∈ st.1, s.bytes.length < u64Bound) (hparts : ∀ s ∈ st.1, (distinctKeys s.docs).length < 2 ^ 32)
    (hserves : resolver.ServesBuild all) (hbloom : resolver.BloomOver fun k => k ∈ distinctKeys docs) (query : String)
    {filter : List (String × String)} (hfacets : filter ≠ [] → (∃ doc ∈ docs, doc.facets ≠ []) ∧
      CutAlike (SplitSetBuilder.start config top v2).headBoundary set.splits) (limit : Nat) :
    Settles (set.searchFiltered resolver query filter limit) (.ok ((docs.findIdxs
      (BuildDoc.wanted (ngramKeysWith query (SplitSetBuilder.start config top v2).gramSize true) filter)).take limit)) := by
  have hsearch : resolver.ServesSearch set all docs none := by
    refine ⟨hserves, fun _ => ⟨fun _ => rfl, fun desc hdesc => ?_⟩, hbloom⟩
    rw [hnosort] at hdesc
    cases hdesc
  by_cases hfilter : filter = []
  · unfold SplitSet.searchFiltered
    by_cases hzero : limit = 0
    · rw [if_pos hzero, hzero, List.take_zero]
      exact Settles.pure _
    · rw [if_neg hzero, hfilter, if_pos List.isEmpty_nil]
      have hplain := h.settles_plain hof hn hne hparts hsearch query limit
      rwa [baseOrder_findIdxs, hof.gramSize, hof.caseFold, hfold, ← BuildDoc.wanted_nil] at hplain
  · obtain ⟨hdoc, hcut⟩ := hfacets hfilter
    have hflag := h.flagFacet hn hne hsizes hlen hset hdoc
    have hlimit := h.settles_filtered hof hflag hcut hnames hn hne hparts hsearch hfilter query limit
    rwa [baseOrder_findIdxs, hof.gramSize, hof.caseFold, hfold] at hlimit

/-- **A stripped set finds what the set found**, of the documents in the splits that are kept: all, without a last tier.  With
a filter every kept split has a sidecar, as nothing says any more which have none. -/
theorem strip_build {calls : List BuildCall} {r : BuildRun} {built : BuiltSplitSet}
    (hcalls : BuildRun.calls ⟨SplitSetBuilder.start config top v2, [], []⟩ calls = ([], r))
    (hfin : r.builder.finish = .ok built) (hcase : config.caseSensitive = false) (hsort : config.sortcol = none)
    (hn : (BuildCall.documents (SplitSetBuilder.start config top v2) calls).length ≤ 2 ^ 32)
    (hne : (BuildCall.documents (SplitSetBuilder.start config top v2) calls).length = 2 ^ 32 →
      r.files ++ built.splits ≠ [])
    (hkeys : (distinctKeys (BuildCall.documents (SplitSetBuilder.start config top v2) calls)).length < 2 ^ 32)
    (hnames : (facetNames (BuildCall.documents (SplitSetBuilder.start config top v2) calls)).length < 2 ^ 32)
    (hlen : built.manifest.length < u64Bound) (maxTier : Option Nat) :
    let b := SplitSetBuilder.start config top v2
    let docs := BuildCall.documents b calls
    let all : BuiltSplitSet := ⟨built.manifest, r.files ++ built.splits, r.facetFiles ++ built.facets⟩
    ∃ set bytes new, SplitSet.fromBytes built.manifest = .ok set ∧ set.stripSummaries maxTier = .ok bytes ∧
      SplitSet.fromBytes bytes = .ok new ∧
      new.splits.map Split.dataFile = (set.splits.filter fun s => maxTier.all fun mt => decide (s.tier ≤ mt)).map Split.dataFile ∧
      (maxTier = none → ∀ d < docs.length, set.keptDoc maxTier d = true) ∧
      ∀ resolver : SplitFetcher, resolver.ServesBuild all → (resolver.BloomOver fun k => k ∈ distinctKeys docs) →
        ∀ (query : String) (filter : List (String × String)),
        (filter ≠ [] → (∃ doc ∈ docs, doc.facets ≠ []) ∧ CutAlike b.headBoundary set.splits ∧
          ∀ split ∈ new.splits, ∃ f ∈ all.facets, f.1 = facetFileName split.dataFile) →
        let places := docs.findIdxs (BuildDoc.wanted (ngramKeysWith query b.gramSize true) filter)
        ∀ limit, Settles (set.searchFiltered resolver query filter limit) (.ok (places.take limit)) ∧
          Settles (new.searchFiltered resolver query filter limit) (.ok ((places.filter (set.keptDoc maxTier)).take limit)) := by
  intro b docs all
  obtain ⟨-, st, -, -, hinto⟩ := exists_cutInto hcalls hfin
  have hparts := hinto.distinctKeys_lt hkeys
  have hsizes : ∀ s ∈ st.1, s.bytes.length < u64Bound := by
    intro s hs
    obtain ⟨i, hi⟩ := List.mem_iff_getElem?.mp hs
    exact hinto.bytes_lt hi (hparts s hs)
  obtain ⟨set, hset, hof⟩ := hinto.exists_set hn hne hparts hlen
  have hnosort := hinto.sortcol_none hn hne hsizes hset hlen hsort
  obtain ⟨bytes, new, hstrip, hnew, hstripped⟩ := hinto.exists_stripped hof hn hne hsizes hset hlen hnosort maxTier
  have hfold : b.caseNormalization = true := by
    show (SplitSetBuilder.start config top v2).caseNormalization = true
    cases v2 <;> exact congrArg (!·) hcase
  have hpre := hinto.kept_documents hn hne maxTier
  have hkept := hinto.keptDoc_iff hof hn hne maxTier
  refine ⟨set, bytes, new, hset, hstrip, hnew, hof.dataFiles_stripped hstripped, ?_, ?_⟩
  · rintro rfl d hd
    rw [hkept, show keptParts st.1 none = st.1 from List.filter_eq_self.mpr fun s _ => rfl, (hinto.emitted hn hne).documents]
    exact hd
  · intro resolver hserves hbloom query filter hfacets places limit
    refine ⟨?_, ?_⟩
    · exact hinto.settles_unsorted hof hset hlen hnosort hfold hnames hn hne hsizes hparts hserves hbloom query
        (fun hfilter => ⟨(hfacets hfilter).1, (hfacets hfilter).2.1⟩) limit
    · have hsides : filter ≠ [] → CutAlike b.headBoundary new.splits ∧
          ∀ split ∈ new.splits, ∃ f ∈ all.facets, f.1 = facetFileName split.dataFile := by
        intro hfilter
        obtain ⟨-, hcut, hside⟩ := hfacets hfilter
        exact ⟨hof.cutAlike_stripped hstripped hcut, hside⟩
      have hplaces : places.filter (fun d => decide (d < ((keptParts st.1 maxTier).flatMap SealedSplit.docs).length)) =
          places.filter (set.keptDoc maxTier) :=
        List.filter_congr fun d _ => Bool.eq_iff_iff.mpr (by rw [decide_eq_true_eq, hkept])
      have hsearch := hinto.settles_stripped hstripped hfold hnames hn hne hparts hserves hbloom query hsides limit
      rwa [findIdxs_filter_lt hpre, hstripped.gramSize, hplaces] at hsearch

end

section

attribute [local instance] PortableCodec.roaring asciiUnicode asciiFilters FlatRouter.fst

theorem strip_build_four : ∃ (built : BuiltSplitSet) (set new : SplitSet) (bytes : Bytes) (resolver : SplitFetcher),
    (BuildRun.calls ⟨tieredTight, [], []⟩ facetedCalls).2.builder.finish = .ok built ∧
    SplitSet.fromBytes built.manifest = .ok set ∧ set.stripSummaries (some 1) = .ok bytes ∧
    SplitSet.fromBytes bytes = .ok new ∧ set.splits.length = 3 ∧ new.splits.length = 2 ∧
    Settles (set.searchFiltered resolver "abc" [("lang", "en")] 2) (.ok [0, 3]) ∧
    Settles (new.searchFiltered resolver "abc" [("lang", "en")] 2) (.ok [0]) := by
  have hcalls : BuildRun.calls ⟨tieredTight, [], []⟩ facetedCalls =
      ([], (BuildRun.calls ⟨tieredTight, [], []⟩ facetedCalls).2) := Prod.ext (by decide +kernel) rfl
  generalize hr : (BuildRun.calls ⟨tieredTight, [], []⟩ facetedCalls).2 = r at hcalls ⊢
  have hcheck : (r.builder.finish.toOption.bind fun built => (SplitSet.fromBytes built.manifest).toOption.bind fun set =>
      (set.stripSummaries (some 1)).toOption.bind fun bytes => (SplitSet.fromBytes bytes).toOption.map fun new =>
        decide (built.manifest.length < u64Bound ∧ (set.splits.length = 3 ∧ new.splits.length = 2 ∧
          set.keptDoc (some 1) 0 = true ∧ set.keptDoc (some 1) 3 = false) ∧
          ((((r.files ++ built.splits) ++ (r.facetFiles ++ built.facets)).map Prod.fst).Nodup ∧
          ∀ split ∈ new.splits, ∃ f ∈ r.facetFiles ++ built.facets, f.1 = facetFileName split.dataFile))) = some true := by
    rw [← hr]
    decide +kernel
  cases hfin : r.builder.finish with
  | error e =>
    rw [hfin] at hcheck
    cases hcheck
  | ok built =>
    rw [hfin] at hcheck
    rw [show (Except.ok built).toOption = some built from rfl, Option.bind_some] at hcheck
    obtain ⟨set', hset', hcheck⟩ := Option.bind_eq_some_iff.mp hcheck
    obtain ⟨bytes', hstrip', hcheck⟩ := Option.bind_eq_some_iff.mp hcheck
    obtain ⟨new', hnew', hdec⟩ := Option.map_eq_some_iff.mp hcheck
    obtain ⟨hlen, ⟨hthree, htwo, hfirst, hlast⟩, hnames, hside⟩ := of_decide_eq_true hdec
    obtain ⟨set, bytes, new, hset, hstrip, hnew, -, -, hsearch⟩ := @strip_build _ _ (tieredConfig 100 tight_fits) 0 false _ _ _
      _ _ hcalls hfin rfl rfl (by decide +kernel) (fun h => absurd h (by decide +kernel)) (by decide +kernel)
      (by decide +kernel) hlen (some 1)
    obtain rfl : set = set' := by
      rw [hset] at hset'
      exact Option.some.inj hset'
    obtain rfl : bytes = bytes' := by
      rw [hstrip] at hstrip'
      exact Option.some.inj hstrip'
    obtain rfl : new = new' := by
      rw [hnew] at hnew'
      exact Option.some.inj hnew'
    obtain ⟨hold, hfound⟩ := hsearch _ (SplitFetcher.servesBuild_ofFiles hnames) (fun name hname => by cases hname) "abc"
      [("lang", "en")] (fun _ => ⟨by decide +kernel, Or.inl rfl, hside⟩) 2
    have hplaces : (BuildCall.documents tieredTight facetedCalls).findIdxs
        (BuildDoc.wanted (ngramKeysWith "abc" tieredTight.gramSize true) [("lang", "en")]) = [0, 3] := by
      decide +kernel
    have hkept : [0, 3].filter (set.keptDoc (some 1)) = [0] := by
      rw [List.filter_cons_of_pos hfirst, List.filter_cons_of_neg (by rw [hlast]; decide), List.filter_nil]
    refine ⟨built, set, new, bytes, .ofFiles ((r.files ++ built.splits) ++ (r.facetFiles ++ built.facets)), rfl, hset,
      hstrip, hnew, hthree, htwo, ?_, ?_⟩
    · exact hplaces ▸ hold
    · have hpage := hplaces ▸ hfound
      rwa [hkept] at hpage

end

end RoaringRange
