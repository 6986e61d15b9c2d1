import Mathlib.Data.List.Chain
import RoaringRange.TermSplitBuild

/-!
# Merging the bands of a parallel build (`splitset_build.rs`)

`merge_term_split_bands` strings the splits of the bands together, gives them one file sequence, and renames the
files that the bands still hold by the first stem of the band that begins their name.

    the ids are checked against the last id of the split before, which wraps at 2^32      (merge_ok_iff)
    a file numbered from 100000 on has the stem of a smaller split at its start           (renamed_eq)
    when the merge is exact                                                          (mergeExact_iff)
-/

namespace RoaringRange

open ByteString Faults Tiles

/-! ## The merge -/

/-- `str::trim_end_matches`, at most `n` times. -/
def trimEnd (suffix : String) : Nat → String → String
  | 0, s => s
  | n + 1, s =>
    match stripSuffix s suffix with
    | some t => trimEnd suffix n t
    | none => s

/-- `str::trim_end_matches`. -/
def trimEndMatches (s suffix : String) : String := trimEnd suffix s.toList.length s

/-- What `merge_term_split_bands` accumulates. -/
structure MergeState where
  specs : List SplitSpec
  splits : NamedFiles
  facets : NamedFiles
  renames : List (String × String)
  hasFacets : Bool
  nextLo : Nat
  seq : Nat

/-- One split of a band; `next_lo` is a 32-bit sum. -/
def mergeSpec (config : TermSplitBuildConfig) (st : MergeState × List (String × String)) (spec : SplitSpec) :
    Except String (MergeState × List (String × String)) :=
  if 0 < st.1.seq ∧ spec.docIdLo < st.1.nextLo then
    .error ("RRSS band merge: split " ++ debugText spec.dataFile ++ " docIdLo " ++ toString spec.docIdLo ++
      " overlaps the previous split (next expected " ++ toString st.1.nextLo ++ ")")
  else
    let newName := splitStem config.namePrefix st.1.seq ++ ".rrt"
    .ok ({ st.1 with
        specs := st.1.specs ++
          [{ spec with dataFile := newName, tier := SplitSetBuilder.tier config.policy st.1.seq }]
        renames := if spec.dataFile = newName then st.1.renames else st.1.renames ++ [(spec.dataFile, newName)]
        nextLo := (spec.docIdHi + 1) % u32Bound
        seq := st.1.seq + 1 },
      st.2 ++ [(trimEndMatches spec.dataFile ".rrt", trimEndMatches newName ".rrt")])

/-- The new name of a file: the first old stem that starts it is replaced. -/
def renamed (stemRenames : List (String × String)) (name : String) : String :=
  match stemRenames.findSome? fun p => (stripPrefix name p.1).map fun ext => p.2 ++ ext with
  | some new => new
  | none => name

def mergeBand (config : TermSplitBuildConfig) (st : MergeState) (band : TermSplitParts) : Except String MergeState := do
  let (st, stemRenames) ← band.specs.foldlM (mergeSpec config) ({ st with hasFacets := st.hasFacets || band.hasFacets }, [])
  pure { st with
    splits := st.splits ++ band.splits.map fun f => (renamed stemRenames f.1, f.2)
    facets := st.facets ++ band.facets.map fun f => (renamed stemRenames f.1, f.2) }

/-- The manifest configuration of a merge. -/
def mergeConfig (config : TermSplitBuildConfig) (count : Nat) (hasFacets : Bool) : SplitSetConfig where
  policy := config.policy
  tierCount := SplitSetBuilder.tier config.policy count
  baseCount := count % u32Bound
  byteCap := config.byteCap
  gramSize := 0
  bodyKind := .term
  sortcol := config.sortcol
  flags := (if hasFacets then flagFacet else 0) ||| (if config.caseSensitive then flagCaseSensitive else 0)

/-- `splitset_build::merge_term_split_bands`: the merged set, and the names of files already drained. -/
def mergeTermSplitBands (bands : List TermSplitParts) (config : TermSplitBuildConfig) :
    Except String (BuiltSplitSet × List (String × String)) := do
  let st ← bands.foldlM (mergeBand config) ⟨[], [], [], [], false, 0, 0⟩
  let manifest ← writeSplitset st.specs (mergeConfig config st.specs.length st.hasFacets)
  pure (⟨manifest, st.splits, st.facets⟩, st.renames)

/-! ## Stems -/

/-- What does not end in a suffix keeps its end. -/
theorem stripSuffix_none {s suffix : String} (h : ¬ suffix.toList <:+ s.toList) : stripSuffix s suffix = none := by
  unfold stripSuffix
  rw [if_neg]
  intro heq
  exact h (heq ▸ List.drop_suffix _ _)

/-- A stem ends in a digit. -/
theorem splitStem_no_suffix (namePrefix : String) (i : Nat) {c : Char} (hc : c.isDigit = false) (ext : String)
    (hext : ext.toList.getLast? = some c) : ¬ ext.toList <:+ (splitStem namePrefix i).toList := by
  intro h
  have hlast : (splitStem namePrefix i).toList.getLast? = (Decimal.padded 5 i).getLast? := by
    unfold splitStem paddedIdx
    rw [String.toList_append, String.toList_ofList, List.getLast?_append]
    cases hp : (Decimal.padded 5 i).getLast? with
    | none =>
      rw [List.getLast?_eq_none_iff] at hp
      have := Decimal.length_padded 5 i
      rw [hp, List.length_nil] at this
      omega
    | some d => rfl
  obtain ⟨pre, hpre⟩ := h
  have hc' : (splitStem namePrefix i).toList.getLast? = some c := by
    rw [← hpre, List.getLast?_append, hext]
    rfl
  rw [hlast] at hc'
  have := Decimal.isDigit_of_mem_padded (List.mem_of_getLast? hc')
  rw [hc] at this
  cases this

theorem trimEndMatches_rrt (namePrefix : String) (i : Nat) :
    trimEndMatches (splitStem namePrefix i ++ ".rrt") ".rrt" = splitStem namePrefix i := by
  have hnone : stripSuffix (splitStem namePrefix i) ".rrt" = none :=
    stripSuffix_none (splitStem_no_suffix namePrefix i (c := 't') rfl ".rrt" rfl)
  have hlen : (splitStem namePrefix i ++ ".rrt").toList.length = (splitStem namePrefix i).toList.length + 2 + 2 := by
    rw [String.toList_append, List.length_append]
    rfl
  unfold trimEndMatches
  rw [hlen, trimEnd, stripSuffix_append]
  simp only
  rw [trimEnd, hnone]

theorem facetFileName_rrt (namePrefix : String) (i : Nat) :
    facetFileName (splitStem namePrefix i ++ ".rrt") = splitStem namePrefix i ++ ".rrf" := by
  have hnone : stripSuffix (splitStem namePrefix i ++ ".rrt") ".rrs" = none := by
    apply stripSuffix_none
    rintro ⟨pre, hpre⟩
    have := congrArg List.getLast? hpre
    have hs : ".rrs".toList.getLast? = some 's' := rfl
    have ht : ".rrt".toList.getLast? = some 't' := rfl
    rw [String.toList_append, List.getLast?_append, List.getLast?_append, hs, ht] at this
    exact absurd (Option.some.inj this) (by decide)
  unfold facetFileName
  rw [hnone, stripSuffix_append]
  rfl

/-! ## Renaming -/

/-- The old and new stems of a band whose first split has the number `start`. -/
def stemsOf (old new : String) (start count : Nat) : List (String × String) :=
  (List.range count).map fun i => (splitStem old i, splitStem new (start + i))

theorem stripPrefix_eq_some {s start rest : String} : stripPrefix s start = some rest ↔ s = start ++ rest := by
  unfold stripPrefix
  constructor
  · intro h
    by_cases hp : start.toList.isPrefixOf s.toList = true
    · rw [if_pos hp] at h
      obtain rfl := Option.some.inj h
      obtain ⟨t, ht⟩ := List.isPrefixOf_iff_prefix.mp hp
      apply String.toList_injective
      rw [String.toList_append, String.toList_ofList, ← ht, List.drop_left]
    · rw [if_neg hp] at h
      cases h
  · rintro rfl
    rw [if_pos (List.isPrefixOf_iff_prefix.mpr (by rw [String.toList_append]; exact List.prefix_append _ _)),
      String.toList_append, List.drop_left, String.ofList_toList]

/-- A prefix without a char is one of what is before that char. -/
theorem prefix_of_not_mem {α : Type} {xs ys zs : List α} {c : α} (hc : c ∉ xs) (h : xs <+: ys ++ c :: zs) : xs <+: ys := by
  rcases List.prefix_or_prefix_of_prefix h (List.prefix_append ys (c :: zs)) with hxy | ⟨t, rfl⟩
  · exact hxy
  · cases t with
    | nil => rw [List.append_nil]
    | cons d t =>
      obtain ⟨rfl, -⟩ := List.cons_prefix_cons.mp ((List.prefix_append_right_inj ys).mp h)
      exact absurd (List.mem_append_right ys List.mem_cons_self) hc

/-- An old stem starts the name of a file where its digits start the file's. -/
theorem splitStem_append_eq {old ext rest : String} {zs : List Char} (hext : ext.toList = '.' :: zs) {i j : Nat} :
    splitStem old j ++ ext = splitStem old i ++ rest ↔
      ∃ digits, Decimal.padded 5 j = Decimal.padded 5 i ++ digits ∧ rest = String.ofList digits ++ ext := by
  have hlist : splitStem old j ++ ext = splitStem old i ++ rest ↔
      Decimal.padded 5 j ++ ext.toList = Decimal.padded 5 i ++ rest.toList := by
    rw [← String.toList_inj]
    unfold splitStem paddedIdx
    simp only [String.toList_append, String.toList_ofList, List.append_assoc, List.append_cancel_left_eq]
  rw [hlist]
  constructor
  · intro h
    have hdot : '.' ∉ Decimal.padded 5 i := fun hmem => by
      have := Decimal.isDigit_of_mem_padded hmem
      exact absurd this (by decide)
    obtain ⟨digits, hd⟩ := prefix_of_not_mem hdot (hext ▸ h ▸ List.prefix_append _ _ :
      Decimal.padded 5 i <+: Decimal.padded 5 j ++ '.' :: zs)
    refine ⟨digits, hd.symm, ?_⟩
    rw [← hd, List.append_assoc, List.append_cancel_left_eq] at h
    apply String.toList_injective
    rw [String.toList_append, String.toList_ofList, h]
  · rintro ⟨digits, hd, rfl⟩
    rw [hd, String.toList_append, String.toList_ofList, List.append_assoc]

variable {old new ext : String} {zs : List Char} {start count j : Nat}

/-- **What a file is renamed to**: the first stem of the band that starts its name is replaced. -/
theorem renamed_eq (hext : ext.toList = '.' :: zs) (hj : j < count) : ∃ i digits, i ≤ j ∧
    Decimal.padded 5 j = Decimal.padded 5 i ++ digits ∧ (10 ^ 5 ≤ j → i < j) ∧
    renamed (stemsOf old new start count) (splitStem old j ++ ext) =
      splitStem new (start + i) ++ (String.ofList digits ++ ext) := by
  let rename (p : String × String) : Option String :=
    (stripPrefix (splitStem old j ++ ext) p.1).map fun rest => p.2 ++ rest
  -- a stem of the band that starts the name
  have hmatch : ∀ (i : Nat) (digits : List Char), Decimal.padded 5 j = Decimal.padded 5 i ++ digits →
      rename (splitStem old i, splitStem new (start + i)) ≠ none := by
    intro i digits hd
    have hsome : stripPrefix (splitStem old j ++ ext) (splitStem old i) = some (String.ofList digits ++ ext) :=
      stripPrefix_eq_some.mpr ((splitStem_append_eq hext).mpr ⟨digits, hd, rfl⟩)
    show (stripPrefix (splitStem old j ++ ext) (splitStem old i)).map _ ≠ none
    rw [hsome]
    exact Option.some_ne_none _
  unfold renamed
  cases hfind : (stemsOf old new start count).findSome? rename with
  | none =>
    have := List.findSome?_eq_none_iff.mp hfind _ (List.mem_map.mpr ⟨j, List.mem_range.mpr hj, rfl⟩)
    exact absurd this (hmatch j [] (List.append_nil _).symm)
  | some name =>
    obtain ⟨before, p, after, hsplit, hp, hnone⟩ := List.findSome?_eq_some_iff.mp hfind
    -- the first match is the stem of the split with the index `before.length`
    have hlen : before.length < count := by
      have := congrArg List.length hsplit
      rw [stemsOf, List.length_map, List.length_range, List.length_append, List.length_cons] at this
      omega
    have hat : ∀ i, i < count → (stemsOf old new start count)[i]? = some (splitStem old i, splitStem new (start + i)) := by
      intro i hi
      rw [stemsOf, List.getElem?_map, List.getElem?_range hi]
      rfl
    have hpi : p = (splitStem old before.length, splitStem new (start + before.length)) := by
      have := hat before.length hlen
      rw [hsplit, List.getElem?_append_right (Nat.le_refl _), Nat.sub_self] at this
      exact Option.some.inj this
    have hfirst : ∀ (i : Nat) (digits : List Char), i < count → Decimal.padded 5 j = Decimal.padded 5 i ++ digits →
        before.length ≤ i := by
      intro i digits hi hd
      by_contra hlt
      have hmem : (splitStem old i, splitStem new (start + i)) ∈ before := by
        have := hat i hi
        rw [hsplit, List.getElem?_append_left (by omega)] at this
        exact List.mem_of_getElem? this
      exact hmatch i digits hd (hnone _ hmem)
    subst hpi
    obtain ⟨rest, hrest, hname⟩ := Option.map_eq_some_iff.mp hp
    obtain ⟨digits, hd, rfl⟩ := (splitStem_append_eq hext).mp (stripPrefix_eq_some.mp hrest)
    refine ⟨before.length, digits, hfirst j [] hj (List.append_nil _).symm, hd, fun hlong => ?_, hname.symm⟩
    obtain ⟨last, hlast⟩ := @Decimal.padded_div_ten 5 j (by decide) hlong
    have := hfirst (j / 10) last (by omega) hlast.symm
    omega

/-- **A file keeps its place** unless its split's number is long and other bands come before. -/
theorem renamed_exact (hext : ext.toList = '.' :: zs) (hj : j < count) :
    renamed (stemsOf old new start count) (splitStem old j ++ ext) = splitStem new (start + j) ++ ext ↔
      start = 0 ∨ j < 10 ^ 5 := by
  obtain ⟨i, digits, hij, hd, hlong, hname⟩ := @renamed_eq old new ext zs start count j hext hj
  have hsum : splitStem new (start + j) ++ ext = splitStem new (start + i) ++ (String.ofList digits ++ ext) ↔
      Decimal.padded 5 (start + j) = Decimal.padded 5 (start + i) ++ digits := by
    rw [splitStem_append_eq hext]
    constructor
    · rintro ⟨digits', hd', heq⟩
      have hlist := congrArg String.toList heq
      rw [String.toList_append, String.toList_append, List.append_cancel_right_eq, String.toList_ofList,
        String.toList_ofList] at hlist
      rw [hd', hlist]
    · intro h
      exact ⟨digits, h, rfl⟩
  rw [hname, eq_comm, hsum]
  constructor
  · intro h
    by_contra hnot
    rw [not_or, Nat.not_lt] at hnot
    have h1 := Decimal.eq_of_padded_append h
    have h2 := Decimal.eq_of_padded_append hd
    have hne := hlong hnot.2
    cases digits with
    | nil =>
      rw [List.append_nil] at hd
      have := Decimal.padded_injective hd
      omega
    | cons c digits =>
      rw [List.length_cons, Nat.pow_succ, Nat.mul_add] at h1
      rw [List.length_cons, Nat.pow_succ] at h2
      have hpow : 0 < 10 ^ digits.length := Nat.pow_pos (by decide)
      have hbig : start < 10 ^ digits.length * 10 * start :=
        calc start < 10 * start := by omega
          _ ≤ 10 ^ digits.length * 10 * start := Nat.mul_le_mul_right start (by omega)
      omega
  · rintro (rfl | hshort)
    · rw [Nat.zero_add, Nat.zero_add]
      exact hd
    · have hi := Decimal.eq_of_padded_prefix (by decide) hshort ⟨digits, hd.symm⟩
      subst hi
      have : digits = [] := by
        rw [List.self_eq_append_right] at hd
        exact hd
      rw [this, List.append_nil]

/-! ## What the merge computes -/

/-- The splits of a merge, in its file sequence. -/
def mergedSpecs (config : TermSplitBuildConfig) (specs : List SplitSpec) : List SplitSpec :=
  specs.zipIdx.map fun x => { x.1 with
    dataFile := splitStem config.namePrefix x.2 ++ ".rrt", tier := SplitSetBuilder.tier config.policy x.2 }

/-- The stem pairs of the splits of a band. -/
def stemPairs (config : TermSplitBuildConfig) (specs : List SplitSpec) (start : Nat) : List (String × String) :=
  (specs.zipIdx start).map fun x =>
    (trimEndMatches x.1.dataFile ".rrt", trimEndMatches (splitStem config.namePrefix x.2 ++ ".rrt") ".rrt")

/-- The names that change. -/
def renamesOf (config : TermSplitBuildConfig) (specs : List SplitSpec) : List (String × String) :=
  (specs.zipIdx.map fun x => (x.1.dataFile, splitStem config.namePrefix x.2 ++ ".rrt")).filter fun p => p.1 ≠ p.2

/-- The check between a split and the next: the end of the first wraps. -/
def Follows (a b : SplitSpec) : Prop := (a.docIdHi + 1) % u32Bound ≤ b.docIdLo

instance (a b : SplitSpec) : Decidable (Follows a b) := inferInstanceAs (Decidable (_ ≤ _))

/-- The merge after the splits `done`, with some files renamed. -/
def MergeState.after (config : TermSplitBuildConfig) (done : List SplitSpec) (splits facets : NamedFiles)
    (hasFacets : Bool) : MergeState where
  specs := mergedSpecs config done
  splits := splits
  facets := facets
  renames := renamesOf config done
  hasFacets := hasFacets
  nextLo := ((done.getLast?).map fun s => (s.docIdHi + 1) % u32Bound).getD 0
  seq := done.length

variable {config : TermSplitBuildConfig} {done : List SplitSpec} {splits facets : NamedFiles} {hasFacets : Bool}
  {stems : List (String × String)}

theorem mergeSpec_ok {spec : SplitSpec} (h : ∀ a ∈ done.getLast?, Follows a spec) :
    mergeSpec config (MergeState.after config done splits facets hasFacets, stems) spec =
      .ok (MergeState.after config (done ++ [spec]) splits facets hasFacets,
        stems ++ stemPairs config [spec] done.length) := by
  have hgo : ¬ (0 < (MergeState.after config done splits facets hasFacets).seq ∧
      spec.docIdLo < (MergeState.after config done splits facets hasFacets).nextLo) := by
    rintro ⟨-, hlt⟩
    unfold MergeState.after at hlt
    cases hlast : done.getLast? with
    | none =>
      simp only [hlast, Option.map_none, Option.getD_none] at hlt
      omega
    | some a =>
      simp only [hlast, Option.map_some, Option.getD_some] at hlt
      have hle : (a.docIdHi + 1) % u32Bound ≤ spec.docIdLo := h a (by rw [hlast]; rfl)
      omega
  unfold mergeSpec
  rw [if_neg hgo]
  simp only [MergeState.after, mergedSpecs, renamesOf, stemPairs, List.zipIdx_append, List.map_append, List.filter_append,
    List.getLast?_concat, Option.map_some, Option.getD_some, List.length_append, Nat.zero_add]
  by_cases hname : spec.dataFile = splitStem config.namePrefix done.length ++ ".rrt"
  · simp [hname]
  · simp [hname]

theorem mergeSpec_error {spec a : SplitSpec} (ha : a ∈ done.getLast?) (h : ¬ Follows a spec) :
    ∃ e, mergeSpec config (MergeState.after config done splits facets hasFacets, stems) spec = .error e := by
  have hlast : done.getLast? = some a := ha
  have hstop : 0 < (MergeState.after config done splits facets hasFacets).seq ∧
      spec.docIdLo < (MergeState.after config done splits facets hasFacets).nextLo := by
    constructor
    · exact List.length_pos_of_mem (List.mem_of_getLast? hlast)
    · simp only [MergeState.after, hlast, Option.map_some, Option.getD_some]
      exact Nat.lt_of_not_le h
  unfold mergeSpec
  rw [if_pos hstop]
  exact ⟨_, rfl⟩

/-- Splits that follow one another are taken. -/
theorem mergeSpecs_ok {specs : List SplitSpec} (h : (done ++ specs).IsChain Follows) :
    specs.foldlM (mergeSpec config) (MergeState.after config done splits facets hasFacets, stems) =
      .ok (MergeState.after config (done ++ specs) splits facets hasFacets,
        stems ++ stemPairs config specs done.length) := by
  induction specs generalizing done stems with
  | nil =>
    rw [List.append_nil]
    exact congrArg (fun x => Except.ok (MergeState.after config done splits facets hasFacets, x))
      (List.append_nil stems).symm
  | cons spec specs ih =>
    have hfollows : ∀ a ∈ done.getLast?, Follows a spec := fun a ha =>
      (List.isChain_append.mp h).2.2 a ha spec rfl
    rw [List.foldlM_cons, mergeSpec_ok hfollows]
    show specs.foldlM (mergeSpec config) _ = _
    rw [ih (by rw [List.append_assoc]; exact h), List.append_assoc, List.append_assoc, List.length_append]
    rfl

/-- Splits one of which does not follow are refused. -/
theorem mergeSpecs_error {specs : List SplitSpec} (hdone : done.IsChain Follows)
    (h : ¬ (done ++ specs).IsChain Follows) :
    ∃ e, specs.foldlM (mergeSpec config) (MergeState.after config done splits facets hasFacets, stems) = .error e := by
  induction specs generalizing done stems with
  | nil =>
    rw [List.append_nil] at h
    exact absurd hdone h
  | cons spec specs ih =>
    rw [List.foldlM_cons]
    by_cases hfollows : ∀ a ∈ done.getLast?, Follows a spec
    · rw [mergeSpec_ok hfollows]
      apply ih
      · refine List.isChain_append.mpr ⟨hdone, List.isChain_singleton _, fun a ha b hb => ?_⟩
        obtain rfl := Option.some.inj hb
        exact hfollows a ha
      · rwa [List.append_assoc]
    · simp only [not_forall] at hfollows
      obtain ⟨a, ha, hnot⟩ := hfollows
      obtain ⟨e, he⟩ := @mergeSpec_error config done splits facets hasFacets stems spec a ha hnot
      exact ⟨e, by rw [he]; rfl⟩

/-- Files of the bands under their new names. -/
def renamedFiles (config : TermSplitBuildConfig) (files : TermSplitParts → NamedFiles) :
    Nat → List TermSplitParts → NamedFiles
  | _, [] => []
  | start, band :: bands =>
    (files band).map (fun f => (renamed (stemPairs config band.specs start) f.1, f.2)) ++
      renamedFiles config files (start + band.specs.length) bands

/-- **What the merge of the bands is**, where their splits follow one another. -/
theorem mergeBands_ok {bands : List TermSplitParts}
    (h : (done ++ bands.flatMap TermSplitParts.specs).IsChain Follows) :
    bands.foldlM (mergeBand config) (MergeState.after config done splits facets hasFacets) =
      .ok (MergeState.after config (done ++ bands.flatMap TermSplitParts.specs)
        (splits ++ renamedFiles config TermSplitParts.splits done.length bands)
        (facets ++ renamedFiles config TermSplitParts.facets done.length bands)
        (hasFacets || bands.any TermSplitParts.hasFacets)) := by
  induction bands generalizing done splits facets hasFacets with
  | nil => simp [renamedFiles, pure, Except.pure]
  | cons band bands ih =>
    rw [List.flatMap_cons, ← List.append_assoc] at h
    have hband : mergeBand config (MergeState.after config done splits facets hasFacets) band =
        .ok (MergeState.after config (done ++ band.specs)
          (splits ++ band.splits.map fun f => (renamed (stemPairs config band.specs done.length) f.1, f.2))
          (facets ++ band.facets.map fun f => (renamed (stemPairs config band.specs done.length) f.1, f.2))
          (hasFacets || band.hasFacets)) := by
      unfold mergeBand
      have := @mergeSpecs_ok config done splits facets (hasFacets || band.hasFacets) [] band.specs
        (List.isChain_append.mp h).1
      show (band.specs.foldlM (mergeSpec config)
        (MergeState.after config done splits facets (hasFacets || band.hasFacets), []) >>= _) = _
      rw [this]
      rfl
    rw [List.foldlM_cons, hband]
    show bands.foldlM (mergeBand config) _ = _
    rw [ih h, List.length_append, List.append_assoc, List.append_assoc, List.append_assoc, Bool.or_assoc]
    rfl

theorem mergeBands_error {bands : List TermSplitParts} (hdone : done.IsChain Follows)
    (h : ¬ (done ++ bands.flatMap TermSplitParts.specs).IsChain Follows) :
    ∃ e, bands.foldlM (mergeBand config) (MergeState.after config done splits facets hasFacets) = .error e := by
  induction bands generalizing done splits facets hasFacets with
  | nil =>
    rw [List.flatMap_nil, List.append_nil] at h
    exact absurd hdone h
  | cons band bands ih =>
    rw [List.foldlM_cons]
    by_cases hchain : (done ++ band.specs).IsChain Follows
    · rw [List.flatMap_cons, ← List.append_assoc] at h
      have := @mergeSpecs_ok config done splits facets (hasFacets || band.hasFacets) [] band.specs hchain
      unfold mergeBand
      show ∃ e, ((band.specs.foldlM (mergeSpec config)
        (MergeState.after config done splits facets (hasFacets || band.hasFacets), []) >>= _) >>= _) = _
      rw [this]
      exact @ih (done ++ band.specs) _ _ _ hchain h
    · obtain ⟨e, he⟩ := @mergeSpecs_error config done splits facets (hasFacets || band.hasFacets) [] band.specs
        hdone hchain
      refine ⟨e, ?_⟩
      unfold mergeBand
      show ((band.specs.foldlM (mergeSpec config)
        (MergeState.after config done splits facets (hasFacets || band.hasFacets), []) >>= _) >>= _) = _
      rw [he]
      rfl

/-! ## When the merge is exact -/

/-- The id ranges of the splits ascend. -/
structure Increasing (specs : List SplitSpec) : Prop where
  range : ∀ s ∈ specs, s.docIdLo ≤ s.docIdHi
  order : specs.Pairwise fun a b => a.docIdHi < b.docIdLo

/-- A split begins before the end of the one before it, which is not the last id there is. -/
def Clash (specs : List SplitSpec) : Prop :=
  ∃ (i : Nat) (a b : SplitSpec), specs[i]? = some a ∧ specs[i + 1]? = some b ∧ b.docIdLo ≤ a.docIdHi ∧
    a.docIdHi + 1 < u32Bound

/-- What a manifest of the splits needs besides short split names. -/
structure MergeEncodable (config : TermSplitBuildConfig) (specs : List SplitSpec) : Prop where
  sortcol_lt : ∀ sc, config.sortcol = some sc → (utf8 sc.name).length < 2 ^ 16
  names_lt : (((List.range specs.length).flatMap fun i => utf8 (splitStem config.namePrefix i ++ ".rrt")) ++
    (config.sortcol.map fun sc => utf8 sc.name).getD []).length < 2 ^ 32
  summary_lt : ∀ s ∈ specs, s.summary.length < 2 ^ 32

/-- The files that the bands still hold, each with the number of its band's first split. -/
def heldFiles (files : TermSplitParts → NamedFiles) :
    Nat → List TermSplitParts → List (Nat × TermSplitParts × (String × Bytes))
  | _, [] => []
  | start, band :: bands =>
    (files band).map (fun f => (start, band, f)) ++ heldFiles files (start + band.specs.length) bands

/-- A held file and what it has become: both are named after the same split (`name` makes a file's name of it). -/
def RenamedTo (specs : List SplitSpec) (name : String → String) (h : Nat × TermSplitParts × (String × Bytes))
    (g : String × Bytes) : Prop :=
  ∃ (i : Nat) (old new : SplitSpec), h.2.1.specs[i]? = some old ∧ specs[h.1 + i]? = some new ∧
    h.2.2.1 = name old.dataFile ∧ g = (name new.dataFile, h.2.2.2)

/-- The merge fails just where the ranges clash, and what it makes has ascending ranges, distinct names, and every
held file under the name of its split. -/
structure MergeExact (bands : List TermSplitParts) (config : TermSplitBuildConfig) : Prop where
  error_iff : (∃ e, mergeTermSplitBands bands config = .error e) ↔ ¬ Increasing (bands.flatMap TermSplitParts.specs)
  ok : ∀ st r, bands.foldlM (mergeBand config) ⟨[], [], [], [], false, 0, 0⟩ = .ok st →
    mergeTermSplitBands bands config = .ok r → Increasing st.specs ∧ (st.specs.map SplitSpec.dataFile).Nodup ∧
      List.Forall₂ (RenamedTo st.specs id) (heldFiles TermSplitParts.splits 0 bands) r.1.splits ∧
      List.Forall₂ (RenamedTo st.specs facetFileName) (heldFiles TermSplitParts.facets 0 bands) r.1.facets

/-- Held files named after splits below number 100000, in every band but the first with splits. -/
def ShortNumbers (files : TermSplitParts → NamedFiles) (name : String → String) (bands : List TermSplitParts) : Prop :=
  ∀ h ∈ heldFiles files 0 bands, 0 < h.1 → ∀ (i : Nat) (old : SplitSpec), h.2.1.specs[i]? = some old →
    h.2.2.1 = name old.dataFile → i < 10 ^ 5

/-- **The whole merge**, where the splits follow one another. -/
theorem mergeTermSplitBands_eq {bands : List TermSplitParts} (h : (bands.flatMap TermSplitParts.specs).IsChain Follows) :
    mergeTermSplitBands bands config =
      (writeSplitset (mergedSpecs config (bands.flatMap TermSplitParts.specs))
        (mergeConfig config (bands.flatMap TermSplitParts.specs).length (bands.any TermSplitParts.hasFacets))).map fun m =>
        (⟨m, renamedFiles config TermSplitParts.splits 0 bands, renamedFiles config TermSplitParts.facets 0 bands⟩,
          renamesOf config (bands.flatMap TermSplitParts.specs)) := by
  have hbands := @mergeBands_ok config [] [] [] false bands h
  unfold mergeTermSplitBands
  show (bands.foldlM (mergeBand config) (MergeState.after config [] [] [] false) >>= _) = _
  rw [hbands]
  have hlen : (mergedSpecs config (bands.flatMap TermSplitParts.specs)).length =
      (bands.flatMap TermSplitParts.specs).length := by
    rw [mergedSpecs, List.length_map, List.length_zipIdx]
  show (writeSplitset (mergedSpecs config (bands.flatMap TermSplitParts.specs)) (mergeConfig config
    (mergedSpecs config (bands.flatMap TermSplitParts.specs)).length (bands.any TermSplitParts.hasFacets)) >>= _) = _
  rw [hlen]
  cases writeSplitset (mergedSpecs config (bands.flatMap TermSplitParts.specs))
    (mergeConfig config (bands.flatMap TermSplitParts.specs).length (bands.any TermSplitParts.hasFacets)) with
  | error e => rfl
  | ok m => rfl

theorem mergeTermSplitBands_error {bands : List TermSplitParts}
    (h : ¬ (bands.flatMap TermSplitParts.specs).IsChain Follows) : ∃ e, mergeTermSplitBands bands config = .error e := by
  obtain ⟨e, he⟩ := @mergeBands_error config [] [] [] false bands List.isChain_nil h
  refine ⟨e, ?_⟩
  unfold mergeTermSplitBands
  show (bands.foldlM (mergeBand config) (MergeState.after config [] [] [] false) >>= _) = _
  rw [he]
  rfl

theorem renamedFiles_eq (files : TermSplitParts → NamedFiles) (n : Nat) (bands : List TermSplitParts) :
    renamedFiles config files n bands = (heldFiles files n bands).map fun h =>
      (renamed (stemPairs config h.2.1.specs h.1) h.2.2.1, h.2.2.2) := by
  induction bands generalizing n with
  | nil => rfl
  | cons band bands ih =>
    unfold renamedFiles heldFiles
    rw [ih, List.map_append, List.map_map]
    rfl

/-- Every held file is of a band, whose first split has that number among all. -/
theorem mem_heldFiles {files : TermSplitParts → NamedFiles} {n : Nat} {bands : List TermSplitParts}
    {h : Nat × TermSplitParts × (String × Bytes)} (hmem : h ∈ heldFiles files n bands) :
    h.2.1 ∈ bands ∧ h.2.2 ∈ files h.2.1 ∧ n ≤ h.1 ∧
      h.1 + h.2.1.specs.length ≤ n + (bands.flatMap TermSplitParts.specs).length := by
  induction bands generalizing n with
  | nil => cases hmem
  | cons band bands ih =>
    unfold heldFiles at hmem
    rw [List.flatMap_cons, List.length_append]
    rcases List.mem_append.mp hmem with hmem | hmem
    · obtain ⟨f, hf, rfl⟩ := List.mem_map.mp hmem
      refine ⟨List.mem_cons_self, hf, Nat.le_refl _, ?_⟩
      show n + band.specs.length ≤ _
      omega
    · obtain ⟨h1, h2, h3, h4⟩ := ih hmem
      exact ⟨List.mem_cons_of_mem _ h1, h2, by omega, by omega⟩

/-! ## The checks -/

theorem Increasing.isChain {specs : List SplitSpec} (h : Increasing specs) : specs.IsChain Follows :=
  h.order.isChain.imp fun a _ hab => (Nat.mod_le (a.docIdHi + 1) u32Bound).trans hab

/-- The check fails just where a split clashes with the one before. -/
theorem not_isChain_iff {specs : List SplitSpec} (h : ∀ s ∈ specs, s.docIdHi < u32Bound) :
    ¬ specs.IsChain Follows ↔ Clash specs := by
  rw [List.isChain_iff_getElem]
  simp only [not_forall]
  constructor
  · rintro ⟨i, hi, hnot⟩
    have hlt : specs[i].docIdHi < u32Bound := h _ (List.getElem_mem _)
    have hb : specs[i + 1].docIdLo < (specs[i].docIdHi + 1) % u32Bound := Nat.lt_of_not_le hnot
    have hne : specs[i].docIdHi + 1 ≠ u32Bound := by
      intro heq
      rw [heq, Nat.mod_self] at hb
      omega
    rw [Nat.mod_eq_of_lt (by omega)] at hb
    exact ⟨i, specs[i], specs[i + 1], List.getElem?_eq_getElem _, List.getElem?_eq_getElem _, by omega, by omega⟩
  · rintro ⟨i, a, b, ha, hb, hle, hlt⟩
    obtain ⟨h1, rfl⟩ := List.getElem?_eq_some_iff.mp ha
    obtain ⟨h2, rfl⟩ := List.getElem?_eq_some_iff.mp hb
    refine ⟨i, h2, fun hfollows => ?_⟩
    unfold Follows at hfollows
    rw [Nat.mod_eq_of_lt hlt] at hfollows
    omega

/-- The merge changes names and tiers only. -/
theorem map_mergedSpecs {α : Type} (g : SplitSpec → α) (hg : ∀ (s : SplitSpec) (n : String) (t : Nat),
    g { s with dataFile := n, tier := t } = g s) (specs : List SplitSpec) :
    (mergedSpecs config specs).map g = specs.map g := by
  rw [mergedSpecs, List.map_map]
  conv_rhs => rw [← List.zipIdx_map_fst 0 specs, List.map_map]
  exact List.map_congr_left fun x _ => hg _ _ _

theorem increasing_mergedSpecs {specs : List SplitSpec} : Increasing (mergedSpecs config specs) ↔ Increasing specs := by
  have hmap : (mergedSpecs config specs).map (fun s => (s.docIdLo, s.docIdHi)) =
      specs.map fun s => (s.docIdLo, s.docIdHi) := map_mergedSpecs _ (fun _ _ _ => rfl) specs
  have hiff : ∀ specs : List SplitSpec, Increasing specs ↔
      (∀ p ∈ specs.map fun s => (s.docIdLo, s.docIdHi), p.1 ≤ p.2) ∧
        (specs.map fun s => (s.docIdLo, s.docIdHi)).Pairwise fun p q => p.2 < q.1 := by
    intro specs
    rw [List.pairwise_map]
    constructor
    · rintro ⟨h1, h2⟩
      refine ⟨fun p hp => ?_, h2⟩
      obtain ⟨s, hs, rfl⟩ := List.mem_map.mp hp
      exact h1 s hs
    · rintro ⟨h1, h2⟩
      exact ⟨fun s hs => h1 _ (List.mem_map_of_mem hs), h2⟩
  rw [hiff, hiff, hmap]

theorem names_mergedSpecs (specs : List SplitSpec) : (mergedSpecs config specs).map SplitSpec.dataFile =
    (List.range specs.length).map fun i => splitStem config.namePrefix i ++ ".rrt" := by
  rw [mergedSpecs, List.map_map, List.range_eq_range', ← List.zipIdx_map_snd 0 specs, List.map_map]
  rfl

/-- A name of a split is not empty. -/
theorem length_utf8_pos (pre : String) (i : Nat) : 0 < (utf8 (splitStem pre i ++ ".rrt")).length := by
  have hne : splitStem pre i ++ ".rrt" ≠ "" := fun h => by
    have := congrArg (fun s => s.toList.length) h
    simp only [String.toList_append, List.length_append] at this
    exact absurd this (by simp)
  apply List.length_pos_of_ne_nil
  intro hnil
  exact hne (utf8_injective (hnil.trans rfl))

theorem length_le_flatMap {α : Type} {f : Nat → List α} (n : Nat) (h : ∀ i, 0 < (f i).length) :
    n ≤ ((List.range n).flatMap f).length := by
  induction n with
  | zero => exact Nat.zero_le _
  | succ n ih =>
    have := h n
    rw [List.range_succ, List.flatMap_append, List.length_append, List.flatMap_singleton]
    omega

/-- The manifest can be written where its names and summaries can. -/
theorem fits_iff {specs : List SplitSpec} {facet : Bool}
    (hname : ∀ i < specs.length, (utf8 (splitStem config.namePrefix i ++ ".rrt")).length < 2 ^ 16) :
    ManifestFits (mergedSpecs config specs) (mergeConfig config specs.length facet) ↔ MergeEncodable config specs := by
  have hlen : (mergedSpecs config specs).length = specs.length := by
    rw [mergedSpecs, List.length_map, List.length_zipIdx]
  have hnames : nameBytes (mergedSpecs config specs) config.sortcol =
      ((List.range specs.length).flatMap fun i => utf8 (splitStem config.namePrefix i ++ ".rrt")) ++
        (config.sortcol.map fun sc => utf8 sc.name).getD [] := by
    rw [nameBytes, ← List.flatMap_map SplitSpec.dataFile, names_mergedSpecs, List.flatMap_map]
  have hsummary : (∀ s ∈ mergedSpecs config specs, s.summary.length < 2 ^ 32) ↔ ∀ s ∈ specs, s.summary.length < 2 ^ 32 := by
    have hmap : (mergedSpecs config specs).map (fun s => s.summary.length) = specs.map fun s => s.summary.length :=
      map_mergedSpecs _ (fun _ _ _ => rfl) specs
    have hall : ∀ l : List SplitSpec, (∀ s ∈ l, s.summary.length < 2 ^ 32) ↔
        ∀ n ∈ l.map fun s => s.summary.length, n < 2 ^ 32 := fun l => by
      rw [List.forall_mem_map]
    rw [hall, hall, hmap]
  constructor
  · intro h
    exact ⟨h.sortcol_lt, by rw [← hnames]; exact h.names_lt, hsummary.mp h.summary_lt⟩
  · intro h
    have hcount : specs.length < 2 ^ 32 := by
      have hlt := h.names_lt
      have hle := length_le_flatMap (f := fun i => utf8 (splitStem config.namePrefix i ++ ".rrt")) specs.length
        fun i => length_utf8_pos _ i
      rw [List.length_append] at hlt
      omega
    refine ⟨by rw [hlen]; exact hcount, ?_, fun s hs => ?_, h.sortcol_lt, ?_, hsummary.mpr h.summary_lt⟩
    · rw [hlen]
      exact Nat.mod_le _ _
    · have hmem := List.mem_map_of_mem hs (f := SplitSpec.dataFile)
      rw [names_mergedSpecs] at hmem
      obtain ⟨i, hi, heq⟩ := List.mem_map.mp hmem
      rw [← heq]
      exact hname i (List.mem_range.mp hi)
    · show (nameBytes (mergedSpecs config specs) config.sortcol).length < 2 ^ 32
      rw [hnames]
      exact h.names_lt

/-! ## The names of a band -/

/-- A band whose splits and files are named in seal order. -/
structure TermSplitParts.NamedBy (band : TermSplitParts) (old : String) : Prop where
  specs : ∀ (i : Nat) (s : SplitSpec), band.specs[i]? = some s →
    s.dataFile = splitStem old i ++ ".rrt" ∧ s.docIdHi < u32Bound
  splits : ∀ f ∈ band.splits, ∃ i, i < band.specs.length ∧ f.1 = splitStem old i ++ ".rrt"
  facets : ∀ f ∈ band.facets, ∃ i, i < band.specs.length ∧ f.1 = splitStem old i ++ ".rrf"

/-- **A band of a builder**, whatever was called. -/
theorem namedBy_of_finishParts [Roaring] [Unicode] [Fst] [TokenFilters] {b : TermSplitSetBuilder} {band : TermSplitParts}
    (h : b.Reached) (hfin : b.finishParts = .ok band) : ∃ old, band.NamedBy old := by
  unfold TermSplitSetBuilder.finishParts at hfin
  cases hcheck : b.sealAndCheck with
  | error e =>
    rw [hcheck] at hfin
    cases hfin
  | ok c =>
    rw [hcheck] at hfin
    obtain rfl := Except.ok.inj hfin
    have hnamed := h.named.sealAndCheck hcheck
    exact ⟨c.namePrefix, hnamed.specs, fun f hf => by
      obtain ⟨i, hi, hname, -⟩ := hnamed.blobs f hf
      exact ⟨i, hi, hname⟩, hnamed.facetBlobs⟩

theorem stemPairs_eq {band : TermSplitParts} {old : String} (h : band.NamedBy old) (start : Nat) :
    stemPairs config band.specs start = stemsOf old config.namePrefix start band.specs.length := by
  apply List.ext_getElem
  · rw [stemPairs, stemsOf, List.length_map, List.length_map, List.length_zipIdx, List.length_range]
  · intro i h1 h2
    have hi : i < band.specs.length := by
      rw [stemsOf, List.length_map, List.length_range] at h2
      exact h2
    have hname := (h.specs i band.specs[i] (List.getElem?_eq_getElem hi)).1
    simp only [stemPairs, stemsOf, List.getElem_map, List.getElem_zipIdx, List.getElem_range]
    rw [hname, trimEndMatches_rrt, trimEndMatches_rrt]

/-- **When a held file is renamed to its split's**: `name` is the file's name made of the split's. -/
theorem renamedTo_iff {band : TermSplitParts} {old ext : String} {zs : List Char} (hext : ext.toList = '.' :: zs)
    {name : String → String} (hname : ∀ pre i, name (splitStem pre i ++ ".rrt") = splitStem pre i ++ ext)
    (h : band.NamedBy old) {specs : List SplitSpec} {start : Nat} {f : String × Bytes}
    (hle : start + band.specs.length ≤ specs.length) (hf : ∃ i, i < band.specs.length ∧ f.1 = splitStem old i ++ ext) :
    RenamedTo (mergedSpecs config specs) name (start, band, f)
        (renamed (stemPairs config band.specs start) f.1, f.2) ↔
      (0 < start → ∀ (i : Nat) (spec : SplitSpec), band.specs[i]? = some spec → f.1 = name spec.dataFile → i < 10 ^ 5) := by
  obtain ⟨j, hj, hfj⟩ := hf
  have hnew : ∀ i, i < band.specs.length → ∃ new, (mergedSpecs config specs)[start + i]? = some new ∧
      name new.dataFile = splitStem config.namePrefix (start + i) ++ ext := by
    intro i hi
    have hlen : start + i < (mergedSpecs config specs).length := by
      rw [mergedSpecs, List.length_map, List.length_zipIdx]
      omega
    refine ⟨(mergedSpecs config specs)[start + i], List.getElem?_eq_getElem hlen, ?_⟩
    have hname' := congrArg (·[start + i]?) (@names_mergedSpecs config specs)
    simp only [List.getElem?_map, List.getElem?_eq_getElem hlen, Option.map_some] at hname'
    rw [List.getElem?_range (by omega)] at hname'
    rw [Option.some.inj hname', hname]
  have hsame : ∀ (i : Nat) (spec : SplitSpec), band.specs[i]? = some spec → (f.1 = name spec.dataFile ↔ i = j) := by
    intro i spec hspec
    rw [(h.specs i spec hspec).1, hname, hfj]
    constructor
    · intro heq
      have hlist := congrArg String.toList heq
      rw [String.toList_append, String.toList_append, List.append_cancel_right_eq] at hlist
      exact (splitStem_injective (String.toList_injective hlist)).symm
    · rintro rfl
      rfl
  have hexact := @renamed_exact old config.namePrefix ext zs start band.specs.length j hext hj
  rw [← hfj, ← stemPairs_eq h] at hexact
  constructor
  · rintro ⟨i, spec, new, hspec, hnew', hname', hout⟩ hstart i' spec' hspec' hname''
    obtain rfl := (hsame i spec hspec).mp hname'
    obtain rfl := (hsame i' spec' hspec').mp hname''
    obtain ⟨new', hat, hstem⟩ := hnew i' hj
    obtain rfl : new' = new := Option.some.inj (hat.symm.trans hnew')
    have hrenamed : renamed (stemPairs config band.specs start) f.1 = name new'.dataFile := congrArg Prod.fst hout
    rcases hexact.mp (hrenamed.trans hstem) with h0 | hshort
    · omega
    · exact hshort
  · intro hcond
    obtain ⟨new, hat, hstem⟩ := hnew j hj
    refine ⟨j, band.specs[j], new, List.getElem?_eq_getElem hj, hat,
      (hsame j _ (List.getElem?_eq_getElem hj)).mpr rfl, ?_⟩
    have hrenamed := hexact.mpr (by
      rcases Nat.eq_zero_or_pos start with h0 | hpos
      · exact Or.inl h0
      · exact Or.inr (hcond hpos j _ (List.getElem?_eq_getElem hj)
          ((hsame j _ (List.getElem?_eq_getElem hj)).mpr rfl)))
    rw [hrenamed, hstem]

/-- The condition of the bands and the configuration under which a merge is exact. -/
structure MergeHolds (bands : List TermSplitParts) (config : TermSplitBuildConfig) : Prop where
  ascending : Increasing (bands.flatMap TermSplitParts.specs) → MergeEncodable config (bands.flatMap TermSplitParts.specs) ∧
    ShortNumbers TermSplitParts.splits id bands ∧ ShortNumbers TermSplitParts.facets facetFileName bands
  clashing : ¬ Increasing (bands.flatMap TermSplitParts.specs) → Clash (bands.flatMap TermSplitParts.specs) ∨
    ¬ MergeEncodable config (bands.flatMap TermSplitParts.specs)

section

variable {bands : List TermSplitParts}

/-- All held files are renamed to their splits' just where their numbers are short. -/
theorem forall₂_renamedTo_iff {ext : String} {zs : List Char} (hext : ext.toList = '.' :: zs)
    {files : TermSplitParts → NamedFiles} {name : String → String}
    (hname : ∀ pre i, name (splitStem pre i ++ ".rrt") = splitStem pre i ++ ext)
    (hbands : ∀ band ∈ bands, ∃ old, band.NamedBy old ∧
      ∀ f ∈ files band, ∃ i, i < band.specs.length ∧ f.1 = splitStem old i ++ ext) :
    List.Forall₂ (RenamedTo (mergedSpecs config (bands.flatMap TermSplitParts.specs)) name) (heldFiles files 0 bands)
      (renamedFiles config files 0 bands) ↔ ShortNumbers files name bands := by
  rw [renamedFiles_eq, List.forall₂_map_right_iff, List.forall₂_same]
  have hiff : ∀ h ∈ heldFiles files 0 bands,
      (RenamedTo (mergedSpecs config (bands.flatMap TermSplitParts.specs)) name h
        (renamed (stemPairs config h.2.1.specs h.1) h.2.2.1, h.2.2.2) ↔
      (0 < h.1 → ∀ (i : Nat) (old : SplitSpec), h.2.1.specs[i]? = some old → h.2.2.1 = name old.dataFile → i < 10 ^ 5)) := by
    intro h hmem
    obtain ⟨hband, hf, -, hle⟩ := mem_heldFiles hmem
    obtain ⟨old, hnamed, hfiles⟩ := hbands _ hband
    exact renamedTo_iff hext hname hnamed (by omega) (hfiles _ hf)
  exact forall₂_congr hiff

variable (hname : ∀ i < (bands.flatMap TermSplitParts.specs).length,
  (utf8 (splitStem config.namePrefix i ++ ".rrt")).length < 2 ^ 16)

include hname in
/-- A merge of splits that follow one another fails only where its manifest cannot be written. -/
theorem merge_ok_iff (h : (bands.flatMap TermSplitParts.specs).IsChain Follows) :
    (∃ r, mergeTermSplitBands bands config = .ok r) ↔ MergeEncodable config (bands.flatMap TermSplitParts.specs) := by
  rw [mergeTermSplitBands_eq h, ← fits_iff hname, ← writeSplitset_ok_iff]
  cases writeSplitset (mergedSpecs config (bands.flatMap TermSplitParts.specs))
    (mergeConfig config (bands.flatMap TermSplitParts.specs).length (bands.any TermSplitParts.hasFacets)) with
  | error e => simp [Except.map]
  | ok m => simp [Except.map]

variable [Roaring] [Unicode] [Fst] [TokenFilters]

include hname in
/-- **When the merge of the bands of some builders is exact.** -/
theorem mergeExact_iff (hbands : ∀ band ∈ bands, ∃ b : TermSplitSetBuilder, b.Reached ∧ b.finishParts = .ok band) :
    MergeExact bands config ↔ MergeHolds bands config := by
  have hnamed : ∀ band ∈ bands, ∃ old, band.NamedBy old := fun band hband => by
    obtain ⟨b, hb, hfin⟩ := hbands band hband
    exact namedBy_of_finishParts hb hfin
  have hids : ∀ s ∈ bands.flatMap TermSplitParts.specs, s.docIdHi < u32Bound := by
    intro s hs
    obtain ⟨band, hband, hs⟩ := List.mem_flatMap.mp hs
    obtain ⟨old, h⟩ := hnamed band hband
    obtain ⟨i, hi⟩ := List.mem_iff_getElem?.mp hs
    exact (h.specs i s hi).2
  have hsplits := @forall₂_renamedTo_iff config bands ".rrt" ['r', 'r', 't'] rfl TermSplitParts.splits id
    (fun _ _ => rfl) fun band hband => by
      obtain ⟨old, h⟩ := hnamed band hband
      exact ⟨old, h, h.splits⟩
  have hfacets := @forall₂_renamedTo_iff config bands ".rrf" ['r', 'r', 'f'] rfl TermSplitParts.facets facetFileName
    facetFileName_rrt fun band hband => by
      obtain ⟨old, h⟩ := hnamed band hband
      exact ⟨old, h, h.facets⟩
  have hok : (bands.flatMap TermSplitParts.specs).IsChain Follows →
      MergeEncodable config (bands.flatMap TermSplitParts.specs) →
      ∃ r, mergeTermSplitBands bands config = .ok r := fun hchain => (merge_ok_iff hname hchain).mpr
  have hst : (bands.flatMap TermSplitParts.specs).IsChain Follows →
      ∃ st, bands.foldlM (mergeBand config) ⟨[], [], [], [], false, 0, 0⟩ = .ok st ∧
        st.specs = mergedSpecs config (bands.flatMap TermSplitParts.specs) := fun hchain =>
    ⟨_, @mergeBands_ok config [] [] [] false bands hchain, rfl⟩
  have hfiles : ∀ r, (bands.flatMap TermSplitParts.specs).IsChain Follows → mergeTermSplitBands bands config = .ok r →
      r.1.splits = renamedFiles config TermSplitParts.splits 0 bands ∧
        r.1.facets = renamedFiles config TermSplitParts.facets 0 bands := by
    intro r hchain hr
    rw [mergeTermSplitBands_eq hchain] at hr
    cases hw : writeSplitset (mergedSpecs config (bands.flatMap TermSplitParts.specs)) (mergeConfig config
        (bands.flatMap TermSplitParts.specs).length (bands.any TermSplitParts.hasFacets)) with
    | error e =>
      rw [hw] at hr
      cases hr
    | ok m =>
      rw [hw] at hr
      obtain rfl := Except.ok.inj hr
      exact ⟨rfl, rfl⟩
  constructor
  · intro hexact
    constructor
    · intro hinc
      have hchain := hinc.isChain
      have hr : ∃ r, mergeTermSplitBands bands config = .ok r := by
        cases hm : mergeTermSplitBands bands config with
        | error e => exact absurd hinc (hexact.error_iff.mp ⟨e, hm⟩)
        | ok r => exact ⟨r, rfl⟩
      obtain ⟨r, hr⟩ := hr
      obtain ⟨st, hfold, hspecs⟩ := hst hchain
      obtain ⟨-, -, h1, h2⟩ := hexact.ok st r hfold hr
      obtain ⟨e1, e2⟩ := hfiles r hchain hr
      rw [hspecs, e1] at h1
      rw [hspecs, e2] at h2
      exact ⟨(merge_ok_iff hname hchain).mp ⟨r, hr⟩, hsplits.mp h1, hfacets.mp h2⟩
    · intro hninc
      obtain ⟨e, he⟩ := hexact.error_iff.mpr hninc
      by_contra hnot
      rw [not_or, not_not] at hnot
      have hchain : (bands.flatMap TermSplitParts.specs).IsChain Follows := by
        by_contra hchain
        exact hnot.1 ((not_isChain_iff hids).mp hchain)
      obtain ⟨r, hr⟩ := hok hchain hnot.2
      rw [he] at hr
      cases hr
  · intro hholds
    have herror : ¬ Increasing (bands.flatMap TermSplitParts.specs) → ∃ e, mergeTermSplitBands bands config = .error e := by
      intro hninc
      by_cases hchain : (bands.flatMap TermSplitParts.specs).IsChain Follows
      · cases hm : mergeTermSplitBands bands config with
        | error e => exact ⟨e, rfl⟩
        | ok r =>
          exfalso
          rcases hholds.clashing hninc with hclash | henc
          · exact (not_isChain_iff hids).mpr hclash hchain
          · exact henc ((merge_ok_iff hname hchain).mp ⟨r, hm⟩)
      · exact mergeTermSplitBands_error hchain
    refine ⟨⟨?_, herror⟩, fun st r hfold hr => ?_⟩
    · rintro ⟨e, he⟩ hinc
      obtain ⟨r, hr⟩ := hok hinc.isChain (hholds.ascending hinc).1
      rw [he] at hr
      cases hr
    · have hinc : Increasing (bands.flatMap TermSplitParts.specs) := by
        by_contra hninc
        obtain ⟨e, he⟩ := herror hninc
        rw [he] at hr
        cases hr
      obtain ⟨-, h1, h2⟩ := hholds.ascending hinc
      obtain ⟨st', hfold', hspecs⟩ := hst hinc.isChain
      obtain rfl : st' = st := Except.ok.inj (hfold'.symm.trans hfold)
      obtain ⟨e1, e2⟩ := hfiles r hinc.isChain hr
      rw [hspecs, e1, e2, names_mergedSpecs]
      refine ⟨increasing_mergedSpecs.mpr hinc, ?_, hsplits.mpr h1, hfacets.mpr h2⟩
      apply List.nodup_range.map
      intro i j heq
      have hlist := congrArg String.toList heq
      simp only [String.toList_append, List.append_cancel_right_eq] at hlist
      exact splitStem_injective (String.toList_injective hlist)

end

section

attribute [local instance] PortableCodec.roaring asciiUnicode asciiFilters FlatRouter.fst

theorem bandConfig_fits : TermConfigFits 1000 0 0 none := by
  refine ⟨?_, ?_, ?_, ?_⟩ <;> simp

def bandConfig : TermSplitBuildConfig where
  policy := .tiered
  byteCap := 1000
  byteCapMax := 0
  headBoundary := 0
  namePrefix := "c"
  sortcol := none
  language := none
  stem := false
  stopwords := false
  caseSensitive := false
  fits := bandConfig_fits

/-- A band of one document whose id is `base`. -/
def bandBuilder (base : Fin u32Bound) : TermSplitSetBuilder :=
  (((TermSplitSetBuilder.new bandConfig).withGlobalBase base).addFaceted "a" []).2

theorem firstBand_ids : ((bandBuilder ⟨0, by decide⟩).finishParts.map fun p =>
    p.specs.map fun s => (s.docIdLo, s.docIdHi, s.summary.length)) = .ok [(0, 0, 0)] := by decide +kernel

theorem lastBand_ids : ((bandBuilder ⟨4294967295, by decide⟩).finishParts.map fun p =>
    p.specs.map fun s => (s.docIdLo, s.docIdHi, s.summary.length)) = .ok [(4294967295, 4294967295, 0)] := by decide +kernel

/-- A band of two documents with facets, from the id `base` on. -/
def facetBand (base : Fin u32Bound) : TermSplitSetBuilder :=
  ((((TermSplitSetBuilder.new bandConfig).withGlobalBase base).addFaceted "a" [("f", "x")]).2.addFaceted "b" [("f", "y")]).2

theorem facetBand_reached (base : Fin u32Bound) : (facetBand base).Reached :=
  .addFaceted _ _ (.addFaceted _ _ (.withGlobalBase base (.new bandConfig) rfl))

theorem firstFacetBand_ids : ((facetBand (wrapAdd 0 0)).finishParts.map fun p =>
    p.specs.map fun s => (s.docIdLo, s.docIdHi, s.summary.length)) = .ok [(0, 1, 25)] := by decide +kernel

theorem secondFacetBand_ids : ((facetBand (wrapAdd 0 2)).finishParts.map fun p =>
    p.specs.map fun s => (s.docIdLo, s.docIdHi, s.summary.length)) = .ok [(2, 3, 25)] := by decide +kernel

theorem exists_band {b : TermSplitSetBuilder} {lo hi n : Nat} (h : (b.finishParts.map fun p =>
    p.specs.map fun s => (s.docIdLo, s.docIdHi, s.summary.length)) = .ok [(lo, hi, n)]) :
    ∃ band spec, b.finishParts = .ok band ∧ band.specs = [spec] ∧ spec.docIdLo = lo ∧
      spec.docIdHi = hi ∧ spec.summary.length = n := by
  cases hfin : b.finishParts with
  | error e =>
    rw [hfin] at h
    cases h
  | ok band =>
    rw [hfin] at h
    have hspecs : (band.specs.map fun s => (s.docIdLo, s.docIdHi, s.summary.length)) = [(lo, hi, n)] := Except.ok.inj h
    obtain ⟨spec, hspec, heq⟩ := List.map_eq_singleton_iff.mp hspecs
    exact ⟨band, spec, rfl, hspec, congrArg Prod.fst heq, congrArg (·.2.1) heq, congrArg (·.2.2) heq⟩

/-- Two bands of one split each can be named. -/
theorem bandConfig_encodable {a b : SplitSpec} (ha : a.summary.length < 2 ^ 32) (hb : b.summary.length < 2 ^ 32) :
    MergeEncodable bandConfig [a, b] where
  sortcol_lt := fun sc hsc => by cases hsc
  names_lt := by
    show (((List.range 2).flatMap fun i => utf8 (splitStem "c" i ++ ".rrt")) ++ []).length < 2 ^ 32
    decide +kernel
  summary_lt := List.forall_mem_cons.mpr ⟨ha, List.forall_mem_singleton.mpr hb⟩

theorem bandConfig_names : ∀ i < 2, (utf8 (splitStem bandConfig.namePrefix i ++ ".rrt")).length < 2 ^ 16 := by
  decide +kernel

/-- Two bands of two documents each, with their sidecars. -/
theorem mergeExact_iff_two : ∃ a b : TermSplitParts, (facetBand (wrapAdd 0 0)).finishParts = .ok a ∧
    (facetBand (wrapAdd 0 2)).finishParts = .ok b ∧ a.facets.length = 1 ∧ b.facets.length = 1 ∧
    MergeExact [a, b] bandConfig := by
  obtain ⟨a, sa, hfa, ha, hlo, hhi, hsum⟩ := exists_band firstFacetBand_ids
  obtain ⟨b, sb, hfb, hb, hlo', hhi', hsum'⟩ := exists_band secondFacetBand_ids
  have hsidecars : ((facetBand (wrapAdd 0 0)).finishParts.map fun p => p.facets.length) = .ok 1 ∧
      ((facetBand (wrapAdd 0 2)).finishParts.map fun p => p.facets.length) = .ok 1 := by decide +kernel
  rw [hfa, hfb] at hsidecars
  have hspecs : [a, b].flatMap TermSplitParts.specs = [sa, sb] := by
    rw [List.flatMap_cons, List.flatMap_singleton, ha, hb]
    rfl
  have hinc : Increasing [sa, sb] := by
    refine ⟨fun s hs => ?_, ?_⟩
    · rcases List.mem_cons.mp hs with rfl | hs
      · omega
      · rw [List.mem_singleton.mp hs]
        omega
    · rw [List.pairwise_pair]
      omega
  have hshort : ∀ files name, ShortNumbers files name [a, b] := by
    intro files name h hmem _ i old hold _
    have hlen : h.2.1.specs.length = 1 := by
      rcases List.mem_cons.mp (mem_heldFiles hmem).1 with heq | heq
      · rw [heq, ha]
        rfl
      · rw [List.mem_singleton.mp heq, hb]
        rfl
    have := (List.getElem?_eq_some_iff.mp hold).1
    omega
  refine ⟨a, b, hfa, hfb, Except.ok.inj hsidecars.1, Except.ok.inj hsidecars.2, (mergeExact_iff ?_ ?_).mpr ⟨fun _ => ⟨?_, hshort _ _, hshort _ _⟩, fun hn => ?_⟩⟩
  · rw [hspecs]
    exact bandConfig_names
  · intro band hband
    rcases List.mem_cons.mp hband with rfl | hband
    · exact ⟨_, facetBand_reached _, hfa⟩
    · rw [List.mem_singleton.mp hband]
      exact ⟨_, facetBand_reached _, hfb⟩
  · rw [hspecs]
    exact bandConfig_encodable (by rw [hsum]; decide) (by rw [hsum']; decide)
  · rw [hspecs] at hn
    exact absurd hinc hn

/-- **A band out of order is merged** after one that ends with the last id there is. -/
theorem last_band_first : ∃ a b : TermSplitParts, (bandBuilder ⟨4294967295, by decide⟩).finishParts = .ok a ∧
    (bandBuilder ⟨0, by decide⟩).finishParts = .ok b ∧ ¬ MergeExact [a, b] bandConfig := by
  obtain ⟨a, sa, hfa, ha, hlo, hhi, hsum⟩ := exists_band lastBand_ids
  obtain ⟨b, sb, hfb, hb, hlo', hhi', hsum'⟩ := exists_band firstBand_ids
  have hspecs : [a, b].flatMap TermSplitParts.specs = [sa, sb] := by
    rw [List.flatMap_cons, List.flatMap_singleton, ha, hb]
    rfl
  have hchain : ([a, b].flatMap TermSplitParts.specs).IsChain Follows := by
    rw [hspecs, List.isChain_pair]
    unfold Follows
    rw [hhi]
    exact Nat.zero_le _
  have hmerge : ∃ r, mergeTermSplitBands [a, b] bandConfig = .ok r := by
    refine (merge_ok_iff ?_ hchain).mpr ?_
    · rw [hspecs]
      exact bandConfig_names
    · rw [hspecs]
      exact bandConfig_encodable (by rw [hsum]; decide) (by rw [hsum']; decide)
  refine ⟨a, b, hfa, hfb, fun hexact => ?_⟩
  obtain ⟨r, hr⟩ := hmerge
  have hninc : ¬ Increasing ([a, b].flatMap TermSplitParts.specs) := by
    rw [hspecs]
    intro hinc
    have := List.pairwise_pair.mp hinc.order
    omega
  obtain ⟨e, he⟩ := hexact.error_iff.mpr hninc
  rw [he] at hr
  cases hr

end

end RoaringRange
