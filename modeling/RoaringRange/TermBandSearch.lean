import RoaringRange.TermBands
import RoaringRange.TermSetSearch

/-!
# Search over a merged parallel build (`splitset_build.rs`)

A parallel build gives each worker a band of consecutive documents and the id of its first one, and merges what they hand
over.  Some files a worker has drained, under its own names; these the caller renames by the plan the merge returns.  What
the merged set finds is what a serial build of all the documents finds:

    a drained file is renamed to that of its split                                       (planned_eq)
    a held file is renamed to that of its split                                        (exists_held)
    the merged set finds the documents that have the terms                              (term_bands)
-/

namespace RoaringRange

open ByteString Faults Slices Tiles

/-! ## The bands -/

/-- A worker of a parallel build: what it began with, what was called, and what came of it. -/
structure TermBand where
  config : TermSplitBuildConfig
  base : Fin u32Bound
  top : Nat
  v2 : Bool
  calls : List TermBuildCall
  run : TermBuildRun
  parts : TermSplitParts

def TermBand.builder (x : TermBand) : TermSplitSetBuilder := TermSplitSetBuilder.start x.config x.base x.top x.v2

/-- The name that the caller gives to a drained file, by the rename plan. -/
def planned (renames : List (String × String)) (name : String) : String :=
  ((renames.find? fun p => p.1 == name).map Prod.snd).getD name

section

variable [Roaring] [Unicode] [TokenFilters] [Fst]

def TermBand.docs (x : TermBand) : List TermDoc := TermBuildCall.documents x.builder.index.tokenizer x.calls

/-- The worker's calls succeeded, and its index is set up as in the merge. -/
structure TermBand.Made (x : TermBand) (config : TermSplitBuildConfig) : Prop where
  calls : TermBuildRun.calls ⟨x.builder, [], []⟩ x.calls = ([], x.run)
  finish : x.run.builder.finishParts = .ok x.parts
  index : x.builder.index = (TermSplitSetBuilder.new config).index
  count : x.docs.length < 2 ^ 32

/-- **The workers' bands** are consecutive runs of the documents, their splits are named apart, and no worker has more than
100000 of them. -/
structure BandsOf (config : TermSplitBuildConfig) (bands : List TermBand) : Prop where
  made : ∀ x ∈ bands, x.Made config
  bases : Each TermBand.docs (fun _ lo x => x.base.val = lo) bands
  count : (bands.flatMap TermBand.docs).length ≤ 2 ^ 32
  names : (bands.flatMap fun x => x.parts.specs.map SplitSpec.dataFile).Nodup
  short : ∀ x ∈ bands, x.parts.specs.length ≤ 10 ^ 5

structure TermBand.Cut (x : TermBand) (parts : List TermPart) : Prop where
  all : ∃ facetFiles, CutsAll x.builder x.docs parts (x.run.files ++ x.parts.splits) facetFiles
  specs : x.parts.specs = parts.map TermPart.spec

variable {config : TermSplitBuildConfig} {bands : List TermBand} {x : TermBand} {parts : List TermPart}

theorem BandsOf.exists_cut (h : BandsOf config bands) (hx : x ∈ bands) : ∃ parts, x.Cut parts := by
  obtain ⟨k, hk⟩ := List.mem_iff_getElem?.mp hx
  have hmade := h.made x hx
  have hend := @startOf_add_le _ _ TermBand.docs _ _ _ hk
  have hbase : x.builder.globalBase.val = startOf TermBand.docs bands k := h.bases k x hk
  have hcount := h.count
  have hlt := hmade.count
  have hfresh : x.builder.Fresh := ⟨rfl, rfl, rfl, rfl, rfl, rfl, rfl, rfl⟩
  have hbound : u32Bound = 2 ^ 32 := rfl
  obtain ⟨parts₀, last₀, hcuts⟩ := hfresh.cuts.calls (by rw [hmade.calls])
    (by show x.builder.globalBase.val + x.docs.length ≤ u32Bound; omega) (by show x.docs.length < u32Bound; omega)
  rw [hmade.calls, List.nil_append] at hcuts
  obtain ⟨parts, hall, hspecs, -⟩ := hcuts.finishParts
    (by show x.builder.globalBase.val + x.docs.length ≤ u32Bound; omega) hmade.finish
  exact ⟨parts, ⟨_, hall⟩, hspecs⟩

/-! ## The files -/

omit [Roaring] [Unicode] [TokenFilters] [Fst] in
/-- A file of a band is held, with the number of the band's first split among all. -/
theorem mem_heldFiles_of {files : TermSplitParts → NamedFiles} {ps : List TermSplitParts} {k : Nat} {p : TermSplitParts}
    (hk : ps[k]? = some p) {f : String × Bytes} (hf : f ∈ files p) (n : Nat) :
    (n + startOf TermSplitParts.specs ps k, p, f) ∈ heldFiles files n ps := by
  induction ps generalizing k n with
  | nil => simp at hk
  | cons q ps ih =>
    unfold heldFiles
    cases k with
    | zero =>
      obtain rfl : q = p := by simpa using hk
      exact List.mem_append_left _ (List.mem_map.mpr ⟨f, hf, rfl⟩)
    | succ k =>
      refine List.mem_append_right _ ?_
      have hrest := ih (by simpa using hk) (n + q.specs.length)
      rwa [show n + startOf TermSplitParts.specs (q :: ps) (k + 1) =
        n + q.specs.length + startOf TermSplitParts.specs ps k by simp [startOf, Nat.add_assoc]]

omit [Roaring] [Unicode] [TokenFilters] [Fst] in
/-- **A drained file is renamed to that of its split**, where the splits are named apart. -/
theorem planned_eq {specs : List SplitSpec} (hnames : (specs.map SplitSpec.dataFile).Nodup) {k : Nat} {spec : SplitSpec}
    (hk : specs[k]? = some spec) :
    planned (renamesOf config specs) spec.dataFile = splitStem config.namePrefix k ++ ".rrt" := by
  have hpair : (spec.dataFile, splitStem config.namePrefix k ++ ".rrt") ∈
      specs.zipIdx.map fun x => (x.1.dataFile, splitStem config.namePrefix x.2 ++ ".rrt") := by
    refine List.mem_map.mpr ⟨(spec, k), ?_, rfl⟩
    rwa [List.mem_zipIdx_iff_getElem?]
  have hunique : ∀ p ∈ renamesOf config specs, p.1 = spec.dataFile → p.2 = splitStem config.namePrefix k ++ ".rrt" := by
    intro p hp heq
    obtain ⟨x, hx, rfl⟩ := List.mem_map.mp (List.mem_of_mem_filter hp)
    have hxk := List.mem_zipIdx_iff_getElem?.mp hx
    have hsame : x.2 = k := by
      have h1 : (specs.map SplitSpec.dataFile)[x.2]? = some spec.dataFile := by
        rw [List.getElem?_map, hxk, Option.map_some, ← heq]
      have h2 : (specs.map SplitSpec.dataFile)[k]? = some spec.dataFile := by rw [List.getElem?_map, hk, Option.map_some]
      exact (List.getElem?_inj (List.getElem?_eq_some_iff.mp h1).1 hnames).mp (h1.trans h2.symm)
    show splitStem config.namePrefix x.2 ++ ".rrt" = _
    rw [hsame]
  unfold planned
  cases hfind : (renamesOf config specs).find? fun p => p.1 == spec.dataFile with
  | some p =>
    have heq := List.find?_some hfind
    rw [Option.map_some, Option.getD_some]
    exact hunique p (List.mem_of_find?_eq_some hfind) (eq_of_beq heq)
  | none =>
    rw [Option.map_none, Option.getD_none]
    by_contra hne
    have hmem : (spec.dataFile, splitStem config.namePrefix k ++ ".rrt") ∈ renamesOf config specs :=
      List.mem_filter.mpr ⟨hpair, decide_eq_true hne⟩
    exact absurd (beq_self_eq_true spec.dataFile) (List.find?_eq_none.mp hfind _ hmem)

theorem TermBuildRun.reached_calls {cs : List TermBuildCall} : ∀ {r : TermBuildRun}, r.builder.Reached →
    (r.calls cs).2.builder.Reached := by
  induction cs with
  | nil => exact fun h => h
  | cons c cs ih =>
    intro r h
    refine ih ?_
    cases c with
    | addFaceted text facets => exact h.addFaceted text facets
    | drainSealed => exact h.drainSealed

/-- A worker's splits and files are named in seal order. -/
theorem TermBand.Made.exists_namedBy (h : x.Made config) : ∃ old, x.parts.NamedBy old := by
  have hreached : x.builder.Reached := .withFacetDigest x.top x.v2 (.withGlobalBase x.base (.new x.config) rfl)
  have hrun := @TermBuildRun.reached_calls _ _ _ _ x.calls ⟨x.builder, [], []⟩ hreached
  rw [h.calls] at hrun
  exact namedBy_of_finishParts hrun h.finish

/-- **A held file is renamed to that of its split.** -/
theorem exists_held (h : x.Made config) (hshort : x.parts.specs.length ≤ 10 ^ 5) {k i : Nat} (hk : bands[k]? = some x)
    (hcut : x.Cut parts) {s : TermPart} (hi : parts[i]? = some s) (hmem : s.file ∈ x.parts.splits) :
    (splitStem config.namePrefix (startOf TermSplitParts.specs (bands.map TermBand.parts) k + i) ++ ".rrt", s.bytes) ∈
      renamedFiles config TermSplitParts.splits 0 (bands.map TermBand.parts) := by
  obtain ⟨old, hnamed⟩ := h.exists_namedBy
  have hspec : x.parts.specs[i]? = some s.spec := by rw [hcut.specs, List.getElem?_map, hi, Option.map_some]
  have hlt := (List.getElem?_eq_some_iff.mp hspec).1
  have hparts : (bands.map TermBand.parts)[k]? = some x.parts := by rw [List.getElem?_map, hk, Option.map_some]
  have hheld := mem_heldFiles_of hparts hmem 0
  rw [Nat.zero_add] at hheld
  rw [renamedFiles_eq]
  refine List.mem_map.mpr ⟨_, hheld, Prod.ext ?_ rfl⟩
  show renamed (stemPairs config x.parts.specs _) s.spec.dataFile = _
  rw [stemPairs_eq hnamed, (hnamed.specs i s.spec hspec).1]
  exact (renamed_exact rfl hlt).mpr (Or.inr (by omega))

/-! ## The merged set -/

/-- The files of a merge: those the bands held, and those they had drained, renamed by the plan. -/
def mergedFiles (bands : List TermBand) (merged : BuiltSplitSet × List (String × String)) : NamedFiles :=
  merged.1.splits ++ bands.flatMap fun x => x.run.files.map fun f => (planned merged.2 f.1, f.2)

/-- The resolver serves what a search of the merged set needs: the files of the merge, and its sort column. -/
structure SplitFetcher.ServesMerge (resolver : SplitFetcher) (set : SplitSet) (bands : List TermBand)
    (merged : BuiltSplitSet × List (String × String)) (n : Nat) (ranking : Option ((Nat → Option Int) × Bool)) : Prop where
  files : ∀ f ∈ mergedFiles bands merged, ∀ split ∈ set.splits, split.dataFile = f.1 → resolver.ServesTerms split f.2
  ranked : set.policy = .stableKey → RankedBy set.sortcol resolver n ranking

section

variable {cut : TermBand → List TermPart}

theorem BandsOf.specs_eq (hcut : ∀ x ∈ bands, x.Cut (cut x)) :
    (bands.map TermBand.parts).flatMap TermSplitParts.specs = (bands.flatMap cut).map TermPart.spec := by
  rw [List.flatMap_map, List.map_flatMap]
  exact List.flatMap_congr fun x hx => (hcut x hx).specs

/-- The splits of all workers hold consecutive runs of all documents. -/
theorem BandsOf.runs (h : BandsOf config bands) (hcut : ∀ x ∈ bands, x.Cut (cut x)) :
    TermRuns (TermSplitSetBuilder.new config).index 0 (bands.flatMap cut) := by
  refine ⟨?_, fun s hs => ?_⟩
  · refine Each.flatMap (P := fun lo (s : TermPart) => s.spec.docIdLo = 0 + lo) fun k x hk => ?_
    have hx := List.mem_of_getElem? hk
    obtain ⟨facetFiles, hall⟩ := (hcut x hx).all
    have hstart : startOf (fun x => (cut x).flatMap TermPart.docs) bands k = startOf TermBand.docs bands k := by
      refine startOf_congr (fun y hy => ?_) k
      obtain ⟨_, hy'⟩ := (hcut y hy).all
      rw [hy'.documents]
    have hbase : x.builder.globalBase.val = startOf TermBand.docs bands k := h.bases k x hk
    intro i s hi
    show s.spec.docIdLo = 0 + (_ + _)
    rw [hall.runs.each i s hi, hbase, hstart, Nat.zero_add]
  · obtain ⟨x, hx, hs⟩ := List.mem_flatMap.mp hs
    obtain ⟨facetFiles, hall⟩ := (hcut x hx).all
    rw [← (h.made x hx).index]
    exact hall.runs.files s hs

theorem BandsOf.documents (hcut : ∀ x ∈ bands, x.Cut (cut x)) :
    (bands.flatMap cut).flatMap TermPart.docs = bands.flatMap TermBand.docs := by
  rw [List.flatMap_assoc]
  refine List.flatMap_congr fun x hx => ?_
  obtain ⟨_, hall⟩ := (hcut x hx).all
  exact hall.documents

theorem BandsOf.part (h : BandsOf config bands) (hcut : ∀ x ∈ bands, x.Cut (cut x)) {s : TermPart} (hs : s ∈ bands.flatMap cut) :
    s.spec.InRange ∧ s.docs ≠ [] ∧ s.spec.flags = 0 ∧ s.spec.docIdHi + 1 = s.spec.docIdLo + s.docs.length := by
  obtain ⟨x, hx, hs⟩ := List.mem_flatMap.mp hs
  obtain ⟨k, hk⟩ := List.mem_iff_getElem?.mp hx
  obtain ⟨facetFiles, hall⟩ := (hcut x hx).all
  have hend := @startOf_add_le _ _ TermBand.docs _ _ _ hk
  have hbase : x.builder.globalBase.val = startOf TermBand.docs bands k := h.bases k x hk
  have hcount := h.count
  have hbound : u32Bound = 2 ^ 32 := rfl
  obtain ⟨i, hi⟩ := List.mem_iff_getElem?.mp hs
  have hat := hall.each i s hi
  refine ⟨hall.inRange (by omega) (h.made x hx).count hs, hat.docs_ne, hat.flags, ?_⟩
  rw [hat.docIdHi, hat.docIdLo]

theorem BandsOf.isChain (h : BandsOf config bands) (hcut : ∀ x ∈ bands, x.Cut (cut x)) :
    ((bands.map TermBand.parts).flatMap TermSplitParts.specs).IsChain Follows := by
  rw [BandsOf.specs_eq hcut, List.isChain_iff_getElem]
  intro i hi
  rw [List.length_map] at hi
  have hruns := (h.runs hcut).each
  have ha := hruns i _ (List.getElem?_eq_getElem (by omega))
  have hb := hruns (i + 1) _ (List.getElem?_eq_getElem hi)
  have hsucc := @startOf_succ _ _ TermPart.docs _ _ _ (List.getElem?_eq_getElem (show i < (bands.flatMap cut).length by omega))
  obtain ⟨-, -, -, hhi⟩ := h.part hcut (List.getElem_mem (show i < (bands.flatMap cut).length by omega))
  rw [List.getElem_map, List.getElem_map]
  unfold Follows
  refine (Nat.mod_le _ _).trans ?_
  omega

end

section

variable {cut : TermBand → List TermPart} {merged : BuiltSplitSet × List (String × String)}

theorem BandsOf.merge_eq (h : BandsOf config bands) (hcut : ∀ x ∈ bands, x.Cut (cut x))
    (hmerge : mergeTermSplitBands (bands.map TermBand.parts) config = .ok merged) :
    (∃ hasFacets, writeSplitset (mergedSpecs config ((bands.flatMap cut).map TermPart.spec))
      (mergeConfig config (bands.flatMap cut).length hasFacets) = .ok merged.1.manifest) ∧
    merged.1.splits = renamedFiles config TermSplitParts.splits 0 (bands.map TermBand.parts) ∧
    merged.2 = renamesOf config ((bands.flatMap cut).map TermPart.spec) := by
  rw [mergeTermSplitBands_eq (h.isChain hcut), BandsOf.specs_eq hcut, List.length_map] at hmerge
  cases hw : writeSplitset (mergedSpecs config ((bands.flatMap cut).map TermPart.spec))
    (mergeConfig config (bands.flatMap cut).length ((bands.map TermBand.parts).any TermSplitParts.hasFacets)) with
  | error e =>
    rw [hw] at hmerge
    cases hmerge
  | ok m =>
    rw [hw] at hmerge
    obtain rfl := Except.ok.inj hmerge
    exact ⟨⟨_, hw⟩, rfl, rfl⟩

/-- The merged manifest opens as the set of all splits, each with the name of its place. -/
theorem BandsOf.exists_set (h : BandsOf config bands) (hcut : ∀ x ∈ bands, x.Cut (cut x))
    (hmerge : mergeTermSplitBands (bands.map TermBand.parts) config = .ok merged)
    (hlen : merged.1.manifest.length < u64Bound) :
    ∃ set, SplitSet.fromBytes merged.1.manifest = .ok set ∧ set.policy = config.policy ∧ set.OfTerms ∧
      List.Forall₂ (SplitOf set) set.splits (mergedSpecs config ((bands.flatMap cut).map TermPart.spec)) := by
  obtain ⟨⟨hasFacets, hwrite⟩, -, -⟩ := h.merge_eq hcut hmerge
  have hconfig : (mergeConfig config (bands.flatMap cut).length hasFacets).InRange := by
    refine ⟨?_, tier_lt _ _, config.fits.byteCap_lt, Nat.two_pow_pos 16, config.fits.sortcol_lt⟩
    unfold mergeConfig
    simp only
    split <;> split <;> decide
  have hrange : ∀ spec ∈ mergedSpecs config ((bands.flatMap cut).map TermPart.spec), spec.InRange := by
    intro spec hspec
    obtain ⟨y, hy, rfl⟩ := List.mem_map.mp hspec
    obtain ⟨s, hs, heq⟩ := List.mem_map.mp (List.mem_of_getElem? (List.mem_zipIdx_iff_getElem?.mp hy))
    obtain ⟨hin, -, -, -⟩ := h.part hcut hs
    rw [heq] at hin
    exact ⟨tier_lt _ _, hin.docCount_lt, hin.docIdLo_lt, hin.docIdHi_lt, hin.flags_lt, hin.byteSize_lt, hin.epoch_lt⟩
  obtain ⟨set, hset, -, hdesc⟩ := exists_manifest hconfig hrange hwrite hlen
  have hcount := (writeSplitset_fits hwrite).count_lt
  have hmerged : (mergedSpecs config ((bands.flatMap cut).map TermPart.spec)).length = (bands.flatMap cut).length := by
    rw [mergedSpecs, List.length_map, List.length_zipIdx, List.length_map]
  have hbase : set.baseCount = set.splits.length := by
    rw [hmerged] at hcount
    rw [hdesc.baseCount, hdesc.splits.length_eq, hmerged]
    exact Nat.mod_eq_of_lt hcount
  refine ⟨set, hset, hdesc.policy, ⟨hdesc.gramSize, hdesc.bodyKind, ?_, ?_⟩, hdesc.splits⟩
  · rw [SplitSet.baseSplits, hbase, List.take_length]
  · rw [SplitSet.deltaSplits, hbase, List.drop_length]

variable {set : SplitSet} {resolver : SplitFetcher} {n : Nat} {ranking : Option ((Nat → Option Int) × Bool)}

/-- **Every split of the merged set serves the part at its place.** -/
theorem BandsOf.serves (h : BandsOf config bands) (hcut : ∀ x ∈ bands, x.Cut (cut x))
    (hmerge : mergeTermSplitBands (bands.map TermBand.parts) config = .ok merged)
    (hsplits : List.Forall₂ (SplitOf set) set.splits (mergedSpecs config ((bands.flatMap cut).map TermPart.spec)))
    (hserves : resolver.ServesMerge set bands merged n ranking) :
    List.Forall₂ (ServesPart resolver) set.splits (bands.flatMap cut) := by
  obtain ⟨-, hheld, hplan⟩ := h.merge_eq hcut hmerge
  have hlen := hsplits.length_eq
  rw [mergedSpecs, List.length_map, List.length_zipIdx, List.length_map] at hlen
  refine List.forall₂_iff_get.mpr ⟨hlen, fun p hp hp' => ?_⟩
  obtain ⟨split, hsplit⟩ : ∃ split, set.splits.get ⟨p, hp⟩ = split := ⟨_, rfl⟩
  obtain ⟨s, hs⟩ : ∃ s, (bands.flatMap cut).get ⟨p, hp'⟩ = s := ⟨_, rfl⟩
  rw [hsplit, hs]
  have hmem : split ∈ set.splits := hsplit ▸ List.get_mem _ _
  have hat : (bands.flatMap cut)[p]? = some s := by rw [List.getElem?_eq_getElem hp']; exact congrArg some hs
  have hof := (List.forall₂_iff_get.mp hsplits).2 p hp (by
    rw [mergedSpecs, List.length_map, List.length_zipIdx, List.length_map]; exact hp')
  rw [hsplit] at hof
  have hspec : (mergedSpecs config ((bands.flatMap cut).map TermPart.spec)).get ⟨p, by
      rw [mergedSpecs, List.length_map, List.length_zipIdx, List.length_map]; exact hp'⟩ =
      { s.spec with dataFile := splitStem config.namePrefix p ++ ".rrt", tier := SplitSetBuilder.tier config.policy p } := by
    simp only [mergedSpecs, List.get_eq_getElem, List.getElem_map, List.getElem_zipIdx, Nat.zero_add]
    rw [show (bands.flatMap cut)[p] = s from hs]
  rw [hspec] at hof
  obtain ⟨k, x, hk, hle, hi⟩ := exists_part hat
  have hx := List.mem_of_getElem? hk
  obtain ⟨facetFiles, hall⟩ := (hcut x hx).all
  obtain ⟨-, -, hflags, -⟩ := h.part hcut (List.mem_of_getElem? hat)
  refine ⟨hof.docIdLo, hof.flags.trans hflags, ?_⟩
  have hfile : s.file ∈ x.run.files ++ x.parts.splits := by
    rw [hall.files]
    exact List.mem_map_of_mem (List.mem_of_getElem? hi)
  rcases List.mem_append.mp hfile with hdrained | hstill
  · have hfinal : (planned merged.2 s.spec.dataFile, s.bytes) ∈ mergedFiles bands merged :=
      List.mem_append_right _ (List.mem_flatMap.mpr ⟨x, hx, List.mem_map.mpr ⟨s.file, hdrained, rfl⟩⟩)
    refine hserves.files _ hfinal split hmem ?_
    have hspecs : ((bands.flatMap cut).map TermPart.spec)[p]? = some s.spec := by rw [List.getElem?_map, hat, Option.map_some]
    have hnames : (((bands.flatMap cut).map TermPart.spec).map SplitSpec.dataFile).Nodup := by
      have hapart := h.names
      rw [← BandsOf.specs_eq hcut, List.flatMap_map, List.map_flatMap]
      exact hapart
    rw [hplan]
    exact hof.dataFile.trans (planned_eq hnames hspecs).symm
  · have hstart : startOf TermSplitParts.specs (bands.map TermBand.parts) k = startOf cut bands k := by
      unfold startOf
      rw [← List.map_take, List.flatMap_map, List.length_flatMap, List.length_flatMap]
      refine congrArg List.sum (List.map_congr_left fun y hy => ?_)
      rw [(hcut y (List.mem_of_mem_take hy)).specs, List.length_map]
    have hnew := @exists_held _ _ _ _ config bands x _ (h.made x hx) (h.short x hx) k _ hk (hcut x hx) s hi hstill
    rw [hstart, Nat.add_sub_cancel' hle, ← hheld] at hnew
    exact hserves.files _ (List.mem_append_left _ hnew) split hmem hof.dataFile

end

/-- **A merged parallel build finds what a serial one does**: the documents that have all the terms of the query, in the
order of the policy, whatever the bands were cut into and drained when. -/
theorem term_bands (h : BandsOf config bands) {merged : BuiltSplitSet × List (String × String)}
    (hmerge : mergeTermSplitBands (bands.map TermBand.parts) config = .ok merged)
    (hlen : merged.1.manifest.length < u64Bound) :
    let docs := bands.flatMap TermBand.docs
    ∃ set, SplitSet.fromBytes merged.1.manifest = .ok set ∧ set.policy = config.policy ∧
      ∀ (resolver : SplitFetcher) (ranking : Option ((Nat → Option Int) × Bool)),
        resolver.ServesMerge set bands merged docs.length ranking → ∀ query limit,
          Settles (set.search resolver query limit) (.ok ((baseOrder config.policy ranking (docs.findIdxs
            (TermDoc.hasTerms (TermIndex.queryTerms (TermSplitSetBuilder.new config).index.tokenizer query)))).take limit)) := by
  intro docs
  have hex : ∀ x : TermBand, ∃ parts, x ∈ bands → x.Cut parts := by
    intro x
    by_cases hx : x ∈ bands
    · obtain ⟨parts, hparts⟩ := h.exists_cut hx
      exact ⟨parts, fun _ => hparts⟩
    · exact ⟨[], fun hx' => absurd hx' hx⟩
  choose cut hcut using hex
  obtain ⟨set, hset, hpolicy, hterms, hsplits⟩ := h.exists_set hcut hmerge hlen
  refine ⟨set, hset, hpolicy, fun resolver ranking hserves query limit => ?_⟩
  have hdocs := BandsOf.documents hcut
  have hcount : 0 + ((bands.flatMap cut).flatMap TermPart.docs).length ≤ u32Bound := by
    rw [Nat.zero_add, hdocs]
    exact h.count
  have hfound := (h.runs hcut).settles_search hterms (h.serves hcut hmerge hsplits hserves) hcount
    (by rw [Nat.zero_add, hdocs]; exact hserves.ranked) query limit
  rwa [hpolicy, hdocs] at hfound

end

section

attribute [local instance] PortableCodec.roaring asciiUnicode asciiFilters FlatRouter.fst

/-- A worker of packed splits with its own name. -/
def packedBand (name : String) (base : Fin u32Bound) (calls : List TermBuildCall) : TermBand :=
  let config := { packedConfig with namePrefix := name }
  let run := (TermBuildRun.calls ⟨TermSplitSetBuilder.start config base 0 false, [], []⟩ calls).2
  ⟨config, base, 0, false, calls, run, run.builder.finishParts.toOption.getD ⟨[], [], [], false⟩⟩

/-- Two workers, the first of which drains a file. -/
def packedBands : List TermBand :=
  [packedBand "x" (wrapAdd 0 0) [.addFaceted "a b" [], .addFaceted "c b" [], .drainSealed],
    packedBand "y" (wrapAdd 0 2) [.addFaceted "b" [], .addFaceted "b a" []]]

theorem packedBand_run (name : String) (base : Fin u32Bound) (calls : List TermBuildCall) :
    (TermBuildRun.calls ⟨(packedBand name base calls).builder, [], []⟩ calls).2 = (packedBand name base calls).run ∧
      (packedBand name base calls).parts =
        (packedBand name base calls).run.builder.finishParts.toOption.getD ⟨[], [], [], false⟩ ∧
      (packedBand name base calls).builder.index = (TermSplitSetBuilder.new packedConfig).index :=
  ⟨rfl, rfl, rfl⟩

theorem packedBands_of : BandsOf packedConfig packedBands := by
  have hmade : ∀ x ∈ packedBands, (TermBuildRun.calls ⟨x.builder, [], []⟩ x.calls).1 = [] ∧
      x.run.builder.finishParts.toOption.isSome = true ∧ x.docs.length = 2 ∧ x.parts.specs.length ≤ 10 ^ 5 := by
    decide +kernel
  have hrun : ∀ x ∈ packedBands, (TermBuildRun.calls ⟨x.builder, [], []⟩ x.calls).2 = x.run ∧
      x.parts = x.run.builder.finishParts.toOption.getD ⟨[], [], [], false⟩ ∧
      x.builder.index = (TermSplitSetBuilder.new packedConfig).index := by
    intro x hx
    rcases List.mem_cons.mp hx with rfl | hx
    · exact packedBand_run _ _ _
    · rw [List.mem_singleton.mp hx]
      exact packedBand_run _ _ _
  refine ⟨fun x hx => ?_, fun k x hk => ?_, by decide +kernel, by decide +kernel, fun x hx => (hmade x hx).2.2.2⟩
  · obtain ⟨hcalls, hsome, hcount, -⟩ := hmade x hx
    obtain ⟨hfst, hparts, hindex⟩ := hrun x hx
    refine ⟨Prod.ext hcalls hfst, ?_, hindex, by rw [hcount]; decide⟩
    cases hfin : x.run.builder.finishParts with
    | error e =>
      rw [hfin] at hsome
      cases hsome
    | ok p =>
      rw [hparts, hfin]
      rfl
  · match k with
    | 0 =>
      obtain rfl : packedBand "x" (wrapAdd 0 0) _ = x := Option.some.inj hk
      rfl
    | 1 =>
      obtain rfl : packedBand "y" (wrapAdd 0 2) _ = x := Option.some.inj hk
      decide +kernel
    | k + 2 => cases hk

theorem term_bands_two : ∃ (merged : BuiltSplitSet × List (String × String)) (set : SplitSet),
    mergeTermSplitBands (packedBands.map TermBand.parts) packedConfig = .ok merged ∧
    SplitSet.fromBytes merged.1.manifest = .ok set ∧
    Settles (set.search (.ofFiles (mergedFiles packedBands merged)) "A b" 2) (.ok [0, 3]) := by
  have hcheck : ((mergeTermSplitBands (packedBands.map TermBand.parts) packedConfig).map fun merged =>
      decide (merged.1.manifest.length < u64Bound ∧ ((mergedFiles packedBands merged).map Prod.fst).Nodup ∧
        ∀ f ∈ mergedFiles packedBands merged, getLe 8 f.2 16 ≤ maxResidentRouter)) = .ok true := by
    decide +kernel
  cases hmerge : mergeTermSplitBands (packedBands.map TermBand.parts) packedConfig with
  | error e =>
    rw [hmerge] at hcheck
    cases hcheck
  | ok merged =>
    rw [hmerge] at hcheck
    obtain ⟨hlen, hnames, hrouter⟩ := of_decide_eq_true (Except.ok.inj hcheck)
    obtain ⟨set, hset, hpolicy, hsearch⟩ := term_bands packedBands_of hmerge hlen
    have htiered : set.policy ≠ .stableKey := by
      rw [hpolicy]
      decide
    have hserves : SplitFetcher.ServesMerge (.ofFiles (mergedFiles packedBands merged)) set packedBands merged 4 none := by
      refine ⟨fun f hf split _ hname => ⟨?_, (fun boot hb => by cases hb), hrouter f hf⟩, fun heq => absurd heq htiered⟩
      rw [hname]
      exact (SplitFetcher.serves_ofFiles hnames).file f hf
    refine ⟨merged, set, rfl, hset, ?_⟩
    have hplaces : (baseOrder .tiered none ((packedBands.flatMap TermBand.docs).findIdxs (TermDoc.hasTerms
        (TermIndex.queryTerms (TermSplitSetBuilder.new packedConfig).index.tokenizer "A b")))).take 2 = [0, 3] := by
      decide +kernel
    rw [← hplaces]
    exact hsearch _ none hserves "A b" 2

end

end RoaringRange
