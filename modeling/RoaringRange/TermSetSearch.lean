import RoaringRange.FilteredSearch
import RoaringRange.TermTiles

/-!
# Search over a term-bodied build (`splitset_build.rs`, `splitset.rs`)

The splits of a term-bodied set are term indexes of consecutive runs of the documents.  A search asks them in their order,
in waves or all at once; nothing turns a split away, as a set of term indexes has no gram keys.  What it finds are the
documents with all the query's terms, as they were tokenized when they were added.

    a split finds the places of its documents that have the terms                    (settles_termSplit)
    a set finds its splits' hits, in the order of the policy                         (settles_searchBase)
    a build finds the documents that have the terms                                    (term_build)
-/

namespace RoaringRange

open ByteString Faults Slices Tiles

/-! ## The documents with the terms -/

def TermDoc.hasTerms (terms : List String) (doc : TermDoc) : Bool :=
  !terms.isEmpty && terms.all fun t => doc.terms.any fun u => u.text == t

theorem TermDoc.hasTerms_iff {terms : List String} {doc : TermDoc} :
    doc.hasTerms terms = true ↔ terms ≠ [] ∧ ∀ t ∈ terms, ⟨t⟩ ∈ doc.terms := by
  unfold hasTerms
  rw [Bool.and_eq_true, List.all_eq_true, Bool.not_eq_true', List.isEmpty_eq_false_iff]
  refine and_congr_right fun _ => forall₂_congr fun t _ => ?_
  rw [List.any_eq_true]
  constructor
  · rintro ⟨u, hu, ht⟩
    rwa [show (⟨t⟩ : Term) = u from congrArg Term.mk (eq_of_beq ht).symm]
  · exact fun ht => ⟨⟨t⟩, ht, beq_self_eq_true t⟩

theorem TermMap.Lists.strictDocs_eq {m : TermMap} {docs : List TermDoc} (h : m.Lists docs) (terms : List String) :
    (m.strictDocs terms).toList = docs.findIdxs (TermDoc.hasTerms terms) := by
  refine List.Pairwise.eq_of_mem_iff (AscSet.asc _) List.pairwise_findIdxs fun d => ?_
  rw [List.mem_findIdxs_iff_exists_getElem_pos]
  refine TermMap.mem_strictDocs.trans ?_
  constructor
  · rintro ⟨hne, hall⟩
    obtain ⟨t, ht⟩ := List.exists_mem_of_ne_nil terms hne
    obtain ⟨doc, hd, -⟩ := (h _ _).mp (hall t ht)
    obtain ⟨hlt, rfl⟩ := List.getElem?_eq_some_iff.mp hd
    refine ⟨hlt, TermDoc.hasTerms_iff.mpr ⟨hne, fun u hu => ?_⟩⟩
    obtain ⟨doc', hd', hu'⟩ := (h _ _).mp (hall u hu)
    rw [hd] at hd'
    rwa [Option.some.inj hd']
  · rintro ⟨hlt, hhas⟩
    obtain ⟨hne, hall⟩ := TermDoc.hasTerms_iff.mp hhas
    exact ⟨hne, fun t ht => (h _ _).mpr ⟨_, List.getElem?_eq_getElem hlt, hall t ht⟩⟩

/-! ## One split -/

/-- The file of a term-bodied split, and its boot bytes if the resolver has them resident. -/
structure SplitFetcher.ServesTerms (resolver : SplitFetcher) (split : Split) (file : Bytes) : Prop where
  fetch : resolver.fetchNamed split.dataFile = .new file
  boot : ∀ boot, resolver.boot split = some boot → ∃ n, rrtiBootLen file = .ok n ∧ boot = slice file 0 n
  /-- The reader accepts the length of the router. -/
  router : getLe 8 file 16 ≤ maxResidentRouter

section

variable [Roaring] [Unicode] [TokenFilters] [Fst] {resolver : SplitFetcher} {set : SplitSet} {split : Split} {m : TermMap}
  {config : TermIndexConfig} {file : Bytes}

omit [Unicode] [TokenFilters] in
/-- A file the writer made opens as its index, by reads or from its boot bytes. -/
theorem settles_openTerms (hserves : resolver.ServesTerms split file) (t : TermFile m config) (heq : file = t.bytes) :
    Settles (openSplit resolver split .term) (.ok (.term t.index)) := by
  subst heq
  have hlen : ¬ maxResidentRouter < t.router.length := by
    have hr : getLe 8 t.bytes 16 = t.router.length := t.header_fields.2.2.2.2.2.1
    have hle := hserves.router
    omega
  unfold openSplit
  simp only [hserves.fetch]
  cases hb : resolver.boot split with
  | none =>
    have hopen := t.settles_open
    rw [if_neg hlen] at hopen
    exact hopen.bind (Settles.pure _)
  | some boot =>
    obtain ⟨n, hn, rfl⟩ := hserves.boot boot hb
    have hflen := t.length_file
    have hpo : t.postingsOffset = rrtiHeaderSize + t.router.length + t.dict.length := rfl
    have hboot := @TermFile.bootLen_eq _ _ _ _ t t.bytes.length (by omega) (Nat.le_refl _)
    rw [slice_zero_length, if_neg hlen, hn] at hboot
    obtain rfl := Except.ok.inj hboot
    have hfrom := t.fromBoot_eq
    rw [if_neg hlen] at hfrom
    simp only [hfrom]
    exact Settles.ofOutcome _

/-- **A split finds the places of its documents that have the terms.** -/
theorem settles_termSplit (hkind : set.bodyKind = .term) (hserves : resolver.ServesTerms split file)
    (hwrite : writeTermIndexFromPostings m config = .ok file) {docs : List TermDoc} (hlists : m.Lists docs)
    (hflags : split.flags = 0) (hle : split.docIdLo + docs.length ≤ u32Bound) (query : String) (limit : Nat) :
    Settles (set.searchSplit resolver query limit split) (.ok
      ((docs.findIdxs (TermDoc.hasTerms (TermIndex.queryTerms config.tokenizer query)) split.docIdLo).take limit)) := by
  obtain ⟨t, ht⟩ := writeTermIndex_ok hwrite
  have hterms : TermIndex.queryTerms t.index.tokenizer query = TermIndex.queryTerms config.tokenizer query := by
    unfold TermIndex.queryTerms
    have htk : t.index.tokenizer.tokenize query = config.tokenizer.tokenize query := tokenize_fromHeader _ t.language_ok query
    rw [htk]
  have hsearch := TermIndex.settles_search t.serves query limit
  rw [hlists.strictDocs_eq, hterms] at hsearch
  have hglobal : ∀ d ∈ (docs.findIdxs (TermDoc.hasTerms (TermIndex.queryTerms config.tokenizer query))).take limit,
      split.toGlobal d = d + split.docIdLo := by
    intro d hd
    have hlt := List.lt_add_of_mem_findIdxs d (List.mem_of_mem_take hd)
    have habs : split.absoluteIds = false := by
      rw [Split.absoluteIds, hflags]
      rfl
    rw [Split.toGlobal, if_neg (by rw [habs]; exact Bool.false_ne_true), Nat.min_eq_left (by omega), Nat.add_comm]
  unfold SplitSet.searchSplit
  rw [hkind, List.findIdxs_start, ← List.map_take, ← List.map_congr_left hglobal]
  exact (settles_openTerms hserves t ht).bind (hsearch.bind (Settles.pure _))

/-! ## A set -/

/-- **A set without keys and deltas finds its splits' hits**, in the order of the policy. -/
theorem settles_searchBase {query : String} {results : List (List Nat)} (hdelta : set.deltaSplits = [])
    (hkeys : ngramKeysWith query set.gramSize set.caseFold = [])
    (hsplits : List.Forall₂ (fun (split : Split) (hits : List Nat) => ∀ limit,
      Settles (set.searchSplit resolver query limit split) (.ok (hits.take limit))) set.baseSplits results)
    (hasc : results.flatten.Pairwise (· < ·)) {n : Nat} (hlt : ∀ d ∈ results.flatten, d < n) (hn : n ≤ u32Bound)
    {ranking : Option ((Nat → Option Int) × Bool)}
    (hranked : set.policy = .stableKey → RankedBy set.sortcol resolver n ranking) (limit : Nat) :
    Settles (set.search resolver query limit) (.ok ((baseOrder set.policy ranking results.flatten).take limit)) := by
  have hpruned : ∀ split, set.prunedByBloom split [] = false := by
    intro split
    unfold SplitSet.prunedByBloom
    cases set.bloom split with
    | none => rfl
    | some bloom => rfl
  unfold SplitSet.search
  by_cases hzero : limit = 0
  · rw [if_pos hzero, hzero, List.take_zero]
    exact Settles.pure _
  rw [if_neg hzero, hdelta, hkeys]
  cases hpolicy : set.policy with
  | tiered =>
    have horder : baseOrder .tiered ranking results.flatten = results.flatten := (hasc.imp Nat.le_of_lt).insertionSort_eq
    rw [horder]
    have hresults : List.Forall₂ (fun split hits => Settles (set.searchUnpruned resolver query [] limit split) (.ok hits))
        set.baseSplits (results.map (List.take limit)) := by
      rw [List.forall₂_map_right_iff]
      refine hsplits.imp fun split hits h => ?_
      unfold SplitSet.searchUnpruned
      rw [hpruned, if_neg Bool.false_ne_true]
      exact h limit
    have hprobe : Answers (fun present => present = false → ∀ hits ∈ results.map (List.take limit), hits = [])
        (globalBloomSaysPresent resolver []) := by
      unfold globalBloomSaysPresent
      rw [if_pos List.isEmpty_nil]
      exact Answers.pure fun h => Bool.noConfusion h
    have hdescent := @settles_searchTiers _ limit _ _ _ _ hresults hprobe
    rw [take_flatten_take] at hdescent
    exact hdescent
  | stableKey =>
    show Settles (set.searchStableKey resolver query [] limit) _
    have hall : Settles (set.searchAll resolver set.baseSplits query []) (.ok results.flatten) := by
      unfold SplitSet.searchAll
      rw [List.filter_eq_self.mpr fun split _ => by rw [hpruned]; rfl]
      refine Settles.bind (a := results) ?_ (Settles.pure _)
      rw [← collect_ok]
      refine Settles.tryAll ?_
      rw [List.forall₂_map_left_iff, List.forall₂_map_right_iff]
      have hmem := (List.forall₂_and_left _ _).mpr ⟨fun hits (h : hits ∈ results) => h, hsplits.flip⟩
      refine hmem.flip.imp fun split hits hf => ?_
      obtain ⟨hhits, h⟩ := hf
      have hsub := List.sublist_flatten_of_mem hhits
      have hmax := h usizeMax
      rwa [take_usizeMax ((hasc.imp Nat.ne_of_lt).sublist hsub) fun d hd =>
        Nat.lt_of_lt_of_le (hlt d (hsub.subset hd)) hn] at hmax
    exact hall.bind (settles_rankStableKey (hranked hpolicy) hlt limit)

end

/-! ## Consecutive runs -/

/-- Parts that hold consecutive runs of documents from a first id on, each the index of its own. -/
structure TermRuns [Roaring] [Fst] (index : TermIndexConfig) (base : Nat) (parts : List TermPart) : Prop where
  each : Each TermPart.docs (fun _ lo s => s.spec.docIdLo = base + lo) parts
  files : ∀ s ∈ parts, ∃ m : TermMap, m.Lists s.docs ∧ writeTermIndexFromPostings m index = .ok s.bytes

section

variable [Roaring] [Unicode] [TokenFilters] [Fst] {resolver : SplitFetcher} {set : SplitSet} {index : TermIndexConfig}
  {base : Nat} {parts : List TermPart}

structure SplitSet.OfTerms (set : SplitSet) : Prop where
  gramSize : set.gramSize = 0
  bodyKind : set.bodyKind = .term
  base : set.baseSplits = set.splits
  delta : set.deltaSplits = []

/-- A split of the set serves a part, whatever its file is called. -/
structure ServesPart (resolver : SplitFetcher) (split : Split) (s : TermPart) : Prop where
  docIdLo : split.docIdLo = s.spec.docIdLo
  flags : split.flags = 0
  serves : resolver.ServesTerms split s.bytes

/-- **A set over consecutive runs finds the documents that have the terms**, in the order of the policy. -/
theorem TermRuns.settles_search (h : TermRuns index base parts) (hset : set.OfTerms)
    (hsplits : List.Forall₂ (ServesPart resolver) set.splits parts)
    (hle : base + (parts.flatMap TermPart.docs).length ≤ u32Bound) {ranking : Option ((Nat → Option Int) × Bool)}
    (hranked : set.policy = .stableKey →
      RankedBy set.sortcol resolver (base + (parts.flatMap TermPart.docs).length) ranking) (query : String) (limit : Nat) :
    Settles (set.search resolver query limit) (.ok ((baseOrder set.policy ranking ((parts.flatMap TermPart.docs).findIdxs
      (TermDoc.hasTerms (TermIndex.queryTerms index.tokenizer query)) base)).take limit)) := by
  have hflat : (parts.map fun s => s.docs.findIdxs (TermDoc.hasTerms (TermIndex.queryTerms index.tokenizer query))
      s.spec.docIdLo).flatten = (parts.flatMap TermPart.docs).findIdxs
        (TermDoc.hasTerms (TermIndex.queryTerms index.tokenizer query)) base := by
    refine flatten_findIdxs_from fun i s hs => ?_
    simp only [h.each i s hs]
  rw [← hflat]
  refine settles_searchBase hset.delta ?_ ?_ ?_ (fun d hd => ?_) hle hranked limit
  · unfold ngramKeysWith
    rw [hset.gramSize, if_pos rfl]
  · rw [hset.base, List.forall₂_map_right_iff]
    have hmem := (List.forall₂_and_left _ _).mpr ⟨fun s (hs : s ∈ parts) => hs, hsplits.flip⟩
    refine hmem.flip.imp fun split s hf n => ?_
    obtain ⟨hs, hserves⟩ := hf
    obtain ⟨i, hi⟩ := List.mem_iff_getElem?.mp hs
    obtain ⟨m, hlists, hwrite⟩ := h.files s hs
    have hend := @startOf_add_le _ _ TermPart.docs _ _ _ hi
    have hlo := h.each i s hi
    rw [← hserves.docIdLo]
    exact settles_termSplit hset.bodyKind hserves.serves hwrite hlists hserves.flags
      (by rw [hserves.docIdLo]; omega) query n
  · rw [hflat]
    exact List.pairwise_findIdxs
  · rw [hflat] at hd
    have := List.lt_add_of_mem_findIdxs d hd
    omega

end

/-! ## A build -/

/-- A new builder at a first id, with the facet digest asked for (none where `top` is 0). -/
def TermSplitSetBuilder.start (config : TermSplitBuildConfig) (base : Fin u32Bound) (top : Nat) (v2 : Bool) :
    TermSplitSetBuilder := ((TermSplitSetBuilder.new config).withGlobalBase base).withFacetDigest top v2

section

variable [Roaring] [Unicode] [TokenFilters] [Fst] {config : TermSplitBuildConfig} {firstId : Fin u32Bound} {top : Nat} {v2 : Bool}
  {docs : List TermDoc} {parts : List TermPart} {files facetFiles : NamedFiles} {resolver : SplitFetcher}

omit [TokenFilters] in
theorem CutsAll.runs {b : TermSplitSetBuilder} (h : CutsAll b docs parts files facetFiles) :
    TermRuns b.index b.globalBase.val parts := by
  refine ⟨fun i s hs => (h.each i s hs).docIdLo, fun s hs => ?_⟩
  obtain ⟨i, hi⟩ := List.mem_iff_getElem?.mp hs
  exact (h.each i s hi).terms

omit [TokenFilters] in
theorem CutsAll.inRange {b : TermSplitSetBuilder} (h : CutsAll b docs parts files facetFiles)
    (hle : b.globalBase.val + docs.length ≤ u32Bound) (hlt : docs.length < u32Bound) {s : TermPart} (hs : s ∈ parts) :
    s.spec.InRange := by
  obtain ⟨i, hi⟩ := List.mem_iff_getElem?.mp hs
  have hat := h.each i s hi
  have hend := @startOf_add_le _ _ TermPart.docs _ _ _ hi
  rw [h.documents] at hend
  have hpos := List.length_pos_iff.mpr hat.docs_ne
  have hcount := hat.docCount
  have hlo := hat.docIdLo
  have hhi := hat.docIdHi
  have hbound : u32Bound = 2 ^ 32 := rfl
  obtain ⟨m, -, hwrite⟩ := hat.terms
  obtain ⟨t, ht⟩ := writeTermIndex_ok hwrite
  refine ⟨?_, by omega, by omega, by omega, ?_, ?_, ?_⟩
  · rw [hat.tier]
    exact tier_lt _ _
  · rw [hat.flags]
    exact Nat.two_pow_pos 16
  · rw [hat.byteSize, ht]
    exact t.length_file_lt
  · rw [hat.epoch]
    exact Nat.two_pow_pos 64

omit [TokenFilters] in
/-- **The manifest opens as the set of the splits that were cut.** -/
theorem CutsAll.exists_set {b : TermSplitSetBuilder} (h : CutsAll b docs parts files facetFiles)
    (hle : b.globalBase.val + docs.length ≤ u32Bound) (hlt : docs.length < u32Bound) (hcap : b.byteCap < 2 ^ 64)
    (hcol : ∀ sc, b.sortcol = some sc → sc.column < 2 ^ 16) {hasFacets : Bool} {bytes : Bytes}
    (hwrite : writeSplitset (parts.map TermPart.spec) (termManifestConfig b parts.length hasFacets) = .ok bytes)
    (hlen : bytes.length < u64Bound) : ∃ set, SplitSet.fromBytes bytes = .ok set ∧ set.policy = b.policy ∧ set.OfTerms ∧
      List.Forall₂ (fun split s => SplitOf set split s.spec) set.splits parts := by
  have hconfig : (termManifestConfig b parts.length hasFacets).InRange := by
    refine ⟨?_, tier_lt _ _, hcap, Nat.two_pow_pos 16, hcol⟩
    unfold termManifestConfig
    simp only
    split <;> split <;> decide
  have hrange : ∀ spec ∈ parts.map TermPart.spec, spec.InRange := by
    intro spec hspec
    obtain ⟨s, hs, rfl⟩ := List.mem_map.mp hspec
    exact h.inRange hle hlt hs
  obtain ⟨set, hset, -, hdesc⟩ := exists_manifest hconfig hrange hwrite hlen
  have hcount := (writeSplitset_fits hwrite).count_lt
  rw [List.length_map] at hcount
  have hsplits := List.forall₂_map_right_iff.mp hdesc.splits
  have hbase : set.baseCount = set.splits.length := by
    rw [hdesc.baseCount, hsplits.length_eq]
    exact Nat.mod_eq_of_lt hcount
  refine ⟨set, hset, hdesc.policy, ⟨hdesc.gramSize, hdesc.bodyKind, ?_, ?_⟩, hsplits⟩
  · rw [SplitSet.baseSplits, hbase, List.take_length]
  · rw [SplitSet.deltaSplits, hbase, List.drop_length]

/-- The resolver serves what a search of a term-bodied build needs: its files, and its sort column. -/
structure SplitFetcher.ServesTermBuild (resolver : SplitFetcher) (set : SplitSet) (files : NamedFiles) (n : Nat)
    (ranking : Option ((Nat → Option Int) × Bool)) : Prop where
  files : ∀ f ∈ files, ∀ split ∈ set.splits, split.dataFile = f.1 → resolver.ServesTerms split f.2
  ranked : set.policy = .stableKey → RankedBy set.sortcol resolver n ranking

/-- **A term-bodied build finds the documents that have the terms**: whatever was added, drained and cut where, a search
lists the ids of the documents with all the terms of the query, in the order of the policy, as many as are wanted; and
`count_exact` counts them. -/
theorem term_build {calls : List TermBuildCall} {r : TermBuildRun} {built : BuiltSplitSet}
    (hcalls : TermBuildRun.calls ⟨TermSplitSetBuilder.start config firstId top v2, [], []⟩ calls = ([], r))
    (hfin : r.builder.finish = .ok built)
    (hle : firstId.val + (TermBuildCall.documents (TermSplitSetBuilder.start config firstId top v2).index.tokenizer
      calls).length ≤ 2 ^ 32)
    (hlt : (TermBuildCall.documents (TermSplitSetBuilder.start config firstId top v2).index.tokenizer calls).length < 2 ^ 32)
    (hlen : built.manifest.length < u64Bound) :
    let tk := (TermSplitSetBuilder.start config firstId top v2).index.tokenizer
    let docs := TermBuildCall.documents tk calls
    ∃ set, SplitSet.fromBytes built.manifest = .ok set ∧ set.policy = config.policy ∧
      ∀ (resolver : SplitFetcher) (ranking : Option ((Nat → Option Int) × Bool)),
        resolver.ServesTermBuild set (r.files ++ built.splits) (firstId.val + docs.length) ranking → ∀ query : String,
        let found := docs.findIdxs (TermDoc.hasTerms (TermIndex.queryTerms tk query)) firstId.val
        (∀ limit, Settles (set.search resolver query limit) (.ok ((baseOrder config.policy ranking found).take limit))) ∧
        Settles (set.countExact resolver query []) (.ok found.length) := by
  intro tk docs
  have hfresh : (TermSplitSetBuilder.start config firstId top v2).Fresh :=
    ⟨rfl, rfl, rfl, rfl, rfl, rfl, rfl, rfl⟩
  have hcuts := hfresh.cuts
  obtain ⟨parts₀, last₀, h⟩ := hcuts.calls (by rw [hcalls]) hle hlt
  rw [hcalls, List.nil_append] at h
  obtain ⟨parts, hall, hwrite⟩ := h.finish hle hfin
  obtain ⟨set, hset, hpolicy, hterms, hsplits⟩ := hall.exists_set hle hlt config.fits.byteCap_lt config.fits.sortcol_lt
    hwrite hlen
  refine ⟨set, hset, hpolicy, fun resolver ranking hserves query => ?_⟩
  intro found
  have hparts : List.Forall₂ (ServesPart resolver) set.splits parts := by
    have hmem := (List.forall₂_and_left _ _).mpr ⟨fun s (hs : s ∈ parts) => hs, hsplits.flip⟩
    have hboth := (List.forall₂_and_left _ _).mpr ⟨fun split (hs : split ∈ set.splits) => hs, hmem.flip⟩
    refine hboth.imp fun split s hf => ?_
    obtain ⟨hsplit, hs, hof⟩ := hf
    obtain ⟨i, hi⟩ := List.mem_iff_getElem?.mp hs
    refine ⟨hof.docIdLo, hof.flags.trans (hall.each i s hi).flags, hserves.files s.file ?_ split hsplit hof.dataFile⟩
    rw [hall.files]
    exact List.mem_map_of_mem hs
  have hdocs : parts.flatMap TermPart.docs = docs := hall.documents
  have hn : firstId.val + docs.length ≤ u32Bound := hle
  have hsearch : ∀ limit, Settles (set.search resolver query limit)
      (.ok ((baseOrder config.policy ranking found).take limit)) := by
    intro limit
    have hfound := hall.runs.settles_search hterms hparts (by rw [hdocs]; exact hle) (by rw [hdocs]; exact hserves.ranked)
      query limit
    rw [hpolicy, hdocs] at hfound
    exact hfound
  refine ⟨hsearch, ?_⟩
  have hperm := perm_baseOrder config.policy ranking found
  have hmax := hsearch usizeMax
  rw [take_usizeMax (hperm.nodup_iff.mpr List.nodup_findIdxs) fun d hd => by
    have := List.lt_add_of_mem_findIdxs d (hperm.mem_iff.mp hd)
    omega] at hmax
  unfold SplitSet.countExact SplitSet.countedIds
  rw [if_pos List.isEmpty_nil]
  refine hmax.bind ?_
  rw [hperm.length_eq]
  exact Settles.pure _

end

section

attribute [local instance] PortableCodec.roaring asciiUnicode asciiFilters FlatRouter.fst

theorem packedConfig_fits : TermConfigFits 200 0 0 none := by
  refine ⟨?_, ?_, ?_, ?_⟩ <;> simp

def packedConfig : TermSplitBuildConfig where
  policy := .tiered
  byteCap := 200
  byteCapMax := 0
  headBoundary := 0
  namePrefix := "p"
  sortcol := none
  language := none
  stem := false
  stopwords := false
  caseSensitive := false
  fits := packedConfig_fits

def packedBuilder : TermSplitSetBuilder := TermSplitSetBuilder.start packedConfig (wrapAdd 0 0) 0 false

/-- Four documents in three splits. -/
def packedCalls : List TermBuildCall :=
  [.addFaceted "a b" [], .addFaceted "b" [], .addFaceted "c b" [], .drainSealed, .addFaceted "b a" []]

theorem term_build_four : ∃ (r : TermBuildRun) (built : BuiltSplitSet) (set : SplitSet),
    TermBuildRun.calls ⟨packedBuilder, [], []⟩ packedCalls = ([], r) ∧ r.builder.finish = .ok built ∧
    SplitSet.fromBytes built.manifest = .ok set ∧
    Settles (set.search (.ofFiles (r.files ++ built.splits)) "A b" 2) (.ok [0, 3]) ∧
    Settles (set.countExact (.ofFiles (r.files ++ built.splits)) "b" []) (.ok 4) := by
  have hcalls : TermBuildRun.calls ⟨packedBuilder, [], []⟩ packedCalls =
      ([], (TermBuildRun.calls ⟨packedBuilder, [], []⟩ packedCalls).2) := Prod.ext (by decide +kernel) rfl
  generalize hr : (TermBuildRun.calls ⟨packedBuilder, [], []⟩ packedCalls).2 = r at hcalls
  have hcheck : (r.builder.finish.map fun built => decide (built.manifest.length < u64Bound ∧
      ((r.files ++ built.splits).map Prod.fst).Nodup ∧
      ∀ f ∈ r.files ++ built.splits, getLe 8 f.2 16 ≤ maxResidentRouter)) = .ok true := by
    rw [← hr]
    decide +kernel
  cases hfin : r.builder.finish with
  | error e =>
    rw [hfin] at hcheck
    cases hcheck
  | ok built =>
    rw [hfin] at hcheck
    obtain ⟨hlen, hnames, hrouter⟩ := of_decide_eq_true (Except.ok.inj hcheck)
    obtain ⟨set, hset, hpolicy, hsearch⟩ := @term_build _ _ _ _ packedConfig (wrapAdd 0 0) 0 false _ _ _ hcalls hfin
      (by decide +kernel) (by decide +kernel) hlen
    have htiered : set.policy ≠ .stableKey := by
      rw [hpolicy]
      decide
    have hserves : SplitFetcher.ServesTermBuild (.ofFiles (r.files ++ built.splits)) set (r.files ++ built.splits) 4 none := by
      refine ⟨fun f hf split _ hname => ⟨?_, (fun boot hb => by cases hb), hrouter f hf⟩, fun heq => absurd heq htiered⟩
      rw [hname]
      exact (SplitFetcher.serves_ofFiles hnames).file f hf
    obtain ⟨hboth, -⟩ := hsearch _ none hserves "A b"
    obtain ⟨-, hcount⟩ := hsearch _ none hserves "b"
    refine ⟨r, built, set, hcalls, hfin, hset, ?_, ?_⟩
    · have hplaces : (baseOrder .tiered none ((TermBuildCall.documents packedBuilder.index.tokenizer packedCalls).findIdxs
          (TermDoc.hasTerms (TermIndex.queryTerms packedBuilder.index.tokenizer "A b")) 0)).take 2 = [0, 3] := by
        decide +kernel
      rw [← hplaces]
      exact hboth 2
    · have hplaces : ((TermBuildCall.documents packedBuilder.index.tokenizer packedCalls).findIdxs
          (TermDoc.hasTerms (TermIndex.queryTerms packedBuilder.index.tokenizer "b")) 0).length = 4 := by
        decide +kernel
      rw [← hplaces]
      exact hcount

end

end RoaringRange
