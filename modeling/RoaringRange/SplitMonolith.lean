import RoaringRange.Paging
import RoaringRange.SplitCap
import RoaringRange.SplitSearch
import RoaringRange.TermsBuild

/-!
# A tiered split set searches like one index of all its documents

The splits of a build hold consecutive runs of its documents.  A split finds, in its local ids, the places of its
documents that have all the query's keys; moved to the split's start these are their places among all documents.  So
the splits' hits one after the other are the hits of an index of all documents, and the first of them are found by a
descent that ends early:

    every split serves the postings of its documents                               (CutInto.serves)
    the set and the monolith find the same documents                            (search_monolith)
-/

namespace RoaringRange

open ByteString Faults Slices Tiles

/-! ## The documents with the keys -/

/-- The document has all the keys, and there are some. -/
def BuildDoc.hasKeys (keys : List Key) (doc : BuildDoc) : Bool := !keys.isEmpty && keys.all fun k => doc.keys.contains k

theorem BuildDoc.hasKeys_iff {keys : List Key} {doc : BuildDoc} :
    doc.hasKeys keys = true ↔ keys ≠ [] ∧ ∀ k ∈ keys, k ∈ doc.keys := by
  simp [hasKeys]

/-- The hits of a split are the places of its documents that have the keys. -/
theorem strictDocs_postsAndUpper {docs : List BuildDoc} (h : docs.length ≤ u32Bound) (keys : List Key) :
    ((postsAndUpper docs).1.strictDocs keys).toList = docs.findIdxs (BuildDoc.hasKeys keys) := by
  refine List.Pairwise.eq_of_mem_iff (AscSet.asc _) List.pairwise_findIdxs fun d => ?_
  rw [List.mem_findIdxs_iff_exists_getElem_pos]
  refine PostMap.mem_strictDocs.trans ?_
  constructor
  · rintro ⟨hne, hall⟩
    obtain ⟨k, hk⟩ := List.exists_mem_of_ne_nil keys hne
    obtain ⟨doc, hd, -⟩ := (mem_postsAndUpper h).mp (hall k hk)
    obtain ⟨hlt, rfl⟩ := List.getElem?_eq_some_iff.mp hd
    refine ⟨hlt, BuildDoc.hasKeys_iff.mpr ⟨hne, fun j hj => ?_⟩⟩
    obtain ⟨doc', hd', hj'⟩ := (mem_postsAndUpper h).mp (hall j hj)
    rw [hd] at hd'
    rwa [Option.some.inj hd']
  · rintro ⟨hlt, hhas⟩
    obtain ⟨hne, hall⟩ := BuildDoc.hasKeys_iff.mp hhas
    exact ⟨hne, fun k hk => (mem_postsAndUpper h).mpr ⟨_, List.getElem?_eq_getElem hlt, hall k hk⟩⟩

theorem mem_keys_add {doc : Fin u32Bound} {keys : List Key} {k : Key} {m : PostMap} :
    k ∈ (m.add doc keys).keys ↔ k ∈ m.keys ∨ k ∈ keys := by
  induction keys generalizing m with
  | nil => simp [PostMap.add]
  | cons j keys ih =>
    show k ∈ ((m.insert doc j).add doc keys).keys ↔ _
    rw [ih, PostMap.insert, OrdMap.keys_update_subset, List.mem_cons, or_comm (a := k = j), or_assoc]

/-- The keys of a split are those of its documents. -/
theorem mem_keys_postsAndUpper {docs : List BuildDoc} {k : Key} :
    k ∈ (postsAndUpper docs).1.keys ↔ ∃ doc ∈ docs, k ∈ doc.keys := by
  induction docs using List.reverseRecOn with
  | nil =>
    refine iff_of_false ?_ (by simp)
    exact List.not_mem_nil
  | append_singleton docs doc ih =>
    rw [postsAndUpper_snoc, fst_insertKeys, mem_keys_add, ih]
    simp [or_and_right, exists_or]

/-- The keys of the documents, each once. -/
def distinctKeys (docs : List BuildDoc) : List Key := (docs.flatMap BuildDoc.keys).dedup

theorem length_postsAndUpper (docs : List BuildDoc) :
    (postsAndUpper docs).1.toList.length = (distinctKeys docs).length := by
  have hperm : (postsAndUpper docs).1.keys.Perm (distinctKeys docs) := by
    refine (List.perm_ext_iff_of_nodup (OrdMap.keys_nodup _) (List.nodup_dedup _)).mpr fun k => ?_
    rw [mem_keys_postsAndUpper, List.mem_dedup, List.mem_flatMap]
  have := hperm.length_eq
  rwa [OrdMap.keys, List.length_map] at this

/-! ## The splits of a build -/

section

variable [Roaring] [Unicode]

/-- The files of a set, and boot bytes of some of them. -/
structure SplitFetcher.Serves (resolver : SplitFetcher) (files : NamedFiles) : Prop where
  file : ∀ f ∈ files, resolver.fetchNamed f.1 = .new f.2
  boot : ∀ split boot, resolver.boot split = some boot → ∃ file n, (split.dataFile, file) ∈ files ∧
    rrsBootLen file = .ok n ∧ boot = slice file 0 n

omit [Roaring] [Unicode] in
theorem SplitFetcher.Serves.servesFile {resolver : SplitFetcher} {files : NamedFiles} (h : resolver.Serves files)
    {split : Split} {file : Bytes} (hf : (split.dataFile, file) ∈ files) : resolver.ServesFile split file := by
  have hfetch := h.file _ hf
  refine ⟨hfetch, fun boot hb => ?_⟩
  obtain ⟨file', n, hmem, hn, rfl⟩ := h.boot split boot hb
  have hsame : MemoryFetch.new file = MemoryFetch.new file' := hfetch.symm.trans (h.file _ hmem)
  obtain rfl : file = file' := congrArg MemoryFetch.bytes hsame
  exact ⟨n, hn, rfl⟩

variable {config : SplitBuildConfig} {top : Nat} {v2 : Bool} {docs : List BuildDoc} {all : BuiltSplitSet}
  {st : List SealedSplit × List BuildDoc}

omit [Roaring] [Unicode] in
theorem start_fits : (SplitSetBuilder.start config top v2).gramSize < 2 ^ 16 ∧
    (SplitSetBuilder.start config top v2).stride < 2 ^ 32 ∧ (SplitSetBuilder.start config top v2).byteCap < 2 ^ 64 ∧
    (∀ sc, (SplitSetBuilder.start config top v2).sortcol = some sc → sc.column < 2 ^ 16) ∧
    (SplitSetBuilder.start config top v2).policy = config.policy := by
  have hstride := config.fits.stride_lt
  have hnew : (SplitSetBuilder.new config).stride < 2 ^ 32 := by
    show (if config.stride = 0 then defaultStride else config.stride) < 2 ^ 32
    split
    · decide
    · exact hstride
  cases v2 with
  | false => exact ⟨config.fits.gramSize_lt, hnew, config.fits.byteCap_lt, config.fits.sortcol_lt, rfl⟩
  | true => exact ⟨config.fits.gramSize_lt, hnew, config.fits.byteCap_lt, config.fits.sortcol_lt, rfl⟩

omit [Roaring] [Unicode] in
theorem hasFlag_caseSensitive (bloom facets caseNormalization : Bool) :
    (!hasFlag ((if bloom then flagBloom else 0) ||| (if facets then flagFacet else 0) |||
      (if caseNormalization then 0 else flagCaseSensitive)) flagCaseSensitive) = caseNormalization := by
  revert bloom facets caseNormalization
  decide

/-- The set that the manifest of a build opens as: all its splits are base splits. -/
structure SplitSet.OfBuild (set : SplitSet) (b : SplitSetBuilder) (parts : List SealedSplit) : Prop where
  policy : set.policy = b.policy
  gramSize : set.gramSize = b.gramSize
  caseFold : set.caseFold = b.caseNormalization
  bodyKind : set.bodyKind = .trigram
  base : set.baseSplits = set.splits
  delta : set.deltaSplits = []
  splits : List.Forall₂ (fun split s => SplitOf set split s.spec) set.splits parts
  summary_lt : ∀ s ∈ parts, s.spec.summary.length < 2 ^ 32

/-- A split's file is short where its keys can be counted. -/
theorem CutInto.bytes_lt (h : CutInto (SplitSetBuilder.start config top v2) docs all st) {i : Nat} {s : SealedSplit}
    (hs : st.1[i]? = some s) (hkeys : (distinctKeys s.docs).length < 2 ^ 32) : s.bytes.length < u64Bound := by
  obtain ⟨hg, hstride, -⟩ := @start_fits config top v2
  obtain ⟨bytes, more, sidecar, hbytes, -, hspec⟩ := SplitSetBuilder.cut_ok (h.each i s hs).2
  obtain ⟨c, hc, -⟩ := exists_corpus hg hstride
    ((length_postsAndUpper _).trans_lt hkeys) hbytes
  rw [hspec, ← hc]
  exact c.length_bytes_lt

/-- A split's numbers are within their types. -/
theorem CutInto.spec_inRange (h : CutInto (SplitSetBuilder.start config top v2) docs all st)
    (htiles : Each SealedSplit.docs (SealedAt (SplitSetBuilder.start config top v2)) st.1) (hn : docs.length ≤ u32Bound)
    {i : Nat} {s : SealedSplit} (hs : st.1[i]? = some s) (hsize : s.bytes.length < u64Bound) :
    s.spec.InRange ∧ s.spec.flags = 0 ∧ s.spec.docIdLo + s.docs.length ≤ u32Bound := by
  have hat := htiles i s hs
  obtain ⟨hmod, hcut⟩ := h.each i s hs
  have hle := @startOf_add_le _ _ SealedSplit.docs _ _ _ hs
  have htotal : (st.1.flatMap SealedSplit.docs).length ≤ docs.length := by
    rw [← h.documents, List.length_append]
    exact Nat.le_add_right _ _
  have hlt : s.docs.length < u32Bound := by
    rcases Nat.lt_or_eq_of_le (show s.docs.length ≤ u32Bound by omega) with hlt | heq
    · exact hlt
    · rw [heq, Nat.mod_self] at hmod
      exact absurd rfl hmod
  obtain ⟨bytes, more, sidecar, hbytes, hside, hspec⟩ := SplitSetBuilder.cut_ok hcut
  have hlo := hat.docIdLo
  have hhi := hat.docIdHi
  have hcount := hat.docCount
  have hbound : u32Bound = 2 ^ 32 := rfl
  refine ⟨⟨?_, ?_, ?_, ?_, ?_, ?_, ?_⟩, by rw [hspec], by omega⟩
  · rw [hspec]
    exact tier_lt _ _
  · omega
  · omega
  · omega
  · rw [hspec]
    exact Nat.two_pow_pos 16
  · rw [hat.byteSize]
    exact hsize
  · rw [hspec]
    exact Nat.two_pow_pos 64

/-- The manifest is that of the splits that were cut. -/
theorem CutInto.written (h : CutInto (SplitSetBuilder.start config top v2) docs all st) :
    writeSplitset (st.1.map SealedSplit.spec)
      ((SplitSetBuilder.start config top v2).holding st.1 st.2 0).manifestConfig = .ok all.manifest := by
  have hm := h.manifest
  unfold SplitSetBuilder.manifest at hm
  split at hm
  · cases hm
  · exact hm

/-- The manifest opens as the splits that were cut, all of them base splits. -/
theorem CutInto.exists_described (h : CutInto (SplitSetBuilder.start config top v2) docs all st)
    (hn : docs.length ≤ u32Bound) (hne : docs.length = u32Bound → all.splits ≠ [])
    (hsizes : ∀ s ∈ st.1, s.bytes.length < u64Bound) (hlen : all.manifest.length < u64Bound) :
    ∃ set, SplitSet.fromBytes all.manifest = .ok set ∧ set.baseCount = st.1.length ∧
      (∀ s ∈ st.1, s.spec.summary.length < 2 ^ 32) ∧
      set.Describes ((SplitSetBuilder.start config top v2).holding st.1 st.2 0).manifestConfig (st.1.map SealedSplit.spec) := by
  have hem := h.emitted hn hne
  obtain ⟨hg, -, hcap, hcol, -⟩ := @start_fits config top v2
  have hwrite := h.written
  have hfits := writeSplitset_fits hwrite
  have hconfig : ((SplitSetBuilder.start config top v2).holding st.1 st.2 0).manifestConfig.InRange := by
    refine ⟨?_, tier_lt _ _, hcap, hg, hcol⟩
    unfold SplitSetBuilder.manifestConfig
    simp only
    split <;> split <;> split <;> decide
  have hspecs : ∀ spec ∈ st.1.map SealedSplit.spec, spec.InRange := by
    intro spec hspec
    obtain ⟨s, hs, rfl⟩ := List.mem_map.mp hspec
    obtain ⟨i, hi⟩ := List.mem_iff_getElem?.mp hs
    exact (h.spec_inRange hem.tiles hn hi (hsizes s hs)).1
  obtain ⟨set, hset, -, hdesc⟩ := exists_manifest hconfig hspecs hwrite hlen
  refine ⟨set, hset, ?_, fun s hs => hfits.summary_lt _ (List.mem_map_of_mem hs), hdesc⟩
  have hlt := hfits.count_lt
  rw [List.length_map] at hlt
  rw [hdesc.baseCount]
  show (st.1.map SealedSplit.spec).length % u32Bound = _
  rw [List.length_map]
  exact Nat.mod_eq_of_lt hlt

/-- The manifest opens as the set of the splits that were cut. -/
theorem CutInto.exists_set (h : CutInto (SplitSetBuilder.start config top v2) docs all st)
    (hn : docs.length ≤ u32Bound) (hne : docs.length = u32Bound → all.splits ≠ [])
    (hkeys : ∀ s ∈ st.1, (distinctKeys s.docs).length < 2 ^ 32) (hlen : all.manifest.length < u64Bound) :
    ∃ set, SplitSet.fromBytes all.manifest = .ok set ∧ set.OfBuild (SplitSetBuilder.start config top v2) st.1 := by
  have hsizes : ∀ s ∈ st.1, s.bytes.length < u64Bound := by
    intro s hs
    obtain ⟨i, hi⟩ := List.mem_iff_getElem?.mp hs
    exact h.bytes_lt hi (hkeys s hs)
  obtain ⟨set, hset, hcount, hsummary, hdesc⟩ := h.exists_described hn hne hsizes hlen
  have hbase : set.baseCount = set.splits.length := by
    rw [hcount, hdesc.splits.length_eq, List.length_map]
  refine ⟨set, hset, hdesc.policy, hdesc.gramSize, ?_, hdesc.bodyKind, ?_, ?_, ?_, hsummary⟩
  · rw [hdesc.caseFold]
    have := hasFlag_caseSensitive (decide (0 < (SplitSetBuilder.start config top v2).bloomBitsPerKey))
      ((SplitSetBuilder.start config top v2).holding st.1 st.2 0).hasFacets
      (SplitSetBuilder.start config top v2).caseNormalization
    simp only [decide_eq_true_eq] at this
    exact this
  · rw [SplitSet.baseSplits, hbase, List.take_length]
  · rw [SplitSet.deltaSplits, hbase, List.drop_length]
  · exact List.forall₂_map_right_iff.mp hdesc.splits

variable [TokenFilters] [Fst] {set : SplitSet} {resolver : SplitFetcher}

omit [TokenFilters] in
/-- **Every split serves the postings of its documents.** -/
theorem CutInto.serves (h : CutInto (SplitSetBuilder.start config top v2) docs all st)
    (hset : set.OfBuild (SplitSetBuilder.start config top v2) st.1) (hserves : resolver.Serves all.splits) {i : Nat}
    {s : SealedSplit} (hs : st.1[i]? = some s) (hkeys : (distinctKeys s.docs).length < 2 ^ 32) {split : Split}
    (hof : SplitOf set split s.spec) : SplitServes set resolver split (postsAndUpper s.docs).1 := by
  obtain ⟨hg, hstride, -⟩ := @start_fits config top v2
  obtain ⟨bytes, more, sidecar, hbytes, hside, hspec⟩ := SplitSetBuilder.cut_ok (h.each i s hs).2
  obtain ⟨c, rfl, hcg, hcf, hpost⟩ := exists_corpus hg hstride
    ((length_postsAndUpper _).trans_lt hkeys) hbytes
  have hmem : (split.dataFile, c.bytes) ∈ all.splits := by
    rw [h.files, hof.dataFile]
    refine List.mem_map.mpr ⟨s, List.mem_of_getElem? hs, ?_⟩
    rw [SealedSplit.file, show s.bytes = c.bytes by rw [hspec]]
  refine ⟨⟨_, c.settles_openSplit (hserves.servesFile hmem), c.wellFormed, ?_, ?_, fun k => ?_⟩, ?_⟩
  · rw [hset.gramSize, ← hcg]
    rfl
  · rw [hset.caseFold, ← hcf]
    rfl
  · rw [c.postingOf_eq, hpost]
  · refine Blooms.neverPruned ?_ ?_
    · rw [hof.summary, show s.spec.summary = SplitSetBuilder.bloomRecord
        (SplitSetBuilder.start config top v2).bloomBitsPerKey (postsAndUpper s.docs).1 ++ more by rw [hspec]]
      exact (blooms_bloomRecord _ _).sealFacets hside
    · rw [hof.summary]
      exact hset.summary_lt s (List.mem_of_getElem? hs)

/-- What a split finds: the places of its documents that have all the keys. -/
theorem SplitServes.settles_places (h : SplitServes set resolver split (postsAndUpper docs).1)
    (hkind : set.bodyKind = .trigram) (hflags : split.flags = 0) (hle : split.docIdLo + docs.length ≤ u32Bound)
    (query : String) (limit : Nat) :
    Settles (set.searchUnpruned resolver query (ngramKeysWith query set.gramSize set.caseFold) limit split)
      (.ok ((docs.findIdxs (BuildDoc.hasKeys (ngramKeysWith query set.gramSize set.caseFold)) split.docIdLo).take limit)) := by
  have hsearch := h.settles_searchUnpruned hkind query limit
  rw [strictDocs_postsAndUpper (by omega)] at hsearch
  rw [List.findIdxs_start, ← List.map_take]
  have hglobal : ∀ d ∈ (docs.findIdxs (BuildDoc.hasKeys (ngramKeysWith query set.gramSize set.caseFold))).take limit,
      split.toGlobal d = d + split.docIdLo := by
    intro d hd
    have hlt := List.lt_add_of_mem_findIdxs d (List.mem_of_mem_take hd)
    have habs : split.absoluteIds = false := by
      rw [Split.absoluteIds, hflags]
      rfl
    rw [Split.toGlobal, if_neg (by rw [habs]; exact Bool.false_ne_true), Nat.min_eq_left (by omega), Nat.add_comm]
  rw [List.map_congr_left hglobal] at hsearch
  exact hsearch

/-- **A tiered set finds the places of the documents with the keys**, as many as are wanted. -/
theorem CutInto.settles_search (h : CutInto (SplitSetBuilder.start config top v2) docs all st)
    (hset : set.OfBuild (SplitSetBuilder.start config top v2) st.1) (hpolicy : config.policy = .tiered)
    (hn : docs.length ≤ u32Bound) (hne : docs.length = u32Bound → all.splits ≠ [])
    (hkeys : ∀ s ∈ st.1, (distinctKeys s.docs).length < 2 ^ 32) (hserves : resolver.Serves all.splits)
    (hbloom : resolver.BloomOver fun k => k ∈ distinctKeys docs) (query : String) (limit : Nat) :
    Settles (set.search resolver query limit)
      (.ok ((docs.findIdxs (BuildDoc.hasKeys (ngramKeysWith query set.gramSize set.caseFold))).take limit)) := by
  have hem := h.emitted hn hne
  let p := BuildDoc.hasKeys (ngramKeysWith query set.gramSize set.caseFold)
  have hall : docs.findIdxs p = (st.1.map fun s => s.docs.findIdxs p s.spec.docIdLo).flatten := by
    rw [@flatten_findIdxs _ _ SealedSplit.docs _ p fun s => s.docs.findIdxs p s.spec.docIdLo, hem.documents]
    intro i s hs
    rw [(hem.tiles i s hs).docIdLo]
  have hresults : List.Forall₂ (fun split hits => Settles (set.searchUnpruned resolver query
      (ngramKeysWith query set.gramSize set.caseFold) limit split) (.ok hits)) set.splits
      ((st.1.map fun s => s.docs.findIdxs p s.spec.docIdLo).map (List.take limit)) := by
    rw [List.map_map, List.forall₂_map_right_iff]
    have hboth := (List.forall₂_and_left _ _).mpr ⟨fun s (hs : s ∈ st.1) => hs, hset.splits.flip⟩
    refine hboth.flip.imp fun split s hf => ?_
    obtain ⟨hs, hof⟩ := hf
    obtain ⟨i, hi⟩ := List.mem_iff_getElem?.mp hs
    obtain ⟨-, hflags, hle⟩ := h.spec_inRange hem.tiles hn hi (h.bytes_lt hi (hkeys s hs))
    have hsplit := h.serves hset hserves hi (hkeys s hs) hof
    rw [← hof.docIdLo] at hle
    have := hsplit.settles_places hset.bodyKind (hof.flags.trans hflags) hle query limit
    rw [hof.docIdLo] at this
    exact this
  have hprobe : Answers (fun present => present = false →
      ∀ hits ∈ (st.1.map fun s => s.docs.findIdxs p s.spec.docIdLo).map (List.take limit), hits = [])
      (globalBloomSaysPresent resolver (ngramKeysWith query set.gramSize set.caseFold)) := by
    refine (answers_globalBloom hbloom _).imp fun present habsent hfalse hits hhits => ?_
    obtain ⟨k, hk, hnot⟩ := habsent hfalse
    rw [List.map_map] at hhits
    obtain ⟨s, hs, rfl⟩ := List.mem_map.mp hhits
    have hnone : s.docs.findIdxs p s.spec.docIdLo = [] := by
      refine List.findIdxs_eq_nil_iff.mpr fun doc hdoc => Bool.eq_false_iff.mpr fun hhas => hnot ?_
      refine List.mem_dedup.mpr (List.mem_flatMap.mpr ⟨doc, ?_, (BuildDoc.hasKeys_iff.mp hhas).2 k hk⟩)
      rw [← hem.documents]
      exact List.mem_flatMap.mpr ⟨s, hs, hdoc⟩
    show (s.docs.findIdxs p s.spec.docIdLo).take limit = []
    rw [hnone, List.take_nil]
  unfold SplitSet.search
  by_cases hzero : limit = 0
  · rw [if_pos hzero, hzero, List.take_zero]
    exact Settles.pure _
  have hpol : set.policy = .tiered := by rw [hset.policy, (@start_fits config top v2).2.2.2.2, hpolicy]
  rw [if_neg hzero, hset.delta, hpol]
  show Settles (set.searchTiered resolver query _ limit) _
  unfold SplitSet.searchTiered
  rw [hset.base]
  have := @settles_searchTiers _ limit _ _ _ _ hresults hprobe
  rw [take_flatten_take, ← hall] at this
  exact this

omit [TokenFilters] [Fst] in
/-- A part of the documents has no more keys. -/
theorem CutInto.distinctKeys_lt (h : CutInto (SplitSetBuilder.start config top v2) docs all st)
    (hkeys : (distinctKeys docs).length < 2 ^ 32) : ∀ s ∈ st.1, (distinctKeys s.docs).length < 2 ^ 32 := by
  intro s hs
  have hsub : distinctKeys s.docs ⊆ distinctKeys docs := by
    intro k hk
    obtain ⟨doc, hdoc, hin⟩ := List.mem_flatMap.mp (List.mem_dedup.mp hk)
    refine List.mem_dedup.mpr (List.mem_flatMap.mpr ⟨doc, ?_, hin⟩)
    rw [← h.documents]
    exact List.mem_append_left _ (List.mem_flatMap.mpr ⟨s, hs, hdoc⟩)
  exact Nat.lt_of_le_of_lt (List.subperm_of_subset (List.nodup_dedup _) hsub).length_le hkeys

/-- **A tiered split set searches like the monolith**: the same list, for every query and limit. -/
theorem search_monolith {calls : List BuildCall} {r : BuildRun} {built : BuiltSplitSet}
    (hpolicy : config.policy = .tiered)
    (hcalls : BuildRun.calls ⟨SplitSetBuilder.start config top v2, [], []⟩ calls = ([], r))
    (hfin : r.builder.finish = .ok built)
    (hn : (BuildCall.documents (SplitSetBuilder.start config top v2) calls).length ≤ 2 ^ 32)
    (hne : (BuildCall.documents (SplitSetBuilder.start config top v2) calls).length = 2 ^ 32 →
      r.files ++ built.splits ≠ [])
    (hkeys : (distinctKeys (BuildCall.documents (SplitSetBuilder.start config top v2) calls)).length < 2 ^ 32)
    (hlen : built.manifest.length < u64Bound) {stride : Nat} (hstride : stride < 2 ^ 32) :
    let b := SplitSetBuilder.start config top v2
    let docs := BuildCall.documents b calls
    ∃ set monolith ix, SplitSet.fromBytes built.manifest = .ok set ∧
      writeIndexWith b.gramSize stride (serializeEntries (postsAndUpper docs).1.toList) b.caseNormalization = .ok monolith ∧
      Settles (Index.open (MemoryFetch.new monolith)) (.ok ix) ∧
      ∀ resolver : SplitFetcher, resolver.Serves (r.files ++ built.splits) →
        resolver.BloomOver (fun k => k ∈ distinctKeys docs) → ∀ query limit, ∃ hits,
          Settles (ix.search query limit) (.ok hits) ∧ Settles (set.search resolver query limit) (.ok hits) := by
  intro b docs
  obtain ⟨-, st, -, -, hinto⟩ := exists_cutInto hcalls hfin
  have hparts := hinto.distinctKeys_lt hkeys
  obtain ⟨set, hset, hof⟩ := hinto.exists_set hn hne hparts hlen
  obtain ⟨hg, -⟩ := @start_fits config top v2
  obtain ⟨monolith, ix, hmono, hopen, hixg, hixc, hpost, hsearch⟩ := @postMap_search _ _ b.gramSize stride hg hstride
    b.caseNormalization (postsAndUpper docs).1 _ (List.Perm.refl _)
    ((length_postsAndUpper _).trans_lt hkeys)
  refine ⟨set, monolith, ix, hset, hmono, hopen, fun resolver hserves hbloom query limit => ⟨_, ?_,
    hinto.settles_search hof hpolicy hn hne hparts hserves hbloom query limit⟩⟩
  have hdocs : ix.strictDocs (ix.queryKeys query) =
      (postsAndUpper docs).1.strictDocs (ngramKeysWith query set.gramSize set.caseFold) := by
    refine AscSet.ext_mem fun d => ?_
    rw [mem_strictDocs_iff hpost, PostMap.mem_strictDocs, Index.queryKeys, hixg, hixc, hof.gramSize, hof.caseFold]
  have := hsearch query limit
  rw [hdocs, strictDocs_postsAndUpper hn] at this
  exact this

end

/-! ## What a set can lose -/

section

variable [Roaring] [Unicode] {b : SplitSetBuilder}

/-- Documents without facets and with fewer than 2^32 keys can be cut off. -/
theorem exists_cut_plain (hg : b.gramSize < 2 ^ 16) (hs : b.stride < 2 ^ 32) {docs : List BuildDoc}
    (hkeys : (distinctKeys docs).length < 2 ^ 32) (hfacets : ∀ doc ∈ docs, doc.facets = []) (idx lo : Nat) :
    ∃ s, b.cut idx lo docs = .ok s ∧ s.docs = docs ∧ s.spec.summary = SplitSetBuilder.bloomRecord b.bloomBitsPerKey
      (postsAndUpper docs).1 ∧ s.spec.dataFile = splitStem b.namePrefix idx ++ ".rrs" ∧ ∃ bytes,
        writeIndexWith b.gramSize b.stride (serializeEntries (postsAndUpper docs).1.toList) b.caseNormalization = .ok bytes ∧
        s.spec.byteSize = bytes.length := by
  obtain ⟨bytes, -, hbytes, -⟩ := @postMap_search _ _ b.gramSize b.stride hg hs b.caseNormalization
    (postsAndUpper docs).1 _ (List.Perm.refl _) ((length_postsAndUpper _).trans_lt hkeys)
  have hempty : (facetsOf docs).isEmpty = true := by
    rw [isEmpty_facetsOf, List.all_eq_true]
    intro doc hdoc
    rw [hfacets doc hdoc, List.isEmpty_nil]
  refine ⟨⟨docs, ⟨splitStem b.namePrefix idx ++ ".rrs", SplitSetBuilder.tier b.policy idx, docs.length % u32Bound,
    lo % u32Bound, (lo % u32Bound + (docs.length % u32Bound - 1)) % u32Bound, 0, bytes.length, 0,
    SplitSetBuilder.bloomRecord b.bloomBitsPerKey (postsAndUpper docs).1 ++ []⟩, bytes, []⟩, ?_, rfl, List.append_nil _, rfl,
    bytes, hbytes, rfl⟩
  have hside : sealFacetSidecar (facetsOf docs) ⟨b.namePrefix, idx, b.headBoundary, b.caseNormalization,
      b.facetDigestTop, b.facetDigestV2⟩ = .ok ([], []) := by
    unfold sealFacetSidecar
    rw [if_pos hempty]
  unfold SplitSetBuilder.cut
  simp only [hbytes, hside]
  rfl

omit [Unicode] in
/-- The file of one document is no larger than its postings are priced at. -/
theorem length_file_one_le (hplain : PlainContainers) (doc : BuildDoc) {bytes : Bytes}
    (h : writeIndexWith b.gramSize b.stride (serializeEntries (postsAndUpper [doc]).1.toList) b.caseNormalization = .ok bytes) :
    bytes.length ≤ postsPrice (postsAndUpper [doc]).1 (postsAndUpper [doc]).2 := by
  have hdocs : ∀ k, ∀ d ∈ (postsAndUpper [doc]).1.docs k, d < bucketSize := by
    intro k d hd
    obtain ⟨doc', hd', -⟩ := (mem_postsAndUpper (by rw [List.length_singleton]; decide)).mp hd
    have hlt := (List.getElem?_eq_some_iff.mp hd').1
    rw [List.length_singleton] at hlt
    have : bucketSize = 65536 := rfl
    omega
  have hprice := length_file_le hplain hdocs h
  have helements := @elements_le_foldl ∅ 0 (wrapAdd 0 0) doc.keys (Nat.le_refl 0)
  unfold postsPrice at hprice ⊢
  have hfold : doc.keys.foldl (SplitSetBuilder.insertKey (wrapAdd 0 0)) (∅, 0) = postsAndUpper [doc] := rfl
  rw [hfold] at helements
  omega

/-- A document is cut off by another one with a key, where the cap is just what its own postings are priced at. -/
theorem cut_of_two {one two : BuildDoc} (hcap : b.byteCap = postsPrice (postsAndUpper [one]).1 (postsAndUpper [one]).2)
    (hmax : b.byteCapMax = 0) (htwo : two.keys ≠ []) {s : SealedSplit} (hcut : b.cut 0 0 [one] = .ok s) :
    [one, two].foldlM b.cutStep ([], []) = .ok ([s], [two]) := by
  have hfirst : b.cutStep ([], []) one = .ok ([], [one]) := rfl
  have hest : postsPrice (postsAndUpper [one]).1 (postsAndUpper [one]).2 ≤ (b.holding [] [one] 0).estimate := by
    unfold postsPrice SplitSetBuilder.estimate
    show _ ≤ 20 + (postsAndUpper [one]).1.len * perNewKeyBytes + _ + (postsAndUpper [one]).2
    omega
  have hmore : 2 ≤ (b.holding [] [one] 0).marginal two.keys := by
    have hlen := List.length_pos_iff.mpr htwo
    unfold SplitSetBuilder.marginal perElementBytes
    simp only
    omega
  have hlt : capFor (b.holding [] [one] 0).byteCap (b.holding [] [one] 0).byteCapMax (b.holding [] [one] 0).specs.length <
      (b.holding [] [one] 0).estimate + (b.holding [] [one] 0).marginal two.keys := by
    have hcap' : capFor (b.holding [] [one] 0).byteCap (b.holding [] [one] 0).byteCapMax
        (b.holding [] [one] 0).specs.length = b.byteCap := by
      show capFor b.byteCap b.byteCapMax _ = _
      rw [hmax]
      rfl
    rw [hcap', hcap]
    omega
  have hfull : (b.holding [] [one] 0).full two.keys = true := by
    unfold SplitSetBuilder.full
    rw [decide_eq_true hlt, Bool.and_true]
    rfl
  have hsecond : b.cutStep ([], [one]) two = .ok ([s], [two]) := by
    unfold SplitSetBuilder.cutStep
    rw [if_pos hfull]
    show (b.cut 0 0 [one] >>= _) = _
    rw [hcut]
    rfl
  rw [List.foldlM_cons, hfirst]
  show [two].foldlM b.cutStep ([], [one]) = _
  rw [List.foldlM_cons, hsecond]
  rfl

omit [Roaring] [Unicode] in
/-- A manifest of summaries that are not too large, together, for what reads it. -/
theorem exists_shortManifest {splits : List SplitSpec} {config : SplitSetConfig} (hf : ManifestFits splits config)
    (hsum : (splits.flatMap SplitSpec.summary).length < 2 ^ 32) :
    ∃ bytes, writeSplitset splits config = .ok bytes ∧ bytes.length < u64Bound := by
  obtain ⟨names, summaries, sortcolName, hw, hnames, hsums, -⟩ := writeSplitset_eq hf
  have hrows := (entryOf_splitRows hnames hsums).length_eq
  refine ⟨_, hw, ?_⟩
  have hcount := hf.count_lt
  have hnameBytes := hf.names_lt
  rw [List.length_append, List.length_append, List.length_append, length_rrssHeader, length_table length_splitRow, hrows]
  unfold u64Bound
  omega

/-- Two documents of which the first fills its split, and the second has a key: a build of two splits. -/
theorem finish_of_two (hplain : PlainContainers) (hg : b.gramSize < 2 ^ 16) (hs : b.stride < 2 ^ 32)
    (hstem : b.namePrefix = "p") (hsort : b.sortcol = none) (hbits : b.bloomBitsPerKey = 0)
    {one two : BuildDoc} (hone : (distinctKeys [one]).length < 2 ^ 32) (htwo : (distinctKeys [two]).length < 2 ^ 32)
    (hfacets : one.facets = [] ∧ two.facets = []) (hkey : two.keys ≠ [])
    (hcap : b.byteCap = postsPrice (postsAndUpper [one]).1 (postsAndUpper [one]).2) (hmax : b.byteCapMax = 0)
    (hle : postsPrice (postsAndUpper [two]).1 (postsAndUpper [two]).2 ≤ b.byteCap) :
    ∃ s t manifest, [one, two].foldlM b.cutStep ([], []) = .ok ([s], [two]) ∧ s.docs = [one] ∧ t.docs = [two] ∧
      b.cutEnd ([s], [two]) = .ok ([s, t], []) ∧ (b.holding [s, t] [] 0).manifest = .ok manifest ∧
      manifest.length < u64Bound := by
  obtain ⟨s, hcuts, hdocs, hsums, hnames, bytes, hbytes, hsizes⟩ := exists_cut_plain hg hs hone
    (List.forall_mem_singleton.mpr hfacets.1) 0 0
  obtain ⟨t, hcutt, hdoct, hsumt, hnamet, bytest, hbytest, hsizet⟩ := exists_cut_plain hg hs htwo
    (List.forall_mem_singleton.mpr hfacets.2) 1 1
  have hbloom : ∀ posts, SplitSetBuilder.bloomRecord b.bloomBitsPerKey posts = [] := by
    intro posts
    unfold SplitSetBuilder.bloomRecord
    rw [hbits, if_neg (Nat.lt_irrefl 0)]
  have hend : b.cutEnd ([s], [two]) = .ok ([s, t], []) := by
    unfold SplitSetBuilder.cutEnd
    have hlen : ¬ [two].length % u32Bound = 0 := by rw [List.length_singleton]; decide
    rw [if_neg hlen]
    show (b.cut 1 (s.docs ++ []).length [two] >>= _) = _
    rw [hdocs]
    show (b.cut 1 1 [two] >>= _) = _
    rw [hcutt]
    rfl
  obtain ⟨manifest, hm, hmlen⟩ : ∃ manifest, (b.holding [s, t] [] 0).manifest = .ok manifest ∧
      manifest.length < u64Bound := by
    have hcapFor : ∀ i, capFor b.byteCap b.byteCapMax i = b.byteCap := by
      intro i
      unfold capFor
      rw [if_pos hmax]
    have hsmall : s.spec.byteSize ≤ b.byteCap ∧ t.spec.byteSize ≤ b.byteCap := by
      have h1 := length_file_one_le hplain one hbytes
      have h2 := length_file_one_le hplain two hbytest
      omega
    have hover : (b.holding [s, t] [] 0).oversized = none := by
      refine List.find?_eq_none.mpr fun x hx => ?_
      show ¬ (_ && decide (capFor b.byteCap b.byteCapMax x.2 < x.1.byteSize)) = true
      have hx1 : x.1 = s.spec ∨ x.1 = t.spec := by
        have : x.1 ∈ [s.spec, t.spec] := (List.mem_zipIdx hx).2.2 ▸ List.getElem_mem _
        simpa using this
      have hfits : ¬ capFor b.byteCap b.byteCapMax x.2 < x.1.byteSize := by
        rw [hcapFor]
        rcases hx1 with h | h
        · rw [h]
          omega
        · rw [h]
          omega
      rw [decide_eq_false hfits, Bool.and_false]
      exact Bool.false_ne_true
    unfold SplitSetBuilder.manifest
    rw [hover]
    show ∃ manifest, writeSplitset [s.spec, t.spec] _ = .ok manifest ∧ _
    have hname : ∀ spec ∈ [s.spec, t.spec], (utf8 spec.dataFile).length = 12 := by
      intro spec hspec
      rcases List.mem_cons.mp hspec with rfl | hspec
      · rw [hnames, hstem]
        decide +kernel
      · rw [List.mem_singleton.mp hspec, hnamet, hstem]
        decide +kernel
    refine exists_shortManifest ⟨show 2 < 2 ^ 32 by decide, Nat.le_refl 2, fun spec hspec => ?_, fun sc hsc => ?_, ?_,
      fun spec hspec => ?_⟩ ?_
    · rw [hname spec hspec]
      decide
    · have : b.sortcol = some sc := hsc
      rw [hsort] at this
      cases this
    · show (nameBytes [s.spec, t.spec] b.sortcol).length < 2 ^ 32
      have h1 := hname s.spec List.mem_cons_self
      have h2 := hname t.spec (List.mem_cons_of_mem _ List.mem_cons_self)
      unfold nameBytes
      rw [hsort, List.length_append, List.flatMap_cons, List.flatMap_singleton, List.length_append, h1, h2]
      decide
    · rcases List.mem_cons.mp hspec with rfl | hspec
      · rw [hsums, hbloom]
        exact Nat.two_pow_pos 32
      · rw [List.mem_singleton.mp hspec, hsumt, hbloom]
        exact Nat.two_pow_pos 32
    · rw [List.flatMap_cons, List.flatMap_singleton, hsums, hsumt, hbloom, hbloom]
      exact Nat.two_pow_pos 32
  exact ⟨s, t, manifest, cut_of_two hcap hmax hkey hcuts, hdocs, hdoct, hend, hm, hmlen⟩

/-- An index without keys finds nothing. -/
theorem settles_search_noKeys {ix : Index} (h : ix.ngrams = 0) (query : String) (limit : Nat) :
    Settles (ix.search query limit) (.ok []) := by
  have hnone : ∀ key, ix.dictBlockFor key = none := by
    intro key
    rw [Index.dictBlockFor, if_pos h]
  have hrec : ∀ key, ix.findRec key = none := by
    intro key
    rw [Index.findRec, hnone]
    rfl
  have hwf : ix.WellFormed := by
    refine ⟨fun key blk hblk => ?_, fun key r hr => ?_⟩
    · rw [hnone] at hblk
      cases hblk
    · rw [hrec] at hr
      cases hr
  have hempty : ix.strictDocs (ix.queryKeys query) = ∅ := by
    refine AscSet.ext_mem fun d => iff_of_false (fun hd => ?_) (AscSet.not_mem_empty d)
    obtain ⟨hne, hall⟩ := Index.mem_strictDocs.mp hd
    obtain ⟨key, hkey⟩ := List.exists_mem_of_ne_nil _ hne
    obtain ⟨S, hS, -⟩ := hall key hkey
    rw [Index.postingOf, hrec] at hS
    cases hS
  have := Index.settles_search hwf query limit
  rw [hempty] at this
  rwa [show (∅ : Bitmap).toList = [] from rfl, List.take_nil] at this

end

/-! ## A key too many -/

/-- A document with the first `n` keys. -/
def denseDoc (n : Nat) : BuildDoc := ⟨(List.range n).map wrappedKey, []⟩

/-- A document with the key after them. -/
def nextDoc (n : Nat) : BuildDoc := ⟨[wrappedKey n], []⟩

theorem length_distinctKeys_dense {n : Nat} (hn : n ≤ 2 ^ 64) : (distinctKeys [denseDoc n]).length = n := by
  have hkeys : [denseDoc n].flatMap BuildDoc.keys = (List.range n).map wrappedKey := List.flatMap_singleton _ _
  unfold distinctKeys
  rw [hkeys, List.dedup_eq_self.mpr (nodup_firstKeys hn), List.length_map, List.length_range]

theorem length_distinctKeys_both {n : Nat} (hn : n < 2 ^ 64) : (distinctKeys [denseDoc n, nextDoc n]).length = n + 1 := by
  have hkeys : [denseDoc n, nextDoc n].flatMap BuildDoc.keys = (List.range (n + 1)).map wrappedKey := by
    rw [List.range_succ, List.map_append, List.flatMap_cons, List.flatMap_singleton]
    rfl
  unfold distinctKeys
  rw [hkeys, List.dedup_eq_self.mpr (nodup_firstKeys hn), List.length_map, List.length_range]

/-- What a document is priced at: its keys, each with one element at most. -/
theorem postsPrice_one_le (doc : BuildDoc) :
    20 + (distinctKeys [doc]).length * perNewKeyBytes ≤ postsPrice (postsAndUpper [doc]).1 (postsAndUpper [doc]).2 ∧
      postsPrice (postsAndUpper [doc]).1 (postsAndUpper [doc]).2 ≤
        20 + (distinctKeys [doc]).length * perNewKeyBytes + doc.keys.length * perElementBytes := by
  have hlen : (postsAndUpper [doc]).1.len = (distinctKeys [doc]).length := length_postsAndUpper [doc]
  have hupper := @upper_foldl_le ∅ 0 (wrapAdd 0 0) doc.keys
  have hfold : doc.keys.foldl (SplitSetBuilder.insertKey (wrapAdd 0 0)) (∅, 0) = postsAndUpper [doc] := rfl
  rw [hfold, Nat.zero_add] at hupper
  unfold postsPrice
  rw [hlen]
  omega

/-- A cap that the dense document just fits. -/
def denseCap (n : Nat) : Nat := postsPrice (postsAndUpper [denseDoc n]).1 (postsAndUpper [denseDoc n]).2

theorem denseCap_le {n : Nat} (hn : n ≤ 2 ^ 64) : denseCap n ≤ 20 + n * perNewKeyBytes + n * perElementBytes := by
  have := (postsPrice_one_le (denseDoc n)).2
  have hkeys : (denseDoc n).keys.length = n := by
    show ((List.range n).map wrappedKey).length = n
    rw [List.length_map, List.length_range]
  rwa [length_distinctKeys_dense hn, hkeys] at this

theorem nextDoc_le_denseCap {n : Nat} (hpos : 2 ≤ n) (hn : n ≤ 2 ^ 64) :
    postsPrice (postsAndUpper [nextDoc n]).1 (postsAndUpper [nextDoc n]).2 ≤ denseCap n := by
  have hdense := (postsPrice_one_le (denseDoc n)).1
  have hnext := (postsPrice_one_le (nextDoc n)).2
  have hone : (distinctKeys [nextDoc n]).length = 1 := rfl
  have hkeys : (nextDoc n).keys.length = 1 := rfl
  rw [length_distinctKeys_dense hn] at hdense
  rw [hone, hkeys] at hnext
  unfold perNewKeyBytes at hdense hnext
  unfold perElementBytes at hnext
  unfold denseCap
  omega

section

attribute [local instance] PortableCodec.roaring asciiUnicode asciiFilters FlatRouter.fst

/-- Tiered splits of at most `byteCap` bytes. -/
def tieredConfig (byteCap : Nat) (fits : ConfigFits byteCap 0 3 0 0 none) : SplitBuildConfig where
  policy := .tiered
  byteCap := byteCap
  byteCapMax := 0
  gramSize := 3
  headBoundary := 0
  stride := 0
  namePrefix := "p"
  sortcol := none
  bloomBitsPerKey := 0
  caseSensitive := false
  fits := fits

/-- A resolver over the files, with nothing resident and no global filter. -/
def SplitFetcher.ofFiles (files : NamedFiles) : SplitFetcher where
  fetchNamed name := ((files.find? fun f => f.1 = name).map fun f => MemoryFetch.new f.2).getD .absent
  boot _ := none
  globalBloomName := none

theorem SplitFetcher.serves_ofFiles {files : NamedFiles} (h : (files.map Prod.fst).Nodup) :
    (SplitFetcher.ofFiles files).Serves files := by
  refine ⟨fun f hf => ?_, fun split boot hb => by cases hb⟩
  have hfind : files.find? (fun g => g.1 = f.1) = some f := by
    induction files with
    | nil => cases hf
    | cons g files ih =>
      rw [List.map_cons, List.nodup_cons] at h
      rcases List.mem_cons.mp hf with rfl | hf
      · exact List.find?_cons_of_pos (by simp)
      · have hne : ¬ g.1 = f.1 := fun heq => h.1 (heq ▸ List.mem_map_of_mem hf)
        rw [List.find?_cons_of_neg (by simpa using hne)]
        exact ih h.2 hf
  show ((files.find? fun g => g.1 = f.1).map fun g => MemoryFetch.new g.2).getD .absent = _
  rw [hfind]
  rfl

def tieredTight : SplitSetBuilder := SplitSetBuilder.start (tieredConfig 100 tight_fits) 0 false

/-- Three documents, the first and the last with the key of the query. -/
def searchedCalls : List BuildCall := [.addFaceted "abc" [], .addFaceted "abd" [], .drainSealed, .addFaceted "abc" []]

theorem search_monolith_three : ∃ (r : BuildRun) (built : BuiltSplitSet) (set : SplitSet) (ix : Index),
    BuildRun.calls ⟨tieredTight, [], []⟩ searchedCalls = ([], r) ∧ r.builder.finish = .ok built ∧
    SplitSet.fromBytes built.manifest = .ok set ∧ ∃ hits, Settles (ix.search "abc" 2) (.ok hits) ∧
      Settles (set.search (.ofFiles (r.files ++ built.splits)) "abc" 2) (.ok hits) := by
  have hcalls : BuildRun.calls ⟨tieredTight, [], []⟩ searchedCalls =
      ([], (BuildRun.calls ⟨tieredTight, [], []⟩ searchedCalls).2) := Prod.ext (by decide +kernel) rfl
  have hcheck : ((BuildRun.calls ⟨tieredTight, [], []⟩ searchedCalls).2.builder.finish.map fun built =>
      (decide (built.manifest.length < u64Bound), decide ((((BuildRun.calls ⟨tieredTight, [], []⟩ searchedCalls).2.files ++
        built.splits).map Prod.fst).Nodup))) = .ok (true, true) := by decide +kernel
  cases h : (BuildRun.calls ⟨tieredTight, [], []⟩ searchedCalls).2.builder.finish with
  | error e =>
    rw [h] at hcheck
    cases hcheck
  | ok built =>
    rw [h] at hcheck
    obtain ⟨hlen, hnames⟩ := Prod.mk.inj (Except.ok.inj hcheck)
    obtain ⟨set, monolith, ix, hset, -, -, hsearch⟩ := @search_monolith _ _ (tieredConfig 100 tight_fits) 0 false _ _ _ _ _
      rfl hcalls h (by decide +kernel) (fun h => absurd h (by decide +kernel)) (by decide +kernel)
      (of_decide_eq_true hlen) 0 (by decide)
    refine ⟨_, built, set, ix, hcalls, h, hset, ?_⟩
    exact hsearch _ (SplitFetcher.serves_ofFiles (of_decide_eq_true hnames)) (fun name hname => by cases hname) "abc" 2

/-- A document with the key of the query, and documents without keys. -/
def keylessCalls (n : Nat) : List BuildCall := .addKeys [abcKey] :: List.replicate n (.addKeys [])

/-- The manifest of no splits. -/
theorem noSplits : ∃ m set, (tieredTight.holding [] [] 0).manifest = .ok m ∧ SplitSet.fromBytes m = .ok set ∧
    set.splits = [] ∧ set.policy = .tiered := by
  have hcheck : ((tieredTight.holding [] [] 0).manifest.toOption.bind fun m =>
      (SplitSet.fromBytes m).toOption.map fun set => (set.splits, set.policy)) = some ([], .tiered) := by decide +kernel
  cases hm : (tieredTight.holding [] [] 0).manifest with
  | error e =>
    rw [hm] at hcheck
    cases hcheck
  | ok m =>
    rw [hm] at hcheck
    have hset : (SplitSet.fromBytes m).toOption.map (fun set => (set.splits, set.policy)) = some ([], .tiered) := hcheck
    cases hs : SplitSet.fromBytes m with
    | error e =>
      rw [hs] at hset
      cases hset
    | ok set =>
      rw [hs] at hset
      have hboth := Option.some.inj hset
      exact ⟨m, set, rfl, hs, congrArg Prod.fst hboth, congrArg Prod.snd hboth⟩

/-- A set without splits finds nothing. -/
theorem settles_search_noSplits {set : SplitSet} (hsplits : set.splits = []) (hpolicy : set.policy = .tiered)
    (resolver : SplitFetcher) (query : String) (limit : Nat) : Settles (set.search resolver query limit) (.ok []) := by
  have hdelta : set.deltaSplits = [] := by rw [SplitSet.deltaSplits, hsplits, List.drop_nil]
  have hbase : set.baseSplits = [] := by rw [SplitSet.baseSplits, hsplits, List.take_nil]
  unfold SplitSet.search
  split
  · exact Settles.pure _
  · rw [hdelta, hpolicy]
    show Settles (set.searchTiered resolver query _ limit) _
    rw [SplitSet.searchTiered, hbase]
    exact Settles.pure _

/-- The documents of these calls. -/
def keylessDocs (n : Nat) : List BuildDoc := [⟨[abcKey], []⟩] ++ List.replicate n ⟨[], []⟩

/-- Documents without keys, as many as wrap the counter of the open split, take the one with a key with them. -/
theorem keylessCalls_run {n : Nat} (hn : (n + 1) % u32Bound = 0) : ∃ (r : BuildRun) (built : BuiltSplitSet) (set : SplitSet),
    BuildRun.calls ⟨tieredTight, [], []⟩ (keylessCalls n) = ([], r) ∧ r.builder.finish = .ok built ∧
    r.files ++ built.splits = [] ∧ SplitSet.fromBytes built.manifest = .ok set ∧ set.splits = [] ∧ set.policy = .tiered := by
  have hdocs : BuildCall.documents tieredTight (keylessCalls n) = keylessDocs n :=
    congrArg (_ :: ·) (List.filterMap_replicate_of_some rfl)
  obtain ⟨m, set, hm, hset, hsplits, hpolicy⟩ := noSplits
  have hcut : (BuildCall.documents tieredTight (keylessCalls n)).foldlM tieredTight.cutStep ([], []) =
      .ok ([], keylessDocs n) := by
    have hrest := @cut_keyless _ _ tieredTight [⟨[abcKey], []⟩] (by decide +kernel) n 0
    rw [Nat.zero_add] at hrest
    rw [hdocs]
    exact hrest
  refine ⟨BuildRun.holding tieredTight [] (keylessDocs n) 0, ⟨m, [], []⟩, set, ?_, ?_, rfl,
    hset, hsplits, hpolicy⟩
  · refine @BuildRun.calls_of_cut _ _ tieredTight [] [] 0 _ ?_ (Nat.zero_le _) ([], _) hcut
    intro hmem
    rcases List.mem_cons.mp hmem with h | h
    · cases h
    · cases List.eq_of_mem_replicate h
  · show (tieredTight.holding [] (keylessDocs n) 0).finish = _
    have hlen : (keylessDocs n).length % u32Bound = 0 := by
      unfold keylessDocs
      rw [List.length_append, List.length_replicate, List.length_singleton, Nat.add_comm]
      exact hn
    have hfacets : (tieredTight.holding [] (keylessDocs n) 0).hasFacets = false := by
      show ([] ++ keylessDocs n).any (fun d => !d.facets.isEmpty) = false
      unfold keylessDocs
      rw [List.nil_append, List.any_append, List.any_replicate]
      simp
    have hmanifest : (tieredTight.holding [] (keylessDocs n) 0).manifest = .ok m := by
      rw [← hm]
      unfold SplitSetBuilder.manifest SplitSetBuilder.manifestConfig
      rw [hfacets]
      rfl
    rw [SplitSetBuilder.finish_holding (Nat.zero_le _), SplitSetBuilder.cutEnd, if_pos hlen]
    simp only [pure, Except.pure, Except.bind, hmanifest]
    rfl

/-- What a build of some calls and one index of all their documents find: `parts` and `whole`. -/
def SearchesTo (b : SplitSetBuilder) (calls : List BuildCall) (query : String) (limit : Nat)
    (whole parts : List Nat) : Prop :=
  ∃ (r : BuildRun) (built : BuiltSplitSet) (set : SplitSet) (monolith : Bytes) (ix : Index),
    BuildRun.calls ⟨b, [], []⟩ calls = ([], r) ∧ r.builder.finish = .ok built ∧
    SplitSet.fromBytes built.manifest = .ok set ∧
    writeIndexWith b.gramSize 512 (serializeEntries (postsAndUpper (BuildCall.documents b calls)).1.toList)
      b.caseNormalization = .ok monolith ∧
    Settles (Index.open (MemoryFetch.new monolith)) (.ok ix) ∧ Settles (ix.search query limit) (.ok whole) ∧
    Settles (set.search (.ofFiles (r.files ++ built.splits)) query limit) (.ok parts)

theorem abcKeys : ngramKeysWith "abc" 3 true = [abcKey] := by decide +kernel

/-- Where the counter of the open split wraps to zero, the set has lost its documents, and the monolith has not. -/
theorem keyless_searchesTo {n : Nat} (hn : (n + 1) % u32Bound = 0) :
    SearchesTo tieredTight (keylessCalls n) "abc" 1 [0] [] := by
  obtain ⟨r, built, set, hcalls, hfin, hfiles, hset, hsplits, hpolicy⟩ := keylessCalls_run hn
  have hdocs : BuildCall.documents tieredTight (keylessCalls n) = keylessDocs n :=
    congrArg (_ :: ·) (List.filterMap_replicate_of_some rfl)
  have hposts : postsAndUpper (BuildCall.documents tieredTight (keylessCalls n)) = postsAndUpper [⟨[abcKey], []⟩] := by
    rw [hdocs]
    exact postsAndUpper_keyless _ n
  obtain ⟨monolith, ix, hmono, hopen, hixg, hixc, hpost, hsearch⟩ := @postMap_search _ _ 3 512 (by decide) (by decide)
    true (postsAndUpper [⟨[abcKey], []⟩]).1 _ (List.Perm.refl _)
    ((length_postsAndUpper _).trans_lt (by decide +kernel))
  refine ⟨r, built, set, monolith, ix, hcalls, hfin, hset, ?_, hopen, ?_, settles_search_noSplits hsplits hpolicy _ _ _⟩
  · rw [hposts]
    exact hmono
  · have hstrict : ix.strictDocs (ix.queryKeys "abc") = (postsAndUpper [⟨[abcKey], []⟩]).1.strictDocs [abcKey] := by
      refine AscSet.ext_mem fun d => ?_
      rw [mem_strictDocs_iff hpost, PostMap.mem_strictDocs, Index.queryKeys, hixg, hixc, abcKeys]
    have := hsearch "abc" 1
    rw [hstrict, strictDocs_postsAndUpper (by decide)] at this
    exact this

/-- A document with the first keys and one with the key after them, which starts the second split. -/
def denseCalls (n : Nat) : List BuildCall := [.addKeys (denseDoc n).keys, .addKeys (nextDoc n).keys]

theorem denseCap_fits {n : Nat} (hn : n < 2 ^ 32) : ConfigFits (denseCap n) 0 3 0 0 none := by
  refine ⟨?_, by decide, by decide, by decide, by decide, fun sc h => by cases h⟩
  have := @denseCap_le n (by omega)
  unfold perNewKeyBytes perElementBytes at this
  omega

/-- Tiered splits with room for the first keys. -/
def tieredDense (n : Nat) (hn : n < 2 ^ 32) : SplitSetBuilder :=
  SplitSetBuilder.start (tieredConfig (denseCap n) (denseCap_fits hn)) 0 false

theorem documents_denseCalls (b : SplitSetBuilder) (n : Nat) :
    BuildCall.documents b (denseCalls n) = [denseDoc n, nextDoc n] := rfl

theorem hasKeys_dense {n : Nat} (hn : abcKey.val < n) (h32 : n < 2 ^ 32) :
    [denseDoc n, nextDoc n].findIdxs (BuildDoc.hasKeys [abcKey]) 0 = [0] := by
  have hfirst : (denseDoc n).hasKeys [abcKey] = true := by
    refine BuildDoc.hasKeys_iff.mpr ⟨List.cons_ne_nil _ _, List.forall_mem_singleton.mpr ?_⟩
    exact List.mem_map.mpr ⟨abcKey.val, List.mem_range.mpr hn, Fin.ext (Nat.mod_eq_of_lt abcKey.isLt)⟩
  have hsecond : (nextDoc n).hasKeys [abcKey] = false := by
    refine Bool.eq_false_iff.mpr fun h => ?_
    have hmem := (BuildDoc.hasKeys_iff.mp h).2 abcKey List.mem_cons_self
    have hval : abcKey.val = n % 2 ^ 64 := congrArg Fin.val (List.mem_singleton.mp hmem)
    rw [Nat.mod_eq_of_lt (by omega)] at hval
    omega
  rw [List.findIdxs_cons, hfirst, List.findIdxs_cons, hsecond]
  rfl

/-- An index of `2^32` keys is one of none. -/
theorem exists_emptied {posts : PostMap} (h : posts.toList.length = 2 ^ 32) :
    ∃ monolith ix, writeIndexWith 3 512 (serializeEntries posts.toList) true = .ok monolith ∧
      Settles (Index.open (MemoryFetch.new monolith)) (.ok ix) ∧ ix.ngrams = 0 := by
  have hser : (serializeEntries posts.toList).map Prod.fst = posts.keys := by
    unfold serializeEntries
    rw [List.map_map]
    rfl
  obtain ⟨rest, hfile, -, hrest⟩ := @writeIndexWith_wraps 3 512 (serializeEntries posts.toList)
    (by rw [hser]; exact posts.keys_nodup) (by rw [serializeEntries, List.length_map, h]) (by
      intro e he
      obtain ⟨p, -, rfl⟩ := List.mem_map.mp he
      exact Roaring.length_serialize_lt p.2)
  refine ⟨_, _, hfile, settles_open_noKeys (by decide) (by decide) ?_, rfl⟩
  rw [List.length_append, Corpus.length_rrsHeader]
  unfold u64Bound headerSize
  simp only [if_true]
  omega

/-- The key after the others wraps the count of the monolith's header, and it finds nothing; each split still has
fewer keys. -/
theorem dense_searchesTo {n : Nat} (hlast : n + 1 = 2 ^ 32) (hn : n < 2 ^ 32) :
    SearchesTo (tieredDense n hn) (denseCalls n) "abc" 1 [] [0] := by
  have hone := length_distinctKeys_dense (n := n) (by omega)
  have hboth := length_distinctKeys_both (n := n) (by omega)
  have htwo : (distinctKeys [nextDoc n]).length = 1 := rfl
  have hgram : (tieredDense n hn).gramSize < 2 ^ 16 := show 3 < 2 ^ 16 by decide
  have hstride : (tieredDense n hn).stride < 2 ^ 32 := show 512 < 2 ^ 32 by decide
  obtain ⟨s, t, manifest, hcut, hs, ht, hend, hmanifest, hlen⟩ := @finish_of_two _ _ (tieredDense n hn)
    plainContainers_portable hgram hstride rfl rfl rfl (denseDoc n) (nextDoc n) (by omega) (by omega)
    ⟨rfl, rfl⟩ (List.cons_ne_nil _ _) rfl rfl (nextDoc_le_denseCap (by omega) (by omega))
  have hcalls : BuildRun.calls ⟨tieredDense n hn, [], []⟩ (denseCalls n) =
      ([], BuildRun.holding (tieredDense n hn) [s] [nextDoc n] 0) := by
    refine @BuildRun.calls_of_cut _ _ (tieredDense n hn) [] [] 0 _ ?_ (Nat.zero_le _) ([s], [nextDoc n]) hcut
    intro hmem
    rcases List.mem_cons.mp hmem with h | h
    · cases h
    · cases List.mem_singleton.mp h
  have hfin : (BuildRun.holding (tieredDense n hn) [s] [nextDoc n] 0).builder.finish =
      .ok ⟨manifest, [s.file, t.file], s.sidecar ++ (t.sidecar ++ [])⟩ := by
    show ((tieredDense n hn).holding [s] [nextDoc n] 0).finish = _
    rw [SplitSetBuilder.finish_holding (Nat.zero_le _), hend]
    show ((tieredDense n hn).holding [s, t] [] 0).manifest.map _ = _
    rw [hmanifest]
    rfl
  obtain ⟨cut, st, hcut', hend', hinto⟩ := @exists_cutInto _ _ (tieredConfig (denseCap n) (denseCap_fits hn)) 0 false _ _ _
    hcalls hfin
  rw [documents_denseCalls] at hcut' hinto
  obtain rfl := Except.ok.inj (hcut.symm.trans hcut')
  obtain rfl := Except.ok.inj (hend.symm.trans hend')
  have hparts : ∀ part ∈ [s, t], (distinctKeys part.docs).length < 2 ^ 32 := by
    intro part hpart
    rcases List.mem_cons.mp hpart with rfl | hpart
    · rw [hs]
      omega
    · rw [List.mem_singleton.mp hpart, ht]
      omega
  have hfew : [denseDoc n, nextDoc n].length ≤ u32Bound := show 2 ≤ u32Bound by decide
  have hnot : [denseDoc n, nextDoc n].length ≠ u32Bound := show 2 ≠ u32Bound by decide
  have hem := hinto.emitted hfew fun h => absurd h hnot
  obtain ⟨set, hset, hof⟩ := hinto.exists_set hfew (fun h => absurd h hnot) hparts hlen
  obtain ⟨monolith, ix, hmono, hopen, hnone⟩ := @exists_emptied (postsAndUpper [denseDoc n, nextDoc n]).1 (by
    rw [length_postsAndUpper, hboth, hlast])
  refine ⟨_, _, set, monolith, ix, hcalls, hfin, hset, ?_, hopen, settles_search_noKeys hnone _ _, ?_⟩
  · rw [documents_denseCalls]
    exact hmono
  · have hsearch := hinto.settles_search hof rfl hfew (fun h => absurd h hnot) hparts (SplitFetcher.serves_ofFiles hem.names)
      (fun name hname => by cases hname) "abc" 1
    have hg : set.gramSize = 3 := hof.gramSize
    have hc : set.caseFold = true := hof.caseFold
    rw [hg, hc, abcKeys, hasKeys_dense (show 6382179 < n by omega) hn] at hsearch
    exact hsearch

/-- **What wraps is lost**: the documents of a split whose counter returns to zero, and the keys of an index whose count
does. -/
theorem search_loses : SearchesTo tieredTight (keylessCalls (2 ^ 32 - 1)) "abc" 1 [0] [] ∧
    SearchesTo (tieredDense (2 ^ 32 - 1) (by decide)) (denseCalls (2 ^ 32 - 1)) "abc" 1 [] [0] :=
  ⟨keyless_searchesTo (by decide), dense_searchesTo (by decide) (by decide)⟩

end

end RoaringRange
