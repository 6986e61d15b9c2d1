import RoaringRange.BloomPrune
import RoaringRange.SortCols
import RoaringRange.Terms

/-!
# Search over a split set (`splitset.rs`)

Without delta splits, a tiered set is searched in the order of its splits: the first alone, the others in waves, until
the page is full.  A stable-key set is searched whole, and its hits are ranked by a sort column.  With delta splits all
is searched; tombstoned docs are dropped, the base's hits are ranked, and those of the deltas come after them.

    the descent lists the first hits of all splits in their order              (settles_searchTiers)
    a split that serves its postings is searched as they say             (settles_searchUnpruned)
-/

namespace RoaringRange

open ByteString Faults Slices Tiles

def descentWave : Nat := 8

inductive SplitBody where
  | trigram (ix : Index)
  | term (ix : TermIndex)

section

variable [Roaring] [Unicode] [TokenFilters]

def SplitBody.search (body : SplitBody) (query : String) (limit : Nat) : Io (List Nat) :=
  match body with
  | .trigram ix => ix.search query limit
  | .term ix => ix.search query limit

end

/-- `splitset::open_split`, with the `terms` feature. -/
def openSplit [Fst] (resolver : SplitFetcher) (split : Split) (bodyKind : BodyKind) : Io SplitBody :=
  let fetch := resolver.fetchNamed split.dataFile
  match bodyKind with
  | .term =>
    match resolver.boot split with
    | some boot => ofOutcome (SplitBody.term <$> TermIndex.fromBoot boot fetch)
    | none => SplitBody.term <$> TermIndex.open fetch
  | .trigram =>
    match resolver.boot split with
    | some boot => ofOutcome (SplitBody.trigram <$> Index.fromBoot boot fetch)
    | none => SplitBody.trigram <$> Index.open fetch

/-- `SplitSet::global_bloom_says_present`: anything but a definite absence is a yes. -/
def globalBloomSaysPresent (resolver : SplitFetcher) (keys : List Key) : Io Bool :=
  if keys.isEmpty then pure true
  else
    match resolver.globalBloomName with
    | none => pure true
    | some name => do
      let opened ← observe (RemoteBloom.open (resolver.fetchNamed name))
      match opened with
      | .error _ => pure true
      | .ok bloom => do
        let answer ← observe (bloom.containsAll keys)
        pure (answer.toOption.getD true)

/-- Whether to descend: the global filter is probed only where the top tier has no hit. -/
def worthDescending (resolver : SplitFetcher) (keys : List Key) (out : List Nat) : Io Bool :=
  if out.isEmpty then globalBloomSaysPresent resolver keys else pure true

/-- The loop over the waves of the tail tiers. -/
def descend (search : Split → Io (List Nat)) (limit : Nat) : List (List Split) → List Nat → Io (List Nat)
  | [], out => pure out
  | wave :: waves, out =>
    if limit ≤ out.length then pure out
    else do
      let hits ← tryAll (wave.map search)
      descend search limit waves (out ++ hits.flatten)

/-- The body of `SplitSet::search_tiered`, and of the tiered part of `SplitSet::search_filtered`, over the search of
one split. -/
def searchTiers (resolver : SplitFetcher) (keys : List Key) (search : Split → Io (List Nat)) (limit : Nat) :
    List Split → Io (List Nat)
  | [] => pure []
  | top :: tail => do
    let out ← search top
    if limit ≤ out.length then pure (out.take limit)
    else do
      let present ← worthDescending resolver keys out
      if present then do
        let out ← descend search limit (chunksOf descentWave tail.length tail) out
        pure (out.take limit)
      else pure out

namespace SplitSet

section

variable [Roaring]

/-- The docs that a tombstone of some split masks. -/
def dead (set : SplitSet) : Except IndexError Bitmap := do
  let tombstones ← collect (set.splits.map set.tombstone)
  pure (AscSet.unions (tombstones.filterMap id))

def rankStableKey (set : SplitSet) (resolver : SplitFetcher) (candidates : List Nat) (limit : Nat) : Io (List Nat) :=
  match set.sortcol with
  | some desc => do
    let sc ← SortCols.open (resolver.fetchNamed desc.name)
    sc.topk desc.column candidates limit desc.descending
  | none => pure ((sortByKey id candidates).take limit)

/-- The base's survivors in the order of the policy. -/
def rankBase (set : SplitSet) (resolver : SplitFetcher) (base : List Nat) : Io (List Nat) :=
  match set.policy with
  | .tiered => pure (sortByKey id base)
  | .stableKey => set.rankStableKey resolver base base.length

def mergeSupersedeRank (set : SplitSet) (resolver : SplitFetcher) (base delta : List Nat) (limit : Nat) :
    Io (List Nat) := do
  let dead ← ofOutcome set.dead
  let ranked ← set.rankBase resolver (base.filter fun id => id ∉ dead)
  pure ((ranked ++ sortByKey id (delta.filter fun id => id ∉ dead)).take limit)

variable [Unicode] [TokenFilters] [Fst]

/-- A split opened and searched, its hits in the global id space. -/
def searchSplit (set : SplitSet) (resolver : SplitFetcher) (query : String) (limit : Nat) (split : Split) :
    Io (List Nat) := do
  let body ← openSplit resolver split set.bodyKind
  let hits ← body.search query limit
  pure (hits.map split.toGlobal)

/-- The same for a split that its filter may turn away. -/
def searchUnpruned (set : SplitSet) (resolver : SplitFetcher) (query : String) (keys : List Key) (limit : Nat)
    (split : Split) : Io (List Nat) :=
  if set.prunedByBloom split keys then pure [] else set.searchSplit resolver query limit split

def searchTiered (set : SplitSet) (resolver : SplitFetcher) (query : String) (keys : List Key) (limit : Nat) :
    Io (List Nat) :=
  searchTiers resolver keys (set.searchUnpruned resolver query keys limit) limit set.baseSplits

def searchAll (set : SplitSet) (resolver : SplitFetcher) (splits : List Split) (query : String) (keys : List Key) :
    Io (List Nat) := do
  let hits ← tryAll ((splits.filter fun split => !set.prunedByBloom split keys).map
    (set.searchSplit resolver query usizeMax))
  pure hits.flatten

def searchStableKey (set : SplitSet) (resolver : SplitFetcher) (query : String) (keys : List Key) (limit : Nat) :
    Io (List Nat) := do
  let candidates ← set.searchAll resolver set.baseSplits query keys
  set.rankStableKey resolver candidates limit

def searchWithDelta (set : SplitSet) (resolver : SplitFetcher) (query : String) (keys : List Key) (limit : Nat) :
    Io (List Nat) := do
  let base ← set.searchAll resolver set.baseSplits query keys
  let delta ← set.searchAll resolver set.deltaSplits query keys
  set.mergeSupersedeRank resolver base delta limit

def search (set : SplitSet) (resolver : SplitFetcher) (query : String) (limit : Nat) : Io (List Nat) :=
  if limit = 0 then pure []
  else
    let keys := ngramKeysWith query set.gramSize set.caseFold
    if set.deltaSplits.isEmpty then
      match set.policy with
      | .tiered => set.searchTiered resolver query keys limit
      | .stableKey => set.searchStableKey resolver query keys limit
    else set.searchWithDelta resolver query keys limit

end

end SplitSet

/-! ## The global filter -/

/-- The global filter, if there is one that can be read, is over all the indexed keys. -/
def SplitFetcher.BloomOver (resolver : SplitFetcher) (indexed : Key → Prop) : Prop :=
  ∀ name, resolver.globalBloomName = some name → resolver.fetchNamed name = .absent ∨
    ∃ ks bitsPerKey, resolver.fetchNamed name = .new (bloomBuild ks bitsPerKey) ∧ ∀ k, indexed k → k ∈ ks

theorem settles_openRemote_absent : Settles (RemoteBloom.open .absent) (.error (.fetch .notFound)) := by
  unfold RemoteBloom.open MemoryFetch.read
  rw [MemoryFetch.answer_of_missing rfl]
  exact (Settles.access _).bind_error

/-- **The probe never turns away a query whose keys are all indexed**, whether its reads fail or not. -/
theorem answers_globalBloom {resolver : SplitFetcher} {indexed : Key → Prop} (h : resolver.BloomOver indexed)
    (keys : List Key) :
    Answers (fun present => present = false → ∃ k ∈ keys, ¬ indexed k) (globalBloomSaysPresent resolver keys) := by
  have hyes : Answers (fun present => present = false → ∃ k ∈ keys, ¬ indexed k) (pure true : Io Bool) :=
    Answers.pure fun h => Bool.noConfusion h
  unfold globalBloomSaysPresent
  split
  · exact hyes
  · split
    · exact hyes
    · next name hname =>
      rcases h name hname with habsent | ⟨ks, bitsPerKey, hfile, hks⟩
      · rw [habsent]
        refine settles_openRemote_absent.observe.bind fun o ho => ?_
        rcases ho with rfl | ⟨e, rfl⟩
        · exact hyes
        · exact hyes
      · rw [hfile]
        refine (settles_openBuilt ks bitsPerKey).observe.bind fun o ho => ?_
        by_cases hz : bloomBits ks.length bitsPerKey = 0
        · rw [if_pos hz] at ho
          rcases ho with rfl | ⟨e, rfl⟩
          · exact hyes
          · exact hyes
        rw [if_neg hz] at ho
        rcases ho with rfl | ⟨e, rfl⟩
        · refine (settles_containsAll hz keys).observe.bind fun o ho => ?_
          refine Answers.pure fun hno => ?_
          rcases ho with rfl | ⟨e, rfl⟩
          · have hall : keys.all (bloomContains (bloomBuild ks bitsPerKey)) = false := hno
            obtain ⟨k, hk, hnot⟩ := List.all_eq_false.mp hall
            refine ⟨k, hk, fun hin => hnot ?_⟩
            exact bloomContains_build (hks k hin)
          · cases hno
        · exact hyes

/-! ## The descent -/

section

variable {search : Split → Io (List Nat)} {limit : Nat}

/-- The waves add the hits of their splits until the page is full. -/
theorem settles_descend {waves : List (List Split)} {results : List (List (List Nat))}
    (h : List.Forall₂ (List.Forall₂ fun split hits => Settles (search split) (.ok hits)) waves results) (out : List Nat) :
    ∃ hits, Settles (descend search limit waves out) (.ok hits) ∧
      hits.take limit = (out ++ results.flatten.flatten).take limit := by
  induction h generalizing out with
  | nil => exact ⟨out, Settles.pure _, by rw [List.flatten_nil, List.flatten_nil, List.append_nil]⟩
  | @cons wave result waves results hwave _ ih =>
    unfold descend
    split
    · next hfull => exact ⟨out, Settles.pure _, (List.take_append_of_le_length hfull).symm⟩
    · obtain ⟨hits, hhits, htake⟩ := ih (out ++ result.flatten)
      refine ⟨hits, Settles.bind (a := result) ?_ hhits, ?_⟩
      · rw [← collect_ok]
        refine Settles.tryAll ?_
        rw [List.forall₂_map_left_iff, List.forall₂_map_right_iff]
        exact hwave
      · rw [htake, List.flatten_cons, List.flatten_append, List.append_assoc]

/-- **The descent lists the first hits** of all splits in their order, however they are cut into waves, if the probe
turns away only queries without hits. -/
theorem settles_searchTiers {resolver : SplitFetcher} {keys : List Key} {splits : List Split} {results : List (List Nat)}
    (h : List.Forall₂ (fun split hits => Settles (search split) (.ok hits)) splits results)
    (hprobe : Answers (fun present => present = false → ∀ hits ∈ results, hits = [])
      (globalBloomSaysPresent resolver keys)) :
    Settles (searchTiers resolver keys search limit splits) (.ok (results.flatten.take limit)) := by
  unfold searchTiers
  cases h with
  | nil =>
    rw [List.flatten_nil, List.take_nil]
    exact Settles.pure _
  | @cons top out tail results htop htail =>
    refine htop.bind ?_
    rw [List.flatten_cons]
    split
    · next hfull =>
      rw [List.take_append_of_le_length hfull]
      exact Settles.pure _
    · have hworth : Answers (fun present => present = false → ∀ hits ∈ out :: results, hits = [])
          (worthDescending resolver keys out) := by
        unfold worthDescending
        split
        · exact hprobe
        · exact Answers.pure fun h => Bool.noConfusion h
      refine hworth.settles_bind fun present hpresent => ?_
      cases present with
      | false =>
        have hnil := hpresent rfl
        have hout : out = [] := hnil out List.mem_cons_self
        have hrest : results.flatten = [] := List.flatten_eq_nil_iff.mpr fun hits hmem =>
          hnil hits (List.mem_cons_of_mem _ hmem)
        rw [hout, hrest, List.append_nil, List.take_nil]
        exact Settles.pure _
      | true =>
        obtain ⟨hits, hhits, htake⟩ := @settles_descend search limit _ _
          (forall₂_chunksOf htail descentWave tail.length) out
        rw [flatten_chunksOf (by decide) htail.length_eq.ge] at htake
        refine hhits.bind ?_
        rw [htake]
        exact Settles.pure _

end

/-! ## One split -/

/-- The docs that all the keys have (none for no key). -/
def PostMap.strictDocs (posts : PostMap) (keys : List Key) : Bitmap := AscSet.inters (keys.map posts.docs)

theorem PostMap.mem_strictDocs {posts : PostMap} {keys : List Key} {d : Nat} :
    d ∈ posts.strictDocs keys ↔ keys ≠ [] ∧ ∀ k ∈ keys, d ∈ posts.docs k := by
  unfold strictDocs
  by_cases hkeys : keys = []
  · rw [hkeys]
    exact iff_of_false (AscSet.not_mem_empty d) fun h => h.1 rfl
  · rw [AscSet.mem_inters (by simpa using hkeys), List.forall_mem_map]
    exact ⟨fun h => ⟨hkeys, h⟩, And.right⟩

/-- The file of a split, and its boot bytes if the resolver has them resident. -/
def SplitFetcher.ServesFile (resolver : SplitFetcher) (split : Split) (file : Bytes) : Prop :=
  resolver.fetchNamed split.dataFile = .new file ∧
    ∀ boot, resolver.boot split = some boot → ∃ n, rrsBootLen file = .ok n ∧ boot = slice file 0 n

section

variable [Roaring]

/-- A split whose index has these postings and the set's grams, and whose filter turns none of them away. -/
structure SplitServes [Fst] (set : SplitSet) (resolver : SplitFetcher) (split : Split) (posts : PostMap) : Prop where
  opens : ∃ ix : Index, Settles (openSplit resolver split .trigram) (.ok (.trigram ix)) ∧ ix.WellFormed ∧
    ix.gramSize = set.gramSize ∧ ix.caseFold = set.caseFold ∧ ∀ k, ix.postingOf k = posts.find? k
  pruning : NeverPruned set split posts

theorem exists_corpus {gramSize stride : Nat} (hg : gramSize < 2 ^ 16) (hs : stride < 2 ^ 32) {caseFold : Bool}
    {posts : PostMap} (hlen : posts.toList.length < 2 ^ 32) {file : Bytes}
    (hfile : writeIndexWith gramSize stride (serializeEntries posts.toList) caseFold = .ok file) :
    ∃ c : Corpus, c.bytes = file ∧ c.gramSize = gramSize ∧ c.caseFold = caseFold ∧ ∀ k, c.posting k = posts.find? k := by
  obtain ⟨c, rfl, hstride, rfl, hposts⟩ := Corpus.exists_perm hg hs caseFold posts.keys_nodup hlen
  have hbytes := c.writeIndexWith_eq hstride (hposts.map _)
  rw [show serializeEntries posts.toList = posts.toList.map fun e => (e.1, serializePosting e.2) from rfl, hbytes] at hfile
  refine ⟨c, Except.ok.inj hfile, rfl, rfl, fun k => ?_⟩
  rw [Corpus.posting, find?_eq_of_perm hposts.symm posts.keys_nodup, posts.find?_toList, Option.map_map]
  exact Option.map_id'

/-- It opens as their index, by reads or from its boot bytes. -/
theorem Corpus.settles_openSplit [Fst] (c : Corpus) {resolver : SplitFetcher} {split : Split}
    (hserves : resolver.ServesFile split c.bytes) :
    Settles (openSplit resolver split .trigram) (.ok (.trigram (c.index (MemoryFetch.new c.bytes)))) := by
  obtain ⟨hfetch, hboot⟩ := hserves
  unfold openSplit
  rw [hfetch]
  cases hb : resolver.boot split with
  | none => exact c.settles_open.bind (Settles.pure _)
  | some boot =>
    obtain ⟨n, hn, rfl⟩ := hboot boot hb
    have hhead : headerSize ≤ c.bytes.length := by
      have h1 := c.dictStart_le_length
      have h2 := c.headerLen_le.1
      unfold Corpus.dictStart at h1
      omega
    have hlen := c.rrsBootLen_eq hhead (Nat.le_refl _)
    rw [slice_zero_length, hn] at hlen
    obtain rfl := Except.ok.inj hlen
    simp only [c.fromBoot_eq]
    exact Settles.ofOutcome _

variable [Unicode] [TokenFilters] [Fst] {set : SplitSet} {resolver : SplitFetcher} {split : Split} {posts : PostMap}

/-- The search of a split whose filter is right lists the docs with all the keys, in the global id space. -/
theorem SplitServes.settles_searchSplit (h : SplitServes set resolver split posts) (hkind : set.bodyKind = .trigram)
    (query : String) (limit : Nat) : Settles (set.searchSplit resolver query limit split)
      (.ok (((posts.strictDocs (ngramKeysWith query set.gramSize set.caseFold)).toList.take limit).map split.toGlobal)) := by
  obtain ⟨ix, hopen, hwell, hgram, hcase, hpost⟩ := h.opens
  have hdocs : ix.strictDocs (ix.queryKeys query) = posts.strictDocs (ngramKeysWith query set.gramSize set.caseFold) := by
    refine AscSet.ext_mem fun d => ?_
    rw [mem_strictDocs_iff hpost, PostMap.mem_strictDocs, Index.queryKeys, hgram, hcase]
  unfold SplitSet.searchSplit
  rw [hkind]
  refine hopen.bind ?_
  have hsearch := Index.settles_search hwell query limit
  rw [hdocs] at hsearch
  exact hsearch.bind (Settles.pure _)

omit [Unicode] [TokenFilters] in
theorem SplitServes.strictDocs_of_pruned (h : SplitServes set resolver split posts) {keys : List Key}
    (hpruned : set.prunedByBloom split keys = true) : posts.strictDocs keys = ∅ := by
  rw [← AscSet.isEmpty_iff, AscSet.isEmpty_iff_forall]
  intro d hd
  have := h.pruning keys d (PostMap.mem_strictDocs.mp hd).2
  rw [hpruned] at this
  cases this

theorem SplitServes.settles_searchUnpruned (h : SplitServes set resolver split posts) (hkind : set.bodyKind = .trigram)
    (query : String) (limit : Nat) :
    Settles (set.searchUnpruned resolver query (ngramKeysWith query set.gramSize set.caseFold) limit split)
      (.ok (((posts.strictDocs (ngramKeysWith query set.gramSize set.caseFold)).toList.take limit).map split.toGlobal)) := by
  unfold SplitSet.searchUnpruned
  split
  · next hpruned =>
    rw [h.strictDocs_of_pruned hpruned, AscSet.toList_empty, List.take_nil, List.map_nil]
    exact Settles.pure _
  · exact h.settles_searchSplit hkind query limit

end

end RoaringRange
