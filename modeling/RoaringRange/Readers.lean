import RoaringRange.Lib.Alike
import RoaringRange.SplitSearch

/-!
# The readers move on

Every reader of the search path is made of reads, whatever the files hold: it leaves a rest of the schedule it was given.
A split set is therefore searched alike however its splits are opened, if each is opened alike:

    boot bytes that open every split as its file does leave the search as it is        (SplitSet.alike_search)
-/

namespace RoaringRange

open ByteString Faults Slices

/-! ## Reads -/

theorem onward_read (f : MemoryFetch) (offset len : Nat) : Onward (f.read offset len) := Onward.access _

/-- The plan is made before the first read, and the spans are cut after the last. -/
theorem onward_readCoalesced (f : MemoryFetch) (ranges : List (Nat × Nat)) (gap : Nat) :
    Onward (readCoalesced f ranges gap) := by
  unfold readCoalesced
  refine (Onward.ofOutcome _).bind fun plan => ?_
  have hwave : ∀ spans : List (Nat × Nat), Onward (tryAll (spans.map fun sp => f.read sp.1 (sp.2 - sp.1))) :=
    fun spans => Onward.tryAll_map fun sp => onward_read f _ _
  exact (hwave plan.spans).bind fun _ => Onward.ofOutcome _

/-! ## Postings -/

section

variable [Roaring] (f : MemoryFetch)

theorem onward_fetchContainers (off : Nat) (needed : List Container) : Onward (fetchContainers f off needed) := by
  unfold fetchContainers
  split
  · exact Onward.pure _
  · exact (Onward.tryAll_map fun sp => onward_read f _ _).bind fun _ => Onward.ofOutcome _

theorem onward_readPosting (off len : Nat) : Onward (readPosting f off len) :=
  (onward_read f off len).bind fun _ => Onward.ofOutcome _

/-- A directory that the prefix does not reach is read again, and a posting without one whole. -/
theorem onward_readPostingSubset (off len : Nat) (keys : List Nat) : Onward (readPostingSubset f off len keys) := by
  refine (onward_read f off (min len headerPrefix)).bind fun pre => ?_
  split
  · exact Onward.ofOutcome _
  · split
    · exact onward_readPosting f off len
    · -- the header, read again where the prefix was too short
      split
      · refine (Onward.pure pre).bind fun header => ?_
        beta_reduce
        split
        · exact onward_readPosting f off len
        · exact onward_fetchContainers f off _
      · refine (onward_read f off _).bind fun header => ?_
        beta_reduce
        split
        · exact onward_readPosting f off len
        · exact onward_fetchContainers f off _

theorem onward_fetchHeadPrefix (off len eagerBuckets : Nat) : Onward (fetchHeadPrefix f off len eagerBuckets) :=
  (onward_readPostingSubset f off len _).bind fun _ => Onward.pure _

/-- By induction on the postings: the loop leaves off where the running set is empty. -/
theorem onward_intersectRest (running : Bitmap) (ts : List (Nat × Nat)) : Onward (intersectRest f running ts) := by
  induction ts generalizing running with
  | nil => exact Onward.pure running
  | cons t ts ih =>
    unfold intersectRest
    split
    · exact Onward.pure running
    · exact (onward_readPostingSubset f t.1 t.2 _).bind fun sub => ih _

theorem onward_tailIntersectAnd (tails : List (Nat × Nat)) : Onward (tailIntersectAnd f tails) := by
  unfold tailIntersectAnd
  split
  · exact Onward.pure _
  · exact (onward_readPosting f _ _).bind fun running => onward_intersectRest f running _

/-! ## The tail scan -/

omit [Roaring] in
/-- Two waves, the second for the directories that the first read too little of. -/
theorem onward_openTailDirs (tails : List (Nat × Nat)) : Onward (openTailDirs f tails) := by
  unfold openTailDirs
  have hfirst : Onward (tryAll (tails.map fun t => f.read t.1 (min t.2 headerPrefix))) :=
    Onward.tryAll_map fun t => onward_read f _ _
  refine hfirst.bind fun headers => ?_
  split
  · exact Onward.pure _
  · have hagain : ∀ refetch : List ((Nat × Nat) × Bytes × Nat), Onward (tryAll (refetch.map fun x => f.read x.1.1 x.2.2)) :=
      fun refetch => Onward.tryAll_map fun x => onward_read f _ _
    exact (hagain _).bind fun _ => Onward.pure _

theorem onward_readDirSubset (d : TailDir) (keys : List Nat) : Onward (readDirSubset f d keys) :=
  onward_fetchContainers f d.off _

theorem onward_intersectWave (dirs : List TailDir) (keys : List Nat) (seed : List Bitmap) :
    Onward (intersectWave f dirs keys seed) := by
  have hwave : Onward (joinAll (dirs.map fun d => readDirSubset f d keys)) := by
    refine Onward.joinAll fun x hx => ?_
    obtain ⟨d, -, rfl⟩ := List.mem_map.mp hx
    exact onward_readDirSubset f d keys
  refine (hwave.bind fun rs => Onward.ofOutcome _).bind fun bms => ?_
  cases bms with
  | none => exact Onward.pure _
  | some bms => exact Onward.pure _

theorem onward_intersectKeyWindow (dirs : List TailDir) (window : List Nat) :
    Onward (intersectKeyWindow f dirs window) := by
  unfold intersectKeyWindow
  split
  · exact Onward.pure _
  · simp only
    split
    · refine (onward_readDirSubset f _ window).bind fun acc => ?_
      split
      · exact Onward.pure _
      · exact onward_intersectWave f _ _ _
    · exact onward_intersectWave f dirs window []

theorem onward_orWindow (cats : List TailDir) (window : List Nat) : Onward (orWindow f cats window) :=
  (Onward.tryAll_map fun cat => onward_readDirSubset f cat window).bind fun _ => Onward.pure _

theorem onward_andFields (window : List Nat) (bm : Bitmap) (fields : List (List TailDir)) :
    Onward (andFields f window bm fields) := by
  induction fields generalizing bm with
  | nil => exact Onward.pure bm
  | cons field fields ih =>
    unfold andFields
    split
    · exact Onward.pure bm
    · exact (onward_orWindow f field window).bind fun fieldBm => ih _

/-- A window of the scan: the postings, then the facets that include, then those that exclude. -/
theorem onward_nextWindow (sc : TailScan) (ff : Option MemoryFetch) (batch : Nat) : Onward (sc.nextWindow f ff batch) := by
  unfold TailScan.nextWindow
  split
  · exact Onward.pure _
  · refine (onward_intersectKeyWindow f _ _).bind fun bm => ?_
    have hfacets : ∀ window, Onward (andFacets ff window bm sc.facets) := by
      intro window
      unfold andFacets
      split
      · exact Onward.pure _
      · exact (Onward.ofOutcome _).bind fun g => onward_andFields g window bm _
    refine (hfacets _).bind fun bm => ?_
    have hexcludes : ∀ window, Onward (dropExcluded ff window bm sc.excludes) := by
      intro window
      unfold dropExcluded
      split
      · exact Onward.pure _
      · exact (Onward.ofOutcome _).bind fun g => (onward_orWindow g _ window).bind fun _ => Onward.pure _
    exact (hexcludes _).bind fun _ => Onward.pure _

omit [Roaring] in
theorem onward_openFields (ff : Option MemoryFetch) (fields : List (List (Nat × Nat))) : Onward (openFields ff fields) := by
  induction fields with
  | nil => exact Onward.pure _
  | cons field fields ih =>
    refine (Onward.ofOutcome _).bind fun g => (onward_openTailDirs g field).bind fun dirs => ?_
    cases dirs with
    | none => exact Onward.pure _
    | some d => exact ih.bind fun _ => Onward.pure _

omit [Roaring] in
theorem onward_openExcludes (ff : Option MemoryFetch) (ranges : List (Nat × Nat)) : Onward (openExcludes ff ranges) := by
  unfold openExcludes
  split
  · exact Onward.pure _
  · exact (Onward.ofOutcome _).bind fun g => onward_openTailDirs g ranges

omit [Roaring] in
/-- A scan that cannot seek in some posting is given up with the reads that told so. -/
theorem onward_openScan (tails : List (Nat × Nat)) (ff : Option MemoryFetch) (facetFields : List (List (Nat × Nat)))
    (excludeRanges : List (Nat × Nat)) (minKey : Nat) :
    Onward (TailScan.open f tails ff facetFields excludeRanges minKey) := by
  refine (onward_openTailDirs f tails).bind fun trigrams => ?_
  cases trigrams with
  | none => exact Onward.pure _
  | some trigrams =>
    refine (onward_openFields ff facetFields).bind fun facets => ?_
    cases facets with
    | none => exact Onward.pure _
    | some facets =>
      refine (onward_openExcludes ff excludeRanges).bind fun excludes => ?_
      cases excludes with
      | none => exact Onward.pure _
      | some excludes => exact Onward.pure _

end

/-! ## Indexes -/

theorem onward_openSparse (f : MemoryFetch) (header : Bytes) (headerSize : Nat) (caseFold : Bool) :
    Onward (openSparse f header headerSize caseFold) := by
  unfold openSparse
  exact (Onward.ofOutcome _).bind fun layout => (onward_read f _ _).bind fun _ => Onward.pure _

/-- The header says how many bytes of flags are read after it. -/
theorem onward_openIndex (f : MemoryFetch) : Onward (Index.open f) := by
  unfold Index.open
  refine (onward_read f _ _).bind fun header => ?_
  split
  · exact Onward.ofOutcome _
  split
  · exact Onward.ofOutcome _
  split
  · exact onward_openSparse f header _ _
  split
  · exact (onward_read f _ _).bind fun flags => onward_openSparse f header _ _
  · exact Onward.ofOutcome _

theorem onward_parsePresent (ix : Index) (present : List (Key × DictBlock)) : Onward (ix.parsePresent present) := by
  have hblocks : ∀ blocks, Onward (ix.readDictBlocks blocks) := by
    intro blocks
    have hwave : ∀ unique : List DictBlock,
        Onward (tryAll (unique.map fun blk => ix.fetch.read blk.byteOff (blk.entries * dictEntry))) :=
      fun unique => Onward.tryAll_map fun blk => onward_read ix.fetch _ _
    exact (hwave _).bind fun _ => Onward.pure _
  exact (hblocks _).bind fun _ => Onward.pure _

section

variable [Roaring]

/-- By induction on the fuel, a window at a time. -/
theorem onward_searchTail (f : MemoryFetch) (limit fuel : Nat) (scan : TailScan) (out : List Nat) :
    Onward (Index.searchTail f limit fuel scan out) := by
  induction fuel generalizing scan out with
  | zero => exact Onward.pure out
  | succ fuel ih =>
    unfold Index.searchTail
    split
    · exact (onward_nextWindow f scan none _).bind fun win => ih _ _
    · exact Onward.pure out

/-- Heads first; the tail only where these leave the page short, by windows or whole. -/
theorem onward_searchRecs (ix : Index) (recs : List DictRec) (limit : Nat) : Onward (ix.searchRecs recs limit) := by
  have hheads : Onward (ix.fetchHeadPrefixes recs) := Onward.tryAll_map fun r => onward_fetchHeadPrefix ix.fetch _ _ _
  unfold Index.searchRecs
  refine hheads.bind fun heads => ?_
  simp only
  split
  · exact Onward.pure _
  · refine (onward_openScan ix.fetch _ none [] [] _).bind fun scan => ?_
    cases scan with
    | none => exact (onward_tailIntersectAnd ix.fetch _).bind fun _ => Onward.pure _
    | some scan => exact onward_searchTail ix.fetch limit _ scan _

variable [Unicode] [TokenFilters]

omit [TokenFilters] in
/-- **The search of an index moves on**, whatever its file holds. -/
theorem onward_searchIndex (ix : Index) (query : String) (limit : Nat) : Onward (ix.search query limit) := by
  unfold Index.search
  simp only
  split
  · exact Onward.pure _
  split
  · exact Onward.pure _
  · refine (onward_parsePresent ix _).bind fun recs => ?_
    split
    · exact Onward.pure _
    · exact onward_searchRecs ix _ limit

/-! ## Term indexes -/

omit [Roaring] [Unicode] [TokenFilters] in
theorem onward_openTerms [Fst] (f : MemoryFetch) : Onward (TermIndex.open f) :=
  (onward_read f _ _).bind fun _ => (Onward.ofOutcome _).bind fun _ => (onward_read f _ _).bind fun _ =>
    Onward.ofOutcome _

omit [Roaring] [Unicode] [TokenFilters] in
theorem onward_resolveLocs (ix : TermIndex) (terms : List String) (lenient : Bool) :
    Onward (ix.resolveLocs terms lenient) := by
  unfold TermIndex.resolveLocs
  split
  · exact Onward.pure _
  · have hwave : ∀ unique : List (Nat × Nat), Onward (tryAll (unique.map fun r => ix.fetch.read r.1 r.2)) :=
      fun unique => Onward.tryAll_map fun r => onward_read ix.fetch _ _
    exact (hwave _).bind fun _ => Onward.pure _

omit [Unicode] [TokenFilters] in
theorem onward_headBlock (ix : TermIndex) (loc : Nat × Nat) : Onward (ix.headBlock loc) := by
  unfold TermIndex.headBlock
  simp only
  split
  · exact Onward.ofOutcome _
  split
  · exact Onward.ofOutcome _
  refine (onward_read ix.fetch _ _).bind fun block => ?_
  split
  · exact Onward.ofOutcome _
  refine (Onward.ofOutcome _).bind fun head => ?_
  split
  · exact Onward.ofOutcome _
  · exact Onward.pure _

omit [Unicode] [TokenFilters] in
theorem onward_andLocs (ix : TermIndex) (locs : List (Nat × Nat)) (limit : Nat) : Onward (ix.andLocs locs limit) := by
  have htail : ∀ b : HeadBlock, Onward (ix.tail b.tailOff b.tailSize) := by
    intro b
    unfold TermIndex.tail
    split
    · exact Onward.pure _
    · exact (onward_read ix.fetch _ _).bind fun _ => Onward.ofOutcome _
  unfold TermIndex.andLocs
  split
  · exact Onward.pure _
  refine (Onward.tryAll_map (onward_headBlock ix)).bind fun blocks => ?_
  simp only
  split
  · exact Onward.pure _
  · exact (Onward.tryAll_map htail).bind fun _ => Onward.pure _

/-- **The search of a term index moves on**, whatever its file holds. -/
theorem onward_searchTerms (ix : TermIndex) (query : String) (limit : Nat) : Onward (ix.search query limit) := by
  unfold TermIndex.search
  split
  · exact Onward.pure _
  simp only
  split
  · exact Onward.pure _
  refine (onward_resolveLocs ix _ false).bind fun locs => ?_
  cases locs with
  | none => exact Onward.pure _
  | some locs => exact onward_andLocs ix locs limit

/-- The search of an opened split. -/
theorem onward_searchBody (body : SplitBody) (query : String) (limit : Nat) : Onward (body.search query limit) := by
  cases body with
  | trigram ix => exact onward_searchIndex ix query limit
  | term ix => exact onward_searchTerms ix query limit

end

/-- A split opened, cold or from boot bytes. -/
theorem onward_openSplit [Fst] (resolver : SplitFetcher) (split : Split) (kind : BodyKind) :
    Onward (openSplit resolver split kind) := by
  unfold openSplit
  cases kind with
  | term =>
    simp only
    split
    · exact Onward.ofOutcome _
    · exact (onward_openTerms _).map _
  | trigram =>
    simp only
    split
    · exact Onward.ofOutcome _
    · exact (onward_openIndex _).map _

/-! ## The global filter and the sort columns -/

/-- A probe that fails is an answer, so the search goes on behind its last read. -/
theorem onward_globalBloom (resolver : SplitFetcher) (keys : List Key) : Onward (globalBloomSaysPresent resolver keys) := by
  unfold globalBloomSaysPresent
  split
  · exact Onward.pure _
  split
  · exact Onward.pure _
  · next name hname =>
    have hopen : Onward (RemoteBloom.open (resolver.fetchNamed name)) := by
      unfold RemoteBloom.open
      refine (onward_read _ _ _).bind fun h => ?_
      simp only
      split
      · exact Onward.ofOutcome _
      · exact Onward.pure _
    refine hopen.observe.bind fun opened => ?_
    cases opened with
    | error e => exact Onward.pure _
    | ok bloom =>
      have hcontains : Onward (bloom.containsAll keys) :=
        (onward_readCoalesced bloom.fetch _ 0).bind fun _ => Onward.pure _
      exact hcontains.observe.bind fun answer => Onward.pure _

theorem onward_openSortCols (f : MemoryFetch) : Onward (SortCols.open f) := by
  unfold SortCols.open
  refine (onward_read f _ _).bind fun header => ?_
  split
  · exact Onward.ofOutcome _
  split
  · exact Onward.ofOutcome _
  split
  · exact Onward.ofOutcome _
  refine (onward_read f _ _).bind fun buf => ?_
  split
  · exact Onward.ofOutcome _
  · exact (Onward.ofOutcome _).bind fun columns => Onward.pure _

/-- The values are gathered in one wave and ranked without a read. -/
theorem onward_topk (sc : SortCols) (col : Nat) (candidates : List Nat) (k : Nat) (descending : Bool) :
    Onward (sc.topk col candidates k descending) := by
  have hvalues : Onward (sc.values col candidates) := by
    unfold SortCols.values
    split
    · exact Onward.ofOutcome _
    split
    · exact Onward.pure _
    simp only
    split
    · exact Onward.ofOutcome _
    · next info _ _ _ =>
      have hwave : ∀ spans : List (Nat × Nat), Onward (tryAll (spans.map fun sp =>
          sc.fetch.read (saturatingAdd info.dataOff sp.1) (sp.2 - sp.1))) :=
        fun spans => Onward.tryAll_map fun sp => onward_read sc.fetch _ _
      exact (hwave _).bind fun _ => Onward.ofOutcome _
  exact hvalues.bind fun _ => Onward.pure _

/-! ## Searching with other boot bytes -/

/-- The same files, with the boot bytes that `boot` has resident. -/
def SplitFetcher.withBoots (resolver : SplitFetcher) (boot : Split → Option Bytes) : SplitFetcher :=
  { resolver with boot := boot }

section

variable {search search' : Split → Io (List Nat)} {limit : Nat}

/-- The waves are left off at the same one, as both find the same hits before it. -/
theorem alike_descend {waves : List (List Split)} (h : ∀ wave ∈ waves, ∀ split ∈ wave, Alike (search split) (search' split))
    (out : List Nat) : Alike (descend search limit waves out) (descend search' limit waves out) := by
  induction waves generalizing out with
  | nil => exact (Onward.pure out).alike
  | cons wave waves ih =>
    unfold descend
    split
    · exact (Onward.pure out).alike
    · refine (Alike.tryAll_map (h wave List.mem_cons_self)).bind fun hits => ?_
      exact ih (fun w hw => h w (List.mem_cons_of_mem _ hw)) _

theorem alike_searchTiers {resolver : SplitFetcher} {boot : Split → Option Bytes} {keys : List Key} {splits : List Split}
    (h : ∀ split, Alike (search split) (search' split)) :
    Alike (searchTiers resolver keys search limit splits)
      (searchTiers (resolver.withBoots boot) keys search' limit splits) := by
  unfold searchTiers
  cases splits with
  | nil => exact (Onward.pure _).alike
  | cons top tail =>
    refine (h top).bind fun out => ?_
    split
    · exact (Onward.pure _).alike
    · have hworth : Alike (worthDescending resolver keys out) (worthDescending (resolver.withBoots boot) keys out) := by
        have hsame : worthDescending (resolver.withBoots boot) keys out = worthDescending resolver keys out := rfl
        rw [hsame]
        apply Onward.alike
        unfold worthDescending
        split
        · exact onward_globalBloom resolver keys
        · exact Onward.pure _
      refine hworth.bind fun present => ?_
      cases present with
      | false => exact (Onward.pure _).alike
      | true => exact (alike_descend (fun _ _ split _ => h split) out).bind fun _ => (Onward.pure _).alike

end

namespace SplitSet

variable [Roaring] [Unicode] [TokenFilters] [Fst] {set : SplitSet} {resolver : SplitFetcher} {boot : Split → Option Bytes}

omit [Roaring] [Unicode] [TokenFilters] [Fst] in
theorem onward_rankStableKey (candidates : List Nat) (limit : Nat) : Onward (set.rankStableKey resolver candidates limit) := by
  unfold rankStableKey
  split
  · exact (onward_openSortCols _).bind fun sc => onward_topk sc _ _ _ _
  · exact Onward.pure _

/-- **Boot bytes that open every split alike** leave the search as it is. -/
theorem alike_search (h : ∀ split, Alike (openSplit resolver split set.bodyKind)
      (openSplit (resolver.withBoots boot) split set.bodyKind)) (query : String) (limit : Nat) :
    Alike (set.search resolver query limit) (set.search (resolver.withBoots boot) query limit) := by
  have hsplit : ∀ limit split, Alike (set.searchSplit resolver query limit split)
      (set.searchSplit (resolver.withBoots boot) query limit split) := by
    intro limit split
    exact (h split).bind fun body => ((onward_searchBody body query limit).bind fun _ => Onward.pure _).alike
  have hall : ∀ splits keys, Alike (set.searchAll resolver splits query keys)
      (set.searchAll (resolver.withBoots boot) splits query keys) := by
    intro splits keys
    exact (Alike.tryAll_map fun split _ => hsplit usizeMax split).bind fun _ => (Onward.pure _).alike
  unfold SplitSet.search
  split
  · exact (Onward.pure _).alike
  simp only
  split
  · split
    · refine alike_searchTiers fun split => ?_
      unfold searchUnpruned
      split
      · exact (Onward.pure _).alike
      · exact hsplit limit split
    · exact (hall _ _).bind fun candidates => (onward_rankStableKey candidates limit).alike
  · refine (hall _ _).bind fun base => (hall _ _).bind fun delta => ?_
    refine Onward.alike ((Onward.ofOutcome _).bind fun dead => ?_)
    have hbase : ∀ base, Onward (set.rankBase resolver base) := by
      intro base
      unfold rankBase
      split
      · exact Onward.pure _
      · exact onward_rankStableKey base _
    exact (hbase _).bind fun _ => Onward.pure _

end SplitSet

end RoaringRange
