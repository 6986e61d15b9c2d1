import RoaringRange.ShelfSearch

/-!
# What a writer's set finds (`splitset_write.rs`, `splitset.rs`)

In a session over a build every shelf's file is in the store as its split says, and every manifest opens as a set with
the terms of the first.  So the set finds the live hits of the session's shelves.
-/

namespace RoaringRange

open ByteString Faults Slices Runs Tiles

/-! ## The base -/

section

variable [Roaring] [Unicode] {config : SplitBuildConfig} {top : Nat} {v2 : Bool} {docs : List BuildDoc}
  {all : BuiltSplitSet} {st : List SealedSplit × List BuildDoc}

/-- The places of documents in the first splits of a build, as the splits number them, are their places among all of these. -/
theorem CutInto.places_prefix (h : CutInto (SplitSetBuilder.start config top v2) docs all st) (hn : docs.length ≤ u32Bound)
    (hne : docs.length = u32Bound → all.splits ≠ []) (hsizes : ∀ s ∈ st.1, s.bytes.length < u64Bound)
    {parts : List SealedSplit} (hpre : parts <+: st.1) (p : BuildDoc → Bool) :
    (parts.flatMap fun s => (s.docs.findIdxs p).map s.spec.entry.toGlobal) =
      (parts.flatMap SealedSplit.docs).findIdxs p := by
  have hem := h.emitted hn hne
  rw [List.flatMap_def, @flatten_findIdxs _ _ SealedSplit.docs _ p]
  refine Each.of_prefix hpre fun i s hs => ?_
  obtain ⟨-, hflags, hle⟩ := h.spec_inRange hem.tiles hn hs (hsizes s (List.mem_of_getElem? hs))
  rw [← (hem.tiles i s hs).docIdLo]
  have hstart : s.docs.findIdxs p s.spec.docIdLo = (s.docs.findIdxs p).map (· + s.spec.docIdLo) := List.findIdxs_start
  rw [hstart]
  refine List.map_congr_left fun d hd => ?_
  have hlt := List.lt_add_of_mem_findIdxs d hd
  have habs : s.spec.entry.absoluteIds = false := by
    show hasFlag s.spec.flags splitFlagAbsoluteIds = false
    rw [hflags]
    rfl
  unfold Split.toGlobal
  rw [habs, if_neg Bool.false_ne_true]
  show min (s.spec.docIdLo + d) (u32Bound - 1) = d + s.spec.docIdLo
  omega

/-- Those in all splits are their places among all documents. -/
theorem CutInto.places_eq (h : CutInto (SplitSetBuilder.start config top v2) docs all st) (hn : docs.length ≤ u32Bound)
    (hne : docs.length = u32Bound → all.splits ≠ []) (hsizes : ∀ s ∈ st.1, s.bytes.length < u64Bound) (p : BuildDoc → Bool) :
    (st.1.flatMap fun s => (s.docs.findIdxs p).map s.spec.entry.toGlobal) = docs.findIdxs p := by
  rw [h.places_prefix hn hne hsizes (List.prefix_refl _) p, (h.emitted hn hne).documents]

/-- A split has no more documents than there are. -/
theorem CutInto.length_part_le (h : CutInto (SplitSetBuilder.start config top v2) docs all st) {s : SealedSplit}
    (hs : s ∈ st.1) : s.docs.length ≤ docs.length := by
  obtain ⟨i, hi⟩ := List.mem_iff_getElem?.mp hs
  have hle := @startOf_add_le _ _ SealedSplit.docs _ _ _ hi
  rw [← h.documents, List.length_append]
  omega

/-- The hits of a build's shelves are the places of its documents that have the keys. -/
theorem CutInto.shelfHits_eq (h : CutInto (SplitSetBuilder.start config top v2) docs all st) (hn : docs.length ≤ u32Bound)
    (hne : docs.length = u32Bound → all.splits ≠ []) (hsizes : ∀ s ∈ st.1, s.bytes.length < u64Bound) (keys : List Key) :
    shelfHits (baseShelves st.1) keys = docs.findIdxs (BuildDoc.hasKeys keys) := by
  unfold shelfHits baseShelves
  rw [List.flatMap_map, ← h.places_eq hn hne hsizes]
  refine List.flatMap_congr fun s hs => ?_
  unfold Shelf.hits
  rw [strictDocs_postsAndUpper ((h.length_part_le hs).trans hn)]

/-- The last of `n` documents is that of a shelf. -/
def Covers (base : List Shelf) (n : Nat) : Prop := n = 0 ∨ ∃ s ∈ base, 0 < s.spec.docCount ∧ s.spec.docIdHi + 1 = n

/-- The shelves are those of a build of the documents. -/
structure BuildShelves (base : List Shelf) (docs : List BuildDoc) : Prop where
  hits : ∀ keys, shelfHits base keys = docs.findIdxs (BuildDoc.hasKeys keys)
  covers : Covers base docs.length
  plain : ∀ d, ¬ Masked (base.map Shelf.spec) d
  indexed : ∀ s ∈ base, ∀ k, ∀ l ∈ s.posts.docs k, k ∈ distinctKeys docs

/-- The last document of a build is that of a split. -/
theorem CutInto.covers (h : CutInto (SplitSetBuilder.start config top v2) docs all st) (hn : docs.length ≤ u32Bound)
    (hne : docs.length = u32Bound → all.splits ≠ []) : Covers (baseShelves st.1) docs.length := by
  rcases Nat.eq_zero_or_pos docs.length with hzero | hpos
  · exact Or.inl hzero
  have hem := h.emitted hn hne
  have hne' : 0 < st.1.length := by
    rw [List.length_pos_iff]
    intro hnil
    have hdocs := hem.documents
    rw [hnil] at hdocs
    rw [← hdocs] at hpos
    exact Nat.lt_irrefl 0 hpos
  have hi : st.1[st.1.length - 1]? = some st.1[st.1.length - 1] := List.getElem?_eq_getElem (by omega)
  have hat := hem.tiles _ _ hi
  have hnext := @startOf_succ _ _ SealedSplit.docs _ _ _ hi
  rw [startOf_of_length_le (by omega), hem.documents] at hnext
  have hcount := hat.docCount
  have hhi := hat.docIdHi
  refine Or.inr ⟨⟨st.1[st.1.length - 1].spec, (postsAndUpper st.1[st.1.length - 1].docs).1⟩,
    List.mem_map_of_mem (List.mem_of_getElem? hi), ?_, ?_⟩
  · show 0 < st.1[st.1.length - 1].spec.docCount
    omega
  · show st.1[st.1.length - 1].spec.docIdHi + 1 = docs.length
    omega

end

/-! ## Shelves in the store -/

/-- The resolver serves the splits of the set from the store: their files, and boot bytes of some of them. -/
structure SplitFetcher.ServesSplits (resolver : SplitFetcher) (set : SplitSet) (files : NamedFiles) : Prop where
  file : ∀ split ∈ set.splits, ∀ file, fileOf files split.dataFile = some file →
    resolver.fetchNamed split.dataFile = .new file
  boot : ∀ split ∈ set.splits, ∀ boot, resolver.boot split = some boot → ∃ file n,
    fileOf files split.dataFile = some file ∧ rrsBootLen file = .ok n ∧ boot = slice file 0 n

theorem SplitFetcher.ServesSplits.servesFile {resolver : SplitFetcher} {set : SplitSet} {files : NamedFiles}
    (h : resolver.ServesSplits set files) {split : Split} (hs : split ∈ set.splits) {file : Bytes}
    (hf : fileOf files split.dataFile = some file) : resolver.ServesFile split file := by
  refine ⟨h.file split hs file hf, fun boot hb => ?_⟩
  obtain ⟨file', n, hf', hn, rfl⟩ := h.boot split hs boot hb
  rw [hf] at hf'
  rw [Option.some.inj hf']
  exact ⟨n, hn, rfl⟩

section

variable [Roaring]

/-- The shelf's file is in the store, with the grams and the case mode, and its filter is over its keys. -/
structure Shelf.Written (s : Shelf) (files : NamedFiles) (gramSize : Nat) (caseFold : Bool) : Prop where
  keys_lt : s.posts.toList.length < 2 ^ 32
  file : ∃ stride file, stride < 2 ^ 32 ∧
    writeIndexWith gramSize stride (serializeEntries s.posts.toList) caseFold = .ok file ∧
    fileOf files s.spec.dataFile = some file
  blooms : Blooms s.posts s.spec.summary

variable {s : Shelf} {files : NamedFiles} {gramSize : Nat} {caseFold : Bool}

/-- Another file is put. -/
theorem Shelf.Written.put (h : s.Written files gramSize caseFold) {name : String} (hne : s.spec.dataFile ≠ name)
    (bytes : Bytes) : s.Written ((name, bytes) :: files) gramSize caseFold := by
  obtain ⟨stride, file, hstride, hwrite, hfile⟩ := h.file
  refine ⟨h.keys_lt, ⟨stride, file, hstride, hwrite, ?_⟩, h.blooms⟩
  unfold fileOf at hfile ⊢
  rw [List.find?_cons_of_neg (by simpa using Ne.symm hne)]
  exact hfile

variable [Fst] {set : SplitSet} {resolver : SplitFetcher} {split : Split}

/-- **A shelf in the store is served.** -/
theorem Shelf.Written.serves (h : s.Written files set.gramSize set.caseFold) (hg : set.gramSize < 2 ^ 16)
    (hresolver : resolver.ServesSplits set files) (hsplit : split ∈ set.splits)
    (hspec : SplitSetWriter.carried set split = s.spec) (hsummary : ((set.summary split).getD []).length < 2 ^ 32) :
    ServesShelf set resolver split s := by
  obtain ⟨stride, file, hstride, hwrite, hfile⟩ := h.file
  obtain ⟨c, rfl, hgram, hcase, hposting⟩ := exists_corpus hg hstride h.keys_lt hwrite
  have hblooms := h.blooms
  rw [← hspec] at hfile hblooms
  refine ⟨⟨⟨_, c.settles_openSplit (hresolver.servesFile hsplit hfile), c.wellFormed, hgram, hcase, fun k => ?_⟩,
    hblooms.neverPruned hsummary⟩, ?_⟩
  · rw [c.postingOf_eq, hposting]
  · rw [← hspec]
    rfl

end

/-! ## What a search goes by -/

/-- What a set's search goes by. -/
structure SearchTerms where
  policy : Policy
  gramSize : Nat
  caseFold : Bool
  sortcol : Option SortColDescriptor

def SplitSet.terms (set : SplitSet) : SearchTerms := ⟨set.policy, set.gramSize, set.caseFold, set.sortcol⟩

/-- What the manifests of a writer say of it. -/
def SplitSetWriter.terms (w : SplitSetWriter) : SearchTerms :=
  ⟨w.policy, w.gramSize, w.caseNormalization, w.sortcol.filter fun sc => sc.name ≠ ""⟩

/-- A set folds case as its flags say. -/
theorem caseFold_of_fromBytes {b : Bytes} {set : SplitSet} (h : SplitSet.fromBytes b = .ok set) :
    set.caseFold = !hasFlag set.flags flagCaseSensitive := by
  unfold SplitSet.fromBytes at h
  obtain ⟨n, -, h⟩ := exists_of_bind_ok h
  split at h
  · cases h
  · obtain ⟨policy, kind, sortcol, splits, -, -, -, rfl⟩ := parse_ok h
    rfl

theorem SplitSet.Describes.terms_eq {set : SplitSet} {w : SplitSetWriter} (h : set.Describes w.manifestConfig w.specs) :
    set.terms = w.terms := by
  have hcase : set.caseFold = w.caseNormalization := h.caseFold.trans w.hasFlag_manifestConfig
  have hsort : set.sortcol = w.sortcol.filter fun sc => sc.name ≠ "" := h.sortcol
  unfold SplitSet.terms SplitSetWriter.terms
  rw [h.policy, h.gramSize, hcase, hsort]
  rfl

/-- A resume with the manifest's grams keeps its terms. -/
theorem SplitSetWriter.terms_resume {b : Bytes} {prev : SplitSet} (h : SplitSet.fromBytes b = .ok prev)
    (hsort : prev.sortcol = prev.sortcol.filter fun sc => sc.name ≠ "") (args : ResumeArgs)
    (hgram : args.gramSize = prev.gramSize) :
    (resume prev args.gramSize args.stride args.namePrefix args.bloomBitsPerKey).terms = prev.terms := by
  unfold SplitSet.terms terms
  rw [caseFold_of_fromBytes h]
  show SearchTerms.mk prev.policy args.gramSize _ (prev.sortcol.filter fun sc => sc.name ≠ "") = _
  rw [← hsort, hgram]
  rfl

/-- The writer and the manifest in the store have the terms. -/
structure Session.OnTerms (t : SearchTerms) (σ : Session) : Prop where
  writer : σ.writer.terms = t
  manifest : ∀ bytes set, σ.manifest = some bytes → SplitSet.fromBytes bytes = .ok set →
    set.terms = t ∧ set.bodyKind = .trigram
  sortcol : t.sortcol = t.sortcol.filter fun sc => sc.name ≠ ""

/-- A resume is given the grams that the writer had. -/
def Session.KeepsGrams (σ : Session) : WriterCall → Prop
  | .resume args => args.gramSize = σ.writer.gramSize
  | _ => True

theorem Session.OnTerms.put {t : SearchTerms} {σ : Session} (h : σ.OnTerms t) {w : SplitSetWriter} (hw : w.Sized)
    (hterms : w.terms = t) {name : String} {bytes manifest : Bytes} (hemit : w.emitManifest = .ok manifest)
    (hlen : manifest.length < u64Bound) : (σ.put w name bytes manifest).OnTerms t := by
  obtain ⟨prev, hprev, -, hdesc, -⟩ := hw.exists_resumes hemit hlen
  refine ⟨hterms, fun bytes' set hm hset => ?_, h.sortcol⟩
  obtain rfl : manifest = bytes' := Option.some.inj hm
  obtain rfl : prev = set := Except.ok.inj (hprev.symm.trans hset)
  exact ⟨hdesc.terms_eq.trans hterms, hdesc.bodyKind⟩

theorem Session.OnTerms.step [Roaring] {t : SearchTerms} {σ σ' : Session} {l : WriterCall × WriterOutcome}
    (h : σ.OnTerms t) (hsized : σ.writer.Sized) (hs : σ.Step l σ') (hgrams : σ.KeepsGrams l.1) : σ'.OnTerms t := by
  have hsized' := sized_step hsized hs
  obtain ⟨hcall, hmem⟩ := hs
  obtain ⟨c, o⟩ := l
  cases call_effect hcall with
  | added keys => exact ⟨h.writer, h.manifest, h.sortcol⟩
  | deleted globalId => exact ⟨h.writer, h.manifest, h.sortcol⟩
  | idle hcount hdel => exact h
  | flushFailed bytes e hsome hfile hemit => exact ⟨h.writer, h.manifest, h.sortcol⟩
  | flushed bytes manifest hsome hfile hemit => exact h.put hsized' h.writer hemit (hmem.manifest_lt manifest rfl)
  | refused inputs e hgather => exact h
  | compactFailed inputs merged dead bytes e hgather hfile hemit => exact ⟨h.writer, h.manifest, h.sortcol⟩
  | compacted inputs merged dead bytes manifest hgather hfile hemit =>
    exact h.put hsized' h.writer hemit (hmem.manifest_lt manifest rfl)
  | resumed args bytes prev hm hprev =>
    obtain ⟨hterms, -⟩ := h.manifest bytes prev hm hprev
    refine ⟨?_, h.manifest, h.sortcol⟩
    have hsort : prev.sortcol = t.sortcol := congrArg SearchTerms.sortcol hterms
    have hgram : prev.gramSize = σ.writer.gramSize :=
      (congrArg SearchTerms.gramSize hterms).trans (congrArg SearchTerms.gramSize h.writer).symm
    have hresume := SplitSetWriter.terms_resume hprev (by rw [hsort]; exact h.sortcol) args
      (Eq.trans (show args.gramSize = σ.writer.gramSize from hgrams) hgram.symm)
    exact hresume.trans hterms

/-! ## Shelves of a session -/

section

variable [Roaring] {σ σ' : Session} {base deltas deltas' : List Shelf} {gramSize : Nat} {caseFold : Bool}

/-- The last shelf has a name of its own. -/
theorem SplitSetWriter.Shelved.name_ne {w : SplitSetWriter} {stay : List Shelf} {s : Shelf}
    (h : Shelved base (stay ++ [s]) w) : ∀ t ∈ base ++ stay, t.spec.dataFile ≠ s.spec.dataFile := by
  have hnames := h.names
  rw [h.specs, ← List.append_assoc, List.map_map, List.map_append, List.nodup_append] at hnames
  intro t ht
  exact hnames.2.2 _ (List.mem_map_of_mem ht) _ (List.mem_map_of_mem (List.mem_singleton_self s))

/-- A new file is put in the store, with its shelf. -/
theorem Shelf.Written.snoc {files : NamedFiles} {stay : List Shelf} {s : Shelf} {bytes : Bytes}
    (h : ∀ t ∈ stay, t.Written files gramSize caseFold) (hne : ∀ t ∈ stay, t.spec.dataFile ≠ s.spec.dataFile)
    (hs : s.Written ((s.spec.dataFile, bytes) :: files) gramSize caseFold) :
    ∀ t ∈ stay ++ [s], t.Written ((s.spec.dataFile, bytes) :: files) gramSize caseFold := by
  intro t ht
  rcases List.mem_append.mp ht with ht | ht
  · exact (h t ht).put (hne t ht) bytes
  · rw [List.mem_singleton.mp ht]
    exact hs

/-- **A call that goes through keeps every shelf's file in the store.** -/
theorem Session.Housed.written_step {c : WriterCall} (h : Housed base deltas σ) (h' : Housed base deltas' σ')
    (horderly : σ.Orderly c) (hre : σ.Reshelved σ' deltas c deltas')
    (hwritten : ∀ s ∈ base ++ deltas, s.Written σ.files gramSize caseFold)
    (hgram : σ.writer.gramSize = gramSize) (hcase : σ.writer.caseNormalization = caseFold) :
    ∀ s ∈ base ++ deltas', s.Written σ'.files gramSize caseFold := by
  have hstride := h.sized.fits.stride_lt
  cases hre with
  | same c hfiles hspecs =>
    rw [hfiles]
    exact hwritten
  | flushed bytes hfile hfiles hwriter =>
    unfold SplitSetWriter.indexFile at hfile
    rw [hgram, hcase] at hfile
    rw [hfiles, ← List.append_assoc]
    exact Shelf.Written.snoc hwritten h'.shelved.name_ne ⟨horderly.keys_lt, ⟨_, bytes, hstride, hfile, fileOf_put _ _ _⟩,
      blooms_newSummary σ.writer σ.writer.memtable _ _⟩
  | compacted inputs merged dead bytes hgather hfile hfiles hwriter =>
    unfold SplitSetWriter.indexFile at hfile
    rw [hgram, hcase] at hfile
    rw [hfiles, ← List.append_assoc]
    refine Shelf.Written.snoc (fun t ht => hwritten t ?_) h'.shelved.name_ne
      ⟨horderly.keys_lt.length_surviving hgather, ⟨_, bytes, hstride, hfile, fileOf_put _ _ _⟩,
        blooms_newSummary σ.writer (SplitSetWriter.surviving merged dead) _ _⟩
    exact (List.Sublist.append (List.Sublist.refl base) List.filter_sublist).subset ht

end

/-! ## What was called -/

/-- What a client knows of its calls: the documents that were flushed and the deletes that were, and those since the last
flush or resume. -/
structure WriterLog where
  published : List (Nat × List Key)
  added : List (Nat × List Key)
  deletes : List Nat
  tombstoned : List Nat

namespace WriterLog

def start : WriterLog := ⟨[], [], [], []⟩

def note (log : WriterLog) : WriterCall × WriterOutcome → WriterLog
  | (.addKeys keys, .added globalId) => { log with added := log.added ++ [(globalId, keys)] }
  | (.delete globalId, _) => { log with deletes := log.deletes ++ [globalId.val] }
  | (.flush, .emitted _) => ⟨log.published ++ log.added, [], [], log.tombstoned ++ log.deletes⟩
  | (.resume _, _) => ⟨log.published, [], [], log.tombstoned⟩
  | _ => log

def ofTrace (tr : List (WriterCall × WriterOutcome)) : WriterLog := tr.foldl note start

theorem ofTrace_snoc (tr : List (WriterCall × WriterOutcome)) (l : WriterCall × WriterOutcome) :
    ofTrace (tr ++ [l]) = (ofTrace tr).note l := by
  unfold ofTrace
  rw [List.foldl_append]
  rfl

end WriterLog

section

variable [Roaring] {σ σ' : Session} {base deltas deltas' : List Shelf} {log : WriterLog}

/-- The writer holds what the log tells. -/
structure Session.Logged (log : WriterLog) (σ : Session) : Prop where
  ids : log.added.map Prod.fst = List.range' σ.writer.firstFree σ.writer.memtableCount.val
  docs : ∀ k l, l ∈ σ.writer.memtable.docs k ↔ ∃ p, log.added[l]? = some p ∧ k ∈ p.2
  deletes : ∀ d, d ∈ σ.writer.pendingDeletes ↔ d ∈ log.deletes
  masked : ∀ d, Masked σ.writer.specs d ↔ d ∈ log.tombstoned

theorem Session.Logged.length_added (h : σ.Logged log) : log.added.length = σ.writer.memtableCount.val := by
  have := congrArg List.length h.ids
  rwa [List.length_map, List.length_range'] at this

/-- A flushed split masks the deletes too. -/
theorem SplitSetWriter.masked_flushed (w : SplitSetWriter) (byteSize d : Nat) :
    Masked (w.flushed byteSize).specs d ↔ Masked w.specs d ∨ d ∈ w.pendingDeletes := by
  have hparse := parseTombstone_newSummary w w.memtable.keys (0 < w.memtableCount.val) w.pendingDeletes
  constructor
  · rintro ⟨s, hs, ids, hids, hd⟩
    rcases List.mem_append.mp hs with hs | hs
    · exact Or.inl ⟨s, hs, ids, hids, hd⟩
    · rw [List.mem_singleton.mp hs] at hids
      have heq := Except.ok.inj (hparse.symm.trans hids)
      split at heq
      · cases heq
      · obtain rfl := Option.some.inj heq
        exact Or.inr hd
  · rintro (hm | hd)
    · exact hm.subset fun s hs => List.mem_append_left _ hs
    · refine ⟨_, List.mem_append_right _ (List.mem_singleton_self _), w.pendingDeletes, hparse.trans ?_, hd⟩
      rw [if_neg fun hempty => AscSet.isEmpty_iff_forall.mp hempty d hd]

/-- A writer without a memtable and deletes. -/
theorem Session.logged_of_empty {σ : Session} {published : List (Nat × List Key)} {tombstoned : List Nat} (hmem : σ.writer.memtable = ∅)
    (hcount : σ.writer.memtableCount.val = 0) (hdel : σ.writer.pendingDeletes = ∅)
    (hmasked : ∀ d, Masked σ.writer.specs d ↔ d ∈ tombstoned) : σ.Logged ⟨published, [], [], tombstoned⟩ := by
  refine ⟨?_, fun k l => ?_, fun d => ?_, hmasked⟩
  · rw [hcount]
    rfl
  · rw [hmem]
    exact iff_of_false (AscSet.not_mem_empty l) (by simp)
  · rw [hdel]
    exact iff_of_false (AscSet.not_mem_empty d) List.not_mem_nil

/-- **The log tells of every call that goes through.** -/
theorem Session.Logged.step {l : WriterCall × WriterOutcome} (h : σ.Logged log) (hhoused : σ.Housed base deltas)
    (hs : σ.Step l σ') (horderly : σ.Orderly l.1) : σ'.Logged (log.note l) := by
  obtain ⟨hcall, hmem⟩ := hs
  obtain ⟨c, o⟩ := l
  cases call_effect hcall with
  | added keys =>
    obtain ⟨hfill, hfree⟩ := filling_added hhoused.filling horderly keys
    have hle : σ.writer.firstFree + σ.writer.memtableCount.val = σ.writer.nextGlobalId.val := by
      unfold SplitSetWriter.firstFree
      split
      · omega
      · next hne => exact hhoused.filling.count (Nat.pos_of_ne_zero hne)
    have hroom : σ.writer.nextGlobalId.val + 1 < u32Bound := horderly
    have hcount : (σ.writer.addKeys keys).2.memtableCount.val = σ.writer.memtableCount.val + 1 :=
      Nat.mod_eq_of_lt (by omega)
    refine ⟨?_, fun k l => ?_, h.deletes, h.masked⟩
    · show (log.added ++ [(σ.writer.nextGlobalId.val, keys)]).map Prod.fst =
        List.range' (σ.writer.addKeys keys).2.firstFree (σ.writer.addKeys keys).2.memtableCount.val
      rw [List.map_append, h.ids, hfree, hcount, List.range'_concat, Nat.one_mul, hle]
      rfl
    · show l ∈ (σ.writer.memtable.add σ.writer.memtableCount keys).docs k ↔
        ∃ p, (log.added ++ [(σ.writer.nextGlobalId.val, keys)])[l]? = some p ∧ k ∈ p.2
      rw [PostMap.mem_docs_add, h.docs, ← h.length_added]
      simp only [getElem?_snoc]
      constructor
      · rintro (⟨p, hp, hk⟩ | ⟨rfl, hk⟩)
        · exact ⟨p, Or.inl hp, hk⟩
        · exact ⟨_, Or.inr ⟨rfl, rfl⟩, hk⟩
      · rintro ⟨p, hp | ⟨rfl, rfl⟩, hk⟩
        · exact Or.inl ⟨p, hp, hk⟩
        · exact Or.inr ⟨rfl, hk⟩
  | deleted globalId =>
    refine ⟨h.ids, h.docs, fun d => ?_, h.masked⟩
    show d ∈ σ.writer.pendingDeletes.insert globalId.val globalId.isLt ↔ d ∈ log.deletes ++ [globalId.val]
    rw [AscSet.mem_insert, h.deletes, List.mem_append, List.mem_singleton]
    exact or_comm
  | idle hcount hdel => exact h
  | flushFailed bytes e hsome hfile hemit =>
    exact absurd hemit (horderly.emit_ne hsome _ e)
  | flushed bytes manifest hsome hfile hemit =>
    refine logged_of_empty rfl rfl rfl fun d => ?_
    show Masked (σ.writer.flushed bytes.length).specs d ↔ _
    rw [SplitSetWriter.masked_flushed, h.masked, h.deletes, List.mem_append]
  | refused inputs e hgather => exact h
  | compactFailed inputs merged dead bytes e hgather hfile hemit =>
    exact absurd hemit (horderly.emit_ne hgather _ e)
  | compacted inputs merged dead bytes manifest hgather hfile hemit =>
    obtain ⟨gs, hgs, -, hdead⟩ := SplitSetWriter.gather_ok hgather
    refine ⟨h.ids, h.docs, h.deletes, fun d => ?_⟩
    show Masked (σ.writer.compacted inputs (SplitSetWriter.surviving merged dead) dead bytes.length).specs d ↔ _
    rw [hhoused.shelved.masked_compacted hgs hdead, h.masked]
    rfl
  | resumed args bytes prev hm hprev =>
    obtain ⟨bytes', prev', hm', hprev', hspecs, -⟩ := hhoused.current
    obtain rfl : bytes = bytes' := Option.some.inj (hm.symm.trans hm')
    obtain rfl : prev = prev' := Except.ok.inj (hprev.symm.trans hprev')
    refine logged_of_empty rfl rfl rfl fun d => ?_
    show Masked (prev.splits.map (SplitSetWriter.carried prev)) d ↔ _
    rw [hspecs, h.masked]

/-- A compaction that is refused leaves all as it is. -/
def Session.Refused (σ : Session) (l : WriterCall × WriterOutcome) (σ' : Session) : Prop :=
  ∃ inputs e, l = (.compact inputs, .failed e) ∧ σ' = σ

/-- A call that goes through or a compaction that is refused; a resume keeps the grams. -/
def Session.SearchedStep (σ : Session) (l : WriterCall × WriterOutcome) (σ' : Session) : Prop :=
  σ.Step l σ' ∧ (σ.Orderly l.1 ∨ σ.Refused l σ') ∧ σ.KeepsGrams l.1

/-- A session over a base of `n` documents, with its shelves in the store and its calls in the log. -/
structure Session.Kept (t : SearchTerms) (n : Nat) (base deltas : List Shelf) (log : WriterLog) (σ : Session) : Prop where
  housed : σ.Housed base deltas
  written : ∀ s ∈ base ++ deltas, s.Written σ.files t.gramSize t.caseFold
  terms : σ.OnTerms t
  logged : σ.Logged log
  above : ∀ s ∈ deltas, ∀ d, s.Holds d → n ≤ d

variable {t : SearchTerms} {n : Nat}

/-- What a flush adds is above the base. -/
theorem Session.Housed.flushed_above (h : σ.Housed base deltas) (hn : Covers base n) (byteSize : Nat) {d : Nat}
    (hd : (σ.writer.deltaShelf byteSize).Holds d) : n ≤ d := by
  rcases hn with rfl | ⟨s, hs, hpos, rfl⟩
  · exact Nat.zero_le d
  · obtain ⟨hsome, hlo, -⟩ := (h.filling.placed byteSize).le_docIdHi hd
    obtain ⟨hfree, -, hsum⟩ := h.filling.range byteSize hsome
    have hspec : s.spec ∈ σ.writer.specs := by
      rw [h.shelved.specs]
      exact List.mem_map_of_mem (List.mem_append_left _ hs)
    have hlo' : (σ.writer.deltaSpec byteSize).docIdLo ≤ d := hlo
    have hsome' : 0 < σ.writer.memtableCount.val := hsome
    have hnext := σ.writer.nextGlobalId.isLt
    rcases h.shelved.free s.spec hspec hpos with hlt | hend
    · omega
    · omega

theorem Session.Housed.above_step {c : WriterCall} (h : σ.Housed base deltas) (hn : Covers base n)
    (habove : ∀ s ∈ deltas, ∀ d, s.Holds d → n ≤ d) (horderly : σ.Orderly c) (hre : σ.Reshelved σ' deltas c deltas') :
    ∀ s ∈ deltas', ∀ d, s.Holds d → n ≤ d := by
  cases hre with
  | same => exact habove
  | flushed bytes hfile hfiles hwriter =>
    intro s hs d hd
    rcases List.mem_append.mp hs with hs | hs
    · exact habove s hs d hd
    · rw [List.mem_singleton.mp hs] at hd
      exact h.flushed_above hn bytes.length hd
  | compacted inputs merged dead bytes hgather hfile hfiles hwriter =>
    obtain ⟨gs, hgs, hdocs, -⟩ := SplitSetWriter.gather_ok hgather
    have hfiled : ∀ s ∈ deltas, s.Filed σ.files true := by
      rw [← horderly.caseFold]
      exact h.filed
    intro s hs d hd
    rcases List.mem_append.mp hs with hs | hs
    · exact habove s (List.mem_of_mem_filter hs) d hd
    · rw [List.mem_singleton.mp hs] at hd
      obtain ⟨k, hk⟩ := SplitSetWriter.holds_mergedShelf.mp hd
      obtain ⟨u, hu, -, hhold⟩ := h.shelved.holds_merged hfiled horderly.files hgs hdocs
        (SplitSetWriter.mem_docs_surviving.mp hk).1
      exact habove u hu d hhold

/-- **A call keeps the session so**, with what it does to the shelves and the log. -/
theorem Session.Kept.step {l : WriterCall × WriterOutcome} (h : σ.Kept t n base deltas log) (hn : Covers base n)
    (hs : σ.Step l σ') (horderly : σ.Orderly l.1) (hgrams : σ.KeepsGrams l.1) :
    ∃ deltas', σ.Reshelved σ' deltas l.1 deltas' ∧ σ'.Kept t n base deltas' (log.note l) := by
  obtain ⟨deltas', hre, h'⟩ := h.housed.step hs horderly
  have hgram := congrArg SearchTerms.gramSize h.terms.writer
  have hcase := congrArg SearchTerms.caseFold h.terms.writer
  exact ⟨deltas', hre, h', h.housed.written_step h' horderly hre h.written hgram hcase,
    h.terms.step h.housed.sized hs hgrams, h.logged.step h.housed hs horderly, h.housed.above_step hn h.above horderly hre⟩

/-- A run of such calls keeps it so. -/
theorem Session.Kept.run {σ₀ : Session} {tr : List (WriterCall × WriterOutcome)} (h₀ : σ₀.Kept t n base [] .start)
    (hn : Covers base n) (hrun : Run SearchedStep σ₀ tr σ) : ∃ deltas, σ.Kept t n base deltas (.ofTrace tr) := by
  refine hrun.invariant (I := fun tr (σ : Session) => ∃ deltas, σ.Kept t n base deltas (.ofTrace tr)) ⟨[], h₀⟩ ?_
  rintro tr σ l σ' ⟨deltas, h⟩ ⟨hs, horderly | ⟨inputs, e, rfl, rfl⟩, hgrams⟩
  · obtain ⟨deltas', -, h'⟩ := h.step hn hs horderly hgrams
    rw [← WriterLog.ofTrace_snoc] at h'
    exact ⟨deltas', h'⟩
  · rw [WriterLog.ofTrace_snoc]
    exact ⟨deltas, h⟩

variable [Fst] {bytes : Bytes} {set : SplitSet} {resolver : SplitFetcher}

/-- **The set in the store has its shelves served.** -/
theorem Session.Kept.stocked (h : σ.Kept t n base deltas log) (hm : σ.manifest = some bytes)
    (hset : SplitSet.fromBytes bytes = .ok set) (hresolver : resolver.ServesSplits set σ.files) :
    Stocked set resolver base deltas := by
  obtain ⟨hterms, hkind⟩ := h.terms.manifest bytes set hm hset
  obtain ⟨bytes', set', hm', hset', hspecs, hcount, -⟩ := h.housed.current
  obtain rfl : bytes = bytes' := Option.some.inj (hm.symm.trans hm')
  obtain rfl : set = set' := Except.ok.inj (hset.symm.trans hset')
  have hgram : t.gramSize = set.gramSize := congrArg SearchTerms.gramSize hterms.symm
  have hcase : t.caseFold = set.caseFold := congrArg SearchTerms.caseFold hterms.symm
  have hlt : set.gramSize < 2 ^ 16 := by
    rw [← hgram, ← congrArg SearchTerms.gramSize h.terms.writer]
    exact h.housed.sized.fits.gramSize_lt
  have hwritten := h.written
  rw [hgram, hcase] at hwritten
  have hshelves : List.Forall₂ (fun split s => SplitSetWriter.carried set split = s.spec) set.splits (base ++ deltas) := by
    have heq := hspecs.trans h.housed.shelved.specs
    exact List.forall₂_map_left_iff.mp (List.forall₂_map_right_iff.mp (heq ▸ List.forall₂_refl _))
  have hall : List.Forall₂ (ServesShelf set resolver) set.splits (base ++ deltas) := by
    have hmem := (List.forall₂_and_left _ _).mpr ⟨fun split (hs : split ∈ set.splits) => hs, hshelves⟩
    have hboth := (List.forall₂_and_left _ _).mpr ⟨hwritten, hmem.flip⟩
    refine hboth.flip.imp fun split s hf => ?_
    obtain ⟨hw, hsplit, hspec⟩ := hf
    exact hw.serves hlt hresolver hsplit hspec (fromBytes_summary_lt hset split hsplit)
  have hbase : set.baseCount = base.length := hcount.trans h.housed.shelved.baseCount
  refine ⟨hkind, ?_, ?_⟩
  · have htake := List.forall₂_take base.length hall
    rwa [List.take_left', ← hbase] at htake
    rfl
  · have hdrop := List.forall₂_drop base.length hall
    rwa [List.drop_left', ← hbase] at hdrop
    rfl

end

/-! ## Over a build -/

section

variable [Roaring] [Unicode] {config : SplitBuildConfig} {top : Nat} {v2 : Bool} {docs : List BuildDoc}
  {all : BuiltSplitSet} {st : List SealedSplit × List BuildDoc}

theorem CutInto.buildShelves (h : CutInto (SplitSetBuilder.start config top v2) docs all st) (hn : docs.length ≤ u32Bound)
    (hne : docs.length = u32Bound → all.splits ≠ []) (hkeys : ∀ s ∈ st.1, (distinctKeys s.docs).length < 2 ^ 32)
    (hsummary : ∀ s ∈ st.1, s.spec.summary.length < 2 ^ 32) : BuildShelves (baseShelves st.1) docs := by
  have hsizes : ∀ s ∈ st.1, s.bytes.length < u64Bound := by
    intro s hs
    obtain ⟨i, hi⟩ := List.mem_iff_getElem?.mp hs
    exact h.bytes_lt hi (hkeys s hs)
  refine ⟨h.shelfHits_eq hn hne hsizes, h.covers hn hne, ?_, ?_⟩
  · rintro d ⟨spec, hspec, ids, hids, -⟩
    obtain ⟨shelf, hshelf, rfl⟩ := List.mem_map.mp hspec
    obtain ⟨s, hs, rfl⟩ := List.mem_map.mp hshelf
    rw [h.parseTombstone_eq hs (hsummary s hs)] at hids
    cases hids
  · intro shelf hshelf k l hl
    obtain ⟨s, hs, rfl⟩ := List.mem_map.mp hshelf
    obtain ⟨doc, hdoc, hk⟩ := mem_keys_postsAndUpper.mp (mem_keys_of_mem_docs hl)
    refine List.mem_dedup.mpr (List.mem_flatMap.mpr ⟨doc, ?_, hk⟩)
    rw [← h.documents]
    exact List.mem_append_left _ (List.mem_flatMap.mpr ⟨s, hs, hdoc⟩)

/-- **A writer resumed over a build keeps it.** -/
theorem CutInto.kept (h : CutInto (SplitSetBuilder.start config top v2) docs all st) (hn : docs.length ≤ u32Bound)
    (hne : docs.length = u32Bound → all.splits ≠ []) (hkeys : ∀ s ∈ st.1, (distinctKeys s.docs).length < 2 ^ 32)
    (hlen : all.manifest.length < u64Bound) {prev : SplitSet} (hprev : SplitSet.fromBytes all.manifest = .ok prev)
    {args : ResumeArgs} (hgrams : args.gramSize = prev.gramSize) {files : NamedFiles}
    (hfiles : ∀ f ∈ all.splits, fileOf files f.1 = some f.2) : BuildShelves (baseShelves st.1) docs ∧
      Session.Kept prev.terms docs.length (baseShelves st.1) [] .start
        ⟨.resume prev args.gramSize args.stride args.namePrefix args.bloomBitsPerKey, some all.manifest, files⟩ := by
  have hsizes : ∀ s ∈ st.1, s.bytes.length < u64Bound := by
    intro s hs
    obtain ⟨i, hi⟩ := List.mem_iff_getElem?.mp hs
    exact h.bytes_lt hi (hkeys s hs)
  obtain ⟨set, hset, hof⟩ := h.exists_set hn hne hkeys hlen
  obtain rfl : prev = set := Except.ok.inj (hprev.symm.trans hset)
  obtain ⟨set', hset', -, -, hdesc⟩ := h.exists_described hn hne hsizes hlen
  obtain rfl : prev = set' := Except.ok.inj (hprev.symm.trans hset')
  have hshelves := h.buildShelves hn hne hkeys hof.summary_lt
  obtain ⟨hhoused, -⟩ := h.housed hn hne hsizes hlen hprev args files
  have hsort : prev.sortcol = prev.sortcol.filter fun sc => sc.name ≠ "" := by
    rw [hdesc.sortcol, Option.filter_filter]
    simp
  refine ⟨hshelves, hhoused, fun s hs => ?_, ⟨SplitSetWriter.terms_resume hprev hsort args hgrams, ?_, hsort⟩,
    Session.logged_of_empty rfl rfl rfl fun d => ?_, fun s hs => absurd hs List.not_mem_nil⟩
  · rw [List.append_nil] at hs
    obtain ⟨part, hpart, rfl⟩ := List.mem_map.mp hs
    obtain ⟨i, hi⟩ := List.mem_iff_getElem?.mp hpart
    obtain ⟨bytes, more, sidecar, hbytes, hside, hspec⟩ := SplitSetBuilder.cut_ok (h.each i part hi).2
    obtain ⟨-, hstride, -⟩ := @start_fits config top v2
    have hfile : fileOf files part.spec.dataFile = some bytes := by
      have hmem : part.file ∈ all.splits := by
        rw [h.files]
        exact List.mem_map_of_mem hpart
      have := hfiles _ hmem
      rwa [SealedSplit.file, show part.bytes = bytes by rw [hspec]] at this
    refine ⟨(length_postsAndUpper _).trans_lt (hkeys part hpart), ⟨_, bytes, hstride, ?_, hfile⟩, ?_⟩
    · show writeIndexWith prev.gramSize _ _ prev.caseFold = _
      rw [hof.gramSize, hof.caseFold]
      exact hbytes
    · show Blooms (postsAndUpper part.docs).1 part.spec.summary
      rw [show part.spec.summary = SplitSetBuilder.bloomRecord (SplitSetBuilder.start config top v2).bloomBitsPerKey
        (postsAndUpper part.docs).1 ++ more by rw [hspec]]
      exact (blooms_bloomRecord _ _).sealFacets hside
  · intro bytes set' hm hset'
    obtain rfl : all.manifest = bytes := Option.some.inj hm
    obtain rfl : prev = set' := Except.ok.inj (hprev.symm.trans hset')
    exact ⟨rfl, hof.bodyKind⟩
  · refine iff_of_false ?_ List.not_mem_nil
    have hplain := hshelves.plain d
    have hspecs := hhoused.shelved.specs
    rw [List.append_nil] at hspecs
    rwa [← hspecs] at hplain

end

end RoaringRange
