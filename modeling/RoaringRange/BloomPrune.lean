import RoaringRange.SplitTiles
import RoaringRange.WriterIds

/-!
# Pruning by Bloom filters (`splitset.rs`, `splitset_build.rs`, `splitset_write.rs`)

A split's summary has a filter over the keys of just the postings its index file was written from.  What a split is
written from is said by `WrittenFrom`, an invariant of every build and of every session of a writer:

    a build writes every split from the postings of its file                             (BuildRun.built_calls)
    so does a writer, on whatever calls and resumes                                          (Session.told_run)

A document of the split has its keys among those of the postings, so whoever asks for some of them is not turned away.
A filter alone has every key it was built over, and is probed remotely as in memory, where its size fits:

    BloomKeeps checks keys bits ↔ BloomFits checks keys.length bits                       (bloom_no_false_negative)
-/

namespace RoaringRange

open ByteString Faults Slices Runs

/-! ## A filter in a summary -/

/-- The summary is records, a Bloom record among them being over the keys of the postings. -/
def Blooms (posts : PostMap) (summary : Bytes) : Prop :=
  ∃ rs : List (Nat × Bytes), (∀ r ∈ rs, r.1 < 256) ∧ summary = (rs.flatMap fun r => tlvRecord r.1 r.2) ∧
    ∀ payload, recordOf rs summaryTagBloom = some payload → ∃ bitsPerKey, payload = bloomBuild posts.keys bitsPerKey

/-- No query is turned away whose keys one document has. -/
def NeverPruned (set : SplitSet) (split : Split) (posts : PostMap) : Prop :=
  ∀ (keys : List Key) (d : Nat), (∀ k ∈ keys, d ∈ posts.docs k) → set.prunedByBloom split keys = false

/-- A key with a document is one of the keys. -/
theorem mem_keys_of_mem_docs {posts : PostMap} {k : Key} {d : Nat} (h : d ∈ posts.docs k) : k ∈ posts.keys := by
  unfold PostMap.docs at h
  cases hfind : posts.find? k with
  | none =>
    rw [hfind] at h
    exact absurd h (AscSet.not_mem_empty d)
  | some bm => exact OrdMap.mem_keys_iff.mpr ⟨bm, hfind⟩

theorem Blooms.neverPruned {set : SplitSet} {split : Split} {posts : PostMap}
    (h : Blooms posts ((set.summary split).getD [])) (hlen : ((set.summary split).getD []).length < 2 ^ 32) :
    NeverPruned set split posts := by
  intro keys d hkeys
  obtain ⟨rs, htag, hsum, hbloom⟩ := h
  have hfind := SummaryOf.findTlv_eq ⟨hsum, htag, hlen⟩ summaryTagBloom
  unfold SplitSet.prunedByBloom SplitSet.bloom
  cases hs : set.summary split with
  | none => rfl
  | some summary =>
    rw [hs, Option.getD_some] at hfind
    rw [Option.bind_some, hfind]
    cases hr : recordOf rs summaryTagBloom with
    | none => rfl
    | some payload =>
      obtain ⟨bitsPerKey, rfl⟩ := hbloom payload hr
      show keys.any _ = false
      rw [List.any_eq_false]
      intro k hk
      rw [bloomContains_build (mem_keys_of_mem_docs (hkeys k hk))]
      decide

/-- Records of other tags after the filter. -/
theorem Blooms.append {posts : PostMap} {summary : Bytes} (h : Blooms posts summary) {more : List (Nat × Bytes)}
    (hmore : ∀ r ∈ more, r.1 < 256 ∧ r.1 ≠ summaryTagBloom) :
    Blooms posts (summary ++ more.flatMap fun r => tlvRecord r.1 r.2) := by
  obtain ⟨rs, htag, rfl, hbloom⟩ := h
  refine ⟨rs ++ more, fun r hr => ?_, List.flatMap_append.symm, fun b hb => ?_⟩
  · exact (List.mem_append.mp hr).elim (htag r) fun hr => (hmore r hr).1
  · rw [recordOf_append, recordOf_eq_none fun r hr => (hmore r hr).2, Option.or_none] at hb
    exact hbloom b hb

theorem blooms_nil (posts : PostMap) : Blooms posts [] :=
  ⟨[], fun _ h => absurd h List.not_mem_nil, rfl, fun _ h => by cases h⟩

theorem blooms_filter (posts : PostMap) (bitsPerKey : Nat) :
    Blooms posts (tlvRecord summaryTagBloom (bloomBuild posts.keys bitsPerKey)) := by
  refine ⟨[(summaryTagBloom, bloomBuild posts.keys bitsPerKey)], fun r hr => ?_, ?_, fun b hb => ?_⟩
  · rw [List.mem_singleton.mp hr]
    exact (show summaryTagBloom < 256 by decide)
  · rw [List.flatMap_singleton]
  · exact ⟨bitsPerKey, (Option.some.inj hb).symm⟩

/-- What a split was written from: its file is the index of the postings, its filter is over their keys. -/
structure WrittenFrom [Roaring] (posts : PostMap) (bytes : Bytes) (spec : SplitSpec) : Prop where
  file : ∃ gramSize stride caseFold,
    writeIndexWith gramSize stride (serializeEntries posts.toList) caseFold = .ok bytes
  byteSize : spec.byteSize = bytes.length
  blooms : Blooms posts spec.summary

/-! ## The builder's splits -/

section

variable [Roaring] [Unicode]

/-- The records that a seal adds for the facets: the presence keys if there are any, and no filter or tombstone. -/
theorem sealFacetSidecar_records {m : FacetMap} {cfg : FacetSealCfg} {more : Bytes} {sidecar : NamedFiles}
    (h : sealFacetSidecar m cfg = .ok (more, sidecar)) : ∃ rs : List (Nat × Bytes),
      more = (rs.flatMap fun r => tlvRecord r.1 r.2) ∧
      (∀ r ∈ rs, r.1 < 256 ∧ r.1 ≠ summaryTagBloom ∧ r.1 ≠ summaryTagTombstone) ∧
      recordOf rs summaryTagFacet = if m.isEmpty then none else some (facetPresence m cfg.caseNormalization) := by
  rcases sealFacetSidecar_ok h with ⟨hempty, rfl, -⟩ | ⟨hsome, bytes, digest, -, hd, rfl, -⟩
  · rw [hempty]
    exact ⟨[], rfl, fun _ h => absurd h List.not_mem_nil, rfl⟩
  · obtain ⟨rs, rfl, hrs⟩ : ∃ rs : List (Nat × Bytes), digest = (rs.flatMap fun r => tlvRecord r.1 r.2) ∧
        ∀ r ∈ rs, r.1 = summaryTagFacetDigest ∨ r.1 = summaryTagFacetDigestV2 := by
      unfold facetDigestRecord at hd
      split at hd
      · exact ⟨[], (Except.ok.inj hd).symm, fun _ h => absurd h List.not_mem_nil⟩
      · simp only at hd
        split at hd
        · next d _ =>
          refine ⟨[(if cfg.digestV2 then summaryTagFacetDigestV2 else summaryTagFacetDigest, d)], ?_, fun r hr => ?_⟩
          · rw [← Except.ok.inj hd, List.flatMap_singleton]
          · rw [List.mem_singleton.mp hr]
            cases cfg.digestV2
            · exact Or.inl rfl
            · exact Or.inr rfl
        · cases hd
    rw [hsome]
    refine ⟨(summaryTagFacet, facetPresence m cfg.caseNormalization) :: rs, rfl, fun r hr => ?_, rfl⟩
    rcases List.mem_cons.mp hr with rfl | hr
    · exact (show summaryTagFacet < 256 ∧ summaryTagFacet ≠ summaryTagBloom ∧ summaryTagFacet ≠ summaryTagTombstone by
        decide)
    · rcases hrs r hr with htag | htag
      · rw [htag]
        exact ⟨by decide, by decide, by decide⟩
      · rw [htag]
        exact ⟨by decide, by decide, by decide⟩

theorem Blooms.sealFacets {posts : PostMap} {summary : Bytes} (h : Blooms posts summary) {m : FacetMap}
    {cfg : FacetSealCfg} {more : Bytes} {sidecar : NamedFiles} (hs : sealFacetSidecar m cfg = .ok (more, sidecar)) :
    Blooms posts (summary ++ more) := by
  obtain ⟨rs, rfl, hrs, -⟩ := sealFacetSidecar_records hs
  exact h.append fun r hr => ⟨(hrs r hr).1, (hrs r hr).2.1⟩

omit [Roaring] [Unicode] in
theorem blooms_bloomRecord (posts : PostMap) (bitsPerKey : Nat) :
    Blooms posts (SplitSetBuilder.bloomRecord bitsPerKey posts) := by
  unfold SplitSetBuilder.bloomRecord
  split
  · exact blooms_filter posts bitsPerKey
  · exact blooms_nil posts

omit [Roaring] [Unicode] in
theorem tier_lt (policy : Policy) (idx : Nat) : SplitSetBuilder.tier policy idx < 2 ^ 16 := by
  unfold SplitSetBuilder.tier
  split
  · omega
  · decide

/-- A seal adds nothing, or one split written from the open postings. -/
theorem seal_cases {b b' : SplitSetBuilder} (h : b.seal = .ok b') : b' = b ∨ ∃ spec bytes sidecar,
    WrittenFrom b.openPosts bytes spec ∧ (spec.byteSize < u64Bound → spec.InRange) ∧
    b' = { b with
      openPosts := ∅
      openFacets := ∅
      specs := b.specs ++ [spec]
      blobs := b.blobs ++ [(spec.dataFile, bytes)]
      facetBlobs := b.facetBlobs ++ sidecar
      openCount := wrapAdd 0 0
      globalBase := b.nextGlobalId
      postingsUpper := 0 } := by
  rcases SplitSetBuilder.seal_inv h with ⟨-, rfl⟩ | ⟨-, bytes, facets, sidecar, hbytes, hside, rfl⟩
  · exact Or.inl rfl
  · refine Or.inr ⟨_, bytes, sidecar, ⟨⟨_, _, _, hbytes⟩, rfl, ?_⟩, fun hsize => ?_, rfl⟩
    · exact (blooms_bloomRecord b.openPosts b.bloomBitsPerKey).sealFacets hside
    · refine ⟨?_, b.openCount.isLt, b.globalBase.isLt, Fin.isLt _, Nat.two_pow_pos 16, hsize, Nat.two_pow_pos 64⟩
      exact tier_lt _ _

/-- What holds of a build at any time, whichever of its calls have failed. -/
structure BuildRun.Built (r : BuildRun) : Prop where
  byteCap_lt : r.builder.byteCap < 2 ^ 64
  gramSize_lt : r.builder.gramSize < 2 ^ 16
  column_lt : ∀ sc ∈ r.builder.sortcol, sc.column < 2 ^ 16
  splits : List.Forall₂ (fun spec f => spec.dataFile = f.1 ∧ ∃ posts, WrittenFrom posts f.2 spec) r.builder.specs
    (r.files ++ r.builder.blobs)
  specs : ∀ spec ∈ r.builder.specs, spec.byteSize < u64Bound → spec.InRange

namespace BuildRun

variable {r : BuildRun}

theorem Built.seal (h : r.Built) {b : SplitSetBuilder} (hs : r.builder.seal = .ok b) : ({ r with builder := b } : BuildRun).Built := by
  rcases seal_cases hs with rfl | ⟨spec, bytes, sidecar, hwritten, hrange, rfl⟩
  · exact h
  · refine ⟨h.byteCap_lt, h.gramSize_lt, h.column_lt, ?_, fun s hs => ?_⟩
    · show List.Forall₂ _ (r.builder.specs ++ [spec]) (r.files ++ (r.builder.blobs ++ [(spec.dataFile, bytes)]))
      rw [← List.append_assoc]
      exact List.rel_append h.splits (List.Forall₂.cons ⟨rfl, _, hwritten⟩ List.Forall₂.nil)
    · rcases List.mem_append.mp hs with hs | hs
      · exact h.specs s hs
      · rw [List.mem_singleton.mp hs]
        exact hrange

theorem Built.add (h : r.Built) (keys : List Key) (facets : List (String × String)) : (r.add keys facets).2.Built := by
  unfold BuildRun.add
  cases hadd : r.builder.addInner keys facets with
  | error e =>
    show ({ r with builder := r.builder.sealFailed } : BuildRun).Built
    unfold SplitSetBuilder.sealFailed
    split
    · exact ⟨h.byteCap_lt, h.gramSize_lt, h.column_lt, h.splits, h.specs⟩
    · exact ⟨h.byteCap_lt, h.gramSize_lt, h.column_lt, h.splits, h.specs⟩
  | ok x =>
    unfold SplitSetBuilder.addInner at hadd
    obtain ⟨b, hb, hadd⟩ := exists_of_bind_ok hadd
    obtain rfl := Except.ok.inj hadd
    have hsealed : ({ r with builder := b } : BuildRun).Built := by
      unfold SplitSetBuilder.sealIfFull at hb
      split at hb
      · exact h.seal hb
      · obtain rfl := Except.ok.inj hb
        exact h
    exact ⟨hsealed.byteCap_lt, hsealed.gramSize_lt, hsealed.column_lt, hsealed.splits, hsealed.specs⟩

theorem Built.call (h : r.Built) (c : BuildCall) : (r.call c).2.Built := by
  cases c with
  | addFaceted text facets => exact h.add _ _
  | addKeys keys => exact h.add _ _
  | drainSealed =>
    refine ⟨h.byteCap_lt, h.gramSize_lt, h.column_lt, ?_, h.specs⟩
    show List.Forall₂ _ r.builder.specs ((r.files ++ r.builder.blobs) ++ [])
    rw [List.append_nil]
    exact h.splits

/-- **A build writes every split from the postings of its file.** -/
theorem built_calls (h : r.Built) (cs : List BuildCall) : (r.calls cs).2.Built := by
  induction cs generalizing r with
  | nil => exact h
  | cons c cs ih => exact ih (h.call c)

omit [Unicode] in
theorem built_start (config : SplitBuildConfig) (top : Nat) (v2 : Bool) :
    (⟨SplitSetBuilder.start config top v2, [], []⟩ : BuildRun).Built := by
  have hcap := config.fits.byteCap_lt
  have hgram := config.fits.gramSize_lt
  have hcol := config.fits.sortcol_lt
  cases v2 with
  | false => exact ⟨hcap, hgram, hcol, List.Forall₂.nil, fun _ h => absurd h List.not_mem_nil⟩
  | true => exact ⟨hcap, hgram, hcol, List.Forall₂.nil, fun _ h => absurd h List.not_mem_nil⟩

/-- The manifest that `finish` emits opens, and no split it tells of is pruned wrongly. -/
theorem Built.finish (h : r.Built) {built : BuiltSplitSet} (hfin : r.builder.finish = .ok built)
    (hfiles : ∀ f ∈ r.files ++ built.splits, f.2.length < u64Bound) (hlen : built.manifest.length < u64Bound) :
    ∃ set, SplitSet.fromBytes built.manifest = .ok set ∧
      List.Forall₂ (fun split f => split.dataFile = f.1 ∧ ∃ posts,
        WrittenFrom posts f.2 (SplitSetWriter.carried set split) ∧ NeverPruned set split posts)
        set.splits (r.files ++ built.splits) := by
  unfold SplitSetBuilder.finish at hfin
  obtain ⟨b, hb, hfin⟩ := exists_of_bind_ok hfin
  obtain ⟨manifest, hm, hfin⟩ := exists_of_bind_ok hfin
  obtain rfl := Except.ok.inj hfin
  have hbuilt := h.seal hb
  have hwrite : writeSplitset b.specs b.manifestConfig = .ok manifest := by
    unfold SplitSetBuilder.manifest at hm
    split at hm
    · cases hm
    · exact hm
  have hsize : ∀ spec ∈ b.specs, spec.InRange := by
    intro spec hspec
    obtain ⟨f, hf, -, posts, hwritten⟩ := exists_partner hbuilt.splits hspec
    refine hbuilt.specs spec hspec ?_
    rw [hwritten.byteSize]
    exact hfiles f hf
  have hconfig : b.manifestConfig.InRange := by
    refine ⟨?_, ?_, hbuilt.byteCap_lt, hbuilt.gramSize_lt, fun sc hsc => hbuilt.column_lt sc hsc⟩
    · unfold SplitSetBuilder.manifestConfig
      simp only
      split <;> split <;> split <;> decide
    · show SplitSetBuilder.tier b.policy b.specs.length < 2 ^ 16
      exact tier_lt _ _
  obtain ⟨set, hset, -, hdescribes⟩ := exists_manifest hconfig hsize hwrite hlen
  refine ⟨set, hset, ?_⟩
  have hcarried := SplitSetWriter.carried_of_describes hdescribes
  have hall := hbuilt.splits
  have hlt := (writeSplitset_fits hwrite).summary_lt
  show List.Forall₂ _ set.splits (r.files ++ b.blobs)
  rw [show (BuildRun.mk b r.files r.facetFiles).builder.specs = b.specs from rfl, ← hcarried,
    List.forall₂_map_left_iff] at hall
  have hlt' : ∀ split ∈ set.splits, ((set.summary split).getD []).length < 2 ^ 32 := by
    intro split hsplit
    exact hlt _ (hcarried ▸ List.mem_map_of_mem hsplit)
  refine ((List.forall₂_and_left _ _).mpr ⟨hlt', hall⟩).imp fun split f hf => ?_
  obtain ⟨hlen, hname, posts, hwritten⟩ := hf
  exact ⟨hname, posts, hwritten, Blooms.neverPruned hwritten.blooms hlen⟩

end BuildRun

end

/-! ## The writer's splits -/

section

variable [Roaring]

/-- Every split was written from postings. -/
def Told (specs : List SplitSpec) : Prop := ∀ spec ∈ specs, ∃ posts bytes, WrittenFrom posts bytes spec

theorem blooms_newSummary (w : SplitSetWriter) (posts : PostMap) (wanted : Bool) (dead : Bitmap) :
    Blooms posts (w.bloomTlv posts.keys wanted ++ SplitSetWriter.tombstoneRecord dead) := by
  have hbloom : Blooms posts (w.bloomTlv posts.keys wanted) := by
    unfold SplitSetWriter.bloomTlv
    split
    · exact blooms_filter posts w.bloomBitsPerKey
    · exact blooms_nil posts
  unfold SplitSetWriter.tombstoneRecord
  split
  · rwa [List.append_nil]
  · have htag : ∀ r ∈ [(summaryTagTombstone, serialize dead)], r.1 < 256 ∧ r.1 ≠ summaryTagBloom := by
      intro r hr
      rw [List.mem_singleton.mp hr]
      exact (show summaryTagTombstone < 256 ∧ summaryTagTombstone ≠ summaryTagBloom by decide)
    have happ := hbloom.append htag
    rwa [List.flatMap_singleton] at happ

theorem writtenFrom_deltaSpec {w : SplitSetWriter} {bytes : Bytes} (h : w.indexFile w.memtable = .ok bytes) :
    WrittenFrom w.memtable bytes (w.deltaSpec bytes.length) :=
  ⟨⟨_, _, _, h⟩, rfl, blooms_newSummary w w.memtable _ _⟩

theorem writtenFrom_mergedSpec {w : SplitSetWriter} (inputs : List (String × Bytes)) {merged : PostMap} (dead : Bitmap)
    {bytes : Bytes} (h : w.indexFile merged = .ok bytes) :
    WrittenFrom merged bytes (w.mergedSpec inputs merged dead bytes.length) :=
  ⟨⟨_, _, _, h⟩, rfl, blooms_newSummary w merged _ _⟩

theorem Told.snoc {specs : List SplitSpec} (h : Told specs) {posts : PostMap} {bytes : Bytes} {spec : SplitSpec}
    (hs : WrittenFrom posts bytes spec) : Told (specs ++ [spec]) := by
  intro s hmem
  rcases List.mem_append.mp hmem with hmem | hmem
  · exact h s hmem
  · rw [List.mem_singleton.mp hmem]
    exact ⟨posts, bytes, hs⟩

namespace Session

variable {σ σ' : Session}

/-- Every split the writer or the manifest tells of was written from postings. -/
structure AllTold (σ : Session) : Prop where
  sized : σ.writer.Sized
  writer : Told σ.writer.specs
  published : Told σ.published

theorem AllTold.step {l : WriterCall × WriterOutcome} (h : σ.AllTold) (hs : σ.Step l σ') : σ'.AllTold := by
  have hsized := sized_step h.sized hs
  obtain ⟨hcall, hmem⟩ := hs
  obtain ⟨c, o⟩ := l
  cases call_effect hcall with
  | added keys => exact ⟨hsized, h.writer, h.published⟩
  | deleted globalId => exact ⟨hsized, h.writer, h.published⟩
  | idle hcount hdel => exact h
  | flushFailed bytes e hsome hfile hemit =>
    exact ⟨hsized, h.writer.snoc (writtenFrom_deltaSpec hfile), h.published⟩
  | flushed bytes manifest hsome hfile hemit =>
    have htold := h.writer.snoc (writtenFrom_deltaSpec hfile)
    have hw : (σ.writer.flushed bytes.length).Sized := hsized
    refine ⟨hsized, htold, ?_⟩
    rw [published_put hw hemit (hmem.manifest_lt manifest rfl)]
    exact htold
  | refused inputs e hgather => exact h
  | compactFailed inputs merged dead bytes e hgather hfile hemit =>
    have hkept : Told (σ.writer.kept inputs) := fun s hs => h.writer s (List.mem_of_mem_filter hs)
    exact ⟨hsized, hkept.snoc (writtenFrom_mergedSpec inputs dead hfile), h.published⟩
  | compacted inputs merged dead bytes manifest hgather hfile hemit =>
    have hkept : Told (σ.writer.kept inputs) := fun s hs => h.writer s (List.mem_of_mem_filter hs)
    have htold := hkept.snoc (writtenFrom_mergedSpec inputs dead hfile)
    have hw : (σ.writer.compacted inputs (SplitSetWriter.surviving merged dead) dead bytes.length).Sized := hsized
    refine ⟨hsized, htold, ?_⟩
    rw [published_put hw hemit (hmem.manifest_lt manifest rfl)]
    exact htold
  | resumed args bytes prev hm hprev =>
    refine ⟨hsized, ?_, h.published⟩
    show Told (prev.splits.map (SplitSetWriter.carried prev))
    rw [← published_of_fromBytes hm hprev]
    exact h.published

/-- **A writer writes every split from the postings of its file**, on any calls, errors and resumes. -/
theorem told_run {σ₀ : Session} {tr : List (WriterCall × WriterOutcome)} (h₀ : Starts σ₀) (htold : Told σ₀.published)
    (h : Run Step σ₀ tr σ) : Told σ.published := by
  have hstart : σ₀.AllTold := by
    refine ⟨sized_starts h₀, ?_, htold⟩
    cases h₀ with
    | fresh config => exact fun _ hmem => absurd hmem List.not_mem_nil
    | reopened bytes files prev args hlen hprev =>
      show Told (prev.splits.map (SplitSetWriter.carried prev))
      rw [published_of_fromBytes rfl hprev] at htold
      exact htold
  exact (h.invariant (I := fun _ (τ : Session) => τ.AllTold) hstart fun _ _ _ _ hI hs => hI.step hs).published

/-- **What a call emits**: the index of some postings under a name, and a manifest with a split of that name that is
written from them. -/
theorem emitted_writtenFrom {c : WriterCall} {name : String} (h : σ.writer.Sized) (hs : σ.Step (c, .emitted name) σ') :
    ∃ posts bytes spec, σ'.files = (name, bytes) :: σ.files ∧ spec ∈ σ'.published ∧ spec.dataFile = name ∧
      WrittenFrom posts bytes spec := by
  have hsized := sized_step h hs
  obtain ⟨hcall, hmem⟩ := hs
  cases call_effect hcall with
  | flushed bytes manifest hsome hfile hemit =>
    have hw : (σ.writer.flushed bytes.length).Sized := hsized
    refine ⟨σ.writer.memtable, bytes, σ.writer.deltaSpec bytes.length, rfl, ?_, rfl, writtenFrom_deltaSpec hfile⟩
    rw [published_put hw hemit (hmem.manifest_lt manifest rfl)]
    exact List.mem_append_right _ (List.mem_singleton_self _)
  | compacted inputs merged dead bytes manifest hgather hfile hemit =>
    have hw : (σ.writer.compacted inputs (SplitSetWriter.surviving merged dead) dead bytes.length).Sized := hsized
    refine ⟨SplitSetWriter.surviving merged dead, bytes, _, rfl, ?_, rfl, writtenFrom_mergedSpec inputs dead hfile⟩
    rw [published_put hw hemit (hmem.manifest_lt manifest rfl)]
    exact List.mem_append_right _ (List.mem_singleton_self _)

/-- The manifest in store opens only as a set that prunes no split wrongly. -/
theorem neverPruned_of_told {bytes : Bytes} {set : SplitSet} (hm : σ.manifest = some bytes)
    (hset : SplitSet.fromBytes bytes = .ok set) (h : Told σ.published) : ∀ split ∈ set.splits, ∃ posts file,
      WrittenFrom posts file (SplitSetWriter.carried set split) ∧ NeverPruned set split posts := by
  intro split hsplit
  rw [published_of_fromBytes hm hset] at h
  obtain ⟨posts, file, hwritten⟩ := h _ (List.mem_map_of_mem hsplit)
  exact ⟨posts, file, hwritten, Blooms.neverPruned hwritten.blooms (fromBytes_summary_lt hset split hsplit)⟩

end Session

end

/-! ## No false negative -/

/-- A filter over the keys is built, it has each of them, and it is probed where it lies as it is in memory. -/
def BloomKeeps (checks : Bool) (keys : List Key) (bitsPerKey : Nat) : Prop :=
  ∃ bloom, bloomBuilt checks keys bitsPerKey = .ok bloom ∧ (∀ k ∈ keys, bloomContains bloom k = true) ∧
    ∃ remote, Settles (RemoteBloom.open (MemoryFetch.new bloom)) (.ok remote) ∧
      ∀ asked, Settles (remote.containsAll asked) (.ok (asked.all (bloomContains bloom)))

theorem bloomFits_nil (checks : Bool) {bitsPerKey : Nat} (h : bitsPerKey < u32Bound) : BloomFits checks 0 bitsPerKey := by
  have h32 : u32Bound = 2 ^ 32 := rfl
  unfold BloomFits u64Bound
  rw [show max 0 1 = 1 from rfl, Nat.one_mul]
  split
  · omega
  · omega

theorem bloomKeeps_iff (checks : Bool) (keys : List Key) {bitsPerKey : Nat} (h : bitsPerKey < u32Bound) :
    BloomKeeps checks keys bitsPerKey ↔ BloomFits checks keys.length bitsPerKey := by
  constructor
  · rintro ⟨bloom, hbuilt, -⟩
    by_contra hnot
    have hne : keys ≠ [] := by
      rintro rfl
      exact hnot (bloomFits_nil checks h)
    obtain ⟨t, htrap⟩ := bloomBuilt_traps hne hnot
    rw [htrap] at hbuilt
    cases hbuilt
  · intro hfits
    obtain ⟨hbuilt, hpos⟩ := bloomBuilt_of_fits hfits
    have hne : bloomBits keys.length bitsPerKey ≠ 0 := by omega
    refine ⟨_, hbuilt, fun k hk => bloomContains_build hk, _, settles_openRemote hne, fun asked => ?_⟩
    exact settles_containsAll hne asked

/-- **When a filter turns away no key it was built over**, remotely as in memory: its size fits.  No split with a document
for the query is pruned. -/
theorem bloom_no_false_negative [Roaring] [Unicode] :
    (∀ checks keys bitsPerKey, bitsPerKey < u32Bound →
      (BloomKeeps checks keys bitsPerKey ↔ BloomFits checks keys.length bitsPerKey)) ∧
    (∀ config top v2 calls, let run := ((⟨SplitSetBuilder.start config top v2, [], []⟩ : BuildRun).calls calls).2
      ∀ built, run.builder.finish = .ok built → (∀ f ∈ run.files ++ built.splits, f.2.length < u64Bound) →
        built.manifest.length < u64Bound → ∃ set, SplitSet.fromBytes built.manifest = .ok set ∧
          List.Forall₂ (fun split f => split.dataFile = f.1 ∧ ∃ posts,
            WrittenFrom posts f.2 (SplitSetWriter.carried set split) ∧ NeverPruned set split posts)
            set.splits (run.files ++ built.splits)) ∧
    ∀ σ₀ tr σ, Session.Starts σ₀ → Told σ₀.published → Run Session.Step σ₀ tr σ →
      (∀ bytes set, σ.manifest = some bytes → SplitSet.fromBytes bytes = .ok set → ∀ split ∈ set.splits,
        ∃ posts file, WrittenFrom posts file (SplitSetWriter.carried set split) ∧ NeverPruned set split posts) ∧
      ∀ c name σ', σ.Step (c, .emitted name) σ' → ∃ posts bytes spec, σ'.files = (name, bytes) :: σ.files ∧
        spec ∈ σ'.published ∧ spec.dataFile = name ∧ WrittenFrom posts bytes spec := by
  refine ⟨fun checks keys bitsPerKey h => bloomKeeps_iff checks keys h, ?_, ?_⟩
  · intro config top v2 calls run built hfin hfiles hlen
    exact (BuildRun.built_calls (BuildRun.built_start config top v2) calls).finish hfin hfiles hlen
  · intro σ₀ tr σ h₀ htold hrun
    refine ⟨fun bytes set hm hset => ?_, fun c name σ' hs => ?_⟩
    · exact Session.neverPruned_of_told hm hset (Session.told_run h₀ htold hrun)
    · exact Session.emitted_writtenFrom (Session.sized_run h₀ hrun) hs

section

attribute [local instance] PortableCodec.roaring asciiUnicode

/-- A writer that keeps filters of 10 bits per key. -/
def bloomedSession : Session := ⟨.new { SplitSetWriter.namedConfig "p" with bloomBitsPerKey := 10 }, none, []⟩

def bloomedKey : Key := ⟨11, by decide⟩

/-- More keys than `u32` has numbers, at the most bits for each: the size is past `u64` once it is rounded. -/
theorem bloom_traps : ¬ BloomKeeps true (List.replicate (2 ^ 32 + 1) bloomedKey) (2 ^ 32 - 1) ∧
    ¬ BloomKeeps false (List.replicate (2 ^ 32 + 1) bloomedKey) (2 ^ 32 - 1) := by
  rw [bloomKeeps_iff _ _ (by decide), bloomKeeps_iff _ _ (by decide), List.length_replicate]
  unfold BloomFits u64Bound
  decide

/-- A document of one key is flushed, and its split has a filter, which turns away another key only. -/
theorem bloom_no_false_negative_flushed : BloomKeeps false [bloomedKey, lossyKey] 10 ∧
    ∃ tr σ bytes set split posts file, Run Session.Step bloomedSession tr σ ∧ σ.manifest = some bytes ∧
      SplitSet.fromBytes bytes = .ok set ∧ set.splits = [split] ∧ set.prunedByBloom split [lossyKey] = true ∧
      WrittenFrom posts file (SplitSetWriter.carried set split) ∧ NeverPruned set split posts := by
  have hcheck : ((bloomedSession.replay [.addKeys [bloomedKey], .flush]).bind fun r => r.2.manifest.bind fun bytes =>
      (SplitSet.fromBytes bytes).toOption.map fun set =>
        (set.splits.length, set.splits.all fun split => set.prunedByBloom split [lossyKey])) = some (1, true) := by
    decide +kernel
  obtain ⟨⟨tr, σ⟩, hreplay, hcheck⟩ := Option.bind_eq_some_iff.mp hcheck
  obtain ⟨bytes, hm, hcheck⟩ := Option.bind_eq_some_iff.mp hcheck
  obtain ⟨set, hset, hcheck⟩ := Option.map_eq_some_iff.mp hcheck
  have hset' : SplitSet.fromBytes bytes = .ok set := by
    cases h : SplitSet.fromBytes bytes with
    | error e =>
      rw [h] at hset
      cases hset
    | ok s =>
      rw [h] at hset
      exact congrArg Except.ok (Option.some.inj hset)
  obtain ⟨hone, hprune⟩ := Prod.mk.inj hcheck
  obtain ⟨split, hsplits⟩ := List.length_eq_one_iff.mp hone
  have hmem : split ∈ set.splits := hsplits ▸ List.mem_singleton_self split
  have hrun := Session.run_of_replay Run.start hreplay
  have htold : Told bloomedSession.published := fun _ h => absurd h List.not_mem_nil
  have hall := bloom_no_false_negative
  obtain ⟨posts, file, hwritten, hpruned⟩ := (hall.2.2 bloomedSession tr σ (.fresh _) htold hrun).1 bytes set hm hset' split
    hmem
  exact ⟨(hall.1 false [bloomedKey, lossyKey] 10 (by decide)).mpr (by unfold BloomFits; decide), tr, σ, bytes, set, split, posts, file, hrun, hm,
    hset', hsplits, List.all_eq_true.mp hprune split hmem, hwritten, hpruned⟩

end

end RoaringRange
