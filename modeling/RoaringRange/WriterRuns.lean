import RoaringRange.Lib.Runs
import RoaringRange.SplitSetWriter

/-!
# The life of a writer (`splitset_write.rs`)

A session is a writer with its client's store: the manifest last emitted and the files.  The writer may be dropped at
any point and resumed from that manifest; nothing else of it is kept.  What a manifest tells of the splits is what the
writer held when it emitted it, so what holds of the splits carries over to the resumed writer.

    opening an emitted manifest gives what its writer held                        (Sized.exists_resumes)
    every writer of a session has its numbers within their types                              (sized_run)
-/

namespace RoaringRange

open ByteString Faults Slices Runs

/-! ## Sessions -/

/-- The arguments of a resume that the manifest does not record. -/
structure ResumeArgs where
  gramSize : Nat
  stride : Nat
  namePrefix : String
  bloomBitsPerKey : Nat
  gramSize_lt : gramSize < 2 ^ 16
  stride_lt : stride < 2 ^ 32

/-- A call of the writer, or its end and a resume. -/
inductive WriterCall where
  | addKeys (keys : List Key)
  | delete (globalId : Fin u32Bound)
  | flush
  | compact (inputs : List (String × Bytes))
  | resume (args : ResumeArgs)

/-- What a call comes back with. -/
inductive WriterOutcome where
  | added (globalId : Nat)
  | nothing
  | failed (message : String)
  | emitted (name : String)
  deriving DecidableEq

/-- A writer and its client's store. -/
structure Session where
  writer : SplitSetWriter
  manifest : Option Bytes
  files : NamedFiles

namespace Session

/-- The writer resumed from the manifest last emitted. -/
def resumed (σ : Session) (args : ResumeArgs) (prev : SplitSet) : Session :=
  { σ with writer := .resume prev args.gramSize args.stride args.namePrefix args.bloomBitsPerKey }

/-- The client puts the new split and then the manifest. -/
def put (σ : Session) (w : SplitSetWriter) (name : String) (bytes manifest : Bytes) : Session :=
  ⟨w, some manifest, (name, bytes) :: σ.files⟩

section

variable [Roaring]

/-- One call; none where there is no manifest to resume from. -/
def call (σ : Session) : WriterCall → Option (WriterOutcome × Session)
  | .addKeys keys => some (.added (σ.writer.addKeys keys).1.val, { σ with writer := (σ.writer.addKeys keys).2 })
  | .delete globalId => some (.nothing, { σ with writer := σ.writer.delete globalId })
  | .flush =>
    match σ.writer.flush with
    | (.error e, w) => some (.failed e, { σ with writer := w })
    | (.ok none, w) => some (.nothing, { σ with writer := w })
    | (.ok (some out), w) => some (.emitted out.splitName, σ.put w out.splitName out.splitBytes out.manifest)
  | .compact inputs =>
    match σ.writer.compact inputs with
    | (.error e, w) => some (.failed e, { σ with writer := w })
    | (.ok out, w) => some (.emitted out.splitName, σ.put w out.splitName out.splitBytes out.manifest)
  | .resume args =>
    match σ.manifest.map SplitSet.fromBytes with
    | some (.ok prev) => some (.nothing, σ.resumed args prev)
    | _ => none

/-- Files and manifest are byte vectors in memory. -/
structure InMemory (σ : Session) : Prop where
  byteSize_lt : ∀ s ∈ σ.writer.specs, s.byteSize < u64Bound
  manifest_lt : ∀ b, σ.manifest = some b → b.length < u64Bound

instance (σ : Session) : Decidable σ.InMemory :=
  decidable_of_iff ((∀ s ∈ σ.writer.specs, s.byteSize < u64Bound) ∧ ∀ b ∈ σ.manifest.toList, b.length < u64Bound)
    ⟨fun h => ⟨h.1, fun b hb => h.2 b (Option.mem_toList.mpr hb)⟩,
      fun h => ⟨h.byteSize_lt, fun b hb => h.manifest_lt b (Option.mem_toList.mp hb)⟩⟩

/-- One call of a run. -/
def Step (σ : Session) (l : WriterCall × WriterOutcome) (σ' : Session) : Prop :=
  σ.call l.1 = some (l.2, σ') ∧ σ'.InMemory

end

/-- A session begins with a fresh writer, or with one that is resumed over a manifest. -/
inductive Starts : Session → Prop
  | fresh (config : WriterConfig) : Starts ⟨.new config, none, []⟩
  | reopened (bytes : Bytes) (files : NamedFiles) (prev : SplitSet) (args : ResumeArgs) (hlen : bytes.length < u64Bound)
      (hprev : SplitSet.fromBytes bytes = .ok prev) :
      Starts ⟨.resume prev args.gramSize args.stride args.namePrefix args.bloomBitsPerKey, some bytes, files⟩

end Session

/-! ## A manifest's splits -/

/-- The fields of a split entry are within their types. -/
theorem parseSplit_inRange {body stringBlob : Bytes} {summaryBytes base : Nat} {split : Split}
    (h : parseSplit body stringBlob summaryBytes base = .ok split) (prev : SplitSet) :
    (SplitSetWriter.carried prev split).InRange := by
  unfold parseSplit at h
  cases hname : readSplitName stringBlob (getLe 4 body base) (getLe 2 body (base + 4)) with
  | error e =>
    rw [hname] at h
    cases h
  | ok name =>
    simp only [hname, bind, Except.bind] at h
    split at h
    · cases h
    · split at h
      · cases h
      · rw [← Except.ok.inj h]
        exact ⟨getLe_lt 2 _ _, getLe_lt 4 _ _, getLe_lt 4 _ _, getLe_lt 4 _ _, getLe_lt 2 _ _, getLe_lt 8 _ _,
          getLe_lt 8 _ _⟩

theorem parseSplit_summaryLen_lt {body stringBlob : Bytes} {summaryBytes base : Nat} {split : Split}
    (h : parseSplit body stringBlob summaryBytes base = .ok split) : split.summaryLen < 2 ^ 32 := by
  unfold parseSplit at h
  obtain ⟨name, -, h⟩ := exists_of_bind_ok h
  simp only at h
  split at h
  · cases h
  · split at h
    · cases h
    · rw [← Except.ok.inj h]
      exact getLe_lt 4 _ _

/-- A manifest that opens tells of splits and a configuration in their ranges. -/
theorem fromBytes_inRange {b : Bytes} {prev : SplitSet} (h : SplitSet.fromBytes b = .ok prev) :
    prev.byteCap < 2 ^ 64 ∧ prev.tierCount < 2 ^ 16 ∧ prev.baseCount < u32Bound ∧
      (∀ sc, prev.sortcol = some sc → sc.column < 2 ^ 16) ∧
      ∀ s ∈ prev.splits, (SplitSetWriter.carried prev s).InRange := by
  unfold SplitSet.fromBytes at h
  cases hlen : SplitSet.bodyLen b with
  | error e => simp only [hlen, bind, Except.bind] at h; cases h
  | ok n =>
    simp only [hlen, bind, Except.bind] at h
    split at h
    · cases h
    · obtain ⟨policy, kind, sortcol, splits, -, hsort, hsplits, rfl⟩ := parse_ok h
      refine ⟨getLe_lt 8 _ _, getLe_lt 2 _ _, getLe_lt 4 _ _, fun sc hsc => ?_, fun s hs => ?_⟩
      · simp only at hsc
        subst hsc
        unfold SplitSet.parseSortcol at hsort
        split at hsort
        · cases hname : readSplitName (slice (slice b rrssHeaderSize n)
              (getLe 4 (slice b 0 rrssHeaderSize) 12 * rrssEntrySize) (getLe 4 (slice b 0 rrssHeaderSize) 20))
              (getLe 4 (slice b 0 rrssHeaderSize) 40) (getLe 2 (slice b 0 rrssHeaderSize) 44) with
          | error e => simp only [hname, bind, Except.bind] at hsort; cases hsort
          | ok name =>
            simp only [hname, bind, Except.bind, pure, Except.pure, Except.ok.injEq, Option.some.injEq] at hsort
            rw [← hsort]
            exact getLe_lt 2 _ _
        · cases hsort
      · obtain ⟨i, -, hi⟩ := List.mem_map.mp (mem_of_collect_ok hsplits hs)
        exact parseSplit_inRange hi _

/-- No summary of a manifest that opens is 2³² bytes long. -/
theorem fromBytes_summary_lt {b : Bytes} {prev : SplitSet} (h : SplitSet.fromBytes b = .ok prev) :
    ∀ s ∈ prev.splits, ((prev.summary s).getD []).length < 2 ^ 32 := by
  unfold SplitSet.fromBytes at h
  obtain ⟨n, -, h⟩ := exists_of_bind_ok h
  split at h
  · cases h
  · obtain ⟨policy, kind, sortcol, splits, -, -, hsplits, rfl⟩ := parse_ok h
    intro s hs
    obtain ⟨i, -, hi⟩ := List.mem_map.mp (mem_of_collect_ok hsplits hs)
    have hlt := parseSplit_summaryLen_lt hi
    unfold SplitSet.summary
    split
    · exact Nat.two_pow_pos 32
    · rw [Option.getD_some]
      exact lt_of_le_of_lt (List.length_take_le _ _) hlt

namespace Session

section

variable [Roaring]

/-- What a call does. -/
inductive Effect (σ : Session) : WriterCall → WriterOutcome → Session → Prop
  | added (keys : List Key) :
      Effect σ (.addKeys keys) (.added σ.writer.nextGlobalId.val) { σ with writer := (σ.writer.addKeys keys).2 }
  | deleted (globalId : Fin u32Bound) : Effect σ (.delete globalId) .nothing { σ with writer := σ.writer.delete globalId }
  | idle (hcount : σ.writer.memtableCount.val = 0) (hdel : σ.writer.pendingDeletes.isEmpty = true) :
      Effect σ .flush .nothing σ
  | flushFailed (bytes : Bytes) (e : String) (hsome : ¬ (σ.writer.memtableCount.val = 0 ∧ σ.writer.pendingDeletes.isEmpty = true))
      (hfile : σ.writer.indexFile σ.writer.memtable = .ok bytes)
      (hemit : (σ.writer.flushed bytes.length).emitManifest = .error e) :
      Effect σ .flush (.failed e) { σ with writer := σ.writer.flushed bytes.length }
  | flushed (bytes manifest : Bytes) (hsome : ¬ (σ.writer.memtableCount.val = 0 ∧ σ.writer.pendingDeletes.isEmpty = true))
      (hfile : σ.writer.indexFile σ.writer.memtable = .ok bytes)
      (hemit : (σ.writer.flushed bytes.length).emitManifest = .ok manifest) :
      Effect σ .flush (.emitted (seqName σ.writer.namePrefix "-d" σ.writer.flushSeq.val))
        (σ.put (σ.writer.flushed bytes.length) (seqName σ.writer.namePrefix "-d" σ.writer.flushSeq.val) bytes manifest)
  | refused (inputs : List (String × Bytes)) (e : String) (h : σ.writer.gather inputs = .error e) :
      Effect σ (.compact inputs) (.failed e) σ
  | compactFailed (inputs : List (String × Bytes)) (merged : PostMap) (dead : Bitmap) (bytes : Bytes) (e : String)
      (hgather : σ.writer.gather inputs = .ok (merged, dead))
      (hfile : σ.writer.indexFile (SplitSetWriter.surviving merged dead) = .ok bytes)
      (hemit : (σ.writer.compacted inputs (SplitSetWriter.surviving merged dead) dead bytes.length).emitManifest = .error e) :
      Effect σ (.compact inputs) (.failed e)
        { σ with writer := σ.writer.compacted inputs (SplitSetWriter.surviving merged dead) dead bytes.length }
  | compacted (inputs : List (String × Bytes)) (merged : PostMap) (dead : Bitmap) (bytes manifest : Bytes)
      (hgather : σ.writer.gather inputs = .ok (merged, dead))
      (hfile : σ.writer.indexFile (SplitSetWriter.surviving merged dead) = .ok bytes)
      (hemit : (σ.writer.compacted inputs (SplitSetWriter.surviving merged dead) dead bytes.length).emitManifest = .ok manifest) :
      Effect σ (.compact inputs) (.emitted (seqName σ.writer.namePrefix "-c" σ.writer.compactSeq.val))
        (σ.put (σ.writer.compacted inputs (SplitSetWriter.surviving merged dead) dead bytes.length)
          (seqName σ.writer.namePrefix "-c" σ.writer.compactSeq.val) bytes manifest)
  | resumed (args : ResumeArgs) (bytes : Bytes) (prev : SplitSet) (hmanifest : σ.manifest = some bytes)
      (hprev : SplitSet.fromBytes bytes = .ok prev) : Effect σ (.resume args) .nothing (σ.resumed args prev)

variable {σ σ' : Session} {c : WriterCall} {o : WriterOutcome}

/-- Every call does one of these things. -/
theorem call_effect (h : σ.call c = some (o, σ')) : Effect σ c o σ' := by
  cases c with
  | addKeys keys =>
    obtain ⟨rfl, rfl⟩ := Prod.mk.inj (Option.some.inj h)
    exact .added keys
  | delete globalId =>
    obtain ⟨rfl, rfl⟩ := Prod.mk.inj (Option.some.inj h)
    exact .deleted globalId
  | flush =>
    unfold call at h
    by_cases hnone : σ.writer.memtableCount.val = 0 ∧ σ.writer.pendingDeletes.isEmpty = true
    · have hflush : σ.writer.flush = (.ok none, σ.writer) := by
        unfold SplitSetWriter.flush
        rw [if_pos (by simpa using hnone)]
      rw [hflush] at h
      obtain ⟨rfl, rfl⟩ := Prod.mk.inj (Option.some.inj h)
      exact .idle hnone.1 hnone.2
    · obtain ⟨bytes, hbytes, hflush⟩ := SplitSetWriter.flush_eq hnone
      rw [hflush] at h
      cases hemit : (σ.writer.flushed bytes.length).emitManifest with
      | error e =>
        rw [hemit] at h
        obtain ⟨rfl, rfl⟩ := Prod.mk.inj (Option.some.inj h)
        exact .flushFailed bytes e hnone hbytes hemit
      | ok manifest =>
        rw [hemit] at h
        obtain ⟨rfl, rfl⟩ := Prod.mk.inj (Option.some.inj h)
        exact .flushed bytes manifest hnone hbytes hemit
  | compact inputs =>
    simp only [call] at h
    cases hgather : σ.writer.gather inputs with
    | error e =>
      have hcompact : σ.writer.compact inputs = (.error e, σ.writer) := by
        unfold SplitSetWriter.compact
        rw [hgather]
      rw [hcompact] at h
      obtain ⟨rfl, rfl⟩ := Prod.mk.inj (Option.some.inj h)
      exact .refused inputs e hgather
    | ok r =>
      obtain ⟨merged, dead⟩ := r
      obtain ⟨bytes, hbytes, hcompact⟩ := SplitSetWriter.compact_eq hgather
      rw [hcompact] at h
      cases hemit : (σ.writer.compacted inputs (SplitSetWriter.surviving merged dead) dead bytes.length).emitManifest with
      | error e =>
        rw [hemit] at h
        obtain ⟨rfl, rfl⟩ := Prod.mk.inj (Option.some.inj h)
        exact .compactFailed inputs merged dead bytes e hgather hbytes hemit
      | ok manifest =>
        rw [hemit] at h
        obtain ⟨rfl, rfl⟩ := Prod.mk.inj (Option.some.inj h)
        exact .compacted inputs merged dead bytes manifest hgather hbytes hemit
  | resume args =>
    simp only [call] at h
    cases hm : σ.manifest with
    | none =>
      rw [hm] at h
      cases h
    | some bytes =>
      cases hprev : SplitSet.fromBytes bytes with
      | error e =>
        rw [hm, Option.map_some, hprev] at h
        cases h
      | ok prev =>
        rw [hm, Option.map_some, hprev] at h
        obtain ⟨rfl, rfl⟩ := Prod.mk.inj (Option.some.inj h)
        exact .resumed args bytes prev hm hprev

end

/-- The splits that the manifest last emitted tells of. -/
def published (σ : Session) : List SplitSpec :=
  match σ.manifest.map SplitSet.fromBytes with
  | some (.ok prev) => prev.splits.map (SplitSetWriter.carried prev)
  | _ => []

end Session

/-! ## The manifest tells what the writer held -/

namespace SplitSetWriter

/-- The writer's numbers are within their types. -/
structure Sized (w : SplitSetWriter) : Prop where
  fits : WriterFits w.gramSize w.stride w.byteCap w.tierCount w.sortcol
  epoch_lt : w.nextEpoch < 2 ^ 64
  baseCount_lt : w.baseCount < u32Bound
  specs : ∀ s ∈ w.specs, s.InRange

theorem Sized.manifestConfig {w : SplitSetWriter} (h : w.Sized) : w.manifestConfig.InRange where
  flags_lt := by
    unfold SplitSetWriter.manifestConfig
    simp only
    split <;> split <;> split <;> decide
  tierCount_lt := h.fits.tierCount_lt
  byteCap_lt := h.fits.byteCap_lt
  gramSize_lt := h.fits.gramSize_lt
  column_lt := h.fits.sortcol_lt

/-- What a resume finds in the manifest of a writer. -/
structure Resumes (w : SplitSetWriter) (prev : SplitSet) : Prop where
  specs : prev.splits.map (carried prev) = w.specs
  baseCount : prev.baseCount = w.baseCount
  policy : prev.policy = w.policy
  tierCount : prev.tierCount = w.tierCount
  byteCap : prev.byteCap = w.byteCap
  flags : prev.flags = w.manifestConfig.flags
  sortcol : prev.sortcol = w.sortcol.filter fun sc => sc.name ≠ ""

/-- An open manifest carries over the splits it was written of. -/
theorem carried_of_describes {prev : SplitSet} {config : SplitSetConfig} {specs : List SplitSpec}
    (h : prev.Describes config specs) : prev.splits.map (carried prev) = specs := by
  have hall : List.Forall₂ (fun s spec => carried prev s = spec) prev.splits specs := by
    refine h.splits.imp fun s spec hof => ?_
    unfold carried
    rw [hof.dataFile, hof.tier, hof.docCount, hof.docIdLo, hof.docIdHi, hof.epoch, hof.byteSize, hof.flags, hof.summary]
  exact List.forall₂_eq_eq_eq ▸ List.forall₂_map_left_iff.mpr hall

/-- **A manifest tells what the writer held** when it emitted it. -/
theorem Sized.exists_resumes {w : SplitSetWriter} (h : w.Sized) {manifest : Bytes} (hemit : w.emitManifest = .ok manifest)
    (hlen : manifest.length < u64Bound) : ∃ prev, SplitSet.fromBytes manifest = .ok prev ∧
      Settles (SplitSet.open (MemoryFetch.new manifest)) (.ok prev) ∧ prev.Describes w.manifestConfig w.specs ∧
      w.Resumes prev := by
  obtain ⟨prev, hfrom, hopen, hset⟩ := exists_manifest h.manifestConfig h.specs hemit hlen
  refine ⟨prev, hfrom, hopen, hset, carried_of_describes hset, ?_, hset.policy, hset.tierCount, hset.byteCap, hset.flags,
    hset.sortcol⟩
  have hb : w.baseCount % u32Bound = w.baseCount := Nat.mod_eq_of_lt h.baseCount_lt
  rw [hset.baseCount]
  exact hb

theorem sized_new (config : WriterConfig) : (new config).Sized where
  fits := by
    refine ⟨config.fits.gramSize_lt, ?_, config.fits.byteCap_lt, config.fits.tierCount_lt, config.fits.sortcol_lt⟩
    show nonzeroOr config.stride defaultStride < 2 ^ 32
    unfold nonzeroOr
    split
    · decide
    · exact config.fits.stride_lt
  epoch_lt := Nat.one_lt_two_pow (by decide)
  baseCount_lt := Nat.succ_pos _
  specs := fun s hs => absurd hs List.not_mem_nil

theorem sized_resume {bytes : Bytes} {prev : SplitSet} (h : SplitSet.fromBytes bytes = .ok prev) (args : ResumeArgs) :
    (resume prev args.gramSize args.stride args.namePrefix args.bloomBitsPerKey).Sized := by
  obtain ⟨hcap, htier, hbase, hcol, hsplits⟩ := fromBytes_inRange h
  refine ⟨⟨args.gramSize_lt, ?_, hcap, htier, hcol⟩, Nat.mod_lt _ (by decide), hbase, fun s hs => ?_⟩
  · show nonzeroOr args.stride defaultStride < 2 ^ 32
    unfold nonzeroOr
    split
    · decide
    · exact args.stride_lt
  · obtain ⟨split, hsplit, rfl⟩ := List.mem_map.mp hs
    exact hsplits split hsplit

section

variable [Roaring] {w : SplitSetWriter}

theorem Sized.flushed (h : w.Sized) {byteSize : Nat} (hsize : byteSize < u64Bound) : (w.flushed byteSize).Sized := by
  refine ⟨h.fits, Nat.mod_lt _ (by decide), h.baseCount_lt, fun s hs => ?_⟩
  rcases List.mem_append.mp hs with hs | hs
  · exact h.specs s hs
  · obtain rfl := List.mem_singleton.mp hs
    refine ⟨Nat.two_pow_pos 16, w.memtableCount.isLt, ?_, ?_, ?_, hsize, h.epoch_lt⟩
    · show (if _ then _ else _) < _
      split <;> exact Fin.isLt _
    · show (if _ then _ else _) < _
      split <;> exact Fin.isLt _
    · show (if _ then _ else _) < _
      split <;> decide

theorem Sized.compacted (h : w.Sized) (inputs : List (String × Bytes)) (merged : PostMap) (dead : Bitmap)
    {byteSize : Nat} (hsize : byteSize < u64Bound) : (w.compacted inputs merged dead byteSize).Sized := by
  refine ⟨h.fits, h.epoch_lt, h.baseCount_lt, fun s hs => ?_⟩
  rcases List.mem_append.mp hs with hs | hs
  · exact h.specs s (List.mem_of_mem_filter hs)
  · obtain rfl := List.mem_singleton.mp hs
    have hid : ∀ d ∈ (present merged).toList, d < 2 ^ 32 := fun d hd => (present merged).all d hd
    refine ⟨Nat.two_pow_pos 16, Nat.mod_lt _ (by decide), ?_, ?_, ?_, hsize, ?_⟩
    · show (present merged).toList.headD 0 < _
      cases hl : (present merged).toList with
      | nil => decide
      | cons d ds => exact hid d (by rw [hl]; exact List.mem_cons_self)
    · show (present merged).toList.getLastD 0 < _
      by_cases hnil : (present merged).toList = []
      · rw [hnil]
        decide
      · rw [List.getLastD_eq_getLast?, List.getLast?_eq_some_getLast hnil]
        exact hid _ (List.getLast_mem hnil)
    · show splitFlagAbsoluteIds ||| _ < _
      split <;> decide
    · show w.mergedEpoch inputs < _
      unfold mergedEpoch
      cases hmax : (inputs.filterMap fun i =>
          (w.specs.find? fun s => s.dataFile = i.1).map SplitSpec.epoch).max? with
      | none => exact h.epoch_lt
      | some m =>
        obtain ⟨i, -, hi⟩ := List.mem_filterMap.mp (List.max?_mem hmax)
        obtain ⟨s, hs, rfl⟩ := Option.map_eq_some_iff.mp hi
        exact (h.specs s (List.mem_of_find?_eq_some hs)).epoch_lt

omit [Roaring] in
theorem Sized.addKeys (h : w.Sized) (keys : List Key) : (w.addKeys keys).2.Sized :=
  ⟨h.fits, h.epoch_lt, h.baseCount_lt, h.specs⟩

omit [Roaring] in
theorem Sized.delete (h : w.Sized) (globalId : Fin u32Bound) : (w.delete globalId).Sized :=
  ⟨h.fits, h.epoch_lt, h.baseCount_lt, h.specs⟩

end

end SplitSetWriter

namespace Session

variable {σ σ' : Session}

theorem published_of_fromBytes {bytes : Bytes} {prev : SplitSet} (hm : σ.manifest = some bytes)
    (hprev : SplitSet.fromBytes bytes = .ok prev) : σ.published = prev.splits.map (SplitSetWriter.carried prev) := by
  unfold published
  rw [hm, Option.map_some, hprev]

/-- A manifest that is put tells what its writer held. -/
theorem published_put {w : SplitSetWriter} (hw : w.Sized) {name : String} {bytes manifest : Bytes}
    (hemit : w.emitManifest = .ok manifest) (hlen : manifest.length < u64Bound) :
    (σ.put w name bytes manifest).published = w.specs := by
  obtain ⟨prev, hprev, -, -, hres⟩ := hw.exists_resumes hemit hlen
  rw [@published_of_fromBytes (σ.put w name bytes manifest) manifest prev rfl hprev, hres.specs]

theorem sized_starts (h : Starts σ) : σ.writer.Sized := by
  cases h with
  | fresh config => exact SplitSetWriter.sized_new config
  | reopened bytes files prev args hlen hprev => exact SplitSetWriter.sized_resume hprev args

section

variable [Roaring]

/-- Every call keeps the writer's numbers within their types. -/
theorem sized_step {l : WriterCall × WriterOutcome} (h : σ.writer.Sized) (hs : σ.Step l σ') : σ'.writer.Sized := by
  obtain ⟨hcall, hmem⟩ := hs
  obtain ⟨c, o⟩ := l
  have heff := call_effect hcall
  cases heff with
  | added keys => exact h.addKeys keys
  | deleted globalId => exact h.delete globalId
  | idle hcount hdel => exact h
  | flushFailed bytes e hsome hfile hemit =>
    exact h.flushed (hmem.byteSize_lt _ (List.mem_append_right _ (List.mem_singleton_self _)))
  | flushed bytes manifest hsome hfile hemit =>
    exact h.flushed (hmem.byteSize_lt _ (List.mem_append_right _ (List.mem_singleton_self _)))
  | refused inputs e hgather => exact h
  | compactFailed inputs merged dead bytes e hgather hfile hemit =>
    exact h.compacted _ _ _ (hmem.byteSize_lt _ (List.mem_append_right _ (List.mem_singleton_self _)))
  | compacted inputs merged dead bytes manifest hgather hfile hemit =>
    exact h.compacted _ _ _ (hmem.byteSize_lt _ (List.mem_append_right _ (List.mem_singleton_self _)))
  | resumed args bytes prev hm hprev => exact SplitSetWriter.sized_resume hprev args

/-- **Every writer of a session has its numbers within their types.** -/
theorem sized_run {σ₀ : Session} {tr : List (WriterCall × WriterOutcome)} (h₀ : Starts σ₀) (h : Run Step σ₀ tr σ) :
    σ.writer.Sized :=
  h.invariant (I := fun _ σ => σ.writer.Sized) (sized_starts h₀) fun _ _ _ _ hI hs => sized_step hI hs

/-- The calls one after the other, as long as each is a step. -/
def replay (σ : Session) : List WriterCall → Option (List (WriterCall × WriterOutcome) × Session)
  | [] => some ([], σ)
  | c :: cs => do
    let (o, σ') ← σ.call c
    if σ'.InMemory then do
      let (tr, σ'') ← replay σ' cs
      pure ((c, o) :: tr, σ'')
    else none

/-- What is replayed is a run. -/
theorem run_of_replay {σ₀ : Session} {cs : List WriterCall} : ∀ {σ : Session} {tr₀ tr : List (WriterCall × WriterOutcome)},
    Run Step σ₀ tr₀ σ → σ.replay cs = some (tr, σ') → Run Step σ₀ (tr₀ ++ tr) σ' := by
  induction cs with
  | nil =>
    intro σ tr₀ tr hrun h
    obtain ⟨rfl, rfl⟩ := Prod.mk.inj (Option.some.inj h)
    rwa [List.append_nil]
  | cons c cs ih =>
    intro σ tr₀ tr hrun h
    rw [replay, Option.bind_eq_bind, Option.bind_eq_some_iff] at h
    obtain ⟨⟨o, σ₁⟩, hcall, h⟩ := h
    simp only at h
    split at h
    · next hmem =>
      rw [Option.bind_eq_bind, Option.bind_eq_some_iff] at h
      obtain ⟨⟨tr₁, σ₂⟩, hr, h⟩ := h
      obtain ⟨rfl, rfl⟩ := Prod.mk.inj (Option.some.inj h)
      have hstep : Step σ (c, o) σ₁ := ⟨hcall, hmem⟩
      have := ih (hrun.step hstep) hr
      rwa [List.append_assoc] at this
    · cases h

end

theorem noStride_lt : 0 < 2 ^ 32 := by decide

/-- A resume under the prefix `p`. -/
def resumeArgs : ResumeArgs := ⟨3, 0, "p", 0, trigram_lt, noStride_lt⟩

/-- The session of a writer that is resumed over a manifest of the splits. -/
def reopen (specs : List SplitSpec) (config : SplitSetConfig) (args : ResumeArgs) : Option Session :=
  match writeSplitset specs config with
  | .error _ => none
  | .ok bytes =>
    match SplitSet.fromBytes bytes with
    | .error _ => none
    | .ok prev =>
      if bytes.length < u64Bound then
        some ⟨.resume prev args.gramSize args.stride args.namePrefix args.bloomBitsPerKey, some bytes, []⟩
      else none

theorem starts_reopen {specs : List SplitSpec} {config : SplitSetConfig} {args : ResumeArgs} (h : reopen specs config args = some σ) :
    Starts σ := by
  unfold reopen at h
  split at h
  · cases h
  · split at h
    · cases h
    · next hprev =>
      split at h
      · next hlen =>
        rw [← Option.some.inj h]
        exact .reopened _ _ _ args hlen hprev
      · cases h

end Session

end RoaringRange
