import RoaringRange.PortableCodec
import RoaringRange.WriterRuns

/-!
# The ids of documents (`splitset_write.rs`)

The next id is not stored: a resumed writer takes the one after the last id that a split with documents covers.  A
flush covers the ids of its documents; a compaction covers the ids that still have a posting, and so forgets the last
documents of its inputs when they have none.

    no compaction forgets the last id → a new document's id is none of a flushed one          (ids_fresh)
-/

namespace RoaringRange

open ByteString Faults Slices Runs

/-- A split with documents reaches the id, and a resume would go past it. -/
def Covered (specs : List SplitSpec) (id : Nat) : Prop :=
  ∃ s ∈ specs, 0 < s.docCount ∧ id ≤ s.docIdHi ∧ id < u32Bound - 1

section

variable {specs more : List SplitSpec} {id : Nat}

theorem Covered.append_left (h : Covered specs id) : Covered (specs ++ more) id := by
  obtain ⟨s, hs, h⟩ := h
  exact ⟨s, List.mem_append_left _ hs, h⟩

/-- A resume goes past every id that is covered. -/
theorem Covered.lt_nextIdOf {prev : SplitSet} (h : Covered (prev.splits.map (SplitSetWriter.carried prev)) id) :
    id < SplitSetWriter.nextIdOf prev.splits := by
  obtain ⟨s, hs, hcount, hle, hlt⟩ := h
  obtain ⟨split, hsplit, rfl⟩ := List.mem_map.mp hs
  have hmem : min (split.docIdHi + 1) (u32Bound - 1) ∈
      (prev.splits.filter fun s => 0 < s.docCount).map fun s => min (s.docIdHi + 1) (u32Bound - 1) :=
    List.mem_map.mpr ⟨split, List.mem_filter.mpr ⟨hsplit, decide_eq_true hcount⟩, rfl⟩
  have hle' : id ≤ split.docIdHi := hle
  unfold SplitSetWriter.nextIdOf
  cases hmax : ((prev.splits.filter fun s => 0 < s.docCount).map fun s => min (s.docIdHi + 1) (u32Bound - 1)).max? with
  | none =>
    rw [List.max?_eq_none_iff] at hmax
    rw [hmax] at hmem
    exact absurd hmem List.not_mem_nil
  | some m =>
    have := (List.max?_eq_some_iff.mp hmax).2 _ hmem
    rw [Option.getD_some]
    omega

theorem nextIdOf_lt (splits : List Split) : SplitSetWriter.nextIdOf splits < u32Bound := by
  unfold SplitSetWriter.nextIdOf
  cases hmax : ((splits.filter fun s => 0 < s.docCount).map fun s => min (s.docIdHi + 1) (u32Bound - 1)).max? with
  | none => exact Nat.succ_pos _
  | some m =>
    obtain ⟨s, -, rfl⟩ := List.mem_map.mp (List.max?_mem hmax)
    exact saturate_lt _

end

/-- The last element of an ascending list is the largest. -/
theorem le_getLastD_of_asc {xs : List Nat} (h : xs.Pairwise (· < ·)) {x : Nat} (hx : x ∈ xs) : x ≤ xs.getLastD 0 := by
  rcases List.eq_nil_or_concat xs with rfl | ⟨ys, y, rfl⟩
  · exact absurd hx List.not_mem_nil
  · rw [List.concat_eq_append] at h hx ⊢
    rw [List.getLastD_concat]
    rcases List.mem_append.mp hx with hx | hx
    · exact Nat.le_of_lt ((List.pairwise_append.mp h).2.2 x hx y (List.mem_singleton_self y))
    · exact Nat.le_of_eq (List.mem_singleton.mp hx)

/-! ## The ids of a run -/

/-- The ids of the documents in the memtable, and of those that were flushed. -/
def idsAfter (ids : List Nat × List Nat) : WriterCall × WriterOutcome → List Nat × List Nat
  | (.addKeys _, .added id) => (id :: ids.1, ids.2)
  | (.flush, .emitted _) => ([], ids.1 ++ ids.2)
  | (.flush, .failed _) => ([], ids.2)
  | (.resume _, _) => ([], ids.2)
  | _ => ids

def idsOf (tr : List (WriterCall × WriterOutcome)) : List Nat × List Nat := tr.foldl idsAfter ([], [])

/-- The ids of the documents that were flushed. -/
def flushedIds (tr : List (WriterCall × WriterOutcome)) : List Nat := (idsOf tr).2

theorem idsOf_snoc (tr : List (WriterCall × WriterOutcome)) (l : WriterCall × WriterOutcome) :
    idsOf (tr ++ [l]) = idsAfter (idsOf tr) l := by
  rw [idsOf, List.foldl_append]
  rfl

namespace SplitSetWriter

section

variable [Roaring]

/-- The splits that stay, or the postings that survive, reach as far as any split with documents. -/
def KeepsLast (w : SplitSetWriter) (inputs : List (String × Bytes)) : Prop :=
  ∀ merged dead, w.gather inputs = .ok (merged, dead) → ∀ s ∈ w.specs, 0 < s.docCount →
    (∃ t ∈ w.kept inputs, 0 < t.docCount ∧ s.docIdHi ≤ t.docIdHi) ∨
      (present (surviving merged dead)).len < u32Bound ∧ ∃ k, ∃ d ∈ merged.docs k, d ∉ dead ∧ s.docIdHi ≤ d

omit [Roaring] in
theorem mem_present {m : PostMap} {d : Nat} : d ∈ present m ↔ ∃ k, d ∈ m.docs k := by
  unfold present
  rw [AscSet.mem_unions]
  constructor
  · rintro ⟨bm, hbm, hd⟩
    obtain ⟨⟨k, _⟩, hk, rfl⟩ := List.mem_map.mp hbm
    refine ⟨k, ?_⟩
    rw [PostMap.docs, OrdMap.find?_eq_some_iff.mpr hk]
    exact hd
  · rintro ⟨k, hd⟩
    unfold PostMap.docs at hd
    cases hfind : m.find? k with
    | none =>
      rw [hfind] at hd
      exact absurd hd (AscSet.not_mem_empty d)
    | some bm =>
      rw [hfind] at hd
      exact ⟨bm, List.mem_map.mpr ⟨(k, bm), OrdMap.find?_eq_some_iff.mp hfind, rfl⟩, hd⟩

omit [Roaring] in
/-- What survives of a posting. -/
theorem mem_docs_surviving {merged : PostMap} {dead : Bitmap} {k : Key} {d : Nat} :
    d ∈ (surviving merged dead).docs k ↔ d ∈ merged.docs k ∧ d ∉ dead := by
  unfold PostMap.docs surviving
  rw [OrdMap.find?_retain, OrdMap.find?_mapValues]
  cases merged.find? k with
  | none => simp
  | some bm =>
    simp only [Option.map_some, Option.getD_some]
    cases hempty : (bm \ dead).isEmpty with
    | true =>
      have := AscSet.isEmpty_iff.mp hempty
      have hnot : ¬ (d ∈ bm ∧ d ∉ dead) := fun h => by
        have hmem := AscSet.mem_sdiff.mpr h
        rw [this] at hmem
        exact AscSet.not_mem_empty d hmem
      simp [Option.filter, hempty, hnot]
    | false => simp [Option.filter, hempty]

end

end SplitSetWriter

namespace Session

section

variable [Roaring] {σ σ' : Session}

/-- A document more leaves the id space room, and a compaction does not forget the last id. -/
def IdsFit (σ : Session) : WriterCall → Prop
  | .addKeys _ => σ.writer.nextGlobalId.val + 1 < u32Bound
  | .compact inputs => σ.writer.KeepsLast inputs
  | _ => True

/-- One call of a run that keeps to this. -/
def IdsStep (σ : Session) (l : WriterCall × WriterOutcome) (σ' : Session) : Prop := Step σ l σ' ∧ σ.IdsFit l.1

omit [Roaring] in
/-- The ids handed out are below the next one; those flushed are covered by the splits of the writer and of the
manifest. -/
structure Allocated (ids : List Nat × List Nat) (σ : Session) : Prop where
  lt_next : ∀ id ∈ ids.1 ++ ids.2, id < σ.writer.nextGlobalId.val
  covered : ∀ id ∈ ids.2, Covered σ.writer.specs id ∧ Covered σ.published id
  empty : σ.writer.memtableCount.val = 0 → ids.1 = []
  count : 0 < σ.writer.memtableCount.val →
    σ.writer.memtableBase.val + σ.writer.memtableCount.val = σ.writer.nextGlobalId.val

omit [Roaring] in
theorem allocated_starts (h : Starts σ) : Allocated ([], []) σ := by
  cases h with
  | fresh config => exact ⟨by simp, by simp, fun _ => rfl, fun h => absurd h (Nat.lt_irrefl 0)⟩
  | reopened bytes files prev args hlen hprev =>
    exact ⟨by simp, by simp, fun _ => rfl, fun h => absurd h (Nat.lt_irrefl 0)⟩

omit [Roaring] in
/-- A document takes the next id. -/
theorem Allocated.added {ids : List Nat × List Nat} (h : Allocated ids σ)
    (hroom : σ.writer.nextGlobalId.val + 1 < u32Bound) (keys : List Key) :
    Allocated (σ.writer.nextGlobalId.val :: ids.1, ids.2) { σ with writer := (σ.writer.addKeys keys).2 } := by
  have hnext : (σ.writer.addKeys keys).2.nextGlobalId.val = σ.writer.nextGlobalId.val + 1 := Nat.mod_eq_of_lt hroom
  have hle : σ.writer.memtableCount.val ≤ σ.writer.nextGlobalId.val := by
    by_cases hc : 0 < σ.writer.memtableCount.val
    · have := h.count hc
      omega
    · omega
  have hcount : (σ.writer.addKeys keys).2.memtableCount.val = σ.writer.memtableCount.val + 1 :=
    Nat.mod_eq_of_lt (by omega)
  refine ⟨fun id hid => ?_, h.covered, fun hz => ?_, fun _ => ?_⟩
  · show id < (σ.writer.addKeys keys).2.nextGlobalId.val
    rw [hnext]
    rcases List.mem_cons.mp hid with rfl | hid
    · exact Nat.lt_succ_self _
    · exact Nat.lt_succ_of_lt (h.lt_next id hid)
  · have hz' : (σ.writer.addKeys keys).2.memtableCount.val = 0 := hz
    omega
  · show (σ.writer.addKeys keys).2.memtableBase.val + (σ.writer.addKeys keys).2.memtableCount.val =
      (σ.writer.addKeys keys).2.nextGlobalId.val
    rw [hnext, hcount]
    by_cases hc : σ.writer.memtableCount.val = 0
    · have hbase : (σ.writer.addKeys keys).2.memtableBase = σ.writer.nextGlobalId := if_pos hc
      rw [hbase]
      omega
    · have hbase : (σ.writer.addKeys keys).2.memtableBase = σ.writer.memtableBase := if_neg hc
      have := h.count (Nat.pos_of_ne_zero hc)
      rw [hbase]
      omega

/-- The new split of a flush covers the documents of the memtable. -/
theorem Allocated.covered_flushed {ids : List Nat × List Nat} (h : Allocated ids σ) (byteSize : Nat) :
    ∀ id ∈ ids.1 ++ ids.2, Covered (σ.writer.flushed byteSize).specs id := by
  intro id hid
  rcases List.mem_append.mp hid with hopen | hflushed
  · have hc : 0 < σ.writer.memtableCount.val := by
      by_contra hz
      rw [h.empty (by omega)] at hopen
      exact List.not_mem_nil hopen
    have hsum := h.count hc
    have hlt := h.lt_next id hid
    have hnext := σ.writer.nextGlobalId.isLt
    refine ⟨σ.writer.deltaSpec byteSize, List.mem_append_right _ (List.mem_singleton_self _), hc, ?_, by omega⟩
    show id ≤ if 0 < σ.writer.memtableCount.val then
      (wrapAdd σ.writer.memtableBase.val (σ.writer.memtableCount.val - 1)).val else _
    rw [if_pos hc]
    show id ≤ (σ.writer.memtableBase.val + (σ.writer.memtableCount.val - 1)) % u32Bound
    rw [Nat.mod_eq_of_lt (by omega)]
    omega
  · exact (h.covered id hflushed).1.append_left

/-- A compaction that does not forget the last id covers what was covered. -/
theorem covered_compacted {w : SplitSetWriter} {inputs : List (String × Bytes)} {merged : PostMap} {dead : Bitmap}
    (hgather : w.gather inputs = .ok (merged, dead)) (hkeeps : w.KeepsLast inputs) (byteSize : Nat) {id : Nat}
    (h : Covered w.specs id) :
    Covered (w.compacted inputs (SplitSetWriter.surviving merged dead) dead byteSize).specs id := by
  obtain ⟨s, hs, hcount, hle, hlt⟩ := h
  rcases hkeeps merged dead hgather s hs hcount with ⟨t, ht, htcount, hthi⟩ | ⟨hlen, k, d, hd, hlive, hge⟩
  · exact ⟨t, List.mem_append_left _ ht, htcount, Nat.le_trans hle hthi, hlt⟩
  · have hmem : d ∈ (SplitSetWriter.present (SplitSetWriter.surviving merged dead)).toList :=
      SplitSetWriter.mem_present.mpr ⟨k, SplitSetWriter.mem_docs_surviving.mpr ⟨hd, hlive⟩⟩
    refine ⟨_, List.mem_append_right _ (List.mem_singleton_self _), ?_, ?_, hlt⟩
    · show 0 < (SplitSetWriter.present (SplitSetWriter.surviving merged dead)).len % u32Bound
      rw [Nat.mod_eq_of_lt hlen]
      exact List.length_pos_of_mem hmem
    · show id ≤ (SplitSetWriter.present (SplitSetWriter.surviving merged dead)).toList.getLastD 0
      exact Nat.le_trans (Nat.le_trans hle hge) (le_getLastD_of_asc (AscSet.asc _) hmem)

/-- A call that keeps to this keeps the allocation of ids. -/
theorem Allocated.step {ids : List Nat × List Nat} {l : WriterCall × WriterOutcome} (h : Allocated ids σ)
    (hw : σ.writer.Sized) (hs : IdsStep σ l σ') : Allocated (idsAfter ids l) σ' := by
  obtain ⟨⟨hcall, hmem⟩, hfits⟩ := hs
  have hw' := sized_step hw ⟨hcall, hmem⟩
  obtain ⟨c, o⟩ := l
  have heff := call_effect hcall
  cases heff with
  | added keys => exact h.added hfits keys
  | deleted globalId => exact ⟨h.lt_next, h.covered, h.empty, h.count⟩
  | idle hcount hdel => exact h
  | flushFailed bytes e hsome hfile hemit =>
    have hcov := h.covered_flushed bytes.length
    refine ⟨fun id hid => h.lt_next id (List.mem_append_right _ hid), fun id hid => ?_, fun _ => rfl,
      fun hc => absurd hc (Nat.lt_irrefl 0)⟩
    exact ⟨hcov id (List.mem_append_right _ hid), (h.covered id hid).2⟩
  | flushed bytes manifest hsome hfile hemit =>
    have hcov := h.covered_flushed bytes.length
    have hpub := @published_put σ (σ.writer.flushed bytes.length) hw'
      (seqName σ.writer.namePrefix "-d" σ.writer.flushSeq.val) bytes manifest hemit
      (hmem.manifest_lt manifest rfl)
    refine ⟨fun id hid => h.lt_next id hid, fun id hid => ?_, fun _ => rfl, fun hc => absurd hc (Nat.lt_irrefl 0)⟩
    rw [hpub]
    exact ⟨hcov id hid, hcov id hid⟩
  | refused inputs e hgather => exact h
  | compactFailed inputs merged dead bytes e hgather hfile hemit =>
    refine ⟨h.lt_next, fun id hid => ?_, h.empty, h.count⟩
    exact ⟨covered_compacted hgather hfits bytes.length (h.covered id hid).1, (h.covered id hid).2⟩
  | compacted inputs merged dead bytes manifest hgather hfile hemit =>
    have hpub := @published_put σ
      (σ.writer.compacted inputs (SplitSetWriter.surviving merged dead) dead bytes.length) hw'
      (seqName σ.writer.namePrefix "-c" σ.writer.compactSeq.val) bytes manifest hemit
      (hmem.manifest_lt manifest rfl)
    refine ⟨h.lt_next, fun id hid => ?_, h.empty, h.count⟩
    have hcov := covered_compacted hgather hfits bytes.length (h.covered id hid).1
    rw [hpub]
    exact ⟨hcov, hcov⟩
  | resumed args bytes prev hm hprev =>
    have hpub : σ.published = prev.splits.map (SplitSetWriter.carried prev) := published_of_fromBytes hm hprev
    have hpub' : (σ.resumed args prev).published = prev.splits.map (SplitSetWriter.carried prev) :=
      published_of_fromBytes hm hprev
    have hcov : ∀ id ∈ ids.2, Covered (prev.splits.map (SplitSetWriter.carried prev)) id := by
      intro id hid
      rw [← hpub]
      exact (h.covered id hid).2
    refine ⟨fun id hid => ?_, fun id hid => ?_, fun _ => rfl, fun hc => absurd hc (Nat.lt_irrefl 0)⟩
    · show id < (SplitSetWriter.nextIdOf prev.splits + 0) % u32Bound
      rw [Nat.add_zero, Nat.mod_eq_of_lt (nextIdOf_lt _)]
      exact (hcov id hid).lt_nextIdOf
    · rw [hpub']
      exact ⟨hcov id hid, hcov id hid⟩

theorem Allocated.run {σ₀ : Session} {tr : List (WriterCall × WriterOutcome)} (h₀ : Starts σ₀)
    (h : Run IdsStep σ₀ tr σ) : Allocated (idsOf tr) σ ∧ σ.writer.Sized := by
  refine h.invariant (I := fun tr σ => Allocated (idsOf tr) σ ∧ σ.writer.Sized)
    ⟨allocated_starts h₀, sized_starts h₀⟩ ?_
  intro tr σ l σ' hI hs
  rw [idsOf_snoc]
  exact ⟨hI.1.step hI.2 hs, sized_step hI.2 hs.1⟩

/-- **A new document has an id that no flushed one has**, in every run whose compactions do not forget the last id. -/
theorem ids_fresh {σ₀ : Session} {tr : List (WriterCall × WriterOutcome)} (h₀ : Starts σ₀) (hrun : Run IdsStep σ₀ tr σ)
    {keys : List Key} {id : Nat} (hs : Step σ (.addKeys keys, .added id) σ') : id ∉ flushedIds tr := by
  obtain ⟨halloc, -⟩ := Allocated.run h₀ hrun
  intro hid
  have hlt := halloc.lt_next id (List.mem_append_right _ hid)
  have heff := call_effect hs.1
  cases heff with
  | added keys => exact Nat.lt_irrefl _ hlt

end

/-! ## The last document is deleted -/

section

attribute [local instance] PortableCodec.roaring

/-- A writer over no splits. -/
def emptySession : Session := ⟨.new (SplitSetWriter.namedConfig "p"), none, []⟩

/-- A document is flushed, deleted, and compacted away; the writer is resumed. -/
def compactAway (inputs : List (String × Bytes)) : List WriterCall :=
  [.addKeys [⟨9, by decide⟩], .flush, .delete (wrapAdd 0 0), .flush, .compact inputs, .resume resumeArgs]

/-- The next document has the id of the first, which the merged split still masks. -/
theorem id_reused : ∃ σ₀ tr σ σ' id, Starts σ₀ ∧ Run Step σ₀ tr σ ∧ Step σ (.addKeys [], .added id) σ' ∧
    id ∈ flushedIds tr := by
  have hcheck : ((emptySession.replay ((compactAway []).take 4)).bind fun r =>
      (emptySession.replay (compactAway r.2.files)).bind fun r' => (r'.2.call (.addKeys [])).map fun x =>
        decide (x.2.InMemory ∧ ∃ id ∈ flushedIds r'.1, x.1 = .added id)) = some true := by decide +kernel
  obtain ⟨⟨tr₁, σ₁⟩, -, hcheck⟩ := Option.bind_eq_some_iff.mp hcheck
  obtain ⟨⟨tr, σ⟩, hreplay, hcheck⟩ := Option.bind_eq_some_iff.mp hcheck
  obtain ⟨⟨o, σ'⟩, hadd, hcheck⟩ := Option.map_eq_some_iff.mp hcheck
  obtain ⟨hmem, id, hid, ho⟩ := of_decide_eq_true hcheck
  simp only at ho
  subst ho
  exact ⟨emptySession, tr, σ, σ', id, .fresh _, run_of_replay Run.start hreplay, ⟨hadd, hmem⟩, hid⟩

/-- Without the compaction the ids go on. -/
theorem ids_fresh_second : ∃ σ₀ tr σ σ' id, Starts σ₀ ∧ Run IdsStep σ₀ tr σ ∧ Step σ (.addKeys [], .added id) σ' ∧
    flushedIds tr = [0] ∧ id ∉ flushedIds tr := by
  have hcheck : ((emptySession.call (.addKeys [])).bind fun r => (r.2.call .flush).bind fun r' =>
      (r'.2.call (.addKeys [])).map fun x => decide (r.2.InMemory ∧ r'.2.InMemory ∧ x.2.InMemory ∧
        r.1 = .added 0 ∧ r'.1 = .emitted "p-d00000.rrs" ∧ x.1 = .added 1)) = some true := by decide +kernel
  obtain ⟨⟨o, σ₁⟩, hadd, hcheck⟩ := Option.bind_eq_some_iff.mp hcheck
  obtain ⟨⟨o', σ⟩, hflush, hcheck⟩ := Option.bind_eq_some_iff.mp hcheck
  obtain ⟨⟨o'', σ'⟩, hnext, hcheck⟩ := Option.map_eq_some_iff.mp hcheck
  obtain ⟨hm₁, hm, hm', ho, ho', ho''⟩ := of_decide_eq_true hcheck
  simp only at ho ho' ho'' hm₁ hm hm'
  subst ho ho' ho''
  have hroom : emptySession.IdsFit (.addKeys []) := by
    show emptySession.writer.nextGlobalId.val + 1 < u32Bound
    decide
  have h₁ : IdsStep emptySession (.addKeys [], .added 0) σ₁ := ⟨⟨hadd, hm₁⟩, hroom⟩
  have h₂ : IdsStep σ₁ (.flush, .emitted "p-d00000.rrs") σ := ⟨⟨hflush, hm⟩, trivial⟩
  have hrun := Run.step (Run.single h₁) h₂
  have hlast : Step σ (.addKeys [], .added 1) σ' := ⟨hnext, hm'⟩
  exact ⟨emptySession, _, σ, σ', 1, .fresh _, hrun, hlast, rfl, ids_fresh (.fresh _) hrun hlast⟩

end

end Session

end RoaringRange
