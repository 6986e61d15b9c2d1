import RoaringRange.PortableCodec
import RoaringRange.WriterRuns

/-!
# The names of delta splits (`splitset_write.rs`)

Flush and compaction number their files apart, and a resumed writer goes on behind the largest number that it finds
in a name of its prefix.  The number is a 32-bit one, and the one after the last is zero.

    no number of the prefix is the last 32-bit one → a new split has a name of its own       (names_fresh)
-/

namespace RoaringRange

open ByteString Faults Slices Runs

/-! ## The number in a name -/

theorem stripPrefix_append (s rest : String) : stripPrefix (s ++ rest) s = some rest := by
  unfold stripPrefix
  rw [if_pos (by rw [String.toList_append, List.isPrefixOf_iff_prefix]; exact List.prefix_append _ _)]
  simp

theorem padded_ne_nil (n : Nat) : Decimal.padded 5 n ≠ [] := by
  intro h
  have := congrArg List.length h
  rw [Decimal.length_padded, List.length_nil] at this
  omega

/-- The number is read back. -/
theorem parseU32_padded {n : Nat} (h : n < u32Bound) : parseU32 (Decimal.padded 5 n) = some n := by
  have hall : (Decimal.padded 5 n).all Char.isDigit = true := by
    rw [List.all_eq_true]
    exact fun c hc => Decimal.isDigit_of_mem_padded hc
  have hsign : unsigned (Decimal.padded 5 n) = Decimal.padded 5 n := by
    cases hd : Decimal.padded 5 n with
    | nil => rfl
    | cons c rest =>
      have hc : c.isDigit = true := Decimal.isDigit_of_mem_padded (by rw [hd]; exact List.mem_cons_self)
      unfold unsigned
      split
      · next heq =>
        rw [(List.cons.inj heq).1] at hc
        exact absurd hc (by decide)
      · rfl
  have hne : (Decimal.padded 5 n).isEmpty = false := by
    rw [List.isEmpty_eq_false_iff]
    exact padded_ne_nil n
  have hval := Decimal.ofDigitChars_padded 5 n
  generalize Decimal.padded 5 n = digits at *
  unfold parseU32
  simp only [hsign, hne, hall, hval, Bool.not_true, Bool.or_false, Bool.false_eq_true, if_false]
  split
  · rfl
  · next hge => exact absurd h hge

theorem seqOf_seqName (namePrefix marker : String) {n : Nat} (h : n < u32Bound) :
    seqOf namePrefix marker (seqName namePrefix marker n) = some n := by
  unfold seqOf seqName
  rw [String.append_assoc, String.append_assoc]
  simp only [stripPrefix_append, stripSuffix_append, Option.bind_eq_bind, Option.bind_some, paddedIdx,
    String.toList_ofList, parseU32_padded h]

theorem seqName_injective {namePrefix marker : String} {m n : Nat}
    (h : seqName namePrefix marker m = seqName namePrefix marker n) : m = n := by
  have hl := congrArg String.toList h
  simp only [seqName, paddedIdx, String.toList_append, String.toList_ofList, List.append_cancel_right_eq,
    List.append_cancel_left_eq] at hl
  exact Decimal.padded_injective hl

/-- A flushed split has no name of a merged one. -/
theorem seqName_ne (namePrefix : String) (m n : Nat) : seqName namePrefix "-d" m ≠ seqName namePrefix "-c" n := by
  intro h
  have hl := congrArg String.toList h
  simp only [seqName, String.toList_append, List.append_assoc, List.append_cancel_left_eq] at hl
  have : "-d".toList = ['-', 'd'] := rfl
  have : "-c".toList = ['-', 'c'] := rfl
  simp_all

theorem eq_append_of_stripPrefix {s start rest : String} (h : stripPrefix s start = some rest) : s = start ++ rest := by
  unfold stripPrefix at h
  split at h
  · next hpre =>
    obtain ⟨t, ht⟩ := List.isPrefixOf_iff_prefix.mp hpre
    rw [← ht, List.drop_left] at h
    refine String.toList_injective ?_
    rw [← Option.some.inj h, String.toList_append, String.toList_ofList, ht]
  · cases h

theorem eq_append_of_stripSuffix {s suffix rest : String} (h : stripSuffix s suffix = some rest) : s = rest ++ suffix := by
  unfold stripSuffix at h
  simp only at h
  split at h
  · next hsuf =>
    have hboth := List.take_append_drop (s.toList.length - suffix.toList.length) s.toList
    rw [hsuf] at hboth
    refine String.toList_injective ?_
    rw [← Option.some.inj h, String.toList_append, String.toList_ofList, hboth]
  · cases h

/-- There is no hyphen in what reads as a number. -/
theorem hyphen_of_parseU32 {s : List Char} {n : Nat} (h : parseU32 s = some n) : '-' ∉ s := by
  unfold parseU32 at h
  simp only at h
  split at h
  · cases h
  · next hdigits =>
    intro hmem
    have hall : (unsigned s).all Char.isDigit = true := by
      rw [Bool.not_eq_true, Bool.or_eq_false_iff, Bool.not_eq_false'] at hdigits
      exact hdigits.2
    have hin : '-' ∈ unsigned s := by
      unfold unsigned
      split
      · next rest =>
        rcases List.mem_cons.mp hmem with heq | hmem
        · exact absurd heq (by decide)
        · exact hmem
      · exact hmem
    exact absurd (List.all_eq_true.mp hall '-' hin) (by decide)

/-- What comes after the last hyphen. -/
theorem eq_of_last_hyphen {xs xs' ys ys' : List Char} (h : xs ++ '-' :: ys = xs' ++ '-' :: ys') (hy : '-' ∉ ys)
    (hy' : '-' ∉ ys') : ys = ys' := by
  rcases List.append_eq_append_iff.mp h with ⟨zs, -, hz⟩ | ⟨zs, -, hz⟩
  · cases zs with
    | nil => exact (List.cons.inj hz).2
    | cons z zs =>
      refine absurd ?_ hy
      rw [(List.cons.inj hz).2]
      exact List.mem_append_right _ List.mem_cons_self
  · cases zs with
    | nil => exact (List.cons.inj hz).2.symm
    | cons z zs =>
      refine absurd ?_ hy'
      rw [(List.cons.inj hz).2]
      exact List.mem_append_right _ List.mem_cons_self

/-- No split of a build is numbered as one of a writer. -/
theorem seqOf_splitStem (namePrefix stem : String) (i : Nat) {c : Char} (hc : c ≠ 's') (hhyphen : c ≠ '-') :
    seqOf namePrefix (String.ofList ['-', c]) (splitStem stem i ++ ".rrs") = none := by
  rw [Option.eq_none_iff_forall_ne_some]
  intro n h
  unfold seqOf at h
  obtain ⟨r₁, h₁, h⟩ := Option.bind_eq_some_iff.mp h
  obtain ⟨r₂, h₂, h⟩ := Option.bind_eq_some_iff.mp h
  obtain ⟨r₃, h₃, h⟩ := Option.bind_eq_some_iff.mp h
  have heq := congrArg String.toList (eq_append_of_stripPrefix h₁)
  rw [eq_append_of_stripPrefix h₂, eq_append_of_stripSuffix h₃] at heq
  have hr := hyphen_of_parseU32 h
  have hdigits : '-' ∉ Decimal.padded 5 i := fun hmem => absurd (Decimal.isDigit_of_mem_padded hmem) (by decide)
  have hs : "-s".toList = ['-', 's'] := rfl
  have hrrs : ".rrs".toList = ['.', 'r', 'r', 's'] := rfl
  simp only [splitStem, paddedIdx, String.toList_append, String.toList_ofList, List.append_assoc, hs, hrrs,
    List.cons_append, List.nil_append] at heq
  have hlast := eq_of_last_hyphen heq (by simpa using hdigits) (by simpa [Ne.symm hhyphen] using hr)
  exact hc (List.cons.inj hlast).1.symm

/-! ## Numbers in use -/

/-- The names of the splits that have this prefix and marker are numbered below a bound. -/
def NumberedBelow (specs : List SplitSpec) (namePrefix marker : String) (bound : Nat) : Prop :=
  ∀ s ∈ specs, ∀ n < u32Bound, s.dataFile = seqName namePrefix marker n → n < bound

/-- No name of the prefix has the last 32-bit number. -/
def NoLastSeq (specs : List SplitSpec) (namePrefix : String) : Prop :=
  ∀ s ∈ specs, seqOf namePrefix "-d" s.dataFile ≠ some (u32Bound - 1) ∧
    seqOf namePrefix "-c" s.dataFile ≠ some (u32Bound - 1)

instance (specs : List SplitSpec) (namePrefix : String) : Decidable (NoLastSeq specs namePrefix) :=
  inferInstanceAs (Decidable (∀ s ∈ specs, _))

section

variable {specs : List SplitSpec} {namePrefix marker : String} {bound : Nat}

theorem NumberedBelow.append {more : List SplitSpec} (h : NumberedBelow specs namePrefix marker bound)
    (hm : NumberedBelow more namePrefix marker bound) : NumberedBelow (specs ++ more) namePrefix marker bound := by
  intro s hs
  rcases List.mem_append.mp hs with hs | hs
  · exact h s hs
  · exact hm s hs

theorem NumberedBelow.subset {fewer : List SplitSpec} (h : NumberedBelow specs namePrefix marker bound)
    (hsub : ∀ s ∈ fewer, s ∈ specs) : NumberedBelow fewer namePrefix marker bound :=
  fun s hs => h s (hsub s hs)

theorem lt_of_parseU32 {s : List Char} {n : Nat} (h : parseU32 s = some n) : n < u32Bound := by
  unfold parseU32 at h
  simp only at h
  split at h
  · cases h
  · split at h
    · next hlt => rwa [← Option.some.inj h]
    · cases h

theorem lt_of_seqOf {dataFile : String} {n : Nat} (h : seqOf namePrefix marker dataFile = some n) : n < u32Bound := by
  unfold seqOf at h
  obtain ⟨_, -, h⟩ := Option.bind_eq_some_iff.mp h
  obtain ⟨_, -, h⟩ := Option.bind_eq_some_iff.mp h
  obtain ⟨_, -, h⟩ := Option.bind_eq_some_iff.mp h
  exact lt_of_parseU32 h

/-- The counter of a resumed writer is behind every number in use. -/
theorem numberedBelow_nextSeq {splits : List Split}
    (hlast : ∀ s ∈ splits, seqOf namePrefix marker s.dataFile ≠ some (u32Bound - 1))
    (hspecs : ∀ s ∈ specs, ∃ split ∈ splits, s.dataFile = split.dataFile) :
    NumberedBelow specs namePrefix marker (SplitSetWriter.nextSeq splits namePrefix marker).val := by
  intro s hs n hn heq
  obtain ⟨split, hsplit, hname⟩ := hspecs s hs
  have hseq : seqOf namePrefix marker split.dataFile = some n := by
    rw [← hname, heq, seqOf_seqName namePrefix marker hn]
  have hmem : n ∈ splits.filterMap fun s => seqOf namePrefix marker s.dataFile :=
    List.mem_filterMap.mpr ⟨split, hsplit, hseq⟩
  unfold SplitSetWriter.nextSeq
  cases hmax : (splits.filterMap fun s => seqOf namePrefix marker s.dataFile).max? with
  | none =>
    rw [List.max?_eq_none_iff] at hmax
    rw [hmax] at hmem
    exact absurd hmem List.not_mem_nil
  | some m =>
    have hle : n ≤ m := (List.max?_eq_some_iff.mp hmax).2 n hmem
    obtain ⟨t, ht, hm⟩ := List.mem_filterMap.mp (List.max?_mem hmax)
    have hlt := lt_of_seqOf hm
    have hne : m ≠ u32Bound - 1 := fun h => hlast t ht (h ▸ hm)
    show n < (m + 1) % u32Bound
    rw [Nat.mod_eq_of_lt (by omega)]
    omega

end

namespace Session

/-- The counter that the call moves is not at its end. -/
def SeqFits (σ : Session) : WriterCall → Prop
  | .flush => σ.writer.flushSeq.val + 1 < u32Bound
  | .compact _ => σ.writer.compactSeq.val + 1 < u32Bound
  | .resume args => NoLastSeq σ.published args.namePrefix
  | _ => True

/-- Every number in use, by the writer or in the manifest last emitted, is below its counter. -/
structure Named (σ : Session) : Prop where
  flush : NumberedBelow (σ.writer.specs ++ σ.published) σ.writer.namePrefix "-d" σ.writer.flushSeq.val
  compact : NumberedBelow (σ.writer.specs ++ σ.published) σ.writer.namePrefix "-c" σ.writer.compactSeq.val

variable {σ σ' : Session}

theorem named_resumed {bytes : Bytes} {prev : SplitSet} {args : ResumeArgs} (hm : σ.manifest = some bytes)
    (hprev : SplitSet.fromBytes bytes = .ok prev) (hlast : NoLastSeq σ.published args.namePrefix) :
    (σ.resumed args prev).Named := by
  have hpub : σ.published = prev.splits.map (SplitSetWriter.carried prev) := published_of_fromBytes hm hprev
  have hpub' : (σ.resumed args prev).published = prev.splits.map (SplitSetWriter.carried prev) :=
    published_of_fromBytes hm hprev
  have hspecs : ∀ s ∈ (σ.resumed args prev).writer.specs ++ (σ.resumed args prev).published,
      ∃ split ∈ prev.splits, s.dataFile = split.dataFile := by
    intro s hs
    have hs' : s ∈ prev.splits.map (SplitSetWriter.carried prev) := by
      rcases List.mem_append.mp hs with hs | hs
      · exact hs
      · rwa [hpub'] at hs
    obtain ⟨split, hsplit, rfl⟩ := List.mem_map.mp hs'
    exact ⟨split, hsplit, rfl⟩
  have hno : ∀ split ∈ prev.splits, seqOf args.namePrefix "-d" split.dataFile ≠ some (u32Bound - 1) ∧
      seqOf args.namePrefix "-c" split.dataFile ≠ some (u32Bound - 1) := by
    intro split hsplit
    have := hlast (SplitSetWriter.carried prev split) (by rw [hpub]; exact List.mem_map_of_mem hsplit)
    exact this
  exact ⟨numberedBelow_nextSeq (fun s hs => (hno s hs).1) hspecs, numberedBelow_nextSeq (fun s hs => (hno s hs).2) hspecs⟩

theorem named_starts (h : Starts σ) (hlast : NoLastSeq σ.published σ.writer.namePrefix) : σ.Named := by
  cases h with
  | fresh config => exact ⟨fun s hs => absurd hs List.not_mem_nil, fun s hs => absurd hs List.not_mem_nil⟩
  | reopened bytes files prev args hlen hprev =>
    exact @named_resumed ⟨.resume prev args.gramSize args.stride args.namePrefix args.bloomBitsPerKey, some bytes, files⟩
      bytes prev args rfl hprev hlast

section

variable [Roaring]

/-- One call of a run that leaves the counters room. -/
def NamesStep (σ : Session) (l : WriterCall × WriterOutcome) (σ' : Session) : Prop := Step σ l σ' ∧ σ.SeqFits l.1

/-- The new split of a flush takes the number of its counter. -/
theorem Named.flushed (h : σ.Named) (hfits : σ.writer.flushSeq.val + 1 < u32Bound) (byteSize : Nat) :
    NumberedBelow ((σ.writer.flushed byteSize).specs ++ σ.published) σ.writer.namePrefix "-d"
        (σ.writer.flushed byteSize).flushSeq.val ∧
      NumberedBelow ((σ.writer.flushed byteSize).specs ++ σ.published) σ.writer.namePrefix "-c"
        σ.writer.compactSeq.val := by
  have hnext : (σ.writer.flushed byteSize).flushSeq.val = σ.writer.flushSeq.val + 1 := Nat.mod_eq_of_lt hfits
  have hmem : ∀ s ∈ (σ.writer.flushed byteSize).specs ++ σ.published,
      s ∈ σ.writer.specs ++ σ.published ∨ s.dataFile = seqName σ.writer.namePrefix "-d" σ.writer.flushSeq.val := by
    intro s hs
    rcases List.mem_append.mp hs with hs | hs
    · rcases List.mem_append.mp hs with hs | hs
      · exact Or.inl (List.mem_append_left _ hs)
      · obtain rfl := List.mem_singleton.mp hs
        exact Or.inr rfl
    · exact Or.inl (List.mem_append_right _ hs)
  constructor
  · intro s hs n hn heq
    rw [hnext]
    rcases hmem s hs with hs | hname
    · exact Nat.lt_succ_of_lt (h.flush s hs n hn heq)
    · rw [hname] at heq
      rw [seqName_injective heq]
      exact Nat.lt_succ_self _
  · intro s hs n hn heq
    rcases hmem s hs with hs | hname
    · exact h.compact s hs n hn heq
    · rw [hname] at heq
      exact absurd heq (seqName_ne _ _ _)

/-- The merged split of a compaction takes the number of its counter. -/
theorem Named.compacted (h : σ.Named) (hfits : σ.writer.compactSeq.val + 1 < u32Bound) (inputs : List (String × Bytes))
    (merged : PostMap) (dead : Bitmap) (byteSize : Nat) :
    NumberedBelow ((σ.writer.compacted inputs merged dead byteSize).specs ++ σ.published) σ.writer.namePrefix "-d"
        σ.writer.flushSeq.val ∧
      NumberedBelow ((σ.writer.compacted inputs merged dead byteSize).specs ++ σ.published) σ.writer.namePrefix "-c"
        (σ.writer.compacted inputs merged dead byteSize).compactSeq.val := by
  have hnext : (σ.writer.compacted inputs merged dead byteSize).compactSeq.val = σ.writer.compactSeq.val + 1 :=
    Nat.mod_eq_of_lt hfits
  have hmem : ∀ s ∈ (σ.writer.compacted inputs merged dead byteSize).specs ++ σ.published,
      s ∈ σ.writer.specs ++ σ.published ∨ s.dataFile = seqName σ.writer.namePrefix "-c" σ.writer.compactSeq.val := by
    intro s hs
    rcases List.mem_append.mp hs with hs | hs
    · rcases List.mem_append.mp hs with hs | hs
      · exact Or.inl (List.mem_append_left _ (List.mem_of_mem_filter hs))
      · obtain rfl := List.mem_singleton.mp hs
        exact Or.inr rfl
    · exact Or.inl (List.mem_append_right _ hs)
  constructor
  · intro s hs n hn heq
    rcases hmem s hs with hs | hname
    · exact h.flush s hs n hn heq
    · rw [hname] at heq
      exact absurd heq.symm (seqName_ne _ _ _)
  · intro s hs n hn heq
    rw [hnext]
    rcases hmem s hs with hs | hname
    · exact Nat.lt_succ_of_lt (h.compact s hs n hn heq)
    · rw [hname] at heq
      rw [seqName_injective heq]
      exact Nat.lt_succ_self _

omit [Roaring] in
/-- With the splits of the writer alone, when they are those of the manifest. -/
theorem NumberedBelow.published {w : SplitSetWriter} {marker : String} {bound : Nat} {more : List SplitSpec}
    (hpub : σ.published = w.specs) (h : NumberedBelow (w.specs ++ more) w.namePrefix marker bound) :
    NumberedBelow (w.specs ++ σ.published) w.namePrefix marker bound := by
  have hw : NumberedBelow w.specs w.namePrefix marker bound := h.subset fun s hs => List.mem_append_left _ hs
  rw [hpub]
  exact hw.append hw

/-- A call that leaves the counters room keeps the numbers in use below them. -/
theorem Named.step {l : WriterCall × WriterOutcome} (h : σ.Named) (hw : σ.writer.Sized) (hs : NamesStep σ l σ') :
    σ'.Named := by
  obtain ⟨⟨hcall, hmem⟩, hfits⟩ := hs
  have hw' := sized_step hw ⟨hcall, hmem⟩
  obtain ⟨c, o⟩ := l
  have heff := call_effect hcall
  cases heff with
  | added keys => exact ⟨h.flush, h.compact⟩
  | deleted globalId => exact ⟨h.flush, h.compact⟩
  | idle hcount hdel => exact h
  | flushFailed bytes e hsome hfile hemit =>
    obtain ⟨hflush, hcompact⟩ := h.flushed hfits bytes.length
    exact ⟨hflush, hcompact⟩
  | flushed bytes manifest hsome hfile hemit =>
    obtain ⟨hflush, hcompact⟩ := h.flushed hfits bytes.length
    have hpub := @published_put σ _ hw' (seqName σ.writer.namePrefix "-d" σ.writer.flushSeq.val) bytes manifest hemit
      (hmem.manifest_lt manifest rfl)
    exact ⟨NumberedBelow.published hpub hflush, NumberedBelow.published hpub hcompact⟩
  | refused inputs e hgather => exact h
  | compactFailed inputs merged dead bytes e hgather hfile hemit =>
    obtain ⟨hflush, hcompact⟩ := h.compacted hfits inputs (SplitSetWriter.surviving merged dead) dead bytes.length
    exact ⟨hflush, hcompact⟩
  | compacted inputs merged dead bytes manifest hgather hfile hemit =>
    obtain ⟨hflush, hcompact⟩ := h.compacted hfits inputs (SplitSetWriter.surviving merged dead) dead bytes.length
    have hpub := @published_put σ _ hw' (seqName σ.writer.namePrefix "-c" σ.writer.compactSeq.val) bytes manifest hemit
      (hmem.manifest_lt manifest rfl)
    exact ⟨NumberedBelow.published hpub hflush, NumberedBelow.published hpub hcompact⟩
  | resumed args bytes prev hm hprev => exact named_resumed hm hprev hfits

/-- A run that leaves the counters room keeps the numbers in use below them. -/
theorem Named.run {σ₀ : Session} {tr : List (WriterCall × WriterOutcome)} (h₀ : Starts σ₀)
    (hlast : NoLastSeq σ₀.published σ₀.writer.namePrefix) (h : Run NamesStep σ₀ tr σ) : σ.Named ∧ σ.writer.Sized := by
  refine h.invariant (I := fun _ σ => σ.Named ∧ σ.writer.Sized) ⟨named_starts h₀ hlast, sized_starts h₀⟩ ?_
  intro _ σ l σ' hI hs
  exact ⟨hI.1.step hI.2 hs, sized_step hI.2 hs.1⟩

/-- **A new split has a name that no split of the current manifest has**, in every run that leaves the counters
room. -/
theorem names_fresh {σ₀ : Session} {tr : List (WriterCall × WriterOutcome)} (h₀ : Starts σ₀)
    (hlast : NoLastSeq σ₀.published σ₀.writer.namePrefix) (hrun : Run NamesStep σ₀ tr σ) {c : WriterCall} {name : String}
    (hs : Step σ (c, .emitted name) σ') : ∀ s ∈ σ.published, s.dataFile ≠ name := by
  obtain ⟨hnamed, -⟩ := Named.run h₀ hlast hrun
  intro s hsplit heq
  have hmem : s ∈ σ.writer.specs ++ σ.published := List.mem_append_right _ hsplit
  have heff := call_effect hs.1
  cases heff with
  | flushed bytes manifest hsome hfile hemit =>
    exact Nat.lt_irrefl _ (hnamed.flush s hmem _ σ.writer.flushSeq.isLt heq)
  | compacted inputs merged dead bytes manifest hgather hfile hemit =>
    exact Nat.lt_irrefl _ (hnamed.compact s hmem _ σ.writer.compactSeq.isLt heq)

end

/-! ## The last number -/

/-- The delta split of a deletion, under the number `seq`. -/
def emptyDelta (seq : Nat) : SplitSpec := ⟨seqName "p" "-d" seq, 0, 0, 0, 0, 1, 0, 0, []⟩

def emptyDeltaConfig : SplitSetConfig := ⟨.tiered, 0, 0, 1, 3, .trigram, none, 0⟩

section

attribute [local instance] PortableCodec.roaring

/-- Behind the last number comes zero: the name of a split that is in use. -/
theorem name_reused : ∃ σ₀ σ σ' name, Starts σ₀ ∧ Step σ₀ (.delete (wrapAdd 0 0), .nothing) σ ∧
    Step σ (.flush, .emitted name) σ' ∧ ∃ s ∈ σ.published, s.dataFile = name := by
  have hcheck : ((reopen [emptyDelta 0, emptyDelta 4294967295] emptyDeltaConfig resumeArgs).bind fun σ₀ =>
      (σ₀.call (.delete (wrapAdd 0 0))).bind fun r => (r.2.call .flush).map fun r' =>
        decide (r.1 = .nothing ∧ r.2.InMemory ∧ r'.2.InMemory ∧
          ∃ s ∈ r.2.published, r'.1 = .emitted s.dataFile)) = some true := by decide +kernel
  obtain ⟨σ₀, hopen, hcheck⟩ := Option.bind_eq_some_iff.mp hcheck
  obtain ⟨⟨o, σ⟩, hdelete, hcheck⟩ := Option.bind_eq_some_iff.mp hcheck
  obtain ⟨⟨o', σ'⟩, hflush, hcheck⟩ := Option.map_eq_some_iff.mp hcheck
  obtain ⟨rfl, hmem, hmem', s, hs, rfl⟩ := of_decide_eq_true hcheck
  exact ⟨σ₀, σ, σ', s.dataFile, starts_reopen hopen, ⟨hdelete, hmem⟩, ⟨hflush, hmem'⟩, s, hs, rfl⟩

/-- Over the first delta split, the second is named apart. -/
theorem names_fresh_second : ∃ σ₀ σ σ' name, Starts σ₀ ∧ Run NamesStep σ₀ [(.delete (wrapAdd 0 0), .nothing)] σ ∧
    Step σ (.flush, .emitted name) σ' ∧ σ.published.length = 1 ∧ ∀ s ∈ σ.published, s.dataFile ≠ name := by
  have hcheck : ((reopen [emptyDelta 0] emptyDeltaConfig resumeArgs).bind fun σ₀ =>
      (σ₀.call (.delete (wrapAdd 0 0))).bind fun r => (r.2.call .flush).map fun r' =>
        decide (r.1 = .nothing ∧ r.2.InMemory ∧ r'.2.InMemory ∧ r'.1 = .emitted "p-d00001.rrs" ∧
          NoLastSeq σ₀.published σ₀.writer.namePrefix ∧ r.2.published.length = 1)) = some true := by decide +kernel
  obtain ⟨σ₀, hopen, hcheck⟩ := Option.bind_eq_some_iff.mp hcheck
  obtain ⟨⟨o, σ⟩, hdelete, hcheck⟩ := Option.bind_eq_some_iff.mp hcheck
  obtain ⟨⟨o', σ'⟩, hflush, hcheck⟩ := Option.map_eq_some_iff.mp hcheck
  obtain ⟨ho, hmem, hmem', ho', hlast, hone⟩ := of_decide_eq_true hcheck
  simp only at ho hmem hmem' ho' hone
  subst ho ho'
  have hstep : NamesStep σ₀ (.delete (wrapAdd 0 0), .nothing) σ := ⟨⟨hdelete, hmem⟩, trivial⟩
  have hnew : Step σ (.flush, .emitted "p-d00001.rrs") σ' := ⟨hflush, hmem'⟩
  exact ⟨σ₀, σ, σ', _, starts_reopen hopen, Run.single hstep, hnew, hone,
    names_fresh (starts_reopen hopen) hlast (Run.single hstep) hnew⟩

end

end Session

end RoaringRange
