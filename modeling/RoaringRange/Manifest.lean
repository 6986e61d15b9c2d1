import RoaringRange.FacetBuild
import RoaringRange.SplitSet

/-!
# The RRSS manifest writer (`splitset_build.rs`)

`writeSplitset` lays out the header, the split entries, the names and the summaries of a manifest.  It
fails only where a count, a name or a summary does not fit its field (`ManifestFits`).

    writeSplitset of what fits returns bytes, of what does not an error      (writeSplitset_ok_iff)
    opening the bytes reads the configuration and the splits back                 (exists_manifest)
-/

namespace RoaringRange

open ByteString Faults Slices

/-! ## The writer -/

/-- `splitset_build::SplitSpec`. -/
structure SplitSpec where
  dataFile : String
  tier : Nat
  docCount : Nat
  docIdLo : Nat
  docIdHi : Nat
  epoch : Nat
  byteSize : Nat
  flags : Nat
  summary : Bytes
  deriving DecidableEq

/-- `splitset_build::SplitSetConfig`. -/
structure SplitSetConfig where
  policy : Policy
  tierCount : Nat
  baseCount : Nat
  byteCap : Nat
  gramSize : Nat
  bodyKind : BodyKind
  sortcol : Option SortColDescriptor
  flags : Nat

/-- `splitset_build::push_name`: where the name is put, and the blob with it. -/
def pushName (blob : Bytes) (name : String) : Except String ((Nat × Nat) × Bytes) :=
  if 2 ^ 32 ≤ blob.length then .error "RRSS string blob exceeds the 32-bit limit"
  else if 2 ^ 16 ≤ (utf8 name).length then .error "RRSS name exceeds the 16-bit length limit"
  else .ok ((blob.length, (utf8 name).length), blob ++ utf8 name)

/-- The names of the splits, in order. -/
def pushNames (blob : Bytes) : List SplitSpec → Except String (List (Nat × Nat) × Bytes)
  | [] => .ok ([], blob)
  | s :: specs => do
    let (span, blob) ← pushName blob s.dataFile
    let (spans, blob) ← pushNames blob specs
    pure (span :: spans, blob)

/-- The summaries of the splits, in order; an empty one takes no place. -/
def pushSummaries (blob : Bytes) : List SplitSpec → Except String (List (Nat × Nat) × Bytes)
  | [] => .ok ([], blob)
  | s :: specs =>
    if s.summary.isEmpty then do
      let (spans, blob) ← pushSummaries blob specs
      pure ((0, 0) :: spans, blob)
    else if 2 ^ 32 ≤ s.summary.length then .error "RRSS split summary exceeds the 32-bit limit"
    else do
      let (spans, more) ← pushSummaries (blob ++ s.summary) specs
      pure ((blob.length, s.summary.length) :: spans, more)

/-- The name of the sort column after the names of the splits, and its fields of the header. -/
def pushSortcol (blob : Bytes) : Option SortColDescriptor → Except String ((Nat × Nat) × Bytes)
  | none => .ok ((0, 0), blob)
  | some sc => pushName blob sc.name

/-- A split entry: the split, its name's place and its summary's. -/
structure SplitRow where
  spec : SplitSpec
  name : Nat × Nat
  summary : Nat × Nat

def splitRow (r : SplitRow) : Bytes :=
  le 4 r.name.1 ++ (le 2 r.name.2 ++ (le 2 r.spec.tier ++ (le 4 r.spec.docCount ++ (le 4 r.spec.docIdLo ++
    (le 4 r.spec.docIdHi ++ (le 2 r.spec.flags ++ (le 2 0 ++ (le 8 r.spec.byteSize ++ (le 8 r.spec.epoch ++
      (le 8 r.summary.1 ++ (le 4 r.summary.2 ++ le 4 0)))))))))))

/-- The rows of the entries, in split order. -/
def splitRows : List SplitSpec → List (Nat × Nat) → List (Nat × Nat) → List SplitRow
  | s :: specs, name :: names, summary :: summaries => ⟨s, name, summary⟩ :: splitRows specs names summaries
  | _, _, _ => []

/-- The fixed header of a manifest. -/
def rrssHeader (config : SplitSetConfig) (splitCount strBytes summaryBytes : Nat) (sortcolName : Nat × Nat) : Bytes :=
  rrssMagic ++ (le 2 rrssVersion ++ (le 2 config.flags ++ (le 1 config.policy.toU8 ++ (le 1 config.bodyKind.toU8 ++
    (le 2 config.tierCount ++ (le 4 splitCount ++ (le 4 config.baseCount ++ (le 4 strBytes ++
      (le 8 summaryBytes ++ (le 8 config.byteCap ++ (le 4 sortcolName.1 ++ (le 2 sortcolName.2 ++
        (le 2 ((config.sortcol.map SortColDescriptor.column).getD 0) ++
          (le 1 (if (config.sortcol.map SortColDescriptor.descending).getD false then sortcolFlagDescending else 0) ++
            (le 2 config.gramSize ++ (le 5 0 ++ le 8 0))))))))))))))))

/-- `splitset_build::write_splitset`. -/
def writeSplitset (splits : List SplitSpec) (config : SplitSetConfig) : Except String Bytes :=
  if 2 ^ 32 ≤ splits.length then .error "RRSS split count exceeds the 32-bit limit"
  else if splits.length < config.baseCount then
    .error ("RRSS base_count " ++ toString config.baseCount ++ " exceeds split count " ++ toString splits.length)
  else do
    let (nameSpans, blob) ← pushNames [] splits
    let (sortcolName, stringBlob) ← pushSortcol blob config.sortcol
    let (summarySpans, summaryBlob) ← pushSummaries [] splits
    if 2 ^ 32 ≤ stringBlob.length then throw "RRSS string blob exceeds the 32-bit limit"
    else
      pure (rrssHeader config splits.length stringBlob.length summaryBlob.length sortcolName ++
        (table splitRow (splitRows splits nameSpans summarySpans) ++ (stringBlob ++ summaryBlob)))

/-! ## What fits -/

/-- The names of a manifest, one after the other. -/
def nameBytes (splits : List SplitSpec) (sortcol : Option SortColDescriptor) : Bytes :=
  (splits.flatMap fun s => utf8 s.dataFile) ++ (sortcol.map fun sc => utf8 sc.name).getD []

/-- Counts, names and summaries within the fields of a manifest. -/
structure ManifestFits (splits : List SplitSpec) (config : SplitSetConfig) : Prop where
  count_lt : splits.length < 2 ^ 32
  base_le : config.baseCount ≤ splits.length
  name_lt : ∀ s ∈ splits, (utf8 s.dataFile).length < 2 ^ 16
  sortcol_lt : ∀ sc, config.sortcol = some sc → (utf8 sc.name).length < 2 ^ 16
  names_lt : (nameBytes splits config.sortcol).length < 2 ^ 32
  summary_lt : ∀ s ∈ splits, s.summary.length < 2 ^ 32

/-- A split whose fields are within their integer types. -/
structure SplitSpec.InRange (s : SplitSpec) : Prop where
  tier_lt : s.tier < 2 ^ 16
  docCount_lt : s.docCount < 2 ^ 32
  docIdLo_lt : s.docIdLo < 2 ^ 32
  docIdHi_lt : s.docIdHi < 2 ^ 32
  flags_lt : s.flags < 2 ^ 16
  byteSize_lt : s.byteSize < 2 ^ 64
  epoch_lt : s.epoch < 2 ^ 64

structure SplitSetConfig.InRange (c : SplitSetConfig) : Prop where
  flags_lt : c.flags < 2 ^ 16
  tierCount_lt : c.tierCount < 2 ^ 16
  byteCap_lt : c.byteCap < 2 ^ 64
  gramSize_lt : c.gramSize < 2 ^ 16
  column_lt : ∀ sc, c.sortcol = some sc → sc.column < 2 ^ 16

section

variable {splits : List SplitSpec} {config : SplitSetConfig} {blob : Bytes}

theorem pushName_eq {name : String} (hb : blob.length < 2 ^ 32) (hn : (utf8 name).length < 2 ^ 16) :
    pushName blob name = .ok ((blob.length, (utf8 name).length), blob ++ utf8 name) ∧
      NameAt (blob ++ utf8 name) blob.length (utf8 name).length name := by
  constructor
  · rw [pushName, if_neg (by omega), if_neg (by omega)]
  · refine ⟨hb, hn, by rw [List.length_append], ?_⟩
    rw [slice_append_right _ _ _ _ (Nat.le_refl _), Nat.sub_self, slice_zero_length]

theorem pushName_ok {name : String} {r : (Nat × Nat) × Bytes} (h : pushName blob name = .ok r) :
    blob.length < 2 ^ 32 ∧ (utf8 name).length < 2 ^ 16 ∧ r.2 = blob ++ utf8 name := by
  unfold pushName at h
  split at h
  · cases h
  · split at h
    · cases h
    · obtain rfl := Except.ok.inj h
      exact ⟨by omega, by omega, rfl⟩

theorem pushNames_eq (hn : ∀ s ∈ splits, (utf8 s.dataFile).length < 2 ^ 16)
    (hb : (blob ++ splits.flatMap fun s => utf8 s.dataFile).length < 2 ^ 32) :
    ∃ spans, pushNames blob splits = .ok (spans, blob ++ splits.flatMap fun s => utf8 s.dataFile) ∧
      List.Forall₂ (fun sp s => NameAt (blob ++ splits.flatMap fun s => utf8 s.dataFile) sp.1 sp.2 s.dataFile)
        spans splits := by
  induction splits generalizing blob with
  | nil => exact ⟨[], by simp [pushNames], List.Forall₂.nil⟩
  | cons s splits ih =>
    rw [List.flatMap_cons, ← List.append_assoc] at hb ⊢
    have hlen : blob.length < 2 ^ 32 := by
      simp only [List.length_append] at hb
      omega
    obtain ⟨hpush, hat⟩ := pushName_eq hlen (hn s List.mem_cons_self)
    obtain ⟨spans, hspans, hall⟩ := ih (fun t ht => hn t (List.mem_cons_of_mem _ ht)) hb
    refine ⟨(blob.length, (utf8 s.dataFile).length) :: spans, ?_, List.Forall₂.cons (hat.append _) hall⟩
    rw [pushNames, hpush]
    simp only [bind, Except.bind]
    rw [hspans]
    rfl

theorem pushNames_ok {r : List (Nat × Nat) × Bytes} (h : pushNames blob splits = .ok r) :
    (∀ s ∈ splits, (utf8 s.dataFile).length < 2 ^ 16) ∧ r.2 = blob ++ splits.flatMap fun s => utf8 s.dataFile := by
  induction splits generalizing blob r with
  | nil =>
    obtain rfl := Except.ok.inj h
    exact ⟨by simp, by simp⟩
  | cons s splits ih =>
    rw [pushNames] at h
    cases hp : pushName blob s.dataFile with
    | error e =>
      rw [hp] at h
      cases h
    | ok p =>
      rw [hp] at h
      simp only [bind, Except.bind] at h
      cases hps : pushNames p.2 splits with
      | error e =>
        rw [hps] at h
        cases h
      | ok q =>
        rw [hps] at h
        obtain rfl := Except.ok.inj h
        obtain ⟨-, hname, hblob⟩ := pushName_ok hp
        obtain ⟨hall, hmore⟩ := ih hps
        refine ⟨fun t ht => ?_, ?_⟩
        · rcases List.mem_cons.mp ht with rfl | ht
          · exact hname
          · exact hall t ht
        · rw [hmore, hblob, List.flatMap_cons, List.append_assoc]

/-- The summary is at its place in the blob. -/
structure SummaryAt (blob : Bytes) (span : Nat × Nat) (summary : Bytes) : Prop where
  len_eq : span.2 = summary.length
  len_lt : span.2 < 2 ^ 32
  inside : span.1 + span.2 ≤ blob.length
  slice_eq : slice blob span.1 span.2 = summary

theorem SummaryAt.append {span : Nat × Nat} {summary : Bytes} (h : SummaryAt blob span summary) (more : Bytes) :
    SummaryAt (blob ++ more) span summary := by
  refine ⟨h.len_eq, h.len_lt, ?_, ?_⟩
  · rw [List.length_append]
    exact Nat.le_add_right_of_le h.inside
  · rw [slice_append_left _ _ _ _ h.inside, h.slice_eq]

theorem pushSummaries_eq (hs : ∀ s ∈ splits, s.summary.length < 2 ^ 32) :
    ∃ spans, pushSummaries blob splits = .ok (spans, blob ++ splits.flatMap SplitSpec.summary) ∧
      List.Forall₂ (fun sp s => SummaryAt (blob ++ splits.flatMap SplitSpec.summary) sp s.summary) spans splits := by
  induction splits generalizing blob with
  | nil => exact ⟨[], by simp [pushSummaries], List.Forall₂.nil⟩
  | cons s splits ih =>
    have hlt := hs s List.mem_cons_self
    have hrest : ∀ t ∈ splits, t.summary.length < 2 ^ 32 := fun t ht => hs t (List.mem_cons_of_mem _ ht)
    rw [pushSummaries, List.flatMap_cons]
    by_cases he : s.summary.isEmpty = true
    · obtain ⟨spans, hspans, hall⟩ := @ih blob hrest
      rw [if_pos he, List.isEmpty_iff.mp he, List.nil_append]
      refine ⟨(0, 0) :: spans, ?_, List.Forall₂.cons ?_ hall⟩
      · rw [hspans]
        rfl
      · rw [List.isEmpty_iff.mp he]
        exact ⟨rfl, by decide, Nat.zero_le _, slice_len_zero _ _⟩
    · obtain ⟨spans, hspans, hall⟩ := @ih (blob ++ s.summary) hrest
      rw [if_neg he, if_neg (by omega), ← List.append_assoc]
      refine ⟨(blob.length, s.summary.length) :: spans, ?_, List.Forall₂.cons (SummaryAt.append ?_ _) hall⟩
      · rw [hspans]
        rfl
      · refine ⟨rfl, hlt, by rw [List.length_append], ?_⟩
        rw [slice_append_right _ _ _ _ (Nat.le_refl _), Nat.sub_self, slice_zero_length]

theorem pushSummaries_ok {r : List (Nat × Nat) × Bytes} (h : pushSummaries blob splits = .ok r) :
    ∀ s ∈ splits, s.summary.length < 2 ^ 32 := by
  induction splits generalizing blob r with
  | nil => simp
  | cons s splits ih =>
    rw [pushSummaries] at h
    intro t ht
    split at h
    · next he =>
      cases hps : pushSummaries blob splits with
      | error e =>
        rw [hps] at h
        cases h
      | ok q =>
        rcases List.mem_cons.mp ht with rfl | ht
        · rw [List.isEmpty_iff.mp he]
          decide
        · exact ih hps t ht
    · split at h
      · cases h
      · next hlt =>
        cases hps : pushSummaries (blob ++ s.summary) splits with
        | error e =>
          rw [hps] at h
          cases h
        | ok q =>
          rcases List.mem_cons.mp ht with rfl | ht
          · omega
          · exact ih hps t ht

theorem pushSortcol_eq {sortcol : Option SortColDescriptor} (hb : (blob ++ (sortcol.map fun sc => utf8 sc.name).getD []).length < 2 ^ 32)
    (hn : ∀ sc, sortcol = some sc → (utf8 sc.name).length < 2 ^ 16) :
    ∃ span, pushSortcol blob sortcol = .ok (span, blob ++ (sortcol.map fun sc => utf8 sc.name).getD []) ∧
      (sortcol = none → span = (0, 0)) ∧ ∀ sc, sortcol = some sc →
        NameAt (blob ++ (sortcol.map fun sc => utf8 sc.name).getD []) span.1 span.2 sc.name := by
  cases sortcol with
  | none => exact ⟨(0, 0), by simp [pushSortcol], fun _ => rfl, fun sc h => (by cases h)⟩
  | some sc =>
    simp only [Option.map_some, Option.getD_some, List.length_append] at hb ⊢
    obtain ⟨hpush, hat⟩ := @pushName_eq blob sc.name (by omega) (hn sc rfl)
    refine ⟨_, hpush, fun h => (by cases h), fun sc' h => ?_⟩
    obtain rfl := Option.some.inj h
    exact hat

theorem pushSortcol_ok {sortcol : Option SortColDescriptor} {r : (Nat × Nat) × Bytes}
    (h : pushSortcol blob sortcol = .ok r) : (∀ sc, sortcol = some sc → (utf8 sc.name).length < 2 ^ 16) ∧
      r.2 = blob ++ (sortcol.map fun sc => utf8 sc.name).getD [] := by
  cases sortcol with
  | none =>
    obtain rfl := Except.ok.inj h
    exact ⟨fun sc h => (by cases h), by simp⟩
  | some sc =>
    obtain ⟨-, hname, hblob⟩ := pushName_ok h
    refine ⟨fun sc' h => ?_, hblob⟩
    obtain rfl := Option.some.inj h
    exact hname

/-- The bytes of a manifest that fits, and where its names and summaries are. -/
theorem writeSplitset_eq (hf : ManifestFits splits config) :
    ∃ names summaries sortcolName,
      writeSplitset splits config = .ok (rrssHeader config splits.length (nameBytes splits config.sortcol).length
        (splits.flatMap SplitSpec.summary).length sortcolName ++ (table splitRow (splitRows splits names summaries) ++
          (nameBytes splits config.sortcol ++ splits.flatMap SplitSpec.summary))) ∧
      List.Forall₂ (fun sp s => NameAt (nameBytes splits config.sortcol) sp.1 sp.2 s.dataFile) names splits ∧
      List.Forall₂ (fun sp s => SummaryAt (splits.flatMap SplitSpec.summary) sp s.summary) summaries splits ∧
      (config.sortcol = none → sortcolName = (0, 0)) ∧ ∀ sc, config.sortcol = some sc →
        NameAt (nameBytes splits config.sortcol) sortcolName.1 sortcolName.2 sc.name := by
  have hnames := hf.names_lt
  have hcount := hf.count_lt
  have hbase := hf.base_le
  have hsplit : ((splits.flatMap fun s => utf8 s.dataFile)).length < 2 ^ 32 := by
    rw [nameBytes, List.length_append] at hnames
    omega
  obtain ⟨names, hpn, hat⟩ := @pushNames_eq splits [] hf.name_lt (by rw [List.nil_append]; exact hsplit)
  obtain ⟨sortcolName, hps, hnone, hsome⟩ := pushSortcol_eq hnames hf.sortcol_lt
  obtain ⟨summaries, hpsum, hsum⟩ := @pushSummaries_eq splits [] hf.summary_lt
  rw [List.nil_append] at hpn hpsum hat hsum
  refine ⟨names, summaries, sortcolName, ?_, hat.imp fun _ _ h => h.append _, hsum, hnone, hsome⟩
  rw [writeSplitset, if_neg (by omega), if_neg (by omega), hpn]
  simp only [bind, Except.bind]
  rw [hps]
  simp only
  rw [hpsum]
  simp only
  rw [if_neg (by rw [nameBytes] at hnames; omega)]
  rfl

/-- What is written fits. -/
theorem writeSplitset_fits {bytes : Bytes} (h : writeSplitset splits config = .ok bytes) :
    ManifestFits splits config := by
  unfold writeSplitset at h
  split at h
  · cases h
  · next hcount =>
    split at h
    · cases h
    · next hbase =>
      cases hn : pushNames [] splits with
      | error e =>
        rw [hn] at h
        cases h
      | ok names =>
        rw [hn] at h
        simp only [bind, Except.bind] at h
        cases hs : pushSortcol names.2 config.sortcol with
        | error e =>
          rw [hs] at h
          cases h
        | ok sortcolName =>
          rw [hs] at h
          simp only at h
          cases hsum : pushSummaries [] splits with
          | error e =>
            rw [hsum] at h
            cases h
          | ok summaries =>
            rw [hsum] at h
            simp only at h
            split at h
            · cases h
            · next hlen =>
              obtain ⟨hname, hblob⟩ := pushNames_ok hn
              obtain ⟨hsc, hblob'⟩ := pushSortcol_ok hs
              refine ⟨by omega, by omega, hname, hsc, ?_, pushSummaries_ok hsum⟩
              rw [hblob', hblob, List.nil_append] at hlen
              rw [nameBytes]
              omega

/-- **The writer fails only on what does not fit.** -/
theorem writeSplitset_ok_iff : (∃ bytes, writeSplitset splits config = .ok bytes) ↔ ManifestFits splits config := by
  constructor
  · rintro ⟨bytes, h⟩
    exact writeSplitset_fits h
  · intro hf
    obtain ⟨_, _, _, h, -⟩ := writeSplitset_eq hf
    exact ⟨_, h⟩

end

/-! ## Reading it back -/

/-- A split of an open manifest is the one the writer was given. -/
structure SplitOf (set : SplitSet) (split : Split) (spec : SplitSpec) : Prop where
  dataFile : split.dataFile = spec.dataFile
  tier : split.tier = spec.tier
  docCount : split.docCount = spec.docCount
  docIdLo : split.docIdLo = spec.docIdLo
  docIdHi : split.docIdHi = spec.docIdHi
  flags : split.flags = spec.flags
  byteSize : split.byteSize = spec.byteSize
  epoch : split.epoch = spec.epoch
  summary : (set.summary split).getD [] = spec.summary

/-- The split as its manifest entry. -/
def SplitSpec.entry (spec : SplitSpec) : Split :=
  ⟨spec.dataFile, spec.tier, spec.docCount, spec.docIdLo, spec.docIdHi, spec.flags, spec.byteSize, spec.epoch, 0, 0⟩

/-- An entry's ids are those of its split. -/
theorem SplitOf.routes_eq {set : SplitSet} {split : Split} {spec : SplitSpec} (h : SplitOf set split spec) :
    split.contains = spec.entry.contains ∧ split.toLocal = spec.entry.toLocal ∧ split.toGlobal = spec.entry.toGlobal := by
  refine ⟨?_, ?_, ?_⟩
  · funext d
    unfold Split.contains
    rw [h.docCount, h.docIdLo, h.docIdHi]
    rfl
  · funext d
    unfold Split.toLocal Split.absoluteIds
    rw [h.flags, h.docIdLo]
    rfl
  · funext d
    unfold Split.toGlobal Split.absoluteIds
    rw [h.flags, h.docIdLo]
    rfl

/-- An open manifest is the configuration and the splits the writer was given. -/
structure SplitSet.Describes (set : SplitSet) (config : SplitSetConfig) (splits : List SplitSpec) : Prop where
  policy : set.policy = config.policy
  flags : set.flags = config.flags
  tierCount : set.tierCount = config.tierCount
  baseCount : set.baseCount = config.baseCount
  byteCap : set.byteCap = config.byteCap
  gramSize : set.gramSize = config.gramSize
  bodyKind : set.bodyKind = config.bodyKind
  caseFold : set.caseFold = !hasFlag config.flags flagCaseSensitive
  /-- A sort column with an empty name reads back as none. -/
  sortcol : set.sortcol = config.sortcol.filter fun sc => sc.name ≠ ""
  splits : List.Forall₂ (SplitOf set) set.splits splits

section

variable {splits : List SplitSpec} {config : SplitSetConfig}

theorem length_splitRow (r : SplitRow) : (splitRow r).length = 56 := by simp [splitRow]

@[simp] theorem length_rrssHeader (config : SplitSetConfig) (splitCount strBytes summaryBytes : Nat) (sortcolName : Nat × Nat) :
    (rrssHeader config splitCount strBytes summaryBytes sortcolName).length = 64 := by
  simp [rrssHeader, rrssMagic]

theorem splitRow_fields {r : SplitRow} (hs : r.spec.InRange) (hn : r.name.1 < 2 ^ 32 ∧ r.name.2 < 2 ^ 16)
    (hsum : r.summary.1 < 2 ^ 64 ∧ r.summary.2 < 2 ^ 32) :
    getLe 4 (splitRow r) 0 = r.name.1 ∧ getLe 2 (splitRow r) 4 = r.name.2 ∧ getLe 2 (splitRow r) 6 = r.spec.tier ∧
    getLe 4 (splitRow r) 8 = r.spec.docCount ∧ getLe 4 (splitRow r) 12 = r.spec.docIdLo ∧
    getLe 4 (splitRow r) 16 = r.spec.docIdHi ∧ getLe 2 (splitRow r) 20 = r.spec.flags ∧
    getLe 8 (splitRow r) 24 = r.spec.byteSize ∧ getLe 8 (splitRow r) 32 = r.spec.epoch ∧
    getLe 8 (splitRow r) 40 = r.summary.1 ∧ getLe 4 (splitRow r) 48 = r.summary.2 := by
  obtain ⟨h1, h2, h3, h4, h5, h6, h7⟩ := hs
  unfold splitRow
  refine ⟨?_, ?_, ?_, ?_, ?_, ?_, ?_, ?_, ?_, ?_, ?_⟩ <;>
    simp (disch := simp) only [getLe_append_right, length_le, Nat.reduceSub, getLe_le_append] <;> omega

/-- What the header of a manifest says. -/
structure HeaderOf (b : Bytes) (config : SplitSetConfig) (splitCount strBytes summaryBytes : Nat)
    (sortcolName : Nat × Nat) : Prop where
  magic : slice b 0 4 = rrssMagic
  version : getLe 2 b 4 = rrssVersion
  flags : getLe 2 b 6 = config.flags
  policy : getLe 1 b 8 = config.policy.toU8
  bodyKind : getLe 1 b 9 = config.bodyKind.toU8
  tierCount : getLe 2 b 10 = config.tierCount
  splitCount : getLe 4 b 12 = splitCount
  baseCount : getLe 4 b 16 = config.baseCount
  strBytes : getLe 4 b 20 = strBytes
  summaryBytes : getLe 8 b 24 = summaryBytes
  byteCap : getLe 8 b 32 = config.byteCap
  sortcolOff : getLe 4 b 40 = sortcolName.1
  sortcolLen : getLe 2 b 44 = sortcolName.2
  column : getLe 2 b 46 = (config.sortcol.map SortColDescriptor.column).getD 0
  sortcolFlags : getLe 1 b 48 =
    if (config.sortcol.map SortColDescriptor.descending).getD false then sortcolFlagDescending else 0
  gramSize : getLe 2 b 49 = config.gramSize

theorem headerOf_rrssHeader {splitCount strBytes summaryBytes : Nat} {sortcolName : Nat × Nat}
    (hc : config.InRange) (hb : config.baseCount < 2 ^ 32) (hsplit : splitCount < 2 ^ 32)
    (hstr : strBytes < 2 ^ 32) (hsum : summaryBytes < 2 ^ 64) (hname : sortcolName.1 < 2 ^ 32 ∧ sortcolName.2 < 2 ^ 16) :
    HeaderOf (rrssHeader config splitCount strBytes summaryBytes sortcolName) config splitCount strBytes summaryBytes
      sortcolName := by
  obtain ⟨h1, h2, h3, h4, h5⟩ := hc
  have hpolicy : config.policy.toU8 < 256 := by cases config.policy <;> decide
  have hbody : config.bodyKind.toU8 < 256 := by cases config.bodyKind <;> decide
  have hcolumn : (config.sortcol.map SortColDescriptor.column).getD 0 < 2 ^ 16 := by
    cases hsc : config.sortcol with
    | none => decide
    | some sc => exact h5 sc hsc
  have hmagic : rrssMagic.length = 4 := rfl
  unfold rrssHeader
  constructor
  case magic => exact slice_append_left _ _ _ _ (by rw [hmagic])
  all_goals
    simp (disch := simp [hmagic]) only [getLe_append_right, hmagic, length_le, Nat.reduceSub, getLe_le_append]
  case version => rfl
  case sortcolFlags => split <;> rfl
  all_goals omega

/-- The name that was put at a place is read back from it. -/
theorem readSplitName_eq {blob : Bytes} {off len : Nat} {name : String} (h : NameAt blob off len name) :
    readSplitName blob off len = .ok name := by
  rw [readSplitName, if_pos h.inside, h.slice_eq, fromUtf8_utf8]

theorem policy_tryFrom (p : Policy) : Policy.tryFrom p.toU8 = .ok p := by cases p <;> rfl

theorem bodyKind_tryFrom (k : BodyKind) : BodyKind.tryFrom k.toU8 = .ok k := by cases k <;> rfl

/-- A row of the entry table, its name and its summary in their blobs. -/
structure EntryOf (names summaries : Bytes) (r : SplitRow) (s : SplitSpec) : Prop where
  spec : r.spec = s
  name : NameAt names r.name.1 r.name.2 s.dataFile
  summary : SummaryAt summaries r.summary s.summary

theorem entryOf_splitRows {names summaries : Bytes} {nameSpans summarySpans : List (Nat × Nat)}
    (hn : List.Forall₂ (fun sp s => NameAt names sp.1 sp.2 s.dataFile) nameSpans splits)
    (hs : List.Forall₂ (fun sp s => SummaryAt summaries sp s.summary) summarySpans splits) :
    List.Forall₂ (EntryOf names summaries) (splitRows splits nameSpans summarySpans) splits := by
  induction splits generalizing nameSpans summarySpans with
  | nil =>
    cases hn
    exact List.Forall₂.nil
  | cons s splits ih =>
    cases hn with
    | cons hname hn =>
      cases hs with
      | cons hsum hs => exact List.Forall₂.cons ⟨rfl, hname, hsum⟩ (ih hn hs)

/-- The entry of a row is the split that was written. -/
theorem parseSplit_eq {body names summaries : Bytes} {base : Nat} {r : SplitRow} {s : SplitSpec}
    (hrow : ∀ w off : Nat, off + w ≤ 56 → getLe w body (base + off) = getLe w (splitRow r) off)
    (hr : EntryOf names summaries r s) (hs : s.InRange) (hlen : summaries.length < u64Bound) :
    ∃ split, parseSplit body names summaries.length base = .ok split ∧ split.dataFile = s.dataFile ∧
      split.tier = s.tier ∧ split.docCount = s.docCount ∧ split.docIdLo = s.docIdLo ∧ split.docIdHi = s.docIdHi ∧
      split.flags = s.flags ∧ split.byteSize = s.byteSize ∧ split.epoch = s.epoch ∧
      (if split.summaryLen = 0 then none else some (slice summaries split.summaryOff split.summaryLen)).getD [] =
        s.summary := by
  obtain ⟨rfl, hname, hsum⟩ := hr
  have hin := hsum.inside
  have hlt := hsum.len_lt
  have hoff := hname.off_lt
  have hnlen := hname.len_lt
  obtain ⟨h0, h4, h6, h8, h12, h16, h20, h24, h32, h40, h48⟩ :=
    splitRow_fields hs ⟨hoff, hnlen⟩ ⟨by unfold u64Bound at hlen; omega, hlt⟩
  unfold parseSplit
  have hr0 := hrow 4 0 (by omega)
  rw [Nat.add_zero] at hr0
  rw [hr0, hrow 2 4 (by omega), hrow 8 40 (by omega), hrow 4 48 (by omega), h0, h4, h40, h48, readSplitName_eq hname]
  simp only [bind, Except.bind]
  rw [if_neg (by omega), if_neg (by omega)]
  refine ⟨_, rfl, rfl, ?_, ?_, ?_, ?_, ?_, ?_, ?_, ?_⟩
  · exact (hrow 2 6 (by omega)).trans h6
  · exact (hrow 4 8 (by omega)).trans h8
  · exact (hrow 4 12 (by omega)).trans h12
  · exact (hrow 4 16 (by omega)).trans h16
  · exact (hrow 2 20 (by omega)).trans h20
  · exact (hrow 8 24 (by omega)).trans h24
  · exact (hrow 8 32 (by omega)).trans h32
  · simp only
    split
    · next hz =>
      have hnil : r.spec.summary.length = 0 := by rw [← hsum.len_eq, hz]
      rw [List.length_eq_zero_iff.mp hnil]
      rfl
    · rw [hsum.slice_eq]
      rfl

/-- The sort column is read back, if its name is not empty. -/
theorem parseSortcol_eq {header names : Bytes} {splitCount strBytes summaryBytes : Nat} {sortcolName : Nat × Nat}
    (hh : HeaderOf header config splitCount strBytes summaryBytes sortcolName)
    (hnone : config.sortcol = none → sortcolName = (0, 0))
    (hsome : ∀ sc, config.sortcol = some sc → NameAt names sortcolName.1 sortcolName.2 sc.name) :
    SplitSet.parseSortcol header names = .ok (config.sortcol.filter fun sc => sc.name ≠ "") := by
  unfold SplitSet.parseSortcol
  rw [hh.sortcolLen, hh.sortcolOff, hh.column, hh.sortcolFlags]
  cases hsc : config.sortcol with
  | none =>
    rw [hnone hsc]
    rfl
  | some sc =>
    have hat := hsome sc hsc
    have hlen : sortcolName.2 = (utf8 sc.name).length := by
      rw [← hat.slice_eq, length_slice _ _ _ hat.inside]
    by_cases hname : sc.name = ""
    · have hzero : (utf8 sc.name).length = 0 := by
        rw [hname]
        rfl
      have hdrop : (some sc).filter (fun sc => sc.name ≠ "") = none := by simp [Option.filter, hname]
      rw [if_neg (by omega), hdrop]
      rfl
    · have hpos : 0 < sortcolName.2 := by
        by_contra hz
        have hnil : utf8 sc.name = utf8 "" := List.length_eq_zero_iff.mp (by omega)
        have heq : some sc.name = some "" := by
          rw [← fromUtf8_utf8 sc.name, hnil, fromUtf8_utf8]
        exact hname (Option.some.inj heq)
      have hflag : ∀ b : Bool, hasFlag (if b = true then sortcolFlagDescending else 0) sortcolFlagDescending = b := by
        decide
      rw [if_pos hpos, readSplitName_eq hat]
      simp only [Option.map_some, Option.getD_some, hflag, Option.filter, hname, ne_eq, not_false_eq_true, decide_true,
        if_true]
      rfl

/-- **Parsing what was written** gives the configuration and the splits back. -/
theorem parse_eq (hs : ∀ s ∈ splits, s.InRange)
    {header body names summaries : Bytes} {nameSpans summarySpans : List (Nat × Nat)} {sortcolName : Nat × Nat}
    (hbody : body = table splitRow (splitRows splits nameSpans summarySpans) ++ (names ++ summaries))
    (hh : HeaderOf header config splits.length names.length summaries.length sortcolName)
    (hlen : body.length < u64Bound)
    (hn : List.Forall₂ (fun sp s => NameAt names sp.1 sp.2 s.dataFile) nameSpans splits)
    (hsum : List.Forall₂ (fun sp s => SummaryAt summaries sp s.summary) summarySpans splits)
    (hnone : config.sortcol = none → sortcolName = (0, 0))
    (hsome : ∀ sc, config.sortcol = some sc → NameAt names sortcolName.1 sortcolName.2 sc.name) :
    ∃ set, SplitSet.parse header body = .ok set ∧ set.Describes config splits := by
  have hrows := entryOf_splitRows hn hsum
  have hcount := hrows.length_eq
  have htable : (table splitRow (splitRows splits nameSpans summarySpans)).length = splits.length * rrssEntrySize := by
    rw [length_table length_splitRow, hcount]
    rfl
  have hblen : body.length = splits.length * rrssEntrySize + names.length + summaries.length := by
    rw [hbody, List.length_append, List.length_append, htable]
    omega
  have hnames : slice body (splits.length * rrssEntrySize) names.length = names := by
    rw [hbody]
    exact slice_middle _ _ _ _ _ htable.symm rfl
  have hsums : slice body (splits.length * rrssEntrySize + names.length) summaries.length = summaries := by
    have := slice_middle (table splitRow (splitRows splits nameSpans summarySpans) ++ names) summaries []
      (splits.length * rrssEntrySize + names.length) summaries.length (by rw [List.length_append, htable]) rfl
    rw [hbody, ← List.append_assoc]
    simpa only [List.append_nil] using this
  unfold SplitSet.parse
  rw [hh.policy, hh.bodyKind, hh.splitCount, hh.strBytes, hh.summaryBytes, policy_tryFrom, bodyKind_tryFrom]
  simp only [bind, Except.bind]
  rw [if_neg (by omega), hnames, hsums, parseSortcol_eq hh hnone hsome]
  simp only
  obtain ⟨parsed, hparsed, hall⟩ := @collect_range IndexError Split SplitSpec
    (fun split s => split.dataFile = s.dataFile ∧
      split.tier = s.tier ∧ split.docCount = s.docCount ∧ split.docIdLo = s.docIdLo ∧ split.docIdHi = s.docIdHi ∧
      split.flags = s.flags ∧ split.byteSize = s.byteSize ∧ split.epoch = s.epoch ∧
      (if split.summaryLen = 0 then none else some (slice summaries split.summaryOff split.summaryLen)).getD [] =
        s.summary) splits
    (fun i => parseSplit body names summaries.length (i * rrssEntrySize)) (by
      intro i hi
      have hrow := hrows.get (by rw [hcount]; exact hi) hi
      refine parseSplit_eq (fun w off ho => ?_) hrow (hs _ (List.getElem_mem hi)) (by omega)
      have hin : i * 56 + off + w ≤ (table splitRow (splitRows splits nameSpans summarySpans)).length := by
        rw [htable, rrssEntrySize]
        omega
      rw [hbody, rrssEntrySize, getLe_append_left _ _ _ _ hin]
      exact getLe_table length_splitRow _ i (by rw [hcount]; exact hi) w off ho)
  rw [hparsed]
  refine ⟨_, rfl, rfl, hh.flags, hh.tierCount, hh.baseCount, hh.byteCap, hh.gramSize, rfl, ?_, rfl, ?_⟩
  · simp only [hh.flags]
  · exact hall.imp fun split s ⟨h1, h2, h3, h4, h5, h6, h7, h8, h9⟩ => ⟨h1, h2, h3, h4, h5, h6, h7, h8, h9⟩

/-- **A manifest that was written can be opened**, by a fetch or from its bytes. -/
theorem exists_manifest (hc : config.InRange) (hs : ∀ s ∈ splits, s.InRange) {bytes : Bytes}
    (h : writeSplitset splits config = .ok bytes) (hlen : bytes.length < u64Bound) :
    ∃ set : SplitSet, SplitSet.fromBytes bytes = .ok set ∧
      Settles (SplitSet.open (MemoryFetch.new bytes)) (.ok set) ∧ set.Describes config splits := by
  have hf := writeSplitset_fits h
  obtain ⟨nameSpans, summarySpans, sortcolName, hw, hn, hsum, hnone, hsome⟩ := writeSplitset_eq hf
  rw [h] at hw
  obtain rfl := Except.ok.inj hw
  generalize hnames : nameBytes splits config.sortcol = names at *
  generalize hsums : splits.flatMap SplitSpec.summary = summaries at *
  generalize hhead : rrssHeader config splits.length names.length summaries.length sortcolName = header at *
  generalize hrest : table splitRow (splitRows splits nameSpans summarySpans) ++ (names ++ summaries) = body at *
  have hcount := hf.count_lt
  have hbase := hf.base_le
  have hstr := hf.names_lt
  rw [hnames] at hstr
  have hhlen : header.length = 64 := by rw [← hhead, length_rrssHeader]
  have htotal : (header ++ body).length = 64 + body.length := by rw [List.length_append, hhlen]
  have hblen : body.length = splits.length * rrssEntrySize + names.length + summaries.length := by
    have hrows := (entryOf_splitRows hn hsum).length_eq
    have : rrssEntrySize = 56 := rfl
    rw [← hrest, List.length_append, List.length_append, length_table length_splitRow, hrows, this]
    omega
  have hname : sortcolName.1 < 2 ^ 32 ∧ sortcolName.2 < 2 ^ 16 := by
    cases hsc : config.sortcol with
    | none =>
      rw [hnone hsc]
      decide
    | some sc => exact ⟨(hsome sc hsc).off_lt, (hsome sc hsc).len_lt⟩
  have hh : HeaderOf header config splits.length names.length summaries.length sortcolName := by
    rw [← hhead]
    refine headerOf_rrssHeader hc (by omega) (by omega) hstr ?_ hname
    unfold u64Bound at hlen
    omega
  obtain ⟨set, hparse, hset⟩ := parse_eq hs hrest.symm hh (by omega) hn hsum hnone hsome
  have hslice : slice (header ++ body) 0 rrssHeaderSize = header := by
    rw [slice_append_left _ _ _ _ (by rw [hhlen]; decide)]
    have : rrssHeaderSize = header.length := hhlen.symm
    rw [this, slice_zero_length]
  have hslice' : slice (header ++ body) rrssHeaderSize body.length = body := by
    have : rrssHeaderSize = header.length := hhlen.symm
    rw [this, slice_append_right _ _ _ _ (Nat.le_refl _), Nat.sub_self, slice_zero_length]
  have hbl : ∀ b : Bytes, slice b 0 rrssHeaderSize = header → rrssHeaderSize ≤ b.length →
      SplitSet.bodyLen b = .ok body.length := by
    intro b hb hle
    have hfield : ∀ w off : Nat, off + w ≤ 64 → getLe w b off = getLe w header off := by
      intro w off ho
      have hin := getLe_slice w b 0 rrssHeaderSize off ho
      rw [Nat.zero_add, hb] at hin
      exact hin.symm
    have hmagic : slice b 0 4 = rrssMagic := by
      rw [← hh.magic, ← hb, slice_slice _ _ _ _ _ (by decide)]
    unfold SplitSet.bodyLen
    rw [if_neg (by omega), if_neg (by rw [hmagic]; simp), hfield 2 4 (by omega), hh.version, if_neg (by simp),
      hfield 4 12 (by omega), hfield 4 16 (by omega), hfield 4 20 (by omega), hfield 8 24 (by omega), hh.splitCount,
      hh.baseCount, hh.strBytes, hh.summaryBytes]
    simp only
    rw [if_neg (by omega), if_neg (by omega), hblen]
  have h64 : rrssHeaderSize = 64 := rfl
  refine ⟨set, ?_, ?_, hset⟩
  · unfold SplitSet.fromBytes
    rw [hbl _ hslice (by omega)]
    simp only [bind, Except.bind]
    rw [if_neg (by omega), hslice, hslice', hparse]
  · unfold SplitSet.open
    refine (MemoryFetch.settles_read (MemoryFetch.inFile_new hlen (by omega))).bind ?_
    have hhead' : slice header 0 rrssHeaderSize = header := by
      have : rrssHeaderSize = header.length := hhlen.symm
      rw [this, slice_zero_length]
    simp only [MemoryFetch.new, hslice]
    rw [hbl _ hhead' (by omega)]
    refine (Settles.ofOutcome _).bind ?_
    refine (MemoryFetch.settles_read (MemoryFetch.inFile_new hlen (by omega))).bind ?_
    simp only [MemoryFetch.new, hslice']
    rw [if_neg (by omega), hparse]
    exact Settles.ofOutcome _

/-- The records of a summary, as a region of records. -/
theorem flatMap_tlvRecord (rs : List (Nat × Bytes)) : (rs.flatMap fun r => tlvRecord r.1 r.2) = Tlv.region rs := rfl

theorem payload_le_region {rs : List (Nat × Bytes)} {r : Nat × Bytes} (h : r ∈ rs) :
    r.2.length ≤ (Tlv.region rs).length := by
  have hsub : (Tlv.record r.1 r.2).length ≤ (Tlv.region rs).length := by
    rw [Tlv.region, List.flatMap_def]
    exact (List.sublist_flatten_of_mem (List.mem_map_of_mem (f := fun r => Tlv.record r.1 r.2) h)).length_le
  rw [Tlv.length_record] at hsub
  omega

/-- A summary made of records answers with the first record of a tag. -/
theorem findTlv_records {summary : Bytes} {rs : List (Nat × Bytes)} (ht : ∀ r ∈ rs, r.1 < 256)
    (hs : summary = rs.flatMap fun r => tlvRecord r.1 r.2) (hlen : summary.length < 2 ^ 32) (tag : Nat) :
    findTlv summary tag = .ok ((rs.find? fun r => r.1 = tag).map Prod.snd) := by
  rw [flatMap_tlvRecord] at hs
  subst hs
  apply Tlv.find_region
  intro r hr
  exact ⟨ht r hr, Nat.lt_of_le_of_lt (payload_le_region hr) hlen⟩

/-- **Manifest round trip**: what was written is read back, from the bytes or by fetching, and a summary
of records answers for every tag with the first record of it. -/
theorem manifest_roundTrip (hc : config.InRange) (hs : ∀ s ∈ splits, s.InRange) {bytes : Bytes}
    (h : writeSplitset splits config = .ok bytes) (hlen : bytes.length < u64Bound) :
    ∃ set : SplitSet, SplitSet.fromBytes bytes = .ok set ∧
      Settles (SplitSet.open (MemoryFetch.new bytes)) (.ok set) ∧ set.Describes config splits ∧
      ∀ split ∈ set.splits, ∀ rs : List (Nat × Bytes), (∀ r ∈ rs, r.1 < 256) →
        (set.summary split).getD [] = (rs.flatMap fun r => tlvRecord r.1 r.2) →
        ∀ tag, findTlv ((set.summary split).getD []) tag = .ok ((rs.find? fun r => r.1 = tag).map Prod.snd) := by
  obtain ⟨set, hfrom, hopen, hset⟩ := exists_manifest hc hs h hlen
  refine ⟨set, hfrom, hopen, hset, fun split hsplit rs ht hsum tag => ?_⟩
  obtain ⟨spec, hspec, hof⟩ := exists_partner hset.splits hsplit
  apply findTlv_records ht hsum
  rw [hof.summary]
  exact (writeSplitset_fits h).summary_lt spec hspec

/-- A set of one split whose summary has two records, ranked by a column of the named store. -/
def oneSplit : List SplitSpec :=
  [⟨"s.rrs", 0, 2, 0, 1, 0, 64, splitFlagHasTombstone, tlvRecord 1 [7] ++ tlvRecord 4 [8, 9]⟩]

def rankedConfig (name : String) : SplitSetConfig := ⟨.stableKey, 0, 1, 1000, 3, .trigram, some ⟨name, 2, true⟩, 8⟩

theorem oneSplit_inRange : ∀ s ∈ oneSplit, s.InRange := by
  intro s hs
  obtain rfl := List.mem_singleton.mp hs
  exact ⟨by decide, by decide, by decide, by decide, by decide, by decide, by decide⟩

theorem rankedConfig_inRange (name : String) : (rankedConfig name).InRange := by
  unfold rankedConfig
  refine ⟨by simp, by simp, by simp, by simp, fun sc h => ?_⟩
  obtain rfl := Option.some.inj h
  simp

theorem exists_of_length {x : Except String Bytes} {n : Nat} (h : x.map List.length = .ok n) :
    ∃ b, x = .ok b ∧ b.length = n := by
  cases x with
  | error e => cases h
  | ok b => exact ⟨b, rfl, Except.ok.inj h⟩

theorem manifest_roundTrip_oneSplit : ∃ (bytes : Bytes) (set : SplitSet),
    writeSplitset oneSplit (rankedConfig "r.rrsc") = .ok bytes ∧ SplitSet.fromBytes bytes = .ok set ∧
      set.Describes (rankedConfig "r.rrsc") oneSplit := by
  obtain ⟨bytes, h, hlen⟩ := exists_of_length (x := writeSplitset oneSplit (rankedConfig "r.rrsc")) (n := 144)
    (by decide +kernel)
  obtain ⟨set, hfrom, -, hset, -⟩ := manifest_roundTrip (rankedConfig_inRange _) oneSplit_inRange h
    (by rw [hlen]; decide)
  exact ⟨bytes, set, h, hfrom, hset⟩

/-- A rank column without a name is written as none at all. -/
theorem unnamed_sortcol_lost : ∃ (bytes : Bytes) (set : SplitSet),
    writeSplitset oneSplit (rankedConfig "") = .ok bytes ∧ SplitSet.fromBytes bytes = .ok set ∧
      set.sortcol ≠ (rankedConfig "").sortcol := by
  obtain ⟨bytes, h, hlen⟩ := exists_of_length (x := writeSplitset oneSplit (rankedConfig "")) (n := 138)
    (by decide +kernel)
  obtain ⟨set, hfrom, -, hset⟩ := exists_manifest (rankedConfig_inRange _) oneSplit_inRange h (by rw [hlen]; decide)
  refine ⟨bytes, set, h, hfrom, ?_⟩
  rw [hset.sortcol]
  decide

end

end RoaringRange
