import RoaringRange.Hotcache
import RoaringRange.Readers
import RoaringRange.SplitMonolith
import RoaringRange.TermSplitBuild

/-!
# The boot bundle of a split set (`splitset_bundle.rs`)

`writeSplitsetBundle` inlines the boot regions of the first splits of a build: the header and what must be resident to
search, a trigram index's sparse keys or a term index's router.  A reader hands each split its region in place of the
reads of a cold open:

    from the boot region of its file an index is opened as from the file        (settles_openRrs, settles_openRrti)
    the bundle has the boot region of a split or nothing, and the search is the same       (bootBundle_transparent)
-/

namespace RoaringRange

open ByteString Faults Slices

/-! ## The emitter -/

/-- `splitset_bundle::split_boot`, with the `terms` feature. -/
def splitBoot (name : String) (bytes : Bytes) : Except String (MemberTag × Nat) :=
  if 4 ≤ bytes.length ∧ slice bytes 0 4 = rrtiMagic then
    match rrtiBootLen bytes with
    | .ok bootLen => .ok (.rrti, bootLen)
    | .error e => .error ("split " ++ name ++ ": " ++ e.display)
  else
    match rrsBootLen bytes with
    | .ok bootLen => .ok (.rrs, bootLen)
    | .error e => .error ("split " ++ name ++ ": " ++ e.display)

theorem bootMember_fits (bootLen : Nat) : 0 < 2 ^ 64 ∧ bootLen % 2 ^ 32 < 2 ^ 32 :=
  ⟨Nat.two_pow_pos 64, Nat.mod_lt _ (Nat.two_pow_pos 32)⟩

/-- The member of one split: its boot length is cut to 32 bits. -/
def bootMember (f : String × Bytes) : Except String MemberSpec := do
  let (tag, bootLen) ← splitBoot f.1 f.2
  if f.2.length < bootLen then
    throw ("split " ++ f.1 ++ ": boot region " ++ toString bootLen ++ " B exceeds the split's " ++
      toString f.2.length ++ " B")
  else
    pure {
      tag := tag
      dataFile := f.1
      bootOff := 0
      bootLen := bootLen % 2 ^ 32
      bootBytes := slice f.2 0 bootLen
      fits := bootMember_fits bootLen }

/-- How many splits are inlined. -/
def bundledCount (splits : NamedFiles) (maxSplits : Nat) : Nat :=
  if maxSplits = 0 then splits.length else min maxSplits splits.length

/-- `splitset_bundle::write_splitset_bundle`. -/
def writeSplitsetBundle (built : BuiltSplitSet) (maxSplits inlineThreshold : Nat) : Except String Bytes := do
  let specs ← collect ((built.splits.take (bundledCount built.splits maxSplits)).map bootMember)
  writeHotcache specs inlineThreshold

/-! ## Opening from boot bytes -/

section

variable {file : Bytes} {n : Nat}

theorem settles_readNew {off len : Nat} (hlt : off + len < u64Bound) (hle : off + len ≤ file.length) :
    Settles ((MemoryFetch.new file).read off len) (.ok (slice file off len)) :=
  MemoryFetch.settles_read ⟨rfl, hlt, hle⟩

/-- The boot region of a trigram index: a header of one of the two sizes, and the sparse keys. -/
structure RrsBoot (file : Bytes) (n size count : Nat) : Prop where
  magic : slice file 0 4 = rrsMagic
  version : (size = headerSize ∧ getLe 2 file 4 = formatVersion) ∨
    (size = headerSizeV4 ∧ getLe 2 file 4 = formatVersionV4 ∧ getLe 2 file 4 ≠ formatVersion)
  layout : sparseLayout (getLe 4 file 8) (getLe 4 file 12) = .ok (count, count * 8)
  n_eq : n = size + count * 8
  n_lt : n < u64Bound

theorem RrsBoot.size_ge {size count : Nat} (h : RrsBoot file n size count) : headerSize ≤ size := by
  rcases h.version with ⟨rfl, -⟩ | ⟨rfl, -⟩
  · exact Nat.le_refl _
  · decide

theorem rrsBootLen_ok (h : rrsBootLen file = .ok n) : ∃ size count, RrsBoot file n size count := by
  unfold rrsBootLen at h
  split at h
  · cases h
  split at h
  · cases h
  next hmagic =>
  obtain ⟨size, hsize, h⟩ := exists_of_bind_ok h
  obtain ⟨⟨count, len⟩, hlayout, h⟩ := exists_of_bind_ok h
  simp only at h
  split at h
  · cases h
  next hover =>
  have hlen : len = count * 8 := by
    unfold sparseLayout at hlayout
    split at hlayout
    · cases hlayout
    split at hlayout
    · cases hlayout
    · obtain ⟨rfl, rfl⟩ := Prod.mk.inj (Except.ok.inj hlayout)
      rfl
  subst hlen
  refine ⟨size, count, not_not.mp hmagic, ?_, hlayout, (Except.ok.inj h).symm, ?_⟩
  · unfold rrsHeaderSize at hsize
    split at hsize
    · next hv => exact Or.inl ⟨(Except.ok.inj hsize).symm, hv⟩
    · next hne =>
      split at hsize
      · next hv => exact Or.inr ⟨(Except.ok.inj hsize).symm, hv, hne⟩
      · cases hsize
  · rw [← Except.ok.inj h]
    omega

/-- The sparse keys, read from the file or taken from the boot region. -/
theorem RrsBoot.settles_openSparse {size count : Nat} (h : RrsBoot file n size count) (hn : n ≤ file.length)
    (caseFold : Bool) : Settles (openSparse (.new file) (slice file 0 headerSize) size caseFold)
      (bootSparse (slice file 0 n) (.new file) size caseFold) := by
  have hsize := h.size_ge
  have hlt := h.n_lt
  have heq := h.n_eq
  have h16 : headerSize = 16 := rfl
  have hcold : ∀ w off : Nat, off + w ≤ 16 → getLe w (slice file 0 headerSize) off = getLe w file off := by
    intro w off ho
    rw [getLe_slice _ _ _ _ _ (by omega), Nat.zero_add]
  have hboot : ∀ w off : Nat, off + w ≤ n → getLe w (slice file 0 n) off = getLe w file off := by
    intro w off ho
    rw [getLe_slice _ _ _ _ _ ho, Nat.zero_add]
  have hkeys : parseSparse (slice file size (count * 8)) 0 count = parseSparse (slice file 0 n) size count := by
    unfold parseSparse
    refine List.map_congr_left fun i hi => ?_
    have hi : i < count := List.mem_range.mp hi
    unfold getKey
    rw [getLe_slice _ _ _ _ _ (by omega), hboot 8 _ (by omega), Nat.zero_add]
  unfold openSparse bootSparse
  rw [hcold 4 8 (by omega), hcold 4 12 (by omega), hcold 2 6 (by omega), hboot 4 8 (by omega), hboot 4 12 (by omega),
    hboot 2 6 (by omega), h.layout]
  refine (Settles.ofOutcome _).bind ?_
  refine (settles_readNew (by omega) (by omega)).bind ?_
  simp only [bind, Except.bind]
  rw [if_neg (by omega), if_neg (by rw [length_slice _ _ _ (by omega)]; omega), ← hkeys]
  exact Settles.pure _

/-- **A trigram index opens from its boot region** as from its file, whatever the bytes are. -/
theorem settles_openRrs (h : rrsBootLen file = .ok n) (hn : n ≤ file.length) :
    Settles (Index.open (.new file)) (Index.fromBoot (slice file 0 n) (.new file)) := by
  obtain ⟨size, count, hb⟩ := rrsBootLen_ok h
  have hsize := hb.size_ge
  have hlt := hb.n_lt
  have heq := hb.n_eq
  have h16 : headerSize = 16 := rfl
  have h18 : headerSizeV4 = 18 := rfl
  have hshort : ∀ m : Nat, headerSize ≤ m → m ≤ file.length → ¬ (slice file 0 m).length < headerSize := by
    intro m hm hl
    rw [length_slice _ _ _ (by omega)]
    omega
  have hmagic : ∀ m : Nat, headerSize ≤ m → ¬ slice (slice file 0 m) 0 4 ≠ rrsMagic := by
    intro m hm
    rw [slice_slice _ _ _ _ _ (by omega), Nat.zero_add, hb.magic]
    exact not_not.mpr rfl
  have hversion : ∀ m : Nat, headerSize ≤ m → getLe 2 (slice file 0 m) 4 = getLe 2 file 4 := by
    intro m hm
    rw [getLe_slice _ _ _ _ _ (by omega), Nat.zero_add]
  unfold Index.open Index.fromBoot
  refine (settles_readNew (by omega) (by omega)).bind ?_
  rw [if_neg (hshort headerSize (by omega) (by omega)), if_neg (hmagic headerSize (by omega)),
    if_neg (hshort n (by omega) hn), if_neg (hmagic n (by omega)), hversion headerSize (by omega), hversion n (by omega)]
  rcases hb.version with ⟨rfl, hv⟩ | ⟨rfl, hv, hne⟩
  · rw [if_pos hv, if_pos hv]
    exact hb.settles_openSparse hn true
  · have hv4 : ¬ (slice file 0 n).length < headerSizeV4 := by
      rw [length_slice _ _ _ (by omega)]
      omega
    rw [if_neg hne, if_neg hne, if_pos hv, if_pos hv, if_neg hv4]
    refine (settles_readNew (by omega) (by omega)).bind ?_
    rw [getLe_slice _ _ _ _ _ (by omega), getLe_slice _ _ _ _ _ (by omega), Nat.add_zero, Nat.zero_add]
    exact hb.settles_openSparse hn _

/-- **A term index opens from its boot region** as from its file. -/
theorem settles_openRrti [Fst] (h : rrtiBootLen file = .ok n) (hn : n ≤ file.length) :
    Settles (TermIndex.open (.new file)) (TermIndex.fromBoot (slice file 0 n) (.new file)) := by
  have hcopy := h
  unfold rrtiBootLen at h
  split at h
  · cases h
  next hhead =>
  split at h
  · cases h
  split at h
  · cases h
  split at h
  · cases h
  next hrouter =>
  have hrouter : getLe 8 file 16 ≤ maxResidentRouter := Nat.not_lt.mp hrouter
  have h40 : rrtiHeaderSize = 40 := rfl
  have hmax : maxResidentRouter = 536870912 := by decide
  obtain rfl := Except.ok.inj h
  have hlt : rrtiHeaderSize + getLe 8 file 16 < u64Bound := by
    unfold u64Bound
    omega
  -- the boot length is read from the header alone
  have hsame : ∀ m : Nat, rrtiHeaderSize ≤ m → m ≤ file.length → rrtiBootLen (slice file 0 m) = rrtiBootLen file := by
    intro m hm hl
    have hshort : ¬ m < rrtiHeaderSize := by omega
    have hfield : ∀ w off : Nat, off + w ≤ 40 → getLe w (slice file 0 m) off = getLe w file off := by
      intro w off ho
      rw [getLe_slice _ _ _ _ _ (by omega), Nat.zero_add]
    have hlen : (slice file 0 m).length = m := length_slice _ _ _ (by omega)
    unfold rrtiBootLen
    rw [hfield 2 4 (by omega), hfield 8 16 (by omega), slice_slice _ _ _ _ _ (by omega), Nat.zero_add, hlen,
      if_neg hshort, if_neg hhead]
  unfold TermIndex.open TermIndex.fromBoot
  refine (settles_readNew (by omega) (by omega)).bind ?_
  rw [hsame _ (by omega) (by omega), hsame _ (by omega) (by omega), hcopy]
  refine (Settles.ofOutcome _).bind ?_
  refine (settles_readNew (by omega) (by omega)).bind ?_
  simp only [bind, Except.bind]
  rw [if_neg (by rw [length_slice _ _ _ (by omega)]; omega), slice_slice _ _ _ _ _ (by omega),
    slice_slice _ _ _ _ _ (by omega), Nat.zero_add, Nat.zero_add]
  exact Settles.ofOutcome _

end

/-! ## What is in the bundle -/

/-- The boot region of a split's file, by the function for its kind. -/
def BootOf (f : String × Bytes) (n : Nat) : Prop :=
  ∃ tag, splitBoot f.1 f.2 = .ok (tag, n) ∧ n ≤ f.2.length

theorem bootMember_ok {f : String × Bytes} {spec : MemberSpec} (h : bootMember f = .ok spec) :
    spec.dataFile = f.1 ∧ ∃ n, BootOf f n ∧ spec.bootLen = n % 2 ^ 32 ∧ spec.bootBytes = slice f.2 0 n := by
  unfold bootMember at h
  obtain ⟨⟨tag, n⟩, hboot, h⟩ := exists_of_bind_ok h
  simp only at h
  split at h
  · cases h
  · next hle =>
    obtain rfl := Except.ok.inj h
    exact ⟨rfl, n, ⟨tag, hboot, Nat.not_lt.mp hle⟩, rfl, rfl⟩

section

variable {splits : NamedFiles} {specs : List MemberSpec} {hc : Hotcache} {inlineThreshold : Nat}

/-- A member is that of a split: inlined with its boot region if that is no larger than the threshold. -/
def MemberFor (hc : Hotcache) (inlineThreshold : Nat) (m : Member) (f : String × Bytes) : Prop :=
  m.dataFile = f.1 ∧ ∃ n, BootOf f n ∧ hc.inlined m = if n ≤ inlineThreshold then some (slice f.2 0 n) else none

/-- The members of an open bundle are those of some splits. -/
structure Bundles (hc : Hotcache) (inlineThreshold : Nat) (splits : NamedFiles) : Prop where
  split : ∀ m ∈ hc.members, ∃ f ∈ splits, MemberFor hc inlineThreshold m f
  member : ∀ f ∈ splits, ∃ m ∈ hc.members, MemberFor hc inlineThreshold m f

theorem memberFor_of {m : Member} {spec : MemberSpec} {f : String × Bytes} (hm : MemberOf hc inlineThreshold m spec)
    (hlen : spec.bootBytes.length = spec.bootLen) (hf : bootMember f = .ok spec) : MemberFor hc inlineThreshold m f := by
  obtain ⟨hname, n, hn, hbootLen, hbytes⟩ := bootMember_ok hf
  refine ⟨hm.dataFile.trans hname, n, hn, ?_⟩
  obtain ⟨tag, -, hle⟩ := hn
  -- the length of the bytes was checked against the 32 bits
  have hbootLen : spec.bootLen = n := by
    rw [← hlen, hbytes, length_slice _ _ _ (by omega)]
  rw [hm.inlined, hbootLen, hbytes]

/-- **The bundle written from some splits**: opened again, it has their boot regions. -/
theorem settles_openBundle {built : BuiltSplitSet} {maxSplits : Nat} {bytes : Bytes}
    (h : writeSplitsetBundle built maxSplits inlineThreshold = .ok bytes) (hlen : bytes.length < u64Bound) :
    ∃ hc, Settles (Hotcache.open (.new bytes)) (.ok hc) ∧
      Bundles hc inlineThreshold (built.splits.take (bundledCount built.splits maxSplits)) := by
  unfold writeSplitsetBundle at h
  obtain ⟨specs, hspecs, h⟩ := exists_of_bind_ok h
  have hmade := forall₂_of_collect hspecs
  obtain ⟨hc, hopen, hmembers⟩ := hotcache_roundTrip h hlen
  have hlens : ∀ spec ∈ specs, spec.bootBytes.length = spec.bootLen := by
    obtain ⟨placements, names, boots, hplaced, -⟩ := writeHotcache_ok h
    intro spec hspec
    obtain ⟨p, -, hp⟩ := exists_partner_left hplaced hspec
    exact hp.len
  refine ⟨hc, hopen, fun m hm => ?_, fun f hf => ?_⟩
  · obtain ⟨spec, hspec, hof⟩ := exists_partner hmembers hm
    obtain ⟨f, hf, hfs⟩ := exists_partner_left hmade hspec
    exact ⟨f, hf, memberFor_of hof (hlens spec hspec) hfs⟩
  · obtain ⟨spec, hspec, hfs⟩ := exists_partner hmade hf
    obtain ⟨m, hm, hof⟩ := exists_partner_left hmembers hspec
    exact ⟨m, hm, memberFor_of hof (hlens spec hspec) hfs⟩

/-- A name is found with the boot region of a split of that name, or not at all. -/
theorem Bundles.inlinedByName (h : Bundles hc inlineThreshold splits) (name : String) :
    (name ∉ splits.map Prod.fst ∧ hc.inlinedByName name = none) ∨ ∃ f ∈ splits, f.1 = name ∧ ∃ n, BootOf f n ∧
      hc.inlinedByName name = if n ≤ inlineThreshold then some (slice f.2 0 n) else none := by
  unfold Hotcache.inlinedByName
  cases hfind : hc.members.find? fun m => decide (m.dataFile = name) with
  | none =>
    refine Or.inl ⟨fun hmem => ?_, rfl⟩
    obtain ⟨f, hf, hname⟩ := List.mem_map.mp hmem
    obtain ⟨m, hm, hmf, -⟩ := h.member f hf
    have hnot := List.find?_eq_none.mp hfind m hm
    rw [hmf, hname] at hnot
    exact hnot (decide_eq_true rfl)
  | some m =>
    have hname : m.dataFile = name := by
      have hsome := List.find?_some hfind
      exact of_decide_eq_true hsome
    obtain ⟨f, hf, hmf, n, hn, hin⟩ := h.split m (List.mem_of_find?_eq_some hfind)
    exact Or.inr ⟨f, hf, hmf.symm.trans hname, n, hn, hin⟩

end

/-! ## Opening a split with the bundle -/

/-- The magic of a split file of a kind. -/
def BodyKind.magic : BodyKind → Bytes
  | .trigram => rrsMagic
  | .term => rrtiMagic

/-- A split of its kind has the boot region of its kind. -/
theorem BootOf.settles_openSplit [Fst] {kind : BodyKind} {f : String × Bytes} {n : Nat} (h : BootOf f n)
    (hmagic : slice f.2 0 4 = kind.magic) {resolver : SplitFetcher} {split : Split} {boot : Split → Option Bytes}
    (hfetch : resolver.fetchNamed split.dataFile = .new f.2) (hnone : resolver.boot split = none)
    (hboot : boot split = some (slice f.2 0 n)) :
    Alike (openSplit resolver split kind) (openSplit (resolver.withBoots boot) split kind) := by
  obtain ⟨tag, hsplit, hn⟩ := h
  have hlen : 4 ≤ f.2.length := by
    have h4 : (slice f.2 0 4).length = 4 := by
      rw [hmagic]
      cases kind <;> rfl
    unfold slice at h4
    rw [List.length_take, List.length_drop] at h4
    omega
  have hboots : (resolver.withBoots boot).boot split = some (slice f.2 0 n) := hboot
  have hfetch' : (resolver.withBoots boot).fetchNamed split.dataFile = .new f.2 := hfetch
  unfold splitBoot at hsplit
  unfold openSplit
  rw [hfetch, hfetch', hnone, hboots]
  cases kind with
  | term =>
    rw [if_pos ⟨hlen, hmagic⟩] at hsplit
    cases hb : rrtiBootLen f.2 with
    | error e =>
      rw [hb] at hsplit
      cases hsplit
    | ok m =>
      rw [hb] at hsplit
      obtain rfl : m = n := congrArg Prod.snd (Except.ok.inj hsplit)
      have hopen := settles_openRrti hb hn
      simp only
      cases hr : TermIndex.fromBoot (slice f.2 0 m) (.new f.2) with
      | error e =>
        rw [hr] at hopen
        exact Settles.alike hopen.bind_error (Settles.ofOutcome _)
      | ok ix =>
        rw [hr] at hopen
        exact Settles.alike (hopen.bind (Settles.pure _)) (Settles.ofOutcome _)
  | trigram =>
    have hne : ¬ (4 ≤ f.2.length ∧ slice f.2 0 4 = rrtiMagic) := by
      rw [hmagic]
      rintro ⟨-, h⟩
      exact absurd h (by decide)
    rw [if_neg hne] at hsplit
    cases hb : rrsBootLen f.2 with
    | error e =>
      rw [hb] at hsplit
      cases hsplit
    | ok m =>
      rw [hb] at hsplit
      obtain rfl : m = n := congrArg Prod.snd (Except.ok.inj hsplit)
      have hopen := settles_openRrs hb hn
      simp only
      cases hr : Index.fromBoot (slice f.2 0 m) (.new f.2) with
      | error e =>
        rw [hr] at hopen
        exact Settles.alike hopen.bind_error (Settles.ofOutcome _)
      | ok ix =>
        rw [hr] at hopen
        exact Settles.alike (hopen.bind (Settles.pure _)) (Settles.ofOutcome _)

/-! ## The files of a build -/

/-- The files of a builder that has sealed `count` splits: named in the order of the seals, all of one magic. -/
structure SealOrder (namePrefix ext : String) (magic : Bytes) (count : Nat) (blobs : NamedFiles) : Prop where
  names : ∃ is : List Nat, is.Pairwise (· < ·) ∧ (∀ i ∈ is, i < count) ∧
    blobs.map Prod.fst = is.map fun i => splitStem namePrefix i ++ ext
  starts : ∀ f ∈ blobs, slice f.2 0 4 = magic

namespace SealOrder

variable {namePrefix ext : String} {magic : Bytes} {count : Nat} {blobs : NamedFiles}

theorem nil : SealOrder namePrefix ext magic count [] :=
  ⟨⟨[], List.Pairwise.nil, fun _ h => absurd h List.not_mem_nil, rfl⟩, fun _ h => absurd h List.not_mem_nil⟩

/-- One seal more. -/
theorem snoc (h : SealOrder namePrefix ext magic count blobs) {bytes : Bytes} (hb : slice bytes 0 4 = magic) :
    SealOrder namePrefix ext magic (count + 1) (blobs ++ [(splitStem namePrefix count ++ ext, bytes)]) := by
  obtain ⟨⟨is, hasc, hlt, hnames⟩, hstarts⟩ := h
  refine ⟨⟨is ++ [count], ?_, fun i hi => ?_, ?_⟩, fun f hf => ?_⟩
  · rw [List.pairwise_append]
    refine ⟨hasc, List.pairwise_singleton _ _, fun i hi j hj => ?_⟩
    rw [List.mem_singleton.mp hj]
    exact hlt i hi
  · rcases List.mem_append.mp hi with hi | hi
    · exact Nat.lt_succ_of_lt (hlt i hi)
    · rw [List.mem_singleton.mp hi]
      exact Nat.lt_succ_self count
  · rw [List.map_append, List.map_append, hnames]
    rfl
  · rcases List.mem_append.mp hf with hf | hf
    · exact hstarts f hf
    · rw [List.mem_singleton.mp hf]
      exact hb

theorem nodup (h : SealOrder namePrefix ext magic count blobs) : (blobs.map Prod.fst).Nodup := by
  obtain ⟨⟨is, hasc, -, hnames⟩, -⟩ := h
  rw [hnames]
  refine (hasc.imp fun hij => Nat.ne_of_lt hij).map _ fun i j hne heq => hne ?_
  have hlist := congrArg String.toList heq
  simp only [String.toList_append, List.append_cancel_right_eq] at hlist
  exact splitStem_injective (String.toList_injective hlist)

end SealOrder

/-- A split set whose files are all of one kind, each with a name of its own. -/
structure BuiltSplitSet.OfKind (built : BuiltSplitSet) (kind : BodyKind) : Prop where
  nodup : (built.splits.map Prod.fst).Nodup
  starts : ∀ f ∈ built.splits, slice f.2 0 4 = kind.magic
  bodyKind : ∀ set, SplitSet.fromBytes built.manifest = .ok set → set.bodyKind = kind

/-- The kind that a manifest was written with is the one it opens with. -/
theorem bodyKind_of_written {splits : List SplitSpec} {config : SplitSetConfig} {bytes : Bytes}
    (hw : writeSplitset splits config = .ok bytes) {set : SplitSet} (h : SplitSet.fromBytes bytes = .ok set) :
    set.bodyKind = config.bodyKind := by
  obtain ⟨names, summaries, sortcolName, heq, -⟩ := writeSplitset_eq (writeSplitset_fits hw)
  rw [hw] at heq
  obtain rfl := Except.ok.inj heq
  have hbyte : ∀ a b c n rest, getLe 1 (slice (rrssHeader config a b c n ++ rest) 0 rrssHeaderSize) 9 =
      config.bodyKind.toU8 := by
    intro a b c n rest
    have hmagic : rrssMagic.length = 4 := rfl
    have hsmall : config.bodyKind.toU8 < 256 ^ 1 := by
      cases config.bodyKind <;> decide
    rw [getLe_slice _ _ _ _ _ (by decide), Nat.zero_add, getLe_append_left _ _ _ _ (by rw [length_rrssHeader]; omega)]
    unfold rrssHeader
    simp (disch := simp [hmagic]) only [getLe_append_right, hmagic, length_le, Nat.reduceSub, getLe_le_append]
    exact Nat.mod_eq_of_lt hsmall
  unfold SplitSet.fromBytes at h
  obtain ⟨len, -, h⟩ := exists_of_bind_ok h
  split at h
  · cases h
  unfold SplitSet.parse at h
  obtain ⟨policy, -, h⟩ := exists_of_bind_ok h
  obtain ⟨kind, hkind, h⟩ := exists_of_bind_ok h
  rw [hbyte, bodyKind_tryFrom] at hkind
  simp only at h
  split at h
  · cases h
  obtain ⟨sortcol, -, h⟩ := exists_of_bind_ok h
  obtain ⟨entries, -, h⟩ := exists_of_bind_ok h
  rw [← Except.ok.inj h]
  exact (Except.ok.inj hkind).symm

section

variable [Roaring] [Unicode]

/-! ## Trigram builds -/

omit [Roaring] [Unicode] in
theorem slice_writeIndexWith {gramSize stride : Nat} {entries : List (Key × Bytes)} {caseFold : Bool} {bytes : Bytes}
    (h : writeIndexWith gramSize stride entries caseFold = .ok bytes) : slice bytes 0 4 = rrsMagic := by
  unfold writeIndexWith at h
  simp only at h
  split at h
  · cases h
  · obtain ⟨dict, -, h⟩ := exists_of_bind_ok h
    rw [← Except.ok.inj h]
    have hmagic : ∀ rest, slice (rrsMagic ++ rest) 0 4 = rrsMagic := fun rest =>
      (slice_append_left _ _ _ _ (Nat.le_refl 4)).trans (slice_zero_length rrsMagic)
    unfold rrsHeader
    rw [List.append_assoc]
    exact hmagic _

/-- What the files of a trigram builder are. -/
def SplitSetBuilder.InOrder (b : SplitSetBuilder) : Prop :=
  SealOrder b.namePrefix ".rrs" rrsMagic b.specs.length b.blobs

theorem SplitSetBuilder.InOrder.seal {b c : SplitSetBuilder} (h : b.InOrder) (hc : b.seal = .ok c) : c.InOrder := by
  rcases SplitSetBuilder.seal_inv hc with ⟨-, rfl⟩ | ⟨-, bytes, facets, sidecar, hbytes, -, rfl⟩
  · exact h
  · have hsnoc := SealOrder.snoc h (slice_writeIndexWith hbytes)
    unfold SplitSetBuilder.InOrder
    simp only [List.length_append, List.length_singleton]
    exact hsnoc

theorem BuildRun.inOrder_add {r : BuildRun} (h : r.builder.InOrder) (keys : List Key) (facets : List (String × String)) :
    (r.add keys facets).2.builder.InOrder := by
  unfold BuildRun.add
  cases hadd : r.builder.addInner keys facets with
  | error e =>
    show r.builder.sealFailed.InOrder
    unfold SplitSetBuilder.sealFailed
    split
    · exact h
    · exact h
  | ok x =>
    unfold SplitSetBuilder.addInner at hadd
    obtain ⟨b, hb, hadd⟩ := exists_of_bind_ok hadd
    obtain rfl := Except.ok.inj hadd
    unfold SplitSetBuilder.sealIfFull at hb
    split at hb
    · have hsealed := h.seal hb
      exact hsealed
    · obtain rfl := Except.ok.inj hb
      exact h

/-- Whatever is called, and whichever calls fail. -/
theorem BuildRun.inOrder_calls {r : BuildRun} (h : r.builder.InOrder) (cs : List BuildCall) :
    (r.calls cs).2.builder.InOrder := by
  induction cs generalizing r with
  | nil => exact h
  | cons c cs ih =>
    refine ih ?_
    cases c with
    | addFaceted text facets => exact BuildRun.inOrder_add h _ _
    | addKeys keys => exact BuildRun.inOrder_add h _ _
    | drainSealed => exact SealOrder.nil

theorem ofKind_trigram {b : SplitSetBuilder} (h : b.InOrder) {built : BuiltSplitSet} (hfin : b.finish = .ok built) :
    built.OfKind .trigram := by
  unfold SplitSetBuilder.finish at hfin
  obtain ⟨c, hc, hfin⟩ := exists_of_bind_ok hfin
  obtain ⟨manifest, hm, hfin⟩ := exists_of_bind_ok hfin
  obtain rfl := Except.ok.inj hfin
  have hsealed := h.seal hc
  refine ⟨hsealed.nodup, hsealed.starts, fun set hset => ?_⟩
  unfold SplitSetBuilder.manifest at hm
  split at hm
  · cases hm
  · exact bodyKind_of_written hm hset

/-! ## Term builds -/

variable [Fst]

omit [Unicode] in
theorem slice_writeTermIndex {posts : TermMap} {config : TermIndexConfig} {bytes : Bytes}
    (h : writeTermIndexFromPostings posts config = .ok bytes) : slice bytes 0 4 = rrtiMagic := by
  obtain ⟨t, rfl⟩ := writeTermIndex_ok h
  have hmagic : ∀ rest, slice (rrtiMagic ++ rest) 0 4 = rrtiMagic := fun rest =>
    (slice_append_left _ _ _ _ (Nat.le_refl 4)).trans (slice_zero_length rrtiMagic)
  unfold TermFile.bytes rrtiHeader
  rw [List.append_assoc]
  exact hmagic _

/-- What the files of a term builder are. -/
def TermSplitSetBuilder.InOrder (b : TermSplitSetBuilder) : Prop :=
  SealOrder b.namePrefix ".rrt" rrtiMagic b.specs.length b.blobs

theorem TermSplitSetBuilder.InOrder.seal {b c : TermSplitSetBuilder} (h : b.InOrder) (hc : b.seal = .ok c) :
    c.InOrder := by
  rcases TermSplitSetBuilder.seal_inv hc with ⟨-, rfl⟩ | ⟨-, bytes, summary, sidecar, hbytes, -, rfl⟩
  · exact h
  · have hsnoc := SealOrder.snoc h (slice_writeTermIndex hbytes)
    unfold TermSplitSetBuilder.InOrder
    simp only [List.length_append, List.length_singleton]
    exact hsnoc

variable [TokenFilters]

theorem TermSplitSetBuilder.Reached.inOrder {b : TermSplitSetBuilder} (h : b.Reached) : b.InOrder := by
  induction h with
  | new config => exact SealOrder.nil
  | withGlobalBase base _ _ ih => exact ih
  | withFacetDigest topPerField v2 _ ih => exact ih
  | @addFaceted b text facets _ ih =>
    unfold TermSplitSetBuilder.addFaceted
    simp only
    by_cases hfull : b.full (sortedTerms (b.index.tokenizer.tokenize text)) = true
    · rw [if_pos hfull]
      cases hseal : b.seal with
      | error e =>
        show b.sealFailed.InOrder
        unfold TermSplitSetBuilder.sealFailed
        split
        · exact ih
        · exact ih
      | ok c =>
        have hsealed := TermSplitSetBuilder.InOrder.seal ih hseal
        exact hsealed
    · rw [if_neg hfull]
      exact ih
  | drainSealed _ _ => exact SealOrder.nil

omit [TokenFilters] in
theorem ofKind_term {b : TermSplitSetBuilder} (h : b.InOrder) {built : BuiltSplitSet} (hfin : b.finish = .ok built) :
    built.OfKind .term := by
  unfold TermSplitSetBuilder.finish at hfin
  obtain ⟨c, hc, hfin⟩ := exists_of_bind_ok hfin
  obtain ⟨manifest, hm, hfin⟩ := exists_of_bind_ok hfin
  obtain rfl := Except.ok.inj hfin
  have hsealed : c.InOrder := by
    unfold TermSplitSetBuilder.sealAndCheck at hc
    obtain ⟨d, hd, hc⟩ := exists_of_bind_ok hc
    split at hc
    · cases hc
    · rw [← Except.ok.inj hc]
      exact h.seal hd
  exact ⟨hsealed.nodup, hsealed.starts, fun set hset => bodyKind_of_written hm hset⟩

/-! ## The bundle of a build -/

/-- The split sets that the builder of a kind emits, whatever was called before and whichever calls failed. -/
def BodyKind.Builds : BodyKind → BuiltSplitSet → Prop
  | .trigram, built => ∃ config top v2 calls,
      (BuildRun.calls ⟨SplitSetBuilder.start config top v2, [], []⟩ calls).2.builder.finish = .ok built
  | .term, built => ∃ b : TermSplitSetBuilder, b.Reached ∧ b.finish = .ok built

theorem BodyKind.Builds.ofKind {kind : BodyKind} {built : BuiltSplitSet} (h : kind.Builds built) : built.OfKind kind := by
  cases kind with
  | trigram =>
    obtain ⟨config, top, v2, calls, hfin⟩ := h
    refine ofKind_trigram (BuildRun.inOrder_calls ?_ calls) hfin
    show (SplitSetBuilder.start config top v2).InOrder
    cases v2 with
    | false => exact SealOrder.nil
    | true => exact SealOrder.nil
  | term =>
    obtain ⟨b, hb, hfin⟩ := h
    exact ofKind_term hb.inOrder hfin

/-- **Boot bundles are transparent.**  A bundle has its members back; that of a build has a split's boot region or
nothing for it, and the set is searched the same with it as with cold opens. -/
theorem bootBundle_transparent :
    (∀ members inlineThreshold bytes, writeHotcache members inlineThreshold = .ok bytes → bytes.length < u64Bound →
      ∃ hc, Settles (Hotcache.open (.new bytes)) (.ok hc) ∧
        List.Forall₂ (MemberOf hc inlineThreshold) hc.members members) ∧
    ∀ kind built, BodyKind.Builds kind built → ∀ maxSplits inlineThreshold bytes,
      writeSplitsetBundle built maxSplits inlineThreshold = .ok bytes → bytes.length < u64Bound →
      ∃ hc, Settles (Hotcache.open (.new bytes)) (.ok hc) ∧
        (∀ f ∈ built.splits, hc.inlinedByName f.1 = none ∨
          ∃ n, BootOf f n ∧ hc.inlinedByName f.1 = some (slice f.2 0 n)) ∧
        ∀ (set : SplitSet) (resolver : SplitFetcher), SplitSet.fromBytes built.manifest = .ok set →
          (∀ f ∈ built.splits, resolver.fetchNamed f.1 = .new f.2) → (∀ split, resolver.boot split = none) →
          ∀ query limit,
            (set.search (resolver.withBoots fun split => hc.inlinedByName split.dataFile) query limit).run
              Schedule.calm = (set.search resolver query limit).run Schedule.calm := by
  refine ⟨fun members inlineThreshold bytes h hlen => hotcache_roundTrip h hlen,
    fun kind built hkind maxSplits inlineThreshold bytes h hlen => ?_⟩
  obtain ⟨hnodup, hstarts, hbody⟩ := hkind.ofKind
  obtain ⟨hc, hopen, hbundles⟩ := settles_openBundle h hlen
  refine ⟨hc, hopen, fun f hf => ?_, fun set resolver hset hfiles hcold query limit => ?_⟩
  · rcases hbundles.inlinedByName f.1 with ⟨-, hnone⟩ | ⟨g, hg, hname, n, hn, hin⟩
    · exact Or.inl hnone
    · obtain rfl : g = f := List.inj_on_of_nodup_map hnodup (List.mem_of_mem_take hg) hf hname
      split at hin
      · exact Or.inr ⟨n, hn, hin⟩
      · exact Or.inl hin
  · refine (SplitSet.alike_search (fun split => ?_) query limit).run_eq.symm
    rw [hbody set hset]
    have hsame : (hc.inlinedByName split.dataFile = none) → Alike (openSplit resolver split kind)
        (openSplit (resolver.withBoots fun split => hc.inlinedByName split.dataFile) split kind) := by
      intro hnone
      have heq : openSplit (resolver.withBoots fun split => hc.inlinedByName split.dataFile) split kind =
          openSplit resolver split kind := by
        unfold openSplit SplitFetcher.withBoots
        simp only
        rw [hnone, hcold split]
      rw [heq]
      exact (onward_openSplit resolver split kind).alike
    rcases hbundles.inlinedByName split.dataFile with ⟨-, hnone⟩ | ⟨f, hf, hname, n, hn, hin⟩
    · exact hsame hnone
    · have hmem := List.mem_of_mem_take hf
      split at hin
      · refine hn.settles_openSplit (hstarts f hmem) ?_ (hcold split) hin
        rw [← hname]
        exact hfiles f hmem
      · exact hsame hin

end

section

attribute [local instance] PortableCodec.roaring asciiUnicode asciiFilters FlatRouter.fst

/-- What a build's bundle and manifest come to: their sizes, and that the files have different names. -/
def bundleCheck (built : BuiltSplitSet) : Option (Bool × Bool × Bool) :=
  match writeSplitsetBundle built 0 1000, SplitSet.fromBytes built.manifest with
  | .ok bytes, .ok set =>
    some (decide (bytes.length < u64Bound), decide ((built.splits.map Prod.fst).Nodup), set.splits.length = 3)
  | _, _ => none

theorem bootBundle_transparent_three : ∃ (built : BuiltSplitSet) (bytes : Bytes) (hc : Hotcache) (set : SplitSet),
    BodyKind.trigram.Builds built ∧ writeSplitsetBundle built 0 1000 = .ok bytes ∧
    Settles (Hotcache.open (.new bytes)) (.ok hc) ∧ SplitSet.fromBytes built.manifest = .ok set ∧ set.splits.length = 3 ∧
    (set.search ((SplitFetcher.ofFiles built.splits).withBoots fun split => hc.inlinedByName split.dataFile) "abc" 2).run
      Schedule.calm = (set.search (.ofFiles built.splits) "abc" 2).run Schedule.calm := by
  have hcheck : ((BuildRun.calls ⟨tieredTight, [], []⟩ (searchedCalls.filter (· ≠ .drainSealed))).2.builder.finish.map
      bundleCheck) = .ok (some (true, true, true)) := by decide +kernel
  cases hfin : (BuildRun.calls ⟨tieredTight, [], []⟩ (searchedCalls.filter (· ≠ .drainSealed))).2.builder.finish with
  | error e =>
    rw [hfin] at hcheck
    cases hcheck
  | ok built =>
    rw [hfin] at hcheck
    have hcheck : bundleCheck built = some (true, true, true) := Except.ok.inj hcheck
    have hbuilds : BodyKind.trigram.Builds built := ⟨tieredConfig 100 tight_fits, 0, false, _, hfin⟩
    unfold bundleCheck at hcheck
    split at hcheck
    · next bytes set hbytes hset =>
      obtain ⟨hlen, hnames, hthree⟩ : decide (bytes.length < u64Bound) = true ∧
          decide ((built.splits.map Prod.fst).Nodup) = true ∧ decide (set.splits.length = 3) = true := by
        simpa only [Option.some.injEq, Prod.mk.injEq] using hcheck
      obtain ⟨hc, hopen, -, hsearch⟩ := bootBundle_transparent.2 .trigram built hbuilds 0 1000 bytes hbytes
        (of_decide_eq_true hlen)
      refine ⟨built, bytes, hc, set, hbuilds, hbytes, hopen, hset, of_decide_eq_true hthree, ?_⟩
      exact hsearch set (.ofFiles built.splits) hset
        (SplitFetcher.serves_ofFiles (of_decide_eq_true hnames)).file (fun _ => rfl) "abc" 2
    · cases hcheck

end

end RoaringRange
