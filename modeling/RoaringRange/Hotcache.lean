import RoaringRange.Manifest

/-!
# The boot bundle (`hotcache.rs`, `hotcache_build.rs`)

`writeHotcache` lays out the members of a composition: a header, an entry for each, their names, and the boot regions
that are small enough to be inlined.  A reader has the whole bundle after two reads:

    the members come back in order, with their tags, names and boot ranges, and `inlined` answers with the boot bytes
    of those no larger than the threshold, for the others with nothing                        (hotcache_roundTrip)
-/

namespace RoaringRange

open ByteString Faults Slices

/-! ## Members -/

/-- `hotcache::MemberTag`. -/
inductive MemberTag where
  | rrs
  | rrti
  | rrsf
  | rrvi
  | rrsrIdx
  | rrsrBin
  | rrsrDict
  | rril
  | rrm2
  | rrss
  deriving DecidableEq, Repr

/-- `MemberTag::to_u16`. -/
def MemberTag.toU16 : MemberTag → Nat
  | .rrs => 1
  | .rrti => 2
  | .rrsf => 3
  | .rrvi => 4
  | .rrsrIdx => 5
  | .rrsrBin => 6
  | .rrsrDict => 7
  | .rril => 8
  | .rrm2 => 9
  | .rrss => 10

/-- `MemberTag::try_from`. -/
def MemberTag.tryFrom : Nat → Except IndexError MemberTag
  | 1 => .ok .rrs
  | 2 => .ok .rrti
  | 3 => .ok .rrsf
  | 4 => .ok .rrvi
  | 5 => .ok .rrsrIdx
  | 6 => .ok .rrsrBin
  | 7 => .ok .rrsrDict
  | 8 => .ok .rril
  | 9 => .ok .rrm2
  | 10 => .ok .rrss
  | _ => .error (.malformed "RRHC unknown member tag")

theorem memberTag_tryFrom (t : MemberTag) : MemberTag.tryFrom t.toU16 = .ok t := by cases t <;> rfl

theorem memberTag_toU16_lt (t : MemberTag) : t.toU16 < 2 ^ 16 := by cases t <;> decide

/-- `hotcache_build::MemberSpec`; its numbers are a `u64` and a `u32`. -/
structure MemberSpec where
  tag : MemberTag
  dataFile : String
  bootOff : Nat
  bootLen : Nat
  bootBytes : Bytes
  fits : bootOff < 2 ^ 64 ∧ bootLen < 2 ^ 32

/-- `hotcache::Member`. -/
structure Member where
  tag : MemberTag
  dataFile : String
  bootOff : Nat
  bootLen : Nat
  inlined : Bool
  inlineOff : Nat
  inlineLen : Nat
  deriving DecidableEq

/-- `hotcache::Hotcache`. -/
structure Hotcache where
  members : List Member
  inlineBlob : Bytes

/-! ## The writer -/

def rrhcMagic : Bytes := [82, 82, 72, 67]

/-- `hotcache::VERSION`. -/
def rrhcVersion : Nat := 1

/-- `hotcache::HEADER_SIZE`. -/
def rrhcHeaderSize : Nat := 32

/-- `hotcache::ENTRY_SIZE`. -/
def rrhcEntrySize : Nat := 40

/-- `hotcache::FLAG_INLINED`. -/
def flagInlined : Nat := 1

/-- Where a member's name is, whether its boot is inlined, and where it is or would be. -/
structure Placement where
  nameOff : Nat
  nameLen : Nat
  inlined : Bool
  inlineOff : Nat

/-- Places a member after the names and the boots so far. -/
def placeMember (inlineThreshold : Nat) (blobs : Bytes × Bytes) (m : MemberSpec) :
    Except String (Placement × (Bytes × Bytes)) :=
  if m.bootBytes.length ≠ m.bootLen then
    .error ("member " ++ debugText m.dataFile ++ ": boot_len " ++ toString m.bootLen ++
      " disagrees with boot_bytes.len() " ++ toString m.bootBytes.length)
  else if 2 ^ 32 ≤ blobs.1.length then .error "RRHC string blob exceeds the 32-bit limit"
  else if 2 ^ 16 ≤ (utf8 m.dataFile).length then .error "data-file name exceeds the 16-bit length limit"
  else
    let inlined := decide (m.bootLen ≤ inlineThreshold)
    .ok (⟨blobs.1.length, (utf8 m.dataFile).length, inlined, blobs.2.length⟩,
      (blobs.1 ++ utf8 m.dataFile, if inlined then blobs.2 ++ m.bootBytes else blobs.2))

/-- Places the members in order. -/
def placeMembers (inlineThreshold : Nat) (blobs : Bytes × Bytes) :
    List MemberSpec → Except String (List Placement × (Bytes × Bytes))
  | [] => .ok ([], blobs)
  | m :: members => do
    let (p, blobs) ← placeMember inlineThreshold blobs m
    let (ps, blobs) ← placeMembers inlineThreshold blobs members
    pure (p :: ps, blobs)

def rrhcHeader (memberCount strBytes inlineBytes : Nat) : Bytes :=
  rrhcMagic ++ (le 2 rrhcVersion ++ (le 2 0 ++ (le 4 memberCount ++ (le 4 strBytes ++ (le 8 inlineBytes ++ le 8 0)))))

/-- The manifest entry of a member. -/
def memberEntry (e : MemberSpec × Placement) : Bytes :=
  le 2 e.1.tag.toU16 ++ (le 2 (if e.2.inlined then flagInlined else 0) ++ (le 4 e.2.nameOff ++ (le 2 e.2.nameLen ++
    (le 2 0 ++ (le 8 e.1.bootOff ++ (le 4 e.1.bootLen ++ (le 8 (if e.2.inlined then e.2.inlineOff else 0) ++
      (le 4 (if e.2.inlined then e.1.bootLen else 0) ++ le 4 0))))))))

/-- `hotcache_build::write_hotcache`. -/
def writeHotcache (members : List MemberSpec) (inlineThreshold : Nat) : Except String Bytes := do
  let (placements, blobs) ← placeMembers inlineThreshold ([], []) members
  if 2 ^ 32 ≤ members.length then throw "member count exceeds the 32-bit limit"
  else if 2 ^ 32 ≤ blobs.1.length then throw "RRHC string blob exceeds the 32-bit limit"
  else
    pure (rrhcHeader members.length blobs.1.length blobs.2.length ++
      (table memberEntry (members.zip placements) ++ (blobs.1 ++ blobs.2)))

/-! ## The reader -/

/-- A member's name. -/
def readMemberName (stringBlob : Bytes) (nameOff nameLen : Nat) : Except IndexError String :=
  if u64Bound ≤ nameOff + nameLen then .error (.malformed "RRHC name range overflow")
  else if stringBlob.length < nameOff + nameLen then .error (.malformed "RRHC name out of string blob")
  else
    match fromUtf8 (slice stringBlob nameOff nameLen) with
    | some name => .ok name
    | none => .error (.malformed "RRHC non-UTF-8 data-file name")

/-- The manifest entry at `base`. -/
def parseMember (body stringBlob inlineBlob : Bytes) (base : Nat) : Except IndexError Member := do
  let tag ← MemberTag.tryFrom (getLe 2 body base)
  let dataFile ← readMemberName stringBlob (getLe 4 body (base + 4)) (getLe 2 body (base + 8))
  let inlined := hasFlag (getLe 2 body (base + 2)) flagInlined
  let inlineOff := getLe 8 body (base + 24)
  let inlineLen := getLe 4 body (base + 32)
  if inlined = true ∧ u64Bound ≤ inlineOff + inlineLen then throw (.malformed "RRHC inline range overflow")
  else if inlined = true ∧ inlineBlob.length < inlineOff + inlineLen then
    throw (.malformed "RRHC inline out of inlined blob")
  else
    pure {
      tag := tag
      dataFile := dataFile
      bootOff := getLe 8 body (base + 12)
      bootLen := getLe 4 body (base + 20)
      inlined := inlined
      inlineOff := inlineOff
      inlineLen := inlineLen }

namespace Hotcache

/-- The lengths of the names, the boots and the whole body, as the header declares them. -/
def bodyLen (header : Bytes) : Except IndexError Nat :=
  if header.length < rrhcHeaderSize then .error (.malformed "short RRHC header")
  else if slice header 0 4 ≠ rrhcMagic then .error (.badMagic (slice header 0 4))
  else if getLe 2 header 4 ≠ rrhcVersion then .error (.badVersion (getLe 2 header 4))
  else if u64Bound ≤ getLe 4 header 8 * rrhcEntrySize then .error (.malformed "RRHC manifest size overflow")
  else
    let bodyLen := getLe 4 header 8 * rrhcEntrySize + getLe 4 header 12 + getLe 8 header 16
    if u64Bound ≤ bodyLen then .error (.malformed "RRHC body size overflow") else .ok bodyLen

/-- The rest of `Hotcache::open`, once the body is here. -/
def parse (header body : Bytes) : Except IndexError Hotcache := do
  let memberCount := getLe 4 header 8
  let stringBlob := slice body (memberCount * rrhcEntrySize) (getLe 4 header 12)
  let inlineBlob := slice body (memberCount * rrhcEntrySize + getLe 4 header 12) (getLe 8 header 16)
  let members ← collect ((List.range memberCount).map fun i => parseMember body stringBlob inlineBlob (i * rrhcEntrySize))
  pure ⟨members, inlineBlob⟩

/-- `Hotcache::open`. -/
def «open» (rrhc : MemoryFetch) : Io Hotcache := do
  let header ← rrhc.read 0 rrhcHeaderSize
  let len ← ofOutcome (bodyLen header)
  let body ← rrhc.read rrhcHeaderSize len
  if body.length < len then ofOutcome (.error (.malformed "short RRHC body"))
  else ofOutcome (parse header body)

/-- `Hotcache::inlined`. -/
def inlined (hc : Hotcache) (m : Member) : Option Bytes :=
  if m.inlined then some (slice hc.inlineBlob m.inlineOff m.inlineLen) else none

/-- `Hotcache::inlined_by_name`. -/
def inlinedByName (hc : Hotcache) (name : String) : Option Bytes :=
  (hc.members.find? fun m => m.dataFile = name).bind hc.inlined

end Hotcache

/-! ## Where the members are placed -/

/-- A member is placed: its name and, if it is inlined, its boot are there. -/
structure PlacedAt (inlineThreshold : Nat) (names boots : Bytes) (p : Placement) (m : MemberSpec) : Prop where
  len : m.bootBytes.length = m.bootLen
  name : NameAt names p.nameOff p.nameLen m.dataFile
  inlined : p.inlined = decide (m.bootLen ≤ inlineThreshold)
  boot : p.inlined = true → p.inlineOff + m.bootLen ≤ boots.length ∧ slice boots p.inlineOff m.bootLen = m.bootBytes

section

variable {inlineThreshold : Nat} {members : List MemberSpec} {blobs : Bytes × Bytes}

theorem PlacedAt.append {names boots : Bytes} {p : Placement} {m : MemberSpec}
    (h : PlacedAt inlineThreshold names boots p m) (moreNames moreBoots : Bytes) :
    PlacedAt inlineThreshold (names ++ moreNames) (boots ++ moreBoots) p m := by
  refine ⟨h.len, h.name.append _, h.inlined, fun hin => ?_⟩
  obtain ⟨hle, hslice⟩ := h.boot hin
  refine ⟨by rw [List.length_append]; omega, ?_⟩
  rw [slice_append_left _ _ _ _ hle, hslice]

theorem placeMember_ok {m : MemberSpec} {r : Placement × (Bytes × Bytes)} (h : placeMember inlineThreshold blobs m = .ok r) :
    PlacedAt inlineThreshold r.2.1 r.2.2 r.1 m ∧ ∃ moreNames moreBoots, r.2 = (blobs.1 ++ moreNames, blobs.2 ++ moreBoots) := by
  unfold placeMember at h
  split at h
  · cases h
  split at h
  · cases h
  split at h
  · cases h
  next hlen hblob hname =>
  obtain rfl := Except.ok.inj h
  have hlen : m.bootBytes.length = m.bootLen := not_not.mp hlen
  refine ⟨⟨hlen, ⟨by simp only; omega, by simp only; omega, by simp only [List.length_append]; omega, ?_⟩, rfl, fun hin => ?_⟩, ?_⟩
  · exact (slice_append_right _ _ _ _ (Nat.le_refl _)).trans (by rw [Nat.sub_self, slice_zero_length])
  · simp only at hin ⊢
    rw [if_pos hin, List.length_append, hlen]
    refine ⟨Nat.le_refl _, ?_⟩
    rw [slice_append_right _ _ _ _ (Nat.le_refl _), Nat.sub_self, ← hlen, slice_zero_length]
  · by_cases hin : m.bootLen ≤ inlineThreshold
    · exact ⟨utf8 m.dataFile, m.bootBytes, by simp only [decide_eq_true hin, if_true]⟩
    · exact ⟨utf8 m.dataFile, [], by simp only [decide_eq_false hin, Bool.false_eq_true, if_false, List.append_nil]⟩

/-- The members are placed one after the other. -/
theorem placeMembers_ok {r : List Placement × (Bytes × Bytes)} (h : placeMembers inlineThreshold blobs members = .ok r) :
    List.Forall₂ (PlacedAt inlineThreshold r.2.1 r.2.2) r.1 members ∧
      ∃ moreNames moreBoots, r.2 = (blobs.1 ++ moreNames, blobs.2 ++ moreBoots) := by
  induction members generalizing blobs r with
  | nil =>
    obtain rfl := Except.ok.inj h
    exact ⟨List.Forall₂.nil, [], [], by rw [List.append_nil, List.append_nil]⟩
  | cons m members ih =>
    obtain ⟨⟨p, blobs1⟩, hplace, h⟩ := exists_of_bind_ok h
    obtain ⟨⟨ps, blobs2⟩, hrest, h⟩ := exists_of_bind_ok h
    obtain rfl := Except.ok.inj h
    obtain ⟨hat, names1, boots1, hblobs1⟩ := placeMember_ok hplace
    obtain ⟨hall, names2, boots2, hblobs2⟩ := ih hrest
    simp only at hat hblobs1 hall hblobs2
    obtain rfl := hblobs1
    obtain rfl := hblobs2
    refine ⟨List.Forall₂.cons (hat.append _ _) hall, names1 ++ names2, boots1 ++ boots2, ?_⟩
    simp only [List.append_assoc]

end

/-! ## Reading the bundle back -/

@[simp] theorem length_memberEntry (e : MemberSpec × Placement) : (memberEntry e).length = 40 := by simp [memberEntry]

@[simp] theorem length_rrhcHeader (memberCount strBytes inlineBytes : Nat) :
    (rrhcHeader memberCount strBytes inlineBytes).length = 32 := by simp [rrhcHeader, rrhcMagic]

theorem rrhcHeader_fields {memberCount strBytes inlineBytes : Nat} (hm : memberCount < 2 ^ 32) (hs : strBytes < 2 ^ 32)
    (hi : inlineBytes < 2 ^ 64) :
    slice (rrhcHeader memberCount strBytes inlineBytes) 0 4 = rrhcMagic ∧
    getLe 2 (rrhcHeader memberCount strBytes inlineBytes) 4 = rrhcVersion ∧
    getLe 4 (rrhcHeader memberCount strBytes inlineBytes) 8 = memberCount ∧
    getLe 4 (rrhcHeader memberCount strBytes inlineBytes) 12 = strBytes ∧
    getLe 8 (rrhcHeader memberCount strBytes inlineBytes) 16 = inlineBytes := by
  have hmagic : rrhcMagic.length = 4 := rfl
  unfold rrhcHeader
  refine ⟨slice_append_left _ _ _ _ (by rw [hmagic]), ?_, ?_, ?_, ?_⟩
  all_goals
    simp (disch := simp [hmagic]) only [getLe_append_right, hmagic, length_le, Nat.reduceSub, getLe_le_append]
  · rfl
  all_goals omega

theorem memberEntry_fields {e : MemberSpec × Placement} (hname : e.2.nameOff < 2 ^ 32 ∧ e.2.nameLen < 2 ^ 16)
    (hoff : e.2.inlined = true → e.2.inlineOff < 2 ^ 64) :
    getLe 2 (memberEntry e) 0 = e.1.tag.toU16 ∧
    getLe 2 (memberEntry e) 2 = (if e.2.inlined then flagInlined else 0) ∧
    getLe 4 (memberEntry e) 4 = e.2.nameOff ∧ getLe 2 (memberEntry e) 8 = e.2.nameLen ∧
    getLe 8 (memberEntry e) 12 = e.1.bootOff ∧ getLe 4 (memberEntry e) 20 = e.1.bootLen ∧
    getLe 8 (memberEntry e) 24 = (if e.2.inlined then e.2.inlineOff else 0) ∧
    getLe 4 (memberEntry e) 32 = if e.2.inlined then e.1.bootLen else 0 := by
  have htag := memberTag_toU16_lt e.1.tag
  obtain ⟨hbootOff, hbootLen⟩ := e.1.fits
  have hinline : (if e.2.inlined then e.2.inlineOff else 0) < 2 ^ 64 := by
    split
    · next hin => exact hoff hin
    · decide
  have hlen : (if e.2.inlined then e.1.bootLen else 0) < 2 ^ 32 := by
    split
    · exact hbootLen
    · decide
  have hflag : (if e.2.inlined then flagInlined else 0) < 2 ^ 16 := by
    split <;> decide
  unfold memberEntry
  refine ⟨?_, ?_, ?_, ?_, ?_, ?_, ?_, ?_⟩ <;>
    simp (disch := simp) only [getLe_append_right, length_le, Nat.reduceSub, getLe_le_append] <;> omega

theorem readMemberName_eq {blob : Bytes} {off len : Nat} {name : String} (h : NameAt blob off len name) :
    readMemberName blob off len = .ok name := by
  have hoff := h.off_lt
  have hlen := h.len_lt
  have hin := h.inside
  unfold readMemberName u64Bound
  rw [if_neg (by omega), if_neg (by omega), h.slice_eq, fromUtf8_utf8]

/-- A member read back: the range of its boot, and its boot bytes if they were inlined. -/
structure MemberOf (hc : Hotcache) (inlineThreshold : Nat) (m : Member) (spec : MemberSpec) : Prop where
  tag : m.tag = spec.tag
  dataFile : m.dataFile = spec.dataFile
  bootOff : m.bootOff = spec.bootOff
  bootLen : m.bootLen = spec.bootLen
  inlined : hc.inlined m = if spec.bootLen ≤ inlineThreshold then some spec.bootBytes else none

theorem parseMember_eq {body names boots : Bytes} {base inlineThreshold : Nat} {e : MemberSpec × Placement}
    (hentry : ∀ w off : Nat, off + w ≤ 40 → getLe w body (base + off) = getLe w (memberEntry e) off)
    (h : PlacedAt inlineThreshold names boots e.2 e.1) (hboots : boots.length < 2 ^ 64) :
    ∃ m, parseMember body names boots base = .ok m ∧
      ∀ members, MemberOf ⟨members, boots⟩ inlineThreshold m e.1 := by
  have hoff : e.2.inlined = true → e.2.inlineOff < 2 ^ 64 := fun hin => by
    have := (h.boot hin).1
    omega
  obtain ⟨h0, h2, h4, h8, h12, h20, h24, h32⟩ := memberEntry_fields ⟨h.name.off_lt, h.name.len_lt⟩ hoff
  have hflag : hasFlag (if e.2.inlined then flagInlined else 0) flagInlined = e.2.inlined := by
    cases e.2.inlined <;> decide
  have hr0 := hentry 2 0 (by omega)
  rw [Nat.add_zero] at hr0
  unfold parseMember
  rw [hr0, h0, memberTag_tryFrom, hentry 2 2 (by omega), h2, hentry 4 4 (by omega), h4, hentry 2 8 (by omega), h8,
    hentry 8 12 (by omega), h12, hentry 4 20 (by omega), h20, hentry 8 24 (by omega), h24, hentry 4 32 (by omega), h32,
    readMemberName_eq h.name, hflag]
  simp only [bind, Except.bind]
  cases hin : e.2.inlined with
  | true =>
    obtain ⟨hle, hslice⟩ := h.boot hin
    have hthreshold : e.1.bootLen ≤ inlineThreshold := of_decide_eq_true (h.inlined.symm.trans hin)
    have hfits : ¬ u64Bound ≤ e.2.inlineOff + e.1.bootLen := by
      unfold u64Bound
      omega
    simp only [if_true, true_and, if_neg hfits, if_neg (Nat.not_lt.mpr hle)]
    refine ⟨_, rfl, fun members => ⟨rfl, rfl, rfl, rfl, ?_⟩⟩
    rw [if_pos hthreshold]
    show (if true = true then some (slice boots e.2.inlineOff e.1.bootLen) else none) = _
    rw [if_pos rfl, hslice]
  | false =>
    have hthreshold : ¬ e.1.bootLen ≤ inlineThreshold := of_decide_eq_false (h.inlined.symm.trans hin)
    simp only [Bool.false_eq_true, false_and, if_false]
    refine ⟨_, rfl, fun members => ⟨rfl, rfl, rfl, rfl, ?_⟩⟩
    rw [if_neg hthreshold]
    rfl

/-- What a written bundle is made of. -/
theorem writeHotcache_ok {members : List MemberSpec} {inlineThreshold : Nat} {bytes : Bytes}
    (h : writeHotcache members inlineThreshold = .ok bytes) :
    ∃ placements names boots, List.Forall₂ (PlacedAt inlineThreshold names boots) placements members ∧
      members.length < 2 ^ 32 ∧ names.length < 2 ^ 32 ∧
      bytes = rrhcHeader members.length names.length boots.length ++
        (table memberEntry (members.zip placements) ++ (names ++ boots)) := by
  obtain ⟨⟨placements, names, boots⟩, hplace, h⟩ := exists_of_bind_ok h
  simp only at h
  split at h
  · cases h
  split at h
  · cases h
  next hcount hnames => exact ⟨placements, names, boots, (placeMembers_ok hplace).1, by omega, by omega, (Except.ok.inj h).symm⟩

/-- **The bundle read back**: its members in order, and the boots that were inlined. -/
theorem hotcache_roundTrip {members : List MemberSpec} {inlineThreshold : Nat} {bytes : Bytes}
    (h : writeHotcache members inlineThreshold = .ok bytes) (hlen : bytes.length < u64Bound) :
    ∃ hc, Settles (Hotcache.open (.new bytes)) (.ok hc) ∧
      List.Forall₂ (MemberOf hc inlineThreshold) hc.members members := by
  obtain ⟨placements, names, boots, hplaced, hcount, hnames, rfl⟩ := writeHotcache_ok h
  have hsame : placements.length = members.length := hplaced.length_eq
  have hzip : (members.zip placements).length = members.length := by rw [List.length_zip]; omega
  have htable : (table memberEntry (members.zip placements)).length = members.length * 40 := by
    rw [length_table length_memberEntry, hzip]
  have hbody : (table memberEntry (members.zip placements) ++ (names ++ boots)).length =
      members.length * 40 + names.length + boots.length := by
    rw [List.length_append, List.length_append, htable]
    omega
  have htotal : (rrhcHeader members.length names.length boots.length ++
      (table memberEntry (members.zip placements) ++ (names ++ boots))).length =
        32 + (members.length * 40 + names.length + boots.length) := by
    rw [List.length_append, hbody, length_rrhcHeader]
  have hboots : boots.length < 2 ^ 64 := by
    unfold u64Bound at hlen
    omega
  obtain ⟨hmagic, hversion, hmembers, hstr, hinline⟩ := rrhcHeader_fields hcount hnames hboots
  have hhead := length_rrhcHeader members.length names.length boots.length
  generalize rrhcHeader members.length names.length boots.length = header at *
  -- the sections of the body
  have hnameSlice : slice (table memberEntry (members.zip placements) ++ (names ++ boots)) (members.length * 40)
      names.length = names := slice_middle _ _ _ _ _ htable.symm rfl
  have hbootSlice : slice (table memberEntry (members.zip placements) ++ (names ++ boots))
      (members.length * 40 + names.length) boots.length = boots := by
    have := slice_middle (table memberEntry (members.zip placements) ++ names) boots []
      (members.length * 40 + names.length) boots.length (by rw [List.length_append, htable]) rfl
    simpa only [List.append_nil, List.append_assoc] using this
  -- the members, one by one
  obtain ⟨parsed, hparsed, hall⟩ := @collect_range IndexError Member MemberSpec
    (fun m spec => ∀ members, MemberOf ⟨members, boots⟩ inlineThreshold m spec) members
    (fun i => parseMember (table memberEntry (members.zip placements) ++ (names ++ boots)) names boots
      (i * rrhcEntrySize)) (by
      intro i hi
      have hplace : i < placements.length := by omega
      have hboth : i < (members.zip placements).length := by omega
      have hget : (members.zip placements)[i] = (members[i], placements[i]) := List.getElem_zip
      have hat := hplaced.get hplace hi
      have hentry : ∀ w off : Nat, off + w ≤ 40 →
          getLe w (table memberEntry (members.zip placements) ++ (names ++ boots)) (i * rrhcEntrySize + off) =
            getLe w (memberEntry (members[i], placements[i])) off := by
        intro w off ho
        have hin : i * 40 + off + w ≤ (table memberEntry (members.zip placements)).length := by omega
        rw [rrhcEntrySize, getLe_append_left _ _ _ _ hin, getLe_table length_memberEntry _ i hboth w off ho, hget]
      exact parseMember_eq hentry hat hboots)
  refine ⟨⟨parsed, boots⟩, ?_, hall.imp fun m spec hm => hm parsed⟩
  unfold Hotcache.open
  refine (MemoryFetch.settles_read (MemoryFetch.inFile_new hlen (by rw [htotal]; unfold rrhcHeaderSize; omega))).bind ?_
  have hslice : slice (MemoryFetch.new (header ++ (table memberEntry (members.zip placements) ++ (names ++ boots)))).bytes
      0 rrhcHeaderSize = header := by
    show slice (header ++ _) 0 32 = header
    rw [slice_append_left _ _ _ _ (by omega), ← hhead, slice_zero_length]
  rw [hslice]
  have hbodyLen : Hotcache.bodyLen header = .ok (members.length * 40 + names.length + boots.length) := by
    unfold u64Bound at hlen
    unfold Hotcache.bodyLen rrhcHeaderSize rrhcEntrySize u64Bound
    rw [if_neg (by omega), if_neg (by rw [hmagic]; simp), if_neg (by rw [hversion]; simp), hmembers, hstr, hinline,
      if_neg (by omega)]
    simp only
    rw [if_neg (by omega)]
  rw [hbodyLen]
  refine (Settles.ofOutcome _).bind ?_
  refine (MemoryFetch.settles_read (MemoryFetch.inFile_new hlen (by rw [htotal]; unfold rrhcHeaderSize; omega))).bind ?_
  have hrest : slice (MemoryFetch.new (header ++ (table memberEntry (members.zip placements) ++ (names ++ boots)))).bytes
      rrhcHeaderSize (members.length * 40 + names.length + boots.length) =
        table memberEntry (members.zip placements) ++ (names ++ boots) := by
    show slice (header ++ _) 32 _ = _
    rw [← hbody, ← hhead, slice_append_right _ _ _ _ (Nat.le_refl _), Nat.sub_self, slice_zero_length]
  rw [hrest, if_neg (by rw [hbody]; omega)]
  have hparse : Hotcache.parse header (table memberEntry (members.zip placements) ++ (names ++ boots)) =
      .ok ⟨parsed, boots⟩ := by
    unfold Hotcache.parse
    rw [hmembers, hstr, hinline]
    unfold rrhcEntrySize at hparsed ⊢
    simp only [hnameSlice, hbootSlice, hparsed]
    rfl
  rw [hparse]
  exact Settles.ofOutcome _

end RoaringRange
