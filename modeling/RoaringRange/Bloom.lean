import RoaringRange.Lib.Bits
import RoaringRange.Lib.Checked
import RoaringRange.Fetch
import RoaringRange.Ngram

/-!
# Term Bloom filters (`splitset.rs`)

A filter is `[k u32][nbits u32][bits]`; a key sets the `k` bits its two hashes name.  A split's filter
is resident in the manifest; a global one is probed where it lies, a byte per bit.  Neither ever denies
a key it was built over:

    key ∈ keys → bloomContains (bloomBuild keys bits) key = true            (bloomContains_build)
    a probe of the built file answers as the resident filter does           (settles_containsAll)

The size of a filter is computed in `u64` before it is clamped.  `bloomBuilt` is `bloom_build` with its traps, and
returns where the size fits:

    bloomBuilt checks keys bits = .ok (bloomBuild keys bits) ↔ BloomFits checks keys.length bits   (bloomBuilt_of_fits,
                                                                                                    bloomBuilt_traps)
-/

namespace RoaringRange

open ByteString Faults Checked

/-- `splitset::splitmix64`. -/
def splitmix64 (z : UInt64) : UInt64 :=
  let z := (z ^^^ (z >>> 30)) * 0xbf58476d1ce4e5b9
  let z := (z ^^^ (z >>> 27)) * 0x94d049bb133111eb
  z ^^^ (z >>> 31)

/-- `splitset::bloom_positions`. -/
def bloomPositions (key : Key) (k nbits : Nat) : List Nat :=
  let h1 := splitmix64 (UInt64.ofFin key)
  let h2 := splitmix64 (UInt64.ofFin key ^^^ 0x9e3779b97f4a7c15) ||| 1
  (List.range k).map fun i => (h1 + UInt64.ofNat i * h2).toNat % nbits

/-- `splitset::bloom_k`, with `ln 2` in billionths: below the clamp no product comes near a half. -/
def bloomK (bitsPerKey : Nat) : Nat :=
  max 1 (min 16 ((2 * bitsPerKey * 693147180 + 1000000000) / 2000000000))

/-- The number of bits of a filter over `n` keys.  The product and `next_multiple_of` are of `u64`, and wrap as in a
release build: `bloomBitsChecked` is the build that checks them. -/
def bloomBits (n bitsPerKey : Nat) : Nat :=
  min ((max (max n 1 * bitsPerKey % u64Bound) 64 + 7) / 8 * 8 % u64Bound) 4294967288

/-- `u64::next_multiple_of` in a build with overflow checks. -/
def nextMultipleOf (x m : Nat) : Except (Abort Empty) Nat :=
  if x % m = 0 then .ok x else add u64Bound x (m - x % m)

/-- The number of bits in a build with overflow checks. -/
def bloomBitsChecked (n bitsPerKey : Nat) : Except (Abort Empty) Nat := do
  let product ← mul u64Bound (max n 1) bitsPerKey
  let size ← nextMultipleOf (max product 64) 8
  .ok (min size 4294967288)

/-- The number of bits in a build with overflow checks or without. -/
def bloomSize (checks : Bool) (n bitsPerKey : Nat) : Except (Abort Empty) Nat :=
  if checks then bloomBitsChecked n bitsPerKey else .ok (bloomBits n bitsPerKey)

/-- The bytes of a filter of `nbits` bits. -/
def bloomBytes (keys : List Key) (k nbits : Nat) : Bytes :=
  le 4 k ++ (le 4 nbits ++
    setBits (List.replicate (nbits / 8) 0) (keys.flatMap fun key => bloomPositions key k nbits))

/-- The bytes that `splitset::bloom_build` returns, where it returns; a seal or a flush whose filter is not built ends
there (`bloomBuilt`). -/
def bloomBuild (keys : List Key) (bitsPerKey : Nat) : Bytes :=
  bloomBytes keys (bloomK bitsPerKey) (bloomBits keys.length bitsPerKey)

/-- `splitset::bloom_build`, with overflow checks or without.  Without them the size may wrap to 0, and then the first
position of a key is a remainder by it. -/
def bloomBuilt (checks : Bool) (keys : List Key) (bitsPerKey : Nat) : Except (Abort Empty) Bytes := do
  let nbits ← bloomSize checks keys.length bitsPerKey
  if nbits = 0 ∧ keys ≠ [] then .error (.trap .zeroDivisor)
  else .ok (bloomBytes keys (bloomK bitsPerKey) nbits)

/-- The loop of `bloom_contains`; a filter that ends before a bit counts as having it. -/
def bloomProbe (bits : Bytes) : List Nat → Bool
  | [] => true
  | pos :: ps =>
    if bits.length ≤ pos / 8 then true
    else if testBit bits pos = false then false
    else bloomProbe bits ps

/-- `splitset::bloom_contains`. -/
def bloomContains (bloom : Bytes) (key : Key) : Bool :=
  if bloom.length < 8 then true
  else
    let k := getLe 4 bloom 0
    let nbits := getLe 4 bloom 4
    if k = 0 ∨ 64 < k ∨ nbits = 0 then true
    else bloomProbe (bloom.drop 8) (bloomPositions key k nbits)

/-- `splitset::RemoteBloom`. -/
structure RemoteBloom where
  fetch : MemoryFetch
  k : Nat
  nbits : Nat

/-- `RemoteBloom::open`. -/
def RemoteBloom.open (f : MemoryFetch) : Io RemoteBloom := do
  let h ← f.read 0 8
  let k := getLe 4 h 0
  let nbits := getLe 4 h 4
  if k = 0 ∨ 64 < k ∨ nbits = 0 then ofOutcome (.error (.malformed "RRSS bloom sidecar header invalid"))
  else pure ⟨f, k, nbits⟩

/-- `RemoteBloom::contains_all`. -/
def RemoteBloom.containsAll (b : RemoteBloom) (keys : List Key) : Io Bool := do
  let positions := keys.flatMap fun key => bloomPositions key b.k b.nbits
  let bytes ← readCoalesced b.fetch (positions.map fun p => (8 + p / 8, 1)) 0
  pure ((positions.zip bytes).all fun x => (x.2.getD 0 0).toNat.testBit (x.1 % 8))

/-! ## A built filter -/

section

variable {keys : List Key} {bitsPerKey : Nat}

theorem bloomK_pos (bitsPerKey : Nat) : 1 ≤ bloomK bitsPerKey ∧ bloomK bitsPerKey ≤ 16 := by
  unfold bloomK
  omega

theorem bloomBits_le (n bitsPerKey : Nat) :
    bloomBits n bitsPerKey ≤ 4294967288 ∧ bloomBits n bitsPerKey % 8 = 0 := by
  unfold bloomBits u64Bound
  omega

/-- The size of a filter stays in `u64`, where overflow is checked and where it wraps. -/
def BloomFits (checks : Bool) (n bitsPerKey : Nat) : Prop :=
  (if checks then max n 1 * bitsPerKey else max n 1 * bitsPerKey % u64Bound) ≤ u64Bound - 8

/-- The size wraps to 0, or is one of the sizes a filter may have. -/
theorem bloomBits_pos_iff (n bitsPerKey : Nat) : 64 ≤ bloomBits n bitsPerKey ↔ BloomFits false n bitsPerKey := by
  unfold bloomBits BloomFits u64Bound
  rw [if_neg Bool.false_ne_true]
  omega

theorem bloomBits_eq_zero_iff (n bitsPerKey : Nat) : bloomBits n bitsPerKey = 0 ↔ ¬ BloomFits false n bitsPerKey := by
  unfold bloomBits BloomFits u64Bound
  rw [if_neg Bool.false_ne_true]
  omega

/-- What checking overflow leaves is what wrapping leaves. -/
theorem bloomBitsChecked_of_fits {n bitsPerKey : Nat} (h : BloomFits true n bitsPerKey) :
    bloomBitsChecked n bitsPerKey = .ok (bloomBits n bitsPerKey) ∧ BloomFits false n bitsPerKey := by
  unfold BloomFits at h ⊢
  rw [if_pos rfl] at h
  rw [if_neg Bool.false_ne_true]
  have hb : u64Bound = 2 ^ 64 := rfl
  have hlt : max n 1 * bitsPerKey < u64Bound := by omega
  rw [Nat.mod_eq_of_lt hlt]
  refine ⟨?_, h⟩
  unfold bloomBitsChecked bloomBits nextMultipleOf
  rw [mul_ok hlt, ok_bind, Nat.mod_eq_of_lt hlt]
  have hround : (max (max n 1 * bitsPerKey) 64 + 7) / 8 * 8 < u64Bound := by omega
  rw [Nat.mod_eq_of_lt hround]
  generalize max (max n 1 * bitsPerKey) 64 = size at *
  split
  · next hdvd =>
    rw [ok_bind, show (size + 7) / 8 * 8 = size by omega]
  · next hdvd =>
    have hsum : size + (8 - size % 8) = (size + 7) / 8 * 8 := by omega
    rw [add_ok (by omega), ok_bind, hsum]

theorem bloomBitsChecked_traps {n bitsPerKey : Nat} (h : ¬ BloomFits true n bitsPerKey) :
    bloomBitsChecked n bitsPerKey = .error (.trap .overflow) := by
  unfold BloomFits at h
  rw [if_pos rfl] at h
  have hb : u64Bound = 2 ^ 64 := rfl
  unfold bloomBitsChecked
  by_cases hlt : max n 1 * bitsPerKey < u64Bound
  · rw [mul_ok hlt, ok_bind]
    unfold nextMultipleOf
    rw [if_neg (by omega), add_trap (by omega)]
    rfl
  · unfold mul
    rw [if_neg hlt]
    rfl

/-- **The filter is built where its size fits.** -/
theorem bloomBuilt_of_fits {checks : Bool} (h : BloomFits checks keys.length bitsPerKey) :
    bloomBuilt checks keys bitsPerKey = .ok (bloomBuild keys bitsPerKey) ∧ 64 ≤ bloomBits keys.length bitsPerKey := by
  have hbits : bloomSize checks keys.length bitsPerKey = .ok (bloomBits keys.length bitsPerKey) ∧
      BloomFits false keys.length bitsPerKey := by
    cases checks with
    | false => exact ⟨rfl, h⟩
    | true => exact bloomBitsChecked_of_fits h
  have hpos := (bloomBits_pos_iff _ _).mpr hbits.2
  refine ⟨?_, hpos⟩
  unfold bloomBuilt
  rw [hbits.1, ok_bind, if_neg fun hz => by omega]
  rfl

/-- Elsewhere the code traps, if the filter is over a key at all. -/
theorem bloomBuilt_traps {checks : Bool} (hne : keys ≠ []) (h : ¬ BloomFits checks keys.length bitsPerKey) :
    ∃ t, bloomBuilt checks keys bitsPerKey = .error (.trap t) := by
  unfold bloomBuilt
  cases checks with
  | true =>
    rw [show bloomSize true keys.length bitsPerKey = _ from bloomBitsChecked_traps h]
    exact ⟨.overflow, rfl⟩
  | false =>
    have hsize : bloomSize false keys.length bitsPerKey = .ok (bloomBits keys.length bitsPerKey) := rfl
    rw [hsize, ok_bind, if_pos ⟨(bloomBits_eq_zero_iff _ _).mpr h, hne⟩]
    exact ⟨.zeroDivisor, rfl⟩

theorem lt_of_mem_bloomPositions {key : Key} {k nbits p : Nat} (hn : 0 < nbits)
    (h : p ∈ bloomPositions key k nbits) : p < nbits := by
  obtain ⟨i, -, rfl⟩ := List.mem_map.mp h
  exact Nat.mod_lt _ hn

/-- The bits of a filter, after its two header fields. -/
def bloomBody (keys : List Key) (bitsPerKey : Nat) : Bytes :=
  setBits (List.replicate (bloomBits keys.length bitsPerKey / 8) 0)
    (keys.flatMap fun key => bloomPositions key (bloomK bitsPerKey) (bloomBits keys.length bitsPerKey))

theorem bloomBuild_eq (keys : List Key) (bitsPerKey : Nat) : bloomBuild keys bitsPerKey =
    le 4 (bloomK bitsPerKey) ++ (le 4 (bloomBits keys.length bitsPerKey) ++ bloomBody keys bitsPerKey) := rfl

@[simp] theorem length_bloomBody (keys : List Key) (bitsPerKey : Nat) :
    (bloomBody keys bitsPerKey).length = bloomBits keys.length bitsPerKey / 8 := by
  simp [bloomBody]

theorem length_bloomBuild (keys : List Key) (bitsPerKey : Nat) :
    (bloomBuild keys bitsPerKey).length = 8 + bloomBits keys.length bitsPerKey / 8 := by
  rw [bloomBuild_eq]
  simp only [List.length_append, length_le, length_bloomBody]
  omega

theorem length_bloomBuild_lt (keys : List Key) (bitsPerKey : Nat) :
    (bloomBuild keys bitsPerKey).length < 2 ^ 30 := by
  have := bloomBits_le keys.length bitsPerKey
  rw [length_bloomBuild]
  omega

theorem bloomBuild_fields (keys : List Key) (bitsPerKey : Nat) :
    getLe 4 (bloomBuild keys bitsPerKey) 0 = bloomK bitsPerKey ∧
      getLe 4 (bloomBuild keys bitsPerKey) 4 = bloomBits keys.length bitsPerKey ∧
      (bloomBuild keys bitsPerKey).drop 8 = bloomBody keys bitsPerKey := by
  have hk := bloomK_pos bitsPerKey
  have hn := bloomBits_le keys.length bitsPerKey
  rw [bloomBuild_eq]
  refine ⟨getLe_field (by omega) _, ?_, ?_⟩
  · exact (getLe_le_skip 4 4 _ _ 0).trans (getLe_field (by omega) _)
  · rw [← List.append_assoc]
    exact List.drop_left' (by simp)

/-- Every bit of every key is set. -/
theorem testBit_bloomBody {key : Key} {p : Nat} (hpos : bloomBits keys.length bitsPerKey ≠ 0) (hkey : key ∈ keys)
    (hp : p ∈ bloomPositions key (bloomK bitsPerKey) (bloomBits keys.length bitsPerKey)) :
    p / 8 < bloomBits keys.length bitsPerKey / 8 ∧ testBit (bloomBody keys bitsPerKey) p = true := by
  have hn := bloomBits_le keys.length bitsPerKey
  have hlt := lt_of_mem_bloomPositions (Nat.pos_of_ne_zero hpos) hp
  have hbyte : p / 8 < bloomBits keys.length bitsPerKey / 8 := by omega
  refine ⟨hbyte, ?_⟩
  apply testBit_setBits
  · exact List.mem_flatMap.mpr ⟨key, hkey, hp⟩
  · rw [List.length_replicate]
    exact hbyte

theorem bloomProbe_true {bits : Bytes} {ps : List Nat} (h : ∀ p ∈ ps, testBit bits p = true) :
    bloomProbe bits ps = true := by
  induction ps with
  | nil => rfl
  | cons p ps ih =>
    unfold bloomProbe
    split
    · rfl
    · rw [h p List.mem_cons_self, if_neg (by decide)]
      exact ih fun q hq => h q (List.mem_cons_of_mem _ hq)

/-- No bit of a whole filter is past its end. -/
theorem bloomProbe_eq {bits : Bytes} {ps : List Nat} (h : ∀ p ∈ ps, p / 8 < bits.length) :
    bloomProbe bits ps = ps.all fun p => testBit bits p := by
  induction ps with
  | nil => rfl
  | cons p ps ih =>
    have hp := h p List.mem_cons_self
    unfold bloomProbe
    rw [if_neg (by omega), List.all_cons, ih fun q hq => h q (List.mem_cons_of_mem _ hq)]
    cases testBit bits p with
    | false => rfl
    | true => rfl

/-- A built filter has the keys all bits of which are set. -/
theorem bloomContains_build_eq (hpos : bloomBits keys.length bitsPerKey ≠ 0) (key : Key) :
    bloomContains (bloomBuild keys bitsPerKey) key =
      (bloomPositions key (bloomK bitsPerKey) (bloomBits keys.length bitsPerKey)).all fun p =>
        testBit (bloomBody keys bitsPerKey) p := by
  obtain ⟨hk, hn, hbody⟩ := bloomBuild_fields keys bitsPerKey
  have hkpos := bloomK_pos bitsPerKey
  have hnle := bloomBits_le keys.length bitsPerKey
  have hlen := length_bloomBuild keys bitsPerKey
  unfold bloomContains
  rw [if_neg (by omega)]
  simp only [hk, hn, hbody]
  rw [if_neg (by omega)]
  refine bloomProbe_eq fun p hp => ?_
  have := lt_of_mem_bloomPositions (by omega) hp
  rw [length_bloomBody]
  omega

/-- **No false negatives**: a filter has every key it was built over. -/
theorem bloomContains_build {key : Key} (hkey : key ∈ keys) :
    bloomContains (bloomBuild keys bitsPerKey) key = true := by
  obtain ⟨hk, hn, hbody⟩ := bloomBuild_fields keys bitsPerKey
  unfold bloomContains
  split
  · rfl
  · simp only [hk, hn, hbody]
    split
    · rfl
    · next hhead => exact bloomProbe_true fun p hp => (testBit_bloomBody (fun h => hhead (by simp [h])) hkey hp).2

end

/-! ## Probing a built filter where it lies -/

section

variable {ks : List Key} {bitsPerKey : Nat}

/-- The built file opens, unless its size has wrapped to 0. -/
theorem settles_openBuilt (ks : List Key) (bitsPerKey : Nat) :
    Settles (RemoteBloom.open (MemoryFetch.new (bloomBuild ks bitsPerKey)))
      (if bloomBits ks.length bitsPerKey = 0 then .error (.malformed "RRSS bloom sidecar header invalid")
       else .ok ⟨MemoryFetch.new (bloomBuild ks bitsPerKey), bloomK bitsPerKey, bloomBits ks.length bitsPerKey⟩) := by
  obtain ⟨hk, hn, -⟩ := bloomBuild_fields ks bitsPerKey
  have hkpos := bloomK_pos bitsPerKey
  have hnle := bloomBits_le ks.length bitsPerKey
  have hlen := length_bloomBuild ks bitsPerKey
  have hlt := length_bloomBuild_lt ks bitsPerKey
  have hread : (MemoryFetch.new (bloomBuild ks bitsPerKey)).InFile 0 8 :=
    MemoryFetch.inFile_new (by unfold u64Bound; omega) (by omega)
  unfold RemoteBloom.open
  refine (MemoryFetch.settles_read hread).bind ?_
  have h0 : getLe 4 (slice (bloomBuild ks bitsPerKey) 0 8) 0 = bloomK bitsPerKey := by
    rw [getLe_slice _ _ _ _ _ (by omega), hk]
  have h4 : getLe 4 (slice (bloomBuild ks bitsPerKey) 0 8) 4 = bloomBits ks.length bitsPerKey := by
    rw [getLe_slice _ _ _ _ _ (by omega), hn]
  simp only [MemoryFetch.new, h0, h4]
  by_cases hz : bloomBits ks.length bitsPerKey = 0
  · rw [if_pos hz, if_pos (Or.inr (Or.inr hz))]
    exact Settles.ofOutcome _
  · rw [if_neg hz, if_neg (by omega)]
    exact Settles.pure _

theorem settles_openRemote (hpos : bloomBits ks.length bitsPerKey ≠ 0) :
    Settles (RemoteBloom.open (MemoryFetch.new (bloomBuild ks bitsPerKey)))
      (.ok ⟨MemoryFetch.new (bloomBuild ks bitsPerKey), bloomK bitsPerKey, bloomBits ks.length bitsPerKey⟩) := by
  have h := settles_openBuilt ks bitsPerKey
  rwa [if_neg hpos] at h

/-- **The probe answers as the resident filter does**, key by key. -/
theorem settles_containsAll (hpos : bloomBits ks.length bitsPerKey ≠ 0) (keys : List Key) :
    Settles (RemoteBloom.containsAll
        ⟨MemoryFetch.new (bloomBuild ks bitsPerKey), bloomK bitsPerKey, bloomBits ks.length bitsPerKey⟩ keys)
      (.ok (keys.all (bloomContains (bloomBuild ks bitsPerKey)))) := by
  have hnle := bloomBits_le ks.length bitsPerKey
  have hlen := length_bloomBuild ks bitsPerKey
  have hlt := length_bloomBuild_lt ks bitsPerKey
  obtain ⟨-, -, hbody⟩ := bloomBuild_fields ks bitsPerKey
  have hall : keys.all (bloomContains (bloomBuild ks bitsPerKey)) = (keys.flatMap fun key =>
      bloomPositions key (bloomK bitsPerKey) (bloomBits ks.length bitsPerKey)).all fun p =>
        testBit (bloomBody ks bitsPerKey) p := by
    rw [List.all_flatMap]
    congr 1
    exact funext fun key => bloomContains_build_eq hpos key
  rw [hall]
  unfold RemoteBloom.containsAll
  simp only
  generalize hpos : (keys.flatMap fun key =>
    bloomPositions key (bloomK bitsPerKey) (bloomBits ks.length bitsPerKey)) = positions
  have hin : ∀ p ∈ positions, p < bloomBits ks.length bitsPerKey := by
    intro p hp
    rw [← hpos] at hp
    obtain ⟨key, -, hp⟩ := List.mem_flatMap.mp hp
    exact lt_of_mem_bloomPositions (by omega) hp
  have hread : Readable (MemoryFetch.new (bloomBuild ks bitsPerKey)) (positions.map fun p => (8 + p / 8, 1)) := by
    intro r hr _
    obtain ⟨p, hp, rfl⟩ := List.mem_map.mp hr
    have := hin p hp
    exact MemoryFetch.inFile_new (by unfold u64Bound; omega) (by simp only; omega)
  have hzip : ∀ g : Nat → Bytes, positions.zip (positions.map g) = positions.map fun p => (p, g p) := by
    intro g
    conv => lhs; lhs; rw [← List.map_id positions]
    exact List.zip_map'
  -- the byte read for a bit is the filter's byte
  have hbit : ∀ p, ((slice (bloomBuild ks bitsPerKey) (8 + p / 8) 1).getD 0 0).toNat.testBit (p % 8) =
      testBit (bloomBody ks bitsPerKey) p := by
    intro p
    have hbyte : (slice (bloomBuild ks bitsPerKey) (8 + p / 8) 1).getD 0 0 = (bloomBody ks bitsPerKey).getD (p / 8) 0 := by
      rw [← hbody, slice]
      simp [List.getD_eq_getElem?_getD, List.getElem?_drop]
    rw [hbyte]
    rfl
  have hprobe : ((positions.zip ((positions.map fun p => (8 + p / 8, 1)).map fun r =>
      slice (bloomBuild ks bitsPerKey) r.1 r.2)).all fun x => (x.2.getD 0 0).toNat.testBit (x.1 % 8)) =
        positions.all fun p => testBit (bloomBody ks bitsPerKey) p := by
    rw [List.map_map, hzip, List.all_map]
    congr 1
    exact funext hbit
  rw [← hprobe]
  exact (settles_readCoalesced hread).bind (Settles.pure _)

end

end RoaringRange
