import RoaringRange.Posting
import RoaringRange.PortableCodec

/-!
# Parts of a posting (`posting.rs`)

`parseDir` of any bytes and any declared length gives containers that lie one after the other, from the end of the
offset table to that length.  For a posting in the portable layout this is what `readPostingSubset` seeks by: with any
rule of joining near containers into one read, and whether or not the header fits the first read,

    readPostingSubset on keys and readPosting settle on sets that agree in the buckets of keys  (partialReads_agree)
-/

namespace RoaringRange

open ByteString Faults Slices

/-! ## The directory of any bytes -/

/-- The byte ranges of the containers lie one after the other, from `dataAt` to `total`. -/
structure Consecutive (dataAt total : Nat) (dir : List Container) : Prop where
  first : ∀ c, dir.head? = some c → c.start = dataAt
  next : ∀ i c d, dir[i]? = some c → dir[i + 1]? = some d → c.start + c.len = d.start
  last : ∀ c, dir.getLast? = some c → c.start + c.len = total

section Directory

variable {header : Bytes} {total size offs : Nat}

/-- A directory entry: from its own offset to the next one's, or to the end of the posting. -/
theorem parseEntry_range {i : Nat} {c : Container} (h : parseEntry header total size offs i = some c) :
    c.start = getLe 4 header (offs + i * 4) ∧
      c.start + c.len = if i + 1 < size then getLe 4 header (offs + (i + 1) * 4) else total := by
  unfold parseEntry at h
  simp only at h
  generalize (if i + 1 < size then getLe 4 header (offs + (i + 1) * 4) else total) = stop at h ⊢
  split at h
  · cases h
  · next hrange =>
    obtain rfl := Option.some.inj h
    refine ⟨rfl, ?_⟩
    show getLe 4 header (offs + i * 4) + (stop - getLe 4 header (offs + i * 4)) = stop
    omega

theorem consecutive_of_entries {dir : List Container}
    (h : List.Forall₂ (fun i c => parseEntry header total size offs i = some c) (List.range size) dir) :
    dir.length = size ∧ Consecutive (getLe 4 header offs) total dir := by
  have hlen : dir.length = size := by rw [← h.length_eq, List.length_range]
  have hentry : ∀ i c, dir[i]? = some c → i < size ∧ parseEntry header total size offs i = some c := by
    intro i c hi
    obtain ⟨hlt, rfl⟩ := List.getElem?_eq_some_iff.mp hi
    have := (List.forall₂_iff_get.mp h).2 i (by rwa [h.length_eq]) hlt
    simp only [List.get_eq_getElem, List.getElem_range] at this
    exact ⟨by omega, this⟩
  refine ⟨hlen, ⟨fun c hc => ?_, fun i c d hc hd => ?_, fun c hc => ?_⟩⟩
  · rw [List.head?_eq_getElem?] at hc
    have hstart := (parseEntry_range (hentry 0 c hc).2).1
    rwa [Nat.zero_mul, Nat.add_zero] at hstart
  · have hend := (parseEntry_range (hentry i c hc).2).2
    obtain ⟨hlt, hd⟩ := hentry (i + 1) d hd
    rw [if_pos hlt] at hend
    rw [hend, (parseEntry_range hd).1]
  · rw [List.getLast?_eq_getElem?] at hc
    obtain ⟨hlt, hc⟩ := hentry _ c hc
    have hend := (parseEntry_range hc).2
    rwa [if_neg (by omega)] at hend

/-- **A parsed directory**: as many containers as the header declares, laid out from the end of the offset table to
the declared length. -/
theorem parseDir_consecutive {dir : List Container} (h : parseDir header total = some dir) :
    dir.length = getLe 4 header 4 ∧ Consecutive (8 + dir.length * 4 + dir.length * 4) total dir := by
  unfold parseDir at h
  split at h
  · cases h
  simp only at h
  split at h
  · next hzero =>
    obtain rfl := Option.some.inj h
    refine ⟨hzero.symm, ⟨fun c hc => ?_, fun i c d hc _ => ?_, fun c hc => ?_⟩⟩
    · cases hc
    · cases hc
    · cases hc
  · split at h
    · cases h
    split at h
    · cases h
    · next hfirst =>
      obtain ⟨hlen, hdir⟩ := consecutive_of_entries (mapM_some_forall₂ h)
      refine ⟨hlen, ?_⟩
      rw [not_not.mp hfirst] at hdir
      rw [hlen]
      have htable : 8 + getLe 4 header 4 * 4 + getLe 4 header 4 * 4 =
          getLe 4 header 4 * 4 + (getLe 4 header 4 * 4 + 8) := by omega
      rwa [htable]

end Directory

/-! ## Reading some buckets -/

section

variable [Roaring]

/-- Bytes in the portable layout are a posting. -/
theorem postingAt_of_portable {f : MemoryFetch} {off len : Nat} {S : Bitmap} (hin : f.InFile off len)
    (h : slice f.bytes off len = portable S) : PostingAt f off len S := ⟨hin, by rw [h]; exact represents_portable S⟩

omit [Roaring] in
theorem restrict_subsetRead (f : MemoryFetch) (off len : Nat) (S : Bitmap) (keys : List Nat) :
    (subsetRead f off len S keys).restrict keys = S.restrict keys := by
  refine AscSet.ext_mem fun d => ?_
  rw [Bitmap.mem_restrict, Bitmap.mem_restrict]
  exact and_congr_left fun hd => mem_subsetRead hd

/-- **Partial reads agree with full reads**, and the directory they seek by lies as the posting does. -/
theorem partialReads_agree :
    (∀ (f : MemoryFetch) (off len : Nat) (S : Bitmap) (keys : List Nat), f.InFile off len →
      slice f.bytes off len = portable S → keys.Pairwise (· < ·) →
      Settles (readPosting f off len) (.ok S) ∧
      ∃ T, Settles (readPostingSubset f off len keys) (.ok T) ∧
        (∀ joins, Settles (readPostingSubsetBy joins f off len keys) (.ok T)) ∧
        T.restrict keys = S.restrict keys) ∧
    ∀ header total dir, parseDir header total = some dir →
      dir.length = getLe 4 header 4 ∧ Consecutive (8 + dir.length * 4 + dir.length * 4) total dir := by
  refine ⟨fun f off len S keys hin hbytes hk => ?_, fun _ _ _ h => parseDir_consecutive h⟩
  have h := postingAt_of_portable hin hbytes
  refine ⟨settles_readPosting h, subsetRead f off len S keys, settles_readPostingSubset h hk, ?_, ?_⟩
  · intro joins
    exact settles_readPostingSubsetBy joins h hk
  · exact restrict_subsetRead f off len S keys

end

attribute [local instance] PortableCodec.roaring

theorem manyBuckets_lt : ∀ d ∈ (List.range 1000).map (· * bucketSize), d < u32Bound := by
  intro d hd
  obtain ⟨i, hi, rfl⟩ := List.mem_map.mp hd
  have := List.mem_range.mp hi
  unfold bucketSize u32Bound
  omega

/-- A doc in each of the first thousand buckets. -/
def manyBuckets : Bitmap := AscSet.ofList ((List.range 1000).map (· * bucketSize)) manyBuckets_lt

theorem dataStart_manyBuckets : headerPrefix < dataStart (containersOf manyBuckets) := by
  have hsub : List.range 1000 ⊆ distinctHighKeys manyBuckets := by
    intro k hk
    refine mem_distinctHighKeys.mpr ⟨k * bucketSize, ?_, Nat.mul_div_cancel k (by decide)⟩
    exact AscSet.mem_ofList.mpr (List.mem_map_of_mem hk)
  have hlen := (List.subperm_of_subset List.nodup_range hsub).length_le
  have hcount : (containersOf manyBuckets).length = (distinctHighKeys manyBuckets).length := by
    simp [containersOf, containersWith]
  rw [List.length_range] at hlen
  unfold dataStart headerPrefix
  omega

/-- A posting whose header does not fit the first read. -/
theorem partialReads_agree_manyBuckets : headerPrefix < dataStart (containersOf manyBuckets) ∧
    ∃ T, Settles (readPostingSubset (.new (portable manyBuckets)) 0 (portable manyBuckets).length [1, 7]) (.ok T) ∧
      T.restrict [1, 7] = manyBuckets.restrict [1, 7] := by
  have hlen := length_portable_lt manyBuckets
  have hin : (MemoryFetch.new (portable manyBuckets)).InFile 0 (portable manyBuckets).length :=
    MemoryFetch.inFile_new (Nat.lt_trans hlen (by decide)) (by omega)
  obtain ⟨-, T, hT, -, hrestrict⟩ := partialReads_agree.1 _ 0 _ manyBuckets [1, 7] hin (slice_zero_length _) (by decide)
  exact ⟨dataStart_manyBuckets, T, hT, hrestrict⟩

end RoaringRange
