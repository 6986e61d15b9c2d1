import RoaringRange.Lib.Bytes

/-!
# Tag-length-value records

A region of `[tag u8][len u32][payload]` records, one after the other.  `find` scans it for the first
record of a tag and fails on a record that runs past the end.

    find of a region of written records is the first of them with the tag           (find_region)
-/

namespace Tlv

open ByteString

/-- One record. -/
def record (tag : Nat) (payload : Bytes) : Bytes := le 1 tag ++ (le 4 payload.length ++ payload)

/-- The records of a region, one after the other. -/
def region (rs : List (Nat × Bytes)) : Bytes := rs.flatMap fun r => record r.1 r.2

section

variable {ε : Type}

/-- The scan from `off`; every record takes five bytes or more, so the region's length is enough fuel. -/
def findFrom (bad : ε) (b : Bytes) (tag : Nat) : Nat → Nat → Except ε (Option Bytes)
  | 0, _ => .ok none
  | fuel + 1, off =>
    if off + 5 ≤ b.length then
      let len := getLe 4 b (off + 1)
      if b.length < off + 5 + len then .error bad
      else if getLe 1 b off = tag then .ok (some (slice b (off + 5) len))
      else findFrom bad b tag fuel (off + 5 + len)
    else .ok none

def find (bad : ε) (b : Bytes) (tag : Nat) : Except ε (Option Bytes) := findFrom bad b tag b.length 0

@[simp] theorem length_record (tag : Nat) (payload : Bytes) : (record tag payload).length = 5 + payload.length := by
  simp only [record, List.length_append, length_le]
  omega

theorem length_le_region (rs : List (Nat × Bytes)) : rs.length ≤ (region rs).length := by
  induction rs with
  | nil => exact Nat.zero_le _
  | cons r rs ih =>
    show rs.length + 1 ≤ (record r.1 r.2 ++ region rs).length
    rw [List.length_append, length_record]
    omega

/-- A scan that starts where the records `rs` do. -/
theorem findFrom_region (bad : ε) {tag : Nat} {rs : List (Nat × Bytes)}
    (hr : ∀ r ∈ rs, r.1 < 256 ∧ r.2.length < 2 ^ 32) (pre : Bytes) {fuel : Nat} (hf : rs.length ≤ fuel) :
    findFrom bad (pre ++ region rs) tag fuel pre.length =
      .ok ((rs.find? fun r => r.1 = tag).map Prod.snd) := by
  induction rs generalizing pre fuel with
  | nil =>
    cases fuel with
    | zero => rfl
    | succ fuel =>
      have hend : ¬ pre.length + 5 ≤ (pre ++ region []).length := by simp [region]
      rw [findFrom, if_neg hend]
      rfl
  | cons r rs ih =>
    obtain ⟨t, payload⟩ := r
    obtain ⟨ht, hp⟩ := hr (t, payload) List.mem_cons_self
    simp only at ht hp
    cases fuel with
    | zero => simp at hf
    | succ fuel =>
      have hcons : region ((t, payload) :: rs) = record t payload ++ region rs := rfl
      have hlen : (pre ++ region ((t, payload) :: rs)).length =
          pre.length + (5 + payload.length) + (region rs).length := by
        rw [hcons, List.length_append, List.length_append, length_record]
        omega
      have htag : getLe 1 (pre ++ region ((t, payload) :: rs)) pre.length = t := by
        rw [getLe_append_right _ _ _ _ (Nat.le_refl _), Nat.sub_self, hcons, record, List.append_assoc]
        exact getLe_field (by omega) _
      have hsize : getLe 4 (pre ++ region ((t, payload) :: rs)) (pre.length + 1) = payload.length := by
        rw [getLe_append_right _ _ _ _ (by omega), Nat.add_sub_cancel_left, hcons, record]
        simp only [List.append_assoc]
        exact (getLe_le_skip 4 1 _ _ 0).trans (getLe_field (by omega) _)
      have hbody : slice (pre ++ region ((t, payload) :: rs)) (pre.length + 5) payload.length = payload := by
        rw [slice_append_right _ _ _ _ (by omega), Nat.add_sub_cancel_left, hcons, record]
        have := slice_middle (le 1 t ++ le 4 payload.length) payload (region rs) 5 payload.length (by simp) rfl
        simpa only [List.append_assoc] using this
      rw [findFrom, if_pos (by omega)]
      simp only [hsize, htag, hbody]
      rw [if_neg (by omega)]
      by_cases htt : t = tag
      · rw [if_pos htt]
        simp [htt]
      · rw [if_neg htt]
        have hoff : pre.length + 5 + payload.length = (pre ++ record t payload).length := by
          rw [List.length_append, length_record]
          omega
        have hfuel : rs.length ≤ fuel := by
          rw [List.length_cons] at hf
          omega
        have := ih (fun r hr' => hr r (List.mem_cons_of_mem _ hr')) (pre ++ record t payload) hfuel
        rw [hcons, ← List.append_assoc, hoff, this]
        simp [htt]

/-- **Written records are found**: the first one with the tag. -/
theorem find_region (bad : ε) {tag : Nat} {rs : List (Nat × Bytes)}
    (hr : ∀ r ∈ rs, r.1 < 256 ∧ r.2.length < 2 ^ 32) :
    find bad (region rs) tag = .ok ((rs.find? fun r => r.1 = tag).map Prod.snd) := by
  have := @findFrom_region _ bad tag _ hr [] _ (length_le_region rs)
  simpa [find] using this

end

end Tlv
