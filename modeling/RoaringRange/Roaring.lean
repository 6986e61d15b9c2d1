import RoaringRange.Container

/-!
# The `roaring` crate, as the reader relies on it

`Roaring` is the crate's reader and writer with what this crate depends on: the body of a
container is a function of the low halves it holds (at most 8 KB), the portable layout of a set is
read as that set, and what is written is read back.  A written bitmap without run containers is
the portable layout; one with run containers carries another cookie.

`Represents b S`: the bytes `b` are a posting of the set `S`.  Of the portable layout any choice of
buckets can be cut out (`deserialize_assemble_filter`).
-/

namespace RoaringRange

open ByteString

/-- The containers of a bitmap in key order, `body` giving the body of each. -/
def containersWith (body : List Nat → Bytes) (S : Bitmap) : List FramedContainer :=
  (distinctHighKeys S).map fun k => ⟨k, (S.lows k).length, body (S.lows k)⟩

section Layout

variable {body : List Nat → Bytes}
  (hbody : ∀ lows : List Nat, lows.length ≤ bucketSize → (body lows).length ≤ 8192)

include hbody

theorem bodyBytes_containersWith_le (S : Bitmap) :
    bodyBytes (containersWith body S) ≤ bucketSize * 8192 := by
  have h : ∀ keys : List Nat, bodyBytes (keys.map fun k =>
      (⟨k, (S.lows k).length, body (S.lows k)⟩ : FramedContainer)) ≤ keys.length * 8192 := by
    intro keys
    induction keys with
    | nil => simp
    | cons k ks ih =>
      have hk := hbody (S.lows k) (S.length_lows_le k)
      simp only [List.map_cons, bodyBytes_cons, List.length_cons]
      omega
  exact Nat.le_trans (h _) (Nat.mul_le_mul_right _ (length_distinctHighKeys_le S))

theorem length_assemble_containersWith_lt (S : Bitmap) :
    (assemble (containersWith body S)).length < 2 ^ 30 := by
  have h1 := length_distinctHighKeys_le S
  have h2 := bodyBytes_containersWith_le hbody S
  have h3 : (containersWith body S).length = (distinctHighKeys S).length := by
    simp [containersWith]
  rw [length_assemble, dataStart, h3]
  simp only [bucketSize] at h1 h2
  omega

theorem encodable_containersWith (S : Bitmap) : Encodable (containersWith body S) where
  key_lt c hc := by
    obtain ⟨k, hk, rfl⟩ := List.mem_map.mp hc
    exact lt_of_mem_distinctHighKeys hk
  card_pos c hc := by
    obtain ⟨k, hk, rfl⟩ := List.mem_map.mp hc
    have := List.length_pos_iff.mpr (Bitmap.lows_ne_nil hk)
    exact ⟨this, S.length_lows_le k⟩
  length_lt := Nat.lt_trans (length_assemble_containersWith_lt hbody S) (by decide)

end Layout

class Roaring where
  /-- `RoaringBitmap::deserialize_from`; an error is its message. -/
  deserialize : Bytes → Except String Bitmap
  /-- `RoaringBitmap::serialize_into`. -/
  serialize : Bitmap → Bytes
  body : List Nat → Bytes
  length_body_le : ∀ lows : List Nat, lows.length ≤ bucketSize → (body lows).length ≤ 8192
  deserialize_portable : ∀ S, deserialize (assemble (containersWith body S)) = .ok S
  deserialize_serialize : ∀ S, deserialize (serialize S) = .ok S
  serialize_portable : ∀ S, getLe 4 (serialize S) 0 = noRunContainerCookie →
    serialize S = assemble (containersWith body S)
  length_serialize_lt : ∀ S, (serialize S).length < 2 ^ 30
  /-- Even the empty set has its cookie. -/
  length_serialize_pos : ∀ S, 0 < (serialize S).length

export Roaring (serialize)

section

variable [Roaring]

def containersOf (S : Bitmap) : List FramedContainer := containersWith Roaring.body S

/-- The portable layout of `S` without run containers. -/
def portable (S : Bitmap) : Bytes := assemble (containersOf S)

/-- The bytes are read as `S`, and they are its portable layout unless their cookie says otherwise. -/
structure Represents (b : Bytes) (S : Bitmap) : Prop where
  reads : Roaring.deserialize b = .ok S
  layout : getLe 4 b 0 = noRunContainerCookie → b = portable S

theorem represents_serialize (S : Bitmap) : Represents (serialize S) S :=
  ⟨Roaring.deserialize_serialize S, Roaring.serialize_portable S⟩

theorem represents_portable (S : Bitmap) : Represents (portable S) S :=
  ⟨Roaring.deserialize_portable S, fun _ => rfl⟩

/-! ## The containers of a set -/

theorem length_portable_lt (S : Bitmap) : (portable S).length < 2 ^ 30 :=
  length_assemble_containersWith_lt Roaring.length_body_le S

theorem encodable_containersOf (S : Bitmap) : Encodable (containersOf S) :=
  encodable_containersWith Roaring.length_body_le S

theorem dataStart_le_length (S : Bitmap) : dataStart (containersOf S) ≤ (portable S).length := by
  rw [portable, length_assemble]
  omega

theorem containersOf_restrict (S : Bitmap) (keys : List Nat) :
    containersOf (S.restrict keys) = (containersOf S).filter (fun c => decide (c.key ∈ keys)) := by
  simp only [containersOf, containersWith, Bitmap.distinctHighKeys_restrict, List.filter_map]
  refine List.map_congr_left fun k hk => ?_
  have hk' : k ∈ keys := of_decide_eq_true (List.mem_filter.mp hk).2
  simp only [Bitmap.lows_restrict hk']

/-- Re-framing the containers of some buckets gives the docs of those buckets. -/
theorem deserialize_assemble_filter (S : Bitmap) (keys : List Nat) :
    Roaring.deserialize (assemble ((containersOf S).filter (fun c => decide (c.key ∈ keys)))) =
      .ok (S.restrict keys) := by
  rw [← containersOf_restrict]
  exact Roaring.deserialize_portable _

end

end RoaringRange
