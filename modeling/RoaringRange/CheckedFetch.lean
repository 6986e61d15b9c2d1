import RoaringRange.Fetch
import RoaringRange.Lib.Checked

/-!
# Ranged reads of code that may trap

The readers of untrusted bytes are modelled a second time with every sum, slice and index an operation that may
trap, over the same `MemoryFetch`.  A read answers with exactly the bytes asked for, or fails; a number is read out
of a buffer that must hold it.
-/

namespace RoaringRange

open ByteString Faults Checked

/-- Ranged reads of code that may trap. -/
abbrev CheckedIo (α : Type) := Faulty FetchError (Abort IndexError) α

/-- A read answers with exactly the bytes asked for. -/
theorem MemoryFetch.length_of_answer (f : MemoryFetch) {offset len : Nat} {b : Bytes} (h : f.answer offset len = .ok b) :
    b.length = len := by
  unfold MemoryFetch.answer at h
  split at h
  · cases h
  · split at h
    · next hin =>
      rw [← Except.ok.inj h]
      exact length_slice _ _ _ hin.2
    · cases h

def MemoryFetch.readChecked (f : MemoryFetch) (offset len : Nat) : CheckedIo Bytes :=
  access (lift (f.answer offset len))

/-- `isize::MAX`, the most bytes of one allocation. -/
def isizeMax : Nat := 2 ^ 63 - 1

/-! ## Numbers in a buffer -/

/-- A range of bytes that lies in the buffer. -/
theorem range_slice {buf : Bytes} {off len hi : Nat} (hhi : hi = off + len) (h : hi ≤ buf.length) :
    (range buf off hi : Except (Abort IndexError) Bytes) = .ok (slice buf off len) := by
  rw [range_ok (by omega) h, hhi, Nat.add_sub_cancel_left]
  rfl

/-- `read_u32` and `read_u64`: the slice must be in the buffer. -/
def readLe (w : Nat) (buf : Bytes) (off : Nat) : Except (Abort IndexError) Nat := do
  let hi ← add u64Bound off w
  let b ← range buf off hi
  .ok (ofLe b)

theorem readLe_ok {w : Nat} {buf : Bytes} {off : Nat} (h : off + w ≤ buf.length) (hb : off + w < u64Bound) :
    readLe w buf off = .ok (getLe w buf off) := by
  unfold readLe
  rw [add_ok hb, ok_bind, range_ok (by omega) h, ok_bind, Nat.add_sub_cancel_left]
  rfl

theorem safe_readLe {w : Nat} {buf : Bytes} {off : Nat} (h : off + w ≤ buf.length) (hb : off + w < u64Bound) :
    Safe (fun n => n < 256 ^ w) (readLe w buf off) := Safe.of_eq (readLe_ok h hb) (getLe_lt w buf off)

end RoaringRange
