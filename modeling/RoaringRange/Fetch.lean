import RoaringRange.Lib.Bytes
import RoaringRange.Lib.Faults
import RoaringRange.Lib.Search
import Mathlib.Data.List.GetD
import Mathlib.Logic.Function.Basic

/-!
# Ranged reads (`fetch.rs`)

All index bytes are reached through ranged reads.  `MemoryFetch` answers them from a byte
vector; any single read may instead fail, as the schedule of an `Io` computation says.
`readCoalesced` merges near-adjacent ranges into one read each and slices the results back out:

    every non-empty range in the file → readCoalesced settles on each range's own bytes
                                                                     (settles_readCoalesced)
-/

namespace RoaringRange

open ByteString Faults Slices

/-- `fetch::FetchError`. -/
inductive FetchError where
  | outOfRange (offset len available : Nat)
  | notFound
  | transport (msg : String)
  deriving DecidableEq, Repr

def FetchError.isNotFound : FetchError → Bool
  | .notFound => true
  | _ => false

/-- `index::IndexError`. -/
inductive IndexError where
  | fetch (e : FetchError)
  | badMagic (m : Bytes)
  | badVersion (v : Nat)
  | roaring (msg : String)
  | malformed (msg : String)
  | badQuery (msg : String)
  | unsupported (msg : String)
  deriving DecidableEq, Repr

instance : Raises FetchError IndexError := ⟨IndexError.fetch⟩

/-- A character of a quoted text.  Past ASCII all stand for themselves here; Rust escapes those that do not print. -/
def debugChar (c : Char) : String :=
  match c.toNat with
  | 0 => "\\0"
  | 9 => "\\t"
  | 10 => "\\n"
  | 13 => "\\r"
  | 34 => "\\\""
  | 92 => "\\\\"
  | n => if n < 32 ∨ n = 127 then "\\u\x7b" ++ String.ofList (Nat.toDigits 16 n) ++ "\x7d" else String.ofList [c]

/-- `{:?}` of a text. -/
def debugText (s : String) : String := "\"" ++ String.ofList (s.toList.flatMap fun c => (debugChar c).toList) ++ "\""

abbrev Io (α : Type) := Faulty FetchError IndexError α

/-- One past the largest `u64` (and `usize`). -/
def u64Bound : Nat := 2 ^ 64

/-- `usize::MAX`. -/
def usizeMax : Nat := u64Bound - 1

def saturatingAdd (a b : Nat) : Nat := min (a + b) usizeMax

/-- `fetch::MemoryFetch`. -/
structure MemoryFetch where
  bytes : Bytes
  missing : Bool
  deriving DecidableEq

namespace MemoryFetch

def new (bytes : Bytes) : MemoryFetch := ⟨bytes, false⟩

/-- A fetcher for an object that does not exist. -/
def absent : MemoryFetch := ⟨[], true⟩

/-- The range `[offset, offset + len)` can be read. -/
def InFile (f : MemoryFetch) (offset len : Nat) : Prop :=
  f.missing = false ∧ offset + len < u64Bound ∧ offset + len ≤ f.bytes.length

instance (f : MemoryFetch) (offset len : Nat) : Decidable (f.InFile offset len) :=
  inferInstanceAs (Decidable (_ ∧ _))

/-- What a read of `len` bytes at `offset` answers when it reaches the bytes. -/
def answer (f : MemoryFetch) (offset len : Nat) : Except IndexError Bytes :=
  if f.missing then .error (.fetch .notFound)
  else if offset + len < u64Bound ∧ offset + len ≤ f.bytes.length then .ok (slice f.bytes offset len)
  else .error (.fetch (.outOfRange offset len f.bytes.length))

def read (f : MemoryFetch) (offset len : Nat) : Io Bytes := access (f.answer offset len)

theorem answer_of_inFile {f : MemoryFetch} {offset len : Nat} (h : f.InFile offset len) :
    f.answer offset len = .ok (slice f.bytes offset len) := by
  obtain ⟨hm, hr⟩ := h
  simp [answer, hm, hr]

theorem answer_of_missing {f : MemoryFetch} (h : f.missing = true) (offset len : Nat) :
    f.answer offset len = .error (.fetch .notFound) := by
  simp [answer, h]

theorem settles_read {f : MemoryFetch} {offset len : Nat} (h : f.InFile offset len) :
    Settles (f.read offset len) (.ok (slice f.bytes offset len)) := by
  rw [← answer_of_inFile h]
  exact Settles.access _

theorem InFile.mono {f : MemoryFetch} {offset len offset' len' : Nat} (h : f.InFile offset len)
    (he : offset' + len' ≤ offset + len) : f.InFile offset' len' := by
  obtain ⟨hm, hb, hl⟩ := h
  exact ⟨hm, by omega, by omega⟩

theorem inFile_new {b : Bytes} {offset len : Nat} (hb : b.length < u64Bound)
    (h : offset + len ≤ b.length) : (new b).InFile offset len :=
  ⟨rfl, by omega, h⟩

end MemoryFetch

/-! ## Coalesced reads -/

/-- `fetch::COALESCE_GAP`. -/
def coalesceGap : Nat := 16 * 1024

/-- The spans planned so far and, per range index, the span that holds it. -/
structure SpanPlan where
  spans : List (Nat × Nat)
  spanOf : Nat → Nat

/-- Places range `i`: into the last span when it starts within `gap` of its end. -/
def placeRange (ranges : List (Nat × Nat)) (gap : Nat) (st : SpanPlan) (i : Nat) :
    Except IndexError SpanPlan :=
  let r := ranges.getD i (0, 0)
  if r.2 = 0 then .ok st
  else if u64Bound ≤ r.1 + r.2 then .error (.fetch (.outOfRange r.1 r.2 usizeMax))
  else
    let spans :=
      match st.spans.getLast? with
      | some last =>
        if r.1 ≤ saturatingAdd last.2 gap then
          if last.2 < r.1 + r.2 then st.spans.set (st.spans.length - 1) (last.1, r.1 + r.2)
          else st.spans
        else st.spans ++ [(r.1, r.1 + r.2)]
      | none => st.spans ++ [(r.1, r.1 + r.2)]
    .ok ⟨spans, Function.update st.spanOf i (spans.length - 1)⟩

def planSpans (ranges : List (Nat × Nat)) (gap : Nat) (st : SpanPlan) :
    List Nat → Except IndexError SpanPlan
  | [] => .ok st
  | i :: order => do
    let st' ← placeRange ranges gap st i
    planSpans ranges gap st' order

/-- The bytes of range `i`, cut out of the span that was read for it. -/
def sliceBack (plan : SpanPlan) (datas : List Bytes) (r : (Nat × Nat) × Nat) :
    Except IndexError Bytes :=
  let off := r.1.1
  let len := r.1.2
  if len = 0 then .ok []
  else
    let s := (plan.spans.getD (plan.spanOf r.2) (0, 0)).1
    let data := datas.getD (plan.spanOf r.2) []
    if off - s + len ≤ data.length then .ok (slice data (off - s) len)
    else .error (.fetch (.outOfRange off len usizeMax))

/-- `fetch::read_coalesced`. -/
def readCoalesced (f : MemoryFetch) (ranges : List (Nat × Nat)) (gap : Nat) : Io (List Bytes) := do
  let order := sortByKey (fun i => (ranges.getD i (0, 0)).1) (List.range ranges.length)
  let plan ← ofOutcome (planSpans ranges gap ⟨[], fun _ => usizeMax⟩ order)
  let datas ← tryAll (plan.spans.map fun sp => f.read sp.1 (sp.2 - sp.1))
  ofOutcome (collect (ranges.zipIdx.map (sliceBack plan datas)))

section Coalesced

variable {f : MemoryFetch} {ranges : List (Nat × Nat)} {gap : Nat}

/-- Every non-empty range of the list can be read. -/
def Readable (f : MemoryFetch) (ranges : List (Nat × Nat)) : Prop :=
  ∀ r ∈ ranges, r.2 ≠ 0 → f.InFile r.1 r.2

/-- Range `i`, when it is not empty, lies inside the span it was placed in. -/
def SpanPlan.Holds (plan : SpanPlan) (ranges : List (Nat × Nat)) (i : Nat) : Prop :=
  (ranges.getD i (0, 0)).2 ≠ 0 → ∃ sp, plan.spans[plan.spanOf i]? = some sp ∧
    sp.1 ≤ (ranges.getD i (0, 0)).1 ∧
    (ranges.getD i (0, 0)).1 + (ranges.getD i (0, 0)).2 ≤ sp.2

/-- The plan after the ranges `placed`, before the ranges `todo`: the placed ranges are held, and no span starts
after a range still to place. -/
structure SpanPlan.Sound (ranges : List (Nat × Nat)) (plan : SpanPlan) (placed todo : List Nat) : Prop where
  holds : ∀ i ∈ placed, plan.Holds ranges i
  ordered : ∀ sp ∈ plan.spans, sp.1 ≤ sp.2
  before : ∀ sp ∈ plan.spans, ∀ j ∈ todo, sp.1 ≤ (ranges.getD j (0, 0)).1

/-- The plan after the ranges `placed`, before the ranges `todo`: the placed ranges are held, the
spans can be read, and none starts after a range still to place. -/
structure SpanPlan.Good (f : MemoryFetch) (ranges : List (Nat × Nat)) (plan : SpanPlan)
    (placed todo : List Nat) : Prop where
  holds : ∀ i ∈ placed, plan.Holds ranges i
  inFile : ∀ sp ∈ plan.spans, sp.1 ≤ sp.2 ∧ f.InFile sp.1 (sp.2 - sp.1)
  before : ∀ sp ∈ plan.spans, ∀ j ∈ todo, sp.1 ≤ (ranges.getD j (0, 0)).1

theorem SpanPlan.Good.sound {plan : SpanPlan} {placed todo : List Nat} (h : plan.Good f ranges placed todo) :
    plan.Sound ranges placed todo := ⟨h.holds, fun sp hsp => (h.inFile sp hsp).1, h.before⟩

theorem getD_range_inFile (hr : Readable f ranges) {i : Nat} (h : (ranges.getD i (0, 0)).2 ≠ 0) :
    f.InFile (ranges.getD i (0, 0)).1 (ranges.getD i (0, 0)).2 := by
  by_cases hi : i < ranges.length
  · rw [List.getD_eq_getElem _ _ hi] at h ⊢
    exact hr _ (List.getElem_mem hi) h
  · rw [List.getD_eq_default _ _ (by omega)] at h
    exact absurd rfl h

/-- Growing the last span, or adding one, keeps every range held. -/
theorem SpanPlan.Holds.grow {plan : SpanPlan} {i j k : Nat} {spans : List (Nat × Nat)}
    (h : plan.Holds ranges j) (hij : j ≠ i)
    (hg : ∀ (n : Nat) (sp : Nat × Nat), plan.spans[n]? = some sp → ∃ sp' : Nat × Nat, spans[n]? = some sp' ∧ sp'.1 ≤ sp.1 ∧ sp.2 ≤ sp'.2) :
    (SpanPlan.mk spans (Function.update plan.spanOf i k)).Holds ranges j := by
  intro hne
  obtain ⟨sp, hsp, hlo, hhi⟩ := h hne
  obtain ⟨sp', hsp', hlo', hhi'⟩ := hg _ _ hsp
  refine ⟨sp', ?_, by omega, by omega⟩
  simp only [Function.update_of_ne hij]
  exact hsp'

/-- What a range does to the plan: it is empty, or ends in 64 bits and is held by a new last span, the last one, or
the last one grown to its end. -/
theorem placeRange_ok {plan plan' : SpanPlan} {i : Nat} (h : placeRange ranges gap plan i = .ok plan') :
    ((ranges.getD i (0, 0)).2 = 0 ∧ plan' = plan) ∨
    ((ranges.getD i (0, 0)).1 + (ranges.getD i (0, 0)).2 < u64Bound ∧
      ∃ spans, plan' = ⟨spans, Function.update plan.spanOf i (spans.length - 1)⟩ ∧
        (spans = plan.spans ++ [((ranges.getD i (0, 0)).1, (ranges.getD i (0, 0)).1 + (ranges.getD i (0, 0)).2)] ∨
          ∃ last, plan.spans.getLast? = some last ∧
            ((spans = plan.spans ∧ (ranges.getD i (0, 0)).1 + (ranges.getD i (0, 0)).2 ≤ last.2) ∨
              (spans = plan.spans.set (plan.spans.length - 1)
                  (last.1, (ranges.getD i (0, 0)).1 + (ranges.getD i (0, 0)).2) ∧
                last.2 < (ranges.getD i (0, 0)).1 + (ranges.getD i (0, 0)).2)))) := by
  unfold placeRange at h
  simp only at h
  generalize ranges.getD i (0, 0) = r at h ⊢
  split at h
  · next hlen => exact Or.inl ⟨hlen, (Except.ok.inj h).symm⟩
  · split at h
    · cases h
    · next hfits =>
      refine Or.inr ⟨Nat.not_le.mp hfits, _, (Except.ok.inj h).symm, ?_⟩
      cases hlast : plan.spans.getLast? with
      | none => exact Or.inl rfl
      | some last =>
        simp only
        split
        · right
          refine ⟨last, rfl, ?_⟩
          split
          · next hgrow => exact Or.inr ⟨rfl, hgrow⟩
          · next hend => exact Or.inl ⟨rfl, Nat.not_lt.mp hend⟩
        · exact Or.inl rfl

theorem placeRange_sound {plan plan' : SpanPlan} {placed todo : List Nat} {i : Nat}
    (hg : plan.Sound ranges placed (i :: todo)) (hi : i ∉ placed)
    (hs : ∀ j ∈ todo, (ranges.getD i (0, 0)).1 ≤ (ranges.getD j (0, 0)).1)
    (h : placeRange ranges gap plan i = .ok plan') : plan'.Sound ranges (placed ++ [i]) todo := by
  have hplaced : ∀ j ∈ placed, j ≠ i := fun j hj h => hi (h ▸ hj)
  -- the range placed is held, if those before it still are
  have hholds : ∀ {p : SpanPlan}, (∀ j ∈ placed, p.Holds ranges j) → p.Holds ranges i →
      ∀ j ∈ placed ++ [i], p.Holds ranges j := by
    intro p hold hnew j hj
    rcases List.mem_append.mp hj with hj | hj
    · exact hold j hj
    · obtain rfl := List.mem_singleton.mp hj
      exact hnew
  rcases placeRange_ok h with ⟨hlen, rfl⟩ | ⟨-, spans, rfl, hspans⟩
  · exact ⟨hholds hg.holds fun hne => absurd hlen hne, hg.ordered, fun sp hsp j hj => hg.before sp hsp j (by simp [hj])⟩
  rcases hspans with rfl | ⟨last, hlast, hspans⟩
  · refine ⟨hholds (fun j hj => ?_) fun _ => ?_, fun sp hsp => ?_, fun sp hsp j hj => ?_⟩
    · refine SpanPlan.Holds.grow (hg.holds j hj) (hplaced j hj) fun n sp hn => ⟨sp, ?_, Nat.le_refl _, Nat.le_refl _⟩
      rw [List.getElem?_append_left (List.getElem?_eq_some_iff.mp hn).1, hn]
    · exact ⟨((ranges.getD i (0, 0)).1, (ranges.getD i (0, 0)).1 + (ranges.getD i (0, 0)).2), by simp, Nat.le_refl _,
        Nat.le_refl _⟩
    · rcases List.mem_append.mp hsp with hsp | hsp
      · exact hg.ordered sp hsp
      · obtain rfl := List.mem_singleton.mp hsp
        exact Nat.le_add_right _ _
    · rcases List.mem_append.mp hsp with hsp | hsp
      · exact hg.before sp hsp j (by simp [hj])
      · obtain rfl := List.mem_singleton.mp hsp
        exact hs j hj
  · have hmem : last ∈ plan.spans := List.mem_of_getLast? hlast
    have hidx : plan.spans[plan.spans.length - 1]? = some last := by rw [← List.getLast?_eq_getElem?, hlast]
    have hpos : plan.spans.length - 1 < plan.spans.length := (List.getElem?_eq_some_iff.mp hidx).1
    have hstart : last.1 ≤ (ranges.getD i (0, 0)).1 := hg.before last hmem i List.mem_cons_self
    rcases hspans with ⟨rfl, hend⟩ | ⟨rfl, hend⟩
    · refine ⟨hholds (fun j hj => ?_) fun _ => ?_, hg.ordered, fun sp hsp j hj => hg.before sp hsp j (by simp [hj])⟩
      · exact SpanPlan.Holds.grow (hg.holds j hj) (hplaced j hj) fun n sp hn => ⟨sp, hn, Nat.le_refl _, Nat.le_refl _⟩
      · exact ⟨last, by simp [hidx], hstart, hend⟩
    · refine ⟨hholds (fun j hj => ?_) fun _ => ?_, fun sp hsp => ?_, fun sp hsp j hj => ?_⟩
      · refine SpanPlan.Holds.grow (hg.holds j hj) (hplaced j hj) fun n sp hn => ?_
        by_cases hnl : n = plan.spans.length - 1
        · subst hnl
          obtain rfl : last = sp := by
            rw [hidx] at hn
            exact Option.some.inj hn
          exact ⟨_, List.getElem?_set_self hpos, Nat.le_refl _, Nat.le_of_lt hend⟩
        · exact ⟨sp, by rw [List.getElem?_set_ne (Ne.symm hnl), hn], Nat.le_refl _, Nat.le_refl _⟩
      · exact ⟨(last.1, (ranges.getD i (0, 0)).1 + (ranges.getD i (0, 0)).2), by simp [hpos], hstart, Nat.le_refl _⟩
      · rcases List.mem_or_eq_of_mem_set hsp with hsp | rfl
        · exact hg.ordered sp hsp
        · exact Nat.le_trans hstart (Nat.le_add_right _ _)
      · rcases List.mem_or_eq_of_mem_set hsp with hsp | rfl
        · exact hg.before sp hsp j (by simp [hj])
        · exact Nat.le_trans hstart (hs j hj)

theorem placeRange_good {plan : SpanPlan} {placed todo : List Nat} {i : Nat}
    (hr : Readable f ranges) (hg : plan.Good f ranges placed (i :: todo)) (hi : i ∉ placed)
    (hs : ∀ j ∈ todo, (ranges.getD i (0, 0)).1 ≤ (ranges.getD j (0, 0)).1) :
    ∃ plan', placeRange ranges gap plan i = .ok plan' ∧
      plan'.Good f ranges (placed ++ [i]) todo := by
  have hok : ∃ plan', placeRange ranges gap plan i = .ok plan' := by
    unfold placeRange
    simp only
    split
    · exact ⟨plan, rfl⟩
    · next hlen =>
      obtain ⟨-, hbound, -⟩ := getD_range_inFile hr hlen
      rw [if_neg (Nat.not_le.mpr hbound)]
      exact ⟨_, rfl⟩
  obtain ⟨plan', hplan⟩ := hok
  have hsound := placeRange_sound hg.sound hi hs hplan
  refine ⟨plan', hplan, hsound.holds, fun sp hsp => ⟨hsound.ordered sp hsp, ?_⟩, hsound.before⟩
  rcases placeRange_ok hplan with ⟨-, rfl⟩ | ⟨-, spans, rfl, hspans⟩
  · exact (hg.inFile sp hsp).2
  by_cases hlen : (ranges.getD i (0, 0)).2 = 0
  · -- an empty range is not placed
    unfold placeRange at hplan
    simp only [hlen, if_true] at hplan
    have hsame := congrArg SpanPlan.spans (Except.ok.inj hplan)
    simp only at hsame hsp
    rw [← hsame] at hsp
    exact (hg.inFile sp hsp).2
  obtain ⟨hmiss, hbound, hfile⟩ := getD_range_inFile hr hlen
  rcases hspans with rfl | ⟨last, hlast, hspans⟩
  · rcases List.mem_append.mp hsp with hsp | hsp
    · exact (hg.inFile sp hsp).2
    · obtain rfl := List.mem_singleton.mp hsp
      rw [Nat.add_sub_cancel_left]
      exact ⟨hmiss, hbound, hfile⟩
  · have hstart : last.1 ≤ (ranges.getD i (0, 0)).1 := hg.before last (List.mem_of_getLast? hlast) i List.mem_cons_self
    rcases hspans with ⟨rfl, -⟩ | ⟨rfl, -⟩
    · exact (hg.inFile sp hsp).2
    · rcases List.mem_or_eq_of_mem_set hsp with hsp | rfl
      · exact (hg.inFile sp hsp).2
      · exact ⟨hmiss, by simp only; omega, by simp only; omega⟩

theorem planSpans_good (hr : Readable f ranges) :
    ∀ (todo placed : List Nat) (plan : SpanPlan), plan.Good f ranges placed todo →
      (placed ++ todo).Nodup →
      todo.Pairwise (fun i j => (ranges.getD i (0, 0)).1 ≤ (ranges.getD j (0, 0)).1) →
      ∃ plan', planSpans ranges gap plan todo = .ok plan' ∧ plan'.Good f ranges (placed ++ todo) []
  | [], placed, plan, hg, _, _ => ⟨plan, rfl, by simpa using hg⟩
  | i :: todo, placed, plan, hg, hnd, hs => by
    rw [List.pairwise_cons] at hs
    have hi : i ∉ placed := fun h => (List.nodup_append.mp hnd).2.2 i h i (by simp) rfl
    obtain ⟨plan', hplan', hg'⟩ := @placeRange_good _ _ gap _ _ _ _ hr hg hi hs.1
    obtain ⟨plan'', hplan'', hg''⟩ := planSpans_good hr todo (placed ++ [i]) plan' hg'
      (by simpa using hnd) hs.2
    refine ⟨plan'', ?_, by simpa using hg''⟩
    rw [planSpans, hplan']
    exact hplan''

/-- A plan of any ranges: each is held, and ends in 64 bits unless it is empty. -/
theorem planSpans_sound : ∀ (todo placed : List Nat) (plan plan' : SpanPlan), plan.Sound ranges placed todo →
    (placed ++ todo).Nodup →
    todo.Pairwise (fun i j => (ranges.getD i (0, 0)).1 ≤ (ranges.getD j (0, 0)).1) →
    planSpans ranges gap plan todo = .ok plan' → plan'.Sound ranges (placed ++ todo) [] ∧
      ∀ i ∈ todo, (ranges.getD i (0, 0)).2 ≠ 0 → (ranges.getD i (0, 0)).1 + (ranges.getD i (0, 0)).2 < u64Bound
  | [], placed, plan, plan', hg, _, _, h => by
    obtain rfl := Except.ok.inj h
    exact ⟨by simpa using hg, fun i hi => absurd hi List.not_mem_nil⟩
  | i :: todo, placed, plan, plan', hg, hnd, hs, h => by
    rw [List.pairwise_cons] at hs
    have hi : i ∉ placed := fun h => (List.nodup_append.mp hnd).2.2 i h i (by simp) rfl
    rw [planSpans] at h
    cases hplace : placeRange ranges gap plan i with
    | error e =>
      rw [hplace] at h
      cases h
    | ok plan1 =>
      rw [hplace] at h
      have hg1 := placeRange_sound hg hi hs.1 hplace
      obtain ⟨hg', hbounds⟩ := planSpans_sound todo (placed ++ [i]) plan1 plan' hg1 (by simpa using hnd) hs.2 h
      refine ⟨by simpa using hg', fun j hj hne => ?_⟩
      rcases List.mem_cons.mp hj with rfl | hj
      · rcases placeRange_ok hplace with ⟨hlen, -⟩ | ⟨hbound, -⟩
        · exact absurd hlen hne
        · exact hbound
      · exact hbounds j hj hne

/-- Each range gets its own bytes back from the span that holds it. -/
theorem sliceBack_eq {plan : SpanPlan} {placed : List Nat} (hg : plan.Good f ranges placed [])
    {r : Nat × Nat} {i : Nat} (hi : i ∈ placed) (hri : ranges[i]? = some r) :
    sliceBack plan (plan.spans.map fun sp => slice f.bytes sp.1 (sp.2 - sp.1)) (r, i) =
      .ok (slice f.bytes r.1 r.2) := by
  have hgetD : ranges.getD i (0, 0) = r := by simp [List.getD_eq_getElem?_getD, hri]
  unfold sliceBack
  simp only
  split
  · next h => rw [h, slice_len_zero]
  · next h =>
    obtain ⟨sp, hsp, hlo, hhi⟩ := hg.holds i hi (by rwa [hgetD])
    rw [hgetD] at hlo hhi
    obtain ⟨hle, -, -, hfile⟩ := hg.inFile sp (List.mem_of_getElem? hsp)
    have hdata : (plan.spans.map fun sp => slice f.bytes sp.1 (sp.2 - sp.1)).getD (plan.spanOf i) [] =
        slice f.bytes sp.1 (sp.2 - sp.1) := by
      simp [List.getD_eq_getElem?_getD, hsp]
    have hstart : (plan.spans.getD (plan.spanOf i) (0, 0)).1 = sp.1 := by
      simp [List.getD_eq_getElem?_getD, hsp]
    rw [hdata, hstart, length_slice _ _ _ (by omega), if_pos (by omega),
      slice_slice _ _ _ _ _ (by omega)]
    congr 2
    omega

/-- Cutting the ranges out of the spans of their plan. -/
theorem collect_sliceBack {plan : SpanPlan} {placed : List Nat} (hg : plan.Good f ranges placed [])
    (hall : ∀ i < ranges.length, i ∈ placed) :
    collect (ranges.zipIdx.map (sliceBack plan (plan.spans.map fun sp => slice f.bytes sp.1 (sp.2 - sp.1)))) =
      .ok (ranges.map fun r => slice f.bytes r.1 r.2) := by
  have hfst : ranges = ranges.zipIdx.map Prod.fst := by simp
  conv => rhs; rw [hfst, List.map_map]
  refine collect_map_ok fun ri hri => ?_
  have hget : ranges[ri.2]? = some ri.1 := List.mem_zipIdx_iff_getElem?.mp hri
  exact sliceBack_eq hg (hall _ (List.getElem?_eq_some_iff.mp hget).1) hget

/-- **Each range gets its own bytes**, however the reads were merged. -/
theorem settles_readCoalesced (hr : Readable f ranges) :
    Settles (readCoalesced f ranges gap) (.ok (ranges.map fun r => slice f.bytes r.1 r.2)) := by
  have hperm := sortByKey_perm (fun i => (ranges.getD i (0, 0)).1) (List.range ranges.length)
  obtain ⟨plan, hplan, hg⟩ := @planSpans_good _ _ gap hr
    (sortByKey (fun i => (ranges.getD i (0, 0)).1) (List.range ranges.length)) []
    ⟨[], fun _ => usizeMax⟩ ⟨by simp, by simp, by simp⟩
    (by simpa using hperm.nodup_iff.mpr List.nodup_range) (sortByKey_sorted _ _)
  rw [List.nil_append] at hg
  refine Settles.bind (a := plan) ?_ (Settles.bind
    (a := plan.spans.map fun sp => slice f.bytes sp.1 (sp.2 - sp.1)) ?_ ?_)
  · rw [hplan]
    exact Settles.ofOutcome _
  · exact settles_tryAll_map fun sp hsp => MemoryFetch.settles_read (hg.inFile sp hsp).2
  · rw [collect_sliceBack hg fun i hi => by simpa using hi]
    exact Settles.ofOutcome _

end Coalesced

end RoaringRange
