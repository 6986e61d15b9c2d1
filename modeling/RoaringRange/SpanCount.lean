import RoaringRange.Fetch

/-!
# What a coalesced read costs (`fetch.rs`)

`coalescedSpanCount` counts, without a read, the spans that `readCoalesced` would fetch.  Whatever the ranges, their
order and the gap,

    readCoalesced returns ↔ every non-empty range is in the file, and no read of a span failed
    what it returns is each range's own bytes
    every non-empty range ends before 2^64 → it makes coalescedSpanCount reads, whichever of them fail
                                                                                            (readCoalesced_exact)
-/

namespace RoaringRange

open ByteString Faults Slices

/-- One turn of the loop of `coalesced_span_count`, for the range `[r.1, r.2)`. -/
def countSpan (gap : Nat) (st : Nat × Option Nat) (r : Nat × Nat) : Nat × Option Nat :=
  match st.2 with
  | some e =>
    if r.1 ≤ saturatingAdd e gap then (st.1, some (max r.2 e))
    else (st.1 + 1, some r.2)
  | none => (st.1 + 1, some r.2)

/-- `fetch::coalesced_span_count`. -/
def coalescedSpanCount (ranges : List (Nat × Nat)) (gap : Nat) : Nat :=
  let offsets := (ranges.filter fun r => decide (r.2 ≠ 0)).map fun r => (r.1, saturatingAdd r.1 r.2)
  ((sortByKey Prod.fst offsets).foldl (countSpan gap) (0, none)).1

/-- Every non-empty range ends before `2^64`. -/
def Addressable (ranges : List (Nat × Nat)) : Prop := ∀ r ∈ ranges, r.2 ≠ 0 → r.1 + r.2 < u64Bound

section Counting

variable {f : MemoryFetch} {ranges : List (Nat × Nat)} {gap : Nat}

/-! ## The plan and the count -/

/-- What the count knows of a plan: its spans' number, and the last one's end. -/
def SpanPlan.counted (plan : SpanPlan) : Nat × Option Nat := (plan.spans.length, plan.spans.getLast?.map Prod.snd)

theorem placeRange_counted {plan plan' : SpanPlan} {i : Nat} (hlen : (ranges.getD i (0, 0)).2 ≠ 0)
    (h : placeRange ranges gap plan i = .ok plan') :
    plan'.counted =
      countSpan gap plan.counted ((ranges.getD i (0, 0)).1, (ranges.getD i (0, 0)).1 + (ranges.getD i (0, 0)).2) := by
  unfold placeRange at h
  generalize ranges.getD i (0, 0) = r at h hlen ⊢
  simp only [if_neg hlen] at h
  split at h
  · cases h
  obtain rfl := (Except.ok.inj h).symm
  unfold SpanPlan.counted countSpan
  cases hlast : plan.spans.getLast? with
  | none => simp
  | some last =>
    have hne : plan.spans ≠ [] := by
      rintro hnil
      rw [hnil] at hlast
      cases hlast
    have hpos : 0 < plan.spans.length := List.length_pos_iff.mpr hne
    simp only [Option.map_some]
    split
    · split
      · next hend =>
        have hlast' : (plan.spans.set (plan.spans.length - 1) (last.1, r.1 + r.2)).getLast? = some (last.1, r.1 + r.2) := by
          rw [List.getLast?_eq_getElem?, List.length_set, List.getElem?_set_self (by omega)]
        rw [hlast', List.length_set, Nat.max_eq_left (by omega)]
        rfl
      · next hend =>
        rw [hlast, Nat.max_eq_right (by omega)]
        rfl
    · simp

/-- The non-empty ones of some ranges, each with its end. -/
def nonEmptySpans (rs : List (Nat × Nat)) : List (Nat × Nat) :=
  (rs.filter fun r => decide (r.2 ≠ 0)).map fun r => (r.1, r.1 + r.2)

theorem planSpans_counted {todo : List Nat} {plan plan' : SpanPlan} (h : planSpans ranges gap plan todo = .ok plan') :
    plan'.counted =
      (nonEmptySpans (todo.map fun i => ranges.getD i (0, 0))).foldl (countSpan gap) plan.counted := by
  induction todo generalizing plan with
  | nil =>
    obtain rfl := Except.ok.inj h
    rfl
  | cons i todo ih =>
    obtain ⟨plan1, hplace, hrest⟩ := exists_of_bind_ok h
    rw [ih hrest]
    unfold nonEmptySpans
    rw [List.map_cons, List.filter_cons]
    split
    · next hlen =>
      rw [placeRange_counted (of_decide_eq_true hlen) hplace]
      rfl
    · next hlen =>
      rcases placeRange_ok hplace with ⟨-, rfl⟩ | ⟨-, spans, rfl, -⟩
      · rfl
      · -- an empty range leaves the plan alone
        have hzero : (ranges.getD i (0, 0)).2 = 0 := by simpa using hlen
        unfold placeRange at hplace
        simp only [hzero, if_true] at hplace
        rw [← Except.ok.inj hplace]

/-- The order `read_coalesced` places its ranges in. -/
def placingOrder (ranges : List (Nat × Nat)) : List Nat :=
  sortByKey (fun i => (ranges.getD i (0, 0)).1) (List.range ranges.length)

theorem map_placingOrder (ranges : List (Nat × Nat)) :
    (placingOrder ranges).map (fun i => ranges.getD i (0, 0)) = sortByKey Prod.fst ranges := by
  unfold placingOrder
  rw [map_sortByKey Prod.fst fun i => ranges.getD i (0, 0)]
  congr 1
  refine List.ext_getElem (by simp) fun i h1 h2 => ?_
  rw [List.getElem_map, List.getElem_range, List.getD_eq_getElem _ _ h2]

theorem mem_placingOrder {i : Nat} : i ∈ placingOrder ranges ↔ i < ranges.length := by
  unfold placingOrder
  rw [mem_sortByKey, List.mem_range]

theorem nodup_placingOrder (ranges : List (Nat × Nat)) : (placingOrder ranges).Nodup :=
  (sortByKey_perm _ _).nodup_iff.mpr List.nodup_range

/-- Ranges that end in 64 bits are counted as they are placed. -/
theorem coalescedSpanCount_eq (h : Addressable ranges) :
    coalescedSpanCount ranges gap = ((nonEmptySpans (sortByKey Prod.fst ranges)).foldl (countSpan gap) (0, none)).1 := by
  have hends : (ranges.filter fun r => decide (r.2 ≠ 0)).map (fun r => (r.1, saturatingAdd r.1 r.2)) =
      (ranges.filter fun r => decide (r.2 ≠ 0)).map fun r => (r.1, r.1 + r.2) := by
    refine List.map_congr_left fun r hr => ?_
    obtain ⟨hmem, hlen⟩ := List.mem_filter.mp hr
    have hbound := h r hmem (of_decide_eq_true hlen)
    unfold saturatingAdd usizeMax
    rw [Nat.min_eq_left (by omega)]
  unfold coalescedSpanCount nonEmptySpans
  simp only [hends]
  rw [filter_sortByKey, ← map_sortByKey Prod.fst fun r : Nat × Nat => (r.1, r.1 + r.2)]

theorem exists_planSpans {todo : List Nat}
    (h : ∀ i ∈ todo, (ranges.getD i (0, 0)).2 ≠ 0 → (ranges.getD i (0, 0)).1 + (ranges.getD i (0, 0)).2 < u64Bound)
    (plan : SpanPlan) : ∃ plan', planSpans ranges gap plan todo = .ok plan' := by
  induction todo generalizing plan with
  | nil => exact ⟨plan, rfl⟩
  | cons i todo ih =>
    have hplace : ∃ plan1, placeRange ranges gap plan i = .ok plan1 := by
      unfold placeRange
      simp only
      split
      · exact ⟨plan, rfl⟩
      · next hlen =>
        rw [if_neg (Nat.not_le.mpr (h i List.mem_cons_self hlen))]
        exact ⟨_, rfl⟩
    obtain ⟨plan1, hplace⟩ := hplace
    obtain ⟨plan', hrest⟩ := ih (fun j hj => h j (List.mem_cons_of_mem _ hj)) plan1
    refine ⟨plan', ?_⟩
    rw [planSpans, hplace]
    exact hrest

/-- The plan of a whole batch: made where every range ends in 64 bits, of as many spans as were counted. -/
theorem exists_plan (h : Addressable ranges) :
    ∃ plan, planSpans ranges gap ⟨[], fun _ => usizeMax⟩ (placingOrder ranges) = .ok plan ∧
      plan.spans.length = coalescedSpanCount ranges gap := by
  obtain ⟨plan, hplan⟩ := @exists_planSpans ranges gap (placingOrder ranges) (fun i hi hlen => by
    rw [mem_placingOrder] at hi
    rw [List.getD_eq_getElem _ _ hi] at hlen ⊢
    exact h _ (List.getElem_mem hi) hlen) ⟨[], fun _ => usizeMax⟩
  have hcounted := planSpans_counted hplan
  rw [map_placingOrder] at hcounted
  refine ⟨plan, hplan, ?_⟩
  rw [coalescedSpanCount_eq h]
  exact congrArg Prod.fst hcounted

theorem addressable_of_plan {plan : SpanPlan}
    (h : planSpans ranges gap ⟨[], fun _ => usizeMax⟩ (placingOrder ranges) = .ok plan) :
    Addressable ranges ∧ plan.Sound ranges (placingOrder ranges) [] := by
  obtain ⟨hsound, hbounds⟩ := planSpans_sound (placingOrder ranges) [] ⟨[], fun _ => usizeMax⟩ plan
    ⟨by simp, by simp, by simp⟩ (nodup_placingOrder ranges) (sortByKey_sorted _ _) h
  refine ⟨fun r hr hlen => ?_, hsound⟩
  obtain ⟨i, hi, rfl⟩ := List.getElem_of_mem hr
  have hgetD : ranges.getD i (0, 0) = ranges[i] := List.getD_eq_getElem _ _ hi
  have := hbounds i (mem_placingOrder.mpr hi)
  rw [hgetD] at this
  exact this hlen

/-! ## The reads -/

theorem MemoryFetch.answer_ok_iff {f : MemoryFetch} {offset len : Nat} :
    (∃ b, f.answer offset len = .ok b) ↔ f.InFile offset len := by
  constructor
  · rintro ⟨b, h⟩
    unfold answer at h
    split at h
    · cases h
    · next hmissing =>
      split at h
      · next hin => exact ⟨by simpa using hmissing, hin⟩
      · cases h
  · intro h
    exact ⟨_, answer_of_inFile h⟩

/-- A batch with a range that ends past `2^64` fails before it reads. -/
theorem run_readCoalesced_overflow (h : ¬ Addressable ranges) (s : Schedule FetchError) :
    ∃ e, (readCoalesced f ranges gap).run s = (.error e, s) := by
  cases hplan : planSpans ranges gap ⟨[], fun _ => usizeMax⟩ (placingOrder ranges) with
  | ok plan => exact absurd (addressable_of_plan hplan).1 h
  | error e =>
    refine ⟨e, ?_⟩
    unfold placingOrder at hplan
    unfold readCoalesced
    simp only
    rw [run_bind, hplan]
    rfl

/-- The reads of a plan's spans, all made at once. -/
def readSpans (f : MemoryFetch) (plan : SpanPlan) : Io (List Bytes) :=
  tryAll (plan.spans.map fun sp => f.read sp.1 (sp.2 - sp.1))

theorem run_readSpans (f : MemoryFetch) (plan : SpanPlan) (s : Schedule FetchError) :
    ((readSpans f plan).run s).2 = s.drop plan.spans.length ∧
      ((∃ datas, ((readSpans f plan).run s).1 = .ok datas) ↔
        (∀ sp ∈ plan.spans, f.InFile sp.1 (sp.2 - sp.1)) ∧ ∀ i < plan.spans.length, s i = none) := by
  have hreads : readSpans f plan =
      tryAll ((plan.spans.map fun sp => f.answer sp.1 (sp.2 - sp.1)).map fun r => access r) := by
    unfold readSpans
    rw [List.map_map]
    rfl
  obtain ⟨hdrop, hok⟩ := run_tryAll_access (plan.spans.map fun sp => f.answer sp.1 (sp.2 - sp.1)) s
  rw [← hreads, List.length_map] at hdrop hok
  refine ⟨hdrop, hok.trans (and_congr_left fun _ => ?_)⟩
  rw [List.forall_mem_map]
  exact forall₂_congr fun sp _ => MemoryFetch.answer_ok_iff

/-- A batch whose ranges end in 64 bits reads its spans and cuts the ranges out. -/
theorem run_readCoalesced {plan : SpanPlan}
    (h : planSpans ranges gap ⟨[], fun _ => usizeMax⟩ (placingOrder ranges) = .ok plan) (s : Schedule FetchError) :
    (readCoalesced f ranges gap).run s =
      (readSpans f plan >>= fun datas =>
        (ofOutcome (collect (ranges.zipIdx.map (sliceBack plan datas))) : Io (List Bytes))).run s := by
  unfold placingOrder at h
  unfold readCoalesced
  simp only
  rw [run_bind, h]
  rfl

theorem drop_readCoalesced (h : Addressable ranges) (s : Schedule FetchError) :
    ((readCoalesced f ranges gap).run s).2 = s.drop (coalescedSpanCount ranges gap) := by
  obtain ⟨plan, hplan, hcount⟩ := @exists_plan ranges gap h
  have hdrop := (run_readSpans f plan s).1
  rw [hcount] at hdrop
  rw [run_readCoalesced hplan, run_bind, ← hdrop]
  cases (readSpans f plan).run s with
  | mk outcome s' =>
    cases outcome with
    | error e => rfl
    | ok datas => rfl

/-- An answered batch: every non-empty range is in the file and every read went through. -/
theorem readable_of_readCoalesced_ok {s : Schedule FetchError} {out : List Bytes}
    (hout : ((readCoalesced f ranges gap).run s).1 = .ok out) :
    Readable f ranges ∧ ∀ i < coalescedSpanCount ranges gap, s i = none := by
  have haddr : Addressable ranges := by
    by_contra h
    obtain ⟨e, he⟩ := @run_readCoalesced_overflow f ranges gap h s
    rw [he] at hout
    cases hout
  obtain ⟨plan, hplan, hcount⟩ := @exists_plan ranges gap haddr
  have hdatas : ∃ datas, ((readSpans f plan).run s).1 = .ok datas := by
    rw [run_readCoalesced hplan, run_bind] at hout
    cases hrun : (readSpans f plan).run s with
    | mk outcome s' =>
      rw [hrun] at hout
      cases outcome with
      | error e => cases hout
      | ok datas => exact ⟨datas, rfl⟩
  obtain ⟨hspans, hnone⟩ := (run_readSpans f plan s).2.mp hdatas
  rw [hcount] at hnone
  refine ⟨fun r hr hlen => ?_, hnone⟩
  obtain ⟨i, hi, rfl⟩ := List.getElem_of_mem hr
  have hgetD : ranges.getD i (0, 0) = ranges[i] := List.getD_eq_getElem _ _ hi
  -- the range lies in the span that holds it, and that span was read
  have hholds := (addressable_of_plan hplan).2.holds i (mem_placingOrder.mpr hi)
  unfold SpanPlan.Holds at hholds
  rw [hgetD] at hholds
  obtain ⟨sp, hsp, hlo, hhi⟩ := hholds hlen
  exact (hspans sp (List.mem_of_getElem? hsp)).mono (by omega)

theorem readCoalesced_ok {s : Schedule FetchError} (hr : Readable f ranges)
    (hnone : ∀ i < coalescedSpanCount ranges gap, s i = none) :
    ∃ out, ((readCoalesced f ranges gap).run s).1 = .ok out := by
  have haddr : Addressable ranges := fun r hmem hlen => (hr r hmem hlen).2.1
  obtain ⟨plan, hplan, hcount⟩ := @exists_plan ranges gap haddr
  obtain ⟨plan', hplan', hg⟩ := @planSpans_good f ranges gap hr (placingOrder ranges) []
    ⟨[], fun _ => usizeMax⟩ ⟨by simp, by simp, by simp⟩ (nodup_placingOrder ranges) (sortByKey_sorted _ _)
  obtain rfl : plan = plan' := Except.ok.inj (hplan.symm.trans hplan')
  rw [← hcount] at hnone
  obtain ⟨datas, hdatas⟩ := (run_readSpans f plan s).2.mpr ⟨fun sp hsp => (hg.inFile sp hsp).2, hnone⟩
  have hspans : Settles (readSpans f plan) (.ok (plan.spans.map fun sp => slice f.bytes sp.1 (sp.2 - sp.1))) :=
    settles_tryAll_map fun sp hsp => MemoryFetch.settles_read (hg.inFile sp hsp).2
  obtain rfl := Except.ok.inj (hspans.eq_of_ok hdatas)
  refine ⟨ranges.map fun r => slice f.bytes r.1 r.2, ?_⟩
  rw [run_readCoalesced hplan, run_bind]
  cases hrun : (readSpans f plan).run s with
  | mk outcome s' =>
    rw [hrun] at hdatas
    obtain rfl : outcome = .ok _ := hdatas
    exact collect_sliceBack hg fun i hi => mem_placingOrder.mpr hi

/-- **A coalesced read, exactly**: for any ranges, gap and failing reads, it returns where every non-empty range is
in the file and none of its reads failed; then the `i`-th output is the bytes of the `i`-th range; and it makes as
many reads as `coalescedSpanCount` says, unless a range ends past `2^64`, where it fails without one. -/
theorem readCoalesced_exact (f : MemoryFetch) (ranges : List (Nat × Nat)) (gap : Nat) (s : Schedule FetchError) :
    ((∃ out, ((readCoalesced f ranges gap).run s).1 = .ok out) ↔
      Readable f ranges ∧ ∀ i < coalescedSpanCount ranges gap, s i = none) ∧
    (∀ out, ((readCoalesced f ranges gap).run s).1 = .ok out → out = ranges.map fun r => slice f.bytes r.1 r.2) ∧
    (Addressable ranges → ((readCoalesced f ranges gap).run s).2 = s.drop (coalescedSpanCount ranges gap)) ∧
    (¬ Addressable ranges → ∃ e, (readCoalesced f ranges gap).run s = (.error e, s)) := by
  refine ⟨⟨?_, ?_⟩, fun out hout => ?_, fun h => drop_readCoalesced h s, fun h => run_readCoalesced_overflow h s⟩
  · rintro ⟨out, hout⟩
    exact readable_of_readCoalesced_ok hout
  · rintro ⟨hr, hnone⟩
    exact readCoalesced_ok hr hnone
  obtain ⟨hr, -⟩ := readable_of_readCoalesced_ok hout
  exact (Except.ok.inj ((settles_readCoalesced hr).eq_of_ok hout)).symm

end Counting

/-- Nested, overlapping and empty ranges out of order take one read, the range a gap away one more. -/
theorem readCoalesced_exact_five : ∀ s : Schedule FetchError,
    ((readCoalesced (.new [10, 11, 12, 13, 14, 15, 16, 17]) [(4, 2), (5, 0), (0, 5), (1, 1), (7, 1)] 0).run s).2 =
      s.drop 2 := by
  intro s
  have haddr : Addressable [(4, 2), (5, 0), (0, 5), (1, 1), (7, 1)] := by
    unfold Addressable u64Bound
    decide
  have hcount : coalescedSpanCount [(4, 2), (5, 0), (0, 5), (1, 1), (7, 1)] 0 = 2 := by decide
  rw [← hcount]
  exact (readCoalesced_exact _ _ _ s).2.2.1 haddr

/-- A range that ends at `2^64` is counted, and refused before any read. -/
theorem readCoalesced_overcounted :
    coalescedSpanCount [(usizeMax, 1)] 0 = 1 ∧
      ¬ ∀ s : Schedule FetchError, ((readCoalesced (.new []) [(usizeMax, 1)] 0).run s).2 =
        s.drop (coalescedSpanCount [(usizeMax, 1)] 0) := by
  have hcount : coalescedSpanCount [(usizeMax, 1)] 0 = 1 := by decide
  have haddr : ¬ Addressable [(usizeMax, 1)] := by
    intro h
    have := h (usizeMax, 1) List.mem_cons_self Nat.one_ne_zero
    exact absurd this (by decide)
  refine ⟨hcount, fun h => ?_⟩
  obtain ⟨e, he⟩ := @run_readCoalesced_overflow (.new []) _ 0 haddr fun i => if i = 0 then some .notFound else none
  have hfirst := congrFun (h fun i => if i = 0 then some .notFound else none) 0
  rw [he, hcount] at hfirst
  cases hfirst

end RoaringRange
