import RoaringRange.CursorOpen

/-!
# How far one call reaches

A call that needs more than the head scans the tail in windows of `tailKeyBatch` buckets and stops at the
first of: enough results, no bucket left, `tailWindowsPerCall` windows, or something new after two windows.
`lastWindow` is where the last two rules stop it, a function of the hits in the first windows alone.

    the windows of one call end at lastWindow, or before it with enough or with all    (scanWindows_reach)
    of a first page, as many docs are there as the windows up to lastWindow have, or all
    where the tail is loaded at once                                                     (page_cursorFor)
    that part of the docs is the page asked for just when both agree on its window         (page_eq_iff)
-/

namespace RoaringRange

open ByteString Faults Slices

/-! ## The windows of a call -/

/-- The docs in the first `w` windows of the tail's buckets. -/
def windowDocs (sets : List Bitmap) (T : FilterSets) (buckets : List Nat) (w : Nat) : Bitmap :=
  windowResult sets T (buckets.take (w * Index.tailKeyBatch))

/-- The window after which a call stops: the first with something in the windows so far, but not before
the second nor behind the last of the budget. -/
def lastWindow (hits : Nat → Nat) : Nat :=
  max 2 (((List.range tailWindowsPerCall).find? fun w => decide (0 < hits w)).getD tailWindowsPerCall)

section

variable {hits : Nat → Nat} (hmono : ∀ v w, v ≤ w → hits v ≤ hits w)
include hmono

/-- Nothing in the windows from the second on: the call goes on. -/
theorem le_lastWindow {w : Nat} (hw : w ≤ tailWindowsPerCall) (hnone : ∀ v, 2 ≤ v → v ≤ w → hits v = 0) :
    w ≤ lastWindow hits := by
  unfold lastWindow
  cases hfind : (List.range tailWindowsPerCall).find? fun w => decide (0 < hits w) with
  | none =>
    simp only [Option.getD_none]
    omega
  | some i =>
    have hpos : 0 < hits i := by simpa using List.find?_some hfind
    simp only [Option.getD_some]
    by_contra hlt
    have h2 := hnone w (by omega) (Nat.le_refl w)
    have h3 := hmono i w (by omega)
    omega

theorem lastWindow_eq {v : Nat} (h2 : 2 ≤ v) (hle : v ≤ tailWindowsPerCall)
    (hhit : 0 < hits v ∨ v = tailWindowsPerCall) (hnone : ∀ w, 2 ≤ w → w < v → hits w = 0) :
    lastWindow hits = v := by
  have hge : v ≤ lastWindow hits := by
    unfold lastWindow
    cases hfind : (List.range tailWindowsPerCall).find? fun w => decide (0 < hits w) with
    | none =>
      simp only [Option.getD_none]
      omega
    | some i =>
      have hpos : 0 < hits i := by simpa using List.find?_some hfind
      simp only [Option.getD_some]
      by_contra hlt
      have h3 := hmono i (v - 1) (by omega)
      have h4 := hnone (v - 1) (by omega) (by omega)
      omega
  refine Nat.le_antisymm ?_ hge
  unfold lastWindow
  rcases Nat.eq_or_lt_of_le hle with heq | hlt
  · cases hfind : (List.range tailWindowsPerCall).find? fun w => decide (0 < hits w) with
    | none =>
      simp only [Option.getD_none]
      omega
    | some i =>
      have hi := List.mem_range.mp (List.mem_of_find?_eq_some hfind)
      simp only [Option.getD_some]
      omega
  · have hv : 0 < hits v := hhit.resolve_right (by omega)
    cases hfind : (List.range tailWindowsPerCall).find? fun w => decide (0 < hits w) with
    | none =>
      rw [List.find?_eq_none] at hfind
      exact absurd (by simpa using hv) (hfind v (List.mem_range.mpr hlt))
    | some i =>
      simp only [Option.getD_some]
      by_contra hgt
      have hi : v < i := by omega
      obtain ⟨-, -, hmin⟩ := List.find?_range_eq_some.mp hfind
      have := hmin v hi
      simp [hv] at this

end

section

variable {sets : List Bitmap} {T : FilterSets} {buckets : List Nat} {need : Nat}

theorem windowDocs_zero : windowDocs sets T buckets 0 = ∅ := by
  rw [windowDocs, Nat.zero_mul, List.take_zero, windowResult_nil]

/-- One window more. -/
theorem windowDocs_succ (hasc : buckets.Pairwise (· < ·)) (w : Nat) :
    (windowDocs sets T buckets w).toList ++
        (windowResult sets T ((buckets.drop (min (w * Index.tailKeyBatch) buckets.length)).take
          Index.tailKeyBatch)).toList =
      (windowDocs sets T buckets (w + 1)).toList := by
  have hsplit : buckets.take (w * Index.tailKeyBatch) ++
      (buckets.drop (min (w * Index.tailKeyBatch) buckets.length)).take Index.tailKeyBatch =
      buckets.take ((w + 1) * Index.tailKeyBatch) := by
    rw [Nat.add_mul, Nat.one_mul, List.take_add]
    congr 2
    rcases Nat.le_total (w * Index.tailKeyBatch) buckets.length with hle | hle
    · rw [Nat.min_eq_left hle]
    · rw [Nat.min_eq_right hle, List.drop_length, List.drop_of_length_le hle]
  unfold windowDocs
  rw [← hsplit]
  exact windowResult_append (by rw [hsplit]; exact hasc.sublist (List.take_sublist _ _))

theorem windowDocs_mono (sets : List Bitmap) (T : FilterSets) (buckets : List Nat) (v w : Nat) (h : v ≤ w) :
    (windowDocs sets T buckets v).len ≤ (windowDocs sets T buckets w).len := by
  refine AscSet.len_le_of_subset fun d hd => ?_
  rw [windowDocs, mem_windowResult] at hd ⊢
  exact ⟨hd.1, (List.take_sublist_take_left (Nat.mul_le_mul_right _ h)).subset hd.2.1, hd.2.2⟩

/-- **The windows of one call**, entered after `w` windows without a reason to stop. -/
theorem scanWindows_reach (hasc : buckets.Pairwise (· < ·)) (head : List Nat) :
    ∀ (left w : Nat) (scan : TailScan), left + w = tailWindowsPerCall → scan.keys = buckets →
      scan.pos = min (w * Index.tailKeyBatch) buckets.length →
      (∀ v, 2 ≤ v → v ≤ w → (windowDocs sets T buckets v).len = 0) →
      ∃ v, v ≤ lastWindow (fun w => (windowDocs sets T buckets w).len) ∧
        (scanWindows sets T need head.length left scan (head ++ (windowDocs sets T buckets w).toList)).1 =
          head ++ (windowDocs sets T buckets v).toList ∧
        (need ≤ (head ++ (windowDocs sets T buckets v).toList).length ∨
          buckets.length ≤ v * Index.tailKeyBatch ∨
          v = lastWindow fun w => (windowDocs sets T buckets w).len) := by
  have hmono := windowDocs_mono sets T buckets
  intro left
  induction left with
  | zero =>
    intro w scan hw _ _ hnone
    have hw : w = tailWindowsPerCall := by omega
    have hlast := lastWindow_eq hmono (v := w) (by rw [hw]; decide) (Nat.le_of_eq hw) (Or.inr hw)
      fun v hv hlt => hnone v hv (Nat.le_of_lt hlt)
    exact ⟨w, Nat.le_of_eq hlast.symm, rfl, Or.inr (Or.inr hlast.symm)⟩
  | succ left ih =>
    intro w scan hw hkeys hpos hnone
    have hle : w ≤ lastWindow fun w => (windowDocs sets T buckets w).len :=
      le_lastWindow hmono (by omega) hnone
    have h12 : tailWindowsPerCall = 12 := rfl
    unfold scanWindows
    split
    · have hstep := @windowDocs_succ sets T _ hasc w
      rw [hkeys, hpos]
      simp only [List.append_assoc, hstep]
      split
      · next hstop =>
        have hhit : 0 < (windowDocs sets T buckets (w + 1)).len := by
          have := hstop.1
          rw [List.length_append] at this
          simp only [AscSet.len]
          omega
        have hlast := lastWindow_eq hmono (v := w + 1) (by omega) (by omega) (Or.inl hhit)
          fun v hv hlt => hnone v hv (by omega)
        exact ⟨w + 1, Nat.le_of_eq hlast.symm, rfl, Or.inr (Or.inr hlast.symm)⟩
      · next hgo =>
        refine ih (w + 1) (scan.advance Index.tailKeyBatch) (by omega) hkeys ?_ ?_
        · simp only [TailScan.advance, hkeys, hpos, Index.tailKeyBatch]
          omega
        · intro v hv hvw
          rcases Nat.eq_or_lt_of_le hvw with rfl | hlt
          · by_contra hne
            refine hgo ⟨?_, by omega⟩
            rw [List.length_append]
            simp only [AscSet.len] at hne
            omega
          · exact hnone v hv (by omega)
    · next hend =>
      refine ⟨w, hle, rfl, ?_⟩
      rw [not_and_or, Nat.not_lt] at hend
      rcases hend with hneed | hex
      · exact Or.inl hneed
      · have hex : scan.exhausted = true := by simpa using hex
        simp only [TailScan.exhausted, decide_eq_true_eq, hkeys, hpos] at hex
        exact Or.inr (Or.inl (by omega))

end

/-! ## The first page of a cursor -/

/-- The part of the docs that a page asks for. -/
def pageOf (R : Bitmap) (offset limit : Nat) : List Nat := (R.toList.drop offset).take limit

/-- Two sets have the same docs where the page is: as many before its first, and the same up to its last. -/
structure AgreeOn (P R : Bitmap) (page : List Nat) : Prop where
  before : ∀ first ∈ page.head?, (P.below first).len = (R.below first).len
  inside : ∀ first ∈ page.head?, ∀ last ∈ page.getLast?, ∀ d, first ≤ d → d ≤ last → (d ∈ P ↔ d ∈ R)

theorem toList_eq_pageOf (R : Bitmap) (offset limit : Nat) :
    R.toList = R.toList.take offset ++ (pageOf R offset limit ++ (R.toList.drop offset).drop limit) := by
  rw [pageOf, List.take_append_drop, List.take_append_drop]

theorem pageOf_asc (R : Bitmap) (offset limit : Nat) : (pageOf R offset limit).Pairwise (· < ·) :=
  (R.asc.sublist (List.drop_sublist _ _)).sublist (List.take_sublist _ _)

theorem length_pageOf (R : Bitmap) (offset limit : Nat) : (pageOf R offset limit).length = min limit (R.len - offset) := by
  rw [pageOf, List.length_take, List.length_drop]
  rfl

/-- **A page cut out of a first part of `P`** is the page of `R` just when the part reaches its end and not past the
end of `R`, and both have the same docs there. -/
theorem page_eq_iff {P R : Bitmap} {out : List Nat} (h : out <+: P.toList) (off limit : Nat) :
    (out.drop off).take limit = pageOf R off limit ↔
      (pageOf R off limit ≠ [] → off + (pageOf R off limit).length ≤ out.length) ∧
      ((pageOf R off limit).length < limit → out.length ≤ off + (pageOf R off limit).length) ∧
      AgreeOn P R (pageOf R off limit) := by
  obtain ⟨more, hmore⟩ := h
  have hlen : ((out.drop off).take limit).length = min limit (out.length - off) := by
    rw [List.length_take, List.length_drop]
  have hwin := length_pageOf R off limit
  have hR := toList_eq_pageOf R off limit
  constructor
  · intro heq
    rw [heq] at hlen
    refine ⟨fun hne => ?_, fun hlt => by omega, ?_⟩
    · have := List.length_pos_iff.mpr hne
      omega
    · have hP : P.toList = out.take off ++ (pageOf R off limit ++ ((out.drop off).drop limit ++ more)) := by
        rw [← heq, ← List.append_assoc (List.take limit _), List.take_append_drop, ← List.append_assoc,
          List.take_append_drop, hmore]
      refine ⟨fun first hf => ?_, fun first hf last hl d h1 h2 => ?_⟩
      · obtain ⟨last, hl⟩ := Option.isSome_iff_exists.mp (show (pageOf R off limit).getLast?.isSome by
          rw [List.getLast?_isSome]
          exact List.ne_nil_of_mem (List.mem_of_head? hf))
        have hpos := List.length_pos_of_mem (List.mem_of_head? hf)
        rw [Bitmap.below, (AscSet.window_spec hP hf hl).1, Bitmap.below, (AscSet.window_spec hR hf hl).1,
          List.length_take, List.length_take]
        have : R.toList.length = R.len := rfl
        omega
      · rw [(AscSet.window_spec hP hf hl).2 d h1 h2, (AscSet.window_spec hR hf hl).2 d h1 h2]
  · rintro ⟨hreach, hend, hagree⟩
    cases hpage : (pageOf R off limit).head? with
    | none =>
      have hnil := List.head?_eq_none_iff.mp hpage
      rw [hnil] at hend hwin ⊢
      refine List.eq_nil_of_length_eq_zero ?_
      rw [hlen]
      simp only [List.length_nil] at hend
      omega
    | some first =>
      have hne : pageOf R off limit ≠ [] := fun hnil => by
        rw [hnil] at hpage
        cases hpage
      obtain ⟨last, hl⟩ := Option.isSome_iff_exists.mp (List.getLast?_isSome.mpr hne)
      have hspec := AscSet.window_spec hR hpage hl
      have hbefore : (P.below first).len = off := by
        have hpos := List.length_pos_iff.mpr hne
        rw [hagree.before first hpage, Bitmap.below, hspec.1, List.length_take]
        have : R.toList.length = R.len := rfl
        omega
      have hcut := @AscSet.window_eq _ _ _ P (pageOf R off limit) first last (pageOf_asc R off limit)
        (AscSet.between_ends (pageOf_asc R off limit) hpage hl) fun x h1 h2 =>
          (hagree.inside first hpage last hl x h1 h2).trans (hspec.2 x h1 h2)
      rw [show (P.filter fun x => decide (x < first)).len = off from hbefore, ← hmore] at hcut
      have hin := hreach hne
      rw [List.drop_append_of_le_length (by omega), List.take_append_of_le_length (by rw [List.length_drop]; omega)] at hcut
      rcases Nat.lt_or_ge (pageOf R off limit).length limit with hlt | hge
      · have hout := hend hlt
        rw [List.take_of_length_le (by rw [List.length_drop]; omega)]
        rwa [List.take_of_length_le (by rw [List.length_drop]; omega)] at hcut
      · rwa [show (pageOf R off limit).length = limit by omega] at hcut

/-- What `page` cuts out of the results. -/
theorem page_slice {out : List Nat} (h : out.length < usizeMax) (off limit : Nat) :
    (out.drop (min off out.length)).take (min (saturatingAdd off limit) out.length - min off out.length) =
      (out.drop off).take limit := by
  unfold saturatingAdd
  rcases Nat.le_total off out.length with ho | ho
  · rw [Nat.min_eq_left ho]
    rcases Nat.le_total (off + limit) out.length with hl | hl
    · congr 1
      omega
    · rw [List.take_of_length_le (by rw [List.length_drop]; omega),
        List.take_of_length_le (by rw [List.length_drop]; omega)]
  · rw [Nat.min_eq_right ho, List.drop_length, List.drop_of_length_le ho, List.take_nil, List.take_nil]

namespace Cursor

variable [Roaring] {sets : List Bitmap} {H T : FilterSets} {c : Cursor}

/-- The tail is loaded at once: for a threshold, or for postings that cannot be seeked in. -/
def LoadsWhole (c : Cursor) : Prop := c.minMatch ≠ c.recs.length ∨ ¬ c.AllSeekable

/-- The results one call on a fresh cursor can reach through windows. -/
def firstReach (sets : List Bitmap) (H T : FilterSets) (c : Cursor) : Nat :=
  (headDocs sets c.minMatch H).len + (windowDocs sets T (tailBuckets sets T eagerBuckets)
    (lastWindow fun w => (windowDocs sets T (tailBuckets sets T eagerBuckets) w).len)).len

theorem Serves.keys_scanOf (h : c.Serves sets H T) (hs : c.AllSeekable) :
    (scanOf c.ranges sets c.facetFields c.excludeRanges T eagerBuckets).keys = tailBuckets sets T eagerBuckets := by
  obtain ⟨-, h2, -⟩ := h.facets
  exact RoaringRange.keys_scanOf h.postings h2 h.sets_ne_nil hs.1 hs.2.1 eagerBuckets

omit [Roaring] in
theorem len_head_add_tail (sets : List Bitmap) (minMatch : Nat) (H T : FilterSets) :
    (headDocs sets minMatch H).len + (tailDocs sets minMatch T).len = (pagedDocs sets minMatch H T).len := by
  have := congrArg List.length (headDocs_append_tailDocs sets minMatch H T)
  rwa [List.length_append] at this

omit [Roaring] in
theorem loaded_wholeLoaded (hr : c.results = (headDocs sets c.minMatch H).toList) :
    (c.wholeLoaded sets T).loaded = (pagedDocs sets c.minMatch H T).len := by
  show (c.results ++ (tailDocs sets c.minMatch T).toList).length = _
  rw [List.length_append, hr, ← len_head_add_tail]
  rfl

/-- The windows of one call get as far as the first of them that may end it. -/
theorem scanned_reach (hS : c.Serves sets H T) (hm : c.minMatch = c.recs.length) (hseek : c.AllSeekable)
    (hr : c.results = (headDocs sets c.minMatch H).toList) {need n : Nat} (hn : n ≤ need)
    (hle : n ≤ (pagedDocs sets c.minMatch H T).len) :
    n ≤ ((c.opened sets T).scanned sets T need
      (scanOf c.ranges sets c.facetFields c.excludeRanges T eagerBuckets)).loaded ↔ n ≤ c.firstReach sets H T := by
  have htotal := len_head_add_tail sets c.minMatch H T
  obtain ⟨hholds, hrem⟩ := hS.scanOf_spec hm hseek
  have hkeys := hS.keys_scanOf hseek
  obtain ⟨v, hv, hscan, hstop⟩ := @scanWindows_reach sets T
    (tailBuckets sets T eagerBuckets) need (hkeys ▸ hholds.keys_asc) c.results tailWindowsPerCall 0
    (scanOf c.ranges sets c.facetFields c.excludeRanges T eagerBuckets) (Nat.add_zero _) hkeys
    (by simp [scanOf]) (fun v h2 h0 => by omega)
  rw [windowDocs_zero, AscSet.toList_empty, List.append_nil] at hscan
  have hload : ((c.opened sets T).scanned sets T need
      (scanOf c.ranges sets c.facetFields c.excludeRanges T eagerBuckets)).loaded =
      (c.results ++ (windowDocs sets T (tailBuckets sets T eagerBuckets) v).toList).length := by
    rw [← hscan]
    simp only [loaded, scanned, opened_results c]
  have hlen : (c.results ++ (windowDocs sets T (tailBuckets sets T eagerBuckets) v).toList).length =
      (headDocs sets c.minMatch H).len + (windowDocs sets T (tailBuckets sets T eagerBuckets) v).len := by
    rw [List.length_append, hr]
    rfl
  have hmono := windowDocs_mono sets T (tailBuckets sets T eagerBuckets) v _ hv
  rw [hload, hlen]
  unfold firstReach
  rcases hstop with hneed | hall | hlast
  · -- the call has what it needs
    rw [hlen] at hneed
    constructor <;> intro _ <;> omega
  · -- the scan is at its end
    have htail : windowDocs sets T (tailBuckets sets T eagerBuckets) v = tailDocs sets c.minMatch T := by
      rw [← hrem, TailScan.remaining, windowDocs, hkeys, List.take_of_length_le hall]
      rfl
    rw [htail] at hmono ⊢
    constructor <;> intro _ <;> omega
  · rw [← hlast]

/-- How much of what it needs a call on a fresh cursor gets. -/
theorem ensured_reach (hS : c.Serves sets H T) (hd : c.tailDone = false) (ht : c.tailScanTried = false)
    (hr : c.results = (headDocs sets c.minMatch H).toList) {need n : Nat} (hn : n ≤ need)
    (hle : n ≤ (pagedDocs sets c.minMatch H T).len) :
    n ≤ (c.ensured sets T need).loaded ↔ c.LoadsWhole ∨ n ≤ c.firstReach sets H T := by
  have hwhole := loaded_wholeLoaded (T := T) hr
  unfold ensured
  split
  · next hdone =>
    have henough : need ≤ c.results.length := by
      rcases hdone with h1 | h1 | h1
      · rw [hd] at h1
        cases h1
      · rw [hS.recs_ne_nil] at h1
        cases h1
      · exact h1
    have hload : c.loaded = c.results.length := rfl
    have hhead : c.results.length = (headDocs sets c.minMatch H).len := by rw [hr]; rfl
    unfold firstReach
    constructor
    · intro _
      exact Or.inr (by omega)
    · intro _
      omega
  · next hgo =>
    split
    · next hm =>
      by_cases hseek : c.AllSeekable
      · have hopen : (c.opened sets T).tailScan =
            some (scanOf c.ranges sets c.facetFields c.excludeRanges T eagerBuckets) := by
          rw [opened, if_neg (by rw [ht]; simp), if_pos hseek]
        have hnot : ¬ c.LoadsWhole := by
          rintro (h1 | h1)
          · exact h1 hm
          · exact h1 hseek
        rw [hopen, or_iff_right hnot]
        exact scanned_reach hS hm hseek hr hn hle
      · have hopen : (c.opened sets T).tailScan = none := by
          rw [opened, if_neg (by rw [ht]; simp), if_neg hseek]
        rw [hopen]
        simp only
        have hw : ((c.opened sets T).wholeLoaded sets T).loaded = (c.wholeLoaded sets T).loaded := by
          simp only [loaded, wholeLoaded, opened_results c, (opened_extends c).query_eq.2.2.1]
        rw [hw, hwhole]
        exact ⟨fun _ => Or.inl (Or.inr hseek), fun _ => hle⟩
    · next hm =>
      rw [hwhole]
      exact ⟨fun _ => Or.inl (Or.inl hm), fun _ => hle⟩

end Cursor

namespace Index

variable [Roaring] [Unicode] {ix : Index} {query : String} {maxMissing : Nat} {filter : Option ResolvedFilter}
  {H T : FilterSets}

/-- One call on the query's cursor gets as many docs as that. -/
def InReach (ix : Index) (query : String) (maxMissing : Nat) (filter : Option ResolvedFilter)
    (H T : FilterSets) (n : Nat) : Prop :=
  let c := ix.freshCursor query maxMissing filter H
  n ≤ (ix.paged query maxMissing H T).len ∧ (c.LoadsWhole ∨ n ≤ c.firstReach (ix.foundSets query) H T)

/-- **The first page of a query** is cut out of the docs that are in reach of one call. -/
theorem page_cursorFor (hw : ix.WellFormed) (h : FilterHolds filter H T) (offset limit : Nat) :
    ∃ out c', (Cursor.page offset limit).call (ix.cursorFor query maxMissing filter H) Schedule.calm =
        ((.ok ((out.drop offset).take limit), c'), Schedule.calm) ∧
      c'.headResult = (ix.cursorFor query maxMissing filter H).headResult ∧
      out <+: (ix.paged query maxMissing H T).toList ∧
      ∀ n ≤ offset + limit, n ≤ out.length ↔ ix.InReach query maxMissing filter H T n := by
  unfold cursorFor
  split
  · next hc =>
    have hempty := paged_eq_empty h hc
    refine ⟨[], Cursor.empty ix.fetch, ?_, rfl, List.nil_prefix, fun n _ => ?_⟩
    · have hens : (Cursor.ensure (saturatingAdd offset limit)).call (Cursor.empty ix.fetch) Schedule.calm =
          ((.ok (), Cursor.empty ix.fetch), Schedule.calm) := by
        rw [Cursor.ensure, call_bind, call_get]
        rfl
      rw [Cursor.page, call_bind, hens]
      simp only [call_bind, call_get, call_pure]
      simp [Cursor.empty]
    · unfold InReach
      rw [hempty]
      constructor
      · intro hn
        obtain rfl : n = 0 := Nat.le_zero.mp hn
        exact ⟨Nat.le_refl _, Or.inr (Nat.zero_le _)⟩
      · exact fun hn => hn.1
  · next hc =>
    obtain ⟨hS, hP⟩ := freshCursor_serves hw h (Nat.not_lt.mp (not_or.mp hc).2)
    generalize hfresh : ix.freshCursor query maxMissing filter H = c at hS hP
    have hd : c.tailDone = false := by rw [← hfresh]; rfl
    have ht : c.tailScanTried = false := by rw [← hfresh]; rfl
    have hr : c.results = (headDocs (ix.foundSets query) c.minMatch H).toList := by rw [← hfresh]; rfl
    have hpaged : ix.paged query maxMissing H T = pagedDocs (ix.foundSets query) c.minMatch H T := by
      rw [← hfresh]
      rfl
    obtain ⟨n, hcall⟩ | ⟨n, e, c', he, -⟩ := Cursor.ensure_call hS hP (saturatingAdd offset limit) Schedule.calm
    · have hnl : c.Lost → saturatingAdd offset limit ≤ c.loaded := fun hl => by
        have := hl.2.2.1
        rw [ht] at this
        cases this
      obtain ⟨hext, hP'⟩ := Cursor.ensured_paged hS hP hnl
      have hpre : (c.ensured (ix.foundSets query) T (saturatingAdd offset limit)).results <+:
          (ix.paged query maxMissing H T).toList := by
        rw [hpaged, ← hext.query_eq.2.2.1]
        exact hP'.isPrefix
      have hmax : (ix.paged query maxMissing H T).toList.length < usizeMax := length_toList_lt _
      have hlt := Nat.lt_of_le_of_lt hpre.length_le hmax
      have hreach := fun n => @Cursor.ensured_reach _ _ H T c hS hd ht hr (saturatingAdd offset limit) n
      generalize hens : c.ensured (ix.foundSets query) T (saturatingAdd offset limit) = ens at *
      have hpage : (Cursor.page offset limit).call c Schedule.calm =
          ((.ok ((ens.results.drop (min offset ens.results.length)).take
            (min (saturatingAdd offset limit) ens.results.length - min offset ens.results.length)), ens),
            Schedule.calm) := by
        rw [Cursor.page, call_bind, hcall]
        simp only [call_bind, call_get, call_pure]
        rfl
      rw [page_slice hlt] at hpage
      refine ⟨ens.results, ens, hpage, hext.query_eq.2.2.2.2, hpre, fun n hn => ?_⟩
      have hlen : (ix.paged query maxMissing H T).len = (ix.paged query maxMissing H T).toList.length := rfl
      unfold InReach
      rw [hfresh]
      constructor
      · intro hin
        have hall : n ≤ (ix.paged query maxMissing H T).len := Nat.le_trans hin hpre.length_le
        exact ⟨hall, (hreach n (by unfold saturatingAdd; omega) (hpaged ▸ hall)).mp hin⟩
      · rintro ⟨hall, hin⟩
        exact (hreach n (by unfold saturatingAdd; omega) (hpaged ▸ hall)).mpr hin
    · exact absurd he (Schedule.not_met_calm n e)

end Index

end RoaringRange
