import RoaringRange.Lib.Loops
import RoaringRange.PageReach

/-!
# A cursor worked off (`splitset.rs`, `search_split_filtered`)

A split is searched with a filter by a cursor of its own, which is paged until there are enough hits, or until nothing of
the tail is pending.  A pass over a tail takes a scan at least one bucket on, or loads the tail whole.  There are 65,536
buckets, so no loop takes more passes than `tailPasses`.

    a call for more than there is gets on with the tail                             (achieves_ensure)
    the hits of a split are the first docs its cursor pages                         (settles_firstHits)
-/

namespace RoaringRange

open ByteString Faults Slices

/-- More passes than a loop over the tail can take. -/
def tailPasses : Nat := bucketSize + 2

namespace Cursor

section

variable [Roaring]

/-- `Cursor::load_tail`. -/
def drainTail : CursorM Unit := whilePasses pendingTail (ensure usizeMax) tailPasses

/-- The paging loop of `search_split_filtered`. -/
def fillPage (limit : Nat) : CursorM Unit :=
  whilePasses (fun c => decide (c.loaded < limit) && c.pendingTail) (page 0 limit) tailPasses

/-- What `search_split_filtered` asks of its cursor. -/
def firstHits (limit : Nat) : CursorM (List Nat) := do
  if limit = usizeMax then drainTail else fillPage limit
  page 0 limit

/-! ## Progress -/

/-- A scan that is under way has no more buckets than there are. -/
def InBuckets (c : Cursor) : Prop := ∀ scan, c.tailScan = some scan → scan.keys.length ≤ bucketSize

omit [Roaring] in
theorem Left.mono {c : Cursor} {k j : Nat} (h : c.Left k) (hkj : k ≤ j) : c.Left j := by
  rcases h with hd | ⟨scan, hs, hlt⟩
  · exact Or.inl hd
  · exact Or.inr ⟨scan, hs, by omega⟩

omit [Roaring] in
theorem InBuckets.left {c : Cursor} (h : c.InBuckets) {k : Nat} (hk : c.Left k) : c.Left (bucketSize + 1) := by
  rcases hk with hd | ⟨scan, hs, -⟩
  · exact Or.inl hd
  · have := h scan hs
    exact Or.inr ⟨scan, hs, by omega⟩

variable {sets : List Bitmap} {H T : FilterSets} {c : Cursor}

omit [Roaring] in
theorem length_tailBuckets_le (sets : List Bitmap) (F : FilterSets) (minKey : Nat) :
    (tailBuckets sets F minKey).length ≤ bucketSize := by
  unfold tailBuckets
  exact Nat.le_trans (List.length_filter_le _ _) (length_distinctHighKeys_le _)

theorem InBuckets.ensured (h : c.InBuckets) (hS : c.Serves sets H T) (hP : c.Paged sets H T) (need : Nat) :
    (c.ensured sets T need).InBuckets := by
  have hopened : (c.opened sets T).InBuckets := by
    unfold Cursor.opened
    split
    · exact h
    · intro scan hs
      simp only at hs
      split at hs
      · next hseek =>
        rw [← Option.some.inj hs, hS.keys_scanOf hseek]
        exact length_tailBuckets_le _ _ _
      · cases hs
  unfold Cursor.ensured
  split
  · exact h
  · next hgo =>
    rw [not_or, not_or] at hgo
    have hd : c.tailDone = false := by simpa using hgo.1
    split
    · next hm =>
      split
      · next scan hsc =>
        intro scan' hs'
        obtain ⟨hh, -⟩ := Paged.opened_scan hS hP hd hm hsc
        obtain ⟨-, -, -, hkeys, -⟩ := @scanWindows_spec _ _ _ need (c.opened sets T).results.length _ _
          tailWindowsPerCall scan (c.opened sets T).results hh
        simp only [scanned, Option.some.injEq] at hs'
        rw [← hs', hkeys]
        exact hopened scan hsc
      · exact hopened
    · exact h

variable {R : Bitmap}

/-- A cursor on its way through the docs `R`. -/
structure OnTheWay (R : Bitmap) (c : Cursor) : Prop where
  pages : c.Pages R
  scanned : ¬ c.Lost
  inBuckets : c.InBuckets

/-- **A call for more than there is gets on with the tail.** -/
theorem achieves_ensure (h : c.OnTheWay R) (need : Nat) : Achieves (ensure need) c fun _ c' =>
    c'.OnTheWay R ∧ c.results <+: c'.results ∧
      (c.loaded < need → (∃ k, c'.Left k) ∧ ∀ k, c.Left (k + 1) → c'.Left k) := by
  intro s
  cases h.pages with
  | complete hd hr =>
    refine ⟨0, .ok (), c, ?_, Or.inl ⟨(), rfl, h, List.prefix_refl _, fun _ => ⟨⟨0, Or.inl hd⟩, fun k _ => Or.inl hd⟩⟩⟩
    unfold ensure
    rw [call_bind, call_get, Schedule.drop_zero]
    simp [hd]
  | paging sets H T hS hP hR =>
    rcases ensure_call hS hP need s with ⟨n, hok⟩ | ⟨n, e, c', he, herr, -⟩
    · obtain ⟨hext, hP'⟩ := @ensured_paged _ sets H T c need hS hP fun hlost => absurd hlost h.scanned
      refine ⟨n, .ok (), _, hok, Or.inl ⟨(), rfl, ⟨?_, ensured_not_lost h.scanned, h.inBuckets.ensured hS hP need⟩,
        hext.results, fun hlt => ⟨ensured_left hS hlt, fun k hk => ensured_left_succ hS hP hlt hk⟩⟩⟩
      refine .paging sets H T (hext.serves hS) hP' ?_
      rw [hext.query_eq.2.2.1, hR]
    · exact ⟨n, _, c', herr, Or.inr ⟨e, he, rfl⟩⟩

/-- The same of `page`, which hands out what is there then. -/
theorem achieves_page (h : c.OnTheWay R) (limit : Nat) : Achieves (page 0 limit) c fun ids c' =>
    (c'.OnTheWay R ∧ c.results <+: c'.results ∧
      (c.loaded < limit → (∃ k, c'.Left k) ∧ ∀ k, c.Left (k + 1) → c'.Left k)) ∧ ids = c'.results.take limit := by
  unfold page
  refine (achieves_ensure h (saturatingAdd 0 limit)).bind fun _ c' hc' => Achieves.get_bind (Achieves.pure ⟨⟨hc'.1, hc'.2.1, ?_⟩, ?_⟩)
  · intro hlt
    have hload := h.pages.loaded_lt
    refine hc'.2.2 ?_
    simp only [saturatingAdd]
    omega
  · have hload : c'.results.length < usizeMax := hc'.1.pages.loaded_lt
    rw [Nat.zero_min, List.drop_zero, Nat.sub_zero, ← List.take_eq_take_min]
    simp only [saturatingAdd, Nat.zero_add]
    rcases Nat.le_total limit usizeMax with hle | hle
    · rw [Nat.min_eq_left hle]
    · rw [Nat.min_eq_right hle, List.take_of_length_le (by omega), List.take_of_length_le (by omega)]

/-! ## The loops -/

/-- The variant of a loop over the tail. -/
def PassesLeft (R : Bitmap) (k : Nat) (c : Cursor) : Prop := c.OnTheWay R ∧ (c.Left k ∨ bucketSize + 1 < k)

theorem PassesLeft.zero (h : PassesLeft R 0 c) : c.pendingTail = false := by
  rcases h.2 with (hd | ⟨_, _, hlt⟩) | hlt
  · simp [pendingTail, hd]
  · omega
  · omega

theorem PassesLeft.next {k : Nat} {c' : Cursor} (h : PassesLeft R (k + 1) c) (h' : c'.OnTheWay R)
    (hleft : (∃ k, c'.Left k) ∧ ∀ k, c.Left (k + 1) → c'.Left k) : PassesLeft R k c' := by
  obtain ⟨⟨j, hj⟩, hstep⟩ := hleft
  refine ⟨h', Or.inl ?_⟩
  rcases h.2 with hk | hk
  · exact hstep k hk
  · exact (h'.inBuckets.left hj).mono (by omega)

/-- **The tail is worked off.** -/
theorem achieves_drainTail (h : c.OnTheWay R) :
    Achieves drainTail c fun _ c' => c'.OnTheWay R ∧ c'.pendingTail = false := by
  have hstep : ∀ k c, PassesLeft R (k + 1) c → c.pendingTail = true →
      Achieves (ensure usizeMax) c fun _ c' => PassesLeft R k c' := fun k c hI _ =>
    (achieves_ensure hI.1 usizeMax).mono fun _ c' hc' => hI.next hc'.1 (hc'.2.2 hI.1.pages.loaded_lt)
  have hloop := achieves_whilePasses hstep (fun c hI => hI.zero) tailPasses c ⟨h, Or.inr (Nat.lt_succ_self _)⟩
  refine hloop.mono fun _ c' hc' => ?_
  obtain ⟨hp, k, hk⟩ := hc'
  exact ⟨hk.1, hp⟩

/-- **The page is filled**, as far as there are docs for it. -/
theorem achieves_fillPage (h : c.OnTheWay R) (limit : Nat) :
    Achieves (fillPage limit) c fun _ c' => c'.OnTheWay R ∧ (limit ≤ c'.loaded ∨ c'.pendingTail = false) := by
  have hstep : ∀ k c, PassesLeft R (k + 1) c → (decide (c.loaded < limit) && c.pendingTail) = true →
      Achieves (page 0 limit) c fun _ c' => PassesLeft R k c' := by
    intro k c hI hp
    have hlt : c.loaded < limit := by
      rw [Bool.and_eq_true, decide_eq_true_eq] at hp
      exact hp.1
    exact (achieves_page hI.1 limit).mono fun _ c' hc' => hI.next hc'.1.1 (hc'.1.2.2 hlt)
  have hzero : ∀ c, PassesLeft R 0 c → (decide (c.loaded < limit) && c.pendingTail) = false := by
    intro c hI
    rw [hI.zero, Bool.and_false]
  have hloop := achieves_whilePasses hstep hzero tailPasses c ⟨h, Or.inr (Nat.lt_succ_self _)⟩
  refine hloop.mono fun _ c' hc' => ?_
  obtain ⟨hp, k, hk⟩ := hc'
  rw [Bool.and_eq_false_iff, decide_eq_false_iff_not, Nat.not_lt] at hp
  exact ⟨hk.1, hp⟩

/-- Where there are enough docs, or all, the page is theirs. -/
theorem achieves_page_full (h : c.OnTheWay R) {limit : Nat} (henough : limit ≤ c.loaded ∨ c.pendingTail = false) :
    Achieves (page 0 limit) c fun ids _ => ids = R.toList.take limit := by
  refine (achieves_page h limit).mono fun ids c' hc' => ?_
  obtain ⟨⟨hway, hpre, -⟩, rfl⟩ := hc'
  rcases henough with hle | hp
  · have hle' : limit ≤ c'.results.length := Nat.le_trans hle hpre.length_le
    obtain ⟨rest, hrest⟩ := hway.pages.isPrefix
    rw [← hrest, List.take_append_of_le_length hle']
  · rw [h.pages.eq_of_not_pending hp] at hpre
    rw [hpre.eq_of_length_le hway.pages.isPrefix.length_le]

/-- **The hits of a split are the first docs its cursor pages.** -/
theorem settles_firstHits (h : c.OnTheWay R) (limit : Nat) {β : Type} {f : List Nat × Cursor → Io β} {r : Except IndexError β}
    (hf : ∀ c', Settles (f (R.toList.take limit, c')) r) : Settles ((firstHits limit).on c >>= f) r := by
  have hfull : Achieves (firstHits limit) c fun ids _ => ids = R.toList.take limit := by
    unfold firstHits
    split
    · exact (achieves_drainTail h).bind fun _ c' hc' => achieves_page_full hc'.1 (Or.inr hc'.2)
    · exact (achieves_fillPage h limit).bind fun _ c' hc' => achieves_page_full hc'.1 hc'.2
  exact hfull.settles_on fun ids c' hids => hids ▸ hf c'

end

end Cursor

end RoaringRange
