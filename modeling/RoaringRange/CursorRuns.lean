import Mathlib.Data.List.Infix
import RoaringRange.Cursor
import RoaringRange.Lib.Runs

/-!
# Call sequences on a cursor

`Cursor.Pages R c`: the cursor pages the docs `R` and has a first segment of them.  `next`, `page` and
`loadTail` keep it, whatever reads fail, unless they reload the tail of a cursor that has lost its
scan.

    Pages R c, not lost → the call extends the results and keeps Pages R         (ensure_pages, …)
    Pages R c, not lost → some fuel is enough for loadTail                       (loadTail_calm)
    Run CarefulStep (c, s) tr σ → Paging R tr σ                                        (Paging.run)
    Run Step (c, calm) tr σ → Paging R tr σ, not lost                             (Paging.run_calm)
-/

namespace RoaringRange

open ByteString Faults Slices Runs

namespace Cursor

section

variable [Roaring] {sets : List Bitmap} {H T : FilterSets} {c : Cursor} {need : Nat}

/-! ## What `ensure` leaves -/

theorem scanned_paged (hd : c.tailDone = false) (ht : c.tailScanTried = true)
    (hm : c.minMatch = c.recs.length) {scan : TailScan} (hh : scan.Holds c.fetch c.facetFetch sets T)
    (hp : (headDocs sets c.minMatch H).toList <+: c.results)
    (hr : c.results ++ (scan.remaining sets T).toList = (pagedDocs sets c.minMatch H T).toList) :
    c.Extends (c.scanned sets T need scan) ∧ (c.scanned sets T need scan).Paged sets H T := by
  obtain ⟨h1, h2, h3, -, -⟩ := @scanWindows_spec _ _ _ need c.results.length _ _
    tailWindowsPerCall scan c.results hh
  refine ⟨⟨rfl, ⟨rfl, rfl, rfl, rfl, rfl⟩, h2⟩, ?_⟩
  rw [hr] at h3
  unfold scanned
  simp only [hd, Bool.false_or]
  generalize scanWindows sets T need c.results.length tailWindowsPerCall scan c.results = r at h1 h2 h3
  cases hex : r.2.exhausted with
  | true =>
    refine .done rfl ?_
    rw [TailScan.remaining_exhausted hex, AscSet.toList_empty, List.append_nil] at h3
    exact h3
  | false => exact .scanning rfl r.2 rfl ht hm h1 (hp.trans h2) h3

theorem wholeLoaded_paged (hr : c.results = (headDocs sets c.minMatch H).toList) :
    c.Extends (c.wholeLoaded sets T) ∧ (c.wholeLoaded sets T).Paged sets H T := by
  refine ⟨⟨rfl, ⟨rfl, rfl, rfl, rfl, rfl⟩, List.prefix_append _ _⟩, .done rfl ?_⟩
  simp only [wholeLoaded]
  rw [hr, headDocs_append_tailDocs]

/-- A call of `ensure` that is not a reload keeps what the cursor pages. -/
theorem ensured_paged (hS : c.Serves sets H T) (hP : c.Paged sets H T) (hl : c.Lost → need ≤ c.loaded) :
    c.Extends (c.ensured sets T need) ∧ (c.ensured sets T need).Paged sets H T := by
  unfold ensured
  split
  · exact ⟨Extends.refl c, hP⟩
  · next hgo =>
    rw [not_or, not_or] at hgo
    have hd : c.tailDone = false := by simpa using hgo.1
    have hnl : ¬ c.Lost := fun h => hgo.2.2 (hl h)
    split
    · next hm =>
      obtain ⟨hf, hrecs, hmm, hfl, hhead⟩ := (@opened_extends _ sets T c).query_eq
      split
      · next scan hsc =>
        obtain ⟨hh, hp, hr⟩ := Paged.opened_scan hS hP hd hm hsc
        obtain ⟨h1, h2⟩ := @scanned_paged _ _ H _ (c.opened sets T) need
          (by rw [opened_tailDone, hd]) (opened_tried c) (by rw [hmm, hrecs, hm]) _
          (by rw [hf, facetFetch, hfl]; exact hh) (by rw [hmm, opened_results]; exact hp)
          (by rw [hmm, opened_results]; exact hr)
        exact ⟨(opened_extends c).trans h1, h2⟩
      · next hsc =>
        obtain ⟨h1, h2⟩ := @wholeLoaded_paged _ sets H T (c.opened sets T)
          (by rw [hmm, opened_results]; exact Paged.opened_none hS hP hd hnl hsc)
        exact ⟨(opened_extends c).trans h1, h2⟩
    · next hm =>
      refine wholeLoaded_paged ?_
      cases hP with
      | done hd' _ => rw [hd] at hd'; cases hd'
      | scanning _ _ _ _ hm' _ _ _ => exact absurd hm' hm
      | fresh _ _ hr => exact hr
      | lost _ _ _ hm' _ _ => exact absurd hm' hm

/-- A call that succeeds leaves the scan in place. -/
theorem ensured_not_lost (hl : ¬ c.Lost) : ¬ (c.ensured sets T need).Lost := by
  unfold ensured
  split
  · exact hl
  · split
    · split
      · rintro ⟨-, hs, -⟩
        simp [scanned] at hs
      · rintro ⟨hd, -⟩
        simp [wholeLoaded] at hd
    · rintro ⟨hd, -⟩
      simp [wholeLoaded] at hd

/-- Less than `k` of the tail is still to do: nothing, or fewer than `k` candidate buckets of a scan. -/
def Left (c : Cursor) (k : Nat) : Prop :=
  c.tailDone = true ∨ ∃ scan, c.tailScan = some scan ∧ scan.keys.length - scan.pos < k

/-- One call for more than there is leaves a scan under way, or nothing. -/
theorem ensured_left (hS : c.Serves sets H T) (hneed : c.results.length < need) :
    ∃ k, (c.ensured sets T need).Left k := by
  unfold ensured Left
  split
  · next hgo =>
    rcases hgo with hd | hempty | hle
    · exact ⟨0, Or.inl hd⟩
    · rw [hS.recs_ne_nil] at hempty
      cases hempty
    · omega
  · split
    · split
      · next scan hsc => exact ⟨_, Or.inr ⟨_, rfl, Nat.lt_succ_self _⟩⟩
      · exact ⟨0, Or.inl rfl⟩
    · exact ⟨0, Or.inl rfl⟩

/-- And each further call takes the scan at least one bucket on. -/
theorem ensured_left_succ (hS : c.Serves sets H T) (hP : c.Paged sets H T) (hneed : c.results.length < need)
    {k : Nat} (hk : c.Left (k + 1)) : (c.ensured sets T need).Left k := by
  rcases hk with hd | ⟨scan, hs, hk⟩
  · rw [ensured, if_pos (Or.inl hd)]
    exact Or.inl hd
  · cases hP with
    | done hd _ =>
      rw [ensured, if_pos (Or.inl hd)]
      exact Or.inl hd
    | scanning hd scan' hs' ht hm hh _ _ =>
      rw [hs] at hs'
      obtain rfl := Option.some.inj hs'
      have hopen : c.opened sets T = c := by rw [Cursor.opened, if_pos ht]
      unfold ensured
      rw [if_neg (by simp [hd, hS.recs_ne_nil]; omega), if_pos hm, hopen, hs]
      simp only
      obtain ⟨-, -, -, hkeys, hpos⟩ := @scanWindows_spec _ _ _ need c.results.length _ _
        tailWindowsPerCall scan c.results hh
      unfold scanned Left
      simp only [hd, Bool.false_or]
      cases hex : scan.exhausted with
      | true =>
        left
        simp only [TailScan.exhausted, decide_eq_true_eq] at hex ⊢
        rw [hkeys]
        omega
      | false =>
        right
        have hlt := @scanWindows_progress _ _ _ _ c.results.length _ _ 11 _ _ hh hneed hex
        have hlt : scan.pos <
          (scanWindows sets T need c.results.length tailWindowsPerCall scan c.results).2.pos := hlt
        simp only [TailScan.exhausted, decide_eq_false_iff_not] at hex
        refine ⟨_, rfl, ?_⟩
        rw [hkeys]
        omega
    | fresh _ hs' _ => rw [hs] at hs'; cases hs'
    | lost _ hs' _ _ _ _ => rw [hs] at hs'; cases hs'

end

/-! ## What a cursor pages, call by call -/

/-- The cursor pages the docs `R`: it has them all, or it is on the way through them. -/
inductive Pages [Roaring] (R : Bitmap) (c : Cursor) : Prop where
  | complete (hd : c.tailDone = true) (hr : c.results = R.toList)
  | paging (sets : List Bitmap) (H T : FilterSets) (hS : c.Serves sets H T) (hP : c.Paged sets H T)
      (hR : pagedDocs sets c.minMatch H T = R)

section

variable [Roaring] {R : Bitmap} {c : Cursor} {need : Nat}

theorem Paged.isPrefix {sets : List Bitmap} {H T : FilterSets} (h : c.Paged sets H T) :
    c.results <+: (pagedDocs sets c.minMatch H T).toList := by
  cases h with
  | done _ hr => exact hr ▸ List.prefix_refl _
  | scanning _ _ _ _ _ _ _ hr => exact ⟨_, hr⟩
  | fresh _ _ hr =>
    rw [hr, ← headDocs_append_tailDocs sets c.minMatch H T]
    exact List.prefix_append _ _
  | lost _ _ _ _ _ hr => exact hr

theorem Pages.isPrefix (h : c.Pages R) : c.results <+: R.toList := by
  cases h with
  | complete _ hr => exact hr ▸ List.prefix_refl _
  | paging sets H T _ hP hR =>
    rw [← hR]
    exact hP.isPrefix

theorem Pages.loaded_lt (h : c.Pages R) : c.loaded < usizeMax :=
  Nat.lt_of_le_of_lt h.isPrefix.length_le (length_toList_lt R)

/-- A cursor without a pending tail has all the docs. -/
theorem Pages.eq_of_not_pending (h : c.Pages R) (hp : c.pendingTail = false) : c.results = R.toList := by
  cases h with
  | complete _ hr => exact hr
  | paging sets H T hS hP hR =>
    have hd : c.tailDone = true := by simpa [pendingTail, hS.recs_ne_nil] using hp
    cases hP with
    | done _ hr => rw [hr, hR]
    | scanning hd' _ _ _ _ _ _ _ => rw [hd] at hd'; cases hd'
    | fresh hd' _ _ => rw [hd] at hd'; cases hd'
    | lost hd' _ _ _ _ _ => rw [hd] at hd'; cases hd'

/-- Moving the position changes nothing. -/
theorem Pages.setPos (h : c.Pages R) (n : Nat) : ({ c with pos := n } : Cursor).Pages R := by
  cases h with
  | complete hd hr => exact .complete hd hr
  | paging sets H T hS hP hR =>
    refine .paging sets H T ⟨hS.postings, hS.minMatch_pos, hS.minMatch_le, hS.filterAt, hS.headResult_eq⟩ ?_ hR
    cases hP with
    | done hd hr => exact .done hd hr
    | scanning hd scan hs ht hm hh hp hr => exact .scanning hd scan hs ht hm hh hp hr
    | fresh hd hs hr => exact .fresh hd hs hr
    | lost hd hs ht hm hp hr => exact .lost hd hs ht hm hp hr

/-- **`ensure` keeps what the cursor pages**, on an error too, unless it reloads a lost tail. -/
theorem ensure_pages (h : c.Pages R) (hl : c.Lost → need ≤ c.loaded) (s : Schedule FetchError) :
    ∃ n o c', (ensure need).call c s = ((o, c'), s.drop n) ∧ c.Extends c' ∧ c'.Pages R ∧
      (o = .ok () ∧ (¬ c.Lost → ¬ c'.Lost) ∨ ∃ e, s.Met n e ∧ o = .error (.fetch e)) := by
  cases h with
  | complete hd hr =>
    refine ⟨0, .ok (), c, ?_, Extends.refl c, .complete hd hr, Or.inl ⟨rfl, id⟩⟩
    unfold ensure
    rw [call_bind, call_get]
    simp [hd]
  | paging sets H T hS hP hR =>
    rcases ensure_call hS hP need s with ⟨n, hok⟩ | ⟨n, e, c', he, herr, hext, hP'⟩
    · obtain ⟨hext, hP'⟩ := ensured_paged hS hP hl
      refine ⟨n, .ok (), _, hok, hext, .paging sets H T (hext.serves hS) hP' ?_,
        Or.inl ⟨rfl, ensured_not_lost⟩⟩
      rw [hext.query_eq.2.2.1, hR]
    · refine ⟨n, _, c', herr, hext, .paging sets H T (hext.serves hS) hP' ?_, Or.inr ⟨e, he, rfl⟩⟩
      rw [hext.query_eq.2.2.1, hR]

/-- The loop of `loadTail`, when it is over: an `Ok` means that all the docs are there. -/
theorem loadTail_pages : ∀ (fuel : Nat) (c : Cursor) (s : Schedule FetchError) {r : Except IndexError Unit}
    {c' : Cursor} {s' : Schedule FetchError}, c.Pages R → ¬ (c.pendingTail = true ∧ c.Lost) →
    loadTail fuel c s = some ((r, c'), s') →
      c.Extends c' ∧ c'.Pages R ∧ ∃ n, s' = s.drop n ∧
        (r = .ok () ∧ c'.results = R.toList ∧ (¬ c.Lost → ¬ c'.Lost) ∨
          ∃ e, s.Met n e ∧ r = .error (.fetch e))
  | 0, c, s, r, c', s', _, _, h => nomatch h
  | fuel + 1, c, s, r, c', s', hP, hl, h => by
    unfold loadTail at h
    split at h
    · next hpend =>
      have hnl : ¬ c.Lost := fun hlost => hl ⟨hpend, hlost⟩
      obtain ⟨n, o, c₁, hcall, hext, hP₁, hout⟩ :=
        @ensure_pages _ _ _ usizeMax hP (fun hlost => absurd hlost hnl) s
      rw [hcall] at h
      rcases hout with ⟨rfl, hnl₁⟩ | ⟨e, he, rfl⟩
      · obtain ⟨hext', hP', m, rfl, hout'⟩ := loadTail_pages fuel c₁ (s.drop n) hP₁
          (fun hx => hnl₁ hnl hx.2) h
        refine ⟨hext.trans hext', hP', n + m, Schedule.drop_drop s n m, ?_⟩
        rcases hout' with ⟨hr, hall, hnl'⟩ | ⟨e, he, hr⟩
        · exact Or.inl ⟨hr, hall, fun h => hnl' (hnl₁ h)⟩
        · exact Or.inr ⟨e, he.of_drop, hr⟩
      · simp only [Option.some.injEq, Prod.mk.injEq] at h
        obtain ⟨⟨rfl, rfl⟩, rfl⟩ := h
        exact ⟨hext, hP₁, n, rfl, Or.inr ⟨e, he, rfl⟩⟩
    · next hpend =>
      simp only [Option.some.injEq, Prod.mk.injEq] at h
      obtain ⟨⟨rfl, rfl⟩, rfl⟩ := h
      have hall := hP.eq_of_not_pending (by simpa using hpend)
      exact ⟨Extends.refl c, hP, 0, by simp, Or.inl ⟨rfl, hall, id⟩⟩

/-- Without faults a call of `ensure` for more than there is gets on with the tail. -/
theorem ensure_calm (hP : c.Pages R) (hnl : ¬ c.Lost) (need : Nat) :
    ∃ c', (ensure need).call c Schedule.calm = ((.ok (), c'), Schedule.calm) ∧ c.Extends c' ∧ c'.Pages R ∧
      ¬ c'.Lost ∧ (c.loaded < need → (∃ k, c'.Left k) ∧ ∀ k, c.Left (k + 1) → c'.Left k) := by
  obtain ⟨n, o, c', hcall, hext, hP', ⟨rfl, hnl'⟩ | ⟨e, he, -⟩⟩ :=
    @ensure_pages _ _ _ need hP (fun hlost => absurd hlost hnl) Schedule.calm
  · refine ⟨c', hcall, hext, hP', hnl' hnl, fun hlt => ?_⟩
    cases hP with
    | complete hd hr =>
      have hc : c' = c := by
        rw [ensure, call_bind, call_get] at hcall
        simp [hd] at hcall
        exact hcall.symm
      exact ⟨⟨0, Or.inl (by rw [hc, hd])⟩, fun k _ => Or.inl (by rw [hc, hd])⟩
    | paging sets H T hS hPaged hR =>
      rcases ensure_call hS hPaged need Schedule.calm with ⟨m, hok⟩ | ⟨m, e, _, he, -⟩
      · rw [hok] at hcall
        simp only [Prod.mk.injEq] at hcall
        rw [← hcall.1.2]
        exact ⟨ensured_left hS hlt, fun k hk => ensured_left_succ hS hPaged hlt hk⟩
      · exact absurd he (Schedule.not_met_calm m e)
  · exact absurd he (Schedule.not_met_calm n e)

theorem loadTail_calm_left : ∀ (k : Nat) (c : Cursor), c.Pages R → ¬ c.Lost → c.Left k →
    ∃ fuel c', loadTail fuel c Schedule.calm = some ((.ok (), c'), Schedule.calm)
  | 0, c, _, _, hk => by
    rcases hk with hd | ⟨_, _, hlt⟩
    · exact ⟨1, c, by simp [loadTail, pendingTail, hd]⟩
    · omega
  | k + 1, c, hP, hnl, hk => by
    by_cases hpend : c.pendingTail = true
    · obtain ⟨c₁, hcall, -, hP₁, hnl₁, hleft⟩ := ensure_calm hP hnl usizeMax
      obtain ⟨fuel, c', hload⟩ := loadTail_calm_left k c₁ hP₁ hnl₁ ((hleft hP.loaded_lt).2 k hk)
      exact ⟨fuel + 1, c', by rw [loadTail, if_pos hpend, hcall]; exact hload⟩
    · exact ⟨1, c, by simp [loadTail, hpend]⟩

/-- **`loadTail` terminates**: without faults some number of passes is enough. -/
theorem loadTail_calm (hP : c.Pages R) (hnl : ¬ c.Lost) :
    ∃ fuel c', loadTail fuel c Schedule.calm = some ((.ok (), c'), Schedule.calm) := by
  by_cases hpend : c.pendingTail = true
  · obtain ⟨c₁, hcall, -, hP₁, hnl₁, hleft⟩ := ensure_calm hP hnl usizeMax
    obtain ⟨k, hk⟩ := (hleft hP.loaded_lt).1
    obtain ⟨fuel, c', hload⟩ := loadTail_calm_left k c₁ hP₁ hnl₁ hk
    exact ⟨fuel + 1, c', by rw [loadTail, if_pos hpend, hcall]; exact hload⟩
  · exact ⟨1, c, by simp [loadTail, hpend]⟩

/-- `next` hands out the docs from the position on, and moves it behind them. -/
theorem next_pages (hP : c.Pages R) (hpos : c.pos ≤ c.loaded) {n : Nat}
    (hl : c.Lost → saturatingAdd c.pos n ≤ c.loaded) (s : Schedule FetchError) :
    ∃ m o c', (next n).call c s = ((o, c'), s.drop m) ∧ c'.Pages R ∧ c.results <+: c'.results ∧
      c'.pos ≤ c'.loaded ∧
      ((∃ ids, o = .ok ids ∧ c'.pos = min (saturatingAdd c.pos n) c'.loaded ∧
          R.toList.take c.pos ++ ids = R.toList.take c'.pos ∧ (¬ c.Lost → ¬ c'.Lost)) ∨
        ∃ e, s.Met m e ∧ o = .error (.fetch e) ∧ c'.pos = c.pos) := by
  obtain ⟨m, o, c₁, hcall, hext, hP₁, hout⟩ := @ensure_pages _ _ _ (saturatingAdd c.pos n) hP hl s
  unfold next
  rw [call_bind, call_get]
  simp only
  rw [call_bind, hcall]
  have hpos₁ : c₁.pos ≤ c₁.loaded := by
    rw [hext.pos_eq]
    exact Nat.le_trans hpos hext.results.length_le
  rcases hout with ⟨rfl, hnl⟩ | ⟨e, he, rfl⟩
  · simp only [call_bind, call_get, call_modify, call_pure]
    refine ⟨m, _, _, rfl, hP₁.setPos _, hext.results, Nat.min_le_right _ _, Or.inl ⟨_, rfl, rfl, ?_, hnl⟩⟩
    obtain ⟨t, ht⟩ := hP₁.isPrefix
    have hle : c₁.pos ≤ saturatingAdd c₁.pos n := by
      have hlt := hP₁.loaded_lt
      simp only [saturatingAdd]
      omega
    rw [← ht, ← hext.pos_eq]
    have hlen := Nat.le_min.mpr ⟨hle, hpos₁⟩
    simp only [loaded] at hpos₁ hlen
    rw [List.take_append_of_le_length hpos₁, List.take_append_of_le_length (Nat.min_le_right _ _),
      ← List.take_add, Nat.add_sub_cancel' hlen]
  · exact ⟨m, _, c₁, rfl, hP₁, hext.results, hpos₁, Or.inr ⟨e, he, rfl, hext.pos_eq⟩⟩

/-- `page` hands out docs of the page asked for, from its start on. -/
theorem page_pages (hP : c.Pages R) {offset limit : Nat}
    (hl : c.Lost → saturatingAdd offset limit ≤ c.loaded) (s : Schedule FetchError) :
    ∃ m o c', (page offset limit).call c s = ((o, c'), s.drop m) ∧ c'.Pages R ∧ c.Extends c' ∧
      ((∃ ids, o = .ok ids ∧ ids <+: (R.toList.drop offset).take limit ∧ (¬ c.Lost → ¬ c'.Lost)) ∨
        ∃ e, s.Met m e ∧ o = .error (.fetch e)) := by
  obtain ⟨m, o, c₁, hcall, hext, hP₁, hout⟩ := @ensure_pages _ _ _ (saturatingAdd offset limit) hP hl s
  unfold page
  simp only
  rw [call_bind, hcall]
  rcases hout with ⟨rfl, hnl⟩ | ⟨e, he, rfl⟩
  · simp only [call_bind, call_get, call_pure]
    refine ⟨m, _, c₁, rfl, hP₁, hext, Or.inl ⟨_, rfl, ?_, hnl⟩⟩
    obtain ⟨t, ht⟩ := hP₁.isPrefix
    rw [← ht]
    rcases Nat.le_total offset c₁.results.length with ho | ho
    · rw [Nat.min_eq_left ho, List.drop_append_of_le_length ho]
      refine List.IsPrefix.trans ?_ (List.IsPrefix.take (List.prefix_append _ _) limit)
      refine List.take_prefix_take_left ?_
      simp only [saturatingAdd]
      omega
    · rw [Nat.min_eq_right ho, List.drop_length, List.take_nil]
      exact List.nil_prefix
  · exact ⟨m, _, c₁, rfl, hP₁, hext, Or.inr ⟨e, he, rfl⟩⟩

end

/-! ## Calls and runs -/

end Cursor

/-- A call a caller can make on a cursor. -/
inductive Call where
  | next (n : Nat)
  | page (offset limit : Nat)
  | loadTail
  deriving DecidableEq, Repr

/-- How many results the call asks `ensure` for. -/
def Call.need (c : Cursor) : Call → Nat
  | .next n => saturatingAdd c.pos n
  | .page offset limit => saturatingAdd offset limit
  | .loadTail => usizeMax

/-- What a call came back with; `loadTail` has no ids to return. -/
abbrev Outcome := Except IndexError (List Nat)

namespace Cursor

/-- The call would load the whole tail behind a part of it that is there already. -/
def Reloads (c : Cursor) (call : Call) : Prop := c.Lost ∧ c.loaded < call.need c

instance (c : Cursor) (call : Call) : Decidable (c.Reloads call) := inferInstanceAs (Decidable (_ ∧ _))

section

variable [Roaring]

/-- The call comes back with an outcome and leaves the cursor (and the schedule) as said. -/
def Returns (call : Call) (c : Cursor) (s : Schedule FetchError) (o : Outcome) (c' : Cursor)
    (s' : Schedule FetchError) : Prop :=
  match call with
  | .next n => (next n).call c s = ((o, c'), s')
  | .page offset limit => (page offset limit).call c s = ((o, c'), s')
  | .loadTail => ∃ fuel r, loadTail fuel c s = some ((r, c'), s') ∧ o = r.map fun _ => []

/-- One call of a run. -/
def Step (σ : Cursor × Schedule FetchError) (l : Call × Outcome) (σ' : Cursor × Schedule FetchError) :
    Prop :=
  Returns l.1 σ.1 σ.2 l.2 σ'.1 σ'.2

/-- Makes one call; `fuel` bounds the rounds of a `loadTail`. -/
def perform (fuel : Nat) (call : Call) (σ : Cursor × Schedule FetchError) :
    Option (Outcome × Cursor × Schedule FetchError) :=
  match call with
  | .next n =>
    let r := (next n).call σ.1 σ.2
    some (r.1.1, r.1.2, r.2)
  | .page offset limit =>
    let r := (page offset limit).call σ.1 σ.2
    some (r.1.1, r.1.2, r.2)
  | .loadTail => (loadTail fuel σ.1 σ.2).map fun r => (r.1.1.map fun _ => [], r.1.2, r.2)

/-- Makes the calls one after the other. -/
def replay (fuel : Nat) : List Call → Cursor × Schedule FetchError →
    Option (List (Call × Outcome) × Cursor × Schedule FetchError)
  | [], σ => some ([], σ)
  | call :: calls, σ => do
    let (o, σ) ← perform fuel call σ
    let (tr, σ) ← replay fuel calls σ
    pure ((call, o) :: tr, σ)

/-- One call of a run that is not a reload. -/
def CarefulStep (σ : Cursor × Schedule FetchError) (l : Call × Outcome)
    (σ' : Cursor × Schedule FetchError) : Prop :=
  Step σ l σ' ∧ ¬ σ.1.Reloads l.1

end

section

variable [Roaring] {σ σ' : Cursor × Schedule FetchError}

theorem step_of_perform {fuel : Nat} {call : Call} {o : Outcome} (h : perform fuel call σ = some (o, σ')) :
    Step σ (call, o) σ' := by
  cases call with
  | next n =>
    obtain ⟨rfl, rfl⟩ := Prod.mk.inj (Option.some.inj h)
    rfl
  | page offset limit =>
    obtain ⟨rfl, rfl⟩ := Prod.mk.inj (Option.some.inj h)
    rfl
  | loadTail =>
    obtain ⟨r, hr, heq⟩ := Option.map_eq_some_iff.mp h
    obtain ⟨rfl, rfl⟩ := Prod.mk.inj heq
    exact ⟨fuel, r.1.1, hr, rfl⟩

/-- Calls made one after the other are a run. -/
theorem run_of_replay {σ₀ : Cursor × Schedule FetchError} {fuel : Nat} {calls : List Call} :
    ∀ {σ : Cursor × Schedule FetchError} {tr₀ tr : List (Call × Outcome)}, Run Step σ₀ tr₀ σ →
      replay fuel calls σ = some (tr, σ') → Run Step σ₀ (tr₀ ++ tr) σ' := by
  induction calls with
  | nil =>
    intro σ tr₀ tr hrun h
    obtain ⟨rfl, rfl⟩ := Prod.mk.inj (Option.some.inj h)
    rwa [List.append_nil]
  | cons call calls ih =>
    intro σ tr₀ tr hrun h
    rw [replay, Option.bind_eq_bind, Option.bind_eq_some_iff] at h
    obtain ⟨⟨o, σ₁⟩, hp, h⟩ := h
    rw [Option.bind_eq_bind, Option.bind_eq_some_iff] at h
    obtain ⟨⟨tr₁, σ₂⟩, hr, h⟩ := h
    obtain ⟨rfl, rfl⟩ := Prod.mk.inj (Option.some.inj h)
    have := ih (hrun.step (step_of_perform hp)) hr
    rwa [List.append_assoc] at this

end

/-- The ids the `next` calls of a run returned. -/
def nextPages (tr : List (Call × Outcome)) : List Nat :=
  tr.flatMap fun l =>
    match l with
    | (.next _, .ok ids) => ids
    | _ => []

/-- A `loadTail` of the run returned `Ok`. -/
def TailLoaded (tr : List (Call × Outcome)) : Prop := ∃ ids, (Call.loadTail, Except.ok ids) ∈ tr

section

variable [Roaring] {R : Bitmap}

/-- What holds after every call of a run. -/
structure Paging (R : Bitmap) (tr : List (Call × Outcome)) (σ : Cursor × Schedule FetchError) : Prop where
  pages : σ.1.Pages R
  pos_le : σ.1.pos ≤ σ.1.loaded
  handed : nextPages tr = R.toList.take σ.1.pos
  whole : TailLoaded tr → σ.1.results = R.toList

theorem Paging.of_fresh {c : Cursor} (hP : c.Pages R) (hpos : c.pos = 0) (s : Schedule FetchError) :
    Paging R [] (c, s) := by
  refine ⟨hP, by simp [hpos], by simp [nextPages, hpos], ?_⟩
  rintro ⟨ids, h⟩
  simp at h

/-- A call that is not a reload keeps all of it. -/
theorem Paging.step {tr : List (Call × Outcome)} {σ σ' : Cursor × Schedule FetchError} {l : Call × Outcome}
    (h : Paging R tr σ) (hs : CarefulStep σ l σ') : Paging R (tr ++ [l]) σ' := by
  obtain ⟨c, s⟩ := σ
  obtain ⟨c', s'⟩ := σ'
  obtain ⟨call, o⟩ := l
  obtain ⟨hret, hcare⟩ := hs
  have hl : c.Lost → call.need c ≤ c.loaded := fun hlost => Nat.not_lt.mp fun hlt => hcare ⟨hlost, hlt⟩
  -- only a `loadTail` that returned `Ok` makes the run a loaded one
  have htail : ∀ {call : Call} {o : Outcome}, (∀ ids, (call, o) ≠ (Call.loadTail, Except.ok ids)) →
      c.results <+: c'.results → c'.Pages R → TailLoaded (tr ++ [(call, o)]) → c'.results = R.toList := by
    rintro call o hne hpre hP' ⟨ids, hmem⟩
    rcases List.mem_append.mp hmem with hmem | hmem
    · have hall : c.results = R.toList := h.whole ⟨ids, hmem⟩
      exact hP'.isPrefix.eq_of_length_le (hall ▸ hpre.length_le)
    · exact absurd (List.mem_singleton.mp hmem).symm (hne ids)
  cases call with
  | next n =>
    obtain ⟨m, o', c₁, hcall, hP₁, hpre, hpos₁, hout⟩ := next_pages h.pages h.pos_le hl s
    have heq : (next n).call c s = ((o, c'), s') := hret
    rw [hcall] at heq
    simp only [Prod.mk.injEq] at heq
    obtain ⟨⟨rfl, rfl⟩, rfl⟩ := heq
    refine ⟨hP₁, hpos₁, ?_, htail (by simp) hpre hP₁⟩
    rw [nextPages, List.flatMap_append]
    rcases hout with ⟨ids, rfl, -, hids, -⟩ | ⟨e, -, rfl, hpos⟩
    · simpa [h.handed, nextPages] using hids ▸ congrArg (· ++ ids) h.handed
    · simpa [hpos, nextPages] using h.handed
  | page offset limit =>
    obtain ⟨m, o', c₁, hcall, hP₁, hext, hout⟩ := page_pages h.pages hl s
    have heq : (page offset limit).call c s = ((o, c'), s') := hret
    rw [hcall] at heq
    simp only [Prod.mk.injEq] at heq
    obtain ⟨⟨rfl, rfl⟩, rfl⟩ := heq
    refine ⟨hP₁, ?_, ?_, htail (by simp) hext.results hP₁⟩
    · show c₁.pos ≤ c₁.loaded
      rw [hext.pos_eq]
      exact Nat.le_trans h.pos_le hext.results.length_le
    · show _ = R.toList.take c₁.pos
      rw [hext.pos_eq, nextPages, List.flatMap_append]
      simpa [nextPages] using h.handed
  | loadTail =>
    obtain ⟨fuel, r, hload, rfl⟩ := hret
    have hnl : ¬ c.Lost := fun hlost => by
      have h1 := hl hlost
      have h2 : c.loaded < usizeMax := h.pages.loaded_lt
      simp only [Call.need] at h1
      omega
    obtain ⟨hext, hP₁, m, rfl, hout⟩ := loadTail_pages fuel c s h.pages (fun hx => hnl hx.2) hload
    refine ⟨hP₁, ?_, ?_, ?_⟩
    · show c'.pos ≤ c'.loaded
      rw [hext.pos_eq]
      exact Nat.le_trans h.pos_le hext.results.length_le
    · show _ = R.toList.take c'.pos
      rw [hext.pos_eq, nextPages, List.flatMap_append]
      simpa [nextPages] using h.handed
    · rcases hout with ⟨rfl, hall, -⟩ | ⟨e, -, rfl⟩
      · exact fun _ => hall
      · exact htail (by simp [Except.map]) hext.results hP₁

/-- **Runs without reloads page exactly**, whatever reads fail. -/
theorem Paging.run {tr : List (Call × Outcome)} {c : Cursor} {s : Schedule FetchError}
    {σ : Cursor × Schedule FetchError} (hP : c.Pages R) (hpos : c.pos = 0)
    (h : Run CarefulStep (c, s) tr σ) : Paging R tr σ :=
  h.invariant (Paging.of_fresh hP hpos s) fun _ _ _ _ => Paging.step

/-- A call under no faults keeps the scan where it belongs, so it is no reload and neither is the next. -/
theorem Paging.step_calm {tr : List (Call × Outcome)} {c : Cursor} {l : Call × Outcome}
    {σ' : Cursor × Schedule FetchError} (h : Paging R tr (c, Schedule.calm)) (hnl : ¬ c.Lost)
    (hs : Step (c, Schedule.calm) l σ') :
    Paging R (tr ++ [l]) σ' ∧ ¬ σ'.1.Lost ∧ σ'.2 = Schedule.calm := by
  have hl : ∀ need, c.Lost → need ≤ c.loaded := fun _ hlost => absurd hlost hnl
  refine ⟨h.step ⟨hs, fun hr => hnl hr.1⟩, ?_⟩
  obtain ⟨c', s'⟩ := σ'
  obtain ⟨call, o⟩ := l
  cases call with
  | next n =>
    obtain ⟨m, o', c₁, hcall, -, -, -, hout⟩ := next_pages h.pages h.pos_le (hl _) Schedule.calm
    have heq : (next n).call c Schedule.calm = ((o, c'), s') := hs
    rw [hcall] at heq
    simp only [Prod.mk.injEq] at heq
    obtain ⟨⟨rfl, rfl⟩, rfl⟩ := heq
    rcases hout with ⟨ids, -, -, -, hnl'⟩ | ⟨e, he, -⟩
    · exact ⟨hnl' hnl, rfl⟩
    · exact absurd he (Schedule.not_met_calm m e)
  | page offset limit =>
    obtain ⟨m, o', c₁, hcall, -, -, hout⟩ := page_pages h.pages (hl _) Schedule.calm
    have heq : (page offset limit).call c Schedule.calm = ((o, c'), s') := hs
    rw [hcall] at heq
    simp only [Prod.mk.injEq] at heq
    obtain ⟨⟨rfl, rfl⟩, rfl⟩ := heq
    rcases hout with ⟨ids, -, -, hnl'⟩ | ⟨e, he, -⟩
    · exact ⟨hnl' hnl, rfl⟩
    · exact absurd he (Schedule.not_met_calm m e)
  | loadTail =>
    obtain ⟨fuel, r, hload, rfl⟩ := hs
    obtain ⟨-, -, m, rfl, ⟨-, -, hnl'⟩ | ⟨e, he, -⟩⟩ :=
      loadTail_pages fuel c Schedule.calm h.pages (fun hx => hnl hx.2) hload
    · exact ⟨hnl' hnl, rfl⟩
    · exact absurd he (Schedule.not_met_calm m e)

/-- **Runs under no faults page exactly.** -/
theorem Paging.run_calm {tr : List (Call × Outcome)} {c : Cursor} {σ : Cursor × Schedule FetchError}
    (hP : c.Pages R) (hnl : ¬ c.Lost) (hpos : c.pos = 0) (h : Run Step (c, Schedule.calm) tr σ) :
    Paging R tr σ ∧ ¬ σ.1.Lost ∧ σ.2 = Schedule.calm := by
  refine h.invariant (I := fun tr σ => Paging R tr σ ∧ ¬ σ.1.Lost ∧ σ.2 = Schedule.calm)
    ⟨Paging.of_fresh hP hpos _, hnl, rfl⟩ ?_
  rintro tr ⟨c, s⟩ l σ' ⟨hI, hnl, hcalm⟩ hs
  obtain rfl : s = Schedule.calm := hcalm
  exact hI.step_calm hnl hs

end

end Cursor

end RoaringRange
