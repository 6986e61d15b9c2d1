import RoaringRange.Paging
import RoaringRange.SortCols

/-!
# Paging in a secondary rank order (`secondary.rs`)

A secondary index is a second text index whose doc ids are the ranks of another order, and a column that holds the
primary id of each rank.  Its cursor pages the text index and maps each page through the column.  `next` moves the
text cursor first and gathers afterwards, so a page whose gather fails is never handed out.

    no gather of a page fails, no tail is reloaded →
      the pages handed out are the column over a first segment of the result            (secondary_pages)
-/

namespace RoaringRange

open ByteString Faults Slices Runs

def permColumn : String := "primary"

structure SecondaryIndex where
  index : Index
  perm : SortCols
  permCol : Nat
  facets : Option FacetIndex

structure SecondaryCursor where
  inner : Cursor
  perm : SortCols
  permCol : Nat

abbrev SecondaryM (α : Type) := Method SecondaryCursor FetchError IndexError α

namespace SecondaryCursor

/-- A method of the text cursor. -/
def onInner {α : Type} (x : CursorM α) : SecondaryM α := fun c s =>
  (((x.call c.inner s).1.1, { c with inner := (x.call c.inner s).1.2 }), (x.call c.inner s).2)

section

variable [Roaring]

def next (n : Nat) : SecondaryM (List Nat) := do
  let secondary ← onInner (Cursor.next n)
  let c ← get
  perform (c.perm.valuesU32 c.permCol secondary)

def page (offset limit : Nat) : SecondaryM (List Nat) := do
  let secondary ← onInner (Cursor.page offset limit)
  let c ← get
  perform (c.perm.valuesU32 c.permCol secondary)

/-- `SecondaryCursor::load_tail`, the first `fuel` passes of its loop. -/
def loadTail (fuel : Nat) (c : SecondaryCursor) (s : Schedule FetchError) :
    Option ((Except IndexError Unit × SecondaryCursor) × Schedule FetchError) :=
  (Cursor.loadTail fuel c.inner s).map fun r => ((r.1.1, { c with inner := r.1.2 }), r.2)

end

end SecondaryCursor

namespace SecondaryIndex

def «open» (rrs perm : MemoryFetch) : Io SecondaryIndex := do
  let index ← Index.open rrs
  let perm ← SortCols.open perm
  match perm.columnIndex permColumn with
  | none => ofOutcome (.error (.malformed "secondary perm store missing the 'primary' column"))
  | some permCol => pure ⟨index, perm, permCol, none⟩

/-- The filter of a search: none without a sidecar or without selections. -/
def resolved (si : SecondaryIndex) (filter : List (String × String)) : Option ResolvedFilter :=
  match si.facets with
  | some f => if filter.isEmpty then none else some (f.resolve filter)
  | none => none

def searchCursorFiltered [Roaring] [Unicode] (si : SecondaryIndex) (query : String) (maxMissing : Nat)
    (filter : List (String × String)) : Io SecondaryCursor := do
  let inner ← si.index.searchCursorFiltered query maxMissing (si.resolved filter)
  pure ⟨inner, si.perm, si.permCol⟩

end SecondaryIndex

/-! ## Calls and runs -/

namespace SecondaryCursor

section

variable [Roaring]

/-- The call comes back with an outcome and leaves the cursor (and the schedule) as said. -/
def Returns (call : Call) (c : SecondaryCursor) (s : Schedule FetchError) (o : Outcome) (c' : SecondaryCursor)
    (s' : Schedule FetchError) : Prop :=
  match call with
  | .next n => (next n).call c s = ((o, c'), s')
  | .page offset limit => (page offset limit).call c s = ((o, c'), s')
  | .loadTail => ∃ fuel r, loadTail fuel c s = some ((r, c'), s') ∧ o = r.map fun _ => []

/-- One call of a run. -/
def Step (σ : SecondaryCursor × Schedule FetchError) (l : Call × Outcome) (σ' : SecondaryCursor × Schedule FetchError) :
    Prop :=
  Returns l.1 σ.1 σ.2 l.2 σ'.1 σ'.2

/-- No fault of the schedule falls on the gather of the page that `next` finds. -/
def GatherClear (c : SecondaryCursor) (s : Schedule FetchError) : Call → Prop
  | .next n => ∀ (ids : List Nat) (inner : Cursor) (s' : Schedule FetchError),
      (Cursor.next n).call c.inner s = ((.ok ids, inner), s') → ∀ i < c.perm.gatherReads c.permCol ids, s' i = none
  | _ => True

/-- Whether it is clear. -/
def gatherClear (c : SecondaryCursor) (s : Schedule FetchError) : Call → Bool
  | .next n =>
    match (Cursor.next n).call c.inner s with
    | ((.ok ids, _), s') => (List.range (c.perm.gatherReads c.permCol ids)).all fun i => (s' i).isNone
    | ((.error _, _), _) => true
  | _ => true

theorem gatherClear_iff (c : SecondaryCursor) (s : Schedule FetchError) (call : Call) :
    gatherClear c s call = true ↔ GatherClear c s call := by
  cases call with
  | next n =>
    unfold gatherClear GatherClear
    rcases hr : (Cursor.next n).call c.inner s with ⟨⟨_ | ids, inner⟩, s'⟩
    · simp [hr]
    · simp only [hr, List.all_eq_true, List.mem_range, Option.isNone_iff_eq_none]
      constructor
      · intro h _ _ _ heq
        cases heq
        exact h
      · intro h
        exact h ids inner s' rfl
  | page offset limit => simp [gatherClear, GatherClear]
  | loadTail => simp [gatherClear, GatherClear]

instance (c : SecondaryCursor) (s : Schedule FetchError) (call : Call) : Decidable (GatherClear c s call) :=
  decidable_of_iff _ (gatherClear_iff c s call)

/-- One call that reloads no tail and whose gather is not met by a fault. -/
def CarefulStep (σ : SecondaryCursor × Schedule FetchError) (l : Call × Outcome)
    (σ' : SecondaryCursor × Schedule FetchError) : Prop :=
  Step σ l σ' ∧ ¬ σ.1.inner.Reloads l.1 ∧ GatherClear σ.1 σ.2 l.1

end

section

variable [Roaring]

/-- `next 1`, and `next 1` again. -/
def nextTwice (c : SecondaryCursor) (s : Schedule FetchError) :
    List (Call × Outcome) × SecondaryCursor × Schedule FetchError :=
  let r := (next 1).call c s
  let r' := (next 1).call r.1.2 r.2
  ([(.next 1, r.1.1), (.next 1, r'.1.1)], r'.1.2, r'.2)

theorem run_nextTwice (c : SecondaryCursor) (s : Schedule FetchError) :
    Run Step (c, s) (nextTwice c s).1 (nextTwice c s).2 := by
  have h₁ : Step (c, s) (.next 1, ((next 1).call c s).1.1) (((next 1).call c s).1.2, ((next 1).call c s).2) := rfl
  exact Run.step (Run.single h₁) rfl

/-- A call of `next` that is careful. -/
theorem carefulStep_next {n : Nat} {c : SecondaryCursor} {s : Schedule FetchError} (hnr : ¬ c.inner.Reloads (.next n))
    (hclear : GatherClear c s (.next n)) : CarefulStep (c, s) (.next n, ((next n).call c s).1.1)
      (((next n).call c s).1.2, ((next n).call c s).2) := ⟨rfl, hnr, hclear⟩

end

/-- The column holds a primary id for each of the docs. -/
structure PermHolds (perm : SortCols) (col : Nat) (info : ColInfo) (R : Bitmap) : Prop where
  column : perm.columns[col]? = some info
  u32 : info.valueType = .u32
  stored : perm.Stored info
  covers : ∀ d ∈ R, d < perm.rows

section

variable [Roaring] {R : Bitmap} {perm : SortCols} {col : Nat} {info : ColInfo}

/-- What holds after every call of a run: the text cursor pages its result, and what was handed out is the column over
the docs before its position. -/
structure Paging (R : Bitmap) (perm : SortCols) (col : Nat) (info : ColInfo) (tr : List (Call × Outcome))
    (σ : SecondaryCursor × Schedule FetchError) : Prop where
  pages : σ.1.inner.Pages R
  pos_le : σ.1.inner.pos ≤ σ.1.inner.loaded
  store : σ.1.perm = perm ∧ σ.1.permCol = col
  handed : Cursor.nextPages tr = (R.toList.take σ.1.inner.pos).map (perm.u32At info)

omit [Roaring] in
theorem call_onInner {α : Type} (x : CursorM α) (c : SecondaryCursor) (s : Schedule FetchError) :
    (onInner x).call c s = (((x.call c.inner s).1.1, { c with inner := (x.call c.inner s).1.2 }), (x.call c.inner s).2) :=
  rfl

omit [Roaring] in
/-- A call of the text cursor followed by the gather. -/
theorem call_gather (x : CursorM (List Nat)) (c : SecondaryCursor) (s : Schedule FetchError) :
    Method.call (do
      let secondary ← onInner x
      let c ← get
      perform (c.perm.valuesU32 c.permCol secondary) : SecondaryM (List Nat)) c s =
      match x.call c.inner s with
      | ((.ok ids, inner), s') =>
        (((((c.perm.valuesU32 c.permCol ids).run s').1), { c with inner := inner }), ((c.perm.valuesU32 c.permCol ids).run s').2)
      | ((.error e, inner), s') => ((.error e, { c with inner := inner }), s') := by
  rw [call_bind, call_onInner]
  rcases x.call c.inner s with ⟨⟨_ | ids, inner⟩, s'⟩
  · rfl
  · simp only [call_bind, call_get, call_perform]

omit [Roaring] in
/-- The docs of a page are docs of the result. -/
theorem mem_of_page {ids : List Nat} {pos pos' : Nat} (h : R.toList.take pos ++ ids = R.toList.take pos') :
    ∀ d ∈ ids, d ∈ R := by
  intro d hd
  have hmem : d ∈ R.toList.take pos' := by
    rw [← h]
    exact List.mem_append_right _ hd
  exact AscSet.mem_toList.mp (List.mem_of_mem_take hmem)

/-- A call that is careful keeps all of it. -/
theorem Paging.step {tr : List (Call × Outcome)} {σ σ' : SecondaryCursor × Schedule FetchError} {l : Call × Outcome}
    (hperm : PermHolds perm col info R) (h : Paging R perm col info tr σ) (hs : CarefulStep σ l σ') :
    Paging R perm col info (tr ++ [l]) σ' := by
  obtain ⟨c, s⟩ := σ
  obtain ⟨c', s'⟩ := σ'
  obtain ⟨call, o⟩ := l
  obtain ⟨hret, hcare, hclear⟩ := hs
  obtain ⟨hpages, hpos, ⟨hp, hcol⟩, hhanded⟩ := h
  have hl : c.inner.Lost → call.need c.inner ≤ c.inner.loaded := fun hlost => Nat.not_lt.mp fun hlt => hcare ⟨hlost, hlt⟩
  simp only at hpages hpos hp hcol hhanded
  cases call with
  | next n =>
    obtain ⟨m, o', inner, hcall, hpages', -, hpos', hout⟩ := Cursor.next_pages hpages hpos hl s
    have heq : (next n).call c s = ((o, c'), s') := hret
    rw [next, call_gather, hcall] at heq
    rcases hout with ⟨ids, rfl, -, hids, -⟩ | ⟨e, -, rfl, hsame⟩
    · -- the gather meets no fault, so it is the column over the page
      have hgather := SortCols.valuesU32_clear (hclear ids inner _ hcall)
      have hsettles := SortCols.settles_valuesU32 hperm.column hperm.u32 hperm.stored
        fun d hd => hperm.covers d (mem_of_page hids d hd)
      rw [hp, hcol, hsettles.calm] at hgather
      simp only [hp, hcol, hgather, Prod.mk.injEq] at heq
      obtain ⟨⟨rfl, rfl⟩, -⟩ := heq
      refine ⟨hpages', hpos', ⟨rfl, rfl⟩, ?_⟩
      show _ = (R.toList.take inner.pos).map _
      rw [← hids, List.map_append, ← hhanded, Cursor.nextPages, List.flatMap_append]
      simp [Cursor.nextPages]
    · simp only [Prod.mk.injEq] at heq
      obtain ⟨⟨rfl, rfl⟩, -⟩ := heq
      refine ⟨hpages', hpos', ⟨hp, hcol⟩, ?_⟩
      show _ = (R.toList.take inner.pos).map _
      rw [hsame, ← hhanded, Cursor.nextPages, List.flatMap_append]
      simp [Cursor.nextPages]
  | page offset limit =>
    obtain ⟨m, o', inner, hcall, hpages', hext, -⟩ := Cursor.page_pages hpages hl s
    have heq : (page offset limit).call c s = ((o, c'), s') := hret
    rw [page, call_gather, hcall] at heq
    have hc' : c' = { c with inner := inner } := by
      cases o' with
      | error e => exact (congrArg (fun r => r.1.2) heq).symm
      | ok ids => exact (congrArg (fun r => r.1.2) heq).symm
    subst hc'
    refine ⟨hpages', ?_, ⟨hp, hcol⟩, ?_⟩
    · show inner.pos ≤ inner.loaded
      rw [hext.pos_eq]
      exact Nat.le_trans hpos hext.results.length_le
    · show _ = (R.toList.take inner.pos).map _
      rw [hext.pos_eq, ← hhanded, Cursor.nextPages, List.flatMap_append]
      simp [Cursor.nextPages]
  | loadTail =>
    obtain ⟨fuel, r, hload, rfl⟩ := hret
    obtain ⟨⟨⟨r', inner⟩, s₁⟩, hinner, heq⟩ := Option.map_eq_some_iff.mp hload
    simp only [Prod.mk.injEq] at heq
    obtain ⟨⟨rfl, rfl⟩, rfl⟩ := heq
    have hnl : ¬ c.inner.Lost := fun hlost => by
      have h1 := hl hlost
      have h2 : c.inner.loaded < usizeMax := hpages.loaded_lt
      simp only [Call.need] at h1
      omega
    obtain ⟨hext, hpages', -, -, -⟩ := Cursor.loadTail_pages fuel c.inner s hpages (fun hx => hnl hx.2) hinner
    refine ⟨hpages', ?_, ⟨hp, hcol⟩, ?_⟩
    · show inner.pos ≤ inner.loaded
      rw [hext.pos_eq]
      exact Nat.le_trans hpos hext.results.length_le
    · show _ = (R.toList.take inner.pos).map _
      rw [hext.pos_eq, ← hhanded, Cursor.nextPages, List.flatMap_append]
      simp [Cursor.nextPages]

/-- Careful runs from a cursor that has handed out nothing. -/
theorem Paging.run {tr : List (Call × Outcome)} {c : SecondaryCursor} {s : Schedule FetchError}
    {σ : SecondaryCursor × Schedule FetchError} (hperm : PermHolds c.perm c.permCol info R) (hpages : c.inner.Pages R)
    (hpos : c.inner.pos = 0) (h : Run CarefulStep (c, s) tr σ) : Paging R c.perm c.permCol info tr σ := by
  refine h.invariant (I := Paging R c.perm c.permCol info) ?_ fun _ _ _ _ => Paging.step hperm
  refine ⟨hpages, ?_, ⟨rfl, rfl⟩, ?_⟩
  · show c.inner.pos ≤ _
    rw [hpos]
    exact Nat.zero_le _
  · show _ = (R.toList.take c.inner.pos).map _
    rw [hpos]
    rfl

end

end SecondaryCursor

section

variable [Roaring] [Unicode] {si : SecondaryIndex} {query : String} {maxMissing : Nat}
  {filter : List (String × String)} {H T : FilterSets} {info : ColInfo}

/-- **The pages are the column over the result, in order**: in a run that reloads no tail and in which no gather is met
by a fault, whatever else fails. -/
theorem SecondaryIndex.secondary_pages (hw : si.index.WellFormed) (hf : FilterHolds (si.resolved filter) H T)
    (hperm : SecondaryCursor.PermHolds si.perm si.permCol info (si.index.paged query maxMissing H T))
    {c : SecondaryCursor} {s s' : Schedule FetchError}
    (hopen : (si.searchCursorFiltered query maxMissing filter).run s = (.ok c, s'))
    {tr : List (Call × Outcome)} {σ : SecondaryCursor × Schedule FetchError}
    (hrun : Run SecondaryCursor.CarefulStep (c, s') tr σ) :
    Cursor.nextPages tr =
      ((si.index.paged query maxMissing H T).toList.take σ.1.inner.pos).map (si.perm.u32At info) := by
  obtain ⟨inner, hinner, rfl⟩ : ∃ inner,
      ((si.index.searchCursorFiltered query maxMissing (si.resolved filter)).run s).1 = .ok inner ∧
        c = ⟨inner, si.perm, si.permCol⟩ := by
    rw [searchCursorFiltered, run_bind] at hopen
    rcases hr : (si.index.searchCursorFiltered query maxMissing (si.resolved filter)).run s with ⟨o, s₁⟩
    rw [hr] at hopen
    cases o with
    | error e => cases hopen
    | ok inner =>
      cases hopen
      exact ⟨inner, rfl, rfl⟩
  have hc : inner = si.index.cursorFor query maxMissing (si.resolved filter) H := by
    have := (Index.settles_searchCursorFiltered hw hf).eq_of_ok hinner
    exact (Except.ok.inj this).symm
  obtain ⟨hP, -, hpos⟩ := @Index.cursorFor_pages _ _ _ _ _ si.index query maxMissing hw hf
  rw [← hc] at hP hpos
  exact (SecondaryCursor.Paging.run hperm hP hpos hrun).handed

end

/-! ## A read of the gather fails -/

/-- The docs 0 and 1. -/
def docs01 : Bitmap := ⟨[0, 1], by decide, by decide⟩

/-- A column of the primary ids 7 and 9, at the start of its file. -/
def permStore : SortCols :=
  ⟨MemoryFetch.new [7, 0, 0, 0, 9, 0, 0, 0], 2, [⟨permColumn, .u32, 0⟩]⟩

section

attribute [local instance] PortableCodec.roaring asciiUnicode

/-- The index of the key `abc` over the docs 0 and 1, in the secondary order. -/
def abcSecondary : SecondaryIndex := ⟨abcIndex docs01, permStore, 0, none⟩

/-- The read at an index fails. -/
def failsAt (k : Nat) : Schedule FetchError := fun i => if i = k then some (.transport "connection reset") else none

/-- The third read is the gather of the first page.  The call that fails has moved on, and the next one returns the
second doc. -/
theorem page_skipped : ∃ c s' tr σ,
    (abcSecondary.searchCursorFiltered "abc" 0 []).run (failsAt 2) = (.ok c, s') ∧
      Run SecondaryCursor.Step (c, s') tr σ ∧ tr.map Prod.fst = [.next 1, .next 1] ∧ Cursor.nextPages tr = [9] ∧
      ¬ Cursor.nextPages tr <+: (abcSecondary.index.paged "abc" 0 ⟨[], []⟩ ⟨[], []⟩).toList.map
        (abcSecondary.perm.u32At ⟨permColumn, .u32, 0⟩) := by
  have hrun : (match (abcSecondary.searchCursorFiltered "abc" 0 []).run (failsAt 2) with
      | (.ok c, s') => decide (Cursor.nextPages (SecondaryCursor.nextTwice c s').1 = [9])
      | (.error _, _) => false) = true := by decide +kernel
  have hpaged : (abcSecondary.index.paged "abc" 0 ⟨[], []⟩ ⟨[], []⟩).toList = [0, 1] := by
    have hexact : (abcIndex docs01).paged "abc" 0 ⟨[], []⟩ ⟨[], []⟩ = docs01 := by
      rw [Index.paged_eq_exact_iff.mpr (Index.sidesAgree_none _ _ _), Index.exact, abcIndex_candidates]
      exact AscSet.filter_true _
    exact congrArg AscSet.toList hexact
  cases hopen : (abcSecondary.searchCursorFiltered "abc" 0 []).run (failsAt 2) with
  | mk o s' =>
    rw [hopen] at hrun
    cases o with
    | error e => exact absurd hrun (by simp)
    | ok c =>
      have hpages : Cursor.nextPages (SecondaryCursor.nextTwice c s').1 = [9] := of_decide_eq_true hrun
      refine ⟨c, s', _, _, rfl, SecondaryCursor.run_nextTwice c s', rfl, hpages, ?_⟩
      rw [hpages, hpaged]
      decide

/-- The fourth read is of the tail, which the second call asks for: the call fails, and the third goes on with the doc that
was due. -/
theorem secondary_pages_fourthFails : ∃ c s' tr σ,
    (abcSecondary.searchCursorFiltered "abc" 0 []).run (failsAt 3) = (.ok c, s') ∧
      Run SecondaryCursor.CarefulStep (c, s') tr σ ∧ tr.map (fun l => l.2.toOption) = [some [7], none, some [9]] ∧
      Cursor.nextPages tr = ((abcSecondary.index.paged "abc" 0 ⟨[], []⟩ ⟨[], []⟩).toList.take σ.1.inner.pos).map
        (abcSecondary.perm.u32At ⟨permColumn, .u32, 0⟩) := by
  have hrun : (match (abcSecondary.searchCursorFiltered "abc" 0 []).run (failsAt 3) with
      | (.ok c, s') =>
        let p := (SecondaryCursor.next 1).call c s'
        let q := (SecondaryCursor.next 2).call p.1.2 p.2
        let r := (SecondaryCursor.next 2).call q.1.2 q.2
        decide ((¬ c.inner.Reloads (.next 1) ∧ SecondaryCursor.GatherClear c s' (.next 1)) ∧
          (¬ p.1.2.inner.Reloads (.next 2) ∧ SecondaryCursor.GatherClear p.1.2 p.2 (.next 2)) ∧
          (¬ q.1.2.inner.Reloads (.next 2) ∧ SecondaryCursor.GatherClear q.1.2 q.2 (.next 2)) ∧
          [p.1.1.toOption, q.1.1.toOption, r.1.1.toOption] = [some [7], none, some [9]])
      | (.error _, _) => false) = true := by decide +kernel
  have hperm : SecondaryCursor.PermHolds abcSecondary.perm abcSecondary.permCol ⟨permColumn, .u32, 0⟩
      (abcSecondary.index.paged "abc" 0 ⟨[], []⟩ ⟨[], []⟩) := by
    refine ⟨rfl, rfl, ⟨by decide, ?_⟩, fun d hd => ?_⟩
    · exact MemoryFetch.inFile_new (by decide) (by decide)
    · have hd' : d ∈ (abcIndex docs01).candidates "abc" 0 := (AscSet.mem_filter.mp hd).1
      rw [abcIndex_candidates] at hd'
      revert d
      decide
  have hfilter : FilterHolds (abcSecondary.resolved []) ⟨[], []⟩ ⟨[], []⟩ := filterHolds_none
  cases hopen : (abcSecondary.searchCursorFiltered "abc" 0 []).run (failsAt 3) with
  | mk o s' =>
    rw [hopen] at hrun
    cases o with
    | error e => exact absurd hrun (by simp)
    | ok c =>
      obtain ⟨⟨hr₁, hg₁⟩, ⟨hr₂, hg₂⟩, ⟨hr₃, hg₃⟩, hpages⟩ := of_decide_eq_true hrun
      have hfirst := Run.single (SecondaryCursor.carefulStep_next hr₁ hg₁)
      have hall := (hfirst.step (SecondaryCursor.carefulStep_next hr₂ hg₂)).step (SecondaryCursor.carefulStep_next hr₃ hg₃)
      exact ⟨c, s', _, _, rfl, hall, hpages, SecondaryIndex.secondary_pages (abcIndex_wellFormed docs01)
        hfilter hperm hopen hall⟩

end

end RoaringRange
