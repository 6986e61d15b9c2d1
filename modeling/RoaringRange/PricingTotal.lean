import RoaringRange.ExactFetch
import RoaringRange.FacetDigest
import RoaringRange.PortableCodec

/-!
# Pricing from a digest of any bytes (`facet.rs`)

A digest travels in the manifest, so its offsets are anyone's.  `countCategoriesChecked` is the pricing of
`FacetIndex::count_categories_batched` with every sum, index and slice an operation that may trap, over a fetcher that
answers anything of the right length; the parts that only choose between values are shared with the pricing of an
honest sidecar.

The offset of a tail is used before a read could reject it.  A resident directory leads straight to the third wave,
whose sums are `tail_off + start`, the end of the span before with its gap, and the end of a container that the span
grows over (`PlacesFit`).  A directory that was fetched is checked against the tail's length only, not where the
tail begins.

    no pricing of any result over any fetcher traps ↔ every category's tail fits          (pricesSafely_iff)
-/

namespace RoaringRange

open ByteString Faults Slices Checked

/-! ## Pricing with traps -/

/-- `&self.fields[t.0].categories[t.1]`. -/
def categoryChecked (fields : List Field) (t : Nat × Nat) : Except (Abort IndexError) Category := do
  let field ← get fields t.1
  get field.categories t.2

/-- A category with what the first wave read for it: `&wave_a[2 * i]` and `&wave_a[2 * i + 1]`. -/
def readOf (bytesA : List Bytes) (x : Category × Nat) : Except (Abort IndexError) (Category × (Bytes × Bytes)) := do
  let headBytes ← get bytesA (2 * x.2)
  let pre ← get bytesA (2 * x.2 + 1)
  pure (x.1, (headBytes, pre))

section

variable [Roaring]

/-- A category after the second wave. -/
def waveBChecked (f : ExactFetch) (result : Bitmap) (tailKeys : List Nat) (bodies : List Bytes) (c : Category)
    (p : Pricing) : OracleIo Pricing :=
  match p.tail with
  | .refetch wb whole => do
    let bytes ← outcome (get bodies wb)
    if whole then do
      let tail ← outcome (lift (postingBitmap bytes "RRSF tail posting"))
      pure ⟨p.count + (result ∩ tail).len, .done⟩
    else
      match parseDir bytes c.range.tailSize with
      | some dir => pure ⟨p.count, .containers (neededOf dir tailKeys)⟩
      | none => do
        let raw ← f.read c.range.tailOff c.range.tailSize
        let tail ← outcome (lift (postingBitmap raw "RRSF tail posting"))
        pure ⟨p.count + (result ∩ tail).len, .done⟩
  | _ => pure p

end

/-- Places a container: only the category's own last span may grow over a gap. -/
def placeBodyChecked (off : Nat) (st : BodyPlan) (c : Container) : Except (Abort IndexError) BodyPlan := do
  let abs ← add u64Bound off c.start
  let fresh : BodyPlan :=
    ⟨st.spans ++ [(abs, c.len)], some st.spans.length, st.locs ++ [(st.spans.length, 0)]⟩
  match st.myLast with
  | none => pure fresh
  | some li => do
    let sp ← get st.spans li
    let stop ← add u64Bound sp.1 sp.2
    let reach ← add u64Bound stop intraCategoryGap
    if abs ≤ reach then do
      let newEnd ← add u64Bound abs c.len
      let len ← if stop < newEnd then sub newEnd sp.1 else pure sp.2
      let rel ← sub abs sp.1
      pure ⟨st.spans.set li (sp.1, len), some li, st.locs ++ [(li, rel)]⟩
    else pure fresh

def planBodiesChecked (spans : List (Nat × Nat)) (c : Category) (p : Pricing) :
    Except (Abort IndexError) (List (Nat × Nat) × List (Nat × Nat)) :=
  match p.tail with
  | .containers needed => do
    let st ← needed.foldlM (placeBodyChecked c.range.tailOff) ⟨spans, none, []⟩
    pure (st.spans, st.locs)
  | _ => pure (spans, [])

def planBodiesAllChecked (spans : List (Nat × Nat)) :
    List (Category × Pricing) → Except (Abort IndexError) (List (Nat × Nat) × List (List (Nat × Nat)))
  | [] => pure (spans, [])
  | x :: xs => do
    let st ← planBodiesChecked spans x.1 x.2
    let rest ← planBodiesAllChecked st.1 xs
    pure (rest.1, st.2 :: rest.2)

/-- A container with its body: `&bodies[si][rel..rel + c.len]`. -/
def frameBodyChecked (bodies : List Bytes) (x : Container × (Nat × Nat)) : Except (Abort IndexError) FramedContainer := do
  let body ← get bodies x.2.1
  let stop ← add u64Bound x.2.2 x.1.len
  let b ← range body x.2.2 stop
  pure ⟨x.1.key, x.1.card, b⟩

section

variable [Roaring]

def finishPricingChecked (result : Bitmap) (bodies : List Bytes) (x : Pricing × List (Nat × Nat)) :
    Except (Abort IndexError) Nat :=
  match x.1.tail with
  | .containers needed =>
    if needed.isEmpty then pure x.1.count
    else do
      let sel ← (needed.zip x.2).mapM (frameBodyChecked bodies)
      let bm ← lift (deserialize (assemble sel))
      pure (x.1.count + (result ∩ bm).len)
  | _ => pure x.1.count

/-- `FacetIndex::count_categories_batched`, without its record of what the waves read. -/
def countCategoriesChecked (f : ExactFetch) (fields : List Field) (targets : List (Nat × Nat)) (result : Bitmap)
    (headNeeded : Bool) (tailKeys : List Nat) : OracleIo (List Nat) := do
  let cats ← outcome (targets.mapM (categoryChecked fields))
  let bytesA ← readCoalescedChecked f (cats.flatMap (waveARanges headNeeded tailKeys)) pricingGap
  let reads ← outcome (cats.zipIdx.mapM (readOf bytesA))
  let (pricings, rangesB) ← outcome (lift (waveAAll result tailKeys 0 reads))
  let bytesB ← readCoalescedChecked f rangesB pricingGap
  let pricings ← (cats.zip pricings).mapM fun x => waveBChecked f result tailKeys bytesB x.1 x.2
  let (spans, locs) ← outcome (planBodiesAllChecked [] (cats.zip pricings))
  let bodies ← readCoalescedChecked f spans pricingGap
  outcome ((pricings.zip locs).mapM (finishPricingChecked result bodies))

end

/-! ## Where the third wave fits -/

/-- The sums for the containers of a tail at `off`: where each begins, and from the second on how far the one before
reaches over the gap and, where that is far enough, where this one ends. -/
def PlacesFit (off : Nat) : Option Nat → List Container → Prop
  | _, [] => True
  | prev, c :: cs => off + c.start < u64Bound ∧
    (∀ p ∈ prev, off + p + intraCategoryGap < u64Bound ∧
      (c.start ≤ p + intraCategoryGap → off + c.start + c.len < u64Bound)) ∧
    PlacesFit off (some (c.start + c.len)) cs

/-- What is asked of a tail that is too long to be read whole.  With a resident directory its containers must fit,
whichever the result needs; without one the tail's first bytes must be out of reach, or all of it must be far from
the end of the address space. -/
def TailFits (c : Category) : Prop :=
  headerPrefix < c.range.tailSize →
    match c.tailDir with
    | some dir => PlacesFit c.range.tailOff none (dir.filter fun d => decide (d.key ≠ 0))
    | none => u64Bound ≤ c.range.tailOff + headerPrefix ∨
        c.range.tailOff + c.range.tailSize + intraCategoryGap < u64Bound

section

variable {off pos total : Nat} {prev prev' : Option Nat} {cs cs' : List Container}

/-- A choice of the containers fits where all of them do. -/
theorem PlacesFit.sublist (h : PlacesFit off prev cs) (ht : Tiled pos cs) (hprev : ∀ p ∈ prev', p ≤ pos)
    (hle : ∀ p ∈ prev', ∀ q ∈ prev, p ≤ q) (hs : cs'.Sublist cs) (hsome : prev'.isSome → prev.isSome) :
    PlacesFit off prev' cs' := by
  induction hs generalizing pos prev prev' with
  | slnil => trivial
  | @cons cs' cs c _ ih =>
    obtain ⟨hstart, -, hrest⟩ := h
    refine ih hrest ht.2 (fun p hp => ?_) (fun p hp q hq => ?_) fun _ => rfl
    · have := hprev p hp
      have := ht.1
      omega
    · obtain rfl := Option.mem_some_iff.mp hq
      have := hprev p hp
      have := ht.1
      omega
  | @cons_cons cs' cs c _ ih =>
    obtain ⟨hstart, hbefore, hrest⟩ := h
    refine ⟨hstart, fun p hp => ?_, ih hrest ht.2 (fun p hp => ?_) (fun p hp q hq => ?_) fun _ => rfl⟩
    · obtain ⟨q, rfl⟩ := Option.isSome_iff_exists.mp (hsome (Option.isSome_of_mem hp))
      obtain ⟨hgap, hgrow⟩ := hbefore q rfl
      have hpq := hle p hp q rfl
      exact ⟨by omega, fun hnear => hgrow (by omega)⟩
    · obtain rfl := Option.mem_some_iff.mp hp
      exact Nat.le_refl _
    · obtain rfl := Option.mem_some_iff.mp hp
      obtain rfl := Option.mem_some_iff.mp hq
      exact Nat.le_refl _

/-- Containers of a tail that is far from the end of the address space. -/
theorem placesFit_of_far (h : off + total + intraCategoryGap < u64Bound) (hend : ∀ c ∈ cs, c.start + c.len ≤ total)
    (hprev : ∀ p ∈ prev, p ≤ total) : PlacesFit off prev cs := by
  induction cs generalizing prev with
  | nil => trivial
  | cons c cs ih =>
    have hc := hend c List.mem_cons_self
    refine ⟨by omega, fun p hp => ?_, ih (fun d hd => hend d (List.mem_cons_of_mem _ hd)) fun p hp => ?_⟩
    · have := hprev p hp
      exact ⟨by omega, fun _ => by omega⟩
    · obtain rfl := Option.mem_some_iff.mp hp
      exact hc

theorem Closed.tiled (h : Closed total cs) : ∃ pos, Tiled pos cs := by
  induction cs with
  | nil => exact ⟨0, trivial⟩
  | cons c cs ih =>
    obtain ⟨hstop, -, hrest⟩ := h
    refine ⟨c.start, Nat.le_refl _, ?_⟩
    cases cs with
    | nil => trivial
    | cons d ds =>
      obtain ⟨pos, -, htiled⟩ := ih hrest
      refine ⟨Nat.le_of_eq hstop, htiled⟩

theorem Closed.end_le (h : Closed total cs) : ∀ c ∈ cs, c.start + c.len ≤ total := by
  induction cs with
  | nil => exact fun c hc => absurd hc List.not_mem_nil
  | cons c cs ih =>
    intro d hd
    rcases List.mem_cons.mp hd with rfl | hd
    · exact h.2.1
    · exact ih h.2.2 d hd

end

/-! ## Placing containers -/

/-- The plan for the containers of a tail, `placed` so far: each is where it was placed, and the tail's own last span
ends where the last of them does, at `prev`. -/
structure Placing (off : Nat) (spans : List (Nat × Nat)) (prev : Option Nat) (placed : List Container) (st : BodyPlan) :
    Prop where
  none_last : prev = none → st.myLast = none
  last : ∀ p ∈ prev, ∃ li sp, st.myLast = some li ∧ st.spans[li]? = some sp ∧ sp.1 + sp.2 = off + p
  locs : List.Forall₂ (Placed st.spans off) placed st.locs
  grown : Grown spans st.spans

section

variable {off pos : Nat} {spans : List (Nat × Nat)} {prev : Option Nat} {placed cs : List Container} {st : BodyPlan}
  {c : Container}

/-- A container with a span of its own. -/
theorem Placing.fresh (h : Placing off spans prev placed st) (c : Container) :
    Placing off spans (some (c.start + c.len)) (placed ++ [c])
      ⟨st.spans ++ [(off + c.start, c.len)], some st.spans.length, st.locs ++ [(st.spans.length, 0)]⟩ := by
  refine ⟨fun hnone => (by cases hnone), fun p hp => ?_, ?_, h.grown.trans (Grown.append _ _)⟩
  · obtain rfl := Option.mem_some_iff.mp hp
    refine ⟨st.spans.length, (off + c.start, c.len), rfl, by simp, ?_⟩
    simp only
    omega
  · refine List.rel_append (h.locs.imp fun _ _ h => h.grown (Grown.append _ _)) (List.Forall₂.cons ?_ .nil)
    exact ⟨(off + c.start, c.len), by simp, rfl, by simp only; omega⟩

/-- A container over which the tail's last span grows. -/
theorem Placing.grow (h : Placing off spans prev placed st) {li p : Nat} {sp : Nat × Nat} (hsp : st.spans[li]? = some sp)
    (hend : sp.1 + sp.2 = off + p) (hpos : p ≤ c.start) :
    Placing off spans (some (c.start + c.len)) (placed ++ [c])
      ⟨st.spans.set li (sp.1, off + c.start + c.len - sp.1), some li, st.locs ++ [(li, off + c.start - sp.1)]⟩ := by
  have hgrown : Grown st.spans (st.spans.set li (sp.1, off + c.start + c.len - sp.1)) := Grown.set hsp (by omega)
  have hself : (st.spans.set li (sp.1, off + c.start + c.len - sp.1))[li]? = some (sp.1, off + c.start + c.len - sp.1) :=
    List.getElem?_set_self (List.getElem?_eq_some_iff.mp hsp).1
  refine ⟨fun hnone => (by cases hnone), fun q hq => ?_, ?_, h.grown.trans hgrown⟩
  · obtain rfl := Option.mem_some_iff.mp hq
    refine ⟨li, _, rfl, hself, ?_⟩
    simp only
    omega
  · refine List.rel_append (h.locs.imp fun _ _ h => h.grown hgrown) (List.Forall₂.cons ?_ .nil)
    exact ⟨_, hself, by simp only; omega, by simp only; omega⟩

/-- A container whose sums fit is placed. -/
theorem placeBodyChecked_ok (h : Placing off spans prev placed st) (hprev : ∀ p ∈ prev, p ≤ c.start)
    (hstart : off + c.start < u64Bound)
    (hfit : ∀ p ∈ prev, off + p + intraCategoryGap < u64Bound ∧
      (c.start ≤ p + intraCategoryGap → off + c.start + c.len < u64Bound)) :
    ∃ st', placeBodyChecked off st c = .ok st' ∧
      Placing off spans (some (c.start + c.len)) (placed ++ [c]) st' := by
  unfold placeBodyChecked
  rw [add_ok hstart]
  simp only [ok_bind]
  cases prev with
  | none =>
    rw [h.none_last rfl]
    exact ⟨_, rfl, h.fresh c⟩
  | some p =>
    obtain ⟨li, sp, hli, hsp, hend⟩ := h.last p rfl
    obtain ⟨hgap, hgrow⟩ := hfit p rfl
    have hp := hprev p rfl
    rw [hli]
    simp only
    rw [get_ok hsp, ok_bind, add_ok (by omega), ok_bind, hend, add_ok hgap, ok_bind]
    split
    · next hnear =>
      have hnew := hgrow (by omega)
      rw [add_ok hnew, ok_bind]
      split
      · rw [sub_ok (by omega), ok_bind, sub_ok (by omega), ok_bind]
        exact ⟨_, rfl, h.grow hsp hend hp⟩
      · have hlen : sp.2 = off + c.start + c.len - sp.1 := by omega
        rw [pure_bind, sub_ok (by omega), ok_bind, hlen]
        exact ⟨_, rfl, h.grow hsp hend hp⟩
    · exact ⟨_, rfl, h.fresh c⟩

/-- A container one of whose sums does not fit is not. -/
theorem placeBodyChecked_trap (h : Placing off spans prev placed st)
    (hnot : ¬ (off + c.start < u64Bound ∧ ∀ p ∈ prev, off + p + intraCategoryGap < u64Bound ∧
      (c.start ≤ p + intraCategoryGap → off + c.start + c.len < u64Bound))) :
    placeBodyChecked off st c = .error (.trap .overflow) := by
  unfold placeBodyChecked
  by_cases hstart : off + c.start < u64Bound
  · rw [add_ok hstart]
    simp only [ok_bind]
    cases prev with
    | none => exact absurd ⟨hstart, fun p hp => absurd hp (by simp)⟩ hnot
    | some p =>
      obtain ⟨li, sp, hli, hsp, hend⟩ := h.last p rfl
      rw [hli]
      simp only
      rw [get_ok hsp, ok_bind]
      by_cases hstop : off + p < u64Bound
      · rw [add_ok (by omega), ok_bind, hend]
        by_cases hgap : off + p + intraCategoryGap < u64Bound
        · rw [add_ok hgap, ok_bind]
          have hgrow : c.start ≤ p + intraCategoryGap ∧ u64Bound ≤ off + c.start + c.len := by
            by_contra hok
            refine hnot ⟨hstart, fun q hq => ?_⟩
            obtain rfl := Option.mem_some_iff.mp hq
            exact ⟨hgap, fun hnear => Nat.lt_of_not_le fun hle => hok ⟨hnear, hle⟩⟩
          rw [if_pos (by omega), add_trap hgrow.2]
          rfl
        · rw [add_trap (Nat.not_lt.mp hgap)]
          rfl
      · rw [add_trap (by omega)]
        rfl
  · rw [add_trap (Nat.not_lt.mp hstart)]
    rfl

/-- **The containers of a tail are placed** where their sums fit. -/
theorem placeBodies_ok (h : Placing off spans prev placed st) (hfit : PlacesFit off prev cs) (ht : Tiled pos cs)
    (hprev : ∀ p ∈ prev, p ≤ pos) : ∃ st' last, cs.foldlM (placeBodyChecked off) st = .ok st' ∧
      Placing off spans last (placed ++ cs) st' := by
  induction cs generalizing st prev placed pos with
  | nil => exact ⟨st, prev, rfl, by simpa using h⟩
  | cons c cs ih =>
    obtain ⟨hstart, hbefore, hrest⟩ := hfit
    obtain ⟨st1, hst1, h1⟩ := placeBodyChecked_ok h (fun p hp => Nat.le_trans (hprev p hp) ht.1) hstart hbefore
    obtain ⟨st', last, hst', h'⟩ := ih h1 hrest ht.2 fun p hp => by
      obtain rfl := Option.mem_some_iff.mp hp
      exact Nat.le_refl _
    refine ⟨st', last, ?_, by simpa using h'⟩
    rw [List.foldlM_cons, hst1]
    exact hst'

/-- Where they do not fit, some sum overflows. -/
theorem placeBodies_trap (h : Placing off spans prev placed st) (hfit : ¬ PlacesFit off prev cs) (ht : Tiled pos cs)
    (hprev : ∀ p ∈ prev, p ≤ pos) : cs.foldlM (placeBodyChecked off) st = .error (.trap .overflow) := by
  induction cs generalizing st prev placed pos with
  | nil => exact absurd trivial hfit
  | cons c cs ih =>
    rw [List.foldlM_cons]
    by_cases hc : off + c.start < u64Bound ∧ ∀ p ∈ prev, off + p + intraCategoryGap < u64Bound ∧
        (c.start ≤ p + intraCategoryGap → off + c.start + c.len < u64Bound)
    · obtain ⟨st1, hst1, h1⟩ := placeBodyChecked_ok h (fun p hp => Nat.le_trans (hprev p hp) ht.1) hc.1 hc.2
      rw [hst1, ok_bind]
      refine ih h1 (fun hrest => hfit ⟨hc.1, hc.2, hrest⟩) ht.2 fun p hp => ?_
      obtain rfl := Option.mem_some_iff.mp hp
      exact Nat.le_refl _
    · rw [placeBodyChecked_trap h hc]
      rfl

end

/-! ## A category on its way -/

/-- A tail whose first bytes were read, and were not all of it. -/
structure Started (c : Category) : Prop where
  noDir : c.tailDir = none
  long : headerPrefix < c.range.tailSize
  reached : c.range.tailOff + headerPrefix < u64Bound

/-- What a category may wait for: one of `n` ranges of the second wave, or the containers it needs of a directory that
is resident or was read. -/
def Waits (keys : List Nat) (n : Nat) (c : Category) (p : Pricing) : Prop :=
  match p.tail with
  | .done => True
  | .refetch wb _ => wb < n ∧ Started c
  | .containers needed => ∃ dir, Closed c.range.tailSize dir ∧ needed = neededOf dir keys ∧
      ((c.tailDir = some dir ∧ headerPrefix < c.range.tailSize) ∨ Started c)

/-- What a digest says of a category. -/
structure Digested (c : Category) : Prop where
  head : c.head = ∅
  dir : ∀ dir, c.tailDir = some dir → Closed c.range.tailSize dir ∧ ∀ d ∈ dir, d.key < bucketSize
  tailSize_lt : c.range.tailSize < 2 ^ 32

section

variable {keys : List Nat} {c : Category} {p : Pricing}

theorem Waits.mono {n m : Nat} (h : Waits keys n c p) (hnm : n ≤ m) : Waits keys m c p := by
  unfold Waits at h ⊢
  split at h
  · trivial
  · exact ⟨Nat.lt_of_lt_of_le h.1 hnm, h.2⟩
  · exact h

/-- The containers a category waits for fit if its tail does. -/
theorem Waits.fits (hkeys : ∀ k ∈ keys, k ≠ 0) (hasc : keys.Pairwise (· < ·)) (hfits : TailFits c) {count : Nat}
    {needed : List Container} (h : Waits keys 0 c ⟨count, .containers needed⟩) :
    PlacesFit c.range.tailOff none needed ∧ ∃ pos, Tiled pos needed := by
  obtain ⟨dir, hclosed, rfl, hfrom⟩ := h
  obtain ⟨pos, ht⟩ := hclosed.tiled
  refine ⟨?_, pos, ht.filter⟩
  rcases hfrom with ⟨hdir, hlong⟩ | hstarted
  · have hall := hfits hlong
    rw [hdir] at hall
    refine hall.sublist ht.filter (by simp) (by simp) ?_ (by simp)
    -- the keys of a result are of buckets past the first
    have hsame : neededOf dir keys = neededOf (dir.filter fun d => decide (d.key ≠ 0)) keys := by
      unfold neededOf
      rw [List.filter_filter]
      refine List.filter_congr fun d _ => ?_
      cases hf : found keys d.key with
      | false => rfl
      | true =>
        have hne := hkeys d.key ((found_iff hasc).mp hf)
        simp [hne]
    rw [hsame]
    exact List.filter_sublist
  · rcases hfits' : c.tailDir with _ | dir'
    · have hall := hfits hstarted.long
      rw [hfits'] at hall
      have hreached := hstarted.reached
      rcases hall with hfar | hfar
      · omega
      · exact placesFit_of_far hfar (fun d hd => hclosed.end_le d (List.mem_of_mem_filter hd)) (by simp)
    · rw [hstarted.noDir] at hfits'
      cases hfits'

variable [Roaring] {result : Bitmap}

/-- A category after the first wave waits for what it asked the second one for. -/
theorem waveA_waits (hc : Digested c) {wb : Nat} {headBytes pre : Bytes} (hpre : Fetched (tailRequest keys c) pre)
    {ranges : List (Nat × Nat)} (h : waveA result keys wb c headBytes pre = .ok (p, ranges)) :
    Waits keys (wb + ranges.length) c p := by
  unfold waveA at h
  cases hhead : headBitmap c headBytes with
  | error e =>
    simp only [hhead, bind, Except.bind] at h
    cases h
  | ok head =>
    simp only [hhead, ok_bind] at h
    generalize (result ∩ head).len = count at h
    unfold waveATail at h
    simp only at h
    by_cases hres : useResident c = true
    · rw [if_pos hres] at h
      unfold useResident at hres
      rw [Bool.and_eq_true, decide_eq_true_eq] at hres
      obtain ⟨dir, hdir⟩ := Option.isSome_iff_exists.mp hres.1
      split at h
      · obtain ⟨rfl, rfl⟩ := Prod.mk.inj (Except.ok.inj h)
        refine ⟨dir, (hc.dir dir hdir).1, ?_, Or.inl ⟨hdir, hres.2⟩⟩
        rw [hdir, Option.getD_some]
      · obtain ⟨rfl, rfl⟩ := Prod.mk.inj (Except.ok.inj h)
        trivial
    · rw [if_neg hres] at h
      split at h
      · obtain ⟨rfl, rfl⟩ := Prod.mk.inj (Except.ok.inj h)
        trivial
      next hne =>
      split at h
      · cases hpost : postingBitmap pre "RRSF tail posting" with
        | error e =>
          simp only [hpost, bind, Except.bind] at h
          cases h
        | ok tail =>
          simp only [hpost, ok_bind] at h
          obtain ⟨rfl, rfl⟩ := Prod.mk.inj (Except.ok.inj h)
          trivial
      next hshort =>
      -- the first bytes came, and the tail goes on behind them
      have hstarted : Started c := by
        have hlen := hpre.length_eq
        have hbound := hpre.bound
        have hpos : pre.length ≠ 0 := fun hz => hne (List.isEmpty_iff.mpr (List.length_eq_zero_iff.mp hz))
        unfold tailRequest at hlen hbound
        split at hlen
        · next hneed =>
          rw [if_pos hneed] at hbound
          simp only at hlen hbound
          have hlong : headerPrefix < c.range.tailSize := by omega
          have hmin : min c.range.tailSize headerPrefix = headerPrefix := by omega
          rw [hmin] at hbound hlen
          refine ⟨?_, hlong, hbound (by omega)⟩
          by_contra hdir
          refine hres ?_
          unfold useResident
          rw [Bool.and_eq_true, decide_eq_true_eq]
          exact ⟨Option.isSome_iff_ne_none.mpr hdir, hlong⟩
        · exact absurd hlen hpos
      split at h
      · split at h
        · split at h
          · next dir hdir =>
            obtain ⟨rfl, rfl⟩ := Prod.mk.inj (Except.ok.inj h)
            exact ⟨dir, closed_of_entries fun i c hi => parseDir_entry hdir hi, rfl, Or.inr hstarted⟩
          · obtain ⟨rfl, rfl⟩ := Prod.mk.inj (Except.ok.inj h)
            exact ⟨Nat.lt_succ_self _, hstarted⟩
        · obtain ⟨rfl, rfl⟩ := Prod.mk.inj (Except.ok.inj h)
          exact ⟨Nat.lt_succ_self _, hstarted⟩
      · obtain ⟨rfl, rfl⟩ := Prod.mk.inj (Except.ok.inj h)
        exact ⟨Nat.lt_succ_self _, hstarted⟩

theorem waveAAll_waits {cats : List Category} (hcats : ∀ c ∈ cats, Digested c)
    {xs : List (Category × (Bytes × Bytes))}
    (hxs : List.Forall₂ (fun c x => x.1 = c ∧ Fetched (tailRequest keys c) x.2.2) cats xs) :
    ∀ {wb : Nat} {ps : List Pricing} {ranges : List (Nat × Nat)}, waveAAll result keys wb xs = .ok (ps, ranges) →
      List.Forall₂ (Waits keys (wb + ranges.length)) cats ps := by
  induction hxs with
  | nil =>
    intro wb ps ranges h
    obtain ⟨rfl, rfl⟩ := Prod.mk.inj (Except.ok.inj h)
    exact List.Forall₂.nil
  | @cons c x cats xs hx _ ih =>
    intro wb ps ranges h
    obtain ⟨rfl, hpre⟩ := hx
    unfold waveAAll at h
    cases hstep : waveA result keys wb x.1 x.2.1 x.2.2 with
    | error e =>
      simp only [hstep, bind, Except.bind] at h
      cases h
    | ok r =>
      obtain ⟨p, rs⟩ := r
      cases hrest : waveAAll result keys (wb + rs.length) xs with
      | error e =>
        simp only [hstep, hrest, bind, Except.bind] at h
        cases h
      | ok r' =>
        obtain ⟨ps', rest⟩ := r'
        simp only [hstep, hrest, bind, Except.bind] at h
        obtain ⟨rfl, rfl⟩ := Prod.mk.inj (Except.ok.inj h)
        have h1 := waveA_waits (hcats _ List.mem_cons_self) hpre hstep
        have h2 := ih (fun d hd => hcats d (List.mem_cons_of_mem _ hd)) hrest
        rw [List.length_append, ← Nat.add_assoc]
        exact List.Forall₂.cons (h1.mono (Nat.le_add_right _ _)) h2

/-- After the second wave a category is done or waits for containers. -/
theorem safe_waveB (f : ExactFetch) {bodies : List Bytes} (h : Waits keys bodies.length c p) :
    SafeFrom (Waits keys 0 c) (waveBChecked f result keys bodies c p) := by
  obtain ⟨count, tail⟩ := p
  unfold waveBChecked
  cases tail with
  | done => exact SafeFrom.pure trivial
  | containers needed => exact SafeFrom.pure h
  | refetch wb whole =>
    obtain ⟨hlt, hstarted⟩ := h
    simp only
    have hget : SafeFrom (fun _ => True) (outcome (get bodies wb) : OracleIo Bytes) :=
      SafeFrom.outcome (Safe.of_eq (get_ok (List.getElem?_eq_getElem hlt)) trivial)
    refine hget.bind fun bytes _ => ?_
    cases whole with
    | true =>
      rw [if_pos rfl]
      exact (SafeFrom.outcome (Safe.lift _)).bind fun tail _ => SafeFrom.pure trivial
    | false =>
      rw [if_neg (by decide)]
      split
      · next dir hdir =>
        exact SafeFrom.pure ⟨dir, closed_of_entries fun i c hi => parseDir_entry hdir hi, rfl, Or.inr hstarted⟩
      · refine (SafeFrom.read f _ _).bind fun raw _ => ?_
        exact (SafeFrom.outcome (Safe.lift _)).bind fun tail _ => SafeFrom.pure trivial

end

/-! ## The third wave -/

/-- The containers a category waits for are where they were placed. -/
def LocatedIn (spans : List (Nat × Nat)) (x : Category × Pricing) (locs : List (Nat × Nat)) : Prop :=
  ∀ needed, x.2.tail = .containers needed → List.Forall₂ (Placed spans x.1.range.tailOff) needed locs

theorem LocatedIn.grown {spans spans' : List (Nat × Nat)} {x : Category × Pricing} {locs : List (Nat × Nat)}
    (h : LocatedIn spans x locs) (hg : Grown spans spans') : LocatedIn spans' x locs :=
  fun needed hneeded => (h needed hneeded).imp fun _ _ hp => hp.grown hg

section

variable {keys : List Nat} {spans : List (Nat × Nat)}

theorem planBodies_ok (hkeys : ∀ k ∈ keys, k ≠ 0) (hasc : keys.Pairwise (· < ·)) {x : Category × Pricing}
    (hfits : TailFits x.1) (h : Waits keys 0 x.1 x.2) (spans : List (Nat × Nat)) :
    ∃ st, planBodiesChecked spans x.1 x.2 = .ok st ∧ LocatedIn st.1 x st.2 ∧ Grown spans st.1 := by
  obtain ⟨c, count, tail⟩ := x
  unfold planBodiesChecked
  cases tail with
  | done => exact ⟨_, rfl, fun needed hn => (by cases hn), Grown.refl spans⟩
  | refetch wb whole => exact ⟨_, rfl, fun needed hn => (by cases hn), Grown.refl spans⟩
  | containers needed =>
    obtain ⟨hplaces, pos, ht⟩ := h.fits hkeys hasc hfits
    have hstart : Placing c.range.tailOff spans none [] ⟨spans, none, []⟩ :=
      ⟨fun _ => rfl, fun p hp => absurd hp (by simp), List.Forall₂.nil, Grown.refl _⟩
    obtain ⟨st, last, hst, hplaced⟩ := placeBodies_ok hstart hplaces ht (by simp)
    refine ⟨(st.spans, st.locs), ?_, fun needed' hn => ?_, hplaced.grown⟩
    · simp only [hst]
      rfl
    · obtain rfl : needed = needed' := by
        injection hn
      exact hplaced.locs

theorem planBodiesAll_ok (hkeys : ∀ k ∈ keys, k ≠ 0) (hasc : keys.Pairwise (· < ·)) {xs : List (Category × Pricing)}
    (h : ∀ x ∈ xs, TailFits x.1 ∧ Waits keys 0 x.1 x.2) : ∀ spans : List (Nat × Nat),
    ∃ st, planBodiesAllChecked spans xs = .ok st ∧ List.Forall₂ (LocatedIn st.1) xs st.2 ∧ Grown spans st.1 := by
  induction xs with
  | nil => exact fun spans => ⟨_, rfl, List.Forall₂.nil, Grown.refl spans⟩
  | cons x xs ih =>
    intro spans
    obtain ⟨hfits, hwaits⟩ := h x List.mem_cons_self
    obtain ⟨st, hst, hlocated, hgrown⟩ := planBodies_ok hkeys hasc hfits hwaits spans
    obtain ⟨rest, hrest, hlocateds, hgrown'⟩ := ih (fun y hy => h y (List.mem_cons_of_mem _ hy)) st.1
    refine ⟨(rest.1, st.2 :: rest.2), ?_, List.Forall₂.cons (hlocated.grown hgrown') hlocateds, hgrown.trans hgrown'⟩
    unfold planBodiesAllChecked
    rw [hst, ok_bind, hrest]
    rfl

/-- A container that was placed is cut out of its span. -/
theorem safe_frameBody {off : Nat} {bodies : List Bytes} (hbodies : List.Forall₂ Fetched spans bodies)
    {c : Container} {loc : Nat × Nat} (h : Placed spans off c loc) :
    Safe (fun _ => True) (frameBodyChecked bodies (c, loc)) := by
  obtain ⟨sp, hsp, -, hend⟩ := h
  obtain ⟨hlt, hget⟩ := List.getElem?_eq_some_iff.mp hsp
  have hlt' : loc.1 < bodies.length := by
    rw [← hbodies.length_eq]
    exact hlt
  have hfetched : Fetched sp bodies[loc.1] := by
    have := (List.forall₂_iff_get.mp hbodies).2 loc.1 hlt hlt'
    simp only [List.get_eq_getElem, hget] at this
    exact this
  have hlen := hfetched.length_eq
  have hbound : sp.2 < u64Bound := by
    by_cases hz : sp.2 = 0
    · rw [hz]
      exact Nat.two_pow_pos 64
    · have := hfetched.bound hz
      omega
  unfold frameBodyChecked
  refine Safe.bind_ok (get_ok (List.getElem?_eq_getElem hlt')) ?_
  refine Safe.bind_ok (add_ok (Nat.lt_of_le_of_lt hend hbound)) ?_
  refine Safe.bind_ok (range_ok (Nat.le_add_right _ _) (by rw [hlen]; exact hend)) ?_
  exact Safe.ok trivial

theorem safe_finishPricing [Roaring] {result : Bitmap} {bodies : List Bytes}
    (hbodies : List.Forall₂ Fetched spans bodies) {x : Category × Pricing} {locs : List (Nat × Nat)}
    (h : LocatedIn spans x locs) : Safe (fun _ => True) (finishPricingChecked result bodies (x.2, locs)) := by
  obtain ⟨c, count, tail⟩ := x
  unfold finishPricingChecked
  cases tail with
  | done => exact Safe.ok trivial
  | refetch wb whole => exact Safe.ok trivial
  | containers needed =>
    simp only
    split
    · exact Safe.ok trivial
    · have hplaced := h needed rfl
      have hframes : Safe (fun _ => True) ((needed.zip locs).mapM (frameBodyChecked bodies)) := by
        refine (Safe.mapM_all (s := fun _ => True) fun y hy => ?_).mono fun _ _ => trivial
        obtain ⟨i, hi, rfl⟩ := List.getElem_of_mem hy
        rw [List.length_zip] at hi
        rw [List.getElem_zip]
        have := (List.forall₂_iff_get.mp hplaced).2 i (by omega) (by omega)
        simp only [List.get_eq_getElem] at this
        exact safe_frameBody hbodies this
      refine hframes.bind fun sel _ => ?_
      exact (Safe.lift _).bind fun bm _ => Safe.ok trivial

end

/-! ## Pricing a digest -/

/-- A target is a category of a field. -/
def IsTarget (fields : List Field) (t : Nat × Nat) : Prop :=
  ∃ field c, fields[t.1]? = some field ∧ field.categories[t.2]? = some c

/-- Whatever is priced of the fields, in whatever result and over whatever fetcher, nothing traps. -/
def PricesSafely [Roaring] (fields : List Field) : Prop :=
  ∀ (f : ExactFetch) (targets : List (Nat × Nat)) (result : Bitmap) (n : Nat), (∀ t ∈ targets, IsTarget fields t) →
    ∀ t, (countCategoriesChecked f fields targets result (headNeeded result) (tailKeys result)).run n ≠
      .error (.trap t)

theorem tailKeys_ne_zero (result : Bitmap) : ∀ k ∈ tailKeys result, k ≠ 0 := by
  intro k hk
  rw [tailKeys_eq, mem_distinctHighKeys] at hk
  obtain ⟨d, hd, rfl⟩ := hk
  exact of_decide_eq_true (AscSet.mem_filter.mp hd).2

section

variable [Roaring] {fields : List Field}

omit [Roaring] in
/-- Each category's two ranges of the first wave, found by its index. -/
theorem safe_reads {cats : List Category} {hn : Bool} {keys : List Nat} {bytesA : List Bytes}
    (h : List.Forall₂ Fetched (cats.flatMap (waveARanges hn keys)) bytesA) :
    Safe (List.Forall₂ (fun c (x : Category × (Bytes × Bytes)) => x.1 = c ∧ Fetched (tailRequest keys c) x.2.2) cats)
      (cats.zipIdx.mapM (readOf bytesA)) := by
  have hread : ∀ x ∈ cats.zipIdx, Safe (fun (y : Category × (Bytes × Bytes)) => y.1 = x.1 ∧
      Fetched (tailRequest keys x.1) y.2.2) (readOf bytesA x) := by
    intro x hx
    have hget : cats[x.2]? = some x.1 := List.mem_zipIdx_iff_getElem?.mp hx
    obtain ⟨e1, e2⟩ := getElem?_flatMap_pair (headRequest hn) (tailRequest keys) cats x.2
    rw [hget, Option.map_some] at e1 e2
    obtain ⟨h1, -⟩ := List.getElem?_eq_some_iff.mp e1
    obtain ⟨h2, heq2⟩ := List.getElem?_eq_some_iff.mp e2
    have h1' : 2 * x.2 < bytesA.length := by
      rw [← h.length_eq]
      exact h1
    have h2' : 2 * x.2 + 1 < bytesA.length := by
      rw [← h.length_eq]
      exact h2
    have hfetched := (List.forall₂_iff_get.mp h).2 (2 * x.2 + 1) h2 h2'
    simp only [List.get_eq_getElem] at hfetched
    unfold waveARanges at hfetched
    rw [heq2] at hfetched
    unfold readOf
    refine Safe.bind_ok (get_ok (List.getElem?_eq_getElem h1')) ?_
    refine Safe.bind_ok (get_ok (List.getElem?_eq_getElem h2')) ?_
    exact Safe.ok ⟨rfl, hfetched⟩
  refine (Safe.mapM hread).mono fun xs hxs => ?_
  have hfst : cats = cats.zipIdx.map Prod.fst := by simp
  rw [hfst]
  exact List.forall₂_map_left_iff.mpr hxs

omit [Roaring] in
theorem safe_categories {targets : List (Nat × Nat)} (h : ∀ t ∈ targets, IsTarget fields t) :
    Safe (fun cats => ∀ c ∈ cats, ∃ field ∈ fields, c ∈ field.categories) (targets.mapM (categoryChecked fields)) := by
  have hone : ∀ t ∈ targets, Safe (fun c => ∃ field ∈ fields, c ∈ field.categories) (categoryChecked fields t) := by
    intro t ht
    obtain ⟨field, c, hfield, hc⟩ := h t ht
    refine Safe.bind_ok (get_ok hfield) ?_
    exact Safe.of_eq (get_ok hc) ⟨field, List.mem_of_getElem? hfield, List.mem_of_getElem? hc⟩
  exact (Safe.mapM_all hone).mono fun cats hcats => hcats.2

/-- **No pricing traps** where every tail fits. -/
theorem safe_countCategories (hdigest : ∀ field ∈ fields, ∀ c ∈ field.categories, Digested c)
    (hfits : ∀ field ∈ fields, ∀ c ∈ field.categories, TailFits c) (f : ExactFetch) {targets : List (Nat × Nat)}
    (htargets : ∀ t ∈ targets, IsTarget fields t) (result : Bitmap) :
    SafeFrom (fun _ => True)
      (countCategoriesChecked f fields targets result (headNeeded result) (tailKeys result)) := by
  unfold countCategoriesChecked
  refine (SafeFrom.outcome (safe_categories htargets)).bind fun cats hcats => ?_
  have hdigested : ∀ c ∈ cats, Digested c := by
    intro c hc
    obtain ⟨field, hfield, hmem⟩ := hcats c hc
    exact hdigest field hfield c hmem
  refine (safe_readCoalesced f _ _).bind fun bytesA hA => ?_
  refine (SafeFrom.outcome (safe_reads hA)).bind fun reads hreads => ?_
  refine (SafeFrom.outcome (Safe.lift _)).bind fun r hr => ?_
  obtain ⟨pricings, rangesB⟩ := r
  have hwaits := waveAAll_waits hdigested hreads hr
  rw [Nat.zero_add] at hwaits
  refine (safe_readCoalesced f rangesB _).bind fun bytesB hB => ?_
  have hlenB : rangesB.length = bytesB.length := hB.length_eq
  rw [hlenB] at hwaits
  have hready : SafeFrom (List.Forall₂ (fun (x : Category × Pricing) p => Waits (tailKeys result) 0 x.1 p)
      (cats.zip pricings))
      ((cats.zip pricings).mapM fun x => waveBChecked f result (tailKeys result) bytesB x.1 x.2) := by
    refine SafeFrom.mapM fun x hx => safe_waveB f ?_
    obtain ⟨i, hi, rfl⟩ := List.getElem_of_mem hx
    rw [List.length_zip] at hi
    rw [List.getElem_zip]
    have := (List.forall₂_iff_get.mp hwaits).2 i (by omega) (by omega)
    simpa only [List.get_eq_getElem] using this
  refine hready.bind fun pricings' hpricings => ?_
  have hall : ∀ x ∈ cats.zip pricings', TailFits x.1 ∧ Waits (tailKeys result) 0 x.1 x.2 := by
    intro x hx
    obtain ⟨i, hi, rfl⟩ := List.getElem_of_mem hx
    rw [List.length_zip] at hi
    have hlen := hpricings.length_eq
    rw [List.length_zip, hwaits.length_eq, Nat.min_self] at hlen
    have hzip : i < (cats.zip pricings).length := by
      rw [List.length_zip, hwaits.length_eq, Nat.min_self]
      omega
    have hi' := (List.forall₂_iff_get.mp hpricings).2 i hzip (by omega)
    simp only [List.get_eq_getElem, List.getElem_zip] at hi' ⊢
    obtain ⟨field, hfield, hmem⟩ := hcats cats[i] (List.getElem_mem (by omega))
    exact ⟨hfits field hfield _ hmem, hi'⟩
  obtain ⟨st, hst, hlocated, -⟩ := planBodiesAll_ok (tailKeys_ne_zero result) (tailKeys_asc result) hall []
  refine (SafeFrom.outcome (Safe.of_eq (p := fun a => a = st) hst rfl)).bind fun st' hst' => ?_
  subst hst'
  refine (safe_readCoalesced f st'.1 _).bind fun bodies hbodies => SafeFrom.outcome ?_
  refine (Safe.mapM_all (s := fun _ => True) fun x hx => ?_).mono fun _ _ => trivial
  obtain ⟨i, hi, rfl⟩ := List.getElem_of_mem hx
  rw [List.length_zip] at hi
  rw [List.getElem_zip]
  have hlen := hpricings.length_eq
  rw [List.length_zip, hwaits.length_eq, Nat.min_self] at hlen
  have hcatsLen : cats.length = pricings.length := hwaits.length_eq
  have hzip : i < (cats.zip pricings').length := by
    rw [List.length_zip]
    omega
  have hi' := (List.forall₂_iff_get.mp hlocated).2 i hzip (by omega)
  simp only [List.get_eq_getElem, List.getElem_zip] at hi'
  exact safe_finishPricing hbodies hi'

end

/-! ## What a digest says -/

theorem takeLe_ok {w n : Nat} {b rest : Bytes} (h : takeLe w b = .ok (n, rest)) : n < 256 ^ w := by
  obtain ⟨r, -, hr⟩ := exists_of_bind_ok h
  obtain ⟨rfl, -⟩ := Prod.mk.inj (Except.ok.inj hr)
  exact getLe_lt w r.1 0

/-- What a loop of passes returns, some pass did. -/
theorem takeMany_ok {α : Type} {take : Bytes → Except IndexError (α × Bytes)} {n : Nat} {b rest : Bytes} {xs : List α}
    (h : takeMany take n b = .ok (xs, rest)) : ∀ x ∈ xs, ∃ b' rest', take b' = .ok (x, rest') := by
  induction n generalizing b xs rest with
  | zero =>
    obtain ⟨rfl, -⟩ := Prod.mk.inj (Except.ok.inj h)
    exact fun x hx => absurd hx List.not_mem_nil
  | succ n ih =>
    obtain ⟨r, htake, h⟩ := exists_of_bind_ok h
    obtain ⟨r', hmany, h⟩ := exists_of_bind_ok h
    obtain ⟨rfl, -⟩ := Prod.mk.inj (Except.ok.inj h)
    intro x hx
    rcases List.mem_cons.mp hx with rfl | hx
    · exact ⟨b, r.2, htake⟩
    · exact ih hmany x hx

/-- A directory that was given its lengths is closed, with the keys and starts it came with. -/
theorem closeDir_ok {total : Nat} {raw : List (Nat × Nat × Nat)} {dir : List Container}
    (h : closeDir total raw = .ok dir) : Closed total dir ∧ dir.map (fun c => (c.key, c.start)) =
      raw.map fun e => (e.1, e.2.2) := by
  induction raw generalizing dir with
  | nil =>
    obtain rfl := Except.ok.inj h
    exact ⟨trivial, rfl⟩
  | cons e es ih =>
    unfold closeDir at h
    simp only at h
    split at h
    · cases h
    · next hstop =>
      obtain ⟨ds, hrest, h⟩ := exists_of_bind_ok h
      obtain rfl := Except.ok.inj h
      obtain ⟨hclosed, hmap⟩ := ih hrest
      have hnext : (ds.head?.map Container.start).getD total = (es.head?.map fun next => next.2.2).getD total := by
        have hhead := congrArg (fun l => (l.head?.map Prod.snd).getD total) hmap
        simp only [List.head?_map, Option.map_map] at hhead
        exact hhead
      refine ⟨⟨?_, ?_, hclosed⟩, ?_⟩
      · rw [hnext]
        simp only
        omega
      · simp only
        omega
      · rw [List.map_cons, List.map_cons, hmap]

/-- What a reader of tail directories returns is closed, and of 16-bit keys. -/
def TakesDir (takeDir : TakeDir) : Prop :=
  ∀ (tailSize : Nat) (b rest : Bytes) (dir : List Container), takeDir tailSize b = .ok (some dir, rest) →
    Closed tailSize dir ∧ ∀ d ∈ dir, d.key < bucketSize

theorem takesDir_none : TakesDir fun _ b => .ok (none, b) := by
  intro tailSize b rest dir h
  cases h

theorem takesDir_takeTailDir : TakesDir takeTailDir := by
  intro tailSize b rest dir h
  obtain ⟨⟨n, b1⟩, -, h⟩ := exists_of_bind_ok h
  simp only at h
  split at h
  · cases h
  · obtain ⟨r', hraw, h⟩ := exists_of_bind_ok h
    obtain ⟨ds, hclose, h⟩ := exists_of_bind_ok h
    obtain ⟨hsome, -⟩ := Prod.mk.inj (Except.ok.inj h)
    obtain rfl := Option.some.inj hsome
    obtain ⟨hclosed, hmap⟩ := closeDir_ok hclose
    refine ⟨hclosed, fun d hd => ?_⟩
    have hmem : (d.key, d.start) ∈ r'.1.map fun e => (e.1, e.2.2) := by
      rw [← hmap]
      exact List.mem_map_of_mem (f := fun c => (c.key, c.start)) hd
    obtain ⟨e, he, heq⟩ := List.mem_map.mp hmem
    obtain ⟨b', rest', htake⟩ := takeMany_ok hraw e he
    obtain ⟨key, hkey, htake⟩ := exists_of_bind_ok htake
    obtain ⟨card, -, htake⟩ := exists_of_bind_ok htake
    obtain ⟨start, -, htake⟩ := exists_of_bind_ok htake
    obtain ⟨rfl, -⟩ := Prod.mk.inj (Except.ok.inj htake)
    obtain ⟨hk, -⟩ := Prod.mk.inj heq
    rw [← hk]
    exact takeLe_ok hkey

theorem digested_of_takeCategory {takeDir : TakeDir} (hdir : TakesDir takeDir) {b rest : Bytes} {c : Category}
    (h : takeCategory takeDir b = .ok (c, rest)) : Digested c := by
  obtain ⟨name, -, h⟩ := exists_of_bind_ok h
  obtain ⟨count, -, h⟩ := exists_of_bind_ok h
  obtain ⟨headOff, -, h⟩ := exists_of_bind_ok h
  obtain ⟨headSize, -, h⟩ := exists_of_bind_ok h
  obtain ⟨tailSize, htail, h⟩ := exists_of_bind_ok h
  obtain ⟨dir, hd, h⟩ := exists_of_bind_ok h
  obtain ⟨rfl, -⟩ := Prod.mk.inj (Except.ok.inj h)
  refine ⟨rfl, fun ds (hds : dir.1 = some ds) => ?_, takeLe_ok htail⟩
  exact hdir tailSize.1 tailSize.2 dir.2 ds (by rw [hd, ← hds])

/-- Every category that a digest is parsed into. -/
theorem digested_of_parse {takeDir : TakeDir} (hdir : TakesDir takeDir) {payload : Bytes} {k : Nat} {fields : List Field}
    (h : parseDigestWith takeDir payload = .ok (k, fields)) :
    ∀ field ∈ fields, ∀ c ∈ field.categories, Digested c := by
  obtain ⟨kr, -, h⟩ := exists_of_bind_ok h
  obtain ⟨count, -, h⟩ := exists_of_bind_ok h
  obtain ⟨r, hmany, h⟩ := exists_of_bind_ok h
  obtain ⟨-, rfl⟩ := Prod.mk.inj (Except.ok.inj h)
  intro field hfield c hc
  obtain ⟨b, rest, hfield⟩ := takeMany_ok hmany field hfield
  obtain ⟨name, -, hfield⟩ := exists_of_bind_ok hfield
  obtain ⟨n, -, hfield⟩ := exists_of_bind_ok hfield
  obtain ⟨cats, hall, hfield⟩ := exists_of_bind_ok hfield
  obtain ⟨rfl, -⟩ := Prod.mk.inj (Except.ok.inj hfield)
  obtain ⟨b', rest', htake⟩ := takeMany_ok hall c hc
  exact digested_of_takeCategory hdir htake

/-! ## A pricing that traps -/

/-- The first doc of every bucket past the first. -/
def bucketDocs : List Nat :=
  (List.range bucketSize).filterMap fun k => if k = 0 then none else some (k * bucketSize)

theorem bucketDocs_lt : ∀ d ∈ bucketDocs, d < u32Bound := by
  intro d hd
  obtain ⟨k, hk, hd⟩ := List.mem_filterMap.mp hd
  have hlt := List.mem_range.mp hk
  split at hd
  · cases hd
  · obtain rfl := Option.some.inj hd
    unfold bucketSize at hlt ⊢
    unfold u32Bound
    omega

/-- A doc in every bucket past the first. -/
def allBuckets : Bitmap := AscSet.ofList bucketDocs bucketDocs_lt

theorem mem_allBuckets {d : Nat} : d ∈ allBuckets ↔ ∃ k, k ≠ 0 ∧ k < bucketSize ∧ d = k * bucketSize := by
  unfold allBuckets
  rw [AscSet.mem_ofList]
  unfold bucketDocs
  rw [List.mem_filterMap]
  constructor
  · rintro ⟨k, hk, hd⟩
    split at hd
    · cases hd
    · next hne => exact ⟨k, hne, List.mem_range.mp hk, (Option.some.inj hd).symm⟩
  · rintro ⟨k, hne, hlt, rfl⟩
    exact ⟨k, List.mem_range.mpr hlt, if_neg hne⟩

theorem highKey_bucket (k : Nat) : highKey (k * bucketSize) = k := Nat.mul_div_cancel k (by decide)

theorem headNeeded_allBuckets : headNeeded allBuckets = false := by
  unfold headNeeded
  rw [List.any_eq_false]
  intro d hd
  obtain ⟨k, hne, -, rfl⟩ := mem_allBuckets.mp (AscSet.mem_toList.mp hd)
  rw [highKey_bucket]
  simpa using hne

theorem mem_tailKeys_allBuckets {k : Nat} : k ∈ tailKeys allBuckets ↔ k ≠ 0 ∧ k < bucketSize := by
  rw [tailKeys_eq, mem_distinctHighKeys]
  constructor
  · rintro ⟨d, hd, rfl⟩
    obtain ⟨hmem, hne⟩ := AscSet.mem_filter.mp hd
    obtain ⟨k, hk, hlt, rfl⟩ := mem_allBuckets.mp hmem
    rw [highKey_bucket]
    exact ⟨hk, hlt⟩
  · rintro ⟨hne, hlt⟩
    refine ⟨k * bucketSize, AscSet.mem_filter.mpr ⟨mem_allBuckets.mpr ⟨k, hne, hlt, rfl⟩, ?_⟩, highKey_bucket k⟩
    rw [highKey_bucket]
    exact decide_eq_true hne

/-- A result in all those buckets needs every container past the first bucket. -/
theorem neededOf_allBuckets {dir : List Container} (h : ∀ d ∈ dir, d.key < bucketSize) :
    neededOf dir (tailKeys allBuckets) = dir.filter fun d => decide (d.key ≠ 0) := by
  unfold neededOf
  refine List.filter_congr fun d hd => ?_
  rw [Bool.eq_iff_iff, found_iff (tailKeys_asc _), mem_tailKeys_allBuckets, decide_eq_true_eq]
  exact and_iff_left (h d hd)

theorem tailKeys_allBuckets_ne : (tailKeys allBuckets).isEmpty = false := by
  have h : 1 ∈ tailKeys allBuckets := mem_tailKeys_allBuckets.mpr ⟨by decide, by decide⟩
  cases hk : tailKeys allBuckets with
  | nil =>
    rw [hk] at h
    cases h
  | cons _ _ => rfl

/-- The first `len` bytes of `b`, filled up with zeros. -/
def filled (b : Bytes) (len : Nat) : Bytes := (b ++ List.replicate len 0).take len

theorem length_filled (b : Bytes) (len : Nat) : (filled b len).length = len := by
  unfold filled
  rw [List.length_take, List.length_append, List.length_replicate]
  omega

theorem filled_exact (b : Bytes) (n offset len : Nat) (a : Bytes)
    (h : (fun _ _ len => Except.ok (filled b len) : Nat → Nat → Nat → Except FetchError Bytes) n offset len = .ok a) :
    a.length = len := by
  rw [← Except.ok.inj h, length_filled]

/-- A fetcher that answers every read with the same bytes, cut or filled up. -/
def fixedFetch (b : Bytes) : ExactFetch := ⟨fun _ _ len => .ok (filled b len), filled_exact b⟩

/-- A directory of two containers in one bucket: the second is empty and at the end of the tail. -/
def endDir (tailSize : Nat) : Bytes :=
  le 4 noRunContainerCookie ++ (le 4 2 ++ (le 2 1 ++ (le 2 0 ++ (le 2 1 ++ (le 2 0 ++ (le 4 24 ++ le 4 tailSize))))))

/-- Reads of one range behind an empty one. -/
theorem readCoalesced_pair (f : ExactFetch) {r : Nat × Nat} (hr : r.1 + r.2 < u64Bound) (gap n : Nat) :
    (readCoalescedChecked f [(0, 0), r] gap).run n =
      if r.2 = 0 then .ok ([[], []], n)
      else match f.answer n r.1 r.2 with
        | .ok b => .ok ([[], b], n + 1)
        | .error e => .error (.err (.fetch e)) := by
  have horder : sortByKey (fun i => ([(0, 0), r].getD i (0, 0)).1) (List.range [(0, 0), r].length) = [0, 1] := by
    unfold sortByKey
    have hrange : List.range [(0, 0), r].length = [0, 1] := rfl
    rw [hrange]
    simp
  unfold readCoalescedChecked
  simp only [horder]
  by_cases hlen : r.2 = 0
  · rw [if_pos hlen]
    have hplan : planSpans [(0, 0), r] gap ⟨[], fun _ => usizeMax⟩ [0, 1] = .ok ⟨[], fun _ => usizeMax⟩ := by
      simp [planSpans, placeRange, hlen, bind, Except.bind]
    rw [hplan]
    have hback : [((0, 0), 0), (r, 1)].mapM (sliceBackChecked ⟨[], fun _ => usizeMax⟩ []) = .ok [[], []] := by
      simp [sliceBackChecked, hlen, bind, Except.bind, pure, Except.pure]
    show (outcome ([((0, 0), 0), (r, 1)].mapM (sliceBackChecked ⟨[], fun _ => usizeMax⟩ []))).run n = _
    rw [hback]
    rfl
  · rw [if_neg hlen]
    have hplan : planSpans [(0, 0), r] gap ⟨[], fun _ => usizeMax⟩ [0, 1] =
        .ok ⟨[(r.1, r.1 + r.2)], Function.update (fun _ => usizeMax) 1 0⟩ := by
      simp [planSpans, placeRange, hlen, Nat.not_le.mpr hr, bind, Except.bind]
    rw [hplan]
    have hread : ([(r.1, r.1 + r.2)].mapM fun sp => (do
        let len ← outcome (sub sp.2 sp.1)
        f.read sp.1 len : OracleIo Bytes)).run n =
          match f.answer n r.1 r.2 with
          | .ok b => .ok ([b], n + 1)
          | .error e => .error (.err (.fetch e)) := by
      rw [List.mapM_cons, oracle_bind, oracle_bind, outcome_run, sub_ok (Nat.le_add_right _ _), Nat.add_sub_cancel_left]
      show (f.read r.1 r.2).run n >>= _ = _
      show f.read r.1 r.2 n >>= _ = _
      unfold ExactFetch.read
      cases f.answer n r.1 r.2 with
      | error e => rfl
      | ok b => rfl
    show ([(r.1, r.1 + r.2)].mapM fun sp => (do
        let len ← outcome (sub sp.2 sp.1)
        f.read sp.1 len : OracleIo Bytes)).run n >>= (fun x =>
          (outcome ([((0, 0), 0), (r, 1)].mapM (sliceBackChecked _ x.1)) : OracleIo (List Bytes)).run x.2) = _
    rw [hread]
    cases hb : f.answer n r.1 r.2 with
    | error e => rfl
    | ok b =>
      have hblen := f.exact _ _ _ _ hb
      have hslice : slice b 0 r.2 = b := by
        unfold slice
        rw [List.drop_zero, ← hblen, List.take_length]
      have hlt : ¬ u64Bound ≤ r.2 := by omega
      have hback : [((0, 0), 0), (r, 1)].mapM
          (sliceBackChecked ⟨[(r.1, r.1 + r.2)], Function.update (fun _ => usizeMax) 1 0⟩ [b]) = .ok [[], b] := by
        rw [List.mapM_cons, List.mapM_cons, List.mapM_nil]
        have hone : sliceBackChecked ⟨[(r.1, r.1 + r.2)], Function.update (fun _ => usizeMax) 1 0⟩ [b] (r, 1) =
            .ok b := by
          unfold sliceBackChecked
          simp only [if_neg hlen, Function.update_self]
          rw [get_ok (x := (r.1, r.1 + r.2)) rfl, ok_bind, sub_ok (Nat.le_refl _), ok_bind, Nat.sub_self,
            reject_ok (by omega), ok_bind, get_ok (x := b) rfl, ok_bind, if_pos (by omega), hslice]
        rw [hone]
        rfl
      show (outcome _ : OracleIo (List Bytes)).run (n + 1) = _
      rw [hback]
      rfl

/-- No range takes no read. -/
theorem readCoalesced_nil (f : ExactFetch) (gap n : Nat) : (readCoalescedChecked f [] gap).run n = .ok ([], n) := by
  have horder : sortByKey (fun i => (([] : List (Nat × Nat)).getD i (0, 0)).1) (List.range 0) = [] := by
    unfold sortByKey
    simp
  unfold readCoalescedChecked
  simp only [List.length_nil, horder]
  rfl

theorem oracle_bind_ok {α β : Type} {x : OracleIo α} {f : α → OracleIo β} {n m : Nat} {a : α}
    (h : x.run n = .ok (a, m)) : (x >>= f).run n = (f a).run m := by
  rw [oracle_bind, h]
  rfl

theorem outcome_bind_ok {α β : Type} {r : Except (Abort IndexError) α} {f : α → OracleIo β} {n : Nat} {a : α}
    (h : r = .ok a) : (outcome r >>= f).run n = (f a).run n := by
  refine oracle_bind_ok ?_
  rw [outcome_run, h]
  rfl

section

variable [Roaring] {fields : List Field} {c : Category} {t : Nat × Nat} {needed : List Container}

/-- **A category whose containers do not fit traps**, when it is priced alone and the first wave led to them. -/
theorem countCategories_traps {field : Field} (hfield : fields[t.1]? = some field)
    (hc : field.categories[t.2]? = some c) (f : ExactFetch) {pre : Bytes} {n : Nat}
    (hpre : (readCoalescedChecked f [(0, 0), tailRequest (tailKeys allBuckets) c] pricingGap).run 0 =
      .ok ([[], pre], n))
    (hwave : waveATail allBuckets (tailKeys allBuckets) 0 c (allBuckets ∩ c.head).len pre =
      .ok (⟨(allBuckets ∩ c.head).len, .containers needed⟩, []))
    {pos : Nat} (ht : Tiled pos needed) (hnot : ¬ PlacesFit c.range.tailOff none needed) :
    (countCategoriesChecked f fields [t] allBuckets (headNeeded allBuckets) (tailKeys allBuckets)).run 0 =
      .error (.trap .overflow) := by
  have hcat : categoryChecked fields t = .ok c := by
    unfold categoryChecked
    rw [get_ok hfield, ok_bind, get_ok hc]
  have hcats : [t].mapM (categoryChecked fields) = .ok [c] := by
    rw [List.mapM_cons, hcat]
    rfl
  have hranges : [c].flatMap (waveARanges (headNeeded allBuckets) (tailKeys allBuckets)) =
      [(0, 0), tailRequest (tailKeys allBuckets) c] := by
    rw [headNeeded_allBuckets]
    rfl
  have hreads : [c].zipIdx.mapM (readOf [[], pre]) = .ok [(c, ([], pre))] := rfl
  have hall : (lift (waveAAll allBuckets (tailKeys allBuckets) 0 [(c, ([], pre))]) : Except (Abort IndexError) _) =
      .ok ([⟨(allBuckets ∩ c.head).len, .containers needed⟩], []) := by
    unfold waveAAll waveA headBitmap
    simp only [List.isEmpty_nil, if_true, ok_bind, hwave]
    rfl
  have hplan : planBodiesAllChecked [] [(c, ⟨(allBuckets ∩ c.head).len, .containers needed⟩)] =
      .error (.trap .overflow) := by
    have hstart : Placing c.range.tailOff [] none [] ⟨[], none, []⟩ :=
      ⟨fun _ => rfl, fun p hp => absurd hp (by simp), List.Forall₂.nil, Grown.refl _⟩
    unfold planBodiesAllChecked planBodiesChecked
    simp only [placeBodies_trap hstart hnot ht (by simp)]
    rfl
  unfold countCategoriesChecked
  rw [outcome_bind_ok hcats, hranges, oracle_bind_ok hpre, outcome_bind_ok hreads, outcome_bind_ok hall]
  simp only
  rw [oracle_bind_ok (readCoalesced_nil f pricingGap n)]
  have hwaveB : (([c].zip [⟨(allBuckets ∩ c.head).len, .containers needed⟩]).mapM fun x =>
      waveBChecked f allBuckets (tailKeys allBuckets) [] x.1 x.2).run n =
        .ok ([⟨(allBuckets ∩ c.head).len, .containers needed⟩], n) := rfl
  rw [oracle_bind_ok hwaveB]
  show (outcome (planBodiesAllChecked [] [(c, ⟨(allBuckets ∩ c.head).len, .containers needed⟩)]) >>= _).run n = _
  rw [hplan]
  rfl

/-- A resident directory whose containers do not fit. -/
theorem countCategories_traps_resident {field : Field} (hfield : fields[t.1]? = some field)
    (hc : field.categories[t.2]? = some c) (hdigest : Digested c) {dir : List Container}
    (hdir : c.tailDir = some dir) (hlong : headerPrefix < c.range.tailSize)
    (hnot : ¬ PlacesFit c.range.tailOff none (dir.filter fun d => decide (d.key ≠ 0))) :
    (countCategoriesChecked (fixedFetch []) fields [t] allBuckets (headNeeded allBuckets)
      (tailKeys allBuckets)).run 0 = .error (.trap .overflow) := by
  obtain ⟨hclosed, hkeys⟩ := hdigest.dir dir hdir
  have hres : useResident c = true := by
    unfold useResident
    rw [hdir, Option.isSome_some, Bool.true_and]
    exact decide_eq_true hlong
  have hrequest : tailRequest (tailKeys allBuckets) c = (0, 0) := by
    unfold tailRequest
    rw [hres, Bool.not_true, Bool.and_false, if_neg Bool.false_ne_true]
  have hpre : (readCoalescedChecked (fixedFetch []) [(0, 0), tailRequest (tailKeys allBuckets) c] pricingGap).run 0 =
      .ok ([[], []], 0) := by
    rw [hrequest, readCoalesced_pair (fixedFetch []) (r := (0, 0)) (Nat.two_pow_pos 64), if_pos rfl]
  have hneeded := neededOf_allBuckets hkeys
  have hwave : waveATail allBuckets (tailKeys allBuckets) 0 c (allBuckets ∩ c.head).len [] =
      .ok (⟨(allBuckets ∩ c.head).len, .containers (dir.filter fun d => decide (d.key ≠ 0))⟩, []) := by
    have hpos : 0 < c.range.tailSize := Nat.lt_of_le_of_lt (Nat.zero_le _) hlong
    unfold waveATail
    simp only
    rw [if_pos hres, tailKeys_allBuckets_ne, Bool.not_false, Bool.true_and, if_pos (decide_eq_true hpos), hdir,
      Option.getD_some, hneeded]
  obtain ⟨pos, ht⟩ := hclosed.tiled
  exact countCategories_traps hfield hc (fixedFetch []) hpre hwave ht.filter hnot

end

/-! ## A directory at the end of its tail -/

section

variable {total : Nat}

/-- The two containers of `endDir`. -/
def endContainers (total : Nat) : List Container := [⟨1, 1, 24, total - 24⟩, ⟨1, 1, total, 0⟩]

theorem getLe_endDir (ht : total < 2 ^ 32) (rest : Bytes) :
    getLe 4 (endDir total ++ rest) 0 = noRunContainerCookie ∧ getLe 4 (endDir total ++ rest) 4 = 2 ∧
    getLe 4 (endDir total ++ rest) 16 = 24 ∧ getLe 4 (endDir total ++ rest) 20 = total ∧
    (∀ i < 2, getLe 2 (endDir total ++ rest) (8 + i * 4) = 1 ∧ getLe 2 (endDir total ++ rest) (8 + i * 4 + 2) = 0) := by
  have htotal : total < 256 ^ 4 := ht
  unfold endDir
  simp only [List.append_assoc]
  refine ⟨getLe_field (by decide) _, ?_, ?_, ?_, fun i hi => ?_⟩
  · rw [show 4 = 4 + 0 from rfl, getLe_le_skip]
    exact getLe_field (by decide) _
  · rw [show 16 = 4 + (4 + (2 + (2 + (2 + (2 + 0))))) from rfl]
    simp only [getLe_le_skip]
    exact getLe_field (by decide) _
  · rw [show 20 = 4 + (4 + (2 + (2 + (2 + (2 + (4 + 0)))))) from rfl]
    simp only [getLe_le_skip]
    exact getLe_field htotal _
  · match i, hi with
    | 0, _ =>
      rw [show 8 + 0 * 4 + 2 = 4 + (4 + (2 + 0)) from rfl, show 8 + 0 * 4 = 4 + (4 + 0) from rfl]
      simp only [getLe_le_skip]
      exact ⟨getLe_field (by decide) _, getLe_field (by decide) _⟩
    | 1, _ =>
      rw [show 8 + 1 * 4 + 2 = 4 + (4 + (2 + (2 + (2 + 0)))) from rfl, show 8 + 1 * 4 = 4 + (4 + (2 + (2 + 0))) from rfl]
      simp only [getLe_le_skip]
      exact ⟨getLe_field (by decide) _, getLe_field (by decide) _⟩

theorem length_endDir (total : Nat) : (endDir total).length = 24 := by
  simp [endDir]

theorem neededHeaderLen_endDir (ht : total < 2 ^ 32) (rest : Bytes) :
    neededHeaderLen (endDir total ++ rest) = some 24 := by
  obtain ⟨hcookie, hsize, -⟩ := getLe_endDir ht rest
  unfold neededHeaderLen
  rw [hcookie, hsize, List.length_append, length_endDir, if_neg (by omega)]

theorem parseDir_endDir (ht : total < 2 ^ 32) (hlong : 24 ≤ total) (rest : Bytes) :
    parseDir (endDir total ++ rest) total = some (endContainers total) := by
  obtain ⟨hcookie, hsize, hfirst, hsecond, hentry⟩ := getLe_endDir ht rest
  have hentries : (List.range 2).mapM (parseEntry (endDir total ++ rest) total 2 (2 * 4 + 8)) =
      some (endContainers total) := by
    have h0 : parseEntry (endDir total ++ rest) total 2 (2 * 4 + 8) 0 = some ⟨1, 1, 24, total - 24⟩ := by
      unfold parseEntry
      simp only
      rw [(hentry 0 (by decide)).1, (hentry 0 (by decide)).2, if_pos (show 0 + 1 < 2 by decide)]
      rw [show 2 * 4 + 8 + 0 * 4 = 16 from rfl, show 2 * 4 + 8 + (0 + 1) * 4 = 20 from rfl, hfirst, hsecond,
        if_neg (by omega)]
    have h1 : parseEntry (endDir total ++ rest) total 2 (2 * 4 + 8) 1 = some ⟨1, 1, total, 0⟩ := by
      unfold parseEntry
      simp only
      rw [(hentry 1 (by decide)).1, (hentry 1 (by decide)).2, if_neg (show ¬ 1 + 1 < 2 by decide)]
      rw [show 2 * 4 + 8 + 1 * 4 = 20 from rfl, hsecond, if_neg (by omega), Nat.sub_self]
    rw [show List.range 2 = [0, 1] from rfl, List.mapM_cons, List.mapM_cons, h0, h1]
    rfl
  unfold parseDir
  simp only
  rw [hcookie, hsize, List.length_append, length_endDir, if_neg (by omega), if_neg (by omega), if_neg (by omega),
    show 2 * 4 + 8 = 16 from rfl, hfirst, if_neg (by omega)]
  exact hentries

/-- They do not fit where the tail ends too close to the end of the address space. -/
theorem not_placesFit_endContainers {off : Nat} (hlong : 24 ≤ total) (h : u64Bound ≤ off + total + intraCategoryGap) :
    ¬ PlacesFit off none (endContainers total) := by
  rintro ⟨-, -, -, hgap, -⟩
  obtain ⟨hgap, -⟩ := hgap (24 + (total - 24)) rfl
  omega

variable [Roaring] {fields : List Field} {c : Category} {t : Nat × Nat}

/-- A tail whose directory is read, with containers that do not fit. -/
theorem countCategories_traps_read {field : Field} (hfield : fields[t.1]? = some field)
    (hc : field.categories[t.2]? = some c) (hdigest : Digested c) (hdir : c.tailDir = none)
    (hlong : headerPrefix < c.range.tailSize) (hreached : c.range.tailOff + headerPrefix < u64Bound)
    (hend : u64Bound ≤ c.range.tailOff + c.range.tailSize + intraCategoryGap) :
    (countCategoriesChecked (fixedFetch (endDir c.range.tailSize)) fields [t] allBuckets (headNeeded allBuckets)
      (tailKeys allBuckets)).run 0 = .error (.trap .overflow) := by
  have hpos : 0 < c.range.tailSize := Nat.lt_of_le_of_lt (Nat.zero_le _) hlong
  have h24 : 24 ≤ c.range.tailSize := Nat.le_trans (by decide) (Nat.le_of_lt hlong)
  have hres : useResident c = false := by
    unfold useResident
    rw [hdir]
    rfl
  have hrequest : tailRequest (tailKeys allBuckets) c = (c.range.tailOff, headerPrefix) := by
    unfold tailRequest
    rw [hres, tailKeys_allBuckets_ne, Bool.not_false, Bool.true_and, Bool.and_true, if_pos (decide_eq_true hpos),
      Nat.min_eq_right (Nat.le_of_lt hlong)]
  -- the first bytes of the tail are the directory, and zeros behind it
  obtain ⟨rest, hrest⟩ : ∃ rest, filled (endDir c.range.tailSize) headerPrefix = endDir c.range.tailSize ++ rest := by
    refine ⟨(List.replicate headerPrefix 0).take (headerPrefix - 24), ?_⟩
    unfold filled
    rw [List.take_append, length_endDir, List.take_of_length_le (by rw [length_endDir]; decide)]
  have hlen : (endDir c.range.tailSize ++ rest).length = headerPrefix := by
    rw [← hrest, length_filled]
  have hpre : (readCoalescedChecked (fixedFetch (endDir c.range.tailSize))
      [(0, 0), tailRequest (tailKeys allBuckets) c] pricingGap).run 0 = .ok ([[], endDir c.range.tailSize ++ rest], 1) := by
    rw [hrequest, readCoalesced_pair _ hreached, if_neg (show headerPrefix ≠ 0 by decide)]
    unfold fixedFetch
    simp only [hrest]
  have hkeys : ∀ d ∈ endContainers c.range.tailSize, d.key < bucketSize := by
    intro d hd
    simp only [endContainers, List.mem_cons, List.not_mem_nil, or_false] at hd
    rcases hd with rfl | rfl
    · exact (by decide : 1 < bucketSize)
    · exact (by decide : 1 < bucketSize)
  have hneeded : neededOf (endContainers c.range.tailSize) (tailKeys allBuckets) = endContainers c.range.tailSize := by
    rw [neededOf_allBuckets hkeys]
    rfl
  have hwave : waveATail allBuckets (tailKeys allBuckets) 0 c (allBuckets ∩ c.head).len
      (endDir c.range.tailSize ++ rest) =
      .ok (⟨(allBuckets ∩ c.head).len, .containers (endContainers c.range.tailSize)⟩, []) := by
    unfold waveATail
    simp only
    rw [hres, if_neg Bool.false_ne_true, if_neg (fun h => by
        rw [List.isEmpty_iff.mp h] at hlen
        exact absurd hlen (by decide)),
      if_neg (by rw [hlen]; exact Nat.not_le.mpr hlong), neededHeaderLen_endDir hdigest.tailSize_lt]
    simp only
    rw [if_pos (by rw [hlen]; decide), parseDir_endDir hdigest.tailSize_lt h24]
    simp only
    rw [hneeded]
  have ht : Tiled 24 (endContainers c.range.tailSize) := by
    refine ⟨Nat.le_refl _, ?_, trivial⟩
    show 24 + (c.range.tailSize - 24) ≤ c.range.tailSize
    omega
  exact countCategories_traps hfield hc _ hpre hwave ht (not_placesFit_endContainers h24 hend)

end

/-! ## Digests of any bytes -/

section

variable [Roaring] {payload : Bytes} {k : Nat} {fields : List Field}

/-- A digest's category whose tail does not fit traps some pricing. -/
theorem not_pricesSafely {t : Nat × Nat} {field : Field} {c : Category} (hfield : fields[t.1]? = some field)
    (hc : field.categories[t.2]? = some c) (hdigest : Digested c) (hnot : ¬ TailFits c) : ¬ PricesSafely fields := by
  intro hsafe
  have htargets : ∀ s ∈ [t], IsTarget fields s := by
    intro s hs
    obtain rfl := List.mem_singleton.mp hs
    exact ⟨field, c, hfield, hc⟩
  unfold TailFits at hnot
  rw [Classical.not_imp] at hnot
  obtain ⟨hlong, hnot⟩ := hnot
  cases hdir : c.tailDir with
  | some dir =>
    rw [hdir] at hnot
    exact hsafe _ _ _ _ htargets .overflow (countCategories_traps_resident hfield hc hdigest hdir hlong hnot)
  | none =>
    rw [hdir] at hnot
    simp only [not_or, Nat.not_le, Nat.not_lt] at hnot
    exact hsafe _ _ _ _ htargets .overflow (countCategories_traps_read hfield hc hdigest hdir hlong hnot.1 hnot.2)

/-- **Pricing from a digest of any bytes**: whatever result is priced of its categories and whatever the fetcher
answers, nothing traps, if and only if the tail of every category fits. -/
theorem pricesSafely_iff
    (h : parseFacetDigest payload = .ok (k, fields) ∨ parseFacetDigestV2 payload = .ok (k, fields)) :
    PricesSafely fields ↔ ∀ field ∈ fields, ∀ c ∈ field.categories, TailFits c := by
  have hdigest : ∀ field ∈ fields, ∀ c ∈ field.categories, Digested c := by
    rcases h with h | h
    · exact digested_of_parse takesDir_none h
    · exact digested_of_parse takesDir_takeTailDir h
  constructor
  · intro hsafe field hfield c hc
    by_contra hnot
    obtain ⟨i, hi⟩ := List.mem_iff_getElem?.mp hfield
    obtain ⟨j, hj⟩ := List.mem_iff_getElem?.mp hc
    exact not_pricesSafely (t := (i, j)) hi hj (hdigest field hfield c hc) hnot hsafe
  · intro hfits f targets result n htargets t htrap
    exact (safe_countCategories hdigest hfits f htargets result n).2 t htrap

end

/-- A digest of one category: its tail of 5000 bytes begins at `off`, and a container of the second bucket at 200 in
it. -/
def oneTail (off : Nat) : Bytes :=
  [1, 0, 1, 0, 0, 0, 1, 0, 0, 0, 1, 0, 0, 0] ++ (le 8 off ++ [0, 0, 0, 0, 136, 19, 0, 0, 1, 0, 1, 0, 0, 0, 200, 0, 0, 0])

def oneTailFields (off : Nat) : List Field :=
  [⟨"", [⟨"", 1, ⟨off, 0, off, 5000⟩, ∅, some [⟨1, 1, 200, 4800⟩]⟩]⟩]

theorem pricesSafely_near : @PricesSafely PortableCodec.roaring (oneTailFields 1000) := by
  let := PortableCodec.roaring
  have hparse : parseFacetDigestV2 (oneTail 1000) = .ok (1, oneTailFields 1000) := rfl
  refine (pricesSafely_iff (Or.inr hparse)).mpr fun field hfield c hc _ => ?_
  obtain rfl := List.mem_singleton.mp hfield
  obtain rfl := List.mem_singleton.mp hc
  refine ⟨?_, fun p hp => absurd hp (by simp), trivial⟩
  exact (by decide : 1000 + 200 < u64Bound)

/-- A tail that begins a hundred bytes before the end of the address space, with a container two hundred bytes into
it: the digest is accepted, and pricing it traps. -/
theorem traps_near_end : parseFacetDigestV2 (oneTail (u64Bound - 100)) = .ok (1, oneTailFields (u64Bound - 100)) ∧
    ¬ @PricesSafely PortableCodec.roaring (oneTailFields (u64Bound - 100)) := by
  let := PortableCodec.roaring
  have hparse : parseFacetDigestV2 (oneTail (u64Bound - 100)) = .ok (1, oneTailFields (u64Bound - 100)) := rfl
  refine ⟨hparse, not_pricesSafely (t := (0, 0)) rfl rfl
    (digested_of_parse takesDir_takeTailDir hparse _ List.mem_cons_self _ List.mem_cons_self) fun hfits => ?_⟩
  obtain ⟨hstart, -⟩ := hfits (by decide)
  exact absurd hstart (by decide)

end RoaringRange
