import RoaringRange.Fetch
import RoaringRange.Roaring

/-!
# Container-level reads of a posting (`posting.rs`)

A posting `(off, len)` is read whole when it is small or not seekable; otherwise only the containers
of the buckets asked for are fetched, near ones in one read, and re-framed into a bitmap.

    PostingAt f off len S → fetchHeadPrefix settles on S.below (eager * 65536)  (settles_fetchHeadPrefix)
    PostingAt f off len S → readPostingSubset settles on S, or on S restricted to the keys
                                                                        (settles_readPostingSubset)
    all tails hold sets → tailIntersectAnd settles on what they have in common
                                                                         (settles_tailIntersectAnd)
-/

namespace RoaringRange

open ByteString Faults Slices

/-! ## Spans of containers -/

/-- `posting::SPAN_GAP`. -/
def spanGap : Nat := 16384

/-- Spans planned so far, and for each container placed the index of its span. -/
abbrev ContainerPlan := List (Nat × Nat) × List Nat

/-- Places a container: into the last span when it starts within `spanGap` of its end. -/
def placeContainer (st : ContainerPlan) (c : Container) : ContainerPlan :=
  let spans :=
    match st.1.getLast? with
    | some last =>
      if c.start ≤ last.2 + spanGap then st.1.set (st.1.length - 1) (last.1, c.start + c.len)
      else st.1 ++ [(c.start, c.start + c.len)]
    | none => st.1 ++ [(c.start, c.start + c.len)]
  (spans, st.2 ++ [spans.length - 1])

/-- Places a container by any rule of when it joins the last span. -/
def placeContainerBy (joins : Nat × Nat → Container → Bool) (st : ContainerPlan) (c : Container) : ContainerPlan :=
  let spans :=
    match st.1.getLast? with
    | some last =>
      if joins last c then st.1.set (st.1.length - 1) (last.1, c.start + c.len)
      else st.1 ++ [(c.start, c.start + c.len)]
    | none => st.1 ++ [(c.start, c.start + c.len)]
  (spans, st.2 ++ [spans.length - 1])

/-- The rule of `fetch_containers`. -/
def joinsNear (last : Nat × Nat) (c : Container) : Bool := decide (c.start ≤ last.2 + spanGap)

theorem placeContainer_eq : placeContainer = placeContainerBy joinsNear := by
  funext st c
  unfold placeContainer placeContainerBy joinsNear
  simp only [decide_eq_true_eq]

/-- A needed container with its body cut out of its span's bytes. -/
def frameContainer (plan : ContainerPlan) (datas : List Bytes) (ci : Container × Nat) :
    FramedContainer :=
  let c := ci.1
  let span := plan.2.getD ci.2 0
  let s := (plan.1.getD span (0, 0)).1
  ⟨c.key, c.card, slice (datas.getD span []) (c.start - s) c.len⟩

/-- The plan after some containers: each is inside its span, no span is empty-ended past `bound`,
and the last span ends where the last container did. -/
structure PlanGood (placed : List Container) (bound : Nat) (st : ContainerPlan) : Prop where
  length_eq : st.2.length = placed.length
  holds : ∀ (i : Nat) (c : Container), placed[i]? = some c → ∃ (k : Nat) (sp : Nat × Nat),
    st.2[i]? = some k ∧ st.1[k]? = some sp ∧ sp.1 ≤ c.start ∧ c.start + c.len ≤ sp.2
  ordered : ∀ sp ∈ st.1, sp.1 ≤ sp.2 ∧ sp.2 ≤ bound

/-- Containers lie one after the other, the next not before `pos`. -/
def Tiled (pos : Nat) : List Container → Prop
  | [] => True
  | c :: cs => pos ≤ c.start ∧ Tiled (c.start + c.len) cs

theorem PlanGood.push {placed : List Container} {pos : Nat} {st : ContainerPlan} (hg : PlanGood placed pos st)
    {c : Container} (hc : pos ≤ c.start) :
    PlanGood (placed ++ [c]) (c.start + c.len)
      (st.1 ++ [(c.start, c.start + c.len)], st.2 ++ [(st.1 ++ [(c.start, c.start + c.len)]).length - 1]) where
  length_eq := by simp [hg.length_eq]
  holds := by
    intro i d hi
    by_cases hlt : i < placed.length
    · rw [List.getElem?_append_left hlt] at hi
      obtain ⟨k, sp, hk, hsp, h1, h2⟩ := hg.holds i d hi
      refine ⟨k, sp, ?_, ?_, h1, h2⟩
      · rw [List.getElem?_append_left (by rw [hg.length_eq]; exact hlt), hk]
      · rw [List.getElem?_append_left (List.getElem?_eq_some_iff.mp hsp).1, hsp]
    · obtain rfl : i = placed.length := by
        have := (List.getElem?_eq_some_iff.mp hi).1
        simp only [List.length_append, List.length_singleton] at this
        omega
      obtain rfl : c = d := by simpa using hi
      refine ⟨st.1.length, (c.start, c.start + c.len), ?_, by simp, Nat.le_refl _, Nat.le_refl _⟩
      rw [← hg.length_eq]
      simp
  ordered := by
    intro sp hsp
    rcases List.mem_append.mp hsp with hsp | hsp
    · have := hg.ordered sp hsp
      omega
    · obtain rfl := List.mem_singleton.mp hsp
      exact ⟨by simp, Nat.le_refl _⟩

theorem placeContainerBy_good {joins : Nat × Nat → Container → Bool} {placed : List Container} {pos : Nat}
    {st : ContainerPlan} (hg : PlanGood placed pos st) {c : Container} (hc : pos ≤ c.start) :
    PlanGood (placed ++ [c]) (c.start + c.len) (placeContainerBy joins st c) := by
  unfold placeContainerBy
  cases hlast : st.1.getLast? with
  | none => exact hg.push hc
  | some last =>
    simp only
    split
    · have hmem : last ∈ st.1 := List.mem_of_getLast? hlast
      have hidx : st.1[st.1.length - 1]? = some last := by
        rw [← List.getLast?_eq_getElem?, hlast]
      have hpos : st.1.length - 1 < st.1.length := (List.getElem?_eq_some_iff.mp hidx).1
      have hord := hg.ordered last hmem
      refine ⟨by simp [hg.length_eq], fun i d hi => ?_, fun sp hsp => ?_⟩
      · by_cases hlt : i < placed.length
        · rw [List.getElem?_append_left hlt] at hi
          obtain ⟨k, sp, hk, hsp, h1, h2⟩ := hg.holds i d hi
          have hk' : (st.2 ++ [(st.1.set (st.1.length - 1) (last.1, c.start + c.len)).length - 1])[i]? =
              some k := by
            rw [List.getElem?_append_left (by rw [hg.length_eq]; exact hlt), hk]
          by_cases hkl : k = st.1.length - 1
          · subst hkl
            obtain rfl : last = sp := by rw [hidx] at hsp; exact Option.some.inj hsp
            exact ⟨_, (last.1, c.start + c.len), hk', by rw [List.getElem?_set_self hpos], h1,
              by simp only; omega⟩
          · exact ⟨k, sp, hk', by rw [List.getElem?_set_ne (Ne.symm hkl), hsp], h1, h2⟩
        · obtain rfl : i = placed.length := by
            have := (List.getElem?_eq_some_iff.mp hi).1
            simp only [List.length_append, List.length_singleton] at this
            omega
          obtain rfl : c = d := by simpa using hi
          refine ⟨st.1.length - 1, (last.1, c.start + c.len), ?_, by rw [List.getElem?_set_self hpos],
            by simp only; omega, Nat.le_refl _⟩
          rw [← hg.length_eq]
          simp
      · rcases List.mem_or_eq_of_mem_set hsp with hsp | rfl
        · have := hg.ordered sp hsp
          omega
        · exact ⟨by simp only; omega, Nat.le_refl _⟩
    · exact hg.push hc

/-- However they join, containers that lie one after the other are planned into spans that hold them. -/
theorem foldl_placeContainerBy_good {joins : Nat × Nat → Container → Bool} {needed : List Container} :
    ∀ {placed : List Container} {pos : Nat} {st : ContainerPlan}, PlanGood placed pos st →
      Tiled pos needed → ∃ bound, (∀ n, pos ≤ n → (∀ c ∈ needed, c.start + c.len ≤ n) → bound ≤ n) ∧
        PlanGood (placed ++ needed) bound (needed.foldl (placeContainerBy joins) st) := by
  induction needed with
  | nil =>
    intro placed pos st hg _
    exact ⟨pos, fun n hn _ => hn, by simpa using hg⟩
  | cons c cs ih =>
    intro placed pos st hg ht
    obtain ⟨bound, hb, hg'⟩ := ih (placeContainerBy_good hg ht.1) ht.2
    refine ⟨bound, fun n _ hall => ?_, by simpa using hg'⟩
    exact hb n (hall c (by simp)) fun d hd => hall d (by simp [hd])

theorem Tiled.of_le {pos pos' : Nat} {cs : List Container} (h : Tiled pos cs) (hp : pos' ≤ pos) :
    Tiled pos' cs := by
  cases cs with
  | nil => trivial
  | cons c cs => exact ⟨Nat.le_trans hp h.1, h.2⟩

theorem Tiled.filter {q : Container → Bool} {cs : List Container} :
    ∀ {pos : Nat}, Tiled pos cs → Tiled pos (cs.filter q) := by
  induction cs with
  | nil => exact fun _ => trivial
  | cons c cs ih =>
    intro pos h
    rw [List.filter_cons]
    split
    · exact ⟨h.1, ih h.2⟩
    · exact ih (h.2.of_le (by have := h.1; omega))

theorem tiled_dirFrom (pos : Nat) (sel : List FramedContainer) : Tiled pos (dirFrom pos sel) := by
  induction sel generalizing pos with
  | nil => trivial
  | cons c cs ih => exact ⟨Nat.le_refl _, ih _⟩

/-- A directory entry locates `c` in the posting `b`. -/
def Locates (b : Bytes) (e : Container) (c : FramedContainer) : Prop :=
  e.key = c.key ∧ e.card = c.card ∧ e.len = c.body.length ∧ slice b e.start e.len = c.body ∧
    e.start + e.len ≤ b.length

theorem locates_dirFrom (sel : List FramedContainer) :
    List.Forall₂ (Locates (assemble sel)) (dirFrom (dataStart sel) sel) sel := by
  refine List.forall₂_iff_get.mpr ⟨length_dirFrom _ _, fun i h1 h2 => ?_⟩
  have hlen := length_assemble sel
  have hsum := sum_take_le sel (i + 1)
  rw [sum_take_succ sel i h2] at hsum
  simp only [List.get_eq_getElem]
  rw [getElem_dirFrom _ _ _ h2]
  exact ⟨rfl, rfl, rfl, slice_dirFrom sel i h2, by simp only; omega⟩

theorem locates_filter (q : Nat → Bool) {b : Bytes} {dir : List Container} {sel : List FramedContainer}
    (h : List.Forall₂ (Locates b) dir sel) :
    List.Forall₂ (Locates b) (dir.filter fun e => q e.key) (sel.filter fun c => q c.key) := by
  induction h with
  | nil => exact List.Forall₂.nil
  | @cons e c dir sel he _ ih =>
    simp only [List.filter_cons]
    rw [he.1]
    split
    · exact List.Forall₂.cons he ih
    · exact ih

/-- Cutting the needed bodies out of the spans gives the containers they locate. -/
theorem frame_eq {b : Bytes} {needed : List Container} {sel : List FramedContainer} {plan : ContainerPlan}
    {bound : Nat} (hl : List.Forall₂ (Locates b) needed sel) (hg : PlanGood needed bound plan) :
    needed.zipIdx.map (frameContainer plan (plan.1.map fun sp => slice b sp.1 (sp.2 - sp.1))) = sel := by
  refine List.ext_getElem (by simpa using hl.length_eq) fun i h1 h2 => ?_
  have hi : i < needed.length := by simpa using h1
  obtain ⟨hkey, hcard, hlen, hslice, -⟩ := List.forall₂_iff_get.mp hl |>.2 i hi h2
  obtain ⟨k, sp, hk, hsp, hlo, hhi⟩ := hg.holds i needed[i] (List.getElem?_eq_getElem hi)
  have hord := hg.ordered sp (List.mem_of_getElem? hsp)
  simp only [List.get_eq_getElem] at hkey hcard hlen hslice
  simp only [List.getElem_map, List.getElem_zipIdx, frameContainer, Nat.zero_add]
  have hspan : plan.2.getD i 0 = k := by simp [List.getD_eq_getElem?_getD, hk]
  have hdata : (plan.1.map fun sp => slice b sp.1 (sp.2 - sp.1)).getD k [] =
      slice b sp.1 (sp.2 - sp.1) := by
    simp [List.getD_eq_getElem?_getD, hsp]
  have hs : (plan.1.getD k (0, 0)).1 = sp.1 := by simp [List.getD_eq_getElem?_getD, hsp]
  rw [hspan, hdata, hs, slice_slice _ _ _ _ _ (by omega),
    show sp.1 + (needed[i].start - sp.1) = needed[i].start by omega, hslice, hkey, hcard]

/-! ## What a subset read returns -/

/-- `posting::HEADER_PREFIX`. -/
def headerPrefix : Nat := 4096

/-- The posting has the offset-table layout the reader can seek in. -/
def Seekable (f : MemoryFetch) (off len : Nat) : Prop :=
  getLe 4 (slice f.bytes off len) 0 = noRunContainerCookie

instance (f : MemoryFetch) (off len : Nat) : Decidable (Seekable f off len) :=
  inferInstanceAs (Decidable (_ = _))

/-- What `readPostingSubset` returns for `keys`: the chosen buckets when it seeks, else all. -/
def subsetRead (f : MemoryFetch) (off len : Nat) (S : Bitmap) (keys : List Nat) : Bitmap :=
  if headerPrefix < len ∧ Seekable f off len then S.restrict keys else S

theorem subsetRead_subset {f : MemoryFetch} {off len : Nat} {S : Bitmap} {keys : List Nat} {d : Nat} (h : d ∈ subsetRead f off len S keys) : d ∈ S := by
  unfold subsetRead at h
  split at h
  · exact (Bitmap.mem_restrict.mp h).1
  · exact h

theorem mem_subsetRead {f : MemoryFetch} {off len : Nat} {S : Bitmap} {keys : List Nat} {d : Nat} (hd : highKey d ∈ keys) :
    d ∈ subsetRead f off len S keys ↔ d ∈ S := by
  refine ⟨subsetRead_subset, fun h => ?_⟩
  unfold subsetRead
  split
  · exact Bitmap.mem_restrict.mpr ⟨h, hd⟩
  · exact h

/-! ## Algorithm -/

section

variable [Roaring]

/-- `index::deserialize`. -/
def deserialize (b : Bytes) : Except IndexError Bitmap :=
  match Roaring.deserialize b with
  | .ok bm => .ok bm
  | .error msg => .error (.roaring msg)

/-- `posting::fetch_containers`. -/
def fetchContainers (f : MemoryFetch) (off : Nat) (needed : List Container) : Io Bitmap :=
  if needed.isEmpty then pure ∅
  else do
    let plan := needed.foldl placeContainer ([], [])
    let datas ← tryAll (plan.1.map fun sp => f.read (off + sp.1) (sp.2 - sp.1))
    ofOutcome (deserialize (assemble (needed.zipIdx.map (frameContainer plan datas))))

/-- `fetch_containers` over the spans that any rule of joining makes. -/
def fetchContainersBy (joins : Nat × Nat → Container → Bool) (f : MemoryFetch) (off : Nat)
    (needed : List Container) : Io Bitmap :=
  if needed.isEmpty then pure ∅
  else do
    let plan := needed.foldl (placeContainerBy joins) ([], [])
    let datas ← tryAll (plan.1.map fun sp => f.read (off + sp.1) (sp.2 - sp.1))
    ofOutcome (deserialize (assemble (needed.zipIdx.map (frameContainer plan datas))))

theorem fetchContainers_eq : fetchContainers = fetchContainersBy joinsNear := by
  funext f off needed
  unfold fetchContainers fetchContainersBy
  rw [placeContainer_eq]

/-- The whole posting. -/
def readPosting (f : MemoryFetch) (off len : Nat) : Io Bitmap := do
  let b ← f.read off len
  ofOutcome (deserialize b)

/-- `posting::read_posting_subset`. -/
def readPostingSubset (f : MemoryFetch) (off len : Nat) (keys : List Nat) : Io Bitmap := do
  let pre ← f.read off (min len headerPrefix)
  if len ≤ pre.length then ofOutcome (deserialize pre)
  else
    match neededHeaderLen pre with
    | none => readPosting f off len
    | some hl => do
      let header ← if hl ≤ pre.length then pure pre else f.read off hl
      match parseDir header len with
      | none => readPosting f off len
      | some dir => fetchContainers f off (dir.filter fun c => found keys c.key)

/-- `read_posting_subset` over the spans that any rule of joining makes. -/
def readPostingSubsetBy (joins : Nat × Nat → Container → Bool) (f : MemoryFetch) (off len : Nat)
    (keys : List Nat) : Io Bitmap := do
  let pre ← f.read off (min len headerPrefix)
  if len ≤ pre.length then ofOutcome (deserialize pre)
  else
    match neededHeaderLen pre with
    | none => readPosting f off len
    | some hl => do
      let header ← if hl ≤ pre.length then pure pre else f.read off hl
      match parseDir header len with
      | none => readPosting f off len
      | some dir => fetchContainersBy joins f off (dir.filter fun c => found keys c.key)

theorem readPostingSubset_eq : readPostingSubset = readPostingSubsetBy joinsNear := by
  funext f off len keys
  unfold readPostingSubset readPostingSubsetBy
  rw [fetchContainers_eq]

/-- `posting::fetch_head_prefix`. -/
def fetchHeadPrefix (f : MemoryFetch) (off len eagerBuckets : Nat) : Io Bitmap := do
  let bm ← readPostingSubset f off len (List.range eagerBuckets)
  pure (bm.below (eagerBuckets * bucketSize))

/-- The loop of `tail_intersect_and` over the postings after the first. -/
def intersectRest (f : MemoryFetch) (running : Bitmap) : List (Nat × Nat) → Io Bitmap
  | [] => pure running
  | t :: ts =>
    if running.isEmpty then pure running
    else do
      let sub ← readPostingSubset f t.1 t.2 (distinctHighKeys running)
      intersectRest f (running ∩ sub) ts

/-- `posting::tail_intersect_and`. -/
def tailIntersectAnd (f : MemoryFetch) (tails : List (Nat × Nat)) : Io Bitmap :=
  match sortByKey Prod.snd tails with
  | [] => pure ∅
  | t :: ts => do
    let running ← readPosting f t.1 t.2
    intersectRest f running ts

/-! ## Postings of a file -/

/-- The bytes `[off, off + len)` of the file are a posting of `S`. -/
structure PostingAt (f : MemoryFetch) (off len : Nat) (S : Bitmap) : Prop where
  inFile : f.InFile off len
  represents : Represents (slice f.bytes off len) S

theorem deserialize_of_represents {b : Bytes} {S : Bitmap} (h : Represents b S) :
    deserialize b = .ok S := by
  simp only [deserialize, h.reads]

section Reads

variable {f : MemoryFetch} {off len : Nat} {S : Bitmap}

theorem PostingAt.length_eq (h : PostingAt f off len S) : (slice f.bytes off len).length = len :=
  length_slice _ _ _ h.inFile.2.2

theorem settles_readPosting (h : PostingAt f off len S) :
    Settles (readPosting f off len) (.ok S) := by
  refine Settles.bind (MemoryFetch.settles_read h.inFile) ?_
  rw [deserialize_of_represents h.represents]
  exact Settles.ofOutcome _

theorem PostingAt.portable_eq (h : PostingAt f off len S) (hs : Seekable f off len) :
    slice f.bytes off len = portable S := h.represents.layout hs

theorem PostingAt.length_portable (h : PostingAt f off len S) (hs : Seekable f off len) :
    (portable S).length = len := by
  rw [← h.portable_eq hs, h.length_eq]

/-- A first part of a seekable posting. -/
theorem PostingAt.prefix_eq (h : PostingAt f off len S) (hs : Seekable f off len) {n : Nat}
    (hn : n ≤ len) : slice f.bytes off n = slice (portable S) 0 n := by
  rw [← h.portable_eq hs, slice_slice _ _ _ _ _ (by omega), Nat.add_zero]

/-- The directory of a seekable posting, from any first part that holds the header. -/
theorem PostingAt.parseDir_eq (h : PostingAt f off len S) (hs : Seekable f off len) {n : Nat}
    (hd : dataStart (containersOf S) ≤ n) (hn : n ≤ len) :
    parseDir (slice f.bytes off n) len = some (dirFrom (dataStart (containersOf S)) (containersOf S)) := by
  have hp := h.length_portable hs
  rw [h.prefix_eq hs hn, ← hp]
  exact parseDir_assemble (encodable_containersOf S) hd (by rw [← portable, hp]; exact hn)

/-- What a header read of at least 8 bytes (or the whole posting) tells about seeking. -/
theorem PostingAt.neededHeaderLen_eq (h : PostingAt f off len S) {n : Nat} (hn : n ≤ len)
    (h8 : n = len ∨ 8 ≤ n) :
    neededHeaderLen (slice f.bytes off n) =
      if Seekable f off len then some (dataStart (containersOf S)) else none := by
  have hfile := h.inFile.2.2
  split
  · next hs =>
    have hp := h.length_portable hs
    have hd := dataStart_le_length S
    have h8' : 8 ≤ n := by
      simp only [dataStart] at hd
      omega
    rw [h.prefix_eq hs hn]
    exact neededHeaderLen_assemble (encodable_containersOf S) h8' (by rw [← portable, hp]; exact hn)
  · next hs =>
    unfold neededHeaderLen
    rw [length_slice _ _ _ (by omega)]
    by_cases hlt : n < 8
    · simp [hlt]
    · have hc : getLe 4 (slice f.bytes off n) 0 = getLe 4 (slice f.bytes off len) 0 := by
        rw [getLe_slice _ _ _ _ _ (by omega), getLe_slice _ _ _ _ _ (by omega)]
      rw [hc]
      exact if_pos (Or.inr hs)

/-! ## Fetching containers -/

/-- Fetching the containers of some buckets gives the docs of those buckets, whatever spans are read for them. -/
theorem settles_fetchContainersBy (joins : Nat × Nat → Container → Bool) (h : PostingAt f off len S)
    (hs : Seekable f off len) {keys : List Nat} (hk : keys.Pairwise (· < ·)) :
    Settles (fetchContainersBy joins f off
      ((dirFrom (dataStart (containersOf S)) (containersOf S)).filter fun c => found keys c.key))
      (.ok (S.restrict keys)) := by
  have hq : ∀ k, found keys k = decide (k ∈ keys) := fun k => by
    rw [Bool.eq_iff_iff, found_iff hk, decide_eq_true_eq]
  have hloc := locates_filter (fun k => decide (k ∈ keys)) (locates_dirFrom (containersOf S))
  have hdes := deserialize_assemble_filter S keys
  simp only [hq]
  generalize hneed : (dirFrom (dataStart (containersOf S)) (containersOf S)).filter
    (fun c => decide (c.key ∈ keys)) = needed at *
  have htiled : Tiled 0 needed := by
    rw [← hneed]
    exact (Tiled.filter (tiled_dirFrom _ _)).of_le (Nat.zero_le _)
  unfold fetchContainersBy
  split
  · next hnil =>
    obtain rfl := List.isEmpty_iff.mp hnil
    have hsel := List.forall₂_nil_left_iff.mp hloc
    rw [hsel] at hdes
    have hempty : Roaring.deserialize (assemble []) = .ok (∅ : Bitmap) := Roaring.deserialize_portable ∅
    rw [hempty] at hdes
    rw [← Except.ok.inj hdes]
    exact Settles.pure _
  · obtain ⟨bound, hbound, hg⟩ := @foldl_placeContainerBy_good joins needed [] 0 ([], [])
      ⟨rfl, by simp, by simp⟩ htiled
    have hp := h.length_portable hs
    have hb : bound ≤ (portable S).length := by
      refine hbound _ (Nat.zero_le _) fun c hc => ?_
      obtain ⟨i, hi, rfl⟩ := List.getElem_of_mem hc
      exact (List.forall₂_iff_get.mp hloc |>.2 i hi (by rw [← hloc.length_eq]; exact hi)).2.2.2.2
    rw [List.nil_append] at hg
    refine Settles.bind (a := (needed.foldl (placeContainerBy joins) ([], [])).1.map
      fun sp => slice (portable S) sp.1 (sp.2 - sp.1)) ?_ ?_
    · refine settles_tryAll_map fun sp hsp => ?_
      have hord := hg.ordered sp hsp
      have hin : f.InFile (off + sp.1) (sp.2 - sp.1) := h.inFile.mono (by omega)
      rw [← h.portable_eq hs, slice_slice _ _ _ _ _ (by omega)]
      exact MemoryFetch.settles_read hin
    · rw [portable, frame_eq hloc hg, deserialize, hdes]
      exact Settles.ofOutcome _

theorem settles_fetchContainers (h : PostingAt f off len S) (hs : Seekable f off len)
    {keys : List Nat} (hk : keys.Pairwise (· < ·)) :
    Settles (fetchContainers f off
      ((dirFrom (dataStart (containersOf S)) (containersOf S)).filter fun c => found keys c.key))
      (.ok (S.restrict keys)) := by
  rw [fetchContainers_eq]
  exact settles_fetchContainersBy joinsNear h hs hk

/-! ## Reading part of a posting -/

theorem settles_readPostingSubsetBy (joins : Nat × Nat → Container → Bool) (h : PostingAt f off len S)
    {keys : List Nat} (hk : keys.Pairwise (· < ·)) :
    Settles (readPostingSubsetBy joins f off len keys) (.ok (subsetRead f off len S keys)) := by
  have hfile := h.inFile.2.2
  have hpre : (slice f.bytes off (min len headerPrefix)).length = min len headerPrefix :=
    length_slice _ _ _ (by omega)
  refine Settles.bind (MemoryFetch.settles_read (h.inFile.mono (by omega))) ?_
  rw [hpre]
  unfold subsetRead
  by_cases hsmall : len ≤ min len headerPrefix
  · have hmin : min len headerPrefix = len := by omega
    rw [if_pos hsmall, if_neg (by omega), hmin, deserialize_of_represents h.represents]
    exact Settles.ofOutcome _
  · have hbig : headerPrefix < len := by omega
    have hmin : min len headerPrefix = headerPrefix := by omega
    rw [if_neg hsmall, hmin,
      h.neededHeaderLen_eq (n := headerPrefix) (by omega) (Or.inr (by decide))]
    by_cases hs : Seekable f off len
    · have hd : dataStart (containersOf S) ≤ len := by
        rw [← h.length_portable hs]
        exact dataStart_le_length S
      simp only [if_pos hs, if_pos (And.intro hbig hs)]
      split
      · next hle =>
        refine Settles.bind (Settles.pure _) ?_
        rw [h.parseDir_eq hs hle (by omega)]
        exact settles_fetchContainersBy joins h hs hk
      · refine Settles.bind (MemoryFetch.settles_read (h.inFile.mono (by omega))) ?_
        rw [h.parseDir_eq hs (Nat.le_refl _) hd]
        exact settles_fetchContainersBy joins h hs hk
    · simp only [if_neg hs, if_neg (fun hh : headerPrefix < len ∧ Seekable f off len => hs hh.2)]
      exact settles_readPosting h

theorem settles_readPostingSubset (h : PostingAt f off len S) {keys : List Nat}
    (hk : keys.Pairwise (· < ·)) :
    Settles (readPostingSubset f off len keys) (.ok (subsetRead f off len S keys)) := by
  rw [readPostingSubset_eq]
  exact settles_readPostingSubsetBy joinsNear h hk

/-- **The eager prefix** is exactly the docs below it. -/
theorem settles_fetchHeadPrefix (h : PostingAt f off len S) (eager : Nat) :
    Settles (fetchHeadPrefix f off len eager) (.ok (S.below (eager * bucketSize))) := by
  have hsub : (subsetRead f off len S (List.range eager)).below (eager * bucketSize) =
      S.below (eager * bucketSize) := by
    refine AscSet.ext_mem fun d => ?_
    simp only [Bitmap.mem_below, and_congr_left_iff]
    intro hd
    refine mem_subsetRead (List.mem_range.mpr ?_)
    exact Nat.div_lt_of_lt_mul (by rw [Nat.mul_comm]; exact hd)
  rw [← hsub]
  exact Settles.map (settles_readPostingSubset h List.pairwise_lt_range)

end Reads

/-! ## Intersecting whole postings -/

/-- Each range of `ranges` is a posting of the set at its place in `sets`. -/
def PostingsAt (f : MemoryFetch) (ranges : List (Nat × Nat)) (sets : List Bitmap) : Prop :=
  List.Forall₂ (fun r S => PostingAt f r.1 r.2 S) ranges sets

theorem PostingsAt.getElem {f : MemoryFetch} {ranges : List (Nat × Nat)} {sets : List Bitmap}
    (h : PostingsAt f ranges sets) {i : Nat} (hi : i < ranges.length) (hj : i < sets.length) :
    PostingAt f ranges[i].1 ranges[i].2 sets[i] := (List.forall₂_iff_get.mp h).2 i hi hj

theorem PostingsAt.exists_set {f : MemoryFetch} {ranges : List (Nat × Nat)} {sets : List Bitmap}
    (h : PostingsAt f ranges sets) {r : Nat × Nat} (hr : r ∈ ranges) :
    ∃ S ∈ sets, PostingAt f r.1 r.2 S := by
  obtain ⟨i, hi, rfl⟩ := List.getElem_of_mem hr
  have hj : i < sets.length := by rw [← h.length_eq]; exact hi
  exact ⟨sets[i], List.getElem_mem hj, h.getElem hi hj⟩

theorem settles_intersectRest {f : MemoryFetch} {ranges : List (Nat × Nat)} {sets : List Bitmap}
    (h : PostingsAt f ranges sets) (running : Bitmap) :
    ∃ T : Bitmap, Settles (intersectRest f running ranges) (.ok T) ∧
      ∀ d, d ∈ T ↔ d ∈ running ∧ ∀ S ∈ sets, d ∈ S := by
  induction h generalizing running with
  | nil => exact ⟨running, Settles.pure _, by simp⟩
  | @cons r S ranges sets hr _ ih =>
    unfold intersectRest
    split
    · next hempty =>
      refine ⟨running, Settles.pure _, fun d => ?_⟩
      have := AscSet.isEmpty_iff_forall.mp hempty d
      tauto
    · obtain ⟨T, hT, hmem⟩ := ih (running ∩ subsetRead f r.1 r.2 S (distinctHighKeys running))
      refine ⟨T, (settles_readPostingSubset hr (distinctHighKeys_asc _)).bind hT, fun d => ?_⟩
      rw [hmem, AscSet.mem_inter, List.forall_mem_cons, and_assoc]
      refine and_congr_right fun hd => and_congr_left fun _ => ?_
      exact mem_subsetRead (mem_distinctHighKeys.mpr ⟨d, hd, rfl⟩)

/-- **The whole-posting AND** is the intersection, whichever posting seeds it. -/
theorem settles_tailIntersectAnd {f : MemoryFetch} {ranges : List (Nat × Nat)} {sets : List Bitmap}
    (h : PostingsAt f ranges sets) :
    Settles (tailIntersectAnd f ranges) (.ok (AscSet.inters sets)) := by
  obtain ⟨sets', hperm, h'⟩ := forall₂_of_perm h (sortByKey_perm Prod.snd ranges)
  rw [← AscSet.inters_congr fun S => hperm.mem_iff (a := S)]
  unfold tailIntersectAnd
  generalize sortByKey Prod.snd ranges = order at h'
  cases h' with
  | nil => exact Settles.pure _
  | @cons r S order sets' hr hrest =>
    obtain ⟨T, hT, hmem⟩ := settles_intersectRest hrest S
    have heq : AscSet.inters (S :: sets') = T := AscSet.ext_mem fun d => by
      rw [AscSet.mem_inters (by simp), hmem, List.forall_mem_cons]
    rw [heq]
    exact (settles_readPosting hr).bind hT

end

end RoaringRange
