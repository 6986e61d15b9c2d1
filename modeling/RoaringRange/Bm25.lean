import RoaringRange.Lib.Merge
import RoaringRange.Terms
import RoaringRange.Threshold

/-!
# BM25 over an impact sidecar (`bm25.rs`)

The sidecar holds for every term a byte per doc of its posting, in doc order.  A doc's byte is addressed
by its rank in the posting, and the heads of the postings rank their docs as the whole postings do.

`Holds imp off S impact`: the entry keyed `off` leads to the bytes `impact d` of the docs `d` of `S`.  Then

    rerank settles on the candidates scored by just these bytes, best first            (settles_rerank)
    the merge of a min-match search settles on the docs of enough postings      (minMatchCandidates_eq)
    both searches score the first `m` docs they match                    (settles_searchBm25, …MinMatch)
-/

namespace RoaringRange

open ByteString Faults Slices

/-- The 32-bit floats of the scorer and what it computes with them. -/
class ScoreMath where
  Score : Type
  /-- `f32::from_le_bytes`. -/
  ofBits : Nat → Score
  /-- `f32::to_le_bytes`. -/
  toBits : Score → Nat
  toBits_lt : ∀ x, toBits x < 2 ^ 32
  ofBits_toBits : ∀ x, ofBits (toBits x) = x
  /-- `x.is_finite() && x > 0.0`. -/
  usable : Score → Bool
  zero : Score
  /-- `ln(1 + (n - df + 0.5) / (df + 0.5))` of the corpus size and a term's number of docs. -/
  idf : Nat → Nat → Score
  /-- `score + idf * byte * scale / 255`. -/
  addImpact : Score → Score → Nat → Score → Score
  /-- `partial_cmp(..).unwrap_or(Equal)`. -/
  cmp : Score → Score → Ordering
  /-- `k1 + 1.0`. -/
  scaleOf : Score → Score
  /-- A sum over a count. -/
  mean : Nat → Nat → Score
  /-- `(s * 255.0 / (k1 + 1.0)).round()` with `s` from `tf`, the doc's length, `avgdl`, `k1` and `b`. -/
  impact : Nat → Nat → Score → Score → Score → Int

export ScoreMath (Score)

def rrsbMagic : Bytes := [82, 82, 83, 66]

def rrsbVersion : Nat := 1

def rrsbHeaderSize : Nat := 64

def entrySize : Nat := 20

/-- `RoaringBitmap::rank`. -/
def Bitmap.rank (bm : Bitmap) (d : Nat) : Nat := (bm.toList.filter fun e => e ≤ d).length

structure ScoredDoc [ScoreMath] where
  docId : Nat
  score : Score

structure ImpactIndex [ScoreMath] where
  fetch : MemoryFetch
  scale : Score
  docCount : Nat
  termCount : Nat
  stride : Nat
  entriesOff : Nat
  impactsOff : Nat
  sparse : List Nat

namespace ImpactIndex

variable [ScoreMath]

/-- The checks of `open` on the header; how many sparse keys follow it. -/
def checkHeader (header : Bytes) : Except IndexError Nat :=
  if header.length < rrsbHeaderSize then .error (.malformed "short RRSB header")
  else if slice header 0 4 ≠ rrsbMagic then .error (.badMagic (slice header 0 4))
  else if getLe 2 header 4 ≠ rrsbVersion then .error (.badVersion (getLe 2 header 4))
  else
    let scale := ScoreMath.ofBits (getLe 4 header 8)
    let termCount := getLe 4 header 24
    let stride := getLe 4 header 28
    if stride = 0 ∨ ScoreMath.usable scale = false then .error (.malformed "bad RRSB stride/scale")
    else .ok ((termCount + stride - 1) / stride)

/-- What `open` keeps. -/
def ofHeader (f : MemoryFetch) (header sparseBytes : Bytes) (sparseCount : Nat) : ImpactIndex where
  fetch := f
  scale := ScoreMath.ofBits (getLe 4 header 8)
  docCount := getLe 8 header 48
  termCount := getLe 4 header 24
  stride := getLe 4 header 28
  entriesOff := getLe 8 header 32
  impactsOff := getLe 8 header 40
  sparse := (List.range sparseCount).map fun i => getLe 8 sparseBytes (i * 8)

def «open» (f : MemoryFetch) : Io ImpactIndex := do
  let header ← f.read 0 rrsbHeaderSize
  let sparseCount ← ofOutcome (checkHeader header)
  let sparseBytes ← f.read rrsbHeaderSize (sparseCount * 8)
  if sparseBytes.length < sparseCount * 8 then ofOutcome (.error (.malformed "short RRSB sparse index"))
  else pure (ofHeader f header sparseBytes sparseCount)

/-- `ImpactIndex::entry_stripe`, the byte range. -/
def entryStripe (ix : ImpactIndex) (headOff : Nat) : Nat × Nat :=
  let slot :=
    match binarySearch ix.sparse headOff with
    | .ok i => i
    | .error i => i - 1
  let first := slot * ix.stride
  let count := min (ix.termCount - first) ix.stride
  (ix.entriesOff + first * entrySize, count * entrySize)

end ImpactIndex

/-- The search of `entries` over `[lo, hi)`; every pass shrinks it, so `fuel = hi - lo` is enough. -/
def findEntryLoop (block : Bytes) (h : Nat) : Nat → Nat → Nat → Option (Nat × Nat)
  | 0, _, _ => none
  | fuel + 1, lo, hi =>
    if lo < hi then
      let mid := (lo + hi) / 2
      let key := getLe 8 block (mid * entrySize)
      if key < h then findEntryLoop block h fuel (mid + 1) hi
      else if h < key then findEntryLoop block h fuel lo mid
      else some (getLe 8 block (mid * entrySize + 8), getLe 4 block (mid * entrySize + 16))
    else none

/-- A term's entry in the stripe read for it: where its bytes start and how many docs it has. -/
def findEntry (block : Bytes) (h : Nat) : Option (Nat × Nat) :=
  findEntryLoop block h (block.length / entrySize) 0 (block.length / entrySize)

/-- Best score first, and of equal scores the smaller doc. -/
def scoreLe [ScoreMath] (x y : ScoredDoc) : Bool :=
  (ScoreMath.cmp y.score x.score).then (compare x.docId y.docId) != .gt

namespace ImpactIndex

variable [ScoreMath]

def entries (ix : ImpactIndex) (headOffs : List Nat) : Io (List (Nat × Nat)) := do
  let blocks ← readCoalesced ix.fetch (headOffs.map ix.entryStripe) coalesceGap
  ofOutcome (collect ((headOffs.zip blocks).map fun x =>
    match findEntry x.2 x.1 with
    | some e => .ok e
    | none => .error (.malformed "term head_off missing from RRSB")))

def impactPos (ix : ImpactIndex) (rel rank : Nat) : Except IndexError Nat :=
  if u64Bound ≤ ix.impactsOff + rel then .error (.malformed "RRSB impact offset overflow")
  else if u64Bound ≤ ix.impactsOff + rel + (rank - 1) then .error (.malformed "RRSB impact offset overflow")
  else .ok (ix.impactsOff + rel + (rank - 1))

/-- The reads of one term: a position and the candidate's index for every candidate in the posting. -/
def termReads (ix : ImpactIndex) (bm : Bitmap) (rel : Nat) (candidates : List Nat) :
    List (Except IndexError (Nat × Nat)) :=
  (candidates.zipIdx.filter fun c => decide (c.1 ∈ bm)).map fun c =>
    (ix.impactPos rel (bm.rank c.1)).map fun pos => (pos, c.2)

def impactReads (ix : ImpactIndex) (postings : List (Nat × Bitmap)) (entries : List (Nat × Nat))
    (candidates : List Nat) : List (Except IndexError (Nat × (Nat × Nat))) :=
  (postings.zip entries).zipIdx.flatMap fun t =>
    (ix.termReads t.1.1.2 t.1.2.1 candidates).map fun r => r.map fun r => (r.1, (t.2, r.2))

/-- The scores after the bytes read are added. -/
def addScores (ix : ImpactIndex) (idf : List Score) (reads : List ((Nat × Nat) × Nat)) (scores : List Score) :
    List Score :=
  reads.foldl (fun scores r =>
    scores.modify r.1.2 fun s => ScoreMath.addImpact s (idf.getD r.1.1 ScoreMath.zero) r.2 ix.scale) scores

def firstByte (b : Bytes) : Except IndexError Nat :=
  match b.head? with
  | some b => .ok b.toNat
  | none => .error (.malformed "short RRSB impact read")

def rerank (ix : ImpactIndex) (postings : List (Nat × Bitmap)) (candidates : List Nat) (k : Nat) :
    Io (List ScoredDoc) :=
  if candidates.isEmpty ∨ postings.isEmpty ∨ k = 0 then pure []
  else do
    let entries ← ix.entries (postings.map Prod.fst)
    let reads ← ofOutcome (collect (ix.impactReads postings entries candidates))
    let bytes ← readCoalesced ix.fetch (reads.map fun r => (r.1, 1)) coalesceGap
    let added ← ofOutcome (collect ((reads.zip bytes).map fun r => (firstByte r.2).map fun b => (r.1.2, b)))
    let idf := entries.map fun e => ScoreMath.idf ix.docCount e.2
    let scores := ix.addScores idf added (List.replicate candidates.length ScoreMath.zero)
    let doc := fun i => (⟨candidates.getD i 0, scores.getD i ScoreMath.zero⟩ : ScoredDoc)
    let order := (List.range candidates.length).mergeSort fun a b => scoreLe (doc a) (doc b)
    pure ((order.take k).map doc)

end ImpactIndex

/-! ## The two searches -/

section

variable [Roaring] [Unicode] [TokenFilters] [ScoreMath]

/-- `bm25::search_bm25`.  An empty intersection ends the search as `rerank` does without candidates. -/
def searchBm25 (terms : TermIndex) (impacts : ImpactIndex) (query : String) (m k : Nat) : Io (List ScoredDoc) := do
  match ← terms.queryHeadPostings query with
  | none => pure []
  | some heads =>
    let bms := heads.map fun h => h.2.head
    let acc := AscSet.interAll ((AscSet.sortByLen bms).headD ∅) bms
    if m ≤ acc.len ∨ heads.any (fun h => 0 < h.2.tailSize) = false then
      let candidates := acc.toList.take m
      if candidates.isEmpty then pure []
      else impacts.rerank (heads.map fun h => (h.1, h.2.head)) candidates k
    else do
      let tails ← tryAll (heads.map fun h => terms.tail h.2.tailOff h.2.tailSize)
      let postings := List.zipWith (fun h t => (h.1, h.2.head ∪ t)) heads tails
      let acc := AscSet.inters (AscSet.sortByLen (postings.map Prod.snd))
      impacts.rerank postings (acc.toList.take m) k

/-- The loop of `min_match_candidates`; every pass takes an element, so `fuel` above their number is
enough. -/
def minMatchLoop (minMatch limit : Nat) : Nat → List (List Nat) → List Nat → List Nat
  | 0, _, out => out
  | fuel + 1, iters, out =>
    match Merge.leastKey id iters with
    | none => out
    | some min =>
      let run := (Merge.takeRun id min iters).length
      let iters := Merge.dropRun id min iters
      if minMatch ≤ run then
        let out := out ++ [min]
        if limit ≤ out.length then out else minMatchLoop minMatch limit fuel iters out
      else minMatchLoop minMatch limit fuel iters out

def minMatchCandidates (bitmaps : List Bitmap) (minMatch limit : Nat) : List Nat :=
  if limit = 0 ∨ minMatch = 0 then []
  else
    let iters := bitmaps.map AscSet.toList
    minMatchLoop minMatch limit (Merge.size iters) iters []

def searchBm25MinMatch (terms : TermIndex) (impacts : ImpactIndex) (query : String) (m k minMatch : Nat) :
    Io (List ScoredDoc) := do
  let heads ← terms.queryHeadPostingsPresent query
  if heads.isEmpty then pure []
  else
    let need := max 1 (min minMatch heads.length)
    let acc := minMatchCandidates (heads.map fun h => h.2.head) need m
    if m ≤ acc.length ∨ heads.any (fun h => 0 < h.2.tailSize) = false then
      if acc.isEmpty then pure []
      else impacts.rerank (heads.map fun h => (h.1, h.2.head)) acc k
    else do
      let tails ← tryAll (heads.map fun h => terms.tail h.2.tailOff h.2.tailSize)
      let postings := List.zipWith (fun h t => (h.1, h.2.head ∪ t)) heads tails
      let candidates := minMatchCandidates (postings.map Prod.snd) need m
      if candidates.isEmpty then pure []
      else impacts.rerank postings candidates k

end

/-! ## The merge of the postings -/

section

variable {sets : List Bitmap} {need : Nat}

/-- The docs of enough postings, from the runs of their merge. -/
theorem minMatchLoop_eq (limit : Nat) {fuel : Nat} : ∀ {iters : List (List Nat)} {out : List Nat}, out.length < limit →
    minMatchLoop need limit fuel iters out =
      out ++ (((Merge.runs id fuel iters).filter fun r => need ≤ r.2.length).map Prod.fst).take (limit - out.length) := by
  induction fuel with
  | zero =>
    intro iters out _
    simp [minMatchLoop, Merge.runs]
  | succ fuel ih =>
    intro iters out hout
    unfold minMatchLoop Merge.runs
    cases Merge.leastKey id iters with
    | none => simp
    | some d =>
      simp only
      by_cases hrun : need ≤ (Merge.takeRun id d iters).length
      · rw [if_pos hrun, List.filter_cons_of_pos (by simpa using hrun), List.map_cons]
        obtain ⟨n, hn⟩ : ∃ n, limit - out.length = n + 1 := ⟨limit - out.length - 1, by omega⟩
        rw [hn, List.take_succ_cons]
        have hlen : (out ++ [d]).length = out.length + 1 := by rw [List.length_append, List.length_singleton]
        by_cases hfull : limit ≤ (out ++ [d]).length
        · rw [if_pos hfull]
          rw [hlen] at hfull
          rw [show n = 0 by omega, List.take_zero]
        · rw [if_neg hfull, ih (by omega), hlen, show limit - (out.length + 1) = n by omega, List.append_assoc]
          rfl
      · rw [if_neg hrun, List.filter_cons_of_neg (by simpa using hrun)]
        exact ih hout

/-- A run has the length of the number of postings that hold its doc. -/
theorem length_run (sets : List Bitmap) (d : Nat) :
    ((sets.map AscSet.toList).filterMap fun xs => xs.find? fun x => decide (id x = d)).length = hits sets d := by
  rw [List.filterMap_map, List.length_filterMap_eq_countP]
  unfold hits
  refine List.countP_congr fun S _ => ?_
  show (S.toList.find? fun x => decide (id x = d)).isSome = true ↔ decide (d ∈ S) = true
  rw [List.find?_isSome, decide_eq_true_iff]
  constructor
  · rintro ⟨x, hx, hxd⟩
    have : x = d := by simpa using hxd
    rwa [this] at hx
  · intro hd
    exact ⟨d, hd, by simp⟩

/-- **The merge finds the docs of at least `need` postings**, in order, as far as the limit goes. -/
theorem minMatchCandidates_eq (hneed : 1 ≤ need) (limit : Nat) :
    minMatchCandidates sets need limit = (matching sets need).toList.take limit := by
  unfold minMatchCandidates
  by_cases hl : limit = 0
  · rw [if_pos (Or.inl hl), hl, List.take_zero]
  rw [if_neg (by omega)]
  simp only
  rw [minMatchLoop_eq limit (by simpa using Nat.pos_of_ne_zero hl), List.nil_append, List.length_nil, Nat.sub_zero]
  congr 1
  obtain ⟨hasc, hiff⟩ := @Merge.runs_spec _ _ _ id (Merge.size (sets.map AscSet.toList)) (sets.map AscSet.toList)
    (by
      intro xs hxs
      obtain ⟨S, -, rfl⟩ := List.mem_map.mp hxs
      exact S.asc) (Nat.le_refl _)
  have hkeys : (((Merge.runs id (Merge.size (sets.map AscSet.toList)) (sets.map AscSet.toList)).filter
      fun r => need ≤ r.2.length).map Prod.fst).Pairwise (· < ·) := List.pairwise_map.mpr (hasc.filter _)
  refine hkeys.eq_of_mem_iff (matching sets need).asc fun {d} => ?_
  rw [AscSet.mem_toList, mem_matching hneed, ← length_run, List.mem_map]
  constructor
  · rintro ⟨⟨k, vs⟩, hr, rfl⟩
    obtain ⟨hmem, hlen⟩ := List.mem_filter.mp hr
    rw [← ((hiff k vs).mp hmem).1]
    simpa using hlen
  · intro hlen
    refine ⟨(d, _), List.mem_filter.mpr ⟨(hiff d _).mpr ⟨rfl, ?_⟩, by simpa using hlen⟩, rfl⟩
    rw [← List.length_pos_iff]
    omega

/-- No set of `u32` reaches past this limit. -/
theorem take_toList_of_u32Bound_le {limit : Nat} (S : Bitmap) (h : u32Bound ≤ limit) :
    S.toList.take limit = S.toList := by
  have hsub : S.toList ⊆ List.range u32Bound := fun d hd => List.mem_range.mpr (S.all d hd)
  have hle := (List.subperm_of_subset S.nodup hsub).length_le
  rw [List.length_range] at hle
  exact List.take_of_length_le (Nat.le_trans hle h)

/-- **Threshold counting is exact**, by the counters of the index and by the merge of the ranked search. -/
theorem threshold_minMatch_exact (sets : List Bitmap) (t : Nat) (ht : 1 ≤ t) :
    (∀ d, d ∈ (threshold sets t).getD ∅ ↔ t ≤ hits sets d) ∧
      (threshold sets t = none ↔ ∀ d, hits sets d < t) ∧
      ∀ limit, u32Bound ≤ limit → (minMatchCandidates sets t limit).Pairwise (· < ·) ∧
        ∀ d, d ∈ minMatchCandidates sets t limit ↔ t ≤ hits sets d := by
  have hmem : ∀ d, d ∈ (threshold sets t).getD ∅ ↔ t ≤ hits sets d := by
    intro d
    rw [getD_threshold ht, mem_matching ht]
  refine ⟨hmem, ?_, fun limit hlimit => ?_⟩
  · constructor
    · intro hnone d
      rw [← Nat.not_le, ← hmem d, hnone]
      exact AscSet.not_mem_empty d
    · intro hfew
      cases hS : threshold sets t with
      | none => rfl
      | some S =>
        have hempty : S = ∅ := by
          refine AscSet.isEmpty_iff.mp (AscSet.isEmpty_iff_forall.mpr fun d hd => ?_)
          have := (hmem d).mp (by rw [hS]; exact hd)
          exact absurd (hfew d) (Nat.not_lt.mpr this)
        rw [hempty] at hS
        exact absurd hS (threshold_ne_some_empty sets t)
  · rw [minMatchCandidates_eq ht, take_toList_of_u32Bound_le _ hlimit]
    exact ⟨(matching sets t).asc, fun d => by rw [AscSet.mem_toList, mem_matching ht]⟩

/-- Doc 5 is in two of three postings. -/
theorem threshold_minMatch_five : ∃ sets : List Bitmap, hits sets 5 = 2 ∧ 5 ∈ (threshold sets 2).getD ∅ ∧
    5 ∈ minMatchCandidates sets 2 u32Bound := by
  refine ⟨[⟨[1, 5], by decide, by decide⟩, ⟨[5], by decide, by decide⟩, ⟨[8], by decide, by decide⟩], by decide, ?_, ?_⟩
  · exact ((threshold_minMatch_exact _ 2 (by decide)).1 5).mpr (by decide)
  · exact (((threshold_minMatch_exact _ 2 (by decide)).2.2 u32Bound (Nat.le_refl _)).2 5).mpr (by decide)

end

/-! ## Reranking -/

section

variable {bm : Bitmap} {d : Nat}

theorem rank_getElem {i : Nat} (hi : i < bm.toList.length) : bm.rank bm.toList[i] = i + 1 := by
  have hasc := List.pairwise_iff_getElem.mp bm.asc
  have hbefore : ∀ e ∈ bm.toList.take (i + 1), e ≤ bm.toList[i] := by
    intro e he
    obtain ⟨j, hj, rfl⟩ := List.getElem_of_mem he
    rw [List.length_take] at hj
    rw [List.getElem_take]
    rcases Nat.lt_or_ge j i with hji | hji
    · exact le_of_lt (hasc j i (by omega) hi hji)
    · have hij : j = i := by omega
      subst hij
      exact Nat.le_refl _
  have hbehind : ∀ e ∈ bm.toList.drop (i + 1), bm.toList[i] < e := by
    intro e he
    obtain ⟨j, hj, rfl⟩ := List.getElem_of_mem he
    rw [List.length_drop] at hj
    rw [List.getElem_drop]
    exact hasc i (i + 1 + j) hi (by omega) (by omega)
  unfold Bitmap.rank
  generalize bm.toList[i] = d at hbefore hbehind
  rw [← List.take_append_drop (i + 1) bm.toList, List.filter_append, List.filter_eq_self.mpr,
    List.filter_eq_nil_iff.mpr, List.append_nil, List.length_take]
  · omega
  · intro e he
    have := hbehind e he
    simpa using this
  · intro e he
    simpa using hbefore e he

/-- Below the boundary the head ranks as the whole posting does. -/
theorem rank_below {bound : Nat} (hd : d < bound) : (bm.below bound).rank d = bm.rank d := by
  unfold Bitmap.rank Bitmap.below
  rw [AscSet.toList_filter, List.filter_filter]
  congr 1
  refine List.filter_congr fun e _ => ?_
  by_cases he : e ≤ d
  · have : e < bound := by omega
    simp [he, this]
  · simp [he]

end

section

variable [ScoreMath]

/-- A term's docs and their impact bytes. -/
structure TermImpacts where
  docs : Bitmap
  impact : Nat → UInt8

namespace ImpactIndex

/-- The score of a doc: the bytes of the terms that have it, in their order. -/
def scoreOf (ix : ImpactIndex) (terms : List TermImpacts) (d : Nat) : Score :=
  terms.foldl (fun s t =>
    if d ∈ t.docs then ScoreMath.addImpact s (ScoreMath.idf ix.docCount t.docs.len) (t.impact d).toNat ix.scale
    else s) ScoreMath.zero

def best (ix : ImpactIndex) (terms : List TermImpacts) (candidates : List Nat) (k : Nat) : List ScoredDoc :=
  ((candidates.map fun d => (⟨d, ix.scoreOf terms d⟩ : ScoredDoc)).mergeSort scoreLe).take k

/-- The entry keyed `off` leads to the impacts of a term, which start at `rel`. -/
structure Holds (ix : ImpactIndex) (off rel : Nat) (t : TermImpacts) : Prop where
  stripe : ix.fetch.InFile (ix.entryStripe off).1 (ix.entryStripe off).2
  entry : findEntry (slice ix.fetch.bytes (ix.entryStripe off).1 (ix.entryStripe off).2) off = some (rel, t.docs.len)
  inFile : ix.fetch.InFile (ix.impactsOff + rel) t.docs.len
  bytes : slice ix.fetch.bytes (ix.impactsOff + rel) t.docs.len = t.docs.toList.map t.impact

end ImpactIndex

/-- A posting handed to `rerank` for some candidates: the part of it read, and what it stands for. -/
structure Scored where
  off : Nat
  bm : Bitmap
  rel : Nat
  term : TermImpacts

namespace Scored

variable (ix : ImpactIndex) (candidates : List Nat)

/-- The sidecar has the term, and for the candidates the part read is as good as the whole posting. -/
structure Fits (x : Scored) : Prop where
  holds : ix.Holds x.off x.rel x.term
  mem_iff : ∀ d ∈ candidates, d ∈ x.bm ↔ d ∈ x.term.docs
  rank_eq : ∀ d ∈ candidates, x.bm.rank d = x.term.docs.rank d

end Scored

namespace ImpactIndex

variable {ix : ImpactIndex}

theorem Holds.byteAt {off rel : Nat} {t : TermImpacts} (h : ix.Holds off rel t) {d : Nat} (hd : d ∈ t.docs) :
    ix.impactPos rel (t.docs.rank d) = .ok (ix.impactsOff + rel + (t.docs.rank d - 1)) ∧
      ix.fetch.InFile (ix.impactsOff + rel + (t.docs.rank d - 1)) 1 ∧
      slice ix.fetch.bytes (ix.impactsOff + rel + (t.docs.rank d - 1)) 1 = [t.impact d] := by
  obtain ⟨i, hi, rfl⟩ := List.getElem_of_mem hd
  obtain ⟨hmiss, hlt, hle⟩ := h.inFile
  have hlen : t.docs.len = t.docs.toList.length := rfl
  rw [rank_getElem hi, Nat.add_sub_cancel]
  refine ⟨?_, ⟨hmiss, by omega, by omega⟩, ?_⟩
  · unfold impactPos
    rw [if_neg (by omega), Nat.add_sub_cancel, if_neg (by omega)]
  · have hcut : slice (slice ix.fetch.bytes (ix.impactsOff + rel) t.docs.len) i 1 =
        slice (t.docs.toList.map t.impact) i 1 := by rw [h.bytes]
    rw [slice_slice _ _ _ _ _ (by omega)] at hcut
    rw [hcut]
    unfold slice
    rw [← List.map_drop, List.drop_eq_getElem_cons hi, List.map_cons]
    rfl

theorem settles_entries {candidates : List Nat} {xs : List Scored} (h : ∀ x ∈ xs, x.Fits ix candidates) :
    Settles (ix.entries (xs.map Scored.off)) (.ok (xs.map fun x => (x.rel, x.term.docs.len))) := by
  unfold entries
  have hread : Readable ix.fetch ((xs.map Scored.off).map ix.entryStripe) := by
    intro r hr _
    obtain ⟨off, hoff, rfl⟩ := List.mem_map.mp hr
    obtain ⟨x, hx, rfl⟩ := List.mem_map.mp hoff
    exact (h x hx).holds.stripe
  refine (settles_readCoalesced hread).bind ?_
  rw [List.map_map, List.map_map, List.zip_map', List.map_map,
    @collect_map_ok _ _ _ xs _ (fun x => (x.rel, x.term.docs.len)) fun x hx => ?_]
  · exact Settles.ofOutcome _
  · show (match findEntry (slice _ _ _) _ with | some e => _ | none => _) = _
    rw [(h x hx).holds.entry]

theorem termReads_eq {candidates : List Nat} {x : Scored} (h : x.Fits ix candidates) :
    ix.termReads x.bm x.rel candidates =
      (candidates.zipIdx.filter fun c => decide (c.1 ∈ x.bm)).map fun c =>
        .ok (ix.impactsOff + x.rel + (x.term.docs.rank c.1 - 1), c.2) := by
  unfold termReads
  refine List.map_congr_left fun c hc => ?_
  obtain ⟨hmem, hin⟩ := List.mem_filter.mp hc
  have hcand : c.1 ∈ candidates := List.fst_mem_of_mem_zipIdx hmem
  have hdoc := (h.mem_iff c.1 hcand).mp (of_decide_eq_true hin)
  rw [h.rank_eq c.1 hcand, (h.holds.byteAt hdoc).1]
  rfl

variable (ix) in
/-- Every read of a rerank: its position, the indices of its term and candidate, and the byte there. -/
def allReads (xs : List Scored) (candidates : List Nat) : List (Nat × (Nat × Nat) × UInt8) :=
  xs.zipIdx.flatMap fun x => (candidates.zipIdx.filter fun c => decide (c.1 ∈ x.1.bm)).map fun c =>
    (ix.impactsOff + x.1.rel + (x.1.term.docs.rank c.1 - 1), (x.2, c.2), x.1.term.impact c.1)

section

variable {xs : List Scored} {candidates : List Nat} (h : ∀ x ∈ xs, x.Fits ix candidates)

include h

theorem impactReads_eq :
    ix.impactReads (xs.map fun x => (x.off, x.bm)) (xs.map fun x => (x.rel, x.term.docs.len)) candidates =
      (ix.allReads xs candidates).map fun r => .ok (r.1, r.2.1) := by
  unfold impactReads allReads
  rw [List.zip_map', List.zipIdx_map, List.flatMap_map, List.map_flatMap]
  refine List.flatMap_congr fun x hx => ?_
  have hx : x.1 ∈ xs := List.fst_mem_of_mem_zipIdx hx
  show (ix.termReads x.1.bm x.1.rel candidates).map _ = _
  rw [termReads_eq (h x.1 hx), List.map_map, List.map_map]
  rfl

theorem slice_allReads {r : Nat × (Nat × Nat) × UInt8} (hr : r ∈ ix.allReads xs candidates) :
    ix.fetch.InFile r.1 1 ∧ slice ix.fetch.bytes r.1 1 = [r.2.2] := by
  obtain ⟨x, hx, hr⟩ := List.mem_flatMap.mp hr
  obtain ⟨c, hc, rfl⟩ := List.mem_map.mp hr
  obtain ⟨hmem, hin⟩ := List.mem_filter.mp hc
  have hfit := h x.1 (List.fst_mem_of_mem_zipIdx hx)
  have hdoc := (hfit.mem_iff c.1 (List.fst_mem_of_mem_zipIdx hmem)).mp (of_decide_eq_true hin)
  exact (hfit.holds.byteAt hdoc).2

end

omit [ScoreMath] in
theorem modify_length_append {α : Type} (f : α → α) (done : List α) (s : α) (scores : List α) :
    (done ++ s :: scores).modify done.length f = done ++ f s :: scores := by
  induction done with
  | nil => rfl
  | cons d done ih => rw [List.cons_append, List.length_cons, List.modify_succ_cons, ih, List.cons_append]

omit [ScoreMath] in
/-- One term's bytes, each added to its candidate's score. -/
theorem foldl_modify {α : Type} (f : Nat → α → α) (p : Nat → Bool) (cs : List Nat) : ∀ (done scores : List α),
    scores.length = cs.length →
    ((cs.zipIdx done.length).filter fun c => p c.1).foldl (fun acc c => acc.modify c.2 (f c.1)) (done ++ scores) =
      done ++ List.zipWith (fun c s => if p c then f c s else s) cs scores := by
  induction cs with
  | nil =>
    intro done scores hlen
    rw [List.length_eq_zero_iff.mp hlen]
    rfl
  | cons c cs ih =>
    intro done scores hlen
    cases scores with
    | nil => cases hlen
    | cons s scores =>
      have hlen := Nat.succ.inj hlen
      have hnext : ∀ s' : α, ((cs.zipIdx (done.length + 1)).filter fun c => p c.1).foldl
          (fun acc c => acc.modify c.2 (f c.1)) (done ++ s' :: scores) =
          done ++ s' :: List.zipWith (fun c s => if p c then f c s else s) cs scores := by
        intro s'
        have := ih (done ++ [s']) scores hlen
        rwa [List.length_append, List.length_singleton, List.append_assoc, List.append_assoc] at this
      rw [List.zipIdx_cons, List.zipWith_cons_cons]
      by_cases hp : p c = true
      · rw [@List.filter_cons_of_pos _ (fun c : Nat × Nat => p c.1) _ _ hp, List.foldl_cons, if_pos hp,
          modify_length_append]
        exact hnext _
      · rw [@List.filter_cons_of_neg _ (fun c : Nat × Nat => p c.1) _ _ hp, if_neg hp]
        exact hnext s

/-- All the bytes of a rerank make the scores of the candidates. -/
theorem addScores_eq {xs : List Scored} {candidates : List Nat} (h : ∀ x ∈ xs, x.Fits ix candidates) :
    ix.addScores (xs.map fun x => ScoreMath.idf ix.docCount x.term.docs.len)
      ((ix.allReads xs candidates).map fun r => (r.2.1, r.2.2.toNat))
      (List.replicate candidates.length ScoreMath.zero) =
      candidates.map (ix.scoreOf (xs.map Scored.term)) := by
  have hidf : ∀ (done todo : List Scored), xs = done ++ todo → ∀ base : Nat → Score,
      (todo.zipIdx done.length).foldl (fun scores x =>
        ((candidates.zipIdx.filter fun c => decide (c.1 ∈ x.1.bm)).foldl (fun scores c =>
          scores.modify c.2 fun s => ScoreMath.addImpact s
            ((xs.map fun x => ScoreMath.idf ix.docCount x.term.docs.len).getD x.2 ScoreMath.zero)
            (x.1.term.impact c.1).toNat ix.scale) scores)) (candidates.map base) =
      candidates.map fun d => (todo.map Scored.term).foldl (fun s t =>
        if d ∈ t.docs then ScoreMath.addImpact s (ScoreMath.idf ix.docCount t.docs.len) (t.impact d).toNat ix.scale
        else s) (base d) := by
    intro done todo
    induction todo generalizing done with
    | nil =>
      intro _ base
      rfl
    | cons x todo ih =>
      intro hxs base
      have hx := h x (by rw [hxs]; exact List.mem_append_right _ List.mem_cons_self)
      have hget : (xs.map fun x => ScoreMath.idf ix.docCount x.term.docs.len).getD done.length ScoreMath.zero =
          ScoreMath.idf ix.docCount x.term.docs.len := by
        rw [hxs, List.map_append, List.map_cons, ← List.length_map (fun x : Scored => ScoreMath.idf ix.docCount x.term.docs.len),
          List.getD_append_right _ _ _ _ (Nat.le_refl _), Nat.sub_self]
        rfl
      rw [List.zipIdx_cons, List.foldl_cons, List.map_cons]
      simp only
      rw [hget]
      have hone := foldl_modify (fun d s => ScoreMath.addImpact s (ScoreMath.idf ix.docCount x.term.docs.len)
        (x.term.impact d).toNat ix.scale) (fun d => decide (d ∈ x.bm)) candidates [] (candidates.map base)
        (List.length_map _)
      rw [List.nil_append, List.nil_append, List.length_nil, List.zipWith_map_right, List.zipWith_self] at hone
      rw [hone]
      have hnext := ih (done ++ [x]) (by rw [hxs, List.append_assoc]; rfl)
      rw [List.length_append, List.length_singleton] at hnext
      rw [hnext]
      refine List.map_congr_left fun d hd => ?_
      rw [List.foldl_cons]
      congr 1
      by_cases hin : d ∈ x.bm
      · rw [if_pos (decide_eq_true hin), if_pos ((hx.mem_iff d hd).mp hin)]
      · rw [if_neg (by simpa using hin), if_neg (mt (hx.mem_iff d hd).mpr hin)]
  have hall := hidf [] xs rfl fun _ => ScoreMath.zero
  unfold addScores allReads
  rw [List.foldl_map, List.foldl_flatMap]
  simp only [List.foldl_map]
  rw [← List.map_const']
  exact hall

/-- **Reranking scores the candidates** with the bytes of their terms, best first. -/
theorem settles_rerank {xs : List Scored} {candidates : List Nat} (hne : xs ≠ [])
    (h : ∀ x ∈ xs, x.Fits ix candidates) (k : Nat) :
    Settles (ix.rerank (xs.map fun x => (x.off, x.bm)) candidates k)
      (.ok (ix.best (xs.map Scored.term) candidates k)) := by
  unfold rerank
  by_cases h0 : candidates.isEmpty ∨ (xs.map fun x => (x.off, x.bm)).isEmpty ∨ k = 0
  · rw [if_pos h0]
    have hbest : ix.best (xs.map Scored.term) candidates k = [] := by
      unfold best
      rcases h0 with h0 | h0 | h0
      · rw [List.isEmpty_iff.mp h0, List.map_nil, List.mergeSort_nil, List.take_nil]
      · exact absurd (List.map_eq_nil_iff.mp (List.isEmpty_iff.mp h0)) hne
      · rw [h0, List.take_zero]
    rw [hbest]
    exact Settles.pure _
  rw [if_neg h0, List.map_map]
  refine (settles_entries h).bind ?_
  have hreads : collect (ix.impactReads (xs.map fun x => (x.off, x.bm)) (xs.map fun x => (x.rel, x.term.docs.len))
      candidates) = .ok ((ix.allReads xs candidates).map fun r => (r.1, r.2.1)) := by
    rw [impactReads_eq h]
    exact collect_map_ok fun _ _ => rfl
  rw [hreads]
  refine (Settles.ofOutcome _).bind ?_
  have hread : Readable ix.fetch (((ix.allReads xs candidates).map fun r => (r.1, r.2.1)).map fun r => (r.1, 1)) := by
    intro r hr _
    rw [List.map_map] at hr
    obtain ⟨a, ha, rfl⟩ := List.mem_map.mp hr
    exact (slice_allReads h ha).1
  refine (settles_readCoalesced hread).bind ?_
  have hbytes : collect ((((ix.allReads xs candidates).map fun r => (r.1, r.2.1)).zip
      ((((ix.allReads xs candidates).map fun r => (r.1, r.2.1)).map fun r => (r.1, 1)).map fun r =>
        slice ix.fetch.bytes r.1 r.2)).map fun r => (firstByte r.2).map fun b => (r.1.2, b)) =
      .ok ((ix.allReads xs candidates).map fun r => (r.2.1, r.2.2.toNat)) := by
    rw [List.map_map, List.map_map, List.zip_map', List.map_map]
    refine collect_map_ok fun r hr => ?_
    show (firstByte (slice ix.fetch.bytes r.1 1)).map _ = _
    rw [(slice_allReads h hr).2]
    rfl
  rw [hbytes]
  refine (Settles.ofOutcome _).bind ?_
  rw [List.map_map]
  have hscores := addScores_eq h
  simp only [Function.comp_def] at hscores ⊢
  rw [hscores]
  have hdoc : ∀ l : List ScoredDoc, l = candidates.map (fun d => (⟨d, ix.scoreOf (xs.map Scored.term) d⟩ : ScoredDoc)) →
      (List.range candidates.length).map (fun i => (⟨candidates.getD i 0,
        (candidates.map (ix.scoreOf (xs.map Scored.term))).getD i ScoreMath.zero⟩ : ScoredDoc)) = l := by
    rintro l rfl
    refine List.ext_getElem (by simp) fun i h1 h2 => ?_
    have hi : i < candidates.length := by simpa using h2
    rw [List.getElem_map, List.getElem_range, List.getElem_map, List.getD_eq_getElem _ _ hi,
      List.getD_eq_getElem _ _ (by simpa using hi), List.getElem_map]
  have horder := @List.map_mergeSort _ _ _ scoreLe _ (List.range candidates.length) fun a _ b _ => Eq.refl
    (scoreLe (⟨candidates.getD a 0, (candidates.map (ix.scoreOf (xs.map Scored.term))).getD a ScoreMath.zero⟩ : ScoredDoc)
      ⟨candidates.getD b 0, (candidates.map (ix.scoreOf (xs.map Scored.term))).getD b ScoreMath.zero⟩)
  rw [List.map_take, horder, hdoc _ rfl]
  exact Settles.pure _

end ImpactIndex

end

/-! ## Searching -/

/-- Taking the heads of the postings takes the head of their matches. -/
theorem matching_below (sets : List Bitmap) {need : Nat} (hneed : 1 ≤ need) (bound : Nat) :
    matching (sets.map fun S => Bitmap.below S bound) need = (matching sets need).below bound := by
  refine AscSet.ext_mem fun d => ?_
  rw [mem_matching hneed, Bitmap.mem_below, mem_matching hneed]
  unfold hits
  rw [List.countP_map]
  by_cases hd : d < bound
  · have hcount : sets.countP ((fun S : Bitmap => decide (d ∈ S)) ∘ fun S => Bitmap.below S bound) =
        sets.countP fun S => decide (d ∈ S) := by
      refine List.countP_congr fun S _ => ?_
      simp [hd]
    rw [hcount]
    exact (and_iff_left hd).symm
  · have hcount : sets.countP ((fun S : Bitmap => decide (d ∈ S)) ∘ fun S => Bitmap.below S bound) = 0 := by
      rw [List.countP_eq_zero]
      intro S _
      simp [hd]
    rw [hcount]
    omega

section

variable [Roaring] [ScoreMath] {ix : TermIndex} {imp : ImpactIndex} {m : TermMap} {impact : String → Nat → UInt8}

/-- The sidecar has the impacts of every term of the index. -/
def ImpactIndex.Covers (imp : ImpactIndex) (ix : TermIndex) (m : TermMap) (impact : String → Nat → UInt8) : Prop :=
  ∀ term S loc, m.find? ⟨term⟩ = some S → ix.findLoc term = some loc →
    ∃ rel, imp.Holds loc.1 rel ⟨S, impact term⟩

/-- The terms that are there, with their impacts. -/
def TermMap.impacts (m : TermMap) (impact : String → Nat → UInt8) (terms : List String) : List TermImpacts :=
  terms.filterMap fun t => (m.find? ⟨t⟩).map fun S => ⟨S, impact t⟩

/-- A term found in both files. -/
structure Located where
  loc : Nat × Nat
  rel : Nat
  term : TermImpacts

structure Located.Ok (ix : TermIndex) (imp : ImpactIndex) (y : Located) : Prop where
  posting : ix.TermAt y.loc y.term.docs
  impacts : imp.Holds y.loc.1 y.rel y.term

/-- What a search holds of a term after its first wave. -/
def Located.head (ix : TermIndex) (y : Located) : Nat × HeadBlock := (y.loc.1, ix.headOf y.loc y.term.docs)

theorem exists_located (hs : ix.Serves m) (hc : imp.Covers ix m impact) (terms : List String) :
    ∃ ys : List Located, (∀ y ∈ ys, y.Ok ix imp) ∧ terms.filterMap ix.findLoc = ys.map Located.loc ∧
      m.impacts impact terms = ys.map Located.term := by
  induction terms with
  | nil => exact ⟨[], by simp, rfl, rfl⟩
  | cons t terms ih =>
    obtain ⟨ys, hok, hlocs, himp⟩ := ih
    unfold TermMap.impacts at himp ⊢
    cases hS : m.find? ⟨t⟩ with
    | none =>
      rw [List.filterMap_cons_none (hs.absent t hS), List.filterMap_cons_none (by rw [hS]; rfl)]
      exact ⟨ys, hok, hlocs, himp⟩
    | some S =>
      obtain ⟨loc, hloc, hat⟩ := hs.present t S hS
      obtain ⟨rel, hrel⟩ := hc t S loc hS hloc
      refine ⟨⟨loc, rel, S, impact t⟩ :: ys, ?_, ?_, ?_⟩
      · intro y hy
        rcases List.mem_cons.mp hy with rfl | hy
        · exact ⟨hat, hrel⟩
        · exact hok y hy
      · rw [List.filterMap_cons_some hloc, hlocs]
        rfl
      · rw [List.filterMap_cons_some (by rw [hS]; rfl), himp]
        rfl

section

variable {ys : List Located} (hok : ∀ y ∈ ys, y.Ok ix imp)

include hok

theorem settles_locatedHeads : Settles (tryAll ((ys.map Located.loc).map ix.headBlock))
    (.ok (ys.map fun y => ix.headOf y.loc y.term.docs)) := by
  rw [List.map_map]
  exact settles_tryAll_map fun y hy => TermIndex.settles_headBlock (hok y hy).posting

theorem settles_locatedTails :
    Settles (tryAll ((ys.map (Located.head ix)).map fun h => ix.tail h.2.tailOff h.2.tailSize))
      (.ok (ys.map fun y => y.term.docs.atLeast ix.headBoundary)) := by
  rw [List.map_map]
  exact settles_tryAll_map fun y hy => TermIndex.settles_tail (hok y hy).posting

theorem any_locatedTail (hne : ys ≠ []) :
    (ys.map (Located.head ix)).any (fun h => 0 < h.2.tailSize) = true := by
  obtain ⟨y, hy⟩ := List.exists_mem_of_ne_nil _ hne
  rw [List.any_map, List.any_eq_true]
  exact ⟨y, hy, decide_eq_true (hok y hy).posting.tail_pos⟩

theorem settles_rerankHeads (hne : ys ≠ []) {candidates : List Nat} (hlt : ∀ d ∈ candidates, d < ix.headBoundary)
    (k : Nat) : Settles (imp.rerank ((ys.map (Located.head ix)).map fun h => (h.1, h.2.head)) candidates k)
      (.ok (imp.best (ys.map Located.term) candidates k)) := by
  have h := @ImpactIndex.settles_rerank _ imp (ys.map fun y => ⟨y.loc.1, y.term.docs.below ix.headBoundary, y.rel, y.term⟩)
    candidates (by simpa using hne) (by
      intro x hx
      obtain ⟨y, hy, rfl⟩ := List.mem_map.mp hx
      refine ⟨(hok y hy).impacts, fun d hd => ?_, fun d hd => rank_below (hlt d hd)⟩
      rw [Bitmap.mem_below]
      exact and_iff_left (hlt d hd)) k
  rw [List.map_map, List.map_map] at h
  rw [List.map_map]
  exact h

theorem settles_rerankFull (hne : ys ≠ []) (candidates : List Nat) (k : Nat) :
    Settles (imp.rerank (ys.map fun y => (y.loc.1, y.term.docs)) candidates k)
      (.ok (imp.best (ys.map Located.term) candidates k)) := by
  have h := @ImpactIndex.settles_rerank _ imp (ys.map fun y => ⟨y.loc.1, y.term.docs, y.rel, y.term⟩)
    candidates (by simpa using hne) (by
      intro x hx
      obtain ⟨y, hy, rfl⟩ := List.mem_map.mp hx
      exact ⟨(hok y hy).impacts, fun _ _ => Iff.rfl, fun _ _ => rfl⟩) k
  rw [List.map_map, List.map_map] at h
  exact h

end

omit [Roaring] [ScoreMath] in
theorem zipWith_located (ys : List Located) :
    List.zipWith (fun (h : Nat × HeadBlock) (t : Bitmap) => (h.1, h.2.head ∪ t)) (ys.map (Located.head ix))
      (ys.map fun y => y.term.docs.atLeast ix.headBoundary) = ys.map fun y => (y.loc.1, y.term.docs) := by
  rw [List.zipWith_map, List.zipWith_self]
  refine List.map_congr_left fun y _ => ?_
  show (y.loc.1, y.term.docs.below ix.headBoundary ∪ y.term.docs.atLeast ix.headBoundary) = _
  rw [Bitmap.below_union_atLeast]

omit [Roaring] [ScoreMath] in
theorem map_docs_located (ys : List Located) :
    (ys.map Located.term).map TermImpacts.docs = ys.map fun y => y.term.docs := List.map_map

omit [Roaring] [ScoreMath] in
theorem map_head_located (ys : List Located) : ((ys.map (Located.head ix)).map fun h => h.2.head) =
    (ys.map fun y => y.term.docs).map fun S => S.below ix.headBoundary := by
  rw [List.map_map, List.map_map]
  rfl

omit [Roaring] in
theorem ImpactIndex.best_nil (imp : ImpactIndex) (terms : List TermImpacts) (k : Nat) : imp.best terms [] k = [] := by
  unfold best
  rw [List.map_nil, List.mergeSort_nil, List.take_nil]

omit [Roaring] [ScoreMath] in
theorem TermMap.strictDocs_eq {terms : List String} (hall : ∀ t ∈ terms, m.find? ⟨t⟩ ≠ none) :
    m.strictDocs terms = AscSet.inters ((m.impacts impact terms).map TermImpacts.docs) := by
  unfold TermMap.strictDocs TermMap.impacts
  rw [mapM_eq_filterMap hall, List.map_filterMap]
  simp only
  congr 2
  funext t
  cases m.find? ⟨t⟩ with
  | none => rfl
  | some S => rfl

omit [Roaring] [ScoreMath] in
theorem TermMap.length_impacts {terms : List String} (hall : ∀ t ∈ terms, m.find? ⟨t⟩ ≠ none) :
    (m.impacts impact terms).length = terms.length := by
  unfold TermMap.impacts
  rw [List.length_filterMap_eq_countP, List.countP_eq_length]
  intro t ht
  obtain ⟨S, hS⟩ := Option.ne_none_iff_exists'.mp (hall t ht)
  rw [hS]
  rfl

omit [Roaring] [ScoreMath] in
theorem TermMap.strictDocs_absent {terms : List String} (h : terms = [] ∨ ∃ t ∈ terms, m.find? ⟨t⟩ = none) :
    m.strictDocs terms = ∅ := by
  unfold TermMap.strictDocs
  rcases h with rfl | ⟨t, ht, hnone⟩
  · rfl
  · rw [mapM_none ⟨t, ht, hnone⟩]

variable [Unicode] [TokenFilters]

omit [ScoreMath] in
/-- A strict query gives up unless every term is there. -/
theorem settles_queryHeads_none (hs : ix.Serves m) {query : String}
    (h : TermIndex.queryTerms ix.tokenizer query = [] ∨
      ∃ t ∈ TermIndex.queryTerms ix.tokenizer query, m.find? ⟨t⟩ = none) :
    Settles (ix.queryHeadPostings query) (.ok none) := by
  unfold TermIndex.queryHeadPostings
  simp only
  rcases h with h | ⟨t, ht, hnone⟩
  · rw [if_pos (List.isEmpty_iff.mpr h)]
    exact Settles.pure _
  · rw [if_neg (by rw [List.isEmpty_iff]; exact List.ne_nil_of_mem ht)]
    refine (TermIndex.settles_resolveLocs hs _ false).bind ?_
    rw [gather_strict, mapM_none ⟨t, ht, hs.absent t hnone⟩]
    exact Settles.pure _

/-- A strict query whose terms are all there reads their heads. -/
theorem settles_queryHeads_some (hs : ix.Serves m) {query : String} {ys : List Located}
    (hok : ∀ y ∈ ys, y.Ok ix imp) (hne : TermIndex.queryTerms ix.tokenizer query ≠ [])
    (hall : ∀ t ∈ TermIndex.queryTerms ix.tokenizer query, m.find? ⟨t⟩ ≠ none)
    (hlocs : (TermIndex.queryTerms ix.tokenizer query).filterMap ix.findLoc = ys.map Located.loc) :
    Settles (ix.queryHeadPostings query) (.ok (some (ys.map (Located.head ix)))) := by
  unfold TermIndex.queryHeadPostings
  simp only
  rw [if_neg (by rw [List.isEmpty_iff]; exact hne)]
  refine (TermIndex.settles_resolveLocs hs _ false).bind ?_
  have hfound : ∀ t ∈ TermIndex.queryTerms ix.tokenizer query, ix.findLoc t ≠ none := by
    intro t ht hnone
    obtain ⟨S, hS⟩ := Option.ne_none_iff_exists'.mp (hall t ht)
    obtain ⟨loc, hloc, -⟩ := hs.present t S hS
    rw [hloc] at hnone
    cases hnone
  rw [gather_strict, mapM_eq_filterMap hfound, hlocs]
  refine (settles_locatedHeads hok).bind ?_
  rw [List.map_map, List.zip_map']
  exact Settles.pure _

theorem settles_queryHeadsPresent (hs : ix.Serves m) {query : String} {ys : List Located}
    (hok : ∀ y ∈ ys, y.Ok ix imp)
    (hlocs : (TermIndex.queryTerms ix.tokenizer query).filterMap ix.findLoc = ys.map Located.loc) :
    Settles (ix.queryHeadPostingsPresent query) (.ok (ys.map (Located.head ix))) := by
  unfold TermIndex.queryHeadPostingsPresent
  simp only
  by_cases hnil : TermIndex.queryTerms ix.tokenizer query = []
  · rw [hnil] at hlocs
    rw [if_pos (List.isEmpty_iff.mpr hnil), List.map_eq_nil_iff.mp hlocs.symm]
    exact Settles.pure _
  · rw [if_neg (by rw [List.isEmpty_iff]; exact hnil)]
    refine (TermIndex.settles_resolveLocs hs _ true).bind ?_
    rw [gather_lenient, hlocs]
    refine (settles_locatedHeads hok).bind ?_
    rw [Option.getD_some, List.map_map, List.zip_map']
    exact Settles.pure _

/-- **The strict search** scores the first `m` docs that have every term of the query. -/
theorem settles_searchBm25 (hs : ix.Serves m) (hc : imp.Covers ix m impact) (query : String) (n k : Nat) :
    Settles (searchBm25 ix imp query n k)
      (.ok (imp.best (m.impacts impact (TermIndex.queryTerms ix.tokenizer query))
        ((m.strictDocs (TermIndex.queryTerms ix.tokenizer query)).toList.take n) k)) := by
  obtain ⟨ys, hok, hlocs, himp⟩ := exists_located hs hc (TermIndex.queryTerms ix.tokenizer query)
  unfold searchBm25
  by_cases habs : TermIndex.queryTerms ix.tokenizer query = [] ∨
      ∃ t ∈ TermIndex.queryTerms ix.tokenizer query, m.find? ⟨t⟩ = none
  · refine (settles_queryHeads_none hs habs).bind ?_
    rw [TermMap.strictDocs_absent habs, AscSet.toList_empty, List.take_nil, ImpactIndex.best_nil]
    exact Settles.pure _
  have hne : TermIndex.queryTerms ix.tokenizer query ≠ [] := fun h => habs (Or.inl h)
  have hall : ∀ t ∈ TermIndex.queryTerms ix.tokenizer query, m.find? ⟨t⟩ ≠ none :=
    fun t ht h => habs (Or.inr ⟨t, ht, h⟩)
  have hys : ys ≠ [] := by
    rintro rfl
    obtain ⟨t, ht⟩ := List.exists_mem_of_ne_nil _ hne
    obtain ⟨S, hS⟩ := Option.ne_none_iff_exists'.mp (hall t ht)
    obtain ⟨loc, hloc, -⟩ := hs.present t S hS
    exact absurd hloc (List.filterMap_eq_nil_iff.mp hlocs t ht ▸ by simp)
  refine (settles_queryHeads_some hs hok hne hall hlocs).bind ?_
  rw [@TermMap.strictDocs_eq m impact _ hall, himp]
  simp only
  have hsets : (ys.map fun y => y.term.docs) ≠ [] := by simpa using hys
  have hacc : AscSet.interAll ((AscSet.sortByLen ((ys.map (Located.head ix)).map fun h => h.2.head)).headD ∅)
      ((ys.map (Located.head ix)).map fun h => h.2.head) =
      Bitmap.below (AscSet.inters (ys.map fun y => y.term.docs)) ix.headBoundary := by
    rw [map_head_located, ← Bitmap.inters_below hsets]
    apply AscSet.interAll_mem
    rw [← AscSet.mem_sortByLen]
    have hsorted : AscSet.sortByLen ((ys.map fun y => y.term.docs).map fun S => Bitmap.below S ix.headBoundary) ≠ [] := by
      rw [ne_eq, AscSet.sortByLen_eq_nil]
      simpa using hys
    cases hs : AscSet.sortByLen ((ys.map fun y => y.term.docs).map fun S => Bitmap.below S ix.headBoundary) with
    | nil => exact absurd hs hsorted
    | cons S Ss => exact List.mem_cons_self
  rw [hacc, any_locatedTail hok hys, map_docs_located]
  obtain ⟨docs, hdocs⟩ : ∃ docs, AscSet.inters (ys.map fun y => y.term.docs) = docs := ⟨_, rfl⟩
  rw [hdocs]
  split
  · next hfull =>
    have hlen := hfull.resolve_right (by decide)
    rw [Bitmap.take_below hlen]
    split
    · next hnil =>
      rw [List.isEmpty_iff.mp hnil, ImpactIndex.best_nil]
      exact Settles.pure _
    · refine settles_rerankHeads hok hys (fun d hd => ?_) k
      rw [← Bitmap.take_below hlen] at hd
      exact (Bitmap.mem_below.mp (List.mem_of_mem_take hd)).2
  · refine (settles_locatedTails hok).bind ?_
    rw [zipWith_located, AscSet.inters_sortByLen, List.map_map]
    have hfull : AscSet.inters (ys.map (Prod.snd ∘ fun y => (y.loc.1, y.term.docs))) = docs := hdocs
    rw [hfull]
    exact settles_rerankFull hok hys _ k

/-- **The min-match search** scores the first `m` docs that enough of the terms that are there have. -/
theorem settles_searchBm25MinMatch (hs : ix.Serves m) (hc : imp.Covers ix m impact) (query : String)
    (n k minMatch : Nat) :
    Settles (searchBm25MinMatch ix imp query n k minMatch)
      (.ok (imp.best (m.impacts impact (TermIndex.queryTerms ix.tokenizer query))
        ((matching ((m.impacts impact (TermIndex.queryTerms ix.tokenizer query)).map TermImpacts.docs)
          (max 1 (min minMatch (m.impacts impact (TermIndex.queryTerms ix.tokenizer query)).length))).toList.take n)
        k)) := by
  obtain ⟨ys, hok, hlocs, himp⟩ := exists_located hs hc (TermIndex.queryTerms ix.tokenizer query)
  unfold searchBm25MinMatch
  refine (settles_queryHeadsPresent hs hok hlocs).bind ?_
  rw [himp, List.length_map, map_docs_located]
  by_cases hys : ys = []
  · subst hys
    have hnone : matching ([] : List Bitmap) (max 1 (min minMatch 0)) = ∅ := by
      refine AscSet.ext_mem fun d => ?_
      rw [mem_matching (Nat.le_max_left _ _)]
      have h0 : hits [] d = 0 := rfl
      rw [h0]
      simp
    show Settles (pure []) (.ok (imp.best [] ((matching [] (max 1 (min minMatch 0))).toList.take n) k))
    rw [hnone, AscSet.toList_empty, List.take_nil, ImpactIndex.best_nil]
    exact Settles.pure _
  rw [if_neg (by simpa using hys)]
  simp only
  rw [List.length_map, map_head_located, any_locatedTail hok hys]
  have hneed : 1 ≤ max 1 (min minMatch ys.length) := Nat.le_max_left _ _
  generalize max 1 (min minMatch ys.length) = need at hneed
  rw [minMatchCandidates_eq hneed, matching_below _ hneed]
  obtain ⟨docs, hdocs⟩ : ∃ docs, matching (ys.map fun y => y.term.docs) need = docs := ⟨_, rfl⟩
  rw [hdocs]
  split
  · next hfull =>
    have hlen := hfull.resolve_right (by decide)
    rw [List.length_take] at hlen
    have hle : n ≤ (docs.below ix.headBoundary).len := by
      show n ≤ (docs.below ix.headBoundary).toList.length
      omega
    rw [Bitmap.take_below hle]
    split
    · next hnil =>
      rw [List.isEmpty_iff.mp hnil, ImpactIndex.best_nil]
      exact Settles.pure _
    · refine settles_rerankHeads hok hys (fun d hd => ?_) k
      rw [← Bitmap.take_below hle] at hd
      exact (Bitmap.mem_below.mp (List.mem_of_mem_take hd)).2
  · refine (settles_locatedTails hok).bind ?_
    rw [zipWith_located, List.map_map]
    have hfull : (ys.map (Prod.snd ∘ fun y => (y.loc.1, y.term.docs))) = ys.map fun y => y.term.docs := rfl
    rw [hfull, minMatchCandidates_eq hneed, hdocs]
    split
    · next hnil =>
      rw [List.isEmpty_iff.mp hnil, ImpactIndex.best_nil]
      exact Settles.pure _
    · exact settles_rerankFull hok hys _ k

end

end RoaringRange
