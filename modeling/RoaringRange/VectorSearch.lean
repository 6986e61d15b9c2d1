import RoaringRange.Vector

/-!
# Vector search: no traps, and the nearest entries

What `search` computes over an index of the sizes its header gives, step by step: the rotated query, the probed
clusters, the table of a cluster's distances, the entries of a block and the scan of all blocks.

    every code of the blocks that are read is in the table → the scan has a value         (scanProbes_ok)
    some code is not → the scan is trapped                                                (scanProbes_trap)
-/

namespace RoaringRange

open ByteString Faults Checked BoundedHeap

section Rows

variable {α : Type} {xs : List α} {i w n : Nat}

/-- Item `i` of `n` rows of `w`. -/
theorem rowAt_ok (hlen : xs.length = n * w) (hi : i < n) (hn : n < u64Bound) (hb : n * w < u64Bound) :
    rowAt xs i w = .ok ((xs.drop (i * w)).take w) := by
  have hnext : (i + 1) * w ≤ n * w := Nat.mul_le_mul_right w hi
  have hsucc : (i + 1) * w = i * w + w := Nat.succ_mul i w
  unfold rowAt
  rw [mul_ok (by omega), ok_bind,
    add_ok (by omega), ok_bind,
    mul_ok (by omega)]
  show range xs (i * w) ((i + 1) * w) = _
  rw [range_ok (by omega) (by omega), hsucc, Nat.add_sub_cancel_left]

theorem length_row (hlen : xs.length = n * w) (hi : i < n) : ((xs.drop (i * w)).take w).length = w := by
  have hnext : (i + 1) * w ≤ n * w := Nat.mul_le_mul_right w hi
  have hsucc : (i + 1) * w = i * w + w := Nat.succ_mul i w
  rw [List.length_take, List.length_drop]
  omega

/-- Storing the items of a row one after the other. -/
theorem store_row {γ : Type} (g : γ → α) (base : Nat) {start : Nat} {cs : List γ} {table : List α}
    (h : base + start + cs.length ≤ table.length) (hb : table.length < u64Bound)
    {step : List α → γ × Nat → Except (Abort IndexError) (List α)} (hstep : ∀ t c, step t c = (add u64Bound base c.2).bind fun p => Checked.set t p (g c.1)) :
    (cs.zipIdx start).foldlM step table =
      .ok (table.take (base + start) ++ cs.map g ++ table.drop (base + start + cs.length)) := by
  induction cs generalizing start table with
  | nil => simp [pure, Except.pure]
  | cons c cs ih =>
    rw [List.length_cons] at h
    have hset : step table (c, start) = .ok (table.set (base + start) (g c)) := by
      rw [hstep, add_ok (by simp only; omega)]
      exact set_ok (by omega)
    rw [List.zipIdx_cons, List.foldlM_cons, hset]
    show List.foldlM step _ (cs.zipIdx (start + 1)) = _
    rw [ih (by rw [List.length_set]; omega) (by rwa [List.length_set])]
    have htake : (table.set (base + start) (g c)).take (base + start + 1) = table.take (base + start) ++ [g c] := by
      rw [List.take_set, List.take_add_one, List.getElem?_eq_getElem (by omega)]
      rw [Option.toList_some, List.set_append_right _ _ (by rw [List.length_take]; omega), List.length_take,
        show base + start - min (base + start) table.length = 0 by omega]
      rfl
    have hdrop : (table.set (base + start) (g c)).drop (base + start + 1 + cs.length) =
        table.drop (base + start + 1 + cs.length) := List.drop_set_of_lt (by omega)
    rw [← Nat.add_assoc, htake, hdrop, List.map_cons, List.length_cons]
    simp only [List.append_assoc, List.cons_append]
    rw [show base + start + 1 + cs.length = base + start + (cs.length + 1) by omega]
    rfl

/-- Item `c` of row `i`, in a table of rows of one length. -/
theorem getElem?_rows {row : Nat → List α} (hw : ∀ s, s < n → (row s).length = w) {c : Nat} (hi : i < n) (hc : c < w) :
    ((List.range n).flatMap row)[i * w + c]? = (row i)[c]? := by
  have hlen : ∀ k, k ≤ n → ((List.range k).flatMap row).length = k * w := by
    intro k hk
    induction k with
    | zero => simp
    | succ k ih =>
      rw [List.range_succ, List.flatMap_append, List.length_append, ih (by omega), Nat.succ_mul]
      simp [hw k (by omega)]
  have hsplit : ∀ k, k ≤ n → i < k → ((List.range k).flatMap row)[i * w + c]? = (row i)[c]? := by
    intro k hk
    induction k with
    | zero => exact fun h => absurd h (Nat.not_lt_zero _)
    | succ k ih =>
      intro hik
      rw [List.range_succ, List.flatMap_append]
      by_cases hlt : i < k
      · have hend : (i + 1) * w ≤ k * w := Nat.mul_le_mul_right w hlt
        rw [Nat.succ_mul] at hend
        rw [List.getElem?_append_left (by rw [hlen k (by omega)]; omega)]
        exact ih (by omega) hlt
      · obtain rfl : i = k := by omega
        rw [List.getElem?_append_right (by rw [hlen i (by omega)]; omega), hlen i (by omega), Nat.add_sub_cancel_left]
        simp
  exact hsplit n (Nat.le_refl n) hi

end Rows

section Search

variable [VectorMath]

namespace VectorIndex

/-! ## The values of the steps -/

/-- `rotate`, without its bounds. -/
def rotated (idx : VectorIndex) (q : List F32) : List F32 :=
  match idx.opq with
  | none => q
  | some r => (List.range idx.dim).map fun i => VectorMath.sum (List.zipWith VectorMath.mul ((r.drop (i * idx.dim)).take idx.dim) q)

/-- The query as the scan uses it. -/
def prepared (idx : VectorIndex) (query : List F32) : List F32 :=
  idx.rotated (if idx.metric = .innerProduct then normalizeVector query else query)

/-- The nearest clusters' candidates. -/
def nearest (idx : VectorIndex) (q : List F32) (nprobe : Nat) : List Candidate :=
  keep nprobe [] (idx.clusterCandidates q)

/-- The probed clusters. -/
def probed (idx : VectorIndex) (q : List F32) (nprobe : Nat) : List Nat :=
  (idx.nearest q nprobe).map fun c => (ofLex c).2

def countOf (idx : VectorIndex) (j : Nat) : Nat := idx.dirCounts.getD j 0

def offsetOf (idx : VectorIndex) (j : Nat) : Nat := idx.dirOffsets.getD j 0

/-- The bytes of a cluster's list. -/
def lenOf (idx : VectorIndex) (j : Nat) : Nat := idx.countOf j * (4 + idx.m)

/-- The probed clusters that hold anything. -/
def active (idx : VectorIndex) (q : List F32) (nprobe : Nat) : List Nat :=
  (idx.probed q nprobe).filter fun j => 0 < idx.countOf j

/-- The query relative to a cluster's centroid. -/
def residual (idx : VectorIndex) (q : List F32) (j : Nat) : List F32 :=
  List.zipWith VectorMath.sub q ((idx.centroids.drop (j * idx.dim)).take idx.dim)

/-- The codebook of a subspace. -/
def codebook (idx : VectorIndex) (s : Nat) : List F32 :=
  (idx.codebooks.drop (s * idx.ksub * idx.dsub)).take (idx.ksub * idx.dsub)

/-- The distances of a subspace: one for each of its codes. -/
def tableRow (idx : VectorIndex) (residual : List F32) (s : Nat) : List F32 :=
  (chunks idx.dsub (idx.codebook s)).map (squaredL2 ((residual.drop (s * idx.dsub)).take idx.dsub))

/-- The table of distances. -/
def tableOf (idx : VectorIndex) (residual : List F32) : List F32 :=
  (List.range idx.m).flatMap (idx.tableRow residual)

/-- Every byte of a code has an entry in the table. -/
def CodeFits (idx : VectorIndex) (code : Bytes) : Prop :=
  ∀ c ∈ code.zipIdx, c.2 * idx.ksub + c.1.toNat < idx.m * idx.ksub

instance (idx : VectorIndex) (code : Bytes) : Decidable (idx.CodeFits code) :=
  inferInstanceAs (Decidable (∀ c ∈ code.zipIdx, _))

/-- The sum of a code's table entries. -/
def distOf (idx : VectorIndex) (table : List F32) (code : Bytes) : F32 :=
  VectorMath.sum (code.zipIdx.map fun c => table.getD (c.2 * idx.ksub + c.1.toNat) (VectorMath.ofBits 0))

/-- The ids of a block. -/
def blockIds (idx : VectorIndex) (j : Nat) (block : Bytes) : List Bytes := chunks 4 (block.take (idx.countOf j * 4))

/-- The codes of a block. -/
def blockCodes (idx : VectorIndex) (j : Nat) (block : Bytes) : List Bytes :=
  chunks idx.m (block.drop (idx.countOf j * 4))

/-- Every code of a block is in the table. -/
def BlockFits (idx : VectorIndex) (j : Nat) (block : Bytes) : Prop := ∀ code ∈ idx.blockCodes j block, idx.CodeFits code

instance (idx : VectorIndex) (j : Nat) (block : Bytes) : Decidable (idx.BlockFits j block) :=
  inferInstanceAs (Decidable (∀ code ∈ idx.blockCodes j block, _))

/-- The entries of a block, with their distances to the query. -/
def blockEntries (idx : VectorIndex) (q : List F32) (j : Nat) (block : Bytes) : List Candidate :=
  ((idx.blockIds j block).zip (idx.blockCodes j block)).map fun e =>
    toLex (idx.distOf (idx.tableOf (idx.residual q j)) e.2, ofLe e.1)

namespace WellSized

variable {idx : VectorIndex} {q query : List F32} {nprobe j : Nat}

theorem m_pos (h : idx.WellSized) : 0 < idx.m := by
  have hdim := h.dim_pos
  rw [← h.split] at hdim
  exact Nat.pos_of_mul_pos_right hdim

theorem dsub_pos (h : idx.WellSized) : 0 < idx.dsub := by
  have hdim := h.dim_pos
  rw [← h.split] at hdim
  exact Nat.pos_of_mul_pos_left hdim

theorem m_le (h : idx.WellSized) : idx.m ≤ idx.dim := by
  have := Nat.mul_le_mul_left idx.m h.dsub_pos
  rw [h.split] at this
  omega

omit [VectorMath] in
theorem square_lt {a b : Nat} (ha : a < 2 ^ 32) (hb : b < 2 ^ 32) : a * b < u64Bound := by
  have : a * b < 2 ^ 32 * 2 ^ 32 := Nat.mul_lt_mul'' ha hb
  unfold u64Bound
  omega

/-- The table has at most `2 ^ 40` entries. -/
theorem table_lt (h : idx.WellSized) : idx.m * idx.ksub < 2 ^ 41 := by
  have hm := h.m_le
  have hd := h.dim_lt
  have : idx.m * idx.ksub ≤ 2 ^ 32 * 256 := Nat.mul_le_mul (by omega) h.ksub_le
  omega

/-- The codebooks have at most `2 ^ 40` floats. -/
theorem books_lt (h : idx.WellSized) : idx.m * idx.ksub * idx.dsub < 2 ^ 41 := by
  have heq : idx.m * idx.ksub * idx.dsub = idx.dim * idx.ksub := by
    rw [Nat.mul_right_comm, h.split]
  have hd := h.dim_lt
  have : idx.dim * idx.ksub ≤ 2 ^ 32 * 256 := Nat.mul_le_mul (by omega) h.ksub_le
  omega

theorem rotate_eq (h : idx.WellSized) (q : List F32) : idx.rotate q = .ok (idx.rotated q) := by
  have hopq := h.opq
  unfold rotate rotated
  cases hr : idx.opq with
  | none => rfl
  | some r =>
    simp only
    refine mapM_ok fun i hi => ?_
    rw [rowAt_ok (hopq r hr) (List.mem_range.mp hi) (Nat.lt_trans h.dim_lt (by decide)) (square_lt h.dim_lt h.dim_lt)]
    rfl

theorem prepare_eq (h : idx.WellSized) (query : List F32) : idx.prepare query = .ok (idx.prepared query) :=
  h.rotate_eq _

omit [VectorMath] in
theorem length_normalizeVector [VectorMath] (v : List F32) : (normalizeVector v).length = v.length := by
  unfold normalizeVector
  simp only
  split
  · rfl
  · rw [List.length_map]

theorem length_prepared (hq : query.length = idx.dim) : (idx.prepared query).length = idx.dim := by
  have hv : (if idx.metric = .innerProduct then normalizeVector query else query).length = idx.dim := by
    split
    · rw [length_normalizeVector, hq]
    · exact hq
  unfold prepared rotated
  split
  · exact hv
  · rw [List.length_map, List.length_range]

/-- The `nprobe` least clusters, by number. -/
theorem nearestClusters_eq (h : idx.WellSized) (q : List F32) (hn : nprobe ≤ idx.nlist) :
    idx.nearestClusters q nprobe = .ok (idx.probed q nprobe) := by
  have hlt := h.nlist_lt
  have hdim := h.dim_pos
  unfold nearestClusters
  rw [add_ok (by unfold u64Bound; omega), ok_bind,
    reserve, if_pos (by unfold isizeMax; omega), ok_bind,
    chunksExact_ok (by omega)]
  show Except.ok _ = _
  unfold probed nearest clusterCandidates keep
  rw [List.foldl_map]

theorem leastOf_nearest (idx : VectorIndex) (q : List F32) (nprobe : Nat) :
    LeastOf nprobe (idx.nearest q nprobe) (idx.clusterCandidates q) := by
  have hkeep := leastOf_keep (LeastOf.nil (α := Candidate) (k := nprobe)) (idx.clusterCandidates q)
  rwa [List.nil_append] at hkeep

/-- A probed cluster is one of the index. -/
theorem lt_of_mem_probed (h : idx.WellSized) (hj : j ∈ idx.probed q nprobe) : j < idx.nlist := by
  obtain ⟨c, hc, rfl⟩ := List.mem_map.mp hj
  have hmem := (leastOf_nearest idx q nprobe).subset hc
  obtain ⟨e, he, rfl⟩ := List.mem_map.mp hmem
  have hlt : e.2 < (chunks idx.dim idx.centroids).length := (List.getElem?_eq_some_iff.mp (List.mem_zipIdx_iff_getElem?.mp he)).1
  rw [length_chunks, h.centroids, Nat.mul_div_cancel _ h.dim_pos] at hlt
  show e.2 % 2 ^ 32 < idx.nlist
  exact Nat.lt_of_le_of_lt (Nat.mod_le _ _) hlt

theorem length_codebook (h : idx.WellSized) {s : Nat} (hs : s < idx.m) : (idx.codebook s).length = idx.ksub * idx.dsub := by
  unfold codebook
  rw [Nat.mul_assoc]
  exact length_row (by rw [h.codebooks, Nat.mul_assoc]) hs

theorem length_tableRow (h : idx.WellSized) (r : List F32) {s : Nat} (hs : s < idx.m) :
    (idx.tableRow r s).length = idx.ksub := by
  unfold tableRow
  rw [List.length_map, length_chunks, h.length_codebook hs, Nat.mul_div_cancel _ h.dsub_pos]

theorem length_tableOf (h : idx.WellSized) (r : List F32) {n : Nat} (hn : n ≤ idx.m) :
    ((List.range n).flatMap (idx.tableRow r)).length = n * idx.ksub := by
  induction n with
  | zero => simp
  | succ n ih =>
    rw [List.range_succ, List.flatMap_append, List.length_append, ih (by omega), Nat.succ_mul]
    simp [h.length_tableRow r (s := n) (by omega)]

/-- One row of the table. -/
theorem adcRow_eq (h : idx.WellSized) {r table : List F32} (hr : r.length = idx.dim) {s : Nat} (hs : s < idx.m)
    (hlen : table.length = idx.m * idx.ksub) :
    idx.adcRow r table s =
      .ok (table.take (s * idx.ksub) ++ idx.tableRow r s ++ table.drop ((s + 1) * idx.ksub)) := by
  have htable := h.table_lt
  have hbooks := h.books_lt
  have hm := h.m_le
  have hdim := h.dim_lt
  have hnext : (s + 1) * idx.ksub ≤ idx.m * idx.ksub := Nat.mul_le_mul_right _ hs
  have hsucc : (s + 1) * idx.ksub = s * idx.ksub + idx.ksub := Nat.succ_mul _ _
  have hend : (s + 1) * idx.ksub * idx.dsub ≤ idx.m * idx.ksub * idx.dsub := Nat.mul_le_mul_right _ hnext
  have hrow : (s + 1) * idx.ksub * idx.dsub = s * idx.ksub * idx.dsub + idx.ksub * idx.dsub := by
    rw [hsucc, Nat.add_mul]
  have hbound : (2 : Nat) ^ 41 < u64Bound := by decide
  have hsplit := h.split
  unfold adcRow
  rw [rowAt_ok (by rw [hr, hsplit]) hs (by omega) (by omega), ok_bind,
    mul_ok (by omega), ok_bind,
    mul_ok (by omega), ok_bind,
    add_ok (by omega), ok_bind,
    mul_ok (by omega), ok_bind,
    mul_ok (by omega), ok_bind,
    range_ok (by omega) (by rw [h.codebooks]; omega), hrow, Nat.add_sub_cancel_left, ok_bind,
    chunksExact_ok (Nat.ne_of_gt h.dsub_pos)]
  have hcodes : (chunks idx.dsub (idx.codebook s)).length = idx.ksub := by
    rw [length_chunks, h.length_codebook hs, Nat.mul_div_cancel _ h.dsub_pos]
  show List.foldlM _ table ((chunks idx.dsub (idx.codebook s)).zipIdx 0) = _
  refine (store_row (squaredL2 ((r.drop (s * idx.dsub)).take idx.dsub)) (s * idx.ksub) (by rw [hcodes, hlen]; omega)
    (by omega) fun t c => rfl).trans ?_
  rw [hcodes, Nat.add_zero, ← hsucc]
  rfl

/-- The table is filled row by row, without an index past its end. -/
theorem adcTable_eq (h : idx.WellSized) {r : List F32} (hr : r.length = idx.dim) : idx.adcTable r = .ok (idx.tableOf r) := by
  have htable := h.table_lt
  have hrows : ∀ n, n ≤ idx.m →
      (List.range n).foldlM (idx.adcRow r) (List.replicate (idx.m * idx.ksub) (VectorMath.ofBits 0)) =
        .ok ((List.range n).flatMap (idx.tableRow r) ++
          List.replicate (idx.m * idx.ksub - n * idx.ksub) (VectorMath.ofBits 0)) := by
    intro n hn
    induction n with
    | zero => simp [pure, Except.pure]
    | succ n ih =>
      have hnext : (n + 1) * idx.ksub ≤ idx.m * idx.ksub := Nat.mul_le_mul_right _ hn
      have hsucc : (n + 1) * idx.ksub = n * idx.ksub + idx.ksub := Nat.succ_mul _ _
      have hdone := h.length_tableOf r (n := n) (by omega)
      rw [List.range_succ, List.foldlM_append, ih (by omega)]
      show (List.foldlM (idx.adcRow r) _ [n]) = _
      rw [List.foldlM_cons, h.adcRow_eq hr (by omega) (by rw [List.length_append, hdone, List.length_replicate]; omega)]
      show Except.ok _ = _
      rw [List.take_append_of_le_length (by omega), List.take_of_length_le (by omega), List.drop_append,
        List.drop_of_length_le (by omega), List.nil_append, hdone, List.drop_replicate, List.flatMap_append]
      simp only [List.flatMap_cons, List.flatMap_nil, List.append_nil]
      rw [show idx.m * idx.ksub - n * idx.ksub - ((n + 1) * idx.ksub - n * idx.ksub) =
        idx.m * idx.ksub - (n + 1) * idx.ksub by omega]
  unfold adcTable
  rw [mul_ok (by unfold u64Bound; omega), ok_bind,
    reserve, if_pos (by unfold isizeMax; omega)]
  show (List.range idx.m).foldlM _ _ = _
  rw [hrows idx.m (Nat.le_refl _), Nat.sub_self, List.replicate_zero, List.append_nil]
  rfl

/-! ## Looking codes up -/

/-- The place of one byte of a code. -/
theorem lookup_eq (h : idx.WellSized) {table : List F32} {code : Bytes} (hcode : code.length ≤ idx.m) {c : UInt8 × Nat}
    (hc : c ∈ code.zipIdx) :
    idx.tableEntry table c = get table (c.2 * idx.ksub + c.1.toNat) := by
  have htable := h.table_lt
  have hlt : c.2 < code.length := (List.getElem?_eq_some_iff.mp (List.mem_zipIdx_iff_getElem?.mp hc)).1
  have hrow : c.2 * idx.ksub ≤ idx.m * idx.ksub := Nat.mul_le_mul_right _ (by omega)
  have hbyte := c.1.toNat_lt
  have hbound : (2 : Nat) ^ 41 + 256 < u64Bound := by decide
  unfold tableEntry
  rw [mul_ok (by omega), ok_bind,
    add_ok (by omega)]
  rfl

theorem codeDist_ok (h : idx.WellSized) {table : List F32} (ht : table.length = idx.m * idx.ksub) {code : Bytes}
    (hcode : code.length ≤ idx.m) (hfits : idx.CodeFits code) :
    idx.codeDist table code = .ok (idx.distOf table code) := by
  have hentries : code.zipIdx.mapM (idx.tableEntry table) =
      .ok (code.zipIdx.map fun c => table.getD (c.2 * idx.ksub + c.1.toNat) (VectorMath.ofBits 0)) := by
    refine mapM_ok fun c hc => ?_
    have hlt := hfits c hc
    rw [h.lookup_eq hcode hc]
    apply get_ok
    rw [List.getD_eq_getElem?_getD, List.getElem?_eq_getElem (by omega), Option.getD_some]
  unfold codeDist
  rw [hentries]
  rfl

theorem codeDist_trap (h : idx.WellSized) {table : List F32} (ht : table.length = idx.m * idx.ksub) {code : Bytes}
    (hcode : code.length ≤ idx.m) (hfits : ¬ idx.CodeFits code) :
    idx.codeDist table code = .error (.trap .outOfBounds) := by
  obtain ⟨c, hc⟩ := not_forall.mp hfits
  obtain ⟨hmem, hge⟩ := Classical.not_imp.mp hc
  have hentries : code.zipIdx.mapM (idx.tableEntry table) = .error (.trap .outOfBounds) := by
    refine mapM_error (fun d hd => ?_) ⟨c, hmem, ?_⟩
    · rw [h.lookup_eq hcode hd]
      by_cases hlt : d.2 * idx.ksub + d.1.toNat < table.length
      · obtain ⟨x, -, hx⟩ := exists_get (δ := IndexError) hlt
        exact Or.inl ⟨x, hx⟩
      · exact Or.inr (get_trap (by omega))
    · rw [h.lookup_eq hcode hmem]
      exact get_trap (by omega)
  unfold codeDist
  rw [hentries]
  rfl

/-! ## Scanning a block -/

theorem length_residual (h : idx.WellSized) (hq : q.length = idx.dim) (hj : j < idx.nlist) :
    (idx.residual q j).length = idx.dim := by
  unfold residual
  rw [List.length_zipWith, hq, length_row h.centroids hj, Nat.min_self]

theorem countOf_lt (h : idx.WellSized) (hj : j < idx.nlist) : idx.countOf j < 2 ^ 32 := by
  unfold countOf
  rw [List.getD_eq_getElem _ _ (by rw [h.counts]; exact hj)]
  exact h.count_lt _ (List.getElem_mem _)

theorem get_counts (h : idx.WellSized) (hj : j < idx.nlist) :
    (get idx.dirCounts j : Except (Abort IndexError) Nat) = .ok (idx.countOf j) := by
  apply get_ok
  unfold countOf
  rw [List.getD_eq_getElem _ _ (by rw [h.counts]; exact hj), List.getElem?_eq_getElem (by rw [h.counts]; exact hj)]

theorem get_offsets (h : idx.WellSized) (hj : j < idx.nlist) :
    (get idx.dirOffsets j : Except (Abort IndexError) Nat) = .ok (idx.offsetOf j) := by
  apply get_ok
  unfold offsetOf
  rw [List.getD_eq_getElem _ _ (by rw [h.offsets]; exact hj), List.getElem?_eq_getElem (by rw [h.offsets]; exact hj)]

/-- A block has as many codes as ids. -/
theorem length_blockCodes (h : idx.WellSized) {block : Bytes} (hlen : block.length = idx.lenOf j) :
    (idx.blockIds j block).length = (idx.blockCodes j block).length := by
  have hsum : idx.countOf j * (4 + idx.m) = idx.countOf j * 4 + idx.countOf j * idx.m := Nat.mul_add _ _ _
  unfold blockIds blockCodes
  rw [length_chunks, length_chunks, List.length_take, List.length_drop, hlen, lenOf, hsum, Nat.min_eq_left (by omega),
    Nat.add_sub_cancel_left, Nat.mul_div_cancel _ (by decide), Nat.mul_div_cancel _ h.m_pos]

/-- What the scan of a block does before its entries: everything is in bounds. -/
theorem scanBlock_eq (h : idx.WellSized) (hq : q.length = idx.dim) (hj : j < idx.nlist) {block : Bytes}
    (hlen : block.length = idx.lenOf j) (k : Nat) (heap : List Candidate) :
    idx.scanBlock q k j block (idx.lenOf j) heap =
      ((idx.blockIds j block).zip (idx.blockCodes j block)).foldlM
        (idx.scanEntry (idx.tableOf (idx.residual q j)) k) heap := by
  have hcount := h.countOf_lt hj
  have hsum : idx.lenOf j = idx.countOf j * 4 + idx.countOf j * idx.m := Nat.mul_add _ _ _
  have hsquare := square_lt h.nlist_lt h.dim_lt
  unfold scanBlock
  rw [h.get_counts hj, ok_bind,
    mul_ok (by unfold u64Bound; omega), ok_bind,
    reject_ok (by omega), ok_bind,
    rowAt_ok h.centroids hj (Nat.lt_trans h.nlist_lt (by decide)) hsquare, ok_bind]
  show (idx.adcTable (idx.residual q j) >>= _) = _
  rw [h.adcTable_eq (h.length_residual hq hj), ok_bind,
    range_ok (Nat.zero_le _) (by omega), Nat.sub_zero, List.drop_zero, ok_bind,
    range_ok (by omega) (Nat.le_refl _), ok_bind,
    chunksExact_ok (by decide), ok_bind,
    chunksExact_ok (Nat.ne_of_gt h.m_pos), List.take_of_length_le (by rw [List.length_drop])]
  rfl

/-- The scan of a block whose codes are all in the table. -/
theorem scanBlock_ok (h : idx.WellSized) (hq : q.length = idx.dim) (hj : j < idx.nlist) {block : Bytes}
    (hlen : block.length = idx.lenOf j) (hfits : idx.BlockFits j block) (k : Nat) (heap : List Candidate) :
    idx.scanBlock q k j block (idx.lenOf j) heap = .ok (keep k heap (idx.blockEntries q j block)) := by
  have htable : (idx.tableOf (idx.residual q j)).length = idx.m * idx.ksub := h.length_tableOf _ (Nat.le_refl _)
  rw [h.scanBlock_eq hq hj hlen]
  refine (foldlM_ok (g := fun heap (e : Bytes × Bytes) =>
    offer k heap (toLex (idx.distOf (idx.tableOf (idx.residual q j)) e.2, ofLe e.1))) (fun e he heap => ?_) heap).trans ?_
  · have hcode := (List.of_mem_zip he).2
    unfold scanEntry
    rw [h.codeDist_ok htable (Nat.le_of_eq (length_of_mem_chunks hcode)) (hfits e.2 hcode)]
    rfl
  · unfold keep blockEntries
    rw [List.foldl_map]

/-- The scan of a block with a code that is not in the table. -/
theorem scanBlock_trap (h : idx.WellSized) (hq : q.length = idx.dim) (hj : j < idx.nlist) {block : Bytes}
    (hlen : block.length = idx.lenOf j) (hfits : ¬ idx.BlockFits j block) (k : Nat) (heap : List Candidate) :
    idx.scanBlock q k j block (idx.lenOf j) heap = .error (.trap .outOfBounds) := by
  have htable : (idx.tableOf (idx.residual q j)).length = idx.m * idx.ksub := h.length_tableOf _ (Nat.le_refl _)
  obtain ⟨code, hcode⟩ := not_forall.mp hfits
  obtain ⟨hmem, hout⟩ := Classical.not_imp.mp hcode
  obtain ⟨n, hn, rfl⟩ := List.getElem_of_mem hmem
  have hids := h.length_blockCodes hlen
  rw [h.scanBlock_eq hq hj hlen]
  refine foldlM_error (fun e he => ?_) ⟨((idx.blockIds j block)[n], (idx.blockCodes j block)[n]), ?_, fun a => ?_⟩ heap
  · have hcode := (List.of_mem_zip he).2
    by_cases hfit : idx.CodeFits e.2
    · refine Or.inl fun a => ⟨offer k a (toLex (idx.distOf (idx.tableOf (idx.residual q j)) e.2, ofLe e.1)), ?_⟩
      unfold scanEntry
      rw [h.codeDist_ok htable (Nat.le_of_eq (length_of_mem_chunks hcode)) hfit]
      rfl
    · refine Or.inr fun a => ?_
      unfold scanEntry
      rw [h.codeDist_trap htable (Nat.le_of_eq (length_of_mem_chunks hcode)) hfit]
      rfl
  · rw [List.mem_iff_getElem]
    exact ⟨n, by rw [List.length_zip]; omega, List.getElem_zip⟩
  · unfold scanEntry
    rw [h.codeDist_trap htable (Nat.le_of_eq (length_of_mem_chunks hmem)) hout]
    rfl

end WellSized

/-! ## Scanning the blocks -/

/-- The bytes of a cluster's list in the file. -/
def blockOf (idx : VectorIndex) (j : Nat) : Bytes := slice idx.fetch.bytes (idx.offsetOf j) (idx.lenOf j)

/-- The list lies in the file. -/
def Readable (idx : VectorIndex) (j : Nat) : Prop := idx.fetch.InFile (idx.offsetOf j) (idx.lenOf j)

instance (idx : VectorIndex) (j : Nat) : Decidable (idx.Readable j) :=
  inferInstanceAs (Decidable (idx.fetch.InFile _ _))

/-- The clusters before the first one whose list cannot be read. -/
def readable (idx : VectorIndex) (js : List Nat) : List Nat := js.takeWhile fun j => decide (idx.Readable j)

/-- What the read of a cluster's list answers. -/
def answerOf (idx : VectorIndex) (j : Nat) : Except (Abort IndexError) Bytes :=
  lift (idx.fetch.answer (idx.offsetOf j) (idx.lenOf j))

def probesOf (idx : VectorIndex) (js : List Nat) (outcomes : List (Except (Abort IndexError) Bytes)) : List Probe :=
  List.zipWith (fun j block => ⟨j, block, idx.lenOf j⟩) js outcomes

theorem readable_cons {idx : VectorIndex} {j : Nat} (h : idx.Readable j) (js : List Nat) :
    idx.readable (j :: js) = j :: idx.readable js := by simp [readable, h]

theorem readable_cons_not {idx : VectorIndex} {j : Nat} (h : ¬ idx.Readable j) (js : List Nat) :
    idx.readable (j :: js) = [] := by simp [readable, h]

theorem answerOf_readable {idx : VectorIndex} {j : Nat} (h : idx.Readable j) : idx.answerOf j = .ok (idx.blockOf j) := by
  unfold answerOf
  rw [MemoryFetch.answer_of_inFile h]
  rfl

theorem answerOf_not_readable {idx : VectorIndex} {j : Nat} (h : ¬ idx.Readable j) :
    ∃ e, idx.answerOf j = .error (.err e) := by
  unfold answerOf MemoryFetch.answer
  split
  · exact ⟨_, rfl⟩
  · next hmiss =>
    split
    · next hin => exact absurd ⟨by simpa using hmiss, hin⟩ h
    · exact ⟨_, rfl⟩

theorem length_blockOf {idx : VectorIndex} {j : Nat} (h : idx.Readable j) : (idx.blockOf j).length = idx.lenOf j :=
  length_slice _ _ _ h.2.2

namespace WellSized

variable {idx : VectorIndex} {q query : List F32} {nprobe k : Nat} {js : List Nat}

/-- Faults or not, the scan is safe where the codes of the blocks before the first unreadable one fit. -/
theorem safe_scanProbes (h : idx.WellSized) (hq : q.length = idx.dim) (hjs : ∀ j ∈ js, j < idx.nlist)
    (hfits : ∀ j ∈ idx.readable js, idx.BlockFits j (idx.blockOf j)) {F : FetchError → Prop}
    {outcomes : List (Except (Abort IndexError) Bytes)} (hread : List.Forall₂ (Agrees F) outcomes (js.map idx.answerOf))
    (heap : List Candidate) : Safe (fun _ => True) (idx.scanProbes q k (idx.probesOf js outcomes) heap) := by
  induction js generalizing outcomes heap with
  | nil =>
    cases hread
    exact Safe.ok trivial
  | cons j js ih =>
    obtain ⟨o, os, ho, hos, rfl⟩ := List.forall₂_cons_right_iff.mp hread
    show Safe _ (List.foldlM _ heap (Probe.mk j o (idx.lenOf j) :: idx.probesOf js os))
    rw [List.foldlM_cons]
    have hrest := fun hr : idx.Readable j => ih (fun i hi => hjs i (List.mem_cons_of_mem _ hi))
      (fun i hi => hfits i (by rw [readable_cons hr]; exact List.mem_cons_of_mem _ hi)) hos
    have herr : ∀ e, o = .error (.err e) → Safe (fun _ => True) ((do
        let block ← o
        idx.scanBlock q k j block (idx.lenOf j) heap) >>= fun heap => idx.scanProbes q k (idx.probesOf js os) heap) := by
      rintro e rfl
      exact Safe.err e
    by_cases hr : idx.Readable j
    · rcases ho with ho | ⟨e, -, ho⟩
      · have hfit := hfits j (by rw [readable_cons hr]; exact List.mem_cons_self)
        rw [answerOf_readable hr] at ho
        simp only [ho, ok_bind]
        rw [h.scanBlock_ok hq (hjs j List.mem_cons_self) (length_blockOf hr) hfit, ok_bind]
        exact hrest hr _
      · exact herr _ ho
    · obtain ⟨e, he⟩ := answerOf_not_readable hr
      rcases ho with ho | ⟨e', -, ho⟩
      · exact herr e (by rw [ho, he])
      · exact herr _ ho

/-- A code out of the table, in a block that is read, traps the scan. -/
theorem scanProbes_trap (h : idx.WellSized) (hq : q.length = idx.dim) (hjs : ∀ j ∈ js, j < idx.nlist)
    (hout : ∃ j ∈ idx.readable js, ¬ idx.BlockFits j (idx.blockOf j))
    (heap : List Candidate) :
    idx.scanProbes q k (idx.probesOf js (js.map idx.answerOf)) heap = .error (.trap .outOfBounds) := by
  induction js generalizing heap with
  | nil =>
    obtain ⟨j, hj, -⟩ := hout
    cases hj
  | cons j js ih =>
    obtain ⟨i, hi, hnot⟩ := hout
    have hr : idx.Readable j := by
      by_contra hr
      rw [readable_cons_not hr] at hi
      cases hi
    rw [readable_cons hr] at hi
    show List.foldlM _ heap (Probe.mk j (idx.answerOf j) (idx.lenOf j) :: idx.probesOf js (js.map idx.answerOf)) = _
    rw [List.foldlM_cons]
    simp only [answerOf_readable hr, ok_bind]
    by_cases hfit : idx.BlockFits j (idx.blockOf j)
    · have hrest : i ∈ idx.readable js := by
        rcases List.mem_cons.mp hi with rfl | hi
        · exact absurd hfit hnot
        · exact hi
      rw [h.scanBlock_ok hq (hjs j List.mem_cons_self) (length_blockOf hr) hfit, ok_bind]
      exact ih (fun i hi => hjs i (List.mem_cons_of_mem _ hi)) ⟨i, hrest, hnot⟩ _
    · rw [h.scanBlock_trap hq (hjs j List.mem_cons_self) (length_blockOf hr) hfit]
      rfl

/-- The scan of blocks that are all in the file and whose codes fit, whatever faults their reads met. -/
theorem agrees_scanProbes (h : idx.WellSized) (hq : q.length = idx.dim) (hjs : ∀ j ∈ js, j < idx.nlist)
    (hblocks : ∀ j ∈ js, idx.Readable j ∧ idx.BlockFits j (idx.blockOf j)) {F : FetchError → Prop}
    {outcomes : List (Except (Abort IndexError) Bytes)} (hread : List.Forall₂ (Agrees F) outcomes (js.map idx.answerOf))
    (heap : List Candidate) :
    Agrees F (idx.scanProbes q k (idx.probesOf js outcomes) heap)
      (.ok (keep k heap (js.flatMap fun j => idx.blockEntries q j (idx.blockOf j)))) := by
  induction js generalizing outcomes heap with
  | nil =>
    cases hread
    exact Or.inl rfl
  | cons j js ih =>
    obtain ⟨o, os, ho, hos, rfl⟩ := List.forall₂_cons_right_iff.mp hread
    obtain ⟨hr, hfit⟩ := hblocks j List.mem_cons_self
    show Agrees F (List.foldlM _ heap (Probe.mk j o (idx.lenOf j) :: idx.probesOf js os)) _
    rw [List.foldlM_cons, List.flatMap_cons, keep_append]
    rcases ho with ho | ⟨e, he, ho⟩
    · rw [answerOf_readable hr] at ho
      simp only [ho, ok_bind]
      rw [h.scanBlock_ok hq (hjs j List.mem_cons_self) (length_blockOf hr) hfit, ok_bind]
      exact ih (fun i hi => hjs i (List.mem_cons_of_mem _ hi)) (fun i hi => hblocks i (List.mem_cons_of_mem _ hi)) hos _
    · refine Or.inr ⟨e, he, ?_⟩
      simp only [ho]
      rfl

/-! ## The plan of the reads -/

theorem lt_of_mem_active (h : idx.WellSized) {j : Nat} (hj : j ∈ idx.active q nprobe) : j < idx.nlist :=
  h.lt_of_mem_probed (List.mem_of_mem_filter hj)

theorem blockLen_ok (h : idx.WellSized) {j : Nat} (hj : j < idx.nlist) (hlen : idx.lenOf j < u64Bound) :
    idx.blockLen j = .ok (idx.lenOf j) := by
  have hm := h.m_le
  have hdim := h.dim_lt
  unfold blockLen
  rw [h.get_counts hj, ok_bind, add_ok (by unfold u64Bound; omega), ok_bind]
  show (reject (u64Bound ≤ idx.lenOf j) _ >>= _) = _
  rw [reject_ok (Nat.not_le.mpr hlen)]
  rfl

theorem blockLen_err (h : idx.WellSized) {j : Nat} (hj : j < idx.nlist) (hlen : u64Bound ≤ idx.lenOf j) :
    idx.blockLen j = .error (.err (.malformed "RRVI cluster block size overflow")) := by
  have hm := h.m_le
  have hdim := h.dim_lt
  unfold blockLen
  rw [h.get_counts hj, ok_bind, add_ok (by unfold u64Bound; omega), ok_bind]
  show (reject (u64Bound ≤ idx.lenOf j) _ >>= _) = _
  rw [reject_err hlen]
  rfl

/-- What of the plan does not depend on the sizes of the blocks. -/
theorem plan_eq (h : idx.WellSized) (hn : nprobe ≤ idx.nlist) :
    idx.plan q nprobe = (do
      let lens ← (idx.active q nprobe).mapM fun j => idx.blockLen j
      ((idx.active q nprobe).zip lens).mapM fun c => do
        let offset ← get idx.dirOffsets c.1
        .ok (c.1, offset, c.2)) := by
  have hcounts : (idx.probed q nprobe).mapM (fun j => do
      let count ← get idx.dirCounts j
      .ok (j, count) : Nat → Except (Abort IndexError) (Nat × Nat)) =
      .ok ((idx.probed q nprobe).map fun j => (j, idx.countOf j)) := by
    refine mapM_ok fun j hj => ?_
    rw [h.get_counts (h.lt_of_mem_probed hj)]
    rfl
  have hactive : (((idx.probed q nprobe).map fun j => (j, idx.countOf j)).filter fun c => decide (0 < c.2)).map Prod.fst =
      idx.active q nprobe := by
    rw [List.filter_map, List.map_map]
    exact List.map_id _
  unfold plan
  rw [h.nearestClusters_eq q hn, ok_bind, hcounts, ok_bind]
  simp only [hactive]

/-- Every probed cluster that holds anything is read, from where the directory says. -/
theorem plan_ok (h : idx.WellSized) (hn : nprobe ≤ idx.nlist) (hlens : ∀ j ∈ idx.active q nprobe, idx.lenOf j < u64Bound) :
    idx.plan q nprobe = .ok ((idx.active q nprobe).map fun j => (j, idx.offsetOf j, idx.lenOf j)) := by
  rw [h.plan_eq hn, mapM_ok fun j hj => h.blockLen_ok (h.lt_of_mem_active hj) (hlens j hj), ok_bind]
  have hzip : (idx.active q nprobe).zip ((idx.active q nprobe).map idx.lenOf) =
      (idx.active q nprobe).map fun j => (j, idx.lenOf j) := by
    have := @List.zip_map' _ _ _ (fun j => j) idx.lenOf (idx.active q nprobe)
    rwa [List.map_id'] at this
  rw [hzip]
  refine (mapM_ok (g := fun c : Nat × Nat => (c.1, idx.offsetOf c.1, c.2)) fun c hc => ?_).trans ?_
  · obtain ⟨j, hj, rfl⟩ := List.mem_map.mp hc
    rw [h.get_offsets (h.lt_of_mem_active hj)]
    rfl
  · rw [List.map_map]
    rfl

/-- A block whose size does not fit is an error, not a trap. -/
theorem plan_err (h : idx.WellSized) (hn : nprobe ≤ idx.nlist) (hlens : ∃ j ∈ idx.active q nprobe, u64Bound ≤ idx.lenOf j) :
    idx.plan q nprobe = .error (.err (.malformed "RRVI cluster block size overflow")) := by
  obtain ⟨j, hj, hlen⟩ := hlens
  rw [h.plan_eq hn, mapM_error (fun i hi => ?_) ⟨j, hj, h.blockLen_err (h.lt_of_mem_active hj) hlen⟩]
  · rfl
  · by_cases hi' : idx.lenOf i < u64Bound
    · exact Or.inl ⟨_, h.blockLen_ok (h.lt_of_mem_active hi) hi'⟩
    · exact Or.inr (h.blockLen_err (h.lt_of_mem_active hi) (Nat.not_lt.mp hi'))

end WellSized

/-! ## Searching never traps, or when it does -/

/-- The heap of `k + 1` candidates fits in an allocation. -/
def HeapFits (k : Nat) : Prop := (k + 1) * 8 ≤ isizeMax

omit [VectorMath] in
theorem scan_heap {k : Nat} (hk : HeapFits k) [VectorMath] (idx : VectorIndex) (q : List F32) (probes : List Probe) :
    idx.scan q k probes = idx.scanProbes q k probes [] := by
  have hlt : k + 1 < u64Bound := by
    unfold HeapFits isizeMax at hk
    unfold u64Bound
    omega
  unfold scan
  rw [add_ok hlt, ok_bind, reserve_ok hk, ok_bind]

/-- The memory of the heap is asked for before anything is scanned. -/
theorem scan_no_heap {k : Nat} (hk : ¬ HeapFits k) (idx : VectorIndex) (q : List F32) (probes : List Probe) :
    ∃ t, idx.scan q k probes = .error (.trap t) := by
  unfold scan
  by_cases hadd : k + 1 < u64Bound
  · rw [add_ok hadd, ok_bind, reserve_trap hk]
    exact ⟨.capacity, rfl⟩
  · rw [add, if_neg hadd]
    exact ⟨.overflow, rfl⟩

/-- The query is refused or needs no clusters, or a block is too large to be asked for, or the heap can be allocated
and the codes of every block before the first unreadable one are in the table. -/
def SearchFits (idx : VectorIndex) (query : List F32) (k nprobe : Nat) : Prop :=
  query.length ≠ idx.dim ∨ k = 0 ∨ nprobe = 0 ∨
  (∃ j ∈ idx.active (idx.prepared query) (min nprobe idx.nlist), u64Bound ≤ idx.lenOf j) ∨
  (HeapFits k ∧ ∀ j ∈ idx.readable (idx.active (idx.prepared query) (min nprobe idx.nlist)),
    idx.BlockFits j (idx.blockOf j))

namespace WellSized

variable {idx : VectorIndex} {query : List F32} {k nprobe : Nat}

/-- What `search` does once its reads are planned. -/
theorem search_eq (h : idx.WellSized) (hq : query.length = idx.dim) (hk : k ≠ 0) (hn : nprobe ≠ 0)
    (hlens : ∀ j ∈ idx.active (idx.prepared query) (min nprobe idx.nlist), idx.lenOf j < u64Bound) :
    idx.search query k nprobe =
      joinAll ((idx.active (idx.prepared query) (min nprobe idx.nlist)).map fun j => access (idx.answerOf j)) >>= fun outcomes =>
        ofOutcome ((idx.scan (idx.prepared query) k
          (idx.probesOf (idx.active (idx.prepared query) (min nprobe idx.nlist)) outcomes)).map fun found =>
            found.map idx.hit) := by
  have hpos := h.nlist_pos
  unfold search
  rw [reject_ok (by simpa using hq), outcome_ok_bind, if_neg (by omega), h.prepare_eq, outcome_ok_bind,
    h.plan_ok (Nat.min_le_right _ _) hlens, outcome_ok_bind]
  rw [List.map_map]
  refine bind_congr fun outcomes => ?_
  rw [List.zipWith_map_left]
  rfl

/-- The outcomes of the reads: the file's answers, but for the faults. -/
theorem joinAll_answers (idx : VectorIndex) (js : List Nat) (s : Schedule FetchError) :
    ∃ n outcomes, (joinAll (js.map fun j => (access (idx.answerOf j) : CheckedIo Bytes))).run s = (.ok outcomes, s.drop n) ∧
      List.Forall₂ (Agrees (s.Met n)) outcomes (js.map idx.answerOf) := by
  refine Settles.joinAll_run ?_ s
  rw [List.forall₂_map_left_iff, List.forall₂_map_right_iff]
  exact List.forall₂_same.mpr fun j _ => Settles.access _

/-- **Under no schedule a trap**, where the heap fits and the codes do. -/
theorem search_safe (h : idx.WellSized) (hfits : idx.SearchFits query k nprobe) :
    SafeRun (fun _ => True) (idx.search query k nprobe) := by
  by_cases hq : query.length = idx.dim
  · by_cases hkn : k = 0 ∨ nprobe = 0
    · have hmin : k = 0 ∨ min nprobe idx.nlist = 0 := by omega
      unfold search
      rw [reject_ok (by simpa using hq), outcome_ok_bind, if_pos hmin]
      exact fun s => Safe.ok trivial
    · by_cases hlens : ∃ j ∈ idx.active (idx.prepared query) (min nprobe idx.nlist), u64Bound ≤ idx.lenOf j
      · have hpos := h.nlist_pos
        unfold search
        rw [reject_ok (by simpa using hq), outcome_ok_bind, if_neg (by omega), h.prepare_eq, outcome_ok_bind,
          h.plan_err (Nat.min_le_right _ _) hlens, outcome_error_bind]
        exact fun s => Safe.err _
      · obtain ⟨hheap, hcodes⟩ : HeapFits k ∧ _ := by
          rcases hfits with h1 | h1 | h1 | h1 | h1
          · exact absurd hq h1
          · exact absurd (Or.inl h1) hkn
          · exact absurd (Or.inr h1) hkn
          · exact absurd h1 hlens
          · exact h1
        have hsmall : ∀ j ∈ idx.active (idx.prepared query) (min nprobe idx.nlist), idx.lenOf j < u64Bound :=
          fun j hj => Nat.not_le.mp fun hle => hlens ⟨j, hj, hle⟩
        rw [h.search_eq hq (fun h0 => hkn (Or.inl h0)) (fun h0 => hkn (Or.inr h0)) hsmall]
        intro s
        obtain ⟨n, outcomes, hrun, hread⟩ := joinAll_answers idx (idx.active (idx.prepared query) (min nprobe idx.nlist)) s
        rw [run_bind, hrun]
        show Safe _ (Except.map _ _)
        rw [scan_heap hheap]
        have hscan := h.safe_scanProbes (k := k) (length_prepared hq) (fun j hj => h.lt_of_mem_active hj) hcodes hread []
        exact hscan.bind fun found _ => Safe.ok trivial
  · unfold search
    rw [reject_err hq, outcome_error_bind]
    exact fun s => Safe.err _

/-- With a heap that does not fit, or a code out of the table, the search without faults is trapped. -/
theorem search_trap (h : idx.WellSized) (hfits : ¬ idx.SearchFits query k nprobe) :
    ∃ t, ((idx.search query k nprobe).run Schedule.calm).1 = .error (.trap t) := by
  unfold SearchFits at hfits
  push Not at hfits
  obtain ⟨hq, hk, hn, hlens, hcodes⟩ := hfits
  have hanswers : (joinAll ((idx.active (idx.prepared query) (min nprobe idx.nlist)).map
      fun j => (access (idx.answerOf j) : CheckedIo Bytes))).run Schedule.calm =
      (.ok ((idx.active (idx.prepared query) (min nprobe idx.nlist)).map idx.answerOf), Schedule.calm) := by
    obtain ⟨n, outcomes, hrun, hread⟩ := joinAll_answers idx (idx.active (idx.prepared query) (min nprobe idx.nlist)) Schedule.calm
    have heq : outcomes = (idx.active (idx.prepared query) (min nprobe idx.nlist)).map idx.answerOf := by
      have hall := hread.imp (S := fun o r => o = r) fun o r ho => by
        rcases ho with ho | ⟨e, he, -⟩
        · exact ho
        · exact absurd he (Schedule.not_met_calm n e)
      rwa [List.forall₂_eq_eq_eq] at hall
    rw [hrun, heq, Schedule.drop_calm]
  rw [h.search_eq hq hk hn hlens, run_bind, hanswers]
  show ∃ t, Except.map _ _ = _
  by_cases hheap : HeapFits k
  · obtain ⟨j, hj, hnot⟩ := hcodes hheap
    refine ⟨.outOfBounds, ?_⟩
    rw [scan_heap hheap, h.scanProbes_trap (length_prepared hq) (fun j hj => h.lt_of_mem_active hj) ⟨j, hj, hnot⟩]
    rfl
  · obtain ⟨t, ht⟩ := scan_no_heap hheap idx (idx.prepared query)
      (idx.probesOf (idx.active (idx.prepared query) (min nprobe idx.nlist))
        ((idx.active (idx.prepared query) (min nprobe idx.nlist)).map idx.answerOf))
    refine ⟨t, ?_⟩
    rw [ht]
    rfl

end WellSized

/-- **When a search of an opened file never traps**, whatever the file holds and whichever reads fail. -/
theorem search_safe_iff (f : MemoryFetch) (s : Schedule FetchError) (idx : VectorIndex)
    (hopen : ((VectorIndex.open f).run s).1 = .ok idx) (query : List F32) (k nprobe : Nat) :
    (∀ (s' : Schedule FetchError) (t : Trap), ((idx.search query k nprobe).run s').1 ≠ .error (.trap t)) ↔
      idx.SearchFits query k nprobe := by
  have hsized := (safeRun_open f s).1 idx hopen
  constructor
  · intro hsafe
    by_contra hfits
    obtain ⟨t, ht⟩ := hsized.search_trap hfits
    exact hsafe _ t ht
  · exact fun hfits s' => (hsized.search_safe hfits s').2

/-! ## What a search returns -/

/-- The codeword `c` of subspace `s`. -/
def codeword (idx : VectorIndex) (s c : Nat) : List F32 := (idx.codebooks.drop ((s * idx.ksub + c) * idx.dsub)).take idx.dsub

/-- The distance of an entry: over the subspaces, from the query's part to the codeword that the code names. -/
def entryDist (idx : VectorIndex) (residual : List F32) (code : Bytes) : F32 :=
  VectorMath.sum (code.zipIdx.map fun c =>
    squaredL2 ((residual.drop (c.2 * idx.dsub)).take idx.dsub) (idx.codeword c.2 c.1.toNat))

/-- The entries stored in a cluster, with their distances to the query. -/
def storedEntries (idx : VectorIndex) (q : List F32) (j : Nat) : List Candidate :=
  ((idx.blockIds j (idx.blockOf j)).zip (idx.blockCodes j (idx.blockOf j))).map fun e =>
    toLex (idx.entryDist (idx.residual q j) e.2, ofLe e.1)

/-- An index as it is built: every list is in the file, and its codes name codewords. -/
structure WellFormed (idx : VectorIndex) : Prop where
  sized : idx.WellSized
  len_lt : ∀ j < idx.nlist, 0 < idx.countOf j → idx.lenOf j < u64Bound
  readable : ∀ j < idx.nlist, 0 < idx.countOf j → idx.Readable j
  codes : ∀ j < idx.nlist, ∀ code ∈ idx.blockCodes j (idx.blockOf j), ∀ c ∈ code, c.toNat < idx.ksub

/-- The clusters probed are the least by distance and number, the entries found the `k` least by distance and id of
those stored there, in whatever order they are scanned, and the search returns their hits, best first. -/
def Exact (idx : VectorIndex) (query : List F32) (k nprobe : Nat) : Prop :=
  ∃ (q : List F32) (clusters found : List Candidate),
    idx.prepare query = .ok q ∧
    LeastOf (min nprobe idx.nlist) clusters (idx.clusterCandidates q) ∧
    idx.nearestClusters q (min nprobe idx.nlist) = .ok (clusters.map fun c => (ofLex c).2) ∧
    LeastOf k found ((clusters.map fun c => (ofLex c).2).flatMap (idx.storedEntries q)) ∧
    (∀ scanned : List Candidate,
      scanned.Perm ((clusters.map fun c => (ofLex c).2).flatMap (idx.storedEntries q)) → keep k [] scanned = found) ∧
    Settles (idx.search query k nprobe) (.ok (found.map idx.hit))

namespace WellSized

variable {idx : VectorIndex} {q : List F32} {k : Nat}

/-- The table entry of a code byte that names a codeword. -/
theorem getElem?_tableOf (h : idx.WellSized) (r : List F32) {s c : Nat} (hs : s < idx.m) (hc : c < idx.ksub) :
    (idx.tableOf r)[s * idx.ksub + c]? =
      some (squaredL2 ((r.drop (s * idx.dsub)).take idx.dsub) (idx.codeword s c)) := by
  unfold tableOf
  rw [getElem?_rows (fun t ht => h.length_tableRow r ht) hs hc]
  have hpieces : (idx.codebook s).length / idx.dsub = idx.ksub := by
    rw [h.length_codebook hs, Nat.mul_div_cancel _ h.dsub_pos]
  unfold tableRow
  rw [List.getElem?_map, getElem?_chunks (by omega), Option.map_some]
  have hend : (c + 1) * idx.dsub ≤ idx.ksub * idx.dsub := Nat.mul_le_mul_right _ hc
  rw [Nat.succ_mul] at hend
  unfold codebook codeword
  rw [List.drop_take, List.take_take, List.drop_drop, Nat.min_eq_left (by omega), ← Nat.add_mul]

/-- The table gives every entry its distance. -/
theorem distOf_eq (h : idx.WellSized) (r : List F32) {code : Bytes} (hlen : code.length = idx.m)
    (hcode : ∀ c ∈ code, c.toNat < idx.ksub) : idx.distOf (idx.tableOf r) code = idx.entryDist r code := by
  unfold distOf entryDist
  congr 1
  refine List.map_congr_left fun c hc => ?_
  obtain ⟨hlt, hget⟩ := List.getElem?_eq_some_iff.mp (List.mem_zipIdx_iff_getElem?.mp hc)
  rw [List.getD_eq_getElem?_getD, h.getElem?_tableOf r (by omega) (hcode c.1 (by rw [← hget]; exact List.getElem_mem hlt)),
    Option.getD_some]

/-- An empty cluster stores nothing. -/
theorem storedEntries_empty (idx : VectorIndex) (q : List F32) {j : Nat} (h : idx.countOf j = 0) :
    idx.storedEntries q j = [] := by
  unfold storedEntries blockIds
  rw [h, Nat.zero_mul, List.take_zero]
  rfl

end WellSized

namespace WellFormed

variable {idx : VectorIndex} {q query : List F32} {k nprobe j : Nat}

theorem blockFits (h : idx.WellFormed) (hj : j < idx.nlist) : idx.BlockFits j (idx.blockOf j) := by
  intro code hcode c hc
  obtain ⟨hlt, hget⟩ := List.getElem?_eq_some_iff.mp (List.mem_zipIdx_iff_getElem?.mp hc)
  rw [length_of_mem_chunks hcode] at hlt
  have hbyte := h.codes j hj code hcode c.1 (by rw [← hget]; exact List.getElem_mem _)
  have hrow : (c.2 + 1) * idx.ksub ≤ idx.m * idx.ksub := Nat.mul_le_mul_right _ hlt
  rw [Nat.succ_mul] at hrow
  omega

theorem blockEntries_eq (h : idx.WellFormed) (hj : j < idx.nlist) (q : List F32) :
    idx.blockEntries q j (idx.blockOf j) = idx.storedEntries q j := by
  refine List.map_congr_left fun e he => ?_
  have hcode := (List.of_mem_zip he).2
  rw [h.sized.distOf_eq _ (length_of_mem_chunks hcode) (h.codes j hj e.2 hcode)]

/-- The entries of the clusters that hold any are those of all probed clusters. -/
theorem flatMap_active (h : idx.WellFormed) (q : List F32) (nprobe : Nat) :
    (idx.active q nprobe).flatMap (fun j => idx.blockEntries q j (idx.blockOf j)) =
      (idx.probed q nprobe).flatMap (idx.storedEntries q) := by
  have hall : ∀ js : List Nat, (∀ j ∈ js, j < idx.nlist) →
      (js.filter fun j => decide (0 < idx.countOf j)).flatMap (fun j => idx.blockEntries q j (idx.blockOf j)) =
        js.flatMap (idx.storedEntries q) := by
    intro js
    induction js with
    | nil => exact fun _ => rfl
    | cons j js ih =>
      intro hjs
      have hrest := ih fun i hi => hjs i (List.mem_cons_of_mem _ hi)
      by_cases hpos : 0 < idx.countOf j
      · rw [List.filter_cons, if_pos (decide_eq_true hpos), List.flatMap_cons, List.flatMap_cons, hrest,
          h.blockEntries_eq (hjs j List.mem_cons_self)]
      · rw [List.filter_cons, if_neg (by simpa using hpos), List.flatMap_cons, hrest,
          WellSized.storedEntries_empty idx q (by omega), List.nil_append]
  exact hall _ fun j hj => h.sized.lt_of_mem_probed hj

theorem lens (h : idx.WellFormed) : ∀ j ∈ idx.active q nprobe, idx.lenOf j < u64Bound := by
  intro j hj
  exact h.len_lt j (h.sized.lt_of_mem_active hj) (by simpa using List.of_mem_filter hj)

/-- The search over lists that can all be read. -/
theorem settles_search (h : idx.WellFormed) (hq : query.length = idx.dim) (hk : k ≠ 0) (hn : nprobe ≠ 0) (hheap : HeapFits k) :
    Settles (idx.search query k nprobe) (.ok ((keep k []
      ((idx.probed (idx.prepared query) (min nprobe idx.nlist)).flatMap (idx.storedEntries (idx.prepared query)))).map
        idx.hit)) := by
  have hscan := fun (F : FetchError → Prop) (outcomes : List (Except (Abort IndexError) Bytes))
      (hread : List.Forall₂ (Agrees F) outcomes
        ((idx.active (idx.prepared query) (min nprobe idx.nlist)).map idx.answerOf)) =>
    h.sized.agrees_scanProbes (k := k) (WellSized.length_prepared hq) (fun j hj => h.sized.lt_of_mem_active hj)
      (fun j hj => ⟨h.readable j (h.sized.lt_of_mem_active hj) (by simpa using List.of_mem_filter hj),
        h.blockFits (h.sized.lt_of_mem_active hj)⟩) hread []
  rw [h.sized.search_eq hq hk hn h.lens, ← h.flatMap_active]
  intro s
  obtain ⟨n, outcomes, hrun, hread⟩ := WellSized.joinAll_answers idx _ s
  refine ⟨n, by rw [run_bind, hrun]; rfl, ?_⟩
  rw [run_bind, hrun]
  show Agrees _ (Except.map _ _) _
  rw [scan_heap hheap]
  rcases hscan _ outcomes hread with hok | ⟨e, he, herr⟩
  · rw [hok]
    exact Or.inl rfl
  · rw [herr]
    exact Or.inr ⟨e, he, rfl⟩

end WellFormed

/-- **The search is exact wherever its heap can be allocated**: the least clusters, and of their entries the `k` least. -/
theorem search_exact_iff (idx : VectorIndex) (hwf : idx.WellFormed) (query : List F32) (hq : query.length = idx.dim)
    (k nprobe : Nat) : idx.Exact query k nprobe ↔ k = 0 ∨ nprobe = 0 ∨ HeapFits k := by
  have hsized := hwf.sized
  constructor
  · rintro ⟨q, clusters, found, -, -, -, -, -, hsettles⟩
    by_contra hnot
    push Not at hnot
    obtain ⟨hk, hn, hheap⟩ := hnot
    have hfits : ¬ idx.SearchFits query k nprobe := by
      rintro (h | h | h | ⟨j, hj, h⟩ | h)
      · exact h hq
      · exact hk h
      · exact hn h
      · exact absurd (hwf.lens j hj) (Nat.not_lt.mpr h)
      · exact hheap h.1
    obtain ⟨t, ht⟩ := hsized.search_trap hfits
    rw [hsettles.calm] at ht
    cases ht
  · intro hcases
    refine ⟨idx.prepared query, idx.nearest (idx.prepared query) (min nprobe idx.nlist),
      keep k [] ((idx.probed (idx.prepared query) (min nprobe idx.nlist)).flatMap (idx.storedEntries (idx.prepared query))),
      hsized.prepare_eq query, WellSized.leastOf_nearest _ _ _, hsized.nearestClusters_eq _ (Nat.min_le_right _ _),
      leastOf_keep LeastOf.nil _, fun scanned hperm => keep_perm hperm, ?_⟩
    by_cases hk : k = 0 ∨ nprobe = 0
    · have hnone : keep k [] ((idx.probed (idx.prepared query) (min nprobe idx.nlist)).flatMap
          (idx.storedEntries (idx.prepared query))) = [] := by
        rcases hk with rfl | rfl
        · exact (leastOf_keep LeastOf.nil _).unique (LeastOf.zero _)
        · have hprobes : idx.nearest (idx.prepared query) (min 0 idx.nlist) = [] := by
            rw [Nat.zero_min]
            exact (WellSized.leastOf_nearest _ _ _).unique (LeastOf.zero _)
          unfold probed
          rw [hprobes]
          rfl
      rw [hnone]
      have hmin : k = 0 ∨ min nprobe idx.nlist = 0 := by omega
      unfold search
      rw [reject_ok (by simpa using hq), outcome_ok_bind, if_pos hmin]
      exact Settles.pure _
    · push Not at hk
      have hheap : HeapFits k := by
        rcases hcases with h | h | h
        · exact absurd h hk.1
        · exact absurd h hk.2
        · exact h
      exact hwf.settles_search hq hk.1 hk.2 hheap

end VectorIndex

end Search

/-! ## A file of one entry -/

/-- Arithmetic on whole numbers, exact for the floats that are one. -/
@[reducible] def wholeVectors : VectorMath where
  F32 := Int
  order := inferInstance
  ofBits n :=
    let magnitude : Int := ((2 ^ 23 + n % 2 ^ 23) * 2 ^ (n / 2 ^ 23 % 256) / 2 ^ 150 : Nat)
    if n / 2 ^ 31 = 0 then magnitude else -magnitude
  sub x y := x - y
  mul x y := x * y
  div x y := x / y
  neg x := -x
  sqrt x := x.toNat.sqrt
  sum xs := xs.foldr (· + ·) 0
  isZero x := x == 0
  cosine x := 1 - x / 2

attribute [local instance] wholeVectors

/-- One cluster at 0 with the codewords 0 and 1, and one entry, doc 7, of this code. -/
def oneEntry (code : UInt8) : MemoryFetch := MemoryFetch.new (
  rrviMagic ++ le 2 1 ++ [1, 0] ++ le 4 1 ++ le 4 1 ++ le 4 1 ++ [1, 0, 0, 0] ++ le 8 1 ++ le 16 0 ++
  le 4 0 ++ (le 4 0 ++ le 4 0x3F800000) ++ (le 8 72 ++ le 4 1) ++
  (le 4 7 ++ [code]))

theorem search_safe_iff_oneEntry : ∃ idx : VectorIndex, ∀ k nprobe : Nat,
    (∀ (s : Schedule FetchError) (t : Trap), ((idx.search [(0 : Int)] k nprobe).run s).1 ≠ .error (.trap t)) ↔
      idx.SearchFits [(0 : Int)] k nprobe :=
  ⟨_, fun k nprobe => VectorIndex.search_safe_iff (oneEntry 1) Schedule.calm _ rfl [(0 : Int)] k nprobe⟩

/-- Its index, once opened. -/
def oneEntryIndex : VectorIndex :=
  ⟨oneEntry 1, 1, 1, 1, 1, 2, 1, .l2, 1, none, [(0 : Int)], [(0 : Int), (1 : Int)], [72], [1]⟩

theorem oneEntryIndex_wellFormed : oneEntryIndex.WellFormed where
  sized := (VectorIndex.safeRun_open (oneEntry 1) Schedule.calm).1 oneEntryIndex rfl
  len_lt := by decide
  readable := by decide
  codes := by decide +kernel

theorem search_exact_oneEntry : oneEntryIndex.Exact [(2 : Int)] 5 3 ↔ 5 = 0 ∨ 3 = 0 ∨ VectorIndex.HeapFits 5 :=
  VectorIndex.search_exact_iff oneEntryIndex oneEntryIndex_wellFormed [(2 : Int)] rfl 5 3

/-- For `k = 2 ^ 60` nothing is returned: the heap alone is past every allocation. -/
theorem search_not_exact : oneEntryIndex.WellFormed ∧ ¬ oneEntryIndex.Exact [(2 : Int)] (2 ^ 60) 1 := by
  refine ⟨oneEntryIndex_wellFormed, ?_⟩
  rintro ⟨_, _, _, -, -, -, -, -, hsettles⟩
  have htrap : ((oneEntryIndex.search [(2 : Int)] (2 ^ 60) 1).run Schedule.calm).1 = .error (.trap .capacity) := rfl
  rw [hsettles.calm] at htrap
  cases htrap

/-- A file that opens and whose one entry has a code past its codebook; and a heap no memory could hold. -/
theorem search_traps : ∃ idx bad,
    ((VectorIndex.open (oneEntry 1)).run Schedule.calm).1 = .ok idx ∧
    ((VectorIndex.open (oneEntry 2)).run Schedule.calm).1 = .ok bad ∧
    ((bad.search [(0 : Int)] 1 1).run Schedule.calm).1 = .error (.trap .outOfBounds) ∧
    ((idx.search [(0 : Int)] (2 ^ 64 - 1) 1).run Schedule.calm).1 = .error (.trap .overflow) := by
  refine ⟨_, _, rfl, rfl, ?_, ?_⟩
  · rfl
  · rfl

end RoaringRange
