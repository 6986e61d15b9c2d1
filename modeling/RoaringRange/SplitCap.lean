import RoaringRange.SplitTiles

/-!
# The byte cap holds (`SplitSetBuilder`)

The builder seals by an estimate, before there is a file.  A key's dictionary row and its posting's header take less
than `perNewKeyBytes`, which leaves room for its part of the sparse index; a posting takes `perElementBytes` for each
of its docs.  So the estimate without its sparse part already bounds the file, and a split of two or more documents
has passed it; a split of one document is looked at when the build ends.

    no index file is larger than its keys and elements are priced at               (length_file_le)
    the price of the open split is within the cap at every call                    (Priced.call, Priced.calls)
    no split that a build emits is larger than the cap of its index                (finish_capped)
-/

namespace RoaringRange

open ByteString Slices

/-! ## The size of an index file -/

/-- Bitmaps are written without run containers: a container is the array of its values, or a bitset. -/
structure PlainContainers [Roaring] : Prop where
  cookie : ∀ S, getLe 4 (serialize S) 0 = noRunContainerCookie
  body : ∀ lows : List Nat, lows.length ≤ bucketSize →
    (Roaring.body lows).length = if lows.length ≤ 4096 then 2 * lows.length else 8192

theorem length_lows_le_len (S : Bitmap) (k : Nat) : (S.lows k).length ≤ S.len := by
  unfold Bitmap.lows
  rw [List.length_map]
  exact List.length_filter_le _ _

/-- The docs of one bucket have one high half. -/
theorem highKeys_of_lt {S : Bitmap} (h : ∀ d ∈ S, d < bucketSize) :
    distinctHighKeys S = [] ∨ distinctHighKeys S = [0] := by
  have hzero : ∀ k ∈ distinctHighKeys S, k = 0 := by
    intro k hk
    obtain ⟨d, hd, rfl⟩ := mem_distinctHighKeys.mp hk
    exact Nat.div_eq_of_lt (h d hd)
  have hasc := distinctHighKeys_asc S
  match hkeys : distinctHighKeys S with
  | [] => exact Or.inl rfl
  | [k] =>
    rw [hkeys] at hzero
    rw [hzero k List.mem_cons_self]
    exact Or.inr rfl
  | k :: j :: ks =>
    rw [hkeys] at hzero hasc
    have hk := hzero k List.mem_cons_self
    have hj := hzero j (List.mem_cons_of_mem _ List.mem_cons_self)
    have hlt := (List.pairwise_cons.mp hasc).1 j List.mem_cons_self
    omega

section

variable [Roaring]

/-- A posting within one bucket. -/
theorem length_serialize_le (hplain : PlainContainers) {S : Bitmap} (h : ∀ d ∈ S, d < bucketSize) :
    (serialize S).length ≤ 16 + perElementBytes * S.len := by
  have hbody : (Roaring.body (S.lows 0)).length ≤ 2 * (S.lows 0).length := by
    rw [hplain.body _ (S.length_lows_le 0)]
    split
    · exact Nat.le_refl _
    · omega
  have hlows := length_lows_le_len S 0
  rw [Roaring.serialize_portable S (hplain.cookie S), length_assemble]
  unfold containersWith dataStart perElementBytes
  rcases highKeys_of_lt h with hkeys | hkeys
  · rw [hkeys]
    simp only [List.map_nil, List.length_nil, bodyBytes_nil]
    omega
  · rw [hkeys]
    simp only [List.map_cons, List.map_nil, List.length_cons, List.length_nil, bodyBytes_cons, bodyBytes_nil]
    omega

omit [Roaring] in
theorem length_writeDict {off : Nat} {entries : List (Key × Bytes)} {dict : Bytes}
    (h : writeDict off entries = .ok dict) : dict.length = entries.length * 20 := by
  induction entries generalizing off dict with
  | nil =>
    obtain rfl := Except.ok.inj h
    rfl
  | cons e entries ih =>
    obtain ⟨key, posting⟩ := e
    unfold writeDict at h
    cases hsize : u32Len posting.length "RRS posting" with
    | error e =>
      simp only [hsize, bind, Except.bind] at h
      cases h
    | ok size =>
      cases hrows : writeDict (off + posting.length) entries with
      | error e =>
        simp only [hsize, hrows, bind, Except.bind] at h
        cases h
      | ok rows =>
        simp only [hsize, hrows, bind, Except.bind] at h
        obtain rfl := Except.ok.inj h
        simp only [List.length_append, length_le, ih hrows, List.length_cons]
        omega

omit [Roaring] in
theorem length_writeSparseIndex (entries : List (Key × Bytes)) (sparseCount stride : Nat) :
    (writeSparseIndex entries sparseCount stride).length = sparseCount * 8 := by
  have h : ∀ is : List Nat, (is.flatMap fun i => le 8 (entries.getD (i * stride) (zeroKey, [])).1.val).length =
      is.length * 8 := by
    intro is
    induction is with
    | nil => rfl
    | cons i is ih =>
      rw [List.flatMap_cons, List.length_append, ih, length_le, List.length_cons]
      omega
  rw [writeSparseIndex, h, List.length_range]

omit [Roaring] in
/-- The sparse index has at most one key for each entry. -/
theorem sparse_le (n stride : Nat) :
    (if n % 2 ^ 32 = 0 then 0
      else (n % 2 ^ 32 + (if stride = 0 then defaultStride else stride) - 1) /
        (if stride = 0 then defaultStride else stride)) ≤ n := by
  have hmod : n % 2 ^ 32 ≤ n := Nat.mod_le _ _
  split
  · exact Nat.zero_le _
  · next hn =>
    have hpos : 0 < (if stride = 0 then defaultStride else stride) := by
      unfold defaultStride
      split <;> omega
    generalize (if stride = 0 then defaultStride else stride) = s at hpos ⊢
    rw [Nat.div_le_iff_le_mul hpos]
    have hmul : (n % 2 ^ 32 - 1) * 1 ≤ (n % 2 ^ 32 - 1) * s := Nat.mul_le_mul_left _ hpos
    have hone : (n % 2 ^ 32 - 1) * s + s = (n % 2 ^ 32) * s := by
      rw [← Nat.succ_mul]
      congr 1
      omega
    have hle : (n % 2 ^ 32) * s ≤ n * s := Nat.mul_le_mul_right _ hmod
    omega

omit [Roaring] in
/-- An index file: its header, at most eight bytes and a row for each entry, and the postings. -/
theorem length_writeIndexWith_le {gramSize stride : Nat} {entries : List (Key × Bytes)} {caseFold : Bool}
    {bytes : Bytes} (h : writeIndexWith gramSize stride entries caseFold = .ok bytes) :
    bytes.length ≤ 18 + entries.length * 28 + (entries.flatMap Prod.snd).length := by
  have hflat : ((sortByKey Prod.fst entries).flatMap Prod.snd).length = (entries.flatMap Prod.snd).length :=
    ((sortByKey_perm Prod.fst entries).flatMap_right _).length_eq
  have hhead : ∀ ngrams s, (rrsHeader gramSize ngrams s caseFold).length ≤ 18 := by
    intro ngrams s
    rw [Corpus.length_rrsHeader]
    unfold headerSize headerSizeV4
    split <;> omega
  unfold writeIndexWith at h
  simp only [length_sortByKey] at h
  split at h
  · cases h
  · have hsparse := sparse_le entries.length stride
    generalize (if stride = 0 then defaultStride else stride) = s at h hsparse
    generalize (if entries.length % 2 ^ 32 = 0 then 0 else (entries.length % 2 ^ 32 + s - 1) / s) = sparse at h hsparse
    cases hdict : writeDict ((if caseFold then headerSize else headerSizeV4) + sparse * 8 + entries.length * 20)
        (sortByKey Prod.fst entries) with
    | error e =>
      simp only [hdict, bind, Except.bind] at h
      cases h
    | ok dict =>
      simp only [hdict, bind, Except.bind] at h
      obtain rfl := Except.ok.inj h
      have hlen := length_writeDict hdict
      rw [length_sortByKey] at hlen
      have := hhead (entries.length % 2 ^ 32) s
      simp only [List.length_append, length_writeSparseIndex, hlen, hflat]
      omega

end

/-- The docs of all postings. -/
def PostMap.elements (m : PostMap) : Nat := OrdMap.weigh (fun _ S => S.len) m

/-- What keys and elements are priced at: the estimate without its part for the sparse index. -/
def postsPrice (m : PostMap) (upper : Nat) : Nat := 20 + m.len * perNewKeyBytes + upper

section

variable [Roaring]

theorem length_postings_le (hplain : PlainContainers) {es : List (Key × Bitmap)}
    (h : ∀ e ∈ es, ∀ d ∈ e.2, d < bucketSize) :
    ((serializeEntries es).flatMap Prod.snd).length ≤
      es.length * 16 + perElementBytes * OrdMap.weighList (fun _ S => S.len) es := by
  induction es with
  | nil => exact Nat.le_refl _
  | cons e es ih =>
    have h1 := length_serialize_le hplain (h e List.mem_cons_self)
    have h2 := ih fun x hx => h x (List.mem_cons_of_mem _ hx)
    have hcons : (serializeEntries (e :: es)).flatMap Prod.snd =
        serialize e.2 ++ (serializeEntries es).flatMap Prod.snd := rfl
    rw [hcons, List.length_append, List.length_cons, OrdMap.weighList, Nat.mul_add]
    omega

/-- **No index file is larger than its keys and elements are priced at.** -/
theorem length_file_le (hplain : PlainContainers) {m : PostMap} (hdocs : ∀ k, ∀ d ∈ m.docs k, d < bucketSize)
    {gramSize stride : Nat} {caseFold : Bool} {bytes : Bytes}
    (h : writeIndexWith gramSize stride (serializeEntries m.toList) caseFold = .ok bytes) :
    bytes.length ≤ postsPrice m (perElementBytes * m.elements) := by
  have hbuckets : ∀ e ∈ m.toList, ∀ d ∈ e.2, d < bucketSize := by
    intro e he d hd
    apply hdocs e.1
    have hfind : m.find? e.1 = some e.2 := OrdMap.find?_eq_some_iff.mpr he
    rw [PostMap.docs, hfind]
    exact hd
  have hposts := length_postings_le hplain hbuckets
  have hfile := length_writeIndexWith_le h
  have hlen : (serializeEntries m.toList).length = m.len := List.length_map _
  rw [hlen] at hfile
  have hm : m.toList.length = m.len := rfl
  have he : OrdMap.weighList (fun _ (S : Bitmap) => S.len) m.toList = m.elements := rfl
  unfold postsPrice perNewKeyBytes
  rw [hm, he] at hposts
  omega

end

/-! ## The price of the open split -/

section

variable {m : PostMap} {upper : Nat} {doc : Fin u32Bound} {keys : List Key}

theorem elements_insert (m : PostMap) (doc : Fin u32Bound) (k : Key) :
    (m.insert doc k).elements = m.elements + if doc.val ∈ m.docs k then 0 else 1 := by
  have h := OrdMap.weigh_update (fun _ (S : Bitmap) => S.len) m k fun bm => (bm.getD ∅).insert doc.val doc.isLt
  have hlen := AscSet.len_insert (m.docs k) doc.isLt
  unfold PostMap.elements PostMap.insert
  unfold PostMap.docs at hlen ⊢
  cases hf : m.find? k with
  | none =>
    simp only [hf, Option.elim, Option.getD_none, AscSet.len_empty] at h hlen ⊢
    omega
  | some S =>
    simp only [hf, Option.elim, Option.getD_some] at h hlen ⊢
    omega

/-- The upper bound of the elements grows with them. -/
theorem elements_le_foldl (h : perElementBytes * m.elements ≤ upper) :
    perElementBytes * (keys.foldl (SplitSetBuilder.insertKey doc) (m, upper)).1.elements ≤
      (keys.foldl (SplitSetBuilder.insertKey doc) (m, upper)).2 := by
  induction keys generalizing m upper with
  | nil => exact h
  | cons k keys ih =>
    apply ih
    show perElementBytes * (m.insert doc k).elements ≤ if doc.val ∈ m.docs k then upper else upper + perElementBytes
    rw [elements_insert]
    unfold perElementBytes at h ⊢
    split <;> omega

theorem upper_foldl_le : (keys.foldl (SplitSetBuilder.insertKey doc) (m, upper)).2 ≤
    upper + keys.length * perElementBytes := by
  induction keys generalizing m upper with
  | nil => exact Nat.le_add_right _ _
  | cons k keys ih =>
    have h := @ih (m.insert doc k) (if doc.val ∈ m.docs k then upper else upper + perElementBytes)
    rw [List.foldl_cons, List.length_cons, Nat.add_mul]
    refine Nat.le_trans h ?_
    split <;> omega

theorem contains_insert {k j : Key} (h : m.contains j = true) : (m.insert doc k).contains j = true := by
  rw [OrdMap.contains_iff] at h ⊢
  exact OrdMap.keys_update_subset.mpr (Or.inr h)

/-- Every key is new once at most. -/
theorem len_foldl_le : (keys.foldl (SplitSetBuilder.insertKey doc) (m, upper)).1.len ≤
    m.len + (keys.filter fun k => !m.contains k).length := by
  induction keys generalizing m upper with
  | nil => exact Nat.le_add_right _ _
  | cons k keys ih =>
    have h := @ih (m.insert doc k) (if doc.val ∈ m.docs k then upper else upper + perElementBytes)
    have hlen : (m.insert doc k).len = m.len + if m.contains k then 0 else 1 := OrdMap.len_update _ _ _
    have hsub : (keys.filter fun j => !(m.insert doc k).contains j).length ≤
        (keys.filter fun j => !m.contains j).length := by
      apply List.Sublist.length_le
      apply List.monotone_filter_right
      intro j hj
      cases hc : m.contains j with
      | false => rfl
      | true =>
        rw [contains_insert hc] at hj
        exact hj
    rw [List.foldl_cons, List.filter_cons]
    refine Nat.le_trans h ?_
    rw [hlen]
    cases hk : m.contains k with
    | true =>
      simp only [Bool.not_true, Bool.false_eq_true, if_false, if_true]
      omega
    | false =>
      simp only [Bool.not_false, if_true, Bool.false_eq_true, if_false, List.length_cons]
      omega

theorem mem_docs_foldl {k : Key} {d : Nat} (h : d ∈ (keys.foldl (SplitSetBuilder.insertKey doc) (m, upper)).1.docs k) :
    d = doc.val ∨ d ∈ m.docs k := by
  induction keys generalizing m upper with
  | nil => exact Or.inr h
  | cons j keys ih =>
    rcases ih h with h | h
    · exact Or.inl h
    · rcases PostMap.mem_docs_insert.mp h with h | h
      · exact Or.inr h
      · exact Or.inl h.1

end

/-- The elements are priced, and the open split and the sealed ones are within their caps, a split of one document
apart. -/
structure Priced (b : SplitSetBuilder) : Prop where
  elements : perElementBytes * b.openPosts.elements ≤ b.postingsUpper
  below : ∀ k, ∀ d ∈ b.openPosts.docs k, d < b.openCount.val
  open_le : 2 ≤ b.openCount.val →
    postsPrice b.openPosts b.postingsUpper ≤ capFor b.byteCap b.byteCapMax b.specs.length
  sealed_le : ∀ (i : Nat) (spec : SplitSpec), b.specs[i]? = some spec →
    spec.docCount = 1 ∨ spec.byteSize ≤ capFor b.byteCap b.byteCapMax i

namespace Priced

variable {b b' : SplitSetBuilder}

theorem start (config : SplitBuildConfig) (top : Nat) (v2 : Bool) : Priced (SplitSetBuilder.start config top v2) := by
  have hnew : Priced (SplitSetBuilder.new config) := by
    refine ⟨Nat.le_refl _, fun k d hd => absurd hd (AscSet.not_mem_empty d), ?_, ?_⟩
    · intro (htwo : 2 ≤ 0)
      omega
    · intro i spec h
      simp [SplitSetBuilder.new] at h
  cases v2 with
  | false => exact ⟨hnew.elements, hnew.below, hnew.open_le, hnew.sealed_le⟩
  | true => exact ⟨hnew.elements, hnew.below, hnew.open_le, hnew.sealed_le⟩

/-- A document that fits joins the open split. -/
theorem insertDoc (h : Priced b) {keys : List Key} (facets : List (String × String)) (hfull : b.full keys = false)
    (hcount : b.openCount.val ≤ bucketSize) : Priced (b.insertDoc keys facets) := by
  have hnext : (b.insertDoc keys facets).openCount.val = b.openCount.val + 1 := by
    show (b.openCount.val + 1) % u32Bound = _
    apply Nat.mod_eq_of_lt
    unfold bucketSize at hcount
    unfold u32Bound
    omega
  refine ⟨elements_le_foldl h.elements, ?_, ?_, h.sealed_le⟩
  · intro k d hd
    rw [hnext]
    rcases mem_docs_foldl hd with rfl | hd
    · exact Nat.lt_succ_self _
    · exact Nat.lt_succ_of_lt (h.below k d hd)
  · intro htwo
    rw [hnext] at htwo
    -- the document was weighed against the cap, for the split had one already
    have hfits : b.estimate + b.marginal keys ≤ capFor b.byteCap b.byteCapMax b.specs.length := by
      unfold SplitSetBuilder.full at hfull
      rw [Bool.and_eq_false_iff] at hfull
      rcases hfull with hzero | hle
      · have := of_decide_eq_false hzero
        omega
      · have := of_decide_eq_false hle
        omega
    have hlen := @len_foldl_le b.openPosts b.postingsUpper b.openCount keys
    have hupper := @upper_foldl_le b.openPosts b.postingsUpper b.openCount keys
    refine Nat.le_trans ?_ hfits
    show postsPrice (keys.foldl (SplitSetBuilder.insertKey b.openCount) (b.openPosts, b.postingsUpper)).1
      (keys.foldl (SplitSetBuilder.insertKey b.openCount) (b.openPosts, b.postingsUpper)).2 ≤ _
    unfold postsPrice SplitSetBuilder.estimate SplitSetBuilder.marginal
    have := Nat.mul_le_mul_right perNewKeyBytes hlen
    rw [Nat.add_mul] at this
    simp only
    omega

/-- The open split is emptied, with its documents still counted. -/
theorem emptied (h : Priced b) (facets : FacetMap) : Priced { b with openPosts := ∅, openFacets := facets } := by
  refine ⟨Nat.zero_le _, fun k d hd => absurd hd (AscSet.not_mem_empty d), ?_, h.sealed_le⟩
  intro htwo
  have hopen := h.open_le htwo
  have hzero : (∅ : PostMap).len = 0 := rfl
  unfold postsPrice at hopen ⊢
  simp only [hzero]
  omega

section

variable [Roaring]

/-- The builder after a seal that failed. -/
theorem sealFailed (h : Priced b) : Priced b.sealFailed := by
  unfold SplitSetBuilder.sealFailed
  split
  · exact h.emptied b.openFacets
  · exact h.emptied ∅

variable [Unicode]

/-- What a seal that succeeds does: nothing, or a split more with its file. -/
theorem seal_ok (h : b.seal = .ok b') : (b.openCount.val = 0 ∧ b' = b) ∨
    ∃ bytes spec sidecar, b.openCount.val ≠ 0 ∧ writeIndexWith b.gramSize b.stride
        (serializeEntries b.openPosts.toList) b.caseNormalization = .ok bytes ∧ spec.docCount = b.openCount.val ∧ spec.byteSize = bytes.length ∧
      b' = { b with
        openPosts := ∅
        openFacets := ∅
        specs := b.specs ++ [spec]
        blobs := b.blobs ++ [(spec.dataFile, bytes)]
        facetBlobs := b.facetBlobs ++ sidecar
        openCount := wrapAdd 0 0
        globalBase := b.nextGlobalId
        postingsUpper := 0 } := by
  rcases SplitSetBuilder.seal_inv h with h | ⟨hne, bytes, facets, sidecar, hbytes, -, rfl⟩
  · exact Or.inl h
  · exact Or.inr ⟨bytes, _, sidecar, hne, hbytes, rfl, rfl, rfl⟩

/-- A seal within the cap: the split has one document, or it was priced. -/
theorem «seal» (hplain : PlainContainers) (h : Priced b) (hcount : b.openCount.val ≤ bucketSize)
    (hseal : b.seal = .ok b') : Priced b' := by
  rcases seal_ok hseal with ⟨-, rfl⟩ | ⟨bytes, spec, sidecar, hne, hbytes, hdocs, hsize, rfl⟩
  · exact h
  · refine ⟨Nat.le_refl _, fun k d hd => absurd hd (AscSet.not_mem_empty d), ?_, ?_⟩
    · intro (htwo : 2 ≤ 0)
      omega
    · intro i spec' hi
      rw [List.getElem?_append] at hi
      split at hi
      · exact h.sealed_le i spec' hi
      · next hge =>
        rw [List.getElem?_singleton] at hi
        split at hi
        · next hzero =>
          obtain rfl := Option.some.inj hi
          have hlast : i = b.specs.length := by omega
          by_cases hone : spec.docCount = 1
          · exact Or.inl hone
          · right
            have hopen := h.open_le (by omega)
            have hfile := length_file_le hplain (fun k d hd => Nat.lt_of_lt_of_le (h.below k d hd) hcount) hbytes
            have helements := h.elements
            unfold postsPrice at hopen hfile
            rw [hsize, hlast]
            show bytes.length ≤ capFor b.byteCap b.byteCapMax b.specs.length
            omega
        · cases hi

/-- A document added. -/
theorem addInner (hplain : PlainContainers) (h : Priced b) (hcount : b.openCount.val ≤ bucketSize) {keys : List Key}
    {facets : List (String × String)} {id : Fin u32Bound} (hadd : b.addInner keys facets = .ok (id, b')) :
    Priced b' := by
  unfold SplitSetBuilder.addInner SplitSetBuilder.sealIfFull at hadd
  cases hfull : b.full keys with
  | false =>
    simp only [hfull, Bool.false_eq_true, if_false, bind, Except.bind] at hadd
    obtain ⟨-, rfl⟩ := Prod.mk.inj (Except.ok.inj hadd)
    exact h.insertDoc facets hfull hcount
  | true =>
    cases hseal : b.seal with
    | error e =>
      simp only [hfull, if_true, hseal, bind, Except.bind] at hadd
      cases hadd
    | ok c =>
      simp only [hfull, if_true, hseal, bind, Except.bind] at hadd
      obtain ⟨-, rfl⟩ := Prod.mk.inj (Except.ok.inj hadd)
      have hc := h.seal hplain hcount hseal
      rcases seal_ok hseal with ⟨hz, -⟩ | ⟨bytes, spec, sidecar, -, -, -, -, rfl⟩
      · unfold SplitSetBuilder.full at hfull
        rw [hz] at hfull
        simp at hfull
      · exact hc.insertDoc facets rfl (Nat.zero_le _)

end

end Priced

/-! ## Whole builds -/

/-- A file by its name and length. -/
def fileSize (f : String × Bytes) : String × Nat := (f.1, f.2.length)

/-- A build under the caps of `config`: its sealed splits are the files that it drained and those that it holds. -/
structure CappedRun (config : SplitBuildConfig) (r : BuildRun) : Prop where
  priced : Priced r.builder
  byteCap : r.builder.byteCap = config.byteCap
  byteCapMax : r.builder.byteCapMax = config.byteCapMax
  files : (r.files ++ r.builder.blobs).map fileSize = r.builder.specs.map fun s => (s.dataFile, s.byteSize)

namespace CappedRun

variable [Roaring] [Unicode] {config : SplitBuildConfig} {r : BuildRun} {b : SplitSetBuilder}

omit [Roaring] [Unicode] in
theorem start (config : SplitBuildConfig) (top : Nat) (v2 : Bool) :
    CappedRun config ⟨SplitSetBuilder.start config top v2, [], []⟩ := by
  cases v2 with
  | false => exact ⟨Priced.start config top false, rfl, rfl, rfl⟩
  | true => exact ⟨Priced.start config top true, rfl, rfl, rfl⟩

/-- The files and the manifest entries stay in step. -/
theorem «seal» (hplain : PlainContainers) (h : CappedRun config r) (hcount : r.builder.openCount.val ≤ bucketSize)
    (hseal : r.builder.seal = .ok b) : CappedRun config { r with builder := b } := by
  have hpriced := h.priced.seal hplain hcount hseal
  rcases Priced.seal_ok hseal with ⟨-, rfl⟩ | ⟨bytes, spec, sidecar, -, -, -, hsize, rfl⟩
  · exact h
  · refine ⟨hpriced, h.byteCap, h.byteCapMax, ?_⟩
    have hlast : fileSize (spec.dataFile, bytes) = (spec.dataFile, spec.byteSize) := by
      rw [hsize]
      rfl
    simp only [← List.append_assoc, List.map_append, List.map_singleton, hlast]
    rw [← List.map_append, h.files]

theorem add (hplain : PlainContainers) (h : CappedRun config r) (hcount : r.builder.openCount.val ≤ bucketSize)
    (keys : List Key) (facets : List (String × String)) : CappedRun config (r.add keys facets).2 := by
  unfold BuildRun.add
  cases hadd : r.builder.addInner keys facets with
  | error e =>
    have hfailed := h.priced.sealFailed
    simp only
    unfold SplitSetBuilder.sealFailed at hfailed ⊢
    split at hfailed
    · exact ⟨hfailed, h.byteCap, h.byteCapMax, h.files⟩
    · exact ⟨hfailed, h.byteCap, h.byteCapMax, h.files⟩
  | ok st =>
    obtain ⟨id, b'⟩ := st
    have hpriced := h.priced.addInner hplain hcount hadd
    unfold SplitSetBuilder.addInner at hadd
    cases hseal : r.builder.sealIfFull keys with
    | error e =>
      simp only [hseal, bind, Except.bind] at hadd
      cases hadd
    | ok c =>
      simp only [hseal, bind, Except.bind] at hadd
      obtain ⟨-, rfl⟩ := Prod.mk.inj (Except.ok.inj hadd)
      have hc : CappedRun config { r with builder := c } := by
        unfold SplitSetBuilder.sealIfFull at hseal
        split at hseal
        · exact h.seal hplain hcount hseal
        · obtain rfl := Except.ok.inj hseal
          exact h
      exact ⟨hpriced, hc.byteCap, hc.byteCapMax, hc.files⟩

/-- **The price of the open split stays within the cap**, whatever a call returns. -/
theorem call (hplain : PlainContainers) (h : CappedRun config r) (hcount : r.builder.openCount.val ≤ bucketSize)
    (c : BuildCall) : CappedRun config (r.call c).2 := by
  cases c with
  | addFaceted text facets => exact h.add hplain hcount _ facets
  | addKeys keys => exact h.add hplain hcount keys []
  | drainSealed =>
    refine ⟨⟨h.priced.elements, h.priced.below, h.priced.open_le, h.priced.sealed_le⟩, h.byteCap, h.byteCapMax, ?_⟩
    show ((r.files ++ r.builder.blobs) ++ []).map fileSize = _
    rw [List.append_nil]
    exact h.files

theorem calls (hplain : PlainContainers) (h : CappedRun config r) {cs : List BuildCall}
    (hsmall : ∀ done, done <+: cs → (r.calls done).2.builder.openCount.val ≤ bucketSize) :
    CappedRun config (r.calls cs).2 := by
  induction cs generalizing r with
  | nil => exact h
  | cons c cs ih =>
    apply ih (h.call hplain (hsmall [] List.nil_prefix) c)
    intro done hdone
    exact hsmall (c :: done) (List.cons_prefix_cons.mpr ⟨rfl, hdone⟩)

end CappedRun

section

variable [Roaring] [Unicode]

/-- What `finish` returns is of a builder that has sealed its last split and has none too large. -/
theorem finish_seals {b : SplitSetBuilder} {built : BuiltSplitSet} (h : b.finish = .ok built) : ∃ b', b.seal = .ok b' ∧
    b'.oversized = none ∧ writeSplitset b'.specs b'.manifestConfig = .ok built.manifest ∧ built.splits = b'.blobs := by
  unfold SplitSetBuilder.finish at h
  cases hseal : b.seal with
  | error e =>
    simp only [hseal, bind, Except.bind] at h
    cases h
  | ok b' =>
    cases hm : b'.manifest with
    | error e =>
      simp only [hseal, hm, bind, Except.bind] at h
      cases h
    | ok manifest =>
      simp only [hseal, hm, bind, Except.bind] at h
      obtain rfl := Except.ok.inj h
      refine ⟨b', rfl, ?_⟩
      unfold SplitSetBuilder.manifest at hm
      split at hm
      · cases hm
      · next hnone => exact ⟨hnone, hm, rfl⟩

/-- **No split that a build emits is larger than the cap of its index**, as long as no split takes more documents
than one container of a posting holds. -/
theorem SplitSetBuilder.finish_capped (hplain : PlainContainers) (config : SplitBuildConfig) (top : Nat) (v2 : Bool)
    (calls : List BuildCall) (built : BuiltSplitSet)
    (hsmall : ∀ done, done <+: calls →
      (BuildRun.calls ⟨SplitSetBuilder.start config top v2, [], []⟩ done).2.builder.openCount.val ≤ 65536)
    (hfin : (BuildRun.calls ⟨SplitSetBuilder.start config top v2, [], []⟩ calls).2.builder.finish = .ok built) :
    ∃ specs manifestConfig, writeSplitset specs manifestConfig = .ok built.manifest ∧
      specs.map (fun s => (s.dataFile, s.byteSize)) =
        ((BuildRun.calls ⟨SplitSetBuilder.start config top v2, [], []⟩ calls).2.files ++ built.splits).map fileSize ∧
      ∀ (i : Nat) (spec : SplitSpec), specs[i]? = some spec →
        spec.byteSize ≤ capFor config.byteCap config.byteCapMax i := by
  obtain ⟨b, hseal, hover, hmanifest, hblobs⟩ := finish_seals hfin
  have hrun := (CappedRun.start config top v2).calls hplain hsmall
  have hend := hrun.seal hplain (hsmall calls (List.prefix_refl _)) hseal
  refine ⟨b.specs, b.manifestConfig, hmanifest, ?_, ?_⟩
  · rw [hblobs]
    exact hend.files.symm
  · intro i spec hi
    have hsealed := hend.priced.sealed_le i spec hi
    have hcap : capFor b.byteCap b.byteCapMax i = capFor config.byteCap config.byteCapMax i := by
      rw [show b.byteCap = config.byteCap from hend.byteCap, show b.byteCapMax = config.byteCapMax from hend.byteCapMax]
    rcases hsealed with hone | hle
    · -- a split of one document is looked at in the end
      unfold SplitSetBuilder.oversized at hover
      rw [List.find?_eq_none] at hover
      have hmem : (spec, i) ∈ b.specs.zipIdx := List.mem_zipIdx_iff_getElem?.mpr hi
      have := hover _ hmem
      rw [Bool.and_eq_true, not_and] at this
      have hnot := this (decide_eq_true hone)
      rw [decide_eq_true_eq, hcap] at hnot
      exact Nat.not_lt.mp hnot
    · rw [← hcap]
      exact hle

end

section

attribute [local instance] PortableCodec.roaring asciiUnicode

/-- The portable layout has no run containers. -/
theorem plainContainers_portable : PlainContainers where
  cookie _ := getLe_cookie
  body lows _ := by
    show (PortableCodec.encodeBody lows).length = _
    unfold PortableCodec.encodeBody PortableCodec.arrayLimit
    split
    · rw [length_table (length_le 2)]
      omega
    · rw [List.length_map, List.length_range]

theorem growing_fits : ConfigFits 200 600 3 0 0 none := by
  refine ⟨?_, ?_, ?_, ?_, ?_, ?_⟩ <;> simp

/-- Splits of at most 200 bytes, then of 400, then of 600. -/
def growingConfig : SplitBuildConfig where
  policy := .tiered
  byteCap := 200
  byteCapMax := 600
  gramSize := 3
  headBoundary := 0
  stride := 0
  namePrefix := "p"
  sortcol := none
  bloomBitsPerKey := 0
  caseSensitive := false
  fits := growing_fits

def growing : SplitSetBuilder := SplitSetBuilder.start growingConfig 0 false

/-- Eight documents, which make splits of two, four and two. -/
def growingCalls : List BuildCall :=
  [.addFaceted "abc" [], .addFaceted "abcd" [("f", "x")], .addFaceted "abcde" [], .addFaceted "bcd" [], .drainSealed,
    .addFaceted "cdef" [], .addFaceted "abc" [], .addFaceted "abcdefgh" [], .addFaceted "abcdefgh" []]

theorem growingCalls_small : ∀ done, done <+: growingCalls →
    (BuildRun.calls ⟨growing, [], []⟩ done).2.builder.openCount.val ≤ 65536 := by
  have htake : ∀ n < 10, (BuildRun.calls ⟨growing, [], []⟩ (growingCalls.take n)).2.builder.openCount.val ≤ 65536 := by
    decide +kernel
  intro done hdone
  have hlen : done.length ≤ 9 := hdone.length_le
  rw [List.prefix_iff_eq_take.mp hdone]
  exact htake done.length (by omega)

theorem finish_capped_growing : ∃ built, (BuildRun.calls ⟨growing, [], []⟩ growingCalls).2.builder.finish = .ok built ∧
    (BuildRun.calls ⟨growing, [], []⟩ growingCalls).2.builder.specs.map SplitSpec.docCount = [2, 4] ∧
    ∃ specs manifestConfig, writeSplitset specs manifestConfig = .ok built.manifest ∧
      specs.map SplitSpec.byteSize = [102, 182, 264] ∧
      ∀ (i : Nat) (spec : SplitSpec), specs[i]? = some spec → spec.byteSize ≤ capFor 200 600 i := by
  have hfin : ((BuildRun.calls ⟨growing, [], []⟩ growingCalls).2.builder.finish.map fun b =>
      (((BuildRun.calls ⟨growing, [], []⟩ growingCalls).2.files ++ b.splits).map fileSize).map Prod.snd) =
      .ok [102, 182, 264] := by decide +kernel
  cases h : (BuildRun.calls ⟨growing, [], []⟩ growingCalls).2.builder.finish with
  | error e =>
    rw [h] at hfin
    cases hfin
  | ok built =>
    rw [h] at hfin
    obtain ⟨specs, manifestConfig, hwrite, hsizes, hcapped⟩ := SplitSetBuilder.finish_capped plainContainers_portable
      growingConfig 0 false growingCalls built growingCalls_small h
    refine ⟨built, rfl, by decide +kernel, specs, manifestConfig, hwrite, ?_, hcapped⟩
    have hsecond := congrArg (List.map Prod.snd) hsizes
    rw [List.map_map] at hsecond
    exact hsecond.trans (Except.ok.inj hfin)

end

end RoaringRange
