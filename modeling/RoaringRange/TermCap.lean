import Mathlib.Algebra.Order.BigOperators.Group.List
import RoaringRange.TermSize
import RoaringRange.TermSplitBuild

/-!
# Where the byte cap holds (`TermSplitSetBuilder`)

The estimate of an open split allows 88 bytes beyond the header and charges each term `perNewTermBytes`, its length and
`perTermElementBytes` for each of its docs.  It does not count the router, the varints of the dictionary entries and
the headers of the containers; it does not take off the prefixes that terms share and what bitsets save.

    a file is within the estimate exactly where the charges cover it             (length_le_charge_iff)
    the charges of the open split are within the cap at every call           (CoveredRun.priced)
    where the charges cover every split of two or more documents, no such split is larger than its cap
                                                                             (sealed_capped)
-/

namespace RoaringRange

open ByteString Slices Tiles

/-! ## What a file takes, and what it is charged -/

/-- What the terms are charged. -/
def termCharge (posts : TermMap) : Nat :=
  OrdMap.weigh (fun t S => perNewTermBytes + t.bytes.length + perTermElementBytes * S.len) posts

/-- The varints of all dictionary entries. -/
def framingBytes (posts : TermMap) (config : TermIndexConfig) : Nat :=
  ((indexBlocks posts config).map (sumOver framing [] 0)).sum

/-- What the terms share with the ones before them in their blocks. -/
def sharedPrefixes (posts : TermMap) (config : TermIndexConfig) : Nat :=
  ((indexBlocks posts config).map (sumOver sharedBytes [] 0)).sum

/-- The containers of all postings. -/
def containers (posts : TermMap) (config : TermIndexConfig) : Nat :=
  OrdMap.weigh (fun _ S => containerCount config.headBoundary S) posts

/-- What the bitsets of all postings save. -/
def bitsetSavings (posts : TermMap) (config : TermIndexConfig) : Nat :=
  OrdMap.weigh (fun _ S => postingSaving config.headBoundary S) posts

/-- The charges cover what they do not count: the router, four varints a term and eight bytes a container are within
what the estimate adds beyond a header, four bytes a term, the prefixes that terms share and what bitsets save. -/
def ChargesCover [Fst] (posts : TermMap) (config : TermIndexConfig) : Prop :=
  ∀ router, Fst.build (routerOver 0 (indexBlocks posts config)) = .ok router →
    router.length + framingBytes posts config + 8 * containers posts config ≤
      termIndexHeaderEst - rrtiHeaderSize + 4 * posts.len + sharedPrefixes posts config + bitsetSavings posts config

theorem sum_blockSize (groups : List (List DictEntry)) :
    (groups.map blockSize).sum + (groups.map (sumOver sharedBytes [] 0)).sum =
      (groups.map (sumOver framing [] 0)).sum + (groups.flatten.map fun e => e.term.length).sum := by
  induction groups with
  | nil => rfl
  | cons g groups ih =>
    have hone : blockSize g + _ = _ := sumOver_dictEntrySize [] 0 g
    simp only [List.map_cons, List.sum_cons, List.flatten_cons, List.map_append, List.sum_append]
    omega

theorem sum_sizedEntries (bound off : Nat) (posts : List (Term × Bitmap)) :
    ((sizedEntries bound off posts).map fun e => e.term.length).sum =
      OrdMap.weighList (fun t (_ : Bitmap) => t.bytes.length) posts := by
  induction posts generalizing off with
  | nil => rfl
  | cons p posts ih => rw [sizedEntries, List.map_cons, List.sum_cons, ih, OrdMap.weighList]

/-- The dictionary of the postings. -/
theorem sum_indexBlocks (posts : TermMap) (config : TermIndexConfig) :
    ((indexBlocks posts config).map blockSize).sum + sharedPrefixes posts config =
      framingBytes posts config + OrdMap.weigh (fun t _ => t.bytes.length) posts := by
  have h := sum_blockSize (indexBlocks posts config)
  have hflat : (indexBlocks posts config).flatten = sizedEntries config.headBoundary 0 posts.toList :=
    flatten_cutBlocks _ [] _
  rw [hflat, sum_sizedEntries] at h
  exact h

/-- The posting blocks of the postings. -/
theorem recordBytes_add (posts : TermMap) (config : TermIndexConfig) :
    recordBytes posts config + bitsetSavings posts config =
      20 * posts.len + 8 * containers posts config + perElementBytes * OrdMap.weigh (fun _ S => S.len) posts := by
  unfold recordBytes bitsetSavings containers OrdMap.weigh
  rw [← OrdMap.weighList_add]
  simp only [recordSize_add]
  rw [OrdMap.weighList_add, OrdMap.weighList_add, OrdMap.weighList_mul, OrdMap.weighList_mul]
  congr 2
  exact OrdMap.weighList_const 20 posts.toList

theorem termCharge_eq (posts : TermMap) : termCharge posts = perNewTermBytes * posts.len +
    OrdMap.weigh (fun t _ => t.bytes.length) posts + perTermElementBytes * OrdMap.weigh (fun _ S => S.len) posts := by
  unfold termCharge OrdMap.weigh
  rw [OrdMap.weighList_add, OrdMap.weighList_add, OrdMap.weighList_mul]
  congr 2
  exact OrdMap.weighList_const perNewTermBytes posts.toList

/-- **A file is within its header's allowance and the charges exactly where these cover it.** -/
theorem length_le_charge_iff [Roaring] [Fst] (hplain : PlainContainers) {posts : TermMap} {config : TermIndexConfig}
    {file : Bytes} (h : writeTermIndexFromPostings posts config = .ok file) :
    file.length ≤ termIndexHeaderEst + termCharge posts ↔ ChargesCover posts config := by
  obtain ⟨router, hrouter, hlen⟩ := length_writeTermIndex hplain h
  have hblocks := sum_indexBlocks posts config
  have hrecords := recordBytes_add posts config
  have hcharge := termCharge_eq posts
  have heq : perTermElementBytes = perElementBytes := rfl
  have hnew : perNewTermBytes = 24 := rfl
  have hest : termIndexHeaderEst = 128 := rfl
  have hheader : rrtiHeaderSize = 40 := rfl
  rw [heq, hnew] at hcharge
  generalize perElementBytes * OrdMap.weigh (fun _ (S : Bitmap) => S.len) posts = elements at hrecords hcharge
  constructor
  · intro hle r hr
    rw [hrouter] at hr
    obtain rfl := Except.ok.inj hr
    omega
  · intro hcover
    have := hcover router hrouter
    omega

/-! ## The price of the open split -/

section

variable {m : TermMap} {upper : Nat} {doc : Fin u32Bound} {terms : List Term}

/-- What a term of a document adds to the estimate. -/
def termMarginal (m : TermMap) (t : Term) : Nat :=
  (if m.contains t then 0 else perNewTermBytes + t.bytes.length) + perTermElementBytes

theorem marginal_eq (m : TermMap) (terms : List Term) (n : Nat) :
    terms.foldl (fun n t => n + (if m.contains t then 0 else perNewTermBytes + t.bytes.length) +
      perTermElementBytes) n = n + (terms.map (termMarginal m)).sum := by
  induction terms generalizing n with
  | nil => rfl
  | cons t terms ih =>
    rw [List.foldl_cons, ih, List.map_cons, List.sum_cons, termMarginal]
    omega

/-- A term inserted costs at most what it was weighed at. -/
theorem insertTerm_upper_le (m : TermMap) (upper : Nat) (doc : Fin u32Bound) (t : Term) :
    (TermSplitSetBuilder.insertTerm doc (m, upper) t).2 ≤ upper + termMarginal m t := by
  unfold TermSplitSetBuilder.insertTerm termMarginal OrdMap.contains
  cases hf : m.find? t with
  | none =>
    simp only [Option.isSome_none, Bool.false_eq_true, if_false]
    omega
  | some S =>
    simp only [Option.isSome_some, if_true]
    split <;> omega

theorem termMarginal_insert (m : TermMap) (upper : Nat) (doc : Fin u32Bound) (t u : Term) :
    termMarginal (TermSplitSetBuilder.insertTerm doc (m, upper) t).1 u ≤ termMarginal m u := by
  have hmono : m.contains u = true → (TermSplitSetBuilder.insertTerm doc (m, upper) t).1.contains u = true := by
    intro h
    rw [OrdMap.contains_iff] at h ⊢
    exact OrdMap.keys_update_subset.mpr (Or.inr h)
  unfold termMarginal
  cases hc : m.contains u with
  | true => rw [hmono hc]
  | false =>
    simp only [Bool.false_eq_true, if_false]
    split <;> omega

theorem insertTerms_upper_le : (terms.foldl (TermSplitSetBuilder.insertTerm doc) (m, upper)).2 ≤
    upper + (terms.map (termMarginal m)).sum := by
  induction terms generalizing m upper with
  | nil => exact Nat.le_refl _
  | cons t terms ih =>
    have hstep := insertTerm_upper_le m upper doc t
    have hrest := @ih (TermSplitSetBuilder.insertTerm doc (m, upper) t).1
      (TermSplitSetBuilder.insertTerm doc (m, upper) t).2
    have hsum : (terms.map (termMarginal (TermSplitSetBuilder.insertTerm doc (m, upper) t).1)).sum ≤
        (terms.map (termMarginal m)).sum :=
      List.sum_le_sum fun u _ => termMarginal_insert m upper doc t u
    rw [List.foldl_cons, List.map_cons, List.sum_cons]
    refine Nat.le_trans hrest ?_
    omega

/-- The charges of a term more are added to `bytes_upper`. -/
theorem charge_insertTerm (h : termCharge m ≤ upper) (t : Term) :
    termCharge (TermSplitSetBuilder.insertTerm doc (m, upper) t).1 ≤
      (TermSplitSetBuilder.insertTerm doc (m, upper) t).2 := by
  have hw := OrdMap.weigh_update
    (fun (t : Term) (S : Bitmap) => perNewTermBytes + t.bytes.length + perTermElementBytes * S.len) m t
    fun bm => (bm.getD ∅).insert doc.val doc.isLt
  have hlen := fun S : Bitmap => AscSet.len_insert S doc.isLt
  unfold termCharge at h ⊢
  unfold TermSplitSetBuilder.insertTerm
  cases hf : m.find? t with
  | none =>
    simp only [hf, Option.elim, Option.getD_none, hlen, AscSet.len_empty, AscSet.not_mem_empty, if_false] at hw ⊢
    omega
  | some S =>
    simp only [hf, Option.elim, Option.getD_some, hlen] at hw ⊢
    by_cases hd : doc.val ∈ S
    · rw [if_pos hd, Nat.add_zero] at hw
      rw [if_pos hd]
      omega
    · rw [if_neg hd] at hw ⊢
      rw [Nat.mul_add] at hw
      omega

theorem charge_insertTerms (h : termCharge m ≤ upper) :
    termCharge (terms.foldl (TermSplitSetBuilder.insertTerm doc) (m, upper)).1 ≤
      (terms.foldl (TermSplitSetBuilder.insertTerm doc) (m, upper)).2 := by
  induction terms generalizing m upper with
  | nil => exact h
  | cons t terms ih =>
    rw [List.foldl_cons]
    exact ih (charge_insertTerm h t)

end

namespace TermSplitSetBuilder

/-- No sealed split of two or more documents is larger than the cap of its index. -/
def Capped (b : TermSplitSetBuilder) : Prop :=
  ∀ (i : Nat) (spec : SplitSpec), b.specs[i]? = some spec → 1 < spec.docCount →
    spec.byteSize ≤ capFor b.byteCap b.byteCapMax i

/-- The charges are counted, and those of an open split with two or more documents are within the cap. -/
structure Priced (b : TermSplitSetBuilder) : Prop where
  charged : termCharge b.openPosts ≤ b.bytesUpper
  open_le : 2 ≤ b.openCount.val → termIndexHeaderEst + b.bytesUpper ≤ capFor b.byteCap b.byteCapMax b.specs.length
  capped : b.Capped

variable {b b' : TermSplitSetBuilder}

/-- A document that fits joins the open split. -/
theorem Priced.insertDoc (h : Priced b) {terms : List Term} (facets : List (String × String))
    (hfull : b.full terms = false) : Priced (b.insertDoc terms facets) := by
  refine ⟨charge_insertTerms h.charged, ?_, h.capped⟩
  intro (htwo : 2 ≤ (b.openCount.val + 1) % u32Bound)
  -- two documents or more: the last was weighed against the cap, for the split had one before
  have hone : 0 < b.openCount.val := by
    rcases Nat.eq_zero_or_pos b.openCount.val with hz | hpos
    · rw [hz] at htwo
      have : (0 + 1) % u32Bound = 1 := by decide
      omega
    · exact hpos
  have hfits : b.estimate + b.marginal terms ≤ capFor b.byteCap b.byteCapMax b.specs.length := by
    unfold TermSplitSetBuilder.full at hfull
    rw [Bool.and_eq_false_iff] at hfull
    rcases hfull with hzero | hle
    · exact absurd hone (of_decide_eq_false hzero)
    · exact Nat.not_lt.mp (of_decide_eq_false hle)
  refine Nat.le_trans ?_ hfits
  have hupper := @insertTerms_upper_le b.openPosts b.bytesUpper b.openCount terms
  have hmarginal : b.marginal terms = 0 + (terms.map (termMarginal b.openPosts)).sum := marginal_eq _ _ _
  show termIndexHeaderEst + (terms.foldl (insertTerm b.openCount) (b.openPosts, b.bytesUpper)).2 ≤ _
  unfold estimate
  omega

/-- The open split is emptied, with its documents still counted. -/
theorem Priced.emptied (h : Priced b) (facets : FacetMap) :
    Priced { b with openPosts := ∅, openFacets := facets } := ⟨Nat.zero_le _, h.open_le, h.capped⟩

section

variable [Roaring] [Fst]

theorem Priced.sealFailed (h : Priced b) : Priced b.sealFailed := by
  unfold TermSplitSetBuilder.sealFailed
  split
  · exact h.emptied b.openFacets
  · exact h.emptied ∅

variable [Unicode]

/-- What a seal that succeeds does: nothing, or a split more with its file. -/
theorem seal_ok (h : b.seal = .ok b') : (b.openCount.val = 0 ∧ b' = b) ∨
    ∃ bytes spec sidecar, b.openCount.val ≠ 0 ∧ writeTermIndexFromPostings b.openPosts b.index = .ok bytes ∧
      spec.docCount = b.openCount.val ∧ spec.byteSize = bytes.length ∧
      b' = { b with
        openPosts := ∅
        openFacets := ∅
        specs := b.specs ++ [spec]
        blobs := b.blobs ++ [(spec.dataFile, bytes)]
        facetBlobs := b.facetBlobs ++ sidecar
        openCount := wrapAdd 0 0
        globalBase := b.nextGlobalId
        bytesUpper := 0 } := by
  rcases seal_inv h with h | ⟨hne, bytes, summary, sidecar, hbytes, -, rfl⟩
  · exact Or.inl h
  · exact Or.inr ⟨bytes, _, sidecar, hne, hbytes, rfl, rfl, rfl⟩

/-- Before a seal: an open split of two or more documents is one that the charges cover. -/
def SealCovered (b : TermSplitSetBuilder) : Prop := 2 ≤ b.openCount.val → ChargesCover b.openPosts b.index

theorem Priced.seal (hplain : PlainContainers) (h : Priced b) (hcover : b.SealCovered) (hseal : b.seal = .ok b') : Priced b' := by
  rcases seal_ok hseal with ⟨-, rfl⟩ | ⟨bytes, spec, sidecar, hne, hbytes, hdocs, hsize, rfl⟩
  · exact h
  · refine ⟨Nat.le_refl _, ?_, ?_⟩
    · intro (htwo : 2 ≤ 0)
      omega
    · intro i spec' hi hmany
      rcases getElem?_snoc.mp hi with hi | ⟨rfl, rfl⟩
      · exact h.capped i spec' hi hmany
      · have htwo : 2 ≤ b.openCount.val := by omega
        have hfile := (length_le_charge_iff hplain hbytes).mpr (hcover htwo)
        have hopen := h.open_le htwo
        have hcharged := h.charged
        rw [hsize]
        show bytes.length ≤ capFor b.byteCap b.byteCapMax b.specs.length
        omega

/-! ## Runs -/

variable [TokenFilters]

/-- The builders of runs in which every split that a document seals is covered. -/
inductive CoveredRun : TermSplitSetBuilder → Prop where
  | new (config : TermSplitBuildConfig) : CoveredRun (new config)
  | withGlobalBase {b : TermSplitSetBuilder} (base : Fin u32Bound) : CoveredRun b → b.nextGlobalId = b.globalOrigin →
      CoveredRun (b.withGlobalBase base)
  | withFacetDigest {b : TermSplitSetBuilder} (topPerField : Nat) (v2 : Bool) : CoveredRun b →
      CoveredRun (b.withFacetDigest topPerField v2)
  | addFaceted {b : TermSplitSetBuilder} (text : String) (facets : List (String × String)) : CoveredRun b →
      (b.full (sortedTerms (b.index.tokenizer.tokenize text)) = true → b.SealCovered) →
      CoveredRun (b.addFaceted text facets).2
  | drainSealed {b : TermSplitSetBuilder} : CoveredRun b → CoveredRun b.drainSealed.2

theorem Priced.addFaceted (hplain : PlainContainers) (h : Priced b) (text : String) (facets : List (String × String))
    (hcover : b.full (sortedTerms (b.index.tokenizer.tokenize text)) = true → b.SealCovered) :
    Priced (b.addFaceted text facets).2 := by
  unfold TermSplitSetBuilder.addFaceted
  simp only
  cases hfull : b.full (sortedTerms (b.index.tokenizer.tokenize text)) with
  | false =>
    rw [if_neg (by decide)]
    exact h.insertDoc facets hfull
  | true =>
    rw [if_pos rfl]
    cases hseal : b.seal with
    | error e => exact h.sealFailed
    | ok c =>
      have hc := h.seal hplain (hcover hfull) hseal
      rcases seal_ok hseal with ⟨hz, -⟩ | ⟨bytes, spec, sidecar, -, -, -, -, rfl⟩
      · unfold TermSplitSetBuilder.full at hfull
        rw [hz] at hfull
        simp at hfull
      · exact hc.insertDoc facets rfl

/-- **The charges of the open split stay within the cap** in every covered run. -/
theorem CoveredRun.priced (hplain : PlainContainers) (h : CoveredRun b) : Priced b := by
  induction h with
  | new config =>
    refine ⟨Nat.le_refl _, ?_, ?_⟩
    · intro (htwo : 2 ≤ 0)
      omega
    · intro i spec hi
      simp [TermSplitSetBuilder.new] at hi
  | withGlobalBase base _ _ ih => exact ⟨ih.charged, ih.open_le, ih.capped⟩
  | withFacetDigest topPerField v2 _ ih => exact ⟨ih.charged, ih.open_le, ih.capped⟩
  | addFaceted text facets _ hcover ih => exact ih.addFaceted hplain text facets hcover
  | drainSealed _ ih => exact ⟨ih.charged, ih.open_le, ih.capped⟩

/-- **Where the charges cover every split of two or more documents, none of them is larger than its cap**, in every
state of the run and after the last seal. -/
theorem sealed_capped (hplain : PlainContainers) (h : CoveredRun b) :
    b.Capped ∧ ∀ b', b.SealCovered → b.seal = .ok b' → b'.Capped := by
  have hpriced := h.priced hplain
  refine ⟨hpriced.capped, ?_⟩
  intro b' hcover hseal
  exact (hpriced.seal hplain hcover hseal).capped

end

end TermSplitSetBuilder

section

attribute [local instance] PortableCodec.roaring asciiUnicode asciiFilters FlatRouter.fst

theorem shortConfig_fits : TermConfigFits 534 0 0 none := by
  refine ⟨?_, ?_, ?_, ?_⟩ <;> simp

/-- Splits of at most 534 bytes. -/
def shortConfig : TermSplitBuildConfig where
  policy := .tiered
  byteCap := 534
  byteCapMax := 0
  headBoundary := 0
  namePrefix := "t"
  sortcol := none
  language := none
  stem := false
  stopwords := false
  caseSensitive := false
  fits := shortConfig_fits

/-- The builder with two documents of the same text. -/
def twiceBuilder (text : String) : TermSplitSetBuilder :=
  (((TermSplitSetBuilder.new shortConfig).addFaceted text []).2.addFaceted text []).2

theorem twiceBuilder_covered : (twiceBuilder "abc").SealCovered := by
  intro _ router hrouter
  have hcover : (Fst.build (routerOver 0 (indexBlocks (twiceBuilder "abc").openPosts (twiceBuilder "abc").index))).map
      (fun r => decide (r.length + framingBytes (twiceBuilder "abc").openPosts (twiceBuilder "abc").index +
        8 * containers (twiceBuilder "abc").openPosts (twiceBuilder "abc").index ≤
          termIndexHeaderEst - rrtiHeaderSize + 4 * (twiceBuilder "abc").openPosts.len +
            sharedPrefixes (twiceBuilder "abc").openPosts (twiceBuilder "abc").index +
            bitsetSavings (twiceBuilder "abc").openPosts (twiceBuilder "abc").index)) = .ok true := by decide +kernel
  rw [hrouter] at hcover
  exact of_decide_eq_true (Except.ok.inj hcover)

theorem sealed_capped_twice : ∃ b', (twiceBuilder "abc").seal = .ok b' ∧ b'.specs.length = 1 ∧ b'.Capped := by
  have hrun : (twiceBuilder "abc").CoveredRun := by
    refine .addFaceted "abc" [] (.addFaceted "abc" [] (.new shortConfig) fun h => ?_) fun h => ?_
    · exact absurd h (by decide +kernel)
    · exact absurd h (by decide +kernel)
  have hlen : ((twiceBuilder "abc").seal.map fun b => b.specs.length) = .ok 1 := by decide +kernel
  cases hseal : (twiceBuilder "abc").seal with
  | error e =>
    rw [hseal] at hlen
    cases hlen
  | ok b' =>
    rw [hseal] at hlen
    exact ⟨b', rfl, Except.ok.inj hlen, (TermSplitSetBuilder.sealed_capped plainContainers_portable hrun).2 b'
      twiceBuilder_covered hseal⟩

/-- Fourteen terms of one letter, each with two docs, are estimated at the cap; their file takes 27 bytes more. -/
theorem sealed_past_cap : ¬ ∀ b b' : TermSplitSetBuilder, b.Reached → b.seal = .ok b' → b'.Capped := by
  intro hcapped
  have hreached : (twiceBuilder "a b c d e f g h i j k l m n").Reached := .addFaceted _ _ (.addFaceted _ _ (.new _))
  have hsplit : ((twiceBuilder "a b c d e f g h i j k l m n").seal.map fun b =>
      (b.specs.map fun s => (s.docCount, s.byteSize), capFor b.byteCap b.byteCapMax 0)) = .ok ([(2, 561)], 534) := by
    decide +kernel
  cases hseal : (twiceBuilder "a b c d e f g h i j k l m n").seal with
  | error e =>
    rw [hseal] at hsplit
    cases hsplit
  | ok b' =>
    rw [hseal] at hsplit
    obtain ⟨hspecs, hcap⟩ := Prod.mk.inj (Except.ok.inj hsplit)
    obtain ⟨spec, hspec, hsize⟩ := List.map_eq_singleton_iff.mp hspecs
    obtain ⟨hdocs, hbytes⟩ := Prod.mk.inj hsize
    have hle := hcapped _ b' hreached hseal 0 spec (by rw [hspec]; rfl) (by rw [hdocs]; decide)
    rw [hbytes, hcap] at hle
    exact absurd hle (by decide)

end

end RoaringRange
