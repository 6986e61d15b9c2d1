import RoaringRange.DigestFree
import RoaringRange.FilteredBuild

/-!
# Facet counts over a build (`splitset.rs`, `splitset_build.rs`)

The ids of a result are routed to the splits of a build, priced there against the sidecar or the digest that the summary
keeps of it, and added up.  Read off the documents, a named pair is counted at as many ids as have it, and a category among
the top ones of its field at no more.

    the entries of a map of places are summed place by place                               (sum_toList)
    an id is among those of the split that its document is in                              (mem_localIds)
    the counts of a build are those of its documents                                 (facet_counts_build)
-/

namespace RoaringRange

open ByteString Faults Slices Tiles TopK

/-! ## Sums over places -/

theorem OrdMap.sum_toList {α : Type} {m : OrdMap Nat α} {n : Nat} (h : ∀ k ∈ m.keys, k < n) (f : Nat → α → Nat) :
    (m.toList.map fun e => f e.1 e.2).sum = ((List.range n).map fun i => ((m.find? i).map (f i)).getD 0).sum := by
  have hentries : m.toList = (List.range n).filterMap fun i => (m.find? i).map (Prod.mk i) := by
    have : Std.Irrefl fun a b : Nat × α => a.1 < b.1 := ⟨fun a => Nat.lt_irrefl a.1⟩
    refine List.Pairwise.eq_of_mem_iff (r := fun a b : Nat × α => a.1 < b.1) m.asc ?_ fun e => ?_
    · refine List.Pairwise.filterMap _ (fun i j hij a ha b hb => ?_) List.pairwise_lt_range
      obtain ⟨x, -, rfl⟩ := Option.map_eq_some_iff.mp ha
      obtain ⟨y, -, rfl⟩ := Option.map_eq_some_iff.mp hb
      exact hij
    · rw [List.mem_filterMap]
      constructor
      · intro he
        refine ⟨e.1, List.mem_range.mpr (h _ (List.mem_map_of_mem he)), ?_⟩
        rw [OrdMap.find?_eq_some_iff.mpr (show (e.1, e.2) ∈ m.toList from he)]
        rfl
      · rintro ⟨i, -, hi⟩
        obtain ⟨a, ha, rfl⟩ := Option.map_eq_some_iff.mp hi
        exact OrdMap.find?_eq_some_iff.mp ha
  rw [hentries]
  induction List.range n with
  | nil => rfl
  | cons i is ih =>
    cases hi : m.find? i with
    | none =>
      rw [List.filterMap_cons_none (by rw [hi]; rfl), ih, List.map_cons, hi, List.sum_cons]
      exact (Nat.zero_add _).symm
    | some a =>
      rw [List.filterMap_cons_some (by rw [hi]; rfl), List.map_cons, List.sum_cons, ih, List.map_cons, hi, List.sum_cons]
      rfl

/-! ## Ids of a split -/

/-- The ids of a result that fall in the split at a place, as the split numbers them. -/
def localIds (splits : List Split) (ids : List (Fin u32Bound)) (i : Nat) : Bitmap :=
  ((ids.foldl (placeId splits) ∅).find? i).getD ∅

/-- **An id is among those of the first split that contains it.** -/
theorem mem_localIds {splits : List Split} {ids : List (Fin u32Bound)} {i l : Nat} : l ∈ localIds splits ids i ↔
    ∃ gid ∈ ids, ∃ split, (splits.zipIdx.find? fun x => x.1.contains gid.val) = some (split, i) ∧
      split.toLocal gid.val = l := by
  have hentry : l ∈ localIds splits ids i ↔ ∃ bm, (i, bm) ∈ idsBySplit splits ids ∧ l ∈ bm := by
    unfold localIds idsBySplit
    simp only [← OrdMap.find?_eq_some_iff]
    cases (ids.foldl (placeId splits) ∅).find? i with
    | none => simp
    | some bm => simp
  rw [hentry, mem_idsBySplit]

theorem sum_idsBySplit {splits : List Split} {ids : List (Fin u32Bound)} {f : Nat → Bitmap → Nat} (hempty : ∀ i, f i ∅ = 0) :
    ((idsBySplit splits ids).map fun e => f e.1 e.2).sum =
      ((List.range splits.length).map fun i => f i (localIds splits ids i)).sum := by
  have hkeys : ∀ k ∈ (ids.foldl (placeId splits) ∅).keys, k < splits.length := by
    intro k hk
    obtain ⟨e, he, rfl⟩ := List.mem_map.mp hk
    exact lt_of_mem_idsBySplit he
  unfold idsBySplit
  rw [OrdMap.sum_toList hkeys]
  refine congrArg List.sum (List.map_congr_left fun i _ => ?_)
  unfold localIds
  cases (ids.foldl (placeId splits) ∅).find? i with
  | none => exact (hempty i).symm
  | some B => rfl

/-! ## What a split is priced at -/

/-- A posting cut anywhere is counted in two. -/
theorem Bitmap.len_inter_cut (result docs : Bitmap) (n : Nat) :
    (result ∩ docs.below n).len + (result ∩ docs.atLeast n).len = (result ∩ docs).len := by
  have happ : (result ∩ docs.below n).toList ++ (result ∩ docs.atLeast n).toList = (result ∩ docs).toList := by
    refine AscSet.toList_append (fun x hx y hy => ?_) fun d => ?_
    · exact lt_of_lt_of_le (Bitmap.mem_below.mp (AscSet.mem_inter.mp hx).2).2
        (Bitmap.mem_atLeast.mp (AscSet.mem_inter.mp hy).2).2
    · simp only [AscSet.mem_inter, Bitmap.mem_below, Bitmap.mem_atLeast]
      have := Nat.lt_or_ge d n
      tauto
  unfold AscSet.len
  rw [← happ, List.length_append]

/-- All docs of the result are priced where none below the head boundary is past the first bucket. -/
theorem SplitFacets.price_eq (s : SplitFacets) {result docs : Bitmap}
    (h : ∀ d ∈ docs, d < s.headBoundary → d < bucketSize) : s.price result docs = (result ∩ docs).len := by
  unfold price
  rw [← Bitmap.len_inter_cut result docs s.headBoundary]
  cases hneed : headNeeded result with
  | true => rfl
  | false =>
    rw [inter_head_empty hneed fun d hd => h d (Bitmap.mem_below.mp hd).1 (Bitmap.mem_below.mp hd).2]
    rfl

section

variable [Roaring] {resolver : SplitFetcher} {spec : SplitSpec} {s : SplitFacets} {fi : FacetIndex}

theorem Opens.priceNamed_eq (h : Opens resolver spec s fi) (result : Bitmap) (pair : String × String) :
    fi.priceNamed fi.headDocs fi.tailDocs result pair = s.price result (s.map.docs pair.1 pair.2) := by
  have hfound := h.sidecarOf.found pair.1 pair.2
  rw [FacetIndex.catRange_named, Option.map_map] at hfound
  unfold FacetIndex.priceNamed FacetMap.docs
  cases hn : fi.named pair with
  | none =>
    rw [hn, Option.map_none, eq_comm, Option.map_eq_none_iff] at hfound
    rw [hfound]
    have hzero : s.price result ∅ = 0 := by
      rw [s.price_eq fun d hd => absurd hd (AscSet.not_mem_empty d)]
      exact len_inter_empty result
    exact hzero.symm
  | some x =>
    obtain ⟨f, c⟩ := x
    rw [hn, Option.map_some, eq_comm, Option.map_eq_some_iff] at hfound
    obtain ⟨S, hS, hcut⟩ := hfound
    obtain ⟨hhead, htail⟩ := Prod.mk.inj hcut
    obtain ⟨⟨hf, -⟩, hc, -⟩ := h.named.named_iff.mp hn
    rw [hS]
    exact h.priceOf_eq result hf hc hhead.symm htail.symm

end

/-- A category is counted at its price, or at nothing. -/
theorem FacetIndex.countNamed_le [SelectNth] (fi : FacetIndex) (head tail : CatRange → Bitmap) (result : Bitmap)
    (topPerField : Nat) (pair : String × String) :
    fi.countNamed head tail result topPerField pair ≤ fi.priceNamed head tail result pair := by
  unfold FacetIndex.countNamed FacetIndex.priceNamed
  cases fi.named pair with
  | none => exact Nat.le_refl _
  | some x =>
    show FacetIndex.countOf head tail result topPerField x.1 x.2 ≤ _
    unfold FacetIndex.countOf
    split
    · exact Nat.le_refl _
    · exact Nat.zero_le _

theorem FacetIndex.Named.countNamed_zero [SelectNth] {fi : FacetIndex} (h : fi.Named) (head tail : CatRange → Bitmap)
    (result : Bitmap) (pair : String × String) : fi.countNamed head tail result 0 pair = fi.priceNamed head tail result pair := by
  unfold FacetIndex.countNamed FacetIndex.priceNamed
  cases hn : fi.named pair with
  | none => rfl
  | some x =>
    obtain ⟨-, hc, -⟩ := h.named_iff.mp hn
    show FacetIndex.countOf head tail result 0 x.1 x.2 = _
    unfold FacetIndex.countOf pricedEntries pricedCategories
    rw [if_pos (Or.inl rfl), if_pos (List.mem_map_of_mem hc)]
    rfl

/-- A digest counts no category at more than its price. -/
theorem FacetIndex.Named.countNamed_digested_le [SelectNth] {fi : FacetIndex} (h : fi.Named) (hb : fi.Bare)
    (dirOf : Category → Option (List Container)) (k : Nat) (head tail : CatRange → Bitmap) (result : Bitmap)
    (topPerField : Nat) (pair : String × String) :
    (fi.digested dirOf k).countNamed head tail result topPerField pair ≤ fi.priceNamed head tail result pair := by
  cases hn : fi.named pair with
  | none =>
    rw [h.countNamed_digested_none result hn]
    exact Nat.zero_le _
  | some x =>
    rw [h.countNamed_digested hb result hn]
    unfold FacetIndex.priceNamed
    rw [hn]
    split
    · exact Nat.le_refl _
    · exact Nat.zero_le _

/-! ## What a split of a set counts -/

/-- The docs of a category that a split has, none where it has no facets. -/
def SplitFacets.docsOf (facets : Option SplitFacets) (pair : String × String) : Bitmap :=
  (facets.map fun s => s.map.docs pair.1 pair.2).getD ∅

/-- No doc of a category is below the head boundary and past the first bucket. -/
def SplitFacets.CutWithin (facets : Option SplitFacets) : Prop :=
  ∀ s, facets = some s → ∀ pair : String × String, ∀ d ∈ s.map.docs pair.1 pair.2, d < s.headBoundary → d < bucketSize

section

variable [Roaring] [Unicode] {set : SplitSet} {resolver : SplitFetcher} {e : Nat × Bitmap} {spec spec' : SplitSpec}
  {caseFold : Bool} {facets : Option SplitFacets}

omit [Unicode] in
theorem SplitFacets.CutWithin.price_eq (hcut : CutWithin facets) {s : SplitFacets} {fi : FacetIndex} (hs : facets = some s)
    (h : Opens resolver spec s fi) (result : Bitmap) (pair : String × String) :
    fi.priceNamed fi.headDocs fi.tailDocs result pair = (result ∩ docsOf facets pair).len := by
  rw [h.priceNamed_eq, s.price_eq (hcut s hs pair), hs]
  rfl

/-- **The top categories of a split**: each is counted at its docs of the result, or at nothing; with no bound on how many,
all are counted. -/
theorem EntryAt.splitCounts_le [SelectNth] (h : EntryAt set resolver e spec spec')
    (hf : Faceted resolver caseFold spec facets) (hcut : SplitFacets.CutWithin facets) (topPerField : Nat) :
    ∃ r n, Settles (set.splitCounts resolver topPerField e) r ∧ Adds tallySplit readCounts addCounts r n ∧
      ∀ pair, n pair ≤ (e.2 ∩ SplitFacets.docsOf facets pair).len ∧
        (topPerField = 0 → n pair = (e.2 ∩ SplitFacets.docsOf facets pair).len) := by
  have hfull : ∀ pair, fullCount resolver spec e.2 topPerField pair ≤ (e.2 ∩ SplitFacets.docsOf facets pair).len ∧
      (topPerField = 0 → fullCount resolver spec e.2 topPerField pair = (e.2 ∩ SplitFacets.docsOf facets pair).len) := by
    intro pair
    unfold fullCount
    rcases hf.cases with ⟨hnone, hmeta, -, -⟩ | ⟨s, fi, hs, hopens⟩
    · rw [hmeta, hnone]
      exact ⟨Nat.zero_le _, fun _ => (len_inter_empty e.2).symm⟩
    · rw [hopens.facetMeta, ← hcut.price_eq hs hopens]
      refine ⟨fi.countNamed_le _ _ _ _ _, fun htop => ?_⟩
      rw [htop]
      exact hopens.named.countNamed_zero _ _ _ _
  obtain ⟨summary, hc, hspec'⟩ := h.carries
  have hsummary : spec'.summary = summary := by rw [hspec']
  rcases hf.carries hc with hnone | ⟨s, fi, k, dirOf, hs, hopens, hd⟩
  · have hshort : ∀ digest, digestOf spec'.summary = some digest → ¬ (topPerField ≠ 0 ∧ topPerField ≤ digest.1) := by
      intro digest hdig
      rw [hsummary, hnone] at hdig
      cases hdig
    obtain ⟨r, hr, ha⟩ := h.splitCounts_full hf hshort
    exact ⟨r, _, hr, ha, hfull⟩
  rw [← hsummary] at hd
  by_cases hused : topPerField ≠ 0 ∧ topPerField ≤ k
  · obtain ⟨r, hr, ha⟩ := h.splitCounts_digest hopens hd hused.1 hused.2
    refine ⟨r, _, hr, ha, fun pair => ⟨?_, fun htop => absurd htop hused.1⟩⟩
    rw [← hcut.price_eq hs hopens]
    exact hopens.named.countNamed_digested_le hopens.bare dirOf k _ _ _ _ _
  · have hshort : ∀ digest, digestOf spec'.summary = some digest → ¬ (topPerField ≠ 0 ∧ topPerField ≤ digest.1) := by
      intro digest hdig
      rw [hd.digest] at hdig
      rwa [← Option.some.inj hdig]
    obtain ⟨r, hr, ha⟩ := h.splitCounts_full hf hshort
    exact ⟨r, _, hr, ha, hfull⟩

/-- **The named pairs of a split** are priced at their docs of the result. -/
theorem EntryAt.splitCountsFor_eq (h : EntryAt set resolver e spec spec')
    (hf : Faceted resolver set.caseFold spec facets) (hcut : SplitFacets.CutWithin facets) (pairs : List (String × String)) :
    ∃ r prices, Settles (set.splitCountsFor resolver pairs e) r ∧ Adds addTotals id addTotals r prices ∧
      (prices = pairs.map (fun pair => (e.2 ∩ SplitFacets.docsOf facets pair).len) ∨
        (prices = [] ∧ ∀ pair, (e.2 ∩ SplitFacets.docsOf facets pair).len = 0)) := by
  obtain ⟨r, hr, ha⟩ := h.splitCountsFor_full hf pairs
  refine ⟨r, _, hr, ha, ?_⟩
  unfold fullPrices
  rcases hf.cases with ⟨hnone, hmeta, -, -⟩ | ⟨s, fi, hs, hopens⟩
  · rw [hmeta, hnone]
    exact Or.inr ⟨rfl, fun pair => len_inter_empty e.2⟩
  · rw [hopens.facetMeta]
    exact Or.inl (List.map_congr_left fun pair _ => hcut.price_eq hs hopens e.2 pair)

end

/-! ## The splits of a build -/

/-- The digest that a sealed split is given, if any, is one of its sidecar. -/
theorem carries_facetDigestRecord [Roaring] {cfg : FacetSealCfg} {file digest summary : Bytes}
    (h : facetDigestRecord cfg file = .ok digest) (hlen : (summary ++ digest).length < 2 ^ 32) :
    CarriesDigest (MemoryFetch.new file) summary (summary ++ digest) := by
  unfold facetDigestRecord at h
  split at h
  · rw [← Except.ok.inj h, List.append_nil]
    exact CarriesDigest.absent
  · simp only at h
    split at h
    · next d hd =>
      rw [← Except.ok.inj h] at hlen ⊢
      cases hv : cfg.digestV2 with
      | true =>
        rw [hv] at hd hlen
        exact CarriesDigest.second rfl hd hlen
      | false =>
        rw [hv] at hd hlen
        exact CarriesDigest.first rfl hd hlen
    · cases h

/-- The resolver serves the files of a build, and no sidecar of a split that was built without one. -/
structure SplitFetcher.ServesSidecars (resolver : SplitFetcher) (built : BuiltSplitSet) : Prop extends
    resolver.ServesBuild built where
  absent : ∀ f ∈ built.splits, facetFileName f.1 ∉ built.facets.map Prod.fst →
    (resolver.fetchNamed (facetFileName f.1)).missing = true

/-- How many of the ids, each counted once, are of documents with the category. -/
def countedAt (docs : List BuildDoc) (ids : List (Fin u32Bound)) (pair : String × String) : Nat :=
  ((docs.findIdxs fun doc => doc.facets.contains pair).filter fun d => (ids.map Fin.val).contains d).length

section

variable [Roaring] [Unicode] {config : SplitBuildConfig} {top : Nat} {v2 : Bool} {docs : List BuildDoc}
  {all : BuiltSplitSet} {st : List SealedSplit × List BuildDoc} {set : SplitSet} {resolver : SplitFetcher} {i : Nat}
  {s : SealedSplit}

theorem CutInto.sidecar_absent (h : CutInto (SplitSetBuilder.start config top v2) docs all st) (hn : docs.length ≤ u32Bound)
    (hne : docs.length = u32Bound → all.splits ≠ []) (hi : st.1[i]? = some s) (hnil : s.sidecar = []) :
    facetFileName s.spec.dataFile ∉ all.facets.map Prod.fst := by
  have htiles := (h.emitted hn hne).tiles
  have hnames : (st.1.map fun s => facetFileName s.spec.dataFile).Nodup := by
    apply @nodup_stems _ (SplitSetBuilder.start config top v2).namePrefix ".rrf"
    intro j n hj
    rw [List.getElem?_map, Option.map_eq_some_iff] at hj
    obtain ⟨t, ht, rfl⟩ := hj
    rw [(htiles j t ht).dataFile, facetFileName_rrs]
  intro hmem
  obtain ⟨f, hf, hname⟩ := List.mem_map.mp hmem
  rw [h.sidecars] at hf
  obtain ⟨t, ht, hf⟩ := List.mem_flatMap.mp hf
  obtain ⟨j, hj⟩ := List.mem_iff_getElem?.mp ht
  obtain ⟨-, -, ⟨-, hnone⟩ | ⟨-, bytes, -, hone⟩⟩ := (htiles j t hj).facets
  · rw [hnone] at hf
    cases hf
  · rw [hone] at hf
    rw [List.mem_singleton.mp hf] at hname
    have heq : t = s := List.inj_on_of_nodup_map hnames ht (List.mem_of_getElem? hi) hname
    rw [heq, hnil] at hone
    cases hone

omit [Unicode] in
/-- Documents below the boundary are cut alike wherever the boundary is past them. -/
theorem facetFields_congr {m : FacetMap} {headBoundary bound : Nat}
    (h : ∀ (pair : String × String), ∀ d ∈ m.docs pair.1 pair.2, d < headBoundary ↔ d < bound) :
    facetFields m headBoundary = facetFields m bound := by
  unfold facetFields
  refine List.map_congr_left fun f hf => ?_
  refine congrArg (FacetField.mk f.1) (List.map_congr_left fun c hc => ?_)
  have hdocs : m.docs f.1 c.1 = c.2 := by
    have hfind : m.find? f.1 = some f.2 := OrdMap.find?_eq_some_iff.mpr hf
    have hfind' : f.2.find? c.1 = some c.2 := OrdMap.find?_eq_some_iff.mpr hc
    unfold FacetMap.docs FacetMap.posting
    rw [hfind, Option.bind_some, hfind', Option.getD_some]
  have hsame : ∀ d ∈ c.2, d < headBoundary ↔ d < bound := fun d hd => h (f.1, c.1) d (hdocs ▸ hd)
  have hbelow : c.2.below headBoundary = c.2.below bound := by
    refine AscSet.ext_mem fun d => ?_
    rw [Bitmap.mem_below, Bitmap.mem_below]
    exact and_congr_right fun hd => hsame d hd
  have habove : c.2.atLeast headBoundary = c.2.atLeast bound := by
    refine AscSet.ext_mem fun d => ?_
    rw [Bitmap.mem_atLeast, Bitmap.mem_atLeast]
    refine and_congr_right fun hd => ?_
    have hiff := hsame d hd
    omega
  unfold facetCategory splitPosting
  rw [hbelow, habove]

omit [Roaring] [Unicode] in
/-- A filter that was asked for is the only record of its part of a summary. -/
theorem exists_bloomRecords (bitsPerKey : Nat) (posts : PostMap) {more : Bytes}
    (hlen : (SplitSetBuilder.bloomRecord bitsPerKey posts ++ more).length < 2 ^ 32) : ∃ rs,
      SummaryOf (SplitSetBuilder.bloomRecord bitsPerKey posts) rs ∧
      ∀ {tag : Nat}, tag ≠ summaryTagBloom → recordOf rs tag = none := by
  obtain ⟨rs, hrs, htags⟩ := filter_records (0 < bitsPerKey) posts.keys bitsPerKey
  refine ⟨rs, ⟨hrs, fun r hr => ?_, ?_⟩, fun htag => recordOf_eq_none fun r hr => ?_⟩
  · rw [htags r hr]
    decide
  · rw [List.length_append] at hlen
    omega
  · rw [htags r hr]
    exact htag.symm

/-- A split without facets has no sidecar, and its summary is the filter alone. -/
theorem CutInto.faceted_none (h : CutInto (SplitSetBuilder.start config top v2) docs all st) (hn : docs.length ≤ u32Bound)
    (hne : docs.length = u32Bound → all.splits ≠ []) (hsummary : s.spec.summary.length < 2 ^ 32)
    (hserves : resolver.ServesSidecars all) (hi : st.1[i]? = some s) (hempty : (facetsOf s.docs).isEmpty = true) :
    Faceted resolver (SplitSetBuilder.start config top v2).caseNormalization s.spec none := by
  obtain ⟨bytes, more, sidecar, -, hside, hspec⟩ := SplitSetBuilder.cut_ok (h.each i s hi).2
  have hbloom : s.spec.summary = SplitSetBuilder.bloomRecord
      (SplitSetBuilder.start config top v2).bloomBitsPerKey (postsAndUpper s.docs).1 ++ more := by rw [hspec]
  rw [hbloom] at hsummary
  obtain ⟨rs, hbase, hno⟩ := exists_bloomRecords _ _ hsummary
  rcases sealFacetSidecar_ok hside with ⟨-, hmore, hnil⟩ | ⟨hsome, -⟩
  · rw [hmore, List.append_nil] at hbloom
    refine ⟨⟨rs, ?_, hno (by decide), hno (by decide), fun payload hp => ?_⟩, fun _ => ?_, fun x hx => ?_⟩
    · rw [hbloom]
      exact hbase
    · rw [hno (by decide)] at hp
      cases hp
    · refine hserves.absent s.file ?_ (h.sidecar_absent hn hne hi (by rw [hspec, hnil]))
      rw [h.files]
      exact List.mem_map_of_mem (List.mem_of_getElem? hi)
    · cases hx
  · rw [hempty] at hsome
    cases hsome

/-- A split with facets, but for the digest in its summary, has the sidecar that a boundary of a bucket would give. -/
theorem CutInto.exists_faceted_some (h : CutInto (SplitSetBuilder.start config top v2) docs all st)
    (hn : docs.length ≤ u32Bound) (hsummary : s.spec.summary.length < 2 ^ 32) (hnames : (facetNames docs).length < 2 ^ 32)
    (hcut : ∀ d < s.docs.length, d < (SplitSetBuilder.start config top v2).headBoundary ↔ d < bucketSize)
    (hserves : resolver.ServesSidecars all) (hi : st.1[i]? = some s) (hsome : (facetsOf s.docs).isEmpty = false) :
    ∃ (spec : SplitSpec) (x : SplitFacets),
      Faceted resolver (SplitSetBuilder.start config top v2).caseNormalization spec (some x) ∧
      spec.Carries resolver s.spec ∧ x.map = facetsOf s.docs ∧ x.headBoundary = bucketSize := by
  obtain ⟨bytes, more, sidecar, -, hside, hspec⟩ := SplitSetBuilder.cut_ok (h.each i s hi).2
  have hpart := (h.length_part_lt hn hi).1.le
  have hbloom : s.spec.summary = SplitSetBuilder.bloomRecord
      (SplitSetBuilder.start config top v2).bloomBitsPerKey (postsAndUpper s.docs).1 ++ more := by rw [hspec]
  have hlen := hsummary
  rw [hbloom] at hsummary
  obtain ⟨rs, hbase, hno⟩ := exists_bloomRecords _ _ hsummary
  rcases sealFacetSidecar_ok hside with ⟨hempty, -⟩ | ⟨-, file, digest, hw, hd, hmore, -⟩
  · rw [hempty] at hsome
    cases hsome
  · obtain ⟨hfit, file', hw', hfile⟩ := h.facets_fit hnames hi hsome
    obtain rfl : file = file' := Except.ok.inj (hw.symm.trans hw')
    have hsame := @facetFields_congr _ (facetsOf s.docs) (SplitSetBuilder.start config top v2).headBoundary bucketSize
      fun pair d hd => by
        obtain ⟨doc, hdoc, -⟩ := (mem_facetsOf hpart).mp hd
        exact hcut d (List.getElem?_eq_some_iff.mp hdoc).1
    have hfetch : (s.spec.sidecar resolver) = MemoryFetch.new file := hserves.facets _ hfile
    rw [hbloom, hmore, ← List.append_assoc] at hlen
    have hshort : (SplitSetBuilder.bloomRecord (SplitSetBuilder.start config top v2).bloomBitsPerKey
        (postsAndUpper s.docs).1 ++ tlvRecord summaryTagFacet (facetPresence (facetsOf s.docs)
          (SplitSetBuilder.start config top v2).caseNormalization)).length < 2 ^ 32 := by
      rw [List.length_append] at hlen
      exact Nat.lt_of_le_of_lt (Nat.le_add_right _ _) hlen
    have hboth := hbase.append (show summaryTagFacet < 256 by decide) hshort
    refine ⟨{ s.spec with summary := _ }, ⟨facetsOf s.docs, bucketSize, hfit, Nat.le_refl _⟩,
      ⟨⟨_, hboth, ?_, ?_, fun payload hp => ⟨_, rfl, ?_⟩⟩, fun hx => ?_, fun x hx => ?_⟩, ⟨s.spec.summary, ?_, rfl⟩, rfl,
      rfl⟩
    · rw [recordOf_append, hno (by decide)]
      rfl
    · rw [recordOf_append, hno (by decide)]
      rfl
    · rw [recordOf_append, hno (by decide)] at hp
      exact (Option.some.inj hp).symm
    · cases hx
    · obtain rfl := Option.some.inj hx
      exact ⟨file, hsame ▸ hw, hfetch⟩
    · show CarriesDigest (s.spec.sidecar resolver) _ _
      rw [hfetch, hbloom, hmore, ← List.append_assoc]
      exact carries_facetDigestRecord hd hlen

/-- **A split of a build is one with facets**, or has none and no sidecar; its summary carries the digest asked for.  Its
sidecar is the one that a boundary of a bucket would give. -/
theorem CutInto.exists_faceted (h : CutInto (SplitSetBuilder.start config top v2) docs all st) (hn : docs.length ≤ u32Bound)
    (hne : docs.length = u32Bound → all.splits ≠ []) (hsummary : s.spec.summary.length < 2 ^ 32)
    (hnames : (facetNames docs).length < 2 ^ 32)
    (hcut : ∀ d < s.docs.length, d < (SplitSetBuilder.start config top v2).headBoundary ↔ d < bucketSize)
    (hserves : resolver.ServesSidecars all) (hi : st.1[i]? = some s) : ∃ spec facets,
      Faceted resolver (SplitSetBuilder.start config top v2).caseNormalization spec facets ∧
      spec.Carries resolver s.spec ∧
      (∀ pair, SplitFacets.docsOf facets pair = (facetsOf s.docs).docs pair.1 pair.2) ∧
      ∀ x, facets = some x → x.headBoundary = bucketSize := by
  cases hempty : (facetsOf s.docs).isEmpty with
  | true =>
    refine ⟨s.spec, none, h.faceted_none hn hne hsummary hserves hi hempty, ⟨_, CarriesDigest.absent, rfl⟩, fun pair => ?_,
      fun x hx => by cases hx⟩
    have hfind : (facetsOf s.docs).find? pair.1 = none := by
      rw [OrdMap.find?, List.isEmpty_iff.mp hempty]
      rfl
    unfold FacetMap.docs FacetMap.posting
    rw [hfind]
    rfl
  | false =>
    obtain ⟨spec, x, hfaceted, hcarries, hmap, hbound⟩ :=
      h.exists_faceted_some hn hsummary hnames hcut hserves hi hempty
    refine ⟨spec, some x, hfaceted, hcarries, fun pair => ?_, fun y hy => ?_⟩
    · rw [← hmap]
      rfl
    · rw [← Option.some.inj hy]
      exact hbound

end

section

variable [Roaring] [Unicode] {config : SplitBuildConfig} {top : Nat} {v2 : Bool} {docs : List BuildDoc}
  {all : BuiltSplitSet} {st : List SealedSplit × List BuildDoc} {set : SplitSet} {resolver : SplitFetcher} {i : Nat}
  {s : SealedSplit}

theorem CutInto.mem_localIds (h : CutInto (SplitSetBuilder.start config top v2) docs all st) (hn : docs.length ≤ u32Bound)
    (hne : docs.length = u32Bound → all.splits ≠ []) (hsizes : ∀ s ∈ st.1, s.bytes.length < u64Bound)
    (hi : st.1[i]? = some s) {ids : List (Fin u32Bound)} {l : Nat} :
    l ∈ localIds ((st.1.map SealedSplit.spec).map SplitSpec.entry) ids i ↔
      l < s.docs.length ∧ ∃ gid ∈ ids, gid.val = s.spec.docIdLo + l := by
  have htiles := (h.emitted hn hne).tiles
  have hentry : ∀ {j : Nat} {split : Split}, ((st.1.map SealedSplit.spec).map SplitSpec.entry)[j]? = some split ↔
      ∃ t, st.1[j]? = some t ∧ t.spec.entry = split := by
    intro j split
    rw [List.map_map, List.getElem?_map, Option.map_eq_some_iff]
    rfl
  have hcontains : ∀ {j : Nat} {t : SealedSplit}, st.1[j]? = some t → ∀ d, t.spec.entry.contains d = true ↔
      t.spec.docIdLo ≤ d ∧ d < t.spec.docIdLo + t.docs.length := by
    intro j t hj d
    have hat := htiles j t hj
    have hpos := hat.docCount
    have hhi := hat.docIdHi
    rw [← hat.docIdLo] at hhi
    unfold Split.contains
    show (decide (0 < t.spec.docCount) && decide (t.spec.docIdLo ≤ d) && decide (d ≤ t.spec.docIdHi)) = true ↔ _
    rw [Bool.and_eq_true, Bool.and_eq_true, decide_eq_true_eq, decide_eq_true_eq, decide_eq_true_eq]
    omega
  have hlocal : ∀ {j : Nat} {t : SealedSplit}, st.1[j]? = some t → ∀ d, t.spec.entry.toLocal d = d - t.spec.docIdLo := by
    intro j t hj d
    obtain ⟨-, hflags, -⟩ := h.spec_inRange htiles hn hj (hsizes t (List.mem_of_getElem? hj))
    have habs : t.spec.entry.absoluteIds = false := by
      show hasFlag t.spec.flags splitFlagAbsoluteIds = false
      rw [hflags]
      rfl
    unfold Split.toLocal
    rw [habs, if_neg Bool.false_ne_true]
    rfl
  rw [RoaringRange.mem_localIds]
  constructor
  · rintro ⟨gid, hgid, split, hfind, rfl⟩
    have hmem := List.mem_zipIdx_iff_getElem?.mp (List.mem_of_find?_eq_some hfind)
    obtain ⟨t, ht, rfl⟩ := hentry.mp hmem
    obtain rfl : s = t := Option.some.inj (hi.symm.trans ht)
    have hc : s.spec.entry.contains gid.val = true := by
      have hsome := List.find?_some hfind
      exact hsome
    rw [hcontains hi] at hc
    rw [hlocal hi]
    exact ⟨by omega, gid, hgid, by omega⟩
  · rintro ⟨hl, gid, hgid, hval⟩
    refine ⟨gid, hgid, s.spec.entry, find?_zipIdx_first (hentry.mpr ⟨s, hi, rfl⟩) ?_ fun j hj split hsplit => ?_, ?_⟩
    · exact (hcontains hi _).mpr (by omega)
    · obtain ⟨t, ht, rfl⟩ := hentry.mp hsplit
      rw [Bool.eq_false_iff]
      intro hc
      have hc' := (hcontains ht _).mp hc
      have hend := @startOf_succ _ _ SealedSplit.docs _ _ _ ht
      have hmono := @startOf_mono _ _ SealedSplit.docs st.1 _ _ (show j + 1 ≤ i from hj)
      have hlo := (htiles i s hi).docIdLo
      have hlo' := (htiles j t ht).docIdLo
      omega
    · rw [hlocal hi]
      omega

theorem CutInto.len_inter_local (h : CutInto (SplitSetBuilder.start config top v2) docs all st) (hn : docs.length ≤ u32Bound)
    (hne : docs.length = u32Bound → all.splits ≠ []) (hsizes : ∀ s ∈ st.1, s.bytes.length < u64Bound)
    (hi : st.1[i]? = some s) (ids : List (Fin u32Bound)) (pair : String × String) :
    (localIds ((st.1.map SealedSplit.spec).map SplitSpec.entry) ids i ∩ (facetsOf s.docs).docs pair.1 pair.2).len =
      (((s.docs.findIdxs fun doc => doc.facets.contains pair).map s.spec.entry.toGlobal).filter
        fun d => (ids.map Fin.val).contains d).length := by
  have hle := h.length_part_le (List.mem_of_getElem? hi)
  obtain ⟨-, hflags, hend⟩ := h.spec_inRange (h.emitted hn hne).tiles hn hi (hsizes s (List.mem_of_getElem? hi))
  have hglobal : ∀ l < s.docs.length, s.spec.entry.toGlobal l = s.spec.docIdLo + l := by
    intro l hl
    have habs : s.spec.entry.absoluteIds = false := by
      show hasFlag s.spec.flags splitFlagAbsoluteIds = false
      rw [hflags]
      rfl
    unfold Split.toGlobal
    rw [habs, if_neg Bool.false_ne_true]
    show min (s.spec.docIdLo + l) (u32Bound - 1) = _
    omega
  have hplaces : (localIds ((st.1.map SealedSplit.spec).map SplitSpec.entry) ids i ∩
      (facetsOf s.docs).docs pair.1 pair.2).toList = (s.docs.findIdxs fun doc => doc.facets.contains pair).filter
        ((fun d => (ids.map Fin.val).contains d) ∘ s.spec.entry.toGlobal) := by
    refine List.Pairwise.eq_of_mem_iff (AscSet.asc _) (List.pairwise_findIdxs.filter _) fun l => ?_
    rw [AscSet.mem_toList, AscSet.mem_inter, h.mem_localIds hn hne hsizes hi, mem_facetsOf (hle.trans hn), List.mem_filter,
      List.mem_findIdxs_iff_exists_getElem_pos, Function.comp_apply, List.contains_iff_mem, List.mem_map]
    constructor
    · rintro ⟨⟨hl, gid, hgid, hval⟩, doc, hdoc, hpair⟩
      refine ⟨⟨hl, ?_⟩, gid, hgid, ?_⟩
      · rw [List.getElem?_eq_getElem hl] at hdoc
        rw [Option.some.inj hdoc]
        exact List.contains_iff_mem.mpr hpair
      · rw [hval, hglobal l hl]
    · rintro ⟨⟨hl, hpair⟩, gid, hgid, hval⟩
      rw [hglobal l hl] at hval
      exact ⟨⟨hl, gid, hgid, hval⟩, s.docs[l], List.getElem?_eq_getElem hl, List.contains_iff_mem.mp hpair⟩
  rw [AscSet.len, hplaces, List.filter_map, List.length_map]

/-- **What the splits count adds up** to the ids of documents with the category. -/
theorem CutInto.sum_counts (h : CutInto (SplitSetBuilder.start config top v2) docs all st) (hn : docs.length ≤ u32Bound)
    (hne : docs.length = u32Bound → all.splits ≠ []) (hsizes : ∀ s ∈ st.1, s.bytes.length < u64Bound)
    (ids : List (Fin u32Bound)) (pair : String × String) :
    ((routed (st.1.map SealedSplit.spec) ids).map fun e =>
      (e.2 ∩ (((st.1[e.1]?).map fun s => (facetsOf s.docs).docs pair.1 pair.2).getD ∅)).len).sum =
        countedAt docs ids pair := by
  unfold routed countedAt
  rw [sum_idsBySplit (f := fun i B => (B ∩ (((st.1[i]?).map fun s => (facetsOf s.docs).docs pair.1 pair.2).getD ∅)).len)
    fun _ => rfl]
  rw [← h.places_eq hn hne hsizes, List.filter_flatMap, List.length_flatMap, List.length_map, List.length_map]
  refine congrArg List.sum (List.ext_getElem (by simp) fun i hi _ => ?_)
  have hlt : i < st.1.length := by simpa using hi
  have hget := List.getElem?_eq_getElem hlt
  rw [List.getElem_map, List.getElem_map, List.getElem_range, hget]
  exact h.len_inter_local hn hne hsizes hget ids pair

end

section

variable [Roaring] [Unicode] {config : SplitBuildConfig} {top : Nat} {v2 : Bool} {docs : List BuildDoc}
  {all : BuiltSplitSet} {st : List SealedSplit × List BuildDoc} {set : SplitSet} {resolver : SplitFetcher}

theorem CutInto.exists_entryAt (h : CutInto (SplitSetBuilder.start config top v2) docs all st) (hn : docs.length ≤ u32Bound)
    (hne : docs.length = u32Bound → all.splits ≠ []) (hof : set.OfBuild (SplitSetBuilder.start config top v2) st.1)
    (hnames : (facetNames docs).length < 2 ^ 32)
    (hcut : CutAlike (SplitSetBuilder.start config top v2).headBoundary set.splits)
    (hserves : resolver.ServesSidecars all) {ids : List (Fin u32Bound)} {e : Nat × Bitmap}
    (he : e ∈ routed (st.1.map SealedSplit.spec) ids) : ∃ spec spec' facets, EntryAt set resolver e spec spec' ∧
      Faceted resolver set.caseFold spec facets ∧ SplitFacets.CutWithin facets ∧ ∀ pair,
        SplitFacets.docsOf facets pair = ((st.1[e.1]?).map fun s => (facetsOf s.docs).docs pair.1 pair.2).getD ∅ := by
  have hlt : e.1 < st.1.length := by
    have := lt_of_mem_idsBySplit he
    rwa [List.length_map, List.length_map] at this
  have hltset : e.1 < set.splits.length := by rwa [hof.splits.length_eq]
  have hi := List.getElem?_eq_getElem hlt
  have hmem := List.mem_of_getElem? hi
  have hsplit : set.split e.1 = set.splits[e.1] := List.getD_eq_getElem _ _ hltset
  have hsplitOf : SplitOf set set.splits[e.1] st.1[e.1].spec := hof.splits.get hltset hlt
  obtain ⟨hpart, hcount⟩ := h.length_part_lt hn hi
  have hsame : ∀ d < st.1[e.1].docs.length, d < (SplitSetBuilder.start config top v2).headBoundary ↔ d < bucketSize := by
    intro d hd
    rcases hcut with heq | hsmall
    · rw [heq, eagerDocBound, eagerBuckets, Nat.one_mul]
    · obtain ⟨hhead, hle⟩ := hsmall _ (List.getElem_mem hltset)
      rw [hsplitOf.docCount, hcount] at hhead hle
      exact iff_of_true (Nat.lt_of_lt_of_le hd hhead) (Nat.lt_of_lt_of_le hd hle)
  obtain ⟨spec, facets, hf, hcarries, hdocs, hsome⟩ :=
    h.exists_faceted hn hne (hof.summary_lt _ hmem) hnames hsame hserves hi
  refine ⟨spec, _, facets, ⟨by rw [hsplit]; exact hsplitOf, hcarries⟩, by rw [hof.caseFold]; exact hf, ?_, fun pair => ?_⟩
  · intro x hx pair d hd hbelow
    rwa [hsome x hx] at hbelow
  · rw [hdocs, hi]
    rfl

omit [Roaring] [Unicode] in
/-- Prices of named pairs add up pair by pair; a split without a sidecar adds none. -/
theorem foldl_addTotals {es : List (Nat × Bitmap)} {prices : Nat × Bitmap → List Nat} {pairs : List (String × String)}
    {count : Nat × Bitmap → String × String → Nat}
    (h : ∀ e ∈ es, prices e = pairs.map (count e) ∨ (prices e = [] ∧ ∀ pair, count e pair = 0)) :
    ∀ totals : String × String → Nat, (es.map prices).foldl addTotals (pairs.map totals) =
      pairs.map fun pair => totals pair + (es.map fun e => count e pair).sum := by
  have hadd : ∀ (ps : List (String × String)) (f g : String × String → Nat),
      addTotals (ps.map f) (ps.map g) = ps.map fun pair => f pair + g pair := by
    intro ps f g
    induction ps with
    | nil => rfl
    | cons p ps ih => rw [List.map_cons, List.map_cons, addTotals, ih, List.map_cons]
  induction es with
  | nil => exact fun totals => rfl
  | cons e es ih =>
    intro totals
    have ih' := ih fun x hx => h x (List.mem_cons_of_mem _ hx)
    rw [List.map_cons, List.foldl_cons]
    rcases h e List.mem_cons_self with hsome | ⟨hnone, hzero⟩
    · rw [hsome, hadd, ih']
      refine List.map_congr_left fun pair _ => ?_
      rw [List.map_cons, List.sum_cons, Nat.add_assoc]
    · have hnil : addTotals (pairs.map totals) [] = pairs.map totals := by
        cases pairs <;> rfl
      rw [hnone, hnil, ih']
      refine List.map_congr_left fun pair _ => ?_
      rw [List.map_cons, List.sum_cons, hzero, Nat.zero_add]

omit [Roaring] [Unicode] in
theorem sum_map_le {es : List (Nat × Bitmap)} {f g : Nat × Bitmap → Nat} (h : ∀ e ∈ es, f e ≤ g e) :
    (es.map f).sum ≤ (es.map g).sum := by
  induction es with
  | nil => exact Nat.le_refl _
  | cons e es ih =>
    rw [List.map_cons, List.map_cons, List.sum_cons, List.sum_cons]
    exact Nat.add_le_add (h e List.mem_cons_self) (ih fun x hx => h x (List.mem_cons_of_mem _ hx))

theorem CutInto.settles_counts (h : CutInto (SplitSetBuilder.start config top v2) docs all st) (hn : docs.length ≤ u32Bound)
    (hne : docs.length = u32Bound → all.splits ≠ []) (hsizes : ∀ s ∈ st.1, s.bytes.length < u64Bound)
    (hof : set.OfBuild (SplitSetBuilder.start config top v2) st.1)
    (hnames : (facetNames docs).length < 2 ^ 32)
    (hcut : CutAlike (SplitSetBuilder.start config top v2).headBoundary set.splits)
    (hserves : resolver.ServesSidecars all) (ids : List (Fin u32Bound)) :
    (∀ pairs, SettlesUnless (· = FetchError.notFound) (set.facetCountsFor resolver ids pairs)
      (.ok (pairs.map (countedAt docs ids)))) ∧
    ∀ [SelectNth] (topPerField : Nat), ∃ counts,
      SettlesUnless (· = FetchError.notFound) (set.facetCountsTop resolver ids topPerField) (.ok counts) ∧
      ∀ pair, ∃ n ≤ countedAt docs ids pair, readCounts counts pair = total n ∧
        (topPerField = 0 → n = countedAt docs ids pair) := by
  have hrouted : idsBySplit set.splits ids = routed (st.1.map SealedSplit.spec) ids := by
    unfold routed
    rw [List.map_map]
    refine idsBySplit_congr (List.forall₂_map_right_iff.mpr (hof.splits.imp fun split s hs => ?_)) ids
    obtain ⟨hcontains, hlocal, -⟩ := hs.routes_eq
    exact ⟨hcontains, hlocal⟩
  have hsum := h.sum_counts hn hne hsizes ids
  have hat := fun e he => @CutInto.exists_entryAt _ _ _ _ _ _ _ _ _ _ h hn hne hof hnames hcut hserves ids e he
  refine ⟨fun pairs => ?_, fun {_} topPerField => ?_⟩
  · have hone : ∀ e : Nat × Bitmap, ∃ prices, e ∈ routed (st.1.map SealedSplit.spec) ids →
        (∃ r, Settles (set.splitCountsFor resolver pairs e) r ∧ Adds addTotals id addTotals r prices) ∧
        (prices = pairs.map (fun pair => (e.2 ∩ (((st.1[e.1]?).map fun s =>
          (facetsOf s.docs).docs pair.1 pair.2).getD ∅)).len) ∨ (prices = [] ∧ ∀ pair : String × String,
            (e.2 ∩ (((st.1[e.1]?).map fun s => (facetsOf s.docs).docs pair.1 pair.2).getD ∅)).len = 0)) := by
      intro e
      by_cases he : e ∈ routed (st.1.map SealedSplit.spec) ids
      · obtain ⟨spec, spec', facets, hentry, hf, hwithin, hdocs⟩ := hat e he
        obtain ⟨r, prices, hr, ha, heq⟩ := hentry.splitCountsFor_eq hf hwithin pairs
        simp only [hdocs] at heq
        exact ⟨prices, fun _ => ⟨⟨r, hr, ha⟩, heq⟩⟩
      · exact ⟨[], fun hmem => absurd hmem he⟩
    choose prices hprices using hone
    have hsettles := settles_facetCountsFor prices hrouted fun e he => (hprices e he).1
    have hfold := foldl_addTotals (fun e he => (hprices e he).2) fun _ => 0
    rw [List.map_const'] at hfold
    rw [hfold] at hsettles
    simp only [Nat.zero_add, hsum] at hsettles
    exact hsettles
  · have hone : ∀ e : Nat × Bitmap, ∃ n : String × String → Nat, e ∈ routed (st.1.map SealedSplit.spec) ids →
        (∃ r, Settles (set.splitCounts resolver topPerField e) r ∧ Adds tallySplit readCounts addCounts r n) ∧
        ∀ pair : String × String, n pair ≤ (e.2 ∩ (((st.1[e.1]?).map fun s =>
          (facetsOf s.docs).docs pair.1 pair.2).getD ∅)).len ∧ (topPerField = 0 → n pair = (e.2 ∩ (((st.1[e.1]?).map fun s =>
            (facetsOf s.docs).docs pair.1 pair.2).getD ∅)).len) := by
      intro e
      by_cases he : e ∈ routed (st.1.map SealedSplit.spec) ids
      · obtain ⟨spec, spec', facets, hentry, hf, hwithin, hdocs⟩ := hat e he
        obtain ⟨r, n, hr, ha, hle⟩ := hentry.splitCounts_le hf hwithin topPerField
        simp only [hdocs] at hle
        exact ⟨n, fun _ => ⟨⟨r, hr, ha⟩, hle⟩⟩
      · exact ⟨fun _ => 0, fun hmem => absurd hmem he⟩
    choose n hcounted using hone
    obtain ⟨counts, hcounts, hread⟩ := settles_facetCountsTop n hrouted fun e he => (hcounted e he).1
    refine ⟨counts, hcounts, fun pair => ⟨_, ?_, congrFun hread pair, fun htop => ?_⟩⟩
    · rw [← hsum]
      exact sum_map_le fun e he => ((hcounted e he).2 pair).1
    · rw [← hsum]
      exact congrArg List.sum (List.map_congr_left fun e he => ((hcounted e he).2 pair).2 htop)

/-- **Facet counts are those of the documents**: a named pair is counted at the ids whose document has it, each once, and a
category among the top ones at no more; with no bound on how many, every category is counted so. -/
theorem facet_counts_build {calls : List BuildCall} {r : BuildRun} {built : BuiltSplitSet}
    (hcalls : BuildRun.calls ⟨SplitSetBuilder.start config top v2, [], []⟩ calls = ([], r))
    (hfin : r.builder.finish = .ok built)
    (hn : (BuildCall.documents (SplitSetBuilder.start config top v2) calls).length ≤ 2 ^ 32)
    (hne : (BuildCall.documents (SplitSetBuilder.start config top v2) calls).length = 2 ^ 32 →
      r.files ++ built.splits ≠ [])
    (hkeys : (distinctKeys (BuildCall.documents (SplitSetBuilder.start config top v2) calls)).length < 2 ^ 32)
    (hnames : (facetNames (BuildCall.documents (SplitSetBuilder.start config top v2) calls)).length < 2 ^ 32)
    (hlen : built.manifest.length < u64Bound) :
    let b := SplitSetBuilder.start config top v2
    let docs := BuildCall.documents b calls
    let all : BuiltSplitSet := ⟨built.manifest, r.files ++ built.splits, r.facetFiles ++ built.facets⟩
    ∃ set, SplitSet.fromBytes built.manifest = .ok set ∧ (CutAlike b.headBoundary set.splits →
      ∀ resolver : SplitFetcher, resolver.ServesSidecars all → ∀ ids : List (Fin u32Bound),
        (∀ pairs, SettlesUnless (· = FetchError.notFound) (set.facetCountsFor resolver ids pairs)
          (.ok (pairs.map (countedAt docs ids)))) ∧
        ∀ [SelectNth] (topPerField : Nat), ∃ counts,
          SettlesUnless (· = FetchError.notFound) (set.facetCountsTop resolver ids topPerField) (.ok counts) ∧
          ∀ pair, ∃ n ≤ countedAt docs ids pair, readCounts counts pair = total n ∧
            (topPerField = 0 → n = countedAt docs ids pair)) := by
  intro b docs all
  obtain ⟨-, st, -, -, hinto⟩ := exists_cutInto hcalls hfin
  have hparts := hinto.distinctKeys_lt hkeys
  obtain ⟨set, hset, hof⟩ := hinto.exists_set hn hne hparts hlen
  refine ⟨set, hset, fun hcut resolver hserves ids => ?_⟩
  have hsizes : ∀ s ∈ st.1, s.bytes.length < u64Bound := by
    intro s hs
    obtain ⟨i, hi⟩ := List.mem_iff_getElem?.mp hs
    exact hinto.bytes_lt hi (hparts s hs)
  exact hinto.settles_counts hn hne hsizes hof hnames hcut hserves ids

end

section

attribute [local instance] PortableCodec.roaring asciiUnicode asciiFilters FlatRouter.fst stableSelect

theorem SplitFetcher.servesSidecars_ofFiles {built : BuiltSplitSet} (h : ((built.splits ++ built.facets).map Prod.fst).Nodup)
    (hnames : ∀ f ∈ built.splits, facetFileName f.1 ∉ built.splits.map Prod.fst) :
    (SplitFetcher.ofFiles (built.splits ++ built.facets)).ServesSidecars built := by
  refine ⟨SplitFetcher.servesBuild_ofFiles h, fun f hf hside => ?_⟩
  have hfind : (built.splits ++ built.facets).find? (fun g => decide (g.1 = facetFileName f.1)) = none := by
    refine List.find?_eq_none.mpr fun g hg heq => ?_
    have hname : g.1 = facetFileName f.1 := of_decide_eq_true heq
    rcases List.mem_append.mp hg with hg | hg
    · exact hnames f hf (hname ▸ List.mem_map_of_mem hg)
    · exact hside (hname ▸ List.mem_map_of_mem hg)
  unfold SplitFetcher.ofFiles
  simp only [hfind]
  rfl

/-- The build of the four documents, and a store of its files. -/
theorem exists_facetedBuild : ∃ built, (BuildRun.calls ⟨tieredTight, [], []⟩ facetedCalls).2.builder.finish = .ok built ∧
    built.manifest.length < u64Bound ∧ ∃ resolver : SplitFetcher, resolver.globalBloomName = none ∧
      resolver.ServesSidecars ⟨built.manifest, (BuildRun.calls ⟨tieredTight, [], []⟩ facetedCalls).2.files ++ built.splits,
        (BuildRun.calls ⟨tieredTight, [], []⟩ facetedCalls).2.facetFiles ++ built.facets⟩ := by
  have hcheck : ((BuildRun.calls ⟨tieredTight, [], []⟩ facetedCalls).2.builder.finish.map fun built =>
      (decide (built.manifest.length < u64Bound), decide ((((BuildRun.calls ⟨tieredTight, [], []⟩ facetedCalls).2.files ++
        built.splits) ++ ((BuildRun.calls ⟨tieredTight, [], []⟩ facetedCalls).2.facetFiles ++ built.facets)).map
        Prod.fst).Nodup, ((BuildRun.calls ⟨tieredTight, [], []⟩ facetedCalls).2.files ++ built.splits).all fun f =>
          !(((BuildRun.calls ⟨tieredTight, [], []⟩ facetedCalls).2.files ++ built.splits).map Prod.fst).contains
            (facetFileName f.1))) = .ok (true, true, true) := by decide +kernel
  cases h : (BuildRun.calls ⟨tieredTight, [], []⟩ facetedCalls).2.builder.finish with
  | error e =>
    rw [h] at hcheck
    cases hcheck
  | ok built =>
    rw [h] at hcheck
    obtain ⟨hlen, hrest⟩ := Prod.mk.inj (Except.ok.inj hcheck)
    obtain ⟨hnodup, hall⟩ := Prod.mk.inj hrest
    refine ⟨built, rfl, of_decide_eq_true hlen, _, rfl,
      SplitFetcher.servesSidecars_ofFiles (of_decide_eq_true hnodup) fun f hf hmem => ?_⟩
    have hf' := List.all_eq_true.mp hall f hf
    rw [List.contains_iff_mem.mpr hmem] at hf'
    cases hf'

theorem facet_counts_build_four : ∃ (r : BuildRun) (built : BuiltSplitSet) (set : SplitSet) (resolver : SplitFetcher),
    BuildRun.calls ⟨tieredTight, [], []⟩ facetedCalls = ([], r) ∧ r.builder.finish = .ok built ∧
    SplitSet.fromBytes built.manifest = .ok set ∧
    SettlesUnless (· = FetchError.notFound) (set.facetCountsFor resolver [wrapAdd 0 0, wrapAdd 0 2, wrapAdd 0 3]
      [("lang", "en"), ("lang", "fr"), ("kind", "b")]) (.ok [2, 1, 0]) ∧
    ∃ counts, SettlesUnless (· = FetchError.notFound) (set.facetCountsTop resolver
      [wrapAdd 0 0, wrapAdd 0 2, wrapAdd 0 3] 0) (.ok counts) ∧ readCounts counts ("lang", "en") = some 2 := by
  have hcalls : BuildRun.calls ⟨tieredTight, [], []⟩ facetedCalls =
      ([], (BuildRun.calls ⟨tieredTight, [], []⟩ facetedCalls).2) := Prod.ext (by decide +kernel) rfl
  obtain ⟨built, h, hlen, resolver, -, hside⟩ := exists_facetedBuild
  obtain ⟨set, hset, hcounts⟩ := @facet_counts_build _ _ (tieredConfig 100 tight_fits) 0 false _ _ _ hcalls h
    (by decide +kernel) (fun h => absurd h (by decide +kernel)) (by decide +kernel) (by decide +kernel) hlen
  obtain ⟨hpairs, htop⟩ := hcounts (Or.inl rfl) resolver hside [wrapAdd 0 0, wrapAdd 0 2, wrapAdd 0 3]
  have hfor := hpairs [("lang", "en"), ("lang", "fr"), ("kind", "b")]
  have hcounted : [("lang", "en"), ("lang", "fr"), ("kind", "b")].map (countedAt
      (BuildCall.documents tieredTight facetedCalls) [wrapAdd 0 0, wrapAdd 0 2, wrapAdd 0 3]) = [2, 1, 0] := by
    decide +kernel
  obtain ⟨counts, hall, hread⟩ := htop 0
  obtain ⟨n, -, hn, heq⟩ := hread ("lang", "en")
  refine ⟨_, built, set, resolver, hcalls, h, hset, ?_, counts, hall, ?_⟩
  · rw [← hcounted]
    exact hfor
  · have htwo : countedAt (BuildCall.documents tieredTight facetedCalls) [wrapAdd 0 0, wrapAdd 0 2, wrapAdd 0 3]
        ("lang", "en") = 2 := (List.cons.inj hcounted).1
    rw [hn, heq rfl]
    exact congrArg total htwo

end

/-! ## Counts and refined searches -/

/-- A category of a field that is not filtered on is asked for besides the filter. -/
theorem BuildDoc.wanted_append {keys : List Key} {filter : List (String × String)} {pair : String × String}
    (hfield : pair.1 ∉ filter.map Prod.fst) (doc : BuildDoc) :
    doc.wanted keys (filter ++ [pair]) = (doc.facets.contains pair && doc.wanted keys filter) := by
  have hother : ∀ q ∈ filter, q.1 ≠ pair.1 := fun q hq heq => hfield (heq ▸ List.mem_map_of_mem hq)
  have hselected : doc.selected (filter ++ [pair]) = true ↔ pair ∈ doc.facets ∧ doc.selected filter = true := by
    rw [BuildDoc.selected_iff, BuildDoc.selected_iff]
    constructor
    · intro h
      refine ⟨?_, fun p hp => ?_⟩
      · obtain ⟨q, hq, hname, hmem⟩ := h pair (List.mem_append_right _ (List.mem_singleton_self _))
        rcases List.mem_append.mp hq with hq | hq
        · exact absurd hname (hother q hq)
        · rwa [List.mem_singleton.mp hq] at hmem
      · obtain ⟨q, hq, hname, hmem⟩ := h p (List.mem_append_left _ hp)
        rcases List.mem_append.mp hq with hq | hq
        · exact ⟨q, hq, hname, hmem⟩
        · rw [List.mem_singleton.mp hq] at hname
          exact absurd hname.symm (hother p hp)
    · rintro ⟨hmem, h⟩ p hp
      rcases List.mem_append.mp hp with hp | hp
      · obtain ⟨q, hq, hname, hin⟩ := h p hp
        exact ⟨q, List.mem_append_left _ hq, hname, hin⟩
      · rw [List.mem_singleton.mp hp]
        exact ⟨pair, List.mem_append_right _ (List.mem_singleton_self _), rfl, hmem⟩
  rw [Bool.eq_iff_iff]
  unfold BuildDoc.wanted
  simp only [Bool.and_eq_true, hselected, List.contains_iff_mem]
  tauto

/-- Counted at the ids of a search, a category counts those of the refined search. -/
theorem countedAt_wanted {docs : List BuildDoc} {keys : List Key} {filter : List (String × String)}
    {ids : List (Fin u32Bound)} (hids : ∀ d, d ∈ ids.map Fin.val ↔ d ∈ docs.findIdxs (BuildDoc.wanted keys filter))
    {pair : String × String} (hfield : pair.1 ∉ filter.map Prod.fst) :
    countedAt docs ids pair = (docs.findIdxs (BuildDoc.wanted keys (filter ++ [pair]))).length := by
  unfold countedAt
  refine congrArg List.length (List.Pairwise.eq_of_mem_iff (List.pairwise_findIdxs.filter _) List.pairwise_findIdxs
    fun d => ?_)
  rw [List.mem_filter, List.contains_iff_mem, hids, List.mem_findIdxs_iff_exists_getElem_pos,
    List.mem_findIdxs_iff_exists_getElem_pos, List.mem_findIdxs_iff_exists_getElem_pos]
  constructor
  · rintro ⟨⟨hlt, hpair⟩, _, hwanted⟩
    refine ⟨hlt, ?_⟩
    rw [BuildDoc.wanted_append hfield, hpair, hwanted]
    rfl
  · rintro ⟨hlt, hwanted⟩
    rw [BuildDoc.wanted_append hfield, Bool.and_eq_true] at hwanted
    exact ⟨⟨hlt, hwanted.1⟩, hlt, hwanted.2⟩

section

variable [Roaring] [Unicode] [TokenFilters] [Fst] {config : SplitBuildConfig} {top : Nat} {v2 : Bool}

/-- **The count beside a category is that of the refined search**: priced over the ids that a full search returns, a category
of a field that the search does not filter on is counted at as many as the search returns with the category in its filter. -/
theorem facet_counts_refine {calls : List BuildCall} {r : BuildRun} {built : BuiltSplitSet}
    (hcalls : BuildRun.calls ⟨SplitSetBuilder.start config top v2, [], []⟩ calls = ([], r))
    (hfin : r.builder.finish = .ok built)
    (hn : (BuildCall.documents (SplitSetBuilder.start config top v2) calls).length ≤ 2 ^ 32)
    (hne : (BuildCall.documents (SplitSetBuilder.start config top v2) calls).length = 2 ^ 32 →
      r.files ++ built.splits ≠ [])
    (hkeys : (distinctKeys (BuildCall.documents (SplitSetBuilder.start config top v2) calls)).length < 2 ^ 32)
    (hnames : (facetNames (BuildCall.documents (SplitSetBuilder.start config top v2) calls)).length < 2 ^ 32)
    (hlen : built.manifest.length < u64Bound)
    (hdoc : ∃ doc ∈ BuildCall.documents (SplitSetBuilder.start config top v2) calls, doc.facets ≠ []) :
    let b := SplitSetBuilder.start config top v2
    let docs := BuildCall.documents b calls
    let all : BuiltSplitSet := ⟨built.manifest, r.files ++ built.splits, r.facetFiles ++ built.facets⟩
    ∃ set, SplitSet.fromBytes built.manifest = .ok set ∧ (CutAlike b.headBoundary set.splits →
      ∀ (resolver : SplitFetcher) (ranking : Option ((Nat → Option Int) × Bool)), resolver.ServesSidecars all →
        resolver.ServesSearch set all docs ranking → ∀ (query : String) (filter : List (String × String))
        (ids : List (Fin u32Bound)),
        Settles (set.searchFiltered resolver query filter usizeMax) (.ok (ids.map Fin.val)) →
        ∃ count : String × String → Nat,
          (∀ pairs, SettlesUnless (· = FetchError.notFound) (set.facetCountsFor resolver ids pairs)
            (.ok (pairs.map count))) ∧
          ∀ pair, pair.1 ∉ filter.map Prod.fst →
            Settles (set.countExact resolver query (filter ++ [pair])) (.ok (count pair))) := by
  intro b docs all
  obtain ⟨-, st, -, -, hinto⟩ := exists_cutInto hcalls hfin
  have hparts := hinto.distinctKeys_lt hkeys
  obtain ⟨set, hset, hof⟩ := hinto.exists_set hn hne hparts hlen
  have hsizes : ∀ s ∈ st.1, s.bytes.length < u64Bound := by
    intro s hs
    obtain ⟨i, hi⟩ := List.mem_iff_getElem?.mp hs
    exact hinto.bytes_lt hi (hparts s hs)
  have hflag := hinto.flagFacet hn hne hsizes hlen hset hdoc
  refine ⟨set, hset, fun hcut resolver ranking hside hserves query filter ids hfound => ?_⟩
  have hsearch := fun filter limit => @CutInto.settles_wanted _ _ _ _ _ _ _ _ _ _ _ _ ranking hinto hof hnames hn hne hparts
    hserves filter (fun _ => ⟨hflag, hcut⟩) query limit
  have hids : ∀ d, d ∈ ids.map Fin.val ↔ d ∈ docs.findIdxs
      (BuildDoc.wanted (ngramKeysWith query set.gramSize set.caseFold) filter) := by
    obtain ⟨hfull, -⟩ := CutInto.settles_counted hn (hsearch filter)
    have heq := Except.ok.inj (congrArg Prod.fst (hfound.calm.symm.trans hfull.calm))
    intro d
    rw [heq]
    exact (perm_baseOrder _ _ _).mem_iff
  refine ⟨countedAt docs ids, (hinto.settles_counts hn hne hsizes hof hnames hcut hside ids).1, fun pair hfield => ?_⟩
  rw [countedAt_wanted hids hfield]
  exact (CutInto.settles_counted hn (hsearch (filter ++ [pair]))).2

end

section

attribute [local instance] PortableCodec.roaring asciiUnicode asciiFilters FlatRouter.fst

theorem facet_counts_refine_four : ∃ (r : BuildRun) (built : BuiltSplitSet) (set : SplitSet) (resolver : SplitFetcher),
    BuildRun.calls ⟨tieredTight, [], []⟩ facetedCalls = ([], r) ∧ r.builder.finish = .ok built ∧
    SplitSet.fromBytes built.manifest = .ok set ∧
    Settles (set.searchFiltered resolver "abc" [] usizeMax) (.ok [0, 2, 3]) ∧
    ∃ n, SettlesUnless (· = FetchError.notFound) (set.facetCountsFor resolver [wrapAdd 0 0, wrapAdd 0 2, wrapAdd 0 3]
      [("lang", "en")]) (.ok [n]) ∧ Settles (set.countExact resolver "abc" [("lang", "en")]) (.ok n) := by
  have hcalls : BuildRun.calls ⟨tieredTight, [], []⟩ facetedCalls =
      ([], (BuildRun.calls ⟨tieredTight, [], []⟩ facetedCalls).2) := Prod.ext (by decide +kernel) rfl
  obtain ⟨built, h, hlen, resolver, hbloom, hside⟩ := exists_facetedBuild
  have hkeys : (distinctKeys (BuildCall.documents tieredTight facetedCalls)).length < 2 ^ 32 := by decide +kernel
  have hnames : (facetNames (BuildCall.documents tieredTight facetedCalls)).length < 2 ^ 32 := by decide +kernel
  have hn : (BuildCall.documents tieredTight facetedCalls).length ≤ 2 ^ 32 := by decide +kernel
  have hne : (BuildCall.documents tieredTight facetedCalls).length ≠ 2 ^ 32 := by decide +kernel
  obtain ⟨set, hset, hrefine⟩ := @facet_counts_refine _ _ _ _ (tieredConfig 100 tight_fits) 0 false _ _ _ hcalls h hn
    (fun h => absurd h hne) hkeys hnames hlen (by decide +kernel)
  obtain ⟨-, st, -, -, hinto⟩ := @exists_cutInto _ _ (tieredConfig 100 tight_fits) 0 false _ _ _ hcalls h
  have hparts := hinto.distinctKeys_lt hkeys
  obtain ⟨set', hset', hof⟩ := hinto.exists_set hn (fun h => absurd h hne) hparts hlen
  obtain rfl : set = set' := Except.ok.inj (hset.symm.trans hset')
  have htiered : set.policy = .tiered := hof.policy.trans (@start_fits (tieredConfig 100 tight_fits) 0 false).2.2.2.2
  have hserves : resolver.ServesSearch set ⟨built.manifest, (BuildRun.calls ⟨tieredTight, [], []⟩ facetedCalls).2.files ++
      built.splits, (BuildRun.calls ⟨tieredTight, [], []⟩ facetedCalls).2.facetFiles ++ built.facets⟩
      (BuildCall.documents tieredTight facetedCalls) none := by
    refine ⟨hside.toServesBuild, fun heq => ?_, fun name hname => ?_⟩
    · rw [htiered] at heq
      cases heq
    · rw [hbloom] at hname
      cases hname
  have hfound := @CutInto.settles_wanted _ _ _ _ _ _ _ _ _ _ _ _ _ hinto hof hnames hn (fun h => absurd h hne) hparts hserves
    [] (fun h => absurd rfl h) "abc"
  have hfull := (CutInto.settles_counted hn hfound).1
  have hplaces : baseOrder set.policy none ((BuildCall.documents tieredTight facetedCalls).findIdxs
      (BuildDoc.wanted (ngramKeysWith "abc" set.gramSize set.caseFold) [])) = [0, 2, 3] := by
    rw [htiered, hof.gramSize, hof.caseFold]
    decide +kernel
  rw [show baseOrder set.policy none _ = [0, 2, 3] from hplaces] at hfull
  obtain ⟨count, hcounts, hcount⟩ := hrefine (Or.inl rfl) resolver none hside hserves "abc" []
    [wrapAdd 0 0, wrapAdd 0 2, wrapAdd 0 3] hfull
  exact ⟨_, built, set, resolver, hcalls, h, hset, hfull, _, hcounts [("lang", "en")], hcount ("lang", "en") List.not_mem_nil⟩

end

end RoaringRange
