import RoaringRange.FacetRoundTrip
import RoaringRange.FilteredSearch
import RoaringRange.WriterSearch

/-!
# Filtered search over a build (`splitset_build.rs`, `splitset.rs`)

A build writes each split's facets to a sidecar, and their keys to the split's summary.  The answer to a filtered query is
read off the documents: those with all the keys and, per selected field, one of the selected categories.

    a split of a build answers with a filter as its documents say                        (CutInto.servesFaceted)
    a filtered search finds the documents, in the order of the policy                       (filtered_build)
-/

namespace RoaringRange

open ByteString Faults Slices Tiles

/-! ## The facets of a split -/

/-- The fields and categories of the map are among the pairs. -/
structure FacetMap.Within (m : FacetMap) (ps : List (String × String)) : Prop where
  fields : ∀ field ∈ m.keys, field ∈ ps.map Prod.fst
  pairs : ∀ p ∈ m.pairs, p ∈ ps

theorem FacetMap.mem_pairs {m : FacetMap} {field category : String} :
    (field, category) ∈ m.pairs ↔ ∃ S, m.posting field category = some S := by
  unfold pairs posting
  simp only [List.mem_flatMap, List.mem_map, Prod.mk.injEq]
  constructor
  · rintro ⟨f, hf, c, hc, rfl, rfl⟩
    rw [OrdMap.find?_eq_some_iff.mpr (show (f.1, f.2) ∈ m.toList from hf), Option.bind_some]
    exact OrdMap.mem_keys_iff.mp hc
  · rintro ⟨S, hS⟩
    obtain ⟨cats, hcats, hS⟩ := Option.bind_eq_some_iff.mp hS
    exact ⟨(field, cats), OrdMap.find?_eq_some_iff.mp hcats, category, OrdMap.mem_keys_iff.mpr ⟨S, hS⟩, rfl, rfl⟩

theorem FacetMap.Within.insertFacet {m : FacetMap} {ps : List (String × String)} (h : m.Within ps) (doc : Fin u32Bound)
    {p : String × String} (hp : p ∈ ps) : (insertFacet m doc p).Within ps := by
  unfold RoaringRange.insertFacet
  refine ⟨fun field hfield => ?_, fun q hq => ?_⟩
  · rcases OrdMap.keys_update_subset.mp hfield with rfl | hfield
    · exact List.mem_map_of_mem hp
    · exact h.fields field hfield
  · obtain ⟨S, hS⟩ := FacetMap.mem_pairs.mp (show (q.1, q.2) ∈ _ from hq)
    unfold FacetMap.posting at hS
    rw [OrdMap.find?_update] at hS
    by_cases hf : q.1 = p.1
    · rw [if_pos hf, Option.bind_some, OrdMap.find?_update] at hS
      by_cases hc : q.2 = p.2
      · rwa [show q = p from Prod.ext hf hc]
      · rw [if_neg hc] at hS
        refine h.pairs q (FacetMap.mem_pairs.mpr ⟨S, ?_⟩)
        unfold FacetMap.posting
        rw [hf]
        cases hcats : m.find? p.1 with
        | none =>
          rw [hcats, Option.getD_none, OrdMap.find?_empty] at hS
          cases hS
        | some cats => rwa [hcats] at hS
    · rw [if_neg hf] at hS
      exact h.pairs q (FacetMap.mem_pairs.mpr ⟨S, hS⟩)

theorem within_facetsOf (docs : List BuildDoc) : (facetsOf docs).Within (docs.flatMap BuildDoc.facets) := by
  have hmono : ∀ {m : FacetMap} {ps qs : List (String × String)}, m.Within ps → m.Within (ps ++ qs) := by
    intro m ps qs h
    refine ⟨fun field hfield => ?_, fun p hp => List.mem_append_left _ (h.pairs p hp)⟩
    rw [List.map_append]
    exact List.mem_append_left _ (h.fields field hfield)
  induction docs using List.reverseRecOn with
  | nil => exact ⟨fun field h => absurd h List.not_mem_nil, fun p h => absurd h List.not_mem_nil⟩
  | append_singleton docs doc ih =>
    rw [facetsOf_snoc, List.flatMap_append, List.flatMap_singleton]
    have hfold : ∀ (ps : List (String × String)) (m : FacetMap), m.Within (docs.flatMap BuildDoc.facets ++ doc.facets) →
        (∀ p ∈ ps, p ∈ doc.facets) →
        (ps.foldl (fun fs p => insertFacet fs (wrapAdd 0 docs.length) p) m).Within
          (docs.flatMap BuildDoc.facets ++ doc.facets) := by
      intro ps
      induction ps with
      | nil => exact fun m hm _ => hm
      | cons p ps ihp =>
        intro m hm hsub
        rw [List.foldl_cons]
        exact ihp _ (hm.insertFacet _ (List.mem_append_right _ (hsub p List.mem_cons_self))) fun q hq =>
          hsub q (List.mem_cons_of_mem _ hq)
    exact hfold doc.facets _ (hmono ih) fun p hp => hp

/-- The names of the documents' fields and categories, each field and each category of a field once. -/
def facetNames (docs : List BuildDoc) : Bytes :=
  ((docs.flatMap BuildDoc.facets).map Prod.fst).dedup.flatMap utf8 ++
    (docs.flatMap BuildDoc.facets).dedup.flatMap fun p => utf8 p.2

theorem length_flatMap_le {α : Type} [DecidableEq α] {xs ys : List α} (hnodup : xs.Nodup) (hsub : xs ⊆ ys) (f : α → Bytes) :
    (xs.flatMap f).length ≤ (ys.dedup.flatMap f).length := by
  obtain ⟨zs, hperm, hsublist⟩ := List.subperm_of_subset hnodup fun x hx => List.mem_dedup.mpr (hsub hx)
  rw [← (hperm.flatMap_right f).length_eq]
  exact (hsublist.flatMap f).length_le

theorem length_pushed (m : FacetMap) : (m.toList.flatMap fun f => utf8 f.1 ++ f.2.toList.flatMap fun c => utf8 c.1).length =
    (m.keys.flatMap utf8).length + (m.pairs.flatMap fun p => utf8 p.2).length := by
  unfold FacetMap.pairs OrdMap.keys
  induction m.toList with
  | nil => rfl
  | cons f fs ih =>
    simp only [List.flatMap_cons, List.map_cons, List.length_append, List.flatMap_append, List.flatMap_map] at ih ⊢
    omega

theorem FacetMap.pairs_nodup (m : FacetMap) : m.pairs.Nodup := by
  unfold pairs
  rw [List.nodup_flatMap]
  refine ⟨fun f _ => f.2.keys_nodup.map fun a b hab => (Prod.mk.inj hab).2, ?_⟩
  have hasc : m.toList.Pairwise fun a b => a.1 ≠ b.1 := m.asc.imp fun h => ne_of_lt h
  refine hasc.imp fun {a b} hne => ?_
  intro x hx hy
  obtain ⟨c, -, rfl⟩ := List.mem_map.mp hx
  obtain ⟨c', -, heq⟩ := List.mem_map.mp hy
  exact hne (Prod.mk.inj heq).1.symm

theorem length_facetNames {docs part : List BuildDoc} (hsub : part ⊆ docs) :
    ((facetsOf part).toList.flatMap fun f => utf8 f.1 ++ f.2.toList.flatMap fun c => utf8 c.1).length ≤
      (facetNames docs).length := by
  have hwithin := within_facetsOf part
  have hfacets : part.flatMap BuildDoc.facets ⊆ docs.flatMap BuildDoc.facets := by
    intro p hp
    obtain ⟨doc, hdoc, hp⟩ := List.mem_flatMap.mp hp
    exact List.mem_flatMap.mpr ⟨doc, hsub hdoc, hp⟩
  rw [length_pushed, facetNames, List.length_append]
  refine Nat.add_le_add (length_flatMap_le (facetsOf part).keys_nodup (fun f hf => ?_) utf8)
    (length_flatMap_le (facetsOf part).pairs_nodup (fun p hp => hfacets (hwithin.pairs p hp)) _)
  obtain ⟨p, hp, rfl⟩ := List.mem_map.mp (hwithin.fields f hf)
  exact List.mem_map_of_mem (hfacets hp)

theorem FacetMap.fits_of_written [Roaring] [Unicode] {m : FacetMap} {headBoundary : Nat} {caseNormalization : Bool}
    {file : Bytes} (hw : writeFacetsWith (facetFields m headBoundary) caseNormalization = .ok file)
    (hnames : (m.toList.flatMap fun f => utf8 f.1 ++ f.2.toList.flatMap fun c => utf8 c.1).length < 2 ^ 32) : m.Fits := by
  have hpushed : PushesFit 0 (pushedNames (facetFields m headBoundary)) := by
    unfold writeFacetsWith at hw
    obtain ⟨r, hplace, -⟩ := exists_of_bind_ok hw
    exact placeFields_ok hplace
  have hdistinct : DistinctNames (facetFields m headBoundary) := by
    have hname : (facetFields m headBoundary).map FacetField.name = m.keys := List.map_map
    refine ⟨by rw [hname]; exact m.keys_nodup, fun f hf => ?_⟩
    obtain ⟨g, hg, rfl⟩ := List.mem_map.mp hf
    have hcats : (g.2.toList.map (facetCategory headBoundary)).map FacetCategory.name = g.2.keys := List.map_map
    rw [hcats]
    exact g.2.keys_nodup
  have hshort : ∀ b ∈ pushedNames (facetFields m headBoundary), b.length < 2 ^ 16 := by
    intro b hb
    obtain ⟨before, after, heq⟩ := List.append_of_mem hb
    rw [heq, pushesFit_append] at hpushed
    exact hpushed.2.2.1
  obtain ⟨hfields, hcats⟩ := hdistinct.counts (by rw [flatten_pushedNames]; omega)
  rw [length_flatMap_cats] at hcats
  refine ⟨?_, hcats, hnames, fun f hf => ?_⟩
  · have hlen : (facetFields m headBoundary).length = m.len := List.length_map _
    rwa [hlen] at hfields
  · have hmem : (⟨f.1, f.2.toList.map (facetCategory headBoundary)⟩ : FacetField) ∈ facetFields m headBoundary :=
      List.mem_map_of_mem hf
    refine ⟨hshort _ (List.mem_flatMap.mpr ⟨_, hmem, List.mem_cons_self⟩), fun c hc => ?_⟩
    refine hshort _ (List.mem_flatMap.mpr ⟨_, hmem, List.mem_cons_of_mem _ ?_⟩)
    exact List.mem_map_of_mem (List.mem_map_of_mem hc)

/-! ## Documents that are selected -/

/-- The document has, per selected field, one of the selected categories. -/
def BuildDoc.selected (filter : List (String × String)) (doc : BuildDoc) : Bool :=
  filter.all fun p => filter.any fun q => q.1 == p.1 && doc.facets.contains q

theorem BuildDoc.selected_iff {filter : List (String × String)} {doc : BuildDoc} :
    doc.selected filter = true ↔ ∀ p ∈ filter, ∃ q ∈ filter, q.1 = p.1 ∧ q ∈ doc.facets := by
  simp [selected]

/-- What a filtered query is after. -/
def BuildDoc.wanted (keys : List Key) (filter : List (String × String)) (doc : BuildDoc) : Bool :=
  doc.hasKeys keys && doc.selected filter

theorem filteredDocs_postsAndUpper {docs : List BuildDoc} (h : docs.length ≤ u32Bound) (keys : List Key)
    (filter : List (String × String)) :
    ((postsAndUpper docs).1.filteredDocs (facetsOf docs) keys filter).toList =
      docs.findIdxs (BuildDoc.wanted keys filter) := by
  refine List.Pairwise.eq_of_mem_iff (AscSet.asc _) List.pairwise_findIdxs fun d => ?_
  have hplaces := strictDocs_postsAndUpper h keys
  unfold PostMap.filteredDocs
  rw [AscSet.mem_toList, AscSet.mem_filter, decide_eq_true_eq, ← AscSet.mem_toList, hplaces,
    List.mem_findIdxs_iff_exists_getElem_pos, List.mem_findIdxs_iff_exists_getElem_pos]
  have hsel : ∀ hlt : d < docs.length, (facetsOf docs).Selects filter d ↔ docs[d].selected filter = true := by
    intro hlt
    rw [BuildDoc.selected_iff]
    unfold FacetMap.Selects
    refine forall₂_congr fun p _ => exists_congr fun q => and_congr_right fun _ => and_congr_right fun _ => ?_
    rw [mem_facetsOf h, List.getElem?_eq_getElem hlt]
    simp
  constructor
  · rintro ⟨⟨hlt, hkeys⟩, hd⟩
    refine ⟨hlt, ?_⟩
    rw [BuildDoc.wanted, hkeys, (hsel hlt).mp hd]
    rfl
  · rintro ⟨hlt, hwanted⟩
    rw [BuildDoc.wanted, Bool.and_eq_true] at hwanted
    exact ⟨⟨hlt, hwanted.1⟩, (hsel hlt).mpr hwanted.2⟩

/-! ## Splits that are passed over -/

section

variable [Unicode] {filter : List (String × String)} {caseFold : Bool}

/-- Each selected field has the keys of its selected categories. -/
theorem mem_selectedKeys {keys : List Key} : keys ∈ selectedKeys filter caseFold ↔
    ∃ p ∈ filter, ((filter.filter fun q => q.1 = p.1).map fun q => facetKey q.1 q.2 caseFold) = keys := by
  have hmem := @OrdMap.mem_values_foldl_push String Key _ (String × String) Prod.fst
    (fun q => [facetKey q.1 q.2 caseFold]) filter keys
  unfold selectedKeys
  rw [hmem]
  refine exists_congr fun p => and_congr_right fun _ => ?_
  rw [List.map_eq_flatMap]

/-- A category of which the map has no presence key has no docs. -/
theorem FacetMap.not_mem_docs {m : FacetMap} {field category : String} (h : facetKey field category caseFold ∉ presenceKeys m caseFold)
    (d : Nat) : d ∉ m.docs field category := by
  unfold docs
  cases hp : m.posting field category with
  | none => exact AscSet.not_mem_empty d
  | some S => exact absurd (mem_presenceKeys.mpr ⟨_, FacetMap.mem_pairs.mpr ⟨S, hp⟩, rfl⟩) h

/-- A selected field none of whose keys is present selects nothing. -/
theorem FacetMap.not_selects {m : FacetMap} {keys : List Key} (hkeys : keys ∈ selectedKeys filter caseFold)
    (h : ∀ k ∈ keys, k ∉ presenceKeys m caseFold) (d : Nat) : ¬ m.Selects filter d := by
  obtain ⟨p, hp, rfl⟩ := mem_selectedKeys.mp hkeys
  intro hsel
  obtain ⟨q, hq, hfield, hd⟩ := hsel p hp
  refine FacetMap.not_mem_docs (h _ (List.mem_map.mpr ⟨q, ?_, rfl⟩)) d hd
  exact List.mem_filter.mpr ⟨hq, decide_eq_true hfield⟩

/-- The facets of a split, as its summary says: their presence keys if there are any. -/
structure TellsFacets (set : SplitSet) (split : Split) (facets : FacetMap) : Prop where
  flag : hasFlag set.flags flagFacet = true
  keys : set.facetKeys split = .ok (if facets.isEmpty then none else some (presenceKeys facets set.caseFold))

/-- **A split is passed over where its presence keys say so**, and rightly. -/
theorem TellsFacets.facetPruned {set : SplitSet} {split : Split} {facets : FacetMap} (h : TellsFacets set split facets)
    (hfilter : filter ≠ []) : ∃ pruned, set.facetPruned split (selectedKeys filter set.caseFold) = .ok pruned ∧
      (pruned = true → ∀ d, ¬ facets.Selects filter d) ∧ (pruned = false → facets.isEmpty = false) := by
  have hsome : selectedKeys filter set.caseFold ≠ [] := by
    obtain ⟨p, hp⟩ := List.exists_mem_of_ne_nil _ hfilter
    exact List.ne_nil_of_mem (mem_selectedKeys.mpr ⟨p, hp, rfl⟩)
  unfold SplitSet.facetPruned
  rw [h.flag, h.keys, List.isEmpty_eq_false_iff.mpr hsome]
  cases hempty : facets.isEmpty with
  | true =>
    refine ⟨true, rfl, fun _ d hsel => ?_, fun h => by cases h⟩
    obtain ⟨p, hp⟩ := List.exists_mem_of_ne_nil _ hfilter
    obtain ⟨q, -, -, hd⟩ := hsel p hp
    have hfind : facets.find? q.1 = none := by
      rw [OrdMap.find?, List.isEmpty_iff.mp hempty]
      rfl
    unfold FacetMap.docs FacetMap.posting at hd
    rw [hfind] at hd
    exact AscSet.not_mem_empty d hd
  | false =>
    refine ⟨_, rfl, fun hpruned d => ?_, fun _ => rfl⟩
    obtain ⟨keys, hkeys, hnone⟩ := List.any_eq_true.mp hpruned
    refine FacetMap.not_selects hkeys (fun k hk hmem => ?_) d
    have hfound := (found_iff presenceKeys_asc).mpr hmem
    rw [Bool.not_eq_true', List.any_eq_false] at hnone
    exact hnone k hk hfound

end

/-! ## The splits of a build -/

/-- The resolver serves the files of a build: its splits, and the sidecars of their facets. -/
structure SplitFetcher.ServesBuild (resolver : SplitFetcher) (built : BuiltSplitSet) : Prop where
  splits : resolver.Serves built.splits
  facets : ∀ f ∈ built.facets, resolver.fetchNamed f.1 = .new f.2

def facetedShelves (parts : List SealedSplit) : List (Shelf × FacetMap) :=
  parts.map fun s => (⟨s.spec, (postsAndUpper s.docs).1⟩, facetsOf s.docs)

/-- No document of the splits is past the eager bound on one side of the boundary and not on the other. -/
def CutAlike (headBoundary : Nat) (splits : List Split) : Prop :=
  headBoundary = eagerDocBound ∨ ∀ split ∈ splits, split.docCount ≤ headBoundary ∧ split.docCount ≤ eagerDocBound

theorem hasFlag_facet (bloom facets caseNormalization : Bool) :
    hasFlag ((if bloom then flagBloom else 0) ||| (if facets then flagFacet else 0) |||
      (if caseNormalization then 0 else flagCaseSensitive)) flagFacet = facets := by
  revert bloom facets caseNormalization
  decide

section

variable [Roaring] [Unicode] {config : SplitBuildConfig} {top : Nat} {v2 : Bool} {docs : List BuildDoc}
  {all : BuiltSplitSet} {st : List SealedSplit × List BuildDoc} {set : SplitSet}

theorem CutInto.flagFacet (h : CutInto (SplitSetBuilder.start config top v2) docs all st) (hn : docs.length ≤ u32Bound)
    (hne : docs.length = u32Bound → all.splits ≠ []) (hsizes : ∀ s ∈ st.1, s.bytes.length < u64Bound)
    (hlen : all.manifest.length < u64Bound) (hset : SplitSet.fromBytes all.manifest = .ok set)
    (hfacets : ∃ doc ∈ docs, doc.facets ≠ []) : hasFlag set.flags RoaringRange.flagFacet = true := by
  obtain ⟨set', hset', -, -, hdesc⟩ := h.exists_described hn hne hsizes hlen
  obtain rfl : set = set' := Except.ok.inj (hset.symm.trans hset')
  obtain ⟨doc, hdoc, hne'⟩ := hfacets
  have hany : ((SplitSetBuilder.start config top v2).holding st.1 st.2 0).hasFacets = true := by
    refine List.any_eq_true.mpr ⟨doc, ?_, ?_⟩
    · rw [h.documents]
      exact hdoc
    · rw [List.isEmpty_eq_false_iff.mpr hne']
      rfl
  have hflag := hasFlag_facet (decide (0 < (SplitSetBuilder.start config top v2).bloomBitsPerKey)) true
    (SplitSetBuilder.start config top v2).caseNormalization
  simp only [decide_eq_true_eq] at hflag
  rw [hdesc.flags]
  unfold SplitSetBuilder.manifestConfig
  rw [hany]
  exact hflag

variable {i : Nat} {s : SealedSplit} {split : Split}

theorem CutInto.facets_fit (h : CutInto (SplitSetBuilder.start config top v2) docs all st)
    (hnames : (facetNames docs).length < 2 ^ 32) (hi : st.1[i]? = some s) (hsome : (facetsOf s.docs).isEmpty = false) :
    (facetsOf s.docs).Fits ∧ ∃ file, writeFacetsWith (facetFields (facetsOf s.docs)
      (SplitSetBuilder.start config top v2).headBoundary) (SplitSetBuilder.start config top v2).caseNormalization = .ok file ∧
      (facetFileName s.spec.dataFile, file) ∈ all.facets := by
  obtain ⟨bytes, more, sidecar, -, hside, hspec⟩ := SplitSetBuilder.cut_ok (h.each i s hi).2
  have hsub : s.docs ⊆ docs := by
    rw [← h.documents]
    exact fun doc hdoc => List.mem_append_left _ (List.mem_flatMap.mpr ⟨s, List.mem_of_getElem? hi, hdoc⟩)
  rcases sealFacetSidecar_ok hside with ⟨hempty, -, -⟩ | ⟨-, file, digest, hw, -, -, hone⟩
  · rw [hempty] at hsome
    cases hsome
  · refine ⟨FacetMap.fits_of_written hw (Nat.lt_of_le_of_lt (length_facetNames hsub) hnames), file, hw, ?_⟩
    rw [h.sidecars]
    refine List.mem_flatMap.mpr ⟨s, List.mem_of_getElem? hi, ?_⟩
    rw [show s.sidecar = sidecar by rw [hspec], hone,
      show s.spec.dataFile = splitStem (SplitSetBuilder.start config top v2).namePrefix i ++ ".rrs" by rw [hspec],
      facetFileName_rrs]
    exact List.mem_singleton_self _

/-- **A split's summary tells its facets.** -/
theorem CutInto.tellsFacets (h : CutInto (SplitSetBuilder.start config top v2) docs all st)
    (hof : set.OfBuild (SplitSetBuilder.start config top v2) st.1) (hflag : hasFlag set.flags RoaringRange.flagFacet = true)
    (hnames : (facetNames docs).length < 2 ^ 32) (hi : st.1[i]? = some s) (hsplit : SplitOf set split s.spec) :
    TellsFacets set split (facetsOf s.docs) := by
  have hs := List.mem_of_getElem? hi
  obtain ⟨rs, hall, hrecord, -⟩ := h.exists_records hs (hof.summary_lt s hs)
  rw [← hof.caseFold] at hrecord
  refine ⟨hflag, ?_⟩
  cases hempty : (facetsOf s.docs).isEmpty with
  | true =>
    rw [hempty] at hrecord
    exact facetKeys_none hsplit hall hrecord
  | false =>
    rw [hempty] at hrecord
    obtain ⟨hfit, -⟩ := h.facets_fit hnames hi hempty
    exact facetKeys_presence hsplit hall hrecord hfit.cats_lt

variable {resolver : SplitFetcher}

theorem CutInto.exists_holds (h : CutInto (SplitSetBuilder.start config top v2) docs all st)
    (hnames : (facetNames docs).length < 2 ^ 32) (hserves : resolver.ServesBuild all) (hi : st.1[i]? = some s)
    (hsome : (facetsOf s.docs).isEmpty = false) : ∃ fi : FacetIndex,
      Settles (FacetIndex.openMeta (resolver.fetchNamed (facetFileName s.spec.dataFile))) (.ok fi) ∧
      fi.Holds (facetsOf s.docs) (SplitSetBuilder.start config top v2).headBoundary := by
  obtain ⟨hfit, file, hw, hfile⟩ := h.facets_fit hnames hi hsome
  obtain ⟨file', fi, hw', -, -, hopen, hholds⟩ := exists_sidecar hfit
    (SplitSetBuilder.start config top v2).headBoundary (SplitSetBuilder.start config top v2).caseNormalization
  obtain rfl : file = file' := Except.ok.inj (hw.symm.trans hw')
  refine ⟨fi, ?_, hholds⟩
  rw [hserves.facets _ hfile]
  exact hopen

omit [Roaring] [Unicode] in
/-- No document of a part is on one side of the boundary and not of the other. -/
theorem CutAlike.same_side {headBoundary : Nat} {splits : List Split} (hcut : CutAlike headBoundary splits)
    (hmem : split ∈ splits) {part : List BuildDoc} (hn : part.length < u32Bound) (hcount : split.docCount = part.length)
    (k : Key) : ∀ d ∈ (postsAndUpper part).1.docs k, d < eagerDocBound ↔ d < headBoundary := by
  intro d hd
  rcases hcut with heq | hle
  · rw [heq]
  · obtain ⟨doc, hd, -⟩ := (mem_postsAndUpper hn.le).mp hd
    have hlt := (List.getElem?_eq_some_iff.mp hd).1
    obtain ⟨h1, h2⟩ := hle split hmem
    exact iff_of_true (by omega) (by omega)

theorem CutInto.length_part_lt (h : CutInto (SplitSetBuilder.start config top v2) docs all st) (hn : docs.length ≤ u32Bound)
    (hi : st.1[i]? = some s) : s.docs.length < u32Bound ∧ s.spec.docCount = s.docs.length := by
  have hlt : s.docs.length < u32Bound := by
    refine Nat.lt_of_le_of_ne ((h.length_part_le (List.mem_of_getElem? hi)).trans hn) fun heq => (h.each i s hi).1 ?_
    rw [heq, Nat.mod_self]
  obtain ⟨bytes, more, sidecar, -, -, hspec⟩ := SplitSetBuilder.cut_ok (h.each i s hi).2
  refine ⟨hlt, ?_⟩
  rw [hspec]
  exact Nat.mod_eq_of_lt hlt

variable [Fst]

/-- **A split of a build answers with a filter as its documents say.** -/
theorem CutInto.servesFaceted (h : CutInto (SplitSetBuilder.start config top v2) docs all st)
    (hof : set.OfBuild (SplitSetBuilder.start config top v2) st.1) (hflag : hasFlag set.flags RoaringRange.flagFacet = true)
    (hcut : CutAlike (SplitSetBuilder.start config top v2).headBoundary set.splits)
    (hnames : (facetNames docs).length < 2 ^ 32) (hserves : resolver.ServesBuild all) (hn : docs.length ≤ u32Bound)
    (hi : st.1[i]? = some s) (hkeys : (distinctKeys s.docs).length < 2 ^ 32) (hmem : split ∈ set.splits)
    (hsplit : SplitOf set split s.spec) :
    ServesFaceted set resolver split (⟨s.spec, (postsAndUpper s.docs).1⟩, facetsOf s.docs) := by
  obtain ⟨hlt, hcount⟩ := h.length_part_lt hn hi
  refine ⟨⟨h.serves hof hserves.splits hi hkeys hsplit, fun filter hfilter => ?_⟩, ?_⟩
  · obtain ⟨pruned, hpruned, hgone, hthere⟩ := (h.tellsFacets hof hflag hnames hi hsplit).facetPruned hfilter
    refine ⟨pruned, hpruned, hgone, fun halive => ?_⟩
    obtain ⟨fi, hopen, hholds⟩ := h.exists_holds hnames hserves hi (hthere halive)
    rw [← hsplit.dataFile] at hopen
    exact ⟨fi, _, hopen, hholds, hcut.same_side hmem hlt (hsplit.docCount.trans hcount)⟩
  · unfold Split.toGlobal Split.absoluteIds
    rw [hsplit.flags, hsplit.docIdLo]
    rfl

theorem CutInto.stockedFacets (h : CutInto (SplitSetBuilder.start config top v2) docs all st)
    (hof : set.OfBuild (SplitSetBuilder.start config top v2) st.1) (hflag : hasFlag set.flags RoaringRange.flagFacet = true)
    (hcut : CutAlike (SplitSetBuilder.start config top v2).headBoundary set.splits)
    (hnames : (facetNames docs).length < 2 ^ 32) (hserves : resolver.ServesBuild all)
    (hkeys : ∀ s ∈ st.1, (distinctKeys s.docs).length < 2 ^ 32) (hn : docs.length ≤ u32Bound) :
    StockedFacets set resolver (facetedShelves st.1) [] := by
  refine ⟨hof.bodyKind, ?_, ?_⟩
  · rw [hof.base, facetedShelves, List.forall₂_map_right_iff]
    have hboth := (List.forall₂_and_left _ _).mpr ⟨fun s (hs : s ∈ st.1) => hs, hof.splits.flip⟩
    have hall := (List.forall₂_and_left _ _).mpr ⟨fun split (hs : split ∈ set.splits) => hs, hboth.flip⟩
    refine hall.imp fun split s hf => ?_
    obtain ⟨hmem, hs, hsplit⟩ := hf
    obtain ⟨i, hi⟩ := List.mem_iff_getElem?.mp hs
    exact h.servesFaceted hof hflag hcut hnames hserves hn hi (hkeys s hs) hmem hsplit
  · rw [hof.delta]
    exact List.Forall₂.nil

end

theorem CutInto.filteredHits_eq [Roaring] [Unicode] {config : SplitBuildConfig} {top : Nat} {v2 : Bool}
    {docs : List BuildDoc} {all : BuiltSplitSet} {st : List SealedSplit × List BuildDoc}
    (h : CutInto (SplitSetBuilder.start config top v2) docs all st) (hn : docs.length ≤ u32Bound)
    (hne : docs.length = u32Bound → all.splits ≠ []) (hsizes : ∀ s ∈ st.1, s.bytes.length < u64Bound) (keys : List Key)
    (filter : List (String × String)) :
    (facetedShelves st.1).flatMap (filteredHits keys filter) = docs.findIdxs (BuildDoc.wanted keys filter) := by
  unfold facetedShelves
  rw [List.flatMap_map, ← h.places_eq hn hne hsizes]
  refine List.flatMap_congr fun s hs => ?_
  unfold filteredHits
  rw [filteredDocs_postsAndUpper ((h.length_part_le hs).trans hn)]

/-! ## The search -/

section

variable [Roaring] [Unicode] {config : SplitBuildConfig} {top : Nat} {v2 : Bool} {docs : List BuildDoc}
  {all : BuiltSplitSet} {st : List SealedSplit × List BuildDoc} {set : SplitSet}

theorem CutInto.exists_unmasked (h : CutInto (SplitSetBuilder.start config top v2) docs all st)
    (hof : set.OfBuild (SplitSetBuilder.start config top v2) st.1) :
    ∃ dead : Bitmap, set.dead = .ok dead ∧ ∀ d, d ∉ dead := by
  have hnone : ∀ spec ∈ set.splits.map (SplitSetWriter.carried set), parseTombstone spec.summary = .ok none := by
    intro spec hspec
    obtain ⟨split, hsplit, rfl⟩ := List.mem_map.mp hspec
    obtain ⟨s, hs, hsof⟩ := exists_partner hof.splits hsplit
    rw [show (SplitSetWriter.carried set split).summary = (set.summary split).getD [] from rfl, hsof.summary]
    exact h.parseTombstone_eq hs (hof.summary_lt s hs)
  obtain ⟨dead, hdead, hmasked⟩ := @exists_dead _ set fun spec hspec => ⟨_, hnone spec hspec⟩
  refine ⟨dead, hdead, fun d hd => ?_⟩
  obtain ⟨spec, hspec, ids, hids, -⟩ := (hmasked d).mp hd
  rw [hnone spec hspec] at hids
  cases hids

variable [TokenFilters] [Fst] {resolver : SplitFetcher} {ranking : Option ((Nat → Option Int) × Bool)}

/-- The resolver serves what a search of a build needs: its files, its sort column, and the global filter, if there is one. -/
structure SplitFetcher.ServesSearch (resolver : SplitFetcher) (set : SplitSet) (built : BuiltSplitSet)
    (docs : List BuildDoc) (ranking : Option ((Nat → Option Int) × Bool)) : Prop where
  files : resolver.ServesBuild built
  ranked : set.policy = .stableKey → RankedBy set.sortcol resolver docs.length ranking
  bloom : resolver.BloomOver fun k => k ∈ distinctKeys docs

section

variable {dead : Bitmap} {indexed : Key → Prop}

/-- A set of a build's shelves, with nothing masked, finds the places of the documents with the keys, in the order of the
policy. -/
theorem Stocked.settles_places {base : List Shelf} (h : Stocked set resolver base []) (hdead : set.dead = .ok dead)
    (hnone : ∀ d, d ∉ dead) (hhits : ∀ keys, shelfHits base keys = docs.findIdxs (BuildDoc.hasKeys keys))
    (hranked : set.policy = .stableKey → RankedBy set.sortcol resolver docs.length ranking)
    (hbloom : resolver.BloomOver indexed) (hindexed : ∀ s ∈ base, ∀ k, ∀ l ∈ s.posts.docs k, indexed k) (query : String)
    (limit : Nat) : Settles (set.search resolver query limit) (.ok ((baseOrder set.policy ranking
      (docs.findIdxs (BuildDoc.hasKeys (ngramKeysWith query set.gramSize set.caseFold)))).take limit)) := by
  have hsearch := h.settles_search hdead (fun _ => hnone) (fun keys => by rw [hhits]; exact List.pairwise_findIdxs)
    (fun keys d hd => by
      rw [hhits] at hd
      have := List.lt_add_of_mem_findIdxs d hd
      omega) hranked hbloom hindexed query limit
  have hlive : ∀ keys, liveHits set.policy ranking base [] dead keys =
      baseOrder set.policy ranking (docs.findIdxs (BuildDoc.hasKeys keys)) := by
    intro keys
    unfold liveHits
    rw [List.filter_eq_self.mpr fun d _ => decide_eq_true (hnone d), hhits]
    exact List.append_nil _
  rwa [hlive] at hsearch

/-- The same with a filter, of the documents that are wanted. -/
theorem StockedFacets.settles_places {base : List (Shelf × FacetMap)} (h : StockedFacets set resolver base [])
    (hdead : set.dead = .ok dead) (hnone : ∀ d, d ∉ dead) {filter : List (String × String)} (hfilter : filter ≠ [])
    (hhits : ∀ keys, base.flatMap (filteredHits keys filter) = docs.findIdxs (BuildDoc.wanted keys filter))
    (hranked : set.policy = .stableKey → RankedBy set.sortcol resolver docs.length ranking)
    (hbloom : resolver.BloomOver indexed) (hindexed : ∀ x ∈ base, ∀ k, ∀ l ∈ x.1.posts.docs k, indexed k) (query : String)
    (limit : Nat) : Settles (set.searchFiltered resolver query filter limit) (.ok ((baseOrder set.policy ranking
      (docs.findIdxs (BuildDoc.wanted (ngramKeysWith query set.gramSize set.caseFold) filter))).take limit)) := by
  have hsearch := h.settles_searchFiltered hfilter hdead (fun _ => hnone)
    (fun keys => by rw [hhits]; exact List.pairwise_findIdxs) (fun keys d hd => by
      rw [hhits] at hd
      have := List.lt_add_of_mem_findIdxs d hd
      omega) hranked hbloom hindexed query limit
  have hlive : ∀ keys, filteredLive set.policy ranking base [] dead keys filter =
      baseOrder set.policy ranking (docs.findIdxs (BuildDoc.wanted keys filter)) := by
    intro keys
    unfold filteredLive
    rw [List.filter_eq_self.mpr fun d _ => decide_eq_true (hnone d), hhits]
    exact List.append_nil _
  rwa [hlive] at hsearch

end

/-- A search of the set finds the places of the documents with the keys, in the order of the policy. -/
theorem CutInto.settles_plain (h : CutInto (SplitSetBuilder.start config top v2) docs all st)
    (hof : set.OfBuild (SplitSetBuilder.start config top v2) st.1) (hn : docs.length ≤ u32Bound)
    (hne : docs.length = u32Bound → all.splits ≠ []) (hkeys : ∀ s ∈ st.1, (distinctKeys s.docs).length < 2 ^ 32)
    (hserves : resolver.ServesSearch set all docs ranking) (query : String) (limit : Nat) :
    Settles (set.search resolver query limit) (.ok ((baseOrder set.policy ranking
      (docs.findIdxs (BuildDoc.hasKeys (ngramKeysWith query set.gramSize set.caseFold)))).take limit)) := by
  have hb := h.buildShelves hn hne hkeys hof.summary_lt
  obtain ⟨dead, hdead, hnone⟩ := h.exists_unmasked hof
  have hstocked : Stocked set resolver (baseShelves st.1) [] := by
    refine ⟨hof.bodyKind, ?_, ?_⟩
    · rw [hof.base, baseShelves, List.forall₂_map_right_iff]
      have hboth := (List.forall₂_and_left _ _).mpr ⟨fun s (hs : s ∈ st.1) => hs, hof.splits.flip⟩
      refine hboth.flip.imp fun split s hf => ?_
      obtain ⟨hs, hsplit⟩ := hf
      obtain ⟨i, hi⟩ := List.mem_iff_getElem?.mp hs
      refine ⟨h.serves hof hserves.files.splits hi (hkeys s hs) hsplit, ?_⟩
      unfold Split.toGlobal Split.absoluteIds
      rw [hsplit.flags, hsplit.docIdLo]
      rfl
    · rw [hof.delta]
      exact List.Forall₂.nil
  exact hstocked.settles_places hdead hnone hb.hits hserves.ranked hserves.bloom hb.indexed query limit

/-- A filtered search of the set finds the places of the documents that are wanted. -/
theorem CutInto.settles_filtered (h : CutInto (SplitSetBuilder.start config top v2) docs all st)
    (hof : set.OfBuild (SplitSetBuilder.start config top v2) st.1) (hflag : hasFlag set.flags RoaringRange.flagFacet = true)
    (hcut : CutAlike (SplitSetBuilder.start config top v2).headBoundary set.splits)
    (hnames : (facetNames docs).length < 2 ^ 32) (hn : docs.length ≤ u32Bound)
    (hne : docs.length = u32Bound → all.splits ≠ []) (hkeys : ∀ s ∈ st.1, (distinctKeys s.docs).length < 2 ^ 32)
    (hserves : resolver.ServesSearch set all docs ranking) {filter : List (String × String)} (hfilter : filter ≠ [])
    (query : String) (limit : Nat) :
    Settles (set.searchFiltered resolver query filter limit) (.ok ((baseOrder set.policy ranking
      (docs.findIdxs (BuildDoc.wanted (ngramKeysWith query set.gramSize set.caseFold) filter))).take limit)) := by
  have hsizes : ∀ s ∈ st.1, s.bytes.length < u64Bound := by
    intro s hs
    obtain ⟨i, hi⟩ := List.mem_iff_getElem?.mp hs
    exact h.bytes_lt hi (hkeys s hs)
  have hb := h.buildShelves hn hne hkeys hof.summary_lt
  obtain ⟨dead, hdead, hnone⟩ := h.exists_unmasked hof
  have hstocked := h.stockedFacets hof hflag hcut hnames hserves.files hkeys hn
  refine hstocked.settles_places hdead hnone hfilter (fun keys => h.filteredHits_eq hn hne hsizes keys filter)
    hserves.ranked hserves.bloom (fun x hx => ?_) query limit
  obtain ⟨s, hs, rfl⟩ := List.mem_map.mp hx
  exact hb.indexed _ (List.mem_map_of_mem hs)

omit [Roaring] [Unicode] [TokenFilters] [Fst] in
theorem BuildDoc.wanted_nil (keys : List Key) : BuildDoc.wanted keys [] = BuildDoc.hasKeys keys := by
  funext doc
  unfold wanted selected
  rw [List.all_nil, Bool.and_true]

/-- A search, with a filter or without, finds the places of the documents that are wanted. -/
theorem CutInto.settles_wanted (h : CutInto (SplitSetBuilder.start config top v2) docs all st)
    (hof : set.OfBuild (SplitSetBuilder.start config top v2) st.1) (hnames : (facetNames docs).length < 2 ^ 32)
    (hn : docs.length ≤ u32Bound) (hne : docs.length = u32Bound → all.splits ≠ [])
    (hkeys : ∀ s ∈ st.1, (distinctKeys s.docs).length < 2 ^ 32) (hserves : resolver.ServesSearch set all docs ranking)
    {filter : List (String × String)} (hfacets : filter ≠ [] → hasFlag set.flags RoaringRange.flagFacet = true ∧
      CutAlike (SplitSetBuilder.start config top v2).headBoundary set.splits) (query : String) (limit : Nat) :
    Settles (set.searchFiltered resolver query filter limit) (.ok ((baseOrder set.policy ranking
      (docs.findIdxs (BuildDoc.wanted (ngramKeysWith query set.gramSize set.caseFold) filter))).take limit)) := by
  by_cases hfilter : filter = []
  · unfold SplitSet.searchFiltered
    by_cases hzero : limit = 0
    · rw [if_pos hzero, hzero, List.take_zero]
      exact Settles.pure _
    · rw [if_neg hzero, hfilter, if_pos List.isEmpty_nil, BuildDoc.wanted_nil]
      exact h.settles_plain hof hn hne hkeys hserves query limit
  · obtain ⟨hflag, hcut⟩ := hfacets hfilter
    exact h.settles_filtered hof hflag hcut hnames hn hne hkeys hserves hfilter query limit

/-- A full search is counted. -/
theorem CutInto.settles_counted (hn : docs.length ≤ u32Bound) {query : String} {filter : List (String × String)}
    {p : BuildDoc → Bool} (hsearch : ∀ limit, Settles (set.searchFiltered resolver query filter limit)
      (.ok ((baseOrder set.policy ranking (docs.findIdxs p)).take limit))) :
    Settles (set.searchFiltered resolver query filter usizeMax) (.ok (baseOrder set.policy ranking (docs.findIdxs p))) ∧
      Settles (set.countExact resolver query filter) (.ok (docs.findIdxs p).length) := by
  have hperm := perm_baseOrder set.policy ranking (docs.findIdxs p)
  have hall : (baseOrder set.policy ranking (docs.findIdxs p)).take usizeMax =
      baseOrder set.policy ranking (docs.findIdxs p) := by
    refine take_usizeMax (hperm.nodup_iff.mpr List.nodup_findIdxs) fun d hd => ?_
    have hlt := List.lt_add_of_mem_findIdxs d (hperm.mem_iff.mp hd)
    exact Nat.lt_of_lt_of_le hlt hn
  have hmax := hsearch usizeMax
  rw [hall] at hmax
  refine ⟨hmax, ?_⟩
  have hcounted : Settles (set.countedIds resolver query filter)
      (.ok (baseOrder set.policy ranking (docs.findIdxs p))) := by
    unfold SplitSet.countedIds
    split
    · next hempty =>
      unfold SplitSet.searchFiltered at hmax
      rwa [if_neg (by decide), if_pos hempty] at hmax
    · exact hmax
  unfold SplitSet.countExact
  refine hcounted.bind ?_
  rw [hperm.length_eq]
  exact Settles.pure _

/-- **A filtered search finds the documents**: those with all the query's keys and, per selected field, one of the selected
categories, in the order of the policy, as many as are wanted; and `count_exact` counts them. -/
theorem filtered_build {calls : List BuildCall} {r : BuildRun} {built : BuiltSplitSet}
    (hcalls : BuildRun.calls ⟨SplitSetBuilder.start config top v2, [], []⟩ calls = ([], r))
    (hfin : r.builder.finish = .ok built)
    (hn : (BuildCall.documents (SplitSetBuilder.start config top v2) calls).length ≤ 2 ^ 32)
    (hne : (BuildCall.documents (SplitSetBuilder.start config top v2) calls).length = 2 ^ 32 →
      r.files ++ built.splits ≠ [])
    (hkeys : (distinctKeys (BuildCall.documents (SplitSetBuilder.start config top v2) calls)).length < 2 ^ 32)
    (hnames : (facetNames (BuildCall.documents (SplitSetBuilder.start config top v2) calls)).length < 2 ^ 32)
    (hlen : built.manifest.length < u64Bound) :
    let b := SplitSetBuilder.start config top v2
    let docs := BuildCall.documents b calls
    let all : BuiltSplitSet := ⟨built.manifest, r.files ++ built.splits, r.facetFiles ++ built.facets⟩
    ∃ set, SplitSet.fromBytes built.manifest = .ok set ∧ set.policy = config.policy ∧
      ∀ (resolver : SplitFetcher) (ranking : Option ((Nat → Option Int) × Bool)),
        resolver.ServesSearch set all docs ranking → ∀ (query : String) (filter : List (String × String)),
        (filter ≠ [] → (∃ doc ∈ docs, doc.facets ≠ []) ∧ CutAlike b.headBoundary set.splits) →
        let places := docs.findIdxs (BuildDoc.wanted (ngramKeysWith query b.gramSize b.caseNormalization) filter)
        (∀ limit, Settles (set.searchFiltered resolver query filter limit)
          (.ok ((baseOrder config.policy ranking places).take limit))) ∧
        Settles (set.countExact resolver query filter) (.ok places.length) := by
  intro b docs all
  obtain ⟨-, st, -, -, hinto⟩ := exists_cutInto hcalls hfin
  have hparts := hinto.distinctKeys_lt hkeys
  obtain ⟨set, hset, hof⟩ := hinto.exists_set hn hne hparts hlen
  have hpolicy : set.policy = config.policy := hof.policy.trans (@start_fits config top v2).2.2.2.2
  refine ⟨set, hset, hpolicy, fun resolver ranking hserves query filter hfacets => ?_⟩
  intro places
  have hsizes : ∀ s ∈ st.1, s.bytes.length < u64Bound := by
    intro s hs
    obtain ⟨i, hi⟩ := List.mem_iff_getElem?.mp hs
    exact hinto.bytes_lt hi (hparts s hs)
  have hsearch := fun limit => hinto.settles_wanted hof hnames hn hne hparts hserves (fun hfilter =>
    ⟨hinto.flagFacet hn hne hsizes hlen hset (hfacets hfilter).1, (hfacets hfilter).2⟩) query limit
  obtain ⟨-, hcount⟩ := CutInto.settles_counted hn hsearch
  rw [hpolicy, hof.gramSize, hof.caseFold] at hsearch
  rw [hof.gramSize, hof.caseFold] at hcount
  exact ⟨hsearch, hcount⟩

end

section

attribute [local instance] PortableCodec.roaring asciiUnicode asciiFilters FlatRouter.fst

theorem SplitFetcher.servesBuild_ofFiles {built : BuiltSplitSet} (h : ((built.splits ++ built.facets).map Prod.fst).Nodup) :
    (SplitFetcher.ofFiles (built.splits ++ built.facets)).ServesBuild built := by
  have hall := SplitFetcher.serves_ofFiles h
  refine ⟨⟨fun f hf => hall.file f (List.mem_append_left _ hf), fun split boot hb => by cases hb⟩, fun f hf => ?_⟩
  exact hall.file f (List.mem_append_right _ hf)

/-- Four documents: the first and the last have the key and the category of the query, the others lack one of them. -/
def facetedCalls : List BuildCall :=
  [.addFaceted "abc" [("lang", "en")], .addFaceted "abd" [("lang", "en")], .addFaceted "abc" [("lang", "fr")], .drainSealed,
    .addFaceted "abc" [("kind", "a"), ("lang", "en")]]

theorem filtered_build_four : ∃ (r : BuildRun) (built : BuiltSplitSet) (set : SplitSet) (resolver : SplitFetcher),
    BuildRun.calls ⟨tieredTight, [], []⟩ facetedCalls = ([], r) ∧ r.builder.finish = .ok built ∧
    SplitSet.fromBytes built.manifest = .ok set ∧
    Settles (set.searchFiltered resolver "abc" [("lang", "en")] 2) (.ok [0, 3]) ∧
    Settles (set.countExact resolver "abc" [("lang", "en")]) (.ok 2) := by
  have hcalls : BuildRun.calls ⟨tieredTight, [], []⟩ facetedCalls =
      ([], (BuildRun.calls ⟨tieredTight, [], []⟩ facetedCalls).2) := Prod.ext (by decide +kernel) rfl
  have hcheck : ((BuildRun.calls ⟨tieredTight, [], []⟩ facetedCalls).2.builder.finish.map fun built =>
      (decide (built.manifest.length < u64Bound), decide (((((BuildRun.calls ⟨tieredTight, [], []⟩ facetedCalls).2.files ++
        built.splits) ++ ((BuildRun.calls ⟨tieredTight, [], []⟩ facetedCalls).2.facetFiles ++ built.facets)).map
        Prod.fst).Nodup))) = .ok (true, true) := by decide +kernel
  cases h : (BuildRun.calls ⟨tieredTight, [], []⟩ facetedCalls).2.builder.finish with
  | error e =>
    rw [h] at hcheck
    cases hcheck
  | ok built =>
    rw [h] at hcheck
    obtain ⟨hlen, hnames⟩ := Prod.mk.inj (Except.ok.inj hcheck)
    obtain ⟨set, hset, hpolicy, hsearch⟩ := @filtered_build _ _ (tieredConfig 100 tight_fits) 0 false _ _ _ _ _ hcalls h
      (by decide +kernel) (fun h => absurd h (by decide +kernel)) (by decide +kernel) (by decide +kernel)
      (of_decide_eq_true hlen)
    have htiered : set.policy ≠ .stableKey := by
      rw [hpolicy]
      decide
    obtain ⟨hfound, hcount⟩ := hsearch _ none ⟨SplitFetcher.servesBuild_ofFiles (of_decide_eq_true hnames),
      fun heq => absurd heq htiered, fun name hname => by cases hname⟩ "abc" [("lang", "en")] fun _ =>
        ⟨by decide +kernel, Or.inl rfl⟩
    refine ⟨_, built, set, _, hcalls, h, hset, ?_, hcount⟩
    have hplaces : (baseOrder .tiered none ((BuildCall.documents tieredTight facetedCalls).findIdxs
        (BuildDoc.wanted (ngramKeysWith "abc" tieredTight.gramSize tieredTight.caseNormalization)
          [("lang", "en")]))).take 2 = [0, 3] := by decide +kernel
    rw [← hplaces]
    exact hfound 2

end

end RoaringRange
