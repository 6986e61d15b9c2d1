import RoaringRange.SplitFacets

/-!
# Facet counts and the digest (`splitset.rs`)

A manifest may keep a digest of the sidecar of each split.  Named pairs are priced alike with and without it.  The
top categories of a field are not where categories tie at the cut-off: a digest keeps those that come first by
name, a sidecar's selection keeps any of them.

    the counts are the same with and without digests  ↔  no category tied at the cut-off of a split
    that a digest of `top` fits has a doc among the ids                        (digestFree_iff_untied)
-/

namespace RoaringRange

open ByteString Faults Slices TopK

/-! ## Faceted splits -/

/-- The facets that a split indexed, and where their postings are cut. -/
structure SplitFacets where
  map : FacetMap
  headBoundary : Nat
  fits : map.Fits
  boundary : bucketSize ≤ headBoundary

/-- The sidecar of a split. -/
def SplitSpec.sidecar (spec : SplitSpec) (resolver : SplitFetcher) : MemoryFetch :=
  resolver.fetchNamed (facetFileName spec.dataFile)

/-- The meta of the sidecar of a split, if it can be opened. -/
def SplitSpec.facetMeta (spec : SplitSpec) (resolver : SplitFetcher) : Option FacetIndex :=
  ((FacetIndex.openMeta (spec.sidecar resolver)).run Schedule.calm).1.toOption

section

variable [Roaring] [Unicode]

/-- A split and its facets: no digest is in its summary, a facet-presence record is that of its facets, and its
sidecar is their file.  A split without facets has no sidecar. -/
structure Faceted (resolver : SplitFetcher) (caseFold : Bool) (spec : SplitSpec) (facets : Option SplitFacets) : Prop where
  records : ∃ rs, SummaryOf spec.summary rs ∧ recordOf rs summaryTagFacetDigest = none ∧
    recordOf rs summaryTagFacetDigestV2 = none ∧ ∀ payload, recordOf rs summaryTagFacet = some payload →
      ∃ s, facets = some s ∧ payload = facetPresence s.map caseFold
  missing : facets = none → (spec.sidecar resolver).missing = true
  file : ∀ s, facets = some s → ∃ file, writeFacetsWith (facetFields s.map s.headBoundary) caseFold = .ok file ∧
    spec.sidecar resolver = MemoryFetch.new file

end

/-- The summary is kept as it is, or a digest of the sidecar is put last. -/
inductive CarriesDigest (sidecar : MemoryFetch) (summary : Bytes) : Bytes → Prop
  | absent : CarriesDigest sidecar summary summary
  | first {k : Nat} {payload : Bytes} (there : sidecar.missing = false) (digest : facetDigest sidecar.bytes k = .ok payload)
      (fits : (summary ++ tlvRecord summaryTagFacetDigest payload).length < 2 ^ 32) :
      CarriesDigest sidecar summary (summary ++ tlvRecord summaryTagFacetDigest payload)
  | second {k : Nat} {payload : Bytes} (there : sidecar.missing = false)
      (digest : facetDigestV2 sidecar.bytes k = .ok payload)
      (fits : (summary ++ tlvRecord summaryTagFacetDigestV2 payload).length < 2 ^ 32) :
      CarriesDigest sidecar summary (summary ++ tlvRecord summaryTagFacetDigestV2 payload)

/-- The split, with a digest in its summary or without. -/
def SplitSpec.Carries (resolver : SplitFetcher) (spec spec' : SplitSpec) : Prop :=
  ∃ summary, CarriesDigest (spec.sidecar resolver) spec.summary summary ∧ spec' = { spec with summary := summary }

/-- An open manifest of the splits, each with a digest or without. -/
def SplitSet.CarriesDigests (set : SplitSet) (resolver : SplitFetcher) (config : SplitSetConfig)
    (specs : List SplitSpec) : Prop :=
  ∃ specs', List.Forall₂ (SplitSpec.Carries resolver) specs specs' ∧ set.Describes config specs'

/-- A first-version digest of `n` fits after the summary. -/
def DigestFits (sidecar : MemoryFetch) (summary : Bytes) (n : Nat) : Prop :=
  ∃ payload, facetDigest sidecar.bytes n = .ok payload ∧
    (summary ++ tlvRecord summaryTagFacetDigest payload).length < 2 ^ 32

/-! ## The digest of a summary -/

theorem bind_digestOf (set : SplitSet) (split : Split) :
    (set.summary split).bind digestOf = digestOf ((set.summary split).getD []) := by
  cases set.summary split <;> rfl

theorem digestOf_none {summary : Bytes} {rs : List (Nat × Bytes)} (h : SummaryOf summary rs)
    (h1 : recordOf rs summaryTagFacetDigest = none) (h2 : recordOf rs summaryTagFacetDigestV2 = none) :
    digestOf summary = none := by
  unfold digestOf
  rw [h.findTlv_eq, h.findTlv_eq, h1, h2]

theorem digestOf_first {summary : Bytes} {rs : List (Nat × Bytes)} (h : SummaryOf summary rs)
    (h1 : recordOf rs summaryTagFacetDigest = none) (h2 : recordOf rs summaryTagFacetDigestV2 = none) {payload : Bytes}
    (hlen : (summary ++ tlvRecord summaryTagFacetDigest payload).length < 2 ^ 32) :
    digestOf (summary ++ tlvRecord summaryTagFacetDigest payload) = (parseFacetDigest payload).toOption := by
  have hs := h.append (show summaryTagFacetDigest < 256 by decide) hlen
  unfold digestOf
  rw [hs.findTlv_eq, hs.findTlv_eq, recordOf_append, recordOf_append, h1, h2]
  rfl

theorem digestOf_second {summary : Bytes} {rs : List (Nat × Bytes)} (h : SummaryOf summary rs)
    (h2 : recordOf rs summaryTagFacetDigestV2 = none) {payload : Bytes}
    (hlen : (summary ++ tlvRecord summaryTagFacetDigestV2 payload).length < 2 ^ 32) :
    digestOf (summary ++ tlvRecord summaryTagFacetDigestV2 payload) = (parseFacetDigestV2 payload).toOption := by
  have hs := h.append (show summaryTagFacetDigestV2 < 256 by decide) hlen
  unfold digestOf
  rw [hs.findTlv_eq, recordOf_append, h2]
  rfl

/-! ## What a split's meta is read from -/

section

variable [Unicode] {set : SplitSet} {split : Split} {f : MemoryFetch}

/-- Without a digest the sidecar is opened. -/
theorem facetPricingMeta_none (hd : digestOf ((set.summary split).getD []) = none) (topPerField : Nat)
    (pairs : Option (List (String × String))) :
    set.facetPricingMeta split f topPerField pairs = FacetIndex.openMeta f := by
  unfold SplitSet.facetPricingMeta
  rw [bind_digestOf, hd]

/-- A digest serves the top of each field, if it is no shorter. -/
theorem settles_facetPricingMeta_top {digest : Nat × List Field}
    (hd : digestOf ((set.summary split).getD []) = some digest) (topPerField : Nat) {r : Except IndexError FacetIndex}
    (hopen : Settles (FacetIndex.openMeta f) r) : Settles (set.facetPricingMeta split f topPerField none)
      (if topPerField ≠ 0 ∧ topPerField ≤ digest.1 then .ok ⟨f, digest.2⟩ else r) := by
  unfold SplitSet.facetPricingMeta
  rw [bind_digestOf, hd]
  refine (Settles.ofOutcome (.ok _)).bind ?_
  by_cases hu : topPerField ≠ 0 ∧ topPerField ≤ digest.1
  · rw [if_pos hu, if_pos (by simpa using hu)]
    exact Settles.pure _
  · rw [if_neg hu, if_neg (by simpa using hu)]
    exact hopen

end

section

variable [Roaring] {resolver : SplitFetcher} {spec : SplitSpec}

/-- The meta of a sidecar that is read back. -/
structure Opens (resolver : SplitFetcher) (spec : SplitSpec) (s : SplitFacets) (fi : FacetIndex) : Prop where
  there : (spec.sidecar resolver).missing = false
  facetMeta : spec.facetMeta resolver = some fi
  settles : Settles (FacetIndex.openMeta (spec.sidecar resolver)) (.ok fi)
  sidecarOf : fi.SidecarOf s.map s.headBoundary (spec.sidecar resolver).bytes
  file : spec.sidecar resolver = MemoryFetch.new (spec.sidecar resolver).bytes

namespace Opens

variable {s : SplitFacets} {fi : FacetIndex}

theorem bare (h : Opens resolver spec s fi) : fi.Bare := fun _ hf _ hc => (h.sidecarOf.posts s.boundary hf hc).2.1

theorem named (h : Opens resolver spec s fi) : fi.Named := h.sidecarOf.named

theorem postsHold (h : Opens resolver spec s fi) : fi.PostsHold fi.headDocs fi.tailDocs :=
  h.sidecarOf.postsHold s.boundary

end Opens

/-- A digest that a summary carries is one of the meta, and a smaller first-version digest would fit too. -/
structure DigestOf (resolver : SplitFetcher) (spec : SplitSpec) (fi : FacetIndex) (summary : Bytes) (k : Nat)
    (dirOf : Category → Option (List Container)) : Prop where
  digest : digestOf summary = some (k, (fi.digested dirOf k).fields)
  dir : ∀ c dir, dirOf c = some dir →
    parseDir (slice (spec.sidecar resolver).bytes c.range.tailOff c.range.tailSize) c.range.tailSize = some dir
  lt : k < 2 ^ 16
  fits : ∀ n ≤ k, DigestFits (spec.sidecar resolver) spec.summary n

variable [Unicode] {caseFold : Bool} {facets : Option SplitFacets}

/-- A split has no facets, or its sidecar opens. -/
theorem Faceted.cases (h : Faceted resolver caseFold spec facets) :
    (facets = none ∧ spec.facetMeta resolver = none ∧ (spec.sidecar resolver).missing = true ∧
      Settles (FacetIndex.openMeta (spec.sidecar resolver)) (.error (.fetch .notFound))) ∨
    ∃ s fi, facets = some s ∧ Opens resolver spec s fi := by
  cases hfacets : facets with
  | none =>
    have hmissing := h.missing hfacets
    have hopen : Settles (FacetIndex.openMeta (spec.sidecar resolver)) (.error (.fetch .notFound)) := by
      unfold FacetIndex.openMeta
      refine Settles.bind_error ?_
      unfold MemoryFetch.read
      rw [MemoryFetch.answer_of_missing hmissing]
      exact Settles.access _
    refine Or.inl ⟨rfl, ?_, hmissing, hopen⟩
    rw [SplitSpec.facetMeta, hopen.calm]
    rfl
  | some s =>
    obtain ⟨file, hwrite, hfile⟩ := h.file s hfacets
    obtain ⟨file', fi, hwrite', hopen, hside⟩ := exists_sidecarOf s.fits s.headBoundary caseFold
    obtain rfl : file = file' := Except.ok.inj (hwrite.symm.trans hwrite')
    refine Or.inr ⟨s, fi, rfl, ?_, ?_, ?_, ?_, ?_⟩
    · rw [hfile]
      rfl
    · rw [SplitSpec.facetMeta, hfile, hopen.calm]
      rfl
    · rw [hfile]
      exact hopen
    · rw [hfile]
      exact hside
    · rw [hfile]
      rfl

/-- A first-version digest put last is the digest of the summary. -/
theorem Faceted.digestOf_first (h : Faceted resolver caseFold spec facets) {s : SplitFacets} {fi : FacetIndex}
    (hopens : Opens resolver spec s fi) {k : Nat} {payload : Bytes}
    (digest : facetDigest (spec.sidecar resolver).bytes k = .ok payload)
    (fits : (spec.summary ++ tlvRecord summaryTagFacetDigest payload).length < 2 ^ 32) :
    digestOf (spec.summary ++ tlvRecord summaryTagFacetDigest payload) =
      some (min k (2 ^ 16 - 1), (fi.digested (fun _ => none) (min k (2 ^ 16 - 1))).fields) := by
  obtain ⟨rs, hs, h1, h2, -⟩ := h.records
  have hopen := hopens.settles
  rw [hopens.file] at hopen
  rw [RoaringRange.digestOf_first hs h1 h2 fits, parseFacetDigest_digest hopens.sidecarOf hopen digest]
  rfl

omit [Roaring] [Unicode] in
/-- A digest no longer than one that fits the summary does. -/
theorem DigestFits.of_shorter {tag n : Nat} {payload : Bytes} (hlen : (spec.summary ++ tlvRecord tag payload).length < 2 ^ 32)
    (h : ∃ payload', facetDigest (spec.sidecar resolver).bytes n = .ok payload' ∧ payload'.length ≤ payload.length) :
    DigestFits (spec.sidecar resolver) spec.summary n := by
  obtain ⟨payload', hd, hle⟩ := h
  refine ⟨payload', hd, ?_⟩
  rw [List.length_append, tlvRecord, Tlv.length_record] at hlen ⊢
  omega

/-- A first-version digest put last is one of the split's sidecar. -/
theorem Faceted.digest_first (h : Faceted resolver caseFold spec facets) {s : SplitFacets} {fi : FacetIndex}
    (hopens : Opens resolver spec s fi) {k : Nat} {payload : Bytes}
    (digest : facetDigest (spec.sidecar resolver).bytes k = .ok payload)
    (fits : (spec.summary ++ tlvRecord summaryTagFacetDigest payload).length < 2 ^ 32) :
    DigestOf resolver spec fi (spec.summary ++ tlvRecord summaryTagFacetDigest payload) (min k (2 ^ 16 - 1))
      (fun _ => none) := by
  refine ⟨h.digestOf_first hopens digest fits, fun c dir hdir => ?_, by omega, fun n hn => ?_⟩
  · cases hdir
  · exact .of_shorter fits (facetDigest_of_le (Nat.le_trans hn (Nat.min_le_left _ _)) (Or.inl digest))

/-- **What a summary carries**: no digest, or one of the split's sidecar. -/
theorem Faceted.carries (h : Faceted resolver caseFold spec facets) {summary : Bytes}
    (hc : CarriesDigest (spec.sidecar resolver) spec.summary summary) :
    digestOf summary = none ∨ ∃ s fi k dirOf, facets = some s ∧ Opens resolver spec s fi ∧
      DigestOf resolver spec fi summary k dirOf := by
  obtain ⟨rs, hs, h1, h2, -⟩ := h.records
  cases hc with
  | absent => exact Or.inl (digestOf_none hs h1 h2)
  | @first k payload there digest fits =>
    rcases h.cases with ⟨-, -, hmissing, -⟩ | ⟨s, fi, hfacets, hopens⟩
    · rw [hmissing] at there
      cases there
    · exact Or.inr ⟨s, fi, _, _, hfacets, hopens, h.digest_first hopens digest fits⟩
  | @second k payload there digest fits =>
    rcases h.cases with ⟨-, -, hmissing, -⟩ | ⟨s, fi, hfacets, hopens⟩
    · rw [hmissing] at there
      cases there
    · have hopen := hopens.settles
      rw [hopens.file] at hopen
      refine Or.inr ⟨s, fi, min k (2 ^ 16 - 1), residentDir (spec.sidecar resolver).bytes, hfacets, hopens, ?_, ?_,
        by omega, fun n hn => ?_⟩
      · rw [digestOf_second hs h2 fits, parseFacetDigestV2_digest hopens.sidecarOf hopen digest]
        rfl
      · intro c dir hdir
        exact parseDir_of_residentDir hdir
      · exact .of_shorter fits (facetDigest_of_le (Nat.le_trans hn (Nat.min_le_left _ _)) (Or.inr digest))

end

/-! ## What a split adds -/

section

variable [Roaring]

/-- What a call prices a category of these docs at: those below the head boundary only for a result that has a doc of
the first bucket. -/
def SplitFacets.price (s : SplitFacets) (result docs : Bitmap) : Nat :=
  (if headNeeded result then (result ∩ docs.below s.headBoundary).len else 0) +
    (result ∩ docs.atLeast s.headBoundary).len

/-- A field of a sidecar and the field of the map it is of. -/
structure FieldView (fi : FacetIndex) (headBoundary : Nat) (f : Field) (g : String × OrdMap String Bitmap) : Prop where
  name : f.name = g.1
  entries : (f.categories.map Category.entry).Perm (g.2.toList.map fun x => (x.1, x.2.len % 2 ^ 32))
  category : ∀ c ∈ f.categories, ∃ x ∈ g.2.toList, c.entry = (x.1, x.2.len % 2 ^ 32) ∧
    fi.headDocs c.range = x.2.below headBoundary ∧ fi.tailDocs c.range = x.2.atLeast headBoundary
  docs : ∀ x ∈ g.2.toList, ∃ c ∈ f.categories, c.entry = (x.1, x.2.len % 2 ^ 32) ∧
    fi.headDocs c.range = x.2.below headBoundary ∧ fi.tailDocs c.range = x.2.atLeast headBoundary

namespace FacetIndex.SidecarOf

variable {fi : FacetIndex} {m : FacetMap} {headBoundary : Nat} {file : Bytes}

theorem categoryView (h : fi.SidecarOf m headBoundary file) {c : Category} {x : String × Bitmap}
    (hc : CategoryOf file c (facetCategory headBoundary x)) : c.entry = (x.1, x.2.len % 2 ^ 32) ∧
      fi.headDocs c.range = x.2.below headBoundary ∧ fi.tailDocs c.range = x.2.atLeast headBoundary := by
  obtain ⟨hh, ht⟩ := hc.postings h.length_lt
  rw [← h.fetch] at hh ht
  exact ⟨Prod.ext hc.name hc.count, hh.postingIn_eq, ht.postingIn_eq⟩

theorem fieldView (h : fi.SidecarOf m headBoundary file) :
    List.Forall₂ (FieldView fi headBoundary) fi.fields m.toList := by
  have hfields := h.fields
  unfold facetFields at hfields
  rw [List.forall₂_map_right_iff] at hfields
  refine hfields.imp fun f g hfg => ?_
  obtain ⟨cs, hperm, hcs⟩ := hfg.cats
  have hcard : ∀ {xs : List Category} {ys : List FacetCategory}, List.Forall₂ (CategoryOf file) xs ys →
      xs.map Category.entry = ys.map fun d => (d.name, d.card) := by
    intro xs ys hxy
    induction hxy with
    | nil => rfl
    | cons hc _ ih =>
      rw [List.map_cons, List.map_cons, ih]
      exact congrArg (· :: _) (Prod.ext hc.name hc.count)
  refine ⟨hfg.name, ?_, fun c hc => ?_, fun x hx => ?_⟩
  · rw [hcard hcs]
    have := hperm.map fun d : FacetCategory => (d.name, d.card)
    rw [List.map_map] at this
    exact this
  · obtain ⟨d, hd, hcd⟩ := exists_partner hcs hc
    obtain ⟨x, hx, rfl⟩ := List.mem_map.mp (hperm.subset hd)
    exact ⟨x, hx, h.categoryView hcd⟩
  · have hd : facetCategory headBoundary x ∈ cs := hperm.symm.subset (List.mem_map_of_mem hx)
    obtain ⟨c, hc, hcd⟩ := exists_partner_left hcs hd
    exact ⟨c, hc, h.categoryView hcd⟩

end FacetIndex.SidecarOf

/-- What a category of a sidecar is priced at. -/
theorem Opens.priceOf_eq {resolver : SplitFetcher} {spec : SplitSpec} {s : SplitFacets} {fi : FacetIndex}
    (h : Opens resolver spec s fi) (result : Bitmap) {f : Field} (hf : f ∈ fi.fields) {c : Category}
    (hc : c ∈ f.categories) {docs : Bitmap} (hhead : fi.headDocs c.range = docs.below s.headBoundary)
    (htail : fi.tailDocs c.range = docs.atLeast s.headBoundary) :
    priceOf result c (fi.headDocs c.range) (fi.tailDocs c.range) = s.price result docs := by
  have hbare : c.head.isEmpty = true := by
    rw [h.bare f hf c hc]
    rfl
  unfold priceOf headCount SplitFacets.price
  rw [hhead, htail, hbare, Bool.not_true, Bool.or_false]

/-- Counts by name, with those of a split more. -/
def addCounts (counts : String × String → Option Nat) (n : String × String → Nat) : String × String → Option Nat :=
  fun pair => addCount (counts pair) (n pair)

/-- What a split counts for a pair from its sidecar. -/
def fullCount [SelectNth] (resolver : SplitFetcher) (spec : SplitSpec) (result : Bitmap) (topPerField : Nat)
    (pair : String × String) : Nat :=
  ((spec.facetMeta resolver).map fun fi =>
    fi.countNamed fi.headDocs fi.tailDocs result topPerField pair).getD 0

/-- The prices of named pairs from a split's sidecar, none where it has no sidecar. -/
def fullPrices (resolver : SplitFetcher) (spec : SplitSpec) (result : Bitmap) (pairs : List (String × String)) :
    List Nat :=
  ((spec.facetMeta resolver).map fun fi => pairs.map (fi.priceNamed fi.headDocs fi.tailDocs result)).getD []

variable [Unicode] {set : SplitSet} {resolver : SplitFetcher} {e : Nat × Bitmap} {fi : FacetIndex}
  {head tail : CatRange → Bitmap}

/-- A split priced from a meta counts by name what the meta does. -/
theorem adds_splitCounts [SelectNth] {topPerField : Nat}
    (hmeta : Settles (set.facetPricingMeta (set.split e.1)
      (resolver.fetchNamed (facetFileName (set.split e.1).dataFile)) topPerField none) (.ok fi))
    (hp : fi.PostsHold head tail) (hn : fi.Named) (hb : fi.Bare) :
    ∃ r, Settles (set.splitCounts resolver topPerField e) r ∧
      Adds tallySplit readCounts addCounts r (fi.countNamed head tail e.2 topPerField) := by
  have hrows := FacetIndex.settles_countsFull_rows hp hn hb e.2 topPerField
  refine ⟨_, hmeta.bind (hrows.bind (Settles.pure _)), Or.inr ⟨_, rfl, fun acc => ?_⟩⟩
  funext pair
  exact readCounts_tallySplit hn (FacetIndex.countOf head tail e.2 topPerField) acc pair

/-- A split without a sidecar counts nothing. -/
theorem adds_splitCounts_missing [SelectNth] {topPerField : Nat}
    (hmeta : Settles (set.facetPricingMeta (set.split e.1)
      (resolver.fetchNamed (facetFileName (set.split e.1).dataFile)) topPerField none) (.error (.fetch .notFound))) :
    ∃ r, Settles (set.splitCounts resolver topPerField e) r ∧
      Adds tallySplit readCounts addCounts r fun _ => 0 :=
  ⟨_, hmeta.bind_error, Or.inl ⟨rfl, fun _ => rfl⟩⟩

theorem adds_splitCountsFor {pairs : List (String × String)}
    (hmeta : Settles (set.facetPricingMeta (set.split e.1)
      (resolver.fetchNamed (facetFileName (set.split e.1).dataFile)) 0 (some pairs)) (.ok fi))
    (hp : fi.PostsHold head tail) :
    ∃ r, Settles (set.splitCountsFor resolver pairs e) r ∧
      Adds addTotals id addTotals r (pairs.map (fi.priceNamed head tail e.2)) :=
  ⟨_, hmeta.bind (FacetIndex.settles_countsFor_named hp e.2 pairs), Or.inr ⟨_, rfl, fun _ => rfl⟩⟩

theorem adds_splitCountsFor_missing {pairs : List (String × String)}
    (hmeta : Settles (set.facetPricingMeta (set.split e.1)
      (resolver.fetchNamed (facetFileName (set.split e.1).dataFile)) 0 (some pairs)) (.error (.fetch .notFound))) :
    ∃ r, Settles (set.splitCountsFor resolver pairs e) r ∧ Adds addTotals id addTotals r [] := by
  refine ⟨_, hmeta.bind_error, Or.inl ⟨rfl, fun g => ?_⟩⟩
  cases g <;> rfl

/-! ## A split of a set that carries digests -/

/-- A split of an open set, of which the summary was kept or given a digest. -/
structure EntryAt (set : SplitSet) (resolver : SplitFetcher) (e : Nat × Bitmap) (spec spec' : SplitSpec) : Prop where
  splitOf : SplitOf set (set.split e.1) spec'
  carries : spec.Carries resolver spec'

variable {spec spec' : SplitSpec} {caseFold : Bool} {facets : Option SplitFacets}

omit [Roaring] [Unicode] in
theorem EntryAt.sidecar (h : EntryAt set resolver e spec spec') :
    resolver.fetchNamed (facetFileName (set.split e.1).dataFile) = spec.sidecar resolver := by
  obtain ⟨summary, -, rfl⟩ := h.carries
  rw [h.splitOf.dataFile]
  rfl

/-- **A split without a digest**, or with one that is too short, is counted from its sidecar. -/
theorem EntryAt.splitCounts_full [SelectNth] (h : EntryAt set resolver e spec spec')
    (hf : Faceted resolver caseFold spec facets) {topPerField : Nat}
    (hd : ∀ digest, digestOf spec'.summary = some digest → ¬ (topPerField ≠ 0 ∧ topPerField ≤ digest.1)) :
    ∃ r, Settles (set.splitCounts resolver topPerField e) r ∧
      Adds tallySplit readCounts addCounts r (fullCount resolver spec e.2 topPerField) := by
  have hmeta : ∀ r, Settles (FacetIndex.openMeta (spec.sidecar resolver)) r →
      Settles (set.facetPricingMeta (set.split e.1) (resolver.fetchNamed (facetFileName (set.split e.1).dataFile))
        topPerField none) r := by
    intro r hopen
    rw [h.sidecar]
    cases hdig : digestOf spec'.summary with
    | none => rwa [facetPricingMeta_none (by rw [h.splitOf.summary, hdig])]
    | some digest =>
      have := settles_facetPricingMeta_top (by rw [h.splitOf.summary, hdig]) topPerField hopen
      rwa [if_neg (hd digest hdig)] at this
  rcases hf.cases with ⟨-, hnone, -, hopen⟩ | ⟨s, fi, -, hopens⟩
  · obtain ⟨r, hr, hadds⟩ := adds_splitCounts_missing (hmeta _ hopen)
    refine ⟨r, hr, ?_⟩
    have hzero : fullCount resolver spec e.2 topPerField = fun _ => 0 := by
      funext pair
      rw [fullCount, hnone]
      rfl
    rwa [hzero]
  · obtain ⟨r, hr, hadds⟩ := adds_splitCounts (hmeta _ hopens.settles) hopens.postsHold hopens.named hopens.bare
    refine ⟨r, hr, ?_⟩
    have hfull : fullCount resolver spec e.2 topPerField =
        fi.countNamed fi.headDocs fi.tailDocs e.2 topPerField := by
      funext pair
      rw [fullCount, hopens.facetMeta]
      rfl
    rwa [hfull]

/-- **A split with a digest that serves the call** is counted from the digest. -/
theorem EntryAt.splitCounts_digest [SelectNth] (h : EntryAt set resolver e spec spec') {s : SplitFacets}
    (hopens : Opens resolver spec s fi) {k : Nat} {dirOf : Category → Option (List Container)}
    (hd : DigestOf resolver spec fi spec'.summary k dirOf) {topPerField : Nat} (htop : topPerField ≠ 0)
    (hk : topPerField ≤ k) : ∃ r, Settles (set.splitCounts resolver topPerField e) r ∧
      Adds tallySplit readCounts addCounts r
        ((fi.digested dirOf k).countNamed fi.headDocs fi.tailDocs e.2 topPerField) := by
  have hmeta := settles_facetPricingMeta_top (by rw [h.splitOf.summary, hd.digest]) topPerField hopens.settles
  have hfetch : spec.sidecar resolver = fi.fetch := by
    rw [hopens.sidecarOf.fetch]
    exact hopens.file
  rw [if_pos ⟨htop, hk⟩, ← h.sidecar] at hmeta
  refine adds_splitCounts ?_ (hopens.sidecarOf.digested_postsHold s.boundary hd.dir k) (hopens.named.digested dirOf k)
    (FacetIndex.bare_digested fi dirOf k)
  have hfi : (⟨resolver.fetchNamed (facetFileName (set.split e.1).dataFile), (fi.digested dirOf k).fields⟩ : FacetIndex) =
      fi.digested dirOf k := by
    rw [h.sidecar, hfetch]
    rfl
  rwa [hfi] at hmeta

/-- The presence keys of a split, whether or not it was given a digest. -/
theorem EntryAt.facetKeys_eq (h : EntryAt set resolver e spec spec') (hf : Faceted resolver caseFold spec facets) :
    ∃ present, set.facetKeys (set.split e.1) = .ok present ∧
      ∀ keys, present = some keys → ∃ s, facets = some s ∧ keys = presenceKeys s.map caseFold := by
  obtain ⟨rs, hs, -, -, hpresence⟩ := hf.records
  have hcase : ∀ rs' : List (Nat × Bytes), SummaryOf spec'.summary rs' →
      recordOf rs' summaryTagFacet = recordOf rs summaryTagFacet → ∃ present,
        set.facetKeys (set.split e.1) = .ok present ∧
          ∀ keys, present = some keys → ∃ s, facets = some s ∧ keys = presenceKeys s.map caseFold := by
    intro rs' hs' hrec
    cases hr : recordOf rs summaryTagFacet with
    | none =>
      refine ⟨none, facetKeys_none h.splitOf hs' (hrec.trans hr), fun keys hk => ?_⟩
      cases hk
    | some payload =>
      obtain ⟨s, hfacets, rfl⟩ := hpresence payload hr
      refine ⟨_, facetKeys_presence h.splitOf hs' (hrec.trans hr) s.fits.cats_lt, fun keys hk => ⟨s, hfacets, ?_⟩⟩
      exact (Option.some.inj hk).symm
  obtain ⟨summary, hc, rfl⟩ := h.carries
  cases hc with
  | absent => exact hcase rs hs rfl
  | first there digest fits =>
    refine hcase _ (hs.append (by decide) fits) ?_
    rw [recordOf_append]
    exact Option.or_none
  | second there digest fits =>
    refine hcase _ (hs.append (by decide) fits) ?_
    rw [recordOf_append]
    exact Option.or_none

omit [Unicode] in
/-- What a meta names is in the map it is of. -/
theorem Opens.mem_pairs {s : SplitFacets} (h : Opens resolver spec s fi) {pair : String × String} {x : Field × Category}
    (hn : fi.named pair = some x) : pair ∈ s.map.pairs := by
  obtain ⟨⟨hf, hname⟩, hc, hcname⟩ := h.named.named_iff.mp hn
  obtain ⟨g, hg, hview⟩ := exists_partner h.sidecarOf.fieldView hf
  obtain ⟨y, hy, hentry, -⟩ := hview.category _ hc
  refine List.mem_flatMap.mpr ⟨g, hg, List.mem_map.mpr ⟨y.1, List.mem_map_of_mem hy, ?_⟩⟩
  exact Prod.ext (hview.name.symm.trans hname) ((congrArg Prod.fst hentry).symm.trans hcname)

/-- A split that opens its sidecar for named pairs counts them at their full prices. -/
theorem EntryAt.splitCountsFor_opened (h : EntryAt set resolver e spec spec')
    (hf : Faceted resolver caseFold spec facets) {pairs : List (String × String)}
    (hmeta : ∀ r, Settles (FacetIndex.openMeta (spec.sidecar resolver)) r →
      Settles (set.facetPricingMeta (set.split e.1) (spec.sidecar resolver) 0 (some pairs)) r) :
    ∃ r, Settles (set.splitCountsFor resolver pairs e) r ∧
      Adds addTotals id addTotals r (fullPrices resolver spec e.2 pairs) := by
  rw [← h.sidecar] at hmeta
  rcases hf.cases with ⟨-, hnone, -, hmissing⟩ | ⟨s, fi, -, hopens⟩
  · have hnil : fullPrices resolver spec e.2 pairs = [] := by
      rw [fullPrices, hnone]
      rfl
    rw [hnil]
    exact adds_splitCountsFor_missing (hmeta _ (h.sidecar ▸ hmissing))
  · have hall : fullPrices resolver spec e.2 pairs = pairs.map (fi.priceNamed fi.headDocs fi.tailDocs e.2) := by
      rw [fullPrices, hopens.facetMeta]
      rfl
    rw [hall]
    exact adds_splitCountsFor (hmeta _ (h.sidecar ▸ hopens.settles)) hopens.postsHold

/-- The digest has the pair, or the presence keys of the split do not have the pair's. -/
def pairSettled (fi : FacetIndex) (keys : Option (List Key)) (caseFold : Bool) (p : String × String) : Bool :=
  (fi.fields.any fun f => f.name == p.1 && f.categories.any fun c => c.name == p.2) ||
    (keys.map fun keys => !found keys (facetKey p.1 p.2 caseFold)).getD false

/-- A digest serves named pairs that are all settled by it and by some or no presence keys of the split. -/
theorem EntryAt.digestUsable_eq (h : EntryAt set resolver e spec spec') (hf : Faceted resolver caseFold spec facets)
    (fi : FacetIndex) (k : Nat) (pairs : List (String × String)) : ∃ keys,
      (∀ ks, keys = some ks → ∃ s, facets = some s ∧ ks = presenceKeys s.map caseFold) ∧
      set.digestUsable (set.split e.1) (k, fi.fields) 0 (some pairs) = .ok (pairs.all (pairSettled fi keys set.caseFold)) := by
  obtain ⟨present, hkeys, hpresent⟩ := h.facetKeys_eq hf
  unfold SplitSet.digestUsable
  by_cases hflag : hasFlag set.flags flagFacet = true
  · refine ⟨present, hpresent, ?_⟩
    simp only [hflag, if_true, hkeys]
    rfl
  · refine ⟨none, fun ks hks => (by cases hks), ?_⟩
    simp only [hflag]
    rfl

/-- A pair that is settled is priced alike with the digest and without it. -/
theorem Opens.priceNamed_settled {s : SplitFacets} (h : Opens resolver spec s fi) {k : Nat}
    {dirOf : Category → Option (List Container)} {keys : Option (List Key)}
    (hkeys : ∀ ks, keys = some ks → ks = presenceKeys s.map caseFold) {p : String × String}
    (hp : pairSettled (fi.digested dirOf k) keys caseFold p = true) (ids : Bitmap) :
    (fi.digested dirOf k).priceNamed fi.headDocs fi.tailDocs ids p = fi.priceNamed fi.headDocs fi.tailDocs ids p := by
  refine h.named.priceNamed_digested h.bare ids ?_
  rcases Bool.or_eq_true _ _ ▸ hp with hin | hout
  · -- the digest has the pair
    obtain ⟨f, hf, hfc⟩ := List.any_eq_true.mp hin
    obtain ⟨hname, hany⟩ := Bool.and_eq_true _ _ ▸ hfc
    obtain ⟨c, hc, hcname⟩ := List.any_eq_true.mp hany
    refine Or.inl (Option.isSome_iff_exists.mpr ⟨(f, c), ?_⟩)
    exact (h.named.digested dirOf k).named_iff.mpr ⟨⟨hf, beq_iff_eq.mp hname⟩, hc, beq_iff_eq.mp hcname⟩
  · -- the presence keys do not have the pair's, so the map does not name the pair
    refine Or.inr ?_
    by_contra hne
    obtain ⟨x, hx⟩ := Option.ne_none_iff_exists'.mp hne
    have hmem := h.mem_pairs hx
    cases hk : keys with
    | none =>
      rw [hk] at hout
      cases hout
    | some ks =>
      have hfound : found (presenceKeys s.map caseFold) (facetKey p.1 p.2 caseFold) = true :=
        (found_iff presenceKeys_asc).mpr (mem_presenceKeys.mpr ⟨p, hmem, rfl⟩)
      rw [hk, hkeys ks hk] at hout
      simp [hfound] at hout

/-- **Named pairs are priced alike** with a digest and without one. -/
theorem EntryAt.splitCountsFor_full (h : EntryAt set resolver e spec spec')
    (hf : Faceted resolver set.caseFold spec facets) (pairs : List (String × String)) :
    ∃ r, Settles (set.splitCountsFor resolver pairs e) r ∧
      Adds addTotals id addTotals r (fullPrices resolver spec e.2 pairs) := by
  obtain ⟨summary, hc, hspec'⟩ := h.carries
  have hsummary : spec'.summary = summary := by rw [hspec']
  rcases hf.carries hc with hnone | ⟨s, fi, k, dirOf, hfacets, hopens, hd⟩
  · refine h.splitCountsFor_opened hf fun r hopen => ?_
    rwa [facetPricingMeta_none (by rw [h.splitOf.summary, hsummary, hnone])]
  · obtain ⟨keys, hkeys, hused⟩ := h.digestUsable_eq hf (fi.digested dirOf k) k pairs
    have hunfold : set.facetPricingMeta (set.split e.1) (spec.sidecar resolver) 0 (some pairs) =
        (do let usable ← ofOutcome (set.digestUsable (set.split e.1) (k, (fi.digested dirOf k).fields) 0 (some pairs))
            if usable then pure ⟨spec.sidecar resolver, (fi.digested dirOf k).fields⟩
            else FacetIndex.openMeta (spec.sidecar resolver)) := by
      unfold SplitSet.facetPricingMeta
      rw [bind_digestOf, h.splitOf.summary, hsummary, hd.digest]
    rw [hused] at hunfold
    cases hu : pairs.all (pairSettled (fi.digested dirOf k) keys set.caseFold) with
    | false =>
      refine h.splitCountsFor_opened hf fun r hopen => ?_
      rw [hunfold, hu]
      exact (Settles.ofOutcome _).bind hopen
    | true =>
      have hfetch : spec.sidecar resolver = fi.fetch := by
        rw [hopens.sidecarOf.fetch]
        exact hopens.file
      have hmeta : Settles (set.facetPricingMeta (set.split e.1)
          (resolver.fetchNamed (facetFileName (set.split e.1).dataFile)) 0 (some pairs))
          (.ok (fi.digested dirOf k)) := by
        rw [h.sidecar, hunfold, hu, hfetch]
        exact (Settles.ofOutcome _).bind (Settles.pure _)
      have hkeys' : ∀ ks, keys = some ks → ks = presenceKeys s.map set.caseFold := by
        intro ks hks
        obtain ⟨s', hs', rfl⟩ := hkeys ks hks
        rw [Option.some.inj (hfacets.symm.trans hs')]
      have hprices : pairs.map ((fi.digested dirOf k).priceNamed fi.headDocs fi.tailDocs e.2) =
          fullPrices resolver spec e.2 pairs := by
        rw [fullPrices, hopens.facetMeta]
        exact List.map_congr_left fun p hp => hopens.priceNamed_settled hkeys' (List.all_eq_true.mp hu p hp) e.2
      rw [← hprices]
      exact adds_splitCountsFor hmeta (hopens.sidecarOf.digested_postsHold s.boundary hd.dir k)

end

/-! ## Manifests of the splits -/

/-- The open manifest of some splits, their summaries at the spans of a blob. -/
def openManifest (config : SplitSetConfig) (specs : List SplitSpec) (spans : List (Nat × Nat)) (blob : Bytes) :
    SplitSet where
  policy := config.policy
  flags := config.flags
  tierCount := config.tierCount
  baseCount := config.baseCount
  byteCap := config.byteCap
  gramSize := config.gramSize
  bodyKind := config.bodyKind
  caseFold := !hasFlag config.flags flagCaseSensitive
  sortcol := config.sortcol.filter fun sc => sc.name ≠ ""
  splits := List.zipWith (fun spec sp => ⟨spec.dataFile, spec.tier, spec.docCount, spec.docIdLo, spec.docIdHi,
    spec.flags, spec.byteSize, spec.epoch, sp.1, sp.2⟩) specs spans
  summaryBlob := blob

/-- Splits with short enough summaries have a manifest. -/
theorem exists_describes (config : SplitSetConfig) (specs : List SplitSpec) (h : ∀ s ∈ specs, s.summary.length < 2 ^ 32) :
    ∃ set : SplitSet, set.Describes config specs := by
  obtain ⟨spans, -, hspans⟩ := @pushSummaries_eq specs [] h
  rw [List.nil_append] at hspans
  refine ⟨openManifest config specs spans (specs.flatMap SplitSpec.summary), rfl, rfl, rfl, rfl, rfl, rfl, rfl, rfl, rfl, ?_⟩
  have hall : ∀ {specs' : List SplitSpec} {spans' : List (Nat × Nat)},
      List.Forall₂ (fun sp s => SummaryAt (specs.flatMap SplitSpec.summary) sp s.summary) spans' specs' →
      List.Forall₂ (SplitOf (openManifest config specs spans (specs.flatMap SplitSpec.summary)))
        (List.zipWith (fun spec sp => ⟨spec.dataFile, spec.tier, spec.docCount, spec.docIdLo, spec.docIdHi,
          spec.flags, spec.byteSize, spec.epoch, sp.1, sp.2⟩) specs' spans') specs' := by
    intro specs' spans' hs
    induction hs with
    | nil => exact List.Forall₂.nil
    | @cons sp spec _ _ hsp _ ih =>
      refine List.Forall₂.cons ⟨rfl, rfl, rfl, rfl, rfl, rfl, rfl, rfl, ?_⟩ ih
      unfold SplitSet.summary
      by_cases hz : sp.2 = 0
      · have hnil : spec.summary = [] := List.length_eq_zero_iff.mp (by rw [← hsp.len_eq, hz])
        rw [if_pos hz, hnil]
        rfl
      · rw [if_neg hz]
        exact hsp.slice_eq
  exact hall hspans

/-! ## The whole set -/

/-- The ids that fall in each of the splits. -/
def routed (specs : List SplitSpec) (ids : List (Fin u32Bound)) : List (Nat × Bitmap) :=
  idsBySplit (specs.map SplitSpec.entry) ids

/-- The map has no entry for a count of zero. -/
def total (n : Nat) : Option Nat := if n = 0 then none else some n

theorem total_inj {m n : Nat} (h : total m = total n) : m = n := by
  unfold total at h
  split at h <;> split at h <;> simp_all

theorem foldl_addCounts {es : List (Nat × Bitmap)} (count : Nat × Bitmap → String × String → Nat)
    (pair : String × String) : ∀ counts, (es.map count).foldl addCounts counts pair =
      (es.map fun e => count e pair).foldl addCount (counts pair) := by
  induction es with
  | nil => exact fun _ => rfl
  | cons e es ih =>
    intro counts
    rw [List.map_cons, List.foldl_cons, ih, List.map_cons, List.foldl_cons]
    rfl

theorem exists_outcomes {α β γ ν κ : Type} {step : β → α → β} {view : β → γ} {add : γ → ν → γ} {io : κ → Io α}
    {n : κ → ν} {es : List κ} (h : ∀ e ∈ es, ∃ r, Settles (io e) r ∧ Adds step view add r (n e)) :
    ∃ rs, List.Forall₂ Settles (es.map io) rs ∧ List.Forall₂ (Adds step view add) rs (es.map n) := by
  induction es with
  | nil => exact ⟨[], List.Forall₂.nil, List.Forall₂.nil⟩
  | cons e es ih =>
    obtain ⟨r, hr, ha⟩ := h e List.mem_cons_self
    obtain ⟨rs, hrs, has⟩ := ih fun x hx => h x (List.mem_cons_of_mem _ hx)
    exact ⟨r :: rs, List.Forall₂.cons hr hrs, List.Forall₂.cons ha has⟩

section

variable {set : SplitSet} {resolver : SplitFetcher} {config : SplitSetConfig} {specs specs' : List SplitSpec}
  {ids : List (Fin u32Bound)}

/-- The ids are routed alike in every manifest of the splits. -/
theorem routed_eq (hc : List.Forall₂ (SplitSpec.Carries resolver) specs specs') (hd : set.Describes config specs') :
    idsBySplit set.splits ids = routed specs ids := by
  apply idsBySplit_congr
  have hboth : ∀ {ss : List Split} {xs ys : List SplitSpec}, List.Forall₂ (SplitSpec.Carries resolver) xs ys →
      List.Forall₂ (SplitOf set) ss ys →
      List.Forall₂ (fun x y : Split => x.contains = y.contains ∧ x.toLocal = y.toLocal) ss (xs.map SplitSpec.entry) := by
    intro ss xs ys hxy
    induction hxy generalizing ss with
    | nil =>
      intro h
      cases h
      exact List.Forall₂.nil
    | @cons x y _ _ hcarries _ ih =>
      intro h
      cases h with
      | cons hof hrest =>
        obtain ⟨summary, -, rfl⟩ := hcarries
        obtain ⟨hcontains, hlocal, -⟩ := hof.routes_eq
        exact List.Forall₂.cons ⟨hcontains, hlocal⟩ (ih hrest)
  exact hboth hc hd.splits

/-- The split that ids are routed to. -/
theorem entryAt_of_mem (hc : List.Forall₂ (SplitSpec.Carries resolver) specs specs') (hd : set.Describes config specs')
    {e : Nat × Bitmap} (he : e ∈ routed specs ids) :
    ∃ spec spec', specs[e.1]? = some spec ∧ specs'[e.1]? = some spec' ∧ EntryAt set resolver e spec spec' := by
  have hlt : e.1 < specs.length := by
    have := lt_of_mem_idsBySplit he
    rwa [List.length_map] at this
  have hlt' : e.1 < specs'.length := by rwa [← hc.length_eq]
  have hltset : e.1 < set.splits.length := by rwa [hd.splits.length_eq]
  have hsplit : set.split e.1 = set.splits[e.1] := List.getD_eq_getElem _ _ hltset
  refine ⟨specs[e.1], specs'[e.1], List.getElem?_eq_getElem hlt, List.getElem?_eq_getElem hlt', ?_, ?_⟩
  · rw [hsplit]
    exact hd.splits.get hltset hlt'
  · exact hc.get hlt hlt'

variable [Roaring] [Unicode]

/-- **The counts of a set** are what its splits count, added up. -/
theorem settles_facetCountsTop [SelectNth] {topPerField : Nat} (count : Nat × Bitmap → String × String → Nat)
    (hr : idsBySplit set.splits ids = routed specs ids)
    (h : ∀ e ∈ routed specs ids, ∃ r, Settles (set.splitCounts resolver topPerField e) r ∧
      Adds tallySplit readCounts addCounts r (count e)) :
    ∃ counts, SettlesUnless (· = FetchError.notFound) (set.facetCountsTop resolver ids topPerField) (.ok counts) ∧
      readCounts counts = fun pair => total ((routed specs ids).map fun e => count e pair).sum := by
  obtain ⟨rs, hrs, ha⟩ := exists_outcomes h
  obtain ⟨counts, hcounts, hread⟩ := settles_foldPresent hrs ha []
  refine ⟨counts, ?_, ?_⟩
  · unfold SplitSet.facetCountsTop
    rw [hr]
    exact hcounts
  · rw [hread]
    funext pair
    rw [foldl_addCounts]
    have := foldl_addCount ((routed specs ids).map fun e => count e pair) 0
    rw [if_pos rfl, Nat.zero_add] at this
    exact this

/-- **The prices of a set's named pairs** are those of its splits, added up. -/
theorem settles_facetCountsFor {pairs : List (String × String)} (prices : Nat × Bitmap → List Nat)
    (hr : idsBySplit set.splits ids = routed specs ids)
    (h : ∀ e ∈ routed specs ids, ∃ r, Settles (set.splitCountsFor resolver pairs e) r ∧
      Adds addTotals id addTotals r (prices e)) :
    SettlesUnless (· = FetchError.notFound) (set.facetCountsFor resolver ids pairs)
      (.ok (((routed specs ids).map prices).foldl addTotals (List.replicate pairs.length 0))) := by
  obtain ⟨rs, hrs, ha⟩ := exists_outcomes h
  obtain ⟨totals, htotals, hview⟩ := settles_foldPresent hrs ha (List.replicate pairs.length 0)
  unfold SplitSet.facetCountsFor
  rw [hr]
  have heq : totals = ((routed specs ids).map prices).foldl addTotals (List.replicate pairs.length 0) := hview
  rw [← heq]
  exact htotals

end

section

variable {resolver : SplitFetcher}

/-- Sums that agree everywhere but at one entry, and in total, agree there too. -/
theorem eq_of_sum_eq {es : List (Nat × Bitmap)} (hnd : (es.map Prod.fst).Nodup) {f g : Nat × Bitmap → Nat}
    {e : Nat × Bitmap} (he : e ∈ es) (hsum : (es.map f).sum = (es.map g).sum)
    (hother : ∀ e' ∈ es, e'.1 ≠ e.1 → f e' = g e') : f e = g e := by
  obtain ⟨xs, ys, rfl⟩ := List.append_of_mem he
  rw [List.map_append, List.map_cons, List.nodup_append] at hnd
  obtain ⟨-, hcons, hdis⟩ := hnd
  have hx : xs.map f = xs.map g := List.map_congr_left fun x hx =>
    hother x (List.mem_append_left _ hx) (hdis _ (List.mem_map_of_mem hx) _ List.mem_cons_self)
  have hy : ys.map f = ys.map g := List.map_congr_left fun y hy =>
    hother y (List.mem_append_right _ (List.mem_cons_of_mem _ hy)) fun heq =>
      (List.nodup_cons.mp hcons).1 (heq ▸ List.mem_map_of_mem hy)
  simp only [List.map_append, List.map_cons, List.sum_append, List.sum_cons, hx, hy] at hsum
  omega

theorem routed_keys_nodup (specs : List SplitSpec) (ids : List (Fin u32Bound)) :
    ((routed specs ids).map Prod.fst).Nodup := OrdMap.keys_nodup _

/-- The splits without digests. -/
theorem carries_refl (resolver : SplitFetcher) (specs : List SplitSpec) : List.Forall₂ (SplitSpec.Carries resolver) specs specs :=
  List.forall₂_same.mpr fun _ _ => ⟨_, CarriesDigest.absent, rfl⟩

/-- The splits, one of them with a digest. -/
theorem carries_set {specs : List SplitSpec} {i : Nat} {spec : SplitSpec} (hi : specs[i]? = some spec) {summary : Bytes}
    (hc : CarriesDigest (spec.sidecar resolver) spec.summary summary) :
    List.Forall₂ (SplitSpec.Carries resolver) specs (specs.set i { spec with summary := summary }) := by
  induction specs generalizing i with
  | nil => exact List.Forall₂.nil
  | cons s specs ih =>
    cases i with
    | zero =>
      obtain rfl : s = spec := Option.some.inj hi
      exact List.Forall₂.cons ⟨_, hc, rfl⟩ (carries_refl resolver specs)
    | succ i => exact List.Forall₂.cons ⟨_, CarriesDigest.absent, rfl⟩ (ih hi)

end

/-! ## Results that do not depend on the digest -/

/-- The counts of the top categories are the same for every manifest of the splits, with whichever digests, where the
selection treats equals in one way. -/
def TopDigestFree [Roaring] [Unicode] [SelectNth] (resolver : SplitFetcher) (config : SplitSetConfig)
    (specs : List SplitSpec) (ids : List (Fin u32Bound)) (topPerField : Nat) : Prop :=
  ∃ answer : String × String → Option Nat, ∀ set : SplitSet, set.CarriesDigests resolver config specs → ∃ counts,
    SettlesUnless (· = FetchError.notFound) (set.facetCountsTop resolver ids topPerField) (.ok counts) ∧
      readCounts counts = answer

/-- The results of the two calls are the same for every manifest of the splits, with whichever digests, and whatever
the selection does among equals. -/
def DigestFree [Roaring] [Unicode] (resolver : SplitFetcher) (config : SplitSetConfig) (specs : List SplitSpec)
    (ids : List (Fin u32Bound)) (topPerField : Nat) (pairs : List (String × String)) : Prop :=
  (∀ _select : SelectNth, TopDigestFree resolver config specs ids topPerField) ∧
  ∃ prices, ∀ set : SplitSet, set.CarriesDigests resolver config specs →
    SettlesUnless (· = FetchError.notFound) (set.facetCountsFor resolver ids pairs) (.ok prices)

/-- No category that ties with others across the cut-off of its field has a doc among the ids, in any split that a
digest of `topPerField` fits. -/
def Untied (resolver : SplitFetcher) (splits : List (SplitSpec × Option SplitFacets)) (ids : List (Fin u32Bound))
    (topPerField : Nat) : Prop :=
  ∀ e ∈ routed (splits.map Prod.fst) ids, ∀ spec s, splits[e.1]? = some (spec, some s) →
    0 < topPerField → topPerField < 2 ^ 16 → DigestFits (spec.sidecar resolver) spec.summary topPerField →
    ∀ g ∈ s.map.toList, ∀ x ∈ g.2.toList, Tied (fun y : String × Bitmap => y.2.len % 2 ^ 32) topPerField g.2.toList x →
      s.price e.2 x.2 = 0

section

variable [Roaring] [Unicode] {resolver : SplitFetcher} {config : SplitSetConfig}
  {splits : List (SplitSpec × Option SplitFacets)} {ids : List (Fin u32Bound)} {topPerField : Nat}

omit [Unicode] in
/-- A tie among the categories of a sidecar is one among those of the map. -/
theorem FieldView.tied_iff {fi : FacetIndex} {headBoundary : Nat} {f : Field} {g : String × OrdMap String Bitmap}
    (h : FieldView fi headBoundary f g) {c : Category} {x : String × Bitmap} (hc : c.entry = (x.1, x.2.len % 2 ^ 32)) :
    Tied Prod.snd topPerField (f.categories.map Category.entry) c.entry ↔
      Tied (fun y : String × Bitmap => y.2.len % 2 ^ 32) topPerField g.2.toList x := by
  rw [hc, tied_perm h.entries]
  exact tied_map (w := Prod.snd) fun y : String × Bitmap => (y.1, y.2.len % 2 ^ 32)

/-- Without ties a split counts the same from any digest that a manifest carries. -/
theorem EntryAt.splitCounts_untied [SelectNth] {set : SplitSet} {caseFold : Bool} {e : Nat × Bitmap}
    {spec spec' : SplitSpec} {facets : Option SplitFacets} (h : EntryAt set resolver e spec spec')
    (hf : Faceted resolver caseFold spec facets)
    (hu : ∀ s, facets = some s → 0 < topPerField → topPerField < 2 ^ 16 →
      DigestFits (spec.sidecar resolver) spec.summary topPerField → ∀ g ∈ s.map.toList, ∀ x ∈ g.2.toList,
        Tied (fun y : String × Bitmap => y.2.len % 2 ^ 32) topPerField g.2.toList x → s.price e.2 x.2 = 0) :
    ∃ r, Settles (set.splitCounts resolver topPerField e) r ∧
      Adds tallySplit readCounts addCounts r (fullCount resolver spec e.2 topPerField) := by
  obtain ⟨summary, hc, hspec'⟩ := h.carries
  have hsummary : spec'.summary = summary := by rw [hspec']
  rcases hf.carries hc with hnone | ⟨s, fi, k, dirOf, hfacets, hopens, hd⟩
  · refine h.splitCounts_full hf fun digest hdig => ?_
    rw [hsummary, hnone] at hdig
    cases hdig
  rw [← hsummary] at hd
  by_cases hused : topPerField ≠ 0 ∧ topPerField ≤ k
  · obtain ⟨htop, hk⟩ := hused
    obtain ⟨r, hr, ha⟩ := h.splitCounts_digest hopens hd htop hk
    refine ⟨r, hr, ?_⟩
    have heq : (fi.digested dirOf k).countNamed fi.headDocs fi.tailDocs e.2 topPerField =
        fullCount resolver spec e.2 topPerField := by
      funext pair
      rw [fullCount, hopens.facetMeta]
      refine hopens.named.countNamed_digested_eq hopens.bare e.2 htop hk fun f c hn ht => ?_
      obtain ⟨⟨hfmem, -⟩, hcmem, -⟩ := hopens.named.named_iff.mp hn
      obtain ⟨g, hg, hview⟩ := exists_partner hopens.sidecarOf.fieldView hfmem
      obtain ⟨x, hx, hentry, hhead, htail⟩ := hview.category c hcmem
      rw [hopens.priceOf_eq e.2 hfmem hcmem hhead htail]
      have hlt := hd.lt
      exact hu s hfacets (Nat.pos_of_ne_zero htop) (by omega) (hd.fits _ hk) g hg x hx ((hview.tied_iff hentry).mp ht)
    rwa [← heq]
  · refine h.splitCounts_full hf fun digest hdig => ?_
    rw [hd.digest] at hdig
    rwa [← Option.some.inj hdig]

/-- What the split of an entry counts from its sidecar. -/
def fullCountAt [SelectNth] (resolver : SplitFetcher) (splits : List (SplitSpec × Option SplitFacets))
    (topPerField : Nat) (e : Nat × Bitmap) (pair : String × String) : Nat :=
  (splits[e.1]?.map fun x => fullCount resolver x.1 e.2 topPerField pair).getD 0

omit [Unicode] in
theorem fullCountAt_eq [SelectNth] {e : Nat × Bitmap} {x : SplitSpec × Option SplitFacets} (hx : splits[e.1]? = some x) :
    fullCountAt resolver splits topPerField e = fullCount resolver x.1 e.2 topPerField := by
  funext pair
  rw [fullCountAt, hx]
  rfl

/-- What the split of an entry prices named pairs at. -/
def fullPricesAt (resolver : SplitFetcher) (splits : List (SplitSpec × Option SplitFacets))
    (pairs : List (String × String)) (e : Nat × Bitmap) : List Nat :=
  (splits[e.1]?.map fun x => fullPrices resolver x.1 e.2 pairs).getD []

omit [Roaring] [Unicode] in
/-- The split that ids are routed to, and its facets. -/
theorem entryAt_splits {set : SplitSet} {specs' : List SplitSpec}
    (hc : List.Forall₂ (SplitSpec.Carries resolver) (splits.map Prod.fst) specs') (hd : set.Describes config specs')
    {e : Nat × Bitmap} (he : e ∈ routed (splits.map Prod.fst) ids) :
    ∃ x spec', splits[e.1]? = some x ∧ specs'[e.1]? = some spec' ∧ EntryAt set resolver e x.1 spec' := by
  obtain ⟨spec, spec', hspec, hspec', hat⟩ := entryAt_of_mem hc hd he
  rw [List.getElem?_map] at hspec
  obtain ⟨x, hx, rfl⟩ := Option.map_eq_some_iff.mp hspec
  exact ⟨x, spec', hx, hspec', hat⟩

/-- **Without ties the digest makes no difference.** -/
theorem digestFree_of_untied
    (hf : ∀ x ∈ splits, Faceted resolver (!hasFlag config.flags flagCaseSensitive) x.1 x.2)
    (hu : Untied resolver splits ids topPerField) (pairs : List (String × String)) :
    DigestFree resolver config (splits.map Prod.fst) ids topPerField pairs := by
  constructor
  · intro select
    refine ⟨fun pair => total ((routed (splits.map Prod.fst) ids).map fun e =>
      fullCountAt resolver splits topPerField e pair).sum, fun set hset => ?_⟩
    obtain ⟨specs', hc, hd⟩ := hset
    exact settles_facetCountsTop (fullCountAt resolver splits topPerField) (routed_eq hc hd) fun e he => by
      obtain ⟨x, spec', hx, -, hat⟩ := entryAt_splits hc hd he
      rw [fullCountAt_eq hx]
      exact hat.splitCounts_untied (hf x (List.mem_of_getElem? hx)) fun s hs =>
        hu e he x.1 s (by rw [hx, ← hs])
  · refine ⟨((routed (splits.map Prod.fst) ids).map (fullPricesAt resolver splits pairs)).foldl addTotals
      (List.replicate pairs.length 0), fun set hset => ?_⟩
    obtain ⟨specs', hc, hd⟩ := hset
    exact settles_facetCountsFor (fullPricesAt resolver splits pairs) (routed_eq hc hd) fun e he => by
      obtain ⟨x, spec', hx, -, hat⟩ := entryAt_splits hc hd he
      have heq : fullPricesAt resolver splits pairs e = fullPrices resolver x.1 e.2 pairs := by
        rw [fullPricesAt, hx]
        rfl
      rw [heq]
      have hfx := hf x (List.mem_of_getElem? hx)
      rw [← hd.caseFold] at hfx
      exact hat.splitCountsFor_full hfx pairs

/-! ## Ties -/

/-- What two manifests count, one without digests and one with a digest of `topPerField` in one split, is the same only
if that split counts the same. -/
theorem countNamed_of_digestFree (hf : ∀ x ∈ splits, Faceted resolver (!hasFlag config.flags flagCaseSensitive) x.1 x.2)
    {pairs : List (String × String)} (hfree : DigestFree resolver config (splits.map Prod.fst) ids topPerField pairs)
    {e : Nat × Bitmap} (he : e ∈ routed (splits.map Prod.fst) ids) {spec : SplitSpec} {s : SplitFacets}
    (hx : splits[e.1]? = some (spec, some s)) (htop : topPerField ≠ 0) (hlt : topPerField < 2 ^ 16)
    (hfits : DigestFits (spec.sidecar resolver) spec.summary topPerField) {fi : FacetIndex}
    (hopens : Opens resolver spec s fi) [SelectNth] (pair : String × String) :
    fi.countNamed fi.headDocs fi.tailDocs e.2 topPerField pair =
      (fi.digested (fun _ => none) topPerField).countNamed fi.headDocs fi.tailDocs e.2 topPerField pair := by
  obtain ⟨payload, hpayload, hlen⟩ := hfits
  have hfaceted := hf _ (List.mem_of_getElem? hx)
  have hspec : (splits.map Prod.fst)[e.1]? = some spec := by rw [List.getElem?_map, hx]; rfl
  have hshort : ∀ spec ∈ splits.map Prod.fst, spec.summary.length < 2 ^ 32 := by
    intro spec hspec
    obtain ⟨x, hx, rfl⟩ := List.mem_map.mp hspec
    obtain ⟨rs, hs, -⟩ := (hf x hx).records
    exact hs.length_lt
  -- the two manifests
  have hdigest : CarriesDigest (spec.sidecar resolver) spec.summary
      (spec.summary ++ tlvRecord summaryTagFacetDigest payload) := CarriesDigest.first hopens.there hpayload hlen
  have hcarries := carries_set hspec hdigest
  obtain ⟨set0, hd0⟩ := exists_describes config _ hshort
  obtain ⟨set1, hd1⟩ := exists_describes config ((splits.map Prod.fst).set e.1
    { spec with summary := spec.summary ++ tlvRecord summaryTagFacetDigest payload }) (by
      intro spec' hspec'
      rcases List.mem_or_eq_of_mem_set hspec' with hmem | rfl
      · exact hshort spec' hmem
      · exact hlen)
  have hnone : ∀ x ∈ splits, ∀ digest, digestOf x.1.summary = some digest →
      ¬ (topPerField ≠ 0 ∧ topPerField ≤ digest.1) := by
    intro x hx digest hdig
    obtain ⟨rs, hs, h1, h2, -⟩ := (hf x hx).records
    rw [digestOf_none hs h1 h2] at hdig
    cases hdig
  -- what each entry counts in them
  have hall0 : ∀ e' ∈ routed (splits.map Prod.fst) ids, ∃ r, Settles (set0.splitCounts resolver topPerField e') r ∧
      Adds tallySplit readCounts addCounts r (fullCountAt resolver splits topPerField e') := by
      intro e' he'
      obtain ⟨x, spec', hx', hspec', hat⟩ := entryAt_splits (carries_refl resolver _) hd0 he'
      rw [List.getElem?_map, hx'] at hspec'
      have hxmem := List.mem_of_getElem? hx'
      rw [fullCountAt_eq hx']
      refine hat.splitCounts_full (hf x hxmem) ?_
      rw [← Option.some.inj hspec']
      exact hnone x hxmem
  have hall1 : ∀ e' ∈ routed (splits.map Prod.fst) ids, ∃ r, Settles (set1.splitCounts resolver topPerField e') r ∧
      Adds tallySplit readCounts addCounts r (if e'.1 = e.1 then
        (fi.digested (fun _ => none) topPerField).countNamed fi.headDocs fi.tailDocs e'.2 topPerField
        else fullCountAt resolver splits topPerField e') := by
      intro e' he'
      obtain ⟨x, spec', hx', hspec', hat⟩ := entryAt_splits hcarries hd1 he'
      by_cases hee : e'.1 = e.1
      · rw [if_pos hee]
        rw [hee] at hx' hspec'
        obtain rfl : (spec, some s) = x := Option.some.inj (hx.symm.trans hx')
        have hlt' : e.1 < (splits.map Prod.fst).length := (List.getElem?_eq_some_iff.mp hspec).1
        rw [List.getElem?_set_self hlt'] at hspec'
        obtain rfl := Option.some.inj hspec'
        have hdig := hfaceted.digest_first hopens hpayload hlen
        rw [Nat.min_eq_left (by omega)] at hdig
        exact hat.splitCounts_digest hopens hdig htop (Nat.le_refl _)
      · rw [if_neg hee]
        rw [List.getElem?_set_ne (Ne.symm hee), List.getElem?_map, hx'] at hspec'
        have hxmem := List.mem_of_getElem? hx'
        rw [fullCountAt_eq hx']
        refine hat.splitCounts_full (hf x hxmem) ?_
        rw [← Option.some.inj hspec']
        exact hnone x hxmem
  -- the answer is the same, so the totals are
  obtain ⟨answer, hanswer⟩ := hfree.1 inferInstance
  obtain ⟨c0, hs0, hr0⟩ := hanswer set0 ⟨_, carries_refl resolver _, hd0⟩
  obtain ⟨c1, hs1, hr1⟩ := hanswer set1 ⟨_, hcarries, hd1⟩
  obtain ⟨c0', hs0', hr0'⟩ := settles_facetCountsTop _ (routed_eq (carries_refl resolver _) hd0) hall0
  obtain ⟨c1', hs1', hr1'⟩ := settles_facetCountsTop _ (routed_eq hcarries hd1) hall1
  rw [Except.ok.inj (hs0.unique hs0'), hr0'] at hr0
  rw [Except.ok.inj (hs1.unique hs1'), hr1'] at hr1
  have htotal := congrFun (hr0.trans hr1.symm) pair
  have hsum := total_inj htotal
  have heq := eq_of_sum_eq (routed_keys_nodup _ _) he hsum fun e' _ hne => by
    rw [if_neg hne]
  rw [if_pos rfl, fullCountAt_eq hx, fullCount, hopens.facetMeta] at heq
  exact heq

/-- **A tie makes a difference**: the digest settles it by name, the sidecar's selection either way. -/
theorem untied_of_digestFree (hf : ∀ x ∈ splits, Faceted resolver (!hasFlag config.flags flagCaseSensitive) x.1 x.2)
    {pairs : List (String × String)} (hfree : DigestFree resolver config (splits.map Prod.fst) ids topPerField pairs) :
    Untied resolver splits ids topPerField := by
  intro e he spec s hx hpos hlt hfits g hg x hx' ht
  rcases (hf _ (List.mem_of_getElem? hx)).cases with ⟨hnone, -⟩ | ⟨s', fi, hs, hopens⟩
  · cases hnone
  obtain rfl : s = s' := Option.some.inj hs
  obtain ⟨f, hfmem, hview⟩ := exists_partner_left hopens.sidecarOf.fieldView hg
  obtain ⟨c, hc, hentry, hhead, htail⟩ := hview.docs x hx'
  have hties := (hview.tied_iff hentry).mpr ht
  have hn : fi.named (f.name, c.name) = some (f, c) := hopens.named.named_iff.mpr ⟨⟨hfmem, rfl⟩, hc, rfl⟩
  obtain ⟨j, hj, rfl⟩ := List.getElem_of_mem hc
  have htop : topPerField ≠ 0 := by omega
  -- two selections, which the digest does not tell apart
  have hcount : ∀ select : SelectNth,
      (if f.categories[j].entry ∈ pricedEntries topPerField f.categories then s.price e.2 x.2 else 0) =
        if f.categories[j].entry ∈ (topCategories topPerField f.categories).map Category.entry then
          s.price e.2 x.2 else 0 := by
    intro select
    have heq := countNamed_of_digestFree hf hfree he hx htop hlt hfits hopens (f.name, f.categories[j].name)
    rw [hopens.named.countNamed_digested hopens.bare e.2 hn, pricedEntries_digested,
      hopens.priceOf_eq e.2 hfmem hc hhead htail] at heq
    unfold FacetIndex.countNamed at heq
    rw [hn, Option.map_some, Option.getD_some, FacetIndex.countOf, hopens.priceOf_eq e.2 hfmem hc hhead htail] at heq
    exact heq
  have htaken := hcount (preferSelect fun i => decide (i = j))
  have hleft := hcount (preferSelect fun i => decide (i ≠ j))
  rw [if_pos (priced_of_tied htop hj hties)] at htaken
  rw [if_neg (not_priced_of_tied htop (hopens.named.cats f hfmem) hj hties)] at hleft
  rw [htaken, ← hleft]

/-- **Facet results do not depend on the digest** exactly when no tie across the cut-off shows in them. -/
theorem digestFree_iff_untied
    (hf : ∀ x ∈ splits, Faceted resolver (!hasFlag config.flags flagCaseSensitive) x.1 x.2)
    (ids : List (Fin u32Bound)) (topPerField : Nat) (pairs : List (String × String)) :
    DigestFree resolver config (splits.map Prod.fst) ids topPerField pairs ↔ Untied resolver splits ids topPerField :=
  ⟨untied_of_digestFree hf, fun hu => digestFree_of_untied hf hu pairs⟩

end

section

attribute [local instance] PortableCodec.roaring asciiUnicode stableSelect

/-- Two categories of one field with a doc each. -/
def twoCategories : FacetMap := (∅ : FacetMap).update "kind" fun _ =>
  ((∅ : OrdMap String Bitmap).update "a" fun _ => ⟨[7], by decide, by decide⟩).update "p" fun _ =>
    ⟨[9], by decide, by decide⟩

theorem twoCategories_fits : twoCategories.Fits where
  fields_lt := by decide
  cats_lt := by decide
  names_lt := by decide
  name_lt := by decide

/-- The sidecar of the two categories. -/
def twoCategoriesFile : Bytes := ((writeFacetsWith (facetFields twoCategories 65536) true).toOption).getD []

theorem write_twoCategories : writeFacetsWith (facetFields twoCategories 65536) true = .ok twoCategoriesFile := by
  obtain ⟨file, -, hwrite, -⟩ := exists_sidecarOf twoCategories_fits 65536 true
  rw [hwrite, twoCategoriesFile, hwrite]
  rfl

/-- A set of one split of ten docs. -/
def tenDocs : SplitSpec := ⟨"ten.rrs", 0, 10, 0, 9, 0, 64, 0, []⟩

def tenDocsConfig : SplitSetConfig := ⟨.tiered, 1, 1, 1000, 3, .trigram, none, 0⟩

def tenDocsFiles : SplitFetcher := ⟨fun _ => MemoryFetch.new twoCategoriesFile, fun _ => none, none⟩

def tenDocsFacets : SplitFacets := ⟨twoCategories, 65536, twoCategories_fits, Nat.le_refl _⟩

theorem faceted_tenDocs : ∀ x ∈ [(tenDocs, some tenDocsFacets)],
    Faceted tenDocsFiles (!hasFlag tenDocsConfig.flags flagCaseSensitive) x.1 x.2 := by
  intro x hx
  obtain rfl := List.mem_singleton.mp hx
  refine ⟨⟨[], ⟨rfl, fun _ h => absurd h List.not_mem_nil, by decide⟩, rfl, rfl, fun _ h => ?_⟩, fun h => ?_,
    fun s hs => ?_⟩
  · cases h
  · cases h
  · obtain rfl := Option.some.inj hs
    exact ⟨twoCategoriesFile, write_twoCategories, rfl⟩

def tenDocsIds : List (Fin u32Bound) := [⟨7, by decide⟩, ⟨9, by decide⟩]

theorem routed_tenDocs : routed [tenDocs] tenDocsIds = [(0, ⟨[7, 9], by decide, by decide⟩)] := by
  decide +kernel

/-- With both categories priced nothing is tied. -/
theorem digestFree_iff_untied_tenDocs :
    (∀ x ∈ [(tenDocs, some tenDocsFacets)],
      Faceted tenDocsFiles (!hasFlag tenDocsConfig.flags flagCaseSensitive) x.1 x.2) ∧
    DigestFree tenDocsFiles tenDocsConfig [tenDocs] tenDocsIds 2 [("kind", "a")] := by
  refine ⟨faceted_tenDocs, (digestFree_iff_untied faceted_tenDocs tenDocsIds 2 [("kind", "a")]).mpr ?_⟩
  intro e he spec s hx _ _ _ g hg x _ ht
  have hlt := ht.lt_length
  have he' : e ∈ routed [tenDocs] tenDocsIds := he
  rw [routed_tenDocs] at he'
  obtain rfl := List.mem_singleton.mp he'
  obtain ⟨-, hs⟩ := Prod.mk.inj (Option.some.inj hx)
  obtain rfl := Option.some.inj hs
  have hlen : ∀ g ∈ tenDocsFacets.map.toList, g.2.toList.length ≤ 2 := by decide
  have := hlen g hg
  omega

theorem digestFits_tenDocs : DigestFits (tenDocs.sidecar tenDocsFiles) tenDocs.summary 1 := by
  have hlen : (facetDigest twoCategoriesFile 1).toOption.map List.length = some 35 := by decide +kernel
  obtain ⟨payload, hpay, hlen⟩ := Option.map_eq_some_iff.mp hlen
  refine ⟨payload, ?_, ?_⟩
  · show facetDigest twoCategoriesFile 1 = _
    cases h : facetDigest twoCategoriesFile 1 with
    | error _ => rw [h] at hpay; cases hpay
    | ok p => rw [h] at hpay; rw [Option.some.inj hpay]
  · show ([] ++ tlvRecord _ payload).length < _
    rw [List.nil_append, tlvRecord, Tlv.length_record, hlen]
    decide

/-- The digest of one category of `tenDocs`, as a summary. -/
def tenDocsDigest : Bytes := tlvRecord summaryTagFacetDigest ((facetDigest twoCategoriesFile 1).toOption.getD [])

/-- The open manifest of `tenDocs` with that summary, or with none. -/
def tenDocsSet (summary : Bytes) : SplitSet :=
  openManifest tenDocsConfig [{ tenDocs with summary := summary }] [(0, summary.length)] summary

theorem describes_tenDocs (summary : Bytes) : (tenDocsSet summary).Describes tenDocsConfig
    [{ tenDocs with summary := summary }] := by
  refine ⟨rfl, rfl, rfl, rfl, rfl, rfl, rfl, rfl, rfl, List.Forall₂.cons ?_ List.Forall₂.nil⟩
  refine ⟨rfl, rfl, rfl, rfl, rfl, rfl, rfl, rfl, ?_⟩
  show (if summary.length = 0 then none else some (slice summary 0 summary.length)).getD [] = summary
  split
  · next hz => exact (List.length_eq_zero_iff.mp hz).symm
  · exact List.take_length

theorem carries_tenDocs : (tenDocsSet []).CarriesDigests tenDocsFiles tenDocsConfig [tenDocs] ∧
    (tenDocsSet tenDocsDigest).CarriesDigests tenDocsFiles tenDocsConfig [tenDocs] := by
  obtain ⟨payload, hpayload, hfits⟩ := digestFits_tenDocs
  have hdigest : tenDocsDigest = tlvRecord summaryTagFacetDigest payload := by
    have hfile : facetDigest twoCategoriesFile 1 = .ok payload := hpayload
    rw [tenDocsDigest, hfile]
    rfl
  refine ⟨⟨_, carries_refl tenDocsFiles [tenDocs], describes_tenDocs []⟩, _, ?_, describes_tenDocs _⟩
  rw [hdigest]
  exact List.Forall₂.cons ⟨_, CarriesDigest.first rfl hpayload hfits, rfl⟩ List.Forall₂.nil

/-- The sidecar has `p` first, which a stable selection keeps; the digest keeps `a`. -/
theorem counts_tenDocs :
    (((tenDocsSet []).facetCountsTop tenDocsFiles tenDocsIds 1).run Schedule.calm).1.toOption =
      some [("kind", [("p", 1)])] ∧
    (((tenDocsSet tenDocsDigest).facetCountsTop tenDocsFiles tenDocsIds 1).run Schedule.calm).1.toOption =
      some [("kind", [("a", 1)])] := by
  decide +kernel

/-- With one category of two priced and a doc in each, the digest makes a difference to a stable selection. -/
theorem digest_settles_ties : ¬ TopDigestFree tenDocsFiles tenDocsConfig [tenDocs] tenDocsIds 1 ∧
    ¬ DigestFree tenDocsFiles tenDocsConfig [tenDocs] tenDocsIds 1 [("kind", "a")] := by
  have hnot : ¬ TopDigestFree tenDocsFiles tenDocsConfig [tenDocs] tenDocsIds 1 := by
    rintro ⟨answer, hanswer⟩
    obtain ⟨plain, hplain, hread⟩ := hanswer _ carries_tenDocs.1
    obtain ⟨digested, hdigested, hread'⟩ := hanswer _ carries_tenDocs.2
    obtain ⟨hp, ha⟩ := counts_tenDocs
    rw [hplain.calm] at hp
    rw [hdigested.calm] at ha
    rw [Option.some.inj hp] at hread
    rw [Option.some.inj ha] at hread'
    have hsame := congrFun (hread.trans hread'.symm) ("kind", "p")
    revert hsame
    decide
  exact ⟨hnot, fun hfree => hnot (hfree.1 stableSelect)⟩

end

end RoaringRange
