import RoaringRange.Bloom
import RoaringRange.FacetCorpus
import RoaringRange.Manifest

/-!
# The files of a split set and its summaries (`splitset.rs`)

A manifest only names files; a `SplitFetcher` opens them.  The records of a split's summary say what a query
need not open: the term Bloom filter, the facet-presence keys, the tombstones.

    a summary of records answers for a tag with the first record of it           (SplitOf.findTlv_eq)
    the facet-presence keys that were written are read back                      (facetKeys_presence)
-/

namespace RoaringRange

open ByteString Faults Slices

/-- `splitset::SplitFetcher`. -/
structure SplitFetcher where
  fetchNamed : String → MemoryFetch
  boot : Split → Option Bytes
  globalBloomName : Option String

/-- `str::strip_prefix`. -/
def stripPrefix (s start : String) : Option String :=
  if start.toList.isPrefixOf s.toList then some (String.ofList (s.toList.drop start.toList.length)) else none

/-- `str::strip_suffix`. -/
def stripSuffix (s suffix : String) : Option String :=
  let n := s.toList.length - suffix.toList.length
  if s.toList.drop n = suffix.toList then some (String.ofList (s.toList.take n)) else none

theorem stripSuffix_append (s suffix : String) : stripSuffix (s ++ suffix) suffix = some s := by
  unfold stripSuffix
  simp only [String.toList_append, List.length_append, Nat.add_sub_cancel, List.drop_left, List.take_left, if_true,
    String.ofList_toList]

/-- `splitset::facet_file_name`. -/
def facetFileName (dataFile : String) : String :=
  match (stripSuffix dataFile ".rrs").or (stripSuffix dataFile ".rrt") with
  | some stem => stem ++ ".rrf"
  | none => dataFile ++ ".rrf"

/-! ## Facet presence -/

section

variable [Unicode]

/-- The keys of every category, in order and each once. -/
def presenceKeys (facets : FacetMap) (caseFold : Bool) : List Key :=
  (AscSet.ofList (p := fun _ => True) (facets.pairs.map fun p => facetKey p.1 p.2 caseFold) fun _ _ => trivial).toList

/-- `splitset_build::facet_presence`. -/
def facetPresence (facets : FacetMap) (caseFold : Bool) : Bytes :=
  let keys := presenceKeys facets caseFold
  le 4 keys.length ++ table (fun k : Key => le 8 k.val) keys

end

namespace SplitSet

/-- `SplitSet::bloom`: a summary that is not well formed has none. -/
def bloom (s : SplitSet) (split : Split) : Option Bytes :=
  (s.summary split).bind fun summary =>
    match findTlv summary summaryTagBloom with
    | .ok payload => payload
    | .error _ => none

/-- `SplitSet::pruned_by_bloom`. -/
def prunedByBloom (s : SplitSet) (split : Split) (keys : List Key) : Bool :=
  match s.bloom split with
  | some bloom => keys.any fun k => !bloomContains bloom k
  | none => false

/-- `SplitSet::facet_keys`. -/
def facetKeys (s : SplitSet) (split : Split) : Except IndexError (Option (List Key)) := do
  let payload ← findTlv ((s.summary split).getD []) summaryTagFacet
  match payload with
  | none => pure none
  | some bytes =>
    if bytes.length < 4 then throw (.malformed "RRSS facet-presence summary too short")
    else
      let count := getLe 4 bytes 0
      if bytes.length < count * 8 + 4 then throw (.malformed "RRSS facet-presence summary out of range")
      else pure (some ((List.range count).map fun i => getKey bytes (4 + i * 8)))

/-- `SplitSet::facet_pruned`. -/
def facetPruned (s : SplitSet) (split : Split) (fields : List (List Key)) : Except IndexError Bool :=
  if fields.isEmpty || !hasFlag s.flags flagFacet then pure false
  else do
    let present ← s.facetKeys split
    match present with
    | none => pure true
    | some keys => pure (fields.any fun catKeys => !catKeys.any fun ck => found keys ck)

/-- `SplitSet::tombstone`. -/
def tombstone [Roaring] (s : SplitSet) (split : Split) : Except IndexError (Option Bitmap) := do
  let payload ← findTlv ((s.summary split).getD []) summaryTagTombstone
  match payload with
  | some bytes => do
    let ids ← deserialize bytes
    pure (some ids)
  | none => pure none

end SplitSet

/-! ## What a summary says -/

/-- A summary that is the records `rs`, within the length field of a split entry. -/
structure SummaryOf (summary : Bytes) (rs : List (Nat × Bytes)) : Prop where
  eq : summary = rs.flatMap fun r => tlvRecord r.1 r.2
  tag_lt : ∀ r ∈ rs, r.1 < 256
  length_lt : summary.length < 2 ^ 32

/-- The first record with a tag. -/
def recordOf (rs : List (Nat × Bytes)) (tag : Nat) : Option Bytes := (rs.find? fun r => r.1 = tag).map Prod.snd

theorem SummaryOf.findTlv_eq {summary : Bytes} {rs : List (Nat × Bytes)} (h : SummaryOf summary rs) (tag : Nat) :
    findTlv summary tag = .ok (recordOf rs tag) := findTlv_records h.tag_lt h.eq h.length_lt tag

/-- A record more, where the tag is a byte and the summary stays short enough. -/
theorem SummaryOf.append {summary : Bytes} {rs : List (Nat × Bytes)} (h : SummaryOf summary rs) {tag : Nat}
    (ht : tag < 256) {payload : Bytes} (hlen : (summary ++ tlvRecord tag payload).length < 2 ^ 32) :
    SummaryOf (summary ++ tlvRecord tag payload) (rs ++ [(tag, payload)]) := by
  refine ⟨?_, fun r hr => ?_, hlen⟩
  · rw [List.flatMap_append, ← h.eq, List.flatMap_singleton]
  · rcases List.mem_append.mp hr with hr | hr
    · exact h.tag_lt r hr
    · rw [List.mem_singleton.mp hr]
      exact ht

theorem recordOf_append (rs rs' : List (Nat × Bytes)) (tag : Nat) :
    recordOf (rs ++ rs') tag = (recordOf rs tag).or (recordOf rs' tag) := by
  unfold recordOf
  rw [List.find?_append]
  cases rs.find? fun r => decide (r.1 = tag) <;> rfl

theorem recordOf_eq_none {rs : List (Nat × Bytes)} {tag : Nat} (h : ∀ r ∈ rs, r.1 ≠ tag) : recordOf rs tag = none := by
  unfold recordOf
  rw [List.find?_eq_none.mpr fun r hr => by simpa using h r hr]
  rfl

/-- A split's summary answers for every tag. -/
theorem SplitOf.findTlv_eq {set : SplitSet} {split : Split} {spec : SplitSpec} (h : SplitOf set split spec)
    {rs : List (Nat × Bytes)} (hs : SummaryOf spec.summary rs) (tag : Nat) :
    findTlv ((set.summary split).getD []) tag = .ok (recordOf rs tag) := by
  rw [h.summary]
  exact hs.findTlv_eq tag

/-- A split whose summary has no presence record has no presence keys. -/
theorem facetKeys_none {set : SplitSet} {split : Split} {spec : SplitSpec} (h : SplitOf set split spec)
    {rs : List (Nat × Bytes)} (hs : SummaryOf spec.summary rs) (hr : recordOf rs summaryTagFacet = none) :
    set.facetKeys split = .ok none := by
  unfold SplitSet.facetKeys
  rw [h.findTlv_eq hs, hr]
  rfl

section

variable [Unicode] {facets : FacetMap} {caseFold : Bool}

theorem mem_presenceKeys {k : Key} :
    k ∈ presenceKeys facets caseFold ↔ ∃ p ∈ facets.pairs, facetKey p.1 p.2 caseFold = k := by
  unfold presenceKeys
  rw [AscSet.mem_toList, AscSet.mem_ofList, List.mem_map]

theorem presenceKeys_asc : (presenceKeys facets caseFold).Pairwise (· < ·) := AscSet.asc _

theorem length_presenceKeys_le : (presenceKeys facets caseFold).length ≤ facets.pairs.length := by
  have hsub : presenceKeys facets caseFold ⊆ facets.pairs.map fun p => facetKey p.1 p.2 caseFold := by
    intro k hk
    obtain ⟨p, hp, rfl⟩ := mem_presenceKeys.mp hk
    exact List.mem_map_of_mem hp
  have := (List.subperm_of_subset (presenceKeys_asc.imp fun h => ne_of_lt h) hsub).length_le
  rwa [List.length_map] at this

/-- **The presence keys are read back.** -/
theorem facetKeys_presence {set : SplitSet} {split : Split} {spec : SplitSpec} (h : SplitOf set split spec)
    {rs : List (Nat × Bytes)} (hs : SummaryOf spec.summary rs)
    (hr : recordOf rs summaryTagFacet = some (facetPresence facets caseFold)) (hfit : facets.pairs.length < 2 ^ 32) :
    set.facetKeys split = .ok (some (presenceKeys facets caseFold)) := by
  have hlen := @length_presenceKeys_le _ facets caseFold
  have hcount : getLe 4 (facetPresence facets caseFold) 0 = (presenceKeys facets caseFold).length :=
    getLe_field (by omega) _
  have hbytes : (facetPresence facets caseFold).length = 4 + (presenceKeys facets caseFold).length * 8 := by
    rw [facetPresence, List.length_append, length_le, length_table fun k : Key => length_le 8 k.val]
  unfold SplitSet.facetKeys
  rw [h.findTlv_eq hs, hr]
  simp only [bind, Except.bind]
  rw [if_neg (by omega), hcount, if_neg (by omega)]
  refine congrArg (fun x => Except.ok (some x)) (List.ext_getElem (by simp) fun i h1 h2 => ?_)
  rw [List.getElem_map, List.getElem_range, getKey]
  have hrow := getLe_table (fun k : Key => length_le 8 k.val) (presenceKeys facets caseFold) i h2 8 0 (by omega)
  rw [Nat.add_zero] at hrow
  rw [facetPresence, getLe_append_right _ _ _ _ (by rw [length_le]; omega), length_le, Nat.add_sub_cancel_left, hrow,
    getLe_last (presenceKeys facets caseFold)[i].isLt]
  exact Fin.ofNat_val_eq_self _

end

end RoaringRange
