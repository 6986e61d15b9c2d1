import RoaringRange.SplitSetBuild
import RoaringRange.TextIndex

/-!
# Candidates of a query, and checking them (`index.rs`)

`search_candidates` reads only the `k` smallest of the query's postings and leaves the others to a check of the
candidates texts (`hasAllKeys`).

    the candidates are the docs of the keys with the smallest postings       (Index.settles_searchCandidates)
    reading one posting more only takes candidates away                              (Index.rarestDocs_subset)
    the candidates that pass the check are what the search finds                        (candidates_verified)
-/

namespace RoaringRange

open ByteString Faults Slices

namespace Index

/-- The entries of the `k` smallest postings. -/
def rarest (k : Nat) (recs : List DictRec) : List DictRec := (sortByKey DictRec.size recs).take (min k recs.length)

section

variable [Roaring]

/-- The postings of the chosen entries, in one wave, and what they have in common. -/
def candidatesOf (ix : Index) (recs : List DictRec) : Io (List Nat) := do
  let postings ← tryAll (recs.map fun r => readPosting ix.fetch r.offset r.size)
  pure (intersect postings).toList

/-- `Index::search_candidates`. -/
def searchCandidates [Unicode] (ix : Index) (query : String) (k : Nat) : Io (List Nat) :=
  let keys := ix.queryKeys query
  if keys.isEmpty ∨ k = 0 then pure []
  else
    match keys.mapM ix.dictBlockFor with
    | none => pure []
    | some blocks => do
      let recs ← ix.parsePresent (keys.zip blocks)
      match recs.mapM id with
      | none => pure []
      | some recs => ix.candidatesOf (rarest k recs)

end

/-! ## What is read -/

/-- The bytes of a key's posting. -/
def postingSize (ix : Index) (key : Key) : Nat := ((ix.findRec key).map DictRec.size).getD 0

/-- The `k` keys with the smallest postings. -/
def rarestKeys (ix : Index) (keys : List Key) (k : Nat) : List Key :=
  (sortByKey ix.postingSize keys).take (min k keys.length)

/-- The docs of the `k` keys with the smallest postings, and none where a key is absent. -/
def rarestDocs [Roaring] (ix : Index) (keys : List Key) (k : Nat) : Bitmap :=
  if keys.all fun key => (ix.findRec key).isSome then ix.strictDocs (ix.rarestKeys keys k) else ∅

section

variable {ix : Index} {keys : List Key} {k : Nat}

theorem length_rarestKeys (ix : Index) (keys : List Key) (k : Nat) :
    (ix.rarestKeys keys k).length = min k keys.length := by
  rw [rarestKeys, List.length_take, length_sortByKey]
  omega

theorem rarestKeys_nodup (h : keys.Nodup) : (ix.rarestKeys keys k).Nodup := by
  have hsorted := (sortByKey_perm ix.postingSize keys).nodup_iff.mpr h
  exact hsorted.sublist (List.take_sublist _ _)

theorem rarestKeys_subset {key : Key} (h : key ∈ ix.rarestKeys keys k) : key ∈ keys :=
  mem_sortByKey.mp (List.mem_of_mem_take h)

/-- No key that is left out has a smaller posting than one that is read. -/
theorem rarestKeys_rarest {key other : Key} (h : key ∈ ix.rarestKeys keys k) (ho : other ∈ keys)
    (hout : other ∉ ix.rarestKeys keys k) : ix.postingSize key ≤ ix.postingSize other := by
  have hsplit := List.take_append_drop (min k keys.length) (sortByKey ix.postingSize keys)
  have hsorted := sortByKey_sorted ix.postingSize keys
  rw [← hsplit, List.pairwise_append] at hsorted
  obtain ⟨-, -, hcross⟩ := hsorted
  refine hcross key h other ?_
  have hmem : other ∈ sortByKey ix.postingSize keys := mem_sortByKey.mpr ho
  rw [← hsplit, List.mem_append] at hmem
  exact hmem.resolve_left hout

theorem rarestKeys_all (h : keys.length ≤ k) : ix.rarestKeys keys k = sortByKey ix.postingSize keys := by
  rw [rarestKeys, Nat.min_eq_right h]
  exact List.take_of_length_le (by rw [length_sortByKey])

theorem rarestKeys_ne_nil (hk : 0 < k) (hne : keys ≠ []) : ix.rarestKeys keys k ≠ [] := by
  intro hnil
  have hlen := length_rarestKeys ix keys k
  rw [hnil, List.length_nil] at hlen
  have hpos := List.length_pos_iff.mpr hne
  omega

theorem rarestKeys_mono {j : Nat} (h : j ≤ k) {key : Key} (hmem : key ∈ ix.rarestKeys keys j) :
    key ∈ ix.rarestKeys keys k := by
  unfold rarestKeys at hmem ⊢
  rw [List.mem_take_iff_getElem] at hmem ⊢
  obtain ⟨i, hi, hget⟩ := hmem
  exact ⟨i, by omega, hget⟩

variable [Roaring]

theorem mem_rarestDocs {d : Nat} : d ∈ ix.rarestDocs keys k ↔ (∀ key ∈ keys, (ix.findRec key).isSome) ∧
    ix.rarestKeys keys k ≠ [] ∧ ∀ key ∈ ix.rarestKeys keys k, ∃ S, ix.postingOf key = some S ∧ d ∈ S := by
  unfold rarestDocs
  split
  · next hall =>
    rw [mem_strictDocs]
    exact ⟨fun h => ⟨List.all_eq_true.mp hall, h⟩, And.right⟩
  · next hnot =>
    refine iff_of_false (AscSet.not_mem_empty d) fun h => hnot ?_
    exact List.all_eq_true.mpr h.1

theorem keys_of_mem_rarestDocs {d : Nat} (h : d ∈ ix.rarestDocs keys k) : keys ≠ [] := by
  rintro rfl
  obtain ⟨-, hne, -⟩ := mem_rarestDocs.mp h
  refine hne ?_
  rw [← List.length_eq_zero_iff, length_rarestKeys, List.length_nil, Nat.min_zero]

/-- **One posting more takes candidates away** and adds none. -/
theorem rarestDocs_subset {j : Nat} (hj : 0 < j) (h : j ≤ k) {d : Nat} (hd : d ∈ ix.rarestDocs keys k) :
    d ∈ ix.rarestDocs keys j := by
  have hkeys := keys_of_mem_rarestDocs hd
  rw [mem_rarestDocs] at hd ⊢
  obtain ⟨hall, hne, hdocs⟩ := hd
  exact ⟨hall, rarestKeys_ne_nil hj hkeys, fun key hkey => hdocs key (rarestKeys_mono h hkey)⟩

/-- What the search finds is among the candidates. -/
theorem strictDocs_rarestDocs (hk : 0 < k) {d : Nat} (hd : d ∈ ix.strictDocs keys) : d ∈ ix.rarestDocs keys k := by
  obtain ⟨hne, hall⟩ := mem_strictDocs.mp hd
  refine mem_rarestDocs.mpr ⟨fun key hkey => ?_, rarestKeys_ne_nil hk hne, fun key hkey => ?_⟩
  · obtain ⟨S, hS, -⟩ := hall key hkey
    obtain ⟨r, hr, -⟩ := Option.map_eq_some_iff.mp hS
    rw [hr]
    rfl
  · exact hall key (rarestKeys_subset hkey)

/-- With all of the postings the candidates are what the search finds. -/
theorem rarestDocs_all (h : keys.length ≤ k) : ix.rarestDocs keys k = ix.strictDocs keys := by
  refine AscSet.ext_mem fun d => ?_
  by_cases hnil : keys = []
  · subst hnil
    refine iff_of_false (fun hd => keys_of_mem_rarestDocs hd rfl) fun hd => ?_
    exact (mem_strictDocs.mp hd).1 rfl
  · constructor
    · intro hd
      obtain ⟨-, -, hdocs⟩ := mem_rarestDocs.mp hd
      rw [rarestKeys_all h] at hdocs
      exact mem_strictDocs.mpr ⟨hnil, fun key hkey => hdocs key (mem_sortByKey.mpr hkey)⟩
    · refine strictDocs_rarestDocs ?_
      have hpos := List.length_pos_iff.mpr hnil
      omega

/-! ## The reads -/

/-- The dictionary wave of a search: every key's entry, or a key that is absent. -/
theorem settles_present (hw : ix.WellFormed) {blocks : List DictBlock} (h : keys.mapM ix.dictBlockFor = some blocks) :
    Settles (ix.parsePresent (keys.zip blocks)) (.ok (keys.map ix.findRec)) := by
  have hpairs := mapM_some_forall₂ h
  have hpresent : ∀ x ∈ keys.zip blocks, ix.dictBlockFor x.1 = some x.2 := by
    intro x hx
    obtain ⟨i, hi, rfl⟩ := List.getElem_of_mem hx
    rw [List.length_zip] at hi
    rw [List.getElem_zip]
    exact (List.forall₂_iff_get.mp hpairs).2 i (by omega) (by omega)
  have hrecs : (keys.zip blocks).map (fun x => parseBlock (ix.blockBytes x.2) x.2.entries x.1) =
      keys.map ix.findRec := by
    have hfst : keys = (keys.zip blocks).map Prod.fst := by
      rw [List.map_fst_zip (Nat.le_of_eq hpairs.length_eq)]
    conv => rhs; rw [hfst, List.map_map]
    refine List.map_congr_left fun x hx => ?_
    simp only [Function.comp_apply, findRec, hpresent x hx, Option.bind_some]
  rw [← hrecs]
  refine settles_parsePresent fun x hx => ?_
  exact ⟨isBlock_dictBlockFor (hpresent x hx), hw.block _ _ (hpresent x hx)⟩

/-- The entry of a key that has one. -/
def entryOf (ix : Index) (key : Key) : DictRec := (ix.findRec key).getD ⟨key, 0, 0⟩

omit [Roaring] in
/-- The entries of the smallest postings are those of the rarest keys. -/
theorem rarest_map_entryOf (ix : Index) (keys : List Key) (k : Nat) :
    rarest k (keys.map ix.entryOf) = (ix.rarestKeys keys k).map ix.entryOf := by
  have hsize : (fun key => (ix.entryOf key).size) = ix.postingSize := by
    funext key
    unfold entryOf postingSize
    cases ix.findRec key with
    | none => rfl
    | some r => rfl
  have hsort := map_sortByKey DictRec.size ix.entryOf keys
  rw [hsize] at hsort
  unfold rarest rarestKeys
  rw [← hsort, List.length_map, List.map_take]

theorem settles_candidatesOf (hw : ix.WellFormed) {chosen : List Key}
    (h : ∀ key ∈ chosen, ix.findRec key = some (ix.entryOf key)) :
    Settles (ix.candidatesOf (chosen.map ix.entryOf)) (.ok (ix.strictDocs chosen).toList) := by
  unfold candidatesOf
  have hread : Settles (tryAll ((chosen.map ix.entryOf).map fun r => readPosting ix.fetch r.offset r.size))
      (.ok ((chosen.map ix.entryOf).map ix.postingSet)) := by
    refine settles_tryAll_map fun r hr => ?_
    obtain ⟨key, hkey, rfl⟩ := List.mem_map.mp hr
    exact settles_readPosting (hw.postingAt (h key hkey))
  have hsets : chosen.mapM ix.postingOf = some ((chosen.map ix.entryOf).map ix.postingSet) := by
    rw [List.map_map]
    refine mapM_of_forall₂ (List.forall₂_map_right_iff.mpr (List.forall₂_same.mpr fun key hkey => ?_))
    rw [postingOf, h key hkey]
    rfl
  refine hread.bind ?_
  rw [intersect, AscSet.inters_sortByLen, strictDocs, hsets]
  exact Settles.pure _

variable [Unicode]

/-- **The candidates** are the docs of the keys with the smallest postings. -/
theorem settles_searchCandidates (hw : ix.WellFormed) (query : String) (k : Nat) :
    Settles (ix.searchCandidates query k) (.ok (ix.rarestDocs (ix.queryKeys query) k).toList) := by
  unfold searchCandidates
  generalize ix.queryKeys query = keys
  simp only
  have habsent : ∀ key ∈ keys, ix.findRec key = none → ix.rarestDocs keys k = ∅ := by
    intro key hkey hnone
    unfold rarestDocs
    refine if_neg fun hall => ?_
    have hsome := List.all_eq_true.mp hall key hkey
    rw [hnone] at hsome
    cases hsome
  split
  · next htriv =>
    have hnil : ix.rarestKeys keys k = [] := by
      rw [← List.length_eq_zero_iff, length_rarestKeys]
      rcases htriv with hkeys | hk
      · rw [List.isEmpty_iff.mp hkeys, List.length_nil, Nat.min_zero]
      · rw [hk, Nat.zero_min]
    have hempty : ix.rarestDocs keys k = ∅ := by
      unfold rarestDocs
      rw [hnil]
      exact ite_self _
    rw [hempty]
    exact Settles.pure _
  · split
    · next hnone =>
      obtain ⟨key, hkey, hblk⟩ := mapM_eq_none_iff.mp hnone
      have hrec : ix.findRec key = none := by rw [findRec, hblk, Option.bind_none]
      rw [habsent key hkey hrec]
      exact Settles.pure _
    · next blocks hblocks =>
      refine (settles_present hw hblocks).bind ?_
      split
      · next hnone =>
        obtain ⟨o, ho, hon⟩ := mapM_eq_none_iff.mp hnone
        obtain ⟨key, hkey, rfl⟩ := List.mem_map.mp ho
        rw [habsent key hkey hon]
        exact Settles.pure _
      · next recs hsome =>
        have hfound := mapM_some_forall₂ hsome
        rw [List.forall₂_map_left_iff] at hfound
        have hentry : ∀ key ∈ keys, ix.findRec key = some (ix.entryOf key) := by
          intro key hkey
          obtain ⟨r, -, hr⟩ := exists_partner hfound hkey
          have hr : ix.findRec key = some r := hr
          rw [entryOf, hr, Option.getD_some]
        have hrecs : recs = keys.map ix.entryOf := by
          have hsame : List.Forall₂ Eq recs (keys.map ix.entryOf) := by
            refine List.forall₂_map_right_iff.mpr (hfound.flip.imp fun r key hr => ?_)
            have hr : ix.findRec key = some r := hr
            rw [entryOf, hr, Option.getD_some]
          rwa [List.forall₂_eq_eq_eq] at hsame
        have hall : (keys.all fun key => (ix.findRec key).isSome) = true := by
          refine List.all_eq_true.mpr fun key hkey => ?_
          rw [hentry key hkey]
          rfl
        rw [hrecs, rarest_map_entryOf, rarestDocs, if_pos hall]
        exact settles_candidatesOf hw fun key hkey => hentry key (rarestKeys_subset hkey)

end

end Index

/-! ## Checking the candidates -/

/-- A bitmap within another lists docs of it in their order. -/
theorem toList_sublist {S T : Bitmap} (h : ∀ d ∈ S, d ∈ T) : S.toList.Sublist T.toList := by
  refine List.sublist_of_subperm_of_pairwise ?_ S.asc T.asc
  exact List.subperm_of_subset (S.asc.imp ne_of_lt) h

section

variable [Unicode]

/-- The doc's text has all of the keys. -/
def hasAllKeys (gramSize : Nat) (caseFold : Bool) (documents : List (Fin u32Bound × String)) (keys : List Key)
    (d : Nat) : Bool :=
  documents.any fun x => x.1.val == d && keys.all fun key => (ngramKeysWith x.2 gramSize caseFold).contains key

/-- Of documents with ids of their own, those with all the keys are the docs that every key has. -/
theorem hasAllKeys_iff {gramSize : Nat} {caseFold : Bool} {documents : List (Fin u32Bound × String)}
    (hids : (documents.map Prod.fst).Nodup) {keys : List Key} (hne : keys ≠ []) {d : Nat} :
    hasAllKeys gramSize caseFold documents keys d = true ↔ ∀ key ∈ keys,
      d ∈ (postingsOf (documents.map fun x => (x.1, ngramKeysWith x.2 gramSize caseFold))).docs key := by
  simp only [hasAllKeys, List.any_eq_true, Bool.and_eq_true, beq_iff_eq, List.all_eq_true, List.contains_iff_mem]
  constructor
  · rintro ⟨x, hx, rfl, hall⟩ key hkey
    exact mem_docs_postingsOf.mpr ⟨_, List.mem_map_of_mem hx, rfl, hall key hkey⟩
  · intro hall
    have hdoc : ∀ key ∈ keys, ∃ x ∈ documents, d = x.1.val ∧ key ∈ ngramKeysWith x.2 gramSize caseFold := by
      intro key hkey
      obtain ⟨y, hy, hd, hmem⟩ := mem_docs_postingsOf.mp (hall key hkey)
      obtain ⟨x, hx, rfl⟩ := List.mem_map.mp hy
      exact ⟨x, hx, hd, hmem⟩
    obtain ⟨first, hfirst⟩ := List.exists_mem_of_ne_nil keys hne
    obtain ⟨x, hx, hd, -⟩ := hdoc first hfirst
    refine ⟨x, hx, hd.symm, fun key hkey => ?_⟩
    obtain ⟨y, hy, hdy, hmem⟩ := hdoc key hkey
    have hxy : x = y := List.inj_on_of_nodup_map hids hx hy (Fin.ext (hd.symm.trans hdy))
    rw [hxy]
    exact hmem

variable [Roaring] {gramSize stride : Nat}

omit [Unicode] in
/-- The entry of a key has the bytes of its docs. -/
theorem Corpus.postingSize_eq (c : Corpus) {key : Key} {S : Bitmap}
    (h : (c.index (MemoryFetch.new c.bytes)).postingOf key = some S) :
    (c.index (MemoryFetch.new c.bytes)).postingSize key = (serialize S).length := by
  obtain ⟨r, hr, rfl⟩ := Option.map_eq_some_iff.mp h
  have hmem : r ∈ c.recs := by
    rw [c.findRec_eq] at hr
    exact List.mem_of_find?_eq_some hr
  obtain ⟨p, -, -, hle, hsize, hslice⟩ := exists_partner c.recs_posts hmem
  rw [Index.postingSize, hr, Index.postingSet_eq (c.recs_postingAt hle hslice)]
  exact hsize

/-- These are the docs of the `k` smallest of the keys' postings, `k` keys of their own, and none where a key has no
posting. -/
structure PostMap.RarestDocs (posts : PostMap) (keys : List Key) (k : Nat) (found : List Nat) : Prop where
  absent : (∃ key ∈ keys, posts.find? key = none) → found = []
  chosen : (∀ key ∈ keys, posts.find? key ≠ none) → ∃ chosen ⊆ keys, chosen.Nodup ∧
    chosen.length = min k keys.length ∧
    (∀ key ∈ chosen, ∀ other ∈ keys, other ∉ chosen →
      (serialize (posts.docs key)).length ≤ (serialize (posts.docs other)).length) ∧
    ∀ d, d ∈ found ↔ chosen ≠ [] ∧ ∀ key ∈ chosen, d ∈ posts.docs key

omit [Unicode] in
theorem Corpus.rarestDocs_holds (c : Corpus) {posts : PostMap}
    (h : ∀ key, (c.index (MemoryFetch.new c.bytes)).postingOf key = posts.find? key) {keys : List Key}
    (hkeys : keys.Nodup) (k : Nat) :
    posts.RarestDocs keys k ((c.index (MemoryFetch.new c.bytes)).rarestDocs keys k).toList := by
  have hfind : ∀ key, ((c.index (MemoryFetch.new c.bytes)).findRec key).isSome ↔ posts.find? key ≠ none := by
    intro key
    rw [← h key, Index.postingOf, ne_eq, Option.map_eq_none_iff, ← ne_eq, Option.isSome_iff_ne_none]
  refine ⟨?_, fun hall => ⟨(c.index (MemoryFetch.new c.bytes)).rarestKeys keys k, fun key hkey => Index.rarestKeys_subset hkey,
    Index.rarestKeys_nodup hkeys, Index.length_rarestKeys _ _ _, fun key hkey other ho hout => ?_, fun d => ?_⟩⟩
  · rintro ⟨key, hkey, hnone⟩
    refine List.eq_nil_iff_forall_not_mem.mpr fun d hd => ?_
    exact (hfind key).mp ((Index.mem_rarestDocs.mp hd).1 key hkey) hnone
  · have hsize : ∀ key ∈ keys, (c.index (MemoryFetch.new c.bytes)).postingSize key =
        (serialize (posts.docs key)).length := by
      intro key hkey
      obtain ⟨S, hS⟩ := Option.ne_none_iff_exists'.mp (hall key hkey)
      rw [c.postingSize_eq ((h key).trans hS), PostMap.docs, hS, Option.getD_some]
    rw [← hsize key (Index.rarestKeys_subset hkey), ← hsize other ho]
    exact Index.rarestKeys_rarest hkey ho hout
  · refine Index.mem_rarestDocs.trans ?_
    rw [and_iff_right fun key hkey => (hfind key).mpr (hall key hkey)]
    refine and_congr_right fun _ => forall₂_congr fun key _ => ?_
    rw [h key, PostMap.docs]
    cases posts.find? key with
    | none => simp
    | some S => simp

/-- **Candidates and a check make a search**: over the index of any documents, the docs of the `k` smallest postings
include every doc that has all the query's keys, and those whose texts pass the check are what the search lists. -/
theorem candidates_verified (hg : gramSize < 2 ^ 16) (hs : stride < 2 ^ 32) (caseFold : Bool)
    {documents : List (Fin u32Bound × String)} (hids : (documents.map Prod.fst).Nodup) {entries : List (Key × Bitmap)}
    (hperm : entries.Perm (postingsOf (documents.map fun x => (x.1, ngramKeysWith x.2 gramSize caseFold))).toList)
    (hlen : entries.length < 2 ^ 32) :
    ∃ file ix, writeIndexWith gramSize stride (serializeEntries entries) caseFold = .ok file ∧
      Settles (Index.open (MemoryFetch.new file)) (.ok ix) ∧
      ∀ query k, 0 < k → ∃ found : List Nat,
        let keys := ngramKeysWith query gramSize caseFold
        Settles (ix.searchCandidates query k) (.ok found) ∧ found.Pairwise (· < ·) ∧
        PostMap.RarestDocs (postingsOf (documents.map fun x => (x.1, ngramKeysWith x.2 gramSize caseFold))) keys k
          found ∧
        (∀ limit, Settles (ix.search query limit)
          (.ok ((found.filter (hasAllKeys gramSize caseFold documents keys)).take limit))) ∧
        (∀ j found', k ≤ j → Settles (ix.searchCandidates query j) (.ok found') → found'.Sublist found) ∧
        (keys.length ≤ k → found.all (hasAllKeys gramSize caseFold documents keys) = true) := by
  have hnd : (entries.map Prod.fst).Nodup := (hperm.map Prod.fst).nodup_iff.mpr (OrdMap.keys_nodup _)
  obtain ⟨c, rfl, hstride, rfl, hposts⟩ := Corpus.exists_perm hg hs caseFold hnd hlen
  have hpost : ∀ k, (c.index (MemoryFetch.new c.bytes)).postingOf k =
      (postingsOf (documents.map fun x => (x.1, ngramKeysWith x.2 c.gramSize c.caseFold))).find? k := by
    intro k
    rw [c.postingOf_eq, Corpus.posting, find?_eq_of_perm (hposts.symm.trans hperm) (OrdMap.keys_nodup _),
      OrdMap.find?_toList, Option.map_map]
    exact Option.map_id'
  have hw := @Corpus.wellFormed _ c
  refine ⟨c.bytes, c.index (MemoryFetch.new c.bytes), c.writeIndexWith_eq hstride (hposts.map _), c.settles_open,
    fun query k hk => ?_⟩
  have hset : ∀ j, Settles ((c.index (MemoryFetch.new c.bytes)).searchCandidates query j)
      (.ok ((c.index (MemoryFetch.new c.bytes)).rarestDocs (ngramKeysWith query c.gramSize c.caseFold) j).toList) :=
    fun j => Index.settles_searchCandidates hw query j
  have hfind : ∀ limit, Settles ((c.index (MemoryFetch.new c.bytes)).search query limit)
      (.ok (((c.index (MemoryFetch.new c.bytes)).strictDocs (ngramKeysWith query c.gramSize c.caseFold)).toList.take
        limit)) := fun limit => Index.settles_search hw query limit
  have hkeys := ngramKeysWith_nodup query c.gramSize c.caseFold
  generalize ngramKeysWith query c.gramSize c.caseFold = keys at hset hfind hkeys
  have hpass : ∀ d, d ∈ (c.index (MemoryFetch.new c.bytes)).strictDocs keys ↔
      d ∈ (c.index (MemoryFetch.new c.bytes)).rarestDocs keys k ∧
        hasAllKeys c.gramSize c.caseFold documents keys d = true := by
    intro d
    by_cases hne : keys = []
    · subst hne
      refine iff_of_false (fun hd => (mem_strictDocs_iff hpost).mp hd |>.1 rfl) fun hd => ?_
      exact Index.keys_of_mem_rarestDocs hd.1 rfl
    · rw [hasAllKeys_iff hids hne]
      constructor
      · intro hd
        exact ⟨Index.strictDocs_rarestDocs hk hd, ((mem_strictDocs_iff hpost).mp hd).2⟩
      · rintro ⟨-, hall⟩
        exact (mem_strictDocs_iff hpost).mpr ⟨hne, hall⟩
  refine ⟨_, hset k, AscSet.asc _, c.rarestDocs_holds hpost hkeys k, fun limit => ?_, fun j found' hj hfound' => ?_, fun hle => ?_⟩
  · have hfilter : ((c.index (MemoryFetch.new c.bytes)).rarestDocs keys k).toList.filter
        (hasAllKeys c.gramSize c.caseFold documents keys) =
        ((c.index (MemoryFetch.new c.bytes)).strictDocs keys).toList := by
      rw [← AscSet.toList_filter]
      refine congrArg AscSet.toList (AscSet.ext_mem fun d => ?_)
      rw [AscSet.mem_filter]
      exact (hpass d).symm
    rw [hfilter]
    exact hfind limit
  · obtain rfl := hfound'.ok_unique (hset j)
    exact toList_sublist fun d hd => Index.rarestDocs_subset hk hj hd
  · refine List.all_eq_true.mpr fun d hd => ?_
    rw [Index.rarestDocs_all hle] at hd
    exact ((hpass d).mp hd).2

end

section

attribute [local instance] PortableCodec.roaring asciiUnicode

/-- Texts of which four have the rarer of two grams and three have both. -/
def checkedTexts : List (Fin u32Bound × String) :=
  [(wrapAdd 0 0, "abcd"), (wrapAdd 0 1, "abc"), (wrapAdd 0 2, "bcd"), (wrapAdd 0 3, "xabcd"), (wrapAdd 0 4, "abc bcd"),
    (wrapAdd 0 5, "abc"), (wrapAdd 0 6, "abc")]

def checkedPosts : PostMap := postingsOf (checkedTexts.map fun x => (x.1, ngramKeysWith x.2 3 true))

theorem candidates_verified_abcd : ∃ file ix found,
    writeIndexWith 3 0 (serializeEntries checkedPosts.toList) true = .ok file ∧
    Settles (Index.open (MemoryFetch.new file)) (.ok ix) ∧ Settles (ix.searchCandidates "abcd" 1) (.ok found) ∧
    Settles (ix.search "abcd" 2)
      (.ok ((found.filter (hasAllKeys 3 true checkedTexts (ngramKeysWith "abcd" 3 true))).take 2)) := by
  obtain ⟨file, ix, hfile, hopen, hall⟩ := @candidates_verified _ _ 3 0 (by decide) (by decide) true checkedTexts
    (by decide +kernel) checkedPosts.toList (List.Perm.refl _) (by decide +kernel)
  obtain ⟨found, hfound, -, -, hsearch, -⟩ := hall "abcd" 1 (by decide)
  exact ⟨file, ix, found, hfile, hopen, hfound, hsearch 2⟩

end

end RoaringRange
