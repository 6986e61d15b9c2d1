import RoaringRange.IndexLookup
import RoaringRange.Lib.OrdMap

/-!
# The n-gram index of a list of documents

A builder keeps a posting per key and adds each document to the postings of its keys (`PostMap`);
`writeIndexWith` lays the postings out.  A search of the index finds every document that contains the
query's words, as long as the query has a key at all.

    a doc is in a key's posting when one of its texts has the key               (mem_docs_postingsOf)
    the search lists the first docs that have all the query's keys                     (postMap_search)
    a document with all the words of the query is found                           (ngramKeys_complete)
-/

namespace RoaringRange

open ByteString Faults Slices

/-! ## Postings by key -/

/-- A posting per key. -/
abbrev PostMap := OrdMap Key Bitmap

namespace PostMap

/-- The docs of a key. -/
def docs (m : PostMap) (k : Key) : Bitmap := (m.find? k).getD ∅

/-- `entry(k).or_default().insert(doc)`. -/
def insert (m : PostMap) (doc : Fin u32Bound) (k : Key) : PostMap :=
  m.update k fun bm => (bm.getD ∅).insert doc.val doc.isLt

/-- A document with its keys. -/
def add (m : PostMap) (doc : Fin u32Bound) (keys : List Key) : PostMap :=
  keys.foldl (fun m k => m.insert doc k) m

theorem mem_docs_insert {m : PostMap} {doc : Fin u32Bound} {j k : Key} {d : Nat} :
    d ∈ (m.insert doc j).docs k ↔ d ∈ m.docs k ∨ (d = doc.val ∧ k = j) := by
  unfold docs insert
  rw [OrdMap.find?_update]
  by_cases h : k = j
  · subst h
    rw [if_pos rfl, Option.getD_some, AscSet.mem_insert, or_comm]
    simp
  · rw [if_neg h]
    simp [h]

theorem mem_docs_add {doc : Fin u32Bound} {keys : List Key} {k : Key} {d : Nat} : ∀ {m : PostMap},
    d ∈ (m.add doc keys).docs k ↔ d ∈ m.docs k ∨ (d = doc.val ∧ k ∈ keys) := by
  induction keys with
  | nil => simp [add]
  | cons j keys ih =>
    intro m
    show d ∈ ((m.insert doc j).add doc keys).docs k ↔ _
    rw [ih, mem_docs_insert, List.mem_cons, or_assoc, ← and_or_left]

end PostMap

/-- The postings of the documents. -/
def postingsOf (documents : List (Fin u32Bound × List Key)) : PostMap :=
  documents.foldl (fun m x => m.add x.1 x.2) ∅

theorem mem_docs_postingsOf {documents : List (Fin u32Bound × List Key)} {k : Key} {d : Nat} :
    d ∈ (postingsOf documents).docs k ↔ ∃ x ∈ documents, d = x.1.val ∧ k ∈ x.2 := by
  have hfold : ∀ (xs : List (Fin u32Bound × List Key)) (m : PostMap),
      d ∈ (xs.foldl (fun m x => m.add x.1 x.2) m).docs k ↔ d ∈ m.docs k ∨ ∃ x ∈ xs, d = x.1.val ∧ k ∈ x.2 := by
    intro xs
    induction xs with
    | nil => simp
    | cons x xs ih =>
      intro m
      rw [List.foldl_cons, ih, PostMap.mem_docs_add, List.exists_mem_cons_iff, or_assoc]
  unfold postingsOf
  rw [hfold]
  have hempty : d ∉ PostMap.docs ∅ k := AscSet.not_mem_empty d
  simp only [hempty, false_or]

/-! ## Searching their index -/

/-- An element of an ascending list is among the first `n`, or these are `n` smaller ones. -/
theorem mem_take_of_asc {xs : List Nat} (h : xs.Pairwise (· < ·)) {x : Nat} (hx : x ∈ xs) (n : Nat) :
    x ∈ xs.take n ∨ ((xs.take n).length = n ∧ ∀ y ∈ xs.take n, y < x) := by
  obtain ⟨i, hi, rfl⟩ := List.getElem_of_mem hx
  by_cases hin : i < n
  · exact Or.inl (List.mem_take_iff_getElem.mpr ⟨i, by omega, rfl⟩)
  · refine Or.inr ⟨by rw [List.length_take]; omega, fun y hy => ?_⟩
    obtain ⟨j, hj, rfl⟩ := List.mem_take_iff_getElem.mp hy
    exact List.pairwise_iff_getElem.mp h j i (by omega) hi (by omega)

section

variable [Roaring] [Unicode]

omit [Unicode] in
/-- The docs that have every one of the keys. -/
theorem mem_strictDocs_iff {ix : Index} {m : PostMap} (h : ∀ k, ix.postingOf k = m.find? k) {keys : List Key} {d : Nat} :
    d ∈ ix.strictDocs keys ↔ keys ≠ [] ∧ ∀ k ∈ keys, d ∈ m.docs k := by
  rw [Index.mem_strictDocs]
  refine and_congr_right fun _ => forall₂_congr fun k _ => ?_
  rw [h k, PostMap.docs]
  cases m.find? k with
  | none => simp
  | some S => simp

variable {gramSize stride : Nat}

/-- **Searching the index of a posting map**: the first docs that have all the query's keys. -/
theorem postMap_search (hg : gramSize < 2 ^ 16) (hs : stride < 2 ^ 32) (caseFold : Bool) {m : PostMap}
    {entries : List (Key × Bitmap)} (hperm : entries.Perm m.toList) (hlen : entries.length < 2 ^ 32) :
    ∃ file ix, writeIndexWith gramSize stride (serializeEntries entries) caseFold = .ok file ∧
      Settles (Index.open (MemoryFetch.new file)) (.ok ix) ∧ ix.gramSize = gramSize ∧ ix.caseFold = caseFold ∧
      (∀ k, ix.postingOf k = m.find? k) ∧
      ∀ query limit, Settles (ix.search query limit) (.ok ((ix.strictDocs (ix.queryKeys query)).toList.take limit)) := by
  have hnd : (entries.map Prod.fst).Nodup := (hperm.map Prod.fst).nodup_iff.mpr m.keys_nodup
  obtain ⟨c, rfl, hstride, rfl, hposts⟩ := Corpus.exists_perm hg hs caseFold hnd hlen
  refine ⟨c.bytes, c.index (MemoryFetch.new c.bytes), c.writeIndexWith_eq hstride (hposts.map _), c.settles_open,
    rfl, rfl, fun k => ?_, fun query limit => Index.settles_search c.wellFormed query limit⟩
  rw [c.postingOf_eq, Corpus.posting, find?_eq_of_perm (hposts.symm.trans hperm) m.keys_nodup, m.find?_toList,
    Option.map_map]
  exact Option.map_id'

/-- **The n-grams of a text are complete for containment**, and a search of the index of some documents finds each
that contains the query's words, unless as many before it fill the limit. -/
theorem ngramKeys_complete (hg : 0 < gramSize) (caseFold : Bool) :
    (∀ text query, (ngramKeysWith query gramSize caseFold).Nodup ∧ (ngramKeysWith text gramSize caseFold).Nodup ∧
      (ContainsWords gramSize caseFold text query →
        ngramKeysWith query gramSize caseFold ⊆ ngramKeysWith text gramSize caseFold)) ∧
    ∀ (documents : List (Fin u32Bound × String)) (entries : List (Key × Bitmap)),
      gramSize < 2 ^ 16 → stride < 2 ^ 32 → entries.length < 2 ^ 32 →
      entries.Perm (postingsOf (documents.map fun x => (x.1, ngramKeysWith x.2 gramSize caseFold))).toList →
      ∃ file ix, writeIndexWith gramSize stride (serializeEntries entries) caseFold = .ok file ∧
        Settles (Index.open (MemoryFetch.new file)) (.ok ix) ∧
        ∀ query, ngramKeysWith query gramSize caseFold ≠ [] → ∀ limit, ∃ found,
          Settles (ix.search query limit) (.ok found) ∧
          ∀ x ∈ documents, ContainsWords gramSize caseFold x.2 query →
            x.1.val ∈ found ∨ (found.length = limit ∧ ∀ d ∈ found, d < x.1.val) := by
  refine ⟨fun text query => ⟨ngramKeysWith_nodup query gramSize caseFold, ngramKeysWith_nodup text gramSize caseFold,
    ngramKeysWith_subset hg⟩, ?_⟩
  intro documents entries hg' hs hlen hperm
  obtain ⟨file, ix, hfile, hopen, hgram, hcase, hpost, hsearch⟩ := postMap_search hg' hs caseFold hperm hlen
  refine ⟨file, ix, hfile, hopen, fun query hkeys limit => ⟨_, hsearch query limit, fun x hx hcontains => ?_⟩⟩
  have hq : ix.queryKeys query = ngramKeysWith query gramSize caseFold := by
    rw [Index.queryKeys, hgram, hcase]
  have hmem : x.1.val ∈ ix.strictDocs (ix.queryKeys query) := by
    rw [hq, mem_strictDocs_iff hpost]
    refine ⟨hkeys, fun k hk => mem_docs_postingsOf.mpr ⟨_, List.mem_map_of_mem hx, rfl, ?_⟩⟩
    exact ngramKeysWith_subset hg hcontains hk
  exact mem_take_of_asc (ix.strictDocs (ix.queryKeys query)).asc hmem limit

end

section

attribute [local instance] PortableCodec.roaring asciiUnicode

def twoDocuments : List (Fin u32Bound × String) := [(⟨0, by decide⟩, "roaring range"), (⟨4, by decide⟩, "orange")]

def twoDocumentKeys : PostMap := postingsOf (twoDocuments.map fun x => (x.1, ngramKeysWith x.2 3 true))

theorem ngramKeys_complete_range : ∃ file ix,
    writeIndexWith 3 0 (serializeEntries twoDocumentKeys.toList) true = .ok file ∧
    Settles (Index.open (MemoryFetch.new file)) (.ok ix) ∧ ∃ found, Settles (ix.search "RANGE" 10) (.ok found) ∧
      (4 ∈ found ∨ (found.length = 10 ∧ ∀ d ∈ found, d < 4)) := by
  obtain ⟨file, ix, hfile, hopen, hsearch⟩ := (@ngramKeys_complete _ _ 3 0 (by decide) true).2 twoDocuments
    twoDocumentKeys.toList (by decide) (by decide) (by decide +kernel) (List.Perm.refl _)
  obtain ⟨found, hfound, hall⟩ := hsearch "RANGE" (by decide +kernel) 10
  exact ⟨file, ix, hfile, hopen, found, hfound, hall (⟨4, by decide⟩, "orange") (by decide) (by decide +kernel)⟩

def shortDocument : List (Fin u32Bound × String) := [(⟨0, by decide⟩, "ab")]

/-- A query all of whose words are shorter than a gram finds nothing, not even the document that is the query. -/
theorem short_words_missed : ContainsWords 3 true "ab" "ab" ∧ ∃ file ix,
    writeIndexWith 3 0 (serializeEntries (postingsOf
      (shortDocument.map fun x => (x.1, ngramKeysWith x.2 3 true))).toList) true = .ok file ∧
    Settles (Index.open (MemoryFetch.new file)) (.ok ix) ∧ Settles (ix.search "ab" 10) (.ok []) := by
  refine ⟨by decide +kernel, ?_⟩
  obtain ⟨file, ix, hfile, hopen, hgram, hcase, -, hsearch⟩ := @postMap_search _ _ 3 0 (by decide) (by decide)
    true _ _ (List.Perm.refl (postingsOf (shortDocument.map fun x => (x.1, ngramKeysWith x.2 3 true))).toList)
    (by decide +kernel)
  refine ⟨file, ix, hfile, hopen, ?_⟩
  have hq : ix.queryKeys "ab" = [] := by
    rw [Index.queryKeys, hgram, hcase]
    decide +kernel
  have := hsearch "ab" 10
  rw [hq] at this
  exact this

end

end RoaringRange
