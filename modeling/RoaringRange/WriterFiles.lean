import RoaringRange.BloomPrune
import RoaringRange.SplitSearch
import RoaringRange.Lib.Routes

/-!
# The files of a writer's splits (`splitset_write.rs`)

A shelf is a split of a writer with the postings that its file was written from.
-/

namespace RoaringRange

open ByteString Faults Slices Runs Routes

/-! ## Reading a file back for a compaction -/

section

variable [Roaring]

namespace Corpus

/-- The docs of a key. -/
def docs (c : Corpus) (k : Key) : Bitmap := (c.posting k).getD ∅

omit [Roaring] in
theorem mem_docs_iff {c : Corpus} {k : Key} {d : Nat} : d ∈ c.docs k ↔ ∃ S, (k, S) ∈ c.posts ∧ d ∈ S := by
  have hnd : (c.posts.map Prod.fst).Nodup := List.pairwise_map.mpr (c.asc.imp fun hlt => ne_of_lt hlt)
  unfold docs posting
  constructor
  · intro hd
    cases hfind : c.posts.find? fun p => p.1 == k with
    | none =>
      rw [hfind] at hd
      exact absurd hd (AscSet.not_mem_empty d)
    | some p =>
      rw [hfind] at hd
      have hk : p.1 = k := by simpa using List.find?_some hfind
      subst hk
      exact ⟨p.2, List.mem_of_find?_eq_some hfind, hd⟩
  · rintro ⟨S, hmem, hd⟩
    have hfind : (c.posts.find? fun p => p.1 == k) = some (k, S) := find?_of_nodup hnd hmem
    rw [hfind]
    exact hd

/-- A row and its posting are read back. -/
theorem readRrsEntry_eq (c : Corpus) {i : Nat} (hi : i < c.posts.length) :
    readRrsEntry c.bytes (c.dictStart + i * 20) = .ok c.posts[i] := by
  have hi' : i < c.recs.length := by rwa [length_recs]
  have hlt := c.length_bytes_lt
  have hlen := c.length_bytes
  have hps : c.postingsStart = c.dictStart + c.posts.length * 20 := rfl
  obtain ⟨hkey, hle, hsize, hslice⟩ := (List.forall₂_iff_get.mp c.recs_posts).2 i hi' hi
  simp only [List.get_eq_getElem] at hkey hle hsize hslice
  have hdict : slice c.bytes c.dictStart (c.posts.length * 20) = table dictRow c.recs := by
    have h := c.slice_dict (b := 0) (n := c.posts.length) (by omega)
    rwa [Nat.zero_mul, Nat.add_zero, List.drop_zero, List.take_of_length_le (by rw [length_recs])] at h
  have hget : ∀ w off, off + w ≤ c.posts.length * 20 →
      getLe w c.bytes (c.dictStart + off) = getLe w (table dictRow c.recs) off := by
    intro w off h
    rw [← hdict, getLe_slice _ _ _ _ _ h]
  obtain ⟨ho, hs⟩ := c.recs_fit _ (List.getElem_mem hi')
  have hrow := row_table hi' ho hs
  have hk := getKey_table hi'
  unfold getKey at hk
  have h20 : dictEntry = 20 := rfl
  rw [h20] at hrow hk
  unfold readRrsEntry
  rw [if_neg (by omega), Nat.add_assoc, Nat.add_assoc, hget 8 _ (by omega), hget 4 _ (by omega)]
  have hoff : getLe 8 (table dictRow c.recs) (i * 20 + 8) = c.recs[i].offset := congrArg DictRec.offset hrow
  have hsz : getLe 4 (table dictRow c.recs) (i * 20 + 16) = c.recs[i].size := congrArg DictRec.size hrow
  rw [hoff, hsz]
  unfold readRrsPosting getKey
  rw [if_neg (by unfold u64Bound at hlt ⊢; omega), hslice,
    deserialize_of_represents (represents_serialize _), hget 8 _ (by omega), hk, hkey]
  rfl

/-- The entries of a case-folding file are the corpus' postings. -/
theorem readRrsEntries_eq (c : Corpus) (hcf : c.caseFold = true) : readRrsEntries c.bytes = .ok c.posts := by
  obtain ⟨hm, -, -, hn, hs, -⟩ := c.bytes_fields
  have hhead : c.headerLen = 16 := by
    rw [headerLen, hcf]
    rfl
  have hds := c.dictStart_le_length
  have hdef : c.dictStart = c.headerLen + c.sparseCount * 8 := rfl
  have hstart : 16 + (if c.posts.length = 0 ∨ c.stride = 0 then 0 else (c.posts.length + c.stride - 1) / c.stride) * 8 =
      c.dictStart := by
    rw [hdef, hhead]
    rfl
  unfold readRrsEntries
  rw [if_neg (by rw [hm]; simp; omega), hn, hs]
  simp only [hstart]
  rw [collect_map_ok (g := fun i => c.posts.getD i (zeroKey, ∅)) fun i hi => ?_]
  · congr 1
    refine List.ext_getElem (by simp) fun i h1 h2 => ?_
    rw [List.getElem_map, List.getElem_range, List.getD_eq_getElem _ _ h2]
  · rw [c.readRrsEntry_eq (List.mem_range.mp hi), List.getD_eq_getElem _ _ (List.mem_range.mp hi)]

end Corpus

end

/-! ## What a compaction gathers -/

theorem mem_rebase {base : Nat} {bm : Bitmap} {d : Nat} :
    d ∈ rebase base bm ↔ ∃ l ∈ bm, min (base + l) (u32Bound - 1) = d := by
  unfold rebase
  rw [AscSet.mem_ofList, List.mem_map]
  rfl

theorem mem_docs_mergePosting {m : PostMap} {e : Key × Bitmap} {k : Key} {d : Nat} :
    d ∈ (mergePosting m e).docs k ↔ d ∈ m.docs k ∨ e.1 = k ∧ d ∈ e.2 := by
  unfold mergePosting PostMap.docs
  rw [OrdMap.find?_update]
  by_cases hk : k = e.1
  · subst hk
    rw [if_pos rfl, Option.getD_some, AscSet.mem_union]
    simp
  · rw [if_neg hk]
    simp [Ne.symm hk]

theorem mem_docs_foldl_mergePosting {es : List (Key × Bitmap)} {m : PostMap} {k : Key} {d : Nat} :
    d ∈ (es.foldl mergePosting m).docs k ↔ d ∈ m.docs k ∨ ∃ e ∈ es, e.1 = k ∧ d ∈ e.2 := by
  induction es generalizing m with
  | nil => simp
  | cons e es ih =>
    rw [List.foldl_cons, ih, mem_docs_mergePosting, or_assoc, List.exists_mem_cons_iff]

/-- What is gathered of an input: its split, the entries of its file, and the ids it supersedes. -/
structure Gathered where
  spec : SplitSpec
  entries : List (Key × Bitmap)
  tombstone : Option Bitmap

/-- The entries have the id for the key, by its global number. -/
def Gathered.Has (g : Gathered) (k : Key) (d : Nat) : Prop :=
  ∃ e ∈ g.entries, e.1 = k ∧ ∃ l ∈ e.2, g.spec.entry.toGlobal l = d

theorem Gathered.has_iff {g : Gathered} {k : Key} {d : Nat} :
    g.Has k d ↔ ∃ e ∈ SplitSetWriter.inputPostings g.spec g.entries, e.1 = k ∧ d ∈ e.2 := by
  unfold Gathered.Has SplitSetWriter.inputPostings
  simp only [List.mem_map, exists_exists_and_eq_and]
  refine exists_congr fun e => and_congr_right fun _ => and_congr_right fun _ => ?_
  have hglobal : ∀ l, g.spec.entry.toGlobal l =
      if hasFlag g.spec.flags splitFlagAbsoluteIds then l else min (g.spec.docIdLo + l) (u32Bound - 1) := fun _ => rfl
  simp only [hglobal]
  split
  · simp
  · rw [mem_rebase]

namespace SplitSetWriter

variable [Roaring] {w : SplitSetWriter}

/-- The input is a delta split of the writer, and this is gathered of it. -/
structure Gathers (w : SplitSetWriter) (input : String × Bytes) (g : Gathered) : Prop where
  split : ∃ idx, w.specs.findIdx? (fun s => s.dataFile = input.1) = some idx ∧ w.baseCount ≤ idx ∧
    w.specs[idx]? = some g.spec
  tombstone : parseTombstone g.spec.summary = .ok g.tombstone
  entries : readRrsEntries input.2 = .ok g.entries

/-- An input that is not refused adds what is gathered of it. -/
theorem gatherInput_ok {st st' : PostMap × Bitmap} {input : String × Bytes} (h : w.gatherInput st input = .ok st') :
    ∃ g, w.Gathers input g ∧
      st' = ((inputPostings g.spec g.entries).foldl mergePosting st.1, st.2 ∪ g.tombstone.getD ∅) := by
  unfold gatherInput at h
  split at h
  · cases h
  · next idx hidx =>
    split at h
    · cases h
    · next hbase =>
      obtain ⟨hlt, -⟩ := List.findIdx?_eq_some_iff_getElem.mp hidx
      rw [List.getElem?_eq_getElem hlt] at h
      obtain ⟨tombstone, htomb, h⟩ := exists_of_bind_ok h
      obtain ⟨entries, hentries, h⟩ := exists_of_bind_ok h
      refine ⟨⟨w.specs[idx], entries, tombstone⟩, ⟨⟨idx, hidx, by omega, ?_⟩, htomb, hentries⟩, (Except.ok.inj h).symm⟩
      exact List.getElem?_eq_getElem hlt

/-- **What is gathered of all the inputs.** -/
theorem gather_ok {inputs : List (String × Bytes)} {merged : PostMap} {dead : Bitmap}
    (h : w.gather inputs = .ok (merged, dead)) : ∃ gs, List.Forall₂ w.Gathers inputs gs ∧
      (∀ k d, d ∈ merged.docs k ↔ ∃ g ∈ gs, g.Has k d) ∧ ∀ d, d ∈ dead ↔ ∃ g ∈ gs, d ∈ g.tombstone.getD ∅ := by
  have hall : ∀ (inputs : List (String × Bytes)) (st st' : PostMap × Bitmap), inputs.foldlM w.gatherInput st = .ok st' →
      ∃ gs, List.Forall₂ w.Gathers inputs gs ∧
        (∀ k d, d ∈ st'.1.docs k ↔ d ∈ st.1.docs k ∨ ∃ g ∈ gs, g.Has k d) ∧
        ∀ d, d ∈ st'.2 ↔ d ∈ st.2 ∨ ∃ g ∈ gs, d ∈ g.tombstone.getD ∅ := by
    intro inputs
    induction inputs with
    | nil =>
      intro st st' h
      obtain rfl := Except.ok.inj h
      exact ⟨[], List.Forall₂.nil, by simp, by simp⟩
    | cons input inputs ih =>
      intro st st' h
      rw [List.foldlM_cons] at h
      obtain ⟨st₁, hone, hrest⟩ := exists_of_bind_ok h
      obtain ⟨g, hg, rfl⟩ := gatherInput_ok hone
      obtain ⟨gs, hgs, hdocs, hdead⟩ := ih _ _ hrest
      refine ⟨g :: gs, List.Forall₂.cons hg hgs, fun k d => ?_, fun d => ?_⟩
      · rw [hdocs, mem_docs_foldl_mergePosting, ← Gathered.has_iff, or_assoc, List.exists_mem_cons_iff]
      · rw [hdead, AscSet.mem_union, or_assoc, List.exists_mem_cons_iff]
  obtain ⟨gs, hgs, hdocs, hdead⟩ := hall inputs _ _ h
  refine ⟨gs, hgs, fun k d => ?_, fun d => ?_⟩
  · rw [hdocs]
    exact or_iff_right (AscSet.not_mem_empty d)
  · rw [hdead]
    exact or_iff_right (AscSet.not_mem_empty d)

end SplitSetWriter

/-! ## Tombstones -/

section

variable [Roaring]

/-- A split's tombstone masks the id. -/
def Masked (specs : List SplitSpec) (d : Nat) : Prop :=
  ∃ s ∈ specs, ∃ ids, parseTombstone s.summary = .ok (some ids) ∧ d ∈ ids

theorem Masked.subset {specs specs' : List SplitSpec} {d : Nat} (h : Masked specs d) (hs : ∀ s ∈ specs, s ∈ specs') :
    Masked specs' d := by
  obtain ⟨s, hmem, ids, hparse, hd⟩ := h
  exact ⟨s, hs s hmem, ids, hparse, hd⟩

/-- A summary without a tombstone record. -/
theorem parseTombstone_of_records {summary : Bytes} {rs : List (Nat × Bytes)} (h : SummaryOf summary rs)
    (hnone : ∀ r ∈ rs, r.1 ≠ summaryTagTombstone) : parseTombstone summary = .ok none := by
  unfold parseTombstone
  rw [h.findTlv_eq, recordOf_eq_none hnone]

omit [Roaring] in
/-- The record of a filter that may be wanted. -/
theorem filter_records (wanted : Prop) [Decidable wanted] (keys : List Key) (bitsPerKey : Nat) :
    ∃ rs : List (Nat × Bytes), (if wanted then tlvRecord summaryTagBloom (bloomBuild keys bitsPerKey) else []) =
      (rs.flatMap fun r => tlvRecord r.1 r.2) ∧ ∀ r ∈ rs, r.1 = summaryTagBloom := by
  split
  · exact ⟨[(summaryTagBloom, bloomBuild keys bitsPerKey)], (List.flatMap_singleton _ _).symm, fun r hr => by
      rw [List.mem_singleton.mp hr]⟩
  · exact ⟨[], rfl, fun _ h => absurd h List.not_mem_nil⟩

/-- A new split's summary gives back what it supersedes. -/
theorem parseTombstone_newSummary (w : SplitSetWriter) (keys : List Key) (wanted : Bool) (dead : Bitmap) :
    parseTombstone (w.bloomTlv keys wanted ++ SplitSetWriter.tombstoneRecord dead) =
      .ok (if dead.isEmpty then none else some dead) := by
  have hlen := w.length_newSummary_lt keys wanted dead
  obtain ⟨rs, hbloom, htags⟩ := filter_records ((decide (0 < w.bloomBitsPerKey) && wanted) = true) keys w.bloomBitsPerKey
  have htag : ∀ r ∈ rs, r.1 < 256 ∧ r.1 ≠ summaryTagTombstone := by
    intro r hr
    rw [htags r hr]
    decide
  have hrecords : w.bloomTlv keys wanted = rs.flatMap fun r => tlvRecord r.1 r.2 := hbloom
  unfold SplitSetWriter.tombstoneRecord at hlen ⊢
  by_cases hdead : dead.isEmpty
  · rw [if_pos hdead, List.append_nil] at hlen ⊢
    rw [if_pos hdead]
    exact parseTombstone_of_records ⟨hrecords, fun r hr => (htag r hr).1, hlen⟩ fun r hr => (htag r hr).2
  · rw [if_neg hdead] at hlen ⊢
    rw [if_neg hdead]
    have hrs : SummaryOf (w.bloomTlv keys wanted) rs := by
      refine ⟨hrecords, fun r hr => (htag r hr).1, ?_⟩
      rw [List.length_append] at hlen
      omega
    have hsum := hrs.append (show summaryTagTombstone < 256 by decide) hlen
    have hrecord : recordOf (rs ++ [(summaryTagTombstone, serialize dead)]) summaryTagTombstone = some (serialize dead) := by
      rw [recordOf_append, recordOf_eq_none fun r hr => (htag r hr).2]
      rfl
    unfold parseTombstone
    rw [show tombstoneTlv dead = tlvRecord summaryTagTombstone (serialize dead) from rfl, hsum.findTlv_eq, hrecord]
    simp only
    rw [deserialize_of_represents (represents_serialize dead)]

end

/-! ## Shelves -/

/-- The file of a name: the one put last. -/
def fileOf (files : NamedFiles) (name : String) : Option Bytes := (files.find? fun f => f.1 = name).map Prod.snd

/-- A split, and the postings its file was written from. -/
structure Shelf where
  spec : SplitSpec
  posts : PostMap

namespace Shelf

/-- The split has a document under the local id: a merged split where there is a posting. -/
def Stores (s : Shelf) (l : Nat) : Prop :=
  if s.spec.entry.absoluteIds then ∃ k, l ∈ s.posts.docs k else l < s.spec.docCount

/-- The split has the document. -/
def Holds (s : Shelf) (d : Nat) : Prop := ∃ l, s.Stores l ∧ s.spec.entry.toGlobal l = d

/-- What the split stores is in its range, and is found again under its local id. -/
structure Placed (s : Shelf) : Prop where
  stored : ∀ k, ∀ l ∈ s.posts.docs k, s.Stores l
  contains : ∀ l, s.Stores l → s.spec.entry.contains (s.spec.entry.toGlobal l) = true
  toLocal : ∀ l, s.Stores l → s.spec.entry.toLocal (s.spec.entry.toGlobal l) = l

theorem Placed.holds_contains {s : Shelf} (h : s.Placed) {d : Nat} (hd : s.Holds d) : s.spec.entry.contains d = true := by
  obtain ⟨l, hl, rfl⟩ := hd
  exact h.contains l hl

/-- A split that numbers its documents from `docIdLo`. -/
theorem placed_of_range {s : Shelf} (habs : s.spec.entry.absoluteIds = false)
    (hposts : ∀ k, ∀ l ∈ s.posts.docs k, l < s.spec.docCount)
    (hhi : 0 < s.spec.docCount → s.spec.docIdHi + 1 = s.spec.docIdLo + s.spec.docCount ∧ s.spec.docIdHi < u32Bound) :
    s.Placed := by
  have hstores : ∀ l, s.Stores l ↔ l < s.spec.docCount := by
    intro l
    unfold Stores
    rw [habs]
    simp
  have hglobal : ∀ l, s.Stores l → s.spec.entry.toGlobal l = s.spec.docIdLo + l := by
    intro l hl
    have hlt := (hstores l).mp hl
    obtain ⟨hhi, hmax⟩ := hhi (by omega)
    unfold Split.toGlobal
    rw [habs, if_neg Bool.false_ne_true]
    exact Nat.min_eq_left (by show s.spec.docIdLo + l ≤ u32Bound - 1; omega)
  refine ⟨fun k l hl => (hstores l).mpr (hposts k l hl), fun l hl => ?_, fun l hl => ?_⟩
  · have hlt := (hstores l).mp hl
    obtain ⟨hhi, -⟩ := hhi (by omega)
    rw [hglobal l hl]
    unfold Split.contains
    show (decide (0 < s.spec.docCount) && decide (s.spec.docIdLo ≤ s.spec.docIdLo + l) &&
      decide (s.spec.docIdLo + l ≤ s.spec.docIdHi)) = true
    rw [Bool.and_eq_true, Bool.and_eq_true]
    exact ⟨⟨decide_eq_true (by omega), decide_eq_true (by omega)⟩, decide_eq_true (by omega)⟩
  · rw [hglobal l hl]
    unfold Split.toLocal
    rw [habs, if_neg Bool.false_ne_true]
    exact Nat.add_sub_cancel_left _ _

section

variable [Roaring]

/-- The file of the split in the store is the index of the postings. -/
structure Filed (s : Shelf) (files : NamedFiles) (caseFold : Bool) : Prop where
  keys_lt : s.posts.toList.length < 2 ^ 32
  file : ∃ gramSize stride bytes, gramSize < 2 ^ 16 ∧ stride < 2 ^ 32 ∧
    writeIndexWith gramSize stride (serializeEntries s.posts.toList) caseFold = .ok bytes ∧
    fileOf files s.spec.dataFile = some bytes

/-- **A compaction reads the postings of a case-folding split back.** -/
theorem Filed.readBack {s : Shelf} {files : NamedFiles} (h : s.Filed files true) {bytes : Bytes}
    (hfile : fileOf files s.spec.dataFile = some bytes) : ∃ entries, readRrsEntries bytes = .ok entries ∧
      ∀ k l, (∃ e ∈ entries, e.1 = k ∧ l ∈ e.2) ↔ l ∈ s.posts.docs k := by
  obtain ⟨gramSize, stride, bytes', hg, hstride, hwrite, hfile'⟩ := h.file
  obtain rfl : bytes' = bytes := Option.some.inj (hfile'.symm.trans hfile)
  obtain ⟨c, rfl, -, hcf, hpost⟩ := exists_corpus hg hstride h.keys_lt hwrite
  refine ⟨c.posts, c.readRrsEntries_eq hcf, fun k l => ?_⟩
  have hdocs : c.docs k = s.posts.docs k := by
    unfold Corpus.docs PostMap.docs
    rw [hpost]
  rw [← hdocs, Corpus.mem_docs_iff]
  constructor
  · rintro ⟨⟨k', S⟩, hmem, rfl, hl⟩
    exact ⟨S, hmem, hl⟩
  · rintro ⟨S, hmem, hl⟩
    exact ⟨(k, S), hmem, rfl, hl⟩

end

end Shelf

end RoaringRange
