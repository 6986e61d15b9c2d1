import RoaringRange.WriterFiles
import RoaringRange.WriterNames

/-!
# The splits of a session (`splitset_write.rs`)

A session's splits are shelves: those of the base, and the deltas that were flushed or merged since.  No document is on
two of them, and the ids from the memtable on are on none.

    a call that goes through puts at most one shelf more and takes its inputs       (Housed.step)
    no document is on two shelves, in every session of such calls                (Housed.run)
-/

namespace RoaringRange

open ByteString Faults Slices Runs

namespace SplitSetWriter

/-- The id from which on no split has a document. -/
def firstFree (w : SplitSetWriter) : Nat := if w.memtableCount.val = 0 then w.nextGlobalId.val else w.memtableBase.val

section

variable [Roaring]

/-- The shelves of the writer's splits. -/
structure Shelved (base deltas : List Shelf) (w : SplitSetWriter) : Prop where
  specs : w.specs = (base ++ deltas).map Shelf.spec
  baseCount : w.baseCount = base.length
  names : (w.specs.map SplitSpec.dataFile).Nodup
  placed : ∀ s ∈ base ++ deltas, s.Placed
  tombstones : ∀ s ∈ w.specs, ∃ ids, parseTombstone s.summary = .ok ids
  disjoint : (base ++ deltas).Pairwise fun a b => ∀ d, b.Holds d → ¬ a.Holds d
  free : ∀ s ∈ w.specs, 0 < s.docCount → s.docIdHi < w.firstFree ∨ u32Bound ≤ w.firstFree + 1
  capped : ∀ s ∈ deltas, 0 < s.spec.docCount → s.spec.docIdHi + 1 < u32Bound

/-- The inputs have fewer than 2³² keys. -/
def FewKeys (w : SplitSetWriter) (inputs : List (String × Bytes)) : Prop :=
  ∀ gs, List.Forall₂ w.Gathers inputs gs → ((gs.flatMap Gathered.entries).map Prod.fst).dedup.length < 2 ^ 32

/-- No live document of an input is in the range of a split that stays. -/
def Apart (w : SplitSetWriter) (inputs : List (String × Bytes)) : Prop :=
  ∀ input ∈ inputs, ∀ g, w.Gathers input g → ∀ k d, g.Has k d → ¬ Masked w.specs d →
    ∀ s ∈ w.kept inputs, s.entry.contains d = false

end

end SplitSetWriter

namespace Shelf

theorem Placed.le_docIdHi {s : Shelf} (h : s.Placed) {d : Nat} (hd : s.Holds d) :
    0 < s.spec.docCount ∧ s.spec.docIdLo ≤ d ∧ d ≤ s.spec.docIdHi := by
  have hc : (decide (0 < s.spec.docCount) && decide (s.spec.docIdLo ≤ d) && decide (d ≤ s.spec.docIdHi)) = true :=
    h.holds_contains hd
  rw [Bool.and_eq_true, Bool.and_eq_true] at hc
  exact ⟨of_decide_eq_true hc.1.1, of_decide_eq_true hc.1.2, of_decide_eq_true hc.2⟩

end Shelf

/-! ## A flush -/

namespace SplitSetWriter

section

variable [Roaring] {w : SplitSetWriter} {base deltas : List Shelf}

/-- The shelf of a flush. -/
def deltaShelf (w : SplitSetWriter) (byteSize : Nat) : Shelf := ⟨w.deltaSpec byteSize, w.memtable⟩

theorem absoluteIds_deltaSpec (w : SplitSetWriter) (byteSize : Nat) : (w.deltaSpec byteSize).entry.absoluteIds = false := by
  unfold Split.absoluteIds
  show hasFlag (if w.pendingDeletes.isEmpty then 0 else splitFlagHasTombstone) splitFlagAbsoluteIds = false
  split <;> decide

/-- The memtable's documents are the first free ids. -/
structure Filling (w : SplitSetWriter) : Prop where
  memtable : ∀ k, ∀ l ∈ w.memtable.docs k, l < w.memtableCount.val
  count : 0 < w.memtableCount.val → w.memtableBase.val + w.memtableCount.val = w.nextGlobalId.val

theorem Filling.range (h : w.Filling) (byteSize : Nat) (hpos : 0 < w.memtableCount.val) :
    (w.deltaSpec byteSize).docIdLo = w.firstFree ∧ (w.deltaSpec byteSize).docIdHi + 1 = w.nextGlobalId.val ∧
      w.firstFree + w.memtableCount.val = w.nextGlobalId.val := by
  have hcount := h.count hpos
  have hnext := w.nextGlobalId.isLt
  have hfree : w.firstFree = w.memtableBase.val := if_neg (by omega)
  have hlo : (w.deltaSpec byteSize).docIdLo = w.memtableBase.val := if_pos hpos
  have hhi : (w.deltaSpec byteSize).docIdHi = (w.memtableBase.val + (w.memtableCount.val - 1)) % u32Bound := if_pos hpos
  rw [Nat.mod_eq_of_lt (by omega)] at hhi
  exact ⟨by omega, by omega, by omega⟩

theorem Filling.placed (h : w.Filling) (byteSize : Nat) : (w.deltaShelf byteSize).Placed := by
  refine Shelf.placed_of_range (w.absoluteIds_deltaSpec byteSize) h.memtable fun hpos => ?_
  obtain ⟨hlo, hhi, hsum⟩ := h.range byteSize hpos
  have hcount : (w.deltaSpec byteSize).docCount = w.memtableCount.val := rfl
  have hnext := w.nextGlobalId.isLt
  show (w.deltaSpec byteSize).docIdHi + 1 = (w.deltaSpec byteSize).docIdLo + w.memtableCount.val ∧
    (w.deltaSpec byteSize).docIdHi < u32Bound
  omega

/-- What a flush adds is on no shelf, and no shelf covers it. -/
theorem Shelved.free_flushed (h : Shelved base deltas w) (hfill : w.Filling) (byteSize : Nat) {d : Nat}
    (hd : (w.deltaShelf byteSize).Holds d) : ∀ s ∈ base ++ deltas, s.spec.entry.contains d = false := by
  obtain ⟨hpos, hlo, hle⟩ := (hfill.placed byteSize).le_docIdHi hd
  obtain ⟨hfree, hhi, hsum⟩ := hfill.range byteSize hpos
  intro s hs
  have hspec : s.spec ∈ w.specs := by
    rw [h.specs]
    exact List.mem_map_of_mem hs
  have hlo' : (w.deltaSpec byteSize).docIdLo ≤ d := hlo
  have hpos' : 0 < w.memtableCount.val := hpos
  have hnext := w.nextGlobalId.isLt
  rw [Bool.eq_false_iff]
  intro hc
  have hc' : (decide (0 < s.spec.docCount) && decide (s.spec.docIdLo ≤ d) && decide (d ≤ s.spec.docIdHi)) = true := hc
  rw [Bool.and_eq_true, Bool.and_eq_true] at hc'
  have hsome := of_decide_eq_true hc'.1.1
  have hdhi := of_decide_eq_true hc'.2
  rcases h.free s.spec hspec hsome with hlt | hend
  · omega
  · omega

theorem Shelved.flushed (h : Shelved base deltas w) (hfill : w.Filling) (byteSize : Nat)
    (hname : ∀ s ∈ w.specs, s.dataFile ≠ seqName w.namePrefix "-d" w.flushSeq.val) :
    Shelved base (deltas ++ [w.deltaShelf byteSize]) (w.flushed byteSize) := by
  have hspecs : (w.flushed byteSize).specs = w.specs ++ [w.deltaSpec byteSize] := rfl
  have hfree : (w.flushed byteSize).firstFree = w.nextGlobalId.val := rfl
  have hgrow : w.firstFree ≤ w.nextGlobalId.val := by
    unfold firstFree
    split
    · exact Nat.le_refl _
    · next hne =>
      have := hfill.count (Nat.pos_of_ne_zero hne)
      omega
  have hmem : ∀ s ∈ base ++ (deltas ++ [w.deltaShelf byteSize]), s ∈ base ++ deltas ∨ s = w.deltaShelf byteSize := by
    intro s hs
    rw [← List.append_assoc] at hs
    exact (List.mem_append.mp hs).imp id List.mem_singleton.mp
  refine ⟨?_, h.baseCount, ?_, fun s hs => ?_, fun s hs => ?_, ?_, fun s hs hpos => ?_, fun s hs hpos => ?_⟩
  · rw [hspecs, h.specs, ← List.append_assoc]
    exact (@List.map_append _ _ Shelf.spec (base ++ deltas) [w.deltaShelf byteSize]).symm
  · rw [hspecs, List.map_append, List.nodup_append]
    refine ⟨h.names, List.nodup_singleton _, fun a ha b hb heq => ?_⟩
    obtain ⟨s, hs, rfl⟩ := List.mem_map.mp ha
    rw [List.map_singleton, List.mem_singleton] at hb
    exact hname s hs (heq.trans hb)
  · rcases hmem s hs with hs | rfl
    · exact h.placed s hs
    · exact hfill.placed byteSize
  · rcases List.mem_append.mp hs with hs | hs
    · exact h.tombstones s hs
    · rw [List.mem_singleton.mp hs]
      exact ⟨_, parseTombstone_newSummary _ _ _ _⟩
  · rw [← List.append_assoc]
    refine List.pairwise_append.mpr ⟨h.disjoint, List.pairwise_singleton _ _, fun a ha b hb d hd hda => ?_⟩
    rw [List.mem_singleton.mp hb] at hd
    exact Bool.false_ne_true ((h.free_flushed hfill byteSize hd a ha).symm.trans ((h.placed a ha).holds_contains hda))
  · rw [hfree]
    rcases List.mem_append.mp hs with hs | hs
    · have := h.free s hs hpos
      omega
    · rw [List.mem_singleton.mp hs] at hpos ⊢
      obtain ⟨-, hhi, -⟩ := hfill.range byteSize hpos
      omega
  · rcases List.mem_append.mp hs with hs | hs
    · exact h.capped s hs hpos
    · rw [List.mem_singleton.mp hs] at hpos ⊢
      obtain ⟨-, hhi, -⟩ := hfill.range byteSize hpos
      have hnext := w.nextGlobalId.isLt
      show (w.deltaSpec byteSize).docIdHi + 1 < u32Bound
      omega

end

end SplitSetWriter

/-! ## A compaction -/

theorem headD_le_of_asc {xs : List Nat} (h : xs.Pairwise (· < ·)) {x : Nat} (hx : x ∈ xs) : xs.headD 0 ≤ x := by
  cases xs with
  | nil => exact absurd hx List.not_mem_nil
  | cons y ys =>
    rcases List.mem_cons.mp hx with rfl | hx
    · exact Nat.le_refl _
    · exact Nat.le_of_lt (List.rel_of_pairwise_cons h hx)

theorem getLastD_mem {xs : List Nat} (h : xs ≠ []) : xs.getLastD 0 ∈ xs := by
  rw [List.getLastD_eq_getLast?, List.getLast?_eq_some_getLast h]
  exact List.getLast_mem h

/-- A set of ids below the last one can be counted. -/
theorem len_lt_of_capped {bm : Bitmap} (h : ∀ d ∈ bm, d + 1 < u32Bound) : bm.len < u32Bound := by
  have hsub : bm.toList ⊆ List.range (u32Bound - 1) := by
    intro d hd
    have := h d hd
    exact List.mem_range.mpr (by omega)
  have hle := (List.subperm_of_subset bm.nodup hsub).length_le
  rw [List.length_range] at hle
  have hpos : 0 < u32Bound := by decide
  exact Nat.lt_of_le_of_lt hle (by omega)

/-- No input of a compaction has the shelf's name. -/
def Shelf.stays (inputs : List (String × Bytes)) (s : Shelf) : Bool := !(inputs.map Prod.fst).contains s.spec.dataFile

theorem Shelf.stays_eq_false {inputs : List (String × Bytes)} {s : Shelf} :
    s.stays inputs = false ↔ ∃ i ∈ inputs, i.1 = s.spec.dataFile := by
  unfold stays
  rw [Bool.not_eq_false', List.contains_iff_mem, List.mem_map]

namespace SplitSetWriter

section

variable [Roaring] {w : SplitSetWriter} {base deltas : List Shelf} {files : NamedFiles} {inputs : List (String × Bytes)}
  {gs : List Gathered} {merged : PostMap} {dead : Bitmap}

/-- The shelf of a compaction. -/
def mergedShelf (w : SplitSetWriter) (inputs : List (String × Bytes)) (merged : PostMap) (dead : Bitmap)
    (byteSize : Nat) : Shelf := ⟨w.mergedSpec inputs merged dead byteSize, merged⟩

theorem absoluteIds_mergedSpec (w : SplitSetWriter) (inputs : List (String × Bytes)) (merged : PostMap) (dead : Bitmap)
    (byteSize : Nat) : (w.mergedSpec inputs merged dead byteSize).entry.absoluteIds = true := by
  unfold Split.absoluteIds
  show hasFlag (splitFlagAbsoluteIds ||| if dead.isEmpty then 0 else splitFlagHasTombstone) splitFlagAbsoluteIds = true
  split <;> decide

theorem stores_mergedShelf {byteSize l : Nat} :
    (w.mergedShelf inputs merged dead byteSize).Stores l ↔ ∃ k, l ∈ merged.docs k := by
  unfold Shelf.Stores
  rw [show (w.mergedShelf inputs merged dead byteSize).spec.entry.absoluteIds = true from absoluteIds_mergedSpec ..]
  rfl

theorem toGlobal_mergedShelf (byteSize l : Nat) :
    (w.mergedShelf inputs merged dead byteSize).spec.entry.toGlobal l = l := by
  unfold Split.toGlobal
  rw [show (w.mergedShelf inputs merged dead byteSize).spec.entry.absoluteIds = true from absoluteIds_mergedSpec ..]
  rfl

theorem holds_mergedShelf {byteSize d : Nat} :
    (w.mergedShelf inputs merged dead byteSize).Holds d ↔ ∃ k, d ∈ merged.docs k := by
  unfold Shelf.Holds
  constructor
  · rintro ⟨l, hl, rfl⟩
    rw [toGlobal_mergedShelf]
    exact stores_mergedShelf.mp hl
  · intro hd
    exact ⟨d, stores_mergedShelf.mpr hd, toGlobal_mergedShelf _ _⟩

theorem placed_mergedShelf (hcap : ∀ k, ∀ d ∈ merged.docs k, d + 1 < u32Bound) (byteSize : Nat) :
    (w.mergedShelf inputs merged dead byteSize).Placed := by
  have habs : (w.mergedShelf inputs merged dead byteSize).spec.entry.absoluteIds = true := absoluteIds_mergedSpec ..
  have hlen : (present merged).len < u32Bound := by
    refine len_lt_of_capped fun d hd => ?_
    obtain ⟨k, hk⟩ := mem_present.mp hd
    exact hcap k d hk
  refine ⟨fun k l hl => stores_mergedShelf.mpr ⟨k, hl⟩, fun l hl => ?_, fun l _ => ?_⟩
  · have hmem : l ∈ (present merged).toList := mem_present.mpr (stores_mergedShelf.mp hl)
    rw [toGlobal_mergedShelf]
    show (decide (0 < (present merged).len % u32Bound) && decide ((present merged).toList.headD 0 ≤ l) &&
      decide (l ≤ (present merged).toList.getLastD 0)) = true
    rw [Nat.mod_eq_of_lt hlen, Bool.and_eq_true, Bool.and_eq_true]
    refine ⟨⟨decide_eq_true (List.length_pos_of_mem hmem), decide_eq_true ?_⟩, decide_eq_true ?_⟩
    · exact headD_le_of_asc (AscSet.asc _) hmem
    · exact le_getLastD_of_asc (AscSet.asc _) hmem
  · rw [toGlobal_mergedShelf]
    unfold Split.toLocal
    rw [habs]
    rfl

/-- What is gathered of an input that is in the store is what is on its shelf. -/
theorem Shelved.gathers (h : Shelved base deltas w) (hfiled : ∀ s ∈ deltas, s.Filed files true)
    {input : String × Bytes} {g : Gathered} (hfile : fileOf files input.1 = some input.2) (hg : w.Gathers input g) :
    ∃ s ∈ deltas, s.spec = g.spec ∧ s.spec.dataFile = input.1 ∧
      ∀ k d, g.Has k d ↔ ∃ l ∈ s.posts.docs k, s.spec.entry.toGlobal l = d := by
  obtain ⟨idx, hidx, hbase, hspec⟩ := hg.split
  obtain ⟨hlt, hname, -⟩ := List.findIdx?_eq_some_iff_getElem.mp hidx
  rw [h.specs, List.getElem?_map, Option.map_eq_some_iff] at hspec
  obtain ⟨s, hs, hspec⟩ := hspec
  rw [h.baseCount] at hbase
  rw [List.getElem?_append_right hbase] at hs
  have hmem : s ∈ deltas := List.mem_of_getElem? hs
  have hdata : s.spec.dataFile = input.1 := by
    have hget : w.specs[idx]? = some g.spec := by
      obtain ⟨idx', hidx', -, hget⟩ := hg.split
      rwa [Option.some.inj (hidx'.symm.trans hidx)] at hget
    rw [List.getElem?_eq_getElem hlt] at hget
    rw [hspec, ← Option.some.inj hget]
    exact of_decide_eq_true hname
  refine ⟨s, hmem, hspec, hdata, fun k d => ?_⟩
  rw [← hdata] at hfile
  obtain ⟨entries, hread, hposts⟩ := (hfiled s hmem).readBack hfile
  have hentries : g.entries = entries := Except.ok.inj (hg.entries.symm.trans hread)
  unfold Gathered.Has
  rw [hentries, ← hspec]
  constructor
  · rintro ⟨e, he, hk, l, hl, hd⟩
    exact ⟨l, (hposts k l).mp ⟨e, he, hk, hl⟩, hd⟩
  · rintro ⟨l, hl, hd⟩
    obtain ⟨e, he, hk, hl⟩ := (hposts k l).mpr hl
    exact ⟨e, he, hk, l, hl, hd⟩

/-- A document is on one shelf. -/
theorem Shelved.not_holds (h : Shelved base deltas w) {s t : Shelf} (hs : s ∈ base ++ deltas) (ht : t ∈ base ++ deltas)
    (hne : s ≠ t) {d : Nat} (hd : s.Holds d) : ¬ t.Holds d := by
  have hsymm : Std.Symm fun a b : Shelf => ∀ d, b.Holds d → ¬ a.Holds d :=
    ⟨fun _ _ hab d ha hb => hab d hb ha⟩
  intro htd
  exact h.disjoint.forall hs ht hne d htd hd

/-- A split under an input's name is the one that is gathered. -/
theorem Shelved.spec_of_name (h : Shelved base deltas w) {input : String × Bytes} {g : Gathered}
    (hg : w.Gathers input g) {spec : SplitSpec} (hs : spec ∈ w.specs) (hname : spec.dataFile = input.1) : spec = g.spec := by
  obtain ⟨idx, hidx, -, hspec⟩ := hg.split
  obtain ⟨hlt, hfound, -⟩ := List.findIdx?_eq_some_iff_getElem.mp hidx
  rw [List.getElem?_eq_getElem hlt] at hspec
  have hg' : g.spec.dataFile = input.1 := by
    rw [← Option.some.inj hspec]
    exact of_decide_eq_true hfound
  have hmem : g.spec ∈ w.specs := List.mem_of_getElem (Option.some.inj hspec)
  exact List.inj_on_of_nodup_map h.names hs hmem (hname.trans hg'.symm)

/-- The base stays. -/
theorem Shelved.base_stays (h : Shelved base deltas w) (hgs : List.Forall₂ w.Gathers inputs gs) :
    ∀ s ∈ base, s.stays inputs = true := by
  intro s hs
  rw [← Bool.not_eq_false, Shelf.stays_eq_false]
  rintro ⟨input, hinput, hname⟩
  obtain ⟨g, -, hg⟩ := exists_partner hgs hinput
  obtain ⟨i, hi⟩ := List.mem_iff_getElem?.mp hs
  obtain ⟨idx, hidx, hbase, -⟩ := hg.split
  obtain ⟨hlt, -, hbefore⟩ := List.findIdx?_eq_some_iff_getElem.mp hidx
  have hilt : i < base.length := (List.getElem?_eq_some_iff.mp hi).1
  rw [h.baseCount] at hbase
  have hnot := hbefore i (by omega)
  have hget : w.specs[i]? = some s.spec := by
    rw [h.specs, List.getElem?_map, List.getElem?_append_left hilt, hi]
    rfl
  obtain ⟨hi', hget'⟩ := List.getElem?_eq_some_iff.mp hget
  rw [hget', hname] at hnot
  simp at hnot

/-- The splits that stay are those of the shelves that stay. -/
theorem Shelved.kept_eq (h : Shelved base deltas w) (hgs : List.Forall₂ w.Gathers inputs gs) :
    w.kept inputs = (base ++ deltas.filter (Shelf.stays inputs)).map Shelf.spec := by
  have hbase : base.filter (Shelf.stays inputs) = base := List.filter_eq_self.mpr (h.base_stays hgs)
  unfold kept
  rw [h.specs, List.filter_map]
  show ((base ++ deltas).filter (Shelf.stays inputs)).map Shelf.spec = _
  rw [List.filter_append, hbase]

/-- What is merged was on the shelves that go. -/
theorem Shelved.holds_merged (h : Shelved base deltas w) (hfiled : ∀ s ∈ deltas, s.Filed files true)
    (hfile : ∀ i ∈ inputs, fileOf files i.1 = some i.2) (hgs : List.Forall₂ w.Gathers inputs gs)
    (hdocs : ∀ k d, d ∈ merged.docs k ↔ ∃ g ∈ gs, g.Has k d) {k : Key} {d : Nat} (hd : d ∈ merged.docs k) :
    ∃ s ∈ deltas, s.stays inputs = false ∧ s.Holds d := by
  obtain ⟨g, hg, hhas⟩ := (hdocs k d).mp hd
  obtain ⟨input, hinput, hgathers⟩ := exists_partner_left hgs hg
  obtain ⟨s, hs, -, hname, hiff⟩ := h.gathers hfiled (hfile input hinput) hgathers
  obtain ⟨l, hl, rfl⟩ := (hiff k d).mp hhas
  refine ⟨s, hs, Shelf.stays_eq_false.mpr ⟨input, hinput, hname.symm⟩, l, ?_, rfl⟩
  exact (h.placed s (List.mem_append_right _ hs)).stored k l hl

/-- No split loses a tombstone. -/
theorem Shelved.masked_compacted (h : Shelved base deltas w) (hgs : List.Forall₂ w.Gathers inputs gs)
    (hdead : ∀ d, d ∈ dead ↔ ∃ g ∈ gs, d ∈ g.tombstone.getD ∅) (merged : PostMap) (byteSize : Nat) {d : Nat} :
    Masked (w.compacted inputs merged dead byteSize).specs d ↔ Masked w.specs d := by
  have hparse := parseTombstone_newSummary w merged.keys (!merged.isEmpty) dead
  constructor
  · rintro ⟨s, hs, ids, hids, hd⟩
    rcases List.mem_append.mp hs with hs | hs
    · exact ⟨s, List.mem_of_mem_filter hs, ids, hids, hd⟩
    · rw [List.mem_singleton.mp hs] at hids
      have heq := Except.ok.inj (hparse.symm.trans hids)
      split at heq
      · cases heq
      · obtain rfl := Option.some.inj heq
        obtain ⟨g, hg, hdg⟩ := (hdead d).mp hd
        obtain ⟨input, -, hgathers⟩ := exists_partner_left hgs hg
        obtain ⟨idx, -, -, hspec⟩ := hgathers.split
        refine ⟨g.spec, List.mem_of_getElem? hspec, ?_⟩
        cases htomb : g.tombstone with
        | none =>
          rw [htomb] at hdg
          exact absurd hdg (AscSet.not_mem_empty d)
        | some ids =>
          rw [htomb] at hdg
          exact ⟨ids, htomb ▸ hgathers.tombstone, hdg⟩
  · rintro ⟨s, hs, ids, hids, hd⟩
    by_cases hgone : (inputs.map Prod.fst).contains s.dataFile = true
    · obtain ⟨input, hinput, hname⟩ := List.mem_map.mp (List.contains_iff_mem.mp hgone)
      obtain ⟨g, hg, hgathers⟩ := exists_partner hgs hinput
      obtain rfl := h.spec_of_name hgathers hs hname.symm
      have htomb : g.tombstone = some ids := Except.ok.inj (hgathers.tombstone.symm.trans hids)
      have hmem : d ∈ dead := (hdead d).mpr ⟨g, hg, by rw [htomb]; exact hd⟩
      refine ⟨_, List.mem_append_right _ (List.mem_singleton_self _), dead, hparse.trans ?_, hmem⟩
      rw [if_neg fun hempty => AscSet.isEmpty_iff_forall.mp hempty d hmem]
    · exact ⟨s, List.mem_append_left _ (List.mem_filter.mpr ⟨hs, by simpa using hgone⟩), ids, hids, hd⟩

/-- **A compaction keeps the shelves**: those of its inputs go, and one with what survives of them comes. -/
theorem Shelved.compacted (h : Shelved base deltas w) (hfiled : ∀ s ∈ deltas, s.Filed files true)
    (hfile : ∀ i ∈ inputs, fileOf files i.1 = some i.2) (hgather : w.gather inputs = .ok (merged, dead)) (byteSize : Nat)
    (hname : ∀ s ∈ w.specs, s.dataFile ≠ seqName w.namePrefix "-c" w.compactSeq.val) :
    Shelved base (deltas.filter (Shelf.stays inputs) ++ [w.mergedShelf inputs (surviving merged dead) dead byteSize])
      (w.compacted inputs (surviving merged dead) dead byteSize) := by
  obtain ⟨gs, hgs, hdocs, -⟩ := gather_ok hgather
  have hkept := h.kept_eq hgs
  have hspecs : (w.compacted inputs (surviving merged dead) dead byteSize).specs = w.kept inputs ++
      [w.mergedSpec inputs (surviving merged dead) dead byteSize] := rfl
  have hfree : (w.compacted inputs (surviving merged dead) dead byteSize).firstFree = w.firstFree := rfl
  have hfrom : ∀ k, ∀ d ∈ (surviving merged dead).docs k, ∃ s ∈ deltas, s.stays inputs = false ∧ s.Holds d := by
    intro k d hd
    exact h.holds_merged hfiled hfile hgs hdocs (mem_docs_surviving.mp hd).1
  have hspec : ∀ s ∈ base ++ deltas, s.spec ∈ w.specs := by
    intro s hs
    rw [h.specs]
    exact List.mem_map_of_mem hs
  have hcap : ∀ k, ∀ d ∈ (surviving merged dead).docs k, d + 1 < u32Bound := by
    intro k d hd
    obtain ⟨s, hs, -, hhold⟩ := hfrom k d hd
    obtain ⟨hpos, -, hle⟩ := (h.placed s (List.mem_append_right _ hs)).le_docIdHi hhold
    have := h.capped s hs hpos
    omega
  have hplaced := @placed_mergedShelf _ w inputs (surviving merged dead) dead hcap byteSize
  have hlast : 0 < (w.mergedSpec inputs (surviving merged dead) dead byteSize).docCount → ∃ s ∈ deltas,
      0 < s.spec.docCount ∧ (w.mergedSpec inputs (surviving merged dead) dead byteSize).docIdHi ≤ s.spec.docIdHi := by
    intro hpos
    have hne : (present (surviving merged dead)).toList ≠ [] := by
      intro hnil
      have hcount : (w.mergedSpec inputs (surviving merged dead) dead byteSize).docCount =
          (present (surviving merged dead)).toList.length % u32Bound := rfl
      rw [hcount, hnil] at hpos
      exact absurd hpos (by decide)
    obtain ⟨k, hk⟩ := mem_present.mp (getLastD_mem hne)
    obtain ⟨s, hs, -, hhold⟩ := hfrom k _ hk
    obtain ⟨hsome, -, hle⟩ := (h.placed s (List.mem_append_right _ hs)).le_docIdHi hhold
    exact ⟨s, hs, hsome, hle⟩
  have hsub : (base ++ deltas.filter (Shelf.stays inputs)).Sublist (base ++ deltas) :=
    List.Sublist.append (List.Sublist.refl _) List.filter_sublist
  have hmem : ∀ s ∈ base ++ (deltas.filter (Shelf.stays inputs) ++
      [w.mergedShelf inputs (surviving merged dead) dead byteSize]),
      s ∈ base ++ deltas.filter (Shelf.stays inputs) ∨ s = w.mergedShelf inputs (surviving merged dead) dead byteSize := by
    intro s hs
    rw [← List.append_assoc] at hs
    exact (List.mem_append.mp hs).imp id List.mem_singleton.mp
  refine ⟨?_, h.baseCount, ?_, fun s hs => ?_, fun s hs => ?_, ?_, fun s hs hpos => ?_, fun s hs hpos => ?_⟩
  · rw [hspecs, hkept, ← List.append_assoc]
    exact (@List.map_append _ _ Shelf.spec (base ++ deltas.filter (Shelf.stays inputs))
      [w.mergedShelf inputs (surviving merged dead) dead byteSize]).symm
  · rw [hspecs, List.map_append, List.nodup_append]
    refine ⟨h.names.sublist (List.filter_sublist.map _), List.nodup_singleton _, fun a ha b hb heq => ?_⟩
    obtain ⟨s, hs, rfl⟩ := List.mem_map.mp ha
    rw [List.map_singleton, List.mem_singleton] at hb
    exact hname s (List.mem_of_mem_filter hs) (heq.trans hb)
  · rcases hmem s hs with hs | rfl
    · exact h.placed s (hsub.subset hs)
    · exact hplaced
  · rcases List.mem_append.mp hs with hs | hs
    · exact h.tombstones s (List.mem_of_mem_filter hs)
    · rw [List.mem_singleton.mp hs]
      exact ⟨_, parseTombstone_newSummary _ _ _ _⟩
  · rw [← List.append_assoc]
    refine List.pairwise_append.mpr ⟨h.disjoint.sublist hsub, List.pairwise_singleton _ _, fun a ha b hb d hd hda => ?_⟩
    rw [List.mem_singleton.mp hb] at hd
    obtain ⟨k, hk⟩ := holds_mergedShelf.mp hd
    obtain ⟨s, hs, hgone, hhold⟩ := hfrom k d hk
    have hstays : a.stays inputs = true := by
      rcases List.mem_append.mp ha with ha | ha
      · exact h.base_stays hgs a ha
      · exact (List.mem_filter.mp ha).2
    have hne : s ≠ a := fun heq => Bool.false_ne_true (hgone.symm.trans (heq ▸ hstays))
    exact h.not_holds (List.mem_append_right _ hs) (hsub.subset ha) hne hhold hda
  · rw [hfree]
    rcases List.mem_append.mp hs with hs | hs
    · exact h.free s (List.mem_of_mem_filter hs) hpos
    · rw [List.mem_singleton.mp hs] at hpos ⊢
      obtain ⟨s, hs, hsome, hle⟩ := hlast hpos
      have := h.free s.spec (hspec s (List.mem_append_right _ hs)) hsome
      omega
  · rcases List.mem_append.mp hs with hs | hs
    · exact h.capped s (List.mem_of_mem_filter hs) hpos
    · rw [List.mem_singleton.mp hs] at hpos ⊢
      obtain ⟨s, hs, hsome, hle⟩ := hlast hpos
      have := h.capped s hs hsome
      show (w.mergedSpec inputs (surviving merged dead) dead byteSize).docIdHi + 1 < u32Bound
      omega

/-- The merged split has fewer than 2³² keys. -/
theorem FewKeys.length_surviving (h : w.FewKeys inputs) (hgather : w.gather inputs = .ok (merged, dead)) :
    (surviving merged dead).toList.length < 2 ^ 32 := by
  obtain ⟨gs, hgs, hdocs, -⟩ := gather_ok hgather
  have hsub : (surviving merged dead).keys ⊆ ((gs.flatMap Gathered.entries).map Prod.fst).dedup := by
    intro k hk
    obtain ⟨bm, hbm⟩ := OrdMap.mem_keys_iff.mp hk
    have hsome : bm.isEmpty = false := by
      have hret := hbm
      unfold surviving at hret
      rw [OrdMap.find?_retain, Option.filter_eq_some_iff] at hret
      exact Bool.not_eq_true' _ ▸ hret.2
    obtain ⟨d, hd⟩ := AscSet.isEmpty_eq_false.mp hsome
    have hmem : d ∈ (surviving merged dead).docs k := by
      unfold PostMap.docs
      rwa [hbm]
    obtain ⟨g, hg, e, he, rfl, -⟩ := (hdocs k d).mp (mem_docs_surviving.mp hmem).1
    exact List.mem_dedup.mpr (List.mem_map_of_mem (List.mem_flatMap.mpr ⟨g, hg, he⟩))
  have hle := (List.subperm_of_subset (OrdMap.keys_nodup _) hsub).length_le
  rw [OrdMap.keys, List.length_map] at hle
  exact Nat.lt_of_le_of_lt hle (h gs hgs)

end

end SplitSetWriter

/-! ## Sessions whose calls go through -/

section

variable [Roaring] {s : Shelf} {files : NamedFiles} {caseFold : Bool}

/-- A file under another name. -/
theorem Shelf.Filed.put (h : s.Filed files caseFold) {name : String} (hne : s.spec.dataFile ≠ name) (bytes : Bytes) :
    s.Filed ((name, bytes) :: files) caseFold := by
  obtain ⟨gramSize, stride, file, hg, hstride, hwrite, hfile⟩ := h.file
  refine ⟨h.keys_lt, gramSize, stride, file, hg, hstride, hwrite, ?_⟩
  unfold fileOf at hfile ⊢
  rw [List.find?_cons_of_neg (by simpa using Ne.symm hne)]
  exact hfile

omit [Roaring] in
theorem fileOf_put (files : NamedFiles) (name : String) (bytes : Bytes) :
    fileOf ((name, bytes) :: files) name = some bytes := by
  unfold fileOf
  rw [List.find?_cons_of_pos (by simp)]
  rfl

end

/-- The writer's case mode is in its flags. -/
theorem SplitSetWriter.hasFlag_manifestConfig (w : SplitSetWriter) :
    (!hasFlag w.manifestConfig.flags flagCaseSensitive) = w.caseNormalization := by
  have hall : ∀ tombstones bloom caseNormalization : Bool, (!hasFlag ((if tombstones then flagTombstones else 0) |||
      (if bloom then flagBloom else 0) ||| (if caseNormalization then 0 else flagCaseSensitive)) flagCaseSensitive) =
      caseNormalization := by decide
  have := hall (w.specs.any fun s => hasFlag s.flags splitFlagHasTombstone) (decide (0 < w.bloomBitsPerKey))
    w.caseNormalization
  simp only [decide_eq_true_eq] at this
  exact this

namespace Session

/-- The manifest in the store opens as the splits of the writer. -/
def Current (σ : Session) : Prop :=
  ∃ bytes prev, σ.manifest = some bytes ∧ SplitSet.fromBytes bytes = .ok prev ∧
    prev.splits.map (SplitSetWriter.carried prev) = σ.writer.specs ∧ prev.baseCount = σ.writer.baseCount ∧
    (!hasFlag prev.flags flagCaseSensitive) = σ.writer.caseNormalization

theorem current_put {σ : Session} {w : SplitSetWriter} (hw : w.Sized) {name : String} {bytes manifest : Bytes}
    (hemit : w.emitManifest = .ok manifest) (hlen : manifest.length < u64Bound) :
    (σ.put w name bytes manifest).Current := by
  obtain ⟨prev, hprev, -, -, hres⟩ := hw.exists_resumes hemit hlen
  refine ⟨manifest, prev, rfl, hprev, hres.specs, hres.baseCount, ?_⟩
  rw [hres.flags]
  exact w.hasFlag_manifestConfig

section

variable [Roaring] {σ σ' : Session} {base deltas : List Shelf}

/-- A flush that can be read back: its manifest is written, its counter is not at its end, its keys can be counted. -/
structure Flushable (σ : Session) : Prop where
  fits : σ.writer.FlushFits
  seq_lt : σ.writer.flushSeq.val + 1 < u32Bound
  keys_lt : σ.writer.memtable.len < 2 ^ 32

/-- The same of a compaction, which is of files in the store and reads them as what they are. -/
structure Compactable (σ : Session) (inputs : List (String × Bytes)) : Prop where
  fits : σ.writer.CompactFits inputs
  seq_lt : σ.writer.compactSeq.val + 1 < u32Bound
  keys_lt : σ.writer.FewKeys inputs
  files : ∀ i ∈ inputs, fileOf σ.files i.1 = some i.2
  caseFold : σ.writer.caseNormalization = true

/-- The manifest of such a flush is written. -/
theorem Flushable.emit_ne (h : σ.Flushable)
    (hsome : ¬ (σ.writer.memtableCount.val = 0 ∧ σ.writer.pendingDeletes.isEmpty = true)) (byteSize : Nat) (e : String) :
    (σ.writer.flushed byteSize).emitManifest ≠ .error e := by
  obtain ⟨m, hm⟩ := (σ.writer.emit_flushed_iff byteSize).mpr (h.fits.resolve_left hsome)
  rw [hm]
  exact fun heq => by cases heq

/-- The manifest of such a compaction is written. -/
theorem Compactable.emit_ne {inputs : List (String × Bytes)} (h : σ.Compactable inputs) {merged : PostMap} {dead : Bitmap}
    (hgather : σ.writer.gather inputs = .ok (merged, dead)) (byteSize : Nat) (e : String) :
    (σ.writer.compacted inputs (SplitSetWriter.surviving merged dead) dead byteSize).emitManifest ≠ .error e := by
  have hfits : σ.writer.NameFits (σ.writer.kept inputs) (seqName σ.writer.namePrefix "-c" σ.writer.compactSeq.val) := by
    refine h.fits.resolve_left ?_
    rintro ⟨e', he⟩
    rw [hgather] at he
    cases he
  obtain ⟨m, hm⟩ := (σ.writer.emit_compacted_iff inputs (SplitSetWriter.surviving merged dead) dead byteSize).mpr hfits
  rw [hm]
  exact fun heq => by cases heq

/-- What a call needs to go through. -/
def Orderly (σ : Session) : WriterCall → Prop
  | .addKeys _ => σ.writer.nextGlobalId.val + 1 < u32Bound
  | .delete _ => True
  | .flush => σ.Flushable
  | .compact inputs => σ.Compactable inputs
  | .resume args => NoLastSeq σ.published args.namePrefix

theorem Orderly.seqFits {c : WriterCall} (h : σ.Orderly c) : σ.SeqFits c := by
  cases c with
  | addKeys keys => trivial
  | delete globalId => trivial
  | flush => exact h.seq_lt
  | compact inputs => exact h.seq_lt
  | resume args => exact h

/-- The shelves of a session. -/
structure Housed (base deltas : List Shelf) (σ : Session) : Prop where
  sized : σ.writer.Sized
  named : σ.Named
  shelved : SplitSetWriter.Shelved base deltas σ.writer
  filling : σ.writer.Filling
  filed : ∀ s ∈ deltas, s.Filed σ.files σ.writer.caseNormalization
  current : σ.Current

/-- What a call does to the delta shelves and the store. -/
inductive Reshelved (σ σ' : Session) (deltas : List Shelf) : WriterCall → List Shelf → Prop
  | same (c : WriterCall) (hfiles : σ'.files = σ.files) (hspecs : σ'.writer.specs = σ.writer.specs) :
      Reshelved σ σ' deltas c deltas
  | flushed (bytes : Bytes) (hfile : σ.writer.indexFile σ.writer.memtable = .ok bytes)
      (hfiles : σ'.files = (seqName σ.writer.namePrefix "-d" σ.writer.flushSeq.val, bytes) :: σ.files)
      (hwriter : σ'.writer = σ.writer.flushed bytes.length) :
      Reshelved σ σ' deltas .flush (deltas ++ [σ.writer.deltaShelf bytes.length])
  | compacted (inputs : List (String × Bytes)) (merged : PostMap) (dead : Bitmap) (bytes : Bytes)
      (hgather : σ.writer.gather inputs = .ok (merged, dead))
      (hfile : σ.writer.indexFile (SplitSetWriter.surviving merged dead) = .ok bytes)
      (hfiles : σ'.files = (seqName σ.writer.namePrefix "-c" σ.writer.compactSeq.val, bytes) :: σ.files)
      (hwriter : σ'.writer = σ.writer.compacted inputs (SplitSetWriter.surviving merged dead) dead bytes.length) :
      Reshelved σ σ' deltas (.compact inputs) (deltas.filter (Shelf.stays inputs) ++
        [σ.writer.mergedShelf inputs (SplitSetWriter.surviving merged dead) dead bytes.length])

omit [Roaring] in
theorem filling_added (h : σ.writer.Filling) (hroom : σ.writer.nextGlobalId.val + 1 < u32Bound) (keys : List Key) :
    (σ.writer.addKeys keys).2.Filling ∧ (σ.writer.addKeys keys).2.firstFree = σ.writer.firstFree := by
  have hnext : (σ.writer.addKeys keys).2.nextGlobalId.val = σ.writer.nextGlobalId.val + 1 := Nat.mod_eq_of_lt hroom
  have hle : σ.writer.memtableCount.val ≤ σ.writer.nextGlobalId.val := by
    by_cases hc : 0 < σ.writer.memtableCount.val
    · have := h.count hc
      omega
    · omega
  have hcount : (σ.writer.addKeys keys).2.memtableCount.val = σ.writer.memtableCount.val + 1 :=
    Nat.mod_eq_of_lt (by omega)
  have hbase : (σ.writer.addKeys keys).2.memtableBase.val = σ.writer.firstFree := by
    unfold SplitSetWriter.firstFree SplitSetWriter.addKeys
    simp only
    split <;> rfl
  refine ⟨⟨fun k l hl => ?_, fun _ => ?_⟩, ?_⟩
  · rw [hcount]
    rcases PostMap.mem_docs_add.mp (show l ∈ (σ.writer.memtable.add σ.writer.memtableCount keys).docs k from hl) with
      hl | ⟨rfl, -⟩
    · exact Nat.lt_succ_of_lt (h.memtable k l hl)
    · exact Nat.lt_succ_self _
  · rw [hbase, hcount, hnext]
    unfold SplitSetWriter.firstFree
    split
    · omega
    · next hne =>
      have := h.count (Nat.pos_of_ne_zero hne)
      omega
  · rw [← hbase]
    exact if_neg (by omega)

omit [Roaring] in
theorem filling_of_empty {w : SplitSetWriter} (hmem : w.memtable = ∅) (hcount : w.memtableCount.val = 0) : w.Filling := by
  refine ⟨fun k l hl => ?_, fun hpos => absurd hcount (Nat.ne_of_gt hpos)⟩
  rw [hmem] at hl
  exact absurd hl (AscSet.not_mem_empty l)

omit [Roaring] in
/-- A resumed writer is past every split. -/
theorem free_resumed {prev : SplitSet} (args : ResumeArgs) {s : SplitSpec}
    (hs : s ∈ prev.splits.map (SplitSetWriter.carried prev)) (hpos : 0 < s.docCount) :
    let w := SplitSetWriter.resume prev args.gramSize args.stride args.namePrefix args.bloomBitsPerKey
    s.docIdHi < w.firstFree ∨ u32Bound ≤ w.firstFree + 1 := by
  intro w
  have hfree : w.firstFree = SplitSetWriter.nextIdOf prev.splits := Nat.mod_eq_of_lt (nextIdOf_lt prev.splits)
  by_cases hlt : s.docIdHi < u32Bound - 1
  · left
    rw [hfree]
    exact @Covered.lt_nextIdOf s.docIdHi prev ⟨s, hs, hpos, Nat.le_refl _, hlt⟩
  · right
    obtain ⟨split, hsplit, rfl⟩ := List.mem_map.mp hs
    have hcov : Covered (prev.splits.map (SplitSetWriter.carried prev)) (u32Bound - 2) :=
      ⟨_, hs, hpos, by omega, by decide⟩
    have := hcov.lt_nextIdOf
    have hbound : 2 ≤ u32Bound := by decide
    omega

/-- **A call that goes through keeps the shelves.** -/
theorem Housed.step {l : WriterCall × WriterOutcome} (h : Housed base deltas σ) (hs : σ.Step l σ')
    (horderly : σ.Orderly l.1) : ∃ deltas', σ.Reshelved σ' deltas l.1 deltas' ∧ Housed base deltas' σ' := by
  have hsized := sized_step h.sized hs
  have hnamed := h.named.step h.sized ⟨hs, horderly.seqFits⟩
  obtain ⟨hcall, hmem⟩ := hs
  obtain ⟨c, o⟩ := l
  cases call_effect hcall with
  | added keys =>
    obtain ⟨hfill, hfree⟩ := filling_added h.filling horderly keys
    refine ⟨deltas, .same _ rfl rfl, hsized, hnamed, ?_, hfill, h.filed, h.current⟩
    refine ⟨h.shelved.specs, h.shelved.baseCount, h.shelved.names, h.shelved.placed, h.shelved.tombstones,
      h.shelved.disjoint, fun s hs hpos => ?_, h.shelved.capped⟩
    rw [hfree]
    exact h.shelved.free s hs hpos
  | deleted globalId =>
    refine ⟨deltas, .same _ rfl rfl, hsized, hnamed, ?_, ⟨h.filling.memtable, h.filling.count⟩, h.filed, h.current⟩
    exact ⟨h.shelved.specs, h.shelved.baseCount, h.shelved.names, h.shelved.placed, h.shelved.tombstones,
      h.shelved.disjoint, h.shelved.free, h.shelved.capped⟩
  | idle hcount hdel => exact ⟨deltas, .same _ rfl rfl, h⟩
  | flushFailed bytes e hsome hfile hemit =>
    exact absurd hemit (horderly.emit_ne hsome _ e)
  | flushed bytes manifest hsome hfile hemit =>
    have hname : ∀ s ∈ σ.writer.specs, s.dataFile ≠ seqName σ.writer.namePrefix "-d" σ.writer.flushSeq.val := by
      intro s hs heq
      exact Nat.lt_irrefl _ (h.named.flush s (List.mem_append_left _ hs) _ σ.writer.flushSeq.isLt heq)
    refine ⟨_, .flushed bytes hfile rfl rfl, hsized, hnamed, h.shelved.flushed h.filling bytes.length hname,
      filling_of_empty rfl rfl, fun s hs => ?_, current_put hsized hemit (hmem.manifest_lt manifest rfl)⟩
    rcases List.mem_append.mp hs with hs | hs
    · refine (h.filed s hs).put (hname s.spec ?_) bytes
      rw [h.shelved.specs]
      exact List.mem_map_of_mem (List.mem_append_right _ hs)
    · rw [List.mem_singleton.mp hs]
      exact ⟨horderly.keys_lt, _, _, bytes, h.sized.fits.gramSize_lt, h.sized.fits.stride_lt, hfile, fileOf_put _ _ _⟩
  | refused inputs e hgather => exact ⟨deltas, .same _ rfl rfl, h⟩
  | compactFailed inputs merged dead bytes e hgather hfile hemit =>
    exact absurd hemit (horderly.emit_ne hgather _ e)
  | compacted inputs merged dead bytes manifest hgather hfile hemit =>
    have hname : ∀ s ∈ σ.writer.specs, s.dataFile ≠ seqName σ.writer.namePrefix "-c" σ.writer.compactSeq.val := by
      intro s hs heq
      exact Nat.lt_irrefl _ (h.named.compact s (List.mem_append_left _ hs) _ σ.writer.compactSeq.isLt heq)
    have hfiled : ∀ s ∈ deltas, s.Filed σ.files true := by
      rw [← horderly.caseFold]
      exact h.filed
    refine ⟨_, .compacted inputs merged dead bytes hgather hfile rfl rfl, hsized, hnamed,
      h.shelved.compacted hfiled horderly.files hgather bytes.length hname, ⟨h.filling.memtable, h.filling.count⟩,
      fun s hs => ?_, current_put hsized hemit (hmem.manifest_lt manifest rfl)⟩
    rcases List.mem_append.mp hs with hs | hs
    · have hmem := List.mem_of_mem_filter hs
      refine (h.filed s hmem).put (hname s.spec ?_) bytes
      rw [h.shelved.specs]
      exact List.mem_map_of_mem (List.mem_append_right _ hmem)
    · rw [List.mem_singleton.mp hs]
      exact ⟨horderly.keys_lt.length_surviving hgather, _, _, bytes, h.sized.fits.gramSize_lt, h.sized.fits.stride_lt,
        hfile, fileOf_put _ _ _⟩
  | resumed args bytes prev hm hprev =>
    obtain ⟨bytes', prev', hm', hprev', hspecs, hbase, hcase⟩ := h.current
    obtain rfl : bytes = bytes' := Option.some.inj (hm.symm.trans hm')
    obtain rfl : prev = prev' := Except.ok.inj (hprev.symm.trans hprev')
    have hwriter : (σ.resumed args prev).writer.specs = σ.writer.specs := hspecs
    refine ⟨deltas, .same _ rfl hwriter, hsized, hnamed, ?_, filling_of_empty rfl rfl, fun s hs => ?_, bytes, prev, hm, hprev, rfl,
      rfl, rfl⟩
    · refine ⟨hwriter.trans h.shelved.specs, hbase.trans h.shelved.baseCount, ?_, h.shelved.placed, ?_, h.shelved.disjoint,
        fun s hs hpos => free_resumed args hs hpos, h.shelved.capped⟩
      · rw [hwriter]
        exact h.shelved.names
      · rw [hwriter]
        exact h.shelved.tombstones
    · have hfiled := h.filed s hs
      rw [← hcase] at hfiled
      exact hfiled

end

end Session

end RoaringRange
