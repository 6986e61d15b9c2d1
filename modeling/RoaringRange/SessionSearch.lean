import RoaringRange.WriterSearch

/-!
# What the calls of a writer do to a search (`splitset_write.rs`, `splitset.rs`)

A writer that is resumed over a build adds documents, deletes, flushes, compacts and resumes again.  What a set finds
after that is known from the documents of the build and the log of the calls alone.  A flush adds its documents to what a
query finds, and takes away what was deleted.  A compaction neither adds nor takes away.

    the set in the store finds the live hits of the session's shelves                  (Kept.settles_search)
    a set finds what was put in and not deleted                                        (session_search)
    a flush adds its documents and takes away the deleted ones, by the page            (flush_search)
    a compaction changes no page of any query                                          (compact_search)
-/

namespace RoaringRange

open ByteString Faults Slices Runs Tiles

/-! ## Sorted ids -/

theorem eq_sortByKey_of_mem {xs ys : List Nat} (hasc : xs.Pairwise (· < ·)) (hnodup : ys.Nodup)
    (hmem : ∀ d, d ∈ xs ↔ d ∈ ys) : xs = sortByKey id ys := by
  refine List.Perm.eq_of_pairwise (fun a b _ _ hab hba => Nat.le_antisymm hab hba) (hasc.imp Nat.le_of_lt)
    (sortByKey_sorted id ys) ?_
  have hperm : xs.Perm ys := (List.perm_ext_iff_of_nodup (hasc.imp Nat.ne_of_lt) hnodup).mpr hmem
  exact hperm.trans (sortByKey_perm id ys).symm

theorem sortByKey_eq_of_mem {xs ys : List Nat} (hxs : xs.Nodup) (hys : ys.Nodup) (hmem : ∀ d, d ∈ xs ↔ d ∈ ys) :
    sortByKey id xs = sortByKey id ys := by
  have hperm : xs.Perm ys := (List.perm_ext_iff_of_nodup hxs hys).mpr hmem
  refine List.Perm.eq_of_pairwise (fun a b _ _ hab hba => Nat.le_antisymm hab hba) (sortByKey_sorted id xs)
    (sortByKey_sorted id ys) ?_
  exact (sortByKey_perm id xs).trans (hperm.trans (sortByKey_perm id ys).symm)

/-- An element is found by what is its alone. -/
theorem findIdx?_of_nodup {α β : Type} [DecidableEq β] {f : α → β} {xs : List α} (h : (xs.map f).Nodup) {i : Nat} {x : α}
    (hx : xs[i]? = some x) : xs.findIdx? (fun y => f y = f x) = some i := by
  obtain ⟨hlt, rfl⟩ := List.getElem?_eq_some_iff.mp hx
  refine List.findIdx?_eq_some_iff_getElem.mpr ⟨hlt, decide_eq_true rfl, fun j hj heq => ?_⟩
  have hne := List.pairwise_iff_getElem.mp h j i (by rw [List.length_map]; omega) (by rw [List.length_map]; exact hlt) hj
  rw [List.getElem_map, List.getElem_map] at hne
  exact hne (of_decide_eq_true heq)

/-! ## The set in the store -/

section

variable {policy : Policy} {ranking : Option ((Nat → Option Int) × Bool)} {base deltas : List Shelf} {dead : Bitmap}
  {keys : List Key}

theorem mem_liveHits {d : Nat} : d ∈ liveHits policy ranking base deltas dead keys ↔
    (d ∈ shelfHits base keys ∨ d ∈ shelfHits deltas keys) ∧ d ∉ dead := by
  unfold liveHits
  rw [List.mem_append, (perm_baseOrder policy ranking _).mem_iff, mem_sortByKey, List.mem_filter, List.mem_filter,
    decide_eq_true_eq, ← or_and_right]

theorem nodup_liveHits (h : (shelfHits (base ++ deltas) keys).Nodup) :
    (liveHits policy ranking base deltas dead keys).Nodup := by
  unfold shelfHits at h
  rw [List.flatMap_append, List.nodup_append] at h
  obtain ⟨hbase, hdeltas, hne⟩ := h
  unfold liveHits
  rw [List.nodup_append, (perm_baseOrder policy ranking _).nodup_iff, (sortByKey_perm id _).nodup_iff]
  refine ⟨hbase.filter _, hdeltas.filter _, fun a ha b hb => ?_⟩
  rw [(perm_baseOrder policy ranking _).mem_iff] at ha
  rw [mem_sortByKey] at hb
  exact hne a (List.mem_of_mem_filter ha) b (List.mem_of_mem_filter hb)

theorem liveHits_lt : ∀ d ∈ liveHits policy ranking base deltas dead keys, d < u32Bound := by
  intro d hd
  rcases (mem_liveHits.mp hd).1 with hd | hd
  · obtain ⟨s, -, hs⟩ := mem_shelfHits.mp hd
    exact Shelf.hits_lt d hs
  · obtain ⟨s, -, hs⟩ := mem_shelfHits.mp hd
    exact Shelf.hits_lt d hs

/-- No key, no hit. -/
theorem liveHits_nil : liveHits policy ranking base deltas dead [] = [] := by
  refine List.eq_nil_iff_forall_not_mem.mpr fun d hd => ?_
  have := (mem_liveHits.mp hd).1
  rw [shelfHits_nil, shelfHits_nil] at this
  simp at this

end

/-- The resolver serves what a set over a build of the documents names: its splits, its sort column, and the global
filter, if there is one. -/
structure SplitFetcher.ServesSet (resolver : SplitFetcher) (set : SplitSet) (files : NamedFiles) (docs : List BuildDoc)
    (ranking : Option ((Nat → Option Int) × Bool)) : Prop where
  splits : resolver.ServesSplits set files
  ranked : set.policy = .stableKey → RankedBy set.sortcol resolver docs.length ranking
  bloom : resolver.BloomOver fun k => k ∈ distinctKeys docs

section

variable [Roaring] [Unicode] [TokenFilters] [Fst] {σ σ' : Session} {t : SearchTerms} {docs : List BuildDoc}
  {base deltas : List Shelf} {log : WriterLog} {bytes : Bytes} {set : SplitSet} {resolver : SplitFetcher}
  {ranking : Option ((Nat → Option Int) × Bool)}

/-- **The set in the store finds the live hits** of the session's shelves. -/
theorem Session.Kept.settles_search (h : σ.Kept t docs.length base deltas log) (hb : BuildShelves base docs)
    (hm : σ.manifest = some bytes) (hset : SplitSet.fromBytes bytes = .ok set) :
    ∃ dead : Bitmap, (∀ d, d ∈ dead ↔ d ∈ log.tombstoned) ∧ ∀ (resolver : SplitFetcher)
      (ranking : Option ((Nat → Option Int) × Bool)), resolver.ServesSet set σ.files docs ranking →
      ∀ query limit, Settles (set.search resolver query limit)
        (.ok ((liveHits t.policy ranking base deltas dead (ngramKeysWith query t.gramSize t.caseFold)).take limit)) := by
  obtain ⟨bytes', set', hm', hset', hspecs, -⟩ := h.housed.current
  obtain rfl : bytes = bytes' := Option.some.inj (hm.symm.trans hm')
  obtain rfl : set = set' := Except.ok.inj (hset.symm.trans hset')
  obtain ⟨dead, hdead, hmasked⟩ := @exists_dead _ set (by rw [hspecs]; exact h.housed.shelved.tombstones)
  rw [hspecs] at hmasked
  refine ⟨dead, fun d => (hmasked d).trans (h.logged.masked d), fun resolver ranking hserves query limit => ?_⟩
  have hplain : deltas = [] → ∀ d, d ∉ dead := by
    rintro rfl d hd
    have hmask := (hmasked d).mp hd
    rw [h.housed.shelved.specs, List.append_nil] at hmask
    exact hb.plain d hmask
  have hasc : ∀ keys, (shelfHits base keys).Pairwise (· < ·) := by
    intro keys
    rw [hb.hits]
    exact List.pairwise_findIdxs
  have hlt : ∀ keys, ∀ d ∈ shelfHits base keys, d < docs.length := by
    intro keys d hd
    rw [hb.hits] at hd
    have := List.lt_add_of_mem_findIdxs d hd
    omega
  have hsearch := (h.stocked hm hset hserves.splits).settles_search hdead hplain hasc hlt hserves.ranked hserves.bloom
    hb.indexed query limit
  obtain ⟨rfl, -⟩ := h.terms.manifest bytes set hm hset
  exact hsearch

/-- A query without keys finds nothing. -/
theorem Session.Kept.settles_keyless (h : σ.Kept t docs.length base deltas log) (hb : BuildShelves base docs)
    (hm : σ.manifest = some bytes) (hset : SplitSet.fromBytes bytes = .ok set)
    (hserves : resolver.ServesSet set σ.files docs ranking) {query : String}
    (hkeys : ngramKeysWith query set.gramSize set.caseFold = []) (limit : Nat) :
    Settles (set.search resolver query limit) (.ok []) := by
  obtain ⟨dead, -, hsearch⟩ := h.settles_search hb hm hset
  obtain ⟨rfl, -⟩ := h.terms.manifest bytes set hm hset
  have hlimit := hsearch resolver ranking hserves query limit
  rwa [show ngramKeysWith query set.terms.gramSize set.terms.caseFold = [] from hkeys, liveHits_nil,
    List.take_nil] at hlimit

omit [Unicode] [TokenFilters] [Fst] in
/-- No document is found twice. -/
theorem Session.Kept.nodup_shelfHits (h : σ.Kept t docs.length base deltas log) (keys : List Key) :
    (shelfHits (base ++ deltas) keys).Nodup :=
  RoaringRange.nodup_shelfHits h.housed.shelved.placed h.housed.shelved.disjoint keys

end

/-! ## A flush -/

/-- The documents of the log that have the keys. -/
def WriterLog.wanted (log : WriterLog) (keys : List Key) : List Nat :=
  (log.added.filter fun p => keys.all fun k => p.2.contains k).map Prod.fst

/-- What is found after a flush over a base of `n` documents: what was found before and what is added, without what is
gone, the base in the order of the policy and then the rest by id. -/
def flushedHits (policy : Policy) (ranking : Option ((Nat → Option Int) × Bool)) (n : Nat) (found added gone : List Nat) :
    List Nat :=
  let live := (found ++ added).filter fun d => !gone.contains d
  baseOrder policy ranking (sortByKey id (live.filter fun d => d < n)) ++ sortByKey id (live.filter fun d => n ≤ d)

section

variable [Roaring] {σ : Session} {t : SearchTerms} {n : Nat} {base deltas : List Shelf} {log : WriterLog}

omit [Roaring] in
theorem WriterLog.mem_wanted {keys : List Key} {d : Nat} : d ∈ log.wanted keys ↔
    ∃ (l : Nat) (p : Nat × List Key), log.added[l]? = some p ∧ (∀ k ∈ keys, k ∈ p.2) ∧ p.1 = d := by
  unfold wanted
  simp only [List.mem_map, List.mem_filter, List.all_eq_true, List.contains_iff_mem]
  constructor
  · rintro ⟨p, ⟨hp, hall⟩, rfl⟩
    obtain ⟨l, hl⟩ := List.mem_iff_getElem?.mp hp
    exact ⟨l, p, hl, hall, rfl⟩
  · rintro ⟨l, p, hl, hall, rfl⟩
    exact ⟨p, ⟨List.mem_of_getElem? hl, hall⟩, rfl⟩

/-- What a flushed split finds is what was added since. -/
theorem Session.Logged.mem_hits (h : σ.Logged log) (hfill : σ.writer.Filling) {keys : List Key} (hkeys : keys ≠ [])
    (byteSize d : Nat) : d ∈ (σ.writer.deltaShelf byteSize).hits keys ↔ d ∈ log.wanted keys := by
  have hglobal : ∀ l < σ.writer.memtableCount.val,
      (σ.writer.deltaSpec byteSize).entry.toGlobal l = σ.writer.firstFree + l := by
    intro l hl
    obtain ⟨hlo, hhi, hsum⟩ := hfill.range byteSize (by omega)
    have hnext := σ.writer.nextGlobalId.isLt
    unfold Split.toGlobal
    rw [σ.writer.absoluteIds_deltaSpec byteSize, if_neg Bool.false_ne_true, ← hlo]
    show min ((σ.writer.deltaSpec byteSize).docIdLo + l) (u32Bound - 1) = _
    omega
  have hid : ∀ (l : Nat) (p : Nat × List Key), log.added[l]? = some p → l < σ.writer.memtableCount.val ∧ p.1 = σ.writer.firstFree + l := by
    intro l p hp
    have hget := congrArg (fun xs => xs[l]?) h.ids
    simp only [List.getElem?_map, hp, Option.map_some] at hget
    obtain ⟨hlt, heq⟩ := List.getElem?_eq_some_iff.mp hget.symm
    rw [List.length_range'] at hlt
    rw [List.getElem_range', Nat.one_mul] at heq
    exact ⟨hlt, heq.symm⟩
  rw [Shelf.mem_hits, WriterLog.mem_wanted]
  constructor
  · rintro ⟨-, l, hall, rfl⟩
    obtain ⟨k, hk⟩ := List.exists_mem_of_ne_nil keys hkeys
    obtain ⟨p, hp, -⟩ := (h.docs k l).mp (hall k hk)
    obtain ⟨hlt, heq⟩ := hid l p hp
    refine ⟨l, p, hp, fun j hj => ?_, heq.trans (hglobal l hlt).symm⟩
    obtain ⟨p', hp', hmem⟩ := (h.docs j l).mp (hall j hj)
    rw [hp] at hp'
    rwa [Option.some.inj hp']
  · rintro ⟨l, p, hp, hall, rfl⟩
    obtain ⟨hlt, heq⟩ := hid l p hp
    exact ⟨hkeys, l, fun k hk => (h.docs k l).mpr ⟨p, hp, hall k hk⟩, (hglobal l hlt).trans heq.symm⟩

theorem Session.Logged.nodup_wanted (h : σ.Logged log) (keys : List Key) : (log.wanted keys).Nodup := by
  have hnodup : (log.added.map Prod.fst).Nodup := by
    rw [h.ids]
    exact List.nodup_range'
  exact hnodup.sublist (List.filter_sublist.map _)

end

/-! ## A compaction -/

section

variable [Roaring] {σ σ' : Session} {base deltas deltas' : List Shelf} {inputs : List (String × Bytes)} {merged : PostMap}
  {dead : Bitmap}

/-- A shelf is known by its name. -/
theorem SplitSetWriter.Shelved.shelf_of_name {w : SplitSetWriter} (h : Shelved base deltas w) {s t : Shelf}
    (hs : s ∈ base ++ deltas) (ht : t ∈ base ++ deltas) (hname : s.spec.dataFile = t.spec.dataFile) : s = t := by
  have hnames := h.names
  rw [h.specs, List.map_map] at hnames
  exact List.inj_on_of_nodup_map hnames hs ht hname

omit [Roaring] in
/-- A hit has each key under its local id. -/
theorem Shelf.Placed.mem_hits_iff {s : Shelf} (h : s.Placed) {keys : List Key} (hkeys : keys ≠ []) {d : Nat} :
    d ∈ s.hits keys ↔ ∀ k ∈ keys, ∃ l ∈ s.posts.docs k, s.spec.entry.toGlobal l = d := by
  rw [Shelf.mem_hits]
  constructor
  · rintro ⟨-, l, hall, rfl⟩ k hk
    exact ⟨l, hall k hk, rfl⟩
  · intro hall
    obtain ⟨k, hk⟩ := List.exists_mem_of_ne_nil keys hkeys
    obtain ⟨l, hl, rfl⟩ := hall k hk
    refine ⟨hkeys, l, fun j hj => ?_, rfl⟩
    obtain ⟨l', hl', heq⟩ := hall j hj
    -- the split finds a document again under its one local id
    rw [← h.toLocal l (h.stored k l hl), ← heq, h.toLocal l' (h.stored j l' hl')]
    exact hl'

/-- **A compaction finds what its inputs found**, of what is not masked. -/
theorem Session.Housed.mem_hits_merged (h : σ.Housed base deltas) (hc : σ.Compactable inputs)
    (hgather : σ.writer.gather inputs = .ok (merged, dead)) (byteSize : Nat) {keys : List Key} (hkeys : keys ≠ []) {d : Nat}
    (hlive : ¬ Masked σ.writer.specs d) :
    d ∈ shelfHits (deltas.filter (Shelf.stays inputs) ++
        [σ.writer.mergedShelf inputs (SplitSetWriter.surviving merged dead) dead byteSize]) keys ↔
      d ∈ shelfHits deltas keys := by
  obtain ⟨gs, hgs, hdocs, hdead⟩ := SplitSetWriter.gather_ok hgather
  have hfiled : ∀ s ∈ deltas, s.Filed σ.files true := by
    rw [← hc.caseFold]
    exact h.filed
  have hplaced : ∀ s ∈ deltas, s.Placed := fun s hs => h.shelved.placed s (List.mem_append_right _ hs)
  have hmerged : d ∈ (σ.writer.mergedShelf inputs (SplitSetWriter.surviving merged dead) dead byteSize).hits keys ↔
      ∀ k ∈ keys, d ∈ (SplitSetWriter.surviving merged dead).docs k := by
    rw [Shelf.mem_hits]
    simp only [SplitSetWriter.toGlobal_mergedShelf, exists_eq_right]
    exact and_iff_right hkeys
  have hnot : d ∉ dead := by
    intro hd
    obtain ⟨g, hg, hdg⟩ := (hdead d).mp hd
    obtain ⟨input, -, hgathers⟩ := exists_partner_left hgs hg
    obtain ⟨idx, -, -, hspec⟩ := hgathers.split
    cases htomb : g.tombstone with
    | none =>
      rw [htomb] at hdg
      exact AscSet.not_mem_empty d hdg
    | some ids =>
      rw [htomb] at hdg
      exact hlive ⟨g.spec, List.mem_of_getElem? hspec, ids, htomb ▸ hgathers.tombstone, hdg⟩
  simp only [mem_shelfHits, List.mem_append, List.mem_singleton]
  constructor
  · rintro ⟨s, hs | rfl, hd⟩
    · exact ⟨s, List.mem_of_mem_filter hs, hd⟩
    · have hall := hmerged.mp hd
      have hfrom : ∀ k ∈ keys, ∃ s ∈ deltas, ∃ l ∈ s.posts.docs k, s.spec.entry.toGlobal l = d := by
        intro k hk
        obtain ⟨g, hg, hhas⟩ := (hdocs k d).mp (SplitSetWriter.mem_docs_surviving.mp (hall k hk)).1
        obtain ⟨input, hinput, hgathers⟩ := exists_partner_left hgs hg
        obtain ⟨s, hs, -, -, hiff⟩ := h.shelved.gathers hfiled (hc.files input hinput) hgathers
        exact ⟨s, hs, (hiff k d).mp hhas⟩
      obtain ⟨k, hk⟩ := List.exists_mem_of_ne_nil keys hkeys
      obtain ⟨s, hs, l, hl, hd'⟩ := hfrom k hk
      refine ⟨s, hs, ((hplaced s hs).mem_hits_iff hkeys).mpr fun j hj => ?_⟩
      obtain ⟨t, ht, l', hl', hd''⟩ := hfrom j hj
      -- the document is on one shelf
      have hsame : s = t := by
        by_contra hne
        have hhold : s.Holds d := ⟨l, (hplaced s hs).stored k l hl, hd'⟩
        have hhold' : t.Holds d := ⟨l', (hplaced t ht).stored j l' hl', hd''⟩
        exact h.shelved.not_holds (List.mem_append_right _ hs) (List.mem_append_right _ ht) hne hhold hhold'
      exact hsame ▸ ⟨l', hl', hd''⟩
  · rintro ⟨s, hs, hd⟩
    cases hstays : s.stays inputs with
    | true => exact ⟨s, Or.inl (List.mem_filter.mpr ⟨hs, hstays⟩), hd⟩
    | false =>
      refine ⟨_, Or.inr rfl, hmerged.mpr fun k hk => SplitSetWriter.mem_docs_surviving.mpr ⟨?_, hnot⟩⟩
      obtain ⟨input, hinput, hname⟩ := Shelf.stays_eq_false.mp hstays
      obtain ⟨g, hg, hgathers⟩ := exists_partner hgs hinput
      obtain ⟨t, ht, -, hname', hiff⟩ := h.shelved.gathers hfiled (hc.files input hinput) hgathers
      obtain rfl : s = t := h.shelved.shelf_of_name (List.mem_append_right _ hs) (List.mem_append_right _ ht)
        (hname.symm.trans hname'.symm)
      exact (hdocs k d).mpr ⟨g, hg, (hiff k d).mpr (((hplaced s hs).mem_hits_iff hkeys).mp hd k hk)⟩

end

section

variable {policy : Policy} {ranking : Option ((Nat → Option Int) × Bool)} {base deltas : List Shelf} {keys : List Key}
  {delta : Shelf} {dead dead' : Bitmap} {n : Nat} {added gone : List Nat}

/-- What was found and what is added, each once. -/
theorem nodup_found_added (hnodup : (shelfHits (base ++ (deltas ++ [delta])) keys).Nodup)
    (hadded : ∀ d, d ∈ delta.hits keys ↔ d ∈ added) (hdistinct : added.Nodup) :
    (liveHits policy ranking base deltas dead keys ++ added).Nodup := by
  unfold shelfHits at hnodup
  rw [← List.append_assoc, List.flatMap_append, List.flatMap_singleton, List.nodup_append] at hnodup
  obtain ⟨hfound, -, hne⟩ := hnodup
  refine List.nodup_append.mpr ⟨nodup_liveHits hfound, hdistinct, fun a ha b hb => ?_⟩
  refine hne a ?_ b ((hadded b).mpr hb)
  rw [List.flatMap_append, List.mem_append]
  exact (mem_liveHits.mp ha).1

/-- One more delta shelf, with what is added on it. -/
theorem liveHits_snoc (hnodup : (shelfHits (base ++ (deltas ++ [delta])) keys).Nodup)
    (hasc : (shelfHits base keys).Pairwise (· < ·)) (hlt : ∀ d ∈ shelfHits base keys, d < n)
    (hge : ∀ d ∈ shelfHits (deltas ++ [delta]) keys, n ≤ d) (hadded : ∀ d, d ∈ delta.hits keys ↔ d ∈ added)
    (hdistinct : added.Nodup) (hgone : ∀ d, d ∈ dead' ↔ d ∈ gone) (hmore : ∀ d ∈ dead, d ∈ dead') :
    liveHits policy ranking base (deltas ++ [delta]) dead' keys =
      flushedHits policy ranking n (liveHits policy ranking base deltas dead keys) added gone := by
  have hdeltas : ∀ d, d ∈ shelfHits (deltas ++ [delta]) keys ↔ d ∈ shelfHits deltas keys ∨ d ∈ added := by
    intro d
    unfold shelfHits
    rw [List.flatMap_append, List.flatMap_singleton, List.mem_append, hadded]
  have hlive : ∀ d, d ∈ (liveHits policy ranking base deltas dead keys ++ added).filter (fun d => !gone.contains d) ↔
      (d ∈ shelfHits base keys ∨ d ∈ shelfHits (deltas ++ [delta]) keys) ∧ d ∉ dead' := by
    intro d
    have hnot : (!gone.contains d) = true ↔ d ∉ dead' := by
      rw [Bool.not_eq_true', Bool.eq_false_iff, Ne, List.contains_iff_mem, hgone]
    rw [List.mem_filter, hnot, List.mem_append, mem_liveHits, hdeltas, ← or_assoc]
    refine and_congr_left fun hd => ?_
    rw [and_iff_left fun hin => hd (hmore d hin)]
  have hfresh := (@nodup_found_added policy ranking base deltas keys delta dead added hnodup hadded hdistinct).filter
    fun d => !gone.contains d
  have hparts : (shelfHits base keys).Nodup ∧ (shelfHits (deltas ++ [delta]) keys).Nodup := by
    unfold shelfHits at hnodup ⊢
    rw [List.flatMap_append, List.nodup_append] at hnodup
    exact ⟨hnodup.1, hnodup.2.1⟩
  unfold flushedHits
  have hbase : (shelfHits base keys).filter (fun d => d ∉ dead') = sortByKey id
      (((liveHits policy ranking base deltas dead keys ++ added).filter fun d => !gone.contains d).filter
        fun d => d < n) := by
    refine eq_sortByKey_of_mem (hasc.filter _) (hfresh.filter _) fun d => ?_
    rw [List.mem_filter, List.mem_filter, hlive, decide_eq_true_eq, decide_eq_true_eq]
    constructor
    · rintro ⟨hd, hnot⟩
      exact ⟨⟨Or.inl hd, hnot⟩, hlt d hd⟩
    · rintro ⟨⟨hd | hd, hnot⟩, hlow⟩
      · exact ⟨hd, hnot⟩
      · exact absurd (hge d hd) (Nat.not_le_of_lt hlow)
  have hrest : sortByKey id ((shelfHits (deltas ++ [delta]) keys).filter fun d => d ∉ dead') = sortByKey id
      (((liveHits policy ranking base deltas dead keys ++ added).filter fun d => !gone.contains d).filter
        fun d => n ≤ d) := by
    refine sortByKey_eq_of_mem (hparts.2.filter _) (hfresh.filter _) fun d => ?_
    rw [List.mem_filter, List.mem_filter, hlive, decide_eq_true_eq, decide_eq_true_eq]
    constructor
    · rintro ⟨hd, hnot⟩
      exact ⟨⟨Or.inr hd, hnot⟩, hge d hd⟩
    · rintro ⟨⟨hd | hd, hnot⟩, hhigh⟩
      · exact absurd hhigh (Nat.not_le_of_lt (hlt d hd))
      · exact ⟨hd, hnot⟩
  unfold liveHits at hbase hrest ⊢
  rw [hbase, hrest]

end

/-! ## The answer by the log -/

/-- What is found over a build of the documents after the calls of the log: the documents of the build that have the keys,
in the order of the policy, and the flushed ones by id, all without the deleted ones. -/
def answer (policy : Policy) (ranking : Option ((Nat → Option Int) × Bool)) (docs : List BuildDoc) (log : WriterLog)
    (keys : List Key) : List Nat :=
  baseOrder policy ranking ((docs.findIdxs (BuildDoc.hasKeys keys)).filter fun d => !log.tombstoned.contains d) ++
    sortByKey id ((((log.published.filter fun p => BuildDoc.hasKeys keys ⟨p.2, []⟩).map Prod.fst).dedup).filter
      fun d => !log.tombstoned.contains d)

/-- What the delta shelves find, of what is not deleted, is what was flushed. -/
def Finds (deltas : List Shelf) (log : WriterLog) : Prop :=
  ∀ keys, keys ≠ [] → ∀ d, d ∉ log.tombstoned →
    (d ∈ shelfHits deltas keys ↔ ∃ p ∈ log.published, p.1 = d ∧ ∀ k ∈ keys, k ∈ p.2)

theorem WriterLog.note_quiet (log : WriterLog) {l : WriterCall × WriterOutcome} (h : ∀ name, l.2 ≠ .emitted name) :
    (log.note l).published = log.published ∧ (log.note l).tombstoned = log.tombstoned := by
  obtain ⟨c, o⟩ := l
  cases c <;> cases o <;> first | exact ⟨rfl, rfl⟩ | exact absurd rfl (h _)

section

variable [Roaring] {σ σ' : Session} {t : SearchTerms} {n : Nat} {base deltas deltas' : List Shelf} {log : WriterLog}

/-- A call emits a split if it puts a file. -/
theorem Session.emitted_iff_put {c : WriterCall} {o : WriterOutcome} (hs : σ.Step (c, o) σ') :
    (∃ name, o = .emitted name) ↔ σ'.files ≠ σ.files := by
  have hquiet : ∀ {o : WriterOutcome}, (∀ name, o ≠ .emitted name) → ((∃ name, o = .emitted name) ↔ σ.files ≠ σ.files) :=
    fun h => iff_of_false (fun hsome => hsome.elim h) fun hne => hne rfl
  cases call_effect hs.1 with
  | added keys => exact hquiet fun name heq => by cases heq
  | deleted globalId => exact hquiet fun name heq => by cases heq
  | idle hcount hdel => exact hquiet fun name heq => by cases heq
  | flushFailed bytes e hsome hfile hemit => exact hquiet fun name heq => by cases heq
  | flushed bytes manifest hsome hfile hemit => exact iff_of_true ⟨_, rfl⟩ (List.cons_ne_self _ _)
  | refused inputs e hgather => exact hquiet fun name heq => by cases heq
  | compactFailed inputs merged dead bytes e hgather hfile hemit => exact hquiet fun name heq => by cases heq
  | compacted inputs merged dead bytes manifest hgather hfile hemit => exact iff_of_true ⟨_, rfl⟩ (List.cons_ne_self _ _)
  | resumed args bytes prev hm hprev => exact hquiet fun name heq => by cases heq

/-- **A call that goes through keeps what the deltas find** in step with the log. -/
theorem Session.Kept.finds_step {l : WriterCall × WriterOutcome} (h : σ.Kept t n base deltas log)
    (hfinds : Finds deltas log) (hs : σ.Step l σ') (horderly : σ.Orderly l.1) (hre : σ.Reshelved σ' deltas l.1 deltas') :
    Finds deltas' (log.note l) := by
  obtain ⟨c, o⟩ := l
  have hput := emitted_iff_put hs
  cases hre with
  | same c hfiles hspecs =>
    have hquiet : ∀ name, o ≠ .emitted name := fun name heq => hput.mp ⟨name, heq⟩ hfiles
    obtain ⟨hpub, htomb⟩ := log.note_quiet (l := (c, o)) hquiet
    unfold Finds
    rw [hpub, htomb]
    exact hfinds
  | flushed bytes hfile hfiles hwriter =>
    obtain ⟨name, rfl⟩ := hput.mpr (by rw [hfiles]; exact List.cons_ne_self _ _)
    intro keys hkeys d hd
    have hd' : d ∉ log.tombstoned := fun hin => hd (List.mem_append_left _ hin)
    have hadded := h.logged.mem_hits h.housed.filling hkeys bytes.length d
    unfold shelfHits
    rw [List.flatMap_append, List.flatMap_singleton, List.mem_append, hadded]
    refine (or_congr_left (hfinds keys hkeys d hd')).trans ?_
    show _ ↔ ∃ p ∈ log.published ++ log.added, p.1 = d ∧ ∀ k ∈ keys, k ∈ p.2
    rw [WriterLog.mem_wanted]
    constructor
    · rintro (⟨p, hp, hall⟩ | ⟨l, p, hp, hall, hid⟩)
      · exact ⟨p, List.mem_append_left _ hp, hall⟩
      · exact ⟨p, List.mem_append_right _ (List.mem_of_getElem? hp), hid, hall⟩
    · rintro ⟨p, hp, hid, hall⟩
      rcases List.mem_append.mp hp with hp | hp
      · exact Or.inl ⟨p, hp, hid, hall⟩
      · obtain ⟨l, hl⟩ := List.mem_iff_getElem?.mp hp
        exact Or.inr ⟨l, p, hl, hall, hid⟩
  | compacted inputs merged dead bytes hgather hfile hfiles hwriter =>
    obtain ⟨name, rfl⟩ := hput.mpr (by rw [hfiles]; exact List.cons_ne_self _ _)
    intro keys hkeys d hd
    have hlive : ¬ Masked σ.writer.specs d := fun hm => hd ((h.logged.masked d).mp hm)
    rw [h.housed.mem_hits_merged horderly hgather bytes.length hkeys hlive]
    exact hfinds keys hkeys d hd

/-- A run keeps a session in its shelves, and the shelves in step with the log. -/
theorem Session.Kept.finds_run {σ₀ : Session} {tr : List (WriterCall × WriterOutcome)} (h₀ : σ₀.Kept t n base [] .start)
    (hn : Covers base n) (hrun : Run SearchedStep σ₀ tr σ) :
    ∃ deltas, σ.Kept t n base deltas (.ofTrace tr) ∧ Finds deltas (.ofTrace tr) := by
  refine hrun.invariant (I := fun tr (σ : Session) => ∃ deltas, σ.Kept t n base deltas (.ofTrace tr) ∧
    Finds deltas (.ofTrace tr)) ⟨[], h₀, fun keys _ d _ => ?_⟩ ?_
  · refine iff_of_false List.not_mem_nil ?_
    rintro ⟨p, hp, -⟩
    exact absurd hp List.not_mem_nil
  · rintro tr σ l σ' ⟨deltas, h, hfinds⟩ ⟨hs, horderly | ⟨inputs, e, rfl, rfl⟩, hgrams⟩
    · obtain ⟨deltas', hre, h'⟩ := h.step hn hs horderly hgrams
      rw [WriterLog.ofTrace_snoc]
      exact ⟨deltas', h', h.finds_step hfinds hs horderly hre⟩
    · rw [WriterLog.ofTrace_snoc]
      exact ⟨deltas, h, hfinds⟩

/-- The live hits of the shelves are the answer by the log. -/
theorem Session.Kept.liveHits_eq {docs : List BuildDoc} (h : σ.Kept t docs.length base deltas log)
    (hb : BuildShelves base docs) (hfinds : Finds deltas log) {dead : Bitmap} (hdead : ∀ d, d ∈ dead ↔ d ∈ log.tombstoned)
    (policy : Policy) (ranking : Option ((Nat → Option Int) × Bool)) (keys : List Key) :
    liveHits policy ranking base deltas dead keys = answer policy ranking docs log keys := by
  have hkept : ∀ d, (!log.tombstoned.contains d) = decide (d ∉ dead) := by
    intro d
    rw [Bool.eq_iff_iff, decide_eq_true_eq, Bool.not_eq_true', Bool.eq_false_iff, Ne, List.contains_iff_mem, hdead]
  unfold liveHits answer
  rw [hb.hits]
  simp only [hkept]
  refine congrArg (_ ++ ·) (sortByKey_eq_of_mem ?_ ((List.nodup_dedup _).filter _) fun d => ?_)
  · have hnodup := h.nodup_shelfHits keys
    unfold shelfHits at hnodup ⊢
    rw [List.flatMap_append, List.nodup_append] at hnodup
    exact hnodup.2.1.filter _
  · rw [List.mem_filter, List.mem_filter, List.mem_dedup]
    refine and_congr_left fun hd => ?_
    have hd' : d ∉ log.tombstoned := fun hin => of_decide_eq_true hd ((hdead d).mpr hin)
    by_cases hkeys : keys = []
    · subst hkeys
      rw [shelfHits_nil]
      refine iff_of_false List.not_mem_nil fun hin => ?_
      obtain ⟨p, hp, -⟩ := List.mem_map.mp hin
      exact (BuildDoc.hasKeys_iff.mp (List.mem_filter.mp hp).2).1 rfl
    · rw [hfinds keys hkeys d hd', List.mem_map]
      constructor
      · rintro ⟨p, hp, rfl, hall⟩
        exact ⟨p, List.mem_filter.mpr ⟨hp, BuildDoc.hasKeys_iff.mpr ⟨hkeys, hall⟩⟩, rfl⟩
      · rintro ⟨p, hp, rfl⟩
        obtain ⟨hmem, hhas⟩ := List.mem_filter.mp hp
        exact ⟨p, hmem, rfl, (BuildDoc.hasKeys_iff.mp hhas).2⟩

end

/-! ## Sessions over a build -/

section

variable [Roaring] [Unicode]

/-- A writer resumed over a build of the documents, with the grams of the build, and the build's files in its client's
store. -/
inductive Session.OverBuild : List BuildDoc → Session → Prop
  | resumed {config : SplitBuildConfig} {top : Nat} {v2 : Bool} {calls : List BuildCall} {r : BuildRun}
      {built : BuiltSplitSet} {prev : SplitSet} {args : ResumeArgs} {files : NamedFiles}
      (hcalls : BuildRun.calls ⟨SplitSetBuilder.start config top v2, [], []⟩ calls = ([], r))
      (hfin : r.builder.finish = .ok built)
      (hn : (BuildCall.documents (SplitSetBuilder.start config top v2) calls).length ≤ 2 ^ 32)
      (hne : (BuildCall.documents (SplitSetBuilder.start config top v2) calls).length = 2 ^ 32 →
        r.files ++ built.splits ≠ [])
      (hkeys : (distinctKeys (BuildCall.documents (SplitSetBuilder.start config top v2) calls)).length < 2 ^ 32)
      (hlen : built.manifest.length < 2 ^ 64) (hprev : SplitSet.fromBytes built.manifest = .ok prev)
      (hgrams : args.gramSize = prev.gramSize)
      (hfiles : ∀ f ∈ r.files ++ built.splits, fileOf files f.1 = some f.2) :
      OverBuild (BuildCall.documents (SplitSetBuilder.start config top v2) calls)
        ⟨.resume prev args.gramSize args.stride args.namePrefix args.bloomBitsPerKey, some built.manifest, files⟩

/-- Its shelves are those of the build. -/
theorem Session.OverBuild.kept {docs : List BuildDoc} {σ : Session} (h : σ.OverBuild docs) :
    ∃ t base, BuildShelves base docs ∧ σ.Kept t docs.length base [] .start := by
  cases h with
  | resumed hcalls hfin hn hne hkeys hlen hprev hgrams hfiles =>
    obtain ⟨cut, st, -, -, hinto⟩ := exists_cutInto hcalls hfin
    exact ⟨_, _, hinto.kept hn hne (hinto.distinctKeys_lt hkeys) hlen hprev hgrams hfiles⟩

end

section

variable [Roaring] [Unicode] [TokenFilters] [Fst]

omit [Unicode] [TokenFilters] [Fst] in
/-- A flush puts its shelf behind the others. -/
theorem Session.Kept.flushed {σ σ' : Session} {t : SearchTerms} {n : Nat} {base deltas : List Shelf} {log : WriterLog}
    (h : σ.Kept t n base deltas log) (hn : Covers base n) {name : String}
    (hs : σ.Step (.flush, .emitted name) σ') (horderly : σ.Orderly .flush) :
    ∃ byteSize, σ'.Kept t n base (deltas ++ [σ.writer.deltaShelf byteSize]) (log.note (.flush, .emitted name)) := by
  obtain ⟨deltas', hre, h'⟩ := h.step hn hs horderly trivial
  cases hre with
  | same c hfiles hspecs =>
    -- an emitted split is one more
    exfalso
    cases call_effect hs.1 with
    | flushed bytes manifest hsome hfile hemit =>
      have hlen := congrArg List.length hspecs
      simp only [Session.put, SplitSetWriter.flushed, List.length_append, List.length_singleton] at hlen
      omega
  | flushed bytes hfile hfiles hwriter => exact ⟨bytes.length, h'⟩

omit [Unicode] [TokenFilters] [Fst] in
/-- Delta splits that are given as they are in the store are gathered. -/
theorem Session.Housed.exists_gather {σ : Session} {base deltas : List Shelf} (h : σ.Housed base deltas)
    {inputs : List (String × Bytes)} (hcase : σ.writer.caseNormalization = true)
    (hfiles : ∀ i ∈ inputs, fileOf σ.files i.1 = some i.2) (hnames : ∀ i ∈ inputs, ∃ s ∈ deltas, s.spec.dataFile = i.1) :
    ∃ r, σ.writer.gather inputs = .ok r := by
  have hfiled : ∀ s ∈ deltas, s.Filed σ.files true := by
    rw [← hcase]
    exact h.filed
  have hone : ∀ i ∈ inputs, ∀ st, ∃ st', σ.writer.gatherInput st i = .ok st' := by
    intro i hi st
    obtain ⟨s, hs, hname⟩ := hnames i hi
    obtain ⟨j, hj⟩ := List.mem_iff_getElem?.mp hs
    have hspec : σ.writer.specs[base.length + j]? = some s.spec := by
      rw [h.shelved.specs, List.getElem?_map, List.getElem?_append_right (by omega), Nat.add_sub_cancel_left, hj]
      rfl
    have hlt : base.length + j < σ.writer.specs.length := (List.getElem?_eq_some_iff.mp hspec).1
    have hidx : σ.writer.specs.findIdx? (fun t => t.dataFile = i.1) = some (base.length + j) := by
      rw [← hname]
      exact findIdx?_of_nodup h.shelved.names hspec
    obtain ⟨tombstone, htomb⟩ := h.shelved.tombstones s.spec (List.mem_of_getElem? hspec)
    obtain ⟨entries, hentries, -⟩ := (hfiled s hs).readBack (hname ▸ hfiles i hi)
    have hbase : ¬ base.length + j < σ.writer.baseCount := by
      rw [h.shelved.baseCount]
      omega
    unfold SplitSetWriter.gatherInput
    simp only [hidx, if_neg hbase, hspec, htomb, hentries, bind, Except.bind]
    exact ⟨_, rfl⟩
  have hall : ∀ (is : List (String × Bytes)), (∀ i ∈ is, i ∈ inputs) → ∀ st, ∃ r, is.foldlM σ.writer.gatherInput st = .ok r := by
    intro is
    induction is with
    | nil => exact fun _ st => ⟨st, rfl⟩
    | cons i is ih =>
      intro hsub st
      obtain ⟨st', hst⟩ := hone i (hsub i List.mem_cons_self) st
      rw [List.foldlM_cons, hst]
      exact ih (fun i hi => hsub i (List.mem_cons_of_mem _ hi)) st'
  exact hall inputs (fun i hi => hi) _

end

/-! ## Sessions over a build of one document -/

section

attribute [local instance] PortableCodec.roaring asciiUnicode asciiFilters FlatRouter.fst

theorem SplitFetcher.servesSplits_ofFiles (set : SplitSet) (files : NamedFiles) :
    (SplitFetcher.ofFiles files).ServesSplits set files := by
  refine ⟨fun split _ file hfile => ?_, fun split _ boot hb => by cases hb⟩
  obtain ⟨f, hf, rfl⟩ := Option.map_eq_some_iff.mp hfile
  show ((files.find? fun f => f.1 = split.dataFile).map fun f => MemoryFetch.new f.2).getD .absent = _
  rw [hf]
  rfl

open Session

theorem oneDoc_calls : BuildRun.calls ⟨tieredTight, [], []⟩ [.addKeys [abcKey]] = ([], oneDocRun) :=
  Prod.ext (by decide +kernel) rfl

theorem oneDoc_documents : BuildCall.documents (SplitSetBuilder.start (tieredConfig 100 tight_fits) 0 false)
    [.addKeys [abcKey]] = [⟨[abcKey], []⟩] := rfl

theorem oneDoc_keys : distinctKeys [⟨[abcKey], []⟩] = [abcKey] := by
  decide +kernel

/-- Over a build of one document, another one is added, the first is deleted, and both are flushed; a third is added and
flushed, and the two splits are given to a compaction. -/
theorem exists_mergedSession : ∃ (σ₀ σ₁ σ₂ σ₃ σ₄ : Session) (old new : SplitSet) (inputs : List (String × Bytes)),
    σ₀.OverBuild [⟨[abcKey], []⟩] ∧ Run SearchedStep σ₀ [(.addKeys [abcKey], .added 1), (.delete (wrapAdd 0 0), .nothing)] σ₁ ∧
    σ₁.SearchedStep (.flush, .emitted "p-d00000.rrs") σ₂ ∧
    Run SearchedStep σ₀ [(.addKeys [abcKey], .added 1), (.delete (wrapAdd 0 0), .nothing), (.flush, .emitted "p-d00000.rrs"),
      (.addKeys [abcKey], .added 2), (.flush, .emitted "p-d00001.rrs")] σ₃ ∧
    σ₁.manifest.map SplitSet.fromBytes = some (.ok old) ∧ σ₂.manifest.map SplitSet.fromBytes = some (.ok new) ∧
    old.policy = .tiered ∧ new.policy = .tiered ∧ new.gramSize = 3 ∧ new.caseFold = true ∧
    σ₃.Orderly (.compact inputs) ∧ inputs.length = 2 ∧
    (∀ i ∈ inputs, ∃ s ∈ σ₃.writer.specs.drop σ₃.writer.baseCount, s.dataFile = i.1) ∧
    σ₃.call (.compact inputs) = some (.emitted "p-c00000.rrs", σ₄) ∧ σ₄.InMemory := by
  have hcheck : (overOneDoc.bind fun base => (base.2.call (.addKeys [abcKey])).bind fun a =>
      (a.2.call (.delete (wrapAdd 0 0))).bind fun b => (b.2.call .flush).bind fun c =>
      (c.2.call (.addKeys [abcKey])).bind fun d => (d.2.call .flush).bind fun e =>
      (e.2.call (.compact (e.2.files.take 2))).bind fun f =>
      (b.2.manifest.bind fun m => (SplitSet.fromBytes m).toOption).bind fun old =>
      (c.2.manifest.bind fun m => (SplitSet.fromBytes m).toOption).map fun new => decide (
        (base.1.1.manifest.length < u64Bound ∧ base.1.2.gramSize = 3 ∧
          ∀ f ∈ oneDocRun.files ++ base.1.1.splits, fileOf (oneDocRun.files ++ base.1.1.splits) f.1 = some f.2) ∧
        (a.2.InMemory ∧ b.2.InMemory ∧ c.2.InMemory ∧ d.2.InMemory ∧ e.2.InMemory ∧ f.2.InMemory) ∧
        (a.1 = .added 1 ∧ b.1 = .nothing ∧ c.1 = .emitted "p-d00000.rrs" ∧ d.1 = .added 2 ∧
          e.1 = .emitted "p-d00001.rrs" ∧ f.1 = .emitted "p-c00000.rrs") ∧
        (base.2.writer.nextGlobalId.val + 1 < u32Bound ∧ c.2.writer.nextGlobalId.val + 1 < u32Bound) ∧
        (b.2.writer.flushSeq.val + 1 < u32Bound ∧ d.2.writer.flushSeq.val + 1 < u32Bound ∧
          e.2.writer.compactSeq.val + 1 < u32Bound) ∧
        (b.2.writer.memtable.len < 2 ^ 32 ∧ d.2.writer.memtable.len < 2 ^ 32) ∧
        (e.2.writer.caseNormalization = true ∧ (∀ i ∈ e.2.files.take 2, fileOf e.2.files i.1 = some i.2) ∧
          (∀ i ∈ e.2.files.take 2, (readRrsEntries i.2).toOption.map List.length = some 1) ∧
          (e.2.files.take 2).length = 2 ∧
          ∀ i ∈ e.2.files.take 2, ∃ s ∈ e.2.writer.specs.drop e.2.writer.baseCount, s.dataFile = i.1) ∧
        (old.policy = .tiered ∧ new.policy = .tiered ∧ new.gramSize = 3 ∧ new.caseFold = true))) = some true := by
    decide +kernel
  obtain ⟨⟨⟨built, prev⟩, σ₀⟩, hbase, hcheck⟩ := Option.bind_eq_some_iff.mp hcheck
  obtain ⟨⟨o₁, σ₁⟩, h₁, hcheck⟩ := Option.bind_eq_some_iff.mp hcheck
  obtain ⟨⟨o₂, σ₂⟩, h₂, hcheck⟩ := Option.bind_eq_some_iff.mp hcheck
  obtain ⟨⟨o₃, σ₃⟩, h₃, hcheck⟩ := Option.bind_eq_some_iff.mp hcheck
  obtain ⟨⟨o₄, σ₄⟩, h₄, hcheck⟩ := Option.bind_eq_some_iff.mp hcheck
  obtain ⟨⟨o₅, σ₅⟩, h₅, hcheck⟩ := Option.bind_eq_some_iff.mp hcheck
  obtain ⟨⟨o₆, σ₆⟩, h₆, hcheck⟩ := Option.bind_eq_some_iff.mp hcheck
  obtain ⟨old, hold, hcheck⟩ := Option.bind_eq_some_iff.mp hcheck
  obtain ⟨new, hnew, hcheck⟩ := Option.map_eq_some_iff.mp hcheck
  obtain ⟨⟨hlen, hgrams, hfiles⟩, ⟨hm₁, hm₂, hm₃, hm₄, hm₅, hm₆⟩, ⟨ho₁, ho₂, ho₃, ho₄, ho₅, ho₆⟩, ⟨hroom, hroom'⟩,
    ⟨hseq, hseq', hseq''⟩, ⟨hfew, hfew'⟩, ⟨hcase, hinputs, hentries, htwo, hnames⟩, hterms⟩ := of_decide_eq_true hcheck
  simp only at ho₁ ho₂ ho₃ ho₄ ho₅ ho₆
  subst ho₁ ho₂ ho₃ ho₄ ho₅ ho₆
  obtain ⟨hbuilt, hprev, rfl⟩ := overOneDoc_some hbase
  have hover : Session.OverBuild [⟨[abcKey], []⟩] ⟨.resume prev 3 0 "p" 0, some built.manifest, oneDocRun.files ++ built.splits⟩ := by
    have hresumed := @OverBuild.resumed _ _ (tieredConfig 100 tight_fits) 0 false _ oneDocRun built prev resumeArgs _ oneDoc_calls
      hbuilt (by rw [oneDoc_documents]; decide) (fun heq => absurd (oneDoc_documents ▸ heq) (by decide))
      (by rw [oneDoc_documents, oneDoc_keys]; decide) hlen hprev hgrams.symm hfiles
    rwa [oneDoc_documents] at hresumed
  have s₃ : σ₂.Step (.flush, .emitted "p-d00000.rrs") σ₃ := ⟨h₃, hm₃⟩
  have s₅ : σ₄.Step (.flush, .emitted "p-d00001.rrs") σ₅ := ⟨h₅, hm₅⟩
  have s₆ : σ₅.Step (.compact (σ₅.files.take 2), .emitted "p-c00000.rrs") σ₆ := ⟨h₆, hm₆⟩
  have r₁ : Session.SearchedStep _ (.addKeys [abcKey], .added 1) σ₁ := ⟨⟨h₁, hm₁⟩, Or.inl hroom, trivial⟩
  have r₂ : σ₁.SearchedStep (.delete (wrapAdd 0 0), .nothing) σ₂ := ⟨⟨h₂, hm₂⟩, Or.inl trivial, trivial⟩
  have r₃ : σ₂.SearchedStep (.flush, .emitted "p-d00000.rrs") σ₃ :=
    ⟨s₃, Or.inl ⟨flushFits_of_emitted s₃, hseq, hfew⟩, trivial⟩
  have r₄ : σ₃.SearchedStep (.addKeys [abcKey], .added 2) σ₄ := ⟨⟨h₄, hm₄⟩, Or.inl hroom', trivial⟩
  have r₅ : σ₄.SearchedStep (.flush, .emitted "p-d00001.rrs") σ₅ :=
    ⟨s₅, Or.inl ⟨flushFits_of_emitted s₅, hseq', hfew'⟩, trivial⟩
  have hcompact : σ₅.Compactable (σ₅.files.take 2) := by
    refine ⟨compactFits_of_emitted s₆, hseq'', ?_, hinputs, hcase⟩
    refine @SplitSetWriter.fewKeys_of_length _ _ _ 1 (fun i hi es hes => ?_) ?_
    · have hone := hentries i hi
      rw [hes] at hone
      exact Nat.le_of_eq (Option.some.inj hone)
    · have := List.length_take_le 2 σ₅.files
      omega
  obtain ⟨before, hbefore, hold⟩ := Option.bind_eq_some_iff.mp hold
  obtain ⟨after, hafter, hnew⟩ := Option.bind_eq_some_iff.mp hnew
  exact ⟨_, σ₂, σ₃, σ₅, σ₆, old, new, _, hover, (Run.single r₁).step r₂, r₃, ((((Run.single r₁).step r₂).step r₃).step r₄).step r₅,
    by rw [hbefore, Option.map_some, eq_ok_of_toOption hold], by rw [hafter, Option.map_some, eq_ok_of_toOption hnew],
    hterms.1, hterms.2.1, hterms.2.2.1, hterms.2.2.2, hcompact, htwo, hnames, h₆, hm₆⟩

/-- The files of a session answer for a tiered set. -/
theorem SplitFetcher.servesSet_ofFiles {set : SplitSet} (hpolicy : set.policy = .tiered) (files : NamedFiles)
    (docs : List BuildDoc) : (SplitFetcher.ofFiles files).ServesSet set files docs none := by
  refine ⟨SplitFetcher.servesSplits_ofFiles set files, fun heq => ?_, fun name heq => by cases heq⟩
  rw [hpolicy] at heq
  cases heq

end

/-! ## What is found -/

section

variable [Roaring] [Unicode] [TokenFilters] [Fst]

/-- **What a set finds is what was put in and not deleted**: in every session over a build, by the documents of the build
and the log of the calls alone, whatever was flushed, merged or resumed on the way. -/
theorem session_search {docs : List BuildDoc} {σ₀ σ : Session} {tr : List (WriterCall × WriterOutcome)}
    (h₀ : σ₀.OverBuild docs) (hrun : Run Session.SearchedStep σ₀ tr σ) :
    ∃ bytes set, σ.manifest = some bytes ∧ SplitSet.fromBytes bytes = .ok set ∧
      ∀ (resolver : SplitFetcher) (ranking : Option ((Nat → Option Int) × Bool)),
        resolver.ServesSet set σ.files docs ranking → ∀ query limit, Settles (set.search resolver query limit)
          (.ok ((answer set.policy ranking docs (.ofTrace tr) (ngramKeysWith query set.gramSize set.caseFold)).take limit)) := by
  obtain ⟨t, base, hb, hstart⟩ := h₀.kept
  obtain ⟨deltas, h, hfinds⟩ := hstart.finds_run hb.covers hrun
  obtain ⟨bytes, set, hm, hset, -⟩ := h.housed.current
  obtain ⟨dead, hdead, hsearch⟩ := h.settles_search hb hm hset
  obtain ⟨hterms, -⟩ := h.terms.manifest bytes set hm hset
  refine ⟨bytes, set, hm, hset, fun resolver ranking hserves query limit => ?_⟩
  have hhits := hsearch resolver ranking hserves query limit
  rw [h.liveHits_eq hb hfinds hdead, ← hterms] at hhits
  exact hhits

end

section

attribute [local instance] PortableCodec.roaring asciiUnicode asciiFilters FlatRouter.fst

open Session

theorem session_search_deleted : ∃ (σ₀ σ : Session) (tr : List (WriterCall × WriterOutcome)) (bytes : Bytes)
    (set : SplitSet), σ₀.OverBuild [⟨[abcKey], []⟩] ∧ Run SearchedStep σ₀ tr σ ∧ tr.length = 3 ∧
    σ.manifest = some bytes ∧ SplitSet.fromBytes bytes = .ok set ∧
    Settles (set.search (.ofFiles σ.files) "abc" 10) (.ok [1]) := by
  obtain ⟨σ₀, σ₁, σ₂, -, -, -, new, -, h₀, hrun, hflush, -, -, hnew, -, hpolicy, hgrams, hfold, -⟩ := exists_mergedSession
  obtain ⟨bytes, set, hm, hset, hsearch⟩ := session_search h₀ (hrun.step hflush)
  rw [hm, Option.map_some, hset] at hnew
  obtain rfl : set = new := Except.ok.inj (Option.some.inj hnew)
  have hhits := hsearch (.ofFiles σ₂.files) none (SplitFetcher.servesSet_ofFiles hpolicy σ₂.files _) "abc" 10
  rw [hpolicy, hgrams, hfold] at hhits
  exact ⟨σ₀, σ₂, _, bytes, set, h₀, hrun.step hflush, rfl, hm, hset, hhits⟩

end

section

variable [Roaring] [Unicode] [TokenFilters] [Fst]

/-- **A flush adds its documents and takes away what was deleted**: the base's hits come first, in the order of the
policy, the others after them by id, each once, and a page is the first of them. -/
theorem flush_search {docs : List BuildDoc} {σ₀ σ σ' : Session} {tr : List (WriterCall × WriterOutcome)} {name : String}
    (h₀ : σ₀.OverBuild docs) (hrun : Run Session.SearchedStep σ₀ tr σ)
    (hflush : σ.SearchedStep (.flush, .emitted name) σ') :
    let log := WriterLog.ofTrace tr
    ∃ before after old new, σ.manifest = some before ∧ SplitSet.fromBytes before = .ok old ∧
      σ'.manifest = some after ∧ SplitSet.fromBytes after = .ok new ∧
      ∀ (resolver resolver' : SplitFetcher) (ranking : Option ((Nat → Option Int) × Bool)),
        resolver.ServesSet old σ.files docs ranking → resolver'.ServesSet new σ'.files docs ranking → ∀ query,
        let keys := ngramKeysWith query new.gramSize new.caseFold
        (keys = [] → ∀ limit, Settles (new.search resolver' query limit) (.ok [])) ∧
        (keys ≠ [] → ∃ found, Settles (old.search resolver query usizeMax) (.ok found) ∧
          let hits := flushedHits new.policy ranking docs.length found (log.wanted keys) (log.tombstoned ++ log.deletes)
          hits.Nodup ∧ ∀ limit, Settles (new.search resolver' query limit) (.ok (hits.take limit))) := by
  intro log
  obtain ⟨t, base, hb, hstart⟩ := h₀.kept
  obtain ⟨deltas, h⟩ := hstart.run hb.covers hrun
  obtain ⟨hs, horderly | ⟨inputs, e, heq, -⟩, -⟩ := hflush
  swap
  · cases heq
  obtain ⟨byteSize, h'⟩ := h.flushed hb.covers hs horderly
  obtain ⟨before, old, hm, hold, -⟩ := h.housed.current
  obtain ⟨after, new, hm', hnew, -⟩ := h'.housed.current
  refine ⟨before, after, old, new, hm, hold, hm', hnew, fun resolver resolver' ranking hserves hserves' query => ?_⟩
  obtain ⟨dead, hdead, hsearch⟩ := h.settles_search hb hm hold
  obtain ⟨dead', hdead', hsearch'⟩ := h'.settles_search hb hm' hnew
  obtain ⟨hterms, -⟩ := h'.terms.manifest after new hm' hnew
  have hold' := hsearch resolver ranking hserves query usizeMax
  have hnew' := hsearch' resolver' ranking hserves' query
  rw [show t.policy = new.policy from congrArg SearchTerms.policy hterms.symm,
    show t.gramSize = new.gramSize from congrArg SearchTerms.gramSize hterms.symm,
    show t.caseFold = new.caseFold from congrArg SearchTerms.caseFold hterms.symm] at hold' hnew'
  intro keys
  refine ⟨fun hnil limit => h'.settles_keyless hb hm' hnew hserves' hnil limit, fun hsome => ?_⟩
  · have hnodup := h'.nodup_shelfHits keys
    have hadded := h.logged.mem_hits h.housed.filling hsome byteSize
    have hdistinct := h.logged.nodup_wanted keys
    have hlt : ∀ d ∈ shelfHits base keys, d < docs.length := by
      rw [hb.hits]
      intro d hd
      have := List.lt_add_of_mem_findIdxs d hd
      omega
    have hge : ∀ d ∈ shelfHits (deltas ++ [σ.writer.deltaShelf byteSize]) keys, docs.length ≤ d := by
      intro d hd
      obtain ⟨s, hmem, hhit⟩ := mem_shelfHits.mp hd
      exact h'.above s hmem d ((h'.housed.shelved.placed s (List.mem_append_right _ hmem)).holds_hit hhit)
    have hgone : ∀ d, d ∈ dead' ↔ d ∈ log.tombstoned ++ log.deletes := hdead'
    have hmore : ∀ d ∈ dead, d ∈ dead' := fun d hd => (hgone d).mpr (List.mem_append_left _ ((hdead d).mp hd))
    have hasc : (shelfHits base keys).Pairwise (· < ·) := by
      rw [hb.hits]
      exact List.pairwise_findIdxs
    have hhits := @liveHits_snoc new.policy ranking base deltas keys _ dead dead' docs.length _ _ hnodup hasc
      hlt hge hadded hdistinct hgone hmore
    have hfound : (shelfHits (base ++ deltas) keys).Nodup := h.nodup_shelfHits keys
    rw [take_usizeMax (nodup_liveHits hfound) liveHits_lt] at hold'
    refine ⟨_, hold', ?_, fun limit => ?_⟩
    · exact hhits ▸ nodup_liveHits hnodup
    · exact hhits ▸ hnew' limit

end

section

attribute [local instance] PortableCodec.roaring asciiUnicode asciiFilters FlatRouter.fst

open Session

theorem flush_search_deleted : ∃ (σ₁ σ₂ : Session) (old new : SplitSet), σ₁.manifest.map SplitSet.fromBytes = some (.ok old) ∧
    σ₂.manifest.map SplitSet.fromBytes = some (.ok new) ∧ ∃ found,
      Settles (old.search (.ofFiles σ₁.files) "abc" usizeMax) (.ok found) ∧
      Settles (new.search (.ofFiles σ₂.files) "abc" 10) (.ok ((flushedHits .tiered none 1 found [1] [0]).take 10)) := by
  obtain ⟨σ₀, σ₁, σ₂, -, -, old, new, -, h₀, hrun, hflush, -, hold, hnew, hpolicy, hpolicy', hgrams, hfold, -⟩ :=
    exists_mergedSession
  obtain ⟨before, after, old', new', hm, hset, hm', hset', hsearch⟩ := flush_search h₀ hrun hflush
  rw [hm, Option.map_some, hset] at hold
  obtain rfl : old' = old := Except.ok.inj (Option.some.inj hold)
  rw [hm', Option.map_some, hset'] at hnew
  obtain rfl : new' = new := Except.ok.inj (Option.some.inj hnew)
  obtain ⟨-, hhits⟩ := hsearch (.ofFiles σ₁.files) (.ofFiles σ₂.files) none
    (SplitFetcher.servesSet_ofFiles hpolicy σ₁.files _) (SplitFetcher.servesSet_ofFiles hpolicy' σ₂.files _) "abc"
  rw [hpolicy', hgrams, hfold] at hhits
  obtain ⟨found, hfound, -, hpage⟩ := hhits (by decide +kernel)
  refine ⟨σ₁, σ₂, old', new', by rw [hm, Option.map_some, hset], by rw [hm', Option.map_some, hset'], found, hfound, ?_⟩
  exact hpage 10

end

section

variable [Roaring] [Unicode] [TokenFilters] [Fst]

/-- **A compaction changes no answer**: any delta splits, given as they are in the store, are merged, and every page of
every query stays as it was. -/
theorem compact_search {docs : List BuildDoc} {σ₀ σ : Session} {tr : List (WriterCall × WriterOutcome)}
    (h₀ : σ₀.OverBuild docs) (hrun : Run Session.SearchedStep σ₀ tr σ) {inputs : List (String × Bytes)}
    (horderly : σ.Orderly (.compact inputs))
    (hnames : ∀ i ∈ inputs, ∃ s ∈ σ.writer.specs.drop σ.writer.baseCount, s.dataFile = i.1) :
    ∃ name σ', σ.call (.compact inputs) = some (.emitted name, σ') ∧ (σ'.InMemory →
      ∃ before after old new, σ.manifest = some before ∧ SplitSet.fromBytes before = .ok old ∧
        σ'.manifest = some after ∧ SplitSet.fromBytes after = .ok new ∧
        ∀ (resolver resolver' : SplitFetcher) (ranking : Option ((Nat → Option Int) × Bool)),
          resolver.ServesSet old σ.files docs ranking → resolver'.ServesSet new σ'.files docs ranking →
          ∀ query limit, ∃ hits, Settles (old.search resolver query limit) (.ok hits) ∧
            Settles (new.search resolver' query limit) (.ok hits)) := by
  obtain ⟨t, base, hb, hstart⟩ := h₀.kept
  obtain ⟨deltas, h, hfinds⟩ := hstart.finds_run hb.covers hrun
  have hdrop : σ.writer.specs.drop σ.writer.baseCount = deltas.map Shelf.spec := by
    rw [h.housed.shelved.specs, h.housed.shelved.baseCount, List.map_append]
    exact List.drop_left' (List.length_map _)
  obtain ⟨⟨merged, dead⟩, hgather⟩ := h.housed.exists_gather horderly.caseFold horderly.files fun i hi => by
    obtain ⟨s, hs, hname⟩ := hnames i hi
    rw [hdrop] at hs
    obtain ⟨shelf, hshelf, rfl⟩ := List.mem_map.mp hs
    exact ⟨shelf, hshelf, hname⟩
  obtain ⟨bytes, hbytes, hcompact⟩ := SplitSetWriter.compact_eq hgather
  cases hemit : (σ.writer.compacted inputs (SplitSetWriter.surviving merged dead) dead bytes.length).emitManifest with
  | error e => exact absurd hemit (horderly.emit_ne hgather _ e)
  | ok manifest =>
    rw [hemit] at hcompact
    have hcall : σ.call (.compact inputs) = some (.emitted (seqName σ.writer.namePrefix "-c" σ.writer.compactSeq.val),
        σ.put (σ.writer.compacted inputs (SplitSetWriter.surviving merged dead) dead bytes.length)
          (seqName σ.writer.namePrefix "-c" σ.writer.compactSeq.val) bytes manifest) := by
      simp only [Session.call, hcompact]
      rfl
    refine ⟨_, _, hcall, fun hmem => ?_⟩
    have hstep : σ.Step (.compact inputs, .emitted _) _ := ⟨hcall, hmem⟩
    obtain ⟨deltas', hre, h'⟩ := h.step hb.covers hstep horderly trivial
    have hfinds' := h.finds_step hfinds hstep horderly hre
    obtain ⟨before, old, hm, hold, -⟩ := h.housed.current
    obtain ⟨after, new, hm', hnew, -⟩ := h'.housed.current
    obtain ⟨gone, hgone, hsearch⟩ := h.settles_search hb hm hold
    obtain ⟨gone', hgone', hsearch'⟩ := h'.settles_search hb hm' hnew
    refine ⟨before, after, old, new, hm, hold, hm', hnew, fun resolver resolver' ranking hserves hserves' query limit => ?_⟩
    have hbefore := hsearch resolver ranking hserves query limit
    have hafter := hsearch' resolver' ranking hserves' query limit
    rw [h.liveHits_eq hb hfinds hgone] at hbefore
    rw [h'.liveHits_eq hb hfinds' hgone'] at hafter
    exact ⟨_, hbefore, hafter⟩

end

section

attribute [local instance] PortableCodec.roaring asciiUnicode asciiFilters FlatRouter.fst

open Session

theorem compact_search_deleted : ∃ (σ₃ σ₄ : Session) (before after : Bytes) (old new : SplitSet)
    (inputs : List (String × Bytes)), inputs.length = 2 ∧
    σ₃.call (.compact inputs) = some (.emitted "p-c00000.rrs", σ₄) ∧ σ₃.manifest = some before ∧
    SplitSet.fromBytes before = .ok old ∧ σ₄.manifest = some after ∧ SplitSet.fromBytes after = .ok new ∧
    ∀ query limit, old.policy = .tiered → new.policy = .tiered → ∃ hits,
      Settles (old.search (.ofFiles σ₃.files) query limit) (.ok hits) ∧
      Settles (new.search (.ofFiles σ₄.files) query limit) (.ok hits) := by
  obtain ⟨σ₀, -, -, σ₃, σ₄, -, -, inputs, h₀, -, -, hrun, -, -, -, -, -, -, horderly, htwo, hnames, hcall, hmem⟩ :=
    exists_mergedSession
  obtain ⟨name, σ', hcall', hsearch⟩ := compact_search h₀ hrun horderly hnames
  obtain ⟨ho, rfl⟩ := Prod.mk.inj (Option.some.inj (hcall'.symm.trans hcall))
  obtain ⟨before, after, old, new, hm, hold, hm', hnew, hsame⟩ := hsearch hmem
  exact ⟨σ₃, σ', before, after, old, new, inputs, htwo, hcall, hm, hold, hm', hnew, fun query limit hpolicy hpolicy' =>
    hsame (.ofFiles σ₃.files) (.ofFiles σ'.files) none (SplitFetcher.servesSet_ofFiles hpolicy σ₃.files _)
      (SplitFetcher.servesSet_ofFiles hpolicy' σ'.files _) query limit⟩

end

end RoaringRange
