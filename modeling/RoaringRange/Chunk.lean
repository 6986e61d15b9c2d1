import RoaringRange.IndexLookup
import RoaringRange.Lib.Merge
import Mathlib.Data.Finset.Card

/-!
# Chunked builds (`build.rs`, `chunk`)

A build too large for memory writes one partial per chunk and merges the partials: a first pass counts the
keys, a second walks the partials side by side and writes the posting of every key, and the header and the
dictionary go in front at the end.

    merge_partials_to_rrs of the partials is write_index of their union                (mergePartials_eq)

The walk is a merge of ascending lists: a cursor holds what is left of its partial, and one turn of the loop
is one run of the merge (takeKey_eq).
-/

namespace RoaringRange

open ByteString Slices

namespace Chunk

/-! ## Partials -/

/-- The entries of a partial, one after the other. -/
def writeRows : List (Key × Bytes) → Except String Bytes
  | [] => .ok []
  | (k, b) :: entries => do
    let size ← u32Len b.length "RRS partial posting"
    let rows ← writeRows entries
    pure (le 8 k.val ++ (le 4 size ++ b) ++ rows)

/-- `chunk::write_partial`. -/
def writePartial (entries : List (Key × Bytes)) : Except String Bytes := do
  let entries := sortByKey Prod.fst entries
  let rows ← writeRows entries
  pure (le 4 (entries.length % 2 ^ 32) ++ rows)

/-- `Read::read_exact` of `n` bytes, and what is left to read. -/
def readExact (n : Nat) (r : Bytes) : Except String (Bytes × Bytes) :=
  if r.length < n then .error "failed to fill whole buffer" else .ok (r.take n, r.drop n)

/-- `u64::from_le_bytes`. -/
def keyOfLe (b : Bytes) : Key := ⟨ofLe b % 2 ^ 64, Nat.mod_lt _ (by decide)⟩

structure PartialCursor where
  r : Bytes
  remaining : Nat
  front : Option (Key × Bytes)

namespace PartialCursor

/-- `PartialCursor::advance`. -/
def advance (c : PartialCursor) : Except String PartialCursor :=
  if c.remaining = 0 then .ok { c with front := none }
  else do
    let (kb, r) ← readExact 8 c.r
    let (sb, r) ← readExact 4 r
    let (bytes, r) ← readExact (ofLe sb) r
    pure ⟨r, c.remaining - 1, some (keyOfLe kb, bytes)⟩

/-- `PartialCursor::open`. -/
def «open» (file : Bytes) : Except String PartialCursor := do
  let (c, r) ← readExact 4 file
  advance ⟨r, ofLe c, none⟩

/-- `PartialCursor::front_key`. -/
def frontKey (c : PartialCursor) : Option Key := c.front.map Prod.fst

end PartialCursor

/-- The loop of `chunk::scan_partial_keys`: a seek may go past the end. -/
def scanKeys : Nat → Bytes → Except String (List Key)
  | 0, _ => .ok []
  | n + 1, r => do
    let (kb, r) ← readExact 8 r
    let (sb, r) ← readExact 4 r
    let keys ← scanKeys n (r.drop (ofLe sb))
    pure (keyOfLe kb :: keys)

/-- `chunk::scan_partial_keys`. -/
def scanPartialKeys (file : Bytes) : Except String (List Key) := do
  let (c, r) ← readExact 4 file
  scanKeys (ofLe c) r

/-! ## Merging -/

/-- A write at a position: a gap before it is zeros, and bytes after it stay. -/
def writeAt (file : Bytes) (pos : Nat) (b : Bytes) : Bytes :=
  file.take pos ++ List.replicate (pos - file.length) 0 ++ (b ++ file.drop (pos + b.length))

/-- How many entries the cursors have left: each turn of the merge loop takes at least one. -/
def entriesLeft : List PartialCursor → Nat
  | [] => 0
  | c :: cursors => (if c.front.isSome then c.remaining + 1 else 0) + entriesLeft cursors

section

variable [Roaring]

/-- The inner loop of the merge: the fronts with the key are united, and their cursors advance. -/
def takeKey (key : Key) (merged : Bitmap) : List PartialCursor → Except String (Bitmap × List PartialCursor)
  | [] => .ok (merged, [])
  | c :: cursors =>
    match c.front.filter fun e => e.1 = key with
    | some e => do
      let bm ← Roaring.deserialize e.2
      let c ← c.advance
      let (merged, cursors) ← takeKey key (merged ∪ bm) cursors
      pure (merged, c :: cursors)
    | none => do
      let (merged, cursors) ← takeKey key merged cursors
      pure (merged, c :: cursors)

/-- The merge loop: the rows of the dictionary and the file with the postings from `off` on. -/
def mergeLoop : Nat → List PartialCursor → Nat → Bytes → Except String (List DictRec × Bytes)
  | fuel, cursors, off, out =>
    match (cursors.filterMap PartialCursor.frontKey).min?, fuel with
    | none, _ => .ok ([], out)
    | some _, 0 => .error "entries left"
    | some key, fuel + 1 => do
      let (merged, cursors) ← takeKey key ∅ cursors
      let posting := serializePosting merged
      let out := writeAt out off posting
      let size ← u32Len posting.length "RRS posting"
      let (dict, out) ← mergeLoop fuel cursors (off + posting.length) out
      pure (⟨key, off, size⟩ :: dict, out)

/-- `chunk::merge_partials_to_rrs`; a path is the bytes of its file. -/
def mergePartialsToRrs (paths : List Bytes) (gramSize stride : Nat) (out : Bytes) : Except String Bytes := do
  let stride := if stride = 0 then defaultStride else stride
  let keyset ← paths.mapM scanPartialKeys
  let n := keyset.flatten.toFinset.card
  let sparseCount := if n = 0 then 0 else (n + stride - 1) / stride
  let dictStart := headerSize + sparseCount * 8
  let postingsStart := dictStart + n * 20
  let cursors ← paths.mapM PartialCursor.open
  let (dict, out) ← mergeLoop (entriesLeft cursors) cursors postingsStart out
  pure (writeAt out 0 (rrsHeader gramSize (n % 2 ^ 32) stride true ++
    (writeSparseIndex (dict.map fun d => (d.key, [])) sparseCount stride ++ table dictRow dict)))

end

/-! ## What a cursor holds -/

theorem readExact_append {a b : Bytes} {n : Nat} (h : a.length = n) : readExact n (a ++ b) = .ok (a, b) := by
  subst h
  unfold readExact
  rw [if_neg (by simp), List.take_left, List.drop_left]

theorem keyOfLe_le (k : Key) : keyOfLe (le 8 k.val) = k := by
  unfold keyOfLe
  have hk : ofLe (le 8 k.val) = k.val := ofLe_le_of_lt k.isLt
  ext
  show ofLe (le 8 k.val) % 2 ^ 64 = k.val
  rw [hk, Nat.mod_eq_of_lt k.isLt]

/-- One entry of a partial. -/
def partialRow (e : Key × Bytes) : Bytes := le 8 e.1.val ++ (le 4 e.2.length ++ e.2)

theorem writeRows_ok {entries : List (Key × Bytes)} {rows : Bytes} (h : writeRows entries = .ok rows) :
    rows = entries.flatMap partialRow ∧ ∀ e ∈ entries, e.2.length < 2 ^ 32 := by
  induction entries generalizing rows with
  | nil => exact ⟨(Except.ok.inj h).symm, fun e he => absurd he List.not_mem_nil⟩
  | cons e entries ih =>
    obtain ⟨k, b⟩ := e
    unfold writeRows u32Len at h
    split at h
    · next hb =>
      cases hrest : writeRows entries with
      | error err => rw [hrest] at h; cases h
      | ok rest =>
        rw [hrest] at h
        obtain ⟨rfl, hall⟩ := ih hrest
        refine ⟨(Except.ok.inj h).symm.trans ?_, ?_⟩
        · rw [List.flatMap_cons]
          rfl
        · intro e he
          rcases List.mem_cons.mp he with rfl | he
          · exact hb
          · exact hall e he
    · cases h

/-- What a partial's file holds: the number of entries, as far as 32 bits go, and the entries in order. -/
theorem writePartial_ok {entries : List (Key × Bytes)} {file : Bytes} (h : writePartial entries = .ok file) :
    file = le 4 (entries.length % 2 ^ 32) ++ (sortByKey Prod.fst entries).flatMap partialRow ∧
      ∀ e ∈ sortByKey Prod.fst entries, e.2.length < 2 ^ 32 := by
  unfold writePartial at h
  cases hrows : writeRows (sortByKey Prod.fst entries) with
  | error err =>
    simp only [hrows, bind, Except.bind] at h
    cases h
  | ok rows =>
    simp only [hrows, bind, Except.bind, length_sortByKey] at h
    obtain ⟨rfl, hfits⟩ := writeRows_ok hrows
    exact ⟨(Except.ok.inj h).symm, hfits⟩

/-- The bytes of a posting, read as its docs. -/
def Posts [Roaring] (e : Key × Bytes) (p : Key × Bitmap) : Prop := e.1 = p.1 ∧ Roaring.deserialize e.2 = .ok p.2

/-- The file of a partial with the postings of a chunk. -/
def PartialFile [Roaring] (chunk : List (Key × Bitmap)) (file : Bytes) : Prop :=
  ∃ entries, List.Forall₂ Posts entries chunk ∧ writePartial entries = .ok file

/-- What is left of a partial: its entries in order, the first in front. -/
structure PartialCursor.Holds [Roaring] (c : PartialCursor) (es : List (Key × Bytes)) (xs : List (Key × Bitmap)) :
    Prop where
  posts : List.Forall₂ Posts es xs
  fits : ∀ e ∈ es, e.2.length < 2 ^ 32
  front : c.front = es.head?
  remaining : c.remaining = es.tail.length
  rest : c.r = es.tail.flatMap partialRow

theorem readRow {e : Key × Bytes} (he : e.2.length < 2 ^ 32) (rest : Bytes) :
    readExact 8 (partialRow e ++ rest) = .ok (le 8 e.1.val, le 4 e.2.length ++ (e.2 ++ rest)) ∧
      readExact 4 (le 4 e.2.length ++ (e.2 ++ rest)) = .ok (le 4 e.2.length, e.2 ++ rest) ∧
      ofLe (le 4 e.2.length) = e.2.length := by
  unfold partialRow
  rw [List.append_assoc, List.append_assoc]
  exact ⟨readExact_append (length_le 8 _), readExact_append (length_le 4 _), ofLe_le_of_lt he⟩

theorem scanKeys_eq {es : List (Key × Bytes)} (hfits : ∀ e ∈ es, e.2.length < 2 ^ 32) :
    scanKeys es.length (es.flatMap partialRow) = .ok (es.map Prod.fst) := by
  induction es with
  | nil => rfl
  | cons e es ih =>
    obtain ⟨h8, h4, hsize⟩ := readRow (hfits e List.mem_cons_self) (es.flatMap partialRow)
    rw [List.flatMap_cons, List.length_cons, scanKeys, h8]
    simp only [bind, Except.bind]
    rw [h4]
    simp only [hsize]
    rw [List.drop_left, ih fun e he => hfits e (List.mem_cons_of_mem _ he), keyOfLe_le]
    rfl

section

variable [Roaring]

/-- To advance is to drop the front. -/
theorem advance_eq {c : PartialCursor} {es : List (Key × Bytes)} {xs : List (Key × Bitmap)}
    (hposts : List.Forall₂ Posts es xs) (hfits : ∀ e ∈ es, e.2.length < 2 ^ 32) (hn : c.remaining = es.length)
    (hr : c.r = es.flatMap partialRow) : ∃ c', c.advance = .ok c' ∧ c'.Holds es xs := by
  cases es with
  | nil =>
    refine ⟨{ c with front := none }, ?_, ⟨hposts, hfits, rfl, hn, hr⟩⟩
    rw [PartialCursor.advance, if_pos (show c.remaining = 0 from hn)]
  | cons e es =>
    obtain ⟨h8, h4, hsize⟩ := readRow (hfits e List.mem_cons_self) (es.flatMap partialRow)
    rw [List.flatMap_cons] at hr
    refine ⟨⟨es.flatMap partialRow, c.remaining - 1, some e⟩, ?_, ⟨hposts, hfits, rfl, ?_, rfl⟩⟩
    · unfold PartialCursor.advance
      rw [if_neg (by rw [hn, List.length_cons]; omega), hr, h8]
      simp only [bind, Except.bind]
      rw [h4]
      simp only [hsize]
      rw [readExact_append rfl, keyOfLe_le]
      rfl
    · show c.remaining - 1 = es.length
      rw [hn, List.length_cons]
      omega

/-- A cursor with what is left of a chunk's postings. -/
def PartialCursor.Left (c : PartialCursor) (xs : List (Key × Bitmap)) : Prop := ∃ es, c.Holds es xs

theorem PartialCursor.Left.entriesLeft_eq {cursors : List PartialCursor} {xss : List (List (Key × Bitmap))}
    (h : List.Forall₂ PartialCursor.Left cursors xss) : entriesLeft cursors = Merge.size xss := by
  induction h with
  | nil => rfl
  | @cons c xs cursors xss hc _ ih =>
    obtain ⟨es, hes⟩ := hc
    have hlen := hes.posts.length_eq
    unfold entriesLeft Merge.size
    rw [ih, hes.front, hes.remaining, ← hlen]
    cases es with
    | nil => rfl
    | cons e es => rfl

theorem PartialCursor.Left.frontKey_eq {c : PartialCursor} {xs : List (Key × Bitmap)} (h : c.Left xs) :
    c.frontKey = xs.head?.map Prod.fst := by
  obtain ⟨es, hes⟩ := h
  unfold PartialCursor.frontKey
  rw [hes.front]
  cases hes.posts with
  | nil => rfl
  | cons hex _ => exact congrArg some hex.1

theorem least_eq {cursors : List PartialCursor} {xss : List (List (Key × Bitmap))}
    (h : List.Forall₂ PartialCursor.Left cursors xss) :
    (cursors.filterMap PartialCursor.frontKey).min? = Merge.leastKey Prod.fst xss := by
  unfold Merge.leastKey
  congr 1
  induction h with
  | nil => rfl
  | cons hc _ ih => rw [List.filterMap_cons, List.filterMap_cons, ih, hc.frontKey_eq]

/-- One turn: the docs of a run, and the cursors behind it. -/
theorem takeKey_eq (key : Key) {cursors : List PartialCursor} {xss : List (List (Key × Bitmap))}
    (h : List.Forall₂ PartialCursor.Left cursors xss) (merged : Bitmap) :
    ∃ cursors', takeKey key merged cursors =
        .ok (((Merge.takeRun Prod.fst key xss).map Prod.snd).foldl (· ∪ ·) merged, cursors') ∧
      List.Forall₂ PartialCursor.Left cursors' (Merge.dropRun Prod.fst key xss) := by
  induction h generalizing merged with
  | nil => exact ⟨[], rfl, List.Forall₂.nil⟩
  | @cons c xs cursors xss hc hrest ih =>
    obtain ⟨es, hes⟩ := hc
    unfold takeKey
    rw [hes.front]
    by_cases hkey : xs.head?.map Prod.fst = some key
    · -- the key is in front: the cursor moves on
      cases hposts : hes.posts with
      | nil => cases hkey
      | @cons e x es xs hex hposts' =>
        have hx : x.1 = key := Option.some.inj hkey
        obtain ⟨c', hadv, hc'⟩ := advance_eq hposts' (fun e he => hes.fits e (List.mem_cons_of_mem _ he))
          hes.remaining hes.rest
        obtain ⟨cursors', htake, hleft⟩ := ih (merged ∪ x.2)
        refine ⟨c' :: cursors', ?_, List.Forall₂.cons ?_ hleft⟩
        · rw [List.head?_cons, Option.filter_some, if_pos (by simpa [hex.1] using hx)]
          simp only [hex.2, hadv, htake, bind, Except.bind]
          have hrun : Merge.takeRun Prod.fst key ((x :: xs) :: xss) = x :: Merge.takeRun Prod.fst key xss := by
            unfold Merge.takeRun
            rw [List.filterMap_cons, List.head?_cons, Option.filter_some, if_pos (by simpa using hx)]
          rw [hrun]
          rfl
        · show c'.Left (if _ then _ else _)
          rw [if_pos hkey]
          exact ⟨es, hc'⟩
    · obtain ⟨cursors', htake, hleft⟩ := ih merged
      have hnone : (es.head?.filter fun e => decide (e.1 = key)) = none ∧
          (xs.head?.filter fun x => decide (x.1 = key)) = none := by
        cases hposts : hes.posts with
        | nil => exact ⟨rfl, rfl⟩
        | @cons e x es xs hex _ =>
          have hx : x.1 ≠ key := fun hx => hkey (congrArg some hx)
          refine ⟨?_, ?_⟩
          · rw [List.head?_cons, Option.filter_some, if_neg (by simpa [hex.1] using hx)]
          · rw [List.head?_cons, Option.filter_some, if_neg (by simpa using hx)]
      refine ⟨c :: cursors', ?_, List.Forall₂.cons ?_ hleft⟩
      · rw [hnone.1]
        simp only [htake, bind, Except.bind]
        have hrun : Merge.takeRun Prod.fst key (xs :: xss) = Merge.takeRun Prod.fst key xss := by
          unfold Merge.takeRun
          rw [List.filterMap_cons, hnone.2]
        rw [hrun]
        rfl
      · show c.Left (if _ then _ else _)
        rw [if_neg hkey]
        exact ⟨es, hes⟩

/-! ## The merged file -/

omit [Roaring] in
theorem writeAt_past {file : Bytes} {pos : Nat} (h : file.length ≤ pos) (b : Bytes) :
    writeAt file pos b = file ++ List.replicate (pos - file.length) 0 ++ b := by
  unfold writeAt
  rw [List.take_of_length_le h, List.drop_eq_nil_of_le (by omega), List.append_nil]

omit [Roaring] in
theorem length_writeAt {file : Bytes} {pos : Nat} (h : file.length ≤ pos) (b : Bytes) :
    (writeAt file pos b).length = pos + b.length := by
  rw [writeAt_past h, List.length_append, List.length_append, List.length_replicate]
  omega

omit [Roaring] in
theorem writeAt_writeAt {file : Bytes} {pos : Nat} (h : file.length ≤ pos) (b c : Bytes) :
    writeAt (writeAt file pos b) (pos + b.length) c = writeAt file pos (b ++ c) := by
  have hlen := length_writeAt h b
  rw [writeAt_past (by omega), hlen, Nat.sub_self, writeAt_past h, writeAt_past h]
  simp only [List.replicate_zero, List.append_nil, List.append_assoc]

omit [Roaring] in
/-- The front of a file is filled in at the end. -/
theorem writeAt_front {start : Nat} {head : Bytes} (h : head.length = start) (postings : Bytes) :
    writeAt (writeAt [] start postings) 0 head = head ++ postings := by
  rw [@writeAt_past [] start (Nat.zero_le _)]
  unfold writeAt
  rw [List.take_zero, Nat.zero_sub, List.replicate_zero, List.nil_append, List.nil_append, List.nil_append,
    Nat.zero_add, List.length_nil, Nat.sub_zero, h]
  congr 1
  exact List.drop_left' List.length_replicate

/-- The posting of a run. -/
def runPosting (run : Key × List (Key × Bitmap)) : Key × Bitmap := (run.1, AscSet.unions (run.2.map Prod.snd))

/-- The loop writes the runs of the merge. -/
theorem mergeLoop_eq {fuel : Nat} : ∀ {cursors : List PartialCursor} {xss : List (List (Key × Bitmap))},
    List.Forall₂ PartialCursor.Left cursors xss → Merge.size xss ≤ fuel →
    ∀ {off : Nat} {out : Bytes}, out.length ≤ off →
      mergeLoop fuel cursors off out =
        .ok (dictRecs off (serializeEntries ((Merge.runs Prod.fst fuel xss).map runPosting)),
          if (Merge.runs Prod.fst fuel xss) = [] then out
          else writeAt out off ((serializeEntries ((Merge.runs Prod.fst fuel xss).map runPosting)).flatMap Prod.snd)) := by
  induction fuel with
  | zero =>
    intro cursors xss h hsize off out _
    unfold mergeLoop
    rw [least_eq h]
    cases hk : Merge.leastKey Prod.fst xss with
    | none => rfl
    | some k =>
      have := Merge.size_dropRun_lt hk
      omega
  | succ fuel ih =>
    intro cursors xss h hsize off out hout
    unfold mergeLoop Merge.runs
    rw [least_eq h]
    cases hk : Merge.leastKey Prod.fst xss with
    | none => rfl
    | some k =>
      have hsmaller := Merge.size_dropRun_lt hk
      obtain ⟨cursors', htake, hleft⟩ := takeKey_eq k h ∅
      have hpost : (serializePosting (runPosting (k, Merge.takeRun Prod.fst k xss)).2).length < 2 ^ 32 :=
        Nat.lt_trans (Roaring.length_serialize_lt _) (by decide)
      have hlen := length_writeAt hout (serializePosting (runPosting (k, Merge.takeRun Prod.fst k xss)).2)
      have hloop := ih hleft (by omega) (le_of_eq hlen)
      have hmerged : ((Merge.takeRun Prod.fst k xss).map Prod.snd).foldl (· ∪ ·) ∅ =
          (runPosting (k, Merge.takeRun Prod.fst k xss)).2 := rfl
      rw [hmerged] at htake
      simp only [htake, bind, Except.bind, u32Len, if_pos hpost, hloop]
      rw [if_neg (List.cons_ne_nil _ _)]
      refine congrArg Except.ok (Prod.ext rfl ?_)
      show (if _ then _ else _) = _
      simp only [serializeEntries, List.map_cons, List.flatMap_cons]
      split
      · next hnil =>
        rw [hnil]
        simp [runPosting]
      · exact writeAt_writeAt hout _ _

/-! ## The union of the chunks -/

/-- Every key of the chunks, with its docs in all of them. -/
def unite (chunks : List (List (Key × Bitmap))) : List (Key × Bitmap) :=
  (chunks.flatten.map Prod.fst).dedup.map fun k =>
    (k, AscSet.unions (chunks.filterMap fun chunk => (chunk.find? fun p => p.1 = k).map Prod.snd))

omit [Roaring] in
theorem map_fst_unite (chunks : List (List (Key × Bitmap))) :
    (unite chunks).map Prod.fst = (chunks.flatten.map Prod.fst).dedup := by
  rw [unite, List.map_map]
  exact List.map_id _

omit [Roaring] in
theorem length_le_unite {chunks : List (List (Key × Bitmap))} {chunk : List (Key × Bitmap)} (h : chunk ∈ chunks)
    (hnd : (chunk.map Prod.fst).Nodup) : chunk.length ≤ (unite chunks).length := by
  have hsub : chunk.map Prod.fst ⊆ (unite chunks).map Prod.fst := by
    intro k hk
    obtain ⟨p, hp, rfl⟩ := List.mem_map.mp hk
    rw [map_fst_unite, List.mem_dedup]
    exact List.mem_map.mpr ⟨p, List.mem_flatten.mpr ⟨chunk, h, hp⟩, rfl⟩
  have := (hnd.subperm hsub).length_le
  rwa [List.length_map, List.length_map] at this

/-- A partial's file is scanned and opened as its chunk in order. -/
theorem PartialFile.opens {chunk : List (Key × Bitmap)} {file : Bytes} (h : PartialFile chunk file)
    (hnd : (chunk.map Prod.fst).Nodup) (hn : chunk.length < 2 ^ 32) :
    ∃ xs c, xs.Perm chunk ∧ xs.Pairwise (fun a b => a.1 < b.1) ∧
      scanPartialKeys file = .ok (xs.map Prod.fst) ∧ PartialCursor.open file = .ok c ∧ c.Left xs := by
  obtain ⟨entries, hposts, hwrite⟩ := h
  obtain ⟨xs, hperm, hsorted⟩ := forall₂_of_perm hposts (sortByKey_perm Prod.fst entries)
  obtain ⟨rfl, hfits⟩ := writePartial_ok hwrite
  have hlen : entries.length = chunk.length := hposts.length_eq
  have hcount : ofLe (le 4 (entries.length % 2 ^ 32)) = (sortByKey Prod.fst entries).length := by
    rw [Nat.mod_eq_of_lt (by omega), length_sortByKey]
    exact ofLe_le_of_lt (by omega)
  have hkeys : (sortByKey Prod.fst entries).map Prod.fst = xs.map Prod.fst := by
    have := List.forall₂_map_left_iff.mpr (List.forall₂_map_right_iff.mpr (hsorted.imp fun _ _ h => h.1))
    rwa [List.forall₂_eq_eq_eq] at this
  have hasc : xs.Pairwise (fun a b => a.1 < b.1) := by
    have hle : (xs.map Prod.fst).Pairwise (· ≤ ·) := by
      rw [← hkeys, List.pairwise_map]
      exact sortByKey_sorted Prod.fst entries
    have hne : (xs.map Prod.fst).Nodup := (hperm.map Prod.fst).nodup_iff.mpr hnd
    exact List.pairwise_map.mp ((hle.and hne).imp fun h => lt_of_le_of_ne h.1 h.2)
  obtain ⟨c, hadv, hc⟩ := @advance_eq _ ⟨(sortByKey Prod.fst entries).flatMap partialRow,
    (sortByKey Prod.fst entries).length, none⟩ _ _ hsorted hfits rfl rfl
  refine ⟨xs, c, hperm, hasc, ?_, ?_, _, hc⟩
  · unfold scanPartialKeys
    rw [readExact_append (length_le 4 _)]
    simp only [bind, Except.bind, hcount]
    rw [scanKeys_eq hfits, hkeys]
  · unfold PartialCursor.open
    rw [readExact_append (length_le 4 _)]
    simp only [bind, Except.bind, hcount]
    exact hadv

/-- All the partials. -/
theorem opens_all {chunks : List (List (Key × Bitmap))} {files : List Bytes}
    (h : List.Forall₂ PartialFile chunks files) (hnd : ∀ chunk ∈ chunks, (chunk.map Prod.fst).Nodup)
    (hn : ∀ chunk ∈ chunks, chunk.length < 2 ^ 32) :
    ∃ xss cursors, List.Forall₂ List.Perm xss chunks ∧ (∀ xs ∈ xss, xs.Pairwise fun a b => a.1 < b.1) ∧
      files.mapM scanPartialKeys = .ok (xss.map fun xs => xs.map Prod.fst) ∧
      files.mapM PartialCursor.open = .ok cursors ∧ List.Forall₂ PartialCursor.Left cursors xss := by
  induction h with
  | nil => exact ⟨[], [], List.Forall₂.nil, fun _ h => absurd h List.not_mem_nil, rfl, rfl, List.Forall₂.nil⟩
  | @cons chunk file chunks files hfile _ ih =>
    obtain ⟨xs, c, hperm, hasc, hscan, hopen, hleft⟩ :=
      hfile.opens (hnd _ List.mem_cons_self) (hn _ List.mem_cons_self)
    obtain ⟨xss, cursors, hperms, hascs, hscans, hopens, hlefts⟩ :=
      ih (fun x hx => hnd x (List.mem_cons_of_mem _ hx)) (fun x hx => hn x (List.mem_cons_of_mem _ hx))
    refine ⟨xs :: xss, c :: cursors, hperms.cons hperm, ?_, ?_, ?_, hlefts.cons hleft⟩
    · intro ys hys
      rcases List.mem_cons.mp hys with rfl | hys
      · exact hasc
      · exact hascs ys hys
    · rw [List.mapM_cons, hscan, hscans]
      rfl
    · rw [List.mapM_cons, hopen, hopens]
      rfl

omit [Roaring] in
/-- Sorting a chunk does not change what a key finds. -/
theorem find?_perm_chunks {xss chunks : List (List (Key × Bitmap))} (hperm : List.Forall₂ List.Perm xss chunks)
    (hnd : ∀ chunk ∈ chunks, (chunk.map Prod.fst).Nodup) (k : Key) :
    (xss.filterMap fun xs => xs.find? fun x => decide (x.1 = k)) =
      chunks.filterMap fun chunk => chunk.find? fun p => decide (p.1 = k) := by
  induction hperm with
  | nil => rfl
  | cons hp _ ih =>
    have hfind := find?_eq_of_perm hp (hnd _ List.mem_cons_self) k
    rw [List.filterMap_cons, List.filterMap_cons, ih fun c hc => hnd c (List.mem_cons_of_mem _ hc)]
    simp only [beq_eq_decide] at hfind
    rw [hfind]

omit [Roaring] in
/-- The runs of the merge are the united postings. -/
theorem runs_perm_unite {xss chunks : List (List (Key × Bitmap))} (hperm : List.Forall₂ List.Perm xss chunks)
    (hasc : ∀ xs ∈ xss, xs.Pairwise fun a b => a.1 < b.1) (hnd : ∀ chunk ∈ chunks, (chunk.map Prod.fst).Nodup) :
    ((Merge.runs Prod.fst (Merge.size xss) xss).map runPosting).Pairwise (fun a b => a.1 < b.1) ∧
      (unite chunks).Perm ((Merge.runs Prod.fst (Merge.size xss) xss).map runPosting) := by
  obtain ⟨hkeys, hiff⟩ := Merge.runs_spec Prod.fst hasc (Nat.le_refl (Merge.size xss))
  have hlt : ((Merge.runs Prod.fst (Merge.size xss) xss).map runPosting).Pairwise (fun a b => a.1 < b.1) :=
    List.pairwise_map.mpr hkeys
  refine ⟨hlt, ?_⟩
  have hnodup : (unite chunks).Nodup := by
    refine List.Nodup.of_map Prod.fst ?_
    rw [map_fst_unite]
    exact List.nodup_dedup _
  have hnodup' : ((Merge.runs Prod.fst (Merge.size xss) xss).map runPosting).Nodup :=
    hlt.imp fun h heq => by rw [heq] at h; exact lt_irrefl _ h
  rw [List.perm_ext_iff_of_nodup hnodup hnodup']
  rintro ⟨k, bm⟩
  unfold unite
  simp only [List.mem_map, Prod.exists, hiff, find?_perm_chunks hperm hnd]
  constructor
  · rintro ⟨j, hj, heq⟩
    obtain ⟨rfl, rfl⟩ := Prod.mk.inj heq
    obtain ⟨p, hp, rfl⟩ := List.mem_map.mp (List.mem_dedup.mp hj)
    obtain ⟨chunk, hchunk, hp⟩ := List.mem_flatten.mp hp
    refine ⟨p.1, _, ⟨@rfl _ (chunks.filterMap fun chunk => chunk.find? fun q => decide (q.1 = p.1)), ?_⟩, ?_⟩
    · obtain ⟨q, hq⟩ := Option.isSome_iff_exists.mp
        (List.find?_isSome.mpr ⟨p, hp, by simp⟩ : (chunk.find? fun q => decide (q.1 = p.1)).isSome)
      exact List.ne_nil_of_mem (List.mem_filterMap.mpr ⟨chunk, hchunk, hq⟩)
    · unfold runPosting
      rw [List.map_filterMap]
  · rintro ⟨j, vs, ⟨hvs, hne⟩, heq⟩
    obtain ⟨rfl, rfl⟩ := Prod.mk.inj heq
    rw [hvs] at hne ⊢
    obtain ⟨chunk, hchunk, p, hp, rfl⟩ := Merge.exists_of_filterMap_ne_nil hne
    refine ⟨p.1, List.mem_dedup.mpr (List.mem_map.mpr ⟨p, List.mem_flatten.mpr ⟨chunk, hchunk, hp⟩, rfl⟩), ?_⟩
    rw [List.map_filterMap]

omit [Roaring] in
theorem flatten_perm {xss chunks : List (List (Key × Bitmap))} (hperm : List.Forall₂ List.Perm xss chunks) :
    xss.flatten.Perm chunks.flatten := by
  induction hperm with
  | nil => exact List.Perm.refl _
  | cons hp _ ih =>
    rw [List.flatten_cons, List.flatten_cons]
    exact hp.append ih

/-- The file the merge writes of the runs. -/
theorem mergePartials_runs {xss : List (List (Key × Bitmap))} {files : List Bytes} {cursors : List PartialCursor}
    {gramSize stride : Nat} (hscan : files.mapM scanPartialKeys = .ok (xss.map fun xs => xs.map Prod.fst))
    (hopen : files.mapM PartialCursor.open = .ok cursors) (hleft : List.Forall₂ PartialCursor.Left cursors xss)
    (c : Corpus) (hgram : c.gramSize = gramSize) (hstride : (if stride = 0 then defaultStride else stride) = c.stride)
    (hfold : c.caseFold = true) (hposts : c.posts = (Merge.runs Prod.fst (Merge.size xss) xss).map runPosting)
    (hcard : (xss.map fun xs => xs.map Prod.fst).flatten.toFinset.card = c.posts.length) :
    mergePartialsToRrs files gramSize stride [] = .ok c.bytes := by
  subst hgram
  have hloop := @mergeLoop_eq _ (Merge.size xss) cursors xss hleft (Nat.le_refl _) c.postingsStart []
    (Nat.zero_le _)
  have hentries : serializeEntries ((Merge.runs Prod.fst (Merge.size xss) xss).map runPosting) = c.entries := by
    rw [← hposts]
    rfl
  rw [hentries] at hloop
  have hhead : headerSize = c.headerLen := by rw [Corpus.headerLen, hfold, if_pos rfl]
  have hsparse : writeSparseIndex ((dictRecs c.postingsStart c.entries).map fun d => (d.key, [])) c.sparseCount c.stride =
      table (fun k : Key => le 8 k.val) c.sparseKeys := by
    refine c.writeSparseIndex_eq ?_
    rw [List.map_map, ← c.keys_entries, ← @map_key_dictRecs c.postingsStart]
    rfl
  have hstart : headerSize + c.sparseCount * 8 + c.posts.length * 20 = c.postingsStart := by
    rw [hhead]
    rfl
  have hlen : (rrsHeader c.gramSize c.posts.length c.stride true ++ (table (fun k : Key => le 8 k.val) c.sparseKeys ++
      table dictRow (dictRecs c.postingsStart c.entries))).length = c.postingsStart := by
    rw [List.length_append, List.length_append, Corpus.length_rrsHeader, if_pos rfl, c.length_sparse,
      length_table length_dictRow, length_dictRecs, c.length_entries, ← hstart]
    omega
  unfold mergePartialsToRrs
  simp only [hscan, hopen, bind, Except.bind, hcard, hstride, PartialCursor.Left.entriesLeft_eq hleft]
  rw [← c.sparseCount_eq, hstart, hloop]
  simp only [pure, Except.pure]
  rw [hsparse, Nat.mod_eq_of_lt c.count_lt]
  refine congrArg Except.ok ?_
  have hbytes : c.bytes = rrsHeader c.gramSize c.posts.length c.stride true ++
      (table (fun k : Key => le 8 k.val) c.sparseKeys ++ table dictRow (dictRecs c.postingsStart c.entries)) ++
      c.entries.flatMap Prod.snd := by
    unfold Corpus.bytes Corpus.recs
    rw [hfold]
    simp only [List.append_assoc]
  rw [hbytes]
  split
  · next hnil =>
    have hzero : c.entries = [] := by rw [← hentries, hnil]; rfl
    unfold writeAt
    simp [hzero]
  · exact writeAt_front hlen _

/-- **The merge of the partials is the index of the union**: with fewer than `2 ^ 32` keys over all chunks, the
merged file is the one `write_index` writes of every key's docs in all chunks. -/
theorem mergePartials_eq {gramSize stride : Nat} (hg : gramSize < 2 ^ 16) (hs : stride < 2 ^ 32)
    {chunks : List (List (Key × Bitmap))} {files : List Bytes} (hfiles : List.Forall₂ PartialFile chunks files)
    (hnd : ∀ chunk ∈ chunks, (chunk.map Prod.fst).Nodup) (hn : (unite chunks).length < 2 ^ 32) :
    ∃ rrs, writeIndex gramSize stride (serializeEntries (unite chunks)) = .ok rrs ∧
      mergePartialsToRrs files gramSize stride [] = .ok rrs := by
  obtain ⟨xss, cursors, hperm, hasc, hscan, hopen, hleft⟩ := opens_all hfiles hnd fun chunk hchunk =>
    Nat.lt_of_le_of_lt (length_le_unite hchunk (hnd chunk hchunk)) hn
  obtain ⟨hlt, hunite⟩ := runs_perm_unite hperm hasc hnd
  have hpos : 0 < (if stride = 0 then defaultStride else stride) := by
    split
    · decide
    · omega
  have hstride : (if stride = 0 then defaultStride else stride) < 2 ^ 32 := by
    split
    · decide
    · exact hs
  let c : Corpus := ⟨gramSize, _, true, _, hg, hpos, hstride, hlt, by rw [← hunite.length_eq]; exact hn⟩
  refine ⟨c.bytes, c.writeIndexWith_eq rfl (hunite.map _), ?_⟩
  refine mergePartials_runs hscan hopen hleft c rfl rfl rfl rfl ?_
  show _ = ((Merge.runs Prod.fst (Merge.size xss) xss).map runPosting).length
  rw [← hunite.length_eq, ← List.length_map Prod.fst, map_fst_unite, List.card_toFinset, ← List.map_flatten]
  exact ((flatten_perm hperm).map Prod.fst).dedup.length_eq

/-- A partial of serialized postings. -/
theorem partialFile_serialize (chunk : List (Key × Bitmap)) :
    ∃ file, writePartial (serializeEntries chunk) = .ok file ∧ PartialFile chunk file := by
  have hposts : List.Forall₂ Posts (serializeEntries chunk) chunk := by
    rw [serializeEntries, List.forall₂_map_left_iff, List.forall₂_same]
    intro p _
    exact ⟨rfl, Roaring.deserialize_serialize p.2⟩
  have hrows : ∀ entries : List (Key × Bytes), (∀ e ∈ entries, e.2.length < 2 ^ 32) →
      ∃ rows, writeRows entries = .ok rows := by
    intro entries hall
    induction entries with
    | nil => exact ⟨[], rfl⟩
    | cons e entries ih =>
      obtain ⟨rows, hrows⟩ := ih fun x hx => hall x (List.mem_cons_of_mem _ hx)
      refine ⟨le 8 e.1.val ++ (le 4 e.2.length ++ e.2) ++ rows, ?_⟩
      rw [writeRows, u32Len, if_pos (hall e List.mem_cons_self), hrows]
      rfl
  obtain ⟨rows, hrows⟩ := hrows (sortByKey Prod.fst (serializeEntries chunk)) (by
    intro e he
    obtain ⟨p, -, rfl⟩ := List.mem_map.mp (mem_sortByKey.mp he)
    exact Nat.lt_trans (Roaring.length_serialize_lt p.2) (by decide))
  have hwrite : writePartial (serializeEntries chunk) =
      .ok (le 4 ((sortByKey Prod.fst (serializeEntries chunk)).length % 2 ^ 32) ++ rows) := by
    unfold writePartial
    simp only [hrows]
    rfl
  exact ⟨_, hwrite, _, hposts, hwrite⟩

end

section

attribute [local instance] PortableCodec.roaring

/-- Two chunks that share a key. -/
def lowChunk : List (Key × Bitmap) :=
  [(⟨12, by decide⟩, AscSet.ofList [1, 5] (by decide)), (zeroKey, AscSet.ofList [5] (by decide))]

def highChunk : List (Key × Bitmap) := [(⟨12, by decide⟩, AscSet.ofList [65536, 65540] (by decide))]

theorem mergePartials_eq_twoChunks : ∃ low high rrs, writePartial (serializeEntries lowChunk) = .ok low ∧
    writePartial (serializeEntries highChunk) = .ok high ∧
    writeIndex 3 2 (serializeEntries (unite [lowChunk, highChunk])) = .ok rrs ∧
    mergePartialsToRrs [low, high] 3 2 [] = .ok rrs := by
  obtain ⟨low, hlow, hlowFile⟩ := partialFile_serialize lowChunk
  obtain ⟨high, hhigh, hhighFile⟩ := partialFile_serialize highChunk
  obtain ⟨rrs, hindex, hmerge⟩ := @mergePartials_eq _ 3 2 (by decide) (by decide) [lowChunk, highChunk] [low, high]
    (.cons hlowFile (.cons hhighFile .nil)) (by decide) (by decide)
  exact ⟨low, high, rrs, hlow, hhigh, hindex, hmerge⟩

end

/-! ## Where the count wraps -/

section

variable [Roaring]

/-- A partial that declares no entries adds nothing, whatever follows its count. -/
theorem merge_noEntries (gramSize stride : Nat) (rows : Bytes) :
    mergePartialsToRrs [le 4 0 ++ rows] gramSize stride [] =
      .ok (rrsHeader gramSize 0 (if stride = 0 then defaultStride else stride) true) := by
  have hread : readExact 4 (le 4 0 ++ rows) = .ok (le 4 0, rows) := readExact_append (length_le 4 0)
  have hcount : ofLe (le 4 0) = 0 := ofLe_le_of_lt (by decide)
  have hscan : scanPartialKeys (le 4 0 ++ rows) = .ok [] := by
    unfold scanPartialKeys
    rw [hread]
    simp only [bind, Except.bind, hcount]
    rfl
  have hopen : PartialCursor.open (le 4 0 ++ rows) = .ok ⟨rows, 0, none⟩ := by
    unfold PartialCursor.open
    rw [hread]
    simp only [bind, Except.bind, hcount]
    rfl
  unfold mergePartialsToRrs
  rw [List.mapM_cons, List.mapM_nil, List.mapM_cons, List.mapM_nil, hscan, hopen]
  show Except.ok (writeAt [] 0 _) = _
  refine congrArg Except.ok ?_
  rw [@writeAt_past [] 0 (Nat.le_refl _)]
  simp [writeSparseIndex, table]

end

section

attribute [local instance] PortableCodec.roaring

/-- One chunk of `2 ^ 32` keys: its partial declares none, and the merged file is a header, where the index of
the same postings has a dictionary. -/
theorem crowded_chunk_lost : (crowdedEntries.map Prod.fst).Nodup ∧
    ∃ file rrs merged, writePartial (serializeEntries crowdedEntries) = .ok file ∧
      writeIndex 3 512 (serializeEntries (unite [crowdedEntries])) = .ok rrs ∧
      mergePartialsToRrs [file] 3 512 [] = .ok merged ∧ merged ≠ rrs := by
  have hkeys : (unite [crowdedEntries]).map Prod.fst = crowdedEntries.map Prod.fst := by
    rw [map_fst_unite, List.flatten_singleton]
    exact List.dedup_eq_self.mpr crowdedEntries_nodup
  have hser : (serializeEntries (unite [crowdedEntries])).map Prod.fst = crowdedEntries.map Prod.fst := by
    rw [← hkeys, serializeEntries, List.map_map]
    rfl
  have hlen : (serializeEntries (unite [crowdedEntries])).length = 2 ^ 32 := by
    have := congrArg List.length hser
    rwa [List.length_map, List.length_map, length_crowdedEntries] at this
  obtain ⟨rest, hindex, hrest, -⟩ := @writeIndexWith_wraps 3 512 (serializeEntries (unite [crowdedEntries]))
    (by rw [hser]; exact crowdedEntries_nodup) hlen (by
      intro e he
      obtain ⟨p, -, rfl⟩ := List.mem_map.mp he
      exact Roaring.length_serialize_lt p.2)
  obtain ⟨file, hfile, -⟩ := partialFile_serialize crowdedEntries
  obtain ⟨hrows, -⟩ := writePartial_ok hfile
  have hcount : (serializeEntries crowdedEntries).length % 2 ^ 32 = 0 := by
    rw [serializeEntries, List.length_map, length_crowdedEntries, Nat.mod_self]
  rw [hcount] at hrows
  refine ⟨crowdedEntries_nodup, file, _, _, hfile, hindex, by rw [hrows]; exact merge_noEntries 3 512 _, ?_⟩
  intro heq
  have hnil : rest = [] := List.self_eq_append_right.mp heq
  rw [hnil] at hrest
  exact absurd hrest (by decide)

end

end Chunk

end RoaringRange
