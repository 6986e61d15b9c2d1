import Mathlib.Data.Prod.Lex
import RoaringRange.FacetCounts

/-!
# Facet digests (`facet.rs`)

A digest lists the top `k` categories of every field of a sidecar, by descending count and then by name, each
with its count and where its postings lie; the second version adds the container directory of the tail.  A
split-set manifest keeps a split's digest resident, so that counts are priced without the sidecar's meta region.

A part of a digest is parsed off the front of the rest of the payload, so each part has a lemma of the shape
`take (put x ++ rest) = (x, rest)`, and

    the payload of facet_digest / facet_digest_v2 is read back               (parseFacetDigest_digest,
                                                                              parseFacetDigestV2_digest)
    the categories of a digest hold their postings                                 (SidecarOf.digested_postsHold)
-/

namespace RoaringRange

open ByteString Faults Slices

/-! ## Writing -/

/-- `idx.sort_by` and `idx.truncate` of `facet::facet_digest`. -/
def topCategories (k : Nat) (cats : List Category) : List Category :=
  (sortByKey (fun c : Category => toLex (OrderDual.toDual c.count, c.name)) cats).take k

/-- `push_name` of `facet::facet_digest`. -/
def digestName (name : String) : Except IndexError Bytes :=
  if (utf8 name).length < 2 ^ 16 then .ok (le 2 (utf8 name).length ++ utf8 name)
  else .error (.malformed "facet digest name exceeds u16")

/-- A category's entry, with what `dir` writes of its tail. -/
def digestCategory (dir : Category → Except IndexError Bytes) (c : Category) : Except IndexError Bytes := do
  let name ← digestName c.name
  let tail ← dir c
  pure (name ++ (le 4 c.count ++ (le 8 c.range.headOff ++ (le 4 c.range.headSize ++
    (le 4 c.range.tailSize ++ tail)))))

def digestField (dir : Category → Except IndexError Bytes) (k : Nat) (f : Field) : Except IndexError Bytes := do
  let name ← digestName f.name
  let cats := topCategories k f.categories
  let rows ← collect (cats.map (digestCategory dir))
  pure (name ++ (le 2 cats.length ++ rows.flatten))

/-- The body that `facet::facet_digest` and `facet::facet_digest_v2` share. -/
def digestWith (dir : Category → Except IndexError Bytes) (rrsf : Bytes) (k : Nat) : Except IndexError Bytes :=
  if rrsf.length < rrsfHeaderSize then .error (.malformed "short RRSF header")
  else do
    let metaLen ← rrsfBootLen (slice rrsf 0 rrsfHeaderSize)
    if rrsf.length < metaLen then throw (.malformed "RRSF meta region truncated")
    else do
      let fields ← fromMeta (slice rrsf 0 metaLen)
      let k16 := min k (2 ^ 16 - 1)
      if 2 ^ 16 ≤ fields.length then throw (.malformed "facet digest field count exceeds u16")
      else do
        let rows ← collect (fields.map (digestField dir k16))
        pure (le 2 k16 ++ (le 2 fields.length ++ rows.flatten))

/-- `facet::facet_digest`. -/
def facetDigest (rrsf : Bytes) (k : Nat) : Except IndexError Bytes := digestWith (fun _ => .ok []) rrsf k

/-- A container of a directory. -/
def digestContainer (c : Container) : Bytes := le 2 c.key ++ (le 2 (c.card - 1) ++ le 4 c.start)

/-- The tail directory of `facet::facet_digest_v2`, of no containers for a tail that is empty or not seekable. -/
def tailDirectory (rrsf : Bytes) (c : Category) : Except IndexError Bytes :=
  let off := c.range.tailOff
  let size := c.range.tailSize
  if size = 0 then .ok (le 2 0)
  else if u64Bound ≤ off + size ∨ rrsf.length < off + size then .error (.malformed "RRSF tail out of range")
  else
    match parseDir (slice rrsf off size) size with
    | some dir =>
      if 2 ^ 16 ≤ dir.length then .error (.malformed "tail container count exceeds u16")
      else .ok (le 2 dir.length ++ dir.flatMap digestContainer)
    | none => .ok (le 2 0)

/-- `facet::facet_digest_v2`. -/
def facetDigestV2 (rrsf : Bytes) (k : Nat) : Except IndexError Bytes := digestWith (tailDirectory rrsf) rrsf k

/-! ## Parsing -/

/-- `Cur::take`: the next `n` bytes and the rest. -/
def takeBytes (n : Nat) (b : Bytes) : Except IndexError (Bytes × Bytes) :=
  if n ≤ b.length then .ok (b.take n, b.drop n) else .error (.malformed "facet digest truncated")

/-- `Cur::u16`, `Cur::u32` and `Cur::u64`. -/
def takeLe (w : Nat) (b : Bytes) : Except IndexError (Nat × Bytes) := do
  let (s, b) ← takeBytes w b
  pure (getLe w s 0, b)

/-- `Cur::name`. -/
def takeName (b : Bytes) : Except IndexError (String × Bytes) := do
  let (len, b) ← takeLe 2 b
  let (s, b) ← takeBytes len b
  pure (fromUtf8Lossy s, b)

/-- A loop of `n` passes. -/
def takeMany {α : Type} (take : Bytes → Except IndexError (α × Bytes)) : Nat → Bytes →
    Except IndexError (List α × Bytes)
  | 0, b => .ok ([], b)
  | n + 1, b => do
    let (x, b) ← take b
    let (xs, b) ← takeMany take n b
    pure (x :: xs, b)

/-- What is read of a category's tail directory: of a tail of so many bytes, off the front of the payload. -/
abbrev TakeDir := Nat → Bytes → Except IndexError (Option (List Container) × Bytes)

def takeCategory (takeDir : TakeDir) (b : Bytes) : Except IndexError (Category × Bytes) := do
  let (name, b) ← takeName b
  let (count, b) ← takeLe 4 b
  let (headOff, b) ← takeLe 8 b
  let (headSize, b) ← takeLe 4 b
  let (tailSize, b) ← takeLe 4 b
  let (dir, b) ← takeDir tailSize b
  pure (⟨name, count, ⟨headOff, headSize, saturatingAdd headOff headSize, tailSize⟩, ∅, dir⟩, b)

def takeField (takeDir : TakeDir) (b : Bytes) : Except IndexError (Field × Bytes) := do
  let (name, b) ← takeName b
  let (count, b) ← takeLe 2 b
  let (cats, b) ← takeMany (takeCategory takeDir) count b
  pure (⟨name, cats⟩, b)

/-- The body that `facet::parse_facet_digest` and `facet::parse_facet_digest_v2` share. -/
def parseDigestWith (takeDir : TakeDir) (payload : Bytes) : Except IndexError (Nat × List Field) := do
  let (k, b) ← takeLe 2 payload
  let (count, b) ← takeLe 2 b
  let (fields, _) ← takeMany (takeField takeDir) count b
  pure (k, fields)

/-- `facet::parse_facet_digest`. -/
def parseFacetDigest (payload : Bytes) : Except IndexError (Nat × List Field) :=
  parseDigestWith (fun _ b => .ok (none, b)) payload

/-- A container of a directory: its key, its cardinality and where it starts. -/
def takeContainer (b : Bytes) : Except IndexError ((Nat × Nat × Nat) × Bytes) := do
  let (key, b) ← takeLe 2 b
  let (card, b) ← takeLe 2 b
  let (start, b) ← takeLe 4 b
  pure ((key, card + 1, start), b)

/-- Gives every container its length: it ends where the next one starts, the last where the tail ends. -/
def closeDir (tailSize : Nat) : List (Nat × Nat × Nat) → Except IndexError (List Container)
  | [] => .ok []
  | e :: es => do
    let stop := (es.head?.map fun next => next.2.2).getD tailSize
    if stop < e.2.2 ∨ tailSize < stop then throw (.malformed "facet digest tail container range")
    else do
      let dir ← closeDir tailSize es
      pure (⟨e.1, e.2.1, e.2.2, stop - e.2.2⟩ :: dir)

/-- The tail directory of `facet::parse_facet_digest_v2`. -/
def takeTailDir (tailSize : Nat) (b : Bytes) : Except IndexError (Option (List Container) × Bytes) := do
  let (n, b) ← takeLe 2 b
  if n = 0 then pure (none, b)
  else do
    let (raw, b) ← takeMany takeContainer n b
    let dir ← closeDir tailSize raw
    pure (some dir, b)

/-- `facet::parse_facet_digest_v2`. -/
def parseFacetDigestV2 (payload : Bytes) : Except IndexError (Nat × List Field) := parseDigestWith takeTailDir payload

/-! ## Reading a part back -/

theorem takeBytes_append {s : Bytes} (rest : Bytes) : takeBytes s.length (s ++ rest) = .ok (s, rest) := by
  unfold takeBytes
  rw [if_pos (by rw [List.length_append]; omega), List.take_left', List.drop_left'] <;> rfl

theorem takeLe_append {w n : Nat} (h : n < 256 ^ w) (rest : Bytes) : takeLe w (le w n ++ rest) = .ok (n, rest) := by
  have hb := @takeBytes_append (le w n) rest
  rw [length_le] at hb
  unfold takeLe
  rw [hb]
  show Except.ok (getLe w (le w n) 0, rest) = _
  rw [getLe_last h]

theorem fromUtf8Lossy_utf8 (s : String) : fromUtf8Lossy (utf8 s) = s := by
  unfold fromUtf8Lossy
  rw [fromUtf8_utf8]

theorem takeName_append {name : String} {out : Bytes} (h : digestName name = .ok out) (rest : Bytes) :
    takeName (out ++ rest) = .ok (name, rest) := by
  unfold digestName at h
  split at h
  · next hlen =>
    obtain rfl := Except.ok.inj h
    unfold takeName
    rw [List.append_assoc, takeLe_append (by omega)]
    simp only [bind, Except.bind]
    rw [takeBytes_append]
    simp only [pure, Except.pure]
    rw [fromUtf8Lossy_utf8]
  · cases h

/-- A list whose parts are each read back. -/
theorem takeMany_append {α β : Type} {put : β → Except IndexError Bytes} {take : Bytes → Except IndexError (α × Bytes)}
    {g : β → α} {xs : List β} {outs : List Bytes} (hout : collect (xs.map put) = .ok outs)
    (h : ∀ x ∈ xs, ∀ out, put x = .ok out → ∀ rest, take (out ++ rest) = .ok (g x, rest)) (rest : Bytes) :
    takeMany take xs.length (outs.flatten ++ rest) = .ok (xs.map g, rest) := by
  induction xs generalizing outs with
  | nil =>
    obtain rfl := Except.ok.inj hout
    rfl
  | cons x xs ih =>
    rw [List.map_cons] at hout
    obtain ⟨out, os, hx, hxs, rfl⟩ := collect_cons_ok hout
    rw [List.length_cons, takeMany, List.flatten_cons, List.append_assoc, h x List.mem_cons_self out hx]
    simp only [bind, Except.bind]
    rw [ih hxs fun y hy => h y (List.mem_cons_of_mem _ hy)]
    rfl

/-! ## Tail directories -/

/-- The containers follow one another, the last one up to the end of the posting. -/
def Closed (total : Nat) : List Container → Prop
  | [] => True
  | c :: cs => c.start + c.len = (cs.head?.map Container.start).getD total ∧ c.start + c.len ≤ total ∧ Closed total cs

/-- The entries of a parsed directory. -/
structure DirEntry (total : Nat) (next : Option Container) (c : Container) : Prop where
  key_lt : c.key < 2 ^ 16
  card_pos : 1 ≤ c.card ∧ c.card ≤ 2 ^ 16
  start_lt : c.start < 2 ^ 32
  stop : c.start + c.len = (next.map Container.start).getD total ∧ c.start + c.len ≤ total

/-- What an entry is when it is one. -/
theorem parseEntry_some {header : Bytes} {total size offs i : Nat} {c : Container}
    (h : parseEntry header total size offs i = some c) :
    c.key = getLe 2 header (8 + i * 4) ∧ c.card = getLe 2 header (8 + i * 4 + 2) + 1 ∧
      c.start = getLe 4 header (offs + i * 4) ∧ c.start + c.len ≤ total ∧
      c.start + c.len = if i + 1 < size then getLe 4 header (offs + (i + 1) * 4) else total := by
  unfold parseEntry at h
  simp only at h
  generalize (if i + 1 < size then getLe 4 header (offs + (i + 1) * 4) else total) = stop at h ⊢
  split at h
  · cases h
  · obtain rfl := Option.some.inj h
    simp only
    refine ⟨trivial, trivial, trivial, ?_, ?_⟩ <;> omega

theorem parseDir_entry {header : Bytes} {total : Nat} {dir : List Container} (h : parseDir header total = some dir)
    {i : Nat} {c : Container} (hi : dir[i]? = some c) : DirEntry total dir[i + 1]? c := by
  unfold parseDir at h
  split at h
  · cases h
  simp only at h
  split at h
  · obtain rfl := Option.some.inj h
    simp at hi
  split at h
  · cases h
  split at h
  · cases h
  generalize getLe 4 header 4 = size at h
  have hall := mapM_some_forall₂ h
  have hlen : dir.length = size := by
    have := hall.length_eq
    rw [List.length_range] at this
    exact this.symm
  have hentry : ∀ (j : Nat) (d : Container), dir[j]? = some d →
      parseEntry header total size (size * 4 + 8) j = some d := by
    intro j d hj
    obtain ⟨hlt, rfl⟩ := List.getElem?_eq_some_iff.mp hj
    have := (List.forall₂_iff_get.mp hall).2 j (by rw [List.length_range]; omega) hlt
    simpa only [List.get_eq_getElem, List.getElem_range] using this
  obtain ⟨hkey, hcard, hstart, hle, hstop⟩ := parseEntry_some (hentry i c hi)
  have hk := getLe_lt 2 header (8 + i * 4)
  have hn := getLe_lt 2 header (8 + i * 4 + 2)
  have hs := getLe_lt 4 header (size * 4 + 8 + i * 4)
  refine ⟨by omega, ⟨by omega, by omega⟩, by omega, ?_, hle⟩
  rw [hstop]
  by_cases hnext : i + 1 < size
  · have hd : dir[i + 1]? = some dir[i + 1] := List.getElem?_eq_getElem (by omega)
    obtain ⟨-, -, hstart', -⟩ := parseEntry_some (hentry (i + 1) _ hd)
    rw [if_pos hnext, hd, Option.map_some, Option.getD_some, hstart']
  · rw [if_neg hnext, List.getElem?_eq_none (by omega)]
    rfl

/-- A parsed directory is closed. -/
theorem closed_of_entries {total : Nat} {dir : List Container}
    (h : ∀ (i : Nat) (c : Container), dir[i]? = some c → DirEntry total dir[i + 1]? c) : Closed total dir := by
  induction dir with
  | nil => trivial
  | cons c cs ih =>
    obtain ⟨-, -, -, hstop, hle⟩ := h 0 c rfl
    refine ⟨?_, hle, ih fun i d hi => h (i + 1) d hi⟩
    rw [hstop, List.getElem?_cons_succ, List.head?_eq_getElem?]

theorem closeDir_eq {total : Nat} {dir : List Container} (h : Closed total dir) :
    closeDir total (dir.map fun c => (c.key, c.card, c.start)) = .ok dir := by
  induction dir with
  | nil => rfl
  | cons c cs ih =>
    obtain ⟨hstop, hle, hrest⟩ := h
    have hnext : (((cs.map fun c => (c.key, c.card, c.start)).head?.map fun next => next.2.2).getD total) =
        c.start + c.len := by
      rw [hstop]
      cases cs <;> rfl
    rw [List.map_cons, closeDir]
    simp only [hnext]
    rw [if_neg (by omega), ih hrest]
    simp only [bind, Except.bind, pure, Except.pure, Nat.add_sub_cancel_left]

theorem takeContainer_append {total : Nat} {next : Option Container} {c : Container} (h : DirEntry total next c)
    (rest : Bytes) : takeContainer (digestContainer c ++ rest) = .ok ((c.key, c.card, c.start), rest) := by
  have hk := h.key_lt
  have hc := h.card_pos
  have hs := h.start_lt
  unfold takeContainer digestContainer
  rw [List.append_assoc, List.append_assoc, takeLe_append (by omega)]
  simp only [bind, Except.bind]
  rw [takeLe_append (by omega)]
  simp only
  rw [takeLe_append (by omega)]
  simp only [pure, Except.pure, Nat.sub_add_cancel hc.1]

/-- The directory that a digest of the second version keeps of a tail. -/
def residentDir (rrsf : Bytes) (c : Category) : Option (List Container) :=
  if c.range.tailSize = 0 then none
  else
    (parseDir (slice rrsf c.range.tailOff c.range.tailSize) c.range.tailSize).filter fun dir => !dir.isEmpty

theorem parseDir_of_residentDir {rrsf : Bytes} {c : Category} {dir : List Container} (h : residentDir rrsf c = some dir) :
    parseDir (slice rrsf c.range.tailOff c.range.tailSize) c.range.tailSize = some dir := by
  unfold residentDir at h
  split at h
  · cases h
  · exact (Option.filter_eq_some_iff.mp h).1

/-- **A tail directory is read back**, unless it lists nothing. -/
theorem takeTailDir_append {rrsf : Bytes} {c : Category} {out : Bytes} (h : tailDirectory rrsf c = .ok out)
    (rest : Bytes) : takeTailDir c.range.tailSize (out ++ rest) = .ok (residentDir rrsf c, rest) := by
  have hnone : takeTailDir c.range.tailSize (le 2 0 ++ rest) = .ok (none, rest) := by
    unfold takeTailDir
    rw [takeLe_append (by decide)]
    rfl
  unfold tailDirectory at h
  simp only at h
  unfold residentDir
  split at h
  · next hzero =>
    obtain rfl := Except.ok.inj h
    rw [if_pos hzero, hnone]
  · next hpos =>
    rw [if_neg hpos]
    split at h
    · cases h
    split at h
    · next dir hdir =>
      split at h
      · cases h
      · next hlen =>
        obtain rfl := Except.ok.inj h
        rw [hdir]
        by_cases hnil : dir = []
        · rw [hnil]
          exact hnone
        · have hne : (!dir.isEmpty) = true := by simpa using hnil
          have hfilter : (some dir).filter (fun dir => !dir.isEmpty) = some dir := by
            rw [Option.filter_some, if_pos hne]
          have hentry := fun i c => @parseDir_entry _ _ _ hdir i c
          have hout : collect (dir.map fun c => (.ok (digestContainer c) : Except IndexError Bytes)) =
              .ok (dir.map digestContainer) := collect_map_ok fun _ _ => rfl
          have hmany := @takeMany_append _ _ _ takeContainer (fun c : Container => (c.key, c.card, c.start)) _ _ hout
            (fun c hc out ho rest => by
              obtain rfl := Except.ok.inj ho
              obtain ⟨i, hi, rfl⟩ := List.getElem_of_mem hc
              exact takeContainer_append (hentry i _ (List.getElem?_eq_getElem hi)) rest) rest
          rw [← List.flatMap_def] at hmany
          unfold takeTailDir
          rw [List.append_assoc, takeLe_append (by omega)]
          simp only [bind, Except.bind]
          rw [if_neg (by simpa using hnil), hmany]
          simp only
          rw [closeDir_eq (closed_of_entries hentry), hfilter]
          rfl
    · next hdir =>
      obtain rfl := Except.ok.inj h
      rw [hdir, hnone]
      rfl

/-! ## Categories and fields -/

/-- The numbers of a category fit their fields, and its tail follows its head. -/
structure Category.Fits (c : Category) : Prop where
  count_lt : c.count < 2 ^ 32
  headOff_lt : c.range.headOff + c.range.headSize < u64Bound
  headSize_lt : c.range.headSize < 2 ^ 32
  tailSize_lt : c.range.tailSize < 2 ^ 32
  tailOff : c.range.tailOff = c.range.headOff + c.range.headSize

/-- The numbers of a category are such as a parser reads. -/
structure Category.Digestible (c : Category) : Prop where
  count_lt : c.count < 2 ^ 32
  headOff_lt : c.range.headOff < u64Bound
  headSize_lt : c.range.headSize < 2 ^ 32
  tailSize_lt : c.range.tailSize < 2 ^ 32
  tailOff : c.range.tailOff = saturatingAdd c.range.headOff c.range.headSize

theorem Category.Fits.digestible {c : Category} (h : c.Fits) : c.Digestible where
  count_lt := h.count_lt
  headOff_lt := Nat.lt_of_le_of_lt (Nat.le_add_right _ _) h.headOff_lt
  headSize_lt := h.headSize_lt
  tailSize_lt := h.tailSize_lt
  tailOff := by
    have hlt := h.headOff_lt
    have hb : u64Bound = 2 ^ 64 := rfl
    rw [h.tailOff]
    unfold saturatingAdd usizeMax
    omega

/-- A category as a digest keeps it. -/
def keptCategory (dirOf : Category → Option (List Container)) (c : Category) : Category :=
  ⟨c.name, c.count, c.range, ∅, dirOf c⟩

/-- A field as a digest of `k` keeps it. -/
def keptField (dirOf : Category → Option (List Container)) (k : Nat) (f : Field) : Field :=
  ⟨f.name, (topCategories k f.categories).map (keptCategory dirOf)⟩

theorem mem_topCategories {k : Nat} {cats : List Category} {c : Category} (h : c ∈ topCategories k cats) : c ∈ cats :=
  (sortByKey_perm _ _).subset (List.mem_of_mem_take h)

/-- What `put` writes of a category's tail is read back by `take`. -/
def ReadsBack (put : Category → Except IndexError Bytes) (takeDir : TakeDir)
    (dirOf : Category → Option (List Container)) : Prop :=
  ∀ c out, put c = .ok out → ∀ rest, takeDir c.range.tailSize (out ++ rest) = .ok (dirOf c, rest)

section

variable {put : Category → Except IndexError Bytes} {takeDir : TakeDir} {dirOf : Category → Option (List Container)}

theorem takeCategory_append (hd : ReadsBack put takeDir dirOf) {c : Category} (hc : c.Digestible) {out : Bytes}
    (h : digestCategory put c = .ok out) (rest : Bytes) :
    takeCategory takeDir (out ++ rest) = .ok (keptCategory dirOf c, rest) := by
  unfold digestCategory at h
  cases hn : digestName c.name with
  | error e =>
    rw [hn] at h
    cases h
  | ok name =>
    cases ht : put c with
    | error e =>
      rw [hn, ht] at h
      cases h
    | ok tail =>
      rw [hn, ht] at h
      obtain rfl := Except.ok.inj h
      have hcount := hc.count_lt
      have hoff := hc.headOff_lt
      have hhead := hc.headSize_lt
      have htail := hc.tailSize_lt
      have hb : u64Bound = 2 ^ 64 := rfl
      have hsat : saturatingAdd c.range.headOff c.range.headSize = c.range.tailOff := hc.tailOff.symm
      unfold takeCategory
      simp only [List.append_assoc]
      rw [takeName_append hn]
      simp only [bind, Except.bind]
      rw [takeLe_append (by omega)]
      simp only
      rw [takeLe_append (by omega)]
      simp only
      rw [takeLe_append (by omega)]
      simp only
      rw [takeLe_append (by omega)]
      simp only
      rw [hd c tail ht]
      simp only [pure, Except.pure, hsat]
      rfl

theorem takeField_append (hd : ReadsBack put takeDir dirOf) {k : Nat} (hk : k < 2 ^ 16) {f : Field}
    (hf : ∀ c ∈ f.categories, c.Digestible) {out : Bytes} (h : digestField put k f = .ok out) (rest : Bytes) :
    takeField takeDir (out ++ rest) = .ok (keptField dirOf k f, rest) := by
  unfold digestField at h
  cases hn : digestName f.name with
  | error e =>
    rw [hn] at h
    cases h
  | ok name =>
    cases hr : collect ((topCategories k f.categories).map (digestCategory put)) with
    | error e =>
      rw [hn] at h
      simp only [bind, Except.bind, hr] at h
      cases h
    | ok rows =>
      rw [hn] at h
      simp only [bind, Except.bind, hr] at h
      obtain rfl := Except.ok.inj h
      have hlen : (topCategories k f.categories).length < 2 ^ 16 := by
        rw [topCategories, List.length_take]
        omega
      have hcats := takeMany_append hr (fun c hc out ho rest =>
        takeCategory_append hd (hf c (mem_topCategories hc)) ho rest) rest
      unfold takeField
      simp only [List.append_assoc]
      rw [takeName_append hn]
      simp only [bind, Except.bind]
      rw [takeLe_append (by omega)]
      simp only
      rw [hcats]
      rfl

/-- The digest of a sidecar with these fields is read back. -/
theorem parseDigestWith_digest (hd : ReadsBack put takeDir dirOf) {rrsf payload : Bytes} {k metaLen : Nat}
    {fields : List Field} (hlen : rrsfBootLen (slice rrsf 0 rrsfHeaderSize) = .ok metaLen)
    (hmeta : fromMeta (slice rrsf 0 metaLen) = .ok fields) (hf : ∀ f ∈ fields, ∀ c ∈ f.categories, c.Digestible)
    (h : digestWith put rrsf k = .ok payload) :
    parseDigestWith takeDir payload =
      .ok (min k (2 ^ 16 - 1), fields.map (keptField dirOf (min k (2 ^ 16 - 1)))) := by
  unfold digestWith at h
  split at h
  · cases h
  simp only [bind, Except.bind, hlen] at h
  split at h
  · cases h
  simp only [hmeta] at h
  split at h
  · cases h
  next hcount =>
  cases hr : collect (fields.map (digestField put (min k (2 ^ 16 - 1)))) with
  | error e =>
    rw [hr] at h
    cases h
  | ok rows =>
    rw [hr] at h
    obtain rfl := Except.ok.inj h
    have hk : min k (2 ^ 16 - 1) < 2 ^ 16 := by omega
    have hfields := takeMany_append hr (fun f hmem out ho rest =>
      takeField_append hd hk (hf f hmem) ho rest) []
    rw [List.append_nil] at hfields
    unfold parseDigestWith
    rw [takeLe_append (by omega)]
    simp only [bind, Except.bind]
    rw [takeLe_append (by omega)]
    simp only
    rw [hfields]
    rfl

end

/-! ## The digest of a sidecar -/

/-- A read that answers bytes answers those of its range. -/
theorem MemoryFetch.answer_ok {f : MemoryFetch} {offset len : Nat} {b : Bytes} (h : f.answer offset len = .ok b) :
    f.InFile offset len ∧ b = slice f.bytes offset len := by
  unfold answer at h
  split at h
  · cases h
  · next hm =>
    split at h
    · next hr => exact ⟨⟨by simpa using hm, hr.1, hr.2⟩, (Except.ok.inj h).symm⟩
    · cases h

/-- The meta region of a sidecar that opens. -/
theorem FacetIndex.meta_of_openMeta {f : MemoryFetch} {fi : FacetIndex} (h : Settles (FacetIndex.openMeta f) (.ok fi)) :
    ∃ metaLen, rrsfBootLen (slice f.bytes 0 rrsfHeaderSize) = .ok metaLen ∧
      fromMeta (slice f.bytes 0 metaLen) = .ok fi.fields := by
  have hrun := congrArg Prod.fst h.calm
  have hread : ∀ off len : Nat, (f.read off len).run Schedule.calm = (f.answer off len, Schedule.calm) :=
    fun off len => (Settles.access (f.answer off len)).calm
  unfold openMeta at hrun
  rw [run_bind, hread] at hrun
  cases hheader : f.answer 0 rrsfHeaderSize with
  | error e =>
    rw [hheader] at hrun
    cases hrun
  | ok header =>
    rw [hheader] at hrun
    simp only [run_bind, run_ofOutcome] at hrun
    obtain ⟨-, rfl⟩ := MemoryFetch.answer_ok hheader
    cases hlen : rrsfBootLen (slice f.bytes 0 rrsfHeaderSize) with
    | error e =>
      rw [hlen] at hrun
      cases hrun
    | ok metaLen =>
      rw [hlen] at hrun
      simp only [hread] at hrun
      cases hbuf : f.answer 0 metaLen with
      | error e =>
        rw [hbuf] at hrun
        cases hrun
      | ok buf =>
        rw [hbuf] at hrun
        obtain ⟨-, rfl⟩ := MemoryFetch.answer_ok hbuf
        refine ⟨metaLen, rfl, ?_⟩
        simp only at hrun
        unfold fromBoot at hrun
        cases hmeta : fromMeta (slice f.bytes 0 metaLen) with
        | error e =>
          rw [hmeta] at hrun
          cases hrun
        | ok fields =>
          rw [hmeta] at hrun
          rw [← Except.ok.inj hrun]

section

variable [Roaring] {fi : FacetIndex} {m : FacetMap} {headBoundary : Nat} {file : Bytes}

/-- The categories of a written sidecar fit. -/
theorem FacetIndex.SidecarOf.fits (h : fi.SidecarOf m headBoundary file) : ∀ f ∈ fi.fields, ∀ c ∈ f.categories, c.Fits := by
  intro f hf c hc
  obtain ⟨x, -, hcx⟩ := h.category hf hc
  have hlt := h.length_lt
  obtain ⟨hhead, hheadBytes⟩ := hcx.head
  obtain ⟨htail, htailBytes⟩ := hcx.tail
  have h1 : c.range.headSize < 2 ^ 30 := by
    rw [← length_slice _ _ _ hhead, hheadBytes]
    exact Roaring.length_serialize_lt _
  have h2 : c.range.tailSize < 2 ^ 30 := by
    rw [← length_slice _ _ _ htail, htailBytes]
    exact Roaring.length_serialize_lt _
  have hcount : c.count = x.2.len % 2 ^ 32 := hcx.count
  have htailOff := hcx.tailOff
  exact ⟨by rw [hcount]; exact Nat.mod_lt _ (by decide), by omega, by omega, by omega, htailOff⟩

/-- **A first-version digest is read back.** -/
theorem parseFacetDigest_digest (h : fi.SidecarOf m headBoundary file)
    (hopen : Settles (FacetIndex.openMeta (MemoryFetch.new file)) (.ok fi)) {k : Nat} {payload : Bytes}
    (hp : facetDigest file k = .ok payload) : parseFacetDigest payload =
      .ok (min k (2 ^ 16 - 1), fi.fields.map (keptField (fun _ => none) (min k (2 ^ 16 - 1)))) := by
  obtain ⟨metaLen, hlen, hmeta⟩ := FacetIndex.meta_of_openMeta hopen
  refine parseDigestWith_digest (fun c out ho rest => ?_) hlen hmeta (fun f hf c hc => (h.fits f hf c hc).digestible) hp
  obtain rfl := Except.ok.inj ho
  rfl

/-- **A second-version digest is read back**, with the directories of the tails that have one. -/
theorem parseFacetDigestV2_digest (h : fi.SidecarOf m headBoundary file)
    (hopen : Settles (FacetIndex.openMeta (MemoryFetch.new file)) (.ok fi)) {k : Nat} {payload : Bytes}
    (hp : facetDigestV2 file k = .ok payload) : parseFacetDigestV2 payload =
      .ok (min k (2 ^ 16 - 1), fi.fields.map (keptField (residentDir file) (min k (2 ^ 16 - 1)))) := by
  obtain ⟨metaLen, hlen, hmeta⟩ := FacetIndex.meta_of_openMeta hopen
  exact parseDigestWith_digest (fun c out ho rest => takeTailDir_append ho rest) hlen hmeta (fun f hf c hc => (h.fits f hf c hc).digestible) hp

end

/-! ## The length of a digest -/

/-- Fewer parts, none of them longer, take no more bytes. -/
theorem collect_sublist {α : Type} {f g : α → Except IndexError Bytes} {xs ys : List α} (hs : ys.Sublist xs)
    (h : ∀ x ∈ xs, ∀ out, f x = .ok out → ∃ out', g x = .ok out' ∧ out'.length ≤ out.length) {outs : List Bytes}
    (hout : collect (xs.map f) = .ok outs) :
    ∃ outs', collect (ys.map g) = .ok outs' ∧ outs'.flatten.length ≤ outs.flatten.length := by
  induction hs generalizing outs with
  | slnil => exact ⟨[], rfl, Nat.zero_le _⟩
  | @cons ys xs x hs ih =>
    rw [List.map_cons] at hout
    obtain ⟨out, os, hx, hxs, rfl⟩ := collect_cons_ok hout
    obtain ⟨outs', houts', hle⟩ := ih (fun y hy => h y (List.mem_cons_of_mem _ hy)) hxs
    refine ⟨outs', houts', ?_⟩
    rw [List.flatten_cons, List.length_append]
    omega
  | @cons_cons ys xs x hs ih =>
    rw [List.map_cons] at hout
    obtain ⟨out, os, hx, hxs, rfl⟩ := collect_cons_ok hout
    obtain ⟨outs', houts', hle⟩ := ih (fun y hy => h y (List.mem_cons_of_mem _ hy)) hxs
    obtain ⟨out', hout', hle'⟩ := h x List.mem_cons_self out hx
    refine ⟨out' :: outs', ?_, ?_⟩
    · rw [List.map_cons, hout']
      simp only [collect, houts']
    · rw [List.flatten_cons, List.flatten_cons, List.length_append, List.length_append]
      omega

section

variable {put put' : Category → Except IndexError Bytes}

theorem length_digestCategory {c : Category} {out : Bytes} (h : digestCategory put c = .ok out)
    (hput : ∀ o, put c = .ok o → ∃ o', put' c = .ok o' ∧ o'.length ≤ o.length) :
    ∃ out', digestCategory put' c = .ok out' ∧ out'.length ≤ out.length := by
  unfold digestCategory at h ⊢
  cases hn : digestName c.name with
  | error e =>
    rw [hn] at h
    cases h
  | ok name =>
    cases ht : put c with
    | error e =>
      rw [hn, ht] at h
      cases h
    | ok tail =>
      rw [hn, ht] at h
      obtain rfl := Except.ok.inj h
      obtain ⟨tail', ht', hle⟩ := hput tail ht
      rw [ht']
      refine ⟨_, rfl, ?_⟩
      simp only [List.length_append, length_le]
      omega

theorem length_digestField {k k' : Nat} (hk : k' ≤ k) {f : Field} {out : Bytes} (h : digestField put k f = .ok out)
    (hput : ∀ c o, put c = .ok o → ∃ o', put' c = .ok o' ∧ o'.length ≤ o.length) :
    ∃ out', digestField put' k' f = .ok out' ∧ out'.length ≤ out.length := by
  unfold digestField at h ⊢
  cases hn : digestName f.name with
  | error e =>
    rw [hn] at h
    cases h
  | ok name =>
    cases hr : collect ((topCategories k f.categories).map (digestCategory put)) with
    | error e =>
      rw [hn] at h
      simp only [bind, Except.bind, hr] at h
      cases h
    | ok rows =>
      rw [hn] at h
      simp only [bind, Except.bind, hr] at h
      obtain rfl := Except.ok.inj h
      have hsub : (topCategories k' f.categories).Sublist (topCategories k f.categories) :=
        List.take_sublist_take_left hk
      obtain ⟨rows', hr', hle⟩ := collect_sublist hsub
        (fun c _ o ho => length_digestCategory ho (hput c)) hr
      simp only [bind, Except.bind, hr']
      refine ⟨_, rfl, ?_⟩
      simp only [List.length_append, length_le]
      omega

/-- A digest of fewer categories, with less of each, is no longer. -/
theorem length_digestWith {rrsf payload : Bytes} {k k' : Nat} (hk : k' ≤ k) (h : digestWith put rrsf k = .ok payload)
    (hput : ∀ c o, put c = .ok o → ∃ o', put' c = .ok o' ∧ o'.length ≤ o.length) :
    ∃ payload', digestWith put' rrsf k' = .ok payload' ∧ payload'.length ≤ payload.length := by
  unfold digestWith at h ⊢
  split at h
  · cases h
  next hlen =>
  rw [if_neg hlen]
  cases hboot : rrsfBootLen (slice rrsf 0 rrsfHeaderSize) with
  | error e =>
    rw [hboot] at h
    cases h
  | ok metaLen =>
    rw [hboot] at h
    simp only [bind, Except.bind] at h ⊢
    split at h
    · cases h
    next hmetaLen =>
    rw [if_neg hmetaLen]
    cases hmeta : fromMeta (slice rrsf 0 metaLen) with
    | error e =>
      rw [hmeta] at h
      cases h
    | ok fields =>
      rw [hmeta] at h
      simp only at h ⊢
      split at h
      · cases h
      next hcount =>
      rw [if_neg hcount]
      cases hr : collect (fields.map (digestField put (min k (2 ^ 16 - 1)))) with
      | error e =>
        rw [hr] at h
        cases h
      | ok rows =>
        rw [hr] at h
        obtain rfl := Except.ok.inj h
        have hmin : min k' (2 ^ 16 - 1) ≤ min k (2 ^ 16 - 1) := by omega
        obtain ⟨rows', hr', hle⟩ := collect_sublist (List.Sublist.refl fields)
          (fun f _ o ho => length_digestField hmin ho hput) hr
        rw [hr']
        refine ⟨_, rfl, ?_⟩
        simp only [List.length_append, length_le]
        omega

end

/-- Where a digest of `k` fits, so does a first-version digest of fewer categories. -/
theorem facetDigest_of_le {rrsf payload : Bytes} {k k' : Nat} (hk : k' ≤ k)
    (h : facetDigest rrsf k = .ok payload ∨ facetDigestV2 rrsf k = .ok payload) :
    ∃ payload', facetDigest rrsf k' = .ok payload' ∧ payload'.length ≤ payload.length := by
  rcases h with h | h
  · exact length_digestWith hk h fun _ o _ => ⟨[], rfl, Nat.zero_le _⟩
  · exact length_digestWith hk h fun _ o _ => ⟨[], rfl, Nat.zero_le _⟩

/-! ## The meta a digest stands for -/

namespace FacetIndex

/-- The field names are distinct, and the category names of a field. -/
structure Named (fi : FacetIndex) : Prop where
  fields : (fi.fields.map Field.name).Nodup
  cats : ∀ f ∈ fi.fields, (f.categories.map Category.name).Nodup

/-- The meta parsed from a digest of `k`. -/
def digested (fi : FacetIndex) (dirOf : Category → Option (List Container)) (k : Nat) : FacetIndex :=
  ⟨fi.fetch, fi.fields.map (keptField dirOf k)⟩

theorem Named.digested {fi : FacetIndex} (h : fi.Named) (dirOf : Category → Option (List Container)) (k : Nat) :
    (fi.digested dirOf k).Named := by
  constructor
  · rw [FacetIndex.digested, List.map_map]
    exact h.fields
  · intro f hf
    obtain ⟨g, hg, rfl⟩ := List.mem_map.mp hf
    have hnames : ((keptField dirOf k g).categories.map Category.name) =
        (topCategories k g.categories).map Category.name := by
      rw [keptField, List.map_map]
      rfl
    rw [hnames]
    exact ((sortByKey_perm _ _).map Category.name |>.nodup_iff.mpr (h.cats g hg)).sublist
      ((List.take_sublist _ _).map Category.name)

variable [Roaring] {fi : FacetIndex} {m : FacetMap} {headBoundary : Nat} {file : Bytes}

theorem SidecarOf.named (h : fi.SidecarOf m headBoundary file) : fi.Named := by
  have hnames : ∀ {fs : List Field} {gs : List FacetField}, List.Forall₂ (FieldOf file) fs gs →
      fs.map Field.name = gs.map FacetField.name := by
    intro fs gs hfg
    induction hfg with
    | nil => rfl
    | cons hf _ ih => rw [List.map_cons, List.map_cons, ih, hf.name]
  constructor
  · rw [hnames h.fields, facetFields, List.map_map]
    exact m.keys_nodup
  · intro f hf
    obtain ⟨g, hg, hfg⟩ := exists_partner h.fields hf
    obtain ⟨y, hy, rfl⟩ := List.mem_map.mp hg
    obtain ⟨cs, hperm, hcs⟩ := hfg.cats
    have hcats : ∀ {xs : List Category} {ys : List FacetCategory}, List.Forall₂ (CategoryOf file) xs ys →
        xs.map Category.name = ys.map FacetCategory.name := by
      intro xs ys hxy
      induction hxy with
      | nil => rfl
      | cons hc _ ih => rw [List.map_cons, List.map_cons, ih, hc.name]
    rw [hcats hcs]
    refine (hperm.map FacetCategory.name).nodup_iff.mpr ?_
    rw [List.map_map]
    exact y.2.keys_nodup

/-- **The categories of a digest hold their postings.** -/
theorem SidecarOf.digested_postsHold (hb : bucketSize ≤ headBoundary) (h : fi.SidecarOf m headBoundary file)
    {dirOf : Category → Option (List Container)} (hdir : ∀ c dir, dirOf c = some dir →
      parseDir (slice file c.range.tailOff c.range.tailSize) c.range.tailSize = some dir) (k : Nat) :
    (fi.digested dirOf k).PostsHold fi.headDocs fi.tailDocs := by
  intro f hf c hc
  obtain ⟨g, hg, rfl⟩ := List.mem_map.mp hf
  obtain ⟨d, hd, rfl⟩ := List.mem_map.mp hc
  obtain ⟨hposts, -, -⟩ := h.posts hb hg (mem_topCategories hd)
  refine ⟨hposts.headAt, hposts.tailAt, hposts.le_tail, Or.inl rfl, fun dir hsome => ?_⟩
  show parseDir (slice fi.fetch.bytes d.range.tailOff d.range.tailSize) d.range.tailSize = some dir
  rw [h.fetch]
  exact hdir d dir hsome

theorem SidecarOf.postsHold (hb : bucketSize ≤ headBoundary) (h : fi.SidecarOf m headBoundary file) :
    fi.PostsHold fi.headDocs fi.tailDocs := fun _ hf _ hc => (h.posts hb hf hc).1

end FacetIndex

end RoaringRange
