import RoaringRange.FacetDigest

/-!
# What a digest says of its sidecar (`facet.rs`)

A digest is written from a sidecar as `from_meta` reads it, and read by a parser of its own.  Whatever the
bytes of the sidecar, the parser of the digest gives back what the reader of the sidecar has

    for every field the first min k 65535 categories, by count and then by name       (facetDigest_roundTrip)

as the fields of a digest are counted in 16 bits; of a field with more categories no `k` keeps them all
                                                                                      (manyCategories_cut)
-/

namespace RoaringRange

open ByteString Faults Slices

/-! ## The sidecar's own parser -/

/-- Whatever its bytes are, the numbers of a parsed category fit a digest. -/
theorem parseCategory_digestible {buf : Bytes} {strBlob strBytes b : Nat} {c : Category}
    (h : parseCategory buf strBlob strBytes b = .ok c) : c.Digestible := by
  unfold parseCategory at h
  obtain ⟨name, -, h⟩ := exists_of_bind_ok h
  obtain rfl := Except.ok.inj h
  exact ⟨getLe_lt 4 _ _, getLe_lt 8 _ _, getLe_lt 4 _ _, getLe_lt 4 _ _, rfl⟩

/-- The categories of a parsed field are parsed categories. -/
theorem mem_categories_of_parseField {buf : Bytes} {strBlob strBytes b : Nat} {cats : List Category} {f : Field}
    (h : parseField buf strBlob strBytes cats b = .ok f) {c : Category} (hc : c ∈ f.categories) : c ∈ cats := by
  unfold parseField at h
  simp only at h
  split at h
  · cases h
  · obtain ⟨name, -, h⟩ := exists_of_bind_ok h
    obtain rfl := Except.ok.inj h
    exact List.mem_of_mem_take (List.mem_of_mem_drop hc)

theorem fromMeta_digestible {buf : Bytes} {fields : List Field} (h : fromMeta buf = .ok fields) :
    ∀ f ∈ fields, ∀ c ∈ f.categories, c.Digestible := by
  intro f hf c hc
  unfold fromMeta at h
  split at h
  · cases h
  obtain ⟨metaLen, -, h⟩ := exists_of_bind_ok h
  split at h
  · cases h
  obtain ⟨cats, hcats, h⟩ := exists_of_bind_ok h
  obtain ⟨i, -, hi⟩ := List.mem_map.mp (mem_of_collect_ok h hf)
  obtain ⟨j, -, hj⟩ := List.mem_map.mp (mem_of_collect_ok hcats (mem_categories_of_parseField hi hc))
  exact parseCategory_digestible hj

/-- The meta region lies below the addresses of a machine word. -/
theorem rrsfBootLen_lt {header : Bytes} {len : Nat} (h : rrsfBootLen header = .ok len) :
    rrsfHeaderSize ≤ len ∧ len < u64Bound := by
  unfold rrsfBootLen at h
  split at h
  · cases h
  split at h
  · cases h
  split at h
  · cases h
  simp only at h
  split at h
  · next hlt =>
    obtain rfl := Except.ok.inj h
    exact ⟨by omega, hlt⟩
  · cases h

/-- The meta region of a sidecar lies in its file. -/
theorem le_length_of_fromMeta {file : Bytes} {metaLen : Nat} {fields : List Field}
    (hlen : rrsfBootLen (slice file 0 rrsfHeaderSize) = .ok metaLen) (hfields : fromMeta (slice file 0 metaLen) = .ok fields) :
    rrsfHeaderSize ≤ file.length ∧ metaLen ≤ file.length := by
  have hle := (rrsfBootLen_lt hlen).1
  have hcut : (slice file 0 metaLen).length = min metaLen file.length := by
    rw [slice_zero, List.length_take]
  unfold fromMeta at hfields
  split at hfields
  · cases hfields
  rw [slice_slice _ _ _ _ _ (by omega)] at hfields
  obtain ⟨metaLen', hlen', hfields⟩ := exists_of_bind_ok hfields
  obtain rfl := Except.ok.inj (hlen.symm.trans hlen')
  split at hfields
  · cases hfields
  · omega

/-- What there is to a sidecar of which a digest is written. -/
theorem meta_of_digestWith {put : Category → Except IndexError Bytes} {rrsf payload : Bytes} {k : Nat}
    (h : digestWith put rrsf k = .ok payload) : ∃ metaLen fields, rrsfBootLen (slice rrsf 0 rrsfHeaderSize) = .ok metaLen ∧
      fromMeta (slice rrsf 0 metaLen) = .ok fields ∧
      Settles (FacetIndex.openMeta (MemoryFetch.new rrsf)) (.ok ⟨MemoryFetch.new rrsf, fields⟩) := by
  unfold digestWith at h
  split at h
  · cases h
  next hshort =>
  obtain ⟨metaLen, hlen, h⟩ := exists_of_bind_ok h
  split at h
  · cases h
  next htrunc =>
  obtain ⟨fields, hfields, -⟩ := exists_of_bind_ok h
  refine ⟨metaLen, fields, hlen, hfields, ?_⟩
  have hlt := rrsfBootLen_lt hlen
  have hread : ∀ len, len ≤ metaLen → (MemoryFetch.new rrsf).InFile 0 len := by
    intro len hle
    exact ⟨rfl, by omega, show 0 + len ≤ rrsf.length by omega⟩
  unfold FacetIndex.openMeta
  refine (MemoryFetch.settles_read (hread rrsfHeaderSize hlt.1)).bind ?_
  have hnew : (MemoryFetch.new rrsf).bytes = rrsf := rfl
  rw [hnew, hlen]
  refine (Settles.ofOutcome (.ok metaLen)).bind ?_
  refine (MemoryFetch.settles_read (hread metaLen (Nat.le_refl _))).bind ?_
  rw [hnew, FacetIndex.fromBoot, hfields]
  exact Settles.ofOutcome _

/-! ## What a digest keeps -/

/-- The order of a digest: by descending count, then by name. -/
def DigestLe (c d : Category) : Prop := d.count < c.count ∨ c.count = d.count ∧ c.name ≤ d.name

/-- A category of a digest has the name, the count and the posting ranges of the sidecar's. -/
structure DigestedCategory (tailDir : Category → Option (List Container) → Prop) (c d : Category) : Prop where
  name : d.name = c.name
  count : d.count = c.count
  range : d.range = c.range
  head : d.head = ∅
  dir : tailDir c d.tailDir

/-- A field of a digest of `k` has the first `k` categories of the sidecar's. -/
structure DigestedField (tailDir : Category → Option (List Container) → Prop) (k : Nat) (f g : Field) : Prop where
  name : g.name = f.name
  cats : ∃ sorted : List Category, sorted.Perm f.categories ∧ sorted.Pairwise DigestLe ∧
    List.Forall₂ (DigestedCategory tailDir) (sorted.take k) g.categories

/-- The first version has no tail directories. -/
def NoTailDir (_ : Category) (dir : Option (List Container)) : Prop := dir = none

/-- The second version has the directory that `parse_dir` reads from the tail; it has none of a tail that is
empty, of no bytes or of no containers, or not seekable. -/
structure TailDirOf (rrsf : Bytes) (c : Category) (dir : Option (List Container)) : Prop where
  eq_parseDir : ∀ d, dir = some d → parseDir (slice rrsf c.range.tailOff c.range.tailSize) c.range.tailSize = some d
  none_iff : dir = none ↔ c.range.tailSize = 0 ∨
    parseDir (slice rrsf c.range.tailOff c.range.tailSize) c.range.tailSize = some [] ∨
    parseDir (slice rrsf c.range.tailOff c.range.tailSize) c.range.tailSize = none

theorem residentDir_tailDirOf (rrsf : Bytes) (c : Category) : TailDirOf rrsf c (residentDir rrsf c) where
  eq_parseDir _ h := parseDir_of_residentDir h
  none_iff := by
    unfold residentDir
    split
    · next h => exact ⟨fun _ => Or.inl h, fun _ => rfl⟩
    · next h =>
      cases parseDir (slice rrsf c.range.tailOff c.range.tailSize) c.range.tailSize with
      | none => exact ⟨fun _ => Or.inr (Or.inr rfl), fun _ => rfl⟩
      | some dir =>
        cases dir with
        | nil => exact ⟨fun _ => Or.inr (Or.inl rfl), fun _ => rfl⟩
        | cons e es =>
          constructor
          · intro hnone
            cases hnone
          · rintro (hzero | hnil | hnone)
            · exact absurd hzero h
            · cases hnil
            · cases hnone

theorem keptField_digested {tailDir : Category → Option (List Container) → Prop}
    {dirOf : Category → Option (List Container)} (h : ∀ c, tailDir c (dirOf c)) (k : Nat) (f : Field) :
    DigestedField tailDir k f (keptField dirOf k f) where
  name := rfl
  cats := by
    refine ⟨_, sortByKey_perm _ _, (sortByKey_sorted (fun c : Category => toLex (OrderDual.toDual c.count, c.name)) f.categories).imp fun {c d} hle => ?_, ?_⟩
    · rcases Prod.Lex.toLex_le_toLex.mp hle with hlt | ⟨heq, hname⟩
      · exact Or.inl hlt
      · exact Or.inr ⟨heq, hname⟩
    · show List.Forall₂ _ _ ((topCategories k f.categories).map (keptCategory dirOf))
      rw [List.forall₂_map_right_iff]
      exact List.forall₂_same.mpr fun c _ => ⟨rfl, rfl, rfl, rfl, h c⟩

/-- **Facet digest round trip**: the parsed payload says of every field of the sidecar its first `min k 65535`
categories, and the second version their tail directories. -/
theorem facetDigest_roundTrip (rrsf : Bytes) (k : Nat) (payload : Bytes) :
    (facetDigest rrsf k = .ok payload → ∃ fi kept, Settles (FacetIndex.openMeta (MemoryFetch.new rrsf)) (.ok fi) ∧
      parseFacetDigest payload = .ok (min k 65535, kept) ∧
      List.Forall₂ (DigestedField NoTailDir (min k 65535)) fi.fields kept) ∧
    (facetDigestV2 rrsf k = .ok payload → ∃ fi kept, Settles (FacetIndex.openMeta (MemoryFetch.new rrsf)) (.ok fi) ∧
      parseFacetDigestV2 payload = .ok (min k 65535, kept) ∧
      List.Forall₂ (DigestedField (TailDirOf rrsf) (min k 65535)) fi.fields kept) := by
  constructor
  · intro h
    obtain ⟨metaLen, fields, hlen, hfields, hopen⟩ := meta_of_digestWith h
    have hreads : ReadsBack (fun _ => .ok []) (fun _ b => .ok (none, b)) (fun _ => none) := by
      intro c out ho rest
      obtain rfl := Except.ok.inj ho
      rfl
    refine ⟨_, _, hopen, parseDigestWith_digest hreads hlen hfields (fromMeta_digestible hfields) h, ?_⟩
    rw [List.forall₂_map_right_iff]
    exact List.forall₂_same.mpr fun f _ => keptField_digested (fun c => show NoTailDir c none from rfl) _ f
  · intro h
    obtain ⟨metaLen, fields, hlen, hfields, hopen⟩ := meta_of_digestWith h
    refine ⟨_, _, hopen, parseDigestWith_digest (fun c out ho rest => takeTailDir_append ho rest) hlen hfields
      (fromMeta_digestible hfields) h, ?_⟩
    rw [List.forall₂_map_right_iff]
    exact List.forall₂_same.mpr fun f _ => keptField_digested (residentDir_tailDirOf rrsf) _ f

/-! ## A digest of a written sidecar -/

section

variable [Roaring] {fi : FacetIndex} {m : FacetMap} {headBoundary : Nat} {file : Bytes}

/-- The names of a written sidecar are those of its map. -/
theorem FacetIndex.SidecarOf.name_lt (h : fi.SidecarOf m headBoundary file) (hm : m.Fits) :
    ∀ f ∈ fi.fields, (utf8 f.name).length < 2 ^ 16 ∧ ∀ c ∈ f.categories, (utf8 c.name).length < 2 ^ 16 := by
  intro f hf
  obtain ⟨g, hg, hfg⟩ := exists_partner h.fields hf
  obtain ⟨x, hx, rfl⟩ := List.mem_map.mp hg
  obtain ⟨hname, hcats⟩ := hm.name_lt x hx
  refine ⟨by rw [hfg.name]; exact hname, fun c hc => ?_⟩
  obtain ⟨cs, hperm, hcs⟩ := hfg.cats
  obtain ⟨d, hd, hcd⟩ := exists_partner hcs hc
  obtain ⟨y, hy, rfl⟩ := List.mem_map.mp (hperm.subset hd)
  rw [hcd.name]
  exact hcats y hy

/-- A sidecar of no more fields than 16 bits count has a digest. -/
theorem exists_facetDigest (hm : m.Fits) (hfew : fi.fields.length < 2 ^ 16) (h : fi.SidecarOf m headBoundary file)
    (hopen : Settles (FacetIndex.openMeta (MemoryFetch.new file)) (.ok fi)) (k : Nat) :
    ∃ payload, facetDigest file k = .ok payload := by
  obtain ⟨metaLen, hlen, hfields⟩ : ∃ metaLen, rrsfBootLen (slice file 0 rrsfHeaderSize) = .ok metaLen ∧
    fromMeta (slice file 0 metaLen) = .ok fi.fields := FacetIndex.meta_of_openMeta hopen
  have hle := le_length_of_fromMeta hlen hfields
  have hname : ∀ name : String, (utf8 name).length < 2 ^ 16 → ∃ out, digestName name = .ok out := by
    intro name hlt
    unfold digestName
    rw [if_pos hlt]
    exact ⟨_, rfl⟩
  have hfield : ∀ f ∈ fi.fields, ∃ out, digestField (fun _ => .ok []) (min k (2 ^ 16 - 1)) f = .ok out := by
    intro f hf
    obtain ⟨hfname, hcats⟩ := h.name_lt hm f hf
    obtain ⟨name, hn⟩ := hname f.name hfname
    obtain ⟨rows, hrows, -⟩ := @exists_collect _ _ _ (topCategories (min k (2 ^ 16 - 1)) f.categories)
      (digestCategory fun _ => .ok []) fun c hc => by
        obtain ⟨cname, hcn⟩ := hname c.name (hcats c (mem_topCategories hc))
        unfold digestCategory
        rw [hcn]
        exact ⟨_, rfl⟩
    unfold digestField
    simp only [hn, hrows, bind, Except.bind]
    exact ⟨_, rfl⟩
  obtain ⟨rows, hrows, -⟩ := exists_collect hfield
  unfold facetDigest digestWith
  rw [if_neg (by omega), hlen]
  simp only [bind, Except.bind]
  rw [if_neg (by omega), hfields]
  simp only
  rw [if_neg (by omega), hrows]
  exact ⟨_, rfl⟩

end

/-! ## Fields of many categories -/

/-- One field of the categories. -/
def tagged (cats : OrdMap String Bitmap) : FacetMap := ⟨[("tag", cats)], List.pairwise_singleton _ _⟩

section

variable {cats : OrdMap String Bitmap}

theorem mem_tagged {f : String × OrdMap String Bitmap} (h : f ∈ (tagged cats).toList) : f = ("tag", cats) :=
  List.mem_singleton.mp h

theorem tagged_fits (hlen : cats.toList.length < 2 ^ 32) (hname : ∀ c ∈ cats.toList, (utf8 c.1).length < 2 ^ 16)
    (hnames : (utf8 "tag" ++ cats.toList.flatMap fun c => utf8 c.1).length < 2 ^ 32) : (tagged cats).Fits where
  fields_lt := by
    show ([("tag", cats)] : List (String × OrdMap String Bitmap)).length < _
    rw [List.length_singleton]
    decide
  cats_lt := by
    rw [FacetMap.pairs, tagged, List.flatMap_cons, List.flatMap_nil, List.append_nil, List.length_map,
      OrdMap.keys, List.length_map]
    exact hlen
  names_lt := by
    rw [tagged, List.flatMap_cons, List.flatMap_nil, List.append_nil]
    exact hnames
  name_lt := by
    intro f hf
    rw [mem_tagged hf]
    have htag : (utf8 "tag").length = 3 := by decide
    exact ⟨by rw [htag]; decide, hname⟩

/-- **A digest keeps 65535 categories of a field at most**, whatever `k` is. -/
theorem exists_cut [Roaring] [Unicode] (hfits : (tagged cats).Fits) (hmany : 65535 < cats.toList.length) {k : Nat}
    (hk : 65535 < k) : ∃ file fi payload, writeFacetsWith (facetFields (tagged cats) 65536) true = .ok file ∧
    Settles (FacetIndex.openMeta (MemoryFetch.new file)) (.ok fi) ∧ facetDigest file k = .ok payload ∧
    ¬ ∃ k' kept, parseFacetDigest payload = .ok (k', kept) ∧ List.Forall₂ (DigestedField NoTailDir k) fi.fields kept := by
  obtain ⟨file, fi, hwrite, hopen, hside⟩ := exists_sidecarOf hfits 65536 true
  obtain ⟨f, fs, hf, hnil, hfi⟩ := List.forall₂_cons_right_iff.mp hside.fields
  obtain rfl := List.forall₂_nil_right_iff.mp hnil
  have hlen : f.categories.length = cats.toList.length := by
    obtain ⟨cs, hperm, hcs⟩ := hf.cats
    rw [hcs.length_eq, hperm.length_eq, List.length_map]
  have hone : fi.fields.length < 2 ^ 16 := by
    rw [hfi, List.length_singleton]
    decide
  obtain ⟨payload, hpayload⟩ := exists_facetDigest hfits hone hside hopen k
  refine ⟨file, fi, payload, hwrite, hopen, hpayload, ?_⟩
  rintro ⟨k', kept, hparse, hkept⟩
  have hcut := Except.ok.inj ((parseFacetDigest_digest hside hopen hpayload).symm.trans hparse)
  obtain ⟨-, rfl⟩ := Prod.mk.inj hcut
  rw [hfi, List.map_cons] at hkept
  obtain ⟨hfield, -⟩ := List.forall₂_cons.mp hkept
  -- the digest lists 65535 categories, and there are more among the first `k`
  obtain ⟨sorted, hperm, -, hcats⟩ := hfield.cats
  have hcount := hcats.length_eq
  rw [List.length_take, hperm.length_eq, hlen, keptField, List.length_map, topCategories, List.length_take,
    (sortByKey_perm _ _).length_eq, hlen] at hcount
  omega

end

section

attribute [local instance] PortableCodec.roaring asciiUnicode

/-- The name of the `i`th of many categories: one character, past those of 16 bits. -/
def manyName (i : Nat) : String := String.singleton (Char.ofNat (65536 + i))

theorem toNat_manyChar {i : Nat} (h : i < 65536) : (Char.ofNat (65536 + i)).toNat = 65536 + i := by
  have hvalid : (65536 + i).isValidChar := Or.inr ⟨by omega, by omega⟩
  unfold Char.ofNat
  rw [dif_pos hvalid]
  rfl

theorem manyName_lt {i j : Nat} (h : i < j) (hj : j < 65536) : manyName i < manyName j := by
  have hchar : Char.ofNat (65536 + i) < Char.ofNat (65536 + j) := by
    show (Char.ofNat (65536 + i)).toNat < (Char.ofNat (65536 + j)).toNat
    rw [toNat_manyChar (by omega), toNat_manyChar hj]
    omega
  rw [String.lt_iff_toList_lt, manyName, manyName, String.toList_singleton, String.toList_singleton]
  exact List.Lex.rel hchar

theorem length_manyName (i : Nat) : (utf8 (manyName i)).length ≤ 4 := by
  have h : (utf8 (manyName i)).length = (manyName i).utf8ByteSize := rfl
  rw [h, manyName, String.utf8ByteSize_singleton]
  exact Char.utf8Size_le_four _

theorem length_flatMap_manyName (is : List Nat) :
    (is.flatMap fun i => utf8 (manyName i)).length ≤ 4 * is.length := by
  induction is with
  | nil => exact Nat.le_refl _
  | cons i is ih =>
    have := length_manyName i
    rw [List.flatMap_cons, List.length_append, List.length_cons]
    omega

theorem firstDoc_lt : ∀ x ∈ [0], x < u32Bound := by decide

theorem manyNames_asc {n : Nat} (hn : n ≤ 65536) :
    ((List.range n).map fun i => (manyName i, (⟨[0], List.pairwise_singleton _ _, firstDoc_lt⟩ : Bitmap))).Pairwise fun a b => a.1 < b.1 := by
  rw [List.pairwise_map]
  refine List.pairwise_lt_range.imp_of_mem fun {i j} _ hj hij => ?_
  exact manyName_lt hij (Nat.lt_of_lt_of_le (List.mem_range.mp hj) hn)

/-- The first doc under each of so many names. -/
def manyNames (n : Nat) (hn : n ≤ 65536) : OrdMap String Bitmap :=
  ⟨(List.range n).map fun i => (manyName i, ⟨[0], List.pairwise_singleton _ _, firstDoc_lt⟩), manyNames_asc hn⟩

section

variable {n : Nat} (hn : n ≤ 65536)

theorem length_manyNames : (manyNames n hn).toList.length = n := by
  rw [manyNames, List.length_map, List.length_range]

theorem manyNames_fits : (tagged (manyNames n hn)).Fits := by
  have hname : ∀ c ∈ (manyNames n hn).toList, (utf8 c.1).length < 2 ^ 16 := by
    intro c hc
    obtain ⟨i, -, rfl⟩ := List.mem_map.mp hc
    exact Nat.lt_of_le_of_lt (length_manyName i) (by decide)
  have htag : (utf8 "tag").length = 3 := by decide
  have hnames := length_flatMap_manyName (List.range n)
  rw [List.length_range] at hnames
  have hflat : ((manyNames n hn).toList.flatMap fun c => utf8 c.1) = (List.range n).flatMap fun i => utf8 (manyName i) := by
    rw [manyNames, List.flatMap_map]
  refine tagged_fits (by rw [length_manyNames]; omega) hname ?_
  rw [List.length_append, htag, hflat]
  omega

end

/-- A field of 65536 categories, and a digest that is to keep them all. -/
theorem manyCategories_cut : ∃ file fi payload,
    writeFacetsWith (facetFields (tagged (manyNames 65536 (Nat.le_refl _))) 65536) true = .ok file ∧
    Settles (FacetIndex.openMeta (MemoryFetch.new file)) (.ok fi) ∧ facetDigest file 65536 = .ok payload ∧
    ¬ ∃ k kept, parseFacetDigest payload = .ok (k, kept) ∧
      List.Forall₂ (DigestedField NoTailDir 65536) fi.fields kept := by
  refine exists_cut (manyNames_fits (Nat.le_refl _)) ?_ (by omega)
  rw [length_manyNames]
  omega

theorem docNine_asc : [9].Pairwise (· < ·) := List.pairwise_singleton _ _

theorem docNine_lt : ∀ x ∈ [9], x < u32Bound := by decide

/-- Two categories of one field, one of them in two buckets. -/
def twoTags : FacetMap := (∅ : FacetMap).update "tag" fun _ =>
  ((∅ : OrdMap String Bitmap).update "new" fun _ => ⟨[7, 70000], by decide, by decide⟩).update "old" fun _ =>
    ⟨[9], docNine_asc, docNine_lt⟩

/-- The sidecar of the two categories. -/
def twoTagsFile : Bytes := ((writeFacetsWith (facetFields twoTags 65536) true).toOption).getD []

/-- Both digests of the two categories are read back. -/
theorem facetDigest_roundTrip_twoTags : ∃ (v1 v2 : Bytes) (fi : FacetIndex) (kept kept' : List Field),
    facetDigest twoTagsFile 1 = .ok v1 ∧ parseFacetDigest v1 = .ok (1, kept) ∧
      List.Forall₂ (DigestedField NoTailDir 1) fi.fields kept ∧
    facetDigestV2 twoTagsFile 1 = .ok v2 ∧ parseFacetDigestV2 v2 = .ok (1, kept') ∧
      List.Forall₂ (DigestedField (TailDirOf twoTagsFile) 1) fi.fields kept' := by
  have hsome : ∀ {r : Except IndexError Bytes}, r.toOption.isSome = true → ∃ b, r = .ok b := by
    intro r hr
    cases r with
    | error e => cases hr
    | ok b => exact ⟨b, rfl⟩
  obtain ⟨v1, h1⟩ : ∃ b, facetDigest twoTagsFile 1 = .ok b := hsome (by decide +kernel)
  obtain ⟨v2, h2⟩ : ∃ b, facetDigestV2 twoTagsFile 1 = .ok b := hsome (by decide +kernel)
  obtain ⟨fi, kept, hopen, hparse, hkept⟩ := (facetDigest_roundTrip twoTagsFile 1 v1).1 h1
  obtain ⟨fi', kept', hopen', hparse', hkept'⟩ := (facetDigest_roundTrip twoTagsFile 1 v2).2 h2
  obtain rfl := hopen.ok_unique hopen'
  exact ⟨v1, v2, fi, kept, kept', h1, hparse, hkept, h2, hparse', hkept'⟩

end

end RoaringRange
