import RoaringRange.FacetBuild

/-!
# Loading head postings (`facet.rs`)

`open_meta` leaves the heads empty.  `loadHeadsTuned` reads a small posting area in one piece, of a large one
only the heads of the categories with the highest counts of each field.  Either way, and for any list of
categories asked for, a head that is loaded is the category's own.

    heads of any categories, in any order                                    (Opened.settles_loadRequests)
    the two ways to load                                                            (Opened.settles_load)
-/

namespace RoaringRange

open ByteString Faults Slices

/-! ## Where the postings lie -/

/-- The postings of the file's categories fill `[start, stop)`. -/
structure PostingsFill (rs : List CatRange) (start stop : Nat) : Prop where
  first : ∀ r, rs.head? = some r → r.headOff = start
  last : ∀ r, rs.getLast? = some r → r.tailOff + r.tailSize = stop
  inside : ∀ r ∈ rs, start ≤ r.headOff ∧ r.headOff + r.headSize ≤ stop

theorem postingsFill_facetRows {cats : List CatOut} {off : Nat} :
    PostingsFill ((facetRows off cats).map FacetRow.range) off
      (off + (cats.flatMap fun c => c.head ++ c.tail).length) := by
  induction cats generalizing off with
  | nil => exact ⟨fun r hr => (by cases hr), fun r hr => (by cases hr), fun r hr => absurd hr List.not_mem_nil⟩
  | cons c cats ih =>
    have hrest := @ih (off + (c.head.length + c.tail.length))
    rw [List.flatMap_cons, List.length_append, List.length_append, ← Nat.add_assoc]
    refine ⟨?_, ?_, ?_⟩
    · intro r hr
      rw [facetRows, List.map_cons, List.head?_cons] at hr
      rw [← Option.some.inj hr]
      rfl
    · intro r hr
      rw [facetRows, List.map_cons] at hr
      cases cats with
      | nil =>
        rw [facetRows, List.map_nil, List.getLast?_singleton] at hr
        rw [← Option.some.inj hr]
        show off + c.head.length + c.tail.length = _
        rw [List.flatMap_nil, List.length_nil]
        omega
      | cons c' cats' =>
        rw [facetRows, List.map_cons, List.getLast?_cons_cons] at hr
        exact hrest.last r hr
    · intro r hr
      rw [facetRows, List.map_cons, List.mem_cons] at hr
      rcases hr with rfl | hr
      · show off ≤ off ∧ off + c.head.length ≤ _
        omega
      · have := hrest.inside r hr
        omega

theorem head?_flatMap_head? {α : Type} (xss : List (List α)) :
    (xss.flatMap fun xs => xs.head?.toList).head? = xss.flatten.head? := by
  induction xss with
  | nil => rfl
  | cons xs xss ih =>
    cases xs with
    | nil => exact ih
    | cons x xs => rfl

/-- The first category of the file, as the loader finds it. -/
theorem head?_firsts (fs : List Field) :
    (fs.flatMap fun f => f.categories.head?.toList).head? = (fs.flatMap Field.categories).head? := by
  have h := head?_flatMap_head? (fs.map Field.categories)
  rwa [List.flatMap_map] at h

theorem head?_lasts (fs : List Field) :
    (fs.reverse.flatMap fun f => f.categories.getLast?.toList).head? = (fs.flatMap Field.categories).getLast? := by
  have h := head?_flatMap_head? ((fs.map Field.categories).reverse.map List.reverse)
  rw [List.flatMap_map, ← List.map_reverse, List.flatMap_map] at h
  simp only [List.head?_reverse] at h
  rw [h, List.getLast?_eq_head?_reverse, List.flatMap_def, List.reverse_flatten, List.map_reverse, List.map_reverse]

/-! ## An open sidecar with some heads loaded -/

/-- The category `d` as an open sidecar holds it, its head loaded or still empty. -/
structure LoadedCategory (file : Bytes) (docs : FacetCategory → Bitmap) (loaded : Prop) (c : Category)
    (d : FacetCategory) : Prop where
  name : c.name = d.name
  count : c.count = d.card
  headRange : c.range.headOff + c.range.headSize ≤ file.length ∧
    slice file c.range.headOff c.range.headSize = d.head
  tailRange : c.range.tailOff + c.range.tailSize ≤ file.length ∧
    slice file c.range.tailOff c.range.tailSize = d.tail
  adjacent : c.range.tailOff = c.range.headOff + c.range.headSize
  head : loaded → c.head = docs d
  bare : ¬ loaded → c.head = ∅

/-- The field `g` as an open sidecar holds it, the heads at the `loaded` places loaded. -/
structure LoadedField (file : Bytes) (docs : FacetCategory → Bitmap) (loaded : Nat → Prop) (f : Field)
    (g : FacetField) : Prop where
  name : f.name = g.name
  cats : ∃ cs : List FacetCategory, cs.Perm g.cats ∧ cs.length = f.categories.length ∧
    ∀ j c d, f.categories[j]? = some c → cs[j]? = some d → LoadedCategory file docs (loaded j) c d

/-- **The file of `fields`, open**: every field and category is there, and the heads at the `loaded` places. -/
structure FacetIndex.Opened (fi : FacetIndex) (file : Bytes) (fields : List FacetField)
    (docs : FacetCategory → Bitmap) (loaded : Nat × Nat → Prop) : Prop where
  fetch : fi.fetch = MemoryFetch.new file
  length : fi.fields.length = fields.length
  field : ∀ i f g, fi.fields[i]? = some f → fields[i]? = some g →
    LoadedField file docs (fun j => loaded (i, j)) f g

/-- The category at a place. -/
def categoryAt (fields : List Field) (place : Nat × Nat) : Option Category :=
  fields[place.1]?.bind fun f => f.categories[place.2]?

/-- The lazy load of `FacetIndex::load_heads_tuned`, for any requests. -/
def FacetIndex.loadRequests [Roaring] (fi : FacetIndex) (reqs : List ((Nat × Nat) × (Nat × Nat))) : Io FacetIndex := do
  let datas ← readCoalesced fi.fetch (reqs.map Prod.snd) coalesceGap
  let heads ← ofOutcome (collect (datas.map deserialize))
  pure { fi with fields := (reqs.zip heads).foldl (fun fields x => FacetIndex.setHead fields x.1.1 x.2) fi.fields }

/-- A request is for the head posting of the category at its place. -/
def HeadRequest (fields : List Field) (req : (Nat × Nat) × (Nat × Nat)) : Prop :=
  ∃ c, categoryAt fields req.1 = some c ∧ req.2 = c.range.headRange

section

variable {file : Bytes} {fields : List FacetField} {docs : FacetCategory → Bitmap} {loaded : Nat × Nat → Prop}
  {fi : FacetIndex}

/-- Right after `open_meta` no head is loaded. -/
theorem opened_of_fieldOf {fs : List Field} (h : List.Forall₂ (FieldOf file) fs fields) :
    (FacetIndex.mk (MemoryFetch.new file) fs).Opened file fields docs fun _ => False := by
  refine ⟨rfl, h.length_eq, ?_⟩
  intro i f g hf hg
  obtain ⟨hi, rfl⟩ := List.getElem?_eq_some_iff.mp hf
  obtain ⟨hi', rfl⟩ := List.getElem?_eq_some_iff.mp hg
  have hfg := (List.forall₂_iff_get.mp h).2 i hi hi'
  obtain ⟨cs, hperm, hcs⟩ := hfg.cats
  refine ⟨hfg.name, cs, hperm, hcs.length_eq.symm, ?_⟩
  intro j c d hc hd
  obtain ⟨hj, rfl⟩ := List.getElem?_eq_some_iff.mp hc
  obtain ⟨hj', rfl⟩ := List.getElem?_eq_some_iff.mp hd
  have hcd := (List.forall₂_iff_get.mp hcs).2 j hj hj'
  exact ⟨hcd.name, hcd.count, hcd.head, hcd.tail, hcd.tailOff, fun hf => absurd hf id, fun _ => hcd.bare.1⟩

/-- The category at a place is one of a field's. -/
theorem FacetIndex.Opened.category (h : fi.Opened file fields docs loaded) {place : Nat × Nat} {c : Category}
    (hc : categoryAt fi.fields place = some c) :
    ∃ g ∈ fields, ∃ d ∈ g.cats, LoadedCategory file docs (loaded place) c d := by
  obtain ⟨f, hf, hc⟩ := Option.bind_eq_some_iff.mp hc
  have hi : place.1 < fields.length := h.length ▸ (List.getElem?_eq_some_iff.mp hf).1
  have hg : fields[place.1]? = some fields[place.1] := List.getElem?_eq_getElem hi
  obtain ⟨cs, hperm, hlen, hcs⟩ := (h.field _ _ _ hf hg).cats
  have hj : place.2 < cs.length := hlen ▸ (List.getElem?_eq_some_iff.mp hc).1
  have hd : cs[place.2]? = some cs[place.2] := List.getElem?_eq_getElem hj
  exact ⟨_, List.getElem_mem hi, _, hperm.subset (List.getElem_mem hj), hcs _ _ _ hc hd⟩

/-! ## One head put in its place -/

theorem categoryAt_setHead {fs : List Field} {place : Nat × Nat} {head : Bitmap} (p : Nat × Nat) :
    categoryAt (FacetIndex.setHead fs place head) p =
      (categoryAt fs p).map fun c => if p = place then { c with head := head } else c := by
  unfold categoryAt FacetIndex.setHead
  rw [List.getElem?_modify]
  cases hf : fs[p.1]? with
  | none => rfl
  | some f =>
    simp only [Option.map_eq_map, Option.map_some, Option.bind_some]
    by_cases hi : place.1 = p.1
    · rw [if_pos hi, List.getElem?_modify]
      cases hc : f.categories[p.2]? with
      | none => rfl
      | some c =>
        simp only [Option.map_eq_map, Option.map_some]
        by_cases hj : place.2 = p.2
        · rw [if_pos hj, if_pos (Prod.ext hi.symm hj.symm)]
        · rw [if_neg hj, if_neg fun hp => hj (congrArg Prod.snd hp.symm)]
    · rw [if_neg hi]
      cases hc : f.categories[p.2]? with
      | none => rfl
      | some c =>
        rw [Option.map_some, if_neg fun hp => hi (congrArg Prod.fst hp.symm)]

/-- The ranges stay where they are. -/
theorem catRanges_setHead (fs : List Field) (place : Nat × Nat) (head : Bitmap) :
    catRanges (FacetIndex.setHead fs place head) = catRanges fs := by
  have hmod : ∀ (cs : List Category) (j : Nat),
      (cs.modify j fun c => { c with head := head }).map Category.range = cs.map Category.range := by
    intro cs
    induction cs with
    | nil => exact fun j => by rw [List.modify_nil]
    | cons c cs ih =>
      intro j
      cases j with
      | zero => rfl
      | succ j => rw [List.modify_succ_cons, List.map_cons, List.map_cons, ih]
  obtain ⟨i, j⟩ := place
  unfold catRanges FacetIndex.setHead
  induction fs generalizing i with
  | nil => rw [List.modify_nil]
  | cons f fs ih =>
    cases i with
    | zero =>
      rw [List.modify_zero_cons, List.flatMap_cons, List.flatMap_cons, List.map_append, List.map_append, hmod]
    | succ i => rw [List.modify_succ_cons, List.flatMap_cons, List.flatMap_cons, List.map_append, List.map_append, ih]

theorem HeadRequest.setHead {fs : List Field} {req : (Nat × Nat) × (Nat × Nat)} (h : HeadRequest fs req)
    (place : Nat × Nat) (head : Bitmap) : HeadRequest (FacetIndex.setHead fs place head) req := by
  obtain ⟨c, hc, hr⟩ := h
  by_cases hp : req.1 = place
  · refine ⟨{ c with head := head }, ?_, hr⟩
    rw [categoryAt_setHead, hc, Option.map_some, if_pos hp]
  · refine ⟨c, ?_, hr⟩
    rw [categoryAt_setHead, hc, Option.map_some, if_neg hp]

/-- A category whose own head is put in its place. -/
theorem LoadedCategory.load {P : Prop} {c : Category} {d : FacetCategory} (h : LoadedCategory file docs P c d)
    (Q : Prop) (hQ : Q) : LoadedCategory file docs Q { c with head := docs d } d :=
  ⟨h.name, h.count, h.headRange, h.tailRange, h.adjacent, fun _ => rfl, fun hn => absurd hQ hn⟩

theorem LoadedCategory.congr {P Q : Prop} {c : Category} {d : FacetCategory} (h : LoadedCategory file docs P c d)
    (hPQ : P ↔ Q) : LoadedCategory file docs Q c d :=
  ⟨h.name, h.count, h.headRange, h.tailRange, h.adjacent, fun hq => h.head (hPQ.mpr hq),
    fun hn => h.bare fun hp => hn (hPQ.mp hp)⟩

end

/-! ## Heads asked for one by one -/

section

variable [Roaring] {file : Bytes} {fields : List FacetField} {docs : FacetCategory → Bitmap}
  {loaded : Nat × Nat → Prop} {fi : FacetIndex}

/-- Every head posting of the fields is the posting of `docs`. -/
def HeadsOf (fields : List FacetField) (docs : FacetCategory → Bitmap) : Prop :=
  ∀ g ∈ fields, ∀ d ∈ g.cats, deserialize d.head = .ok (docs d)

omit [Roaring] in
theorem FacetIndex.Opened.congr {loaded' : Nat × Nat → Prop} (h : fi.Opened file fields docs loaded)
    (hl : ∀ p, loaded p ↔ loaded' p) : fi.Opened file fields docs loaded' := by
  refine ⟨h.fetch, h.length, fun i f g hf hg => ?_⟩
  obtain ⟨hname, cs, hperm, hlen, hcs⟩ := h.field i f g hf hg
  exact ⟨hname, cs, hperm, hlen, fun j c d hc hd => (hcs j c d hc hd).congr (hl (i, j))⟩

/-- One head is put in its place, the others stay. -/
theorem FacetIndex.Opened.setHead (h : fi.Opened file fields docs loaded) (hdocs : HeadsOf fields docs)
    {place : Nat × Nat} {c : Category} (hc : categoryAt fi.fields place = some c) {head : Bitmap}
    (hhead : deserialize (slice file c.range.headOff c.range.headSize) = .ok head) :
    FacetIndex.Opened { fi with fields := FacetIndex.setHead fi.fields place head } file fields docs
      fun p => p = place ∨ loaded p := by
  refine ⟨h.fetch, by rw [FacetIndex.setHead, List.length_modify, h.length], ?_⟩
  intro i f g hf hg
  rw [FacetIndex.setHead, List.getElem?_modify] at hf
  obtain ⟨f₀, hf₀, rfl⟩ := Option.map_eq_some_iff.mp hf
  obtain ⟨hname, cs, hperm, hlen, hcs⟩ := h.field i f₀ g hf₀ hg
  by_cases hi : place.1 = i
  · rw [if_pos hi]
    refine ⟨hname, cs, hperm, by rw [hlen, List.length_modify], ?_⟩
    intro j c' d hc' hd
    rw [List.getElem?_modify] at hc'
    obtain ⟨c₀, hc₀, rfl⟩ := Option.map_eq_some_iff.mp hc'
    have hcd := hcs j c₀ d hc₀ hd
    by_cases hj : place.2 = j
    · rw [if_pos hj]
      have hplace : (i, j) = place := Prod.ext hi.symm hj.symm
      have hsame : c = c₀ := by
        rw [← hplace, categoryAt, hf₀, Option.bind_some, hc₀] at hc
        exact (Option.some.inj hc).symm
      have hown : head = docs d := by
        rw [hsame, hcd.headRange.2, hdocs g (List.mem_of_getElem? hg) d (hperm.subset (List.mem_of_getElem? hd))] at hhead
        exact (Except.ok.inj hhead).symm
      rw [hown]
      exact hcd.load _ (Or.inl hplace)
    · rw [if_neg hj]
      exact hcd.congr ⟨Or.inr, fun hp => hp.resolve_left fun he => hj (congrArg Prod.snd he).symm⟩
  · rw [if_neg hi]
    refine ⟨hname, cs, hperm, hlen, fun j c' d hc' hd => ?_⟩
    exact (hcs j c' d hc' hd).congr ⟨Or.inr, fun hp => hp.resolve_left fun he => hi (congrArg Prod.fst he).symm⟩

/-- All heads of a list of requests are put in their places. -/
theorem FacetIndex.Opened.foldl_setHead (hdocs : HeadsOf fields docs)
    {reqs : List ((Nat × Nat) × (Nat × Nat))} {heads : List Bitmap}
    (hheads : List.Forall₂ (fun q S => deserialize (slice file q.2.1 q.2.2) = .ok S) reqs heads)
    (h : fi.Opened file fields docs loaded) (hreqs : ∀ q ∈ reqs, HeadRequest fi.fields q) :
    FacetIndex.Opened { fi with fields := (reqs.zip heads).foldl (fun fields x => FacetIndex.setHead fields x.1.1 x.2) fi.fields }
      file fields docs fun p => p ∈ reqs.map Prod.fst ∨ loaded p := by
  induction hheads generalizing fi loaded with
  | nil => exact h.congr fun p => ⟨Or.inr, fun hp => hp.resolve_left List.not_mem_nil⟩
  | @cons q S reqs heads hq _ ih =>
    obtain ⟨c, hc, hrange⟩ := hreqs q List.mem_cons_self
    rw [hrange] at hq
    have hstep := h.setHead hdocs hc hq
    have hrest := ih hstep fun q' hq' => (hreqs q' (List.mem_cons_of_mem _ hq')).setHead q.1 S
    rw [List.zip_cons_cons, List.foldl_cons]
    refine hrest.congr fun p => ?_
    rw [List.map_cons, List.mem_cons, or_left_comm, or_assoc]

omit [Roaring] in
theorem catRanges_foldl_setHead (xs : List (((Nat × Nat) × (Nat × Nat)) × Bitmap)) (fs : List Field) :
    catRanges (xs.foldl (fun fields x => FacetIndex.setHead fields x.1.1 x.2) fs) = catRanges fs := by
  induction xs generalizing fs with
  | nil => rfl
  | cons x xs ih => rw [List.foldl_cons, ih, catRanges_setHead]

/-- **Heads of any categories, in any order**: each is loaded, and no other. -/
theorem FacetIndex.Opened.settles_loadRequests (h : fi.Opened file fields docs loaded) (hlt : file.length < u64Bound)
    (hdocs : HeadsOf fields docs) {reqs : List ((Nat × Nat) × (Nat × Nat))}
    (hreqs : ∀ q ∈ reqs, HeadRequest fi.fields q) :
    ∃ fi', Settles (fi.loadRequests reqs) (.ok fi') ∧ catRanges fi'.fields = catRanges fi.fields ∧
      fi'.Opened file fields docs fun p => p ∈ reqs.map Prod.fst ∨ loaded p := by
  have hown : ∀ q ∈ reqs, fi.fetch.InFile q.2.1 q.2.2 ∧ ∃ S, deserialize (slice file q.2.1 q.2.2) = .ok S := by
    intro q hq
    obtain ⟨c, hc, hrange⟩ := hreqs q hq
    obtain ⟨g, hg, d, hd, hcd⟩ := h.category hc
    rw [hrange, h.fetch]
    refine ⟨MemoryFetch.inFile_new hlt hcd.headRange.1, docs d, ?_⟩
    show deserialize (slice file c.range.headOff c.range.headSize) = _
    rw [hcd.headRange.2]
    exact hdocs g hg d hd
  have hread : Readable fi.fetch (reqs.map Prod.snd) := by
    intro r hr _
    obtain ⟨q, hq, rfl⟩ := List.mem_map.mp hr
    exact (hown q hq).1
  have hbytes : fi.fetch.bytes = file := by rw [h.fetch]; rfl
  obtain ⟨heads, hcollect, hheads⟩ := exists_collect fun q hq => (hown q hq).2
  refine ⟨_, (settles_readCoalesced hread).bind ?_, catRanges_foldl_setHead (reqs.zip heads) fi.fields,
    h.foldl_setHead hdocs hheads hreqs⟩
  rw [List.map_map, List.map_map, hbytes]
  show Settles (ofOutcome (collect (reqs.map fun q => deserialize (slice file q.2.1 q.2.2))) >>= _) _
  rw [hcollect]
  exact (Settles.ofOutcome _).bind (Settles.pure _)

/-! ## The two ways to load -/

/-- The head posting of a category is cut out of the posting area. -/
theorem withHead_eq {start : Nat} {P : Prop} {c : Category} {d : FacetCategory} (h : LoadedCategory file docs P c d)
    (hd : deserialize d.head = .ok (docs d)) (hstart : start ≤ c.range.headOff) :
    FacetIndex.withHead (slice file start (file.length - start)) start c = .ok { c with head := docs d } := by
  obtain ⟨hin, hslice⟩ := h.headRange
  have hlen : (slice file start (file.length - start)).length = file.length - start :=
    length_slice _ _ _ (by omega)
  unfold FacetIndex.withHead
  rw [if_neg (by omega)]
  simp only [hlen]
  rw [if_neg (by omega), slice_slice _ _ _ _ _ (by omega), show start + (c.range.headOff - start) = c.range.headOff by omega,
    hslice, hd]
  rfl

/-- The places of which a load puts the heads. -/
def FacetIndex.loads (fi : FacetIndex) (fields : List FacetField) (eagerLimit topN : Nat) (place : Nat × Nat) : Prop :=
  if postingBytes fields = 0 then False
  else if postingBytes fields ≤ eagerLimit then True
  else place ∈ (FacetIndex.headRequests fi.fields topN).map Prod.fst

omit [Roaring] in
theorem headRequest_of_mem_headRequests {fs : List Field} {topN : Nat} {req : (Nat × Nat) × (Nat × Nat)}
    (h : req ∈ FacetIndex.headRequests fs topN) : HeadRequest fs req := by
  obtain ⟨f, hf, h⟩ := List.mem_flatMap.mp h
  obtain ⟨c, hc, rfl⟩ := List.mem_map.mp h
  have hc' := (sortByKey_perm _ _).subset (List.mem_of_mem_take hc)
  refine ⟨c.1, ?_, rfl⟩
  show fs[f.2]?.bind (fun f => f.categories[c.2]?) = some c.1
  rw [List.mem_zipIdx_iff_getElem?.mp hf, Option.bind_some]
  exact List.mem_zipIdx_iff_getElem?.mp hc'

/-- A field whose heads are all cut out of the posting area, which starts at `start`. -/
def withHeads (blob : Bytes) (start : Nat) (f : Field) : Except IndexError Field := do
  let cats ← collect (f.categories.map (FacetIndex.withHead blob start))
  pure { f with categories := cats }

theorem LoadedField.withHeads {P : Nat → Prop} {f : Field} {g : FacetField} (h : LoadedField file docs P f g)
    (hdocs : ∀ d ∈ g.cats, deserialize d.head = .ok (docs d)) {start : Nat}
    (hstart : ∀ c ∈ f.categories, start ≤ c.range.headOff) :
    ∃ f', withHeads (slice file start (file.length - start)) start f = .ok f' ∧
      f'.categories.map Category.range = f.categories.map Category.range ∧
      LoadedField file docs (fun _ => True) f' g := by
  obtain ⟨hname, cs, hperm, hlen, hcs⟩ := h
  have hcat : ∀ (j : Nat) (c : Category) (d : FacetCategory), f.categories[j]? = some c → cs[j]? = some d →
      FacetIndex.withHead (slice file start (file.length - start)) start c = .ok { c with head := docs d } := by
    intro j c d hc hd
    exact withHead_eq (hcs j c d hc hd) (hdocs d (hperm.subset (List.mem_of_getElem? hd)))
      (hstart c (List.mem_of_getElem? hc))
  have hpair : List.Forall₂ (fun c d => FacetIndex.withHead (slice file start (file.length - start)) start c =
      .ok { c with head := docs d } ∧ LoadedCategory file docs True { c with head := docs d } d) f.categories cs := by
    refine List.forall₂_iff_get.mpr ⟨hlen.symm, fun j hj hj' => ?_⟩
    have hc : f.categories[j]? = some f.categories[j] := List.getElem?_eq_getElem hj
    have hd : cs[j]? = some cs[j] := List.getElem?_eq_getElem hj'
    exact ⟨hcat j _ _ hc hd, (hcs j _ _ hc hd).load True trivial⟩
  have hcollect : ∀ {xs : List Category} {ys : List FacetCategory},
      List.Forall₂ (fun c d => FacetIndex.withHead (slice file start (file.length - start)) start c =
        .ok { c with head := docs d } ∧ LoadedCategory file docs True { c with head := docs d } d) xs ys →
      ∃ xs', collect (xs.map (FacetIndex.withHead (slice file start (file.length - start)) start)) = .ok xs' ∧
        xs'.map Category.range = xs.map Category.range ∧ List.Forall₂ (LoadedCategory file docs True) xs' ys := by
    intro xs ys hxy
    induction hxy with
    | nil => exact ⟨[], rfl, rfl, List.Forall₂.nil⟩
    | @cons c d xs ys hcd _ ih =>
      obtain ⟨xs', hxs', hranges, hall⟩ := ih
      refine ⟨{ c with head := docs d } :: xs', ?_, ?_, List.Forall₂.cons hcd.2 hall⟩
      · simp only [List.map_cons, collect, hcd.1, hxs']
      · rw [List.map_cons, List.map_cons, hranges]
  obtain ⟨cats, hcats, hranges, hall⟩ := hcollect hpair
  refine ⟨{ f with categories := cats }, ?_, hranges, hname, cs, hperm, hall.length_eq.symm, ?_⟩
  · unfold RoaringRange.withHeads
    rw [hcats]
    rfl
  · intro j c d hc hd
    obtain ⟨hj, rfl⟩ := List.getElem?_eq_some_iff.mp hc
    obtain ⟨hj', rfl⟩ := List.getElem?_eq_some_iff.mp hd
    exact (List.forall₂_iff_get.mp hall).2 j hj hj'

/-- The whole posting area is read, and every head put in its place. -/
theorem FacetIndex.Opened.collect_withHeads (h : fi.Opened file fields docs loaded) (hdocs : HeadsOf fields docs)
    {start : Nat} (hfill : PostingsFill (catRanges fi.fields) start file.length) :
    ∃ fs, collect (fi.fields.map (withHeads (slice file start (file.length - start)) start)) = .ok fs ∧
      catRanges fs = catRanges fi.fields ∧
      FacetIndex.Opened { fi with fields := fs } file fields docs fun _ => True := by
  have hfield : ∀ (i : Nat) (f : Field) (g : FacetField), fi.fields[i]? = some f → fields[i]? = some g → ∃ f',
      withHeads (slice file start (file.length - start)) start f = .ok f' ∧
      f'.categories.map Category.range = f.categories.map Category.range ∧
      LoadedField file docs (fun _ => True) f' g := by
    intro i f g hf hg
    refine (h.field i f g hf hg).withHeads (hdocs g (List.mem_of_getElem? hg)) fun c hc => ?_
    exact (hfill.inside _ (List.mem_map_of_mem (List.mem_flatMap.mpr ⟨f, List.mem_of_getElem? hf, hc⟩))).1
  have hpair : ∀ i : Nat, i < fi.fields.length → ∃ f g, fi.fields[i]? = some f ∧ fields[i]? = some g := by
    intro i hi
    exact ⟨_, _, List.getElem?_eq_getElem hi, List.getElem?_eq_getElem (h.length ▸ hi)⟩
  obtain ⟨fs, hfs, hall⟩ := @exists_collect _ _ _ fi.fields (withHeads (slice file start (file.length - start)) start)
    fun f hf => by
      obtain ⟨i, hi⟩ := List.mem_iff_getElem?.mp hf
      obtain ⟨_, g, -, hg⟩ := hpair i (List.getElem?_eq_some_iff.mp hi).1
      obtain ⟨f', hf', -⟩ := hfield i f g hi hg
      exact ⟨f', hf'⟩
  have hsame : ∀ (i : Nat) (f f' : Field) (g : FacetField), fi.fields[i]? = some f → fs[i]? = some f' → fields[i]? = some g →
      f'.categories.map Category.range = f.categories.map Category.range ∧
      LoadedField file docs (fun _ => True) f' g := by
    intro i f f' g hf hf' hg
    obtain ⟨f'', hstep, hrest⟩ := hfield i f g hf hg
    obtain ⟨hi, rfl⟩ := List.getElem?_eq_some_iff.mp hf
    obtain ⟨hi', rfl⟩ := List.getElem?_eq_some_iff.mp hf'
    have heq : f'' = fs[i] := Except.ok.inj (hstep.symm.trans ((List.forall₂_iff_get.mp hall).2 i hi hi'))
    rwa [heq] at hrest
  refine ⟨fs, hfs, ?_, h.fetch, hall.length_eq.symm.trans h.length, ?_⟩
  · have hranges : fs.map (fun f => f.categories.map Category.range) =
        fi.fields.map fun f => f.categories.map Category.range := by
      refine List.ext_getElem (by rw [List.length_map, List.length_map, hall.length_eq]) fun i hi hi' => ?_
      rw [List.length_map] at hi hi'
      obtain ⟨f, g, hf, hg⟩ := hpair i hi'
      obtain ⟨_, hfi⟩ := List.getElem?_eq_some_iff.mp hf
      rw [List.getElem_map, List.getElem_map, hfi]
      exact (hsame i f fs[i] g hf (List.getElem?_eq_getElem hi) hg).1
    rw [catRanges, catRanges, List.map_flatMap, List.map_flatMap, List.flatMap_def, List.flatMap_def, hranges]
  · intro i f' g hf' hg
    obtain ⟨f, -, hf, -⟩ := hpair i (by rw [h.length]; exact (List.getElem?_eq_some_iff.mp hg).1)
    exact (hsame i f f' g hf hf' hg).2

/-- **The two ways to load**: a small posting area puts every head in its place, a large one those of the
categories with the highest counts. -/
theorem FacetIndex.Opened.settles_load (h : fi.Opened file fields docs loaded) (hlt : file.length < u64Bound)
    (hdocs : HeadsOf fields docs) (hle : postingBytes fields ≤ file.length)
    (hfill : PostingsFill (catRanges fi.fields) (file.length - postingBytes fields) file.length)
    (hsome : 0 < postingBytes fields → catRanges fi.fields ≠ []) (eagerLimit topN : Nat) :
    ∃ fi', Settles (fi.loadHeadsTuned eagerLimit topN) (.ok fi') ∧ catRanges fi'.fields = catRanges fi.fields ∧
      fi'.Opened file fields docs fun p => fi.loads fields eagerLimit topN p ∨ loaded p := by
  have hfirst := head?_firsts fi.fields
  have hlast := head?_lasts fi.fields
  have hrfirst : (catRanges fi.fields).head? = (fi.fields.flatMap Field.categories).head?.map Category.range :=
    List.head?_map ..
  have hrlast : (catRanges fi.fields).getLast? = (fi.fields.flatMap Field.categories).getLast?.map Category.range :=
    List.getLast?_map ..
  unfold FacetIndex.loadHeadsTuned
  simp only [hfirst, hlast]
  cases hf : (fi.fields.flatMap Field.categories).head? with
  | none =>
    have hnil : fi.fields.flatMap Field.categories = [] := List.head?_eq_none_iff.mp hf
    have hzero : postingBytes fields = 0 := by
      by_contra hpos
      exact hsome (by omega) (by rw [catRanges, hnil, List.map_nil])
    refine ⟨fi, Settles.pure fi, rfl, h.congr fun p => ⟨Or.inr, fun hp => hp.resolve_left fun hl => ?_⟩⟩
    rw [FacetIndex.loads, if_pos hzero] at hl
    exact hl
  | some first =>
    cases hl : (fi.fields.flatMap Field.categories).getLast? with
    | none =>
      rw [List.getLast?_eq_none_iff.mp hl] at hf
      cases hf
    | some last =>
      have hstart : first.range.headOff = file.length - postingBytes fields :=
        hfill.first _ (by rw [hrfirst, hf]; rfl)
      have hstop : last.range.tailOff + last.range.tailSize = file.length :=
        hfill.last _ (by rw [hrlast, hl]; rfl)
      have hsat : saturatingAdd last.range.tailOff last.range.tailSize = file.length := by
        rw [saturatingAdd, hstop, usizeMax]
        omega
      simp only [hsat, hstart]
      rw [if_neg (by omega)]
      have hregion : file.length - (file.length - postingBytes fields) = postingBytes fields := by omega
      by_cases hzero : postingBytes fields = 0
      · rw [if_pos (by omega)]
        refine ⟨fi, Settles.pure fi, rfl, h.congr fun p => ⟨Or.inr, fun hp => hp.resolve_left fun hl => ?_⟩⟩
        rw [FacetIndex.loads, if_pos hzero] at hl
        exact hl
      · rw [if_neg (by omega), hregion]
        by_cases heager : postingBytes fields ≤ eagerLimit
        · obtain ⟨fs, hcollect, hranges, hopen⟩ := h.collect_withHeads hdocs hfill
          rw [if_pos heager]
          refine ⟨{ fi with fields := fs }, ?_, hranges, hopen.congr fun p => ⟨fun _ => Or.inl ?_, fun _ => trivial⟩⟩
          · have hin : fi.fetch.InFile (file.length - postingBytes fields) (postingBytes fields) := by
              rw [h.fetch]
              exact MemoryFetch.inFile_new hlt (by omega)
            refine (MemoryFetch.settles_read hin).bind ?_
            have hblob : slice fi.fetch.bytes (file.length - postingBytes fields) (postingBytes fields) =
                slice file (file.length - postingBytes fields) (file.length - (file.length - postingBytes fields)) := by
              rw [h.fetch, hregion]
              rfl
            rw [hblob]
            show Settles (ofOutcome (collect (fi.fields.map (withHeads _ _))) >>= _) _
            rw [hcollect]
            exact (Settles.ofOutcome _).bind (Settles.pure _)
          · rw [FacetIndex.loads, if_neg hzero, if_pos heager]
            trivial
        · rw [if_neg heager]
          have hreqs : ∀ q ∈ FacetIndex.headRequests fi.fields topN, HeadRequest fi.fields q :=
            fun q hq => headRequest_of_mem_headRequests hq
          obtain ⟨fi', hsettles, hranges, hopen⟩ := h.settles_loadRequests hlt hdocs hreqs
          refine ⟨fi', hsettles, hranges, hopen.congr fun p => ?_⟩
          rw [FacetIndex.loads, if_neg hzero, if_neg heager]

end

end RoaringRange
