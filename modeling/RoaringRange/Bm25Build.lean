import RoaringRange.Bm25
import RoaringRange.TermsBuild

/-!
# Building an index with its impacts (`terms_build.rs`, `bm25.rs`)

The docs of a corpus are numbered from zero.  The term builder notes which docs a term is in, the impacts
accumulator how often; both split text alike, so they agree on every term's docs:

    the builder's posting of a term is the docs of its occurrences                      (postings_built)
    the accumulator's list of a term is its occurrences                              (terms_accumulated)

The sidecar is written over the dictionary of the finished index, term by term, and an index opened from
it has the impacts of every term (covers_written).  So both searches score with the bytes written
(searchBm25_exact).
-/

namespace RoaringRange

open ByteString Faults Slices

/-- Texts numbered from zero; a doc id has 32 bits. -/
structure TextCorpus where
  texts : List String
  length_lt : texts.length < u32Bound

section

variable [Unicode] [TokenFilters]

/-! ## The builders -/

structure TermIndexBuilder where
  postings : TermMap
  config : TermIndexConfig

namespace TermIndexBuilder

def new (config : TermIndexConfig) : TermIndexBuilder := ⟨∅, config⟩

def add (b : TermIndexBuilder) (doc : Fin u32Bound) (text : String) : TermIndexBuilder :=
  { b with
    postings := (b.config.tokenizer.tokenize text).foldl (fun p t =>
      p.update ⟨t⟩ fun bm => (bm.getD ∅).insert doc.val doc.isLt) b.postings }

end TermIndexBuilder

structure ImpactsAccumulator where
  tokenizer : Tokenizer
  terms : OrdMap Term (List (Nat × Nat))
  docLens : List Nat
  nextDoc : Nat

namespace ImpactsAccumulator

def new (tokenizer : Tokenizer) : ImpactsAccumulator := ⟨tokenizer, ∅, [], 0⟩

/-- How often each token comes. -/
def termFreqs (toks : List String) : OrdMap Term Nat :=
  toks.foldl (fun tf t => tf.update ⟨t⟩ fun n => n.getD 0 + 1) ∅

def addDoc (acc : ImpactsAccumulator) (text : String) : ImpactsAccumulator :=
  let toks := acc.tokenizer.tokenize text
  { acc with
    terms := (termFreqs toks).toList.foldl (fun terms e =>
      terms.update e.1 fun tfs => tfs.getD [] ++ [(acc.nextDoc, e.2)]) acc.terms
    docLens := acc.docLens ++ [toks.length]
    nextDoc := acc.nextDoc + 1 }

end ImpactsAccumulator

namespace TextCorpus

/-- The docs with their numbers. -/
def docs (c : TextCorpus) : List (Fin u32Bound × String) :=
  List.ofFn fun i : Fin c.texts.length => (⟨i.val, Nat.lt_trans i.isLt c.length_lt⟩, c.texts.get i)

/-- The postings of the corpus. -/
def postings (c : TextCorpus) (config : TermIndexConfig) : TermMap :=
  (c.docs.foldl (fun b d => b.add d.1 d.2) (TermIndexBuilder.new config)).postings

/-- The statistics of the corpus. -/
def stats (c : TextCorpus) (tokenizer : Tokenizer) : ImpactsAccumulator :=
  c.texts.foldl ImpactsAccumulator.addDoc (ImpactsAccumulator.new tokenizer)

end TextCorpus

/-- The docs a term is in, each with the number of times. -/
def occurrences (tk : Tokenizer) (texts : List String) (t : String) : List (Nat × Nat) :=
  (texts.zipIdx.map fun x => (x.2, (tk.tokenize x.1).count t)).filter fun o => 0 < o.2

/-! ## What the builders hold -/

theorem occurrences_append (tk : Tokenizer) (texts : List String) (text t : String) :
    occurrences tk (texts ++ [text]) t = occurrences tk texts t ++
      if (tk.tokenize text).count t = 0 then [] else [(texts.length, (tk.tokenize text).count t)] := by
  unfold occurrences
  rw [List.zipIdx_append, List.map_append, List.filter_append]
  congr 1
  rw [Nat.zero_add]
  show List.filter _ [(texts.length, (tk.tokenize text).count t)] = _
  by_cases h : (tk.tokenize text).count t = 0
  · rw [if_pos h, List.filter_cons_of_neg (by simp [h]), List.filter_nil]
  · rw [if_neg h, List.filter_cons_of_pos (by simpa using Nat.pos_of_ne_zero h), List.filter_nil]

omit [Unicode] [TokenFilters] in
/-- Counting tokens on top of some counts. -/
theorem find?_foldl_count (toks : List String) (t : String) : ∀ tf : OrdMap Term Nat,
    (toks.foldl (fun tf t => tf.update ⟨t⟩ fun n => n.getD 0 + 1) tf).find? ⟨t⟩ =
      if toks.count t = 0 then tf.find? ⟨t⟩ else some ((tf.find? ⟨t⟩).getD 0 + toks.count t) := by
  induction toks with
  | nil =>
    intro tf
    rfl
  | cons u toks ih =>
    intro tf
    rw [List.foldl_cons, ih, OrdMap.find?_update, List.count_cons]
    by_cases hu : u = t
    · subst hu
      rw [if_pos (beq_self_eq_true u), if_pos rfl, if_neg (Nat.succ_ne_zero _), Option.getD_some]
      split
      · next h0 => rw [h0]
      · rw [Nat.add_assoc, Nat.add_comm 1]
    · have hne : ¬ (⟨t⟩ : Term) = ⟨u⟩ := fun h => hu (congrArg Term.text h).symm
      rw [if_neg hne, if_neg (show ¬ (u == t) = true by simpa using hu), Nat.add_zero]

omit [Unicode] [TokenFilters] in
/-- Every entry of a list with distinct keys is pushed once. -/
theorem find?_foldl_push (doc : Nat) (k : Term) : ∀ (es : List (Term × Nat)) (terms : OrdMap Term (List (Nat × Nat))),
    es.Pairwise (fun a b => a.1 < b.1) →
    (es.foldl (fun terms e => terms.update e.1 fun tfs => tfs.getD [] ++ [(doc, e.2)]) terms).find? k =
      (OrdMap.lookup k es).elim (terms.find? k) fun n => some ((terms.find? k).getD [] ++ [(doc, n)]) := by
  intro es
  induction es with
  | nil =>
    intro terms _
    rfl
  | cons e es ih =>
    intro terms hasc
    obtain ⟨hlt, hasc⟩ := List.pairwise_cons.mp hasc
    rw [List.foldl_cons, ih _ hasc, OrdMap.find?_update, OrdMap.lookup]
    by_cases hk : k = e.1
    · subst hk
      have hnone : OrdMap.lookup e.1 es = none := by
        by_contra hsome
        obtain ⟨n, hn⟩ := Option.ne_none_iff_exists'.mp hsome
        have hmem : (e.1, n) ∈ es := (OrdMap.lookup_eq_some_iff hasc).mp hn
        exact lt_irrefl _ (hlt (e.1, n) hmem)
      rw [hnone, if_pos rfl, if_pos rfl]
      rfl
    · rw [if_neg hk, if_neg (Ne.symm hk)]

theorem addDoc_docLens (acc : ImpactsAccumulator) (text : String) :
    (acc.addDoc text).docLens = acc.docLens ++ [(acc.tokenizer.tokenize text).length] := rfl

/-- What one doc adds to a term. -/
theorem find?_addDoc (acc : ImpactsAccumulator) (text t : String) :
    (acc.addDoc text).terms.find? ⟨t⟩ =
      if (acc.tokenizer.tokenize text).count t = 0 then acc.terms.find? ⟨t⟩
      else some ((acc.terms.find? ⟨t⟩).getD [] ++ [(acc.nextDoc, (acc.tokenizer.tokenize text).count t)]) := by
  have htf : OrdMap.lookup ⟨t⟩ (ImpactsAccumulator.termFreqs (acc.tokenizer.tokenize text)).toList =
      if (acc.tokenizer.tokenize text).count t = 0 then none
      else some ((acc.tokenizer.tokenize text).count t) := by
    have h := find?_foldl_count (acc.tokenizer.tokenize text) t ∅
    rw [OrdMap.find?_empty, Option.getD_none, Nat.zero_add] at h
    exact h
  unfold ImpactsAccumulator.addDoc
  simp only
  rw [find?_foldl_push acc.nextDoc ⟨t⟩ _ _ (ImpactsAccumulator.termFreqs _).asc, htf]
  split
  · rfl
  · rfl

/-- **The accumulator's list of a term** is its occurrences. -/
theorem terms_accumulated (tk : Tokenizer) (texts : List String) :
    (texts.foldl ImpactsAccumulator.addDoc (ImpactsAccumulator.new tk)).tokenizer = tk ∧
    (texts.foldl ImpactsAccumulator.addDoc (ImpactsAccumulator.new tk)).nextDoc = texts.length ∧
    (texts.foldl ImpactsAccumulator.addDoc (ImpactsAccumulator.new tk)).docLens =
      texts.map (fun text => (tk.tokenize text).length) ∧
    ∀ t, (texts.foldl ImpactsAccumulator.addDoc (ImpactsAccumulator.new tk)).terms.find? ⟨t⟩ =
      if occurrences tk texts t = [] then none else some (occurrences tk texts t) := by
  induction texts using List.reverseRecOn with
  | nil => exact ⟨rfl, rfl, rfl, fun t => rfl⟩
  | append_singleton texts text ih =>
    obtain ⟨htk, hnext, hlens, hterms⟩ := ih
    rw [List.foldl_append, List.foldl_cons, List.foldl_nil]
    refine ⟨htk, ?_, ?_, fun t => ?_⟩
    · rw [List.length_append, List.length_singleton, ← hnext]
      rfl
    · rw [List.map_append, List.map_singleton, addDoc_docLens, htk, hlens]
    · rw [find?_addDoc, htk, hnext, hterms, occurrences_append]
      by_cases h0 : (tk.tokenize text).count t = 0
      · rw [if_pos h0, if_pos h0, List.append_nil]
      · rw [if_neg h0, if_neg h0, if_neg (List.append_ne_nil_of_right_ne_nil _ (List.cons_ne_nil _ _))]
        by_cases hnil : occurrences tk texts t = []
        · rw [if_pos hnil, hnil]
          rfl
        · rw [if_neg hnil]
          rfl

omit [Unicode] [TokenFilters] in
/-- A doc's tokens put it into their postings. -/
theorem find?_foldl_insert (doc : Fin u32Bound) (t : String) (toks : List String) : ∀ p : TermMap,
    (toks.foldl (fun p t => p.update ⟨t⟩ fun bm => (bm.getD ∅).insert doc.val doc.isLt) p).find? ⟨t⟩ =
      if toks.count t = 0 then p.find? ⟨t⟩ else some (((p.find? ⟨t⟩).getD ∅).insert doc.val doc.isLt) := by
  induction toks with
  | nil =>
    intro p
    rfl
  | cons u toks ih =>
    intro p
    rw [List.foldl_cons, ih, OrdMap.find?_update, List.count_cons]
    by_cases hu : u = t
    · subst hu
      rw [if_pos (beq_self_eq_true u), if_pos rfl, if_neg (Nat.succ_ne_zero _), Option.getD_some]
      split
      · rfl
      · congr 1
        refine AscSet.ext_mem fun d => ?_
        rw [AscSet.mem_insert, AscSet.mem_insert]
        exact ⟨fun h => h.elim Or.inl id, Or.inr⟩
    · have hne : ¬ (⟨t⟩ : Term) = ⟨u⟩ := fun h => hu (congrArg Term.text h).symm
      rw [if_neg hne, if_neg (show ¬ (u == t) = true by simpa using hu), Nat.add_zero]

/-- The postings after some docs. -/
theorem postings_foldl (t : String) (ds : List (Fin u32Bound × String)) : ∀ b : TermIndexBuilder,
    ((ds.foldl (fun b d => b.add d.1 d.2) b).postings.find? ⟨t⟩ = none ↔
      b.postings.find? ⟨t⟩ = none ∧ ∀ x ∈ ds, (b.config.tokenizer.tokenize x.2).count t = 0) ∧
    ∀ d, d ∈ ((ds.foldl (fun b d => b.add d.1 d.2) b).postings.find? ⟨t⟩).getD ∅ ↔
      d ∈ (b.postings.find? ⟨t⟩).getD ∅ ∨ ∃ x ∈ ds, x.1.val = d ∧ 0 < (b.config.tokenizer.tokenize x.2).count t := by
  induction ds with
  | nil =>
    intro b
    simp
  | cons x ds ih =>
    intro b
    obtain ⟨hnone, hmem⟩ := ih (b.add x.1 x.2)
    have hadd : (b.add x.1 x.2).postings.find? ⟨t⟩ = _ :=
      find?_foldl_insert x.1 t (b.config.tokenizer.tokenize x.2) b.postings
    have hconfig : (b.add x.1 x.2).config = b.config := rfl
    rw [hadd, hconfig] at hnone hmem
    rw [List.foldl_cons]
    refine ⟨?_, fun d => ?_⟩
    · rw [hnone, List.forall_mem_cons]
      by_cases h0 : (b.config.tokenizer.tokenize x.2).count t = 0
      · rw [if_pos h0]
        tauto
      · rw [if_neg h0]
        simp [h0]
    · rw [hmem d, List.exists_mem_cons_iff]
      by_cases h0 : (b.config.tokenizer.tokenize x.2).count t = 0
      · rw [if_pos h0]
        simp [h0]
      · rw [if_neg h0, Option.getD_some, AscSet.mem_insert]
        have hpos := Nat.pos_of_ne_zero h0
        constructor
        · rintro ((rfl | h) | h)
          · exact Or.inr (Or.inl ⟨rfl, hpos⟩)
          · exact Or.inl h
          · exact Or.inr (Or.inr h)
        · rintro (h | ⟨rfl, -⟩ | h)
          · exact Or.inl (Or.inr h)
          · exact Or.inl (Or.inl rfl)
          · exact Or.inr h

theorem mem_occurrences {tk : Tokenizer} {texts : List String} {t : String} {o : Nat × Nat} :
    o ∈ occurrences tk texts t ↔ ∃ h : o.1 < texts.length, (tk.tokenize texts[o.1]).count t = o.2 ∧ 0 < o.2 := by
  unfold occurrences
  rw [List.mem_filter, List.mem_map, decide_eq_true_iff]
  constructor
  · rintro ⟨⟨x, hx, rfl⟩, hpos⟩
    obtain ⟨i, hi, rfl⟩ := List.mem_iff_getElem.mp hx
    rw [List.length_zipIdx] at hi
    rw [List.getElem_zipIdx] at hpos ⊢
    simp only [Nat.zero_add] at hpos ⊢
    exact ⟨hi, trivial, hpos⟩
  · rintro ⟨hlt, hcount, hpos⟩
    refine ⟨⟨(texts[o.1], o.1), ?_, by rw [hcount]⟩, hpos⟩
    rw [List.mem_iff_getElem]
    exact ⟨o.1, by rwa [List.length_zipIdx], by rw [List.getElem_zipIdx, Nat.zero_add]⟩

theorem occurrences_asc (tk : Tokenizer) (texts : List String) (t : String) :
    (occurrences tk texts t).Pairwise fun a b => a.1 < b.1 := by
  induction texts using List.reverseRecOn with
  | nil => exact List.Pairwise.nil
  | append_singleton texts text ih =>
    rw [occurrences_append]
    split
    · rwa [List.append_nil]
    · refine List.pairwise_append.mpr ⟨ih, List.pairwise_singleton _ _, fun o ho o' ho' => ?_⟩
      obtain ⟨hlt, -⟩ := mem_occurrences.mp ho
      rw [List.mem_singleton.mp ho']
      exact hlt

/-- **The builder's posting of a term** is the docs of its occurrences. -/
theorem TextCorpus.postings_built (c : TextCorpus) (config : TermIndexConfig) (t : String) :
    (c.postings config).find? ⟨t⟩ = none ∧ occurrences config.tokenizer c.texts t = [] ∨
    ∃ S, (c.postings config).find? ⟨t⟩ = some S ∧ occurrences config.tokenizer c.texts t ≠ [] ∧
      S.toList = (occurrences config.tokenizer c.texts t).map Prod.fst := by
  obtain ⟨hnone, hmem⟩ := postings_foldl t c.docs (TermIndexBuilder.new config)
  have hdocs : ∀ x, x ∈ c.docs ↔ ∃ h : x.1.val < c.texts.length, c.texts[x.1.val] = x.2 := by
    intro x
    unfold TextCorpus.docs
    rw [List.mem_ofFn]
    constructor
    · rintro ⟨i, rfl⟩
      exact ⟨i.isLt, rfl⟩
    · rintro ⟨h, hx⟩
      exact ⟨⟨x.1.val, h⟩, Prod.ext rfl hx⟩
  have hposting : ∀ d, d ∈ ((c.postings config).find? ⟨t⟩).getD ∅ ↔
      d ∈ (occurrences config.tokenizer c.texts t).map Prod.fst := by
    intro d
    rw [show (c.postings config).find? ⟨t⟩ = _ from rfl, TextCorpus.postings, hmem d, List.mem_map]
    constructor
    · rintro (h | ⟨x, hx, rfl, hpos⟩)
      · exact absurd h (AscSet.not_mem_empty d)
      · obtain ⟨hlt, hx⟩ := (hdocs x).mp hx
        refine ⟨(x.1.val, (config.tokenizer.tokenize x.2).count t), mem_occurrences.mpr ⟨hlt, ?_, hpos⟩, rfl⟩
        simp only [hx]
    · rintro ⟨o, ho, rfl⟩
      obtain ⟨hlt, hcount, hpos⟩ := mem_occurrences.mp ho
      refine Or.inr ⟨(⟨o.1, Nat.lt_trans hlt c.length_lt⟩, c.texts[o.1]), (hdocs _).mpr ⟨hlt, rfl⟩, rfl, ?_⟩
      show 0 < (config.tokenizer.tokenize c.texts[o.1]).count t
      omega
  cases hfind : (c.postings config).find? ⟨t⟩ with
  | none =>
    refine Or.inl ⟨rfl, ?_⟩
    rw [hfind] at hposting
    apply List.map_eq_nil_iff.mp
    apply List.eq_nil_iff_forall_not_mem.mpr
    intro d hd
    exact absurd ((hposting d).mpr hd) (AscSet.not_mem_empty d)
  | some S =>
    rw [hfind] at hposting
    have hS : S.toList = (occurrences config.tokenizer c.texts t).map Prod.fst :=
      S.asc.eq_of_mem_iff (List.pairwise_map.mpr (occurrences_asc _ _ _)) fun {d} => hposting d
    refine Or.inr ⟨S, rfl, fun hnil => ?_, hS⟩
    -- a posting that is there has the doc that made it
    have hno : ∀ x ∈ c.docs, (config.tokenizer.tokenize x.2).count t = 0 := by
      intro x hx
      by_contra hpos
      obtain ⟨hlt, hxt⟩ := (hdocs x).mp hx
      have ho : (x.1.val, (config.tokenizer.tokenize x.2).count t) ∈ occurrences config.tokenizer c.texts t :=
        mem_occurrences.mpr ⟨hlt, by simp only [hxt], Nat.pos_of_ne_zero hpos⟩
      rw [hnil] at ho
      cases ho
    have := hnone.mpr ⟨rfl, hno⟩
    rw [show (c.docs.foldl (fun b d => b.add d.1 d.2) (TermIndexBuilder.new config)).postings = c.postings config from rfl,
      hfind] at this
    cases this

end

/-! ## The sidecar's writer -/

/-- An entry of the sidecar's table. -/
structure ImpactEntry where
  headOff : Nat
  rel : Nat
  card : Nat

/-- `SPARSE_STRIDE`. -/
def impactStride : Nat := 512

section

variable [ScoreMath]

def quantizeImpact (tf dl : Nat) (avgdl k1 b : Score) : UInt8 :=
  UInt8.ofNat (max 1 (min 255 (ScoreMath.impact tf dl avgdl k1 b))).toNat

/-- A term's bytes. -/
def impactBytes (acc : ImpactsAccumulator) (avgdl k1 b : Score) (tfs : List (Nat × Nat)) : Bytes :=
  tfs.map fun x => quantizeImpact x.2 (acc.docLens.getD x.1 0) avgdl k1 b

/-- The loop of `write_impacts` over the dictionary, `rel` bytes after the start of the impacts. -/
def impactEntries (acc : ImpactsAccumulator) (avgdl k1 b : Score) :
    Option Nat → Nat → List (String × Nat) → Except String (List ImpactEntry × Bytes)
  | _, _, [] => .ok ([], [])
  | prev, rel, (term, headOff) :: dict =>
    if prev.any fun p => headOff ≤ p then .error "RRSB dict head_offs not ascending"
    else
      match acc.terms.find? ⟨term⟩ with
      | none => .error ("dictionary term " ++ debugText term ++ " has no accumulated stats — tokenizer mismatch?")
      | some tfs => do
        let rest ← impactEntries acc avgdl k1 b (some headOff) (rel + (impactBytes acc avgdl k1 b tfs).length) dict
        pure (⟨headOff, rel, tfs.length % 2 ^ 32⟩ :: rest.1, impactBytes acc avgdl k1 b tfs ++ rest.2)

/-- The 64-byte header. -/
def rrsbHeader (scale k1 b avgdl : Score) (termCount entriesOff impactsOff docCount : Nat) : Bytes :=
  rrsbMagic ++ (le 2 rrsbVersion ++ (le 2 0 ++ (le 4 (ScoreMath.toBits scale) ++ (le 4 (ScoreMath.toBits k1) ++
    (le 4 (ScoreMath.toBits b) ++ (le 4 (ScoreMath.toBits avgdl) ++ (le 4 termCount ++ (le 4 impactStride ++
      (le 8 entriesOff ++ (le 8 impactsOff ++ (le 8 docCount ++ le 8 0)))))))))))

/-- A row of the entry table. -/
def impactRow (e : ImpactEntry) : Bytes := le 8 e.headOff ++ (le 8 e.rel ++ le 4 e.card)

/-- The bytes of a sidecar. -/
def impactFile (entries : List ImpactEntry) (impacts : Bytes) (docCount : Nat) (avgdl k1 b : Score) : Bytes :=
  let termCount := entries.length % 2 ^ 32
  let sparseCount := (termCount + impactStride - 1) / impactStride
  let entriesOff := rrsbHeaderSize + sparseCount * 8
  let impactsOff := entriesOff + entries.length * entrySize
  rrsbHeader (ScoreMath.scaleOf k1) k1 b avgdl termCount entriesOff impactsOff docCount ++
    (table (fun i => le 8 ((entries.map ImpactEntry.headOff).getD (i * impactStride) 0)) (List.range sparseCount) ++
      (table impactRow entries ++ impacts))

def writeImpacts (dict : List (String × Nat)) (acc : ImpactsAccumulator) (k1 b : Score) : Except String Bytes :=
  let n := acc.docLens.length
  if n = 0 then .error "RRSB build over zero documents"
  else do
    let avgdl := ScoreMath.mean acc.docLens.sum n
    let rest ← impactEntries acc avgdl k1 b none 0 dict
    pure (impactFile rest.1 rest.2 n avgdl k1 b)

end

/-! ## The search for an entry -/

/-- An entry as a record of the dictionary search of an index, which has the same layout. -/
def ImpactEntry.toRec (e : ImpactEntry) : DictRec :=
  ⟨⟨e.headOff % 2 ^ 64, Nat.mod_lt _ (by decide)⟩, e.rel, e.card⟩

/-- Every field fits. -/
structure ImpactEntry.Fits (e : ImpactEntry) : Prop where
  headOff : e.headOff < 2 ^ 64
  rel : e.rel < 2 ^ 64
  card : e.card < 2 ^ 32

/-- The search of the sidecar is that of the dictionary. -/
theorem findEntryLoop_eq (block : Bytes) {h : Nat} (hh : h < 2 ^ 64) : ∀ fuel lo hi : Nat,
    findEntryLoop block h fuel lo hi =
      (Index.parseBlockLoop block (Fin.ofNat _ h) fuel lo hi).map fun r => (r.offset, r.size) := by
  intro fuel
  induction fuel with
  | zero =>
    intro lo hi
    rfl
  | succ fuel ih =>
    intro lo hi
    unfold findEntryLoop Index.parseBlockLoop
    by_cases hlt : lo < hi
    · rw [if_pos hlt, if_pos hlt]
      have hmid : lo + (hi - lo) / 2 = (lo + hi) / 2 := by omega
      have hkey := getLe_lt 8 block ((lo + hi) / 2 * entrySize)
      have hval : (getKey block ((lo + hi) / 2 * dictEntry)).val = getLe 8 block ((lo + hi) / 2 * entrySize) :=
        Nat.mod_eq_of_lt hkey
      have hhval : (Fin.ofNat (2 ^ 64) h).val = h := Nat.mod_eq_of_lt hh
      simp only [hmid, Fin.lt_def, hval, hhval]
      split
      · exact ih _ _
      · split
        · exact ih _ _
        · rfl
    · rw [if_neg hlt, if_neg hlt]
      rfl

section

variable {es : List ImpactEntry} (hfit : ∀ e ∈ es, e.Fits) (hasc : es.Pairwise fun a b => a.headOff < b.headOff)

include hfit

theorem table_toRec : table impactRow es = table dictRow (es.map ImpactEntry.toRec) := by
  unfold table
  rw [List.flatMap_map]
  refine List.flatMap_congr fun e he => ?_
  show le 8 e.headOff ++ _ = le 8 (e.headOff % 2 ^ 64) ++ _
  rw [Nat.mod_eq_of_lt (hfit e he).headOff]
  rfl

include hasc

/-- An entry is found by its key. -/
theorem findEntry_eq {e : ImpactEntry} (he : e ∈ es) : findEntry (table impactRow es) e.headOff = some (e.rel, e.card) := by
  have hrow : ∀ x, (impactRow x).length = entrySize := fun x => by simp [impactRow, entrySize]
  have hn : (table impactRow es).length / entrySize = es.length := by
    rw [length_table hrow]
    exact Nat.mul_div_cancel _ (by decide)
  have hrec : ∀ x ∈ es, (x.toRec).key.val = x.headOff := fun x hx => Nat.mod_eq_of_lt (hfit x hx).headOff
  have hrasc : (es.map ImpactEntry.toRec).Pairwise fun a b => a.key < b.key := by
    rw [List.pairwise_map]
    refine hasc.imp_of_mem fun ha hb hab => ?_
    rw [Fin.lt_def, hrec _ ha, hrec _ hb]
    exact hab
  unfold findEntry
  rw [hn, findEntryLoop_eq _ (hfit e he).headOff, table_toRec hfit]
  have hparse := @parseBlock_eq (es.map ImpactEntry.toRec) (Fin.ofNat _ e.headOff) hrasc (by
    intro r hr
    obtain ⟨x, hx, rfl⟩ := List.mem_map.mp hr
    exact ⟨(hfit x hx).rel, (hfit x hx).card⟩)
  unfold Index.parseBlock at hparse
  rw [List.length_map] at hparse
  rw [hparse]
  obtain ⟨i, hi, rfl⟩ := List.getElem_of_mem he
  have hfound := @find?_eq_getElem (es.map ImpactEntry.toRec) (Fin.ofNat _ es[i].headOff) hrasc i
    (by rwa [List.length_map]) (by rw [List.getElem_map]; rfl)
  rw [hfound, List.getElem_map]
  rfl

end

/-! ## The sidecar read back -/

section

variable [ScoreMath]

/-- What a reader keeps of a sidecar. -/
def writtenImpacts (es : List ImpactEntry) (impacts : Bytes) (docCount : Nat) (avgdl k1 b : Score) : ImpactIndex :=
  let sparseCount := (es.length + impactStride - 1) / impactStride
  let entriesOff := rrsbHeaderSize + sparseCount * 8
  { fetch := MemoryFetch.new (impactFile es impacts docCount avgdl k1 b)
    scale := ScoreMath.scaleOf k1
    docCount := docCount
    termCount := es.length
    stride := impactStride
    entriesOff := entriesOff
    impactsOff := entriesOff + es.length * entrySize
    sparse := (List.range sparseCount).map fun i => (es.map ImpactEntry.headOff).getD (i * impactStride) 0 }

section

variable {es : List ImpactEntry} {impacts : Bytes} {n : Nat} {avgdl k1 b : Score}

theorem length_rrsbHeader (scale k1 b avgdl : Score) (termCount entriesOff impactsOff docCount : Nat) :
    (rrsbHeader scale k1 b avgdl termCount entriesOff impactsOff docCount).length = rrsbHeaderSize := by
  simp [rrsbHeader, rrsbMagic, rrsbHeaderSize]

/-- The fields of the header. -/
theorem rrsbHeader_fields {scale k1 b avgdl : Score} {termCount entriesOff impactsOff docCount : Nat} (rest : Bytes)
    (hterm : termCount < 2 ^ 32) (hentries : entriesOff < 2 ^ 64) (himpacts : impactsOff < 2 ^ 64)
    (hdocs : docCount < 2 ^ 64) {file : Bytes}
    (hfile : file = rrsbHeader scale k1 b avgdl termCount entriesOff impactsOff docCount ++ rest) :
    slice file 0 4 = rrsbMagic ∧ getLe 2 file 4 = rrsbVersion ∧ getLe 4 file 8 = ScoreMath.toBits scale ∧
      getLe 4 file 24 = termCount ∧ getLe 4 file 28 = impactStride ∧ getLe 8 file 32 = entriesOff ∧
      getLe 8 file 40 = impactsOff ∧ getLe 8 file 48 = docCount := by
  have hscale := ScoreMath.toBits_lt scale
  have hmagic : ∀ (w off : Nat) (x : Bytes), getLe w (rrsbMagic ++ x) (4 + off) = getLe w x off := by
    intro w off x
    rw [getLe_append_right _ _ _ _ (by simp [rrsbMagic])]
    congr 1
    simp [rrsbMagic]
  subst hfile
  unfold rrsbHeader
  simp only [List.append_assoc]
  have h4 : ∀ (w off : Nat) (x : Bytes) (n1 n2 n3 n4 n5 n6 : Nat),
      getLe w (rrsbMagic ++ (le 2 n1 ++ (le 2 n2 ++ (le 4 n3 ++ (le 4 n4 ++ (le 4 n5 ++ (le 4 n6 ++ x))))))) (24 + off) =
        getLe w x off := by
    intro w off x n1 n2 n3 n4 n5 n6
    rw [show 24 + off = 4 + (20 + off) by omega, hmagic, show 20 + off = 2 + (18 + off) by omega, getLe_le_skip,
      show 18 + off = 2 + (16 + off) by omega, getLe_le_skip, show 16 + off = 4 + (12 + off) by omega, getLe_le_skip,
      show 12 + off = 4 + (8 + off) by omega, getLe_le_skip, show 8 + off = 4 + (4 + off) by omega, getLe_le_skip,
      getLe_le_skip]
  refine ⟨?_, ?_, ?_, ?_, ?_, ?_, ?_, ?_⟩
  · rw [slice_append_left _ _ _ _ (by simp [rrsbMagic])]
    rfl
  · exact (hmagic 2 0 _).trans (getLe_field (by decide) _)
  · exact (hmagic 4 4 _).trans ((getLe_le_skip 4 2 _ _ 2).trans ((getLe_le_skip 4 2 _ _ 0).trans
      (getLe_field hscale _)))
  · exact (h4 4 0 _ _ _ _ _ _ _).trans (getLe_field (by omega) _)
  · exact (h4 4 4 _ _ _ _ _ _ _).trans ((getLe_le_skip 4 4 _ _ 0).trans (getLe_field (by decide) _))
  · exact (h4 8 8 _ _ _ _ _ _ _).trans ((getLe_le_skip 8 4 _ _ 4).trans ((getLe_le_skip 8 4 _ _ 0).trans
      (getLe_field (by omega) _)))
  · exact (h4 8 16 _ _ _ _ _ _ _).trans ((getLe_le_skip 8 4 _ _ 12).trans ((getLe_le_skip 8 4 _ _ 8).trans
      ((getLe_le_skip 8 8 _ _ 0).trans (getLe_field (by omega) _))))
  · exact (h4 8 24 _ _ _ _ _ _ _).trans ((getLe_le_skip 8 4 _ _ 20).trans ((getLe_le_skip 8 4 _ _ 16).trans
      ((getLe_le_skip 8 8 _ _ 8).trans ((getLe_le_skip 8 8 _ _ 0).trans (getLe_field (by omega) _)))))

theorem sparse_lt_u64 (hfit : ∀ e ∈ es, e.Fits) :
    ∀ x ∈ (writtenImpacts es impacts n avgdl k1 b).sparse, x < 256 ^ 8 := by
  intro x hx
  obtain ⟨i, -, rfl⟩ := List.mem_map.mp hx
  rw [List.getD_eq_getElem?_getD, List.getElem?_map]
  cases hget : es[i * impactStride]? with
  | none => exact Nat.pow_pos (by decide)
  | some e => exact (hfit e (List.mem_of_getElem? hget)).headOff

variable (hcount : es.length < 2 ^ 32)

include hcount

theorem impactFile_eq : impactFile es impacts n avgdl k1 b =
    rrsbHeader (ScoreMath.scaleOf k1) k1 b avgdl es.length (writtenImpacts es impacts n avgdl k1 b).entriesOff
      (writtenImpacts es impacts n avgdl k1 b).impactsOff n ++
      (table (le 8) (writtenImpacts es impacts n avgdl k1 b).sparse ++ (table impactRow es ++ impacts)) := by
  unfold impactFile writtenImpacts
  simp only
  rw [Nat.mod_eq_of_lt hcount]
  congr 2
  unfold table
  rw [List.flatMap_map]

theorem length_impactFile : (impactFile es impacts n avgdl k1 b).length =
    (writtenImpacts es impacts n avgdl k1 b).impactsOff + impacts.length := by
  have hrow : ∀ x, (impactRow x).length = entrySize := fun x => by simp [impactRow, entrySize]
  rw [impactFile_eq hcount, List.length_append, List.length_append, List.length_append, length_rrsbHeader,
    length_table (fun x => length_le 8 x), length_table hrow]
  unfold writtenImpacts
  simp only [List.length_map, List.length_range]
  omega

variable (hlen : (impactFile es impacts n avgdl k1 b).length < u64Bound)

include hlen

/-- **Opening a sidecar**: an unusable scale refuses it, or the index is read back. -/
theorem settles_openImpacts (hn : n < 2 ^ 64) (hfit : ∀ e ∈ es, e.Fits) :
    Settles (ImpactIndex.open (MemoryFetch.new (impactFile es impacts n avgdl k1 b)))
      (if ScoreMath.usable (ScoreMath.scaleOf k1) = false then .error (.malformed "bad RRSB stride/scale")
        else .ok (writtenImpacts es impacts n avgdl k1 b)) := by
  have hflen := @length_impactFile _ es impacts n avgdl k1 b hcount
  have hentries : (writtenImpacts es impacts n avgdl k1 b).entriesOff =
      rrsbHeaderSize + (es.length + impactStride - 1) / impactStride * 8 := rfl
  have himpacts : (writtenImpacts es impacts n avgdl k1 b).impactsOff =
      (writtenImpacts es impacts n avgdl k1 b).entriesOff + es.length * entrySize := rfl
  have hsize : rrsbHeaderSize = 64 := rfl
  obtain ⟨hm, hv, hs, ht, hst, he, hi, hd⟩ := rrsbHeader_fields _ hcount
    (by unfold u64Bound at hlen; omega) (by unfold u64Bound at hlen; omega) hn
    (@impactFile_eq _ es impacts n avgdl k1 b hcount)
  have hfield : ∀ w off : Nat, off + w ≤ 64 →
      getLe w (slice (impactFile es impacts n avgdl k1 b) 0 rrsbHeaderSize) off =
        getLe w (impactFile es impacts n avgdl k1 b) off := by
    intro w off ho
    have := getLe_slice w (impactFile es impacts n avgdl k1 b) 0 rrsbHeaderSize off ho
    rwa [Nat.zero_add] at this
  have hcheck : ImpactIndex.checkHeader (slice (impactFile es impacts n avgdl k1 b) 0 rrsbHeaderSize) =
      if ScoreMath.usable (ScoreMath.scaleOf k1) = false then .error (.malformed "bad RRSB stride/scale")
      else .ok ((es.length + impactStride - 1) / impactStride) := by
    unfold ImpactIndex.checkHeader
    simp only
    rw [if_neg (by rw [length_slice _ _ _ (by omega)]; omega),
      if_neg (by rw [slice_slice _ _ _ _ _ (by decide), Nat.add_zero, hm]; simp),
      if_neg (by rw [hfield 2 4 (by omega), hv]; simp), hfield 4 28 (by omega), hst, hfield 4 8 (by omega), hs,
      ScoreMath.ofBits_toBits, hfield 4 24 (by omega), ht]
    by_cases hu : ScoreMath.usable (ScoreMath.scaleOf k1) = false
    · rw [if_pos (Or.inr hu), if_pos hu]
    · rw [if_neg hu, if_neg (by
        rintro (h | h)
        · exact absurd h (by decide)
        · exact hu h)]
  have hsparse : slice (impactFile es impacts n avgdl k1 b) rrsbHeaderSize
      ((es.length + impactStride - 1) / impactStride * 8) =
      table (le 8) (writtenImpacts es impacts n avgdl k1 b).sparse := by
    rw [impactFile_eq hcount]
    refine slice_middle _ _ _ _ _ (length_rrsbHeader _ _ _ _ _ _ _ _).symm ?_
    rw [length_table fun x => length_le 8 x]
    unfold writtenImpacts
    rw [List.length_map, List.length_range]
  have hback : (List.range ((es.length + impactStride - 1) / impactStride)).map
      (fun i => getLe 8 (table (le 8) (writtenImpacts es impacts n avgdl k1 b).sparse) (i * 8)) =
      (writtenImpacts es impacts n avgdl k1 b).sparse := by
    refine List.ext_getElem (by unfold writtenImpacts; simp) fun i h1 h2 => ?_
    rw [List.getElem_map, List.getElem_range]
    have hget := getLe_table (fun x => length_le 8 x) (writtenImpacts es impacts n avgdl k1 b).sparse i h2 8 0
      (Nat.le_refl _)
    rw [Nat.add_zero] at hget
    rw [hget]
    exact getLe_last (sparse_lt_u64 hfit _ (List.getElem_mem h2))
  unfold ImpactIndex.open
  refine (MemoryFetch.settles_read (MemoryFetch.inFile_new hlen (by omega))).bind ?_
  show Settles (ofOutcome (ImpactIndex.checkHeader (slice (impactFile es impacts n avgdl k1 b) 0 rrsbHeaderSize)) >>= _) _
  rw [hcheck]
  by_cases hu : ScoreMath.usable (ScoreMath.scaleOf k1) = false
  · rw [if_pos hu, if_pos hu]
    exact (Settles.ofOutcome _).bind_error
  · rw [if_neg hu, if_neg hu]
    refine (Settles.ofOutcome _).bind ?_
    refine (MemoryFetch.settles_read (MemoryFetch.inFile_new hlen (by omega))).bind ?_
    show Settles (if (slice (impactFile es impacts n avgdl k1 b) rrsbHeaderSize _).length < _ then _ else
      Pure.pure (ImpactIndex.ofHeader _ (slice (impactFile es impacts n avgdl k1 b) 0 rrsbHeaderSize)
        (slice (impactFile es impacts n avgdl k1 b) rrsbHeaderSize _) _)) _
    rw [if_neg (by rw [length_slice _ _ _ (by omega)]; omega), hsparse]
    unfold ImpactIndex.ofHeader
    rw [hfield 4 8 (by omega), hs, ScoreMath.ofBits_toBits, hfield 8 48 (by omega), hd, hfield 4 24 (by omega), ht,
      hfield 4 28 (by omega), hst, hfield 8 32 (by omega), he, hfield 8 40 (by omega), hi, hback]
    exact Settles.pure _

omit hcount hlen in
/-- The slot of an entry is its place in the table over the stride. -/
theorem entryStripe_eq (hasc : es.Pairwise fun a b => a.headOff < b.headOff) {j : Nat} (hj : j < es.length) :
    (writtenImpacts es impacts n avgdl k1 b).entryStripe es[j].headOff =
      ((writtenImpacts es impacts n avgdl k1 b).entriesOff + j / impactStride * impactStride * entrySize,
        min (es.length - j / impactStride * impactStride) impactStride * entrySize) := by
  have hmono : ∀ (x y : Nat) (hx : x < es.length) (hy : y < es.length), x < y → es[x].headOff < es[y].headOff :=
    fun x y hx hy hxy => List.pairwise_iff_getElem.mp hasc x y hx hy hxy
  have hslots : (writtenImpacts es impacts n avgdl k1 b).sparse.length = (es.length + impactStride - 1) / impactStride := by
    unfold writtenImpacts
    rw [List.length_map, List.length_range]
  have hs : impactStride = 512 := rfl
  have hin : ∀ i, i < (es.length + impactStride - 1) / impactStride → i * impactStride < es.length := by
    intro i hi
    rw [hs] at hi ⊢
    omega
  have hget : ∀ (i : Nat) (hi : i < (writtenImpacts es impacts n avgdl k1 b).sparse.length) (hk : i * impactStride < es.length),
      (writtenImpacts es impacts n avgdl k1 b).sparse[i] = es[i * impactStride].headOff := by
    intro i hi hk
    have hsp : (writtenImpacts es impacts n avgdl k1 b).sparse =
        (List.range ((es.length + impactStride - 1) / impactStride)).map
          fun i => (es.map ImpactEntry.headOff).getD (i * impactStride) 0 := rfl
    rw [List.getElem_of_eq hsp hi, List.getElem_map, List.getElem_range, List.getD_eq_getElem _ _ (by rwa [List.length_map]),
      List.getElem_map]
  have hspec := binarySearch_spec (writtenImpacts es impacts n avgdl k1 b).sparse es[j].headOff
  have hslot : ∀ i, (∃ (hi : i < (writtenImpacts es impacts n avgdl k1 b).sparse.length),
      (writtenImpacts es impacts n avgdl k1 b).sparse[i] ≤ es[j].headOff) →
      (∀ (hi : i + 1 < (writtenImpacts es impacts n avgdl k1 b).sparse.length),
        es[j].headOff < (writtenImpacts es impacts n avgdl k1 b).sparse[i + 1]) → i = j / impactStride := by
    rintro i ⟨hi, hle⟩ hnext
    have hk := hin i (by rw [← hslots]; exact hi)
    rw [hget i hi hk] at hle
    have hlow : i * impactStride ≤ j := by
      by_contra hlt
      exact absurd (hmono j _ hj hk (by omega)) (by omega)
    have hhigh : j < (i + 1) * impactStride := by
      by_contra hge
      have hk' : (i + 1) * impactStride < es.length := by omega
      have hi' : i + 1 < (writtenImpacts es impacts n avgdl k1 b).sparse.length := by
        rw [hslots, hs]
        rw [hs] at hk'
        omega
      have := hnext hi'
      rw [hget _ hi' hk'] at this
      rcases Nat.eq_or_lt_of_le (Nat.not_lt.mp hge) with heq | hlt
      · simp only [heq] at this
        omega
      · exact absurd (hmono _ j hk' hj hlt) (by omega)
    rw [hs] at hlow hhigh ⊢
    omega
  have hfirst : es[0].headOff ≤ es[j].headOff := by
    rcases Nat.eq_zero_or_pos j with rfl | hpos
    · exact Nat.le_refl _
    · exact le_of_lt (hmono 0 j _ hj hpos)
  have hpos : 0 < (writtenImpacts es impacts n avgdl k1 b).sparse.length := by
    rw [hslots, hs]
    omega
  have hdone : ∀ i, i = j / impactStride →
      ((writtenImpacts es impacts n avgdl k1 b).entriesOff + i * impactStride * entrySize,
        min (es.length - i * impactStride) impactStride * entrySize) =
      ((writtenImpacts es impacts n avgdl k1 b).entriesOff + j / impactStride * impactStride * entrySize,
        min (es.length - j / impactStride * impactStride) impactStride * entrySize) := by
    rintro i rfl
    rfl
  unfold ImpactIndex.entryStripe
  cases hbs : binarySearch (writtenImpacts es impacts n avgdl k1 b).sparse es[j].headOff with
  | ok i =>
    rw [hbs] at hspec
    obtain ⟨⟨hi, heq⟩, -⟩ := hspec
    refine hdone i (hslot i ⟨hi, le_of_eq heq⟩ fun hi' => ?_)
    rw [← heq, hget i hi (hin i (by rw [← hslots]; exact hi)), hget (i + 1) hi' (hin (i + 1) (by rw [← hslots]; exact hi'))]
    exact hmono _ _ _ _ (by rw [hs]; omega)
  | error i =>
    rw [hbs] at hspec
    obtain ⟨hle, hlow, hhigh⟩ := hspec
    refine hdone (i - 1) (hslot (i - 1) ?_ ?_)
    · refine ⟨by omega, ?_⟩
      by_cases h0 : i = 0
      · subst h0
        rw [hget 0 hpos (by omega)]
        simpa using hfirst
      · exact le_of_lt (hlow (i - 1) (by omega) (by omega))
    · intro hi'
      by_cases h0 : i = 0
      · subst h0
        have h := hhigh hpos
        rw [hget 0 hpos (by omega)] at h
        simp only [Nat.zero_mul] at h
        omega
      · have h1 : i - 1 + 1 = i := by omega
        simp only [h1]
        exact hhigh (by omega)


/-- **A written entry leads to its term's bytes.** -/
theorem holds_written (hfit : ∀ e ∈ es, e.Fits) (hasc : es.Pairwise fun a b => a.headOff < b.headOff) {e : ImpactEntry}
    (he : e ∈ es) {t : TermImpacts} (hcard : e.card = t.docs.len) (hle : e.rel + e.card ≤ impacts.length)
    (hbytes : slice impacts e.rel e.card = t.docs.toList.map t.impact) :
    (writtenImpacts es impacts n avgdl k1 b).Holds e.headOff e.rel t := by
  have hrow : ∀ x, (impactRow x).length = entrySize := fun x => by simp [impactRow, entrySize]
  have hflen := @length_impactFile _ es impacts n avgdl k1 b hcount
  have himpacts : (writtenImpacts es impacts n avgdl k1 b).impactsOff =
      (writtenImpacts es impacts n avgdl k1 b).entriesOff + es.length * entrySize := rfl
  have hhead : (rrsbHeader (ScoreMath.scaleOf k1) k1 b avgdl es.length (writtenImpacts es impacts n avgdl k1 b).entriesOff
      (writtenImpacts es impacts n avgdl k1 b).impactsOff n ++
        table (le 8) (writtenImpacts es impacts n avgdl k1 b).sparse).length =
      (writtenImpacts es impacts n avgdl k1 b).entriesOff := by
    rw [List.length_append, length_rrsbHeader, length_table fun x => length_le 8 x]
    unfold writtenImpacts
    simp only [List.length_map, List.length_range]
  have hfile : impactFile es impacts n avgdl k1 b = (rrsbHeader (ScoreMath.scaleOf k1) k1 b avgdl es.length
      (writtenImpacts es impacts n avgdl k1 b).entriesOff (writtenImpacts es impacts n avgdl k1 b).impactsOff n ++
        table (le 8) (writtenImpacts es impacts n avgdl k1 b).sparse) ++ (table impactRow es ++ impacts) := by
    rw [List.append_assoc]
    exact impactFile_eq hcount
  have htable := length_table hrow es
  obtain ⟨j, hj, rfl⟩ := List.getElem_of_mem he
  have hlow := Nat.div_mul_le_self j impactStride
  have hhigh : j < j / impactStride * impactStride + impactStride := Nat.lt_div_mul_add (by decide)
  have hstripe : j / impactStride * impactStride * entrySize +
      min (es.length - j / impactStride * impactStride) impactStride * entrySize ≤ es.length * entrySize := by
    rw [← Nat.add_mul]
    exact Nat.mul_le_mul_right _ (by omega)
  rw [hcard] at hle hbytes
  refine ⟨?_, ?_, ?_, ?_⟩
  · rw [entryStripe_eq hasc hj]
    refine MemoryFetch.inFile_new hlen ?_
    simp only
    omega
  · rw [entryStripe_eq hasc hj]
    show findEntry (slice (impactFile es impacts n avgdl k1 b) _ _) _ = _
    simp only
    rw [hfile, slice_append_right _ _ _ _ (by omega), hhead,
      show (writtenImpacts es impacts n avgdl k1 b).entriesOff + j / impactStride * impactStride * entrySize -
        (writtenImpacts es impacts n avgdl k1 b).entriesOff = j / impactStride * impactStride * entrySize by omega,
      slice_append_left _ _ _ _ (by omega), slice_table_run hrow _ _ _ (by omega)]
    have hsub : ((es.drop (j / impactStride * impactStride)).take
        (min (es.length - j / impactStride * impactStride) impactStride)).Sublist es :=
      (List.take_sublist _ _).trans (List.drop_sublist _ _)
    rw [findEntry_eq (fun x hx => hfit x (hsub.subset hx)) (hasc.sublist hsub), hcard]
    rw [List.mem_iff_getElem]
    refine ⟨j - j / impactStride * impactStride, ?_, ?_⟩
    · rw [List.length_take, List.length_drop]
      omega
    · rw [List.getElem_take, List.getElem_drop]
      congr 1
      omega
  · refine MemoryFetch.inFile_new hlen ?_
    omega
  · show slice (impactFile es impacts n avgdl k1 b) _ _ = _
    rw [hfile, slice_append_right _ _ _ _ (by omega), slice_append_right _ _ _ _ (by omega), ← hbytes]
    congr 1
    omega

end

/-! ## The entries of a dictionary -/

/-- What the writer notes of a term. -/
def EntryFor (acc : ImpactsAccumulator) (avgdl k1 b : Score) (impacts : Bytes) (d : String × Nat) (e : ImpactEntry) :
    Prop :=
  ∃ tfs, acc.terms.find? ⟨d.1⟩ = some tfs ∧ e.headOff = d.2 ∧ e.card = tfs.length % 2 ^ 32 ∧
    e.rel + tfs.length ≤ impacts.length ∧ slice impacts e.rel tfs.length = impactBytes acc avgdl k1 b tfs

theorem impactEntries_ok {acc : ImpactsAccumulator} {avgdl k1 b : Score} {dict : List (String × Nat)} :
    ∀ {prev : Option Nat} {pre : Bytes} {es : List ImpactEntry} {impacts : Bytes},
    impactEntries acc avgdl k1 b prev pre.length dict = .ok (es, impacts) →
    List.Forall₂ (EntryFor acc avgdl k1 b (pre ++ impacts)) dict es ∧
      es.Pairwise (fun a b => a.headOff < b.headOff) ∧ ∀ p, prev = some p → ∀ e ∈ es, p < e.headOff := by
  induction dict with
  | nil =>
    intro prev pre es impacts h
    obtain ⟨rfl, -⟩ := Prod.mk.inj (Except.ok.inj h)
    exact ⟨List.Forall₂.nil, List.Pairwise.nil, fun _ _ e he => absurd he (by simp)⟩
  | cons d dict ih =>
    intro prev pre es impacts h
    obtain ⟨term, headOff⟩ := d
    unfold impactEntries at h
    split at h
    · cases h
    next hprev =>
    split at h
    · cases h
    next tfs htfs =>
    cases hrest : impactEntries acc avgdl k1 b (some headOff) (pre.length + (impactBytes acc avgdl k1 b tfs).length) dict with
    | error e =>
      rw [hrest] at h
      cases h
    | ok rest =>
      rw [hrest] at h
      obtain ⟨rfl, rfl⟩ := Prod.mk.inj (Except.ok.inj h)
      have hlen : (impactBytes acc avgdl k1 b tfs).length = tfs.length := List.length_map _
      rw [← List.length_append] at hrest
      obtain ⟨hall, hasc, hlow⟩ := ih hrest
      rw [List.append_assoc] at hall
      refine ⟨List.Forall₂.cons ⟨tfs, htfs, rfl, rfl, ?_, ?_⟩ hall, List.pairwise_cons.mpr ⟨hlow headOff rfl, hasc⟩, ?_⟩
      · simp only [List.length_append]
        omega
      · exact slice_middle _ _ _ _ _ rfl hlen.symm
      · rintro p rfl e he
        have hp : p < headOff := by simpa using hprev
        rcases List.mem_cons.mp he with rfl | he
        · exact hp
        · exact Nat.lt_trans hp (hlow headOff rfl e he)

end

/-! ## The dictionary read back -/

namespace TermFile

variable [Roaring] {m : TermMap} {config : TermIndexConfig}

/-- An entry's term as text. -/
def nameOf (e : DictEntry) : String := (fromUtf8 e.term).getD ""

theorem fromUtf8_nameOf {e : DictEntry} (he : e ∈ termEntries config.headBoundary 0 m.toList) :
    ∃ term : Term, e.term = term.bytes ∧ nameOf e = term.text := by
  have hmem := List.mem_map_of_mem (f := DictEntry.term) he
  rw [map_term_termEntries] at hmem
  obtain ⟨p, -, hp⟩ := List.mem_map.mp hmem
  refine ⟨p.1, hp.symm, ?_⟩
  unfold nameOf
  rw [← hp]
  show (fromUtf8 (utf8 p.1.text)).getD "" = _
  rw [fromUtf8_utf8]
  rfl

/-- The terms of an encoded block. -/
theorem blockTerms_encode {g : List DictEntry} (hsub : ∀ e ∈ g, e ∈ termEntries config.headBoundary 0 m.toList)
    (hfit : ∀ e ∈ g, e.Fits) (hoff : g.Pairwise fun a b => a.headOff ≤ b.headOff)
    (hlen : (encodeBlock g).length < 2 ^ sizeBits) :
    TermIndex.blockTerms (encodeBlock g) = .ok (g.map fun e => (nameOf e, e.headOff)) := by
  unfold TermIndex.blockTerms
  rw [iterBlock_encode hfit hoff hlen, List.map_map]
  refine collect_map_ok fun e he => ?_
  obtain ⟨term, hterm, hname⟩ := fromUtf8_nameOf (hsub e he)
  have hutf8 : fromUtf8 e.term = some term.text := by
    rw [hterm]
    exact fromUtf8_utf8 term.text
  show TermIndex.entryTerm (e.term, e.headOff, e.headSize) = _
  unfold TermIndex.entryTerm
  simp only [hutf8]
  rw [hname]

omit [Roaring] in
/-- The loop over the blocks. -/
theorem settles_dictTermsFrom {ix : TermIndex} {rs : List (Nat × Nat)} {gs : List (List DictEntry)}
    (h : List.Forall₂ (fun r g => ix.fetch.InFile r.1 r.2 ∧
      TermIndex.blockTerms (slice ix.fetch.bytes r.1 r.2) = .ok (g.map fun e => (nameOf e, e.headOff))) rs gs) :
    Settles (ix.dictTermsFrom rs) (.ok (gs.flatten.map fun e => (nameOf e, e.headOff))) := by
  induction h with
  | nil => exact Settles.pure _
  | cons hrg _ ih =>
    obtain ⟨hin, hterms⟩ := hrg
    unfold TermIndex.dictTermsFrom
    refine (MemoryFetch.settles_read hin).bind ?_
    rw [hterms]
    refine (Settles.ofOutcome _).bind (ih.bind ?_)
    rw [List.flatten_cons, List.map_append]
    exact Settles.pure _

variable [Fst]

/-- **The dictionary of a written file** is its terms in order, with the offsets of their postings. -/
theorem settles_dictTerms (t : TermFile m config) : Settles t.index.dictTerms
    (.ok ((termEntries config.headBoundary 0 m.toList).map fun e => (nameOf e, e.headOff))) := by
  have hflt := t.length_file_lt
  have hflen := t.length_file
  have hlocs : t.index.dictBlockLocs = (blocksOf 0 t.groups).map fun b => (t.dictStart + b.off, b.bytes.length) := by
    unfold TermIndex.dictBlockLocs
    show List.map _ (List.map _ _) = _
    rw [List.map_map]
    refine List.map_congr_left fun b hb => ?_
    obtain ⟨hlen, hoff⟩ := t.block_lt b hb
    show (t.dictStart + (unpackLoc (packLoc b.off b.bytes.length)).1, (unpackLoc (packLoc b.off b.bytes.length)).2) = _
    rw [unpackLoc_packLoc hoff hlen]
  have hblocks := @blocksOf_slice [] 0 rfl t.groups
  simp only [List.nil_append] at hblocks
  unfold TermIndex.dictTerms
  rw [hlocs, ← t.flatten_eq]
  apply settles_dictTermsFrom
  rw [List.forall₂_map_left_iff]
  have hboth : List.Forall₂ (fun (b : Block) (g : List DictEntry) => b ∈ blocksOf 0 t.groups ∧ g ∈ t.groups ∧
      b.bytes = encodeBlock g ∧ b.off + b.bytes.length ≤ t.dict.length ∧ slice t.dict b.off b.bytes.length = b.bytes)
      (blocksOf 0 t.groups) t.groups := by
    rw [List.forall₂_iff_get] at hblocks ⊢
    refine ⟨hblocks.1, fun i h1 h2 => ?_⟩
    obtain ⟨hb, -, hle, hslice⟩ := hblocks.2 i h1 h2
    exact ⟨List.get_mem _ _, List.get_mem _ _, hb, hle, hslice⟩
  refine hboth.imp fun b g hbg => ?_
  obtain ⟨hb, hg, henc, hle, hslice⟩ := hbg
  have hsub : ∀ e ∈ g, e ∈ termEntries config.headBoundary 0 m.toList := by
    intro e he
    rw [← t.flatten_eq]
    exact List.mem_flatten.mpr ⟨g, hg, he⟩
  have hsubl : g.Sublist (termEntries config.headBoundary 0 m.toList) := by
    rw [← t.flatten_eq]
    exact List.sublist_flatten_of_mem hg
  refine ⟨MemoryFetch.inFile_new hflt ?_, ?_⟩
  · have hpo : t.postingsOffset = t.dictStart + t.dict.length := rfl
    simp only
    omega
  · show TermIndex.blockTerms (slice t.bytes (t.dictStart + b.off) b.bytes.length) = _
    rw [t.slice_dict hle, hslice, henc]
    exact blockTerms_encode hsub (fun e he => t.fits e (hsub e he))
      ((termEntries_headOff_lt.imp le_of_lt).sublist hsubl) (by rw [← henc]; exact (t.block_lt b hb).1)

end TermFile

/-! ## Searching what was written -/

section

variable [Roaring] [Fst] [Unicode] [TokenFilters] [ScoreMath]

namespace TextCorpus

/-- The lengths of the docs. -/
def lens (c : TextCorpus) (tk : Tokenizer) : List Nat := c.texts.map fun text => (tk.tokenize text).length

/-- The impact byte of a term in a doc. -/
def impact (c : TextCorpus) (tk : Tokenizer) (k1 b : Score) (term : String) (doc : Nat) : UInt8 :=
  quantizeImpact ((tk.tokenize (c.texts.getD doc "")).count term) (tk.tokenize (c.texts.getD doc "")).length
    (ScoreMath.mean (c.lens tk).sum c.texts.length) k1 b

variable {c : TextCorpus} {config : TermIndexConfig} {k1 b : Score}

omit [Roaring] [Fst] in
/-- The bytes written for a term's occurrences are the impacts of its docs. -/
theorem impactBytes_occurrences (tk : Tokenizer) (term : String) :
    impactBytes (c.stats tk) (ScoreMath.mean (c.lens tk).sum c.texts.length) k1 b (occurrences tk c.texts term) =
      ((occurrences tk c.texts term).map Prod.fst).map (c.impact tk k1 b term) := by
  obtain ⟨-, -, hlens, -⟩ := terms_accumulated tk c.texts
  unfold impactBytes
  rw [List.map_map]
  refine List.map_congr_left fun o ho => ?_
  obtain ⟨hlt, hcount, -⟩ := mem_occurrences.mp ho
  show quantizeImpact o.2 ((c.stats tk).docLens.getD o.1 0) _ k1 b = c.impact tk k1 b term o.1
  have hdoc : (c.stats tk).docLens = c.texts.map fun text => (tk.tokenize text).length := hlens
  rw [hdoc, List.getD_eq_getElem _ _ (by rwa [List.length_map]), List.getElem_map]
  unfold TextCorpus.impact
  rw [List.getD_eq_getElem _ _ hlt, hcount]

/-- **A written sidecar has the impacts of every term.** -/
theorem covers_written (t : TermFile (c.postings config) config) {bytes : Bytes}
    (h : writeImpacts ((termEntries config.headBoundary 0 (c.postings config).toList).map fun e =>
      (TermFile.nameOf e, e.headOff)) (c.stats config.tokenizer) k1 b = .ok bytes) (hlen : bytes.length < u64Bound) :
    ∃ imp : ImpactIndex,
      Settles (ImpactIndex.open (MemoryFetch.new bytes))
        (if ScoreMath.usable (ScoreMath.scaleOf k1) = false then .error (.malformed "bad RRSB stride/scale")
          else .ok imp) ∧
      imp.docCount = c.texts.length ∧ imp.scale = ScoreMath.scaleOf k1 ∧
      imp.Covers t.index (c.postings config) (c.impact config.tokenizer k1 b) := by
  obtain ⟨-, -, hlens, hterms⟩ := terms_accumulated config.tokenizer c.texts
  have hlens : (c.stats config.tokenizer).docLens = c.lens config.tokenizer := hlens
  have hterms : ∀ term, (c.stats config.tokenizer).terms.find? ⟨term⟩ =
    if occurrences config.tokenizer c.texts term = [] then none
    else some (occurrences config.tokenizer c.texts term) := hterms
  have hn : (c.lens config.tokenizer).length = c.texts.length := List.length_map _
  unfold writeImpacts at h
  simp only [bind, Except.bind] at h
  rw [hlens, hn] at h
  split at h
  · cases h
  split at h
  · cases h
  next rest hrest =>
  obtain ⟨es, impacts⟩ := rest
  obtain rfl := Except.ok.inj h
  have hlen : (impactFile es impacts c.texts.length (ScoreMath.mean (c.lens config.tokenizer).sum c.texts.length)
    k1 b).length < u64Bound := hlen
  obtain ⟨hall, hasc, -⟩ := @impactEntries_ok _ _ _ _ _ _ none [] es impacts hrest
  rw [List.nil_append] at hall
  have hcount : es.length < 2 ^ 32 := by
    have := hall.length_eq
    have hmap := congrArg List.length (@map_term_termEntries _ config.headBoundary 0 (c.postings config).toList)
    rw [List.length_map, List.length_map] at hmap
    rw [List.length_map, hmap] at this
    have := t.count_lt
    omega
  have hflen := @length_impactFile _ es impacts c.texts.length
    (ScoreMath.mean (c.lens config.tokenizer).sum c.texts.length) k1 b hcount
  have hfit : ∀ e ∈ es, e.Fits := by
    intro e he
    obtain ⟨d, hd, tfs, -, hoff, hcard, hle, -⟩ := exists_partner_left hall he
    obtain ⟨x, hx, rfl⟩ := List.mem_map.mp hd
    have hx40 := (t.fits x hx).1
    unfold u64Bound at hlen
    refine ⟨?_, ?_, ?_⟩
    · rw [hoff]
      exact Nat.lt_trans hx40 (by decide)
    · omega
    · rw [hcard]
      exact Nat.mod_lt _ (by decide)
  have hdocs : c.texts.length < 2 ^ 64 := Nat.lt_trans c.length_lt (by decide)
  refine ⟨_, settles_openImpacts hcount hlen hdocs hfit, rfl, rfl, fun term S loc hS hloc => ?_⟩
  rw [t.findLoc_eq] at hloc
  obtain ⟨x, hx, rfl⟩ := Option.map_eq_some_iff.mp hloc
  have hxmem := List.mem_of_find?_eq_some hx
  have hname : TermFile.nameOf x = term := by
    have hxterm : x.term = utf8 term := by simpa using List.find?_some hx
    unfold TermFile.nameOf
    rw [hxterm, fromUtf8_utf8]
    rfl
  obtain ⟨e, he, tfs, htfs, hoff, hcard, hle, hbytes⟩ := exists_partner hall
    (List.mem_map_of_mem (f := fun e => (TermFile.nameOf e, e.headOff)) hxmem)
  simp only [hname] at htfs hoff
  rw [hterms] at htfs
  split at htfs
  · cases htfs
  obtain rfl := Option.some.inj htfs
  rcases c.postings_built config term with ⟨hnone, -⟩ | ⟨S', hS', -, hocc⟩
  · rw [hS] at hnone
    cases hnone
  rw [hS] at hS'
  obtain rfl := Option.some.inj hS'
  have hocclen : (occurrences config.tokenizer c.texts term).length ≤ c.texts.length := by
    unfold occurrences
    exact Nat.le_trans (List.length_filter_le _ _) (by rw [List.length_map, List.length_zipIdx])
  have hSlen : S.len = (occurrences config.tokenizer c.texts term).length := by
    show S.toList.length = _
    rw [hocc, List.length_map]
  have hcard' : e.card = S.len := by
    have hlt := c.length_lt
    unfold u32Bound at hlt
    rw [hcard, hSlen]
    exact Nat.mod_eq_of_lt (by omega)
  refine ⟨e.rel, ?_⟩
  rw [← hoff]
  refine holds_written hcount hlen hfit hasc he hcard' (by rw [hcard', hSlen]; exact hle) ?_
  rw [hcard', hSlen, hbytes, impactBytes_occurrences, hocc]

end TextCorpus

/-- The terms of a query that the corpus has, with their docs and impacts. -/
def TextCorpus.queryImpacts (c : TextCorpus) (config : TermIndexConfig) (k1 b : Score) (query : String) :
    List TermImpacts :=
  (c.postings config).impacts (c.impact config.tokenizer k1 b) (TermIndex.queryTerms config.tokenizer query)

variable {c : TextCorpus} {config : TermIndexConfig} {k1 b : Score} {file sidecar : Bytes}

/-- **BM25 impacts are addressed correctly.**  Over a corpus' term index and the sidecar written from its
dictionary with the same tokenizer, the strict search scores the first `m` docs that have all terms of the
query, the min-match search the first `m` docs of at least the clamped number of those that are there, and
what is added for a term and a doc is the impact byte written for the two. -/
theorem searchBm25_exact {dict : List (String × Nat)} {ix : TermIndex}
    (hfile : writeTermIndexFromPostings (c.postings config) config = .ok file)
    (hopen : Settles (TermIndex.open (MemoryFetch.new file)) (.ok ix)) (hdict : Settles ix.dictTerms (.ok dict))
    (hside : writeImpacts dict (c.stats config.tokenizer) k1 b = .ok sidecar) (hlen : sidecar.length < u64Bound) :
    ∃ imp : ImpactIndex,
      Settles (ImpactIndex.open (MemoryFetch.new sidecar))
        (if ScoreMath.usable (ScoreMath.scaleOf k1) = false then .error (.malformed "bad RRSB stride/scale")
          else .ok imp) ∧
      imp.docCount = c.texts.length ∧ imp.scale = ScoreMath.scaleOf k1 ∧
      ∀ query m k minMatch,
        Settles (searchBm25 ix imp query m k)
          (.ok (imp.best (c.queryImpacts config k1 b query)
            (((c.postings config).strictDocs (TermIndex.queryTerms config.tokenizer query)).toList.take m) k)) ∧
        Settles (searchBm25MinMatch ix imp query m k minMatch)
          (.ok (imp.best (c.queryImpacts config k1 b query)
            ((matching ((c.queryImpacts config k1 b query).map TermImpacts.docs)
              (max 1 (min minMatch (c.queryImpacts config k1 b query).length))).toList.take m) k)) ∧
        ((∀ t ∈ TermIndex.queryTerms config.tokenizer query, (c.postings config).find? ⟨t⟩ ≠ none) →
          (TermIndex.queryTerms config.tokenizer query).length ≤ minMatch →
          matching ((c.queryImpacts config k1 b query).map TermImpacts.docs)
            (max 1 (min minMatch (c.queryImpacts config k1 b query).length)) =
            (c.postings config).strictDocs (TermIndex.queryTerms config.tokenizer query)) := by
  obtain ⟨t, rfl⟩ := writeTermIndex_ok hfile
  have hix : ix = t.index := by
    have h := (t.settles_open).eq_of_ok (congrArg Prod.fst hopen.calm)
    split at h
    · cases h
    · exact (Except.ok.inj h).symm
  subst hix
  obtain rfl := Except.ok.inj (t.settles_dictTerms.eq_of_ok (congrArg Prod.fst hdict.calm))
  obtain ⟨imp, himp, hdocs, hscale, hcovers⟩ := TextCorpus.covers_written t hside hlen
  refine ⟨imp, himp, hdocs, hscale, fun query m k minMatch => ?_⟩
  have hterms : TermIndex.queryTerms t.index.tokenizer query = TermIndex.queryTerms config.tokenizer query := by
    unfold TermIndex.queryTerms
    have htk : t.index.tokenizer.tokenize query = config.tokenizer.tokenize query :=
      tokenize_fromHeader _ t.language_ok query
    rw [htk]
  have hstrict := settles_searchBm25 t.serves hcovers query m k
  have hmin := settles_searchBm25MinMatch t.serves hcovers query m k minMatch
  rw [hterms] at hstrict hmin
  refine ⟨hstrict, hmin, fun hall hle => ?_⟩
  have hdocs := @TermMap.strictDocs_eq (c.postings config) (c.impact config.tokenizer k1 b) _ hall
  unfold TextCorpus.queryImpacts
  generalize TermIndex.queryTerms config.tokenizer query = terms at hall hle hdocs ⊢
  by_cases hnil : terms = []
  · subst hnil
    rw [TermMap.strictDocs_absent (Or.inl rfl)]
    refine AscSet.ext_mem fun d => ?_
    rw [mem_matching (Nat.le_max_left _ _)]
    have h0 : hits (((c.postings config).impacts (c.impact config.tokenizer k1 b) []).map TermImpacts.docs) d = 0 := rfl
    rw [h0]
    simp
  · have hlen : ((c.postings config).impacts (c.impact config.tokenizer k1 b) terms).length = terms.length :=
      TermMap.length_impacts hall
    have hpos := List.length_pos_iff.mpr hnil
    have hne : ((c.postings config).impacts (c.impact config.tokenizer k1 b) terms).map TermImpacts.docs ≠ [] := by
      rw [ne_eq, List.map_eq_nil_iff, ← List.length_eq_zero_iff]
      omega
    have hneed : max 1 (min minMatch ((c.postings config).impacts (c.impact config.tokenizer k1 b) terms).length) =
        (((c.postings config).impacts (c.impact config.tokenizer k1 b) terms).map TermImpacts.docs).length := by
      rw [List.length_map]
      omega
    rw [hdocs, hneed]
    exact matching_length hne

end

/-- Scores as 32-bit numbers. -/
@[reducible] def wholeScores : ScoreMath where
  Score := Fin (2 ^ 32)
  ofBits n := ⟨n % 2 ^ 32, Nat.mod_lt _ (by decide)⟩
  toBits x := x.val
  toBits_lt x := x.isLt
  ofBits_toBits x := Fin.ext (Nat.mod_eq_of_lt x.isLt)
  usable x := 0 < x.val
  zero := ⟨0, by decide⟩
  idf n df := ⟨(n + 1 - df) % 2 ^ 32, Nat.mod_lt _ (by decide)⟩
  addImpact s idf byte scale := ⟨(s.val + idf.val * byte * scale.val) % 2 ^ 32, Nat.mod_lt _ (by decide)⟩
  cmp x y := compare x.val y.val
  scaleOf k1 := ⟨(k1.val + 1) % 2 ^ 32, Nat.mod_lt _ (by decide)⟩
  mean sum n := ⟨sum / n % 2 ^ 32, Nat.mod_lt _ (by decide)⟩
  impact tf _ _ _ _ := tf

attribute [local instance] PortableCodec.roaring asciiUnicode asciiFilters FlatRouter.fst wholeScores

/-- Two docs. -/
def twoTexts : TextCorpus := ⟨["a b", "b b"], by decide⟩

theorem searchBm25_exact_twoTexts : ∃ (ix : TermIndex) (imp : ImpactIndex),
    Settles (searchBm25 ix imp "a b" 10 10) (.ok [⟨0, (⟨3, by decide⟩ : Fin (2 ^ 32))⟩]) := by
  have hwrite : ∃ file, writeTermIndexFromPostings (twoTexts.postings plainTerms) plainTerms = .ok file ∧
      ¬ maxResidentRouter < getLe 8 file 16 := ⟨_, rfl, by decide⟩
  obtain ⟨file, hfile, hsmall⟩ := hwrite
  obtain ⟨t, rfl⟩ := writeTermIndex_ok hfile
  have hopen := t.settles_open
  rw [t.header_fields.2.2.2.2.2.1] at hsmall
  rw [if_neg hsmall] at hopen
  have hside : ∃ sidecar, writeImpacts ((termEntries plainTerms.headBoundary 0 (twoTexts.postings plainTerms).toList).map
      fun e => (TermFile.nameOf e, e.headOff)) (twoTexts.stats plainTerms.tokenizer) (⟨0, by decide⟩ : Fin (2 ^ 32))
      (⟨0, by decide⟩ : Fin (2 ^ 32)) = .ok sidecar ∧ sidecar.length < u64Bound := ⟨_, rfl, by decide⟩
  obtain ⟨sidecar, hside, hlen⟩ := hside
  obtain ⟨imp, -, hdocs, hscale, hsearch⟩ := searchBm25_exact hfile hopen t.settles_dictTerms hside hlen
  obtain ⟨hstrict, -, -⟩ := hsearch "a b" 10 10 1
  refine ⟨t.index, imp, ?_⟩
  have hdocs0 : ((twoTexts.postings plainTerms).strictDocs
      (TermIndex.queryTerms plainTerms.tokenizer "a b")).toList.take 10 = [0] := by decide
  rw [hdocs0] at hstrict
  unfold ImpactIndex.best ImpactIndex.scoreOf at hstrict
  rw [hdocs, hscale, List.map_singleton, List.mergeSort_singleton] at hstrict
  exact hstrict

end RoaringRange
