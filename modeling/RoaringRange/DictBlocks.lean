import RoaringRange.TermsBuild

/-!
# The blocks of a term dictionary (`terms_dict.rs`)

The writer seals a block before the entry that would take it past the cap; a block with one entry has the
size of that entry.  Whatever the cap,

    the blocks are read back as the pushed entries, found where they are routed        (dictBlocks_roundTrip)

A cap of 0 stands for the default one, so no block it seals need fit in 0 bytes        (zeroCap_block)
-/

namespace RoaringRange

open ByteString Faults Slices

/-- What the blocks of a dictionary are to its entries. -/
structure DictBlocks (cap : Nat) (es : List DictEntry) (blocks : List Block) : Prop where
  entries : (blocks.flatMap fun b => iterBlock b.bytes) = es.map DictEntry.item
  ne_nil : ∀ b ∈ blocks, iterBlock b.bytes ≠ []
  contiguous : ∀ i b, blocks[i]? = some b → b.off = ((blocks.take i).map fun b => b.bytes.length).sum
  lastTerm : ∀ b ∈ blocks, (iterBlock b.bytes).getLast?.map Prod.fst = some b.lastTerm
  capped : ∀ b ∈ blocks, 1 < (iterBlock b.bytes).length →
    b.bytes.length ≤ if cap = 0 then defaultDictBlockCap else cap
  scan : ∀ term, ((blocks.find? fun b => decide (term ≤ b.lastTerm)).bind fun b => scanBlock b.bytes term) =
    (es.find? fun e => e.term == term).map fun e => (e.headOff, e.headSize)

/-- A block starts where those before it end. -/
theorem off_blocksOf {off : Nat} {groups : List (List DictEntry)} {i : Nat} {b : Block}
    (h : (blocksOf off groups)[i]? = some b) :
    b.off = off + (((blocksOf off groups).take i).map fun b => b.bytes.length).sum := by
  induction groups generalizing off i with
  | nil => cases h
  | cons g groups ih =>
    cases i with
    | zero =>
      obtain rfl := Option.some.inj h
      rfl
    | succ i =>
      have := ih h
      rw [blocksOf, List.take_succ_cons, List.map_cons, List.sum_cons, this, Nat.add_assoc]

/-- Blocks whose groups are read back are read back as all the entries. -/
theorem flatMap_iterBlock (off : Nat) {groups : List (List DictEntry)}
    (h : ∀ g ∈ groups, iterBlock (encodeBlock g) = g.map DictEntry.item) :
    ((blocksOf off groups).flatMap fun b => iterBlock b.bytes) = groups.flatten.map DictEntry.item := by
  induction groups generalizing off with
  | nil => rfl
  | cons g groups ih =>
    rw [blocksOf, List.flatMap_cons, List.flatten_cons, List.map_append, h g List.mem_cons_self,
      ih _ fun g hg => h g (List.mem_cons_of_mem _ hg)]

section

variable {es : List DictEntry}

/-- **Dictionary block codec round trip**: the blocks hold the entries in order, one after the other, none of
several entries beyond the cap, and a scan of the block a term is routed to finds it if and only if it was
written. -/
theorem dictBlocks_roundTrip (cap : Nat) (hterms : es.Pairwise fun a b => a.term < b.term)
    (hoffs : es.Pairwise fun a b => a.headOff ≤ b.headOff) (hwords : ∀ e ∈ es, e.InWords) :
    DictBlocks cap es ((BlockWriter.new cap).pushAll es).finish := by
  obtain ⟨groups, hblocks, rfl, hne, hcap⟩ := blocks_pushAll_capped cap es
  have hback : ∀ g ∈ groups, iterBlock (encodeBlock g) = g.map DictEntry.item := by
    intro g hg
    have hsub : g.Sublist groups.flatten := List.sublist_flatten_of_mem hg
    exact iterBlock_encode_words (fun e he => hwords e (hsub.subset he)) (hoffs.sublist hsub)
  have hscan : ∀ g ∈ groups, ∀ term, scanBlock (encodeBlock g) term =
      (g.find? fun e => e.term == term).map fun e => (e.headOff, e.headSize) := by
    intro g hg term
    unfold scanBlock
    rw [hback g hg]
    exact scanEntries_eq (hterms.sublist (List.sublist_flatten_of_mem hg)) term
  have hpair := @blocksOf_slice [] 0 rfl groups
  -- every block stands for its group
  have hgroup : ∀ b ∈ blocksOf 0 groups, ∃ g ∈ groups, b.bytes = encodeBlock g ∧ b.lastTerm = (lastEntry g).term := by
    intro b hb
    obtain ⟨g, hg, hbytes, hlast, -⟩ := exists_partner hpair hb
    exact ⟨g, hg, hbytes, hlast⟩
  rw [hblocks]
  refine ⟨?_, fun b hb => ?_, fun i b hb => ?_, fun b hb => ?_, fun b hb hlen => ?_, fun term => ?_⟩
  · exact flatMap_iterBlock 0 hback
  · obtain ⟨g, hg, hbytes, -⟩ := hgroup b hb
    rw [hbytes, hback g hg]
    exact fun h => hne g hg (List.map_eq_nil_iff.mp h)
  · rw [off_blocksOf hb, Nat.zero_add]
  · obtain ⟨g, hg, hbytes, hlast⟩ := hgroup b hb
    rw [hbytes, hback g hg, hlast, List.getLast?_map, List.getLast?_eq_some_getLast (hne g hg), lastEntry,
      List.getLastD_eq_getLast?, List.getLast?_eq_some_getLast (hne g hg)]
    rfl
  · obtain ⟨g, hg, hbytes, -⟩ := hgroup b hb
    rw [hbytes, hback g hg, List.length_map] at hlen
    rw [hbytes]
    exact hcap g hg hlen
  · rw [find?_flatten hne hterms]
    rcases find?_forall₂ hpair (p := fun b : Block => decide (term ≤ b.lastTerm))
      (q := fun g : List DictEntry => decide (term ≤ (lastEntry g).term)) (fun b g h => by rw [h.2.1])
      with ⟨h1, h2⟩ | ⟨b, g, h1, h2, hbg⟩
    · rw [h1, h2]
      rfl
    · rw [h1, h2, Option.bind_some, Option.bind_some, hbg.1, hscan g (List.mem_of_find?_eq_some h2)]

end

/-- Two entries, the second one after a shared first letter. -/
def twoEntries : List DictEntry := [⟨[97, 98], 0, 5⟩, ⟨[97, 99], 5, 7⟩]

theorem dictBlocks_twoEntries : DictBlocks 64 twoEntries ((BlockWriter.new 64).pushAll twoEntries).finish := by
  refine dictBlocks_roundTrip 64 (by decide) (by decide) fun e he => ?_
  rcases List.mem_pair.mp he with rfl | rfl
  · exact ⟨by decide, by decide, by decide⟩
  · exact ⟨by decide, by decide, by decide⟩

/-- With a cap of 0 both entries are in one block, of the default cap. -/
theorem zeroCap_block : ∃ b, ((BlockWriter.new 0).pushAll twoEntries).finish = [b] ∧ 1 < (iterBlock b.bytes).length ∧
    0 < b.bytes.length :=
  ⟨_, rfl, by decide, by decide⟩

end RoaringRange
