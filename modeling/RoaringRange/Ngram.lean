import Mathlib.Algebra.Order.Group.Nat
import Mathlib.Data.Fin.Basic
import Mathlib.Data.List.SplitBy
import Mathlib.Data.List.Nodup

/-!
# N-gram keys of a query (`ngram.rs`)

A query is split on whitespace; each word keeps its letters and digits (lowercased unless the index
is case-sensitive) and every window of `gram_size` chars is hashed to a 64-bit key.  Keys are listed
in first-seen order, each once (`ngramKeysWith_nodup`), and a text has the keys of every word it
contains (`ngramKeysWith_subset`).

Character classification and case mapping are the Unicode tables the crate links to; `Unicode` is
what the code asks of them.
-/

namespace RoaringRange

/-- The general category of a char, as the `unicode_general_category` crate names them. -/
inductive GeneralCategory where
  | uppercaseLetter | lowercaseLetter | titlecaseLetter | modifierLetter | otherLetter
  | nonspacingMark | spacingMark | enclosingMark
  | decimalNumber | letterNumber | otherNumber
  | connectorPunctuation | dashPunctuation | openPunctuation | closePunctuation
  | initialPunctuation | finalPunctuation | otherPunctuation
  | mathSymbol | currencySymbol | modifierSymbol | otherSymbol
  | spaceSeparator | lineSeparator | paragraphSeparator
  | control | format | surrogate | privateUse | unassigned
  deriving DecidableEq, Repr

/-- The Unicode tables. -/
class Unicode where
  generalCategory : Char → GeneralCategory
  /-- `char::to_lowercase`, one to three chars. -/
  toLowercase : Char → List Char
  /-- `str::to_lowercase`. -/
  strToLowercase : String → String

/-- The tables restricted to ASCII. -/
@[reducible] def asciiUnicode : Unicode where
  generalCategory c :=
    if c.isUpper then .uppercaseLetter
    else if c.isLower then .lowercaseLetter
    else if c.isDigit then .decimalNumber
    else .unassigned
  toLowercase c := [c.toLower]
  strToLowercase s := s.toLower

/-- A dictionary key. -/
abbrev Key := Fin (2 ^ 64)

/-! ## Hashing a window -/

def fnvOffset64 : UInt64 := 14695981039346656037

def fnvPrime64 : UInt64 := 1099511628211

/-- One FNV-1a step over a byte. -/
def fnvByte (h : UInt64) (b : UInt64) : UInt64 := (h ^^^ b) * fnvPrime64

def hashRunes (runes : List Char) : UInt64 :=
  runes.foldl (fun h c =>
    let r := c.toNat.toUInt64
    fnvByte (fnvByte (fnvByte (fnvByte h (r &&& 0xFF)) ((r >>> 8) &&& 0xFF)) ((r >>> 16) &&& 0xFF))
      ((r >>> 24) &&& 0xFF)) fnvOffset64

def runeNgramKey (runes : List Char) : UInt64 :=
  if runes.length ≤ 2 then
    runes.foldl (fun key r => (key <<< 32) ||| r.toNat.toUInt64) 0
  else if runes.length ≤ 8 ∧ runes.all (fun r => r.toNat ≤ 127) then
    runes.foldl (fun key r => (key <<< 8) ||| r.toNat.toUInt64) 0
  else hashRunes runes

/-! ## Words -/

/-- Unicode `White_Space`, which `char::is_whitespace` tests. -/
def isWhitespace (c : Char) : Bool :=
  let n := c.toNat
  (9 ≤ n && n ≤ 13) || n == 0x20 || n == 0x85 || n == 0xA0 || n == 0x1680 ||
    (0x2000 ≤ n && n ≤ 0x200A) || n == 0x2028 || n == 0x2029 || n == 0x202F || n == 0x205F || n == 0x3000

def splitWhitespace (s : List Char) : List (List Char) :=
  (s.splitOnP isWhitespace).filter fun w => !w.isEmpty

def windows {α : Type} (n : Nat) (xs : List α) : List (List α) :=
  (List.range (xs.length + 1 - n)).map fun i => (xs.drop i).take n

section

variable [Unicode]

def isLetterOrDigit (c : Char) : Bool :=
  match Unicode.generalCategory c with
  | .uppercaseLetter | .lowercaseLetter | .titlecaseLetter | .modifierLetter | .otherLetter
  | .decimalNumber => true
  | _ => false

def toLowerRune (c : Char) : Char := (Unicode.toLowercase c).headD c

def normalize (s : List Char) (caseFold : Bool) : List Char :=
  (s.filter isLetterOrDigit).map fun c => if caseFold then toLowerRune c else c

/-- Pushes the keys not seen before. -/
def pushNew (keys : List Key) : List Key → List Key
  | [] => keys
  | k :: ks => if k ∈ keys then pushNew keys ks else pushNew (keys ++ [k]) ks

def ngramKeysWith (query : String) (gramSize : Nat) (caseFold : Bool) : List Key :=
  if gramSize = 0 then []
  else
    (splitWhitespace query.toList).foldl (fun keys field =>
      let runes := normalize field caseFold
      if runes.length < gramSize then keys
      else pushNew keys ((windows gramSize runes).map fun w => (runeNgramKey w).toFin)) []

end

theorem pushNew_nodup {keys ks : List Key} (h : keys.Nodup) : (pushNew keys ks).Nodup := by
  induction ks generalizing keys with
  | nil => exact h
  | cons k ks ih =>
    unfold pushNew
    split
    · exact ih h
    · next hk =>
      refine ih (List.nodup_append.mpr ⟨h, List.nodup_singleton k, fun a ha b hb hab => ?_⟩)
      rw [hab, List.mem_singleton.mp hb] at ha
      exact hk ha

/-- A query's keys are listed once each. -/
theorem ngramKeysWith_nodup [Unicode] (query : String) (gramSize : Nat) (caseFold : Bool) :
    (ngramKeysWith query gramSize caseFold).Nodup := by
  unfold ngramKeysWith
  split
  · exact List.nodup_nil
  · have hfold : ∀ (fields : List (List Char)) (keys : List Key), keys.Nodup →
        (fields.foldl (fun keys field =>
          let runes := normalize field caseFold
          if runes.length < gramSize then keys
          else pushNew keys ((windows gramSize runes).map fun w => (runeNgramKey w).toFin)) keys).Nodup := by
      intro fields
      induction fields with
      | nil => exact fun _ h => h
      | cons field fields ih =>
        intro keys h
        refine ih _ ?_
        simp only
        split
        · exact h
        · exact pushNew_nodup h
    exact hfold _ _ List.nodup_nil

/-! ## Words within words -/

section

variable {α : Type}

/-- The windows of a list are the runs of `n` of its elements. -/
theorem mem_windows_iff {n : Nat} {xs w : List α} : w ∈ windows n xs ↔ w.length = n ∧ w <:+: xs := by
  unfold windows
  rw [List.mem_map]
  constructor
  · rintro ⟨i, hi, rfl⟩
    rw [List.mem_range] at hi
    refine ⟨by rw [List.length_take, List.length_drop]; omega, ?_⟩
    exact (List.take_prefix n _).isInfix.trans (List.drop_suffix i xs).isInfix
  · rintro ⟨hlen, s, t, rfl⟩
    refine ⟨s.length, List.mem_range.mpr ?_, ?_⟩
    · rw [List.length_append, List.length_append]
      omega
    · rw [List.append_assoc, List.drop_left, ← hlen, List.take_left]

/-- Windows of a part are windows of the whole. -/
theorem windows_subset {n : Nat} {xs ys : List α} (h : xs <:+: ys) : windows n xs ⊆ windows n ys := by
  intro w hw
  obtain ⟨hlen, hin⟩ := mem_windows_iff.mp hw
  exact mem_windows_iff.mpr ⟨hlen, hin.trans h⟩

end

theorem mem_pushNew {keys ks : List Key} {k : Key} : k ∈ pushNew keys ks ↔ k ∈ keys ∨ k ∈ ks := by
  induction ks generalizing keys with
  | nil => simp [pushNew]
  | cons j ks ih =>
    unfold pushNew
    split
    · next hj =>
      rw [ih, List.mem_cons]
      constructor
      · rintro (h | h)
        · exact Or.inl h
        · exact Or.inr (Or.inr h)
      · rintro (h | rfl | h)
        · exact Or.inl h
        · exact Or.inl hj
        · exact Or.inr h
    · rw [ih, List.mem_append, List.mem_singleton, List.mem_cons, or_assoc]

section

variable [Unicode] {gramSize : Nat} {caseFold : Bool}

/-- A text's keys are those of the windows of its words. -/
theorem mem_ngramKeysWith_iff (hg : 0 < gramSize) {text : String} {k : Key} :
    k ∈ ngramKeysWith text gramSize caseFold ↔
      ∃ word ∈ splitWhitespace text.toList, ∃ w ∈ windows gramSize (normalize word caseFold),
        (runeNgramKey w).toFin = k := by
  have hfold : ∀ (fields : List (List Char)) (keys : List Key),
      k ∈ fields.foldl (fun keys field =>
        let runes := normalize field caseFold
        if runes.length < gramSize then keys
        else pushNew keys ((windows gramSize runes).map fun w => (runeNgramKey w).toFin)) keys ↔
      k ∈ keys ∨ ∃ word ∈ fields, ∃ w ∈ windows gramSize (normalize word caseFold), (runeNgramKey w).toFin = k := by
    intro fields
    induction fields with
    | nil => simp
    | cons field fields ih =>
      intro keys
      rw [List.foldl_cons, ih, List.exists_mem_cons_iff, ← or_assoc]
      refine or_congr_left ?_
      simp only
      split
      · next hshort =>
        -- a word too short has no window
        have hnone : windows gramSize (normalize field caseFold) = [] := by
          unfold windows
          rw [show (normalize field caseFold).length + 1 - gramSize = 0 by omega]
          rfl
        simp [hnone]
      · rw [mem_pushNew, List.mem_map]
  unfold ngramKeysWith
  rw [if_neg (by omega), hfold]
  simp

/-- Every word of the query that is as long as a gram is, normalized, part of a word of the text. -/
def ContainsWords (gramSize : Nat) (caseFold : Bool) (text query : String) : Prop :=
  ∀ word ∈ splitWhitespace query.toList, gramSize ≤ (normalize word caseFold).length →
    ∃ field ∈ splitWhitespace text.toList, normalize word caseFold <:+: normalize field caseFold

instance (gramSize : Nat) (caseFold : Bool) (text query : String) :
    Decidable (ContainsWords gramSize caseFold text query) :=
  inferInstanceAs (Decidable (∀ word ∈ splitWhitespace query.toList, gramSize ≤ (normalize word caseFold).length →
    ∃ field ∈ splitWhitespace text.toList, normalize word caseFold <:+: normalize field caseFold))

/-- **A text has the keys of the words it contains.** -/
theorem ngramKeysWith_subset (hg : 0 < gramSize) {text query : String} (h : ContainsWords gramSize caseFold text query) :
    ngramKeysWith query gramSize caseFold ⊆ ngramKeysWith text gramSize caseFold := by
  intro k hk
  obtain ⟨word, hword, w, hw, rfl⟩ := (mem_ngramKeysWith_iff hg).mp hk
  have hlen : gramSize ≤ (normalize word caseFold).length := by
    obtain ⟨hl, hin⟩ := mem_windows_iff.mp hw
    have := hin.length_le
    omega
  obtain ⟨field, hfield, hin⟩ := h word hword hlen
  exact (mem_ngramKeysWith_iff hg).mpr ⟨field, hfield, w, windows_subset hin hw, rfl⟩

end

end RoaringRange
