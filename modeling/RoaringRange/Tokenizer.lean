import RoaringRange.Ngram
import RoaringRange.Lib.Bytes

/-!
# Tokenizing text (`terms.rs`)

A token is a maximal run of letters and digits, lowercased unless the index is case-sensitive; a
language's stop words may be dropped and the rest stemmed.  The header of a term index records which
filters are on, and the reader's tokenizer splits text as the builder's did (`tokenize_fromHeader`).
-/

namespace RoaringRange

/-- `terms::Language`. -/
inductive Language where
  | english | spanish | arabic | danish | dutch | finnish | french | german | greek | hungarian | italian
  | norwegian | portuguese | romanian | russian | swedish | tamil | turkish
  deriving DecidableEq, Repr

/-- `Language::to_u8`. -/
def Language.toU8 : Language → Nat
  | english => 1
  | spanish => 2
  | arabic => 3
  | danish => 4
  | dutch => 5
  | finnish => 6
  | french => 7
  | german => 8
  | greek => 9
  | hungarian => 10
  | italian => 11
  | norwegian => 12
  | portuguese => 13
  | romanian => 14
  | russian => 15
  | swedish => 16
  | tamil => 17
  | turkish => 18

/-- `Language::from_u8`. -/
def Language.fromU8 : Nat → Option Language
  | 1 => some english
  | 2 => some spanish
  | 3 => some arabic
  | 4 => some danish
  | 5 => some dutch
  | 6 => some finnish
  | 7 => some french
  | 8 => some german
  | 9 => some greek
  | 10 => some hungarian
  | 11 => some italian
  | 12 => some norwegian
  | 13 => some portuguese
  | 14 => some romanian
  | 15 => some russian
  | 16 => some swedish
  | 17 => some tamil
  | 18 => some turkish
  | _ => none

theorem Language.fromU8_toU8 (l : Language) : fromU8 l.toU8 = some l := by
  cases l <;> rfl

theorem Language.toU8_lt (l : Language) : l.toU8 < 256 := by
  cases l <;> decide

/-- What the tokenizer links to besides the Unicode tables: the standard library's letters and digits, the
embedded stop-word lists and the Snowball stemmers. -/
class TokenFilters where
  /-- `char::is_alphanumeric`. -/
  isAlphanumeric : Char → Bool
  /-- `stop_words`, a sorted list. -/
  stopWords : Language → List String
  /-- `Stemmer::stem`. -/
  stem : Language → String → String

/-- ASCII letters and digits, no stop words, no stemming. -/
@[reducible] def asciiFilters : TokenFilters where
  isAlphanumeric := Char.isAlphanum
  stopWords _ := []
  stem _ s := s

def flagStemmed : Nat := 1
def flagStopwords : Nat := 2
/-- `terms::FLAG_CASE_SENSITIVE`. -/
def flagTermsCaseSensitive : Nat := 4

/-- `terms::Tokenizer`; the stemmer is its language. -/
structure Tokenizer where
  stemmer : Option Language
  stopwords : Bool
  language : Option Language
  caseFold : Bool
  deriving DecidableEq

namespace Tokenizer

/-- `Tokenizer::with`. -/
def «with» (language : Option Language) (stem stopwords caseFold : Bool) : Tokenizer :=
  ⟨if stem then language else none, stopwords, language, caseFold⟩

/-- `Tokenizer::from_header`. -/
def fromHeader (flags language : Nat) : Tokenizer :=
  let stem := flags &&& flagStemmed ≠ 0
  let stopwords := flags &&& flagStopwords ≠ 0
  let lang := if stem ∨ stopwords then Language.fromU8 language else none
  «with» lang stem stopwords (flags &&& flagTermsCaseSensitive = 0)

end Tokenizer

section

variable [Unicode] [TokenFilters]

/-- One char of `tokenize_with`: the tokens so far and the run that is open. -/
def tokenizeChar (caseFold : Bool) (st : List String × List Char) (c : Char) : List String × List Char :=
  if TokenFilters.isAlphanumeric c then (st.1, st.2 ++ if caseFold then Unicode.toLowercase c else [c])
  else if st.2.isEmpty then st
  else (st.1 ++ [String.ofList st.2], [])

/-- `terms::tokenize_with`. -/
def tokenizeWith (text : String) (caseFold : Bool) : List String :=
  let st := text.toList.foldl (tokenizeChar caseFold) ([], [])
  if st.2.isEmpty then st.1 else st.1 ++ [String.ofList st.2]

/-- `terms::is_stop_word`. -/
def isStopWord (t : String) : Option Language → Bool
  | some l => (TokenFilters.stopWords l).contains t
  | none => false

/-- `Tokenizer::tokenize`. -/
def Tokenizer.tokenize (tk : Tokenizer) (text : String) : List String :=
  ((tokenizeWith text tk.caseFold).filter fun t => !(tk.stopwords && isStopWord t tk.language)).map fun t =>
    match tk.stemmer with
    | some l => TokenFilters.stem l t
    | none => t

/-- `flags` of a term index, from its filters. -/
def tokenizerFlags (stem stopwords caseNormalization : Bool) : Nat :=
  (if stem then flagStemmed else 0) ||| (if stopwords then flagStopwords else 0) |||
    (if caseNormalization then 0 else flagTermsCaseSensitive)

/-- The language byte of a term index. -/
def languageByte (language : Option Language) (stem stopwords : Bool) : Nat :=
  if stem || stopwords then (language.map Language.toU8).getD 0 else 0

omit [Unicode] [TokenFilters] in
theorem tokenizerFlags_lt (stem stopwords caseNormalization : Bool) :
    tokenizerFlags stem stopwords caseNormalization < 256 := by
  cases stem <;> cases stopwords <;> cases caseNormalization <;> decide

omit [Unicode] [TokenFilters] in
theorem languageByte_lt (language : Option Language) (stem stopwords : Bool) :
    languageByte language stem stopwords < 256 := by
  unfold languageByte
  split
  · cases language with
    | none => decide
    | some l => exact l.toU8_lt
  · decide

/-- **Text is split by the reader as by the builder**, whenever a filter that is on has its language. -/
theorem tokenize_fromHeader {language : Option Language} {stem stopwords : Bool} (caseFold : Bool)
    (h : (stem || stopwords) = true → language ≠ none) (text : String) :
    (Tokenizer.fromHeader (tokenizerFlags stem stopwords caseFold)
      (languageByte language stem stopwords)).tokenize text =
      (Tokenizer.with language stem stopwords caseFold).tokenize text := by
  cases language with
  | none =>
    cases stem <;> cases stopwords <;> first | exact absurd rfl (h rfl) | skip
    cases caseFold <;> rfl
  | some l =>
    have hl := l.fromU8_toU8
    have hflags : ∀ (stem stopwords caseFold : Bool),
        (tokenizerFlags stem stopwords caseFold &&& flagStemmed ≠ 0 ↔ stem = true) ∧
        (tokenizerFlags stem stopwords caseFold &&& flagStopwords ≠ 0 ↔ stopwords = true) ∧
        (tokenizerFlags stem stopwords caseFold &&& flagTermsCaseSensitive = 0 ↔ caseFold = true) := by decide
    obtain ⟨h1, h2, h3⟩ := hflags stem stopwords caseFold
    unfold Tokenizer.fromHeader
    simp only [h1, h2, h3]
    cases stem <;> cases stopwords <;> simp [languageByte, Tokenizer.with, Tokenizer.tokenize, hl]

end

end RoaringRange
