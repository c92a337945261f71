import Mathlib.Data.Finset.SDiff
import RSFuzz.ExpansionTokens
import RSFuzz.FoundationNumbering
import RSFuzz.FoundationPattern
import RSFuzz.Grammar

set_option autoImplicit false

/-!
# Reading a grammar file

The two text branches of `parse_bnf` of `main/rsfuzzGenerator.py`. They differ
in how an alternative becomes a list of words, and in whether a line is decoded
first. The depths are computed afterwards and are not part of this module.
-/
namespace RSFuzz
open OrderedMap Pattern Numbering

/-- `[word_list, deriv_num, prob]`, where `V` is the type of what `float` returns. -/
structure ParsedAlternative (V : Type) where
  words : List Text
  derivNum : ℕ
  prob : V
deriving DecidableEq

def isProbChar (c : Char) : Bool := c.isDigit || c = '.' || c = 'E' || c = '-'

def isBlank (c : Char) : Bool := c = ' '

/-- `( )*\|( )*` -/
def bar : Matcher Char :=
  followedBy (repeated isBlank 0) (followedBy (lit ['|']) (repeated isBlank 0))

/-- ` @@ [0-9.E-]+([ ]*\|[ ]*|;\n)`, of which a split keeps the group. -/
def probPattern : Finder Char :=
  captured (followedBy (lit [' ', '@', '@', ' ']) (repeated isProbChar 1)) (orElse bar (lit [';', '\n']))

/-- `@@ [0-9.E-]+` -/
def probSimple : Finder Char := whole (followedBy (lit ['@', '@', ' ']) (repeated isProbChar 1))

def separatorTexts : Finset Text := (separatorTokens.map String.toList).toFinset

/-- The walk that deletes empty words and rewrites `['"', '"']` to `[" "]`. -/
def mergeBlanks : List Text → List Text
  | [] => []
  | [word] => if word = [] then [] else [word]
  | word :: next :: rest =>
    if word = [] then mergeBlanks (next :: rest)
    else if word = ['"'] ∧ next = ['"'] then [' '] :: mergeBlanks rest
    else word :: mergeBlanks (next :: rest)

structure LineState (V : Type) where
  usedSets : List (Finset Text)
  probNum : ℕ
  alternatives : List (ParsedAlternative V)

section Parse

variable {V : Type} (decode : Text → Option Text) (wordsOf : Text → Option (List Text))
  (float : Text → Option V)

def isSeparatorPiece (words : Text) : Bool :=
  words = [';', '\n'] || words = [] || bar words ≠ []

def addWords (probListRaw : List Text) (s : LineState V) (words : Text) : Option (LineState V) :=
  if isSeparatorPiece words then some s
  else do
    let wordList ← wordsOf words
    let wordSet := wordList.toFinset \ separatorTexts
    let usedSets := enter s.usedSets wordSet
    let raw ← probListRaw[s.probNum]?
    let prob ← float (raw.drop 3)
    return ⟨usedSets, s.probNum + 1,
      s.alternatives ++ [⟨mergeBlanks wordList, usedSets.idxOf wordSet, prob⟩]⟩

def parseLine (line : Text) : Option (Text × List (ParsedAlternative V)) := do
  let (ruleName, _, right) ← search (whole (lit [' ', '=', ' '])) line
  let s ← (split probPattern right).foldlM
    (addWords wordsOf float (findAll probSimple right)) ⟨[], 0, []⟩
  return (ruleName, s.alternatives)

def parseRule (pcfg : Map Text (List (ParsedAlternative V))) (line : Text) :
    Option (Map Text (List (ParsedAlternative V))) :=
  if line = ['\n'] then some pcfg
  else do
    let text ← decode line
    let (ruleName, alternatives) ← parseLine wordsOf float text
    return pcfg.set ruleName alternatives

/-- `decode` is `codecs.decode(line, "unicode_escape")`, and nothing in the `.md` branch. -/
def parseBnf (bnfList : List Text) : Option (Map Text (List (ParsedAlternative V))) :=
  bnfList.foldlM (parseRule decode wordsOf float) Map.empty

end Parse

def splitWords (words : Text) : Option (List Text) := some (words.splitOn ' ')

/-- The tokeniser of the `.md` branch, with fuel for every text. -/
def mdWords (words : Text) : Option (List Text) := expansionToTokens words words.length

def grammarOf (pcfg : Map Text (List (ParsedAlternative ℚ))) : Grammar where
  entries := pcfg.entries.map fun rule => (String.ofList rule.1,
    rule.2.map fun alt => ⟨alt.words.map String.ofList, alt.derivNum, alt.prob⟩)
  nodupKeys := by
    rw [List.map_map]
    have : (Prod.fst ∘ fun rule : Text × List (ParsedAlternative ℚ) => (String.ofList rule.1,
        rule.2.map fun alt => (⟨alt.words.map String.ofList, alt.derivNum, alt.prob⟩ : Alternative))) =
        String.ofList ∘ Prod.fst := rfl
    rw [this, ← List.map_map]
    exact pcfg.nodupKeys.map fun _ _ h => String.ofList_injective h

end RSFuzz
