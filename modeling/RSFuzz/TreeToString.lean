import RSFuzz.Generator

set_option autoImplicit false

/-!
# Writing a tree as text

Leaves are rendered by kind: quoted terminals without their quotes, regular
expression terminals by a string that `exrex.getone` draws for them, other
terminals as they are.
-/
namespace RSFuzz
open OrderedMap

/-- `^/\[.*\]/(?:[+*?])?$$` with the brackets given: `$` also matches before a final newline,
    and `.` matches no newline. -/
def matchesDelimited (opening closing : Char) (cs : List Char) : Bool :=
  let cs := if cs.getLast? = some '\n' then cs.dropLast else cs
  let cs := if cs.getLast? ∈ [some '+', some '*', some '?'] then cs.dropLast else cs
  4 ≤ cs.length ∧ cs.take 2 = ['/', opening] ∧ cs.drop (cs.length - 2) = [closing, '/'] ∧
    '\n' ∉ cs

def isRegexTerminal (sym : Sym) : Bool :=
  matchesDelimited '[' ']' sym.toList || matchesDelimited '(' ')' sym.toList

def regexPattern (symbol : Sym) : String :=
  let tmp := symbol.toList.drop 1
  if tmp.getLast? ≠ some '/' then
    String.ofList (tmp.take (tmp.length - 2) ++ tmp.drop (tmp.length - 1))
  else String.ofList tmp.dropLast

def isQuoted (symbol : Sym) : Bool :=
  let cs := symbol.toList
  1 < cs.length ∧ ((cs.head? = some '\'' ∧ cs.getLast? = some '\'') ∨
    (cs.head? = some '"' ∧ cs.getLast? = some '"'))

namespace InputGenerator

def isRegexTerminalOf (g : InputGenerator) (symbol : Sym) : Bool :=
  isRegexTerminal symbol ∧
    g.grammar.values.any fun alts => alts.any fun alt => symbol ∈ alt.expansion

def renderLeaf (g : InputGenerator) (getone : String → String) (symbol : Sym) : String :=
  if isQuoted symbol then String.ofList (symbol.toList.drop 1).dropLast
  else if g.isRegexTerminalOf symbol then getone (regexPattern symbol)
  else symbol

/-- `tree_to_string(tree, depth, idx)` on the levels from `depth` on. The draw of
    `exrex.getone` may differ from leaf to leaf. -/
def treeToString (g : InputGenerator) (getone : ℕ × ℕ → String → String) :
    ℕ → Tree → ℕ → Option String
  | _, [], _ => none
  | depth, level :: below, idx => do
    let node ← level[idx]?
    match node.children with
    | .leaf => return g.renderLeaf (getone (depth, idx)) node.symbol
    | .unexpanded => none
    | .range a b => (List.range' a (b - a)).foldlM (fun result i => do
        let text ← g.treeToString getone (depth + 1) below i
        return result ++ text) ""

def generateInput (g : InputGenerator) (rnd : ℕ → Choices)
    (getone : ℕ → ℕ × ℕ → String → String) (fuel num : ℕ) : Option (List (String × Tree)) :=
  (List.range num).mapM fun i => do
    let st ← g.generateTree (rnd i) fuel
    let text ← g.treeToString (getone i) 0 st.tree 0
    return (text, st.tree)

end InputGenerator
end RSFuzz
