import Mathlib.Data.List.Sort
import RSFuzz.FoundationBlockCollapse
import RSFuzz.Generator

set_option autoImplicit false

/-!
# Reading sequences off a tree

`dt_to_sequences`: a stack walk collects, for every leaf that is no separator,
the symbols above it with the derivation number that chose it; the symbols
that leave no choice are trimmed, repeated blocks are collapsed, and the set is
sorted by length. `none` stands for an exception.
-/
namespace RSFuzz
open OrderedMap

def Grammar.isOneChild (G : Grammar) (s : Sym) : Bool := (G.get? s).any fun alts => alts.length = 1

/-- The inner `while` of the walk: the length kept and the node that ends it. -/
def trim (G : Grammar) (tree : Tree) (curSeq : List Sym) :
    ℕ → Option (ℕ × ℕ) → Option (ℕ × Option (ℕ × ℕ))
  | 0, _ => none
  | tmpIdx + 1, curPi => do
    let symbol ← curSeq[tmpIdx]?
    if G.isOneChild symbol ∧ 0 < tmpIdx then
      let up ← curPi
      let node ← tree.node? up
      trim G tree curSeq tmpIdx node.parent
    else return (tmpIdx + 1, curPi)

structure ExtractState where
  queue : List (ℕ × ℕ × List Sym)
  sequences : List (List Entry)

def extractNode (G : Grammar) (tree : Tree) (node : Node) (curI : ℕ) (curSeq : List Sym) :
    Option (List (ℕ × ℕ × List Sym) × List (List Entry)) :=
  if node.dn = -2 then some ([], [])
  else if node.dn = -1 then do
    let (tmpIdx, curPi) ← trim G tree curSeq curSeq.length node.parent
    let up ← curPi
    let upNode ← tree.node? up
    let parentDn ← upNode.dn.toNat?
    return ([], [(curSeq.take tmpIdx).map Entry.sym ++ [Entry.dn parentDn]])
  else match node.children with
    | .range a b =>
      some (((List.range' a (b - a)).map fun c => (curI + 1, c, curSeq ++ [node.symbol])).reverse, [])
    | .leaf => some ([], [])
    | .unexpanded => none

def extractStep (G : Grammar) (tree : Tree) (s : ExtractState) : Option ExtractState :=
  match s.queue with
  | [] => none
  | (curI, curJ, curSeq) :: rest => do
    let node ← tree.node? (curI, curJ)
    let (items, found) ← extractNode G tree node curI curSeq
    return ⟨items ++ rest, insertAll s.sequences found⟩

def rawSequences (G : Grammar) (tree : Tree) (fuel : ℕ) : Option (List (List Entry)) :=
  (WhileLoop.run (fun s : ExtractState => !s.queue.isEmpty) (extractStep G tree) fuel
    ⟨[(0, 0, [])], []⟩).map ExtractState.sequences

/-- `order` is the order in which the set of collapsed sequences is iterated. -/
def dtToSequences (G : Grammar) (order : IterationOrder (List Entry)) (tree : Tree)
    (fuel : ℕ) : Option (List (List Entry)) := do
  let sequences ← rawSequences G tree fuel
  let refined ← sequences.mapM BlockCollapse.collapse
  return (order.list refined.dedup).insertionSort fun a b => a.length ≤ b.length

end RSFuzz
