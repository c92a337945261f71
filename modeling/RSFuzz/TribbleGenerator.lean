import RSFuzz.TreeToString

set_option autoImplicit false

/-!
# The k-path generator

`main/tribbleGenerator.py`: a chosen slot follows a target path of grammar
symbols, every other node is expanded at minimum cost, and the k-paths of each
finished tree are struck off by a separate walk.
-/
namespace RSFuzz
open OrderedMap

namespace InputGenerator

/-- The alternatives of one node. Only the selected slot is guided, and it is never pruned. -/
def selectGuided (g : InputGenerator) (rnd : Choices) (nextSymbol : Option Sym)
    (selectedSlot : Option ℕ) (tree : Tree) (i : ℕ) (symbol : Sym) (seen : Finset ℕ) :
    Option Selection := do
  let depth := tree.length - 1
  let alts ← g.grammar.get? symbol
  if some i = selectedSlot then
    let guided := alts.filter fun a => nextSymbol.any (· ∈ a.expansion)
    let (poss, dns, costs) := g.expansionsToChildren
      (guided.map fun a => (a.expansion, a.derivNum, g.expansionCost symbol a.expansion)) depth i
    let minCost ← costs.min?
    let cand := indicesWhere costs fun c => c = minCost
    let chosen ← choice cand (rnd.expansion depth i)
    let nodes ← poss[chosen]?
    let derivNum ← dns[chosen]?
    let slot ← choice (indicesWhere nodes fun n => some n.symbol = nextSymbol) (rnd.slot depth)
    return ⟨cand, nodes, derivNum, some slot⟩
  else
    let (poss, dns, costs) := g.expansionsToChildren
      (alts.map fun a => (a.expansion, a.derivNum, g.expansionCost symbol a.expansion)) depth i
    let pruneDns ← pruneChildren g.tables symbol tree (depth, i) seen
    let minCost ← costs.min?
    let cand := indicesWhere (costs.zip dns) fun e => e.1 = minCost ∧ e.2 ∉ pruneDns
    let pool :=
      if cand = [] ∧ tree.length < g.config.maxDepths then List.range costs.length
      else if cand = [] then indicesWhere costs fun c => c = minCost
      else cand
    let chosen ← choice pool (rnd.expansion depth i)
    let nodes ← poss[chosen]?
    let derivNum ← dns[chosen]?
    return ⟨cand, nodes, derivNum, none⟩

def expandMinimumNodeGuided (g : InputGenerator) (rnd : Choices) (nextSymbol : Option Sym)
    (selectedSlot : Option ℕ) (st : GenState) : Option (GenState × Option ℕ) :=
  expandLevel g.tables (g.selectGuided rnd nextSymbol selectedSlot) st

end InputGenerator

structure TribbleGenerator extends InputGenerator where
  prefixDict : Map Sym (List (List Sym))
  kValue : ℕ

structure RoundChoices where
  pop : ℕ
  pre : ℕ
  tree : Choices
  getone : ℕ × ℕ → String → String

structure GuidedState where
  st : GenState
  curDepth : ℕ
  selectedSlot : Option ℕ

/-- Loop state of the strike-off walk; the stack's top is at the head. -/
structure WalkState where
  stack : List (ℕ × ℕ × List Sym)
  uncovered : List (List Sym)

namespace TribbleGenerator

/-- `target_path[cur_depth+1]` while a slot is selected, else `None`. -/
def nextSymbolOf (target : List Sym) (s : GuidedState) : Option (Option Sym) :=
  match s.selectedSlot with
  | some _ => (target[s.curDepth + 1]?).map some
  | none => some none

def guidedStep (g : TribbleGenerator) (rnd : Choices) (target : List Sym) (s : GuidedState) :
    Option GuidedState := do
  let nextSymbol ← nextSymbolOf target s
  let (st, slot) ← g.expandMinimumNodeGuided rnd nextSymbol s.selectedSlot s.st
  return ⟨st, s.curDepth + 1, if s.curDepth + 1 = target.length - 1 then none else slot⟩

def generateTree (g : TribbleGenerator) (rnd : Choices) (target : List Sym) (fuel : ℕ) :
    Option GenState :=
  (WhileLoop.run (fun s : GuidedState =>
    InputGenerator.anyPossibleExpansions (InputGenerator.lastLevel s.st))
    (g.guidedStep rnd target) fuel ⟨g.initial, 0, some 0⟩).map GuidedState.st

def walkStart (g : TribbleGenerator) (tree : Tree) : List (ℕ × ℕ × List Sym) :=
  (tree.zipIdx.flatMap fun (level, d) => level.zipIdx.filterMap fun (node, i) =>
    if g.isNonterminal node.symbol then some (d, i, [node.symbol]) else none).reverse

/-- One pop of the walk that strikes off the k-paths found in the tree. -/
def walkStep (g : TribbleGenerator) (tree : Tree) (s : WalkState) : Option WalkState :=
  match s.stack with
  | [] => none
  | (d, i, path) :: rest =>
    if path.length = g.kValue then some ⟨rest, s.uncovered.erase path⟩
    else do
      let node ← tree.node? (d, i)
      match node.children with
      | .leaf => return ⟨rest, s.uncovered⟩
      | children =>
        if tree.length ≤ d + 1 then return ⟨rest, s.uncovered⟩
        else match children with
          | .range a b => do
            let items ← (List.range' a (b - a)).mapM fun ci =>
              (tree.node? (d + 1, ci)).map fun child => (d + 1, ci, path ++ [child.symbol])
            return ⟨items.reverse ++ rest, s.uncovered⟩
          | _ => none

def walk (g : TribbleGenerator) (tree : Tree) (uncovered : List (List Sym)) (fuel : ℕ) :
    Option (List (List Sym)) :=
  (WhileLoop.run (fun s : WalkState => !s.stack.isEmpty && !s.uncovered.isEmpty)
    (g.walkStep tree) fuel ⟨g.walkStart tree, uncovered⟩).map WalkState.uncovered

structure RoundState where
  uncovered : List (List Sym)
  written : List (String × Tree)

def round (g : TribbleGenerator) (rnd : ℕ → RoundChoices) (fuel : ℕ) (s : RoundState) :
    Option RoundState := do
  let r := rnd s.written.length
  let kPath ← s.uncovered[r.pop % s.uncovered.length]?
  let first ← kPath.head?
  let prefixes ← g.prefixDict.get? first
  let pre ← prefixes[r.pre % prefixes.length]?
  let st ← g.generateTree r.tree (pre.dropLast ++ kPath) fuel
  let text ← g.treeToString r.getone 0 st.tree 0
  let uncovered ← g.walk st.tree (s.uncovered.erase kPath) fuel
  return ⟨uncovered, s.written ++ [(text, st.tree)]⟩

def generateInput (g : TribbleGenerator) (kPaths : List (List Sym)) (rnd : ℕ → RoundChoices)
    (fuel : ℕ) : Option (List (String × Tree)) :=
  (WhileLoop.run (fun s : RoundState => !s.uncovered.isEmpty) (g.round rnd fuel) fuel
    ⟨kPaths, []⟩).map RoundState.written

end TribbleGenerator
end RSFuzz
