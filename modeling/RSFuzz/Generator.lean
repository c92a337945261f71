import Mathlib.Data.Finset.Lattice.Fold
import Mathlib.Data.Finset.SDiff
import Mathlib.Order.Lattice.Nat
import RSFuzz.FoundationWeightedDraw
import RSFuzz.FoundationWhileLoop
import RSFuzz.LevelTree

set_option autoImplicit false

/-!
# The input generator

`main/rsfuzzGenerator.py`: candidate expansions, the matcher of recurrent
sequences, pruning, the recording of realised sequences, the two expansion
steps and the loops of `generate_input`. `none` stands for an exception.
-/
namespace RSFuzz
open OrderedMap Subsequence

/-- The three dictionaries handed to the generator. Every id that a rule mentions has its
    symbol prefix in `idx_subseq`, so pruning never looks up a missing id. -/
structure Tables where
  subSequences : Map Sym (Map ℕ (Map (List Sym) ℕ))
  idxSubseq : Map ℕ (List Sym)
  recurrentSequence : Map Sym (List (ℕ × Finset ℕ))
  defined : ∀ S entries, recurrentSequence.get? S = some entries →
    ∀ e ∈ entries, ∀ k ∈ e.2, k ∈ idxSubseq.keys

def Tables.empty : Tables where
  subSequences := Map.empty
  idxSubseq := Map.empty
  recurrentSequence := Map.empty
  defined := by intro S entries h; simp at h

abbrev DepthsDict := Map Sym (List (List Sym × ℕ) × ℕ)

structure Config where
  startRule : Sym
  maxDepths : ℕ

structure InputGenerator where
  grammar : Grammar
  depthsDict : DepthsDict
  config : Config
  tables : Tables

/-- The random numbers of one tree: one for every node position, and one per depth for the
    slot that the guided expansion follows. -/
structure Choices where
  expansion : ℕ → ℕ → ℕ
  slot : ℕ → ℕ

def choice (cand : List ℕ) (r : ℕ) : Option ℕ := cand[r % cand.length]?

/-- `random.choices(cand, weights, k=1)[0]`. -/
def choices (cand : List ℕ) (weight : ℕ → ℚ) (r : ℕ) : Option ℕ :=
  (WeightedDraw.index (cand.map weight) r).bind (cand[·]?)

def indicesWhere {α : Type} (xs : List α) (p : α → Bool) : List ℕ :=
  (List.range xs.length).filter fun j => (xs[j]?).any p

/-- `set.pop()` where the set is known to hold one element only. -/
def popSingle (s : Finset ℕ) : Option ℕ := if s.card = 1 then some (s.sup id) else none

def Grammar.weights (G : Grammar) (symbol : Sym) : List ℚ :=
  (G.alternatives symbol).map Alternative.prob

namespace InputGenerator

def costsOf (expWithCost : List (List Sym × ℕ)) : Map (List Sym) ℕ :=
  expWithCost.foldl (fun d e => d.set e.1 e.2) Map.empty

def costMap (g : InputGenerator) : Map Sym (Map (List Sym) ℕ) :=
  g.depthsDict.mapValues fun e => costsOf e.1

def expansionCost (g : InputGenerator) (symbol : Sym) (expansion : List Sym) : ℕ :=
  (((g.costMap.get? symbol).getD Map.empty).get? expansion).getD 999

def isNonterminal (g : InputGenerator) (s : Sym) : Bool := g.grammar.isNonterminal s

/-- The child nodes of one expansion. Separators are told apart only next to a nonterminal. -/
def children (g : InputGenerator) (depth idx : ℕ) (expansion : List Sym) : List Node :=
  if expansion.any g.isNonterminal then
    expansion.map fun x =>
      if g.isNonterminal x then ⟨x, .unexpanded, -1, some (depth, idx)⟩
      else if x ∈ separatorTokens then ⟨x, .leaf, -2, some (depth, idx)⟩
      else ⟨x, .leaf, -1, some (depth, idx)⟩
  else expansion.map fun x => ⟨x, .leaf, -1, some (depth, idx)⟩

def expansionsToChildren {α : Type} (g : InputGenerator) (expansions : List (List Sym × ℕ × α))
    (depth idx : ℕ) : List (List Node) × List ℕ × List α :=
  (expansions.map fun e => g.children depth idx e.1, expansions.map fun e => e.2.1,
    expansions.map fun e => e.2.2)

end InputGenerator

/-- The `while td != -1` walk: symbols from the node up to the root. A tree with `n` levels
    has no longer chain of parents, so `n` rounds are enough unless pointers are broken. -/
def Tree.walkUp (tree : Tree) : ℕ → Option (ℕ × ℕ) → Option (List Sym)
  | _, none => some []
  | 0, some _ => none
  | fuel + 1, some pos => do
    let node ← tree.node? pos
    let above ← tree.walkUp fuel node.parent
    return node.symbol :: above

def satisfyPreSeq (tree : Tree) (seq : List Sym) (pos : ℕ × ℕ) : Option Bool :=
  match seq.getLast? with
  | none => some true
  | some last =>
    if tree.length < seq.length then some false
    else do
      let node ← tree.node? pos
      if node.symbol ≠ last then return false
      let path ← tree.walkUp tree.length (some pos)
      return greedyMatch seq path.reverse 0

def pruneEntries (t : Tables) (tree : Tree) (pos : ℕ × ℕ) (seen : Finset ℕ) :
    List (ℕ × Finset ℕ) → Option (List ℕ)
  | [] => some []
  | (dnToPrune, rs) :: rest => do
    let pruned ← pruneEntries t tree pos seen rest
    match popSingle (rs \ seen) with
    | none => return pruned
    | some target =>
      let seq ← t.idxSubseq.get? target
      let ok ← satisfyPreSeq tree seq pos
      return if ok then dnToPrune :: pruned else pruned

/-- The numbers stored with a rule that misses one sequence, where that sequence fits. -/
def pruneChildren (t : Tables) (symbol : Sym) (tree : Tree) (pos : ℕ × ℕ) (seen : Finset ℕ) :
    Option (List ℕ) :=
  match t.recurrentSequence.get? symbol with
  | none => some []
  | some entries => pruneEntries t tree pos seen entries

def recordEntries (tree : Tree) (pos : ℕ × ℕ) :
    List (List Sym × ℕ) → Finset ℕ → Option (Finset ℕ)
  | [], seen => some seen
  | (subseq, k) :: rest, seen => do
    let ok ← satisfyPreSeq tree subseq pos
    recordEntries tree pos rest (if ok then insert k seen else seen)

def record (t : Tables) (tree : Tree) (pos : ℕ × ℕ) (symbol : Sym) (derivNum : ℕ)
    (seen : Finset ℕ) : Option (Finset ℕ) :=
  match (t.subSequences.get? symbol).bind (·.get? derivNum) with
  | none => some seen
  | some subseqs => recordEntries tree pos subseqs.entries seen

/-- What one node is expanded to. `candidates` are those left by pruning, before any
    fallback; `slot` is the child that a guided expansion follows. -/
structure Selection where
  candidates : List ℕ
  nodes : List Node
  derivNum : ℕ
  slot : Option ℕ

/-- Bookkeeping of one expansion. The program keeps no such log; it is here to state what
    happened during a run. -/
structure Expansion where
  tree : Tree
  pos : ℕ × ℕ
  symbol : Sym
  seen : Finset ℕ
  candidates : List ℕ
  derivNum : ℕ

/-- The last level while it is being rewritten: nodes already visited, the next level so far,
    the ids seen, the slot found, and the log of expansions. -/
structure LevelState where
  visited : List Node
  next : List Node
  seen : Finset ℕ
  slot : Option ℕ
  trace : List Expansion

def Node.expand (node : Node) (start : ℕ) (sel : Selection) : Node :=
  { node with children := .range start (start + sel.nodes.length), dn := sel.derivNum }

def expandNode (t : Tables) (select : Tree → ℕ → Sym → Finset ℕ → Option Selection)
    (upper : Tree) (rest : List Node) (ls : LevelState) (node : Node) : Option LevelState :=
  match node.children with
  | .unexpanded => do
    let pos := (upper.length, ls.visited.length)
    let tree := upper ++ [ls.visited ++ node :: rest]
    let sel ← select tree pos.2 node.symbol ls.seen
    let expanded := node.expand ls.next.length sel
    let seen ← record t (upper ++ [ls.visited ++ expanded :: rest]) pos node.symbol
      sel.derivNum ls.seen
    return {
      visited := ls.visited ++ [expanded]
      next := ls.next ++ sel.nodes
      seen := seen
      slot := match sel.slot with
        | some r => some (ls.next.length + r)
        | none => ls.slot
      trace := ls.trace ++
        [⟨tree, pos, node.symbol, ls.seen, sel.candidates, sel.derivNum⟩] }
  | _ => some { ls with visited := ls.visited ++ [{ node with children := .leaf }] }

def expandNodes (t : Tables) (select : Tree → ℕ → Sym → Finset ℕ → Option Selection)
    (upper : Tree) : List Node → LevelState → Option LevelState
  | [], ls => some ls
  | node :: rest, ls =>
    (expandNode t select upper rest ls node).bind (expandNodes t select upper rest)

structure GenState where
  tree : Tree
  seen : Finset ℕ
  trace : List Expansion

def expandLevel (t : Tables) (select : Tree → ℕ → Sym → Finset ℕ → Option Selection)
    (st : GenState) : Option (GenState × Option ℕ) := do
  let last ← st.tree.getLast?
  let upper := st.tree.dropLast
  let ls ← expandNodes t select upper last ⟨[], [], st.seen, none, st.trace⟩
  return (⟨upper ++ [ls.visited, ls.next], ls.seen, ls.trace⟩, ls.slot)

namespace InputGenerator

def selectRandomly (g : InputGenerator) (rnd : Choices) (tree : Tree) (i : ℕ) (symbol : Sym)
    (seen : Finset ℕ) : Option Selection := do
  let depth := tree.length - 1
  let expansions ← g.grammar.get? symbol
  let (possible, derivNums, probs) := g.expansionsToChildren
    (expansions.map fun a => (a.expansion, a.derivNum, a.prob)) depth i
  let toPrune ← pruneChildren g.tables symbol tree (depth, i) seen
  let cand := indicesWhere derivNums fun dn => dn ∉ toPrune
  let pool := if cand = [] then List.range derivNums.length else cand
  let weight := fun j => probs.getD j 0
  let useWeight := pool.any fun j => 0 < weight j
  let drawn := if useWeight then choices pool weight (rnd.expansion depth i)
    else choice pool (rnd.expansion depth i)
  let chosen ← drawn
  let nodes ← possible[chosen]?
  let derivNum ← derivNums[chosen]?
  return ⟨cand, nodes, derivNum, none⟩

def expandNodeRandomly (g : InputGenerator) (rnd : Choices) (st : GenState) : Option GenState :=
  (expandLevel g.tables (g.selectRandomly rnd) st).map Prod.fst

def selectMinimum (g : InputGenerator) (rnd : Choices) (tree : Tree) (i : ℕ) (symbol : Sym)
    (seen : Finset ℕ) : Option Selection := do
  let depth := tree.length - 1
  let expansions ← g.grammar.get? symbol
  let (poss, dns, costs) := g.expansionsToChildren
    (expansions.map fun a => (a.expansion, a.derivNum, g.expansionCost symbol a.expansion)) depth i
  let pruneDns ← pruneChildren g.tables symbol tree (depth, i) seen
  let minCost ← costs.min?
  let cand := indicesWhere (costs.zip dns) fun e => e.1 = minCost ∧ e.2 ∉ pruneDns
  let pool := if cand = [] then indicesWhere costs fun c => c = minCost else cand
  let chosen ← choice pool (rnd.expansion depth i)
  let nodes ← poss[chosen]?
  let derivNum ← dns[chosen]?
  return ⟨cand, nodes, derivNum, none⟩

def expandMinimumNode (g : InputGenerator) (rnd : Choices) (st : GenState) : Option GenState :=
  (expandLevel g.tables (g.selectMinimum rnd) st).map Prod.fst

def anyPossibleExpansions (nodes : List Node) : Bool :=
  nodes.any fun node => node.children = .unexpanded

def expandCheck (g : InputGenerator) (nodes : List Node) (depth : ℕ) : Bool :=
  if g.config.maxDepths ≤ depth then false else anyPossibleExpansions nodes

def lastLevel (st : GenState) : List Node := st.tree.getLast?.getD []

def initial (g : InputGenerator) : GenState :=
  ⟨[[⟨g.config.startRule, .unexpanded, -1, none⟩]], ∅, []⟩

/-- The random phase of `generate_input`, then the minimum-cost phase, for one tree. The
    second component is `depth_to_exapnd`. -/
def generateTree (g : InputGenerator) (rnd : Choices) (fuel : ℕ) : Option GenState := do
  let s ← WhileLoop.run (fun s : GenState × ℕ => g.expandCheck (lastLevel s.1) s.2)
    (fun s => (g.expandNodeRandomly rnd s.1).map fun st => (st, s.2 + 1)) fuel (g.initial, 0)
  let s ← WhileLoop.run (fun s : GenState × ℕ => anyPossibleExpansions (lastLevel s.1))
    (fun s => (g.expandMinimumNode rnd s.1).map fun st => (st, s.2 + 1)) fuel s
  return s.1

end InputGenerator
end RSFuzz
