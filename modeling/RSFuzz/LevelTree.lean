import RSFuzz.DerivationTree
import RSFuzz.FoundationTiling

set_option autoImplicit false

/-!
# The tree under construction

A tree is the list of its levels. A node holds its symbol, the index range of
its children in the next level, its derivation number and the position of its
parent.
-/
namespace RSFuzz
open OrderedMap Subsequence Tiling

/-- The second entry of a node tuple: `None`, `()` or `range(start, stop)`. -/
inductive Children where
  | unexpanded
  | leaf
  | range (start stop : ℕ)
deriving DecidableEq, Repr

/-- The node tuple. The derivation number is -1 before expansion and at terminals, -2 at
    separators; the root's parent `(-1, -1)` is `none`. -/
structure Node where
  symbol : Sym
  children : Children
  dn : ℤ
  parent : Option (ℕ × ℕ)
deriving DecidableEq, Repr

abbrev Tree := List (List Node)

namespace Tree

def node? (tree : Tree) (pos : ℕ × ℕ) : Option Node := (tree[pos.1]?).bind (·[pos.2]?)

/-- The positions and symbols met by following parent pointers from a node to the root. -/
inductive RootPath (tree : Tree) : ℕ × ℕ → List Sym → Prop where
  | root {i : ℕ} {node : Node} (h : tree.node? (0, i) = some node) (hp : node.parent = none) :
      RootPath tree (0, i) [node.symbol]
  | child {d i c : ℕ} {path : List Sym} {node : Node} (above : RootPath tree (d, i) path)
      (h : tree.node? (d + 1, c) = some node) (hp : node.parent = some (d, i)) :
      RootPath tree (d + 1, c) (path ++ [node.symbol])

/-- Root path and derivation number of every node that has been expanded. -/
def expanded (tree : Tree) : Set (List Sym × ℕ) :=
  {e | ∃ pos node a b, tree.node? pos = some node ∧ node.children = .range a b ∧
    node.dn = (e.2 : ℤ) ∧ RootPath tree pos e.1}

def ParentsConsistent (tree : Tree) : Prop :=
  ∀ d i node, tree.node? (d, i) = some node →
    match d with
    | 0 => node.parent = none
    | d' + 1 => ∃ i', node.parent = some (d', i') ∧ (tree.node? (d', i')).isSome

theorem node?_eq_some {tree : Tree} {d i : ℕ} {node : Node} :
    tree.node? (d, i) = some node ↔ ∃ level, tree[d]? = some level ∧ level[i]? = some node :=
  Option.bind_eq_some_iff

theorem RootPath.length {tree : Tree} {pos : ℕ × ℕ} {path : List Sym}
    (h : RootPath tree pos path) : path.length = pos.1 + 1 := by
  induction h with
  | root => rfl
  | child _ _ _ ih => simp [ih]

theorem RootPath.ne_nil {tree : Tree} {pos : ℕ × ℕ} {path : List Sym}
    (h : RootPath tree pos path) : path ≠ [] := by
  have := h.length
  rintro rfl
  simp at this

theorem RootPath.exists_node {tree : Tree} {pos : ℕ × ℕ} {path : List Sym}
    (h : RootPath tree pos path) : ∃ node, tree.node? pos = some node := by
  cases h with
  | root h _ => exact ⟨_, h⟩
  | child _ h _ => exact ⟨_, h⟩

theorem RootPath.getLast? {tree : Tree} {pos : ℕ × ℕ} {path : List Sym} {node : Node}
    (h : RootPath tree pos path) (hn : tree.node? pos = some node) :
    path.getLast? = some node.symbol := by
  cases h with
  | root h _ => obtain rfl := Option.some.inj (h.symm.trans hn); rfl
  | child _ h _ => obtain rfl := Option.some.inj (h.symm.trans hn); simp

theorem RootPath.unique {tree : Tree} {pos : ℕ × ℕ} {p q : List Sym}
    (hp : RootPath tree pos p) (hq : RootPath tree pos q) : p = q := by
  induction hp generalizing q with
  | root h _ =>
    cases hq with
    | root h' _ => rw [Option.some.inj (h.symm.trans h')]
  | child _ h hpar ih =>
    cases hq with
    | child above' h' hpar' =>
      obtain rfl := Option.some.inj (h.symm.trans h')
      obtain rfl : _ = _ := congrArg Prod.snd (Option.some.inj (hpar.symm.trans hpar'))
      rw [ih above']

theorem ParentsConsistent.exists_rootPath {tree : Tree} (hc : tree.ParentsConsistent)
    (d i : ℕ) {node : Node} (h : tree.node? (d, i) = some node) :
    ∃ path, RootPath tree (d, i) path := by
  induction d generalizing i node with
  | zero => exact ⟨_, .root h (hc 0 i node h)⟩
  | succ d ih =>
    obtain ⟨i', hp, hs⟩ := hc (d + 1) i node h
    obtain ⟨up, hup⟩ := Option.isSome_iff_exists.mp hs
    obtain ⟨path, hpath⟩ := ih i' hup
    exact ⟨_, .child hpath h hp⟩

/-- Later versions of a tree keep every node's symbol and parent, and only add nodes. -/
def Extends (tree tree' : Tree) : Prop :=
  ∀ pos node, tree.node? pos = some node →
    ∃ node', tree'.node? pos = some node' ∧ node'.symbol = node.symbol ∧
      node'.parent = node.parent

theorem Extends.refl (tree : Tree) : Extends tree tree :=
  fun _ node h => ⟨node, h, rfl, rfl⟩

theorem Extends.trans {t u v : Tree} (h : Extends t u) (h' : Extends u v) : Extends t v := by
  intro pos node hn
  obtain ⟨node', hn', hs, hp⟩ := h pos node hn
  obtain ⟨node'', hn'', hs', hp'⟩ := h' pos node' hn'
  exact ⟨node'', hn'', hs'.trans hs, hp'.trans hp⟩

theorem RootPath.extend {tree tree' : Tree} (he : Extends tree tree') {pos : ℕ × ℕ}
    {path : List Sym} (h : RootPath tree pos path) : RootPath tree' pos path := by
  induction h with
  | root h hp =>
    obtain ⟨node', hn, hs, hpar⟩ := he _ _ h
    rw [← hs]
    exact .root hn (hpar.trans hp)
  | child _ h hp ih =>
    obtain ⟨node', hn, hs, hpar⟩ := he _ _ h
    rw [← hs]
    exact .child ih hn (hpar.trans hp)

theorem node?_append_left {upper rest : Tree} {d i : ℕ} (h : d < upper.length) :
    Tree.node? (upper ++ rest) (d, i) = upper.node? (d, i) := by
  simp [node?, List.getElem?_append_left h]

theorem node?_append_right {upper rest : Tree} {d i : ℕ} (h : upper.length ≤ d) :
    Tree.node? (upper ++ rest) (d, i) = rest.node? (d - upper.length, i) := by
  simp [node?, List.getElem?_append_right h]

theorem node?_last {upper : Tree} {level : List Node} {i : ℕ} :
    Tree.node? (upper ++ [level]) (upper.length, i) = level[i]? := by
  simp [node?]

theorem node?_lt_length {tree : Tree} {d i : ℕ} {node : Node}
    (h : tree.node? (d, i) = some node) : d < tree.length := by
  obtain ⟨level, hl, -⟩ := node?_eq_some.mp h
  exact (List.getElem?_eq_some_iff.mp hl).1

end Tree
end RSFuzz
