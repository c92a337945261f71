import RSFuzz.FoundationOptionFold
import RSFuzz.Generator

set_option autoImplicit false

/-!
# The representation invariant of trees

Two neighbouring levels are linked when the child ranges of the upper one tile
the lower one, parent pointers and ranges agree, and the children of every
expanded node spell an alternative carrying the node's number.
-/
namespace RSFuzz
open OrderedMap OptionFold Tiling

/-- The child ranges of the expanded nodes of a level, left to right. -/
def childRanges (level : List Node) : List (ℕ × ℕ) :=
  level.filterMap fun node =>
    match node.children with
    | .range a b => some (a, b)
    | _ => none

/-- The part of a node that later steps never change. -/
def Node.outline (node : Node) : Sym × Option (ℕ × ℕ) := (node.symbol, node.parent)

def childSlice (next : List Node) (a b : ℕ) : List Node := (next.drop a).take (b - a)

structure LevelLinked (G : Grammar) (d : ℕ) (level next : List Node) : Prop where
  tiles : Tiles 0 (childRanges level) next.length
  parents : ∀ c i, (∃ node : Node, next[c]? = some node ∧ node.parent = some (d, i)) ↔
    ∃ (node : Node) (a b : ℕ), level[i]? = some node ∧ node.children = .range a b ∧ a ≤ c ∧ c < b
  spells : ∀ node ∈ level, ∀ a b, node.children = .range a b →
    ∃ alt ∈ G.alternatives node.symbol, node.dn = (alt.derivNum : ℤ) ∧
      (childSlice next a b).map Node.symbol = alt.expansion

/-- Terminals are leaves with a negative number, nonterminals are not leaves. -/
structure NodeOk (G : Grammar) (node : Node) : Prop where
  leaf_iff : node.children = .leaf ↔ node.symbol ∉ G.keys
  leaf_dn : node.children = .leaf → node.dn = -1 ∨ node.dn = -2

theorem childRanges_append (xs ys : List Node) :
    childRanges (xs ++ ys) = childRanges xs ++ childRanges ys := by
  simp [childRanges]

theorem childRanges_singleton_range {node : Node} {a b : ℕ} (h : node.children = .range a b) :
    childRanges [node] = [(a, b)] := by
  simp [childRanges, h]

theorem childRanges_singleton_leaf {node : Node} (h : node.children = .leaf) :
    childRanges [node] = [] := by
  simp [childRanges, h]

theorem mem_childRanges {level : List Node} {r : ℕ × ℕ} :
    r ∈ childRanges level ↔ ∃ node ∈ level, node.children = .range r.1 r.2 := by
  simp only [childRanges, List.mem_filterMap]
  constructor
  · rintro ⟨node, hn, h⟩
    cases hc : node.children with
    | range a b =>
      rw [hc] at h
      obtain rfl := Option.some.inj h
      exact ⟨node, hn, hc⟩
    | unexpanded => rw [hc] at h; cases h
    | leaf => rw [hc] at h; cases h
  · rintro ⟨node, hn, hc⟩
    exact ⟨node, hn, by rw [hc]⟩

theorem childSlice_append {next : List Node} {a b : ℕ} (hb : b ≤ next.length) (more : List Node) :
    childSlice (next ++ more) a b = childSlice next a b := by
  unfold childSlice
  by_cases ha : a ≤ next.length
  · rw [List.drop_append_of_le_length ha, List.take_append_of_le_length (by simp; omega)]
  · have : b - a = 0 := by omega
    simp [this]

theorem childSlice_new (next more : List Node) :
    childSlice (next ++ more) next.length (next.length + more.length) = more := by
  simp [childSlice]

namespace LevelLinked

variable {G : Grammar} {d : ℕ} {level next : List Node}

theorem nil : LevelLinked G d [] [] where
  tiles := rfl
  parents := by simp
  spells := by simp

theorem range_le (h : LevelLinked G d level next) {node : Node} (hn : node ∈ level) {a b : ℕ}
    (hc : node.children = .range a b) : a ≤ b ∧ b ≤ next.length :=
  (h.tiles.bounds (mem_childRanges (r := (a, b)).mpr ⟨node, hn, hc⟩)).2

theorem concat_leaf (h : LevelLinked G d level next) {node : Node} (hc : node.children = .leaf) :
    LevelLinked G d (level ++ [node]) next where
  tiles := by
    rw [childRanges_append, childRanges_singleton_leaf hc, List.append_nil]
    exact h.tiles
  parents := by
    intro c i
    rw [h.parents]
    constructor
    · rintro ⟨n, a, b, hn, hr, hb⟩
      exact ⟨n, a, b, (getElem?_concat_iff _ _ _ _).mpr (Or.inl hn), hr, hb⟩
    · rintro ⟨n, a, b, hn, hr, hb⟩
      rcases (getElem?_concat_iff _ _ _ _).mp hn with hn | ⟨-, rfl⟩
      · exact ⟨n, a, b, hn, hr, hb⟩
      · rw [hc] at hr
        cases hr
  spells := by
    intro n hn a b hr
    rcases List.mem_append.mp hn with hn | hn
    · exact h.spells n hn a b hr
    · obtain rfl := List.mem_singleton.mp hn
      rw [hc] at hr
      cases hr

theorem concat_range (h : LevelLinked G d level next) {node : Node} {nodes : List Node}
    {alt : Alternative} (hc : node.children = .range next.length (next.length + nodes.length))
    (hpar : ∀ n ∈ nodes, n.parent = some (d, level.length))
    (ha : alt ∈ G.alternatives node.symbol) (hd : node.dn = (alt.derivNum : ℤ))
    (hs : nodes.map Node.symbol = alt.expansion) :
    LevelLinked G d (level ++ [node]) (next ++ nodes) where
  tiles := by
    rw [childRanges_append, childRanges_singleton_range hc, List.length_append]
    exact h.tiles.concat (by omega)
  parents := by
    intro c i
    rcases Nat.lt_or_ge c next.length with hcn | hcn
    · rw [List.getElem?_append_left hcn, h.parents]
      constructor
      · rintro ⟨n, a, b, hn, hr, hb⟩
        exact ⟨n, a, b, (getElem?_concat_iff _ _ _ _).mpr (Or.inl hn), hr, hb⟩
      · rintro ⟨n, a, b, hn, hr, hb⟩
        rcases (getElem?_concat_iff _ _ _ _).mp hn with hn | ⟨-, rfl⟩
        · exact ⟨n, a, b, hn, hr, hb⟩
        · obtain ⟨rfl, rfl⟩ := Children.range.inj (hc.symm.trans hr)
          omega
    · rw [List.getElem?_append_right hcn]
      constructor
      · rintro ⟨n, hn, hp⟩
        have hlt := (List.getElem?_eq_some_iff.mp hn).1
        have := hpar n (List.mem_of_getElem? hn)
        obtain rfl : level.length = i := congrArg Prod.snd (Option.some.inj (this.symm.trans hp))
        exact ⟨node, _, _, by simp, hc, hcn, by omega⟩
      · rintro ⟨n, a, b, hn, hr, ha, hb⟩
        rcases (getElem?_concat_iff _ _ _ _).mp hn with hn | ⟨rfl, rfl⟩
        · have := (h.range_le (List.mem_of_getElem? hn) hr).2
          omega
        · obtain ⟨rfl, rfl⟩ := Children.range.inj (hc.symm.trans hr)
          have hlt : c - next.length < nodes.length := by omega
          exact ⟨nodes[c - next.length], List.getElem?_eq_getElem hlt,
            hpar _ (List.getElem_mem hlt)⟩
  spells := by
    intro n hn a b hr
    rcases List.mem_append.mp hn with hn | hn
    · obtain ⟨alt', ha', hd', hs'⟩ := h.spells n hn a b hr
      exact ⟨alt', ha', hd', by rw [childSlice_append (h.range_le hn hr).2, hs']⟩
    · obtain rfl := List.mem_singleton.mp hn
      obtain ⟨rfl, rfl⟩ := Children.range.inj (hc.symm.trans hr)
      exact ⟨alt, ha, hd, by rw [childSlice_new, hs]⟩

theorem congr_next (h : LevelLinked G d level next) {next' : List Node}
    (ho : next'.map Node.outline = next.map Node.outline) : LevelLinked G d level next' where
  tiles := by
    have hl : next'.length = next.length := by simpa using congrArg List.length ho
    rw [hl]
    exact h.tiles
  parents := by
    have key : ∀ (xs ys : List Node) (c i : ℕ), xs.map Node.outline = ys.map Node.outline →
        (∃ node : Node, xs[c]? = some node ∧ node.parent = some (d, i)) →
        ∃ node : Node, ys[c]? = some node ∧ node.parent = some (d, i) := by
      rintro xs ys c i he ⟨node, hn, hp⟩
      have hc := congrArg (fun l => l[c]?) he
      simp only [List.getElem?_map, hn, Option.map_some] at hc
      obtain ⟨node', hn', ho'⟩ := Option.map_eq_some_iff.mp hc.symm
      exact ⟨node', hn', (congrArg Prod.snd ho').trans hp⟩
    intro c i
    rw [← h.parents]
    exact ⟨key _ _ c i ho, key _ _ c i ho.symm⟩
  spells := by
    intro n hn a b hr
    obtain ⟨alt, ha, hd, hs⟩ := h.spells n hn a b hr
    refine ⟨alt, ha, hd, ?_⟩
    have hsym : ∀ xs : List Node, xs.map Node.symbol = (xs.map Node.outline).map Prod.fst := by
      intro xs
      simp [Node.outline]
    rw [← hs, childSlice, childSlice, List.map_take, List.map_drop, List.map_take, List.map_drop,
      hsym next', hsym next, ho]

theorem exists_parent (h : LevelLinked G d level next) {c : ℕ} {node : Node}
    (hn : next[c]? = some node) :
    ∃ (i : ℕ) (up : Node) (a b : ℕ), node.parent = some (d, i) ∧ level[i]? = some up ∧
      up.children = .range a b ∧ a ≤ c ∧ c < b := by
  have hlt : c < next.length := (List.getElem?_eq_some_iff.mp hn).1
  obtain ⟨r, hr, hle, hlt'⟩ := h.tiles.exists_mem (Nat.zero_le c) hlt
  obtain ⟨up, hup, hc⟩ := mem_childRanges.mp hr
  obtain ⟨i, hi⟩ := List.mem_iff_getElem?.mp hup
  obtain ⟨node', hn', hp⟩ := (h.parents c i).mpr ⟨up, r.1, r.2, hi, hc, hle, hlt'⟩
  obtain rfl := Option.some.inj (hn.symm.trans hn')
  exact ⟨i, up, r.1, r.2, hp, hi, hc, hle, hlt'⟩

end LevelLinked

/-- What every tree that generation reaches satisfies, the last level still unexpanded. -/
structure WellFormed (G : Grammar) (start : Sym) (tree : Tree) : Prop where
  root : ∃ node, tree[0]? = some [node] ∧ node.symbol = start ∧ node.parent = none
  linked : ∀ d level next, tree[d]? = some level → tree[d + 1]? = some next →
    LevelLinked G d level next
  nodes : ∀ level ∈ tree, ∀ node ∈ level, NodeOk G node
  above : ∀ d level, tree[d]? = some level → d + 1 < tree.length →
    ∀ node ∈ level, node.children ≠ .unexpanded
  last : ∀ level, tree.getLast? = some level → ∀ node ∈ level, ∀ a b,
    node.children ≠ .range a b

theorem WellFormed.parentsConsistent {G : Grammar} {start : Sym} {tree : Tree}
    (h : WellFormed G start tree) : tree.ParentsConsistent := by
  intro d i node hn
  obtain ⟨level, hl, hi⟩ := Tree.node?_eq_some.mp hn
  cases d with
  | zero =>
    obtain ⟨root, hr, -, hp⟩ := h.root
    obtain rfl := Option.some.inj (hl.symm.trans hr)
    obtain rfl := List.mem_singleton.mp (List.mem_of_getElem? hi)
    exact hp
  | succ d =>
    have hd : d < tree.length := by
      have := (List.getElem?_eq_some_iff.mp hl).1
      omega
    obtain ⟨i', up, a, b, hp, hup, -⟩ :=
      (h.linked d _ level (List.getElem?_eq_getElem hd) hl).exists_parent hi
    refine ⟨i', hp, ?_⟩
    rw [Tree.node?_eq_some.mpr ⟨_, List.getElem?_eq_getElem hd, hup⟩]
    rfl

theorem WellFormed.nodeOk {G : Grammar} {start : Sym} {tree : Tree} (h : WellFormed G start tree)
    {pos : ℕ × ℕ} {node : Node} (hn : tree.node? pos = some node) : NodeOk G node := by
  obtain ⟨level, hl, hi⟩ := Tree.node?_eq_some.mp hn
  exact h.nodes level (List.mem_of_getElem? hl) node (List.mem_of_getElem? hi)

theorem WellFormed.exists_root {G : Grammar} {start : Sym} {tree : Tree}
    (h : WellFormed G start tree) :
    ∃ node, tree.node? (0, 0) = some node ∧ node.symbol = start ∧ node.parent = none := by
  obtain ⟨node, hr, hsym, hpar⟩ := h.root
  exact ⟨node, by simp [Tree.node?, hr], hsym, hpar⟩

theorem WellFormed.first_level {G : Grammar} {start : Sym} {tree : Tree}
    (h : WellFormed G start tree) {i : ℕ} {node : Node} (hn : tree.node? (0, i) = some node) :
    i = 0 ∧ node.symbol = start := by
  obtain ⟨root, hr, hsym, -⟩ := h.root
  obtain ⟨level, hl, hi⟩ := Tree.node?_eq_some.mp hn
  obtain rfl := Option.some.inj (hl.symm.trans hr)
  obtain rfl : i = 0 := by
    have := (List.getElem?_eq_some_iff.mp hi).1
    simpa using this
  obtain rfl : root = node := Option.some.inj hi
  exact ⟨rfl, hsym⟩

theorem WellFormed.ne_nil {G : Grammar} {start : Sym} {tree : Tree}
    (h : WellFormed G start tree) : tree ≠ [] := by
  obtain ⟨_, hr, -⟩ := h.root
  rintro rfl
  simp at hr

end RSFuzz
