import RSFuzz.LevelTreeInvariants

set_option autoImplicit false

/-!
# From levels to derivation trees

A closed well-formed tree of levels stands for a derivation tree of the
grammar, and both expand the same symbols with the same numbers below the same
ancestors.
-/
namespace RSFuzz
open OrderedMap Tiling

/-- No nonterminal is left to expand. -/
def Tree.Closed (tree : Tree) : Prop :=
  ∀ pos node, tree.node? pos = some node → node.children ≠ .unexpanded

inductive Tree.Derivation (tree : Tree) : ℕ × ℕ → DTree → Prop where
  | leaf {pos : ℕ × ℕ} {node : Node} (hn : tree.node? pos = some node)
      (hc : node.children = .leaf) : Derivation tree pos (.leaf node.symbol)
  | node {d i a b dn : ℕ} {node : Node} {children : List DTree}
      (hn : tree.node? (d, i) = some node) (hc : node.children = .range a b)
      (hd : node.dn = (dn : ℤ)) (hlen : children.length = b - a)
      (h : ∀ k t, children[k]? = some t → Derivation tree (d + 1, a + k) t) :
      Derivation tree (d, i) (.node node.symbol dn children)

theorem Tree.Derivation.symbol {tree : Tree} {pos : ℕ × ℕ} {t : DTree} {node : Node}
    (h : tree.Derivation pos t) (hn : tree.node? pos = some node) : t.symbol = node.symbol := by
  cases h with
  | leaf hn' _ => rw [Option.some.inj (hn.symm.trans hn')]; rfl
  | node hn' _ _ _ _ => rw [Option.some.inj (hn.symm.trans hn')]; rfl

namespace WellFormed

variable {G : Grammar} {start : Sym} {tree : Tree}

theorem exists_next (h : WellFormed G start tree) {d i a b : ℕ} {node : Node}
    (hn : tree.node? (d, i) = some node) (hc : node.children = .range a b) :
    ∃ level next, tree[d]? = some level ∧ tree[d + 1]? = some next ∧ level[i]? = some node ∧
      LevelLinked G d level next := by
  obtain ⟨level, hl, hi⟩ := Tree.node?_eq_some.mp hn
  have hd : d < tree.length := (List.getElem?_eq_some_iff.mp hl).1
  have hlt : d + 1 < tree.length := by
    by_contra hge
    obtain rfl : d = tree.length - 1 := by omega
    refine h.last level ?_ node (List.mem_of_getElem? hi) a b hc
    rw [List.getLast?_eq_getElem?, hl]
  have hnext := List.getElem?_eq_getElem hlt
  exact ⟨level, _, hl, hnext, hi, h.linked d level _ hl hnext⟩

theorem exists_child (h : WellFormed G start tree) {d i a b c : ℕ} {node : Node}
    (hn : tree.node? (d, i) = some node) (hc : node.children = .range a b) (ha : a ≤ c)
    (hb : c < b) : ∃ child, tree.node? (d + 1, c) = some child ∧ child.parent = some (d, i) := by
  obtain ⟨level, next, -, hnext, hi, hlink⟩ := h.exists_next hn hc
  obtain ⟨child, hchild, hpar⟩ := (hlink.parents c i).mpr ⟨node, a, b, hi, hc, ha, hb⟩
  exact ⟨child, Tree.node?_eq_some.mpr ⟨next, hnext, hchild⟩, hpar⟩

theorem spells_alternative (h : WellFormed G start tree) {d i a b : ℕ} {node : Node}
    (hn : tree.node? (d, i) = some node) (hc : node.children = .range a b) :
    a ≤ b ∧ ∃ alt ∈ G.alternatives node.symbol, node.dn = (alt.derivNum : ℤ) ∧
      alt.expansion.length = b - a ∧ ∀ k, k < b - a →
        ∃ child, tree.node? (d + 1, a + k) = some child ∧
          alt.expansion[k]? = some child.symbol := by
  obtain ⟨level, next, -, hnext, hi, hlink⟩ := h.exists_next hn hc
  have hmem := List.mem_of_getElem? hi
  obtain ⟨hab, hbn⟩ := hlink.range_le hmem hc
  obtain ⟨alt, halt, hdn, hs⟩ := hlink.spells node hmem a b hc
  refine ⟨hab, alt, halt, hdn, ?_, ?_⟩
  · rw [← hs]
    simp only [List.length_map, childSlice, List.length_take, List.length_drop]
    omega
  · intro k hk
    have hlt : a + k < next.length := by omega
    refine ⟨next[a + k], Tree.node?_eq_some.mpr ⟨next, hnext, List.getElem?_eq_getElem hlt⟩, ?_⟩
    rw [← hs, List.getElem?_map, childSlice, List.getElem?_take_of_lt hk, List.getElem?_drop,
      List.getElem?_eq_getElem hlt]
    rfl

theorem range_le_sum (h : WellFormed G start tree) {d i a b : ℕ} {node : Node}
    (hn : tree.node? (d, i) = some node) (hc : node.children = .range a b) :
    b - a ≤ (tree.map List.length).sum := by
  obtain ⟨level, next, -, hnext, hi, hlink⟩ := h.exists_next hn hc
  have hle := (hlink.range_le (List.mem_of_getElem? hi) hc).2
  have hsum : next.length ≤ (tree.map List.length).sum :=
    List.single_le_sum (by simp) _ (List.mem_map.mpr ⟨next, List.mem_of_getElem? hnext, rfl⟩)
  omega

theorem parent_range (h : WellFormed G start tree) {d i c : ℕ} {node : Node}
    (hn : tree.node? (d + 1, c) = some node) (hp : node.parent = some (d, i)) :
    ∃ (up : Node) (a b : ℕ), tree.node? (d, i) = some up ∧ up.children = .range a b ∧
      a ≤ c ∧ c < b := by
  obtain ⟨next, hnext, hc⟩ := Tree.node?_eq_some.mp hn
  have hd : d < tree.length := Nat.lt_of_succ_lt (Tree.node?_lt_length hn)
  have hl := List.getElem?_eq_getElem hd
  obtain ⟨up, a, b, hui, hr, hac, hcb⟩ :=
    ((h.linked d _ _ hl hnext).parents c i).mp ⟨node, hc, hp⟩
  exact ⟨up, a, b, Tree.node?_eq_some.mpr ⟨_, hl, hui⟩, hr, hac, hcb⟩

theorem parent_expanded (h : WellFormed G start tree) {c pos : ℕ × ℕ} {node : Node}
    (hn : tree.node? c = some node) (hp : node.parent = some pos) :
    ∃ (up : Node) (a b dn : ℕ), tree.node? pos = some up ∧ up.children = .range a b ∧
      up.dn = (dn : ℤ) := by
  obtain ⟨d, i⟩ := c
  have hcons := h.parentsConsistent d i node hn
  cases d with
  | zero => rw [hcons] at hp; cases hp
  | succ d =>
    obtain ⟨i', hpar, -⟩ := hcons
    obtain rfl := Option.some.inj (hpar.symm.trans hp)
    obtain ⟨up, a, b, hup, hr, -, -⟩ := h.parent_range hn hp
    obtain ⟨-, alt, -, hdn, -⟩ := h.spells_alternative hup hr
    exact ⟨up, a, b, alt.derivNum, hup, hr, hdn⟩

/-- Every position of a closed tree stands for a complete derivation tree. Induction on the
    number of levels below the position. -/
theorem exists_derivation (h : WellFormed G start tree) (hclosed : tree.Closed) (n : ℕ)
    {d i : ℕ} {node : Node} (hd : tree.length - d = n) (hn : tree.node? (d, i) = some node) :
    ∃ t, tree.Derivation (d, i) t ∧ Derives G t := by
  induction n generalizing d i node with
  | zero =>
    have := Tree.node?_lt_length hn
    omega
  | succ n ih =>
    cases hc : node.children with
    | unexpanded => exact absurd hc (hclosed _ _ hn)
    | leaf =>
      exact ⟨_, .leaf hn hc, .leaf ((h.nodeOk hn).leaf_iff.mp hc)⟩
    | range a b =>
      obtain ⟨hab, alt, halt, hdn, hlen, hchild⟩ := h.spells_alternative hn hc
      have hex : ∀ k, ∃ t, k < b - a → tree.Derivation (d + 1, a + k) t ∧ Derives G t ∧
          alt.expansion[k]? = some t.symbol := by
        intro k
        by_cases hk : k < b - a
        · obtain ⟨child, hcn, hsym⟩ := hchild k hk
          obtain ⟨t, ht, htd⟩ := ih (by omega) hcn
          exact ⟨t, fun _ => ⟨ht, htd, by rw [hsym, ht.symbol hcn]⟩⟩
        · exact ⟨.leaf "", fun hk' => absurd hk' hk⟩
      choose sub hsub using hex
      have hget : ∀ k t, ((List.range (b - a)).map sub)[k]? = some t → k < b - a ∧ t = sub k := by
        intro k t hk
        rw [List.getElem?_map, Option.map_eq_some_iff] at hk
        obtain ⟨j, hj, rfl⟩ := hk
        obtain ⟨hlt, rfl⟩ := List.getElem?_eq_some_iff.mp hj
        exact ⟨by simpa using hlt, by simp⟩
      refine ⟨.node node.symbol alt.derivNum ((List.range (b - a)).map sub),
        .node hn hc hdn (by simp) ?_, .node halt rfl ?_ ?_⟩
      · intro k t hk
        obtain ⟨hlt, rfl⟩ := hget k t hk
        exact (hsub k hlt).1
      · apply List.ext_getElem?
        intro k
        rcases Nat.lt_or_ge k (b - a) with hk | hk
        · rw [(hsub k hk).2.2]
          simp [hk]
        · rw [List.getElem?_eq_none (by simp [hk]), List.getElem?_eq_none (by omega)]
      · intro t ht
        obtain ⟨k, hk⟩ := List.mem_iff_getElem?.mp ht
        obtain ⟨hlt, rfl⟩ := hget k t hk
        exact (hsub k hlt).2.1

theorem exists_root_derivation (h : WellFormed G start tree) (hclosed : tree.Closed) :
    ∃ t, tree.Derivation (0, 0) t ∧ Derives G t ∧ t.symbol = start := by
  obtain ⟨node, hn, hsym, -⟩ := h.exists_root
  obtain ⟨t, ht, htd⟩ := h.exists_derivation hclosed _ rfl hn
  exact ⟨t, ht, htd, (ht.symbol hn).trans hsym⟩

end WellFormed

theorem Tree.Derivation.expandedBelow_subset {G : Grammar} {start : Sym} {tree : Tree}
    (hw : WellFormed G start tree) {pos : ℕ × ℕ} {t : DTree} (h : tree.Derivation pos t)
    {pre : List Sym} (hp : tree.RootPath pos (pre ++ [t.symbol])) :
    ∀ e ∈ t.expandedBelow pre, e ∈ tree.expanded := by
  induction h generalizing pre with
  | leaf hn hc => simp [DTree.expandedBelow]
  | @node d i a b dn node children hn hc hd hlen _ ih =>
    intro e he
    rw [DTree.expandedBelow, List.mem_cons] at he
    rcases he with rfl | he
    · exact ⟨(d, i), node, a, b, hn, hc, hd, hp⟩
    · obtain ⟨t, ht, het⟩ := DTree.mem_expandedForest.mp he
      obtain ⟨k, hk⟩ := List.mem_iff_getElem?.mp ht
      have hlt : k < b - a := hlen ▸ (List.getElem?_eq_some_iff.mp hk).1
      obtain ⟨child, hcn, hpar⟩ := hw.exists_child hn hc (Nat.le_add_right a k) (by omega)
      refine ih k t hk ?_ e het
      have hsym : t.symbol = child.symbol := by
        rename_i hder
        exact (hder k t hk).symbol hcn
      rw [hsym]
      exact .child hp hcn hpar

theorem Tree.Derivation.expandedBelow_of_rootPath {G : Grammar} {start : Sym} {tree : Tree}
    (hw : WellFormed G start tree) {t : DTree} (h : tree.Derivation (0, 0) t) {pos : ℕ × ℕ}
    {path : List Sym} (hp : tree.RootPath pos path) :
    ∃ t', tree.Derivation pos t' ∧
      ∀ e ∈ t'.expandedBelow path.dropLast, e ∈ t.expandedBelow [] := by
  induction hp with
  | @root i node hn hpar =>
    obtain ⟨rfl, -⟩ := hw.first_level hn
    exact ⟨t, h, fun e he => he⟩
  | @child d i c path node above hn hpar ih =>
    obtain ⟨up, hup, hsub⟩ := ih
    obtain ⟨upNode, hupn⟩ := above.exists_node
    -- the parent's range contains the child, so its derivation holds the child's
    obtain ⟨upNode', a, b, hupn', hr, ha, hb⟩ := hw.parent_range hn hpar
    obtain rfl := Option.some.inj (hupn.symm.trans hupn')
    cases hup with
    | leaf hn' hc' =>
      rw [Option.some.inj (hupn.symm.trans hn'), hc'] at hr
      cases hr
    | @node _ _ a' b' dn _ children hn' hc' hd hlen hch =>
      obtain rfl := Option.some.inj (hupn.symm.trans hn')
      obtain ⟨rfl, rfl⟩ := Children.range.inj (hr.symm.trans hc')
      have hlt : c - a < children.length := by omega
      refine ⟨children[c - a], ?_, ?_⟩
      · have := hch (c - a) _ (List.getElem?_eq_getElem hlt)
        rwa [Nat.add_sub_cancel' ha] at this
      · intro e he
        apply hsub
        have hlast : path.dropLast ++ [upNode.symbol] = path := by
          obtain ⟨front, hl⟩ := List.getLast?_eq_some_iff.mp (above.getLast? hupn)
          rw [hl]
          simp
        rw [DTree.expandedBelow, hlast]
        refine List.mem_cons_of_mem _ (DTree.mem_expandedForest.mpr ⟨_, List.getElem_mem hlt, ?_⟩)
        simpa using he

/-- Level tree and derivation tree expand the same symbols in the same places. -/
theorem Tree.Derivation.expanded_eq {G : Grammar} {start : Sym} {tree : Tree}
    (hw : WellFormed G start tree) {t : DTree} (h : tree.Derivation (0, 0) t) :
    t.expanded = tree.expanded := by
  ext e
  constructor
  · intro he
    obtain ⟨node, hn, -, hpar⟩ := hw.exists_root
    have hp : tree.RootPath (0, 0) ([] ++ [t.symbol]) := by
      rw [h.symbol hn]
      exact .root hn hpar
    exact h.expandedBelow_subset hw hp e he
  · rintro ⟨pos, node, a, b, hn, hc, hd, hp⟩
    obtain ⟨t', ht', hsub⟩ := h.expandedBelow_of_rootPath hw hp
    apply hsub
    cases ht' with
    | leaf hn' hc' =>
      rw [Option.some.inj (hn.symm.trans hn'), hc'] at hc
      cases hc
    | node hn' hc' hd' _ _ =>
      obtain rfl := Option.some.inj (hn.symm.trans hn')
      rw [DTree.expandedBelow]
      obtain ⟨path, dn⟩ := e
      have hdn : dn = _ := Int.ofNat.inj (hd.symm.trans hd')
      have hpath : path.dropLast ++ [node.symbol] = path := by
        obtain ⟨front, hl⟩ := List.getLast?_eq_some_iff.mp (hp.getLast? hn)
        simp only at hl ⊢
        rw [hl]
        simp
      rw [hpath, ← hdn]
      exact List.mem_cons_self

end RSFuzz
