import RSFuzz.PruningPrecision

set_option autoImplicit false

/-!
# Trees that can be generated

The random phase lays a derivation tree out level by level. Whatever tree is
given, the draws can be chosen such that the generator lays out this one, unless
the tree comes so close to a rule that pruning takes one of its numbers away.
-/
namespace RSFuzz
open OrderedMap OptionFold Subsequence TableState Tiling WeightedDraw

namespace DTree

def children : DTree → List DTree
  | leaf _ => []
  | node _ _ children => children

def level (t : DTree) : ℕ → List DTree
  | 0 => [t]
  | d + 1 => (t.level d).flatMap children

theorem height_lt_of_mem_children {t c : DTree} (h : c ∈ t.children) : c.height < t.height := by
  cases t with
  | leaf s => cases h
  | node s d cs =>
    have hle := heightForest_le_iff.mp (Nat.le_refl (heightForest cs)) c h
    rw [height]
    omega

theorem add_height_le {t u : DTree} {d : ℕ} (h : u ∈ t.level d) : d + u.height ≤ t.height := by
  induction d generalizing u with
  | zero =>
    obtain rfl := List.mem_singleton.mp h
    omega
  | succ d ih =>
    obtain ⟨up, hup, hu⟩ := List.mem_flatMap.mp h
    have hle := ih hup
    have hlt := height_lt_of_mem_children hu
    omega

end DTree

theorem Derives.of_mem_children {G : Grammar} {t c : DTree} (h : Derives G t)
    (hc : c ∈ t.children) : Derives G c := by
  cases h with
  | leaf _ => cases hc
  | node _ _ _ hall => exact hall c hc

theorem Derives.of_mem_level {G : Grammar} {t u : DTree} (h : Derives G t) {d : ℕ}
    (hu : u ∈ t.level d) : Derives G u := by
  induction d generalizing u with
  | zero => rwa [List.mem_singleton.mp hu]
  | succ d ih =>
    obtain ⟨up, hup, hc⟩ := List.mem_flatMap.mp hu
    exact (ih hup).of_mem_children hc

/-- The node stands for the subtree: not expanded yet, or with its children from `a` on. -/
def Fits (a : ℕ) (node : Node) : DTree → Prop
  | .leaf s => node.symbol = s ∧ node.children = .leaf
  | .node s d children => node.symbol = s ∧ (node.children = .unexpanded ∨
      node.children = .range a (a + children.length) ∧ node.dn = (d : ℤ))

theorem Fits.symbol {a : ℕ} {node : Node} {t : DTree} (h : Fits a node t) :
    node.symbol = t.symbol := by
  cases t <;> exact h.1

theorem Fits.of_range {a x y : ℕ} {node : Node} {t : DTree} (h : Fits a node t)
    (hr : node.children = .range x y) : ∃ d children, t = .node node.symbol d children ∧ x = a ∧
      y = a + children.length ∧ node.dn = (d : ℤ) := by
  cases t with
  | leaf s =>
    rw [h.2] at hr
    cases hr
  | node s d cs =>
    obtain ⟨rfl, hu | ⟨hc, hdn⟩⟩ := h
    · rw [hu] at hr
      cases hr
    · rw [hc] at hr
      obtain ⟨rfl, rfl⟩ := Children.range.inj hr
      exact ⟨d, cs, rfl, rfl, rfl, hdn⟩

/-- The entries of a level stand for the subtrees of one level of `t`, in order. -/
def LevelFits (t : DTree) (d : ℕ) (nodes : List Node) : Prop :=
  ∀ (i : ℕ) (node : Node), nodes[i]? = some node →
    ∃ u, (t.level d)[i]? = some u ∧ Fits (offset DTree.children (t.level d) i) node u

def Follows (t : DTree) (tree : Tree) : Prop :=
  ∀ (d : ℕ) (nodes : List Node), tree[d]? = some nodes → LevelFits t d nodes

section Follow

variable {G : Grammar} {start : Sym} {t : DTree} {tree : Tree}

theorem Follows.fits (h : Follows t tree) {d i : ℕ} {node : Node}
    (hn : tree.node? (d, i) = some node) :
    ∃ u, (t.level d)[i]? = some u ∧ Fits (offset DTree.children (t.level d) i) node u := by
  obtain ⟨nodes, hnodes, hi⟩ := Tree.node?_eq_some.mp hn
  exact h d nodes hnodes i node hi

theorem getElem?_level_succ {d i k : ℕ} {u c : DTree} (hu : (t.level d)[i]? = some u)
    (hc : u.children[k]? = some c) :
    (t.level (d + 1))[offset DTree.children (t.level d) i + k]? = some c :=
  getElem?_flatMap_offset DTree.children hu hc

theorem Follows.below (hw : WellFormed G start tree) (h : Follows t tree) {pos : ℕ × ℕ}
    {path : List Sym} (hp : tree.RootPath pos path) :
    ∃ u, (t.level pos.1)[pos.2]? = some u ∧ t.Below path u := by
  induction hp with
  | @root i node hn _ =>
    obtain ⟨u, hu, hfit⟩ := h.fits hn
    obtain ⟨rfl, -⟩ := hw.first_level hn
    obtain rfl : t = u := Option.some.inj hu
    refine ⟨t, hu, ?_⟩
    rw [hfit.symbol]
    exact .root
  | @child d i c path node above hn hpar ih =>
    obtain ⟨up, hup, hbelow⟩ := ih
    obtain ⟨upNode, a, b, hupn, hr, hac, hcb⟩ := hw.parent_range hn hpar
    obtain ⟨up', hup', hfit⟩ := h.fits hupn
    obtain rfl := Option.some.inj (hup.symm.trans hup')
    obtain ⟨dn, children, rfl, rfl, rfl, -⟩ := hfit.of_range hr
    obtain ⟨u, hu, hfitu⟩ := h.fits hn
    have hlt : c - offset DTree.children (t.level d) i < children.length := by omega
    have hchild := getElem?_level_succ hup (List.getElem?_eq_getElem hlt)
    rw [Nat.add_sub_cancel' hac, hu] at hchild
    obtain rfl := Option.some.inj hchild
    refine ⟨_, hu, ?_⟩
    rw [hfitu.symbol]
    exact .child hbelow (List.getElem_mem hlt)

theorem Follows.expanded_subset (hw : WellFormed G start tree) (h : Follows t tree) {tree' : Tree}
    (hback : tree'.Extends tree) (h' : Follows t tree') : tree'.expanded ⊆ t.expanded := by
  rintro ⟨path, dn⟩ ⟨pos, node, a, b, hn, hr, hdn, hp⟩
  obtain ⟨u, hu, hbelow⟩ := h.below hw (hp.extend hback)
  obtain ⟨u', hu', hfit⟩ := h'.fits hn
  obtain rfl := Option.some.inj (hu.symm.trans hu')
  obtain ⟨d, children, rfl, -, -, hd⟩ := hfit.of_range hr
  obtain rfl : dn = d := Int.ofNat.inj (hdn.symm.trans hd)
  exact DTree.mem_expanded_iff.mpr ⟨_, children, hbelow⟩

theorem Follows.derivation (hw : WellFormed G start tree) (hclosed : tree.Closed)
    (h : Follows t tree) (n : ℕ) {d i : ℕ} {node : Node} {u : DTree} (hheight : u.height = n)
    (hn : tree.node? (d, i) = some node) (hu : (t.level d)[i]? = some u) :
    tree.Derivation (d, i) u := by
  induction n using Nat.strongRecOn generalizing d i node u with
  | ind n ih =>
    obtain ⟨u', hu', hfit⟩ := h.fits hn
    obtain rfl := Option.some.inj (hu.symm.trans hu')
    cases u with
    | leaf s =>
      obtain ⟨rfl, hc⟩ := hfit
      exact .leaf hn hc
    | node s dn children =>
      obtain ⟨rfl, hc | ⟨hc, hdn⟩⟩ := hfit
      · exact absurd hc (hclosed _ _ hn)
      · refine .node hn hc hdn (by omega) fun k c hk => ?_
        have hlt := (List.getElem?_eq_some_iff.mp hk).1
        obtain ⟨child, hcn, -⟩ := hw.exists_child hn hc (Nat.le_add_right _ k) (by omega)
        have hless := DTree.height_lt_of_mem_children (t := .node node.symbol dn children)
          (List.mem_of_getElem? hk)
        exact ih c.height (hheight ▸ hless) rfl hcn (getElem?_level_succ hu hk)

end Follow

/-- Nowhere is a rule missing one fitting sequence at most, while a number stored with it for the
    symbol is taken. -/
def Spared (rules : List Rule) (E : Set (List Sym × ℕ)) : Prop :=
  ∀ rule ∈ rules, ∀ s ∈ rule, (∀ u ∈ rule, u ≠ s → Realises E u) →
    ∀ s' ∈ rule, s'.lastSymbol = s.lastSymbol → ∀ e ∈ E, e.2 = s'.dn → ¬ EndsIn s.symbols e.1

/-- Where a rule has one number for each symbol, these are the trees that realise no rule. -/
theorem spared_iff {rules : List Rule} {E : Set (List Sym × ℕ)} (hne : ∀ rule ∈ rules, rule ≠ [])
    (hone : ∀ rule ∈ rules, ∀ s ∈ rule, ∀ s' ∈ rule, s'.lastSymbol = s.lastSymbol → s'.dn = s.dn) :
    Spared rules E ↔ ∀ rule ∈ rules, ¬ ∀ s ∈ rule, Realises E s := by
  constructor
  · intro h rule hr hall
    obtain ⟨s, hs⟩ := List.exists_mem_of_ne_nil rule (hne rule hr)
    obtain ⟨e, he, hd, hend⟩ := hall s hs
    exact h rule hr s hs (fun u hu _ => hall u hu) s hs rfl e he hd hend
  · intro h rule hr s hs hrest s' hs' hlast e he hd hend
    refine h rule hr fun u hu => ?_
    by_cases hus : u = s
    · subst hus
      exact ⟨e, he, hd.trans (hone rule hr u hu s' hs' hlast), hend⟩
    · exact hrest u hu hus

theorem Spared.not_pruned {rules : List Rule} {E : Set (List Sym × ℕ)} (h : Spared rules E)
    {tree : Tree} (hsub : tree.expanded ⊆ E) {pos : ℕ × ℕ} {path : List Sym} {symbol : Sym}
    {seen : Finset ℕ} (hp : tree.RootPath pos path) (hlen : tree.length = pos.1 + 1)
    (hsym : path.getLast? = some symbol) (hseen : SeenExact (buildTables rules) tree seen)
    {pruned : List ℕ}
    (hrun : pruneChildren (buildTables rules) symbol tree pos seen = some pruned) {d : ℕ}
    (hat : (path, d) ∈ E) : d ∉ pruned := by
  intro hd
  obtain ⟨reg, henc⟩ := foldl_addRule_encodes rules
  obtain ⟨rule, hr, s, honly, hfit, s', hs', hend, hdn⟩ :=
    (mem_pruned_iff henc hp hlen hseen hrun d).mp hd
  have hlast : s.lastSymbol = symbol := by
    have := hfit.2
    rw [s.getLast?_symbols, hsym] at this
    exact Option.some.inj this
  exact h rule hr s honly.1 (fun u hu hne => (honly.2.2 u hu hne).mono hsub) s' hs'
    (hend.trans hlast.symm) (path, d) hat hdn.symm hfit

/-- The alternatives whose probability is noticeable beside the sum of their rule. -/
def Grammar.likely (G : Grammar) : Grammar :=
  G.mapValues fun alts => alts.filter fun a => Noticeable (total (alts.map Alternative.prob)) a.prob

theorem Grammar.keys_likely (G : Grammar) : G.likely.keys = G.keys := Map.keys_mapValues _ G

theorem Grammar.mem_alternatives_likely {G : Grammar} {s : Sym} {a : Alternative} :
    a ∈ G.likely.alternatives s ↔
      a ∈ G.alternatives s ∧ Noticeable (total (G.weights s)) a.prob := by
  rw [likely, weights, alternatives, alternatives, Map.get?_mapValues]
  cases G.get? s with
  | none => simp
  | some alts => simp

namespace InputGenerator

variable {g : InputGenerator}

theorem exists_selectRandomly {tree : Tree} {i : ℕ} {symbol : Sym} {seen : Finset ℕ}
    {toPrune : List ℕ} {alt : Alternative} (hsum : g.grammar.Summable)
    (hprune : pruneChildren g.tables symbol tree (tree.length - 1, i) seen = some toPrune)
    (halt : alt ∈ g.grammar.likely.alternatives symbol) (hkept : alt.derivNum ∉ toPrune) :
    ∃ r sel, sel.derivNum = alt.derivNum ∧
      sel.nodes = g.children (tree.length - 1) i alt.expansion ∧
      ∀ rnd : Choices, rnd.expansion (tree.length - 1) i = r →
        g.selectRandomly rnd tree i symbol seen = some sel := by
  obtain ⟨halt, hlikely⟩ := Grammar.mem_alternatives_likely.mp halt
  have halts := Grammar.get?_of_mem_keys (Grammar.mem_keys_of_mem_alternatives halt)
  obtain ⟨j, hj⟩ := List.mem_iff_getElem?.mp halt
  have hweights := hsum symbol
  rw [Grammar.weights] at hlikely hweights
  generalize g.grammar.alternatives symbol = alts at halts hj hlikely hweights
  have hin : j ∈ indicesWhere (alts.map Alternative.derivNum) fun dn => dn ∉ toPrune :=
    mem_indicesWhere_map.mpr ⟨alt, hj, by simpa using hkept⟩
  have hpool : j ∈ drawPool (alts.map Alternative.derivNum) toPrune := by
    rwa [drawPool, if_neg (List.ne_nil_of_mem hin)]
  have hweight : (alts.map Alternative.prob).getD j 0 = alt.prob := by simp [List.getD, hj]
  obtain ⟨r, hr⟩ := exists_draw_of_noticeable hweights
    (by simpa using drawPool_sublist (alts.map Alternative.derivNum) toPrune) hpool
    (hweight ▸ hlikely)
  refine ⟨r, ⟨indicesWhere (alts.map Alternative.derivNum) fun dn => dn ∉ toPrune,
    g.children (tree.length - 1) i alt.expansion, alt.derivNum, none⟩, rfl, rfl, fun rnd hrnd => ?_⟩
  have hn : (alts.map fun a => g.children (tree.length - 1) i a.expansion)[j]? =
      some (g.children (tree.length - 1) i alt.expansion) := by simp [hj]
  have hd : (alts.map Alternative.derivNum)[j]? = some alt.derivNum := by simp [hj]
  rw [selectRandomly_eq halts hprune, hrnd, hr, Option.bind_some, hn, Option.bind_some, hd,
    Option.bind_some]

end InputGenerator

/-- The loop over the last level while it lays out `t`: the nodes of the next level so far stand for
    the subtrees below those visited. -/
structure LaysOut (t : DTree) (upper : Tree) (ls : LevelState) (rest : List Node) : Prop where
  follows : Follows t (upper ++ [ls.visited ++ rest])
  next : LevelFits t (upper.length + 1) ls.next
  next_length : ls.next.length =
    offset DTree.children (t.level upper.length) ls.visited.length

section Layout

variable {g : InputGenerator} {rules : List Rule} {t : DTree} {upper : Tree}
  {last rest : List Node} {ls : LevelState} {node : Node}

theorem Follows.congr_last {level level' : List Node} (h : Follows t (upper ++ [level]))
    (hlevel : LevelFits t upper.length level') : Follows t (upper ++ [level']) := by
  intro d nodes hd
  rcases (getElem?_concat_iff _ _ _ _).mp hd with hd | ⟨rfl, rfl⟩
  · exact h d nodes ((getElem?_concat_iff _ _ _ _).mpr (Or.inl hd))
  · exact hlevel

theorem LaysOut.current (h : LaysOut t upper ls (node :: rest)) :
    ∃ u, (t.level upper.length)[ls.visited.length]? = some u ∧
      Fits (offset DTree.children (t.level upper.length) ls.visited.length) node u :=
  h.follows.fits (by rw [Tree.node?_last]; simp)

theorem LaysOut.levelFits (h : LaysOut t upper ls (node :: rest)) {node' : Node} {u : DTree}
    (hu : (t.level upper.length)[ls.visited.length]? = some u)
    (hfit : Fits (offset DTree.children (t.level upper.length) ls.visited.length) node' u) :
    LevelFits t upper.length (ls.visited ++ node' :: rest) := by
  intro i n hi
  by_cases hlt : i = ls.visited.length
  · subst hlt
    obtain rfl : node' = n := by simpa using hi
    exact ⟨u, hu, hfit⟩
  · have hsame : (ls.visited ++ node :: rest)[i]? = some n := by
      rcases Nat.lt_or_gt_of_ne hlt with hlt | hgt
      · rwa [List.getElem?_append_left hlt] at hi ⊢
      · obtain ⟨k, rfl⟩ : ∃ k, i = ls.visited.length + (k + 1) :=
          ⟨i - ls.visited.length - 1, by omega⟩
        rw [List.getElem?_append_right (Nat.le_add_right _ _), Nat.add_sub_cancel_left] at hi ⊢
        exact hi
    exact h.follows upper.length _ (by simp) i n hsame

theorem offset_succ {ts : List DTree} {i : ℕ} {u : DTree} (hu : ts[i]? = some u) :
    offset DTree.children ts (i + 1) = offset DTree.children ts i + u.children.length := by
  rw [offset, offset, List.take_add_one, hu]
  simp

theorem LaysOut.leaf (h : LaysOut t upper ls (node :: rest)) (hc : node.children = .leaf) :
    LaysOut t upper { ls with visited := ls.visited ++ [node] } rest := by
  obtain ⟨u, hu, hfit⟩ := h.current
  have hnone : u.children = [] := by
    cases u with
    | leaf s => rfl
    | node s d cs =>
      obtain ⟨-, hu | ⟨hr, -⟩⟩ := hfit
      · rw [hc] at hu
        cases hu
      · rw [hc] at hr
        cases hr
  refine ⟨by simpa using h.follows, h.next, ?_⟩
  simp only [List.length_append, List.length_singleton]
  rw [offset_succ hu, hnone, h.next_length]
  rfl

theorem fits_of_fresh {n : Node} {c : DTree} (hc : Derives g.grammar c) (hsym : n.symbol = c.symbol)
    (hfresh : n.symbol ∈ g.grammar.keys ∧ n.children = .unexpanded ∧ n.dn = -1 ∨
      n.symbol ∉ g.grammar.keys ∧ n.children = .leaf ∧ (n.dn = -1 ∨ n.dn = -2)) (a : ℕ) :
    Fits a n c := by
  cases hc with
  | leaf hs =>
    obtain rfl : n.symbol = _ := hsym
    rcases hfresh with ⟨hk, -, -⟩ | ⟨-, hl, -⟩
    · exact absurd hk hs
    · exact ⟨rfl, hl⟩
  | node ha _ _ _ =>
    obtain rfl : n.symbol = _ := hsym
    rcases hfresh with ⟨-, hu, -⟩ | ⟨hk, -, -⟩
    · exact ⟨rfl, Or.inl hu⟩
    · exact absurd (Grammar.mem_keys_of_mem_alternatives ha) hk

theorem LaysOut.expand (h : LaysOut t upper ls (node :: rest)) {s : Sym} {d : ℕ}
    {children : List DTree} (hu : (t.level upper.length)[ls.visited.length]? =
      some (.node s d children)) (hchildren : ∀ c ∈ children, Derives g.grammar c)
    (hsym : node.symbol = s) {sel : Selection} (hdn : sel.derivNum = d)
    (hnodes : sel.nodes = g.children upper.length ls.visited.length (children.map DTree.symbol))
    (seen : Finset ℕ) (slot : Option ℕ) (trace : List Expansion) :
    LaysOut t upper ⟨ls.visited ++ [node.expand ls.next.length sel], ls.next ++ sel.nodes, seen,
      slot, trace⟩ rest := by
  have hsymbols : sel.nodes.map Node.symbol = children.map DTree.symbol := by
    rw [hnodes, g.children_symbols]
  have hlen : sel.nodes.length = children.length := by
    simpa using congrArg List.length hsymbols
  refine ⟨?_, ?_, ?_⟩
  · simp only [List.append_assoc, List.singleton_append]
    refine h.follows.congr_last (h.levelFits hu ⟨hsym, Or.inr ⟨?_, ?_⟩⟩)
    · rw [Node.expand, hlen, h.next_length]
    · rw [Node.expand, hdn]
  · intro i n hn
    rcases Nat.lt_or_ge i ls.next.length with hlt | hge
    · rw [List.getElem?_append_left hlt] at hn
      exact h.next i n hn
    · obtain ⟨k, rfl⟩ := Nat.exists_eq_add_of_le hge
      rw [List.getElem?_append_right hge, Nat.add_sub_cancel_left] at hn
      have hk : k < children.length := hlen ▸ (List.getElem?_eq_some_iff.mp hn).1
      have hc := List.getElem?_eq_getElem hk
      refine ⟨children[k], ?_, ?_⟩
      · rw [h.next_length]
        exact getElem?_level_succ hu hc
      · have hsame : n.symbol = children[k].symbol := by
          have := congrArg (fun xs => xs[k]?) hsymbols
          simpa [hn, hc] using this
        have hmem := List.mem_of_getElem? hn
        rw [hnodes] at hmem
        exact fits_of_fresh (hchildren _ (List.getElem_mem hk)) hsame (g.mem_children _ _ _ hmem).2.2 _
  · simp only [List.length_append, List.length_singleton]
    rw [offset_succ hu, hlen, h.next_length]
    rfl

structure Target (g : InputGenerator) (rules : List Rule) (t : DTree) : Prop where
  summable : g.grammar.Summable
  tables : g.tables = buildTables rules
  derives : Derives g.grammar.likely t
  spared : Spared rules t.expanded

theorem Derives.of_likely {G : Grammar} {u : DTree} (h : Derives G.likely u) : Derives G u := by
  induction h with
  | leaf hs => exact .leaf (G.keys_likely ▸ hs)
  | node ha hd hc _ ih =>
    exact .node (Grammar.mem_alternatives_likely.mp ha).1 hd hc ih

theorem exists_expandNode (ht : Target g rules t)
    (hw : WellFormed g.grammar g.config.startRule (upper ++ [last]))
    (hfollows : Follows t (upper ++ [last])) (hinv : LevelInvariant g upper last ls (node :: rest))
    (h : LaysOut t upper ls (node :: rest)) :
    ∃ r ls₁, LaysOut t upper ls₁ rest ∧ ls₁.visited.length = ls.visited.length + 1 ∧
      ∀ rnd : Choices, rnd.expansion upper.length ls.visited.length = r →
        expandNode g.tables (g.selectRandomly rnd) upper rest ls node = some ls₁ := by
  obtain ⟨hlast, path, hpath, hsym⟩ := hinv.current hw
  obtain ⟨u, hu, hfit⟩ := h.current
  cases hc : node.children with
  | range a b => exact absurd hc (hw.last last (by simp) node (List.mem_of_getElem? hlast) a b)
  | leaf =>
    have hsame : ({ node with children := .leaf } : Node) = node := by rw [← hc]
    refine ⟨0, _, h.leaf hc, by simp, fun rnd _ => ?_⟩
    simp only [expandNode, hc, hsame]
  | unexpanded =>
    obtain ⟨s, d, children, rfl⟩ : ∃ s d children, u = .node s d children := by
      cases u with
      | leaf s =>
        rw [hfit.2] at hc
        cases hc
      | node s d children => exact ⟨s, d, children, rfl⟩
    obtain ⟨rfl, -⟩ := hfit
    have hback : Tree.Extends (upper ++ [ls.visited ++ node :: rest]) (upper ++ [last]) :=
      Tree.extends_of_outline upper hinv.outline.symm
    obtain ⟨u', hu', hbelow⟩ := hfollows.below hw (hpath.extend hback)
    obtain rfl := Option.some.inj (hu.symm.trans hu')
    have hat : (path, d) ∈ t.expanded := DTree.mem_expanded_iff.mpr ⟨_, children, hbelow⟩
    have hdepth : (upper ++ [ls.visited ++ node :: rest]).length - 1 = upper.length := by simp
    have hpos : (upper ++ [ls.visited ++ node :: rest]).RootPath
        ((upper ++ [ls.visited ++ node :: rest]).length - 1, ls.visited.length) path := by
      rwa [hdepth]
    obtain ⟨pruned, hpruned⟩ := g.exists_pruned (List.concat_ne_nil _ _) hpos node.symbol ls.seen
    have hkept : d ∉ pruned := by
      have hseen := hinv.seenExact
      rw [hdepth, ht.tables] at hpruned
      rw [ht.tables] at hseen
      exact ht.spared.not_pruned (hfollows.expanded_subset hw hback h.follows) hpath (by simp) hsym
        hseen hpruned hat
    have hderives := ht.derives.of_mem_level (List.mem_of_getElem? hu)
    obtain ⟨alt, halt, rfl, hspell, hall⟩ : ∃ alt ∈ g.grammar.likely.alternatives node.symbol,
        alt.derivNum = d ∧ children.map DTree.symbol = alt.expansion ∧
          ∀ c ∈ children, Derives g.grammar.likely c := by
      cases hderives with
      | node ha hd hs hall => exact ⟨_, ha, hd, hs, hall⟩
    obtain ⟨r, sel, hdn, hnodes, hselect⟩ := g.exists_selectRandomly ht.summable hpruned halt hkept
    rw [hdepth] at hnodes hselect
    have hfwd := Tree.extends_of_outline upper (show (ls.visited ++
      node.expand ls.next.length sel :: rest).map Node.outline =
        (ls.visited ++ node :: rest).map Node.outline by simp [Node.outline, Node.expand])
    obtain ⟨seen', hrec, -⟩ := record_spec (t := g.tables) (hpath.extend hfwd) (by simp) hsym
      sel.derivNum ls.seen
    refine ⟨r, _, h.expand hu (fun c hc => (hall c hc).of_likely) rfl hdn (hspell ▸ hnodes) seen' ?slot
      (ls.trace ++ [⟨upper ++ [ls.visited ++ node :: rest], (upper.length, ls.visited.length),
        node.symbol, ls.seen, sel.candidates, sel.derivNum⟩]), by simp, fun rnd hrnd => ?step⟩
    case step =>
      simp only [expandNode, hc, hselect rnd hrnd, hrec, Option.bind_eq_bind, Option.bind_some,
        Option.pure_def]
      rfl

theorem exists_expandNodes (ht : Target g rules t)
    (hw : WellFormed g.grammar g.config.startRule (upper ++ [last]))
    (hfollows : Follows t (upper ++ [last])) (hinv : LevelInvariant g upper last ls rest)
    (h : LaysOut t upper ls rest) :
    ∃ (f : ℕ → ℕ) (ls' : LevelState), LaysOut t upper ls' [] ∧
      ∀ rnd : Choices, (∀ i, ls.visited.length ≤ i → rnd.expansion upper.length i = f i) →
        expandNodes g.tables (g.selectRandomly rnd) upper rest ls = some ls' := by
  induction rest generalizing ls with
  | nil => exact ⟨fun _ => 0, ls, h, fun _ _ => rfl⟩
  | cons node rest ih =>
    obtain ⟨r, ls₁, h₁, hlen, hrun⟩ := exists_expandNode ht hw hfollows hinv h
    have hinv₁ := (expandNode_invariant (InputGenerator.Plain.selectsAlternative (.randomly _)) hw hinv
      (hrun ⟨fun _ _ => r, fun _ => 0⟩ rfl)).1
    obtain ⟨f, ls', h', hrest⟩ := ih hinv₁ h₁
    refine ⟨Function.update f ls.visited.length r, ls', h', fun rnd hrnd => ?_⟩
    have hfirst := hrun rnd (by rw [hrnd _ le_rfl, Function.update_self])
    rw [expandNodes, hfirst, Option.bind_some]
    refine hrest rnd fun i hi => ?_
    rw [hrnd i (by omega), Function.update_of_ne (by omega)]

theorem exists_expandLevel (ht : Target g rules t) {st : GenState} (hinv : RunInvariant g st)
    (hfollows : Follows t st.tree) :
    ∃ (f : ℕ → ℕ) (st' : GenState), RunInvariant g st' ∧ Follows t st'.tree ∧
      st'.tree.length = st.tree.length + 1 ∧
      ∀ rnd : Choices, rnd.expansion (st.tree.length - 1) = f →
        g.expandNodeRandomly rnd st = some st' := by
  obtain ⟨upper, last, htree, hdrop, hlast⟩ := hinv.wellFormed.split_last
  have hw := hinv.wellFormed
  have hseen := hinv.seenExact
  have hf := hfollows
  rw [htree] at hw hseen hf
  have h₀ : LaysOut t upper ⟨[], [], st.seen, none, st.trace⟩ last :=
    ⟨hf, fun i n hn => by simp at hn, rfl⟩
  obtain ⟨f, ls, hlays, hrun⟩ := exists_expandNodes ht hw hf (.initial hseen none st.trace) h₀
  have hlevel : ∀ rnd : Choices, rnd.expansion (st.tree.length - 1) = f →
      expandLevel g.tables (g.selectRandomly rnd) st =
        some (⟨upper ++ [ls.visited, ls.next], ls.seen, ls.trace⟩, ls.slot) := by
    intro rnd hrnd
    rw [htree, List.length_append, List.length_singleton, Nat.add_sub_cancel] at hrnd
    simp only [expandLevel, hlast, hdrop, hrun rnd (fun i _ => congrFun hrnd i), Option.bind_eq_bind,
      Option.bind_some, Option.pure_def]
  obtain ⟨hinv', -, hlen, -⟩ := expandLevel_invariant
    (InputGenerator.Plain.selectsAlternative (.randomly ⟨fun _ => f, fun _ => 0⟩)) (fun _ _ => True)
    (fun _ _ _ _ _ _ _ => trivial) hinv trivial (hlevel ⟨fun _ => f, fun _ => 0⟩ rfl)
  refine ⟨f, _, hinv', ?_, hlen, fun rnd hrnd => by
    rw [InputGenerator.expandNodeRandomly, hlevel rnd hrnd, Option.map_some]⟩
  have hvisited := hlays.follows
  rw [List.append_nil] at hvisited
  intro d nodes hd
  rw [show upper ++ [ls.visited, ls.next] = upper ++ [ls.visited] ++ [ls.next] by simp] at hd
  rcases (getElem?_concat_iff _ _ _ _).mp hd with hd | ⟨hnext, rfl⟩
  · exact hvisited d nodes hd
  · obtain rfl : d = upper.length + 1 := by simpa using hnext
    exact hlays.next

end Layout

section Run

variable {g : InputGenerator} {rules : List Rule} {t : DTree}

theorem lastLevel_getElem? {st : GenState} {node : Node} (h : node ∈ InputGenerator.lastLevel st) :
    ∃ i, st.tree.node? (st.tree.length - 1, i) = some node := by
  obtain ⟨i, hi⟩ := List.mem_iff_getElem?.mp h
  rw [InputGenerator.lastLevel, List.getLast?_eq_getElem?] at hi
  cases hl : st.tree[st.tree.length - 1]? with
  | none =>
    rw [hl] at hi
    simp at hi
  | some nodes =>
    rw [hl] at hi
    exact ⟨i, Tree.node?_eq_some.mpr ⟨nodes, hl, hi⟩⟩

theorem Follows.lt_height {st : GenState} (h : Follows t st.tree)
    (hany : InputGenerator.anyPossibleExpansions (InputGenerator.lastLevel st) = true) :
    st.tree.length - 1 < t.height := by
  obtain ⟨node, hmem, hc⟩ := List.any_eq_true.mp hany
  obtain ⟨i, hn⟩ := lastLevel_getElem? hmem
  obtain ⟨u, hu, hfit⟩ := h.fits hn
  have hle := DTree.add_height_le (List.mem_of_getElem? hu)
  cases u with
  | leaf s =>
    rw [hfit.2] at hc
    simp at hc
  | node s d children =>
    rw [DTree.height] at hle
    omega

/-- The random phase lays `t` out. Induction on the levels that are left. -/
theorem exists_randomPhase (ht : Target g rules t) (hmax : t.height ≤ g.config.maxDepths) (n : ℕ)
    {st : GenState} {d : ℕ} (hn : t.height - d = n) (hlen : st.tree.length = d + 1)
    (hinv : RunInvariant g st) (hfollows : Follows t st.tree) :
    ∃ (f : ℕ → ℕ → ℕ) (fuel d' : ℕ) (st' : GenState), RunInvariant g st' ∧ Follows t st'.tree ∧
      InputGenerator.anyPossibleExpansions (InputGenerator.lastLevel st') = false ∧
      ∀ rnd : Choices, (∀ e, d ≤ e → rnd.expansion e = f e) →
        WhileLoop.run
          (fun s : GenState × ℕ => g.expandCheck (InputGenerator.lastLevel s.1) s.2)
          (fun s => (g.expandNodeRandomly rnd s.1).map fun st => (st, s.2 + 1)) fuel (st, d) =
            some (st', d') := by
  induction n generalizing st d with
  | zero =>
    have hnone : InputGenerator.anyPossibleExpansions (InputGenerator.lastLevel st) = false := by
      rw [← Bool.not_eq_true]
      intro hany
      have := hfollows.lt_height hany
      omega
    refine ⟨fun _ _ => 0, 0, d, st, hinv, hfollows, hnone, fun rnd _ => WhileLoop.run_of_not _ ?_⟩
    simp only [InputGenerator.expandCheck, hnone, ite_self]
  | succ n ih =>
    by_cases hany : InputGenerator.anyPossibleExpansions (InputGenerator.lastLevel st) = true
    · have hlt := hfollows.lt_height hany
      obtain ⟨f₀, st₁, hinv₁, hfollows₁, hlen₁, hstep⟩ := exists_expandLevel ht hinv hfollows
      obtain ⟨f, fuel, d', st', hinv', hfollows', hnone, hrun⟩ :=
        ih (d := d + 1) (by omega) (by omega) hinv₁ hfollows₁
      refine ⟨Function.update f d f₀, fuel + 1, d', st', hinv', hfollows', hnone, fun rnd hrnd => ?_⟩
      have hcheck : g.expandCheck (InputGenerator.lastLevel st) d = true := by
        rw [InputGenerator.expandCheck, if_neg (by omega)]
        exact hany
      have hfirst := hstep rnd (by
        rw [hlen, Nat.add_sub_cancel, hrnd d le_rfl, Function.update_self])
      refine Eq.trans (WhileLoop.run_succ_of fuel hcheck) ?_
      rw [hfirst, Option.map_some, Option.bind_some]
      refine hrun rnd fun e he => ?_
      rw [hrnd e (by omega), Function.update_of_ne (by omega)]
    · have hnone := Bool.not_eq_true _ |>.mp hany
      refine ⟨fun _ _ => 0, 0, d, st, hinv, hfollows, hnone, fun rnd _ => WhileLoop.run_of_not _ ?_⟩
      simp only [InputGenerator.expandCheck, hnone, ite_self]

theorem Follows.initial (hsym : t.symbol = g.config.startRule) (hkey : t.symbol ∈ g.grammar.keys)
    (ht : Derives g.grammar t) : Follows t g.initial.tree := by
  intro d nodes hd i node hi
  obtain ⟨rfl, rfl⟩ : d = 0 ∧ nodes = [⟨g.config.startRule, .unexpanded, -1, none⟩] := by
    cases d with
    | zero => exact ⟨rfl, (Option.some.inj hd).symm⟩
    | succ d => simp [InputGenerator.initial] at hd
  obtain ⟨rfl, rfl⟩ : i = 0 ∧ node = ⟨g.config.startRule, .unexpanded, -1, none⟩ := by
    cases i with
    | zero => exact ⟨rfl, (Option.some.inj hi).symm⟩
    | succ i => simp at hi
  exact ⟨t, rfl, fits_of_fresh ht hsym.symm (Or.inl ⟨hsym ▸ hkey, rfl, rfl⟩) _⟩

theorem Target.exists_run (ht : Target g rules t)
    (hstart : g.grammar.keys.head? = some g.config.startRule)
    (hsym : t.symbol = g.config.startRule) (hmax : t.height ≤ g.config.maxDepths) :
    ∃ rnd fuel st, g.generateTree rnd fuel = some st ∧ st.tree.Derivation (0, 0) t := by
  have hkey : g.config.startRule ∈ g.grammar.keys := List.mem_of_mem_head? hstart
  have hinit := Follows.initial hsym (hsym ▸ hkey) ht.derives.of_likely
  obtain ⟨f, fuel, d, st, hinv, hfollows, hnone, hrun⟩ :=
    exists_randomPhase ht hmax _ (d := 0) rfl rfl (initial_runInvariant hkey) hinit
  refine ⟨⟨f, fun _ => 0⟩, fuel, st, ?_, ?_⟩
  · have hsecond : WhileLoop.run
        (fun s : GenState × ℕ => InputGenerator.anyPossibleExpansions (InputGenerator.lastLevel s.1))
        (fun s => (g.expandMinimumNode ⟨f, fun _ => 0⟩ s.1).map fun st => (st, s.2 + 1)) fuel (st, d) =
          some (st, d) := WhileLoop.run_of_not fuel hnone
    exact Option.bind_eq_some_iff.mpr ⟨(st, d), hrun _ fun _ _ => rfl,
      Option.bind_eq_some_iff.mpr ⟨(st, d), hsecond, rfl⟩⟩
  · obtain ⟨node, hn, -⟩ := hinv.wellFormed.exists_root
    exact hfollows.derivation hinv.wellFormed (hinv.wellFormed.closed hnone) _ rfl hn rfl

/-- Every derivation tree that is no higher than the random phase is deep and uses likely
    alternatives only is generated for some draws if pruning spares it; where a rule has one number
    for each symbol, if it realises no rule. -/
theorem generation_complete (g : InputGenerator) (rules : List Rule)
    (hg : g.tables = buildTables rules) (hsum : g.grammar.Summable)
    (hstart : g.grammar.keys.head? = some g.config.startRule) (t : DTree)
    (ht : Derives g.grammar.likely t) (hsym : t.symbol = g.config.startRule)
    (hmax : t.height ≤ g.config.maxDepths) :
    (Spared rules t.expanded →
      ∃ rnd fuel st, g.generateTree rnd fuel = some st ∧ st.tree.Derivation (0, 0) t) ∧
    ((∀ rule ∈ rules, rule ≠ [] ∧ ∀ s ∈ rule, ∀ s' ∈ rule, s'.lastSymbol = s.lastSymbol →
        s'.dn = s.dn) →
      (∀ rule ∈ rules, ¬ ∀ s ∈ rule, Realises t.expanded s) →
      ∃ rnd fuel st, g.generateTree rnd fuel = some st ∧ st.tree.Derivation (0, 0) t) := by
  refine ⟨fun hspared => Target.exists_run ⟨hsum, hg, ht, hspared⟩ hstart hsym hmax,
    fun hrules havoid => ?_⟩
  have hspared : Spared rules t.expanded := (spared_iff (fun rule hr => (hrules rule hr).1)
    fun rule hr => (hrules rule hr).2).mpr havoid
  exact Target.exists_run ⟨hsum, hg, ht, hspared⟩ hstart hsym hmax

end Run

def onlyRight : DTree :=
  .node "start" 1 [.node "right" 0 [.node "value" 1 [.leaf "'y'"]]]

theorem onlyRight_derives : Derives crossGrammar.likely onlyRight := by
  have hleaf : Derives crossGrammar.likely (.leaf "'y'") := .leaf (by decide)
  have hvalue : Derives crossGrammar.likely (.node "value" 1 [.leaf "'y'"]) :=
    .node (show (⟨["'y'"], 1, 1⟩ : Alternative) ∈ _ by decide +kernel) rfl rfl
      (List.forall_mem_singleton.mpr hleaf)
  have hright : Derives crossGrammar.likely (.node "right" 0 [.node "value" 1 [.leaf "'y'"]]) :=
    .node (show (⟨["value"], 0, 1⟩ : Alternative) ∈ _ by decide +kernel) rfl rfl
      (List.forall_mem_singleton.mpr hvalue)
  exact .node (show (⟨["right"], 1, 1⟩ : Alternative) ∈ _ by decide +kernel) rfl rfl
    (List.forall_mem_singleton.mpr hright)

theorem onlyRight_avoids : ∀ rule ∈ [crossRule], ¬ ∀ s ∈ rule, Realises onlyRight.expanded s := by
  intro rule hr hall
  obtain rfl := List.mem_singleton.mp hr
  obtain ⟨e, he, -, hend⟩ := hall ⟨["start", "left", "value"], 0, by decide⟩ (by decide)
  have hleft := hend.1.subset (show "left" ∈ ["start", "left", "value"] by decide)
  have hall : ∀ e ∈ onlyRight.expandedBelow [], "left" ∉ e.1 := by decide
  exact hall e he hleft

theorem generation_complete_right : ∃ rnd fuel st,
    crossGenerator.generateTree rnd fuel = some st ∧ st.tree.Derivation (0, 0) onlyRight :=
  (generation_complete crossGenerator [crossRule] rfl (by decide +kernel) rfl onlyRight
    onlyRight_derives rfl (by decide)).2 (by decide) onlyRight_avoids

end RSFuzz
