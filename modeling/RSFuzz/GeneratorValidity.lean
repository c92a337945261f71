import RSFuzz.GeneratorSelection
import RSFuzz.LevelTreeDerivation

set_option autoImplicit false

/-!
# Generated trees are derivations

The invariant of level trees along any mix of the three expansion steps, what
the two `generate_input` loops leave behind, and the text written for a
finished tree.
-/
namespace RSFuzz
open OrderedMap Tiling

namespace InputGenerator

variable {g : InputGenerator}

/-- States met by any mix of the three expansion steps. -/
inductive Reachable (g : InputGenerator) : GenState → Prop where
  | initial : Reachable g g.initial
  | randomly {st st' : GenState} (rnd : Choices) (h : Reachable g st)
      (hrun : g.expandNodeRandomly rnd st = some st') : Reachable g st'
  | minimum {st st' : GenState} (rnd : Choices) (h : Reachable g st)
      (hrun : g.expandMinimumNode rnd st = some st') : Reachable g st'
  | guided {st st' : GenState} {slot' : Option ℕ} (rnd : Choices) (nextSymbol : Option Sym)
      (slot : Option ℕ) (h : Reachable g st)
      (hrun : g.expandMinimumNodeGuided rnd nextSymbol slot st = some (st', slot')) :
      Reachable g st'

theorem expandLevel_of_map_fst {select : Selector} {st st' : GenState}
    (h : (expandLevel g.tables select st).map Prod.fst = some st') :
    ∃ slot, expandLevel g.tables select st = some (st', slot) := by
  obtain ⟨⟨_, slot⟩, hrun, rfl⟩ := Option.map_eq_some_iff.mp h
  exact ⟨slot, hrun⟩

theorem Reachable.steps {st : GenState} (h : g.Reachable st) : Steps g g.AnySelector st := by
  induction h with
  | initial => exact .initial
  | randomly rnd _ hrun ih =>
    obtain ⟨slot, hrun⟩ := expandLevel_of_map_fst hrun
    exact .level ih (.plain (.randomly rnd)) hrun
  | minimum rnd _ hrun ih =>
    obtain ⟨slot, hrun⟩ := expandLevel_of_map_fst hrun
    exact .level ih (.plain (.minimum rnd)) hrun
  | guided rnd nextSymbol slot _ hrun ih => exact .level ih (.guided rnd nextSymbol slot) hrun

theorem generateTree_steps {rnd : Choices} {fuel : ℕ} {st : GenState}
    (h : g.generateTree rnd fuel = some st) :
    Steps g g.Plain st ∧ g.Reachable st ∧ anyPossibleExpansions (lastLevel st) = false := by
  simp only [generateTree, Option.bind_eq_bind, Option.bind_eq_some_iff, Option.pure_def,
    Option.some.injEq] at h
  obtain ⟨s₁, h₁, s₂, h₂, rfl⟩ := h
  have hrandom := WhileLoop.run_invariant
    (fun s : GenState × ℕ => Steps g g.Plain s.1 ∧ g.Reachable s.1)
    (by
      rintro s s' ⟨hs, hr⟩ - hbody
      obtain ⟨st', hst, rfl⟩ := Option.map_eq_some_iff.mp hbody
      obtain ⟨slot, hrun⟩ := expandLevel_of_map_fst hst
      exact ⟨.level hs (.randomly rnd) hrun, .randomly rnd hr hst⟩)
    fuel ⟨.initial, .initial⟩ h₁
  have hminimum := WhileLoop.run_invariant
    (fun s : GenState × ℕ => Steps g g.Plain s.1 ∧ g.Reachable s.1)
    (by
      rintro s s' ⟨hs, hr⟩ - hbody
      obtain ⟨st', hst, rfl⟩ := Option.map_eq_some_iff.mp hbody
      obtain ⟨slot, hrun⟩ := expandLevel_of_map_fst hst
      exact ⟨.level hs (.minimum rnd) hrun, .minimum rnd hr hst⟩)
    fuel hrandom.1 h₂
  exact ⟨hminimum.1.1, hminimum.1.2, hminimum.2⟩

end InputGenerator

theorem TribbleGenerator.guidedStep_level {g : TribbleGenerator} {rnd : Choices}
    {target : List Sym} {s s' : GuidedState} (h : g.guidedStep rnd target s = some s') :
    ∃ nextSymbol slot',
      (∀ i, s.selectedSlot = some i → ∃ next, target[s.curDepth + 1]? = some next ∧
        nextSymbol = some next) ∧
      g.expandMinimumNodeGuided rnd nextSymbol s.selectedSlot s.st = some (s'.st, slot') ∧
      s'.curDepth = s.curDepth + 1 ∧
      s'.selectedSlot = if s.curDepth + 1 = target.length - 1 then none else slot' := by
  unfold guidedStep at h
  simp only [Option.bind_eq_bind, Option.bind_eq_some_iff, Option.pure_def,
    Option.some.injEq] at h
  obtain ⟨nextSymbol, hnext, ⟨st', slot'⟩, hrun, rfl⟩ := h
  refine ⟨nextSymbol, slot', ?_, hrun, rfl, rfl⟩
  intro i hi
  rw [nextSymbolOf, hi] at hnext
  obtain ⟨next, ht, rfl⟩ := Option.map_eq_some_iff.mp hnext
  exact ⟨next, ht, rfl⟩

theorem TribbleGenerator.generateTree_reachable {g : TribbleGenerator} {rnd : Choices}
    {target : List Sym} {fuel : ℕ} {st : GenState} (h : g.generateTree rnd target fuel = some st) :
    g.Reachable st ∧ InputGenerator.anyPossibleExpansions (InputGenerator.lastLevel st) = false := by
  obtain ⟨s, hrun, rfl⟩ := Option.map_eq_some_iff.mp h
  exact WhileLoop.run_invariant (fun s : GuidedState => g.Reachable s.st)
    (by
      intro s s' hr _ hbody
      obtain ⟨nextSymbol, slot', -, hstep, -⟩ := guidedStep_level hbody
      exact .guided rnd nextSymbol _ hr hstep)
    fuel .initial hrun

theorem WellFormed.closed {G : Grammar} {start : Sym} {st : GenState}
    (h : WellFormed G start st.tree)
    (hexit : InputGenerator.anyPossibleExpansions (InputGenerator.lastLevel st) = false) :
    st.tree.Closed := by
  rintro ⟨d, i⟩ node hn
  obtain ⟨level, hl, hi⟩ := Tree.node?_eq_some.mp hn
  have hd := Tree.node?_lt_length hn
  by_cases hlast : d + 1 < st.tree.length
  · exact h.above d level hl hlast node (List.mem_of_getElem? hi)
  · obtain rfl : d = st.tree.length - 1 := by omega
    have hll : InputGenerator.lastLevel st = level := by
      rw [InputGenerator.lastLevel, List.getLast?_eq_getElem?, hl]
      rfl
    rw [hll, InputGenerator.anyPossibleExpansions, List.any_eq_false] at hexit
    simpa using hexit node (List.mem_of_getElem? hi)

def Tree.leaves : ℕ → Tree → ℕ → List ((ℕ × ℕ) × Sym)
  | _, [], _ => []
  | depth, level :: below, idx =>
    match level[idx]? with
    | none => []
    | some node =>
      match node.children with
      | .leaf => [((depth, idx), node.symbol)]
      | .unexpanded => []
      | .range a b => (List.range' a (b - a)).flatMap (Tree.leaves (depth + 1) below)

theorem foldlM_append {α : Type} (xs : List α) (f : α → Option String) (text : α → String)
    (h : ∀ x ∈ xs, f x = some (text x)) (init : String) :
    xs.foldlM (fun result x => (f x).bind fun t => some (result ++ t)) init =
      some (init ++ String.join (xs.map text)) := by
  induction xs generalizing init with
  | nil => simp
  | cons x xs ih =>
    rw [List.foldlM_cons, h x (by simp)]
    simp only [Option.bind_some, Option.bind_eq_bind]
    rw [ih fun y hy => h y (List.mem_cons_of_mem x hy)]
    simp [String.append_assoc]

namespace InputGenerator

/-- Induction on the number of levels below the node: the text is that of its leaves. -/
theorem treeToString_eq (g : InputGenerator) (getone : ℕ × ℕ → String → String) {G : Grammar}
    {start : Sym} {tree : Tree} (hw : WellFormed G start tree) (hclosed : tree.Closed) (n : ℕ)
    {d i : ℕ} {node : Node} (hd : tree.length - d = n) (hn : tree.node? (d, i) = some node) :
    g.treeToString getone d (tree.drop d) i = some (String.join
      ((Tree.leaves d (tree.drop d) i).map fun leaf => g.renderLeaf (getone leaf.1) leaf.2)) := by
  induction n generalizing d i node with
  | zero =>
    have := Tree.node?_lt_length hn
    omega
  | succ n ih =>
    obtain ⟨level, hl, hi⟩ := Tree.node?_eq_some.mp hn
    obtain ⟨hlt, hget⟩ := List.getElem?_eq_some_iff.mp hl
    rw [List.drop_eq_getElem_cons hlt, hget]
    cases hc : node.children with
    | unexpanded => exact absurd hc (hclosed _ _ hn)
    | leaf => simp [treeToString, Tree.leaves, hi, hc]
    | range a b =>
      simp only [treeToString, Tree.leaves, hi, hc, Option.bind_eq_bind, Option.bind_some,
        Option.pure_def]
      rw [foldlM_append _ _ (fun c => String.join ((Tree.leaves (d + 1) (tree.drop (d + 1)) c).map
        fun leaf => g.renderLeaf (getone leaf.1) leaf.2))]
      · rw [List.map_flatMap, String.empty_append]
        congr 1
        induction List.range' a (b - a) with
        | nil => rfl
        | cons c cs ihc => simp [String.join_append, ihc]
      · intro c hcm
        have hc' := List.mem_range'_1.mp hcm
        obtain ⟨child, hchild, -⟩ := hw.exists_child hn hc hc'.1 (by omega)
        exact ih (by omega) hchild

end InputGenerator

theorem Tree.Derivation.leaves_eq_yield {tree : Tree} {pos : ℕ × ℕ} {t : DTree}
    (h : tree.Derivation pos t) :
    (Tree.leaves pos.1 (tree.drop pos.1) pos.2).map Prod.snd = t.yield := by
  have key : ∀ {d i : ℕ} {node : Node}, tree.node? (d, i) = some node →
      ∃ level, tree.drop d = level :: tree.drop (d + 1) ∧ level[i]? = some node := by
    intro d i node hn
    obtain ⟨level, hl, hi⟩ := Tree.node?_eq_some.mp hn
    obtain ⟨hlt, hget⟩ := List.getElem?_eq_some_iff.mp hl
    exact ⟨level, by rw [List.drop_eq_getElem_cons hlt, hget], hi⟩
  induction h with
  | @leaf pos node hn hc =>
    obtain ⟨level, hdrop, hi⟩ := key hn
    simp [hdrop, Tree.leaves, hi, hc, DTree.yield]
  | @node d i a b dn node children hn hc _ hlen _ ih =>
    obtain ⟨level, hdrop, hi⟩ := key hn
    simp only [hdrop, Tree.leaves, hi, hc, DTree.yield, DTree.yieldForest_eq_flatMap,
      List.map_flatMap]
    have hchildren : children.map DTree.yield = (List.range' a (b - a)).map fun c =>
        (Tree.leaves (d + 1) (tree.drop (d + 1)) c).map Prod.snd := by
      apply List.ext_getElem (by simp [hlen])
      intro k hk _
      simp only [List.getElem_map, List.getElem_range', Nat.one_mul]
      exact (ih k _ (List.getElem?_eq_getElem (by simpa using hk))).symm
    rw [List.flatMap_def, List.flatMap_def, ← hchildren]

/-- The shape every consumer of trees relies on. -/
structure ValidLevels (G : Grammar) (tree : Tree) : Prop where
  tiles : ∀ d level next, tree[d]? = some level → tree[d + 1]? = some next →
    Tiles 0 (childRanges level) next.length
  parents : ∀ d i c, (∃ child : Node, tree.node? (d + 1, c) = some child ∧
      child.parent = some (d, i)) ↔
    ∃ (node : Node) (a b : ℕ), tree.node? (d, i) = some node ∧ node.children = .range a b ∧
      a ≤ c ∧ c < b
  spells : ∀ d i node a b, tree.node? (d, i) = some node → node.children = .range a b →
    ∃ alt ∈ G.alternatives node.symbol, node.dn = (alt.derivNum : ℤ) ∧
      (childSlice (tree[d + 1]?.getD []) a b).map Node.symbol = alt.expansion

theorem WellFormed.validLevels {G : Grammar} {start : Sym} {tree : Tree}
    (h : WellFormed G start tree) : ValidLevels G tree where
  tiles := fun d level next hl hn => (h.linked d level next hl hn).tiles
  parents := by
    intro d i c
    constructor
    · rintro ⟨child, hc, hp⟩
      obtain ⟨next, hnext, hci⟩ := Tree.node?_eq_some.mp hc
      have hd : d < tree.length := by
        have := (List.getElem?_eq_some_iff.mp hnext).1
        omega
      have hl := List.getElem?_eq_getElem hd
      obtain ⟨node, a, b, hi, hr, ha, hb⟩ :=
        ((h.linked d _ next hl hnext).parents c i).mp ⟨child, hci, hp⟩
      exact ⟨node, a, b, Tree.node?_eq_some.mpr ⟨_, hl, hi⟩, hr, ha, hb⟩
    · rintro ⟨node, a, b, hn, hr, ha, hb⟩
      exact h.exists_child hn hr ha hb
  spells := by
    intro d i node a b hn hr
    obtain ⟨level, next, -, hnext, hi, hlink⟩ := h.exists_next hn hr
    rw [hnext]
    exact hlink.spells node (List.mem_of_getElem? hi) a b hr

/-- A finished tree: every nonterminal expanded, and the text that of the leaves of one
    derivation tree. -/
def Finished (g : InputGenerator) (tree : Tree) : Prop :=
  (∀ pos node, tree.node? pos = some node → node.symbol ∈ g.grammar.keys →
    ∃ a b, node.children = .range a b) ∧
  ∃ t, Derives g.grammar t ∧ t.symbol = g.config.startRule ∧
    (Tree.leaves 0 tree 0).map Prod.snd = t.yield ∧
    ∀ getone, g.treeToString getone 0 tree 0 = some (String.join
      ((Tree.leaves 0 tree 0).map fun leaf => g.renderLeaf (getone leaf.1) leaf.2))

theorem WellFormed.finished {g : InputGenerator} {st : GenState}
    (h : WellFormed g.grammar g.config.startRule st.tree)
    (hexit : InputGenerator.anyPossibleExpansions (InputGenerator.lastLevel st) = false) :
    Finished g st.tree := by
  have hclosed := h.closed hexit
  refine ⟨?_, ?_⟩
  · intro pos node hn hk
    have hok := h.nodeOk hn
    cases hc : node.children with
    | unexpanded => exact absurd hc (hclosed _ _ hn)
    | leaf => exact absurd hk (hok.leaf_iff.mp hc)
    | range a b => exact ⟨a, b, rfl⟩
  · obtain ⟨t, ht, htd, hsym⟩ := h.exists_root_derivation hclosed
    obtain ⟨root, hn, -⟩ := h.exists_root
    exact ⟨t, htd, hsym, ht.leaves_eq_yield, fun getone =>
      g.treeToString_eq getone h hclosed _ rfl hn⟩

/-- Where the plain steps are taken they return; the guided one returns where its slot finds
    the next symbol, which its caller arranges. -/
theorem RunInvariant.plain_returns {g : InputGenerator} (halt : g.grammar.HasAlternatives)
    {st : GenState} (h : RunInvariant g st) (rnd : Choices) :
    (g.grammar.Drawable → ∃ st', g.expandNodeRandomly rnd st = some st') ∧
      ∃ st', g.expandMinimumNode rnd st = some st' := by
  have key : ∀ select, g.Plain select →
      (∀ (tree : Tree) i symbol seen path, tree ≠ [] → tree.RootPath (tree.length - 1, i) path →
        symbol ∈ g.grammar.keys → ∃ sel, select tree i symbol seen = some sel) →
      ∃ st', (expandLevel g.tables select st).map Prod.fst = some st' := by
    intro select hsel hret
    obtain ⟨st', slot, hrun⟩ := expandLevel_returns hsel.selectsAlternative h fun upper last ht =>
      InputGenerator.selectsAt_of_returns hret fun node hn =>
        h.wellFormed.nodes last (by simp [ht]) node hn
    exact ⟨st', by rw [hrun]; rfl⟩
  constructor
  · intro hdraw
    exact key _ (.randomly rnd) fun _ _ symbol _ _ hne hp hk =>
      InputGenerator.selectRandomly_returns hne hp hk (halt _ hk) (hdraw symbol)
  · exact key _ (.minimum rnd) fun _ _ _ _ _ hne hp hk =>
      InputGenerator.selectMinimum_returns hne hp hk (halt _ hk)

/-- Validity after every step, steps that return where the weights can be drawn from, and what
    leaving the loops guarantees. -/
theorem generation_valid (g : InputGenerator) (halt : g.grammar.HasAlternatives)
    (hstart : g.grammar.keys.head? = some g.config.startRule) :
    (∀ st, g.Reachable st → ValidLevels g.grammar st.tree ∧ ∀ rnd,
      (g.grammar.Drawable → ∃ st', g.expandNodeRandomly rnd st = some st') ∧
      ∃ st', g.expandMinimumNode rnd st = some st') ∧
    (∀ rnd fuel st, g.generateTree rnd fuel = some st → Finished g st.tree) ∧
    ∀ prefixDict kValue rnd target fuel st,
      (TribbleGenerator.mk g prefixDict kValue).generateTree rnd target fuel = some st →
        Finished g st.tree := by
  have hkeys : g.config.startRule ∈ g.grammar.keys := List.mem_of_mem_head? hstart
  have hinv : ∀ st, g.Reachable st → RunInvariant g st := fun st h =>
    h.steps.runInvariant hkeys fun _ hs => hs.selectsAlternative
  refine ⟨fun st h => ⟨(hinv st h).wellFormed.validLevels, (hinv st h).plain_returns halt⟩, ?_, ?_⟩
  · intro rnd fuel st h
    obtain ⟨-, hr, hexit⟩ := InputGenerator.generateTree_steps h
    exact (hinv st hr).wellFormed.finished hexit
  · intro prefixDict kValue rnd target fuel st h
    obtain ⟨hr, hexit⟩ := TribbleGenerator.generateTree_reachable h
    exact (hinv st hr).wellFormed.finished hexit

def sampleGrammar : Grammar :=
  ⟨[("list", [⟨["item", "' '", "list"], 0, 1 / 2⟩, ⟨["'b'"], 1, 1 / 2⟩]),
    ("item", [⟨["'a'"], 0, 1⟩])], by decide⟩

def sampleGenerator : InputGenerator where
  grammar := sampleGrammar
  depthsDict := ⟨[("list", ([(["item", "' '", "list"], 999), (["'b'"], 0)], 1)),
    ("item", ([(["'a'"], 0)], 1))], by decide⟩
  config := ⟨"list", 1⟩
  tables := Tables.empty

def sampleTree : Option GenState :=
  sampleGenerator.generateTree ⟨fun _ _ => 0, fun _ => 0⟩ 3

theorem generation_valid_sample :
    sampleTree.bind (fun st =>
      sampleGenerator.treeToString (fun _ pattern => pattern) 0 st.tree 0) = some "a b" ∧
    ∃ st, sampleTree = some st ∧ Finished sampleGenerator st.tree := by
  refine ⟨by decide +kernel, ?_⟩
  have hsome : sampleTree.isSome = true := by decide +kernel
  obtain ⟨st, hst⟩ := Option.isSome_iff_exists.mp hsome
  exact ⟨st, hst, (generation_valid sampleGenerator (by decide) rfl).2.1 _ _ _ hst⟩

end RSFuzz
