import RSFuzz.TribbleGuided

set_option autoImplicit false

/-!
# Coverage of the k-paths

The walk over a finished tree strikes off only chains of the tree, and every
round removes the k-path whose target it spelled; so a call ends after at most
one round per k-path, and each of them occurs in a tree it wrote.
-/
namespace RSFuzz
open OrderedMap OptionFold
open scoped List

/-- A contiguous parent-to-child chain of symbols somewhere in the tree. -/
def Tree.Occurs (tree : Tree) (chain : List Sym) : Prop :=
  ∃ pos path, tree.RootPath pos path ∧ chain <:+ path

namespace TribbleGenerator

variable {g : TribbleGenerator} {tree : Tree}

/-- Stack entries end chains of the tree, and only chains of the tree are struck off. -/
structure WalkInvariant (tree : Tree) (uncovered : List (List Sym)) (s : WalkState) : Prop where
  stack : ∀ d i path, (d, i, path) ∈ s.stack → ∃ up, tree.RootPath (d, i) up ∧ path <:+ up
  struck : ∀ path ∈ uncovered, path ∉ s.uncovered → tree.Occurs path
  sub : s.uncovered <+ uncovered

theorem WalkInvariant.initial (hc : tree.ParentsConsistent) (uncovered : List (List Sym)) :
    WalkInvariant tree uncovered ⟨g.walkStart tree, uncovered⟩ where
  stack := by
    intro d i path hmem
    rw [walkStart, List.mem_reverse, List.mem_flatMap] at hmem
    obtain ⟨⟨level, d'⟩, hl, hmem⟩ := hmem
    obtain ⟨⟨node, i'⟩, hn, he⟩ := List.mem_filterMap.mp hmem
    simp only [Option.ite_none_right_eq_some, Option.some.injEq, Prod.mk.injEq] at he
    obtain ⟨-, rfl, rfl, rfl⟩ := he
    have hl := List.mem_zipIdx_iff_getElem?.mp hl
    have hn := List.mem_zipIdx_iff_getElem?.mp hn
    have hnode := Tree.node?_eq_some.mpr ⟨level, hl, hn⟩
    obtain ⟨up, hup⟩ := hc.exists_rootPath _ _ hnode
    obtain ⟨front, hfront⟩ := List.getLast?_eq_some_iff.mp (hup.getLast? hnode)
    exact ⟨up, hup, ⟨front, hfront.symm⟩⟩
  struck := fun path h hn => absurd h hn
  sub := List.Sublist.refl _

theorem WalkInvariant.strike {uncovered : List (List Sym)} {s : WalkState} {path : List Sym}
    (h : WalkInvariant tree uncovered s) (hocc : tree.Occurs path) :
    (s.uncovered.erase path <+ uncovered) ∧
      ∀ p ∈ uncovered, p ∉ s.uncovered.erase path → tree.Occurs p := by
  refine ⟨List.erase_sublist.trans h.sub, fun p hp hnot => ?_⟩
  by_cases hps : p ∈ s.uncovered
  · have hp : p = path := by
      by_contra hne
      exact hnot ((List.mem_erase_of_ne hne).mpr hps)
    rwa [hp]
  · exact h.struck p hp hps

theorem exists_childItems {G : Grammar} {start : Sym} (hw : WellFormed G start tree) {d i a b : ℕ}
    {node : Node} (hn : tree.node? (d, i) = some node) (hc : node.children = .range a b)
    {up path : List Sym} (hup : tree.RootPath (d, i) up) (hsuf : path <:+ up) :
    ∃ items : List (ℕ × ℕ × List Sym), (List.range' a (b - a)).mapM (fun ci =>
        (tree.node? (d + 1, ci)).map fun child => (d + 1, ci, path ++ [child.symbol])) =
          some items ∧
      items.length = b - a ∧ ∀ item ∈ items, item.1 = d + 1 ∧
        ∃ up', tree.RootPath (item.1, item.2.1) up' ∧ item.2.2 <:+ up' := by
  obtain ⟨front, rfl⟩ := hsuf
  obtain ⟨items, hitems, hlen, hall⟩ := exists_mapM
    (P := fun item : ℕ × ℕ × List Sym => item.1 = d + 1 ∧
      ∃ up', tree.RootPath (item.1, item.2.1) up' ∧ item.2.2 <:+ up')
    (f := fun ci => (tree.node? (d + 1, ci)).map fun child =>
      (d + 1, ci, path ++ [child.symbol]))
    (List.range' a (b - a)) (by
      intro ci hci
      have hci := List.mem_range'_1.mp hci
      obtain ⟨child, hchild, hpar⟩ := hw.exists_child hn hc hci.1 (by omega)
      exact ⟨_, by rw [hchild]; rfl, rfl, _, .child hup hchild hpar, front, by simp⟩)
  exact ⟨items, hitems, by rw [hlen, List.length_range'], hall⟩

theorem WalkInvariant.step {G : Grammar} {start : Sym} (hw : WellFormed G start tree)
    (hclosed : tree.Closed) {uncovered : List (List Sym)} {s : WalkState}
    (h : WalkInvariant tree uncovered s) (hne : s.stack ≠ []) :
    ∃ s', g.walkStep tree s = some s' ∧ WalkInvariant tree uncovered s' ∧
      WhileLoop.weight (fun a => tree.length - a.1) (tree.map List.length).sum s'.stack <
        WhileLoop.weight (fun a => tree.length - a.1) (tree.map List.length).sum s.stack := by
  obtain ⟨⟨d, i, path⟩, rest, hs⟩ := List.exists_cons_of_ne_nil hne
  obtain ⟨up, hup, hsuf⟩ := h.stack d i path (by simp [hs])
  have hrest : ∀ d i path, (d, i, path) ∈ rest → ∃ up, tree.RootPath (d, i) up ∧ path <:+ up :=
    fun d i path hm => h.stack d i path (by simp [hs, hm])
  have hpop : WhileLoop.weight (fun a => tree.length - a.1) (tree.map List.length).sum rest <
      WhileLoop.weight (fun a => tree.length - a.1) (tree.map List.length).sum s.stack := by
    rw [hs]
    exact WhileLoop.weight_spawn_lt _ _ _ [] rest (Nat.zero_le _) (by simp)
  obtain ⟨node, hn⟩ := hup.exists_node
  by_cases hk : path.length = g.kValue
  · obtain ⟨hsub, hstruck⟩ := h.strike ⟨_, up, hup, hsuf⟩
    exact ⟨⟨rest, s.uncovered.erase path⟩, by simp [walkStep, hs, hk], ⟨hrest, hstruck, hsub⟩, hpop⟩
  · have hskip : WalkInvariant tree uncovered ⟨rest, s.uncovered⟩ := ⟨hrest, h.struck, h.sub⟩
    cases hc : node.children with
    | unexpanded => exact absurd hc (hclosed _ _ hn)
    | leaf => exact ⟨_, by simp [walkStep, hs, hk, hn, hc], hskip, hpop⟩
    | range a b =>
      by_cases hdeep : tree.length ≤ d + 1
      · exact ⟨_, by simp [walkStep, hs, hk, hn, hc, hdeep], hskip, hpop⟩
      · obtain ⟨items, hitems, hlen, hall⟩ := exists_childItems hw hn hc hup hsuf
        refine ⟨⟨items.reverse ++ rest, s.uncovered⟩,
          by simp [walkStep, hs, hk, hn, hc, hdeep, hitems], ⟨?_, h.struck, h.sub⟩, ?_⟩
        · intro d' i' path' hmem
          rcases List.mem_append.mp hmem with hmem | hmem
          · exact (hall _ (List.mem_reverse.mp hmem)).2
          · exact hrest d' i' path' hmem
        · rw [hs]
          apply WhileLoop.weight_spawn_lt
          · rw [List.length_reverse, hlen]
            exact hw.range_le_sum hn hc
          · intro item hmem
            have := (hall item (List.mem_reverse.mp hmem)).1
            simp only
            omega

theorem walk_returns {G : Grammar} {start : Sym} (hw : WellFormed G start tree)
    (hclosed : tree.Closed) (uncovered : List (List Sym)) :
    ∃ fuel₀ left, (∀ fuel, fuel₀ ≤ fuel → g.walk tree uncovered fuel = some left) ∧
      left <+ uncovered ∧ ∀ path ∈ uncovered, path ∉ left → tree.Occurs path := by
  obtain ⟨s, hrun, hinv, -⟩ := WhileLoop.run_terminates
    (fun s : WalkState => !s.stack.isEmpty && !s.uncovered.isEmpty) (g.walkStep tree)
    (WalkInvariant tree uncovered)
    (fun s => WhileLoop.weight (fun a => tree.length - a.1) (tree.map List.length).sum s.stack)
    (by
      intro s hs hc
      have hne : s.stack ≠ [] := by
        intro he
        simp [he] at hc
      exact hs.step hw hclosed hne)
    (.initial (g := g) hw.parentsConsistent uncovered) _ le_rfl
  exact ⟨_, s.uncovered, fun fuel hf => by rw [walk, WhileLoop.run_mono hf hrun]; rfl, hinv.sub,
    hinv.struck⟩

/-- What the callers provide: k-paths along grammar edges and prefixes that lead to them. -/
structure PathTable (g : TribbleGenerator) (kPaths : List (List Sym)) : Prop where
  chain : ∀ path ∈ kPaths, path.IsChain g.grammar.Edge
  prefixes : ∀ path ∈ kPaths, ∃ first chains, path.head? = some first ∧
    g.prefixDict.get? first = some chains ∧ chains ≠ [] ∧ ∀ pre ∈ chains,
      pre.head? = some g.config.startRule ∧ pre.getLast? = some first ∧
      pre.IsChain g.grammar.Edge ∧ 2 ≤ (pre.dropLast ++ path).length

theorem PathTable.targetPath {kPaths : List (List Sym)} (h : g.PathTable kPaths)
    {path pre : List Sym} {first : Sym} (hp : path ∈ kPaths) (hf : path.head? = some first)
    (hhead : pre.head? = some g.config.startRule) (hlast : pre.getLast? = some first)
    (hchain : pre.IsChain g.grammar.Edge) (htwo : 2 ≤ (pre.dropLast ++ path).length) :
    g.TargetPath (pre.dropLast ++ path) := by
  obtain ⟨rest, rfl⟩ := List.head?_eq_some_iff.mp hf
  obtain ⟨front, rfl⟩ := List.getLast?_eq_some_iff.mp hlast
  rw [List.dropLast_concat] at htwo ⊢
  refine ⟨?_, ?_, htwo⟩
  · cases front with
    | nil => simpa using hhead
    | cons a front => simpa using hhead
  · have hpath := h.chain _ hp
    rw [List.isChain_append] at hchain ⊢
    exact ⟨hchain.1, hpath, by simpa using hchain.2.2⟩

structure RoundInvariant (kPaths : List (List Sym)) (s : RoundState) : Prop where
  sub : s.uncovered <+ kPaths
  covered : ∀ path ∈ kPaths, path ∈ s.uncovered ∨ ∃ out ∈ s.written, out.2.Occurs path
  count : s.written.length + s.uncovered.length ≤ kPaths.length
  started : s.uncovered.length < kPaths.length → 1 ≤ s.written.length

theorem PathTable.exists_target {kPaths : List (List Sym)} (htable : g.PathTable kPaths)
    (choices : RoundChoices) {uncovered : List (List Sym)} (hsub : uncovered <+ kPaths)
    (hne : uncovered ≠ []) :
    ∃ kPath first chains pre, uncovered[choices.pop % uncovered.length]? = some kPath ∧
      kPath.head? = some first ∧ g.prefixDict.get? first = some chains ∧
      chains[choices.pre % chains.length]? = some pre ∧ g.TargetPath (pre.dropLast ++ kPath) := by
  have hlt := Nat.mod_lt choices.pop (List.length_pos_iff.mpr hne)
  have hk := List.getElem?_eq_getElem hlt
  have hmem := hsub.subset (List.mem_of_getElem? hk)
  obtain ⟨first, chains, hf, hchains, hcne, hpre⟩ := htable.prefixes _ hmem
  have hp := List.getElem?_eq_getElem (Nat.mod_lt choices.pre (List.length_pos_iff.mpr hcne))
  obtain ⟨hhead, hlast, hchain, htwo⟩ := hpre _ (List.mem_of_getElem? hp)
  exact ⟨_, first, chains, _, hk, hf, hchains, hp,
    htable.targetPath hmem hf hhead hlast hchain htwo⟩

theorem target_written {target : List Sym} (ht : g.TargetPath target)
    (hprod : g.grammar.Productive) (hkeys : g.config.startRule ∈ g.grammar.keys)
    (hd : DepthTable.ExactTable g.grammar g.depthsDict) (choices : RoundChoices)
    (uncovered : List (List Sym)) :
    ∃ fuel₀ st text left, st.tree.Occurs target ∧ left <+ uncovered ∧
      (∀ path ∈ uncovered, path ∉ left → st.tree.Occurs path) ∧
      g.treeToString choices.getone 0 st.tree 0 = some text ∧
      ∀ fuel, fuel₀ ≤ fuel → g.generateTree choices.tree target fuel = some st ∧
        g.walk st.tree uncovered fuel = some left := by
  have hD : target.length ≤ max target.length g.config.maxDepths ∧
      g.config.maxDepths ≤ max target.length g.config.maxDepths :=
    ⟨le_max_left _ _, le_max_right _ _⟩
  obtain ⟨st, hst, hinv, hexit, pos, hpath⟩ :=
    generateTree_returns ht hprod hkeys hd choices.tree hD _ le_rfl
  have hclosed := hinv.wellFormed.closed hexit
  obtain ⟨-, t, -, -, -, htext⟩ := hinv.wellFormed.finished hexit
  obtain ⟨fuel₁, left, hwalk, hsub, hstruck⟩ :=
    walk_returns (g := g) hinv.wellFormed hclosed uncovered
  refine ⟨max (max target.length g.config.maxDepths + 1 + g.grammar.maxMinHeight) fuel₁, st, _,
    left, ⟨pos, _, hpath, List.suffix_rfl⟩, hsub, hstruck, htext _, fun fuel hfuel => ⟨?_, ?_⟩⟩
  · obtain ⟨gs, hgs, rfl⟩ := Option.map_eq_some_iff.mp hst
    rw [generateTree, WhileLoop.run_mono (le_trans (le_max_left _ _) hfuel) hgs]
    rfl
  · exact hwalk fuel (le_trans (le_max_right _ _) hfuel)

theorem RoundInvariant.write {kPaths : List (List Sym)} {s : RoundState}
    (h : RoundInvariant kPaths s) {kPath : List Sym} (hmem : kPath ∈ s.uncovered)
    (out : String × Tree) {left : List (List Sym)} (hocc : out.2.Occurs kPath)
    (hsub : left <+ s.uncovered.erase kPath)
    (hstruck : ∀ path ∈ s.uncovered.erase kPath, path ∉ left → out.2.Occurs path) :
    RoundInvariant kPaths ⟨left, s.written ++ [out]⟩ ∧ left.length < s.uncovered.length := by
  have hpos := List.length_pos_of_mem hmem
  have hlen := hsub.length_le
  rw [List.length_erase_of_mem hmem] at hlen
  refine ⟨⟨(hsub.trans List.erase_sublist).trans h.sub, fun path hpk => ?_, ?_, by simp⟩, by omega⟩
  · rcases h.covered path hpk with hu | ⟨out', ho, hocc'⟩
    · by_cases hl : path ∈ left
      · exact Or.inl hl
      · refine Or.inr ⟨out, by simp, ?_⟩
        by_cases he : path = kPath
        · rwa [he]
        · exact hstruck path ((List.mem_erase_of_ne he).mpr hu) hl
    · exact Or.inr ⟨out', by simp [ho], hocc'⟩
  · have := h.count
    simp only [List.length_append, List.length_singleton]
    omega

theorem round_returns {kPaths : List (List Sym)} (hprod : g.grammar.Productive)
    (hkeys : g.config.startRule ∈ g.grammar.keys)
    (hd : DepthTable.ExactTable g.grammar g.depthsDict) (htable : g.PathTable kPaths)
    (rnd : ℕ → RoundChoices) {s : RoundState} (h : RoundInvariant kPaths s)
    (hne : s.uncovered ≠ []) :
    ∃ fuel₀ s', (∀ fuel, fuel₀ ≤ fuel → g.round rnd fuel s = some s') ∧
      RoundInvariant kPaths s' ∧ s'.uncovered.length < s.uncovered.length := by
  obtain ⟨kPath, first, chains, pre, hk, hf, hchains, hp, ht⟩ :=
    htable.exists_target (rnd s.written.length) h.sub hne
  obtain ⟨fuel₀, st, text, left, ⟨pos, path, hpath, hsuf⟩, hsub, hstruck, htext, hrun⟩ :=
    target_written ht hprod hkeys hd (rnd s.written.length) (s.uncovered.erase kPath)
  have hocc : st.tree.Occurs kPath := ⟨pos, path, hpath, (List.suffix_append _ _).trans hsuf⟩
  obtain ⟨hinv, hlt⟩ := h.write (List.mem_of_getElem? hk) (text, st.tree) hocc hsub hstruck
  refine ⟨fuel₀, _, fun fuel hfuel => ?_, hinv, hlt⟩
  obtain ⟨htree, hwalk⟩ := hrun fuel hfuel
  simp only [round, hk, hf, hchains, hp, htree, htext, hwalk, Option.bind_eq_bind,
    Option.bind_some, Option.pure_def]

theorem rounds_return {kPaths : List (List Sym)} (hprod : g.grammar.Productive)
    (hkeys : g.config.startRule ∈ g.grammar.keys)
    (hd : DepthTable.ExactTable g.grammar g.depthsDict) (htable : g.PathTable kPaths)
    (rnd : ℕ → RoundChoices) (n : ℕ) {s : RoundState} (h : RoundInvariant kPaths s)
    (hn : s.uncovered.length = n) :
    ∃ fuel₀ s', (∀ fuel, fuel₀ ≤ fuel → ∀ rounds, fuel₀ ≤ rounds →
      WhileLoop.run (fun s : RoundState => !s.uncovered.isEmpty) (g.round rnd fuel) rounds s =
        some s') ∧ RoundInvariant kPaths s' ∧ s'.uncovered = [] := by
  induction n using Nat.strong_induction_on generalizing s with
  | _ n ih =>
    by_cases hne : s.uncovered = []
    · exact ⟨0, s, fun fuel _ rounds _ => WhileLoop.run_of_not rounds (by simp [hne]), h, hne⟩
    · obtain ⟨fuel₁, s₁, hround, hinv, hlt⟩ := round_returns hprod hkeys hd htable rnd h hne
      obtain ⟨fuel₂, s₂, hrun, hinv', hempty⟩ := ih _ (by omega) hinv rfl
      refine ⟨max fuel₁ fuel₂ + 1, s₂, ?_, hinv', hempty⟩
      intro fuel hfuel rounds hrounds
      obtain ⟨k, rfl⟩ : ∃ k, rounds = k + 1 := ⟨rounds - 1, by omega⟩
      rw [WhileLoop.run_succ_of k (by simpa using hne), hround fuel (by omega)]
      exact hrun fuel (by omega) k (by omega)

/-- One call ends, writes at most one input for each k-path and at least one, and every
    k-path is a chain of one of the written trees. -/
theorem kPaths_covered (g : TribbleGenerator) (depthFuel : ℕ) (kPaths : List (List Sym))
    (hprod : g.grammar.Productive) (hstart : g.grammar.keys.head? = some g.config.startRule)
    (hdepths : calculateDepths g.grammar depthFuel = some g.depthsDict)
    (hne : kPaths ≠ []) (htable : g.PathTable kPaths) (rnd : ℕ → RoundChoices) :
    ∃ fuel₀ inputs, (∀ fuel, fuel₀ ≤ fuel → g.generateInput kPaths rnd fuel = some inputs) ∧
      1 ≤ inputs.length ∧ inputs.length ≤ kPaths.length ∧
      ∀ path ∈ kPaths, ∃ input ∈ inputs, input.2.Occurs path := by
  have hkeys : g.config.startRule ∈ g.grammar.keys := List.mem_of_mem_head? hstart
  have hd := DepthTable.calculateDepths_exactTable hprod.hasAlternatives hdepths
  have h0 : RoundInvariant kPaths ⟨kPaths, []⟩ :=
    ⟨List.Sublist.refl _, fun _ hp => Or.inl hp, by simp, fun hlt => absurd hlt (lt_irrefl _)⟩
  obtain ⟨fuel₀, s, hrun, hinv, hempty⟩ := rounds_return hprod hkeys hd htable rnd _ h0 rfl
  have hpos := List.length_pos_iff.mpr hne
  refine ⟨fuel₀, s.written, fun fuel hf => ?_, hinv.started ?_, ?_, ?_⟩
  · rw [generateInput, hrun fuel hf fuel hf]
    rfl
  · rwa [hempty]
  · have := hinv.count
    omega
  · intro path hp
    rcases hinv.covered path hp with hu | hocc
    · rw [hempty] at hu
      cases hu
    · exact hocc

def sampleTribble : TribbleGenerator where
  toInputGenerator := sampleGenerator
  prefixDict := ⟨[("list", [["list"], ["list", "list"]])], by decide⟩
  kValue := 5

theorem kPaths_covered_sample :
    ∃ fuel₀ inputs, (∀ fuel, fuel₀ ≤ fuel →
      sampleTribble.generateInput [["list", "list", "list", "item", "'a'"]]
        (fun _ => ⟨0, 1, ⟨fun _ _ => 0, fun _ => 0⟩, fun _ pattern => pattern⟩) fuel =
          some inputs) ∧
      1 ≤ inputs.length ∧ inputs.length ≤ 1 ∧
      ∀ path ∈ [["list", "list", "list", "item", "'a'"]], ∃ input ∈ inputs, input.2.Occurs path :=
  kPaths_covered sampleTribble 10 [["list", "list", "list", "item", "'a'"]]
    sampleGrammar_productive rfl (by decide +kernel) (by decide)
    ⟨by decide, fun path hp => ⟨"list", [["list"], ["list", "list"]], by
      rw [List.mem_singleton.mp hp]
      exact ⟨rfl, rfl, by decide, by decide⟩⟩⟩ _

end TribbleGenerator
end RSFuzz
