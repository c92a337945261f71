import RSFuzz.FoundationBalancedWeights
import RSFuzz.GeneratorRedraws
import RSFuzz.RuleMerging

set_option autoImplicit false

/-!
# Normalised probabilities

`main` of both generators normalises the probabilities of `rule_dict` in place,
before every call, and the capture phase goes on with the same dictionary. Where
no probability is negligible the inputs that can be written stay the same, and
nothing that reads trees or rules can tell the difference.
-/
namespace RSFuzz
open OrderedMap WeightedDraw

def normalizeProb (exprList : List Alternative) : List Alternative :=
  let probabilitySum := WeightedDraw.sum (exprList.map Alternative.prob)
  exprList.map fun i =>
    { i with prob := if 0 < probabilitySum then Binary64.quotient i.prob probabilitySum
        else Binary64.toDouble (1 / exprList.length) }

/-- `rule_dict` after the loop of `main`. -/
def Grammar.normalized (G : Grammar) : Grammar := G.mapValues normalizeProb

def Alternative.shape (a : Alternative) : List Sym × ℕ := (a.expansion, a.derivNum)

def SameShape (alts alts' : List Alternative) : Prop :=
  alts'.map Alternative.shape = alts.map Alternative.shape

def Grammar.Reweighted (G G' : Grammar) : Prop :=
  G'.mapValues (List.map Alternative.shape) = G.mapValues (List.map Alternative.shape)

section Shapes

variable {alts alts' : List Alternative} {γ : Type} {F : Alternative → γ}
  (hF : ∀ a p, F { a with prob := p } = F a)

theorem SameShape.length_eq (h : SameShape alts alts') : alts'.length = alts.length := by
  simpa using congrArg List.length h

include hF

theorem SameShape.map_eq (h : SameShape alts alts') : alts'.map F = alts.map F := by
  have hfactor : F = (fun s : List Sym × ℕ => F ⟨s.1, s.2, 0⟩) ∘ Alternative.shape :=
    funext fun a => (hF a 0).symm
  rw [hfactor, ← List.map_map, ← List.map_map, h]

theorem SameShape.map_filter_eq {P : Alternative → Bool} (hP : ∀ a p, P { a with prob := p } = P a)
    (h : SameShape alts alts') : (alts'.filter P).map F = (alts.filter P).map F := by
  have hfactor : F = (fun s : List Sym × ℕ => F ⟨s.1, s.2, 0⟩) ∘ Alternative.shape :=
    funext fun a => (hF a 0).symm
  have hfilter : P = (fun s : List Sym × ℕ => P ⟨s.1, s.2, 0⟩) ∘ Alternative.shape :=
    funext fun a => (hP a 0).symm
  rw [hfactor, ← List.map_map, ← List.map_map, hfilter, ← List.filter_map, ← List.filter_map, h]

end Shapes

namespace Grammar

variable {G G' : Grammar}

theorem Reweighted.cases (h : G.Reweighted G') (S : Sym) : (G.get? S = none ∧ G'.get? S = none) ∨
    ∃ alts alts', G.get? S = some alts ∧ G'.get? S = some alts' ∧ SameShape alts alts' := by
  have hS := congrArg (Map.get? · S) h
  simp only [Map.get?_mapValues] at hS
  cases hget : G.get? S with
  | none =>
    rw [hget] at hS
    exact Or.inl ⟨rfl, by simpa using hS⟩
  | some alts =>
    rw [hget] at hS
    obtain ⟨alts', hget', hshape⟩ := Option.map_eq_some_iff.mp hS
    exact Or.inr ⟨alts, alts', rfl, hget', hshape⟩

theorem Reweighted.trans {G'' : Grammar} (h : G.Reweighted G') (h' : G'.Reweighted G'') :
    G.Reweighted G'' := Eq.trans h' h

theorem Reweighted.keys_eq (h : G.Reweighted G') : G'.keys = G.keys := by
  simpa only [Map.keys_mapValues] using congrArg Map.keys h

theorem Reweighted.sameShape (h : G.Reweighted G') (S : Sym) :
    SameShape (G.alternatives S) (G'.alternatives S) := by
  rcases h.cases S with ⟨hget, hget'⟩ | ⟨alts, alts', hget, hget', hshape⟩
  · rw [alternatives, alternatives, hget, hget']
    rfl
  · rwa [alternatives, alternatives, hget, hget']

theorem sameShape_normalizeProb (exprList : List Alternative) :
    SameShape exprList (normalizeProb exprList) := by
  simp [SameShape, normalizeProb, Alternative.shape, Function.comp_def]

theorem reweighted_normalized (G : Grammar) : G.Reweighted G.normalized := by
  have hshape : ∀ alts, (normalizeProb alts).map Alternative.shape = alts.map Alternative.shape :=
    sameShape_normalizeProb
  simp only [Reweighted, normalized, Map.mapValues, List.map_map, Function.comp_def, hshape]

theorem reweighted_iterate (G : Grammar) (k : ℕ) : G.Reweighted (normalized^[k] G) := by
  induction k with
  | zero => rfl
  | succ k ih =>
    rw [Function.iterate_succ_apply']
    exact ih.trans (reweighted_normalized _)

variable (h : G.Reweighted G')

include h

theorem Reweighted.isNonterminal_eq (S : Sym) : G'.isNonterminal S = G.isNonterminal S := by
  rw [Bool.eq_iff_iff, isNonterminal_iff, isNonterminal_iff, h.keys_eq]

theorem Reweighted.occurs_eq (symbol : Sym) :
    (G'.values.any fun alts => alts.any fun a => symbol ∈ a.expansion) =
      G.values.any fun alts => alts.any fun a => symbol ∈ a.expansion := by
  have hiff : ∀ H : Grammar, (H.values.any fun alts => alts.any fun a => symbol ∈ a.expansion) = true ↔
      ∃ S, symbol ∈ ((H.alternatives S).map Alternative.expansion).flatten := by
    intro H
    simp only [List.any_eq_true, decide_eq_true_iff, List.mem_flatten, List.mem_map]
    constructor
    · rintro ⟨alts, halts, a, ha, hs⟩
      obtain ⟨S, hS⟩ := Map.exists_of_mem_values halts
      exact ⟨S, _, ⟨a, by rwa [alternatives_of_get? hS], rfl⟩, hs⟩
    · rintro ⟨S, _, ⟨a, ha, rfl⟩, hs⟩
      have hget := get?_of_mem_keys (mem_keys_of_mem_alternatives ha)
      exact ⟨_, Map.mem_values_of_get? hget, a, ha, hs⟩
  rw [Bool.eq_iff_iff, hiff, hiff]
  refine exists_congr fun S => ?_
  rw [(h.sameShape S).map_eq fun _ _ => rfl]

theorem Reweighted.isOneChild_eq (S : Sym) : G'.isOneChild S = G.isOneChild S := by
  rw [isOneChild, isOneChild]
  rcases h.cases S with ⟨hget, hget'⟩ | ⟨alts, alts', hget, hget', hshape⟩
  · rw [hget, hget']
  · simp [hget, hget', hshape.length_eq]

theorem Reweighted.dtToSequences_eq (order : IterationOrder (List Entry)) (tree : Tree) (fuel : ℕ) :
    dtToSequences G' order tree fuel = dtToSequences G order tree fuel := by
  have htrim : ∀ curSeq n pi, trim G' tree curSeq n pi = trim G tree curSeq n pi := by
    intro curSeq n
    induction n with
    | zero => exact fun _ => rfl
    | succ n ih =>
      intro pi
      simp only [trim, h.isOneChild_eq, ih]
  have hnode : extractNode G' tree = extractNode G tree := by
    funext node i seq
    simp only [extractNode, htrim]
  have hstep : extractStep G' tree = extractStep G tree := by
    funext s
    simp only [extractStep, hnode]
  simp only [dtToSequences, rawSequences, hstep]

theorem Reweighted.mergeRules_eq (order : MergeOrder) (rss : List RuleSet) :
    mergeRules G' order rss = mergeRules G order rss := by
  have hparents : parentSubpaths G' = parentSubpaths G := by
    funext s
    unfold parentSubpaths
    split_ifs with hlen
    · rcases h.cases (s.symbols.dropLast.getLast hlen) with
        ⟨hget, hget'⟩ | ⟨alts, alts', hget, hget', hshape⟩
      · rw [hget, hget']
      · rw [hget, hget', Option.map_some, Option.map_some]
        exact congrArg some (hshape.map_filter_eq (fun _ _ => rfl) fun _ _ => rfl)
    · rfl
  have hsubpath : mergeSubpath G' = mergeSubpath G := by
    funext stm acc item
    simp only [mergeSubpath, hparents]
    rcases h.cases item.2.lastSymbol with ⟨hget, hget'⟩ | ⟨alts, alts', hget, hget', hshape⟩
    · rw [hget, hget']
    · simp [hget, hget', hshape.length_eq]
  have hinter : mergeIntersection G' = mergeIntersection G := by
    funext order rss acc inter
    simp only [mergeIntersection, hsubpath]
  simp only [mergeRules, hinter]

end Grammar

namespace InputGenerator

def withGrammar (g : InputGenerator) (G : Grammar) : InputGenerator := { g with grammar := G }

@[simp] theorem withGrammar_grammar (g : InputGenerator) (G : Grammar) :
    (g.withGrammar G).grammar = G := rfl

@[simp] theorem withGrammar_tables (g : InputGenerator) (G : Grammar) :
    (g.withGrammar G).tables = g.tables := rfl

@[simp] theorem withGrammar_config (g : InputGenerator) (G : Grammar) :
    (g.withGrammar G).config = g.config := rfl

@[simp] theorem withGrammar_expansionCost (g : InputGenerator) (G : Grammar) :
    (g.withGrammar G).expansionCost = g.expansionCost := rfl

/-- The generator that `main` makes. -/
def normalized (g : InputGenerator) : InputGenerator := g.withGrammar g.grammar.normalized

variable {g : InputGenerator} {G : Grammar} (h : g.grammar.Reweighted G)

include h

theorem children_withGrammar : (g.withGrammar G).children = g.children := by
  have hnt : (g.withGrammar G).isNonterminal = g.isNonterminal := funext h.isNonterminal_eq
  funext depth idx expansion
  rw [children, children, hnt]

theorem selectMinimum_withGrammar (rnd : Choices) :
    (g.withGrammar G).selectMinimum rnd = g.selectMinimum rnd := by
  funext tree i symbol seen
  simp only [selectMinimum, expansionsToChildren_map, children_withGrammar h, withGrammar_grammar,
    withGrammar_tables, withGrammar_expansionCost]
  rcases h.cases symbol with ⟨hget, hget'⟩ | ⟨alts, alts', hget, hget', hshape⟩
  · simp only [hget, hget', Option.bind_eq_bind, Option.bind_none]
  · simp only [hget, hget', Option.bind_eq_bind, Option.bind_some,
      hshape.map_eq (F := fun a => g.children (tree.length - 1) i a.expansion) fun _ _ => rfl,
      hshape.map_eq (F := Alternative.derivNum) fun _ _ => rfl,
      hshape.map_eq (F := fun a => g.expansionCost symbol a.expansion) fun _ _ => rfl]

theorem selectGuided_withGrammar (rnd : Choices) (nextSymbol : Option Sym)
    (selectedSlot : Option ℕ) : (g.withGrammar G).selectGuided rnd nextSymbol selectedSlot =
      g.selectGuided rnd nextSymbol selectedSlot := by
  funext tree i symbol seen
  simp only [selectGuided, expansionsToChildren_map, children_withGrammar h, withGrammar_grammar,
    withGrammar_tables, withGrammar_config, withGrammar_expansionCost]
  rcases h.cases symbol with ⟨hget, hget'⟩ | ⟨alts, alts', hget, hget', hshape⟩
  · simp only [hget, hget', Option.bind_eq_bind, Option.bind_none]
  · simp only [hget, hget', Option.bind_eq_bind, Option.bind_some,
      hshape.map_eq (F := fun a => g.children (tree.length - 1) i a.expansion) fun _ _ => rfl,
      hshape.map_eq (F := Alternative.derivNum) fun _ _ => rfl,
      hshape.map_eq (F := fun a => g.expansionCost symbol a.expansion) fun _ _ => rfl,
      hshape.map_filter_eq (F := fun a => g.children (tree.length - 1) i a.expansion)
        (P := fun a => nextSymbol.any fun x => decide (x ∈ a.expansion)) (fun _ _ => rfl)
        fun _ _ => rfl,
      hshape.map_filter_eq (F := Alternative.derivNum)
        (P := fun a => nextSymbol.any fun x => decide (x ∈ a.expansion)) (fun _ _ => rfl)
        fun _ _ => rfl,
      hshape.map_filter_eq (F := fun a => g.expansionCost symbol a.expansion)
        (P := fun a => nextSymbol.any fun x => decide (x ∈ a.expansion)) (fun _ _ => rfl)
        fun _ _ => rfl]

theorem treeToString_withGrammar (getone : ℕ × ℕ → String → String) (depth : ℕ) (tree : Tree)
    (idx : ℕ) : (g.withGrammar G).treeToString getone depth tree idx =
      g.treeToString getone depth tree idx := by
  have hregex : (g.withGrammar G).isRegexTerminalOf = g.isRegexTerminalOf := by
    funext symbol
    rw [isRegexTerminalOf, isRegexTerminalOf, withGrammar_grammar, h.occurs_eq]
  have hleaf : (g.withGrammar G).renderLeaf = g.renderLeaf := by
    funext getone symbol
    simp only [renderLeaf, hregex]
  induction tree generalizing depth idx with
  | nil => rfl
  | cons level below ih => simp only [treeToString, hleaf, ih]

/-- Draws from graded weights that are zero in the same places can be exchanged. -/
theorem redraws_withGrammar (hgraded : g.grammar.Graded) (hgraded' : G.Graded)
    (hdraws : ∀ symbol (pool : List ℕ) j, pool.Sublist (List.range (g.grammar.weights symbol).length) → j ∈ pool →
      ((∀ i ∈ pool, (g.grammar.weights symbol).getD i 0 = 0) ∨
        (g.grammar.weights symbol).getD j 0 ≠ 0) →
      (∀ i ∈ pool, (G.weights symbol).getD i 0 = 0) ∨ (G.weights symbol).getD j 0 ≠ 0) :
    Redraws g.selectRandomly (g.withGrammar G).selectRandomly := by
  intro tree i symbol seen r
  rcases h.cases symbol with ⟨hget, hget'⟩ | ⟨alts, alts', hget, hget', hshape⟩
  · refine ⟨r, fun rnd rnd' _ _ => ?_⟩
    simp only [selectRandomly, withGrammar_grammar, hget, hget', Option.bind_eq_bind, Option.bind_none]
  · cases hprune : pruneChildren g.tables symbol tree (tree.length - 1, i) seen with
    | none =>
      refine ⟨r, fun rnd rnd' _ _ => ?_⟩
      simp only [selectRandomly, withGrammar_grammar, withGrammar_tables, hget, hget', hprune,
        Option.bind_eq_bind, Option.bind_some, Option.bind_none]
    | some toPrune =>
      have hprune' : pruneChildren (g.withGrammar G).tables symbol tree (tree.length - 1, i) seen =
        some toPrune := hprune
      have hweights : g.grammar.weights symbol = alts.map Alternative.prob := by
        rw [Grammar.weights, Grammar.alternatives_of_get? hget]
      have hweights' : G.weights symbol = alts'.map Alternative.prob := by
        rw [Grammar.weights, Grammar.alternatives_of_get? hget']
      have hrule := hgraded symbol
      have hrule' := hgraded' symbol
      have hdraws := hdraws symbol (drawPool (alts.map Alternative.derivNum) toPrune)
      rw [hweights] at hrule hdraws
      rw [hweights'] at hrule' hdraws
      have hsub : (drawPool (alts.map Alternative.derivNum) toPrune).Sublist
          (List.range (alts.map Alternative.prob).length) := by
        simpa using drawPool_sublist (alts.map Alternative.derivNum) toPrune
      obtain ⟨r', hr'⟩ := exists_same_draw hrule hrule' (by simp [hshape.length_eq]) hsub
        (fun j hj => hdraws j hsub hj) r
      refine ⟨r', fun rnd rnd' hrnd hrnd' => ?_⟩
      rw [selectRandomly_eq hget hprune, selectRandomly_eq hget' hprune', hrnd, hrnd',
        children_withGrammar h, hshape.map_eq (F := Alternative.derivNum) fun _ _ => rfl,
        hshape.map_eq (F := fun a => g.children (tree.length - 1) i a.expansion) fun _ _ => rfl, hr']

end InputGenerator

namespace TribbleGenerator

def withGrammar (g : TribbleGenerator) (G : Grammar) : TribbleGenerator :=
  { g with toInputGenerator := g.toInputGenerator.withGrammar G }

def normalized (g : TribbleGenerator) : TribbleGenerator := g.withGrammar g.grammar.normalized

variable {g : TribbleGenerator} {G : Grammar} (h : g.grammar.Reweighted G)

include h

theorem generateTree_withGrammar (rnd : Choices) (target : List Sym) (fuel : ℕ) :
    (g.withGrammar G).generateTree rnd target fuel = g.generateTree rnd target fuel := by
  have hguided : (g.withGrammar G).expandMinimumNodeGuided rnd = g.expandMinimumNodeGuided rnd := by
    funext nextSymbol selectedSlot st
    rw [InputGenerator.expandMinimumNodeGuided, InputGenerator.expandMinimumNodeGuided]
    exact congrArg (fun select => expandLevel g.tables select st)
      (InputGenerator.selectGuided_withGrammar h rnd nextSymbol selectedSlot)
  have hstep : (g.withGrammar G).guidedStep rnd target = g.guidedStep rnd target := by
    funext s
    rw [guidedStep, guidedStep, hguided]
  rw [generateTree, generateTree, hstep]
  rfl

theorem walk_withGrammar (tree : Tree) (uncovered : List (List Sym)) (fuel : ℕ) :
    (g.withGrammar G).walk tree uncovered fuel = g.walk tree uncovered fuel := by
  have hstart : (g.withGrammar G).walkStart tree = g.walkStart tree := by
    have hnt : (g.withGrammar G).isNonterminal = g.isNonterminal := funext h.isNonterminal_eq
    rw [walkStart, walkStart, hnt]
  rw [walk, walk, hstart]
  rfl

theorem generateInput_withGrammar (kPaths : List (List Sym)) (rnd : ℕ → RoundChoices) (fuel : ℕ) :
    (g.withGrammar G).generateInput kPaths rnd fuel = g.generateInput kPaths rnd fuel := by
  have htext : (g.withGrammar G).treeToString = g.treeToString := by
    funext getone depth tree idx
    exact InputGenerator.treeToString_withGrammar h getone depth tree idx
  have hround : (g.withGrammar G).round rnd fuel = g.round rnd fuel := by
    funext s
    simp only [round, generateTree_withGrammar h, walk_withGrammar h, htext]
    rfl
  rw [generateInput, generateInput, hround]

end TribbleGenerator

/-- No positive probability is negligible beside the others of its rule. -/
def Grammar.Balanced (G : Grammar) : Prop :=
  ∀ symbol, WeightedDraw.Balanced (2 ^ 40) (G.weights symbol)

instance (G : Grammar) : Decidable G.Balanced :=
  decidable_of_iff _ (Grammar.forall_weights_iff (balanced_nil (by norm_num))).symm

section Balance

variable {G : Grammar} {c : ℚ}

theorem Grammar.weights_normalized (S : Sym) : G.normalized.weights S = rescale (G.weights S) := by
  rw [weights, weights, alternatives, alternatives, normalized, Map.get?_mapValues]
  cases G.get? S with
  | none => rfl
  | some alts =>
    simp only [Option.map_some, Option.getD_some, normalizeProb, rescale, List.map_map,
      Function.comp_def, rescaled, List.length_map]

theorem Grammar.weights_iterate (S : Sym) (k : ℕ) :
    (Grammar.normalized^[k] G).weights S = rescale^[k] (G.weights S) := by
  induction k with
  | zero => rfl
  | succ k ih =>
    rw [Function.iterate_succ_apply', Function.iterate_succ_apply', weights_normalized, ih]

theorem Grammar.Balanced.iterate (h : G.Balanced) {k : ℕ} (hk : k ≤ 2 ^ 50) (S : Sym) :
    WeightedDraw.Balanced (2 ^ 42) ((Grammar.normalized^[k] G).weights S) := by
  have hcast : (k : ℚ) ≤ 2 ^ 50 := by exact_mod_cast hk
  rw [weights_iterate]
  exact ((h S).iterate hk).mono (by linarith)

theorem graded_of_balanced (h : ∀ S, WeightedDraw.Balanced (2 ^ 42) (G.weights S)) : G.Graded :=
  fun S => ⟨(h S).summable le_rfl, fun _ hw => or_iff_not_imp_left.mpr ((h S).noticeable le_rfl hw)⟩

theorem draws_rescale_iff {weights : List ℚ} (h : WeightedDraw.Balanced (2 ^ 42) weights) {pool : List ℕ}
    {j : ℕ} (hsub : pool.Sublist (List.range weights.length)) (hj : j ∈ pool) :
    ((∀ i ∈ pool, (rescale weights).getD i 0 = 0) ∨ (rescale weights).getD j 0 ≠ 0) ↔
      (∀ i ∈ pool, weights.getD i 0 = 0) ∨ weights.getD j 0 ≠ 0 := by
  have hget : ∀ i ∈ pool, weights.getD i 0 ∈ weights ∧
      (rescale weights).getD i 0 = rescaled weights (weights.getD i 0) := by
    intro i hi
    have hlt : i < weights.length := by simpa using hsub.subset hi
    simp [List.getD, rescale, hlt]
  rcases h.rescaled_zero le_rfl with ⟨-, hsame⟩ | hall
  · have hiff : ∀ i ∈ pool, (rescale weights).getD i 0 = 0 ↔ weights.getD i 0 = 0 := fun i hi => by
      rw [(hget i hi).2]
      exact hsame _ (hget i hi).1
    exact or_congr (forall₂_congr hiff) (hiff j hj).not
  · have hleft : ∀ i ∈ pool, weights.getD i 0 = 0 := fun i hi => (hall _ (hget i hi).1).1
    have hright : (rescale weights).getD j 0 ≠ 0 := by
      rw [(hget j hj).2]
      exact (hall _ (hget j hj).1).2
    exact ⟨fun _ => Or.inl hleft, fun _ => Or.inr hright⟩

end Balance

theorem Redrawn.generateInput {g g' : InputGenerator} (h : Redrawn g g')
    (htext : ∀ getone depth tree idx,
      g'.treeToString getone depth tree idx = g.treeToString getone depth tree idx)
    (rnd : ℕ → Choices) (getone : ℕ → ℕ × ℕ → String → String) (fuel num : ℕ) :
    ∃ rnd', g'.generateInput rnd' getone fuel num = g.generateInput rnd getone fuel num := by
  choose rnd' hrnd' using fun i => h.generateTree (rnd i) fuel
  exact ⟨rnd', by simp only [InputGenerator.generateInput, hrnd', htext]⟩

theorem redraws_minimum {g g' : InputGenerator}
    (h : ∀ rnd, g'.selectMinimum rnd = g.selectMinimum rnd) :
    Redraws g.selectMinimum g'.selectMinimum := by
  refine fun tree i symbol seen r => ⟨r, fun rnd rnd' hrnd hrnd' => ?_⟩
  rw [h]
  simp only [InputGenerator.selectMinimum, hrnd, hrnd']

/-- One more normalisation: what is written is written before and after. -/
theorem redrawn_normalized (g : InputGenerator)
    (h : ∀ S, WeightedDraw.Balanced (2 ^ 42) (g.grammar.weights S))
    (h' : ∀ S, WeightedDraw.Balanced (2 ^ 42) (g.normalized.grammar.weights S)) :
    Redrawn g g.normalized ∧ Redrawn g.normalized g := by
  have hshape := g.grammar.reweighted_normalized
  have hback : g.normalized.grammar.Reweighted g.grammar := Eq.symm hshape
  have hminimum := InputGenerator.selectMinimum_withGrammar hshape
  have hweights : ∀ S, g.normalized.grammar.weights S = rescale (g.grammar.weights S) :=
    fun S => Grammar.weights_normalized S
  have hlen : ∀ S, (rescale (g.grammar.weights S)).length = (g.grammar.weights S).length :=
    fun S => List.length_map ..
  refine ⟨⟨rfl, rfl, ?_, redraws_minimum hminimum⟩,
    ⟨rfl, rfl, ?_, redraws_minimum fun rnd => (hminimum rnd).symm⟩⟩
  · refine InputGenerator.redraws_withGrammar hshape (graded_of_balanced h) (graded_of_balanced h')
      fun S pool j hsub hj => ?_
    rw [Grammar.weights_normalized]
    exact (draws_rescale_iff (h S) hsub hj).mpr
  · refine InputGenerator.redraws_withGrammar (g := g.normalized) hback (graded_of_balanced h')
      (graded_of_balanced h) fun S pool j hsub hj => ?_
    rw [hweights]
    rw [hweights, hlen] at hsub
    exact (draws_rescale_iff (h S) hsub hj).mp

/-- On probabilities that are balanced, a dictionary normalised any number of times writes the same
    inputs, if for other random numbers; nothing else of either generator, no tree read off and no
    rule merged depends on whether and how often it was normalised. -/
theorem normalization_invisible (G : Grammar) (hbalanced : G.Balanced) (k : ℕ) (hk : k ≤ 2 ^ 50) :
    (∀ depthsDict config tables getone fuel num,
      (∀ rnd, ∃ rnd', (InputGenerator.mk (Grammar.normalized^[k] G) depthsDict config
          tables).generateInput rnd' getone fuel num =
        (InputGenerator.mk G depthsDict config tables).generateInput rnd getone fuel num) ∧
      ∀ rnd', ∃ rnd, (InputGenerator.mk G depthsDict config tables).generateInput rnd getone fuel num =
        (InputGenerator.mk (Grammar.normalized^[k] G) depthsDict config
          tables).generateInput rnd' getone fuel num) ∧
    (∀ depthsDict config tables prefixDict kValue kPaths rnd fuel,
      (TribbleGenerator.mk ⟨Grammar.normalized^[k] G, depthsDict, config, tables⟩ prefixDict
          kValue).generateInput kPaths rnd fuel =
        (TribbleGenerator.mk ⟨G, depthsDict, config, tables⟩ prefixDict kValue).generateInput
          kPaths rnd fuel) ∧
    (∀ order tree fuel, dtToSequences (Grammar.normalized^[k] G) order tree fuel =
      dtToSequences G order tree fuel) ∧
    ∀ order rss, mergeRules (Grammar.normalized^[k] G) order rss = mergeRules G order rss := by
  have hshape := G.reweighted_iterate k
  refine ⟨fun depthsDict config tables getone fuel num => ?_, fun _ _ _ _ _ kPaths rnd fuel => ?_,
    hshape.dtToSequences_eq, hshape.mergeRules_eq⟩
  · clear hshape
    induction k with
    | zero => exact ⟨fun rnd => ⟨rnd, rfl⟩, fun rnd => ⟨rnd, rfl⟩⟩
    | succ k ih =>
      obtain ⟨hforth, hback⟩ := ih (by omega)
      have hlast := hbalanced.iterate hk
      rw [Function.iterate_succ_apply'] at hlast ⊢
      obtain ⟨hto, hfrom⟩ := redrawn_normalized
        ⟨Grammar.normalized^[k] G, depthsDict, config, tables⟩ (hbalanced.iterate (by omega)) hlast
      have htext := InputGenerator.treeToString_withGrammar
        (g := ⟨Grammar.normalized^[k] G, depthsDict, config, tables⟩) (Grammar.reweighted_normalized _)
      constructor
      · intro rnd
        obtain ⟨rnd₁, h₁⟩ := hforth rnd
        obtain ⟨rnd₂, h₂⟩ := hto.generateInput htext rnd₁ getone fuel num
        exact ⟨rnd₂, h₂.trans h₁⟩
      · intro rnd'
        obtain ⟨rnd₁, h₁⟩ := hfrom.generateInput (fun getone depth tree idx =>
          (htext getone depth tree idx).symm) rnd' getone fuel num
        obtain ⟨rnd₂, h₂⟩ := hback rnd₁
        exact ⟨rnd₂, h₂.trans h₁⟩
  · exact TribbleGenerator.generateInput_withGrammar (g := ⟨⟨G, _, _, _⟩, _, _⟩) hshape kPaths rnd fuel

def weightedGrammar : Grammar :=
  ⟨[("list", [⟨["item", "list"], 0, 3⟩, ⟨["item"], 1, 1⟩]), ("item", [⟨["'a'"], 0, 0⟩, ⟨["'b'"], 1, 0⟩])],
    by decide⟩

theorem normalization_invisible_weighted :
    weightedGrammar.normalized.weights "list" = [3 / 4, 1 / 4] ∧
    weightedGrammar.normalized.weights "item" = [1 / 2, 1 / 2] ∧
    ∀ getone fuel num rnd, ∃ rnd',
      (InputGenerator.mk (Grammar.normalized^[1000] weightedGrammar) Map.empty ⟨"list", 9⟩
          Tables.empty).generateInput rnd' getone fuel num =
        (InputGenerator.mk weightedGrammar Map.empty ⟨"list", 9⟩ Tables.empty).generateInput
          rnd getone fuel num := by
  refine ⟨by decide +kernel, by decide +kernel, fun getone fuel num rnd => ?_⟩
  exact ((normalization_invisible weightedGrammar (by decide +kernel) 1000 (by norm_num)).1
    Map.empty ⟨"list", 9⟩ Tables.empty getone fuel num).1 rnd

end RSFuzz
