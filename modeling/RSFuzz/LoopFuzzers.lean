import RSFuzz.CaptureLoop
import RSFuzz.TribbleMain

set_option autoImplicit false

/-!
# The generators in the loop

Both base fuzzers complete every tree they write, for all tables, and so can
take the place of the fuzzer in the loop of the capture phase.
-/
namespace RSFuzz
open OrderedMap OptionFold Fuel

theorem generateTree_settled (g : InputGenerator) (rnd : Choices) : Settled (g.generateTree rnd) :=
  (settled_while _ _ _).bind fun _ => (settled_while _ _ _).bind fun _ => .const _

/-- The random and the probabilistic generator, on weights that `random.choices` takes: one tree for
    each element of `draws`. -/
def plainFuzzer (g : InputGenerator) (hprod : g.grammar.Productive) (hdraw : g.grammar.Drawable)
    (hkeys : g.config.startRule ∈ g.grammar.keys)
    (hd : DepthTable.ExactTable g.grammar g.depthsDict) :
    BaseFuzzer g.grammar g.config.startRule where
  Draws := List Choices
  batch t draws fuel := draws.mapM fun rnd =>
    (InputGenerator.generateTree { g with tables := t } rnd fuel).map GenState.tree
  produces := by
    intro t draws fuel trees hrun tree htree
    obtain ⟨rnd, -, hrnd⟩ := (mem_mapM_iff hrun tree).mp htree
    obtain ⟨st, hst, rfl⟩ := Option.map_eq_some_iff.mp hrnd
    exact ⟨{ g with tables := t }, st, rfl, rfl, rfl, .plain hst, rfl⟩
  settled := fun t draws => .mapM (fun rnd => (generateTree_settled _ rnd).map _) draws
  returns := by
    intro t draws
    obtain ⟨trees, htrees, -⟩ := exists_mapM (P := fun _ => True)
      (f := fun rnd => (InputGenerator.generateTree { g with tables := t } rnd
        (1 + g.config.maxDepths + g.grammar.maxMinHeight)).map GenState.tree) draws fun rnd _ => by
      obtain ⟨st, hst, -⟩ := InputGenerator.generateTree_returns
        (g := { g with tables := t }) hprod hdraw hkeys hd rnd _ le_rfl
      exact ⟨st.tree, by rw [hst, Option.map_some], trivial⟩
    exact ⟨_, trees, htrees⟩

/-- The k-path generator: `draws` are the rounds' random numbers, call by call, and the number of
    inputs asked for. -/
def tribbleFuzzer (g : TribbleGenerator) (kPaths : List (List Sym)) (hne : kPaths ≠ [])
    (htable : g.PathTable kPaths) (hprod : g.grammar.Productive)
    (hkeys : g.config.startRule ∈ g.grammar.keys)
    (hd : DepthTable.ExactTable g.grammar g.depthsDict) :
    BaseFuzzer g.grammar g.config.startRule where
  Draws := (ℕ → ℕ → RoundChoices) × ℕ
  batch t draws fuel :=
    (TribbleGenerator.main { g with tables := t } kPaths draws.1 draws.2 fuel).map
      (List.map Prod.snd)
  produces := by
    intro t draws fuel trees hrun tree htree
    obtain ⟨inputs, hinputs, rfl⟩ := Option.map_eq_some_iff.mp hrun
    obtain ⟨input, hinput, rfl⟩ := List.mem_map.mp htree
    obtain ⟨st, hst, he⟩ := TribbleGenerator.main_produces hinputs input hinput
    exact ⟨{ g with tables := t }.toInputGenerator, st, rfl, rfl, rfl, hst, he⟩
  settled := fun t draws =>
    (TribbleGenerator.main_settled { g with tables := t } kPaths draws.1 draws.2).map _
  returns := by
    intro t draws
    obtain ⟨fuel, batches, hrun, -⟩ := TribbleGenerator.main_returns
      (g := { g with tables := t }) hprod hkeys hd hne ⟨htable.chain, htable.prefixes⟩ draws.1 draws.2
    exact ⟨fuel, _, by rw [hrun, Option.map_some]⟩

def sampleFuzzer : BaseFuzzer sampleGrammar "list" :=
  plainFuzzer sampleGenerator sampleGrammar_productive (Grammar.Summable.drawable (by decide +kernel))
    (by decide)
    (DepthTable.calculateDepths_exactTable sampleGrammar_productive.hasAlternatives
      (by decide +kernel : calculateDepths sampleGrammar 10 = some sampleGenerator.depthsDict))

end RSFuzz
