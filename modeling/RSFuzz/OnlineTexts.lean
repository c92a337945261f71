import RSFuzz.GrammarFiles
import RSFuzz.TestPhase

set_option autoImplicit false

/-!
# The inputs of both phases

Whatever rules the capture phase finds, and whatever tables the inputs of either
phase are generated with, their texts stay within the language of the grammar
file, and are texts that could have been written without rules.
-/
namespace RSFuzz
open OrderedMap OptionFold Fuel ClusterTables

/-- Every generator of the grammar writes the tree as a word of the grammar's language. -/
def Grammar.Spelled (G : Grammar) (start : Sym) (exrex : ℕ → String → String) (tree : Tree) : Prop :=
  ∀ g : InputGenerator, g.grammar = G → g.config.startRule = start → ∀ draw : ℕ × ℕ → ℕ,
    ∃ text, g.treeToString (fun pos => exrex (draw pos)) 0 tree 0 = some text ∧
      ∃ w ∈ (G.toCFG start).language, Spells exrex w text

theorem Grammar.spelled_of_generated {G : Grammar} {start : Sym} (hstart : start ∈ G.keys)
    {item : CsvInput} (hitem : item.GeneratedFrom G start) (exrex : ℕ → String → String) :
    G.Spelled start exrex item.tree := by
  rintro g rfl rfl draw
  obtain ⟨g', st, hgrammar, hrule, hst, htree⟩ := hitem
  obtain ⟨hinv, hclosed⟩ := hst.closed (hgrammar ▸ hrule ▸ hstart)
  have hw : WellFormed g.grammar g.config.startRule st.tree := by
    rw [← hgrammar, ← hrule]
    exact hinv.wellFormed
  obtain ⟨t, hder, ht, hsym⟩ := hw.exists_root_derivation hclosed
  rw [htree]
  refine ⟨_, InputGenerator.treeToString_leaves hstart hw hclosed hder ht hsym draw, t.yield,
    (mem_language_iff hstart).mpr ⟨t, ht, hsym, rfl⟩, _, ?_, rfl⟩
  rw [List.length_map, ← hder.leaves_eq_yield, List.length_map]
  rfl

section Runs

variable {G : Grammar} {start : Sym} {fuzzer : BaseFuzzer G start} {h : Hashes} {fuel : ℕ}
  {first : LoopIteration fuzzer} {its : List (LoopIteration fuzzer)}
  {testFirst : TestIteration fuzzer} {testIts : List (TestIteration fuzzer)}

/-- The tree was in the test case directory in some iteration of one of the phases. -/
def OnlineInput (h : Hashes) (fuel : ℕ) (first : LoopIteration fuzzer)
    (its : List (LoopIteration fuzzer)) (testFirst : TestIteration fuzzer)
    (testIts : List (TestIteration fuzzer)) (tree : Tree) : Prop :=
  (∃ item, WrittenIn h fuel first its item ∧ item.tree = tree) ∨
    ∃ earlier s ts, earlier <+: testIts ∧
      runOnline h fuel first its testFirst earlier = some (s, ts) ∧ tree ∈ ts.trees

theorem loopRun_generated {s : LoopState} (hrun : loopRun h fuel first its = some s) :
    ∀ item ∈ s.capture.batch, item.GeneratedFrom G start := by
  induction its using List.reverseRecOn with
  | nil =>
    obtain ⟨s₀, h₀, hloop⟩ := Option.bind_eq_some_iff.mp hrun
    obtain rfl := Option.some.inj hloop
    intro item hitem
    exact ((LoopOk.initial (h := h) h₀).generated item hitem).generatedFrom
  | append_singleton its it ih =>
    obtain ⟨s₁, -, hstep⟩ := loopRun_concat hrun
    obtain ⟨trees, -, htrees, hrules, -⟩ := loopStep_eq hstep
    simp only [ruleStep, Option.bind_eq_bind, Option.pure_def] at hrules
    obtain ⟨rules, -, hrules⟩ := Option.bind_eq_some_iff.mp hrules
    obtain ⟨capture, hcapture, hrules⟩ := Option.bind_eq_some_iff.mp hrules
    obtain ⟨rfl, -⟩ := Prod.mk.inj (Option.some.inj hrules)
    obtain ⟨_, _, _, _, _, -, -, -, hc⟩ := captureStep_eq hcapture
    rw [hc]
    exact fun item hitem => (batch_generated htrees item hitem).generatedFrom

theorem testLoop_batch {t : Tables} {totalCoverage : Option (List Bool)} {ts : TestLoopState}
    (hrun : testLoop t totalCoverage fuel testFirst testIts = some ts) :
    ∃ draws, fuzzer.batch t draws fuel = some ts.trees := by
  induction testIts using List.reverseRecOn with
  | nil =>
    obtain ⟨ts₀, h₀, hloop⟩ := Option.bind_eq_some_iff.mp hrun
    obtain rfl := Option.some.inj hloop
    simp only [testLoopInit, Option.bind_eq_bind, Option.pure_def] at h₀
    obtain ⟨trees, htrees, h₀⟩ := Option.bind_eq_some_iff.mp h₀
    obtain ⟨test, -, h₀⟩ := Option.bind_eq_some_iff.mp h₀
    obtain rfl := Option.some.inj h₀
    exact ⟨_, htrees⟩
  | append_singleton testIts it ih =>
    obtain ⟨ts₀, -, hloop⟩ := Option.bind_eq_some_iff.mp hrun
    obtain ⟨ts₁, -, hstep⟩ := foldlM_concat hloop
    simp only [testLoopStep, Option.bind_eq_bind, Option.pure_def] at hstep
    obtain ⟨trees, htrees, hstep⟩ := Option.bind_eq_some_iff.mp hstep
    obtain ⟨test, -, hstep⟩ := Option.bind_eq_some_iff.mp hstep
    obtain rfl := Option.some.inj hstep
    exact ⟨_, htrees⟩

theorem OnlineInput.spelled (hstart : start ∈ G.keys) {tree : Tree}
    (hin : OnlineInput h fuel first its testFirst testIts tree) (exrex : ℕ → String → String) :
    G.Spelled start exrex tree := by
  rcases hin with ⟨item, ⟨earlier, s, -, hrun, hitem⟩, rfl⟩ | ⟨earlier, s, ts, -, hrun, htree⟩
  · exact Grammar.spelled_of_generated hstart (loopRun_generated hrun item hitem) exrex
  · obtain ⟨-, t, -, hphase⟩ := runOnline_eq hrun
    obtain ⟨draws, hbatch⟩ := testLoop_batch hphase
    obtain ⟨g, st, hgrammar, hrule, -, hst, htree⟩ := fuzzer.produces t draws fuel _ hbatch tree htree
    have hgenerated : CsvInput.GeneratedFrom G start ⟨tree, IterationOrder.listed, []⟩ :=
      ⟨g, st, hgrammar, hrule, hst, htree⟩
    exact Grammar.spelled_of_generated hstart hgenerated exrex

end Runs

/-- Every input of a run, in either phase, is written as a word of the grammar that the file prints,
    and as a text that some call without rules writes, however often main has normalised the
    probabilities before. -/
theorem online_texts_in_language (decode : Text → Option Text) (float : Text → Option ℚ)
    (lines : List Text) (start : PrintedRule) (rules : List PrintedRule)
    (hlines : IsPrinted decode lines (start :: rules))
    (hnames : ((start :: rules).map PrintedRule.name).Nodup)
    (heven : ∀ rule ∈ start :: rules, rule.Even float) :
    ∃ pcfg, parseBnf decode splitWords float lines = some pcfg ∧
      ∀ (G : Grammar), (grammarOf pcfg).Reweighted G →
      ∀ (fuzzer : BaseFuzzer G (String.ofList start.name)) (h : Hashes)
        (fuel : ℕ) (first : LoopIteration fuzzer) (its : List (LoopIteration fuzzer))
        (testFirst : TestIteration fuzzer) (testIts : List (TestIteration fuzzer)) (tree : Tree),
        OnlineInput h fuel first its testFirst testIts tree →
          ∀ g : InputGenerator, g.grammar = G →
            g.config.startRule = String.ofList start.name →
            ∀ (exrex : ℕ → String → String) (draw : ℕ × ℕ → ℕ), ∃ text,
              g.treeToString (fun pos => exrex (draw pos)) 0 tree 0 = some text ∧
              (∃ w ∈ (fileGrammar (start :: rules) start).language, Spells exrex w text) ∧
              ∀ (k : ℕ), 0 < k → k ≤ 2 ^ 50 → ∀ depthsDict : DepthsDict, ∃ maxDepths,
                InputGenerator.Writes ⟨Grammar.normalized^[k] (grammarOf pcfg), depthsDict,
                  ⟨String.ofList start.name, maxDepths⟩, Tables.empty⟩ exrex text := by
  obtain ⟨pcfg, hrun, hreads⟩ :=
    parseBnf_reads hlines (fun rule hrule => (heven rule hrule).floats) hnames
  have hkeys : (grammarOf pcfg).keys.head? = some (String.ofList start.name) := by
    rw [keys_grammarOf, hreads.keys]
    rfl
  refine ⟨pcfg, hrun, ?_⟩
  intro G hshape fuzzer h fuel first its testFirst testIts tree hin g hgrammar hrule exrex draw
  have hstart : String.ofList start.name ∈ G.keys := by
    rw [hshape.keys_eq]
    exact List.mem_of_mem_head? hkeys
  obtain ⟨text, htext, hword⟩ := hin.spelled hstart exrex g hgrammar hrule draw
  rw [hshape.toCFG_eq] at hword
  refine ⟨text, htext, hreads.toCFG_eq start ▸ hword, fun k hpos hk depthsDict => ?_⟩
  exact (exists_writes_normalized_iff (hreads.even heven) depthsDict hkeys hpos hk exrex text).mpr
    hword

def pairGrammar : Grammar :=
  ⟨[("pair", [⟨["\"f\"", " ", "|", "x"], 0, 6004799503160661 / 2 ^ 54⟩,
    ⟨["x"], 1, 6004799503160661 / 2 ^ 53⟩])], by decide⟩

def pairGenerator : InputGenerator where
  grammar := pairGrammar
  depthsDict := ⟨[("pair", ([(["\"f\"", " ", "|", "x"], 0), (["x"], 0)], 1))], by decide⟩
  config := ⟨String.ofList sampleRule.name, 1⟩
  tables := Tables.empty

theorem pairGrammar_productive : pairGrammar.Productive := by
  have hpair : Derives pairGrammar (.node "pair" 1 [.leaf "x"]) :=
    .node (show ⟨["x"], 1, 6004799503160661 / 2 ^ 53⟩ ∈ pairGrammar.alternatives "pair" by decide +kernel) rfl rfl (by
      intro t ht
      obtain rfl := List.mem_singleton.mp ht
      exact .leaf (by decide))
  intro N hN
  obtain rfl : N = "pair" := by simpa [pairGrammar, Map.keys] using hN
  exact ⟨_, hpair, rfl, by decide⟩

def pairFuzzer : BaseFuzzer pairGrammar (String.ofList sampleRule.name) :=
  plainFuzzer pairGenerator pairGrammar_productive (Grammar.Summable.drawable (by decide +kernel))
    (by decide)
    (DepthTable.calculateDepths_exactTable pairGrammar_productive.hasAlternatives
      (by decide +kernel : calculateDepths pairGrammar 10 = some pairGenerator.depthsDict))

def pairSequences : List Sequence := [⟨["pair"], 0, by decide⟩]

noncomputable def pairOrder : RuleOrder where
  list rs := if rs = pairSequences.toFinset then pairSequences else rs.toList
  perm := by
    intro rs
    split_ifs with h
    · rw [h]
      rfl
    · exact Multiset.coe_toList rs.val

noncomputable def pairIteration : LoopIteration pairFuzzer where
  draws := [⟨fun _ _ => 0, fun _ => 0⟩]
  order := fun _ => IterationOrder.listed
  fileCov := fun _ => [true, false]
  report := .cprog [0]
  cov := [true, false]
  update := listedUpdate
  ruleOrder := pairOrder

def pairTest : TestIteration pairFuzzer where
  draws := [⟨fun _ _ => 0, fun _ => 0⟩]
  report := .cprog [0]
  cov := [false, true]

theorem pair_runOnline : ∃ s ts, runOnline ClusterTables.sampleHashes 9 pairIteration [pairIteration]
    pairTest [] = some (s, ts) ∧
    s.rules.recurrentSequences.entries = [(0, [pairSequences.toFinset])] ∧ ts.trees.length = 1 := by
  have hrun : (runOnline ClusterTables.sampleHashes 9 pairIteration [pairIteration] pairTest []).map
      (fun r => (r.1.rules.recurrentSequences.entries, r.2.trees.length)) =
        some ([(0, [pairSequences.toFinset])], 1) := by decide +kernel
  obtain ⟨⟨s, ts⟩, honline, heq⟩ := Option.map_eq_some_iff.mp hrun
  obtain ⟨hrules, htrees⟩ := Prod.mk.inj heq
  exact ⟨s, ts, honline, hrules, htrees⟩

/-- The first alternative is captured, and the test phase writes it again. -/
theorem online_texts_in_language_sample : ∃ s ts,
    runOnline ClusterTables.sampleHashes 9 pairIteration [pairIteration] pairTest [] = some (s, ts) ∧
    s.rules.recurrentSequences.entries = [(0, [pairSequences.toFinset])] ∧ ts.trees.length = 1 ∧
    ∀ tree ∈ ts.trees, ∀ (exrex : ℕ → String → String) (draw : ℕ × ℕ → ℕ), ∃ text,
      pairGenerator.treeToString (fun pos => exrex (draw pos)) 0 tree 0 = some text ∧
      ∃ w ∈ (fileGrammar [sampleRule] sampleRule).language, Spells exrex w text := by
  obtain ⟨s, ts, hrun, hrules, htrees⟩ := pair_runOnline
  refine ⟨s, ts, hrun, hrules, htrees, fun tree htree exrex draw => ?_⟩
  obtain ⟨pcfg, hparse, hall⟩ := online_texts_in_language some sampleFloat
    [['\n'], sampleRule.text] sampleRule [] rfl (by decide) (by
      intro rule hrule
      obtain rfl := List.mem_singleton.mp hrule
      exact sampleRule_even)
  have hread : (parseBnf some splitWords sampleFloat [['\n'], sampleRule.text]).map
      (fun pcfg => (grammarOf pcfg).normalized.entries) = some pairGrammar.entries := by
    decide +kernel
  rw [hparse, Option.map_some, Option.some.injEq] at hread
  have hgrammar : (grammarOf pcfg).normalized = pairGrammar := by
    cases hpcfg : (grammarOf pcfg).normalized
    rw [hpcfg] at hread
    subst hread
    rfl
  have hshape := (grammarOf pcfg).reweighted_normalized
  rw [hgrammar] at hshape
  have hin : OnlineInput ClusterTables.sampleHashes 9 pairIteration [pairIteration] pairTest [] tree :=
    Or.inr ⟨[], s, ts, List.prefix_rfl, hrun, htree⟩
  obtain ⟨text, htext, hword, -⟩ := hall pairGrammar hshape pairFuzzer _ _ _ _ _ _ tree
    hin pairGenerator rfl rfl exrex draw
  exact ⟨text, htext, hword⟩

end RSFuzz
