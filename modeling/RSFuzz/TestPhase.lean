import RSFuzz.LoopInvariant

set_option autoImplicit false

/-!
# From the capture phase to the test phase

`runRSFuzz.py` stops the capture phase after some iteration and starts
`runFuzzer.py` on the files it left: the tables for the generator and the
coverage so far.
-/
namespace RSFuzz
open OrderedMap OptionFold Fuel ClusterTables

structure TestIteration {G : Grammar} {start : Sym} (fuzzer : BaseFuzzer G start) where
  draws : fuzzer.Draws
  report : Report
  cov : List Bool

/-- `trees` are those of the inputs in the test case directory. -/
structure TestLoopState where
  test : TestState
  trees : List Tree

section TestPhase

variable {G : Grammar} {start : Sym} {fuzzer : BaseFuzzer G start}

def TestIteration.iteration (it : TestIteration fuzzer) : Iteration := ⟨[], it.report, it.cov⟩

def testLoopInit (t : Tables) (totalCoverage : Option (List Bool)) (fuel : ℕ)
    (first : TestIteration fuzzer) : Option TestLoopState := do
  let trees ← fuzzer.batch t first.draws fuel
  let test ← testInit totalCoverage first.iteration
  return ⟨test, trees⟩

def testLoopStep (t : Tables) (fuel : ℕ) (s : TestLoopState) (it : TestIteration fuzzer) :
    Option TestLoopState := do
  let trees ← fuzzer.batch t it.draws fuel
  let test ← testStep s.test it.iteration
  return ⟨test, trees⟩

def testLoop (t : Tables) (totalCoverage : Option (List Bool)) (fuel : ℕ)
    (first : TestIteration fuzzer) (its : List (TestIteration fuzzer)) : Option TestLoopState :=
  (testLoopInit t totalCoverage fuel first).bind fun s => its.foldlM (testLoopStep t fuel) s

/-- `run_rsfuzz_online`: both phases, each stopped between two iterations. The test phase opens
    `recurrent_sequences.pickle` first. -/
def runOnline (h : Hashes) (fuel : ℕ) (first : LoopIteration fuzzer)
    (its : List (LoopIteration fuzzer)) (testFirst : TestIteration fuzzer)
    (testIts : List (TestIteration fuzzer)) : Option (LoopState × TestLoopState) := do
  let s ← loopRun h fuel first its
  let recurrentSequences ← s.file
  let ts ← testLoop recurrentSequences s.capture.coverage.totalCoverage fuel testFirst testIts
  return (s, ts)

theorem startCoverage_spec {totalCov cov : List Bool}
    (hlen : totalCov ≠ [] → totalCov.length = cov.length) :
    ∃ total, startCoverage totalCov cov = some total ∧ total.length = cov.length ∧
      covered total = covered totalCov ∪ covered cov := by
  rw [startCoverage]
  split_ifs with hzero
  · obtain rfl := List.length_eq_zero_iff.mp hzero
    refine ⟨cov, rfl, rfl, ?_⟩
    simp [covered]
  · have heq := hlen fun hnil => hzero (by rw [hnil]; rfl)
    refine ⟨_, orInto_of_length_eq heq fun hnil => hzero (by rw [hnil]; rfl), ?_,
      covered_zipWith_or heq⟩
    rw [List.length_zipWith, heq, Nat.min_self]

theorem addCoverage_spec {totalCov cov : List Bool} (hlen : totalCov.length = cov.length) :
    ∃ total, addCoverage totalCov cov = some total ∧ total.length = cov.length ∧
      covered total = covered totalCov ∪ covered cov := by
  rw [addCoverage]
  split_ifs with hne
  · refine ⟨_, orInto_of_length_eq hlen fun hnil => hne (by rw [← hlen, hnil]; rfl), ?_,
      covered_zipWith_or hlen⟩
    rw [List.length_zipWith, hlen, Nat.min_self]
  · obtain rfl := List.length_eq_zero_iff.mp (not_not.mp hne)
    refine ⟨totalCov, rfl, hlen, ?_⟩
    simp [covered]

structure TestOk (G : Grammar) (start : Sym) (t : Tables) (resumed : List Bool)
    (first : TestIteration fuzzer) (done : List (TestIteration fuzzer)) (s : TestLoopState) :
    Prop where
  length : s.test.totalCov.length = first.cov.length
  total : covered s.test.totalCov =
    covered resumed ∪ covered first.cov ∪ ⋃ it ∈ done, covered it.cov
  file : done ≠ [] → s.test.totalCoverageTesting = some s.test.totalCov
  generated : ∀ tree ∈ s.trees, ∃ (g : InputGenerator) (st : GenState), g.grammar = G ∧
    g.config.startRule = start ∧ g.tables = t ∧ g.Produces st ∧ tree = st.tree

variable {t : Tables} {totalCoverage : Option (List Bool)} {first : TestIteration fuzzer}

theorem testLoop_settled (t : Tables) (totalCoverage : Option (List Bool))
    (first : TestIteration fuzzer) (its : List (TestIteration fuzzer)) :
    Settled fun fuel => testLoop t totalCoverage fuel first its := by
  have hinit : Settled fun fuel => testLoopInit t totalCoverage fuel first :=
    (fuzzer.settled t first.draws).bind fun _ => .const _
  have hstep : ∀ s (it : TestIteration fuzzer), Settled fun fuel => testLoopStep t fuel s it :=
    fun s it => (fuzzer.settled t it.draws).bind fun _ => .const _
  exact hinit.bind fun s => .foldlM hstep its s

theorem testLoop_returns (t : Tables) (totalCoverage : Option (List Bool))
    (hreport : first.report.NonEmpty)
    (hresumed : resumeCoverage totalCoverage ≠ [] →
      (resumeCoverage totalCoverage).length = first.cov.length)
    {its : List (TestIteration fuzzer)}
    (hits : ∀ it ∈ its, it.report.NonEmpty ∧ it.cov.length = first.cov.length) :
    ∃ fuel s, testLoop t totalCoverage fuel first its = some s ∧
      TestOk G start t (resumeCoverage totalCoverage) first its s := by
  induction its using List.reverseRecOn with
  | nil =>
    obtain ⟨fuel, trees, htrees⟩ := fuzzer.returns t first.draws
    obtain ⟨⟨cnt, copies⟩, hcopies⟩ : ∃ r, testDirCopies Map.empty first.report = some r :=
      dirCopies_returns hreport
    obtain ⟨total, htotal, hlen, hcovered⟩ := startCoverage_spec hresumed
    refine ⟨fuel, ⟨⟨1, total, none, cnt, copies.saved .test 0 0⟩, trees⟩, ?_, hlen, ?_, by simp,
      fuzzer.produces t first.draws fuel trees htrees⟩
    · simp only [testLoop, testLoopInit, htrees, testInit, TestIteration.iteration, hcopies, htotal,
        hreport.lines, Option.bind_eq_bind, Option.bind_some, Option.pure_def, Bool.false_eq_true,
        and_false, ↓reduceIte]
      rfl
    · simpa using hcovered
  | append_singleton its it ih =>
    obtain ⟨fuel₁, s, hrun, hok⟩ := ih fun it' hit' => hits it' (by simp [hit'])
    obtain ⟨hrep, hcov⟩ := hits it (by simp)
    obtain ⟨fuel₂, trees, htrees⟩ := fuzzer.returns t it.draws
    obtain ⟨⟨cnt, copies⟩, hcopies⟩ : ∃ r, testDirCopies s.test.exceptionsCnt it.report = some r :=
      dirCopies_returns hrep
    obtain ⟨total, htotal, hlen, hcovered⟩ := addCoverage_spec (hok.length.trans hcov.symm)
    have hrun' : testLoop t totalCoverage (max fuel₁ fuel₂) first its = some s :=
      testLoop_settled t totalCoverage first its _ _ (le_max_left _ _) s hrun
    have htrees' := fuzzer.settled t it.draws _ _ (le_max_right fuel₁ fuel₂) trees htrees
    obtain ⟨s₀, h₀, hloop⟩ := Option.bind_eq_some_iff.mp hrun'
    refine ⟨max fuel₁ fuel₂, ⟨⟨s.test.infoNum + 1, total, some total, cnt,
      s.test.errors ++ copies.saved .test s.test.infoNum s.test.infoNum⟩, trees⟩, ?_,
      hlen.trans hcov, ?_, fun _ => rfl, fuzzer.produces t it.draws _ trees htrees'⟩
    · rw [testLoop, h₀, Option.bind_some, List.foldlM_append, hloop]
      simp only [List.foldlM_cons, List.foldlM_nil, testLoopStep, htrees', testStep,
        TestIteration.iteration, hcopies, htotal, Option.bind_eq_bind, Option.bind_some,
        Option.pure_def]
    · rw [hcovered, hok.total, Set.union_assoc]
      simp [Set.iUnion_or, Set.iUnion_union_distrib]

theorem runOnline_eq {h : Hashes} {fuel : ℕ} {first : LoopIteration fuzzer}
    {its : List (LoopIteration fuzzer)} {testFirst : TestIteration fuzzer}
    {testIts : List (TestIteration fuzzer)} {s : LoopState} {ts : TestLoopState}
    (hrun : runOnline h fuel first its testFirst testIts = some (s, ts)) :
    loopRun h fuel first its = some s ∧ ∃ recurrentSequences,
      s.file = some recurrentSequences ∧
      testLoop recurrentSequences s.capture.coverage.totalCoverage fuel testFirst testIts =
        some ts := by
  simp only [runOnline, Option.bind_eq_bind, Option.pure_def] at hrun
  obtain ⟨s', hs', hrun⟩ := Option.bind_eq_some_iff.mp hrun
  obtain ⟨recurrentSequences, hfile, hrun⟩ := Option.bind_eq_some_iff.mp hrun
  obtain ⟨ts', hts', hrun⟩ := Option.bind_eq_some_iff.mp hrun
  obtain ⟨rfl, rfl⟩ := Prod.mk.inj (Option.some.inj hrun)
  exact ⟨hs', recurrentSequences, hfile, hts'⟩

theorem ne_nil_of_file {h : Hashes} {fuel : ℕ} {first : LoopIteration fuzzer}
    {its : List (LoopIteration fuzzer)} {s : LoopState} {recurrentSequences : Tables}
    (hrun : loopRun h fuel first its = some s) (hfile : s.file = some recurrentSequences) :
    its ≠ [] := by
  rintro rfl
  obtain ⟨s₀, h₀, hloop⟩ := Option.bind_eq_some_iff.mp hrun
  obtain rfl := Option.some.inj hloop
  obtain ⟨trees, -, -, hs⟩ := loopInit_eq h₀
  rw [hs] at hfile
  cases hfile

structure Resumed (first : List Bool) (covs : List (List Bool)) (resumed : List Bool) : Prop where
  length : resumed ≠ [] → resumed.length = first.length
  improved : Improves first covs → covered resumed = covered first ∪ ⋃ cov ∈ covs, covered cov
  stale : ¬ Improves first covs → covered resumed = ∅

theorem Handover.resumed {cov : List Bool} {covs : List (List Bool)} {c : CoverageState}
    (hc : Handover cov covs c) (hlen : ∀ c ∈ covs, c.length = cov.length) :
    Resumed cov covs (resumeCoverage c.totalCoverage) := by
  rcases hc.file with ⟨hfile, himp⟩ | ⟨hfile, -, hstale⟩
  · rw [hfile]
    exact ⟨fun _ => length_orAll hlen, fun _ => covered_orAll hlen, fun hno => absurd himp hno⟩
  · rw [hfile]
    refine ⟨fun hne => absurd rfl hne, fun himp => absurd himp hstale, fun _ => ?_⟩
    simp [covered, resumeCoverage]

/-- The two phases together: the test phase starts exactly if the capture phase finished an
    iteration. It then runs with generators that look up the merged rules of the clusters
    captured, and what it adds to is all that the capture phase covered, or nothing where no
    iteration improved on the first one. -/
theorem runOnline_spec (hstart : start ∈ G.keys) (hne : G.NoEmptyAlternative)
    (fuzzer : BaseFuzzer G start) (h : Hashes) (fuel : ℕ) (first : LoopIteration fuzzer)
    (its : List (LoopIteration fuzzer)) (testFirst : TestIteration fuzzer)
    (testIts : List (TestIteration fuzzer)) (s : LoopState)
    (hlen : ∀ it ∈ its, it.cov.length = first.cov.length)
    (hrun : loopRun h fuel first its = some s)
    (htest : ∀ it ∈ testFirst :: testIts, it.report.NonEmpty ∧ it.cov.length = first.cov.length) :
    ((∃ fuel' ts, runOnline h fuel' first its testFirst testIts = some (s, ts)) ↔ its ≠ []) ∧
    ∀ fuel' ts, runOnline h fuel' first its testFirst testIts = some (s, ts) →
      (∃ (order : MergeOrder) (ruleOrder : RuleOrder) (rss : List RuleSet),
        rulesForGenerator G order s.rules.recurrentSequences = some rss ∧
        ∀ tree ∈ ts.trees, ∃ (g : InputGenerator) (st : GenState), g.grammar = G ∧
          g.config.startRule = start ∧ g.tables = buildTables (rss.map ruleOrder.list) ∧
          g.Produces st ∧ tree = st.tree) ∧
      ((∃ it ∈ its, ¬ covered it.cov ⊆ covered first.cov) → covered ts.test.totalCov =
        (covered first.cov ∪ ⋃ it ∈ its, covered it.cov) ∪ covered testFirst.cov ∪
          ⋃ it ∈ testIts, covered it.cov) ∧
      ((∀ it ∈ its, covered it.cov ⊆ covered first.cov) → covered ts.test.totalCov =
        covered testFirst.cov ∪ ⋃ it ∈ testIts, covered it.cov) := by
  have hok := loopRun_ok hstart hne hlen hrun
  have hresumed := hok.handover.resumed fun cov hcov => by
    obtain ⟨it, hit, rfl⟩ := List.mem_map.mp hcov
    exact hlen it hit
  obtain ⟨hrep, hcov⟩ := htest testFirst (by simp)
  have hits : ∀ it ∈ testIts, it.report.NonEmpty ∧ it.cov.length = testFirst.cov.length :=
    fun it hit => by
      obtain ⟨hrep', hcov'⟩ := htest it (List.mem_cons_of_mem testFirst hit)
      exact ⟨hrep', hcov'.trans hcov.symm⟩
  obtain ⟨fuel₁, ts₁, hloop, htestOk⟩ := testLoop_returns s.tables s.capture.coverage.totalCoverage
    hrep (fun hnil => (hresumed.length hnil).trans hcov.symm) hits
  refine ⟨⟨?_, fun hnil => ?_⟩, fun fuel' ts honline => ?_⟩
  · rintro ⟨fuel', ts, honline⟩
    obtain ⟨hrun', recurrentSequences, hfile, -⟩ := runOnline_eq honline
    exact ne_nil_of_file hrun' hfile
  · obtain ⟨hfile, -⟩ := hok.current.resolve_left fun hfirst => hnil hfirst.1
    refine ⟨max fuel fuel₁, ts₁, ?_⟩
    have hrun' : loopRun h (max fuel fuel₁) first its = some s :=
      loopRun_settled first its _ _ (le_max_left _ _) s hrun
    have hloop' : testLoop s.tables s.capture.coverage.totalCoverage (max fuel fuel₁) testFirst
        testIts = some ts₁ := testLoop_settled _ _ _ _ _ _ (le_max_right _ _) ts₁ hloop
    simp only [runOnline, hrun', hfile, hloop', Option.bind_eq_bind, Option.bind_some,
      Option.pure_def]
  · obtain ⟨hrun', recurrentSequences, hfile, hphase⟩ := runOnline_eq honline
    obtain ⟨hcurrent, order, ruleOrder, rss, hrss, htables⟩ :=
      hok.current.resolve_left fun hfirst => ne_nil_of_file hrun' hfile hfirst.1
    rw [hcurrent] at hfile
    rw [← Option.some.inj hfile] at hphase
    have h₁ := testLoop_settled _ _ _ _ _ _ (le_max_left fuel' fuel₁) ts hphase
    have h₂ := testLoop_settled _ _ _ _ _ _ (le_max_right fuel' fuel₁) ts₁ hloop
    obtain rfl : ts = ts₁ := Option.some.inj (h₁.symm.trans h₂)
    refine ⟨⟨order, ruleOrder, rss, hrss, ?_⟩, fun himp => ?_, fun hstale => ?_⟩
    · rw [← htables]
      exact htestOk.generated
    · rw [htestOk.total, hresumed.improved (by simpa [Improves] using himp)]
      simp
    · rw [htestOk.total, hresumed.stale (by simpa [Improves] using hstale), Set.empty_union]

end TestPhase

def sampleTestIteration : TestIteration sampleFuzzer where
  draws := [⟨fun _ _ => 0, fun _ => 0⟩]
  report := .cprog [0]
  cov := [false, true]

/-- One iteration of each phase. The first one of the capture phase covers what all do there, so
    its line is lost. -/
theorem runOnline_spec_sample : ∃ fuel s ts,
    runOnline ClusterTables.sampleHashes fuel loopIteration [loopIteration] sampleTestIteration [] =
      some (s, ts) ∧ covered ts.test.totalCov = covered [false, true] := by
  obtain ⟨s, hs, -⟩ := sample_loopRun
  obtain ⟨hiff, hall⟩ := runOnline_spec (by decide) sampleGrammar_noEmptyAlternative sampleFuzzer
    ClusterTables.sampleHashes 9 loopIteration [loopIteration] sampleTestIteration [] s
    (fun it hit => by rw [List.mem_singleton.mp hit]) hs (fun it hit => by
      obtain rfl := List.mem_singleton.mp hit
      exact ⟨⟨by simp [sampleTestIteration], rfl⟩, rfl⟩)
  obtain ⟨fuel, ts, hrun⟩ := hiff.mpr (by simp)
  obtain ⟨-, -, hstale⟩ := hall fuel ts hrun
  refine ⟨fuel, s, ts, hrun, ?_⟩
  rw [hstale fun it hit => by rw [List.mem_singleton.mp hit]]
  simp [sampleTestIteration]

end RSFuzz
