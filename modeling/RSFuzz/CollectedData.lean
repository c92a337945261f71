import RSFuzz.NaiveRun

set_option autoImplicit false

/-!
# What is collected does not depend on what is captured

The tables, the sequence files, the coverage and the error copies of an
iteration are a function of the inputs and of what the measured program
answers. `main/generateRS.py` and the versions of `main/naive_genRS.py` collect
the same on the same inputs wherever they read trees in the same way.
-/
namespace RSFuzz
open OrderedMap OptionFold ClusterTables

section Definitions

variable (h : Hashes) (read : SequenceReader)

def collectIfDue (s : CaptureState × SeqsFiles) : Option (ClusterTables × Copies × SeqsFiles) :=
  if s.1.coverage.doUpdate then
    (createCsvBy h read s.1.nLines s.1.tables s.2 s.1.batch).map fun (csv, files) =>
      (csv.tables, csv.copies, files)
  else some (s.1.tables, [], s.2)

/-- An iteration that captures nothing. -/
def collectStep (s : CaptureState × SeqsFiles) (it : Iteration) : Option (CaptureState × SeqsFiles) := do
  let (tables, csvCopies, files) ← collectIfDue h read s
  let (cnt, copies) ← captureDirCopies s.1.exceptionsCnt it.report
  let coverage ← s.1.coverage.step it.cov
  return ({ s.1 with
    infoNum := s.1.infoNum + 1
    coverage := coverage
    tables := tables
    batch := it.batch
    exceptionsCnt := cnt
    errors := s.1.errors ++ csvCopies.saved .capture (s.1.infoNum - 1) s.1.infoNum ++
      copies.saved .capture s.1.infoNum s.1.infoNum }, files)

def collectRun (first : Iteration) (its : List Iteration) : Option (CaptureState × SeqsFiles) :=
  (captureInit first).bind fun s => its.foldlM (collectStep h read) (s, Map.empty)

end Definitions

def collected (s : CaptureState × RuleState) : CaptureState × SeqsFiles := (s.1, s.2.seqsFiles)

section Simulation

variable {env : Env} {s s' : CaptureState × RuleState} {it : Iteration × UpdateChoice}
  {choice : UpdateChoice} {t : ClusterTables} {rules rules' : RuleState} {updatedCovs : Finset ℕ}

theorem updateRecurrentSequences_seqsFiles
    (hrun : updateRecurrentSequences choice t updatedCovs rules = some rules') :
    rules'.seqsFiles = rules.seqsFiles := by
  refine foldlM_invariant (f := updateCluster choice t)
    (fun _ (r : RuleState) => r.seqsFiles = rules.seqsFiles) ?_ rfl hrun
  intro _ c r r' _ hr hstep
  obtain ⟨-, _, _, _, _, -, -, rfl⟩ := updateCluster_eq hstep
  exact hr

theorem NaiveVersion.updateRecurrentSequences_seqsFiles {v : NaiveVersion}
    (hrun : v.updateRecurrentSequences choice t updatedCovs rules = some rules') :
    rules'.seqsFiles = rules.seqsFiles := by
  refine foldlM_invariant (f := v.updateCluster choice t)
    (fun _ (r : RuleState) => r.seqsFiles = rules.seqsFiles) ?_ rfl hrun
  intro _ c r r' _ hr hstep
  simp only [NaiveVersion.updateCluster, Option.bind_eq_bind, Option.pure_def] at hstep
  obtain ⟨_, -, hstep⟩ := Option.bind_eq_some_iff.mp hstep
  obtain ⟨_, -, hstep⟩ := Option.bind_eq_some_iff.mp hstep
  obtain ⟨_, -, hstep⟩ := Option.bind_eq_some_iff.mp hstep
  obtain ⟨_, -, hstep⟩ := Option.bind_eq_some_iff.mp hstep
  obtain ⟨_, -, hstep⟩ := Option.bind_eq_some_iff.mp hstep
  obtain rfl := Option.some.inj hstep
  exact hr

theorem ruleStep_collects (hstep : ruleStep env s it = some s') :
    collectStep env.hashes (collapsedReader env.grammar env.fuel) (collected s) it.1 =
      some (collected s') := by
  simp only [ruleStep, Option.bind_eq_bind, Option.pure_def] at hstep
  obtain ⟨rules, hrules, hstep⟩ := Option.bind_eq_some_iff.mp hstep
  obtain ⟨capture, hcapture, hstep⟩ := Option.bind_eq_some_iff.mp hstep
  obtain rfl := Option.some.inj hstep
  obtain ⟨tables, csvCopies, cnt, copies, coverage, htables, hcopies, hcoverage, rfl⟩ :=
    captureStep_eq hcapture
  have hdue : collectIfDue env.hashes (collapsedReader env.grammar env.fuel) (collected s) =
      some (tables, csvCopies, rules.seqsFiles) := by
    rw [rulesIfDue] at hrules
    rw [updateTables] at htables
    rw [collectIfDue, collected]
    split_ifs at hrules htables ⊢ with hd
    · obtain ⟨⟨csv, updated⟩, hupdate, rfl⟩ := Option.map_eq_some_iff.mp hrules
      simp only [updateRules, Option.bind_eq_bind, Option.pure_def] at hupdate
      obtain ⟨⟨csv', files⟩, hcsv, hupdate⟩ := Option.bind_eq_some_iff.mp hupdate
      obtain ⟨updated', hupdated, hupdate⟩ := Option.bind_eq_some_iff.mp hupdate
      obtain ⟨_, -, hupdate⟩ := Option.bind_eq_some_iff.mp hupdate
      obtain ⟨rfl, rfl⟩ := Prod.mk.inj (Option.some.inj hupdate)
      have hfiles : updated'.seqsFiles = files := updateRecurrentSequences_seqsFiles hupdated
      rw [createCsv_of_files hcsv] at htables
      obtain ⟨rfl, rfl⟩ := Prod.mk.inj (Option.some.inj htables)
      rw [← createCsvFiles_eq, hcsv, Option.map_some, hfiles]
    · obtain rfl := Option.some.inj hrules
      obtain ⟨rfl, rfl⟩ := Prod.mk.inj (Option.some.inj htables)
      rfl
  simp only [collectStep, hdue, Option.bind_eq_bind, Option.bind_some]
  simp only [collected, hcopies, hcoverage, Option.bind_some, Option.pure_def]

theorem NaiveVersion.step_collects {v : NaiveVersion} (hstep : v.step env s it = some s') :
    collectStep env.hashes (v.reader env.grammar env.fuel) (collected s) it.1 =
      some (collected s') := by
  obtain ⟨tables, csvCopies, rules, cnt, copies, coverage, hdue, hcopies, hcoverage, rfl⟩ :=
    step_eq hstep
  have hcollect : collectIfDue env.hashes (v.reader env.grammar env.fuel) (collected s) =
      some (tables, csvCopies, rules.seqsFiles) := by
    rw [updateIfDue] at hdue
    rw [collectIfDue, collected]
    split_ifs at hdue ⊢ with hd
    · obtain ⟨⟨csv, updated⟩, hupdate, heq⟩ := Option.map_eq_some_iff.mp hdue
      obtain ⟨rfl, rfl, rfl⟩ : csv.tables = tables ∧ csv.copies = csvCopies ∧ updated = rules := by
        simpa using heq
      obtain ⟨files, hcsv, hupdated, -⟩ := updateRules_eq hupdate
      have hfiles : updated.seqsFiles = files := updateRecurrentSequences_seqsFiles hupdated
      rw [createCsv] at hcsv
      rw [hcsv, Option.map_some, hfiles]
    · obtain ⟨rfl, rfl, rfl⟩ : s.1.tables = tables ∧ [] = csvCopies ∧ s.2 = rules := by
        simpa using hdue
      rfl
  simp only [collectStep, hcollect, Option.bind_eq_bind, Option.bind_some]
  simp only [collected, hcopies, hcoverage, Option.bind_some, Option.pure_def]

theorem ruleRun_collects {first : Iteration} {its : List (Iteration × UpdateChoice)}
    (hrun : ruleRun env first its = some s) :
    collectRun env.hashes (collapsedReader env.grammar env.fuel) first (its.map Prod.fst) =
      some (collected s) := by
  obtain ⟨c, hinit, hloop⟩ := Option.bind_eq_some_iff.mp hrun
  rw [collectRun, hinit]
  exact foldlM_simulation collected Prod.fst (fun _ _ _ => ruleStep_collects) hloop

theorem NaiveVersion.run_collects {v : NaiveVersion} {first : Iteration}
    {its : List (Iteration × UpdateChoice)} (hrun : v.run env first its = some s) :
    collectRun env.hashes (v.reader env.grammar env.fuel) first (its.map Prod.fst) =
      some (collected s) := by
  obtain ⟨c, hinit, hloop⟩ := Option.bind_eq_some_iff.mp hrun
  rw [collectRun, hinit]
  exact foldlM_simulation collected Prod.fst (fun _ _ _ => step_collects) hloop

end Simulation

section Comparison

variable {env : Env} {start : Sym} {first : Iteration} {its its' : List (Iteration × UpdateChoice)}

theorem NaiveVersion.reader_select (G : Grammar) (fuel : ℕ) :
    NaiveVersion.select.reader G fuel = NaiveVersion.naive.reader G fuel := by
  funext item
  simp [reader, dtToSequences]

theorem batches_congr (hsame : its.map Prod.fst = its'.map Prod.fst) :
    NaiveVersion.batches first its = NaiveVersion.batches first its' := by
  have hflat : ∀ l : List (Iteration × UpdateChoice),
      (l.flatMap fun it => it.1.batch) = (l.map Prod.fst).flatMap Iteration.batch := fun l => by
    rw [List.flatMap_map]
  rw [NaiveVersion.batches, NaiveVersion.batches, hflat, hflat, hsame]

/-- On the same inputs and answers the capture loop and the version without re-capturing collect
    the same, as do the two versions without reductions; what is captured at a time by the programs
    that select clusters is always captured by the ones that do not. -/
theorem collected_alike (env : Env) (start : Sym) (hstart : start ∈ env.grammar.keys)
    (hne : env.grammar.NoEmptyAlternative) (first : Iteration)
    (its its' : List (Iteration × UpdateChoice)) (hsame : its.map Prod.fst = its'.map Prod.fst)
    (hgen : ∀ item ∈ NaiveVersion.batches first its, item.GeneratedFrom env.grammar start)
    (s s' : CaptureState × RuleState) :
    (ruleRun env first its = some s → NaiveVersion.capture.run env first its' = some s' →
      s.1 = s'.1 ∧ s.2.seqsFiles = s'.2.seqsFiles ∧ s.2.capturedCovs ⊆ s'.2.capturedCovs) ∧
    (NaiveVersion.select.run env first its = some s →
      NaiveVersion.naive.run env first its' = some s' →
      s.1 = s'.1 ∧ s.2.seqsFiles = s'.2.seqsFiles ∧ s.2.capturedCovs ⊆ s'.2.capturedCovs) := by
  have hgen' : ∀ item ∈ NaiveVersion.batches first its', item.GeneratedFrom env.grammar start := by
    rwa [← batches_congr hsame]
  have hequal : collected s = collected s' → s.1 = s'.1 ∧ s.2.seqsFiles = s'.2.seqsFiles := fun h =>
    ⟨(Prod.mk.inj h).1, (Prod.mk.inj h).2⟩
  constructor
  · intro hrun hrun'
    have hdata := ruleRun_collects hrun
    rw [hsame] at hdata
    obtain ⟨hcapture, hfiles⟩ := hequal (Option.some.inj
      (hdata.symm.trans (NaiveVersion.run_collects hrun')))
    have hok : NaiveVersion.capture.RunOk env first its' s' := .of_run hstart hne hgen' hrun'
    refine ⟨hcapture, hfiles, fun c hc => hok.complete (by decide) c ?_⟩
    rw [← hcapture]
    exact (ruleRun_consistent hrun).known c hc
  · intro hrun hrun'
    have hdata := NaiveVersion.run_collects hrun
    rw [hsame, NaiveVersion.reader_select] at hdata
    obtain ⟨hcapture, hfiles⟩ := hequal (Option.some.inj
      (hdata.symm.trans (NaiveVersion.run_collects hrun')))
    have hok : NaiveVersion.naive.RunOk env first its' s' := .of_run hstart hne hgen' hrun'
    have hselect : NaiveVersion.select.RunOk env first its s := .of_run hstart hne hgen hrun
    refine ⟨hcapture, hfiles, fun c hc => hok.complete (by decide) c ?_⟩
    rw [← hcapture]
    exact hselect.state.consistent.known c hc

end Comparison

theorem collected_alike_sample : ∃ s s',
    ruleRun NaiveVersion.treeEnv (NaiveVersion.treeIteration [true, false])
      NaiveVersion.sampleUpdates = some s ∧
    NaiveVersion.capture.run NaiveVersion.treeEnv (NaiveVersion.treeIteration [true, false])
      NaiveVersion.sampleUpdates = some s' ∧ s.1 = s'.1 := by
  have hrun : (ruleRun NaiveVersion.treeEnv (NaiveVersion.treeIteration [true, false])
      NaiveVersion.sampleUpdates).isSome = true := by decide +kernel
  have hrun' : (NaiveVersion.capture.run NaiveVersion.treeEnv
      (NaiveVersion.treeIteration [true, false]) NaiveVersion.sampleUpdates).isSome = true := by
    decide +kernel
  obtain ⟨s, hs⟩ := Option.isSome_iff_exists.mp hrun
  obtain ⟨s', hs'⟩ := Option.isSome_iff_exists.mp hrun'
  obtain ⟨halike, -, -⟩ := (collected_alike NaiveVersion.treeEnv "list" (by decide)
    (sampleGrammar.noEmptyAlternative_iff.mpr (by decide +kernel))
    (NaiveVersion.treeIteration [true, false]) NaiveVersion.sampleUpdates NaiveVersion.sampleUpdates
    rfl NaiveVersion.sampleUpdates_generated s s').1 hs hs'
  exact ⟨s, s', hs, hs', halike⟩

end RSFuzz
