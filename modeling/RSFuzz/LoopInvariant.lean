import RSFuzz.IterationProgress
import RSFuzz.LoopFuzzers

set_option autoImplicit false

/-!
# Runs of the closed loop

What holds at the head of the loop, whatever the measured program answers: the
tables are those of the rules stored, the inputs to be clustered next were
generated with them, and each rule goes back to inputs of its cluster. With
enough fuel a run goes on until `merge_rules` fails.
-/
namespace RSFuzz
open OrderedMap OptionFold Fuel ClusterTables

section Runs

variable {G : Grammar} {start : Sym} {fuzzer : BaseFuzzer G start} {h : Hashes} {fuel : ℕ}
  {first : LoopIteration fuzzer}

/-- A generator that looks up the tables completes the tree of the input. -/
def CsvInput.GeneratedWith (G : Grammar) (start : Sym) (t : Tables) (item : CsvInput) : Prop :=
  ∃ (g : InputGenerator) (st : GenState), g.grammar = G ∧ g.config.startRule = start ∧
    g.tables = t ∧ g.Produces st ∧ item.tree = st.tree

theorem CsvInput.GeneratedWith.generatedFrom {t : Tables} {item : CsvInput}
    (hitem : item.GeneratedWith G start t) : item.GeneratedFrom G start := by
  obtain ⟨g, st, hgrammar, hstart, -, hst, htree⟩ := hitem
  exact ⟨g, st, hgrammar, hstart, hst, htree⟩

/-- The input was generated in the iteration that follows `earlier`. -/
def WrittenIn (h : Hashes) (fuel : ℕ) (first : LoopIteration fuzzer)
    (done : List (LoopIteration fuzzer)) (item : CsvInput) : Prop :=
  ∃ earlier s, earlier <+: done ∧ loopRun h fuel first earlier = some s ∧ item ∈ s.capture.batch

/-- The tables encode the rules stored, merged in some order. -/
def LoopState.Current (G : Grammar) (s : LoopState) : Prop :=
  s.file = some s.tables ∧ ∃ (order : MergeOrder) (ruleOrder : RuleOrder) (rss : List RuleSet),
    rulesForGenerator G order s.rules.recurrentSequences = some rss ∧
    s.tables = buildTables (rss.map ruleOrder.list)

structure LoopOk (h : Hashes) (fuel : ℕ) (first : LoopIteration fuzzer)
    (done : List (LoopIteration fuzzer)) (s : LoopState) : Prop where
  run : loopRun h fuel first done = some s
  generated : ∀ item ∈ s.capture.batch, item.GeneratedWith G start s.tables
  rules : ∃ inputs, (∀ item ∈ inputs, item.GeneratedFrom G start ∧
    WrittenIn h fuel first done item) ∧ RulesOk ⟨h, G, fuel⟩ inputs s.capture.tables s.rules
  current : done = [] ∧ s.capture.coverage.doUpdate = true ∨ s.Current G
  handover : Handover first.cov (done.map LoopIteration.cov) s.capture.coverage

theorem WrittenIn.mono {done more : List (LoopIteration fuzzer)} {item : CsvInput}
    (hitem : WrittenIn h fuel first done item) : WrittenIn h fuel first (done ++ more) item := by
  obtain ⟨earlier, s, hpre, hrun, hmem⟩ := hitem
  exact ⟨earlier, s, hpre.trans (List.prefix_append done more), hrun, hmem⟩

theorem batch_generated {t : Tables} {it : LoopIteration fuzzer} {trees : List Tree}
    (htrees : fuzzer.batch t it.draws fuel = some trees) :
    ∀ item ∈ (it.iteration trees).batch, item.GeneratedWith G start t := by
  intro item hitem
  obtain ⟨⟨tree, i⟩, htree, rfl⟩ := List.mem_map.mp hitem
  have hmem := List.mem_of_getElem? (List.mem_zipIdx_iff_getElem?.mp htree)
  exact fuzzer.produces t it.draws fuel trees htrees tree hmem

theorem LoopOk.initial {s : LoopState} (hrun : loopInit fuel first = some s) :
    LoopOk h fuel first [] s := by
  have hloop : loopRun h fuel first [] = some s := by
    rw [loopRun, hrun]
    rfl
  obtain ⟨trees, htrees, hcapture, hs⟩ := loopInit_eq hrun
  obtain ⟨cnt, copies, -, hc⟩ := captureInit_eq hcapture
  rw [hs]
  refine ⟨hs ▸ hloop, ?_, ⟨[], by simp, ?_⟩, Or.inl ⟨rfl, ?_⟩, ?_⟩
  · rw [hc]
    exact batch_generated htrees
  · rw [hc]
    exact .empty _
  · rw [hc]
    rfl
  · rw [hc]
    exact .initial first.cov

theorem LoopOk.length {done : List (LoopIteration fuzzer)} {s : LoopState}
    (hok : LoopOk h fuel first done s) (hlen : ∀ it ∈ done, it.cov.length = first.cov.length) :
    s.capture.coverage.beforeCovVec.length = first.cov.length := by
  rw [hok.handover.before]
  refine length_orAll fun cov hcov => ?_
  obtain ⟨it, hit, rfl⟩ := List.mem_map.mp hcov
  exact hlen it hit

section Step

variable (hstart : start ∈ G.keys) (hne : G.NoEmptyAlternative)
  {done : List (LoopIteration fuzzer)} {s s' : LoopState} {it : LoopIteration fuzzer}

theorem LoopOk.inputs_generated {inputs : List CsvInput} (hok : LoopOk h fuel first done s)
    (hinputs : ∀ item ∈ inputs, item.GeneratedFrom G start ∧ WrittenIn h fuel first done item) :
    ∀ item ∈ inputs ++ s.capture.batch,
      item.GeneratedFrom G start ∧ WrittenIn h fuel first done item := by
  intro item hitem
  rcases List.mem_append.mp hitem with hold | hnew
  · exact hinputs item hold
  · exact ⟨(hok.generated item hnew).generatedFrom, done, s, List.prefix_rfl, hok.run, hnew⟩

include hstart hne

theorem LoopOk.step (hok : LoopOk h fuel first done s)
    (hlen : ∀ it' ∈ done ++ [it], it'.cov.length = first.cov.length)
    (hstep : loopStep h fuel s it = some s') : LoopOk h fuel first (done ++ [it]) s' := by
  have hrun : loopRun h fuel first (done ++ [it]) = some s' := by
    rw [loopRun_append, hok.run, Option.bind_some, List.foldlM_cons, hstep]
    rfl
  obtain ⟨trees, htables, htrees, hrules, hfile⟩ := loopStep_eq hstep
  obtain ⟨inputs, hinputs, hrulesOk⟩ := hok.rules
  have hall := hok.inputs_generated hinputs
  have hruleStep := hrules
  simp only [ruleStep, Option.bind_eq_bind, Option.pure_def] at hrules
  obtain ⟨rules, hupdate, hrules⟩ := Option.bind_eq_some_iff.mp hrules
  obtain ⟨capture, hcapture, hrules⟩ := Option.bind_eq_some_iff.mp hrules
  obtain ⟨rfl, rfl⟩ := Prod.mk.inj (Option.some.inj hrules)
  obtain ⟨tables, csvCopies, cnt, copies, coverage, -, -, hcoverage, hc⟩ := captureStep_eq hcapture
  refine ⟨hrun, ?_, ⟨inputs ++ s.capture.batch, fun item hitem =>
    ⟨(hall item hitem).1, (hall item hitem).2.mono⟩, ?_⟩, Or.inr ⟨hfile, ?_⟩, ?_⟩
  · rw [hc]
    exact batch_generated htrees
  · exact hrulesOk.ruleStep hstart hne (fun item hitem => (hall item hitem).1) hruleStep
  · rw [tablesIfDue] at htables
    rw [rulesIfDue] at hupdate
    split_ifs at htables hupdate with hdue
    · obtain ⟨⟨csv, updated⟩, hboth, hu⟩ := Option.map_eq_some_iff.mp hupdate
      simp only [hboth, Option.bind_eq_bind, Option.bind_some, Option.pure_def] at htables
      obtain ⟨rss, hrss, hbuilt⟩ := Option.bind_eq_some_iff.mp htables
      rw [show updated = s'.rules from hu] at hrss
      exact ⟨it.update.merge, it.ruleOrder, rss, hrss, (Option.some.inj hbuilt).symm⟩
    · obtain ⟨-, hfirst⟩ | ⟨-, order, ruleOrder, rss, hrss, hs⟩ := hok.current
      · exact absurd hfirst hdue
      · rw [← Option.some.inj hupdate, ← Option.some.inj htables]
        exact ⟨order, ruleOrder, rss, hrss, hs⟩
  · rw [hc, List.map_append, List.map_singleton]
    refine hok.handover.step (fun cov hcov => ?_) hcoverage
    rw [← List.map_singleton, ← List.map_append] at hcov
    obtain ⟨it', hit', rfl⟩ := List.mem_map.mp hcov
    exact hlen it' hit'

theorem loopRun_ok (hlen : ∀ it ∈ done, it.cov.length = first.cov.length)
    (hrun : loopRun h fuel first done = some s) : LoopOk h fuel first done s := by
  obtain ⟨s₀, h₀, hloop⟩ := Option.bind_eq_some_iff.mp hrun
  exact foldlM_invariant (f := loopStep h fuel) (fun done s => LoopOk h fuel first done s)
    (fun done' it s s' hp hok hstep => hok.step hstart hne
      (fun it' hit' => hlen it' (hp.subset hit')) hstep) (.initial h₀) hloop

end Step

theorem MergeStuck.settled {fuel' : ℕ} (hle : fuel ≤ fuel') {choice : UpdateChoice}
    {c : CaptureState} {rules : RuleState} (hstuck : MergeStuck ⟨h, G, fuel⟩ choice c rules) :
    MergeStuck ⟨h, G, fuel'⟩ choice c rules := by
  obtain ⟨hdue, csv, files, updated, hcsv, hrest⟩ := hstuck
  exact ⟨hdue, csv, files, updated, createCsvFiles_settled _ _ _ fuel fuel' hle _ hcsv, hrest⟩

theorem exists_fuel_read (hstart : start ∈ G.keys) {batch : List CsvInput}
    (hgen : ∀ item ∈ batch, item.GeneratedFrom G start) :
    ∃ fuel₀, ∀ fuel, fuel₀ ≤ fuel → ∀ item ∈ batch,
      ∃ seqs, dtToSequences G item.order item.tree fuel = some seqs :=
  Fuel.exists_fuel_forall fun item hitem => by
    obtain ⟨hw, hclosed⟩ := (hgen item hitem).closed hstart
    obtain ⟨fuel₀, seqs, hread, -⟩ := dtToSequences_returns item.order hw hclosed hstart
    exact ⟨fuel₀, fun fuel hfuel => ⟨seqs, hread fuel hfuel⟩⟩

theorem tablesIfDue_returns {it : LoopIteration fuzzer} {s : LoopState} {rules : RuleState}
    (hrules : rulesIfDue ⟨h, G, fuel⟩ it.update (s.capture, s.rules) = some rules) :
    ∃ tables, tablesIfDue h fuel it s = some tables := by
  rw [rulesIfDue] at hrules
  rw [tablesIfDue]
  split_ifs at hrules ⊢ with hdue
  · obtain ⟨⟨csv, updated⟩, hboth, -⟩ := Option.map_eq_some_iff.mp hrules
    have hparts := hboth
    simp only [updateRules, Option.bind_eq_bind, Option.pure_def] at hparts
    obtain ⟨_, -, hparts⟩ := Option.bind_eq_some_iff.mp hparts
    obtain ⟨updated', -, hparts⟩ := Option.bind_eq_some_iff.mp hparts
    obtain ⟨rss, hrss, hparts⟩ := Option.bind_eq_some_iff.mp hparts
    obtain ⟨-, rfl⟩ := Prod.mk.inj (Option.some.inj hparts)
    refine ⟨buildTables (rss.map it.ruleOrder.list), ?_⟩
    simp only [hboth, hrss, Option.bind_eq_bind, Option.bind_some, Option.pure_def]
  · exact ⟨_, rfl⟩

section Progress

variable (hstart : start ∈ G.keys) (hne : G.NoEmptyAlternative)
  {done : List (LoopIteration fuzzer)} {s : LoopState} {it : LoopIteration fuzzer}

include hstart hne

/-- With enough fuel the iteration returns, whatever it generates, exactly if it is not stuck. -/
theorem exists_fuel_ruleStep (hlen : ∀ it' ∈ done ++ [it], it'.cov.length = first.cov.length)
    (hreport : it.report.NonEmpty) (hrun : loopRun h fuel first done = some s) :
    ∃ fuel₀, ∀ fuel', fuel₀ ≤ fuel' → ∀ trees,
      ((∃ r, ruleStep ⟨h, G, fuel'⟩ (s.capture, s.rules) (it.iteration trees, it.update) = some r) ↔
        ¬ MergeStuck ⟨h, G, fuel'⟩ it.update s.capture s.rules) := by
  have hlenDone : ∀ it' ∈ done, it'.cov.length = first.cov.length := fun it' hit' =>
    hlen it' (List.mem_append_left _ hit')
  have hok := loopRun_ok hstart hne hlenDone hrun
  obtain ⟨fuel₁, hread⟩ := exists_fuel_read hstart fun item hitem =>
    (hok.generated item hitem).generatedFrom
  refine ⟨max fuel fuel₁, fun fuel' hfuel trees => ?_⟩
  have hok' := loopRun_ok hstart hne hlenDone
    (loopRun_settled first done fuel fuel' ((le_max_left _ _).trans hfuel) s hrun)
  obtain ⟨inputs, hinputs, hrules⟩ := hok'.rules
  refine hrules.ruleStep_returns_iff hstart hne
    (fun item hitem => (hok'.inputs_generated hinputs item hitem).1) hreport ?_ ?_
  · exact (hok'.length hlenDone).trans (hlen it (by simp)).symm
  · exact hread fuel' ((le_max_right _ _).trans hfuel)

theorem exists_fuel_loopStep (hlen : ∀ it' ∈ done ++ [it], it'.cov.length = first.cov.length)
    (hreport : it.report.NonEmpty) (hrun : loopRun h fuel first done = some s)
    (hfree : ∀ fuel', ¬ MergeStuck ⟨h, G, fuel'⟩ it.update s.capture s.rules) :
    ∃ fuel' s', loopRun h fuel' first (done ++ [it]) = some s' := by
  obtain ⟨fuel₀, hiff⟩ := exists_fuel_ruleStep hstart hne hlen hreport hrun
  have hsteps : ∀ trees, ∃ r, ruleStep ⟨h, G, fuel₀⟩ (s.capture, s.rules)
      (it.iteration trees, it.update) = some r := fun trees =>
    (hiff fuel₀ le_rfl trees).mpr (hfree fuel₀)
  obtain ⟨tables, htables⟩ : ∃ tables, tablesIfDue h fuel₀ it s = some tables := by
    obtain ⟨r, hr⟩ := hsteps []
    simp only [ruleStep, Option.bind_eq_bind, Option.pure_def] at hr
    obtain ⟨rules, hrules, -⟩ := Option.bind_eq_some_iff.mp hr
    exact tablesIfDue_returns hrules
  obtain ⟨fuel₁, trees, htrees⟩ := fuzzer.returns tables it.draws
  obtain ⟨⟨capture, rules⟩, hr⟩ := hsteps trees
  obtain ⟨m, hm, hm₀, hm₁⟩ : ∃ m, fuel ≤ m ∧ fuel₀ ≤ m ∧ fuel₁ ≤ m :=
    ⟨max fuel (max fuel₀ fuel₁), by omega, by omega, by omega⟩
  have hdone : loopRun h m first done = some s := loopRun_settled first done _ _ hm s hrun
  have htables' : tablesIfDue h m it s = some tables := tablesIfDue_settled it s _ _ hm₀ _ htables
  have htrees' := fuzzer.settled tables it.draws _ _ hm₁ trees htrees
  have hr' : ruleStep ⟨h, G, m⟩ (s.capture, s.rules) (it.iteration trees, it.update) =
      some (capture, rules) := ruleStep_settled _ _ _ _ hm₀ _ hr
  refine ⟨m, ⟨capture, rules, tables, some tables⟩, ?_⟩
  rw [loopRun_append, hdone, Option.bind_some, List.foldlM_cons, loopStep, htables']
  simp only [htrees', hr', Option.bind_eq_bind, Option.bind_some]
  rfl

theorem not_stuck_of_loopRun {rest : List (LoopIteration fuzzer)} {fuel' : ℕ} {s' : LoopState}
    (hlen : ∀ it' ∈ done ++ [it], it'.cov.length = first.cov.length)
    (hreport : it.report.NonEmpty) (hrun : loopRun h fuel first (done ++ it :: rest) = some s')
    (hdone : loopRun h fuel' first done = some s) :
    ¬ MergeStuck ⟨h, G, fuel'⟩ it.update s.capture s.rules := by
  intro hstuck
  obtain ⟨fuel₀, hiff⟩ := exists_fuel_ruleStep hstart hne hlen hreport hdone
  obtain ⟨m, hm, hm', hm₀⟩ : ∃ m, fuel ≤ m ∧ fuel' ≤ m ∧ fuel₀ ≤ m :=
    ⟨max fuel (max fuel' fuel₀), by omega, by omega, by omega⟩
  have hdone' : loopRun h m first done = some s := loopRun_settled first done _ _ hm' s hdone
  have hmore : loopRun h m first (done ++ it :: rest) = some s' :=
    loopRun_settled first _ _ _ hm s' hrun
  rw [loopRun_append, hdone', Option.bind_some, List.foldlM_cons] at hmore
  obtain ⟨s₁, hstep, -⟩ := Option.bind_eq_some_iff.mp hmore
  obtain ⟨trees, -, -, hrules, -⟩ := loopStep_eq hstep
  exact (hiff m hm₀ trees).mp ⟨_, hrules⟩ (hstuck.settled hm')

end Progress

/-- The capture phase goes through all iterations, with enough fuel, exactly if no update on the
    way merges rules that hold all numbers of a symbol alone. -/
theorem loopRun_returns_iff (hstart : start ∈ G.keys) (hne : G.NoEmptyAlternative)
    (fuzzer : BaseFuzzer G start) (h : Hashes) (first : LoopIteration fuzzer)
    (its : List (LoopIteration fuzzer)) (hlen : ∀ it ∈ its, it.cov.length = first.cov.length)
    (hreport : ∀ it ∈ first :: its, it.report.NonEmpty) :
    (∃ fuel s, loopRun h fuel first its = some s) ↔
      ∀ done it rest fuel s, its = done ++ it :: rest → loopRun h fuel first done = some s →
        ¬ MergeStuck ⟨h, G, fuel⟩ it.update s.capture s.rules := by
  constructor
  · rintro ⟨fuel, s', hrun⟩ done it rest fuel' s rfl hdone
    refine not_stuck_of_loopRun hstart hne (fun it' hit' => hlen it' ?_) (hreport it (by simp)) hrun
      hdone
    rw [List.append_cons]
    exact List.mem_append_left rest hit'
  · intro hfree
    induction its using List.reverseRecOn with
    | nil =>
      obtain ⟨fuel, trees, htrees⟩ := fuzzer.returns Tables.empty first.draws
      obtain ⟨c, hinit⟩ : ∃ c, captureInit (first.iteration trees) = some c :=
        captureInit_returns (hreport first (by simp))
      refine ⟨fuel, ?_⟩
      simp only [loopRun, loopInit, htrees, hinit, Option.bind_eq_bind, Option.bind_some,
        Option.pure_def]
      exact ⟨_, rfl⟩
    | append_singleton its it ih =>
      obtain ⟨fuel, s, hrun⟩ := ih (fun it' hit' => hlen it' (by simp [hit']))
        (fun it' hit' => hreport it' (by
          rcases List.mem_cons.mp hit' with rfl | hit'
          · simp
          · simp [hit']))
        fun done it' rest fuel s hsplit => hfree done it' (rest ++ [it]) fuel s (by simp [hsplit])
      refine exists_fuel_loopStep hstart hne hlen (hreport it (by simp)) hrun
        fun fuel' hstuck => ?_
      exact hfree its it [] (max fuel fuel') s rfl
        (loopRun_settled first its _ _ (le_max_left _ _) s hrun) (hstuck.settled (le_max_right _ _))

/-- Every stored rule is made of sequences that inputs generated before realise, filed under a
    sequence set of the rule's cluster. -/
theorem stored_rules_from_inputs (hstart : start ∈ G.keys) (hne : G.NoEmptyAlternative)
    (fuzzer : BaseFuzzer G start) (h : Hashes) (fuel : ℕ) (first : LoopIteration fuzzer)
    (its : List (LoopIteration fuzzer)) (hlen : ∀ it ∈ its, it.cov.length = first.cov.length)
    (s : LoopState) (hrun : loopRun h fuel first its = some s) :
    ∀ c rules, s.rules.recurrentSequences.get? c = some rules → rules ≠ [] ∧
      ∀ rule ∈ rules, rule.Nonempty ∧ ∀ q ∈ rule, ∃ item k seqs,
        WrittenIn h fuel first its item ∧ Realises item.tree.expanded q ∧
        dtToSequences G item.order item.tree fuel = some seqs ∧ q.entries ∈ seqs ∧
        s.rules.seqsFiles.get? k = some seqs ∧ s.capture.tables.uniqueDt.get? k = some c := by
  obtain ⟨inputs, hinputs, hok⟩ := (loopRun_ok hstart hne hlen hrun).rules
  intro c rules hrules
  obtain ⟨hrulesNe, hall⟩ := hok.rules c rules hrules
  refine ⟨hrulesNe, fun rule hrule => ⟨(hall rule hrule).1, fun q hq => ?_⟩⟩
  obtain ⟨k, seqs, hk, hfile, hqs⟩ := (hall rule hrule).2 q hq
  obtain ⟨item, hitem, hseqs⟩ := hok.files.read k seqs hfile
  obtain ⟨⟨g, st, hgrammar, rfl, hst, htree⟩, hwritten⟩ := hinputs item hitem
  refine ⟨item, k, seqs, hwritten, ?_, hseqs, hqs, hfile, hk⟩
  subst hgrammar
  obtain ⟨hinv, hclosed⟩ := hst.closed hstart
  obtain ⟨q', hq', hreal⟩ := dtToSequences_realised (htree ▸ hinv.wellFormed) (htree ▸ hclosed)
    hstart hseqs q.entries hqs
  rwa [Sequence.entries_injective hq'] at hreal

theorem loopRun_ruleRun {its : List (LoopIteration fuzzer)} {s : LoopState}
    (hrun : loopRun h fuel first its = some s) : ∃ (trees : List Tree) (batches : List (List Tree)),
      batches.length = its.length ∧
      ruleRun ⟨h, G, fuel⟩ (first.iteration trees)
        (List.zipWith (fun it batch => (it.iteration batch, it.update)) its batches) =
          some (s.capture, s.rules) := by
  induction its using List.reverseRecOn generalizing s with
  | nil =>
    obtain ⟨s₀, h₀, hloop⟩ := Option.bind_eq_some_iff.mp hrun
    obtain rfl := Option.some.inj hloop
    obtain ⟨trees, -, hcapture, hs⟩ := loopInit_eq h₀
    refine ⟨trees, [], rfl, ?_⟩
    rw [hs, ruleRun, hcapture]
    rfl
  | append_singleton its it ih =>
    obtain ⟨s₁, h₁, hstep⟩ := loopRun_concat hrun
    obtain ⟨trees, batches, hlen, hrules⟩ := ih h₁
    obtain ⟨batch, -, -, hrule, -⟩ := loopStep_eq hstep
    refine ⟨trees, batches ++ [batch], by simp [hlen], ?_⟩
    obtain ⟨s₀, h₀, hloop⟩ := Option.bind_eq_some_iff.mp hrules
    rw [List.zipWith_append hlen.symm, ruleRun, h₀, Option.bind_some, List.foldlM_append, hloop]
    simp [hrule]

/-- The closed loop refines the run on given inputs, and at the end of each iteration the file and
    the tables in memory encode the merged rules of all clusters captured so far, and the inputs
    left in the directory were generated with these tables. -/
theorem loopRun_refines (hstart : start ∈ G.keys) (hne : G.NoEmptyAlternative)
    (fuzzer : BaseFuzzer G start) (h : Hashes) (fuel : ℕ) (first : LoopIteration fuzzer)
    (its : List (LoopIteration fuzzer)) (hlen : ∀ it ∈ its, it.cov.length = first.cov.length)
    (s : LoopState) (hrun : loopRun h fuel first its = some s) :
    (∃ (trees : List Tree) (batches : List (List Tree)), batches.length = its.length ∧
      ruleRun ⟨h, G, fuel⟩ (first.iteration trees)
        (List.zipWith (fun it batch => (it.iteration batch, it.update)) its batches) =
          some (s.capture, s.rules)) ∧
    (its ≠ [] → s.Current G) ∧ ∀ item ∈ s.capture.batch, item.GeneratedWith G start s.tables := by
  have hok := loopRun_ok hstart hne hlen hrun
  exact ⟨loopRun_ruleRun hrun, fun hnil => hok.current.resolve_left fun hfirst => hnil hfirst.1,
    hok.generated⟩

end Runs

theorem sampleGrammar_noEmptyAlternative : sampleGrammar.NoEmptyAlternative :=
  sampleGrammar.noEmptyAlternative_iff.mpr (by decide +kernel)

noncomputable def sampleOrder : RuleOrder where
  list rs := if rs = sampleSequences.toFinset then sampleSequences else rs.toList
  perm := by
    intro rs
    split_ifs with h
    · rw [h]
      rfl
    · exact Multiset.coe_toList rs.val

noncomputable def loopIteration : LoopIteration sampleFuzzer where
  draws := [⟨fun _ _ => 0, fun _ => 0⟩]
  order := fun _ => IterationOrder.listed
  fileCov := fun _ => [true, false]
  report := .cprog [0]
  cov := [true, false]
  update := listedUpdate
  ruleOrder := sampleOrder

theorem sample_loopRun : ∃ s, loopRun ClusterTables.sampleHashes 9 loopIteration [loopIteration] =
    some s ∧ s.rules.recurrentSequences.get? 0 = some [sampleSequences.toFinset] := by
  have hrun : (loopRun ClusterTables.sampleHashes 9 loopIteration [loopIteration]).map
      (fun s => s.rules.recurrentSequences.get? 0) = some (some [sampleSequences.toFinset]) := by
    decide +kernel
  obtain ⟨s, hs, hrules⟩ := Option.map_eq_some_iff.mp hrun
  exact ⟨s, hs, hrules⟩

theorem loopRun_returns_iff_sample :
    (∃ fuel s, loopRun ClusterTables.sampleHashes fuel loopIteration [loopIteration] = some s) ∧
    ∀ fuel s, loopRun ClusterTables.sampleHashes fuel loopIteration [] = some s →
      ¬ MergeStuck ⟨ClusterTables.sampleHashes, sampleGrammar, fuel⟩ listedUpdate s.capture
        s.rules := by
  obtain ⟨s, hs, -⟩ := sample_loopRun
  refine ⟨⟨9, s, hs⟩, fun fuel s₀ h₀ => ?_⟩
  refine (loopRun_returns_iff (by decide) sampleGrammar_noEmptyAlternative sampleFuzzer
    ClusterTables.sampleHashes loopIteration [loopIteration] ?_ ?_).mp ⟨9, s, hs⟩ [] loopIteration []
      fuel s₀ rfl h₀
  · intro it hit
    rw [List.mem_singleton.mp hit]
  · intro it hit
    obtain rfl : it = loopIteration := by simpa using hit
    exact ⟨by simp [loopIteration], rfl⟩

theorem stored_rules_from_inputs_sample : ∃ s,
    loopRun ClusterTables.sampleHashes 9 loopIteration [loopIteration] = some s ∧
    ∀ q ∈ sampleSequences.toFinset, ∃ item,
      WrittenIn ClusterTables.sampleHashes 9 loopIteration [loopIteration] item ∧
      Realises item.tree.expanded q := by
  obtain ⟨s, hs, hrules⟩ := sample_loopRun
  refine ⟨s, hs, fun q hq => ?_⟩
  obtain ⟨-, hall⟩ := stored_rules_from_inputs (by decide) sampleGrammar_noEmptyAlternative
    sampleFuzzer ClusterTables.sampleHashes 9 loopIteration [loopIteration]
    (fun it hit => by rw [List.mem_singleton.mp hit]) s hs 0 _ hrules
  obtain ⟨item, k, seqs, hwritten, hreal, -⟩ := (hall _ (List.mem_singleton_self _)).2 q hq
  exact ⟨item, hwritten, hreal⟩

theorem loopRun_refines_sample : ∃ s,
    loopRun ClusterTables.sampleHashes 9 loopIteration [loopIteration] = some s ∧
    s.Current sampleGrammar ∧
    ∀ item ∈ s.capture.batch, item.GeneratedWith sampleGrammar "list" s.tables := by
  obtain ⟨s, hs, -⟩ := sample_loopRun
  obtain ⟨-, hcurrent, hbatch⟩ := loopRun_refines (by decide) sampleGrammar_noEmptyAlternative
    sampleFuzzer ClusterTables.sampleHashes 9 loopIteration [loopIteration]
    (fun it hit => by rw [List.mem_singleton.mp hit]) s hs
  exact ⟨s, hs, hcurrent (by simp), hbatch⟩

end RSFuzz
