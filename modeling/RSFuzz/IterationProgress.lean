import RSFuzz.CaptureProgress
import RSFuzz.RecaptureSchedule

set_option autoImplicit false

/-!
# Where an iteration stops

An iteration of the capture phase on complete trees returns unless the rules it
merges hold all numbers of a symbol alone, and it keeps what is true of the
rules and the files at the head of the loop.
-/
namespace RSFuzz
open OrderedMap OptionFold ClusterTables

/-- The report is on some input: there is a row to read the first exception from, and a line in the
    file of the coverage. -/
structure Report.NonEmpty (report : Report) : Prop where
  rows : report ≠ .javaprog1 []
  lines : report.isBlank = false

theorem dirCopies_returns {limit increment : ℕ} {cnt : ExceptionsCnt} {report : Report}
    (h : report.NonEmpty) : ∃ r, dirCopies limit increment cnt report = some r := by
  cases report with
  | javaprog1 exceptionList =>
    cases exceptionList with
    | nil => exact absurd rfl h.rows
    | cons e es => exact ⟨_, rfl⟩
  | javaprog2 exceptions blank => exact ⟨_, rfl⟩
  | cprog errorCodes => exact ⟨_, rfl⟩

theorem captureInit_returns {first : Iteration} (h : first.report.NonEmpty) :
    ∃ s, captureInit first = some s := by
  obtain ⟨⟨cnt, copies⟩, hcopies⟩ : ∃ r, captureDirCopies Map.empty first.report = some r :=
    dirCopies_returns h
  simp only [captureInit, hcopies, h.lines, Option.bind_eq_bind, Option.bind_some,
    Bool.false_eq_true, ↓reduceIte]
  exact ⟨_, rfl⟩

theorem rulesForGenerator_returns_iff {G : Grammar} (order : MergeOrder)
    {recurrentSequences : Map ℕ (List RuleSet)}
    (hcap : ∀ rs ∈ removeIncludedSeqs (sortedBySize recurrentSequences.values.flatten), ∀ q ∈ rs,
      Captured G q) :
    (∃ rss, rulesForGenerator G order recurrentSequences = some rss) ↔
      ¬ RootFamily G (removeIncludedSeqs (sortedBySize recurrentSequences.values.flatten)) := by
  have hcaps : ∀ inter idx q, Absorbs G
      (removeIncludedSeqs (sortedBySize recurrentSequences.values.flatten)) inter idx q →
      Captured G q := fun inter idx q habs => captured_of_mem_subpathsToMerge hcap habs.2.1
  have hmerge := mergeRules_returns_iff_defined order fun inter _ idx q hq =>
    (captured_of_mem_subpathsToMerge hcap hq).mem_keys _
      (List.mem_of_getLast? q.getLast?_symbols)
  have hmap : (∃ rss, rulesForGenerator G order recurrentSequences = some rss) ↔
      ∃ merged, mergeRules G order
        (removeIncludedSeqs (sortedBySize recurrentSequences.values.flatten)) = some merged := by
    simp [rulesForGenerator, Option.map_eq_some_iff]
  rw [hmap, hmerge, rootFamily_iff hcap]
  constructor
  · rintro hdef ⟨inter, idx, q, habs, hroot⟩
    obtain ⟨subpaths, hp⟩ := hdef inter idx q habs
    rw [(hcaps inter idx q habs).parentSubpaths_eq_none_iff.mpr hroot] at hp
    cases hp
  · intro hno inter idx q habs
    refine Option.ne_none_iff_exists'.mp fun hnone => hno ⟨inter, idx, q, habs, ?_⟩
    exact (hcaps inter idx q habs).parentSubpaths_eq_none_iff.mp hnone

section Iteration

variable {env : Env} {start : Sym} {inputs : List CsvInput} {c : CaptureState} {s : RuleState}

theorem RulesReadBy.captured {t : ClusterTables}
    (h : RulesReadBy (collapsedReader env.grammar env.fuel) inputs t s)
    (hstart : start ∈ env.grammar.keys)
    (hgen : ∀ item ∈ inputs, item.GeneratedFrom env.grammar start) :
    ∀ rs ∈ removeIncludedSeqs (sortedBySize s.recurrentSequences.values.flatten), ∀ q ∈ rs,
      Captured env.grammar q := by
  intro rs hrs q hq
  have hmem := mem_sortedBySize.mp (mem_of_mem_removeIncludedSeqs hrs)
  obtain ⟨rules, hrules, hin⟩ := List.mem_flatten.mp hmem
  obtain ⟨⟨covKey, rules⟩, hentry, rfl⟩ := List.mem_map.mp hrules
  have hget := (Map.get?_eq_some_iff _ _ _).mpr hentry
  obtain ⟨k, seqs, -, hfile, hqs⟩ := ((h.rules covKey rules hget).2 rs hin).2 q hq
  obtain ⟨item, hitem, hrun⟩ := h.files.read k seqs hfile
  obtain ⟨hw, hclosed⟩ := (hgen item hitem).closed hstart
  exact ⟨start, item.tree, item.order, env.fuel, seqs, hstart, hw, hclosed, hrun, hqs⟩

theorem RulesOk.createCsv (h : RulesOk env inputs c.tables s) {csv : CsvState} {files : SeqsFiles}
    (hrun : createCsvFiles env.hashes env.grammar env.fuel c.nLines c.tables s.seqsFiles c.batch =
      some (csv, files)) :
    RulesOk env (inputs ++ c.batch) csv.tables { s with seqsFiles := files } := by
  have hcsv := createCsvFiles_spec h.files hrun
  exact h.grow hcsv.files hcsv.keeps hcsv.keepsFiles

theorem RulesOk.mono {t : ClusterTables} (h : RulesOk env inputs t s) (more : List CsvInput) :
    RulesOk env (inputs ++ more) t s :=
  h.grow (h.files.mono fun _ hitem => List.mem_append_left more hitem) (.refl t) fun _ _ hk => hk

/-- The rules that an update would merge hold all numbers of a symbol alone. -/
def MergeStuck (env : Env) (choice : UpdateChoice) (c : CaptureState) (s : RuleState) : Prop :=
  c.coverage.doUpdate = true ∧ ∃ csv files updated,
    createCsvFiles env.hashes env.grammar env.fuel c.nLines c.tables s.seqsFiles c.batch =
      some (csv, files) ∧
    RSFuzz.updateRecurrentSequences choice csv.tables csv.updatedCovs
      { s with seqsFiles := files } = some updated ∧
    RootFamily env.grammar
      (removeIncludedSeqs (sortedBySize updated.recurrentSequences.values.flatten))

section Step

variable {choice : UpdateChoice}

variable (h : RulesOk env inputs c.tables s) (hstart : start ∈ env.grammar.keys)
  (hne : env.grammar.NoEmptyAlternative)
  (hgen : ∀ item ∈ inputs ++ c.batch, item.GeneratedFrom env.grammar start)

include h hstart hne hgen

theorem RulesOk.updated {csv : CsvState} {files : SeqsFiles} {updated : RuleState}
    (hcsv : createCsvFiles env.hashes env.grammar env.fuel c.nLines c.tables s.seqsFiles c.batch =
      some (csv, files))
    (hupdated : RSFuzz.updateRecurrentSequences choice csv.tables csv.updatedCovs
      { s with seqsFiles := files } = some updated) :
    RulesOk env (inputs ++ c.batch) csv.tables updated := by
  obtain ⟨s', hs', hok⟩ := (h.createCsv hcsv).updateRecurrentSequences hstart hne hgen choice
    csv.updatedCovs
  rw [hupdated] at hs'
  rwa [Option.some.inj hs']

theorem RulesOk.ruleStep {it : Iteration} {c' : CaptureState} {s' : RuleState}
    (hrun : ruleStep env (c, s) (it, choice) = some (c', s')) :
    RulesOk env (inputs ++ c.batch) c'.tables s' := by
  simp only [RSFuzz.ruleStep, Option.bind_eq_bind, Option.pure_def] at hrun
  obtain ⟨rules, hrules, hrun⟩ := Option.bind_eq_some_iff.mp hrun
  obtain ⟨capture, hcapture, hrun⟩ := Option.bind_eq_some_iff.mp hrun
  obtain ⟨rfl, rfl⟩ := Prod.mk.inj (Option.some.inj hrun)
  obtain ⟨tables, csvCopies, _, _, _, htables, -, -, rfl⟩ := captureStep_eq hcapture
  by_cases hdue : c.coverage.doUpdate = true
  · rw [rulesIfDue, if_pos hdue] at hrules
    rw [updateTables, if_pos hdue] at htables
    obtain ⟨⟨csv, updated⟩, hupdate, rfl⟩ := Option.map_eq_some_iff.mp hrules
    simp only [updateRules, Option.bind_eq_bind, Option.pure_def] at hupdate
    obtain ⟨⟨csv', files⟩, hcsv, hupdate⟩ := Option.bind_eq_some_iff.mp hupdate
    obtain ⟨updated', hupdated, hupdate⟩ := Option.bind_eq_some_iff.mp hupdate
    obtain ⟨_, -, hupdate⟩ := Option.bind_eq_some_iff.mp hupdate
    obtain ⟨rfl, rfl⟩ := Prod.mk.inj (Option.some.inj hupdate)
    rw [createCsv_of_files hcsv] at htables
    obtain ⟨rfl, -⟩ := Prod.mk.inj (Option.some.inj htables)
    exact h.updated hstart hne hgen hcsv hupdated
  · rw [rulesIfDue, if_neg hdue] at hrules
    rw [updateTables, if_neg hdue] at htables
    obtain rfl := Option.some.inj hrules
    obtain ⟨rfl, -⟩ := Prod.mk.inj (Option.some.inj htables)
    exact h.mono c.batch

/-- An iteration on readable trees returns exactly if its update is not stuck. -/
theorem RulesOk.ruleStep_returns_iff {it : Iteration} (hreport : it.report.NonEmpty)
    (hlen : c.coverage.beforeCovVec.length = it.cov.length)
    (hread : ∀ item ∈ c.batch,
      ∃ seqs, dtToSequences env.grammar item.order item.tree env.fuel = some seqs) :
    (∃ r, RSFuzz.ruleStep env (c, s) (it, choice) = some r) ↔ ¬ MergeStuck env choice c s := by
  obtain ⟨⟨csv, files⟩, hcsv⟩ := createCsvFiles_returns h.files c.nLines hread
  obtain ⟨updated, hupdated, -⟩ := (h.createCsv hcsv).updateRecurrentSequences hstart hne hgen choice
    csv.updatedCovs
  have hmerge := rulesForGenerator_returns_iff choice.merge
    ((h.updated hstart hne hgen hcsv hupdated).captured hstart hgen)
  constructor
  · rintro ⟨r, hrun⟩ ⟨hdue, csv', files', updated', hcsv', hupdated', hroot⟩
    obtain ⟨rfl, rfl⟩ := Prod.mk.inj (Option.some.inj (hcsv.symm.trans hcsv'))
    obtain rfl := Option.some.inj (hupdated.symm.trans hupdated')
    refine hmerge.mp ?_ hroot
    simp only [RSFuzz.ruleStep, rulesIfDue, if_pos hdue, updateRules, hcsv, hupdated,
      Option.bind_eq_bind, Option.bind_some, Option.pure_def] at hrun
    obtain ⟨_, hrules, -⟩ := Option.bind_eq_some_iff.mp hrun
    obtain ⟨_, hrules, -⟩ := Option.map_eq_some_iff.mp hrules
    obtain ⟨rss, hrss, -⟩ := Option.bind_eq_some_iff.mp hrules
    exact ⟨rss, hrss⟩
  · intro hfree
    obtain ⟨⟨cnt, copies⟩, hcopies⟩ : ∃ r, captureDirCopies c.exceptionsCnt it.report = some r :=
      dirCopies_returns hreport
    obtain ⟨coverage, hcoverage⟩ := CoverageState.step_returns hlen
    obtain ⟨rules, hrules⟩ : ∃ rules, rulesIfDue env choice (c, s) = some rules := by
      rw [rulesIfDue]
      split_ifs with hdue
      · obtain ⟨rss, hrss⟩ := hmerge.mpr fun hroot =>
          hfree ⟨hdue, csv, files, updated, hcsv, hupdated, hroot⟩
        exact ⟨updated, by simp only [updateRules, hcsv, hupdated, hrss, Option.bind_eq_bind,
          Option.bind_some, Option.pure_def, Option.map_some]⟩
      · exact ⟨s, rfl⟩
    obtain ⟨⟨tables, csvCopies⟩, htables⟩ : ∃ r, updateTables env c = some r := by
      rw [updateTables]
      split_ifs
      · exact ⟨_, by rw [createCsv_of_files hcsv, Option.map_some]⟩
      · exact ⟨_, rfl⟩
    exact ⟨_, by simp only [RSFuzz.ruleStep, captureStep, hrules, htables, hcopies, hcoverage,
      Option.bind_eq_bind, Option.bind_some, Option.pure_def]; rfl⟩

end Step

end Iteration

end RSFuzz
