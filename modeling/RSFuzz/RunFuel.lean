import RSFuzz.CsvReading
import RSFuzz.FoundationFuel

set_option autoImplicit false

/-!
# Runs with more fuel

Walking a tree is the only loop of the capture phase that is bounded by fuel. A
run that ends with some fuel ends in the same state with more.
-/
namespace RSFuzz
open OrderedMap Fuel

variable {h : Hashes} {G : Grammar} {nLines : ℕ}

theorem rawSequences_settled (tree : Tree) : Settled (rawSequences G tree) :=
  (settled_while _ _ _).map _

theorem dtToSequences_settled (order : IterationOrder (List Entry)) (tree : Tree) :
    Settled (dtToSequences G order tree) :=
  (rawSequences_settled tree).bind fun _ => .const _

section AnyReading

variable {read : ℕ → SequenceReader} (hread : ∀ item, Settled fun fuel => read fuel item)

include hread

theorem writeSeqsBy_settled (t : ClusterTables) (item : CsvInput) (files : SeqsFiles) :
    Settled fun fuel => writeSeqsBy h (read fuel) t item files := by
  unfold writeSeqsBy
  cases t.dtIdx.get? (h.tree item.tree) with
  | some _ => exact .const _
  | none => exact (hread item).map _

theorem classifyBy_settled (t : ClusterTables) (item : CsvInput) :
    Settled fun fuel => classifyBy h (read fuel) nLines t item := by
  unfold classifyBy
  cases t.dtIdx.get? (h.tree item.tree) with
  | some _ => exact .const _
  | none => exact (hread item).bind fun _ => .const _

theorem csvInputBy_settled (acc : CsvState × SeqsFiles) (item : CsvInput × ℕ) :
    Settled fun fuel => csvInputBy h (read fuel) nLines acc item :=
  (writeSeqsBy_settled hread acc.1.tables item.1 acc.2).bind fun _ =>
    (classifyBy_settled hread acc.1.tables item.1).bind fun _ => .const _

theorem createCsvBy_settled (t : ClusterTables) (files : SeqsFiles) (batch : List CsvInput) :
    Settled fun fuel => createCsvBy h (read fuel) nLines t files batch :=
  .foldlM (csvInputBy_settled hread) _ _

end AnyReading

theorem collapsedReader_settled (item : CsvInput) :
    Settled fun fuel => collapsedReader G fuel item :=
  dtToSequences_settled item.order item.tree

theorem csvInput_settled (st : CsvState) (item : CsvInput × ℕ) :
    Settled fun fuel => csvInput h G fuel nLines st item :=
  (classifyBy_settled collapsedReader_settled st.tables item.1).bind fun _ => .const _

theorem createCsv_settled (t : ClusterTables) (batch : List CsvInput) :
    Settled fun fuel => createCsv h G fuel nLines t batch :=
  .foldlM csvInput_settled _ _

theorem createCsvFiles_settled (t : ClusterTables) (files : SeqsFiles) (batch : List CsvInput) :
    Settled fun fuel => createCsvFiles h G fuel nLines t files batch := by
  simp only [createCsvFiles_eq]
  exact createCsvBy_settled collapsedReader_settled t files batch

theorem captureStep_settled (s : CaptureState) (it : Iteration) :
    Settled fun fuel => captureStep ⟨h, G, fuel⟩ s it := by
  have htables : Settled fun fuel => updateTables ⟨h, G, fuel⟩ s :=
    .ite _ ((createCsv_settled s.tables s.batch).map _) (.const _)
  exact htables.bind fun _ => .const _

theorem updateRules_settled (choice : UpdateChoice) (s : CaptureState) (rules : RuleState) :
    Settled fun fuel => updateRules ⟨h, G, fuel⟩ choice s rules :=
  (createCsvFiles_settled s.tables rules.seqsFiles s.batch).bind fun (csv, files) =>
    .const (do
      let updated ← updateRecurrentSequences choice csv.tables csv.updatedCovs
        { rules with seqsFiles := files }
      let _ ← rulesForGenerator G choice.merge updated.recurrentSequences
      return (csv, updated))

theorem ruleStep_settled (s : CaptureState × RuleState) (it : Iteration × UpdateChoice) :
    Settled fun fuel => ruleStep ⟨h, G, fuel⟩ s it := by
  have hrules : Settled fun fuel => rulesIfDue ⟨h, G, fuel⟩ it.2 s :=
    .ite _ ((updateRules_settled it.2 s.1 s.2).map _) (.const _)
  exact hrules.bind fun _ => (captureStep_settled s.1 it.1).bind fun _ => .const _

end RSFuzz
