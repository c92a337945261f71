import RSFuzz.CsvReading
import RSFuzz.IterationProgress

set_option autoImplicit false

/-!
# The naive variants

`main/naive_genRS.py` leaves parts of the capture phase out: `naive` and
`select` neither collapse nor reduce anything, `naive` and `capture` capture
every cluster as soon as it is known and never again. `none` stands for an
exception.
-/
namespace RSFuzz
open OrderedMap OptionFold ClusterTables

inductive NaiveVersion where
  | naive
  | select
  | capture
deriving DecidableEq, Repr

namespace NaiveVersion

section Definitions

variable (v : NaiveVersion)

/-- `dt_to_sequences`; the sequences are collapsed in one version only. -/
def dtToSequences (G : Grammar) (order : IterationOrder (List Entry)) (tree : Tree) (fuel : ℕ) :
    Option (List (List Entry)) :=
  if v = .capture then RSFuzz.dtToSequences G order tree fuel
  else (rawSequences G tree fuel).map fun sequences =>
    (order.list sequences).insertionSort fun a b => a.length ≤ b.length

def reader (G : Grammar) (fuel : ℕ) : SequenceReader :=
  fun item => v.dtToSequences G item.order item.tree fuel

def createCsv (env : Env) (nLines : ℕ) (t : ClusterTables) (files : SeqsFiles)
    (batch : List CsvInput) : Option (CsvState × SeqsFiles) :=
  createCsvBy env.hashes (v.reader env.grammar env.fuel) nLines t files batch

/-- The tuples of a cluster; `tuple(seqs)` lists a set in the order in which it is iterated. -/
def refinedSeqsList (order : CaptureOrder) (seqsList : List (List Sequence)) :
    Option (List (List Sequence)) :=
  if v = .capture then RSFuzz.refinedSeqsList order seqsList
  else some (order.refined.list (seqsList.map fun seqs => order.simplified.list seqs.dedup).dedup)

def captureRuleFromCluster (labelling : Labelling) (order : CaptureOrder)
    (prev : Option PrevCaptured) (seqsList : List (List Sequence)) : Option Capture := do
  let refined ← v.refinedSeqsList order seqsList
  let ranked := rankedSequences refined
  let labels ← convertLabels (labelling.fit (rankingValues refined.length ranked))
  let nUsed := nUsedClusters prev ranked labels
  let selected := (selectSequences ranked labels nUsed).toFinset
  let rules := tmpPl selected refined
  return ⟨refined, ⟨labels.foldl max 0, nUsed, selected⟩,
    if v = .capture then removeIncludedSeqs rules else rules⟩

def clustersToUpdate (choice : UpdateChoice) (t : ClusterTables) (updatedCovs : Finset ℕ)
    (capturedCovs : Finset ℕ) : List ℕ :=
  if v = .select then RSFuzz.clustersToUpdate choice t updatedCovs capturedCovs
  else choice.toUpdate.list (t.totalClusters.keys.filter (· ∉ capturedCovs))

/-- The file is read where the cluster is captured again, by one version only. -/
def readPrev (s : RuleState) (covKey : ℕ) : Option (Option PrevCaptured) :=
  if covKey ∈ s.capturedCovs ∧ v = .capture then (s.prevCaptured.get? covKey).map some else some none

def updateCluster (choice : UpdateChoice) (t : ClusterTables) (s : RuleState) (covKey : ℕ) :
    Option RuleState := do
  let cluster ← t.totalClusters.get? covKey
  let seqsList ← loadSeqs s.seqsFiles cluster
  let parameterDict :=
    if covKey ∈ s.capturedCovs then s.parameterDict else s.parameterDict.set covKey []
  let prev ← v.readPrev s covKey
  let capture ← v.captureRuleFromCluster choice.labelling (choice.capture covKey) prev seqsList
  let parameters ← parameterDict.get? covKey
  return { s with
    recurrentSequences := s.recurrentSequences.set covKey capture.rules
    parameterDict := parameterDict.set covKey (parameters ++ [capture.parameter])
    capturedCovs := insert covKey s.capturedCovs
    prevCaptured := s.prevCaptured.set covKey capture.prevCaptured }

def updateRecurrentSequences (choice : UpdateChoice) (t : ClusterTables) (updatedCovs : Finset ℕ)
    (s : RuleState) : Option RuleState :=
  (v.clustersToUpdate choice t updatedCovs s.capturedCovs).foldlM (v.updateCluster choice t) s

/-- `tmp_rss`, from which the tables of the generator are made. -/
def rulesForGenerator (G : Grammar) (order : MergeOrder)
    (recurrentSequences : Map ℕ (List RuleSet)) : Option (List RuleSet) :=
  if v = .capture then RSFuzz.rulesForGenerator G order recurrentSequences
  else some recurrentSequences.values.flatten

def updateRules (env : Env) (choice : UpdateChoice) (s : CaptureState) (rules : RuleState) :
    Option (CsvState × RuleState) := do
  let (csv, files) ← v.createCsv env s.nLines s.tables rules.seqsFiles s.batch
  let updated ← v.updateRecurrentSequences choice csv.tables csv.updatedCovs
    { rules with seqsFiles := files }
  let _ ← v.rulesForGenerator env.grammar choice.merge updated.recurrentSequences
  return (csv, updated)

def updateIfDue (env : Env) (choice : UpdateChoice) (s : CaptureState × RuleState) :
    Option (ClusterTables × Copies × RuleState) :=
  if s.1.coverage.doUpdate then
    (v.updateRules env choice s.1 s.2).map fun (csv, rules) => (csv.tables, csv.copies, rules)
  else some (s.1.tables, [], s.2)

def step (env : Env) (s : CaptureState × RuleState) (it : Iteration × UpdateChoice) :
    Option (CaptureState × RuleState) := do
  let (tables, csvCopies, rules) ← v.updateIfDue env it.2 s
  let (cnt, copies) ← captureDirCopies s.1.exceptionsCnt it.1.report
  let coverage ← s.1.coverage.step it.1.cov
  return ({ s.1 with
    infoNum := s.1.infoNum + 1
    coverage := coverage
    tables := tables
    batch := it.1.batch
    exceptionsCnt := cnt
    errors := s.1.errors ++ csvCopies.saved .capture (s.1.infoNum - 1) s.1.infoNum ++
      copies.saved .capture s.1.infoNum s.1.infoNum }, rules)

def run (env : Env) (first : Iteration) (its : List (Iteration × UpdateChoice)) :
    Option (CaptureState × RuleState) :=
  (captureInit first).bind fun s => its.foldlM (v.step env) (s, .empty)

end Definitions

end NaiveVersion

end RSFuzz
