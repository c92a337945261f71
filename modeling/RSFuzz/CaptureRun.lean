import RSFuzz.ClusterTables

set_option autoImplicit false

/-!
# Runs

The main loops of `main/generateRS.py` and `main/runFuzzer.py`: coverage, the
schedule of updates, and the copies of failing inputs in the error directory.
What the generator writes and what the measured program answers in an iteration
is given; `none` stands for an exception.
-/
namespace RSFuzz
open OrderedMap

def noNewline : List Bool → List Bool → Option Bool
  | [], _ => some true
  | _ :: _, [] => none
  | a :: cov1, b :: cov2 => if a ≠ b ∧ b then some false else noNewline cov1 cov2

/-- `cov1 |= cov2` on arrays. An array of one element is broadcast; an empty one has no bits, and for
    other lengths it raises. -/
def orInto : List Bool → List Bool → Option (List Bool)
  | [], _ => none
  | cov1, [b] => some (cov1.map (· || b))
  | cov1, cov2 => if cov1.length = cov2.length then some (List.zipWith or cov1 cov2) else none

/-- `total_coverage` is the file `total_coverage.pickle`, if it was written. -/
structure CoverageState where
  beforeCovVec : List Bool
  nChance : ℕ
  maxNChance : ℕ
  doUpdate : Bool
  totalCoverage : Option (List Bool)

def CoverageState.initial (covVec : List Bool) : CoverageState := ⟨covVec, 0, 1, true, none⟩

def CoverageState.step (s : CoverageState) (newCovVec : List Bool) : Option CoverageState := do
  let stale ← noNewline s.beforeCovVec newCovVec
  if stale then
    if s.nChance + 1 = s.maxNChance then
      some { s with doUpdate := true, nChance := 0, maxNChance := s.maxNChance + 1 }
    else some { s with doUpdate := false, nChance := s.nChance + 1 }
  else (orInto s.beforeCovVec newCovVec).map fun total =>
    { s with doUpdate := false, nChance := 0, beforeCovVec := total, totalCoverage := some total }

/-- A record of `errs.json`, with the input index in each file name. -/
structure ExceptionRecord where
  name : String
  location : String
  files : List ℕ

/-- What `get_dir_cov` finds out about failures: the last column of each row, the exceptions
    logged, with whether the file of the coverage has no line, or the exit codes. -/
inductive Report where
  | javaprog1 (exceptionList : List String)
  | javaprog2 (exceptions : List ExceptionRecord) (blank : Bool)
  | cprog (errorCodes : List ℤ)

/-- `jacoco_handler2` returns the list `[]`, which has no `sum()`. -/
def Report.isBlank : Report → Bool
  | .javaprog2 _ blank => blank
  | _ => false

def exceptionsToSkip : List String := ["InvalidSyntaxException"]

def ExceptionRecord.skipped (e : ExceptionRecord) : Bool :=
  (e.name.splitOn ".").getLast?.any (· ∈ exceptionsToSkip)

def ExceptionRecord.key (e : ExceptionRecord) : String × String := (e.name, e.location)

abbrev Copies := List (ℕ × ℕ)

/-- The names of later rows are those of the rows before them. -/
def javaprog1Copies (exceptionList : List String) : Option Copies :=
  (exceptionList[0]?).map fun first =>
    (if first = "1" then [(0, 0)] else []) ++
      ((List.range (exceptionList.length - 1)).filter fun i =>
        exceptionList[i]? ≠ exceptionList[i + 1]?).map fun i => (i + 1, i)

def copyFiles (limit increment : ℕ) : ℕ → List ℕ → ℕ × Copies
  | cnt, [] => (cnt, [])
  | cnt, tcIdx :: files =>
    if limit < cnt then (cnt, [])
    else
      let rest := copyFiles limit increment (cnt + increment) files
      (rest.1, (tcIdx, tcIdx) :: rest.2)

abbrev ExceptionsCnt := Map (String × String) ℕ

def copyRecord (limit increment : ℕ) (acc : ExceptionsCnt × Copies) (e : ExceptionRecord) :
    ExceptionsCnt × Copies :=
  if e.skipped then acc
  else
    let copied := copyFiles limit increment ((acc.1.get? e.key).getD 0)
      (e.files.take (min e.files.length 100))
    (acc.1.set e.key copied.1, acc.2 ++ copied.2)

def javaprog2Copies (limit increment : ℕ) (cnt : ExceptionsCnt) (exceptions : List ExceptionRecord) :
    ExceptionsCnt × Copies :=
  exceptions.foldl (copyRecord limit increment) (cnt, [])

def cprogCopies (errorCodes : List ℤ) : Copies :=
  ((List.range errorCodes.length).filter fun i => (errorCodes[i]?).any (· < 0)).map fun i => (i, i)

def dirCopies (limit increment : ℕ) (cnt : ExceptionsCnt) : Report → Option (ExceptionsCnt × Copies)
  | .javaprog1 exceptionList => (javaprog1Copies exceptionList).map fun copies => (cnt, copies)
  | .javaprog2 exceptions _ => some (javaprog2Copies limit increment cnt exceptions)
  | .cprog errorCodes => some (cnt, cprogCopies errorCodes)

/-- The copies of `generateRS.get_dir_cov`: its counts are never raised. -/
def captureDirCopies : ExceptionsCnt → Report → Option (ExceptionsCnt × Copies) := dirCopies 100000 0

def testDirCopies : ExceptionsCnt → Report → Option (ExceptionsCnt × Copies) := dirCopies 200000 1

inductive Phase where
  | capture
  | test
deriving DecidableEq, Repr

/-- An input, by phase, iteration and index, and the name `{info_num}_{index}` of its copy. -/
structure ErrorCopy where
  input : Phase × ℕ × ℕ
  name : ℕ × ℕ
deriving DecidableEq, Repr

def Copies.saved (copies : Copies) (phase : Phase) (iteration infoNum : ℕ) : List ErrorCopy :=
  copies.map fun p => ⟨(phase, iteration, p.1), (infoNum, p.2)⟩

structure Iteration where
  batch : List CsvInput
  report : Report
  cov : List Bool

structure Env where
  hashes : Hashes
  grammar : Grammar
  fuel : ℕ

/-- `batch` are the files left in the test case directory. -/
structure CaptureState where
  infoNum : ℕ
  nLines : ℕ
  coverage : CoverageState
  tables : ClusterTables
  batch : List CsvInput
  exceptionsCnt : ExceptionsCnt
  errors : List ErrorCopy

def captureInit (first : Iteration) : Option CaptureState := do
  let (cnt, copies) ← captureDirCopies Map.empty first.report
  if first.report.isBlank then none
  else some {
    infoNum := 1
    nLines := first.cov.length
    coverage := .initial first.cov
    tables := .empty
    batch := first.batch
    exceptionsCnt := cnt
    errors := copies.saved .capture 0 0 }

def updateTables (env : Env) (s : CaptureState) : Option (ClusterTables × Copies) :=
  if s.coverage.doUpdate then
    (createCsv env.hashes env.grammar env.fuel s.nLines s.tables s.batch).map fun st =>
      (st.tables, st.copies)
  else some (s.tables, [])

def captureStep (env : Env) (s : CaptureState) (it : Iteration) : Option CaptureState := do
  let (tables, csvCopies) ← updateTables env s
  let (cnt, copies) ← captureDirCopies s.exceptionsCnt it.report
  let coverage ← s.coverage.step it.cov
  return { s with
    infoNum := s.infoNum + 1
    coverage := coverage
    tables := tables
    batch := it.batch
    exceptionsCnt := cnt
    errors := s.errors ++ csvCopies.saved .capture (s.infoNum - 1) s.infoNum ++
      copies.saved .capture s.infoNum s.infoNum }

/-- `generateRS.run` up to the end of an iteration. -/
def captureRun (env : Env) (first : Iteration) (its : List Iteration) : Option CaptureState :=
  (captureInit first).bind fun s => its.foldlM (captureStep env) s

/-- `totalCoverageTesting` is the file `total_coverage_testing.pickle`. -/
structure TestState where
  infoNum : ℕ
  totalCov : List Bool
  totalCoverageTesting : Option (List Bool)
  exceptionsCnt : ExceptionsCnt
  errors : List ErrorCopy

def resumeCoverage (totalCoverage : Option (List Bool)) : List Bool := totalCoverage.getD []

def startCoverage (totalCov tmpCov : List Bool) : Option (List Bool) :=
  if totalCov.length = 0 then some tmpCov else orInto totalCov tmpCov

def addCoverage (totalCov tmpTotalCov : List Bool) : Option (List Bool) :=
  if tmpTotalCov.length ≠ 0 then orInto totalCov tmpTotalCov else some totalCov

def testInit (totalCoverage : Option (List Bool)) (first : Iteration) : Option TestState := do
  let (cnt, copies) ← testDirCopies Map.empty first.report
  let total ← startCoverage (resumeCoverage totalCoverage) first.cov
  if (resumeCoverage totalCoverage).length = 0 ∧ first.report.isBlank = true then none
  else some ⟨1, total, none, cnt, copies.saved .test 0 0⟩

def testStep (s : TestState) (it : Iteration) : Option TestState := do
  let (cnt, copies) ← testDirCopies s.exceptionsCnt it.report
  let total ← addCoverage s.totalCov it.cov
  return ⟨s.infoNum + 1, total, some total, cnt,
    s.errors ++ copies.saved .test s.infoNum s.infoNum⟩

def testRun (totalCoverage : Option (List Bool)) (first : Iteration) (its : List Iteration) :
    Option TestState :=
  (testInit totalCoverage first).bind fun s => its.foldlM testStep s

/-- How far an unfinished iteration of the capture phase has come: `create_csv` with the first `n`
    inputs, or `get_dir_cov`, after `create_csv`, with a part of the report. -/
inductive Unfinished where
  | clustering (n : ℕ)
  | copying (part : Report)

def unfinishedCopies (env : Env) (s : CaptureState) : Unfinished → Option (List ErrorCopy)
  | .clustering n => (updateTables env { s with batch := s.batch.take n }).map fun (_, csvCopies) =>
    csvCopies.saved .capture (s.infoNum - 1) s.infoNum
  | .copying part => do
    let (_, csvCopies) ← updateTables env s
    let (_, copies) ← captureDirCopies s.exceptionsCnt part
    return csvCopies.saved .capture (s.infoNum - 1) s.infoNum ++
      copies.saved .capture s.infoNum s.infoNum

/-- The copies that the capture phase has made when it is ended, after whole iterations. There are
    no inputs to cluster in the first iteration. -/
def captureErrors (env : Env) : List Iteration → Unfinished → Option (List ErrorCopy)
  | [], .clustering _ => some []
  | [], .copying part =>
    (captureDirCopies Map.empty part).map fun (_, copies) => copies.saved .capture 0 0
  | first :: its, unfinished => do
    let s ← captureRun env first its
    let copies ← unfinishedCopies env s unfinished
    return s.errors ++ copies

def testErrors (totalCoverage : Option (List Bool)) :
    List Iteration → Option Report → Option (List ErrorCopy)
  | [], none => some []
  | [], some part => (testDirCopies Map.empty part).map fun (_, copies) => copies.saved .test 0 0
  | first :: its, none => (testRun totalCoverage first its).map TestState.errors
  | first :: its, some part => do
    let s ← testRun totalCoverage first its
    let (_, copies) ← testDirCopies s.exceptionsCnt part
    return s.errors ++ copies.saved .test s.infoNum s.infoNum

theorem orInto_of_length_eq {cov1 cov2 : List Bool} (hlen : cov1.length = cov2.length)
    (hne : cov1 ≠ []) : orInto cov1 cov2 = some (List.zipWith or cov1 cov2) := by
  match cov1, cov2, hlen with
  | [], [], _ => exact absurd rfl hne
  | [a], [b], _ => rfl
  | a :: a' :: cov1, b :: b' :: cov2, hlen => exact if_pos hlen

theorem captureInit_eq {first : Iteration} {s : CaptureState} (h : captureInit first = some s) :
    ∃ cnt copies, captureDirCopies Map.empty first.report = some (cnt, copies) ∧
      s = {
        infoNum := 1
        nLines := first.cov.length
        coverage := .initial first.cov
        tables := .empty
        batch := first.batch
        exceptionsCnt := cnt
        errors := copies.saved .capture 0 0 } := by
  obtain ⟨⟨cnt, copies⟩, hcopies, hs⟩ := Option.bind_eq_some_iff.mp h
  split_ifs at hs
  exact ⟨cnt, copies, hcopies, (Option.some.inj hs).symm⟩

theorem captureStep_eq {env : Env} {s s' : CaptureState} {it : Iteration}
    (h : captureStep env s it = some s') :
    ∃ tables csvCopies cnt copies coverage, updateTables env s = some (tables, csvCopies) ∧
      captureDirCopies s.exceptionsCnt it.report = some (cnt, copies) ∧
      s.coverage.step it.cov = some coverage ∧
      s' = { s with
        infoNum := s.infoNum + 1
        coverage := coverage
        tables := tables
        batch := it.batch
        exceptionsCnt := cnt
        errors := s.errors ++ csvCopies.saved .capture (s.infoNum - 1) s.infoNum ++
          copies.saved .capture s.infoNum s.infoNum } := by
  simp only [captureStep, Option.bind_eq_bind, Option.pure_def] at h
  obtain ⟨⟨tables, csvCopies⟩, htables, h⟩ := Option.bind_eq_some_iff.mp h
  obtain ⟨⟨cnt, copies⟩, hcopies, h⟩ := Option.bind_eq_some_iff.mp h
  obtain ⟨coverage, hcoverage, h⟩ := Option.bind_eq_some_iff.mp h
  exact ⟨tables, csvCopies, cnt, copies, coverage, htables, hcopies, hcoverage,
    (Option.some.inj h).symm⟩

theorem captureRun_concat {env : Env} {first it : Iteration} {its : List Iteration}
    {s' : CaptureState} (h : captureRun env first (its ++ [it]) = some s') :
    ∃ s, captureRun env first its = some s ∧ captureStep env s it = some s' := by
  obtain ⟨s₀, h₀, hloop⟩ := Option.bind_eq_some_iff.mp h
  obtain ⟨s, hs, hstep⟩ := OptionFold.foldlM_concat hloop
  exact ⟨s, Option.bind_eq_some_iff.mpr ⟨s₀, h₀, hs⟩, hstep⟩

theorem testInit_eq {totalCoverage : Option (List Bool)} {first : Iteration} {s : TestState}
    (h : testInit totalCoverage first = some s) :
    ∃ cnt copies total, testDirCopies Map.empty first.report = some (cnt, copies) ∧
      s = ⟨1, total, none, cnt, copies.saved .test 0 0⟩ := by
  simp only [testInit, Option.bind_eq_bind] at h
  obtain ⟨⟨cnt, copies⟩, hcopies, h⟩ := Option.bind_eq_some_iff.mp h
  obtain ⟨total, -, h⟩ := Option.bind_eq_some_iff.mp h
  split_ifs at h
  exact ⟨cnt, copies, total, hcopies, (Option.some.inj h).symm⟩

theorem testRun_concat {totalCoverage : Option (List Bool)} {first it : Iteration}
    {its : List Iteration} {s' : TestState}
    (h : testRun totalCoverage first (its ++ [it]) = some s') :
    ∃ s, testRun totalCoverage first its = some s ∧ testStep s it = some s' := by
  obtain ⟨s₀, h₀, hloop⟩ := Option.bind_eq_some_iff.mp h
  obtain ⟨s, hs, hstep⟩ := OptionFold.foldlM_concat hloop
  exact ⟨s, Option.bind_eq_some_iff.mpr ⟨s₀, h₀, hs⟩, hstep⟩

theorem testStep_eq {s s' : TestState} {it : Iteration} (h : testStep s it = some s') :
    ∃ cnt copies total, testDirCopies s.exceptionsCnt it.report = some (cnt, copies) ∧
      s' = ⟨s.infoNum + 1, total, some total, cnt,
        s.errors ++ copies.saved .test s.infoNum s.infoNum⟩ := by
  simp only [testStep, Option.bind_eq_bind, Option.pure_def] at h
  obtain ⟨⟨cnt, copies⟩, hcopies, h⟩ := Option.bind_eq_some_iff.mp h
  obtain ⟨total, -, h⟩ := Option.bind_eq_some_iff.mp h
  exact ⟨cnt, copies, total, hcopies, (Option.some.inj h).symm⟩

end RSFuzz
