import RSFuzz.FoundationPattern
import RSFuzz.ExpansionTokens

set_option autoImplicit false

/-!
# Coverage reports

How the drivers read the report of one input: `gcov_handler` and the two
`jacoco_handler`s, which raise on a line that is too short, and those of
`main/runRatio.py`, which give up there.
-/
namespace RSFuzz

/-- What a driver finds after it has run one input. -/
inductive Answer where
  | timedOut
  | noFile
  | gcov (lines : List Text)
  | jacoco1 (cov : Text)
  | jacoco2 (lines : List Text)

/-- One line of a `gcov` report, by `l[8]`. -/
def gcovLine (resultVec : List Bool) (l : Text) : Option (List Bool) :=
  (l[8]?).map fun c =>
    if c = '-' then resultVec
    else if c = '#' then resultVec ++ [false]
    else resultVec ++ [true]

def gcovHandler (lines : List Text) : Option (List Bool) := lines.foldlM gcovLine []

def jacocoHandler1 : Text → List Bool
  | [] => []
  | c :: rest =>
    if (c :: rest).length < 2 then []
    else if (c :: rest).take 2 = ['N', 'O'] then false :: jacocoHandler1 rest
    else if (c :: rest).length < 3 then []
    else if (c :: rest).take 3 = ['Y', 'E', 'S'] then true :: jacocoHandler1 rest
    else jacocoHandler1 rest

def jacocoLine (covVec : List Bool) (l : Text) : Option (List Bool) :=
  ((l.splitOn ',').reverse[2]?).map fun token =>
    if token = ['1'] then covVec ++ [false] else covVec ++ [true]

def jacocoHandler2 (lines : List Text) : Option (List Bool) :=
  if lines.length = 0 then some [] else lines.tail.foldlM jacocoLine []

/-- `get_file_coverage_cprog` and its siblings; `none` where a handler raises. -/
def fileCoverage : Answer → Option (List Bool)
  | .timedOut => some []
  | .noFile => some []
  | .gcov lines => gcovHandler lines
  | .jacoco1 cov => some (jacocoHandler1 cov)
  | .jacoco2 lines => jacocoHandler2 lines

namespace Ratio

/-- A tuple of flags, or the list that `jacoco_handler2` returns for an empty file. -/
inductive Coverage where
  | tuple (vec : List Bool)
  | emptyList

def scanLines (readLine : List Bool → Text → Option (List Bool)) : List Text → List Bool → List Bool
  | [], vec => vec
  | l :: lines, vec =>
    match readLine vec l with
    | none => []
    | some vec' => scanLines readLine lines vec'

def gcovHandler (lines : List Text) : Coverage := .tuple (scanLines gcovLine lines [])

def jacocoHandler2 (lines : List Text) : Coverage :=
  if lines.length = 0 then .emptyList else .tuple (scanLines jacocoLine lines.tail [])

def fileCoverage : Answer → Coverage
  | .timedOut => .tuple []
  | .noFile => .tuple []
  | .gcov lines => gcovHandler lines
  | .jacoco1 cov => .tuple (jacocoHandler1 cov)
  | .jacoco2 lines => jacocoHandler2 lines

theorem scanLines_eq (readLine : List Bool → Text → Option (List Bool)) (lines : List Text)
    (vec : List Bool) : scanLines readLine lines vec = (lines.foldlM readLine vec).getD [] := by
  induction lines generalizing vec with
  | nil => rfl
  | cons l lines ih =>
    rw [scanLines, List.foldlM_cons]
    cases hread : readLine vec l with
    | none => rfl
    | some vec' => exact ih vec'

/-- The two readings agree where the fuzzers' does not raise; where it does, this one is empty, and
    the report of the third kind that has no line at all is no tuple. -/
theorem fileCoverage_eq {answer : Answer} (h : answer ≠ .jacoco2 []) :
    fileCoverage answer = .tuple ((RSFuzz.fileCoverage answer).getD []) := by
  cases answer with
  | timedOut => rfl
  | noFile => rfl
  | gcov lines => rw [fileCoverage, gcovHandler, scanLines_eq, RSFuzz.fileCoverage, RSFuzz.gcovHandler]
  | jacoco1 cov => rfl
  | jacoco2 lines =>
    have hne : ¬ lines.length = 0 := fun hzero => h (by rw [List.length_eq_zero_iff.mp hzero])
    rw [fileCoverage, jacocoHandler2, if_neg hne, scanLines_eq, RSFuzz.fileCoverage,
      RSFuzz.jacocoHandler2, if_neg hne]

end Ratio

end RSFuzz
