import RSFuzz.CoverageFiles
import RSFuzz.FoundationTally

set_option autoImplicit false

/-!
# The histogram of coverage vectors

`create_csv` of `main/runRatio.py` counts how many inputs have the same coverage
and saves the counts after every thousandth input. It starts after as many inputs
as are counted already, so that a run can go on where another was stopped.
-/
namespace RSFuzz.Ratio
open OrderedMap

/-- `coverage_result`, and what `coverage_result.pickle` holds, if it was written. -/
structure State where
  coverageResult : Map (List Bool) ℕ
  pickle : Option (Map (List Bool) ℕ)

def State.initial : State := ⟨Map.empty, none⟩

/-- A list is not hashable. -/
def countCoverage (coverageResult : Map (List Bool) ℕ) : Coverage → Option (Map (List Bool) ℕ)
  | .tuple tmpCov => some (coverageResult.tally tmpCov)
  | .emptyList => none

/-- The loop over `i`, which ends at the first input that does not exist. -/
def createCsvLoop (inputs : ℕ → Option Answer) : List ℕ → State → Option State
  | [], s => some s
  | i :: is, s =>
    match inputs i with
    | none => some s
    | some answer => do
      let result ← countCoverage s.coverageResult (fileCoverage answer)
      createCsvLoop inputs is ⟨result, if i % 1000 = 999 then some result else s.pickle⟩

/-- `start_cnt` is the sum of the counts. -/
def createCsv (inputs : ℕ → Option Answer) (s : State) : Option State :=
  let startCnt := s.coverageResult.total
  createCsvLoop inputs (List.range' startCnt (10000 - startCnt)) s

section Histogram

variable (inputs : ℕ → Option Answer)

def vectorOf (i : ℕ) : List Bool := ((inputs i).bind RSFuzz.fileCoverage).getD []

def histogram (n : ℕ) : Map (List Bool) ℕ :=
  ((List.range n).map (vectorOf inputs)).foldl Map.tally Map.empty

/-- What the file holds after input `n - 1`, where it held `pickle` before input `start`. -/
def saved (pickle : Option (Map (List Bool) ℕ)) (start n : ℕ) : Option (Map (List Bool) ℕ) :=
  if start / 1000 < n / 1000 then some (histogram inputs (1000 * (n / 1000))) else pickle

variable {inputs}

theorem histogram_succ (n : ℕ) :
    histogram inputs (n + 1) = (histogram inputs n).tally (vectorOf inputs n) := by
  simp [histogram, List.range_succ]

theorem total_histogram (n : ℕ) : (histogram inputs n).total = n := by
  simp [histogram, Map.total_foldl_tally]

theorem countOf_histogram (n : ℕ) (vec : List Bool) :
    (histogram inputs n).countOf vec = (List.range n).countP fun i => vectorOf inputs i = vec := by
  rw [histogram, Map.countOf_foldl_tally, Map.countOf_empty, Nat.zero_add, List.countP_map]
  rfl

theorem histogram_congr {inputs' : ℕ → Option Answer} {n : ℕ} (h : ∀ i < n, inputs' i = inputs i) :
    histogram inputs' n = histogram inputs n := by
  have hvectors : (List.range n).map (vectorOf inputs') = (List.range n).map (vectorOf inputs) :=
    List.map_congr_left fun i hi => by rw [vectorOf, vectorOf, h i (List.mem_range.mp hi)]
  rw [histogram, histogram, hvectors]

theorem countCoverage_eq {i : ℕ} {answer : Answer} (hi : inputs i = some answer)
    (h : answer ≠ .jacoco2 []) :
    countCoverage (histogram inputs i) (fileCoverage answer) = some (histogram inputs (i + 1)) := by
  rw [fileCoverage_eq h, countCoverage, histogram_succ, vectorOf, hi, Option.bind_some]

theorem saved_succ (pickle : Option (Map (List Bool) ℕ)) {i n : ℕ} (h : i < n) :
    saved inputs (if i % 1000 = 999 then some (histogram inputs (i + 1)) else pickle) (i + 1) n =
      saved inputs pickle i n := by
  by_cases hthousand : i % 1000 = 999
  · have hquotient : (i + 1) / 1000 = i / 1000 + 1 := by omega
    rw [if_pos hthousand, saved, saved, hquotient]
    have hlater : i / 1000 < n / 1000 := by omega
    rw [if_pos hlater]
    split_ifs with hmore
    · rfl
    · have hlast : 1000 * (n / 1000) = i + 1 := by omega
      rw [hlast]
  · have hquotient : (i + 1) / 1000 = i / 1000 := by omega
    rw [if_neg hthousand, saved, saved, hquotient]

theorem saved_saved (pickle : Option (Map (List Bool) ℕ)) {start c n : ℕ} (h : start ≤ c)
    (h' : c ≤ n) : saved inputs (saved inputs pickle start c) c n = saved inputs pickle start n := by
  by_cases hlate : c / 1000 < n / 1000
  · have hearly : start / 1000 < n / 1000 := by omega
    rw [saved, if_pos hlate, saved, if_pos hearly]
  · have hsame : c / 1000 = n / 1000 := by omega
    rw [saved, if_neg hlate, saved, saved, hsame]

end Histogram

structure Present (inputs : ℕ → Option Answer) (n : ℕ) : Prop where
  bound : n ≤ 10000
  exist : ∀ i < n, inputs i ≠ none
  last : n < 10000 → inputs n = none

section Loop

variable {inputs : ℕ → Option Answer} {n : ℕ}

theorem createCsvLoop_returns (h : Present inputs n) {start : ℕ} (hstart : start ≤ n)
    (hall : ∀ i < n, start ≤ i → inputs i ≠ some (.jacoco2 []))
    (pickle : Option (Map (List Bool) ℕ)) :
    createCsvLoop inputs (List.range' start (10000 - start)) ⟨histogram inputs start, pickle⟩ =
      some ⟨histogram inputs n, saved inputs pickle start n⟩ := by
  obtain ⟨left, hleft⟩ : ∃ left, n - start = left := ⟨_, rfl⟩
  induction left generalizing start pickle with
  | zero =>
    obtain rfl : start = n := by omega
    rw [saved, if_neg (Nat.lt_irrefl _)]
    rcases Nat.lt_or_ge start 10000 with hlt | hge
    · obtain ⟨k, hk⟩ : ∃ k, 10000 - start = k + 1 := ⟨10000 - start - 1, by omega⟩
      rw [hk, List.range'_succ, createCsvLoop, h.last hlt]
    · rw [show 10000 - start = 0 by omega]
      rfl
  | succ left ih =>
    have hlt : start < n := by omega
    obtain ⟨answer, hanswer⟩ := Option.ne_none_iff_exists'.mp (h.exist start hlt)
    have hbound := h.bound
    obtain ⟨k, hk⟩ : ∃ k, 10000 - start = k + 1 := ⟨10000 - (start + 1), by omega⟩
    have hnext : 10000 - (start + 1) = k := by omega
    have hrest := ih hlt (fun i hi hle => hall i hi (Nat.le_of_succ_le hle))
      (if start % 1000 = 999 then some (histogram inputs (start + 1)) else pickle) (by omega)
    rw [hk, List.range'_succ, createCsvLoop, hanswer]
    simp only [countCoverage_eq hanswer fun heq => hall start hlt le_rfl (heq ▸ hanswer),
      Option.bind_eq_bind, Option.bind_some]
    rw [← saved_succ pickle hlt, ← hrest, hnext]

theorem createCsvLoop_fails (h : Present inputs n) {start : ℕ} (pickle : Option (Map (List Bool) ℕ))
    (hsome : ∃ i < n, start ≤ i ∧ inputs i = some (.jacoco2 [])) :
    createCsvLoop inputs (List.range' start (10000 - start)) ⟨histogram inputs start, pickle⟩ =
      none := by
  obtain ⟨i, hi, hle, hempty⟩ := hsome
  obtain ⟨left, hleft⟩ : ∃ left, i - start = left := ⟨_, rfl⟩
  have hbound := h.bound
  induction left generalizing start pickle with
  | zero =>
    obtain rfl : start = i := by omega
    obtain ⟨k, hk⟩ : ∃ k, 10000 - start = k + 1 := ⟨10000 - (start + 1), by omega⟩
    rw [hk, List.range'_succ, createCsvLoop, hempty]
    rfl
  | succ left ih =>
    obtain ⟨k, hk⟩ : ∃ k, 10000 - start = k + 1 := ⟨10000 - (start + 1), by omega⟩
    have hnext : 10000 - (start + 1) = k := by omega
    obtain ⟨answer, hanswer⟩ := Option.ne_none_iff_exists'.mp (h.exist start (by omega))
    rw [hk, List.range'_succ, createCsvLoop, hanswer]
    by_cases heq : answer = .jacoco2 []
    · subst heq
      rfl
    · simp only [countCoverage_eq hanswer heq, Option.bind_eq_bind, Option.bind_some]
      rw [← hnext]
      exact ih _ (by omega) (by omega)

theorem createCsv_returns (h : Present inputs n)
    (hall : ∀ i < n, inputs i ≠ some (.jacoco2 [])) {start : ℕ} (hstart : start ≤ n)
    (pickle : Option (Map (List Bool) ℕ)) : createCsv inputs ⟨histogram inputs start, pickle⟩ =
      some ⟨histogram inputs n, saved inputs pickle start n⟩ := by
  rw [createCsv]
  simp only [total_histogram]
  exact createCsvLoop_returns h hstart (fun i hi _ => hall i hi) pickle

theorem createCsv_fails (h : Present inputs n) (hsome : ∃ i < n, inputs i = some (.jacoco2 [])) :
    createCsv inputs State.initial = none := by
  obtain ⟨i, hi, hempty⟩ := hsome
  have hzero : ∃ i < n, 0 ≤ i ∧ inputs i = some (.jacoco2 []) := ⟨i, hi, Nat.zero_le i, hempty⟩
  exact createCsvLoop_fails h none hzero

def firstInputs (c : ℕ) (inputs : ℕ → Option Answer) (i : ℕ) : Option Answer :=
  if i < c then inputs i else none

theorem Present.firstInputs (h : Present inputs n) {c : ℕ} (hc : c ≤ n) :
    Present (firstInputs c inputs) c where
  bound := hc.trans h.bound
  exist := by
    intro i hi
    rw [Ratio.firstInputs, if_pos hi]
    exact h.exist i (by omega)
  last := by
    intro _
    rw [Ratio.firstInputs, if_neg (Nat.lt_irrefl c)]

theorem createCsv_firstInputs (h : Present inputs n)
    (hall : ∀ i < n, inputs i ≠ some (.jacoco2 [])) {c : ℕ} (hc : c ≤ n) :
    createCsv (firstInputs c inputs) State.initial =
      some ⟨histogram inputs c, saved inputs none 0 c⟩ := by
  have hfirst : ∀ i < c, firstInputs c inputs i = inputs i := fun i hi => if_pos hi
  have hrun : createCsv (firstInputs c inputs) State.initial = some ⟨histogram (firstInputs c inputs) c,
      saved (firstInputs c inputs) none 0 c⟩ :=
    createCsv_returns (h.firstInputs hc) (fun i hi => by
      rw [hfirst i hi]
      exact hall i (by omega)) (Nat.zero_le c) none
  have hsaved : histogram (firstInputs c inputs) (1000 * (c / 1000)) =
      histogram inputs (1000 * (c / 1000)) := histogram_congr fun i hi => hfirst i (by omega)
  rw [hrun, histogram_congr hfirst, saved, saved, hsaved]

end Loop

/-- The program counts all inputs unless one of them has an empty report of the third kind. The
    count of a vector is the number of inputs whose report the fuzzers read so, and those that end
    without a report or with one on which the fuzzers raise count for the empty vector. Stopped
    after any number of inputs and started again on what it has, it ends in the same state, and the
    file holds what a run on the last full thousand of inputs ends with. -/
theorem ratio_histogram (inputs : ℕ → Option Answer) (n : ℕ) (h : Present inputs n) :
    ((∃ s, createCsv inputs State.initial = some s) ↔ ∀ i < n, inputs i ≠ some (.jacoco2 [])) ∧
    ∀ s, createCsv inputs State.initial = some s →
      s.coverageResult.total = n ∧
      (∀ vec, s.coverageResult.countOf vec =
        (List.range n).countP fun i => ((inputs i).bind RSFuzz.fileCoverage).getD [] = vec) ∧
      (∀ vec, vec ∈ s.coverageResult.keys ↔
        ∃ i < n, ((inputs i).bind RSFuzz.fileCoverage).getD [] = vec) ∧
      (n < 1000 → s.pickle = none) ∧
      ∀ c ≤ n, ∃ s', createCsv (firstInputs c inputs) State.initial = some s' ∧
        createCsv inputs s' = some s ∧
        (0 < c → c = 1000 * (n / 1000) → s.pickle = some s'.coverageResult) := by
  have hreturns : ∀ {start : ℕ}, (∀ i < n, inputs i ≠ some (.jacoco2 [])) → start ≤ n → ∀ pickle,
      createCsv inputs ⟨histogram inputs start, pickle⟩ =
        some ⟨histogram inputs n, saved inputs pickle start n⟩ :=
    fun hall hstart pickle => createCsv_returns h hall hstart pickle
  have hiff : (∃ s, createCsv inputs State.initial = some s) ↔
      ∀ i < n, inputs i ≠ some (.jacoco2 []) := by
    constructor
    · rintro ⟨s, hs⟩ i hi hempty
      rw [createCsv_fails h ⟨i, hi, hempty⟩] at hs
      cases hs
    · intro hall
      exact ⟨_, hreturns hall (Nat.zero_le n) none⟩
  refine ⟨hiff, fun s hs => ?_⟩
  have hall := hiff.mp ⟨s, hs⟩
  obtain rfl : (⟨histogram inputs n, saved inputs none 0 n⟩ : State) = s :=
    Option.some.inj ((hreturns hall (Nat.zero_le n) none).symm.trans hs)
  refine ⟨total_histogram n, countOf_histogram n, fun vec => ?_, fun hfew => ?_, fun c hc => ?_⟩
  · simp only [histogram, Map.mem_keys_foldl_tally, Map.keys_empty, List.not_mem_nil, false_or,
      List.mem_map, List.mem_range]
    rfl
  · exact if_neg (by omega)
  · refine ⟨_, createCsv_firstInputs h hall hc, ?_, fun hpos hlast => ?_⟩
    · rw [hreturns hall hc, saved_saved none (Nat.zero_le c) hc]
    · have hlate : 0 / 1000 < n / 1000 := by omega
      simp only [saved, if_pos hlate, hlast]

/-- Four reports over and over: two with the same flags, one with a line too short, one that was
    not written. -/
def manyInputs (i : ℕ) : Option Answer :=
  if i < 1500 then
    [.jacoco1 ['a', ',', 'Y', 'E', 'S', '\n', 'b', ',', 'N', 'O'],
      .jacoco1 ['Y', 'E', 'S', 'N', 'O'], .gcov [['\n']], .noFile][i % 4]?
  else none

theorem manyInputs_present : Present manyInputs 1500 where
  bound := by decide
  exist := by
    intro i hi
    have hlt : i % 4 < 4 := Nat.mod_lt i (by decide)
    simp [manyInputs, hi, hlt]
  last := fun _ => by simp [manyInputs]

theorem ratio_histogram_sample : ∃ s, createCsv manyInputs State.initial = some s ∧
    s.coverageResult.total = 1500 ∧ s.coverageResult.countOf [true, false] = 750 ∧
    s.coverageResult.countOf [] = 750 ∧
    ∃ s', createCsv (firstInputs 1000 manyInputs) State.initial = some s' ∧
      createCsv manyInputs s' = some s ∧ s.pickle = some s'.coverageResult := by
  obtain ⟨hiff, hall⟩ := ratio_histogram manyInputs 1500 manyInputs_present
  obtain ⟨s, hs⟩ := hiff.mpr fun i hi => by
    have hlt : i % 4 < 4 := Nat.mod_lt i (by decide)
    generalize hk : i % 4 = k at hlt
    match k, hlt with
    | 0, _ | 1, _ | 2, _ | 3, _ => simp [manyInputs, hi, hk]
  obtain ⟨htotal, hcount, -, -, hresume⟩ := hall s hs
  obtain ⟨s', hs', hagain, hpickle⟩ := hresume 1000 (by decide)
  exact ⟨s, hs, htotal, (hcount _).trans (by decide +kernel), (hcount _).trans (by decide +kernel),
    s', hs', hagain, hpickle (by decide) (by decide)⟩
end RSFuzz.Ratio
