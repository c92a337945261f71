import RSFuzz.CaptureRun
import Mathlib.Data.Set.Lattice

set_option autoImplicit false

/-!
# Coverage handed over

Coverage vectors as sets of covered lines, the loop of the capture phase on
them, and when the file it leaves holds what was covered.
-/
namespace RSFuzz
open OptionFold

def covered (cov : List Bool) : Set ℕ := {i | cov[i]? = some true}

theorem covered_cons_subset (a b : Bool) (cov1 cov2 : List Bool) :
    covered (b :: cov2) ⊆ covered (a :: cov1) ↔ (b → a) ∧ covered cov2 ⊆ covered cov1 := by
  constructor
  · intro h
    constructor
    · intro hb
      have := @h 0 (by simp [covered, hb])
      simpa [covered] using this
    · intro i hi
      have := @h (i + 1) (by simpa [covered] using hi)
      simpa [covered] using this
  · rintro ⟨hhead, htail⟩ i hi
    cases i with
    | zero =>
      have hb : b = true := by simpa [covered] using hi
      simpa [covered] using hhead hb
    | succ i =>
      have := @htail i (by simpa [covered] using hi)
      simpa [covered] using this

theorem covered_zipWith_or {cov1 cov2 : List Bool} (h : cov1.length = cov2.length) :
    covered (List.zipWith or cov1 cov2) = covered cov1 ∪ covered cov2 := by
  ext i
  simp only [covered, Set.mem_ofPred_eq, Set.mem_union, List.getElem?_zipWith]
  rcases Nat.lt_or_ge i cov1.length with hi | hi
  · rw [List.getElem?_eq_getElem hi, List.getElem?_eq_getElem (h ▸ hi)]
    simp
  · simp [List.getElem?_eq_none hi, List.getElem?_eq_none (h ▸ hi)]

theorem eq_of_covered_eq {cov1 cov2 : List Bool} (h : cov1.length = cov2.length)
    (hc : covered cov1 = covered cov2) : cov1 = cov2 := by
  apply List.ext_getElem h
  intro i h1 h2
  have := Set.ext_iff.mp hc i
  simpa [covered, List.getElem?_eq_getElem h1, List.getElem?_eq_getElem h2] using this

def orAll (first : List Bool) (covs : List (List Bool)) : List Bool :=
  covs.foldl (List.zipWith or) first

theorem orAll_concat (first : List Bool) (covs : List (List Bool)) (cov : List Bool) :
    orAll first (covs ++ [cov]) = List.zipWith or (orAll first covs) cov := by
  simp [orAll]

theorem length_orAll {first : List Bool} {covs : List (List Bool)}
    (h : ∀ cov ∈ covs, cov.length = first.length) : (orAll first covs).length = first.length := by
  induction covs using List.reverseRecOn with
  | nil => rfl
  | append_singleton covs cov ih =>
    rw [orAll_concat, List.length_zipWith, ih fun c hc => h c (by simp [hc]), h cov (by simp)]
    exact Nat.min_self _

theorem covered_orAll {first : List Bool} {covs : List (List Bool)}
    (h : ∀ cov ∈ covs, cov.length = first.length) :
    covered (orAll first covs) = covered first ∪ ⋃ cov ∈ covs, covered cov := by
  induction covs using List.reverseRecOn with
  | nil => simp [orAll]
  | append_singleton covs cov ih =>
    have hprev : ∀ c ∈ covs, c.length = first.length := fun c hc => h c (by simp [hc])
    have hlen : (orAll first covs).length = cov.length := by
      rw [length_orAll hprev, h cov (by simp)]
    rw [orAll_concat, covered_zipWith_or hlen, ih hprev, Set.union_assoc]
    congr 1
    ext i
    simp only [Set.mem_union, Set.mem_iUnion, List.mem_append, List.mem_singleton, exists_prop]
    constructor
    · rintro (⟨c, hc, hi⟩ | hi)
      · exact ⟨c, Or.inl hc, hi⟩
      · exact ⟨cov, Or.inr rfl, hi⟩
    · rintro ⟨c, hc | rfl, hi⟩
      · exact Or.inl ⟨c, hc, hi⟩
      · exact Or.inr hi

theorem noNewline_spec (cov1 cov2 : List Bool) (h : cov1.length = cov2.length) :
    ∃ stale, noNewline cov1 cov2 = some stale ∧ (stale = true ↔ covered cov2 ⊆ covered cov1) := by
  induction cov1 generalizing cov2 with
  | nil =>
    obtain rfl := List.length_eq_zero_iff.mp h.symm
    exact ⟨true, rfl, by simp⟩
  | cons a cov1 ih =>
    cases cov2 with
    | nil => simp at h
    | cons b cov2 =>
      rw [noNewline]
      split_ifs with hnew
      · refine ⟨false, rfl, ?_⟩
        rw [covered_cons_subset]
        obtain ⟨hne, hb⟩ := hnew
        simp only [Bool.false_eq_true, false_iff, not_and]
        exact fun hba => absurd ((hba hb).trans hb.symm) hne
      · obtain ⟨stale, hs, hiff⟩ := ih cov2 (Nat.succ.inj h)
        refine ⟨stale, hs, ?_⟩
        rw [hiff, covered_cons_subset]
        have hhead : b → a := by
          cases a <;> cases b <;> simp_all
        exact ⟨fun hsub => ⟨hhead, hsub⟩, And.right⟩

theorem ne_nil_of_noNewline {cov1 cov2 : List Bool} (h : noNewline cov1 cov2 = some false) :
    cov1 ≠ [] := by
  rintro rfl
  cases h

theorem CoverageState.step_cases {s s' : CoverageState} {cov : List Bool}
    (hlen : s.beforeCovVec.length = cov.length) (h : s.step cov = some s') :
    (¬ covered cov ⊆ covered s.beforeCovVec ∧
      s' = { s with
        doUpdate := false
        nChance := 0
        beforeCovVec := List.zipWith or s.beforeCovVec cov
        totalCoverage := some (List.zipWith or s.beforeCovVec cov) }) ∨
    (covered cov ⊆ covered s.beforeCovVec ∧ s.nChance + 1 = s.maxNChance ∧
      s' = { s with doUpdate := true, nChance := 0, maxNChance := s.maxNChance + 1 }) ∨
    (covered cov ⊆ covered s.beforeCovVec ∧ s.nChance + 1 ≠ s.maxNChance ∧
      s' = { s with doUpdate := false, nChance := s.nChance + 1 }) := by
  obtain ⟨stale, hs, hiff⟩ := noNewline_spec _ _ hlen
  simp only [CoverageState.step, hs, Option.bind_eq_bind, Option.bind_some] at h
  cases stale with
  | true =>
    have hsub := hiff.mp rfl
    rw [if_pos rfl] at h
    split_ifs at h with hmax
    · exact Or.inr (Or.inl ⟨hsub, hmax, (Option.some.inj h).symm⟩)
    · exact Or.inr (Or.inr ⟨hsub, hmax, (Option.some.inj h).symm⟩)
  | false =>
    have hnew : ¬ covered cov ⊆ covered s.beforeCovVec := fun hsub => by
      simpa using hiff.mpr hsub
    simp only [Bool.false_eq_true, ↓reduceIte, orInto_of_length_eq hlen (ne_nil_of_noNewline hs),
      Option.map_some] at h
    exact Or.inl ⟨hnew, (Option.some.inj h).symm⟩

def Improves (first : List Bool) (covs : List (List Bool)) : Prop :=
  ∃ cov ∈ covs, ¬ covered cov ⊆ covered first

/-- The union in memory, and the file: written with the union at the last improvement, or not
    written because nothing was added to the initial coverage. -/
structure Handover (first : List Bool) (covs : List (List Bool)) (s : CoverageState) : Prop where
  before : s.beforeCovVec = orAll first covs
  file : s.totalCoverage = some (orAll first covs) ∧ Improves first covs ∨
    s.totalCoverage = none ∧ orAll first covs = first ∧ ¬ Improves first covs

theorem Handover.initial (first : List Bool) : Handover first [] (.initial first) :=
  ⟨rfl, Or.inr ⟨rfl, rfl, by simp [Improves]⟩⟩

theorem Handover.step {first cov : List Bool} {covs : List (List Bool)} {s s' : CoverageState}
    (h : Handover first covs s) (hlen : ∀ c ∈ covs ++ [cov], c.length = first.length)
    (hstep : s.step cov = some s') : Handover first (covs ++ [cov]) s' := by
  have hprev : ∀ c ∈ covs, c.length = first.length := fun c hc => hlen c (by simp [hc])
  have hsize : s.beforeCovVec.length = cov.length := by
    rw [h.before, length_orAll hprev, hlen cov (by simp)]
  have hfirst : covered first ⊆ covered (orAll first covs) := by
    rw [covered_orAll hprev]
    exact Set.subset_union_left
  have hstale : covered cov ⊆ covered s.beforeCovVec → s'.beforeCovVec = s.beforeCovVec →
      s'.totalCoverage = s.totalCoverage → Handover first (covs ++ [cov]) s' := by
    intro hsub hbefore htotal
    have hsame : orAll first (covs ++ [cov]) = orAll first covs := by
      rw [orAll_concat, ← h.before]
      refine eq_of_covered_eq (by simp [hsize]) ?_
      rw [covered_zipWith_or hsize, Set.union_eq_left.mpr hsub]
    refine ⟨by rw [hbefore, h.before, hsame], ?_⟩
    rw [hsame, htotal]
    rcases h.file with ⟨hfile, c, hc, hnew⟩ | ⟨hfile, horAll, hnone⟩
    · exact Or.inl ⟨hfile, c, by simp [hc], hnew⟩
    · refine Or.inr ⟨hfile, horAll, ?_⟩
      rintro ⟨c, hc, hnew⟩
      rcases List.mem_append.mp hc with hc | hc
      · exact hnone ⟨c, hc, hnew⟩
      · rw [List.mem_singleton.mp hc, ← horAll, ← h.before] at hnew
        exact hnew hsub
  rcases s.step_cases hsize hstep with ⟨hnew, rfl⟩ | ⟨hsub, -, rfl⟩ | ⟨hsub, -, rfl⟩
  · refine ⟨by rw [orAll_concat, h.before], Or.inl ⟨by rw [orAll_concat, h.before], ?_⟩⟩
    rw [h.before] at hnew
    exact ⟨cov, by simp, fun hsub => hnew (hsub.trans hfirst)⟩
  · exact hstale hsub rfl rfl
  · exact hstale hsub rfl rfl

theorem captureRun_handover {env : Env} {first : Iteration} {its : List Iteration}
    {s : CaptureState} (hlen : ∀ it ∈ its, it.cov.length = first.cov.length)
    (hrun : captureRun env first its = some s) :
    Handover first.cov (its.map Iteration.cov) s.coverage := by
  obtain ⟨s₀, h₀, hloop⟩ := Option.bind_eq_some_iff.mp hrun
  refine foldlM_invariant
    (fun done s => Handover first.cov (List.map Iteration.cov done) s.coverage) ?_ ?_ hloop
  · intro done it s s' hp h hstep
    obtain ⟨_, _, _, _, coverage, -, -, hcoverage, rfl⟩ := captureStep_eq hstep
    have hmap : (done ++ [it]).map Iteration.cov = done.map Iteration.cov ++ [it.cov] := by simp
    rw [hmap]
    refine h.step (fun c hc => ?_) hcoverage
    rw [← hmap] at hc
    obtain ⟨it', hit', rfl⟩ := List.mem_map.mp hc
    exact hlen it' (hp.subset hit')
  · obtain ⟨_, _, -, rfl⟩ := captureInit_eq h₀
    exact .initial first.cov

/-- The file holds the union of all vectors, and the test phase starts from it, exactly if some
    iteration covered a line that the initial inputs did not. -/
theorem total_coverage_iff (env : Env) (first : Iteration) (its : List Iteration) (s : CaptureState)
    (hlen : ∀ it ∈ its, it.cov.length = first.cov.length)
    (hrun : captureRun env first its = some s) :
    (s.coverage.totalCoverage = some (orAll first.cov (its.map Iteration.cov)) ∧
      resumeCoverage s.coverage.totalCoverage = orAll first.cov (its.map Iteration.cov)) ↔
    ∃ it ∈ its, ¬ covered it.cov ⊆ covered first.cov := by
  have himp : Improves first.cov (its.map Iteration.cov) ↔
      ∃ it ∈ its, ¬ covered it.cov ⊆ covered first.cov := by
    simp [Improves]
  rw [← himp]
  rcases (captureRun_handover hlen hrun).file with ⟨hfile, hnew⟩ | ⟨hfile, -, hnone⟩
  · rw [hfile]
    exact ⟨fun _ => hnew, fun _ => ⟨rfl, rfl⟩⟩
  · rw [hfile]
    exact ⟨fun h => absurd h.1 (by simp), fun h => absurd h hnone⟩

def sampleIteration (cov : List Bool) : Iteration where
  batch := [ClusterTables.leafInput cov]
  report := .cprog [0]
  cov := cov

def sampleEnv : Env := ⟨ClusterTables.sampleHashes, ClusterTables.leafGrammar, 9⟩

theorem total_coverage_iff_gain :
    ∃ s, captureRun sampleEnv (sampleIteration [true, false]) [sampleIteration [false, true]] =
      some s ∧ s.coverage.totalCoverage = some [true, true] := by
  have hsome : (captureRun sampleEnv (sampleIteration [true, false])
      [sampleIteration [false, true]]).isSome = true := by decide +kernel
  obtain ⟨s, hs⟩ := Option.isSome_iff_exists.mp hsome
  have h := total_coverage_iff sampleEnv (sampleIteration [true, false])
    [sampleIteration [false, true]] s (by decide) hs
  refine ⟨s, hs, (h.mpr ⟨sampleIteration [false, true], by simp, fun hsub => ?_⟩).1⟩
  have := @hsub 1 rfl
  simp [covered, sampleIteration] at this

/-- Nothing new in the first iteration, so no file at its end. -/
theorem total_coverage_missing :
    ¬ ∀ (env : Env) (first : Iteration) (its : List Iteration) (s : CaptureState),
      (∀ it ∈ its, it.cov.length = first.cov.length) → captureRun env first its = some s →
      s.coverage.totalCoverage = some (orAll first.cov (its.map Iteration.cov)) ∧
        resumeCoverage s.coverage.totalCoverage = orAll first.cov (its.map Iteration.cov) := by
  intro h
  have hrun : (captureRun sampleEnv (sampleIteration [true, false])
      [sampleIteration [true, false]]).map (·.coverage.totalCoverage) = some none := by
    decide +kernel
  obtain ⟨s, hs, hnone⟩ := Option.map_eq_some_iff.mp hrun
  obtain ⟨hfile, -⟩ := h sampleEnv _ _ s (by decide) hs
  rw [hnone] at hfile
  cases hfile

end RSFuzz
