import Mathlib.Data.Nat.Count
import RSFuzz.LoopInvariant
import RSFuzz.RecaptureSchedule

set_option autoImplicit false

/-!
# How often the rules are updated

Every re-capture raises the bound that the next one has to reach, and every new
line starts the count again. Both only slow the updates down: there are no more
new lines than the first inputs left uncovered, and so the updates never end.
-/
namespace RSFuzz
open OptionFold Fuel ClusterTables

theorem count_false_zipWith_or_le (cov1 cov2 : List Bool) :
    (List.zipWith or cov1 cov2).count false ≤ cov1.count false := by
  induction cov1 generalizing cov2 with
  | nil => simp
  | cons a cov1 ih =>
    cases cov2 with
    | nil => simp
    | cons b cov2 =>
      have := ih cov2
      cases a <;> cases b <;> simp <;> omega

theorem count_false_zipWith_or_lt {cov1 cov2 : List Bool} (hlen : cov1.length = cov2.length)
    (hnew : ¬ covered cov2 ⊆ covered cov1) :
    (List.zipWith or cov1 cov2).count false < cov1.count false := by
  induction cov1 generalizing cov2 with
  | nil =>
    obtain rfl := List.length_eq_zero_iff.mp hlen.symm
    exact absurd Set.Subset.rfl hnew
  | cons a cov1 ih =>
    cases cov2 with
    | nil => simp at hlen
    | cons b cov2 =>
      rw [covered_cons_subset, not_and_or] at hnew
      have hle := count_false_zipWith_or_le cov1 cov2
      rcases hnew with hhead | htail
      · obtain ⟨hb, ha⟩ : b = true ∧ a = false := by simpa using hhead
        subst hb ha
        simp only [List.zipWith_cons_cons, List.count_cons]
        simpa [Nat.lt_succ_iff] using hle
      · have hlt := ih (Nat.succ.inj hlen) htail
        cases a <;> cases b <;> simp <;> omega

open Classical in
noncomputable def improvementsBefore (first : List Bool) (covs : ℕ → List Bool) (n : ℕ) : ℕ :=
  Nat.count (ImprovesAt first covs) n

/-- The iterations between resets add up: the `j`-th re-capture takes `j` of them, and fewer than
    that are lost at an improvement. -/
structure Paced (first : List Bool) (covs : ℕ → List Bool) (n : ℕ) (s : CoverageState) : Prop where
  scheduled : Scheduled first covs n s
  least : recapturesBefore first covs n * (recapturesBefore first covs n + 1) +
    2 * improvementsBefore first covs n + 2 * s.nChance ≤ 2 * n
  most : 2 * n ≤ 2 * improvementsBefore first covs n * (recapturesBefore first covs n + 1) +
    recapturesBefore first covs n * (recapturesBefore first covs n + 1) + 2 * s.nChance
  lines : improvementsBefore first covs n + s.beforeCovVec.count false ≤ first.count false

section Pace

variable {first : List Bool} {covs : ℕ → List Bool} {n : ℕ} {s s' : CoverageState}

theorem improvementsBefore_succ_of (himp : ImprovesAt first covs n) :
    improvementsBefore first covs (n + 1) = improvementsBefore first covs n + 1 := by
  rw [improvementsBefore, Nat.count_succ, if_pos himp, improvementsBefore]

theorem improvementsBefore_succ_of_not (hstale : ¬ ImprovesAt first covs n) :
    improvementsBefore first covs (n + 1) = improvementsBefore first covs n := by
  rw [improvementsBefore, Nat.count_succ, if_neg hstale, Nat.add_zero, improvementsBefore]

theorem Paced.start (first : List Bool) (covs : ℕ → List Bool) :
    Paced first covs 0 (.initial first) where
  scheduled := .start first covs
  least := by simp [recapturesBefore, improvementsBefore, CoverageState.initial]
  most := by simp
  lines := by simp [improvementsBefore, CoverageState.initial]

theorem Paced.step (h : Paced first covs n s)
    (hlen : ∀ m < n + 1, (covs m).length = first.length) (hstep : s.step (covs n) = some s')
    (hrun : coverageRun first covs (n + 1) = some s') : Paced first covs (n + 1) s' := by
  have hnext := h.scheduled.step hlen hstep hrun
  have hbound := h.scheduled.bound
  have hbelow := h.scheduled.below
  have hcount := recapturesBefore_succ first covs n
  rw [recapturesAt_eq hrun] at hcount
  have hleast := h.least
  have hmost := h.most
  have hlines := h.lines
  have hvector : s'.beforeCovVec = List.zipWith or s.beforeCovVec (covs n) := by
    rw [hnext.handover.before, h.scheduled.handover.before, vectorsBefore_succ, orAll_concat]
  have hsize : s.beforeCovVec.length = (covs n).length := by
    rw [h.scheduled.handover.before, length_orAll, hlen n (Nat.lt_succ_self n)]
    intro c hc
    obtain ⟨m, hm, rfl⟩ := List.mem_map.mp hc
    exact hlen m (Nat.lt_succ_of_lt (List.mem_range.mp hm))
  have hle := count_false_zipWith_or_le s.beforeCovVec (covs n)
  rw [← hvector] at hle
  rcases h.scheduled.step_cases hlen hstep with
    ⟨himp, hupdate, hchance, -⟩ | ⟨hstale, hreach, hupdate, hchance, -⟩ |
      ⟨hstale, -, hupdate, hchance, -⟩
  · -- a new line: the stretch so far is lost
    have himproves := improvementsBefore_succ_of himp
    have hlt : s'.beforeCovVec.count false < s.beforeCovVec.count false := by
      rw [hvector]
      refine count_false_zipWith_or_lt hsize ?_
      rw [h.scheduled.handover.before]
      exact himp
    rw [hupdate] at hcount
    refine ⟨hnext, ?_, ?_, by omega⟩
    · rw [hcount, himproves, hchance]
      simp only [Bool.false_eq_true, if_false, Nat.add_zero]
      omega
    · rw [hcount, himproves, hchance]
      simp only [Bool.false_eq_true, if_false, Nat.add_zero]
      nlinarith
  · have himproves := improvementsBefore_succ_of_not hstale
    have hlast : s.nChance = recapturesBefore first covs n := by omega
    rw [hupdate] at hcount
    refine ⟨hnext, ?_, ?_, by omega⟩
    · rw [hcount, himproves, hchance]
      simp only [if_true]
      nlinarith
    · rw [hcount, himproves, hchance]
      simp only [if_true]
      nlinarith
  · have himproves := improvementsBefore_succ_of_not hstale
    rw [hupdate] at hcount
    refine ⟨hnext, ?_, ?_, by omega⟩
    · rw [hcount, himproves, hchance]
      simp only [Bool.false_eq_true, if_false, Nat.add_zero]
      omega
    · rw [hcount, himproves, hchance]
      simp only [Bool.false_eq_true, if_false, Nat.add_zero]
      omega

theorem coverageRun_paced (hlen : ∀ m < n, (covs m).length = first.length) :
    ∃ s, coverageRun first covs n = some s ∧ Paced first covs n s := by
  induction n with
  | zero => exact ⟨_, rfl, .start first covs⟩
  | succ n ih =>
    obtain ⟨s, hrun, hs⟩ := ih fun m hm => hlen m (Nat.lt_succ_of_lt hm)
    obtain ⟨s', hrun', -⟩ := coverageRun_scheduled hlen
    have hstep : s.step (covs n) = some s' := by
      rw [coverageRun_succ, hrun] at hrun'
      exact hrun'
    exact ⟨s', hrun', hs.step hlen hstep hrun'⟩

end Pace

section Loop

variable {G : Grammar} {start : Sym} {fuzzer : BaseFuzzer G start} {h : Hashes} {fuel : ℕ}
  {first : LoopIteration fuzzer} {its : List (LoopIteration fuzzer)}

def loopCovs (its : List (LoopIteration fuzzer)) : ℕ → List Bool :=
  covsOf (its.map fun it => it.iteration [])

def updatesIn (h : Hashes) (fuel : ℕ) (first : LoopIteration fuzzer)
    (its : List (LoopIteration fuzzer)) : ℕ :=
  (List.range its.length).countP fun i =>
    (loopRun h fuel first (its.take i)).any fun s => s.capture.coverage.doUpdate

theorem loopRun_coverage {s : LoopState} (hrun : loopRun h fuel first its = some s) :
    (its.map LoopIteration.cov).foldlM CoverageState.step (.initial first.cov) =
      some s.capture.coverage := by
  induction its using List.reverseRecOn generalizing s with
  | nil =>
    obtain ⟨s₀, h₀, hloop⟩ := Option.bind_eq_some_iff.mp hrun
    obtain rfl := Option.some.inj hloop
    obtain ⟨trees, -, hcapture, -⟩ := loopInit_eq h₀
    obtain ⟨cnt, copies, -, hc⟩ := captureInit_eq hcapture
    rw [hc]
    rfl
  | append_singleton its it ih =>
    obtain ⟨s₁, h₁, hstep⟩ := loopRun_concat hrun
    obtain ⟨trees, -, -, hrules, -⟩ := loopStep_eq hstep
    simp only [ruleStep, Option.bind_eq_bind, Option.pure_def] at hrules
    obtain ⟨rules, -, hrules⟩ := Option.bind_eq_some_iff.mp hrules
    obtain ⟨capture, hcapture, hrules⟩ := Option.bind_eq_some_iff.mp hrules
    obtain ⟨rfl, -⟩ := Prod.mk.inj (Option.some.inj hrules)
    obtain ⟨_, _, _, _, coverage, -, -, hcoverage, hc⟩ := captureStep_eq hcapture
    rw [List.map_append, List.foldlM_append, ih h₁, hc]
    simp only [List.map_singleton, List.foldlM_cons, List.foldlM_nil, Option.bind_eq_bind,
      Option.bind_some, Option.pure_def]
    rw [show (it.iteration trees).cov = it.cov from rfl] at hcoverage
    rw [hcoverage, Option.bind_some]

theorem coverageRun_loopCovs {i : ℕ} (hi : i ≤ its.length) {s : LoopState}
    (hrun : loopRun h fuel first (its.take i) = some s) :
    coverageRun first.cov (loopCovs its) i = some s.capture.coverage := by
  have hvectors : vectorsBefore (loopCovs its) i = (its.take i).map LoopIteration.cov := by
    apply List.ext_getElem (by simp [vectorsBefore, hi])
    intro n h1 h2
    have hn : n < its.length := by
      simp only [List.length_map, List.length_take] at h2
      omega
    simp [vectorsBefore, loopCovs, covsOf, List.getElem?_eq_getElem hn, LoopIteration.iteration]
  rw [coverageRun, hvectors]
  exact loopRun_coverage hrun

theorem loopRun_take {s : LoopState} (hrun : loopRun h fuel first its = some s) (i : ℕ) :
    ∃ s', loopRun h fuel first (its.take i) = some s' := by
  rw [← List.take_append_drop i its, loopRun_append] at hrun
  obtain ⟨s', hs', -⟩ := Option.bind_eq_some_iff.mp hrun
  exact ⟨s', hs'⟩

theorem updatesIn_concat {it : LoopIteration fuzzer} {s : LoopState}
    (hrun : loopRun h fuel first (its ++ [it]) = some s) :
    updatesIn h fuel first (its ++ [it]) =
      recapturesBefore first.cov (loopCovs (its ++ [it])) its.length + 1 := by
  have hhead : ∀ i ≤ its.length, (loopRun h fuel first ((its ++ [it]).take i)).any
      (fun s => s.capture.coverage.doUpdate) =
        (coverageRun first.cov (loopCovs (its ++ [it])) i).any (·.doUpdate) := by
    intro i hi
    obtain ⟨s', hs'⟩ := loopRun_take hrun i
    have hle : i ≤ (its ++ [it]).length := by
      rw [List.length_append]
      omega
    rw [hs', coverageRun_loopCovs hle hs']
    rfl
  have hall : updatesIn h fuel first (its ++ [it]) = (List.range (its.length + 1)).countP fun i =>
      (coverageRun first.cov (loopCovs (its ++ [it])) i).any (·.doUpdate) := by
    rw [updatesIn, List.length_append, List.length_singleton]
    refine List.countP_congr fun i hi => ?_
    rw [hhead i (Nat.le_of_lt_succ (List.mem_range.mp hi))]
  have hzero : (coverageRun first.cov (loopCovs (its ++ [it])) 0).any (·.doUpdate) = true := rfl
  rw [hall, List.range_succ_eq_map, List.countP_cons, hzero, if_pos rfl, List.countP_map]
  rfl

/-- Among `n + 1` iterations of the closed loop, `u + 1` update the rules, where the first `n` have
    `i` with new lines: `u (u + 1) / 2 + i ≤ n ≤ i (u + 1) + u (u + 3) / 2`, and `i` is at most the
    number of lines that the first inputs left uncovered, so that any number of updates is reached. -/
theorem loop_updates_pace (h : Hashes) (fuel : ℕ) (first : LoopIteration fuzzer)
    (its : List (LoopIteration fuzzer)) (it : LoopIteration fuzzer)
    (hlen : ∀ it' ∈ its ++ [it], it'.cov.length = first.cov.length) (s : LoopState)
    (hrun : loopRun h fuel first (its ++ [it]) = some s) :
    ∃ u i, updatesIn h fuel first (its ++ [it]) = u + 1 ∧
      i = improvementsBefore first.cov (loopCovs (its ++ [it])) its.length ∧
      u * (u + 1) + 2 * i ≤ 2 * its.length ∧
      2 * its.length ≤ 2 * i * (u + 1) + u * (u + 3) ∧
      i ≤ first.cov.count false ∧
      ∀ k, 2 * first.cov.count false * (k + 1) + k * (k + 3) < 2 * its.length → k < u := by
  have hcovs : ∀ m < its.length, (loopCovs (its ++ [it]) m).length = first.cov.length := by
    intro m hm
    have hin : m < (its ++ [it]).length := by
      rw [List.length_append]
      omega
    simp only [loopCovs, covsOf, List.getElem?_map, List.getElem?_eq_getElem hin, Option.map_some,
      Option.elim_some, LoopIteration.iteration]
    exact hlen _ (List.getElem_mem hin)
  obtain ⟨c, -, hpaced⟩ := coverageRun_paced hcovs
  have hleast := hpaced.least
  have hmost := hpaced.most
  have hlines := hpaced.lines
  have hbelow := hpaced.scheduled.below
  rw [hpaced.scheduled.bound] at hbelow
  refine ⟨_, _, updatesIn_concat hrun, rfl, by omega, by nlinarith, by omega, fun k hk => ?_⟩
  by_contra hle
  have hfew := Nat.le_of_not_lt hle
  have hlost : improvementsBefore first.cov (loopCovs (its ++ [it])) its.length ≤
      first.cov.count false := by omega
  nlinarith

end Loop

theorem loop_updates_pace_sample : ∃ s,
    loopRun ClusterTables.sampleHashes 9 loopIteration ([loopIteration] ++ [loopIteration]) = some s ∧
    ∃ u i, updatesIn ClusterTables.sampleHashes 9 loopIteration ([loopIteration] ++ [loopIteration]) =
        u + 1 ∧ u * (u + 1) + 2 * i ≤ 2 ∧ 2 ≤ 2 * i * (u + 1) + u * (u + 3) ∧ i ≤ 1 := by
  have hsome : (loopRun ClusterTables.sampleHashes 9 loopIteration
      ([loopIteration] ++ [loopIteration])).isSome = true := by decide +kernel
  obtain ⟨s, hs⟩ := Option.isSome_iff_exists.mp hsome
  obtain ⟨u, i, hu, -, hleast, hmost, hlines, -⟩ := loop_updates_pace ClusterTables.sampleHashes 9
    loopIteration [loopIteration] loopIteration (fun it hit => by
      obtain rfl : it = loopIteration := by simpa using hit
      rfl) s hs
  exact ⟨s, hs, u, i, hu, hleast, hmost, hlines⟩

end RSFuzz
