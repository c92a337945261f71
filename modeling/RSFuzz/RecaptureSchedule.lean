import RSFuzz.CoverageHandover

set_option autoImplicit false

/-!
# The schedule of re-captures

`n_chance` counts the iterations without a new line, and the equality test with
`max_n_chance` sets `do_update`. The counters are read off the history of the
run: where it was last reset, and how often it reached its bound.
-/
namespace RSFuzz
open OptionFold

/-- `k` is the time after the last reset before `n`, or zero. -/
def Stretch (R : ℕ → Prop) (k n : ℕ) : Prop :=
  k ≤ n ∧ (∀ m, k ≤ m → m < n → ¬ R m) ∧ ∀ m, m + 1 = k → R m

section Stretch

variable {R : ℕ → Prop} {k k' n : ℕ}

theorem Stretch.start : Stretch R 0 0 := ⟨le_rfl, fun _ _ h => absurd h (Nat.not_lt_zero _), by simp⟩

theorem Stretch.extend (h : Stretch R k n) (hn : ¬ R n) : Stretch R k (n + 1) := by
  obtain ⟨hle, hquiet, hreset⟩ := h
  refine ⟨by omega, fun m hk hm => ?_, hreset⟩
  rcases Nat.lt_succ_iff_lt_or_eq.mp hm with hm | rfl
  · exact hquiet m hk hm
  · exact hn

theorem Stretch.reset (hn : R n) : Stretch R (n + 1) (n + 1) := by
  refine ⟨le_rfl, fun m hk hm => by omega, fun m hm => ?_⟩
  obtain rfl : m = n := by omega
  exact hn

theorem Stretch.le (h : Stretch R k n) (h' : Stretch R k' n) : k' ≤ k := by
  by_contra hlt
  cases k' with
  | zero => omega
  | succ m => exact h.2.1 m (by omega) h'.1 (h'.2.2 m rfl)

theorem Stretch.unique (h : Stretch R k n) (h' : Stretch R k' n) : k = k' :=
  Nat.le_antisymm (h'.le h) (h.le h')

end Stretch

def vectorsBefore (covs : ℕ → List Bool) (n : ℕ) : List (List Bool) := (List.range n).map covs

theorem vectorsBefore_succ (covs : ℕ → List Bool) (n : ℕ) :
    vectorsBefore covs (n + 1) = vectorsBefore covs n ++ [covs n] := by
  simp [vectorsBefore, List.range_succ]

def coverageRun (first : List Bool) (covs : ℕ → List Bool) (n : ℕ) : Option CoverageState :=
  (vectorsBefore covs n).foldlM CoverageState.step (.initial first)

theorem coverageRun_succ (first : List Bool) (covs : ℕ → List Bool) (n : ℕ) :
    coverageRun first covs (n + 1) = (coverageRun first covs n).bind (·.step (covs n)) := by
  rw [coverageRun, vectorsBefore_succ, List.foldlM_append]
  simp [coverageRun]

/-- Iteration `i` covers a line that no vector before it covers. -/
def ImprovesAt (first : List Bool) (covs : ℕ → List Bool) (i : ℕ) : Prop :=
  ¬ covered (covs i) ⊆ covered (orAll first (vectorsBefore covs i))

def recapturesAt (first : List Bool) (covs : ℕ → List Bool) (i : ℕ) : Bool :=
  (coverageRun first covs (i + 1)).any (·.doUpdate)

def recapturesBefore (first : List Bool) (covs : ℕ → List Bool) (i : ℕ) : ℕ :=
  (List.range i).countP (recapturesAt first covs)

theorem recapturesBefore_succ (first : List Bool) (covs : ℕ → List Bool) (i : ℕ) :
    recapturesBefore first covs (i + 1) =
      recapturesBefore first covs i + if recapturesAt first covs i then 1 else 0 := by
  simp [recapturesBefore, List.range_succ, List.countP_append, List.countP_cons]

def ResetsAt (first : List Bool) (covs : ℕ → List Bool) (i : ℕ) : Prop :=
  ImprovesAt first covs i ∨ recapturesAt first covs i = true

/-- Iteration `i` is the `j`-th without a new line, one after the other, since the last one that
    improved or set `do_update`. -/
def StaleFor (first : List Bool) (covs : ℕ → List Bool) (i j : ℕ) : Prop :=
  ∃ k, k + j = i + 1 ∧ Stretch (ResetsAt first covs) k i ∧ ¬ ImprovesAt first covs i

/-- The state after `n` iterations, in terms of what these were. -/
structure Scheduled (first : List Bool) (covs : ℕ → List Bool) (n : ℕ) (s : CoverageState) :
    Prop where
  handover : Handover first (vectorsBefore covs n) s
  bound : s.maxNChance = recapturesBefore first covs n + 1
  below : s.nChance < s.maxNChance
  since : ∃ k, k + s.nChance = n ∧ Stretch (ResetsAt first covs) k n

theorem Scheduled.start (first : List Bool) (covs : ℕ → List Bool) :
    Scheduled first covs 0 (.initial first) :=
  ⟨.initial first, rfl, Nat.zero_lt_one, 0, rfl, .start⟩

section Step

variable {first : List Bool} {covs : ℕ → List Bool} {n : ℕ} {s s' : CoverageState}

theorem recapturesAt_eq (hrun : coverageRun first covs (n + 1) = some s') :
    recapturesAt first covs n = s'.doUpdate := by
  rw [recapturesAt, hrun]
  rfl

theorem Scheduled.step_cases (h : Scheduled first covs n s)
    (hlen : ∀ m < n + 1, (covs m).length = first.length) (hstep : s.step (covs n) = some s') :
    (ImprovesAt first covs n ∧ s'.doUpdate = false ∧ s'.nChance = 0 ∧
      s'.maxNChance = s.maxNChance) ∨
    (¬ ImprovesAt first covs n ∧ s.nChance + 1 = s.maxNChance ∧ s'.doUpdate = true ∧
      s'.nChance = 0 ∧ s'.maxNChance = s.maxNChance + 1) ∨
    (¬ ImprovesAt first covs n ∧ s.nChance + 1 ≠ s.maxNChance ∧ s'.doUpdate = false ∧
      s'.nChance = s.nChance + 1 ∧ s'.maxNChance = s.maxNChance) := by
  have hvec : ∀ c ∈ vectorsBefore covs n, c.length = first.length := by
    intro c hc
    obtain ⟨m, hm, rfl⟩ := List.mem_map.mp hc
    exact hlen m (Nat.lt_succ_of_lt (List.mem_range.mp hm))
  have hsize : s.beforeCovVec.length = (covs n).length := by
    rw [h.handover.before, length_orAll hvec, hlen n (Nat.lt_succ_self n)]
  rw [ImprovesAt, ← h.handover.before]
  rcases s.step_cases hsize hstep with ⟨hnew, rfl⟩ | ⟨hsub, hmax, rfl⟩ | ⟨hsub, hmax, rfl⟩
  · exact Or.inl ⟨hnew, rfl, rfl, rfl⟩
  · exact Or.inr (Or.inl ⟨not_not.mpr hsub, hmax, rfl, rfl, rfl⟩)
  · exact Or.inr (Or.inr ⟨not_not.mpr hsub, hmax, rfl, rfl, rfl⟩)

theorem Scheduled.step (h : Scheduled first covs n s)
    (hlen : ∀ m < n + 1, (covs m).length = first.length) (hstep : s.step (covs n) = some s')
    (hrun : coverageRun first covs (n + 1) = some s') : Scheduled first covs (n + 1) s' := by
  have hover : Handover first (vectorsBefore covs (n + 1)) s' := by
    rw [vectorsBefore_succ]
    refine h.handover.step (fun c hc => ?_) hstep
    rw [← vectorsBefore_succ] at hc
    obtain ⟨m, hm, rfl⟩ := List.mem_map.mp hc
    exact hlen m (List.mem_range.mp hm)
  obtain ⟨k, hk, hstretch⟩ := h.since
  have hbound := h.bound
  have hbelow := h.below
  have hcount := recapturesBefore_succ first covs n
  rw [recapturesAt_eq hrun] at hcount
  rcases h.step_cases hlen hstep with
    ⟨himp, hupdate, hchance, hmax⟩ | ⟨hstale, hreach, hupdate, hchance, hmax⟩ |
      ⟨hstale, hreach, hupdate, hchance, hmax⟩
  · rw [hupdate] at hcount
    refine ⟨hover, by rw [hmax, hcount, hbound]; rfl, by omega, n + 1, by omega, ?_⟩
    exact .reset (Or.inl himp)
  · rw [hupdate] at hcount
    refine ⟨hover, by rw [hmax, hcount, hbound]; rfl, by omega, n + 1, by omega, ?_⟩
    exact .reset (Or.inr (by rw [recapturesAt_eq hrun, hupdate]))
  · rw [hupdate] at hcount
    refine ⟨hover, by rw [hmax, hcount, hbound]; rfl, by omega, k, by omega, hstretch.extend ?_⟩
    rintro (himp | hre)
    · exact hstale himp
    · rw [recapturesAt_eq hrun, hupdate] at hre
      cases hre

theorem CoverageState.step_returns {cov : List Bool} (hlen : s.beforeCovVec.length = cov.length) :
    ∃ s', s.step cov = some s' := by
  obtain ⟨stale, hs, -⟩ := noNewline_spec _ _ hlen
  simp only [CoverageState.step, hs, Option.bind_eq_bind, Option.bind_some]
  cases stale with
  | true =>
    rw [if_pos rfl]
    split_ifs <;> exact ⟨_, rfl⟩
  | false =>
    rw [orInto_of_length_eq hlen (ne_nil_of_noNewline hs)]
    exact ⟨_, rfl⟩

theorem coverageRun_scheduled (hlen : ∀ m < n, (covs m).length = first.length) :
    ∃ s, coverageRun first covs n = some s ∧ Scheduled first covs n s := by
  induction n with
  | zero => exact ⟨_, rfl, .start first covs⟩
  | succ n ih =>
    obtain ⟨s, hrun, hs⟩ := ih fun m hm => hlen m (Nat.lt_succ_of_lt hm)
    have hsize : s.beforeCovVec.length = (covs n).length := by
      rw [hs.handover.before, length_orAll, hlen n (Nat.lt_succ_self n)]
      intro c hc
      obtain ⟨m, hm, rfl⟩ := List.mem_map.mp hc
      exact hlen m (Nat.lt_succ_of_lt (List.mem_range.mp hm))
    obtain ⟨s', hstep⟩ := CoverageState.step_returns hsize
    have hrun' : coverageRun first covs (n + 1) = some s' := by
      rw [coverageRun_succ, hrun]
      exact hstep
    exact ⟨s', hrun', hs.step hlen hstep hrun'⟩

/-- The counter is the length of the stretch, so the equality test finds every stretch that is
    long enough. -/
theorem recapturesAt_iff {i : ℕ} (hi : i < n) (hlen : ∀ m < n, (covs m).length = first.length) :
    (recapturesAt first covs i = true ↔
      StaleFor first covs i (recapturesBefore first covs i + 1)) ∧
    ∀ j, StaleFor first covs i j → j ≤ recapturesBefore first covs i + 1 := by
  obtain ⟨s, hrun, hs⟩ := coverageRun_scheduled (n := i) fun m hm => hlen m (by omega)
  obtain ⟨s', hrun', -⟩ := coverageRun_scheduled (n := i + 1) fun m hm => hlen m (by omega)
  have hstep : s.step (covs i) = some s' := by
    rw [coverageRun_succ, hrun] at hrun'
    exact hrun'
  obtain ⟨k, hk, hstretch⟩ := hs.since
  have hbound := hs.bound
  have hbelow := hs.below
  have hlast : ∀ j, StaleFor first covs i j → j = s.nChance + 1 := by
    rintro j ⟨k', hk', hstretch', -⟩
    have := hstretch.unique hstretch'
    omega
  rw [recapturesAt_eq hrun']
  refine ⟨?_, fun j hj => by have := hlast j hj; omega⟩
  rcases hs.step_cases (fun m hm => hlen m (by omega)) hstep with
    ⟨himp, hupdate, -, -⟩ | ⟨hstale, hreach, hupdate, -, -⟩ | ⟨hstale, hreach, hupdate, -, -⟩
  · simp only [hupdate, Bool.false_eq_true, false_iff]
    rintro ⟨k', -, -, hno⟩
    exact hno himp
  · exact ⟨fun _ => ⟨k, by omega, hstretch, hstale⟩, fun _ => hupdate⟩
  · simp only [hupdate, Bool.false_eq_true, false_iff]
    intro h
    have := hlast _ h
    omega

end Step

def covsOf (its : List Iteration) (n : ℕ) : List Bool := (its[n]?).elim [] Iteration.cov

theorem vectorsBefore_covsOf (its : List Iteration) :
    vectorsBefore (covsOf its) its.length = its.map Iteration.cov := by
  apply List.ext_getElem (by simp [vectorsBefore])
  intro n h1 h2
  have hn : n < its.length := by simpa using h2
  simp [vectorsBefore, covsOf, List.getElem?_eq_getElem hn]

theorem captureRun_coverage {env : Env} {first : Iteration} {its : List Iteration}
    {s : CaptureState} (hrun : captureRun env first its = some s) :
    coverageRun first.cov (covsOf its) its.length = some s.coverage := by
  rw [coverageRun, vectorsBefore_covsOf]
  obtain ⟨s₀, h₀, hloop⟩ := Option.bind_eq_some_iff.mp hrun
  refine foldlM_invariant (fun done s =>
    (done.map Iteration.cov).foldlM CoverageState.step (.initial first.cov) = some s.coverage)
    ?_ ?_ hloop
  · intro done it s s' _ h hstep
    obtain ⟨_, _, _, _, coverage, -, -, hcoverage, rfl⟩ := captureStep_eq hstep
    rw [List.map_append, List.foldlM_append, h]
    simp [hcoverage]
  · obtain ⟨_, _, -, rfl⟩ := captureInit_eq h₀
    rfl

/-- On vectors of one length the loop never fails, and at every head of it the counter is below its
    bound and the vector kept is the union. A re-capture is due exactly when the iterations without
    a new line since the last reset are one more than the re-captures before, and never earlier
    or later; the capture phase runs this loop. -/
theorem recapture_schedule :
    (∀ (first : List Bool) (covs : ℕ → List Bool) (n : ℕ),
      (∀ m < n, (covs m).length = first.length) →
      (∃ s, coverageRun first covs n = some s ∧ s.nChance < s.maxNChance ∧
        s.beforeCovVec = orAll first (vectorsBefore covs n)) ∧
      ∀ i < n, (recapturesAt first covs i = true ↔
          StaleFor first covs i (recapturesBefore first covs i + 1)) ∧
        (∀ j, StaleFor first covs i j → j ≤ recapturesBefore first covs i + 1) ∧
        (ImprovesAt first covs i → recapturesAt first covs i = false)) ∧
    ∀ (env : Env) (first : Iteration) (its : List Iteration) (s : CaptureState),
      captureRun env first its = some s →
      coverageRun first.cov (covsOf its) its.length = some s.coverage := by
  refine ⟨fun first covs n hlen => ⟨?_, fun i hi => ?_⟩, fun env first its s => captureRun_coverage⟩
  · obtain ⟨s, hrun, hs⟩ := coverageRun_scheduled hlen
    exact ⟨s, hrun, hs.below, hs.handover.before⟩
  · obtain ⟨hiff, hmost⟩ := recapturesAt_iff hi hlen
    refine ⟨hiff, hmost, fun himp => ?_⟩
    rw [Bool.eq_false_iff, ne_eq, hiff]
    rintro ⟨_, -, -, hno⟩
    exact hno himp

theorem recapture_schedule_sample :
    StaleFor [true, false] (fun _ => [true, false]) 0 1 ∧
    StaleFor [true, false] (fun _ => [true, false]) 2 2 ∧
    ∃ s, captureRun sampleEnv (sampleIteration [true, false]) [sampleIteration [false, true]] =
      some s ∧ coverageRun [true, false] (covsOf [sampleIteration [false, true]]) 1 =
        some s.coverage := by
  have h := (recapture_schedule.1 [true, false] (fun _ => [true, false]) 3 fun _ _ => rfl).2
  refine ⟨(h 0 (by decide)).1.mp (by decide), (h 2 (by decide)).1.mp (by decide), ?_⟩
  have hsome : (captureRun sampleEnv (sampleIteration [true, false])
      [sampleIteration [false, true]]).isSome = true := by decide +kernel
  obtain ⟨s, hs⟩ := Option.isSome_iff_exists.mp hsome
  exact ⟨s, hs, recapture_schedule.2 _ _ _ s hs⟩

end RSFuzz
