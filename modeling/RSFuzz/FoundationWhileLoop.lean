import Mathlib.Algebra.Order.BigOperators.Group.List
import Mathlib.Algebra.BigOperators.Group.List.Basic
import Mathlib.Logic.Relation
import Mathlib.Tactic.Ring

set_option autoImplicit false

/-!
# Loops with a guard

`run cond body fuel s` is `while cond: body` started in `s`. The body may fail
(an exception), and the fuel counts guard evaluations that enter the body, so
`none` means an exception or a loop still running when the fuel is used up.
A loop returns when some fuel gives `some`, and then more fuel changes nothing.
-/
namespace WhileLoop

variable {σ : Type*}

def run (cond : σ → Bool) (body : σ → Option σ) : ℕ → σ → Option σ
  | 0, s => if cond s then none else some s
  | fuel + 1, s => if cond s then (body s).bind (run cond body fuel) else some s

variable {cond : σ → Bool} {body : σ → Option σ}

theorem run_of_not (fuel : ℕ) {s : σ} (h : cond s = false) : run cond body fuel s = some s := by
  cases fuel <;> simp [run, h]

theorem run_succ_of (fuel : ℕ) {s : σ} (h : cond s = true) :
    run cond body (fuel + 1) s = (body s).bind (run cond body fuel) := by
  simp [run, h]

/-- Partial correctness: what every pass keeps holds on exit, and the guard fails there. -/
theorem run_invariant (I : σ → Prop)
    (hstep : ∀ s s', I s → cond s = true → body s = some s' → I s')
    (fuel : ℕ) {s s' : σ} (hs : I s) (h : run cond body fuel s = some s') :
    I s' ∧ cond s' = false := by
  induction fuel generalizing s with
  | zero =>
    by_cases hc : cond s = true
    · simp [run, hc] at h
    · simp only [run, hc] at h
      obtain rfl : s = s' := by simpa using h
      exact ⟨hs, by simpa using hc⟩
  | succ fuel ih =>
    by_cases hc : cond s = true
    · rw [run_succ_of fuel hc] at h
      obtain ⟨u, hu, hrun⟩ := Option.bind_eq_some_iff.mp h
      exact ih (hstep s u hs hc hu) hrun
    · simp only [run, hc] at h
      obtain rfl : s = s' := by simpa using h
      exact ⟨hs, by simpa using hc⟩

theorem run_succ {fuel : ℕ} {s s' : σ} (h : run cond body fuel s = some s') :
    run cond body (fuel + 1) s = some s' := by
  induction fuel generalizing s with
  | zero =>
    by_cases hc : cond s = true
    · simp [run, hc] at h
    · simp only [run, hc] at h
      simpa [run, hc] using h
  | succ fuel ih =>
    by_cases hc : cond s = true
    · rw [run_succ_of _ hc] at h ⊢
      obtain ⟨u, hu, hrun⟩ := Option.bind_eq_some_iff.mp h
      exact Option.bind_eq_some_iff.mpr ⟨u, hu, ih hrun⟩
    · simp only [run, hc] at h
      simpa [run, hc] using h

theorem run_mono {fuel fuel' : ℕ} (hle : fuel ≤ fuel') {s s' : σ}
    (h : run cond body fuel s = some s') : run cond body fuel' s = some s' := by
  induction hle with
  | refl => exact h
  | step _ ih => exact run_succ ih

/-- Total correctness: a measure that every pass lowers bounds the number of passes. -/
theorem run_terminates (cond : σ → Bool) (body : σ → Option σ) (I : σ → Prop) (μ : σ → ℕ)
    (hstep : ∀ s, I s → cond s = true → ∃ s', body s = some s' ∧ I s' ∧ μ s' < μ s)
    {s : σ} (hs : I s) (fuel : ℕ) (hfuel : μ s ≤ fuel) :
    ∃ s', run cond body fuel s = some s' ∧ I s' ∧ cond s' = false := by
  induction fuel generalizing s with
  | zero =>
    by_cases hc : cond s = true
    · obtain ⟨s', _, _, hlt⟩ := hstep s hs hc
      omega
    · exact ⟨s, by simp [run, hc], hs, by simpa using hc⟩
  | succ fuel ih =>
    by_cases hc : cond s = true
    · obtain ⟨u, hu, hI, hlt⟩ := hstep s hs hc
      obtain ⟨s', hrun, hI', hexit⟩ := ih hI (by omega)
      exact ⟨s', by rw [run_succ_of fuel hc, hu]; exact hrun, hI', hexit⟩
    · exact ⟨s, by simp [run, hc], hs, by simpa using hc⟩

inductive Reaches (cond : σ → Bool) (body : σ → Option σ) : σ → σ → Prop where
  | refl (s : σ) : Reaches cond body s s
  | step {s u s' : σ} (hc : cond s = true) (hb : body s = some u) (h : Reaches cond body u s') :
      Reaches cond body s s'

theorem Reaches.single {s u : σ} (hc : cond s = true) (hb : body s = some u) :
    Reaches cond body s u := .step hc hb (.refl u)

theorem Reaches.trans {s u v : σ} (h : Reaches cond body s u) (h' : Reaches cond body u v) :
    Reaches cond body s v := by
  induction h with
  | refl => exact h'
  | step hc hb _ ih => exact .step hc hb (ih h')

theorem Reaches.exists_run {s s' : σ} (h : Reaches cond body s s') (hexit : cond s' = false) :
    ∃ fuel, run cond body fuel s = some s' := by
  induction h with
  | refl s => exact ⟨0, run_of_not 0 hexit⟩
  | step hc hb _ ih =>
    obtain ⟨fuel, hrun⟩ := ih hexit
    exact ⟨fuel + 1, by rw [run_succ_of fuel hc, hb]; exact hrun⟩

section Worklist

variable {α : Type*}

/-- An item of rank `r` weighs `(B + 1) ^ r`, more than `B` items of smaller rank together. -/
def weight (rank : α → ℕ) (B : ℕ) (items : List α) : ℕ :=
  (items.map fun a => (B + 1) ^ rank a).sum

theorem weight_append (rank : α → ℕ) (B : ℕ) (xs ys : List α) :
    weight rank B (xs ++ ys) = weight rank B xs + weight rank B ys := by
  simp [weight]

theorem weight_spawn_lt (rank : α → ℕ) (B : ℕ) (a : α) (spawned rest : List α)
    (hlen : spawned.length ≤ B) (hrank : ∀ b ∈ spawned, rank b < rank a) :
    weight rank B (spawned ++ rest) < weight rank B (a :: rest) := by
  have hsum : weight rank B spawned < (B + 1) ^ rank a := by
    cases hr : rank a with
    | zero =>
      have hnil : spawned = [] := by
        rw [List.eq_nil_iff_forall_not_mem]
        intro b hb
        have := hrank b hb
        omega
      simp [hnil, weight]
    | succ r =>
      have hle : weight rank B spawned ≤ spawned.length * (B + 1) ^ r := by
        unfold weight
        have := List.sum_le_card_nsmul (spawned.map fun a => (B + 1) ^ rank a) ((B + 1) ^ r) (by
          intro n hn
          obtain ⟨b, hb, rfl⟩ := List.mem_map.mp hn
          exact Nat.pow_le_pow_right (by omega) (by have := hrank b hb; omega))
        simpa using this
      have hpos : 0 < (B + 1) ^ r := Nat.pow_pos (by omega)
      calc weight rank B spawned ≤ spawned.length * (B + 1) ^ r := hle
        _ ≤ B * (B + 1) ^ r := Nat.mul_le_mul_right _ hlen
        _ < B * (B + 1) ^ r + (B + 1) ^ r := by omega
        _ = (B + 1) ^ (r + 1) := by ring
  rw [weight_append]
  have hcons : weight rank B (a :: rest) = (B + 1) ^ rank a + weight rank B rest := by
    simp [weight]
  omega

/-- An item of the list, or one that it leads to, is still to give `b`. -/
def Outstanding {β : Type*} (spawns : α → α → Prop) (finds : α → β → Prop) (items : List α)
    (b : β) : Prop :=
  ∃ a ∈ items, ∃ c, Relation.ReflTransGen spawns a c ∧ finds c b

theorem outstanding_cons {β : Type*} {spawns : α → α → Prop} {finds : α → β → Prop} {a : α}
    {spawned : List α} (hspawned : ∀ c, c ∈ spawned ↔ spawns a c) (rest : List α) (b : β) :
    Outstanding spawns finds (a :: rest) b ↔
      finds a b ∨ Outstanding spawns finds (spawned ++ rest) b := by
  constructor
  · rintro ⟨x, hx, c, hreach, hfinds⟩
    rcases List.mem_cons.mp hx with rfl | hx
    · rcases Relation.ReflTransGen.cases_head hreach with rfl | ⟨y, hy, hreach⟩
      · exact Or.inl hfinds
      · exact Or.inr ⟨y, List.mem_append_left rest ((hspawned y).mpr hy), c, hreach, hfinds⟩
    · exact Or.inr ⟨x, List.mem_append_right spawned hx, c, hreach, hfinds⟩
  · rintro (hfinds | ⟨x, hx, c, hreach, hfinds⟩)
    · exact ⟨a, List.mem_cons_self, a, .refl, hfinds⟩
    · rcases List.mem_append.mp hx with hx | hx
      · exact ⟨a, List.mem_cons_self, c, .head ((hspawned x).mp hx) hreach, hfinds⟩
      · exact ⟨x, List.mem_cons_of_mem a hx, c, hreach, hfinds⟩

end Worklist
end WhileLoop
