import Mathlib.Tactic.SplitIfs
import RSFuzz.FoundationWhileLoop

set_option autoImplicit false

/-!
# Computations bounded by fuel

More fuel refines a computation in the flat order of partial results, and every
way of putting such computations together keeps that. A loop whose body is itself
bounded returns for all large enough fuel if each of its passes does.
-/
namespace Fuel

variable {α β σ : Type*}

/-- Where the first computation returns, so does the second, with the same result. -/
def Approximates {γ : Type*} (x y : Option γ) : Prop := ∀ a, x = some a → y = some a

namespace Approximates

theorem refl (x : Option α) : Approximates x x := fun _ h => h

theorem bind {x x' : Option α} {f f' : α → Option β} (hx : Approximates x x')
    (hf : ∀ a, Approximates (f a) (f' a)) : Approximates (x.bind f) (x'.bind f') := by
  intro b hb
  obtain ⟨a, ha, hfa⟩ := Option.bind_eq_some_iff.mp hb
  exact Option.bind_eq_some_iff.mpr ⟨a, hx a ha, hf a b hfa⟩

theorem map {x x' : Option α} (hx : Approximates x x') (f : α → β) :
    Approximates (x.map f) (x'.map f) := by
  intro b hb
  obtain ⟨a, ha, hfa⟩ := Option.map_eq_some_iff.mp hb
  exact Option.map_eq_some_iff.mpr ⟨a, hx a ha, hfa⟩

theorem ite {x x' y y' : Option α} (c : Prop) [Decidable c] (hx : Approximates x x')
    (hy : Approximates y y') : Approximates (if c then x else y) (if c then x' else y') := by
  split_ifs
  · exact hx
  · exact hy

theorem foldlM {f f' : β → α → Option β} (hf : ∀ b x, Approximates (f b x) (f' b x))
    (xs : List α) (b : β) : Approximates (xs.foldlM f b) (xs.foldlM f' b) := by
  induction xs generalizing b with
  | nil => exact refl _
  | cons x xs ih =>
    rw [List.foldlM_cons, List.foldlM_cons]
    exact (hf b x).bind ih

theorem mapM {f f' : α → Option β} (hf : ∀ x, Approximates (f x) (f' x)) (xs : List α) :
    Approximates (xs.mapM f) (xs.mapM f') := by
  induction xs with
  | nil => exact refl _
  | cons x xs ih =>
    rw [List.mapM_cons, List.mapM_cons]
    exact (hf x).bind fun y => ih.bind fun ys => refl _

end Approximates

/-- More fuel changes no result. -/
def Settled (f : ℕ → Option α) : Prop :=
  ∀ fuel fuel', fuel ≤ fuel' → Approximates (f fuel) (f fuel')

namespace Settled

theorem const (x : Option α) : Settled fun _ => x := fun _ _ _ => .refl x

theorem bind {f : ℕ → Option α} {k : ℕ → α → Option β} (hf : Settled f)
    (hk : ∀ a, Settled fun fuel => k fuel a) : Settled fun fuel => (f fuel).bind (k fuel) :=
  fun fuel fuel' hle => (hf fuel fuel' hle).bind fun a => hk a fuel fuel' hle

theorem map {f : ℕ → Option α} (hf : Settled f) (k : α → β) : Settled fun fuel => (f fuel).map k :=
  fun fuel fuel' hle => (hf fuel fuel' hle).map k

theorem ite {f f' : ℕ → Option α} (c : Prop) [Decidable c] (hf : Settled f) (hf' : Settled f') :
    Settled fun fuel => if c then f fuel else f' fuel :=
  fun fuel fuel' hle => .ite c (hf fuel fuel' hle) (hf' fuel fuel' hle)

theorem foldlM {f : ℕ → β → α → Option β} (hf : ∀ b x, Settled fun fuel => f fuel b x)
    (xs : List α) (b : β) : Settled fun fuel => xs.foldlM (f fuel) b :=
  fun fuel fuel' hle => .foldlM (fun b x => hf b x fuel fuel' hle) xs b

theorem mapM {f : ℕ → α → Option β} (hf : ∀ x, Settled fun fuel => f fuel x) (xs : List α) :
    Settled fun fuel => xs.mapM (f fuel) :=
  fun fuel fuel' hle => .mapM (fun x => hf x fuel fuel' hle) xs

end Settled

/-- Finitely many computations have fuel in common. -/
theorem exists_fuel_forall {P : ℕ → α → Prop} {xs : List α}
    (h : ∀ x ∈ xs, ∃ fuel₀, ∀ fuel, fuel₀ ≤ fuel → P fuel x) :
    ∃ fuel₀, ∀ fuel, fuel₀ ≤ fuel → ∀ x ∈ xs, P fuel x := by
  induction xs with
  | nil => exact ⟨0, by simp⟩
  | cons x xs ih =>
    obtain ⟨fuel₁, h₁⟩ := h x List.mem_cons_self
    obtain ⟨fuel₂, h₂⟩ := ih fun y hy => h y (List.mem_cons_of_mem x hy)
    refine ⟨max fuel₁ fuel₂, fun fuel hfuel y hy => ?_⟩
    rcases List.mem_cons.mp hy with rfl | hy
    · exact h₁ fuel ((le_max_left _ _).trans hfuel)
    · exact h₂ fuel ((le_max_right _ _).trans hfuel) y hy

theorem settled_while (cond : σ → Bool) (body : σ → Option σ) (s : σ) :
    Settled fun fuel => WhileLoop.run cond body fuel s :=
  fun _ _ hle _ hrun => WhileLoop.run_mono hle hrun

section Loops

variable {cond : σ → Bool} {body : ℕ → σ → Option σ}

theorem approximates_run (hbody : ∀ s, Settled fun fuel => body fuel s) {fuel fuel' : ℕ}
    (hle : fuel ≤ fuel') (rounds : ℕ) (s : σ) :
    Approximates (WhileLoop.run cond (body fuel) rounds s)
      (WhileLoop.run cond (body fuel') rounds s) := by
  induction rounds generalizing s with
  | zero => exact .refl _
  | succ rounds ih => exact .ite _ ((hbody s fuel fuel' hle).bind ih) (.refl _)

theorem settled_run (hbody : ∀ s, Settled fun fuel => body fuel s) (s : σ) :
    Settled fun fuel => WhileLoop.run cond (body fuel) fuel s := by
  intro fuel fuel' hle a ha
  exact WhileLoop.run_mono hle (approximates_run hbody hle fuel s a ha)

/-- Total correctness, where each pass returns for some fuel. -/
theorem exists_run (hbody : ∀ s, Settled fun fuel => body fuel s) (I : σ → Prop) (μ : σ → ℕ)
    (hstep : ∀ s, I s → cond s = true → ∃ fuel s', body fuel s = some s' ∧ I s' ∧ μ s' < μ s)
    {s : σ} (hs : I s) :
    ∃ fuel s', WhileLoop.run cond (body fuel) fuel s = some s' ∧ I s' ∧ cond s' = false := by
  induction hn : μ s using Nat.strong_induction_on generalizing s with
  | _ n ih =>
    by_cases hc : cond s = true
    · obtain ⟨fuel₁, u, hu, hI, hlt⟩ := hstep s hs hc
      obtain ⟨fuel₂, s', hrun, hI', hexit⟩ := ih (μ u) (by omega) hI rfl
      have h₁ : fuel₁ ≤ max fuel₁ fuel₂ + 1 := (le_max_left _ _).trans (Nat.le_succ _)
      have h₂ : fuel₂ ≤ max fuel₁ fuel₂ + 1 := (le_max_right _ _).trans (Nat.le_succ _)
      have hpass : body (max fuel₁ fuel₂ + 1) s = some u := hbody s _ _ h₁ u hu
      refine ⟨max fuel₁ fuel₂ + 1, s', ?_, hI', hexit⟩
      rw [WhileLoop.run_succ_of _ hc, hpass]
      exact WhileLoop.run_mono (le_max_right _ _) (approximates_run hbody h₂ fuel₂ u s' hrun)
    · exact ⟨0, s, WhileLoop.run_of_not 0 (by simpa using hc), hs, by simpa using hc⟩

end Loops

end Fuel
