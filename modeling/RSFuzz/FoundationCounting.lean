import Mathlib.Algebra.BigOperators.Group.List.Basic
import Mathlib.Algebra.GroupWithZero.Nat
import Mathlib.Data.List.Sort

set_option autoImplicit false

/-!
# Counting and sorting lists

The members of a list that lie in another one, counted at once or one by one,
and the order that insertion by a key leaves.
-/
namespace Counting

variable {α : Type*}

theorem countP_mem_cons [DecidableEq α] {y : α} {ys : List α} (hy : y ∉ ys)
    (xs : List α) : xs.countP (· ∈ y :: ys) = xs.count y + xs.countP (· ∈ ys) := by
  induction xs with
  | nil => rfl
  | cons x xs ih =>
    rw [List.count_cons, List.countP_cons, List.countP_cons, ih]
    by_cases hxy : x = y
    · subst hxy
      simp only [List.mem_cons, true_or, decide_true, ↓reduceIte, beq_self_eq_true, hy, decide_false,
        Bool.false_eq_true]
      omega
    · simp only [List.mem_cons, hxy, false_or, beq_iff_eq, ↓reduceIte]
      omega

theorem sum_map_count_of_nodup [DecidableEq α] {ys : List α} (hys : ys.Nodup)
    (xs : List α) : (ys.map fun y => xs.count y).sum = xs.countP (· ∈ ys) := by
  induction ys with
  | nil => simp
  | cons y ys ih =>
    rw [List.nodup_cons] at hys
    rw [List.map_cons, List.sum_cons, ih hys.2, countP_mem_cons hys.1]

theorem sum_map_getElem? (xs : List α) (f : α → ℕ) (js : List ℕ) :
    (js.map fun j => ((xs[j]?).map f).getD 0).sum = ((js.filterMap (xs[·]?)).map f).sum := by
  induction js with
  | nil => rfl
  | cons j js ih =>
    rw [List.map_cons, List.sum_cons, ih, List.filterMap_cons]
    cases xs[j]? <;> simp

theorem sum_add_countP_zero (f : α → ℕ) (p : α → Bool) (hp : ∀ x, f x ≠ 0 → p x = true)
    (xs : List α) : (xs.map f).sum + xs.countP (fun x => decide (f x = 0) && p x) =
      (xs.map fun x => f x - 1).sum + xs.countP p := by
  induction xs with
  | nil => rfl
  | cons x xs ih =>
    rw [List.map_cons, List.sum_cons, List.map_cons, List.sum_cons, List.countP_cons, List.countP_cons]
    by_cases hx : f x = 0
    · simp only [hx, decide_true, Bool.true_and]
      omega
    · simp only [hx, hp x hx, decide_false, Bool.false_and, Bool.false_eq_true, ↓reduceIte]
      omega

theorem pairwise_insertionSort_of {r : α → α → Prop} [DecidableRel r]
    (htotal : ∀ a b, r a b ∨ r b a) (htrans : ∀ a b c, r a b → r b c → r a c) (xs : List α) :
    (xs.insertionSort r).Pairwise r := by
  have : Std.Total r := ⟨htotal⟩
  have : IsTrans α r := ⟨htrans⟩
  exact List.pairwise_insertionSort r xs

end Counting
