import Mathlib.Data.List.Basic
import Mathlib.Tactic.Linarith

set_option autoImplicit false

/-!
# Consecutive half-open ranges

`Tiles s rs n` says that the ranges `rs`, read left to right, cover the indices
from `s` to `n` without gap or overlap.
-/
namespace Tiling

def Tiles : ℕ → List (ℕ × ℕ) → ℕ → Prop
  | s, [], n => s = n
  | s, r :: rs, n => r.1 = s ∧ r.1 ≤ r.2 ∧ Tiles r.2 rs n

instance decidableTiles : (s : ℕ) → (rs : List (ℕ × ℕ)) → (n : ℕ) → Decidable (Tiles s rs n)
  | s, [], n => inferInstanceAs (Decidable (s = n))
  | s, r :: rs, n =>
    have := decidableTiles r.2 rs n
    inferInstanceAs (Decidable (r.1 = s ∧ r.1 ≤ r.2 ∧ Tiles r.2 rs n))

theorem Tiles.le {s n : ℕ} {rs : List (ℕ × ℕ)} (h : Tiles s rs n) : s ≤ n := by
  induction rs generalizing s with
  | nil => exact Nat.le_of_eq h
  | cons r rs ih =>
    obtain ⟨hs, hle, hrest⟩ := h
    have := ih hrest
    omega

theorem Tiles.concat {s n m : ℕ} {rs : List (ℕ × ℕ)} (h : Tiles s rs n) (hle : n ≤ m) :
    Tiles s (rs ++ [(n, m)]) m := by
  induction rs generalizing s with
  | nil =>
    obtain rfl : s = n := h
    exact ⟨rfl, hle, rfl⟩
  | cons r rs ih => exact ⟨h.1, h.2.1, ih h.2.2⟩

theorem Tiles.exists_mem {s n c : ℕ} {rs : List (ℕ × ℕ)} (h : Tiles s rs n) (hs : s ≤ c)
    (hn : c < n) : ∃ r ∈ rs, r.1 ≤ c ∧ c < r.2 := by
  induction rs generalizing s with
  | nil =>
    have : s = n := h
    omega
  | cons r rs ih =>
    obtain ⟨he, hle, hrest⟩ := h
    by_cases hc : c < r.2
    · exact ⟨r, by simp, by omega, hc⟩
    · obtain ⟨q, hq, hq'⟩ := ih hrest (by omega)
      exact ⟨q, by simp [hq], hq'⟩

theorem Tiles.bounds {s n : ℕ} {rs : List (ℕ × ℕ)} (h : Tiles s rs n) {r : ℕ × ℕ}
    (hr : r ∈ rs) : s ≤ r.1 ∧ r.1 ≤ r.2 ∧ r.2 ≤ n := by
  induction rs generalizing s with
  | nil => simp at hr
  | cons q rs ih =>
    obtain ⟨he, hle, hrest⟩ := h
    rcases List.mem_cons.mp hr with rfl | hr
    · exact ⟨by omega, hle, hrest.le⟩
    · have := ih hrest hr
      omega

section Blocks

variable {α β : Type*}

/-- Where the block of the `i`-th entry begins. -/
def offset (f : α → List β) (xs : List α) (i : ℕ) : ℕ := ((xs.take i).flatMap f).length

theorem getElem?_flatMap_offset (f : α → List β) {xs : List α} {i k : ℕ} {x : α} {y : β}
    (hx : xs[i]? = some x) (hy : (f x)[k]? = some y) :
    (xs.flatMap f)[offset f xs i + k]? = some y := by
  obtain ⟨hi, rfl⟩ := List.getElem?_eq_some_iff.mp hx
  have hsplit : xs.flatMap f = (xs.take i).flatMap f ++ (f xs[i] ++ (xs.drop (i + 1)).flatMap f) := by
    conv_lhs => rw [← List.take_append_drop i xs, List.drop_eq_getElem_cons hi]
    rw [List.flatMap_append, List.flatMap_cons]
  have hk := (List.getElem?_eq_some_iff.mp hy).1
  rw [hsplit, offset, List.getElem?_append_right (Nat.le_add_right _ _), Nat.add_sub_cancel_left,
    List.getElem?_append_left hk, hy]

end Blocks
end Tiling
