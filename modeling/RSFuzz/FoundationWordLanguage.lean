import Mathlib.Algebra.Order.Ring.Defs
import Mathlib.Computability.Language
import RSFuzz.FoundationWeighted

set_option autoImplicit false

/-!
# The words that have a weight

Forgetting the weights turns the operations on weighted words into those on
languages. Weights that are positive stay so.
-/
namespace Weighted

variable {α K : Type*}

/-- The words that occur. -/
def words (m : Words α K) : Language α := fun w => ∃ r, (w, r) ∈ m

theorem mem_words {m : Words α K} {w : List α} : w ∈ words m ↔ ∃ r, (w, r) ∈ m := Iff.rfl

theorem words_coe (xs : List (List α × K)) (w : List α) :
    w ∈ words (xs : Words α K) ↔ ∃ x ∈ xs, x.1 = w := by
  constructor
  · rintro ⟨r, hr⟩
    exact ⟨(w, r), Multiset.mem_coe.mp hr, rfl⟩
  · rintro ⟨⟨w, r⟩, hx, rfl⟩
    exact ⟨r, Multiset.mem_coe.mpr hx⟩

@[simp] theorem words_zero : words (0 : Words α K) = 0 := by
  ext w
  simp [mem_words, Language.notMem_zero]

@[simp] theorem words_add (m n : Words α K) : words (m + n) = words m + words n := by
  ext w
  simp only [mem_words, Multiset.mem_add, Language.mem_add, exists_or]

theorem words_sum (ms : List (Words α K)) : words ms.sum = (ms.map words).sum := by
  induction ms with
  | nil => exact words_zero
  | cons m ms ih => rw [List.sum_cons, words_add, ih, List.map_cons, List.sum_cons]

section

variable [CommSemiring K]

@[simp] theorem words_one : words (one : Words α K) = 1 := by
  ext w
  simp [mem_words, one, Language.mem_one]

@[simp] theorem words_join (m n : Words α K) : words (join m n) = words m * words n := by
  ext w
  simp only [mem_words, join, Multiset.mem_bind, Multiset.mem_map, Language.mem_mul]
  constructor
  · rintro ⟨r, ⟨u, ru⟩, hu, ⟨v, rv⟩, hv, heq⟩
    exact ⟨u, ⟨ru, hu⟩, v, ⟨rv, hv⟩, (Prod.mk.inj heq).1⟩
  · rintro ⟨u, ⟨ru, hu⟩, v, ⟨rv, hv⟩, rfl⟩
    exact ⟨ru * rv, (u, ru), hu, (v, rv), hv, rfl⟩

@[simp] theorem words_scale (r : K) (m : Words α K) : words (scale r m) = words m := by
  ext w
  simp only [mem_words, scale, Multiset.mem_map]
  constructor
  · rintro ⟨s, ⟨u, ru⟩, hu, heq⟩
    exact ⟨ru, (Prod.mk.inj heq).1 ▸ hu⟩
  · rintro ⟨s, hs⟩
    exact ⟨s * r, (w, s), hs, rfl⟩

theorem words_power (m : Words α K) (n : ℕ) : words (power m n) = words m ^ n := by
  induction n with
  | zero => rw [power, words_one, pow_zero]
  | succ n ih => rw [power, words_join, ih, pow_succ']

end

end Weighted
