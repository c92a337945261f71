import Mathlib.Algebra.BigOperators.Ring.Multiset
import Mathlib.Data.Multiset.Bind
import Mathlib.Tactic.Ring

set_option autoImplicit false

/-!
# Weighted words

Multisets of words, each occurrence with its own weight. Two of them are
joined by concatenating every word of one with every word of the other, and
the weights of independent choices are multiplied.
-/
namespace Weighted

variable {α K : Type*}

abbrev Words (α K : Type*) := Multiset (List α × K)

section

variable [CommSemiring K]

def one : Words α K := {([], 1)}

def join (m n : Words α K) : Words α K :=
  m.bind fun a => n.map fun b => (a.1 ++ b.1, a.2 * b.2)

def scale (r : K) (m : Words α K) : Words α K := m.map fun a => (a.1, a.2 * r)

/-- The same choice, made `n` times independently. -/
def power (m : Words α K) : ℕ → Words α K
  | 0 => one
  | n + 1 => join m (power m n)

def total (m : Words α K) : K := (m.map Prod.snd).sum

variable (m n : Words α K)

@[simp] theorem one_join : join one n = n := by
  simp [join, one]

@[simp] theorem join_one : join m one = m := by
  simpa [join, one] using Multiset.bind_singleton m id

theorem join_assoc (p : Words α K) : join (join m n) p = join m (join n p) := by
  simp only [join, Multiset.bind_assoc, Multiset.bind_map, Multiset.map_bind, Multiset.map_map,
    Function.comp_apply, List.append_assoc, mul_assoc]

@[simp] theorem zero_join : join 0 n = 0 := Multiset.zero_bind _

@[simp] theorem join_zero : join m 0 = 0 := by
  simp [join]

theorem add_join (m' : Words α K) : join (m + m') n = join m n + join m' n :=
  Multiset.add_bind _ _ _

theorem join_add (n' : Words α K) : join m (n + n') = join m n + join m n' := by
  simp only [join, Multiset.map_add, Multiset.bind_add]

theorem scale_join (r : K) : join (scale r m) n = scale r (join m n) := by
  simp only [join, scale, Multiset.bind_map, Multiset.map_bind, Multiset.map_map,
    Function.comp_apply, mul_right_comm]

theorem join_scale (r : K) : join m (scale r n) = scale r (join m n) := by
  simp only [join, scale, Multiset.map_bind, Multiset.map_map, Function.comp_apply, mul_assoc]

@[simp] theorem scale_zero (r : K) : scale r (0 : Words α K) = 0 := Multiset.map_zero _

theorem scale_add (r : K) : scale r (m + n) = scale r m + scale r n := Multiset.map_add _ _ _

theorem scale_scale (r s : K) : scale r (scale s m) = scale (s * r) m := by
  simp only [scale, Multiset.map_map, Function.comp_apply, mul_assoc]

@[simp] theorem total_zero : total (0 : Words α K) = 0 := by
  simp [total]

@[simp] theorem total_one : total (one : Words α K) = 1 := by
  simp [total, one]

theorem total_add : total (m + n) = total m + total n := by
  simp [total]

theorem total_scale (r : K) : total (scale r m) = total m * r := by
  simp only [total, scale, Multiset.map_map, Function.comp_apply, Multiset.sum_map_mul_right]

theorem total_join : total (join m n) = total m * total n := by
  induction m using Multiset.induction_on with
  | empty => simp
  | cons a m ih =>
    have hone : total (join {a} n) = a.2 * total n := by
      simp only [join, Multiset.singleton_bind, total, Multiset.map_map, Function.comp_apply,
        Multiset.sum_map_mul_left]
    have ha : total ({a} : Words α K) = a.2 := by simp [total]
    rw [← Multiset.singleton_add, add_join, total_add, total_add, ih, hone, ha, add_mul]

theorem total_power (hm : total m = 1) (k : ℕ) : total (power m k) = 1 := by
  induction k with
  | zero => exact total_one
  | succ k ih => rw [power, total_join, hm, ih, one_mul]

variable (ms : List (Words α K))

theorem sum_join : join ms.sum n = (ms.map fun m => join m n).sum := by
  induction ms with
  | nil => exact zero_join n
  | cons m ms ih => rw [List.sum_cons, add_join, ih, List.map_cons, List.sum_cons]

theorem join_sum : join m ms.sum = (ms.map fun n => join m n).sum := by
  induction ms with
  | nil => exact join_zero m
  | cons n ms ih => rw [List.sum_cons, join_add, ih, List.map_cons, List.sum_cons]

theorem scale_sum (r : K) : scale r ms.sum = (ms.map fun m => scale r m).sum := by
  induction ms with
  | nil => exact scale_zero r
  | cons m ms ih => rw [List.sum_cons, scale_add, ih, List.map_cons, List.sum_cons]

theorem total_sum : total ms.sum = (ms.map total).sum := by
  induction ms with
  | nil => exact total_zero
  | cons m ms ih => rw [List.sum_cons, total_add, ih, List.map_cons, List.sum_cons]

end
end Weighted
