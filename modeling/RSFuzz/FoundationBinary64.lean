import Mathlib.Algebra.Order.Floor.Ring
import Mathlib.Data.Int.Log
import Mathlib.Data.Rat.Floor
import Mathlib.Tactic.Linarith
import Mathlib.Tactic.NormNum
import Mathlib.Tactic.Positivity
import Mathlib.Tactic.Ring

set_option autoImplicit false

/-!
# Doubles

Binary64 numbers are taken as the rationals they stand for. An operation rounds
the exact result to the nearest double, ties to even. What is proved is what
sums and quotients of non-negative doubles need: rounding keeps the order, does
nothing to a double, and changes a normal number by less than one part in `2 ^ 53`.
-/
namespace Binary64

/-- The nearest integer, ties to even. -/
def nearest (q : ℚ) : ℤ :=
  if q - ⌊q⌋ < 1 / 2 then ⌊q⌋
  else if 1 / 2 < q - ⌊q⌋ then ⌊q⌋ + 1
  else if ⌊q⌋ % 2 = 0 then ⌊q⌋
  else ⌊q⌋ + 1

/-- The exponent of the last place of the doubles next to `q`. -/
def exponent (q : ℚ) : ℤ := max (Int.log 2 |q| - 52) (-1074)

def ulp (q : ℚ) : ℚ := 2 ^ exponent q

def toDouble (q : ℚ) : ℚ := nearest (q / ulp q) * ulp q

def IsDouble (q : ℚ) : Prop := toDouble q = q

instance (q : ℚ) : Decidable (IsDouble q) := inferInstanceAs (Decidable (toDouble q = q))

/-- The least number that is too large for a double. -/
def infinity : ℚ := 2 ^ 1024

def quotient (a b : ℚ) : ℚ := if infinity ≤ b then 0 else toDouble (a / b)

variable {a b q : ℚ}

theorem nearest_mem (q : ℚ) : nearest q = ⌊q⌋ ∨ nearest q = ⌊q⌋ + 1 := by
  unfold nearest
  split_ifs
  · exact Or.inl rfl
  · exact Or.inr rfl
  · exact Or.inl rfl
  · exact Or.inr rfl

theorem nearest_intCast (z : ℤ) : nearest z = z := by
  rw [nearest, Int.floor_intCast, sub_self, if_pos (by norm_num)]

theorem abs_nearest_sub_le (q : ℚ) : |(nearest q : ℚ) - q| ≤ 1 / 2 := by
  have hle := Int.floor_le q
  have hlt := Int.lt_floor_add_one q
  rw [abs_le]
  unfold nearest
  split_ifs with hlow hhigh
  · constructor <;> linarith
  · push_cast
    constructor <;> linarith
  · constructor <;> linarith
  · push_cast
    constructor <;> linarith

theorem nearest_mono (h : a ≤ b) : nearest a ≤ nearest b := by
  rcases (Int.floor_le_floor h).lt_or_eq with hlt | heq
  · have ha := nearest_mem a
    have hb := nearest_mem b
    omega
  · -- the same integer below, so the fractions are compared
    have hfract : a - ⌊a⌋ ≤ b - ⌊b⌋ := by
      rw [heq]
      linarith
    unfold nearest
    rw [heq] at hfract ⊢
    split_ifs <;> first | omega | linarith

theorem ulp_pos (q : ℚ) : 0 < ulp q := zpow_pos (by norm_num) _

theorem le_exponent (q : ℚ) : -1074 ≤ exponent q := le_max_right _ _

theorem log_le_exponent (q : ℚ) : Int.log 2 |q| ≤ exponent q + 52 := by
  have := le_max_left (Int.log 2 |q| - 52) (-1074)
  rw [exponent]
  omega

theorem exponent_mono (ha : 0 < a) (h : a ≤ b) : exponent a ≤ exponent b := by
  have hlog : Int.log 2 |a| ≤ Int.log 2 |b| := by
    rw [abs_of_pos ha, abs_of_pos (ha.trans_le h)]
    exact Int.log_mono_right ha h
  unfold exponent
  omega

theorem exists_mul_ulp {e : ℤ} (h : exponent q ≤ e) : ∃ z : ℤ, (2 : ℚ) ^ e = z * ulp q := by
  refine ⟨2 ^ (e - exponent q).toNat, ?_⟩
  have hexp : (((e - exponent q).toNat : ℕ) : ℤ) = e - exponent q := Int.toNat_of_nonneg (by omega)
  rw [ulp, Int.cast_pow, ← zpow_natCast, hexp, Int.cast_ofNat, ← zpow_add₀ (by norm_num)]
  congr 1
  omega

theorem toDouble_of_mul_ulp {z : ℤ} (h : q = z * ulp q) : toDouble q = q := by
  have hdiv : q / ulp q = z := by
    rw [div_eq_iff (ulp_pos q).ne']
    exact h
  rw [toDouble, hdiv, nearest_intCast, ← h]

theorem le_toDouble_of_le {z : ℤ} (h : z * ulp q ≤ q) : z * ulp q ≤ toDouble q := by
  have hz : z ≤ nearest (q / ulp q) := by
    rw [← nearest_intCast z]
    exact nearest_mono ((le_div_iff₀ (ulp_pos q)).mpr h)
  exact mul_le_mul_of_nonneg_right (by exact_mod_cast hz) (ulp_pos q).le

theorem toDouble_le_of_le {z : ℤ} (h : q ≤ z * ulp q) : toDouble q ≤ z * ulp q := by
  have hz : nearest (q / ulp q) ≤ z := by
    rw [← nearest_intCast z]
    exact nearest_mono ((div_le_iff₀ (ulp_pos q)).mpr h)
  exact mul_le_mul_of_nonneg_right (by exact_mod_cast hz) (ulp_pos q).le

theorem toDouble_nonneg (h : 0 ≤ q) : 0 ≤ toDouble q := by
  have := le_toDouble_of_le (z := 0) (q := q) (by simpa using h)
  simpa using this

@[simp] theorem toDouble_zero : toDouble 0 = 0 := by
  simpa using toDouble_of_mul_ulp (q := 0) (z := 0) (by simp)

theorem isDouble_zero : IsDouble 0 := toDouble_zero

theorem log_bounds (h : 0 < q) : (2 : ℚ) ^ Int.log 2 |q| ≤ q ∧ q < 2 ^ (Int.log 2 |q| + 1) := by
  rw [abs_of_pos h]
  exact ⟨by exact_mod_cast Int.zpow_log_le_self (by norm_num) h,
    by exact_mod_cast Int.lt_zpow_succ_log_self (by norm_num) q⟩

/-- Below the next power of two a number is not rounded beyond it. -/
theorem toDouble_le_zpow {e : ℤ} (hlt : q < 2 ^ e) (hexp : exponent q ≤ e) : toDouble q ≤ 2 ^ e := by
  obtain ⟨z, hz⟩ := exists_mul_ulp hexp
  rw [hz] at hlt ⊢
  exact toDouble_le_of_le hlt.le

theorem zpow_le_toDouble {e : ℤ} (hle : 2 ^ e ≤ q) (hexp : exponent q ≤ e) : 2 ^ e ≤ toDouble q := by
  obtain ⟨z, hz⟩ := exists_mul_ulp hexp
  rw [hz] at hle ⊢
  exact le_toDouble_of_le hle

theorem toDouble_mono (ha : 0 ≤ a) (h : a ≤ b) : toDouble a ≤ toDouble b := by
  rcases ha.eq_or_lt with rfl | hpos
  · rw [toDouble_zero]
    exact toDouble_nonneg h
  · rcases (exponent_mono hpos h).eq_or_lt with heq | hlt
    · have hulp : ulp a = ulp b := by rw [ulp, ulp, heq]
      rw [toDouble, toDouble, hulp]
      have hdiv : a / ulp b ≤ b / ulp b := div_le_div_of_nonneg_right h (ulp_pos b).le
      exact mul_le_mul_of_nonneg_right (by exact_mod_cast nearest_mono hdiv) (ulp_pos b).le
    · have hb := log_bounds (hpos.trans_le h)
      have ha := log_bounds hpos
      have hea := log_le_exponent a
      have hla := le_exponent a
      have heb : exponent b = Int.log 2 |b| - 52 := by
        unfold exponent at hlt hla ⊢
        omega
      have hlog : Int.log 2 |a| + 1 ≤ Int.log 2 |b| := by
        by_contra hle
        have : exponent b ≤ exponent a := by
          unfold exponent
          omega
        omega
      calc toDouble a ≤ 2 ^ Int.log 2 |b| := toDouble_le_zpow
            (ha.2.trans_le (zpow_le_zpow_right₀ (by norm_num) hlog)) (by omega)
        _ ≤ toDouble b := zpow_le_toDouble hb.1 (by omega)

theorem isDouble_toDouble (h : 0 ≤ q) : IsDouble (toDouble q) := by
  rcases h.eq_or_lt with rfl | hpos
  · rw [toDouble_zero]
    exact isDouble_zero
  · rcases (toDouble_nonneg h).eq_or_lt with hzero | hround
    · rw [← hzero]
      exact isDouble_zero
    · rcases le_or_gt (exponent (toDouble q)) (exponent q) with hle | hlt
      · obtain ⟨z, hz⟩ := exists_mul_ulp hle
        refine toDouble_of_mul_ulp (z := nearest (q / ulp q) * z) ?_
        rw [Int.cast_mul, mul_assoc, ← hz]
        rfl
      · have hq := log_bounds hpos
        have hr := log_bounds hround
        have heq := log_le_exponent q
        have hle := le_exponent q
        have her : exponent (toDouble q) = Int.log 2 |toDouble q| - 52 := by
          unfold exponent at hlt hle ⊢
          omega
        have hlog : Int.log 2 |q| + 1 ≤ Int.log 2 |toDouble q| := by
          by_contra hno
          have : exponent (toDouble q) ≤ exponent q := by
            unfold exponent
            omega
          omega
        have hup : toDouble q ≤ 2 ^ Int.log 2 |toDouble q| := toDouble_le_zpow
          (hq.2.trans_le (zpow_le_zpow_right₀ (by norm_num) hlog)) (by omega)
        have hpow : toDouble q = 2 ^ Int.log 2 |toDouble q| := le_antisymm hup hr.1
        obtain ⟨z, hz⟩ := exists_mul_ulp (q := toDouble q) (e := Int.log 2 |toDouble q|) (by omega)
        exact toDouble_of_mul_ulp (hpow.trans hz)

theorem abs_toDouble_sub_le (q : ℚ) : |toDouble q - q| ≤ ulp q / 2 := by
  have hpos := ulp_pos q
  have hdiff : toDouble q - q = (nearest (q / ulp q) - q / ulp q) * ulp q := by
    rw [toDouble, sub_mul, div_mul_cancel₀ q hpos.ne']
  rw [hdiff, abs_mul, abs_of_pos hpos]
  calc |(nearest (q / ulp q) : ℚ) - q / ulp q| * ulp q ≤ 1 / 2 * ulp q :=
        mul_le_mul_of_nonneg_right (abs_nearest_sub_le _) hpos.le
    _ = ulp q / 2 := by ring

def leastNormal : ℚ := 2 ^ (-1022 : ℤ)

theorem leastNormal_pos : 0 < leastNormal := zpow_pos (by norm_num) _

theorem ulp_le_of_normal (h : leastNormal ≤ q) : ulp q ≤ q / 2 ^ 52 := by
  have hpos : 0 < q := leastNormal_pos.trans_le h
  have hlog : -1022 ≤ Int.log 2 |q| := by
    rw [abs_of_pos hpos]
    exact (Int.zpow_le_iff_le_log (by norm_num) hpos).mp (by exact_mod_cast h)
  have hexp : exponent q = Int.log 2 |q| - 52 := by
    unfold exponent
    omega
  have hsplit : ulp q = 2 ^ Int.log 2 |q| / 2 ^ 52 := by
    rw [ulp, hexp, zpow_sub₀ (by norm_num)]
    norm_num
  rw [hsplit]
  exact div_le_div_of_nonneg_right (log_bounds hpos).1 (by norm_num)

theorem toDouble_error (h : leastNormal ≤ q) :
    q - q / 2 ^ 53 ≤ toDouble q ∧ toDouble q ≤ q + q / 2 ^ 53 := by
  have herr := abs_le.mp (abs_toDouble_sub_le q)
  have hulp := ulp_le_of_normal h
  have hhalf : q / 2 ^ 52 / 2 = q / 2 ^ 53 := by ring
  constructor <;> linarith [herr.1, herr.2]

end Binary64
