import Mathlib.Algebra.Order.BigOperators.Group.List
import Mathlib.Tactic.GCongr
import RSFuzz.FoundationWeightedDraw

set_option autoImplicit false

/-!
# Balanced weights

No positive weight is negligible beside the others. Then the sum in doubles is
nearly the exact one, every positive weight can be drawn, and dividing the
weights by their sum, any number of times, keeps them balanced.
-/
namespace WeightedDraw
open Binary64

/-- What a loop over the weights leaves: a sum that has overflowed stays as it is. -/
def sum (weights : List ℚ) : ℚ :=
  ((runningSums 0 weights).find? fun s => infinity ≤ |s|).getD (total weights)

/-- A weight divided by the sum; where that is not positive all weights become equal. -/
def rescaled (weights : List ℚ) (w : ℚ) : ℚ :=
  if 0 < sum weights then quotient w (sum weights) else toDouble (1 / weights.length)

def rescale (weights : List ℚ) : List ℚ := weights.map (rescaled weights)

structure Balanced (c : ℚ) (weights : List ℚ) : Prop where
  doubles : ∀ w ∈ weights, 0 ≤ w ∧ IsDouble w
  share : ∀ w ∈ weights, w = 0 ∨ weights.sum ≤ c * w ∧ 2 ^ (-900 : ℤ) ≤ w
  bounded : weights.sum ≤ 2 ^ 200
  zeros : (∀ w ∈ weights, w = 0) → (weights.length : ℚ) ≤ c

variable {c c' s w : ℚ} {weights : List ℚ}

theorem balanced_iff (c : ℚ) (weights : List ℚ) : Balanced c weights ↔
    (∀ w ∈ weights, 0 ≤ w ∧ IsDouble w) ∧
    (∀ w ∈ weights, w = 0 ∨ weights.sum ≤ c * w ∧ 2 ^ (-900 : ℤ) ≤ w) ∧ weights.sum ≤ 2 ^ 200 ∧
    ((∀ w ∈ weights, w = 0) → (weights.length : ℚ) ≤ c) :=
  ⟨fun h => ⟨h.doubles, h.share, h.bounded, h.zeros⟩, fun h => ⟨h.1, h.2.1, h.2.2.1, h.2.2.2⟩⟩

instance (c : ℚ) (weights : List ℚ) : Decidable (Balanced c weights) :=
  decidable_of_iff _ (balanced_iff c weights).symm

theorem balanced_nil (hc : 0 ≤ c) : Balanced c [] where
  doubles _ h := absurd h List.not_mem_nil
  share _ h := absurd h List.not_mem_nil
  bounded := by simp
  zeros _ := by simpa using hc

theorem Balanced.sum_nonneg (h : Balanced c weights) : 0 ≤ weights.sum :=
  List.sum_nonneg fun w hw => (h.doubles w hw).1

theorem Balanced.mono (h : Balanced c weights) (hle : c ≤ c') : Balanced c' weights where
  doubles := h.doubles
  share w hw := (h.share w hw).imp_right fun hshare =>
    ⟨hshare.1.trans (mul_le_mul_of_nonneg_right hle (h.doubles w hw).1), hshare.2⟩
  bounded := h.bounded
  zeros hzero := (h.zeros hzero).trans hle

theorem Balanced.pos (h : Balanced c weights) (hw : w ∈ weights) (hne : w ≠ 0) : 0 < w :=
  (h.doubles w hw).1.lt_of_ne hne.symm

theorem Balanced.sum_pos (h : Balanced c weights) (hw : w ∈ weights) (hne : w ≠ 0) :
    0 < weights.sum :=
  (h.pos hw hne).trans_le (List.single_le_sum (fun v hv => (h.doubles v hv).1) w hw)

theorem countP_mul_le (hnonneg : ∀ w ∈ weights, 0 ≤ w)
    (hshare : ∀ w ∈ weights, w = 0 ∨ s ≤ c * w) :
    (weights.countP (0 < ·) : ℚ) * s ≤ c * weights.sum := by
  induction weights with
  | nil => simp
  | cons w weights ih =>
    have hrest := ih (fun v hv => hnonneg v (List.mem_cons_of_mem w hv))
      fun v hv => hshare v (List.mem_cons_of_mem w hv)
    rw [List.countP_cons, List.sum_cons, mul_add]
    rcases hshare w (by simp) with rfl | hw
    · simpa using hrest
    · split_ifs
      · push_cast
        linarith
      · have hzero : w = 0 := le_antisymm (by simp_all) (hnonneg w (by simp))
        simpa [hzero] using hrest

theorem Balanced.countP_le (h : Balanced c weights) (hw : w ∈ weights) (hne : w ≠ 0) :
    (weights.countP (0 < ·) : ℚ) ≤ c := by
  have hle := countP_mul_le (fun v hv => (h.doubles v hv).1)
    fun v hv => (h.share v hv).imp_right And.left
  exact le_of_mul_le_mul_right hle (h.sum_pos hw hne)

/-- Every addition of a positive weight adds one part in `2 ^ 53` at most to the error. -/
theorem total_error (hw : ∀ w ∈ weights, 0 ≤ w ∧ (w = 0 ∨ leastNormal ≤ w))
    (hcount : (weights.countP (0 < ·) : ℚ) ≤ 2 ^ 52) :
    weights.sum * (1 - weights.countP (0 < ·) / 2 ^ 53) ≤ total weights ∧
      total weights ≤ weights.sum * (1 + weights.countP (0 < ·) / 2 ^ 52) := by
  induction weights using List.reverseRecOn with
  | nil => simp
  | append_singleton weights w ih =>
    have hleft : ∀ v ∈ weights, 0 ≤ v ∧ (v = 0 ∨ leastNormal ≤ v) :=
      fun v hv => hw v (List.mem_append_left _ hv)
    have hsum : 0 ≤ weights.sum := List.sum_nonneg fun v hv => (hleft v hv).1
    obtain ⟨hnonneg, hdouble⟩ := total_spec fun v hv => (hleft v hv).1
    rw [List.countP_append, List.countP_singleton] at hcount ⊢
    rw [total_concat, List.sum_append, List.sum_singleton]
    rcases (hw w (by simp)).2 with rfl | hnormal
    · have ih := ih hleft (by simpa using hcount)
      rw [add_zero, add_zero, hdouble]
      simpa using ih
    · have hpos : 0 < w := leastNormal_pos.trans_le hnormal
      rw [if_pos (by simpa using hpos)] at hcount ⊢
      push_cast at hcount ⊢
      obtain ⟨hlow, hhigh⟩ := ih hleft (by linarith)
      obtain ⟨herrlow, herrhigh⟩ := toDouble_error (q := total weights + w) (by linarith)
      generalize hm : (weights.countP fun v => decide (0 < v) : ℚ) = m at hcount hlow hhigh ⊢
      have hm0 : 0 ≤ m := hm ▸ Nat.cast_nonneg _
      have hsm : 0 ≤ weights.sum * m := mul_nonneg hsum hm0
      have hwm : 0 ≤ w * m := mul_nonneg hpos.le hm0
      have hbound : weights.sum * m ≤ weights.sum * 2 ^ 52 :=
        mul_le_mul_of_nonneg_left (by linarith) hsum
      constructor <;> linarith

theorem Balanced.normal (h : Balanced c weights) : ∀ w ∈ weights, 0 ≤ w ∧ (w = 0 ∨ leastNormal ≤ w) := by
  intro w hw
  refine ⟨(h.doubles w hw).1, (h.share w hw).imp_right fun hshare => ?_⟩
  have htiny := le_tiny
  have hn := leastNormal_pos
  linarith [hshare.2]

theorem Balanced.total_bounds (h : Balanced c weights) (hc : c ≤ 2 ^ 42) :
    weights.sum / 2 ≤ total weights ∧ total weights ≤ 2 * weights.sum := by
  by_cases hzero : ∀ w ∈ weights, w = 0
  · rw [total_of_zeros hzero, List.sum_eq_zero hzero]
    norm_num
  · push Not at hzero
    obtain ⟨w, hw, hne⟩ := hzero
    have hcount := (h.countP_le hw hne).trans hc
    obtain ⟨hlow, hhigh⟩ := total_error h.normal (hcount.trans (by norm_num))
    have hsum := h.sum_nonneg
    have hshare : weights.sum * (weights.countP (0 < ·) : ℚ) ≤ weights.sum * 2 ^ 42 :=
      mul_le_mul_of_nonneg_left hcount hsum
    constructor <;> linarith

theorem Balanced.summable (h : Balanced c weights) (hc : c ≤ 2 ^ 42) : Summable weights where
  doubles := h.doubles
  finite := by
    have htotal := (h.total_bounds hc).2
    have hbounded := h.bounded
    have hinfinity : (2 : ℚ) ^ 202 ≤ infinity := pow_le_pow_right₀ (by norm_num) (by norm_num)
    linarith

theorem Balanced.noticeable (h : Balanced c weights) (hc : c ≤ 2 ^ 42) (hw : w ∈ weights)
    (hne : w ≠ 0) : Noticeable (total weights) w := by
  obtain ⟨hshare, htiny⟩ := (h.share w hw).resolve_left hne
  have hpos := h.pos hw hne
  have htotal := (h.total_bounds hc).2
  have hcw : c * w ≤ 2 ^ 42 * w := mul_le_mul_of_nonneg_right hc hpos.le
  exact ⟨by linarith, htiny⟩

theorem Summable.sum_eq (h : Summable weights) : sum weights = total weights := by
  have hnone : (runningSums 0 weights).find? (fun s => infinity ≤ |s|) = none := by
    rw [List.find?_eq_none]
    intro s hs
    simpa using h.abs_lt hs
  rw [sum, hnone, Option.getD_none]

theorem sum_map_le {f : ℚ → ℚ} {k : ℚ} (h : ∀ w ∈ weights, f w ≤ k * w) :
    (weights.map f).sum ≤ k * weights.sum := by
  induction weights with
  | nil => simp
  | cons w weights ih =>
    rw [List.map_cons, List.sum_cons, List.sum_cons, mul_add]
    exact add_le_add (h w (by simp)) (ih fun v hv => h v (List.mem_cons_of_mem w hv))

theorem rescaled_of_pos (h : Summable weights) (hpos : 0 < total weights) (w : ℚ) :
    rescaled weights w = toDouble (w / total weights) := by
  rw [rescaled, h.sum_eq, if_pos hpos, quotient, if_neg (not_le.mpr h.finite)]

theorem rescaled_of_zero (h : Summable weights) (hzero : total weights = 0) (w : ℚ) :
    rescaled weights w = toDouble (1 / weights.length) := by
  rw [rescaled, h.sum_eq, hzero, if_neg (lt_irrefl 0)]

theorem toDouble_near {q : ℚ} (h : 1 / 2 ^ 50 ≤ q) :
    q * (1 - 1 / 2 ^ 53) ≤ toDouble q ∧ toDouble q ≤ q * (1 + 1 / 2 ^ 53) ∧
      2 ^ (-900 : ℤ) ≤ toDouble q := by
  have hpow : (2 : ℚ) ^ (-51 : ℤ) = 1 / 2 ^ 51 := by norm_num
  have hnormal : leastNormal ≤ 2 ^ (-51 : ℤ) := zpow_le_zpow_right₀ (by norm_num) (by norm_num)
  have htiny : (2 : ℚ) ^ (-900 : ℤ) ≤ 2 ^ (-51 : ℤ) := zpow_le_zpow_right₀ (by norm_num) (by norm_num)
  rw [hpow] at hnormal htiny
  obtain ⟨hlow, hhigh⟩ := toDouble_error (q := q) (by linarith)
  exact ⟨by linarith, by linarith, by linarith⟩

theorem Balanced.rescale_zeros (h : Balanced c weights) (hc : c ≤ 2 ^ 42)
    (hzero : ∀ w ∈ weights, w = 0) (hne : weights ≠ []) : Balanced c (rescale weights) := by
  have hlen : (0 : ℚ) < weights.length := by exact_mod_cast List.length_pos_iff.mpr hne
  have hle := h.zeros hzero
  have hshare : (1 : ℚ) / 2 ^ 50 ≤ 1 / weights.length :=
    one_div_le_one_div_of_le hlen (by linarith)
  obtain ⟨hlow, hhigh, htiny⟩ := toDouble_near hshare
  have hrescale : rescale weights = List.replicate weights.length (toDouble (1 / weights.length)) := by
    rw [rescale, List.map_congr_left fun w _ =>
      rescaled_of_zero (h.summable hc) (total_of_zeros hzero) w, List.map_const']
  have hmul : (weights.length : ℚ) * (1 / weights.length) = 1 := mul_one_div_cancel hlen.ne'
  have hdouble : IsDouble (toDouble (1 / (weights.length : ℚ))) := isDouble_toDouble (by positivity)
  generalize toDouble (1 / (weights.length : ℚ)) = w at hlow hhigh htiny hrescale hdouble
  have hw : 0 < w := (zpow_pos (by norm_num) _).trans_le htiny
  have hsum : (rescale weights).sum = weights.length * w := by
    rw [hrescale, List.sum_replicate, nsmul_eq_mul]
  have hmem : ∀ w' ∈ rescale weights, w' = w := fun w' hw' => by
    rw [hrescale] at hw'
    exact List.eq_of_mem_replicate hw'
  refine ⟨fun w' hw' => ?_, fun w' hw' => Or.inr ?_, ?_, fun hall => ?_⟩
  · rw [hmem w' hw']
    exact ⟨hw.le, hdouble⟩
  · rw [hmem w' hw', hsum]
    exact ⟨mul_le_mul_of_nonneg_right hle hw.le, htiny⟩
  · have hup : weights.length * w ≤ weights.length * (1 / weights.length * (1 + 1 / 2 ^ 53)) :=
      mul_le_mul_of_nonneg_left hhigh hlen.le
    rw [← mul_assoc, hmul] at hup
    rw [hsum]
    linarith
  · simpa [rescale] using hle

theorem Balanced.total_pos (h : Balanced c weights) (hc : c ≤ 2 ^ 42) (hw : w ∈ weights)
    (hne : w ≠ 0) : 0 < total weights := by
  have hsum := h.sum_pos hw hne
  linarith [(h.total_bounds hc).1]

theorem Balanced.le_div_total (h : Balanced c weights) (hc : c ≤ 2 ^ 42) (hw : w ∈ weights)
    (hne : w ≠ 0) : 1 / 2 ^ 50 ≤ w / total weights := by
  have hcw : c * w ≤ 2 ^ 42 * w := mul_le_mul_of_nonneg_right hc (h.doubles w hw).1
  rw [le_div_iff₀ (h.total_pos hc hw hne)]
  linarith [((h.share w hw).resolve_left hne).1, (h.total_bounds hc).2, h.pos hw hne]

theorem Balanced.rescale_eq (h : Balanced c weights) (hc : c ≤ 2 ^ 42) {v : ℚ} (hv : v ∈ weights)
    (hne : v ≠ 0) : rescale weights = weights.map fun w => toDouble (w / total weights) :=
  List.map_congr_left fun w _ => rescaled_of_pos (h.summable hc) (h.total_pos hc hv hne) w

theorem Balanced.sum_rescale_le (h : Balanced c weights) (hc : c ≤ 2 ^ 42) {v : ℚ}
    (hv : v ∈ weights) (hne : v ≠ 0) :
    (rescale weights).sum ≤ 1 / total weights * (1 + 1 / 2 ^ 53) * weights.sum := by
  rw [h.rescale_eq hc hv hne]
  refine sum_map_le fun w hw => ?_
  by_cases hw0 : w = 0
  · simp [hw0]
  · calc toDouble (w / total weights) ≤ w / total weights * (1 + 1 / 2 ^ 53) :=
          (toDouble_near (h.le_div_total hc hw hw0)).2.1
      _ = 1 / total weights * (1 + 1 / 2 ^ 53) * w := by ring

/-- The shares of the sum stay almost as large as they were. -/
theorem Balanced.share_rescale (h : Balanced c weights) (hc : c ≤ 2 ^ 42) {w : ℚ} (hw : w ∈ weights)
    (hne : w ≠ 0) :
    (rescale weights).sum ≤ c * (1 + 1 / 2 ^ 51) * toDouble (w / total weights) := by
  have htotal := h.total_pos hc hw hne
  have hdown := (toDouble_near (h.le_div_total hc hw hne)).1
  have hshare := ((h.share w hw).resolve_left hne).1
  have hc0 : 0 < c := pos_of_mul_pos_left ((h.sum_pos hw hne).trans_le hshare) (h.doubles w hw).1
  have hwt : 0 ≤ w / total weights := div_nonneg (h.doubles w hw).1 htotal.le
  calc (rescale weights).sum ≤ 1 / total weights * (1 + 1 / 2 ^ 53) * weights.sum :=
        h.sum_rescale_le hc hw hne
    _ ≤ 1 / total weights * (1 + 1 / 2 ^ 53) * (c * w) := by gcongr
    _ = c * (w / total weights) * (1 + 1 / 2 ^ 53) := by ring
    _ ≤ c * (w / total weights) * ((1 + 1 / 2 ^ 51) * (1 - 1 / 2 ^ 53)) :=
        mul_le_mul_of_nonneg_left (by norm_num) (mul_nonneg hc0.le hwt)
    _ = c * (1 + 1 / 2 ^ 51) * (w / total weights * (1 - 1 / 2 ^ 53)) := by ring
    _ ≤ c * (1 + 1 / 2 ^ 51) * toDouble (w / total weights) := by gcongr

theorem Balanced.rescale_pos (h : Balanced c weights) (hc : c ≤ 2 ^ 42)
    (hpos : ∃ w ∈ weights, w ≠ 0) : Balanced (c * (1 + 1 / 2 ^ 51)) (rescale weights) := by
  obtain ⟨v, hv, hne⟩ := hpos
  have htotal := h.total_pos hc hv hne
  have hrescale := h.rescale_eq hc hv hne
  refine ⟨fun w' hw' => ?_, fun w' hw' => ?_, ?_, fun hall => ?_⟩
  · rw [hrescale] at hw'
    obtain ⟨w, hw, rfl⟩ := List.mem_map.mp hw'
    have hdiv : 0 ≤ w / total weights := div_nonneg (h.doubles w hw).1 htotal.le
    exact ⟨toDouble_nonneg hdiv, isDouble_toDouble hdiv⟩
  · rw [hrescale] at hw'
    obtain ⟨w, hw, rfl⟩ := List.mem_map.mp hw'
    rcases eq_or_ne w 0 with rfl | hw0
    · exact Or.inl (by simp)
    · exact Or.inr ⟨h.share_rescale hc hw hw0, (toDouble_near (h.le_div_total hc hw hw0)).2.2⟩
  · have hbound := (h.total_bounds hc).1
    calc (rescale weights).sum ≤ 1 / total weights * (1 + 1 / 2 ^ 53) * weights.sum :=
          h.sum_rescale_le hc hv hne
      _ ≤ 1 / total weights * (1 + 1 / 2 ^ 53) * (2 * total weights) := by gcongr; linarith
      _ = 2 * (1 + 1 / 2 ^ 53) := by field_simp
      _ ≤ 2 ^ 200 := by norm_num
  · have htiny := (toDouble_near (h.le_div_total hc hv hne)).2.2
    have hv0 : toDouble (v / total weights) = 0 := hall _ (by
      rw [hrescale]
      exact List.mem_map_of_mem hv)
    rw [hv0] at htiny
    exact absurd htiny (not_le.mpr (zpow_pos (by norm_num) _))

theorem Balanced.rescale_once (h : Balanced c weights) (hc : c ≤ 2 ^ 42) :
    Balanced (c * (1 + 1 / 2 ^ 51)) (rescale weights) := by
  by_cases hzero : ∀ w ∈ weights, w = 0
  · have hc0 : 0 ≤ c := (Nat.cast_nonneg _).trans (h.zeros hzero)
    have hle : c ≤ c * (1 + 1 / 2 ^ 51) := le_mul_of_one_le_right hc0 (by norm_num)
    rcases eq_or_ne weights [] with rfl | hne
    · exact balanced_nil (hc0.trans hle)
    · exact (h.rescale_zeros hc hzero hne).mono hle
  · push Not at hzero
    exact h.rescale_pos hc hzero

theorem Balanced.rescaled_zero (h : Balanced c weights) (hc : c ≤ 2 ^ 42) :
    ((∃ v ∈ weights, v ≠ 0) ∧ ∀ w ∈ weights, rescaled weights w = 0 ↔ w = 0) ∨
      ∀ w ∈ weights, w = 0 ∧ rescaled weights w ≠ 0 := by
  have hsummable := h.summable hc
  by_cases hzero : ∀ w ∈ weights, w = 0
  · refine Or.inr fun w hw => ⟨hzero w hw, ?_⟩
    have hlen : (0 : ℚ) < weights.length := by
      exact_mod_cast List.length_pos_iff.mpr (List.ne_nil_of_mem hw)
    have hshare : (1 : ℚ) / 2 ^ 50 ≤ 1 / weights.length :=
      one_div_le_one_div_of_le hlen (by linarith [h.zeros hzero])
    rw [rescaled_of_zero hsummable (total_of_zeros hzero)]
    exact ((zpow_pos (by norm_num) _).trans_le (toDouble_near hshare).2.2).ne'
  · push Not at hzero
    obtain ⟨v, hv, hne⟩ := hzero
    refine Or.inl ⟨⟨v, hv, hne⟩, fun w hw => ?_⟩
    rw [rescaled_of_pos hsummable (h.total_pos hc hv hne)]
    constructor
    · intro hw0
      by_contra hwne
      have htiny := (toDouble_near (h.le_div_total hc hw hwne)).2.2
      rw [hw0] at htiny
      exact absurd htiny (not_le.mpr (zpow_pos (by norm_num) _))
    · rintro rfl
      simp

theorem Balanced.rescale_ne_zero (h : Balanced c weights) (hc : c ≤ 2 ^ 42)
    (heven : (∀ w ∈ weights, w ≠ 0) ∨ ∀ w ∈ weights, w = 0) : ∀ w ∈ WeightedDraw.rescale weights, w ≠ 0 := by
  intro w' hw'
  obtain ⟨w, hw, rfl⟩ := List.mem_map.mp hw'
  rcases h.rescaled_zero hc with ⟨⟨v, hv, hne⟩, hsame⟩ | hall
  · rcases heven with hpos | hzero
    · exact (hsame w hw).not.mpr (hpos w hw)
    · exact absurd (hzero v hv) hne
  · exact (hall w hw).2

theorem Balanced.iterate (h : Balanced (2 ^ 40) weights) {k : ℕ} (hk : k ≤ 2 ^ 50) :
    Balanced (2 ^ 40 * (1 + k / 2 ^ 50)) (rescale^[k] weights) := by
  induction k with
  | zero => simpa using h
  | succ k ih =>
    have hcast : (k : ℚ) + 1 ≤ 2 ^ 50 := by exact_mod_cast hk
    rw [Function.iterate_succ_apply']
    refine ((ih (by omega)).rescale_once (by linarith)).mono ?_
    push_cast
    linarith

/-- Balanced weights, all of them positive, or all zero. -/
structure EvenWeights (weights : List ℚ) : Prop where
  balanced : Balanced (2 ^ 40) weights
  even : (∀ w ∈ weights, w ≠ 0) ∨ ∀ w ∈ weights, w = 0

theorem evenWeights_iff (weights : List ℚ) : EvenWeights weights ↔
    Balanced (2 ^ 40) weights ∧ ((∀ w ∈ weights, w ≠ 0) ∨ ∀ w ∈ weights, w = 0) :=
  ⟨fun h => ⟨h.balanced, h.even⟩, fun h => ⟨h.1, h.2⟩⟩

instance (weights : List ℚ) : Decidable (EvenWeights weights) :=
  decidable_of_iff _ (evenWeights_iff weights).symm

theorem evenWeights_nil : EvenWeights [] where
  balanced := balanced_nil (by norm_num)
  even := Or.inl fun _ h => absurd h List.not_mem_nil

theorem EvenWeights.iterate_ne_zero (h : EvenWeights weights) {k : ℕ} (hpos : 0 < k)
    (hk : k ≤ 2 ^ 50) : ∀ w ∈ rescale^[k] weights, w ≠ 0 := by
  induction k with
  | zero => exact absurd hpos (lt_irrefl 0)
  | succ k ih =>
    have hcast : (k : ℚ) + 1 ≤ 2 ^ 50 := by exact_mod_cast hk
    rw [Function.iterate_succ_apply']
    refine (h.balanced.iterate (k := k) (by omega)).rescale_ne_zero (by linarith) ?_
    rcases Nat.eq_zero_or_pos k with rfl | hk0
    · exact h.even
    · exact Or.inl (ih hk0 (by omega))

end WeightedDraw
