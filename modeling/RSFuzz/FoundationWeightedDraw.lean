import Mathlib.Data.List.Basic
import RSFuzz.FoundationBinary64

set_option autoImplicit false

/-!
# Drawing by weights

`random.choices` for one draw. The weights are added up in doubles, a random
number below the sum is rounded to a double as well, and bisection looks it up
among the running sums. A weight that is lost in the sums is never drawn.
-/
namespace WeightedDraw
open Binary64

def total (weights : List ℚ) : ℚ := weights.foldl (fun s w => toDouble (s + w)) 0

/-- `accumulate(weights)`, from the sum of the weights before. -/
def runningSums (s : ℚ) : List ℚ → List ℚ
  | [] => []
  | w :: weights => toDouble (s + w) :: runningSums (toDouble (s + w)) weights

/-- `bisect_right(a, x, lo, hi)`; every round shortens the range, so its length is enough fuel. -/
def bisectRight (a : List ℚ) (x : ℚ) : ℕ → ℕ → ℕ → ℕ
  | 0, lo, _ => lo
  | fuel + 1, lo, hi =>
    if lo < hi then
      if x < a.getD ((lo + hi) / 2) 0 then bisectRight a x fuel lo ((lo + hi) / 2)
      else bisectRight a x fuel ((lo + hi) / 2 + 1) hi
    else lo

/-- `random.random()`: a multiple of `2 ^ -53` below one. -/
def random (r : ℕ) : ℚ := (r % 2 ^ 53 : ℕ) / 2 ^ 53

def Drawable (weights : List ℚ) : Prop :=
  0 < total weights ∧ ∀ s ∈ runningSums 0 weights, |s| < infinity

instance (weights : List ℚ) : Decidable (Drawable weights) := inferInstanceAs (Decidable (_ ∧ _))

def index (weights : List ℚ) (r : ℕ) : Option ℕ :=
  if Drawable weights then some (bisectRight (runningSums 0 weights)
    (toDouble (random r * total weights)) weights.length 0 (weights.length - 1))
  else none

/-- Whatever is taken out, what is left can be drawn from if anything positive is left. -/
def DrawableParts (weights : List ℚ) : Prop :=
  ∀ left, left.Sublist weights → (∃ w ∈ left, 0 < w) → Drawable left

structure Summable (weights : List ℚ) : Prop where
  doubles : ∀ w ∈ weights, 0 ≤ w ∧ IsDouble w
  finite : total weights < infinity

theorem summable_iff (weights : List ℚ) : Summable weights ↔
    (∀ w ∈ weights, 0 ≤ w ∧ IsDouble w) ∧ total weights < infinity :=
  ⟨fun h => ⟨h.doubles, h.finite⟩, fun h => ⟨h.1, h.2⟩⟩

instance (weights : List ℚ) : Decidable (Summable weights) :=
  decidable_of_iff _ (summable_iff weights).symm

theorem summable_nil : Summable [] where
  doubles _ h := absurd h List.not_mem_nil
  finite := show (0 : ℚ) < 2 ^ 1024 by positivity

variable {weights weights' : List ℚ} {w : ℚ}

@[simp] theorem total_nil : total [] = 0 := rfl

theorem total_concat (weights : List ℚ) (w : ℚ) :
    total (weights ++ [w]) = toDouble (total weights + w) := by
  rw [total, List.foldl_append]
  rfl

theorem total_spec (h : ∀ w ∈ weights, 0 ≤ w) : 0 ≤ total weights ∧ IsDouble (total weights) := by
  induction weights using List.reverseRecOn with
  | nil => exact ⟨le_rfl, isDouble_zero⟩
  | append_singleton weights w ih =>
    have hsum : 0 ≤ total weights + w :=
      add_nonneg (ih fun w' hw' => h w' (by simp [hw'])).1 (h w (by simp))
    rw [total_concat]
    exact ⟨toDouble_nonneg hsum, isDouble_toDouble hsum⟩

theorem le_toDouble_add {s s' : ℚ} (hs : 0 ≤ s) (hdouble : IsDouble s) (hle : s ≤ s') (hw : 0 ≤ w) :
    s ≤ toDouble (s' + w) := by
  calc s = toDouble s := hdouble.symm
    _ ≤ toDouble (s' + w) := toDouble_mono hs (by linarith)

theorem foldl_le_of_sublist (hsub : weights'.Sublist weights) (h : ∀ w ∈ weights, 0 ≤ w) {s s' : ℚ}
    (hs' : 0 ≤ s') (hdouble : IsDouble s') (hle : s' ≤ s) :
    weights'.foldl (fun s w => toDouble (s + w)) s' ≤ weights.foldl (fun s w => toDouble (s + w)) s := by
  induction hsub generalizing s s' with
  | slnil => exact hle
  | cons w _ ih =>
    exact ih (fun w' hw' => h w' (List.mem_cons_of_mem w hw')) hs' hdouble
      (le_toDouble_add hs' hdouble hle (h w (by simp)))
  | cons_cons w _ ih =>
    have hsum : 0 ≤ s' + w := add_nonneg hs' (h w (by simp))
    exact ih (fun w' hw' => h w' (List.mem_cons_of_mem w hw')) (toDouble_nonneg hsum)
      (isDouble_toDouble hsum) (toDouble_mono hsum (by linarith))

theorem total_le_of_sublist (hsub : weights'.Sublist weights) (h : ∀ w ∈ weights, 0 ≤ w) :
    total weights' ≤ total weights :=
  foldl_le_of_sublist hsub h le_rfl isDouble_zero le_rfl

theorem Summable.of_sublist (h : Summable weights) (hsub : weights'.Sublist weights) :
    Summable weights' where
  doubles w hw := h.doubles w (hsub.subset hw)
  finite := (total_le_of_sublist hsub fun w hw => (h.doubles w hw).1).trans_lt h.finite

theorem total_take_succ {i : ℕ} (hi : weights[i]? = some w) :
    total (weights.take (i + 1)) = toDouble (total (weights.take i) + w) := by
  rw [List.take_add_one, hi, Option.toList_some, total_concat]

theorem getElem?_foldl_runningSums (s : ℚ) (weights : List ℚ) (i : ℕ) :
    (runningSums s weights)[i]? = if i < weights.length then
      some ((weights.take (i + 1)).foldl (fun s w => toDouble (s + w)) s) else none := by
  induction weights generalizing s i with
  | nil => simp [runningSums]
  | cons w weights ih =>
    cases i with
    | zero => simp [runningSums]
    | succ i =>
      rw [runningSums, List.getElem?_cons_succ, ih, List.take_succ_cons, List.foldl_cons,
        List.length_cons]
      simp only [Nat.add_lt_add_iff_right]

theorem getD_runningSums {i : ℕ} (hi : i < weights.length) :
    (runningSums 0 weights).getD i 0 = total (weights.take (i + 1)) := by
  rw [List.getD_eq_getElem?_getD, getElem?_foldl_runningSums, if_pos hi, Option.getD_some]
  rfl

theorem exists_of_mem_runningSums {s : ℚ} (h : s ∈ runningSums 0 weights) :
    ∃ i, s = total (weights.take i) := by
  obtain ⟨i, hi⟩ := List.mem_iff_getElem?.mp h
  rw [getElem?_foldl_runningSums] at hi
  split_ifs at hi
  exact ⟨i + 1, (Option.some.inj hi).symm⟩

/-- Whether sorted or not, what is left of the result is not more than `x`, and the result is. -/
theorem bisectRight_spec (a : List ℚ) (x : ℚ) (fuel lo hi : ℕ) (hfuel : hi ≤ lo + fuel)
    (hle : lo ≤ hi) :
    lo ≤ bisectRight a x fuel lo hi ∧ bisectRight a x fuel lo hi ≤ hi ∧
      (lo < bisectRight a x fuel lo hi → a.getD (bisectRight a x fuel lo hi - 1) 0 ≤ x) ∧
      (bisectRight a x fuel lo hi < hi → x < a.getD (bisectRight a x fuel lo hi) 0) := by
  induction fuel generalizing lo hi with
  | zero =>
    obtain rfl : lo = hi := by omega
    exact ⟨le_rfl, le_rfl, fun h => absurd h (lt_irrefl _), fun h => absurd h (lt_irrefl _)⟩
  | succ fuel ih =>
    rw [bisectRight]
    split_ifs with hlt hx
    · obtain ⟨hl, hh, hleft, hright⟩ := ih lo ((lo + hi) / 2) (by omega) (by omega)
      refine ⟨hl, by omega, hleft, fun _ => ?_⟩
      rcases hh.lt_or_eq with hh | hh
      · exact hright hh
      · rwa [hh]
    · obtain ⟨hl, hh, hleft, hright⟩ := ih ((lo + hi) / 2 + 1) hi (by omega) (by omega)
      refine ⟨by omega, hh, fun _ => ?_, hright⟩
      rcases hl.lt_or_eq with hl | hl
      · exact hleft hl
      · rw [← hl, Nat.add_sub_cancel]
        exact not_lt.mp hx
    · obtain rfl : lo = hi := by omega
      exact ⟨le_rfl, le_rfl, fun h => absurd h (lt_irrefl _), fun h => absurd h (lt_irrefl _)⟩

theorem random_nonneg (r : ℕ) : 0 ≤ random r := by
  unfold random
  positivity

theorem random_le (r : ℕ) : random r ≤ 1 - 1 / 2 ^ 53 := by
  have hlt : r % 2 ^ 53 + 1 ≤ 2 ^ 53 := Nat.mod_lt r (by norm_num)
  have hcast : ((r % 2 ^ 53 : ℕ) : ℚ) + 1 ≤ 2 ^ 53 := by exact_mod_cast hlt
  rw [random, le_sub_iff_add_le, ← add_div, div_le_one (by norm_num)]
  exact hcast

theorem Summable.total_nonneg (h : Summable weights) : 0 ≤ total weights :=
  (total_spec fun w hw => (h.doubles w hw).1).1

theorem Summable.le_total (h : Summable weights) (hw : w ∈ weights) : w ≤ total weights := by
  have hone : total [w] = w := by
    calc total [w] = toDouble (0 + w) := rfl
      _ = w := by rw [zero_add, (h.doubles w hw).2]
  rw [← hone]
  exact total_le_of_sublist (List.singleton_sublist.mpr hw) fun w hw => (h.doubles w hw).1

theorem Summable.abs_lt (h : Summable weights) {s : ℚ} (hs : s ∈ runningSums 0 weights) :
    |s| < infinity := by
  obtain ⟨i, rfl⟩ := exists_of_mem_runningSums hs
  have htake := h.of_sublist (List.take_sublist i weights)
  rw [abs_of_nonneg htake.total_nonneg]
  exact htake.finite

theorem Summable.drawable (h : Summable weights) (hw : w ∈ weights) (hpos : 0 < w) :
    Drawable weights := ⟨hpos.trans_le (h.le_total hw), fun _ => h.abs_lt⟩

theorem Summable.drawableParts (h : Summable weights) : DrawableParts weights :=
  fun _ hsub ⟨_, hw, hpos⟩ => (h.of_sublist hsub).drawable hw hpos

theorem index_returns_iff (weights : List ℚ) (r : ℕ) :
    (∃ i, index weights r = some i) ↔ Drawable weights := by
  unfold index
  split_ifs with h
  · exact ⟨fun _ => h, fun _ => ⟨_, rfl⟩⟩
  · exact ⟨nofun, fun hdraw => absurd hdraw h⟩

theorem exists_of_index {r i : ℕ} (h : index weights r = some i) :
    0 < total weights ∧ i < weights.length ∧
      (0 < i → total (weights.take i) ≤ toDouble (random r * total weights)) ∧
      (i + 1 < weights.length →
        toDouble (random r * total weights) < total (weights.take (i + 1))) := by
  unfold index at h
  split_ifs at h with hdraw
  have hne : weights ≠ [] := by
    rintro rfl
    exact absurd hdraw.1 (lt_irrefl 0)
  have hlen := List.length_pos_iff.mpr hne
  obtain ⟨-, hle, hleft, hright⟩ := bisectRight_spec (runningSums 0 weights)
    (toDouble (random r * total weights)) weights.length 0 (weights.length - 1) (by omega)
    (Nat.zero_le _)
  rw [Option.some.inj h] at hle hleft hright
  refine ⟨hdraw.1, by omega, fun hi => ?_, fun hi => ?_⟩
  · have := hleft hi
    rwa [getD_runningSums (by omega), Nat.sub_add_cancel hi] at this
  · have := hright (by omega)
    rwa [getD_runningSums (by omega)] at this

theorem toDouble_random_lt {t : ℚ} (ht : 2 * leastNormal ≤ t) (r : ℕ) :
    toDouble (random r * t) < t := by
  have hn := leastNormal_pos
  have ht0 : 0 < t := by linarith
  have hle : random r * t ≤ t - t / 2 ^ 53 := by
    calc random r * t ≤ (1 - 1 / 2 ^ 53) * t := mul_le_mul_of_nonneg_right (random_le r) ht0.le
      _ = t - t / 2 ^ 53 := by ring
  have hhalf : t / 2 ^ 53 ≤ t / 2 := div_le_div_of_nonneg_left ht0.le (by norm_num) (by norm_num)
  have hlt : toDouble (t - t / 2 ^ 53) < t := by
    have herr := (toDouble_error (q := t - t / 2 ^ 53) (by linarith)).2
    have hsmall : (t - t / 2 ^ 53) / 2 ^ 53 < t / 2 ^ 53 := by
      have : 0 < t / 2 ^ 53 := by positivity
      exact div_lt_div_of_pos_right (by linarith) (by norm_num)
    linarith
  exact (toDouble_mono (mul_nonneg (random_nonneg r) ht0.le) hle).trans_lt hlt

/-- What is drawn has a positive weight, unless the sum is as small as the subnormal doubles. -/
theorem Summable.pos_of_index (h : Summable weights) (hnormal : 2 * leastNormal ≤ total weights)
    {r i : ℕ} (hi : index weights r = some i) (hw : weights[i]? = some w) : 0 < w := by
  obtain ⟨-, hlt, hleft, hright⟩ := exists_of_index hi
  obtain ⟨hnonneg, -⟩ := h.doubles w (List.mem_of_getElem? hw)
  refine lt_of_le_of_ne hnonneg fun hzero => ?_
  have hsame : total (weights.take (i + 1)) = total (weights.take i) := by
    rw [total_take_succ hw, ← hzero, add_zero]
    exact (total_spec fun w hw => (h.doubles w (List.mem_of_mem_take hw)).1).2
  have hx0 : 0 ≤ toDouble (random r * total weights) :=
    toDouble_nonneg (mul_nonneg (random_nonneg r) (by linarith [leastNormal_pos]))
  have hbelow : total (weights.take i) ≤ toDouble (random r * total weights) := by
    rcases Nat.eq_zero_or_pos i with rfl | hpos
    · simpa using hx0
    · exact hleft hpos
  have habove : toDouble (random r * total weights) < total (weights.take (i + 1)) := by
    rcases (Nat.succ_le_of_lt hlt).lt_or_eq with hmore | hlast
    · exact hright hmore
    · rw [show i + 1 = weights.length from hlast, List.take_length]
      exact toDouble_random_lt hnormal r
  rw [hsame] at habove
  exact absurd hbelow (not_le.mpr habove)

/-- A weight that the running sums and the random numbers can tell apart from nothing. -/
def Noticeable (t w : ℚ) : Prop := t ≤ 2 ^ 50 * w ∧ 2 ^ (-900 : ℤ) ≤ w

instance (t w : ℚ) : Decidable (Noticeable t w) :=
  inferInstanceAs (Decidable (t ≤ 2 ^ 50 * w ∧ 2 ^ (-900 : ℤ) ≤ w))

theorem Noticeable.pos {t : ℚ} (h : Noticeable t w) : 0 < w :=
  (zpow_pos (by norm_num) _).trans_le h.2

theorem Noticeable.mono {t t' : ℚ} (h : Noticeable t w) (hle : t' ≤ t) : Noticeable t' w :=
  ⟨hle.trans h.1, h.2⟩

theorem le_tiny : leastNormal * 2 ^ 60 ≤ (2 : ℚ) ^ (-900 : ℤ) := by
  rw [leastNormal, ← zpow_natCast, ← zpow_add₀ (by norm_num)]
  exact zpow_le_zpow_right₀ (by norm_num) (by norm_num)

theorem gap_of_noticeable {s t : ℚ} (hs : 0 ≤ s) (hw : Noticeable t w) (ht : toDouble (s + w) ≤ t) :
    s + t / 2 ^ 51 ≤ toDouble (s + w) := by
  have htiny := le_tiny
  have hn := leastNormal_pos
  have hw2 := hw.2
  obtain ⟨hlow, -⟩ := toDouble_error (q := s + w) (by linarith)
  have hbound : s + w ≤ 2 * t := by
    have : (s + w) / 2 ^ 53 ≤ (s + w) / 2 :=
      div_le_div_of_nonneg_left (by linarith) (by norm_num) (by norm_num)
    linarith
  have hbig : (s + w) / 2 ^ 53 ≤ t / 2 ^ 52 := by
    rw [div_le_div_iff₀ (by norm_num) (by norm_num)]
    linarith
  have hshare : t / 2 ^ 50 ≤ w := by
    rw [div_le_iff₀ (by norm_num)]
    linarith [hw.1]
  have hsplit : t / 2 ^ 50 = t / 2 ^ 51 + t / 2 ^ 51 := by ring
  have hsplit' : t / 2 ^ 51 = t / 2 ^ 52 + t / 2 ^ 52 := by ring
  have hpos : 0 ≤ t / 2 ^ 52 := by
    have : 0 ≤ t := (toDouble_nonneg (by linarith)).trans ht
    positivity
  linarith

/-- The random numbers are close to everything in front of one. -/
theorem exists_random_near {m : ℚ} (hm : 0 ≤ m) (hone : m < 1) :
    ∃ r, random r ≤ m ∧ m - 1 / 2 ^ 53 ≤ random r := by
  have hfloor := Nat.floor_le (show 0 ≤ m * 2 ^ 53 by positivity)
  have hnext := Nat.lt_floor_add_one (m * 2 ^ 53)
  refine ⟨⌊m * 2 ^ 53⌋₊, ?_⟩
  generalize ⌊m * 2 ^ 53⌋₊ = r at hfloor hnext ⊢
  have hsmall : r < 2 ^ 53 := by
    have hlt : (r : ℚ) < 2 ^ 53 := by linarith
    exact_mod_cast hlt
  rw [random, Nat.mod_eq_of_lt hsmall]
  constructor
  · rw [div_le_iff₀ (by norm_num)]
    exact hfloor
  · rw [le_div_iff₀ (by norm_num)]
    have hscale : (m - 1 / 2 ^ 53) * 2 ^ 53 = m * 2 ^ 53 - 1 := by ring
    linarith

theorem exists_random {s s' t : ℚ} (hs : 0 ≤ s) (hs' : s' ≤ t) (hgap : s + t / 2 ^ 51 ≤ s')
    (ht : leastNormal * 2 ^ 60 ≤ t) :
    ∃ r, s ≤ toDouble (random r * t) ∧ toDouble (random r * t) < s' := by
  have hn := leastNormal_pos
  have ht0 : 0 < t := lt_of_lt_of_le (by positivity) ht
  have hg : 0 < t / 2 ^ 51 := by positivity
  -- a random number at the middle of the gap
  have hmid : 0 ≤ (s + s') / 2 / t := div_nonneg (by linarith) ht0.le
  obtain ⟨r, hupper, hlower⟩ := exists_random_near hmid (by
    rw [div_lt_one ht0]
    linarith)
  refine ⟨r, ?_⟩
  rw [le_div_iff₀ ht0] at hupper
  have hlower : (s + s') / 2 - t / 2 ^ 53 ≤ random r * t := by
    calc (s + s') / 2 - t / 2 ^ 53 = ((s + s') / 2 / t - 1 / 2 ^ 53) * t := by
          field_simp
      _ ≤ random r * t := mul_le_mul_of_nonneg_right hlower ht0.le
  have h51 : t / 2 ^ 51 = 4 * (t / 2 ^ 53) := by ring
  have hunit : leastNormal ≤ t / 2 ^ 53 := by
    rw [le_div_iff₀ (by norm_num)]
    calc leastNormal * 2 ^ 53 ≤ leastNormal * 2 ^ 60 :=
          mul_le_mul_of_nonneg_left (by norm_num) hn.le
      _ ≤ t := ht
  obtain ⟨hlow, hhigh⟩ := toDouble_error (q := random r * t) (by linarith)
  have hshare : random r * t / 2 ^ 53 ≤ t / 2 ^ 53 :=
    div_le_div_of_nonneg_right (by linarith) (by norm_num)
  constructor <;> linarith

/-- A noticeable weight is drawn for some random number. -/
theorem Summable.exists_index (h : Summable weights) {i : ℕ} (hi : weights[i]? = some w)
    (hw : Noticeable (total weights) w) : ∃ r, index weights r = some i := by
  have hnonneg : ∀ w ∈ weights, 0 ≤ w := fun w hw => (h.doubles w hw).1
  have hsum := total_take_succ hi
  have htotal : total (weights.take (i + 1)) ≤ total weights :=
    total_le_of_sublist (List.take_sublist _ _) hnonneg
  have hbefore : 0 ≤ total (weights.take i) :=
    (total_spec fun w hw => hnonneg w (List.mem_of_mem_take hw)).1
  rw [hsum] at htotal
  have hlast : w ≤ total weights := h.le_total (List.mem_of_getElem? hi)
  have htiny : leastNormal * 2 ^ 60 ≤ total weights := (le_tiny.trans hw.2).trans hlast
  obtain ⟨r, hlow, hhigh⟩ := exists_random hbefore htotal (gap_of_noticeable hbefore hw htotal) htiny
  obtain ⟨k, hk⟩ := (index_returns_iff weights r).mpr (h.drawable (List.mem_of_getElem? hi) hw.pos)
  obtain ⟨-, hlt, hleft, hright⟩ := exists_of_index hk
  rw [← hsum] at hhigh
  have hmono : ∀ {j j' : ℕ}, j ≤ j' → total (weights.take j) ≤ total (weights.take j') := by
    intro j j' hj
    refine total_le_of_sublist ?_ fun w hw => hnonneg w (List.mem_of_mem_take hw)
    rw [show weights.take j = (weights.take j').take j by rw [List.take_take, Nat.min_eq_left hj]]
    exact List.take_sublist _ _
  refine ⟨r, ?_⟩
  rcases Nat.lt_trichotomy k i with hki | rfl | hki
  · have hilt := (List.getElem?_eq_some_iff.mp hi).1
    exact absurd (hmono (Nat.succ_le_of_lt hki)) (not_le.mpr ((hright (by omega)).trans_le' hlow))
  · exact hk
  · exact absurd (hmono (Nat.succ_le_of_lt hki))
      (not_le.mpr (hhigh.trans_le' (hleft (by omega))))

structure Graded (weights : List ℚ) : Prop where
  summable : Summable weights
  noticeable : ∀ w ∈ weights, w = 0 ∨ Noticeable (total weights) w

theorem graded_iff (weights : List ℚ) : Graded weights ↔
    Summable weights ∧ ∀ w ∈ weights, w = 0 ∨ Noticeable (total weights) w :=
  ⟨fun h => ⟨h.summable, h.noticeable⟩, fun h => ⟨h.1, h.2⟩⟩

instance (weights : List ℚ) : Decidable (Graded weights) :=
  decidable_of_iff _ (graded_iff weights).symm

theorem graded_nil : Graded [] where
  summable := summable_nil
  noticeable _ h := absurd h List.not_mem_nil

theorem Graded.of_sublist (h : Graded weights) (hsub : weights'.Sublist weights) :
    Graded weights' where
  summable := h.summable.of_sublist hsub
  noticeable w hw := (h.noticeable w (hsub.subset hw)).imp_right fun hw =>
    hw.mono (total_le_of_sublist hsub fun v hv => (h.summable.doubles v hv).1)

theorem total_of_zeros (h : ∀ w ∈ weights, w = 0) : total weights = 0 := by
  induction weights using List.reverseRecOn with
  | nil => rfl
  | append_singleton weights w ih =>
    rw [total_concat, ih fun v hv => h v (List.mem_append_left _ hv), h w (by simp), add_zero,
      toDouble_zero]

theorem Graded.ne_zero_of_index (h : Graded weights) {r i : ℕ} (hi : index weights r = some i)
    (hw : weights[i]? = some w) : w ≠ 0 := by
  obtain ⟨v, hv, hne⟩ : ∃ v ∈ weights, v ≠ 0 := by
    by_contra hall
    push Not at hall
    have hpos := (exists_of_index hi).1
    rw [total_of_zeros hall] at hpos
    exact lt_irrefl 0 hpos
  have hnormal : 2 * leastNormal ≤ total weights := by
    have hle := h.summable.le_total hv
    have htiny := le_tiny
    have hn := leastNormal_pos
    linarith [((h.noticeable v hv).resolve_left hne).2]
  exact (h.summable.pos_of_index hnormal hi hw).ne'

end WeightedDraw
