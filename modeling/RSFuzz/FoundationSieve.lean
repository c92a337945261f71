import Mathlib.Data.Finset.Card
import Mathlib.Data.Finset.Range
import Mathlib.Data.List.Range

set_option autoImplicit false

/-!
# Sieving a list

Every entry that is still in strikes out the later entries it is related to.
For a transitive relation an entry is struck out exactly when some earlier one
is related to it, whether that one is still in or not.
-/
namespace Sieve

variable {α : Type*} (rel : α → α → Bool) (drop : α → Bool) (xs : List α)

def related (i j : ℕ) : Bool := (xs[i]?).any fun a => (xs[j]?).any fun b => rel a b

def strike (i : ℕ) (removed : Finset ℕ) (j : ℕ) : Finset ℕ :=
  if j ∈ removed then removed else if related rel xs i j then insert j removed else removed

/-- One round: entries to drop are only taken out, the others strike. -/
def round (removed : Finset ℕ) (i : ℕ) : Finset ℕ :=
  if i ∈ removed then removed
  else if (xs[i]?).any drop then insert i removed
  else (List.range' (i + 1) (xs.length - (i + 1))).foldl (strike rel xs i) removed

def struck : Finset ℕ := (List.range (xs.length - 1)).foldl (round rel drop xs) ∅

def kept : List α :=
  (List.range xs.length).filterMap fun i => if i ∈ struck rel drop xs then none else xs[i]?

variable {rel drop xs}

theorem related_iff {i j : ℕ} :
    related rel xs i j = true ↔ ∃ a b, xs[i]? = some a ∧ xs[j]? = some b ∧ rel a b = true := by
  simp only [related, Option.any_eq_true]
  constructor
  · rintro ⟨a, ha, b, hb, h⟩
    exact ⟨a, b, ha, hb, h⟩
  · rintro ⟨a, b, ha, hb, h⟩
    exact ⟨a, ha, b, hb, h⟩

theorem related_trans (htrans : ∀ a b c, rel a b = true → rel b c = true → rel a c = true)
    {i j k : ℕ} (h : related rel xs i j = true) (h' : related rel xs j k = true) :
    related rel xs i k = true := by
  obtain ⟨a, b, ha, hb, hab⟩ := related_iff.mp h
  obtain ⟨b', c, hb', hc, hbc⟩ := related_iff.mp h'
  obtain rfl := Option.some.inj (hb.symm.trans hb')
  exact related_iff.mpr ⟨a, c, ha, hc, htrans a b c hab hbc⟩

theorem mem_foldl_strike (i : ℕ) (js : List ℕ) (removed : Finset ℕ) (k : ℕ) :
    k ∈ js.foldl (strike rel xs i) removed ↔
      k ∈ removed ∨ k ∈ js ∧ related rel xs i k = true := by
  induction js generalizing removed with
  | nil => simp
  | cons j js ih =>
    have hstep : k ∈ strike rel xs i removed j ↔
        k ∈ removed ∨ k = j ∧ related rel xs i k = true := by
      unfold strike
      by_cases hj : j ∈ removed
      · rw [if_pos hj]
        constructor
        · exact Or.inl
        · rintro (h | ⟨rfl, -⟩)
          · exact h
          · exact hj
      · rw [if_neg hj]
        split_ifs with hr
        · rw [Finset.mem_insert]
          constructor
          · rintro (rfl | h)
            · exact Or.inr ⟨rfl, hr⟩
            · exact Or.inl h
          · rintro (h | ⟨rfl, -⟩)
            · exact Or.inr h
            · exact Or.inl rfl
        · constructor
          · exact Or.inl
          · rintro (h | ⟨rfl, h⟩)
            · exact h
            · exact absurd h hr
    rw [List.foldl_cons, ih, hstep, List.mem_cons]
    tauto

theorem mem_foldl_round (hdrop : ∀ a ∈ xs, drop a = false) (m : ℕ) (j : ℕ) :
    j ∈ (List.range m).foldl (round rel drop xs) ∅ ↔
      ∃ i < m, i < j ∧ i ∉ (List.range i).foldl (round rel drop xs) ∅ ∧
        related rel xs i j = true := by
  induction m generalizing j with
  | zero => simp
  | succ m ih =>
    rw [List.range_succ, List.foldl_append, List.foldl_cons, List.foldl_nil]
    have hno : (xs[m]?).any drop = false := by
      cases hm : xs[m]? with
      | none => rfl
      | some a => exact hdrop a (List.mem_of_getElem? hm)
    by_cases hout : m ∈ (List.range m).foldl (round rel drop xs) ∅
    · rw [round, if_pos hout, ih]
      constructor
      · rintro ⟨i, hi, h⟩
        exact ⟨i, Nat.lt_succ_of_lt hi, h⟩
      · rintro ⟨i, hi, hij, hin, hr⟩
        rcases Nat.lt_succ_iff_lt_or_eq.mp hi with hi | rfl
        · exact ⟨i, hi, hij, hin, hr⟩
        · exact absurd hout hin
    · rw [round, if_neg hout, if_neg (by rw [hno]; exact Bool.false_ne_true), mem_foldl_strike, ih]
      constructor
      · rintro (⟨i, hi, h⟩ | ⟨hj, hr⟩)
        · exact ⟨i, Nat.lt_succ_of_lt hi, h⟩
        · exact ⟨m, Nat.lt_succ_self m, (List.mem_range'_1.mp hj).1, hout, hr⟩
      · rintro ⟨i, hi, hij, hin, hr⟩
        rcases Nat.lt_succ_iff_lt_or_eq.mp hi with hi | rfl
        · exact Or.inl ⟨i, hi, hij, hin, hr⟩
        · obtain ⟨_, _, -, hb, -⟩ := related_iff.mp hr
          have hjn := (List.getElem?_eq_some_iff.mp hb).1
          exact Or.inr ⟨List.mem_range'_1.mpr ⟨hij, by omega⟩, hr⟩

theorem mem_foldl_round_iff (hdrop : ∀ a ∈ xs, drop a = false) {m j : ℕ} (hj : j ≤ m) :
    j ∈ (List.range m).foldl (round rel drop xs) ∅ ↔
      j ∈ (List.range j).foldl (round rel drop xs) ∅ := by
  rw [mem_foldl_round hdrop, mem_foldl_round hdrop]
  constructor
  · rintro ⟨i, -, hij, h⟩
    exact ⟨i, hij, hij, h⟩
  · rintro ⟨i, hi, hij, h⟩
    exact ⟨i, by omega, hij, h⟩

theorem foldl_round_length (hdrop : ∀ a ∈ xs, drop a = false) :
    (List.range xs.length).foldl (round rel drop xs) ∅ = struck rel drop xs := by
  ext j
  rw [struck, mem_foldl_round hdrop, mem_foldl_round hdrop]
  refine exists_congr fun i => ⟨fun ⟨_, hij, hin, hr⟩ => ?_, fun ⟨hi, h⟩ => ⟨by omega, h⟩⟩
  obtain ⟨_, _, -, hb, -⟩ := related_iff.mp hr
  have := (List.getElem?_eq_some_iff.mp hb).1
  exact ⟨by omega, hij, hin, hr⟩

theorem mem_struck_iff (hdrop : ∀ a ∈ xs, drop a = false) {j : ℕ} (hj : j < xs.length) :
    j ∈ struck rel drop xs ↔ ∃ i < j, i ∉ struck rel drop xs ∧ related rel xs i j = true := by
  rw [struck, mem_foldl_round_iff hdrop (by omega), mem_foldl_round hdrop]
  constructor
  · rintro ⟨i, hi, -, hin, hr⟩
    refine ⟨i, hi, ?_, hr⟩
    rwa [mem_foldl_round_iff hdrop (by omega)]
  · rintro ⟨i, hi, hin, hr⟩
    refine ⟨i, hi, hi, ?_, hr⟩
    rwa [mem_foldl_round_iff hdrop (by omega)] at hin

theorem mem_struck_iff_of_trans
    (htrans : ∀ a b c, rel a b = true → rel b c = true → rel a c = true)
    (hdrop : ∀ a ∈ xs, drop a = false) {j : ℕ} (hj : j < xs.length) :
    j ∈ struck rel drop xs ↔ ∃ i < j, related rel xs i j = true := by
  rw [mem_struck_iff hdrop hj]
  constructor
  · rintro ⟨i, hi, -, hr⟩
    exact ⟨i, hi, hr⟩
  · rintro ⟨i, hi, hr⟩
    induction i using Nat.strong_induction_on with
    | _ i ih =>
      by_cases hin : i ∈ struck rel drop xs
      · obtain ⟨i', hi', -, hr'⟩ := (mem_struck_iff hdrop (by omega)).mp hin
        exact ih i' hi' (by omega) (related_trans htrans hr' hr)
      · exact ⟨i, hi, hin, hr⟩

theorem mem_kept_iff_struck {a : α} :
    a ∈ kept rel drop xs ↔ ∃ j, xs[j]? = some a ∧ j ∉ struck rel drop xs := by
  rw [kept, List.mem_filterMap]
  constructor
  · rintro ⟨j, -, ha⟩
    split_ifs at ha with hin
    exact ⟨j, ha, hin⟩
  · rintro ⟨j, ha, hin⟩
    exact ⟨j, List.mem_range.mpr (List.getElem?_eq_some_iff.mp ha).1, by rw [if_neg hin, ha]⟩

theorem mem_kept_iff (htrans : ∀ a b c, rel a b = true → rel b c = true → rel a c = true)
    (hdrop : ∀ a ∈ xs, drop a = false) (a : α) :
    a ∈ kept rel drop xs ↔ ∃ j, xs[j]? = some a ∧ ∀ i < j, related rel xs i j = false := by
  rw [mem_kept_iff_struck]
  refine exists_congr fun j => and_congr_right fun ha => ?_
  rw [mem_struck_iff_of_trans htrans hdrop (List.getElem?_eq_some_iff.mp ha).1]
  simp only [not_exists, not_and, Bool.not_eq_true]

theorem mem_of_mem_kept {a : α} (h : a ∈ kept rel drop xs) : a ∈ xs := by
  obtain ⟨i, -, hi⟩ := List.mem_filterMap.mp h
  split_ifs at hi
  exact List.mem_of_getElem? hi

theorem kept_ne_nil (hdrop : ∀ a ∈ xs, drop a = false) (hne : xs ≠ []) : kept rel drop xs ≠ [] := by
  have hpos := List.length_pos_iff.mpr hne
  have hin : 0 ∉ struck rel drop xs := by
    rw [mem_struck_iff hdrop hpos]
    rintro ⟨i, hi, -⟩
    exact Nat.not_lt_zero i hi
  exact List.ne_nil_of_mem (mem_kept_iff_struck.mpr ⟨0, List.getElem?_eq_getElem hpos, hin⟩)

/-- Whatever is below an entry is related to it. -/
structure Coarsens (rel : α → α → Bool) (finer : α → α → Prop) : Prop where
  refl : ∀ a, finer a a
  trans : ∀ a b c, finer a b → finer b c → finer a c
  rel_of_finer : ∀ a b, finer a b → rel a b = true

/-- What an earlier entry is related to has something below it that is earlier or further down. -/
def Covered (rel : α → α → Bool) (finer : α → α → Prop) (xs : List α) : Prop :=
  ∀ (i j : ℕ) a b, i < j → xs[i]? = some a → xs[j]? = some b → rel a b = true →
    ∃ k c, xs[k]? = some c ∧ finer c b ∧ (k < j ∨ ¬ finer b c)

section Coarse

variable {finer : α → α → Prop}

open Classical in
noncomputable def lower (finer : α → α → Prop) (xs : List α) (b : α) : Finset ℕ :=
  (Finset.range xs.length).filter fun i => ∃ a, xs[i]? = some a ∧ finer a b

theorem mem_lower {b : α} {i : ℕ} : i ∈ lower finer xs b ↔ ∃ a, xs[i]? = some a ∧ finer a b := by
  simp only [lower, Finset.mem_filter, Finset.mem_range, and_iff_right_iff_imp]
  rintro ⟨a, ha, -⟩
  exact (List.getElem?_eq_some_iff.mp ha).1

theorem Coarsens.lower_subset (h : Coarsens rel finer) {b c : α} (hcb : finer c b) :
    lower finer xs c ⊆ lower finer xs b := by
  intro i hi
  obtain ⟨a, ha, hac⟩ := mem_lower.mp hi
  exact mem_lower.mpr ⟨a, ha, h.trans a c b hac hcb⟩

theorem Coarsens.card_lower_lt (h : Coarsens rel finer) {b c : α} {j : ℕ} (hb : xs[j]? = some b)
    (hcb : finer c b) (hbc : ¬ finer b c) :
    (lower finer xs c).card < (lower finer xs b).card := by
  refine Finset.card_lt_card ⟨h.lower_subset hcb, fun hsub => ?_⟩
  obtain ⟨b', hb', hbc'⟩ := mem_lower.mp (hsub (mem_lower.mpr ⟨b, hb, h.refl b⟩))
  obtain rfl := Option.some.inj (hb.symm.trans hb')
  exact hbc hbc'

/-- From an entry that is struck out one gets down, or at least to the front, until one is kept. -/
theorem Coarsens.exists_kept_of_covered (h : Coarsens rel finer)
    (htrans : ∀ a b c, rel a b = true → rel b c = true → rel a c = true)
    (hdrop : ∀ a ∈ xs, drop a = false) (hcovered : Covered rel finer xs) {j : ℕ} {b : α}
    (hb : xs[j]? = some b) : ∃ c ∈ kept rel drop xs, finer c b := by
  induction hn : (lower finer xs b).card using Nat.strong_induction_on generalizing j b with
  | _ n ihcard =>
    induction j using Nat.strong_induction_on generalizing b with
    | _ j ihfront =>
      by_cases hfirst : ∀ i < j, related rel xs i j = false
      · exact ⟨b, (mem_kept_iff htrans hdrop b).mpr ⟨j, hb, hfirst⟩, h.refl b⟩
      · obtain ⟨i, hij, hrel⟩ : ∃ i < j, related rel xs i j = true := by simpa using hfirst
        obtain ⟨a, b', ha, hb', hab⟩ := related_iff.mp hrel
        obtain rfl := Option.some.inj (hb.symm.trans hb')
        obtain ⟨k, c, hc, hcb, hwhere⟩ := hcovered i j a b hij ha hb hab
        obtain ⟨m, hm, hmc⟩ : ∃ m ∈ kept rel drop xs, finer m c := by
          by_cases hbc : finer b c
          · have hsame : (lower finer xs c).card = n := by
              rw [← hn, (h.lower_subset hcb).antisymm (h.lower_subset hbc)]
            exact ihfront k (hwhere.resolve_right (not_not_intro hbc)) hc hsame
          · exact ihcard _ (hn ▸ h.card_lower_lt hb hcb hbc) hc rfl
        exact ⟨m, hm, h.trans m c b hmc hcb⟩

/-- Sieving keeps something below every entry exactly if the relation misleads nowhere for good. -/
theorem Coarsens.forall_exists_kept_iff (h : Coarsens rel finer)
    (htrans : ∀ a b c, rel a b = true → rel b c = true → rel a c = true)
    (hdrop : ∀ a ∈ xs, drop a = false) :
    (∀ b ∈ xs, ∃ c ∈ kept rel drop xs, finer c b) ↔ Covered rel finer xs := by
  constructor
  · intro hall i j a b hij ha hb hab
    obtain ⟨c, hkept, hcb⟩ := hall b (List.mem_of_getElem? hb)
    obtain ⟨k, hc, hfirst⟩ := (mem_kept_iff htrans hdrop c).mp hkept
    refine ⟨k, c, hc, hcb, ?_⟩
    by_contra hnot
    obtain ⟨hjk, hbc⟩ : j ≤ k ∧ finer b c := by simpa using hnot
    rcases hjk.lt_or_eq with hlt | rfl
    · have hrel := hfirst j hlt
      rw [related_iff.mpr ⟨b, c, hb, hc, h.rel_of_finer b c hbc⟩] at hrel
      cases hrel
    · have hrel := hfirst i hij
      rw [related_iff.mpr ⟨a, b, ha, hb, hab⟩] at hrel
      cases hrel
  · intro hcovered b hb
    obtain ⟨j, hj⟩ := List.mem_iff_getElem?.mp hb
    exact h.exists_kept_of_covered htrans hdrop hcovered hj

end Coarse

def Lowest (below : α → α → Prop) (xs : List α) (a : α) : Prop :=
  a ∈ xs ∧ ∀ b ∈ xs, below b a → b = a

/-- An entry is related to everything above it, and to everything above what it is related to;
    and what is below comes first. -/
structure RefinedBy (rel : α → α → Bool) (xs : List α) (below : α → α → Prop) : Prop where
  refl : ∀ a, below a a
  trans : ∀ a b c, below a b → below b c → below a c
  rel_of_below : ∀ a b, below a b → rel a b = true
  rel_below : ∀ a b c, rel a b = true → below b c → rel a c = true
  first : ∀ (i j : ℕ) a b, xs[i]? = some a → xs[j]? = some b → below a b → a ≠ b → i < j

section Order

variable {below : α → α → Prop}

theorem RefinedBy.exists_lowest (h : RefinedBy rel xs below) {j : ℕ} {a : α}
    (ha : xs[j]? = some a) : ∃ m, Lowest below xs m ∧ below m a := by
  induction j using Nat.strong_induction_on generalizing a with
  | _ j ih =>
    by_cases hlow : Lowest below xs a
    · exact ⟨a, hlow, h.refl a⟩
    · obtain ⟨b, hb, hba, hne⟩ : ∃ b ∈ xs, below b a ∧ b ≠ a := by
        by_contra hnone
        refine hlow ⟨List.mem_of_getElem? ha, fun b hb hba => ?_⟩
        by_contra hne
        exact hnone ⟨b, hb, hba, hne⟩
      obtain ⟨i, hi⟩ := List.mem_iff_getElem?.mp hb
      obtain ⟨m, hm, hmb⟩ := ih i (h.first i j b a hi ha hba hne) hi
      exact ⟨m, hm, h.trans m b a hmb hba⟩

/-- Whatever is kept is lowest: an entry below is kept, or its striker strikes this one too. -/
theorem RefinedBy.lowest_of_mem_kept (h : RefinedBy rel xs below)
    (hdrop : ∀ a ∈ xs, drop a = false) {j : ℕ} {a : α} (ha : xs[j]? = some a)
    (hin : j ∉ struck rel drop xs) : Lowest below xs a := by
  obtain ⟨m, hm, hma⟩ := h.exists_lowest ha
  suffices hsame : m = a from hsame ▸ hm
  by_contra hne
  obtain ⟨i, hi⟩ := List.mem_iff_getElem?.mp hm.1
  have hij := h.first i j m a hi ha hma hne
  have hlt := (List.getElem?_eq_some_iff.mp ha).1
  by_cases hstruck : i ∈ struck rel drop xs
  · obtain ⟨k, hk, hkin, hr⟩ :=
      (mem_struck_iff hdrop (List.getElem?_eq_some_iff.mp hi).1).mp hstruck
    obtain ⟨c, m', hc, hm', hrel⟩ := related_iff.mp hr
    obtain rfl := Option.some.inj (hi.symm.trans hm')
    exact hin ((mem_struck_iff hdrop hlt).mpr ⟨k, hk.trans hij, hkin,
      related_iff.mpr ⟨c, a, hc, ha, h.rel_below c m a hrel hma⟩⟩)
  · exact hin ((mem_struck_iff hdrop hlt).mpr ⟨i, hij, hstruck,
      related_iff.mpr ⟨m, a, hi, ha, h.rel_of_below m a hma⟩⟩)

/-- All the lowest entries are kept exactly if none of them is related to a later one. -/
theorem RefinedBy.mem_kept_iff_lowest (h : RefinedBy rel xs below)
    (hdrop : ∀ a ∈ xs, drop a = false) (hnodup : xs.Nodup) :
    (∀ a, a ∈ kept rel drop xs ↔ Lowest below xs a) ↔
      ∀ (i j : ℕ) a b, i < j → xs[i]? = some a → xs[j]? = some b → Lowest below xs a →
        Lowest below xs b → rel a b = false := by
  have hindex : ∀ {i j : ℕ} {a}, xs[i]? = some a → xs[j]? = some a → i = j := fun {i j a} hi hj =>
    (List.getElem?_inj (List.getElem?_eq_some_iff.mp hi).1 hnodup).mp (hi.trans hj.symm)
  constructor
  · intro hall i j a b hij ha hb hlowa hlowb
    obtain ⟨i', hi', hin⟩ := mem_kept_iff_struck.mp ((hall a).mpr hlowa)
    obtain ⟨j', hj', hjn⟩ := mem_kept_iff_struck.mp ((hall b).mpr hlowb)
    obtain rfl := hindex ha hi'
    obtain rfl := hindex hb hj'
    by_contra hrel
    exact hjn ((mem_struck_iff hdrop (List.getElem?_eq_some_iff.mp hb).1).mpr ⟨i, hij, hin,
      related_iff.mpr ⟨a, b, ha, hb, by simpa using hrel⟩⟩)
  · intro hnone a
    constructor
    · intro hkept
      obtain ⟨j, hj, hin⟩ := mem_kept_iff_struck.mp hkept
      exact h.lowest_of_mem_kept hdrop hj hin
    · intro hlow
      obtain ⟨j, hj⟩ := List.mem_iff_getElem?.mp hlow.1
      refine mem_kept_iff_struck.mpr ⟨j, hj, fun hstruck => ?_⟩
      obtain ⟨i, hij, hin, hr⟩ :=
        (mem_struck_iff hdrop (List.getElem?_eq_some_iff.mp hj).1).mp hstruck
      obtain ⟨c, a', hc, ha', hrel⟩ := related_iff.mp hr
      obtain rfl := Option.some.inj (hj.symm.trans ha')
      rw [hnone i j c a hij hc hj (h.lowest_of_mem_kept hdrop hc hin) hlow] at hrel
      cases hrel

end Order

end Sieve
