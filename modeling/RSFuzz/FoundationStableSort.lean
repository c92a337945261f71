import Mathlib.Data.List.Sort
import RSFuzz.FoundationOrderedMap

set_option autoImplicit false

/-!
# Sorting by a key

A stable sort by a key orders two entries by their keys, and entries with one
key as they stood before. Which list comes out of the entries of a set is fixed
exactly where no two of them have one key.
-/
namespace StableSort
open OrderedMap
open scoped List

variable {α : Type*} (key : α → ℕ)

def byKey (xs : List α) : List α := xs.insertionSort fun a b => key a ≤ key b

variable {key} {xs ys : List α}

theorem pairwise_byKey (xs : List α) : (byKey key xs).Pairwise fun a b => key a ≤ key b :=
  List.pairwise_insertionSort (fun a b => key a ≤ key b) xs

theorem perm_byKey (xs : List α) : byKey key xs ~ xs := List.perm_insertionSort _ xs

theorem key_le_of_getElem? (key : α → ℕ) {i j : ℕ} {a b : α} (ha : (byKey key xs)[i]? = some a)
    (hb : (byKey key xs)[j]? = some b) (hij : i ≤ j) : key a ≤ key b := by
  obtain ⟨hi, rfl⟩ := List.getElem?_eq_some_iff.mp ha
  obtain ⟨hj, rfl⟩ := List.getElem?_eq_some_iff.mp hb
  rcases Nat.lt_or_eq_of_le hij with hlt | rfl
  · exact List.pairwise_iff_getElem.mp (pairwise_byKey xs) i j hi hj hlt
  · exact le_rfl

theorem lt_length_takeWhile_iff {p : α → Bool}
    (h : xs.Pairwise fun a b => p b = true → p a = true) {i : ℕ} {a : α} (ha : xs[i]? = some a) :
    i < (xs.takeWhile p).length ↔ p a = true := by
  induction xs generalizing i with
  | nil => simp at ha
  | cons x xs ih =>
    obtain ⟨hx, hxs⟩ := List.pairwise_cons.mp h
    rw [List.takeWhile_cons]
    cases i with
    | zero =>
      obtain rfl : x = a := Option.some.inj ha
      by_cases hp : p x = true
      · simp [hp]
      · simp [hp]
    | succ i =>
      have ha : xs[i]? = some a := by simpa using ha
      by_cases hp : p x = true
      · rw [if_pos hp, List.length_cons, Nat.succ_lt_succ_iff, ih hxs ha]
      · have hpa : ¬ p a = true := fun hpa => hp (hx a (List.mem_of_getElem? ha) hpa)
        simp [hp, hpa]

theorem pair_sublist_or (hxs : xs.Nodup) {a b : α} (ha : a ∈ xs) (hb : b ∈ xs) (hne : a ≠ b) :
    ([a, b] <+ xs ∨ [b, a] <+ xs) ∧ ¬ ([a, b] <+ xs ∧ [b, a] <+ xs) := by
  induction xs with
  | nil => cases ha
  | cons x xs ih =>
    obtain ⟨hx, hxs⟩ := List.nodup_cons.mp hxs
    have hpair : ∀ c d, c ≠ d → ([c, d] <+ x :: xs ↔ c = x ∧ d ∈ xs ∨ [c, d] <+ xs) := by
      intro c d hcd
      by_cases hc : c = x
      · subst hc
        rw [List.cons_sublist_cons, List.singleton_sublist]
        simp only [true_and]
        exact ⟨Or.inl, fun h => h.elim id fun h => h.subset (by simp)⟩
      · rw [List.sublist_cons_iff]
        simp [hc]
    rw [hpair a b hne, hpair b a hne.symm]
    rcases List.mem_cons.mp ha with rfl | ha' <;> rcases List.mem_cons.mp hb with rfl | hb'
    · exact absurd rfl hne
    · refine ⟨Or.inl (Or.inl ⟨rfl, hb'⟩), ?_⟩
      rintro ⟨-, h | h⟩
      · exact hx h.2
      · exact hx (h.subset (by simp))
    · refine ⟨Or.inr (Or.inl ⟨rfl, ha'⟩), ?_⟩
      rintro ⟨h | h, -⟩
      · exact hx h.2
      · exact hx (h.subset (by simp))
    · obtain ⟨hor, hand⟩ := ih hxs ha' hb'
      refine ⟨hor.imp Or.inr Or.inr, ?_⟩
      rintro ⟨h | h, h' | h'⟩
      · exact hne (h.1.trans h'.1.symm)
      · exact hx (h.1 ▸ ha')
      · exact hx (h'.1 ▸ hb')
      · exact hand ⟨h, h'⟩

theorem pair_sublist_iff_lt (hxs : xs.Nodup) {i j : ℕ} {a b : α} (ha : xs[i]? = some a)
    (hb : xs[j]? = some b) : [a, b] <+ xs ↔ i < j := by
  have hlt : ∀ {i j : ℕ} {a b : α}, xs[i]? = some a → xs[j]? = some b → i < j → [a, b] <+ xs := by
    intro i j a b ha hb hij
    obtain ⟨hi, rfl⟩ := List.getElem?_eq_some_iff.mp ha
    obtain ⟨hj, rfl⟩ := List.getElem?_eq_some_iff.mp hb
    exact List.pairwise_iff_getElem.mp (List.pairwise_iff_forall_sublist.mpr fun {c d} h => h)
      i j hi hj hij
  refine ⟨fun h => ?_, hlt ha hb⟩
  by_contra hle
  rcases Nat.lt_or_eq_of_le (Nat.le_of_not_lt hle) with hji | rfl
  · have hne : a ≠ b := by
      rintro rfl
      exact absurd (hxs.sublist h) (by simp)
    exact (pair_sublist_or hxs (List.mem_of_getElem? ha) (List.mem_of_getElem? hb) hne).2
      ⟨h, hlt hb ha hji⟩
  · obtain rfl := Option.some.inj (ha.symm.trans hb)
    exact absurd (hxs.sublist h) (by simp)

theorem pair_sublist_byKey_iff (key : α → ℕ) (hxs : xs.Nodup) {a b : α} (ha : a ∈ xs)
    (hb : b ∈ xs) (hne : a ≠ b) : [a, b] <+ byKey key xs ↔ key a < key b ∨ key a = key b ∧ [a, b] <+ xs := by
  have hnodup : (byKey key xs).Nodup := (perm_byKey xs).nodup_iff.mpr hxs
  have hmem : ∀ {c}, c ∈ xs → c ∈ byKey key xs := fun hc => (perm_byKey xs).mem_iff.mpr hc
  have hkey : ∀ {c d}, [c, d] <+ byKey key xs → key c ≤ key d := fun h =>
    List.pairwise_iff_forall_sublist.mp (pairwise_byKey xs) h
  obtain ⟨hor, hand⟩ := pair_sublist_or hnodup (hmem ha) (hmem hb) hne
  constructor
  · intro h
    rcases Nat.lt_or_eq_of_le (hkey h) with hlt | heq
    · exact Or.inl hlt
    · refine Or.inr ⟨heq, ?_⟩
      rcases (pair_sublist_or hxs ha hb hne).1 with hab | hba
      · exact hab
      · exact absurd ⟨h, List.pair_sublist_insertionSort heq.ge hba⟩ hand
  · rintro (hlt | ⟨heq, hab⟩)
    · rcases hor with hab | hba
      · exact hab
      · exact absurd (hkey hba) (Nat.not_le.mpr hlt)
    · exact List.pair_sublist_insertionSort heq.le hab

/-- Two lists of the same entries are sorted to one list exactly if they agree on the order of
    entries with one key. -/
theorem byKey_eq_iff (hxs : xs.Nodup) (hperm : xs ~ ys) :
    byKey key xs = byKey key ys ↔
      ∀ a ∈ xs, ∀ b ∈ xs, a ≠ b → key a = key b → ([a, b] <+ xs ↔ [a, b] <+ ys) := by
  have hys : ys.Nodup := hperm.nodup_iff.mp hxs
  constructor
  · intro heq a ha b hb hne hkey
    have hx := pair_sublist_byKey_iff key hxs ha hb hne
    have hy := pair_sublist_byKey_iff key hys (hperm.subset ha) (hperm.subset hb) hne
    rw [heq, hy] at hx
    simp only [hkey, lt_irrefl, false_or, true_and] at hx
    exact hx.symm
  · intro hsame
    -- both results are sorted by the order in which the second one has its entries
    refine @List.Perm.eq_of_pairwise α (fun a b => [a, b] <+ byKey key ys) _ _
      (fun a b ha hb hab hba => ?_) (List.pairwise_iff_forall_sublist.mpr fun {a b} hab => ?_)
      (List.pairwise_iff_forall_sublist.mpr fun {a b} hab => hab)
      ((perm_byKey xs).trans (hperm.trans (perm_byKey ys).symm))
    · by_contra hne
      exact (pair_sublist_or ((perm_byKey ys).nodup_iff.mpr hys) ((perm_byKey ys).mem_iff.mpr
        (hperm.subset ((perm_byKey xs).mem_iff.mp ha))) hb hne).2 ⟨hab, hba⟩
    · have ha : a ∈ xs := (perm_byKey xs).mem_iff.mp (hab.subset (by simp))
      have hb : b ∈ xs := (perm_byKey xs).mem_iff.mp (hab.subset (by simp))
      have hne : a ≠ b := by
        rintro rfl
        exact absurd (((perm_byKey xs).nodup_iff.mpr hxs).sublist hab) (by simp)
      rw [pair_sublist_byKey_iff key hys (hperm.subset ha) (hperm.subset hb) hne]
      exact ((pair_sublist_byKey_iff key hxs ha hb hne).mp hab).imp_right fun h =>
        ⟨h.1, (hsame a ha b hb hne h.1).mp h.2⟩

section Orders

variable [DecidableEq α]

def front (a : α) : IterationOrder α where
  list xs := if a ∈ xs then a :: xs.erase a else xs
  perm xs := by
    split_ifs with h
    · exact (List.perm_cons_erase h).symm
    · exact List.Perm.refl xs

theorem pair_sublist_front {a b : α} (ha : a ∈ xs) (hb : b ∈ xs) (hne : a ≠ b) :
    [a, b] <+ (front a).list xs := by
  have hlist : (front a).list xs = a :: xs.erase a := if_pos ha
  rw [hlist, List.cons_sublist_cons, List.singleton_sublist]
  exact (List.mem_erase_of_ne hne.symm).mpr hb

/-- Every order of iteration gives one list exactly if the key tells the entries apart. -/
theorem byKey_orders_iff (hxs : xs.Nodup) (hperm : xs ~ ys) :
    (∀ order order' : IterationOrder α, byKey key (order.list xs) = byKey key (order'.list ys)) ↔
      ∀ a ∈ xs, ∀ b ∈ xs, key a = key b → a = b := by
  have hiff : ∀ order order' : IterationOrder α, byKey key (order.list xs) = byKey key (order'.list ys) ↔
      ∀ a ∈ xs, ∀ b ∈ xs, a ≠ b → key a = key b →
        ([a, b] <+ order.list xs ↔ [a, b] <+ order'.list ys) := by
    intro order order'
    rw [byKey_eq_iff ((order.perm xs).nodup_iff.mpr hxs)
      ((order.perm xs).trans (hperm.trans (order'.perm ys).symm))]
    simp only [order.mem_list]
  constructor
  · intro hall a ha b hb hkey
    by_contra hne
    -- one order has the first entry in front, the other one the second
    have hfront := ((hiff (front a) (front b)).mp (hall _ _) a ha b hb hne hkey).mp
      (pair_sublist_front ha hb hne)
    have hys : ((front b).list ys).Nodup :=
      ((front b).perm ys).nodup_iff.mpr (hperm.nodup_iff.mp hxs)
    have hay : a ∈ (front b).list ys := ((front b).mem_list).mpr (hperm.subset ha)
    have hby : b ∈ (front b).list ys := ((front b).mem_list).mpr (hperm.subset hb)
    exact (pair_sublist_or hys hay hby hne).2
      ⟨hfront, pair_sublist_front (hperm.subset hb) (hperm.subset ha) (Ne.symm hne)⟩
  · intro hinj order order'
    exact (hiff order order').mpr fun a ha b hb hne hkey => absurd (hinj a ha b hb hkey) hne

end Orders
end StableSort
