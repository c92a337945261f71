import Mathlib.Data.List.Sublists
import Mathlib.Data.List.Infix

set_option autoImplicit false

/-!
# Subsequences that end where the longer list ends

`EndsIn p q` is the order in which a pattern is found on a path whose last
element it must hit. `greedyMatch` is the left-to-right scan with one moving
index that decides whether a pattern is a subsequence; `LooselyIn` is what is
left of it when the scan goes back to the first occurrence of every match.
-/
namespace Subsequence
open scoped List

variable {α : Type*} [DecidableEq α]

/-- Index `j` points at the next pattern element; the scan stops at the first full match. -/
def greedyMatch (p : List α) : List α → ℕ → Bool
  | [], _ => false
  | x :: q, j =>
    if p[j]? = some x then
      if j + 1 = p.length then true else greedyMatch p q (j + 1)
    else greedyMatch p q j

/-- Taking the earliest match never loses a later one. -/
theorem greedyMatch_iff (p q : List α) (j : ℕ) (hj : j < p.length) :
    greedyMatch p q j = true ↔ p.drop j <+ q := by
  induction q generalizing j with
  | nil =>
    have : p.drop j ≠ [] := by simpa [List.drop_eq_nil_iff] using hj
    simp [greedyMatch, this]
  | cons x q ih =>
    have hd : p.drop j = p[j] :: p.drop (j + 1) := List.drop_eq_getElem_cons hj
    by_cases hx : p[j]? = some x
    · have he : p[j] = x := by simpa [List.getElem?_eq_getElem hj] using hx
      rw [hd, he, List.cons_sublist_cons]
      by_cases hl : j + 1 = p.length
      · simp [greedyMatch, hx, hl]
      · simp only [greedyMatch, hx, hl, ↓reduceIte]
        exact ih (j + 1) (by omega)
    · have he : p[j] ≠ x := by simpa [List.getElem?_eq_getElem hj] using hx
      simp only [greedyMatch, hx, ↓reduceIte]
      rw [ih j hj, List.sublist_cons_iff]
      constructor
      · exact Or.inl
      · rintro (h | ⟨r, hr, -⟩)
        · exact h
        · rw [hd] at hr
          exact absurd (List.cons.inj hr).1 he

/-- `p` is a subsequence of `q` whose last element is the last element of `q`. -/
def EndsIn (p q : List α) : Prop := p <+ q ∧ p.getLast? = q.getLast?

instance (p q : List α) : Decidable (EndsIn p q) :=
  inferInstanceAs (Decidable (p <+ q ∧ p.getLast? = q.getLast?))

/-- Every element occurs, not before the first occurrence of the element in front of it. -/
def LooselyIn (p q : List α) : Prop :=
  (∀ a ∈ p.head?, a ∈ q) ∧ p.IsChain fun a b => b ∈ q.drop (q.idxOf a)

instance (p q : List α) : Decidable (LooselyIn p q) :=
  inferInstanceAs (Decidable ((∀ a ∈ p.head?, a ∈ q) ∧ p.IsChain fun a b => b ∈ q.drop (q.idxOf a)))

theorem mem_drop_idxOf {q : List α} {a b : α} (h : [a, b] <+ q) : b ∈ q.drop (q.idxOf a) := by
  induction q with
  | nil => cases h
  | cons c q ih =>
    by_cases hc : c = a
    · subst hc
      rw [List.idxOf_cons_self, List.drop_zero]
      exact h.subset (by simp)
    · rw [List.idxOf_cons_ne q hc, List.drop_succ_cons]
      refine ih ?_
      rcases List.sublist_cons_iff.mp h with h | ⟨r, hr, -⟩
      · exact h
      · exact absurd (List.cons.inj hr).1.symm hc

theorem mem_drop_idxOf_iff {q : List α} {a b : α} :
    b ∈ q.drop (q.idxOf a) ↔ (a = b ∧ a ∈ q) ∨ [a, b] <+ q := by
  constructor
  · intro h
    induction q with
    | nil => simp at h
    | cons c q ih =>
      by_cases hc : c = a
      · subst hc
        rw [List.idxOf_cons_self, List.drop_zero] at h
        rcases List.mem_cons.mp h with rfl | h
        · exact Or.inl ⟨rfl, by simp⟩
        · exact Or.inr (List.cons_sublist_cons.mpr (List.singleton_sublist.mpr h))
      · rw [List.idxOf_cons_ne q hc, List.drop_succ_cons] at h
        rcases ih h with ⟨rfl, hin⟩ | hsub
        · exact Or.inl ⟨rfl, List.mem_cons_of_mem c hin⟩
        · exact Or.inr (hsub.cons c)
  · rintro (⟨rfl, ha⟩ | h)
    · have hlt := List.idxOf_lt_length_iff.mpr ha
      exact List.mem_drop_iff_getElem.mpr ⟨0, by simpa using hlt, by simp⟩
    · exact mem_drop_idxOf h

theorem LooselyIn.mono {p q r : List α} (h : LooselyIn p q) (hqr : q <+ r) : LooselyIn p r := by
  refine ⟨fun a ha => hqr.subset (h.1 a ha), h.2.imp fun a b hab => ?_⟩
  rcases mem_drop_idxOf_iff.mp hab with ⟨rfl, hin⟩ | hsub
  · exact mem_drop_idxOf_iff.mpr (Or.inl ⟨rfl, hqr.subset hin⟩)
  · exact mem_drop_idxOf_iff.mpr (Or.inr (hsub.trans hqr))

omit [DecidableEq α]

theorem isChain_neighbours (xs : List α) : xs.IsChain fun a b => [a, b] <:+: xs := by
  rw [List.isChain_iff_getElem]
  intro i hi
  refine ⟨xs.take i, xs.drop (i + 2), ?_⟩
  rw [List.append_assoc, List.cons_append, List.singleton_append, ← List.drop_eq_getElem_cons,
    ← List.drop_eq_getElem_cons, List.take_append_drop]

theorem LooselyIn.of_sublist [DecidableEq α] {p q : List α} (h : p <+ q) : LooselyIn p q :=
  ⟨fun _ ha => h.subset (List.mem_of_mem_head? ha),
    (isChain_neighbours p).imp fun _ _ hab => mem_drop_idxOf (hab.sublist.trans h)⟩

theorem EndsIn.refl (p : List α) : EndsIn p p := ⟨List.Sublist.refl p, rfl⟩

theorem EndsIn.trans {p q r : List α} (h : EndsIn p q) (h' : EndsIn q r) : EndsIn p r :=
  ⟨h.1.trans h'.1, h.2.trans h'.2⟩

theorem EndsIn.length_le {p q : List α} (h : EndsIn p q) : p.length ≤ q.length := h.1.length_le

theorem endsIn_concat_iff (p q : List α) (x y : α) :
    EndsIn (p ++ [x]) (q ++ [y]) ↔ p <+ q ∧ x = y := by
  constructor
  · rintro ⟨hs, hl⟩
    obtain rfl : x = y := by simpa using hl
    exact ⟨(List.append_sublist_append_right [x]).mp hs, rfl⟩
  · rintro ⟨hs, rfl⟩
    exact ⟨(List.append_sublist_append_right [x]).mpr hs, by simp⟩

theorem endsIn_iff_dropLast {p q : List α} (hp : p ≠ []) (hq : q ≠ []) :
    EndsIn p q ↔ p.dropLast <+ q.dropLast ∧ p.getLast? = q.getLast? := by
  rw [← List.dropLast_append_getLast hp, ← List.dropLast_append_getLast hq, endsIn_concat_iff]
  simp

theorem sublist_of_sublist_cons_of_not_mem {p q : List α} {x : α} (h : p <+ x :: q)
    (hx : x ∉ p) : p <+ q := by
  rcases List.sublist_cons_iff.mp h with h | ⟨r, rfl, -⟩
  · exact h
  · simp at hx

end Subsequence
