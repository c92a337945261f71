import Mathlib.Data.List.Basic

set_option autoImplicit false

/-!
# Numbering by first occurrence

A list of the keys met so far gives every key its position. A key that is new
is appended, so numbers given out earlier stay as they are.
-/
namespace Numbering

variable {α : Type*} [DecidableEq α]

def enter (used : List α) (key : α) : List α := if key ∈ used then used else used ++ [key]

theorem mem_enter {used : List α} {key k : α} : k ∈ enter used key ↔ k ∈ used ∨ k = key := by
  unfold enter
  split_ifs with h
  · constructor
    · exact Or.inl
    · rintro (hk | rfl)
      · exact hk
      · exact h
  · rw [List.mem_append, List.mem_singleton]

theorem self_mem_enter (used : List α) (key : α) : key ∈ enter used key :=
  mem_enter.mpr (Or.inr rfl)

theorem idxOf_enter {used : List α} {k : α} (h : k ∈ used) (key : α) :
    (enter used key).idxOf k = used.idxOf k := by
  unfold enter
  split_ifs
  · rfl
  · exact List.idxOf_append_of_mem h

theorem idxOf_inj_of_mem {used : List α} {j k : α} (hj : j ∈ used) :
    used.idxOf j = used.idxOf k ↔ j = k :=
  ⟨fun h => (List.idxOf_inj hj).mp h, fun h => by rw [h]⟩

/-- The entries that a table has numbered, each with its key. -/
def Numbered (used : List α) (entries : List (α × ℕ)) : Prop :=
  ∀ e ∈ entries, e.1 ∈ used ∧ e.2 = used.idxOf e.1

theorem Numbered.nil : Numbered ([] : List α) [] := by simp [Numbered]

theorem Numbered.enter {used : List α} {entries : List (α × ℕ)} (h : Numbered used entries)
    (key : α) : Numbered (enter used key) (entries ++ [(key, (Numbering.enter used key).idxOf key)]) := by
  intro e he
  rcases List.mem_append.mp he with he | he
  · obtain ⟨hmem, hidx⟩ := h e he
    exact ⟨mem_enter.mpr (Or.inl hmem), by rw [idxOf_enter hmem, hidx]⟩
  · obtain rfl := List.mem_singleton.mp he
    exact ⟨self_mem_enter used key, rfl⟩

theorem Numbered.eq_iff {used : List α} {entries : List (α × ℕ)} (h : Numbered used entries)
    {e e' : α × ℕ} (he : e ∈ entries) (he' : e' ∈ entries) : e.2 = e'.2 ↔ e.1 = e'.1 := by
  obtain ⟨hmem, hidx⟩ := h e he
  rw [hidx, (h e' he').2]
  exact idxOf_inj_of_mem hmem

end Numbering
