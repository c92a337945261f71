import RSFuzz.FoundationOrderedMap

set_option autoImplicit false

/-!
# Counting in a dictionary

A dictionary of counts, to which one key after the other is added: the count of
a key, the keys there are and the sum of all counts.
-/
namespace OrderedMap.Map

variable {κ : Type*} [DecidableEq κ]

/-- A key that is not there yet is entered with zero first. -/
def tally (m : Map κ ℕ) (k : κ) : Map κ ℕ :=
  let entered := if k ∈ m.keys then m else m.set k 0
  entered.set k ((entered.get? k).getD 0 + 1)

def countOf (m : Map κ ℕ) (k : κ) : ℕ := (m.get? k).getD 0

@[simp] theorem countOf_empty (k : κ) : (empty : Map κ ℕ).countOf k = 0 := rfl

theorem tally_of_mem (m : Map κ ℕ) {k : κ} {n : ℕ} (h : m.get? k = some n) :
    m.tally k = m.set k (n + 1) := by
  simp only [tally, if_pos (mem_keys_of_get? h), h, Option.getD_some]

theorem tally_fresh (m : Map κ ℕ) {k : κ} (h : k ∉ m.keys) :
    m.tally k = (m.set k 0).set k 1 := by
  simp only [tally, if_neg h, get?_set_self, Option.getD_some]

theorem countOf_tally (m : Map κ ℕ) (k a : κ) :
    (m.tally k).countOf a = m.countOf a + if a = k then 1 else 0 := by
  by_cases hk : k ∈ m.keys
  · obtain ⟨n, hn⟩ := exists_get? hk
    rw [tally_of_mem m hn, countOf, countOf, get?_set]
    split_ifs with ha
    · rw [ha, hn]
      rfl
    · rfl
  · rw [tally_fresh m hk, countOf, countOf, get?_set, get?_set]
    split_ifs with ha
    · rw [ha, (get?_eq_none_iff m k).mpr hk]
      rfl
    · rfl

theorem mem_keys_tally (m : Map κ ℕ) (k a : κ) : a ∈ (m.tally k).keys ↔ a = k ∨ a ∈ m.keys := by
  by_cases hk : k ∈ m.keys
  · obtain ⟨n, hn⟩ := exists_get? hk
    rw [tally_of_mem m hn, mem_keys_set]
  · rw [tally_fresh m hk, mem_keys_set, mem_keys_set, or_self_left]

theorem total_tally (m : Map κ ℕ) (k : κ) : (m.tally k).total = m.total + 1 := by
  by_cases hk : k ∈ m.keys
  · obtain ⟨n, hn⟩ := exists_get? hk
    have hset := total_set m hn (n + 1)
    rw [tally_of_mem m hn]
    omega
  · have hentered : (m.set k 0).total = m.total := by
      rw [total, values_set_fresh m k 0 hk, List.sum_append]
      rfl
    have hset := total_set (m.set k 0) (get?_set_self m k 0) 1
    rw [tally_fresh m hk]
    omega

theorem countOf_foldl_tally (ks : List κ) (m : Map κ ℕ) (a : κ) :
    (ks.foldl tally m).countOf a = m.countOf a + ks.countP fun k => k = a := by
  induction ks generalizing m with
  | nil => rfl
  | cons k ks ih =>
    rw [List.foldl_cons, ih, countOf_tally, List.countP_cons]
    simp only [decide_eq_true_eq, eq_comm (a := a)]
    omega

theorem mem_keys_foldl_tally (ks : List κ) (m : Map κ ℕ) (a : κ) :
    a ∈ (ks.foldl tally m).keys ↔ a ∈ m.keys ∨ a ∈ ks := by
  induction ks generalizing m with
  | nil => simp
  | cons k ks ih =>
    rw [List.foldl_cons, ih, mem_keys_tally, List.mem_cons]
    tauto

theorem total_foldl_tally (ks : List κ) (m : Map κ ℕ) :
    (ks.foldl tally m).total = m.total + ks.length := by
  induction ks generalizing m with
  | nil => rfl
  | cons k ks ih =>
    rw [List.foldl_cons, ih, total_tally, List.length_cons]
    omega

end OrderedMap.Map
