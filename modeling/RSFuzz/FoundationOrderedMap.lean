import Mathlib.Algebra.BigOperators.Group.List.Basic
import Mathlib.Algebra.GroupWithZero.Nat
import Mathlib.Data.List.Basic
import Mathlib.Data.List.Nodup

set_option autoImplicit false

/-!
# Insertion-ordered maps

A finite map that remembers the order in which its keys were first inserted,
the reading given to a dictionary whose iteration order is insertion order.
Assigning to a present key keeps its place.
-/
namespace OrderedMap

/-- The keys are distinct by construction, so a lookup finds the only entry of its key. -/
structure Map (κ : Type*) (ν : Type*) where
  entries : List (κ × ν)
  nodupKeys : (entries.map Prod.fst).Nodup
deriving DecidableEq

variable {κ : Type*} {ν : Type*} [DecidableEq κ]

def lookup (k : κ) : List (κ × ν) → Option ν
  | [] => none
  | (k', v) :: rest => if k' = k then some v else lookup k rest

def assign (k : κ) (v : ν) : List (κ × ν) → List (κ × ν)
  | [] => [(k, v)]
  | (k', v') :: rest => if k' = k then (k, v) :: rest else (k', v') :: assign k v rest

theorem mem_keys_assign (k a : κ) (v : ν) (es : List (κ × ν)) :
    a ∈ (assign k v es).map Prod.fst ↔ a = k ∨ a ∈ es.map Prod.fst := by
  induction es with
  | nil => simp [assign]
  | cons e rest ih =>
    obtain ⟨k', v'⟩ := e
    by_cases h : k' = k
    · subst k'
      simp [assign]
    · simp only [assign, h, ↓reduceIte, List.map_cons, List.mem_cons, ih]
      tauto

theorem nodup_keys_assign (k : κ) (v : ν) (es : List (κ × ν))
    (h : (es.map Prod.fst).Nodup) : ((assign k v es).map Prod.fst).Nodup := by
  induction es with
  | nil => simp [assign]
  | cons e rest ih =>
    obtain ⟨k', v'⟩ := e
    rw [List.map_cons, List.nodup_cons] at h
    by_cases hk : k' = k
    · subst k'
      simpa [assign] using h
    · simp only [assign, hk, ↓reduceIte, List.map_cons, List.nodup_cons]
      refine ⟨?_, ih h.2⟩
      rw [mem_keys_assign]
      rintro (he | hm)
      · exact hk he
      · exact h.1 hm

theorem lookup_assign (k a : κ) (v : ν) (es : List (κ × ν)) :
    lookup a (assign k v es) = if a = k then some v else lookup a es := by
  induction es with
  | nil => simp [assign, lookup, eq_comm]
  | cons e rest ih =>
    obtain ⟨k', v'⟩ := e
    by_cases hk : k' = k
    · subst k'
      by_cases ha : a = k
      · subst a; simp [assign, lookup]
      · simp [assign, lookup, ha, Ne.symm ha]
    · simp only [assign, hk, ↓reduceIte, lookup, ih]
      by_cases ha : k' = a
      · subst a; simp [hk]
      · simp [ha]

theorem lookup_isSome (k : κ) (es : List (κ × ν)) :
    (lookup k es).isSome ↔ k ∈ es.map Prod.fst := by
  induction es with
  | nil => simp [lookup]
  | cons e rest ih =>
    obtain ⟨k', v⟩ := e
    by_cases h : k' = k
    · subst k'; simp [lookup]
    · simp only [lookup, h, ↓reduceIte, ih, List.map_cons, List.mem_cons]
      have := Ne.symm h
      tauto

theorem lookup_eq_some_iff (k : κ) (v : ν) (es : List (κ × ν))
    (h : (es.map Prod.fst).Nodup) : lookup k es = some v ↔ (k, v) ∈ es := by
  induction es with
  | nil => simp [lookup]
  | cons e rest ih =>
    obtain ⟨k', v'⟩ := e
    rw [List.map_cons, List.nodup_cons] at h
    by_cases hk : k' = k
    · subst k'
      have hn : (k, v) ∉ rest := fun hm => h.1 (List.mem_map.mpr ⟨_, hm, rfl⟩)
      simp [lookup, hn, eq_comm]
    · have := Ne.symm hk
      simp [lookup, hk, ih h.2, this]

theorem assign_fresh (k : κ) (v : ν) (es : List (κ × ν)) (h : k ∉ es.map Prod.fst) :
    assign k v es = es ++ [(k, v)] := by
  induction es with
  | nil => rfl
  | cons e rest ih =>
    obtain ⟨k', v'⟩ := e
    simp only [List.map_cons, List.mem_cons, not_or] at h
    simp [assign, Ne.symm h.1, ih h.2]

namespace Map

def empty : Map κ ν := ⟨[], List.nodup_nil⟩

def get? (m : Map κ ν) (k : κ) : Option ν := lookup k m.entries

def set (m : Map κ ν) (k : κ) (v : ν) : Map κ ν :=
  ⟨assign k v m.entries, nodup_keys_assign k v m.entries m.nodupKeys⟩

def keys (m : Map κ ν) : List κ := m.entries.map Prod.fst

def values (m : Map κ ν) : List ν := m.entries.map Prod.snd

def contains (m : Map κ ν) (k : κ) : Bool := (m.get? k).isSome

def size (m : Map κ ν) : ℕ := m.entries.length

def mapValues {μ : Type*} (f : ν → μ) (m : Map κ ν) : Map κ μ :=
  ⟨m.entries.map fun e => (e.1, f e.2), by simpa [Function.comp_def] using m.nodupKeys⟩

@[simp] theorem get?_empty (k : κ) : (empty : Map κ ν).get? k = none := rfl
omit [DecidableEq κ] in
@[simp] theorem keys_empty : (empty : Map κ ν).keys = [] := rfl
omit [DecidableEq κ] in
@[simp] theorem size_empty : (empty : Map κ ν).size = 0 := rfl

theorem get?_set (m : Map κ ν) (k a : κ) (v : ν) :
    (m.set k v).get? a = if a = k then some v else m.get? a := lookup_assign k a v m.entries

@[simp] theorem get?_set_self (m : Map κ ν) (k : κ) (v : ν) : (m.set k v).get? k = some v := by
  rw [get?_set, if_pos rfl]

theorem get?_set_of_ne (m : Map κ ν) {k a : κ} (v : ν) (h : a ≠ k) :
    (m.set k v).get? a = m.get? a := by
  rw [get?_set, if_neg h]

theorem mem_keys_iff (m : Map κ ν) (k : κ) : k ∈ m.keys ↔ (m.get? k).isSome :=
  (lookup_isSome k m.entries).symm

theorem contains_iff (m : Map κ ν) (k : κ) : m.contains k = true ↔ k ∈ m.keys :=
  (mem_keys_iff m k).symm

theorem mem_keys_of_get? {m : Map κ ν} {k : κ} {v : ν} (h : m.get? k = some v) : k ∈ m.keys := by
  rw [mem_keys_iff, h]; rfl

theorem exists_get? {m : Map κ ν} {k : κ} (h : k ∈ m.keys) : ∃ v, m.get? k = some v :=
  Option.isSome_iff_exists.mp ((mem_keys_iff m k).mp h)

theorem get?_eq_none_iff (m : Map κ ν) (k : κ) : m.get? k = none ↔ k ∉ m.keys := by
  rw [mem_keys_iff]
  cases m.get? k <;> simp

theorem get?_eq_some_iff (m : Map κ ν) (k : κ) (v : ν) :
    m.get? k = some v ↔ (k, v) ∈ m.entries := lookup_eq_some_iff k v m.entries m.nodupKeys

theorem mem_keys_set (m : Map κ ν) (k a : κ) (v : ν) :
    a ∈ (m.set k v).keys ↔ a = k ∨ a ∈ m.keys := mem_keys_assign k a v m.entries

theorem entries_set_fresh (m : Map κ ν) (k : κ) (v : ν) (h : k ∉ m.keys) :
    (m.set k v).entries = m.entries ++ [(k, v)] := assign_fresh k v m.entries h

theorem size_set_fresh (m : Map κ ν) (k : κ) (v : ν) (h : k ∉ m.keys) :
    (m.set k v).size = m.size + 1 := by
  simp [size, entries_set_fresh m k v h]

theorem values_set_fresh (m : Map κ ν) (k : κ) (v : ν) (h : k ∉ m.keys) :
    (m.set k v).values = m.values ++ [v] := by
  simp [values, entries_set_fresh m k v h]

omit [DecidableEq κ] in
@[simp] theorem keys_mapValues {μ : Type*} (f : ν → μ) (m : Map κ ν) :
    (m.mapValues f).keys = m.keys := by
  simp [keys, mapValues, Function.comp_def]

theorem get?_mapValues {μ : Type*} (f : ν → μ) (m : Map κ ν) (k : κ) :
    (m.mapValues f).get? k = (m.get? k).map f := by
  obtain ⟨es, h⟩ := m
  simp only [get?, mapValues]
  clear h
  induction es with
  | nil => rfl
  | cons e rest ih =>
    simp only [List.map_cons, lookup, ih]
    split_ifs <;> rfl

theorem sum_values_set (m : Map κ ν) (f : ν → ℕ) {k : κ} {v : ν} (h : m.get? k = some v) (v' : ν) :
    ((m.set k v').values.map f).sum + f v = (m.values.map f).sum + f v' := by
  obtain ⟨es, hn⟩ := m
  simp only [get?, set, values] at h ⊢
  clear hn
  induction es with
  | nil => simp [lookup] at h
  | cons e rest ih =>
    obtain ⟨a, b⟩ := e
    by_cases hk : a = k
    · subst a
      obtain rfl : b = v := by simpa [lookup] using h
      simp only [assign, ↓reduceIte, List.map_cons, List.sum_cons]
      omega
    · have := ih (by simpa [lookup, hk] using h)
      simp only [assign, hk, ↓reduceIte, List.map_cons, List.sum_cons]
      omega

theorem keys_set_of_mem (m : Map κ ν) {k : κ} {v : ν} (h : m.get? k = some v) (v' : ν) :
    (m.set k v').keys = m.keys := by
  obtain ⟨es, hn⟩ := m
  simp only [get?, set, keys] at h ⊢
  clear hn
  induction es with
  | nil => simp [lookup] at h
  | cons e rest ih =>
    obtain ⟨a, b⟩ := e
    by_cases hk : a = k
    · subst a
      simp [assign]
    · have := ih (by simpa [lookup, hk] using h)
      simp [assign, hk, this]

theorem set_get?_self (m : Map κ ν) {k : κ} {v : ν} (h : m.get? k = some v) : m.set k v = m := by
  obtain ⟨es, hn⟩ := m
  have key : ∀ es : List (κ × ν), lookup k es = some v → assign k v es = es := by
    intro es h
    induction es with
    | nil => simp [lookup] at h
    | cons e rest ih =>
      obtain ⟨a, b⟩ := e
      by_cases hk : a = k
      · subst a
        obtain rfl : b = v := by simpa [lookup] using h
        simp [assign]
      · have := ih (by simpa [lookup, hk] using h)
        simp [assign, hk, this]
  have he : assign k v es = es := key es h
  simp only [set, he]

theorem get?_foldl_set {k : κ} {v : ν} (es : List (κ × ν)) (m : Map κ ν)
    (h : (k, v) ∈ es ∨ m.get? k = some v) (hall : ∀ w, (k, w) ∈ es → w = v) :
    (es.foldl (fun m e => m.set e.1 e.2) m).get? k = some v := by
  induction es generalizing m with
  | nil => simpa using h
  | cons e rest ih =>
    obtain ⟨a, b⟩ := e
    refine ih _ ?_ fun w hw => hall w (List.mem_cons_of_mem _ hw)
    by_cases hk : k = a
    · subst a
      right
      rw [get?_set_self, hall b (by simp)]
    · rw [get?_set_of_ne _ _ hk]
      rcases h with hm | hm
      · rcases List.mem_cons.mp hm with he | hm
        · exact absurd (Prod.mk.inj he).1 hk
        · exact Or.inl hm
      · exact Or.inr hm

/-- `if k not in d: d[k] = len(d)`, then `d[k]`. -/
def number (m : Map κ ℕ) (k : κ) : Map κ ℕ × ℕ :=
  match m.get? k with
  | some i => (m, i)
  | none => (m.set k m.size, m.size)

/-- The values are 0, 1, ... in insertion order. -/
def Numbered (m : Map κ ℕ) : Prop := m.values = List.range m.size

omit [DecidableEq κ] in
theorem numbered_empty : (empty : Map κ ℕ).Numbered := rfl

theorem Numbered.set_fresh {m : Map κ ℕ} (h : m.Numbered) {k : κ} (hk : k ∉ m.keys) :
    (m.set k m.size).Numbered := by
  rw [Numbered, values_set_fresh m k _ hk, size_set_fresh m k _ hk, h, List.range_succ]

theorem Numbered.lt_size {m : Map κ ℕ} (h : m.Numbered) {k : κ} {i : ℕ}
    (hk : m.get? k = some i) : i < m.size := by
  have hmem : i ∈ m.values := List.mem_map.mpr ⟨(k, i), (get?_eq_some_iff m k i).mp hk, rfl⟩
  rw [h] at hmem
  exact List.mem_range.mp hmem

theorem Numbered.number {m : Map κ ℕ} (h : m.Numbered) (k : κ) :
    (m.number k).1.Numbered ∧ (m.number k).2 < (m.number k).1.size ∧
      ((m.number k).1.size = m.size ∨
        (m.number k).1.size = m.size + 1 ∧ (m.number k).2 = m.size) := by
  unfold Map.number
  cases hk : m.get? k with
  | some i => exact ⟨h, h.lt_size hk, Or.inl rfl⟩
  | none =>
    have hfresh := (get?_eq_none_iff m k).mp hk
    have hsize := size_set_fresh m k m.size hfresh
    exact ⟨h.set_fresh hfresh, by simp only [hsize]; omega, Or.inr ⟨hsize, rfl⟩⟩

theorem get?_set_eq_none (m : Map κ ℕ) (k k' : κ) (i : ℕ) :
    (m.set k i).get? k' = none ↔ m.get? k' = none ∧ k' ≠ k := by
  rw [get?_set]
  by_cases hk : k' = k
  · simp [hk]
  · simp [hk]

theorem get?_number_eq_none (m : Map κ ℕ) (k k' : κ) :
    (m.number k).1.get? k' = none ↔ m.get? k' = none ∧ k' ≠ k := by
  unfold Map.number
  cases hk : m.get? k with
  | some i =>
    refine ⟨fun h => ⟨h, ?_⟩, And.left⟩
    rintro rfl
    cases hk.symm.trans h
  | none => exact get?_set_eq_none m k k' m.size

def total (m : Map κ ℕ) : ℕ := m.values.sum

omit [DecidableEq κ] in
@[simp] theorem total_empty : (empty : Map κ ℕ).total = 0 := rfl

theorem total_set (m : Map κ ℕ) {k : κ} {n : ℕ} (h : m.get? k = some n) (n' : ℕ) :
    (m.set k n').total + n = m.total + n' := by
  simpa [total] using sum_values_set m id h n'

theorem total_set_fresh (m : Map κ ℕ) {k : κ} (h : k ∉ m.keys) (n : ℕ) :
    (m.set k n).total = m.total + n := by
  simp [total, values_set_fresh m k n h]

theorem mem_values_of_get? {m : Map κ ν} {k : κ} {v : ν} (h : m.get? k = some v) :
    v ∈ m.values :=
  List.mem_map.mpr ⟨(k, v), (get?_eq_some_iff m k v).mp h, rfl⟩

theorem exists_of_mem_values {m : Map κ ν} {v : ν} (h : v ∈ m.values) :
    ∃ k, m.get? k = some v := by
  obtain ⟨entry, hentry, rfl⟩ := List.mem_map.mp h
  exact ⟨entry.1, (get?_eq_some_iff m entry.1 entry.2).mpr hentry⟩

end Map

def insertAll {α : Type*} [DecidableEq α] (set new : List α) : List α :=
  new.foldl (fun set a => set.insert a) set

theorem mem_insertAll {α : Type*} [DecidableEq α] {a : α} (set new : List α) :
    a ∈ insertAll set new ↔ a ∈ set ∨ a ∈ new := by
  induction new generalizing set with
  | nil => simp [insertAll]
  | cons x new ih =>
    rw [insertAll, List.foldl_cons, ← insertAll, ih, List.mem_insert_iff, List.mem_cons]
    tauto

/-- The order in which a set is iterated; nothing is promised about it. -/
structure IterationOrder (α : Type*) where
  list : List α → List α
  perm : ∀ xs, (list xs).Perm xs

namespace IterationOrder

variable {α : Type*}

def listed : IterationOrder α := ⟨id, fun _ => List.Perm.refl _⟩

@[simp] theorem mem_list (order : IterationOrder α) {a : α} {xs : List α} :
    a ∈ order.list xs ↔ a ∈ xs :=
  (order.perm xs).mem_iff

end IterationOrder
end OrderedMap
