import Mathlib.Data.List.Basic
import Mathlib.Data.List.Induction

set_option autoImplicit false

/-!
# Loops over lists whose body may fail

What `mapM` and `foldlM` return in `Option`, from what the body returns.
-/
namespace OptionFold

variable {α β : Type*}

theorem mapM_eq_filterMap {f : α → Option β} {xs : List α} (h : ∀ x ∈ xs, ∃ y, f x = some y) :
    xs.mapM f = some (xs.filterMap f) := by
  induction xs with
  | nil => rfl
  | cons x xs ih =>
    obtain ⟨y, hy⟩ := h x (by simp)
    simp only [List.mapM_cons, hy, ih fun z hz => h z (List.mem_cons_of_mem x hz),
      Option.pure_def, Option.bind_eq_bind, Option.bind_some, List.filterMap_cons_some hy]

theorem exists_mapM {f : α → Option β} {P : β → Prop} (xs : List α)
    (h : ∀ x ∈ xs, ∃ y, f x = some y ∧ P y) :
    ∃ ys, xs.mapM f = some ys ∧ ys.length = xs.length ∧ ∀ y ∈ ys, P y := by
  induction xs with
  | nil => exact ⟨[], rfl, rfl, by simp⟩
  | cons x xs ih =>
    obtain ⟨y, hy, hp⟩ := h x (by simp)
    obtain ⟨ys, hys, hlen, hall⟩ := ih fun z hz => h z (List.mem_cons_of_mem x hz)
    refine ⟨y :: ys, by simp [List.mapM_cons, hy, hys], by simp [hlen], ?_⟩
    intro z hz
    rcases List.mem_cons.mp hz with rfl | hz
    · exact hp
    · exact hall z hz

theorem mem_mapM_iff {f : α → Option β} {xs : List α} {ys : List β} (h : xs.mapM f = some ys)
    (y : β) : y ∈ ys ↔ ∃ x ∈ xs, f x = some y := by
  induction xs generalizing ys with
  | nil =>
    obtain rfl := Option.some.inj h
    simp
  | cons x xs ih =>
    rw [List.mapM_cons] at h
    obtain ⟨z, hz, h⟩ := Option.bind_eq_some_iff.mp h
    obtain ⟨zs, hzs, h⟩ := Option.bind_eq_some_iff.mp h
    obtain rfl := Option.some.inj h
    rw [List.mem_cons, ih hzs, List.exists_mem_cons_iff, hz, Option.some.injEq, eq_comm]

theorem foldlM_concat {f : β → α → Option β} {xs : List α} {x : α} {b b' : β}
    (h : (xs ++ [x]).foldlM f b = some b') : ∃ b₁, xs.foldlM f b = some b₁ ∧ f b₁ x = some b' := by
  rw [List.foldlM_append] at h
  obtain ⟨b₁, h₁, hlast⟩ := Option.bind_eq_some_iff.mp h
  rw [List.foldlM_cons] at hlast
  obtain ⟨b₂, h₂, hnil⟩ := Option.bind_eq_some_iff.mp hlast
  obtain rfl := Option.some.inj hnil
  exact ⟨b₁, h₁, h₂⟩

/-- What every step keeps holds after a loop that returns; `P` sees the elements done. -/
theorem foldlM_invariant {f : β → α → Option β} {xs : List α} (P : List α → β → Prop)
    (hstep : ∀ done x b b', done ++ [x] <+: xs → P done b → f b x = some b' → P (done ++ [x]) b')
    {b b' : β} (h : P [] b) (hrun : xs.foldlM f b = some b') : P xs b' := by
  induction xs using List.reverseRecOn generalizing b' with
  | nil =>
    obtain rfl := Option.some.inj hrun
    exact h
  | append_singleton xs x ih =>
    obtain ⟨b₁, h₁, hlast⟩ := foldlM_concat hrun
    refine hstep xs x b₁ b' List.prefix_rfl (ih (fun done y c c' hp => ?_) h₁) hlast
    exact hstep done y c c' (hp.trans (List.prefix_append xs [x]))

/-- A loop whose steps are steps of another one, on what is seen of the states and the elements. -/
theorem foldlM_simulation {γ δ : Type*} {f : β → α → Option β} {g : γ → δ → Option γ}
    (view : β → γ) (seen : α → δ)
    (hstep : ∀ b x b', f b x = some b' → g (view b) (seen x) = some (view b')) {xs : List α}
    {b b' : β} (hrun : xs.foldlM f b = some b') :
    (xs.map seen).foldlM g (view b) = some (view b') := by
  induction xs generalizing b with
  | nil =>
    obtain rfl := Option.some.inj hrun
    rfl
  | cons x xs ih =>
    rw [List.foldlM_cons] at hrun
    obtain ⟨b₁, h₁, hrun⟩ := Option.bind_eq_some_iff.mp hrun
    rw [List.map_cons, List.foldlM_cons, hstep b x b₁ h₁]
    exact ih hrun

theorem foldlM_returns_prefix {f : β → α → Option β} (P : List α → β → Prop) (xs : List α)
    (hstep : ∀ done x b, done ++ [x] <+: xs → P done b → ∃ b', f b x = some b' ∧ P (done ++ [x]) b')
    {b : β} (h : P [] b) : ∃ b', xs.foldlM f b = some b' ∧ P xs b' := by
  have key : ∀ ys done b, done ++ ys = xs → P done b →
      ∃ b', ys.foldlM f b = some b' ∧ P (done ++ ys) b' := by
    intro ys
    induction ys with
    | nil => exact fun done b _ hb => ⟨b, rfl, by rwa [List.append_nil]⟩
    | cons y ys ih =>
      intro done b hxs hb
      have hsplit : done ++ [y] ++ ys = xs := by rw [← hxs, List.append_assoc, List.singleton_append]
      obtain ⟨b₁, h₁, hb₁⟩ := hstep done y b ⟨ys, hsplit⟩ hb
      obtain ⟨b', hrun, hb'⟩ := ih (done ++ [y]) b₁ hsplit hb₁
      exact ⟨b', by rw [List.foldlM_cons, h₁]; exact hrun, by rwa [List.append_assoc] at hb'⟩
  exact key xs [] b rfl h

theorem foldlM_returns {f : β → α → Option β} (P : List α → β → Prop) (xs : List α)
    (hstep : ∀ done x b, x ∈ xs → P done b → ∃ b', f b x = some b' ∧ P (done ++ [x]) b') {b : β}
    (h : P [] b) : ∃ b', xs.foldlM f b = some b' ∧ P xs b' :=
  foldlM_returns_prefix P xs (fun done x b hp => hstep done x b (hp.subset (by simp))) h

/-- A loop whose steps do not fail as long as `I` holds is a loop of steps that cannot fail. -/
theorem foldlM_eq_foldl {f : β → α → Option β} {g : β → α → β} (I : β → Prop) (xs : List α)
    (hstep : ∀ b, I b → ∀ x ∈ xs, f b x = some (g b x) ∧ I (g b x)) {b : β} (h : I b) :
    xs.foldlM f b = some (xs.foldl g b) ∧ I (xs.foldl g b) := by
  induction xs generalizing b with
  | nil => exact ⟨rfl, h⟩
  | cons x xs ih =>
    obtain ⟨hx, hI⟩ := hstep b h x (by simp)
    rw [List.foldlM_cons, hx]
    exact ih (fun b hb y hy => hstep b hb y (List.mem_cons_of_mem x hy)) hI

theorem getElem?_concat_iff (xs : List α) (x y : α) (k : ℕ) :
    (xs ++ [x])[k]? = some y ↔ xs[k]? = some y ∨ k = xs.length ∧ x = y := by
  rcases Nat.lt_trichotomy k xs.length with hk | rfl | hk
  · rw [List.getElem?_append_left hk]
    simp [Nat.ne_of_lt hk]
  · simp
  · rw [List.getElem?_eq_none (by simp; omega), List.getElem?_eq_none (by omega)]
    simp [Nat.ne_of_gt hk]

theorem exists_getElem?_concat (P : List α → α → Prop) (xs : List α) (x : α) (k : ℕ) :
    (∃ y, (xs ++ [x])[k]? = some y ∧ P ((xs ++ [x]).take k) y) ↔
      (∃ y, xs[k]? = some y ∧ P (xs.take k) y) ∨ k = xs.length ∧ P xs x := by
  have htake : k ≤ xs.length → (xs ++ [x]).take k = xs.take k := List.take_append_of_le_length
  simp only [getElem?_concat_iff]
  constructor
  · rintro ⟨y, hy | ⟨rfl, rfl⟩, hP⟩
    · obtain ⟨hk, -⟩ := List.getElem?_eq_some_iff.mp hy
      exact Or.inl ⟨y, hy, htake (Nat.le_of_lt hk) ▸ hP⟩
    · rw [htake (Nat.le_refl _), List.take_length] at hP
      exact Or.inr ⟨rfl, hP⟩
  · rintro (⟨y, hy, hP⟩ | ⟨rfl, hP⟩)
    · obtain ⟨hk, -⟩ := List.getElem?_eq_some_iff.mp hy
      exact ⟨y, Or.inl hy, (htake (Nat.le_of_lt hk)).symm ▸ hP⟩
    · refine ⟨x, Or.inr ⟨rfl, rfl⟩, ?_⟩
      rwa [htake (Nat.le_refl _), List.take_length]

end OptionFold
