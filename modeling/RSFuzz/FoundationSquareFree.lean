import RSFuzz.FoundationBlockCollapse

set_option autoImplicit false

/-!
# Collapsing removes every square

A square is a block that is followed at once by an equal block. The pass for one
stride removes the squares of that length and makes no shorter ones, so after
the passes for all strides none is left, and collapsing again changes nothing.
-/
namespace BlockCollapse
open Subsequence
open scoped List

section Squares

variable {α : Type*}

/-- The block of length `p` at `i` is followed by an equal one. -/
def SquareAt (xs : List α) (i p : ℕ) : Prop :=
  i + 2 * p ≤ xs.length ∧ ∀ j < p, xs[i + j]? = xs[i + p + j]?

def SquareFree (xs : List α) : Prop := ∀ w, w ++ w <:+: xs → w = []

/-- No square of length below `k`. -/
def FreeBelow (k : ℕ) (xs : List α) : Prop := ∀ i p, 0 < p → p < k → ¬ SquareAt xs i p

theorem exists_squareAt {xs w : List α} (h : w ++ w <:+: xs) : ∃ i, SquareAt xs i w.length := by
  obtain ⟨u, v, rfl⟩ := h
  refine ⟨u.length, by simp; omega, fun j hj => ?_⟩
  have hfirst : (u ++ (w ++ w) ++ v)[u.length + j]? = w[j]? := by
    rw [List.append_assoc, List.append_assoc, List.getElem?_append_right (Nat.le_add_right _ _),
      Nat.add_sub_cancel_left, List.getElem?_append_left hj]
  rw [hfirst, List.append_assoc, List.append_assoc, Nat.add_assoc,
    List.getElem?_append_right (Nat.le_add_right _ _), Nat.add_sub_cancel_left,
    List.getElem?_append_right (Nat.le_add_right _ _), Nat.add_sub_cancel_left,
    List.getElem?_append_left hj]

theorem SquareAt.block_append_block {xs : List α} {i p : ℕ} (h : SquareAt xs i p) :
    (xs.drop i).take p ++ (xs.drop i).take p <:+: xs := by
  have hsame : (xs.drop i).take p = (xs.drop (i + p)).take p := by
    apply List.ext_getElem?
    intro j
    rcases Nat.lt_or_ge j p with hj | hj
    · rw [List.getElem?_take_of_lt hj, List.getElem?_take_of_lt hj, List.getElem?_drop,
        List.getElem?_drop]
      exact h.2 j hj
    · rw [List.getElem?_take_eq_none hj, List.getElem?_take_eq_none hj]
  refine ⟨xs.take i, xs.drop (i + p + p), ?_⟩
  have hright : (xs.drop i).take p ++ xs.drop (i + p + p) = xs.drop (i + p) := by
    rw [hsame, ← List.drop_drop (i := p) (j := i + p), List.take_append_drop]
  have hleft : (xs.drop i).take p ++ xs.drop (i + p) = xs.drop i := by
    rw [← List.drop_drop, List.take_append_drop]
  rw [List.append_assoc, List.append_assoc, hright, hleft, List.take_append_drop]

theorem squareFree_iff {xs : List α} : SquareFree xs ↔ ∀ i p, 0 < p → ¬ SquareAt xs i p := by
  constructor
  · intro h i p hp hsq
    have hnil := h _ hsq.block_append_block
    have := congrArg List.length hnil
    rw [List.length_take, List.length_drop, List.length_nil] at this
    have := hsq.1
    omega
  · intro h w hw
    obtain ⟨i, hi⟩ := exists_squareAt hw
    by_contra hne
    exact h i _ (List.length_pos_iff.mpr hne) hi

theorem SquareFree.isChain {xs : List α} (h : SquareFree xs) : xs.IsChain (· ≠ ·) := by
  refine (isChain_neighbours xs).imp fun a b hab he => ?_
  subst he
  exact List.cons_ne_nil a [] (h [a] hab)

section Skip

variable {u b v : List α}

theorem getElem?_skip_left {j : ℕ} (hj : j < u.length + b.length) :
    (u ++ b ++ (b ++ v))[j]? = (u ++ b ++ v)[j]? := by
  have hj : j < (u ++ b).length := by simpa using hj
  rw [List.getElem?_append_left hj, List.getElem?_append_left hj]

theorem getElem?_skip_right {j : ℕ} (hj : u.length ≤ j) :
    (u ++ b ++ (b ++ v))[j + b.length]? = (u ++ b ++ v)[j]? := by
  rw [List.getElem?_append_right (by simp; omega), List.append_assoc,
    List.getElem?_append_right hj]
  congr 1
  simp
  omega

/-- A short square that appears when one of two equal blocks goes was there before, or the two
    blocks meet in a shorter one. -/
theorem SquareAt.before_skip {i p : ℕ} (hpos : 0 < p) (hp : p < b.length)
    (h : SquareAt (u ++ b ++ v) i p) :
    ∃ i' p', 0 < p' ∧ p' < b.length ∧ SquareAt (u ++ b ++ (b ++ v)) i' p' := by
  obtain ⟨hlen, hsq⟩ := h
  simp only [List.length_append] at hlen
  by_cases hleft : i + 2 * p ≤ u.length + b.length
  · refine ⟨i, p, hpos, hp, by simp; omega, fun j hj => ?_⟩
    rw [getElem?_skip_left (by omega), getElem?_skip_left (by omega)]
    exact hsq j hj
  by_cases hright : u.length ≤ i
  · refine ⟨i + b.length, p, hpos, hp, by simp; omega, fun j hj => ?_⟩
    have h1 : i + b.length + j = i + j + b.length := by omega
    have h2 : i + b.length + p + j = i + p + j + b.length := by omega
    rw [h1, h2, getElem?_skip_right (by omega), getElem?_skip_right (by omega)]
    exact hsq j hj
  · -- the square covers the block, which so has period `p`: its end equals its beginning
    refine ⟨u.length + p, b.length - p, by omega, by omega, by simp; omega, fun j hj => ?_⟩
    have h1 : u.length + p + (b.length - p) + j = u.length + j + b.length := by omega
    rw [h1, getElem?_skip_left (by omega), getElem?_skip_right (by omega)]
    have := hsq (u.length + j - i) (by omega)
    have h2 : i + (u.length + j - i) = u.length + j := by omega
    have h3 : i + p + (u.length + j - i) = u.length + p + j := by omega
    rw [h2, h3] at this
    exact this.symm

theorem SquareAt.before_skip_same {i : ℕ} (hi : i < u.length)
    (h : SquareAt (u ++ b ++ v) i b.length) : SquareAt (u ++ b ++ (b ++ v)) i b.length := by
  obtain ⟨hlen, hsq⟩ := h
  simp only [List.length_append] at hlen
  refine ⟨by simp; omega, fun j hj => ?_⟩
  rw [getElem?_skip_left (by omega)]
  by_cases hin : i + b.length + j < u.length + b.length
  · rw [getElem?_skip_left hin]
    exact hsq j hj
  · have h1 : i + b.length + j = i + j + b.length := by omega
    rw [h1, getElem?_skip_right (by omega)]

end Skip

theorem block_split {stride : ℕ} {copied rest : List α} (hlen : stride ≤ copied.length)
    (hblock : copied.drop (copied.length - stride) = rest.take stride) :
    ∃ u b v, copied = u ++ b ∧ rest = b ++ v ∧ rest.drop stride = v ∧ b.length = stride := by
  refine ⟨copied.take (copied.length - stride), rest.take stride, rest.drop stride, ?_,
    (List.take_append_drop stride rest).symm, rfl, ?_⟩
  · rw [← hblock, List.take_append_drop]
  · rw [← hblock, List.length_drop]
    omega

theorem block_of_squareAt {stride : ℕ} {copied rest : List α} (hlen : stride ≤ copied.length)
    (h : SquareAt (copied ++ rest) (copied.length - stride) stride) :
    copied.drop (copied.length - stride) = rest.take stride := by
  apply List.ext_getElem?
  intro j
  rcases Nat.lt_or_ge j stride with hj | hj
  · have := h.2 j hj
    rw [List.getElem?_append_left (by omega), List.getElem?_append_right (by omega)] at this
    rw [List.getElem?_drop, List.getElem?_take_of_lt hj, this]
    congr 1
    omega
  · rw [List.getElem?_take_eq_none hj, List.getElem?_eq_none (by simp; omega)]

theorem squareAt_of_block {stride : ℕ} {copied rest : List α} (hlen : stride ≤ copied.length)
    (hblock : copied.drop (copied.length - stride) = rest.take stride) :
    SquareAt (copied ++ rest) (copied.length - stride) stride := by
  obtain ⟨u, b, v, rfl, rfl, -, rfl⟩ := block_split hlen hblock
  refine ⟨by simp; omega, fun j hj => ?_⟩
  have h1 : (u ++ b).length - b.length + j = u.length + j := by simp
  have h2 : (u ++ b).length - b.length + b.length + j = u.length + j + b.length := by simp; omega
  rw [h1, h2, getElem?_skip_left (by omega), getElem?_skip_right (by omega)]

end Squares

variable {α : Type*} [DecidableEq α]

theorem scan_freeBelow {stride : ℕ} (fuel : ℕ) {copied rest : List α}
    (hlen : stride ≤ copied.length) (h : FreeBelow stride (copied ++ rest)) :
    FreeBelow stride (scan stride fuel copied rest) := by
  induction fuel generalizing copied rest with
  | zero => cases rest <;> simpa [scan] using h
  | succ fuel ih =>
    cases rest with
    | nil => simpa [scan] using h
    | cons x rest =>
      by_cases hblock : copied.drop (copied.length - stride) = (x :: rest).take stride
      · simp only [scan, hblock, ↓reduceIte]
        apply ih hlen
        obtain ⟨u, b, v, rfl, hrest, hdrop, rfl⟩ := block_split hlen hblock
        rw [hdrop]
        rw [hrest] at h
        intro i p hpos hp hsq
        obtain ⟨i', p', hpos', hp', hsq'⟩ := hsq.before_skip hpos hp
        exact h i' p' hpos' hp' hsq'
      · simp only [scan, hblock, ↓reduceIte]
        exact ih (by simp; omega) (by simpa using h)

/-- A scan leaves no square of its own length. The invariant: none begins more than one block
    before the end of what is copied. -/
theorem scan_no_square {stride : ℕ} (hs : 0 < stride) (fuel : ℕ) {copied rest : List α}
    (hf : rest.length ≤ fuel) (hlen : stride ≤ copied.length)
    (h : ∀ i, i + stride < copied.length → ¬ SquareAt (copied ++ rest) i stride) (i : ℕ) :
    ¬ SquareAt (scan stride fuel copied rest) i stride := by
  have hnil : (∀ i, i + stride < copied.length → ¬ SquareAt (copied ++ []) i stride) →
      ¬ SquareAt copied i stride := by
    intro h hsq
    rw [List.append_nil] at h
    exact h i (by have := hsq.1; omega) hsq
  induction fuel generalizing copied rest with
  | zero =>
    obtain rfl : rest = [] := List.length_eq_zero_iff.mp (by omega)
    exact hnil h
  | succ fuel ih =>
    cases rest with
    | nil => exact hnil h
    | cons x rest =>
      rw [List.length_cons] at hf
      by_cases hblock : copied.drop (copied.length - stride) = (x :: rest).take stride
      · simp only [scan, hblock, ↓reduceIte]
        refine ih (by simp; omega) hlen (fun i hi hsq => ?_) hnil
        obtain ⟨u, b, v, rfl, hrest, hdrop, rfl⟩ := block_split hlen hblock
        rw [hdrop] at hsq
        rw [hrest] at h
        exact h i hi (hsq.before_skip_same (by simp at hi; omega))
      · simp only [scan, hblock, ↓reduceIte]
        refine ih (by omega) (by simp; omega) (fun i hi hsq => ?_) ?_
        · rw [List.append_assoc, List.singleton_append] at hsq
          rw [List.length_append, List.length_singleton] at hi
          rcases Nat.lt_or_ge (i + stride) copied.length with hlt | hge
          · exact h i hlt hsq
          · obtain rfl : i = copied.length - stride := by omega
            exact hblock (block_of_squareAt hlen hsq)
        · intro h hsq
          rw [List.append_nil] at h
          exact h i (by have := hsq.1; omega) hsq

theorem pass_freeBelow {stride : ℕ} (hs : 0 < stride) {xs : List α} (hlen : stride ≤ xs.length)
    (h : FreeBelow stride xs) : FreeBelow (stride + 1) (pass stride xs) := by
  have htake : (xs.take stride).length = stride := by simp [hlen]
  intro i p hpos hp
  rcases Nat.lt_succ_iff_lt_or_eq.mp hp with hp | rfl
  · exact scan_freeBelow _ (Nat.le_of_eq htake.symm) (by rwa [List.take_append_drop]) i p hpos hp
  · exact scan_no_square hs _ (by simp) (Nat.le_of_eq htake.symm) (fun j hj => by omega) i

theorem scan_of_no_square {stride : ℕ} (fuel : ℕ) {copied rest : List α}
    (hlen : stride ≤ copied.length) (h : ∀ i, ¬ SquareAt (copied ++ rest) i stride) :
    scan stride fuel copied rest = copied ++ rest := by
  induction fuel generalizing copied rest with
  | zero => cases rest <;> simp [scan]
  | succ fuel ih =>
    cases rest with
    | nil => simp [scan]
    | cons x rest =>
      have hblock : ¬ copied.drop (copied.length - stride) = (x :: rest).take stride :=
        fun hblock => h _ (squareAt_of_block hlen hblock)
      simp only [scan, hblock, ↓reduceIte]
      rw [ih (by simp; omega) (by simpa using h), List.append_assoc, List.singleton_append]

theorem pass_of_squareFree {stride : ℕ} (hs : 0 < stride) {xs : List α}
    (hlen : stride ≤ xs.length) (h : SquareFree xs) : pass stride xs = xs := by
  rw [pass, scan_of_no_square, List.take_append_drop]
  · simp [hlen]
  · rw [List.take_append_drop]
    exact fun i => squareFree_iff.mp h i stride hs

theorem collapse_invariant {P : List α → Prop}
    (hpass : ∀ stride xs, 0 < stride → 2 * stride < xs.length → P xs → P (pass stride xs))
    {xs ys : List α} (h : collapse xs = some ys) (hxs : P xs) : P ys := by
  obtain ⟨s, hrun, rfl⟩ := Option.map_eq_some_iff.mp h
  have hinv := WhileLoop.run_invariant (fun s : ℕ × List α => 0 < s.1 ∧ P s.2)
    (by
      rintro ⟨stride, seq⟩ s' ⟨hpos, hP⟩ hc hbody
      obtain rfl := Option.some.inj hbody
      exact ⟨Nat.succ_pos _, hpass stride seq hpos (of_decide_eq_true hc) hP⟩)
    xs.length ⟨Nat.one_pos, hxs⟩ hrun
  exact hinv.1.2

theorem collapse_freeBelow {xs ys : List α} (h : collapse xs = some ys) :
    ∃ k, ys.length ≤ 2 * k ∧ FreeBelow k ys := by
  obtain ⟨s, hrun, rfl⟩ := Option.map_eq_some_iff.mp h
  obtain ⟨⟨-, hfree⟩, hexit⟩ := WhileLoop.run_invariant
    (fun s : ℕ × List α => 0 < s.1 ∧ FreeBelow s.1 s.2)
    (by
      rintro ⟨stride, seq⟩ s' ⟨hpos, hfree⟩ hc hbody
      obtain rfl := Option.some.inj hbody
      have hc : 2 * stride < seq.length := of_decide_eq_true hc
      have hlen : stride ≤ seq.length := by omega
      exact ⟨Nat.succ_pos _, pass_freeBelow hpos hlen hfree⟩)
    xs.length ⟨Nat.one_pos, fun i p hpos hp => by omega⟩ hrun
  refine ⟨s.1, ?_, hfree⟩
  simp only [decide_eq_false_iff_not] at hexit
  omega

/-- A last entry that occurs nowhere else keeps longer squares away. -/
theorem collapse_squareFree {z : α} {xs : List α} (hz : z ∉ xs) :
    ∃ ys, collapse (xs ++ [z]) = some ys ∧ SquareFree ys := by
  obtain ⟨ys, hrun, hend⟩ := collapse_concat hz
  obtain ⟨k, hk, hfree⟩ := collapse_freeBelow hrun
  refine ⟨_, hrun, squareFree_iff.mpr fun i p hpos hsq => ?_⟩
  rcases Nat.lt_or_ge p k with hp | hp
  · exact hfree i p hpos hp hsq
  · -- half of the list, so the last entry has an equal one before it
    have hlen := hsq.1
    rw [List.length_append, List.length_singleton] at hlen hk
    have heq := hsq.2 (p - 1) (by omega)
    have hlast : i + p + (p - 1) = ys.length := by omega
    rw [hlast, List.getElem?_append_left (by omega), List.getElem?_concat_length] at heq
    exact hz (hend.1.subset (List.mem_of_getElem? heq))

theorem collapse_of_squareFree {xs : List α} (h : SquareFree xs) : collapse xs = some xs := by
  obtain ⟨s, hrun, ⟨-, hs⟩, -⟩ := WhileLoop.run_terminates
    (fun s : ℕ × List α => decide (2 * s.1 < s.2.length))
    (fun s => some (s.1 + 1, pass s.1 s.2))
    (fun s => 0 < s.1 ∧ s.2 = xs)
    (fun s => xs.length + 1 - s.1)
    (by
      rintro ⟨stride, seq⟩ ⟨hpos, rfl⟩ hc
      have hc : 2 * stride < seq.length := of_decide_eq_true hc
      have hlen : stride ≤ seq.length := by omega
      exact ⟨_, rfl, ⟨Nat.succ_pos _, pass_of_squareFree hpos hlen h⟩, by simp only; omega⟩)
    (s := (1, xs)) ⟨Nat.one_pos, rfl⟩ xs.length (by simp)
  rw [collapse, hrun, Option.map_some, hs]

theorem prefix_scan (stride fuel : ℕ) (copied rest : List α) :
    copied <+: scan stride fuel copied rest := by
  induction fuel generalizing copied rest with
  | zero =>
    cases rest with
    | nil => exact List.prefix_rfl
    | cons x rest => exact List.prefix_append copied (x :: rest)
  | succ fuel ih =>
    cases rest with
    | nil => exact List.prefix_rfl
    | cons x rest =>
      rw [scan]
      split_ifs
      · exact ih copied _
      · exact (List.prefix_append copied [x]).trans (ih (copied ++ [x]) rest)

theorem pass_head? {stride : ℕ} (hs : 0 < stride) (xs : List α) :
    (pass stride xs).head? = xs.head? := by
  cases xs with
  | nil => simp [pass, scan]
  | cons x xs =>
    obtain ⟨stride, rfl⟩ : ∃ n, stride = n + 1 := ⟨stride - 1, by omega⟩
    obtain ⟨ys, hys⟩ := prefix_scan (stride + 1) (x :: xs).length ((x :: xs).take (stride + 1))
      ((x :: xs).drop (stride + 1))
    rw [pass, ← hys, List.take_succ_cons]
    rfl

theorem collapse_head? {xs ys : List α} (h : collapse xs = some ys) : ys.head? = xs.head? :=
  collapse_invariant (P := fun l => l.head? = xs.head?)
    (fun _ l hs _ hl => (pass_head? hs l).trans hl) h rfl

theorem subset_scan (stride fuel : ℕ) (copied rest : List α) :
    copied ++ rest ⊆ scan stride fuel copied rest := by
  induction fuel generalizing copied rest with
  | zero => cases rest <;> simp [scan]
  | succ fuel ih =>
    cases rest with
    | nil => simp [scan]
    | cons x rest =>
      rw [scan]
      split_ifs with hblock
      · have hskipped : (x :: rest).take stride ⊆ copied := by
          rw [← hblock]
          exact List.drop_subset _ _
        refine fun a ha => ih copied _ ?_
        rw [← List.take_append_drop stride (x :: rest), List.mem_append, List.mem_append] at ha
        rcases ha with ha | ha | ha
        · exact List.mem_append_left _ ha
        · exact List.mem_append_left _ (hskipped ha)
        · exact List.mem_append_right _ ha
      · have := ih (copied ++ [x]) rest
        rwa [List.append_assoc, List.singleton_append] at this

theorem subset_pass (stride : ℕ) (xs : List α) : xs ⊆ pass stride xs := by
  have h := subset_scan stride xs.length (xs.take stride) (xs.drop stride)
  rwa [List.take_append_drop] at h

theorem subset_of_collapse {xs ys : List α} (h : collapse xs = some ys) : xs ⊆ ys :=
  collapse_invariant (P := fun l => xs ⊆ l) (fun _ l _ _ hl => List.Subset.trans hl (subset_pass _ l)) h
    (List.Subset.refl xs)

theorem collapse_isChain_of {R : α → α → Prop} {xs ys : List α} (h : collapse xs = some ys)
    (hxs : xs.IsChain R) : ys.IsChain R :=
  collapse_invariant (fun _ _ hs _ hl => pass_isChain hs hl) h hxs

theorem collapse_neighbours {xs ys : List α} (h : collapse xs = some ys) {a b : α}
    (hab : [a, b] <:+: ys) : [a, b] <:+: xs := by
  have hchain := collapse_isChain_of h (isChain_neighbours xs)
  obtain ⟨l, r, rfl⟩ := hab
  rw [List.append_assoc, List.isChain_append] at hchain
  exact (List.isChain_cons_cons.mp hchain.2.1).1

end BlockCollapse
