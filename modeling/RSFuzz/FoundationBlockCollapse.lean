import Mathlib.Data.List.Chain
import RSFuzz.FoundationSubsequence
import RSFuzz.FoundationWhileLoop

set_option autoImplicit false

/-!
# Collapsing repeated blocks

`pass stride xs` copies `xs` and skips a block of length `stride` that equals
the block copied last. `collapse` makes one pass for every stride below half
of the length.
-/
namespace BlockCollapse
open Subsequence
open scoped List

variable {α : Type*} [DecidableEq α]

/-- `copied` is what has been kept of the entries before `rest`. A fuel of `rest.length` is
    enough for positive strides. -/
def scan (stride : ℕ) : ℕ → List α → List α → List α
  | _, copied, [] => copied
  | 0, copied, x :: rest => copied ++ x :: rest
  | fuel + 1, copied, x :: rest =>
    if copied.drop (copied.length - stride) = (x :: rest).take stride then
      scan stride fuel copied ((x :: rest).drop stride)
    else scan stride fuel (copied ++ [x]) rest

def pass (stride : ℕ) (xs : List α) : List α :=
  scan stride xs.length (xs.take stride) (xs.drop stride)

/-- The loop over strides; every round but the last needs `2 * stride < length`. -/
def collapse (xs : List α) : Option (List α) :=
  (WhileLoop.run (fun s : ℕ × List α => decide (2 * s.1 < s.2.length))
    (fun s => some (s.1 + 1, pass s.1 s.2)) xs.length (1, xs)).map Prod.snd

omit [DecidableEq α] in
theorem getLast?_block {stride : ℕ} (hs : 0 < stride) {copied rest : List α} {x : α}
    (hblock : copied.drop (copied.length - stride) = (x :: rest).take stride) :
    (x :: rest).take stride ≠ [] ∧ copied.getLast? = ((x :: rest).take stride).getLast? := by
  have hne : (x :: rest).take stride ≠ [] := by
    rw [ne_eq, List.take_eq_nil_iff]
    simp only [reduceCtorEq, or_false]
    omega
  refine ⟨hne, ?_⟩
  rw [← hblock, List.getLast?_drop, if_neg]
  intro hle
  rw [← hblock] at hne
  exact hne (List.drop_of_length_le hle)

/-- One scan in front of a last entry that occurs nowhere else: the entry stays last, and what
    is kept before it ends where the input before it ends. -/
theorem scan_concat {stride : ℕ} (hs : 0 < stride) {z : α} (fuel : ℕ)
    {copied read rest : List α} (hc : EndsIn copied read) (hz : z ∉ copied) (hzr : z ∉ rest) :
    ∃ ys, scan stride fuel copied (rest ++ [z]) = ys ++ [z] ∧ EndsIn ys (read ++ rest) := by
  induction fuel generalizing copied read rest with
  | zero =>
    refine ⟨copied ++ rest, ?_, ?_⟩
    · cases rest <;> simp [scan]
    · refine ⟨hc.1.append (List.Sublist.refl rest), ?_⟩
      rw [List.getLast?_append, List.getLast?_append, hc.2]
  | succ fuel ih =>
    cases rest with
    | nil =>
      have hne : ¬ copied.drop (copied.length - stride) = [z].take stride := by
        intro he
        have : z ∈ copied.drop (copied.length - stride) := by
          rw [he, List.take_of_length_le hs]
          exact List.mem_singleton_self z
        exact hz (List.mem_of_mem_drop this)
      refine ⟨copied, ?_, by simpa using hc⟩
      simp only [List.nil_append, scan, hne, ↓reduceIte]
    | cons x rest =>
      rw [List.cons_append]
      by_cases hblock : copied.drop (copied.length - stride) = (x :: (rest ++ [z])).take stride
      · have hlen : stride ≤ (x :: rest).length := by
          by_contra hlt
          have hmem : z ∈ (x :: (rest ++ [z])).take stride := by
            rw [List.take_of_length_le (by simp at hlt ⊢; omega)]
            simp
          rw [← hblock] at hmem
          exact hz (List.mem_of_mem_drop hmem)
        have htake : (x :: (rest ++ [z])).take stride = (x :: rest).take stride := by
          rw [← List.cons_append, List.take_append_of_le_length hlen]
        have hdrop : (x :: (rest ++ [z])).drop stride = (x :: rest).drop stride ++ [z] := by
          rw [← List.cons_append, List.drop_append_of_le_length hlen]
        simp only [scan, hblock, ↓reduceIte, hdrop]
        rw [htake] at hblock
        have hread : EndsIn copied (read ++ (x :: rest).take stride) := by
          refine ⟨hc.1.trans (List.sublist_append_left _ _), ?_⟩
          obtain ⟨hne, hlast⟩ := getLast?_block hs hblock
          rw [List.getLast?_append_of_ne_nil _ hne, hlast]
        obtain ⟨ys, hys, hend⟩ := ih hread hz (fun hm => hzr (List.mem_of_mem_drop hm))
        refine ⟨ys, hys, ?_⟩
        rwa [List.append_assoc, List.take_append_drop] at hend
      · simp only [scan, hblock, ↓reduceIte]
        have hz' : z ∉ copied ++ [x] := by
          intro hm
          rcases List.mem_append.mp hm with hm | hm
          · exact hz hm
          · exact hzr (by rw [List.mem_singleton.mp hm]; exact List.mem_cons_self)
        obtain ⟨ys, hys, hend⟩ := ih ((endsIn_concat_iff copied read x x).mpr ⟨hc.1, rfl⟩) hz'
          (fun hm => hzr (List.mem_cons_of_mem x hm))
        exact ⟨ys, hys, by simpa using hend⟩

theorem pass_concat {stride : ℕ} (hs : 0 < stride) {z : α} {xs : List α}
    (hlen : stride ≤ xs.length) (hz : z ∉ xs) :
    ∃ ys, pass stride (xs ++ [z]) = ys ++ [z] ∧ EndsIn ys xs := by
  obtain ⟨ys, hys, hend⟩ := scan_concat hs (xs ++ [z]).length (EndsIn.refl (xs.take stride))
    (fun hm => hz (List.mem_of_mem_take hm)) (fun hm => hz (List.mem_of_mem_drop (i := stride) hm))
  refine ⟨ys, ?_, by rwa [List.take_append_drop] at hend⟩
  rw [pass, List.take_append_of_le_length hlen, List.drop_append_of_le_length hlen]
  exact hys

/-- The loop ends, and keeps a subsequence with the same two last entries. -/
theorem collapse_concat {z : α} {xs : List α} (hz : z ∉ xs) :
    ∃ ys, collapse (xs ++ [z]) = some (ys ++ [z]) ∧ EndsIn ys xs := by
  obtain ⟨s, hrun, ⟨-, ys, hys, hend⟩, -⟩ := WhileLoop.run_terminates
    (fun s : ℕ × List α => decide (2 * s.1 < s.2.length))
    (fun s => some (s.1 + 1, pass s.1 s.2))
    (fun s => 0 < s.1 ∧ ∃ ys, s.2 = ys ++ [z] ∧ EndsIn ys xs)
    (fun s => xs.length + 1 - s.1)
    (by
      rintro ⟨stride, _⟩ ⟨hpos, ys, rfl, hend⟩ hc
      have hc : 2 * stride < (ys ++ [z]).length := of_decide_eq_true hc
      rw [List.length_append, List.length_singleton] at hc
      have hle := hend.length_le
      obtain ⟨ys', hys', hend'⟩ := pass_concat hpos (by omega : stride ≤ ys.length)
        (fun hm => hz (hend.1.subset hm))
      exact ⟨_, rfl, ⟨Nat.succ_pos _, ys', hys', hend'.trans hend⟩, by simp only at hpos ⊢; omega⟩)
    (s := (1, xs ++ [z])) ⟨Nat.one_pos, xs, rfl, EndsIn.refl xs⟩ (xs ++ [z]).length
    (by simp)
  exact ⟨ys, by rw [collapse, hrun, Option.map_some, hys], hend⟩

theorem scan_isChain {R : α → α → Prop} {stride : ℕ} (hs : 0 < stride) (fuel : ℕ)
    {copied rest : List α} (h : (copied ++ rest).IsChain R) :
    (scan stride fuel copied rest).IsChain R := by
  induction fuel generalizing copied rest with
  | zero => cases rest <;> simpa [scan] using h
  | succ fuel ih =>
    cases rest with
    | nil => simpa [scan] using h
    | cons x rest =>
      by_cases hblock : copied.drop (copied.length - stride) = (x :: rest).take stride
      · simp only [scan, hblock, ↓reduceIte]
        apply ih
        obtain ⟨-, hlast⟩ := getLast?_block hs hblock
        rw [← List.take_append_drop stride (x :: rest), List.isChain_append,
          List.isChain_append] at h
        rw [List.isChain_append]
        refine ⟨h.1, h.2.1.2.1, fun a ha b hb => h.2.1.2.2 a (hlast ▸ ha) b hb⟩
      · simp only [scan, hblock, ↓reduceIte]
        exact ih (by simpa using h)

theorem pass_isChain {R : α → α → Prop} {stride : ℕ} (hs : 0 < stride) {xs : List α}
    (h : xs.IsChain R) : (pass stride xs).IsChain R :=
  scan_isChain hs _ (by rwa [List.take_append_drop])

example : collapse [1, 2, 1, 2, 1, 2, 3, 9] = some [1, 2, 3, 9] := by decide

end BlockCollapse
