import Mathlib.Algebra.Order.Ring.Rat
import Mathlib.Data.Finset.SDiff
import Mathlib.Data.Finset.Dedup
import RSFuzz.FoundationNumbering
import RSFuzz.FoundationWeighted
import RSFuzz.FoundationWhileLoop
import RSFuzz.Grammar

set_option autoImplicit false

/-!
# Unrolling the operators of a rule

`trans_regexp` of `main/rsfuzzGenerator.py`: a stack of weighted alternatives
with nested lists and operators, rewritten until only flat ones are left.
-/
namespace RSFuzz
open OrderedMap Numbering Weighted

def maxRepeat : ℕ := 3

/-- An entry of an alternative. A choice has at least one option, by its form. -/
inductive Item where
  | sym (s : Sym)
  | list (items : List Item)
  /-- `(x, '?')` -/
  | optional (x : Item)
  /-- `(x, '*')` -/
  | star (x : Item)
  /-- `(x, '+')` -/
  | plus (x : Item)
  /-- `([first, *others], '|')` -/
  | choice (first : Item) (others : List Item)

namespace Item

def symbol? : Item → Option Sym
  | sym s => some s
  | _ => none

def list? : Item → Option (List Item)
  | list items => some items
  | _ => none

/-- What an operator is replaced by, in the order in which the variants are pushed, and by
    how much the weight is divided for each. -/
def variants? : Item → Option (ℕ × List (List Item))
  | sym _ => none
  | list _ => none
  | optional x => some (2, [[], [x]])
  | star x => some (maxRepeat, (List.range maxRepeat).map fun n => List.replicate n x)
  | plus x => some (maxRepeat, (List.range' 1 maxRepeat).map fun n => List.replicate n x)
  | choice first others => some ((first :: others).length, (first :: others).map fun x => [x])

end Item

/-- `xs[:idx]`, what was found at `idx`, and `xs[idx + 1:]`, for the first entry of the kind. -/
def splitFirst {α β : Type} (kind : α → Option β) : List α → Option (List α × β × List α)
  | [] => none
  | x :: xs =>
    match kind x with
    | some b => some ([], b, xs)
    | none => (splitFirst kind xs).map fun found => (x :: found.1, found.2)

/-- `[items, idx, weight]`; the index becomes the derivation number in the end. -/
structure Work where
  items : List Item
  idx : ℕ
  weight : ℚ

structure UnrollState where
  worklist : List Work
  usedSets : List (Finset Sym)
  newExpandList : List Alternative

section Unroll

variable (token : Sym)

/-- An empty alternative is written `[""]`. -/
def written (symbols : List Sym) : List Sym := if symbols = [] then [""] else symbols

def unrollWork (work : Work) (s : UnrollState) : UnrollState :=
  match splitFirst Item.list? work.items with
  | some (front, items, back) =>
    { s with worklist := { work with items := front ++ items ++ back } :: s.worklist }
  | none =>
    match splitFirst Item.variants? work.items with
    | some (front, (parts, variants), back) =>
      -- the last variant pushed is the next one popped
      { s with worklist := (variants.map fun variant =>
        { work with items := front ++ variant ++ back, weight := work.weight / parts }).reverse ++
          s.worklist }
    | none =>
      let symbols := work.items.filterMap Item.symbol?
      let workSet := symbols.toFinset \ {token}
      let usedSets := enter s.usedSets workSet
      { s with
        usedSets := usedSets
        newExpandList :=
          s.newExpandList ++ [⟨written symbols, usedSets.idxOf workSet, work.weight⟩] }

def unrollStep (s : UnrollState) : Option UnrollState :=
  match s.worklist with
  | [] => none
  | work :: rest => some (unrollWork token work { s with worklist := rest })

def unrolling (s : UnrollState) : Bool := !s.worklist.isEmpty

def initialWork (alts : List (List Item × ℚ)) : List Work :=
  (alts.zipIdx.map fun alt => ⟨alt.1.1, alt.2, alt.1.2⟩).reverse

def transRule (alts : List (List Item × ℚ)) (fuel : ℕ) : Option (List Alternative) :=
  (WhileLoop.run unrolling (unrollStep token) fuel ⟨initialWork alts, [], []⟩).map
    UnrollState.newExpandList

end Unroll

def transRegexp (ruleDict : Map Sym (List (List Item × ℚ))) (fuel : ℕ) : Option Grammar :=
  ruleDict.entries.foldlM (fun grammar rule => do
    let newExpandList ← transRule rule.1 rule.2 fuel
    return grammar.set rule.1 newExpandList) Map.empty

mutual

/-- The flat alternatives that an item stands for, each with its share of the weight. -/
def Item.meaning : Item → Words Sym ℚ
  | .sym s => {([s], 1)}
  | .list items => concatMeaning items
  | .optional x => scale (1 / 2) one + scale (1 / 2) x.meaning
  | .star x => ((List.range maxRepeat).map fun n =>
      scale (1 / (maxRepeat : ℚ)) (power x.meaning n)).sum
  | .plus x => ((List.range' 1 maxRepeat).map fun n =>
      scale (1 / (maxRepeat : ℚ)) (power x.meaning n)).sum
  | .choice first others => scale (1 / ((others.length + 1 : ℕ) : ℚ))
      (first.meaning + choiceMeaning others)

def concatMeaning : List Item → Words Sym ℚ
  | [] => one
  | x :: xs => join x.meaning (concatMeaning xs)

def choiceMeaning : List Item → Words Sym ℚ
  | [] => 0
  | x :: xs => x.meaning + choiceMeaning xs

end

def ruleMeaning (alts : List (List Item × ℚ)) : Words Sym ℚ :=
  (alts.map fun alt => scale alt.2 (concatMeaning alt.1)).sum

theorem concatMeaning_append (xs ys : List Item) :
    concatMeaning (xs ++ ys) = join (concatMeaning xs) (concatMeaning ys) := by
  induction xs with
  | nil => rw [List.nil_append, concatMeaning, one_join]
  | cons x xs ih => rw [List.cons_append, concatMeaning, concatMeaning, ih, join_assoc]

theorem concatMeaning_singleton (x : Item) : concatMeaning [x] = x.meaning := by
  rw [concatMeaning, concatMeaning, join_one]

theorem concatMeaning_replicate (n : ℕ) (x : Item) :
    concatMeaning (List.replicate n x) = power x.meaning n := by
  induction n with
  | zero => rfl
  | succ n ih => rw [List.replicate_succ, concatMeaning, ih, power]

theorem choiceMeaning_eq_sum (xs : List Item) : choiceMeaning xs = (xs.map Item.meaning).sum := by
  induction xs with
  | nil => rfl
  | cons x xs ih => rw [choiceMeaning, ih, List.map_cons, List.sum_cons]

/-- An operator means its variants, each with an equal share. -/
theorem Item.meaning_of_variants {x : Item} {parts : ℕ} {variants : List (List Item)}
    (h : x.variants? = some (parts, variants)) :
    x.meaning = (variants.map fun v => scale (1 / (parts : ℚ)) (concatMeaning v)).sum := by
  cases x with
  | sym s => cases h
  | list items => cases h
  | optional x =>
    cases h
    simp [Item.meaning, concatMeaning]
  | star x =>
    cases h
    simp only [Item.meaning, List.map_map, Function.comp_def, concatMeaning_replicate]
  | plus x =>
    cases h
    simp only [Item.meaning, List.map_map, Function.comp_def, concatMeaning_replicate]
  | choice first others =>
    cases h
    rw [Item.meaning, choiceMeaning_eq_sum, ← List.sum_cons, ← List.map_cons, scale_sum]
    simp only [List.map_map, Function.comp_def, concatMeaning_singleton, List.length_cons]

theorem concatMeaning_flat {items : List Item} (hlist : ∀ x ∈ items, x.list? = none)
    (hop : ∀ x ∈ items, x.variants? = none) :
    concatMeaning items = {(items.filterMap Item.symbol?, 1)} := by
  induction items with
  | nil => rfl
  | cons x items ih =>
    rw [concatMeaning, ih (fun y hy => hlist y (List.mem_cons_of_mem x hy))
      fun y hy => hop y (List.mem_cons_of_mem x hy)]
    have hl := hlist x (by simp)
    have ho := hop x (by simp)
    cases x with
    | sym s => simp [Item.meaning, join, Item.symbol?]
    | list items => cases hl
    | optional x => cases ho
    | star x => cases ho
    | plus x => cases ho
    | choice first others => cases ho

mutual

def Item.size : Item → ℕ
  | .sym _ => 1
  | .list items => concatSize items + 1
  | .optional x => x.size + 2
  | .star x => ((List.range maxRepeat).map fun n => x.size ^ n).sum + 1
  | .plus x => ((List.range' 1 maxRepeat).map fun n => x.size ^ n).sum + 1
  | .choice first others => first.size + choiceSize others + 1

def concatSize : List Item → ℕ
  | [] => 1
  | x :: xs => x.size * concatSize xs

def choiceSize : List Item → ℕ
  | [] => 0
  | x :: xs => x.size + choiceSize xs

end

theorem Item.size_pos (x : Item) : 0 < x.size := by
  cases x <;> simp [Item.size]

theorem concatSize_pos (xs : List Item) : 0 < concatSize xs := by
  induction xs with
  | nil => exact Nat.one_pos
  | cons x xs ih => exact Nat.mul_pos x.size_pos ih

theorem concatSize_append (xs ys : List Item) :
    concatSize (xs ++ ys) = concatSize xs * concatSize ys := by
  induction xs with
  | nil => rw [List.nil_append, concatSize, Nat.one_mul]
  | cons x xs ih => rw [List.cons_append, concatSize, concatSize, ih, Nat.mul_assoc]

theorem concatSize_replicate (n : ℕ) (x : Item) :
    concatSize (List.replicate n x) = x.size ^ n := by
  induction n with
  | zero => rfl
  | succ n ih => rw [List.replicate_succ, concatSize, ih, Nat.pow_succ, Nat.mul_comm]

theorem choiceSize_eq_sum (xs : List Item) :
    choiceSize xs = (xs.map fun x => concatSize [x]).sum := by
  induction xs with
  | nil => rfl
  | cons x xs ih => rw [choiceSize, ih, List.map_cons, List.sum_cons, concatSize, concatSize, Nat.mul_one]

theorem Item.variants_size_lt {x : Item} {parts : ℕ} {variants : List (List Item)}
    (h : x.variants? = some (parts, variants)) : (variants.map concatSize).sum < x.size := by
  cases x with
  | sym s => cases h
  | list items => cases h
  | optional x =>
    cases h
    simp only [List.map_cons, List.map_nil, List.sum_cons, List.sum_nil, concatSize, Item.size]
    omega
  | star x =>
    cases h
    simp only [Item.size, List.map_map, Function.comp_def, concatSize_replicate]
    omega
  | plus x =>
    cases h
    simp only [Item.size, List.map_map, Function.comp_def, concatSize_replicate]
    omega
  | choice first others =>
    cases h
    rw [Item.size, choiceSize_eq_sum, List.map_map, List.map_cons, List.sum_cons]
    simp only [Function.comp_def, concatSize, Nat.mul_one]
    omega

theorem splitFirst_eq_some {α β : Type} {kind : α → Option β} {xs front back : List α} {b : β}
    (h : splitFirst kind xs = some (front, b, back)) :
    ∃ x, kind x = some b ∧ xs = front ++ x :: back := by
  induction xs generalizing front with
  | nil => cases h
  | cons y xs ih =>
    unfold splitFirst at h
    split at h
    · rename_i hy
      cases h
      exact ⟨y, hy, rfl⟩
    · obtain ⟨⟨front', b', back'⟩, hfound, heq⟩ := Option.map_eq_some_iff.mp h
      cases heq
      obtain ⟨x, hx, rfl⟩ := ih hfound
      exact ⟨x, hx, rfl⟩

theorem splitFirst_eq_none {α β : Type} {kind : α → Option β} {xs : List α}
    (h : splitFirst kind xs = none) : ∀ x ∈ xs, kind x = none := by
  induction xs with
  | nil => simp
  | cons y xs ih =>
    unfold splitFirst at h
    split at h
    · cases h
    · rename_i hy
      intro x hx
      rcases List.mem_cons.mp hx with rfl | hx
      · exact hy
      · exact ih (Option.map_eq_none_iff.mp h) x hx

/-- The three cases of the body: a list is opened, an operator is unrolled, or the alternative
    is flat. -/
theorem unrollWork_cases (token : Sym) (work : Work) (s : UnrollState) :
    (∃ front items back, work.items = front ++ .list items :: back ∧
      unrollWork token work s =
        { s with worklist := { work with items := front ++ items ++ back } :: s.worklist }) ∨
    (∃ front x back parts variants, work.items = front ++ x :: back ∧
      x.variants? = some (parts, variants) ∧
      unrollWork token work s = { s with worklist := (variants.map fun v =>
        ({ work with items := front ++ v ++ back, weight := work.weight / parts } : Work)).reverse ++
          s.worklist }) ∨
    ((∀ x ∈ work.items, x.list? = none) ∧ (∀ x ∈ work.items, x.variants? = none) ∧
      unrollWork token work s = { s with
        usedSets := enter s.usedSets ((work.items.filterMap Item.symbol?).toFinset \ {token})
        newExpandList := s.newExpandList ++ [⟨written (work.items.filterMap Item.symbol?),
          (enter s.usedSets ((work.items.filterMap Item.symbol?).toFinset \ {token})).idxOf
            ((work.items.filterMap Item.symbol?).toFinset \ {token}), work.weight⟩] }) := by
  cases hlist : splitFirst Item.list? work.items with
  | some found =>
    obtain ⟨front, items, back⟩ := found
    obtain ⟨x, hx, hitems⟩ := splitFirst_eq_some hlist
    have hxl : x = .list items := by
      cases x with
      | list items' => rw [Option.some.inj hx]
      | _ => cases hx
    subst hxl
    exact Or.inl ⟨front, items, back, hitems, by simp only [unrollWork, hlist]⟩
  | none =>
    cases hop : splitFirst Item.variants? work.items with
    | some found =>
      obtain ⟨front, ⟨parts, variants⟩, back⟩ := found
      obtain ⟨x, hx, hitems⟩ := splitFirst_eq_some hop
      exact Or.inr (Or.inl ⟨front, x, back, parts, variants, hitems, hx, by
        simp only [unrollWork, hlist, hop]⟩)
    | none =>
      exact Or.inr (Or.inr ⟨splitFirst_eq_none hlist, splitFirst_eq_none hop, by
        simp only [unrollWork, hlist, hop]⟩)

def Work.meaning (work : Work) : Words Sym ℚ := scale work.weight (concatMeaning work.items)

def Work.size (work : Work) : ℕ := concatSize work.items

def stackMeaning (worklist : List Work) : Words Sym ℚ := (worklist.map Work.meaning).sum

def stackSize (worklist : List Work) : ℕ := (worklist.map Work.size).sum

theorem concatMeaning_unroll {x : Item} {parts : ℕ} {variants : List (List Item)}
    (h : x.variants? = some (parts, variants)) (front back : List Item) :
    concatMeaning (front ++ x :: back) =
      (variants.map fun v => scale (1 / (parts : ℚ)) (concatMeaning (front ++ v ++ back))).sum := by
  rw [concatMeaning_append, concatMeaning, x.meaning_of_variants h, sum_join, join_sum,
    List.map_map, List.map_map]
  congr 2
  funext v
  simp only [Function.comp_apply, scale_join, join_scale, concatMeaning_append, join_assoc]

theorem concatSize_unroll {x : Item} {parts : ℕ} {variants : List (List Item)}
    (h : x.variants? = some (parts, variants)) (front back : List Item) :
    (variants.map fun v => concatSize (front ++ v ++ back)).sum < concatSize (front ++ x :: back) := by
  have hsum : (variants.map fun v => concatSize (front ++ v ++ back)).sum =
      concatSize front * (variants.map concatSize).sum * concatSize back := by
    simp only [concatSize_append, List.sum_map_mul_right, List.sum_map_mul_left]
  rw [hsum, concatSize_append, concatSize, ← Nat.mul_assoc]
  exact Nat.mul_lt_mul_of_pos_right (Nat.mul_lt_mul_of_pos_left (x.variants_size_lt h)
    (concatSize_pos front)) (concatSize_pos back)

theorem stackMeaning_unroll {work : Work} {front back : List Item} {x : Item} {parts : ℕ}
    {variants : List (List Item)} (hitems : work.items = front ++ x :: back)
    (h : x.variants? = some (parts, variants)) (rest : List Work) :
    stackMeaning ((variants.map fun v => ({ work with
        items := front ++ v ++ back, weight := work.weight / parts } : Work)).reverse ++ rest) =
      work.meaning + stackMeaning rest := by
  have hperm := ((List.reverse_perm (variants.map fun v => ({ work with
    items := front ++ v ++ back, weight := work.weight / parts } : Work))).map Work.meaning).sum_eq
  rw [stackMeaning, List.map_append, List.sum_append, hperm, List.map_map, Work.meaning, hitems,
    concatMeaning_unroll h, scale_sum, List.map_map]
  congr 3
  funext v
  simp only [Function.comp_apply, Work.meaning, scale_scale]
  congr 1
  ring

theorem stackSize_unroll {work : Work} {front back : List Item} {x : Item} {parts : ℕ}
    {variants : List (List Item)} (hitems : work.items = front ++ x :: back)
    (h : x.variants? = some (parts, variants)) (rest : List Work) :
    stackSize ((variants.map fun v => ({ work with
        items := front ++ v ++ back, weight := work.weight / parts } : Work)).reverse ++ rest) <
      work.size + stackSize rest := by
  have hperm := ((List.reverse_perm (variants.map fun v => ({ work with
    items := front ++ v ++ back, weight := work.weight / parts } : Work))).map Work.size).sum_eq
  rw [stackSize, List.map_append, List.sum_append, hperm, List.map_map, Work.size, hitems]
  exact Nat.add_lt_add_right (concatSize_unroll h front back) _

/-- The alternatives produced so far, before an empty one is written out, stand next to what
    the stack still means. -/
structure UnrollInvariant (token : Sym) (goal : Words Sym ℚ) (s : UnrollState)
    (flats : List Alternative) : Prop where
  meaning : stackMeaning s.worklist +
    (flats.map fun f => (f.expansion, f.prob) : List (List Sym × ℚ)) = goal
  writtenOut : s.newExpandList = flats.map fun f => { f with expansion := written f.expansion }
  numbered : Numbered s.usedSets (flats.map fun f => (f.expansion.toFinset \ {token}, f.derivNum))

theorem UnrollInvariant.step {token : Sym} {goal : Words Sym ℚ} {s : UnrollState}
    {flats : List Alternative} (h : UnrollInvariant token goal s flats)
    (hne : unrolling s = true) :
    ∃ s', unrollStep token s = some s' ∧ (∃ flats', UnrollInvariant token goal s' flats') ∧
      stackSize s'.worklist < stackSize s.worklist := by
  obtain ⟨worklist, usedSets, newExpandList⟩ := s
  obtain ⟨work, rest, rfl⟩ : ∃ work rest, worklist = work :: rest :=
    List.exists_cons_of_ne_nil (by simpa [unrolling] using hne)
  obtain ⟨hmeaning, hwritten, hnumbered⟩ := h
  have hstack : stackMeaning (work :: rest) = work.meaning + stackMeaning rest := by
    rw [stackMeaning, List.map_cons, List.sum_cons]
    rfl
  have hsize : stackSize (work :: rest) = work.size + stackSize rest := by
    rw [stackSize, List.map_cons, List.sum_cons]
    rfl
  refine ⟨_, rfl, ?_⟩
  simp only [hstack, hsize] at hmeaning ⊢
  rcases unrollWork_cases token work ⟨rest, usedSets, newExpandList⟩ with
    ⟨front, items, back, hitems, hrun⟩ | ⟨front, x, back, parts, variants, hitems, hx, hrun⟩ |
    ⟨hlist, hop, hrun⟩
  · rw [hrun]
    refine ⟨⟨flats, ?_, hwritten, hnumbered⟩, ?_⟩
    · rw [← hmeaning]
      congr 1
      rw [stackMeaning, List.map_cons, List.sum_cons, Work.meaning, Work.meaning, hitems]
      simp only [concatMeaning_append, concatMeaning, Item.meaning, join_assoc]
      rfl
    · rw [stackSize, List.map_cons, List.sum_cons, Work.size, Work.size, hitems]
      simp only [concatSize_append, concatSize, Item.size]
      refine Nat.add_lt_add_right ?_ _
      rw [Nat.mul_assoc]
      exact Nat.mul_lt_mul_of_pos_left (Nat.mul_lt_mul_of_pos_right (Nat.lt_succ_self _)
        (concatSize_pos back)) (concatSize_pos front)
  · rw [hrun]
    refine ⟨⟨flats, ?_, hwritten, hnumbered⟩, stackSize_unroll hitems hx rest⟩
    rw [← hmeaning, stackMeaning_unroll hitems hx]
  · rw [hrun]
    let symbols := work.items.filterMap Item.symbol?
    let workSet := symbols.toFinset \ {token}
    let flat : Alternative := ⟨symbols, (enter usedSets workSet).idxOf workSet, work.weight⟩
    have hflat : work.meaning = {(flat.expansion, flat.prob)} := by
      rw [Work.meaning, concatMeaning_flat hlist hop, scale, Multiset.map_singleton, one_mul]
    refine ⟨⟨flats ++ [flat], ?_, ?_, ?_⟩, ?_⟩
    · rw [← hmeaning, hflat, List.map_append, List.map_singleton, ← Multiset.coe_add,
        Multiset.coe_singleton]
      ac_rfl
    · rw [List.map_append, ← hwritten]
      rfl
    · rw [List.map_append, List.map_singleton]
      exact hnumbered.enter _
    · exact Nat.lt_add_of_pos_left (concatSize_pos _)

theorem ruleMeaning_initial (alts : List (List Item × ℚ)) :
    stackMeaning (initialWork alts) = ruleMeaning alts := by
  have hperm := ((List.reverse_perm (alts.zipIdx.map fun alt =>
    (⟨alt.1.1, alt.2, alt.1.2⟩ : Work))).map Work.meaning).sum_eq
  have hfst : alts.zipIdx.map Prod.fst = alts := List.zipIdx_map_fst 0 alts
  rw [stackMeaning, initialWork, hperm, ruleMeaning]
  conv_rhs => rw [← hfst]
  rw [List.map_map, List.map_map]
  rfl

theorem total_copies {m : Words Sym ℚ} (hm : total m = 1) (r : ℚ) (counts : List ℕ) :
    total (counts.map fun n => scale r (power m n)).sum = counts.length * r := by
  rw [total_sum, List.map_map]
  have hone : total ∘ (fun n => scale r (power m n)) = fun _ => r := by
    funext n
    rw [Function.comp_apply, total_scale, total_power m hm, one_mul]
  rw [hone, List.map_const', List.sum_replicate, nsmul_eq_mul]

mutual

theorem Item.total_meaning : ∀ x : Item, total x.meaning = 1
  | .sym s => by simp [Item.meaning, total]
  | .list items => by rw [Item.meaning, total_concatMeaning items]
  | .optional x => by
    rw [Item.meaning, total_add, total_scale, total_scale, total_one, x.total_meaning]
    norm_num
  | .star x => by
    rw [Item.meaning, total_copies x.total_meaning, List.length_range]
    norm_num [maxRepeat]
  | .plus x => by
    rw [Item.meaning, total_copies x.total_meaning, List.length_range']
    norm_num [maxRepeat]
  | .choice first others => by
    have hpos : ((others.length + 1 : ℕ) : ℚ) ≠ 0 := Nat.cast_ne_zero.mpr (Nat.succ_ne_zero _)
    rw [Item.meaning, total_scale, total_add, first.total_meaning, total_choiceMeaning others,
      Nat.cast_succ, add_comm, mul_one_div_cancel (by exact_mod_cast hpos)]

theorem total_concatMeaning : ∀ xs : List Item, total (concatMeaning xs) = 1
  | [] => total_one
  | x :: xs => by
    rw [concatMeaning, total_join, x.total_meaning, total_concatMeaning xs, one_mul]

theorem total_choiceMeaning : ∀ xs : List Item, total (choiceMeaning xs) = xs.length
  | [] => by simp [choiceMeaning]
  | x :: xs => by
    rw [choiceMeaning, total_add, x.total_meaning, total_choiceMeaning xs, List.length_cons,
      Nat.cast_succ, add_comm]

end

theorem total_ruleMeaning (alts : List (List Item × ℚ)) :
    total (ruleMeaning alts) = (alts.map Prod.snd).sum := by
  rw [ruleMeaning, total_sum, List.map_map]
  congr 2
  funext alt
  rw [Function.comp_apply, total_scale, total_concatMeaning, one_mul]

structure RuleUnrolled (token : Sym) (alts : List (List Item × ℚ)) (flats : List Alternative) :
    Prop where
  meaning : ((flats.map fun f => (f.expansion, f.prob) : List (List Sym × ℚ)) : Words Sym ℚ) =
    ruleMeaning alts
  numbers : ∀ f ∈ flats, ∀ f' ∈ flats, f.derivNum = f'.derivNum ↔
    f.expansion.toFinset \ {token} = f'.expansion.toFinset \ {token}

theorem transRule_unrolls (token : Sym) (alts : List (List Item × ℚ)) :
    ∃ fuel₀ flats, (∀ fuel, fuel₀ ≤ fuel → transRule token alts fuel =
        some (flats.map fun f => { f with expansion := written f.expansion })) ∧
      RuleUnrolled token alts flats := by
  have h0 : UnrollInvariant token (ruleMeaning alts) ⟨initialWork alts, [], []⟩ [] :=
    ⟨by rw [ruleMeaning_initial]; exact add_zero _, rfl, .nil⟩
  obtain ⟨s, hrun, ⟨flats, hinv⟩, hexit⟩ := WhileLoop.run_terminates unrolling (unrollStep token)
    (fun s => ∃ flats, UnrollInvariant token (ruleMeaning alts) s flats)
    (fun s => stackSize s.worklist) (fun s ⟨flats, hs⟩ hc => hs.step hc) ⟨[], h0⟩ _ le_rfl
  have hempty : s.worklist = [] := by simpa [unrolling] using hexit
  refine ⟨_, flats, fun fuel hfuel => by
    rw [transRule, WhileLoop.run_mono hfuel hrun, Option.map_some, hinv.writtenOut], ?_, ?_⟩
  · rw [← hinv.meaning, hempty]
    exact (zero_add _).symm
  · intro f hf f' hf'
    exact hinv.numbered.eq_iff (List.mem_map.mpr ⟨f, hf, rfl⟩) (List.mem_map.mpr ⟨f', hf', rfl⟩)

theorem RuleUnrolled.weight {token : Sym} {alts : List (List Item × ℚ)} {flats : List Alternative}
    (h : RuleUnrolled token alts flats) :
    (flats.map Alternative.prob).sum = (alts.map Prod.snd).sum := by
  rw [← total_ruleMeaning, ← h.meaning, total, Multiset.map_coe, Multiset.sum_coe, List.map_map]
  rfl

theorem foldlM_transRule (entries : List (Sym × List (List Item × ℚ))) (grammar : Grammar)
    (hfresh : (grammar.keys ++ entries.map Prod.fst).Nodup) :
    ∃ fuel₀ grammar', (∀ fuel, fuel₀ ≤ fuel → entries.foldlM (fun (g : Grammar) rule => do
          let newExpandList ← transRule rule.1 rule.2 fuel
          return g.set rule.1 newExpandList) grammar = some grammar') ∧
      grammar'.keys = grammar.keys ++ entries.map Prod.fst ∧
      (∀ token ∈ grammar.keys, grammar'.get? token = grammar.get? token) ∧
      ∀ token alts, (token, alts) ∈ entries → ∃ flats, grammar'.get? token =
        some (flats.map fun f => { f with expansion := written f.expansion }) ∧
          RuleUnrolled token alts flats := by
  induction entries generalizing grammar with
  | nil => exact ⟨0, grammar, fun _ _ => rfl, by simp, fun _ _ => rfl, by simp⟩
  | cons rule entries ih =>
    obtain ⟨token, alts⟩ := rule
    obtain ⟨fuel₁, flats, hrun, hspec⟩ := transRule_unrolls token alts
    have hout : token ∉ grammar.keys := fun hmem =>
      (List.nodup_append.mp hfresh).2.2 token hmem token (by simp) rfl
    generalize hlist : (flats.map fun f => { f with expansion := written f.expansion }) = list at hrun
    have hkeys : (grammar.set token list).keys = grammar.keys ++ [token] := by
      rw [Map.keys, Map.entries_set_fresh _ _ _ hout, List.map_append]
      rfl
    obtain ⟨fuel₂, grammar', hmore, hall, hold, hrules⟩ := ih (grammar.set token list)
      (by rw [hkeys]; simpa using hfresh)
    have htoken : grammar'.get? token = some list := by
      rw [hold token (by simp [hkeys]), Map.get?_set_self]
    refine ⟨max fuel₁ fuel₂, grammar', fun fuel hfuel => ?_, by simp [hall, hkeys], ?_, ?_⟩
    · rw [List.foldlM_cons]
      simp only [hrun fuel (le_of_max_le_left hfuel), Option.bind_eq_bind, Option.bind_some,
        Option.pure_def]
      exact hmore fuel (le_of_max_le_right hfuel)
    · intro other hother
      rw [hold other (by simp [hkeys, hother]), Map.get?_set_of_ne]
      rintro rfl
      exact hout hother
    · intro other others hmem
      rcases List.mem_cons.mp hmem with heq | hmem
      · obtain ⟨rfl, rfl⟩ := Prod.mk.inj heq
        exact ⟨flats, by rw [htoken, hlist], hspec⟩
      · exact hrules other others hmem

/-- Unrolling ends. Every rule gets exactly the flat alternatives that its operators mean, with
    the same total weight, and numbers that are equal exactly for equal symbol sets. -/
theorem transRegexp_exact (ruleDict : Map Sym (List (List Item × ℚ))) :
    ∃ fuel₀ grammar, (∀ fuel, fuel₀ ≤ fuel → transRegexp ruleDict fuel = some grammar) ∧
      grammar.keys = ruleDict.keys ∧
      ∀ token alts, ruleDict.get? token = some alts → ∃ flats : List Alternative,
        grammar.get? token =
          some (flats.map fun f => { f with expansion := written f.expansion }) ∧
        ((flats.map fun f => (f.expansion, f.prob) : List (List Sym × ℚ)) : Words Sym ℚ) =
          ruleMeaning alts ∧
        (flats.map Alternative.prob).sum = (alts.map Prod.snd).sum ∧
        ∀ f ∈ flats, ∀ f' ∈ flats, f.derivNum = f'.derivNum ↔
          f.expansion.toFinset \ {token} = f'.expansion.toFinset \ {token} := by
  obtain ⟨fuel₀, grammar, hrun, hkeys, -, hrules⟩ :=
    foldlM_transRule ruleDict.entries Map.empty (by simpa [Map.keys, Map.empty] using ruleDict.nodupKeys)
  refine ⟨fuel₀, grammar, hrun, hkeys, fun token alts halts => ?_⟩
  obtain ⟨flats, hget, hspec⟩ := hrules token alts ((Map.get?_eq_some_iff _ _ _).mp halts)
  exact ⟨flats, hget, hspec.meaning, hspec.weight, hspec.numbers⟩

def listRules : Map Sym (List (List Item × ℚ)) :=
  ⟨[("list", [([.sym "x", .star (.list [.sym ",", .sym "x"])], 3), ([.optional (.sym "y")], 1)])],
    by decide⟩

theorem transRegexp_exact_list :
    (transRegexp listRules 10).map Map.entries = some [("list",
      [⟨["y"], 0, 1 / 2⟩, ⟨[""], 1, 1 / 2⟩, ⟨["x", ",", "x", ",", "x"], 2, 1⟩, ⟨["x", ",", "x"], 2, 1⟩,
        ⟨["x"], 3, 1⟩])] ∧
    ∃ fuel₀ grammar, (∀ fuel, fuel₀ ≤ fuel → transRegexp listRules fuel = some grammar) ∧
      ∃ flats : List Alternative,
        grammar.get? "list" =
          some (flats.map fun f => { f with expansion := written f.expansion }) ∧
        (flats.map Alternative.prob).sum = 4 := by
  refine ⟨by decide +kernel, ?_⟩
  obtain ⟨fuel₀, grammar, hrun, -, hrules⟩ := transRegexp_exact listRules
  obtain ⟨flats, hget, -, hweight, -⟩ := hrules "list" _ rfl
  refine ⟨fuel₀, grammar, hrun, flats, hget, ?_⟩
  rw [hweight]
  norm_num

end RSFuzz
