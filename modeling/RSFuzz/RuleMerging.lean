import RSFuzz.RuleInclusion
import RSFuzz.SequenceShape

set_option autoImplicit false

/-!
# Merging rules

`merge_rules`: rules that differ in one sequence, where these sequences go
through all alternatives of one symbol, are replaced by a rule about the
alternatives of the symbol above it. `none` stands for an exception.
-/
namespace RSFuzz
open OrderedMap OptionFold Subsequence

theorem existsUnique_of_card {rs : RuleSet} (h : rs.card = 1) : ∃! s, s ∈ rs ∧ True := by
  obtain ⟨s, rfl⟩ := Finset.card_eq_one.mp h
  exact ⟨s, by simp, fun t ht => Finset.mem_singleton.mp ht.1⟩

def theOnly? (rs : RuleSet) : Option Sequence :=
  if h : rs.card = 1 then some (rs.choose (fun _ => True) (existsUnique_of_card h)) else none

def addIntersection (rs1 : RuleSet) (inters : List RuleSet) (rs2 : RuleSet) : List RuleSet :=
  let tmpInter := rs1 ∩ rs2
  if rs1.card = rs2.card ∧ tmpInter.card + 1 = rs1.card then
    if tmpInter ∈ inters then inters else inters ++ [tmpInter]
  else inters

def intersections : List RuleSet → List RuleSet → List RuleSet
  | [], inters => inters
  | rs1 :: rest, inters => intersections rest (rest.foldl (addIntersection rs1) inters)

/-- Pairs of a rule's index and the one sequence it has outside the intersection. -/
def subpathsToMerge (rss : List RuleSet) (inter : RuleSet) : List (ℕ × Sequence) :=
  rss.zipIdx.filterMap fun p => (theOnly? (p.1 \ inter)).map fun s => (p.2, s)

def similarTo (stm : List (ℕ × Sequence)) (subpath : Sequence) : List (ℕ × Sequence) :=
  stm.filter fun other => subpath ≠ other.2 ∧ subpath.symbols = other.2.symbols

def similarSubpaths (stm : List (ℕ × Sequence)) (subpath : Sequence) : Finset Sequence :=
  insert subpath ((similarTo stm subpath).map Prod.snd).toFinset

/-- `subpath1[:-2]+tuple([dn])` for every alternative of `subpath1[-3]` with `subpath1[-2]`. -/
def parentSubpaths (G : Grammar) (subpath : Sequence) : Option (List Sequence) :=
  if h : subpath.symbols.dropLast ≠ [] then
    (G.get? (subpath.symbols.dropLast.getLast h)).map fun alternatives =>
      (alternatives.filter fun a => subpath.lastSymbol ∈ a.expansion).map fun a =>
        ⟨subpath.symbols.dropLast, a.derivNum, h⟩
  else none

/-- `acc` is `merged_idx` and `merged_subpaths`. -/
def mergeSubpath (G : Grammar) (stm : List (ℕ × Sequence)) (acc : Finset ℕ × List Sequence)
    (item : ℕ × Sequence) : Option (Finset ℕ × List Sequence) := do
  let alternatives ← G.get? item.2.lastSymbol
  if (similarSubpaths stm item.2).card = alternatives.length then
    (parentSubpaths G item.2).map fun subpaths =>
      (acc.1 ∪ insert item.1 ((similarTo stm item.2).map Prod.fst).toFinset,
        insertAll acc.2 subpaths)
  else some acc

def addMerged (inter : RuleSet) (result : List RuleSet) (subpath : Sequence) : List RuleSet :=
  if insert subpath inter ∈ result then result else result ++ [insert subpath inter]

/-- The orders in which `subpaths_to_merge` and `merged_subpaths` are iterated. -/
structure MergeOrder where
  toMerge : IterationOrder (ℕ × Sequence)
  merged : IterationOrder Sequence

def mergeIntersection (G : Grammar) (order : MergeOrder) (rss : List RuleSet)
    (acc : Finset ℕ × List RuleSet) (inter : RuleSet) : Option (Finset ℕ × List RuleSet) := do
  let stm := subpathsToMerge rss inter
  let (mergedIdx, mergedSubpaths) ←
    (order.toMerge.list stm).foldlM (mergeSubpath G stm) (acc.1, [])
  return (mergedIdx, (order.merged.list mergedSubpaths).foldl (addMerged inter) acc.2)

def mergeRules (G : Grammar) (order : MergeOrder) (rss : List RuleSet) :
    Option (List RuleSet) := do
  let (mergedIdx, mergeResult) ←
    (intersections rss []).foldlM (mergeIntersection G order rss) (∅, [])
  return mergeResult ++ (rss.zipIdx.filter fun p => p.2 ∉ mergedIdx).map Prod.fst

theorem theOnly?_eq_some_iff (rs : RuleSet) (s : Sequence) : theOnly? rs = some s ↔ rs = {s} := by
  unfold theOnly?
  constructor
  · intro h
    split_ifs at h with hc
    obtain ⟨t, rfl⟩ := Finset.card_eq_one.mp hc
    have hmem := Finset.choose_mem (fun _ => True) {t} (existsUnique_of_card hc)
    rw [Option.some.inj h] at hmem
    rw [Finset.mem_singleton.mp hmem]
  · rintro rfl
    have hc : ({s} : RuleSet).card = 1 := Finset.card_singleton s
    rw [dif_pos hc]
    exact congrArg some
      (Finset.mem_singleton.mp (Finset.choose_mem (fun _ => True) {s} (existsUnique_of_card hc)))

theorem mem_subpathsToMerge {rss : List RuleSet} {inter : RuleSet} {idx : ℕ} {s : Sequence} :
    (idx, s) ∈ subpathsToMerge rss inter ↔ ∃ rs, rss[idx]? = some rs ∧ rs \ inter = {s} := by
  rw [subpathsToMerge, List.mem_filterMap]
  constructor
  · rintro ⟨⟨rs, i⟩, hp, hs⟩
    obtain ⟨t, ht, he⟩ := Option.map_eq_some_iff.mp hs
    obtain ⟨rfl, rfl⟩ := Prod.mk.inj he
    exact ⟨rs, List.mem_zipIdx_iff_getElem?.mp hp, (theOnly?_eq_some_iff _ _).mp ht⟩
  · rintro ⟨rs, hrs, hsingle⟩
    refine ⟨(rs, idx), List.mem_zipIdx_iff_getElem?.mpr hrs, ?_⟩
    rw [(theOnly?_eq_some_iff _ _).mpr hsingle]
    rfl

theorem mem_similarSubpaths {stm : List (ℕ × Sequence)} {idx : ℕ} {s : Sequence}
    (hs : (idx, s) ∈ stm) (x : Sequence) :
    x ∈ similarSubpaths stm s ↔ (∃ i, (i, x) ∈ stm) ∧ x.symbols = s.symbols := by
  simp only [similarSubpaths, similarTo, Finset.mem_insert, List.mem_toFinset, List.mem_map,
    List.mem_filter, decide_eq_true_eq]
  constructor
  · rintro (rfl | ⟨⟨i, y⟩, ⟨hy, -, hsym⟩, rfl⟩)
    · exact ⟨⟨idx, hs⟩, rfl⟩
    · exact ⟨⟨i, hy⟩, hsym.symm⟩
  · rintro ⟨⟨i, hx⟩, hsym⟩
    by_cases he : x = s
    · exact Or.inl he
    · exact Or.inr ⟨(i, x), ⟨hx, fun h => he h.symm, hsym.symm⟩, rfl⟩

/-- The sequences that share all symbols with `s` go through all alternatives of its last one. -/
def Complete (G : Grammar) (stm : List (ℕ × Sequence)) (s : Sequence) : Prop :=
  ∃ alternatives, G.get? s.lastSymbol = some alternatives ∧
    (similarSubpaths stm s).card = alternatives.length

theorem Sequence.lastSymbol_congr {s t : Sequence} (h : s.symbols = t.symbols) :
    s.lastSymbol = t.lastSymbol := by
  have := s.getLast?_symbols
  rw [h, t.getLast?_symbols] at this
  exact (Option.some.inj this).symm

theorem Complete.similar {G : Grammar} {stm : List (ℕ × Sequence)} {i j : ℕ} {s t : Sequence}
    (h : Complete G stm s) (hs : (i, s) ∈ stm) (ht : (j, t) ∈ stm) (hsym : t.symbols = s.symbols) :
    Complete G stm t := by
  have hsame : similarSubpaths stm t = similarSubpaths stm s := by
    ext x
    rw [mem_similarSubpaths ht, mem_similarSubpaths hs, hsym]
  obtain ⟨alternatives, hget, hcard⟩ := h
  exact ⟨alternatives, by rw [Sequence.lastSymbol_congr hsym, hget], by rw [hsame, hcard]⟩

theorem mergeSubpath_cases {G : Grammar} {stm : List (ℕ × Sequence)}
    {acc acc' : Finset ℕ × List Sequence} {item : ℕ × Sequence}
    (h : mergeSubpath G stm acc item = some acc') :
    (¬ Complete G stm item.2 ∧ acc' = acc) ∨
    (Complete G stm item.2 ∧ ∃ subpaths, parentSubpaths G item.2 = some subpaths ∧
      acc' = (acc.1 ∪ insert item.1 ((similarTo stm item.2).map Prod.fst).toFinset,
        insertAll acc.2 subpaths)) := by
  rw [mergeSubpath, Option.bind_eq_bind] at h
  obtain ⟨alternatives, hget, h⟩ := Option.bind_eq_some_iff.mp h
  split_ifs at h with hc
  · obtain ⟨subpaths, hp, rfl⟩ := Option.map_eq_some_iff.mp h
    exact Or.inr ⟨⟨alternatives, hget, hc⟩, subpaths, hp, rfl⟩
  · refine Or.inl ⟨?_, (Option.some.inj h).symm⟩
    rintro ⟨_, hget', hc'⟩
    obtain rfl := Option.some.inj (hget.symm.trans hget')
    exact hc hc'

structure MergeLoop (G : Grammar) (stm : List (ℕ × Sequence)) (start : Finset ℕ)
    (done : List (ℕ × Sequence)) (acc : Finset ℕ × List Sequence) : Prop where
  old : start ⊆ acc.1
  absorbed : ∀ idx s, (idx, s) ∈ done → Complete G stm s → idx ∈ acc.1
  sound : ∀ idx ∈ acc.1, idx ∈ start ∨ ∃ s, (idx, s) ∈ stm ∧ Complete G stm s
  subpaths : ∀ sp, sp ∈ acc.2 ↔ ∃ idx s subpaths, (idx, s) ∈ done ∧ Complete G stm s ∧
    parentSubpaths G s = some subpaths ∧ sp ∈ subpaths
  defined : ∀ idx s, (idx, s) ∈ done → Complete G stm s →
    ∃ subpaths, parentSubpaths G s = some subpaths

theorem MergeLoop.step {G : Grammar} {stm done : List (ℕ × Sequence)} {start : Finset ℕ}
    {acc acc' : Finset ℕ × List Sequence} {item : ℕ × Sequence}
    (h : MergeLoop G stm start done acc) (hitem : item ∈ stm)
    (hstep : mergeSubpath G stm acc item = some acc') :
    MergeLoop G stm start (done ++ [item]) acc' := by
  obtain ⟨i, s⟩ := item
  have hmem : ∀ idx s', (idx, s') ∈ done ++ [(i, s)] ↔ (idx, s') ∈ done ∨ idx = i ∧ s' = s := by
    simp
  rcases mergeSubpath_cases hstep with ⟨hno, rfl⟩ | ⟨hyes, subpaths, hp, rfl⟩
  · have hdone : ∀ idx s', (idx, s') ∈ done ++ [(i, s)] → Complete G stm s' → (idx, s') ∈ done := by
      intro idx s' hs' hc
      rcases (hmem idx s').mp hs' with hs' | ⟨-, rfl⟩
      · exact hs'
      · exact absurd hc hno
    refine ⟨h.old, fun idx s' hs' hc => h.absorbed idx s' (hdone idx s' hs' hc) hc, h.sound,
      fun sp => (h.subpaths sp).trans ⟨?_, ?_⟩,
      fun idx s' hs' hc => h.defined idx s' (hdone idx s' hs' hc) hc⟩
    · rintro ⟨idx, s', sps, hs', hrest⟩
      exact ⟨idx, s', sps, (hmem idx s').mpr (Or.inl hs'), hrest⟩
    · rintro ⟨idx, s', sps, hs', hc, hrest⟩
      exact ⟨idx, s', sps, hdone idx s' hs' hc, hc, hrest⟩
  · refine ⟨fun idx hidx => Finset.mem_union_left _ (h.old hidx), fun idx s' hs' hc => ?_,
      fun idx hidx => ?_, fun sp => ?_, fun idx s' hs' hc => ?_⟩
    · rcases (hmem idx s').mp hs' with hs' | ⟨rfl, -⟩
      · exact Finset.mem_union_left _ (h.absorbed idx s' hs' hc)
      · exact Finset.mem_union_right _ (Finset.mem_insert_self _ _)
    · rcases Finset.mem_union.mp hidx with hidx | hidx
      · exact h.sound idx hidx
      · right
        rcases Finset.mem_insert.mp hidx with rfl | hidx
        · exact ⟨s, hitem, hyes⟩
        · obtain ⟨⟨j, t⟩, ht, rfl⟩ := List.mem_map.mp (List.mem_toFinset.mp hidx)
          obtain ⟨ht, hsim⟩ := List.mem_filter.mp ht
          simp only [decide_eq_true_eq] at hsim
          exact ⟨t, ht, hyes.similar hitem ht hsim.2.symm⟩
    · rw [mem_insertAll, h.subpaths]
      constructor
      · rintro (⟨idx, s', sps, hs', hrest⟩ | hin)
        · exact ⟨idx, s', sps, (hmem idx s').mpr (Or.inl hs'), hrest⟩
        · exact ⟨i, s, subpaths, (hmem i s).mpr (Or.inr ⟨rfl, rfl⟩), hyes, hp, hin⟩
      · rintro ⟨idx, s', sps, hs', hc, hp', hin⟩
        rcases (hmem idx s').mp hs' with hs' | ⟨-, rfl⟩
        · exact Or.inl ⟨idx, s', sps, hs', hc, hp', hin⟩
        · obtain rfl := Option.some.inj (hp.symm.trans hp')
          exact Or.inr hin
    · rcases (hmem idx s').mp hs' with hs' | ⟨-, rfl⟩
      · exact h.defined idx s' hs' hc
      · exact ⟨subpaths, hp⟩

theorem foldlM_mergeSubpath {G : Grammar} {stm : List (ℕ × Sequence)}
    (order : IterationOrder (ℕ × Sequence)) {start : Finset ℕ} {acc : Finset ℕ × List Sequence}
    (h : (order.list stm).foldlM (mergeSubpath G stm) (start, []) = some acc) :
    (∀ idx, idx ∈ acc.1 ↔ idx ∈ start ∨ ∃ s, (idx, s) ∈ stm ∧ Complete G stm s) ∧
    (∀ sp, sp ∈ acc.2 ↔ ∃ idx s subpaths, (idx, s) ∈ stm ∧ Complete G stm s ∧
      parentSubpaths G s = some subpaths ∧ sp ∈ subpaths) ∧
    ∀ idx s, (idx, s) ∈ stm → Complete G stm s → ∃ subpaths, parentSubpaths G s = some subpaths := by
  have hloop := foldlM_invariant (MergeLoop G stm start)
    (fun done item acc acc' hp hinv hstep =>
      hinv.step (order.mem_list.mp (hp.subset (by simp))) hstep)
    ⟨Finset.Subset.refl start, by simp, fun idx => Or.inl, by simp, by simp⟩ h
  have hmem : ∀ item, item ∈ order.list stm ↔ item ∈ stm := fun item => order.mem_list
  refine ⟨fun idx => ⟨hloop.sound idx, ?_⟩, fun sp => ?_, fun idx s hs => ?_⟩
  · rintro (hidx | ⟨s, hs, hc⟩)
    · exact hloop.old hidx
    · exact hloop.absorbed idx s ((hmem _).mpr hs) hc
  · rw [hloop.subpaths]
    simp only [hmem]
  · exact hloop.defined idx s ((hmem _).mpr hs)

/-- Rule `idx` gives way to rules about the parents of its sequence `s`. -/
def Absorbs (G : Grammar) (rss : List RuleSet) (inter : RuleSet) (idx : ℕ) (s : Sequence) : Prop :=
  inter ∈ intersections rss [] ∧ (idx, s) ∈ subpathsToMerge rss inter ∧
    Complete G (subpathsToMerge rss inter) s

theorem mem_foldl_addMerged (inter : RuleSet) (sps : List Sequence) (result : List RuleSet)
    (rs : RuleSet) :
    rs ∈ sps.foldl (addMerged inter) result ↔ rs ∈ result ∨ ∃ sp ∈ sps, rs = insert sp inter := by
  induction sps generalizing result with
  | nil => simp
  | cons sp sps ih =>
    have hstep : rs ∈ addMerged inter result sp ↔ rs ∈ result ∨ rs = insert sp inter := by
      unfold addMerged
      split_ifs with hin
      · constructor
        · exact Or.inl
        · rintro (h | rfl)
          · exact h
          · exact hin
      · rw [List.mem_append, List.mem_singleton]
    rw [List.foldl_cons, ih, hstep, List.exists_mem_cons_iff, or_assoc]

structure IntersectionLoop (G : Grammar) (rss done : List RuleSet)
    (acc : Finset ℕ × List RuleSet) : Prop where
  absorbed : ∀ idx, idx ∈ acc.1 ↔ ∃ inter ∈ done, ∃ s, (idx, s) ∈ subpathsToMerge rss inter ∧
    Complete G (subpathsToMerge rss inter) s
  merged : ∀ rs, rs ∈ acc.2 ↔ ∃ inter ∈ done, ∃ idx s subpaths sp,
    (idx, s) ∈ subpathsToMerge rss inter ∧ Complete G (subpathsToMerge rss inter) s ∧
      parentSubpaths G s = some subpaths ∧ sp ∈ subpaths ∧ rs = insert sp inter
  defined : ∀ inter ∈ done, ∀ idx s, (idx, s) ∈ subpathsToMerge rss inter →
    Complete G (subpathsToMerge rss inter) s → ∃ subpaths, parentSubpaths G s = some subpaths

theorem exists_mem_concat {α : Type} {P : α → Prop} {xs : List α} {x : α} :
    (∃ y ∈ xs ++ [x], P y) ↔ (∃ y ∈ xs, P y) ∨ P x := by
  simp [or_and_right, exists_or]

theorem IntersectionLoop.step {G : Grammar} {order : MergeOrder} {rss done : List RuleSet}
    {acc acc' : Finset ℕ × List RuleSet} {inter : RuleSet} (h : IntersectionLoop G rss done acc)
    (hstep : mergeIntersection G order rss acc inter = some acc') :
    IntersectionLoop G rss (done ++ [inter]) acc' := by
  simp only [mergeIntersection, Option.bind_eq_bind, Option.pure_def] at hstep
  obtain ⟨found, hfound, he⟩ := Option.bind_eq_some_iff.mp hstep
  obtain rfl := Option.some.inj he
  obtain ⟨hidx, hsps, hdef⟩ := foldlM_mergeSubpath order.toMerge hfound
  refine ⟨fun idx => ?_, fun rs => ?_, fun inter' hinter' => ?_⟩
  · rw [hidx, h.absorbed, exists_mem_concat]
  · rw [mem_foldl_addMerged, h.merged, exists_mem_concat]
    refine or_congr_right ?_
    simp only [order.merged.mem_list, hsps]
    constructor
    · rintro ⟨sp, ⟨idx, s, sps, hs, hc, hp, hsp⟩, rfl⟩
      exact ⟨idx, s, sps, sp, hs, hc, hp, hsp, rfl⟩
    · rintro ⟨idx, s, sps, sp, hs, hc, hp, hsp, rfl⟩
      exact ⟨sp, ⟨idx, s, sps, hs, hc, hp, hsp⟩, rfl⟩
  · rcases List.mem_append.mp hinter' with hinter' | hinter'
    · exact h.defined inter' hinter'
    · rw [List.mem_singleton.mp hinter']
      exact hdef

theorem foldlM_mergeIntersection {G : Grammar} {order : MergeOrder} {rss : List RuleSet}
    {acc : Finset ℕ × List RuleSet}
    (h : (intersections rss []).foldlM (mergeIntersection G order rss) (∅, []) = some acc) :
    (∀ idx, idx ∈ acc.1 ↔ ∃ inter s, Absorbs G rss inter idx s) ∧
    (∀ rs, rs ∈ acc.2 ↔ ∃ inter idx s subpaths sp, Absorbs G rss inter idx s ∧
      parentSubpaths G s = some subpaths ∧ sp ∈ subpaths ∧ rs = insert sp inter) ∧
    ∀ inter idx s, Absorbs G rss inter idx s →
      ∃ subpaths, parentSubpaths G s = some subpaths := by
  have hloop := foldlM_invariant (IntersectionLoop G rss)
    (fun done inter acc acc' _ hinv hstep => hinv.step hstep) ⟨by simp, by simp, by simp⟩ h
  refine ⟨fun idx => ?_, fun rs => ?_, fun inter idx s habs => ?_⟩
  · rw [hloop.absorbed]
    simp only [Absorbs, exists_and_left]
  · rw [hloop.merged]
    simp only [Absorbs, and_assoc, exists_and_left]
  · exact hloop.defined inter habs.1 idx s habs.2.1 habs.2.2

theorem mergeRules_spec {G : Grammar} {order : MergeOrder} {rss merged : List RuleSet}
    (h : mergeRules G order rss = some merged) :
    (∀ rs, rs ∈ merged ↔ (∃ inter idx s subpaths sp, Absorbs G rss inter idx s ∧
        parentSubpaths G s = some subpaths ∧ sp ∈ subpaths ∧ rs = insert sp inter) ∨
      ∃ idx, rss[idx]? = some rs ∧ ∀ inter s, ¬ Absorbs G rss inter idx s) ∧
    ∀ inter idx s, Absorbs G rss inter idx s →
      ∃ subpaths, parentSubpaths G s = some subpaths := by
  simp only [mergeRules, Option.bind_eq_bind, Option.pure_def] at h
  obtain ⟨acc, hacc, he⟩ := Option.bind_eq_some_iff.mp h
  obtain rfl := Option.some.inj he
  obtain ⟨hidx, hrs, hdef⟩ := foldlM_mergeIntersection hacc
  refine ⟨fun rs => ?_, hdef⟩
  rw [List.mem_append, hrs]
  refine or_congr Iff.rfl ?_
  simp only [List.mem_map, List.mem_filter, decide_eq_true_eq, hidx, not_exists]
  constructor
  · rintro ⟨⟨rs', idx⟩, ⟨hmem, hno⟩, rfl⟩
    exact ⟨idx, List.mem_zipIdx_iff_getElem?.mp hmem, hno⟩
  · rintro ⟨idx, hget, hno⟩
    exact ⟨(rs, idx), ⟨List.mem_zipIdx_iff_getElem?.mpr hget, hno⟩, rfl⟩

theorem mem_parentSubpaths {G : Grammar} {s : Sequence} {subpaths : List Sequence}
    (h : parentSubpaths G s = some subpaths) : ∃ P, s.symbols.dropLast.getLast? = some P ∧
      ∀ sp, sp ∈ subpaths ↔ sp.symbols = s.symbols.dropLast ∧
        ∃ a ∈ G.alternatives P, s.lastSymbol ∈ a.expansion ∧ a.derivNum = sp.dn := by
  unfold parentSubpaths at h
  split_ifs at h with hne
  obtain ⟨alternatives, hget, rfl⟩ := Option.map_eq_some_iff.mp h
  refine ⟨_, List.getLast?_eq_some_getLast hne, fun sp => ?_⟩
  rw [Grammar.alternatives_of_get? hget]
  simp only [List.mem_map, List.mem_filter, decide_eq_true_eq]
  constructor
  · rintro ⟨a, ⟨ha, hin⟩, rfl⟩
    exact ⟨rfl, a, ha, hin, rfl⟩
  · rintro ⟨hsym, a, ha, hin, hdn⟩
    exact ⟨a, ⟨ha, hin⟩, Sequence.ext hsym.symm hdn⟩

/-- The sequence was read off a complete tree of the grammar. -/
def Captured (G : Grammar) (s : Sequence) : Prop :=
  ∃ (start : Sym) (tree : Tree) (order : IterationOrder (List Entry)) (fuel : ℕ)
    (sequences : List (List Entry)), start ∈ G.keys ∧ WellFormed G start tree ∧ tree.Closed ∧
    dtToSequences G order tree fuel = some sequences ∧ s.entries ∈ sequences

theorem captured_of_mem_subpathsToMerge {G : Grammar} {rss : List RuleSet}
    (hcap : ∀ rs ∈ rss, ∀ s ∈ rs, Captured G s) {inter : RuleSet} {idx : ℕ} {s : Sequence}
    (h : (idx, s) ∈ subpathsToMerge rss inter) : Captured G s := by
  obtain ⟨rs, hrs, hsingle⟩ := mem_subpathsToMerge.mp h
  have hs : s ∈ rs := (Finset.mem_sdiff.mp (hsingle ▸ Finset.mem_singleton_self s)).1
  exact hcap rs (List.mem_of_getElem? hrs) s hs

theorem Captured.exists_expansion {G : Grammar} {s : Sequence} (h : Captured G s) :
    ∃ (start : Sym) (tree : Tree) (path : List Sym), WellFormed G start tree ∧
      (path, s.dn) ∈ tree.expanded ∧ EndsIn s.symbols path := by
  obtain ⟨start, tree, order, fuel, sequences, hstart, hw, hclosed, hrun, he⟩ := h
  obtain ⟨raws, hraws, hmem⟩ := exists_raws hrun
  obtain ⟨raw, hraw, hcollapse⟩ := (hmem s.entries).mp he
  obtain ⟨e', he', t, ht, ⟨path, d⟩, hx, hxd, hend⟩ :=
    collapse_captured (rawSequences_captures hw hclosed hstart hraws raw hraw)
  obtain rfl := Option.some.inj (hcollapse.symm.trans he')
  obtain rfl := Sequence.entries_injective ht
  obtain rfl : d = t.dn := hxd
  exact ⟨start, tree, path, hw, hx, hend⟩

theorem Captured.exists_alternative {G : Grammar} {s : Sequence} (h : Captured G s) :
    ∃ a ∈ G.alternatives s.lastSymbol, a.derivNum = s.dn := by
  obtain ⟨start, tree, path, hw, ⟨⟨d, i⟩, node, a, b, hn, hc, hdn, hpath⟩, hend⟩ :=
    h.exists_expansion
  obtain ⟨-, alt, halt, hnum, -⟩ := hw.spells_alternative hn hc
  have hsym : node.symbol = s.lastSymbol := by
    have := hend.2
    rw [hpath.getLast? hn, s.getLast?_symbols] at this
    exact (Option.some.inj this).symm
  rw [← hsym]
  exact ⟨alt, halt, Int.ofNat.inj (hnum.symm.trans hdn)⟩

theorem captured_of_run {g : InputGenerator} (hstart : g.config.startRule ∈ g.grammar.keys)
    {rnd : Choices} {fuel fuel' : ℕ} {order : IterationOrder (List Entry)}
    {sequences : List (List Entry)}
    (h : (g.generateTree rnd fuel).bind (fun st => dtToSequences g.grammar order st.tree fuel') =
      some sequences) {s : Sequence} (hs : s.entries ∈ sequences) : Captured g.grammar s := by
  obtain ⟨st, hst, hseq⟩ := Option.bind_eq_some_iff.mp h
  obtain ⟨hinv, hclosed⟩ := (InputGenerator.Produces.plain hst).closed hstart
  exact ⟨_, st.tree, order, fuel', sequences, hstart, hinv.wellFormed, hclosed, hseq, hs⟩

theorem Captured.isChain {G : Grammar} {s : Sequence} (h : Captured G s) :
    s.symbols.IsChain (· ≠ ·) := by
  obtain ⟨start, tree, order, fuel, sequences, hstart, hw, hclosed, hrun, he⟩ := h
  have hchain := (dtToSequences_squareFree hrun he).isChain
  rw [Sequence.entries, List.isChain_append, List.isChain_map] at hchain
  exact hchain.1.imp fun a b hab he => hab (congrArg Entry.sym he)

theorem Captured.isChain_edge {G : Grammar} {s : Sequence} (h : Captured G s) :
    s.symbols.IsChain G.Edge := by
  obtain ⟨start, tree, order, fuel, sequences, hstart, hw, hclosed, hrun, he⟩ := h
  obtain ⟨raws, hraws, hmem⟩ := exists_raws hrun
  obtain ⟨raw, hraw, hcollapse⟩ := (hmem s.entries).mp he
  obtain ⟨⟨path, d⟩, ⟨pos, node, a, b, hn, hc, hd, hpath⟩, rfl⟩ :=
    rawSequences_captures hw hclosed hstart hraws raw hraw
  exact collapsed_isChain (t := ⟨path, d, hpath.ne_nil⟩) hcollapse (hw.rootPath_isChain hpath)

theorem Captured.parent_ne {G : Grammar} {s : Sequence} (h : Captured G s) {P : Sym}
    (hP : s.symbols.dropLast.getLast? = some P) : s.lastSymbol ≠ P := by
  have hchain := h.isChain
  rw [← s.dropLast_append_lastSymbol, List.isChain_append] at hchain
  exact (hchain.2.2 P hP s.lastSymbol rfl).symm

/-- The number of an alternative tells which nonterminals other than its own left side it has:
    grammars are numbered so when they are read. -/
def Grammar.NumbersDetermine (G : Grammar) : Prop :=
  ∀ A ∈ G.keys, ∀ a ∈ G.alternatives A, ∀ b ∈ G.alternatives A, a.derivNum = b.derivNum →
    ∀ B ∈ G.keys, B ≠ A → (B ∈ a.expansion ↔ B ∈ b.expansion)

instance (G : Grammar) : Decidable G.NumbersDetermine :=
  inferInstanceAs (Decidable (∀ A ∈ G.keys, ∀ a ∈ G.alternatives A, ∀ b ∈ G.alternatives A,
    a.derivNum = b.derivNum → ∀ B ∈ G.keys, B ≠ A → (B ∈ a.expansion ↔ B ∈ b.expansion)))

/-- Realised at a node whose parent ends the match of the symbols before the last. -/
def RealisesDirectly (E : Set (List Sym × ℕ)) (s : Sequence) : Prop :=
  ∃ path, (path ++ [s.lastSymbol], s.dn) ∈ E ∧ EndsIn s.symbols.dropLast path

theorem RealisesDirectly.realises {E : Set (List Sym × ℕ)} {s : Sequence}
    (h : RealisesDirectly E s) : Realises E s := by
  obtain ⟨path, hmem, hend⟩ := h
  refine ⟨_, hmem, rfl, ?_⟩
  have := (endsIn_concat_iff s.symbols.dropLast path s.lastSymbol s.lastSymbol).mpr ⟨hend.1, rfl⟩
  rwa [s.dropLast_append_lastSymbol] at this

section Trees

variable {G : Grammar} {t : DTree}

theorem exists_child_expansion (hdn : G.NumbersDetermine) (ht : Derives G t) {path : List Sym}
    {P S : Sym} {a : Alternative} (ha : a ∈ G.alternatives P) (hS : S ∈ a.expansion)
    (hkey : S ∈ G.keys) (hne : S ≠ P) (hlast : path.getLast? = some P)
    (hmem : (path, a.derivNum) ∈ t.expanded) :
    ∃ alt ∈ G.alternatives S, (path ++ [S], alt.derivNum) ∈ t.expanded := by
  obtain ⟨P', children, hbelow⟩ := DTree.mem_expanded_iff.mp hmem
  obtain rfl : P = P' := Option.some.inj (hlast.symm.trans hbelow.getLast?)
  cases ht.of_below hbelow with
  | @node _ _ _ alt halt hd hc hall =>
    have hin : S ∈ children.map DTree.symbol := by
      rw [hc]
      exact (hdn P (Grammar.mem_keys_of_mem_alternatives ha) a ha alt halt hd.symm S hkey hne).mp hS
    obtain ⟨c, hcm, hsym⟩ := List.mem_map.mp hin
    cases hall c hcm with
    | @leaf s hno =>
      obtain rfl : s = S := hsym
      exact absurd hkey hno
    | @node s d below alt' halt' hd' _ _ =>
      obtain rfl : s = S := hsym
      have hchild : t.Below (path ++ [s]) (.node s d below) := .child hbelow hcm
      exact ⟨alt', halt', DTree.mem_expanded_iff.mpr ⟨s, below, hd' ▸ hchild⟩⟩

/-- An expansion below another symbol was made possible by an alternative of that symbol. -/
theorem exists_parent_expansion (ht : Derives G t) {path : List Sym} {P S : Sym} {d : ℕ}
    (hlast : path.getLast? = some P) (hmem : (path ++ [S], d) ∈ t.expanded) :
    ∃ a ∈ G.alternatives P, S ∈ a.expansion ∧ (path, a.derivNum) ∈ t.expanded := by
  obtain ⟨s, children, hbelow⟩ := DTree.mem_expanded_iff.mp hmem
  obtain rfl : S = s := by
    have := hbelow.getLast?
    rw [List.getLast?_concat] at this
    exact Option.some.inj this
  generalize hfull : path ++ [S] = full at hbelow
  generalize hu : DTree.node S d children = u at hbelow
  cases hbelow with
  | root =>
    have : path = [] := by simpa using congrArg List.length hfull
    simp [this] at hlast
  | @child path' P' d' siblings u above hc =>
    obtain ⟨rfl, -⟩ := List.append_inj' hfull rfl
    obtain rfl : P = P' := Option.some.inj (hlast.symm.trans above.getLast?)
    cases ht.of_below above with
    | @node _ _ _ alt halt hd hsyms _ =>
      refine ⟨alt, halt, ?_, DTree.mem_expanded_iff.mpr ⟨P, siblings, hd ▸ above⟩⟩
      rw [← hsyms]
      exact List.mem_map.mpr ⟨_, hc, by rw [← hu]; rfl⟩

theorem similar_dn_subset {rss : List RuleSet} (hcap : ∀ rs ∈ rss, ∀ s ∈ rs, Captured G s)
    {inter : RuleSet} {idx : ℕ} {s : Sequence} (hs : (idx, s) ∈ subpathsToMerge rss inter) :
    (similarSubpaths (subpathsToMerge rss inter) s).image Sequence.dn ⊆
      ((G.alternatives s.lastSymbol).map Alternative.derivNum).toFinset := by
  intro d hd
  obtain ⟨x, hx, rfl⟩ := Finset.mem_image.mp hd
  obtain ⟨⟨i, hi⟩, hsym⟩ := (mem_similarSubpaths hs x).mp hx
  obtain ⟨b, hb, hbd⟩ := (captured_of_mem_subpathsToMerge hcap hi).exists_alternative
  rw [Sequence.lastSymbol_congr hsym] at hb
  exact List.mem_toFinset.mpr (List.mem_map.mpr ⟨b, hb, hbd⟩)

theorem card_similar_dn {stm : List (ℕ × Sequence)} {idx : ℕ} {s : Sequence}
    (hs : (idx, s) ∈ stm) :
    ((similarSubpaths stm s).image Sequence.dn).card = (similarSubpaths stm s).card := by
  apply Finset.card_image_of_injOn
  intro x hx y hy hxy
  have hx := (mem_similarSubpaths hs x).mp hx
  have hy := (mem_similarSubpaths hs y).mp hy
  exact Sequence.ext (hx.2.trans hy.2.symm) hxy

theorem nodup_of_card_toFinset {α : Type} [DecidableEq α] {xs : List α}
    (h : xs.toFinset.card = xs.length) : xs.Nodup := by
  rw [List.card_toFinset] at h
  exact List.dedup_eq_self.mp ((List.dedup_sublist xs).eq_of_length h)

/-- For captured sequences counting is enough: each alternative has a number and a sequence of
    its own. -/
theorem complete_iff {rss : List RuleSet} (hcap : ∀ rs ∈ rss, ∀ s ∈ rs, Captured G s)
    {inter : RuleSet} {idx : ℕ} {s : Sequence} (hs : (idx, s) ∈ subpathsToMerge rss inter)
    (hkey : s.lastSymbol ∈ G.keys) :
    Complete G (subpathsToMerge rss inter) s ↔
      ((G.alternatives s.lastSymbol).map Alternative.derivNum).Nodup ∧
        ∀ a ∈ G.alternatives s.lastSymbol, ∃ (i : ℕ) (x : Sequence),
          (i, x) ∈ subpathsToMerge rss inter ∧ x.symbols = s.symbols ∧ x.dn = a.derivNum := by
  have hsub := similar_dn_subset hcap hs
  have hinj := card_similar_dn hs
  have hlen : ((G.alternatives s.lastSymbol).map Alternative.derivNum).length =
      (G.alternatives s.lastSymbol).length := List.length_map _
  have hbound := List.toFinset_card_le ((G.alternatives s.lastSymbol).map Alternative.derivNum)
  have hget := Grammar.get?_of_mem_keys hkey
  constructor
  · rintro ⟨alternatives, hget', hcard⟩
    obtain rfl := Option.some.inj (hget.symm.trans hget')
    -- as many numbers as alternatives, so the alternatives have no other numbers
    have hall := Finset.eq_of_subset_of_card_le hsub (by omega)
    refine ⟨?_, fun a ha => ?_⟩
    · refine nodup_of_card_toFinset ?_
      rw [← hall, hinj, hcard, hlen]
    · have hin : a.derivNum ∈ (similarSubpaths (subpathsToMerge rss inter) s).image Sequence.dn := by
        rw [hall]
        exact List.mem_toFinset.mpr (List.mem_map.mpr ⟨a, ha, rfl⟩)
      obtain ⟨x, hx, hxd⟩ := Finset.mem_image.mp hin
      obtain ⟨⟨i, hi⟩, hsym⟩ := (mem_similarSubpaths hs x).mp hx
      exact ⟨i, x, hi, hsym, hxd⟩
  · rintro ⟨hnodup, hcover⟩
    refine ⟨_, hget, ?_⟩
    have hall : (similarSubpaths (subpathsToMerge rss inter) s).image Sequence.dn =
        ((G.alternatives s.lastSymbol).map Alternative.derivNum).toFinset := by
      apply Finset.Subset.antisymm hsub
      intro d hd
      obtain ⟨a, ha, rfl⟩ := List.mem_map.mp (List.mem_toFinset.mp hd)
      obtain ⟨i, x, hi, hsym, hxd⟩ := hcover a ha
      exact Finset.mem_image.mpr ⟨x, (mem_similarSubpaths hs x).mpr ⟨⟨i, hi⟩, hsym⟩, hxd⟩
    rw [← hinj, hall, List.toFinset_card_of_nodup hnodup, hlen]

/-- A tree that realises a rule made by merging realises one of the rules it stands for, with
    the sequence of that rule right below its parent. -/
theorem exists_absorbed (hdn : G.NumbersDetermine) (ht : Derives G t) {rss : List RuleSet}
    (hcap : ∀ rs ∈ rss, ∀ s ∈ rs, Captured G s) {inter : RuleSet} {idx : ℕ} {s sp : Sequence}
    {subpaths : List Sequence} (habs : Absorbs G rss inter idx s)
    (hparent : parentSubpaths G s = some subpaths) (hsp : sp ∈ subpaths)
    (hall : RealisesAll t.expanded (insert sp inter)) :
    ∃ i x rs, rss[i]? = some rs ∧ Absorbs G rss inter i x ∧ RealisesDirectly t.expanded x ∧
      RealisesAll t.expanded rs := by
  obtain ⟨hinter, hs, hcomplete⟩ := habs
  obtain ⟨P, hP, hspec⟩ := mem_parentSubpaths hparent
  obtain ⟨hsym, a, ha, hS, hnum⟩ := (hspec sp).mp hsp
  obtain ⟨⟨path, d⟩, hmem, hd, hend⟩ := hall sp (Finset.mem_insert_self sp inter)
  obtain rfl : d = sp.dn := hd
  rw [hsym] at hend
  have hlast : path.getLast? = some P := by rw [← hend.2, hP]
  have hcap₀ := captured_of_mem_subpathsToMerge hcap hs
  obtain ⟨b, hb, -⟩ := hcap₀.exists_alternative
  have hkey := Grammar.mem_keys_of_mem_alternatives hb
  obtain ⟨alt, halt, hchild⟩ := exists_child_expansion hdn ht ha hS hkey (hcap₀.parent_ne hP) hlast
    (hnum ▸ hmem)
  obtain ⟨i, x, hx, hxsym, hxd⟩ := ((complete_iff hcap hs hkey).mp hcomplete).2 alt halt
  obtain ⟨rs, hrs, hsingle⟩ := mem_subpathsToMerge.mp hx
  have hdirect : RealisesDirectly t.expanded x := by
    refine ⟨path, ?_, by rwa [hxsym]⟩
    rw [hxd, Sequence.lastSymbol_congr hxsym]
    exact hchild
  refine ⟨i, x, rs, hrs, ⟨hinter, hx, hcomplete.similar hs hx hxsym⟩, hdirect, fun u hu => ?_⟩
  by_cases hui : u ∈ inter
  · exact hall u (Finset.mem_insert_of_mem hui)
  · have : u ∈ rs \ inter := Finset.mem_sdiff.mpr ⟨hu, hui⟩
    rw [hsingle, Finset.mem_singleton] at this
    rw [this]
    exact hdirect.realises

theorem exists_replacement (ht : Derives G t) {inter rs : RuleSet} {s : Sequence}
    {subpaths : List Sequence} (hparent : parentSubpaths G s = some subpaths) (hsub : inter ⊆ rs)
    (hall : RealisesAll t.expanded rs) (hdirect : RealisesDirectly t.expanded s) :
    ∃ sp ∈ subpaths, RealisesAll t.expanded (insert sp inter) := by
  obtain ⟨P, hP, hspec⟩ := mem_parentSubpaths hparent
  obtain ⟨path, hmem, hend⟩ := hdirect
  have hlast : path.getLast? = some P := by rw [← hend.2, hP]
  obtain ⟨a, ha, hS, hup⟩ := exists_parent_expansion ht hlast hmem
  have hne : s.symbols.dropLast ≠ [] := by
    intro hnil
    rw [hnil] at hP
    cases hP
  refine ⟨⟨s.symbols.dropLast, a.derivNum, hne⟩, (hspec _).mpr ⟨rfl, a, ha, hS, rfl⟩, ?_⟩
  intro u hu
  rcases Finset.mem_insert.mp hu with rfl | hu
  · exact ⟨_, hup, rfl, hend⟩
  · exact hall u (hsub hu)

end Trees

/-- What merging keeps: a tree that realises a merged rule realises a rule that was merged, and
    the other way round for rules that were not absorbed or that are realised with their parent. -/
theorem mergeRules_preserves (G : Grammar) (hdn : G.NumbersDetermine) (order : MergeOrder)
    (rss merged : List RuleSet) (hcap : ∀ rs ∈ rss, ∀ s ∈ rs, Captured G s)
    (hrun : mergeRules G order rss = some merged) (t : DTree) (ht : Derives G t) :
    ((∃ rs ∈ merged, RealisesAll t.expanded rs) → ∃ idx rs, rss[idx]? = some rs ∧
      RealisesAll t.expanded rs ∧ ((∀ inter s, ¬ Absorbs G rss inter idx s) ∨
        ∃ inter s, Absorbs G rss inter idx s ∧ RealisesDirectly t.expanded s)) ∧
    ∀ idx rs, rss[idx]? = some rs → RealisesAll t.expanded rs →
      ((∀ inter s, ¬ Absorbs G rss inter idx s) ∨
        ∃ inter s, Absorbs G rss inter idx s ∧ inter ⊆ rs ∧ RealisesDirectly t.expanded s) →
      ∃ rs' ∈ merged, RealisesAll t.expanded rs' := by
  obtain ⟨hmem, hdef⟩ := mergeRules_spec hrun
  constructor
  · rintro ⟨rs, hrs, hall⟩
    rcases (hmem rs).mp hrs with
      ⟨inter, idx, s, subpaths, sp, habs, hparent, hsp, rfl⟩ | ⟨idx, hget, hno⟩
    · obtain ⟨i, x, rs, hget, habs', hdirect, hall'⟩ :=
        exists_absorbed hdn ht hcap habs hparent hsp hall
      exact ⟨i, rs, hget, hall', Or.inr ⟨inter, x, habs', hdirect⟩⟩
    · exact ⟨idx, rs, hget, hall, Or.inl hno⟩
  · rintro idx rs hget hall (hno | ⟨inter, s, habs, hsub, hdirect⟩)
    · exact ⟨rs, (hmem rs).mpr (Or.inr ⟨idx, hget, hno⟩), hall⟩
    · obtain ⟨subpaths, hparent⟩ := hdef inter idx s habs
      obtain ⟨sp, hsp, hall'⟩ := exists_replacement ht hparent hsub hall hdirect
      exact ⟨_, (hmem _).mpr (Or.inl ⟨inter, idx, s, subpaths, sp, habs, hparent, hsp, rfl⟩), hall'⟩

def innerSeq (dn : ℕ) : Sequence := ⟨["outer", "inner"], dn, by decide⟩

def innerRules : List RuleSet := [{innerSeq 0}, {innerSeq 1}]
def outerRule : RuleSet := {⟨["outer"], 0, by decide⟩}

def gapGrammar : Grammar :=
  ⟨[("outer", [⟨["inner"], 0, 1⟩, ⟨["middle"], 1, 1⟩]), ("middle", [⟨["inner"], 0, 1⟩]),
    ("inner", [⟨["'x'"], 0, 1⟩, ⟨["'y'"], 1, 1⟩])], by decide⟩

def sharedGrammar : Grammar :=
  ⟨[("outer", [⟨["inner"], 0, 1⟩, ⟨["'z'"], 0, 1⟩]),
    ("inner", [⟨["'x'"], 0, 1⟩, ⟨["'y'"], 1, 1⟩])], by decide⟩

def generatorOf (G : Grammar) : InputGenerator := ⟨G, Map.empty, ⟨"outer", 9⟩, Tables.empty⟩

def listedOrder : MergeOrder := ⟨IterationOrder.listed, IterationOrder.listed⟩

def gapTree : DTree := .node "outer" 1 [.node "middle" 0 [.node "inner" 0 [.leaf "'x'"]]]
def sharedTree : DTree := .node "outer" 0 [.leaf "'z'"]

theorem innerRules_captured {G : Grammar} (hkey : "outer" ∈ G.keys)
    (h : ∀ dn < 2, ((generatorOf G).generateTree ⟨fun depth _ => depth * dn * 2 ^ 52, fun _ => 0⟩ 3).bind
      (fun st => dtToSequences G IterationOrder.listed st.tree 9) = some [(innerSeq dn).entries]) :
    ∀ rs ∈ innerRules, ∀ s ∈ rs, Captured G s := by
  have hcap : ∀ dn < 2, Captured G (innerSeq dn) := fun dn hdn =>
    captured_of_run (g := generatorOf G) hkey (h dn hdn) (by simp)
  intro rs hrs s hs
  rcases List.mem_cons.mp hrs with rfl | hrs
  · rw [Finset.mem_singleton.mp hs]
    exact hcap 0 (by decide)
  · obtain rfl := List.mem_singleton.mp hrs
    rw [Finset.mem_singleton.mp hs]
    exact hcap 1 (by decide)

theorem gapRules_captured : ∀ rs ∈ innerRules, ∀ s ∈ rs, Captured gapGrammar s :=
  innerRules_captured (by decide) (by decide +kernel)

theorem sharedRules_captured : ∀ rs ∈ innerRules, ∀ s ∈ rs, Captured sharedGrammar s :=
  innerRules_captured (by decide) (by decide +kernel)

theorem gapTree_derives : Derives gapGrammar gapTree := by
  refine .node (show ⟨["middle"], 1, 1⟩ ∈ _ by decide) rfl rfl fun t ht => ?_
  rw [List.mem_singleton.mp ht]
  refine .node (show ⟨["inner"], 0, 1⟩ ∈ _ by decide) rfl rfl fun t ht => ?_
  rw [List.mem_singleton.mp ht]
  refine .node (show ⟨["'x'"], 0, 1⟩ ∈ _ by decide) rfl rfl fun t ht => ?_
  rw [List.mem_singleton.mp ht]
  exact .leaf (by decide)

theorem sharedTree_derives : Derives sharedGrammar sharedTree := by
  refine .node (show ⟨["'z'"], 0, 1⟩ ∈ _ by decide) rfl rfl fun t ht => ?_
  rw [List.mem_singleton.mp ht]
  exact .leaf (by decide)

/-- With a symbol between the two, a forbidden tree is forbidden no longer; with a shared number,
    a tree becomes forbidden that was not. -/
theorem mergeRules_changes_forbidden :
    ((∀ rs ∈ innerRules, ∀ s ∈ rs, Captured gapGrammar s) ∧
      mergeRules gapGrammar listedOrder innerRules = some [outerRule] ∧
      Derives gapGrammar gapTree ∧ (∃ rs ∈ innerRules, RealisesAll gapTree.expanded rs) ∧
      ¬ ∃ rs ∈ [outerRule], RealisesAll gapTree.expanded rs) ∧
    (∀ rs ∈ innerRules, ∀ s ∈ rs, Captured sharedGrammar s) ∧
      mergeRules sharedGrammar listedOrder innerRules = some [outerRule] ∧
      Derives sharedGrammar sharedTree ∧
      (∃ rs ∈ [outerRule], RealisesAll sharedTree.expanded rs) ∧
      ¬ ∃ rs ∈ innerRules, RealisesAll sharedTree.expanded rs :=
  ⟨⟨gapRules_captured, by decide, gapTree_derives, by decide, by decide⟩,
    sharedRules_captured, by decide, sharedTree_derives, by decide, by decide⟩

theorem mergeRules_preserves_gap : ∃ rs ∈ [outerRule],
    RealisesAll (DTree.node "outer" 0 [.node "inner" 0 [.leaf "'x'"]]).expanded rs := by
  have hderives : Derives gapGrammar (.node "outer" 0 [.node "inner" 0 [.leaf "'x'"]]) := by
    refine .node (show ⟨["inner"], 0, 1⟩ ∈ _ by decide) rfl rfl fun t ht => ?_
    rw [List.mem_singleton.mp ht]
    refine .node (show ⟨["'x'"], 0, 1⟩ ∈ _ by decide) rfl rfl fun t ht => ?_
    rw [List.mem_singleton.mp ht]
    exact .leaf (by decide)
  refine (mergeRules_preserves gapGrammar (by decide) listedOrder innerRules [outerRule]
    gapRules_captured (by decide) _ hderives).2 0 {innerSeq 0} rfl (by decide) (Or.inr
      ⟨∅, innerSeq 0, ⟨by decide, by decide, ⟨_, rfl, by decide⟩⟩, Finset.empty_subset _,
        ["outer"], ?_, EndsIn.refl ["outer"]⟩)
  exact DTree.mem_expanded_iff.mpr ⟨"inner", _, .child .root (List.mem_singleton.mpr rfl)⟩

end RSFuzz
