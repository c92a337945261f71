import Mathlib.Algebra.Order.BigOperators.Group.List
import RSFuzz.GrammarDepths
import RSFuzz.FoundationWhileLoop
import RSFuzz.Generator

set_option autoImplicit false

/-!
# The depth table

`calculate_depths`: passes over all nonterminals fill in costs and depths, and
a cut that grows when a pass finds nothing new resolves the cyclic ones.
-/
namespace RSFuzz
open OrderedMap

/-- The table while it is filled: per nonterminal its expansions with their costs, and its
    depth. -/
abbrev WorkingTable := Map Sym (List (List Sym × Option ℕ) × Option ℕ)

namespace DepthTable

def initial (G : Grammar) : WorkingTable :=
  G.mapValues fun alts => (alts.map fun alt => (alt.expansion, none), none)

def countNone (T : WorkingTable) : ℕ :=
  T.values.countP (·.2 = none) + (T.values.map fun row => row.1.countP (·.2 = none)).sum

def depthOf (T : WorkingTable) (term : Sym) : Option ℕ := (T.get? term).bind Prod.snd

def maxDepthStep (G : Grammar) (T : WorkingTable) (maxDepth : Option ℕ) (term : Sym) :
    Option ℕ :=
  if term ∈ G.keys then
    match depthOf T term, maxDepth with
    | some temp, some m => some (max m temp)
    | _, _ => none
  else maxDepth

/-- The largest depth of the nonterminals of an expansion, `None` while one is unknown. -/
def maxDepth (G : Grammar) (T : WorkingTable) (expansion : List Sym) : Option ℕ :=
  expansion.foldl (maxDepthStep G T) (some 0)

def fillCost (G : Grammar) (T : WorkingTable) (token : Sym) (e : List Sym × Option ℕ) :
    List Sym × Option ℕ :=
  match e.2 with
  | some cost => (e.1, some cost)
  | none => (e.1, if token ∈ e.1 then some 999 else maxDepth G T e.1)

/-- The depth of a token after its costs are filled in; `min` of no costs raises. -/
def fillDepth (minimumCut : ℕ) (costs : List (Option ℕ)) (depth : Option ℕ) :
    Option (Option ℕ) :=
  if depth = none ∧ some minimumCut ∈ costs then some (some (minimumCut + 1))
  else if none ∉ costs then (costs.filterMap id).min?.map fun least => some (least + 1)
  else some depth

def updateToken (G : Grammar) (minimumCut : ℕ) (T : WorkingTable) (token : Sym) :
    Option WorkingTable :=
  (T.get? token).bind fun row =>
    let expansions := row.1.map (fillCost G T token)
    (fillDepth minimumCut (expansions.map Prod.snd) row.2).map fun depth =>
      T.set token (expansions, depth)

def pass (G : Grammar) (minimumCut : ℕ) (T : WorkingTable) : Option WorkingTable :=
  G.keys.foldlM (updateToken G minimumCut) T

/-- The table that is returned, where nothing is `None` any more. -/
def finish (T : WorkingTable) : DepthsDict :=
  T.mapValues fun row => (row.1.map fun e => (e.1, e.2.getD 0), row.2.getD 0)

end DepthTable

open DepthTable in
def calculateDepths (G : Grammar) (fuel : ℕ) : Option DepthsDict :=
  (WhileLoop.run (fun s : WorkingTable × ℕ => 0 < countNone s.1)
    (fun s => (pass G s.2 s.1).map fun T =>
      (T, if countNone T = countNone s.1 then s.2 + 1 else s.2))
    fuel (initial G, 0)).map fun s => finish s.1

namespace DepthTable

variable {G : Grammar} {T T' : WorkingTable} {m : ℕ}

structure Exact (G : Grammar) (T : WorkingTable) : Prop where
  keys : T.keys = G.keys
  expansions : ∀ N row, T.get? N = some row →
    row.1.map Prod.fst = (G.alternatives N).map Alternative.expansion
  cost : ∀ N row e c, T.get? N = some row → (e, some c) ∈ row.1 → IsLeast {n | G.CostLe N e n} c
  depth : ∀ N k, depthOf T N = some k → IsLeast {n | G.DepthLe n N} k

/-- Every nonterminal whose depth is at most the cut is resolved. -/
def Covers (G : Grammar) (m : ℕ) (T : WorkingTable) : Prop :=
  ∀ N ∈ G.keys, G.DepthLe m N → ∃ k, depthOf T N = some k

/-- The update of a token has nothing left to do for it. -/
structure Settled (G : Grammar) (m : ℕ) (T : WorkingTable) (N : Sym) : Prop where
  costs : ∀ row e c, T.get? N = some row → (e, c) ∈ row.1 →
    (N ∈ e ∨ ∀ B ∈ e, B ∈ G.keys → ∃ k, depthOf T B = some k) → ∃ k, c = some k
  cut : ∀ row, T.get? N = some row → some m ∈ row.1.map Prod.snd → ∃ k, row.2 = some k
  full : ∀ row, T.get? N = some row → none ∉ row.1.map Prod.snd → ∃ k, row.2 = some k

def Known (G : Grammar) (T : WorkingTable) (expansion : List Sym) : Prop :=
  ∀ B ∈ expansion, B ∈ G.keys → ∃ k, depthOf T B = some k

theorem foldl_maxDepthStep_none (expansion : List Sym) :
    expansion.foldl (maxDepthStep G T) none = none := by
  induction expansion with
  | nil => rfl
  | cons term rest ih =>
    have : maxDepthStep G T none term = none := by
      unfold maxDepthStep
      split_ifs
      · cases depthOf T term <;> rfl
      · rfl
    rw [List.foldl_cons, this, ih]

theorem foldl_maxDepthStep_spec (expansion : List Sym) (acc k : ℕ) :
    expansion.foldl (maxDepthStep G T) (some acc) = some k ↔ Known G T expansion ∧
      ∀ n, k ≤ n ↔ acc ≤ n ∧ ∀ B ∈ expansion, B ∈ G.keys → ∀ d, depthOf T B = some d → d ≤ n := by
  induction expansion generalizing acc with
  | nil =>
    simp only [List.foldl_nil, Option.some.injEq, Known, List.not_mem_nil, false_implies,
      implies_true, true_and, and_true]
    constructor
    · rintro rfl; simp
    · intro h
      exact le_antisymm ((h k).mp le_rfl) ((h acc).mpr le_rfl)
  | cons term rest ih =>
    rw [List.foldl_cons]
    by_cases hk : term ∈ G.keys
    · cases hd : depthOf T term with
      | none =>
        have hstep : maxDepthStep G T (some acc) term = none := by
          simp [maxDepthStep, hk, hd]
        rw [hstep, foldl_maxDepthStep_none]
        simp [Known, hk, hd]
      | some temp =>
        have hstep : maxDepthStep G T (some acc) term = some (max acc temp) := by
          simp [maxDepthStep, hk, hd]
        rw [hstep, ih]
        simp [Known, hk, hd, and_assoc]
    · have hstep : maxDepthStep G T (some acc) term = some acc := by
        simp [maxDepthStep, hk]
      rw [hstep, ih]
      simp [Known, hk]

theorem exists_maxDepth {expansion : List Sym} (h : Known G T expansion) :
    ∃ k, maxDepth G T expansion = some k := by
  have key : ∀ (l : List Sym) (acc : ℕ), Known G T l →
      ∃ k, l.foldl (maxDepthStep G T) (some acc) = some k := by
    intro l
    induction l with
    | nil => exact fun acc _ => ⟨acc, rfl⟩
    | cons term rest ih =>
      intro acc hl
      have hrest : Known G T rest := fun B hB => hl B (List.mem_cons_of_mem _ hB)
      rw [List.foldl_cons]
      by_cases hk : term ∈ G.keys
      · obtain ⟨temp, hd⟩ := hl term (by simp) hk
        have hstep : maxDepthStep G T (some acc) term = some (max acc temp) := by
          simp [maxDepthStep, hk, hd]
        rw [hstep]
        exact ih _ hrest
      · have hstep : maxDepthStep G T (some acc) term = some acc := by
          simp [maxDepthStep, hk]
        rw [hstep]
        exact ih _ hrest
  exact key expansion 0 h

theorem fillCost_fst (N : Sym) (e : List Sym × Option ℕ) : (fillCost G T N e).1 = e.1 := by
  unfold fillCost
  cases e.2 <;> rfl

theorem fillCost_some (N : Sym) {e : List Sym} {c : ℕ} :
    fillCost G T N (e, some c) = (e, some c) := rfl

theorem fillCost_none (N : Sym) (e : List Sym) :
    fillCost G T N (e, none) = (e, if N ∈ e then some 999 else maxDepth G T e) := rfl

theorem isLeast_fillCost (hE : Exact G T) {N : Sym} {e : List Sym} {c : ℕ}
    (h : fillCost G T N (e, none) = (e, some c)) : IsLeast {n | G.CostLe N e n} c := by
  rw [fillCost_none] at h
  have h := (Prod.mk.inj h).2
  by_cases hself : N ∈ e
  · rw [if_pos hself] at h
    obtain rfl := Option.some.inj h
    refine ⟨by simp [Grammar.CostLe, hself], fun n hn => ?_⟩
    simpa [Grammar.CostLe, hself] using hn
  · rw [if_neg hself] at h
    obtain ⟨hknown, hle⟩ := (foldl_maxDepthStep_spec e 0 c).mp h
    have hiff : ∀ n, c ≤ n ↔ G.CostLe N e n := by
      intro n
      rw [hle n, Grammar.CostLe, if_neg hself]
      constructor
      · rintro ⟨-, h⟩ B hB hk
        obtain ⟨d, hd⟩ := hknown B hB hk
        exact (hE.depth B d hd).1.mono (h B hB hk d hd)
      · intro h
        exact ⟨Nat.zero_le n, fun B hB hk d hd => (hE.depth B d hd).2 (h B hB hk)⟩
    exact ⟨(hiff c).mp le_rfl, fun n hn => (hiff n).mpr hn⟩

def rowCount (row : List (List Sym × Option ℕ) × Option ℕ) : ℕ :=
  row.1.countP (·.2 = none) + if row.2 = none then 1 else 0

theorem countNone_eq (T : WorkingTable) : countNone T = (T.values.map rowCount).sum := by
  unfold countNone
  induction T.values with
  | nil => rfl
  | cons row rows ih =>
    simp only [List.countP_cons, List.map_cons, List.sum_cons, rowCount, ← ih]
    by_cases h : row.2 = none <;> simp [h] <;> omega

theorem countNone_set {N : Sym} {row : List (List Sym × Option ℕ) × Option ℕ}
    (h : T.get? N = some row) (row' : List (List Sym × Option ℕ) × Option ℕ) :
    countNone (T.set N row') + rowCount row = countNone T + rowCount row' := by
  rw [countNone_eq, countNone_eq]
  exact T.sum_values_set rowCount h row'

theorem depthOf_set {N B : Sym} {row : List (List Sym × Option ℕ) × Option ℕ} :
    depthOf (T.set N row) B = if B = N then row.2 else depthOf T B := by
  unfold depthOf
  rw [Map.get?_set]
  split_ifs <;> rfl

theorem map_fillCost_count (N : Sym) (es : List (List Sym × Option ℕ)) :
    (es.map (fillCost G T N)).countP (·.2 = none) < es.countP (·.2 = none) ∨
      ∀ e ∈ es, fillCost G T N e = e := by
  induction es with
  | nil => right; simp
  | cons e rest ih =>
    obtain ⟨exp, c⟩ := e
    have hle : (rest.map (fillCost G T N)).countP (·.2 = none) ≤ rest.countP (·.2 = none) := by
      rcases ih with h | h
      · omega
      · rw [List.map_congr_left (g := id) (by simpa using h), List.map_id]
    simp only [List.map_cons, List.countP_cons, List.forall_mem_cons]
    cases c with
    | some c =>
      simp only [fillCost_some]
      rcases ih with h | h
      · left; simpa using h
      · right; exact ⟨trivial, h⟩
    | none =>
      cases hf : (fillCost G T N (exp, none)).2 with
      | none =>
        have he : fillCost G T N (exp, none) = (exp, none) :=
          Prod.ext (fillCost_fst N _) hf
        rcases ih with h | h
        · left; simpa [hf] using h
        · right; exact ⟨he, h⟩
      | some c => left; simp only [reduceCtorEq, decide_false, decide_true, ↓reduceIte]; omega

theorem mem_filled (hE : Exact G T) {N : Sym} {row : List (List Sym × Option ℕ) × Option ℕ}
    (hrow : T.get? N = some row) {e : List Sym} {c : ℕ}
    (h : (e, some c) ∈ row.1.map (fillCost G T N)) :
    (∃ alt ∈ G.alternatives N, alt.expansion = e) ∧ IsLeast {n | G.CostLe N e n} c := by
  obtain ⟨⟨e', c'⟩, hmem, hfill⟩ := List.mem_map.mp h
  obtain rfl : e' = e := by
    have := fillCost_fst (G := G) (T := T) N (e', c')
    rw [hfill] at this
    exact this.symm
  refine ⟨?_, ?_⟩
  · have : e' ∈ row.1.map Prod.fst := List.mem_map.mpr ⟨_, hmem, rfl⟩
    rw [hE.expansions N row hrow] at this
    obtain ⟨alt, ha, he⟩ := List.mem_map.mp this
    exact ⟨alt, ha, he⟩
  · cases c' with
    | some c' =>
      obtain rfl : c' = c := by simpa [fillCost_some] using hfill
      exact hE.cost N row e' c' hrow hmem
    | none => exact isLeast_fillCost hE hfill

theorem exists_filled (hE : Exact G T) {N : Sym} {row : List (List Sym × Option ℕ) × Option ℕ}
    (hrow : T.get? N = some row) {alt : Alternative} (ha : alt ∈ G.alternatives N) :
    ∃ c, (alt.expansion, c) ∈ row.1.map (fillCost G T N) := by
  have : alt.expansion ∈ row.1.map Prod.fst := by
    rw [hE.expansions N row hrow]
    exact List.mem_map.mpr ⟨alt, ha, rfl⟩
  obtain ⟨e, he, hfst⟩ := List.mem_map.mp this
  exact ⟨(fillCost G T N e).2, List.mem_map.mpr ⟨e, he, Prod.ext ((fillCost_fst N e).trans hfst) rfl⟩⟩

theorem isLeast_depth_cut (hcov : Covers G m T) {N : Sym} (hN : N ∈ G.keys)
    (hnone : depthOf T N = none) {alt : Alternative} (ha : alt ∈ G.alternatives N)
    (hleast : IsLeast {n | G.CostLe N alt.expansion n} m) : IsLeast {n | G.DepthLe n N} (m + 1) := by
  refine ⟨⟨alt, ha, hleast.1⟩, fun n hn => ?_⟩
  by_contra hlt
  obtain ⟨j, hj⟩ := hcov N hN (Grammar.DepthLe.mono hn (by omega))
  rw [hnone] at hj
  cases hj

theorem isLeast_depth_min {N : Sym} (halt : G.alternatives N ≠ []) {costs : List (Option ℕ)}
    (hmem : ∀ c, some c ∈ costs → ∃ alt ∈ G.alternatives N,
      IsLeast {n | G.CostLe N alt.expansion n} c)
    (hall : ∀ alt ∈ G.alternatives N, ∃ c, some c ∈ costs ∧
      IsLeast {n | G.CostLe N alt.expansion n} c) :
    ∃ least, (costs.filterMap id).min? = some least ∧ IsLeast {n | G.DepthLe n N} (least + 1) := by
  have hin : ∀ c, c ∈ costs.filterMap id ↔ some c ∈ costs := by simp
  obtain ⟨alt₀, ha₀⟩ := List.exists_mem_of_ne_nil _ halt
  obtain ⟨c₀, hc₀, -⟩ := hall alt₀ ha₀
  have hne : costs.filterMap id ≠ [] := List.ne_nil_of_mem ((hin c₀).mpr hc₀)
  obtain ⟨least, hl⟩ := Option.isSome_iff_exists.mp (List.isSome_min?_iff.mpr hne)
  obtain ⟨hlm, hlle⟩ := List.min?_eq_some_iff.mp hl
  obtain ⟨alt, ha, hleast⟩ := hmem least ((hin least).mp hlm)
  refine ⟨least, hl, ⟨alt, ha, hleast.1⟩, ?_⟩
  rintro (_ | n) hn
  · exact absurd hn id
  · obtain ⟨alt', ha', hcost⟩ := Grammar.depthLe_succ.mp hn
    obtain ⟨c, hc, hcl⟩ := hall alt' ha'
    have hle := hlle c ((hin c).mpr hc)
    have := hcl.2 hcost
    omega

theorem fillDepth_spec (hE : Exact G T) (hcov : Covers G m T) {N : Sym} (hN : N ∈ G.keys)
    (halt : G.alternatives N ≠ []) {row : List (List Sym × Option ℕ) × Option ℕ}
    (hrow : T.get? N = some row) {costs : List (Option ℕ)}
    (hcosts : costs = (row.1.map (fillCost G T N)).map Prod.snd) :
    ∃ d, fillDepth m costs row.2 = some d ∧ (∀ k, row.2 = some k → d = some k) ∧
      (∀ k, d = some k → IsLeast {n | G.DepthLe n N} k) ∧
      (some m ∈ costs ∨ none ∉ costs → ∃ k, d = some k) := by
  have hdepth : depthOf T N = row.2 := by simp [depthOf, hrow]
  have hmem : ∀ c, some c ∈ costs → ∃ alt ∈ G.alternatives N,
      IsLeast {n | G.CostLe N alt.expansion n} c := by
    intro c hc
    rw [hcosts] at hc
    obtain ⟨⟨e, c'⟩, he, rfl⟩ := List.mem_map.mp hc
    obtain ⟨⟨alt, ha, rfl⟩, hleast⟩ := mem_filled hE hrow he
    exact ⟨alt, ha, hleast⟩
  unfold fillDepth
  by_cases hA : row.2 = none ∧ some m ∈ costs
  · obtain ⟨hnone, hm⟩ := hA
    obtain ⟨alt, ha, hleast⟩ := hmem m hm
    have hexact := isLeast_depth_cut hcov hN (hdepth.trans hnone) ha hleast
    refine ⟨some (m + 1), by rw [if_pos ⟨hnone, hm⟩], by simp [hnone], ?_, fun _ => ⟨_, rfl⟩⟩
    rintro k hk
    obtain rfl := Option.some.inj hk
    exact hexact
  · rw [if_neg hA]
    by_cases hB : none ∉ costs
    · have hall : ∀ alt ∈ G.alternatives N, ∃ c, some c ∈ costs ∧
          IsLeast {n | G.CostLe N alt.expansion n} c := by
        intro alt ha
        obtain ⟨c, hc⟩ := exists_filled hE hrow ha
        have hcm : c ∈ costs := by
          rw [hcosts]
          exact List.mem_map.mpr ⟨_, hc, rfl⟩
        cases c with
        | none => exact absurd hcm hB
        | some c => exact ⟨c, hcm, (mem_filled hE hrow hc).2⟩
      obtain ⟨least, hl, hexact⟩ := isLeast_depth_min halt hmem hall
      refine ⟨some (least + 1), by rw [if_pos hB, hl]; rfl, ?_, ?_, fun _ => ⟨_, rfl⟩⟩
      · intro k hk
        rw [hexact.unique (hE.depth N k (hdepth.trans hk))]
      · rintro k hk
        obtain rfl := Option.some.inj hk
        exact hexact
    · refine ⟨row.2, by rw [if_neg hB], fun _ h => h, fun k hk => hE.depth N k (hdepth.trans hk), ?_⟩
      rintro (hm | hn)
      · cases hd : row.2 with
        | none => exact absurd ⟨hd, hm⟩ hA
        | some k => exact ⟨k, rfl⟩
      · exact absurd hn hB

section update
variable {N : Sym} {row : List (List Sym × Option ℕ) × Option ℕ} {d : Option ℕ}

theorem Exact.set_filled (hE : Exact G T) (hrow : T.get? N = some row)
    (hexact : ∀ k, d = some k → IsLeast {n | G.DepthLe n N} k) :
    Exact G (T.set N (row.1.map (fillCost G T N), d)) := by
  refine ⟨by rw [Map.keys_set_of_mem T hrow, hE.keys], ?_, ?_, ?_⟩
  · intro B row' hrow'
    rw [Map.get?_set] at hrow'
    split_ifs at hrow' with hB
    · subst hB
      obtain rfl := Option.some.inj hrow'
      rw [List.map_map, ← hE.expansions B row hrow]
      exact List.map_congr_left fun e _ => fillCost_fst B e
    · exact hE.expansions B row' hrow'
  · intro B row' e c hrow' hmem
    rw [Map.get?_set] at hrow'
    split_ifs at hrow' with hB
    · subst hB
      obtain rfl := Option.some.inj hrow'
      exact (mem_filled hE hrow hmem).2
    · exact hE.cost B row' e c hrow' hmem
  · intro B k hk
    rw [depthOf_set] at hk
    split_ifs at hk with hB
    · subst hB
      exact hexact k hk
    · exact hE.depth B k hk

theorem settled_of_fixed (hrow : T.get? N = some row)
    (hsame : ∀ e ∈ row.1, fillCost G T N e = e)
    (hfound : some m ∈ row.1.map Prod.snd ∨ none ∉ row.1.map Prod.snd → ∃ k, row.2 = some k) :
    Settled G m T N := by
  refine ⟨?_, ?_, ?_⟩
  · intro row' e c hrow' hmem hready
    obtain rfl := Option.some.inj (hrow.symm.trans hrow')
    cases c with
    | some k => exact ⟨k, rfl⟩
    | none =>
      have hfill := hsame _ hmem
      rw [fillCost_none] at hfill
      rcases hready with hself | hknown
      · simp [hself] at hfill
      · obtain ⟨k, hk⟩ := exists_maxDepth (show Known G T e from hknown)
        by_cases hself : N ∈ e <;> simp [hself, hk] at hfill
  · intro row' hrow' hm
    obtain rfl := Option.some.inj (hrow.symm.trans hrow')
    exact hfound (Or.inl hm)
  · intro row' hrow' hn
    obtain rfl := Option.some.inj (hrow.symm.trans hrow')
    exact hfound (Or.inr hn)

theorem settled_or_lt (hrow : T.get? N = some row) (hkeep : ∀ k, row.2 = some k → d = some k)
    (hfound : some m ∈ (row.1.map (fillCost G T N)).map Prod.snd ∨
      none ∉ (row.1.map (fillCost G T N)).map Prod.snd → ∃ k, d = some k) :
    (T.set N (row.1.map (fillCost G T N), d) = T ∧ Settled G m T N) ∨
      countNone (T.set N (row.1.map (fillCost G T N), d)) < countNone T := by
  have hset := countNone_set hrow (row.1.map (fillCost G T N), d)
  have hrow' : rowCount (row.1.map (fillCost G T N), d) =
      (row.1.map (fillCost G T N)).countP (·.2 = none) + if d = none then 1 else 0 := rfl
  rw [hrow', rowCount] at hset
  rcases map_fillCost_count (G := G) (T := T) N row.1 with hlt | hsame
  · right
    have hdle : (if d = none then 1 else 0) ≤ if row.2 = none then 1 else 0 := by
      cases hr : row.2 with
      | none => by_cases hdn : d = none <;> simp [hdn]
      | some k => simp [hkeep k hr]
    omega
  · have hmap : row.1.map (fillCost G T N) = row.1 := by
      rw [List.map_congr_left (g := id) (by simpa using hsame), List.map_id]
    rw [hmap] at hfound hset ⊢
    by_cases hdr : d = row.2
    · subst hdr
      exact Or.inl ⟨T.set_get?_self hrow, settled_of_fixed hrow hsame hfound⟩
    · right
      have hnone : row.2 = none := by
        cases hr : row.2 with
        | none => rfl
        | some k => exact absurd ((hkeep k hr).trans hr.symm) hdr
      have hsome : d ≠ none := fun h => hdr (h.trans hnone.symm)
      rw [if_neg hsome, if_pos hnone] at hset
      omega

end update

theorem updateToken_spec (hE : Exact G T) (hcov : Covers G m T) {N : Sym} (hN : N ∈ G.keys)
    (halt : G.alternatives N ≠ []) :
    ∃ T', updateToken G m T N = some T' ∧ Exact G T' ∧
      (∀ B k, depthOf T B = some k → depthOf T' B = some k) ∧
      ((T' = T ∧ Settled G m T N) ∨ countNone T' < countNone T) := by
  obtain ⟨row, hrow⟩ := Map.exists_get? (show N ∈ T.keys by rw [hE.keys]; exact hN)
  obtain ⟨d, hd, hkeep, hexact, hfound⟩ := fillDepth_spec hE hcov hN halt hrow rfl
  have hdepth : depthOf T N = row.2 := by simp [depthOf, hrow]
  refine ⟨T.set N (row.1.map (fillCost G T N), d), ?_, hE.set_filled hrow hexact, ?_,
    settled_or_lt hrow hkeep hfound⟩
  · simp only [updateToken, hrow, Option.bind_some, hd, Option.map_some]
  · intro B k hk
    rw [depthOf_set]
    split_ifs with hB
    · subst hB
      exact hkeep k (hdepth ▸ hk)
    · exact hk

theorem foldlM_updateToken (halt : ∀ N ∈ G.keys, G.alternatives N ≠ []) (tokens : List Sym)
    (hsub : ∀ N ∈ tokens, N ∈ G.keys) (hE : Exact G T) (hcov : Covers G m T) :
    ∃ T', tokens.foldlM (updateToken G m) T = some T' ∧ Exact G T' ∧
      (∀ B k, depthOf T B = some k → depthOf T' B = some k) ∧
      ((T' = T ∧ ∀ N ∈ tokens, Settled G m T N) ∨ countNone T' < countNone T) := by
  induction tokens generalizing T with
  | nil => exact ⟨T, rfl, hE, fun _ _ h => h, Or.inl ⟨rfl, by simp⟩⟩
  | cons N rest ih =>
    have hN := hsub N (by simp)
    obtain ⟨T₁, h₁, hE₁, hgrow₁, hprog₁⟩ := updateToken_spec hE hcov hN (halt N hN)
    have hcov₁ : Covers G m T₁ := fun B hB hle => by
      obtain ⟨k, hk⟩ := hcov B hB hle
      exact ⟨k, hgrow₁ B k hk⟩
    obtain ⟨T', h', hE', hgrow', hprog'⟩ :=
      ih (fun B hB => hsub B (List.mem_cons_of_mem _ hB)) hE₁ hcov₁
    refine ⟨T', by rw [List.foldlM_cons, h₁]; exact h', hE',
      fun B k hk => hgrow' B k (hgrow₁ B k hk), ?_⟩
    rcases hprog₁ with ⟨rfl, hset⟩ | hlt
    · rcases hprog' with ⟨rfl, hall⟩ | hlt
      · exact Or.inl ⟨rfl, fun B hB => by
          rcases List.mem_cons.mp hB with rfl | hB
          · exact hset
          · exact hall B hB⟩
      · exact Or.inr hlt
    · right
      rcases hprog' with ⟨rfl, -⟩ | hlt'
      · exact hlt
      · omega

theorem Covers.succ (hE : Exact G T) (hcov : Covers G m T)
    (hset : ∀ N ∈ G.keys, Settled G m T N) : Covers G (m + 1) T := by
  intro N hN hle
  obtain ⟨alt, ha, hcost⟩ := Grammar.depthLe_succ.mp hle
  obtain ⟨row, hrow⟩ := Map.exists_get? (show N ∈ T.keys by rw [hE.keys]; exact hN)
  have hdepth : depthOf T N = row.2 := by simp [depthOf, hrow]
  have hmem : alt.expansion ∈ row.1.map Prod.fst := by
    rw [hE.expansions N row hrow]
    exact List.mem_map.mpr ⟨alt, ha, rfl⟩
  obtain ⟨⟨e, c⟩, he, hee⟩ := List.mem_map.mp hmem
  obtain rfl : e = alt.expansion := hee
  have hready : N ∈ alt.expansion ∨ ∀ B ∈ alt.expansion, B ∈ G.keys →
      ∃ k, depthOf T B = some k := by
    by_cases hself : N ∈ alt.expansion
    · exact Or.inl hself
    · right
      rw [Grammar.CostLe, if_neg hself] at hcost
      exact fun B hB hk => hcov B hk (hcost B hB hk)
  obtain ⟨k, rfl⟩ := (hset N hN).costs row _ c hrow he hready
  have hk := (hE.cost N row _ k hrow he)
  have hkm : k ≤ m := hk.2 hcost
  rcases Nat.lt_or_eq_of_le hkm with hlt | rfl
  · exact hcov N hN ((Grammar.depthLe_succ.mpr ⟨alt, ha, hk.1⟩).mono (by omega))
  · rw [hdepth]
    exact (hset N hN).cut row hrow (List.mem_map.mpr ⟨_, he, rfl⟩)

theorem countNone_eq_zero (hE : Exact G T) (hset : ∀ N ∈ G.keys, Settled G m T N)
    (hall : ∀ N ∈ G.keys, ∃ k, depthOf T N = some k) : countNone T = 0 := by
  rw [countNone_eq]
  apply List.sum_eq_zero
  intro n hn
  obtain ⟨row, hr, rfl⟩ := List.mem_map.mp hn
  obtain ⟨⟨N, row'⟩, hmem, rfl⟩ := List.mem_map.mp hr
  have hrow : T.get? N = some row' := (Map.get?_eq_some_iff T N row').mpr hmem
  have hN : N ∈ G.keys := by rw [← hE.keys]; exact Map.mem_keys_of_get? hrow
  obtain ⟨k, hk⟩ := hall N hN
  have hdepth : row'.2 = some k := by
    rw [← hk]
    simp [depthOf, hrow]
  have hcosts : row'.1.countP (·.2 = none) = 0 := by
    rw [List.countP_eq_zero]
    rintro ⟨e, c⟩ he
    obtain ⟨j, rfl⟩ := (hset N hN).costs row' e c hrow he (Or.inr fun B _ hB => hall B hB)
    simp
  simp [rowCount, hdepth, hcosts]

structure ExactTable (G : Grammar) (table : DepthsDict) : Prop where
  keys : table.keys = G.keys
  rows : ∀ N costs depth, table.get? N = some (costs, depth) →
    costs.map Prod.fst = (G.alternatives N).map Alternative.expansion ∧
    (∀ e c, (e, c) ∈ costs → IsLeast {n | G.CostLe N e n} c) ∧ IsLeast {n | G.DepthLe n N} depth

theorem exact_initial (G : Grammar) : Exact G (initial G) where
  keys := by simp [initial]
  expansions := by
    intro N row h
    rw [initial, Map.get?_mapValues] at h
    obtain ⟨alts, ha, rfl⟩ := Option.map_eq_some_iff.mp h
    simp [Grammar.alternatives_of_get? ha]
  cost := by
    intro N row e c h hmem
    rw [initial, Map.get?_mapValues] at h
    obtain ⟨alts, -, rfl⟩ := Option.map_eq_some_iff.mp h
    simp at hmem
  depth := by
    intro N k h
    rw [depthOf, initial, Map.get?_mapValues] at h
    cases hg : G.get? N <;> simp [hg] at h

theorem covers_zero (G : Grammar) (T : WorkingTable) : Covers G 0 T :=
  fun _ _ h => absurd h id

theorem exactTable_finish (hE : Exact G T) (h0 : countNone T = 0) : ExactTable G (finish T) where
  keys := by simp [finish, hE.keys]
  rows := by
    intro N costs depth h
    rw [finish, Map.get?_mapValues] at h
    obtain ⟨row, hrow, he⟩ := Option.map_eq_some_iff.mp h
    obtain ⟨rfl, rfl⟩ := Prod.mk.inj he
    rw [countNone_eq, List.sum_eq_zero_iff] at h0
    have hzero := h0 (rowCount row) (List.mem_map.mpr ⟨row, Map.mem_values_of_get? hrow, rfl⟩)
    simp only [rowCount, Nat.add_eq_zero_iff, List.countP_eq_zero] at hzero
    refine ⟨?_, ?_, ?_⟩
    · rw [List.map_map, ← hE.expansions N row hrow]
      rfl
    · intro e c hmem
      obtain ⟨⟨e', c'⟩, hm, hec⟩ := List.mem_map.mp hmem
      obtain ⟨rfl, rfl⟩ := Prod.mk.inj hec
      cases c' with
      | none => exact absurd (by simp) (hzero.1 _ hm)
      | some c' => exact hE.cost N row e' c' hrow hm
    · cases hd : row.2 with
      | none => simp [hd] at hzero
      | some k => exact hE.depth N k (by simp [depthOf, hrow, hd])

def unfinished (s : WorkingTable × ℕ) : Bool := 0 < countNone s.1

/-- The body of the loop: the cut grows after a pass without progress. -/
def passStep (G : Grammar) (s : WorkingTable × ℕ) : Option (WorkingTable × ℕ) :=
  (pass G s.2 s.1).map fun T => (T, if countNone T = countNone s.1 then s.2 + 1 else s.2)

theorem calculateDepths_eq (G : Grammar) (fuel : ℕ) : calculateDepths G fuel =
    (WhileLoop.run unfinished (passStep G) fuel (initial G, 0)).map fun s => finish s.1 := rfl

theorem passStep_spec (halt : G.HasAlternatives) {s : WorkingTable × ℕ} (hE : Exact G s.1)
    (hcov : Covers G s.2 s.1) :
    ∃ s', passStep G s = some s' ∧ Exact G s'.1 ∧ Covers G s'.2 s'.1 ∧
      ((s'.2 = s.2 ∧ countNone s'.1 < countNone s.1) ∨
        (s' = (s.1, s.2 + 1) ∧ ∀ N ∈ G.keys, Settled G s.2 s.1 N)) := by
  obtain ⟨T', hpass, hE', hgrow, hprog⟩ :=
    foldlM_updateToken halt G.keys (fun _ h => h) hE hcov
  refine ⟨_, by simp only [passStep, pass, hpass]; rfl, hE', ?_⟩
  rcases hprog with ⟨rfl, hset⟩ | hlt
  · simp only [↓reduceIte]
    exact ⟨hcov.succ hE hset, Or.inr ⟨trivial, hset⟩⟩
  · have hne : countNone T' ≠ countNone s.1 := Nat.ne_of_lt hlt
    simp only [hne, ↓reduceIte]
    refine ⟨fun B hB hle => ?_, Or.inl ⟨trivial, hlt⟩⟩
    obtain ⟨k, hk⟩ := hcov B hB hle
    exact ⟨k, hgrow B k hk⟩

/-- `calculate_depths` returns on a grammar whose depths are all finite, with the exact table.
    The cut never passes the largest depth. -/
theorem calculateDepths_returns {M : ℕ} (hM : ∀ N ∈ G.keys, G.DepthLe M N) (fuel : ℕ)
    (hfuel : countNone (initial G) + M ≤ fuel) :
    ∃ table, calculateDepths G fuel = some table ∧ ExactTable G table := by
  have halt : G.HasAlternatives := fun N hN => (hM N hN).alternatives_ne_nil
  obtain ⟨s, hrun, ⟨hE, -, -⟩, hexit⟩ := WhileLoop.run_terminates unfinished (passStep G)
    (fun s => Exact G s.1 ∧ Covers G s.2 s.1 ∧ s.2 ≤ M)
    (fun s => countNone s.1 + (M - s.2))
    (by
      rintro ⟨T, m⟩ ⟨hE, hcov, hm⟩ hc
      have hpos : 0 < countNone T := of_decide_eq_true hc
      obtain ⟨s', hstep, hE', hcov', ⟨hcut, hlt⟩ | ⟨rfl, hset⟩⟩ := passStep_spec halt hE hcov
      · exact ⟨s', hstep, ⟨hE', hcov', hcut ▸ hm⟩, by simp only at hcut hlt ⊢; omega⟩
      · have hmM : m < M := by
          by_contra hge
          have hz := countNone_eq_zero hE hset fun N hN =>
            hcov N hN ((hM N hN).mono (Nat.le_of_not_lt hge))
          exact absurd hpos (by simp [hz])
        exact ⟨_, hstep, ⟨hE', hcov', hmM⟩, by simp only; omega⟩)
    (s := (initial G, 0)) ⟨exact_initial G, covers_zero G _, Nat.zero_le M⟩ fuel
    (by simpa using hfuel)
  refine ⟨finish s.1, ?_, exactTable_finish hE ?_⟩
  · rw [calculateDepths_eq, hrun]
    rfl
  · have := of_decide_eq_false hexit
    omega

/-- The loop never fails, and what it has filled in is exact in every state it reaches. -/
theorem reaches_spec (halt : G.HasAlternatives) {s₀ s : WorkingTable × ℕ} (hE : Exact G s₀.1)
    (hcov : Covers G s₀.2 s₀.1) (h : WhileLoop.Reaches unfinished (passStep G) s₀ s) :
    Exact G s.1 ∧ ∃ s', passStep G s = some s' := by
  induction h with
  | refl s =>
    obtain ⟨s', hstep, -⟩ := passStep_spec halt hE hcov
    exact ⟨hE, s', hstep⟩
  | step _ hb _ ih =>
    obtain ⟨s', hstep, hE', hcov', -⟩ := passStep_spec halt hE hcov
    obtain rfl := Option.some.inj (hstep.symm.trans hb)
    exact ih hE' hcov'

theorem calculateDepths_exactTable (halt : G.HasAlternatives) {fuel : ℕ} {table : DepthsDict}
    (h : calculateDepths G fuel = some table) : ExactTable G table := by
  obtain ⟨s, hrun, rfl⟩ := Option.map_eq_some_iff.mp h
  obtain ⟨⟨hE, -⟩, hexit⟩ := WhileLoop.run_invariant
    (fun s => Exact G s.1 ∧ Covers G s.2 s.1)
    (fun s s' hs _ hb => by
      obtain ⟨s'', hstep, hE', hcov', -⟩ := passStep_spec halt hs.1 hs.2
      obtain rfl := Option.some.inj (hstep.symm.trans hb)
      exact ⟨hE', hcov'⟩)
    fuel (s := (initial G, 0)) ⟨exact_initial G, covers_zero G _⟩ hrun
  refine exactTable_finish hE ?_
  have := of_decide_eq_false hexit
  omega

end DepthTable
end RSFuzz
