import Mathlib.Data.ENat.Lattice
import Mathlib.Order.CompletePartialOrder
import Mathlib.Order.FixedPoints
import RSFuzz.DepthTable

set_option autoImplicit false

/-!
# The depth table as a least fixpoint

Depths and costs as the least solution of their equations over `ℕ∞`, where a
nonterminal without a finite tree has depth `⊤`, and the table that
`calculate_depths` returns.
-/
namespace RSFuzz
open OrderedMap

namespace Grammar

variable {G : Grammar}

noncomputable def costWith (G : Grammar) (depth : Sym → ℕ∞) (N : Sym) (expansion : List Sym) : ℕ∞ :=
  if N ∈ expansion then 999 else ⨆ B, ⨆ (_ : B ∈ expansion), ⨆ (_ : B ∈ G.keys), depth B

theorem costWith_mono (G : Grammar) {depth depth' : Sym → ℕ∞} (h : depth ≤ depth') (N : Sym)
    (expansion : List Sym) : G.costWith depth N expansion ≤ G.costWith depth' N expansion := by
  unfold costWith
  split_ifs
  · exact le_rfl
  · exact iSup_mono fun B => iSup₂_mono fun _ _ => h B

/-- `depth(N) = 1 + min cost(N, alt)`, as an operator on the depths. -/
noncomputable def depthStep (G : Grammar) : (Sym → ℕ∞) →o (Sym → ℕ∞) where
  toFun depth N := 1 + ⨅ alt, ⨅ (_ : alt ∈ G.alternatives N), G.costWith depth N alt.expansion
  monotone' _ _ h N := by
    have hinf := iInf₂_mono fun (alt : Alternative) (_ : alt ∈ G.alternatives N) =>
      G.costWith_mono h N alt.expansion
    exact add_le_add le_rfl hinf

noncomputable def leastDepth (G : Grammar) : Sym → ℕ∞ := OrderHom.lfp G.depthStep

noncomputable def leastCost (G : Grammar) (N : Sym) (expansion : List Sym) : ℕ∞ :=
  G.costWith G.leastDepth N expansion

theorem leastDepth_eq (G : Grammar) (N : Sym) : G.leastDepth N =
    1 + ⨅ alt, ⨅ (_ : alt ∈ G.alternatives N), G.leastCost N alt.expansion :=
  congrFun G.depthStep.map_lfp.symm N

theorem costWith_le_iff {depth : Sym → ℕ∞} {N : Sym} {expansion : List Sym} {n : ℕ}
    (hdepth : ∀ B, depth B ≤ n ↔ G.DepthLe n B) :
    G.costWith depth N expansion ≤ n ↔ G.CostLe N expansion n := by
  unfold costWith CostLe
  split_ifs
  · exact_mod_cast Iff.rfl
  · simp only [iSup_le_iff, hdepth]

/-- A depth is bounded by `n` exactly if unfolding the equations `n` times bounds it. -/
theorem leastDepth_le_iff {n : ℕ} {N : Sym} : G.leastDepth N ≤ n ↔ G.DepthLe n N := by
  induction n generalizing N with
  | zero =>
    rw [leastDepth_eq]
    simp [DepthLe]
  | succ n ih =>
    have hstep : ∀ c : ℕ∞, 1 + c ≤ (n + 1 : ℕ) ↔ c < (n + 1 : ℕ) := by
      intro c
      rw [Nat.cast_add, Nat.cast_one, add_comm 1 c, ENat.lt_natCast_add_one_iff]
      exact (ENat.addLECancellable_of_ne_top ENat.one_ne_top).add_le_add_iff_right
    rw [leastDepth_eq, hstep, depthLe_succ]
    simp only [iInf_lt_iff, leastCost, exists_prop]
    refine exists_congr fun alt => and_congr_right fun _ => ?_
    rw [← costWith_le_iff fun B => ih, Nat.cast_add, Nat.cast_one,
      ENat.lt_natCast_add_one_iff]

theorem leastCost_le_iff {n : ℕ} {N : Sym} {expansion : List Sym} :
    G.leastCost N expansion ≤ n ↔ G.CostLe N expansion n :=
  costWith_le_iff fun _ => leastDepth_le_iff

theorem eq_of_isLeast {a : ℕ∞} {P : ℕ → Prop} (hP : ∀ n : ℕ, a ≤ n ↔ P n) {k : ℕ}
    (hk : IsLeast {n | P n} k) : a = k := by
  refine le_antisymm ((hP k).mpr hk.1) ?_
  obtain ⟨n, rfl⟩ := ENat.ne_top_iff_exists.mp (ne_top_of_le_ne_top (ENat.natCast_ne_top k) ((hP k).mpr hk.1))
  exact Nat.cast_le.mpr (hk.2 ((hP n).mp le_rfl))

theorem leastDepth_ne_top_iff {N : Sym} : G.leastDepth N ≠ ⊤ ↔ ∃ n, G.DepthLe n N := by
  rw [ENat.ne_top_iff_exists]
  constructor
  · rintro ⟨n, hn⟩
    exact ⟨n, leastDepth_le_iff.mp hn.ge⟩
  · rintro ⟨n, hn⟩
    exact ENat.ne_top_iff_exists.mp (ne_top_of_le_ne_top (ENat.natCast_ne_top n) (leastDepth_le_iff.mpr hn))

theorem leastDepth_congr {G' : Grammar} (hkeys : ∀ N, N ∈ G'.keys ↔ N ∈ G.keys)
    (halts : ∀ N alt, alt ∈ G'.alternatives N ↔ alt ∈ G.alternatives N) :
    G'.leastDepth = G.leastDepth := by
  have hstep : G'.depthStep = G.depthStep := by
    ext depth N
    simp only [depthStep, costWith, hkeys, halts]
  rw [leastDepth, leastDepth, hstep]

theorem leastDepth_eq_minHeight {N : Sym} (hN : N ∈ G.keys) {t : DTree} (ht : Derives G t)
    (hs : t.symbol = N) (hlt : t.height < 999) : G.leastDepth N = G.minHeight N :=
  eq_of_isLeast (fun _ => leastDepth_le_iff) (isLeast_depth_of_derives hN ht hs hlt)

end Grammar

namespace DepthTable

variable {G : Grammar}

theorem exists_bound (h : ∀ N ∈ G.keys, G.leastDepth N ≠ ⊤) : ∃ M, ∀ N ∈ G.keys, G.DepthLe M N := by
  have key : ∀ keys : List Sym, (∀ N ∈ keys, G.leastDepth N ≠ ⊤) →
      ∃ M, ∀ N ∈ keys, G.DepthLe M N := by
    intro keys
    induction keys with
    | nil => exact fun _ => ⟨0, by simp⟩
    | cons N keys ih =>
      intro hkeys
      obtain ⟨n, hn⟩ := Grammar.leastDepth_ne_top_iff.mp (hkeys N (by simp))
      obtain ⟨M, hM⟩ := ih fun B hB => hkeys B (List.mem_cons_of_mem N hB)
      refine ⟨max n M, fun B hB => ?_⟩
      rcases List.mem_cons.mp hB with rfl | hB
      · exact hn.mono (le_max_left _ _)
      · exact (hM B hB).mono (le_max_right _ _)
  exact key G.keys h

/-- The table holds the least depths and costs. -/
structure LeastTable (G : Grammar) (table : DepthsDict) : Prop where
  keys : table.keys = G.keys
  rows : ∀ N costs depth, table.get? N = some (costs, depth) →
    costs.map Prod.fst = (G.alternatives N).map Alternative.expansion ∧
    (∀ e c, (e, c) ∈ costs → G.leastCost N e = c) ∧ G.leastDepth N = depth

theorem ExactTable.least {table : DepthsDict} (h : ExactTable G table) : LeastTable G table := by
  refine ⟨h.keys, fun N costs depth hrow => ?_⟩
  obtain ⟨hexp, hcost, hdepth⟩ := h.rows N costs depth hrow
  refine ⟨hexp, fun e c hmem => ?_, ?_⟩
  · exact Grammar.eq_of_isLeast (fun _ => Grammar.leastCost_le_iff) (hcost e c hmem)
  · exact Grammar.eq_of_isLeast (fun _ => Grammar.leastDepth_le_iff) hdepth

theorem ExactTable.finite {table : DepthsDict} (h : ExactTable G table) :
    ∀ N ∈ G.keys, G.leastDepth N ≠ ⊤ := by
  intro N hN
  obtain ⟨⟨costs, depth⟩, hrow⟩ := Map.exists_get? (m := table) (k := N) (by rwa [h.keys])
  exact Grammar.leastDepth_ne_top_iff.mpr ⟨depth, (h.rows N costs depth hrow).2.2.1⟩

/-- `calculate_depths` returns exactly if all depths are finite, and otherwise keeps passing over
    the rules without an exception. What it returns are the least depths and costs, for any order
    of the rules, and minimal heights below 999. -/
theorem calculateDepths_least (G : Grammar) (halt : G.HasAlternatives) :
    ((∃ fuel table, calculateDepths G fuel = some table) ↔ ∀ N ∈ G.keys, G.leastDepth N ≠ ⊤) ∧
    (∀ s, WhileLoop.Reaches unfinished (passStep G) (initial G, 0) s →
      ∃ s', passStep G s = some s') ∧
    (∀ fuel table, calculateDepths G fuel = some table → LeastTable G table) ∧
    (∀ G' : Grammar, (∀ N, N ∈ G'.keys ↔ N ∈ G.keys) →
      (∀ N alt, alt ∈ G'.alternatives N ↔ alt ∈ G.alternatives N) → G'.leastDepth = G.leastDepth) ∧
    ∀ N ∈ G.keys, ∀ t, Derives G t → t.symbol = N → t.height < 999 →
      G.leastDepth N = G.minHeight N := by
  refine ⟨⟨?_, fun hfinite => ?_⟩, fun s hs => ?_, fun fuel table h => ?_, ?_, ?_⟩
  · rintro ⟨fuel, table, h⟩
    exact (calculateDepths_exactTable halt h).finite
  · obtain ⟨M, hM⟩ := exists_bound hfinite
    obtain ⟨table, h, -⟩ := calculateDepths_returns hM _ le_rfl
    exact ⟨_, table, h⟩
  · exact (reaches_spec halt (exact_initial G) (covers_zero G _) hs).2
  · exact (calculateDepths_exactTable halt h).least
  · exact fun G' hkeys halts => Grammar.leastDepth_congr hkeys halts
  · exact fun N hN t ht hs hlt => Grammar.leastDepth_eq_minHeight hN ht hs hlt

def mutualGrammar : Grammar :=
  ⟨[("outer", [⟨["inner"], 0, 1⟩]), ("inner", [⟨["outer"], 0, 1⟩, ⟨["'x'"], 1, 1⟩])], by decide⟩

theorem calculateDepths_least_mutual :
    mutualGrammar.leastDepth "outer" = 2 ∧ ∀ N ∈ mutualGrammar.keys, mutualGrammar.leastDepth N ≠ ⊤ := by
  have hrun : (calculateDepths mutualGrammar 9).map (fun table => (table.get? "outer").map Prod.snd) =
      some (some 2) := by
    decide +kernel
  obtain ⟨table, htable, hdepth⟩ := Option.map_eq_some_iff.mp hrun
  obtain ⟨⟨costs, depth⟩, hrow, rfl⟩ := Option.map_eq_some_iff.mp hdepth
  have hleast := calculateDepths_least mutualGrammar (by decide)
  exact ⟨((hleast.2.2.1 9 table htable).rows _ _ _ hrow).2.2, hleast.1.mp ⟨9, table, htable⟩⟩

end DepthTable
end RSFuzz
