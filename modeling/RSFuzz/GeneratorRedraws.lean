import RSFuzz.GeneratorSelection

set_option autoImplicit false

/-!
# Other draws for the same run

Where every selection of one selector is one of another for some draw, every run
is one of the other for some draws. The position of a node is drawn for once in
a run, so that its draw can be chosen when the run gets there.
-/
namespace RSFuzz
open WeightedDraw

/-- Whatever `S` selects by a draw, `S'` selects by some draw. -/
def Redraws (S S' : Choices → Selector) : Prop :=
  ∀ (tree : Tree) (i : ℕ) (symbol : Sym) (seen : Finset ℕ) (r : ℕ), ∃ r', ∀ rnd rnd' : Choices,
    rnd.expansion (tree.length - 1) i = r → rnd'.expansion (tree.length - 1) i = r' →
      S' rnd' tree i symbol seen = S rnd tree i symbol seen

def levelStep (t : Tables) (select : Selector) (s : GenState × ℕ) : Option (GenState × ℕ) :=
  ((expandLevel t select s.1).map Prod.fst).map fun st => (st, s.2 + 1)

section Runs

variable {S S' : Choices → Selector} (t : Tables) (rnd : Choices)

theorem expandNode_visited {t : Tables} {select : Selector} {upper : Tree} {rest : List Node}
    {ls ls' : LevelState} {node : Node} (h : expandNode t select upper rest ls node = some ls') :
    ls'.visited.length = ls.visited.length + 1 := by
  cases hc : node.children with
  | unexpanded =>
    simp only [expandNode, hc, Option.bind_eq_bind, Option.bind_eq_some_iff, Option.pure_def,
      Option.some.injEq] at h
    obtain ⟨sel, -, seen, -, rfl⟩ := h
    simp
  | leaf =>
    simp only [expandNode, hc, Option.some.injEq] at h
    simp [← h]
  | range a b =>
    simp only [expandNode, hc, Option.some.injEq] at h
    simp [← h]

theorem Redraws.expandNode (h : Redraws S S') (upper : Tree) (rest : List Node) (ls : LevelState)
    (node : Node) : ∃ r', ∀ rnd' : Choices, rnd'.expansion upper.length ls.visited.length = r' →
      RSFuzz.expandNode t (S' rnd') upper rest ls node = RSFuzz.expandNode t (S rnd) upper rest ls node := by
  obtain ⟨r', hr'⟩ := h (upper ++ [ls.visited ++ node :: rest]) ls.visited.length node.symbol ls.seen
    (rnd.expansion upper.length ls.visited.length)
  refine ⟨r', fun rnd' hrnd' => ?_⟩
  have hdepth : (upper ++ [ls.visited ++ node :: rest]).length - 1 = upper.length := by simp
  rw [hdepth] at hr'
  have hsel := hr' rnd rnd' rfl hrnd'
  cases hc : node.children with
  | unexpanded => simp only [RSFuzz.expandNode, hc, hsel]
  | leaf => simp only [RSFuzz.expandNode, hc]
  | range a b => simp only [RSFuzz.expandNode, hc]

theorem Redraws.expandNodes (h : Redraws S S') (upper : Tree) (rest : List Node) (ls : LevelState) :
    ∃ f : ℕ → ℕ, ∀ rnd' : Choices,
      (∀ i, ls.visited.length ≤ i → rnd'.expansion upper.length i = f i) →
      RSFuzz.expandNodes t (S' rnd') upper rest ls = RSFuzz.expandNodes t (S rnd) upper rest ls := by
  induction rest generalizing ls with
  | nil => exact ⟨fun _ => 0, fun _ _ => rfl⟩
  | cons node rest ih =>
    obtain ⟨r', hr'⟩ := h.expandNode t rnd upper rest ls node
    cases hfirst : RSFuzz.expandNode t (S rnd) upper rest ls node with
    | none =>
      refine ⟨fun _ => r', fun rnd' hrnd' => ?_⟩
      rw [RSFuzz.expandNodes, RSFuzz.expandNodes, hr' rnd' (hrnd' _ le_rfl), hfirst]
      rfl
    | some ls₁ =>
      obtain ⟨f, hf⟩ := ih ls₁
      have hlen := expandNode_visited hfirst
      refine ⟨Function.update f ls.visited.length r', fun rnd' hrnd' => ?_⟩
      have hstep := hr' rnd' (by rw [hrnd' _ le_rfl, Function.update_self])
      rw [RSFuzz.expandNodes, RSFuzz.expandNodes, hstep, hfirst, Option.bind_some, Option.bind_some]
      refine hf rnd' fun i hi => ?_
      rw [hrnd' i (by omega), Function.update_of_ne (by omega)]

theorem Redraws.expandLevel (h : Redraws S S') (st : GenState) :
    ∃ f : ℕ → ℕ, ∀ rnd' : Choices, rnd'.expansion (st.tree.length - 1) = f →
      RSFuzz.expandLevel t (S' rnd') st = RSFuzz.expandLevel t (S rnd) st := by
  cases hlast : st.tree.getLast? with
  | none =>
    refine ⟨fun _ => 0, fun rnd' _ => ?_⟩
    simp only [RSFuzz.expandLevel, hlast, Option.bind_eq_bind, Option.bind_none]
  | some last =>
    obtain ⟨f, hf⟩ := h.expandNodes t rnd st.tree.dropLast last ⟨[], [], st.seen, none, st.trace⟩
    refine ⟨f, fun rnd' hrnd' => ?_⟩
    have hsame := hf rnd' fun i _ => by rw [List.length_dropLast, hrnd']
    simp only [RSFuzz.expandLevel, hlast, Option.bind_eq_bind, Option.bind_some, hsame]

theorem levelStep_length {t : Tables} {select : Selector} {s s' : GenState × ℕ}
    (h : levelStep t select s = some s') (hlen : s.1.tree.length = s.2 + 1) :
    s'.2 = s.2 + 1 ∧ s'.1.tree.length = s'.2 + 1 := by
  obtain ⟨st, hst, rfl⟩ := Option.map_eq_some_iff.mp h
  obtain ⟨out, hout, rfl⟩ := Option.map_eq_some_iff.mp hst
  simp only [expandLevel, Option.bind_eq_bind, Option.bind_eq_some_iff, Option.pure_def,
    Option.some.injEq] at hout
  obtain ⟨last, -, ls, -, rfl⟩ := hout
  refine ⟨rfl, ?_⟩
  rw [List.length_append, List.length_dropLast, hlen]
  rfl

theorem run_levelStep_length {t : Tables} {select : Selector} {cond : GenState × ℕ → Bool}
    {fuel : ℕ} {s s' : GenState × ℕ} (h : WhileLoop.run cond (levelStep t select) fuel s = some s')
    (hlen : s.1.tree.length = s.2 + 1) : s.2 ≤ s'.2 ∧ s'.1.tree.length = s'.2 + 1 :=
  (WhileLoop.run_invariant (fun u => s.2 ≤ u.2 ∧ u.1.tree.length = u.2 + 1)
    (fun u u' hu _ hstep => by
      have hnext := levelStep_length hstep hu.2
      exact ⟨by omega, hnext.2⟩)
    fuel ⟨le_rfl, hlen⟩ h).1

theorem Redraws.run (h : Redraws S S') (cond : GenState × ℕ → Bool) (fuel : ℕ) (s : GenState × ℕ)
    (hlen : s.1.tree.length = s.2 + 1) :
    ∃ f : ℕ → ℕ → ℕ, ∀ rnd' : Choices,
      (∀ d, s.2 ≤ d → (∀ s', WhileLoop.run cond (levelStep t (S rnd)) fuel s = some s' → d < s'.2) →
        rnd'.expansion d = f d) →
      WhileLoop.run cond (levelStep t (S' rnd')) fuel s =
        WhileLoop.run cond (levelStep t (S rnd)) fuel s := by
  induction fuel generalizing s with
  | zero => exact ⟨fun _ _ => 0, fun _ _ => rfl⟩
  | succ fuel ih =>
    by_cases hc : cond s = true
    · obtain ⟨f₀, hf₀⟩ := h.expandLevel t rnd s.1
      rw [hlen, Nat.add_sub_cancel] at hf₀
      cases hstep : levelStep t (S rnd) s with
      | none =>
        refine ⟨fun _ => f₀, fun rnd' hrnd' => ?_⟩
        rw [WhileLoop.run_succ_of fuel hc, hstep, Option.bind_none] at hrnd'
        have hsame : levelStep t (S' rnd') s = levelStep t (S rnd) s := by
          rw [levelStep, levelStep, hf₀ rnd' (hrnd' s.2 le_rfl nofun)]
        rw [WhileLoop.run_succ_of fuel hc, WhileLoop.run_succ_of fuel hc, hsame, hstep]
        rfl
      | some s₁ =>
        obtain ⟨hnext, hlen₁⟩ := levelStep_length hstep hlen
        obtain ⟨f, hf⟩ := ih s₁ hlen₁
        refine ⟨Function.update f s.2 f₀, fun rnd' hrnd' => ?_⟩
        rw [WhileLoop.run_succ_of fuel hc, hstep, Option.bind_some] at hrnd'
        have hfirst : rnd'.expansion s.2 = f₀ := by
          rw [hrnd' s.2 le_rfl fun s' hs' => by
            have := (run_levelStep_length hs' hlen₁).1
            omega]
          exact Function.update_self ..
        have hsame : levelStep t (S' rnd') s = levelStep t (S rnd) s := by
          rw [levelStep, levelStep, hf₀ rnd' hfirst]
        rw [WhileLoop.run_succ_of fuel hc, WhileLoop.run_succ_of fuel hc, hsame, hstep,
          Option.bind_some, Option.bind_some]
        refine hf rnd' fun d hd hend => ?_
        rw [hrnd' d (by omega) hend, Function.update_of_ne (by omega)]
    · refine ⟨fun _ _ => 0, fun rnd' _ => ?_⟩
      have hc := Bool.not_eq_true _ |>.mp hc
      rw [WhileLoop.run_of_not _ hc, WhileLoop.run_of_not _ hc]

end Runs

theorem generateTree_eq (g : InputGenerator) (rnd : Choices) (fuel : ℕ) :
    g.generateTree rnd fuel = (WhileLoop.run (fun s : GenState × ℕ =>
        g.expandCheck (InputGenerator.lastLevel s.1) s.2) (levelStep g.tables (g.selectRandomly rnd))
        fuel (g.initial, 0)).bind fun s => (WhileLoop.run (fun s : GenState × ℕ =>
          InputGenerator.anyPossibleExpansions (InputGenerator.lastLevel s.1))
          (levelStep g.tables (g.selectMinimum rnd)) fuel s).map Prod.fst := by
  have hrandomly : levelStep g.tables (g.selectRandomly rnd) =
      fun s => (g.expandNodeRandomly rnd s.1).map fun st => (st, s.2 + 1) := rfl
  have hminimum : levelStep g.tables (g.selectMinimum rnd) =
      fun s => (g.expandMinimumNode rnd s.1).map fun st => (st, s.2 + 1) := rfl
  simp only [InputGenerator.generateTree, hrandomly, hminimum, Option.map_eq_bind,
    Option.bind_eq_bind, Option.pure_def, Function.comp_def]

/-- Generators that select the same, one for other draws, with the same tables and depths. -/
structure Redrawn (g g' : InputGenerator) : Prop where
  tables : g'.tables = g.tables
  config : g'.config = g.config
  randomly : Redraws g.selectRandomly g'.selectRandomly
  minimum : Redraws g.selectMinimum g'.selectMinimum

theorem Redrawn.generateTree {g g' : InputGenerator} (h : Redrawn g g') (rnd : Choices) (fuel : ℕ) :
    ∃ rnd', g'.generateTree rnd' fuel = g.generateTree rnd fuel := by
  have hcheck : g'.expandCheck = g.expandCheck := by
    funext nodes depth
    simp only [InputGenerator.expandCheck, h.config]
  have hinitial : g'.initial = g.initial := by simp only [InputGenerator.initial, h.config]
  have hlen : (g.initial, 0).1.tree.length = (g.initial, 0).2 + 1 := rfl
  obtain ⟨f₁, hf₁⟩ := h.randomly.run g.tables rnd
    (fun s => g.expandCheck (InputGenerator.lastLevel s.1) s.2) fuel (g.initial, 0) hlen
  cases hfirst : WhileLoop.run (fun s : GenState × ℕ =>
      g.expandCheck (InputGenerator.lastLevel s.1) s.2) (levelStep g.tables (g.selectRandomly rnd))
      fuel (g.initial, 0) with
  | none =>
    have hsame := hf₁ ⟨f₁, rnd.slot⟩ fun _ _ _ => rfl
    rw [hfirst] at hsame
    refine ⟨⟨f₁, rnd.slot⟩, ?_⟩
    rw [generateTree_eq, generateTree_eq, h.tables, hcheck, hinitial, hsame, hfirst, Option.bind_none,
      Option.bind_none]
  | some s =>
    have hs := (run_levelStep_length hfirst hlen).2
    obtain ⟨f₂, hf₂⟩ := h.minimum.run g.tables rnd
      (fun s => InputGenerator.anyPossibleExpansions (InputGenerator.lastLevel s.1)) fuel s hs
    have hsame := hf₁ ⟨fun d => if d < s.2 then f₁ d else f₂ d, rnd.slot⟩ fun d _ hend =>
      if_pos (hend s hfirst)
    have hsame' := hf₂ ⟨fun d => if d < s.2 then f₁ d else f₂ d, rnd.slot⟩ fun d hd _ =>
      if_neg (by omega)
    rw [hfirst] at hsame
    refine ⟨⟨fun d => if d < s.2 then f₁ d else f₂ d, rnd.slot⟩, ?_⟩
    rw [generateTree_eq, generateTree_eq, h.tables, hcheck, hinitial, hsame, hfirst, Option.bind_some,
      Option.bind_some, hsame']

end RSFuzz
