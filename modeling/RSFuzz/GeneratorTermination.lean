import RSFuzz.DepthTable
import RSFuzz.FoundationOptionFold
import RSFuzz.GeneratorValidity

set_option autoImplicit false

/-!
# Generation ends with a bounded tree

With the table of `calculate_depths`, an expansion of minimum cost leads to
nonterminals of smaller least height only. The minimum-cost phase therefore
closes any frontier in as many levels as its largest least height.
-/
namespace RSFuzz
open OrderedMap OptionFold

namespace InputGenerator

variable {g : InputGenerator}

theorem isLeast_expansionCost (hd : DepthTable.ExactTable g.grammar g.depthsDict) {N : Sym}
    {alt : Alternative} (ha : alt ∈ g.grammar.alternatives N) :
    IsLeast {n | g.grammar.CostLe N alt.expansion n} (g.expansionCost N alt.expansion) := by
  obtain ⟨⟨costs, depth⟩, hrow⟩ := Map.exists_get? (m := g.depthsDict) (k := N) (by
    rw [hd.keys]
    exact Grammar.mem_keys_of_mem_alternatives ha)
  obtain ⟨hfst, hcost, -⟩ := hd.rows N costs depth hrow
  obtain ⟨⟨e, c⟩, hmem, rfl⟩ : ∃ e ∈ costs, e.1 = alt.expansion := by
    rw [← List.mem_map, hfst]
    exact List.mem_map.mpr ⟨alt, ha, rfl⟩
  have hleast := hcost _ c hmem
  have hget : (costsOf costs).get? alt.expansion = some c :=
    Map.get?_foldl_set costs Map.empty (Or.inl hmem) fun w hw => (hcost _ w hw).unique hleast
  have : g.expansionCost N alt.expansion = c := by
    simp [expansionCost, costMap, Map.get?_mapValues, hrow, hget]
  rwa [this]

theorem Cheapest.costLe (hd : DepthTable.ExactTable g.grammar g.depthsDict) {N : Sym}
    {alt : Alternative} (ha : alt ∈ g.grammar.alternatives N) (hc : g.Cheapest N alt) (n : ℕ)
    (hn : g.grammar.DepthLe (n + 1) N) : g.grammar.CostLe N alt.expansion n := by
  obtain ⟨alt', ha', hcost⟩ := Grammar.depthLe_succ.mp hn
  have hle := (isLeast_expansionCost hd ha').2 hcost
  exact (isLeast_expansionCost hd ha).1.mono ((hc alt' ha').trans hle)

theorem SelectedFrom.minHeight_lt (hprod : g.grammar.Productive)
    (hd : DepthTable.ExactTable g.grammar g.depthsDict) {tree : Tree} {i dn : ℕ} {N : Sym}
    {nodes : List Node} {alt : Alternative} (hfrom : g.SelectedFrom tree i N nodes dn alt)
    (hc : g.Cheapest N alt) {n : Node} (hn : n ∈ nodes) (hu : n.children = .unexpanded) :
    g.grammar.minHeight n.symbol < g.grammar.minHeight N := by
  rw [hfrom.nodes] at hn
  obtain ⟨hmem, -, ⟨hk, -, -⟩ | ⟨-, hl, -⟩⟩ := g.mem_children _ _ _ hn
  · exact hprod.minHeight_lt_of_cheapest (Grammar.mem_keys_of_mem_alternatives hfrom.mem)
      (hc.costLe hd hfrom.mem) hmem hk
  · rw [hl] at hu
    cases hu

end InputGenerator

theorem expandNodes_next {t : Tables} {select : Selector} {upper : Tree} {rest : List Node}
    {ls ls' : LevelState} (P : Node → Prop)
    (hP : ∀ node ∈ rest, node.children = .unexpanded → ∀ tree i seen sel,
      tree.length = upper.length + 1 → select tree i node.symbol seen = some sel →
        ∀ n ∈ sel.nodes, P n)
    (h0 : ∀ n ∈ ls.next, P n) (hrun : expandNodes t select upper rest ls = some ls') :
    ∀ n ∈ ls'.next, P n := by
  induction rest generalizing ls with
  | nil =>
    obtain rfl := Option.some.inj hrun
    exact h0
  | cons node rest ih =>
    obtain ⟨ls₁, h₁, h₂⟩ := Option.bind_eq_some_iff.mp hrun
    refine ih (fun n hn => hP n (List.mem_cons_of_mem _ hn)) ?_ h₂
    rcases expandNode_cases h₁ with ⟨-, rfl⟩ | ⟨hc, sel, seen', hs, -, rfl⟩
    · exact h0
    · intro n hn
      rcases List.mem_append.mp hn with hn | hn
      · exact h0 n hn
      · exact hP node (by simp) hc _ _ _ sel (by simp) hs n hn

theorem expandLevel_next {t : Tables} {select : Selector} {st st' : GenState} {slot : Option ℕ}
    (P : Node → Prop)
    (hP : ∀ node ∈ InputGenerator.lastLevel st, node.children = .unexpanded →
      ∀ tree i seen sel, tree.length = st.tree.length → select tree i node.symbol seen = some sel →
        ∀ n ∈ sel.nodes, P n)
    (hrun : expandLevel t select st = some (st', slot)) :
    ∀ n ∈ InputGenerator.lastLevel st', P n := by
  simp only [expandLevel, Option.bind_eq_bind, Option.bind_eq_some_iff, Option.pure_def,
    Option.some.injEq, Prod.mk.injEq] at hrun
  obtain ⟨last, hlast, ls, hls, rfl, -⟩ := hrun
  have hne : st.tree ≠ [] := by
    intro h
    simp [h] at hlast
  have hlen : st.tree.dropLast.length + 1 = st.tree.length := by
    have := List.length_pos_iff.mpr hne
    rw [List.length_dropLast]
    omega
  have hnext : InputGenerator.lastLevel ⟨st.tree.dropLast ++ [ls.visited, ls.next], ls.seen,
      ls.trace⟩ = ls.next := by
    simp [InputGenerator.lastLevel, List.getLast?_append]
  rw [hnext]
  refine expandNodes_next P (fun node hn hc tree i seen sel ht => ?_) (by simp) hls
  exact hP node (by simpa [InputGenerator.lastLevel, hlast] using hn) hc tree i seen sel
    (ht.trans hlen)

structure Closable (g : InputGenerator) (bound : ℕ) (st : GenState) : Prop where
  run : RunInvariant g st
  length_le : st.tree.length ≤ bound
  frontier : ∀ n ∈ InputGenerator.lastLevel st, n.children = .unexpanded →
    st.tree.length + g.grammar.minHeight n.symbol ≤ bound

theorem RunInvariant.mem_keys {g : InputGenerator} {st : GenState} (h : RunInvariant g st)
    {n : Node} (hn : n ∈ InputGenerator.lastLevel st) (hu : n.children = .unexpanded) :
    n.symbol ∈ g.grammar.keys := by
  by_contra hk
  obtain ⟨upper, last, ht, -, hlast⟩ := h.wellFormed.split_last
  have hmem : n ∈ last := by simpa [InputGenerator.lastLevel, hlast] using hn
  rw [(h.wellFormed.nodes last (by simp [ht]) n hmem).leaf_iff.mpr hk] at hu
  cases hu

theorem Grammar.Productive.minHeight_pos {G : Grammar} (h : G.Productive) {N : Sym}
    (hN : N ∈ G.keys) : 0 < G.minHeight N := by
  by_contra h0
  have := (h.isLeast_depth hN).1
  rw [show G.minHeight N = 0 by omega] at this
  exact this

theorem Closable.step {g : InputGenerator} {bound : ℕ} {st st' : GenState} {slot : Option ℕ}
    {select : Selector} (hprod : g.grammar.Productive)
    (hd : DepthTable.ExactTable g.grammar g.depthsDict) (hsel : SelectsAlternative g select)
    (hcheap : ∀ tree i symbol seen sel, tree.length = st.tree.length →
      select tree i symbol seen = some sel →
      ∃ alt, g.SelectedFrom tree i symbol sel.nodes sel.derivNum alt ∧ g.Cheapest symbol alt)
    (h : Closable g bound st)
    (hcond : InputGenerator.anyPossibleExpansions (InputGenerator.lastLevel st) = true)
    (hrun : expandLevel g.tables select st = some (st', slot)) :
    Closable g bound st' ∧ st'.tree.length = st.tree.length + 1 := by
  obtain ⟨hinv, -, hlen, -⟩ := expandLevel_invariant hsel (fun _ _ => True)
    (fun _ _ _ _ _ _ _ => trivial) h.run trivial hrun
  obtain ⟨node, hn, hu⟩ := List.any_eq_true.mp hcond
  have hu : node.children = .unexpanded := by simpa using hu
  have hpos := hprod.minHeight_pos (h.run.mem_keys hn hu)
  have hroom := h.frontier node hn hu
  refine ⟨⟨hinv, by omega, ?_⟩, hlen⟩
  rw [hlen]
  refine expandLevel_next (fun n => n.children = .unexpanded →
    st.tree.length + 1 + g.grammar.minHeight n.symbol ≤ bound) ?_ hrun
  intro up hup hupc tree i seen sel ht hs n hn' hu'
  obtain ⟨alt, hfrom, hc⟩ := hcheap tree i up.symbol seen sel ht hs
  have hlt := hfrom.minHeight_lt hprod hd hc hn' hu'
  have := h.frontier up hup hupc
  omega

namespace InputGenerator

variable {g : InputGenerator}

theorem random_phase_returns (halt : g.grammar.HasAlternatives) (hdraw : g.grammar.Drawable)
    (hkeys : g.config.startRule ∈ g.grammar.keys) (rnd : Choices) (fuel : ℕ)
    (hfuel : g.config.maxDepths ≤ fuel) :
    ∃ s, WhileLoop.run (fun s : GenState × ℕ => g.expandCheck (lastLevel s.1) s.2)
      (fun s => (g.expandNodeRandomly rnd s.1).map fun st => (st, s.2 + 1)) fuel (g.initial, 0)
        = some s ∧ RunInvariant g s.1 ∧ s.1.tree.length ≤ 1 + g.config.maxDepths := by
  obtain ⟨s, hrun, ⟨hinv, hlen, hle⟩, -⟩ := WhileLoop.run_terminates
    (fun s : GenState × ℕ => g.expandCheck (lastLevel s.1) s.2)
    (fun s => (g.expandNodeRandomly rnd s.1).map fun st => (st, s.2 + 1))
    (fun s => RunInvariant g s.1 ∧ s.1.tree.length = s.2 + 1 ∧ s.2 ≤ g.config.maxDepths)
    (fun s => g.config.maxDepths - s.2)
    (by
      rintro ⟨st, depth⟩ ⟨hinv, hlen, hle⟩ hc
      have hlt : depth < g.config.maxDepths := by
        by_contra hge
        simp [expandCheck, Nat.le_of_not_lt hge] at hc
      obtain ⟨st', hst⟩ := (hinv.plain_returns halt rnd).1 hdraw
      obtain ⟨slot, hlevel⟩ := expandLevel_of_map_fst hst
      obtain ⟨hinv', -, hlen', -⟩ := expandLevel_invariant (Plain.selectsAlternative (.randomly rnd))
        (fun _ _ => True) (fun _ _ _ _ _ _ _ => trivial) hinv trivial hlevel
      have hlen : st.tree.length = depth + 1 := hlen
      have hlen' : st'.tree.length = st.tree.length + 1 := hlen'
      exact ⟨(st', depth + 1), by simp [hst], ⟨hinv', by simp only; omega, hlt⟩,
        by simp only; omega⟩)
    (s := (g.initial, 0)) ⟨initial_runInvariant hkeys, rfl, Nat.zero_le _⟩ fuel (by simpa using hfuel)
  exact ⟨s, hrun, hinv, by omega⟩

theorem minimum_phase_returns (hprod : g.grammar.Productive)
    (hd : DepthTable.ExactTable g.grammar g.depthsDict) (rnd : Choices) {bound : ℕ}
    {s : GenState × ℕ} (hs : Closable g bound s.1) (fuel : ℕ) (hfuel : bound ≤ fuel) :
    ∃ s', WhileLoop.run (fun s : GenState × ℕ => anyPossibleExpansions (lastLevel s.1))
      (fun s => (g.expandMinimumNode rnd s.1).map fun st => (st, s.2 + 1)) fuel s = some s' ∧
      Closable g bound s'.1 := by
  obtain ⟨s', hrun, hinv, -⟩ := WhileLoop.run_terminates
    (fun s : GenState × ℕ => anyPossibleExpansions (lastLevel s.1))
    (fun s => (g.expandMinimumNode rnd s.1).map fun st => (st, s.2 + 1))
    (fun s => Closable g bound s.1) (fun s => bound - s.1.tree.length)
    (by
      rintro ⟨st, depth⟩ hinv hc
      obtain ⟨st', hst⟩ := (hinv.run.plain_returns hprod.hasAlternatives rnd).2
      obtain ⟨slot, hlevel⟩ := expandLevel_of_map_fst hst
      obtain ⟨hinv', hlen⟩ := hinv.step hprod hd (Plain.selectsAlternative (.minimum rnd))
        (fun tree i symbol seen sel _ hsel => by
          obtain ⟨alt, hfrom, hcheap, -⟩ := selectMinimum_spec hsel
          exact ⟨alt, hfrom, hcheap⟩) hc hlevel
      have hlen : st'.tree.length = st.tree.length + 1 := hlen
      have := hinv'.length_le
      exact ⟨(st', depth + 1), by simp [hst], hinv', by simp only; omega⟩)
    hs fuel (by omega)
  exact ⟨s', hrun, hinv⟩

end InputGenerator

/-- Every least height fits between the random phase and the bound. -/
theorem RunInvariant.closable {g : InputGenerator} {st : GenState} (h : RunInvariant g st)
    {depth : ℕ} (hlen : st.tree.length ≤ depth) : Closable g (depth + g.grammar.maxMinHeight) st where
  run := h
  length_le := by omega
  frontier := by
    intro n hn hu
    have := Grammar.minHeight_le_max (h.mem_keys hn hu)
    omega

namespace InputGenerator

theorem generateTree_returns {g : InputGenerator} (hprod : g.grammar.Productive)
    (hdraw : g.grammar.Drawable) (hkeys : g.config.startRule ∈ g.grammar.keys)
    (hd : DepthTable.ExactTable g.grammar g.depthsDict) (rnd : Choices) (fuel : ℕ)
    (hfuel : 1 + g.config.maxDepths + g.grammar.maxMinHeight ≤ fuel) :
    ∃ st, g.generateTree rnd fuel = some st ∧
      st.tree.length ≤ 1 + g.config.maxDepths + g.grammar.maxMinHeight := by
  obtain ⟨s₁, h₁, hinv, hlen⟩ :=
    random_phase_returns hprod.hasAlternatives hdraw hkeys rnd fuel (by omega)
  obtain ⟨s₂, h₂, hclosed⟩ :=
    minimum_phase_returns hprod hd rnd (hinv.closable hlen) fuel hfuel
  exact ⟨s₂.1, by simp only [generateTree, h₁, Option.bind_eq_bind, Option.bind_some, h₂,
    Option.pure_def], hclosed.length_le⟩

end InputGenerator

theorem sampleGrammar_productive : sampleGrammar.Productive := by
  have hitem : Derives sampleGrammar (.node "item" 0 [.leaf "'a'"]) :=
    .node (show ⟨["'a'"], 0, 1⟩ ∈ sampleGrammar.alternatives "item" by decide) rfl rfl (by
      intro t ht
      obtain rfl := List.mem_singleton.mp ht
      exact .leaf (by decide))
  have hlist : Derives sampleGrammar (.node "list" 1 [.leaf "'b'"]) :=
    .node (show ⟨["'b'"], 1, 1 / 2⟩ ∈ sampleGrammar.alternatives "list" by decide +kernel)
      rfl rfl (by
      intro t ht
      obtain rfl := List.mem_singleton.mp ht
      exact .leaf (by decide))
  intro N hN
  have hN : N = "list" ∨ N = "item" := by simpa [sampleGrammar, Map.keys] using hN
  rcases hN with rfl | rfl
  · exact ⟨_, hlist, rfl, by decide⟩
  · exact ⟨_, hitem, rfl, by decide⟩

/-- A normalised grammar with a negative weight. Without `'a'` the weights add up to `-2`. -/
def debtGrammar : Grammar :=
  ⟨[("start", [⟨["'a'"], 0, 3⟩, ⟨["'b'"], 1, 1⟩, ⟨["'c'"], 2, -3⟩])], by decide⟩

def debtGenerator : InputGenerator where
  grammar := debtGrammar
  depthsDict := ⟨[("start", ([(["'a'"], 0), (["'b'"], 0), (["'c'"], 0)], 1))], by decide⟩
  config := ⟨"start", 1⟩
  tables := {
    subSequences := ⟨[("start", ⟨[(0, ⟨[(["start"], 0)], by decide⟩)], by decide⟩)], by decide⟩
    idxSubseq := ⟨[(0, ["start"])], by decide⟩
    recurrentSequence := ⟨[("start", [(0, {0})])], by decide⟩
    defined := by
      intro S entries h e he k hk
      obtain rfl : entries = [(0, {0})] := List.mem_singleton.mp (Map.mem_values_of_get? h)
      obtain rfl := List.mem_singleton.mp he
      obtain rfl := Finset.mem_singleton.mp hk
      decide }

theorem debtGrammar_productive : debtGrammar.Productive := by
  have hstart : Derives debtGrammar (.node "start" 1 [.leaf "'b'"]) :=
    .node (show ⟨["'b'"], 1, 1⟩ ∈ debtGrammar.alternatives "start" by decide +kernel) rfl rfl (by
      intro t ht
      obtain rfl := List.mem_singleton.mp ht
      exact .leaf (by decide))
  intro N hN
  obtain rfl : N = "start" := by simpa [debtGrammar, Map.keys] using hN
  exact ⟨_, hstart, rfl, by decide⟩

theorem debtGenerator_generateTree (fuel : ℕ) :
    debtGenerator.generateTree ⟨fun _ _ => 0, fun _ => 0⟩ fuel = none := by
  have hc : debtGenerator.expandCheck (InputGenerator.lastLevel debtGenerator.initial) 0 = true := by
    decide +kernel
  have hb : debtGenerator.expandNodeRandomly ⟨fun _ _ => 0, fun _ => 0⟩ debtGenerator.initial =
      none := Option.isNone_iff_eq_none.mp (by decide +kernel)
  cases fuel with
  | zero => simp [InputGenerator.generateTree, WhileLoop.run, hc]
  | succ fuel => simp [InputGenerator.generateTree, WhileLoop.run_succ_of, hc, hb]

end RSFuzz
