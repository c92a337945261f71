import Mathlib.Data.Finset.Dedup
import RSFuzz.FoundationGrammarYield
import RSFuzz.GeneratorCompleteness

set_option autoImplicit false

/-!
# The language of the inputs

A grammar of the program as a context-free grammar. Without rules the random
phase generates exactly the derivation trees of likely alternatives up to its
depth, so the sentences of the inputs are the words of the language.
-/
namespace RSFuzz
open OrderedMap OptionFold TableState GrammarYield WeightedDraw

namespace Grammar

def toSymbol (G : Grammar) (s : Sym) : Symbol Sym Sym :=
  if s ∈ G.keys then .nonterminal s else .terminal s

def toRules (G : Grammar) (s : Sym) : List (ContextFreeRule Sym Sym) :=
  (G.alternatives s).map fun a => ⟨s, a.expansion.map G.toSymbol⟩

/-- The terminals are the symbols without a rule. -/
def toCFG (G : Grammar) (start : Sym) : ContextFreeGrammar Sym where
  NT := Sym
  initial := start
  rules := (G.keys.flatMap G.toRules).toFinset

variable {G : Grammar} {start : Sym}

theorem toSymbol_of_mem {s : Sym} (h : s ∈ G.keys) : G.toSymbol s = .nonterminal s := if_pos h

theorem toSymbol_of_notMem {s : Sym} (h : s ∉ G.keys) : G.toSymbol s = .terminal s := if_neg h

theorem eq_of_toSymbol_terminal {s a : Sym} (h : G.toSymbol s = .terminal a) :
    s ∉ G.keys ∧ s = a := by
  by_cases hs : s ∈ G.keys
  · rw [toSymbol_of_mem hs] at h
    cases h
  · rw [toSymbol_of_notMem hs] at h
    exact ⟨hs, Symbol.terminal.inj h⟩

theorem eq_of_toSymbol_nonterminal {s a : Sym} (h : G.toSymbol s = .nonterminal a) :
    s ∈ G.keys ∧ s = a := by
  by_cases hs : s ∈ G.keys
  · rw [toSymbol_of_mem hs] at h
    exact ⟨hs, Symbol.nonterminal.inj h⟩
  · rw [toSymbol_of_notMem hs] at h
    cases h

theorem mem_rules_toCFG {r : ContextFreeRule Sym Sym} :
    r ∈ (G.toCFG start).rules ↔
      ∃ a ∈ G.alternatives r.input, r.output = a.expansion.map G.toSymbol := by
  change r ∈ (G.keys.flatMap G.toRules).toFinset ↔ _
  rw [List.mem_toFinset, List.mem_flatMap]
  constructor
  · rintro ⟨s, -, hr⟩
    obtain ⟨a, ha, rfl⟩ := List.mem_map.mp hr
    exact ⟨a, ha, rfl⟩
  · rintro ⟨a, ha, hout⟩
    exact ⟨r.input, mem_keys_of_mem_alternatives ha,
      List.mem_map.mpr ⟨a, ha, ContextFreeRule.ext rfl hout.symm⟩⟩

end Grammar

section Words

variable {G : Grammar} {start : Sym}

theorem yields_forest {ts : List DTree}
    (h : ∀ t ∈ ts, Yields (G.toCFG start) [G.toSymbol t.symbol] t.yield) :
    Yields (G.toCFG start) ((ts.map DTree.symbol).map G.toSymbol) (DTree.yieldForest ts) := by
  induction ts with
  | nil => exact .nil
  | cons t ts ih =>
    exact (h t List.mem_cons_self).append (ih fun u hu => h u (List.mem_cons_of_mem t hu))

theorem Derives.yields {t : DTree} (h : Derives G t) :
    Yields (G.toCFG start) [G.toSymbol t.symbol] t.yield := by
  induction h with
  | @leaf s hs =>
    rw [DTree.symbol, Grammar.toSymbol_of_notMem hs]
    exact .terminal .nil
  | @node s d children alt ha _ hc _ ih =>
    have hforest := yields_forest ih
    rw [hc] at hforest
    have hrule : (⟨s, alt.expansion.map G.toSymbol⟩ : ContextFreeRule Sym Sym) ∈
        (G.toCFG start).rules := Grammar.mem_rules_toCFG.mpr ⟨alt, ha, rfl⟩
    rw [DTree.symbol, Grammar.toSymbol_of_mem (Grammar.mem_keys_of_mem_alternatives ha), DTree.yield,
      ← List.append_nil (DTree.yieldForest children)]
    exact .nonterminal hrule hforest .nil

theorem exists_forest_of_yields {s : List (Symbol Sym (G.toCFG start).NT)} {w : List Sym}
    (h : Yields (G.toCFG start) s w) {symbols : List Sym} (hs : symbols.map G.toSymbol = s) :
    ∃ ts, ts.map DTree.symbol = symbols ∧ (∀ t ∈ ts, Derives G t) ∧ DTree.yieldForest ts = w := by
  induction h generalizing symbols with
  | nil =>
    obtain rfl := List.map_eq_nil_iff.mp hs
    exact ⟨[], rfl, by simp, rfl⟩
  | @terminal a s w _ ih =>
    obtain ⟨x, symbols, rfl, hx, hrest⟩ := List.map_eq_cons_iff.mp hs
    obtain ⟨hkey, rfl⟩ := Grammar.eq_of_toSymbol_terminal hx
    obtain ⟨ts, rfl, hts, rfl⟩ := ih hrest
    exact ⟨.leaf x :: ts, rfl, List.forall_mem_cons.mpr ⟨.leaf hkey, hts⟩, rfl⟩
  | @nonterminal r s v w hr _ _ ihv ihw =>
    obtain ⟨x, symbols, rfl, hx, hrest⟩ := List.map_eq_cons_iff.mp hs
    obtain ⟨-, rfl⟩ := Grammar.eq_of_toSymbol_nonterminal hx
    obtain ⟨alt, ha, hout⟩ := Grammar.mem_rules_toCFG.mp hr
    obtain ⟨children, hchildren, hder, rfl⟩ := ihv hout.symm
    obtain ⟨ts, rfl, hts, rfl⟩ := ihw hrest
    exact ⟨.node r.input alt.derivNum children :: ts, rfl,
      List.forall_mem_cons.mpr ⟨.node ha rfl hchildren hder, hts⟩, rfl⟩

theorem mem_language_iff (hstart : start ∈ G.keys) {w : List Sym} :
    w ∈ (G.toCFG start).language ↔ ∃ t, Derives G t ∧ t.symbol = start ∧ t.yield = w := by
  have hinitial : [Symbol.nonterminal (G.toCFG start).initial] = [start].map G.toSymbol := by
    rw [List.map_singleton, Grammar.toSymbol_of_mem hstart]
    rfl
  rw [ContextFreeGrammar.mem_language_iff, derives_iff_yields]
  constructor
  · intro h
    obtain ⟨ts, hsymbols, hts, rfl⟩ := exists_forest_of_yields h hinitial.symm
    obtain ⟨t, rfl, hsym⟩ := List.map_eq_singleton_iff.mp hsymbols
    exact ⟨t, hts t List.mem_cons_self, hsym, (List.append_nil _).symm⟩
  · rintro ⟨t, ht, rfl, rfl⟩
    rw [hinitial]
    exact ht.yields

end Words

theorem Tree.Derivation.unique {tree : Tree} {pos : ℕ × ℕ} {t u : DTree}
    (ht : tree.Derivation pos t) (hu : tree.Derivation pos u) : t = u := by
  induction ht generalizing u with
  | @leaf pos node hn hc =>
    cases hu with
    | leaf hn' _ => rw [Option.some.inj (hn.symm.trans hn')]
    | node hn' hc' _ _ _ =>
      obtain rfl := Option.some.inj (hn.symm.trans hn')
      rw [hc] at hc'
      cases hc'
  | @node d i a b dn node children hn hc hd hlen _ ih =>
    cases hu with
    | leaf hn' hc' =>
      obtain rfl := Option.some.inj (hn.symm.trans hn')
      rw [hc] at hc'
      cases hc'
    | @node _ _ a' b' dn' _ children' hn' hc' hd' hlen' hch' =>
      obtain rfl := Option.some.inj (hn.symm.trans hn')
      obtain ⟨rfl, rfl⟩ := Children.range.inj (hc.symm.trans hc')
      obtain rfl : dn = dn' := Int.ofNat.inj (hd.symm.trans hd')
      have hsame : children = children' := List.ext_getElem (hlen.trans hlen'.symm) fun k hk hk' =>
        ih k _ (List.getElem?_eq_getElem hk) (hch' k _ (List.getElem?_eq_getElem hk'))
      rw [hsame]

namespace DTree

theorem Below.length_add_height_le {t u : DTree} {path : List Sym} (h : t.Below path u) :
    path.length + u.height ≤ t.height + 1 := by
  induction h with
  | root => simp [Nat.add_comm]
  | @child path s d children c above hc ih =>
    have hlt := height_lt_of_mem_children (t := .node s d children) hc
    rw [List.length_append, List.length_singleton]
    omega

theorem length_le_height {t : DTree} {e : List Sym × ℕ} (h : e ∈ t.expanded) :
    e.1.length ≤ t.height := by
  obtain ⟨s, children, hbelow⟩ := mem_expanded_iff.mp (show (e.1, e.2) ∈ t.expanded from h)
  have hle := hbelow.length_add_height_le
  rw [height] at hle
  omega

end DTree

section Runs

variable {g : InputGenerator}

/-- The generator on the likely alternatives only. -/
def InputGenerator.likely (g : InputGenerator) : InputGenerator :=
  { g with grammar := g.grammar.likely }

theorem InputGenerator.children_likely (depth idx : ℕ) (expansion : List Sym) :
    g.likely.children depth idx expansion = g.children depth idx expansion := by
  have hnt : g.likely.isNonterminal = g.isNonterminal := by
    funext s
    rw [Bool.eq_iff_iff]
    refine (Grammar.isNonterminal_iff _ _).trans (Iff.trans ?_ (Grammar.isNonterminal_iff _ _).symm)
    rw [InputGenerator.likely, Grammar.keys_likely]
  rw [InputGenerator.children, InputGenerator.children, hnt]

theorem InputGenerator.selectsLikely (hempty : g.tables = Tables.empty)
    (hgraded : g.grammar.Graded) (halt : g.grammar.likely.HasAlternatives) (rnd : Choices) :
    SelectsAlternative g.likely (g.selectRandomly rnd) := by
  intro tree i symbol seen sel h
  obtain ⟨alts, halts⟩ : ∃ alts, g.grammar.get? symbol = some alts := by
    cases hget : g.grammar.get? symbol with
    | none => simp [selectRandomly, hget] at h
    | some alts => exact ⟨alts, rfl⟩
  have hprune : pruneChildren g.tables symbol tree (tree.length - 1, i) seen = some [] := by
    rw [hempty]
    rfl
  rw [selectRandomly_eq halts hprune] at h
  obtain ⟨j, hj, h⟩ := Option.bind_eq_some_iff.mp h
  obtain ⟨nodes, hnodes, h⟩ := Option.bind_eq_some_iff.mp h
  obtain ⟨derivNum, hdn, h⟩ := Option.bind_eq_some_iff.mp h
  obtain rfl := Option.some.inj h
  have hsub : ∀ a ∈ alts, a ∈ g.grammar.alternatives symbol := fun a ha => by
    rwa [Grammar.alternatives_of_get? halts]
  obtain ⟨alt, hjalt, hfrom⟩ := selectedFrom_of_index hsub hnodes hdn
  have hweights : g.grammar.weights symbol = alts.map Alternative.prob := by
    rw [Grammar.weights, Grammar.alternatives_of_get? halts]
  have hrule := hgraded symbol
  rw [hweights] at hrule
  have hkey : symbol ∈ g.grammar.likely.keys := by
    rw [Grammar.keys_likely]
    exact Grammar.mem_keys_of_mem_alternatives hfrom.mem
  obtain ⟨lucky, hlucky⟩ := List.exists_mem_of_ne_nil _ (halt symbol hkey)
  obtain ⟨hin, hlikely⟩ := Grammar.mem_alternatives_likely.mp hlucky
  rw [Grammar.alternatives_of_get? halts] at hin
  obtain ⟨k, hk⟩ := List.mem_iff_getElem?.mp hin
  have hpool : k ∈ drawPool (alts.map Alternative.derivNum) [] := by
    have hall : k ∈ indicesWhere (alts.map Alternative.derivNum) fun dn => dn ∉ ([] : List ℕ) :=
      mem_indicesWhere_map.mpr ⟨lucky, hk, by simp⟩
    rwa [drawPool, if_neg (List.ne_nil_of_mem hall)]
  have hdrawn := ((exists_draw_iff hrule
    (by simpa using drawPool_sublist (alts.map Alternative.derivNum) []) j).mp ⟨_, hj⟩).2
  have hne : alt.prob ≠ 0 := by
    have hpos : (alts.map Alternative.prob).getD k 0 ≠ 0 := by
      simpa [List.getD, hk] using hlikely.pos.ne'
    simpa [List.getD, hjalt] using hdrawn.resolve_left fun hzero => hpos (hzero k hpool)
  refine ⟨alt, Grammar.mem_alternatives_likely.mpr ⟨hfrom.mem, ?_⟩, hfrom.derivNum, ?_⟩
  · exact ((hgraded symbol).noticeable _ (List.mem_map_of_mem hfrom.mem)).resolve_left hne
  · rw [children_likely]
    exact hfrom.nodes

theorem RunInvariant.level {select : Selector} (hsel : SelectsAlternative g select)
    {st st' : GenState} (h : RunInvariant g st)
    (hrun : (expandLevel g.tables select st).map Prod.fst = some st') :
    RunInvariant g st' ∧ st'.tree.length = st.tree.length + 1 ∧ Tree.Extends st.tree st'.tree := by
  obtain ⟨slot, hlevel⟩ := InputGenerator.expandLevel_of_map_fst hrun
  obtain ⟨hinv, -, hlen, hext⟩ := expandLevel_invariant hsel (fun _ _ => True)
    (fun _ _ _ _ _ _ _ => trivial) h trivial hlevel
  exact ⟨hinv, hlen, hext⟩

/-- The random phase: what it leaves is a tree on the likely alternatives, with nodes to expand at
    the depth limit only. -/
theorem randomPhase_likely (hempty : g.tables = Tables.empty)
    (hgraded : g.grammar.Graded) (halt : g.grammar.likely.HasAlternatives) (hstart : g.config.startRule ∈ g.grammar.keys)
    {rnd : Choices} {fuel : ℕ} {s : GenState × ℕ}
    (h : WhileLoop.run
      (fun s : GenState × ℕ => g.expandCheck (InputGenerator.lastLevel s.1) s.2)
      (fun s => (g.expandNodeRandomly rnd s.1).map fun st => (st, s.2 + 1)) fuel (g.initial, 0) =
        some s) :
    RunInvariant g s.1 ∧ RunInvariant g.likely s.1 ∧ s.1.tree.length = s.2 + 1 ∧
      g.expandCheck (InputGenerator.lastLevel s.1) s.2 = false := by
  have hstart' : g.likely.config.startRule ∈ g.likely.grammar.keys :=
    (Grammar.keys_likely (G := g.grammar)).symm ▸ hstart
  have hrun := WhileLoop.run_invariant (fun s : GenState × ℕ =>
    RunInvariant g s.1 ∧ RunInvariant g.likely s.1 ∧ s.1.tree.length = s.2 + 1)
    (by
      rintro s s' ⟨hg, hl, hlen⟩ - hbody
      obtain ⟨st', hst, rfl⟩ := Option.map_eq_some_iff.mp hbody
      obtain ⟨hg', hlen', -⟩ :=
        hg.level (InputGenerator.Plain.selectsAlternative (.randomly rnd)) hst
      obtain ⟨hl', -⟩ := hl.level (InputGenerator.selectsLikely hempty hgraded halt rnd) hst
      exact ⟨hg', hl', hlen'.trans (congrArg (· + 1) hlen)⟩)
    fuel ⟨initial_runInvariant hstart, initial_runInvariant hstart', rfl⟩ h
  exact ⟨hrun.1.1, hrun.1.2.1, hrun.1.2.2, hrun.2⟩

theorem lt_height_of_extends {st st' : GenState} (hw : WellFormed g.grammar g.config.startRule st.tree)
    (hw' : WellFormed g.grammar g.config.startRule st'.tree) (hext : Tree.Extends st.tree st'.tree)
    (hexit : InputGenerator.anyPossibleExpansions (InputGenerator.lastLevel st') = false)
    (hany : InputGenerator.anyPossibleExpansions (InputGenerator.lastLevel st) = true) {t : DTree}
    (ht : st'.tree.Derivation (0, 0) t) : st.tree.length - 1 < t.height := by
  obtain ⟨node, hmem, hopen⟩ := List.any_eq_true.mp hany
  obtain ⟨i, hn⟩ := lastLevel_getElem? hmem
  obtain ⟨path, hpath⟩ := hw.parentsConsistent.exists_rootPath _ _ hn
  obtain ⟨node', hn', hsym, -⟩ := hext _ _ hn
  have hkey : node'.symbol ∈ g.grammar.keys := by
    by_contra hk
    rw [hsym] at hk
    rw [(hw.nodeOk hn).leaf_iff.mpr hk] at hopen
    simp at hopen
  obtain ⟨a, b, hr⟩ := (hw'.finished hexit).1 _ _ hn' hkey
  obtain ⟨-, alt, -, hdn, -⟩ := hw'.spells_alternative hn' hr
  have hin : (path, alt.derivNum) ∈ st'.tree.expanded := ⟨_, node', a, b, hn', hr, hdn, hpath.extend hext⟩
  rw [← ht.expanded_eq hw'] at hin
  have hle := DTree.length_le_height hin
  have hlen := hpath.length
  simp only at hle hlen
  omega

/-- Without rules, the trees up to the depth limit that runs generate are the derivation trees of
    likely alternatives, each of them for some draws. -/
theorem generated_trees_iff (g : InputGenerator) (hempty : g.tables = Tables.empty)
    (hgraded : g.grammar.Graded)
    (hstart : g.grammar.keys.head? = some g.config.startRule)
    (halt : g.grammar.likely.HasAlternatives) (t : DTree) (hmax : t.height ≤ g.config.maxDepths) :
    (∃ rnd fuel st, g.generateTree rnd fuel = some st ∧ st.tree.Derivation (0, 0) t) ↔
      Derives g.grammar.likely t ∧ t.symbol = g.config.startRule := by
  have hkey : g.config.startRule ∈ g.grammar.keys := List.mem_of_mem_head? hstart
  constructor
  · rintro ⟨rnd, fuel, st, hrun, hder⟩
    simp only [InputGenerator.generateTree, Option.bind_eq_bind, Option.bind_eq_some_iff,
      Option.pure_def, Option.some.injEq] at hrun
    obtain ⟨s₁, h₁, s₂, h₂, rfl⟩ := hrun
    obtain ⟨hg, hl, hlen, hcheck⟩ := randomPhase_likely hempty hgraded halt hkey h₁
    obtain ⟨⟨hg₂, hext⟩, hexit⟩ := WhileLoop.run_invariant
      (fun s : GenState × ℕ => RunInvariant g s.1 ∧ Tree.Extends s₁.1.tree s.1.tree)
      (by
        rintro s s' ⟨hs, he⟩ - hbody
        obtain ⟨st', hst, rfl⟩ := Option.map_eq_some_iff.mp hbody
        obtain ⟨hs', -, he'⟩ :=
          hs.level (InputGenerator.Plain.selectsAlternative (.minimum rnd)) hst
        exact ⟨hs', he.trans he'⟩)
      fuel ⟨hg, .refl _⟩ h₂
    have hnone : InputGenerator.anyPossibleExpansions (InputGenerator.lastLevel s₁.1) = false := by
      rw [← Bool.not_eq_true]
      intro hany
      have hlt := lt_height_of_extends hg.wellFormed hg₂.wellFormed hext hexit hany hder
      rw [InputGenerator.expandCheck, if_neg (by omega), hany] at hcheck
      cases hcheck
    have hstay : WhileLoop.run
        (fun s : GenState × ℕ => InputGenerator.anyPossibleExpansions (InputGenerator.lastLevel s.1))
        (fun s => (g.expandMinimumNode rnd s.1).map fun st => (st, s.2 + 1)) fuel s₁ = some s₁ :=
      WhileLoop.run_of_not fuel hnone
    obtain rfl := Option.some.inj (hstay.symm.trans h₂)
    obtain ⟨t', ht', hderives, hsym⟩ := hl.wellFormed.exists_root_derivation
      (hg.wellFormed.closed hnone)
    rw [hder.unique ht']
    exact ⟨hderives, hsym⟩
  · rintro ⟨hder, hsym⟩
    have htarget : Target g [] t := ⟨hgraded.summable, hempty, hder, by simp [Spared]⟩
    exact htarget.exists_run hstart hsym hmax

theorem generated_trees_iff_sample :
    (∃ rnd fuel st, sampleGenerator.generateTree rnd fuel = some st ∧
      st.tree.Derivation (0, 0) (.node "list" 1 [.leaf "'b'"])) ↔
    Derives sampleGrammar.likely (.node "list" 1 [.leaf "'b'"]) ∧ "list" = "list" :=
  generated_trees_iff sampleGenerator rfl (by decide +kernel) rfl
    (by decide +kernel) _ (by decide)

theorem exists_run_of_derives (g : InputGenerator) (hempty : g.tables = Tables.empty)
    (hsum : g.grammar.Summable) (hstart : g.grammar.keys.head? = some g.config.startRule)
    (hprob : ∀ s, ∀ a ∈ g.grammar.alternatives s, Noticeable (total (g.grammar.weights s)) a.prob) {t : DTree} (ht : Derives g.grammar t)
    (hsym : t.symbol = g.config.startRule) :
    ∃ rnd fuel st, InputGenerator.generateTree
        { g with config := ⟨g.config.startRule, t.height⟩ } rnd fuel = some st ∧
      st.tree.Derivation (0, 0) t := by
  have hlikely : Derives g.grammar.likely t := by
    clear hsym
    induction ht with
    | leaf hs => exact .leaf ((Grammar.keys_likely (G := g.grammar)).symm ▸ hs)
    | node ha hd hc _ ih =>
      exact .node (Grammar.mem_alternatives_likely.mpr ⟨ha, hprob _ _ ha⟩) hd hc ih
  have htarget : Target { g with config := ⟨g.config.startRule, t.height⟩ } [] t :=
    ⟨hsum, hempty, hlikely, by simp [Spared]⟩
  exact htarget.exists_run hstart hsym le_rfl

theorem derives_of_run {g : InputGenerator} (hkey : g.config.startRule ∈ g.grammar.keys)
    {rnd : Choices} {fuel : ℕ} {st : GenState} (hrun : g.generateTree rnd fuel = some st) :
    WellFormed g.grammar g.config.startRule st.tree ∧
      InputGenerator.anyPossibleExpansions (InputGenerator.lastLevel st) = false := by
  obtain ⟨hsteps, -, hexit⟩ := InputGenerator.generateTree_steps hrun
  exact ⟨(hsteps.runInvariant hkey fun _ hs => hs.selectsAlternative).wellFormed, hexit⟩

/-- The words of the language are what runs without rules write, whatever their depth. -/
theorem generated_words_iff (g : InputGenerator) (hempty : g.tables = Tables.empty)
    (hsum : g.grammar.Summable) (hstart : g.grammar.keys.head? = some g.config.startRule)
    (hprob : ∀ s, ∀ a ∈ g.grammar.alternatives s, Noticeable (total (g.grammar.weights s)) a.prob)
    (w : List Sym) :
    w ∈ (g.grammar.toCFG g.config.startRule).language ↔
      ∃ maxDepths rnd fuel st,
        InputGenerator.generateTree { g with config := ⟨g.config.startRule, maxDepths⟩ } rnd fuel =
          some st ∧ (Tree.leaves 0 st.tree 0).map Prod.snd = w := by
  have hkey : g.config.startRule ∈ g.grammar.keys := List.mem_of_mem_head? hstart
  rw [mem_language_iff hkey]
  constructor
  · rintro ⟨t, ht, hsym, rfl⟩
    obtain ⟨rnd, fuel, st, hrun, hder⟩ := exists_run_of_derives g hempty hsum hstart hprob ht hsym
    exact ⟨t.height, rnd, fuel, st, hrun, hder.leaves_eq_yield⟩
  · rintro ⟨n, rnd, fuel, st, hrun, rfl⟩
    obtain ⟨hw, hexit⟩ :=
      derives_of_run (g := { g with config := ⟨g.config.startRule, n⟩ }) hkey hrun
    obtain ⟨t, ht, hsym, hyield, -⟩ := (hw.finished hexit).2
    exact ⟨t, ht, hsym, hyield.symm⟩

theorem generated_words_iff_sample :
    ["'a'", "' '", "'b'"] ∈ (sampleGrammar.toCFG "list").language ↔
      ∃ maxDepths rnd fuel st,
        InputGenerator.generateTree { sampleGenerator with config := ⟨"list", maxDepths⟩ } rnd fuel =
          some st ∧ (Tree.leaves 0 st.tree 0).map Prod.snd = ["'a'", "' '", "'b'"] := by
  have hpos : ∀ s ∈ sampleGrammar.keys, ∀ a ∈ sampleGrammar.alternatives s,
      Noticeable (total (sampleGrammar.weights s)) a.prob := by decide +kernel
  exact generated_words_iff sampleGenerator rfl (by decide +kernel) rfl
    (fun s a ha => hpos s (Grammar.mem_keys_of_mem_alternatives ha) a ha) _

end Runs

end RSFuzz
