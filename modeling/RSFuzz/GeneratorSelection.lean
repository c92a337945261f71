import RSFuzz.GeneratorRuns
import RSFuzz.TribbleGenerator

set_option autoImplicit false

/-!
# The three ways of selecting an alternative

One specification lemma for each selector: what a returned selection is, and
that a selection is returned at every nonterminal with alternatives.
-/
namespace RSFuzz
open OrderedMap Tiling WeightedDraw

theorem mem_of_choice {cand : List ℕ} {r j : ℕ} (h : choice cand r = some j) : j ∈ cand :=
  List.mem_of_getElem? h

theorem mem_of_choices {cand : List ℕ} {weight : ℕ → ℚ} {r j : ℕ}
    (h : choices cand weight r = some j) : j ∈ cand := by
  obtain ⟨i, -, hi⟩ := Option.bind_eq_some_iff.mp h
  exact List.mem_of_getElem? hi

theorem exists_choices {cand : List ℕ} {weight : ℕ → ℚ} (h : Drawable (cand.map weight)) (r : ℕ) :
    ∃ j, choices cand weight r = some j := by
  obtain ⟨i, hi⟩ := (index_returns_iff (cand.map weight) r).mpr h
  obtain ⟨-, hlt, -⟩ := exists_of_index hi
  rw [List.length_map] at hlt
  exact ⟨cand[i], by rw [choices, hi, Option.bind_some, List.getElem?_eq_getElem hlt]⟩

theorem exists_choice {cand : List ℕ} (h : cand ≠ []) (r : ℕ) : ∃ j, choice cand r = some j := by
  have hlt : r % cand.length < cand.length := Nat.mod_lt _ (List.length_pos_iff.mpr h)
  exact ⟨_, List.getElem?_eq_getElem hlt⟩

/-- `random.choices` answers for whatever pruning leaves of a rule. -/
def Grammar.Drawable (G : Grammar) : Prop := ∀ symbol, DrawableParts (G.weights symbol)

/-- The probabilities are non-negative doubles, each rule's with a finite sum. -/
def Grammar.Summable (G : Grammar) : Prop := ∀ symbol, WeightedDraw.Summable (G.weights symbol)

/-- Besides, each is zero or noticeable beside the sum of its rule. -/
def Grammar.Graded (G : Grammar) : Prop := ∀ symbol, WeightedDraw.Graded (G.weights symbol)

theorem Grammar.forall_weights_iff {G : Grammar} {P : List ℚ → Prop} (hnil : P []) :
    (∀ symbol, P (G.weights symbol)) ↔ ∀ symbol ∈ G.keys, P (G.weights symbol) := by
  refine ⟨fun h symbol _ => h symbol, fun h symbol => ?_⟩
  by_cases hk : symbol ∈ G.keys
  · exact h symbol hk
  · have hempty : G.weights symbol = [] := by
      simp [Grammar.weights, Grammar.alternatives, (Map.get?_eq_none_iff G symbol).mpr hk]
    rw [hempty]
    exact hnil

instance (G : Grammar) : Decidable G.Summable :=
  decidable_of_iff _ (Grammar.forall_weights_iff summable_nil).symm

instance (G : Grammar) : Decidable G.Graded :=
  decidable_of_iff _ (Grammar.forall_weights_iff graded_nil).symm

theorem Grammar.Graded.summable {G : Grammar} (h : G.Graded) : G.Summable :=
  fun symbol => (h symbol).summable

theorem Grammar.Summable.drawable {G : Grammar} (h : G.Summable) : G.Drawable :=
  fun symbol => (h symbol).drawableParts

theorem map_getD_range (weights : List ℚ) :
    (List.range weights.length).map (weights.getD · 0) = weights := by
  apply List.ext_getElem
  · simp
  · intro i hi hi'
    simp [hi']

theorem sublist_of_range {pool : List ℕ} {weights : List ℚ}
    (h : pool.Sublist (List.range weights.length)) :
    (pool.map (weights.getD · 0)).Sublist weights := by
  have hmap := h.map (weights.getD · 0)
  rwa [map_getD_range] at hmap

theorem mem_indicesWhere {α : Type} {xs : List α} {p : α → Bool} {j : ℕ} :
    j ∈ indicesWhere xs p ↔ ∃ x, xs[j]? = some x ∧ p x = true := by
  simp only [indicesWhere, List.mem_filter, List.mem_range]
  constructor
  · rintro ⟨hj, h⟩
    rw [List.getElem?_eq_getElem hj] at h ⊢
    exact ⟨_, rfl, by simpa using h⟩
  · rintro ⟨x, hx, hp⟩
    exact ⟨(List.getElem?_eq_some_iff.mp hx).1, by simp [hx, hp]⟩

theorem indicesWhere_sublist {α : Type} (xs : List α) (p : α → Bool) :
    (indicesWhere xs p).Sublist (List.range xs.length) := List.filter_sublist

theorem mem_indicesWhere_map {α β : Type} {xs : List α} {f : α → β} {p : β → Bool} {j : ℕ} :
    j ∈ indicesWhere (xs.map f) p ↔ ∃ x, xs[j]? = some x ∧ p (f x) = true := by
  simp only [mem_indicesWhere, List.getElem?_map, Option.map_eq_some_iff]
  constructor
  · rintro ⟨_, ⟨x, hx, rfl⟩, hp⟩
    exact ⟨x, hx, hp⟩
  · rintro ⟨x, hx, hp⟩
    exact ⟨_, ⟨x, hx, rfl⟩, hp⟩

theorem min?_spec {costs : List ℕ} {m : ℕ} (h : costs.min? = some m) :
    m ∈ costs ∧ ∀ c ∈ costs, m ≤ c := List.min?_eq_some_iff.mp h

namespace InputGenerator

variable {g : InputGenerator}

def PrunedAt (g : InputGenerator) (tree : Tree) (i : ℕ) (symbol : Sym) (seen : Finset ℕ)
    (derivNum : ℕ) : Prop :=
  ∃ pruned, pruneChildren g.tables symbol tree (tree.length - 1, i) seen = some pruned ∧
    derivNum ∈ pruned

/-- What every selection has in common: the alternative it comes from. -/
structure SelectedFrom (g : InputGenerator) (tree : Tree) (i : ℕ) (symbol : Sym)
    (nodes : List Node) (derivNum : ℕ) (alt : Alternative) : Prop where
  mem : alt ∈ g.grammar.alternatives symbol
  derivNum : derivNum = alt.derivNum
  nodes : nodes = g.children (tree.length - 1) i alt.expansion

def Cheapest (g : InputGenerator) (symbol : Sym) (alt : Alternative) : Prop :=
  ∀ b ∈ g.grammar.alternatives symbol,
    g.expansionCost symbol alt.expansion ≤ g.expansionCost symbol b.expansion

theorem expansionsToChildren_map {α : Type} (alts : List Alternative) (third : Alternative → α)
    (depth i : ℕ) :
    g.expansionsToChildren (alts.map fun a => (a.expansion, a.derivNum, third a)) depth i =
      (alts.map fun a => g.children depth i a.expansion, alts.map Alternative.derivNum,
        alts.map third) := by
  simp [expansionsToChildren, Function.comp_def]

theorem selectedFrom_of_index {tree : Tree} {i chosen derivNum : ℕ} {symbol : Sym}
    {alts : List Alternative} {nodes : List Node}
    (hsub : ∀ a ∈ alts, a ∈ g.grammar.alternatives symbol)
    (hn : (alts.map fun a => g.children (tree.length - 1) i a.expansion)[chosen]? = some nodes)
    (hd : (alts.map Alternative.derivNum)[chosen]? = some derivNum) :
    ∃ alt, alts[chosen]? = some alt ∧
      g.SelectedFrom tree i symbol nodes derivNum alt := by
  rw [List.getElem?_map] at hn hd
  obtain ⟨alt, ha, rfl⟩ := Option.map_eq_some_iff.mp hn
  obtain ⟨alt', ha', rfl⟩ := Option.map_eq_some_iff.mp hd
  obtain rfl := Option.some.inj (ha.symm.trans ha')
  exact ⟨alt, ha, hsub alt (List.mem_of_getElem? ha), rfl, rfl⟩

theorem selectRandomly_spec {rnd : Choices} {tree : Tree} {i : ℕ} {symbol : Sym}
    {seen : Finset ℕ} {sel : Selection}
    (h : g.selectRandomly rnd tree i symbol seen = some sel) :
    ∃ alt, g.SelectedFrom tree i symbol sel.nodes sel.derivNum alt ∧
      (sel.candidates ≠ [] → ¬ g.PrunedAt tree i symbol seen sel.derivNum) := by
  simp only [selectRandomly, expansionsToChildren_map, Option.bind_eq_bind,
    Option.bind_eq_some_iff, Option.pure_def, Option.some.injEq] at h
  obtain ⟨alts, halts, toPrune, hprune, chosen, hchosen, nodes, hnodes, derivNum, hdn, rfl⟩ := h
  obtain ⟨alt, halt, hfrom⟩ := selectedFrom_of_index
    (fun a ha => by rwa [Grammar.alternatives_of_get? halts]) hnodes hdn
  refine ⟨alt, hfrom, fun hne => ?_⟩
  rintro ⟨pruned, hp, hmem⟩
  obtain rfl := Option.some.inj (hprune.symm.trans hp)
  -- with candidates left, both draws stay among them
  have hin : chosen ∈ indicesWhere (alts.map Alternative.derivNum) fun dn => dn ∉ toPrune := by
    rw [if_neg hne] at hchosen
    split_ifs at hchosen
    · exact mem_of_choices hchosen
    · exact mem_of_choice hchosen
  obtain ⟨alt', halt', hnot⟩ := mem_indicesWhere_map.mp hin
  obtain rfl := Option.some.inj (halt.symm.trans halt')
  exact absurd (hfrom.derivNum ▸ hmem) (by simpa using hnot)

theorem cheapest_of_min {symbol : Sym} {alts : List Alternative} {alt : Alternative} {m : ℕ}
    (halts : g.grammar.get? symbol = some alts)
    (hmin : (alts.map fun a => g.expansionCost symbol a.expansion).min? = some m)
    (hcost : g.expansionCost symbol alt.expansion = m) : g.Cheapest symbol alt := by
  intro b hb
  rw [Grammar.alternatives_of_get? halts] at hb
  rw [hcost]
  exact (min?_spec hmin).2 _ (List.mem_map.mpr ⟨b, hb, rfl⟩)

theorem selectMinimum_spec {rnd : Choices} {tree : Tree} {i : ℕ} {symbol : Sym}
    {seen : Finset ℕ} {sel : Selection}
    (h : g.selectMinimum rnd tree i symbol seen = some sel) :
    ∃ alt, g.SelectedFrom tree i symbol sel.nodes sel.derivNum alt ∧ g.Cheapest symbol alt ∧
      (sel.candidates ≠ [] → ¬ g.PrunedAt tree i symbol seen sel.derivNum) := by
  simp only [selectMinimum, expansionsToChildren_map, List.zip_map', Option.bind_eq_bind,
    Option.bind_eq_some_iff, Option.pure_def, Option.some.injEq] at h
  obtain ⟨alts, halts, pruneDns, hprune, minCost, hmin, chosen, hchosen, nodes, hnodes, derivNum,
    hdn, rfl⟩ := h
  obtain ⟨alt, halt, hfrom⟩ := selectedFrom_of_index
    (fun a ha => by rwa [Grammar.alternatives_of_get? halts]) hnodes hdn
  refine ⟨alt, hfrom, ?_⟩
  split_ifs at hchosen with hne
  · obtain ⟨alt', halt', hcost⟩ := mem_indicesWhere_map.mp (mem_of_choice hchosen)
    obtain rfl := Option.some.inj (halt.symm.trans halt')
    exact ⟨cheapest_of_min halts hmin (by simpa using hcost), fun hn => absurd hne hn⟩
  · obtain ⟨alt', halt', hp⟩ := mem_indicesWhere_map.mp (mem_of_choice hchosen)
    obtain rfl := Option.some.inj (halt.symm.trans halt')
    obtain ⟨hcost, hnot⟩ := of_decide_eq_true hp
    refine ⟨cheapest_of_min halts hmin hcost, fun _ => ?_⟩
    rintro ⟨pruned, hpr, hmem⟩
    obtain rfl := Option.some.inj (hprune.symm.trans hpr)
    exact hnot (hfrom.derivNum ▸ hmem)

/-- The selected slot gets a cheapest alternative among those with the next symbol. -/
theorem selectGuided_spec_slot {rnd : Choices} {nextSymbol : Option Sym} {slot : Option ℕ}
    {tree : Tree} {i : ℕ} {symbol : Sym} {seen : Finset ℕ} {sel : Selection}
    (hi : some i = slot)
    (h : g.selectGuided rnd nextSymbol slot tree i symbol seen = some sel) :
    ∃ alt r next, g.SelectedFrom tree i symbol sel.nodes sel.derivNum alt ∧ nextSymbol = some next ∧
      next ∈ alt.expansion ∧ sel.slot = some r ∧
      (sel.nodes[r]?).map Node.symbol = some next := by
  simp only [selectGuided, hi, ↓reduceIte, expansionsToChildren_map, Option.bind_eq_bind,
    Option.bind_eq_some_iff, Option.pure_def, Option.some.injEq] at h
  obtain ⟨alts, halts, minCost, -, chosen, -, nodes, hnodes, derivNum, hdn, r, hr, rfl⟩ := h
  have hsub : ∀ a ∈ alts.filter fun a => nextSymbol.any (· ∈ a.expansion),
      a ∈ g.grammar.alternatives symbol := by
    intro a ha
    rw [Grammar.alternatives_of_get? halts]
    exact List.mem_of_mem_filter ha
  obtain ⟨alt, halt, hfrom⟩ := selectedFrom_of_index hsub hnodes hdn
  obtain ⟨node, hnode, hsym⟩ := mem_indicesWhere.mp (mem_of_choice hr)
  obtain ⟨next, hnext⟩ : ∃ next, nextSymbol = some next := ⟨node.symbol, by simpa [eq_comm] using hsym⟩
  subst hnext
  have hsym' : node.symbol = next := by simpa using hsym
  refine ⟨alt, r, next, hfrom, rfl, ?_, rfl, by simp [hnode, hsym']⟩
  simpa using (List.mem_filter.mp (List.mem_of_getElem? halt)).2

/-- Every other node gets a cheapest alternative, or any one above the depth limit. -/
theorem selectGuided_spec_other {rnd : Choices} {nextSymbol : Option Sym} {slot : Option ℕ}
    {tree : Tree} {i : ℕ} {symbol : Sym} {seen : Finset ℕ} {sel : Selection}
    (hi : some i ≠ slot)
    (h : g.selectGuided rnd nextSymbol slot tree i symbol seen = some sel) :
    ∃ alt, g.SelectedFrom tree i symbol sel.nodes sel.derivNum alt ∧ sel.slot = none ∧
      (g.config.maxDepths ≤ tree.length → g.Cheapest symbol alt) := by
  simp only [selectGuided, hi, ↓reduceIte, expansionsToChildren_map, List.zip_map',
    Option.bind_eq_bind, Option.bind_eq_some_iff, Option.pure_def, Option.some.injEq] at h
  obtain ⟨alts, halts, pruneDns, -, minCost, hmin, chosen, hchosen, nodes, hnodes, derivNum,
    hdn, rfl⟩ := h
  obtain ⟨alt, halt, hfrom⟩ := selectedFrom_of_index
    (fun a ha => by rwa [Grammar.alternatives_of_get? halts]) hnodes hdn
  refine ⟨alt, hfrom, rfl, fun hdepth => ?_⟩
  split_ifs at hchosen with hlow hne
  · exact absurd hlow.2 (by omega)
  · obtain ⟨alt', halt', hcost⟩ := mem_indicesWhere_map.mp (mem_of_choice hchosen)
    obtain rfl := Option.some.inj (halt.symm.trans halt')
    exact cheapest_of_min halts hmin (by simpa using hcost)
  · obtain ⟨alt', halt', hp⟩ := mem_indicesWhere_map.mp (mem_of_choice hchosen)
    obtain rfl := Option.some.inj (halt.symm.trans halt')
    exact cheapest_of_min halts hmin (of_decide_eq_true hp).1

theorem exists_pruned {tree : Tree} {i : ℕ} {path : List Sym} (hne : tree ≠ [])
    (hp : tree.RootPath (tree.length - 1, i) path) (symbol : Sym) (seen : Finset ℕ) :
    ∃ pruned, pruneChildren g.tables symbol tree (tree.length - 1, i) seen = some pruned := by
  have hpos := List.length_pos_iff.mpr hne
  obtain ⟨pruned, h, -⟩ := pruneChildren_spec (t := g.tables) hp (by simp only; omega) symbol seen
  exact ⟨pruned, h⟩

theorem exists_index {α β : Type} {alts : List Alternative} {j : ℕ} (hj : j < alts.length)
    (f : Alternative → α) (k : Alternative → β) :
    ∃ a, (alts.map f)[j]? = some (f a) ∧ (alts.map k)[j]? = some (k a) :=
  ⟨alts[j], by simp [hj], by simp [hj]⟩

theorem lt_of_mem_indicesWhere_map {α β : Type} {xs : List α} {f : α → β} {p : β → Bool} {j : ℕ}
    (h : j ∈ indicesWhere (xs.map f) p) : j < xs.length := by
  obtain ⟨x, hx, -⟩ := mem_indicesWhere_map.mp h
  exact (List.getElem?_eq_some_iff.mp hx).1

/-- The draw of `expand_node_randomly` from the indices of `pool`. -/
def draw (pool : List ℕ) (weights : List ℚ) (r : ℕ) : Option ℕ :=
  if pool.any fun j => 0 < weights.getD j 0 then choices pool (weights.getD · 0) r else choice pool r

section Draw

variable {pool : List ℕ} {weights : List ℚ}

theorem mem_of_draw {r j : ℕ} (h : draw pool weights r = some j) : j ∈ pool := by
  unfold draw at h
  split_ifs at h
  · exact mem_of_choices h
  · exact mem_of_choice h

theorem exists_draw (hne : pool ≠ []) (hdraw : DrawableParts weights)
    (hsub : pool.Sublist (List.range weights.length)) (r : ℕ) : ∃ j, draw pool weights r = some j := by
  unfold draw
  split_ifs with hany
  · obtain ⟨j, hj, hw⟩ := List.any_eq_true.mp hany
    exact exists_choices (hdraw _ (sublist_of_range hsub)
      ⟨weights.getD j 0, List.mem_map_of_mem hj, by simpa using hw⟩) r
  · exact exists_choice hne r

theorem exists_draw_of_noticeable (h : WeightedDraw.Summable weights)
    (hsub : pool.Sublist (List.range weights.length)) {j : ℕ} (hj : j ∈ pool)
    (hw : Noticeable (total weights) (weights.getD j 0)) : ∃ r, draw pool weights r = some j := by
  have hany : (pool.any fun j => 0 < weights.getD j 0) = true :=
    List.any_eq_true.mpr ⟨j, hj, decide_eq_true hw.pos⟩
  have hleft := sublist_of_range hsub
  obtain ⟨i, hi⟩ := List.mem_iff_getElem?.mp hj
  obtain ⟨r, hr⟩ := (h.of_sublist hleft).exists_index (i := i) (w := weights.getD j 0)
    (by rw [List.getElem?_map, hi, Option.map_some])
    (hw.mono (total_le_of_sublist hleft fun w hw => (h.doubles w hw).1))
  exact ⟨r, by rw [draw, if_pos hany, choices, hr, Option.bind_some, hi]⟩

theorem exists_draw_iff (h : Graded weights) (hsub : pool.Sublist (List.range weights.length))
    (j : ℕ) : (∃ r, draw pool weights r = some j) ↔
      j ∈ pool ∧ ((∀ i ∈ pool, weights.getD i 0 = 0) ∨ weights.getD j 0 ≠ 0) := by
  have hpool := h.of_sublist (sublist_of_range hsub)
  have hany : (pool.any fun j => 0 < weights.getD j 0) = true ↔
      ¬ ∀ i ∈ pool, weights.getD i 0 = 0 := by
    rw [List.any_eq_true]
    push Not
    refine exists_congr fun i => and_congr_right fun hi => ?_
    have hnonneg := (hpool.summable.doubles _ (List.mem_map_of_mem hi)).1
    rw [decide_eq_true_iff]
    exact ⟨ne_of_gt, hnonneg.lt_of_ne'⟩
  by_cases hall : ∀ i ∈ pool, weights.getD i 0 = 0
  · simp only [draw, if_neg (hany.not.mpr (not_not.mpr hall))]
    constructor
    · rintro ⟨r, hr⟩
      exact ⟨mem_of_choice hr, Or.inl hall⟩
    · rintro ⟨hj, -⟩
      have hlt := List.idxOf_lt_length_of_mem hj
      exact ⟨pool.idxOf j, by rw [choice, Nat.mod_eq_of_lt hlt, List.getElem?_idxOf hj]⟩
  · rw [or_iff_right hall]
    constructor
    · rintro ⟨r, hr⟩
      rw [draw, if_pos (hany.mpr hall)] at hr
      obtain ⟨i, hi, hj⟩ := Option.bind_eq_some_iff.mp hr
      exact ⟨mem_of_choices hr, hpool.ne_zero_of_index hi
        (by rw [List.getElem?_map, hj, Option.map_some])⟩
    · rintro ⟨hj, hne⟩
      have hmem : weights.getD j 0 ∈ weights :=
        (sublist_of_range hsub).subset (List.mem_map_of_mem hj)
      exact exists_draw_of_noticeable h.summable hsub hj ((h.noticeable _ hmem).resolve_left hne)

/-- Draws from a pool by weights that are zero in other places. -/
theorem exists_same_draw {pool : List ℕ} {weights weights' : List ℚ}
    (hgraded : Graded weights) (hgraded' : Graded weights')
    (hlen : weights'.length = weights.length)
    (hsub : pool.Sublist (List.range weights.length))
    (hdraws : ∀ j ∈ pool, ((∀ i ∈ pool, weights.getD i 0 = 0) ∨ weights.getD j 0 ≠ 0) →
      (∀ i ∈ pool, weights'.getD i 0 = 0) ∨ weights'.getD j 0 ≠ 0) (r : ℕ) :
    ∃ r', draw pool weights' r' = draw pool weights r := by
  rcases eq_or_ne pool [] with rfl | hne
  · exact ⟨r, rfl⟩
  · obtain ⟨j, hj⟩ := exists_draw hne hgraded.summable.drawableParts hsub r
    rw [hj]
    have hmem := mem_of_draw hj
    exact (exists_draw_iff hgraded' (hlen ▸ hsub) j).mpr
      ⟨hmem, hdraws j hmem ((exists_draw_iff hgraded hsub j).mp ⟨r, hj⟩).2⟩

end Draw

def drawPool (derivNums toPrune : List ℕ) : List ℕ :=
  if indicesWhere derivNums (fun dn => dn ∉ toPrune) = [] then List.range derivNums.length
  else indicesWhere derivNums fun dn => dn ∉ toPrune

theorem drawPool_sublist (derivNums toPrune : List ℕ) :
    (drawPool derivNums toPrune).Sublist (List.range derivNums.length) := by
  unfold drawPool
  split_ifs
  · exact List.Sublist.refl _
  · exact indicesWhere_sublist _ _

theorem drawPool_ne_nil {derivNums : List ℕ} (h : derivNums ≠ []) (toPrune : List ℕ) :
    drawPool derivNums toPrune ≠ [] := by
  unfold drawPool
  split_ifs with hc
  · simpa using h
  · exact hc

theorem selectRandomly_eq {rnd : Choices} {tree : Tree} {i : ℕ} {symbol : Sym} {seen : Finset ℕ}
    {alts : List Alternative} {toPrune : List ℕ} (halts : g.grammar.get? symbol = some alts)
    (hprune : pruneChildren g.tables symbol tree (tree.length - 1, i) seen = some toPrune) :
    g.selectRandomly rnd tree i symbol seen =
      (draw (drawPool (alts.map Alternative.derivNum) toPrune) (alts.map Alternative.prob)
        (rnd.expansion (tree.length - 1) i)).bind fun chosen =>
      ((alts.map fun a => g.children (tree.length - 1) i a.expansion)[chosen]?).bind fun nodes =>
      ((alts.map Alternative.derivNum)[chosen]?).bind fun derivNum =>
      some ⟨indicesWhere (alts.map Alternative.derivNum) fun dn => dn ∉ toPrune, nodes, derivNum,
        none⟩ := by
  simp only [selectRandomly, expansionsToChildren_map, halts, hprune, Option.bind_eq_bind,
    Option.bind_some, Option.pure_def]
  rfl

theorem selectRandomly_returns {rnd : Choices} {tree : Tree} {i : ℕ} {symbol : Sym}
    {seen : Finset ℕ} {path : List Sym} (hne : tree ≠ [])
    (hp : tree.RootPath (tree.length - 1, i) path) (hk : symbol ∈ g.grammar.keys)
    (halt : g.grammar.alternatives symbol ≠ []) (hdraw : DrawableParts (g.grammar.weights symbol)) :
    ∃ sel, g.selectRandomly rnd tree i symbol seen = some sel := by
  obtain ⟨toPrune, hprune⟩ := g.exists_pruned hne hp symbol seen
  have halts := Grammar.get?_of_mem_keys hk
  rw [selectRandomly_eq halts hprune]
  rw [Grammar.weights] at hdraw
  generalize g.grammar.alternatives symbol = alts at halt hdraw
  have hsub := drawPool_sublist (alts.map Alternative.derivNum) toPrune
  have hpool : drawPool (alts.map Alternative.derivNum) toPrune ≠ [] :=
    drawPool_ne_nil (by simpa using halt) toPrune
  obtain ⟨chosen, hchosen⟩ := exists_draw hpool hdraw (by simpa using hsub)
    (rnd.expansion (tree.length - 1) i)
  have hlt : chosen < alts.length := by simpa using hsub.subset (mem_of_draw hchosen)
  obtain ⟨a, hn, hd⟩ := exists_index hlt (fun a => g.children (tree.length - 1) i a.expansion)
    Alternative.derivNum
  exact ⟨_, by rw [hchosen, Option.bind_some, hn, Option.bind_some, hd, Option.bind_some]⟩

theorem exists_min_index {alts : List Alternative} (h : alts ≠ []) (cost : Alternative → ℕ) :
    ∃ m, (alts.map cost).min? = some m ∧ indicesWhere (alts.map cost) (fun c => c = m) ≠ [] := by
  obtain ⟨m, hm⟩ := Option.isSome_iff_exists.mp
    (List.isSome_min?_iff.mpr (show alts.map cost ≠ [] by simpa using h))
  refine ⟨m, hm, ?_⟩
  obtain ⟨a, ha, hc⟩ := List.mem_map.mp (min?_spec hm).1
  obtain ⟨j, hj⟩ := List.mem_iff_getElem?.mp ha
  exact List.ne_nil_of_mem (mem_indicesWhere_map.mpr ⟨a, hj, by simpa using hc⟩)

theorem exists_cheapest_choice {alts : List Alternative} {cost : Alternative → ℕ} {m : ℕ}
    (hmne : indicesWhere (alts.map cost) (fun c => c = m) ≠ []) (pruneDns : List ℕ) (r : ℕ) :
    ∃ chosen, choice
      (if (indicesWhere (alts.map fun a => (cost a, a.derivNum)) fun e => e.1 = m ∧ e.2 ∉ pruneDns) = []
        then indicesWhere (alts.map cost) fun c => c = m
        else indicesWhere (alts.map fun a => (cost a, a.derivNum))
          fun e => e.1 = m ∧ e.2 ∉ pruneDns) r = some chosen ∧ chosen < alts.length := by
  split_ifs with he
  · obtain ⟨c, hc⟩ := exists_choice hmne r
    exact ⟨c, hc, lt_of_mem_indicesWhere_map (mem_of_choice hc)⟩
  · obtain ⟨c, hc⟩ := exists_choice he r
    exact ⟨c, hc, lt_of_mem_indicesWhere_map (mem_of_choice hc)⟩

theorem selectMinimum_returns {rnd : Choices} {tree : Tree} {i : ℕ} {symbol : Sym}
    {seen : Finset ℕ} {path : List Sym} (hne : tree ≠ [])
    (hp : tree.RootPath (tree.length - 1, i) path) (hk : symbol ∈ g.grammar.keys)
    (halt : g.grammar.alternatives symbol ≠ []) :
    ∃ sel, g.selectMinimum rnd tree i symbol seen = some sel := by
  obtain ⟨pruneDns, hprune⟩ := g.exists_pruned hne hp symbol seen
  have halts := Grammar.get?_of_mem_keys hk
  obtain ⟨m, hmin, hmne⟩ := exists_min_index halt fun a => g.expansionCost symbol a.expansion
  obtain ⟨chosen, hchosen, hlt⟩ :=
    exists_cheapest_choice hmne pruneDns (rnd.expansion (tree.length - 1) i)
  obtain ⟨a, hn, hd⟩ := exists_index hlt
    (fun a => g.children (tree.length - 1) i a.expansion) Alternative.derivNum
  exact Option.isSome_iff_exists.mp (by
    simp only [selectMinimum, expansionsToChildren_map, List.zip_map', halts, hprune, hmin,
      Option.bind_eq_bind, Option.bind_some, hchosen, hn, hd, Option.pure_def, Option.isSome_some])

theorem selectGuided_returns_other {rnd : Choices} {nextSymbol : Option Sym} {slot : Option ℕ}
    {tree : Tree} {i : ℕ} {symbol : Sym} {seen : Finset ℕ} {path : List Sym}
    (hi : some i ≠ slot) (hne : tree ≠ []) (hp : tree.RootPath (tree.length - 1, i) path)
    (hk : symbol ∈ g.grammar.keys) (halt : g.grammar.alternatives symbol ≠ []) :
    ∃ sel, g.selectGuided rnd nextSymbol slot tree i symbol seen = some sel := by
  obtain ⟨pruneDns, hprune⟩ := g.exists_pruned hne hp symbol seen
  have halts := Grammar.get?_of_mem_keys hk
  obtain ⟨alts, hdef⟩ : ∃ alts, alts = g.grammar.alternatives symbol := ⟨_, rfl⟩
  rw [← hdef] at halts halt
  obtain ⟨m, hmin, hmne⟩ := exists_min_index halt fun a => g.expansionCost symbol a.expansion
  obtain ⟨chosen, hchosen, hlt⟩ : ∃ chosen, choice
      (if (indicesWhere (alts.map fun a => (g.expansionCost symbol a.expansion, a.derivNum))
          fun e => e.1 = m ∧ e.2 ∉ pruneDns) = [] ∧ tree.length < g.config.maxDepths
        then List.range (alts.map fun a => g.expansionCost symbol a.expansion).length
        else if (indicesWhere (alts.map fun a => (g.expansionCost symbol a.expansion, a.derivNum))
          fun e => e.1 = m ∧ e.2 ∉ pruneDns) = []
        then indicesWhere (alts.map fun a => g.expansionCost symbol a.expansion) fun c => c = m
        else indicesWhere (alts.map fun a => (g.expansionCost symbol a.expansion, a.derivNum))
          fun e => e.1 = m ∧ e.2 ∉ pruneDns) (rnd.expansion (tree.length - 1) i) = some chosen ∧
      chosen < alts.length := by
    by_cases hlow : (indicesWhere (alts.map fun a => (g.expansionCost symbol a.expansion,
        a.derivNum)) fun e => e.1 = m ∧ e.2 ∉ pruneDns) = [] ∧ tree.length < g.config.maxDepths
    · rw [if_pos hlow]
      obtain ⟨c, hc⟩ := exists_choice (show List.range (alts.map fun a =>
        g.expansionCost symbol a.expansion).length ≠ [] by simpa using halt)
        (rnd.expansion (tree.length - 1) i)
      exact ⟨c, hc, by simpa using mem_of_choice hc⟩
    · rw [if_neg hlow]
      exact exists_cheapest_choice hmne pruneDns (rnd.expansion (tree.length - 1) i)
  obtain ⟨a, hn, hd⟩ := exists_index hlt
    (fun a => g.children (tree.length - 1) i a.expansion) Alternative.derivNum
  exact Option.isSome_iff_exists.mp (by
    simp only [selectGuided, hi, ↓reduceIte, expansionsToChildren_map, List.zip_map', halts, hprune,
      hmin, Option.bind_eq_bind, Option.bind_some, hchosen, hn, hd, Option.pure_def,
      Option.isSome_some])

/-- The guided slot finds an alternative when one contains the next symbol. -/
theorem selectGuided_returns_slot {rnd : Choices} {next : Sym} {tree : Tree} {i : ℕ}
    {symbol : Sym} {seen : Finset ℕ} (hedge : g.grammar.Edge symbol next) :
    ∃ sel, g.selectGuided rnd (some next) (some i) tree i symbol seen = some sel := by
  have halts := Grammar.get?_of_mem_keys hedge.left_mem_keys
  obtain ⟨alt, halt, hnext⟩ := hedge
  obtain ⟨alts, hdef⟩ : ∃ alts, alts = (g.grammar.alternatives symbol).filter
    fun a => (some next).any (· ∈ a.expansion) := ⟨_, rfl⟩
  have hne : alts ≠ [] := by
    rw [hdef]
    exact List.ne_nil_of_mem (List.mem_filter.mpr ⟨halt, by simpa using hnext⟩)
  obtain ⟨m, hmin, hmne⟩ := exists_min_index hne fun a => g.expansionCost symbol a.expansion
  obtain ⟨chosen, hchosen⟩ := exists_choice hmne (rnd.expansion (tree.length - 1) i)
  obtain ⟨a, ha, -⟩ := mem_indicesWhere_map.mp (mem_of_choice hchosen)
  have hsym : next ∈ a.expansion := by
    have := List.mem_of_getElem? ha
    rw [hdef] at this
    simpa using (List.mem_filter.mp this).2
  -- the slot is found because the children spell the alternative
  have hslots : indicesWhere (g.children (tree.length - 1) i a.expansion)
      (fun n => some n.symbol = some next) ≠ [] := by
    rw [← g.children_symbols (tree.length - 1) i a.expansion] at hsym
    obtain ⟨n, hn, he⟩ := List.mem_map.mp hsym
    obtain ⟨j, hj⟩ := List.mem_iff_getElem?.mp hn
    exact List.ne_nil_of_mem (mem_indicesWhere.mpr ⟨n, hj, by simp [he]⟩)
  obtain ⟨r, hr⟩ := exists_choice hslots (rnd.slot (tree.length - 1))
  have hn : (alts.map fun a => g.children (tree.length - 1) i a.expansion)[chosen]? =
      some (g.children (tree.length - 1) i a.expansion) := by simp [ha]
  have hd : (alts.map Alternative.derivNum)[chosen]? = some a.derivNum := by simp [ha]
  rw [hdef] at hmin hchosen hn hd
  exact Option.isSome_iff_exists.mp (by
    simp only [selectGuided, ↓reduceIte, expansionsToChildren_map, halts, hmin,
      Option.bind_eq_bind, Option.bind_some, hchosen, hn, hd, hr, Option.pure_def,
      Option.isSome_some])

inductive Plain (g : InputGenerator) : Selector → Prop where
  | randomly (rnd : Choices) : Plain g (g.selectRandomly rnd)
  | minimum (rnd : Choices) : Plain g (g.selectMinimum rnd)

inductive AnySelector (g : InputGenerator) : Selector → Prop where
  | plain {select : Selector} (h : g.Plain select) : AnySelector g select
  | guided (rnd : Choices) (nextSymbol : Option Sym) (slot : Option ℕ) :
      AnySelector g (g.selectGuided rnd nextSymbol slot)

theorem AnySelector.selectsAlternative {select : Selector} (h : g.AnySelector select) :
    SelectsAlternative g select := by
  intro tree i symbol seen sel hs
  obtain ⟨alt, hfrom⟩ : ∃ alt, g.SelectedFrom tree i symbol sel.nodes sel.derivNum alt := by
    cases h with
    | plain h =>
      cases h with
      | randomly rnd =>
        obtain ⟨alt, hfrom, -⟩ := selectRandomly_spec hs
        exact ⟨alt, hfrom⟩
      | minimum rnd =>
        obtain ⟨alt, hfrom, -⟩ := selectMinimum_spec hs
        exact ⟨alt, hfrom⟩
    | guided rnd nextSymbol slot =>
      by_cases hi : some i = slot
      · obtain ⟨alt, _, _, hfrom, -⟩ := selectGuided_spec_slot hi hs
        exact ⟨alt, hfrom⟩
      · obtain ⟨alt, hfrom, -⟩ := selectGuided_spec_other hi hs
        exact ⟨alt, hfrom⟩
  exact ⟨alt, hfrom.mem, hfrom.derivNum, hfrom.nodes⟩

theorem Plain.selectsAlternative {select : Selector} (h : g.Plain select) :
    SelectsAlternative g select := AnySelector.selectsAlternative (.plain h)

theorem Plain.not_pruned {select : Selector} (h : g.Plain select) {tree : Tree} {i : ℕ}
    {symbol : Sym} {seen : Finset ℕ} {sel : Selection}
    (hs : select tree i symbol seen = some sel) (hne : sel.candidates ≠ []) :
    ¬ g.PrunedAt tree i symbol seen sel.derivNum := by
  cases h with
  | randomly rnd =>
    obtain ⟨alt, -, hnot⟩ := selectRandomly_spec hs
    exact hnot hne
  | minimum rnd =>
    obtain ⟨alt, -, -, hnot⟩ := selectMinimum_spec hs
    exact hnot hne

theorem selectsAt_of_returns {select : Selector} {upper : Tree} {last : List Node}
    (hret : ∀ (tree : Tree) i symbol seen path, tree ≠ [] → tree.RootPath (tree.length - 1, i) path →
      symbol ∈ g.grammar.keys → ∃ sel, select tree i symbol seen = some sel)
    (hok : ∀ node ∈ last, NodeOk g.grammar node) : SelectsAt select upper last := by
  intro i node hn hc tree seen path hlen hp _
  have hk : node.symbol ∈ g.grammar.keys := by
    by_contra hk
    rw [(hok node (List.mem_of_getElem? hn)).leaf_iff.mpr hk] at hc
    cases hc
  have hne : tree ≠ [] := by
    rintro rfl
    simp at hlen
  exact hret tree i node.symbol seen path hne (by rwa [hlen]) hk

end InputGenerator
end RSFuzz
