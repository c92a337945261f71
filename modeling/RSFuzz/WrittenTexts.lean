import RSFuzz.GeneratorMain
import RSFuzz.GrammarLanguage

set_option autoImplicit false

/-!
# The texts that are written

Every leaf of a tree is written with a draw of its own, so that the texts of a
generator without rules are the words of its grammar, each symbol spelled in
one of the ways it can be.
-/
namespace RSFuzz
open OrderedMap OptionFold TableState WeightedDraw

/-- The second position is in the subtree at the first. -/
inductive Tree.Above (tree : Tree) : ℕ × ℕ → ℕ × ℕ → Prop where
  | here (pos : ℕ × ℕ) : Above tree pos pos
  | child {d i a b c : ℕ} {node : Node} {pos : ℕ × ℕ} (hn : tree.node? (d, i) = some node)
      (hr : node.children = .range a b) (ha : a ≤ c) (hb : c < b)
      (below : Above tree (d + 1, c) pos) : Above tree (d, i) pos

theorem Tree.Above.depth_le {tree : Tree} {pos pos' : ℕ × ℕ} (h : tree.Above pos pos') :
    pos.1 ≤ pos'.1 := by
  induction h with
  | here => exact le_rfl
  | child _ _ _ _ _ ih => exact (Nat.le_succ _).trans ih

section Positions

variable {G : Grammar} {start : Sym} {tree : Tree}

theorem Tree.Above.unique (hw : WellFormed G start tree) {top top' pos : ℕ × ℕ}
    (h : tree.Above top pos) (h' : tree.Above top' pos) (hdepth : top.1 = top'.1) : top = top' := by
  induction h generalizing top' with
  | here pos =>
    cases h' with
    | here => rfl
    | @child d' i' _ _ _ _ _ _ _ _ _ below =>
      have := below.depth_le
      simp only at this hdepth
      omega
  | @child d i a b c node pos hn hr ha hb below ih =>
    cases h' with
    | here =>
      have := below.depth_le
      simp only at this hdepth
      omega
    | @child d' j a' b' c' node' _ hn' hr' ha' hb' below' =>
      obtain rfl : d = d' := hdepth
      obtain ⟨-, rfl⟩ := Prod.mk.inj (ih below' rfl)
      obtain ⟨child, hchild, hparent⟩ := (hw.validLevels.parents d i c).mpr ⟨node, a, b, hn, hr, ha, hb⟩
      obtain ⟨child', hchild', hparent'⟩ :=
        (hw.validLevels.parents d j c).mpr ⟨node', a', b', hn', hr', ha', hb'⟩
      rw [Option.some.inj (hchild.symm.trans hchild'), hparent'] at hparent
      exact (Option.some.inj hparent).symm

theorem Tree.drop_eq_cons {d i : ℕ} {node : Node} (hn : tree.node? (d, i) = some node) :
    ∃ level, tree.drop d = level :: tree.drop (d + 1) ∧ level[i]? = some node := by
  obtain ⟨level, hl, hi⟩ := Tree.node?_eq_some.mp hn
  obtain ⟨hlt, hget⟩ := List.getElem?_eq_some_iff.mp hl
  exact ⟨level, by rw [List.drop_eq_getElem_cons hlt, hget], hi⟩

theorem Tree.Derivation.nodup_leaves (hw : WellFormed G start tree) {pos : ℕ × ℕ} {t : DTree}
    (h : tree.Derivation pos t) :
    ((Tree.leaves pos.1 (tree.drop pos.1) pos.2).map Prod.fst).Nodup ∧
      ∀ leaf ∈ Tree.leaves pos.1 (tree.drop pos.1) pos.2, tree.Above pos leaf.1 := by
  induction h with
  | @leaf pos node hn hc =>
    obtain ⟨level, hdrop, hi⟩ := Tree.drop_eq_cons hn
    simp [hdrop, Tree.leaves, hi, hc, Tree.Above.here]
  | @node d i a b dn node children hn hc _ hlen _ ih =>
    obtain ⟨level, hdrop, hi⟩ := Tree.drop_eq_cons hn
    have hchild : ∀ c ∈ List.range' a (b - a),
        ((Tree.leaves (d + 1) (tree.drop (d + 1)) c).map Prod.fst).Nodup ∧
          ∀ leaf ∈ Tree.leaves (d + 1) (tree.drop (d + 1)) c, tree.Above (d + 1, c) leaf.1 := by
      intro c hcm
      obtain ⟨ha, hb⟩ := List.mem_range'_1.mp hcm
      obtain ⟨k, rfl⟩ := Nat.exists_eq_add_of_le ha
      exact ih k _ (List.getElem?_eq_getElem (show k < children.length by omega))
    simp only [hdrop, Tree.leaves, hi, hc]
    refine ⟨?_, ?_⟩
    · rw [List.map_flatMap, List.nodup_flatMap]
      refine ⟨fun c hcm => (hchild c hcm).1, ?_⟩
      have hnodup : (List.range' a (b - a)).Nodup := List.nodup_range'
      refine hnodup.imp_of_mem fun {c c'} hcm hcm' hne => ?_
      rw [Function.onFun, List.disjoint_left]
      rintro p hp hp'
      obtain ⟨leaf, hleaf, rfl⟩ := List.mem_map.mp hp
      obtain ⟨leaf', hleaf', hsame⟩ := List.mem_map.mp hp'
      have habove := (hchild c' hcm').2 leaf' hleaf'
      rw [hsame] at habove
      exact hne (Prod.mk.inj (((hchild c hcm).2 leaf hleaf).unique hw habove rfl)).2
    · intro leaf hleaf
      obtain ⟨c, hcm, hleaf⟩ := List.mem_flatMap.mp hleaf
      obtain ⟨ha, hb⟩ := List.mem_range'_1.mp hcm
      exact .child hn hc ha (by omega) ((hchild c hcm).2 leaf hleaf)

end Positions

theorem exists_map_eq {α β : Type} [DecidableEq α] [Inhabited β] {xs : List α} (hnodup : xs.Nodup)
    {ys : List β} (hlen : xs.length = ys.length) : ∃ f : α → β, xs.map f = ys := by
  refine ⟨fun x => ys.getD (xs.idxOf x) default, ?_⟩
  apply List.ext_getElem (by simpa using hlen)
  intro i hi hi'
  rw [List.getElem_map, hnodup.idxOf_getElem, List.getD_eq_getElem?_getD,
    List.getElem?_eq_getElem hi', Option.getD_some]

def renderSymbol (getone : String → String) (symbol : Sym) : String :=
  if isQuoted symbol then String.ofList (symbol.toList.drop 1).dropLast
  else if isRegexTerminal symbol then getone (regexPattern symbol)
  else symbol

/-- The text spells the word: `exrex r pattern` is what `exrex.getone` returns for the draw `r`. -/
def Spells (exrex : ℕ → String → String) (w : List Sym) (text : String) : Prop :=
  ∃ draws : List ℕ, draws.length = w.length ∧
    text = String.join (List.zipWith (fun symbol r => renderSymbol (exrex r) symbol) w draws)

section Words

variable {G : Grammar}

theorem exists_alternative_of_mem_yield {t : DTree} (h : Derives G t) (hroot : t.symbol ∈ G.keys) :
    ∀ s ∈ t.yield, ∃ A, ∃ alt ∈ G.alternatives A, s ∈ alt.expansion := by
  induction h with
  | leaf hs => exact absurd hroot hs
  | @node A d children alt ha _ hc hchildren ih =>
    intro s hs
    rw [DTree.yield, DTree.yieldForest_eq_flatMap] at hs
    obtain ⟨c, hcm, hs⟩ := List.mem_flatMap.mp hs
    cases hd : hchildren c hcm with
    | @leaf x hx =>
      refine ⟨A, alt, ha, ?_⟩
      rw [List.mem_singleton.mp hs, ← hc]
      exact List.mem_map_of_mem hcm
    | @node B _ _ alt' ha' _ _ _ =>
      exact ih _ hcm (Grammar.mem_keys_of_mem_alternatives ha') s hs

theorem InputGenerator.renderLeaf_eq (g : InputGenerator) (getone : String → String) {A s : Sym}
    {alt : Alternative} (ha : alt ∈ g.grammar.alternatives A) (hs : s ∈ alt.expansion) :
    g.renderLeaf getone s = renderSymbol getone s := by
  have hget := Grammar.get?_of_mem_keys (Grammar.mem_keys_of_mem_alternatives ha)
  have hoccurs : (g.grammar.values.any fun alts => alts.any fun alt => s ∈ alt.expansion) = true :=
    List.any_eq_true.mpr ⟨_, Map.mem_values_of_get? hget, List.any_eq_true.mpr
      ⟨alt, ha, decide_eq_true hs⟩⟩
  simp only [InputGenerator.renderLeaf, renderSymbol, InputGenerator.isRegexTerminalOf, hoccurs,
    and_true, Bool.decide_eq_true]

end Words

namespace InputGenerator

def withMaxDepths (g : InputGenerator) (maxDepths : ℕ) : InputGenerator :=
  { g with config := ⟨g.config.startRule, maxDepths⟩ }

/-- Some call of `generate_input` writes the text; `exrex.getone` draws anew for every leaf. -/
def Writes (g : InputGenerator) (exrex : ℕ → String → String) (text : String) : Prop :=
  ∃ (rnd : ℕ → Choices) (draw : ℕ → ℕ × ℕ → ℕ) (fuel num : ℕ) (inputs : List (String × Tree))
    (tree : Tree), g.generateInput rnd (fun i pos => exrex (draw i pos)) fuel num = some inputs ∧
      (text, tree) ∈ inputs

variable {g : InputGenerator} {exrex : ℕ → String → String} {text : String}

theorem writes_iff : g.Writes exrex text ↔ ∃ rnd fuel st, ∃ draw : ℕ × ℕ → ℕ,
    g.generateTree rnd fuel = some st ∧
      g.treeToString (fun pos => exrex (draw pos)) 0 st.tree 0 = some text := by
  constructor
  · rintro ⟨rnd, draw, fuel, num, inputs, tree, hrun, hmem⟩
    obtain ⟨i, -, hi⟩ := (mem_mapM_iff hrun _).mp hmem
    simp only [Option.bind_eq_bind, Option.pure_def] at hi
    obtain ⟨st, hst, hi⟩ := Option.bind_eq_some_iff.mp hi
    obtain ⟨text', htext, hi⟩ := Option.bind_eq_some_iff.mp hi
    obtain ⟨rfl, -⟩ := Prod.mk.inj (Option.some.inj hi)
    exact ⟨rnd i, fuel, st, draw i, hst, htext⟩
  · rintro ⟨rnd, fuel, st, draw, hst, htext⟩
    refine ⟨fun _ => rnd, fun _ => draw, fuel, 1, [(text, st.tree)], st.tree, ?_, by simp⟩
    simp [generateInput, hst, htext]

theorem treeToString_leaves {st : GenState} {t : DTree}
    (hkey : g.config.startRule ∈ g.grammar.keys)
    (hw : WellFormed g.grammar g.config.startRule st.tree) (hclosed : st.tree.Closed)
    (hder : st.tree.Derivation (0, 0) t) (ht : Derives g.grammar t)
    (hsym : t.symbol = g.config.startRule) (draw : ℕ × ℕ → ℕ) :
    g.treeToString (fun pos => exrex (draw pos)) 0 st.tree 0 = some (String.join
      (List.zipWith (fun symbol r => renderSymbol (exrex r) symbol) t.yield
        ((Tree.leaves 0 st.tree 0).map fun leaf => draw leaf.1))) := by
  obtain ⟨root, hn, -⟩ := hw.exists_root
  have hyield : (Tree.leaves 0 st.tree 0).map Prod.snd = t.yield := hder.leaves_eq_yield
  have htext : g.treeToString (fun pos => exrex (draw pos)) 0 st.tree 0 = some (String.join
      ((Tree.leaves 0 st.tree 0).map fun leaf => g.renderLeaf (exrex (draw leaf.1)) leaf.2)) :=
    g.treeToString_eq _ hw hclosed _ rfl hn
  have hrender : ∀ leaf ∈ Tree.leaves 0 st.tree 0,
      g.renderLeaf (exrex (draw leaf.1)) leaf.2 = renderSymbol (exrex (draw leaf.1)) leaf.2 := by
    intro leaf hleaf
    have hmem : leaf.2 ∈ t.yield := hyield ▸ List.mem_map_of_mem hleaf
    obtain ⟨A, alt, ha, hin⟩ := exists_alternative_of_mem_yield ht (hsym ▸ hkey) leaf.2 hmem
    exact g.renderLeaf_eq _ ha hin
  rw [htext, List.map_congr_left hrender, ← hyield, List.zipWith_map, List.zipWith_self]

end InputGenerator

/-- Without rules the texts written are the words of the language, spelled. -/
theorem exists_writes_iff (g : InputGenerator) (hempty : g.tables = Tables.empty)
    (hsum : g.grammar.Summable) (hstart : g.grammar.keys.head? = some g.config.startRule)
    (hprob : ∀ s, ∀ a ∈ g.grammar.alternatives s, Noticeable (total (g.grammar.weights s)) a.prob)
    (exrex : ℕ → String → String) (text : String) :
    (∃ maxDepths, (g.withMaxDepths maxDepths).Writes exrex text) ↔
      ∃ w ∈ (g.grammar.toCFG g.config.startRule).language, Spells exrex w text := by
  have hkey : g.config.startRule ∈ g.grammar.keys := List.mem_of_mem_head? hstart
  constructor
  · rintro ⟨n, hwrites⟩
    obtain ⟨rnd, fuel, st, draw, hrun, htext⟩ := InputGenerator.writes_iff.mp hwrites
    obtain ⟨hw, hexit⟩ := derives_of_run (g := g.withMaxDepths n) hkey hrun
    obtain ⟨t, hder, ht, hsym⟩ := hw.exists_root_derivation (hw.closed hexit)
    rw [InputGenerator.treeToString_leaves (g := g.withMaxDepths n) hkey hw (hw.closed hexit) hder ht
      hsym] at htext
    refine ⟨t.yield, (mem_language_iff hkey).mpr ⟨t, ht, hsym, rfl⟩, _, ?_, (Option.some.inj htext).symm⟩
    rw [List.length_map, ← hder.leaves_eq_yield, List.length_map]
    rfl
  · rintro ⟨w, hlanguage, draws, hlen, rfl⟩
    obtain ⟨t, ht, hsym, rfl⟩ := (mem_language_iff hkey).mp hlanguage
    obtain ⟨rnd, fuel, st, hrun, hder⟩ := exists_run_of_derives g hempty hsum hstart hprob ht hsym
    obtain ⟨hw, hexit⟩ := derives_of_run (g := g.withMaxDepths t.height) hkey hrun
    have hyield : (Tree.leaves 0 st.tree 0).map Prod.snd = t.yield := hder.leaves_eq_yield
    have hnodup : ((Tree.leaves 0 st.tree 0).map Prod.fst).Nodup := (hder.nodup_leaves hw).1
    obtain ⟨draw, hdraw⟩ := exists_map_eq hnodup (show _ = draws.length by
      rw [hlen, ← hyield, List.length_map, List.length_map])
    rw [List.map_map] at hdraw
    refine ⟨t.height, InputGenerator.writes_iff.mpr ⟨rnd, fuel, st, draw, hrun, ?_⟩⟩
    rw [InputGenerator.treeToString_leaves (g := g.withMaxDepths t.height) hkey hw (hw.closed hexit)
      hder ht hsym]
    exact congrArg (fun ds => some (String.join
      (List.zipWith (fun symbol r => renderSymbol (exrex r) symbol) t.yield ds))) hdraw

section Normalized

variable {G : Grammar}

theorem Grammar.Reweighted.toCFG_eq {G' : Grammar} (h : G.Reweighted G') (start : Sym) :
    G'.toCFG start = G.toCFG start := by
  have hkeys := h.keys_eq
  have hsymbol : G'.toSymbol = G.toSymbol := by
    funext s
    simp only [toSymbol, hkeys]
  have hrules : G'.toRules = G.toRules := by
    funext s
    rw [toRules, toRules, hsymbol]
    exact (h.sameShape s).map_eq fun _ _ => rfl
  simp only [toCFG, hkeys, hrules]

def Grammar.Even (G : Grammar) : Prop := ∀ s, EvenWeights (G.weights s)

instance (G : Grammar) : Decidable G.Even :=
  decidable_of_iff _ (Grammar.forall_weights_iff evenWeights_nil).symm

theorem Grammar.Even.balanced (h : G.Even) : G.Balanced := fun s => (h s).balanced

theorem Grammar.Even.noticeable (h : G.Even) {k : ℕ} (hpos : 0 < k) (hk : k ≤ 2 ^ 50) (s : Sym) :
    ∀ a ∈ (Grammar.normalized^[k] G).alternatives s,
      Noticeable (total ((Grammar.normalized^[k] G).weights s)) a.prob := by
  intro a ha
  have hmem : a.prob ∈ (Grammar.normalized^[k] G).weights s := List.mem_map_of_mem ha
  refine (h.balanced.iterate hk s).noticeable le_rfl hmem ?_
  rw [weights_iterate] at hmem
  exact (h s).iterate_ne_zero hpos hk _ hmem

/-- What main makes of zeros is uniform, so that all words are written, however often it is called
    on the dictionary. -/
theorem exists_writes_normalized_iff (heven : G.Even) (depthsDict : DepthsDict) {start : Sym}
    (hstart : G.keys.head? = some start) {k : ℕ} (hpos : 0 < k) (hk : k ≤ 2 ^ 50)
    (exrex : ℕ → String → String) (text : String) :
    (∃ maxDepths, InputGenerator.Writes
        ⟨Grammar.normalized^[k] G, depthsDict, ⟨start, maxDepths⟩, Tables.empty⟩ exrex text) ↔
      ∃ w ∈ (G.toCFG start).language, Spells exrex w text := by
  have hshape := G.reweighted_iterate k
  have hgraded := graded_of_balanced (heven.balanced.iterate hk)
  rw [← hshape.toCFG_eq start]
  exact exists_writes_iff ⟨Grammar.normalized^[k] G, depthsDict, ⟨start, 0⟩, Tables.empty⟩ rfl
    hgraded.summable (hshape.keys_eq ▸ hstart) (heven.noticeable hpos hk) exrex text

end Normalized

end RSFuzz
