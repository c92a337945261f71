import RSFuzz.SequenceShape
import RSFuzz.WalkCompleteness

set_option autoImplicit false

/-!
# Every complete tree gives a sequence

Separators are told apart next to a nonterminal only. So below a node that has
no nonterminal among its children every leaf counts, and where no alternative is
empty every complete tree has such a node.
-/
namespace RSFuzz
open OrderedMap

/-- Next to every separator of the level stands a nonterminal with the same parent. -/
def SeparatorsBeside (G : Grammar) (level : List Node) : Prop :=
  ∀ n ∈ level, n.dn = -2 → ∃ m ∈ level, m.parent = n.parent ∧ m.symbol ∈ G.keys

theorem SeparatorsBeside.append {G : Grammar} {level nodes : List Node}
    (h : SeparatorsBeside G level) (h' : SeparatorsBeside G nodes) :
    SeparatorsBeside G (level ++ nodes) := by
  intro n hn hdn
  rcases List.mem_append.mp hn with hn | hn
  · obtain ⟨m, hm, hkey⟩ := h n hn hdn
    exact ⟨m, List.mem_append_left nodes hm, hkey⟩
  · obtain ⟨m, hm, hkey⟩ := h' n hn hdn
    exact ⟨m, List.mem_append_right level hm, hkey⟩

theorem SeparatorsBeside.replace {G : Grammar} {front rest : List Node} {node node' : Node}
    (h : SeparatorsBeside G (front ++ node :: rest)) (ho : node'.outline = node.outline)
    (hdn : node'.dn = -2 → node.dn = -2) : SeparatorsBeside G (front ++ node' :: rest) := by
  have hsym : node'.symbol = node.symbol := congrArg Prod.fst ho
  have hpar : node'.parent = node.parent := congrArg Prod.snd ho
  have hkept : ∀ m ∈ front ++ node :: rest, ∃ m' ∈ front ++ node' :: rest,
      m'.parent = m.parent ∧ m'.symbol = m.symbol := by
    intro m hm
    rcases List.mem_append.mp hm with hm | hm
    · exact ⟨m, List.mem_append_left _ hm, rfl, rfl⟩
    · rcases List.mem_cons.mp hm with rfl | hm
      · exact ⟨node', by simp, hpar, hsym⟩
      · exact ⟨m, by simp [hm], rfl, rfl⟩
  have hfrom : ∀ n ∈ front ++ node' :: rest, n.dn = -2 →
      ∃ n₀ ∈ front ++ node :: rest, n₀.parent = n.parent ∧ n₀.dn = -2 := by
    intro n hn hn2
    rcases List.mem_append.mp hn with hn | hn
    · exact ⟨n, List.mem_append_left _ hn, rfl, hn2⟩
    · rcases List.mem_cons.mp hn with rfl | hn
      · exact ⟨node, by simp, hpar.symm, hdn hn2⟩
      · exact ⟨n, by simp [hn], rfl, hn2⟩
  intro n hn hn2
  obtain ⟨n₀, hn₀, hpar₀, hdn₀⟩ := hfrom n hn hn2
  obtain ⟨m, hm, hmpar, hkey⟩ := h n₀ hn₀ hdn₀
  obtain ⟨m', hm', hpar', hsym'⟩ := hkept m hm
  exact ⟨m', hm', hpar'.trans (hmpar.trans hpar₀), hsym' ▸ hkey⟩

theorem separatorsBeside_children (g : InputGenerator) (depth idx : ℕ) (expansion : List Sym) :
    SeparatorsBeside g.grammar (g.children depth idx expansion) := by
  intro n hn hdn
  by_cases hany : expansion.any g.isNonterminal = true
  · obtain ⟨x, hx, hnt⟩ := List.any_eq_true.mp hany
    refine ⟨⟨x, .unexpanded, -1, some (depth, idx)⟩, ?_, (g.mem_children depth idx expansion hn).2.1.symm,
      (Grammar.isNonterminal_iff _ _).mp hnt⟩
    rw [InputGenerator.children, if_pos hany, List.mem_map]
    exact ⟨x, hx, by rw [if_pos hnt]⟩
  · rw [InputGenerator.children, if_neg hany, List.mem_map] at hn
    obtain ⟨x, -, rfl⟩ := hn
    cases hdn

theorem expandNodes_separatorsBeside {g : InputGenerator} {t : Tables} {select : Selector}
    (hsel : SelectsAlternative g select) {upper : Tree} {rest : List Node} {ls ls' : LevelState}
    (hvisited : SeparatorsBeside g.grammar (ls.visited ++ rest))
    (hnext : SeparatorsBeside g.grammar ls.next)
    (hrun : expandNodes t select upper rest ls = some ls') :
    SeparatorsBeside g.grammar ls'.visited ∧ SeparatorsBeside g.grammar ls'.next := by
  induction rest generalizing ls with
  | nil =>
    obtain rfl := Option.some.inj hrun
    exact ⟨by rwa [List.append_nil] at hvisited, hnext⟩
  | cons node rest ih =>
    obtain ⟨ls₁, h₁, h₂⟩ := Option.bind_eq_some_iff.mp hrun
    rcases expandNode_cases h₁ with ⟨-, rfl⟩ | ⟨-, sel, seen', hs, -, rfl⟩
    · have hkept : SeparatorsBeside g.grammar
          (ls.visited ++ [{ node with children := .leaf }] ++ rest) := by
        rw [List.append_assoc, List.singleton_append]
        exact hvisited.replace rfl id
      refine ih ?_ ?_ h₂
      · exact hkept
      · exact hnext
    · obtain ⟨alt, -, -, hnodes⟩ := hsel _ _ _ _ _ hs
      have hexpanded : SeparatorsBeside g.grammar
          (ls.visited ++ [node.expand ls.next.length sel] ++ rest) := by
        rw [List.append_assoc, List.singleton_append]
        refine hvisited.replace rfl fun hdn => ?_
        have hnum : ((sel.derivNum : ℕ) : ℤ) = -2 := hdn
        omega
      have hnodes : SeparatorsBeside g.grammar sel.nodes :=
        hnodes ▸ separatorsBeside_children g _ _ _
      exact ih hexpanded (hnext.append hnodes) h₂

theorem Steps.separatorsBeside {g : InputGenerator} {S : Selector → Prop}
    (hsel : ∀ s, S s → SelectsAlternative g s) {st : GenState} (h : Steps g S st) :
    ∀ level ∈ st.tree, SeparatorsBeside g.grammar level := by
  induction h with
  | initial =>
    intro level hl n hn hdn
    obtain rfl := List.mem_singleton.mp hl
    obtain rfl := List.mem_singleton.mp hn
    cases hdn
  | level _ hs hrun ih =>
    simp only [expandLevel, Option.bind_eq_bind, Option.bind_eq_some_iff, Option.pure_def,
      Option.some.injEq, Prod.mk.injEq] at hrun
    obtain ⟨last, hlast, ls, hls, rfl, -⟩ := hrun
    have hboth : SeparatorsBeside g.grammar ls.visited ∧ SeparatorsBeside g.grammar ls.next := by
      refine expandNodes_separatorsBeside (hsel _ hs) ?_ ?_ hls
      · exact ih last (List.mem_of_getLast? hlast)
      · exact fun n hn => by cases hn
    obtain ⟨hvisited, hnext⟩ := hboth
    intro level hl
    rcases List.mem_append.mp hl with hl | hl
    · exact ih level (List.mem_of_mem_dropLast hl)
    · rcases List.mem_cons.mp hl with rfl | hl
      · exact hvisited
      · obtain rfl := List.mem_singleton.mp hl
        exact hnext

def Grammar.NoEmptyAlternative (G : Grammar) : Prop :=
  ∀ S, ∀ alt ∈ G.alternatives S, alt.expansion ≠ []

theorem Grammar.noEmptyAlternative_iff (G : Grammar) :
    G.NoEmptyAlternative ↔ ∀ rule ∈ G.entries, ∀ alt ∈ rule.2, alt.expansion ≠ [] := by
  constructor
  · intro h rule hrule alt halt
    refine h rule.1 alt ?_
    rwa [Grammar.alternatives_of_get? ((Map.get?_eq_some_iff G rule.1 rule.2).mpr hrule)]
  · intro h S alt halt
    have hget := Grammar.get?_of_mem_keys (Grammar.mem_keys_of_mem_alternatives halt)
    exact h (S, G.alternatives S) ((Map.get?_eq_some_iff G S _).mp hget) alt halt

instance (G : Grammar) : Decidable G.NoEmptyAlternative :=
  decidable_of_iff _ G.noEmptyAlternative_iff.symm

section Extraction

variable {G : Grammar} {start : Sym} {tree : Tree}

/-- The children of a deepest expanded node are leaves, and none of them is a separator. Induction
    on the number of levels below the node. -/
theorem exists_endsBelow (hw : WellFormed G start tree) (hclosed : tree.Closed)
    (hsep : ∀ level ∈ tree, SeparatorsBeside G level) (hne : G.NoEmptyAlternative) (n : ℕ)
    {d i a b : ℕ} {node : Node} (hd : tree.length - d = n) (hn : tree.node? (d, i) = some node)
    (hc : node.children = .range a b) : ∃ pos, tree.EndsBelow G pos := by
  induction n generalizing d i a b node with
  | zero =>
    have := Tree.node?_lt_length hn
    omega
  | succ n ih =>
    by_cases hdeeper : ∃ c child a' b', tree.node? (d + 1, c) = some child ∧
        child.parent = some (d, i) ∧ child.children = .range a' b'
    · obtain ⟨c, child, a', b', hchild, -, hc'⟩ := hdeeper
      exact ih (by omega) hchild hc'
    · have hleaf : ∀ c child, tree.node? (d + 1, c) = some child → child.parent = some (d, i) →
          child.children = .leaf := by
        intro c child hchild hpar
        cases hc' : child.children with
        | unexpanded => exact absurd hc' (hclosed _ _ hchild)
        | leaf => rfl
        | range a' b' => exact absurd ⟨c, child, a', b', hchild, hpar, hc'⟩ hdeeper
      have hok : ∀ c child, tree.node? (d + 1, c) = some child → child.parent = some (d, i) →
          child.symbol ∉ G.keys ∧ (child.dn = -1 ∨ child.dn = -2) := by
        intro c child hchild hpar
        have hc' := hleaf c child hchild hpar
        exact ⟨(hw.nodeOk hchild).leaf_iff.mp hc', (hw.nodeOk hchild).leaf_dn hc'⟩
      obtain ⟨hab, alt, halt, -, hlen, -⟩ := hw.spells_alternative hn hc
      have hpos := List.length_pos_iff.mpr (hne _ alt halt)
      obtain ⟨child, hchild, hpar⟩ := hw.exists_child hn hc (Nat.le_refl a) (by omega)
      obtain ⟨-, hdn | hdn⟩ := hok a child hchild hpar
      · exact ⟨(d, i), .leaf hchild hpar (hleaf a child hchild hpar) hdn⟩
      · obtain ⟨level, hl, hi⟩ := Tree.node?_eq_some.mp hchild
        obtain ⟨m, hm, hmpar, hkey⟩ :=
          hsep level (List.mem_of_getElem? hl) child (List.mem_of_getElem? hi) hdn
        obtain ⟨c, hcm⟩ := List.mem_iff_getElem?.mp hm
        exact absurd hkey
          (hok c m (Tree.node?_eq_some.mpr ⟨level, hl, hcm⟩) (hmpar.trans hpar)).1

theorem exists_mem_dtToSequences (hw : WellFormed G start tree) (hclosed : tree.Closed)
    (hstart : start ∈ G.keys) (hsep : ∀ level ∈ tree, SeparatorsBeside G level)
    (hne : G.NoEmptyAlternative) {order : IterationOrder (List Entry)} {fuel : ℕ}
    {sequences : List (List Entry)} (h : dtToSequences G order tree fuel = some sequences) :
    ∃ s : Sequence, s.entries ∈ sequences := by
  obtain ⟨root, hn, hsym, -⟩ := hw.exists_root
  have hexpanded : ∃ a b, root.children = .range a b := by
    cases hc : root.children with
    | unexpanded => exact absurd hc (hclosed _ _ hn)
    | leaf => exact absurd (hsym ▸ hstart) ((hw.nodeOk hn).leaf_iff.mp hc)
    | range a b => exact ⟨a, b, rfl⟩
  obtain ⟨a, b, hc⟩ := hexpanded
  obtain ⟨pos, hbelow⟩ := exists_endsBelow hw hclosed hsep hne _ rfl hn hc
  obtain ⟨path, dn, hcollects⟩ := hbelow.exists_collects hw
  obtain ⟨raws, hraws, hmem⟩ := exists_raws h
  have hraw := (mem_rawSequences_iff hw hclosed hstart hraws _).mpr ⟨path, dn, hcollects, rfl⟩
  obtain ⟨e, he, s, rfl, -⟩ :=
    collapse_captured (rawSequences_captures hw hclosed hstart hraws _ hraw)
  exact ⟨s, (hmem _).mpr ⟨_, hraw, he⟩⟩

end Extraction

theorem InputGenerator.Produces.exists_mem_dtToSequences {g : InputGenerator} {st : GenState}
    (hst : g.Produces st) (hstart : g.config.startRule ∈ g.grammar.keys)
    (hne : g.grammar.NoEmptyAlternative) {order : IterationOrder (List Entry)} {fuel : ℕ}
    {sequences : List (List Entry)}
    (h : dtToSequences g.grammar order st.tree fuel = some sequences) :
    ∃ s : Sequence, s.entries ∈ sequences := by
  obtain ⟨hinv, hclosed⟩ := hst.closed hstart
  have hsep := hst.reachable.1.steps.separatorsBeside fun _ hs => hs.selectsAlternative
  exact RSFuzz.exists_mem_dtToSequences hinv.wellFormed hclosed hstart hsep hne h

/-- The extractor returns at least one sequence on every tree that one of the generators
    completes. -/
theorem extraction_returns {g : InputGenerator} {st : GenState} (hst : g.Produces st)
    (hstart : g.config.startRule ∈ g.grammar.keys) (hne : g.grammar.NoEmptyAlternative)
    (order : IterationOrder (List Entry)) :
    ∃ fuel₀ sequences, (∀ fuel, fuel₀ ≤ fuel →
        dtToSequences g.grammar order st.tree fuel = some sequences) ∧ sequences ≠ [] := by
  obtain ⟨hinv, hclosed⟩ := hst.closed hstart
  obtain ⟨fuel₀, sequences, hrun, -⟩ := dtToSequences_returns order hinv.wellFormed hclosed hstart
  obtain ⟨s, hs⟩ := hst.exists_mem_dtToSequences hstart hne (hrun fuel₀ le_rfl)
  exact ⟨fuel₀, sequences, hrun, List.ne_nil_of_mem hs⟩

end RSFuzz
