import RSFuzz.FoundationOptionFold
import RSFuzz.GeneratorSteps

set_option autoImplicit false

/-!
# Level loops and whole runs

A run is a sequence of level expansions, each with its own way of selecting
alternatives. Every tree on a run is well formed, the ids seen are exactly
those the tree realises, and a property of the log follows from one expansion.
-/
namespace RSFuzz
open OrderedMap OptionFold Tiling

/-- The ids seen are the ids of the registered sequences that the tree realises. -/
def SeenExact (t : Tables) (tree : Tree) (seen : Finset ℕ) : Prop :=
  ∀ k, k ∈ seen ↔ ∃ e ∈ tree.expanded, t.RecordedBy e k

/-- One expansion in context: the node's root path, what was selected, and the ids seen
    before and after. -/
structure ExpandedAt (g : InputGenerator) (select : Selector) (e : Expansion) (path : List Sym)
    (sel : Selection) (seen' : Finset ℕ) : Prop where
  rootPath : e.tree.RootPath e.pos path
  length : e.tree.length = e.pos.1 + 1
  symbol : path.getLast? = some e.symbol
  selected : select e.tree e.pos.2 e.symbol e.seen = some sel
  candidates : e.candidates = sel.candidates
  derivNum : e.derivNum = sel.derivNum
  seenBefore : SeenExact g.tables e.tree e.seen
  seenAfter : ∀ k, k ∈ seen' ↔ k ∈ e.seen ∨ g.tables.RecordedBy (path, e.derivNum) k

/-- The loop over the last level, `rest` still to be visited. -/
structure LevelInvariant (g : InputGenerator) (upper : Tree) (last : List Node)
    (ls : LevelState) (rest : List Node) : Prop where
  split : ∃ front, last = front ++ rest ∧ ls.visited.map Node.outline = front.map Node.outline
  linked : LevelLinked g.grammar upper.length ls.visited ls.next
  visitedOk : ∀ n ∈ ls.visited, NodeOk g.grammar n ∧ n.children ≠ .unexpanded
  nextOk : ∀ n ∈ ls.next, NodeOk g.grammar n ∧ ∀ a b, n.children ≠ .range a b
  seenExact : SeenExact g.tables (upper ++ [ls.visited ++ rest]) ls.seen

theorem LevelInvariant.outline {g : InputGenerator} {upper : Tree} {last rest : List Node}
    {ls : LevelState} (h : LevelInvariant g upper last ls rest) :
    (ls.visited ++ rest).map Node.outline = last.map Node.outline := by
  obtain ⟨front, rfl, ho⟩ := h.split
  simp [ho]

theorem LevelInvariant.current {g : InputGenerator} {start : Sym} {upper : Tree}
    {last rest : List Node} {ls : LevelState} {node : Node}
    (hw : WellFormed g.grammar start (upper ++ [last]))
    (h : LevelInvariant g upper last ls (node :: rest)) :
    last[ls.visited.length]? = some node ∧ ∃ path,
      Tree.RootPath (upper ++ [ls.visited ++ node :: rest]) (upper.length, ls.visited.length) path ∧
      path.getLast? = some node.symbol := by
  obtain ⟨front, hl, ho⟩ := h.split
  have hlen : ls.visited.length = front.length := by simpa using congrArg List.length ho
  have hlast : last[ls.visited.length]? = some node := by rw [hl, hlen]; simp
  have hnode : Tree.node? (upper ++ [last]) (upper.length, ls.visited.length) = some node := by
    rw [Tree.node?_last, hlast]
  obtain ⟨path, hp⟩ := hw.parentsConsistent.exists_rootPath _ _ hnode
  exact ⟨hlast, path, hp.extend (Tree.extends_of_outline upper h.outline), hp.getLast? hnode⟩

theorem LevelInvariant.leaf {g : InputGenerator} {upper : Tree} {last rest : List Node}
    {ls : LevelState} {node : Node} (h : LevelInvariant g upper last ls (node :: rest))
    (hok : NodeOk g.grammar node) (hleaf : node.children = .leaf) :
    LevelInvariant g upper last { ls with visited := ls.visited ++ [node] } rest := by
  obtain ⟨front, hfront, ho⟩ := h.split
  refine ⟨⟨front ++ [node], by simp [hfront], by simp [ho]⟩, h.linked.concat_leaf hleaf, ?_,
    h.nextOk, by simpa using h.seenExact⟩
  intro n hn
  rcases List.mem_append.mp hn with hn | hn
  · exact h.visitedOk n hn
  · obtain rfl := List.mem_singleton.mp hn
    exact ⟨hok, by simp [hleaf]⟩

theorem LevelInvariant.expand {g : InputGenerator} {upper : Tree} {last rest : List Node}
    {ls : LevelState} {node : Node} (h : LevelInvariant g upper last ls (node :: rest))
    (hkey : node.symbol ∈ g.grammar.keys) (hnr : ∀ a b, node.children ≠ .range a b)
    {sel : Selection} {alt : Alternative} (halt : alt ∈ g.grammar.alternatives node.symbol)
    (hdn : sel.derivNum = alt.derivNum)
    (hnodes : sel.nodes = g.children upper.length ls.visited.length alt.expansion)
    {path : List Sym} (hpath : Tree.RootPath (upper ++ [ls.visited ++ node :: rest])
      (upper.length, ls.visited.length) path) {seen' : Finset ℕ}
    (hseen : ∀ k, k ∈ seen' ↔ k ∈ ls.seen ∨ g.tables.RecordedBy (path, sel.derivNum) k)
    (slot : Option ℕ) (trace : List Expansion) :
    LevelInvariant g upper last ⟨ls.visited ++ [node.expand ls.next.length sel],
      ls.next ++ sel.nodes, seen', slot, trace⟩ rest := by
  obtain ⟨front, hfront, ho⟩ := h.split
  have hout : (node.expand ls.next.length sel).outline = node.outline := rfl
  refine ⟨⟨front ++ [node], by simp [hfront], by simp [ho, hout]⟩, ?_, ?_, ?_, ?_⟩
  · refine h.linked.concat_range rfl ?_ halt (by simp [Node.expand, hdn]) ?_
    · intro n hn
      rw [hnodes] at hn
      exact (g.mem_children _ _ _ hn).2.1
    · rw [hnodes, g.children_symbols]
  · intro n hn
    rcases List.mem_append.mp hn with hn | hn
    · exact h.visitedOk n hn
    · obtain rfl := List.mem_singleton.mp hn
      exact ⟨⟨by simp [Node.expand, hkey], by simp [Node.expand]⟩, by simp [Node.expand]⟩
  · intro n hn
    rcases List.mem_append.mp hn with hn | hn
    · exact h.nextOk n hn
    · rw [hnodes] at hn
      exact g.children_ok _ _ _ hn
  · have hexp := Tree.expanded_update hout hnr rfl
      (show (node.expand ls.next.length sel).dn = ((sel.derivNum : ℕ) : ℤ) from rfl) hpath
    intro k
    simp only [List.append_assoc, List.cons_append, List.nil_append]
    rw [hseen, h.seenExact k, hexp]
    constructor
    · rintro (⟨e, he, hk⟩ | hk)
      · exact ⟨e, Or.inr he, hk⟩
      · exact ⟨_, Or.inl rfl, hk⟩
    · rintro ⟨e, rfl | he, hk⟩
      · exact Or.inr hk
      · exact Or.inl ⟨e, he, hk⟩

theorem expandNode_invariant {g : InputGenerator} {start : Sym} {select : Selector}
    (hsel : SelectsAlternative g select) {upper : Tree} {last rest : List Node}
    {ls ls' : LevelState} {node : Node} (hw : WellFormed g.grammar start (upper ++ [last]))
    (h : LevelInvariant g upper last ls (node :: rest))
    (hrun : expandNode g.tables select upper rest ls node = some ls') :
    LevelInvariant g upper last ls' rest ∧
      ((ls'.seen = ls.seen ∧ ls'.trace = ls.trace) ∨
        ∃ e path sel, ExpandedAt g select e path sel ls'.seen ∧ e.seen = ls.seen ∧
          ls'.trace = ls.trace ++ [e]) := by
  obtain ⟨hlast, path, hpath, hsym⟩ := h.current hw
  have hmem : node ∈ last := List.mem_of_getElem? hlast
  have hok : NodeOk g.grammar node := hw.nodes last (by simp) node hmem
  have hnr : ∀ a b, node.children ≠ .range a b := hw.last last (by simp) node hmem
  rcases expandNode_cases hrun with ⟨hc, rfl⟩ | ⟨hc, sel, seen', hs, hrec, rfl⟩
  · have hleaf : node.children = .leaf := by
      cases hn : node.children with
      | leaf => rfl
      | unexpanded => exact absurd hn hc
      | range a b => exact absurd hn (hnr a b)
    have hsame : ({ node with children := .leaf } : Node) = node := by rw [← hleaf]
    rw [hsame]
    exact ⟨h.leaf hok hleaf, Or.inl ⟨rfl, rfl⟩⟩
  · obtain ⟨alt, halt, hdn, hnodes⟩ := hsel _ _ _ _ _ hs
    have hdepth : (upper ++ [ls.visited ++ node :: rest]).length - 1 = upper.length := by simp
    rw [hdepth] at hnodes
    have hkey : node.symbol ∈ g.grammar.keys := by
      by_contra hk
      rw [hok.leaf_iff.mpr hk] at hc
      cases hc
    have hfwd := Tree.extends_of_outline upper (show (ls.visited ++
      node.expand ls.next.length sel :: rest).map Node.outline =
        (ls.visited ++ node :: rest).map Node.outline by simp [Node.outline, Node.expand])
    obtain ⟨seen'', hrec', hseen⟩ := record_spec (t := g.tables) (hpath.extend hfwd)
      (by simp) hsym sel.derivNum ls.seen
    obtain rfl := Option.some.inj (hrec.symm.trans hrec')
    exact ⟨h.expand hkey hnr halt hdn hnodes hpath hseen _ _, Or.inr
      ⟨_, path, sel, ⟨hpath, by simp, hsym, hs, rfl, rfl, h.seenExact, hseen⟩, rfl, rfl⟩⟩

theorem expandNodes_invariant {g : InputGenerator} {start : Sym} {select : Selector}
    (hsel : SelectsAlternative g select) (Q : Finset ℕ → List Expansion → Prop)
    (hQ : ∀ e path sel seen' trace, ExpandedAt g select e path sel seen' → Q e.seen trace →
      Q seen' (trace ++ [e]))
    {upper : Tree} {last rest : List Node} {ls ls' : LevelState}
    (hw : WellFormed g.grammar start (upper ++ [last]))
    (h : LevelInvariant g upper last ls rest) (hq : Q ls.seen ls.trace)
    (hrun : expandNodes g.tables select upper rest ls = some ls') :
    LevelInvariant g upper last ls' [] ∧ Q ls'.seen ls'.trace := by
  induction rest generalizing ls with
  | nil =>
    obtain rfl := Option.some.inj hrun
    exact ⟨h, hq⟩
  | cons node rest ih =>
    obtain ⟨ls₁, h₁, h₂⟩ := Option.bind_eq_some_iff.mp hrun
    obtain ⟨hinv, hlog⟩ := expandNode_invariant hsel hw h h₁
    refine ih hinv ?_ h₂
    rcases hlog with ⟨hs, ht⟩ | ⟨e, path, sel, hat, hs, ht⟩
    · rw [hs, ht]; exact hq
    · rw [ht]
      exact hQ e path sel _ _ hat (hs ▸ hq)

theorem LevelInvariant.initial {g : InputGenerator} {upper : Tree} {last : List Node}
    {seen : Finset ℕ} (hs : SeenExact g.tables (upper ++ [last]) seen) (slot : Option ℕ)
    (trace : List Expansion) : LevelInvariant g upper last ⟨[], [], seen, slot, trace⟩ last where
  split := ⟨[], rfl, rfl⟩
  linked := .nil
  visitedOk := by simp
  nextOk := by simp
  seenExact := hs

theorem lt_length_of_getElem? {α : Type} {xs : List α} {x : α} {d : ℕ} (h : xs[d]? = some x) :
    d < xs.length :=
  (List.getElem?_eq_some_iff.mp h).1

theorem LevelInvariant.wellFormed {g : InputGenerator} {start : Sym} {upper : Tree}
    {last : List Node} {ls : LevelState} (hw : WellFormed g.grammar start (upper ++ [last]))
    (h : LevelInvariant g upper last ls []) :
    WellFormed g.grammar start (upper ++ [ls.visited] ++ [ls.next]) := by
  have ho : ls.visited.map Node.outline = last.map Node.outline := by simpa using h.outline
  have hold : ∀ {d level}, upper[d]? = some level → (upper ++ [last])[d]? = some level :=
    fun hl => (getElem?_concat_iff _ _ _ _).mpr (Or.inl hl)
  have hlen : (upper ++ [ls.visited]).length = upper.length + 1 := by simp
  refine ⟨?_, ?_, ?_, ?_, ?_⟩
  · obtain ⟨node, hr, hsym, hpar⟩ := hw.root
    rcases (getElem?_concat_iff _ _ _ _).mp hr with hr | ⟨hu, rfl⟩
    · refine ⟨node, ?_, hsym, hpar⟩
      rw [List.append_assoc, List.getElem?_append_left (lt_length_of_getElem? hr), hr]
    · obtain rfl : upper = [] := List.length_eq_zero_iff.mp hu.symm
      obtain ⟨node', hn', ho'⟩ := List.map_eq_singleton_iff.mp ho
      exact ⟨node', by simp [hn'], (congrArg Prod.fst ho').trans hsym,
        (congrArg Prod.snd ho').trans hpar⟩
  · intro d level next hl hn
    rw [getElem?_concat_iff, getElem?_concat_iff, hlen] at hl hn
    rcases hn with (hn | ⟨hd, rfl⟩) | ⟨hd, rfl⟩
    · have := lt_length_of_getElem? hn
      obtain hl : upper[d]? = some level := by
        rcases hl with (hl | ⟨hd, -⟩) | ⟨hd, -⟩
        · exact hl
        · omega
        · omega
      exact hw.linked d level next (hold hl) (hold hn)
    · obtain hl : upper[d]? = some level := by
        rcases hl with (hl | ⟨hd', -⟩) | ⟨hd', -⟩
        · exact hl
        · omega
        · omega
      have hlast : (upper ++ [last])[d + 1]? = some last := by rw [hd]; simp
      exact (hw.linked d level last (hold hl) hlast).congr_next ho
    · obtain rfl : d = upper.length := Nat.succ.inj hd
      rcases hl with (hl | ⟨-, rfl⟩) | ⟨hd, -⟩
      · exact absurd (lt_length_of_getElem? hl) (Nat.lt_irrefl _)
      · exact h.linked
      · omega
  · intro level hl node hn
    simp only [List.mem_append, List.mem_singleton] at hl
    rcases hl with (hl | rfl) | rfl
    · exact hw.nodes level (by simp [hl]) node hn
    · exact (h.visitedOk node hn).1
    · exact (h.nextOk node hn).1
  · intro d level hl hd node hn
    rw [getElem?_concat_iff, getElem?_concat_iff, hlen] at hl
    simp only [List.length_append, List.length_singleton] at hd
    rcases hl with (hl | ⟨-, rfl⟩) | ⟨hd', -⟩
    · have := lt_length_of_getElem? hl
      exact hw.above d level (hold hl) (by simp; omega) node hn
    · exact (h.visitedOk node hn).2
    · omega
  · intro level hl node hn
    rw [List.getLast?_concat] at hl
    obtain rfl := Option.some.inj hl
    exact (h.nextOk node hn).2

theorem WellFormed.split_last {G : Grammar} {start : Sym} {tree : Tree}
    (h : WellFormed G start tree) :
    ∃ upper last, tree = upper ++ [last] ∧ tree.dropLast = upper ∧ tree.getLast? = some last := by
  refine ⟨tree.dropLast, tree.getLast h.ne_nil, (List.dropLast_append_getLast h.ne_nil).symm, rfl, ?_⟩
  exact List.getLast?_eq_some_getLast h.ne_nil

/-- Between two levels of a run. -/
structure RunInvariant (g : InputGenerator) (st : GenState) : Prop where
  wellFormed : WellFormed g.grammar g.config.startRule st.tree
  seenExact : SeenExact g.tables st.tree st.seen

theorem expandLevel_invariant {g : InputGenerator} {select : Selector}
    (hsel : SelectsAlternative g select) (Q : Finset ℕ → List Expansion → Prop)
    (hQ : ∀ e path sel seen' trace, ExpandedAt g select e path sel seen' → Q e.seen trace →
      Q seen' (trace ++ [e]))
    {st st' : GenState} {slot : Option ℕ} (h : RunInvariant g st) (hq : Q st.seen st.trace)
    (hrun : expandLevel g.tables select st = some (st', slot)) :
    RunInvariant g st' ∧ Q st'.seen st'.trace ∧ st'.tree.length = st.tree.length + 1 ∧
      Tree.Extends st.tree st'.tree := by
  obtain ⟨upper, last, ht, hdrop, hlast⟩ := h.wellFormed.split_last
  simp only [expandLevel, hlast, hdrop, Option.bind_eq_bind, Option.bind_some,
    Option.bind_eq_some_iff, Option.pure_def, Option.some.injEq, Prod.mk.injEq] at hrun
  obtain ⟨ls, hls, rfl, rfl⟩ := hrun
  have hw := h.wellFormed
  rw [ht] at hw
  have hseen := h.seenExact
  rw [ht] at hseen
  obtain ⟨hinv, hq'⟩ := expandNodes_invariant hsel Q hQ hw (.initial hseen none st.trace) hq hls
  have hout : ls.visited.map Node.outline = last.map Node.outline := by simpa using hinv.outline
  have happ : upper ++ [ls.visited, ls.next] = upper ++ [ls.visited] ++ [ls.next] := by simp
  have hclosed := hinv.wellFormed hw
  rw [← happ] at hclosed
  refine ⟨⟨hclosed, ?_⟩, hq', by simp [ht], ?_⟩
  · intro k
    simp only [happ]
    rw [Tree.expanded_append_fresh _ _ fun n hn => (hinv.nextOk n hn).2]
    simpa using hinv.seenExact k
  · rw [ht]
    simp only [happ]
    exact (Tree.extends_of_outline upper hout).trans (Tree.extends_append _ _)

/-- States met by a run whose levels are expanded by selectors of the kind `S`. -/
inductive Steps (g : InputGenerator) (S : Selector → Prop) : GenState → Prop where
  | initial : Steps g S g.initial
  | level {st st' : GenState} {select : Selector} {slot : Option ℕ} (h : Steps g S st)
      (hs : S select) (hrun : expandLevel g.tables select st = some (st', slot)) : Steps g S st'

theorem initial_runInvariant {g : InputGenerator} (hstart : g.config.startRule ∈ g.grammar.keys) :
    RunInvariant g g.initial := by
  refine ⟨⟨⟨_, rfl, rfl, rfl⟩, ?_, ?_, ?_, ?_⟩, ?_⟩
  · intro d level next _ hn
    simp [InputGenerator.initial] at hn
  · intro level hl node hn
    obtain rfl := List.mem_singleton.mp hl
    obtain rfl := List.mem_singleton.mp hn
    exact ⟨by simp [hstart], by simp⟩
  · intro d level _ hd
    simp [InputGenerator.initial] at hd
  · intro level hl node hn
    obtain rfl : [_] = level := by simpa [InputGenerator.initial] using hl
    obtain rfl := List.mem_singleton.mp hn
    simp
  · intro k
    have hnone : Tree.expanded g.initial.tree = ∅ :=
      Tree.expanded_append_fresh [] [_] (by simp) |>.trans (by
        ext e
        simp [Tree.expanded, Tree.node?])
    simp [InputGenerator.initial] at hnone ⊢
    simp [hnone]

/-- Run lemma: every state of a run keeps the invariant, and a property of the log that one
    expansion keeps holds throughout. -/
theorem Steps.invariant {g : InputGenerator} {S : Selector → Prop}
    (hstart : g.config.startRule ∈ g.grammar.keys) (hsel : ∀ s, S s → SelectsAlternative g s)
    (Q : Finset ℕ → List Expansion → Prop)
    (hQ : ∀ select e path sel seen' trace, S select → ExpandedAt g select e path sel seen' →
      Q e.seen trace → Q seen' (trace ++ [e]))
    (h0 : Q ∅ []) {st : GenState} (h : Steps g S st) :
    RunInvariant g st ∧ Q st.seen st.trace := by
  induction h with
  | initial => exact ⟨initial_runInvariant hstart, h0⟩
  | level _ hs hrun ih =>
    obtain ⟨hinv, hq, -, -⟩ :=
      expandLevel_invariant (hsel _ hs) Q (fun e path sel seen' trace => hQ _ e path sel seen' trace hs)
        ih.1 ih.2 hrun
    exact ⟨hinv, hq⟩

theorem Steps.runInvariant {g : InputGenerator} {S : Selector → Prop}
    (hstart : g.config.startRule ∈ g.grammar.keys) (hsel : ∀ s, S s → SelectsAlternative g s)
    {st : GenState} (h : Steps g S st) : RunInvariant g st :=
  (h.invariant hstart hsel (fun _ _ => True) (fun _ _ _ _ _ _ _ _ _ => trivial) trivial).1

def SelectsAt (select : Selector) (upper : Tree) (last : List Node) : Prop :=
  ∀ i node, last[i]? = some node → node.children = .unexpanded → ∀ tree seen path,
    tree.length = upper.length + 1 → Tree.RootPath tree (upper.length, i) path →
    path.getLast? = some node.symbol → ∃ sel, select tree i node.symbol seen = some sel

theorem expandNodes_returns {g : InputGenerator} {start : Sym} {select : Selector}
    (hsel : SelectsAlternative g select) {upper : Tree} {last rest : List Node}
    {ls : LevelState} (hw : WellFormed g.grammar start (upper ++ [last]))
    (hat : SelectsAt select upper last) (h : LevelInvariant g upper last ls rest) :
    ∃ ls', expandNodes g.tables select upper rest ls = some ls' := by
  induction rest generalizing ls with
  | nil => exact ⟨ls, rfl⟩
  | cons node rest ih =>
    obtain ⟨hlast, path, hpath, hsym⟩ := h.current hw
    have hone : ∃ ls₁, expandNode g.tables select upper rest ls node = some ls₁ := by
      cases hc : node.children with
      | unexpanded =>
        obtain ⟨sel, hs⟩ := hat _ node hlast hc _ ls.seen path (by simp) hpath hsym
        have hout : (node.expand ls.next.length sel).outline = node.outline := rfl
        have hfwd := Tree.extends_of_outline upper (show (ls.visited ++
          node.expand ls.next.length sel :: rest).map Node.outline =
            (ls.visited ++ node :: rest).map Node.outline by simp [hout])
        obtain ⟨seen', hrec, -⟩ := record_spec (t := g.tables) (hpath.extend hfwd) (by simp)
          hsym sel.derivNum ls.seen
        exact Option.isSome_iff_exists.mp (by simp [expandNode, hc, hs, hrec])
      | leaf => exact Option.isSome_iff_exists.mp (by simp [expandNode, hc])
      | range a b => exact Option.isSome_iff_exists.mp (by simp [expandNode, hc])
    obtain ⟨ls₁, h₁⟩ := hone
    obtain ⟨ls', hls'⟩ := ih (expandNode_invariant hsel hw h h₁).1
    exact ⟨ls', by rw [expandNodes, h₁]; exact hls'⟩

theorem expandLevel_returns {g : InputGenerator} {select : Selector}
    (hsel : SelectsAlternative g select) {st : GenState} (h : RunInvariant g st)
    (hat : ∀ upper last, st.tree = upper ++ [last] → SelectsAt select upper last) :
    ∃ st' slot, expandLevel g.tables select st = some (st', slot) := by
  obtain ⟨upper, last, ht, hdrop, hlast⟩ := h.wellFormed.split_last
  have hw := h.wellFormed
  have hseen := h.seenExact
  rw [ht] at hw hseen
  obtain ⟨ls, hls⟩ := expandNodes_returns hsel hw (hat upper last ht) (.initial hseen none st.trace)
  exact ⟨⟨upper ++ [ls.visited, ls.next], ls.seen, ls.trace⟩, ls.slot, by
    simp [expandLevel, hlast, hdrop, hls]⟩

end RSFuzz
