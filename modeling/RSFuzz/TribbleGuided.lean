import RSFuzz.GeneratorTermination

set_option autoImplicit false

/-!
# The guided expansion of one tree

While a slot is selected, the root path of its node is the part of the target
path read so far. Once the target is spelled the slot is dropped and the rest
of the tree is closed as in the minimum-cost phase.
-/
namespace RSFuzz
open OrderedMap Tiling

/-- The slot found is a child of node `i` of the current level with the next symbol. -/
def SlotFound (upper : Tree) (i : ℕ) (next : Sym) (ls : LevelState) : Prop :=
  ∃ s n, ls.slot = some s ∧ ls.next[s]? = some n ∧ n.symbol = next ∧
    n.parent = some (upper.length, i)

def SlotPending (upper : Tree) (i : ℕ) (next : Sym) (rest : List Node) (ls : LevelState) : Prop :=
  (i < ls.visited.length ∧ SlotFound upper i next ls) ∨
    (ls.visited.length ≤ i ∧ ∃ node, rest[i - ls.visited.length]? = some node ∧
      node.children = .unexpanded)

theorem getElem?_cons_sub {α : Type} (x : α) (xs : List α) {i n : ℕ} (h : n < i) :
    (x :: xs)[i - n]? = xs[i - (n + 1)]? := by
  have hi : i - n = i - (n + 1) + 1 := by omega
  rw [hi, List.getElem?_cons_succ]

theorem expandNode_slot {g : InputGenerator} {rnd : Choices} {next : Sym} {i : ℕ} {upper : Tree}
    {rest : List Node} {ls ls' : LevelState} {node : Node}
    (h : SlotPending upper i next (node :: rest) ls)
    (hrun : expandNode g.tables (g.selectGuided rnd (some next) (some i)) upper rest ls node =
      some ls') : SlotPending upper i next rest ls' := by
  rcases expandNode_cases hrun with ⟨hc, rfl⟩ | ⟨hc, sel, seen', hs, -, rfl⟩
  · rcases h with ⟨hlt, hfound⟩ | ⟨hle, n, hn, hu⟩
    · left
      exact ⟨by simp only [List.length_append, List.length_singleton]; omega, hfound⟩
    · right
      rcases Nat.lt_or_eq_of_le hle with hlt | rfl
      · rw [getElem?_cons_sub _ _ hlt] at hn
        exact ⟨by simp only [List.length_append, List.length_singleton]; omega, n,
          by simpa using hn, hu⟩
      · rw [Nat.sub_self, List.getElem?_cons_zero] at hn
        obtain rfl := Option.some.inj hn
        exact absurd hu hc
  · by_cases hi : ls.visited.length = i
    · left
      subst hi
      obtain ⟨alt, r, next', hfrom, hnext, -, hslot, hsym⟩ :=
        InputGenerator.selectGuided_spec_slot rfl hs
      obtain rfl := Option.some.inj hnext
      obtain ⟨n, hn, hns⟩ := Option.map_eq_some_iff.mp hsym
      refine ⟨by simp, ls.next.length + r, n, by simp [hslot], ?_, hns, ?_⟩
      · rw [List.getElem?_append_right (by omega), Nat.add_sub_cancel_left, hn]
      · have hmem := List.mem_of_getElem? hn
        rw [hfrom.nodes] at hmem
        simpa using (g.mem_children _ _ _ hmem).2.1
    · obtain ⟨-, -, hslot, -⟩ := InputGenerator.selectGuided_spec_other
        (by simpa using hi) hs
      rcases h with ⟨hlt, s, n, hsl, hn, hsym, hpar⟩ | ⟨hle, n, hn, hu⟩
      · left
        refine ⟨by simp only [List.length_append, List.length_singleton]; omega, s, n,
          by simp [hslot, hsl], ?_, hsym, hpar⟩
        exact List.getElem?_append_left (List.getElem?_eq_some_iff.mp hn).1 ▸ hn
      · right
        have hlt : ls.visited.length < i := by omega
        rw [getElem?_cons_sub _ _ hlt] at hn
        exact ⟨by simp only [List.length_append, List.length_singleton]; omega, n,
          by simpa using hn, hu⟩

theorem expandNodes_slot {g : InputGenerator} {rnd : Choices} {next : Sym} {i : ℕ} {upper : Tree}
    {rest : List Node} {ls ls' : LevelState} (h : SlotPending upper i next rest ls)
    (hrun : expandNodes g.tables (g.selectGuided rnd (some next) (some i)) upper rest ls =
      some ls') : SlotFound upper i next ls' := by
  induction rest generalizing ls with
  | nil =>
    obtain rfl := Option.some.inj hrun
    rcases h with ⟨-, hfound⟩ | ⟨-, n, hn, -⟩
    · exact hfound
    · simp at hn
  | cons node rest ih =>
    obtain ⟨ls₁, h₁, h₂⟩ := Option.bind_eq_some_iff.mp hrun
    exact ih (expandNode_slot h h₁) h₂

theorem expandLevel_slot {g : InputGenerator} {rnd : Choices} {next : Sym} {i : ℕ}
    {st st' : GenState} {slot : Option ℕ} {node : Node} (hinv : RunInvariant g st)
    (hn : (InputGenerator.lastLevel st)[i]? = some node) (hu : node.children = .unexpanded)
    (hrun : expandLevel g.tables (g.selectGuided rnd (some next) (some i)) st = some (st', slot)) :
    ∃ s n, slot = some s ∧ st'.tree.node? (st.tree.length, s) = some n ∧ n.symbol = next ∧
      n.parent = some (st.tree.length - 1, i) := by
  obtain ⟨upper, last, ht, hdrop, hlast⟩ := hinv.wellFormed.split_last
  simp only [expandLevel, hlast, hdrop, Option.bind_eq_bind, Option.bind_some,
    Option.bind_eq_some_iff, Option.pure_def, Option.some.injEq, Prod.mk.injEq] at hrun
  obtain ⟨ls, hls, rfl, rfl⟩ := hrun
  have hlen : st.tree.length = upper.length + 1 := by simp [ht]
  have hn : last[i]? = some node := by simpa [InputGenerator.lastLevel, hlast] using hn
  have hpending : SlotPending upper i next last ⟨[], [], st.seen, none, st.trace⟩ :=
    Or.inr ⟨Nat.zero_le i, node, hn, hu⟩
  obtain ⟨s, n, hs, hns, hsym, hpar⟩ := expandNodes_slot hpending hls
  refine ⟨s, n, hs, ?_, hsym, by simpa [hlen] using hpar⟩
  rw [Tree.node?_append_right (by omega), hlen, Nat.add_sub_cancel_left]
  simpa [Tree.node?] using hns

theorem expandLevel_slot_none {g : InputGenerator} {rnd : Choices} {nextSymbol : Option Sym}
    {st st' : GenState} {slot : Option ℕ}
    (hrun : expandLevel g.tables (g.selectGuided rnd nextSymbol none) st = some (st', slot)) :
    slot = none := by
  have key : ∀ (upper : Tree) (rest : List Node) (ls ls' : LevelState), ls.slot = none →
      expandNodes g.tables (g.selectGuided rnd nextSymbol none) upper rest ls = some ls' →
      ls'.slot = none := by
    intro upper rest
    induction rest with
    | nil =>
      intro ls ls' h hrun
      rwa [← Option.some.inj hrun]
    | cons node rest ih =>
      intro ls ls' h hrun
      obtain ⟨ls₁, h₁, h₂⟩ := Option.bind_eq_some_iff.mp hrun
      refine ih ls₁ ls' ?_ h₂
      rcases expandNode_cases h₁ with ⟨-, rfl⟩ | ⟨-, sel, seen', hs, -, rfl⟩
      · exact h
      · obtain ⟨-, -, hslot, -⟩ := InputGenerator.selectGuided_spec_other (by simp) hs
        simp [hslot, h]
  simp only [expandLevel, Option.bind_eq_bind, Option.bind_eq_some_iff, Option.pure_def,
    Option.some.injEq, Prod.mk.injEq] at hrun
  obtain ⟨last, -, ls, hls, -, rfl⟩ := hrun
  exact key _ _ _ _ rfl hls

namespace TribbleGenerator

/-- A chain of grammar edges from the start rule, at least two symbols long. -/
structure TargetPath (g : TribbleGenerator) (target : List Sym) : Prop where
  head : target.head? = some g.config.startRule
  chain : target.IsChain g.grammar.Edge
  two_le : 2 ≤ target.length

theorem TargetPath.edge {g : TribbleGenerator} {target : List Sym} (h : g.TargetPath target)
    {d : ℕ} {A B : Sym} (hA : target[d]? = some A) (hB : target[d + 1]? = some B) :
    g.grammar.Edge A B := by
  obtain ⟨hd, rfl⟩ := List.getElem?_eq_some_iff.mp hB
  obtain ⟨_, rfl⟩ := List.getElem?_eq_some_iff.mp hA
  exact List.isChain_iff_getElem.mp h.chain d hd

/-- The part of the target spelled so far, or the whole of it. -/
structure GuidedInvariant (g : TribbleGenerator) (target : List Sym) (s : GuidedState) : Prop where
  run : RunInvariant g.toInputGenerator s.st
  depth : s.st.tree.length = s.curDepth + 1
  selected : ∀ i, s.selectedSlot = some i → s.curDepth + 1 < target.length ∧
    s.st.tree.RootPath (s.curDepth, i) (target.take (s.curDepth + 1))
  spelled : s.selectedSlot = none → target.length ≤ s.curDepth + 1 ∧
    ∃ pos, s.st.tree.RootPath pos target

variable {g : TribbleGenerator} {target : List Sym}

theorem GuidedInvariant.initial (ht : g.TargetPath target)
    (hkeys : g.config.startRule ∈ g.grammar.keys) :
    g.GuidedInvariant target ⟨g.initial, 0, some 0⟩ where
  run := initial_runInvariant hkeys
  depth := rfl
  selected := by
    intro i hi
    obtain rfl := Option.some.inj hi
    refine ⟨ht.two_le, ?_⟩
    have htake : target.take 1 = [g.config.startRule] := by
      obtain ⟨rest, rfl⟩ := List.head?_eq_some_iff.mp ht.head
      rfl
    rw [htake]
    exact @Tree.RootPath.root g.initial.tree 0 _ rfl rfl
  spelled := by simp

theorem GuidedInvariant.selected_node (ht : g.TargetPath target) {s : GuidedState}
    (h : g.GuidedInvariant target s) {i : ℕ} (hi : s.selectedSlot = some i) :
    ∃ node A B, (InputGenerator.lastLevel s.st)[i]? = some node ∧ node.children = .unexpanded ∧
      node.symbol = A ∧ target[s.curDepth]? = some A ∧ target[s.curDepth + 1]? = some B ∧
      g.grammar.Edge A B := by
  obtain ⟨hlt, hpath⟩ := h.selected i hi
  obtain ⟨upper, last, htree, -, hlast⟩ := h.run.wellFormed.split_last
  obtain ⟨node, hn⟩ := hpath.exists_node
  have hup : upper.length = s.curDepth := by
    have := h.depth
    rw [htree, List.length_append, List.length_singleton] at this
    omega
  have hni : last[i]? = some node := by
    rw [htree, ← hup, Tree.node?_last] at hn
    exact hn
  have hA : target[s.curDepth]? = some node.symbol := by
    have := hpath.getLast? hn
    rw [List.getLast?_take] at this
    simpa [show s.curDepth < target.length by omega] using this
  have hedge := ht.edge hA (List.getElem?_eq_getElem hlt)
  have hmem := List.mem_of_getElem? hni
  have hu : node.children = .unexpanded := by
    cases hc : node.children with
    | unexpanded => rfl
    | leaf =>
      have := h.run.wellFormed.nodes last (by simp [htree]) node hmem
      exact absurd hedge.left_mem_keys (this.leaf_iff.mp hc)
    | range a b => exact absurd hc (h.run.wellFormed.last last hlast node hmem a b)
  exact ⟨node, _, _, by simpa [InputGenerator.lastLevel, hlast] using hni, hu, rfl, hA,
    List.getElem?_eq_getElem hlt, hedge⟩

theorem GuidedInvariant.step (ht : g.TargetPath target) {rnd : Choices} {s s' : GuidedState}
    (h : g.GuidedInvariant target s) (hstep : g.guidedStep rnd target s = some s') :
    g.GuidedInvariant target s' := by
  obtain ⟨nextSymbol, slot', hnext, hrun, hdepth, hslot⟩ := guidedStep_level hstep
  have hsel : SelectsAlternative g.toInputGenerator
      (g.selectGuided rnd nextSymbol s.selectedSlot) :=
    InputGenerator.AnySelector.selectsAlternative (.guided rnd nextSymbol s.selectedSlot)
  obtain ⟨hinv, -, hlen, hext⟩ := expandLevel_invariant hsel (fun _ _ => True)
    (fun _ _ _ _ _ _ _ => trivial) h.run trivial hrun
  have hlen' : s'.st.tree.length = s'.curDepth + 1 := by
    rw [hlen, h.depth, hdepth]
  cases hi : s.selectedSlot with
  | none =>
    -- the target is spelled already, and later levels keep its nodes
    obtain ⟨hge, pos, hpos⟩ := h.spelled hi
    rw [hi] at hrun
    have hnone : s'.selectedSlot = none := by
      rw [hslot, expandLevel_slot_none hrun]
      split_ifs <;> rfl
    exact ⟨hinv, hlen', by simp [hnone], fun _ => ⟨by omega, pos, hpos.extend hext⟩⟩
  | some i =>
    obtain ⟨hlt, hpath⟩ := h.selected i hi
    obtain ⟨node, A, B, hn, hu, -, -, hB, -⟩ := h.selected_node ht hi
    obtain ⟨next, hget, rfl⟩ := hnext i hi
    obtain rfl : next = B := Option.some.inj (hget.symm.trans hB)
    rw [hi] at hrun
    obtain ⟨c, child, rfl, hc, hsym, hpar⟩ := expandLevel_slot h.run hn hu hrun
    rw [h.depth] at hc hpar
    have hlonger : s'.st.tree.RootPath (s.curDepth + 1, c) (target.take (s.curDepth + 1 + 1)) := by
      have hget : target[s.curDepth + 1] = child.symbol := by
        rw [hsym]
        exact (List.getElem?_eq_some_iff.mp hB).2
      rw [List.take_succ_eq_append_getElem hlt, hget]
      exact .child (hpath.extend hext) hc hpar
    by_cases hend : s.curDepth + 1 = target.length - 1
    · have hnone : s'.selectedSlot = none := by rw [hslot, if_pos hend]
      rw [List.take_of_length_le (by omega)] at hlonger
      exact ⟨hinv, hlen', by simp [hnone], fun _ => ⟨by omega, _, hlonger⟩⟩
    · have hsome : s'.selectedSlot = some c := by rw [hslot, if_neg hend]
      refine ⟨hinv, hlen', ?_, by simp [hsome]⟩
      intro j hj
      obtain rfl := Option.some.inj (hsome.symm.trans hj)
      rw [hdepth]
      exact ⟨by omega, hlonger⟩

theorem GuidedInvariant.returns (ht : g.TargetPath target) (halt : g.grammar.HasAlternatives)
    (rnd : Choices) {s : GuidedState} (h : g.GuidedInvariant target s) :
    ∃ s', g.guidedStep rnd target s = some s' := by
  obtain ⟨nextSymbol, hnext, hslot⟩ : ∃ nextSymbol, nextSymbolOf target s = some nextSymbol ∧
      ∀ i, s.selectedSlot = some i → ∃ node B, nextSymbol = some B ∧
        (InputGenerator.lastLevel s.st)[i]? = some node ∧ g.grammar.Edge node.symbol B := by
    cases hi : s.selectedSlot with
    | none => exact ⟨none, by simp [nextSymbolOf, hi], by simp⟩
    | some i =>
      obtain ⟨node, A, B, hn, -, rfl, -, hB, hedge⟩ := h.selected_node ht hi
      refine ⟨some B, by simp [nextSymbolOf, hi, hB], ?_⟩
      intro j hj
      obtain rfl := Option.some.inj hj
      exact ⟨node, B, rfl, hn, hedge⟩
  have hsel : SelectsAlternative g.toInputGenerator
      (g.selectGuided rnd nextSymbol s.selectedSlot) :=
    InputGenerator.AnySelector.selectsAlternative (.guided rnd nextSymbol s.selectedSlot)
  obtain ⟨st', slot', hrun⟩ := expandLevel_returns hsel h.run (by
    intro upper last htree i node hn hu tree seen path hlen hp _
    have hlast : InputGenerator.lastLevel s.st = last := by
      simp [InputGenerator.lastLevel, htree]
    have hk := h.run.mem_keys (hlast ▸ List.mem_of_getElem? hn) hu
    by_cases hi : some i = s.selectedSlot
    · obtain ⟨node', B, rfl, hn', hedge⟩ := hslot i hi.symm
      rw [hlast] at hn'
      obtain rfl := Option.some.inj (hn.symm.trans hn')
      rw [← hi]
      exact InputGenerator.selectGuided_returns_slot hedge
    · have hne : tree ≠ [] := by
        rintro rfl
        simp at hlen
      exact InputGenerator.selectGuided_returns_other hi hne (by rwa [hlen]) hk (halt _ hk))
  refine Option.isSome_iff_exists.mp ?_
  simp only [guidedStep, hnext, InputGenerator.expandMinimumNodeGuided, hrun, Option.bind_eq_bind,
    Option.bind_some, Option.pure_def, Option.isSome_some]

/-- Past the target and the depth limit every level gets cheapest alternatives. -/
structure GuidedBound (g : TribbleGenerator) (target : List Sym) (D : ℕ) (s : GuidedState) :
    Prop where
  inv : g.GuidedInvariant target s
  bound : s.st.tree.length ≤ D ∨
    Closable g.toInputGenerator (D + 1 + g.grammar.maxMinHeight) s.st

theorem GuidedBound.length_le {D : ℕ} {s : GuidedState} (h : g.GuidedBound target D s) :
    s.st.tree.length ≤ D + 1 + g.grammar.maxMinHeight := by
  rcases h.bound with hle | hc
  · omega
  · exact hc.length_le

theorem GuidedBound.step (ht : g.TargetPath target) (hprod : g.grammar.Productive)
    (hd : DepthTable.ExactTable g.grammar g.depthsDict) {rnd : Choices} {D : ℕ}
    (hD : target.length ≤ D ∧ g.config.maxDepths ≤ D) {s s' : GuidedState}
    (h : g.GuidedBound target D s)
    (hcond : InputGenerator.anyPossibleExpansions (InputGenerator.lastLevel s.st) = true)
    (hstep : g.guidedStep rnd target s = some s') :
    g.GuidedBound target D s' ∧ s'.st.tree.length = s.st.tree.length + 1 := by
  have hinv := h.inv.step ht hstep
  obtain ⟨nextSymbol, slot', -, hrun, hdepth, -⟩ := guidedStep_level hstep
  have hlen : s'.st.tree.length = s.st.tree.length + 1 := by
    rw [hinv.depth, h.inv.depth, hdepth]
  refine ⟨⟨hinv, ?_⟩, hlen⟩
  by_cases hlow : s.st.tree.length ≤ D
  · right
    exact hinv.run.closable (by omega)
  · have hc : Closable g.toInputGenerator (D + 1 + g.grammar.maxMinHeight) s.st := by
      rcases h.bound with hle | hc
      · exact absurd hle hlow
      · exact hc
    have hnone : s.selectedSlot = none := by
      cases hi : s.selectedSlot with
      | none => rfl
      | some i =>
        have := (h.inv.selected i hi).1
        have := h.inv.depth
        omega
    rw [hnone] at hrun
    right
    refine (hc.step hprod hd (InputGenerator.AnySelector.selectsAlternative
      (.guided rnd nextSymbol none)) ?_ hcond hrun).1
    intro tree i symbol seen sel hl hs
    obtain ⟨alt, hfrom, -, hcheap⟩ := InputGenerator.selectGuided_spec_other (by simp) hs
    exact ⟨alt, hfrom, hcheap (by omega)⟩

theorem generateTree_returns (ht : g.TargetPath target) (hprod : g.grammar.Productive)
    (hkeys : g.config.startRule ∈ g.grammar.keys)
    (hd : DepthTable.ExactTable g.grammar g.depthsDict) (rnd : Choices) {D : ℕ}
    (hD : target.length ≤ D ∧ g.config.maxDepths ≤ D) (fuel : ℕ)
    (hfuel : D + 1 + g.grammar.maxMinHeight ≤ fuel) :
    ∃ st, g.generateTree rnd target fuel = some st ∧ RunInvariant g.toInputGenerator st ∧
      InputGenerator.anyPossibleExpansions (InputGenerator.lastLevel st) = false ∧
      ∃ pos, st.tree.RootPath pos target := by
  obtain ⟨s, hrun, hbound, hexit⟩ := WhileLoop.run_terminates
    (fun s : GuidedState =>
      InputGenerator.anyPossibleExpansions (InputGenerator.lastLevel s.st))
    (g.guidedStep rnd target) (g.GuidedBound target D)
    (fun s => D + 1 + g.grammar.maxMinHeight - s.st.tree.length)
    (by
      intro s hs hc
      obtain ⟨s', hstep⟩ := hs.inv.returns ht hprod.hasAlternatives rnd
      obtain ⟨hs', hlen⟩ := hs.step ht hprod hd hD hc hstep
      have := hs'.length_le
      exact ⟨s', hstep, hs', by omega⟩)
    (s := ⟨g.initial, 0, some 0⟩)
    ⟨.initial ht hkeys, Or.inl (by simp [InputGenerator.initial]; have := ht.two_le; omega)⟩
    fuel (by omega)
  refine ⟨s.st, by rw [generateTree, hrun]; rfl, hbound.inv.run, hexit, ?_⟩
  cases hi : s.selectedSlot with
  | none => exact (hbound.inv.spelled hi).2
  | some i =>
    obtain ⟨node, _, _, hn, hu, -⟩ := hbound.inv.selected_node ht hi
    rw [InputGenerator.anyPossibleExpansions, List.any_eq_false] at hexit
    exact absurd (by simpa using hu) (hexit node (List.mem_of_getElem? hn))

end TribbleGenerator
end RSFuzz
