import RSFuzz.CaptureRecognition
import RSFuzz.FoundationSquareFree

set_option autoImplicit false

/-!
# The shape of a captured sequence

What the collapse loop keeps of a root path and its derivation number, and that
what was read off a tree is collapsed already.
-/
namespace RSFuzz
open OrderedMap OptionFold Subsequence BlockCollapse
open scoped List

theorem WellFormed.edge {G : Grammar} {start : Sym} {tree : Tree} (h : WellFormed G start tree)
    {d i c : ℕ} {up node : Node} (hup : tree.node? (d, i) = some up)
    (hn : tree.node? (d + 1, c) = some node) (hp : node.parent = some (d, i)) :
    G.Edge up.symbol node.symbol := by
  obtain ⟨up', a, b, hup', hr, hac, hcb⟩ := h.parent_range hn hp
  obtain rfl := Option.some.inj (hup.symm.trans hup')
  obtain ⟨-, alt, halt, -, -, hspell⟩ := h.spells_alternative hup hr
  obtain ⟨child, hchild, hsym⟩ := hspell (c - a) (by omega)
  have hpos : a + (c - a) = c := by omega
  rw [hpos] at hchild
  obtain rfl := Option.some.inj (hn.symm.trans hchild)
  exact ⟨alt, halt, List.mem_of_getElem? hsym⟩

theorem WellFormed.rootPath_isChain {G : Grammar} {start : Sym} {tree : Tree}
    (h : WellFormed G start tree) {pos : ℕ × ℕ} {path : List Sym} (hp : tree.RootPath pos path) :
    path.IsChain G.Edge := by
  induction hp with
  | root _ _ => exact List.isChain_singleton _
  | @child d i c path node above hn hpar ih =>
    obtain ⟨up, hup⟩ := above.exists_node
    rw [List.isChain_append]
    refine ⟨ih, List.isChain_singleton _, fun A hA B hB => ?_⟩
    obtain rfl : up.symbol = A := Option.some.inj ((above.getLast? hup).symm.trans hA)
    obtain rfl : node.symbol = B := Option.some.inj hB
    exact h.edge hup hn hpar

def SequenceShaped (e : List Entry) : Prop :=
  ∃ (symbols : List Sym) (d : ℕ), e = symbols.map Entry.sym ++ [Entry.dn d]

theorem extractNode_shaped {G : Grammar} {tree : Tree} {node : Node} {curI : ℕ}
    {curSeq : List Sym} {items : List (ℕ × ℕ × List Sym)} {found : List (List Entry)}
    (h : extractNode G tree node curI curSeq = some (items, found)) :
    ∀ e ∈ found, SequenceShaped e := by
  intro e he
  rcases extractNode_cases h with rfl | ⟨-, m, dn, rfl⟩
  · cases he
  · exact ⟨curSeq.take m, dn, List.mem_singleton.mp he⟩

theorem rawSequences_shaped {G : Grammar} {tree : Tree} {fuel : ℕ}
    {sequences : List (List Entry)} (h : rawSequences G tree fuel = some sequences) :
    ∀ e ∈ sequences, SequenceShaped e := by
  obtain ⟨s, hrun, rfl⟩ := Option.map_eq_some_iff.mp h
  refine (WhileLoop.run_invariant (fun s : ExtractState => ∀ e ∈ s.sequences, SequenceShaped e)
    (fun s s' hs _ hstep => ?_) fuel (by simp) hrun).1
  unfold extractStep at hstep
  split at hstep
  · cases hstep
  · simp only [Option.bind_eq_bind, Option.pure_def] at hstep
    obtain ⟨node, -, hstep⟩ := Option.bind_eq_some_iff.mp hstep
    obtain ⟨⟨items, found⟩, hfound, hstep⟩ := Option.bind_eq_some_iff.mp hstep
    obtain rfl := Option.some.inj hstep
    intro e he
    rcases (mem_insertAll _ _).mp he with he | he
    · exact hs e he
    · exact extractNode_shaped hfound e he

theorem exists_raws {G : Grammar} {order : IterationOrder (List Entry)} {tree : Tree} {fuel : ℕ}
    {sequences : List (List Entry)} (h : dtToSequences G order tree fuel = some sequences) :
    ∃ raws, rawSequences G tree fuel = some raws ∧
      ∀ e, e ∈ sequences ↔ ∃ raw ∈ raws, collapse raw = some e := by
  simp only [dtToSequences, Option.bind_eq_bind, Option.pure_def] at h
  obtain ⟨raws, hraws, h⟩ := Option.bind_eq_some_iff.mp h
  obtain ⟨refined, hrefined, h⟩ := Option.bind_eq_some_iff.mp h
  obtain rfl := Option.some.inj h
  refine ⟨raws, hraws, fun e => ?_⟩
  rw [List.mem_insertionSort, order.mem_list, List.mem_dedup, mem_mapM_iff hrefined]

theorem collapsed_isChain {s t : Sequence} (h : collapse t.entries = some s.entries)
    {R : Sym → Sym → Prop} (ht : t.symbols.IsChain R) : s.symbols.IsChain R := by
  have hentries : t.entries.IsChain fun a b => ∀ A B, a = Entry.sym A → b = Entry.sym B → R A B := by
    rw [Sequence.entries, List.isChain_append, List.isChain_map]
    refine ⟨ht.imp fun A B hAB A' B' hA hB => ?_, List.isChain_singleton _, fun a _ b hb A B _ hB => ?_⟩
    · rwa [← Entry.sym.inj hA, ← Entry.sym.inj hB]
    · rw [← Option.some.inj hb] at hB
      cases hB
  have hkept := collapse_isChain_of h hentries
  rw [Sequence.entries, List.isChain_append, List.isChain_map] at hkept
  exact hkept.1.imp fun A B hAB => hAB A B rfl rfl

theorem dtToSequences_squareFree {G : Grammar} {order : IterationOrder (List Entry)} {tree : Tree}
    {fuel : ℕ} {sequences : List (List Entry)} (h : dtToSequences G order tree fuel = some sequences)
    {e : List Entry} (he : e ∈ sequences) : SquareFree e := by
  obtain ⟨raws, hraws, hmem⟩ := exists_raws h
  obtain ⟨raw, hraw, hcollapse⟩ := (hmem e).mp he
  obtain ⟨symbols, d, rfl⟩ := rawSequences_shaped hraws raw hraw
  have hout : Entry.dn d ∉ symbols.map Entry.sym := by simp
  obtain ⟨ys, hrun, hfree⟩ := collapse_squareFree hout
  rwa [Option.some.inj (hcollapse.symm.trans hrun)]

/-- The collapse loop ends in a list without squares, which collapsing leaves as it is; so it
    leaves as they are the sequences read off a tree. -/
theorem collapse_reaches_fixpoint :
    (∀ (xs : List Entry) (z : Entry), z ∉ xs → ∃ ys, collapse (xs ++ [z]) = some ys ∧
      SquareFree ys ∧ collapse ys = some ys) ∧
    ∀ (G : Grammar) (order : IterationOrder (List Entry)) (tree : Tree) (fuel : ℕ)
      (sequences : List (List Entry)), dtToSequences G order tree fuel = some sequences →
      ∀ e ∈ sequences, SquareFree e ∧ collapse e = some e := by
  constructor
  · intro xs z hz
    obtain ⟨ys, hrun, hfree⟩ := collapse_squareFree hz
    exact ⟨ys, hrun, hfree, collapse_of_squareFree hfree⟩
  · intro G order tree fuel sequences h e he
    have hfree := dtToSequences_squareFree h he
    exact ⟨hfree, collapse_of_squareFree hfree⟩

theorem collapse_reaches_fixpoint_sample :
    (∃ ys, collapse [Entry.sym "list", .sym "item", .sym "list", .sym "item", .dn 0] = some ys ∧
      SquareFree ys ∧ collapse ys = some ys) ∧
    ∃ st, sampleTree = some st ∧ SquareFree [Entry.sym "list", .dn 1] ∧
      collapse [Entry.sym "list", .dn 1] = some [Entry.sym "list", .dn 1] := by
  refine ⟨collapse_reaches_fixpoint.1 [.sym "list", .sym "item", .sym "list", .sym "item"] (.dn 0)
    (by decide), ?_⟩
  have hrun : sampleTree.bind (fun st => dtToSequences sampleGrammar IterationOrder.listed st.tree 20) =
      some [[.sym "list", .dn 0], [.sym "list", .dn 1]] := by decide +kernel
  obtain ⟨st, hst, hseq⟩ := Option.bind_eq_some_iff.mp hrun
  exact ⟨st, hst, collapse_reaches_fixpoint.2 _ _ _ _ _ hseq _ (by simp)⟩

/-- The collapse loop keeps a subsequence with the same ends and no new neighbours; so on a root
    path of a tree it keeps edges of the grammar. -/
theorem collapse_keeps_shape :
    (∀ (xs : List Entry) (z : Entry), z ∉ xs → ∃ ys, collapse (xs ++ [z]) = some (ys ++ [z]) ∧
      ys ++ [z] <+ xs ++ [z] ∧ (ys ++ [z]).head? = (xs ++ [z]).head? ∧
      ys.getLast? = xs.getLast? ∧ ∀ a b, [a, b] <:+: ys ++ [z] → [a, b] <:+: xs ++ [z]) ∧
    ∀ (G : Grammar) (start : Sym) (tree : Tree), WellFormed G start tree →
      ∀ x ∈ tree.expanded, ∃ s : Sequence,
        collapse (x.1.map Entry.sym ++ [Entry.dn x.2]) = some s.entries ∧ s.dn = x.2 ∧
        s.symbols.IsChain G.Edge := by
  constructor
  · intro xs z hz
    obtain ⟨ys, hrun, hend⟩ := collapse_concat hz
    exact ⟨ys, hrun, hend.1.append (List.Sublist.refl [z]), collapse_head? hrun, hend.2,
      fun a b => collapse_neighbours hrun⟩
  · intro G start tree hw x hx
    have hpath : ∃ pos, tree.RootPath pos x.1 := by
      obtain ⟨pos, _, _, _, _, _, _, hpath⟩ := hx
      exact ⟨pos, hpath⟩
    obtain ⟨pos, hpath⟩ := hpath
    obtain ⟨s, hrun, hdn, -⟩ := exists_collapsed ⟨x.1, x.2, hpath.ne_nil⟩
    exact ⟨s, hrun, hdn, collapsed_isChain hrun (hw.rootPath_isChain hpath)⟩

theorem collapse_keeps_shape_sample :
    (∃ ys, collapse [Entry.sym "list", .sym "item", .sym "list", .sym "item", .dn 0] =
        some (ys ++ [.dn 0]) ∧ ys.getLast? = some (.sym "item")) ∧
    ∃ st, sampleTree = some st ∧ ∃ s : Sequence,
      collapse [Entry.sym "list", .dn 0] = some s.entries ∧ s.symbols.IsChain sampleGrammar.Edge := by
  constructor
  · obtain ⟨ys, hrun, -, -, hlast, -⟩ := collapse_keeps_shape.1
      [.sym "list", .sym "item", .sym "list", .sym "item"] (.dn 0) (by decide)
    exact ⟨ys, hrun, hlast⟩
  · have hroot : sampleTree.map (fun st => st.tree.node? (0, 0)) =
        some (some ⟨"list", .range 0 3, 0, none⟩) := by decide +kernel
    obtain ⟨st, hst, hn⟩ := Option.map_eq_some_iff.mp hroot
    have hw := ((InputGenerator.Produces.plain hst).closed (by decide)).1.wellFormed
    obtain ⟨s, hrun, -, hchain⟩ := collapse_keeps_shape.2 _ _ _ hw (["list"], 0)
      ⟨(0, 0), _, 0, 3, hn, rfl, rfl, .root hn rfl⟩
    exact ⟨st, hst, s, hrun, hchain⟩

end RSFuzz
