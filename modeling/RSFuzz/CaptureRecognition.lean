import RSFuzz.GeneratorTermination
import RSFuzz.SequenceExtraction

set_option autoImplicit false

/-!
# What is captured is recognised

The sequences read off a tree are realised by it, so the recording step of the
generator, replayed over the tree, sees every one that is registered.
-/
namespace RSFuzz
open OrderedMap OptionFold Subsequence

/-- The recording step at an expanded node, on the levels built by then. Matching reads symbols
    and parents only, so the nodes of the level may keep their later entries. -/
def replayNode (t : Tables) (tree : Tree) (d : ℕ) (seen : Finset ℕ) (item : Node × ℕ) :
    Option (Finset ℕ) :=
  match item.1.children with
  | .range _ _ => do
    let derivNum ← item.1.dn.toNat?
    record t (tree.take (d + 1)) (d, item.2) item.1.symbol derivNum seen
  | _ => some seen

def replayLevel (t : Tables) (tree : Tree) (seen : Finset ℕ) (item : List Node × ℕ) :
    Option (Finset ℕ) :=
  item.1.zipIdx.foldlM (replayNode t tree item.2) seen

def replay (t : Tables) (tree : Tree) : Option (Finset ℕ) :=
  tree.zipIdx.foldlM (replayLevel t tree) ∅

theorem foldlM_adds {α : Type} {f : Finset ℕ → α → Option (Finset ℕ)} {adds : α → ℕ → Prop}
    (xs : List α)
    (h : ∀ x ∈ xs, ∀ seen, ∃ seen', f seen x = some seen' ∧ ∀ k, k ∈ seen' ↔ k ∈ seen ∨ adds x k)
    (seen : Finset ℕ) :
    ∃ seen', xs.foldlM f seen = some seen' ∧
      ∀ k, k ∈ seen' ↔ k ∈ seen ∨ ∃ x ∈ xs, adds x k := by
  induction xs generalizing seen with
  | nil => exact ⟨seen, rfl, by simp⟩
  | cons x xs ih =>
    obtain ⟨seen₁, h₁, hadd₁⟩ := h x (by simp) seen
    obtain ⟨seen₂, h₂, hadd₂⟩ := ih (fun y hy => h y (List.mem_cons_of_mem x hy)) seen₁
    refine ⟨seen₂, by rw [List.foldlM_cons, h₁]; exact h₂, fun k => ?_⟩
    rw [hadd₂, hadd₁, List.exists_mem_cons_iff, or_assoc]

theorem Tree.RootPath.take {tree : Tree} {n : ℕ} {pos : ℕ × ℕ} {path : List Sym}
    (h : tree.RootPath pos path) (hn : pos.1 < n) : Tree.RootPath (tree.take n) pos path := by
  have hsame : ∀ d i, d < n → Tree.node? (tree.take n) (d, i) = tree.node? (d, i) := by
    intro d i hd
    simp [Tree.node?, List.getElem?_take_of_lt hd]
  induction h with
  | root h hp => exact .root (by rw [hsame _ _ hn, h]) hp
  | child _ h hp ih => exact .child (ih (Nat.lt_of_succ_lt hn)) (by rw [hsame _ _ hn, h]) hp

theorem replay_spec (t : Tables) {G : Grammar} {start : Sym} {tree : Tree}
    (hw : WellFormed G start tree) :
    ∃ seen, replay t tree = some seen ∧ SeenExact t tree seen := by
  have hnode : ∀ d level, tree[d]? = some level → ∀ item ∈ level.zipIdx, ∀ seen,
      ∃ seen', replayNode t tree d seen item = some seen' ∧ ∀ k, k ∈ seen' ↔ k ∈ seen ∨
        ∃ path dn a b, item.1.children = .range a b ∧ item.1.dn = ((dn : ℕ) : ℤ) ∧
          tree.RootPath (d, item.2) path ∧ t.RecordedBy (path, dn) k := by
    rintro d level hl ⟨node, i⟩ hitem seen
    have hi := List.mem_zipIdx_iff_getElem?.mp hitem
    have hn := Tree.node?_eq_some.mpr ⟨level, hl, hi⟩
    cases hc : node.children with
    | unexpanded => exact ⟨seen, by simp [replayNode, hc], by simp⟩
    | leaf => exact ⟨seen, by simp [replayNode, hc], by simp⟩
    | range a b =>
      obtain ⟨-, alt, -, hdn, -⟩ := hw.spells_alternative hn hc
      obtain ⟨path, hpath⟩ := hw.parentsConsistent.exists_rootPath d i hn
      have hlen : (tree.take (d + 1)).length = d + 1 := by
        have := Tree.node?_lt_length hn
        rw [List.length_take]
        omega
      obtain ⟨seen', hrec, hseen⟩ := record_spec (t := t) (hpath.take (Nat.lt_succ_self d)) hlen
        (hpath.getLast? hn) alt.derivNum seen
      have hnat : node.dn.toNat? = some alt.derivNum := by rw [hdn]; rfl
      refine ⟨seen', by simpa [replayNode, hc, hnat] using hrec, fun k => ?_⟩
      rw [hseen]
      constructor
      · rintro (hk | hk)
        · exact Or.inl hk
        · exact Or.inr ⟨path, alt.derivNum, a, b, rfl, hdn, hpath, hk⟩
      · rintro (hk | ⟨path', dn, _, _, -, hdn', hpath', hk⟩)
        · exact Or.inl hk
        · obtain rfl := hpath'.unique hpath
          obtain rfl : dn = alt.derivNum := Int.ofNat.inj (hdn'.symm.trans hdn)
          exact Or.inr hk
  obtain ⟨seen, hrun, hseen⟩ := foldlM_adds (f := replayLevel t tree) tree.zipIdx
    (fun item hitem => foldlM_adds item.1.zipIdx
      (hnode item.2 item.1 (List.mem_zipIdx_iff_getElem?.mp hitem))) ∅
  refine ⟨seen, hrun, fun k => ?_⟩
  rw [hseen]
  constructor
  · rintro (hk | ⟨⟨level, d⟩, hl, ⟨node, i⟩, hi, path, dn, a, b, hc, hdn, hpath, hk⟩)
    · simp at hk
    · exact ⟨(path, dn), ⟨(d, i), node, a, b, Tree.node?_eq_some.mpr
        ⟨level, List.mem_zipIdx_iff_getElem?.mp hl, List.mem_zipIdx_iff_getElem?.mp hi⟩,
        hc, hdn, hpath⟩, hk⟩
  · rintro ⟨⟨path, dn⟩, ⟨⟨d, i⟩, node, a, b, hn, hc, hdn, hpath⟩, hk⟩
    obtain ⟨level, hl, hi⟩ := Tree.node?_eq_some.mp hn
    exact Or.inr ⟨(level, d), List.mem_zipIdx_iff_getElem?.mpr hl, (node, i),
      List.mem_zipIdx_iff_getElem?.mpr hi, path, dn, a, b, hc, hdn, hpath, hk⟩

/-- The tuple that belongs to an expansion of the tree. -/
def Tree.Captures (tree : Tree) (e : List Entry) : Prop :=
  ∃ x ∈ tree.expanded, e = x.1.map Entry.sym ++ [Entry.dn x.2]

/-- A stack item leads to a node and lists the symbols above it. -/
def Tree.StackItem (tree : Tree) (item : ℕ × ℕ × List Sym) : Prop :=
  ∃ node, tree.node? (item.1, item.2.1) = some node ∧
    tree.RootPath (item.1, item.2.1) (item.2.2 ++ [node.symbol])

/-- A leaf that is no separator lies below the node, with symbols of one alternative between. -/
inductive Tree.EndsBelow (G : Grammar) (tree : Tree) : ℕ × ℕ → Prop where
  | leaf {pos c : ℕ × ℕ} {node : Node} (hn : tree.node? c = some node)
      (hp : node.parent = some pos) (hc : node.children = .leaf) (hdn : node.dn = -1) :
      EndsBelow G tree pos
  | child {pos c : ℕ × ℕ} {node : Node} (hn : tree.node? c = some node)
      (hp : node.parent = some pos) (hone : G.isOneChild node.symbol = true)
      (h : EndsBelow G tree c) : EndsBelow G tree pos

/-- Trimming goes no further up than here. -/
def Tree.StopsTrim (G : Grammar) (tree : Tree) (pos : ℕ × ℕ) : Prop :=
  ∀ node, tree.node? pos = some node → G.isOneChild node.symbol = true → pos.1 = 0

section Extraction

variable {G : Grammar} {start : Sym} {tree : Tree}

theorem Tree.EndsBelow.exists_child {pos : ℕ × ℕ} (h : tree.EndsBelow G pos) :
    ∃ c node, tree.node? c = some node ∧ node.parent = some pos := by
  cases h with
  | leaf hn hp _ _ => exact ⟨_, _, hn, hp⟩
  | child hn hp _ _ => exact ⟨_, _, hn, hp⟩

theorem Tree.RootPath.getElem?_take {curSeq : List Sym} {n : ℕ} {pos : ℕ × ℕ} {node : Node}
    (h : tree.RootPath pos (curSeq.take n)) (hle : n ≤ curSeq.length)
    (hn : tree.node? pos = some node) : n = pos.1 + 1 ∧ curSeq[pos.1]? = some node.symbol := by
  have hlen := h.length
  rw [List.length_take, Nat.min_eq_left hle] at hlen
  refine ⟨hlen, ?_⟩
  have hlast := h.getLast? hn
  rwa [List.getLast?_take, hlen, if_neg (Nat.succ_ne_zero _), Nat.add_sub_cancel,
    List.getElem?_eq_getElem (by omega), Option.some_or, ← List.getElem?_eq_getElem] at hlast

/-- Trimming follows the parent pointers of the symbols it drops. Induction on the length kept. -/
theorem trim_spec (curSeq : List Sym) (n : ℕ) (hle : n ≤ curSeq.length) {pos : ℕ × ℕ}
    (h : tree.RootPath pos (curSeq.take n)) (hbelow : tree.EndsBelow G pos) :
    ∃ m up, trim G tree curSeq n (some pos) = some (m, some up) ∧
      tree.RootPath up (curSeq.take m) ∧ tree.EndsBelow G up ∧ tree.StopsTrim G up := by
  induction n generalizing pos with
  | zero => exact absurd rfl h.ne_nil
  | succ n ih =>
    obtain ⟨node, hn⟩ := h.exists_node
    obtain ⟨hlen, hget⟩ := h.getElem?_take hle hn
    obtain rfl : n = pos.1 := Nat.succ.inj hlen
    by_cases hone : G.isOneChild node.symbol = true ∧ 0 < pos.1
    · -- a symbol with one alternative is not the root, so its node has a parent
      rw [List.take_add_one, hget, Option.toList_some] at h
      generalize hpath : curSeq.take pos.1 ++ [node.symbol] = path at h
      cases h with
      | root _ _ => exact absurd hone.2 (Nat.lt_irrefl 0)
      | child above hn' hp =>
        obtain rfl := Option.some.inj (hn.symm.trans hn')
        obtain ⟨rfl, -⟩ := List.append_inj' hpath rfl
        obtain ⟨m, up, hrun, hup⟩ := ih (Nat.le_of_succ_le hle) above (.child hn hp hone.1 hbelow)
        refine ⟨m, up, ?_, hup⟩
        rw [trim, hget]
        simpa only [Option.bind_eq_bind, Option.bind_some, if_pos hone, hn, hp] using hrun
    · refine ⟨pos.1 + 1, pos, ?_, h, hbelow, fun node' hn' hone' => ?_⟩
      · simp only [trim, hget, hone, ↓reduceIte, Option.bind_eq_bind, Option.bind_some,
          Option.pure_def]
      · obtain rfl := Option.some.inj (hn.symm.trans hn')
        exact Nat.eq_zero_of_not_pos fun hpos => hone ⟨hone', hpos⟩

theorem extractNode_cases {node : Node} {curI : ℕ} {curSeq : List Sym}
    {items : List (ℕ × ℕ × List Sym)} {found : List (List Entry)}
    (h : extractNode G tree node curI curSeq = some (items, found)) :
    found = [] ∨ node.dn = -1 ∧
      ∃ m dn, found = [(curSeq.take m).map Entry.sym ++ [Entry.dn dn]] := by
  unfold extractNode at h
  split_ifs at h with hsep hleaf
  · exact Or.inl (Prod.mk.inj (Option.some.inj h)).2.symm
  · simp only [Option.bind_eq_bind, Option.pure_def] at h
    obtain ⟨⟨m, _⟩, -, h⟩ := Option.bind_eq_some_iff.mp h
    obtain ⟨_, -, h⟩ := Option.bind_eq_some_iff.mp h
    obtain ⟨_, -, h⟩ := Option.bind_eq_some_iff.mp h
    obtain ⟨dn, -, h⟩ := Option.bind_eq_some_iff.mp h
    exact Or.inr ⟨hleaf, m, dn, (Prod.mk.inj (Option.some.inj h)).2.symm⟩
  · split at h
    · exact Or.inl (Prod.mk.inj (Option.some.inj h)).2.symm
    · exact Or.inl (Prod.mk.inj (Option.some.inj h)).2.symm
    · cases h

/-- What a leaf gives: trimming ends at a node that was expanded. -/
theorem extractNode_leaf (hw : WellFormed G start tree) (hstart : start ∈ G.keys)
    {curI curJ : ℕ} {curSeq : List Sym} {node : Node} (hn : tree.node? (curI, curJ) = some node)
    (hpath : tree.RootPath (curI, curJ) (curSeq ++ [node.symbol])) (hc : node.children = .leaf)
    (hdn : node.dn = -1) :
    ∃ m up upNode a b dn, trim G tree curSeq curSeq.length node.parent = some (m, some up) ∧
      extractNode G tree node curI curSeq =
        some ([], [(curSeq.take m).map Entry.sym ++ [Entry.dn dn]]) ∧
      tree.node? up = some upNode ∧ upNode.children = .range a b ∧ upNode.dn = ((dn : ℕ) : ℤ) ∧
      tree.RootPath up (curSeq.take m) ∧ tree.EndsBelow G up ∧ tree.StopsTrim G up := by
  generalize hfull : curSeq ++ [node.symbol] = full at hpath
  cases hpath with
  | root hroot _ =>
    obtain ⟨-, hsym⟩ := hw.first_level hn
    exact absurd (hsym ▸ hstart) ((hw.nodeOk hn).leaf_iff.mp hc)
  | @child d i _ _ node' above hn' hp =>
    obtain rfl := Option.some.inj (hn.symm.trans hn')
    obtain ⟨rfl, -⟩ := List.append_inj' hfull rfl
    obtain ⟨m, up, hrun, hup, hbelow, hstop⟩ := trim_spec curSeq curSeq.length le_rfl
      (by rwa [List.take_length]) (.leaf hn hp hc hdn)
    obtain ⟨c, child, hchild, hpar⟩ := hbelow.exists_child
    obtain ⟨upNode, a, b, dn, hupn, hr, hdn'⟩ := hw.parent_expanded hchild hpar
    have hnat : upNode.dn.toNat? = some dn := by rw [hdn']; rfl
    refine ⟨m, up, upNode, a, b, dn, by rw [hp, hrun], ?_, hupn, hr, hdn', hup, hbelow, hstop⟩
    simp [extractNode, hdn, hp, hrun, hupn, hnat]

theorem extractNode_spec (hw : WellFormed G start tree) (hclosed : tree.Closed)
    (hstart : start ∈ G.keys) {curI curJ : ℕ} {curSeq : List Sym}
    (h : tree.StackItem (curI, curJ, curSeq)) :
    ∃ node items found, tree.node? (curI, curJ) = some node ∧
      extractNode G tree node curI curSeq = some (items, found) ∧
      (∀ item ∈ items, item.1 = curI + 1 ∧ tree.StackItem item) ∧
      items.length ≤ (tree.map List.length).sum ∧ ∀ e ∈ found, tree.Captures e := by
  obtain ⟨node, hn, hpath⟩ := h
  cases hc : node.children with
  | unexpanded => exact absurd hc (hclosed _ _ hn)
  | leaf =>
    rcases (hw.nodeOk hn).leaf_dn hc with hdn | hdn
    · obtain ⟨m, up, upNode, a, b, dn, -, hrun, hupn, hr, hdn', hup, -, -⟩ :=
        extractNode_leaf hw hstart hn hpath hc hdn
      refine ⟨node, _, _, hn, hrun, by simp, Nat.zero_le _, fun e he => ?_⟩
      rw [List.mem_singleton.mp he]
      exact ⟨(curSeq.take m, dn), ⟨up, upNode, a, b, hupn, hr, hdn', hup⟩, rfl⟩
    · exact ⟨node, [], [], hn, by simp [extractNode, hdn], by simp, Nat.zero_le _, by simp⟩
  | range a b =>
    obtain ⟨-, alt, -, hdn, -⟩ := hw.spells_alternative hn hc
    have hne : node.dn ≠ -2 ∧ node.dn ≠ -1 := by omega
    refine ⟨node, ((List.range' a (b - a)).map fun c => (curI + 1, c, curSeq ++ [node.symbol])).reverse,
      [], hn, by simp only [extractNode, hne, ↓reduceIte, hc], ?_, ?_, by simp⟩
    · intro item hmem
      obtain ⟨c, hcm, rfl⟩ := List.mem_map.mp (List.mem_reverse.mp hmem)
      have hcm := List.mem_range'_1.mp hcm
      obtain ⟨child, hchild, hpar⟩ := hw.exists_child hn hc hcm.1 (by omega)
      exact ⟨rfl, child, hchild, .child hpath hchild hpar⟩
    · rw [List.length_reverse, List.length_map, List.length_range']
      exact hw.range_le_sum hn hc

structure ExtractInvariant (tree : Tree) (s : ExtractState) : Prop where
  queue : ∀ item ∈ s.queue, tree.StackItem item
  sequences : ∀ e ∈ s.sequences, tree.Captures e

theorem ExtractInvariant.step (hw : WellFormed G start tree) (hclosed : tree.Closed)
    (hstart : start ∈ G.keys) {s : ExtractState} (h : ExtractInvariant tree s)
    (hne : s.queue ≠ []) :
    ∃ s', extractStep G tree s = some s' ∧ ExtractInvariant tree s' ∧
      WhileLoop.weight (fun item => tree.length - item.1) (tree.map List.length).sum s'.queue <
        WhileLoop.weight (fun item => tree.length - item.1) (tree.map List.length).sum s.queue := by
  obtain ⟨⟨curI, curJ, curSeq⟩, rest, hs⟩ := List.exists_cons_of_ne_nil hne
  obtain ⟨node, items, found, hn, hrun, hitems, hlen, hfound⟩ :=
    extractNode_spec hw hclosed hstart (h.queue (curI, curJ, curSeq) (by simp [hs]))
  refine ⟨⟨items ++ rest, insertAll s.sequences found⟩,
    by simp only [extractStep, hs, hn, hrun, Option.bind_eq_bind, Option.bind_some,
      Option.pure_def], ⟨?_, ?_⟩, ?_⟩
  · intro item hmem
    rcases List.mem_append.mp hmem with hmem | hmem
    · exact (hitems item hmem).2
    · exact h.queue item (by simp [hs, hmem])
  · intro e he
    rcases (mem_insertAll _ _).mp he with he | he
    · exact h.sequences e he
    · exact hfound e he
  · rw [hs]
    refine WhileLoop.weight_spawn_lt _ _ _ items rest hlen fun item hmem => ?_
    have hlt := Tree.node?_lt_length hn
    have := (hitems item hmem).1
    simp only
    omega

theorem rawSequences_returns (hw : WellFormed G start tree) (hclosed : tree.Closed)
    (hstart : start ∈ G.keys) :
    ∃ fuel₀ sequences, (∀ fuel, fuel₀ ≤ fuel → rawSequences G tree fuel = some sequences) ∧
      ∀ e ∈ sequences, tree.Captures e := by
  obtain ⟨root, hn, -, hpar⟩ := hw.exists_root
  have h0 : ExtractInvariant tree ⟨[(0, 0, [])], []⟩ := by
    refine ⟨fun item hmem => ?_, by simp⟩
    rw [List.mem_singleton.mp hmem]
    exact ⟨root, hn, .root hn hpar⟩
  obtain ⟨s, hrun, hinv, -⟩ := WhileLoop.run_terminates
    (fun s : ExtractState => !s.queue.isEmpty) (extractStep G tree) (ExtractInvariant tree)
    (fun s => WhileLoop.weight (fun item => tree.length - item.1) (tree.map List.length).sum s.queue)
    (fun s hs hc => hs.step hw hclosed hstart (by simpa using hc)) h0 _ le_rfl
  exact ⟨_, s.sequences, fun fuel hf => by rw [rawSequences, WhileLoop.run_mono hf hrun]; rfl,
    hinv.sequences⟩

theorem exists_collapsed (t : Sequence) :
    ∃ s : Sequence, BlockCollapse.collapse t.entries = some s.entries ∧ s.dn = t.dn ∧
      EndsIn s.symbols t.symbols := by
  have hsyms : Entry.dn t.dn ∉ t.symbols.map Entry.sym := by simp
  obtain ⟨ys, hrun, hsub, hlast⟩ := BlockCollapse.collapse_concat hsyms
  obtain ⟨kept, hkept, rfl⟩ := List.sublist_map_iff.mp hsub
  have hend : EndsIn kept t.symbols := by
    refine ⟨hkept, ?_⟩
    rw [List.getLast?_map, List.getLast?_map] at hlast
    exact Option.map_injective (fun _ _ => Entry.sym.inj) hlast
  have hne : kept ≠ [] := by
    rintro rfl
    exact t.nonempty (List.getLast?_eq_none_iff.mp hend.2.symm)
  exact ⟨⟨kept, t.dn, hne⟩, hrun, rfl, hend⟩

theorem collapse_captured {e : List Entry} (h : tree.Captures e) :
    ∃ e', BlockCollapse.collapse e = some e' ∧
      ∃ s : Sequence, s.entries = e' ∧ Realises tree.expanded s := by
  obtain ⟨⟨path, dn⟩, hx, rfl⟩ := h
  have hne : path ≠ [] := by
    obtain ⟨_, _, _, _, _, _, _, hpath⟩ := hx
    exact hpath.ne_nil
  obtain ⟨s, hrun, hdn, hend⟩ := exists_collapsed ⟨path, dn, hne⟩
  exact ⟨s.entries, hrun, s, rfl, (path, dn), hx, hdn.symm, hend⟩

theorem rawSequences_captures (hw : WellFormed G start tree) (hclosed : tree.Closed)
    (hstart : start ∈ G.keys) {fuel : ℕ} {sequences : List (List Entry)}
    (h : rawSequences G tree fuel = some sequences) : ∀ e ∈ sequences, tree.Captures e := by
  obtain ⟨fuel₀, sequences', hrun, hall⟩ := rawSequences_returns hw hclosed hstart
  obtain ⟨s, hs, rfl⟩ := Option.map_eq_some_iff.mp h
  have hmore := hrun (max fuel fuel₀) (le_max_right _ _)
  rw [rawSequences, WhileLoop.run_mono (le_max_left _ _) hs] at hmore
  rw [Option.some.inj hmore]
  exact hall

theorem dtToSequences_returns (order : IterationOrder (List Entry)) (hw : WellFormed G start tree)
    (hclosed : tree.Closed) (hstart : start ∈ G.keys) :
    ∃ fuel₀ sequences, (∀ fuel, fuel₀ ≤ fuel →
        dtToSequences G order tree fuel = some sequences) ∧
      ∀ e ∈ sequences, ∃ s : Sequence, s.entries = e ∧ Realises tree.expanded s := by
  obtain ⟨fuel₀, sequences, hrun, hcap⟩ := rawSequences_returns hw hclosed hstart
  obtain ⟨refined, hrefined, -, hall⟩ := exists_mapM sequences fun e he => collapse_captured (hcap e he)
  refine ⟨fuel₀, _, fun fuel hf => by
    simp only [dtToSequences, hrun fuel hf, hrefined, Option.bind_eq_bind, Option.bind_some,
      Option.pure_def]; rfl, fun e he => ?_⟩
  rw [List.mem_insertionSort, order.mem_list, List.mem_dedup] at he
  exact hall e he

end Extraction

inductive InputGenerator.Produces (g : InputGenerator) : GenState → Prop where
  | plain {rnd : Choices} {fuel : ℕ} {st : GenState} (h : g.generateTree rnd fuel = some st) :
      Produces g st
  | tribble {prefixDict : Map Sym (List (List Sym))} {kValue : ℕ} {rnd : Choices}
      {target : List Sym} {fuel : ℕ} {st : GenState}
      (h : (TribbleGenerator.mk g prefixDict kValue).generateTree rnd target fuel = some st) :
      Produces g st

theorem InputGenerator.Produces.reachable {g : InputGenerator} {st : GenState}
    (h : g.Produces st) : g.Reachable st ∧ anyPossibleExpansions (lastLevel st) = false := by
  cases h with
  | plain h => exact (generateTree_steps h).2
  | tribble h => exact TribbleGenerator.generateTree_reachable h

theorem InputGenerator.Produces.closed {g : InputGenerator} {st : GenState} (h : g.Produces st)
    (hkeys : g.config.startRule ∈ g.grammar.keys) : RunInvariant g st ∧ st.tree.Closed := by
  obtain ⟨hr, hexit⟩ := h.reachable
  have hinv := hr.steps.runInvariant hkeys fun _ hs => hs.selectsAlternative
  exact ⟨hinv, hinv.wellFormed.closed hexit⟩

/-- Every sequence read off a finished tree is seen when the recording step is replayed over
    that tree, under whatever number the tables have for it. -/
theorem captured_recognised (g : InputGenerator)
    (hstart : g.grammar.keys.head? = some g.config.startRule) (st : GenState)
    (hst : g.Produces st) (order : IterationOrder (List Entry)) :
    ∃ fuel₀ sequences, (∀ fuel, fuel₀ ≤ fuel →
        dtToSequences g.grammar order st.tree fuel = some sequences) ∧
      ∀ e ∈ sequences, ∃ s : Sequence, s.entries = e ∧
        ∀ (t : Tables) (k : ℕ), t.idOf? s.lastSymbol s.dn s.symbols = some k →
          ∃ seen, replay t st.tree = some seen ∧ k ∈ seen := by
  have hkeys : g.config.startRule ∈ g.grammar.keys := List.mem_of_mem_head? hstart
  obtain ⟨hinv, hclosed⟩ := hst.closed hkeys
  obtain ⟨fuel₀, sequences, hrun, hall⟩ :=
    dtToSequences_returns order hinv.wellFormed hclosed hkeys
  refine ⟨fuel₀, sequences, hrun, fun e he => ?_⟩
  obtain ⟨s, hs, x, hx, hd, hend⟩ := hall e he
  refine ⟨s, hs, fun t k hk => ?_⟩
  obtain ⟨seen, hreplay, hexact⟩ := replay_spec t hinv.wellFormed
  refine ⟨seen, hreplay, (hexact k).mpr ⟨x, hx, s.lastSymbol, s.symbols, ?_, ?_, Or.inr hend⟩⟩
  · rw [← hend.2, s.getLast?_symbols]
  · rwa [hd]

theorem captured_recognised_sample :
    sampleTree.bind (fun st => dtToSequences sampleGrammar IterationOrder.listed st.tree 20) =
      some [[.sym "list", .dn 0], [.sym "list", .dn 1]] ∧
    ∃ st, sampleTree = some st ∧ ∃ fuel₀ sequences, (∀ fuel, fuel₀ ≤ fuel →
        dtToSequences sampleGrammar IterationOrder.listed st.tree fuel = some sequences) ∧
      ∀ e ∈ sequences, ∃ s : Sequence, s.entries = e ∧
        ∀ (t : Tables) (k : ℕ), t.idOf? s.lastSymbol s.dn s.symbols = some k →
          ∃ seen, replay t st.tree = some seen ∧ k ∈ seen := by
  refine ⟨by decide +kernel, ?_⟩
  have hsome : sampleTree.isSome = true := by decide +kernel
  obtain ⟨st, hst⟩ := Option.isSome_iff_exists.mp hsome
  exact ⟨st, hst, captured_recognised sampleGenerator rfl st (.plain hst) .listed⟩

end RSFuzz
