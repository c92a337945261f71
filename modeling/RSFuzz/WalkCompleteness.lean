import RSFuzz.CaptureRecognition

set_option autoImplicit false

/-!
# What the stack walk finds

The walk of `dt_to_sequences` meets every node of a complete tree, so what it
collects is known exactly: the expansions of the nodes above a leaf that is no
separator, where trimming stops.
-/
namespace RSFuzz
open OrderedMap WhileLoop

def Tree.Pushes (G : Grammar) (tree : Tree) (item item' : ℕ × ℕ × List Sym) : Prop :=
  ∃ node items found, tree.node? (item.1, item.2.1) = some node ∧
    extractNode G tree node item.1 item.2.2 = some (items, found) ∧ item' ∈ items

def Tree.Finds (G : Grammar) (tree : Tree) (item : ℕ × ℕ × List Sym) (e : List Entry) : Prop :=
  ∃ node items found, tree.node? (item.1, item.2.1) = some node ∧
    extractNode G tree node item.1 item.2.2 = some (items, found) ∧ e ∈ found

/-- What is collected by now, or still to come, is the same at every pass of the loop. -/
theorem extractStep_collects {G : Grammar} {tree : Tree} {s s' : ExtractState}
    (hstep : extractStep G tree s = some s') (e : List Entry) :
    (e ∈ s'.sequences ∨ Outstanding (tree.Pushes G) (tree.Finds G) s'.queue e) ↔
      (e ∈ s.sequences ∨ Outstanding (tree.Pushes G) (tree.Finds G) s.queue e) := by
  unfold extractStep at hstep
  split at hstep
  · cases hstep
  · rename_i curI curJ curSeq rest hqueue
    simp only [Option.bind_eq_bind, Option.pure_def] at hstep
    obtain ⟨node, hn, hstep⟩ := Option.bind_eq_some_iff.mp hstep
    obtain ⟨⟨items, found⟩, hrun, hstep⟩ := Option.bind_eq_some_iff.mp hstep
    obtain rfl := Option.some.inj hstep
    have hitems : ∀ item, item ∈ items ↔ tree.Pushes G (curI, curJ, curSeq) item := by
      intro item
      refine ⟨fun h => ⟨node, items, found, hn, hrun, h⟩, ?_⟩
      rintro ⟨node', items', found', hn', hrun', h⟩
      obtain rfl := Option.some.inj (hn.symm.trans hn')
      obtain ⟨rfl, -⟩ := Prod.mk.inj (Option.some.inj (hrun.symm.trans hrun'))
      exact h
    have hfound : e ∈ found ↔ tree.Finds G (curI, curJ, curSeq) e := by
      refine ⟨fun h => ⟨node, items, found, hn, hrun, h⟩, ?_⟩
      rintro ⟨node', items', found', hn', hrun', h⟩
      obtain rfl := Option.some.inj (hn.symm.trans hn')
      obtain ⟨-, rfl⟩ := Prod.mk.inj (Option.some.inj (hrun.symm.trans hrun'))
      exact h
    rw [hqueue, outstanding_cons hitems, mem_insertAll, hfound, or_assoc]

theorem mem_rawSequences_iff_finds {G : Grammar} {tree : Tree} {fuel : ℕ}
    {sequences : List (List Entry)} (h : rawSequences G tree fuel = some sequences)
    (e : List Entry) : e ∈ sequences ↔
      ∃ item, Relation.ReflTransGen (tree.Pushes G) (0, 0, []) item ∧ tree.Finds G item e := by
  obtain ⟨s, hrun, rfl⟩ := Option.map_eq_some_iff.mp h
  obtain ⟨hinv, hexit⟩ := run_invariant
    (fun s : ExtractState => (e ∈ s.sequences ∨
      Outstanding (tree.Pushes G) (tree.Finds G) s.queue e) ↔
        ∃ item, Relation.ReflTransGen (tree.Pushes G) (0, 0, []) item ∧ tree.Finds G item e)
    (fun s s' hs _ hstep => (extractStep_collects hstep e).trans hs) fuel
    (by simp [Outstanding]) hrun
  have hqueue : s.queue = [] := by simpa using hexit
  rw [← hinv, hqueue]
  simp [Outstanding]

section Walk

variable {G : Grammar} {start : Sym} {tree : Tree}

theorem reached_of_rootPath (hw : WellFormed G start tree) {pos : ℕ × ℕ} {path : List Sym}
    (h : tree.RootPath pos path) : ∀ seq s, path = seq ++ [s] →
      Relation.ReflTransGen (tree.Pushes G) (0, 0, []) (pos.1, pos.2, seq) := by
  induction h with
  | @root i node hn _ =>
    intro seq s hpath
    obtain ⟨rfl, -⟩ : seq = [] ∧ s = node.symbol := by
      cases seq with
      | nil => exact ⟨rfl, (List.singleton_inj.mp hpath).symm⟩
      | cons A seq => simp at hpath
    obtain ⟨rfl, -⟩ := hw.first_level hn
    exact .refl
  | @child d i c path node above hn hp ih =>
    intro seq s hpath
    obtain ⟨rfl, -⟩ := List.append_inj' hpath rfl
    obtain ⟨up, a, b, hup, hr, hac, hcb⟩ := hw.parent_range hn hp
    obtain ⟨seq, hsplit⟩ : ∃ seq, path = seq ++ [up.symbol] :=
      ⟨_, (List.dropLast_append_getLast? _ (above.getLast? hup)).symm⟩
    refine (ih seq up.symbol hsplit).tail ?_
    obtain ⟨-, alt, -, hdn, -⟩ := hw.spells_alternative hup hr
    have hne : up.dn ≠ -2 ∧ up.dn ≠ -1 := by omega
    refine ⟨up, ((List.range' a (b - a)).map fun c => (d + 1, c, seq ++ [up.symbol])).reverse, [],
      hup, by simp only [extractNode, hne, ↓reduceIte, hr], ?_⟩
    rw [List.mem_reverse, List.mem_map]
    exact ⟨c, List.mem_range'_1.mpr ⟨hac, by omega⟩, by rw [← hsplit]⟩

theorem reached_iff (hw : WellFormed G start tree) (hclosed : tree.Closed) (hstart : start ∈ G.keys)
    (item : ℕ × ℕ × List Sym) :
    Relation.ReflTransGen (tree.Pushes G) (0, 0, []) item ↔ tree.StackItem item := by
  constructor
  · intro h
    induction h with
    | refl =>
      obtain ⟨root, hn, -, hpar⟩ := hw.exists_root
      exact ⟨root, hn, .root hn hpar⟩
    | tail _ hpush ih =>
      obtain ⟨node, items, found, hn, hrun, hmem⟩ := hpush
      obtain ⟨node', items', found', hn', hrun', hitems, -⟩ :=
        extractNode_spec hw hclosed hstart ih
      obtain rfl := Option.some.inj (hn.symm.trans hn')
      obtain ⟨rfl, -⟩ := Prod.mk.inj (Option.some.inj (hrun.symm.trans hrun'))
      exact (hitems _ hmem).2
  · rintro ⟨node, -, hpath⟩
    exact reached_of_rootPath hw hpath _ _ rfl

theorem Tree.EndsBelow.exists_leaf {pos : ℕ × ℕ} {path : List Sym} (h : tree.EndsBelow G pos)
    (hw : WellFormed G start tree) (hpath : tree.RootPath pos path) :
    ∃ c seq leaf, tree.node? c = some leaf ∧ tree.RootPath c (seq ++ [leaf.symbol]) ∧
      leaf.children = .leaf ∧ leaf.dn = -1 ∧ seq.take path.length = path ∧
      trim G tree seq seq.length leaf.parent = trim G tree seq path.length (some pos) := by
  induction h generalizing path with
  | @leaf pos c node hn hp hc hdn =>
    obtain ⟨d, i⟩ := c
    have hcons := hw.parentsConsistent d i node hn
    cases d with
    | zero => cases hp.symm.trans hcons
    | succ d =>
      obtain ⟨i', hpar, -⟩ := hcons
      obtain rfl := Option.some.inj (hp.symm.trans hpar)
      exact ⟨_, path, node, hn, .child hpath hn hp, hc, hdn, List.take_length, by rw [hp]⟩
  | @child pos c node hn hp hone _ ih =>
    obtain ⟨d, i⟩ := c
    have hcons := hw.parentsConsistent d i node hn
    cases d with
    | zero => cases hp.symm.trans hcons
    | succ d =>
      obtain ⟨i', hpar, -⟩ := hcons
      obtain rfl := Option.some.inj (hp.symm.trans hpar)
      obtain ⟨c, seq, leaf, hleaf, hfull, hc, hdn, htake, hrun⟩ := ih (.child hpath hn hp)
      rw [List.length_append, List.length_singleton] at htake hrun
      have hlong : path.length + 1 ≤ seq.length := by
        have := congrArg List.length htake
        rw [List.length_take, List.length_append, List.length_singleton] at this
        omega
      have hget : seq[path.length]? = some node.symbol := by
        rw [← List.getElem?_take_of_lt (Nat.lt_succ_self path.length), htake,
          List.getElem?_concat_length]
      have hpre : seq.take path.length = path := by
        have := congrArg (List.take path.length) htake
        rwa [List.take_take, Nat.min_eq_left (Nat.le_succ _), List.take_left] at this
      have hpos : 0 < path.length := List.length_pos_iff.mpr hpath.ne_nil
      refine ⟨c, seq, leaf, hleaf, hfull, hc, hdn, hpre, hrun.trans ?_⟩
      rw [trim, hget]
      simp only [Option.bind_eq_bind, Option.bind_some, hone, hpos, and_self, ↓reduceIte, hn, hp]

theorem trim_of_stops {seq path : List Sym} {pos : ℕ × ℕ} (hpath : tree.RootPath pos path)
    (htake : seq.take path.length = path) (hstop : tree.StopsTrim G pos) :
    trim G tree seq path.length (some pos) = some (path.length, some pos) := by
  obtain ⟨node, hn⟩ := hpath.exists_node
  have hle : path.length ≤ seq.length := by
    have := congrArg List.length htake
    rw [List.length_take] at this
    omega
  obtain ⟨hlen, hget⟩ := Tree.RootPath.getElem?_take (by rwa [htake]) hle hn
  have hno : ¬ (G.isOneChild node.symbol = true ∧ 0 < pos.1) :=
    fun h => absurd (hstop node hn h.1) (Nat.pos_iff_ne_zero.mp h.2)
  rw [hlen, trim, hget]
  simp only [Option.bind_eq_bind, Option.bind_some, hno, ↓reduceIte, Option.pure_def]

/-- The expansion at a node is collected: a leaf that counts lies below it, and trimming from
    there stops at the node. -/
def Tree.Collects (G : Grammar) (tree : Tree) (path : List Sym) (dn : ℕ) : Prop :=
  ∃ pos node a b, tree.node? pos = some node ∧ node.children = .range a b ∧ node.dn = (dn : ℤ) ∧
    tree.RootPath pos path ∧ tree.EndsBelow G pos ∧ tree.StopsTrim G pos

theorem mem_rawSequences_iff (hw : WellFormed G start tree) (hclosed : tree.Closed)
    (hstart : start ∈ G.keys) {fuel : ℕ} {sequences : List (List Entry)}
    (h : rawSequences G tree fuel = some sequences) (e : List Entry) :
    e ∈ sequences ↔
      ∃ path dn, tree.Collects G path dn ∧ e = path.map Entry.sym ++ [Entry.dn dn] := by
  simp only [mem_rawSequences_iff_finds h, reached_iff hw hclosed hstart]
  constructor
  · rintro ⟨⟨d, i, seq⟩, ⟨node, hn, hpath⟩, node', items, found, hn', hrun, hmem⟩
    obtain rfl := Option.some.inj (hn.symm.trans hn')
    have hdn : node.dn = -1 := by
      rcases extractNode_cases hrun with rfl | ⟨hdn, -⟩
      · cases hmem
      · exact hdn
    have hc : node.children = .leaf := by
      cases hc : node.children with
      | unexpanded => exact absurd hc (hclosed _ _ hn)
      | leaf => rfl
      | range a b =>
        obtain ⟨-, alt, -, hdn', -⟩ := hw.spells_alternative hn hc
        omega
    obtain ⟨m, up, upNode, a, b, dn, -, hrun', hupn, hr, hdn', hup, hbelow, hstop⟩ :=
      extractNode_leaf hw hstart hn hpath hc hdn
    obtain ⟨-, rfl⟩ := Prod.mk.inj (Option.some.inj (hrun.symm.trans hrun'))
    exact ⟨seq.take m, dn, ⟨up, upNode, a, b, hupn, hr, hdn', hup, hbelow, hstop⟩,
      List.mem_singleton.mp hmem⟩
  · rintro ⟨path, dn, ⟨pos, node, a, b, hn, hr, hdn, hpath, hbelow, hstop⟩, rfl⟩
    obtain ⟨c, seq, leaf, hleaf, hfull, hc, hldn, htake, htrim⟩ := hbelow.exists_leaf hw hpath
    obtain ⟨m, up, upNode, _, _, dn', hrun, hfound, hupn, -, hdn', -⟩ :=
      extractNode_leaf hw hstart hleaf hfull hc hldn
    rw [htrim, trim_of_stops hpath htake hstop] at hrun
    obtain ⟨rfl, hup⟩ := Prod.mk.inj (Option.some.inj hrun)
    obtain rfl := Option.some.inj hup
    obtain rfl := Option.some.inj (hn.symm.trans hupn)
    obtain rfl : dn = dn' := Int.ofNat.inj (hdn.symm.trans hdn')
    refine ⟨(c.1, c.2, seq), ⟨leaf, hleaf, hfull⟩, leaf, _, _, hleaf, hfound, ?_⟩
    rw [htake]
    exact List.mem_singleton.mpr rfl

theorem Tree.EndsBelow.exists_collects {pos : ℕ × ℕ} (h : tree.EndsBelow G pos)
    (hw : WellFormed G start tree) : ∃ path dn, tree.Collects G path dn := by
  obtain ⟨c, child, hchild, hpar⟩ := h.exists_child
  obtain ⟨node, _, _, _, hn, -, -⟩ := hw.parent_expanded hchild hpar
  obtain ⟨path, hpath⟩ := hw.parentsConsistent.exists_rootPath pos.1 pos.2 hn
  obtain ⟨m, up, -, hup, hbelow, hstop⟩ := trim_spec path path.length le_rfl
    (by rwa [List.take_length]) h
  obtain ⟨c, child, hchild, hpar⟩ := hbelow.exists_child
  obtain ⟨upNode, a, b, dn, hupn, hr, hdn⟩ := hw.parent_expanded hchild hpar
  exact ⟨_, dn, up, upNode, a, b, hupn, hr, hdn, hup, hbelow, hstop⟩

end Walk

end RSFuzz
