import RSFuzz.GeneratorMatching

set_option autoImplicit false

/-!
# One expansion and one level

What a single node expansion does is said once, by `expandNode_cases`. The
level loop keeps `LevelInvariant`; when the last node is visited the tree is
well formed again, one level deeper.
-/
namespace RSFuzz
open OrderedMap Tiling

abbrev Selector := Tree → ℕ → Sym → Finset ℕ → Option Selection

theorem expandNode_cases {t : Tables} {select : Selector} {upper : Tree} {rest : List Node}
    {ls ls' : LevelState} {node : Node}
    (h : expandNode t select upper rest ls node = some ls') :
    (node.children ≠ .unexpanded ∧
      ls' = { ls with visited := ls.visited ++ [{ node with children := .leaf }] }) ∨
    (node.children = .unexpanded ∧ ∃ sel seen',
      select (upper ++ [ls.visited ++ node :: rest]) ls.visited.length node.symbol ls.seen
        = some sel ∧
      record t (upper ++ [ls.visited ++ node.expand ls.next.length sel :: rest])
        (upper.length, ls.visited.length) node.symbol sel.derivNum ls.seen = some seen' ∧
      ls' = {
        visited := ls.visited ++ [node.expand ls.next.length sel]
        next := ls.next ++ sel.nodes
        seen := seen'
        slot := match sel.slot with
          | some r => some (ls.next.length + r)
          | none => ls.slot
        trace := ls.trace ++ [⟨upper ++ [ls.visited ++ node :: rest],
          (upper.length, ls.visited.length), node.symbol, ls.seen, sel.candidates,
          sel.derivNum⟩] }) := by
  unfold expandNode at h
  cases hc : node.children with
  | unexpanded =>
    simp only [hc, Option.bind_eq_bind, Option.bind_eq_some_iff, Option.pure_def] at h
    obtain ⟨sel, hsel, seen', hrec, he⟩ := h
    exact Or.inr ⟨rfl, sel, seen', hsel, hrec, (Option.some.inj he).symm⟩
  | leaf =>
    simp only [hc] at h
    exact Or.inl ⟨by simp, (Option.some.inj h).symm⟩
  | range a b =>
    simp only [hc] at h
    exact Or.inl ⟨by simp, (Option.some.inj h).symm⟩

namespace InputGenerator

variable (g : InputGenerator) (depth idx : ℕ) (expansion : List Sym)

theorem children_symbols : (g.children depth idx expansion).map Node.symbol = expansion := by
  unfold children
  split_ifs with h
  · rw [List.map_map]
    conv_rhs => rw [← List.map_id expansion]
    apply List.map_congr_left
    intro x _
    simp only [Function.comp_apply, id_eq]
    split_ifs <;> rfl
  · simp [Function.comp_def]

theorem mem_children {n : Node} (hn : n ∈ g.children depth idx expansion) :
    n.symbol ∈ expansion ∧ n.parent = some (depth, idx) ∧
      ((n.symbol ∈ g.grammar.keys ∧ n.children = .unexpanded ∧ n.dn = -1) ∨
        (n.symbol ∉ g.grammar.keys ∧ n.children = .leaf ∧ (n.dn = -1 ∨ n.dn = -2))) := by
  unfold children at hn
  split_ifs at hn with hany
  · obtain ⟨x, hx, rfl⟩ := List.mem_map.mp hn
    by_cases hk : x ∈ g.grammar.keys
    · have hnt : g.isNonterminal x = true := (Grammar.isNonterminal_iff _ _).mpr hk
      simp [hnt, hk, hx]
    · have hnt : ¬ g.isNonterminal x = true := fun h => hk ((Grammar.isNonterminal_iff _ _).mp h)
      by_cases hs : x ∈ separatorTokens <;> simp [hnt, hs, hk, hx]
  · obtain ⟨x, hx, rfl⟩ := List.mem_map.mp hn
    have hk : x ∉ g.grammar.keys := fun hk =>
      hany (List.any_eq_true.mpr ⟨x, hx, (Grammar.isNonterminal_iff _ _).mpr hk⟩)
    simp [hk, hx]

theorem children_ok {n : Node} (hn : n ∈ g.children depth idx expansion) :
    NodeOk g.grammar n ∧ ∀ a b, n.children ≠ .range a b := by
  obtain ⟨-, -, ⟨hk, hc, -⟩ | ⟨hk, hc, hd⟩⟩ := g.mem_children depth idx expansion hn
  · exact ⟨⟨by simp [hc, hk], by simp [hc]⟩, by simp [hc]⟩
  · exact ⟨⟨by simp [hc, hk], fun _ => hd⟩, by simp [hc]⟩

end InputGenerator

def SelectsAlternative (g : InputGenerator) (select : Selector) : Prop :=
  ∀ tree i symbol seen sel, select tree i symbol seen = some sel →
    ∃ alt ∈ g.grammar.alternatives symbol, sel.derivNum = alt.derivNum ∧
      sel.nodes = g.children (tree.length - 1) i alt.expansion

namespace Tree

theorem extends_of_outline (upper : Tree) {level level' : List Node}
    (h : level'.map Node.outline = level.map Node.outline) :
    Extends (upper ++ [level]) (upper ++ [level']) := by
  rintro ⟨d, i⟩ node hn
  rcases Nat.lt_or_ge d upper.length with hd | hd
  · rw [node?_append_left hd] at hn
    exact ⟨node, by rw [node?_append_left hd]; exact hn, rfl, rfl⟩
  · have hlt := node?_lt_length hn
    obtain rfl : d = upper.length := by
      rw [List.length_append, List.length_singleton] at hlt
      omega
    rw [node?_last] at hn
    have hi := congrArg (fun l => l[i]?) h
    simp only [List.getElem?_map, hn, Option.map_some] at hi
    obtain ⟨node', hn', ho⟩ := Option.map_eq_some_iff.mp hi
    exact ⟨node', by rw [node?_last]; exact hn', congrArg Prod.fst ho, congrArg Prod.snd ho⟩

theorem extends_append (tree more : Tree) : Extends tree (tree ++ more) := by
  rintro ⟨d, i⟩ node hn
  exact ⟨node, by rw [node?_append_left (node?_lt_length hn)]; exact hn, rfl, rfl⟩

theorem RootPath.of_append {tree more : Tree} {pos : ℕ × ℕ} {path : List Sym}
    (h : RootPath (tree ++ more) pos path) (hpos : pos.1 < tree.length) :
    RootPath tree pos path := by
  induction h with
  | root h hp => exact .root (by rw [← h, node?_append_left hpos]) hp
  | child above h hp ih =>
    have hlt : _ < tree.length := hpos
    exact .child (ih (by simp only at hpos ⊢; omega)) (by rw [← h, node?_append_left hlt]) hp

theorem expanded_append_fresh (tree : Tree) (next : List Node)
    (h : ∀ n ∈ next, ∀ a b, n.children ≠ .range a b) :
    Tree.expanded (tree ++ [next]) = tree.expanded := by
  ext ⟨path, dn⟩
  constructor
  · rintro ⟨⟨d, i⟩, node, a, b, hn, hr, hd, hp⟩
    rcases Nat.lt_or_ge d tree.length with hlt | hge
    · exact ⟨(d, i), node, a, b, by rw [← hn, node?_append_left hlt], hr, hd, hp.of_append hlt⟩
    · exfalso
      rw [node?_append_right hge] at hn
      obtain ⟨level, hl, hi⟩ := node?_eq_some.mp hn
      obtain rfl := List.mem_singleton.mp (List.mem_of_getElem? hl)
      exact h node (List.mem_of_getElem? hi) a b hr
  · rintro ⟨pos, node, a, b, hn, hr, hd, hp⟩
    have hlt := node?_lt_length hn
    exact ⟨pos, node, a, b, by rw [node?_append_left hlt]; exact hn, hr, hd,
      hp.extend (extends_append tree [next])⟩

theorem node?_update_of_ne (upper : Tree) (visited rest : List Node) (node node' : Node)
    (pos : ℕ × ℕ) (hne : pos ≠ (upper.length, visited.length)) :
    Tree.node? (upper ++ [visited ++ node :: rest]) pos =
      Tree.node? (upper ++ [visited ++ node' :: rest]) pos := by
  obtain ⟨d, i⟩ := pos
  rcases Nat.lt_trichotomy d upper.length with hlt | rfl | hgt
  · rw [node?_append_left hlt, node?_append_left hlt]
  · rw [node?_last, node?_last]
    have hi : i ≠ visited.length := fun hi => hne (by rw [hi])
    rcases Nat.lt_or_ge i visited.length with hi' | hi'
    · rw [List.getElem?_append_left hi', List.getElem?_append_left hi']
    · obtain ⟨j, hj⟩ : ∃ j, i - visited.length = j + 1 := ⟨i - visited.length - 1, by omega⟩
      rw [List.getElem?_append_right hi', List.getElem?_append_right hi', hj,
        List.getElem?_cons_succ, List.getElem?_cons_succ]
  · obtain ⟨j, hj⟩ : ∃ j, d - upper.length = j + 1 := ⟨d - upper.length - 1, by omega⟩
    rw [node?_append_right (by omega), node?_append_right (by omega), hj]
    simp [node?]

/-- Expanding one node of the last level adds exactly its root path and number. -/
theorem expanded_update {upper : Tree} {visited rest : List Node} {node node' : Node}
    {path : List Sym} {dn a b : ℕ} (ho : node'.outline = node.outline)
    (hnode : ∀ a b, node.children ≠ .range a b) (hc : node'.children = .range a b)
    (hd : node'.dn = (dn : ℤ))
    (hp : RootPath (upper ++ [visited ++ node :: rest]) (upper.length, visited.length) path) :
    Tree.expanded (upper ++ [visited ++ node' :: rest]) =
      insert (path, dn) (Tree.expanded (upper ++ [visited ++ node :: rest])) := by
  have hout : (visited ++ node' :: rest).map Node.outline =
      (visited ++ node :: rest).map Node.outline := by simp [ho]
  have hother := fun pos hpos => node?_update_of_ne upper visited rest node' node pos hpos
  have hself : Tree.node? (upper ++ [visited ++ node' :: rest]) (upper.length, visited.length) =
      some node' := by rw [node?_last]; simp
  have hselfOld : Tree.node? (upper ++ [visited ++ node :: rest])
      (upper.length, visited.length) = some node := by rw [node?_last]; simp
  have hfwd := extends_of_outline upper hout
  have hbwd := extends_of_outline upper hout.symm
  ext ⟨q, m⟩
  constructor
  · rintro ⟨pos, n, x, y, hn, hr, hm, hq⟩
    by_cases hpos : pos = (upper.length, visited.length)
    · subst hpos
      obtain rfl := Option.some.inj (hself.symm.trans hn)
      left
      have hqp : q = path := (hq.extend hbwd).unique hp
      have hmd : m = dn := by
        have : (m : ℤ) = dn := hm.symm.trans hd
        exact_mod_cast this
      rw [hqp, hmd]
    · right
      exact ⟨pos, n, x, y, by rw [← hother pos hpos]; exact hn, hr, hm, hq.extend hbwd⟩
  · rintro (he | ⟨pos, n, x, y, hn, hr, hm, hq⟩)
    · obtain ⟨rfl, rfl⟩ := Prod.mk.inj he
      exact ⟨_, node', a, b, hself, hc, hd, hp.extend hfwd⟩
    · have hpos : pos ≠ (upper.length, visited.length) := by
        rintro rfl
        obtain rfl := Option.some.inj (hselfOld.symm.trans hn)
        exact hnode x y hr
      exact ⟨pos, n, x, y, by rw [hother pos hpos]; exact hn, hr, hm, hq.extend hfwd⟩

end Tree
end RSFuzz
