import Mathlib.Order.Bounds.Basic
import Mathlib.Order.Lattice.Nat
import RSFuzz.DerivationTree

set_option autoImplicit false

/-!
# Depths of nonterminals

The depth of a nonterminal is the least solution of
`depth(N) = 1 + min cost(N, alt)`, where an alternative that mentions `N`
itself costs 999 and any other one the largest depth of its nonterminals.
Below 999 this is the least height of a derivation tree.
-/
namespace RSFuzz
namespace Grammar

variable (G : Grammar)

/-- `depth(N) ≤ n`, by recursion on the bound. -/
def DepthLe : ℕ → Sym → Prop
  | 0, _ => False
  | n + 1, N => ∃ alt ∈ G.alternatives N,
      if N ∈ alt.expansion then 999 ≤ n else ∀ B ∈ alt.expansion, B ∈ G.keys → DepthLe n B

def CostLe (N : Sym) (expansion : List Sym) (n : ℕ) : Prop :=
  if N ∈ expansion then 999 ≤ n else ∀ B ∈ expansion, B ∈ G.keys → G.DepthLe n B

variable {G}

theorem depthLe_succ {n : ℕ} {N : Sym} :
    G.DepthLe (n + 1) N ↔ ∃ alt ∈ G.alternatives N, G.CostLe N alt.expansion n := Iff.rfl

theorem DepthLe.mono {n m : ℕ} {N : Sym} (h : G.DepthLe n N) (hle : n ≤ m) : G.DepthLe m N := by
  induction n generalizing m N with
  | zero => exact absurd h id
  | succ n ih =>
    obtain ⟨m, rfl⟩ : ∃ k, m = k + 1 := ⟨m - 1, by omega⟩
    obtain ⟨alt, ha, hc⟩ := h
    refine ⟨alt, ha, ?_⟩
    split_ifs at hc ⊢ with hself
    · omega
    · exact fun B hB hk => ih (hc B hB hk) (by omega)

theorem CostLe.mono {N : Sym} {expansion : List Sym} {n m : ℕ} (h : G.CostLe N expansion n)
    (hle : n ≤ m) : G.CostLe N expansion m := by
  unfold CostLe at h ⊢
  split_ifs at h ⊢ with hself
  · omega
  · exact fun B hB hk => (h B hB hk).mono hle

theorem DepthLe.alternatives_ne_nil {n : ℕ} {N : Sym} (h : G.DepthLe n N) :
    G.alternatives N ≠ [] := by
  cases n with
  | zero => exact absurd h id
  | succ n =>
    obtain ⟨alt, ha, -⟩ := h
    exact List.ne_nil_of_mem ha

theorem depthLe_of_derives {t : DTree} (h : Derives G t) (hk : t.symbol ∈ G.keys) :
    G.DepthLe t.height t.symbol := by
  induction h with
  | leaf hs => exact absurd hk hs
  | @node s d children alt ha hd hc _ ih =>
    have hchild : ∀ B ∈ alt.expansion, B ∈ G.keys → G.DepthLe (DTree.heightForest children) B := by
      intro B hB hBk
      rw [← hc] at hB
      obtain ⟨t, ht, rfl⟩ := List.mem_map.mp hB
      exact (ih t ht hBk).mono (DTree.heightForest_le_iff.mp le_rfl t ht)
    rw [DTree.height]
    by_cases hself : s ∈ alt.expansion
    · exact (hchild s hself hk).mono (Nat.le_succ _)
    · refine ⟨alt, ha, ?_⟩
      rw [if_neg (show (DTree.node s d children).symbol ∉ alt.expansion from hself)]
      exact hchild

/-- A depth small enough not to come from a self-recursive alternative is the height of a tree. -/
theorem exists_derives_of_depthLe {n : ℕ} (hn : n ≤ 999) {N : Sym} (h : G.DepthLe n N) :
    ∃ t, Derives G t ∧ t.symbol = N ∧ t.height ≤ n := by
  induction n generalizing N with
  | zero => exact absurd h id
  | succ n ih =>
    obtain ⟨alt, ha, hc⟩ := h
    split_ifs at hc with hself
    · omega
    · have hex : ∀ B, ∃ t, B ∈ alt.expansion → Derives G t ∧ t.symbol = B ∧ t.height ≤ n := by
        intro B
        by_cases hB : B ∈ alt.expansion
        · by_cases hk : B ∈ G.keys
          · obtain ⟨t, ht⟩ := ih (by omega) (hc B hB hk)
            exact ⟨t, fun _ => ht⟩
          · exact ⟨.leaf B, fun _ => ⟨.leaf hk, rfl, by simp [DTree.height]⟩⟩
        · exact ⟨.leaf B, fun h => absurd h hB⟩
      choose sub hsub using hex
      refine ⟨.node N alt.derivNum (alt.expansion.map sub), .node ha rfl ?_ ?_, rfl, ?_⟩
      · rw [List.map_map]
        conv_rhs => rw [← List.map_id alt.expansion]
        exact List.map_congr_left fun B hB => (hsub B hB).2.1
      · intro t ht
        obtain ⟨B, hB, rfl⟩ := List.mem_map.mp ht
        exact (hsub B hB).1
      · rw [DTree.height, Nat.add_le_add_iff_right, DTree.heightForest_le_iff]
        intro t ht
        obtain ⟨B, hB, rfl⟩ := List.mem_map.mp ht
        exact (hsub B hB).2.2

noncomputable def minHeight (G : Grammar) (N : Sym) : ℕ :=
  sInf {h | ∃ t, Derives G t ∧ t.symbol = N ∧ t.height = h}

/-- Every nonterminal derives a finite tree of height below 999. -/
def Productive (G : Grammar) : Prop :=
  ∀ N ∈ G.keys, ∃ t, Derives G t ∧ t.symbol = N ∧ t.height < 999

noncomputable def maxMinHeight (G : Grammar) : ℕ := (G.keys.map G.minHeight).foldr max 0

theorem exists_minHeight {N : Sym} {t : DTree} (h : Derives G t) (hs : t.symbol = N) :
    (∃ t, Derives G t ∧ t.symbol = N ∧ t.height = G.minHeight N) ∧ G.minHeight N ≤ t.height :=
  ⟨Nat.sInf_mem (s := {h | ∃ t, Derives G t ∧ t.symbol = N ∧ t.height = h}) ⟨_, t, h, hs, rfl⟩,
    Nat.sInf_le ⟨t, h, hs, rfl⟩⟩

theorem Productive.minHeight_lt (h : G.Productive) {N : Sym} (hN : N ∈ G.keys) :
    G.minHeight N < 999 := by
  obtain ⟨t, ht, hs, hlt⟩ := h N hN
  exact lt_of_le_of_lt (exists_minHeight ht hs).2 hlt

theorem isLeast_depth_of_derives {N : Sym} (hN : N ∈ G.keys) {t : DTree} (ht : Derives G t)
    (hs : t.symbol = N) (hlt : t.height < 999) :
    IsLeast {n | G.DepthLe n N} (G.minHeight N) := by
  obtain ⟨⟨u, hu, hus, huh⟩, hle⟩ := exists_minHeight ht hs
  constructor
  · have := depthLe_of_derives hu (by rwa [hus])
    rwa [huh, hus] at this
  · intro n hn
    by_contra hlt'
    obtain ⟨v, hv, hvs, hvh⟩ := exists_derives_of_depthLe (by omega) hn
    have := (exists_minHeight hv hvs).2
    omega

theorem Productive.isLeast_depth (h : G.Productive) {N : Sym} (hN : N ∈ G.keys) :
    IsLeast {n | G.DepthLe n N} (G.minHeight N) := by
  obtain ⟨t, ht, hs, hlt⟩ := h N hN
  exact isLeast_depth_of_derives hN ht hs hlt

theorem minHeight_le_max {N : Sym} (hN : N ∈ G.keys) : G.minHeight N ≤ G.maxMinHeight := by
  have key : ∀ l : List ℕ, ∀ m ∈ l, m ≤ l.foldr max 0 := by
    intro l
    induction l with
    | nil => simp
    | cons a l ih =>
      intro m hm
      rcases List.mem_cons.mp hm with rfl | hm
      · exact le_max_left _ _
      · exact le_trans (ih m hm) (le_max_right _ _)
  exact key _ _ (List.mem_map.mpr ⟨N, hN, rfl⟩)

theorem Productive.depthLe_max (h : G.Productive) {N : Sym} (hN : N ∈ G.keys) :
    G.DepthLe G.maxMinHeight N :=
  (h.isLeast_depth hN).1.mono (minHeight_le_max hN)

theorem Productive.hasAlternatives (h : G.Productive) : G.HasAlternatives :=
  fun _ hN => (h.depthLe_max hN).alternatives_ne_nil

theorem Productive.minHeight_lt_of_cheapest (h : G.Productive) {N : Sym} (hN : N ∈ G.keys)
    {expansion : List Sym} (hc : ∀ n, G.DepthLe (n + 1) N → G.CostLe N expansion n) {B : Sym}
    (hB : B ∈ expansion) (hk : B ∈ G.keys) : G.minHeight B < G.minHeight N := by
  have hleast := h.isLeast_depth hN
  have hlt := h.minHeight_lt hN
  obtain ⟨n, hn⟩ : ∃ n, G.minHeight N = n + 1 := by
    cases hm : G.minHeight N with
    | zero =>
      have := hleast.1
      rw [hm] at this
      exact absurd this id
    | succ n => exact ⟨n, rfl⟩
  have hcost := hc n (hn ▸ hleast.1)
  unfold CostLe at hcost
  split_ifs at hcost with hself
  · omega
  · have := (h.isLeast_depth hk).2 (hcost B hB hk)
    omega

end Grammar
end RSFuzz
