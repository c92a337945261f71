import RSFuzz.LevelTreeInvariants

set_option autoImplicit false

/-!
# What matching, pruning and recording compute

On a node of the last level with a root path, `satisfy_pre_seq` decides whether
the prefix is a subsequence of the path that ends at the node; pruning and
recording are then sets described by that relation.
-/
namespace RSFuzz
open OrderedMap Subsequence

/-- A registered prefix fits a root path. The empty prefix fits every path. -/
def Matches (seq path : List Sym) : Prop := seq = [] ∨ EndsIn seq path

instance (seq path : List Sym) : Decidable (Matches seq path) :=
  inferInstanceAs (Decidable (seq = [] ∨ EndsIn seq path))

theorem matches_iff_endsIn {seq path : List Sym} (h : seq ≠ []) :
    Matches seq path ↔ EndsIn seq path := by
  simp [Matches, h]

theorem Tree.walkUp_of_rootPath {tree : Tree} {pos : ℕ × ℕ} {path : List Sym}
    (h : tree.RootPath pos path) (fuel : ℕ) (hf : pos.1 < fuel) :
    tree.walkUp fuel (some pos) = some path.reverse := by
  induction h generalizing fuel with
  | root h hp =>
    obtain ⟨fuel, rfl⟩ : ∃ n, fuel = n + 1 := ⟨fuel - 1, by omega⟩
    cases fuel <;> simp [walkUp, h, hp]
  | child above h hp ih =>
    obtain ⟨fuel, rfl⟩ : ∃ n, fuel = n + 1 := ⟨fuel - 1, by omega⟩
    have := ih fuel (by simp only at hf ⊢; omega)
    simp [walkUp, h, hp, this]

def satisfyPreSeqUnguarded (tree : Tree) (seq : List Sym) (pos : ℕ × ℕ) : Option Bool :=
  match seq.getLast? with
  | none => some true
  | some last => do
    let node ← tree.node? pos
    if node.symbol ≠ last then return false
    let path ← tree.walkUp tree.length (some pos)
    return greedyMatch seq path.reverse 0

theorem greedyMatch_eq_decide {seq : List Sym} (hne : seq ≠ []) (path : List Sym) :
    greedyMatch seq path 0 = decide (seq.Sublist path) := by
  rw [Bool.eq_iff_iff, greedyMatch_iff _ _ _ (List.length_pos_iff.mpr hne), List.drop_zero,
    decide_eq_true_eq]

theorem satisfyPreSeqUnguarded_eq {tree : Tree} {pos : ℕ × ℕ} {path : List Sym}
    (h : tree.RootPath pos path) (hlen : tree.length = pos.1 + 1) (seq : List Sym) :
    satisfyPreSeqUnguarded tree seq pos = some (decide (Matches seq path)) := by
  by_cases hne : seq = []
  · subst hne
    simp [satisfyPreSeqUnguarded, Matches]
  obtain ⟨last, hl⟩ := Option.isSome_iff_exists.mp (List.getLast?_isSome.mpr hne)
  obtain ⟨node, hn⟩ := h.exists_node
  have hlast := h.getLast? hn
  have hwalk := Tree.walkUp_of_rootPath h tree.length (by omega)
  by_cases hs : node.symbol = last
  · have hends : Matches seq path ↔ seq.Sublist path := by
      rw [matches_iff_endsIn hne, EndsIn, hl, hlast, hs]
      exact and_iff_left rfl
    simp [satisfyPreSeqUnguarded, hl, hn, hs, hwalk, greedyMatch_eq_decide hne, hends]
  · have hno : ¬ Matches seq path := fun hm => by
      have := ((matches_iff_endsIn hne).mp hm).2
      rw [hl, hlast] at this
      exact hs (Option.some.inj this).symm
    simp [satisfyPreSeqUnguarded, hl, hn, hs, hno]

/-- The path of a node in the last level is as long as the tree, so nothing longer fits it. -/
theorem satisfyPreSeq_eq_unguarded {tree : Tree} {pos : ℕ × ℕ} {path : List Sym}
    (h : tree.RootPath pos path) (hlen : tree.length = pos.1 + 1) (seq : List Sym) :
    satisfyPreSeq tree seq pos = satisfyPreSeqUnguarded tree seq pos := by
  by_cases hlong : tree.length < seq.length
  · have hne : seq ≠ [] := List.length_pos_iff.mp (Nat.zero_lt_of_lt hlong)
    obtain ⟨last, hl⟩ := Option.isSome_iff_exists.mp (List.getLast?_isSome.mpr hne)
    have hno : ¬ Matches seq path := fun hm => by
      have hle := ((matches_iff_endsIn hne).mp hm).length_le
      have hpl := h.length
      omega
    rw [satisfyPreSeqUnguarded_eq h hlen, decide_eq_false hno]
    simp [satisfyPreSeq, hl, hlong]
  · cases hl : seq.getLast? with
    | none => simp [satisfyPreSeq, satisfyPreSeqUnguarded, hl]
    | some last => simp [satisfyPreSeq, satisfyPreSeqUnguarded, hl, hlong]

theorem satisfyPreSeq_eq {tree : Tree} {pos : ℕ × ℕ} {path : List Sym}
    (h : tree.RootPath pos path) (hlen : tree.length = pos.1 + 1) (seq : List Sym) :
    satisfyPreSeq tree seq pos = some (decide (Matches seq path)) :=
  (satisfyPreSeq_eq_unguarded h hlen seq).trans (satisfyPreSeqUnguarded_eq h hlen seq)

/-- In the last level the walk to the root ends, and the answer is that of the relation: the test
    of the lengths and the greedy scan change nothing. -/
theorem satisfyPreSeq_decides (tree : Tree) (hc : tree.ParentsConsistent) (d i : ℕ) (node : Node)
    (hn : tree.node? (d, i) = some node) (hlast : d + 1 = tree.length) (seq : List Sym) :
    ∃ path, tree.RootPath (d, i) path ∧
      (∀ fuel, tree.length ≤ fuel → tree.walkUp fuel (some (d, i)) = some path.reverse) ∧
      satisfyPreSeq tree seq (d, i) =
        some (decide (seq = [] ∨ seq.getLast? = some node.symbol ∧ seq.Sublist path)) ∧
      satisfyPreSeqUnguarded tree seq (d, i) = satisfyPreSeq tree seq (d, i) ∧
      (seq ≠ [] → greedyMatch seq path 0 = decide (seq.Sublist path)) := by
  obtain ⟨path, hpath⟩ := hc.exists_rootPath d i hn
  have hlen : tree.length = (d, i).1 + 1 := hlast.symm
  have hrelation : Matches seq path ↔
      seq = [] ∨ seq.getLast? = some node.symbol ∧ seq.Sublist path := by
    rw [Matches, EndsIn, hpath.getLast? hn, and_comm]
  refine ⟨path, hpath, fun fuel hfuel => ?_, ?_, (satisfyPreSeq_eq_unguarded hpath hlen seq).symm,
    fun hne => greedyMatch_eq_decide hne path⟩
  · exact Tree.walkUp_of_rootPath hpath fuel (by omega)
  · rw [satisfyPreSeq_eq hpath hlen, decide_eq_decide.mpr hrelation]

def growingBranch : Tree :=
  [[⟨"outer", .range 0 2, 0, none⟩],
    [⟨"inner", .range 0 1, 1, some (0, 0)⟩, ⟨"'x'", .leaf, -1, some (0, 0)⟩],
    [⟨"outer", .unexpanded, -1, some (1, 0)⟩]]

theorem growingBranch_consistent : growingBranch.ParentsConsistent := by
  intro d i node h
  obtain ⟨level, hlevel, hnode⟩ := Tree.node?_eq_some.mp h
  match d, hlevel with
  | 0, hlevel =>
    obtain rfl := Option.some.inj hlevel
    match i, hnode with
    | 0, hnode => obtain rfl := Option.some.inj hnode; rfl
  | 1, hlevel =>
    obtain rfl := Option.some.inj hlevel
    match i, hnode with
    | 0, hnode => obtain rfl := Option.some.inj hnode; exact ⟨0, rfl, rfl⟩
    | 1, hnode => obtain rfl := Option.some.inj hnode; exact ⟨0, rfl, rfl⟩
  | 2, hlevel =>
    obtain rfl := Option.some.inj hlevel
    match i, hnode with
    | 0, hnode => obtain rfl := Option.some.inj hnode; exact ⟨0, rfl, rfl⟩

theorem satisfyPreSeq_decides_branch :
    (satisfyPreSeq growingBranch ["outer", "outer"] (2, 0) = some true ∧
      satisfyPreSeq growingBranch ["inner", "inner", "outer"] (2, 0) = some false) ∧
    ∃ path, growingBranch.RootPath (2, 0) path ∧
      (∀ fuel, 3 ≤ fuel → growingBranch.walkUp fuel (some (2, 0)) = some path.reverse) ∧
      satisfyPreSeq growingBranch ["outer", "outer"] (2, 0) = some (decide (["outer", "outer"] = [] ∨
        ["outer", "outer"].getLast? = some "outer" ∧ ["outer", "outer"].Sublist path)) ∧
      satisfyPreSeqUnguarded growingBranch ["outer", "outer"] (2, 0) =
        satisfyPreSeq growingBranch ["outer", "outer"] (2, 0) ∧
      (["outer", "outer"] ≠ [] →
        greedyMatch ["outer", "outer"] path 0 = decide (["outer", "outer"].Sublist path)) :=
  ⟨⟨by decide, by decide⟩, satisfyPreSeq_decides growingBranch growingBranch_consistent 2 0
    ⟨"outer", .unexpanded, -1, some (1, 0)⟩ rfl rfl ["outer", "outer"]⟩

theorem popSingle_eq_some_iff (s : Finset ℕ) (a : ℕ) : popSingle s = some a ↔ s = {a} := by
  unfold popSingle
  constructor
  · intro h
    split_ifs at h with hc
    obtain ⟨b, rfl⟩ := Finset.card_eq_one.mp hc
    simpa using h
  · rintro rfl
    simp

/-- The only id missing from `rs` has a prefix that fits the path. -/
def CompletedAt (t : Tables) (path : List Sym) (seen rs : Finset ℕ) : Prop :=
  ∃ target seq, rs \ seen = {target} ∧ t.idxSubseq.get? target = some seq ∧ Matches seq path

theorem pruneEntries_cons {t : Tables} {tree : Tree} {pos : ℕ × ℕ} {path : List Sym}
    (h : tree.RootPath pos path) (hlen : tree.length = pos.1 + 1) (seen : Finset ℕ) (dn : ℕ)
    {rs : Finset ℕ} (hdef : ∀ k ∈ rs, k ∈ t.idxSubseq.keys) {rest : List (ℕ × Finset ℕ)}
    {pruned : List ℕ} (hrest : pruneEntries t tree pos seen rest = some pruned) :
    ∃ completed : Bool, (completed = true ↔ CompletedAt t path seen rs) ∧
      pruneEntries t tree pos seen ((dn, rs) :: rest) =
        some (if completed then dn :: pruned else pruned) := by
  cases hpop : popSingle (rs \ seen) with
  | none =>
    refine ⟨false, ⟨fun hc => absurd hc Bool.false_ne_true, ?_⟩, by simp [pruneEntries, hrest, hpop]⟩
    rintro ⟨target, seq, hsingle, -⟩
    rw [(popSingle_eq_some_iff _ _).mpr hsingle] at hpop
    cases hpop
  | some target =>
    have hsingle := (popSingle_eq_some_iff _ _).mp hpop
    have hmem : target ∈ rs := (Finset.mem_sdiff.mp (hsingle ▸ Finset.mem_singleton_self target)).1
    obtain ⟨seq, hseq⟩ := Map.exists_get? (hdef target hmem)
    refine ⟨decide (Matches seq path), ?_,
      by simp [pruneEntries, hrest, hpop, hseq, satisfyPreSeq_eq h hlen]⟩
    rw [decide_eq_true_eq]
    constructor
    · exact fun hm => ⟨target, seq, hsingle, hseq, hm⟩
    · rintro ⟨target', seq', hs, hg, hm⟩
      obtain rfl := Finset.singleton_injective (hsingle.symm.trans hs)
      obtain rfl := Option.some.inj (hseq.symm.trans hg)
      exact hm

theorem pruneEntries_spec {t : Tables} {tree : Tree} {pos : ℕ × ℕ} {path : List Sym}
    (h : tree.RootPath pos path) (hlen : tree.length = pos.1 + 1) (seen : Finset ℕ)
    (entries : List (ℕ × Finset ℕ))
    (hdef : ∀ e ∈ entries, ∀ k ∈ e.2, k ∈ t.idxSubseq.keys) :
    ∃ pruned, pruneEntries t tree pos seen entries = some pruned ∧
      ∀ d, d ∈ pruned ↔ ∃ rs, (d, rs) ∈ entries ∧ CompletedAt t path seen rs := by
  induction entries with
  | nil => exact ⟨[], rfl, by simp⟩
  | cons e rest ih =>
    obtain ⟨dn, rs⟩ := e
    obtain ⟨pruned, hrest, hspec⟩ := ih (fun e he => hdef e (List.mem_cons_of_mem _ he))
    obtain ⟨completed, hiff, hrun⟩ :=
      pruneEntries_cons h hlen seen dn (hdef (dn, rs) (by simp)) hrest
    refine ⟨_, hrun, fun d => ?_⟩
    have hmem : d ∈ (if completed then dn :: pruned else pruned) ↔
        d = dn ∧ completed = true ∨ d ∈ pruned := by
      cases completed <;> simp
    rw [hmem, hspec, hiff]
    constructor
    · rintro (⟨rfl, hc⟩ | ⟨rs', hm, hc⟩)
      · exact ⟨rs, by simp, hc⟩
      · exact ⟨rs', List.mem_cons_of_mem _ hm, hc⟩
    · rintro ⟨rs', hm, hc⟩
      rcases List.mem_cons.mp hm with he | hm
      · obtain ⟨rfl, rfl⟩ := Prod.mk.inj he
        exact Or.inl ⟨rfl, hc⟩
      · exact Or.inr ⟨rs', hm, hc⟩

/-- Pruning never fails at a node with a root path, and removes exactly the numbers stored
    with a rule whose only missing sequence fits there. -/
theorem pruneChildren_spec {t : Tables} {tree : Tree} {pos : ℕ × ℕ} {path : List Sym}
    (h : tree.RootPath pos path) (hlen : tree.length = pos.1 + 1) (symbol : Sym)
    (seen : Finset ℕ) :
    ∃ pruned, pruneChildren t symbol tree pos seen = some pruned ∧
      ∀ d, d ∈ pruned ↔ ∃ entries rs, t.recurrentSequence.get? symbol = some entries ∧
        (d, rs) ∈ entries ∧ CompletedAt t path seen rs := by
  cases hr : t.recurrentSequence.get? symbol with
  | none => exact ⟨[], by simp [pruneChildren, hr], by simp⟩
  | some entries =>
    obtain ⟨pruned, hrun, hspec⟩ := pruneEntries_spec h hlen seen entries (t.defined symbol entries hr)
    refine ⟨pruned, by simp [pruneChildren, hr, hrun], fun d => ?_⟩
    rw [hspec]
    constructor
    · rintro ⟨rs, hm, hc⟩
      exact ⟨entries, rs, rfl, hm, hc⟩
    · rintro ⟨_, rs, he, hm, hc⟩
      obtain rfl := Option.some.inj he
      exact ⟨rs, hm, hc⟩

def Tables.idOf? (t : Tables) (S : Sym) (d : ℕ) (p : List Sym) : Option ℕ :=
  ((t.subSequences.get? S).bind (·.get? d)).bind (·.get? p)

def Tables.RecordedBy (t : Tables) (e : List Sym × ℕ) (k : ℕ) : Prop :=
  ∃ S p, e.1.getLast? = some S ∧ t.idOf? S e.2 p = some k ∧ Matches p e.1

theorem recordEntries_spec {tree : Tree} {pos : ℕ × ℕ} {path : List Sym}
    (h : tree.RootPath pos path) (hlen : tree.length = pos.1 + 1)
    (entries : List (List Sym × ℕ)) (seen : Finset ℕ) :
    ∃ seen', recordEntries tree pos entries seen = some seen' ∧
      ∀ k, k ∈ seen' ↔ k ∈ seen ∨ ∃ p, (p, k) ∈ entries ∧ Matches p path := by
  induction entries generalizing seen with
  | nil => exact ⟨seen, rfl, by simp⟩
  | cons e rest ih =>
    obtain ⟨subseq, id⟩ := e
    obtain ⟨seen', hrun, hspec⟩ :=
      ih (if decide (Matches subseq path) then insert id seen else seen)
    refine ⟨seen', by simpa [recordEntries, satisfyPreSeq_eq h hlen] using hrun, fun k => ?_⟩
    have hmem : k ∈ (if decide (Matches subseq path) then insert id seen else seen) ↔
        k = id ∧ Matches subseq path ∨ k ∈ seen := by
      by_cases hm : Matches subseq path <;> simp [hm]
    rw [hspec, hmem]
    constructor
    · rintro ((⟨rfl, hm⟩ | hk) | ⟨p, hp, hm⟩)
      · exact Or.inr ⟨subseq, by simp, hm⟩
      · exact Or.inl hk
      · exact Or.inr ⟨p, List.mem_cons_of_mem _ hp, hm⟩
    · rintro (hk | ⟨p, hp, hm⟩)
      · exact Or.inl (Or.inr hk)
      · rcases List.mem_cons.mp hp with he | hp
        · obtain ⟨rfl, rfl⟩ := Prod.mk.inj he
          exact Or.inl (Or.inl ⟨rfl, hm⟩)
        · exact Or.inr ⟨p, hp, hm⟩

/-- Recording never fails at a node with a root path and adds exactly the ids that the
    expansion realises. -/
theorem record_spec {t : Tables} {tree : Tree} {pos : ℕ × ℕ} {path : List Sym} {symbol : Sym}
    (h : tree.RootPath pos path) (hlen : tree.length = pos.1 + 1)
    (hsym : path.getLast? = some symbol) (d : ℕ) (seen : Finset ℕ) :
    ∃ seen', record t tree pos symbol d seen = some seen' ∧
      ∀ k, k ∈ seen' ↔ k ∈ seen ∨ t.RecordedBy (path, d) k := by
  cases hsub : (t.subSequences.get? symbol).bind (·.get? d) with
  | none =>
    refine ⟨seen, by simp [record, hsub], fun k => ?_⟩
    simp [Tables.RecordedBy, Tables.idOf?, hsym, hsub]
  | some subseqs =>
    obtain ⟨seen', hrun, hspec⟩ := recordEntries_spec h hlen subseqs.entries seen
    refine ⟨seen', by simp [record, hsub, hrun], fun k => ?_⟩
    rw [hspec]
    simp [Tables.RecordedBy, Tables.idOf?, hsym, hsub, Map.get?_eq_some_iff]

end RSFuzz
