import Mathlib.Data.Finset.Union
import Mathlib.Data.Fintype.EquivFin
import Mathlib.Data.List.Sort
import RSFuzz.DerivationTree
import RSFuzz.FoundationSieve

set_option autoImplicit false

/-!
# Dropping rules that other rules include

`including_sequence`, `including_seqs` and `remove_included_seqs`. A rule is a
set of sequences. The scan of `including_sequence` never fails, so what is left
of it compares lengths and the two last entries.
-/
namespace RSFuzz
open OrderedMap Subsequence

abbrev RuleSet := Finset Sequence

/-- `for token2 in seq2[cur_idx:-2]`. -/
def scanToken (token : Entry) : List Entry → ℕ → ℕ
  | [], curIdx => curIdx
  | token2 :: rest, curIdx => if token = token2 then curIdx else scanToken token rest (curIdx + 1)

/-- `for token in seq1[:-2]`. -/
def scanTokens (seq2 : List Entry) : List Entry → ℕ → Bool
  | [], _ => true
  | token :: rest, curIdx =>
    if seq2.length - 2 < curIdx then false
    else scanTokens seq2 rest (scanToken token ((seq2.take (seq2.length - 2)).drop curIdx) curIdx)

def includingSequence (seq1 seq2 : List Entry) : Bool :=
  if seq2.length < seq1.length then false
  else if seq1.drop (seq1.length - 2) ≠ seq2.drop (seq2.length - 2) then false
  else scanTokens seq2 (seq1.take (seq1.length - 2)) 0

def includingSeqs (seqs1 seqs2 : RuleSet) : Bool :=
  decide (∀ seq1 ∈ seqs1 \ seqs2, ∃ seq2 ∈ seqs2, includingSequence seq1.entries seq2.entries = true)

def sortedBySize (rules : List RuleSet) : List RuleSet :=
  rules.insertionSort fun a b => a.card ≤ b.card

def removeIncludedSeqs (originalSeqs : List RuleSet) : List RuleSet :=
  Sieve.kept includingSeqs (fun rs => rs.card = 0) (sortedBySize originalSeqs)

theorem scanToken_le (token : Entry) (rest : List Entry) (curIdx : ℕ) :
    scanToken token rest curIdx ≤ curIdx + rest.length := by
  induction rest generalizing curIdx with
  | nil => exact Nat.le_refl curIdx
  | cons token2 rest ih =>
    rw [scanToken]
    split_ifs
    · exact Nat.le_add_right curIdx _
    · have := ih (curIdx + 1)
      rw [List.length_cons]
      omega

theorem scanTokens_eq_true (seq2 seq1 : List Entry) (curIdx : ℕ) (h : curIdx ≤ seq2.length - 2) :
    scanTokens seq2 seq1 curIdx = true := by
  induction seq1 generalizing curIdx with
  | nil => rfl
  | cons token rest ih =>
    rw [scanTokens, if_neg (by omega)]
    apply ih
    have := scanToken_le token ((seq2.take (seq2.length - 2)).drop curIdx) curIdx
    rw [List.length_drop, List.length_take] at this
    omega

theorem Sequence.entries_drop (s : Sequence) :
    s.entries.drop (s.entries.length - 2) = [Entry.sym s.lastSymbol, Entry.dn s.dn] := by
  rw [s.entries_eq_concat]
  simp

theorem includingSequence_iff (s t : Sequence) : includingSequence s.entries t.entries = true ↔
    s.symbols.length ≤ t.symbols.length ∧ s.lastSymbol = t.lastSymbol ∧ s.dn = t.dn := by
  rw [includingSequence, s.entries_drop, t.entries_drop, scanTokens_eq_true _ _ 0 (Nat.zero_le _),
    s.entries_length, t.entries_length]
  by_cases hlen : t.symbols.length + 1 < s.symbols.length + 1
  · rw [if_pos hlen]
    have : ¬ s.symbols.length ≤ t.symbols.length := by omega
    simp [this]
  · rw [if_neg hlen]
    have : s.symbols.length ≤ t.symbols.length := by omega
    simp [this]

/-- Each sequence has one in the other rule that is not shorter and ends in the same entries. -/
def Resembles (rs1 rs2 : RuleSet) : Prop :=
  ∀ s ∈ rs1, ∃ t ∈ rs2, s.symbols.length ≤ t.symbols.length ∧ s.lastSymbol = t.lastSymbol ∧
    s.dn = t.dn

theorem includingSeqs_iff (rs1 rs2 : RuleSet) :
    includingSeqs rs1 rs2 = true ↔ Resembles rs1 rs2 := by
  unfold Resembles
  simp only [includingSeqs, decide_eq_true_eq, includingSequence_iff, Finset.mem_sdiff]
  constructor
  · intro h s hs
    by_cases ht : s ∈ rs2
    · exact ⟨s, ht, Nat.le_refl _, rfl, rfl⟩
    · exact h s ⟨hs, ht⟩
  · intro h s hs
    exact h s hs.1

theorem includingSeqs_trans (rs1 rs2 rs3 : RuleSet) (h : includingSeqs rs1 rs2 = true)
    (h' : includingSeqs rs2 rs3 = true) : includingSeqs rs1 rs3 = true := by
  rw [includingSeqs_iff] at h h' ⊢
  intro s hs
  obtain ⟨t, ht, hlen, hsym, hdn⟩ := h s hs
  obtain ⟨u, hu, hlen', hsym', hdn'⟩ := h' t ht
  exact ⟨u, hu, hlen.trans hlen', hsym.trans hsym', hdn.trans hdn'⟩

theorem mem_sortedBySize {rules : List RuleSet} {rs : RuleSet} :
    rs ∈ sortedBySize rules ↔ rs ∈ rules := List.mem_insertionSort _

theorem not_dropped {rules : List RuleSet} (hne : ∀ rs ∈ rules, rs.Nonempty) :
    ∀ rs ∈ sortedBySize rules, decide (rs.card = 0) = false := by
  intro rs hrs
  have := (hne rs (mem_sortedBySize.mp hrs)).card_pos
  simp only [decide_eq_false_iff_not]
  omega

theorem mem_of_mem_removeIncludedSeqs {rules : List RuleSet} {rs : RuleSet}
    (h : rs ∈ removeIncludedSeqs rules) : rs ∈ rules :=
  mem_sortedBySize.mp (Sieve.mem_of_mem_kept h)

def RealisesAll (E : Set (List Sym × ℕ)) (rs : RuleSet) : Prop := ∀ s ∈ rs, Realises E s

/-- Every sequence of `rs` is a shorter version of a sequence of `rs'`. -/
def Implied (rs rs' : RuleSet) : Prop :=
  ∀ s ∈ rs, ∃ t ∈ rs', s.dn = t.dn ∧ EndsIn s.symbols t.symbols

theorem Implied.realisesAll {rs rs' : RuleSet} (h : Implied rs rs') {E : Set (List Sym × ℕ)}
    (hall : RealisesAll E rs') : RealisesAll E rs := by
  intro s hs
  obtain ⟨t, ht, hdn, hend⟩ := h s hs
  exact (hall t ht).of_endsIn hdn hend

theorem Implied.resembles {rs rs' : RuleSet} (h : Implied rs rs') : Resembles rs rs' := by
  intro s hs
  obtain ⟨t, ht, hdn, hsub, hlast⟩ := h s hs
  rw [s.getLast?_symbols, t.getLast?_symbols, Option.some.injEq] at hlast
  exact ⟨t, ht, hsub.length_le, hlast, hdn⟩

theorem implied_coarsened : Sieve.Coarsens includingSeqs Implied where
  refl _ s hs := ⟨s, hs, rfl, .refl _, rfl⟩
  trans rs1 rs2 rs3 h h' := by
    intro s hs
    obtain ⟨t, ht, hdn, hend⟩ := h s hs
    obtain ⟨u, hu, hdn', hend'⟩ := h' t ht
    exact ⟨u, hu, hdn.trans hdn', hend.1.trans hend'.1, hend.2.trans hend'.2⟩
  rel_of_finer rs1 rs2 h := (includingSeqs_iff rs1 rs2).mpr h.resembles

/-- One branch: the symbols, the last one expanded with `dn` and the others with `f`. -/
def chain (f dn : ℕ) (z : Sym) : List Sym → DTree
  | [] => .leaf z
  | [s] => .node s dn [.leaf z]
  | s :: rest => .node s f [chain f dn z rest]

theorem chain_symbol (f dn : ℕ) (z s : Sym) (rest : List Sym) :
    (chain f dn z (s :: rest)).symbol = s := by
  cases rest <;> rfl

theorem chain_expands (f dn : ℕ) (z : Sym) {symbols : List Sym} (h : symbols ≠ [])
    (pre : List Sym) : (pre ++ symbols, dn) ∈ (chain f dn z symbols).expandedBelow pre := by
  induction symbols generalizing pre with
  | nil => exact absurd rfl h
  | cons s rest ih =>
    cases rest with
    | nil => simp [chain, DTree.expandedBelow]
    | cons s' rest =>
      have := ih (List.cons_ne_nil s' rest) (pre ++ [s])
      rw [chain, DTree.expandedBelow, DTree.expandedForest, DTree.expandedForest, List.append_nil]
      · exact List.mem_cons_of_mem _ (by simpa using this)
      · simp

theorem chain_expands_only {f dn : ℕ} {z : Sym} {symbols pre : List Sym} {e : List Sym × ℕ}
    (he : e ∈ (chain f dn z symbols).expandedBelow pre) : e.2 = f ∨ e = (pre ++ symbols, dn) := by
  induction symbols generalizing pre with
  | nil => simp [chain, DTree.expandedBelow] at he
  | cons s rest ih =>
    cases rest with
    | nil =>
      simp only [chain, DTree.expandedBelow, DTree.expandedForest, List.append_nil,
        List.mem_singleton] at he
      exact Or.inr he
    | cons s' rest =>
      rw [chain, DTree.expandedBelow, DTree.expandedForest, DTree.expandedForest, List.append_nil,
        List.mem_cons] at he
      · rcases he with rfl | he
        · exact Or.inl rfl
        · rcases ih he with h | h
          · exact Or.inl h
          · exact Or.inr (by simpa using h)
      · simp

def uniformGrammar (keys : List Sym) (hkeys : keys.Nodup) (alts : List Alternative) : Grammar :=
  ⟨keys.map fun k => (k, alts), by simpa [List.map_map, Function.comp_def] using hkeys⟩

theorem uniformGrammar_keys {keys : List Sym} (hkeys : keys.Nodup) (alts : List Alternative) :
    (uniformGrammar keys hkeys alts).keys = keys := by
  simp [uniformGrammar, Map.keys, Function.comp_def]

theorem uniformGrammar_alternatives {keys : List Sym} (hkeys : keys.Nodup)
    (alts : List Alternative) {s : Sym} (hs : s ∈ keys) :
    (uniformGrammar keys hkeys alts).alternatives s = alts := by
  apply Grammar.alternatives_of_get?
  rw [Map.get?_eq_some_iff]
  exact List.mem_map.mpr ⟨s, hs, rfl⟩

theorem chain_derives {keys : List Sym} (hkeys : keys.Nodup) {alts : List Alternative} {f dn : ℕ}
    {z : Sym} {symbols : List Sym} (hne : symbols ≠ []) (hz : z ∉ keys)
    (hin : ∀ s ∈ symbols, s ∈ keys) (hstep : ∀ s ∈ symbols, ⟨[s], f, 1⟩ ∈ alts)
    (hend : ⟨[z], dn, 1⟩ ∈ alts) :
    Derives (uniformGrammar keys hkeys alts) (chain f dn z symbols) := by
  induction symbols with
  | nil => exact absurd rfl hne
  | cons s rest ih =>
    have halts := uniformGrammar_alternatives hkeys alts (hin s (by simp))
    cases rest with
    | nil =>
      refine .node (halts ▸ hend) rfl rfl fun t ht => ?_
      rw [List.mem_singleton.mp ht]
      exact .leaf (by rwa [uniformGrammar_keys])
    | cons s' rest =>
      have hsub : ∀ t ∈ s' :: rest, t ∈ s :: s' :: rest := fun t ht => List.mem_cons_of_mem s ht
      have hchild := ih (List.cons_ne_nil s' rest) (fun t ht => hin t (hsub t ht))
        fun t ht => hstep t (hsub t ht)
      rw [chain]
      · refine .node (halts ▸ hstep s' (by simp)) rfl ?_ fun t ht => ?_
        · simp [chain_symbol]
        · rw [List.mem_singleton.mp ht]
          exact hchild
      · simp

/-- A complete tree that realises a rule, and of the given sequences only those implied by one
    of the rule. Root, fresh leaf and fresh number keep the branches apart. -/
theorem exists_tree_of_rule (rs : RuleSet) (given : Finset Sequence) :
    ∃ G t, Derives G t ∧ RealisesAll t.expanded rs ∧
      ∀ s ∈ given, Realises t.expanded s → ∃ u ∈ rs, s.dn = u.dn ∧ EndsIn s.symbols u.symbols := by
  let used : Finset Sym := (rs ∪ given).biUnion fun s => s.symbols.toFinset
  obtain ⟨r, hr⟩ := Infinite.exists_notMem_finset used
  obtain ⟨z, hz⟩ := Infinite.exists_notMem_finset (insert r used)
  obtain ⟨f, hf⟩ := Infinite.exists_notMem_finset ((rs ∪ given).image Sequence.dn)
  have hused : ∀ s ∈ rs ∪ given, ∀ x ∈ s.symbols, x ∈ used := fun s hs x hx =>
    Finset.mem_biUnion.mpr ⟨s, hs, List.mem_toFinset.mpr hx⟩
  have hleft : ∀ s ∈ rs, s ∈ rs ∪ given := fun s hs => Finset.mem_union_left _ hs
  let keys := r :: used.toList
  have hkeys : keys.Nodup := List.nodup_cons.mpr ⟨by simpa using hr, used.nodup_toList⟩
  let branch := fun u : Sequence => chain f u.dn z u.symbols
  let root : Alternative := ⟨rs.toList.map fun u => (branch u).symbol, f, 1⟩
  let alts := root :: (used.toList.map fun s => ⟨[s], f, 1⟩) ++ rs.toList.map fun u => ⟨[z], u.dn, 1⟩
  refine ⟨uniformGrammar keys hkeys alts, .node r f (rs.toList.map branch), ?_, ?_, ?_⟩
  · have hroot : root ∈ (uniformGrammar keys hkeys alts).alternatives r := by
      rw [uniformGrammar_alternatives hkeys alts (by simp [keys])]
      simp [alts]
    refine .node hroot rfl (by simp [root, Function.comp_def]) ?_
    intro t ht
    obtain ⟨u, hu, rfl⟩ := List.mem_map.mp ht
    have hu := Finset.mem_toList.mp hu
    refine chain_derives hkeys u.nonempty ?_ ?_ ?_ ?_
    · simpa [keys] using hz
    · intro s hs
      exact List.mem_cons_of_mem r (Finset.mem_toList.mpr (hused u (hleft u hu) s hs))
    · intro s hs
      have := hused u (hleft u hu) s hs
      simp [alts, this]
    · have : ∃ v ∈ rs, v.dn = u.dn := ⟨u, hu, rfl⟩
      simp [alts, this]
  · intro u hu
    refine ⟨(r :: u.symbols, u.dn), ?_, rfl, List.sublist_cons_self r _, ?_⟩
    · have hmem := chain_expands f u.dn z u.nonempty [r]
      exact List.mem_cons_of_mem _ (DTree.mem_expandedForest.mpr
        ⟨branch u, List.mem_map.mpr ⟨u, Finset.mem_toList.mpr hu, rfl⟩, hmem⟩)
    · rw [List.getLast?_cons, u.getLast?_symbols]
      rfl
  · rintro s hs ⟨e, he, hdn, hend⟩
    have hmem : s ∈ rs ∪ given := Finset.mem_union_right _ hs
    have hne : e.2 ≠ f := by
      intro heq
      exact hf (Finset.mem_image.mpr ⟨s, hmem, hdn.symm.trans heq⟩)
    rcases List.mem_cons.mp he with rfl | he
    · exact absurd rfl hne
    · obtain ⟨t, ht, het⟩ := DTree.mem_expandedForest.mp he
      obtain ⟨u, hu, rfl⟩ := List.mem_map.mp ht
      rcases chain_expands_only het with h | rfl
      · exact absurd h hne
      · refine ⟨u, Finset.mem_toList.mp hu, hdn.symm, ?_, ?_⟩
        · refine sublist_of_sublist_cons_of_not_mem hend.1 fun hrs => ?_
          exact hr (hused s hmem r hrs)
        · rw [hend.2]
          simp [List.getLast?_cons, u.getLast?_symbols]

theorem preserves_iff_implied {rules : List RuleSet} :
    (∀ G t, Derives G t → ∀ rs ∈ rules, RealisesAll t.expanded rs →
      ∃ rs' ∈ removeIncludedSeqs rules, RealisesAll t.expanded rs') ↔
    ∀ rs ∈ rules, ∃ rs' ∈ removeIncludedSeqs rules, Implied rs' rs := by
  constructor
  · intro h rs hrs
    let given : Finset Sequence := rules.toFinset.biUnion id
    obtain ⟨G, t, hd, hall, honly⟩ := exists_tree_of_rule rs given
    obtain ⟨rs', hrs', hall'⟩ := h G t hd rs hrs hall
    refine ⟨rs', hrs', fun s hs => ?_⟩
    refine honly s (Finset.mem_biUnion.mpr ⟨rs', ?_, hs⟩) (hall' s hs)
    exact List.mem_toFinset.mpr (mem_of_mem_removeIncludedSeqs hrs')
  · intro h G t _ rs hrs hall
    obtain ⟨rs', hkept, himp⟩ := h rs hrs
    exact ⟨rs', hkept, himp.realisesAll hall⟩

/-- Nothing is lost exactly if, whenever a rule resembles one behind it, that one is implied by a
    rule before it or by one that it does not imply in turn. -/
theorem removeIncludedSeqs_preserves_iff (rules : List RuleSet)
    (hne : ∀ rs ∈ rules, rs.Nonempty) :
    (∀ G t, Derives G t → ∀ rs ∈ rules, RealisesAll t.expanded rs →
      ∃ rs' ∈ removeIncludedSeqs rules, RealisesAll t.expanded rs') ↔
    ∀ (i j : ℕ) rs1 rs2, i < j → (sortedBySize rules)[i]? = some rs1 →
      (sortedBySize rules)[j]? = some rs2 → Resembles rs1 rs2 →
      ∃ k rs3, (sortedBySize rules)[k]? = some rs3 ∧ Implied rs3 rs2 ∧
        (k < j ∨ ¬ Implied rs2 rs3) := by
  have hsieve := implied_coarsened.forall_exists_kept_iff includingSeqs_trans (not_dropped hne)
  simp only [Sieve.Covered, mem_sortedBySize, includingSeqs_iff] at hsieve
  rw [preserves_iff_implied]
  exact hsieve

instance (t : DTree) (s : Sequence) : Decidable (Realises t.expanded s) :=
  inferInstanceAs (Decidable (∃ e ∈ t.expandedBelow [], e.2 = s.dn ∧ EndsIn s.symbols e.1))

instance (t : DTree) (rs : RuleSet) : Decidable (RealisesAll t.expanded rs) :=
  inferInstanceAs (Decidable (∀ s ∈ rs, Realises t.expanded s))

def leftRule : RuleSet := {⟨["root", "left", "value"], 0, by decide⟩}
def rightRule : RuleSet := {⟨["root", "right", "value"], 0, by decide⟩}

def twoSidesGrammar : Grammar :=
  ⟨[("root", [⟨["left"], 0, 1⟩, ⟨["right"], 1, 1⟩]), ("left", [⟨["value"], 0, 1⟩]),
    ("right", [⟨["value"], 0, 1⟩]), ("value", [⟨["'x'"], 0, 1⟩, ⟨["'y'"], 1, 1⟩])], by decide⟩

def rightTree : DTree := .node "root" 1 [.node "right" 0 [.node "value" 0 [.leaf "'x'"]]]

theorem rightTree_derives : Derives twoSidesGrammar rightTree := by
  refine .node (show ⟨["right"], 1, 1⟩ ∈ _ by decide) rfl rfl fun t ht => ?_
  rw [List.mem_singleton.mp ht]
  refine .node (show ⟨["value"], 0, 1⟩ ∈ _ by decide) rfl rfl fun t ht => ?_
  rw [List.mem_singleton.mp ht]
  refine .node (show ⟨["'x'"], 0, 1⟩ ∈ _ by decide) rfl rfl fun t ht => ?_
  rw [List.mem_singleton.mp ht]
  exact .leaf (by decide)

/-- The rule about the right side is dropped because it is as long as the one about the left
    side and ends in the same two entries. -/
theorem removeIncludedSeqs_loses_rule : Derives twoSidesGrammar rightTree ∧
    RealisesAll rightTree.expanded rightRule ∧
    ∀ rs ∈ removeIncludedSeqs [leftRule, rightRule], ¬ RealisesAll rightTree.expanded rs :=
  ⟨rightTree_derives, by decide, by decide⟩

theorem removeIncludedSeqs_preserves_iff_sides :
    ¬ (∀ G t, Derives G t → ∀ rs ∈ [leftRule, rightRule], RealisesAll t.expanded rs →
      ∃ rs' ∈ removeIncludedSeqs [leftRule, rightRule], RealisesAll t.expanded rs') ∧
    ((∀ G t, Derives G t → ∀ rs ∈ [leftRule, rightRule], RealisesAll t.expanded rs →
      ∃ rs' ∈ removeIncludedSeqs [leftRule, rightRule], RealisesAll t.expanded rs') ↔
    ∀ (i j : ℕ) rs1 rs2, i < j → (sortedBySize [leftRule, rightRule])[i]? = some rs1 →
      (sortedBySize [leftRule, rightRule])[j]? = some rs2 → Resembles rs1 rs2 →
      ∃ k rs3, (sortedBySize [leftRule, rightRule])[k]? = some rs3 ∧ Implied rs3 rs2 ∧
        (k < j ∨ ¬ Implied rs2 rs3)) := by
  refine ⟨fun h => ?_, removeIncludedSeqs_preserves_iff [leftRule, rightRule] (by decide)⟩
  obtain ⟨rs', hrs', hall⟩ := h twoSidesGrammar rightTree rightTree_derives rightRule (by simp)
    (by decide)
  have hnone : ∀ rs ∈ removeIncludedSeqs [leftRule, rightRule],
      ¬ RealisesAll rightTree.expanded rs := by decide
  exact hnone rs' hrs' hall

end RSFuzz
