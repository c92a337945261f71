import RSFuzz.BnfRoundTrip
import RSFuzz.MergeFailures

set_option autoImplicit false

/-!
# Merging one family of rules

The rules of a family share a set of sequences and go through some numbers of
one symbol. `merge_rules` takes the family for complete if it has as many
sequences as the symbol has alternatives in the grammar.
-/
namespace RSFuzz
open OrderedMap OptionFold

/-- `p.d` for a prefix that ends in the parent symbol and the symbol. -/
def familySeq (front : List Sym) (parent symbol : Sym) (d : ℕ) : Sequence :=
  ⟨front ++ [parent, symbol], d, by simp⟩

/-- The sequence about the parent that a complete family gives way to. -/
def parentSeq (front : List Sym) (parent : Sym) (d : ℕ) : Sequence :=
  ⟨front ++ [parent], d, by simp⟩

def Grammar.numbersOf (G : Grammar) (symbol : Sym) : List ℕ :=
  (G.alternatives symbol).map Alternative.derivNum

section Family

variable {front : List Sym} {parent symbol : Sym} {d d' : ℕ}

theorem familySeq_lastSymbol : (familySeq front parent symbol d).lastSymbol = symbol := by
  simp [familySeq, Sequence.lastSymbol]

theorem familySeq_dropLast :
    (familySeq front parent symbol d).symbols.dropLast = front ++ [parent] := by
  simp [familySeq, List.dropLast_append_of_ne_nil]

theorem familySeq_injective :
    familySeq front parent symbol d = familySeq front parent symbol d' ↔ d = d' :=
  ⟨fun h => congrArg Sequence.dn h, fun h => by rw [h]⟩

theorem familySeq_ne_parentSeq :
    familySeq front parent symbol d ≠ parentSeq front parent d' := by
  intro h
  have hlen := congrArg (fun s : Sequence => s.symbols.length) h
  simp [familySeq, parentSeq] at hlen

end Family

/-- The rules `inter + {p.d}` for `d` in `D`, in any order, and possibly repeated. -/
def IsFamily (inter : RuleSet) (front : List Sym) (parent symbol : Sym) (D : Finset ℕ)
    (rss : List RuleSet) : Prop :=
  ∀ rs, rs ∈ rss ↔ ∃ d ∈ D, rs = insert (familySeq front parent symbol d) inter

def freshNumbers (inter : RuleSet) (front : List Sym) (parent symbol : Sym) (D : Finset ℕ) :
    Finset ℕ :=
  D.filter fun d => familySeq front parent symbol d ∉ inter

theorem insert_inter_insert {inter : RuleSet} {s t : Sequence} (hst : s ≠ t) (hs : s ∉ inter) :
    insert s inter ∩ insert t inter = inter := by
  have hnot : s ∉ insert t inter := by
    rw [Finset.mem_insert]
    exact not_or.mpr ⟨hst, hs⟩
  rw [Finset.insert_inter_of_notMem hnot, Finset.inter_eq_left]
  exact Finset.subset_insert t inter

theorem MeetIn.fresh {inter i : RuleSet} {s t : Sequence}
    (h : MeetIn (insert s inter) (insert t inter) i) : s ∉ inter := by
  intro hs
  have hcard := h.2.1
  rw [Finset.insert_eq_of_mem hs, Finset.inter_eq_left.mpr (Finset.subset_insert t inter)] at hcard
  omega

namespace IsFamily

variable {G : Grammar} {inter : RuleSet} {front : List Sym} {parent symbol : Sym} {D : Finset ℕ}
  {rss : List RuleSet}

theorem mem_intersections_iff (h : IsFamily inter front parent symbol D rss) (inter' : RuleSet) :
    inter' ∈ intersections rss [] ↔ inter' = inter ∧
      ∃ d ∈ freshNumbers inter front parent symbol D,
        ∃ d' ∈ freshNumbers inter front parent symbol D, d ≠ d' := by
  rw [mem_intersections, or_iff_right (List.not_mem_nil)]
  constructor
  · rintro ⟨rs1, h1, rs2, h2, hmeet⟩
    obtain ⟨d, hd, rfl⟩ := (h rs1).mp h1
    obtain ⟨d', hd', rfl⟩ := (h rs2).mp h2
    have hne : d ≠ d' := by
      rintro rfl
      exact MeetIn.irrefl hmeet
    have hinter := insert_inter_insert (fun he => hne (familySeq_injective.mp he)) hmeet.fresh
    exact ⟨hmeet.2.2.trans hinter, d, Finset.mem_filter.mpr ⟨hd, hmeet.fresh⟩, d',
      Finset.mem_filter.mpr ⟨hd', hmeet.symm.fresh⟩, hne⟩
  · rintro ⟨rfl, d, hd, d', hd', hne⟩
    obtain ⟨hd, hfresh⟩ := Finset.mem_filter.mp hd
    obtain ⟨hd', hfresh'⟩ := Finset.mem_filter.mp hd'
    have hinter := insert_inter_insert (fun he => hne (familySeq_injective.mp he)) hfresh
    refine ⟨_, (h _).mpr ⟨d, hd, rfl⟩, _, (h _).mpr ⟨d', hd', rfl⟩, ?_, ?_, hinter.symm⟩
    · rw [Finset.card_insert_of_notMem hfresh, Finset.card_insert_of_notMem hfresh']
    · rw [hinter, Finset.card_insert_of_notMem hfresh]

theorem mem_subpathsToMerge_iff (h : IsFamily inter front parent symbol D rss) (idx : ℕ)
    (s : Sequence) :
    (idx, s) ∈ subpathsToMerge rss inter ↔ ∃ d ∈ freshNumbers inter front parent symbol D,
      s = familySeq front parent symbol d ∧ rss[idx]? = some (insert s inter) := by
  rw [mem_subpathsToMerge]
  constructor
  · rintro ⟨rs, hrs, hsingle⟩
    obtain ⟨d, hd, rfl⟩ := (h rs).mp (List.mem_of_getElem? hrs)
    by_cases hin : familySeq front parent symbol d ∈ inter
    · rw [Finset.insert_eq_of_mem hin, Finset.sdiff_self] at hsingle
      exact absurd hsingle.symm (Finset.singleton_ne_empty s)
    · rw [Finset.insert_sdiff_of_notMem _ hin, Finset.sdiff_self, insert_empty_eq] at hsingle
      obtain rfl := Finset.singleton_injective hsingle
      exact ⟨d, Finset.mem_filter.mpr ⟨hd, hin⟩, rfl, hrs⟩
  · rintro ⟨d, hd, rfl, hrs⟩
    refine ⟨_, hrs, ?_⟩
    rw [Finset.insert_sdiff_of_notMem _ (Finset.mem_filter.mp hd).2, Finset.sdiff_self,
      insert_empty_eq]

theorem card_similarSubpaths (h : IsFamily inter front parent symbol D rss) {idx : ℕ} {s : Sequence}
    (hs : (idx, s) ∈ subpathsToMerge rss inter) :
    (similarSubpaths (subpathsToMerge rss inter) s).card =
      (freshNumbers inter front parent symbol D).card := by
  have himage : similarSubpaths (subpathsToMerge rss inter) s =
      (freshNumbers inter front parent symbol D).image (familySeq front parent symbol) := by
    ext x
    rw [mem_similarSubpaths hs, Finset.mem_image]
    constructor
    · rintro ⟨⟨i, hx⟩, -⟩
      obtain ⟨d, hd, rfl, -⟩ := (h.mem_subpathsToMerge_iff i x).mp hx
      exact ⟨d, hd, rfl⟩
    · rintro ⟨d, hd, rfl⟩
      obtain ⟨d₀, -, rfl, -⟩ := (h.mem_subpathsToMerge_iff idx s).mp hs
      have hmem := (h _).mpr ⟨d, (Finset.mem_filter.mp hd).1, rfl⟩
      obtain ⟨i, hi⟩ := List.mem_iff_getElem?.mp hmem
      exact ⟨⟨i, (h.mem_subpathsToMerge_iff i _).mpr ⟨d, hd, rfl, hi⟩⟩, rfl⟩
  rw [himage, Finset.card_image_of_injective _ fun _ _ he => familySeq_injective.mp he]

/-- All numbers are there, each carried by one alternative, and none in the common part. -/
def MergesAll (G : Grammar) (inter : RuleSet) (front : List Sym) (parent symbol : Sym)
    (D : Finset ℕ) : Prop :=
  D = (G.numbersOf symbol).toFinset ∧ (G.numbersOf symbol).Nodup ∧
    ∀ d ∈ D, familySeq front parent symbol d ∉ inter

theorem complete_iff_mergesAll (h : IsFamily inter front parent symbol D rss)
    (hkey : symbol ∈ G.keys) (hD : D ⊆ (G.numbersOf symbol).toFinset) {idx : ℕ} {s : Sequence}
    (hs : (idx, s) ∈ subpathsToMerge rss inter) :
    Complete G (subpathsToMerge rss inter) s ↔ MergesAll G inter front parent symbol D := by
  have hlast : s.lastSymbol = symbol := by
    obtain ⟨d, -, rfl, -⟩ := (h.mem_subpathsToMerge_iff idx s).mp hs
    exact familySeq_lastSymbol
  have hcomplete : Complete G (subpathsToMerge rss inter) s ↔
      (freshNumbers inter front parent symbol D).card = (G.numbersOf symbol).length := by
    rw [Complete, hlast, Grammar.get?_of_mem_keys hkey, h.card_similarSubpaths hs,
      Grammar.numbersOf, List.length_map]
    simp
  have hfresh : freshNumbers inter front parent symbol D ⊆ D := Finset.filter_subset _ _
  have hle := Finset.card_le_card hfresh
  have hleD := Finset.card_le_card hD
  have hlen := List.toFinset_card_le (G.numbersOf symbol)
  rw [hcomplete]
  constructor
  · intro hcard
    refine ⟨Finset.eq_of_subset_of_card_le hD (by omega), ?_, ?_⟩
    · exact nodup_of_card_toFinset (by omega)
    · have hall := Finset.eq_of_subset_of_card_le hfresh (by omega)
      intro d hd
      rw [← hall] at hd
      exact (Finset.mem_filter.mp hd).2
  · rintro ⟨hnumbers, hnodup, hnew⟩
    rw [freshNumbers, Finset.filter_true_of_mem hnew, hnumbers, List.toFinset_card_of_nodup hnodup]

theorem absorbs_iff (h : IsFamily inter front parent symbol D rss) (hkey : symbol ∈ G.keys)
    (hD : D ⊆ (G.numbersOf symbol).toFinset) (htwo : 2 ≤ D.card) (inter' : RuleSet) (idx : ℕ)
    (s : Sequence) :
    Absorbs G rss inter' idx s ↔ inter' = inter ∧ MergesAll G inter front parent symbol D ∧
      (idx, s) ∈ subpathsToMerge rss inter := by
  constructor
  · rintro ⟨hinter, hs, hcomplete⟩
    obtain ⟨rfl, -⟩ := (h.mem_intersections_iff inter').mp hinter
    exact ⟨rfl, (h.complete_iff_mergesAll hkey hD hs).mp hcomplete, hs⟩
  · rintro ⟨rfl, hall, hs⟩
    refine ⟨(h.mem_intersections_iff inter').mpr ⟨rfl, ?_⟩, hs,
      (h.complete_iff_mergesAll hkey hD hs).mpr hall⟩
    obtain ⟨d, hd, d', hd', hne⟩ := Finset.one_lt_card.mp htwo
    exact ⟨d, Finset.mem_filter.mpr ⟨hd, hall.2.2 d hd⟩, d',
      Finset.mem_filter.mpr ⟨hd', hall.2.2 d' hd'⟩, hne⟩

end IsFamily

/-- The rules of the family are gone, and what is returned, at least one, are the rules about the
    parent, one for each number of an alternative of it that has the symbol. -/
def ReplacedByParent (G : Grammar) (order : MergeOrder) (inter : RuleSet) (front : List Sym)
    (parent symbol : Sym) (rss : List RuleSet) : Prop :=
  ∃ merged, mergeRules G order rss = some merged ∧ merged ≠ [] ∧ (∀ rs ∈ rss, rs ∉ merged) ∧
    ∀ rs, rs ∈ merged ↔ ∃ a ∈ G.alternatives parent, symbol ∈ a.expansion ∧
      rs = insert (parentSeq front parent a.derivNum) inter

section Merge

variable {G : Grammar} {order : MergeOrder} {inter : RuleSet} {front : List Sym}
  {parent symbol : Sym} {D : Finset ℕ} {rss : List RuleSet}

theorem IsFamily.lastSymbol_mem_keys (h : IsFamily inter front parent symbol D rss)
    (hkey : symbol ∈ G.keys) : ∀ inter' ∈ intersections rss [], ∀ idx s,
      (idx, s) ∈ subpathsToMerge rss inter' → s.lastSymbol ∈ G.keys := by
  intro inter' hinter idx s hs
  obtain ⟨rfl, -⟩ := (h.mem_intersections_iff inter').mp hinter
  obtain ⟨d, -, rfl, -⟩ := (h.mem_subpathsToMerge_iff idx s).mp hs
  rwa [familySeq_lastSymbol]

theorem IsFamily.mergeRules_unchanged (h : IsFamily inter front parent symbol D rss)
    (hkey : symbol ∈ G.keys) (hD : D ⊆ (G.numbersOf symbol).toFinset) (htwo : 2 ≤ D.card)
    (hnot : ¬ MergesAll G inter front parent symbol D) : mergeRules G order rss = some rss :=
  mergeRules_of_not_absorbs (h.lastSymbol_mem_keys hkey) fun inter' idx s habs =>
    hnot ((h.absorbs_iff hkey hD htwo inter' idx s).mp habs).2.1

theorem IsFamily.exists_mem (h : IsFamily inter front parent symbol D rss) (htwo : 2 ≤ D.card) :
    ∃ rs, rs ∈ rss := by
  obtain ⟨d, hd⟩ := Finset.card_pos.mp (Nat.lt_of_lt_of_le Nat.zero_lt_two htwo)
  exact ⟨_, (h _).mpr ⟨d, hd, rfl⟩⟩

theorem parentSubpaths_familySeq (d : ℕ) :
    parentSubpaths G (familySeq front parent symbol d) =
      (G.get? parent).map fun alternatives =>
        (alternatives.filter fun a => symbol ∈ a.expansion).map fun a =>
          parentSeq front parent a.derivNum := by
  have hne : (familySeq front parent symbol d).symbols.dropLast ≠ [] := by
    rw [familySeq_dropLast]
    simp
  have hlast : (familySeq front parent symbol d).symbols.dropLast.getLast hne = parent := by
    simp [familySeq_dropLast]
  rw [parentSubpaths, dif_pos hne, hlast]
  refine congrArg (fun f => (G.get? parent).map f) (funext fun alternatives => ?_)
  simp only [familySeq_lastSymbol, familySeq_dropLast]
  rfl

theorem IsFamily.absorbs_of_getElem? (h : IsFamily inter front parent symbol D rss)
    (hkey : symbol ∈ G.keys) (hD : D ⊆ (G.numbersOf symbol).toFinset) (htwo : 2 ≤ D.card)
    (hall : MergesAll G inter front parent symbol D) {idx : ℕ} {rs : RuleSet}
    (hget : rss[idx]? = some rs) :
    ∃ d, Absorbs G rss inter idx (familySeq front parent symbol d) := by
  obtain ⟨d, hd, rfl⟩ := (h rs).mp (List.mem_of_getElem? hget)
  have hs := (h.mem_subpathsToMerge_iff idx _).mpr
    ⟨d, Finset.mem_filter.mpr ⟨hd, hall.2.2 d hd⟩, rfl, hget⟩
  exact ⟨d, (h.absorbs_iff hkey hD htwo inter idx _).mpr ⟨rfl, hall, hs⟩⟩

theorem IsFamily.mem_merged_iff (h : IsFamily inter front parent symbol D rss)
    (hkey : symbol ∈ G.keys) (hD : D ⊆ (G.numbersOf symbol).toFinset) (htwo : 2 ≤ D.card)
    (hall : MergesAll G inter front parent symbol D) (hparent : parent ∈ G.keys)
    {merged : List RuleSet} (hrun : mergeRules G order rss = some merged) (rs : RuleSet) :
    rs ∈ merged ↔ ∃ a ∈ G.alternatives parent, symbol ∈ a.expansion ∧
      rs = insert (parentSeq front parent a.derivNum) inter := by
  have hsubpaths : ∀ d, parentSubpaths G (familySeq front parent symbol d) =
      some (((G.alternatives parent).filter fun a => symbol ∈ a.expansion).map fun a =>
        parentSeq front parent a.derivNum) := fun d => by
    rw [parentSubpaths_familySeq, Grammar.get?_of_mem_keys hparent, Option.map_some]
  rw [(mergeRules_spec hrun).1 rs]
  constructor
  · rintro (⟨inter', idx, s, subpaths, sp, habs, hp, hsp, rfl⟩ | ⟨idx, hget, hno⟩)
    · obtain ⟨rfl, -, hs⟩ := (h.absorbs_iff hkey hD htwo inter' idx s).mp habs
      obtain ⟨d, -, rfl, -⟩ := (h.mem_subpathsToMerge_iff idx s).mp hs
      obtain rfl := Option.some.inj ((hsubpaths d).symm.trans hp)
      obtain ⟨a, ha, rfl⟩ := List.mem_map.mp hsp
      obtain ⟨ha, hin⟩ := List.mem_filter.mp ha
      exact ⟨a, ha, of_decide_eq_true hin, rfl⟩
    · obtain ⟨d, habs⟩ := h.absorbs_of_getElem? hkey hD htwo hall hget
      exact absurd habs (hno inter _)
  · rintro ⟨a, ha, hin, rfl⟩
    obtain ⟨rs, hrs⟩ := h.exists_mem htwo
    obtain ⟨idx, hget⟩ := List.mem_iff_getElem?.mp hrs
    obtain ⟨d, habs⟩ := h.absorbs_of_getElem? hkey hD htwo hall hget
    exact Or.inl ⟨inter, idx, _, _, _, habs, hsubpaths d,
      List.mem_map.mpr ⟨a, List.mem_filter.mpr ⟨ha, decide_eq_true hin⟩, rfl⟩, rfl⟩

theorem IsFamily.replaced_iff (order : MergeOrder) (h : IsFamily inter front parent symbol D rss)
    (hkey : symbol ∈ G.keys) (hD : D ⊆ (G.numbersOf symbol).toFinset) (htwo : 2 ≤ D.card) :
    ReplacedByParent G order inter front parent symbol rss ↔
      MergesAll G inter front parent symbol D ∧ G.Edge parent symbol := by
  constructor
  · rintro ⟨merged, hrun, hne, hgone, hexact⟩
    obtain ⟨new, hnew⟩ := List.exists_mem_of_ne_nil _ hne
    obtain ⟨a, ha, hin, -⟩ := (hexact new).mp hnew
    refine ⟨?_, a, ha, hin⟩
    by_contra hnot
    rw [h.mergeRules_unchanged hkey hD htwo hnot] at hrun
    obtain rfl := Option.some.inj hrun
    exact hgone new hnew hnew
  · rintro ⟨hall, hedge⟩
    have hparent := hedge.left_mem_keys
    obtain ⟨merged, hrun⟩ := (mergeRules_returns_iff_defined order
      (h.lastSymbol_mem_keys hkey)).mpr fun inter' idx s habs => by
        obtain ⟨rfl, -, hs⟩ := (h.absorbs_iff hkey hD htwo inter' idx s).mp habs
        obtain ⟨d, -, rfl, -⟩ := (h.mem_subpathsToMerge_iff idx s).mp hs
        exact ⟨_, by rw [parentSubpaths_familySeq, Grammar.get?_of_mem_keys hparent]; rfl⟩
    have hmem := h.mem_merged_iff hkey hD htwo hall hparent hrun
    refine ⟨merged, hrun, ?_, fun rs hrs hin => ?_, hmem⟩
    · obtain ⟨a, ha, hsym⟩ := hedge
      exact List.ne_nil_of_mem ((hmem _).mpr ⟨a, ha, hsym, rfl⟩)
    · obtain ⟨d, hd, rfl⟩ := (h rs).mp hrs
      obtain ⟨a, -, -, he⟩ := (hmem _).mp hin
      have hself := Finset.mem_insert_self (familySeq front parent symbol d) inter
      rw [he, Finset.mem_insert] at hself
      exact hself.elim familySeq_ne_parentSeq (hall.2.2 d hd)

structure MergesExactly (G : Grammar) (order : MergeOrder) (inter : RuleSet) (front : List Sym)
    (parent symbol : Sym) (D : Finset ℕ) (rss : List RuleSet) : Prop where
  replaced_iff : ReplacedByParent G order inter front parent symbol rss ↔
    D = (G.numbersOf symbol).toFinset
  unchanged : D ≠ (G.numbersOf symbol).toFinset → mergeRules G order rss = some rss

end Merge

/-- A family that misses a number is left alone. One with all numbers is replaced exactly if no two
    alternatives share a number, no sequence of it is in the common part, and the parent has an
    alternative with the symbol. -/
theorem mergeRules_family_iff (G : Grammar) (order : MergeOrder) (inter : RuleSet)
    (front : List Sym) (parent symbol : Sym) (D : Finset ℕ) (rss : List RuleSet)
    (hD : D ⊆ (G.numbersOf symbol).toFinset) (htwo : 2 ≤ D.card)
    (h : IsFamily inter front parent symbol D rss) :
    MergesExactly G order inter front parent symbol D rss ↔
      (D = (G.numbersOf symbol).toFinset → (G.numbersOf symbol).Nodup ∧
        (∀ d ∈ D, familySeq front parent symbol d ∉ inter) ∧ G.Edge parent symbol) := by
  have hkey : symbol ∈ G.keys := by
    obtain ⟨d, hd⟩ := Finset.card_pos.mp (Nat.lt_of_lt_of_le Nat.zero_lt_two htwo)
    obtain ⟨a, ha, -⟩ := List.mem_map.mp (List.mem_toFinset.mp (hD hd))
    exact Grammar.mem_keys_of_mem_alternatives ha
  have hreplaced := h.replaced_iff order hkey hD htwo
  constructor
  · intro hexact hnumbers
    obtain ⟨⟨-, hnodup, hnew⟩, hedge⟩ := hreplaced.mp (hexact.replaced_iff.mpr hnumbers)
    exact ⟨hnodup, hnew, hedge⟩
  · intro hcond
    refine ⟨hreplaced.trans ⟨fun hmerged => hmerged.1.1, fun hnumbers => ?_⟩, fun hmiss =>
      h.mergeRules_unchanged hkey hD htwo fun hall => hmiss hall.1⟩
    obtain ⟨hnodup, hnew, hedge⟩ := hcond hnumbers
    exact ⟨⟨hnumbers, hnodup, hnew⟩, hedge⟩

/-- `x` and `x x` have the same words. -/
def repeatLines : List Text :=
  ["outer = inner @@ 1.0;\n".toList, "inner = x @@ 0.5 | y @@ 0.5 | x x @@ 0.5;\n".toList]

def repeatGrammar : Grammar :=
  grammarOf ((parseBnf some splitWords sampleFloat repeatLines).getD Map.empty)

theorem repeatRules_captured : ∀ rs ∈ innerRules, ∀ s ∈ rs, Captured repeatGrammar s :=
  innerRules_captured (by decide +kernel) (by decide +kernel)

theorem innerRules_family : IsFamily ∅ [] "outer" "inner" {0, 1} innerRules := by
  intro rs
  simp only [innerRules, List.mem_cons, List.not_mem_nil, or_false, Finset.mem_insert,
    Finset.mem_singleton, exists_eq_or_imp, exists_eq_left]
  rfl

/-- Both numbers of `inner` are there, and the family is returned unchanged, as `inner` has three
    alternatives. -/
theorem mergeRules_keeps_complete_family :
    (parseBnf some splitWords sampleFloat repeatLines).isSome = true ∧
    (∀ rs ∈ innerRules, ∀ s ∈ rs, Captured repeatGrammar s) ∧
    IsFamily ∅ [] "outer" "inner" {0, 1} innerRules ∧
    repeatGrammar.numbersOf "inner" = [0, 1, 0] ∧
    mergeRules repeatGrammar listedOrder innerRules = some innerRules ∧
    ¬ MergesExactly repeatGrammar listedOrder ∅ [] "outer" "inner" {0, 1} innerRules := by
  have hnumbers : repeatGrammar.numbersOf "inner" = [0, 1, 0] := by decide +kernel
  have hrun : mergeRules repeatGrammar listedOrder innerRules = some innerRules := by
    decide +kernel
  refine ⟨by decide +kernel, repeatRules_captured, innerRules_family, hnumbers, hrun, fun h => ?_⟩
  obtain ⟨merged, hmerged, -, hgone, -⟩ := h.replaced_iff.mpr (by rw [hnumbers]; decide)
  obtain rfl := Option.some.inj (hrun.symm.trans hmerged)
  exact hgone {innerSeq 0} (by simp [innerRules]) (by simp [innerRules])

theorem mergeRules_family_iff_inner :
    MergesExactly gapGrammar listedOrder ∅ [] "outer" "inner" {0, 1} innerRules :=
  (mergeRules_family_iff gapGrammar listedOrder ∅ [] "outer" "inner" {0, 1} innerRules (by decide)
    (by decide) innerRules_family).mpr fun _ => ⟨by decide, by simp, by decide⟩

end RSFuzz
