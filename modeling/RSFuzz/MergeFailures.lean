import RSFuzz.RuleMerging

set_option autoImplicit false

/-!
# When merging fails

`merge_rules` reads the symbol two places before the derivation number of a
sequence it merges. A sequence trimmed to the start symbol has none.
-/
namespace RSFuzz
open OrderedMap OptionFold Subsequence

/-- The rules are of one size and differ in one sequence each. -/
def MeetIn (rs1 rs2 inter : RuleSet) : Prop :=
  rs1.card = rs2.card ∧ (rs1 ∩ rs2).card + 1 = rs1.card ∧ inter = rs1 ∩ rs2

instance (rs1 rs2 inter : RuleSet) : Decidable (MeetIn rs1 rs2 inter) :=
  inferInstanceAs (Decidable (_ ∧ _ ∧ _))

theorem MeetIn.symm {rs1 rs2 inter : RuleSet} (h : MeetIn rs1 rs2 inter) : MeetIn rs2 rs1 inter := by
  obtain ⟨hcard, hinter, rfl⟩ := h
  refine ⟨hcard.symm, ?_, Finset.inter_comm rs1 rs2⟩
  rw [Finset.inter_comm, hinter, hcard]

theorem MeetIn.irrefl {rs inter : RuleSet} : ¬ MeetIn rs rs inter := by
  rintro ⟨-, hcard, -⟩
  rw [Finset.inter_self] at hcard
  omega

theorem mem_addIntersection (rs1 rs2 inter : RuleSet) (inters : List RuleSet) :
    inter ∈ addIntersection rs1 inters rs2 ↔ inter ∈ inters ∨ MeetIn rs1 rs2 inter := by
  unfold addIntersection MeetIn
  simp only
  split_ifs with hcard hin
  · constructor
    · exact Or.inl
    · rintro (h | ⟨-, -, rfl⟩)
      · exact h
      · exact hin
  · simp [hcard]
  · constructor
    · exact Or.inl
    · rintro (h | ⟨hsize, hinter, -⟩)
      · exact h
      · exact absurd ⟨hsize, hinter⟩ hcard

theorem mem_foldl_addIntersection (rs1 inter : RuleSet) (rest inters : List RuleSet) :
    inter ∈ rest.foldl (addIntersection rs1) inters ↔
      inter ∈ inters ∨ ∃ rs2 ∈ rest, MeetIn rs1 rs2 inter := by
  induction rest generalizing inters with
  | nil => simp
  | cons rs2 rest ih => rw [List.foldl_cons, ih, mem_addIntersection, List.exists_mem_cons_iff, or_assoc]

theorem mem_intersections (inter : RuleSet) (rss inters : List RuleSet) :
    inter ∈ intersections rss inters ↔
      inter ∈ inters ∨ ∃ rs1 ∈ rss, ∃ rs2 ∈ rss, MeetIn rs1 rs2 inter := by
  induction rss generalizing inters with
  | nil => simp [intersections]
  | cons rs rest ih =>
    rw [intersections, ih, mem_foldl_addIntersection, or_assoc]
    refine or_congr_right ?_
    constructor
    · rintro (⟨rs2, h2, hmeet⟩ | ⟨rs1, h1, rs2, h2, hmeet⟩)
      · exact ⟨rs, by simp, rs2, List.mem_cons_of_mem _ h2, hmeet⟩
      · exact ⟨rs1, List.mem_cons_of_mem _ h1, rs2, List.mem_cons_of_mem _ h2, hmeet⟩
    · -- only pairs in the order of the list are tried, but meeting is symmetric
      rintro ⟨rs1, h1, rs2, h2, hmeet⟩
      rcases List.mem_cons.mp h1 with he1 | hin1 <;> rcases List.mem_cons.mp h2 with he2 | hin2
      · subst he1 he2
        exact absurd hmeet MeetIn.irrefl
      · subst he1
        exact Or.inl ⟨rs2, hin2, hmeet⟩
      · subst he2
        exact Or.inl ⟨rs1, hin1, hmeet.symm⟩
      · exact Or.inr ⟨rs1, hin1, rs2, hin2, hmeet⟩

theorem Captured.mem_keys {G : Grammar} {s : Sequence} (h : Captured G s) :
    ∀ A ∈ s.symbols, A ∈ G.keys := by
  intro A hA
  obtain ⟨l, r, hsplit⟩ := List.append_of_mem hA
  cases r with
  | nil =>
    obtain ⟨b, hb, -⟩ := h.exists_alternative
    have hlast := s.getLast?_symbols
    rw [hsplit, List.getLast?_concat] at hlast
    rw [Option.some.inj hlast]
    exact Grammar.mem_keys_of_mem_alternatives hb
  | cons B r =>
    have hchain := h.isChain_edge
    rw [hsplit, List.isChain_append] at hchain
    exact (List.isChain_cons_cons.mp hchain.2.1).1.left_mem_keys

theorem Captured.parentSubpaths_eq_none_iff {G : Grammar} {s : Sequence} (h : Captured G s) :
    parentSubpaths G s = none ↔ s.symbols.dropLast = [] := by
  unfold parentSubpaths
  split_ifs with hne
  · have hin := h.mem_keys _ (List.mem_of_mem_dropLast (List.getLast_mem hne))
    rw [Grammar.get?_of_mem_keys hin]
    simp [hne]
  · simpa using hne

theorem mergeSubpath_returns {G : Grammar} {stm : List (ℕ × Sequence)} {item : ℕ × Sequence}
    (hkey : item.2.lastSymbol ∈ G.keys)
    (hdef : Complete G stm item.2 → ∃ subpaths, parentSubpaths G item.2 = some subpaths)
    (acc : Finset ℕ × List Sequence) : ∃ acc', mergeSubpath G stm acc item = some acc' := by
  have hget := Grammar.get?_of_mem_keys hkey
  simp only [mergeSubpath, hget, Option.bind_eq_bind, Option.bind_some]
  split_ifs with hc
  · obtain ⟨subpaths, hp⟩ := hdef ⟨_, hget, hc⟩
    exact ⟨_, by rw [hp]; rfl⟩
  · exact ⟨acc, rfl⟩

theorem mergeRules_returns_iff_defined {G : Grammar} (order : MergeOrder) {rss : List RuleSet}
    (hkey : ∀ inter ∈ intersections rss [], ∀ idx s, (idx, s) ∈ subpathsToMerge rss inter →
      s.lastSymbol ∈ G.keys) :
    (∃ merged, mergeRules G order rss = some merged) ↔
      ∀ inter idx s, Absorbs G rss inter idx s → ∃ subpaths, parentSubpaths G s = some subpaths := by
  constructor
  · rintro ⟨merged, hrun⟩
    exact (mergeRules_spec hrun).2
  · intro hdef
    have hitem : ∀ inter ∈ intersections rss [], ∀ acc : Finset ℕ × List RuleSet,
        ∃ acc', mergeIntersection G order rss acc inter = some acc' := by
      intro inter hinter acc
      obtain ⟨found, hfound, -⟩ := foldlM_returns (f := mergeSubpath G (subpathsToMerge rss inter))
        (fun _ _ => True) (order.toMerge.list (subpathsToMerge rss inter))
        (fun _ item acc hmem _ => by
          have hs := order.toMerge.mem_list.mp hmem
          obtain ⟨acc', hacc'⟩ := mergeSubpath_returns (hkey inter hinter item.1 item.2 hs)
            (fun hc => hdef inter item.1 item.2 ⟨hinter, hs, hc⟩) acc
          exact ⟨acc', hacc', trivial⟩)
        (b := (acc.1, [])) trivial
      exact ⟨_, by simp only [mergeIntersection, hfound, Option.bind_eq_bind, Option.bind_some]; rfl⟩
    obtain ⟨acc, hacc, -⟩ := foldlM_returns (f := mergeIntersection G order rss) (fun _ _ => True)
      (intersections rss []) (fun _ inter acc hmem _ => by
        obtain ⟨acc', hacc'⟩ := hitem inter hmem acc
        exact ⟨acc', hacc', trivial⟩) (b := (∅, [])) trivial
    exact ⟨_, by simp only [mergeRules, hacc, Option.bind_eq_bind, Option.bind_some]; rfl⟩

theorem mergeRules_of_not_absorbs {G : Grammar} {order : MergeOrder} {rss : List RuleSet}
    (hkey : ∀ inter ∈ intersections rss [], ∀ idx s, (idx, s) ∈ subpathsToMerge rss inter →
      s.lastSymbol ∈ G.keys)
    (hno : ∀ inter idx s, ¬ Absorbs G rss inter idx s) : mergeRules G order rss = some rss := by
  obtain ⟨merged, hrun⟩ := (mergeRules_returns_iff_defined order hkey).mpr
    fun inter idx s habs => absurd habs (hno inter idx s)
  rw [hrun]
  simp only [mergeRules, Option.bind_eq_bind, Option.pure_def] at hrun
  obtain ⟨acc, hacc, he⟩ := Option.bind_eq_some_iff.mp hrun
  obtain rfl := Option.some.inj he
  obtain ⟨hidx, hmerged, -⟩ := foldlM_mergeIntersection hacc
  have hnone : acc.2 = [] := List.eq_nil_iff_forall_not_mem.mpr fun rs hrs => by
    obtain ⟨inter, idx, s, -, -, habs, -⟩ := (hmerged rs).mp hrs
    exact hno inter idx s habs
  have hkeep : ∀ p ∈ rss.zipIdx, decide (p.2 ∉ acc.1) = true := fun p _ => decide_eq_true fun hp => by
    obtain ⟨inter, s, habs⟩ := (hidx p.2).mp hp
    exact hno inter p.2 s habs
  rw [hnone, List.filter_eq_self.mpr hkeep, List.nil_append, List.zipIdx_map_fst]

def rootSeq (S : Sym) (d : ℕ) : Sequence := ⟨[S], d, List.cons_ne_nil S []⟩

/-- Two rules meet in a set that leaves of further rules one number each of a symbol alone, and
    these are the numbers of all its alternatives. -/
def RootFamily (G : Grammar) (rss : List RuleSet) : Prop :=
  ∃ rs1 ∈ rss, ∃ rs2 ∈ rss, ∃ inter S, MeetIn rs1 rs2 inter ∧ G.alternatives S ≠ [] ∧
    ((G.alternatives S).map Alternative.derivNum).Nodup ∧
    ∀ a ∈ G.alternatives S, ∃ rs ∈ rss, rs \ inter = {rootSeq S a.derivNum}

theorem rootFamily_iff {G : Grammar} {rss : List RuleSet}
    (hcap : ∀ rs ∈ rss, ∀ s ∈ rs, Captured G s) :
    RootFamily G rss ↔ ∃ inter idx s, Absorbs G rss inter idx s ∧ s.symbols.dropLast = [] := by
  constructor
  · rintro ⟨rs1, h1, rs2, h2, inter, S, hmeet, hne, hnodup, hall⟩
    obtain ⟨a, ha⟩ := List.exists_mem_of_ne_nil _ hne
    have hitem : ∀ b ∈ G.alternatives S,
        ∃ i, (i, rootSeq S b.derivNum) ∈ subpathsToMerge rss inter := by
      intro b hb
      obtain ⟨rs, hrs, hsingle⟩ := hall b hb
      obtain ⟨i, hi⟩ := List.mem_iff_getElem?.mp hrs
      exact ⟨i, mem_subpathsToMerge.mpr ⟨rs, hi, hsingle⟩⟩
    obtain ⟨idx, hidx⟩ := hitem a ha
    refine ⟨inter, idx, rootSeq S a.derivNum,
      ⟨(mem_intersections _ _ _).mpr (Or.inr ⟨rs1, h1, rs2, h2, hmeet⟩), hidx, ?_⟩, rfl⟩
    refine (complete_iff hcap hidx (Grammar.mem_keys_of_mem_alternatives ha)).mpr
      ⟨hnodup, fun b hb => ?_⟩
    obtain ⟨i, hi⟩ := hitem b hb
    exact ⟨i, _, hi, rfl, rfl⟩
  · rintro ⟨inter, idx, s, ⟨hinter, hs, hcomplete⟩, hroot⟩
    have hsyms : s.symbols = [s.lastSymbol] := by
      rw [← s.dropLast_append_lastSymbol, hroot, List.nil_append]
    obtain ⟨rs1, h1, rs2, h2, hmeet⟩ := ((mem_intersections _ _ _).mp hinter).resolve_left (by simp)
    obtain ⟨b, hb, -⟩ := (captured_of_mem_subpathsToMerge hcap hs).exists_alternative
    obtain ⟨hnodup, hcover⟩ :=
      (complete_iff hcap hs (Grammar.mem_keys_of_mem_alternatives hb)).mp hcomplete
    refine ⟨rs1, h1, rs2, h2, inter, s.lastSymbol, hmeet, List.ne_nil_of_mem hb, hnodup,
      fun a ha => ?_⟩
    obtain ⟨i, x, hx, hxsym, hxd⟩ := hcover a ha
    obtain ⟨rs', hrs', hsingle'⟩ := mem_subpathsToMerge.mp hx
    refine ⟨rs', List.mem_of_getElem? hrs', ?_⟩
    rw [hsingle', show x = rootSeq s.lastSymbol a.derivNum from
      Sequence.ext (hxsym.trans hsyms) hxd]

/-- On captured sequences merging returns exactly if no such family of rules is there. -/
theorem mergeRules_returns_iff (G : Grammar) (order : MergeOrder) (rss : List RuleSet)
    (hcap : ∀ rs ∈ rss, ∀ s ∈ rs, Captured G s) :
    (∃ merged, mergeRules G order rss = some merged) ↔ ¬ RootFamily G rss := by
  have hkey : ∀ inter ∈ intersections rss [], ∀ idx s, (idx, s) ∈ subpathsToMerge rss inter →
      s.lastSymbol ∈ G.keys :=
    fun inter _ idx s hs => (captured_of_mem_subpathsToMerge hcap hs).mem_keys _
      (List.mem_of_getLast? s.getLast?_symbols)
  rw [mergeRules_returns_iff_defined order hkey, rootFamily_iff hcap]
  have hcaps : ∀ inter idx s, Absorbs G rss inter idx s → Captured G s :=
    fun inter idx s habs => captured_of_mem_subpathsToMerge hcap habs.2.1
  constructor
  · rintro hdef ⟨inter, idx, s, habs, hroot⟩
    obtain ⟨subpaths, hp⟩ := hdef inter idx s habs
    rw [(hcaps inter idx s habs).parentSubpaths_eq_none_iff.mpr hroot] at hp
    cases hp
  · intro hno inter idx s habs
    refine Option.ne_none_iff_exists'.mp fun hnone => hno ⟨inter, idx, s, habs, ?_⟩
    exact (hcaps inter idx s habs).parentSubpaths_eq_none_iff.mp hnone

def emptyOrFile : Grammar :=
  ⟨[("start", [⟨["''"], 0, 1⟩, ⟨["csvFile"], 1, 1⟩]), ("csvFile", [⟨["row"], 0, 1⟩])], by decide⟩

def startRules : List RuleSet := [{rootSeq "start" 0}, {rootSeq "start" 1}]

theorem startRules_captured : ∀ rs ∈ startRules, ∀ s ∈ rs, Captured emptyOrFile s := by
  have hrun : ∀ dn < 2, ((InputGenerator.mk emptyOrFile Map.empty ⟨"start", 9⟩ Tables.empty).generateTree
      ⟨fun depth _ => if depth = 0 then dn * 2 ^ 52 else 0, fun _ => 0⟩ 3).bind
      (fun st => dtToSequences emptyOrFile IterationOrder.listed st.tree 9) =
        some [(rootSeq "start" dn).entries] := by
    decide +kernel
  have hcap : ∀ dn < 2, Captured emptyOrFile (rootSeq "start" dn) := fun dn hdn =>
    captured_of_run (g := ⟨emptyOrFile, Map.empty, ⟨"start", 9⟩, Tables.empty⟩) (by decide)
      (hrun dn hdn) (by simp)
  intro rs hrs s hs
  rcases List.mem_cons.mp hrs with rfl | hrs
  · rw [Finset.mem_singleton.mp hs]
    exact hcap 0 (by decide)
  · obtain rfl := List.mem_singleton.mp hrs
    rw [Finset.mem_singleton.mp hs]
    exact hcap 1 (by decide)

/-- The two alternatives of the start symbol, each a rule, make merging fail. -/
theorem mergeRules_fails : (∀ rs ∈ startRules, rs ≠ ∅) ∧
    (∀ rs ∈ startRules, ∀ s ∈ rs, Captured emptyOrFile s) ∧
    mergeRules emptyOrFile listedOrder startRules = none :=
  ⟨by decide, startRules_captured, by decide⟩

theorem mergeRules_returns_iff_inner :
    mergeRules gapGrammar listedOrder innerRules = some [outerRule] ∧
      ¬ RootFamily gapGrammar innerRules ∧ RootFamily emptyOrFile startRules := by
  have hmerged : mergeRules gapGrammar listedOrder innerRules = some [outerRule] := by decide
  refine ⟨hmerged, (mergeRules_returns_iff gapGrammar listedOrder innerRules
    gapRules_captured).mp ⟨_, hmerged⟩, ?_⟩
  by_contra hno
  obtain ⟨merged, hrun⟩ := (mergeRules_returns_iff emptyOrFile listedOrder startRules
    startRules_captured).mpr hno
  have hraises : mergeRules emptyOrFile listedOrder startRules = none := by decide
  rw [hraises] at hrun
  cases hrun

end RSFuzz
