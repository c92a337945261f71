import RSFuzz.CaptureRecognition
import RSFuzz.RuleTables

set_option autoImplicit false

/-!
# The record of a run and a scan of its tree

`tmp_sub_seqs` is filled while levels are still being rewritten. When the tree
is finished it holds exactly what a scan of the finished tree finds, for all
tables and both generators, and whatever the run did on the way.
-/
namespace RSFuzz
open OrderedMap Subsequence InputGenerator

/-- What a scan of the tree looks for: a node `(S, range, d, ..)` whose root path has the
    registered prefix as a subsequence that ends at the node. -/
def Tree.Holds (tree : Tree) (S : Sym) (d : ℕ) (p : List Sym) : Prop :=
  ∃ pos node a b path, tree.node? pos = some node ∧ node.symbol = S ∧
    node.children = .range a b ∧ node.dn = ((d : ℕ) : ℤ) ∧ tree.RootPath pos path ∧
    p.Sublist path ∧ ∀ last, p.getLast? = some last → last = node.symbol

theorem matches_iff_ends {p path : List Sym} {S : Sym} (hS : path.getLast? = some S) :
    Matches p path ↔ p.Sublist path ∧ ∀ last, p.getLast? = some last → last = S := by
  rcases List.eq_nil_or_concat p with rfl | ⟨front, x, rfl⟩
  · simp [Matches]
  · simp [Matches, EndsIn, hS]

theorem recordedBy_expanded_iff {t : Tables} {tree : Tree} {k : ℕ} :
    (∃ e ∈ tree.expanded, t.RecordedBy e k) ↔
      ∃ S d p, t.idOf? S d p = some k ∧ tree.Holds S d p := by
  constructor
  · rintro ⟨⟨path, d⟩, ⟨pos, node, a, b, hn, hc, hd, hpath⟩, S, p, hS, hk, hm⟩
    obtain rfl : node.symbol = S := Option.some.inj ((hpath.getLast? hn).symm.trans hS)
    exact ⟨_, d, p, hk, pos, node, a, b, path, hn, rfl, hc, hd, hpath, (matches_iff_ends hS).mp hm⟩
  · rintro ⟨S, d, p, hk, pos, node, a, b, path, hn, rfl, hc, hd, hpath, hm⟩
    have hS := hpath.getLast? hn
    exact ⟨(path, d), ⟨pos, node, a, b, hn, hc, hd, hpath⟩, _, p, hS, hk,
      (matches_iff_ends hS).mpr hm⟩

section Start

variable {g : InputGenerator}

/-- The first level expanded is the start rule, and looking it up raises outside the grammar. -/
theorem expandLevel_initial {select : Selector} (hsel : SelectsAlternative g select)
    {st : GenState} {slot : Option ℕ}
    (hrun : expandLevel g.tables select g.initial = some (st, slot)) :
    g.config.startRule ∈ g.grammar.keys := by
  simp only [expandLevel, initial, List.getLast?_singleton, Option.bind_eq_bind, Option.bind_some,
    Option.bind_eq_some_iff, expandNodes] at hrun
  obtain ⟨-, ⟨ls, hls, -⟩, -⟩ := hrun
  obtain ⟨hne, -⟩ | ⟨-, sel, -, hs, -⟩ := expandNode_cases hls
  · exact absurd rfl hne
  · obtain ⟨alt, halt, -⟩ := hsel _ _ _ _ _ hs
    by_contra hkey
    rw [Grammar.alternatives, (Map.get?_eq_none_iff _ _).mpr hkey] at halt
    simp at halt

theorem Steps.initial_or_start {S : Selector → Prop}
    (hsel : ∀ s, S s → SelectsAlternative g s) {st : GenState} (h : Steps g S st) :
    st = g.initial ∨ g.config.startRule ∈ g.grammar.keys := by
  induction h with
  | initial => exact Or.inl rfl
  | level _ hs hrun ih =>
    rcases ih with rfl | hkey
    · exact Or.inr (expandLevel_initial (hsel _ hs) hrun)
    · exact Or.inr hkey

theorem InputGenerator.Produces.start_mem {st : GenState} (h : g.Produces st) :
    g.config.startRule ∈ g.grammar.keys := by
  have key : g.Reachable st → anyPossibleExpansions (lastLevel st) = false →
      g.config.startRule ∈ g.grammar.keys := by
    intro hr hexit
    rcases hr.steps.initial_or_start fun _ hs => hs.selectsAlternative with rfl | hkey
    · cases hexit
    · exact hkey
  cases h with
  | plain h => exact key (generateTree_steps h).2.1 (generateTree_steps h).2.2
  | tribble h =>
    exact key (TribbleGenerator.generateTree_reachable h).1
      (TribbleGenerator.generateTree_reachable h).2

end Start

/-- When a tree is finished, by either generator and with any tables, the ids recorded on the
    way are those that a scan of the finished tree finds. -/
theorem record_exact (g : InputGenerator) (st : GenState) (hst : g.Produces st) :
    st.tree.Closed ∧
    ∀ k, k ∈ st.seen ↔ ∃ S d p, g.tables.idOf? S d p = some k ∧ st.tree.Holds S d p := by
  obtain ⟨hinv, hclosed⟩ := hst.closed hst.start_mem
  exact ⟨hclosed, fun k => (hinv.seenExact k).trans recordedBy_expanded_iff⟩

def recordGenerator : InputGenerator where
  grammar := sampleGrammar
  depthsDict := sampleGenerator.depthsDict
  config := sampleGenerator.config
  tables := buildTables [[⟨["list", "list"], 1, by decide⟩, ⟨["list", "item"], 5, by decide⟩]]

theorem record_exact_sample :
    ∃ st, recordGenerator.generateTree ⟨fun _ _ => 0, fun _ => 0⟩ 3 = some st ∧ st.seen = {0} ∧
      st.tree.Closed ∧ ∀ k, k ∈ st.seen ↔
        ∃ S d p, recordGenerator.tables.idOf? S d p = some k ∧ st.tree.Holds S d p := by
  have hrun : (recordGenerator.generateTree ⟨fun _ _ => 0, fun _ => 0⟩ 3).map GenState.seen =
      some {0} := by
    decide +kernel
  obtain ⟨st, hst, hseen⟩ := Option.map_eq_some_iff.mp hrun
  exact ⟨st, hst, hseen, record_exact recordGenerator st (.plain hst)⟩

end RSFuzz
