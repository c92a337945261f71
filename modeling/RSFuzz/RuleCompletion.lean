import RSFuzz.LoopInvariant
import RSFuzz.RuleAvoidance

set_option autoImplicit false

/-!
# How an input comes to realise a rule

A finished tree realises a rule of its generator through one expansion, which
adds all that the rule still missed: several sequences at once, or with a number
that pruning had taken away. In the closed loop this is the only way in which a
rule captured before is met again.
-/
namespace RSFuzz
open OrderedMap Subsequence TableState OptionFold Fuel ClusterTables

namespace Expansion

/-- The expansion adds all that the rule still missed. -/
def Completes (e : Expansion) (rule : Rule) : Prop :=
  (∃ s ∈ rule, e.Missing s) ∧ ∀ s ∈ rule, e.Missing s → e.Adds s

/-- The number taken is one that `prune_children` returns for the node. -/
def TakesPruned (g : InputGenerator) (e : Expansion) : Prop :=
  g.PrunedAt e.tree e.pos.2 e.symbol e.seen e.derivNum

end Expansion

section Step

variable {g : InputGenerator} {rules : List Rule} {reg : List Sequence} {select : Selector}
  {e : Expansion} {path : List Sym} {sel : Selection} {seen' : Finset ℕ}
  (hg : g.tables = buildTables rules) (h : Encodes (rules.foldl addRule empty) rules reg)
  (hat : ExpandedAt g select e path sel seen')

include hat in
theorem ExpandedAt.adds_iff (s : Sequence) :
    e.Adds s ↔ s.dn = e.derivNum ∧ EndsIn s.symbols path := by
  constructor
  · rintro ⟨path', hpath, hdn, hend⟩
    obtain rfl := hpath.unique hat.rootPath
    exact ⟨hdn, hend⟩
  · rintro ⟨hdn, hend⟩
    exact ⟨path, hat.rootPath, hdn, hend⟩

include hg h hat

theorem ExpandedAt.mem_seen_iff {k : ℕ} {s : Sequence} (hk : reg[k]? = some s) :
    k ∈ e.seen ↔ ¬ e.Missing s := by
  have hexact : SeenExact (buildTables rules) e.tree e.seen := hg ▸ hat.seenBefore
  rw [RSFuzz.mem_seen_iff h hk hexact, Expansion.Missing, not_not]

theorem ExpandedAt.mem_seen_after_iff {k : ℕ} {s : Sequence} (hk : reg[k]? = some s) :
    k ∈ seen' ↔ (e.Missing s → e.Adds s) := by
  rw [hat.seenAfter, hat.mem_seen_iff hg h hk, hg, recordedBy_iff h hk, hat.adds_iff]
  exact imp_iff_not_or.symm

variable {rule : Rule} (hr : rule ∈ rules)

include hr

theorem ExpandedAt.completes_iff :
    e.Completes rule ↔ ¬ idsOf reg rule ⊆ e.seen ∧ idsOf reg rule ⊆ seen' := by
  have hid : ∀ s ∈ rule, ∃ k ∈ idsOf reg rule, reg[k]? = some s := by
    intro s hs
    obtain ⟨k, hk⟩ := List.mem_iff_getElem?.mp ((h.mem s).mpr ⟨rule, hr, hs⟩)
    exact ⟨k, mem_idsOf.mpr ⟨s, hs, hk⟩, hk⟩
  refine and_congr ⟨?_, ?_⟩ ⟨?_, ?_⟩
  · rintro ⟨s, hs, hmissing⟩ hsub
    obtain ⟨k, hin, hk⟩ := hid s hs
    exact (hat.mem_seen_iff hg h hk).mp (hsub hin) hmissing
  · intro hsub
    obtain ⟨k, hin, hout⟩ := Finset.not_subset.mp hsub
    obtain ⟨s, hs, hk⟩ := mem_idsOf.mp hin
    exact ⟨s, hs, not_not.mp fun hmissing => hout ((hat.mem_seen_iff hg h hk).mpr hmissing)⟩
  · intro hall k hin
    obtain ⟨s, hs, hk⟩ := mem_idsOf.mp hin
    exact (hat.mem_seen_after_iff hg h hk).mpr (hall s hs)
  · intro hsub s hs
    obtain ⟨k, hin, hk⟩ := hid s hs
    exact (hat.mem_seen_after_iff hg h hk).mp (hsub hin)

theorem ExpandedAt.takesPruned (hcompletes : e.Completes rule)
    (hsingle : ¬ e.CompletesSeveral rule) : e.TakesPruned g := by
  obtain ⟨⟨s, hs, hmissing⟩, hall⟩ := hcompletes
  have honly : ∀ s' ∈ rule, e.Missing s' → s' = s := by
    intro s' hs' hmissing'
    by_contra hne
    exact hsingle ⟨⟨s', hs', s, hs, hne, hmissing', hmissing⟩, hall⟩
  obtain ⟨k, hk⟩ := List.mem_iff_getElem?.mp ((h.mem s).mpr ⟨rule, hr, hs⟩)
  have hids : idsOf reg rule \ e.seen = {k} := by
    ext j
    rw [Finset.mem_sdiff, Finset.mem_singleton]
    constructor
    · rintro ⟨hj, hout⟩
      obtain ⟨s', hs', hj⟩ := mem_idsOf.mp hj
      rw [hat.mem_seen_iff hg h hj, not_not] at hout
      exact h.registered.id_unique (honly s' hs' hout ▸ hj) hk
    · rintro rfl
      exact ⟨mem_idsOf.mpr ⟨s, hs, hk⟩, fun hin => (hat.mem_seen_iff hg h hk).mp hin hmissing⟩
  have hrecorded : (buildTables rules).RecordedBy (path, e.derivNum) k :=
    (recordedBy_iff h hk path e.derivNum).mpr ((hat.adds_iff s).mp (hall s hs hmissing))
  exact prunedAt_of_single h hg hr hat.rootPath hat.length hat.symbol hids hrecorded

end Step

/-- What the ids seen and the log say about each rule. -/
structure CompletionLog (g : InputGenerator) (rules : List Rule) (reg : List Sequence)
    (seen : Finset ℕ) (trace : List Expansion) : Prop where
  completed : ∀ rule ∈ rules, idsOf reg rule ⊆ seen ↔ ∃ e ∈ trace, e.Completes rule
  reason : ∀ e ∈ trace, ∀ rule ∈ rules, e.Completes rule →
    e.CompletesSeveral rule ∨ e.TakesPruned g

section Runs

variable {g : InputGenerator} {rules : List Rule} {reg : List Sequence}
  (hg : g.tables = buildTables rules) (h : Encodes (rules.foldl addRule empty) rules reg)

include hg h

theorem ExpandedAt.completionLog {select : Selector} {e : Expansion} {path : List Sym}
    {sel : Selection} {seen' : Finset ℕ} {trace : List Expansion}
    (hat : ExpandedAt g select e path sel seen')
    (hlog : CompletionLog g rules reg e.seen trace) :
    CompletionLog g rules reg seen' (trace ++ [e]) where
  completed := by
    intro rule hr
    have hmono : idsOf reg rule ⊆ e.seen → idsOf reg rule ⊆ seen' := fun hsub k hk =>
      (hat.seenAfter k).mpr (Or.inl (hsub hk))
    rw [exists_mem_concat, ← hlog.completed rule hr, hat.completes_iff hg h hr]
    tauto
  reason := by
    intro e' he' rule hr hc
    rcases List.mem_append.mp he' with he' | he'
    · exact hlog.reason e' he' rule hr hc
    · obtain rfl := List.mem_singleton.mp he'
      exact or_iff_not_imp_left.mpr (hat.takesPruned hg h hr hc)

omit hg in
theorem CompletionLog.initial (hne : ∀ rule ∈ rules, rule ≠ []) :
    CompletionLog g rules reg ∅ [] where
  completed := by
    intro rule hr
    obtain ⟨s, hs⟩ := List.exists_mem_of_ne_nil rule (hne rule hr)
    obtain ⟨k, hk⟩ := List.mem_iff_getElem?.mp ((h.mem s).mpr ⟨rule, hr, hs⟩)
    have hin : k ∈ idsOf reg rule := mem_idsOf.mpr ⟨s, hs, hk⟩
    simp [Finset.ne_empty_of_mem hin]
  reason := by simp

end Runs

section Trees

variable {g : InputGenerator} {st : GenState}

theorem InputGenerator.Produces.realises_iff {rules : List Rule} (hst : g.Produces st)
    (hkeys : g.config.startRule ∈ g.grammar.keys) (hg : g.tables = buildTables rules)
    (hne : ∀ rule ∈ rules, rule ≠ []) : ∀ rule ∈ rules,
    (∀ s ∈ rule, Realises st.tree.expanded s) ↔
      ∃ e ∈ st.trace, e.Completes rule ∧ (e.CompletesSeveral rule ∨ e.TakesPruned g) := by
  obtain ⟨reg, h⟩ := foldl_addRule_encodes rules
  obtain ⟨hinv, hlog⟩ := hst.reachable.1.steps.invariant hkeys
    (fun _ hs => hs.selectsAlternative) (CompletionLog g rules reg)
    (fun select e path sel seen' trace _ hat hq => hat.completionLog hg h hq) (.initial h hne)
  intro rule hr
  rw [← idsOf_subset_iff h hr (hg ▸ hinv.seenExact), hlog.completed rule hr]
  exact exists_congr fun e => and_congr_right fun he =>
    (and_iff_left_of_imp (hlog.reason e he rule hr)).symm

/-- Without a target path a pruned number is taken only where no candidate is left. -/
theorem InputGenerator.generateTree_pruned (hkeys : g.config.startRule ∈ g.grammar.keys)
    {rnd : Choices} {fuel : ℕ} (hrun : g.generateTree rnd fuel = some st) :
    ∀ e ∈ st.trace, e.TakesPruned g → e.candidates = [] := by
  refine ((InputGenerator.generateTree_steps hrun).1.invariant hkeys
    (fun _ hs => hs.selectsAlternative)
    (fun _ trace => ∀ e ∈ trace, e.TakesPruned g → e.candidates = []) ?_ (by simp)).2
  intro select e path sel seen' trace hplain hat hall e' he' hpruned
  rcases List.mem_append.mp he' with he' | he'
  · exact hall e' he' hpruned
  · obtain rfl := List.mem_singleton.mp he'
    by_contra hcand
    rw [hat.candidates] at hcand
    refine hplain.not_pruned hat.selected hcand ?_
    rw [← hat.derivNum]
    exact hpruned

end Trees

theorem nonempty_of_mem_mergeRules {G : Grammar} {order : MergeOrder} {rss merged : List RuleSet}
    (hmerge : mergeRules G order rss = some merged) (hne : ∀ rs ∈ rss, rs.Nonempty) :
    ∀ rs ∈ merged, rs.Nonempty := by
  intro rs hrs
  rcases ((mergeRules_spec hmerge).1 rs).mp hrs with ⟨_, _, _, _, sp, _, _, _, rfl⟩ | ⟨idx, hidx, -⟩
  · exact Finset.insert_nonempty sp _
  · exact hne rs (List.mem_of_getElem? hidx)

theorem nonempty_of_mem_rulesForGenerator {G : Grammar} {order : MergeOrder}
    {recurrentSequences : Map ℕ (List RuleSet)} {rss : List RuleSet}
    (hrss : rulesForGenerator G order recurrentSequences = some rss)
    (hne : ∀ c rules, recurrentSequences.get? c = some rules → ∀ rule ∈ rules, rule.Nonempty) :
    ∀ rs ∈ rss, rs.Nonempty := by
  obtain ⟨merged, hmerge, rfl⟩ := Option.map_eq_some_iff.mp hrss
  intro rs hrs
  have hin := mem_sortedBySize.mp (mem_of_mem_removeIncludedSeqs hrs)
  refine nonempty_of_mem_mergeRules hmerge (fun rs' hrs' => ?_) rs hin
  have hstored := mem_sortedBySize.mp (mem_of_mem_removeIncludedSeqs hrs')
  obtain ⟨rules, hrules, hrule⟩ := List.mem_flatten.mp hstored
  obtain ⟨⟨c, rules'⟩, hentry, rfl⟩ := List.mem_map.mp hrules
  exact hne c rules' ((Map.get?_eq_some_iff _ _ _).mpr hentry) rs' hrule

theorem RuleOrder.mem_list (order : RuleOrder) {rs : RuleSet} {q : Sequence} :
    q ∈ order.list rs ↔ q ∈ rs := by
  rw [← Multiset.mem_coe, order.perm, Finset.mem_val]

/-- In every reachable state of the closed loop, an input in the test case directory realises one
    of the merged rules exactly if an expansion of its tree completed the rule, by several
    sequences at once or with a number that had been pruned; the generators without target paths
    take such a number only where pruning left no candidate. -/
theorem loop_realises_rule_iff {G : Grammar} {start : Sym} (hstart : start ∈ G.keys)
    (hne : G.NoEmptyAlternative) (fuzzer : BaseFuzzer G start) (h : Hashes) (fuel : ℕ)
    (first : LoopIteration fuzzer) (its : List (LoopIteration fuzzer)) (hits : its ≠ [])
    (hlen : ∀ it ∈ its, it.cov.length = first.cov.length) (s : LoopState)
    (hrun : loopRun h fuel first its = some s) :
    ∃ (order : MergeOrder) (ruleOrder : RuleOrder) (rss : List RuleSet),
      rulesForGenerator G order s.rules.recurrentSequences = some rss ∧
      s.tables = buildTables (rss.map ruleOrder.list) ∧
      ∀ item ∈ s.capture.batch, ∃ (g : InputGenerator) (st : GenState),
        g.grammar = G ∧ g.config.startRule = start ∧ g.tables = s.tables ∧ g.Produces st ∧
        item.tree = st.tree ∧
        (∀ rs ∈ rss, (∀ q ∈ rs, Realises item.tree.expanded q) ↔
          ∃ e ∈ st.trace, e.Completes (ruleOrder.list rs) ∧
            (e.CompletesSeveral (ruleOrder.list rs) ∨ e.TakesPruned g)) ∧
        ∀ rnd fuel', g.generateTree rnd fuel' = some st →
          ∀ e ∈ st.trace, e.TakesPruned g → e.candidates = [] := by
  have hok := loopRun_ok hstart hne hlen hrun
  obtain ⟨-, order, ruleOrder, rss, hrss, htables⟩ :=
    hok.current.resolve_left fun hfirst => hits hfirst.1
  refine ⟨order, ruleOrder, rss, hrss, htables, fun item hitem => ?_⟩
  obtain ⟨g, st, rfl, rfl, hg, hst, htree⟩ := hok.generated item hitem
  obtain ⟨inputs, -, hrules⟩ := hok.rules
  have hnonempty := nonempty_of_mem_rulesForGenerator hrss fun c rules hc rule hrule =>
    ((hrules.rules c rules hc).2 rule hrule).1
  have hlists : ∀ rule ∈ rss.map ruleOrder.list, rule ≠ [] := by
    intro rule hrule
    obtain ⟨rs, hrs, rfl⟩ := List.mem_map.mp hrule
    obtain ⟨q, hq⟩ := hnonempty rs hrs
    exact List.ne_nil_of_mem (ruleOrder.mem_list.mpr hq)
  refine ⟨g, st, rfl, rfl, hg, hst, htree, fun rs hrs => ?_, fun rnd fuel' hgen =>
    InputGenerator.generateTree_pruned hstart hgen⟩
  have hiff := hst.realises_iff hstart (hg.trans htables) hlists (ruleOrder.list rs)
    (List.mem_map_of_mem hrs)
  simp only [ruleOrder.mem_list] at hiff
  rw [htree]
  exact hiff

theorem loop_realises_rule_iff_sample : ∃ s,
    loopRun ClusterTables.sampleHashes 9 loopIteration [loopIteration] = some s ∧
    ∃ (order : MergeOrder) (ruleOrder : RuleOrder) (rss : List RuleSet),
      rulesForGenerator sampleGrammar order s.rules.recurrentSequences = some rss ∧
      ∀ item ∈ s.capture.batch, ∃ (g : InputGenerator) (st : GenState), item.tree = st.tree ∧
        ∀ rs ∈ rss, (∀ q ∈ rs, Realises item.tree.expanded q) ↔
          ∃ e ∈ st.trace, e.Completes (ruleOrder.list rs) ∧
            (e.CompletesSeveral (ruleOrder.list rs) ∨ e.TakesPruned g) := by
  obtain ⟨s, hs, -⟩ := sample_loopRun
  obtain ⟨order, ruleOrder, rss, hrss, -, hall⟩ := loop_realises_rule_iff (by decide)
    sampleGrammar_noEmptyAlternative sampleFuzzer ClusterTables.sampleHashes 9 loopIteration
    [loopIteration] (by simp) (fun it hit => by rw [List.mem_singleton.mp hit]) s hs
  refine ⟨s, hs, order, ruleOrder, rss, hrss, fun item hitem => ?_⟩
  obtain ⟨g, st, -, -, -, -, htree, hiff, -⟩ := hall item hitem
  exact ⟨g, st, htree, hiff⟩

end RSFuzz
