import RSFuzz.GeneratorValidity
import RSFuzz.RuleTables

set_option autoImplicit false

/-!
# Which runs avoid every rule

Pruning acts only where a rule misses exactly one sequence. A run that always
has a candidate left therefore avoids all rules exactly when no expansion
realises several missing sequences of one rule at once.
-/
namespace RSFuzz
open OrderedMap Subsequence TableState

def Tables.idsOf (t : Tables) (rule : Rule) : Finset ℕ :=
  (rule.filterMap fun s => t.idOf? s.lastSymbol s.dn s.symbols).toFinset

namespace Expansion

def Missing (e : Expansion) (s : Sequence) : Prop := ¬ Realises e.tree.expanded s

def Adds (e : Expansion) (s : Sequence) : Prop :=
  ∃ path, e.tree.RootPath e.pos path ∧ s.dn = e.derivNum ∧ EndsIn s.symbols path

/-- All that a rule misses, two sequences or more, is realised by the one expansion. -/
def CompletesSeveral (e : Expansion) (rule : Rule) : Prop :=
  (∃ s ∈ rule, ∃ s' ∈ rule, s ≠ s' ∧ e.Missing s ∧ e.Missing s') ∧
    ∀ s ∈ rule, e.Missing s → e.Adds s

end Expansion

section Ids

variable {rules : List Rule} {reg : List Sequence}
  (h : Encodes (rules.foldl addRule empty) rules reg)

include h

theorem recordedBy_iff {k : ℕ} {s : Sequence} (hk : reg[k]? = some s) (path : List Sym) (d : ℕ) :
    (buildTables rules).RecordedBy (path, d) k ↔ s.dn = d ∧ EndsIn s.symbols path := by
  constructor
  · rintro ⟨S, p, -, hid, hm⟩
    obtain ⟨s', hs', -, hd, hp⟩ := (h.registered.lookup S d p k).mp hid
    obtain rfl := Option.some.inj (hk.symm.trans hs')
    subst hp
    exact ⟨hd, (matches_iff_endsIn s.nonempty).mp hm⟩
  · rintro ⟨rfl, he⟩
    refine ⟨s.lastSymbol, s.symbols, ?_, ?_, Or.inr he⟩
    · rw [← s.getLast?_symbols]
      exact he.2.symm
    · exact (h.registered.lookup _ _ _ k).mpr ⟨s, hk, rfl, rfl, rfl⟩

theorem mem_seen_iff {k : ℕ} {s : Sequence} (hk : reg[k]? = some s) {tree : Tree}
    {seen : Finset ℕ} (hseen : SeenExact (buildTables rules) tree seen) :
    k ∈ seen ↔ Realises tree.expanded s := by
  rw [hseen k]
  constructor
  · rintro ⟨⟨path, d⟩, he, hrec⟩
    obtain ⟨hd, hend⟩ := (recordedBy_iff h hk path d).mp hrec
    exact ⟨_, he, hd.symm, hend⟩
  · rintro ⟨⟨path, d⟩, he, hd, hend⟩
    exact ⟨_, he, (recordedBy_iff h hk path d).mpr ⟨hd.symm, hend⟩⟩

theorem idsOf_eq (rule : Rule) :
    (buildTables rules).idsOf rule = idsOf reg rule := by
  ext k
  simp only [Tables.idsOf, List.mem_toFinset, List.mem_filterMap, mem_idsOf]
  constructor
  · rintro ⟨s, hs, hid⟩
    obtain ⟨s', hs', -, hd, hp⟩ := (h.registered.lookup _ _ _ k).mp hid
    obtain rfl : s' = s := Sequence.ext hp hd
    exact ⟨s', hs, hs'⟩
  · rintro ⟨s, hs, hk⟩
    exact ⟨s, hs, (h.registered.lookup _ _ _ k).mpr ⟨s, hk, rfl, rfl, rfl⟩⟩

theorem idsOf_subset_iff {rule : Rule} (hr : rule ∈ rules) {tree : Tree} {seen : Finset ℕ}
    (hseen : SeenExact (buildTables rules) tree seen) :
    idsOf reg rule ⊆ seen ↔ ∀ s ∈ rule, Realises tree.expanded s := by
  constructor
  · intro hsub s hs
    obtain ⟨k, hk⟩ := List.mem_iff_getElem?.mp ((h.mem s).mpr ⟨rule, hr, hs⟩)
    exact (mem_seen_iff h hk hseen).mp (hsub (mem_idsOf.mpr ⟨s, hs, hk⟩))
  · intro hall k hk
    obtain ⟨s, hs, hks⟩ := mem_idsOf.mp hk
    exact (mem_seen_iff h hks hseen).mpr (hall s hs)

theorem prunedAt_of_single {g : InputGenerator} (hg : g.tables = buildTables rules) {rule : Rule}
    (hr : rule ∈ rules) {tree : Tree} {pos : ℕ × ℕ} {path : List Sym} {symbol : Sym} {d k : ℕ}
    {seen : Finset ℕ} (hp : tree.RootPath pos path) (hlen : tree.length = pos.1 + 1)
    (hsym : path.getLast? = some symbol) (hsingle : idsOf reg rule \ seen = {k})
    (hrec : (buildTables rules).RecordedBy (path, d) k) :
    g.PrunedAt tree pos.2 symbol seen d := by
  have hk : k ∈ idsOf reg rule := by
    have : k ∈ idsOf reg rule \ seen := by rw [hsingle]; exact Finset.mem_singleton_self k
    exact (Finset.mem_sdiff.mp this).1
  obtain ⟨s, hs, hks⟩ := mem_idsOf.mp hk
  obtain ⟨rfl, hend⟩ := (recordedBy_iff h hks path d).mp hrec
  have hlast : s.lastSymbol = symbol := by
    have := hend.2
    rw [s.getLast?_symbols, hsym] at this
    exact Option.some.inj this
  have hentry := (h.entries symbol s.dn (idsOf reg rule)).mpr ⟨rule, hr, rfl, s, hs, hlast, rfl⟩
  obtain ⟨entries, hget, hmem⟩ : ∃ entries,
      (buildTables rules).recurrentSequence.get? symbol = some entries ∧
      (s.dn, idsOf reg rule) ∈ entries := by
    change _ ∈ ((buildTables rules).recurrentSequence.get? symbol).getD [] at hentry
    cases hget : (buildTables rules).recurrentSequence.get? symbol with
    | none => rw [hget] at hentry; cases hentry
    | some entries => rw [hget] at hentry; exact ⟨entries, rfl, hentry⟩
  obtain ⟨pruned, hrun, hspec⟩ := pruneChildren_spec (t := g.tables) hp hlen symbol seen
  have hpos : (tree.length - 1, pos.2) = pos := Prod.ext (by simp only; omega) rfl
  refine ⟨pruned, by rw [hpos]; exact hrun, (hspec s.dn).mpr ⟨entries, _, ?_, hmem, k, s.symbols,
    hsingle, ?_, Or.inr hend⟩⟩
  · rw [hg]
    exact hget
  · rw [hg]
    change (rules.foldl addRule empty).idxSubseq.get? k = _
    rw [h.registered.idx, hks]
    rfl

end Ids

section Runs

variable {g : InputGenerator} {rules : List Rule} {reg : List Sequence}
  (hg : g.tables = buildTables rules) (h : Encodes (rules.foldl addRule empty) rules reg)

include hg h

/-- Step lemma: an expansion that leaves a candidate and completes no rule by several
    sequences completes none at all. -/
theorem ExpandedAt.no_rule_completed {select : Selector} (hplain : g.Plain select) {e : Expansion}
    {path : List Sym} {sel : Selection} {seen' : Finset ℕ}
    (hat : ExpandedAt g select e path sel seen') (hcand : e.candidates ≠ [])
    {rule : Rule} (hr : rule ∈ rules) (hbefore : ¬ idsOf reg rule ⊆ e.seen)
    (hnot : ¬ e.CompletesSeveral rule) : ¬ idsOf reg rule ⊆ seen' := by
  intro hsub
  have hbeforeExact : SeenExact (buildTables rules) e.tree e.seen := hg ▸ hat.seenBefore
  have hnew : ∀ k ∈ idsOf reg rule \ e.seen, (buildTables rules).RecordedBy (path, e.derivNum) k := by
    intro k hk
    obtain ⟨hk, hks⟩ := Finset.mem_sdiff.mp hk
    have := (hat.seenAfter k).mp (hsub hk)
    rw [hg] at this
    exact this.resolve_left hks
  obtain ⟨k, hk⟩ : (idsOf reg rule \ e.seen).Nonempty := by
    rw [Finset.sdiff_nonempty]
    exact hbefore
  by_cases hsingle : idsOf reg rule \ e.seen = {k}
  · have hpruned := prunedAt_of_single h hg hr hat.rootPath hat.length hat.symbol hsingle (hnew k hk)
    rw [hat.candidates] at hcand
    refine hplain.not_pruned hat.selected hcand ?_
    rw [← hat.derivNum]
    exact hpruned
  · obtain ⟨k', hk', hne⟩ : ∃ k' ∈ idsOf reg rule \ e.seen, k' ≠ k := by
      by_contra hno
      push Not at hno
      exact hsingle (Finset.eq_singleton_iff_unique_mem.mpr ⟨hk, hno⟩)
    have hmissing : ∀ j ∈ idsOf reg rule \ e.seen, ∃ s ∈ rule, reg[j]? = some s ∧ e.Missing s := by
      intro j hj
      obtain ⟨hj, hjs⟩ := Finset.mem_sdiff.mp hj
      obtain ⟨s, hs, hjs'⟩ := mem_idsOf.mp hj
      exact ⟨s, hs, hjs', fun hreal => hjs ((mem_seen_iff h hjs' hbeforeExact).mpr hreal)⟩
    obtain ⟨s, hs, hks, hm⟩ := hmissing k hk
    obtain ⟨s', hs', hks', hm'⟩ := hmissing k' hk'
    refine hnot ⟨⟨s, hs, s', hs', ?_, hm, hm'⟩, ?_⟩
    · rintro rfl
      exact hne (h.registered.id_unique hks' hks)
    · intro u hu hmu
      obtain ⟨j, hj⟩ := List.mem_iff_getElem?.mp ((h.mem u).mpr ⟨rule, hr, hu⟩)
      have hjs : j ∉ e.seen := fun hseen => hmu ((mem_seen_iff h hj hbeforeExact).mp hseen)
      have hjm : j ∈ idsOf reg rule \ e.seen :=
        Finset.mem_sdiff.mpr ⟨mem_idsOf.mpr ⟨u, hu, hj⟩, hjs⟩
      obtain ⟨hd, hend⟩ := (recordedBy_iff h hj path e.derivNum).mp (hnew j hjm)
      exact ⟨path, hat.rootPath, hd, hend⟩

/-- What the log and the seen ids of a run say about each other. -/
structure LogInvariant (rules : List Rule) (reg : List Sequence) (seen : Finset ℕ)
    (trace : List Expansion) : Prop where
  avoided : (∀ e ∈ trace, e.candidates ≠ []) →
    (∀ e ∈ trace, ∀ rule ∈ rules, ¬ e.CompletesSeveral rule) →
    ∀ rule ∈ rules, ¬ idsOf reg rule ⊆ seen
  completed : ∀ e ∈ trace, ∀ rule ∈ rules, e.CompletesSeveral rule → idsOf reg rule ⊆ seen

theorem ExpandedAt.logInvariant {select : Selector} (hplain : g.Plain select) {e : Expansion}
    {path : List Sym} {sel : Selection} {seen' : Finset ℕ} {trace : List Expansion}
    (hat : ExpandedAt g select e path sel seen') (hlog : LogInvariant rules reg e.seen trace) :
    LogInvariant rules reg seen' (trace ++ [e]) where
  avoided := by
    intro hcand hgood rule hr
    refine hat.no_rule_completed hg h hplain (hcand e (by simp)) hr ?_ (hgood e (by simp) rule hr)
    exact hlog.avoided (fun e' he' => hcand e' (by simp [he'])) (fun e' he' => hgood e' (by simp [he']))
      rule hr
  completed := by
    intro e' he' rule hr hc k hk
    have hmono : ∀ j, j ∈ e.seen → j ∈ seen' := fun j hj => (hat.seenAfter j).mpr (Or.inl hj)
    rcases List.mem_append.mp he' with he' | he'
    · exact hmono k (hlog.completed e' he' rule hr hc hk)
    · obtain rfl := List.mem_singleton.mp he'
      obtain ⟨s, hs, hks⟩ := mem_idsOf.mp hk
      have hexact : SeenExact (buildTables rules) e'.tree e'.seen := hg ▸ hat.seenBefore
      by_cases hm : e'.Missing s
      · obtain ⟨q, hq, hd, hend⟩ := hc.2 s hs hm
        obtain rfl := hq.unique hat.rootPath
        refine (hat.seenAfter k).mpr (Or.inr ?_)
        rw [hg]
        exact (recordedBy_iff h hks q e'.derivNum).mpr ⟨hd, hend⟩
      · exact hmono k ((mem_seen_iff h hks hexact).mpr (not_not.mp hm))

end Runs

theorem idsOf_subset_seen_iff {g : InputGenerator} {rules : List Rule}
    (hg : g.tables = buildTables rules)
    (hstart : g.grammar.keys.head? = some g.config.startRule) {rnd : Choices} {fuel : ℕ}
    {st : GenState} (hrun : g.generateTree rnd fuel = some st) {rule : Rule} (hr : rule ∈ rules) :
    g.tables.idsOf rule ⊆ st.seen ↔ ∀ s ∈ rule, Realises st.tree.expanded s := by
  obtain ⟨reg, h⟩ := foldl_addRule_encodes rules
  have hinv := (InputGenerator.generateTree_steps hrun).1.runInvariant
    (List.mem_of_mem_head? hstart) fun _ hs => hs.selectsAlternative
  rw [hg, idsOf_eq h rule]
  exact idsOf_subset_iff h hr (hg ▸ hinv.seenExact)

/-- A run that always has a candidate left realises no rule if and only if none of its
    expansions completes one by several sequences at once; and a rule is realised by the
    finished tree exactly when its id set was seen. -/
theorem avoids_rules_iff (g : InputGenerator) (rules : List Rule) (hne : ∀ rule ∈ rules, rule ≠ [])
    (hg : g.tables = buildTables rules)
    (hstart : g.grammar.keys.head? = some g.config.startRule) (rnd : Choices) (fuel : ℕ)
    (st : GenState) (hrun : g.generateTree rnd fuel = some st)
    (hcand : ∀ e ∈ st.trace, e.candidates ≠ []) :
    ((∀ rule ∈ rules, ¬ ∀ s ∈ rule, Realises st.tree.expanded s) ↔
      ∀ e ∈ st.trace, ∀ rule ∈ rules, ¬ e.CompletesSeveral rule) ∧
    ∀ rule ∈ rules, (g.tables.idsOf rule ⊆ st.seen ↔ ∀ s ∈ rule, Realises st.tree.expanded s) := by
  obtain ⟨reg, h⟩ := foldl_addRule_encodes rules
  obtain ⟨hsteps, -, -⟩ := InputGenerator.generateTree_steps hrun
  have h0 : LogInvariant rules reg ∅ [] := by
    refine ⟨fun _ _ rule hr hsub => ?_, by simp⟩
    obtain ⟨s, hs⟩ := List.exists_mem_of_ne_nil rule (hne rule hr)
    obtain ⟨k, hk⟩ := List.mem_iff_getElem?.mp ((h.mem s).mpr ⟨rule, hr, hs⟩)
    have := hsub (mem_idsOf.mpr ⟨s, hs, hk⟩)
    simp at this
  obtain ⟨hinv, hlog⟩ := hsteps.invariant (List.mem_of_mem_head? hstart)
    (fun _ hs => hs.selectsAlternative) (LogInvariant rules reg)
    (fun select e path sel seen' trace hs hat hq => hat.logInvariant hg h hs hq) h0
  have hids : ∀ rule ∈ rules, (g.tables.idsOf rule ⊆ st.seen ↔
      ∀ s ∈ rule, Realises st.tree.expanded s) :=
    fun rule hr => idsOf_subset_seen_iff hg hstart hrun hr
  have hiff : ∀ rule ∈ rules, (idsOf reg rule ⊆ st.seen ↔ ∀ s ∈ rule, Realises st.tree.expanded s) :=
    fun rule hr => by rw [← hids rule hr, hg, idsOf_eq h rule]
  refine ⟨⟨fun havoid e he rule hr hc => ?_, fun hgood rule hr hall => ?_⟩, hids⟩
  · exact havoid rule hr ((hiff rule hr).mp (hlog.completed e he rule hr hc))
  · exact hlog.avoided hcand hgood rule hr ((hiff rule hr).mpr hall)

def crossGrammar : Grammar :=
  ⟨[("start", [⟨["left"], 0, 1⟩, ⟨["right"], 1, 1⟩]), ("left", [⟨["right"], 0, 1⟩, ⟨["value"], 1, 1⟩]),
    ("right", [⟨["value"], 0, 1⟩]), ("value", [⟨["'x'"], 0, 1⟩, ⟨["'y'"], 1, 1⟩])], by decide⟩

def crossRule : Rule :=
  [⟨["start", "left", "value"], 0, by decide⟩, ⟨["start", "right", "value"], 0, by decide⟩]

def crossGenerator : InputGenerator where
  grammar := crossGrammar
  depthsDict := Map.empty
  config := ⟨"start", 20⟩
  tables := buildTables [crossRule]

def crossRun : Option GenState := crossGenerator.generateTree ⟨fun _ _ => 0, fun _ => 0⟩ 4

theorem crossRun_log : ∃ st, crossRun = some st ∧ (∀ e ∈ st.trace, e.candidates ≠ []) ∧
    crossGenerator.tables.idsOf crossRule ⊆ st.seen := by
  have hlog : crossRun.map (fun st => (st.trace.all fun e => e.candidates ≠ [],
      decide (crossGenerator.tables.idsOf crossRule ⊆ st.seen))) = some (true, true) := by
    decide +kernel
  obtain ⟨st, hst, he⟩ := Option.map_eq_some_iff.mp hlog
  obtain ⟨hcand, hids⟩ := Prod.mk.inj he
  exact ⟨st, hst, by simpa using hcand, of_decide_eq_true hids⟩

/-- The single expansion of `value` below both ways realises the whole rule, although every
    node had a candidate left. -/
theorem avoids_rules_fails : ∃ st, crossRun = some st ∧ (∀ e ∈ st.trace, e.candidates ≠ []) ∧
    ∀ s ∈ crossRule, Realises st.tree.expanded s := by
  obtain ⟨st, hst, hcand, hids⟩ := crossRun_log
  exact ⟨st, hst, hcand, (idsOf_subset_seen_iff rfl rfl hst (by simp)).mp hids⟩

theorem avoids_rules_iff_cross : ∃ st, crossRun = some st ∧
    ((∀ rule ∈ [crossRule], ¬ ∀ s ∈ rule, Realises st.tree.expanded s) ↔
      ∀ e ∈ st.trace, ∀ rule ∈ [crossRule], ¬ e.CompletesSeveral rule) := by
  obtain ⟨st, hst, hcand, -⟩ := crossRun_log
  exact ⟨st, hst, (avoids_rules_iff crossGenerator [crossRule] (by decide) rfl rfl _ _ st hst
    hcand).1⟩

end RSFuzz
