import RSFuzz.RuleAvoidance

set_option autoImplicit false

/-!
# What pruning removes

`prune_children` stores every number that a rule's sequences end in with the
rule, and removes them all where the rule misses one sequence that fits. Only
the number of that sequence is sure to complete the rule.
-/
namespace RSFuzz
open OrderedMap Subsequence TableState

/-- Choosing one of the numbers removed completes a rule that is not complete yet. -/
def PreciseAt (rules : List Rule) (tree : Tree) (pos : ℕ × ℕ) (symbol : Sym) (seen : Finset ℕ) :
    Prop :=
  ∃ pruned, pruneChildren (buildTables rules) symbol tree pos seen = some pruned ∧
    ∀ d ∈ pruned, ∃ seen', record (buildTables rules) tree pos symbol d seen = some seen' ∧
      ∃ rule ∈ rules, ¬ (buildTables rules).idsOf rule ⊆ seen ∧
        (buildTables rules).idsOf rule ⊆ seen'

def OnlyMissing (tree : Tree) (rule : Rule) (s : Sequence) : Prop :=
  s ∈ rule ∧ ¬ Realises tree.expanded s ∧ ∀ u ∈ rule, u ≠ s → Realises tree.expanded u

/-- The rule is not complete, and all it misses is realised by `d` at the end of the path. -/
def CompletedBy (tree : Tree) (path : List Sym) (rule : Rule) (d : ℕ) : Prop :=
  (∃ u ∈ rule, ¬ Realises tree.expanded u) ∧
    ∀ u ∈ rule, ¬ Realises tree.expanded u → u.dn = d ∧ EndsIn u.symbols path

theorem OnlyMissing.completedBy {tree : Tree} {path : List Sym} {rule : Rule} {s : Sequence}
    (h : OnlyMissing tree rule s) (hfit : EndsIn s.symbols path) :
    CompletedBy tree path rule s.dn := by
  refine ⟨⟨s, h.1, h.2.1⟩, fun u hu hmiss => ?_⟩
  by_cases hus : u = s
  · subst hus
    exact ⟨rfl, hfit⟩
  · exact absurd (h.2.2 u hu hus) hmiss

section Precision

variable {rules : List Rule} {reg : List Sequence} {tree : Tree} {pos : ℕ × ℕ} {path : List Sym}
  {symbol : Sym} {seen : Finset ℕ}
  (h : Encodes (rules.foldl addRule empty) rules reg) (hp : tree.RootPath pos path)
  (hlen : tree.length = pos.1 + 1) (hsym : path.getLast? = some symbol)
  (hseen : SeenExact (buildTables rules) tree seen)

include h hseen

theorem sdiff_singleton_iff {rule : Rule} (hr : rule ∈ rules) {k : ℕ} :
    idsOf reg rule \ seen = {k} ↔ ∃ s, reg[k]? = some s ∧ OnlyMissing tree rule s := by
  have hmem : ∀ j, j ∈ idsOf reg rule \ seen ↔
      ∃ u ∈ rule, reg[j]? = some u ∧ ¬ Realises tree.expanded u := by
    intro j
    rw [Finset.mem_sdiff, mem_idsOf]
    constructor
    · rintro ⟨⟨u, hu, hj⟩, hout⟩
      exact ⟨u, hu, hj, fun hreal => hout ((mem_seen_iff h hj hseen).mpr hreal)⟩
    · rintro ⟨u, hu, hj, hmiss⟩
      exact ⟨⟨u, hu, hj⟩, fun hin => hmiss ((mem_seen_iff h hj hseen).mp hin)⟩
  constructor
  · intro hk
    obtain ⟨s, hs, hks, hmiss⟩ := (hmem k).mp (hk ▸ Finset.mem_singleton_self k)
    refine ⟨s, hks, hs, hmiss, fun u hu hne => ?_⟩
    by_contra humiss
    obtain ⟨j, hj⟩ := List.mem_iff_getElem?.mp ((h.mem u).mpr ⟨rule, hr, hu⟩)
    have hjk : j ∈ idsOf reg rule \ seen := (hmem j).mpr ⟨u, hu, hj, humiss⟩
    rw [hk, Finset.mem_singleton] at hjk
    subst hjk
    exact hne (Option.some.inj (hj.symm.trans hks))
  · rintro ⟨s, hks, hs, hmiss, honly⟩
    ext j
    rw [hmem, Finset.mem_singleton]
    constructor
    · rintro ⟨u, hu, hj, humiss⟩
      obtain rfl : u = s := by
        by_contra hne
        exact humiss (honly u hu hne)
      exact h.registered.id_unique hj hks
    · rintro rfl
      exact ⟨s, hs, hks, hmiss⟩

include hp hlen

/-- The numbers removed: those of the sequences that end here, of a rule whose only missing
    sequence fits. -/
theorem mem_pruned_iff {pruned : List ℕ}
    (hrun : pruneChildren (buildTables rules) symbol tree pos seen = some pruned) (d : ℕ) :
    d ∈ pruned ↔ ∃ rule ∈ rules, ∃ s, OnlyMissing tree rule s ∧ EndsIn s.symbols path ∧
      ∃ s' ∈ rule, s'.lastSymbol = symbol ∧ s'.dn = d := by
  obtain ⟨pruned', hrun', hspec⟩ :=
    pruneChildren_spec (t := buildTables rules) hp hlen symbol seen
  obtain rfl := Option.some.inj (hrun.symm.trans hrun')
  have hentry : ∀ K, (∃ entries, (buildTables rules).recurrentSequence.get? symbol = some entries ∧
      (d, K) ∈ entries) ↔
      ∃ rule ∈ rules, K = idsOf reg rule ∧ ∃ s ∈ rule, s.lastSymbol = symbol ∧ s.dn = d := by
    intro K
    rw [← h.entries symbol d K]
    change (∃ entries, (rules.foldl addRule empty).rsForGenerator.get? symbol = some entries ∧ _) ↔ _
    cases (rules.foldl addRule empty).rsForGenerator.get? symbol <;> simp
  have hidx : ∀ k, (buildTables rules).idxSubseq.get? k = (reg[k]?).map Sequence.symbols :=
    h.registered.idx
  rw [hspec]
  constructor
  · rintro ⟨entries, K, hget, hmem, k, seq, hsingle, hseq, hm⟩
    obtain ⟨rule, hr, rfl, hend⟩ := (hentry K).mp ⟨entries, hget, hmem⟩
    obtain ⟨s, hks, honly⟩ := (sdiff_singleton_iff h hseen hr).mp hsingle
    rw [hidx, hks] at hseq
    obtain rfl := Option.some.inj hseq
    exact ⟨rule, hr, s, honly, (matches_iff_endsIn s.nonempty).mp hm, hend⟩
  · rintro ⟨rule, hr, s, honly, hfit, hend⟩
    obtain ⟨entries, hget, hmem⟩ := (hentry (idsOf reg rule)).mpr ⟨rule, hr, rfl, hend⟩
    obtain ⟨k, hk⟩ := List.mem_iff_getElem?.mp ((h.mem s).mpr ⟨rule, hr, honly.1⟩)
    refine ⟨entries, idsOf reg rule, hget, hmem, k, s.symbols,
      (sdiff_singleton_iff h hseen hr).mpr ⟨s, hk, honly⟩, ?_, Or.inr hfit⟩
    rw [hidx, hk]
    rfl

include hsym

theorem completes_iff {rule : Rule} (hr : rule ∈ rules) {d : ℕ} {seen' : Finset ℕ}
    (hrec : record (buildTables rules) tree pos symbol d seen = some seen') :
    (¬ (buildTables rules).idsOf rule ⊆ seen ∧ (buildTables rules).idsOf rule ⊆ seen') ↔
      CompletedBy tree path rule d := by
  obtain ⟨seen'', hrec', hspec⟩ := record_spec (t := buildTables rules) hp hlen hsym d seen
  obtain rfl := Option.some.inj (hrec.symm.trans hrec')
  have hafter : idsOf reg rule ⊆ seen' ↔
      ∀ u ∈ rule, ¬ Realises tree.expanded u → u.dn = d ∧ EndsIn u.symbols path := by
    constructor
    · intro hsub u hu hmiss
      obtain ⟨k, hk⟩ := List.mem_iff_getElem?.mp ((h.mem u).mpr ⟨rule, hr, hu⟩)
      rcases (hspec k).mp (hsub (mem_idsOf.mpr ⟨u, hu, hk⟩)) with hin | hnew
      · exact absurd ((mem_seen_iff h hk hseen).mp hin) hmiss
      · exact (recordedBy_iff h hk path d).mp hnew
    · intro hall k hk
      obtain ⟨u, hu, hku⟩ := mem_idsOf.mp hk
      by_cases hreal : Realises tree.expanded u
      · exact (hspec k).mpr (Or.inl ((mem_seen_iff h hku hseen).mpr hreal))
      · exact (hspec k).mpr (Or.inr ((recordedBy_iff h hku path d).mpr (hall u hu hreal)))
  rw [idsOf_eq h rule, idsOf_subset_iff h hr hseen, hafter, CompletedBy]
  simp only [not_forall, exists_prop]

end Precision

/-- Pruning removes no number in vain exactly if, for every rule whose only missing sequence fits,
    the other numbers stored with it for this symbol complete some rule of their own. -/
theorem pruneChildren_precise_iff (rules : List Rule) (tree : Tree) (pos : ℕ × ℕ) (path : List Sym)
    (symbol : Sym) (seen : Finset ℕ) (hp : tree.RootPath pos path)
    (hlen : tree.length = pos.1 + 1) (hsym : path.getLast? = some symbol)
    (hseen : SeenExact (buildTables rules) tree seen) :
    PreciseAt rules tree pos symbol seen ↔
      ∀ rule ∈ rules, ∀ s, OnlyMissing tree rule s → EndsIn s.symbols path →
        ∀ s' ∈ rule, s'.lastSymbol = s.lastSymbol → s'.dn ≠ s.dn →
          ∃ rule' ∈ rules, CompletedBy tree path rule' s'.dn := by
  obtain ⟨reg, h⟩ := foldl_addRule_encodes rules
  have hlast : ∀ {s : Sequence}, EndsIn s.symbols path → s.lastSymbol = symbol := by
    intro s hfit
    have := hfit.2
    rw [s.getLast?_symbols, hsym] at this
    exact Option.some.inj this
  constructor
  · rintro ⟨pruned, hrun, hall⟩ rule hr s honly hfit s' hs' hsame -
    have hd : s'.dn ∈ pruned := (mem_pruned_iff h hp hlen hseen hrun s'.dn).mpr
      ⟨rule, hr, s, honly, hfit, s', hs', hsame.trans (hlast hfit), rfl⟩
    obtain ⟨seen', hrec, rule', hr', hcomp⟩ := hall s'.dn hd
    exact ⟨rule', hr', (completes_iff h hp hlen hsym hseen hr' hrec).mp hcomp⟩
  · intro hcond
    obtain ⟨pruned, hrun, -⟩ := pruneChildren_spec (t := buildTables rules) hp hlen symbol seen
    refine ⟨pruned, hrun, fun d hd => ?_⟩
    obtain ⟨seen', hrec, -⟩ := record_spec (t := buildTables rules) hp hlen hsym d seen
    obtain ⟨rule, hr, s, honly, hfit, s', hs', hend, rfl⟩ :=
      (mem_pruned_iff h hp hlen hseen hrun d).mp hd
    refine ⟨seen', hrec, ?_⟩
    have hcompletes : ∃ rule' ∈ rules, CompletedBy tree path rule' s'.dn := by
      by_cases hdn : s'.dn = s.dn
      · exact ⟨rule, hr, hdn ▸ honly.completedBy hfit⟩
      · exact hcond rule hr s honly hfit s' hs' (hend.trans (hlast hfit).symm) hdn
    obtain ⟨rule', hr', hcomp⟩ := hcompletes
    exact ⟨rule', hr', (completes_iff h hp hlen hsym hseen hr' hrec).mpr hcomp⟩

theorem trace_exact {g : InputGenerator} (hstart : g.config.startRule ∈ g.grammar.keys)
    {rnd : Choices} {fuel : ℕ} {st : GenState} (hrun : g.generateTree rnd fuel = some st) :
    ∀ e ∈ st.trace, SeenExact g.tables e.tree e.seen ∧ e.tree.length = e.pos.1 + 1 ∧
      ∃ path, e.tree.RootPath e.pos path ∧ path.getLast? = some e.symbol := by
  refine ((InputGenerator.generateTree_steps hrun).1.invariant hstart
    (fun _ hs => hs.selectsAlternative)
    (fun _ trace => ∀ e ∈ trace, SeenExact g.tables e.tree e.seen ∧ e.tree.length = e.pos.1 + 1 ∧
      ∃ path, e.tree.RootPath e.pos path ∧ path.getLast? = some e.symbol) ?_ (by simp)).2
  intro select e path sel seen' trace _ hat hall e' he'
  rcases List.mem_append.mp he' with he' | he'
  · exact hall e' he'
  · rw [List.mem_singleton.mp he']
    exact ⟨hat.seenBefore, hat.length, path, hat.rootPath, hat.symbol⟩

def twinGrammar : Grammar :=
  ⟨[("pair", [⟨["left", "right"], 0, 1⟩]), ("left", [⟨["value"], 0, 1⟩]),
    ("right", [⟨["value"], 0, 1⟩]), ("value", [⟨["'x'"], 0, 1⟩, ⟨["'y'"], 1, 1⟩])], by decide⟩

def twinRule : Rule :=
  [⟨["pair", "left", "value"], 0, List.cons_ne_nil _ _⟩,
    ⟨["pair", "right", "value"], 1, List.cons_ne_nil _ _⟩]

def twinGenerator : InputGenerator where
  grammar := twinGrammar
  depthsDict := Map.empty
  config := ⟨"pair", 20⟩
  tables := buildTables [twinRule]

/-- After `'x'` on the left both numbers are removed on the right, but `'x'` there completes
    nothing. -/
theorem twinRun_log : ∃ st, twinGenerator.generateTree ⟨fun _ _ => 0, fun _ => 0⟩ 4 = some st ∧
    ∃ e ∈ st.trace, pruneChildren twinGenerator.tables e.symbol e.tree e.pos e.seen = some [0, 1] ∧
      ∃ seen', record twinGenerator.tables e.tree e.pos e.symbol 0 e.seen = some seen' ∧
        ¬ twinGenerator.tables.idsOf twinRule ⊆ seen' := by
  have hlog : (twinGenerator.generateTree ⟨fun _ _ => 0, fun _ => 0⟩ 4).map (fun st =>
      st.trace.any fun e =>
        decide (pruneChildren twinGenerator.tables e.symbol e.tree e.pos e.seen = some [0, 1]) &&
        (record twinGenerator.tables e.tree e.pos e.symbol 0 e.seen).any fun seen' =>
          decide (¬ twinGenerator.tables.idsOf twinRule ⊆ seen')) = some true := by
    decide +kernel
  obtain ⟨st, hst, hany⟩ := Option.map_eq_some_iff.mp hlog
  obtain ⟨e, he, hbad⟩ := List.any_eq_true.mp hany
  obtain ⟨hpruned, hrec⟩ := Bool.and_eq_true_iff.mp hbad
  obtain ⟨seen', hseen', hout⟩ := (Option.any_eq_true _ _).mp hrec
  exact ⟨st, hst, e, he, of_decide_eq_true hpruned, seen', hseen', of_decide_eq_true hout⟩

theorem pruneChildren_imprecise :
    ∃ st, twinGenerator.generateTree ⟨fun _ _ => 0, fun _ => 0⟩ 4 = some st ∧
      ∃ e ∈ st.trace, SeenExact twinGenerator.tables e.tree e.seen ∧
        ¬ PreciseAt [twinRule] e.tree e.pos e.symbol e.seen := by
  obtain ⟨st, hst, e, he, hpruned, seen', hrec, hout⟩ := twinRun_log
  refine ⟨st, hst, e, he, (trace_exact (by decide) hst e he).1, ?_⟩
  rintro ⟨pruned, hrun, hall⟩
  obtain rfl := Option.some.inj (hpruned.symm.trans hrun)
  obtain ⟨seen'', hrec', rule, hr, -, hin⟩ := hall 0 (by simp)
  obtain rfl := Option.some.inj (hrec.symm.trans hrec')
  obtain rfl := List.mem_singleton.mp hr
  exact hout hin

theorem pruneChildren_precise_iff_twin :
    ∃ st, twinGenerator.generateTree ⟨fun _ _ => 0, fun _ => 0⟩ 4 = some st ∧
      ∃ e ∈ st.trace, ∃ path, e.tree.RootPath e.pos path ∧
        (PreciseAt [twinRule] e.tree e.pos e.symbol e.seen ↔
          ∀ rule ∈ [twinRule], ∀ s, OnlyMissing e.tree rule s → EndsIn s.symbols path →
            ∀ s' ∈ rule, s'.lastSymbol = s.lastSymbol → s'.dn ≠ s.dn →
              ∃ rule' ∈ [twinRule], CompletedBy e.tree path rule' s'.dn) := by
  obtain ⟨st, hst, e, he, -⟩ := twinRun_log
  obtain ⟨hseen, hlen, path, hp, hsym⟩ := trace_exact (by decide) hst e he
  exact ⟨st, hst, e, he, path, hp,
    pruneChildren_precise_iff [twinRule] e.tree e.pos path e.symbol e.seen hp hlen hsym hseen⟩

end RSFuzz
