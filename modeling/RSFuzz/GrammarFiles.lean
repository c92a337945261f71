import RSFuzz.BnfRoundTrip
import RSFuzz.WrittenTexts

set_option autoImplicit false

/-!
# From a grammar file to the texts

A printed grammar file is itself a context-free grammar. Reading it, normalising
its probabilities and generating inputs without rules writes the words of that
grammar and nothing else, if no probability is negligible.
-/
namespace RSFuzz
open OrderedMap OptionFold Pattern WeightedDraw

/-- A word of an alternative is a nonterminal where a line has its name. -/
def fileSymbol (rules : List PrintedRule) (word : Text) : Symbol Sym Sym :=
  if word ∈ rules.map PrintedRule.name then .nonterminal (String.ofList word)
  else .terminal (String.ofList word)

def PrintedRule.productions (rules : List PrintedRule) (rule : PrintedRule) :
    List (ContextFreeRule Sym Sym) :=
  rule.alternatives.map fun a => ⟨String.ofList rule.name, a.words.map (fileSymbol rules)⟩

def fileGrammar (rules : List PrintedRule) (start : PrintedRule) : ContextFreeGrammar Sym where
  NT := Sym
  initial := String.ofList start.name
  rules := (rules.flatMap (PrintedRule.productions rules)).toFinset

section Read

variable {V : Type} {decode : Text → Option Text} {float : Text → Option V}

theorem foldlM_parseRule_keys {lines : List Text} {rules : List PrintedRule}
    (hlines : IsPrinted decode lines rules) (hfloat : ∀ rule ∈ rules, rule.Floats float)
    {pcfg pcfg' : Map Text (List (ParsedAlternative V))}
    (hnames : (pcfg.keys ++ rules.map PrintedRule.name).Nodup)
    (hrun : lines.foldlM (parseRule decode splitWords float) pcfg = some pcfg') :
    pcfg'.keys = pcfg.keys ++ rules.map PrintedRule.name := by
  induction lines generalizing rules pcfg with
  | nil =>
    obtain rfl : rules = [] := List.map_eq_nil_iff.mp hlines.symm
    obtain rfl := Option.some.inj hrun
    rw [List.map_nil, List.append_nil]
  | cons line lines ih =>
    by_cases hempty : line = ['\n']
    · subst hempty
      rw [IsPrinted, List.filter_cons_of_neg (by simp)] at hlines
      rw [List.foldlM_cons, parseRule, if_pos rfl] at hrun
      exact ih hlines hfloat hnames hrun
    · rw [IsPrinted, List.filter_cons_of_pos (by simpa using hempty), List.map_cons] at hlines
      obtain ⟨rule, rules, rfl⟩ : ∃ rule rest, rules = rule :: rest :=
        List.exists_cons_of_ne_nil (by rintro rfl; simp at hlines)
      rw [List.map_cons] at hlines
      obtain ⟨hdecode, hlines⟩ := List.cons.inj hlines
      obtain ⟨rows, hparse, -⟩ := parseLine_text rule (hfloat rule (by simp))
      rw [List.foldlM_cons, parseRule, if_neg hempty] at hrun
      simp only [hdecode, Option.bind_eq_bind, Option.bind_some, hparse, Option.pure_def] at hrun
      have hfresh : rule.name ∉ pcfg.keys := fun hin =>
        (List.nodup_append.mp hnames).2.2 _ hin _ (by simp) rfl
      have hkeys : (pcfg.set rule.name rows).keys = pcfg.keys ++ [rule.name] := by
        rw [Map.keys, Map.entries_set_fresh _ _ _ hfresh, List.map_append]
        rfl
      have hmore := ih hlines (fun r hr => hfloat r (List.mem_cons_of_mem rule hr))
        (by rw [hkeys, List.append_assoc]; exact hnames) hrun
      rw [hmore, hkeys, List.append_assoc]
      rfl

end Read

section File

variable {pcfg : Map Text (List (ParsedAlternative ℚ))} {rules : List PrintedRule}

theorem keys_grammarOf (pcfg : Map Text (List (ParsedAlternative ℚ))) :
    (grammarOf pcfg).keys = pcfg.keys.map String.ofList := by
  simp only [Map.keys, grammarOf, List.map_map, Function.comp_def]

theorem mem_alternatives_grammarOf {S : Sym} {a : Alternative} :
    a ∈ (grammarOf pcfg).alternatives S ↔ ∃ name rows, pcfg.get? name = some rows ∧
      S = String.ofList name ∧ ∃ row ∈ rows, a = ⟨row.words.map String.ofList, row.derivNum, row.prob⟩ := by
  constructor
  · intro ha
    have hget := Grammar.get?_of_mem_keys (Grammar.mem_keys_of_mem_alternatives ha)
    have hentry := (Map.get?_eq_some_iff _ _ _).mp hget
    obtain ⟨⟨name, rows⟩, hin, heq⟩ := List.mem_map.mp hentry
    obtain ⟨rfl, halts⟩ := Prod.mk.inj heq
    rw [← halts] at ha
    obtain ⟨row, hrow, rfl⟩ := List.mem_map.mp ha
    exact ⟨name, rows, (Map.get?_eq_some_iff _ _ _).mpr hin, rfl, row, hrow, rfl⟩
  · rintro ⟨name, rows, hget, rfl, row, hrow, rfl⟩
    have hentry : (String.ofList name, rows.map fun alt =>
        (⟨alt.words.map String.ofList, alt.derivNum, alt.prob⟩ : Alternative)) ∈
          (grammarOf pcfg).entries :=
      List.mem_map.mpr ⟨(name, rows), (Map.get?_eq_some_iff _ _ _).mp hget, rfl⟩
    rw [Grammar.alternatives_of_get? ((Map.get?_eq_some_iff _ _ _).mpr hentry)]
    exact List.mem_map.mpr ⟨row, hrow, rfl⟩

/-- The dictionary has the rules of the file and no others. -/
structure Reads (float : Text → Option ℚ) (rules : List PrintedRule)
    (pcfg : Map Text (List (ParsedAlternative ℚ))) : Prop where
  keys : pcfg.keys = rules.map PrintedRule.name
  rows : ∀ rule ∈ rules, ∃ rows, pcfg.get? rule.name = some rows ∧
    ReadAs float rows rule.alternatives

variable {float : Text → Option ℚ}

theorem parseBnf_reads {decode : Text → Option Text} {lines : List Text}
    (hlines : IsPrinted decode lines rules) (hfloat : ∀ rule ∈ rules, rule.Floats float)
    (hnames : (rules.map PrintedRule.name).Nodup) :
    ∃ pcfg, parseBnf decode splitWords float lines = some pcfg ∧ Reads float rules pcfg := by
  obtain ⟨pcfg, hrun, -, hrules⟩ := foldlM_parseRule hlines hfloat Map.empty
  refine ⟨pcfg, hrun, ?_, fun rule hrule => ?_⟩
  · exact foldlM_parseRule_keys hlines hfloat (by simpa using hnames) hrun
  · obtain ⟨before, after, rfl⟩ := List.append_of_mem hrule
    refine hrules before rule after rfl fun r hr hsame => ?_
    rw [List.map_append, List.map_cons, List.nodup_append] at hnames
    exact (List.nodup_cons.mp hnames.2.1).1 (hsame ▸ List.mem_map_of_mem hr)

theorem Reads.toSymbol (h : Reads float rules pcfg) (word : Text) :
    (grammarOf pcfg).toSymbol (String.ofList word) = fileSymbol rules word := by
  have hmem : String.ofList word ∈ (grammarOf pcfg).keys ↔ word ∈ rules.map PrintedRule.name := by
    rw [keys_grammarOf, h.keys, List.mem_map_of_injective fun _ _ => String.ofList_injective]
  simp only [Grammar.toSymbol, fileSymbol, hmem]

theorem ReadAs.mem_words {rows : List (ParsedAlternative ℚ)} {alts : List PrintedAlternative}
    (h : ReadAs float rows alts) (words : List Text) :
    (∃ row ∈ rows, row.words = words) ↔ ∃ a ∈ alts, a.words = words := by
  have hwords : rows.map ParsedAlternative.words = alts.map PrintedAlternative.words := by
    have := congrArg (List.map Prod.fst) h
    simpa [List.map_map, Function.comp_def] using this
  rw [← List.mem_map, hwords, List.mem_map]

theorem Reads.mem_rules_iff (h : Reads float rules pcfg) (start : PrintedRule)
    (r : ContextFreeRule Sym Sym) :
    r ∈ ((grammarOf pcfg).toCFG (String.ofList start.name)).rules ↔
      r ∈ (fileGrammar rules start).rules := by
  have hout : ∀ words : List Text, (words.map String.ofList).map (grammarOf pcfg).toSymbol =
      words.map (fileSymbol rules) := fun words => by
    rw [List.map_map]
    exact List.map_congr_left fun word _ => h.toSymbol word
  rw [Grammar.mem_rules_toCFG]
  change _ ↔ r ∈ (rules.flatMap (PrintedRule.productions rules)).toFinset
  rw [List.mem_toFinset, List.mem_flatMap]
  constructor
  · rintro ⟨a, ha, houtput⟩
    obtain ⟨name, rows, hget, hinput, row, hrow, rfl⟩ := mem_alternatives_grammarOf.mp ha
    have hname := Map.mem_keys_of_get? hget
    rw [h.keys] at hname
    obtain ⟨rule, hrule, rfl⟩ := List.mem_map.mp hname
    obtain ⟨rows', hget', hread⟩ := h.rows rule hrule
    obtain rfl := Option.some.inj (hget.symm.trans hget')
    obtain ⟨b, hb, hwords⟩ := (hread.mem_words row.words).mp ⟨row, hrow, rfl⟩
    refine ⟨rule, hrule, List.mem_map.mpr ⟨b, hb, ContextFreeRule.ext hinput.symm ?_⟩⟩
    rw [houtput, hout, hwords]
  · rintro ⟨rule, hrule, hr⟩
    obtain ⟨b, hb, rfl⟩ := List.mem_map.mp hr
    obtain ⟨rows, hget, hread⟩ := h.rows rule hrule
    obtain ⟨row, hrow, hwords⟩ := (hread.mem_words b.words).mpr ⟨b, hb, rfl⟩
    refine ⟨_, mem_alternatives_grammarOf.mpr ⟨rule.name, rows, hget, rfl, row, hrow, rfl⟩, ?_⟩
    rw [hout, hwords]

theorem Reads.toCFG_eq (h : Reads float rules pcfg) (start : PrintedRule) :
    (grammarOf pcfg).toCFG (String.ofList start.name) = fileGrammar rules start := by
  have hrules : ((grammarOf pcfg).toCFG (String.ofList start.name)).rules =
      (fileGrammar rules start).rules := Finset.ext (h.mem_rules_iff start)
  exact congrArg (fun rs => (⟨Sym, String.ofList start.name, rs⟩ : ContextFreeGrammar Sym)) hrules

/-- The probabilities printed for a rule are balanced, and all positive, or all zero. -/
def PrintedRule.Even (float : Text → Option ℚ) (rule : PrintedRule) : Prop :=
  ∃ probs, rule.alternatives.map (fun a => float a.prob) = probs.map some ∧ EvenWeights probs

theorem PrintedRule.Even.floats {rule : PrintedRule} (h : rule.Even float) : rule.Floats float := by
  obtain ⟨probs, hprobs, -⟩ := h
  intro a ha
  have hmem : float a.prob ∈ probs.map some := hprobs ▸ List.mem_map_of_mem ha
  obtain ⟨p, -, hp⟩ := List.mem_map.mp hmem
  exact ⟨p, hp.symm⟩

theorem ReadAs.probs_eq {rows : List (ParsedAlternative ℚ)} {alts : List PrintedAlternative}
    (h : ReadAs float rows alts) :
    (rows.map ParsedAlternative.prob).map some = alts.map fun a => float a.prob := by
  have := congrArg (List.map Prod.snd) h
  simpa [List.map_map, Function.comp_def] using this

theorem weights_grammarOf {name : Text} {rows : List (ParsedAlternative ℚ)}
    (hget : pcfg.get? name = some rows) :
    (grammarOf pcfg).weights (String.ofList name) = rows.map ParsedAlternative.prob := by
  have hentry : (String.ofList name, rows.map fun alt =>
      (⟨alt.words.map String.ofList, alt.derivNum, alt.prob⟩ : Alternative)) ∈
        (grammarOf pcfg).entries :=
    List.mem_map.mpr ⟨(name, rows), (Map.get?_eq_some_iff _ _ _).mp hget, rfl⟩
  rw [Grammar.weights, Grammar.alternatives_of_get? ((Map.get?_eq_some_iff _ _ _).mpr hentry),
    List.map_map]
  rfl

theorem Reads.even (h : Reads float rules pcfg) (heven : ∀ rule ∈ rules, rule.Even float) :
    (grammarOf pcfg).Even := by
  refine (Grammar.forall_weights_iff evenWeights_nil).mpr fun S hS => ?_
  rw [keys_grammarOf, h.keys] at hS
  obtain ⟨name, hname, rfl⟩ := List.mem_map.mp hS
  obtain ⟨rule, hrule, rfl⟩ := List.mem_map.mp hname
  obtain ⟨rows, hget, hread⟩ := h.rows rule hrule
  obtain ⟨probs, hprobs, hweights⟩ := heven rule hrule
  have hrows : rows.map ParsedAlternative.prob = probs :=
    List.map_injective_iff.mpr (Option.some_injective ℚ) (hread.probs_eq.trans hprobs)
  rwa [weights_grammarOf hget, hrows]

end File

theorem sampleRule_even : sampleRule.Even sampleFloat := ⟨[1 / 2, 1], rfl, by decide +kernel⟩

end RSFuzz
