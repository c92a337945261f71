import RSFuzz.FoundationWordLanguage
import RSFuzz.TransRegexp
import RSFuzz.WrittenTexts

set_option autoImplicit false

/-!
# Rules with operators as a grammar

The strings of symbols that an alternative with operators allows, and the
sentences of such rules. Unrolling the operators gives a context-free grammar
with the same sentences, but for the empty symbols that it writes.
-/
namespace RSFuzz
open OrderedMap Weighted GrammarYield

mutual

def Item.language : Item → Language Sym
  | .sym s => {[s]}
  | .list items => concatLanguage items
  | .optional x => 1 + x.language
  | .star x => ((List.range maxRepeat).map fun n => x.language ^ n).sum
  | .plus x => ((List.range' 1 maxRepeat).map fun n => x.language ^ n).sum
  | .choice first others => first.language + choiceLanguage others

def concatLanguage : List Item → Language Sym
  | [] => 1
  | x :: xs => x.language * concatLanguage xs

def choiceLanguage : List Item → Language Sym
  | [] => 0
  | x :: xs => x.language + choiceLanguage xs

end

/-- A string of symbols gives a sentence: a symbol with rules gives way to a string that one of
    its alternatives allows, and what that gives. -/
inductive Sentence (rules : Map Sym (List (List Item))) : List Sym → List Sym → Prop where
  | nil : Sentence rules [] []
  | terminal {s : Sym} {symbols w : List Sym} (hs : s ∉ rules.keys)
      (h : Sentence rules symbols w) : Sentence rules (s :: symbols) (s :: w)
  | rule {s : Sym} {alts : List (List Item)} {items : List Item} {u v symbols w : List Sym}
      (hs : rules.get? s = some alts) (hitems : items ∈ alts) (hu : u ∈ concatLanguage items)
      (hv : Sentence rules u v) (h : Sentence rules symbols w) :
      Sentence rules (s :: symbols) (v ++ w)

def itemsOf {V : Type} (rules : Map Sym (List (List Item × V))) : Map Sym (List (List Item)) :=
  rules.mapValues (List.map Prod.fst)

mutual

theorem Item.words_meaning : ∀ x : Item, words x.meaning = x.language
  | .sym s => by
    ext w
    simp [Item.meaning, Item.language, mem_words]
    rfl
  | .list items => by rw [Item.meaning, Item.language, words_concatMeaning items]
  | .optional x => by
    rw [Item.meaning, Item.language, words_add, words_scale, words_scale, words_one, x.words_meaning]
  | .star x => by
    rw [Item.meaning, Item.language, words_sum, List.map_map]
    simp only [Function.comp_def, words_scale, words_power, x.words_meaning]
  | .plus x => by
    rw [Item.meaning, Item.language, words_sum, List.map_map]
    simp only [Function.comp_def, words_scale, words_power, x.words_meaning]
  | .choice first others => by
    rw [Item.meaning, Item.language, words_scale, words_add, first.words_meaning,
      words_choiceMeaning others]

theorem words_concatMeaning : ∀ xs : List Item, words (concatMeaning xs) = concatLanguage xs
  | [] => by rw [concatMeaning, concatLanguage, words_one]
  | x :: xs => by
    rw [concatMeaning, concatLanguage, words_join, x.words_meaning, words_concatMeaning xs]

theorem words_choiceMeaning : ∀ xs : List Item, words (choiceMeaning xs) = choiceLanguage xs
  | [] => by rw [choiceMeaning, choiceLanguage, words_zero]
  | x :: xs => by
    rw [choiceMeaning, choiceLanguage, words_add, x.words_meaning, words_choiceMeaning xs]

end

section Rules

variable {token : Sym} {alts : List (List Item × ℚ)} {flats : List Alternative}

theorem RuleUnrolled.mem_expansion_iff (h : RuleUnrolled token alts flats) (u : List Sym) :
    (∃ f ∈ flats, f.expansion = u) ↔ ∃ alt ∈ alts, u ∈ concatLanguage alt.1 := by
  have hwords : u ∈ words (ruleMeaning alts) ↔ ∃ alt ∈ alts, u ∈ concatLanguage alt.1 := by
    rw [ruleMeaning, words_sum, List.map_map]
    clear h
    induction alts with
    | nil => simp [Language.notMem_zero]
    | cons alt alts ih =>
      rw [List.map_cons, List.sum_cons, Language.mem_add, ih, Function.comp_apply, words_scale,
        words_concatMeaning, List.exists_mem_cons_iff]
  rw [← hwords, ← h.meaning, words_coe]
  simp

end Rules

/-- The grammar has the rules, unrolled. -/
structure Unrolled (rules : Map Sym (List (List Item × ℚ))) (G : Grammar) : Prop where
  keys : G.keys = rules.keys
  rule : ∀ token alts, rules.get? token = some alts → ∃ flats,
    G.get? token = some (flats.map fun f => { f with expansion := written f.expansion }) ∧
      RuleUnrolled token alts flats

theorem transRegexp_unrolls (rules : Map Sym (List (List Item × ℚ))) :
    ∃ fuel₀ grammar, (∀ fuel, fuel₀ ≤ fuel → transRegexp rules fuel = some grammar) ∧
      Unrolled rules grammar := by
  obtain ⟨fuel₀, grammar, hrun, hkeys, -, hrules⟩ :=
    foldlM_transRule rules.entries Map.empty (by simpa [Map.keys, Map.empty] using rules.nodupKeys)
  exact ⟨fuel₀, grammar, hrun, hkeys, fun token alts halts =>
    hrules token alts ((Map.get?_eq_some_iff _ _ _).mp halts)⟩

section Sentences

variable {rules : Map Sym (List (List Item × ℚ))} {G : Grammar} {start : Sym}

theorem Unrolled.mem_alternatives_iff (h : Unrolled rules G) {s : Sym} (e : List Sym) :
    (∃ a ∈ G.alternatives s, a.expansion = e) ↔ ∃ alts, (itemsOf rules).get? s = some alts ∧
      ∃ items ∈ alts, ∃ u ∈ concatLanguage items, written u = e := by
  have hget : ∀ alts, rules.get? s = some alts →
      (itemsOf rules).get? s = some (alts.map Prod.fst) := fun alts halts => by
    rw [itemsOf, Map.get?_mapValues, halts, Option.map_some]
  constructor
  · rintro ⟨a, ha, rfl⟩
    have hkey := Grammar.mem_keys_of_mem_alternatives ha
    rw [h.keys] at hkey
    obtain ⟨alts, halts⟩ := Map.exists_get? hkey
    obtain ⟨flats, hflats, hflat⟩ := h.rule s alts halts
    rw [Grammar.alternatives_of_get? hflats] at ha
    obtain ⟨f, hf, rfl⟩ := List.mem_map.mp ha
    obtain ⟨alt, halt, hu⟩ := (hflat.mem_expansion_iff f.expansion).mp ⟨f, hf, rfl⟩
    exact ⟨_, hget alts halts, alt.1, List.mem_map_of_mem halt, f.expansion, hu, rfl⟩
  · rintro ⟨itemss, hitemss, items, hitems, u, hu, rfl⟩
    have hkey := Map.mem_keys_of_get? hitemss
    rw [itemsOf, Map.keys_mapValues] at hkey
    obtain ⟨alts, halts⟩ := Map.exists_get? hkey
    obtain rfl := Option.some.inj ((hget alts halts).symm.trans hitemss)
    obtain ⟨alt, halt, rfl⟩ := List.mem_map.mp hitems
    obtain ⟨flats, hflats, hflat⟩ := h.rule s alts halts
    obtain ⟨f, hf, rfl⟩ := (hflat.mem_expansion_iff u).mpr ⟨alt, halt, hu⟩
    rw [Grammar.alternatives_of_get? hflats]
    exact ⟨_, List.mem_map.mpr ⟨f, hf, rfl⟩, rfl⟩

theorem Unrolled.mem_keys_iff (h : Unrolled rules G) (s : Sym) :
    s ∈ G.keys ↔ s ∈ (itemsOf rules).keys := by
  rw [h.keys, itemsOf, Map.keys_mapValues]

def visible (w : List Sym) : List Sym := w.filter (· ≠ "")

theorem visible_append (v w : List Sym) : visible (v ++ w) = visible v ++ visible w :=
  List.filter_append v w

theorem Sentence.eq_nil {R : Map Sym (List (List Item))} {w : List Sym} (h : Sentence R [] w) :
    w = [] := by
  cases h
  rfl

theorem Sentence.yields (hG : Unrolled rules G) (hempty : "" ∉ G.keys) {symbols w : List Sym}
    (h : Sentence (itemsOf rules) symbols w) : ∃ w', Yields (G.toCFG start) (symbols.map G.toSymbol) w' ∧
      visible w' = visible w := by
  induction h with
  | nil => exact ⟨[], .nil, rfl⟩
  | @terminal s symbols w hs _ ih =>
    obtain ⟨w', hw', hsame⟩ := ih
    refine ⟨s :: w', ?_, ?_⟩
    · change Yields (G.toCFG start) (G.toSymbol s :: symbols.map G.toSymbol) (s :: w')
      rw [Grammar.toSymbol_of_notMem (fun hin => hs ((hG.mem_keys_iff s).mp hin))]
      exact .terminal hw'
    · rw [← List.singleton_append, ← List.singleton_append (l := w), visible_append,
        visible_append, hsame]
  | @rule s alts items u v symbols w hs hitems hu hv _ ihv ihw =>
    obtain ⟨w', hw', hsame⟩ := ihw
    obtain ⟨a, ha, hexpansion⟩ :=
      (hG.mem_alternatives_iff (written u)).mpr ⟨alts, hs, items, hitems, u, hu, rfl⟩
    have hrule : (⟨s, (written u).map G.toSymbol⟩ : ContextFreeRule Sym Sym) ∈
        (G.toCFG start).rules := Grammar.mem_rules_toCFG.mpr ⟨a, ha, by rw [hexpansion]⟩
    obtain ⟨v', hv', hsamev⟩ : ∃ v', Yields (G.toCFG start) ((written u).map G.toSymbol) v' ∧
        visible v' = visible v := by
      by_cases hnil : u = []
      · subst hnil
        refine ⟨[""], ?_, by rw [hv.eq_nil]; rfl⟩
        change Yields (G.toCFG start) [G.toSymbol ""] [""]
        rw [Grammar.toSymbol_of_notMem hempty]
        exact .terminal .nil
      · rw [written, if_neg hnil]
        exact ihv
    refine ⟨v' ++ w', ?_, by rw [visible_append, visible_append, hsamev, hsame]⟩
    change Yields (G.toCFG start) (G.toSymbol s :: symbols.map G.toSymbol) (v' ++ w')
    rw [Grammar.toSymbol_of_mem ((hG.mem_keys_iff s).mpr (Map.mem_keys_of_get? hs))]
    exact .nonterminal hrule hv' hw'

theorem Sentence.of_yields (hG : Unrolled rules G) (hempty : "" ∉ G.keys)
    {s : List (Symbol Sym (G.toCFG start).NT)} {w : List Sym} (h : Yields (G.toCFG start) s w)
    {symbols : List Sym} (hs : symbols.map G.toSymbol = s) :
    ∃ w', Sentence (itemsOf rules) symbols w' ∧ visible w' = visible w := by
  induction h generalizing symbols with
  | nil =>
    obtain rfl := List.map_eq_nil_iff.mp hs
    exact ⟨[], .nil, rfl⟩
  | @terminal a s w _ ih =>
    obtain ⟨x, symbols, rfl, hx, hrest⟩ := List.map_eq_cons_iff.mp hs
    obtain ⟨hkey, rfl⟩ := Grammar.eq_of_toSymbol_terminal hx
    obtain ⟨w', hw', hsame⟩ := ih hrest
    refine ⟨x :: w', .terminal (fun hin => hkey ((hG.mem_keys_iff x).mpr hin)) hw', ?_⟩
    rw [← List.singleton_append, ← List.singleton_append (l := w), visible_append, visible_append,
      hsame]
  | @nonterminal r s v w hr hv _ ihv ihw =>
    obtain ⟨x, symbols, rfl, hx, hrest⟩ := List.map_eq_cons_iff.mp hs
    obtain ⟨-, rfl⟩ := Grammar.eq_of_toSymbol_nonterminal hx
    obtain ⟨a, ha, hout⟩ := Grammar.mem_rules_toCFG.mp hr
    obtain ⟨w', hw', hsame⟩ := ihw hrest
    obtain ⟨alts, halts, items, hitems, u, hu, hwritten⟩ :=
      (hG.mem_alternatives_iff a.expansion).mp ⟨a, ha, rfl⟩
    obtain ⟨v', hv', hsamev⟩ : ∃ v', Sentence (itemsOf rules) u v' ∧ visible v' = visible v := by
      by_cases hnil : u = []
      · subst hnil
        have hterminal : r.output = [.terminal ""] := by
          rw [hout, ← hwritten, written, if_pos rfl, List.map_singleton,
            Grammar.toSymbol_of_notMem hempty]
          rfl
        rw [hterminal] at hv
        exact ⟨[], .nil, by rw [hv.eq_singleton]; rfl⟩
      · refine ihv ?_
        rw [hout, ← hwritten, written, if_neg hnil]
    exact ⟨v' ++ w', .rule halts hitems hu hv' hw', by rw [visible_append, visible_append, hsamev, hsame]⟩

theorem renderSymbol_empty (getone : String → String) : renderSymbol getone "" = "" := rfl

theorem spells_cons {exrex : ℕ → String → String} {s : Sym} {w : List Sym} {text : String} :
    Spells exrex (s :: w) text ↔
      ∃ r rest, text = renderSymbol (exrex r) s ++ rest ∧ Spells exrex w rest := by
  constructor
  · rintro ⟨draws, hlen, rfl⟩
    obtain ⟨r, draws, rfl⟩ : ∃ r rest, draws = r :: rest :=
      List.exists_cons_of_ne_nil (by rintro rfl; simp at hlen)
    exact ⟨r, _, by rw [List.zipWith_cons_cons, String.join_cons], draws, by simpa using hlen, rfl⟩
  · rintro ⟨r, rest, rfl, draws, hlen, rfl⟩
    exact ⟨r :: draws, by simp [hlen], by rw [List.zipWith_cons_cons, String.join_cons]⟩

theorem spells_visible (exrex : ℕ → String → String) (w : List Sym) (text : String) :
    Spells exrex w text ↔ Spells exrex (visible w) text := by
  induction w generalizing text with
  | nil => rfl
  | cons s w ih =>
    by_cases hs : s = ""
    · subst hs
      have hvisible : visible ("" :: w) = visible w := rfl
      rw [hvisible, ← ih, spells_cons]
      simp [renderSymbol_empty]
    · have hvisible : visible (s :: w) = s :: visible w := List.filter_cons_of_pos (by simpa using hs)
      rw [hvisible, spells_cons, spells_cons]
      simp only [ih]

/-- The texts of the unrolled grammar are those of the sentences. -/
theorem Unrolled.exists_spells_iff (hG : Unrolled rules G) (hempty : "" ∉ G.keys)
    (hstart : start ∈ G.keys) (exrex : ℕ → String → String) (text : String) :
    (∃ w ∈ (G.toCFG start).language, Spells exrex w text) ↔
      ∃ w, Sentence (itemsOf rules) [start] w ∧ Spells exrex w text := by
  have hinitial : [start].map G.toSymbol = [Symbol.nonterminal (G.toCFG start).initial] := by
    rw [List.map_singleton, Grammar.toSymbol_of_mem hstart]
    rfl
  constructor
  · rintro ⟨w, hw, hspells⟩
    rw [ContextFreeGrammar.mem_language_iff, derives_iff_yields] at hw
    obtain ⟨w', hw', hsame⟩ := Sentence.of_yields hG hempty hw hinitial
    rw [spells_visible, ← hsame, ← spells_visible] at hspells
    exact ⟨w', hw', hspells⟩
  · rintro ⟨w, hw, hspells⟩
    obtain ⟨w', hw', hsame⟩ : ∃ w', Yields (G.toCFG start) ([start].map G.toSymbol) w' ∧
        visible w' = visible w := hw.yields hG hempty
    rw [spells_visible, ← hsame, ← spells_visible] at hspells
    refine ⟨w', ?_, hspells⟩
    rw [ContextFreeGrammar.mem_language_iff, derives_iff_yields, ← hinitial]
    exact hw'

end Sentences

end RSFuzz
