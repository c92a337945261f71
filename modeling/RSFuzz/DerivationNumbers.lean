import RSFuzz.BnfRoundTrip
import RSFuzz.FoundationOptionFold

set_option autoImplicit false

/-!
# Derivation numbers and separators

An alternative is numbered by its set of words without separators, which is
taken before quoted blanks are put together. So the two quotes of a blank are
still words of that set, and the blank that replaces them is a separator.
-/
namespace RSFuzz
open OrderedMap OptionFold Pattern Numbering

def quote : Text := ['"']

/-- `word_set`: what the alternative is numbered by. -/
def wordSet (words : List Text) : Finset Text := words.toFinset \ separatorTexts

def alternativeWords (line : Text) : List (List Text) :=
  ((search (whole (lit [' ', '=', ' '])) line).elim [] fun found =>
    (split probPattern found.2.2).filter fun piece => !isSeparatorPiece piece).map fun piece =>
      piece.splitOn ' '

/-- Lone quotes stand side by side in pairs, as those of quoted blanks do. -/
def quotesPaired : List Text → Bool
  | [] => true
  | [word] => word ≠ quote
  | word :: next :: rest =>
    if word = quote then next = quote && quotesPaired rest else quotesPaired (next :: rest)

/-- There are lone quotes, and only those of quoted blanks. -/
def OnlyBlankQuotes (words : List Text) : Prop := quote ∈ words ∧ quotesPaired words = true

instance (words : List Text) : Decidable (OnlyBlankQuotes words) :=
  inferInstanceAs (Decidable (_ ∧ _))

def SameWords (words words' : List Text) : Prop :=
  words.toFinset \ insert quote separatorTexts = words'.toFinset \ insert quote separatorTexts

instance (words words' : List Text) : Decidable (SameWords words words') :=
  inferInstanceAs (Decidable (_ = _))

theorem blank_mem_separatorTexts : [' '] ∈ separatorTexts := by decide

theorem nil_mem_separatorTexts : [] ∈ separatorTexts := by decide

theorem quote_notMem_separatorTexts : quote ∉ separatorTexts := by decide

theorem quote_mem_wordSet {words : List Text} : quote ∈ wordSet words ↔ quote ∈ words := by
  simp [wordSet, quote_notMem_separatorTexts]

theorem quotesPaired_of_notMem (words : List Text) (h : quote ∉ words) :
    quotesPaired words = true := by
  induction words using quotesPaired.induct with
  | case1 => rfl
  | case2 word =>
    have hne : word ≠ quote := fun he => h (List.mem_singleton.mpr he.symm)
    simp [quotesPaired, hne]
  | case3 next rest => simp at h
  | case4 word next rest hne ih =>
    rw [quotesPaired, if_neg hne]
    exact ih fun hmem => h (List.mem_cons_of_mem word hmem)

theorem mem_mergeBlanks_of_ne {word : Text} (hsep : word ∉ separatorTexts) (hquote : word ≠ quote)
    (words : List Text) : word ∈ mergeBlanks words ↔ word ∈ words := by
  have hnil : word ≠ [] := fun h => hsep (h ▸ nil_mem_separatorTexts)
  have hblank : word ≠ [' '] := fun h => hsep (h ▸ blank_mem_separatorTexts)
  have hlone : word ≠ ['"'] := hquote
  induction words using mergeBlanks.induct with
  | case1 => simp [mergeBlanks]
  | case2 => simp [mergeBlanks, hnil]
  | case3 first hne => simp [mergeBlanks, hne]
  | case4 next rest ih =>
    rw [mergeBlanks, if_pos rfl, List.mem_cons, or_iff_right hnil]
    exact ih
  | case5 first next rest hne hquotes ih =>
    obtain ⟨rfl, rfl⟩ := hquotes
    rw [mergeBlanks, if_neg hne, if_pos ⟨rfl, rfl⟩, List.mem_cons, or_iff_right hblank,
      List.mem_cons, or_iff_right hlone, List.mem_cons, or_iff_right hlone]
    exact ih
  | case6 first next rest hne hquotes ih =>
    rw [mergeBlanks, if_neg hne, if_neg hquotes, List.mem_cons, List.mem_cons]
    exact or_congr_right ih

theorem quote_mem_mergeBlanks (words : List Text) :
    quote ∈ mergeBlanks words ↔ quotesPaired words = false := by
  induction words using mergeBlanks.induct with
  | case1 => simp [mergeBlanks, quotesPaired]
  | case2 => simp [mergeBlanks, quotesPaired, quote]
  | case3 first hne =>
    rw [mergeBlanks, if_neg hne, quotesPaired, List.mem_singleton, decide_eq_false_iff_not, not_not]
    exact eq_comm
  | case4 next rest ih =>
    rw [mergeBlanks, if_pos rfl, ih, quotesPaired, if_neg (by decide)]
  | case5 first next rest hne hquotes ih =>
    obtain ⟨rfl, rfl⟩ := hquotes
    rw [mergeBlanks, if_neg hne, if_pos ⟨rfl, rfl⟩, List.mem_cons, ih,
      or_iff_right (show quote ≠ [' '] by decide)]
    simp [quotesPaired, quote]
  | case6 first next rest hne hquotes ih =>
    rw [mergeBlanks, if_neg hne, if_neg hquotes, List.mem_cons, ih, quotesPaired]
    by_cases hfirst : first = quote
    · have hnext : next ≠ quote := fun hn => hquotes ⟨hfirst, hn⟩
      simp [hfirst, hnext]
    · simp [hfirst, Ne.symm hfirst]

theorem wordSet_sdiff_quote (words : List Text) :
    wordSet words \ {quote} = words.toFinset \ insert quote separatorTexts := by
  ext word
  simp only [wordSet, Finset.mem_sdiff, Finset.mem_singleton, Finset.mem_insert, not_or]
  rw [and_assoc, and_comm (a := word ∉ separatorTexts)]

theorem wordSet_mergeBlanks_sdiff_quote (words : List Text) :
    wordSet (mergeBlanks words) \ {quote} = wordSet words \ {quote} := by
  ext word
  simp only [wordSet, Finset.mem_sdiff, List.mem_toFinset, Finset.mem_singleton]
  constructor
  · rintro ⟨⟨hmem, hsep⟩, hne⟩
    exact ⟨⟨(mem_mergeBlanks_of_ne hsep hne words).mp hmem, hsep⟩, hne⟩
  · rintro ⟨⟨hmem, hsep⟩, hne⟩
    exact ⟨⟨(mem_mergeBlanks_of_ne hsep hne words).mpr hmem, hsep⟩, hne⟩

theorem eq_iff_sdiff_singleton {α : Type} [DecidableEq α] (s t : Finset α) (a : α) :
    s = t ↔ s \ {a} = t \ {a} ∧ (a ∈ s ↔ a ∈ t) := by
  constructor
  · rintro rfl
    exact ⟨rfl, Iff.rfl⟩
  · rintro ⟨hrest, ha⟩
    ext x
    by_cases hx : x = a
    · rw [hx, ha]
    · have := Finset.ext_iff.mp hrest x
      simpa [hx] using this

theorem wordSet_eq_iff_stored (words words' : List Text) :
    (wordSet words = wordSet words' ↔ wordSet (mergeBlanks words) = wordSet (mergeBlanks words')) ↔
      (SameWords words words' → (OnlyBlankQuotes words ↔ OnlyBlankQuotes words')) := by
  have hpaired := quotesPaired_of_notMem words
  have hpaired' := quotesPaired_of_notMem words'
  rw [eq_iff_sdiff_singleton (wordSet words) _ quote,
    eq_iff_sdiff_singleton (wordSet (mergeBlanks words)) _ quote, wordSet_mergeBlanks_sdiff_quote,
    wordSet_mergeBlanks_sdiff_quote, wordSet_sdiff_quote, wordSet_sdiff_quote, quote_mem_wordSet,
    quote_mem_wordSet, quote_mem_wordSet, quote_mem_wordSet, quote_mem_mergeBlanks,
    quote_mem_mergeBlanks, ← Bool.not_eq_true, ← Bool.not_eq_true]
  unfold OnlyBlankQuotes
  rw [← SameWords]
  tauto

section Rows

variable {V : Type} {float : Text → Option V}

/-- The row keeps the merged words, and its number is the place of its set. -/
def RowOf (usedSets : List (Finset Text)) (words : List Text) (row : ParsedAlternative V) : Prop :=
  row.words = mergeBlanks words ∧ wordSet words ∈ usedSets ∧
    row.derivNum = usedSets.idxOf (wordSet words)

theorem RowOf.enter {usedSets : List (Finset Text)} {words : List Text} {row : ParsedAlternative V}
    (h : RowOf usedSets words row) (key : Finset Text) : RowOf (enter usedSets key) words row := by
  obtain ⟨hwords, hmem, hnum⟩ := h
  exact ⟨hwords, mem_enter.mpr (Or.inl hmem), by rw [idxOf_enter hmem, hnum]⟩

theorem RowOf.derivNum_eq_iff {usedSets : List (Finset Text)} {words words' : List Text}
    {row row' : ParsedAlternative V} (h : RowOf usedSets words row)
    (h' : RowOf usedSets words' row') :
    row.derivNum = row'.derivNum ↔ wordSet words = wordSet words' := by
  rw [h.2.2, h'.2.2]
  exact idxOf_inj_of_mem h.2.1

theorem addWords_cases {probs : List Text} {s s' : LineState V} {piece : Text}
    (h : addWords splitWords float probs s piece = some s') :
    (isSeparatorPiece piece = true ∧ s' = s) ∨
    (isSeparatorPiece piece = false ∧ ∃ row,
      s'.usedSets = enter s.usedSets (wordSet (piece.splitOn ' ')) ∧
      s'.alternatives = s.alternatives ++ [row] ∧ RowOf s'.usedSets (piece.splitOn ' ') row) := by
  unfold addWords at h
  split_ifs at h with hsep
  · exact Or.inl ⟨hsep, (Option.some.inj h).symm⟩
  · simp only [splitWords, Option.bind_eq_bind, Option.bind_some] at h
    obtain ⟨raw, -, h⟩ := Option.bind_eq_some_iff.mp h
    obtain ⟨prob, -, h⟩ := Option.bind_eq_some_iff.mp h
    obtain rfl := Option.some.inj h
    exact Or.inr ⟨Bool.eq_false_iff.mpr hsep, _, rfl, rfl, rfl, self_mem_enter _ _, rfl⟩

def RowsOf (done : List Text) (s : LineState V) : Prop :=
  List.Forall₂ (RowOf s.usedSets)
    ((done.filter fun piece => !isSeparatorPiece piece).map fun piece => piece.splitOn ' ')
    s.alternatives

theorem RowsOf.step {probs done : List Text} {s s' : LineState V} {piece : Text}
    (h : RowsOf done s) (hstep : addWords splitWords float probs s piece = some s') :
    RowsOf (done ++ [piece]) s' := by
  unfold RowsOf at h ⊢
  rw [List.filter_append, List.map_append]
  obtain ⟨hsep, rfl⟩ | ⟨hsep, row, hused, halts, hrow⟩ := addWords_cases hstep
  · rw [List.filter_cons_of_neg (by simp [hsep]), List.filter_nil, List.map_nil, List.append_nil]
    exact h
  · rw [List.filter_cons_of_pos (by simp [hsep]), List.filter_nil, halts]
    refine List.rel_append (h.imp fun words row hrow => ?_) (List.Forall₂.cons hrow .nil)
    rw [hused]
    exact hrow.enter _

theorem parseLine_rows {line name : Text} {rows : List (ParsedAlternative V)}
    (h : parseLine splitWords float line = some (name, rows)) :
    ∃ usedSets, List.Forall₂ (RowOf usedSets) (alternativeWords line) rows := by
  obtain ⟨⟨ruleName, mark, right⟩, hname, h⟩ := Option.bind_eq_some_iff.mp h
  obtain ⟨s, hs, h⟩ := Option.bind_eq_some_iff.mp h
  obtain ⟨-, rfl⟩ := Prod.mk.inj (Option.some.inj h)
  have hrows : RowsOf (split probPattern right) s :=
    foldlM_invariant RowsOf (fun _ _ _ _ _ hinv hstep => hinv.step hstep)
      (show RowsOf [] (⟨[], 0, []⟩ : LineState V) from List.Forall₂.nil) hs
  refine ⟨s.usedSets, ?_⟩
  rw [alternativeWords, hname]
  exact hrows

theorem exists_of_forall₂ {α β : Type} {R : α → β → Prop} {xs : List α} {ys : List β}
    (h : List.Forall₂ R xs ys) :
    (∀ x ∈ xs, ∃ y ∈ ys, R x y) ∧ ∀ y ∈ ys, ∃ x ∈ xs, R x y := by
  induction h with
  | nil => simp
  | cons hxy _ ih =>
    constructor
    · intro x hx
      rcases List.mem_cons.mp hx with rfl | hx
      · exact ⟨_, List.mem_cons_self, hxy⟩
      · obtain ⟨y, hy, hR⟩ := ih.1 x hx
        exact ⟨y, List.mem_cons_of_mem _ hy, hR⟩
    · intro y hy
      rcases List.mem_cons.mp hy with rfl | hy
      · exact ⟨_, List.mem_cons_self, hxy⟩
      · obtain ⟨x, hx, hR⟩ := ih.2 y hy
        exact ⟨x, List.mem_cons_of_mem _ hx, hR⟩

/-- Two alternatives have one number exactly if the lists stored for them agree up to separators. -/
def NumbersIgnoreSeparators (rows : List (ParsedAlternative V)) : Prop :=
  ∀ a ∈ rows, ∀ b ∈ rows, a.derivNum = b.derivNum ↔
    a.words.toFinset \ separatorTexts = b.words.toFinset \ separatorTexts

theorem numbersIgnoreSeparators_iff {line name : Text} {rows : List (ParsedAlternative V)}
    (h : parseLine splitWords float line = some (name, rows)) :
    NumbersIgnoreSeparators rows ↔
      ∀ ws ∈ alternativeWords line, ∀ ws' ∈ alternativeWords line, SameWords ws ws' →
        (OnlyBlankQuotes ws ↔ OnlyBlankQuotes ws') := by
  obtain ⟨usedSets, hrows⟩ := parseLine_rows h
  obtain ⟨hrow, hwords⟩ := exists_of_forall₂ hrows
  have hpair : ∀ {ws ws' : List Text} {a b : ParsedAlternative V}, RowOf usedSets ws a →
      RowOf usedSets ws' b → ((a.derivNum = b.derivNum ↔
        a.words.toFinset \ separatorTexts = b.words.toFinset \ separatorTexts) ↔
          (SameWords ws ws' → (OnlyBlankQuotes ws ↔ OnlyBlankQuotes ws'))) := by
    intro ws ws' a b ha hb
    rw [ha.derivNum_eq_iff hb, ha.1, hb.1]
    exact wordSet_eq_iff_stored ws ws'
  constructor
  · intro hnum ws hws ws' hws'
    obtain ⟨a, ha, hra⟩ := hrow ws hws
    obtain ⟨b, hb, hrb⟩ := hrow ws' hws'
    exact (hpair hra hrb).mp (hnum a ha b hb)
  · intro hcond a ha b hb
    obtain ⟨ws, hws, hra⟩ := hwords a ha
    obtain ⟨ws', hws', hrb⟩ := hwords b hb
    exact (hpair hra hrb).mpr (hcond ws hws ws' hws')

theorem exists_line_of_get? {decode : Text → Option Text} {lines : List Text}
    {pcfg : Map Text (List (ParsedAlternative V))}
    (h : parseBnf decode splitWords float lines = some pcfg) :
    ∀ name rows, pcfg.get? name = some rows → ∃ line ∈ lines, ∃ text, decode line = some text ∧
      parseLine splitWords float text = some (name, rows) := by
  refine foldlM_invariant (fun done pcfg => ∀ name rows, pcfg.get? name = some rows →
    ∃ line ∈ done, ∃ text, decode line = some text ∧
      parseLine splitWords float text = some (name, rows)) ?_ (by simp) h
  intro done line pcfg pcfg' _ hinv hstep name rows hget
  have hold : pcfg.get? name = some rows → ∃ l ∈ done ++ [line], ∃ text, decode l = some text ∧
      parseLine splitWords float text = some (name, rows) := by
    intro hget
    obtain ⟨l, hl, hread⟩ := hinv name rows hget
    exact ⟨l, List.mem_append_left _ hl, hread⟩
  unfold parseRule at hstep
  split_ifs at hstep with hempty
  · obtain rfl := Option.some.inj hstep
    exact hold hget
  · obtain ⟨text, htext, hstep⟩ := Option.bind_eq_some_iff.mp hstep
    obtain ⟨⟨ruleName, alternatives⟩, hparse, hstep⟩ := Option.bind_eq_some_iff.mp hstep
    obtain rfl := Option.some.inj hstep
    rw [Map.get?_set] at hget
    split_ifs at hget with hname
    · obtain rfl := hname
      obtain rfl := Option.some.inj hget
      exact ⟨line, by simp, text, htext, hparse⟩
    · exact hold hget

end Rows

/-- On a line, numbers go by the stored lists up to separators exactly if of two alternatives with
    the same words, both or none have quotes that all became blanks. All rules are read so. -/
theorem derivNums_ignore_separators_iff {V : Type} (decode : Text → Option Text)
    (float : Text → Option V) :
    (∀ line name rows, parseLine splitWords float line = some (name, rows) →
      (NumbersIgnoreSeparators rows ↔
        ∀ ws ∈ alternativeWords line, ∀ ws' ∈ alternativeWords line, SameWords ws ws' →
          (OnlyBlankQuotes ws ↔ OnlyBlankQuotes ws'))) ∧
    ∀ lines pcfg, parseBnf decode splitWords float lines = some pcfg →
      ∀ name rows, pcfg.get? name = some rows → ∃ line ∈ lines, ∃ text, decode line = some text ∧
        parseLine splitWords float text = some (name, rows) :=
  ⟨fun _ _ _ h => numbersIgnoreSeparators_iff h, fun _ _ h => exists_line_of_get? h⟩

def blankLine : Text := "pair = a b @@ 0.5 | a \" \" b @@ 1.0;\n".toList

/-- The stored lists are the same up to the blank, and the numbers differ. -/
theorem derivNums_see_blank :
    parseLine splitWords sampleFloat blankLine = some ("pair".toList,
      [⟨[['a'], ['b']], 0, 1 / 2⟩, ⟨[['a'], [' '], ['b']], 1, 1⟩]) ∧
    [['a'], ['b']].toFinset \ separatorTexts = [['a'], [' '], ['b']].toFinset \ separatorTexts ∧
    ¬ NumbersIgnoreSeparators
      ([⟨[['a'], ['b']], 0, 1 / 2⟩, ⟨[['a'], [' '], ['b']], 1, 1⟩] : List (ParsedAlternative ℚ)) := by
  have hsame : [['a'], ['b']].toFinset \ separatorTexts =
      [['a'], [' '], ['b']].toFinset \ separatorTexts := by decide +kernel
  refine ⟨by decide +kernel, hsame, fun hnum => ?_⟩
  have hnum := (hnum _ List.mem_cons_self _
    (List.mem_cons_of_mem _ (List.mem_singleton_self _))).mpr hsame
  exact absurd hnum (by decide)

theorem derivNums_ignore_separators_iff_words :
    ∃ rows, parseLine splitWords sampleFloat "pair = a b @@ 0.5 | b a @@ 1.0;\n".toList =
      some ("pair".toList, rows) ∧ NumbersIgnoreSeparators rows := by
  have hrun : parseLine splitWords sampleFloat "pair = a b @@ 0.5 | b a @@ 1.0;\n".toList =
      some ("pair".toList, [⟨[['a'], ['b']], 0, 1 / 2⟩, ⟨[['b'], ['a']], 0, 1⟩]) := by
    decide +kernel
  refine ⟨_, hrun, ((derivNums_ignore_separators_iff some sampleFloat).1 _ _ _ hrun).mpr ?_⟩
  have hwords : ∀ ws ∈ alternativeWords "pair = a b @@ 0.5 | b a @@ 1.0;\n".toList, quote ∉ ws := by
    have halts : alternativeWords "pair = a b @@ 0.5 | b a @@ 1.0;\n".toList =
        [[['a'], ['b']], [['b'], ['a']]] := by decide +kernel
    rw [halts]
    decide
  intro ws hws ws' hws' _
  exact iff_of_false (fun h => hwords ws hws h.1) (fun h => hwords ws' hws' h.1)

end RSFuzz
