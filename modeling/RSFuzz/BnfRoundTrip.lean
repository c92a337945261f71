import RSFuzz.BnfParsing

set_option autoImplicit false

/-!
# Printed grammar lines are read back

A rule printed as `name = alt @@ p | ... | alt @@ p;` gives its token lists in
order, each with its own probability: the split and the separate search for
probabilities see the same occurrences of the mark, and pieces are skipped
exactly where they are separators.
-/
namespace RSFuzz
open OrderedMap Pattern Numbering

structure IsWord (word : Text) : Prop where
  nonempty : word ≠ []
  noBlank : ' ' ∉ word
  noMark : ¬ ['@', '@'] <:+: word
  notQuote : word ≠ ['"']
  notEnd : word ≠ [';', '\n']

inductive PrintedToken where
  | blank
  | word (w : Text) (h : IsWord w)

namespace PrintedToken

def text : PrintedToken → Text
  | .blank => [' ']
  | .word w _ => w

def printed : PrintedToken → Text
  | .blank => ['"', ' ', '"']
  | .word w _ => w

/-- What a split at blanks makes of the printed form. -/
def pieces : PrintedToken → List Text
  | .blank => [['"'], ['"']]
  | .word w _ => [w]

end PrintedToken

structure PrintedAlternative where
  tokens : List PrintedToken
  prob : Text
  nonempty : tokens ≠ []
  noBar : (joinBlank (tokens.map PrintedToken.printed)).head? ≠ some '|'
  probNonempty : prob ≠ []
  probChars : ∀ c ∈ prob, isProbChar c = true

namespace PrintedAlternative

def body (a : PrintedAlternative) : Text := joinBlank (a.tokens.map PrintedToken.printed)

def words (a : PrintedAlternative) : List Text := a.tokens.map PrintedToken.text

def text (a : PrintedAlternative) : Text := a.body ++ [' ', '@', '@', ' '] ++ a.prob

end PrintedAlternative

structure PrintedRule where
  name : Text
  alternatives : List PrintedAlternative
  noBlank : ' ' ∉ name
  nonempty : alternatives ≠ []

def printAlternatives (alts : List PrintedAlternative) : Text :=
  [' ', '|', ' '].intercalate (alts.map PrintedAlternative.text) ++ [';', '\n']

def PrintedRule.text (rule : PrintedRule) : Text :=
  rule.name ++ [' ', '=', ' '] ++ printAlternatives rule.alternatives

theorem noMark_append {c : Char} (hc : c ≠ '@') {x y : Text} (hx : ¬ ['@', '@'] <:+: x)
    (hy : ¬ ['@', '@'] <:+: y) : ¬ ['@', '@'] <:+: x ++ c :: y := by
  induction x with
  | nil =>
    rw [List.nil_append, List.infix_cons_iff]
    rintro (h | h)
    · exact hc (List.cons_prefix_cons.mp h).1.symm
    · exact hy h
  | cons d x ih =>
    rw [List.cons_append, List.infix_cons_iff]
    rintro (h | h)
    · obtain ⟨hd, h⟩ := List.cons_prefix_cons.mp h
      cases x with
      | nil => exact hc (List.cons_prefix_cons.mp h).1.symm
      | cons e x =>
        have he := (List.cons_prefix_cons.mp h).1
        exact hx (List.IsPrefix.isInfix ⟨x, by rw [← hd, ← he]; rfl⟩)
    · exact ih (fun hinf => hx (List.infix_cons_iff.mpr (Or.inr hinf))) h

/-- No blank at either end and no mark inside. -/
structure Tight (text : Text) : Prop where
  nonempty : text ≠ []
  head : text.head? ≠ some ' '
  last : text.getLast? ≠ some ' '
  noMark : ¬ ['@', '@'] <:+: text

theorem Tight.append {x y : Text} (hx : Tight x) (hy : Tight y) : Tight (x ++ ' ' :: y) where
  nonempty := by simp
  head := by
    rw [List.head?_append_of_ne_nil _ hx.nonempty]
    exact hx.head
  last := by
    rw [← List.singleton_append, ← List.append_assoc, List.getLast?_append_of_ne_nil _ hy.nonempty]
    exact hy.last
  noMark := noMark_append (by decide) hx.noMark hy.noMark

theorem Tight.join {texts : List Text} (h : ∀ text ∈ texts, Tight text) (hne : texts ≠ []) :
    Tight (joinBlank texts) := by
  induction texts with
  | nil => exact absurd rfl hne
  | cons text texts ih =>
    by_cases hlast : texts = []
    · subst hlast
      simpa [joinBlank] using h text (by simp)
    · rw [joinBlank_cons text hlast]
      exact (h text (by simp)).append (ih (fun t ht => h t (List.mem_cons_of_mem _ ht)) hlast)

theorem IsWord.tight {word : Text} (h : IsWord word) : Tight word where
  nonempty := h.nonempty
  head hblank := h.noBlank (List.mem_of_head? hblank)
  last hblank := h.noBlank (List.mem_of_getLast? hblank)
  noMark := h.noMark

theorem PrintedToken.tight (t : PrintedToken) : Tight t.printed := by
  cases t with
  | blank => exact ⟨by decide, by decide, by decide, by decide⟩
  | word word h => exact h.tight

theorem PrintedAlternative.tight (a : PrintedAlternative) : Tight a.body := by
  refine Tight.join (fun text htext => ?_) (by simpa using a.nonempty)
  obtain ⟨t, -, rfl⟩ := List.mem_map.mp htext
  exact t.tight

theorem joinBlank_pieces (tokens : List PrintedToken) :
    joinBlank (tokens.map PrintedToken.printed) = joinBlank (tokens.flatMap PrintedToken.pieces) := by
  induction tokens with
  | nil => rfl
  | cons t tokens ih =>
    by_cases hlast : tokens = []
    · subst hlast
      cases t <;> rfl
    · have hprinted : tokens.map PrintedToken.printed ≠ [] := by simpa using hlast
      have hpieces : tokens.flatMap PrintedToken.pieces ≠ [] := by
        obtain ⟨next, tokens, rfl⟩ := List.exists_cons_of_ne_nil hlast
        cases next <;> simp [PrintedToken.pieces]
      rw [List.map_cons, List.flatMap_cons, joinBlank_cons _ hprinted, ih]
      cases t with
      | blank =>
        rw [PrintedToken.pieces, List.cons_append, List.cons_append, List.nil_append,
          joinBlank_cons _ (by simp), joinBlank_cons _ hpieces]
        rfl
      | word word h =>
        rw [PrintedToken.pieces, List.singleton_append, joinBlank_cons _ hpieces]
        rfl

theorem splitWords_body (a : PrintedAlternative) :
    splitWords a.body = some (a.tokens.flatMap PrintedToken.pieces) := by
  rw [splitWords, PrintedAlternative.body, joinBlank_pieces]
  congr 1
  refine List.splitOn_intercalate ' ' (fun piece hpiece => ?_) ?_
  · obtain ⟨t, -, hpiece⟩ := List.mem_flatMap.mp hpiece
    cases t with
    | blank =>
      obtain rfl : piece = ['"'] := by simpa [PrintedToken.pieces] using hpiece
      decide
    | word word h =>
      obtain rfl := List.mem_singleton.mp hpiece
      exact h.noBlank
  · obtain ⟨t, tokens, htokens⟩ := List.exists_cons_of_ne_nil a.nonempty
    rw [htokens]
    cases t <;> simp [PrintedToken.pieces]

theorem mergeBlanks_word {word : Text} (hne : word ≠ []) (hquote : word ≠ ['"'])
    (rest : List Text) : mergeBlanks (word :: rest) = word :: mergeBlanks rest := by
  cases rest with
  | nil => simp [mergeBlanks, hne]
  | cons next rest => simp [mergeBlanks, hne, hquote]

theorem mergeBlanks_pieces (tokens : List PrintedToken) :
    mergeBlanks (tokens.flatMap PrintedToken.pieces) = tokens.map PrintedToken.text := by
  induction tokens with
  | nil => rfl
  | cons t tokens ih =>
    rw [List.flatMap_cons, List.map_cons, ← ih]
    cases t with
    | blank => rfl
    | word word h => exact mergeBlanks_word h.nonempty h.notQuote _

theorem probPattern_consumes : Consumes probPattern := by
  have hbar : Shrinks bar 0 := (((shrinks_repeated isBlank 0).followedBy
    ((shrinks_lit ['|']).followedBy (shrinks_repeated isBlank 0)))).of_le (Nat.zero_le _)
  exact ((shrinks_lit [' ', '@', '@', ' ']).followedBy (shrinks_repeated isProbChar 1)).captured
    (hbar.orElse ((shrinks_lit [';', '\n']).of_le (Nat.zero_le _)))

theorem probSimple_consumes : Consumes probSimple :=
  ((shrinks_lit ['@', '@', ' ']).followedBy (shrinks_repeated isProbChar 1)).whole

theorem probPattern_misses {front : Text} (h : Tight front) (s : Text) :
    Misses probPattern front (' ' :: s) := by
  intro u v huv hv
  refine captured_eq_none (followedBy_eq_nil (lit_eq_nil fun hpre => ?_))
  -- a match would need the mark inside the front, or a blank at its end
  match v, hv with
  | [c], _ =>
    obtain ⟨hc, -⟩ := List.cons_prefix_cons.mp hpre
    exact h.last (by rw [huv, List.getLast?_concat, hc])
  | [c, d], _ =>
    obtain ⟨-, hpre⟩ := List.cons_prefix_cons.mp hpre
    obtain ⟨-, hpre⟩ := List.cons_prefix_cons.mp hpre
    exact absurd (List.cons_prefix_cons.mp hpre).1 (by decide)
  | c :: d :: e :: v, _ =>
    obtain ⟨-, hpre⟩ := List.cons_prefix_cons.mp hpre
    obtain ⟨hd, hpre⟩ := List.cons_prefix_cons.mp hpre
    have he := (List.cons_prefix_cons.mp hpre).1
    exact h.noMark ⟨u ++ [c], v, by simp [huv, ← hd, ← he]⟩

theorem probSimple_misses {front : Text} (hmark : ¬ ['@', '@'] <:+: front)
    (hlast : front.getLast? ≠ some '@') (s : Text) : Misses probSimple front s := by
  intro u v huv hv
  have hnil : lit ['@', '@', ' '] (v ++ s) = [] := by
    refine lit_eq_nil fun hpre => ?_
    match v, hv with
    | [c], _ =>
      obtain ⟨hc, -⟩ := List.cons_prefix_cons.mp hpre
      exact hlast (by rw [huv, List.getLast?_concat, hc])
    | c :: d :: v, _ =>
      obtain ⟨hc, hpre⟩ := List.cons_prefix_cons.mp hpre
      have hd := (List.cons_prefix_cons.mp hpre).1
      exact hmark ⟨u, v, by simp [huv, ← hc, ← hd]⟩
  rw [probSimple, whole, followedBy_eq_nil hnil, List.head?_nil]

/-- What stands behind the probability of an alternative. -/
inductive Separates : Text → Text → Prop where
  | next {rest : Text} (h : rest.head? ≠ some ' ') : Separates [' ', '|', ' '] rest
  | finish : Separates [';', '\n'] []

theorem Separates.stops {sep rest : Text} (h : Separates sep rest) :
    Stops isProbChar (sep ++ rest) := by
  intro c hc
  cases h with
  | next _ =>
    obtain rfl : ' ' = c := by simpa using hc
    rfl
  | finish =>
    obtain rfl : ';' = c := by simpa using hc
    rfl

theorem Separates.group {sep rest : Text} (h : Separates sep rest) :
    (orElse bar (lit [';', '\n']) (sep ++ rest)).head? = some (sep, rest) := by
  cases h with
  | next hrest =>
    have hstops : Stops isBlank rest := by
      intro c hc
      have hne : c ≠ ' ' := fun he => hrest (he ▸ hc)
      simpa [isBlank] using hne
    have hbehind : (repeated isBlank 0 ([' '] ++ rest)).head? = some ([' '], rest) :=
      repeated_append (by simp [isBlank]) hstops (by simp)
    have hbar : (lit ['|'] (['|'] ++ ([' '] ++ rest))).head? = some (['|'], [' '] ++ rest) := by
      rw [lit_append, List.head?_cons]
    have hfront : (repeated isBlank 0 ([' '] ++ (['|'] ++ ([' '] ++ rest)))).head? =
        some ([' '], ['|'] ++ ([' '] ++ rest)) :=
      repeated_append (by simp [isBlank]) (by simp [Stops, isBlank]) (by simp)
    exact orElse_head?_left (followedBy_head? hfront (followedBy_head? hbar hbehind))
  | finish => rfl

theorem isProbChar_repeated (a : PrintedAlternative) {s : Text} (hs : Stops isProbChar s) :
    (repeated isProbChar 1 (a.prob ++ s)).head? = some (a.prob, s) :=
  repeated_append a.probChars hs (List.length_pos_iff.mpr a.probNonempty)

theorem probPattern_match (a : PrintedAlternative) {sep rest : Text} (h : Separates sep rest) :
    probPattern ([' ', '@', '@', ' '] ++ (a.prob ++ (sep ++ rest))) = some (sep, rest) := by
  have hlit : (lit [' ', '@', '@', ' '] ([' ', '@', '@', ' '] ++ (a.prob ++ (sep ++ rest)))).head? =
      some ([' ', '@', '@', ' '], a.prob ++ (sep ++ rest)) := by
    rw [lit_append, List.head?_cons]
  exact captured_of_head? (followedBy_head? hlit (isProbChar_repeated a h.stops)) h.group

theorem probSimple_match (a : PrintedAlternative) {s : Text} (hs : Stops isProbChar s) :
    probSimple (['@', '@', ' '] ++ (a.prob ++ s)) = some (['@', '@', ' '] ++ a.prob, s) := by
  have hlit : (lit ['@', '@', ' '] (['@', '@', ' '] ++ (a.prob ++ s))).head? =
      some (['@', '@', ' '], a.prob ++ s) := by
    rw [lit_append, List.head?_cons]
  exact followedBy_head? hlit (isProbChar_repeated a hs)

theorem printAlternatives_single (a : PrintedAlternative) :
    printAlternatives [a] = a.body ++ ([' ', '@', '@', ' '] ++ (a.prob ++ ([';', '\n'] ++ []))) := by
  simp [printAlternatives, PrintedAlternative.text]

theorem printAlternatives_cons (a : PrintedAlternative) {alts : List PrintedAlternative}
    (h : alts ≠ []) : printAlternatives (a :: alts) = a.body ++
      ([' ', '@', '@', ' '] ++ (a.prob ++ ([' ', '|', ' '] ++ printAlternatives alts))) := by
  obtain ⟨b, alts, rfl⟩ := List.exists_cons_of_ne_nil h
  simp [printAlternatives, PrintedAlternative.text, List.intercalate_cons_cons]

theorem printAlternatives_head {alts : List PrintedAlternative} (h : alts ≠ []) :
    (printAlternatives alts).head? ≠ some ' ' := by
  obtain ⟨a, alts, rfl⟩ := List.exists_cons_of_ne_nil h
  obtain ⟨rest, hrest⟩ : ∃ rest, printAlternatives (a :: alts) = a.body ++ rest := by
    by_cases hlast : alts = []
    · subst hlast
      exact ⟨_, printAlternatives_single a⟩
    · exact ⟨_, printAlternatives_cons a hlast⟩
  rw [hrest, List.head?_append_of_ne_nil _ a.tight.nonempty]
  exact a.tight.head

theorem isSeparatorPiece_sep : isSeparatorPiece [' ', '|', ' '] = true ∧
    isSeparatorPiece [';', '\n'] = true ∧ isSeparatorPiece [] = true := by decide

theorem occurs_probPattern {alts : List PrintedAlternative} (h : alts ≠ []) :
    ∃ hits, Occurs probPattern (printAlternatives alts) hits [] ∧
      hits.map Prod.fst = alts.map PrintedAlternative.body ∧
      ∀ hit ∈ hits, isSeparatorPiece hit.2 = true := by
  induction alts with
  | nil => exact absurd rfl h
  | cons a alts ih =>
    by_cases hlast : alts = []
    · subst hlast
      refine ⟨[(a.body, [';', '\n'])], .found ?_ (.done rfl), rfl, by simp [isSeparatorPiece_sep]⟩
      rw [printAlternatives_single]
      exact search_append (probPattern_misses a.tight _) (probPattern_match a .finish)
    · obtain ⟨hits, hocc, hbodies, hseps⟩ := ih hlast
      refine ⟨(a.body, [' ', '|', ' ']) :: hits, .found ?_ hocc, by simp [hbodies], ?_⟩
      · rw [printAlternatives_cons a hlast]
        exact search_append (probPattern_misses a.tight _)
          (probPattern_match a (.next (printAlternatives_head hlast)))
      · intro hit hmem
        rcases List.mem_cons.mp hmem with rfl | hmem
        · exact isSeparatorPiece_sep.1
        · exact hseps hit hmem

theorem occurs_probSimple {alts : List PrintedAlternative} (h : alts ≠ []) (front : Text)
    (hfront : front = [] ∨ front = [' ', '|', ' ']) :
    ∃ hits tail, Occurs probSimple (front ++ printAlternatives alts) hits tail ∧
      hits.map Prod.snd = alts.map fun a => ['@', '@', ' '] ++ a.prob := by
  induction alts generalizing front with
  | nil => exact absurd rfl h
  | cons a alts ih =>
    have hmark : ¬ ['@', '@'] <:+: front ++ a.body ++ [' '] := by
      refine noMark_append (by decide) ?_ (by decide)
      rcases hfront with rfl | rfl
      · exact a.tight.noMark
      · exact noMark_append (x := [' ', '|']) (by decide) (by decide) a.tight.noMark
    have hfind : ∀ s, Stops isProbChar s →
        search probSimple (front ++ (a.body ++ ([' ', '@', '@', ' '] ++ (a.prob ++ s)))) =
          some (front ++ a.body ++ [' '], ['@', '@', ' '] ++ a.prob, s) := by
      intro s hs
      rw [← search_append (probSimple_misses hmark (by simp) _) (probSimple_match a hs)]
      simp
    by_cases hlast : alts = []
    · subst hlast
      have hone := hfind _ Separates.finish.stops
      rw [← printAlternatives_single] at hone
      exact ⟨_, _, .found hone (.done rfl), rfl⟩
    · obtain ⟨hits, tail, hocc, hprobs⟩ := ih hlast _ (Or.inr rfl)
      have hone := hfind _ (Separates.next (printAlternatives_head hlast)).stops
      rw [← printAlternatives_cons a hlast] at hone
      exact ⟨_, tail, .found hone hocc, by simp [hprobs]⟩

theorem PrintedAlternative.body_ne_finish (a : PrintedAlternative) : a.body ≠ [';', '\n'] := by
  obtain ⟨t, tokens, htokens⟩ := List.exists_cons_of_ne_nil a.nonempty
  rw [PrintedAlternative.body, htokens, List.map_cons]
  by_cases hlast : tokens = []
  · subst hlast
    cases t with
    | blank => decide
    | word w h =>
      have hone : joinBlank [w] = w := by simp [joinBlank]
      change joinBlank [w] ≠ _
      rw [hone]
      exact h.notEnd
  · rw [joinBlank_cons _ (by simpa using hlast)]
    intro heq
    have : ' ' ∈ [';', '\n'] := heq ▸ (by simp)
    exact absurd this (by decide)

theorem isSeparatorPiece_body (a : PrintedAlternative) : isSeparatorPiece a.body = false := by
  have hbar : bar a.body = [] := by
    obtain ⟨c, rest, hbody⟩ := List.exists_cons_of_ne_nil a.tight.nonempty
    have hblank := a.tight.head
    have hnobar : a.body.head? ≠ some '|' := a.noBar
    rw [hbody, List.head?_cons, ne_eq, Option.some.injEq] at hblank hnobar
    rw [hbody, bar, followedBy, repeated_zero_of_stops (by simp [Stops, isBlank, hblank]),
      List.flatMap_singleton, followedBy_eq_nil (lit_cons_ne (Ne.symm hnobar) _ _), List.map_nil]
  simp [isSeparatorPiece, hbar, a.body_ne_finish, a.tight.nonempty]

section Loop

variable {V : Type} {float : Text → Option V}

def ReadAs (float : Text → Option V) (rows : List (ParsedAlternative V))
    (alts : List PrintedAlternative) : Prop :=
  (rows.map fun row => (row.words, some row.prob)) = alts.map fun a => (a.words, float a.prob)

def PrintedRule.Floats (float : Text → Option V) (rule : PrintedRule) : Prop :=
  ∀ a ∈ rule.alternatives, ∃ v, float a.prob = some v

theorem addWords_separator (float : Text → Option V) (probs : List Text) {words : Text}
    (h : isSeparatorPiece words = true) (s : LineState V) :
    addWords splitWords float probs s words = some s := by
  rw [addWords, if_pos h]

theorem addWords_body (a : PrintedAlternative) {v : V} (hv : float a.prob = some v)
    {probs : List Text} {s : LineState V}
    (hraw : probs[s.probNum]? = some (['@', '@', ' '] ++ a.prob)) :
    ∃ s' row, addWords splitWords float probs s a.body = some s' ∧ s'.probNum = s.probNum + 1 ∧
      s'.alternatives = s.alternatives ++ [row] ∧ row.words = a.words ∧ row.prob = v := by
  have hfloat : float ((['@', '@', ' '] ++ a.prob).drop 3) = some v := hv
  let wordList := a.tokens.flatMap PrintedToken.pieces
  let wordSet := wordList.toFinset \ separatorTexts
  let usedSets := enter s.usedSets wordSet
  let row : ParsedAlternative V := ⟨mergeBlanks wordList, usedSets.idxOf wordSet, v⟩
  refine ⟨⟨usedSets, s.probNum + 1, s.alternatives ++ [row]⟩, row, ?_, rfl, rfl, ?_, rfl⟩
  · rw [addWords, isSeparatorPiece_body, if_neg Bool.false_ne_true, splitWords_body]
    simp only [Option.bind_eq_bind, Option.bind_some, hraw, hfloat, Option.pure_def]
    rfl
  · exact mergeBlanks_pieces a.tokens

/-- Pieces and probabilities advance together. Induction on the alternatives still to come. -/
theorem foldlM_addWords {alts : List PrintedAlternative} (hfloat : ∀ a ∈ alts, ∃ v, float a.prob = some v)
    {hits : List (Text × Text)} (hbodies : hits.map Prod.fst = alts.map PrintedAlternative.body)
    (hseps : ∀ hit ∈ hits, isSeparatorPiece hit.2 = true) {probs : List Text} (s : LineState V)
    (hprobs : probs.drop s.probNum = alts.map fun a => ['@', '@', ' '] ++ a.prob) :
    ∃ s' rows, (hits.flatMap fun hit => [hit.1, hit.2]).foldlM (addWords splitWords float probs) s =
        some s' ∧ s'.alternatives = s.alternatives ++ rows ∧ ReadAs float rows alts := by
  induction alts generalizing hits s with
  | nil =>
    obtain rfl : hits = [] := by simpa using hbodies
    exact ⟨s, [], rfl, by simp, rfl⟩
  | cons a alts ih =>
    obtain ⟨⟨body, sep⟩, hits, rfl⟩ : ∃ hit rest, hits = hit :: rest :=
      List.exists_cons_of_ne_nil (by rintro rfl; simp at hbodies)
    obtain ⟨hbody, hrest⟩ := List.cons.inj hbodies
    obtain rfl : body = a.body := hbody
    have hraw : probs[s.probNum]? = some (['@', '@', ' '] ++ a.prob) := by
      rw [← List.head?_drop, hprobs, List.map_cons, List.head?_cons]
    obtain ⟨v, hv⟩ := hfloat a (by simp)
    obtain ⟨s₁, row, hstep, hnum, halts, hwords, hprob⟩ := addWords_body a hv hraw
    have hmore : probs.drop s₁.probNum = alts.map fun a => ['@', '@', ' '] ++ a.prob := by
      rw [hnum, ← List.tail_drop, hprobs, List.map_cons, List.tail_cons]
    obtain ⟨s₂, rows, hrun, halts₂, hread⟩ := ih (fun b hb => hfloat b (List.mem_cons_of_mem a hb))
      hrest (fun hit hmem => hseps hit (List.mem_cons_of_mem _ hmem)) s₁ hmore
    refine ⟨s₂, row :: rows, ?_, by rw [halts₂, halts, List.append_assoc]; rfl, ?_⟩
    · have hsep := addWords_separator float probs (hseps (a.body, sep) (by simp)) s₁
      simp only [List.flatMap_cons, List.cons_append, List.nil_append, List.foldlM_cons,
        Option.bind_eq_bind, hstep, hsep, Option.bind_some]
      exact hrun
    · rw [ReadAs, List.map_cons, List.map_cons, hread, hwords, hprob, hv]

theorem search_name (rule : PrintedRule) :
    search (whole (lit [' ', '=', ' '])) rule.text =
      some (rule.name, [' ', '=', ' '], printAlternatives rule.alternatives) := by
  rw [PrintedRule.text, List.append_assoc]
  refine search_append (fun u v huv hv => ?_) (by rw [whole, lit_append, List.head?_cons])
  obtain ⟨c, v, rfl⟩ := List.exists_cons_of_ne_nil hv
  have hc : ' ' ≠ c := by
    rintro rfl
    exact rule.noBlank (by simp [huv])
  rw [whole, List.cons_append, lit_cons_ne hc, List.head?_nil]

theorem parseLine_text (rule : PrintedRule) (hfloat : rule.Floats float) :
    ∃ rows, parseLine splitWords float rule.text = some (rule.name, rows) ∧
      ReadAs float rows rule.alternatives := by
  obtain ⟨hits, hocc, hbodies, hseps⟩ := occurs_probPattern rule.nonempty
  obtain ⟨found, tail, hocc', hprobs⟩ := occurs_probSimple rule.nonempty [] (Or.inl rfl)
  rw [List.nil_append] at hocc'
  obtain ⟨s, rows, hrun, halts, hread⟩ := foldlM_addWords hfloat hbodies hseps ⟨[], 0, []⟩ hprobs
  refine ⟨rows, ?_, hread⟩
  have hlast := addWords_separator float (found.map Prod.snd) isSeparatorPiece_sep.2.2 s
  simp only [parseLine, search_name, Option.bind_eq_bind, Option.bind_some,
    hocc.split_eq probPattern_consumes, hocc'.findAll_eq probSimple_consumes, List.foldlM_append,
    hrun, List.foldlM_cons, hlast, List.foldlM_nil, Option.pure_def]
  rw [halts, List.nil_append]

/-- The file has the rules on its lines, and possibly empty lines. -/
def IsPrinted (decode : Text → Option Text) (lines : List Text) (rules : List PrintedRule) : Prop :=
  (lines.filter fun line => line ≠ ['\n']).map decode = rules.map fun rule => some rule.text

variable {decode : Text → Option Text}

theorem foldlM_parseRule {lines : List Text} {rules : List PrintedRule}
    (hlines : IsPrinted decode lines rules) (hfloat : ∀ rule ∈ rules, rule.Floats float)
    (pcfg : Map Text (List (ParsedAlternative V))) :
    ∃ pcfg', lines.foldlM (parseRule decode splitWords float) pcfg = some pcfg' ∧
      (∀ name, (∀ rule ∈ rules, rule.name ≠ name) → pcfg'.get? name = pcfg.get? name) ∧
      ∀ before rule after, rules = before ++ rule :: after → (∀ r ∈ after, r.name ≠ rule.name) →
        ∃ rows, pcfg'.get? rule.name = some rows ∧ ReadAs float rows rule.alternatives := by
  induction lines generalizing rules pcfg with
  | nil =>
    obtain rfl : rules = [] := List.map_eq_nil_iff.mp hlines.symm
    exact ⟨pcfg, rfl, fun _ _ => rfl, by simp⟩
  | cons line lines ih =>
    by_cases hempty : line = ['\n']
    · subst hempty
      rw [IsPrinted, List.filter_cons_of_neg (by simp)] at hlines
      obtain ⟨pcfg', hrun, hspec⟩ := ih hlines hfloat pcfg
      exact ⟨pcfg', by rw [List.foldlM_cons, parseRule, if_pos rfl]; exact hrun, hspec⟩
    · rw [IsPrinted, List.filter_cons_of_pos (by simpa using hempty), List.map_cons] at hlines
      obtain ⟨rule, rules, rfl⟩ : ∃ rule rest, rules = rule :: rest :=
        List.exists_cons_of_ne_nil (by rintro rfl; simp at hlines)
      rw [List.map_cons] at hlines
      obtain ⟨hdecode, hlines⟩ := List.cons.inj hlines
      obtain ⟨rows, hparse, hread⟩ := parseLine_text rule (hfloat rule (by simp))
      obtain ⟨pcfg', hrun, hother, hrules⟩ := ih hlines
        (fun r hr => hfloat r (List.mem_cons_of_mem rule hr)) (pcfg.set rule.name rows)
      refine ⟨pcfg', ?_, fun name hname => ?_, fun before r after hsplit hlater => ?_⟩
      · rw [List.foldlM_cons, parseRule, if_neg hempty]
        simp only [hdecode, Option.bind_eq_bind, Option.bind_some, hparse, Option.pure_def]
        exact hrun
      · rw [hother name fun r hr => hname r (List.mem_cons_of_mem rule hr),
          Map.get?_set_of_ne _ _ (hname rule (by simp)).symm]
      · cases before with
        | nil =>
          obtain ⟨rfl, rfl⟩ := List.cons.inj hsplit
          exact ⟨rows, by rw [hother _ hlater, Map.get?_set_self], hread⟩
        | cons first before =>
          exact hrules before r after (List.cons.inj hsplit).2 hlater

end Loop

/-- Reading a printed line gives the name, and the token lists in order with their own
    probabilities; and so does reading a file of printed lines, for every rule that no later
    line replaces. -/
theorem parseBnf_reads_printed {V : Type} (decode : Text → Option Text) (float : Text → Option V) :
    (∀ rule : PrintedRule, rule.Floats float →
      ∃ rows, parseLine splitWords float rule.text = some (rule.name, rows) ∧
        (rows.map fun row => (row.words, some row.prob)) =
          rule.alternatives.map fun a => (a.words, float a.prob)) ∧
    ∀ lines rules, IsPrinted decode lines rules → (∀ rule ∈ rules, rule.Floats float) →
      ∃ pcfg, parseBnf decode splitWords float lines = some pcfg ∧
        ∀ before rule after, rules = before ++ rule :: after →
          (∀ r ∈ after, r.name ≠ rule.name) → ∃ rows, pcfg.get? rule.name = some rows ∧
            (rows.map fun row => (row.words, some row.prob)) =
              rule.alternatives.map fun a => (a.words, float a.prob) := by
  refine ⟨fun rule hfloat => parseLine_text rule hfloat, fun lines rules hlines hfloat => ?_⟩
  obtain ⟨pcfg, hrun, -, hrules⟩ := foldlM_parseRule hlines hfloat Map.empty
  exact ⟨pcfg, hrun, hrules⟩

/-- `pair = "f" " " | x @@ 0.5 | x @@ 1.0;`, where the first bar is a token. -/
def sampleRule : PrintedRule where
  name := ['p', 'a', 'i', 'r']
  alternatives :=
    [⟨[.word ['"', 'f', '"'] ⟨by decide, by decide, by decide, by decide, by decide⟩, .blank,
        .word ['|'] ⟨by decide, by decide, by decide, by decide, by decide⟩,
        .word ['x'] ⟨by decide, by decide, by decide, by decide, by decide⟩],
      ['0', '.', '5'], by simp, by decide, by decide, by simp [isProbChar]⟩,
     ⟨[.word ['x'] ⟨by decide, by decide, by decide, by decide, by decide⟩],
      ['1', '.', '0'], by simp, by decide, by decide, by simp [isProbChar]⟩]
  noBlank := by decide
  nonempty := by simp

def sampleFloat (literal : Text) : Option ℚ :=
  if literal = ['0', '.', '5'] then some (1 / 2)
  else if literal = ['1', '.', '0'] then some 1 else none

theorem parseBnf_reads_printed_sample :
    ∃ pcfg, parseBnf some splitWords sampleFloat [['\n'], sampleRule.text] = some pcfg ∧
      ∃ rows, pcfg.get? sampleRule.name = some rows ∧
        (rows.map fun row => (row.words, some row.prob)) =
          [([['"', 'f', '"'], [' '], ['|'], ['x']], some (1 / 2)), ([['x']], some 1)] := by
  have hfloat : ∀ rule ∈ [sampleRule], rule.Floats sampleFloat := by
    intro rule hrule a ha
    obtain rfl := List.mem_singleton.mp hrule
    simp only [sampleRule, List.mem_cons, List.not_mem_nil, or_false] at ha
    rcases ha with rfl | rfl
    · exact ⟨1 / 2, rfl⟩
    · exact ⟨1, rfl⟩
  obtain ⟨pcfg, hrun, hrules⟩ :=
    (parseBnf_reads_printed some sampleFloat).2 [['\n'], sampleRule.text] [sampleRule] rfl hfloat
  obtain ⟨rows, hget, hrows⟩ := hrules [] sampleRule [] rfl (by simp)
  exact ⟨pcfg, hrun, rows, hget, hrows⟩

end RSFuzz
