import RSFuzz.BnfRoundTrip
import RSFuzz.ExtendedRules
import RSFuzz.FoundationFuel

set_option autoImplicit false

/-!
# The grammar of the `.js` branch

The rules come from `bnf/js_base.pickle`, with operators and with marks in
place of probabilities. Of the grammar file only the numbers behind the marks
are read, and put in for them in order.
-/
namespace RSFuzz
open OrderedMap OptionFold Pattern

/-- `[0-9\.eE\-]` -/
def isJsProbChar (c : Char) : Bool := c.isDigit || c = '.' || c = 'e' || c = 'E' || c = '-'

/-- `@@[ ]?[0-9\.eE\-]+` -/
def jsProb : Finder Char :=
  whole (followedBy (lit ['@', '@']) (followedBy (orElse (lit [' ']) (lit []))
    (repeated isJsProbChar 1)))

/-- `js_dict` as it is in the pickle, with `none` for `"@@"`. -/
abbrev BaseRules := Map Sym (List (List Item × Option ℚ))

abbrev FillState (α : Type) := ℕ × α

section Fill

variable (probList : List ℚ)

def fillAlternative (s : FillState (List (List Item × ℚ))) (alt : List Item × Option ℚ) :
    Option (FillState (List (List Item × ℚ))) :=
  match alt.2 with
  | some p => some (s.1, s.2 ++ [(alt.1, p)])
  | none => (probList[s.1]?).map fun p => (s.1 + 1, s.2 ++ [(alt.1, p)])

def fillRule (s : FillState (Map Sym (List (List Item × ℚ))))
    (rule : Sym × List (List Item × Option ℚ)) :
    Option (FillState (Map Sym (List (List Item × ℚ)))) := do
  let (pointer, alts) ← rule.2.foldlM (fillAlternative probList) (s.1, [])
  return (pointer, s.2.set rule.1 alts)

/-- `none` where there are fewer numbers than marks: the program exits. -/
def fillRules (base : BaseRules) : Option (Map Sym (List (List Item × ℚ))) :=
  (base.entries.foldlM (fillRule probList) (0, Map.empty)).map Prod.snd

end Fill

/-- The `.js` branch of `parse_bnf` on the text of the file, up to the depths. -/
def parseJs (float : Text → Option ℚ) (base : BaseRules) (text : Text) (fuel : ℕ) :
    Option Grammar := do
  let probList ← (findAll jsProb text).mapM fun raw => float (raw.drop 2)
  let jsDict ← fillRules probList base
  transRegexp jsDict fuel

def marks (alts : List (List Item × Option ℚ)) : ℕ := alts.countP fun alt => alt.2.isNone

inductive Filled : List (List Item × Option ℚ) → List ℚ → List (List Item × ℚ) → List ℚ → Prop where
  | nil (numbers : List ℚ) : Filled [] numbers [] numbers
  | number {items : List Item} {p : ℚ} {alts : List (List Item × Option ℚ)} {numbers rest : List ℚ}
      {filled : List (List Item × ℚ)} (h : Filled alts numbers filled rest) :
      Filled ((items, some p) :: alts) numbers ((items, p) :: filled) rest
  | mark {items : List Item} {p : ℚ} {alts : List (List Item × Option ℚ)} {numbers rest : List ℚ}
      {filled : List (List Item × ℚ)} (h : Filled alts numbers filled rest) :
      Filled ((items, none) :: alts) (p :: numbers) ((items, p) :: filled) rest

section Filling

variable {alts more : List (List Item × Option ℚ)} {numbers rest : List ℚ}
  {filled filledMore : List (List Item × ℚ)}

theorem Filled.append {left : List ℚ} (h : Filled alts numbers filled rest)
    (hmore : Filled more rest filledMore left) :
    Filled (alts ++ more) numbers (filled ++ filledMore) left := by
  induction h with
  | nil => exact hmore
  | number _ ih => exact .number (ih hmore)
  | mark _ ih => exact .mark (ih hmore)

theorem Filled.items_eq (h : Filled alts numbers filled rest) :
    filled.map Prod.fst = alts.map Prod.fst := by
  induction h with
  | nil => rfl
  | number _ ih => rw [List.map_cons, List.map_cons, ih]
  | mark _ ih => rw [List.map_cons, List.map_cons, ih]

variable {probList : List ℚ} {pointer : ℕ}

theorem drop_eq_cons_of_getElem? {p : ℚ} (h : probList[pointer]? = some p) :
    probList.drop pointer = p :: probList.drop (pointer + 1) := by
  obtain ⟨hlt, hget⟩ := List.getElem?_eq_some_iff.mp h
  rw [List.drop_eq_getElem_cons hlt, hget]

theorem foldlM_fillAlternative (acc : List (List Item × ℚ))
    (h : pointer + marks alts ≤ probList.length) : ∃ filled,
      alts.foldlM (fillAlternative probList) (pointer, acc) =
        some (pointer + marks alts, acc ++ filled) ∧
      Filled alts (probList.drop pointer) filled (probList.drop (pointer + marks alts)) := by
  induction alts generalizing pointer acc with
  | nil => exact ⟨[], by simp [marks], .nil _⟩
  | cons alt alts ih =>
    obtain ⟨items, prob⟩ := alt
    cases prob with
    | some p =>
      have hmarks : marks ((items, some p) :: alts) = marks alts := by simp [marks]
      rw [hmarks] at h ⊢
      obtain ⟨filled, hrun, hfilled⟩ := ih (acc ++ [(items, p)]) h
      refine ⟨(items, p) :: filled, ?_, .number hfilled⟩
      rw [List.foldlM_cons, fillAlternative, Option.bind_eq_bind, Option.bind_some, hrun]
      simp
    | none =>
      have hmarks : marks ((items, none) :: alts) = marks alts + 1 := by simp [marks]
      rw [hmarks] at h ⊢
      obtain ⟨p, hnext⟩ : ∃ p, probList[pointer]? = some p :=
        ⟨_, List.getElem?_eq_getElem (show pointer < probList.length by omega)⟩
      have hcount : pointer + 1 + marks alts = pointer + (marks alts + 1) := by omega
      have hroom : pointer + 1 + marks alts ≤ probList.length := by omega
      obtain ⟨filled, hrun, hfilled⟩ := ih (acc ++ [(items, p)]) hroom
      rw [hcount] at hrun hfilled
      refine ⟨(items, p) :: filled, ?_, drop_eq_cons_of_getElem? hnext ▸ .mark hfilled⟩
      rw [List.foldlM_cons, fillAlternative, hnext, Option.map_some, Option.bind_eq_bind,
        Option.bind_some, hrun]
      simp

theorem foldlM_fillAlternative_eq_none (acc : List (List Item × ℚ))
    (h : probList.length < pointer + marks alts) (hle : pointer ≤ probList.length) :
    alts.foldlM (fillAlternative probList) (pointer, acc) = none := by
  induction alts generalizing pointer acc with
  | nil =>
    rw [marks, List.countP_nil] at h
    omega
  | cons alt alts ih =>
    obtain ⟨items, prob⟩ := alt
    cases prob with
    | some p =>
      have hmarks : marks ((items, some p) :: alts) = marks alts := by simp [marks]
      rw [List.foldlM_cons, fillAlternative, Option.bind_eq_bind, Option.bind_some]
      exact ih _ (hmarks ▸ h) hle
    | none =>
      have hmarks : marks ((items, none) :: alts) = marks alts + 1 := by simp [marks]
      rw [hmarks] at h
      rw [List.foldlM_cons, fillAlternative]
      cases hnext : probList[pointer]? with
      | none => rfl
      | some p =>
        obtain ⟨hlt, -⟩ := List.getElem?_eq_some_iff.mp hnext
        rw [Option.map_some, Option.bind_eq_bind, Option.bind_some]
        exact ih _ (by omega) hlt

def allAlternatives {V : Type} (entries : List (Sym × List (List Item × V))) :
    List (List Item × V) := entries.flatMap Prod.snd

/-- The rules are those of `base`, with numbers for the marks. -/
structure FilledRules (entries : List (Sym × List (List Item × Option ℚ))) (numbers rest : List ℚ)
    (jsEntries : List (Sym × List (List Item × ℚ))) : Prop where
  filled : Filled (allAlternatives entries) numbers (allAlternatives jsEntries) rest
  items : (jsEntries.map fun rule => (rule.1, rule.2.map Prod.fst)) =
    entries.map fun rule => (rule.1, rule.2.map Prod.fst)

theorem foldlM_fillRule {entries : List (Sym × List (List Item × Option ℚ))}
    (js : Map Sym (List (List Item × ℚ))) (hfresh : (js.keys ++ entries.map Prod.fst).Nodup)
    (h : pointer + marks (allAlternatives entries) ≤ probList.length) :
    ∃ js' jsEntries, entries.foldlM (fillRule probList) (pointer, js) =
        some (pointer + marks (allAlternatives entries), js') ∧
      js'.entries = js.entries ++ jsEntries ∧
      FilledRules entries (probList.drop pointer)
        (probList.drop (pointer + marks (allAlternatives entries))) jsEntries := by
  induction entries generalizing pointer js with
  | nil => exact ⟨js, [], by simp [allAlternatives, marks], by simp, .nil _, rfl⟩
  | cons rule entries ih =>
    obtain ⟨token, alts⟩ := rule
    have hmarks : marks (allAlternatives ((token, alts) :: entries)) =
        marks alts + marks (allAlternatives entries) := List.countP_append ..
    rw [hmarks] at h ⊢
    have hfit : pointer + marks alts ≤ probList.length := by omega
    obtain ⟨filled, hrun, hfilled⟩ := foldlM_fillAlternative [] hfit
    have hout : token ∉ js.keys := fun hmem =>
      (List.nodup_append.mp hfresh).2.2 token hmem token (by simp) rfl
    have hentries : (js.set token filled).entries = js.entries ++ [(token, filled)] :=
      Map.entries_set_fresh _ _ _ hout
    have hkeys : ((js.set token filled).keys ++ entries.map Prod.fst).Nodup := by
      rw [Map.keys, hentries, List.map_append]
      simpa [Map.keys] using hfresh
    have hroom : pointer + marks alts + marks (allAlternatives entries) ≤ probList.length := by omega
    obtain ⟨js', jsEntries, hmore, hall, hrules⟩ := ih _ hkeys hroom
    refine ⟨js', (token, filled) :: jsEntries, ?_, ?_, ?_, ?_⟩
    · rw [List.foldlM_cons, fillRule]
      simp only [hrun, List.nil_append, Option.bind_eq_bind, Option.bind_some, Option.pure_def]
      rw [hmore, Nat.add_assoc]
    · rw [hall, hentries, List.append_assoc]
      rfl
    · rw [← Nat.add_assoc]
      exact hfilled.append hrules.filled
    · rw [List.map_cons, List.map_cons, hrules.items, hfilled.items_eq]

theorem foldlM_fillRule_eq_none {entries : List (Sym × List (List Item × Option ℚ))}
    (js : Map Sym (List (List Item × ℚ)))
    (h : probList.length < pointer + marks (allAlternatives entries))
    (hle : pointer ≤ probList.length) :
    entries.foldlM (fillRule probList) (pointer, js) = none := by
  induction entries generalizing pointer js with
  | nil =>
    rw [allAlternatives, List.flatMap_nil, marks, List.countP_nil] at h
    omega
  | cons rule entries ih =>
    obtain ⟨token, alts⟩ := rule
    have hmarks : marks (allAlternatives ((token, alts) :: entries)) =
        marks alts + marks (allAlternatives entries) := List.countP_append ..
    rw [List.foldlM_cons, fillRule]
    by_cases hfit : pointer + marks alts ≤ probList.length
    · obtain ⟨filled, hrun, -⟩ := foldlM_fillAlternative [] hfit
      simp only [hrun, Option.bind_eq_bind, Option.bind_some, Option.pure_def]
      exact ih _ (by omega) hfit
    · simp only [foldlM_fillAlternative_eq_none [] (Nat.lt_of_not_le hfit) hle, Option.bind_eq_bind,
        Option.bind_none]

theorem fillRules_returns {base : BaseRules}
    (h : marks (allAlternatives base.entries) ≤ probList.length) :
    ∃ js, fillRules probList base = some js ∧ FilledRules base.entries probList
      (probList.drop (marks (allAlternatives base.entries))) js.entries := by
  have hroom : 0 + marks (allAlternatives base.entries) ≤ probList.length := by omega
  obtain ⟨js, jsEntries, hrun, hentries, hrules⟩ := foldlM_fillRule Map.empty
    (by simpa [Map.empty, Map.keys] using base.nodupKeys) hroom
  have hall : js.entries = jsEntries := hentries
  subst hall
  rw [Nat.zero_add, List.drop_zero] at hrules
  exact ⟨js, by rw [fillRules, hrun, Option.map_some], hrules⟩

theorem FilledRules.itemsOf_eq {base : BaseRules} {js : Map Sym (List (List Item × ℚ))}
    (h : FilledRules base.entries numbers rest js.entries) : itemsOf js = itemsOf base := by
  have hitems := h.items
  simp only [itemsOf, Map.mapValues, hitems]

end Filling

/-- Only the numbers of the file are read. With fewer of them than marks the program exits; else
    the marks get them in order. What the divisions of `trans_regexp` then make of the numbers
    in doubles changes nothing but probabilities. If they are even, the texts written without rules
    are those of the sentences of the pickled rules, whatever else the file holds. -/
theorem js_texts_iff (float : Text → Option ℚ) (base : BaseRules) (start : Sym)
    (hstart : base.keys.head? = some start) (hempty : "" ∉ base.keys) (text : Text)
    (probList : List ℚ)
    (hfloat : (findAll jsProb text).mapM (fun raw => float (raw.drop 2)) = some probList) :
    (probList.length < marks (allAlternatives base.entries) →
      ∀ fuel, parseJs float base text fuel = none) ∧
    (marks (allAlternatives base.entries) ≤ probList.length →
      (∃ js, fillRules probList base = some js ∧ FilledRules base.entries probList
        (probList.drop (marks (allAlternatives base.entries))) js.entries) ∧
      ∃ fuel₀ G, (∀ fuel, fuel₀ ≤ fuel → parseJs float base text fuel = some G) ∧
        ∀ G' : Grammar, G.Reweighted G' → G'.Even → ∀ (k : ℕ), 0 < k → k ≤ 2 ^ 50 →
        ∀ (depthsDict : DepthsDict) (exrex : ℕ → String → String) (written : String),
          (∃ maxDepths, InputGenerator.Writes ⟨Grammar.normalized^[k] G', depthsDict,
              ⟨start, maxDepths⟩, Tables.empty⟩ exrex written) ↔
            ∃ w, Sentence (itemsOf base) [start] w ∧ Spells exrex w written) := by
  constructor
  · intro hfew fuel
    have hnone : fillRules probList base = none := by
      have hshort : probList.length < 0 + marks (allAlternatives base.entries) := by omega
      rw [fillRules, foldlM_fillRule_eq_none Map.empty hshort (Nat.zero_le _), Option.map_none]
    simp only [parseJs, hfloat, hnone, Option.bind_eq_bind, Option.bind_some, Option.bind_none]
  · intro henough
    obtain ⟨js, hfill, hjs⟩ := fillRules_returns henough
    obtain ⟨fuel₀, G, hrun, hG⟩ := transRegexp_unrolls js
    have hitems : itemsOf js = itemsOf base := hjs.itemsOf_eq
    have hkeys : G.keys = base.keys := by
      have hsame := congrArg Map.keys hitems
      rw [itemsOf, itemsOf, Map.keys_mapValues, Map.keys_mapValues] at hsame
      rw [hG.keys, hsame]
    refine ⟨⟨js, hfill, hjs⟩, fuel₀, G, fun fuel hfuel => ?_, ?_⟩
    · simp only [parseJs, hfloat, hfill, Option.bind_eq_bind, Option.bind_some]
      exact hrun fuel hfuel
    · intro G' hshape heven k hpos hk depthsDict exrex written
      rw [exists_writes_normalized_iff heven depthsDict (hshape.keys_eq.trans hkeys ▸ hstart) hpos hk
        exrex written, hshape.toCFG_eq, hG.exists_spells_iff (hkeys ▸ hempty)
        (hkeys ▸ List.mem_of_mem_head? hstart), hitems]

def sampleBase : BaseRules :=
  ⟨[("list", [([.sym "x", .star (.list [.sym "\",\"", .sym "x"])], none),
    ([.optional (.sym "y")], none)])], by decide⟩

def sampleJsText : Text :=
  ['l', ' ', '@', '@', ' ', '1', '.', '0', '|', '@', '@', '0', '.', '5']

def sampleJsFloat (literal : Text) : Option ℚ := sampleFloat (literal.dropWhile isBlank)

def Grammar.inDoubles (G : Grammar) : Grammar :=
  G.mapValues (List.map fun a => { a with prob := Binary64.toDouble a.prob })

theorem Grammar.reweighted_inDoubles (G : Grammar) : G.Reweighted G.inDoubles := by
  simp [Reweighted, inDoubles, Map.mapValues, Alternative.shape, Function.comp_def]

theorem transRule_settled (token : Sym) (alts : List (List Item × ℚ)) :
    Fuel.Settled (transRule token alts) := (Fuel.settled_while _ _ _).map _

theorem transRegexp_settled (js : Map Sym (List (List Item × ℚ))) :
    Fuel.Settled (transRegexp js) := by
  intro fuel fuel' hle
  rw [transRegexp, transRegexp]
  refine .foldlM (fun grammar rule => ?_) _ _
  exact (transRule_settled rule.1 rule.2 fuel fuel' hle).bind fun _ => .refl _

theorem parseJs_settled (float : Text → Option ℚ) (base : BaseRules) (text : Text) :
    Fuel.Settled (parseJs float base text) :=
  .bind (.const _) fun _ => .bind (.const _) fun js => transRegexp_settled js

theorem js_texts_iff_sample : ∃ fuel₀ G,
    (∀ fuel, fuel₀ ≤ fuel → parseJs sampleJsFloat sampleBase sampleJsText fuel = some G) ∧
    ∀ (depthsDict : DepthsDict) (exrex : ℕ → String → String) (written : String),
      (∃ maxDepths, InputGenerator.Writes ⟨G.inDoubles.normalized, depthsDict, ⟨"list", maxDepths⟩,
          Tables.empty⟩ exrex written) ↔
        ∃ w, Sentence (itemsOf sampleBase) ["list"] w ∧ Spells exrex w written := by
  obtain ⟨-, fuel₀, G, hrun, hall⟩ := (js_texts_iff sampleJsFloat sampleBase "list" rfl (by decide)
    sampleJsText [1, 1 / 2] (by decide +kernel)).2 (by decide)
  have hweights : (parseJs sampleJsFloat sampleBase sampleJsText 40).map
      (fun G => decide G.inDoubles.Even) = some true := by decide +kernel
  obtain ⟨G₄₀, hparse, heven⟩ := Option.map_eq_some_iff.mp hweights
  have hsame := parseJs_settled sampleJsFloat sampleBase sampleJsText 40 (max fuel₀ 40)
    (le_max_right _ _) G₄₀ hparse
  rw [hrun _ (le_max_left _ _), Option.some.injEq] at hsame
  exact ⟨fuel₀, G, hrun, hall G.inDoubles G.reweighted_inDoubles (hsame ▸ of_decide_eq_true heven) 1
    one_pos (by norm_num)⟩

end RSFuzz
