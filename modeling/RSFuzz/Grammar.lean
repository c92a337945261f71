import Mathlib.Data.Rat.Defs
import RSFuzz.FoundationOrderedMap

set_option autoImplicit false

namespace RSFuzz
open OrderedMap

abbrev Sym := String

/-- One entry `[word_list, deriv_num, prob]` of a rule. -/
structure Alternative where
  expansion : List Sym
  derivNum : ℕ
  prob : ℚ
deriving DecidableEq, Repr

/-- `rule_dict`: the nonterminals are exactly the keys. -/
abbrev Grammar := Map Sym (List Alternative)

def separatorTokens : List Sym :=
  ["\"\x7b\"", "\"\x7d\"", "\",\"", "\":\"", "\"[\"", "\"]\"", "\"\"\"",
    " ", "", ",", "\n", "\x7b", "\x7d", "(", ")", ";", "[", "]"]

namespace Grammar

def isNonterminal (G : Grammar) (s : Sym) : Bool := G.contains s

def alternatives (G : Grammar) (s : Sym) : List Alternative := (G.get? s).getD []

def HasAlternatives (G : Grammar) : Prop := ∀ s ∈ G.keys, G.alternatives s ≠ []

instance (G : Grammar) : Decidable G.HasAlternatives :=
  inferInstanceAs (Decidable (∀ s ∈ G.keys, G.alternatives s ≠ []))

def Edge (G : Grammar) (A B : Sym) : Prop := ∃ alt ∈ G.alternatives A, B ∈ alt.expansion

instance (G : Grammar) (A B : Sym) : Decidable (G.Edge A B) :=
  inferInstanceAs (Decidable (∃ alt ∈ G.alternatives A, B ∈ alt.expansion))

theorem isNonterminal_iff (G : Grammar) (s : Sym) : G.isNonterminal s = true ↔ s ∈ G.keys :=
  Map.contains_iff G s

theorem alternatives_of_get? {G : Grammar} {s : Sym} {alts : List Alternative}
    (h : G.get? s = some alts) : G.alternatives s = alts := by
  simp [alternatives, h]

theorem get?_of_mem_keys {G : Grammar} {s : Sym} (h : s ∈ G.keys) :
    G.get? s = some (G.alternatives s) := by
  obtain ⟨alts, ha⟩ := Map.exists_get? h
  rw [ha, alternatives_of_get? ha]

theorem mem_keys_of_mem_alternatives {G : Grammar} {s : Sym} {alt : Alternative}
    (h : alt ∈ G.alternatives s) : s ∈ G.keys := by
  by_contra hs
  rw [alternatives, (Map.get?_eq_none_iff G s).mpr hs] at h
  simp at h

theorem Edge.left_mem_keys {G : Grammar} {A B : Sym} (h : G.Edge A B) : A ∈ G.keys := by
  obtain ⟨alt, ha, -⟩ := h
  exact mem_keys_of_mem_alternatives ha

end Grammar
end RSFuzz
