import Mathlib.Computability.ContextFreeGrammar

set_option autoImplicit false

/-!
# Words that a string of symbols yields

Rewriting one nonterminal at a time, against replacing all of them from left to
right at once. The second form follows the structure of a string.
-/
namespace GrammarYield

variable {T : Type} {g : ContextFreeGrammar T}

/-- The terminals of the string stay, every nonterminal gives way to what one of its rules yields. -/
inductive Yields (g : ContextFreeGrammar T) : List (Symbol T g.NT) → List T → Prop where
  | nil : Yields g [] []
  | terminal {a : T} {s : List (Symbol T g.NT)} {w : List T} (h : Yields g s w) :
      Yields g (.terminal a :: s) (a :: w)
  | nonterminal {r : ContextFreeRule T g.NT} {s : List (Symbol T g.NT)} {v w : List T}
      (hr : r ∈ g.rules) (hv : Yields g r.output v) (h : Yields g s w) :
      Yields g (.nonterminal r.input :: s) (v ++ w)

theorem Yields.terminals (w : List T) : Yields g (w.map .terminal) w := by
  induction w with
  | nil => exact .nil
  | cons a w ih => exact .terminal ih

theorem Yields.eq_singleton {a : T} {w : List T} (h : Yields g [.terminal a] w) : w = [a] := by
  cases h with
  | terminal h =>
    cases h
    rfl

theorem Yields.append {s t : List (Symbol T g.NT)} {v w : List T} (hs : Yields g s v)
    (ht : Yields g t w) : Yields g (s ++ t) (v ++ w) := by
  induction hs with
  | nil => exact ht
  | terminal _ ih => exact .terminal ih
  | nonterminal hr hv _ _ ih =>
    rw [List.append_assoc]
    exact .nonterminal hr hv ih

theorem yields_append_iff {s t : List (Symbol T g.NT)} {w : List T} :
    Yields g (s ++ t) w ↔ ∃ u v, w = u ++ v ∧ Yields g s u ∧ Yields g t v := by
  constructor
  · intro h
    induction s generalizing w with
    | nil => exact ⟨[], w, rfl, .nil, h⟩
    | cons x s ih =>
      cases h with
      | terminal h =>
        obtain ⟨u, v, rfl, hu, hv⟩ := ih h
        exact ⟨_, v, rfl, .terminal hu, hv⟩
      | nonterminal hr hx h =>
        obtain ⟨u, v, rfl, hu, hv⟩ := ih h
        exact ⟨_, v, (List.append_assoc _ _ _).symm, .nonterminal hr hx hu, hv⟩
  · rintro ⟨u, v, rfl, hu, hv⟩
    exact hu.append hv

theorem Yields.of_produces {s t : List (Symbol T g.NT)} {w : List T} (hst : g.Produces s t)
    (ht : Yields g t w) : Yields g s w := by
  obtain ⟨r, hr, hrw⟩ := hst
  obtain ⟨p, q, rfl, rfl⟩ := hrw.exists_parts
  rw [List.append_assoc, yields_append_iff] at ht
  obtain ⟨u, v, rfl, hp, hv⟩ := ht
  obtain ⟨v, v', rfl, hout, hq⟩ := yields_append_iff.mp hv
  rw [List.append_assoc]
  exact hp.append (.nonterminal hr hout hq)

theorem Yields.derives {s : List (Symbol T g.NT)} {w : List T} (h : Yields g s w) :
    g.Derives s (w.map .terminal) := by
  induction h with
  | nil => exact ContextFreeGrammar.Derives.refl []
  | @terminal a s w _ ih => exact ih.append_left [.terminal a]
  | @nonterminal r s v w hr _ _ ihv ihw =>
    have hrule : g.Produces [.nonterminal r.input] r.output := ⟨r, hr, .input_output⟩
    have hhead : g.Derives [.nonterminal r.input] (v.map .terminal) := hrule.trans_derives ihv
    rw [List.map_append]
    exact (hhead.append_right s).trans (ihw.append_left _)

theorem derives_iff_yields {s : List (Symbol T g.NT)} {w : List T} :
    g.Derives s (w.map .terminal) ↔ Yields g s w := by
  constructor
  · intro h
    induction h using Relation.ReflTransGen.head_induction_on with
    | refl => exact Yields.terminals w
    | head hst _ ih => exact ih.of_produces hst
  · exact Yields.derives

end GrammarYield
