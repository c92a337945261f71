import RSFuzz.Grammar
import RSFuzz.FoundationSubsequence

set_option autoImplicit false

/-!
# Derivation trees and what they realise

The purpose of the whole program is stated over these trees: a recurrent
sequence forbids expanding a symbol with a derivation number below a given
chain of ancestors.
-/
namespace RSFuzz
open OrderedMap Subsequence

/-- A captured sequence: the symbols of a path, then the derivation number of its last symbol. -/
structure Sequence where
  symbols : List Sym
  dn : ℕ
  nonempty : symbols ≠ []
deriving DecidableEq, Repr

/-- One entry of the tuple that the program stores for a sequence. -/
inductive Entry where
  | sym (s : Sym)
  | dn (d : ℕ)
deriving DecidableEq, Repr

namespace Sequence

def entries (s : Sequence) : List Entry := s.symbols.map .sym ++ [.dn s.dn]

def lastSymbol (s : Sequence) : Sym := s.symbols.getLast s.nonempty

@[ext] theorem ext {s t : Sequence} (h : s.symbols = t.symbols) (hd : s.dn = t.dn) : s = t := by
  cases s
  cases t
  simp only at h hd
  subst h hd
  rfl

theorem getLast?_symbols (s : Sequence) : s.symbols.getLast? = some s.lastSymbol :=
  List.getLast?_eq_some_getLast s.nonempty

theorem dropLast_append_lastSymbol (s : Sequence) :
    s.symbols.dropLast ++ [s.lastSymbol] = s.symbols :=
  List.dropLast_append_getLast s.nonempty

theorem entries_eq_concat (s : Sequence) :
    s.entries = s.symbols.dropLast.map Entry.sym ++ [Entry.sym s.lastSymbol, Entry.dn s.dn] := by
  have h := congrArg (List.map Entry.sym) s.dropLast_append_lastSymbol
  rw [List.map_append] at h
  rw [entries, ← h, List.append_assoc]
  rfl

theorem entries_length (s : Sequence) : s.entries.length = s.symbols.length + 1 := by
  simp [entries]

theorem entries_injective {s t : Sequence} (h : s.entries = t.entries) : s = t := by
  obtain ⟨hs, hd⟩ := List.append_inj' h rfl
  refine ext (List.map_injective_iff.mpr (fun _ _ => Entry.sym.inj) hs) ?_
  simpa using hd

end Sequence

/-- A sequence is realised when a node with its last symbol was expanded with its number
    and its symbols occur, in order, on the root path of that node. The set holds one pair
    of root path and derivation number for every expanded node. -/
def Realises (E : Set (List Sym × ℕ)) (s : Sequence) : Prop :=
  ∃ e ∈ E, e.2 = s.dn ∧ EndsIn s.symbols e.1

theorem Realises.mono {E F : Set (List Sym × ℕ)} (h : E ⊆ F) {s : Sequence}
    (hs : Realises E s) : Realises F s := by
  obtain ⟨e, he, hd, hp⟩ := hs
  exact ⟨e, h he, hd, hp⟩

theorem Realises.of_endsIn {E : Set (List Sym × ℕ)} {s t : Sequence} (hd : s.dn = t.dn)
    (hp : EndsIn s.symbols t.symbols) (ht : Realises E t) : Realises E s := by
  obtain ⟨e, he, hed, hep⟩ := ht
  exact ⟨e, he, hed.trans hd.symm, hp.trans hep⟩

inductive DTree where
  | leaf (symbol : Sym)
  | node (symbol : Sym) (derivNum : ℕ) (children : List DTree)

namespace DTree

def symbol : DTree → Sym
  | leaf s => s
  | node s _ _ => s

mutual

/-- Root path and derivation number of every expanded node, below the ancestors `pre`. -/
def expandedBelow (pre : List Sym) : DTree → List (List Sym × ℕ)
  | leaf _ => []
  | node s d children => (pre ++ [s], d) :: expandedForest (pre ++ [s]) children

def expandedForest (pre : List Sym) : List DTree → List (List Sym × ℕ)
  | [] => []
  | t :: ts => expandedBelow pre t ++ expandedForest pre ts

end

mutual

def height : DTree → ℕ
  | leaf _ => 0
  | node _ _ children => heightForest children + 1

def heightForest : List DTree → ℕ
  | [] => 0
  | t :: ts => max (height t) (heightForest ts)

end

mutual

def yield : DTree → List Sym
  | leaf s => [s]
  | node _ _ children => yieldForest children

def yieldForest : List DTree → List Sym
  | [] => []
  | t :: ts => yield t ++ yieldForest ts

end

def expanded (t : DTree) : Set (List Sym × ℕ) := {e | e ∈ t.expandedBelow []}

theorem mem_expandedForest {pre : List Sym} {ts : List DTree} {e : List Sym × ℕ} :
    e ∈ expandedForest pre ts ↔ ∃ t ∈ ts, e ∈ t.expandedBelow pre := by
  induction ts with
  | nil => simp [expandedForest]
  | cons t ts ih => simp [expandedForest, ih]

theorem heightForest_le_iff {ts : List DTree} {n : ℕ} :
    heightForest ts ≤ n ↔ ∀ t ∈ ts, t.height ≤ n := by
  induction ts with
  | nil => simp [heightForest]
  | cons t ts ih => rw [heightForest, Nat.max_le, ih, List.forall_mem_cons]

theorem yieldForest_eq_flatMap (ts : List DTree) : yieldForest ts = ts.flatMap yield := by
  induction ts with
  | nil => rfl
  | cons t ts ih => simp [yieldForest, ih]

end DTree

/-- Complete derivation trees of a grammar: nonterminals are expanded by one of their
    alternatives, everything else is a leaf. -/
inductive Derives (G : Grammar) : DTree → Prop where
  | leaf {s : Sym} (h : s ∉ G.keys) : Derives G (.leaf s)
  | node {s : Sym} {d : ℕ} {children : List DTree} {alt : Alternative}
      (ha : alt ∈ G.alternatives s) (hd : alt.derivNum = d)
      (hc : children.map DTree.symbol = alt.expansion)
      (h : ∀ t ∈ children, Derives G t) : Derives G (.node s d children)

/-- The subtrees of `t`, each with the symbols from the root of `t` down to its own root. -/
inductive DTree.Below (t : DTree) : List Sym → DTree → Prop where
  | root : Below t [t.symbol] t
  | child {path : List Sym} {s : Sym} {d : ℕ} {children : List DTree} {c : DTree}
      (above : Below t path (.node s d children)) (hc : c ∈ children) :
      Below t (path ++ [c.symbol]) c

namespace DTree

theorem Below.getLast? {t u : DTree} {path : List Sym} (h : t.Below path u) :
    path.getLast? = some u.symbol := by
  cases h with
  | root => rfl
  | child _ _ => exact List.getLast?_concat

theorem Below.dropLast_append {t u : DTree} {path : List Sym} (h : t.Below path u) :
    path.dropLast ++ [u.symbol] = path := by
  cases h with
  | root => rfl
  | child _ _ => rw [List.dropLast_concat]

theorem Below.expandedBelow_subset {t u : DTree} {path : List Sym} (h : t.Below path u) :
    ∀ e ∈ u.expandedBelow path.dropLast, e ∈ t.expandedBelow [] := by
  induction h with
  | root => exact fun e he => he
  | @child path s d children c above hc ih =>
    intro e he
    apply ih
    have hpath : path.dropLast ++ [s] = path := above.dropLast_append
    rw [List.dropLast_concat] at he
    rw [expandedBelow, hpath]
    exact List.mem_cons_of_mem _ (mem_expandedForest.mpr ⟨c, hc, he⟩)

mutual

theorem Below.of_expandedBelow {t : DTree} {pre path : List Sym} {d : ℕ} :
    ∀ u : DTree, t.Below (pre ++ [u.symbol]) u → (path, d) ∈ u.expandedBelow pre →
      ∃ s children, t.Below path (.node s d children)
  | .leaf _, _, he => by simp [expandedBelow] at he
  | .node s d' children, hu, he => by
    rw [expandedBelow, List.mem_cons] at he
    rcases he with he | he
    · obtain ⟨rfl, rfl⟩ := Prod.mk.inj he
      exact ⟨s, children, hu⟩
    · exact Below.of_expandedForest children (fun c hc => .child hu hc) he

theorem Below.of_expandedForest {t : DTree} {pre path : List Sym} {d : ℕ} :
    ∀ us : List DTree, (∀ u ∈ us, t.Below (pre ++ [u.symbol]) u) →
      (path, d) ∈ expandedForest pre us → ∃ s children, t.Below path (.node s d children)
  | [], _, he => by simp [expandedForest] at he
  | u :: us, hus, he => by
    rw [expandedForest, List.mem_append] at he
    rcases he with he | he
    · exact Below.of_expandedBelow u (hus u (by simp)) he
    · exact Below.of_expandedForest us (fun v hv => hus v (List.mem_cons_of_mem u hv)) he

end

theorem mem_expanded_iff {t : DTree} {path : List Sym} {d : ℕ} :
    (path, d) ∈ t.expanded ↔ ∃ s children, t.Below path (.node s d children) := by
  constructor
  · exact Below.of_expandedBelow t .root
  · rintro ⟨s, children, h⟩
    apply h.expandedBelow_subset
    have hpath : path.dropLast ++ [s] = path := h.dropLast_append
    rw [expandedBelow, hpath]
    exact List.mem_cons_self

end DTree

theorem Derives.of_below {G : Grammar} {t u : DTree} {path : List Sym} (ht : Derives G t)
    (h : t.Below path u) : Derives G u := by
  induction h with
  | root => exact ht
  | child _ hc ih =>
    cases ih with
    | node _ _ _ hall => exact hall _ hc

end RSFuzz
