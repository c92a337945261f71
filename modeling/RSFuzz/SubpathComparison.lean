import RSFuzz.FoundationSquareFree
import RSFuzz.GeneratorMatching
import RSFuzz.RuleInclusion

set_option autoImplicit false

/-!
# Two tests for one relation

`including_sequence` and `compare_subpaths` of `main/generateRS.py`: a sequence
is included in another one if both end in the same two entries and what comes
before is a subsequence. Both tests accept everything that is included, and more.
-/
namespace RSFuzz
open OrderedMap Subsequence
open scoped List

def lastTwo (seq : List Entry) : List Entry := seq.drop (seq.length - 2)

def butTwo (seq : List Entry) : List Entry := seq.take (seq.length - 2)

def IncludedIn (seq1 seq2 : List Entry) : Prop :=
  lastTwo seq1 = lastTwo seq2 ∧ butTwo seq1 <+ butTwo seq2

instance (seq1 seq2 : List Entry) : Decidable (IncludedIn seq1 seq2) :=
  inferInstanceAs (Decidable (lastTwo seq1 = lastTwo seq2 ∧ butTwo seq1 <+ butTwo seq2))

/-- `for symbol in short_sp[:-2]`; the index found is the first in all of `long_sp`. -/
def compareScan (longSp : List Entry) : List Entry → ℕ → Bool
  | [], _ => true
  | symbol :: rest, idx =>
    if symbol ∈ (butTwo longSp).drop idx then
      compareScan longSp rest (longSp.idxOf symbol)
    else false

def compareSubpaths (longSp shortSp : List Entry) : Bool :=
  if longSp = shortSp then true
  else if lastTwo longSp ≠ lastTwo shortSp then false
  else compareScan longSp (butTwo shortSp) 0

theorem butTwo_append_lastTwo (seq : List Entry) : butTwo seq ++ lastTwo seq = seq :=
  List.take_append_drop _ seq

theorem IncludedIn.length_le {seq1 seq2 : List Entry} (h : IncludedIn seq1 seq2) :
    seq1.length ≤ seq2.length := by
  have hbut := h.2.length_le
  rw [← butTwo_append_lastTwo seq1, ← butTwo_append_lastTwo seq2, List.length_append,
    List.length_append, h.1]
  omega

theorem IncludedIn.trans {a b c : List Entry} (h : IncludedIn a b) (h' : IncludedIn b c) :
    IncludedIn a c := ⟨h.1.trans h'.1, h.2.trans h'.2⟩

theorem IncludedIn.eq_of_length_le {a b : List Entry} (h : IncludedIn a b)
    (hlen : b.length ≤ a.length) : a = b := by
  have hab := butTwo_append_lastTwo a
  have hbb := butTwo_append_lastTwo b
  have hcount : (butTwo b).length ≤ (butTwo a).length := by
    rw [← hab, ← hbb, List.length_append, List.length_append, h.1] at hlen
    omega
  rw [← hab, ← hbb, h.1, h.2.eq_of_length_le hcount]

theorem Sequence.lastTwo_entries (s : Sequence) :
    lastTwo s.entries = [Entry.sym s.lastSymbol, Entry.dn s.dn] := s.entries_drop

theorem Sequence.butTwo_entries (s : Sequence) :
    butTwo s.entries = s.symbols.dropLast.map Entry.sym := by
  rw [butTwo, s.entries_length, Sequence.entries, List.take_append_of_le_length (by simp),
    List.dropLast_eq_take, List.map_take]
  rfl

theorem sublist_map_sym_iff {xs ys : List Sym} : xs.map Entry.sym <+ ys.map Entry.sym ↔ xs <+ ys := by
  constructor
  · intro h
    obtain ⟨zs, hzs, he⟩ := List.sublist_map_iff.mp h
    rwa [List.map_injective_iff.mpr (fun _ _ => Entry.sym.inj) he]
  · exact fun h => h.map Entry.sym

/-- On sequences the relation is the one that matching on a root path refines. -/
theorem includedIn_entries_iff (s t : Sequence) :
    IncludedIn s.entries t.entries ↔ s.dn = t.dn ∧ EndsIn s.symbols t.symbols := by
  rw [IncludedIn, s.lastTwo_entries, t.lastTwo_entries, s.butTwo_entries, t.butTwo_entries,
    sublist_map_sym_iff, endsIn_iff_dropLast s.nonempty t.nonempty, s.getLast?_symbols,
    t.getLast?_symbols]
  simp only [List.cons.injEq, Entry.sym.injEq, Entry.dn.injEq, and_true, Option.some.injEq]
  tauto

theorem includingSequence_eq_true_iff (seq1 seq2 : List Entry) :
    includingSequence seq1 seq2 = true ↔
      seq1.length ≤ seq2.length ∧ lastTwo seq1 = lastTwo seq2 := by
  unfold includingSequence
  rw [scanTokens_eq_true _ _ 0 (Nat.zero_le _)]
  split_ifs with hlen hlast
  · simp only [false_iff]
    exact fun h => absurd h.1 (by omega)
  · simp only [false_iff]
    exact fun h => hlast h.2
  · simp only [true_iff]
    exact ⟨by omega, not_not.mp hlast⟩

theorem compareScan_iff (longSp shortSp : List Entry) (idx : ℕ) :
    compareScan longSp shortSp idx = true ↔
      (∀ a ∈ shortSp.head?, a ∈ (butTwo longSp).drop idx) ∧
        shortSp.IsChain fun a b => b ∈ (butTwo longSp).drop ((butTwo longSp).idxOf a) := by
  induction shortSp generalizing idx with
  | nil => simp [compareScan]
  | cons symbol rest ih =>
    rw [compareScan, List.isChain_cons]
    by_cases hin : symbol ∈ (butTwo longSp).drop idx
    · have hfirst : longSp.idxOf symbol = (butTwo longSp).idxOf symbol := by
        conv_lhs => rw [← butTwo_append_lastTwo longSp]
        exact List.idxOf_append_of_mem (List.mem_of_mem_drop hin)
      rw [if_pos hin, ih, hfirst]
      simp [hin]
    · rw [if_neg hin]
      simp [hin]

theorem compareSubpaths_iff (longSp shortSp : List Entry) :
    compareSubpaths longSp shortSp = true ↔
      lastTwo longSp = lastTwo shortSp ∧ LooselyIn (butTwo shortSp) (butTwo longSp) := by
  have hscan : compareScan longSp (butTwo shortSp) 0 = true ↔
      LooselyIn (butTwo shortSp) (butTwo longSp) := by
    rw [compareScan_iff, List.drop_zero, LooselyIn]
  unfold compareSubpaths
  split_ifs with heq hlast
  · subst heq
    simp [LooselyIn.of_sublist (List.Sublist.refl (butTwo longSp))]
  · simp only [false_iff]
    exact fun h => hlast h.1
  · rw [← hscan]
    exact (and_iff_right (not_not.mp hlast)).symm

theorem IncludedIn.compareSubpaths {seq1 seq2 : List Entry} (h : IncludedIn seq1 seq2) :
    compareSubpaths seq2 seq1 = true :=
  (compareSubpaths_iff seq2 seq1).mpr ⟨h.1.symm, .of_sublist h.2⟩

/-- `including_sequence` never looks at what comes before the last two entries. -/
theorem includingSequence_correct_iff (seq1 seq2 : List Entry) :
    (includingSequence seq1 seq2 = true ↔ IncludedIn seq1 seq2) ↔
      (seq1.length ≤ seq2.length → lastTwo seq1 = lastTwo seq2 → butTwo seq1 <+ butTwo seq2) := by
  rw [includingSequence_eq_true_iff]
  constructor
  · exact fun h hlen hlast => (h.mp ⟨hlen, hlast⟩).2
  · exact fun h => ⟨fun hinc => ⟨hinc.2, h hinc.1 hinc.2⟩, fun hinc => ⟨hinc.length_le, hinc.1⟩⟩

theorem includingSequence_accepts_stranger :
    includingSequence [.sym "left", .sym "value", .dn 0] [.sym "right", .sym "value", .dn 0] = true ∧
      ¬ IncludedIn [.sym "left", .sym "value", .dn 0] [.sym "right", .sym "value", .dn 0] := by
  decide

theorem IncludedIn.satisfyPreSeq {s t : Sequence} (h : IncludedIn s.entries t.entries) {tree : Tree}
    {pos : ℕ × ℕ} {path : List Sym} (hp : tree.RootPath pos path) (hlen : tree.length = pos.1 + 1)
    (ht : satisfyPreSeq tree t.symbols pos = some true) :
    satisfyPreSeq tree s.symbols pos = some true := by
  rw [satisfyPreSeq_eq hp hlen, Option.some.injEq, decide_eq_true_eq] at ht ⊢
  have hend := (matches_iff_endsIn t.nonempty).mp ht
  exact (matches_iff_endsIn s.nonempty).mpr (((includedIn_entries_iff s t).mp h).2.trans hend)

/-- `compare_subpaths` agrees with the matching of the generator exactly where its scan does not
    profit from going back. -/
theorem compareSubpaths_correct_iff (longSp shortSp : Sequence) :
    ((compareSubpaths longSp.entries shortSp.entries = true ↔
        IncludedIn shortSp.entries longSp.entries) ∧
      (compareSubpaths longSp.entries shortSp.entries = true → ∀ tree pos path,
        Tree.RootPath tree pos path → tree.length = pos.1 + 1 →
        satisfyPreSeq tree longSp.symbols pos = some true →
        satisfyPreSeq tree shortSp.symbols pos = some true)) ↔
    (lastTwo longSp.entries = lastTwo shortSp.entries →
      LooselyIn (butTwo shortSp.entries) (butTwo longSp.entries) →
      butTwo shortSp.entries <+ butTwo longSp.entries) := by
  rw [compareSubpaths_iff]
  constructor
  · exact fun h hlast hloose => (h.1.mp ⟨hlast, hloose⟩).2
  · intro h
    have hinc : lastTwo longSp.entries = lastTwo shortSp.entries ∧
        LooselyIn (butTwo shortSp.entries) (butTwo longSp.entries) →
        IncludedIn shortSp.entries longSp.entries := fun hc => ⟨hc.1.symm, h hc.1 hc.2⟩
    refine ⟨⟨hinc, fun hi => ⟨hi.1.symm, .of_sublist hi.2⟩⟩, fun hc tree pos path hp hlen ht => ?_⟩
    exact (hinc hc).satisfyPreSeq hp hlen ht

def fromOuter : Sequence := ⟨["outer", "inner", "outer", "value"], 0, by decide⟩
def fromInner : Sequence := ⟨["inner", "outer", "inner", "value"], 0, by decide⟩

def outerBranch : Tree :=
  [[⟨"outer", .range 0 1, 0, none⟩], [⟨"inner", .range 0 1, 0, some (0, 0)⟩],
    [⟨"outer", .range 0 1, 1, some (1, 0)⟩], [⟨"value", .unexpanded, -1, some (2, 0)⟩]]

/-- Both sequences are collapsed, the test takes one for a shorter version of the other, and the
    node at the end of the branch fits the first but not the second. -/
theorem compareSubpaths_accepts_rotation :
    BlockCollapse.collapse fromOuter.entries = some fromOuter.entries ∧
      BlockCollapse.collapse fromInner.entries = some fromInner.entries ∧
      compareSubpaths fromOuter.entries fromInner.entries = true ∧
      ¬ IncludedIn fromInner.entries fromOuter.entries ∧
      satisfyPreSeq outerBranch fromOuter.symbols (3, 0) = some true ∧
      satisfyPreSeq outerBranch fromInner.symbols (3, 0) = some false := by
  decide

end RSFuzz
