import RSFuzz.BnfRoundTrip
import RSFuzz.SequenceShape
import RSFuzz.WalkCompleteness

set_option autoImplicit false

/-!
# Whether a captured sequence ends at a choice

Trimming passes the symbols with one alternative, but pruning tells alternatives
apart by their numbers, and alternatives with the same words share one. So a
sequence ends at a symbol without a choice exactly if trimming stops at a symbol
whose alternatives all share a number.
-/
namespace RSFuzz
open OrderedMap Subsequence BlockCollapse

def EndsAtChoice (G : Grammar) (e : List Entry) : Prop :=
  ∃ pre S d, e = pre ++ [Entry.sym S, Entry.dn d] ∧ ∃ alt ∈ G.alternatives S, alt.derivNum ≠ d

/-- Two or more alternatives, and one number for all of them. -/
def Grammar.SharesNumber (G : Grammar) (S : Sym) : Prop :=
  2 ≤ (G.alternatives S).length ∧
    ∀ a ∈ G.alternatives S, ∀ b ∈ G.alternatives S, a.derivNum = b.derivNum

/-- A node of such a symbol, with another symbol above it, and below it a leaf that is no
    separator, with nothing but symbols of one alternative between. -/
def Tree.SharedEnd (G : Grammar) (tree : Tree) : Prop :=
  ∃ pos node path, tree.node? pos = some node ∧ tree.RootPath pos path ∧ tree.EndsBelow G pos ∧
    G.SharesNumber node.symbol ∧ ∃ A ∈ path, A ≠ node.symbol

theorem endsAtChoice_entries_iff (G : Grammar) (s : Sequence) :
    EndsAtChoice G s.entries ↔ ∃ alt ∈ G.alternatives s.lastSymbol, alt.derivNum ≠ s.dn := by
  constructor
  · rintro ⟨pre, S, d, he, halt⟩
    rw [s.entries_eq_concat] at he
    obtain ⟨-, hlast⟩ := List.append_inj' he rfl
    obtain ⟨hS, hd⟩ := List.cons.inj hlast
    rw [Entry.sym.inj hS, Entry.dn.inj (List.cons.inj hd).1]
    exact halt
  · exact fun halt => ⟨_, _, _, s.entries_eq_concat, halt⟩

/-- A collapsed sequence is longer than its last two entries exactly if another symbol stands
    before them: equal neighbours are gone, and no symbol is lost. -/
theorem three_le_length_iff {s t : Sequence} (h : collapse t.entries = some s.entries) :
    3 ≤ s.entries.length ↔ ∃ A ∈ t.symbols, A ≠ s.lastSymbol := by
  have hlen : s.entries.length = s.symbols.dropLast.length + 2 := by
    rw [s.entries_eq_concat, List.length_append, List.length_map]
    rfl
  constructor
  · intro hthree
    have hne : s.symbols.dropLast ≠ [] := List.ne_nil_of_length_pos (by omega)
    refine ⟨s.symbols.dropLast.getLast hne, ?_, ?_⟩
    · obtain ⟨s', hs', -, hend⟩ := exists_collapsed t
      obtain rfl := Sequence.entries_injective (Option.some.inj (h.symm.trans hs'))
      exact hend.1.subset (List.mem_of_mem_dropLast (List.getLast_mem hne))
    · have hout : Entry.dn t.dn ∉ t.symbols.map Entry.sym := by simp
      obtain ⟨ys, hys, hfree⟩ := collapse_squareFree hout
      obtain rfl := Option.some.inj (h.symm.trans hys)
      have hchain := hfree.isChain
      rw [s.entries_eq_concat, List.isChain_append] at hchain
      intro heq
      refine hchain.2.2 (Entry.sym (s.symbols.dropLast.getLast hne)) ?_ (Entry.sym s.lastSymbol) rfl
        (congrArg Entry.sym heq)
      rw [Option.mem_def, List.getLast?_map, List.getLast?_eq_getLast_of_ne_nil hne]
      rfl
  · rintro ⟨A, hA, hne⟩
    have hmem : Entry.sym A ∈ s.entries :=
      subset_of_collapse h (List.mem_append_left _ (List.mem_map_of_mem hA))
    rw [s.entries_eq_concat] at hmem
    have hpos : s.symbols.dropLast ≠ [] := by
      intro hnil
      rw [hnil] at hmem
      simp [hne] at hmem
    have := List.length_pos_iff.mpr hpos
    omega

section Choices

variable {G : Grammar} {start : Sym} {tree : Tree}

theorem Grammar.isOneChild_iff (S : Sym) :
    G.isOneChild S = true ↔ (G.alternatives S).length = 1 := by
  unfold Grammar.isOneChild Grammar.alternatives
  cases G.get? S <;> simp

theorem two_le_of_stopsTrim (hw : WellFormed G start tree) {pos : ℕ × ℕ} {a b : ℕ} {node : Node}
    (hn : tree.node? pos = some node) (hc : node.children = .range a b)
    (hstop : tree.StopsTrim G pos) (hpos : pos.1 ≠ 0) :
    2 ≤ (G.alternatives node.symbol).length := by
  obtain ⟨-, alt, halt, -⟩ := hw.spells_alternative hn hc
  have hone : (G.alternatives node.symbol).length ≠ 1 :=
    fun hlen => hpos (hstop node hn ((Grammar.isOneChild_iff _).mpr hlen))
  have := List.length_pos_of_mem halt
  omega

theorem Grammar.SharesNumber.stopsTrim {pos : ℕ × ℕ} {node : Node}
    (h : G.SharesNumber node.symbol) (hn : tree.node? pos = some node) : tree.StopsTrim G pos := by
  intro node' hn' hone
  obtain rfl := Option.some.inj (hn.symm.trans hn')
  have hlen := (Grammar.isOneChild_iff _).mp hone
  have := h.1
  omega

theorem Tree.RootPath.pos_of_other {pos : ℕ × ℕ} {path : List Sym} {node : Node}
    (h : tree.RootPath pos path) (hn : tree.node? pos = some node)
    (hother : ∃ A ∈ path, A ≠ node.symbol) : pos.1 ≠ 0 := by
  intro hzero
  obtain ⟨A, hA, hne⟩ := hother
  obtain ⟨B, rfl⟩ : ∃ B, path = [B] := List.length_eq_one_iff.mp (by rw [h.length, hzero])
  have hlast : B = node.symbol := Option.some.inj (h.getLast? hn)
  exact hne ((List.mem_singleton.mp hA).trans hlast)

/-- Every sequence of three or more entries ends at a choice, exactly if trimming stops below
    no other symbol at one whose alternatives share a number. -/
theorem sequences_end_at_choice_iff (order : IterationOrder (List Entry))
    (hw : WellFormed G start tree) (hclosed : tree.Closed) (hstart : start ∈ G.keys) :
    ∃ fuel₀ sequences, (∀ fuel, fuel₀ ≤ fuel →
        dtToSequences G order tree fuel = some sequences) ∧
      ((∀ e ∈ sequences, 3 ≤ e.length → EndsAtChoice G e) ↔ ¬ tree.SharedEnd G) := by
  obtain ⟨fuel₀, sequences, hrun, -⟩ := dtToSequences_returns order hw hclosed hstart
  obtain ⟨raws, hraws, hmem⟩ := exists_raws (hrun fuel₀ le_rfl)
  have hcollects := mem_rawSequences_iff hw hclosed hstart hraws
  -- a collapsed sequence ends like the path that it was read off
  have hends : ∀ {pos : ℕ × ℕ} {node : Node} {path : List Sym} {s : Sequence},
      tree.node? pos = some node → tree.RootPath pos path → EndsIn s.symbols path →
        s.lastSymbol = node.symbol := by
    intro pos node path s hn hpath hend
    exact Option.some.inj ((s.getLast?_symbols.symm.trans hend.2).trans (hpath.getLast? hn))
  refine ⟨fuel₀, sequences, hrun, ?_, ?_⟩
  · rintro hall ⟨pos, node, path, hn, hpath, hbelow, hshare, hother⟩
    obtain ⟨c, child, hchild, hpar⟩ := hbelow.exists_child
    obtain ⟨node', a, b, dn, hn', hc, hdn⟩ := hw.parent_expanded hchild hpar
    obtain rfl := Option.some.inj (hn.symm.trans hn')
    obtain ⟨s, hs, hsdn, hend⟩ := exists_collapsed ⟨path, dn, hpath.ne_nil⟩
    have hlast := hends hn hpath hend
    have hin : s.entries ∈ sequences := (hmem _).mpr ⟨_, (hcollects _).mpr ⟨path, dn,
      ⟨pos, node, a, b, hn, hc, hdn, hpath, hbelow, hshare.stopsTrim hn⟩, rfl⟩, hs⟩
    have hchoice := hall s.entries hin ((three_le_length_iff hs).mpr (by rwa [hlast]))
    obtain ⟨alt, halt, hne⟩ := (endsAtChoice_entries_iff G s).mp hchoice
    obtain ⟨-, used, hused, hnum, -⟩ := hw.spells_alternative hn hc
    rw [hlast] at halt
    have hsame := hshare.2 alt halt used hused
    have hdn : dn = used.derivNum := Int.ofNat.inj (hdn.symm.trans hnum)
    exact hne (by rw [hsame, hsdn, ← hdn])
  · intro hno e he hthree
    obtain ⟨raw, hraw, hcollapse⟩ := (hmem e).mp he
    obtain ⟨path, dn, ⟨pos, node, a, b, hn, hc, hdn, hpath, hbelow, hstop⟩, rfl⟩ :=
      (hcollects raw).mp hraw
    obtain ⟨s, hs, hsdn, hend⟩ := exists_collapsed ⟨path, dn, hpath.ne_nil⟩
    obtain rfl := Option.some.inj (hcollapse.symm.trans hs)
    have hlast := hends hn hpath hend
    have hother := (three_le_length_iff hs).mp hthree
    rw [hlast] at hother
    rw [endsAtChoice_entries_iff, hlast]
    by_contra hnone
    have hall : ∀ alt ∈ G.alternatives node.symbol, alt.derivNum = s.dn := by
      intro alt halt
      by_contra hne
      exact hnone ⟨alt, halt, hne⟩
    have htwo := two_le_of_stopsTrim hw hn hc hstop (hpath.pos_of_other hn hother)
    exact hno ⟨pos, node, path, hn, hpath, hbelow,
      ⟨htwo, fun a ha b hb => (hall a ha).trans (hall b hb).symm⟩, hother⟩

theorem sequences_end_at_choice_iff_sample : ∃ st, sampleTree = some st ∧
    ∃ fuel₀ sequences, (∀ fuel, fuel₀ ≤ fuel →
        dtToSequences sampleGrammar IterationOrder.listed st.tree fuel = some sequences) ∧
      ((∀ e ∈ sequences, 3 ≤ e.length → EndsAtChoice sampleGrammar e) ↔
        ¬ st.tree.SharedEnd sampleGrammar) := by
  have hsome : sampleTree.isSome = true := by decide +kernel
  obtain ⟨st, hst⟩ := Option.isSome_iff_exists.mp hsome
  obtain ⟨hinv, hclosed⟩ := (InputGenerator.Produces.plain hst).closed (g := sampleGenerator) (by decide)
  exact ⟨st, hst, sequences_end_at_choice_iff .listed hinv.wellFormed hclosed (by decide)⟩

end Choices

def strikeLines : List Text :=
  ["start = Strike @@ 1.0;\n".toList, "Strike = \"~~\" @@ 0.5 | \"~~\" \"~~\" @@ 0.5;\n".toList]

def strikeGrammar : Grammar :=
  grammarOf ((parseBnf some mdWords sampleFloat strikeLines).getD Map.empty)

def strikeTree : Option GenState :=
  InputGenerator.generateTree
    ⟨strikeGrammar, (calculateDepths strikeGrammar 5).getD Map.empty, ⟨"start", 5⟩, Tables.empty⟩
    ⟨fun _ _ => 0, fun _ => 0⟩ 5

/-- The file is parsed and gives a tree whose only sequence ends at `Strike`, where both
    alternatives have the number that it would prune. -/
theorem sequences_end_without_choice :
    (parseBnf some mdWords sampleFloat strikeLines).isSome = true ∧
    (calculateDepths strikeGrammar 5).isSome = true ∧
    strikeTree.bind (fun st => dtToSequences strikeGrammar IterationOrder.listed st.tree 20) =
      some [[.sym "start", .sym "Strike", .dn 0]] ∧
    ¬ EndsAtChoice strikeGrammar [.sym "start", .sym "Strike", .dn 0] := by
  refine ⟨by decide +kernel, by decide +kernel, by decide +kernel, ?_⟩
  have hnums : (strikeGrammar.alternatives "Strike").map Alternative.derivNum = [0, 0] := by
    decide +kernel
  intro hchoice
  obtain ⟨alt, halt, hne⟩ :=
    (endsAtChoice_entries_iff strikeGrammar ⟨["start", "Strike"], 0, by decide⟩).mp hchoice
  have hmem : alt.derivNum ∈ (strikeGrammar.alternatives "Strike").map Alternative.derivNum :=
    List.mem_map_of_mem halt
  rw [hnums] at hmem
  exact hne (by simpa using hmem)

end RSFuzz
