import RSFuzz.SequenceRanking

set_option autoImplicit false

/-!
# The rule of a sequence set

Where the rules are built the selected sequence stands for the longer argument
of `compare_subpaths`, while a tree realises it by a sequence that is longer.
-/
namespace RSFuzz
open OrderedMap Subsequence Counting
open scoped List

theorem mem_remainingSeqs {selected : Finset Sequence} {seqs : List Sequence} {s : Sequence}
    (hs : s ∈ selected) : s ∈ remainingSeqs selected seqs ↔ ∃ t ∈ seqs,
      lastTwo s.entries = lastTwo t.entries ∧ LooselyIn (butTwo t.entries) (butTwo s.entries) := by
  simp only [remainingSeqs, Finset.mem_filter, hs, true_and, compareSubpaths_iff]

theorem mem_remainingSeqs_self {selected : Finset Sequence} {seqs : List Sequence} {s : Sequence}
    (hs : s ∈ selected) (hin : s ∈ seqs) : s ∈ remainingSeqs selected seqs :=
  (mem_remainingSeqs hs).mpr ⟨s, hin, rfl, .of_sublist (List.Sublist.refl _)⟩

theorem mem_ranked_of_mem_select {ranked : List (Sequence × ℕ)} {labels : List ℕ} {n : ℕ}
    {s : Sequence} (h : s ∈ selectSequences ranked labels n) : ∃ cnt, (s, cnt) ∈ ranked := by
  obtain ⟨⟨⟨s', cnt⟩, label⟩, hp, rfl⟩ := List.mem_map.mp h
  have hzip := (List.takeWhile_prefix _).subset hp
  exact ⟨cnt, (List.of_mem_zip hzip).1⟩

theorem Capture.selected_kept {labelling : Labelling} {order : CaptureOrder}
    {prev : Option PrevCaptured} {seqsList : List (List Sequence)} {c : Capture}
    (h : captureRuleFromCluster labelling order prev seqsList = some c) :
    ∀ s ∈ c.prevCaptured.sequences, s ∈ keptSequences c.simplifiedCluster := by
  obtain ⟨refined, labels, -, -, hrefined, hprev, -⟩ := captureRuleFromCluster_eq h
  intro s hs
  rw [hprev, List.mem_toFinset] at hs
  obtain ⟨cnt, hcnt⟩ := mem_ranked_of_mem_select hs
  rw [hrefined]
  exact ((mem_rankedSequences refined s cnt).mp hcnt).1

/-- The scan goes back somewhere in `s`, so that `t` is taken for a shorter version of it. -/
def Mistaken (t s : Sequence) : Prop :=
  lastTwo t.entries = lastTwo s.entries ∧ LooselyIn (butTwo t.entries) (butTwo s.entries) ∧
    ¬ butTwo t.entries <+ butTwo s.entries

instance (t s : Sequence) : Decidable (Mistaken t s) := inferInstanceAs (Decidable (_ ∧ _ ∧ _))

theorem IncludedIn.refl (seq : List Entry) : IncludedIn seq seq := ⟨rfl, List.Sublist.refl _⟩

section Selected

variable {labelling : Labelling} {order : CaptureOrder} {prev : Option PrevCaptured}
  {seqsList : List (List Sequence)} {c : Capture}
  (h : captureRuleFromCluster labelling order prev seqsList = some c) {seqs : List Sequence}
  (hseqs : seqs ∈ c.simplifiedCluster) {s : Sequence} (hs : s ∈ c.prevCaptured.sequences)

include h hseqs hs

theorem eq_of_includedIn_selected {t : Sequence} (ht : t ∈ seqs)
    (hinc : IncludedIn t.entries s.entries) : t = s :=
  (shortest_of_mem_kept (Capture.selected_kept h s hs)).2 t
    (List.mem_flatten.mpr ⟨seqs, hseqs, ht⟩) hinc

/-- A set that does not hold a selected sequence gets it by mistake only. -/
theorem mem_remainingSeqs_iff_mistaken (hin : s ∉ seqs) :
    s ∈ remainingSeqs c.prevCaptured.sequences seqs ↔ ∃ t ∈ seqs, Mistaken t s := by
  rw [mem_remainingSeqs hs]
  refine exists_congr fun t => and_congr_right fun ht => ?_
  constructor
  · rintro ⟨hlast, hloose⟩
    refine ⟨hlast.symm, hloose, fun hsub => hin ?_⟩
    rwa [← eq_of_includedIn_selected h hseqs hs ht ⟨hlast.symm, hsub⟩]
  · exact fun hmistaken => ⟨hmistaken.1.symm, hmistaken.2.1⟩

theorem not_mistaken_of_exact (hexact : ComparesExactly c.simplifiedCluster) {t : Sequence}
    (ht : t ∈ seqs) : ¬ Mistaken t s := by
  rintro ⟨hlast, hloose, hnot⟩
  exact hnot (hexact t (List.mem_flatten.mpr ⟨seqs, hseqs, ht⟩) s
    (keptSequences_subset (Capture.selected_kept h s hs))
    ((compareSubpaths_iff _ _).mpr ⟨hlast.symm, hloose⟩)).2

end Selected

def oneLabel : Labelling := ⟨fun values => values.map fun _ => 0, by simp⟩

theorem captureRuleFromCluster_inner :
    (captureRuleFromCluster oneLabel listedCapture none [[viaInner], [shortWay]]).map
        (fun c => (c.simplifiedCluster, c.prevCaptured.sequences)) =
      some ([[viaInner], [shortWay]], {shortWay}) := by
  decide +kernel

end RSFuzz
