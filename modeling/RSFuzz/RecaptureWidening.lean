import RSFuzz.SequenceRanking

set_option autoImplicit false

/-!
# Widening on re-capture

The captures of one cluster hand a file on: how many label clusters were used,
and what was selected. A re-capture uses one more, unless it finds the earlier
selection at labels that are too large. The loop that looks for this runs over
all labels but the last, so it never looks at a single one.
-/
namespace RSFuzz
open OptionFold

/-- A ranking, and the labels that the clustering gives to its values. -/
@[ext] structure LabelledRanking where
  ranked : List (Sequence × ℕ)
  resultLabels : List ℤ
  length_eq : resultLabels.length = ranked.length

def saveRanking (prev : Option PrevCaptured) (r : LabelledRanking) : Option PrevCaptured := do
  let labels ← convertLabels r.resultLabels
  let nUsed := nUsedClusters prev r.ranked labels
  return ⟨labels.foldl max 0, nUsed, (selectSequences r.ranked labels nUsed).toFinset⟩

def savedAfter (rankings : ℕ → LabelledRanking) : ℕ → Option PrevCaptured
  | 0 => saveRanking none (rankings 0)
  | n + 1 => (savedAfter rankings n).bind fun prev => saveRanking (some prev) (rankings (n + 1))

/-- What `capture_rule_from_cluster` is called with, apart from the file. -/
structure CaptureCall where
  labelling : Labelling
  order : CaptureOrder
  seqsList : List (List Sequence)

namespace CaptureCall

def run (call : CaptureCall) (prev : Option PrevCaptured) : Option Capture :=
  captureRuleFromCluster call.labelling call.order prev call.seqsList

def ranking (call : CaptureCall) : LabelledRanking :=
  let refined := (refinedSeqsList call.order call.seqsList).getD []
  { ranked := rankedSequences refined
    resultLabels := call.labelling.fit (rankingValues refined.length (rankedSequences refined))
    length_eq := by rw [call.labelling.length_fit, rankingValues, List.length_map] }

theorem run_saves (call : CaptureCall) (prev : Option PrevCaptured) :
    (call.run prev).map Capture.prevCaptured = saveRanking prev call.ranking := by
  obtain ⟨refined, hrefined⟩ := exists_refinedSeqsList call.order call.seqsList
  simp only [run, captureRuleFromCluster, saveRanking, ranking, hrefined, Option.getD_some,
    Option.bind_eq_bind, Option.bind_some, Option.pure_def]
  cases convertLabels (call.labelling.fit
    (rankingValues refined.length (rankedSequences refined))) <;> rfl

end CaptureCall

/-- The first capture finds no file, every later one the file of the one before. -/
def capturesOf (calls : ℕ → CaptureCall) : ℕ → Option Capture
  | 0 => (calls 0).run none
  | n + 1 => (capturesOf calls n).bind fun c => (calls (n + 1)).run (some c.prevCaptured)

theorem capturesOf_saves {calls : ℕ → CaptureCall} {rankings : ℕ → LabelledRanking}
    (h : ∀ n, (calls n).ranking = rankings n) (n : ℕ) :
    (capturesOf calls n).map Capture.prevCaptured = savedAfter rankings n := by
  induction n with
  | zero =>
    rw [savedAfter, ← h 0]
    exact (calls 0).run_saves none
  | succ n ih =>
    rw [savedAfter, ← ih, ← h (n + 1), capturesOf]
    cases capturesOf calls n with
    | none => rfl
    | some c => exact (calls (n + 1)).run_saves (some c.prevCaptured)

def LabelledRanking.HasLabel (r : LabelledRanking) (seq : Sequence) (label : ℕ) : Prop :=
  ∃ (labels : List ℕ) (i cnt : ℕ), convertLabels r.resultLabels = some labels ∧
    r.ranked[i]? = some (seq, cnt) ∧ labels[i]? = some label

def EarlierAt (prev : PrevCaptured) (r : LabelledRanking) (label : ℕ) : Prop :=
  ∃ seq ∈ prev.sequences, r.HasLabel seq label

/-- What a re-capture is to do with the number of clusters used. -/
structure Widens (prev : PrevCaptured) (r : LabelledRanking) (cur : PrevCaptured) : Prop where
  le : prev.nClusters ≤ cur.nClusters
  stays : cur.nClusters = prev.nClusters ↔ ∃ label, EarlierAt prev r label ∧ prev.nClusters < label
  grows : (¬ ∃ label, EarlierAt prev r label ∧ prev.nClusters < label) →
    cur.nClusters = prev.nClusters + 1

/-- All earlier selected sequences that are still ranked have one label, and it is too large. -/
def LoneLabel (prev : PrevCaptured) (r : LabelledRanking) : Prop :=
  ∃ label, prev.nClusters < label ∧ EarlierAt prev r label ∧
    ∀ label', EarlierAt prev r label' → label' = label

theorem mem_clusterLabels {prev : PrevCaptured} {r : LabelledRanking} {labels : List ℕ}
    (h : convertLabels r.resultLabels = some labels) (label : ℕ) :
    label ∈ clusterLabels prev r.ranked labels ↔ EarlierAt prev r label := by
  rw [clusterLabels, List.mem_insertionSort, List.mem_dedup, List.mem_map]
  constructor
  · rintro ⟨⟨⟨seq, cnt⟩, label⟩, hmem, rfl⟩
    obtain ⟨hzip, hin⟩ := List.mem_filter.mp hmem
    obtain ⟨i, hi⟩ := List.mem_iff_getElem?.mp hzip
    obtain ⟨hrank, hlabel⟩ := List.getElem?_zip_eq_some.mp hi
    exact ⟨seq, of_decide_eq_true hin, labels, i, cnt, h, hrank, hlabel⟩
  · rintro ⟨seq, hseq, labels', i, cnt, hlabels, hrank, hlabel⟩
    obtain rfl := Option.some.inj (h.symm.trans hlabels)
    have hzip : ((seq, cnt), label) ∈ r.ranked.zip labels :=
      List.mem_of_getElem? (List.getElem?_zip_eq_some.mpr ⟨hrank, hlabel⟩)
    exact ⟨((seq, cnt), label), List.mem_filter.mpr ⟨hzip, decide_eq_true hseq⟩, rfl⟩

theorem nodup_clusterLabels (prev : PrevCaptured) (ranked : List (Sequence × ℕ)) (labels : List ℕ) :
    (clusterLabels prev ranked labels).Nodup :=
  (List.perm_insertionSort _ _).nodup_iff.mpr (List.nodup_dedup _)

theorem lt_foldl_max_iff (n : ℕ) (xs : List ℕ) (acc : ℕ) :
    n < xs.foldl max acc ↔ n < acc ∨ ∃ x ∈ xs, n < x := by
  induction xs generalizing acc with
  | nil => simp
  | cons x xs ih => rw [List.foldl_cons, ih, lt_max_iff, List.exists_mem_cons_iff, or_assoc]

theorem dropLast_ne_nil_iff {xs : List ℕ} (h : xs.Nodup) :
    xs.dropLast ≠ [] ↔ ∃ a ∈ xs, ∃ b ∈ xs, a ≠ b := by
  match xs, h with
  | [], _ => simp
  | [a], _ => simp
  | a :: b :: xs, h =>
    have hab : a ≠ b := fun he => (List.nodup_cons.mp h).1 (he ▸ List.mem_cons_self)
    simp only [List.dropLast_cons_cons, ne_eq, reduceCtorEq, not_false_eq_true, true_iff]
    exact ⟨a, by simp, b, by simp, hab⟩

theorem prevDataWrong_iff (prev : PrevCaptured) {sortedLabels : List ℕ} (h : sortedLabels.Nodup) :
    prevDataWrong prev sortedLabels = true ↔
      (∃ a ∈ sortedLabels, ∃ b ∈ sortedLabels, a ≠ b) ∧ ∃ x ∈ sortedLabels, prev.nClusters < x := by
  have hmax : prev.nClusters < sortedLabels.foldl max 0 ↔ ∃ x ∈ sortedLabels, prev.nClusters < x := by
    rw [lt_foldl_max_iff]
    simp
  rw [prevDataWrong, List.any_eq_true, ← dropLast_ne_nil_iff h, ← hmax]
  constructor
  · rintro ⟨v, hv, hlt⟩
    exact ⟨List.ne_nil_of_mem hv, of_decide_eq_true hlt⟩
  · rintro ⟨hne, hlt⟩
    obtain ⟨v, hv⟩ := List.exists_mem_of_ne_nil _ hne
    exact ⟨v, hv, decide_eq_true hlt⟩

/-- A re-capture keeps the number exactly if the earlier selection is found at two labels or more,
    one of them too large. -/
theorem saveRanking_nClusters {prev cur : PrevCaptured} {r : LabelledRanking}
    (h : saveRanking (some prev) r = some cur) :
    ((∃ a, EarlierAt prev r a ∧ ∃ b, EarlierAt prev r b ∧ a ≠ b) ∧
        (∃ label, EarlierAt prev r label ∧ prev.nClusters < label) ∧
        cur.nClusters = prev.nClusters) ∨
      (¬ ((∃ a, EarlierAt prev r a ∧ ∃ b, EarlierAt prev r b ∧ a ≠ b) ∧
          ∃ label, EarlierAt prev r label ∧ prev.nClusters < label) ∧
        cur.nClusters = prev.nClusters + 1) := by
  obtain ⟨labels, hlabels, hcur⟩ := Option.bind_eq_some_iff.mp h
  obtain rfl := Option.some.inj hcur
  have hwrong := prevDataWrong_iff prev (nodup_clusterLabels prev r.ranked labels)
  simp only [mem_clusterLabels hlabels] at hwrong
  simp only [nUsedClusters]
  split_ifs with hw
  · exact Or.inl ⟨(hwrong.mp hw).1, (hwrong.mp hw).2, rfl⟩
  · exact Or.inr ⟨fun hc => hw (hwrong.mpr hc), rfl⟩

theorem saveRanking_le {prev cur : PrevCaptured} {r : LabelledRanking}
    (h : saveRanking (some prev) r = some cur) : prev.nClusters ≤ cur.nClusters := by
  rcases saveRanking_nClusters h with ⟨-, -, hcur⟩ | ⟨-, hcur⟩ <;> omega

theorem widens_iff {prev cur : PrevCaptured} {r : LabelledRanking}
    (h : saveRanking (some prev) r = some cur) : Widens prev r cur ↔ ¬ LoneLabel prev r := by
  rcases saveRanking_nClusters h with ⟨⟨a, ha, b, hb, hab⟩, hlarge, hcur⟩ | ⟨hnot, hcur⟩
  · refine iff_of_true ⟨by omega, iff_of_true hcur hlarge, fun hno => absurd hlarge hno⟩ ?_
    rintro ⟨label, -, -, hall⟩
    exact hab ((hall a ha).trans (hall b hb).symm)
  · constructor
    · rintro hwidens ⟨label, hlt, hat, -⟩
      have := hwidens.stays.mpr ⟨label, hat, hlt⟩
      omega
    · intro hlone
      have hnone : ¬ ∃ label, EarlierAt prev r label ∧ prev.nClusters < label := by
        rintro ⟨label, hat, hlt⟩
        refine hnot ⟨?_, label, hat, hlt⟩
        by_contra hsame
        refine hlone ⟨label, hlt, hat, fun label' hat' => ?_⟩
        by_contra hne
        exact hsame ⟨label', hat', label, hat, hne⟩
      refine ⟨by omega, iff_of_false (by omega) hnone, fun _ => hcur⟩

def WidensAt (rankings : ℕ → LabelledRanking) (n : ℕ) : Prop :=
  ∀ prev cur, savedAfter rankings n = some prev → savedAfter rankings (n + 1) = some cur →
    Widens prev (rankings (n + 1)) cur

def LoneLabelAt (rankings : ℕ → LabelledRanking) (n : ℕ) : Prop :=
  ∃ prev, savedAfter rankings n = some prev ∧ LoneLabel prev (rankings (n + 1))

theorem widensAt_iff (rankings : ℕ → LabelledRanking) (n : ℕ) :
    WidensAt rankings n ↔ ¬ LoneLabelAt rankings n := by
  constructor
  · rintro hwidens ⟨prev, hprev, hlone⟩
    obtain ⟨label, -, ⟨seq, -, labels, i, cnt, hlabels, -⟩, -⟩ := id hlone
    have hcur : ∃ cur, saveRanking (some prev) (rankings (n + 1)) = some cur :=
      ⟨_, by rw [saveRanking, hlabels]; rfl⟩
    obtain ⟨cur, hcur⟩ := hcur
    have hsaved : savedAfter rankings (n + 1) = some cur := by rw [savedAfter, hprev, ← hcur]; rfl
    exact (widens_iff hcur).mp (hwidens prev cur hprev hsaved) hlone
  · intro hlone prev cur hprev hcur
    rw [savedAfter, hprev, Option.bind_some] at hcur
    exact (widens_iff hcur).mpr fun h => hlone ⟨prev, hprev, h⟩

theorem savedAfter_mono {rankings : ℕ → LabelledRanking} {i j : ℕ} (hij : i ≤ j)
    {prev cur : PrevCaptured} (hprev : savedAfter rankings i = some prev)
    (hcur : savedAfter rankings j = some cur) : prev.nClusters ≤ cur.nClusters := by
  induction hij generalizing cur with
  | refl => rw [Option.some.inj (hprev.symm.trans hcur)]
  | step _ ih =>
    obtain ⟨mid, hmid, hstep⟩ := Option.bind_eq_some_iff.mp hcur
    exact (ih hmid).trans (saveRanking_le hstep)

/-- The number of clusters used never falls. The re-captures of a history keep it exactly where an
    earlier selected sequence has a label that is too large, and else add one, if and only if the
    earlier selection is never found at one such label alone. Captures of a cluster leave the files
    of their rankings. -/
theorem recaptures_widen_iff (rankings : ℕ → LabelledRanking) (m : ℕ) :
    (∀ i j prev cur, i ≤ j → savedAfter rankings i = some prev →
      savedAfter rankings j = some cur → prev.nClusters ≤ cur.nClusters) ∧
    ((∀ n < m, WidensAt rankings n) ↔ ∀ n < m, ¬ LoneLabelAt rankings n) ∧
    ∀ calls : ℕ → CaptureCall, (∀ n, (calls n).ranking = rankings n) →
      ∀ n, (capturesOf calls n).map Capture.prevCaptured = savedAfter rankings n := by
  refine ⟨fun i j prev cur hij hprev hcur => savedAfter_mono hij hprev hcur, ?_,
    fun calls hcalls => capturesOf_saves hcalls⟩
  exact forall₂_congr fun n _ => widensAt_iff rankings n

def rowSeq (dn : ℕ) : Sequence := ⟨["csvFile", "row"], dn, by decide⟩

def labelByValue : Labelling := ⟨fun values => values.map fun v => (v * 4).floor, by simp⟩

def growingCluster : ℕ → CaptureCall
  | 0 => ⟨labelByValue, listedCapture, [[rowSeq 2]]⟩
  | _ + 1 => ⟨labelByValue, listedCapture,
      [[rowSeq 2], [rowSeq 0], [rowSeq 0, rowSeq 1], [rowSeq 0, rowSeq 1, rowSeq 3]]⟩

def growingRanking : LabelledRanking where
  ranked := [(rowSeq 0, 3), (rowSeq 1, 2), (rowSeq 2, 1), (rowSeq 3, 1)]
  resultLabels := [3, 2, 1, 1]
  length_eq := rfl

theorem growingCluster_ranking : (growingCluster 1).ranking = growingRanking := by
  have hranked : (growingCluster 1).ranking.ranked = growingRanking.ranked := by decide +kernel
  have hlabels : (growingCluster 1).ranking.resultLabels = growingRanking.resultLabels := by
    decide +kernel
  exact LabelledRanking.ext hranked hlabels

deriving instance DecidableEq for PrevCaptured

/-- The earlier sequence is found at one label only, which is too large, and the number grows. -/
theorem recaptures_miss_lone_label :
    (capturesOf growingCluster 0).map Capture.prevCaptured = some ⟨0, 1, {rowSeq 2}⟩ ∧
    (capturesOf growingCluster 1).map Capture.prevCaptured =
      some ⟨2, 2, {rowSeq 0, rowSeq 1}⟩ ∧
    (growingCluster 1).ranking = growingRanking ∧ growingRanking.HasLabel (rowSeq 2) 2 ∧
    ¬ Widens ⟨0, 1, {rowSeq 2}⟩ growingRanking ⟨2, 2, {rowSeq 0, rowSeq 1}⟩ := by
  have hlabel : growingRanking.HasLabel (rowSeq 2) 2 := ⟨[0, 1, 2, 2], 2, 1, rfl, rfl, rfl⟩
  refine ⟨by decide +kernel, by decide +kernel, growingCluster_ranking, hlabel, fun hwidens => ?_⟩
  have hkeeps := hwidens.stays.mpr ⟨2, ⟨rowSeq 2, Finset.mem_singleton_self _, hlabel⟩, by decide⟩
  exact absurd hkeeps (by decide)

end RSFuzz
