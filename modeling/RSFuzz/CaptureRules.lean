import RSFuzz.FoundationCounting
import RSFuzz.SequenceShape
import RSFuzz.SubpathComparison

set_option autoImplicit false

/-!
# From a cluster to its rules

`simplify_subpaths` and `capture_rule_from_cluster`: the sequences of a cluster
are simplified, counted and ranked, a prefix of the ranking is selected, and
each sequence set gives a rule. Bandwidth estimate and mean shift are given as
one labelling. `none` stands for an exception.
-/
namespace RSFuzz
open OrderedMap OptionFold

def Entry.sym? : Entry → Option Sym
  | .sym A => some A
  | .dn _ => none

def Entry.dn? : Entry → Option ℕ
  | .sym _ => none
  | .dn d => some d

def Sequence.ofEntries? (entries : List Entry) : Option Sequence := do
  let symbols ← entries.dropLast.mapM Entry.sym?
  let dn ← entries.getLast?.bind Entry.dn?
  if h : symbols ≠ [] then some ⟨symbols, dn, h⟩ else none

def refineSequence (seq : Sequence) : Option Sequence :=
  (BlockCollapse.collapse seq.entries).bind Sequence.ofEntries?

def sortedByLength (seqs : List Sequence) : List Sequence :=
  seqs.insertionSort fun a b => a.entries.length ≤ b.entries.length

def foldsLonger (shortSeq longSeq : Sequence) : Bool :=
  compareSubpaths longSeq.entries shortSeq.entries

/-- `order` is the order in which the set of refined sequences is iterated. -/
def simplifySubpaths (order : IterationOrder Sequence) (subpaths : List Sequence) :
    Option (List Sequence) :=
  (subpaths.mapM refineSequence).map fun refined =>
    sortedByLength
      (Sieve.kept foldsLonger (fun _ => false) (sortedByLength (order.list refined.dedup)))

/-- The orders in which the sets of `capture_rule_from_cluster` are iterated. -/
structure CaptureOrder where
  simplified : IterationOrder Sequence
  refined : IterationOrder (List Sequence)

def refinedSeqsList (order : CaptureOrder) (seqsList : List (List Sequence)) :
    Option (List (List Sequence)) :=
  (seqsList.mapM (simplifySubpaths order.simplified)).map fun tuples =>
    order.refined.list tuples.dedup

def countSequence (captured : Map Sequence ℕ) (seq : Sequence) : Map Sequence ℕ :=
  captured.set seq ((captured.get? seq).getD 0 + 1)

def countSequences (refined : List (List Sequence)) : Map Sequence ℕ :=
  refined.flatten.foldl countSequence Map.empty

def tmpSortedSeqs (refined : List (List Sequence)) : List Sequence :=
  sortedByLength (countSequences refined).keys

/-- `captured_sequences[tmp_sorted_seqs[idx]]`; it is asked for indices of the list only. -/
def countAt (sorted : List Sequence) (captured : Map Sequence ℕ) (idx : ℕ) : ℕ :=
  ((sorted[idx]?).bind captured.get?).getD 0

def addCount (sorted : List Sequence) (captured : Map Sequence ℕ) (shortIdx longIdx : ℕ) :
    Map Sequence ℕ :=
  (sorted[shortIdx]?).elim captured fun seq =>
    captured.set seq (countAt sorted captured shortIdx + countAt sorted captured longIdx)

structure FoldState where
  removed : Finset ℕ
  captured : Map Sequence ℕ

def foldLong (sorted : List Sequence) (shortIdx : ℕ) (st : FoldState) (longIdx : ℕ) : FoldState :=
  if Sieve.related foldsLonger sorted shortIdx longIdx then
    ⟨insert longIdx st.removed, addCount sorted st.captured shortIdx longIdx⟩
  else st

def foldShort (sorted : List Sequence) (st : FoldState) (shortIdx : ℕ) : FoldState :=
  if shortIdx ∈ st.removed then st
  else (List.range' (shortIdx + 1) (sorted.length - (shortIdx + 1))).foldl
    (foldLong sorted shortIdx) st

def foldSequences (sorted : List Sequence) (captured : Map Sequence ℕ) : FoldState :=
  (List.range sorted.length).foldl (foldShort sorted) ⟨∅, captured⟩

/-- `captured_sequences` after the deletions, sorted by count; equal counts keep their order. -/
def rankedSequences (refined : List (List Sequence)) : List (Sequence × ℕ) :=
  let sorted := tmpSortedSeqs refined
  let folded := foldSequences sorted (countSequences refined)
  (folded.captured.entries.filter fun e => ∀ idx ∈ folded.removed, sorted[idx]? ≠ some e.1).insertionSort
    fun a b => b.2 ≤ a.2

/-- `estimate_bandwidth` and `MeanShift.fit`: one label for each value. -/
structure Labelling where
  fit : List ℚ → List ℤ
  length_fit : ∀ values, (fit values).length = values.length

def rankingValues (totalCnt : ℕ) (ranked : List (Sequence × ℕ)) : List ℚ :=
  ranked.map fun e => min ((e.2 : ℚ) / (totalCnt : ℚ)) 1

def convertLabelsFrom (prevRl : ℤ) (convertedLabel : ℕ) : List ℤ → List ℕ
  | [] => []
  | rl :: rest =>
    let converted := if prevRl ≠ rl then convertedLabel + 1 else convertedLabel
    converted :: convertLabelsFrom rl converted rest

/-- Labels count the changes along the ranking; there is none for the first of an empty one. -/
def convertLabels : List ℤ → Option (List ℕ)
  | [] => none
  | rl :: rest => some (convertLabelsFrom rl 0 (rl :: rest))

structure PrevCaptured where
  maxLabel : ℕ
  nClusters : ℕ
  sequences : Finset Sequence

def clusterLabels (prev : PrevCaptured) (ranked : List (Sequence × ℕ)) (labels : List ℕ) : List ℕ :=
  (((ranked.zip labels).filter fun p => p.1.1 ∈ prev.sequences).map Prod.snd).dedup.insertionSort
    (· ≤ ·)

/-- The loop over all labels but the last, which tests the largest every time. -/
def prevDataWrong (prev : PrevCaptured) (sortedLabels : List ℕ) : Bool :=
  sortedLabels.dropLast.any fun _ => prev.nClusters < sortedLabels.foldl max 0

def nUsedClusters (prev : Option PrevCaptured) (ranked : List (Sequence × ℕ)) (labels : List ℕ) :
    ℕ :=
  match prev with
  | none => 1
  | some prev =>
    if prevDataWrong prev (clusterLabels prev ranked labels) then prev.nClusters
    else prev.nClusters + 1

/-- The `while` loop; it stops at the end of the ranking. -/
def selectSequences (ranked : List (Sequence × ℕ)) (labels : List ℕ) (nUsed : ℕ) :
    List Sequence :=
  ((ranked.zip labels).takeWhile fun p => p.2 < nUsed).map fun p => p.1.1

def remainingSeqs (selected : Finset Sequence) (seqs : List Sequence) : RuleSet :=
  selected.filter fun seq => ∃ tmpseq ∈ seqs, compareSubpaths seq.entries tmpseq.entries = true

def tmpPl (selected : Finset Sequence) (refined : List (List Sequence)) : List RuleSet :=
  (refined.map (remainingSeqs selected)).filter (· ≠ ∅)

/-- What a capture leaves: the two files, and the rules. The number of clusters used and of the
    sequences selected go to `parameter_dict`. -/
structure Capture where
  simplifiedCluster : List (List Sequence)
  prevCaptured : PrevCaptured
  rules : List RuleSet

def Capture.parameter (c : Capture) : ℕ × ℕ :=
  (c.prevCaptured.nClusters, c.prevCaptured.sequences.card)

def captureRuleFromCluster (labelling : Labelling) (order : CaptureOrder)
    (prev : Option PrevCaptured) (seqsList : List (List Sequence)) : Option Capture := do
  let refined ← refinedSeqsList order seqsList
  let ranked := rankedSequences refined
  let labels ← convertLabels (labelling.fit (rankingValues refined.length ranked))
  let nUsed := nUsedClusters prev ranked labels
  let selected := (selectSequences ranked labels nUsed).toFinset
  return ⟨refined, ⟨labels.foldl max 0, nUsed, selected⟩, removeIncludedSeqs (tmpPl selected refined)⟩

theorem captureRuleFromCluster_eq {labelling : Labelling} {order : CaptureOrder}
    {prev : Option PrevCaptured} {seqsList : List (List Sequence)} {c : Capture}
    (h : captureRuleFromCluster labelling order prev seqsList = some c) :
    ∃ refined labels, refinedSeqsList order seqsList = some refined ∧
      convertLabels (labelling.fit (rankingValues refined.length (rankedSequences refined))) =
        some labels ∧
      c.simplifiedCluster = refined ∧
      c.prevCaptured = ⟨labels.foldl max 0, nUsedClusters prev (rankedSequences refined) labels,
        (selectSequences (rankedSequences refined) labels
          (nUsedClusters prev (rankedSequences refined) labels)).toFinset⟩ ∧
      c.rules = removeIncludedSeqs (tmpPl c.prevCaptured.sequences refined) := by
  simp only [captureRuleFromCluster, Option.bind_eq_bind, Option.pure_def] at h
  obtain ⟨refined, hrefined, h⟩ := Option.bind_eq_some_iff.mp h
  obtain ⟨labels, hlabels, h⟩ := Option.bind_eq_some_iff.mp h
  obtain rfl := Option.some.inj h
  exact ⟨refined, labels, hrefined, hlabels, rfl, rfl, rfl⟩

theorem mapM_sym? (symbols : List Sym) : (symbols.map Entry.sym).mapM Entry.sym? = some symbols := by
  induction symbols with
  | nil => rfl
  | cons A symbols ih =>
    rw [List.map_cons, List.mapM_cons, ih]
    rfl

theorem Sequence.ofEntries?_entries (s : Sequence) : Sequence.ofEntries? s.entries = some s := by
  have hdrop : s.entries.dropLast = s.symbols.map Entry.sym := by
    rw [Sequence.entries, List.dropLast_concat]
  have hlast : s.entries.getLast? = some (Entry.dn s.dn) := by
    rw [Sequence.entries, List.getLast?_concat]
  rw [Sequence.ofEntries?, hdrop, hlast, mapM_sym?]
  simp only [Option.bind_eq_bind, Option.bind_some, Entry.dn?, dif_pos s.nonempty]

theorem refineSequence_eq_some_iff (s t : Sequence) :
    refineSequence s = some t ↔ BlockCollapse.collapse s.entries = some t.entries := by
  obtain ⟨u, hu, -⟩ := exists_collapsed s
  rw [refineSequence, hu, Option.bind_some, Sequence.ofEntries?_entries, Option.some.injEq,
    Option.some.injEq]
  exact ⟨congrArg Sequence.entries, Sequence.entries_injective⟩

theorem exists_refineSequence (s : Sequence) : ∃ t, refineSequence s = some t := by
  obtain ⟨t, ht, -⟩ := exists_collapsed s
  exact ⟨t, (refineSequence_eq_some_iff s t).mpr ht⟩

theorem exists_refinedSeqsList (order : CaptureOrder) (seqsList : List (List Sequence)) :
    ∃ refined, refinedSeqsList order seqsList = some refined := by
  obtain ⟨tuples, htuples, -⟩ := exists_mapM (f := simplifySubpaths order.simplified)
    (P := fun _ => True) seqsList fun subpaths _ => by
      obtain ⟨refined, hrefined, -⟩ := exists_mapM (f := refineSequence) (P := fun _ => True) subpaths
        fun s _ => by
          obtain ⟨t, ht⟩ := exists_refineSequence s
          exact ⟨t, ht, trivial⟩
      exact ⟨_, by rw [simplifySubpaths, hrefined]; rfl, trivial⟩
  exact ⟨_, by rw [refinedSeqsList, htuples]; rfl⟩

end RSFuzz
