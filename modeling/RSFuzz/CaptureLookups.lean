import RSFuzz.RuleBuilding

set_option autoImplicit false

/-!
# The lookups of a capture

`capture_rule_from_cluster` once more, with every lookup in a list or a
dictionary written as one that may fail. None does, and the result is the one of
`captureRuleFromCluster`.
-/
namespace RSFuzz
open OrderedMap OptionFold

def addCountChecked (sorted : List Sequence) (captured : Map Sequence ℕ) (shortIdx longIdx : ℕ) :
    Option (Map Sequence ℕ) := do
  let shortSeq ← sorted[shortIdx]?
  let longSeq ← sorted[longIdx]?
  let shortCnt ← captured.get? shortSeq
  let longCnt ← captured.get? longSeq
  return captured.set shortSeq (shortCnt + longCnt)

def foldLongChecked (sorted : List Sequence) (shortIdx : ℕ) (st : FoldState) (longIdx : ℕ) :
    Option FoldState := do
  let longSeq ← sorted[longIdx]?
  let shortSeq ← sorted[shortIdx]?
  if foldsLonger shortSeq longSeq then
    let captured ← addCountChecked sorted st.captured shortIdx longIdx
    return ⟨insert longIdx st.removed, captured⟩
  else return st

def foldShortChecked (sorted : List Sequence) (st : FoldState) (shortIdx : ℕ) : Option FoldState :=
  if shortIdx ∈ st.removed then some st
  else (List.range' (shortIdx + 1) (sorted.length - (shortIdx + 1))).foldlM
    (foldLongChecked sorted shortIdx) st

def foldSequencesChecked (sorted : List Sequence) (captured : Map Sequence ℕ) : Option FoldState :=
  (List.range sorted.length).foldlM (foldShortChecked sorted) ⟨∅, captured⟩

/-- `del captured_sequences[tmp_sorted_seqs[remove_idx]]` -/
def deleteChecked (sorted : List Sequence) (entries : List (Sequence × ℕ)) (removeIdx : ℕ) :
    Option (List (Sequence × ℕ)) := do
  let seq ← sorted[removeIdx]?
  if seq ∈ entries.map Prod.fst then return entries.filter fun e => e.1 ≠ seq else none

/-- `removal` is the order in which `removed_seqs` is iterated. -/
def rankedSequencesChecked (removal : IterationOrder ℕ) (refined : List (List Sequence)) :
    Option (List (Sequence × ℕ)) := do
  let sorted := tmpSortedSeqs refined
  let folded ← foldSequencesChecked sorted (countSequences refined)
  let removed := removal.list ((List.range sorted.length).filter (· ∈ folded.removed))
  let entries ← removed.foldlM (deleteChecked sorted) folded.captured.entries
  return entries.insertionSort fun a b => b.2 ≤ a.2

def clusterLabelsChecked (prev : PrevCaptured) (ranked : List (Sequence × ℕ)) (labels : List ℕ) :
    Option (List ℕ) :=
  ((ranked.zipIdx.filter fun e => e.1.1 ∈ prev.sequences).mapM fun e => labels[e.2]?).map
    fun found => found.dedup.insertionSort (· ≤ ·)

def nUsedClustersChecked (prev : Option PrevCaptured) (ranked : List (Sequence × ℕ))
    (labels : List ℕ) : Option ℕ :=
  match prev with
  | none => some 1
  | some prev => (clusterLabelsChecked prev ranked labels).map fun found =>
      if prevDataWrong prev found then prev.nClusters else prev.nClusters + 1

/-- The `while` loop from `tmp_seqidx` on; the fuel bounds its rounds. -/
def selectChecked (ranked : List (Sequence × ℕ)) (labels : List ℕ) (nUsed : ℕ) :
    ℕ → ℕ → Option (List Sequence)
  | 0, _ => none
  | fuel + 1, tmpSeqidx => do
    let label ← labels[tmpSeqidx]?
    if label < nUsed then
      let entry ← ranked[tmpSeqidx]?
      if tmpSeqidx + 1 = ranked.length then return [entry.1]
      else
        let rest ← selectChecked ranked labels nUsed fuel (tmpSeqidx + 1)
        return entry.1 :: rest
    else return []

def rankingValuesChecked (totalCnt : ℕ) (ranked : List (Sequence × ℕ)) : Option (List ℚ) :=
  if totalCnt = 0 ∧ ranked ≠ [] then none else some (rankingValues totalCnt ranked)

def captureRuleFromClusterChecked (labelling : Labelling) (order : CaptureOrder)
    (removal : IterationOrder ℕ) (prev : Option PrevCaptured) (seqsList : List (List Sequence)) :
    Option Capture := do
  let refined ← refinedSeqsList order seqsList
  let ranked ← rankedSequencesChecked removal refined
  let values ← rankingValuesChecked refined.length ranked
  let labels ← convertLabels (labelling.fit values)
  let nUsed ← nUsedClustersChecked prev ranked labels
  let chosen ← selectChecked ranked labels nUsed ranked.length 0
  let maxLabel ← labels.max?
  return ⟨refined, ⟨maxLabel, nUsed, chosen.toFinset⟩,
    removeIncludedSeqs (tmpPl chosen.toFinset refined)⟩

section Folding

variable {sorted : List Sequence}

theorem foldLongChecked_eq {st : FoldState} (hkeys : ∀ s, s ∈ st.captured.keys ↔ s ∈ sorted)
    {i j : ℕ} (hi : i < sorted.length) (hj : j < sorted.length) :
    foldLongChecked sorted i st j = some (foldLong sorted i st j) := by
  have hshort := List.getElem?_eq_getElem hi
  have hlong := List.getElem?_eq_getElem hj
  obtain ⟨n, hn⟩ := Map.exists_get? ((hkeys _).mpr (List.getElem_mem hi))
  obtain ⟨m, hm⟩ := Map.exists_get? ((hkeys _).mpr (List.getElem_mem hj))
  have hadd : addCountChecked sorted st.captured i j = some (addCount sorted st.captured i j) := by
    simp only [addCountChecked, addCount, countAt, hshort, hlong, hn, hm, Option.bind_eq_bind,
      Option.bind_some, Option.elim_some, Option.getD_some, Option.pure_def]
  have hrel : Sieve.related foldsLonger sorted i j = foldsLonger sorted[i] sorted[j] := by
    simp only [Sieve.related, hshort, hlong, Option.any_some]
  rw [foldLongChecked, foldLong, hshort, hlong, hadd, hrel]
  by_cases hfold : foldsLonger sorted[i] sorted[j] = true
  · simp only [Option.bind_eq_bind, Option.bind_some, hfold, ↓reduceIte, Option.pure_def]
  · simp only [Option.bind_eq_bind, Option.bind_some, hfold, Bool.false_eq_true, ↓reduceIte,
      Option.pure_def]

theorem foldShortChecked_eq {st : FoldState} (hkeys : ∀ s, s ∈ st.captured.keys ↔ s ∈ sorted)
    {i : ℕ} (hi : i < sorted.length) :
    foldShortChecked sorted st i = some (foldShort sorted st i) := by
  unfold foldShortChecked foldShort
  split_ifs with hout
  · rfl
  · refine (foldlM_eq_foldl (fun st : FoldState => ∀ s, s ∈ st.captured.keys ↔ s ∈ sorted) _
      (fun _ hst j hj => ?_) hkeys).1
    have hj := List.mem_range'_1.mp hj
    exact ⟨foldLongChecked_eq hst hi (by omega), keys_foldl_foldLong i [j] hst⟩

theorem foldSequencesChecked_eq {captured : Map Sequence ℕ}
    (hkeys : ∀ s, s ∈ captured.keys ↔ s ∈ sorted) :
    foldSequencesChecked sorted captured = some (foldSequences sorted captured) :=
  (foldlM_eq_foldl (fun st : FoldState => ∀ s, s ∈ st.captured.keys ↔ s ∈ sorted) _
    (fun _ hst i hi => ⟨foldShortChecked_eq hst (List.mem_range.mp hi),
      keys_foldl_foldShort [i] hst⟩) hkeys).1

theorem foldlM_deleteChecked (hnodup : sorted.Nodup) {removed : List ℕ} (hremoved : removed.Nodup)
    {entries : List (Sequence × ℕ)}
    (hkeys : ∀ idx ∈ removed, ∃ s, sorted[idx]? = some s ∧ s ∈ entries.map Prod.fst) :
    removed.foldlM (deleteChecked sorted) entries =
      some (entries.filter fun e => ∀ idx ∈ removed, sorted[idx]? ≠ some e.1) := by
  induction removed generalizing entries with
  | nil => simp
  | cons idx removed ih =>
    obtain ⟨hnotin, hremoved⟩ := List.nodup_cons.mp hremoved
    obtain ⟨s, hs, hmem⟩ := hkeys idx (by simp)
    have hdelete : deleteChecked sorted entries idx = some (entries.filter fun e => e.1 ≠ s) := by
      rw [deleteChecked, hs]
      simp only [Option.bind_eq_bind, Option.bind_some, hmem, ↓reduceIte, Option.pure_def]
    have hrest : ∀ idx' ∈ removed, ∃ t, sorted[idx']? = some t ∧
        t ∈ (entries.filter fun e => e.1 ≠ s).map Prod.fst := by
      intro idx' hidx'
      obtain ⟨t, ht, htmem⟩ := hkeys idx' (List.mem_cons_of_mem idx hidx')
      obtain ⟨e, he, rfl⟩ := List.mem_map.mp htmem
      refine ⟨e.1, ht, List.mem_map_of_mem (List.mem_filter.mpr ⟨he, ?_⟩)⟩
      rw [decide_eq_true_eq]
      rintro rfl
      have hlt := (List.getElem?_eq_some_iff.mp hs).1
      exact hnotin ((List.getElem?_inj hlt hnodup).mp (hs.trans ht.symm) ▸ hidx')
    rw [List.foldlM_cons, hdelete]
    refine (ih hremoved hrest).trans (congrArg some ?_)
    rw [List.filter_filter]
    refine List.filter_congr fun e _ => ?_
    simp only [List.forall_mem_cons, hs, Bool.decide_and, Bool.and_comm]
    congr 1
    simp only [ne_eq, Option.some.injEq, eq_comm]

end Folding

theorem rankedSequencesChecked_eq (removal : IterationOrder ℕ) (refined : List (List Sequence)) :
    rankedSequencesChecked removal refined = some (rankedSequences refined) := by
  have hkeys : ∀ s, s ∈ (countSequences refined).keys ↔ s ∈ tmpSortedSeqs refined := by
    intro s
    rw [mem_tmpSortedSeqs, countSequences, mem_keys_foldl_countSequence]
    simp
  have hnodup := nodup_tmpSortedSeqs refined
  let folded := foldSequences (tmpSortedSeqs refined) (countSequences refined)
  let removed := removal.list ((List.range (tmpSortedSeqs refined).length).filter (· ∈ folded.removed))
  have hmem : ∀ idx, idx ∈ removed ↔ idx < (tmpSortedSeqs refined).length ∧ idx ∈ folded.removed := by
    intro idx
    simp only [removed, removal.mem_list, List.mem_filter, List.mem_range, decide_eq_true_eq]
  have hremoved : removed.Nodup :=
    (removal.perm _).nodup_iff.mpr (List.nodup_range.filter _)
  have hpresent : ∀ idx ∈ removed, ∃ s, (tmpSortedSeqs refined)[idx]? = some s ∧
      s ∈ folded.captured.entries.map Prod.fst := by
    intro idx hidx
    have hget := List.getElem?_eq_getElem ((hmem idx).mp hidx).1
    exact ⟨_, hget, (mem_keys_foldSequences refined _).mpr (List.mem_of_getElem? hget)⟩
  have hdelete := foldlM_deleteChecked hnodup hremoved hpresent
  have hfilter : (folded.captured.entries.filter fun e =>
      ∀ idx ∈ removed, (tmpSortedSeqs refined)[idx]? ≠ some e.1) =
      folded.captured.entries.filter fun e =>
        ∀ idx ∈ folded.removed, (tmpSortedSeqs refined)[idx]? ≠ some e.1 := by
    refine List.filter_congr fun e _ => decide_eq_decide.mpr ⟨fun h idx hidx hget => ?_,
      fun h idx hidx => h idx ((hmem idx).mp hidx).2⟩
    exact h idx ((hmem idx).mpr ⟨(List.getElem?_eq_some_iff.mp hget).1, hidx⟩) hget
  rw [hfilter] at hdelete
  simp only [rankedSequencesChecked, foldSequencesChecked_eq hkeys, Option.bind_eq_bind,
    Option.bind_some]
  exact Option.bind_eq_some_iff.mpr ⟨_, hdelete, rfl⟩

theorem length_convertLabelsFrom (prevRl : ℤ) (convertedLabel : ℕ) (rls : List ℤ) :
    (convertLabelsFrom prevRl convertedLabel rls).length = rls.length := by
  induction rls generalizing prevRl convertedLabel with
  | nil => rfl
  | cons rl rls ih =>
    rw [convertLabelsFrom, List.length_cons, List.length_cons, ih]

theorem length_convertLabels {rls : List ℤ} {labels : List ℕ} (h : convertLabels rls = some labels) :
    labels.length = rls.length ∧ 0 < labels.length := by
  cases rls with
  | nil => cases h
  | cons rl rls =>
    obtain rfl := Option.some.inj h
    rw [length_convertLabelsFrom]
    exact ⟨rfl, Nat.succ_pos _⟩

section Labels

variable {ranked : List (Sequence × ℕ)} {labels : List ℕ}

theorem mapM_labels (p : Sequence → Bool) (k : ℕ) (hlen : labels.length = k + ranked.length) :
    ((ranked.zipIdx k).filter fun e => p e.1.1).mapM (fun e => labels[e.2]?) =
      some (((ranked.zip (labels.drop k)).filter fun e => p e.1.1).map Prod.snd) := by
  induction ranked generalizing k with
  | nil => rfl
  | cons entry ranked ih =>
    have hk : k < labels.length := by
      rw [List.length_cons] at hlen
      omega
    have hrest := ih (k + 1) (by rw [List.length_cons] at hlen; omega)
    rw [List.zipIdx_cons, List.drop_eq_getElem_cons hk, List.zip_cons_cons]
    by_cases hp : p entry.1 = true
    · simp only [List.filter_cons, hp, ↓reduceIte, List.mapM_cons, hrest,
        List.getElem?_eq_getElem hk]
      rfl
    · simp only [List.filter_cons, hp, ↓reduceIte, hrest, Bool.false_eq_true]

theorem clusterLabelsChecked_eq (prev : PrevCaptured) (hlen : labels.length = ranked.length) :
    clusterLabelsChecked prev ranked labels = some (clusterLabels prev ranked labels) := by
  have hlen' : labels.length = 0 + ranked.length := by omega
  have h := mapM_labels (fun s => decide (s ∈ prev.sequences)) 0 hlen'
  rw [List.drop_zero] at h
  rw [clusterLabelsChecked, h]
  rfl

theorem nUsedClustersChecked_eq (prev : Option PrevCaptured) (hlen : labels.length = ranked.length) :
    nUsedClustersChecked prev ranked labels = some (nUsedClusters prev ranked labels) := by
  cases prev with
  | none => rfl
  | some prev =>
    rw [nUsedClustersChecked, clusterLabelsChecked_eq prev hlen]
    rfl

/-- The loop stops in front of the end of the ranking, so it looks up what is there. Induction on
    the rounds left. -/
theorem selectChecked_eq (nUsed fuel k : ℕ) (hlen : labels.length = ranked.length)
    (hk : k < ranked.length) (hfuel : ranked.length ≤ k + fuel) :
    selectChecked ranked labels nUsed fuel k =
      some (selectSequences (ranked.drop k) (labels.drop k) nUsed) := by
  induction fuel generalizing k with
  | zero => omega
  | succ fuel ih =>
    have hkl : k < labels.length := by omega
    rw [selectChecked, List.getElem?_eq_getElem hkl, List.getElem?_eq_getElem hk,
      List.drop_eq_getElem_cons hk, List.drop_eq_getElem_cons hkl, selectSequences,
      List.zip_cons_cons]
    simp only [Option.bind_eq_bind, Option.bind_some, Option.pure_def]
    by_cases hlt : labels[k] < nUsed
    · rw [if_pos hlt, List.takeWhile_cons_of_pos (by exact decide_eq_true hlt), List.map_cons]
      by_cases hend : k + 1 = ranked.length
      · rw [if_pos hend, List.drop_eq_nil_of_le (Nat.le_of_eq hend.symm), List.zip_nil_left]
        rfl
      · rw [if_neg hend, ih (k + 1) (by omega) (by omega)]
        rfl
    · rw [if_neg hlt, List.takeWhile_cons_of_neg (by simpa using hlt)]
      rfl

theorem max?_eq_foldl {labels : List ℕ} (h : labels ≠ []) : labels.max? = some (labels.foldl max 0) := by
  cases labels with
  | nil => exact absurd rfl h
  | cons label labels => rw [List.max?_cons', List.foldl_cons, Nat.zero_max]

end Labels

theorem rankingValuesChecked_eq (refined : List (List Sequence)) :
    rankingValuesChecked refined.length (rankedSequences refined) =
      some (rankingValues refined.length (rankedSequences refined)) := by
  rw [rankingValuesChecked, if_neg]
  rintro ⟨hnone, hranked⟩
  obtain ⟨⟨s, n⟩, hs⟩ := List.exists_mem_of_ne_nil _ hranked
  have hin := keptSequences_subset ((mem_rankedSequences refined s n).mp hs).1
  rw [List.length_eq_zero_iff.mp hnone] at hin
  cases hin

theorem length_rankingLabels (labelling : Labelling) (totalCnt : ℕ) {ranked : List (Sequence × ℕ)}
    {labels : List ℕ} (h : convertLabels (labelling.fit (rankingValues totalCnt ranked)) = some labels) :
    labels.length = ranked.length ∧ 0 < labels.length := by
  obtain ⟨hlen, hpos⟩ := length_convertLabels h
  exact ⟨by rw [hlen, labelling.length_fit, rankingValues, List.length_map], hpos⟩

/-- No lookup fails that the empty ranking does not make fail, whatever the labels are. -/
theorem captureRuleFromClusterChecked_eq (labelling : Labelling) (order : CaptureOrder)
    (removal : IterationOrder ℕ) (prev : Option PrevCaptured) (seqsList : List (List Sequence)) :
    captureRuleFromClusterChecked labelling order removal prev seqsList =
      captureRuleFromCluster labelling order prev seqsList := by
  obtain ⟨refined, hrefined⟩ := exists_refinedSeqsList order seqsList
  simp only [captureRuleFromClusterChecked, captureRuleFromCluster, hrefined,
    rankedSequencesChecked_eq, rankingValuesChecked_eq, Option.bind_eq_bind, Option.bind_some]
  cases hlabels : convertLabels (labelling.fit (rankingValues refined.length (rankedSequences refined))) with
  | none => rfl
  | some labels =>
    obtain ⟨hlen, hpos⟩ := length_rankingLabels labelling refined.length hlabels
    simp only [Option.bind_some, nUsedClustersChecked_eq prev hlen,
      selectChecked_eq _ _ 0 hlen (hlen ▸ hpos) (Nat.le_add_left _ 0), List.drop_zero,
      max?_eq_foldl (List.length_pos_iff.mp hpos)]

end RSFuzz
