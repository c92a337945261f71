import RSFuzz.SubpathMinimality

set_option autoImplicit false

/-!
# The counts behind the ranking

What `captured_sequences` holds after folding: a kept sequence has the counts of
all later sequences that `compare_subpaths` relates to it, also where one set
holds several of them.
-/
namespace RSFuzz
open OrderedMap OptionFold Counting StableSort
open scoped List

theorem get?_foldl_countSequence (seqs : List Sequence) (captured : Map Sequence ℕ) (s : Sequence) :
    ((seqs.foldl countSequence captured).get? s).getD 0 =
      (captured.get? s).getD 0 + seqs.count s := by
  induction seqs generalizing captured with
  | nil => rfl
  | cons t seqs ih =>
    rw [List.foldl_cons, ih, countSequence, Map.get?_set]
    by_cases hst : s = t
    · subst hst
      rw [if_pos rfl, List.count_cons_self, Option.getD_some]
      omega
    · rw [if_neg hst, List.count_cons_of_ne (Ne.symm hst)]

theorem mem_keys_foldl_countSequence (seqs : List Sequence) (captured : Map Sequence ℕ)
    (s : Sequence) :
    s ∈ (seqs.foldl countSequence captured).keys ↔ s ∈ captured.keys ∨ s ∈ seqs := by
  induction seqs generalizing captured with
  | nil => simp
  | cons t seqs ih =>
    rw [List.foldl_cons, ih, countSequence, Map.mem_keys_set, List.mem_cons]
    tauto

theorem mem_tmpSortedSeqs {refined : List (List Sequence)} {s : Sequence} :
    s ∈ tmpSortedSeqs refined ↔ s ∈ refined.flatten := by
  rw [tmpSortedSeqs, sortedByLength, List.mem_insertionSort, countSequences,
    mem_keys_foldl_countSequence]
  simp

theorem nodup_tmpSortedSeqs (refined : List (List Sequence)) : (tmpSortedSeqs refined).Nodup := by
  rw [tmpSortedSeqs, sortedByLength]
  exact (List.perm_insertionSort _ _).nodup_iff.mpr (countSequences refined).nodupKeys

theorem idxOf_concat {α : Type*} [DecidableEq α] {xs : List α} {u : α} (hu : u ∉ xs) :
    (xs ++ [u]).idxOf u = xs.length ∧
      ∀ a ∈ xs, (xs ++ [u]).idxOf a = xs.idxOf a ∧ xs.idxOf a < xs.length := by
  refine ⟨?_, fun a ha => ⟨List.idxOf_append_of_mem ha, List.idxOf_lt_length_iff.mpr ha⟩⟩
  rw [List.idxOf_append_of_notMem hu]
  simp

theorem idxOf_keys_foldl_countSequence {seqs : List Sequence} {s t : Sequence} (hs : s ∈ seqs)
    (ht : t ∈ seqs) : (seqs.foldl countSequence Map.empty).keys.idxOf s <
      (seqs.foldl countSequence Map.empty).keys.idxOf t ↔ seqs.idxOf s < seqs.idxOf t := by
  induction seqs using List.reverseRecOn with
  | nil => cases hs
  | append_singleton seqs u ih =>
    have hkeys : ∀ a, a ∈ (seqs.foldl countSequence Map.empty).keys ↔ a ∈ seqs := by
      simp [mem_keys_foldl_countSequence]
    rw [List.foldl_append, List.foldl_cons, List.foldl_nil, countSequence]
    by_cases hu : u ∈ seqs
    · obtain ⟨n, hn⟩ := Map.exists_get? ((hkeys u).mpr hu)
      have hmem : ∀ a ∈ seqs ++ [u], a ∈ seqs := fun a ha =>
        (List.mem_append.mp ha).elim id fun h => List.mem_singleton.mp h ▸ hu
      rw [Map.keys_set_of_mem _ hn, List.idxOf_append_of_mem (hmem s hs),
        List.idxOf_append_of_mem (hmem t ht)]
      exact ih (hmem s hs) (hmem t ht)
    · have hnew : u ∉ (seqs.foldl countSequence Map.empty).keys := fun h => hu ((hkeys u).mp h)
      obtain ⟨hlast, hinit⟩ := idxOf_concat hu
      obtain ⟨hlast', hinit'⟩ := idxOf_concat hnew
      have hlisted : ∀ n, ((seqs.foldl countSequence Map.empty).set u n).keys =
          (seqs.foldl countSequence Map.empty).keys ++ [u] := fun n => by
        rw [Map.keys, Map.entries_set_fresh _ _ _ hnew, List.map_append]
        rfl
      rw [hlisted]
      rcases List.mem_append.mp hs with hold | hnew <;> rcases List.mem_append.mp ht with hold' | hnew'
      · rw [(hinit s hold).1, (hinit t hold').1, (hinit' s ((hkeys s).mpr hold)).1,
          (hinit' t ((hkeys t).mpr hold')).1]
        exact ih hold hold'
      · obtain rfl := List.mem_singleton.mp hnew'
        have h := hinit s hold
        have h' := hinit' s ((hkeys s).mpr hold)
        omega
      · obtain rfl := List.mem_singleton.mp hnew
        have h := hinit t hold'
        have h' := hinit' t ((hkeys t).mpr hold')
        omega
      · rw [List.mem_singleton.mp hnew, List.mem_singleton.mp hnew']
        simp

/-- `s` is shorter, or as long and met first. -/
def ComesBefore (refined : List (List Sequence)) (s t : Sequence) : Prop :=
  s.entries.length < t.entries.length ∨ s.entries.length = t.entries.length ∧
    refined.flatten.idxOf s < refined.flatten.idxOf t

instance (refined : List (List Sequence)) (s t : Sequence) : Decidable (ComesBefore refined s t) :=
  inferInstanceAs (Decidable (_ ∨ _))

theorem comesBefore_iff {refined : List (List Sequence)} {i j : ℕ} {s t : Sequence}
    (hi : (tmpSortedSeqs refined)[i]? = some s) (hj : (tmpSortedSeqs refined)[j]? = some t) :
    ComesBefore refined s t ↔ i < j := by
  have hkeys : ∀ {a}, a ∈ tmpSortedSeqs refined → a ∈ (countSequences refined).keys := fun ha =>
    (perm_byKey _).mem_iff.mp ha
  have hs := List.mem_of_getElem? hi
  have ht := List.mem_of_getElem? hj
  by_cases hne : s = t
  · subst hne
    have hij : i = j := (List.getElem?_inj (List.getElem?_eq_some_iff.mp hi).1
      (nodup_tmpSortedSeqs refined)).mp (hi.trans hj.symm)
    simp [ComesBefore, hij]
  · have hkeysNodup := (countSequences refined).nodupKeys
    have hget : ∀ {a}, a ∈ tmpSortedSeqs refined →
        (countSequences refined).keys[(countSequences refined).keys.idxOf a]? = some a := fun ha =>
      List.getElem?_idxOf (hkeys ha)
    have hmet : [s, t] <+ (countSequences refined).keys ↔
        refined.flatten.idxOf s < refined.flatten.idxOf t :=
      (pair_sublist_iff_lt hkeysNodup (hget hs) (hget ht)).trans
        (idxOf_keys_foldl_countSequence (mem_tmpSortedSeqs.mp hs) (mem_tmpSortedSeqs.mp ht))
    rw [← pair_sublist_iff_lt (nodup_tmpSortedSeqs refined) hi hj, ComesBefore, ← hmet]
    exact (pair_sublist_byKey_iff (fun s : Sequence => s.entries.length) hkeysNodup (hkeys hs)
      (hkeys ht) hne).symm

section Folding

variable {sorted : List Sequence}

theorem foldLong_removed (shortIdx : ℕ) (st : FoldState) (longIdx : ℕ) :
    (foldLong sorted shortIdx st longIdx).removed =
      Sieve.strike foldsLonger sorted shortIdx st.removed longIdx := by
  unfold foldLong Sieve.strike
  split_ifs with hr hin
  · exact Finset.insert_eq_of_mem hin
  · rfl
  · rfl
  · rfl

theorem foldShort_removed (st : FoldState) (shortIdx : ℕ) :
    (foldShort sorted st shortIdx).removed =
      Sieve.round foldsLonger (fun _ => false) sorted st.removed shortIdx := by
  have hkeep : (sorted[shortIdx]?).any (fun _ => false) = false := by
    cases sorted[shortIdx]? <;> rfl
  unfold foldShort Sieve.round
  rw [hkeep, if_neg Bool.false_ne_true]
  split_ifs with hin
  · rfl
  · exact (List.foldl_hom FoldState.removed fun st longIdx =>
      (foldLong_removed shortIdx st longIdx).symm).symm

theorem foldl_foldShort_removed (captured : Map Sequence ℕ) (m : ℕ) :
    ((List.range m).foldl (foldShort sorted) ⟨∅, captured⟩).removed =
      (List.range m).foldl (Sieve.round foldsLonger (fun _ => false) sorted) ∅ :=
  (List.foldl_hom FoldState.removed fun st shortIdx => (foldShort_removed st shortIdx).symm).symm

theorem foldSequences_removed (captured : Map Sequence ℕ) :
    (foldSequences sorted captured).removed = Sieve.struck foldsLonger (fun _ => false) sorted := by
  rw [← Sieve.foldl_round_length (fun _ _ => rfl)]
  exact foldl_foldShort_removed captured sorted.length

theorem keys_addCount {captured : Map Sequence ℕ} (hkeys : ∀ s, s ∈ captured.keys ↔ s ∈ sorted)
    (i j : ℕ) : ∀ s, s ∈ (addCount sorted captured i j).keys ↔ s ∈ sorted := by
  intro s
  unfold addCount
  cases hi : sorted[i]? with
  | none => exact hkeys s
  | some t =>
    rw [Option.elim_some, Map.mem_keys_set, hkeys]
    have := List.mem_of_getElem? hi
    constructor
    · rintro (rfl | h)
      · exact this
      · exact h
    · exact Or.inr

theorem keys_foldl_foldLong (i : ℕ) (js : List ℕ) {st : FoldState}
    (hkeys : ∀ s, s ∈ st.captured.keys ↔ s ∈ sorted) :
    ∀ s, s ∈ (js.foldl (foldLong sorted i) st).captured.keys ↔ s ∈ sorted := by
  induction js generalizing st with
  | nil => exact hkeys
  | cons j js ih =>
    refine ih ?_
    unfold foldLong
    split_ifs
    · exact keys_addCount hkeys i j
    · exact hkeys

theorem keys_foldl_foldShort (is : List ℕ) {st : FoldState}
    (hkeys : ∀ s, s ∈ st.captured.keys ↔ s ∈ sorted) :
    ∀ s, s ∈ (is.foldl (foldShort sorted) st).captured.keys ↔ s ∈ sorted := by
  induction is generalizing st with
  | nil => exact hkeys
  | cons i is ih =>
    refine ih ?_
    unfold foldShort
    split_ifs
    · exact hkeys
    · exact keys_foldl_foldLong i _ hkeys

variable (hnodup : sorted.Nodup)

include hnodup

theorem countAt_addCount {i : ℕ} (hi : i < sorted.length) (captured : Map Sequence ℕ) (j k : ℕ) :
    countAt sorted (addCount sorted captured i j) k =
      if k = i then countAt sorted captured i + countAt sorted captured j
      else countAt sorted captured k := by
  rw [addCount, List.getElem?_eq_getElem hi, Option.elim_some]
  rcases Nat.lt_or_ge k sorted.length with hk | hk
  · rw [countAt, List.getElem?_eq_getElem hk, Option.bind_some, Map.get?_set]
    by_cases hki : k = i
    · subst hki
      rw [if_pos rfl, if_pos rfl, Option.getD_some]
    · have hne : sorted[k] ≠ sorted[i] := fun he => hki ((hnodup.getElem_inj_iff).mp he)
      rw [if_neg hne, if_neg hki, countAt, List.getElem?_eq_getElem hk, Option.bind_some]
  · have hnone : ∀ captured', countAt sorted captured' k = 0 := by
      intro captured'
      rw [countAt, List.getElem?_eq_none hk]
      rfl
    rw [if_neg (by omega), hnone, hnone]

theorem countAt_foldl_foldLong {i : ℕ} (hi : i < sorted.length) (js : List ℕ) (hjs : i ∉ js)
    (st : FoldState) (k : ℕ) :
    countAt sorted (js.foldl (foldLong sorted i) st).captured k =
      countAt sorted st.captured k +
        if k = i then ((js.filter (Sieve.related foldsLonger sorted i)).map
          (countAt sorted st.captured)).sum else 0 := by
  induction js generalizing st with
  | nil => simp
  | cons j js ih =>
    rw [List.mem_cons, not_or] at hjs
    rw [List.foldl_cons, ih hjs.2]
    by_cases hr : Sieve.related foldsLonger sorted i j = true
    · have hstep : ∀ k', countAt sorted (foldLong sorted i st j).captured k' =
          if k' = i then countAt sorted st.captured i + countAt sorted st.captured j
          else countAt sorted st.captured k' := by
        intro k'
        rw [foldLong, if_pos hr]
        exact countAt_addCount hnodup hi st.captured j k'
      have hrest : (js.filter (Sieve.related foldsLonger sorted i)).map
          (countAt sorted (foldLong sorted i st j).captured) =
          (js.filter (Sieve.related foldsLonger sorted i)).map (countAt sorted st.captured) := by
        refine List.map_congr_left fun j' hj' => ?_
        have hne : j' ≠ i := fun he => hjs.2 (he ▸ List.mem_of_mem_filter hj')
        rw [hstep, if_neg hne]
      rw [hrest, hstep, List.filter_cons_of_pos hr, List.map_cons, List.sum_cons]
      split_ifs with hk
      · subst hk
        omega
      · rfl
    · rw [foldLong, if_neg hr, List.filter_cons_of_neg hr]

def foldedIndices (sorted : List Sequence) (i : ℕ) : List ℕ :=
  (List.range' (i + 1) (sorted.length - (i + 1))).filter (Sieve.related foldsLonger sorted i)

theorem countAt_foldl_foldShort (captured : Map Sequence ℕ) {m : ℕ} (hm : m ≤ sorted.length)
    (k : ℕ) :
    countAt sorted ((List.range m).foldl (foldShort sorted) ⟨∅, captured⟩).captured k =
      countAt sorted captured k +
        if k < m ∧ k ∉ Sieve.struck foldsLonger (fun _ => false) sorted then
          ((foldedIndices sorted k).map (countAt sorted captured)).sum else 0 := by
  induction m generalizing k with
  | zero => simp
  | succ m ih =>
    rw [List.range_succ, List.foldl_append, List.foldl_cons, List.foldl_nil]
    have hprev := ih (by omega)
    have hin : m ∈ ((List.range m).foldl (foldShort sorted) ⟨∅, captured⟩).removed ↔
        m ∈ Sieve.struck foldsLonger (fun _ => false) sorted := by
      rw [foldl_foldShort_removed]
      exact (Sieve.mem_foldl_round_iff (fun _ _ => rfl) (by omega)).symm
    have hfrom : ∀ j, m ≤ j → countAt sorted
        ((List.range m).foldl (foldShort sorted) ⟨∅, captured⟩).captured j =
          countAt sorted captured j := by
      intro j hj
      rw [hprev, if_neg (by omega), Nat.add_zero]
    rw [foldShort]
    by_cases hout : m ∈ Sieve.struck foldsLonger (fun _ => false) sorted
    · rw [if_pos (hin.mpr hout), hprev]
      refine congrArg _ (if_congr ⟨fun h => ⟨by omega, h.2⟩, fun h => ⟨?_, h.2⟩⟩ rfl rfl)
      exact Nat.lt_of_le_of_ne (Nat.le_of_lt_succ h.1) fun he => h.2 (he ▸ hout)
    · rw [if_neg (fun h => hout (hin.mp h)),
        countAt_foldl_foldLong hnodup hm _ (by simp [List.mem_range'_1])]
      by_cases hkm : k = m
      · subst hkm
        rw [if_pos rfl, if_pos ⟨Nat.lt_succ_self k, hout⟩, hfrom k le_rfl]
        refine congrArg (countAt sorted captured k + List.sum ·) (List.map_congr_left fun j hj => ?_)
        have := (List.mem_range'_1.mp (List.mem_of_mem_filter hj)).1
        exact hfrom j (by omega)
      · rw [if_neg hkm, Nat.add_zero, hprev]
        refine congrArg _ (if_congr ⟨fun h => ⟨by omega, h.2⟩, fun h => ⟨by omega, h.2⟩⟩ rfl rfl)

end Folding

/-- `t` is `s` itself, or it comes later and is taken for a longer version of `s`. -/
def foldedInto (refined : List (List Sequence)) (s t : Sequence) : Bool :=
  t = s ∨ ComesBefore refined s t ∧ foldsLonger s t = true

def keptSequences (refined : List (List Sequence)) : List Sequence :=
  Sieve.kept foldsLonger (fun _ => false) (tmpSortedSeqs refined)

theorem countAt_countSequences (refined : List (List Sequence)) (j : ℕ) :
    countAt (tmpSortedSeqs refined) (countSequences refined) j =
      (((tmpSortedSeqs refined)[j]?).map refined.flatten.count).getD 0 := by
  rw [countAt]
  cases (tmpSortedSeqs refined)[j]? with
  | none => rfl
  | some t =>
    rw [Option.bind_some, countSequences, get?_foldl_countSequence]
    simp

theorem idxOf_tmpSortedSeqs {refined : List (List Sequence)} {j : ℕ} {t : Sequence}
    (hj : (tmpSortedSeqs refined)[j]? = some t) : (tmpSortedSeqs refined).idxOf t = j := by
  obtain ⟨hlt, rfl⟩ := List.getElem?_eq_some_iff.mp hj
  exact (nodup_tmpSortedSeqs refined).idxOf_getElem j hlt

def foldedSequences (refined : List (List Sequence)) (i : ℕ) : List Sequence :=
  (foldedIndices (tmpSortedSeqs refined) i).filterMap ((tmpSortedSeqs refined)[·]?)

section Folded

variable {refined : List (List Sequence)} {i : ℕ} {s : Sequence}
  (hi : (tmpSortedSeqs refined)[i]? = some s)

include hi

theorem mem_foldedSequences (t : Sequence) : t ∈ foldedSequences refined i ↔
    ∃ j, i < j ∧ (tmpSortedSeqs refined)[j]? = some t ∧ foldsLonger s t = true := by
  simp only [foldedSequences, foldedIndices, List.mem_filterMap, List.mem_filter, List.mem_range'_1,
    Sieve.related_iff, hi]
  constructor
  · rintro ⟨j, ⟨⟨hij, -⟩, a, b, ha, hb, hf⟩, hj⟩
    obtain rfl := Option.some.inj ha
    obtain rfl := Option.some.inj (hb.symm.trans hj)
    exact ⟨j, hij, hj, hf⟩
  · rintro ⟨j, hij, hj, hf⟩
    have := (List.getElem?_eq_some_iff.mp hj).1
    exact ⟨j, ⟨⟨hij, by omega⟩, s, t, rfl, hj, hf⟩, hj⟩

theorem nodup_cons_foldedSequences : (s :: foldedSequences refined i).Nodup := by
  rw [List.nodup_cons]
  constructor
  · intro hs
    obtain ⟨j, hij, hj, -⟩ := (mem_foldedSequences hi s).mp hs
    have := (idxOf_tmpSortedSeqs hi).symm.trans (idxOf_tmpSortedSeqs hj)
    omega
  · refine List.Nodup.filterMap ?_ ((List.nodup_range').filter _)
    intro j j' t hj hj'
    exact (idxOf_tmpSortedSeqs hj).symm.trans (idxOf_tmpSortedSeqs hj')

theorem mem_cons_foldedSequences {t : Sequence} (ht : t ∈ refined.flatten) :
    t ∈ s :: foldedSequences refined i ↔ foldedInto refined s t = true := by
  obtain ⟨j, hj⟩ := List.mem_iff_getElem?.mp (mem_tmpSortedSeqs.mpr ht)
  rw [List.mem_cons, mem_foldedSequences hi, foldedInto, decide_eq_true_eq, comesBefore_iff hi hj]
  refine or_congr_right ⟨?_, fun ⟨hij, hf⟩ => ⟨j, hij, hj, hf⟩⟩
  rintro ⟨j', hij, hj', hf⟩
  rw [← idxOf_tmpSortedSeqs hj, idxOf_tmpSortedSeqs hj']
  exact ⟨hij, hf⟩

theorem foldedCount_eq :
    countAt (tmpSortedSeqs refined) (countSequences refined) i +
        ((foldedIndices (tmpSortedSeqs refined) i).map
          (countAt (tmpSortedSeqs refined) (countSequences refined))).sum =
      (refined.map fun seqs => seqs.countP (foldedInto refined s)).sum :=
  calc countAt (tmpSortedSeqs refined) (countSequences refined) i + _
      = ((s :: foldedSequences refined i).map refined.flatten.count).sum := by
        rw [funext (countAt_countSequences refined), sum_map_getElem?, List.map_cons, List.sum_cons]
        simp only [hi, Option.map_some, Option.getD_some]
        rfl
    _ = refined.flatten.countP (· ∈ s :: foldedSequences refined i) :=
        sum_map_count_of_nodup (nodup_cons_foldedSequences hi) _
    _ = refined.flatten.countP (foldedInto refined s) :=
        List.countP_congr fun t ht => by
          rw [decide_eq_true_eq]
          exact mem_cons_foldedSequences hi ht
    _ = (refined.map fun seqs => seqs.countP (foldedInto refined s)).sum := List.countP_flatten

theorem get?_foldSequences (hin : i ∉ Sieve.struck foldsLonger (fun _ => false) (tmpSortedSeqs refined))
    {n : ℕ} (hn : (foldSequences (tmpSortedSeqs refined) (countSequences refined)).captured.get? s =
      some n) : n = (refined.map fun seqs => seqs.countP (foldedInto refined s)).sum := by
  have hall := countAt_foldl_foldShort (nodup_tmpSortedSeqs refined) (countSequences refined) le_rfl i
  rw [if_pos ⟨(List.getElem?_eq_some_iff.mp hi).1, hin⟩, foldedCount_eq hi] at hall
  rw [← hall, countAt, hi, Option.bind_some]
  change _ = ((foldSequences _ _).captured.get? s).getD 0
  rw [hn, Option.getD_some]

end Folded

theorem mem_keys_foldSequences (refined : List (List Sequence)) (s : Sequence) :
    s ∈ (foldSequences (tmpSortedSeqs refined) (countSequences refined)).captured.keys ↔
      s ∈ tmpSortedSeqs refined := by
  refine keys_foldl_foldShort _ (fun t => ?_) s
  rw [mem_tmpSortedSeqs, countSequences, mem_keys_foldl_countSequence]
  simp

theorem mem_rankedSequences (refined : List (List Sequence)) (s : Sequence) (n : ℕ) :
    (s, n) ∈ rankedSequences refined ↔ s ∈ keptSequences refined ∧
      n = (refined.map fun seqs => seqs.countP (foldedInto refined s)).sum := by
  simp only [rankedSequences, List.mem_insertionSort, List.mem_filter, decide_eq_true_eq,
    foldSequences_removed]
  rw [← Map.get?_eq_some_iff, keptSequences, Sieve.mem_kept_iff_struck]
  constructor
  · rintro ⟨hget, hout⟩
    obtain ⟨i, hi⟩ :=
      List.mem_iff_getElem?.mp ((mem_keys_foldSequences refined s).mp (Map.mem_keys_of_get? hget))
    have hin := fun h => hout i h hi
    exact ⟨⟨i, hi, hin⟩, get?_foldSequences hi hin hget⟩
  · rintro ⟨⟨i, hi, hin⟩, rfl⟩
    obtain ⟨m, hm⟩ :=
      Map.exists_get? ((mem_keys_foldSequences refined s).mpr (List.mem_of_getElem? hi))
    refine ⟨by rw [hm, get?_foldSequences hi hin hm], fun idx hidx he => hin ?_⟩
    have hlt := (List.getElem?_eq_some_iff.mp he).1
    obtain rfl := (List.getElem?_inj hlt (nodup_tmpSortedSeqs refined)).mp (he.trans hi.symm)
    exact hidx

/-- The number of sequence sets with a sequence that `compare_subpaths` takes for a longer `s`. -/
def realisingSets (refined : List (List Sequence)) (s : Sequence) : ℕ :=
  refined.countP fun seqs => seqs.any (foldsLonger s)

/-- What is counted for `s` beyond one for each set. -/
def surplus (refined : List (List Sequence)) (s : Sequence) : ℕ :=
  (refined.map fun seqs => seqs.countP (foldedInto refined s) - 1).sum

/-- The sets that hold a longer `s`, but only sequences that come before `s`. -/
def unfoldedSets (refined : List (List Sequence)) (s : Sequence) : ℕ :=
  refined.countP fun seqs => !seqs.any (foldedInto refined s) && seqs.any (foldsLonger s)

theorem foldsLonger_of_foldedInto {refined : List (List Sequence)} {s t : Sequence}
    (h : foldedInto refined s t = true) : foldsLonger s t = true := by
  rcases of_decide_eq_true h with rfl | ⟨-, hf⟩
  · simp [foldsLonger, compareSubpaths]
  · exact hf

theorem sum_folded_add (refined : List (List Sequence)) (s : Sequence) :
    (refined.map fun seqs => seqs.countP (foldedInto refined s)).sum + unfoldedSets refined s =
      surplus refined s + realisingSets refined s := by
  have hnone : ∀ seqs : List Sequence,
      decide (seqs.countP (foldedInto refined s) = 0) = !seqs.any (foldedInto refined s) := by
    intro seqs
    rw [Bool.eq_iff_iff, decide_eq_true_eq, List.countP_eq_zero, Bool.not_eq_true', List.any_eq_false]
  have hlonger : ∀ seqs : List Sequence, seqs.countP (foldedInto refined s) ≠ 0 →
      seqs.any (foldsLonger s) = true := by
    intro seqs hseqs
    obtain ⟨t, ht, hf⟩ := List.countP_pos_iff.mp (Nat.pos_of_ne_zero hseqs)
    exact List.any_eq_true.mpr ⟨t, ht, foldsLonger_of_foldedInto hf⟩
  have hsum := sum_add_countP_zero _ _ hlonger refined
  simp only [hnone] at hsum
  exact hsum

theorem pairwise_rankedSequences (refined : List (List Sequence)) :
    (rankedSequences refined).Pairwise fun a b => b.2 ≤ a.2 :=
  pairwise_insertionSort_of (r := fun a b : Sequence × ℕ => b.2 ≤ a.2) (fun _ _ => Nat.le_total _ _)
    (fun _ _ _ hab hbc => hbc.trans hab) _

/-- The count of every kept sequence is the number of sets that realise it, so that no count exceeds
    the number of sets and the ranking follows these numbers. -/
structure RanksByFrequency (refined : List (List Sequence)) : Prop where
  count : ∀ e ∈ rankedSequences refined, e.2 = realisingSets refined e.1
  bounded : ∀ e ∈ rankedSequences refined, e.2 ≤ refined.length
  ordered : (rankedSequences refined).Pairwise fun a b =>
    realisingSets refined b.1 ≤ realisingSets refined a.1

theorem ranksByFrequency_iff (refined : List (List Sequence)) :
    RanksByFrequency refined ↔
      ∀ s ∈ keptSequences refined, surplus refined s = unfoldedSets refined s := by
  constructor
  · intro hranks s hs
    have he := hranks.count _ ((mem_rankedSequences refined s _).mpr ⟨hs, rfl⟩)
    have := sum_folded_add refined s
    simp only at he
    omega
  · intro hall
    have hcount : ∀ e ∈ rankedSequences refined, e.2 = realisingSets refined e.1 := by
      rintro ⟨s, n⟩ he
      obtain ⟨hs, rfl⟩ := (mem_rankedSequences refined s n).mp he
      have := sum_folded_add refined s
      have := hall s hs
      simp only
      omega
    refine ⟨hcount, fun e he => ?_, ?_⟩
    · rw [hcount e he]
      exact List.countP_le_length
    · refine (pairwise_rankedSequences refined).imp_of_mem fun ha hb hab => ?_
      rwa [← hcount _ ha, ← hcount _ hb]

/-- A set counts for `s` once or not at all, and does if it realises `s`: it holds at most one
    sequence that is `s` or comes later and compares with it, and one if any compares with it. -/
structure CountsOnce (refined : List (List Sequence)) (s : Sequence) (seqs : List Sequence) :
    Prop where
  once : (seqs.countP fun t => t = s ∨ ComesBefore refined s t ∧
    compareSubpaths t.entries s.entries = true) ≤ 1
  counted : ∀ t ∈ seqs, compareSubpaths t.entries s.entries = true → ∃ u ∈ seqs,
    u = s ∨ ComesBefore refined s u ∧ compareSubpaths u.entries s.entries = true

theorem surplus_eq_zero_iff {refined : List (List Sequence)} {s : Sequence} :
    surplus refined s = 0 ↔ ∀ seqs ∈ refined, seqs.countP (foldedInto refined s) ≤ 1 := by
  simp only [surplus, List.sum_eq_zero_iff, List.forall_mem_map, Nat.sub_eq_zero_iff_le]

theorem unfoldedSets_eq_zero_iff {refined : List (List Sequence)} {s : Sequence} :
    unfoldedSets refined s = 0 ↔ ∀ seqs ∈ refined, ∀ t ∈ seqs, foldsLonger s t = true →
      ∃ u ∈ seqs, foldedInto refined s u = true := by
  simp only [unfoldedSets, List.countP_eq_zero, Bool.and_eq_true, Bool.not_eq_true', not_and,
    ← List.any_eq_true (p := foldedInto refined s), List.any_eq_false, Bool.not_eq_true]
  refine forall₂_congr fun seqs _ => ⟨fun h t ht hfold => ?_, fun h hnone t ht => ?_⟩
  · by_contra hno
    have hnone : ∀ u ∈ seqs, foldedInto refined s u = false := by simpa using hno
    rw [h hnone t ht] at hfold
    cases hfold
  · by_contra hfold
    obtain ⟨u, hu, hin⟩ := List.any_eq_true.mp (h t ht (by simpa using hfold))
    rw [hnone u hu] at hin
    cases hin

theorem countsOnce_iff {refined : List (List Sequence)} {s : Sequence} :
    (∀ seqs ∈ refined, CountsOnce refined s seqs) ↔
      surplus refined s = 0 ∧ unfoldedSets refined s = 0 := by
  rw [surplus_eq_zero_iff, unfoldedSets_eq_zero_iff, ← forall₂_and]
  refine forall₂_congr fun seqs _ => ⟨fun h => ⟨h.once, fun t ht hfold => ?_⟩, fun h => ⟨h.1, fun t ht hfold => ?_⟩⟩
  · obtain ⟨u, hu, hin⟩ := h.counted t ht hfold
    exact ⟨u, hu, decide_eq_true hin⟩
  · obtain ⟨u, hu, hin⟩ := h.2 t ht hfold
    exact ⟨u, hu, of_decide_eq_true hin⟩

def ComparesExactly (refined : List (List Sequence)) : Prop :=
  ∀ s ∈ refined.flatten, ∀ t ∈ refined.flatten, foldsLonger s t = true →
    IncludedIn s.entries t.entries

/-- No other sequence of the cluster is included in `s`. -/
def Shortest (refined : List (List Sequence)) (s : Sequence) : Prop :=
  s ∈ refined.flatten ∧ ∀ t ∈ refined.flatten, IncludedIn t.entries s.entries → t = s

theorem lowest_tmpSortedSeqs_iff {refined : List (List Sequence)} {s : Sequence} :
    Sieve.Lowest (fun s t : Sequence => IncludedIn s.entries t.entries) (tmpSortedSeqs refined) s ↔
      Shortest refined s := by
  simp only [Sieve.Lowest, Shortest, mem_tmpSortedSeqs]

theorem shortest_of_mem_kept {refined : List (List Sequence)} {s : Sequence}
    (h : s ∈ keptSequences refined) : Shortest refined s := by
  obtain ⟨i, hi, hin⟩ := Sieve.mem_kept_iff_struck.mp h
  exact lowest_tmpSortedSeqs_iff.mp
    ((foldsLonger_refinedBy _).lowest_of_mem_kept (fun _ _ => rfl) hi hin)

theorem keptSequences_subset {refined : List (List Sequence)} {s : Sequence}
    (h : s ∈ keptSequences refined) : s ∈ refined.flatten := (shortest_of_mem_kept h).1

section Exact

variable {refined : List (List Sequence)} {s : Sequence} (hexact : ComparesExactly refined)

include hexact

theorem mem_kept_iff_of_exact : s ∈ keptSequences refined ↔ Shortest refined s := by
  rw [keptSequences, ← lowest_tmpSortedSeqs_iff]
  refine ((foldsLonger_refinedBy _).mem_kept_iff_lowest (fun _ _ => rfl)
    (nodup_tmpSortedSeqs refined)).mpr ?_ s
  intro i j a b hij ha hb hlowa hlowb
  by_contra hrel
  have hin : IncludedIn a.entries b.entries := hexact a (mem_tmpSortedSeqs.mp hlowa.1) b
    (mem_tmpSortedSeqs.mp hlowb.1) (by simpa using hrel)
  obtain rfl := hlowb.2 a hlowa.1 hin
  exact absurd ((List.getElem?_inj (List.getElem?_eq_some_iff.mp ha).1
    (nodup_tmpSortedSeqs refined)).mp (ha.trans hb.symm)) (Nat.ne_of_lt hij)

variable (hs : s ∈ refined.flatten)

include hs

theorem foldedInto_iff_of_exact {t : Sequence} (ht : t ∈ refined.flatten) :
    foldedInto refined s t = true ↔ IncludedIn s.entries t.entries := by
  constructor
  · exact fun h => hexact s hs t ht (foldsLonger_of_foldedInto h)
  · intro hinc
    refine decide_eq_true (or_iff_not_imp_left.mpr fun hne => ⟨Or.inl ?_, hinc.compareSubpaths⟩)
    by_contra hle
    exact hne (Sequence.entries_injective (hinc.eq_of_length_le (Nat.le_of_not_lt hle))).symm

theorem unfoldedSets_eq_zero_of_exact : unfoldedSets refined s = 0 := by
  refine unfoldedSets_eq_zero_iff.mpr fun seqs hseqs t ht hfold => ⟨t, ht, ?_⟩
  have htin : t ∈ refined.flatten := List.mem_flatten.mpr ⟨seqs, hseqs, ht⟩
  exact (foldedInto_iff_of_exact hexact hs htin).mpr (hexact s hs t htin hfold)

theorem surplus_eq_zero_iff_of_exact : surplus refined s = 0 ↔
    ∀ seqs ∈ refined, (seqs.countP fun t => IncludedIn s.entries t.entries) ≤ 1 := by
  rw [surplus_eq_zero_iff]
  refine forall₂_congr fun seqs hseqs => ?_
  rw [List.countP_congr fun t ht => ?_]
  rw [decide_eq_true_eq]
  exact foldedInto_iff_of_exact hexact hs (List.mem_flatten.mpr ⟨seqs, hseqs, ht⟩)

end Exact

def viaInner : Sequence := ⟨["root", "inner", "value"], 0, by decide⟩
def viaOuter : Sequence := ⟨["root", "outer", "value"], 0, by decide⟩
def shortWay : Sequence := ⟨["root", "value"], 0, by decide⟩

def listedCapture : CaptureOrder := ⟨IterationOrder.listed, IterationOrder.listed⟩

end RSFuzz
