import RSFuzz.CaptureLookups
import RSFuzz.ExtractionTotality
import RSFuzz.SubpathMinimality

set_option autoImplicit false

/-!
# A capture gives usable rules

Every sequence set extracted from a complete tree holds a sequence, and this
survives simplifying, folding, the cut along the labels and the inclusion
filter, for a first capture and for a later one.
-/
namespace RSFuzz
open OrderedMap OptionFold StableSort

theorem simplifySubpaths_ne_nil {order : IterationOrder Sequence} {subpaths kept : List Sequence}
    (hne : subpaths ≠ []) (h : simplifySubpaths order subpaths = some kept) : kept ≠ [] := by
  obtain ⟨s, hs⟩ := List.exists_mem_of_ne_nil _ hne
  obtain ⟨t, ht⟩ := exists_refineSequence s
  have hsorted : sortedCollapses order subpaths ≠ [] :=
    List.ne_nil_of_mem (mem_sortedCollapses.mpr (mem_collapses.mpr ⟨s, hs, ht⟩))
  have hkept : Sieve.kept foldsLonger (fun _ => false) (sortedCollapses order subpaths) ≠ [] :=
    Sieve.kept_ne_nil (fun _ _ => rfl) hsorted
  obtain ⟨u, hu⟩ := List.exists_mem_of_ne_nil _ hkept
  rw [simplifySubpaths_eq] at h
  obtain rfl := Option.some.inj h
  exact List.ne_nil_of_mem ((List.mem_insertionSort _).mpr hu)

theorem flatten_refinedSeqsList_ne_nil {order : CaptureOrder}
    {seqsList refined : List (List Sequence)} (hne : seqsList ≠ [])
    (hsets : ∀ seqs ∈ seqsList, seqs ≠ []) (h : refinedSeqsList order seqsList = some refined) :
    refined.flatten ≠ [] := by
  obtain ⟨tuples, htuples, rfl⟩ := Option.map_eq_some_iff.mp h
  obtain ⟨seqs, hseqs⟩ := List.exists_mem_of_ne_nil _ hne
  have hkept := simplifySubpaths_eq order.simplified seqs
  obtain ⟨s, hs⟩ := List.exists_mem_of_ne_nil _ (simplifySubpaths_ne_nil (hsets seqs hseqs) hkept)
  have htuple := (mem_mapM_iff htuples _).mpr ⟨seqs, hseqs, hkept⟩
  refine List.ne_nil_of_mem (List.mem_flatten.mpr ⟨_, ?_, hs⟩)
  rwa [order.refined.mem_list, List.mem_dedup]

theorem rankedSequences_ne_nil {refined : List (List Sequence)} (hne : refined.flatten ≠ []) :
    rankedSequences refined ≠ [] := by
  obtain ⟨s, hs⟩ := List.exists_mem_of_ne_nil _ hne
  have hkept : keptSequences refined ≠ [] :=
    Sieve.kept_ne_nil (fun _ _ => rfl) (List.ne_nil_of_mem (mem_tmpSortedSeqs.mpr hs))
  obtain ⟨t, ht⟩ := List.exists_mem_of_ne_nil _ hkept
  exact List.ne_nil_of_mem ((mem_rankedSequences refined t _).mpr ⟨ht, rfl⟩)

theorem le_convertLabelsFrom (prevRl : ℤ) (convertedLabel : ℕ) (rls : List ℤ) :
    ∀ label ∈ convertLabelsFrom prevRl convertedLabel rls, convertedLabel ≤ label := by
  induction rls generalizing prevRl convertedLabel with
  | nil => simp [convertLabelsFrom]
  | cons rl rls ih =>
    intro label hlabel
    have hle : convertedLabel ≤ if prevRl ≠ rl then convertedLabel + 1 else convertedLabel := by
      split_ifs <;> omega
    rcases List.mem_cons.mp hlabel with rfl | hlabel
    · exact hle
    · exact hle.trans (ih rl _ label hlabel)

theorem pairwise_convertLabelsFrom (prevRl : ℤ) (convertedLabel : ℕ) (rls : List ℤ) :
    (convertLabelsFrom prevRl convertedLabel rls).Pairwise (· ≤ ·) := by
  induction rls generalizing prevRl convertedLabel with
  | nil => exact List.Pairwise.nil
  | cons rl rls ih => exact List.Pairwise.cons (le_convertLabelsFrom rl _ rls) (ih rl _)

theorem convertLabels_eq_some {rls : List ℤ} (hne : rls ≠ []) :
    ∃ labels, convertLabels rls = some labels ∧ labels.Pairwise (· ≤ ·) ∧ labels[0]? = some 0 := by
  cases rls with
  | nil => exact absurd rfl hne
  | cons rl rls =>
    refine ⟨_, rfl, pairwise_convertLabelsFrom rl 0 (rl :: rls), ?_⟩
    simp [convertLabelsFrom]

/-- The set is a prefix of the ranking that is not empty, cut where the labels reach the number of
    clusters used. -/
structure SelectedPrefix (ranked : List (Sequence × ℕ)) (labels : List ℕ) (nUsed n : ℕ)
    (selected : Finset Sequence) : Prop where
  pos : 0 < n
  le_length : n ≤ ranked.length
  eq_take : selected = ((ranked.take n).map Prod.fst).toFinset
  cut : ∀ i label, labels[i]? = some label → (i < n ↔ label < nUsed)

theorem selectSequences_prefix {ranked : List (Sequence × ℕ)} {labels : List ℕ} {nUsed : ℕ}
    (hlen : labels.length = ranked.length) (hsorted : labels.Pairwise (· ≤ ·))
    (hzero : labels[0]? = some 0) (hused : 0 < nUsed) :
    ∃ n, SelectedPrefix ranked labels nUsed n (selectSequences ranked labels nUsed).toFinset := by
  let test := fun p : (Sequence × ℕ) × ℕ => decide (p.2 < nUsed)
  have hcut : ∀ i label, labels[i]? = some label →
      (i < ((ranked.zip labels).takeWhile test).length ↔ label < nUsed) := by
    intro i label hlabel
    have hi := (List.getElem?_eq_some_iff.mp hlabel).1
    have hzip : (ranked.zip labels)[i]? = some (ranked[i], label) := by
      rw [List.getElem?_zip_eq_some]
      exact ⟨List.getElem?_eq_getElem (hlen ▸ hi), hlabel⟩
    have hmono : (ranked.zip labels).Pairwise fun a b => test b = true → test a = true := by
      have hsnd : ((ranked.zip labels).map Prod.snd).Pairwise (· ≤ ·) := by
        rwa [List.map_snd_zip (Nat.le_of_eq hlen)]
      refine (List.pairwise_map.mp hsnd).imp fun {a b} hab hb => ?_
      exact decide_eq_true (Nat.lt_of_le_of_lt hab (of_decide_eq_true hb))
    rw [lt_length_takeWhile_iff hmono hzip]
    exact decide_eq_true_iff
  refine ⟨((ranked.zip labels).takeWhile test).length, (hcut 0 0 hzero).mpr hused, ?_, ?_, hcut⟩
  · have hle := (List.takeWhile_prefix test (l := ranked.zip labels)).length_le
    rw [List.length_zip] at hle
    omega
  · have hprefix := List.prefix_iff_eq_take.mp (List.takeWhile_prefix test (l := ranked.zip labels))
    have hfst : (ranked.zip labels).map Prod.fst = ranked := List.map_fst_zip (Nat.le_of_eq hlen.symm)
    have hselect : selectSequences ranked labels nUsed =
        (((ranked.zip labels).takeWhile test).map Prod.fst).map Prod.fst := by
      rw [List.map_map]
      rfl
    rw [hselect, hprefix, List.map_take, hfst, List.length_take, Nat.min_eq_left
      (List.takeWhile_prefix test (l := ranked.zip labels)).length_le]

/-- The file is missing, or a capture of the same cluster has written it. -/
inductive PrevWritten : Option PrevCaptured → Prop where
  | first : PrevWritten none
  | again {prev : Option PrevCaptured} {labelling : Labelling} {order : CaptureOrder}
      {seqsList : List (List Sequence)} {c : Capture} (before : PrevWritten prev)
      (h : captureRuleFromCluster labelling order prev seqsList = some c) :
      PrevWritten (some c.prevCaptured)

theorem nUsedClusters_pos_of {prev : Option PrevCaptured}
    (hprev : ∀ p, prev = some p → 0 < p.nClusters) (ranked : List (Sequence × ℕ))
    (labels : List ℕ) : 0 < nUsedClusters prev ranked labels := by
  cases prev with
  | none => exact Nat.one_pos
  | some p =>
    have := hprev p rfl
    rw [nUsedClusters]
    split_ifs
    · exact this
    · exact Nat.succ_pos _

theorem PrevWritten.nClusters_pos {prev : Option PrevCaptured} (h : PrevWritten prev) :
    ∀ p, prev = some p → 0 < p.nClusters := by
  induction h with
  | first => intro p hp; cases hp
  | again _ hrun ih =>
    intro p hp
    obtain ⟨refined, labels, -, -, -, hc, -⟩ := captureRuleFromCluster_eq hrun
    obtain rfl := Option.some.inj hp
    rw [hc]
    exact nUsedClusters_pos_of ih _ _

theorem mem_tmpPl {selected : Finset Sequence} {refined : List (List Sequence)} {rule : RuleSet} :
    rule ∈ tmpPl selected refined ↔ rule.Nonempty ∧
      ∃ seqs ∈ refined, remainingSeqs selected seqs = rule := by
  rw [tmpPl, List.mem_filter, List.mem_map, decide_eq_true_eq, Finset.nonempty_iff_ne_empty, and_comm]

theorem removeIncludedSeqs_ne_nil {rules : List RuleSet} (hne : rules ≠ [])
    (hrules : ∀ rs ∈ rules, rs.Nonempty) : removeIncludedSeqs rules ≠ [] := by
  obtain ⟨rs, hrs⟩ := List.exists_mem_of_ne_nil _ hne
  refine Sieve.kept_ne_nil (fun rs hrs => ?_) (List.ne_nil_of_mem (mem_sortedBySize.mpr hrs))
  have := (hrules rs (mem_sortedBySize.mp hrs)).card_pos
  simp only [decide_eq_false_iff_not]
  omega

theorem tmpPl_ne_nil {refined : List (List Sequence)} {labels : List ℕ} {nUsed n : ℕ}
    {selected : Finset Sequence}
    (h : SelectedPrefix (rankedSequences refined) labels nUsed n selected) :
    tmpPl selected refined ≠ [] := by
  have hlt : 0 < (rankedSequences refined).length := Nat.lt_of_lt_of_le h.pos h.le_length
  obtain ⟨⟨s, cnt⟩, hfirst⟩ : ∃ e, (rankedSequences refined)[0]? = some e :=
    ⟨_, List.getElem?_eq_getElem hlt⟩
  have hs : s ∈ selected := by
    rw [h.eq_take, List.mem_toFinset]
    have hget : ((rankedSequences refined).take n)[0]? = some (s, cnt) := by
      rw [List.getElem?_take_of_lt h.pos, hfirst]
    exact List.mem_map.mpr ⟨(s, cnt), List.mem_of_getElem? hget, rfl⟩
  have hkept := ((mem_rankedSequences refined s cnt).mp (List.mem_of_getElem? hfirst)).1
  obtain ⟨seqs, hseqs, hin⟩ := List.mem_flatten.mp (keptSequences_subset hkept)
  exact List.ne_nil_of_mem (mem_tmpPl.mpr
    ⟨⟨s, mem_remainingSeqs_self hs hin⟩, seqs, hseqs, rfl⟩)

/-- The sequences of a tree that a generator for the grammar completes. -/
def ExtractedFrom (G : Grammar) (start : Sym) (seqs : List Sequence) : Prop :=
  ∃ (g : InputGenerator) (st : GenState) (order : IterationOrder (List Entry)) (fuel : ℕ)
    (sequences : List (List Entry)), g.grammar = G ∧ g.config.startRule = start ∧ g.Produces st ∧
    dtToSequences G order st.tree fuel = some sequences ∧ ∀ s : Sequence, s ∈ seqs ↔ s.entries ∈ sequences

theorem ExtractedFrom.ne_nil {G : Grammar} {start : Sym} {seqs : List Sequence}
    (h : ExtractedFrom G start seqs) (hstart : start ∈ G.keys) (hne : G.NoEmptyAlternative) :
    seqs ≠ [] := by
  obtain ⟨g, st, order, fuel, sequences, rfl, rfl, hst, hrun, hseqs⟩ := h
  obtain ⟨s, hs⟩ := hst.exists_mem_dtToSequences hstart hne hrun
  exact List.ne_nil_of_mem ((hseqs s).mpr hs)

/-- What a capture of a cluster comes to, with every lookup made. -/
structure CaptureReturns (labelling : Labelling) (order : CaptureOrder)
    (removal : IterationOrder ℕ) (prev : Option PrevCaptured) (seqsList : List (List Sequence))
    (c : Capture) : Prop where
  returns : captureRuleFromClusterChecked labelling order removal prev seqsList = some c
  rules_ne_nil : c.rules ≠ []
  rules : ∀ rule ∈ c.rules, rule.Nonempty ∧ rule ⊆ c.prevCaptured.sequences
  selected : ∃ refined labels n, refinedSeqsList order seqsList = some refined ∧
    convertLabels (labelling.fit (rankingValues refined.length (rankedSequences refined))) =
      some labels ∧
    SelectedPrefix (rankedSequences refined) labels c.prevCaptured.nClusters n
      c.prevCaptured.sequences

theorem capture_returns (labelling : Labelling) (order : CaptureOrder) (removal : IterationOrder ℕ)
    {prev : Option PrevCaptured} (hprev : PrevWritten prev) {seqsList : List (List Sequence)}
    (hne : seqsList ≠ []) (hsets : ∀ seqs ∈ seqsList, seqs ≠ []) :
    ∃ c, CaptureReturns labelling order removal prev seqsList c := by
  obtain ⟨refined, hrefined⟩ := exists_refinedSeqsList order seqsList
  have hranked := rankedSequences_ne_nil (flatten_refinedSeqsList_ne_nil hne hsets hrefined)
  have hfit : labelling.fit (rankingValues refined.length (rankedSequences refined)) ≠ [] := by
    have hpos := List.length_pos_iff.mpr hranked
    rw [← List.length_pos_iff, labelling.length_fit, rankingValues, List.length_map]
    exact hpos
  obtain ⟨labels, hlabels, hsorted, hzero⟩ := convertLabels_eq_some hfit
  obtain ⟨hlen, -⟩ := length_rankingLabels labelling refined.length hlabels
  obtain ⟨n, hprefix⟩ := selectSequences_prefix hlen hsorted hzero
    (nUsedClusters_pos_of hprev.nClusters_pos (rankedSequences refined) labels)
  obtain ⟨c, hc⟩ : ∃ c, captureRuleFromCluster labelling order prev seqsList = some c :=
    Option.isSome_iff_exists.mp (by simp [captureRuleFromCluster, hrefined, hlabels])
  obtain ⟨refined', labels', hrefined', hlabels', -, hfile, hrules⟩ := captureRuleFromCluster_eq hc
  obtain rfl := Option.some.inj (hrefined.symm.trans hrefined')
  obtain rfl := Option.some.inj (hlabels.symm.trans hlabels')
  have hselected : SelectedPrefix (rankedSequences refined) labels c.prevCaptured.nClusters n
      c.prevCaptured.sequences := by
    rw [hfile]
    exact hprefix
  have hpl := tmpPl_ne_nil hselected
  refine ⟨c, by rwa [captureRuleFromClusterChecked_eq], ?_, ?_, refined, labels, n, hrefined,
    hlabels, hselected⟩
  · rw [hrules]
    exact removeIncludedSeqs_ne_nil hpl fun rule hrule => (mem_tmpPl.mp hrule).1
  · intro rule hrule
    rw [hrules] at hrule
    obtain ⟨hnonempty, seqs, -, rfl⟩ := mem_tmpPl.mp (mem_of_mem_removeIncludedSeqs hrule)
    exact ⟨hnonempty, Finset.filter_subset _ _⟩

/-- Every complete tree of a grammar without empty alternatives gives a sequence set that is not
    empty, and every cluster of such sets is captured without a failing lookup, whatever the
    labels are: into at least one rule, each one a non-empty part of the selected prefix. -/
theorem capture_total (G : Grammar) (start : Sym) (hstart : start ∈ G.keys)
    (hne : G.NoEmptyAlternative) :
    (∀ (g : InputGenerator) (st : GenState) (order : IterationOrder (List Entry)),
      g.grammar = G → g.config.startRule = start → g.Produces st →
        ∃ fuel₀ sequences, (∀ fuel, fuel₀ ≤ fuel →
          dtToSequences G order st.tree fuel = some sequences) ∧ sequences ≠ []) ∧
    ∀ (seqsList : List (List Sequence)) (prev : Option PrevCaptured), seqsList ≠ [] →
      (∀ seqs ∈ seqsList, ExtractedFrom G start seqs) → PrevWritten prev →
        ∀ labelling order removal, ∃ c, CaptureReturns labelling order removal prev seqsList c := by
  constructor
  · rintro g st order rfl rfl hst
    exact extraction_returns hst hstart hne order
  · intro seqsList prev hlist hsets hprev labelling order removal
    exact capture_returns labelling order removal hprev hlist fun seqs hseqs =>
      (hsets seqs hseqs).ne_nil hstart hne

def sampleSequences : List Sequence := [⟨["list"], 0, by decide⟩, ⟨["list"], 1, by decide⟩]

theorem sampleSequences_extracted : ExtractedFrom sampleGrammar "list" sampleSequences := by
  have hrun : sampleTree.bind (fun st => dtToSequences sampleGrammar IterationOrder.listed st.tree 20) =
      some (sampleSequences.map Sequence.entries) := by decide +kernel
  obtain ⟨st, hst, hseq⟩ := Option.bind_eq_some_iff.mp hrun
  exact ⟨sampleGenerator, st, .listed, 20, _, rfl, rfl, .plain hst, hseq,
    fun _ => (List.mem_map_of_injective fun _ _ h => Sequence.entries_injective h).symm⟩

def shortSequences : List Sequence := [⟨["list"], 1, by decide⟩]

theorem shortSequences_extracted : ExtractedFrom sampleGrammar "list" shortSequences := by
  have hrun : (sampleGenerator.generateTree ⟨fun _ _ => 2 ^ 52, fun _ => 0⟩ 3).bind (fun st =>
      dtToSequences sampleGrammar IterationOrder.listed st.tree 20) =
        some (shortSequences.map Sequence.entries) := by decide +kernel
  obtain ⟨st, hst, hseq⟩ := Option.bind_eq_some_iff.mp hrun
  exact ⟨sampleGenerator, st, .listed, 20, _, rfl, rfl, .plain hst, hseq,
    fun _ => (List.mem_map_of_injective fun _ _ h => Sequence.entries_injective h).symm⟩

def ownLabels : Labelling :=
  ⟨fun values => (List.range values.length).map fun i => (i : ℤ), by simp⟩

/-- A cluster of one set is captured, and captured again when a second set lies in it, with the file
    of the first capture and a label for each sequence. -/
theorem capture_total_sample : ∃ st, sampleTree = some st ∧
    (∃ fuel₀ sequences, (∀ fuel, fuel₀ ≤ fuel →
      dtToSequences sampleGrammar IterationOrder.listed st.tree fuel = some sequences) ∧
      sequences ≠ []) ∧
    ∃ c, CaptureReturns oneLabel listedCapture IterationOrder.listed none [sampleSequences] c ∧
      ∃ c', CaptureReturns ownLabels listedCapture IterationOrder.listed (some c.prevCaptured)
        [sampleSequences, shortSequences] c' := by
  have hsome : sampleTree.isSome = true := by decide +kernel
  obtain ⟨st, hst⟩ := Option.isSome_iff_exists.mp hsome
  obtain ⟨htrees, hclusters⟩ := capture_total sampleGrammar "list" (by decide) (by decide)
  have hone : ∀ seqs ∈ [sampleSequences], ExtractedFrom sampleGrammar "list" seqs := fun seqs hseqs =>
    List.mem_singleton.mp hseqs ▸ sampleSequences_extracted
  have htwo : ∀ seqs ∈ [sampleSequences, shortSequences],
      ExtractedFrom sampleGrammar "list" seqs := by
    intro seqs hseqs
    rcases List.mem_cons.mp hseqs with rfl | hseqs
    · exact sampleSequences_extracted
    · exact List.mem_singleton.mp hseqs ▸ shortSequences_extracted
  obtain ⟨c, hc⟩ := hclusters _ none (by simp) hone .first oneLabel listedCapture .listed
  have hrun := hc.returns
  rw [captureRuleFromClusterChecked_eq] at hrun
  exact ⟨st, hst, htrees sampleGenerator st .listed rfl rfl (.plain hst), c, hc,
    hclusters _ _ (by simp) htwo (.again .first hrun) ownLabels listedCapture .listed⟩

end RSFuzz
