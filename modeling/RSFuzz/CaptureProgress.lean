import RSFuzz.MergeFailures
import RSFuzz.CsvReading
import RSFuzz.SubpathMinimality

set_option autoImplicit false

/-!
# The capture phase does not get stuck

On trees that a generator completes an update finds all it looks up, so that an
iteration fails in `merge_rules` or nowhere, and every sequence of a stored rule
was read off an input of the rule's cluster.
-/
namespace RSFuzz
open OrderedMap OptionFold ClusterTables

/-- The tree of the input is one that a generator for the grammar completes. -/
def CsvInput.GeneratedFrom (G : Grammar) (start : Sym) (item : CsvInput) : Prop :=
  ∃ (g : InputGenerator) (st : GenState), g.grammar = G ∧ g.config.startRule = start ∧
    g.Produces st ∧ item.tree = st.tree

theorem CsvInput.GeneratedFrom.closed {G : Grammar} {start : Sym} {item : CsvInput}
    (h : item.GeneratedFrom G start) (hstart : start ∈ G.keys) :
    WellFormed G start item.tree ∧ item.tree.Closed := by
  obtain ⟨g, st, rfl, rfl, hst, htree⟩ := h
  obtain ⟨hinv, hclosed⟩ := hst.closed hstart
  rw [htree]
  exact ⟨hinv.wellFormed, hclosed⟩

/-- The sequence is in a set that lies in the cluster. -/
def CapturedIn (t : ClusterTables) (files : SeqsFiles) (c : ℕ) (s : Sequence) : Prop :=
  ∃ k seqs, t.uniqueDt.get? k = some c ∧ files.get? k = some seqs ∧ s.entries ∈ seqs

theorem CapturedIn.mono {t t' : ClusterTables} {files files' : SeqsFiles} {c : ℕ} {s : Sequence}
    (h : CapturedIn t files c s) (ht : t.Keeps t') (hfiles : files.Keeps files') :
    CapturedIn t' files' c s := by
  obtain ⟨k, seqs, hk, hseqs, hs⟩ := h
  exact ⟨k, seqs, ht.uniqueDt k c hk, hfiles k seqs hseqs, hs⟩

section Reading

variable {G : Grammar} {start : Sym}

theorem dtToSequences_realised {tree : Tree} (hw : WellFormed G start tree) (hclosed : tree.Closed)
    (hstart : start ∈ G.keys) {order : IterationOrder (List Entry)} {fuel : ℕ}
    {sequences : List (List Entry)} (h : dtToSequences G order tree fuel = some sequences) :
    ∀ e ∈ sequences, ∃ s : Sequence, s.entries = e ∧ Realises tree.expanded s := by
  intro e he
  obtain ⟨raws, hraws, hmem⟩ := exists_raws h
  obtain ⟨raw, hraw, hcollapse⟩ := (hmem e).mp he
  obtain ⟨e', he', s, rfl, hs⟩ :=
    collapse_captured (rawSequences_captures hw hclosed hstart hraws raw hraw)
  exact ⟨s, Option.some.inj (he'.symm.trans hcollapse), hs⟩

theorem mapM_ofEntries? {sequences : List (List Entry)}
    (h : ∀ e ∈ sequences, ∃ s : Sequence, s.entries = e) :
    ∃ seqs, sequences.mapM Sequence.ofEntries? = some seqs ∧
      ∀ s : Sequence, s ∈ seqs ↔ s.entries ∈ sequences := by
  obtain ⟨seqs, hseqs, -⟩ := exists_mapM (f := Sequence.ofEntries?) (P := fun _ => True) sequences
    fun e he => by
      obtain ⟨s, rfl⟩ := h e he
      exact ⟨s, s.ofEntries?_entries, trivial⟩
  refine ⟨seqs, hseqs, fun s => ?_⟩
  rw [mem_mapM_iff hseqs]
  constructor
  · rintro ⟨e, he, hes⟩
    obtain ⟨s', rfl⟩ := h e he
    rw [s'.ofEntries?_entries] at hes
    rwa [← Option.some.inj hes]
  · exact fun hs => ⟨s.entries, hs, s.ofEntries?_entries⟩

variable {env : Env} {inputs : List CsvInput} {t : ClusterTables} {files : SeqsFiles}

/-- The sets of a cluster are all found, there is one, and each was read off an input. -/
theorem FilesReadBy.loadSeqs {read : SequenceReader} (h : FilesReadBy read inputs t files)
    (hread : ∀ item ∈ inputs, ∀ sequences, read item = some sequences →
      ∀ e ∈ sequences, ∃ s : Sequence, s.entries = e) {c : ℕ} {cluster : Map ℕ ℕ}
    (hcluster : t.totalClusters.get? c = some cluster) :
    ∃ seqsList, loadSeqs files cluster = some seqsList ∧ seqsList ≠ [] ∧ ∀ seqs ∈ seqsList,
      (∃ item ∈ inputs, ∃ sequences, read item = some sequences ∧
        ∀ s : Sequence, s ∈ seqs ↔ s.entries ∈ sequences) ∧ ∀ s ∈ seqs, CapturedIn t files c s := by
  have hone : ∀ k ∈ cluster.keys, ∃ seqs,
      (files.get? k).bind (fun tmpSeqs => tmpSeqs.mapM Sequence.ofEntries?) = some seqs ∧
        ((∃ item ∈ inputs, ∃ sequences, read item = some sequences ∧
          ∀ s : Sequence, s ∈ seqs ↔ s.entries ∈ sequences) ∧
            ∀ s ∈ seqs, CapturedIn t files c s) := by
    intro k hk
    have hdt := (h.tables.clusters_mem c k).mp ⟨cluster, hcluster, hk⟩
    have hlt := (h.tables.uniqueDt_keys k).mp (Map.mem_keys_of_get? hdt)
    obtain ⟨sequences, hsequences⟩ := Map.exists_get? ((h.written k).mpr hlt)
    obtain ⟨item, hitem, hrun⟩ := h.read k sequences hsequences
    obtain ⟨seqs, hseqs, hmem⟩ := mapM_ofEntries? (hread item hitem sequences hrun)
    exact ⟨seqs, by rw [hsequences, Option.bind_some, hseqs], ⟨item, hitem, sequences, hrun, hmem⟩,
      fun s hs => ⟨k, sequences, hdt, hsequences, (hmem s).mp hs⟩⟩
  obtain ⟨seqsList, hrun, hlen, hall⟩ := exists_mapM cluster.keys hone
  refine ⟨seqsList, hrun, ?_, hall⟩
  have hpos := List.length_pos_iff.mpr (h.inhabited c cluster hcluster)
  rw [← hlen] at hpos
  exact List.length_pos_iff.mp hpos

theorem FilesOk.loadSeqs (h : FilesOk env inputs t files) (hstart : start ∈ env.grammar.keys)
    (hgen : ∀ item ∈ inputs, item.GeneratedFrom env.grammar start) {c : ℕ} {cluster : Map ℕ ℕ}
    (hcluster : t.totalClusters.get? c = some cluster) :
    ∃ seqsList, RSFuzz.loadSeqs files cluster = some seqsList ∧ seqsList ≠ [] ∧
      ∀ seqs ∈ seqsList, ExtractedFrom env.grammar start seqs ∧ ∀ s ∈ seqs, CapturedIn t files c s := by
  obtain ⟨seqsList, hload, hlist, hsets⟩ := FilesReadBy.loadSeqs h
    (fun item hitem sequences hrun e he => by
      obtain ⟨hw, hclosed⟩ := (hgen item hitem).closed hstart
      obtain ⟨s, hs, -⟩ := dtToSequences_realised hw hclosed hstart hrun e he
      exact ⟨s, hs⟩) hcluster
  refine ⟨seqsList, hload, hlist, fun seqs hseqs => ⟨?_, (hsets seqs hseqs).2⟩⟩
  obtain ⟨item, hitem, sequences, hrun, hmem⟩ := (hsets seqs hseqs).1
  obtain ⟨g, st, hgrammar, rfl, hst, htree⟩ := hgen item hitem
  rw [collapsedReader, htree] at hrun
  exact ⟨g, st, item.order, env.fuel, sequences, hgrammar, rfl, hst, hrun, hmem⟩

end Reading

theorem mem_of_mem_simplifySubpaths {order : IterationOrder Sequence} {subpaths kept : List Sequence}
    (hfree : ∀ s ∈ subpaths, BlockCollapse.collapse s.entries = some s.entries)
    (h : simplifySubpaths order subpaths = some kept) {s : Sequence} (hs : s ∈ kept) :
    s ∈ subpaths := by
  obtain ⟨refined, hrefined, rfl⟩ := Option.map_eq_some_iff.mp h
  have hkept := (List.mem_insertionSort _).mp hs
  obtain ⟨i, hi, -⟩ := Sieve.mem_kept_iff_struck.mp hkept
  have hin := (List.mem_insertionSort _).mp (List.mem_of_getElem? hi)
  rw [order.mem_list, List.mem_dedup, mem_mapM_iff hrefined] at hin
  obtain ⟨s', hs', hrefine⟩ := hin
  have hcollapse := (refineSequence_eq_some_iff s' s).mp hrefine
  rw [hfree s' hs', Option.some.injEq] at hcollapse
  rwa [← Sequence.entries_injective hcollapse]

theorem mem_of_mem_refinedSeqsList {order : CaptureOrder} {seqsList refined : List (List Sequence)}
    (hfree : ∀ seqs ∈ seqsList, ∀ s ∈ seqs, BlockCollapse.collapse s.entries = some s.entries)
    (h : refinedSeqsList order seqsList = some refined) {s : Sequence} (hs : s ∈ refined.flatten) :
    ∃ seqs ∈ seqsList, s ∈ seqs := by
  obtain ⟨tuples, htuples, rfl⟩ := Option.map_eq_some_iff.mp h
  obtain ⟨kept, hkept, hin⟩ := List.mem_flatten.mp hs
  rw [order.refined.mem_list, List.mem_dedup, mem_mapM_iff htuples] at hkept
  obtain ⟨seqs, hseqs, hsimplified⟩ := hkept
  exact ⟨seqs, hseqs, mem_of_mem_simplifySubpaths (hfree seqs hseqs) hsimplified hin⟩

theorem ExtractedFrom.collapsed {G : Grammar} {start : Sym} {seqs : List Sequence}
    (h : ExtractedFrom G start seqs) :
    ∀ s ∈ seqs, BlockCollapse.collapse s.entries = some s.entries := by
  obtain ⟨g, st, order, fuel, sequences, rfl, rfl, -, hrun, hmem⟩ := h
  intro s hs
  exact BlockCollapse.collapse_of_squareFree (dtToSequences_squareFree hrun ((hmem s).mp hs))

theorem CaptureReturns.rules_from {G : Grammar} {start : Sym} {labelling : Labelling}
    {order : CaptureOrder} {removal : IterationOrder ℕ} {prev : Option PrevCaptured}
    {seqsList : List (List Sequence)} {c : Capture}
    (h : CaptureReturns labelling order removal prev seqsList c)
    (hsets : ∀ seqs ∈ seqsList, ExtractedFrom G start seqs) {rule : RuleSet} (hrule : rule ∈ c.rules)
    {s : Sequence} (hs : s ∈ rule) : ∃ seqs ∈ seqsList, s ∈ seqs := by
  have hrun := h.returns
  rw [captureRuleFromClusterChecked_eq] at hrun
  obtain ⟨refined, -, hrefined, -, hcluster, -⟩ := captureRuleFromCluster_eq hrun
  have hkept := Capture.selected_kept hrun s ((h.rules rule hrule).2 hs)
  rw [hcluster] at hkept
  exact mem_of_mem_refinedSeqsList (fun seqs hseqs => (hsets seqs hseqs).collapsed) hrefined
    (keptSequences_subset hkept)

/-- What the state of the rules is at the head of the loop, for any reading of the trees. -/
structure RulesReadBy (read : SequenceReader) (inputs : List CsvInput) (t : ClusterTables)
    (s : RuleState) : Prop where
  consistent : s.Consistent t
  files : FilesReadBy read inputs t s.seqsFiles
  rules : ∀ c rules, s.recurrentSequences.get? c = some rules → rules ≠ [] ∧
    ∀ rule ∈ rules, rule.Nonempty ∧ ∀ q ∈ rule, CapturedIn t s.seqsFiles c q

section AnyReading

variable {read : SequenceReader} {inputs : List CsvInput} {t : ClusterTables} {s : RuleState}

theorem RulesReadBy.empty (read : SequenceReader) :
    RulesReadBy read [] ClusterTables.empty .empty where
  consistent := .empty _
  files := .empty read
  rules := by
    intro c rules hc
    cases hc

theorem RulesReadBy.grow (h : RulesReadBy read inputs t s) {t' : ClusterTables}
    {files' : SeqsFiles} {more : List CsvInput} (hfiles : FilesReadBy read more t' files')
    (ht : t.Keeps t') (hkeeps : s.seqsFiles.Keeps files') :
    RulesReadBy read more t' { s with seqsFiles := files' } where
  consistent := (h.consistent.grow ht.clusters).withFiles files'
  files := hfiles
  rules := fun c rules hc => by
    obtain ⟨hne, hall⟩ := h.rules c rules hc
    exact ⟨hne, fun rule hrule => ⟨(hall rule hrule).1, fun q hq =>
      ((hall rule hrule).2 q hq).mono ht hkeeps⟩⟩

theorem RulesReadBy.assign (h : RulesReadBy read inputs t s) {covKey : ℕ}
    (hknown : covKey ∈ t.totalClusters.keys) {c : Capture} (hne : c.rules ≠ [])
    (hall : ∀ rule ∈ c.rules, rule.Nonempty ∧ ∀ q ∈ rule, CapturedIn t s.seqsFiles covKey q)
    {parameterDict : Map ℕ (List (ℕ × ℕ))} (parameters : List (ℕ × ℕ))
    (hother : ∀ d ≠ covKey, parameterDict.get? d = s.parameterDict.get? d) :
    RulesReadBy read inputs t { s with
      recurrentSequences := s.recurrentSequences.set covKey c.rules
      parameterDict := parameterDict.set covKey parameters
      capturedCovs := insert covKey s.capturedCovs
      prevCaptured := s.prevCaptured.set covKey c.prevCaptured } := by
  have hloop : UpdateLoop t s [] s := ⟨h.consistent, by simp, fun _ _ => ⟨rfl, rfl, rfl⟩⟩
  refine ⟨(hloop.assign hknown c.rules parameters c.prevCaptured hother).consistent, h.files,
    fun d rules hd => ?_⟩
  simp only [Map.get?_set] at hd
  split_ifs at hd with he
  · subst he
    obtain rfl := Option.some.inj hd
    exact ⟨hne, hall⟩
  · exact h.rules d rules hd

end AnyReading

/-- In `main/generateRS.py` the saved files of the captures fit as well. -/
structure RulesOk (env : Env) (inputs : List CsvInput) (t : ClusterTables) (s : RuleState) : Prop
    extends RulesReadBy (collapsedReader env.grammar env.fuel) inputs t s where
  prev : ∀ c p, s.prevCaptured.get? c = some p → PrevWritten (some p)

section Update

variable {env : Env} {start : Sym} {inputs : List CsvInput} {t : ClusterTables} {s : RuleState}

theorem RulesOk.empty (env : Env) : RulesOk env [] ClusterTables.empty .empty where
  toRulesReadBy := .empty _
  prev := by
    intro c p hp
    cases hp

theorem RulesOk.grow (h : RulesOk env inputs t s) {t' : ClusterTables} {files' : SeqsFiles}
    {more : List CsvInput} (hfiles : FilesOk env more t' files') (ht : t.Keeps t')
    (hkeeps : s.seqsFiles.Keeps files') :
    RulesOk env more t' { s with seqsFiles := files' } :=
  ⟨h.toRulesReadBy.grow hfiles ht hkeeps, h.prev⟩

/-- Step lemma: a known cluster is captured, and nothing that was looked up is missing. -/
theorem RulesOk.updateCluster (h : RulesOk env inputs t s) (hstart : start ∈ env.grammar.keys)
    (hne : env.grammar.NoEmptyAlternative)
    (hgen : ∀ item ∈ inputs, item.GeneratedFrom env.grammar start) (choice : UpdateChoice)
    {covKey : ℕ} (hknown : covKey ∈ t.totalClusters.keys) :
    ∃ s', updateCluster choice t s covKey = some s' ∧ RulesOk env inputs t s' := by
  obtain ⟨cluster, hcluster⟩ := Map.exists_get? hknown
  obtain ⟨seqsList, hload, hlist, hsets⟩ := FilesOk.loadSeqs h.files hstart hgen hcluster
  obtain ⟨prev, hprev⟩ := h.consistent.readPrev covKey
  have hwritten : PrevWritten prev := by
    rw [RSFuzz.readPrev] at hprev
    split_ifs at hprev
    · obtain ⟨p, hp, rfl⟩ := Option.map_eq_some_iff.mp hprev
      exact h.prev covKey p hp
    · obtain rfl := Option.some.inj hprev
      exact .first
  obtain ⟨c, hc⟩ := capture_returns choice.labelling (choice.capture covKey) .listed hwritten hlist
    fun seqs hseqs => (hsets seqs hseqs).1.ne_nil hstart hne
  have hrun := hc.returns
  rw [captureRuleFromClusterChecked_eq] at hrun
  obtain ⟨parameters, hparameters, -⟩ := h.consistent.openParameters covKey
  have hassigned := h.assign hknown hc.rules_ne_nil (fun rule hrule =>
    ⟨(hc.rules rule hrule).1, fun q hq => by
      obtain ⟨seqs, hseqs, hin⟩ := hc.rules_from (fun seqs hseqs => (hsets seqs hseqs).1) hrule hq
      exact (hsets seqs hseqs).2 q hin⟩) (parameters ++ [c.parameter])
        fun d hd => s.get?_openParameters hd
  refine ⟨_, by simp only [RSFuzz.updateCluster, hcluster, hload, hprev, hrun, hparameters,
    Option.bind_eq_bind, Option.bind_some, Option.pure_def], hassigned, fun d p hd => ?_⟩
  simp only [Map.get?_set] at hd
  split_ifs at hd with he
  · rw [← Option.some.inj hd]
    exact .again hwritten hrun
  · exact h.prev d p hd

theorem RulesOk.updateRecurrentSequences (h : RulesOk env inputs t s)
    (hstart : start ∈ env.grammar.keys) (hne : env.grammar.NoEmptyAlternative)
    (hgen : ∀ item ∈ inputs, item.GeneratedFrom env.grammar start) (choice : UpdateChoice)
    (updatedCovs : Finset ℕ) :
    ∃ s', updateRecurrentSequences choice t updatedCovs s = some s' ∧ RulesOk env inputs t s' := by
  have hknown : ∀ c ∈ clustersToUpdate choice t updatedCovs s.capturedCovs,
      c ∈ t.totalClusters.keys := fun c hc => by
    rcases mem_clustersToUpdate.mp hc with hnew | hre
    · exact (mem_of_mem_newClusters hnew).1
    · exact h.consistent.known c (Finset.mem_inter.mp hre).2
  exact foldlM_returns (fun _ s => RulesOk env inputs t s) _
    (fun _ c s' hc hs' => hs'.updateCluster hstart hne hgen choice (hknown c hc)) h

end Update

end RSFuzz
