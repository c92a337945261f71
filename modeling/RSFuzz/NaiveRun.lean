import RSFuzz.NaiveRules
import RSFuzz.RunFuel

set_option autoImplicit false

/-!
# Runs of the naive variants

One invariant for the three versions. Where nothing is captured again no entry
ever changes, and where nothing is merged no run gets stuck.
-/
namespace RSFuzz
open OrderedMap OptionFold ClusterTables

namespace NaiveVersion

section Reading

variable {v : NaiveVersion} {G : Grammar} {start : Sym} {item : CsvInput} {fuel : ℕ}
  {seqs : List (List Entry)}

theorem read_realised (hstart : start ∈ G.keys) (hgen : item.GeneratedFrom G start)
    (hread : v.reader G fuel item = some seqs) :
    ∀ e ∈ seqs, ∃ s : Sequence, s.entries = e ∧ Realises item.tree.expanded s := by
  obtain ⟨hw, hclosed⟩ := hgen.closed hstart
  rw [reader, dtToSequences] at hread
  split_ifs at hread with hv
  · exact dtToSequences_realised hw hclosed hstart hread
  · obtain ⟨raws, hraws, rfl⟩ := Option.map_eq_some_iff.mp hread
    intro e he
    rw [List.mem_insertionSort, item.order.mem_list] at he
    obtain ⟨⟨path, dn⟩, hx, rfl⟩ := rawSequences_captures hw hclosed hstart hraws e he
    have hne : path ≠ [] := by
      obtain ⟨_, _, _, _, _, _, _, hpath⟩ := hx
      exact hpath.ne_nil
    exact ⟨⟨path, dn, hne⟩, rfl, (path, dn), hx, rfl, List.Sublist.refl _, rfl⟩

theorem read_ne_nil (hstart : start ∈ G.keys) (hne : G.NoEmptyAlternative)
    (hgen : item.GeneratedFrom G start) (hread : v.reader G fuel item = some seqs) : seqs ≠ [] := by
  obtain ⟨g, st, rfl, rfl, hst, htree⟩ := hgen
  rw [reader, dtToSequences, htree] at hread
  split_ifs at hread with hv
  · obtain ⟨s, hs⟩ := hst.exists_mem_dtToSequences hstart hne hread
    exact List.ne_nil_of_mem hs
  · -- what is collapsed to the sequences of the other version was read here
    obtain ⟨raws, hraws, rfl⟩ := Option.map_eq_some_iff.mp hread
    obtain ⟨fuel₀, sequences, hrun, hsequences⟩ := extraction_returns hst hstart hne item.order
    obtain ⟨e, he⟩ := List.exists_mem_of_ne_nil _ hsequences
    obtain ⟨raws', hraws', hmem⟩ := exists_raws (hrun (max fuel fuel₀) (le_max_right _ _))
    have hsame := rawSequences_settled st.tree _ _ (le_max_left fuel fuel₀) raws hraws
    obtain rfl := Option.some.inj (hsame.symm.trans hraws')
    obtain ⟨raw, hraw, -⟩ := (hmem e).mp he
    refine List.ne_nil_of_mem (a := raw) ?_
    rwa [List.mem_insertionSort, item.order.mem_list]

theorem exists_read (v : NaiveVersion) (hstart : start ∈ G.keys) (hgen : item.GeneratedFrom G start) :
    ∃ fuel₀ seqs, ∀ fuel, fuel₀ ≤ fuel → v.reader G fuel item = some seqs := by
  obtain ⟨hw, hclosed⟩ := hgen.closed hstart
  simp only [reader, dtToSequences]
  split_ifs with hv
  · obtain ⟨fuel₀, sequences, hrun, -⟩ := dtToSequences_returns item.order hw hclosed hstart
    exact ⟨fuel₀, sequences, hrun⟩
  · obtain ⟨fuel₀, raws, hraws, -⟩ := rawSequences_returns hw hclosed hstart
    exact ⟨fuel₀, _, fun fuel hle => by rw [hraws fuel hle, Option.map_some]⟩

end Reading

theorem reader_settled (v : NaiveVersion) (G : Grammar) (item : CsvInput) :
    Fuel.Settled fun fuel => v.reader G fuel item :=
  .ite _ (dtToSequences_settled item.order item.tree) ((rawSequences_settled item.tree).map _)

section Capturing

variable {v : NaiveVersion} {order : CaptureOrder} {seqsList : List (List Sequence)}

theorem exists_refinedSeqsList (v : NaiveVersion) (order : CaptureOrder)
    (seqsList : List (List Sequence)) :
    ∃ refined, v.refinedSeqsList order seqsList = some refined := by
  rw [refinedSeqsList]
  split_ifs
  · exact RSFuzz.exists_refinedSeqsList order seqsList
  · exact ⟨_, rfl⟩

/-- Listing or simplifying keeps sequences of the cluster and loses none of its sets altogether. -/
theorem refinedSeqsList_spec {refined : List (List Sequence)} (hlist : seqsList ≠ [])
    (hne : ∀ seqs ∈ seqsList, seqs ≠ [])
    (hfree : v = .capture → ∀ seqs ∈ seqsList, ∀ s ∈ seqs,
      BlockCollapse.collapse s.entries = some s.entries)
    (h : v.refinedSeqsList order seqsList = some refined) :
    refined.flatten ≠ [] ∧ ∀ s ∈ refined.flatten, ∃ seqs ∈ seqsList, s ∈ seqs := by
  rw [refinedSeqsList] at h
  split_ifs at h with hv
  · exact ⟨flatten_refinedSeqsList_ne_nil hlist hne h, fun s hs =>
      mem_of_mem_refinedSeqsList (hfree hv) h hs⟩
  · obtain rfl := Option.some.inj h
    have hmem : ∀ s, s ∈ (order.refined.list
        (seqsList.map fun seqs => order.simplified.list seqs.dedup).dedup).flatten ↔
          ∃ seqs ∈ seqsList, s ∈ seqs := fun s => by simp
    obtain ⟨seqs, hseqs⟩ := List.exists_mem_of_ne_nil _ hlist
    obtain ⟨s, hs⟩ := List.exists_mem_of_ne_nil _ (hne seqs hseqs)
    exact ⟨List.ne_nil_of_mem ((hmem s).mpr ⟨seqs, hseqs, hs⟩), fun s => (hmem s).mp⟩

structure CapturesOnce (refined : List (List Sequence)) (c : Capture) : Prop where
  clusters : c.prevCaptured.nClusters = 1
  rules_ne_nil : c.rules ≠ []
  rules : ∀ rule ∈ c.rules, rule.Nonempty ∧ ∀ s ∈ rule, s ∈ refined.flatten

theorem capture_returns (v : NaiveVersion) (labelling : Labelling)
    {refined : List (List Sequence)} (h : v.refinedSeqsList order seqsList = some refined)
    (hne : refined.flatten ≠ []) :
    ∃ c, v.captureRuleFromCluster labelling order none seqsList = some c ∧ CapturesOnce refined c := by
  have hranked := rankedSequences_ne_nil hne
  have hfit : labelling.fit (rankingValues refined.length (rankedSequences refined)) ≠ [] := by
    have hpos := List.length_pos_iff.mpr hranked
    rw [← List.length_pos_iff, labelling.length_fit, rankingValues, List.length_map]
    exact hpos
  obtain ⟨labels, hlabels, hsorted, hzero⟩ := convertLabels_eq_some hfit
  obtain ⟨hlen, -⟩ := length_rankingLabels labelling refined.length hlabels
  obtain ⟨n, hselected⟩ := selectSequences_prefix hlen hsorted hzero Nat.one_pos
  have hpl := tmpPl_ne_nil hselected
  have hrules : ∀ rule ∈ tmpPl (selectSequences (rankedSequences refined) labels 1).toFinset refined,
      rule.Nonempty ∧ ∀ s ∈ rule, s ∈ refined.flatten := by
    intro rule hrule
    obtain ⟨hnonempty, seqs, -, rfl⟩ := mem_tmpPl.mp hrule
    refine ⟨hnonempty, fun s hs => ?_⟩
    have hin := Finset.filter_subset _ _ hs
    rw [hselected.eq_take, List.mem_toFinset] at hin
    obtain ⟨e, he, rfl⟩ := List.mem_map.mp hin
    exact keptSequences_subset ((mem_rankedSequences refined e.1 e.2).mp (List.mem_of_mem_take he)).1
  refine ⟨_, by simp only [captureRuleFromCluster, h, hlabels, Option.bind_eq_bind, Option.bind_some,
    Option.pure_def]; rfl, rfl, ?_, ?_⟩
  · simp only [nUsedClusters]
    split_ifs
    · exact removeIncludedSeqs_ne_nil hpl fun rule hrule => (hrules rule hrule).1
    · exact hpl
  · simp only [nUsedClusters]
    split_ifs
    · exact fun rule hrule => hrules rule (mem_of_mem_removeIncludedSeqs hrule)
    · exact hrules

end Capturing

/-- No capture uses more than the first cluster of labels, and what is captured once has one entry. -/
structure StateOk (v : NaiveVersion) (env : Env) (inputs : List CsvInput) (t : ClusterTables)
    (s : RuleState) : Prop extends RulesReadBy (v.reader env.grammar env.fuel) inputs t s where
  parameters : ∀ c ps, s.parameterDict.get? c = some ps →
    ps ≠ [] ∧ (∀ p ∈ ps, p.1 = 1) ∧ (v ≠ .select → ps.length = 1)

section Update

variable {v : NaiveVersion} {env : Env} {start : Sym} {inputs : List CsvInput} {t : ClusterTables}
  {s : RuleState}

theorem StateOk.empty (v : NaiveVersion) (env : Env) :
    v.StateOk env [] ClusterTables.empty .empty where
  toRulesReadBy := .empty _
  parameters := by
    intro c ps hc
    cases hc

theorem StateOk.grow (h : v.StateOk env inputs t s) {t' : ClusterTables} {files' : SeqsFiles}
    {more : List CsvInput} (hfiles : FilesReadBy (v.reader env.grammar env.fuel) more t' files')
    (ht : t.Keeps t') (hkeeps : s.seqsFiles.Keeps files') :
    v.StateOk env more t' { s with seqsFiles := files' } :=
  ⟨h.toRulesReadBy.grow hfiles ht hkeeps, h.parameters⟩

theorem StateOk.capture (h : v.StateOk env inputs t s) (hstart : start ∈ env.grammar.keys)
    (hne : env.grammar.NoEmptyAlternative)
    (hgen : ∀ item ∈ inputs, item.GeneratedFrom env.grammar start) (labelling : Labelling)
    (order : CaptureOrder) {c : ℕ} {cluster : Map ℕ ℕ}
    (hcluster : t.totalClusters.get? c = some cluster) :
    ∃ seqsList capture, loadSeqs s.seqsFiles cluster = some seqsList ∧
      v.captureRuleFromCluster labelling order none seqsList = some capture ∧
      capture.prevCaptured.nClusters = 1 ∧ capture.rules ≠ [] ∧
      ∀ rule ∈ capture.rules, rule.Nonempty ∧ ∀ q ∈ rule, CapturedIn t s.seqsFiles c q := by
  have hreal : ∀ item ∈ inputs, ∀ sequences, v.reader env.grammar env.fuel item = some sequences →
      ∀ e ∈ sequences, ∃ q : Sequence, q.entries = e := fun item hitem sequences hread e he => by
    obtain ⟨q, hq, -⟩ := read_realised hstart (hgen item hitem) hread e he
    exact ⟨q, hq⟩
  obtain ⟨seqsList, hload, hlist, hsets⟩ := h.files.loadSeqs hreal hcluster
  have hnonempty : ∀ seqs ∈ seqsList, seqs ≠ [] := by
    intro seqs hseqs
    obtain ⟨item, hitem, sequences, hread, hmem⟩ := (hsets seqs hseqs).1
    obtain ⟨e, he⟩ := List.exists_mem_of_ne_nil _ (read_ne_nil hstart hne (hgen item hitem) hread)
    obtain ⟨q, rfl⟩ := hreal item hitem sequences hread e he
    exact List.ne_nil_of_mem ((hmem q).mpr he)
  have hfree : v = .capture → ∀ seqs ∈ seqsList, ∀ q ∈ seqs,
      BlockCollapse.collapse q.entries = some q.entries := by
    rintro rfl seqs hseqs q hq
    obtain ⟨item, -, sequences, hread, hmem⟩ := (hsets seqs hseqs).1
    exact BlockCollapse.collapse_of_squareFree (dtToSequences_squareFree hread ((hmem q).mp hq))
  obtain ⟨refined, hrefined⟩ := v.exists_refinedSeqsList order seqsList
  obtain ⟨hflat, hfrom⟩ := refinedSeqsList_spec hlist hnonempty hfree hrefined
  obtain ⟨capture, hcapture, hclusters, hrules, hall⟩ := v.capture_returns labelling hrefined hflat
  refine ⟨seqsList, capture, hload, hcapture, hclusters, hrules, fun rule hrule =>
    ⟨(hall rule hrule).1, fun q hq => ?_⟩⟩
  obtain ⟨seqs, hseqs, hin⟩ := hfrom q ((hall rule hrule).2 q hq)
  exact (hsets seqs hseqs).2 q hin

/-- Step lemma: a known cluster is captured, by the versions that capture once for the first time. -/
theorem StateOk.updateCluster (h : v.StateOk env inputs t s) (hstart : start ∈ env.grammar.keys)
    (hne : env.grammar.NoEmptyAlternative)
    (hgen : ∀ item ∈ inputs, item.GeneratedFrom env.grammar start) (choice : UpdateChoice)
    {covKey : ℕ} (hknown : covKey ∈ t.totalClusters.keys)
    (hfresh : v ≠ .select → covKey ∉ s.capturedCovs) {s₀ : RuleState} {done : List ℕ}
    (hloop : UpdateLoop t s₀ done s) :
    ∃ s', v.updateCluster choice t s covKey = some s' ∧ v.StateOk env inputs t s' ∧
      UpdateLoop t s₀ (done ++ [covKey]) s' := by
  obtain ⟨cluster, hcluster⟩ := Map.exists_get? hknown
  obtain ⟨seqsList, c, hload, hcapture, hclusters, hrules, hall⟩ :=
    h.capture hstart hne hgen choice.labelling (choice.capture covKey) hcluster
  have hprev : v.readPrev s covKey = some none := by
    rw [NaiveVersion.readPrev, if_neg]
    rintro ⟨hin, rfl⟩
    exact hfresh (by decide) hin
  obtain ⟨ps, hps, hopen⟩ := h.consistent.openParameters covKey
  have hassigned := h.assign hknown hrules hall (ps ++ [c.parameter])
    fun d hd => s.get?_openParameters hd
  refine ⟨_, by simp only [NaiveVersion.updateCluster, hcluster, hload, hprev, hcapture, hps,
    Option.bind_eq_bind, Option.bind_some, Option.pure_def], ⟨hassigned, fun d qs hd => ?_⟩,
    hloop.assign hknown c.rules (ps ++ [c.parameter]) c.prevCaptured
      fun d hd => s.get?_openParameters hd⟩
  simp only [Map.get?_set] at hd
  by_cases he : d = covKey
  · subst he
    rw [if_pos rfl] at hd
    obtain rfl := Option.some.inj hd
    have hlast : c.parameter.1 = 1 := hclusters
    rcases hopen with rfl | ⟨hin, hold⟩
    · exact ⟨by simp, by simpa using hlast, fun _ => rfl⟩
    · refine ⟨by simp, fun p hp => ?_, fun hv => absurd hin (hfresh hv)⟩
      rcases List.mem_append.mp hp with hp | hp
      · exact (h.parameters d ps hold).2.1 p hp
      · rwa [List.mem_singleton.mp hp]
  · rw [if_neg he, s.get?_openParameters he] at hd
    exact h.parameters d qs hd

theorem clustersToUpdate_spec (hv : v ≠ .select) (choice : UpdateChoice) (t : ClusterTables)
    (updatedCovs capturedCovs : Finset ℕ) :
    (v.clustersToUpdate choice t updatedCovs capturedCovs).Nodup ∧
      ∀ c, c ∈ v.clustersToUpdate choice t updatedCovs capturedCovs ↔
        c ∈ t.totalClusters.keys ∧ c ∉ capturedCovs := by
  rw [clustersToUpdate, if_neg hv]
  refine ⟨(choice.toUpdate.perm _).nodup_iff.mpr (t.totalClusters.nodupKeys.filter _), fun c => ?_⟩
  rw [choice.toUpdate.mem_list, List.mem_filter, decide_eq_true_eq]

theorem StateOk.mem_clustersToUpdate (h : v.StateOk env inputs t s) {choice : UpdateChoice}
    {updatedCovs : Finset ℕ} {c : ℕ}
    (hc : c ∈ v.clustersToUpdate choice t updatedCovs s.capturedCovs) : c ∈ t.totalClusters.keys := by
  rcases eq_or_ne v .select with rfl | hv
  · rw [clustersToUpdate, if_pos rfl] at hc
    rcases RSFuzz.mem_clustersToUpdate.mp hc with hnew | hre
    · exact (mem_of_mem_newClusters hnew).1
    · exact h.consistent.known c (Finset.mem_inter.mp hre).2
  · exact (((clustersToUpdate_spec hv choice t updatedCovs s.capturedCovs).2 c).mp hc).1

theorem StateOk.updateRecurrentSequences (h : v.StateOk env inputs t s)
    (hstart : start ∈ env.grammar.keys) (hne : env.grammar.NoEmptyAlternative)
    (hgen : ∀ item ∈ inputs, item.GeneratedFrom env.grammar start) (choice : UpdateChoice)
    (updatedCovs : Finset ℕ) :
    ∃ s', v.updateRecurrentSequences choice t updatedCovs s = some s' ∧ v.StateOk env inputs t s' ∧
      UpdateLoop t s (v.clustersToUpdate choice t updatedCovs s.capturedCovs) s' := by
  refine foldlM_returns_prefix (f := v.updateCluster choice t)
    (fun done s' => v.StateOk env inputs t s' ∧ UpdateLoop t s done s') _
    (fun done c mid hp ⟨hmid, hloop⟩ => ?_) ⟨h, h.consistent, by simp, fun _ _ => ⟨rfl, rfl, rfl⟩⟩
  have hc : c ∈ v.clustersToUpdate choice t updatedCovs s.capturedCovs := hp.subset (by simp)
  refine hmid.updateCluster hstart hne hgen choice (h.mem_clustersToUpdate hc) (fun hv hin => ?_) hloop
  obtain ⟨hnodup, hmem⟩ := clustersToUpdate_spec hv choice t updatedCovs s.capturedCovs
  rcases (hloop.captured c).mp hin with hold | hdone
  · exact ((hmem c).mp hc).2 hold
  · have hnodup_done := hnodup.sublist hp.sublist
    exact (List.nodup_append.mp hnodup_done).2.2 c hdone c (by simp) rfl

end Update

def batches (first : Iteration) (its : List (Iteration × UpdateChoice)) : List CsvInput :=
  first.batch ++ its.flatMap fun it => it.1.batch

/-- The rules that an update would merge hold all numbers of a symbol alone. -/
def MergeStuck (v : NaiveVersion) (env : Env) (choice : UpdateChoice)
    (s : CaptureState × RuleState) : Prop :=
  v = .capture ∧ s.1.coverage.doUpdate = true ∧ ∃ csv files updated,
    v.createCsv env s.1.nLines s.1.tables s.2.seqsFiles s.1.batch = some (csv, files) ∧
    v.updateRecurrentSequences choice csv.tables csv.updatedCovs { s.2 with seqsFiles := files } =
      some updated ∧
    RootFamily env.grammar
      (removeIncludedSeqs (sortedBySize updated.recurrentSequences.values.flatten))

structure RunOk (v : NaiveVersion) (env : Env) (first : Iteration)
    (done : List (Iteration × UpdateChoice)) (s : CaptureState × RuleState) : Prop where
  state : v.StateOk env (batches first done) s.1.tables s.2
  pending : ∀ item ∈ s.1.batch, item ∈ batches first done
  complete : v ≠ .select → ∀ c ∈ s.1.tables.totalClusters.keys, c ∈ s.2.capturedCovs
  handover : (∀ it ∈ done, it.1.cov.length = first.cov.length) →
    Handover first.cov (done.map fun it => it.1.cov) s.1.coverage

section Run

variable {v : NaiveVersion} {env : Env} {start : Sym} {first : Iteration}
  {done : List (Iteration × UpdateChoice)} {s s' : CaptureState × RuleState}
  {it : Iteration × UpdateChoice}

theorem RunOk.initial {c : CaptureState} (hinit : captureInit first = some c) :
    v.RunOk env first [] (c, .empty) := by
  obtain ⟨cnt, copies, -, rfl⟩ := captureInit_eq hinit
  refine ⟨?_, fun item hitem => List.mem_append_left _ hitem, ?_, fun _ => .initial first.cov⟩
  · have := StateOk.empty v env
    exact this.grow (this.files.mono (by simp)) (.refl _) fun _ _ hk => hk
  · intro _ c hc
    cases hc

theorem reader_capture (G : Grammar) (fuel : ℕ) :
    NaiveVersion.capture.reader G fuel = collapsedReader G fuel := by
  funext item
  rw [reader, dtToSequences, if_pos rfl, collapsedReader]

theorem updateRules_eq {choice : UpdateChoice} {c : CaptureState} {rules updated : RuleState}
    {csv : CsvState} (h : v.updateRules env choice c rules = some (csv, updated)) :
    ∃ files, v.createCsv env c.nLines c.tables rules.seqsFiles c.batch = some (csv, files) ∧
      v.updateRecurrentSequences choice csv.tables csv.updatedCovs
        { rules with seqsFiles := files } = some updated ∧
      ∃ rss, v.rulesForGenerator env.grammar choice.merge updated.recurrentSequences = some rss := by
  simp only [updateRules, Option.bind_eq_bind, Option.pure_def] at h
  obtain ⟨⟨csv', files⟩, hcsv, h⟩ := Option.bind_eq_some_iff.mp h
  obtain ⟨updated', hupdated, h⟩ := Option.bind_eq_some_iff.mp h
  obtain ⟨rss, hrss, h⟩ := Option.bind_eq_some_iff.mp h
  obtain ⟨rfl, rfl⟩ := Prod.mk.inj (Option.some.inj h)
  exact ⟨files, hcsv, hupdated, rss, hrss⟩

theorem step_eq (h : v.step env s it = some s') :
    ∃ tables csvCopies rules cnt copies coverage,
      v.updateIfDue env it.2 s = some (tables, csvCopies, rules) ∧
      captureDirCopies s.1.exceptionsCnt it.1.report = some (cnt, copies) ∧
      s.1.coverage.step it.1.cov = some coverage ∧
      s' = ({ s.1 with
        infoNum := s.1.infoNum + 1
        coverage := coverage
        tables := tables
        batch := it.1.batch
        exceptionsCnt := cnt
        errors := s.1.errors ++ csvCopies.saved .capture (s.1.infoNum - 1) s.1.infoNum ++
          copies.saved .capture s.1.infoNum s.1.infoNum }, rules) := by
  simp only [NaiveVersion.step, Option.bind_eq_bind, Option.pure_def] at h
  obtain ⟨⟨tables, csvCopies, rules⟩, hdue, h⟩ := Option.bind_eq_some_iff.mp h
  obtain ⟨⟨cnt, copies⟩, hcopies, h⟩ := Option.bind_eq_some_iff.mp h
  obtain ⟨coverage, hcoverage, h⟩ := Option.bind_eq_some_iff.mp h
  exact ⟨tables, csvCopies, rules, cnt, copies, coverage, hdue, hcopies, hcoverage,
    (Option.some.inj h).symm⟩

theorem batches_concat (first : Iteration) (done : List (Iteration × UpdateChoice))
    (it : Iteration × UpdateChoice) :
    batches first (done ++ [it]) = batches first done ++ it.1.batch := by
  simp [batches]

section Step

variable (hok : v.RunOk env first done s) (hstart : start ∈ env.grammar.keys)
  (hne : env.grammar.NoEmptyAlternative)
  (hgen : ∀ item ∈ batches first done, item.GeneratedFrom env.grammar start)

include hok hstart hne hgen

theorem RunOk.update {csv : CsvState} {files : SeqsFiles}
    (hcsv : v.createCsv env s.1.nLines s.1.tables s.2.seqsFiles s.1.batch = some (csv, files))
    (choice : UpdateChoice) :
    ∃ updated, v.updateRecurrentSequences choice csv.tables csv.updatedCovs
        { s.2 with seqsFiles := files } = some updated ∧
      v.StateOk env (batches first done) csv.tables updated ∧
      (v ≠ .select → (∀ c ∈ csv.tables.totalClusters.keys, c ∈ updated.capturedCovs) ∧
        ∀ c ∈ s.2.capturedCovs, s.2.SameEntry updated c) := by
  have hreads := createCsvBy_spec hok.state.files hcsv
  have hgrown : v.StateOk env (batches first done) csv.tables { s.2 with seqsFiles := files } := by
    refine hok.state.grow (hreads.files.mono fun item hitem => ?_) hreads.keeps hreads.keepsFiles
    rcases List.mem_append.mp hitem with hin | hin
    · exact hin
    · exact hok.pending item hin
  obtain ⟨updated, hrun, hstate, hloop⟩ :=
    hgrown.updateRecurrentSequences hstart hne hgen choice csv.updatedCovs
  refine ⟨updated, hrun, hstate, fun hv => ?_⟩
  have hmem := (clustersToUpdate_spec hv choice csv.tables csv.updatedCovs s.2.capturedCovs).2
  refine ⟨fun c hc => (hloop.captured c).mpr ?_, fun c hc => hloop.frame c fun hin => ?_⟩
  · by_cases hin : c ∈ s.2.capturedCovs
    · exact Or.inl hin
    · exact Or.inr ((hmem c).mpr ⟨hc, hin⟩)
  · exact ((hmem c).mp hin).2 hc

/-- Step lemma; what is captured once is not touched again. -/
theorem RunOk.step (hstep : v.step env s it = some s') :
    v.RunOk env first (done ++ [it]) s' ∧
      (v ≠ .select → ∀ c ∈ s.2.capturedCovs, s.2.SameEntry s'.2 c) := by
  obtain ⟨tables, csvCopies, rules, cnt, copies, coverage, hdue, -, hcoverage, rfl⟩ := step_eq hstep
  obtain ⟨hstate, hcomplete, hsame⟩ : v.StateOk env (batches first done) tables rules ∧
      (v ≠ .select → ∀ c ∈ tables.totalClusters.keys, c ∈ rules.capturedCovs) ∧
      (v ≠ .select → ∀ c ∈ s.2.capturedCovs, s.2.SameEntry rules c) := by
    rw [updateIfDue] at hdue
    split_ifs at hdue with hd
    · obtain ⟨⟨csv, updated⟩, hupdate, heq⟩ := Option.map_eq_some_iff.mp hdue
      obtain ⟨rfl, -, rfl⟩ : csv.tables = tables ∧ csv.copies = csvCopies ∧ updated = rules := by
        simpa using heq
      obtain ⟨files, hcsv, hupdated, -⟩ := updateRules_eq hupdate
      obtain ⟨updated', hupdated', hstate, honce⟩ := hok.update hstart hne hgen hcsv it.2
      obtain rfl := Option.some.inj (hupdated.symm.trans hupdated')
      exact ⟨hstate, fun hv => (honce hv).1, fun hv => (honce hv).2⟩
    · obtain ⟨rfl, -, rfl⟩ : s.1.tables = tables ∧ [] = csvCopies ∧ s.2 = rules := by
        simpa using hdue
      exact ⟨hok.state, hok.complete, fun _ _ _ => ⟨rfl, rfl, rfl⟩⟩
  have hmore := batches_concat first done it
  refine ⟨⟨?_, fun item hitem => ?_, hcomplete, fun hlen => ?_⟩, hsame⟩
  · refine hstate.grow (hstate.files.mono fun item hitem => ?_) (.refl _) fun _ _ hk => hk
    rw [hmore]
    exact List.mem_append_left _ hitem
  · rw [hmore]
    exact List.mem_append_right _ hitem
  · rw [List.map_append, List.map_singleton]
    refine (hok.handover fun it' hit' => hlen it' (List.mem_append_left _ hit')).step
      (fun cov hcov => ?_) hcoverage
    rw [← List.map_singleton (f := fun it : Iteration × UpdateChoice => it.1.cov),
      ← List.map_append] at hcov
    obtain ⟨it', hit', rfl⟩ := List.mem_map.mp hcov
    exact hlen it' hit'

theorem RunOk.step_returns_iff (hreport : it.1.report.NonEmpty)
    (hlen : ∀ it' ∈ done ++ [it], it'.1.cov.length = first.cov.length)
    (hread : ∀ item ∈ s.1.batch, ∃ seqs, v.reader env.grammar env.fuel item = some seqs) :
    (∃ s', v.step env s it = some s') ↔ ¬ v.MergeStuck env it.2 s := by
  obtain ⟨⟨csv, files⟩, hcsv⟩ : ∃ acc, v.createCsv env s.1.nLines s.1.tables s.2.seqsFiles
      s.1.batch = some acc := createCsvBy_returns hok.state.files s.1.nLines hread
  obtain ⟨updated, hupdated, hstate, -⟩ := hok.update hstart hne hgen hcsv it.2
  have hrules : (∃ rss, v.rulesForGenerator env.grammar it.2.merge updated.recurrentSequences =
      some rss) ↔ ¬ (v = .capture ∧ RootFamily env.grammar
        (removeIncludedSeqs (sortedBySize updated.recurrentSequences.values.flatten))) := by
    rw [rulesForGenerator]
    split_ifs with hv
    · subst hv
      simp only [true_and]
      have hrules := hstate.toRulesReadBy
      rw [reader_capture] at hrules
      exact rulesForGenerator_returns_iff it.2.merge (hrules.captured hstart hgen)
    · simp [hv]
  constructor
  · rintro ⟨s', hstep⟩ ⟨hv, hdue, csv', files', updated', hcsv', hupdated', hroot⟩
    obtain ⟨_, _, _, _, _, _, hdo, -⟩ := step_eq hstep
    rw [updateIfDue, if_pos hdue] at hdo
    obtain ⟨⟨csv'', updated''⟩, hboth, -⟩ := Option.map_eq_some_iff.mp hdo
    obtain ⟨files'', hcsv'', hupdated'', hrss⟩ := updateRules_eq hboth
    obtain ⟨rfl, rfl⟩ := Prod.mk.inj (Option.some.inj (hcsv.symm.trans hcsv'))
    obtain ⟨rfl, rfl⟩ := Prod.mk.inj (Option.some.inj (hcsv.symm.trans hcsv''))
    obtain rfl := Option.some.inj (hupdated.symm.trans hupdated')
    obtain rfl := Option.some.inj (hupdated.symm.trans hupdated'')
    exact hrules.mp hrss ⟨hv, hroot⟩
  · intro hfree
    obtain ⟨⟨cnt, copies⟩, hcopies⟩ : ∃ r, captureDirCopies s.1.exceptionsCnt it.1.report = some r :=
      dirCopies_returns hreport
    obtain ⟨coverage, hcoverage⟩ : ∃ coverage, s.1.coverage.step it.1.cov = some coverage := by
      have hdone : ∀ it' ∈ done, it'.1.cov.length = first.cov.length := fun it' hit' =>
        hlen it' (List.mem_append_left _ hit')
      refine CoverageState.step_returns ?_
      rw [(hok.handover hdone).before, hlen it (by simp)]
      refine length_orAll fun cov hcov => ?_
      obtain ⟨it', hit', rfl⟩ := List.mem_map.mp hcov
      exact hdone it' hit'
    obtain ⟨⟨tables, csvCopies, rules⟩, hdue⟩ : ∃ r, v.updateIfDue env it.2 s = some r := by
      rw [updateIfDue]
      split_ifs with hd
      · obtain ⟨rss, hrss⟩ := hrules.mpr fun ⟨hv, hroot⟩ =>
          hfree ⟨hv, hd, csv, files, updated, hcsv, hupdated, hroot⟩
        exact ⟨_, by simp only [updateRules, hcsv, hupdated, hrss, Option.bind_eq_bind,
          Option.bind_some, Option.pure_def, Option.map_some]; rfl⟩
      · exact ⟨_, rfl⟩
    exact ⟨_, by simp only [NaiveVersion.step, hdue, hcopies, hcoverage, Option.bind_eq_bind,
      Option.bind_some, Option.pure_def]; rfl⟩

end Step

theorem run_append {first : Iteration} (its rest : List (Iteration × UpdateChoice)) :
    v.run env first (its ++ rest) =
      (v.run env first its).bind fun s => rest.foldlM (v.step env) s := by
  rw [run, run, Option.bind_assoc]
  congr 1
  funext s
  rw [List.foldlM_append, Option.bind_eq_bind]

theorem batches_subset {first : Iteration} {done its : List (Iteration × UpdateChoice)}
    (hpre : done <+: its) : ∀ item ∈ batches first done, item ∈ batches first its := by
  obtain ⟨rest, rfl⟩ := hpre
  intro item hitem
  rw [batches, List.flatMap_append, ← List.append_assoc]
  exact List.mem_append_left _ hitem

section Whole

variable {its rest : List (Iteration × UpdateChoice)} (hstart : start ∈ env.grammar.keys)
  (hne : env.grammar.NoEmptyAlternative)

include hstart hne

theorem RunOk.of_run (hgen : ∀ item ∈ batches first its, item.GeneratedFrom env.grammar start)
    (hrun : v.run env first its = some s) : v.RunOk env first its s := by
  obtain ⟨c, hinit, hloop⟩ := Option.bind_eq_some_iff.mp hrun
  refine foldlM_invariant (f := v.step env) (fun done s => v.RunOk env first done s) ?_
    (.initial hinit) hloop
  intro done it s s' hp hok hstep
  have hpre : done <+: its := (List.prefix_append done [it]).trans hp
  exact (hok.step hstart hne (fun item hitem => hgen item (batches_subset hpre item hitem)) hstep).1

/-- What is captured once stays captured, with the same entries. -/
theorem RunOk.frozen (hv : v ≠ .select)
    (hgen : ∀ item ∈ batches first (its ++ rest), item.GeneratedFrom env.grammar start)
    (hok : v.RunOk env first its s) (hrun : rest.foldlM (v.step env) s = some s') :
    ∀ c ∈ s.2.capturedCovs, s.2.SameEntry s'.2 c := by
  refine (foldlM_invariant (f := v.step env) (fun done t => v.RunOk env first (its ++ done) t ∧
    ∀ c ∈ s.2.capturedCovs, s.2.SameEntry t.2 c) ?_ ⟨by rwa [List.append_nil], fun _ _ =>
      ⟨rfl, rfl, rfl⟩⟩ hrun).2
  rintro done it t t' hp ⟨hok', hsame⟩ hstep
  have hpre : its ++ done <+: its ++ rest :=
    (List.prefix_append_right_inj its).mpr ((List.prefix_append done [it]).trans hp)
  obtain ⟨hnext, hkept⟩ := hok'.step hstart hne (fun item hitem =>
    hgen item (batches_subset hpre item hitem)) hstep
  refine ⟨by rwa [List.append_assoc] at hnext, fun c hc => ?_⟩
  obtain ⟨hrec, hparam, hprev⟩ := hsame c hc
  have hin : c ∈ t.2.capturedCovs := by
    rw [← hok'.state.consistent.recurrent, Map.mem_keys_iff, hrec, ← Map.mem_keys_iff]
    exact (hok.state.consistent.recurrent c).mpr hc
  obtain ⟨hrec', hparam', hprev'⟩ := hkept hv c hin
  exact ⟨hrec'.trans hrec, hparam'.trans hparam, hprev'.trans hprev⟩

end Whole

theorem exists_fuel_reader {G : Grammar} (hstart : start ∈ G.keys) {items : List CsvInput}
    (hgen : ∀ item ∈ items, item.GeneratedFrom G start) : ∃ fuel₀, ∀ fuel, fuel₀ ≤ fuel →
      ∀ item ∈ items, ∃ seqs, v.reader G fuel item = some seqs :=
  Fuel.exists_fuel_forall fun item hitem => by
    obtain ⟨fuel₀, seqs, hread⟩ := v.exists_read hstart (hgen item hitem)
    exact ⟨fuel₀, fun fuel hfuel => ⟨seqs, hread fuel hfuel⟩⟩

theorem step_returns_iff_of_run {h : Hashes} {G : Grammar} {fuel : ℕ} (hstart : start ∈ G.keys)
    (hne : G.NoEmptyAlternative) {its rest : List (Iteration × UpdateChoice)}
    (hgen : ∀ item ∈ batches first its, item.GeneratedFrom G start)
    (hlen : ∀ it ∈ its, it.1.cov.length = first.cov.length)
    (hreport : ∀ it ∈ its, it.1.report.NonEmpty)
    (hread : ∀ item ∈ batches first its, ∃ seqs, v.reader G fuel item = some seqs)
    (hsplit : its = done ++ it :: rest) (hdone : v.run ⟨h, G, fuel⟩ first done = some s) :
    (∃ s', v.step ⟨h, G, fuel⟩ s it = some s') ↔ ¬ v.MergeStuck ⟨h, G, fuel⟩ it.2 s := by
  have hpre : done ++ [it] <+: its := ⟨rest, by rw [hsplit, List.append_assoc]; rfl⟩
  have hsub : ∀ item ∈ batches first done, item ∈ batches first its :=
    batches_subset ((List.prefix_append done [it]).trans hpre)
  have hok : v.RunOk ⟨h, G, fuel⟩ first done s :=
    .of_run hstart hne (fun item hitem => hgen item (hsub item hitem)) hdone
  exact hok.step_returns_iff hstart hne (fun item hitem => hgen item (hsub item hitem))
    (hreport it (hpre.subset (by simp))) (fun it' hit' => hlen it' (hpre.subset hit'))
    fun item hitem => hread item (hsub item (hok.pending item hitem))

end Run

/-- With enough fuel a run on complete trees returns exactly if no update on the way merges rules
    that hold all numbers of a symbol alone, so the versions that do not merge always return. -/
theorem run_returns_iff (v : NaiveVersion) (h : Hashes) (G : Grammar) (start : Sym)
    (hstart : start ∈ G.keys) (hne : G.NoEmptyAlternative) (first : Iteration)
    (its : List (Iteration × UpdateChoice))
    (hgen : ∀ item ∈ batches first its, item.GeneratedFrom G start)
    (hlen : ∀ it ∈ its, it.1.cov.length = first.cov.length)
    (hfirst : first.report.NonEmpty) (hreport : ∀ it ∈ its, it.1.report.NonEmpty) :
    ∃ fuel₀, ∀ fuel, fuel₀ ≤ fuel →
      ((∃ s, v.run ⟨h, G, fuel⟩ first its = some s) ↔
        ∀ done it rest s, its = done ++ it :: rest → v.run ⟨h, G, fuel⟩ first done = some s →
          ¬ v.MergeStuck ⟨h, G, fuel⟩ it.2 s) ∧
      (v ≠ .capture → ∃ s, v.run ⟨h, G, fuel⟩ first its = some s) := by
  obtain ⟨fuel₀, hread⟩ := exists_fuel_reader (v := v) hstart hgen
  refine ⟨fuel₀, fun fuel hfuel => ?_⟩
  have hsteps : ∀ done it rest s, its = done ++ it :: rest →
      v.run ⟨h, G, fuel⟩ first done = some s →
      ((∃ s', v.step ⟨h, G, fuel⟩ s it = some s') ↔ ¬ v.MergeStuck ⟨h, G, fuel⟩ it.2 s) :=
    fun _ _ _ _ hsplit hdone =>
      step_returns_iff_of_run hstart hne hgen hlen hreport (hread fuel hfuel) hsplit hdone
  have hiff : (∃ s, v.run ⟨h, G, fuel⟩ first its = some s) ↔
      ∀ done it rest s, its = done ++ it :: rest → v.run ⟨h, G, fuel⟩ first done = some s →
        ¬ v.MergeStuck ⟨h, G, fuel⟩ it.2 s := by
    constructor
    · rintro ⟨s', hrun⟩ done it rest s hsplit hdone
      rw [hsplit, run_append, hdone, Option.bind_some, List.foldlM_cons] at hrun
      obtain ⟨s₁, hstep, -⟩ := Option.bind_eq_some_iff.mp hrun
      exact (hsteps done it rest s hsplit hdone).mp ⟨s₁, hstep⟩
    · intro hfree
      obtain ⟨c, hinit⟩ := captureInit_returns hfirst
      obtain ⟨s, hloop, -⟩ := foldlM_returns_prefix (f := v.step ⟨h, G, fuel⟩)
        (fun done s => v.run ⟨h, G, fuel⟩ first done = some s) its (b := (c, .empty))
        (fun done it s hp hdone => by
          obtain ⟨rest, hsplit⟩ := hp
          have hcons : its = done ++ it :: rest := by rw [← hsplit, List.append_assoc]; rfl
          obtain ⟨s', hs'⟩ := (hsteps done it rest s hcons hdone).mpr (hfree done it rest s hcons hdone)
          refine ⟨s', hs', ?_⟩
          rw [run_append, hdone, Option.bind_some, List.foldlM_cons, hs']
          rfl)
        (by rw [run, hinit]; rfl)
      exact ⟨s, by rw [run, hinit]; exact hloop⟩
  exact ⟨hiff, fun hv => hiff.mpr fun _ _ _ _ _ _ hstuck => hv hstuck.1⟩

def startTree (dn : ℕ) : Option GenState :=
  (InputGenerator.mk emptyOrFile Map.empty ⟨"start", 9⟩ Tables.empty).generateTree
    ⟨fun depth _ => if depth = 0 then dn * 2 ^ 52 else 0, fun _ => 0⟩ 3

def startIteration : Iteration where
  batch := (startTree 0).toList.map (fun st => ⟨st.tree, IterationOrder.listed, [true, false]⟩) ++
    (startTree 1).toList.map (fun st => ⟨st.tree, IterationOrder.listed, [false, true]⟩)
  report := .cprog [0, 0]
  cov := [true, true]

def startHashes : Hashes where
  tree := List.length
  seqs seqs := seqs.flatten.countP (· = .dn 1)
  cov cov := cov.idxOf true

theorem startIteration_generated :
    ∀ item ∈ batches startIteration [(startIteration, listedUpdate)],
      item.GeneratedFrom emptyOrFile "start" := by
  have hone : ∀ item ∈ startIteration.batch, item.GeneratedFrom emptyOrFile "start" := by
    intro item hitem
    have htree : ∀ dn st, st ∈ (startTree dn).toList → ∀ cov,
        (CsvInput.mk st.tree IterationOrder.listed cov).GeneratedFrom emptyOrFile "start" :=
      fun dn st hst cov => ⟨_, st, rfl, rfl, .plain (Option.mem_toList.mp hst), rfl⟩
    rcases List.mem_append.mp hitem with hitem | hitem
    · obtain ⟨st, hst, rfl⟩ := List.mem_map.mp hitem
      exact htree 0 st hst _
    · obtain ⟨st, hst, rfl⟩ := List.mem_map.mp hitem
      exact htree 1 st hst _
  intro item hitem
  rcases List.mem_append.mp hitem with hitem | hitem
  · exact hone item hitem
  · obtain ⟨it, hit, hin⟩ := List.mem_flatMap.mp hitem
    rw [List.mem_singleton.mp hit] at hin
    exact hone item hin

theorem startRules_rootFamily : RootFamily emptyOrFile startRules := by
  refine ⟨{rootSeq "start" 0}, by decide, {rootSeq "start" 1}, by decide, ∅, "start", by decide,
    by decide, by decide, fun a ha => ⟨{rootSeq "start" a.derivNum}, ?_, by simp⟩⟩
  have hnum : a.derivNum = 0 ∨ a.derivNum = 1 := by
    revert a
    decide
  rcases hnum with h | h <;> rw [h] <;> decide

theorem startIteration_stuck {fuel : ℕ} (hfuel : 9 ≤ fuel) {c : CaptureState}
    (hinit : captureInit startIteration = some c) :
    NaiveVersion.capture.MergeStuck ⟨startHashes, emptyOrFile, fuel⟩ listedUpdate (c, .empty) := by
  have hrun : (captureInit startIteration).bind (fun c =>
      (NaiveVersion.capture.createCsv ⟨startHashes, emptyOrFile, 9⟩ c.nLines c.tables Map.empty
        c.batch).bind fun acc =>
      (NaiveVersion.capture.updateRecurrentSequences listedUpdate acc.1.tables acc.1.updatedCovs
        { RuleState.empty with seqsFiles := acc.2 }).map fun updated =>
          (c.coverage.doUpdate, updated.recurrentSequences.values.flatten)) =
        some (true, startRules) := by decide +kernel
  rw [hinit, Option.bind_some] at hrun
  obtain ⟨⟨csv, files⟩, hcsv, hrun⟩ := Option.bind_eq_some_iff.mp hrun
  obtain ⟨updated, hupdated, hpair⟩ := Option.map_eq_some_iff.mp hrun
  obtain ⟨hdue, hrules⟩ := Prod.mk.inj hpair
  have hmore := createCsvBy_settled (capture.reader_settled emptyOrFile) c.tables Map.empty c.batch
    9 fuel hfuel (csv, files) hcsv
  refine ⟨rfl, hdue, csv, files, updated, hmore, hupdated, ?_⟩
  have hkept : removeIncludedSeqs (sortedBySize startRules) = startRules := by decide
  rw [hrules]
  exact hkept ▸ startRules_rootFamily

/-- Two clusters whose rules are the two alternatives of the start symbol stop the version that
    merges, and no other one. -/
theorem run_returns_iff_sample : ∃ fuel,
    (¬ ∃ s, NaiveVersion.capture.run ⟨startHashes, emptyOrFile, fuel⟩ startIteration
      [(startIteration, listedUpdate)] = some s) ∧
    ∃ s, NaiveVersion.select.run ⟨startHashes, emptyOrFile, fuel⟩ startIteration
      [(startIteration, listedUpdate)] = some s := by
  have hall := fun v => run_returns_iff v startHashes emptyOrFile "start" (by decide)
    (emptyOrFile.noEmptyAlternative_iff.mpr (by decide +kernel)) startIteration
    [(startIteration, listedUpdate)] startIteration_generated (by decide) ⟨by simp [startIteration], rfl⟩
    (by
      intro it hit
      rw [List.mem_singleton.mp hit]
      exact ⟨by simp [startIteration], rfl⟩)
  obtain ⟨fuel₁, h₁⟩ := hall .capture
  obtain ⟨fuel₂, h₂⟩ := hall .select
  refine ⟨max 9 (max fuel₁ fuel₂), fun hruns => ?_, (h₂ _ (by omega)).2 (by decide)⟩
  obtain ⟨c, hinit⟩ : ∃ c, captureInit startIteration = some c := ⟨_, rfl⟩
  refine ((h₁ _ (by omega)).1.mp hruns) [] (startIteration, listedUpdate) [] (c, .empty) rfl ?_
    (startIteration_stuck (le_max_left _ _) hinit)
  rw [run, hinit]
  rfl

/-- The states of a run: rules come from the files of their cluster and no capture goes past the
    first labels. Where nothing is captured again all clusters have been captured, and their
    entries are final. -/
theorem run_states (v : NaiveVersion) (env : Env) (start : Sym) (hstart : start ∈ env.grammar.keys)
    (hne : env.grammar.NoEmptyAlternative) (first : Iteration)
    (its rest : List (Iteration × UpdateChoice))
    (hgen : ∀ item ∈ batches first (its ++ rest), item.GeneratedFrom env.grammar start)
    (s s' : CaptureState × RuleState) (hrun : v.run env first its = some s)
    (hmore : v.run env first (its ++ rest) = some s') :
    (∀ c rules, s.2.recurrentSequences.get? c = some rules → rules ≠ [] ∧ ∀ rule ∈ rules,
      rule.Nonempty ∧ ∀ q ∈ rule, CapturedIn s.1.tables s.2.seqsFiles c q) ∧
    (∀ c ps, s.2.parameterDict.get? c = some ps → ps ≠ [] ∧ ∀ p ∈ ps, p.1 = 1) ∧
    (v ≠ .select →
      (∀ c, c ∈ s.2.capturedCovs ↔ c ∈ s.1.tables.totalClusters.keys) ∧
      ∀ c ∈ s.2.capturedCovs, s.2.SameEntry s'.2 c ∧
        ∃ p, s'.2.parameterDict.get? c = some [p]) := by
  have hsub : ∀ item ∈ batches first its, item ∈ batches first (its ++ rest) :=
    batches_subset (List.prefix_append its rest)
  have hok : v.RunOk env first its s :=
    .of_run hstart hne (fun item hitem => hgen item (hsub item hitem)) hrun
  have hloop : rest.foldlM (v.step env) s = some s' := by
    rwa [run_append, hrun, Option.bind_some] at hmore
  have hparameters := hok.state.parameters
  refine ⟨hok.state.rules, fun c ps hc => ⟨(hparameters c ps hc).1, (hparameters c ps hc).2.1⟩,
    fun hv => ⟨fun c => ⟨hok.state.consistent.known c, hok.complete hv c⟩, fun c hc => ?_⟩⟩
  have hsame := hok.frozen hstart hne hv hgen hloop c hc
  obtain ⟨ps, hps⟩ := Map.exists_get? ((hok.state.consistent.parameters c).mpr hc)
  obtain ⟨p, rfl⟩ := List.length_eq_one_iff.mp ((hparameters c ps hps).2.2 hv)
  exact ⟨hsame, p, hsame.2.1.trans hps⟩

def treeIteration (cov : List Bool) : Iteration where
  batch := sampleTree.toList.map fun st => ⟨st.tree, IterationOrder.listed, cov⟩
  report := .cprog [0]
  cov := cov

def treeEnv : Env := ⟨ClusterTables.sampleHashes, sampleGrammar, 9⟩

def sampleUpdates : List (Iteration × UpdateChoice) :=
  [(treeIteration [true, false], listedUpdate), (treeIteration [false, true], listedUpdate)]

theorem sampleUpdates_generated : ∀ item ∈ batches (treeIteration [true, false]) sampleUpdates,
    item.GeneratedFrom sampleGrammar "list" := by
  have hone : ∀ cov, ∀ item ∈ (treeIteration cov).batch, item.GeneratedFrom sampleGrammar "list" := by
    intro cov item hitem
    obtain ⟨st, hst, rfl⟩ := List.mem_map.mp hitem
    exact ⟨sampleGenerator, st, rfl, rfl, .plain (Option.mem_toList.mp hst), rfl⟩
  intro item hitem
  rcases List.mem_append.mp hitem with hitem | hitem
  · exact hone _ item hitem
  · obtain ⟨it, hit, hitem⟩ := List.mem_flatMap.mp hitem
    simp only [sampleUpdates, List.mem_cons, List.not_mem_nil, or_false] at hit
    rcases hit with rfl | rfl
    · exact hone _ item hitem
    · exact hone _ item hitem

theorem run_states_sample : ∃ s s',
    NaiveVersion.capture.run treeEnv (treeIteration [true, false]) (sampleUpdates.take 1) = some s ∧
    NaiveVersion.capture.run treeEnv (treeIteration [true, false]) sampleUpdates = some s' ∧
    0 ∈ s.2.capturedCovs ∧ s.2.SameEntry s'.2 0 := by
  have hrun : (NaiveVersion.capture.run treeEnv (treeIteration [true, false])
      (sampleUpdates.take 1)).map (fun s => s.1.tables.totalClusters.keys) = some [0] := by
    decide +kernel
  have hmore : (NaiveVersion.capture.run treeEnv (treeIteration [true, false])
      sampleUpdates).isSome = true := by decide +kernel
  obtain ⟨s, hs, hkeys⟩ := Option.map_eq_some_iff.mp hrun
  obtain ⟨s', hs'⟩ := Option.isSome_iff_exists.mp hmore
  obtain ⟨-, -, honce⟩ := run_states .capture treeEnv "list" (by decide)
    (sampleGrammar.noEmptyAlternative_iff.mpr (by decide +kernel)) (treeIteration [true, false])
    (sampleUpdates.take 1) (sampleUpdates.drop 1) sampleUpdates_generated s s' hs hs'
  obtain ⟨hall, hfinal⟩ := honce (by decide)
  have hin : 0 ∈ s.2.capturedCovs := (hall 0).mpr (by rw [hkeys]; exact List.mem_singleton_self 0)
  exact ⟨s, s', hs, hs', hin, (hfinal 0 hin).1⟩

end NaiveVersion
end RSFuzz
