import Mathlib.Data.Finset.Sort
import RSFuzz.CoverageHandover
import RSFuzz.RuleBuilding
import RSFuzz.RuleMerging

set_option autoImplicit false

/-!
# Updating the rules

`update_recurrent_sequences` in the loop of the capture phase: which clusters
are captured next, which are captured again, and the set, the two dictionaries
and the files that remember it. `none` stands for an exception.
-/
namespace RSFuzz
open OrderedMap OptionFold ClusterTables Counting

/-- The files `unique_trees/{seqs_key}_seqs.pickle`. -/
abbrev SeqsFiles := Map ℕ (List (List Entry))

def writeSeqs (h : Hashes) (G : Grammar) (fuel : ℕ) (t : ClusterTables) (item : CsvInput)
    (files : SeqsFiles) : Option SeqsFiles :=
  match t.dtIdx.get? (h.tree item.tree) with
  | some _ => some files
  | none => (dtToSequences G item.order item.tree fuel).map fun seqs =>
      if (t.seqsIdx.get? (h.seqs seqs)).isSome then files else files.set t.seqsIdx.size seqs

def csvInputFiles (h : Hashes) (G : Grammar) (fuel nLines : ℕ) (acc : CsvState × SeqsFiles)
    (item : CsvInput × ℕ) : Option (CsvState × SeqsFiles) := do
  let files ← writeSeqs h G fuel acc.1.tables item.1 acc.2
  let st ← csvInput h G fuel nLines acc.1 item
  return (st, files)

def createCsvFiles (h : Hashes) (G : Grammar) (fuel nLines : ℕ) (t : ClusterTables)
    (files : SeqsFiles) (batch : List CsvInput) : Option (CsvState × SeqsFiles) :=
  batch.zipIdx.foldlM (csvInputFiles h G fuel nLines) (⟨t, ∅, []⟩, files)

def loadSeqs (files : SeqsFiles) (cluster : Map ℕ ℕ) : Option (List (List Sequence)) :=
  cluster.keys.mapM fun seqsKey => do
    let tmpSeqs ← files.get? seqsKey
    tmpSeqs.mapM Sequence.ofEntries?

/-- `captured_covs`, the two dictionaries, and the files. -/
structure RuleState where
  recurrentSequences : Map ℕ (List RuleSet)
  parameterDict : Map ℕ (List (ℕ × ℕ))
  capturedCovs : Finset ℕ
  prevCaptured : Map ℕ PrevCaptured
  seqsFiles : SeqsFiles

def RuleState.empty : RuleState := ⟨Map.empty, Map.empty, ∅, Map.empty, Map.empty⟩

structure UpdateChoice where
  labelling : Labelling
  capture : ℕ → CaptureOrder
  uncaptured : IterationOrder ℕ
  toUpdate : IterationOrder ℕ
  merge : MergeOrder

/-- `result`: the clusters not captured yet, the largest first. -/
def sortedUncaptured (order : IterationOrder ℕ) (t : ClusterTables) (capturedCovs : Finset ℕ) :
    List ℕ :=
  (order.list (t.totalClusters.keys.filter (· ∉ capturedCovs))).insertionSort fun a b =>
    t.clusterTotal b ≤ t.clusterTotal a

def clusterDiffList (t : ClusterTables) (result : List ℕ) : List ℤ :=
  (result.zip result.tail).map fun p => (t.clusterTotal p.1 : ℤ) - (t.clusterTotal p.2 : ℤ)

/-- The place of the first largest drop, and all of a list without drops. -/
def newTopK (t : ClusterTables) (result : List ℕ) : ℕ :=
  match clusterDiffList t result with
  | [] => result.length
  | d :: ds => (d :: ds).idxOf (ds.foldl max d) + 1

def newClusters (choice : UpdateChoice) (t : ClusterTables) (capturedCovs : Finset ℕ) : List ℕ :=
  let result := sortedUncaptured choice.uncaptured t capturedCovs
  result.take (newTopK t result)

def clustersToUpdate (choice : UpdateChoice) (t : ClusterTables) (updatedCovs : Finset ℕ)
    (capturedCovs : Finset ℕ) : List ℕ :=
  choice.toUpdate.list
    (newClusters choice t capturedCovs ++ (updatedCovs ∩ capturedCovs).sort (· ≤ ·)).dedup

/-- The file is read where the cluster is captured again. -/
def readPrev (s : RuleState) (covKey : ℕ) : Option (Option PrevCaptured) :=
  if covKey ∈ s.capturedCovs then (s.prevCaptured.get? covKey).map some else some none

def updateCluster (choice : UpdateChoice) (t : ClusterTables) (s : RuleState) (covKey : ℕ) :
    Option RuleState := do
  let cluster ← t.totalClusters.get? covKey
  let seqsList ← loadSeqs s.seqsFiles cluster
  let parameterDict :=
    if covKey ∈ s.capturedCovs then s.parameterDict else s.parameterDict.set covKey []
  let prev ← readPrev s covKey
  let capture ← captureRuleFromCluster choice.labelling (choice.capture covKey) prev seqsList
  let parameters ← parameterDict.get? covKey
  return { s with
    recurrentSequences := s.recurrentSequences.set covKey capture.rules
    parameterDict := parameterDict.set covKey (parameters ++ [capture.parameter])
    capturedCovs := insert covKey s.capturedCovs
    prevCaptured := s.prevCaptured.set covKey capture.prevCaptured }

def updateRecurrentSequences (choice : UpdateChoice) (t : ClusterTables) (updatedCovs : Finset ℕ)
    (s : RuleState) : Option RuleState :=
  (clustersToUpdate choice t updatedCovs s.capturedCovs).foldlM (updateCluster choice t) s

def rulesForGenerator (G : Grammar) (order : MergeOrder)
    (recurrentSequences : Map ℕ (List RuleSet)) : Option (List RuleSet) :=
  (mergeRules G order (removeIncludedSeqs (sortedBySize recurrentSequences.values.flatten))).map
    fun merged => removeIncludedSeqs (sortedBySize merged)

/-- `create_csv` and `update_recurrent_sequences`, and the conversion of the rules. -/
def updateRules (env : Env) (choice : UpdateChoice) (s : CaptureState) (rules : RuleState) :
    Option (CsvState × RuleState) := do
  let (csv, files) ← createCsvFiles env.hashes env.grammar env.fuel s.nLines s.tables
    rules.seqsFiles s.batch
  let updated ← updateRecurrentSequences choice csv.tables csv.updatedCovs
    { rules with seqsFiles := files }
  let _ ← rulesForGenerator env.grammar choice.merge updated.recurrentSequences
  return (csv, updated)

def rulesIfDue (env : Env) (choice : UpdateChoice) (s : CaptureState × RuleState) :
    Option RuleState :=
  if s.1.coverage.doUpdate then (updateRules env choice s.1 s.2).map Prod.snd else some s.2

def ruleStep (env : Env) (s : CaptureState × RuleState) (it : Iteration × UpdateChoice) :
    Option (CaptureState × RuleState) := do
  let rules ← rulesIfDue env it.2 s
  let capture ← captureStep env s.1 it.1
  return (capture, rules)

def ruleRun (env : Env) (first : Iteration) (its : List (Iteration × UpdateChoice)) :
    Option (CaptureState × RuleState) :=
  (captureInit first).bind fun s => its.foldlM (ruleStep env) (s, .empty)

theorem createCsv_of_files {h : Hashes} {G : Grammar} {fuel nLines : ℕ} {t : ClusterTables}
    {files files' : SeqsFiles} {batch : List CsvInput} {st : CsvState}
    (hrun : createCsvFiles h G fuel nLines t files batch = some (st, files')) :
    createCsv h G fuel nLines t batch = some st := by
  refine foldlM_invariant (f := csvInputFiles h G fuel nLines)
    (fun done acc => done.foldlM (csvInput h G fuel nLines) ⟨t, ∅, []⟩ = some acc.1) ?_ rfl hrun
  intro done item acc acc' _ hprev hstep
  simp only [csvInputFiles, Option.bind_eq_bind, Option.pure_def] at hstep
  obtain ⟨files₁, -, hstep⟩ := Option.bind_eq_some_iff.mp hstep
  obtain ⟨st₁, hst, hstep⟩ := Option.bind_eq_some_iff.mp hstep
  obtain rfl := Option.some.inj hstep
  rw [List.foldlM_append, hprev]
  simp [hst]

theorem updateRules_eq {env : Env} {choice : UpdateChoice} {s : CaptureState} {rules : RuleState}
    {csv : CsvState} {updated : RuleState} (h : updateRules env choice s rules = some (csv, updated)) :
    createCsv env.hashes env.grammar env.fuel s.nLines s.tables s.batch = some csv ∧
      ∃ files, updateRecurrentSequences choice csv.tables csv.updatedCovs
        { rules with seqsFiles := files } = some updated := by
  simp only [updateRules, Option.bind_eq_bind, Option.pure_def] at h
  obtain ⟨⟨csv', files⟩, hcsv, h⟩ := Option.bind_eq_some_iff.mp h
  obtain ⟨updated', hupdated, h⟩ := Option.bind_eq_some_iff.mp h
  obtain ⟨_, -, h⟩ := Option.bind_eq_some_iff.mp h
  obtain ⟨rfl, rfl⟩ := Prod.mk.inj (Option.some.inj h)
  exact ⟨createCsv_of_files hcsv, files, hupdated⟩

theorem registerCoverage_keys (h : Hashes) (t : ClusterTables) (tmpCov : List Bool) :
    ∀ c ∈ t.totalClusters.keys, c ∈ (registerCoverage h t tmpCov).totalClusters.keys := by
  intro c hc
  rw [registerCoverage]
  by_cases hknown : (t.covIdx.get? (h.cov tmpCov)).isSome = true
  · rwa [if_pos hknown]
  · rw [if_neg hknown]
    exact (Map.mem_keys_set _ _ _ _).mpr (Or.inr hc)

theorem measure_keys {h : Hashes} {nLines seqsKey : ℕ} {t : ClusterTables} {cov : List Bool}
    {r : ClusterTables × ℕ} (hm : measure h nLines t seqsKey cov = some r) :
    ∀ c ∈ t.totalClusters.keys, c ∈ r.1.totalClusters.keys := by
  intro c hc
  simp only [measure, Option.bind_eq_bind, Option.pure_def] at hm
  obtain ⟨covKey, -, hm⟩ := Option.bind_eq_some_iff.mp hm
  obtain ⟨joined, hjoin, hm⟩ := Option.bind_eq_some_iff.mp hm
  obtain rfl := Option.some.inj hm
  obtain ⟨cluster, -, rfl⟩ := Option.map_eq_some_iff.mp hjoin
  exact (Map.mem_keys_set _ _ _ _).mpr (Or.inr (registerCoverage_keys h t _ c hc))

theorem classify_keys {h : Hashes} {G : Grammar} {fuel nLines : ℕ} {t : ClusterTables}
    {item : CsvInput} {r : Classified} (hr : classify h G fuel nLines t item = some r) :
    ∀ c ∈ t.totalClusters.keys, c ∈ r.tables.totalClusters.keys := by
  intro c hc
  unfold classify at hr
  split at hr
  · simp only [classifyKnown, Option.bind_eq_bind, Option.pure_def] at hr
    obtain ⟨seqsKey, -, hr⟩ := Option.bind_eq_some_iff.mp hr
    obtain ⟨covKey, -, hr⟩ := Option.bind_eq_some_iff.mp hr
    obtain rfl := Option.some.inj hr
    exact hc
  · obtain ⟨seqs, -, hr⟩ := Option.bind_eq_some_iff.mp hr
    simp only [classifyNew] at hr
    split at hr
    · obtain rfl := Option.some.inj hr
      exact hc
    · obtain ⟨measured, hm, rfl⟩ := Option.map_eq_some_iff.mp hr
      exact measure_keys hm c hc

theorem csvInput_keys {h : Hashes} {G : Grammar} {fuel nLines : ℕ} {st st' : CsvState}
    {item : CsvInput × ℕ} (hrun : csvInput h G fuel nLines st item = some st') :
    ∀ c ∈ st.tables.totalClusters.keys, c ∈ st'.tables.totalClusters.keys := by
  intro c hc
  simp only [csvInput, countInput, Option.bind_eq_bind, Option.pure_def] at hrun
  obtain ⟨r, hr, hrun⟩ := Option.bind_eq_some_iff.mp hrun
  obtain ⟨t', ht', hrun⟩ := Option.bind_eq_some_iff.mp hrun
  obtain rfl := Option.some.inj hrun
  obtain ⟨cluster, -, ht'⟩ := Option.bind_eq_some_iff.mp ht'
  obtain ⟨n, -, ht'⟩ := Option.bind_eq_some_iff.mp ht'
  obtain rfl := Option.some.inj ht'
  exact (Map.mem_keys_set _ _ _ _).mpr (Or.inr (classify_keys hr c hc))

theorem createCsv_keys {h : Hashes} {G : Grammar} {fuel nLines : ℕ} {t : ClusterTables}
    {batch : List CsvInput} {st : CsvState} (hrun : createCsv h G fuel nLines t batch = some st) :
    ∀ c ∈ t.totalClusters.keys, c ∈ st.tables.totalClusters.keys :=
  foldlM_invariant (f := csvInput h G fuel nLines)
    (fun _ st => ∀ c ∈ t.totalClusters.keys, c ∈ st.tables.totalClusters.keys)
    (fun _ _ _ _ _ hprev hstep c hc => csvInput_keys hstep c (hprev c hc)) (fun _ hc => hc) hrun

section Selection

variable {t : ClusterTables} {capturedCovs : Finset ℕ}

theorem mem_sortedUncaptured {order : IterationOrder ℕ} {c : ℕ} :
    c ∈ sortedUncaptured order t capturedCovs ↔ c ∈ t.totalClusters.keys ∧ c ∉ capturedCovs := by
  simp [sortedUncaptured, List.mem_insertionSort]

theorem pairwise_sortedUncaptured (order : IterationOrder ℕ) :
    (sortedUncaptured order t capturedCovs).Pairwise fun c d => t.clusterTotal d ≤ t.clusterTotal c :=
  pairwise_insertionSort_of (r := fun c d => t.clusterTotal d ≤ t.clusterTotal c)
    (fun _ _ => Nat.le_total _ _) (fun _ _ _ hcd hde => hde.trans hcd) _

theorem newTopK_pos {result : List ℕ} (h : result ≠ []) : 0 < newTopK t result := by
  unfold newTopK
  split
  · exact List.length_pos_iff.mpr h
  · exact Nat.succ_pos _

variable {choice : UpdateChoice}

theorem mem_of_mem_newClusters {c : ℕ} (h : c ∈ newClusters choice t capturedCovs) :
    c ∈ t.totalClusters.keys ∧ c ∉ capturedCovs :=
  mem_sortedUncaptured.mp (List.mem_of_mem_take h)

theorem exists_newCluster {c : ℕ} (hc : c ∈ t.totalClusters.keys) (hout : c ∉ capturedCovs) :
    ∃ d, d ∈ newClusters choice t capturedCovs := by
  have hne : sortedUncaptured choice.uncaptured t capturedCovs ≠ [] :=
    List.ne_nil_of_mem (mem_sortedUncaptured.mpr ⟨hc, hout⟩)
  refine List.exists_mem_of_ne_nil _ fun hnil => ?_
  rcases List.take_eq_nil_iff.mp hnil with hzero | hnil
  · exact Nat.ne_of_gt (newTopK_pos hne) hzero
  · exact hne hnil

theorem newClusters_largest {c d : ℕ} (hc : c ∈ newClusters choice t capturedCovs)
    (hd : d ∈ t.totalClusters.keys) (hout : d ∉ capturedCovs)
    (hleft : d ∉ newClusters choice t capturedCovs) : t.clusterTotal d ≤ t.clusterTotal c := by
  have hsorted : (sortedUncaptured choice.uncaptured t capturedCovs).Pairwise fun c d =>
      t.clusterTotal d ≤ t.clusterTotal c := pairwise_sortedUncaptured choice.uncaptured
  have hin : d ∈ sortedUncaptured choice.uncaptured t capturedCovs :=
    mem_sortedUncaptured.mpr ⟨hd, hout⟩
  rw [newClusters] at hc hleft
  generalize sortedUncaptured choice.uncaptured t capturedCovs = result at hc hleft hsorted hin
  rw [← List.take_append_drop (newTopK t result) result] at hsorted hin
  rcases List.mem_append.mp hin with htake | hdrop
  · exact absurd htake hleft
  · exact (List.pairwise_append.mp hsorted).2.2 c hc d hdrop

theorem mem_clustersToUpdate {updatedCovs : Finset ℕ} {c : ℕ} :
    c ∈ clustersToUpdate choice t updatedCovs capturedCovs ↔
      c ∈ newClusters choice t capturedCovs ∨ c ∈ updatedCovs ∩ capturedCovs := by
  simp [clustersToUpdate]

end Selection

/-- The captured clusters are known, and they are the keys of both dictionaries and of the files. -/
structure RuleState.Consistent (t : ClusterTables) (s : RuleState) : Prop where
  known : ∀ c ∈ s.capturedCovs, c ∈ t.totalClusters.keys
  recurrent : ∀ c, c ∈ s.recurrentSequences.keys ↔ c ∈ s.capturedCovs
  parameters : ∀ c, c ∈ s.parameterDict.keys ↔ c ∈ s.capturedCovs
  files : ∀ c, c ∈ s.prevCaptured.keys ↔ c ∈ s.capturedCovs

def RuleState.SameEntry (s s' : RuleState) (c : ℕ) : Prop :=
  s'.recurrentSequences.get? c = s.recurrentSequences.get? c ∧
    s'.parameterDict.get? c = s.parameterDict.get? c ∧ s'.prevCaptured.get? c = s.prevCaptured.get? c

theorem RuleState.Consistent.empty (t : ClusterTables) : RuleState.empty.Consistent t := by
  constructor <;> simp [RuleState.empty]

theorem RuleState.Consistent.readPrev {t : ClusterTables} {s : RuleState} (h : s.Consistent t)
    (c : ℕ) : ∃ prev, readPrev s c = some prev := by
  unfold RSFuzz.readPrev
  split_ifs with hin
  · obtain ⟨prev, hprev⟩ := Map.exists_get? ((h.files c).mpr hin)
    exact ⟨some prev, by rw [hprev]; rfl⟩
  · exact ⟨none, rfl⟩

/-- The list that the parameter of a capture is appended to is there, and empty at first. -/
theorem RuleState.Consistent.openParameters {t : ClusterTables} {s : RuleState}
    (h : s.Consistent t) (c : ℕ) : ∃ parameters, (if c ∈ s.capturedCovs then s.parameterDict
      else s.parameterDict.set c []).get? c = some parameters ∧
        (parameters = [] ∨ c ∈ s.capturedCovs ∧ s.parameterDict.get? c = some parameters) := by
  split_ifs with hin
  · obtain ⟨parameters, hparameters⟩ := Map.exists_get? ((h.parameters c).mpr hin)
    exact ⟨parameters, hparameters, Or.inr ⟨hin, hparameters⟩⟩
  · exact ⟨[], Map.get?_set_self _ _ _, Or.inl rfl⟩

theorem RuleState.get?_openParameters (s : RuleState) {c d : ℕ} (hd : d ≠ c) :
    (if c ∈ s.capturedCovs then s.parameterDict else s.parameterDict.set c []).get? d =
      s.parameterDict.get? d := by
  split_ifs
  · rfl
  · exact Map.get?_set_of_ne _ _ hd

section Update

variable {choice : UpdateChoice} {t : ClusterTables} {s s' : RuleState} {covKey : ℕ}

theorem updateCluster_eq (h : updateCluster choice t s covKey = some s') :
    covKey ∈ t.totalClusters.keys ∧ ∃ (rules : List RuleSet) (parameterDict : Map ℕ (List (ℕ × ℕ)))
        (parameters : List (ℕ × ℕ)) (prevCaptured : PrevCaptured),
      (∀ c ≠ covKey, parameterDict.get? c = s.parameterDict.get? c) ∧
      (∀ c, c ∈ parameterDict.keys → c = covKey ∨ c ∈ s.parameterDict.keys) ∧
      s' = { s with
        recurrentSequences := s.recurrentSequences.set covKey rules
        parameterDict := parameterDict.set covKey parameters
        capturedCovs := insert covKey s.capturedCovs
        prevCaptured := s.prevCaptured.set covKey prevCaptured } := by
  simp only [updateCluster, Option.bind_eq_bind, Option.pure_def] at h
  obtain ⟨cluster, hcluster, h⟩ := Option.bind_eq_some_iff.mp h
  obtain ⟨seqsList, -, h⟩ := Option.bind_eq_some_iff.mp h
  obtain ⟨prev, -, h⟩ := Option.bind_eq_some_iff.mp h
  obtain ⟨capture, -, h⟩ := Option.bind_eq_some_iff.mp h
  obtain ⟨parameters, -, h⟩ := Option.bind_eq_some_iff.mp h
  refine ⟨Map.mem_keys_of_get? hcluster, capture.rules, _, _, capture.prevCaptured, ?_, ?_,
    (Option.some.inj h).symm⟩
  · exact fun c hc => s.get?_openParameters hc
  · intro c hc
    split_ifs at hc with hin
    · exact Or.inr hc
    · exact (Map.mem_keys_set _ _ _ _).mp hc

/-- After the clusters `done` of the loop. -/
structure UpdateLoop (t : ClusterTables) (s : RuleState) (done : List ℕ) (s' : RuleState) :
    Prop where
  consistent : s'.Consistent t
  captured : ∀ c, c ∈ s'.capturedCovs ↔ c ∈ s.capturedCovs ∨ c ∈ done
  frame : ∀ c ∉ done, s.SameEntry s' c

theorem UpdateLoop.assign {done : List ℕ} {s₁ : RuleState} (h : UpdateLoop t s done s₁)
    (hknown : covKey ∈ t.totalClusters.keys) (rules : List RuleSet)
    {parameterDict : Map ℕ (List (ℕ × ℕ))} (parameters : List (ℕ × ℕ)) (prevCaptured : PrevCaptured)
    (hother : ∀ c ≠ covKey, parameterDict.get? c = s₁.parameterDict.get? c) :
    UpdateLoop t s (done ++ [covKey]) { s₁ with
      recurrentSequences := s₁.recurrentSequences.set covKey rules
      parameterDict := parameterDict.set covKey parameters
      capturedCovs := insert covKey s₁.capturedCovs
      prevCaptured := s₁.prevCaptured.set covKey prevCaptured } := by
  have hcons := h.consistent
  refine ⟨⟨fun c hc => ?_, fun c => ?_, fun c => ?_, fun c => ?_⟩, fun c => ?_, fun c hc => ?_⟩
  · rcases Finset.mem_insert.mp hc with rfl | hc
    · exact hknown
    · exact hcons.known c hc
  · simp only
    rw [Map.mem_keys_set, Finset.mem_insert, hcons.recurrent]
  · simp only
    rw [Map.mem_keys_set, Finset.mem_insert, ← hcons.parameters]
    by_cases hc : c = covKey
    · simp [hc]
    · have hsame : c ∈ parameterDict.keys ↔ c ∈ s₁.parameterDict.keys := by
        rw [Map.mem_keys_iff, Map.mem_keys_iff, hother c hc]
      rw [hsame]
  · simp only
    rw [Map.mem_keys_set, Finset.mem_insert, hcons.files]
  · simp only
    rw [Finset.mem_insert, h.captured, List.mem_append, List.mem_singleton]
    tauto
  · rw [List.mem_append, List.mem_singleton, not_or] at hc
    obtain ⟨hrec, hparam, hprev⟩ := h.frame c hc.1
    refine ⟨?_, ?_, ?_⟩
    · rw [← hrec]
      exact Map.get?_set_of_ne _ _ hc.2
    · rw [← hparam, ← hother c hc.2]
      exact Map.get?_set_of_ne _ _ hc.2
    · rw [← hprev]
      exact Map.get?_set_of_ne _ _ hc.2

theorem UpdateLoop.step {done : List ℕ} {s₁ s₂ : RuleState} (h : UpdateLoop t s done s₁)
    (hstep : updateCluster choice t s₁ covKey = some s₂) :
    UpdateLoop t s (done ++ [covKey]) s₂ := by
  obtain ⟨hknown, rules, parameterDict, parameters, prevCaptured, hother, -, rfl⟩ :=
    updateCluster_eq hstep
  exact h.assign hknown rules parameters prevCaptured hother

theorem foldlM_updateCluster {order : List ℕ} (h : s.Consistent t)
    (hrun : order.foldlM (updateCluster choice t) s = some s') : UpdateLoop t s order s' :=
  foldlM_invariant (f := updateCluster choice t) (UpdateLoop t s)
    (fun _ _ _ _ _ hloop hstep => hloop.step hstep)
    ⟨h, by simp, fun _ _ => ⟨rfl, rfl, rfl⟩⟩ hrun

/-- What a call of `update_recurrent_sequences` does. -/
structure UpdateSpec (t : ClusterTables) (updatedCovs : Finset ℕ) (before after : RuleState) :
    Prop where
  consistent : after.Consistent t
  kept : before.capturedCovs ⊆ after.capturedCovs
  frame : ∀ c ∉ after.capturedCovs \ before.capturedCovs, c ∉ updatedCovs ∩ before.capturedCovs →
    before.SameEntry after c
  progress : (∃ c ∈ t.totalClusters.keys, c ∉ before.capturedCovs) →
    ∃ c ∈ after.capturedCovs, c ∉ before.capturedCovs
  largest : ∀ c ∈ after.capturedCovs \ before.capturedCovs, ∀ d ∈ t.totalClusters.keys,
    d ∉ after.capturedCovs → t.clusterTotal d ≤ t.clusterTotal c

theorem updateRecurrentSequences_spec {updatedCovs : Finset ℕ} (h : s.Consistent t)
    (hrun : updateRecurrentSequences choice t updatedCovs s = some s') :
    UpdateSpec t updatedCovs s s' := by
  have hloop := foldlM_updateCluster h hrun
  have hnew : ∀ c, c ∈ s'.capturedCovs \ s.capturedCovs ↔
      c ∈ newClusters choice t s.capturedCovs := by
    intro c
    rw [Finset.mem_sdiff, hloop.captured, mem_clustersToUpdate, Finset.mem_inter]
    constructor
    · rintro ⟨hc | hc | hc, hout⟩
      · exact absurd hc hout
      · exact hc
      · exact absurd hc.2 hout
    · exact fun hc => ⟨Or.inr (Or.inl hc), (mem_of_mem_newClusters hc).2⟩
  refine ⟨hloop.consistent, fun c hc => (hloop.captured c).mpr (Or.inl hc), ?_, ?_, ?_⟩
  · intro c hc hre
    refine hloop.frame c fun hdone => ?_
    rcases mem_clustersToUpdate.mp hdone with hin | hin
    · exact hc ((hnew c).mpr hin)
    · exact hre hin
  · rintro ⟨c, hc, hout⟩
    obtain ⟨d, hd⟩ : ∃ d, d ∈ newClusters choice t s.capturedCovs := exists_newCluster hc hout
    exact ⟨d, Finset.mem_sdiff.mp ((hnew d).mpr hd)⟩
  · intro c hc d hd hout
    have hsub : d ∉ s.capturedCovs := fun hin => hout ((hloop.captured d).mpr (Or.inl hin))
    refine newClusters_largest ((hnew c).mp hc) hd hsub fun hin => hout ?_
    exact (Finset.mem_sdiff.mp ((hnew d).mpr hin)).1

end Update

theorem RuleState.Consistent.grow {t t' : ClusterTables} {s : RuleState} (h : s.Consistent t)
    (hkeys : ∀ c ∈ t.totalClusters.keys, c ∈ t'.totalClusters.keys) : s.Consistent t' :=
  ⟨fun c hc => hkeys c (h.known c hc), h.recurrent, h.parameters, h.files⟩

theorem RuleState.Consistent.withFiles {t : ClusterTables} {s : RuleState} (h : s.Consistent t)
    (files : SeqsFiles) : RuleState.Consistent t { s with seqsFiles := files } :=
  ⟨h.known, h.recurrent, h.parameters, h.files⟩

theorem ruleStep_consistent {env : Env} {s s' : CaptureState × RuleState}
    {it : Iteration × UpdateChoice} (h : s.2.Consistent s.1.tables)
    (hstep : ruleStep env s it = some s') : s'.2.Consistent s'.1.tables := by
  simp only [ruleStep, Option.bind_eq_bind, Option.pure_def] at hstep
  obtain ⟨rules, hrules, hstep⟩ := Option.bind_eq_some_iff.mp hstep
  obtain ⟨capture, hcapture, hstep⟩ := Option.bind_eq_some_iff.mp hstep
  obtain rfl := Option.some.inj hstep
  obtain ⟨tables, csvCopies, _, _, _, htables, -, -, rfl⟩ := captureStep_eq hcapture
  change rules.Consistent tables
  by_cases hdue : s.1.coverage.doUpdate = true
  · rw [rulesIfDue, if_pos hdue] at hrules
    rw [updateTables, if_pos hdue] at htables
    obtain ⟨⟨csv, updated⟩, hupdate, rfl⟩ := Option.map_eq_some_iff.mp hrules
    obtain ⟨hcsv, files, hrun⟩ := updateRules_eq hupdate
    rw [hcsv] at htables
    obtain ⟨rfl, -⟩ := Prod.mk.inj (Option.some.inj htables)
    exact (updateRecurrentSequences_spec ((h.grow (createCsv_keys hcsv)).withFiles files)
      hrun).consistent
  · rw [rulesIfDue, if_neg hdue] at hrules
    rw [updateTables, if_neg hdue] at htables
    obtain rfl := Option.some.inj hrules
    obtain ⟨rfl, -⟩ := Prod.mk.inj (Option.some.inj htables)
    exact h

theorem ruleRun_consistent {env : Env} {first : Iteration} {its : List (Iteration × UpdateChoice)}
    {s : CaptureState × RuleState} (hrun : ruleRun env first its = some s) :
    s.2.Consistent s.1.tables := by
  obtain ⟨s₀, -, hloop⟩ := Option.bind_eq_some_iff.mp hrun
  exact foldlM_invariant (f := ruleStep env) (fun _ s => s.2.Consistent s.1.tables)
    (fun _ _ _ _ _ h hstep => ruleStep_consistent h hstep) (.empty s₀.tables) hloop

/-- At every head of the loop the captured clusters are known and are the keys of the dictionaries
    and of the files; an update from there finds every file it reads, and if it returns it has
    done what is specified. -/
theorem updateRecurrentSequences_states (env : Env) (first : Iteration)
    (its : List (Iteration × UpdateChoice)) (s : CaptureState × RuleState)
    (hrun : ruleRun env first its = some s) :
    s.2.Consistent s.1.tables ∧
    ∀ (choice : UpdateChoice) (csv : CsvState) (files : SeqsFiles),
      createCsvFiles env.hashes env.grammar env.fuel s.1.nLines s.1.tables s.2.seqsFiles s.1.batch =
        some (csv, files) →
      (∀ done c mid, done ++ [c] <+:
          clustersToUpdate choice csv.tables csv.updatedCovs s.2.capturedCovs →
        done.foldlM (updateCluster choice csv.tables) { s.2 with seqsFiles := files } = some mid →
        ∃ prev, readPrev mid c = some prev) ∧
      ∀ after, updateRecurrentSequences choice csv.tables csv.updatedCovs
          { s.2 with seqsFiles := files } = some after →
        UpdateSpec csv.tables csv.updatedCovs s.2 after := by
  have hcons := ruleRun_consistent hrun
  refine ⟨hcons, fun choice csv files hcsv => ?_⟩
  have hgrown := (hcons.grow (createCsv_keys (createCsv_of_files hcsv))).withFiles files
  refine ⟨fun done c mid _ hmid => ?_, fun after hafter => ?_⟩
  · exact (foldlM_updateCluster hgrown hmid).consistent.readPrev c
  · obtain ⟨hcons', hkept, hframe, hprogress, hlargest⟩ := updateRecurrentSequences_spec hgrown hafter
    exact ⟨hcons', hkept, hframe, hprogress, hlargest⟩

def listedUpdate : UpdateChoice :=
  ⟨oneLabel, fun _ => listedCapture, IterationOrder.listed, IterationOrder.listed, listedOrder⟩

theorem updateRecurrentSequences_states_twice : ∃ s,
    ruleRun sampleEnv (sampleIteration [true, false])
      [(sampleIteration [true, false], listedUpdate), (sampleIteration [true, false], listedUpdate)] =
        some s ∧ 0 ∈ s.2.capturedCovs ∧ 0 ∈ s.2.prevCaptured.keys := by
  have hrun : (ruleRun sampleEnv (sampleIteration [true, false])
      [(sampleIteration [true, false], listedUpdate), (sampleIteration [true, false], listedUpdate)]).map
        (fun s => s.2.capturedCovs) = some {0} := by
    decide +kernel
  obtain ⟨s, hs, hcaptured⟩ := Option.map_eq_some_iff.mp hrun
  have hcons := (updateRecurrentSequences_states _ _ _ s hs).1
  have hin : 0 ∈ s.2.capturedCovs := by
    rw [hcaptured]
    exact Finset.mem_singleton_self 0
  exact ⟨s, hs, hin, (hcons.files 0).mpr hin⟩

end RSFuzz
