import RSFuzz.CaptureTotality
import RSFuzz.RuleUpdate

set_option autoImplicit false

/-!
# The sequence files

`create_csv` writes a file for every sequence set that is new, under the number
the set gets, and no cluster stays empty. So an update finds the file of every
set it reads, and each file holds what was read off one of the inputs. It is the
same function in `main/generateRS.py` and `main/naive_genRS.py`; what differs is
how the sequences of a tree are read, so it is proved for every reading.
-/
namespace RSFuzz
open OrderedMap OptionFold ClusterTables

def ClusterTables.Inhabited (t : ClusterTables) : Prop :=
  ∀ c cluster, t.totalClusters.get? c = some cluster → cluster.keys ≠ []

/-- Entries stay, in both tables of sequence sets. -/
structure ClusterTables.Keeps (t t' : ClusterTables) : Prop where
  uniqueDt : ∀ k c, t.uniqueDt.get? k = some c → t'.uniqueDt.get? k = some c
  clusters : ∀ c ∈ t.totalClusters.keys, c ∈ t'.totalClusters.keys

theorem ClusterTables.Keeps.refl (t : ClusterTables) : t.Keeps t :=
  ⟨fun _ _ h => h, fun _ h => h⟩

theorem ClusterTables.Keeps.trans {t t' t'' : ClusterTables} (h : t.Keeps t') (h' : t'.Keeps t'') :
    t.Keeps t'' :=
  ⟨fun k c hk => h'.uniqueDt k c (h.uniqueDt k c hk), fun c hc => h'.clusters c (h.clusters c hc)⟩

section OneInput

variable {h : Hashes} {G : Grammar} {fuel nLines : ℕ} {t : ClusterTables}

theorem keys_set_ne_nil {κ ν : Type} [DecidableEq κ] (m : Map κ ν) (k : κ) (v : ν) :
    (m.set k v).keys ≠ [] :=
  List.ne_nil_of_mem ((Map.mem_keys_set m k k v).mpr (Or.inl rfl))

theorem inhabited_set {t t' : ClusterTables} (hin : t.Inhabited) {covKey : ℕ} {cluster : Map ℕ ℕ}
    (hne : cluster.keys ≠ []) (hset : t'.totalClusters = t.totalClusters.set covKey cluster) :
    t'.Inhabited := by
  intro c cluster' hc
  rw [hset, Map.get?_set] at hc
  split_ifs at hc with he
  · rwa [← Option.some.inj hc]
  · exact hin c cluster' hc

theorem measure_frame (hin : t.Inhabited) {seqsKey : ℕ} {cov : List Bool} {r : ClusterTables × ℕ}
    (hm : measure h nLines t seqsKey cov = some r) :
    r.1.Inhabited ∧ r.1.seqsIdx = t.seqsIdx ∧ r.1.uniqueDt = t.uniqueDt.set seqsKey r.2 ∧
      ∀ c ∈ t.totalClusters.keys, c ∈ r.1.totalClusters.keys := by
  have hkeys := measure_keys hm
  simp only [measure, Option.bind_eq_bind, Option.pure_def] at hm
  obtain ⟨covKey, hcov, hm⟩ := Option.bind_eq_some_iff.mp hm
  obtain ⟨joined, hjoin, hm⟩ := Option.bind_eq_some_iff.mp hm
  obtain rfl := Option.some.inj hm
  obtain ⟨cluster, -, rfl⟩ := Option.map_eq_some_iff.mp hjoin
  generalize (if cov.length = 0 then List.replicate nLines false else cov) = tmpCov at hcov hkeys ⊢
  have hdt : (registerCoverage h t tmpCov).uniqueDt = t.uniqueDt := by
    rw [registerCoverage]
    split_ifs <;> rfl
  have hseqs : (registerCoverage h t tmpCov).seqsIdx = t.seqsIdx := by
    rw [registerCoverage]
    split_ifs <;> rfl
  refine ⟨?_, hseqs, by rw [hdt], hkeys⟩
  intro c cluster' hc
  simp only [Map.get?_set] at hc
  split_ifs at hc with he
  · rw [← Option.some.inj hc]
    exact keys_set_ne_nil _ _ _
  · rw [registerCoverage] at hc hcov
    split_ifs at hc hcov with hknown
    · exact hin c cluster' hc
    · -- the cluster that was just started is the one joined
      rw [Map.get?_set_self] at hcov
      rw [← Option.some.inj hcov] at he
      rw [Map.get?_set_of_ne _ _ he] at hc
      exact hin c cluster' hc

theorem countInput_frame (hin : t.Inhabited) {seqsKey covKey : ℕ} {t' : ClusterTables}
    (hrun : countInput t seqsKey covKey = some t') :
    t'.Inhabited ∧ t.Keeps t' ∧ t'.seqsIdx = t.seqsIdx := by
  simp only [countInput, Option.bind_eq_bind, Option.pure_def] at hrun
  obtain ⟨cluster, -, hrun⟩ := Option.bind_eq_some_iff.mp hrun
  obtain ⟨n, -, hrun⟩ := Option.bind_eq_some_iff.mp hrun
  obtain rfl := Option.some.inj hrun
  exact ⟨inhabited_set hin (keys_set_ne_nil _ _ _) rfl,
    ⟨fun _ _ hk => hk, fun c hc => (Map.mem_keys_set _ _ _ _).mpr (Or.inr hc)⟩, rfl⟩

end OneInput

/-- `dt_to_sequences` on the tree of an input. -/
abbrev SequenceReader := CsvInput → Option (List (List Entry))

section Definitions

variable (h : Hashes) (read : SequenceReader)

def writeSeqsBy (t : ClusterTables) (item : CsvInput) (files : SeqsFiles) : Option SeqsFiles :=
  match t.dtIdx.get? (h.tree item.tree) with
  | some _ => some files
  | none => (read item).map fun seqs =>
      if (t.seqsIdx.get? (h.seqs seqs)).isSome then files else files.set t.seqsIdx.size seqs

def classifyBy (nLines : ℕ) (t : ClusterTables) (item : CsvInput) : Option Classified :=
  match t.dtIdx.get? (h.tree item.tree) with
  | some dtKey => classifyKnown t dtKey
  | none => (read item).bind (classifyNew h nLines t item)

def csvInputBy (nLines : ℕ) (acc : CsvState × SeqsFiles) (item : CsvInput × ℕ) :
    Option (CsvState × SeqsFiles) := do
  let files ← writeSeqsBy h read acc.1.tables item.1 acc.2
  let r ← classifyBy h read nLines acc.1.tables item.1
  let t ← countInput r.tables r.seqsKey r.covKey
  return (⟨t, insert r.covKey acc.1.updatedCovs,
    if r.copied then acc.1.copies ++ [(item.2, item.2)] else acc.1.copies⟩, files)

def createCsvBy (nLines : ℕ) (t : ClusterTables) (files : SeqsFiles) (batch : List CsvInput) :
    Option (CsvState × SeqsFiles) :=
  batch.zipIdx.foldlM (csvInputBy h read nLines) (⟨t, ∅, []⟩, files)

end Definitions

def collapsedReader (G : Grammar) (fuel : ℕ) : SequenceReader :=
  fun item => dtToSequences G item.order item.tree fuel

/-- `generateRS.create_csv` is the instance for its own reading. -/
theorem createCsvFiles_eq (h : Hashes) (G : Grammar) (fuel nLines : ℕ) (t : ClusterTables)
    (files : SeqsFiles) (batch : List CsvInput) : createCsvFiles h G fuel nLines t files batch =
      createCsvBy h (collapsedReader G fuel) nLines t files batch := by
  have hinput : csvInputFiles h G fuel nLines = csvInputBy h (collapsedReader G fuel) nLines := by
    funext acc item
    simp only [csvInputFiles, csvInput, csvInputBy, Option.bind_eq_bind, Option.pure_def,
      Option.bind_assoc, Option.bind_some]
    rfl
  rw [createCsvFiles, createCsvBy, hinput]

section OneInput

variable {h : Hashes} {read : SequenceReader} {nLines : ℕ} {t : ClusterTables} {item : CsvInput}
  {r : Classified}

structure Classifies (h : Hashes) (read : SequenceReader) (t : ClusterTables) (item : CsvInput)
    (r : Classified) : Prop where
  spec : ClassifySpec t r
  inhabited : r.tables.Inhabited
  keeps : t.Keeps r.tables
  numbered : t.dtIdx.get? (h.tree item.tree) ≠ none ∧ r.tables.seqsIdx = t.seqsIdx ∨
    t.dtIdx.get? (h.tree item.tree) = none ∧ ∃ seqs, read item = some seqs ∧
      r.tables.seqsIdx = (t.seqsIdx.number (h.seqs seqs)).1

theorem classifyNew_frame (hin : t.Inhabited) {seqs : List (List Entry)}
    (hr : classifyNew h nLines t item seqs = some r) :
    r.tables.Inhabited ∧ t.Keeps r.tables ∧
      r.tables.seqsIdx = (t.seqsIdx.number (h.seqs seqs)).1 := by
  simp only [classifyNew] at hr
  split at hr
  · obtain rfl := Option.some.inj hr
    exact ⟨hin, ⟨fun _ _ hk => hk, fun _ hc => hc⟩, rfl⟩
  · rename_i hunmeasured
    obtain ⟨measured, hm, rfl⟩ := Option.map_eq_some_iff.mp hr
    obtain ⟨hin', hseqs', hdt, hkeys⟩ :=
      measure_frame (t := (registerTree h t item.tree seqs).1) hin hm
    refine ⟨hin', ⟨fun k c hk => ?_, hkeys⟩, hseqs'⟩
    -- the sequences that are measured lay in no cluster before
    rw [hdt, Map.get?_set_of_ne]
    · exact hk
    · rintro rfl
      have hk' : (registerTree h t item.tree seqs).1.uniqueDt.get?
        (registerTree h t item.tree seqs).2 = some c := hk
      rw [hunmeasured] at hk'
      cases hk'

theorem classifyBy_returns (hok : t.Ok) (hin : t.Inhabited) (nLines : ℕ)
    (hread : t.dtIdx.get? (h.tree item.tree) = none → ∃ seqs, read item = some seqs) :
    ∃ r, classifyBy h read nLines t item = some r ∧ Classifies h read t item r := by
  rw [classifyBy]
  cases hk : t.dtIdx.get? (h.tree item.tree) with
  | some dtKey =>
    obtain ⟨r, hr, hspec⟩ := classifyKnown_spec hok hk
    have htables : r.tables = t := by
      simp only [classifyKnown, Option.bind_eq_bind, Option.pure_def] at hr
      obtain ⟨_, -, hr⟩ := Option.bind_eq_some_iff.mp hr
      obtain ⟨_, -, hr⟩ := Option.bind_eq_some_iff.mp hr
      rw [← Option.some.inj hr]
    exact ⟨r, hr, hspec, by rwa [htables], by rw [htables]; exact .refl t,
      Or.inl ⟨by simp [hk], by rw [htables]⟩⟩
  | none =>
    obtain ⟨seqs, hseqs⟩ := hread hk
    obtain ⟨r, hr, hspec⟩ := classifyNew_spec h nLines hok hk seqs
    obtain ⟨hin', hkeeps, hnumber⟩ := classifyNew_frame hin hr
    exact ⟨r, by rw [hseqs]; exact hr, hspec, hin', hkeeps, Or.inr ⟨hk, seqs, hseqs, hnumber⟩⟩

end OneInput

def SeqsFiles.Keeps (files files' : SeqsFiles) : Prop :=
  ∀ k seqs, files.get? k = some seqs → files'.get? k = some seqs

/-- The files are those of the sequence sets numbered so far, each read off one of the inputs. -/
structure FilesReadBy (read : SequenceReader) (inputs : List CsvInput) (t : ClusterTables)
    (files : SeqsFiles) : Prop where
  tables : t.Ok
  inhabited : t.Inhabited
  written : ∀ k, k ∈ files.keys ↔ k < t.seqsIdx.size
  read : ∀ k seqs, files.get? k = some seqs → ∃ item ∈ inputs, read item = some seqs

section Files

variable {h : Hashes} {read : SequenceReader} {inputs : List CsvInput} {nLines : ℕ}
  {t : ClusterTables} {files : SeqsFiles}

theorem FilesReadBy.empty (read : SequenceReader) :
    FilesReadBy read [] ClusterTables.empty Map.empty where
  tables := empty_ok
  inhabited := by
    intro c cluster hc
    cases hc
  written := by simp [ClusterTables.empty]
  read := by
    intro k seqs hk
    cases hk

theorem FilesReadBy.mono (hfiles : FilesReadBy read inputs t files) {more : List CsvInput}
    (hsub : ∀ item ∈ inputs, item ∈ more) : FilesReadBy read more t files :=
  ⟨hfiles.tables, hfiles.inhabited, hfiles.written, fun k seqs hk => by
    obtain ⟨item, hitem, hrun⟩ := hfiles.read k seqs hk
    exact ⟨item, hsub item hitem, hrun⟩⟩

/-- The number that a set is written under is the one it gets. -/
theorem writeSeqsBy_spec (hfiles : FilesReadBy read inputs t files) {item : CsvInput}
    {r : Classified} (hr : Classifies h read t item r) :
    ∃ files', writeSeqsBy h read t item files = some files' ∧ files.Keeps files' ∧
      (∀ k, k ∈ files'.keys ↔ k < r.tables.seqsIdx.size) ∧
      ∀ k seqs, files'.get? k = some seqs → ∃ item' ∈ inputs ++ [item], read item' = some seqs := by
  have hold : ∀ k seqs, files.get? k = some seqs → ∃ item' ∈ inputs ++ [item],
      read item' = some seqs := (hfiles.mono fun _ hin => List.mem_append_left [item] hin).read
  rcases hr.numbered with ⟨hknown, hidx⟩ | ⟨hnew, seqs, hseqs, hidx⟩
  · obtain ⟨dtKey, hdt⟩ := Option.ne_none_iff_exists'.mp hknown
    exact ⟨files, by rw [writeSeqsBy, hdt], fun _ _ hk => hk, by rw [hidx]; exact hfiles.written, hold⟩
  · rw [hidx, Map.number]
    cases hid : t.seqsIdx.get? (h.seqs seqs) with
    | some k =>
      exact ⟨files, by simp [writeSeqsBy, hnew, hseqs, hid], fun _ _ hk => hk, hfiles.written, hold⟩
    | none =>
      have hfresh : h.seqs seqs ∉ t.seqsIdx.keys := (Map.get?_eq_none_iff _ _).mp hid
      refine ⟨files.set t.seqsIdx.size seqs, by simp [writeSeqsBy, hnew, hseqs, hid],
        fun k old hk => ?_, fun k => ?_, fun k new hk => ?_⟩
      · rw [Map.get?_set_of_ne]
        · exact hk
        · rintro rfl
          exact Nat.lt_irrefl _ ((hfiles.written _).mp (Map.mem_keys_of_get? hk))
      · simp only
        rw [Map.mem_keys_set, hfiles.written, Map.size_set_fresh _ _ _ hfresh]
        omega
      · rw [Map.get?_set] at hk
        split_ifs at hk with he
        · exact ⟨item, by simp, (Option.some.inj hk) ▸ hseqs⟩
        · exact hold k new hk

structure CsvReads (read : SequenceReader) (inputs : List CsvInput) (t₀ : ClusterTables)
    (files₀ : SeqsFiles) (done : List CsvInput) (acc : CsvState × SeqsFiles) : Prop where
  files : FilesReadBy read (inputs ++ done) acc.1.tables acc.2
  keeps : t₀.Keeps acc.1.tables
  keepsFiles : files₀.Keeps acc.2
  updated : ∀ c ∈ acc.1.updatedCovs, c ∈ acc.1.tables.totalClusters.keys

/-- Step lemma: an input whose tree can be read, or was read before. -/
theorem CsvReads.step {done : List CsvInput} {acc : CsvState × SeqsFiles}
    (hacc : CsvReads read inputs t files done acc) (nLines : ℕ) (item : CsvInput × ℕ)
    (hread : acc.1.tables.dtIdx.get? (h.tree item.1.tree) = none → ∃ seqs, read item.1 = some seqs) :
    ∃ acc', csvInputBy h read nLines acc item = some acc' ∧
      CsvReads read inputs t files (done ++ [item.1]) acc' := by
  obtain ⟨r, hr, hclass⟩ := classifyBy_returns hacc.files.tables hacc.files.inhabited nLines hread
  obtain ⟨files', hfiles, hkeepsFiles, hwritten, hfrom⟩ := writeSeqsBy_spec hacc.files hclass
  obtain ⟨counted, hcount, hok, -⟩ := countInput_spec hclass.spec.ok hclass.spec.cluster
  obtain ⟨hin, hkeeps, hidx⟩ := countInput_frame hclass.inhabited hcount
  refine ⟨(⟨counted, insert r.covKey acc.1.updatedCovs,
      if r.copied then acc.1.copies ++ [(item.2, item.2)] else acc.1.copies⟩, files'),
    by simp only [csvInputBy, hfiles, hr, hcount, Option.bind_eq_bind, Option.bind_some,
      Option.pure_def], ⟨hok, hin, ?_, ?_⟩, (hacc.keeps.trans hclass.keeps).trans hkeeps,
    fun k seqs hk => hkeepsFiles k seqs (hacc.keepsFiles k seqs hk), fun c hc => ?_⟩
  · simp only
    rw [hidx]
    exact hwritten
  · rw [← List.append_assoc]
    exact hfrom
  · rcases Finset.mem_insert.mp hc with rfl | hc
    · obtain ⟨cluster, hcluster, -⟩ :=
        (hclass.spec.ok.clusters_mem r.covKey r.seqsKey).mpr hclass.spec.cluster
      exact hkeeps.clusters _ (Map.mem_keys_of_get? hcluster)
    · exact hkeeps.clusters c (hclass.keeps.clusters c (hacc.updated c hc))

theorem CsvReads.initial (hfiles : FilesReadBy read inputs t files) :
    CsvReads read inputs t files [] (⟨t, ∅, []⟩, files) :=
  ⟨by rwa [List.append_nil], .refl t, fun _ _ hk => hk, by simp⟩

theorem exists_read_of_csvInputBy {acc acc' : CsvState × SeqsFiles} {item : CsvInput × ℕ}
    (hrun : csvInputBy h read nLines acc item = some acc')
    (hnew : acc.1.tables.dtIdx.get? (h.tree item.1.tree) = none) :
    ∃ seqs, read item.1 = some seqs := by
  simp only [csvInputBy, writeSeqsBy, hnew, Option.bind_eq_bind] at hrun
  obtain ⟨_, hfiles, -⟩ := Option.bind_eq_some_iff.mp hrun
  obtain ⟨seqs, hseqs, -⟩ := Option.map_eq_some_iff.mp hfiles
  exact ⟨seqs, hseqs⟩

theorem zipIdx_map_fst_append {α : Type} (done : List (α × ℕ)) (x : α × ℕ) :
    (done ++ [x]).map Prod.fst = done.map Prod.fst ++ [x.1] := by
  rw [List.map_append, List.map_singleton]

theorem createCsvBy_spec (hfiles : FilesReadBy read inputs t files) {batch : List CsvInput}
    {acc : CsvState × SeqsFiles} (hrun : createCsvBy h read nLines t files batch = some acc) :
    CsvReads read inputs t files batch acc := by
  have key := foldlM_invariant (f := csvInputBy h read nLines)
    (fun done acc => CsvReads read inputs t files (done.map Prod.fst) acc)
    (fun done item acc acc' _ hacc hstep => by
      obtain ⟨acc'', hacc'', hok⟩ := hacc.step nLines item (exists_read_of_csvInputBy hstep)
      obtain rfl := Option.some.inj (hstep.symm.trans hacc'')
      rwa [zipIdx_map_fst_append]) (.initial hfiles) hrun
  rwa [List.zipIdx_map_fst] at key

theorem createCsvBy_returns (hfiles : FilesReadBy read inputs t files) (nLines : ℕ)
    {batch : List CsvInput} (hread : ∀ item ∈ batch, ∃ seqs, read item = some seqs) :
    ∃ acc, createCsvBy h read nLines t files batch = some acc := by
  obtain ⟨acc, hrun, -⟩ := foldlM_returns (f := csvInputBy h read nLines)
    (fun done acc => CsvReads read inputs t files (done.map Prod.fst) acc) batch.zipIdx
    (fun done item acc hitem hacc => by
      have hmem := List.mem_of_getElem? (List.mem_zipIdx_iff_getElem?.mp hitem)
      obtain ⟨acc', hacc', hok⟩ := hacc.step nLines item fun _ => hread item.1 hmem
      exact ⟨acc', hacc', by rwa [zipIdx_map_fst_append]⟩) (.initial hfiles)
  exact ⟨acc, hrun⟩

abbrev FilesOk (env : Env) : List CsvInput → ClusterTables → SeqsFiles → Prop :=
  FilesReadBy (collapsedReader env.grammar env.fuel)

theorem createCsvFiles_spec {env : Env} (hfiles : FilesOk env inputs t files)
    {batch : List CsvInput} {acc : CsvState × SeqsFiles}
    (hrun : createCsvFiles env.hashes env.grammar env.fuel nLines t files batch = some acc) :
    CsvReads (collapsedReader env.grammar env.fuel) inputs t files batch acc := by
  rw [createCsvFiles_eq] at hrun
  exact createCsvBy_spec hfiles hrun

theorem createCsvFiles_returns {env : Env} (hfiles : FilesOk env inputs t files) (nLines : ℕ)
    {batch : List CsvInput} (hread : ∀ item ∈ batch,
      ∃ seqs, dtToSequences env.grammar item.order item.tree env.fuel = some seqs) :
    ∃ acc, createCsvFiles env.hashes env.grammar env.fuel nLines t files batch = some acc := by
  simp only [createCsvFiles_eq]
  exact createCsvBy_returns hfiles nLines hread

end Files

end RSFuzz
