import RSFuzz.FoundationOptionFold
import RSFuzz.SequenceExtraction

set_option autoImplicit false

/-!
# Clusters of inputs

`create_csv` of `main/generateRS.py`: inputs with the same sequences are counted
together, and sequence sets with the same coverage form a cluster. A tree seen
before is looked up, new sequences are measured. `none` stands for an exception.
-/
namespace RSFuzz
open OrderedMap OptionFold

/-- `compute_tree_hash`, `hash` of the tuple of sequences, `compute_coverage_hash`. -/
structure Hashes where
  tree : Tree → ℕ
  seqs : List (List Entry) → ℤ
  cov : List Bool → ℤ

/-- One input file: its tree, the order in which the set of its sequences is iterated, and what
    `get_1input_cov` returns for it. -/
structure CsvInput where
  tree : Tree
  order : IterationOrder (List Entry)
  cov : List Bool

structure ClusterTables where
  dtIdx : Map ℕ ℕ
  seqsIdx : Map ℤ ℕ
  covIdx : Map ℤ ℕ
  coverageList : List (List Bool)
  uniqueSeqs : Map ℕ ℕ
  uniqueDt : Map ℕ ℕ
  totalClusters : Map ℕ (Map ℕ ℕ)

def ClusterTables.empty : ClusterTables :=
  ⟨Map.empty, Map.empty, Map.empty, [], Map.empty, Map.empty, Map.empty⟩

def registerTree (h : Hashes) (t : ClusterTables) (tree : Tree) (seqs : List (List Entry)) :
    ClusterTables × ℕ :=
  let numbered := t.seqsIdx.number (h.seqs seqs)
  ({ t with
      dtIdx := t.dtIdx.set (h.tree tree) t.dtIdx.size
      seqsIdx := numbered.1
      uniqueSeqs := t.uniqueSeqs.set t.dtIdx.size numbered.2 }, numbered.2)

def registerCoverage (h : Hashes) (t : ClusterTables) (tmpCov : List Bool) : ClusterTables :=
  if (t.covIdx.get? (h.cov tmpCov)).isSome then t
  else { t with
    totalClusters := t.totalClusters.set t.covIdx.size Map.empty
    covIdx := t.covIdx.set (h.cov tmpCov) t.covIdx.size
    coverageList := t.coverageList ++ [tmpCov] }

def joinCluster (t : ClusterTables) (seqsKey covKey : ℕ) : Option ClusterTables :=
  (t.totalClusters.get? covKey).map fun cluster =>
    { t with
      uniqueDt := t.uniqueDt.set seqsKey covKey
      totalClusters := t.totalClusters.set covKey (cluster.set seqsKey 0) }

/-- The coverage of an input with new sequences; all lines are uncovered where it is empty. -/
def measure (h : Hashes) (nLines : ℕ) (t : ClusterTables) (seqsKey : ℕ) (cov : List Bool) :
    Option (ClusterTables × ℕ) := do
  let tmpCov := if cov.length = 0 then List.replicate nLines false else cov
  let registered := registerCoverage h t tmpCov
  let covKey ← registered.covIdx.get? (h.cov tmpCov)
  let joined ← joinCluster registered seqsKey covKey
  return (joined, covKey)

/-- `seqs_key`, `cov_key`, and whether the input is copied to the error directory. -/
structure Classified where
  tables : ClusterTables
  seqsKey : ℕ
  covKey : ℕ
  copied : Bool

def classifyKnown (t : ClusterTables) (dtKey : ℕ) : Option Classified := do
  let seqsKey ← t.uniqueSeqs.get? dtKey
  let covKey ← t.uniqueDt.get? seqsKey
  return ⟨t, seqsKey, covKey, false⟩

def classifyNew (h : Hashes) (nLines : ℕ) (t : ClusterTables) (item : CsvInput)
    (seqs : List (List Entry)) : Option Classified :=
  let registered := registerTree h t item.tree seqs
  match registered.1.uniqueDt.get? registered.2 with
  | some covKey => some ⟨registered.1, registered.2, covKey, false⟩
  | none => (measure h nLines registered.1 registered.2 item.cov).map fun measured =>
      ⟨measured.1, registered.2, measured.2, item.cov.length = 0⟩

def classify (h : Hashes) (G : Grammar) (fuel nLines : ℕ) (t : ClusterTables) (item : CsvInput) :
    Option Classified :=
  match t.dtIdx.get? (h.tree item.tree) with
  | some dtKey => classifyKnown t dtKey
  | none => (dtToSequences G item.order item.tree fuel).bind (classifyNew h nLines t item)

def countInput (t : ClusterTables) (seqsKey covKey : ℕ) : Option ClusterTables := do
  let cluster ← t.totalClusters.get? covKey
  let n ← cluster.get? seqsKey
  return { t with totalClusters := t.totalClusters.set covKey (cluster.set seqsKey (n + 1)) }

structure CsvState where
  tables : ClusterTables
  updatedCovs : Finset ℕ
  copies : List (ℕ × ℕ)

def csvInput (h : Hashes) (G : Grammar) (fuel nLines : ℕ) (st : CsvState) (item : CsvInput × ℕ) :
    Option CsvState := do
  let r ← classify h G fuel nLines st.tables item.1
  let t ← countInput r.tables r.seqsKey r.covKey
  return ⟨t, insert r.covKey st.updatedCovs,
    if r.copied then st.copies ++ [(item.2, item.2)] else st.copies⟩

def createCsv (h : Hashes) (G : Grammar) (fuel nLines : ℕ) (t : ClusterTables)
    (batch : List CsvInput) : Option CsvState :=
  batch.zipIdx.foldlM (csvInput h G fuel nLines) ⟨t, ∅, []⟩

namespace ClusterTables

/-- The tables fit together; of the sequence sets, the first `measured` lie in a cluster. -/
structure OkUpTo (t : ClusterTables) (measured : ℕ) : Prop where
  dtNumbered : t.dtIdx.Numbered
  seqsNumbered : t.seqsIdx.Numbered
  covNumbered : t.covIdx.Numbered
  uniqueSeqs_keys : ∀ k, k ∈ t.uniqueSeqs.keys ↔ k < t.dtIdx.size
  uniqueSeqs_lt : ∀ k s, t.uniqueSeqs.get? k = some s → s < t.seqsIdx.size
  uniqueDt_keys : ∀ s, s ∈ t.uniqueDt.keys ↔ s < measured
  uniqueDt_lt : ∀ s c, t.uniqueDt.get? s = some c → c < t.covIdx.size
  clusters_keys : ∀ c, c ∈ t.totalClusters.keys ↔ c < t.covIdx.size
  clusters_mem : ∀ c s, (∃ cluster, t.totalClusters.get? c = some cluster ∧ s ∈ cluster.keys) ↔
    t.uniqueDt.get? s = some c

abbrev Ok (t : ClusterTables) : Prop := t.OkUpTo t.seqsIdx.size

theorem empty_ok : empty.Ok := by
  constructor <;> simp [empty, Map.numbered_empty]

def clusterTotal (t : ClusterTables) (c : ℕ) : ℕ := ((t.totalClusters.get? c).map Map.total).getD 0

def grandTotal (t : ClusterTables) : ℕ := (t.totalClusters.values.map Map.total).sum

def SameTotals (t t' : ClusterTables) : Prop :=
  (∀ c, t'.clusterTotal c = t.clusterTotal c) ∧ t'.grandTotal = t.grandTotal

theorem SameTotals.refl (t : ClusterTables) : SameTotals t t := ⟨fun _ => rfl, rfl⟩

theorem SameTotals.trans {t u v : ClusterTables} (h : SameTotals t u) (h' : SameTotals u v) :
    SameTotals t v :=
  ⟨fun c => (h'.1 c).trans (h.1 c), h'.2.trans h.2⟩

theorem sameTotals_of_eq {t t' : ClusterTables} (h : t'.totalClusters = t.totalClusters) :
    SameTotals t t' := by
  simp [SameTotals, clusterTotal, grandTotal, h]

theorem totals_set_cluster {t : ClusterTables} (t' : ClusterTables) {c : ℕ} {cluster cluster' : Map ℕ ℕ}
    (hget : t.totalClusters.get? c = some cluster)
    (hset : t'.totalClusters = t.totalClusters.set c cluster') {k : ℕ}
    (htotal : cluster'.total = cluster.total + k) :
    (∀ c', t'.clusterTotal c' = t.clusterTotal c' + if c' = c then k else 0) ∧
      t'.grandTotal = t.grandTotal + k := by
  constructor
  · intro c'
    rw [clusterTotal, clusterTotal, hset, Map.get?_set]
    by_cases hc : c' = c
    · simp [hc, hget, htotal]
    · simp [hc]
  · have := Map.sum_values_set t.totalClusters Map.total hget cluster'
    rw [grandTotal, grandTotal, hset]
    omega

variable {t : ClusterTables} {measured : ℕ}

theorem Ok.existsUnique_cluster (h : t.Ok) {s : ℕ} (hs : s < t.seqsIdx.size) :
    ∃! c, ∃ cluster, t.totalClusters.get? c = some cluster ∧ s ∈ cluster.keys := by
  obtain ⟨c, hc⟩ := Map.exists_get? ((h.uniqueDt_keys s).mpr hs)
  refine ⟨c, (h.clusters_mem c s).mpr hc, fun c' hc' => ?_⟩
  exact Option.some.inj (((h.clusters_mem c' s).mp hc').symm.trans hc)

theorem registerTree_spec (h : Hashes) (hok : t.Ok) {tree : Tree} (seqs : List (List Entry))
    (hnew : t.dtIdx.get? (h.tree tree) = none) :
    (registerTree h t tree seqs).1.OkUpTo t.seqsIdx.size ∧
      (registerTree h t tree seqs).2 < (registerTree h t tree seqs).1.seqsIdx.size ∧
      ((registerTree h t tree seqs).1.seqsIdx.size = t.seqsIdx.size ∨
        (registerTree h t tree seqs).1.seqsIdx.size = t.seqsIdx.size + 1 ∧
          (registerTree h t tree seqs).2 = t.seqsIdx.size) := by
  have hfresh := (Map.get?_eq_none_iff _ _).mp hnew
  obtain ⟨hnum, hlt, hsize⟩ := hok.seqsNumbered.number (h.seqs seqs)
  have hdt := Map.size_set_fresh t.dtIdx (h.tree tree) t.dtIdx.size hfresh
  refine ⟨⟨hok.dtNumbered.set_fresh hfresh, hnum, hok.covNumbered, ?_, ?_, hok.uniqueDt_keys,
    hok.uniqueDt_lt, hok.clusters_keys, hok.clusters_mem⟩, hlt, hsize⟩
  · intro k
    simp only [registerTree]
    rw [Map.mem_keys_set, hok.uniqueSeqs_keys, hdt]
    omega
  · intro k s hk
    simp only [registerTree] at hk ⊢
    rw [Map.get?_set] at hk
    split_ifs at hk with he
    · obtain rfl := Option.some.inj hk
      exact hlt
    · have := hok.uniqueSeqs_lt k s hk
      omega

theorem registerCoverage_spec (h : Hashes) (hok : t.OkUpTo measured) (tmpCov : List Bool) :
    (registerCoverage h t tmpCov).OkUpTo measured ∧
      (∃ covKey, (registerCoverage h t tmpCov).covIdx.get? (h.cov tmpCov) = some covKey) ∧
      (registerCoverage h t tmpCov).seqsIdx = t.seqsIdx ∧
      SameTotals t (registerCoverage h t tmpCov) := by
  unfold registerCoverage
  split_ifs with hknown
  · exact ⟨hok, Option.isSome_iff_exists.mp hknown, rfl, .refl t⟩
  · have hfresh : h.cov tmpCov ∉ t.covIdx.keys := by rwa [Map.mem_keys_iff]
    have hsize := Map.size_set_fresh t.covIdx (h.cov tmpCov) t.covIdx.size hfresh
    have hnone : t.covIdx.size ∉ t.totalClusters.keys := fun hin =>
      Nat.lt_irrefl _ ((hok.clusters_keys _).mp hin)
    refine ⟨⟨hok.dtNumbered, hok.seqsNumbered, hok.covNumbered.set_fresh hfresh,
      hok.uniqueSeqs_keys, hok.uniqueSeqs_lt, hok.uniqueDt_keys, ?_, ?_, ?_⟩,
      ⟨_, Map.get?_set_self _ _ _⟩, rfl, ?_, ?_⟩
    · intro s c hs
      have := hok.uniqueDt_lt s c hs
      simp only [hsize]
      omega
    · intro c
      simp only [hsize]
      rw [Map.mem_keys_set, hok.clusters_keys]
      omega
    · intro c s
      rw [← hok.clusters_mem]
      simp only [Map.get?_set]
      by_cases hc : c = t.covIdx.size
      · subst hc
        simp [(Map.get?_eq_none_iff _ _).mpr hnone]
      · simp [hc]
    · intro c
      simp only [clusterTotal, Map.get?_set]
      by_cases hc : c = t.covIdx.size
      · subst hc
        simp [(Map.get?_eq_none_iff _ _).mpr hnone]
      · simp [hc]
    · simp [grandTotal, Map.values_set_fresh _ _ _ hnone]

theorem joinCluster_spec (hok : t.OkUpTo measured) {covKey : ℕ} (hcov : covKey < t.covIdx.size) :
    ∃ t', joinCluster t measured covKey = some t' ∧ t'.OkUpTo (measured + 1) ∧
      t'.uniqueDt.get? measured = some covKey ∧ t'.seqsIdx = t.seqsIdx ∧ SameTotals t t' := by
  obtain ⟨cluster, hcluster⟩ := Map.exists_get? ((hok.clusters_keys covKey).mpr hcov)
  have hnew : t.uniqueDt.get? measured = none := by
    rw [Map.get?_eq_none_iff, hok.uniqueDt_keys]
    exact Nat.lt_irrefl measured
  have hfresh : measured ∉ cluster.keys := by
    intro hin
    have := (hok.clusters_mem covKey measured).mp ⟨cluster, hcluster, hin⟩
    rw [hnew] at this
    cases this
  refine ⟨{ t with
      uniqueDt := t.uniqueDt.set measured covKey
      totalClusters := t.totalClusters.set covKey (cluster.set measured 0) },
    by rw [joinCluster, hcluster]; rfl, ⟨hok.dtNumbered, hok.seqsNumbered, hok.covNumbered,
    hok.uniqueSeqs_keys, hok.uniqueSeqs_lt, ?_, ?_, ?_, ?_⟩, Map.get?_set_self _ _ _, rfl, ?_⟩
  · intro s
    simp only
    rw [Map.mem_keys_set, hok.uniqueDt_keys]
    omega
  · intro s c hs
    simp only [Map.get?_set] at hs
    split_ifs at hs with he
    · rwa [← Option.some.inj hs]
    · exact hok.uniqueDt_lt s c hs
  · intro c
    simp only
    rw [Map.keys_set_of_mem _ hcluster, hok.clusters_keys]
  · intro c s
    simp only [Map.get?_set]
    by_cases hs : s = measured
    · subst hs
      by_cases hc : c = covKey
      · subst hc
        simp [Map.mem_keys_set]
      · have hno := hok.clusters_mem c s
        rw [hnew] at hno
        simp only [hc, ↓reduceIte, Option.some.injEq]
        exact ⟨fun h => absurd (hno.mp h) (by simp), fun h => absurd h.symm hc⟩
    · rw [if_neg hs, ← hok.clusters_mem]
      by_cases hc : c = covKey
      · subst hc
        simp [Map.mem_keys_set, hs, hcluster]
      · simp [hc]
  · obtain ⟨hc, hg⟩ := totals_set_cluster { t with
        uniqueDt := t.uniqueDt.set measured covKey
        totalClusters := t.totalClusters.set covKey (cluster.set measured 0) } hcluster rfl
      (Map.total_set_fresh cluster hfresh 0)
    exact ⟨fun c => by rw [hc]; simp, hg⟩

theorem measure_spec (h : Hashes) (nLines : ℕ) (hok : t.OkUpTo measured) (cov : List Bool) :
    ∃ r, measure h nLines t measured cov = some r ∧ r.1.OkUpTo (measured + 1) ∧
      r.1.uniqueDt.get? measured = some r.2 ∧ r.1.seqsIdx = t.seqsIdx ∧ SameTotals t r.1 := by
  obtain ⟨hok', ⟨covKey, hcov⟩, hseqs, hsame⟩ := registerCoverage_spec h hok
    (if cov.length = 0 then List.replicate nLines false else cov)
  obtain ⟨t', hjoin, hok'', hget, hseqs', hsame'⟩ :=
    joinCluster_spec hok' (hok'.covNumbered.lt_size hcov)
  refine ⟨(t', covKey), ?_, hok'', hget, hseqs'.trans hseqs, hsame.trans hsame'⟩
  simp only [measure, hcov, hjoin, Option.bind_eq_bind, Option.bind_some, Option.pure_def]

/-- What classifying an input guarantees: no count has changed, and the sequences lie in the
    cluster that is returned. -/
structure ClassifySpec (t : ClusterTables) (r : Classified) : Prop where
  ok : r.tables.Ok
  cluster : r.tables.uniqueDt.get? r.seqsKey = some r.covKey
  same : SameTotals t r.tables

theorem classifyKnown_spec (hok : t.Ok) {k dtKey : ℕ} (hk : t.dtIdx.get? k = some dtKey) :
    ∃ r, classifyKnown t dtKey = some r ∧ ClassifySpec t r := by
  obtain ⟨s, hs⟩ := Map.exists_get? ((hok.uniqueSeqs_keys dtKey).mpr (hok.dtNumbered.lt_size hk))
  obtain ⟨c, hc⟩ := Map.exists_get? ((hok.uniqueDt_keys s).mpr (hok.uniqueSeqs_lt dtKey s hs))
  exact ⟨⟨t, s, c, false⟩, by simp [classifyKnown, hs, hc], hok, hc, .refl t⟩

theorem classifyNew_spec (h : Hashes) (nLines : ℕ) (hok : t.Ok) {item : CsvInput}
    (hnew : t.dtIdx.get? (h.tree item.tree) = none) (seqs : List (List Entry)) :
    ∃ r, classifyNew h nLines t item seqs = some r ∧ ClassifySpec t r := by
  obtain ⟨hok', hlt, hsize⟩ := registerTree_spec h hok seqs hnew
  have hsame : SameTotals t (registerTree h t item.tree seqs).1 := sameTotals_of_eq rfl
  have hdt : (registerTree h t item.tree seqs).1.uniqueDt = t.uniqueDt := rfl
  simp only [classifyNew]
  generalize registerTree h t item.tree seqs = registered at hok' hlt hsize hsame hdt ⊢
  cases hget : registered.1.uniqueDt.get? registered.2 with
  | some covKey =>
    refine ⟨_, rfl, ?_, hget, hsame⟩
    rcases hsize with hsize | ⟨-, hs⟩
    · rw [← hsize] at hok'
      exact hok'
    · have hin := Map.mem_keys_of_get? hget
      rw [hok'.uniqueDt_keys, hs] at hin
      exact absurd hin (Nat.lt_irrefl _)
  | none =>
    have hout := (Map.get?_eq_none_iff _ _).mp hget
    rw [hok'.uniqueDt_keys] at hout
    rcases hsize with hsize | ⟨hsize, hs⟩
    · omega
    · obtain ⟨r, hr, hok'', hget', hseqs, hsame'⟩ := measure_spec h nLines hok' item.cov
      refine ⟨⟨r.1, registered.2, r.2, item.cov.length = 0⟩, by rw [hs, hr]; rfl, ?_,
        by rw [hs]; exact hget', hsame.trans hsame'⟩
      rw [← hsize, ← hseqs] at hok''
      exact hok''

theorem classify_spec (h : Hashes) (G : Grammar) (fuel nLines : ℕ) (hok : t.Ok) (item : CsvInput)
    (hseqs : t.dtIdx.get? (h.tree item.tree) = none →
      ∃ seqs, dtToSequences G item.order item.tree fuel = some seqs) :
    ∃ r, classify h G fuel nLines t item = some r ∧ ClassifySpec t r := by
  rw [classify]
  cases hk : t.dtIdx.get? (h.tree item.tree) with
  | some dtKey => exact classifyKnown_spec hok hk
  | none =>
    obtain ⟨seqs, hs⟩ := hseqs hk
    obtain ⟨r, hr, hspec⟩ := classifyNew_spec h nLines hok hk seqs
    exact ⟨r, by rw [hs]; exact hr, hspec⟩

theorem countInput_spec (hok : t.Ok) {s c : ℕ} (hs : t.uniqueDt.get? s = some c) :
    ∃ t', countInput t s c = some t' ∧ t'.Ok ∧
      (∀ c', t'.clusterTotal c' = t.clusterTotal c' + if c' = c then 1 else 0) ∧
      t'.grandTotal = t.grandTotal + 1 := by
  obtain ⟨cluster, hcluster, hin⟩ := (hok.clusters_mem c s).mpr hs
  obtain ⟨n, hn⟩ := Map.exists_get? hin
  have hkeys : (cluster.set s (n + 1)).keys = cluster.keys := Map.keys_set_of_mem cluster hn _
  refine ⟨{ t with totalClusters := t.totalClusters.set c (cluster.set s (n + 1)) },
    by simp only [countInput, hcluster, hn, Option.bind_eq_bind, Option.bind_some, Option.pure_def],
    ⟨hok.dtNumbered, hok.seqsNumbered, hok.covNumbered, hok.uniqueSeqs_keys,
    hok.uniqueSeqs_lt, hok.uniqueDt_keys, hok.uniqueDt_lt, ?_, ?_⟩, ?_⟩
  · intro c'
    simp only
    rw [Map.keys_set_of_mem _ hcluster, hok.clusters_keys]
  · intro c' s'
    simp only
    rw [← hok.clusters_mem, Map.get?_set]
    by_cases hc : c' = c
    · subst hc
      simp [hkeys, hcluster]
    · simp [hc]
  · refine totals_set_cluster _ hcluster rfl ?_
    have := Map.total_set cluster hn (n + 1)
    omega

/-- After the first inputs of a call: which clusters have grown, and by how many inputs. -/
structure CallInvariant (t₀ : ClusterTables) (done : ℕ) (st : CsvState) : Prop where
  ok : st.tables.Ok
  grown : ∀ c, t₀.clusterTotal c ≤ st.tables.clusterTotal c ∧
    (c ∈ st.updatedCovs ↔ t₀.clusterTotal c < st.tables.clusterTotal c)
  count : st.tables.grandTotal = t₀.grandTotal + done
  copies : ∀ p ∈ st.copies, p.1 = p.2

theorem CallInvariant.initial (hok : t.Ok) : CallInvariant t 0 ⟨t, ∅, []⟩ :=
  ⟨hok, fun _ => ⟨Nat.le_refl _, by simp⟩, rfl, by simp⟩

theorem CallInvariant.step {h : Hashes} {G : Grammar} {fuel done : ℕ} {t₀ : ClusterTables}
    {st : CsvState} (hinv : CallInvariant t₀ done st) (nLines : ℕ) (item : CsvInput × ℕ)
    (hseqs : st.tables.dtIdx.get? (h.tree item.1.tree) = none →
      ∃ seqs, dtToSequences G item.1.order item.1.tree fuel = some seqs) :
    ∃ st', csvInput h G fuel nLines st item = some st' ∧ CallInvariant t₀ (done + 1) st' := by
  obtain ⟨r, hr, hok, hcluster, hsame, hsum⟩ := classify_spec h G fuel nLines hinv.ok item.1 hseqs
  obtain ⟨t', ht', hok', htotal, hgrand⟩ := countInput_spec hok hcluster
  refine ⟨⟨t', insert r.covKey st.updatedCovs,
      if r.copied then st.copies ++ [(item.2, item.2)] else st.copies⟩,
    by simp only [csvInput, hr, ht', Option.bind_eq_bind, Option.bind_some, Option.pure_def],
    hok', ?_, ?_, ?_⟩
  · intro c
    obtain ⟨hle, hiff⟩ := hinv.grown c
    have hc := htotal c
    rw [hsame] at hc
    simp only [Finset.mem_insert]
    by_cases he : c = r.covKey
    · rw [if_pos he] at hc
      refine ⟨by omega, fun _ => by omega, fun _ => Or.inl he⟩
    · rw [if_neg he] at hc
      simp only [he, false_or, hiff]
      omega
  · rw [hgrand, hsum, hinv.count, Nat.add_assoc]
  · intro p hp
    simp only at hp
    split_ifs at hp with hcopied
    · rcases List.mem_append.mp hp with hp | hp
      · exact hinv.copies p hp
      · rw [List.mem_singleton.mp hp]
    · exact hinv.copies p hp

theorem exists_sequences_of_csvInput {h : Hashes} {G : Grammar} {fuel nLines : ℕ} {st st' : CsvState}
    {item : CsvInput × ℕ} (hrun : csvInput h G fuel nLines st item = some st')
    (hnew : st.tables.dtIdx.get? (h.tree item.1.tree) = none) :
    ∃ seqs, dtToSequences G item.1.order item.1.tree fuel = some seqs := by
  simp only [csvInput, classify, hnew, Option.bind_eq_bind] at hrun
  obtain ⟨r, hr, -⟩ := Option.bind_eq_some_iff.mp hrun
  obtain ⟨seqs, hs, -⟩ := Option.bind_eq_some_iff.mp hr
  exact ⟨seqs, hs⟩

theorem createCsv_invariant {h : Hashes} {G : Grammar} {fuel nLines : ℕ} (hok : t.Ok)
    {batch : List CsvInput} {st : CsvState} (hrun : createCsv h G fuel nLines t batch = some st) :
    CallInvariant t batch.length st := by
  have key := foldlM_invariant (fun done st => CallInvariant t (List.length done) st)
    (fun done item st₀ st₁ _ hinv h₁ => by
      obtain ⟨st₁', h₁', hinv'⟩ := hinv.step nLines item (exists_sequences_of_csvInput h₁)
      obtain rfl := Option.some.inj (h₁.symm.trans h₁')
      rwa [List.length_append]) (.initial hok) hrun
  rwa [List.length_zipIdx] at key

theorem createCsv_returns (h : Hashes) (G : Grammar) (fuel nLines : ℕ) (hok : t.Ok)
    {batch : List CsvInput}
    (hseqs : ∀ item ∈ batch, ∃ seqs, dtToSequences G item.order item.tree fuel = some seqs) :
    ∃ st, createCsv h G fuel nLines t batch = some st := by
  obtain ⟨st, hrun, -⟩ := foldlM_returns (f := csvInput h G fuel nLines)
    (fun done st => CallInvariant t (List.length done) st) batch.zipIdx (fun done item st hitem hinv => by
      rw [List.length_append]
      have hmem := List.mem_of_getElem? (List.mem_zipIdx_iff_getElem?.mp hitem)
      exact hinv.step nLines item fun _ => hseqs item.1 hmem) (.initial hok)
  exact ⟨st, hrun⟩

/-- Tables after any number of calls that returned, with the number of inputs they counted. -/
inductive Reachable (h : Hashes) (G : Grammar) (fuel : ℕ) : ClusterTables → ℕ → Prop where
  | empty : Reachable h G fuel ClusterTables.empty 0
  | call {t : ClusterTables} {n nLines : ℕ} {batch : List CsvInput} {st : CsvState}
      (before : Reachable h G fuel t n) (hrun : createCsv h G fuel nLines t batch = some st) :
      Reachable h G fuel st.tables (n + batch.length)

theorem Reachable.ok_count {h : Hashes} {G : Grammar} {fuel n : ℕ}
    (hr : Reachable h G fuel t n) : t.Ok ∧ t.grandTotal = n := by
  induction hr with
  | empty => exact ⟨empty_ok, rfl⟩
  | call _ hrun ih =>
    have hinv := createCsv_invariant ih.1 hrun
    exact ⟨hinv.ok, by rw [hinv.count, ih.2]⟩

/-- The bookkeeping after any calls, what the next call returns, and that no lookup misses: a call
    fails only where a tree cannot be read. -/
theorem clusters_bookkeeping (h : Hashes) (G : Grammar) (fuel : ℕ) (t : ClusterTables) (n : ℕ)
    (hr : Reachable h G fuel t n) :
    t.Ok ∧ t.grandTotal = n ∧
    (∀ s < t.seqsIdx.size,
      ∃! c, ∃ cluster, t.totalClusters.get? c = some cluster ∧ s ∈ cluster.keys) ∧
    ∀ nLines batch,
      (∀ st, createCsv h G fuel nLines t batch = some st →
        ∀ c, c ∈ st.updatedCovs ↔ t.clusterTotal c < st.tables.clusterTotal c) ∧
      ((∀ item ∈ batch, ∃ seqs, dtToSequences G item.order item.tree fuel = some seqs) →
        ∃ st, createCsv h G fuel nLines t batch = some st) := by
  obtain ⟨hok, hcount⟩ := hr.ok_count
  refine ⟨hok, hcount, fun s hs => hok.existsUnique_cluster hs, fun nLines batch => ⟨?_, ?_⟩⟩
  · intro st hrun c
    exact ((createCsv_invariant hok hrun).grown c).2
  · exact createCsv_returns h G fuel nLines hok

def leafInput (cov : List Bool) : CsvInput where
  tree := [[⟨"value", .range 0 1, 0, none⟩], [⟨"'x'", .leaf, -1, some (0, 0)⟩]]
  order := IterationOrder.listed
  cov := cov

def leafGrammar : Grammar := ⟨[("value", [⟨["'x'"], 0, 1⟩, ⟨["'y'"], 1, 1⟩])], by decide⟩

def sampleHashes : Hashes := ⟨List.length, fun seqs => seqs.length, fun cov => cov.countP id⟩

theorem clusters_bookkeeping_sample :
    ∃ st, createCsv sampleHashes leafGrammar 9 2 empty [leafInput [true, false], leafInput []] =
        some st ∧ st.tables.Ok ∧ st.tables.grandTotal = 2 := by
  have hsome : (createCsv sampleHashes leafGrammar 9 2 empty
      [leafInput [true, false], leafInput []]).isSome = true := by decide +kernel
  obtain ⟨st, hst⟩ := Option.isSome_iff_exists.mp hsome
  have h := clusters_bookkeeping sampleHashes leafGrammar 9 st.tables 2 (.call .empty hst)
  exact ⟨st, hst, h.1, h.2.1⟩

end ClusterTables
end RSFuzz
