import RSFuzz.ClusterTables
import RSFuzz.FoundationStableSort
import RSFuzz.GeneratorValidity

set_option autoImplicit false

/-!
# When equal sets of sequences share a key

The tuple that `dt_to_sequences` returns is hashed as the key of a sequence set,
and it is sorted by length only. Equal sets give one tuple in every order of
iteration exactly if no two of their sequences have the same length.
-/
namespace RSFuzz
open OrderedMap StableSort
open scoped List

def collapsedSequences (G : Grammar) (tree : Tree) (fuel : ℕ) : Option (List (List Entry)) := do
  let sequences ← rawSequences G tree fuel
  let refined ← sequences.mapM BlockCollapse.collapse
  return refined.dedup

theorem dtToSequences_eq (G : Grammar) (order : IterationOrder (List Entry)) (tree : Tree)
    (fuel : ℕ) : dtToSequences G order tree fuel =
      (collapsedSequences G tree fuel).map fun c => byKey List.length (order.list c) := by
  rw [dtToSequences, collapsedSequences]
  cases rawSequences G tree fuel with
  | none => rfl
  | some sequences =>
    simp only [Option.bind_eq_bind, Option.bind_some]
    cases sequences.mapM BlockCollapse.collapse <;> rfl

theorem nodup_collapsedSequences {G : Grammar} {tree : Tree} {fuel : ℕ} {c : List (List Entry)}
    (h : collapsedSequences G tree fuel = some c) : c.Nodup := by
  obtain ⟨sequences, -, h⟩ := Option.bind_eq_some_iff.mp h
  obtain ⟨refined, -, h⟩ := Option.bind_eq_some_iff.mp h
  obtain rfl := Option.some.inj h
  exact List.nodup_dedup refined

section Keys

variable {h : Hashes} {G : Grammar} {fuel nLines : ℕ}

theorem get?_number_of_some {m : Map ℤ ℕ} {k : ℤ} {i : ℕ} (hk : m.get? k = some i) (k' : ℤ) :
    (m.number k').1.get? k = some i := by
  unfold Map.number
  cases hk' : m.get? k' with
  | some j => exact hk
  | none =>
    rw [Map.get?_set_of_ne _ _ _, hk]
    rintro rfl
    cases hk.symm.trans hk'

theorem get?_number_self (m : Map ℤ ℕ) (k : ℤ) :
    (m.number k).1.get? k = some (m.number k).2 := by
  unfold Map.number
  cases hk : m.get? k with
  | some i => exact hk
  | none => exact Map.get?_set_self _ _ _

theorem measure_seqsIdx {t : ClusterTables} {seqsKey : ℕ} {cov : List Bool} {r : ClusterTables × ℕ}
    (hr : measure h nLines t seqsKey cov = some r) : r.1.seqsIdx = t.seqsIdx := by
  simp only [measure, Option.bind_eq_bind, Option.pure_def] at hr
  obtain ⟨covKey, -, hr⟩ := Option.bind_eq_some_iff.mp hr
  obtain ⟨joined, hjoin, hr⟩ := Option.bind_eq_some_iff.mp hr
  obtain rfl := Option.some.inj hr
  obtain ⟨cluster, -, rfl⟩ := Option.map_eq_some_iff.mp hjoin
  change (registerCoverage h t _).seqsIdx = t.seqsIdx
  unfold registerCoverage
  split_ifs <;> rfl

theorem classifyNew_seqsIdx {t : ClusterTables} {item : CsvInput} {seqs : List (List Entry)}
    {r : Classified} (hr : classifyNew h nLines t item seqs = some r) :
    r.tables.seqsIdx = (t.seqsIdx.number (h.seqs seqs)).1 ∧
      r.seqsKey = (t.seqsIdx.number (h.seqs seqs)).2 := by
  simp only [classifyNew] at hr
  split at hr
  · obtain rfl := Option.some.inj hr
    exact ⟨rfl, rfl⟩
  · obtain ⟨measured, hm, rfl⟩ := Option.map_eq_some_iff.mp hr
    exact ⟨measure_seqsIdx hm, rfl⟩

theorem csvInput_counts {st st' : CsvState} {item : CsvInput × ℕ}
    (hrun : csvInput h G fuel nLines st item = some st') :
    ∃ r, classify h G fuel nLines st.tables item.1 = some r ∧
      countInput r.tables r.seqsKey r.covKey = some st'.tables := by
  simp only [csvInput, Option.bind_eq_bind, Option.pure_def] at hrun
  obtain ⟨r, hr, hrun⟩ := Option.bind_eq_some_iff.mp hrun
  obtain ⟨t, ht, hrun⟩ := Option.bind_eq_some_iff.mp hrun
  obtain rfl := Option.some.inj hrun
  exact ⟨r, hr, ht⟩

theorem countInput_seqsIdx {t t' : ClusterTables} {seqsKey covKey : ℕ}
    (hcount : countInput t seqsKey covKey = some t') : t'.seqsIdx = t.seqsIdx := by
  simp only [countInput, Option.bind_eq_bind, Option.pure_def] at hcount
  obtain ⟨cluster, -, hcount⟩ := Option.bind_eq_some_iff.mp hcount
  obtain ⟨n, -, hcount⟩ := Option.bind_eq_some_iff.mp hcount
  obtain rfl := Option.some.inj hcount
  rfl

theorem csvInput_keeps {st st' : CsvState} {item : CsvInput × ℕ}
    (hrun : csvInput h G fuel nLines st item = some st') {k : ℤ} {i : ℕ}
    (hk : st.tables.seqsIdx.get? k = some i) : st'.tables.seqsIdx.get? k = some i := by
  obtain ⟨r, hr, hcount⟩ := csvInput_counts hrun
  rw [countInput_seqsIdx hcount]
  rw [classify] at hr
  split at hr
  · simp only [classifyKnown, Option.bind_eq_bind, Option.pure_def] at hr
    obtain ⟨s, -, hr⟩ := Option.bind_eq_some_iff.mp hr
    obtain ⟨c, -, hr⟩ := Option.bind_eq_some_iff.mp hr
    obtain rfl := Option.some.inj hr
    exact hk
  · obtain ⟨seqs, -, hr⟩ := Option.bind_eq_some_iff.mp hr
    rw [(classifyNew_seqsIdx hr).1]
    exact get?_number_of_some hk _

theorem csvInput_ok {st st' : CsvState} {item : CsvInput × ℕ} (hok : st.tables.Ok)
    (hrun : csvInput h G fuel nLines st item = some st') : st'.tables.Ok := by
  obtain ⟨r, hr, hcount⟩ := csvInput_counts hrun
  obtain ⟨r', hr', hspec⟩ := ClusterTables.classify_spec h G fuel nLines hok item.1
    (ClusterTables.exists_sequences_of_csvInput hrun)
  obtain rfl := Option.some.inj (hr.symm.trans hr')
  obtain ⟨t, ht, hok', -, -⟩ := ClusterTables.countInput_spec hspec.ok hspec.cluster
  obtain rfl := Option.some.inj (hcount.symm.trans ht)
  exact hok'

variable (h G fuel nLines) in
/-- The tables after more inputs, in this call or in later ones. -/
inductive Later (t : ClusterTables) : ClusterTables → Prop where
  | same : Later t t
  | input {st st' : CsvState} {item : CsvInput × ℕ} (before : Later t st.tables)
      (hrun : csvInput h G fuel nLines st item = some st') : Later t st'.tables

theorem Later.keeps {t t' : ClusterTables} (hlater : Later h G fuel nLines t t') (hok : t.Ok)
    {k : ℤ} {i : ℕ} (hk : t.seqsIdx.get? k = some i) :
    t'.Ok ∧ t'.seqsIdx.get? k = some i := by
  induction hlater with
  | same => exact ⟨hok, hk⟩
  | input _ hrun ih => exact ⟨csvInput_ok ih.1 hrun, csvInput_keeps hrun ih.2⟩

/-- Nothing is measured for the second input: it gets the number of the first one, and the
    clusters stay as they are until it is counted. -/
def SharesKey (h : Hashes) (G : Grammar) (fuel nLines : ℕ) (item item' : CsvInput) : Prop :=
  ∀ st i st', st.tables.Ok → st.tables.dtIdx.get? (h.tree item.tree) = none →
    csvInput h G fuel nLines st (item, i) = some st' →
    ∃ r, classify h G fuel nLines st.tables item = some r ∧
      ∀ t, Later h G fuel nLines st'.tables t → t.dtIdx.get? (h.tree item'.tree) = none →
        ∃ r', classify h G fuel nLines t item' = some r' ∧ r'.seqsKey = r.seqsKey ∧
          r'.copied = false ∧ r'.tables.coverageList = t.coverageList ∧
          r'.tables.totalClusters = t.totalClusters

theorem sharesKey_of_eq {item item' : CsvInput}
    (heq : dtToSequences G item.order item.tree fuel = dtToSequences G item'.order item'.tree fuel) :
    SharesKey h G fuel nLines item item' := by
  intro st i st' hok hnew hrun
  obtain ⟨seqs, hseqs⟩ := ClusterTables.exists_sequences_of_csvInput hrun hnew
  obtain ⟨r, hr, hcount⟩ := csvInput_counts hrun
  refine ⟨r, hr, fun t hlater hnew' => ?_⟩
  rw [classify, hnew, hseqs] at hr
  obtain ⟨hidx, hkey⟩ := classifyNew_seqsIdx hr
  have hnumbered : st'.tables.seqsIdx.get? (h.seqs seqs) = some r.seqsKey := by
    rw [countInput_seqsIdx hcount, hidx, hkey, get?_number_self]
  obtain ⟨hok', hk⟩ := hlater.keeps (csvInput_ok hok hrun) hnumbered
  -- the tuple has a number, so it lies in a cluster already
  have hnum : t.seqsIdx.number (h.seqs seqs) = (t.seqsIdx, r.seqsKey) := by
    rw [Map.number, hk]
  obtain ⟨covKey, hcov⟩ := Map.exists_get? ((hok'.uniqueDt_keys r.seqsKey).mpr
    (hok'.seqsNumbered.lt_size hk))
  refine ⟨⟨(registerTree h t item'.tree seqs).1, r.seqsKey, covKey, false⟩, ?_, rfl, rfl, rfl, rfl⟩
  rw [classify, hnew', ← heq, hseqs]
  simp only [Option.bind_some, classifyNew, registerTree, hnum, hcov]

end Keys

/-- Two trees with one set of collapsed sequences: their tuples are equal for two orders exactly
    if the orders agree on sequences of one length, and for all orders, with one key and no
    second measurement, exactly if no two sequences have one length. -/
theorem dtToSequences_canonical_iff (G : Grammar) (fuel : ℕ) (tree tree' : Tree)
    (c c' : List (List Entry)) (hc : collapsedSequences G tree fuel = some c)
    (hc' : collapsedSequences G tree' fuel = some c') (hset : ∀ e, e ∈ c ↔ e ∈ c') :
    (∀ order order', dtToSequences G order tree fuel = dtToSequences G order' tree' fuel ↔
      ∀ a ∈ c, ∀ b ∈ c, a ≠ b → a.length = b.length →
        ([a, b] <+ order.list c ↔ [a, b] <+ order'.list c')) ∧
    ((∀ order order', dtToSequences G order tree fuel = dtToSequences G order' tree' fuel ∧
        ∀ h nLines cov cov', SharesKey h G fuel nLines ⟨tree, order, cov⟩ ⟨tree', order', cov'⟩) ↔
      ∀ a ∈ c, ∀ b ∈ c, a.length = b.length → a = b) := by
  have hperm : c ~ c' := (List.perm_ext_iff_of_nodup (nodup_collapsedSequences hc)
    (nodup_collapsedSequences hc')).mpr hset
  have htuple : ∀ order order', dtToSequences G order tree fuel = dtToSequences G order' tree' fuel ↔
      byKey List.length (order.list c) = byKey List.length (order'.list c') := by
    intro order order'
    rw [dtToSequences_eq, dtToSequences_eq, hc, hc', Option.map_some, Option.map_some,
      Option.some.injEq]
  refine ⟨fun order order' => ?_, ?_⟩
  · rw [htuple, byKey_eq_iff ((order.perm c).nodup_iff.mpr (nodup_collapsedSequences hc))
      ((order.perm c).trans (hperm.trans (order'.perm c').symm))]
    simp only [order.mem_list]
  · rw [← byKey_orders_iff (nodup_collapsedSequences hc) hperm]
    constructor
    · exact fun hall order order' => (htuple order order').mp (hall order order').1
    · intro hall order order'
      have heq := (htuple order order').mpr (hall order order')
      exact ⟨heq, fun h nLines cov cov' => sharesKey_of_eq heq⟩

def deeperTree : Option GenState :=
  InputGenerator.generateTree ⟨sampleGrammar, sampleGenerator.depthsDict, ⟨"list", 2⟩, Tables.empty⟩
    ⟨fun _ _ => 0, fun _ => 0⟩ 4

def listSequences : List (List Entry) := [[.sym "list", .dn 0], [.sym "list", .dn 1]]

theorem sampleTrees_collapsed : ∃ st st', sampleTree = some st ∧ deeperTree = some st' ∧
    collapsedSequences sampleGrammar st.tree 20 = some listSequences ∧
    collapsedSequences sampleGrammar st'.tree 20 = some listSequences := by
  have hrun : sampleTree.bind (fun st => collapsedSequences sampleGrammar st.tree 20) =
      some listSequences := by decide +kernel
  have hrun' : deeperTree.bind (fun st => collapsedSequences sampleGrammar st.tree 20) =
      some listSequences := by decide +kernel
  obtain ⟨st, hst, hc⟩ := Option.bind_eq_some_iff.mp hrun
  obtain ⟨st', hst', hc'⟩ := Option.bind_eq_some_iff.mp hrun'
  exact ⟨st, st', hst, hst', hc, hc'⟩

/-- Two trees with the same two sequences, both of length two: the tuples depend on the orders. -/
theorem dtToSequences_depends_on_order : ∃ st st', sampleTree = some st ∧ deeperTree = some st' ∧
    (collapsedSequences sampleGrammar st.tree 20 = some listSequences ∧
      collapsedSequences sampleGrammar st'.tree 20 = some listSequences) ∧
    dtToSequences sampleGrammar (front [.sym "list", .dn 0]) st.tree 20 ≠
      dtToSequences sampleGrammar (front [.sym "list", .dn 1]) st'.tree 20 := by
  obtain ⟨st, st', hst, hst', hc, hc'⟩ := sampleTrees_collapsed
  refine ⟨st, st', hst, hst', ⟨hc, hc'⟩, ?_⟩
  rw [dtToSequences_eq, dtToSequences_eq, hc, hc']
  decide

theorem dtToSequences_canonical_iff_sample : ∃ st st', sampleTree = some st ∧ deeperTree = some st' ∧
    ((∀ order order',
        dtToSequences sampleGrammar order st.tree 20 = dtToSequences sampleGrammar order' st'.tree 20 ∧
        ∀ h nLines cov cov',
          SharesKey h sampleGrammar 20 nLines ⟨st.tree, order, cov⟩ ⟨st'.tree, order', cov'⟩) ↔
      ∀ a ∈ listSequences, ∀ b ∈ listSequences, a.length = b.length → a = b) := by
  obtain ⟨st, st', hst, hst', hc, hc'⟩ := sampleTrees_collapsed
  exact ⟨st, st', hst, hst', (dtToSequences_canonical_iff sampleGrammar 20 st.tree st'.tree
    listSequences listSequences hc hc' fun _ => Iff.rfl).2⟩

end RSFuzz
