import RSFuzz.CaptureRun

set_option autoImplicit false

/-!
# Names of saved failures

Which inputs the two programs copy into the error directory and under which
names, and when no copy replaces that of another input.
-/
namespace RSFuzz
open OrderedMap OptionFold

def Report.records : Report → List ExceptionRecord
  | .javaprog1 _ => []
  | .javaprog2 exceptions _ => exceptions
  | .cprog _ => []

/-- Files listed for one exception, of which every record counts the first 100. -/
def priorFiles (key : String × String) (earlier : List ExceptionRecord) : ℕ :=
  ((earlier.filter fun e => !e.skipped && e.key = key).map fun e => min e.files.length 100).sum

theorem priorFiles_concat (key : String × String) (earlier : List ExceptionRecord)
    (e : ExceptionRecord) :
    priorFiles key (earlier ++ [e]) = priorFiles key earlier +
      if e.skipped = false ∧ e.key = key then min e.files.length 100 else 0 := by
  rw [priorFiles, List.filter_append, List.map_append, List.sum_append, ← priorFiles]
  by_cases h : e.skipped = false ∧ e.key = key
  · simp [h]
  · have hno : (!e.skipped && decide (e.key = key)) = false := by
      rw [Bool.eq_false_iff]
      intro hyes
      simp only [Bool.and_eq_true, Bool.not_eq_true', decide_eq_true_eq] at hyes
      exact h hyes
    rw [if_neg h, List.filter_singleton, hno]
    rfl

/-- Input `i` is copied under the index `n`, where `earlier` was reported before. -/
def Report.Copied (limit increment : ℕ) (earlier : List ExceptionRecord) : Report → ℕ → ℕ → Prop
  | .javaprog1 rows, i, n => rows[0]? = some "1" ∧ i = 0 ∧ n = 0 ∨
      n + 1 < rows.length ∧ rows[n]? ≠ rows[n + 1]? ∧ i = n + 1
  | .javaprog2 exceptions _, i, n => i = n ∧ ∃ k e, exceptions[k]? = some e ∧ e.skipped = false ∧
      ∃ f < 100, e.files[f]? = some n ∧
        increment * (priorFiles e.key (earlier ++ exceptions.take k) + f) ≤ limit
  | .cprog errorCodes, i, n => i = n ∧ ∃ code, errorCodes[n]? = some code ∧ code < 0

/-- The first row fails and the second does not, so both are copied under index 0. -/
def Report.RowsClash : Report → Prop
  | .javaprog1 rows => rows[0]? = some "1" ∧ ∃ row, rows[1]? = some row ∧ row ≠ "1"
  | _ => False

variable {limit increment : ℕ} {earlier : List ExceptionRecord}

theorem Report.RowsClash.copied {r : Report} (h : r.RowsClash) :
    r.Copied limit increment earlier 0 0 ∧ r.Copied limit increment earlier 1 0 := by
  cases r with
  | javaprog1 rows =>
    obtain ⟨hfirst, row, hsecond, hne⟩ := h
    obtain ⟨hlt, -⟩ := List.getElem?_eq_some_iff.mp hsecond
    refine ⟨Or.inl ⟨hfirst, rfl, rfl⟩, Or.inr ⟨hlt, ?_, rfl⟩⟩
    rw [hfirst, hsecond]
    exact fun he => hne (Option.some.inj he).symm
  | javaprog2 => exact h.elim
  | cprog => exact h.elim

/-- Apart from the clash of the first two rows, an index stands for one input. -/
theorem Report.Copied.unique {r : Report} (hr : ¬ r.RowsClash) {i i' n : ℕ}
    (h : r.Copied limit increment earlier i n) (h' : r.Copied limit increment earlier i' n) :
    i = i' := by
  cases r with
  | javaprog1 rows =>
    have key : ∀ {n : ℕ}, rows[0]? = some "1" → n = 0 → n + 1 < rows.length →
        rows[n]? ≠ rows[n + 1]? → False := by
      rintro n hfirst rfl hlt hne
      refine hr ⟨hfirst, rows[1], List.getElem?_eq_getElem hlt, fun he => hne ?_⟩
      rw [hfirst, List.getElem?_eq_getElem hlt, he]
    rcases h with ⟨hf, rfl, hn⟩ | ⟨hlt, hne, rfl⟩ <;> rcases h' with ⟨hf', rfl, hn'⟩ | ⟨hlt', hne', rfl⟩
    · rfl
    · exact (key hf hn hlt' hne').elim
    · exact (key hf' hn' hlt hne).elim
    · rfl
  | javaprog2 => exact h.1.trans h'.1.symm
  | cprog => exact h.1.trans h'.1.symm

theorem mem_javaprog1Copies {rows : List String} {copies : Copies}
    (h : javaprog1Copies rows = some copies) (i n : ℕ) :
    (i, n) ∈ copies ↔ (Report.javaprog1 rows).Copied limit increment earlier i n := by
  obtain ⟨first, hfirst, rfl⟩ := Option.map_eq_some_iff.mp h
  rw [List.mem_append, Report.Copied, hfirst]
  refine or_congr ?_ ?_
  · split_ifs with hone
    · simp [hone]
    · simp [hone]
  · simp only [List.mem_map, List.mem_filter, List.mem_range, decide_eq_true_eq, Prod.mk.injEq]
    constructor
    · rintro ⟨m, ⟨hm, hne⟩, rfl, rfl⟩
      exact ⟨by omega, hne, rfl⟩
    · rintro ⟨hlt, hne, rfl⟩
      exact ⟨n, ⟨by omega, hne⟩, rfl, rfl⟩

theorem mem_cprogCopies (errorCodes : List ℤ) (i n : ℕ) :
    (i, n) ∈ cprogCopies errorCodes ↔
      (Report.cprog errorCodes).Copied limit increment earlier i n := by
  simp only [cprogCopies, Report.Copied, List.mem_map, List.mem_filter, List.mem_range,
    Prod.mk.injEq]
  constructor
  · rintro ⟨m, ⟨hm, hany⟩, rfl, rfl⟩
    rw [List.getElem?_eq_getElem hm] at hany
    exact ⟨rfl, errorCodes[m], List.getElem?_eq_getElem hm, by simpa using hany⟩
  · rintro ⟨rfl, code, hcode, hneg⟩
    obtain ⟨hlt, -⟩ := List.getElem?_eq_some_iff.mp hcode
    exact ⟨i, ⟨hlt, by simp [hcode, hneg]⟩, rfl, rfl⟩

theorem copyFiles_spec (limit increment cnt : ℕ) (files : List ℕ) :
    (∀ i n, (i, n) ∈ (copyFiles limit increment cnt files).2 ↔
      i = n ∧ ∃ f, files[f]? = some n ∧ cnt + increment * f ≤ limit) ∧
    ∀ f, (copyFiles limit increment cnt files).1 + increment * f ≤ limit ↔
      cnt + increment * (files.length + f) ≤ limit := by
  induction files generalizing cnt with
  | nil => simp [copyFiles]
  | cons tcIdx files ih =>
    obtain ⟨hmem, hcnt⟩ := ih (cnt + increment)
    rw [copyFiles]
    split_ifs with hover
    · refine ⟨fun i n => ?_, fun f => ?_⟩
      · simp only [List.not_mem_nil, false_iff, not_and, not_exists]
        intro _ f _
        omega
      · simp only
        omega
    · refine ⟨fun i n => ?_, fun f => ?_⟩
      · simp only [List.mem_cons, Prod.mk.injEq, hmem]
        constructor
        · rintro (⟨rfl, rfl⟩ | ⟨rfl, f, hf, hle⟩)
          · exact ⟨rfl, 0, rfl, by omega⟩
          · exact ⟨rfl, f + 1, hf, by rw [Nat.mul_succ]; omega⟩
        · rintro ⟨rfl, f, hf, hle⟩
          cases f with
          | zero =>
            obtain rfl : tcIdx = i := by simpa using hf
            exact Or.inl ⟨rfl, rfl⟩
          | succ f => exact Or.inr ⟨rfl, f, by simpa using hf, by rw [Nat.mul_succ] at hle; omega⟩
      · simp only [hcnt, List.length_cons]
        rw [Nat.add_right_comm files.length 1 f, Nat.mul_succ]
        omega

/-- The counts allow exactly the copies that the exceptions reported so far leave. -/
def Counts (limit increment : ℕ) (earlier : List ExceptionRecord) (cnt : ExceptionsCnt) : Prop :=
  ∀ key f, (cnt.get? key).getD 0 + increment * f ≤ limit ↔
    increment * (priorFiles key earlier + f) ≤ limit

theorem Counts.empty (limit increment : ℕ) : Counts limit increment [] Map.empty := by
  intro key f
  simp [priorFiles]

theorem Counts.copyRecord {cnt : ExceptionsCnt} (h : Counts limit increment earlier cnt)
    (copies : Copies) (e : ExceptionRecord) :
    Counts limit increment (earlier ++ [e]) (copyRecord limit increment (cnt, copies) e).1 ∧
    ∀ i n, (i, n) ∈ (RSFuzz.copyRecord limit increment (cnt, copies) e).2 ↔
      (i, n) ∈ copies ∨ i = n ∧ e.skipped = false ∧ ∃ f < 100, e.files[f]? = some n ∧
        increment * (priorFiles e.key earlier + f) ≤ limit := by
  rw [RSFuzz.copyRecord]
  split_ifs with hskip
  · refine ⟨fun key f => ?_, fun i n => by simp [hskip]⟩
    rw [priorFiles_concat, if_neg (by simp [hskip]), Nat.add_zero]
    exact h key f
  · have hskip : e.skipped = false := by simpa using hskip
    obtain ⟨hmem, hcnt⟩ := copyFiles_spec limit increment ((cnt.get? e.key).getD 0)
      (e.files.take (min e.files.length 100))
    refine ⟨fun key f => ?_, fun i n => ?_⟩
    · rw [priorFiles_concat, Map.get?_set]
      by_cases hkey : key = e.key
      · subst hkey
        have hlen : (e.files.take (min e.files.length 100)).length = min e.files.length 100 := by
          rw [List.length_take]
          omega
        rw [if_pos rfl, Option.getD_some, hcnt, hlen, h, if_pos ⟨hskip, rfl⟩, Nat.add_assoc]
      · rw [if_neg hkey, if_neg (fun hc => hkey hc.2.symm), Nat.add_zero]
        exact h key f
    · simp only [List.mem_append, hmem, hskip, true_and]
      refine or_congr_right (and_congr_right fun _ => exists_congr fun f => ?_)
      rw [h, List.getElem?_take]
      constructor
      · rintro ⟨hf, hle⟩
        split_ifs at hf with hlt
        exact ⟨by omega, hf, hle⟩
      · rintro ⟨hlt, hf, hle⟩
        obtain ⟨hlen, -⟩ := List.getElem?_eq_some_iff.mp hf
        exact ⟨by rw [if_pos (by omega), hf], hle⟩

theorem Counts.javaprog2 {cnt : ExceptionsCnt} (h : Counts limit increment earlier cnt)
    (exceptions : List ExceptionRecord) (blank : Bool) :
    Counts limit increment (earlier ++ exceptions)
      (javaprog2Copies limit increment cnt exceptions).1 ∧
    ∀ i n, (i, n) ∈ (javaprog2Copies limit increment cnt exceptions).2 ↔
      (Report.javaprog2 exceptions blank).Copied limit increment earlier i n := by
  induction exceptions using List.reverseRecOn with
  | nil => exact ⟨by rwa [List.append_nil], by simp [javaprog2Copies, Report.Copied]⟩
  | append_singleton exceptions e ih =>
    obtain ⟨hcnt, hmem⟩ := ih
    have hlast : javaprog2Copies limit increment cnt (exceptions ++ [e]) =
        RSFuzz.copyRecord limit increment (javaprog2Copies limit increment cnt exceptions) e := by
      rw [javaprog2Copies, List.foldl_append]
      rfl
    obtain ⟨hcnt', hmem'⟩ := hcnt.copyRecord (javaprog2Copies limit increment cnt exceptions).2 e
    rw [hlast, ← List.append_assoc]
    refine ⟨hcnt', fun i n => ?_⟩
    rw [hmem', hmem]
    simp only [Report.Copied]
    rw [← and_or_left, and_congr_right_iff]
    intro _
    have hconcat := fun k => exists_getElem?_concat (fun before e => e.skipped = false ∧
      ∃ f < 100, e.files[f]? = some n ∧
        increment * (priorFiles e.key (earlier ++ before) + f) ≤ limit) exceptions e k
    rw [exists_congr hconcat, exists_or, exists_eq_left]

theorem Counts.dirCopies {cnt cnt' : ExceptionsCnt} (h : Counts limit increment earlier cnt)
    {report : Report} {copies : Copies}
    (hrun : RSFuzz.dirCopies limit increment cnt report = some (cnt', copies)) :
    Counts limit increment (earlier ++ report.records) cnt' ∧
    ∀ i n, (i, n) ∈ copies ↔ report.Copied limit increment earlier i n := by
  cases report with
  | javaprog1 rows =>
    obtain ⟨found, hfound, he⟩ := Option.map_eq_some_iff.mp hrun
    obtain ⟨rfl, rfl⟩ := Prod.mk.inj he
    exact ⟨by rwa [Report.records, List.append_nil], mem_javaprog1Copies hfound⟩
  | javaprog2 exceptions blank =>
    have he := Option.some.inj hrun
    have hspec := h.javaprog2 exceptions blank
    rw [he] at hspec
    exact hspec
  | cprog errorCodes =>
    obtain ⟨rfl, rfl⟩ := Prod.mk.inj (Option.some.inj hrun)
    exact ⟨by rwa [Report.records, List.append_nil], mem_cprogCopies errorCodes⟩

section csv
variable (h : Hashes) (G : Grammar) (fuel : ℕ) (t : ClusterTables)

def NewTree (before : List CsvInput) (item : CsvInput) : Prop :=
  t.dtIdx.get? (h.tree item.tree) = none ∧ ∀ item' ∈ before, h.tree item'.tree ≠ h.tree item.tree

def NewSeqs (before : List CsvInput) (key : ℤ) : Prop :=
  t.seqsIdx.get? key = none ∧ ∀ k, ¬ ∃ item, before[k]? = some item ∧
    NewTree h t (before.take k) item ∧
      (dtToSequences G item.order item.tree fuel).map h.seqs = some key

def Uncovered (batch : List CsvInput) (n : ℕ) : Prop :=
  ∃ item, batch[n]? = some item ∧ item.cov = [] ∧ NewTree h t (batch.take n) item ∧
    ∃ seqs, dtToSequences G item.order item.tree fuel = some seqs ∧
      NewSeqs h G fuel t (batch.take n) (h.seqs seqs)

end csv

theorem measure_idx {h : Hashes} {nLines seqsKey : ℕ} {t : ClusterTables} {cov : List Bool}
    {r : ClusterTables × ℕ} (hrun : measure h nLines t seqsKey cov = some r) :
    r.1.dtIdx = t.dtIdx ∧ r.1.seqsIdx = t.seqsIdx := by
  simp only [measure, Option.bind_eq_bind, Option.pure_def] at hrun
  obtain ⟨covKey, -, hrun⟩ := Option.bind_eq_some_iff.mp hrun
  obtain ⟨joined, hjoined, hr⟩ := Option.bind_eq_some_iff.mp hrun
  obtain rfl := Option.some.inj hr
  obtain ⟨cluster, -, rfl⟩ := Option.map_eq_some_iff.mp hjoined
  rw [registerCoverage]
  split_ifs <;> exact ⟨rfl, rfl⟩

theorem countInput_idx {t t' : ClusterTables} {seqsKey covKey : ℕ}
    (hrun : countInput t seqsKey covKey = some t') : t'.dtIdx = t.dtIdx ∧ t'.seqsIdx = t.seqsIdx := by
  simp only [countInput, Option.bind_eq_bind, Option.pure_def] at hrun
  obtain ⟨cluster, -, hrun⟩ := Option.bind_eq_some_iff.mp hrun
  obtain ⟨count, -, ht⟩ := Option.bind_eq_some_iff.mp hrun
  obtain rfl := Option.some.inj ht
  exact ⟨rfl, rfl⟩

theorem registerTree_pending (h : Hashes) {t : ClusterTables} (hok : t.Ok) (tree : Tree)
    (seqs : List (List Entry)) :
    (registerTree h t tree seqs).1.uniqueDt.get? (registerTree h t tree seqs).2 = none ↔
      t.seqsIdx.get? (h.seqs seqs) = none := by
  simp only [registerTree, Map.number]
  cases hkey : t.seqsIdx.get? (h.seqs seqs) with
  | some s =>
    obtain ⟨c, hc⟩ := Map.exists_get? ((hok.uniqueDt_keys s).mpr (hok.seqsNumbered.lt_size hkey))
    simp [hc]
  | none =>
    have hout : t.seqsIdx.size ∉ t.uniqueDt.keys := by simp [hok.uniqueDt_keys]
    simp [(Map.get?_eq_none_iff _ _).mpr hout]

/-- A known tree leaves the indices as they are; a new one is added with its sequences, and is
    copied if these were new too and nothing is covered. -/
theorem csvInput_cases {h : Hashes} {G : Grammar} {fuel nLines i : ℕ} {st st' : CsvState}
    {item : CsvInput} (hok : st.tables.Ok)
    (hrun : csvInput h G fuel nLines st (item, i) = some st') :
    ((∃ dtKey, st.tables.dtIdx.get? (h.tree item.tree) = some dtKey) ∧
      st'.tables.dtIdx = st.tables.dtIdx ∧ st'.tables.seqsIdx = st.tables.seqsIdx ∧
      st'.copies = st.copies) ∨
    st.tables.dtIdx.get? (h.tree item.tree) = none ∧
      ∃ seqs, dtToSequences G item.order item.tree fuel = some seqs ∧
        st'.tables.dtIdx = st.tables.dtIdx.set (h.tree item.tree) st.tables.dtIdx.size ∧
        st'.tables.seqsIdx = (st.tables.seqsIdx.number (h.seqs seqs)).1 ∧
        ∀ p, p ∈ st'.copies ↔ p ∈ st.copies ∨
          p = (i, i) ∧ st.tables.seqsIdx.get? (h.seqs seqs) = none ∧ item.cov = [] := by
  simp only [csvInput, Option.bind_eq_bind, Option.pure_def] at hrun
  obtain ⟨r, hr, hrun⟩ := Option.bind_eq_some_iff.mp hrun
  obtain ⟨t', ht', hst'⟩ := Option.bind_eq_some_iff.mp hrun
  obtain ⟨hdt, hseqs⟩ := countInput_idx ht'
  obtain rfl := Option.some.inj hst'
  rw [classify] at hr
  cases hk : st.tables.dtIdx.get? (h.tree item.tree) with
  | some dtKey =>
    simp only [hk, classifyKnown, Option.bind_eq_bind, Option.pure_def] at hr
    obtain ⟨seqsKey, -, hr⟩ := Option.bind_eq_some_iff.mp hr
    obtain ⟨covKey, -, hr⟩ := Option.bind_eq_some_iff.mp hr
    obtain rfl := Option.some.inj hr
    exact Or.inl ⟨⟨dtKey, rfl⟩, hdt, hseqs, rfl⟩
  | none =>
    simp only [hk] at hr
    obtain ⟨seqs, hs, hr⟩ := Option.bind_eq_some_iff.mp hr
    have hpending := registerTree_pending h hok item.tree seqs
    refine Or.inr ⟨rfl, seqs, hs, ?_⟩
    simp only [classifyNew] at hr
    cases hget : (registerTree h st.tables item.tree seqs).1.uniqueDt.get?
        (registerTree h st.tables item.tree seqs).2 with
    | some covKey =>
      simp only [hget, reduceCtorEq, false_iff] at hr hpending
      obtain rfl := Option.some.inj hr
      exact ⟨hdt, hseqs, by simp [hpending]⟩
    | none =>
      simp only [hget, true_iff] at hr hpending
      obtain ⟨measured, hmeasured, rfl⟩ := Option.map_eq_some_iff.mp hr
      obtain ⟨hdt', hseqs'⟩ := measure_idx hmeasured
      refine ⟨hdt.trans hdt', hseqs.trans hseqs', ?_⟩
      intro p
      by_cases hcov : item.cov = []
      · simp [hcov, hpending]
      · simp [hcov]

/-- What the loop of `create_csv` knows after the inputs `batch`. -/
structure CsvRecord (h : Hashes) (G : Grammar) (fuel : ℕ) (t : ClusterTables)
    (batch : List CsvInput) (st : CsvState) : Prop where
  trees : ∀ item, st.tables.dtIdx.get? (h.tree item.tree) = none ↔ NewTree h t batch item
  seqs : ∀ key, st.tables.seqsIdx.get? key = none ↔ NewSeqs h G fuel t batch key
  copies : ∀ i n, (i, n) ∈ st.copies ↔ i = n ∧ Uncovered h G fuel t batch n

section record
variable {h : Hashes} {G : Grammar} {fuel : ℕ} {t : ClusterTables}

theorem newTree_concat (batch : List CsvInput) (item item' : CsvInput) :
    NewTree h t (batch ++ [item]) item' ↔
      NewTree h t batch item' ∧ h.tree item'.tree ≠ h.tree item.tree := by
  simp only [NewTree, List.mem_append, List.mem_singleton, or_imp, forall_and, forall_eq]
  rw [and_assoc, ne_comm (a := h.tree item'.tree)]

theorem newSeqs_concat (batch : List CsvInput) (item : CsvInput) (key : ℤ) :
    NewSeqs h G fuel t (batch ++ [item]) key ↔ NewSeqs h G fuel t batch key ∧
      ¬ (NewTree h t batch item ∧
        (dtToSequences G item.order item.tree fuel).map h.seqs = some key) := by
  simp only [NewSeqs]
  have hconcat := fun k => exists_getElem?_concat (fun before item => NewTree h t before item ∧
    (dtToSequences G item.order item.tree fuel).map h.seqs = some key) batch item k
  simp only [hconcat, not_or, forall_and, and_assoc, not_and, forall_eq]

theorem uncovered_concat (batch : List CsvInput) (item : CsvInput) (n : ℕ) :
    Uncovered h G fuel t (batch ++ [item]) n ↔ Uncovered h G fuel t batch n ∨
      n = batch.length ∧ item.cov = [] ∧ NewTree h t batch item ∧
        ∃ seqs, dtToSequences G item.order item.tree fuel = some seqs ∧
          NewSeqs h G fuel t batch (h.seqs seqs) :=
  exists_getElem?_concat (fun before (item : CsvInput) => item.cov = [] ∧
    NewTree h t before item ∧ ∃ seqs, dtToSequences G item.order item.tree fuel = some seqs ∧
      NewSeqs h G fuel t before (h.seqs seqs)) batch item n

theorem CsvRecord.step {nLines : ℕ} {batch : List CsvInput} {st st' : CsvState} {item : CsvInput}
    (hrec : CsvRecord h G fuel t batch st) (hok : st.tables.Ok)
    (hrun : csvInput h G fuel nLines st (item, batch.length) = some st') :
    CsvRecord h G fuel t (batch ++ [item]) st' := by
  rcases csvInput_cases hok hrun with ⟨⟨dtKey, hk⟩, hdt, hseqs, hcopies⟩ |
    ⟨hnew, seqs, hs, hdt, hseqs, hcopies⟩
  · have hold : ¬ NewTree h t batch item := by
      rw [← hrec.trees, hk]
      exact Option.some_ne_none dtKey
    refine ⟨fun item' => ?_, fun key => ?_, fun i n => ?_⟩
    · rw [hdt, hrec.trees, newTree_concat]
      refine ⟨fun hnew => ⟨hnew, fun he => ?_⟩, And.left⟩
      rw [← hrec.trees, he, hk] at hnew
      cases hnew
    · rw [hseqs, hrec.seqs, newSeqs_concat]
      exact ⟨fun hkey => ⟨hkey, fun hc => hold hc.1⟩, And.left⟩
    · rw [hcopies, hrec.copies, uncovered_concat]
      refine and_congr_right fun _ => ⟨Or.inl, ?_⟩
      rintro (hn | ⟨-, -, hc, -⟩)
      · exact hn
      · exact absurd hc hold
  · have hfresh : NewTree h t batch item := (hrec.trees item).mp hnew
    refine ⟨fun item' => ?_, fun key => ?_, fun i n => ?_⟩
    · rw [hdt, Map.get?_set_eq_none, hrec.trees, newTree_concat]
    · rw [hseqs, Map.get?_number_eq_none, hrec.seqs, newSeqs_concat, hs]
      simp [hfresh, eq_comm]
    · rw [hcopies, uncovered_concat, and_or_left, ← hrec.copies, hrec.seqs, Prod.mk.injEq]
      refine or_congr_right ⟨?_, ?_⟩
      · rintro ⟨⟨rfl, rfl⟩, hkey, hcov⟩
        exact ⟨rfl, rfl, hcov, hfresh, seqs, hs, hkey⟩
      · rintro ⟨rfl, rfl, hcov, -, seqs', hs', hkey⟩
        obtain rfl := Option.some.inj (hs.symm.trans hs')
        exact ⟨⟨rfl, rfl⟩, hkey, hcov⟩

theorem createCsv_record {nLines : ℕ} (hok : t.Ok) {batch : List CsvInput} {st : CsvState}
    (hrun : createCsv h G fuel nLines t batch = some st) : CsvRecord h G fuel t batch st := by
  induction batch using List.reverseRecOn generalizing st with
  | nil =>
    obtain rfl := Option.some.inj hrun
    exact ⟨by simp [NewTree], by simp [NewSeqs], by simp [Uncovered]⟩
  | append_singleton batch item ih =>
    rw [createCsv, List.zipIdx_append] at hrun
    obtain ⟨st₁, h₁, hlast⟩ := foldlM_concat hrun
    rw [Nat.zero_add] at hlast
    exact (ih h₁).step (ClusterTables.createCsv_invariant hok h₁).ok hlast

end record

def reported (reports : List Report) : List ExceptionRecord := reports.flatMap Report.records

/-- The report of iteration `k` has input `i` of the iteration copied under the index `n`. -/
def Failing (limit increment : ℕ) (reports : List Report) (k i n : ℕ) : Prop :=
  ∃ report, reports[k]? = some report ∧
    report.Copied limit increment (reported (reports.take k)) i n

abbrev CaptureFailing : List Report → ℕ → ℕ → ℕ → Prop := Failing 100000 0

abbrev TestFailing : List Report → ℕ → ℕ → ℕ → Prop := Failing 200000 1

def Unfinished.Reaches : Unfinished → ℕ → Prop
  | .clustering m, n => n < m
  | .copying _, _ => True

def Unfinished.reports : Unfinished → List Report
  | .clustering _ => []
  | .copying part => [part]

/-- `create_csv` is called in iteration `k + 1` and gets to input `n` of iteration `k`, which is
    uncovered. -/
def CsvSaves (env : Env) : List Iteration → Unfinished → ℕ → ℕ → Prop
  | [], _, _, _ => False
  | first :: its, unfinished, k, n => (k < its.length ∨ k = its.length ∧ unfinished.Reaches n) ∧
    ∃ s, captureRun env first (its.take k) = some s ∧ s.coverage.doUpdate = true ∧
      Uncovered env.hashes env.grammar env.fuel s.tables s.batch n

theorem reported_concat (reports : List Report) (report : Report) :
    reported (reports ++ [report]) = reported reports ++ report.records := by
  simp [reported]

theorem failing_concat (limit increment : ℕ) (reports : List Report) (report : Report)
    (k i n : ℕ) : Failing limit increment (reports ++ [report]) k i n ↔
      Failing limit increment reports k i n ∨
        k = reports.length ∧ report.Copied limit increment (reported reports) i n :=
  exists_getElem?_concat (fun before (report : Report) =>
    report.Copied limit increment (reported before) i n) reports report k

theorem failing_singleton (limit increment : ℕ) (report : Report) (k i n : ℕ) :
    Failing limit increment [report] k i n ↔ k = 0 ∧ report.Copied limit increment [] i n := by
  have hconcat := failing_concat limit increment [] report k i n
  rw [List.nil_append] at hconcat
  simpa [Failing, reported] using hconcat

theorem csvSaves_unfinished {env : Env} {first : Iteration} {its : List Iteration} {s : CaptureState}
    (hrun : captureRun env first its = some s) (unfinished : Unfinished) (k n : ℕ) :
    CsvSaves env (first :: its) unfinished k n ↔
      CsvSaves env (first :: its) (.clustering 0) k n ∨
        k = its.length ∧ unfinished.Reaches n ∧ s.coverage.doUpdate = true ∧
          Uncovered env.hashes env.grammar env.fuel s.tables s.batch n := by
  simp only [CsvSaves, Unfinished.Reaches, Nat.not_lt_zero, and_false, or_false, or_and_right,
    and_assoc]
  refine or_congr_right (and_congr_right fun hk => and_congr_right fun _ => ?_)
  subst hk
  simp [hrun]

theorem csvSaves_concat {env : Env} {first : Iteration} {its : List Iteration} {s : CaptureState}
    (hrun : captureRun env first its = some s) (it : Iteration) (k n : ℕ) :
    CsvSaves env (first :: (its ++ [it])) (.clustering 0) k n ↔
      CsvSaves env (first :: its) (.clustering 0) k n ∨ k = its.length ∧
        s.coverage.doUpdate = true ∧
          Uncovered env.hashes env.grammar env.fuel s.tables s.batch n := by
  simp only [CsvSaves, Unfinished.Reaches, Nat.not_lt_zero, and_false, or_false,
    List.length_append, List.length_singleton, Nat.lt_succ_iff_lt_or_eq, or_and_right]
  refine or_congr (and_congr_right fun hk => ?_) (and_congr_right fun hk => ?_)
  · rw [List.take_append_of_le_length (Nat.le_of_lt hk)]
  · subst hk
    simp [hrun]

theorem mem_saved {copies : Copies} {phase : Phase} {iteration infoNum : ℕ} {e : ErrorCopy} :
    e ∈ copies.saved phase iteration infoNum ↔
      ∃ i n, (i, n) ∈ copies ∧ e = ⟨(phase, iteration, i), (infoNum, n)⟩ := by
  simp [Copies.saved, eq_comm]

theorem updateTables_spec {env : Env} {s : CaptureState} (hok : s.tables.Ok)
    {tables : ClusterTables} {csvCopies : Copies}
    (hrun : updateTables env s = some (tables, csvCopies)) :
    tables.Ok ∧ ∀ i n, (i, n) ∈ csvCopies ↔ i = n ∧ s.coverage.doUpdate = true ∧
      Uncovered env.hashes env.grammar env.fuel s.tables s.batch n := by
  rw [updateTables] at hrun
  split_ifs at hrun with hupdate
  · obtain ⟨st, hst, he⟩ := Option.map_eq_some_iff.mp hrun
    obtain ⟨rfl, rfl⟩ := Prod.mk.inj he
    refine ⟨(ClusterTables.createCsv_invariant hok hst).ok, fun i n => ?_⟩
    simp [(createCsv_record hok hst).copies, hupdate]
  · obtain ⟨rfl, rfl⟩ := Prod.mk.inj (Option.some.inj hrun)
    exact ⟨hok, by simp [hupdate]⟩

theorem uncovered_take (h : Hashes) (G : Grammar) (fuel : ℕ) (t : ClusterTables)
    (batch : List CsvInput) (m n : ℕ) : Uncovered h G fuel t (batch.take m) n ↔
      n < m ∧ Uncovered h G fuel t batch n := by
  by_cases hn : n < m
  · simp [Uncovered, List.take_take, hn, Nat.min_eq_left (Nat.le_of_lt hn)]
  · simp [Uncovered, hn]

structure CaptureCopies (env : Env) (first : Iteration) (its : List Iteration) (s : CaptureState) :
    Prop where
  infoNum : s.infoNum = its.length + 1
  ok : s.tables.Ok
  counts : Counts 100000 0 (reported ((first :: its).map Iteration.report)) s.exceptionsCnt
  errors : ∀ e, e ∈ s.errors ↔
    (∃ k i n, CaptureFailing ((first :: its).map Iteration.report) k i n ∧
      e = ⟨(.capture, k, i), (k, n)⟩) ∨
    ∃ k n, CsvSaves env (first :: its) (.clustering 0) k n ∧ e = ⟨(.capture, k, n), (k + 1, n)⟩

theorem CaptureCopies.initial {env : Env} {first : Iteration} {s : CaptureState}
    (h : captureInit first = some s) : CaptureCopies env first [] s := by
  obtain ⟨cnt, copies, hcopies, rfl⟩ := captureInit_eq h
  obtain ⟨hcnt, hmem⟩ := (Counts.empty 100000 0).dirCopies hcopies
  refine ⟨rfl, ClusterTables.empty_ok, by simpa [reported] using hcnt, fun e => ?_⟩
  simp only [mem_saved, hmem, List.map_cons, List.map_nil, failing_singleton, CsvSaves]
  constructor
  · rintro ⟨i, n, hc, rfl⟩
    exact Or.inl ⟨0, i, n, ⟨rfl, hc⟩, rfl⟩
  · rintro (⟨k, i, n, ⟨rfl, hc⟩, rfl⟩ | ⟨k, n, ⟨hk | ⟨-, hk⟩, -⟩, -⟩)
    · exact ⟨i, n, hc, rfl⟩
    · exact absurd hk (Nat.not_lt_zero k)
    · exact absurd hk (Nat.not_lt_zero n)

/-- One more report, a whole one or a part of it, and the call of `create_csv` before it. -/
theorem CaptureCopies.mem_append_saved {env : Env} {first : Iteration} {its : List Iteration}
    {s : CaptureState} (h : CaptureCopies env first its s) {tables : ClusterTables}
    {csvCopies copies : Copies} (htables : updateTables env s = some (tables, csvCopies))
    {report : Report} {cnt : ExceptionsCnt}
    (hcopies : captureDirCopies s.exceptionsCnt report = some (cnt, copies)) (e : ErrorCopy) :
    e ∈ s.errors ++ csvCopies.saved .capture (s.infoNum - 1) s.infoNum ++
        copies.saved .capture s.infoNum s.infoNum ↔
      (∃ k i n, CaptureFailing ((first :: its).map Iteration.report ++ [report]) k i n ∧
        e = ⟨(.capture, k, i), (k, n)⟩) ∨
      ∃ k n, (CsvSaves env (first :: its) (.clustering 0) k n ∨ k = its.length ∧
        s.coverage.doUpdate = true ∧
          Uncovered env.hashes env.grammar env.fuel s.tables s.batch n) ∧
        e = ⟨(.capture, k, n), (k + 1, n)⟩ := by
  obtain ⟨-, hcsv⟩ := updateTables_spec h.ok htables
  obtain ⟨-, hmem⟩ := h.counts.dirCopies hcopies
  simp only [List.mem_append, mem_saved, hcsv, hmem, h.errors, h.infoNum, Nat.add_sub_cancel,
    failing_concat, List.length_map, List.length_cons]
  constructor
  · rintro (((⟨k, i, n, hc, rfl⟩ | ⟨k, n, hc, rfl⟩) | ⟨i, n, ⟨rfl, hc⟩, rfl⟩) | ⟨i, n, hc, rfl⟩)
    · exact Or.inl ⟨k, i, n, Or.inl hc, rfl⟩
    · exact Or.inr ⟨k, n, Or.inl hc, rfl⟩
    · exact Or.inr ⟨its.length, i, Or.inr ⟨rfl, hc⟩, rfl⟩
    · exact Or.inl ⟨its.length + 1, i, n, Or.inr ⟨rfl, hc⟩, rfl⟩
  · rintro (⟨k, i, n, hc | ⟨rfl, hc⟩, rfl⟩ | ⟨k, n, hc | ⟨rfl, hc⟩, rfl⟩)
    · exact Or.inl (Or.inl (Or.inl ⟨k, i, n, hc, rfl⟩))
    · exact Or.inr ⟨i, n, hc, rfl⟩
    · exact Or.inl (Or.inl (Or.inr ⟨k, n, hc, rfl⟩))
    · exact Or.inl (Or.inr ⟨n, n, ⟨rfl, hc⟩, rfl⟩)

theorem CaptureCopies.step {env : Env} {first it : Iteration} {its : List Iteration}
    {s s' : CaptureState} (h : CaptureCopies env first its s)
    (hrun : captureRun env first its = some s) (hstep : captureStep env s it = some s') :
    CaptureCopies env first (its ++ [it]) s' := by
  obtain ⟨tables, csvCopies, cnt, copies, coverage, htables, hcopies, -, rfl⟩ := captureStep_eq hstep
  obtain ⟨hok, -⟩ := updateTables_spec h.ok htables
  obtain ⟨hcnt, -⟩ := h.counts.dirCopies hcopies
  have hreports : (first :: (its ++ [it])).map Iteration.report =
      (first :: its).map Iteration.report ++ [it.report] := by simp
  refine ⟨by simp [h.infoNum], hok, ?_, fun e => ?_⟩
  · rw [hreports, reported_concat]
    exact hcnt
  · simp only [hreports, csvSaves_concat hrun]
    exact h.mem_append_saved htables hcopies e

theorem captureRun_copies {env : Env} {first : Iteration} {its : List Iteration} {s : CaptureState}
    (hrun : captureRun env first its = some s) : CaptureCopies env first its s := by
  induction its using List.reverseRecOn generalizing s with
  | nil =>
    obtain ⟨s₀, h₀, hnil⟩ := Option.bind_eq_some_iff.mp hrun
    obtain rfl := Option.some.inj hnil
    exact .initial h₀
  | append_singleton its it ih =>
    obtain ⟨s₁, h₁, hstep⟩ := captureRun_concat hrun
    exact (ih h₁).step h₁ hstep

/-- Where the capture phase is ended: what it has copied by reports, whole ones and a part of one,
    and by `create_csv`. -/
theorem mem_captureErrors {env : Env} {its : List Iteration} {unfinished : Unfinished}
    {errors : List ErrorCopy} (hrun : captureErrors env its unfinished = some errors)
    (e : ErrorCopy) : e ∈ errors ↔
      (∃ k i n, CaptureFailing (its.map Iteration.report ++ unfinished.reports) k i n ∧
        e = ⟨(.capture, k, i), (k, n)⟩) ∨
      ∃ k n, CsvSaves env its unfinished k n ∧ e = ⟨(.capture, k, n), (k + 1, n)⟩ := by
  cases its with
  | nil =>
    cases unfinished with
    | clustering m =>
      obtain rfl := Option.some.inj hrun
      simp [Unfinished.reports, Failing, CsvSaves]
    | copying part =>
      obtain ⟨⟨cnt, copies⟩, hcopies, rfl⟩ := Option.map_eq_some_iff.mp hrun
      obtain ⟨-, hmem⟩ := (Counts.empty 100000 0).dirCopies hcopies
      simp only [mem_saved, hmem, Unfinished.reports, List.map_nil, List.nil_append,
        failing_singleton, CsvSaves, false_and, exists_false, or_false]
      constructor
      · rintro ⟨i, n, hc, rfl⟩
        exact ⟨0, i, n, ⟨rfl, hc⟩, rfl⟩
      · rintro ⟨k, i, n, ⟨rfl, hc⟩, rfl⟩
        exact ⟨i, n, hc, rfl⟩
  | cons first its =>
    simp only [captureErrors, Option.bind_eq_bind, Option.pure_def] at hrun
    obtain ⟨s, hs, hrun⟩ := Option.bind_eq_some_iff.mp hrun
    obtain ⟨more, hmore, herrors⟩ := Option.bind_eq_some_iff.mp hrun
    obtain rfl := Option.some.inj herrors
    have h := captureRun_copies hs
    cases unfinished with
    | clustering m =>
      simp only [List.mem_append, h.errors, csvSaves_unfinished hs (.clustering m)]
      obtain ⟨⟨tables, csvCopies⟩, htables, rfl⟩ := Option.map_eq_some_iff.mp hmore
      obtain ⟨-, hcsv⟩ := updateTables_spec (s := { s with batch := s.batch.take m }) h.ok htables
      simp only [mem_saved, hcsv, uncovered_take, h.infoNum, Nat.add_sub_cancel, Unfinished.reports,
        List.append_nil, Unfinished.Reaches]
      constructor
      · rintro ((hc | ⟨k, n, hc, rfl⟩) | ⟨i, n, ⟨rfl, hupdate, hlt, hc⟩, rfl⟩)
        · exact Or.inl hc
        · exact Or.inr ⟨k, n, Or.inl hc, rfl⟩
        · exact Or.inr ⟨its.length, i, Or.inr ⟨rfl, hlt, hupdate, hc⟩, rfl⟩
      · rintro (hc | ⟨k, n, hc | ⟨rfl, hlt, hupdate, hc⟩, rfl⟩)
        · exact Or.inl (Or.inl hc)
        · exact Or.inl (Or.inr ⟨k, n, hc, rfl⟩)
        · exact Or.inr ⟨n, n, ⟨rfl, hupdate, hlt, hc⟩, rfl⟩
    | copying part =>
      simp only [unfinishedCopies, Option.bind_eq_bind, Option.pure_def] at hmore
      obtain ⟨⟨tables, csvCopies⟩, htables, hmore⟩ := Option.bind_eq_some_iff.mp hmore
      obtain ⟨⟨cnt, copies⟩, hcopies, hmore⟩ := Option.bind_eq_some_iff.mp hmore
      obtain rfl := Option.some.inj hmore
      simp only [csvSaves_unfinished hs (.copying part), Unfinished.reports, Unfinished.Reaches, true_and]
      rw [← List.append_assoc]
      exact h.mem_append_saved htables hcopies e

structure TestCopies (first : Iteration) (its : List Iteration) (s : TestState) : Prop where
  infoNum : s.infoNum = its.length + 1
  counts : Counts 200000 1 (reported ((first :: its).map Iteration.report)) s.exceptionsCnt
  errors : ∀ e, e ∈ s.errors ↔ ∃ k i n, TestFailing ((first :: its).map Iteration.report) k i n ∧
    e = ⟨(.test, k, i), (k, n)⟩

theorem mem_saved_singleton {report : Report} {copies : Copies}
    (hmem : ∀ i n, (i, n) ∈ copies ↔ report.Copied 200000 1 [] i n) (e : ErrorCopy) :
    e ∈ copies.saved .test 0 0 ↔
      ∃ k i n, TestFailing [report] k i n ∧ e = ⟨(.test, k, i), (k, n)⟩ := by
  simp only [mem_saved, hmem, failing_singleton]
  constructor
  · rintro ⟨i, n, hc, rfl⟩
    exact ⟨0, i, n, ⟨rfl, hc⟩, rfl⟩
  · rintro ⟨k, i, n, ⟨rfl, hc⟩, rfl⟩
    exact ⟨i, n, hc, rfl⟩

theorem TestCopies.initial {totalCoverage : Option (List Bool)} {first : Iteration} {s : TestState}
    (h : testInit totalCoverage first = some s) : TestCopies first [] s := by
  obtain ⟨cnt, copies, total, hcopies, rfl⟩ := testInit_eq h
  obtain ⟨hcnt, hmem⟩ := (Counts.empty 200000 1).dirCopies hcopies
  exact ⟨rfl, by simpa [reported] using hcnt, mem_saved_singleton hmem⟩

theorem TestCopies.mem_append_saved {first : Iteration} {its : List Iteration} {s : TestState}
    (h : TestCopies first its s) {report : Report} {copies : Copies}
    (hmem : ∀ i n, (i, n) ∈ copies ↔
      report.Copied 200000 1 (reported ((first :: its).map Iteration.report)) i n) (e : ErrorCopy) :
    e ∈ s.errors ++ copies.saved .test s.infoNum s.infoNum ↔ ∃ k i n,
      TestFailing ((first :: its).map Iteration.report ++ [report]) k i n ∧
        e = ⟨(.test, k, i), (k, n)⟩ := by
  simp only [List.mem_append, mem_saved, hmem, h.errors, h.infoNum, failing_concat, List.length_map,
    List.length_cons]
  constructor
  · rintro (⟨k, i, n, hc, rfl⟩ | ⟨i, n, hc, rfl⟩)
    · exact ⟨k, i, n, Or.inl hc, rfl⟩
    · exact ⟨its.length + 1, i, n, Or.inr ⟨rfl, hc⟩, rfl⟩
  · rintro ⟨k, i, n, hc | ⟨rfl, hc⟩, rfl⟩
    · exact Or.inl ⟨k, i, n, hc, rfl⟩
    · exact Or.inr ⟨i, n, hc, rfl⟩

theorem TestCopies.step {first it : Iteration} {its : List Iteration} {s s' : TestState}
    (h : TestCopies first its s) (hstep : testStep s it = some s') :
    TestCopies first (its ++ [it]) s' := by
  obtain ⟨cnt, copies, total, hcopies, rfl⟩ := testStep_eq hstep
  obtain ⟨hcnt, hmem⟩ := h.counts.dirCopies hcopies
  have hreports : (first :: (its ++ [it])).map Iteration.report =
      (first :: its).map Iteration.report ++ [it.report] := by simp
  refine ⟨by simp [h.infoNum], ?_, fun e => ?_⟩
  · rw [hreports, reported_concat]
    exact hcnt
  · rw [hreports]
    exact h.mem_append_saved hmem e

theorem testRun_copies {totalCoverage : Option (List Bool)} {first : Iteration}
    {its : List Iteration} {s : TestState} (hrun : testRun totalCoverage first its = some s) :
    TestCopies first its s := by
  induction its using List.reverseRecOn generalizing s with
  | nil =>
    obtain ⟨s₀, h₀, hnil⟩ := Option.bind_eq_some_iff.mp hrun
    obtain rfl := Option.some.inj hnil
    exact .initial h₀
  | append_singleton its it ih =>
    obtain ⟨s₁, h₁, hstep⟩ := testRun_concat hrun
    exact (ih h₁).step hstep

theorem mem_testErrors {totalCoverage : Option (List Bool)} {its : List Iteration}
    {part : Option Report} {errors : List ErrorCopy}
    (hrun : testErrors totalCoverage its part = some errors) (e : ErrorCopy) : e ∈ errors ↔
      ∃ k i n, TestFailing (its.map Iteration.report ++ part.toList) k i n ∧
        e = ⟨(.test, k, i), (k, n)⟩ := by
  cases its with
  | nil =>
    cases part with
    | none =>
      obtain rfl := Option.some.inj hrun
      simp [Failing]
    | some part =>
      obtain ⟨⟨cnt, copies⟩, hcopies, rfl⟩ := Option.map_eq_some_iff.mp hrun
      exact mem_saved_singleton ((Counts.empty 200000 1).dirCopies hcopies).2 e
  | cons first its =>
    cases part with
    | none =>
      obtain ⟨s, hs, rfl⟩ := Option.map_eq_some_iff.mp hrun
      rw [Option.toList_none, List.append_nil]
      exact (testRun_copies hs).errors e
    | some part =>
      simp only [testErrors, Option.bind_eq_bind, Option.pure_def] at hrun
      obtain ⟨s, hs, hrun⟩ := Option.bind_eq_some_iff.mp hrun
      obtain ⟨⟨cnt, copies⟩, hcopies, herrors⟩ := Option.bind_eq_some_iff.mp hrun
      obtain rfl := Option.some.inj herrors
      have h := testRun_copies hs
      exact h.mem_append_saved (h.counts.dirCopies hcopies).2 e

def NoOverwrite (errors : List ErrorCopy) : Prop :=
  ∀ a ∈ errors, ∀ b ∈ errors, a.name = b.name → a.input = b.input

theorem Failing.unique {limit increment : ℕ} {reports : List Report}
    (hrows : ∀ report ∈ reports, ¬ report.RowsClash) {k i i' n : ℕ}
    (h : Failing limit increment reports k i n) (h' : Failing limit increment reports k i' n) :
    i = i' := by
  obtain ⟨report, hreport, hc⟩ := h
  obtain ⟨report', hreport', hc'⟩ := h'
  obtain rfl := Option.some.inj (hreport.symm.trans hreport')
  exact hc.unique (hrows report (List.mem_of_getElem? hreport)) hc'

theorem exists_failing_of_clash {limit increment : ℕ} {reports : List Report} {report : Report}
    (hin : report ∈ reports) (h : report.RowsClash) :
    ∃ k, Failing limit increment reports k 0 0 ∧ Failing limit increment reports k 1 0 := by
  obtain ⟨k, hk⟩ := List.mem_iff_getElem?.mp hin
  exact ⟨k, ⟨report, hk, h.copied.1⟩, ⟨report, hk, h.copied.2⟩⟩

section written

variable (env : Env) (its : List Iteration) (unfinished : Unfinished) (testIts : List Iteration)
  (testPart : Option Report)

def captureReports : List Report := its.map Iteration.report ++ unfinished.reports

def testReports : List Report := testIts.map Iteration.report ++ testPart.toList

/-- The names of the three writers stay apart: of the first two rows of a report, of `create_csv`
    and the report of the same number, and of the two phases. -/
structure NamesApart : Prop where
  rows : ∀ report, report ∈ captureReports its unfinished ∨ report ∈ testReports testIts testPart →
    ¬ report.RowsClash
  csv : ∀ k n, CsvSaves env its unfinished k n →
    ∀ i, ¬ CaptureFailing (captureReports its unfinished) (k + 1) i n
  report : ∀ k i n, TestFailing (testReports testIts testPart) k i n →
    ∀ i', ¬ CaptureFailing (captureReports its unfinished) k i' n
  test : ∀ k i n, TestFailing (testReports testIts testPart) (k + 1) i n →
    ¬ CsvSaves env its unfinished k n

inductive Written : ErrorCopy → Prop where
  | capture {k i n : ℕ} (h : CaptureFailing (captureReports its unfinished) k i n) :
      Written ⟨(.capture, k, i), (k, n)⟩
  | csv {k n : ℕ} (h : CsvSaves env its unfinished k n) : Written ⟨(.capture, k, n), (k + 1, n)⟩
  | test {k i n : ℕ} (h : TestFailing (testReports testIts testPart) k i n) :
      Written ⟨(.test, k, i), (k, n)⟩

variable {env its unfinished testIts testPart}

theorem mem_errors {totalCoverage : Option (List Bool)} {errors testCopies : List ErrorCopy}
    (hcapture : captureErrors env its unfinished = some errors)
    (htest : testErrors totalCoverage testIts testPart = some testCopies) (e : ErrorCopy) :
    e ∈ errors ++ testCopies ↔ Written env its unfinished testIts testPart e := by
  rw [List.mem_append, mem_captureErrors hcapture, mem_testErrors htest]
  constructor
  · rintro ((⟨k, i, n, h, rfl⟩ | ⟨k, n, h, rfl⟩) | ⟨k, i, n, h, rfl⟩)
    · exact .capture h
    · exact .csv h
    · exact .test h
  · rintro (⟨h⟩ | ⟨h⟩ | ⟨h⟩)
    · exact Or.inl (Or.inl ⟨_, _, _, h, rfl⟩)
    · exact Or.inl (Or.inr ⟨_, _, h, rfl⟩)
    · exact Or.inr ⟨_, _, _, h, rfl⟩

theorem NamesApart.input_eq (h : NamesApart env its unfinished testIts testPart) {a b : ErrorCopy}
    (ha : Written env its unfinished testIts testPart a)
    (hb : Written env its unfinished testIts testPart b) (hname : a.name = b.name) :
    a.input = b.input := by
  have hcapture := fun it hit => h.rows it (Or.inl hit)
  have htest := fun it hit => h.rows it (Or.inr hit)
  cases ha with
  | capture ha =>
    cases hb with
    | capture hb =>
      obtain ⟨rfl, rfl⟩ := Prod.mk.inj hname
      rw [Failing.unique hcapture ha hb]
    | csv hb =>
      obtain ⟨rfl, rfl⟩ := Prod.mk.inj hname
      exact (h.csv _ _ hb _ ha).elim
    | test hb =>
      obtain ⟨rfl, rfl⟩ := Prod.mk.inj hname
      exact (h.report _ _ _ hb _ ha).elim
  | csv ha =>
    cases hb with
    | capture hb =>
      obtain ⟨rfl, rfl⟩ := Prod.mk.inj hname
      exact (h.csv _ _ ha _ hb).elim
    | csv hb =>
      obtain ⟨hk, rfl⟩ := Prod.mk.inj hname
      rw [Nat.succ.inj hk]
    | test hb =>
      obtain ⟨rfl, rfl⟩ := Prod.mk.inj hname
      exact (h.test _ _ _ hb ha).elim
  | test ha =>
    cases hb with
    | capture hb =>
      obtain ⟨rfl, rfl⟩ := Prod.mk.inj hname
      exact (h.report _ _ _ ha _ hb).elim
    | csv hb =>
      obtain ⟨rfl, rfl⟩ := Prod.mk.inj hname
      exact (h.test _ _ _ ha hb).elim
    | test hb =>
      obtain ⟨rfl, rfl⟩ := Prod.mk.inj hname
      rw [Failing.unique htest ha hb]

theorem NamesApart.of_input_eq (h : ∀ a b : ErrorCopy, Written env its unfinished testIts testPart a →
    Written env its unfinished testIts testPart b → a.name = b.name → a.input = b.input) :
    NamesApart env its unfinished testIts testPart := by
  refine ⟨?_, fun k n hcsv i hc => ?_, fun k i n ht i' hc => ?_, fun k i n ht hcsv => ?_⟩
  · rintro it (hit | hit) hclash
    · obtain ⟨k, h₀, h₁⟩ := exists_failing_of_clash hit hclash
      have := h _ _ (.capture h₀) (.capture h₁) rfl
      simp at this
    · obtain ⟨k, h₀, h₁⟩ := exists_failing_of_clash hit hclash
      have := h _ _ (.test h₀) (.test h₁) rfl
      simp at this
  · have := h _ _ (.csv hcsv) (.capture hc) rfl
    simp at this
  · have := h _ _ (.test ht) (.capture hc) rfl
    simp at this
  · have := h _ _ (.test ht) (.csv hcsv) rfl
    simp at this

end written

/-- Whenever the two phases are ended, no copy replaces another exactly if the writers' names stay
    apart. -/
theorem errors_kept_iff (env : Env) (its : List Iteration) (unfinished : Unfinished)
    (errors : List ErrorCopy) (hcapture : captureErrors env its unfinished = some errors)
    (totalCoverage : Option (List Bool)) (testIts : List Iteration) (testPart : Option Report)
    (testCopies : List ErrorCopy)
    (htest : testErrors totalCoverage testIts testPart = some testCopies) :
    NoOverwrite (errors ++ testCopies) ↔ NamesApart env its unfinished testIts testPart := by
  have hmem := mem_errors hcapture htest
  constructor
  · intro h
    exact .of_input_eq fun a b ha hb => h a ((hmem a).mpr ha) b ((hmem b).mpr hb)
  · intro h a ha b hb
    exact h.input_eq ((hmem a).mp ha) ((hmem b).mp hb)

def reportedIteration (report : Report) : Iteration where
  batch := [ClusterTables.leafInput [true], { ClusterTables.leafInput [true] with
    tree := [[⟨"value", .range 0 1, 1, none⟩], [⟨"'y'", .leaf, -1, some (0, 0)⟩]] }]
  report := report
  cov := [true]

def leafEnv : Env := ⟨ClusterTables.sampleHashes, ClusterTables.leafGrammar, 9⟩

def uncoveringIteration : Iteration :=
  { reportedIteration (.cprog [-11, 0]) with batch := [ClusterTables.leafInput []] }

/-- The capture phase saves input 0 of its first iteration twice, the second time by `create_csv` in
    the iteration where it is ended; the test phase saves input 1 of its first one. -/
theorem errors_kept_iff_sample :
    captureErrors leafEnv [uncoveringIteration] (.clustering 1) =
      some [⟨(.capture, 0, 0), (0, 0)⟩, ⟨(.capture, 0, 0), (1, 0)⟩] ∧
    testErrors none [] (some (.cprog [0, -6])) = some [⟨(.test, 0, 1), (0, 1)⟩] ∧
    NamesApart leafEnv [uncoveringIteration] (.clustering 1) [] (some (.cprog [0, -6])) := by
  have hcapture : captureErrors leafEnv [uncoveringIteration] (.clustering 1) =
      some [⟨(.capture, 0, 0), (0, 0)⟩, ⟨(.capture, 0, 0), (1, 0)⟩] := by decide +kernel
  have htest : testErrors none [] (some (.cprog [0, -6])) = some [⟨(.test, 0, 1), (0, 1)⟩] := by
    decide +kernel
  refine ⟨hcapture, htest, (errors_kept_iff _ _ _ _ hcapture _ _ _ _ htest).mp ?_⟩
  simp [NoOverwrite]

/-- Input 0 fails and input 1 does not; input 1 is copied over input 0. -/
theorem errors_overwritten :
    ¬ ∀ (env : Env) (its : List Iteration) (unfinished : Unfinished) (errors : List ErrorCopy)
      (totalCoverage : Option (List Bool)) (testIts : List Iteration) (testPart : Option Report)
      (testCopies : List ErrorCopy), captureErrors env its unfinished = some errors →
      testErrors totalCoverage testIts testPart = some testCopies →
      NoOverwrite (errors ++ testCopies) := by
  intro h
  have hcapture : captureErrors leafEnv [reportedIteration (.javaprog1 ["1", "0"]),
      reportedIteration (.javaprog1 ["0", "0"])] (.clustering 0) =
        some [⟨(.capture, 0, 0), (0, 0)⟩, ⟨(.capture, 0, 1), (0, 0)⟩] := by decide +kernel
  have htest : testErrors none [reportedIteration (.javaprog1 ["0", "0"])] none = some [] := by
    decide +kernel
  have := h _ _ _ _ _ _ _ _ hcapture htest ⟨(.capture, 0, 0), (0, 0)⟩ (by simp)
    ⟨(.capture, 0, 1), (0, 0)⟩ (by simp) rfl
  simp at this

end RSFuzz
