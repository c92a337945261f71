import RSFuzz.CaptureProgress
import RSFuzz.RunFuel
import RSFuzz.RuleTables

set_option autoImplicit false

/-!
# The closed loop of the capture phase

In `generateRS.run` the rules captured so far are converted into the tables that
the next inputs are generated with, these inputs are clustered at the next
update, and so on; after every iteration the tables are copied to the file that
the test phase starts from.
-/
namespace RSFuzz
open OrderedMap OptionFold Fuel ClusterTables

/-- `Generator.parse_args`, as the loop uses it: the trees of the inputs it writes, which are
    complete whatever the tables are. -/
structure BaseFuzzer (G : Grammar) (start : Sym) where
  Draws : Type
  batch : Tables → Draws → ℕ → Option (List Tree)
  produces : ∀ t draws fuel trees, batch t draws fuel = some trees → ∀ tree ∈ trees,
    ∃ (g : InputGenerator) (st : GenState), g.grammar = G ∧ g.config.startRule = start ∧
      g.tables = t ∧ g.Produces st ∧ tree = st.tree
  settled : ∀ t draws, Settled (batch t draws)
  returns : ∀ t draws, ∃ fuel trees, batch t draws fuel = some trees

structure RuleOrder where
  list : RuleSet → Rule
  perm : ∀ rs, (list rs : Multiset Sequence) = rs.val

/-- What an iteration depends on besides the state: the fuzzer's draws, what the measured program
    answers for each input and for all of them, and the choices of the update before. -/
structure LoopIteration {G : Grammar} {start : Sym} (fuzzer : BaseFuzzer G start) where
  draws : fuzzer.Draws
  order : ℕ → IterationOrder (List Entry)
  fileCov : ℕ → List Bool
  report : Report
  cov : List Bool
  update : UpdateChoice
  ruleOrder : RuleOrder

/-- `tables` are the three dictionaries for the generator, and `file` is
    `recurrent_sequences.pickle`, if it was written. -/
structure LoopState where
  capture : CaptureState
  rules : RuleState
  tables : Tables
  file : Option Tables

section Loop

variable {G : Grammar} {start : Sym} {fuzzer : BaseFuzzer G start}

def LoopIteration.iteration (it : LoopIteration fuzzer) (trees : List Tree) : Iteration where
  batch := trees.zipIdx.map fun (tree, i) => ⟨tree, it.order i, it.fileCov i⟩
  report := it.report
  cov := it.cov

/-- "Make PL for generator", where the rules were updated. -/
def tablesIfDue (h : Hashes) (fuel : ℕ) (it : LoopIteration fuzzer) (s : LoopState) :
    Option Tables :=
  if s.capture.coverage.doUpdate then do
    let (_, updated) ← updateRules ⟨h, G, fuel⟩ it.update s.capture s.rules
    let rss ← rulesForGenerator G it.update.merge updated.recurrentSequences
    return buildTables (rss.map it.ruleOrder.list)
  else some s.tables

def loopStep (h : Hashes) (fuel : ℕ) (s : LoopState) (it : LoopIteration fuzzer) :
    Option LoopState := do
  let tables ← tablesIfDue h fuel it s
  let trees ← fuzzer.batch tables it.draws fuel
  let (capture, rules) ← ruleStep ⟨h, G, fuel⟩ (s.capture, s.rules) (it.iteration trees, it.update)
  return ⟨capture, rules, tables, some tables⟩

def loopInit (fuel : ℕ) (first : LoopIteration fuzzer) : Option LoopState := do
  let trees ← fuzzer.batch Tables.empty first.draws fuel
  let capture ← captureInit (first.iteration trees)
  return ⟨capture, .empty, Tables.empty, none⟩

/-- `generateRS.run` up to the end of an iteration. -/
def loopRun (h : Hashes) (fuel : ℕ) (first : LoopIteration fuzzer)
    (its : List (LoopIteration fuzzer)) : Option LoopState :=
  (loopInit fuel first).bind fun s => its.foldlM (loopStep h fuel) s

variable {h : Hashes} {fuel : ℕ} {first it : LoopIteration fuzzer}
  {its : List (LoopIteration fuzzer)} {s s' : LoopState}

theorem tablesIfDue_settled (it : LoopIteration fuzzer) (s : LoopState) :
    Settled fun fuel => tablesIfDue h fuel it s :=
  .ite _ ((updateRules_settled it.update s.capture s.rules).bind fun _ => .const _) (.const _)

theorem loopStep_settled (s : LoopState) (it : LoopIteration fuzzer) :
    Settled fun fuel => loopStep h fuel s it :=
  (tablesIfDue_settled it s).bind fun tables =>
    (fuzzer.settled tables it.draws).bind fun trees =>
      (ruleStep_settled (s.capture, s.rules) (it.iteration trees, it.update)).bind fun _ => .const _

theorem loopRun_settled (first : LoopIteration fuzzer) (its : List (LoopIteration fuzzer)) :
    Settled fun fuel => loopRun h fuel first its := by
  have hinit : Settled fun fuel => loopInit fuel first :=
    (fuzzer.settled Tables.empty first.draws).bind fun _ => .const _
  exact hinit.bind fun s => .foldlM loopStep_settled its s

theorem loopInit_eq (hrun : loopInit fuel first = some s) :
    ∃ trees, fuzzer.batch Tables.empty first.draws fuel = some trees ∧
      captureInit (first.iteration trees) = some s.capture ∧
      s = ⟨s.capture, .empty, Tables.empty, none⟩ := by
  simp only [loopInit, Option.bind_eq_bind, Option.pure_def] at hrun
  obtain ⟨trees, htrees, hrun⟩ := Option.bind_eq_some_iff.mp hrun
  obtain ⟨capture, hcapture, hrun⟩ := Option.bind_eq_some_iff.mp hrun
  obtain rfl := Option.some.inj hrun
  exact ⟨trees, htrees, hcapture, rfl⟩

theorem loopStep_eq (hrun : loopStep h fuel s it = some s') :
    ∃ trees, tablesIfDue h fuel it s = some s'.tables ∧
      fuzzer.batch s'.tables it.draws fuel = some trees ∧
      ruleStep ⟨h, G, fuel⟩ (s.capture, s.rules) (it.iteration trees, it.update) =
        some (s'.capture, s'.rules) ∧ s'.file = some s'.tables := by
  simp only [loopStep, Option.bind_eq_bind, Option.pure_def] at hrun
  obtain ⟨tables, htables, hrun⟩ := Option.bind_eq_some_iff.mp hrun
  obtain ⟨trees, htrees, hrun⟩ := Option.bind_eq_some_iff.mp hrun
  obtain ⟨⟨capture, rules⟩, hstep, hrun⟩ := Option.bind_eq_some_iff.mp hrun
  obtain rfl := Option.some.inj hrun
  exact ⟨trees, htables, htrees, hstep, rfl⟩

theorem loopRun_concat (hrun : loopRun h fuel first (its ++ [it]) = some s') :
    ∃ s, loopRun h fuel first its = some s ∧ loopStep h fuel s it = some s' := by
  obtain ⟨s₀, h₀, hloop⟩ := Option.bind_eq_some_iff.mp hrun
  obtain ⟨s, hs, hstep⟩ := foldlM_concat hloop
  exact ⟨s, Option.bind_eq_some_iff.mpr ⟨s₀, h₀, hs⟩, hstep⟩

theorem loopRun_append {rest : List (LoopIteration fuzzer)} :
    loopRun h fuel first (its ++ rest) =
      (loopRun h fuel first its).bind fun s => rest.foldlM (loopStep h fuel) s := by
  rw [loopRun, loopRun, Option.bind_assoc]
  congr 1
  funext s
  rw [List.foldlM_append, Option.bind_eq_bind]

end Loop

end RSFuzz
