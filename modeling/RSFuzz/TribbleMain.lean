import RSFuzz.FoundationFuel
import RSFuzz.GeneratorMain
import RSFuzz.TribbleCoverage

set_option autoImplicit false

/-!
# Calls of the k-path generator

`main` of `main/tribbleGenerator.py` calls `generate_input` until enough inputs
are written. Each call covers all k-paths again and numbers its files from where
the call before stopped.
-/
namespace RSFuzz
open OrderedMap Fuel

/-- `written[n]` is the file numbered `n`, and `calls` counts the calls made. -/
structure CallState where
  written : List (String × Tree)
  calls : ℕ

namespace TribbleGenerator

def call (g : TribbleGenerator) (kPaths : List (List Sym)) (rnd : ℕ → ℕ → RoundChoices) (fuel : ℕ)
    (s : CallState) : Option CallState :=
  (g.generateInput kPaths (rnd s.calls) fuel).map fun inputs =>
    ⟨s.written ++ inputs, s.calls + 1⟩

def main (g : TribbleGenerator) (kPaths : List (List Sym)) (rnd : ℕ → ℕ → RoundChoices)
    (inputNum fuel : ℕ) : Option (List (String × Tree)) :=
  (WhileLoop.run (fun s : CallState => s.written.length < inputNum)
    (g.normalized.call kPaths rnd fuel) fuel ⟨[], 0⟩).map CallState.written

theorem round_settled (g : TribbleGenerator) (rnd : ℕ → RoundChoices) (s : RoundState) :
    Settled fun fuel => g.round rnd fuel s :=
  (Settled.const _).bind fun _ => (Settled.const _).bind fun _ => (Settled.const _).bind fun _ =>
    (Settled.const _).bind fun _ =>
      Settled.bind ((settled_while _ _ _).map _) fun _ => (Settled.const _).bind fun _ =>
        Settled.bind ((settled_while _ _ _).map _) fun _ => .const _

theorem generateInput_settled (g : TribbleGenerator) (kPaths : List (List Sym))
    (rnd : ℕ → RoundChoices) : Settled (g.generateInput kPaths rnd) :=
  (settled_run (g.round_settled rnd) _).map _

theorem call_settled (g : TribbleGenerator) (kPaths : List (List Sym)) (rnd : ℕ → ℕ → RoundChoices)
    (s : CallState) : Settled fun fuel => g.call kPaths rnd fuel s :=
  (g.generateInput_settled kPaths (rnd s.calls)).map _

theorem call_normalized (g : TribbleGenerator) (kPaths : List (List Sym))
    (rnd : ℕ → ℕ → RoundChoices) (fuel : ℕ) :
    g.normalized.call kPaths rnd fuel = g.call kPaths rnd fuel := by
  funext s
  rw [call, call, normalized, generateInput_withGrammar g.grammar.reweighted_normalized]

theorem main_settled (g : TribbleGenerator) (kPaths : List (List Sym)) (rnd : ℕ → ℕ → RoundChoices)
    (inputNum : ℕ) : Settled (g.main kPaths rnd inputNum) :=
  (settled_run (g.normalized.call_settled kPaths rnd) _).map _

theorem generateInput_produces {g : TribbleGenerator} {kPaths : List (List Sym)}
    {rnd : ℕ → RoundChoices} {fuel : ℕ} {inputs : List (String × Tree)}
    (h : g.generateInput kPaths rnd fuel = some inputs) :
    ∀ input ∈ inputs, ∃ st, g.toInputGenerator.Produces st ∧ input.2 = st.tree := by
  obtain ⟨s, hrun, rfl⟩ := Option.map_eq_some_iff.mp h
  refine (WhileLoop.run_invariant
    (fun s => ∀ input ∈ s.written, ∃ st, g.toInputGenerator.Produces st ∧ input.2 = st.tree)
    (fun s s' hs _ hround => ?_) fuel (by simp) hrun).1
  simp only [round, Option.bind_eq_bind, Option.bind_eq_some_iff, Option.pure_def,
    Option.some.injEq] at hround
  obtain ⟨kPath, -, first, -, prefixes, -, pre, -, st, hst, text, -, uncovered, -, rfl⟩ := hround
  intro input hinput
  rcases List.mem_append.mp hinput with hold | hnew
  · exact hs input hold
  · obtain rfl := List.mem_singleton.mp hnew
    exact ⟨st, .tribble hst, rfl⟩

theorem main_produces {g : TribbleGenerator} {kPaths : List (List Sym)}
    {rnd : ℕ → ℕ → RoundChoices} {inputNum fuel : ℕ} {inputs : List (String × Tree)}
    (h : g.main kPaths rnd inputNum fuel = some inputs) :
    ∀ input ∈ inputs, ∃ st, g.toInputGenerator.Produces st ∧ input.2 = st.tree := by
  obtain ⟨s, hrun, rfl⟩ := Option.map_eq_some_iff.mp h
  rw [call_normalized] at hrun
  refine (WhileLoop.run_invariant
    (fun s => ∀ input ∈ s.written, ∃ st, g.toInputGenerator.Produces st ∧ input.2 = st.tree)
    (fun s s' hs _ hcall => ?_) fuel (by simp) hrun).1
  obtain ⟨batch, hbatch, rfl⟩ := Option.map_eq_some_iff.mp hcall
  intro input hinput
  rcases List.mem_append.mp hinput with hold | hnew
  · exact hs input hold
  · exact generateInput_produces hbatch input hnew

structure Batch (kPaths : List (List Sym)) (inputs : List (String × Tree)) : Prop where
  pos : 1 ≤ inputs.length
  length_le : inputs.length ≤ kPaths.length
  covers : ∀ path ∈ kPaths, ∃ input ∈ inputs, input.2.Occurs path

section Main

variable {g : TribbleGenerator} {kPaths : List (List Sym)}

theorem call_returns (hprod : g.grammar.Productive) (hkeys : g.config.startRule ∈ g.grammar.keys)
    (hd : DepthTable.ExactTable g.grammar g.depthsDict) (hne : kPaths ≠ [])
    (htable : g.PathTable kPaths) (rnd : ℕ → ℕ → RoundChoices) (s : CallState) :
    ∃ fuel inputs, g.call kPaths rnd fuel s = some ⟨s.written ++ inputs, s.calls + 1⟩ ∧
      Batch kPaths inputs := by
  obtain ⟨fuel, r, hrun, hinv, hempty⟩ := rounds_return hprod hkeys hd htable (rnd s.calls) _
    (s := ⟨kPaths, []⟩)
    ⟨List.Sublist.refl _, fun _ hp => Or.inl hp, by simp, fun hlt => absurd hlt (lt_irrefl _)⟩ rfl
  have hpos := List.length_pos_iff.mpr hne
  refine ⟨fuel, r.written, by rw [call, generateInput, hrun fuel le_rfl fuel le_rfl]; rfl,
    hinv.started (by rwa [hempty]), ?_, fun path hp => ?_⟩
  · have := hinv.count
    omega
  · rcases hinv.covered path hp with hu | hocc
    · rw [hempty] at hu
      cases hu
    · exact hocc

theorem main_returns (hprod : g.grammar.Productive) (hkeys : g.config.startRule ∈ g.grammar.keys)
    (hd : DepthTable.ExactTable g.grammar g.depthsDict) (hne : kPaths ≠ [])
    (htable : g.PathTable kPaths) (rnd : ℕ → ℕ → RoundChoices) (inputNum : ℕ) :
    ∃ (fuel : ℕ) (batches : List (List (String × Tree))),
      g.main kPaths rnd inputNum fuel = some batches.flatten ∧
      (∀ batch ∈ batches, Batch kPaths batch) ∧ inputNum ≤ batches.flatten.length ∧
      batches.flatten.length < inputNum + kPaths.length := by
  have hpos := List.length_pos_iff.mpr hne
  let below : CallState → Bool := fun s => decide (s.written.length < inputNum)
  obtain ⟨fuel, s, hrun, ⟨batches, hwritten, hall, hlt⟩, hexit⟩ :=
    @exists_run _ below _ (g.call_settled kPaths rnd)
    (fun s => ∃ batches : List (List (String × Tree)), s.written = batches.flatten ∧
      (∀ batch ∈ batches, Batch kPaths batch) ∧ s.written.length < inputNum + kPaths.length)
    (fun s => inputNum - s.written.length)
    (fun s ⟨batches, hwritten, hall, _⟩ hc => by
      obtain ⟨fuel, inputs, hcall, hbatch⟩ := call_returns hprod hkeys hd hne htable rnd s
      have hc : s.written.length < inputNum := by simpa [below] using hc
      have hone := hbatch.pos
      have hle := hbatch.length_le
      refine ⟨fuel, _, hcall, ⟨batches ++ [inputs], by simp [hwritten], ?_, ?_⟩, ?_⟩
      · intro batch hb
        rcases List.mem_append.mp hb with hb | hb
        · exact hall batch hb
        · rwa [List.mem_singleton.mp hb]
      · rw [List.length_append]
        omega
      · rw [List.length_append]
        omega)
    (s := ⟨[], 0⟩) ⟨[], rfl, by simp, by simp only [List.length_nil]; omega⟩
  have hexit : inputNum ≤ s.written.length := by simpa [below] using hexit
  rw [hwritten] at hexit hlt
  refine ⟨fuel, batches, ?_, hall, hexit, hlt⟩
  rw [main, call_normalized, hrun, Option.map_some, hwritten]

/-- Without k-paths a call writes nothing, and the loop goes on for ever. -/
theorem main_nil (g : TribbleGenerator) (rnd : ℕ → ℕ → RoundChoices) {inputNum : ℕ}
    (hpos : 0 < inputNum) (fuel : ℕ) : g.main [] rnd inputNum fuel = none := by
  have hcall : ∀ fuel' k, g.normalized.call [] rnd fuel' ⟨[], k⟩ = some ⟨[], k + 1⟩ := by
    intro fuel' k
    rw [call, generateInput, WhileLoop.run_of_not fuel' rfl]
    rfl
  have hloop : ∀ rounds k, WhileLoop.run (fun s : CallState => decide (s.written.length < inputNum))
      (g.normalized.call [] rnd fuel) rounds ⟨[], k⟩ = none := by
    intro rounds
    induction rounds with
    | zero => exact fun k => if_pos (by simpa using hpos)
    | succ rounds ih =>
      intro k
      refine Eq.trans (WhileLoop.run_succ_of rounds (by simpa using hpos)) ?_
      rw [hcall, Option.bind_some, ih]
  rw [main, hloop, Option.map_none]

end Main

/-- `main` returns exactly if there are k-paths or nothing is asked for. It then has written at
    least as many inputs as asked for, and fewer than one more call would add, in batches of
    which each has all k-paths in its trees. -/
theorem main_returns_iff (g : TribbleGenerator) (depthFuel : ℕ) (kPaths : List (List Sym))
    (hprod : g.grammar.Productive) (hstart : g.grammar.keys.head? = some g.config.startRule)
    (hdepths : calculateDepths g.grammar depthFuel = some g.depthsDict)
    (htable : g.PathTable kPaths) (rnd : ℕ → ℕ → RoundChoices) (inputNum : ℕ) :
    ((∃ fuel inputs, g.main kPaths rnd inputNum fuel = some inputs) ↔ kPaths ≠ [] ∨ inputNum = 0) ∧
    ∀ fuel inputs, g.main kPaths rnd inputNum fuel = some inputs →
      inputNum ≤ inputs.length ∧ inputs.length < inputNum + max 1 kPaths.length ∧
      ∃ batches : List (List (String × Tree)), inputs = batches.flatten ∧
        ∀ batch ∈ batches, Batch kPaths batch := by
  have hkeys : g.config.startRule ∈ g.grammar.keys := List.mem_of_mem_head? hstart
  have hd := DepthTable.calculateDepths_exactTable hprod.hasAlternatives hdepths
  have hzero : ∀ fuel, g.main kPaths rnd 0 fuel = some [] := fun fuel => by
    rw [main, WhileLoop.run_of_not fuel (by simp)]
    rfl
  constructor
  · constructor
    · rintro ⟨fuel, inputs, hrun⟩
      by_contra hcon
      obtain ⟨hnil, hpos⟩ := not_or.mp hcon
      rw [not_not.mp hnil, main_nil g rnd (Nat.pos_of_ne_zero hpos)] at hrun
      cases hrun
    · rintro (hne | rfl)
      · obtain ⟨fuel, batches, hrun, -⟩ := main_returns hprod hkeys hd hne htable rnd inputNum
        exact ⟨fuel, _, hrun⟩
      · exact ⟨0, _, hzero 0⟩
  · intro fuel inputs hrun
    rcases eq_or_ne kPaths [] with rfl | hne
    · rcases Nat.eq_zero_or_pos inputNum with rfl | hpos
      · obtain rfl := Option.some.inj ((hzero fuel).symm.trans hrun)
        exact ⟨le_rfl, by simp, [], rfl, by simp⟩
      · rw [main_nil g rnd hpos] at hrun
        cases hrun
    · obtain ⟨fuel', batches, hrun', hall, hle, hlt⟩ :=
        main_returns hprod hkeys hd hne htable rnd inputNum
      have h₁ : g.main kPaths rnd inputNum (max fuel fuel') = some inputs :=
        g.main_settled kPaths rnd inputNum _ _ (le_max_left _ _) _ hrun
      have h₂ : g.main kPaths rnd inputNum (max fuel fuel') = some batches.flatten :=
        g.main_settled kPaths rnd inputNum _ _ (le_max_right _ _) _ hrun'
      obtain rfl := Option.some.inj (h₁.symm.trans h₂)
      exact ⟨hle, hlt.trans_le (Nat.add_le_add_left (le_max_right _ _) _), batches, rfl, hall⟩

theorem main_returns_iff_sample : ∃ fuel inputs,
    sampleTribble.main [["list", "list", "list", "item", "'a'"]]
      (fun _ _ => ⟨0, 1, ⟨fun _ _ => 0, fun _ => 0⟩, fun _ pattern => pattern⟩) 3 fuel =
        some inputs ∧ inputs.length = 3 := by
  obtain ⟨hiff, hall⟩ := main_returns_iff sampleTribble 10 [["list", "list", "list", "item", "'a'"]]
    sampleGrammar_productive rfl (by decide +kernel)
    ⟨by decide, fun path hp => ⟨"list", [["list"], ["list", "list"]], by
      rw [List.mem_singleton.mp hp]
      exact ⟨rfl, rfl, by decide, by decide⟩⟩⟩
    (fun _ _ => ⟨0, 1, ⟨fun _ _ => 0, fun _ => 0⟩, fun _ pattern => pattern⟩) 3
  obtain ⟨fuel, inputs, hrun⟩ := hiff.mpr (Or.inl (by decide))
  obtain ⟨hle, hlt, -⟩ := hall fuel inputs hrun
  have hlt : inputs.length < 4 := hlt
  exact ⟨fuel, inputs, hrun, by omega⟩

end TribbleGenerator
end RSFuzz
