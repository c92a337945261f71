import Mathlib.Data.List.Forall2
import Mathlib.Data.Set.Function
import RSFuzz.RuleAvoidance

set_option autoImplicit false

/-!
# The tables encode the rules

What the conversion loop leaves determines the rules, and iterating the sets of
the rules in another order only renames the ids.
-/
namespace RSFuzz
open OrderedMap TableState

namespace TableState

def EntriesOnce (rs : Map Sym (List (ℕ × Finset ℕ))) : Prop :=
  ∀ S entries, rs.get? S = some entries → entries ≠ [] ∧ entries.Nodup

theorem EntriesOnce.addEntry {rs : Map Sym (List (ℕ × Finset ℕ))} (h : EntriesOnce rs)
    (converted : Finset ℕ) (key : Sym × ℕ) : EntriesOnce (addEntry converted rs key) := by
  intro S entries hget
  unfold TableState.addEntry at hget
  simp only at hget
  split_ifs at hget with hin
  · exact h S entries hget
  · rw [Map.get?_set] at hget
    split_ifs at hget with hS
    · obtain rfl := Option.some.inj hget
      refine ⟨by simp, ?_⟩
      rw [← List.concat_eq_append]
      refine List.Nodup.concat hin ?_
      cases hold : rs.get? key.1 with
      | none => exact List.nodup_nil
      | some old => exact (h _ old hold).2
    · exact h S entries hget

theorem EntriesOnce.addRule {ts : TableState} (h : EntriesOnce ts.rsForGenerator) {reg : List Sequence}
    (hreg : Registered ts reg) (rule : Rule) : EntriesOnce (ts.addRule rule).rsForGenerator := by
  obtain ⟨-, -, -, -, -, -, -, hrs⟩ := foldl_addSequence hreg rule ∅ []
  simp only [TableState.addRule]
  rw [hrs]
  generalize (rule.foldl addSequence (ts, ∅, [])).2.2 = keys
  generalize ts.rsForGenerator = rs at h
  induction keys generalizing rs with
  | nil => exact h
  | cons key keys ih => exact ih _ (h.addEntry _ key)

theorem foldl_addRule_entriesOnce (rules : List Rule) :
    EntriesOnce (rules.foldl addRule empty).rsForGenerator := by
  induction rules using List.reverseRecOn with
  | nil => simp [EntriesOnce, empty]
  | append_singleton rules rule ih =>
    obtain ⟨reg, hreg⟩ := foldl_addRule_encodes rules
    rw [List.foldl_append]
    exact ih.addRule hreg.registered rule

theorem mem_keys_recurrentSequence (rules : List Rule) (S : Sym) :
    S ∈ (buildTables rules).recurrentSequence.keys ↔
      0 < (((buildTables rules).recurrentSequence.get? S).getD []).length := by
  rw [Map.mem_keys_iff]
  cases hS : (buildTables rules).recurrentSequence.get? S with
  | none => simp
  | some entries => simpa using List.length_pos_iff.mpr (foldl_addRule_entriesOnce rules S entries hS).1

variable {rules : List Rule} {reg : List Sequence}

theorem Encodes.perm_dedup {ts : TableState} (h : Encodes ts rules reg) :
    reg.Perm rules.flatten.dedup := by
  rw [List.perm_ext_iff_of_nodup h.registered.nodup (List.nodup_dedup _)]
  intro s
  rw [h.mem, List.mem_dedup, List.mem_flatten]

end TableState

/-- What the tables say about the rules, without the order in which ids were given out. -/
structure FaithfulTables (rules : List Rule) (t : Tables) : Prop where
  ids_lt : ∀ S d p k, t.idOf? S d p = some k → k < rules.flatten.dedup.length
  ids_onto : ∀ k < rules.flatten.dedup.length, ∃ S d p, t.idOf? S d p = some k
  ids_injective : ∀ S d p S' d' p' k, t.idOf? S d p = some k → t.idOf? S' d' p' = some k →
    S = S' ∧ d = d' ∧ p = p'
  ids_domain : ∀ S d p, (∃ k, t.idOf? S d p = some k) ↔
    ∃ rule ∈ rules, ∃ s ∈ rule, s.lastSymbol = S ∧ s.dn = d ∧ s.symbols = p
  prefixes : ∀ k p, t.idxSubseq.get? k = some p ↔ ∃ S d, t.idOf? S d p = some k
  recover : ∀ rule ∈ rules, ∀ s, s ∈ rule ↔
    ∃ k ∈ t.idsOf rule, t.idOf? s.lastSymbol s.dn s.symbols = some k
  entries : ∀ S d K, (d, K) ∈ (t.recurrentSequence.get? S).getD [] ↔
    ∃ rule ∈ rules, K = t.idsOf rule ∧ ∃ s ∈ rule, s.lastSymbol = S ∧ s.dn = d
  nodup : ∀ S entries, t.recurrentSequence.get? S = some entries → entries.Nodup
  defined : ∀ S entries, t.recurrentSequence.get? S = some entries →
    ∀ e ∈ entries, ∀ k ∈ e.2, k ∈ t.idxSubseq.keys

theorem buildTables_faithful (rules : List Rule) : FaithfulTables rules (buildTables rules) := by
  obtain ⟨reg, h⟩ := foldl_addRule_encodes rules
  have hlookup : ∀ S d p k, (buildTables rules).idOf? S d p = some k ↔
      ∃ s, reg[k]? = some s ∧ s.lastSymbol = S ∧ s.dn = d ∧ s.symbols = p := h.registered.lookup
  have hlen : reg.length = rules.flatten.dedup.length := h.perm_dedup.length_eq
  have hidx : ∀ k, (buildTables rules).idxSubseq.get? k = (reg[k]?).map Sequence.symbols :=
    h.registered.idx
  refine ⟨?_, ?_, ?_, ?_, ?_, ?_, ?_, ?_, (buildTables rules).defined⟩
  · intro S d p k hk
    obtain ⟨s, hs, -⟩ := (hlookup S d p k).mp hk
    rw [← hlen]
    exact (List.getElem?_eq_some_iff.mp hs).1
  · intro k hk
    rw [← hlen] at hk
    exact ⟨_, _, _, (hlookup _ _ _ k).mpr ⟨reg[k], List.getElem?_eq_getElem hk, rfl, rfl, rfl⟩⟩
  · intro S d p S' d' p' k hk hk'
    obtain ⟨s, hs, rfl, rfl, rfl⟩ := (hlookup S d p k).mp hk
    obtain ⟨s', hs', rfl, rfl, rfl⟩ := (hlookup S' d' p' k).mp hk'
    obtain rfl := Option.some.inj (hs.symm.trans hs')
    exact ⟨rfl, rfl, rfl⟩
  · intro S d p
    constructor
    · rintro ⟨k, hk⟩
      obtain ⟨s, hs, hend⟩ := (hlookup S d p k).mp hk
      obtain ⟨rule, hrule, hin⟩ := (h.mem s).mp (List.mem_of_getElem? hs)
      exact ⟨rule, hrule, s, hin, hend⟩
    · rintro ⟨rule, hrule, s, hin, hend⟩
      obtain ⟨k, hk⟩ := List.mem_iff_getElem?.mp ((h.mem s).mpr ⟨rule, hrule, hin⟩)
      exact ⟨k, (hlookup S d p k).mpr ⟨s, hk, hend⟩⟩
  · intro k p
    rw [hidx]
    constructor
    · intro hk
      obtain ⟨s, hs, rfl⟩ := Option.map_eq_some_iff.mp hk
      exact ⟨_, _, (hlookup _ _ _ k).mpr ⟨s, hs, rfl, rfl, rfl⟩⟩
    · rintro ⟨S, d, hk⟩
      obtain ⟨s, hs, -, -, rfl⟩ := (hlookup S d p k).mp hk
      rw [hs, Option.map_some]
  · intro rule hrule s
    rw [idsOf_eq h]
    constructor
    · intro hs
      obtain ⟨k, hk⟩ := List.mem_iff_getElem?.mp ((h.mem s).mpr ⟨rule, hrule, hs⟩)
      exact ⟨k, mem_idsOf.mpr ⟨s, hs, hk⟩, (hlookup _ _ _ k).mpr ⟨s, hk, rfl, rfl, rfl⟩⟩
    · rintro ⟨k, hk, hid⟩
      obtain ⟨u, hu, huk⟩ := mem_idsOf.mp hk
      obtain ⟨s', hs', -, hd, hp⟩ := (hlookup _ _ _ k).mp hid
      obtain rfl : s' = s := Sequence.ext hp hd
      obtain rfl := Option.some.inj (huk.symm.trans hs')
      exact hu
  · intro S d K
    have := h.entries S d K
    simp only [← idsOf_eq h] at this
    exact this
  · exact fun S entries hS => (foldl_addRule_entriesOnce rules S entries hS).2

/-- The tables are the same but for the names of the ids and the order of the entries. -/
structure SameUpTo (ρ : ℕ → ℕ) (t t' : Tables) : Prop where
  bijective : Set.BijOn ρ {k | k ∈ t.idxSubseq.keys} {k | k ∈ t'.idxSubseq.keys}
  ids : ∀ S d p, t'.idOf? S d p = (t.idOf? S d p).map ρ
  prefixes : ∀ k ∈ t.idxSubseq.keys, t'.idxSubseq.get? (ρ k) = t.idxSubseq.get? k
  symbols : ∀ S, S ∈ t'.recurrentSequence.keys ↔ S ∈ t.recurrentSequence.keys
  entries : ∀ S, ((t'.recurrentSequence.get? S).getD []).Perm
    (((t.recurrentSequence.get? S).getD []).map fun e => (e.1, e.2.image ρ))

/-- The id that the sequence with this id has in the other numbering. -/
def renameId (reg reg' : List Sequence) (k : ℕ) : ℕ := (reg[k]?).elim 0 fun s => reg'.idxOf s

theorem exists_perm_of_forall₂ {rules rules' : List Rule} (h : List.Forall₂ List.Perm rules rules') :
    (∀ rule ∈ rules, ∃ rule' ∈ rules', rule.Perm rule') ∧
      ∀ rule' ∈ rules', ∃ rule ∈ rules, rule.Perm rule' := by
  induction h with
  | nil => simp
  | cons hperm _ ih =>
    constructor
    · rw [List.forall_mem_cons]
      refine ⟨⟨_, by simp, hperm⟩, fun rule hrule => ?_⟩
      obtain ⟨rule', hrule', hp⟩ := ih.1 rule hrule
      exact ⟨rule', List.mem_cons_of_mem _ hrule', hp⟩
    · rw [List.forall_mem_cons]
      refine ⟨⟨_, by simp, hperm⟩, fun rule' hrule' => ?_⟩
      obtain ⟨rule, hrule, hp⟩ := ih.2 rule' hrule'
      exact ⟨rule, List.mem_cons_of_mem _ hrule, hp⟩

section Renaming

variable {rules rules' : List Rule} {reg reg' : List Sequence}
  (h : Encodes (rules.foldl addRule empty) rules reg)
  (h' : Encodes (rules'.foldl addRule empty) rules' reg')
  (hsame : List.Forall₂ List.Perm rules rules')

include h h' hsame

theorem mem_registered_iff (s : Sequence) : s ∈ reg' ↔ s ∈ reg := by
  obtain ⟨hto, hfrom⟩ := exists_perm_of_forall₂ hsame
  rw [h.mem, h'.mem]
  constructor
  · rintro ⟨rule', hrule', hs⟩
    obtain ⟨rule, hrule, hperm⟩ := hfrom rule' hrule'
    exact ⟨rule, hrule, hperm.mem_iff.mpr hs⟩
  · rintro ⟨rule, hrule, hs⟩
    obtain ⟨rule', hrule', hperm⟩ := hto rule hrule
    exact ⟨rule', hrule', hperm.mem_iff.mp hs⟩

theorem getElem?_renameId {k : ℕ} {s : Sequence} (hk : reg[k]? = some s) :
    reg'[renameId reg reg' k]? = some s := by
  have hin : s ∈ reg' := (mem_registered_iff h h' hsame s).mpr (List.mem_of_getElem? hk)
  rw [renameId, hk, Option.elim_some, List.getElem?_eq_getElem (List.idxOf_lt_length_of_mem hin),
    List.getElem_idxOf]

theorem getElem?_iff_renameId {k' : ℕ} {s : Sequence} :
    reg'[k']? = some s ↔ ∃ k, reg[k]? = some s ∧ renameId reg reg' k = k' := by
  constructor
  · intro hk'
    obtain ⟨k, hk⟩ := List.mem_iff_getElem?.mp
      ((mem_registered_iff h h' hsame s).mp (List.mem_of_getElem? hk'))
    exact ⟨k, hk, h'.registered.id_unique (getElem?_renameId h h' hsame hk) hk'⟩
  · rintro ⟨k, hk, rfl⟩
    exact getElem?_renameId h h' hsame hk

theorem renameId_injOn {k l : ℕ} (hk : k < reg.length) (hl : l < reg.length)
    (he : renameId reg reg' k = renameId reg reg' l) : k = l := by
  have hks := getElem?_renameId h h' hsame (List.getElem?_eq_getElem hk)
  have hls := getElem?_renameId h h' hsame (List.getElem?_eq_getElem hl)
  rw [he, hls] at hks
  exact ((List.Nodup.getElem_inj_iff h.registered.nodup).mp (Option.some.inj hks)).symm

theorem image_renameId_inj {K L : Finset ℕ} (hK : ∀ k ∈ K, k < reg.length)
    (hL : ∀ k ∈ L, k < reg.length) (he : K.image (renameId reg reg') = L.image (renameId reg reg')) :
    K = L := by
  have hsub : ∀ {K L : Finset ℕ}, (∀ k ∈ K, k < reg.length) → (∀ k ∈ L, k < reg.length) →
      K.image (renameId reg reg') = L.image (renameId reg reg') → K ⊆ L := by
    intro K L hK hL he k hk
    obtain ⟨l, hl, hlk⟩ := Finset.mem_image.mp (he ▸ Finset.mem_image_of_mem _ hk)
    rwa [← renameId_injOn h h' hsame (hL l hl) (hK k hk) hlk]
  exact (hsub hK hL he).antisymm (hsub hL hK he.symm)

theorem image_idsOf {rule rule' : Rule} (hperm : rule.Perm rule') :
    (TableState.idsOf reg rule).image (renameId reg reg') = TableState.idsOf reg' rule' := by
  ext k'
  rw [Finset.mem_image, mem_idsOf]
  constructor
  · rintro ⟨k, hk, rfl⟩
    obtain ⟨s, hs, hks⟩ := mem_idsOf.mp hk
    exact ⟨s, hperm.mem_iff.mp hs, getElem?_renameId h h' hsame hks⟩
  · rintro ⟨s, hs, hk'⟩
    obtain ⟨k, hk, rfl⟩ := (getElem?_iff_renameId h h' hsame).mp hk'
    exact ⟨k, mem_idsOf.mpr ⟨s, hperm.mem_iff.mpr hs, hk⟩, rfl⟩

theorem entries_perm (S : Sym) :
    (((buildTables rules').recurrentSequence.get? S).getD []).Perm
      ((((buildTables rules).recurrentSequence.get? S).getD []).map
        fun e => (e.1, e.2.image (renameId reg reg'))) := by
  have honce : ∀ rules : List Rule, (((buildTables rules).recurrentSequence.get? S).getD []).Nodup := by
    intro rules
    cases hS : (buildTables rules).recurrentSequence.get? S with
    | none => exact List.nodup_nil
    | some entries => exact (buildTables_faithful rules).nodup S entries hS
  have hids : ∀ e ∈ ((buildTables rules).recurrentSequence.get? S).getD [], ∀ k ∈ e.2,
      k < reg.length := by
    rintro ⟨d, K⟩ he k hk
    obtain ⟨rule, -, rfl, -⟩ := (h.entries S d K).mp he
    obtain ⟨s, -, hks⟩ := mem_idsOf.mp hk
    exact (List.getElem?_eq_some_iff.mp hks).1
  obtain ⟨hto, hfrom⟩ := exists_perm_of_forall₂ hsame
  rw [List.perm_ext_iff_of_nodup (honce rules') ?_]
  · rintro ⟨d, K'⟩
    rw [List.mem_map]
    constructor
    · intro he
      obtain ⟨rule', hrule', rfl, s, hs, hend⟩ := (h'.entries S d K').mp he
      obtain ⟨rule, hrule, hperm⟩ := hfrom rule' hrule'
      refine ⟨(d, TableState.idsOf reg rule), (h.entries S d _).mpr
        ⟨rule, hrule, rfl, s, hperm.mem_iff.mpr hs, hend⟩, ?_⟩
      rw [image_idsOf h h' hsame hperm]
    · rintro ⟨⟨d', K⟩, he, heq⟩
      obtain ⟨rfl, rfl⟩ := Prod.mk.inj heq
      obtain ⟨rule, hrule, rfl, s, hs, hend⟩ := (h.entries S d' K).mp he
      obtain ⟨rule', hrule', hperm⟩ := hto rule hrule
      exact (h'.entries S d' _).mpr ⟨rule', hrule', image_idsOf h h' hsame hperm, s,
        hperm.mem_iff.mp hs, hend⟩
  · refine (honce rules).map_on ?_
    rintro ⟨d, K⟩ he ⟨d', L⟩ he' heq
    obtain ⟨hd, himage⟩ := Prod.mk.inj heq
    exact Prod.ext hd (image_renameId_inj h h' hsame (hids _ he) (hids _ he') himage)

theorem sameUpTo_renameId : SameUpTo (renameId reg reg') (buildTables rules) (buildTables rules') := by
  have hlookup : ∀ S d p k, (buildTables rules).idOf? S d p = some k ↔
      ∃ s, reg[k]? = some s ∧ s.lastSymbol = S ∧ s.dn = d ∧ s.symbols = p := h.registered.lookup
  have hlookup' : ∀ S d p k, (buildTables rules').idOf? S d p = some k ↔
      ∃ s, reg'[k]? = some s ∧ s.lastSymbol = S ∧ s.dn = d ∧ s.symbols = p := h'.registered.lookup
  have hidx : ∀ k, (buildTables rules).idxSubseq.get? k = (reg[k]?).map Sequence.symbols :=
    h.registered.idx
  have hidx' : ∀ k, (buildTables rules').idxSubseq.get? k = (reg'[k]?).map Sequence.symbols :=
    h'.registered.idx
  have hkeys : ∀ k, k ∈ (buildTables rules).idxSubseq.keys ↔ k < reg.length := by
    intro k
    rw [Map.mem_keys_iff, hidx]
    simp
  have hkeys' : ∀ k, k ∈ (buildTables rules').idxSubseq.keys ↔ k < reg'.length := by
    intro k
    rw [Map.mem_keys_iff, hidx']
    simp
  refine ⟨⟨fun k hk => ?_, fun k hk l hl => ?_, fun k' hk' => ?_⟩, fun S d p => ?_, fun k hk => ?_,
    fun S => ?_, entries_perm h h' hsame⟩
  · have := getElem?_renameId h h' hsame (List.getElem?_eq_getElem ((hkeys k).mp hk))
    exact (hkeys' _).mpr (List.getElem?_eq_some_iff.mp this).1
  · exact renameId_injOn h h' hsame ((hkeys k).mp hk) ((hkeys l).mp hl)
  · obtain ⟨k, hk, rfl⟩ := (getElem?_iff_renameId h h' hsame).mp
      (List.getElem?_eq_getElem ((hkeys' k').mp hk'))
    exact ⟨k, (hkeys k).mpr (List.getElem?_eq_some_iff.mp hk).1, rfl⟩
  · ext k'
    rw [hlookup', Option.map_eq_some_iff]
    simp only [hlookup, getElem?_iff_renameId h h' hsame]
    constructor
    · rintro ⟨s, ⟨k, hk, rfl⟩, hend⟩
      exact ⟨k, ⟨s, hk, hend⟩, rfl⟩
    · rintro ⟨k, ⟨s, hk, hend⟩, rfl⟩
      exact ⟨s, ⟨k, hk, rfl⟩, hend⟩
  · have hk' := List.getElem?_eq_getElem ((hkeys k).mp hk)
    rw [hidx, hidx', getElem?_renameId h h' hsame hk', hk']
  · rw [mem_keys_recurrentSequence, mem_keys_recurrentSequence, (entries_perm h h' hsame S).length_eq,
      List.length_map]

end Renaming

/-- The tables of any rules are a faithful encoding, and other orders of iterating the sets of the
    rules give the same tables up to the names of the ids and the order of the entries. -/
theorem tables_faithful (rules : List Rule) : FaithfulTables rules (buildTables rules) ∧
    ∀ rules', List.Forall₂ List.Perm rules rules' →
      ∃ ρ, SameUpTo ρ (buildTables rules) (buildTables rules') := by
  refine ⟨buildTables_faithful rules, fun rules' hsame => ?_⟩
  obtain ⟨reg, h⟩ := foldl_addRule_encodes rules
  obtain ⟨reg', h'⟩ := foldl_addRule_encodes rules'
  exact ⟨renameId reg reg', sameUpTo_renameId h h' hsame⟩

theorem tables_faithful_reversed :
    ∃ ρ, SameUpTo ρ (buildTables [crossRule]) (buildTables [crossRule.reverse]) :=
  (tables_faithful [crossRule]).2 [crossRule.reverse] (.cons (List.reverse_perm crossRule).symm .nil)

end RSFuzz
