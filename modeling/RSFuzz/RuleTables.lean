import Mathlib.Data.Finset.Range
import RSFuzz.FoundationOptionFold
import RSFuzz.GeneratorMatching

set_option autoImplicit false

/-!
# The tables handed to the generator

The conversion loop of `generateRS.run` numbers the sequences of the rules in
the order in which they are first met. A rule is the list of its sequences in
the order in which the set is iterated.
-/
namespace RSFuzz
open OrderedMap OptionFold

abbrev Rule := List Sequence

/-- `subseq_for_generator`, `idx_subseq`, `n_subseq` and `rs_for_generator`. -/
structure TableState where
  subseqForGenerator : Map Sym (Map ℕ (Map (List Sym) ℕ))
  idxSubseq : Map ℕ (List Sym)
  nSubseq : ℕ
  rsForGenerator : Map Sym (List (ℕ × Finset ℕ))

namespace TableState

def empty : TableState := ⟨Map.empty, Map.empty, 0, Map.empty⟩

def idOf? (ts : TableState) (S : Sym) (d : ℕ) (p : List Sym) : Option ℕ :=
  ((ts.subseqForGenerator.get? S).bind (·.get? d)).bind (·.get? p)

def register (ts : TableState) (s : Sequence) : TableState × ℕ :=
  let bySymbol := (ts.subseqForGenerator.get? s.lastSymbol).getD Map.empty
  let byDn := (bySymbol.get? s.dn).getD Map.empty
  match byDn.get? s.symbols with
  | some k => (ts, k)
  | none => ({ ts with
      subseqForGenerator := ts.subseqForGenerator.set s.lastSymbol
        (bySymbol.set s.dn (byDn.set s.symbols ts.nSubseq))
      idxSubseq := ts.idxSubseq.set ts.nSubseq s.symbols
      nSubseq := ts.nSubseq + 1 }, ts.nSubseq)

/-- The inner loop: `converted_rs` and `tmp_keys_for_generator` with the tables so far. -/
def addSequence (acc : TableState × Finset ℕ × List (Sym × ℕ)) (s : Sequence) :
    TableState × Finset ℕ × List (Sym × ℕ) :=
  let r := acc.1.register s
  (r.1, insert r.2 acc.2.1, acc.2.2 ++ [(s.lastSymbol, s.dn)])

def addEntry (converted : Finset ℕ) (rs : Map Sym (List (ℕ × Finset ℕ))) (key : Sym × ℕ) :
    Map Sym (List (ℕ × Finset ℕ)) :=
  let entries := (rs.get? key.1).getD []
  if (key.2, converted) ∈ entries then rs
  else rs.set key.1 (entries ++ [(key.2, converted)])

def addRule (ts : TableState) (rule : Rule) : TableState :=
  let acc := rule.foldl addSequence (ts, ∅, [])
  { acc.1 with rsForGenerator := acc.2.2.foldl (addEntry acc.2.1) acc.1.rsForGenerator }

/-- The ids are the places of the sequences in the order of their registration. -/
structure Registered (ts : TableState) (reg : List Sequence) : Prop where
  nodup : reg.Nodup
  count : ts.nSubseq = reg.length
  lookup : ∀ S d p k, ts.idOf? S d p = some k ↔
    ∃ s, reg[k]? = some s ∧ s.lastSymbol = S ∧ s.dn = d ∧ s.symbols = p
  idx : ∀ k, ts.idxSubseq.get? k = (reg[k]?).map Sequence.symbols

theorem registered_empty : Registered empty [] where
  nodup := List.nodup_nil
  count := rfl
  lookup := by simp [idOf?, empty]
  idx := by simp [empty]

variable {ts : TableState} {reg : List Sequence}

theorem Registered.id_unique (h : Registered ts reg) {i j : ℕ} {s : Sequence}
    (hi : reg[i]? = some s) (hj : reg[j]? = some s) : i = j := by
  obtain ⟨hil, rfl⟩ := List.getElem?_eq_some_iff.mp hi
  obtain ⟨hjl, he⟩ := List.getElem?_eq_some_iff.mp hj
  exact ((List.Nodup.getElem_inj_iff h.nodup).mp he).symm

theorem register_lookup (s : Sequence) :
    ((((ts.subseqForGenerator.get? s.lastSymbol).getD Map.empty).get? s.dn).getD
      Map.empty).get? s.symbols = ts.idOf? s.lastSymbol s.dn s.symbols := by
  unfold idOf?
  cases ts.subseqForGenerator.get? s.lastSymbol with
  | none => rfl
  | some bySymbol =>
    cases hd : bySymbol.get? s.dn <;> simp [hd]

theorem idOf?_register (s : Sequence) (hnew : ts.idOf? s.lastSymbol s.dn s.symbols = none)
    (S : Sym) (d : ℕ) (p : List Sym) :
    (ts.register s).1.idOf? S d p =
      if S = s.lastSymbol ∧ d = s.dn ∧ p = s.symbols then some ts.nSubseq
      else ts.idOf? S d p := by
  rw [← register_lookup] at hnew
  simp only [register, hnew, idOf?, Map.get?_set]
  by_cases hS : S = s.lastSymbol
  · subst hS
    simp only [↓reduceIte, Option.bind_some, Map.get?_set, true_and]
    by_cases hd : d = s.dn
    · subst hd
      simp only [↓reduceIte, Option.bind_some, Map.get?_set, true_and]
      split_ifs with hp
      · rfl
      · cases ts.subseqForGenerator.get? s.lastSymbol with
        | none => rfl
        | some bySymbol => cases hd : bySymbol.get? s.dn <;> simp [hd]
    · simp only [hd, ↓reduceIte, false_and]
      cases ts.subseqForGenerator.get? s.lastSymbol <;> simp
  · simp [hS]

theorem register_known {s : Sequence} {k : ℕ}
    (hid : ts.idOf? s.lastSymbol s.dn s.symbols = some k) : ts.register s = (ts, k) := by
  simp only [register, register_lookup, hid]

theorem register_new {s : Sequence} (hid : ts.idOf? s.lastSymbol s.dn s.symbols = none) :
    (ts.register s).2 = ts.nSubseq ∧ (ts.register s).1.nSubseq = ts.nSubseq + 1 ∧
      (ts.register s).1.idxSubseq = ts.idxSubseq.set ts.nSubseq s.symbols ∧
      (ts.register s).1.rsForGenerator = ts.rsForGenerator := by
  simp only [register, register_lookup, hid, and_self]

theorem Registered.not_mem (h : Registered ts reg) {s : Sequence}
    (hid : ts.idOf? s.lastSymbol s.dn s.symbols = none) : s ∉ reg := by
  intro hmem
  obtain ⟨k, hk⟩ := List.mem_iff_getElem?.mp hmem
  have := (h.lookup s.lastSymbol s.dn s.symbols k).mpr ⟨s, hk, rfl, rfl, rfl⟩
  rw [hid] at this
  cases this

theorem Registered.add (h : Registered ts reg) {s : Sequence}
    (hid : ts.idOf? s.lastSymbol s.dn s.symbols = none) :
    Registered (ts.register s).1 (reg ++ [s]) := by
  obtain ⟨-, hcount, hidx, -⟩ := register_new hid
  refine ⟨?_, by simp [hcount, h.count], fun S d p k => ?_, fun k => ?_⟩
  · rw [← List.concat_eq_append]
    exact h.nodup.concat (h.not_mem hid)
  · rw [idOf?_register s hid]
    simp only [getElem?_concat_iff]
    constructor
    · intro hk
      split_ifs at hk with hc
      · obtain ⟨rfl, rfl, rfl⟩ := hc
        obtain rfl := Option.some.inj hk
        exact ⟨s, Or.inr ⟨h.count, rfl⟩, rfl, rfl, rfl⟩
      · obtain ⟨s', hs', hrest⟩ := (h.lookup S d p k).mp hk
        exact ⟨s', Or.inl hs', hrest⟩
    · rintro ⟨s', hs' | ⟨rfl, rfl⟩, rfl, rfl, rfl⟩
      · have hk := (h.lookup _ _ _ k).mpr ⟨s', hs', rfl, rfl, rfl⟩
        rw [if_neg]
        · exact hk
        · rintro ⟨hS, hd, hp⟩
          rw [hS, hd, hp, hid] at hk
          cases hk
      · rw [if_pos ⟨rfl, rfl, rfl⟩, h.count]
  · rw [hidx, Map.get?_set, h.count, h.idx k]
    split_ifs with hk
    · subst hk
      simp
    · exact congrArg _ (Option.ext fun x => by simp [getElem?_concat_iff, hk])

theorem register_spec (h : Registered ts reg) (s : Sequence) :
    ∃ more, Registered (ts.register s).1 (reg ++ more) ∧
      (reg ++ more)[(ts.register s).2]? = some s ∧ (∀ x ∈ more, x = s) ∧
      (ts.register s).1.rsForGenerator = ts.rsForGenerator := by
  cases hid : ts.idOf? s.lastSymbol s.dn s.symbols with
  | some k =>
    obtain ⟨s', hs', -, hd, hp⟩ := (h.lookup _ _ _ k).mp hid
    obtain rfl : s' = s := Sequence.ext hp hd
    rw [register_known hid]
    exact ⟨[], by rwa [List.append_nil], by rwa [List.append_nil], by simp, rfl⟩
  | none =>
    obtain ⟨hkey, -, -, hrs⟩ := register_new hid
    exact ⟨[s], h.add hid, by rw [hkey, h.count]; simp, by simp, hrs⟩

theorem foldl_addSequence (h : Registered ts reg) (rule : Rule) (ids : Finset ℕ)
    (keys : List (Sym × ℕ)) :
    ∃ more ids', rule.foldl addSequence (ts, ids, keys) =
        ((rule.foldl addSequence (ts, ids, keys)).1, ids',
          keys ++ rule.map fun s => (s.lastSymbol, s.dn)) ∧
      Registered (rule.foldl addSequence (ts, ids, keys)).1 (reg ++ more) ∧
      (∀ x ∈ more, x ∈ rule) ∧ (∀ s ∈ rule, s ∈ reg ++ more) ∧
      (∀ k, k ∈ ids' ↔ k ∈ ids ∨ ∃ s ∈ rule, (reg ++ more)[k]? = some s) ∧
      (rule.foldl addSequence (ts, ids, keys)).1.rsForGenerator = ts.rsForGenerator := by
  induction rule generalizing ts reg ids keys with
  | nil => exact ⟨[], ids, by simp, by simpa using h, by simp, by simp, by simp, rfl⟩
  | cons s rule ih =>
    obtain ⟨m₁, hreg₁, hid, hm₁, hrs⟩ := register_spec h s
    obtain ⟨m₂, ids', heq, hreg, hm₂, hall, hids, hrs'⟩ :=
      ih hreg₁ (insert (ts.register s).2 ids) (keys ++ [(s.lastSymbol, s.dn)])
    rw [List.append_assoc] at hreg hall hids
    have hid' : (reg ++ (m₁ ++ m₂))[(ts.register s).2]? = some s := by
      rw [← List.append_assoc, List.getElem?_append_left (List.getElem?_eq_some_iff.mp hid).1, hid]
    refine ⟨m₁ ++ m₂, ids', ?_, hreg, ?_, ?_, ?_, hrs'.trans hrs⟩
    · rw [List.foldl_cons]
      simp only [addSequence] at heq ⊢
      rw [heq]
      simp
    · intro x hx
      rcases List.mem_append.mp hx with hx | hx
      · simp [hm₁ x hx]
      · exact List.mem_cons_of_mem s (hm₂ x hx)
    · intro x hx
      rcases List.mem_cons.mp hx with rfl | hx
      · exact List.mem_of_getElem? hid'
      · exact hall x hx
    · intro k
      rw [hids, Finset.mem_insert]
      constructor
      · rintro ((rfl | hk) | ⟨x, hx, hk⟩)
        · exact Or.inr ⟨s, by simp, hid'⟩
        · exact Or.inl hk
        · exact Or.inr ⟨x, List.mem_cons_of_mem s hx, hk⟩
      · rintro (hk | ⟨x, hx, hk⟩)
        · exact Or.inl (Or.inr hk)
        · rcases List.mem_cons.mp hx with rfl | hx
          · exact Or.inl (Or.inl (hreg.id_unique hk hid'))
          · exact Or.inr ⟨x, hx, hk⟩

theorem foldl_addEntry (converted : Finset ℕ) (keys : List (Sym × ℕ))
    (rs : Map Sym (List (ℕ × Finset ℕ))) (S : Sym) (d : ℕ) (K : Finset ℕ) :
    (d, K) ∈ ((keys.foldl (addEntry converted) rs).get? S).getD [] ↔
      (d, K) ∈ (rs.get? S).getD [] ∨ (K = converted ∧ (S, d) ∈ keys) := by
  induction keys generalizing rs with
  | nil => simp
  | cons key keys ih =>
    obtain ⟨S', d'⟩ := key
    rw [List.foldl_cons, ih]
    have hstep : (d, K) ∈ ((addEntry converted rs (S', d')).get? S).getD [] ↔
        (d, K) ∈ (rs.get? S).getD [] ∨ (K = converted ∧ S = S' ∧ d = d') := by
      simp only [addEntry]
      split_ifs with hmem
      · constructor
        · exact Or.inl
        · rintro (h | ⟨rfl, rfl, rfl⟩)
          · exact h
          · exact hmem
      · rw [Map.get?_set]
        split_ifs with hS
        · subst hS
          simp only [Option.getD_some, List.mem_append, List.mem_singleton, Prod.mk.injEq, true_and]
          tauto
        · simp [hS]
    rw [hstep]
    simp only [List.mem_cons, Prod.mk.injEq]
    tauto

def idsOf (reg : List Sequence) (rule : Rule) : Finset ℕ :=
  (Finset.range reg.length).filter fun k => ∃ s ∈ rule, reg[k]? = some s

theorem mem_idsOf {rule : Rule} {k : ℕ} : k ∈ idsOf reg rule ↔ ∃ s ∈ rule, reg[k]? = some s := by
  simp only [idsOf, Finset.mem_filter, Finset.mem_range, and_iff_right_iff_imp]
  rintro ⟨s, -, hk⟩
  exact (List.getElem?_eq_some_iff.mp hk).1

theorem idsOf_append {more : List Sequence} {rule : Rule} (hn : (reg ++ more).Nodup)
    (hall : ∀ s ∈ rule, s ∈ reg) : idsOf (reg ++ more) rule = idsOf reg rule := by
  ext k
  rw [mem_idsOf, mem_idsOf]
  constructor
  · rintro ⟨s, hs, hk⟩
    refine ⟨s, hs, ?_⟩
    rcases Nat.lt_or_ge k reg.length with hlt | hge
    · rwa [List.getElem?_append_left hlt] at hk
    · rw [List.getElem?_append_right hge] at hk
      exact absurd rfl (List.nodup_append.mp hn |>.2.2 s (hall s hs) s (List.mem_of_getElem? hk))
  · rintro ⟨s, hs, hk⟩
    have hlt := (List.getElem?_eq_some_iff.mp hk).1
    exact ⟨s, hs, by rw [List.getElem?_append_left hlt, hk]⟩

/-- The tables after some rules: the numbering, and one entry for every rule and every end of
    one of its sequences. -/
structure Encodes (ts : TableState) (rules : List Rule) (reg : List Sequence) : Prop where
  registered : Registered ts reg
  mem : ∀ s, s ∈ reg ↔ ∃ rule ∈ rules, s ∈ rule
  entries : ∀ S d K, (d, K) ∈ (ts.rsForGenerator.get? S).getD [] ↔
    ∃ rule ∈ rules, K = idsOf reg rule ∧ ∃ s ∈ rule, s.lastSymbol = S ∧ s.dn = d

theorem encodes_addRule {rules : List Rule} (h : Encodes ts rules reg) (rule : Rule) :
    ∃ reg', Encodes (ts.addRule rule) (rules ++ [rule]) reg' := by
  obtain ⟨more, ids, heq, hreg, hmore, hall, hids, hrs⟩ :=
    foldl_addSequence h.registered rule ∅ []
  have hsame : (ts.addRule rule).idOf? = (rule.foldl addSequence (ts, ∅, [])).1.idOf? := rfl
  have hconv : ids = idsOf (reg ++ more) rule := by
    ext k
    rw [hids, mem_idsOf]
    simp
  refine ⟨reg ++ more, ⟨hreg.nodup, hreg.count, hreg.lookup, hreg.idx⟩, ?_, ?_⟩
  · intro s
    rw [List.mem_append, h.mem]
    constructor
    · rintro (⟨r, hr, hs⟩ | hs)
      · exact ⟨r, by simp [hr], hs⟩
      · exact ⟨rule, by simp, hmore s hs⟩
    · rintro ⟨r, hr, hs⟩
      rcases List.mem_append.mp hr with hr | hr
      · exact Or.inl ⟨r, hr, hs⟩
      · rw [List.mem_singleton.mp hr] at hs
        rw [← h.mem, ← List.mem_append]
        exact hall s hs
  · intro S d K
    have hfold : (ts.addRule rule).rsForGenerator =
        (rule.map fun s => (s.lastSymbol, s.dn)).foldl (addEntry ids) ts.rsForGenerator := by
      simp only [addRule]
      rw [hrs, heq]
      simp
    have hold : ∀ r ∈ rules, idsOf (reg ++ more) r = idsOf reg r := fun r hr =>
      idsOf_append hreg.nodup fun s hs => (h.mem s).mpr ⟨r, hr, hs⟩
    rw [hfold, foldl_addEntry, h.entries, hconv]
    constructor
    · rintro (⟨r, hr, rfl, hend⟩ | ⟨rfl, hkey⟩)
      · exact ⟨r, by simp [hr], (hold r hr).symm, hend⟩
      · obtain ⟨s, hs, he⟩ := List.mem_map.mp hkey
        exact ⟨rule, by simp, rfl, s, hs, (Prod.mk.inj he).1, (Prod.mk.inj he).2⟩
    · rintro ⟨r, hr, rfl, s, hs, rfl, rfl⟩
      rcases List.mem_append.mp hr with hr | hr
      · exact Or.inl ⟨r, hr, hold r hr, s, hs, rfl, rfl⟩
      · obtain rfl := List.mem_singleton.mp hr
        exact Or.inr ⟨rfl, List.mem_map.mpr ⟨s, hs, rfl⟩⟩

theorem foldl_addRule_encodes (rules : List Rule) :
    ∃ reg, Encodes (rules.foldl addRule empty) rules reg := by
  induction rules using List.reverseRecOn with
  | nil => exact ⟨[], registered_empty, by simp, by simp [empty]⟩
  | append_singleton rules rule ih =>
    obtain ⟨reg, h⟩ := ih
    rw [List.foldl_append]
    exact encodes_addRule h rule

theorem Encodes.defined {rules : List Rule} (h : Encodes ts rules reg) (S : Sym)
    (entries : List (ℕ × Finset ℕ)) (hS : ts.rsForGenerator.get? S = some entries) :
    ∀ e ∈ entries, ∀ k ∈ e.2, k ∈ ts.idxSubseq.keys := by
  rintro ⟨d, K⟩ he k hk
  obtain ⟨rule, -, rfl, -⟩ := (h.entries S d K).mp (by rw [hS]; exact he)
  obtain ⟨s, -, hks⟩ := mem_idsOf.mp hk
  rw [Map.mem_keys_iff, h.registered.idx, hks]
  rfl

end TableState

def buildTables (rules : List Rule) : Tables where
  subSequences := (rules.foldl TableState.addRule TableState.empty).subseqForGenerator
  idxSubseq := (rules.foldl TableState.addRule TableState.empty).idxSubseq
  recurrentSequence := (rules.foldl TableState.addRule TableState.empty).rsForGenerator
  defined := by
    obtain ⟨reg, h⟩ := TableState.foldl_addRule_encodes rules
    exact h.defined

end RSFuzz
