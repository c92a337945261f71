import RSFuzz.CaptureRules
import RSFuzz.FoundationStableSort

set_option autoImplicit false

/-!
# What simplifying a set of sequences keeps

`simplify_subpaths` sieves the collapsed sequences by length. It never keeps one
that has another one below it. The comparison accepts more than what is below,
so of the lowest ones it may drop some, and which ones can depend on the order in
which the set is iterated.
-/
namespace RSFuzz
open OrderedMap OptionFold Subsequence StableSort
open scoped List

def collapses (subpaths : List Sequence) : List Sequence :=
  (subpaths.filterMap refineSequence).dedup

def LowestCollapse (subpaths : List Sequence) (t : Sequence) : Prop :=
  t ∈ collapses subpaths ∧ ∀ u ∈ collapses subpaths, IncludedIn u.entries t.entries → u = t

instance (subpaths : List Sequence) (t : Sequence) : Decidable (LowestCollapse subpaths t) :=
  inferInstanceAs (Decidable (t ∈ collapses subpaths ∧
    ∀ u ∈ collapses subpaths, IncludedIn u.entries t.entries → u = t))

/-- What simplifying is meant to return: the lowest sequences, so that every sequence has one below
    it, and no two are comparable. -/
structure SimplifiedTo (subpaths kept : List Sequence) : Prop where
  lowest : ∀ t, t ∈ kept ↔ LowestCollapse subpaths t
  covers : ∀ s ∈ subpaths, ∀ u, refineSequence s = some u →
    ∃ t ∈ kept, IncludedIn t.entries u.entries
  incomparable : ∀ t ∈ kept, ∀ u ∈ kept, IncludedIn t.entries u.entries → t = u

def SortedBefore (order : IterationOrder Sequence) (subpaths : List Sequence) (d a : Sequence) :
    Prop :=
  d.entries.length < a.entries.length ∨
    d.entries.length = a.entries.length ∧ [d, a] <+ order.list (collapses subpaths)

section Sieving

variable (order : IterationOrder Sequence) (subpaths : List Sequence)

def sortedCollapses : List Sequence := sortedByLength (order.list (collapses subpaths))

theorem simplifySubpaths_eq : simplifySubpaths order subpaths = some (sortedByLength
    (Sieve.kept foldsLonger (fun _ => false) (sortedCollapses order subpaths))) := by
  rw [simplifySubpaths, mapM_eq_filterMap fun s _ => exists_refineSequence s, Option.map_some]
  rfl

variable {order subpaths}

theorem mem_collapses {t : Sequence} :
    t ∈ collapses subpaths ↔ ∃ s ∈ subpaths, refineSequence s = some t := by
  rw [collapses, List.mem_dedup, List.mem_filterMap]

theorem mem_sortedCollapses {t : Sequence} :
    t ∈ sortedCollapses order subpaths ↔ t ∈ collapses subpaths := by
  rw [sortedCollapses, sortedByLength, List.mem_insertionSort, order.mem_list]

theorem nodup_order : (order.list (collapses subpaths)).Nodup :=
  (order.perm _).nodup_iff.mpr (List.nodup_dedup _)

theorem nodup_sortedCollapses : (sortedCollapses order subpaths).Nodup :=
  (perm_byKey _).nodup_iff.mpr nodup_order

theorem sortedBefore_iff {i j : ℕ} {d a : Sequence}
    (hd : (sortedCollapses order subpaths)[i]? = some d)
    (ha : (sortedCollapses order subpaths)[j]? = some a) (hne : d ≠ a) :
    SortedBefore order subpaths d a ↔ i < j := by
  have hmem : ∀ {k : ℕ} {t : Sequence}, (sortedCollapses order subpaths)[k]? = some t →
      t ∈ order.list (collapses subpaths) := fun ht =>
    order.mem_list.mpr (mem_sortedCollapses.mp (List.mem_of_getElem? ht))
  rw [← pair_sublist_iff_lt nodup_sortedCollapses hd ha]
  exact (pair_sublist_byKey_iff (fun s : Sequence => s.entries.length) nodup_order (hmem hd)
    (hmem ha) hne).symm

/-- What is below is shorter, and what compares with it compares with everything above. -/
theorem foldsLonger_refinedBy (seqs : List Sequence) : Sieve.RefinedBy foldsLonger (sortedByLength seqs)
    fun s t : Sequence => IncludedIn s.entries t.entries where
  refl _ := ⟨rfl, List.Sublist.refl _⟩
  trans _ _ _ h h' := h.trans h'
  rel_of_below _ _ h := h.compareSubpaths
  rel_below a b c hab hbc := by
    obtain ⟨hlast, hloose⟩ := (compareSubpaths_iff _ _).mp hab
    exact (compareSubpaths_iff _ _).mpr ⟨hbc.1.symm.trans hlast, hloose.mono hbc.2⟩
  first i j a b ha hb hbelow hne := by
    by_contra hle
    refine hne (Sequence.entries_injective (hbelow.eq_of_length_le ?_))
    exact key_le_of_getElem? (fun s : Sequence => s.entries.length) hb ha
      (Nat.le_of_not_lt hle)

theorem sieve_refinedBy : Sieve.RefinedBy foldsLonger (sortedCollapses order subpaths)
    fun s t : Sequence => IncludedIn s.entries t.entries := foldsLonger_refinedBy _

theorem lowest_iff (t : Sequence) : Sieve.Lowest (fun s t : Sequence => IncludedIn s.entries t.entries)
    (sortedCollapses order subpaths) t ↔ LowestCollapse subpaths t := by
  simp only [Sieve.Lowest, LowestCollapse, mem_sortedCollapses]

theorem simplifiedTo_iff {kept : List Sequence} :
    SimplifiedTo subpaths kept ↔ ∀ t, t ∈ kept ↔ LowestCollapse subpaths t := by
  refine ⟨SimplifiedTo.lowest, fun h => ⟨h, fun s hs u hu => ?_, fun t ht u hu htu => ?_⟩⟩
  · have hin : u ∈ sortedCollapses IterationOrder.listed subpaths :=
      mem_sortedCollapses.mpr (mem_collapses.mpr ⟨s, hs, hu⟩)
    obtain ⟨j, hj⟩ := List.mem_iff_getElem?.mp hin
    obtain ⟨m, hm, hmu⟩ := sieve_refinedBy.exists_lowest hj
    exact ⟨m, (h m).mpr ((lowest_iff m).mp hm), hmu⟩
  · exact ((h u).mp hu).2 t ((h t).mp ht).1 htu

/-- For one order of iteration: a lowest sequence is lost exactly if one that comes before it in the
    sorted list is taken for a shorter version of it. -/
theorem simplified_iff_of_order {kept : List Sequence}
    (hkept : simplifySubpaths order subpaths = some kept) :
    SimplifiedTo subpaths kept ↔ ∀ d a, LowestCollapse subpaths d → LowestCollapse subpaths a →
      d ≠ a → compareSubpaths a.entries d.entries = true → ¬ SortedBefore order subpaths d a := by
  rw [simplifySubpaths_eq, Option.some.injEq] at hkept
  have hmem : ∀ t, t ∈ kept ↔
      t ∈ Sieve.kept foldsLonger (fun _ => false) (sortedCollapses order subpaths) := by
    intro t
    rw [← hkept, sortedByLength, List.mem_insertionSort]
  have hsieve := (@sieve_refinedBy order subpaths).mem_kept_iff_lowest (fun _ _ => rfl)
    nodup_sortedCollapses
  simp only [lowest_iff] at hsieve
  simp only [simplifiedTo_iff, hmem]
  rw [hsieve]
  constructor
  · intro h d a hd ha hne hcmp hbefore
    obtain ⟨i, hi⟩ := List.mem_iff_getElem?.mp (mem_sortedCollapses.mpr hd.1)
    obtain ⟨j, hj⟩ := List.mem_iff_getElem?.mp (mem_sortedCollapses.mpr ha.1)
    have hrel := h i j d a ((sortedBefore_iff hi hj hne).mp hbefore) hi hj hd ha
    rw [foldsLonger, hcmp] at hrel
    cases hrel
  · intro h i j d a hij hi hj hd ha
    by_contra hrel
    have hne : d ≠ a := by
      rintro rfl
      exact absurd ((List.getElem?_inj (List.getElem?_eq_some_iff.mp hi).1 nodup_sortedCollapses).mp
        (hi.trans hj.symm)) (Nat.ne_of_lt hij)
    exact h d a hd ha hne (by simpa [foldsLonger] using hrel) ((sortedBefore_iff hi hj hne).mpr hij)

end Sieving

/-- Simplifying returns for every set and order. It returns the lowest sequences for one order as
    long as none of them is taken for a shorter version of a later one, and for every order as
    long as none is taken for a version of another one that is not shorter. -/
theorem simplifySubpaths_lowest_iff (subpaths : List Sequence) :
    (∀ order, ∃ kept, simplifySubpaths order subpaths = some kept ∧
      (SimplifiedTo subpaths kept ↔ ∀ d a, LowestCollapse subpaths d → LowestCollapse subpaths a →
        d ≠ a → compareSubpaths a.entries d.entries = true →
          ¬ SortedBefore order subpaths d a)) ∧
    ((∀ order, ∃ kept, simplifySubpaths order subpaths = some kept ∧ SimplifiedTo subpaths kept) ↔
      ∀ d a, LowestCollapse subpaths d → LowestCollapse subpaths a → d ≠ a →
        d.entries.length ≤ a.entries.length → compareSubpaths a.entries d.entries = false) := by
  have hone : ∀ order, ∃ kept, simplifySubpaths order subpaths = some kept ∧
      (SimplifiedTo subpaths kept ↔ ∀ d a, LowestCollapse subpaths d → LowestCollapse subpaths a →
        d ≠ a → compareSubpaths a.entries d.entries = true →
          ¬ SortedBefore order subpaths d a) := fun order =>
    ⟨_, simplifySubpaths_eq order subpaths, simplified_iff_of_order (simplifySubpaths_eq order subpaths)⟩
  refine ⟨hone, fun hall d a hd ha hne hle => ?_, fun hall order => ?_⟩
  · -- some order has the one that is not longer in front
    obtain ⟨kept, hkept, hsimple⟩ := hall (front d)
    by_contra hcmp
    refine (simplified_iff_of_order hkept).mp hsimple d a hd ha hne (by simpa using hcmp) ?_
    rcases Nat.lt_or_eq_of_le hle with hlt | heq
    · exact Or.inl hlt
    · exact Or.inr ⟨heq, pair_sublist_front hd.1 ha.1 hne⟩
  · obtain ⟨kept, hkept, hiff⟩ := hone order
    refine ⟨kept, hkept, hiff.mpr fun d a hd ha hne hcmp hbefore => ?_⟩
    have hle : d.entries.length ≤ a.entries.length := hbefore.elim Nat.le_of_lt fun h => h.1.le
    rw [hall d a hd ha hne hle] at hcmp
    cases hcmp

/-- Two lowest sequences of one set, of which only the one iterated first is returned. -/
theorem simplifySubpaths_loses_rotation :
    (simplifySubpaths (front fromOuter) [fromOuter, fromInner] = some [fromOuter] ∧
      ¬ SimplifiedTo [fromOuter, fromInner] [fromOuter]) ∧
    (simplifySubpaths (front fromInner) [fromOuter, fromInner] = some [fromInner] ∧
      ¬ SimplifiedTo [fromOuter, fromInner] [fromInner]) := by
  have houter : LowestCollapse [fromOuter, fromInner] fromOuter := by decide
  have hinner : LowestCollapse [fromOuter, fromInner] fromInner := by decide
  refine ⟨⟨by decide, fun h => ?_⟩, ⟨by decide, fun h => ?_⟩⟩
  · exact absurd ((h.lowest fromInner).mpr hinner) (by decide)
  · exact absurd ((h.lowest fromOuter).mpr houter) (by decide)

end RSFuzz
