import Mathlib.Data.List.TakeWhile

set_option autoImplicit false

/-!
# Patterns matched with backtracking

A matcher lists the ways it can match at the front of a list, in the order in
which they are tried: what is consumed, and what is left. A search takes the
leftmost position where something matches, and there the first way.
-/
namespace Pattern

variable {α : Type*}

abbrev Matcher (α : Type*) := List α → List (List α × List α)

/-- Where something matches: what is reported of it, and what is left. -/
abbrev Finder (α : Type*) := List α → Option (List α × List α)

def lit [DecidableEq α] (xs : List α) : Matcher α :=
  fun s => if xs <+: s then [(xs, s.drop xs.length)] else []

/-- Greedy repetition of one class, at least `least` times: the longest way is tried first. -/
def repeated (p : α → Bool) (least : ℕ) : Matcher α :=
  fun s => (List.range' least ((s.takeWhile p).length + 1 - least)).reverse.map s.splitAt

def followedBy (m n : Matcher α) : Matcher α :=
  fun s => (m s).flatMap fun front => (n front.2).map fun back => (front.1 ++ back.1, back.2)

def orElse (m n : Matcher α) : Matcher α := fun s => m s ++ n s

def whole (m : Matcher α) : Finder α := fun s => (m s).head?

def captured (front group : Matcher α) : Finder α :=
  fun s => ((front s).flatMap fun way => group way.2).head?

def search (f : Finder α) : List α → Option (List α × List α × List α)
  | [] => (f []).map fun way => ([], way)
  | x :: s =>
    match f (x :: s) with
    | some way => some ([], way)
    | none => (search f s).map fun hit => (x :: hit.1, hit.2)

/-- Non-overlapping matches from left to right, each with the text in front of it, and the
    text behind the last one. -/
def scan (f : Finder α) : ℕ → List α → List (List α × List α) × List α
  | 0, s => ([], s)
  | fuel + 1, s =>
    match search f s with
    | none => ([], s)
    | some (before, found, rest) =>
      ((before, found) :: (scan f fuel rest).1, (scan f fuel rest).2)

/-- Splitting keeps what is reported of the matches. A pattern that consumes something
    matches at most as often as the text has entries. -/
def split (f : Finder α) (s : List α) : List (List α) :=
  ((scan f s.length s).1.flatMap fun hit => [hit.1, hit.2]) ++ [(scan f s.length s).2]

def findAll (f : Finder α) (s : List α) : List (List α) :=
  (scan f s.length s).1.map Prod.snd

section First

variable [DecidableEq α]

theorem lit_append (xs s : List α) : lit xs (xs ++ s) = [(xs, s)] := by
  rw [lit, if_pos (List.prefix_append xs s), List.drop_left]

theorem lit_eq_nil {xs s : List α} (h : ¬ xs <+: s) : lit xs s = [] := if_neg h

theorem lit_cons_ne {x y : α} (h : x ≠ y) (xs s : List α) : lit (x :: xs) (y :: s) = [] :=
  lit_eq_nil fun hpre => h (List.cons_prefix_cons.mp hpre).1

end First

def Stops (p : α → Bool) (s : List α) : Prop := ∀ x ∈ s.head?, p x = false

theorem takeWhile_append_of_stops {p : α → Bool} (xs : List α) {s : List α} (hxs : ∀ x ∈ xs, p x = true)
    (hs : Stops p s) : (xs ++ s).takeWhile p = xs := by
  rw [List.takeWhile_append_of_pos hxs]
  cases s with
  | nil => simp
  | cons x s =>
    have hx : p x = false := hs x rfl
    rw [List.takeWhile_cons_of_neg (by simp [hx]), List.append_nil]

theorem repeated_append {p : α → Bool} {least : ℕ} {xs s : List α} (hxs : ∀ x ∈ xs, p x = true)
    (hs : Stops p s) (hle : least ≤ xs.length) :
    (repeated p least (xs ++ s)).head? = some (xs, s) := by
  have hlast : (List.range' least (xs.length + 1 - least)).reverse.head? = some xs.length := by
    rw [List.head?_reverse, Nat.succ_sub hle, List.range'_concat, List.getLast?_concat]
    congr 1
    omega
  rw [repeated, takeWhile_append_of_stops xs hxs hs, List.head?_map, hlast, Option.map_some,
    List.splitAt_eq, List.take_left, List.drop_left]

theorem repeated_zero_of_stops {p : α → Bool} {s : List α} (hs : Stops p s) :
    repeated p 0 s = [([], s)] := by
  have hnone : s.takeWhile p = [] := takeWhile_append_of_stops [] (by simp) hs
  simp [repeated, hnone]

theorem head?_flatMap_of_head? {β γ : Type*} {xs : List β} {x : β} {f : β → List γ} {y : γ}
    (hx : xs.head? = some x) (hy : (f x).head? = some y) : (xs.flatMap f).head? = some y := by
  obtain ⟨xs, rfl⟩ := List.head?_eq_some_iff.mp hx
  rw [List.flatMap_cons, List.head?_append, hy, Option.some_or]

theorem followedBy_head? {m n : Matcher α} {s a r b r' : List α} (hm : (m s).head? = some (a, r))
    (hn : (n r).head? = some (b, r')) : (followedBy m n s).head? = some (a ++ b, r') :=
  head?_flatMap_of_head? hm (by rw [List.head?_map, hn]; rfl)

theorem captured_of_head? {front group : Matcher α} {s a r b r' : List α}
    (hm : (front s).head? = some (a, r)) (hn : (group r).head? = some (b, r')) :
    captured front group s = some (b, r') :=
  head?_flatMap_of_head? hm hn

theorem followedBy_eq_nil {m n : Matcher α} {s : List α} (h : m s = []) :
    followedBy m n s = [] := by
  rw [followedBy, h, List.flatMap_nil]

theorem captured_eq_none {front group : Matcher α} {s : List α} (h : front s = []) :
    captured front group s = none := by
  rw [captured, h, List.flatMap_nil, List.head?_nil]

theorem orElse_head?_left {m n : Matcher α} {s : List α} {way : List α × List α}
    (h : (m s).head? = some way) : (orElse m n s).head? = some way := by
  rw [orElse, List.head?_append, h, Option.some_or]

def Shrinks (m : Matcher α) (k : ℕ) : Prop := ∀ s, ∀ way ∈ m s, way.2.length + k ≤ s.length

def Consumes (f : Finder α) : Prop := ∀ s way, f s = some way → way.2.length < s.length

theorem shrinks_lit [DecidableEq α] (xs : List α) : Shrinks (lit xs) xs.length := by
  intro s way hway
  unfold lit at hway
  split_ifs at hway with hpre
  · obtain rfl := List.mem_singleton.mp hway
    have := hpre.length_le
    simp only [List.length_drop]
    omega
  · cases hway

theorem shrinks_repeated (p : α → Bool) (least : ℕ) : Shrinks (repeated p least) least := by
  intro s way hway
  obtain ⟨n, hn, rfl⟩ := List.mem_map.mp hway
  have hn := List.mem_range'_1.mp (List.mem_reverse.mp hn)
  have hle := (List.takeWhile_sublist (l := s) p).length_le
  rw [List.splitAt_eq]
  simp only [List.length_drop]
  omega

theorem Shrinks.followedBy {m n : Matcher α} {j k : ℕ} (hm : Shrinks m j) (hn : Shrinks n k) :
    Shrinks (followedBy m n) (j + k) := by
  intro s way hway
  obtain ⟨front, hfront, hway⟩ := List.mem_flatMap.mp hway
  obtain ⟨back, hback, rfl⟩ := List.mem_map.mp hway
  have := hm s front hfront
  have := hn front.2 back hback
  simp only
  omega

theorem Shrinks.orElse {m n : Matcher α} {k : ℕ} (hm : Shrinks m k) (hn : Shrinks n k) :
    Shrinks (orElse m n) k := by
  intro s way hway
  rcases List.mem_append.mp hway with hway | hway
  · exact hm s way hway
  · exact hn s way hway

theorem Shrinks.of_le {m : Matcher α} {j k : ℕ} (hm : Shrinks m k) (hle : j ≤ k) : Shrinks m j :=
  fun s way hway => (Nat.add_le_add_left hle _).trans (hm s way hway)

theorem Shrinks.whole {m : Matcher α} {k : ℕ} (hm : Shrinks m (k + 1)) : Consumes (whole m) :=
  fun s way hway => by
    have := hm s way (List.mem_of_head? hway)
    omega

theorem Shrinks.captured {front group : Matcher α} {j k : ℕ} (hm : Shrinks front (j + 1))
    (hn : Shrinks group k) : Consumes (captured front group) := by
  intro s way hway
  obtain ⟨first, hfirst, hback⟩ := List.mem_flatMap.mp (List.mem_of_head? hway)
  have := hm s first hfirst
  have := hn first.2 way hback
  omega

/-- Nothing matches inside the front part. -/
def Misses (f : Finder α) (front s : List α) : Prop :=
  ∀ u v, front = u ++ v → v ≠ [] → f (v ++ s) = none

theorem search_append {f : Finder α} {front s : List α} (hmiss : Misses f front s)
    {way : List α × List α} (hs : f s = some way) : search f (front ++ s) = some (front, way) := by
  induction front with
  | nil =>
    cases s with
    | nil => rw [List.nil_append, search, hs, Option.map_some]
    | cons x s => rw [List.nil_append, search, hs]
  | cons x front ih =>
    have hx : f (x :: (front ++ s)) = none := hmiss [] (x :: front) rfl (by simp)
    have hrest := ih fun u v huv hv => hmiss (x :: u) v (by rw [huv, List.cons_append]) hv
    rw [List.cons_append, search, hx, hrest, Option.map_some]

inductive Occurs (f : Finder α) : List α → List (List α × List α) → List α → Prop where
  | done {s : List α} (h : search f s = none) : Occurs f s [] s
  | found {s before found rest tail : List α} {hits : List (List α × List α)}
      (h : search f s = some (before, found, rest)) (hrest : Occurs f rest hits tail) :
      Occurs f s ((before, found) :: hits) tail

theorem search_rest_lt {f : Finder α} (hf : Consumes f) {s before found rest : List α}
    (h : search f s = some (before, found, rest)) : rest.length < s.length := by
  induction s generalizing before with
  | nil =>
    obtain ⟨way, hway, heq⟩ := Option.map_eq_some_iff.mp h
    obtain rfl : way = (found, rest) := (Prod.mk.inj heq).2
    exact hf _ _ hway
  | cons x s ih =>
    unfold search at h
    split at h
    · rename_i way hway
      obtain rfl : way = (found, rest) := (Prod.mk.inj (Option.some.inj h)).2
      exact hf _ _ hway
    · obtain ⟨⟨b, f', r⟩, hhit, heq⟩ := Option.map_eq_some_iff.mp h
      obtain ⟨-, rfl, rfl⟩ : x :: b = before ∧ f' = found ∧ r = rest := by simpa using heq
      exact Nat.lt_succ_of_lt (ih hhit)

theorem Occurs.length_le {f : Finder α} (hf : Consumes f) {s tail : List α}
    {hits : List (List α × List α)} (h : Occurs f s hits tail) : hits.length ≤ s.length := by
  induction h with
  | done _ => exact Nat.zero_le _
  | found h _ ih => exact Nat.lt_of_le_of_lt ih (search_rest_lt hf h)

theorem Occurs.scan {f : Finder α} {s tail : List α} {hits : List (List α × List α)}
    (h : Occurs f s hits tail) {fuel : ℕ} (hfuel : hits.length ≤ fuel) :
    scan f fuel s = (hits, tail) := by
  induction h generalizing fuel with
  | done h =>
    cases fuel with
    | zero => rfl
    | succ fuel => rw [Pattern.scan, h]
  | found h _ ih =>
    obtain ⟨fuel, rfl⟩ := Nat.exists_eq_succ_of_ne_zero (Nat.ne_of_gt (Nat.lt_of_lt_of_le
      (Nat.succ_pos _) hfuel))
    rw [Pattern.scan, h]
    simp only [ih (Nat.le_of_succ_le_succ hfuel)]

theorem Occurs.split_eq {f : Finder α} {s tail : List α} {hits : List (List α × List α)}
    (hf : Consumes f) (h : Occurs f s hits tail) :
    split f s = (hits.flatMap fun hit => [hit.1, hit.2]) ++ [tail] := by
  rw [split, h.scan (h.length_le hf)]

theorem Occurs.findAll_eq {f : Finder α} {s tail : List α} {hits : List (List α × List α)}
    (hf : Consumes f) (h : Occurs f s hits tail) : findAll f s = hits.map Prod.snd := by
  rw [findAll, h.scan (h.length_le hf)]

end Pattern
