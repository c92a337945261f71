import Mathlib.Data.List.TakeWhile
import RSFuzz.FoundationWhileLoop

set_option autoImplicit false

/-!
# Splitting an expansion into tokens

`expansion_to_tokens` of `main/rsfuzzGenerator.py`: a scanner for symbols,
quoted terminals and regex terminals. Text is a list of characters.
-/
namespace RSFuzz
open WhileLoop

abbrev Text := List Char

def isSpace (c : Char) : Bool :=
  c.toNat ∈ [9, 10, 11, 12, 13, 28, 29, 30, 31, 32, 133, 160, 5760, 8192, 8193, 8194, 8195, 8196,
    8197, 8198, 8199, 8200, 8201, 8202, 8232, 8233, 8239, 8287, 12288]

/-- `_is_escaped`: the run of backslashes in front of the position is odd. -/
def isEscaped (s : Text) (pos : ℕ) : Bool :=
  ((s.take pos).reverse.takeWhile (· = '\\')).length % 2 = 1

/-- `while j < n: if stop: break; j += 1`, where `j` is at most `n`. -/
def firstFrom (stop : ℕ → Bool) (n j : ℕ) : ℕ := ((List.range' j (n - j)).find? stop).getD n

def slice (s : Text) (i j : ℕ) : Text := (s.take j).drop i

structure ScanState where
  i : ℕ
  buf : Text
  tokens : List Text
deriving DecidableEq

def ScanState.flush (s : ScanState) : List Text :=
  if s.buf = [] then s.tokens else s.tokens ++ [s.buf]

def closingQuote (expansion : Text) (j : ℕ) : ℕ :=
  firstFrom (fun j => expansion[j]? = some '"' ∧ isEscaped expansion j = false) expansion.length j

/-- The test for a backslash in front is subsumed by the one for a bracket. -/
def closingSlash (expansion : Text) (j : ℕ) : ℕ :=
  firstFrom (fun j => expansion[j]? = some '/' ∧ expansion[j - 1]? ≠ some '\\' ∧
    (expansion[j - 1]? = some ']' ∨ expansion[j - 1]? = some ')')) expansion.length j

/-- One more character is taken behind the slash unless it is a blank. -/
def withSuffix (expansion : Text) (j : ℕ) : ℕ :=
  if j + 1 < expansion.length ∧ expansion[j + 1]? ≠ some ' ' then j + 1 else j

def tokenStep (expansion : Text) (s : ScanState) : Option ScanState :=
  (expansion[s.i]?).map fun c =>
    if isSpace c then ⟨s.i + 1, [], s.flush⟩
    else if c = '"' then
      let j := closingQuote expansion (s.i + 1)
      ⟨j + 1, [], s.flush ++ [slice expansion s.i (j + 1)]⟩
    else if c = '/' then
      let j := withSuffix expansion (closingSlash expansion (s.i + 1))
      ⟨j + 1, [], s.flush ++ [slice expansion s.i (j + 1)]⟩
    else ⟨s.i + 1, s.buf ++ [c], s.tokens⟩

def scanning (expansion : Text) (s : ScanState) : Bool := s.i < expansion.length

def expansionToTokens (expansion : Text) (fuel : ℕ) : Option (List Text) :=
  (run (scanning expansion) (tokenStep expansion) fuel ⟨0, [], []⟩).map ScanState.flush

theorem firstFrom_bounds (stop : ℕ → Bool) {n j : ℕ} (hj : j ≤ n) :
    j ≤ firstFrom stop n j ∧ firstFrom stop n j ≤ n := by
  unfold firstFrom
  cases hfind : (List.range' j (n - j)).find? stop with
  | none => exact ⟨hj, le_rfl⟩
  | some k =>
    have hk := List.mem_range'_1.mp (List.mem_of_find?_eq_some hfind)
    simp only [Option.getD_some]
    omega

theorem firstFrom_eq {stop : ℕ → Bool} {n j k : ℕ} (hjk : j ≤ k) (hkn : k < n)
    (hstop : stop k = true) (hfirst : ∀ m, j ≤ m → m < k → stop m = false) :
    firstFrom stop n j = k := by
  have hsplit : List.range' j (n - j) = List.range' j (k - j) ++ k :: List.range' (k + 1) (n - k - 1) := by
    have hlen : n - j = (k - j) + ((n - k - 1) + 1) := by omega
    have hstart : j + (k - j) = k := by omega
    rw [hlen, ← List.range'_append_1, List.range'_succ, hstart]
  have hnone : (List.range' j (k - j)).find? stop = none := by
    rw [List.find?_eq_none]
    intro m hm
    have := List.mem_range'_1.mp hm
    rw [hfirst m (by omega) (by omega)]
    exact Bool.false_ne_true
  rw [firstFrom, hsplit, List.find?_append, hnone, Option.none_or, List.find?_cons_of_pos hstop]
  rfl

theorem slice_append (pre mid rest : Text) :
    slice (pre ++ mid ++ rest) pre.length (pre.length + mid.length) = mid := by
  rw [slice, ← List.length_append, List.take_left, List.drop_left]

/-- The text is its tokens, in order, with white space before, between and behind them. -/
inductive Spaced : Text → List Text → Prop where
  | nil : Spaced [] []
  | space {c : Char} {text : Text} {tokens : List Text} (hc : isSpace c = true)
      (h : Spaced text tokens) : Spaced (c :: text) tokens
  | token {token text : Text} {tokens : List Text} (hne : token ≠ [])
      (h : Spaced text tokens) : Spaced (token ++ text) (token :: tokens)

theorem Spaced.append {a b : Text} {ts us : List Text} (h : Spaced a ts) (h' : Spaced b us) :
    Spaced (a ++ b) (ts ++ us) := by
  induction h with
  | nil => exact h'
  | space hc _ ih => exact .space hc ih
  | token hne _ ih =>
    rw [List.append_assoc]
    exact .token hne ih

theorem Spaced.concat {text token : Text} {tokens : List Text} (h : Spaced text tokens)
    (hne : token ≠ []) : Spaced (text ++ token) (tokens ++ [token]) := by
  refine h.append ?_
  have := Spaced.token hne .nil
  rwa [List.append_nil] at this

theorem Spaced.concat_space {text : Text} {tokens : List Text} (h : Spaced text tokens) {c : Char}
    (hc : isSpace c = true) : Spaced (text ++ [c]) tokens := by
  have := h.append (.space hc .nil)
  rwa [List.append_nil] at this

def ReadUpTo (expansion : Text) (s : ScanState) : Prop :=
  ∃ done, expansion.take s.i = done ++ s.buf ∧ Spaced done s.tokens

theorem ReadUpTo.flush {expansion : Text} {s : ScanState} (h : ReadUpTo expansion s) :
    Spaced (expansion.take s.i) s.flush := by
  obtain ⟨done, htake, hdone⟩ := h
  rw [htake, ScanState.flush]
  split_ifs with hbuf
  · rwa [hbuf, List.append_nil]
  · exact hdone.concat hbuf

theorem take_succ_of_getElem? {expansion : Text} {i : ℕ} {c : Char} (hc : expansion[i]? = some c) :
    expansion.take (i + 1) = expansion.take i ++ [c] := by
  rw [List.take_add_one, hc]
  rfl

theorem slice_ne_nil {expansion : Text} {i j : ℕ} (hi : i < expansion.length) (hij : i < j) :
    slice expansion i j ≠ [] := by
  rw [slice, ne_eq, List.drop_eq_nil_iff, List.length_take]
  omega

theorem take_append_slice (expansion : Text) {i j : ℕ} (hij : i ≤ j) :
    expansion.take i ++ slice expansion i j = expansion.take j := by
  have hsplit := List.take_append_drop i (expansion.take j)
  rwa [List.take_take, Nat.min_eq_left hij] at hsplit

theorem ReadUpTo.slice {expansion : Text} {s : ScanState} (h : ReadUpTo expansion s)
    (hi : s.i < expansion.length) {j : ℕ} (hj : s.i < j) :
    ReadUpTo expansion ⟨j, [], s.flush ++ [slice expansion s.i j]⟩ := by
  refine ⟨expansion.take j, by simp, ?_⟩
  rw [← take_append_slice expansion (Nat.le_of_lt hj)]
  exact h.flush.concat (slice_ne_nil hi hj)

theorem le_withSuffix (expansion : Text) (j : ℕ) : j ≤ withSuffix expansion j := by
  unfold withSuffix
  split_ifs <;> omega

theorem lt_closingQuote {expansion : Text} {i : ℕ} (hi : i < expansion.length) :
    i < closingQuote expansion (i + 1) := (firstFrom_bounds _ hi).1

theorem lt_closingSlash {expansion : Text} {i : ℕ} (hi : i < expansion.length) :
    i < closingSlash expansion (i + 1) := (firstFrom_bounds _ hi).1

/-- Every turn of the loop moves forward and loses nothing but white space. -/
theorem tokenStep_spec {expansion : Text} {s : ScanState} (h : ReadUpTo expansion s)
    (hi : s.i < expansion.length) :
    ∃ s', tokenStep expansion s = some s' ∧ ReadUpTo expansion s' ∧ s.i < s'.i := by
  have hc : expansion[s.i]? = some expansion[s.i] := List.getElem?_eq_getElem hi
  generalize expansion[s.i] = c at hc
  simp only [tokenStep, hc, Option.map_some]
  refine ⟨_, rfl, ?_⟩
  split_ifs with hspace hquote hslash
  · refine ⟨⟨expansion.take (s.i + 1), by simp, ?_⟩, Nat.lt_succ_self _⟩
    rw [take_succ_of_getElem? hc]
    exact h.flush.concat_space hspace
  · have hj : s.i < closingQuote expansion (s.i + 1) + 1 :=
      Nat.lt_succ_of_lt (lt_closingQuote hi)
    exact ⟨h.slice hi hj, hj⟩
  · have hj : s.i < withSuffix expansion (closingSlash expansion (s.i + 1)) + 1 :=
      Nat.lt_succ_of_lt ((lt_closingSlash hi).trans_le (le_withSuffix _ _))
    exact ⟨h.slice hi hj, hj⟩
  · obtain ⟨done, htake, hdone⟩ := h
    refine ⟨⟨done, ?_, hdone⟩, Nat.lt_succ_self _⟩
    rw [take_succ_of_getElem? hc, htake, List.append_assoc]

theorem expansionToTokens_returns (expansion : Text) :
    ∃ tokens, expansionToTokens expansion expansion.length = some tokens ∧
      Spaced expansion tokens := by
  obtain ⟨s, hrun, hread, hexit⟩ := run_terminates (scanning expansion) (tokenStep expansion)
    (ReadUpTo expansion) (fun s => expansion.length - s.i)
    (fun s hs hc => by
      have hi : s.i < expansion.length := of_decide_eq_true hc
      obtain ⟨s', hstep, hread, hlt⟩ := tokenStep_spec hs hi
      exact ⟨s', hstep, hread, by omega⟩)
    (s := ⟨0, [], []⟩) ⟨[], rfl, .nil⟩ expansion.length (Nat.le_refl _)
  have hend : expansion.length ≤ s.i := Nat.le_of_not_lt (of_decide_eq_false hexit)
  refine ⟨s.flush, by rw [expansionToTokens, hrun, Option.map_some], ?_⟩
  have := hread.flush
  rwa [List.take_of_length_le hend] at this

def IsSymbolToken (token : Text) : Prop :=
  token ≠ [] ∧ ∀ c ∈ token, isSpace c = false ∧ c ≠ '"' ∧ c ≠ '/'

def IsQuotedToken (token : Text) : Prop :=
  ∃ body, token = '"' :: (body ++ ['"']) ∧ isEscaped body body.length = false ∧
    ∀ pos, body[pos]? = some '"' → isEscaped body pos = true

def EndsGroup (c : Option Char) : Prop := c = some ']' ∨ c = some ')'

/-- The slash behind the body is the first one behind a closing bracket. -/
def IsRegexToken (token : Text) : Prop :=
  ∃ body suffix, token = '/' :: (body ++ '/' :: suffix) ∧ EndsGroup body.getLast? ∧
    (∀ pos, EndsGroup body[pos]? → body[pos + 1]? ≠ some '/') ∧
    (suffix = [] ∨ suffix = ['+'] ∨ suffix = ['*'] ∨ suffix = ['?'])

def IsToken (token : Text) : Prop :=
  IsSymbolToken token ∨ IsQuotedToken token ∨ IsRegexToken token

def joinBlank (tokens : List Text) : Text := [' '].intercalate tokens

section Place

variable {pre token rest : Text} {acc : List Text}

/-- A blank follows, or nothing. -/
def AtGap (rest : Text) : Prop := ∀ c ∈ rest.head?, c = ' '

theorem tokenStep_at (acc : List Text) {c : Char}
    (hc : (pre ++ token ++ rest)[pre.length]? = some c) (buf : Text) :
    scanning (pre ++ token ++ rest) ⟨pre.length, buf, acc⟩ = true ∧
      tokenStep (pre ++ token ++ rest) ⟨pre.length, buf, acc⟩ = some
        (if isSpace c then ⟨pre.length + 1, [], ScanState.flush ⟨pre.length, buf, acc⟩⟩
        else if c = '"' then
          let j := closingQuote (pre ++ token ++ rest) (pre.length + 1)
          ⟨j + 1, [], ScanState.flush ⟨pre.length, buf, acc⟩ ++
            [slice (pre ++ token ++ rest) pre.length (j + 1)]⟩
        else if c = '/' then
          let j := withSuffix (pre ++ token ++ rest)
            (closingSlash (pre ++ token ++ rest) (pre.length + 1))
          ⟨j + 1, [], ScanState.flush ⟨pre.length, buf, acc⟩ ++
            [slice (pre ++ token ++ rest) pre.length (j + 1)]⟩
        else ⟨pre.length + 1, buf ++ [c], acc⟩) := by
  refine ⟨decide_eq_true (List.getElem?_eq_some_iff.mp hc).1, ?_⟩
  simp only [tokenStep, hc, Option.map_some]

theorem symbol_reaches (pre : Text) (h : ∀ c ∈ token, isSpace c = false ∧ c ≠ '"' ∧ c ≠ '/') (buf : Text) :
    Reaches (scanning (pre ++ token ++ rest)) (tokenStep (pre ++ token ++ rest))
      ⟨pre.length, buf, acc⟩ ⟨pre.length + token.length, buf ++ token, acc⟩ := by
  induction token generalizing pre buf with
  | nil =>
    rw [List.append_nil buf]
    exact .refl _
  | cons c token ih =>
    obtain ⟨hspace, hquote, hslash⟩ := h c (by simp)
    have hc : (pre ++ c :: token ++ rest)[pre.length]? = some c := by simp
    obtain ⟨hcond, hstep⟩ := tokenStep_at acc hc buf
    rw [hspace, if_neg Bool.false_ne_true, if_neg hquote, if_neg hslash] at hstep
    have htext : pre ++ c :: token ++ rest = pre ++ [c] ++ token ++ rest := by simp
    have hmore := ih (pre ++ [c]) (fun x hx => h x (List.mem_cons_of_mem c hx)) (buf ++ [c])
    rw [← htext] at hmore
    refine .step hcond hstep ?_
    convert hmore using 2
    · simp
    · simp
      omega
    · simp

/-- Looking back from inside a quoted token stops at its opening quote. -/
theorem isEscaped_behind_quote (pre body more : Text) {pos : ℕ} (hpos : pos ≤ body.length) :
    isEscaped (pre ++ '"' :: (body ++ more)) (pre.length + 1 + pos) = isEscaped body pos := by
  have htake : (pre ++ '"' :: (body ++ more)).take (pre.length + 1 + pos) =
      pre ++ '"' :: body.take pos := by
    rw [Nat.add_assoc, List.take_length_add_append, Nat.add_comm 1 pos, List.take_succ_cons,
      List.take_append_of_le_length hpos]
  rw [isEscaped, isEscaped, htake, List.reverse_append, List.reverse_cons, List.append_assoc,
    List.takeWhile_append, List.singleton_append, List.takeWhile_cons_of_neg (by decide),
    List.append_nil]
  split_ifs with hall
  · rw [(List.takeWhile_prefix _).eq_of_length hall]
  · rfl

theorem getElem?_behind (pre more : Text) (c : Char) (pos : ℕ) :
    (pre ++ c :: more)[pre.length + 1 + pos]? = more[pos]? := by
  rw [List.getElem?_append_right (by omega), Nat.add_assoc, Nat.add_sub_cancel_left, Nat.add_comm 1,
    List.getElem?_cons_succ]

theorem closingQuote_eq (pre more : Text) {body : Text} (hclose : isEscaped body body.length = false)
    (hinner : ∀ pos, body[pos]? = some '"' → isEscaped body pos = true) :
    closingQuote (pre ++ '"' :: (body ++ '"' :: more)) (pre.length + 1) =
      pre.length + 1 + body.length := by
  refine firstFrom_eq (by omega) (by simp; omega) (decide_eq_true ⟨?_, ?_⟩) fun m hm hlt => ?_
  · rw [getElem?_behind]
    simp
  · rw [isEscaped_behind_quote _ _ _ le_rfl, hclose]
  · obtain ⟨pos, rfl⟩ : ∃ pos, m = pre.length + 1 + pos := ⟨m - (pre.length + 1), by omega⟩
    rw [decide_eq_false_iff_not, getElem?_behind, List.getElem?_append_left (by omega),
      isEscaped_behind_quote _ _ _ (by omega)]
    rintro ⟨hquote, hfree⟩
    rw [hinner pos hquote] at hfree
    cases hfree

theorem quoted_reaches (h : IsQuotedToken token) :
    Reaches (scanning (pre ++ token ++ rest)) (tokenStep (pre ++ token ++ rest))
      ⟨pre.length, [], acc⟩ ⟨pre.length + token.length, [], acc ++ [token]⟩ := by
  obtain ⟨body, rfl, hclose, hinner⟩ := h
  have hj : closingQuote (pre ++ '"' :: (body ++ ['"']) ++ rest) (pre.length + 1) =
      pre.length + 1 + body.length := by
    rw [← closingQuote_eq pre rest hclose hinner]
    simp
  have hc : (pre ++ '"' :: (body ++ ['"']) ++ rest)[pre.length]? = some '"' := by simp
  obtain ⟨hcond, hstep⟩ := tokenStep_at acc hc []
  have hlen : pre.length + 1 + body.length + 1 = pre.length + ('"' :: (body ++ ['"'])).length := by
    simp
    omega
  simp only [if_neg (show ¬ isSpace '"' = true by decide), ↓reduceIte, hj, hlen, slice_append] at hstep
  exact .single hcond hstep

theorem closingSlash_eq (pre more : Text) {body : Text} (hends : EndsGroup body.getLast?)
    (hinner : ∀ pos, EndsGroup body[pos]? → body[pos + 1]? ≠ some '/') :
    closingSlash (pre ++ '/' :: (body ++ '/' :: more)) (pre.length + 1) =
      pre.length + 1 + body.length := by
  have hbefore : ∀ pos ≤ body.length, (pre ++ '/' :: (body ++ '/' :: more))[pre.length + 1 + pos - 1]? =
      if pos = 0 then some '/' else body[pos - 1]? := by
    intro pos hpos
    split_ifs with hzero
    · subst hzero
      simp
    · have hshift : pre.length + 1 + pos - 1 = pre.length + 1 + (pos - 1) := by omega
      rw [hshift, getElem?_behind, List.getElem?_append_left (by omega)]
  have hne : body ≠ [] := by
    rintro rfl
    rcases hends with h | h <;> cases h
  refine firstFrom_eq (by omega) (by simp; omega) (decide_eq_true ⟨?_, ?_⟩) fun m hm hlt => ?_
  · rw [getElem?_behind]
    simp
  · rw [hbefore _ le_rfl, if_neg (by simpa using hne), ← List.getLast?_eq_getElem?]
    rcases hends with h | h <;> simp [h]
  · obtain ⟨pos, rfl⟩ : ∃ pos, m = pre.length + 1 + pos := ⟨m - (pre.length + 1), by omega⟩
    rw [decide_eq_false_iff_not, hbefore _ (by omega), getElem?_behind,
      List.getElem?_append_left (by omega)]
    rintro ⟨hslash, -, hgroup⟩
    split_ifs at hgroup with hzero
    · rcases hgroup with h | h <;> simp at h
    · refine hinner (pos - 1) hgroup ?_
      rwa [Nat.sub_add_cancel (by omega)]

theorem withSuffix_eq (pre : Text) {body suffix : Text} (hrest : AtGap rest)
    (hsuffix : suffix = [] ∨ suffix = ['+'] ∨ suffix = ['*'] ∨ suffix = ['?']) :
    withSuffix (pre ++ '/' :: (body ++ '/' :: (suffix ++ rest))) (pre.length + 1 + body.length) =
      pre.length + 1 + body.length + suffix.length := by
  have hnext : (pre ++ '/' :: (body ++ '/' :: (suffix ++ rest)))[pre.length + 1 + body.length + 1]? =
      (suffix ++ rest).head? := by
    rw [Nat.add_assoc _ body.length, getElem?_behind, List.getElem?_append_right (by omega),
      Nat.add_sub_cancel_left, List.getElem?_cons_succ, List.head?_eq_getElem?]
  rw [withSuffix, hnext]
  have htaken : ∀ x, x ≠ ' ' → suffix = [x] →
      (if pre.length + 1 + body.length + 1 < (pre ++ '/' :: (body ++ '/' :: (suffix ++ rest))).length ∧
        (suffix ++ rest).head? ≠ some ' ' then pre.length + 1 + body.length + 1
        else pre.length + 1 + body.length) = pre.length + 1 + body.length + suffix.length := by
    rintro x hx rfl
    rw [if_pos ⟨by simp; omega, by simpa using hx⟩]
    rfl
  rcases hsuffix with rfl | h | h | h
  · rw [if_neg]
    · rfl
    · rintro ⟨hlt, hblank⟩
      cases rest with
      | nil =>
        simp at hlt
        omega
      | cons c rest => exact hblank (by rw [hrest c rfl]; rfl)
  · exact htaken '+' (by decide) h
  · exact htaken '*' (by decide) h
  · exact htaken '?' (by decide) h

theorem regex_reaches (h : IsRegexToken token) (hrest : AtGap rest) :
    Reaches (scanning (pre ++ token ++ rest)) (tokenStep (pre ++ token ++ rest))
      ⟨pre.length, [], acc⟩ ⟨pre.length + token.length, [], acc ++ [token]⟩ := by
  obtain ⟨body, suffix, rfl, hends, hinner, hsuffix⟩ := h
  have htext : pre ++ '/' :: (body ++ '/' :: suffix) ++ rest =
      pre ++ '/' :: (body ++ '/' :: (suffix ++ rest)) := by simp
  have hj : withSuffix (pre ++ '/' :: (body ++ '/' :: suffix) ++ rest)
      (closingSlash (pre ++ '/' :: (body ++ '/' :: suffix) ++ rest) (pre.length + 1)) =
      pre.length + 1 + body.length + suffix.length := by
    rw [htext, closingSlash_eq pre (suffix ++ rest) hends hinner, withSuffix_eq pre hrest hsuffix]
  have hc : (pre ++ '/' :: (body ++ '/' :: suffix) ++ rest)[pre.length]? = some '/' := by simp
  obtain ⟨hcond, hstep⟩ := tokenStep_at acc hc []
  have hlen : pre.length + 1 + body.length + suffix.length + 1 =
      pre.length + ('/' :: (body ++ '/' :: suffix)).length := by
    simp
    omega
  simp only [if_neg (show ¬ isSpace '/' = true by decide), if_neg (show ¬ '/' = '"' by decide),
    ↓reduceIte, hj, hlen, slice_append] at hstep
  exact .single hcond hstep

theorem token_reaches (pre : Text) (acc : List Text) (h : IsToken token) (hrest : AtGap rest) :
    ∃ s, Reaches (scanning (pre ++ token ++ rest)) (tokenStep (pre ++ token ++ rest))
        ⟨pre.length, [], acc⟩ s ∧ s.i = pre.length + token.length ∧ s.flush = acc ++ [token] := by
  rcases h with h | h | h
  · refine ⟨_, symbol_reaches pre h.2 [], rfl, ?_⟩
    rw [ScanState.flush, List.nil_append, if_neg h.1]
  · exact ⟨_, quoted_reaches h, rfl, rfl⟩
  · exact ⟨_, regex_reaches h hrest, rfl, rfl⟩

end Place

theorem joinBlank_cons (token : Text) {tokens : List Text} (h : tokens ≠ []) :
    joinBlank (token :: tokens) = token ++ ' ' :: joinBlank tokens := by
  obtain ⟨next, tokens, rfl⟩ := List.exists_cons_of_ne_nil h
  simp [joinBlank, List.intercalate_cons_cons]

theorem tokens_reach {tokens : List Text} (h : ∀ token ∈ tokens, IsToken token) (hne : tokens ≠ [])
    (pre : Text) (acc : List Text) :
    ∃ s, Reaches (scanning (pre ++ joinBlank tokens)) (tokenStep (pre ++ joinBlank tokens))
        ⟨pre.length, [], acc⟩ s ∧ scanning (pre ++ joinBlank tokens) s = false ∧
      s.flush = acc ++ tokens := by
  induction tokens generalizing pre acc with
  | nil => exact absurd rfl hne
  | cons token tokens ih =>
    have htoken := h token (by simp)
    by_cases hlast : tokens = []
    · subst hlast
      obtain ⟨s, hreach, hi, hflush⟩ :=
        token_reaches pre acc htoken (show AtGap [] by simp [AtGap])
      have htext : pre ++ joinBlank [token] = pre ++ token ++ [] := by simp [joinBlank]
      rw [htext]
      refine ⟨s, hreach, decide_eq_false ?_, hflush⟩
      rw [hi]
      simp
    · rw [joinBlank_cons token hlast, ← List.append_assoc]
      obtain ⟨s, hreach, hi, hflush⟩ := token_reaches pre acc htoken
        (show AtGap (' ' :: joinBlank tokens) by simp [AtGap])
      obtain ⟨s', hmore, hexit, hflush'⟩ := ih (fun t ht => h t (List.mem_cons_of_mem _ ht)) hlast
        (pre ++ token ++ [' ']) (acc ++ [token])
      have htext : pre ++ token ++ [' '] ++ joinBlank tokens =
          pre ++ token ++ ' ' :: joinBlank tokens := by simp
      rw [htext] at hmore hexit
      refine ⟨s', hreach.trans (.step ?_ ?_ hmore), hexit, ?_⟩
      · exact decide_eq_true (by rw [hi]; simp)
      · have hblank : (pre ++ token ++ ' ' :: joinBlank tokens)[s.i]? = some ' ' := by
          rw [hi, ← List.length_append]
          simp
        rw [tokenStep, hblank, Option.map_some, if_pos (by decide), hi, hflush]
        simp [Nat.add_assoc]
      · rw [hflush', List.append_assoc, List.singleton_append]

/-- Scanning any text ends, with tokens that leave out nothing but white space; and scanning
    well-formed tokens joined by single blanks gives them back. -/
theorem expansionToTokens_lossless :
    (∀ expansion : Text, ∃ fuel tokens, expansionToTokens expansion fuel = some tokens ∧
      Spaced expansion tokens) ∧
    ∀ tokens : List Text, (∀ token ∈ tokens, IsToken token) →
      ∃ fuel, expansionToTokens (joinBlank tokens) fuel = some tokens := by
  refine ⟨fun expansion => ⟨_, expansionToTokens_returns expansion⟩, fun tokens h => ?_⟩
  by_cases hne : tokens = []
  · subst hne
    exact ⟨0, rfl⟩
  · obtain ⟨s, hreach, hexit, hflush⟩ := tokens_reach h hne [] []
    obtain ⟨fuel, hrun⟩ := hreach.exists_run hexit
    rw [List.nil_append] at hrun hflush
    refine ⟨fuel, (congrArg (Option.map ScanState.flush) hrun).trans ?_⟩
    rw [Option.map_some, hflush]

def oneOfEach : List Text :=
  [['x'], ['"', '\\', '"', '"'], ['/', '[', 'a', '-', 'z', ']', '/', '+']]

theorem expansionToTokens_lossless_sample :
    ∃ fuel, expansionToTokens (joinBlank oneOfEach) fuel = some oneOfEach := by
  refine expansionToTokens_lossless.2 oneOfEach ?_
  intro token htoken
  simp only [oneOfEach, List.mem_cons, List.not_mem_nil, or_false] at htoken
  rcases htoken with rfl | rfl | rfl
  · exact Or.inl ⟨by simp, by simp [isSpace]⟩
  · refine Or.inr (Or.inl ⟨['\\', '"'], rfl, by decide, fun pos hpos => ?_⟩)
    match pos with
    | 0 => cases hpos
    | 1 => decide
    | pos + 2 => simp at hpos
  · refine Or.inr (Or.inr ⟨['[', 'a', '-', 'z', ']'], ['+'], rfl, Or.inl rfl, fun pos hpos => ?_,
      Or.inr (Or.inl rfl)⟩)
    match pos with
    | 0 | 1 | 2 | 3 | 4 => simp
    | pos + 5 => simp [EndsGroup] at hpos

end RSFuzz
