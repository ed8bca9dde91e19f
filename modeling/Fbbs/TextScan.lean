import Mathlib.Data.List.Basic

/-!
# Scanning a text by position

Searches that read a text symbol by symbol between two positions.  The reading forms
are partial: `none` is a read outside the text.  Inside the text they find the
positions that the plain forms define.
-/

namespace TextScan

variable {Symbol : Type*}

/-- The symbols from one position up to another. -/
def slice (text : List Symbol) (s e : Nat) : List Symbol :=
  (text.take e).drop s

/-- The first position with a symbol that stops the search, or `e`. -/
def first (text : List Symbol) (stop : Symbol → Bool) (s e : Nat) : Nat :=
  s + ((slice text s e).takeWhile fun c => !stop c).length

/-- The search that stops at `e` or at the first symbol that stops it. -/
def find (text : List Symbol) (stop : Symbol → Bool) (s e : Nat) : Option Nat :=
  if s = e then some s
  else
    match found : text[s]? with
    | none => none
    | some c => if stop c then some s else find text stop (s + 1) e
termination_by text.length - s
decreasing_by
  have inside := (List.getElem?_eq_some_iff.mp found).1
  omega

/-- The position of a symbol, if there is one. -/
def index [DecidableEq Symbol] (text : List Symbol) (c : Symbol) (s e : Nat) : Option Nat :=
  let p := first text (· == c) s e
  if p = e then none else some p

def findSymbol [DecidableEq Symbol] (text : List Symbol) (c : Symbol) (s e : Nat) :
    Option (Option Nat) :=
  (find text (· == c) s e).map fun p => if p = e then none else some p

/-- The last position of a symbol, if there is one. -/
def lastIndex [DecidableEq Symbol] (text : List Symbol) (c : Symbol) (s : Nat) :
    Nat → Option Nat
  | 0 => none
  | e + 1 => if e < s then none else if text[e]? = some c then some e else lastIndex text c s e

/-- The search for a symbol from the right. -/
def findLast [DecidableEq Symbol] (text : List Symbol) (c : Symbol) (s : Nat) :
    Nat → Option (Option Nat)
  | 0 => some none
  | e + 1 =>
    if e < s then some none
    else
      match text[e]? with
      | none => none
      | some x => if x = c then some (some e) else findLast text c s e

/-- Reading from one position up to another. -/
def read (text : List Symbol) (s e : Nat) : Option (List Symbol) :=
  if e ≤ text.length then some (slice text s e) else none

/-- Whether a word stands at a position and ends before another. -/
def wordAt [DecidableEq Symbol] (text word : List Symbol) (p e : Nat) : Bool :=
  p + word.length ≤ e && slice text p (p + word.length) = word

/-- The first position of a word, if there is one. -/
def indexWord [DecidableEq Symbol] (text word : List Symbol) (s e : Nat) : Option Nat :=
  (List.range' s (e - s)).find? fun p => wordAt text word p e

section Lemmas

variable {text : List Symbol} {stop : Symbol → Bool} {s e : Nat}

theorem slice_of_le (beyond : e ≤ s) : slice text s e = [] := by
  rw [slice, List.drop_eq_nil_iff, List.length_take]
  omega

theorem length_slice (inside : e ≤ text.length) : (slice text s e).length = e - s := by
  rw [slice, List.length_drop, List.length_take, Nat.min_eq_left inside]

theorem slice_eq_take (text : List Symbol) (s count : Nat) :
    slice text s (s + count) = (text.drop s).take count := by
  rw [slice, List.drop_take, Nat.add_sub_cancel_left]

theorem slice_piece (before piece after : List Symbol) :
    slice (before ++ (piece ++ after)) before.length (before.length + piece.length) = piece := by
  rw [slice_eq_take, List.drop_left, List.take_left]

theorem mem_piece {before piece after : List Symbol} {c : Symbol} {p : Nat}
    (low : before.length ≤ p) (high : p < before.length + piece.length)
    (here : (before ++ (piece ++ after))[p]? = some c) : c ∈ piece := by
  rw [List.getElem?_append_right low, List.getElem?_append_left (by omega)] at here
  exact List.mem_of_getElem? here

theorem slice_cons {c : Symbol} (before : s < e) (found : text[s]? = some c) :
    slice text s e = c :: slice text (s + 1) e := by
  obtain ⟨inside, symbol⟩ := List.getElem?_eq_some_iff.mp found
  have bound : s < (text.take e).length := by
    rw [List.length_take]
    omega
  rw [slice, List.drop_eq_getElem_cons bound, List.getElem_take, symbol]
  rfl

theorem read_eq (inside : e ≤ text.length) : read text s e = some (slice text s e) :=
  if_pos inside

theorem exists_getElem? {s : Nat} (text : List Symbol) (inside : s < text.length) :
    ∃ c, text[s]? = some c :=
  ⟨_, List.getElem?_eq_getElem inside⟩

theorem slice_append {m : Nat} (low : s ≤ m) (high : m ≤ e) (inside : e ≤ text.length) :
    slice text s e = slice text s m ++ slice text m e := by
  have parts : text.take e = text.take m ++ slice text m e := by
    rw [slice]
    conv_lhs => rw [← List.take_append_drop m (text.take e)]
    rw [List.take_take, Nat.min_eq_left high]
  rw [slice, parts, List.drop_append_of_le_length]
  · rfl
  · rw [List.length_take]
    omega

theorem first_of_le (beyond : e ≤ s) : first text stop s e = s := by
  rw [first, slice_of_le beyond]
  rfl

theorem first_cons {c : Symbol} (before : s < e) (found : text[s]? = some c) :
    first text stop s e = if stop c then s else first text stop (s + 1) e := by
  rw [first, slice_cons before found, List.takeWhile_cons]
  cases stop c with
  | true => rfl
  | false =>
    simp only [Bool.not_false, if_true, List.length_cons, Bool.false_eq_true, if_false, first]
    omega

theorem le_first (text : List Symbol) (stop : Symbol → Bool) (s e : Nat) :
    s ≤ first text stop s e :=
  Nat.le_add_right _ _

theorem first_le (stop : Symbol → Bool) (order : s ≤ e) (inside : e ≤ text.length) :
    first text stop s e ≤ e := by
  have short : ((slice text s e).takeWhile fun c => !stop c).length ≤ (slice text s e).length :=
    (List.takeWhile_sublist _).length_le
  rw [length_slice inside] at short
  rw [first]
  omega

theorem find_self : find text stop e e = some e := by
  rw [find, if_pos rfl]

theorem find_outside (other : s ≠ e) (outside : text.length ≤ s) :
    find text stop s e = none := by
  have behind : text[s]? = none := List.getElem?_eq_none outside
  rw [find, if_neg other]
  split
  next => rfl
  next here => cases behind.symm.trans here

theorem find_cons {c : Symbol} (other : s ≠ e) (found : text[s]? = some c) :
    find text stop s e = if stop c then some s else find text stop (s + 1) e := by
  rw [find, if_neg other]
  split
  next behind => cases behind.symm.trans found
  next here =>
    obtain rfl := Option.some.inj (here.symm.trans found)
    rfl

/-- The search inside the text finds the first position. -/
theorem find_eq (order : s ≤ e) (inside : e ≤ text.length) :
    find text stop s e = some (first text stop s e) := by
  induction distance : e - s generalizing s with
  | zero =>
    have same : s = e := by omega
    rw [same, find_self, first_of_le (Nat.le_refl e)]
  | succ distance ih =>
    have before : s < e := by omega
    obtain ⟨c, found⟩ := exists_getElem? text (Nat.lt_of_lt_of_le before inside)
    rw [find_cons (Nat.ne_of_lt before) found, first_cons before found]
    split
    · rfl
    · exact ih (by omega) (by omega)

/-- A search that comes to an end has not gone back. -/
theorem le_of_find {p : Nat} (found : find text stop s e = some p) : s ≤ p := by
  induction distance : text.length - s generalizing s with
  | zero =>
    by_cases same : s = e
    · rw [same, find_self, Option.some.injEq] at found
      omega
    · rw [find_outside same (by omega)] at found
      cases found
  | succ distance ih =>
    by_cases same : s = e
    · rw [same, find_self, Option.some.injEq] at found
      omega
    · obtain ⟨c, here⟩ := exists_getElem? (s := s) text (by omega)
      rw [find_cons same here] at found
      split at found
      · rw [Option.some.injEq] at found
        omega
      · have later := ih found (by omega)
        omega

/-- A search that stops before `e` has read the symbol. -/
theorem lt_length_of_find {p : Nat} (found : find text stop s e = some p) (other : p ≠ e) :
    p < text.length := by
  induction distance : text.length - s generalizing s with
  | zero =>
    by_cases same : s = e
    · rw [same, find_self, Option.some.injEq] at found
      omega
    · rw [find_outside same (by omega)] at found
      cases found
  | succ distance ih =>
    by_cases same : s = e
    · rw [same, find_self, Option.some.injEq] at found
      omega
    · obtain ⟨c, here⟩ := exists_getElem? (s := s) text (by omega)
      rw [find_cons same here] at found
      split at found
      · rw [Option.some.injEq] at found
        omega
      · exact ih found (by omega)

/-- The symbol at which the search stops. -/
theorem stop_first (before : first text stop s e < e) (order : s ≤ e) (inside : e ≤ text.length) :
    ∃ c, text[first text stop s e]? = some c ∧ stop c = true := by
  induction distance : e - s generalizing s with
  | zero =>
    rw [first_of_le (by omega)] at before
    omega
  | succ distance ih =>
    obtain ⟨c, found⟩ := exists_getElem? (s := s) text (by omega)
    rw [first_cons (by omega) found] at before ⊢
    split at before
    · exact ⟨c, by simp_all, by assumption⟩
    · rename_i continues
      rw [if_neg continues]
      exact ih before (by omega) (by omega)

/-- The symbols before the first position do not stop the search. -/
theorem slice_first (order : s ≤ e) (inside : e ≤ text.length) :
    slice text s (first text stop s e) = (slice text s e).takeWhile fun c => !stop c := by
  have parts := slice_append (le_first text stop s e) (first_le stop order inside) inside
  have whole : slice text s (first text stop s e) ++ slice text (first text stop s e) e =
      ((slice text s e).takeWhile fun c => !stop c) ++
        (slice text s e).dropWhile fun c => !stop c := by
    rw [← parts, List.takeWhile_append_dropWhile]
  apply List.append_inj_left whole
  · rw [length_slice (Nat.le_trans (first_le stop order inside) inside), first]
    omega

/-- A symbol that stops the search is not passed. -/
theorem first_le_of_stop {m : Nat} {c : Symbol} (order : s ≤ m) (before : m < e)
    (here : text[m]? = some c) (stops : stop c = true) : first text stop s e ≤ m := by
  have inside := (List.getElem?_eq_some_iff.mp here).1
  induction distance : m - s generalizing s with
  | zero =>
    have same : s = m := by omega
    have stopped : first text stop s e = m := by
      rw [same, first_cons before here, if_pos stops]
    exact Nat.le_of_eq stopped
  | succ distance ih =>
    obtain ⟨x, found⟩ := exists_getElem? (s := s) text (by omega)
    rw [first_cons (by omega) found]
    split
    · exact order
    · exact ih (by omega) (by omega)

/-- Symbols that do not stop the search are passed. -/
theorem le_first_of_slice {m : Nat} (order : m ≤ e) (inside : e ≤ text.length)
    (passed : ∀ c ∈ slice text s m, stop c = false) : m ≤ first text stop s e := by
  induction distance : m - s generalizing s with
  | zero =>
    have low := le_first text stop s e
    omega
  | succ distance ih =>
    obtain ⟨c, here⟩ := exists_getElem? (s := s) text (by omega)
    rw [slice_cons (by omega) here, List.forall_mem_cons] at passed
    rw [first_cons (by omega) here, passed.1]
    exact ih passed.2 (by omega)

/-- A search without a bound stops inside the text or reads behind its end. -/
theorem find_beyond (order : s ≤ text.length) :
    find text stop s (text.length + 1) =
      if first text stop s text.length < text.length then
        some (first text stop s text.length)
      else none := by
  induction distance : text.length - s generalizing s with
  | zero =>
    rw [find_outside (by omega) (by omega), first_of_le (by omega), if_neg (by omega)]
  | succ distance ih =>
    obtain ⟨c, here⟩ := exists_getElem? (s := s) text (by omega)
    rw [find_cons (by omega) here, first_cons (by omega) here]
    cases stop c with
    | true => simp only [if_true, if_pos (show s < text.length by omega)]
    | false =>
      simp only [Bool.false_eq_true, if_false]
      exact ih (by omega) (by omega)

section Symbols

variable [DecidableEq Symbol] {c : Symbol} {p : Nat}

theorem findSymbol_eq (order : s ≤ e) (inside : e ≤ text.length) :
    findSymbol text c s e = some (index text c s e) := by
  rw [findSymbol, find_eq order inside]
  rfl

theorem index_eq_some (order : s ≤ e) (inside : e ≤ text.length)
    (found : index text c s e = some p) : s ≤ p ∧ p < e ∧ text[p]? = some c := by
  have low := le_first text (· == c) s e
  have high := first_le (· == c) order inside
  simp only [index] at found
  split at found
  · cases found
  · rename_i other
    rw [Option.some.injEq] at found
    have before : first text (· == c) s e < e := by omega
    obtain ⟨x, here, stops⟩ := stop_first before order inside
    rw [beq_iff_eq] at stops
    rw [found, stops] at here
    exact ⟨by omega, by omega, here⟩

theorem bounds_of_findSymbol (found : findSymbol text c s e = some (some p)) :
    s ≤ p ∧ p < text.length := by
  rw [findSymbol, Option.map_eq_some_iff] at found
  obtain ⟨q, stopped, position⟩ := found
  split at position
  · cases position
  · rename_i other
    rw [Option.some.injEq] at position
    subst q
    exact ⟨le_of_find stopped, lt_length_of_find stopped other⟩

theorem findLast_eq (inside : e ≤ text.length) :
    findLast text c s e = some (lastIndex text c s e) := by
  induction e with
  | zero => rfl
  | succ e ih =>
    obtain ⟨x, here⟩ := exists_getElem? (s := e) text (by omega)
    rw [findLast, lastIndex, here]
    by_cases beyond : e < s
    · rw [if_pos beyond, if_pos beyond]
    · rw [if_neg beyond, if_neg beyond]
      by_cases same : x = c
      · simp [same]
      · simp only [same, if_false, Option.some.injEq]
        exact ih (by omega)

theorem lastIndex_eq_some (found : lastIndex text c s e = some p) :
    s ≤ p ∧ p < e ∧ text[p]? = some c := by
  induction e with
  | zero => cases found
  | succ e ih =>
    rw [lastIndex] at found
    split at found
    · cases found
    · split at found
      · rw [Option.some.injEq] at found
        subst p
        exact ⟨by omega, by omega, by assumption⟩
      · obtain ⟨low, high, here⟩ := ih found
        exact ⟨low, by omega, here⟩

/-- The last symbol of its kind. -/
theorem lastIndex_of_last (low : s ≤ p) (high : p < e) (here : text[p]? = some c)
    (last : ∀ q, p < q → q < e → text[q]? ≠ some c) : lastIndex text c s e = some p := by
  induction e with
  | zero => omega
  | succ e ih =>
    rw [lastIndex, if_neg (by omega)]
    by_cases same : p = e
    · rw [← same, if_pos here]
    · rw [if_neg (last e (by omega) (by omega))]
      exact ih (by omega) fun q after before => last q after (by omega)

theorem lastIndex_eq_none_iff :
    lastIndex text c s e = none ↔ ∀ q, s ≤ q → q < e → text[q]? ≠ some c := by
  induction e with
  | zero => exact iff_of_true rfl fun q _ before => absurd before (Nat.not_lt_zero q)
  | succ e ih =>
    rw [lastIndex]
    by_cases beyond : e < s
    · rw [if_pos beyond]
      exact iff_of_true rfl fun q after before => by omega
    rw [if_neg beyond]
    by_cases last : text[e]? = some c
    · rw [if_pos last]
      apply iff_of_false (Option.some_ne_none e)
      exact fun absent => absent e (by omega) (Nat.lt_succ_self e) last
    · rw [if_neg last, ih]
      constructor
      · intro absent q after before
        rcases Nat.lt_succ_iff_lt_or_eq.mp before with earlier | rfl
        · exact absent q after earlier
        · exact last
      · exact fun absent q after before => absent q after (Nat.lt_succ_of_lt before)

end Symbols

end Lemmas

section Words

variable [DecidableEq Symbol]

/-- The search for a word by its first symbol. -/
def findWord (text : List Symbol) (c : Symbol) (rest : List Symbol)
    (s e : Nat) : Option (Option Nat) :=
  if s = e then some none
  else
    match _found : findSymbol text c s e with
    | none => none
    | some none => some none
    | some (some p) =>
      if p + (c :: rest).length ≤ e then
        (read text p (p + (c :: rest).length)).bind fun word =>
          if word = c :: rest then some (some p) else findWord text c rest (p + 1) e
      else findWord text c rest (p + 1) e
termination_by text.length - s
decreasing_by
  all_goals
    have bounds := bounds_of_findSymbol _found
    omega

variable {text rest : List Symbol} {c : Symbol} {s e p : Nat}

theorem findWord_of_symbol (other : s ≠ e) (found : findSymbol text c s e = some (some p)) :
    findWord text c rest s e =
      if p + (c :: rest).length ≤ e then
        (read text p (p + (c :: rest).length)).bind fun word =>
          if word = c :: rest then some (some p) else findWord text c rest (p + 1) e
      else findWord text c rest (p + 1) e := by
  rw [findWord, if_neg other]
  split
  next outside => cases outside.symm.trans found
  next nowhere => cases nowhere.symm.trans found
  next here =>
    cases here.symm.trans found
    rfl

theorem findWord_of_none (other : s ≠ e) (found : findSymbol text c s e = some none) :
    findWord text c rest s e = some none := by
  rw [findWord, if_neg other]
  split
  next outside => cases outside.symm.trans found
  next => rfl
  next here => cases here.symm.trans found

theorem wordAt_iff {word : List Symbol} :
    wordAt text word p e = true ↔
      p + word.length ≤ e ∧ slice text p (p + word.length) = word := by
  rw [wordAt, Bool.and_eq_true, decide_eq_true_eq, decide_eq_true_eq]

theorem findWord_step (before : s < e) (inside : e ≤ text.length) :
    findWord text c rest s e =
      if wordAt text (c :: rest) s e then some (some s)
      else findWord text c rest (s + 1) e := by
  obtain ⟨x, here⟩ := exists_getElem? (s := s) text (by omega)
  have other : s ≠ e := by omega
  by_cases same : x = c
  · subst x
    have found : findSymbol text c s e = some (some s) := by
      rw [findSymbol, find_cons other here]
      simp [other]
    rw [findWord_of_symbol other found]
    by_cases fits : s + (c :: rest).length ≤ e
    · have readable : s + (c :: rest).length ≤ text.length := by omega
      rw [if_pos fits, read, if_pos readable, Option.bind_some]
      by_cases matched : slice text s (s + (c :: rest).length) = c :: rest
      · rw [if_pos matched, if_pos (wordAt_iff.mpr ⟨fits, matched⟩)]
      · rw [if_neg matched, if_neg fun present => matched (wordAt_iff.mp present).2]
    · rw [if_neg fits, if_neg fun present => fits (wordAt_iff.mp present).1]
  · have absent : ¬wordAt text (c :: rest) s e = true := by
      intro present
      have matched := (wordAt_iff.mp present).2
      rw [slice_cons (by simp) here, List.cons.injEq] at matched
      exact same matched.1
    have skipped : findSymbol text c s e = findSymbol text c (s + 1) e := by
      rw [findSymbol, find_cons other here]
      simp [same, findSymbol]
    rw [if_neg absent]
    by_cases last : s + 1 = e
    · have nothing : findSymbol text c s e = some none := by
        rw [skipped, last, findSymbol, find_self]
        simp
      rw [findWord_of_none other nothing, findWord, if_pos last]
    · have later := findSymbol_eq (c := c) (by omega : s + 1 ≤ e) inside
      cases found : index text c (s + 1) e with
      | none =>
        rw [found] at later
        rw [findWord_of_none other (skipped.trans later), findWord_of_none last later]
      | some p =>
        rw [found] at later
        rw [findWord_of_symbol other (skipped.trans later), findWord_of_symbol last later]

/-- The search for a word inside the text finds its first position. -/
theorem findWord_eq (order : s ≤ e) (inside : e ≤ text.length) :
    findWord text c rest s e = some (indexWord text (c :: rest) s e) := by
  induction steps : e - s generalizing s with
  | zero =>
    have same : s = e := by omega
    rw [findWord, if_pos same, indexWord, steps]
    rfl
  | succ distance ih =>
    rw [findWord_step (by omega) inside, indexWord, steps, List.range'_succ,
      List.find?_cons, ih (by omega) (by omega)]
    cases wordAt text (c :: rest) s e with
    | true => rfl
    | false =>
      have shorter : e - (s + 1) = distance := by omega
      rw [indexWord, shorter]
      rfl

theorem indexWord_of_first {word : List Symbol} (low : s ≤ p) (high : p < e)
    (here : wordAt text word p e = true)
    (first : ∀ q, s ≤ q → q < p → wordAt text word q e = false) :
    indexWord text word s e = some p := by
  rw [indexWord, List.find?_range'_eq_some]
  refine ⟨here, List.mem_range'_1.mpr ⟨low, by omega⟩, ?_⟩
  intro q after before
  rw [first q after before]
  rfl

theorem indexWord_eq_some {word : List Symbol} (found : indexWord text word s e = some p) :
    s ≤ p ∧ p + word.length ≤ e ∧ slice text p (p + word.length) = word := by
  have matched := List.find?_some found
  have member := List.mem_of_find?_eq_some found
  rw [wordAt, Bool.and_eq_true, decide_eq_true_eq, decide_eq_true_eq] at matched
  rw [List.mem_range'_1] at member
  exact ⟨member.1, matched⟩

end Words

end TextScan
