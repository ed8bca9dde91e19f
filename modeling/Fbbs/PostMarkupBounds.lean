import Fbbs.PostMarkup

/-!
# Printing a post stays inside the post

The body of a post is printed without reading outside it.  The header is: the fields
are found by positions that are added up, and the line ends are not looked at again.
-/

namespace Fbbs

namespace PostMarkup

open TaggedMarkup TextScan

section Lines

variable {text : Bytes} {s e : Nat}

def lineEnd (text : Bytes) (s e : Nat) : Nat :=
  let p := first text (· == 10) s e
  if p = e then p else p + 1

theorem getLineEnd_eq (order : s ≤ e) (inside : e ≤ text.length) :
    getLineEnd text s e = some (lineEnd text s e) := by
  rw [getLineEnd, find_eq order inside]
  rfl

theorem lineEnd_le (order : s ≤ e) (inside : e ≤ text.length) : lineEnd text s e ≤ e := by
  have bound := first_le (· == 10) order inside
  simp only [lineEnd]
  split
  · exact bound
  · omega

theorem le_lineEnd : s ≤ lineEnd text s e := by
  have low := le_first text (· == 10) s e
  simp only [lineEnd]
  split
  · exact low
  · omega

theorem lt_lineEnd (before : s < e) : s < lineEnd text s e := by
  have low := le_first text (· == 10) s e
  simp only [lineEnd]
  split
  · omega
  · omega

/-- A line that ends before the text ends with a newline. -/
theorem newline_of_lineEnd_lt (order : s ≤ e) (inside : e ≤ text.length)
    (before : lineEnd text s e < e) : text[lineEnd text s e - 1]? = some 10 := by
  have low := first_le (· == 10) order inside
  simp only [lineEnd] at before ⊢
  split at before
  · omega
  · rename_i other
    have earlier : first text (· == 10) s e < e := by omega
    obtain ⟨c, here, newline⟩ := stop_first earlier order inside
    rw [beq_iff_eq] at newline
    rw [if_neg other, Nat.add_sub_cancel, here, newline]

end Lines

section Escaping

variable {text : Bytes} {s e : Nat}

theorem escapeLoop_self : escapeLoop text e e = some [] := by
  rw [escapeLoop, if_pos rfl]

theorem escapeLoop_outside (other : s ≠ e) (outside : text.length ≤ s) :
    escapeLoop text s e = none := by
  have behind : text[s]? = none := List.getElem?_eq_none outside
  rw [escapeLoop, if_neg other]
  split
  next => rfl
  next found => cases behind.symm.trans found

theorem escapeLoop_cons {c : UInt8} (other : s ≠ e) (here : text[s]? = some c) :
    escapeLoop text s e = (escapeLoop text (s + 1) e).map fun rest => escapeByte c ++ rest := by
  rw [escapeLoop, if_neg other]
  split
  next behind => cases behind.symm.trans here
  next found =>
    obtain rfl := Option.some.inj (found.symm.trans here)
    rfl

theorem escapeLoop_eq (order : s ≤ e) (inside : e ≤ text.length) :
    escapeLoop text s e = some ((slice text s e).flatMap escapeByte) := by
  induction distance : e - s generalizing s with
  | zero =>
    have same : s = e := by omega
    rw [same, escapeLoop_self, slice_of_le (Nat.le_refl e)]
    rfl
  | succ distance ih =>
    obtain ⟨c, here⟩ := exists_getElem? (s := s) text (by omega)
    rw [escapeLoop_cons (by omega) here, ih (by omega) (by omega),
      slice_cons (by omega) here]
    rfl

/-- A range whose begin is behind its end is printed up to the end of the text, and
further. -/
theorem escapeLoop_eq_none (behind : e < s) : escapeLoop text s e = none := by
  induction distance : text.length - s generalizing s with
  | zero => exact escapeLoop_outside (by omega) (by omega)
  | succ distance ih =>
    obtain ⟨c, here⟩ := exists_getElem? (s := s) text (by omega)
    rw [escapeLoop_cons (by omega) here, ih (by omega) (by omega)]
    rfl

/-- What is printed for bytes of the post. -/
def escaped (page : Page) (bytes : Bytes) : Output :=
  if page.utf8 then bytes.flatMap escapeByte
  else if bytes = [] then []
  else (page.convert bytes).flatMap escapeByte

variable (page : Page)

theorem xmlEscape_eq (order : s ≤ e) (inside : e ≤ text.length) :
    xmlEscape page text s e = some (escaped page (slice text s e)) := by
  unfold xmlEscape escaped
  cases page.utf8 with
  | true => exact escapeLoop_eq order inside
  | false =>
    simp only [Bool.false_eq_true, if_false]
    by_cases same : s = e
    · rw [if_pos same, if_pos (slice_of_le (Nat.le_of_eq same.symm))]
    · have nonempty : slice text s e ≠ [] := by
        intro empty
        have length := length_slice (s := s) inside
        rw [empty, List.length_nil] at length
        omega
      rw [if_neg same, if_pos (by omega), if_neg nonempty, read_eq inside]
      rfl

theorem xmlEscape_eq_none (behind : e < s) : xmlEscape page text s e = none := by
  unfold xmlEscape
  cases page.utf8 with
  | true => exact escapeLoop_eq_none behind
  | false =>
    have other : s ≠ e := by omega
    have notBefore : ¬s < e := by omega
    simp only [Bool.false_eq_true, if_false, if_neg other, if_neg notBefore]

end Escaping

section Numbers

variable {text : Bytes} {s : Nat}

/-- The bytes of a number, with blanks and a sign before it, end before the text does. -/
def numberEnds (text : Bytes) (s : Nat) : Bool :=
  let p := first text (fun c => !AsciiBytes.isspace c) s text.length
  let q := if text[p]? = some 45 ∨ text[p]? = some 43 then p + 1 else p
  p < text.length && first text (fun c => !DecimalText.isDigit c) q text.length < text.length

theorem isSome_strtol (order : s ≤ text.length) :
    (strtol text s).isSome = numberEnds text s := by
  have low := first_le (fun c => !AsciiBytes.isspace c) order (Nat.le_refl text.length)
  simp only [strtol, numberEnds, Option.bind_eq_bind, find_beyond order]
  set p := first text (fun c => !AsciiBytes.isspace c) s text.length with position
  by_cases before : p < text.length
  · obtain ⟨sign, here⟩ := exists_getElem? text before
    simp only [before, if_true, here, Option.bind_some, Option.some.injEq, decide_true,
      Bool.true_and]
    have bound : (if sign = 45 ∨ sign = 43 then p + 1 else p) ≤ text.length := by
      split <;> omega
    generalize (if sign = 45 ∨ sign = 43 then p + 1 else p) = q at bound ⊢
    rw [find_beyond bound]
    by_cases stops : first text (fun c => !DecimalText.isDigit c) q text.length < text.length
    · simp only [stops, if_true, decide_true, Option.bind_some]
      split <;> rfl
    · simp [stops]
  · simp [before]

theorem not_space_of_digit {c : UInt8} (digit : DecimalText.isDigit c = true) :
    AsciiBytes.isspace c = false ∧ c ≠ 45 ∧ c ≠ 43 := by
  rw [DecimalText.isDigit, Bool.and_eq_true, decide_eq_true_eq, decide_eq_true_eq] at digit
  simp only [AsciiBytes.isspace, UInt8.le_iff_toNat_le, UInt8.reduceToNat] at *
  refine ⟨?_, ?_, ?_⟩
  · rw [Bool.or_eq_false_iff, Bool.and_eq_false_iff, beq_eq_false_iff_ne,
      decide_eq_false_iff_not, decide_eq_false_iff_not]
    refine ⟨?_, .inr (by omega)⟩
    rintro rfl
    exact absurd digit (by decide)
  · rintro rfl
    exact absurd digit (by decide)
  · rintro rfl
    exact absurd digit (by decide)

/-- A number that is followed by another byte has an end. -/
theorem numberEnds_of_digits {e : Nat} {c : UInt8} (order : s ≤ e) (here : text[e]? = some c)
    (digits : ∀ x ∈ slice text s e, DecimalText.isDigit x = true)
    (space : AsciiBytes.isspace c = false) (digit : DecimalText.isDigit c = false)
    (notMinus : c ≠ 45) (notPlus : c ≠ 43) : numberEnds text s = true := by
  have inside := (List.getElem?_eq_some_iff.mp here).1
  have start : ∃ x, text[s]? = some x ∧ AsciiBytes.isspace x = false ∧ x ≠ 45 ∧ x ≠ 43 := by
    rcases Nat.eq_or_lt_of_le order with rfl | before
    · exact ⟨c, here, space, notMinus, notPlus⟩
    · obtain ⟨x, found⟩ := exists_getElem? (s := s) text (by omega)
      refine ⟨x, found, not_space_of_digit (digits x ?_)⟩
      rw [slice_cons before found]
      exact List.mem_cons_self
  obtain ⟨x, found, notSpace, notSign⟩ := start
  have position : first text (fun c => !AsciiBytes.isspace c) s text.length = s := by
    rw [first_cons (by omega) found, notSpace]
    rfl
  have bound : first text (fun c => !DecimalText.isDigit c) s text.length ≤ e :=
    first_le_of_stop order inside here (by rw [digit]; rfl)
  simp only [numberEnds, position, found, Option.some.injEq, notSign.1, notSign.2, or_self,
    if_false, Bool.and_eq_true, decide_eq_true_eq]
  omega

end Numbers

section Colours

variable {text : Bytes} {e s : Nat}

theorem isSome_strtol_of_digits {c : UInt8} {last : Nat} (order : last ≤ s)
    (here : text[s]? = some c) (mark : c = 59 ∨ c = 109)
    (digits : ∀ x ∈ slice text last s, DecimalText.isDigit x = true) :
    ∃ number, strtol text last = some number := by
  have inside := (List.getElem?_eq_some_iff.mp here).1
  apply Option.isSome_iff_exists.mp
  rw [isSome_strtol (by omega)]
  rcases mark with rfl | rfl
  · exact numberEnds_of_digits order here digits rfl rfl (by decide) (by decide)
  · exact numberEnds_of_digits order here digits rfl rfl (by decide) (by decide)

theorem slice_succ {c : UInt8} (order : s ≤ e) (here : text[e]? = some c) :
    slice text s (e + 1) = slice text s e ++ [c] := by
  have inside := (List.getElem?_eq_some_iff.mp here).1
  rw [slice_append order (Nat.le_succ e) inside, slice_cons (Nat.lt_succ_self e) here,
    slice_of_le (Nat.le_refl _)]

theorem parseAnsiLoop_cons {start last : Nat} {ansi a : AnsiColor} {c : UInt8} (other : s ≠ e)
    (here : text[s]? = some c) :
    parseAnsiLoop text start e ansi s last a =
      if c = 59 then
        (strtol text last).bind fun number =>
          parseAnsiLoop text start e ansi (s + 1) (s + 1) (a.set (Int32.ofInt number).toInt)
      else if c = 109 then
        (strtol text last).bind fun number =>
          some (s + 1, if s = start + 2 then .plain
            else ansi.update (a.set (Int32.ofInt number).toInt))
      else if DecimalText.isDigit c then parseAnsiLoop text start e ansi (s + 1) last a
      else some (s, ansi) := by
  rw [parseAnsiLoop, if_neg other]
  split
  next behind => cases behind.symm.trans here
  next found =>
    obtain rfl := Option.some.inj (found.symm.trans here)
    rfl

theorem parseAnsiLoop_outside {start last : Nat} {ansi a : AnsiColor} (other : s ≠ e)
    (outside : text.length ≤ s) : parseAnsiLoop text start e ansi s last a = none := by
  have behind : text[s]? = none := List.getElem?_eq_none outside
  rw [parseAnsiLoop, if_neg other]
  split
  next => rfl
  next found => cases behind.symm.trans found

/-- An escape sequence ends behind its start, and a zero is not part of it. -/
theorem parseAnsiLoop_spec {start last : Nat} (ansi a : AnsiColor) (order : s ≤ e)
    (inside : e ≤ text.length) (lastOrder : last ≤ s) (startOrder : start ≤ s)
    (digits : ∀ x ∈ slice text last s, DecimalText.isDigit x = true)
    (nonzero : (0 : UInt8) ∉ slice text start s) :
    ∃ next color, parseAnsiLoop text start e ansi s last a = some (next, color) ∧
      s ≤ next ∧ next ≤ e ∧ (0 : UInt8) ∉ slice text start next := by
  induction distance : e - s generalizing s last a with
  | zero =>
    have same : s = e := by omega
    refine ⟨e, ansi, ?_, by omega, by omega, ?_⟩
    · rw [parseAnsiLoop, if_pos same]
    · rw [← same]
      exact nonzero
  | succ distance ih =>
    obtain ⟨c, here⟩ := exists_getElem? (s := s) text (by omega)
    have other : s ≠ e := by omega
    have passed : c ≠ 0 → (0 : UInt8) ∉ slice text start (s + 1) := by
      intro cNonzero
      rw [slice_succ startOrder here]
      exact List.not_mem_append nonzero (by simpa using cNonzero.symm)
    rw [parseAnsiLoop_cons other here]
    by_cases semicolon : c = 59
    · obtain ⟨number, value⟩ := isSome_strtol_of_digits lastOrder here (.inl semicolon) digits
      rw [if_pos semicolon, value, Option.bind_some]
      obtain ⟨next, color, loop, low, high, clean⟩ := ih
        (a.set (Int32.ofInt number).toInt) (by omega) (Nat.le_refl (s + 1)) (by omega)
        (by rw [slice_of_le (Nat.le_refl _)]; simp) (passed (by rw [semicolon]; decide))
        (by omega)
      exact ⟨next, color, loop, by omega, high, clean⟩
    · rw [if_neg semicolon]
      by_cases letter : c = 109
      · obtain ⟨number, value⟩ := isSome_strtol_of_digits lastOrder here (.inr letter) digits
        rw [if_pos letter, value, Option.bind_some]
        exact ⟨s + 1, _, rfl, by omega, by omega, passed (by rw [letter]; decide)⟩
      · rw [if_neg letter]
        by_cases digit : DecimalText.isDigit c = true
        · have cNonzero : c ≠ 0 := by
            rintro rfl
            exact absurd digit (by decide)
          rw [if_pos digit]
          obtain ⟨next, color, loop, low, high, clean⟩ := ih a (by omega : s + 1 ≤ e)
            (by omega : last ≤ s + 1) (by omega)
            (by
              rw [slice_succ lastOrder here]
              intro x member
              rcases List.mem_append.mp member with old | new
              · exact digits x old
              · rw [List.mem_singleton.mp new]
                exact digit)
            (passed cNonzero) (by omega)
          exact ⟨next, color, loop, by omega, high, clean⟩
        · rw [if_neg digit]
          exact ⟨s, ansi, rfl, Nat.le_refl s, order, nonzero⟩

/-- `_parse_ansi_code` comes to a position behind the escape character. -/
theorem parseAnsiCode_spec (ansi : AnsiColor) (before : s < e) (inside : e ≤ text.length)
    (here : text[s]? = some 27) :
    ∃ next color, parseAnsiCode text s e ansi = some (next, color) ∧
      s < next ∧ next ≤ e ∧ (0 : UInt8) ∉ slice text s next := by
  have clean : (0 : UInt8) ∉ slice text s (s + 1) := by
    rw [slice_succ (Nat.le_refl s) here, slice_of_le (Nat.le_refl s)]
    decide
  unfold parseAnsiCode
  by_cases last : s + 1 = e
  · exact ⟨s + 1, ansi, if_pos last, by omega, by omega, clean⟩
  · obtain ⟨c, found⟩ := exists_getElem? (s := s + 1) text (by omega)
    simp only [if_neg last, found]
    by_cases bracket : c = 91
    · rw [if_neg (not_not.mpr bracket)]
      have cleanBracket : (0 : UInt8) ∉ slice text s (s + 2) := by
        rw [slice_succ (by omega) found]
        exact List.not_mem_append clean (by rw [bracket]; decide)
      obtain ⟨next, color, loop, low, high, cleanNext⟩ := parseAnsiLoop_spec ansi ⟨-1, -1, -1⟩
        (by omega : s + 2 ≤ e) inside (Nat.le_refl _) (by omega : s ≤ s + 2)
        (by rw [slice_of_le (Nat.le_refl _)]; simp) cleanBracket
      exact ⟨next, color, loop, by omega, high, cleanNext⟩
    · rw [if_pos bracket]
      exact ⟨s + 1, ansi, rfl, by omega, by omega, clean⟩

theorem le_of_parseAnsiLoop {start last next : Nat} {ansi a color : AnsiColor} (behind : e < s)
    (returns : parseAnsiLoop text start e ansi s last a = some (next, color)) : s ≤ next := by
  induction distance : text.length - s generalizing s last a with
  | zero =>
    rw [parseAnsiLoop_outside (by omega) (by omega)] at returns
    cases returns
  | succ distance ih =>
    obtain ⟨c, here⟩ := exists_getElem? (s := s) text (by omega)
    rw [parseAnsiLoop_cons (by omega) here] at returns
    split at returns
    · obtain ⟨number, -, loop⟩ := Option.bind_eq_some_iff.mp returns
      have forward := ih (by omega) loop (by omega)
      omega
    · split at returns
      · obtain ⟨number, -, result⟩ := Option.bind_eq_some_iff.mp returns
        rw [Option.some.injEq, Prod.mk.injEq] at result
        omega
      · split at returns
        · have forward := ih (by omega) returns (by omega)
          omega
        · rw [Option.some.injEq, Prod.mk.injEq] at returns
          omega

/-- Behind its end, too, `_parse_ansi_code` goes forward if it returns. -/
theorem lt_of_parseAnsiCode {ansi color : AnsiColor} {next : Nat} (behind : e < s)
    (returns : parseAnsiCode text s e ansi = some (next, color)) : s < next := by
  have other : s + 1 ≠ e := by omega
  simp only [parseAnsiCode, if_neg other] at returns
  split at returns
  · cases returns
  · split at returns
    · rw [Option.some.injEq, Prod.mk.injEq] at returns
      omega
    · have forward := le_of_parseAnsiLoop (by omega) returns
      omega

/-- A range whose begin is behind its end is never printed to its end. -/
theorem printAnsiLoop_eq_none (page : Page) {fuel last : Nat} {opened : Bool}
    {ansi : AnsiColor} (behind : e < s) :
    printAnsiLoop text page e fuel s last opened ansi = none := by
  induction fuel generalizing s last opened ansi with
  | zero => rfl
  | succ fuel ih =>
    have other : s ≠ e := by omega
    simp only [printAnsiLoop, if_neg other, Option.bind_eq_bind]
    cases text[s]? with
    | none => rfl
    | some c =>
      rw [Option.bind_some]
      split
      · cases xmlEscape page text last s with
        | none => rfl
        | some before =>
          rw [Option.bind_some]
          cases code : parseAnsiCode text s e ansi with
          | none => rfl
          | some result =>
            obtain ⟨next, color⟩ := result
            have forward := lt_of_parseAnsiCode behind code
            rw [Option.bind_some, ih (by omega)]
            rfl
      · exact ih (by omega)

theorem printAnsiText_eq_none (page : Page) (ansi : AnsiColor) (behind : e < s) :
    printAnsiText text page s e ansi = none :=
  printAnsiLoop_eq_none page behind

/-- `_print_ansi_text` prints every range inside the text. -/
theorem printAnsiLoop_isSome (page : Page) {fuel last : Nat} (opened : Bool) (ansi : AnsiColor)
    (order : s ≤ e) (inside : e ≤ text.length) (lastOrder : last ≤ s) (enough : e - s < fuel) :
    (printAnsiLoop text page e fuel s last opened ansi).isSome := by
  induction fuel generalizing s last opened ansi with
  | zero => omega
  | succ fuel ih =>
    rw [printAnsiLoop]
    by_cases last : s = e
    · rw [if_pos last, xmlEscape_eq page (by omega) inside]
      rfl
    · obtain ⟨c, here⟩ := exists_getElem? (s := s) text (by omega)
      simp only [if_neg last, here, Option.bind_eq_bind, Option.bind_some]
      by_cases escape : c = 27
      · rw [escape] at here
        obtain ⟨next, color, code, low, high, -⟩ :=
          parseAnsiCode_spec ansi (by omega) inside here
        have rest := ih true color high (Nat.le_refl next) (by omega)
        obtain ⟨⟨out, final⟩, loop⟩ := Option.isSome_iff_exists.mp rest
        rw [if_pos escape, xmlEscape_eq page lastOrder (by omega), Option.bind_some, code,
          Option.bind_some, loop]
        rfl
      · rw [if_neg escape]
        exact ih opened ansi (by omega : s + 1 ≤ e) (by omega) (by omega)

theorem printAnsiText_isSome (page : Page) (ansi : AnsiColor) (order : s ≤ e)
    (inside : e ≤ text.length) : (printAnsiText text page s e ansi).isSome :=
  printAnsiLoop_isSome page false ansi order inside (Nat.le_refl s) (by omega)

end Colours

section Body

variable (page : Page) {text : Bytes} {s e : Nat}

theorem strncaseeq_isSome {word : Bytes} (fits : s + word.length ≤ text.length) :
    (strncaseeq text s word).isSome := by
  rw [strncaseeq, read_eq fits]
  rfl

theorem beginWith_isSome (word : Bytes) (inside : e ≤ text.length) :
    (beginWith text s e word).isSome := by
  unfold beginWith
  split
  · exact strncaseeq_isSome (by omega)
  · rfl

theorem endWith_isSome (word : Bytes) (inside : e ≤ text.length) :
    (endWith text s e word).isSome := by
  unfold endWith
  split
  · exact strncaseeq_isSome (by omega)
  · rfl

theorem isQuote_isSome (inside : e ≤ text.length) : (isQuote text s e).isSome := by
  obtain ⟨colon, first⟩ :=
    Option.isSome_iff_exists.mp (beginWith_isSome (s := s) [58, 32] inside)
  obtain ⟨quote, second⟩ :=
    Option.isSome_iff_exists.mp (beginWith_isSome (s := s) quoteString inside)
  simp only [isQuote, first, second, Option.bind_eq_bind, Option.bind_some, Option.isSome_some]

theorem isPicture_isSome (inside : e ≤ text.length) : (isPicture text s e).isSome := by
  have known : ∀ word, ∃ result, endWith text s e word = some result :=
    fun word => Option.isSome_iff_exists.mp (endWith_isSome word inside)
  obtain ⟨jpg, jpgEq⟩ := known [46, 106, 112, 103]
  obtain ⟨gif, gifEq⟩ := known [46, 103, 105, 102]
  obtain ⟨png, pngEq⟩ := known [46, 112, 110, 103]
  obtain ⟨jpeg, jpegEq⟩ := known [106, 112, 101, 103]
  simp only [isPicture, jpgEq, gifEq, pngEq, jpegEq, Option.bind_eq_bind, Option.bind_some,
    Option.isSome_some]

/-- The end of the address at a position. -/
def urlEnd (text : Bytes) (s e : Nat) : Nat :=
  first text (fun c => !isUrlByte c) s e

/-- `_print_url` returns the end of the address. -/
theorem printUrl_spec (option : Int32) (order : s ≤ e) (inside : e ≤ text.length) :
    ∃ out, printUrl page text s e option = some (out, urlEnd text s e) := by
  have high : urlEnd text s e ≤ e := first_le _ order inside
  have low : s ≤ urlEnd text s e := le_first _ _ s e
  have found : getUrl text s e = some (urlEnd text s e) := find_eq order inside
  have bound : urlEnd text s e ≤ text.length := Nat.le_trans high inside
  simp only [printUrl, found, Option.bind_eq_bind, Option.bind_some]
  split
  · rw [read_eq bound]
    exact ⟨_, rfl⟩
  · have picture : (showsPicture text s (urlEnd text s e) option).isSome := by
      unfold showsPicture
      split
      · exact isPicture_isSome bound
      · rfl
    obtain ⟨picture, pictureEq⟩ := Option.isSome_iff_exists.mp picture
    rw [pictureEq, Option.bind_some, xmlEscape_eq page low bound]
    exact ⟨_, rfl⟩

/-- Where `_print_paragraph` looks for the next address. -/
def urlStart (text : Bytes) (s e : Nat) : Option Nat :=
  (indexWord text httpString s e).or (indexWord text httpsString s e)

theorem nextUrl_eq (order : s ≤ e) (inside : e ≤ text.length) :
    nextUrl text s e = some (urlStart text s e) := by
  have http : memstr text httpString s e = some (indexWord text httpString s e) :=
    findWord_eq order inside
  have https : memstr text httpsString s e = some (indexWord text httpsString s e) :=
    findWord_eq order inside
  rw [nextUrl, http, urlStart]
  cases indexWord text httpString s e with
  | some url => rfl
  | none => exact https

/-- The address at a position that has been found is not empty. -/
theorem urlStart_bounds {url : Nat} (inside : e ≤ text.length)
    (found : urlStart text s e = some url) :
    s ≤ url ∧ url < e ∧ url < urlEnd text url e := by
  have bounds : ∀ word : Bytes, word.all isUrlByte = true → 0 < word.length →
      indexWord text word s e = some url →
      s ≤ url ∧ url < e ∧ url < urlEnd text url e := by
    intro word urlBytes nonempty position
    obtain ⟨low, high, matched⟩ := indexWord_eq_some position
    have passed : url + word.length ≤ urlEnd text url e := by
      apply le_first_of_slice high inside
      rw [matched]
      intro c member
      rw [List.all_eq_true.mp urlBytes c member]
      rfl
    omega
  rw [urlStart, Option.or_eq_some_iff] at found
  rcases found with http | ⟨-, https⟩
  · exact bounds httpString (by decide) (by decide) http
  · exact bounds httpsString (by decide) (by decide) https

theorem printParagraphLoop_isSome {fuel : Nat} (option : Int32) (ansi : AnsiColor)
    (order : s ≤ e) (inside : e ≤ text.length) (enough : e - s < fuel) :
    (printParagraphLoop page text e option fuel s ansi).isSome := by
  induction fuel generalizing s ansi with
  | zero => omega
  | succ fuel ih =>
    rw [printParagraphLoop]
    by_cases last : s = e
    · rw [if_pos last]
      rfl
    · rw [if_neg last, nextUrl_eq order inside]
      simp only [Option.bind_eq_bind, Option.bind_some]
      cases found : urlStart text s e with
      | none =>
        obtain ⟨result, printed⟩ :=
          Option.isSome_iff_exists.mp (printAnsiText_isSome page ansi order inside)
        simp only [printed, Option.bind_some, Option.isSome_some]
      | some url =>
        obtain ⟨low, before, after⟩ := urlStart_bounds inside found
        obtain ⟨⟨out, color⟩, printed⟩ := Option.isSome_iff_exists.mp
          (printAnsiText_isSome page ansi low (by omega : url ≤ text.length))
        obtain ⟨link, linked⟩ := printUrl_spec page option before.le inside
        have bound : urlEnd text url e ≤ e := first_le _ before.le inside
        obtain ⟨rest, later⟩ := Option.isSome_iff_exists.mp
          (ih color bound (by omega))
        simp only [printed, linked, later, Option.bind_some, Option.isSome_some]

theorem printLine_isSome (option : Int32) (inSignature inQuote : Bool) (before : s < e)
    (inside : e ≤ text.length) :
    (printLine page text s e option inSignature inQuote).isSome := by
  obtain ⟨c, here⟩ := exists_getElem? (s := s) text (by omega)
  have blank : ∃ blank, isBlankLine text s e = some blank := by
    unfold isBlankLine
    rw [here]
    split
    · exact ⟨true, rfl⟩
    · split
      · exact ⟨_, rfl⟩
      · exact ⟨false, rfl⟩
  obtain ⟨blank, blankEq⟩ := blank
  obtain ⟨content, paragraph⟩ := Option.isSome_iff_exists.mp
    (printParagraphLoop_isSome page (lineOption option inSignature inQuote) .plain before.le
      inside (by omega : e - s < text.length + 1))
  simp only [printLine, blankEq, printParagraph, paragraph, Option.bind_eq_bind,
    Option.bind_some]
  cases blank <;> rfl

theorem isSeparator_isSome (inSignature : Bool) (inside : e ≤ text.length) :
    (isSeparator text s e inSignature).isSome := by
  unfold isSeparator
  split
  · rw [read_eq inside]
    rfl
  · rfl

theorem nowInQuote_isSome (inSignature inQuote : Bool) (inside : e ≤ text.length) :
    (nowInQuote text s e inSignature inQuote).isSome := by
  unfold nowInQuote
  split
  · rfl
  · exact isQuote_isSome inside

theorem printBodyLoop_isSome {fuel : Nat} (option : Int32) (inSignature inQuote : Bool)
    (order : s ≤ e) (inside : e ≤ text.length) (enough : e - s < fuel) :
    (printBodyLoop page text e option fuel s inSignature inQuote).isSome := by
  induction fuel generalizing s inSignature inQuote with
  | zero => omega
  | succ fuel ih =>
    rw [printBodyLoop]
    by_cases last : s = e
    · rw [if_pos last]
      rfl
    · have before : s < e := by omega
      have low : s < lineEnd text s e := lt_lineEnd before
      have high : lineEnd text s e ≤ e := lineEnd_le order inside
      have bound : lineEnd text s e ≤ text.length := by omega
      have later : ∀ inSignature inQuote, ∃ rest, printBodyLoop page text e option fuel
          (lineEnd text s e) inSignature inQuote = some rest := by
        intro inSignature inQuote
        exact Option.isSome_iff_exists.mp (ih inSignature inQuote high (by omega))
      obtain ⟨separator, separatorEq⟩ :=
        Option.isSome_iff_exists.mp (isSeparator_isSome (s := s) inSignature bound)
      rw [if_neg last, getLineEnd_eq order inside]
      simp only [Option.bind_eq_bind, Option.bind_some, separatorEq]
      cases separator with
      | true =>
        obtain ⟨rest, restEq⟩ := later true false
        simp only [if_true, restEq, Option.bind_some]
        split <;> rfl
      | false =>
        obtain ⟨quote, quoteEq⟩ := Option.isSome_iff_exists.mp
          (nowInQuote_isSome (s := s) inSignature inQuote bound)
        obtain ⟨paragraph, paragraphEq⟩ := Option.isSome_iff_exists.mp
          (printLine_isSome page option inSignature quote low bound)
        obtain ⟨rest, restEq⟩ := later inSignature quote
        simp only [Bool.false_eq_true, if_false, quoteEq, paragraphEq, restEq,
          Option.bind_some, Option.isSome_some]

theorem printBody_isSome (option : Int32) (order : s ≤ text.length) :
    (printBody page text s text.length option).isSome := by
  obtain ⟨out, printed⟩ := Option.isSome_iff_exists.mp (printBodyLoop_isSome page option false
    false order (Nat.le_refl _) (by omega : text.length - s < text.length + 1))
  rw [printBody, printed]
  rfl

/-- A body that starts behind the end of the text is not printed to its end. -/
theorem printBody_eq_none (option : Int32) (behind : text.length < s) :
    printBody page text s text.length option = none := by
  have other : s ≠ text.length := by omega
  rw [printBody, printBodyLoop, if_neg other, getLineEnd, find_outside other behind.le]
  rfl

end Body

section Header

variable (page : Page) (text : Bytes)

/-- The bracket behind the nick, from where `_print_header` looks for the board. -/
def nickMark : Option Nat := do
  let line := lineEnd text 0 text.length
  let sender ← indexWord text senderString 0 line
  let ownerEnd ← index text 32 (sender + senderString.length) line
  if text.length ≤ ownerEnd + 2 then none else lastIndex text 41 (ownerEnd + 2) line

/-- The bracket before a date that `_parse_header_date` reads. -/
def dateMark (s e : Nat) : Option Nat :=
  (index text 40 s e).filter fun b => b + datetimeSize ≤ e

/-- The numbers of a date end before the text does. -/
def DateEnds (b : Nat) : Prop :=
  ∀ offset ∈ [1, 8, 13, 18, 21, 24], numberEnds text (b + offset) = true

/-- The header is not recognised before something is missing in it, or it is complete:
a colon follows the nick, the numbers of the date end inside the text and, if the date
is one, the board is at least a byte, the title line is longer than its beginning, and
another byte follows the date line. -/
def StaysInside : Prop :=
  let line := lineEnd text 0 text.length
  let line2 := lineEnd text line text.length
  let line3 := lineEnd text line2 text.length
  ∀ nickEnd, nickMark text = some nickEnd →
    ∃ colon, index text 58 nickEnd line = some colon ∧
      (colon + 2 < text.length → line + topicString.length < text.length →
        (∀ b, dateMark text line2 line3 = some b → DateEnds text b) ∧
        (parseHeaderDate text page line2 line3 ≠ some 0 →
          colon + 2 < line ∧ line + topicString.length < line2 ∧ line3 < text.length))

variable {text}

theorem bind_isSome_iff {α β : Type} {x : Option α} {f : α → Option β} :
    (x.bind f).isSome = true ↔ ∃ value, x = some value ∧ (f value).isSome = true := by
  cases x <;> simp

/-- The date is read inside the text exactly if its numbers end there. -/
theorem parseHeaderDate_isSome_iff {s e : Nat} (order : s ≤ e) (inside : e ≤ text.length) :
    (parseHeaderDate text page s e).isSome = true ↔
      ∀ b, dateMark text s e = some b → DateEnds text b := by
  rw [parseHeaderDate, findSymbol_eq order inside]
  simp only [Option.bind_eq_bind, Option.bind_some]
  cases found : index text 40 s e with
  | none => simp [dateMark, found]
  | some b =>
    have bounds := index_eq_some order inside found
    by_cases short : e < b + datetimeSize
    · simp [dateMark, found, short]
    · have fits : b + datetimeSize ≤ e := by omega
      have size : datetimeSize = 26 := rfl
      have known : ∀ offset, offset ≤ 24 →
          ((∃ value, strtol text (b + offset) = some value) ↔
            numberEnds text (b + offset) = true) := by
        intro offset small
        rw [← isSome_strtol (by omega), Option.isSome_iff_exists]
      simp only [if_neg short, bind_isSome_iff, Option.isSome_some, and_true,
        exists_and_right, dateMark, found, Option.filter_some, fits, decide_true, if_true,
        Option.some.injEq, forall_eq', DateEnds, List.forall_mem_cons]
      rw [known 1 (by decide), known 8 (by decide), known 13 (by decide),
        known 18 (by decide), known 21 (by decide), known 24 (by decide)]
      simp only [List.not_mem_nil, false_implies, implies_true, and_true]

/-- The first line ends inside the text. -/
theorem firstLine_le (text : Bytes) : lineEnd text 0 text.length ≤ text.length :=
  lineEnd_le (Nat.zero_le _) (Nat.le_refl _)

/-- The searches of the first line. -/
theorem memstr_sender :
    memstr text senderString 0 (lineEnd text 0 text.length) =
      some (indexWord text senderString 0 (lineEnd text 0 text.length)) :=
  findWord_eq (Nat.zero_le _) (firstLine_le text)

theorem parseHeader_of_no_mark (absent : nickMark text = none) :
    parseHeader page text = some none := by
  simp only [nickMark, Option.bind_eq_bind, Option.bind_eq_none_iff] at absent
  simp only [parseHeader, getLineEnd_eq (Nat.zero_le _) (Nat.le_refl text.length), memstr_sender,
    Option.bind_eq_bind, Option.bind_some]
  cases senderEq : indexWord text senderString 0 (lineEnd text 0 text.length) with
  | none => rfl
  | some sender =>
    have bounds := (indexWord_eq_some senderEq).2.1
    simp only [findSymbol_eq bounds (firstLine_le text), Option.bind_some]
    cases ownerEq : index text 32 (sender + senderString.length)
        (lineEnd text 0 text.length) with
    | none => rfl
    | some ownerEnd =>
      have missing := absent sender senderEq ownerEnd ownerEq
      simp only
      split at missing
      · rename_i short
        rw [if_pos short]
      · rename_i long
        rw [if_neg long, findLast_eq (firstLine_le text), missing]
        rfl

/-- A board that begins inside the text begins on the first line: the line ends with a
newline or with the text. -/
theorem boardBegin_le {nickEnd colon : Nat} (order : nickEnd ≤ lineEnd text 0 text.length)
    (found : index text 58 nickEnd (lineEnd text 0 text.length) = some colon)
    (long : colon + 2 < text.length) : colon + 2 ≤ lineEnd text 0 text.length := by
  obtain ⟨low, high, here⟩ := index_eq_some order (firstLine_le text) found
  by_contra beyond
  have last : lineEnd text 0 text.length - 1 = colon := by omega
  have newline := newline_of_lineEnd_lt (Nat.zero_le _) (Nat.le_refl text.length) (by omega)
  rw [last, here] at newline
  exact absurd newline (by decide)

/-- What follows once the bracket behind the nick has been found. -/
theorem parseHeader_of_mark {nickEnd : Nat} (found : nickMark text = some nickEnd) :
    ∃ ownerBegin ownerEnd, ownerBegin ≤ ownerEnd ∧
      ownerEnd + 2 ≤ nickEnd ∧ nickEnd < lineEnd text 0 text.length ∧
      parseHeader page text =
        (let line := lineEnd text 0 text.length
        let line2 := lineEnd text line text.length
        let line3 := lineEnd text line2 text.length
        (index text 58 nickEnd line).bind fun colon =>
          if text.length ≤ colon + 2 then some none
          else if text.length ≤ line + topicString.length then some none
          else
            (parseHeaderDate text page line2 line3).map fun date =>
              if date = 0 then none
              else some ⟨ownerBegin, ownerEnd, ownerEnd + 2, nickEnd, colon + 2,
                (index text 27 (colon + 2) line).getD (line - 1),
                line + topicString.length, line2 - 1, date, line3⟩) := by
  simp only [nickMark, Option.bind_eq_bind, Option.bind_eq_some_iff] at found
  obtain ⟨sender, senderEq, ownerEnd, ownerEq, rest⟩ := found
  split at rest
  · cases rest
  · rename_i long
    obtain ⟨senderLow, senderHigh, -⟩ := indexWord_eq_some senderEq
    obtain ⟨ownerLow, ownerHigh, -⟩ := index_eq_some senderHigh (firstLine_le text) ownerEq
    obtain ⟨nickLow, nickHigh, -⟩ := lastIndex_eq_some rest
    refine ⟨sender + senderString.length, ownerEnd, ownerLow, nickLow, nickHigh, ?_⟩
    simp only [parseHeader, getLineEnd_eq (Nat.zero_le _) (Nat.le_refl text.length),
      memstr_sender, senderEq, findSymbol_eq senderHigh (firstLine_le text), ownerEq, if_neg long,
      findLast_eq (firstLine_le text), rest, findSymbol_eq nickHigh.le (firstLine_le text),
      Option.bind_eq_bind, Option.bind_some]
    cases colonEq : index text 58 nickEnd (lineEnd text 0 text.length) with
    | none => rfl
    | some colon =>
      simp only [Option.bind_some]
      by_cases short : text.length ≤ colon + 2
      · rw [if_pos short, if_pos short]
      · have order := boardBegin_le nickHigh.le colonEq (by omega)
        have secondLine : lineEnd text (lineEnd text 0 text.length) text.length ≤
            text.length := lineEnd_le (firstLine_le text) (Nat.le_refl _)
        rw [if_neg short, if_neg short, findSymbol_eq order (firstLine_le text),
          getLineEnd_eq (firstLine_le text) (Nat.le_refl _)]
        simp only [Option.bind_some]
        by_cases untitled : text.length ≤ lineEnd text 0 text.length + topicString.length
        · rw [if_pos untitled, if_pos untitled]
        · rw [if_neg untitled, if_neg untitled, getLineEnd_eq secondLine (Nat.le_refl _)]
          simp only [Option.bind_some]
          cases parseHeaderDate text page
              (lineEnd text (lineEnd text 0 text.length) text.length)
              (lineEnd text (lineEnd text (lineEnd text 0 text.length) text.length)
                text.length) with
          | none => rfl
          | some date =>
            simp only [Option.bind_some, Option.map_some]
            split <;> rfl

theorem printNode_isSome_iff {name : List Char} {s e : Nat} (inside : e ≤ text.length) :
    (printNode page text name s e).isSome = true ↔ s ≤ e := by
  rw [printNode, Option.isSome_map]
  by_cases order : s ≤ e
  · rw [xmlEscape_eq page order inside]
    exact iff_of_true rfl order
  · rw [xmlEscape_eq_none page (by omega)]
    exact iff_of_false (by simp) order

theorem printAnsiText_isSome_iff {ansi : AnsiColor} {s e : Nat} (inside : e ≤ text.length) :
    (printAnsiText text page s e ansi).isSome = true ↔ s ≤ e := by
  by_cases order : s ≤ e
  · exact iff_of_true (printAnsiText_isSome page ansi order inside) order
  · rw [printAnsiText_eq_none page ansi (by omega)]
    exact iff_of_false (by simp) order

/-- The fields are printed exactly if each of them begins before it ends. -/
theorem printFields_isSome_iff {header : Header} (owner : header.ownerEnd ≤ text.length)
    (nick : header.nickEnd ≤ text.length) (board : header.boardEnd ≤ text.length)
    (title : header.titleEnd ≤ text.length) :
    (printFields page text header).isSome = true ↔
      header.ownerBegin ≤ header.ownerEnd ∧ header.nickBegin ≤ header.nickEnd ∧
        header.boardBegin ≤ header.boardEnd ∧ header.titleBegin ≤ header.titleEnd := by
  simp only [printFields, Option.bind_eq_bind, bind_isSome_iff, Option.isSome_some, and_true,
    exists_and_right]
  simp only [← Option.isSome_iff_exists, printNode_isSome_iff page owner,
    printNode_isSome_iff page nick, printNode_isSome_iff page board,
    printAnsiText_isSome_iff page title]

/-- The end of the board is behind its begin exactly if the line goes on there. -/
theorem boardEnd_bounds {start line : Nat} (order : start ≤ line) (positive : 0 < line)
    (inside : line ≤ text.length) :
    (index text 27 start line).getD (line - 1) ≤ text.length ∧
      (start ≤ (index text 27 start line).getD (line - 1) ↔ start < line) := by
  cases found : index text 27 start line with
  | none =>
    simp only [Option.getD_none]
    omega
  | some escape =>
    obtain ⟨low, high, -⟩ := index_eq_some order inside found
    simp only [Option.getD_some]
    omega

/-- A post with a header is printed exactly if its fields are and a byte follows it. -/
theorem isSome_of_header {header : Header} (option : Int32)
    (parsed : parseHeader page text = some (some header)) (positive : 0 < header.lineEnd)
    (inside : header.lineEnd ≤ text.length) :
    (xmlPrintPost page text option).isSome = true ↔
      (printFields page text header).isSome = true ∧ header.lineEnd < text.length := by
  have start : header.lineEnd ≠ 0 := by omega
  simp only [xmlPrintPost, printHeader, parsed, Option.bind_eq_bind, Option.bind_some]
  cases printFields page text header with
  | none => simp
  | some out =>
    simp only [Option.map_some, Option.bind_some, if_pos start, Option.isSome_some, true_and]
    by_cases followed : header.lineEnd < text.length
    · obtain ⟨body, printed⟩ :=
        Option.isSome_iff_exists.mp (printBody_isSome page option followed)
      rw [printed]
      exact iff_of_true rfl followed
    · rw [printBody_eq_none page option (by omega)]
      exact iff_of_false (by simp) followed

/-- A post whose header is not recognised is printed as a body. -/
theorem isSome_of_no_header (option : Int32) (parsed : parseHeader page text = some none) :
    (xmlPrintPost page text option).isSome = true := by
  obtain ⟨body, printed⟩ :=
    Option.isSome_iff_exists.mp (printBody_isSome page option (Nat.zero_le text.length))
  simp only [xmlPrintPost, printHeader, parsed, Option.bind_eq_bind, Option.bind_some,
    ne_eq, not_true_eq_false, if_false, printed, Option.isSome_some]

/-- The fields of a header end inside the text. -/
theorem parseHeader_inside {header : Header}
    (parsed : parseHeader page text = some (some header)) :
    header.ownerEnd ≤ text.length ∧ header.nickEnd ≤ text.length ∧
      header.boardEnd ≤ text.length ∧ header.titleEnd ≤ text.length ∧
      0 < header.lineEnd ∧ header.lineEnd ≤ text.length := by
  cases mark : nickMark text with
  | none =>
    rw [parseHeader_of_no_mark page mark] at parsed
    cases parsed
  | some nickEnd =>
    obtain ⟨ownerBegin, ownerEnd, ownerOrder, nickOrder, nickHigh, eq⟩ :=
      parseHeader_of_mark page mark
    rw [parsed] at eq
    obtain ⟨colon, colonEq, rest⟩ := Option.bind_eq_some_iff.mp eq.symm
    have firstLine := firstLine_le text
    have boardBegin := boardBegin_le nickHigh.le colonEq
    generalize lineEnd text 0 text.length = line at *
    have secondLow : line ≤ lineEnd text line text.length := le_lineEnd
    have secondLine : lineEnd text line text.length ≤ text.length :=
      lineEnd_le firstLine (Nat.le_refl _)
    have thirdLow : lineEnd text line text.length ≤
        lineEnd text (lineEnd text line text.length) text.length := le_lineEnd
    have thirdLine := lineEnd_le secondLine (Nat.le_refl text.length)
    split at rest
    · cases rest
    · split at rest
      · cases rest
      · obtain ⟨date, -, result⟩ := Option.map_eq_some_iff.mp rest
        split at result
        · cases result
        · rename_i long _ _
          have boardInside := (boardEnd_bounds (boardBegin (by omega)) (by omega) firstLine).1
          cases result
          refine ⟨?_, ?_, boardInside, ?_, ?_, thirdLine⟩ <;> simp only <;> omega

theorem isSome_of_fault (option : Int32) (parsed : parseHeader page text = none) :
    ¬(xmlPrintPost page text option).isSome = true := by
  simp [xmlPrintPost, printHeader, parsed]

end Header

/-- A post is printed exactly if its header is complete as far as it is recognised. -/
theorem isSome_iff_staysInside (page : Page) (text : Bytes) (option : Int32) :
    (xmlPrintPost page text option).isSome = true ↔ StaysInside page text := by
  have firstLine := firstLine_le text
  cases mark : nickMark text with
  | none =>
    apply iff_of_true (isSome_of_no_header page option (parseHeader_of_no_mark page mark))
    intro nickEnd found
    rw [mark] at found
    cases found
  | some nickEnd =>
    obtain ⟨ownerBegin, ownerEnd, ownerOrder, nickOrder, nickHigh, parsed⟩ :=
      parseHeader_of_mark page mark
    have boardBegin := @boardBegin_le text nickEnd
    simp only [StaysInside, mark, Option.some.injEq, forall_eq'] at parsed ⊢
    generalize lineEnd text 0 text.length = line at firstLine nickHigh boardBegin parsed ⊢
    have secondLow : line ≤ lineEnd text line text.length := le_lineEnd
    have secondLine : lineEnd text line text.length ≤ text.length :=
      lineEnd_le firstLine (Nat.le_refl _)
    generalize lineEnd text line text.length = line2 at secondLow secondLine parsed ⊢
    have thirdLow : line2 ≤ lineEnd text line2 text.length := le_lineEnd
    have thirdLine : lineEnd text line2 text.length ≤ text.length :=
      lineEnd_le secondLine (Nat.le_refl _)
    generalize lineEnd text line2 text.length = line3 at thirdLow thirdLine parsed ⊢
    cases colonEq : index text 58 nickEnd line with
    | none =>
      rw [colonEq] at parsed
      exact iff_of_false (isSome_of_fault page option parsed) (by simp)
    | some colon =>
      simp only [Option.some.injEq, exists_eq_left']
      simp only [colonEq, Option.bind_some] at parsed
      by_cases short : text.length ≤ colon + 2
      · rw [if_pos short] at parsed
        exact iff_of_true (isSome_of_no_header page option parsed) (by omega)
      · rw [if_neg short] at parsed
        by_cases untitled : text.length ≤ line + topicString.length
        · rw [if_pos untitled] at parsed
          exact iff_of_true (isSome_of_no_header page option parsed) (by omega)
        · rw [if_neg untitled] at parsed
          have dates := parseHeaderDate_isSome_iff page thirdLow thirdLine
          simp only [Nat.lt_of_not_le short, Nat.lt_of_not_le untitled, forall_const,
            ← dates]
          cases dateEq : parseHeaderDate text page line2 line3 with
          | none =>
            rw [dateEq] at parsed
            exact iff_of_false (isSome_of_fault page option parsed) (by simp)
          | some date =>
            rw [dateEq] at parsed
            by_cases zero : date = 0
            · rw [Option.map_some, if_pos zero] at parsed
              rw [zero]
              exact iff_of_true (isSome_of_no_header page option parsed) (by simp)
            · rw [Option.map_some, if_neg zero] at parsed
              have boardLow := boardBegin nickHigh.le colonEq (Nat.lt_of_not_le short)
              obtain ⟨boardInside, boardOrder⟩ :=
                boardEnd_bounds boardLow (by omega) firstLine
              have positive : 0 < line3 := by omega
              have ownerInside : ownerEnd ≤ text.length := by omega
              have nickInside : nickEnd ≤ text.length := by omega
              have titleInside : line2 - 1 ≤ text.length := by omega
              rw [isSome_of_header page option parsed positive thirdLine,
                printFields_isSome_iff page ownerInside nickInside boardInside titleInside]
              simp only [Option.isSome_some, true_and, ne_eq, Option.some.injEq, zero,
                not_false_eq_true, forall_const, boardOrder]
              omega

/-- Printing a post ends, reads inside the post only and prints ranges from their begin to
their end, exactly if the header is complete as far as it is recognised. -/
theorem xmlPrintPost_isSome_iff (page : Page) (text : Bytes) (option : Int32) :
    (∃ out, xmlPrintPost page text option = some out) ↔ StaysInside page text := by
  rw [← Option.isSome_iff_exists]
  exact isSome_iff_staysInside page text option

/-- A page in UTF-8 on which every date is the same second. -/
def samplePage : Page where
  utf8 := true
  convert bytes := bytes
  mktime _ := 1
  localtime _ := ⟨70, 0, 1, 0, 0, 1, ⟨4, Nat.lt_add_of_pos_right (Nat.zero_lt_succ 2)⟩⟩

/-- A sender with a nick, and no board. -/
def boardlessPost : Bytes :=
  senderString ++ [117, 32, 40, 110, 41, 10]

/-- Behind the nick `_print_header` looks for a colon, and goes on from the null pointer. -/
theorem boardlessPost_outside : xmlPrintPost samplePage boardlessPost 0 = none := by
  have mark : nickMark boardlessPost = some 15 := by decide
  have absent : index boardlessPost 58 15
      (lineEnd boardlessPost 0 boardlessPost.length) = none := by decide
  obtain ⟨_, _, -, -, -, parsed⟩ := parseHeader_of_mark samplePage mark
  simp only [absent, Option.bind_none] at parsed
  exact Option.not_isSome_iff_eq_none.mp (isSome_of_fault samplePage 0 parsed)

end PostMarkup

end Fbbs
