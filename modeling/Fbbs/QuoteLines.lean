import Fbbs.ColumnCut
import Fbbs.AsciiBytes
import Fbbs.WideChars

/-!
# The lines of a quotation

`get_truncated_line` of `lib/post.c` ends a line of a quotation where its columns are used up.
It is to leave out escape sequences when it counts columns, but the length of its list of their
characters is the size of a pointer.
-/

namespace Fbbs

namespace QuoteLines

open ColumnCut WideChars

abbrev Bytes := List UInt8

def newline : UInt8 := 10

def escape : UInt8 := 27

def truncateWidth : Int := 76

/-- `"[0123456789;"`. -/
def code : Bytes := [91, 48, 49, 50, 51, 52, 53, 54, 55, 56, 57, 59]

def sizeofPointer : Nat := 8

/-- `memchr(code, c, sizeof(code) - 1)`, where `code` is a pointer. -/
def isCode (c : UInt8) : Bool :=
  (code.take (sizeofPointer - 1)).contains c

/-- The bytes and the columns of a character that is not ASCII.  Of one that is not UTF-8 two
bytes are passed. -/
def wideChar (utf8 : Bool) (s : Bytes) : Nat × Int :=
  if utf8 then
    let wc := nextWchar s
    if wc.1 = weof ∨ wc.1 = 0 then (2, 0) else (wc.2, fbWcwidth wc.1)
  else (2, 2)

/-- The loop of `get_truncated_line` where `skip` more bytes have been passed already. -/
def truncateLoop (utf8 : Bool) : Bytes → Nat → Bool → Int → Nat
  | [], _, _, _ => 0
  | _ :: s, skip + 1, ansi, width => truncateLoop utf8 s skip ansi width + 1
  | c :: s, 0, ansi, width =>
    if c = newline then 1
    else if c = escape then truncateLoop utf8 s 0 true width + 1
    else if ansi then truncateLoop utf8 s 0 (isCode c) width + 1
    else if c &&& 0x80 ≠ 0 then
      let wide := wideChar utf8 (c :: s)
      if width - wide.2 < 0 then 0
      else if width - wide.2 = 0 then min wide.1 (s.length + 1)
      else truncateLoop utf8 s (wide.1 - 1) false (width - wide.2) + 1
    else if width - 1 = 0 then 1
    else truncateLoop utf8 s 0 false (width - 1) + 1

/-- A line that is quoted already may be wider. -/
def lineWidth (text : Bytes) : Int :=
  if text.take 2 = [58, 32] then truncateWidth + 2 else truncateWidth

/-- The length of the first line or of what is left of it. -/
def getTruncatedLine (utf8 : Bool) (text : Bytes) : Nat :=
  truncateLoop utf8 text 0 false (lineWidth text)

theorem truncateLoop_le (utf8 : Bool) (text : Bytes) (skip : Nat) (ansi : Bool) (width : Int) :
    truncateLoop utf8 text skip ansi width ≤ text.length := by
  induction text generalizing skip ansi width with
  | nil => exact Nat.le_refl 0
  | cons c s ih =>
    cases skip with
    | succ skip =>
      rw [truncateLoop, List.length_cons]
      exact Nat.succ_le_succ (ih skip ansi width)
    | zero =>
      simp only [truncateLoop, List.length_cons]
      split_ifs
      · omega
      · exact Nat.succ_le_succ (ih _ _ _)
      · exact Nat.succ_le_succ (ih _ _ _)
      · omega
      · omega
      · exact Nat.succ_le_succ (ih _ _ _)
      · omega
      · exact Nat.succ_le_succ (ih _ _ _)

theorem getTruncatedLine_le (utf8 : Bool) (text : Bytes) :
    getTruncatedLine utf8 text ≤ text.length :=
  truncateLoop_le utf8 text 0 false _

/-- What is passed in one go by the loop, up to the end of the line: a character, a newline or a
byte of an escape sequence. -/
def scanned (utf8 : Bool) : Bytes → Nat → Bool → List Item
  | [], _, _ => []
  | _ :: s, skip + 1, ansi => scanned utf8 s skip ansi
  | c :: s, 0, ansi =>
    if c = newline then [⟨1, 0⟩]
    else if c = escape then ⟨1, 0⟩ :: scanned utf8 s 0 true
    else if ansi then ⟨1, 0⟩ :: scanned utf8 s 0 (isCode c)
    else if c &&& 0x80 ≠ 0 then
      let wide := wideChar utf8 (c :: s)
      ⟨min wide.1 (s.length + 1), wide.2⟩ :: scanned utf8 s (wide.1 - 1) false
    else ⟨1, 1⟩ :: scanned utf8 s 0 false

theorem wideChar_pos (utf8 : Bool) (s : Bytes) : 0 < (wideChar utf8 s).1 := by
  simp only [wideChar]
  split_ifs with isUtf8 invalid
  · exact Nat.two_pos
  · exact (nextWchar_bounds s invalid).1
  · exact Nat.two_pos

theorem wideChar_le_two (utf8 : Bool) (s : Bytes) : (wideChar utf8 s).2 ≤ 2 := by
  simp only [wideChar]
  split_ifs with isUtf8 invalid
  · exact Int.zero_le_ofNat 2
  · exact fbWcwidth_le_two _
  · exact Int.le_refl 2

theorem truncateLoop_eq_cut (utf8 : Bool) (text : Bytes) (skip : Nat) (ansi : Bool) {width : Int}
    (positive : 0 < width) :
    truncateLoop utf8 text skip ansi width =
      min skip text.length + cut width (scanned utf8 text skip ansi) := by
  induction text generalizing skip ansi width with
  | nil => simp [truncateLoop, scanned, cut]
  | cons c s ih =>
    cases skip with
    | succ skip =>
      rw [truncateLoop, scanned, ih skip ansi positive, List.length_cons]
      omega
    | zero =>
      have passed := fun ansi => ih 0 ansi positive
      simp only [Nat.zero_min, Nat.zero_add] at passed
      simp only [truncateLoop, scanned, Nat.zero_min, Nat.zero_add]
      split_ifs with isNewline isEscape inAnsi isWide exceeds full last
      · exact (@cut_of_columns_eq_zero width ⟨1, 0⟩ positive rfl []).symm
      · rw [cut_of_columns_eq_zero positive rfl, passed, Nat.add_comm]
      · rw [cut_of_columns_eq_zero positive rfl, passed, Nat.add_comm]
      · rw [cut, if_pos exceeds]
      · rw [cut, if_neg exceeds, if_pos full]
      · have sized := wideChar_pos utf8 (c :: s)
        simp only [cut, if_neg exceeds, if_neg full]
        rw [ih _ false (by omega)]
        omega
      · have some : ¬width - 1 < 0 := by omega
        simp only [cut, if_neg some, if_pos last]
      · have some : ¬width - 1 < 0 := by omega
        simp only [cut, if_neg some, if_neg last]
        rw [ih 0 false (by omega)]
        omega

theorem lineWidth_ge (text : Bytes) : 76 ≤ lineWidth text := by
  rw [lineWidth, truncateWidth]
  split_ifs <;> omega

theorem getTruncatedLine_eq_cut (utf8 : Bool) (text : Bytes) :
    getTruncatedLine utf8 text = cut (lineWidth text) (scanned utf8 text 0 false) := by
  have wide := lineWidth_ge text
  rw [getTruncatedLine, truncateLoop_eq_cut utf8 text 0 false (by omega), Nat.zero_min,
    Nat.zero_add]

/-- At least a character is taken. -/
theorem getTruncatedLine_pos (utf8 : Bool) {text : Bytes} (nonempty : text ≠ []) :
    0 < getTruncatedLine utf8 text := by
  have wide := lineWidth_ge text
  cases text with
  | nil => exact absurd rfl nonempty
  | cons c s =>
    have sized := wideChar_pos utf8 (c :: s)
    have columns := wideChar_le_two utf8 (c :: s)
    simp only [getTruncatedLine, truncateLoop]
    split_ifs <;> omega

theorem truncateLoop_ge (utf8 : Bool) (text : Bytes) (skip : Nat) (ansi : Bool) (width : Int) :
    truncateLoop utf8 text skip ansi width = text.length ∨
      newline ∈ text.take (truncateLoop utf8 text skip ansi width) ∨
        width ≤ 2 * truncateLoop utf8 text skip ansi width + 1 := by
  induction text generalizing skip ansi width with
  | nil => exact .inl rfl
  | cons c s ih =>
    -- Of a character that is passed the rest of the text is left.
    have passed : ∀ skip ansi left, width ≤ left + 2 →
        truncateLoop utf8 s skip ansi left + 1 = s.length + 1 ∨
          newline ∈ c :: s.take (truncateLoop utf8 s skip ansi left) ∨
            width ≤ 2 * (truncateLoop utf8 s skip ansi left + 1 : Nat) + 1 := by
      intro skip ansi left fewer
      rcases ih skip ansi left with whole | member | wide
      · exact .inl (congrArg (· + 1) whole)
      · exact .inr (.inl (List.mem_cons_of_mem c member))
      · exact .inr (.inr (by omega))
    have columns := wideChar_le_two utf8 (c :: s)
    have sized := wideChar_pos utf8 (c :: s)
    cases skip with
    | succ skip =>
      rw [truncateLoop, List.take_succ_cons, List.length_cons]
      exact passed skip ansi width (by omega)
    | zero =>
      simp only [truncateLoop]
      split_ifs with isNewline isEscape inAnsi isWide exceeds full last
      · exact .inr (.inl (by simp [isNewline]))
      · rw [List.take_succ_cons, List.length_cons]
        exact passed 0 true width (by omega)
      · rw [List.take_succ_cons, List.length_cons]
        exact passed 0 (isCode c) width (by omega)
      · exact .inr (.inr (by omega))
      · exact .inr (.inr (by omega))
      · rw [List.take_succ_cons, List.length_cons]
        exact passed _ false _ (by omega)
      · exact .inr (.inr (by omega))
      · rw [List.take_succ_cons, List.length_cons]
        exact passed 0 false _ (by omega)

/-- A piece in the middle of a line is long. -/
theorem getTruncatedLine_ge (utf8 : Bool) (text : Bytes) :
    getTruncatedLine utf8 text = text.length ∨
      newline ∈ text.take (getTruncatedLine utf8 text) ∨ 38 ≤ getTruncatedLine utf8 text := by
  have wide := lineWidth_ge text
  rcases truncateLoop_ge utf8 text 0 false (lineWidth text) with whole | member | long
  · exact .inl whole
  · exact .inr (.inl member)
  · right
    right
    rw [getTruncatedLine]
    omega

/-- Cutting a text by lines, the first of a number of pieces. -/
def piecesWithin (utf8 : Bool) : Nat → Bytes → List Bytes
  | 0, _ => []
  | fuel + 1, text =>
    if text = [] then []
    else
      text.take (getTruncatedLine utf8 text) ::
        piecesWithin utf8 fuel (text.drop (getTruncatedLine utf8 text))

/-- The pieces that a text is cut into. -/
def pieces (utf8 : Bool) (text : Bytes) : List Bytes :=
  piecesWithin utf8 text.length text

section Pieces

variable {utf8 : Bool} {text : Bytes}

theorem length_drop_lt (utf8 : Bool) (nonempty : text ≠ []) :
    (text.drop (getTruncatedLine utf8 text)).length < text.length := by
  have taken := getTruncatedLine_pos utf8 nonempty
  have some := List.length_pos_of_ne_nil nonempty
  rw [List.length_drop]
  omega

theorem piecesWithin_eq {fuel : Nat} (enough : text.length ≤ fuel) :
    piecesWithin utf8 fuel text = pieces utf8 text := by
  suffices same : ∀ less more, text.length ≤ less → less ≤ more →
      piecesWithin utf8 more text = piecesWithin utf8 less text from
    same text.length fuel (Nat.le_refl _) enough
  clear enough
  intro less
  induction less generalizing text with
  | zero =>
    intro more short _
    obtain rfl := List.eq_nil_of_length_eq_zero (Nat.le_zero.mp short)
    cases more <;> simp [piecesWithin]
  | succ less ih =>
    intro more short order
    obtain ⟨more, rfl⟩ := Nat.exists_eq_add_of_le' (Nat.lt_of_lt_of_le (Nat.succ_pos less) order)
    rw [piecesWithin, piecesWithin]
    by_cases ended : text = []
    · rw [if_pos ended, if_pos ended]
    · have shorter := length_drop_lt utf8 ended
      rw [if_neg ended, if_neg ended, ih more (by omega) (by omega)]

theorem pieces_nil (utf8 : Bool) : pieces utf8 [] = [] := rfl

theorem pieces_of_ne_nil (nonempty : text ≠ []) :
    pieces utf8 text =
      text.take (getTruncatedLine utf8 text) ::
        pieces utf8 (text.drop (getTruncatedLine utf8 text)) := by
  have shorter := length_drop_lt utf8 nonempty
  obtain ⟨fuel, length⟩ := Nat.exists_eq_add_of_le' (List.length_pos_of_ne_nil nonempty)
  rw [pieces, length, piecesWithin, if_neg nonempty, piecesWithin_eq (by omega)]

end Pieces

/-- A character of a text that is UTF-8 or GBK. -/
inductive Glyph
  | ascii (c : UInt8) (low : c < 0x80)
  | char (c : Char) (high : 128 ≤ c.toNat)
  | pair (lead trail : UInt8) (isLead : 0x81 ≤ lead ∧ lead ≤ 0xfe)
      (isTrail : 0x40 ≤ trail ∧ trail ≤ 0xfe ∧ trail ≠ 0x7f)

namespace Glyph

/-- Whether the character may stand in a text of the encoding. -/
def IsEncoded (utf8 : Bool) : Glyph → Prop
  | ascii _ _ => True
  | char _ _ => utf8 = true
  | pair _ _ _ _ => utf8 = false

def bytes : Glyph → Bytes
  | ascii c _ => [c]
  | char c _ => String.utf8EncodeChar c
  | pair lead trail _ _ => [lead, trail]

/-- The columns of a character where it is not in an escape sequence. -/
def columns : Glyph → Nat
  | ascii _ _ => 1
  | char c _ => (fbWcwidth c.toNat).toNat
  | pair _ _ _ _ => 2

end Glyph

def textOf (glyphs : List Glyph) : Bytes :=
  glyphs.flatMap Glyph.bytes

/-- How much of an escape sequence has been seen.  It is late behind a character that the scan
takes for the last one. -/
inductive Sequence
  | outside
  | opened
  | inside
  | late
  deriving DecidableEq

def isParameter (c : UInt8) : Bool :=
  48 ≤ c && c ≤ 57 || c == 59

/-- `"6789;"`, which is not in the part of `code` that is searched. -/
def isLate (c : UInt8) : Bool :=
  54 ≤ c && c ≤ 57 || c == 59

def isLetter (c : UInt8) : Bool :=
  65 ≤ c && c ≤ 90 || 97 ≤ c && c ≤ 122

namespace Sequence

/-- The sequence with another character, if it belongs to it. -/
def extend : Sequence → UInt8 → Option Sequence
  | outside, _ => none
  | opened, c => if c = 91 then some inside else none
  | inside, c =>
    if isLate c then some late
    else if isParameter c then some inside
    else if isLetter c then some outside else none
  | late, c => if isParameter c then some late else if isLetter c then some outside else none

/-- What a character leaves of a sequence. -/
def next (sequence : Sequence) : Glyph → Sequence
  | .ascii c _ => if c = escape then opened else (sequence.extend c).getD outside
  | _ => outside

/-- The columns of a character.  Sequences take none. -/
def columns (sequence : Sequence) : Glyph → Nat
  | .ascii c _ => if c = escape ∨ (sequence.extend c).isSome then 0 else 1
  | glyph => glyph.columns

/-- A column for each character of a late sequence. -/
def surplus (sequence : Sequence) : Glyph → Nat
  | .ascii c _ => if sequence = late ∧ c ≠ escape ∧ (sequence.extend c).isSome then 1 else 0
  | _ => 0

/-- Whether a character belongs to the sequence or there is none, and takes away no columns as the
control characters of two bytes do. -/
def admits (sequence : Sequence) : Glyph → Bool
  | .ascii c _ => c == escape || sequence == outside || (sequence.extend c).isSome
  | .char c _ => sequence == outside && decide (0 ≤ fbWcwidth c.toNat)
  | .pair _ _ _ _ => sequence == outside

/-- Whether the scan takes the next character for one of a sequence. -/
def ansi : Sequence → Bool
  | outside | late => false
  | opened | inside => true

end Sequence

/-- The characters of the first line with the columns they take. -/
def line : Sequence → List Glyph → List Counted
  | _, [] => []
  | sequence, glyph :: glyphs =>
    if glyph.bytes = [newline] then [⟨1, 0, 0⟩]
    else
      ⟨glyph.bytes.length, sequence.columns glyph, sequence.surplus glyph⟩ ::
        line (sequence.next glyph) glyphs

/-- In the first line all escape characters begin sequences, and there are no control characters
of two bytes. -/
def regular : Sequence → List Glyph → Bool
  | _, [] => true
  | sequence, glyph :: glyphs =>
    glyph.bytes == [newline] ||
      sequence.admits glyph && regular (sequence.next glyph) glyphs

/-- The first line is so as far as it may fit. -/
def Regular (width : Int) (glyphs : List Glyph) : Prop :=
  ∃ part, part <+: glyphs ∧ regular .outside part = true ∧
    (part = glyphs ∨ width < columns ((line .outside part).map Counted.item))

section Reading

variable {utf8 : Bool}

theorem scanned_skip (utf8 : Bool) (passed text : Bytes) (ansi : Bool) :
    scanned utf8 (passed ++ text) passed.length ansi = scanned utf8 text 0 ansi := by
  induction passed with
  | nil => rfl
  | cons c passed ih => exact ih

theorem scanned_ascii {c : UInt8} (low : c < 0x80) (notNewline : c ≠ newline)
    (notEscape : c ≠ escape) (text : Bytes) :
    scanned utf8 (c :: text) 0 false = ⟨1, 1⟩ :: scanned utf8 text 0 false := by
  have notHigh : ¬(c &&& 0x80 ≠ 0) := not_not.mpr (AsciiBytes.and_0x80_of_lt low)
  simp only [scanned, if_neg notNewline, if_neg notEscape, Bool.false_eq_true, if_false,
    if_neg notHigh]

theorem scanned_wide {first : UInt8} {rest text : Bytes} {columns : Int} (high : 0x80 ≤ first)
    (read : wideChar utf8 (first :: (rest ++ text)) = (rest.length + 1, columns)) :
    scanned utf8 (first :: (rest ++ text)) 0 false =
      ⟨rest.length + 1, columns⟩ :: scanned utf8 text 0 false := by
  have notNewline : first ≠ newline := by
    rintro rfl
    exact absurd high (by decide)
  have notEscape : first ≠ escape := by
    rintro rfl
    exact absurd high (by decide)
  have size : min (rest.length + 1) ((rest ++ text).length + 1) = rest.length + 1 := by
    rw [List.length_append]
    omega
  simp only [scanned, if_neg notNewline, if_neg notEscape, Bool.false_eq_true, if_false,
    if_pos ((AsciiBytes.and_0x80 first).mpr high), read, size, Nat.add_sub_cancel, scanned_skip]

theorem wideChar_char {c : Char} (high : 128 ≤ c.toNat) (text : Bytes) :
    wideChar true (String.utf8EncodeChar c ++ text) =
      ((String.utf8EncodeChar c).length, fbWcwidth c.toNat) := by
  have valid : ¬((c.toNat : Int) = weof ∨ (c.toNat : Int) = 0) := by
    rw [weof]
    omega
  simp only [wideChar, if_true, nextWchar_encode high, if_neg valid]

theorem textOf_cons (glyph : Glyph) (glyphs : List Glyph) :
    textOf (glyph :: glyphs) = glyph.bytes ++ textOf glyphs :=
  List.flatMap_cons

theorem bytes_of_not_ascii {c : Char} (high : 128 ≤ c.toNat) :
    ∃ first rest, String.utf8EncodeChar c = first :: rest ∧ 0x80 ≤ first := by
  cases encoded : String.utf8EncodeChar c with
  | nil => exact absurd (congrArg List.length encoded) (by
      rw [String.length_utf8EncodeChar]
      exact c.utf8Size_pos.ne')
  | cons first rest =>
    exact ⟨first, rest, rfl,
      Utf8Text.le_of_mem_encodeChar high first (by rw [encoded]; exact List.mem_cons_self)⟩

theorem parameter_ofNat : ∀ n < 256, isParameter (UInt8.ofNat n) = true →
    UInt8.ofNat n ≠ newline ∧ UInt8.ofNat n ≠ escape ∧
      isCode (UInt8.ofNat n) = !isLate (UInt8.ofNat n) := by
  decide +kernel

theorem letter_ofNat : ∀ n < 256, isLetter (UInt8.ofNat n) = true →
    UInt8.ofNat n ≠ newline ∧ UInt8.ofNat n ≠ escape ∧ isCode (UInt8.ofNat n) = false ∧
      isLate (UInt8.ofNat n) = false ∧ isParameter (UInt8.ofNat n) = false := by
  decide +kernel

theorem isParameter_of_isLate {c : UInt8} (isLate : isLate c = true) : isParameter c = true := by
  simp only [QuoteLines.isLate, isParameter, Bool.or_eq_true, Bool.and_eq_true,
    decide_eq_true_eq] at isLate ⊢
  rcases isLate with ⟨first, last⟩ | isLast
  · exact .inl ⟨UInt8.le_trans (by decide) first, last⟩
  · exact .inr isLast

/-- A byte of a sequence is passed. -/
theorem scanned_sequence {c : UInt8} (notNewline : c ≠ newline) (notEscape : c ≠ escape)
    (text : Bytes) :
    scanned utf8 (c :: text) 0 true = ⟨1, 0⟩ :: scanned utf8 text 0 (isCode c) := by
  simp only [scanned, if_neg notNewline, if_neg notEscape, if_true]

/-- A character of ASCII is counted where the sequence is late, and where there is none. -/
theorem scanned_ascii_sequence {sequence : Sequence} {c : UInt8} (low : c < 0x80)
    (notNewline : c ≠ newline) (admitted : sequence.admits (.ascii c low) = true) (text : Bytes) :
    scanned utf8 (c :: text) 0 sequence.ansi =
      ⟨1, sequence.columns (.ascii c low) + sequence.surplus (.ascii c low)⟩ ::
        scanned utf8 text 0 (sequence.next (.ascii c low)).ansi := by
  by_cases isEscape : c = escape
  · subst isEscape
    simp [scanned, notNewline, Sequence.columns, Sequence.surplus, Sequence.next, Sequence.ansi]
  have parameter := parameter_ofNat c.toNat c.toNat_lt
  have letter := letter_ofNat c.toNat c.toNat_lt
  rw [UInt8.ofNat_toNat] at parameter letter
  simp only [Sequence.admits, Sequence.columns, Sequence.surplus, Sequence.next, isEscape,
    beq_iff_eq, false_or, if_false, Bool.or_eq_true] at admitted ⊢
  cases sequence with
  | outside =>
    simp only [Sequence.ansi, Sequence.extend]
    exact scanned_ascii low notNewline isEscape text
  | opened =>
    have isBracket : c = 91 := by
      simpa [Sequence.extend] using admitted
    subst isBracket
    rfl
  | inside =>
    rw [Sequence.ansi, scanned_sequence notNewline isEscape]
    cases late : isLate c with
    | true =>
      have code := (parameter (isParameter_of_isLate late)).2.2
      simp [Sequence.extend, Sequence.ansi, code, late]
    | false =>
      cases digit : isParameter c with
      | true =>
        have code := (parameter digit).2.2
        simp [Sequence.extend, Sequence.ansi, code, late, digit]
      | false =>
        have last : isLetter c = true := by
          simpa [Sequence.extend, late, digit] using admitted
        have code := (letter last).2.2.1
        simp [Sequence.extend, Sequence.ansi, code, late, digit, last]
  | late =>
    rw [Sequence.ansi, scanned_ascii low notNewline isEscape]
    cases digit : isParameter c with
    | true => simp [Sequence.extend, Sequence.ansi, isEscape, digit]
    | false =>
      have last : isLetter c = true := by
        simpa [Sequence.extend, digit] using admitted
      simp [Sequence.extend, Sequence.ansi, isEscape, digit, last]

/-- A character is read as it is meant but for the surplus. -/
theorem scanned_glyph {sequence : Sequence} {glyph : Glyph} (encoded : glyph.IsEncoded utf8)
    (notNewline : glyph.bytes ≠ [newline]) (admitted : sequence.admits glyph = true)
    (text : Bytes) :
    scanned utf8 (glyph.bytes ++ text) 0 sequence.ansi =
      ⟨glyph.bytes.length, sequence.columns glyph + sequence.surplus glyph⟩ ::
        scanned utf8 text 0 (sequence.next glyph).ansi := by
  cases glyph with
  | ascii c low =>
    have notLine : c ≠ newline := by
      rintro rfl
      exact notNewline rfl
    exact scanned_ascii_sequence low notLine admitted text
  | char c high =>
    obtain rfl : utf8 = true := encoded
    simp only [Sequence.admits, Bool.and_eq_true, beq_iff_eq, decide_eq_true_eq] at admitted
    obtain ⟨rfl, printable⟩ := admitted
    obtain ⟨first, tail, bytes, wide⟩ := bytes_of_not_ascii high
    have read := wideChar_char high text
    simp only [Glyph.bytes, Sequence.columns, Glyph.columns, Int.toNat_of_nonneg printable,
      bytes] at read ⊢
    apply (scanned_wide wide read).trans
    simp [Sequence.surplus, Sequence.next, Sequence.ansi]
  | pair lead trail isLead isTrail =>
    obtain rfl : utf8 = false := encoded
    obtain rfl : sequence = .outside := by
      simpa [Sequence.admits] using admitted
    have wide : 0x80 ≤ lead := UInt8.le_trans (by decide) isLead.1
    have read : wideChar false (lead :: ([trail] ++ text)) = (2, 2) := rfl
    exact scanned_wide wide read

/-- A regular part is read so, whatever follows. -/
theorem exists_scanned_eq {sequence : Sequence} {part : List Glyph}
    (encoded : ∀ glyph ∈ part, glyph.IsEncoded utf8) (isRegular : regular sequence part = true)
    (after : Bytes) :
    ∃ rest, scanned utf8 (textOf part ++ after) 0 sequence.ansi =
        (line sequence part).map Counted.miscounted ++ rest ∧ (after = [] → rest = []) := by
  induction part generalizing sequence with
  | nil => exact ⟨scanned utf8 after 0 sequence.ansi, rfl, by rintro rfl; rfl⟩
  | cons glyph part ih =>
    rw [List.forall_mem_cons] at encoded
    rw [regular, Bool.or_eq_true, beq_iff_eq, Bool.and_eq_true] at isRegular
    rw [textOf_cons, List.append_assoc, line]
    by_cases isNewline : glyph.bytes = [newline]
    · rw [if_pos isNewline, isNewline]
      exact ⟨[], rfl, fun _ => rfl⟩
    · obtain ⟨admitted, later⟩ := isRegular.resolve_left isNewline
      obtain ⟨rest, isRest, ends⟩ := ih encoded.2 later
      refine ⟨rest, ?_, ends⟩
      rw [if_neg isNewline, scanned_glyph encoded.1 isNewline admitted, isRest]
      rfl

end Reading

/-- What the function is to return: the end of the longest part of the first line whose columns
fit. -/
structure Truncates (glyphs : List Glyph) (n : Nat) : Prop where
  pos : 0 < n
  inside : n ≤ (textOf glyphs).length
  longest : Longest (lineWidth (textOf glyphs)) ((line .outside glyphs).map Counted.item) n

theorem textOf_ne_nil {glyphs : List Glyph} (nonempty : glyphs ≠ []) : textOf glyphs ≠ [] := by
  cases glyphs with
  | nil => exact absurd rfl nonempty
  | cons glyph glyphs =>
    rw [textOf_cons]
    apply List.append_ne_nil_of_left_ne_nil
    cases glyph with
    | ascii c low => exact List.cons_ne_nil _ _
    | char c high =>
      obtain ⟨first, rest, bytes, -⟩ := bytes_of_not_ascii high
      rw [Glyph.bytes, bytes]
      exact List.cons_ne_nil _ _
    | pair lead trail isLead isTrail => exact List.cons_ne_nil _ _

theorem bytes_pos (glyph : Glyph) : 0 < glyph.bytes.length := by
  cases glyph with
  | ascii c low => exact Nat.one_pos
  | char c high =>
    rw [Glyph.bytes, String.length_utf8EncodeChar]
    exact c.utf8Size_pos
  | pair lead trail isLead isTrail => exact Nat.two_pos

theorem line_sized (sequence : Sequence) (glyphs : List Glyph) :
    ∀ item ∈ line sequence glyphs, 0 < item.size := by
  induction glyphs generalizing sequence with
  | nil => simp [line]
  | cons glyph glyphs ih =>
    rw [line]
    split_ifs with isNewline
    · simp
    · rw [List.forall_mem_cons]
      exact ⟨bytes_pos glyph, ih _⟩

theorem exists_line_append (sequence : Sequence) (part rest : List Glyph) :
    ∃ after, line sequence (part ++ rest) = line sequence part ++ after := by
  induction part generalizing sequence with
  | nil => exact ⟨line sequence rest, rfl⟩
  | cons glyph part ih =>
    rw [List.cons_append, line, line]
    split_ifs with isNewline
    · exact ⟨[], rfl⟩
    · obtain ⟨after, same⟩ := ih (sequence.next glyph)
      exact ⟨after, by rw [same]; rfl⟩

section Truncating

variable {utf8 : Bool} {glyphs part : List Glyph} {width : Int}

/-- A regular part that is too wide or the whole text decides where the text is cut. -/
theorem cut_eq_fit_iff_of_part (positive : 0 < width)
    (encoded : ∀ glyph ∈ glyphs, glyph.IsEncoded utf8) (isPart : part <+: glyphs)
    (isRegular : regular .outside part = true)
    (reaches : part = glyphs ∨ width < columns ((line .outside part).map Counted.item)) :
    cut width (scanned utf8 (textOf glyphs) 0 false) =
        fit width ((line .outside glyphs).map Counted.item) ↔
      Roomy width width (line .outside glyphs) := by
  obtain ⟨after, rfl⟩ := isPart
  have encodedPart : ∀ glyph ∈ part, glyph.IsEncoded utf8 := fun glyph member =>
    encoded glyph (List.mem_append_left after member)
  obtain ⟨rest, isRest, ends⟩ := exists_scanned_eq encodedPart isRegular (textOf after)
  have isText : textOf (part ++ after) = textOf part ++ textOf after := List.flatMap_append
  rw [Sequence.ansi, ← isText] at isRest
  rw [isRest]
  rcases reaches with whole | exceeds
  · obtain rfl : after = [] := List.self_eq_append_right.mp whole
    rw [ends rfl, List.append_nil, List.append_nil]
    exact cut_eq_fit_iff (line_sized .outside part) positive (Int.le_refl width)
  · have beyond := Int.lt_of_lt_of_le exceeds (columns_le_miscounted (line .outside part))
    obtain ⟨later, same⟩ := exists_line_append .outside part after
    rw [same, List.map_append, cut_append positive beyond, fit_append (Int.le_of_lt positive) exceeds,
      roomy_append exceeds]
    exact cut_eq_fit_iff (line_sized .outside part) positive (Int.le_refl width)

/-- The line ends where it should if what fits has room for the surplus. -/
theorem truncates_iff (nonempty : glyphs ≠ []) (encoded : ∀ glyph ∈ glyphs, glyph.IsEncoded utf8)
    (isRegular : Regular (lineWidth (textOf glyphs)) glyphs) :
    Truncates glyphs (getTruncatedLine utf8 (textOf glyphs)) ↔
      Roomy (lineWidth (textOf glyphs)) (lineWidth (textOf glyphs)) (line .outside glyphs) := by
  have wide := lineWidth_ge (textOf glyphs)
  have positive : 0 < lineWidth (textOf glyphs) := by omega
  obtain ⟨part, isPart, regularPart, reaches⟩ := isRegular
  rw [← cut_eq_fit_iff_of_part positive encoded isPart regularPart reaches,
    ← getTruncatedLine_eq_cut, ← longest_iff (item_nonneg _) (Int.le_of_lt positive)]
  constructor
  · exact Truncates.longest
  · intro longest
    exact ⟨getTruncatedLine_pos utf8 (textOf_ne_nil nonempty), getTruncatedLine_le utf8 _, longest⟩

end Truncating

theorem red_low : ∀ c ∈ ([58, 32, 27, 91, 51, 49, 109] : Bytes), c < 0x80 := by
  decide +kernel

theorem wide_high : 128 ≤ '中'.toNat :=
  show 128 ≤ 20013 by decide

/-- `": \033[31m"` and forty wide characters. -/
def redLine : List Glyph :=
  [58, 32, 27, 91, 51, 49, 109].pmap Glyph.ascii red_low ++ List.replicate 40 (.char '中' wide_high)

theorem line_redLine : line .outside redLine =
    [⟨1, 1, 0⟩, ⟨1, 1, 0⟩] ++ List.replicate 5 ⟨1, 0, 0⟩ ++ List.replicate 40 ⟨3, 2, 0⟩ := by
  decide +kernel

/-- It is cut behind 38 of them. -/
theorem redLine_truncates :
    Truncates redLine (getTruncatedLine true (textOf redLine)) ∧
      getTruncatedLine true (textOf redLine) = 121 := by
  have nonempty : redLine ≠ [] := by
    decide
  have encoded : ∀ glyph ∈ redLine, glyph.IsEncoded true := by
    intro glyph member
    rcases List.mem_append.mp member with isAscii | isWide
    · obtain ⟨c, low, rfl⟩ := List.mem_pmap.mp isAscii
      trivial
    · rw [List.eq_of_mem_replicate isWide]
      rfl
  have width : lineWidth (textOf redLine) = 78 := rfl
  have regularLine : Regular (lineWidth (textOf redLine)) redLine :=
    ⟨redLine, List.prefix_rfl, by decide +kernel, .inl rfl⟩
  have truncates : Truncates redLine (getTruncatedLine true (textOf redLine)) := by
    apply (truncates_iff nonempty encoded regularLine).mpr
    rw [width, line_redLine]
    decide +kernel
  have length := longest_unique truncates.longest
    (longest_fit (item_nonneg _) (by rw [width]; decide))
  rw [width, line_redLine] at length
  exact ⟨truncates, length.trans (by decide)⟩

/-- `"\033[1;37m"` and 76 letters. -/
def boldBytes : Bytes :=
  [27, 91, 49, 59, 51, 55, 109] ++ List.replicate 76 97

theorem boldBytes_low : ∀ c ∈ boldBytes, c < 0x80 := by
  decide +kernel

def boldLine : List Glyph :=
  boldBytes.pmap Glyph.ascii boldBytes_low

/-- The characters behind the semicolon are counted, so the line is cut. -/
theorem boldLine_not_truncates :
    ¬Truncates boldLine (getTruncatedLine true (textOf boldLine)) := by
  intro truncates
  have length : getTruncatedLine true (textOf boldLine) = 80 := by decide +kernel
  have width : lineWidth (textOf boldLine) = 76 := by decide
  have longest := truncates.longest
  rw [length, width, longest_iff (item_nonneg _) (by decide)] at longest
  have whole : fit 76 ((line .outside boldLine).map Counted.item) = 83 := rfl
  omega

end QuoteLines

end Fbbs
