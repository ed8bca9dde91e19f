import Fbbs.WideScan

/-!
# Validating UTF-8 texts

`string_validate_width_and_length` of `lib/string.c` adds the widths of the characters of a text.
It adds the width -1 of a newline or an escape as well, to a number without sign, and it takes an
encoded NUL for the end of the text.
-/

namespace Fbbs

namespace TextValidation

open WideChars WideScan

def newline : Int := 10

def esc : Int := 27

/-- What a text may have in it. -/
structure Limits where
  length : Nat
  maxWidth : Nat
  allowZeroWidth : Bool
  allowEsc : Bool

variable (limits : Limits)

def Limits.allows (wc : Int) : Bool :=
  fbWcwidth wc > 0 || limits.allowEsc && wc == esc ||
    limits.allowZeroWidth && (fbWcwidth wc == 0 || wc == newline)

/-- A number of bytes as an `int`; `none` if it does not fit. -/
def intOf (length : Nat) : Option Int :=
  if length < 2 ^ 31 then some length else none

/-- The loop with what is left of the text, the bytes before it and the width. -/
def validateFrom (s : Bytes) (passed : Nat) (width : Int) : Option Int :=
  if (nextWchar s).1 = weof then some (-1)
  else if (nextWchar s).1 = 0 then
    if limits.length < passed + (nextWchar s).2 ∨ limits.maxWidth < width then some (-1)
    else intOf (passed + (nextWchar s).2)
  else if limits.allows (nextWchar s).1 then
    validateFrom (s.drop (nextWchar s).2) (passed + (nextWchar s).2)
      ((width + fbWcwidth (nextWchar s).1) % sizeModulus)
  else some (-1)
termination_by s.length
decreasing_by
  have bounds := nextWchar_bounds s (by simp_all)
  rw [List.length_drop]
  omega

def stringValidateWidthAndLength (str : CString) : Option Int :=
  validateFrom limits str.bytes 0 0

/-- `string_validate_utf8`: a Chinese character has four bytes and two columns. -/
def stringValidateUtf8 (str : CString) (maxChineseChars : Nat) (allowZeroWidthOrEsc : Bool) :
    Option Int :=
  stringValidateWidthAndLength
    ⟨maxChineseChars * 4 % sizeModulus, maxChineseChars * 2 % sizeModulus, allowZeroWidthOrEsc,
      allowZeroWidthOrEsc⟩ str

/-- What is behind the characters of a text. -/
inductive Stop
  | terminator
  | encodedNul
  | invalid
  deriving DecidableEq

/-- The characters before the first piece that ends the reading, the bytes up to it with an encoded
NUL, and what it is. -/
structure Reading where
  characters : List Int
  used : Nat
  stop : Stop

def readingOf : List Piece → Reading
  | [] => ⟨[], 0, .terminator⟩
  | .bad _ :: _ => ⟨[], 0, .invalid⟩
  | .char wc bytes :: rest =>
    if wc = 0 then ⟨[], bytes.length, .encodedNul⟩
    else ⟨wc :: (readingOf rest).characters, bytes.length + (readingOf rest).used,
      (readingOf rest).stop⟩

def reading (text : Bytes) : Reading :=
  readingOf (pieces text)

/-- What the loop returns where it has come to the end of the reading. -/
def finish (used : Nat) (width : Int) : Option Int :=
  if limits.length < used ∨ limits.maxWidth < width then some (-1) else intOf used

theorem reading_nil : reading [] = ⟨[], 0, .terminator⟩ := by
  rw [reading, pieces_nil]
  rfl

theorem reading_bad {c : UInt8} {rest : Bytes} (invalid : (nextWchar (c :: rest)).1 = weof) :
    reading (c :: rest) = ⟨[], 0, .invalid⟩ := by
  rw [reading, pieces_bad invalid]
  rfl

theorem reading_nul {bytes : Bytes} (reads : Reads 0 bytes) (rest : Bytes) :
    reading (bytes ++ rest) = ⟨[], bytes.length, .encodedNul⟩ := by
  rw [reading, pieces_char reads]
  rfl

theorem reading_char {wc : Int} {bytes : Bytes} (reads : Reads wc bytes) (nonzero : wc ≠ 0)
    (rest : Bytes) :
    reading (bytes ++ rest) = ⟨wc :: (reading rest).characters,
      bytes.length + (reading rest).used, (reading rest).stop⟩ := by
  rw [reading, pieces_char reads, readingOf, if_neg nonzero]
  rfl

/-- The loop refuses the text or comes to the end of the reading. -/
theorem validateFrom_eq {s : Bytes} (nulFree : (0 : UInt8) ∉ s) (passed : Nat) {width : Int}
    (small : width % sizeModulus = width) :
    validateFrom limits s passed width =
      if (reading s).stop = .invalid ∨ ∃ wc ∈ (reading s).characters, limits.allows wc = false then
        some (-1)
      else finish limits (passed + (reading s).used)
        ((width + ((reading s).characters.map fbWcwidth).sum) % sizeModulus) := by
  induction divided nulFree generalizing passed width with
  | nil =>
    have valid : (nextWchar []).1 ≠ weof := by decide
    have ends : (nextWchar []).1 = 0 := rfl
    rw [validateFrom, if_neg valid, if_pos ends, reading_nil]
    simp [finish, small, nextWchar]
  | bad nonzero invalid behind ih =>
    rw [validateFrom, if_pos invalid, reading_bad invalid, if_pos (.inl rfl)]
  | @char wc bytes rest reads behind ih =>
    have read := reads.reads rest
    rw [validateFrom, read, if_neg reads.valid]
    simp only
    by_cases isNul : wc = 0
    · subst isNul
      rw [if_pos rfl, reading_nul reads]
      simp [finish, small]
    · rw [if_neg isNul, reading_char reads isNul]
      simp only [List.mem_cons, exists_eq_or_imp, List.map_cons, List.sum_cons]
      cases allowed : limits.allows wc with
      | false => rw [if_neg (by decide), if_pos (.inr (.inl rfl))]
      | true =>
        have modulus : ((width + fbWcwidth wc) % sizeModulus) % sizeModulus =
            (width + fbWcwidth wc) % sizeModulus := Int.emod_emod_of_dvd _ (dvd_refl _)
        rw [if_pos rfl, List.drop_left, ih (fun member => nulFree (List.mem_append_right _ member))
          _ modulus, Int.emod_add_emod, Int.add_assoc, Nat.add_assoc]
        simp

/-- Every byte belongs to a character that `next_wchar` tells from the end of the string. -/
def Decodes (text : Bytes) : Prop :=
  ∀ piece ∈ pieces text, ∃ wc bytes, piece = .char wc bytes ∧ wc ≠ 0

def isControl (wc : Int) : Bool :=
  wc == newline || wc == esc

/-- The width of a character; a newline or an escape has none. -/
def columnsOf (wc : Int) : Nat :=
  if isControl wc then 0 else (fbWcwidth wc).toNat

def columns (text : Bytes) : Nat :=
  ((reading text).characters.map columnsOf).sum

def controls (text : Bytes) : Nat :=
  (reading text).characters.countP isControl

structure Accepted (text : Bytes) : Prop where
  decodes : Decodes text
  short : text.length ≤ limits.length
  allowed : ∀ wc ∈ (reading text).characters, limits.allows wc = true
  narrow : columns text ≤ limits.maxWidth

def Validates (str : CString) : Prop :=
  (Accepted limits str.bytes →
    stringValidateWidthAndLength limits str = some (str.bytes.length : Int)) ∧
  (¬Accepted limits str.bytes → stringValidateWidthAndLength limits str = some (-1))

/-- When the newlines and escapes and an encoded NUL make no difference. -/
inductive Agrees (text : Bytes) : Prop
  | refused (reason : (reading text).stop = .invalid ∨
      (∃ wc ∈ (reading text).characters, limits.allows wc = false) ∨
      limits.length < (reading text).used)
  | narrow (ends : (reading text).stop = .terminator) (small : text.length < 2 ^ 31)
      (fits : columns text ≤ limits.maxWidth)
      (few : controls text ≤ columns text ∨
        2 ^ 64 + columns text ≤ limits.maxWidth + controls text)
  | wide (few : controls text ≤ columns text → limits.maxWidth + controls text < columns text)
      (many : columns text < controls text →
        limits.maxWidth + controls text < 2 ^ 64 + columns text ∧
          ((reading text).stop = .encodedNul ∨ limits.maxWidth < columns text))

section Readings

variable {limits} {text : Bytes}

theorem decodes_iff (nulFree : (0 : UInt8) ∉ text) :
    Decodes text ↔ (reading text).stop = .terminator := by
  induction divided nulFree with
  | nil => simp [Decodes, pieces_nil, reading_nil]
  | bad nonzero invalid behind ih => simp [Decodes, pieces_bad invalid, reading_bad invalid]
  | @char wc bytes rest reads behind ih =>
    by_cases isNul : wc = 0
    · subst isNul
      simp [Decodes, pieces_char reads, reading_nul reads]
    · have inRest := ih fun member => nulFree (List.mem_append_right _ member)
      rw [reading_char reads isNul, ← inRest, Decodes, pieces_char reads, List.forall_mem_cons]
      exact and_iff_right ⟨wc, bytes, rfl, isNul⟩

theorem used_eq (nulFree : (0 : UInt8) ∉ text) (ends : (reading text).stop = .terminator) :
    (reading text).used = text.length := by
  induction divided nulFree with
  | nil => rw [reading_nil, List.length_nil]
  | bad nonzero invalid behind ih =>
    rw [reading_bad invalid] at ends
    cases ends
  | @char wc bytes rest reads behind ih =>
    by_cases isNul : wc = 0
    · subst isNul
      rw [reading_nul reads] at ends
      cases ends
    · rw [reading_char reads isNul] at ends ⊢
      rw [List.length_append, ih (fun member => nulFree (List.mem_append_right _ member)) ends]

theorem length_characters_le (nulFree : (0 : UInt8) ∉ text) :
    (reading text).characters.length ≤ text.length := by
  induction divided nulFree with
  | nil =>
    rw [reading_nil]
    exact Nat.le_refl 0
  | bad nonzero invalid behind ih =>
    rw [reading_bad invalid]
    exact Nat.zero_le _
  | @char wc bytes rest reads behind ih =>
    by_cases isNul : wc = 0
    · subst isNul
      rw [reading_nul reads]
      exact Nat.zero_le _
    · have pos := reads.length_pos
      have inRest := ih fun member => nulFree (List.mem_append_right _ member)
      rw [reading_char reads isNul, List.length_append, List.length_cons]
      omega

theorem columnsOf_le (wc : Int) : columnsOf wc ≤ 2 := by
  have width := fbWcwidth_le_two wc
  rw [columnsOf]
  split <;> omega

theorem sum_columnsOf_le (characters : List Int) :
    (characters.map columnsOf).sum ≤ 2 * characters.length := by
  induction characters with
  | nil => rfl
  | cons wc characters ih =>
    have width := columnsOf_le wc
    rw [List.map_cons, List.sum_cons, List.length_cons]
    omega

/-- A newline or an escape takes a column away. -/
theorem fbWcwidth_of_allows {wc : Int} (allowed : limits.allows wc = true) :
    fbWcwidth wc = columnsOf wc - (if isControl wc then 1 else 0) := by
  rw [columnsOf]
  cases control : isControl wc with
  | true =>
    simp only [isControl, Bool.or_eq_true, beq_iff_eq] at control
    rcases control with rfl | rfl <;> rfl
  | false =>
    simp only [isControl, Bool.or_eq_false_iff, beq_eq_false_iff_ne] at control
    simp only [Limits.allows, Bool.or_eq_true, Bool.and_eq_true, decide_eq_true_eq,
      beq_iff_eq] at allowed
    have nonneg : 0 ≤ fbWcwidth wc := by
      rcases allowed with (pos | ⟨-, isEsc⟩) | ⟨-, zero | isNewline⟩
      · exact pos.le
      · exact absurd isEsc control.2
      · exact zero.ge
      · exact absurd isNewline control.1
    simp only [Bool.false_eq_true, if_false, Int.toNat_of_nonneg nonneg, Int.sub_zero]

theorem sum_fbWcwidth {characters : List Int}
    (allowed : ∀ wc ∈ characters, limits.allows wc = true) :
    (characters.map fbWcwidth).sum =
      ((characters.map columnsOf).sum : Nat) - (characters.countP isControl : Nat) := by
  induction characters with
  | nil => rfl
  | cons wc characters ih =>
    rw [List.forall_mem_cons] at allowed
    rw [List.map_cons, List.map_cons, List.sum_cons, List.sum_cons, List.countP_cons,
      ih allowed.2, fbWcwidth_of_allows allowed.1]
    split <;> omega

theorem intOf_ne (used : Nat) : intOf used ≠ some (-1) := by
  rw [intOf]
  split
  · intro equal
    have := Option.some.inj equal
    omega
  · exact fun equal => by cases equal

theorem intOf_eq_iff (used : Nat) : intOf used = some (used : Int) ↔ used < 2 ^ 31 := by
  rw [intOf]
  split <;> simp_all

/-- What the widths add up to as a number without sign. -/
theorem emod_sizeModulus {columns controls : Nat} (small : columns < 2 ^ 64)
    (few : controls < 2 ^ 64) :
    ((columns : Int) - controls) % sizeModulus =
      if controls ≤ columns then (columns : Int) - controls
      else 2 ^ 64 + (columns : Int) - controls := by
  have modulus : (sizeModulus : Int) = 2 ^ 64 := rfl
  rw [modulus]
  split <;> omega

end Readings

section Verdicts

variable {limits} {str : CString}

/-- The result for a text that the loop does not refuse before its end. -/
theorem result_eq (valid : (reading str.bytes).stop ≠ .invalid)
    (allowed : ∀ wc ∈ (reading str.bytes).characters, limits.allows wc = true)
    (short : (reading str.bytes).used ≤ limits.length) :
    stringValidateWidthAndLength limits str =
      if (limits.maxWidth : Int) <
          ((columns str.bytes : Int) - controls str.bytes) % sizeModulus then some (-1)
      else intOf (reading str.bytes).used := by
  have zero : (0 : Int) % sizeModulus = 0 := Int.zero_emod _
  have notRefused : ¬((reading str.bytes).stop = .invalid ∨
      ∃ wc ∈ (reading str.bytes).characters, limits.allows wc = false) := by
    rintro (invalid | ⟨wc, member, forbidden⟩)
    · exact valid invalid
    · exact Bool.noConfusion (forbidden.symm.trans (allowed wc member))
  rw [stringValidateWidthAndLength, validateFrom_eq limits str.nulFree 0 zero, if_neg notRefused,
    sum_fbWcwidth allowed, Int.zero_add, Nat.zero_add, finish]
  simp only [or_iff_right (Nat.not_lt.mpr short)]
  rfl

theorem accepted_iff (allowed : ∀ wc ∈ (reading str.bytes).characters, limits.allows wc = true)
    (short : (reading str.bytes).used ≤ limits.length) :
    Accepted limits str.bytes ↔
      (reading str.bytes).stop = .terminator ∧ columns str.bytes ≤ limits.maxWidth := by
  constructor
  · intro accepted
    exact ⟨(decodes_iff str.nulFree).mp accepted.decodes, accepted.narrow⟩
  · rintro ⟨ends, narrow⟩
    rw [used_eq str.nulFree ends] at short
    exact ⟨(decodes_iff str.nulFree).mpr ends, short, allowed, narrow⟩

/-- A text that is refused early is not to be accepted. -/
theorem validates_of_refused (reason : (reading str.bytes).stop = .invalid ∨
    (∃ wc ∈ (reading str.bytes).characters, limits.allows wc = false) ∨
    limits.length < (reading str.bytes).used) : Validates limits str := by
  have notAccepted : ¬Accepted limits str.bytes := by
    intro accepted
    have ends := (decodes_iff str.nulFree).mp accepted.decodes
    rcases reason with invalid | ⟨wc, member, forbidden⟩ | long
    · rw [ends] at invalid
      cases invalid
    · exact Bool.noConfusion (forbidden.symm.trans (accepted.allowed wc member))
    · have short := accepted.short
      rw [used_eq str.nulFree ends] at long
      omega
  refine ⟨fun accepted => absurd accepted notAccepted, fun _ => ?_⟩
  have zero : (0 : Int) % sizeModulus = 0 := Int.zero_emod _
  rw [stringValidateWidthAndLength, validateFrom_eq limits str.nulFree 0 zero]
  split
  next refused => rfl
  next notRefused =>
    rcases reason with invalid | forbidden | long
    · exact absurd (.inl invalid) notRefused
    · exact absurd (.inr forbidden) notRefused
    · rw [Nat.zero_add, finish, if_pos (.inl long)]

/-- Behind that the width decides. -/
theorem validates_iff_width (valid : (reading str.bytes).stop ≠ .invalid)
    (allowed : ∀ wc ∈ (reading str.bytes).characters, limits.allows wc = true)
    (short : (reading str.bytes).used ≤ limits.length) :
    Validates limits str ↔
      let counted := ((columns str.bytes : Int) - controls str.bytes) % sizeModulus
      if (reading str.bytes).stop = .terminator ∧ columns str.bytes ≤ limits.maxWidth then
        counted ≤ limits.maxWidth ∧ str.bytes.length < 2 ^ 31
      else limits.maxWidth < counted := by
  rw [Validates, accepted_iff allowed short, result_eq valid allowed short]
  by_cases accepted : (reading str.bytes).stop = .terminator ∧
      columns str.bytes ≤ limits.maxWidth
  · have length := used_eq str.nulFree accepted.1
    simp only [if_pos accepted]
    constructor
    · rintro ⟨accepts, -⟩
      have result := accepts accepted
      split at result
      next => exact absurd (Option.some.inj result) (by omega)
      next within =>
        rw [length, intOf_eq_iff] at result
        exact ⟨Int.not_lt.mp within, result⟩
    · rintro ⟨within, small⟩
      refine ⟨fun _ => ?_, fun notAccepted => absurd accepted notAccepted⟩
      rw [if_neg (Int.not_lt.mpr within), length, intOf_eq_iff]
      exact small
  · simp only [if_neg accepted]
    constructor
    · rintro ⟨-, refuses⟩
      have result := refuses accepted
      by_contra within
      rw [if_neg within] at result
      exact intOf_ne _ result
    · intro wide
      exact ⟨fun isAccepted => absurd isAccepted accepted, fun _ => if_pos wide⟩

end Verdicts

/-- The verdict is right exactly if newlines and escapes and an encoded NUL make no difference. -/
theorem validates_iff {str : CString} (memory : str.bytes.length < 2 ^ 63) :
    Validates limits str ↔ Agrees limits str.bytes := by
  by_cases refused : (reading str.bytes).stop = .invalid ∨
      (∃ wc ∈ (reading str.bytes).characters, limits.allows wc = false) ∨
      limits.length < (reading str.bytes).used
  · exact iff_of_true (validates_of_refused refused) (.refused refused)
  obtain ⟨valid, others⟩ := not_or.mp refused
  obtain ⟨noneForbidden, notLong⟩ := not_or.mp others
  have allowed : ∀ wc ∈ (reading str.bytes).characters, limits.allows wc = true := by
    intro wc member
    by_contra forbidden
    exact noneForbidden ⟨wc, member, Bool.not_eq_true _ ▸ forbidden⟩
  have characters := length_characters_le str.nulFree
  have columnsSmall : columns str.bytes < 2 ^ 64 := by
    have width := sum_columnsOf_le (reading str.bytes).characters
    rw [columns]
    omega
  have controlsSmall : controls str.bytes < 2 ^ 64 := by
    have count := (reading str.bytes).characters.countP_le_length (p := isControl)
    rw [controls]
    omega
  rw [validates_iff_width valid allowed (Nat.not_lt.mp notLong),
    emod_sizeModulus columnsSmall controlsSmall]
  constructor
  · intro right
    simp only at right
    by_cases accepted : (reading str.bytes).stop = .terminator ∧
        columns str.bytes ≤ limits.maxWidth
    · rw [if_pos accepted] at right
      apply Agrees.narrow accepted.1 right.2 accepted.2
      have within := right.1
      split at within
      next few => exact .inl few
      next => exact .inr (by omega)
    · rw [if_neg accepted] at right
      apply Agrees.wide
      · intro few
        rw [if_pos few] at right
        omega
      · intro many
        rw [if_neg (Nat.not_le.mpr many)] at right
        refine ⟨by omega, ?_⟩
        cases stop : (reading str.bytes).stop with
        | terminator => exact .inr (Nat.not_le.mp fun fits => accepted ⟨stop, fits⟩)
        | encodedNul => exact .inl rfl
        | invalid => exact absurd stop valid
  · intro agrees
    cases agrees with
    | refused reason => exact absurd reason refused
    | narrow ends small fits few =>
      rw [if_pos ⟨ends, fits⟩]
      refine ⟨?_, small⟩
      split <;> omega
    | wide few many =>
      rcases Nat.lt_or_ge (columns str.bytes) (controls str.bytes) with more | less
      · obtain ⟨wide, notAccepted⟩ := many more
        rw [if_neg, if_neg (Nat.not_le.mpr more)]
        · omega
        · rintro ⟨ends, fits⟩
          rcases notAccepted with isNul | wider
          · rw [ends] at isNul
            cases isNul
          · exact absurd fits (Nat.not_le.mpr wider)
      · have wide := few less
        rw [if_neg fun accepted => absurd accepted.2 (by omega), if_pos less]
        omega

theorem newline_nulFree : (0 : UInt8) ∉ ([10] : Bytes) := by
  decide

/-- A text that is a newline. -/
def emptyLine : CString :=
  ⟨[10], newline_nulFree⟩

/-- `string_validate_utf8` with newlines allowed. -/
def wideLimits : Limits :=
  ⟨400, 200, true, true⟩

theorem reading_emptyLine : reading emptyLine.bytes = ⟨[10], 1, .terminator⟩ := by
  have reads : Reads 10 [10] := ⟨by decide, by decide, fun _ => rfl⟩
  have read := reading_char reads (by decide) []
  rw [reading_nil] at read
  exact read

theorem emptyLine_not_validates : ¬Validates wideLimits emptyLine := by
  rintro ⟨accepts, -⟩
  have ends : (reading emptyLine.bytes).stop = .terminator := by rw [reading_emptyLine]
  have allowed : ∀ wc ∈ (reading emptyLine.bytes).characters, wideLimits.allows wc = true := by
    rw [reading_emptyLine]
    decide
  have short : (reading emptyLine.bytes).used ≤ wideLimits.length := by
    rw [reading_emptyLine]
    decide
  have narrow : columns emptyLine.bytes ≤ wideLimits.maxWidth := by
    rw [columns, reading_emptyLine]
    decide
  have result := accepts ((accepted_iff allowed short).mpr ⟨ends, narrow⟩)
  have valid : (reading emptyLine.bytes).stop ≠ .invalid := by
    rw [ends]
    decide
  rw [result_eq valid allowed short, columns, controls, reading_emptyLine] at result
  exact absurd result (by decide)

theorem emptyLine_iff : Validates wideLimits emptyLine ↔ Agrees wideLimits emptyLine.bytes :=
  validates_iff wideLimits (by decide)

end TextValidation

end Fbbs
