import Fbbs.PagerLines

/-!
# Partition into lines

From the start of a text to its end the lines of the pager follow each other, none is wider than
the screen, and none has a line feed before its end, just as long as nothing goes wrong in any
of them.
-/

namespace Fbbs

namespace Pager

open AsciiBytes DisplayColumns

/-! ## Pieces of the text -/

section Slices

variable (text : Text)

theorem slice_self (ptr : Nat) : text.slice ptr ptr = [] := by
  rw [Text.slice, Nat.sub_self, List.range'_zero, List.map_nil]

theorem slice_succ (ptr : Nat) : text.slice ptr (ptr + 1) = [text.buf ptr] := by
  rw [Text.slice, Nat.add_sub_cancel_left, List.range'_one, List.map_singleton]

variable {text}

theorem slice_append {begin middle stop : Nat} (first : begin ≤ middle) (second : middle ≤ stop) :
    text.slice begin middle ++ text.slice middle stop = text.slice begin stop := by
  have sum : stop - begin = (middle - begin) + (stop - middle) := by omega
  have start : middle = begin + (middle - begin) := by omega
  rw [Text.slice, Text.slice, Text.slice, ← List.map_append, sum, ← List.range'_append_1, ← start]

theorem slice_cons {begin stop : Nat} (inside : begin < stop) :
    text.slice begin stop = text.buf begin :: text.slice (begin + 1) stop := by
  rw [← slice_append (Nat.le_succ begin) inside, slice_succ, List.singleton_append]

theorem slice_concat {begin stop : Nat} (inside : begin ≤ stop) :
    text.slice begin (stop + 1) = text.slice begin stop ++ [text.buf stop] := by
  rw [← slice_append inside (Nat.le_succ stop), slice_succ]

theorem slice_front {begin middle stop : Nat} (first : begin ≤ middle) (second : middle ≤ stop) :
    text.slice begin middle <+: text.slice begin stop :=
  ⟨text.slice middle stop, slice_append first second⟩

theorem mem_slice {begin stop : Nat} {c : UInt8} :
    c ∈ text.slice begin stop ↔ ∃ i, begin ≤ i ∧ i < stop ∧ text.buf i = c := by
  simp only [Text.slice, List.mem_map, List.mem_range'_1]
  constructor
  · rintro ⟨i, ⟨from_begin, before⟩, here⟩
    exact ⟨i, from_begin, by omega, here⟩
  · rintro ⟨i, from_begin, before, here⟩
    exact ⟨i, ⟨from_begin, by omega⟩, here⟩

theorem slice_dropLast {begin stop : Nat} (inside : begin < stop) :
    (text.slice begin stop).dropLast = text.slice begin (stop - 1) := by
  obtain ⟨stop, rfl⟩ : ∃ before, stop = before + 1 := ⟨stop - 1, by omega⟩
  rw [slice_concat (by omega), List.dropLast_concat, Nat.add_sub_cancel]

end Slices

/-! ## Columns of a line -/

/-- What a byte is for a terminal that shows two bytes as a character of double width. -/
def kindOf (c : UInt8) : Kind :=
  if c = escape then .escape
  else if isCode c then .code
  else if c = tab then .tab
  else if isHigh c then .lead
  else .single

/-- The columns that a text takes. -/
def visibleWidth (text : Bytes) : Nat :=
  columns kindOf 4 text

/-- A line without the line feed, or the carriage return and line feed, at its end. -/
def withoutLineEnd (line : Bytes) : Bytes :=
  if line.getLast? = some lineFeed then
    if line.dropLast.getLast? = some carriageReturn then line.dropLast.dropLast else line.dropLast
  else line

theorem withoutLineEnd_front (line : Bytes) : withoutLineEnd line <+: line := by
  unfold withoutLineEnd
  split_ifs
  · exact (List.dropLast_prefix _).trans (List.dropLast_prefix _)
  · exact List.dropLast_prefix _
  · exact List.prefix_rfl

theorem withoutLineEnd_lineFeed (front : Bytes) :
    withoutLineEnd (front ++ [lineFeed]) <+: front := by
  unfold withoutLineEnd
  rw [List.getLast?_concat, if_pos rfl, List.dropLast_concat]
  split_ifs
  · exact List.dropLast_prefix front
  · exact List.prefix_rfl

theorem withoutLineEnd_return (front : Bytes) :
    withoutLineEnd (front ++ [carriageReturn, lineFeed]) = front := by
  have split : front ++ [carriageReturn, lineFeed] =
      (front ++ [carriageReturn]) ++ [lineFeed] := by
    rw [List.append_assoc]
    rfl
  rw [withoutLineEnd, split, List.getLast?_concat, if_pos rfl, List.dropLast_concat,
    List.getLast?_concat, if_pos rfl, List.dropLast_concat]

/-- The mode of the terminal between two rounds. -/
def modeOf (inEsc : Bool) : Mode :=
  if inEsc then .inEscape else .between

section Rounds

variable {columns len len' : Int} {c : UInt8} {inEsc inEsc' : Bool} {column skipped taken : Nat}

/-- Within an escape sequence no byte takes a column. -/
theorem advance_inEscape (column : Nat) (kind : Kind) :
    Cursor.advance 4 ⟨.inEscape, column⟩ kind =
      ⟨if kind = .escape ∨ kind = .code then .inEscape else .between, column⟩ := by
  cases kind <;> rfl

theorem kindOf_eq_code (notEscape : c ≠ escape) : kindOf c = .code ↔ isCode c := by
  unfold kindOf
  split_ifs <;> simp_all

theorem kindOf_eq_escape : kindOf c = .escape ↔ c = escape := by
  unfold kindOf
  split_ifs <;> simp_all

theorem isCode_false_of_isHigh (lead : isHigh c) : isCode c = false := by
  by_contra code
  have member := List.contains_iff_mem.1 (Bool.eq_true_of_not_eq_false code)
  have notLead : ∀ c ∈ ([91, 48, 49, 50, 51, 52, 53, 54, 55, 56, 57, 59] : List UInt8),
      !isHigh c := List.all_eq_true.1 (by decide)
  exact absurd lead (by simpa using notLead c member)

theorem kindOf_lead (lead : isHigh c) : kindOf c = .lead := by
  rw [kindOf, if_neg (ne_escape_of_isHigh lead), isCode_false_of_isHigh lead,
    if_neg Bool.false_ne_true, if_neg (ne_tab_of_isHigh lead), if_pos lead]

theorem advance_single (notEscape : c ≠ escape) (notTab : c ≠ tab) (notLead : ¬isHigh c)
    (column : Nat) : Cursor.advance 4 ⟨.between, column⟩ (kindOf c) = ⟨.between, column + 1⟩ := by
  rw [kindOf, if_neg notEscape, if_neg notTab, if_neg notLead]
  split_ifs <;> rfl

/-- Another round has moved the cursor by the columns that were taken off. -/
theorem after_of_next (goesOn : round columns c len inEsc = .next skipped len' inEsc')
    (left : (column : Int) = columns - len) {behind : Bytes} (second : behind.length = skipped) :
    ∃ column' : Nat, (column' : Int) = columns - len' ∧
      after kindOf 4 ⟨modeOf inEsc, column⟩ (c :: behind) = ⟨modeOf inEsc', column'⟩ := by
  unfold round at goesOn
  dsimp only at goesOn
  split_ifs at goesOn with feed esc within isTab overfull full lead overfull full full <;>
    obtain ⟨rfl, rfl, rfl⟩ := Outcome.next.inj goesOn
  · -- An escape sequence begins.
    obtain rfl := List.length_eq_zero_iff.1 second
    refine ⟨column, left, ?_⟩
    rw [esc]
    cases inEsc <;> rfl
  · -- It goes on, or ends behind this byte.
    obtain rfl := List.length_eq_zero_iff.1 second
    refine ⟨column, left, ?_⟩
    rw [after_cons, after_nil, within, modeOf, if_pos rfl, advance_inEscape]
    simp only [kindOf_eq_escape, esc, kindOf_eq_code esc, false_or, modeOf]
  · obtain rfl := List.length_eq_zero_iff.1 second
    refine ⟨column + (4 - column % 4), ?_, ?_⟩
    · simp only [tabWidth, tabStop]
      omega
    · rw [isTab, Bool.eq_false_of_not_eq_true within]
      rfl
  · obtain ⟨other, rfl⟩ := List.length_eq_one_iff.1 second
    refine ⟨column + 2, by omega, ?_⟩
    rw [Bool.eq_false_of_not_eq_true within, after_cons, kindOf_lead lead]
    rfl
  · obtain rfl := List.length_eq_zero_iff.1 second
    refine ⟨column + 1, by omega, ?_⟩
    rw [Bool.eq_false_of_not_eq_true within]
    exact advance_single esc isTab lead column

/-- What fills the line takes up all its columns. -/
theorem after_of_done (ends : round columns c len inEsc = .done taken 0) (notFeed : c ≠ lineFeed)
    (left : (column : Int) = columns - len) {behind : Bytes}
    (second : behind.length + 1 = taken) :
    ∃ column' : Nat, (column' : Int) = columns ∧
      after kindOf 4 ⟨modeOf inEsc, column⟩ (c :: behind) = ⟨.between, column'⟩ := by
  unfold round at ends
  dsimp only at ends
  split_ifs at ends with feed esc within isTab overfull full lead overfull full full <;>
    obtain ⟨rfl, rest⟩ := Outcome.done.inj ends
  · exact absurd feed notFeed
  · omega
  · obtain rfl := List.length_eq_zero_iff.1 (Nat.succ_inj.1 second)
    refine ⟨column + (4 - column % 4), ?_, ?_⟩
    · simp only [tabWidth, tabStop] at full
      omega
    · rw [isTab, Bool.eq_false_of_not_eq_true within]
      rfl
  · omega
  · obtain ⟨other, rfl⟩ := List.length_eq_one_iff.1 (Nat.succ_inj.1 second)
    refine ⟨column + 2, by omega, ?_⟩
    rw [Bool.eq_false_of_not_eq_true within, after_cons, kindOf_lead lead]
    rfl
  · obtain rfl := List.length_eq_zero_iff.1 (Nat.succ_inj.1 second)
    refine ⟨column + 1, by omega, ?_⟩
    rw [Bool.eq_false_of_not_eq_true within]
    exact advance_single esc isTab lead column

end Rounds

section Cursor

variable {text : Text} {columns : Int} {begin ptr : Nat} {len : Int} {inEsc : Bool}

theorem slice_step {skipped : Nat} (from_begin : begin ≤ ptr) :
    text.slice begin (ptr + skipped + 1) =
      text.slice begin ptr ++ text.buf ptr :: text.slice (ptr + 1) (ptr + skipped + 1) := by
  rw [← slice_cons (by omega), slice_append from_begin (by omega)]

theorem length_slice (begin stop : Nat) : (text.slice begin stop).length = stop - begin := by
  rw [Text.slice, List.length_map, List.length_range']

/-- The columns that are left say where the cursor is. -/
theorem Heads.after_eq (reached : Heads text columns begin ptr len inEsc) :
    ∃ column : Nat, (column : Int) = columns - len ∧
      after kindOf 4 Cursor.start (text.slice begin ptr) = ⟨modeOf inEsc, column⟩ := by
  induction reached with
  | start => exact ⟨0, by omega, by rw [slice_self]; rfl⟩
  | @round ptr len inEsc skipped len' inEsc' reached inside goesOn ih =>
    obtain ⟨column, left, before⟩ := ih
    rw [slice_step reached.le, after_append, before]
    apply after_of_next goesOn left
    rw [length_slice]
    omega

/-- A line that is full takes all columns. -/
theorem Full.after_eq {next : Nat} (full : Full text columns begin next) (wide : 0 < columns) :
    ∃ column : Nat, (column : Int) = columns ∧
      after kindOf 4 Cursor.start (text.slice begin next) = ⟨.between, column⟩ := by
  obtain ⟨ptr, len, inEsc, taken, reached, inside, ends, rfl⟩ := full
  obtain ⟨column, left, before⟩ := reached.after_eq
  have positive := reached.len_pos wide
  obtain ⟨-, -, overfull⟩ | ⟨-, -, overfull, -⟩ | ⟨notFeed, rfl, -⟩ | ⟨notFeed, rfl, -⟩ :=
    round_eq_done ends
  · omega
  · omega
  · have step := @slice_step text begin ptr 0 reached.le
    rw [Nat.add_zero] at step
    rw [step, after_append, before]
    apply after_of_done ends notFeed left
    rw [length_slice]
    omega
  · rw [slice_step reached.le, after_append, before]
    apply after_of_done ends notFeed left
    rw [length_slice]
    omega

/-- An escape sequence behind a line takes no columns. -/
theorem column_trailingEscape {column : Nat} {next : Nat} (from_begin : begin ≤ next)
    (before : after kindOf 4 Cursor.start (text.slice begin next) = ⟨.between, column⟩) :
    visibleWidth (text.slice begin (trailingEscape text next)) = column := by
  unfold trailingEscape
  by_cases escaped : text.buf next = escape
  · have codes := @le_skipCodes text (next + 1)
    have inside : ∀ c ∈ text.slice (next + 1) (skipCodes text (next + 1)), kindOf c = .code := by
      intro c member
      obtain ⟨i, from_next, earlier, rfl⟩ := mem_slice.1 member
      have code := isCode_of_lt_skipCodes from_next earlier
      have notEscape : text.buf i ≠ escape := by
        intro other
        rw [other] at code
        exact absurd code (by decide)
      exact (kindOf_eq_code notEscape).2 code
    rw [if_pos escaped, visibleWidth, DisplayColumns.columns, slice_concat (by omega),
      ← slice_append from_begin (by omega : next ≤ skipCodes text (next + 1)),
      slice_cons (by omega : next < skipCodes text (next + 1)), after_append, after_append, before,
      escaped, after_cons, after_cons, after_nil]
    have begun : Cursor.advance 4 ⟨.between, column⟩ (kindOf escape) = ⟨.inEscape, column⟩ := rfl
    rw [begun, after_codes _ _ _ inside, advance_inEscape]
  · rw [if_neg escaped, visibleWidth, DisplayColumns.columns, before]

theorem withoutLineEnd_lineEndLength {stop : Nat} (from_begin : begin ≤ stop) :
    withoutLineEnd (text.slice begin (stop + lineEndLength text stop)) <+:
      text.slice begin stop := by
  unfold lineEndLength
  split_ifs with feed both
  · rw [slice_concat from_begin, feed]
    exact withoutLineEnd_lineFeed _
  · have lineEnd : text.slice stop (stop + 2) = [carriageReturn, lineFeed] := by
      rw [slice_cons (by omega), slice_succ, both.1, both.2]
    rewrite [← slice_append from_begin (Nat.le_add_right stop 2), lineEnd, withoutLineEnd_return]
    exact List.prefix_rfl
  · exact withoutLineEnd_front _

/-- What is seen of a line is a part of the line that takes at most the columns given. -/
theorem visibleWidth_le_of_prefix {line front : Bytes} (seen : withoutLineEnd line <+: front)
    (fits : (visibleWidth front : Int) ≤ columns) : (visibleWidth (withoutLineEnd line) : Int) ≤ columns := by
  have := columns_le_of_front kindOf 4 seen
  simp only [visibleWidth] at fits ⊢
  omega

theorem visibleWidth_le_of_full {next : Nat} (wide : 0 < columns) (begins : begin ≤ text.size)
    (from_begin : begin ≤ next) (full : Full text columns begin next) :
    (visibleWidth (withoutLineEnd (text.slice begin (stopAt text next 0))) : Int) ≤ columns := by
  obtain ⟨column, whole, before⟩ := full.after_eq wide
  unfold stopAt
  by_cases past : next ≥ text.size
  · rw [if_pos past]
    apply visibleWidth_le_of_prefix ((withoutLineEnd_front _).trans (slice_front begins past))
    rw [visibleWidth, DisplayColumns.columns, before, ← whole]
  · have escapes : next ≤ trailingEscape text next := by
      have := @le_skipCodes text (next + 1)
      unfold trailingEscape
      split_ifs <;> omega
    rw [if_neg past, if_pos rfl]
    apply visibleWidth_le_of_prefix (withoutLineEnd_lineEndLength (from_begin.trans escapes))
    rw [column_trailingEscape from_begin before, ← whole]

theorem visibleWidth_le_of_scan (wide : 0 < columns) (begins : begin ≤ text.size)
    (reached : Heads text columns begin ptr len inEsc) (prop : LineProp) :
    (visibleWidth (withoutLineEnd (text.slice begin
      (finish text (scan text columns ptr len inEsc prop)).1)) : Int) ≤ columns := by
  rw [finish_fst]
  fun_induction scan text columns ptr len inEsc prop with
  | case1 ptr len inEsc prop inside prop' skipped len' inEsc' goesOn ih =>
    exact ih (reached.round inside goesOn)
  | case2 ptr len inEsc prop inside prop' taken len' ends =>
    have from_begin := reached.le
    have left := reached.len_pos wide
    obtain ⟨column, used, before⟩ := reached.after_eq
    have fits : (visibleWidth (text.slice begin ptr) : Int) ≤ columns := by
      rw [visibleWidth, DisplayColumns.columns, before]
      dsimp only
      omega
    dsimp only
    obtain ⟨feed, rfl, rfl⟩ | ⟨-, rfl, overfull, -⟩ | ⟨-, rfl, rfl⟩ | ⟨-, rfl, rfl, -⟩ :=
      round_eq_done ends
    · have stop : stopAt text (ptr + 1) len' = ptr + 1 := by
        unfold stopAt
        split_ifs <;> omega
      rw [stop, slice_concat from_begin, feed]
      exact visibleWidth_le_of_prefix (withoutLineEnd_lineFeed _) fits
    · have stop : stopAt text (ptr + 0) len' = ptr := by
        unfold stopAt
        split_ifs <;> omega
      rw [stop]
      exact visibleWidth_le_of_prefix (withoutLineEnd_front _) fits
    · exact visibleWidth_le_of_full wide begins (by omega)
        ⟨ptr, len, inEsc, 1, reached, inside, ends, rfl⟩
    · exact visibleWidth_le_of_full wide begins (by omega)
        ⟨ptr, len, inEsc, 2, reached, inside, ends, rfl⟩
  | case3 ptr len inEsc prop outside =>
    have left := reached.len_pos wide
    obtain ⟨column, used, before⟩ := reached.after_eq
    rw [stopAt, if_pos (by dsimp only; omega)]
    apply visibleWidth_le_of_prefix
      ((withoutLineEnd_front _).trans (slice_front begins (Nat.not_lt.1 outside)))
    rw [visibleWidth, DisplayColumns.columns, before]
    dsimp only
    omega

/-- A line is never wider than the screen. -/
theorem visibleWidth_lineStop (wide : 0 < columns) (begins : begin ≤ text.size) :
    (visibleWidth (withoutLineEnd (text.slice begin (lineStop text columns begin))) : Int) ≤ columns :=
  visibleWidth_le_of_scan wide begins Heads.start _

end Cursor

/-! ## Reading a text -/

section Reading

structure Line where
  begin : Nat
  stop : Nat
  deriving DecidableEq

namespace MoreFile

/-- The lines that are read until `more_getline` returns 0. -/
def readLines : Nat → MoreFile → Option (List Line)
  | 0, _ => none
  | fuel + 1, more =>
    match more.getline with
    | none => none
    | some (size, more) =>
      if size = 0 then some []
      else
        match readLines fuel more with
        | none => none
        | some lines => some (⟨more.begin.getD 0, more.stop.getD 0⟩ :: lines)

/-- The state behind a line that is there to read. -/
def fetched (more : MoreFile) : MoreFile :=
  let begin := more.stop.getD 0
  let stop := lineStop more.text more.width begin
  { more with
    ln := (more.cacheLine begin).ln
    line := more.line + 1
    begin := some begin
    stop := some stop
    prop := (lineFrom more.text more.width begin more.prop).2
    total := if stop ≥ more.text.size then more.line + 1 else more.total }

/-- The state behind the attempt to read at the end. -/
def atEnd (more : MoreFile) : MoreFile :=
  let begin := more.stop.getD 0
  { more with ln := (more.cacheLine begin).ln, begin := some begin, stop := some begin }

theorem cacheLine_begin (more : MoreFile) (begin : Nat) :
    { more with stop := some begin, begin := some begin }.cacheLine begin =
      { more with ln := (more.cacheLine begin).ln, stop := some begin, begin := some begin } := by
  unfold cacheLine
  dsimp only
  split <;> rfl

section Getline

variable {more : MoreFile}

theorem block_lt (inside : more.stop.getD 0 ≤ more.text.size) :
    more.stop.getD 0 / linenumBlockSize < more.text.lnSize := by
  have := Nat.div_le_div_right (c := linenumBlockSize) inside
  exact Nat.lt_succ_of_le this

theorem getline_of_lt (wide : 2 ≤ more.width) (inside : more.stop.getD 0 < more.text.size)
    (few : more.line < intMax) :
    more.getline = some
      ((lineStop more.text more.width (more.stop.getD 0) : Int) - (more.stop.getD 0 : Nat),
        more.fetched) := by
  rw [getline, if_neg (by omega)]
  dsimp only
  rw [if_pos (block_lt (Nat.le_of_lt inside)), cacheLine_begin]
  dsimp only
  rw [if_neg (by omega), if_pos few]
  simp only [lineFrom_fst]
  rfl

theorem getline_of_eq (wide : 2 ≤ more.width) (ends : more.stop.getD 0 = more.text.size) :
    more.getline = some (0, more.atEnd) := by
  rw [getline, if_neg (by omega)]
  dsimp only
  rw [if_pos (block_lt (Nat.le_of_eq ends)), cacheLine_begin]
  dsimp only
  rw [if_pos ends]
  rfl

theorem getline_overflow (wide : 2 ≤ more.width) (inside : more.stop.getD 0 < more.text.size)
    (many : intMax ≤ more.line) : more.getline = none := by
  rw [getline, if_neg (by omega)]
  dsimp only
  rw [if_pos (block_lt (Nat.le_of_lt inside)), cacheLine_begin]
  dsimp only
  rw [if_neg (by omega), if_neg (by omega)]

end Getline

/-- `more` is going to read line `n`, which begins at `begin`. -/
structure At (text : Text) (width : Int) (more : MoreFile) (n begin : Nat) : Prop where
  text : more.text = text
  width : more.width = width
  line : more.line = n
  stop : more.stop.getD 0 = begin

namespace At

variable {text : Text} {width : Int} {more : MoreFile} {n begin : Nat}

theorem openBuffer (text : Text) (width : Int) : At text width (openBuffer text width) 0 0 :=
  ⟨rfl, rfl, rfl, rfl⟩

theorem fetched (reading : At text width more n begin) :
    At text width more.fetched (n + 1) (lineStop text width begin) := by
  obtain ⟨rfl, rfl, rfl, rfl⟩ := reading
  exact ⟨rfl, rfl, rfl, rfl⟩

theorem atEnd (reading : At text width more n begin) : At text width more.atEnd n begin := by
  obtain ⟨rfl, rfl, rfl, rfl⟩ := reading
  exact ⟨rfl, rfl, rfl, rfl⟩

theorem getline_of_lt (reading : At text width more n begin) (wide : 2 ≤ width)
    (inside : begin < text.size) (few : n < intMax) :
    more.getline = some ((lineStop text width begin : Int) - begin, more.fetched) := by
  obtain ⟨rfl, rfl, rfl, rfl⟩ := reading
  exact MoreFile.getline_of_lt wide inside few

theorem getline_of_eq (reading : At text width more n begin) (wide : 2 ≤ width)
    (ends : begin = text.size) : more.getline = some (0, more.atEnd) := by
  obtain ⟨rfl, rfl, rfl, rfl⟩ := reading
  exact MoreFile.getline_of_eq wide ends

theorem getline_overflow (reading : At text width more n begin) (wide : 2 ≤ width)
    (inside : begin < text.size) (many : intMax ≤ n) : more.getline = none := by
  obtain ⟨rfl, rfl, rfl, rfl⟩ := reading
  exact MoreFile.getline_overflow wide inside many

theorem fetched_line (reading : At text width more n begin) :
    (more.fetched.begin.getD 0, more.fetched.stop.getD 0) =
      (begin, lineStop text width begin) := by
  obtain ⟨rfl, rfl, rfl, rfl⟩ := reading
  rfl

end At

end MoreFile

end Reading

/-! ## The partition -/

section Partition

/-- Lines follow each other from `begin` to `stop`. -/
def Adjacent : Nat → List Line → Nat → Prop
  | begin, [], stop => begin = stop
  | begin, line :: lines, stop => line.begin = begin ∧ Adjacent line.stop lines stop

def Text.lineBytes (text : Text) (line : Line) : Bytes :=
  text.slice line.begin line.stop

/-- The lines are what a text from `begin` on is to be cut into. -/
structure Partition (text : Text) (columns : Int) (begin : Nat) (lines : List Line) : Prop where
  progress : ∀ line ∈ lines, line.begin < line.stop
  inside : ∀ line ∈ lines, line.stop ≤ text.size
  adjacent : Adjacent begin lines text.size
  whole : (lines.map text.lineBytes).flatten = text.slice begin text.size
  lineFeeds : ∀ line ∈ lines, lineFeed ∉ (text.lineBytes line).dropLast
  fits : ∀ line ∈ lines, (visibleWidth (withoutLineEnd (text.lineBytes line)) : Int) ≤ columns

variable {text : Text} {columns : Int} {begin stop : Nat} {line : Line} {lines : List Line}

theorem lineFeed_not_mem_iff (progress : begin < stop) :
    lineFeed ∉ (text.slice begin stop).dropLast ↔
      ∀ i, begin ≤ i → i + 1 < stop → text.buf i ≠ lineFeed := by
  rw [slice_dropLast progress, mem_slice]
  constructor
  · intro absent i from_begin before feed
    exact absent ⟨i, from_begin, by omega, feed⟩
  · rintro noFeed ⟨i, from_begin, before, feed⟩
    exact noFeed i from_begin (by omega) feed

theorem soundLine_iff : SoundLine text begin stop ↔
    begin < stop ∧ stop ≤ text.size ∧ lineFeed ∉ (text.slice begin stop).dropLast := by
  constructor
  · intro sound
    exact ⟨sound.progress, sound.inside, (lineFeed_not_mem_iff sound.progress).2 sound.lineFeeds⟩
  · rintro ⟨progress, inside, absent⟩
    exact ⟨progress, inside, (lineFeed_not_mem_iff progress).1 absent⟩

theorem partition_nil : Partition text columns text.size [] where
  progress := by simp
  inside := by simp
  adjacent := rfl
  whole := (slice_self text text.size).symm
  lineFeeds := by simp
  fits := by simp

theorem Partition.cons (sound : SoundLine text begin stop)
    (fits : (visibleWidth (withoutLineEnd (text.slice begin stop)) : Int) ≤ columns)
    (rest : Partition text columns stop lines) :
    Partition text columns begin (⟨begin, stop⟩ :: lines) where
  progress := List.forall_mem_cons.2 ⟨sound.progress, rest.progress⟩
  inside := List.forall_mem_cons.2 ⟨sound.inside, rest.inside⟩
  adjacent := ⟨rfl, rest.adjacent⟩
  whole := by
    rw [List.map_cons, List.flatten_cons, rest.whole]
    exact slice_append (Nat.le_of_lt sound.progress) sound.inside
  lineFeeds := List.forall_mem_cons.2 ⟨(soundLine_iff.1 sound).2.2, rest.lineFeeds⟩
  fits := List.forall_mem_cons.2 ⟨fits, rest.fits⟩

theorem Partition.head (partition : Partition text columns begin (⟨begin, stop⟩ :: lines)) :
    SoundLine text begin stop :=
  soundLine_iff.2 ⟨partition.progress _ List.mem_cons_self, partition.inside _ List.mem_cons_self,
    partition.lineFeeds _ List.mem_cons_self⟩

theorem Partition.tail (partition : Partition text columns begin (⟨begin, stop⟩ :: lines)) :
    Partition text columns stop lines where
  progress := (List.forall_mem_cons.1 partition.progress).2
  inside := (List.forall_mem_cons.1 partition.inside).2
  adjacent := partition.adjacent.2
  whole := by
    have whole := partition.whole
    rw [List.map_cons, List.flatten_cons, ← slice_append (Nat.le_of_lt partition.head.progress)
      partition.head.inside] at whole
    exact List.append_cancel_left whole
  lineFeeds := (List.forall_mem_cons.1 partition.lineFeeds).2
  fits := (List.forall_mem_cons.1 partition.fits).2

end Partition

/-! ## Whole texts -/

section Texts

open MoreFile

variable {text : Text} {columns : Int}

/-- Where line `n` begins. -/
def lineStart (text : Text) (columns : Int) (n : Nat) : Nat :=
  (lineStop text columns)^[n] 0

theorem lineStop_of_end {begin : Nat} (outside : text.size ≤ begin) :
    lineStop text columns begin = text.size := by
  rw [lineStop, lineFrom, scan_of_end outside, finish_fst, stopAt]
  exact if_pos (by dsimp only; omega)

theorem iterate_lineStop_end (k : Nat) : (lineStop text columns)^[k] text.size = text.size :=
  Function.iterate_fixed (lineStop_of_end (Nat.le_refl _)) k

/-- While nothing goes wrong the lines that are read are a partition of the rest of the text. -/
theorem partition_of_clean (wide : 2 ≤ columns) {n begin : Nat} {more : MoreFile}
    (reading : At text columns more n begin) (inside : begin ≤ text.size)
    (clean : ∀ k, (lineStop text columns)^[k] begin < text.size →
      n + k < intMax ∧ CleanAt text columns ((lineStop text columns)^[k] begin)) :
    ∃ fuel lines, readLines fuel more = some lines ∧ Partition text columns begin lines := by
  induction gap : text.size - begin using Nat.strong_induction_on generalizing n begin more with
  | _ left ih =>
    by_cases ends : begin = text.size
    · refine ⟨1, [], ?_, ends ▸ partition_nil⟩
      simp only [readLines, reading.getline_of_eq wide ends]
      rfl
    have within : begin < text.size := by omega
    obtain ⟨few, cleanHere⟩ := clean 0 within
    have sound : SoundLine text begin (lineStop text columns begin) :=
      cleanHere.soundLine wide within
    have progress := sound.progress
    have stopInside := sound.inside
    obtain ⟨fuel, lines, read, partition⟩ :=
      ih (text.size - lineStop text columns begin) (by omega) reading.fetched stopInside
        (fun k before => by
          obtain ⟨few, cleanThere⟩ := clean (k + 1) before
          exact ⟨by omega, cleanThere⟩) rfl
    refine ⟨fuel + 1, ⟨begin, lineStop text columns begin⟩ :: lines, ?_,
      partition.cons sound (visibleWidth_lineStop (by omega) (Nat.le_of_lt within))⟩
    obtain ⟨begins, stops⟩ := Prod.mk.inj reading.fetched_line
    simp only [readLines, reading.getline_of_lt wide within few, read, begins, stops]
    exact if_neg (by omega)

/-- Where the lines that are read are a partition of the rest of the text, nothing has gone
wrong. -/
theorem clean_of_partition (wide : 2 ≤ columns) {fuel n begin : Nat} {more : MoreFile}
    {lines : List Line} (reading : At text columns more n begin) (inside : begin ≤ text.size)
    (read : readLines fuel more = some lines) (partition : Partition text columns begin lines)
    (k : Nat) (before : (lineStop text columns)^[k] begin < text.size) :
    n + k < intMax ∧ CleanAt text columns ((lineStop text columns)^[k] begin) := by
  induction fuel generalizing n begin more lines k with
  | zero => exact absurd read (by simp [readLines])
  | succ fuel ih =>
    by_cases ends : begin = text.size
    · rw [ends, iterate_lineStop_end] at before
      omega
    have within : begin < text.size := by omega
    by_cases few : n < intMax
    · simp only [readLines, reading.getline_of_lt wide within few] at read
      split_ifs at read with stays
      · obtain rfl := Option.some.inj read
        exact absurd partition.adjacent ends
      obtain ⟨begins, stops⟩ := Prod.mk.inj reading.fetched_line
      rw [begins, stops] at read
      cases rest : readLines fuel more.fetched with
      | none =>
        rw [rest] at read
        exact absurd read (by simp)
      | some others =>
        rw [rest] at read
        obtain rfl := Option.some.inj read
        cases k with
        | zero => exact ⟨few, partition.head.cleanAt within⟩
        | succ k =>
          obtain ⟨few, clean⟩ :=
            ih reading.fetched partition.head.inside rest partition.tail k before
          exact ⟨by omega, clean⟩
    · simp only [readLines, reading.getline_overflow wide within (by omega)] at read
      exact absurd read (by simp)

/-- Reading a text from the start until nothing is left cuts it as it should be just when nothing
goes wrong in any of its lines. -/
theorem partitions_iff_clean (text : Text) (columns : Int) (wide : 2 ≤ columns) :
    (∃ fuel lines, readLines fuel (openBuffer text columns) = some lines ∧
        Partition text columns 0 lines) ↔
      ∀ n, lineStart text columns n < text.size →
        n < intMax ∧ CleanAt text columns (lineStart text columns n) := by
  constructor
  · rintro ⟨fuel, lines, read, partition⟩ n before
    have := clean_of_partition wide (At.openBuffer text columns) (Nat.zero_le _) read partition n
      before
    rwa [Nat.zero_add] at this
  · intro clean
    apply partition_of_clean wide (At.openBuffer text columns) (Nat.zero_le _)
    intro k before
    rw [Nat.zero_add]
    exact clean k before

/-- A text in memory with an address behind it. -/
def textOf (bytes : Bytes) : Text where
  buf i := bytes.getD i 0
  size := bytes.length
  aligned := by simp

/-- A character of two bytes on a line, and two letters behind it. -/
def twoLines : Text :=
  textOf [200, 200, 10, 97, 98]

theorem twoLines_plain : ∀ i < 5, twoLines.buf i ≠ escape ∧ twoLines.buf i ≠ tab := by
  decide

/-- The loop skips the second byte of the character. -/
theorem twoLines_heads {ptr : Nat} {len : Int} {inEsc : Bool}
    (reached : Heads twoLines 80 0 ptr len inEsc) : ptr ≠ 1 := by
  rintro rfl
  generalize isOne : 1 = ptr at reached
  cases reached with
  | start => cases isOne
  | @round ptr len inEsc skipped len' inEsc' reached inside goesOn =>
    obtain ⟨rfl, rfl⟩ : ptr = 0 ∧ skipped = 0 := by omega
    generalize isZero : 0 = ptr at reached
    cases reached with
    | start =>
      have passed : round 80 (twoLines.buf 0) 80 false = .next 1 78 false := by decide
      exact Nat.zero_ne_one (Outcome.next.inj (goesOn.symm.trans passed)).1
    | round _ _ _ => cases isZero

theorem partitions_twoLines :
    ∃ fuel lines, readLines fuel (openBuffer twoLines 80) = some lines ∧
      Partition twoLines 80 0 lines := by
  apply (partitions_iff_clean twoLines 80 (by decide)).mpr
  intro n before
  have ends : lineStart twoLines 80 2 = twoLines.size := by decide +kernel
  have few : n < 2 := by
    by_contra more
    obtain ⟨k, rfl⟩ := Nat.exists_eq_add_of_le' (Nat.le_of_not_lt more)
    rw [lineStart, Function.iterate_add_apply, ← lineStart, ends, iterate_lineStop_end] at before
    exact Nat.lt_irrefl _ before
  refine ⟨few.trans (by decide), fun isTab => ?_, fun ptr len heads inside isHigh _ feed => ?_,
    fun ptr _ inside isEscape => absurd isEscape (twoLines_plain ptr inside).1⟩
  · exact absurd isTab (twoLines_plain _ before).2
  · -- Only the byte in front of the line feed is followed by one.
    have place : ∀ i < 5, twoLines.buf (i + 1) = lineFeed → i = 1 := by decide
    obtain rfl := place ptr (Nat.lt_of_succ_lt inside) feed
    match n, few with
    | 0, _ => exact absurd rfl (twoLines_heads heads)
    | 1, _ =>
      have second : lineStart twoLines 80 1 = 3 := by decide +kernel
      rw [second] at heads
      exact absurd heads.le (by decide)

/-- The first half of a character before a line feed takes it into the line. -/
theorem half_character_not_partitioned :
    ¬∃ fuel lines, readLines fuel (openBuffer (textOf [200, 10, 97, 98]) 80) = some lines ∧
      Partition (textOf [200, 10, 97, 98]) 80 0 lines := by
  rintro ⟨fuel, lines, read, partition⟩
  obtain ⟨-, clean⟩ := clean_of_partition (by decide) (At.openBuffer _ 80) (Nat.zero_le _) read
    partition 0 (by decide)
  obtain atEnd | ⟨full, -⟩ | ⟨-, len', left⟩ :=
    clean.pairs 0 80 Heads.start (by decide) (by decide) (by decide) (by decide)
  · exact absurd atEnd (by decide)
  · exact absurd full (by decide)
  · have goesOn : round 80 ((textOf [200, 10, 97, 98]).buf 2) (80 - 2) false =
        .next 0 77 false := by decide
    rw [goesOn] at left
    exact Outcome.noConfusion left

end Texts

end Pager

end Fbbs
