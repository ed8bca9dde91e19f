import Mathlib.Data.Nat.Find
import Fbbs.PagerPartition

/-!
# Seeking in the pager

A line is sought from the nearest one that is remembered.  Its number and its place are restored,
but the quotation that reading was in is not, although it is remembered with the line.
-/

namespace Fbbs

namespace Pager

open MoreFile

/-! ## Quotations -/

section Quotes

variable (text : Text) (columns : Int)

/-- Whether a quotation goes on behind the line that begins here, when it did before. -/
def quoteBehind (begin : Nat) (before : Bool) : Bool :=
  (lineFrom text columns begin ⟨before, false⟩).2.isQuote

/-- The line begins with a quotation mark or ends the quotation, so that what was before it does
not matter. -/
def DecidesQuote (begin : Nat) : Prop :=
  startsQuote text begin ∨ quoteBehind text columns begin true = false

variable {text columns}

theorem roundProp_isQuote (c : UInt8) (inEsc : Bool) (prop : LineProp) :
    (roundProp c inEsc prop).isQuote = (prop.isQuote && decide (c ≠ lineFeed)) := by
  unfold roundProp
  split_ifs with feed <;> simp [feed]

/-- The loop keeps a quotation or ends it, whatever else it finds. -/
theorem scan_isQuote {ptr : Nat} {len : Int} {inEsc : Bool} (prop : LineProp) :
    ∃ keeps : Bool, ∀ other : LineProp,
      (scan text columns ptr len inEsc other).prop.isQuote = (other.isQuote && keeps) := by
  fun_induction scan text columns ptr len inEsc prop with
  | case1 ptr len inEsc prop inside prop' skipped len' inEsc' goesOn ih =>
    obtain ⟨keeps, after⟩ := ih
    refine ⟨decide (text.buf ptr ≠ lineFeed) && keeps, fun other => ?_⟩
    rw [scan_of_next inside goesOn, after, roundProp_isQuote, Bool.and_assoc]
  | case2 ptr len inEsc prop inside prop' taken len' ends =>
    refine ⟨decide (text.buf ptr ≠ lineFeed), fun other => ?_⟩
    rw [scan_of_done inside ends]
    exact roundProp_isQuote _ _ other
  | case3 ptr len inEsc prop outside =>
    refine ⟨true, fun other => ?_⟩
    rw [scan_of_end (Nat.not_lt.1 outside), Bool.and_true]

/-- So does what follows the loop. -/
theorem finish_isQuote (next : Nat) (len : Int) :
    ∃ keeps : Bool, ∀ prop : LineProp,
      (finish text ⟨next, len, prop⟩).2.isQuote = (prop.isQuote && keeps) := by
  by_cases past : next ≥ text.size
  · refine ⟨true, fun prop => ?_⟩
    rw [finish, if_pos past, Bool.and_true]
  by_cases full : len = 0
  · by_cases open_line : lineEndLength text (trailingEscape text next) = 0
    · refine ⟨true, fun prop => ?_⟩
      rw [finish, if_neg past, if_pos full, Bool.and_true]
      dsimp only
      rw [if_pos open_line]
    · refine ⟨false, fun prop => ?_⟩
      rw [finish, if_neg past, if_pos full, Bool.and_false]
      dsimp only
      rw [if_neg open_line]
  · refine ⟨true, fun prop => ?_⟩
    rw [finish, if_neg past, if_neg full, Bool.and_true]

/-- What comes behind a line is decided by the mark it begins with and by how it ends. -/
theorem lineFrom_isQuote (text : Text) (columns : Int) (begin : Nat) :
    ∃ keeps : Bool, ∀ prop : LineProp, (lineFrom text columns begin prop).2.isQuote =
      ((prop.isQuote || startsQuote text begin) && keeps) := by
  obtain ⟨loopKeeps, loop⟩ := @scan_isQuote text columns begin columns false ⟨false, false⟩
  obtain ⟨endKeeps, ending⟩ := @finish_isQuote text
    (scan text columns begin columns false ⟨false, false⟩).next
    (scan text columns begin columns false ⟨false, false⟩).len
  refine ⟨loopKeeps && endKeeps, fun prop => ?_⟩
  obtain ⟨next, len⟩ := @scan_next_len text columns begin columns false
    (startProp text begin prop) ⟨false, false⟩
  have scanned : scan text columns begin columns false (startProp text begin prop) =
      ⟨_, _, (scan text columns begin columns false (startProp text begin prop)).prop⟩ := rfl
  rw [lineFrom, scanned, next, len, ending, loop, Bool.and_assoc]
  rfl

theorem lineFrom_isQuote_eq (begin : Nat) (prop : LineProp) :
    (lineFrom text columns begin prop).2.isQuote =
      quoteBehind text columns begin prop.isQuote := by
  obtain ⟨keeps, behind⟩ := lineFrom_isQuote text columns begin
  rw [quoteBehind, behind, behind]

/-- A line carries on what was before it, unless it decides itself. -/
theorem quoteBehind_eq_iff (begin : Nat) (first second : Bool) :
    quoteBehind text columns begin first = quoteBehind text columns begin second ↔
      first = second ∨ DecidesQuote text columns begin := by
  obtain ⟨keeps, behind⟩ := lineFrom_isQuote text columns begin
  rw [DecidesQuote, quoteBehind, quoteBehind, quoteBehind, behind, behind, behind]
  cases startsQuote text begin <;> cases keeps <;> cases first <;> cases second <;> decide

end Quotes

/-! ## The lines of a text -/

section Lines

/-- The line that begins here goes on, and no escape sequence behind it is cut off. -/
structure Advances (text : Text) (columns : Int) (begin : Nat) : Prop where
  tabFits : text.buf begin = tab → 4 ≤ columns
  escapes : ∀ ptr, Full text columns begin ptr → ptr < text.size → text.buf ptr = escape →
    skipCodes text (ptr + 1) < text.size

/-- Every line of the text goes on, and an `int` can number them. -/
def Steady (text : Text) (columns : Int) : Prop :=
  ∀ n, lineStart text columns n < text.size →
    n < intMax ∧ Advances text columns (lineStart text columns n)

variable {text : Text} {columns : Int} {begin : Nat}

theorem Advances.lt_lineStop (advances : Advances text columns begin) (wide : 2 ≤ columns)
    (begins : begin < text.size) : begin < lineStop text columns begin := by
  apply lt_stop_of_scan begins
  intro len' left
  obtain ⟨-, taken, -⟩ | ⟨-, -, -, -, ⟨isTab, overfull⟩ | ⟨-, overfull⟩⟩ | ⟨-, taken, -⟩ |
      ⟨-, taken, -⟩ := round_eq_done left
  · omega
  · have := advances.tabFits isTab
    simp only [tabWidth, tabStop, Int.sub_self] at overfull
    omega
  · omega
  · omega
  · omega

theorem Advances.stop_inside (advances : Advances text columns begin)
    {ptr : Nat} {len : Int} {inEsc : Bool} (reached : Heads text columns begin ptr len inEsc)
    (prop : LineProp) : (finish text (scan text columns ptr len inEsc prop)).1 ≤ text.size := by
  rw [finish_fst]
  fun_induction scan text columns ptr len inEsc prop with
  | case1 ptr len inEsc prop inside prop' skipped len' inEsc' goesOn ih =>
    exact ih (reached.round inside goesOn)
  | case2 ptr len inEsc prop inside prop' taken len' ends =>
    dsimp only
    unfold stopAt
    split_ifs with past full
    · exact Nat.le_refl _
    · subst full
      have whole : Full text columns begin (ptr + taken) :=
        ⟨ptr, len, inEsc, taken, reached, inside, ends, rfl⟩
      apply lineEndLength_inside
      unfold trailingEscape
      split_ifs with escaped
      · exact advances.escapes _ whole (by omega) escaped
      · omega
    · omega
  | case3 ptr len inEsc prop outside =>
    rw [stopAt, if_pos (by dsimp only; omega)]

theorem Advances.lineStop_le (advances : Advances text columns begin) :
    lineStop text columns begin ≤ text.size :=
  advances.stop_inside Heads.start _

theorem lineStart_succ (n : Nat) :
    lineStart text columns (n + 1) = lineStop text columns (lineStart text columns n) :=
  Function.iterate_succ_apply' _ n 0

/-- The text has this many lines. -/
structure HasLines (text : Text) (columns : Int) (count : Nat) : Prop where
  ends : lineStart text columns count = text.size
  before : ∀ n < count, lineStart text columns n < text.size

/-- Lines that go on come to the end of the text. -/
theorem Steady.hasLines (steady : Steady text columns) (wide : 2 ≤ columns) :
    ∃ count, HasLines text columns count := by
  have grows : ∀ n, (∀ k < n, lineStart text columns k < text.size) →
      n ≤ lineStart text columns n ∧ lineStart text columns n ≤ text.size := by
    intro n before
    induction n with
    | zero => exact ⟨Nat.le_refl 0, Nat.zero_le _⟩
    | succ n ih =>
      obtain ⟨atLeast, -⟩ := ih fun k less => before k (by omega)
      have begins := before n (Nat.lt_succ_self n)
      have advances := (steady n begins).2
      have progress := advances.lt_lineStop wide begins
      rw [lineStart_succ]
      exact ⟨by omega, advances.lineStop_le⟩
  have reaches : ∃ n, ¬lineStart text columns n < text.size := by
    by_contra never
    have inside := not_exists.1 never
    have := (grows (text.size + 1) fun k _ => Classical.not_not.1 (inside k)).1
    have := (grows (text.size + 1) fun k _ => Classical.not_not.1 (inside k)).2
    omega
  classical
  have before : ∀ n < Nat.find reaches, lineStart text columns n < text.size :=
    fun n less => Classical.not_not.1 (Nat.find_min reaches less)
  have := Nat.find_spec reaches
  have := (grows (Nat.find reaches) before).2
  exact ⟨Nat.find reaches, by omega, before⟩

theorem Steady.few (steady : Steady text columns) {count n : Nat}
    (lines : HasLines text columns count) (less : n < count) : n < intMax :=
  (steady n (lines.before n less)).1

theorem lineStart_past {count n : Nat} (lines : HasLines text columns count) (past : count ≤ n) :
    lineStart text columns n = text.size := by
  obtain ⟨k, rfl⟩ := Nat.exists_eq_add_of_le' past
  rw [lineStart, Function.iterate_add_apply]
  exact (congrArg _ lines.ends).trans (iterate_lineStop_end k)

theorem HasLines.lt_iff {count n : Nat} (lines : HasLines text columns count) :
    lineStart text columns n < text.size ↔ n < count := by
  constructor
  · intro inside
    by_contra past
    have := lineStart_past lines (Nat.le_of_not_lt past)
    omega
  · exact lines.before n

end Lines

/-! ## Quotations along the lines -/

section Carry

variable (text : Text) (columns : Int)

/-- The quotation behind so many lines from line `n` on. -/
def quoteFrom (n : Nat) : Nat → Bool → Bool
  | 0, before => before
  | k + 1, before =>
    quoteBehind text columns (lineStart text columns (n + k)) (quoteFrom n k before)

/-- The quotation in front of a line when all lines before it are read. -/
def quoteAt (n : Nat) : Bool :=
  quoteFrom text columns 0 n false

variable {text columns}

theorem quoteFrom_add (n j k : Nat) (before : Bool) :
    quoteFrom text columns n (j + k) before =
      quoteFrom text columns (n + j) k (quoteFrom text columns n j before) := by
  induction k with
  | zero => rfl
  | succ k ih => rw [← Nat.add_assoc, quoteFrom, quoteFrom, ih, Nat.add_assoc]

theorem quoteFrom_trans {first second third : Nat} (left : first ≤ second) (right : second ≤ third)
    (before : Bool) : quoteFrom text columns first (third - first) before =
      quoteFrom text columns second (third - second)
        (quoteFrom text columns first (second - first) before) := by
  have sum : third - first = (second - first) + (third - second) := by omega
  have start : first + (second - first) = second := by omega
  rw [sum, quoteFrom_add, start]

/-- What was before the lines does not matter only if one of them decides. -/
theorem quoteFrom_eq_iff (n k : Nat) (first second : Bool) :
    quoteFrom text columns n k first = quoteFrom text columns n k second ↔
      first = second ∨ ∃ i < k, DecidesQuote text columns (lineStart text columns (n + i)) := by
  induction k with
  | zero => simp [quoteFrom]
  | succ k ih =>
    rw [quoteFrom, quoteFrom, quoteBehind_eq_iff, ih]
    constructor
    · rintro ((equal | ⟨i, less, decides⟩) | decides)
      · exact Or.inl equal
      · exact Or.inr ⟨i, by omega, decides⟩
      · exact Or.inr ⟨k, by omega, decides⟩
    · rintro (equal | ⟨i, less, decides⟩)
      · exact Or.inl (Or.inl equal)
      · obtain earlier | rfl : i < k ∨ i = k := by omega
        · exact Or.inl (Or.inr ⟨i, earlier, decides⟩)
        · exact Or.inr decides

end Carry

/-! ## States that are reached -/

/-- What the last of so many further calls of `more_getline` gives. -/
def MoreFile.readTimes : Nat → MoreFile → Option (Int × MoreFile)
  | 0, more => more.getline
  | k + 1, more =>
    match more.getline with
    | none => none
    | some (_, more) => readTimes k more

section States

variable (text : Text) (columns : Int) (count : Nat)

/-- What is remembered is right but for the properties: the lines in the cache begin where they
say, and so does the next line. -/
structure Valid (more : MoreFile) : Prop where
  reading : At text columns more more.line (lineStart text columns more.line)
  line_le : more.line ≤ count
  cached : ∀ i entry, more.ln i = some entry →
    entry.number ≤ count ∧ entry.offset = lineStart text columns entry.number
  total : more.total = -1 ∨ more.total = count
  unknown : more.total < 0 → 0 < count →
    more.line < count ∧ ∀ i entry, more.ln i = some entry → entry.number < count

/-- `after` stands behind lines that follow those before `more`, and the quotation has been
carried along them. -/
structure Follows (more after : MoreFile) : Prop where
  valid : Valid text columns count after
  line_le : more.line ≤ after.line
  isQuote : after.prop.isQuote =
    quoteFrom text columns more.line (after.line - more.line) more.prop.isQuote

/-- One line has been delivered, or nothing at the end. -/
structure Delivers (more : MoreFile) (size : Int) (after : MoreFile) : Prop where
  follows : Follows text columns count more after
  line : after.line = min (more.line + 1) count
  begin : after.begin = some (lineStart text columns more.line)
  stop : after.stop = some (lineStart text columns after.line)
  size : size = (lineStart text columns after.line : Int) - lineStart text columns more.line

variable {text columns count}

theorem Valid.refl {more : MoreFile} (valid : Valid text columns count more) :
    Follows text columns count more more :=
  ⟨valid, Nat.le_refl _, by rw [Nat.sub_self]; rfl⟩

theorem Follows.trans {first second third : MoreFile}
    (left : Follows text columns count first second)
    (right : Follows text columns count second third) :
    Follows text columns count first third where
  valid := right.valid
  line_le := left.line_le.trans right.line_le
  isQuote := by rw [right.isQuote, left.isQuote, ← quoteFrom_trans left.line_le right.line_le]

theorem openBuffer_valid (text : Text) (columns : Int) (count : Nat) :
    Valid text columns count (openBuffer text columns) where
  reading := At.openBuffer text columns
  line_le := Nat.zero_le count
  cached _ _ some := absurd some (Option.some_ne_none _).symm
  total := Or.inl rfl
  unknown _ some := ⟨some, fun _ _ cached => absurd cached (Option.some_ne_none _).symm⟩

/-- The cache holds what it held, or the line that has just been read. -/
theorem cacheLine_ln {more : MoreFile} {begin i : Nat} {entry : LineNum}
    (cached : (more.cacheLine begin).ln i = some entry) :
    more.ln i = some entry ∨ entry = ⟨begin, more.line, more.prop⟩ := by
  unfold cacheLine at cached
  split at cached
  · exact Or.inl cached
  · dsimp only at cached
    rw [Function.update_apply] at cached
    split_ifs at cached
    · exact Or.inr (Option.some.inj cached).symm
    · exact Or.inl cached

section Step

variable {more : MoreFile} (valid : Valid text columns count more)

include valid

theorem Valid.stop_eq : more.stop.getD 0 = lineStart text columns more.line :=
  valid.reading.stop

theorem Valid.cacheLine {i : Nat} {entry : LineNum}
    (cached : (more.cacheLine (more.stop.getD 0)).ln i = some entry) :
    more.ln i = some entry ∨
      entry.number = more.line ∧ entry.offset = lineStart text columns more.line := by
  obtain before | rfl := cacheLine_ln cached
  · exact Or.inl before
  · exact Or.inr ⟨rfl, valid.stop_eq⟩

theorem Valid.fetched (lines : HasLines text columns count) (less : more.line < count) :
    Valid text columns count more.fetched := by
  have reading := valid.reading.fetched
  rw [← lineStart_succ] at reading
  have stop : lineStop more.text more.width (more.stop.getD 0) =
      lineStart text columns (more.line + 1) := by
    rw [valid.reading.text, valid.reading.width, valid.stop_eq, lineStart_succ]
  have last : more.text.size ≤ lineStart text columns (more.line + 1) →
      more.line + 1 = count := by
    intro past
    rw [valid.reading.text] at past
    by_contra different
    have := lines.before (more.line + 1) (by omega)
    omega
  refine ⟨reading, less, ?_, ?_, ?_⟩
  · intro i entry cached
    obtain before | ⟨number, offset⟩ := valid.cacheLine cached
    · exact valid.cached i entry before
    · rw [number]
      exact ⟨valid.line_le, offset⟩
  · simp only [MoreFile.fetched, stop]
    split_ifs with past
    · right
      have := last past
      omega
    · exact valid.total
  · intro unknown some
    simp only [MoreFile.fetched, stop] at unknown
    split_ifs at unknown with past
    · omega
    · obtain ⟨-, entries⟩ := valid.unknown unknown some
      refine ⟨?_, fun i entry cached => ?_⟩
      · apply lines.lt_iff.1
        rw [valid.reading.text] at past
        exact Nat.lt_of_not_le past
      · obtain before | ⟨number, -⟩ := valid.cacheLine cached
        · exact entries i entry before
        · rw [number]
          exact less

theorem Valid.atEnd (done : more.line = count) : Valid text columns count more.atEnd := by
  refine ⟨valid.reading.atEnd, valid.line_le, ?_, valid.total, ?_⟩
  · intro i entry cached
    obtain before | ⟨number, offset⟩ := valid.cacheLine cached
    · exact valid.cached i entry before
    · rw [number]
      exact ⟨valid.line_le, offset⟩
  · intro unknown some
    have := (valid.unknown unknown some).1
    omega

/-- What `more_getline` does in a text whose lines go on. -/
theorem Valid.getline (wide : 2 ≤ columns) (steady : Steady text columns)
    (lines : HasLines text columns count) :
    ∃ size after, more.getline = some (size, after) ∧
      Delivers text columns count more size after ∧ (size ≤ 0 ↔ more.line = count) := by
  by_cases less : more.line < count
  · have begins := lines.before _ less
    have progress := (steady _ begins).2.lt_lineStop wide begins
    have next : lineStart text columns (more.line + 1) =
        lineStop text columns (lineStart text columns more.line) := lineStart_succ _
    refine ⟨_, _, valid.reading.getline_of_lt wide begins (steady.few lines less), ?_, by omega⟩
    refine ⟨⟨valid.fetched lines less, Nat.le_succ _, ?_⟩, ?_, ?_, ?_, ?_⟩
    · have one : more.fetched.line - more.line = 1 := Nat.add_sub_cancel_left ..
      rw [one, quoteFrom, quoteFrom, Nat.add_zero, ← valid.stop_eq, ← lineFrom_isQuote_eq,
        ← valid.reading.text, ← valid.reading.width]
      rfl
    · exact (Nat.min_eq_left less).symm
    · rw [← valid.stop_eq]
      rfl
    · exact (congrArg some next).symm ▸ congrArg some (by
        rw [valid.reading.text, valid.reading.width, valid.stop_eq])
    · rw [← next]
      rfl
  · have done : more.line = count := by
      have := valid.line_le
      omega
    have ends : lineStart text columns more.line = text.size := by
      rw [done]
      exact lines.ends
    refine ⟨_, _, valid.reading.getline_of_eq wide ends, ?_, by omega⟩
    refine ⟨⟨valid.atEnd done, Nat.le_refl _, ?_⟩, ?_, ?_, ?_, ?_⟩
    · have none : more.atEnd.line - more.line = 0 := Nat.sub_self _
      rw [none]
      rfl
    · rw [done, Nat.min_eq_right (Nat.le_succ count)]
      exact done
    · rw [← valid.stop_eq]
      rfl
    · exact congrArg some valid.stop_eq
    · exact (Int.sub_self _).symm

end Step

/-! ## Reading on -/

section Reading

variable {more : MoreFile} (wide : 2 ≤ columns) (steady : Steady text columns)
  (lines : HasLines text columns count)

include wide steady lines

/-- Reading on up to a line comes to it, or to the end. -/
theorem Valid.readUntil (valid : Valid text columns count more) (line fuel : Nat)
    (enough : more.line + fuel = line) :
    ∃ after, readUntil line fuel more = some after ∧
      Follows text columns count more after ∧ after.line = min line count := by
  induction fuel generalizing more with
  | zero =>
    have := valid.line_le
    exact ⟨more, rfl, valid.refl, by omega⟩
  | succ fuel ih =>
    obtain ⟨size, next, step, delivers, stays⟩ := valid.getline wide steady lines
    have lineEq := delivers.line
    have less : more.line < line := by omega
    by_cases done : size ≤ 0
    · have := stays.1 done
      refine ⟨next, ?_, delivers.follows, by omega⟩
      rw [MoreFile.readUntil, if_pos less, step]
      exact if_pos done
    · have := valid.line_le
      have notDone : more.line ≠ count := fun equal => done (stays.2 equal)
      obtain ⟨after, read, follows, line_eq⟩ := ih delivers.follows.valid (by omega)
      refine ⟨after, ?_, delivers.follows.trans follows, line_eq⟩
      rw [MoreFile.readUntil, if_pos less, step]
      exact (if_neg done).trans read

/-- The last of so many lines, and the state before it. -/
theorem Valid.readTimes (valid : Valid text columns count more) (k : Nat) :
    ∃ last size after, last.getline = some (size, after) ∧
      readTimes k more = some (size, after) ∧
      Follows text columns count more last ∧ last.line = min (more.line + k) count := by
  induction k generalizing more with
  | zero =>
    obtain ⟨size, after, step, -, -⟩ := valid.getline wide steady lines
    have := valid.line_le
    exact ⟨more, size, after, step, step, valid.refl, by omega⟩
  | succ k ih =>
    obtain ⟨_, next, step, delivers, -⟩ := valid.getline wide steady lines
    have lineEq := delivers.line
    obtain ⟨last, size, after, final, read, follows, line_eq⟩ := ih delivers.follows.valid
    refine ⟨last, size, after, final, ?_, delivers.follows.trans follows, by omega⟩
    rw [MoreFile.readTimes, step]
    exact read

end Reading

/-! ## Where a seek reads on -/

section Resume

variable {more : MoreFile}

theorem findLn_spec (ln : Nat → Option LineNum) (line left i : Nat) :
    i ≤ findLn ln line left i ∧ ∀ j, i ≤ j → j < findLn ln line left i →
      ∃ entry, ln j = some entry ∧ entry.number ≤ line := by
  induction left generalizing i with
  | zero => exact ⟨Nat.le_refl i, fun j from_i before => by simp only [findLn] at before; omega⟩
  | succ left ih =>
    rw [findLn]
    cases cached : ln i with
    | none => exact ⟨Nat.le_refl i, fun j from_i before => by dsimp only at before; omega⟩
    | some entry =>
      dsimp only
      split_ifs with later
      · exact ⟨Nat.le_refl i, fun j from_i before => by omega⟩
      · obtain ⟨atLeast, entries⟩ := ih (i + 1)
        refine ⟨by omega, fun j from_i before => ?_⟩
        obtain rfl | further : i = j ∨ i + 1 ≤ j := by omega
        · exact ⟨entry, cached, by omega⟩
        · exact entries j further before

/-- The nearest line that is remembered does not come after the one that is sought. -/
theorem Valid.nearestLn (valid : Valid text columns count more) (line : Nat) :
    (more.nearestLn line).1.number ≤ line ∧
      (more.nearestLn line).1.number ≤ count ∧
      (more.nearestLn line).1.offset = lineStart text columns (more.nearestLn line).1.number ∧
      (more.total < 0 → 0 < count → (more.nearestLn line).1.number < count) ∧
      ∀ i entry, (more.nearestLn line).2 i = some entry →
        more.ln i = some entry ∨ entry.number = 0 ∧ entry.offset = 0 := by
  obtain ⟨-, entries⟩ := findLn_spec more.ln line more.text.lnSize 0
  unfold MoreFile.nearestLn
  cases found : findLn more.ln line more.text.lnSize 0 with
  | zero =>
    refine ⟨Nat.zero_le _, Nat.zero_le _, rfl, fun _ some => some, ?_⟩
    intro i entry cached
    dsimp only at cached
    rw [Function.update_apply] at cached
    split_ifs at cached
    · obtain rfl := Option.some.inj cached
      exact Or.inr ⟨rfl, rfl⟩
    · exact Or.inl cached
  | succ i =>
    obtain ⟨entry, cached, number⟩ := entries i (Nat.zero_le i) (by omega)
    obtain ⟨number_le, offset⟩ := valid.cached i entry cached
    simp only [cached, Option.getD_some]
    exact ⟨number, number_le, offset, fun unknown some => (valid.unknown unknown some).2 i entry
      cached, fun _ _ => Or.inl⟩

theorem Valid.resume (valid : Valid text columns count more) (line : Nat) :
    Valid text columns count (more.resume line) ∧ (more.resume line).line ≤ line ∧
      (more.resume line).prop = more.prop := by
  obtain ⟨number, number_le, offset, unknown, entries⟩ := valid.nearestLn line
  unfold MoreFile.resume
  generalize more.nearestLn line = nearest at number number_le offset unknown entries
  obtain ⟨entry, ln⟩ := nearest
  have cached : ∀ i other, ln i = some other →
      other.number ≤ count ∧ other.offset = lineStart text columns other.number := by
    intro i other here
    obtain before | ⟨zero, start⟩ := entries i other here
    · exact valid.cached i other before
    · rw [zero, start]
      exact ⟨Nat.zero_le count, rfl⟩
  have below : more.total < 0 → 0 < count → ∀ i other, ln i = some other →
      other.number < count := by
    intro negative some i other here
    obtain before | ⟨zero, -⟩ := entries i other here
    · exact (valid.unknown negative some).2 i other before
    · omega
  dsimp only at number number_le offset unknown ⊢
  split_ifs with jumps
  · refine ⟨⟨⟨valid.reading.text, valid.reading.width, rfl, offset⟩, number_le, cached, valid.total,
      fun negative some => ⟨unknown negative some, below negative some⟩⟩, number, rfl⟩
  · refine ⟨⟨⟨valid.reading.text, valid.reading.width, rfl, valid.reading.stop⟩, valid.line_le,
      cached, valid.total,
      fun negative some => ⟨(valid.unknown negative some).1, below negative some⟩⟩, ?_, rfl⟩
    dsimp only
    omega

theorem Valid.seek (valid : Valid text columns count more) (wide : 2 ≤ columns)
    (steady : Steady text columns) (lines : HasLines text columns count) (line : Int) :
    ∃ after, more.seek line = some after ∧
      Follows text columns count (more.resume line.toNat) after ∧
      after.line = min line.toNat count := by
  obtain ⟨resumed, line_le, -⟩ := valid.resume line.toNat
  exact resumed.readUntil wide steady lines line.toNat _ (Nat.add_sub_cancel' line_le)

end Resume

/-! ## Counting -/

section Counting

variable {more : MoreFile}

theorem lastLn_eq_some {ln : Nat → Option LineNum} {n : Nat} {entry : LineNum}
    (found : lastLn ln n = some entry) : ∃ i, ln i = some entry := by
  induction n with
  | zero => exact absurd found (Option.some_ne_none _).symm
  | succ n ih =>
    rw [lastLn] at found
    cases cached : ln n with
    | none =>
      rw [cached] at found
      exact ih found
    | some other =>
      rw [cached] at found
      obtain rfl := Option.some.inj found
      exact ⟨n, cached⟩

theorem lastLn_eq_none (ln : Nat → Option LineNum) (n : Nat) :
    lastLn ln n = none ↔ ∀ i < n, ln i = none := by
  induction n with
  | zero => simp [lastLn]
  | succ n ih =>
    rw [lastLn]
    cases cached : ln n with
    | none =>
      rw [ih]
      constructor
      · intro before i less
        obtain earlier | rfl : i < n ∨ i = n := by omega
        · exact before i earlier
        · exact cached
      · intro all i less
        exact all i (by omega)
    | some entry =>
      constructor
      · intro impossible
        exact absurd impossible (Option.some_ne_none entry)
      · intro all
        rw [all n (Nat.lt_succ_self n)] at cached
        exact absurd cached (Option.some_ne_none entry).symm

/-- Reading all of a text that is not empty comes to its end. -/
theorem Valid.readAll (valid : Valid text columns count more) (wide : 2 ≤ columns)
    (steady : Steady text columns) (lines : HasLines text columns count) (nonempty : 0 < count) :
    ∃ fuel after, readAll fuel more = some after := by
  induction gap : count - more.line using Nat.strong_induction_on generalizing more with
  | _ left ih =>
    by_cases unknown : more.total < 0
    · have less := (valid.unknown unknown nonempty).1
      obtain ⟨size, next, step, delivers, -⟩ := valid.getline wide steady lines
      have line_eq := delivers.line
      obtain ⟨fuel, after, read⟩ := ih (count - next.line) (by omega) delivers.follows.valid rfl
      refine ⟨fuel + 1, after, ?_⟩
      rw [MoreFile.readAll, if_pos unknown, step]
      exact read
    · exact ⟨1, more, if_neg unknown⟩

/-- When all is read the number of lines is known. -/
theorem Valid.of_readAll (valid : Valid text columns count more) (wide : 2 ≤ columns)
    (steady : Steady text columns) (lines : HasLines text columns count) {fuel : Nat}
    {after : MoreFile} (read : MoreFile.readAll fuel more = some after) :
    Valid text columns count after ∧ after.total = count := by
  induction fuel generalizing more with
  | zero => exact absurd read (Option.some_ne_none after).symm
  | succ fuel ih =>
    rw [MoreFile.readAll] at read
    by_cases unknown : more.total < 0
    · obtain ⟨size, next, step, delivers, -⟩ := valid.getline wide steady lines
      rw [if_pos unknown, step] at read
      exact ih delivers.follows.valid read
    · rw [if_neg unknown] at read
      obtain rfl := Option.some.inj read
      have := valid.total
      exact ⟨valid, by omega⟩

/-- In an empty text the loop goes on for ever. -/
theorem Valid.readAll_empty (valid : Valid text columns 0 more) (wide : 2 ≤ columns)
    (lines : HasLines text columns 0) (unknown : more.total < 0) (fuel : Nat) :
    MoreFile.readAll fuel more = none := by
  induction fuel generalizing more with
  | zero => rfl
  | succ fuel ih =>
    have done : more.line = 0 := Nat.le_zero.1 valid.line_le
    have ends : lineStart text columns more.line = text.size := by
      rw [done]
      exact lines.ends
    rw [MoreFile.readAll, if_pos unknown, valid.reading.getline_of_eq wide ends]
    exact ih (valid.atEnd done) unknown

/-- The state that counting starts from. -/
theorem Valid.from_cached (valid : Valid text columns count more) {entry : LineNum} {i : Nat}
    (cached : more.ln i = some entry) :
    Valid text columns count { more with line := entry.number, stop := some entry.offset } := by
  obtain ⟨number_le, offset⟩ := valid.cached i entry cached
  exact ⟨⟨valid.reading.text, valid.reading.width, rfl, offset⟩, number_le, valid.cached,
    valid.total, fun unknown nonempty =>
      have below := (valid.unknown unknown nonempty).2
      ⟨below i entry cached, below⟩⟩

theorem Valid.restore (valid : Valid text columns count more) {after : MoreFile}
    (counted : Valid text columns count after) (known : after.total = count) :
    Valid text columns count
      { after with begin := more.begin, stop := more.stop, line := more.line,
                   prop := more.prop } :=
  ⟨⟨counted.reading.text, counted.reading.width, rfl, valid.reading.stop⟩, valid.line_le,
    counted.cached, counted.total, fun unknown => by dsimp only at unknown; omega⟩

theorem Valid.of_countline (valid : Valid text columns count more) (wide : 2 ≤ columns)
    (steady : Steady text columns) (lines : HasLines text columns count) {fuel : Nat}
    {total : Int} {after : MoreFile} (counted : more.countline fuel = some (total, after)) :
    Valid text columns count after := by
  unfold countline at counted
  split_ifs at counted with known
  · obtain ⟨-, rfl⟩ := Prod.mk.inj (Option.some.inj counted)
    exact valid
  · cases found : lastLn more.ln more.text.lnSize with
    | none =>
      rw [found] at counted
      exact absurd counted (Option.some_ne_none _).symm
    | some entry =>
      obtain ⟨i, cached⟩ := lastLn_eq_some found
      rw [found] at counted
      dsimp only at counted
      cases read : MoreFile.readAll fuel
          { more with line := entry.number, stop := some entry.offset } with
      | none =>
        rw [read] at counted
        exact absurd counted (Option.some_ne_none _).symm
      | some state =>
        rw [read] at counted
        obtain ⟨-, rfl⟩ := Prod.mk.inj (Option.some.inj counted)
        obtain ⟨stateValid, total⟩ := (valid.from_cached cached).of_readAll wide steady lines read
        exact valid.restore stateValid total

end Counting

end States

/-! ## Runs of the pager -/

section Runs

variable (text : Text) (columns : Int)

/-- The states that any calls lead to, from a text that has just been opened. -/
inductive Reached : MoreFile → Prop where
  | opened : Reached (openBuffer text columns)
  | getline {more after : MoreFile} {size : Int} (reached : Reached more)
      (step : more.getline = some (size, after)) : Reached after
  | seek {more after : MoreFile} {line : Int} (reached : Reached more)
      (step : more.seek line = some after) : Reached after
  | countline {more after : MoreFile} {fuel : Nat} {total : Int} (reached : Reached more)
      (step : more.countline fuel = some (total, after)) : Reached after

/-- Seeking a line and reading it delivers what reading all lines up to it does. -/
def SeekAgrees (more : MoreFile) (line : Int) : Prop :=
  ∃ sought size after reference,
    more.seek line = some sought ∧ sought.getline = some (size, after) ∧
      (openBuffer text columns).readTimes line.toNat = some (size, reference) ∧
      after.begin = reference.begin ∧ after.stop = reference.stop ∧
      after.prop.isQuote = reference.prop.isQuote

/-- Counting finds the number of lines and leaves the position as it was. -/
def CountAgrees (more : MoreFile) : Prop :=
  ∃ (fuel count : Nat) (after : MoreFile), more.countline fuel = some ((count : Int), after) ∧
    HasLines text columns count ∧ after.begin = more.begin ∧ after.stop = more.stop ∧
    after.line = more.line ∧ after.prop = more.prop

/-- The quotation that reading is in is the one in front of the line from which the seek reads
on, or one of the lines up to the one that is sought decides. -/
def QuoteKnown (more : MoreFile) (line : Int) : Prop :=
  more.prop.isQuote = quoteAt text columns (more.resume line.toNat).line ∨
    ∃ n, (more.resume line.toNat).line ≤ n ∧ n ≤ line.toNat ∧
      lineStart text columns n < text.size ∧ DecidesQuote text columns (lineStart text columns n)

/-- The number of lines is known already, or there is text and a line of it is remembered. -/
def Countable (more : MoreFile) : Prop :=
  0 ≤ more.total ∨ 0 < text.size ∧ ∃ i < more.text.lnSize, more.ln i ≠ none

variable {text columns}

section Reached

variable {count : Nat} {more : MoreFile} (wide : 2 ≤ columns) (steady : Steady text columns)
  (lines : HasLines text columns count)

include wide steady lines

theorem Reached.valid (reached : Reached text columns more) : Valid text columns count more := by
  induction reached with
  | opened => exact openBuffer_valid text columns count
  | getline _ step ih =>
    obtain ⟨size, after, result, delivers, -⟩ := ih.getline wide steady lines
    obtain ⟨-, rfl⟩ := Prod.mk.inj (Option.some.inj (step.symm.trans result))
    exact delivers.follows.valid
  | seek _ step ih =>
    obtain ⟨after, result, follows, -⟩ := ih.seek wide steady lines _
    obtain rfl := Option.some.inj (step.symm.trans result)
    exact follows.valid
  | countline _ step ih => exact ih.of_countline wide steady lines step

/-- Both ways of coming to a line deliver the same but for the quotation. -/
theorem Valid.seekAgrees_iff_isQuote (valid : Valid text columns count more) (line : Int) :
    ∃ stop, (more.resume line.toNat).line ≤ stop ∧ stop = min (line.toNat + 1) count ∧
      (SeekAgrees text columns more line ↔
        quoteFrom text columns (more.resume line.toNat).line
            (stop - (more.resume line.toNat).line) more.prop.isQuote =
          quoteFrom text columns 0 stop false) := by
  obtain ⟨resumed, line_le, prop⟩ := valid.resume line.toNat
  obtain ⟨sought, seeks, follows, soughtLine⟩ := valid.seek wide steady lines line
  obtain ⟨size, after, step, delivers, -⟩ := follows.valid.getline wide steady lines
  obtain ⟨last, size', reference, final, read, before, lastLine⟩ :=
    (openBuffer_valid text columns count).readTimes wide steady lines line.toNat
  obtain ⟨size'', reference', final', delivers', -⟩ := before.valid.getline wide steady lines
  obtain ⟨rfl, rfl⟩ := Prod.mk.inj (Option.some.inj (final.symm.trans final'))
  have opened : (openBuffer text columns).line = 0 := rfl
  have same : sought.line = last.line := by omega
  have afterLine := delivers.line
  have referenceLine := delivers'.line
  have sameAfter : after.line = reference.line := by omega
  have sizes : size = size' := by rw [delivers.size, delivers'.size, same, sameAfter]
  have quoted := (follows.trans delivers.follows).isQuote
  rw [prop] at quoted
  have quotedReference := (before.trans delivers'.follows).isQuote
  rw [opened, Nat.sub_zero, ← sameAfter] at quotedReference
  have resumedLe := (follows.trans delivers.follows).line_le
  refine ⟨after.line, resumedLe, by omega, ?_⟩
  constructor
  · rintro ⟨sought', size₁, after', reference', seeks', step', read', -, -, equal⟩
    obtain rfl := Option.some.inj (seeks.symm.trans seeks')
    obtain ⟨-, rfl⟩ := Prod.mk.inj (Option.some.inj (step.symm.trans step'))
    obtain ⟨-, rfl⟩ := Prod.mk.inj (Option.some.inj (read.symm.trans read'))
    rw [← quoted, equal, quotedReference]
    rfl
  · intro equal
    refine ⟨sought, size, after, reference, seeks, step, sizes ▸ read, ?_, ?_, ?_⟩
    · rw [delivers.begin, delivers'.begin, same]
    · rw [delivers.stop, delivers'.stop, sameAfter]
    · rw [quoted, equal, quotedReference]
      rfl

theorem Valid.seekAgrees_iff (valid : Valid text columns count more) (line : Int) :
    SeekAgrees text columns more line ↔ QuoteKnown text columns more line := by
  obtain ⟨stop, resumed_le, stop_eq, agrees⟩ :=
    valid.seekAgrees_iff_isQuote wide steady lines line
  rw [agrees, QuoteKnown]
  have split := @quoteFrom_trans text columns 0 (more.resume line.toNat).line stop (Nat.zero_le _)
    resumed_le false
  rw [Nat.sub_zero, Nat.sub_zero] at split
  rw [split, quoteFrom_eq_iff]
  apply or_congr Iff.rfl
  constructor
  · rintro ⟨i, less, decides⟩
    exact ⟨_, Nat.le_add_right _ i, by omega, lines.lt_iff.2 (by omega), decides⟩
  · rintro ⟨n, from_resumed, upTo, inside, decides⟩
    have := lines.lt_iff.1 inside
    refine ⟨n - (more.resume line.toNat).line, by omega, ?_⟩
    rwa [Nat.add_sub_cancel' from_resumed]

theorem Valid.countAgrees_of (valid : Valid text columns count more)
    (countable : Countable text more) : CountAgrees text columns more := by
  by_cases known : 0 ≤ more.total
  · refine ⟨0, count, more, ?_, lines, rfl, rfl, rfl, rfl⟩
    have total : more.total = count := by
      have := valid.total
      omega
    rw [countline, if_pos known, total]
  · obtain known' | ⟨nonempty, i, inside, remembered⟩ := countable
    · exact absurd known' known
    have positive : 0 < count := lines.lt_iff.1 nonempty
    cases found : lastLn more.ln more.text.lnSize with
    | none => exact absurd ((lastLn_eq_none _ _).1 found i inside) remembered
    | some entry =>
      obtain ⟨j, cached⟩ := lastLn_eq_some found
      have from_cached := valid.from_cached cached
      obtain ⟨fuel, after, read⟩ := from_cached.readAll wide steady lines positive
      have total := (from_cached.of_readAll wide steady lines read).2
      refine ⟨fuel, count,
        { after with begin := more.begin, stop := more.stop, line := more.line,
                     prop := more.prop }, ?_, lines, rfl, rfl, rfl, rfl⟩
      rw [countline, if_neg known, found]
      dsimp only
      rw [read, ← total]

theorem Valid.countAgrees_iff (valid : Valid text columns count more) :
    CountAgrees text columns more ↔ Countable text more := by
  constructor
  · rintro ⟨fuel, number, after, counted, -⟩
    rw [Countable]
    by_cases known : 0 ≤ more.total
    · exact Or.inl known
    right
    rw [countline, if_neg known] at counted
    cases found : lastLn more.ln more.text.lnSize with
    | none =>
      rw [found] at counted
      exact absurd counted (Option.some_ne_none _).symm
    | some entry =>
      refine ⟨?_, ?_⟩
      · by_contra empty
        have none : count = 0 := by
          by_contra some
          exact empty (lines.lt_iff.2 (Nat.pos_of_ne_zero some))
        subst none
        obtain ⟨j, cached⟩ := lastLn_eq_some found
        rw [found] at counted
        dsimp only at counted
        rw [(valid.from_cached cached).readAll_empty wide lines (Int.lt_of_not_ge known)] at counted
        exact absurd counted (Option.some_ne_none _).symm
      · by_contra nothing
        have empty : lastLn more.ln more.text.lnSize = none := by
          rw [lastLn_eq_none]
          intro i inside
          by_contra remembered
          exact nothing ⟨i, inside, remembered⟩
        rw [found] at empty
        exact absurd empty (Option.some_ne_none _)
  · exact valid.countAgrees_of wide steady lines

end Reached

/-- In a text whose lines go on, in every state that is reached, seeking agrees with reading from
the start just when the quotation is known, and counting is right just when there is something
to count. -/
theorem seeks_and_counts_iff (text : Text) (columns : Int) (wide : 2 ≤ columns)
    (steady : Steady text columns) {more : MoreFile} (reached : Reached text columns more) :
    (∀ line, SeekAgrees text columns more line ↔ QuoteKnown text columns more line) ∧
      (CountAgrees text columns more ↔ Countable text more) := by
  obtain ⟨count, lines⟩ := steady.hasLines wide
  have valid := reached.valid wide steady lines
  exact ⟨valid.seekAgrees_iff wide steady lines, valid.countAgrees_iff wide steady lines⟩

theorem Reached.readTimes {text : Text} {columns : Int} {more after : MoreFile} {k : Nat}
    {size : Int} (reached : Reached text columns more)
    (read : more.readTimes k = some (size, after)) : Reached text columns after := by
  induction k generalizing more with
  | zero => exact reached.getline read
  | succ k ih =>
    rw [MoreFile.readTimes] at read
    cases step : more.getline with
    | none =>
      rw [step] at read
      exact absurd read (Option.some_ne_none _).symm
    | some result =>
      rw [step] at read
      exact ih (reached.getline step) read

/-- A quotation of one line, and a line behind it. -/
def answered : Text :=
  textOf [62, 32, 97, 10, 98, 10]

theorem answered_steady : Steady answered 80 := by
  have lines : HasLines answered 80 2 := by
    refine ⟨by decide +kernel, fun n less => ?_⟩
    match n, less with
    | 0, _ => decide
    | 1, _ => decide +kernel
  have plain : ∀ i < 6, answered.buf i ≠ escape ∧ answered.buf i ≠ tab := by decide
  intro n inside
  have few := lines.lt_iff.1 inside
  exact ⟨few.trans (by decide), fun isTab => absurd isTab (plain _ inside).2,
    fun ptr _ before escaped => absurd escaped (plain ptr before).1⟩

/-- When the quotation has been read, the line behind it is sought, and the lines are counted. -/
theorem seeks_and_counts_answered :
    ∃ more, Reached answered 80 more ∧ SeekAgrees answered 80 more 1 ∧
      CountAgrees answered 80 more := by
  have one : (((openBuffer answered 80).readTimes 0).map fun result =>
      (result.2.prop.isQuote == quoteAt answered 80 (result.2.resume 1).line,
        decide (0 < result.2.text.lnSize) && (result.2.ln 0).isSome)) = some (true, true) := by
    decide +kernel
  obtain ⟨⟨size, more⟩, read, known⟩ := Option.map_eq_some_iff.mp one
  obtain ⟨isKnown, remembered⟩ := Prod.mk.inj known
  have reached : Reached answered 80 more := Reached.opened.readTimes read
  have both := seeks_and_counts_iff answered 80 (by decide) answered_steady reached
  obtain ⟨room, line⟩ := (Bool.and_eq_true _ _).mp remembered
  exact ⟨more, reached, (both.1 1).mpr (.inl (beq_iff_eq.mp isKnown)), both.2.mpr (.inr
    ⟨by decide, 0, of_decide_eq_true room, Option.isSome_iff_ne_none.mp line⟩)⟩

/-- A long line, and behind the wrap what looks like a quotation. -/
def wrapped : Text :=
  textOf (List.replicate 80 97 ++ [62, 32, 98])

/-- Back at its start the line is taken for a part of the quotation. -/
theorem quotation_carried_back :
    ∃ more, Reached wrapped 80 more ∧ ¬SeekAgrees wrapped 80 more 0 := by
  have two : ((openBuffer wrapped 80).readTimes 1).isSome := by decide +kernel
  obtain ⟨⟨last, more⟩, read⟩ := Option.isSome_iff_exists.1 two
  have back : (((openBuffer wrapped 80).readTimes 1).bind fun result =>
      (result.2.seek 0).bind MoreFile.getline).map (fun result => result.2.prop.isQuote) =
        some true := by decide +kernel
  have first : ((openBuffer wrapped 80).readTimes 0).map (fun result => result.2.prop.isQuote) =
      some false := by decide +kernel
  refine ⟨more, Reached.opened.readTimes read, ?_⟩
  rintro ⟨sought, size, after, reference, seeks, step, again, -, -, quote⟩
  rw [read, Option.bind_some, seeks, Option.bind_some, step] at back
  have again' : (openBuffer wrapped 80).readTimes 0 = some (size, reference) := again
  rw [again'] at first
  have quoted : after.prop.isQuote = true := Option.some.inj back
  have unquoted : reference.prop.isQuote = false := Option.some.inj first
  rw [quote, unquoted] at quoted
  exact absurd quoted (by decide)

end Runs

end Pager

end Fbbs
