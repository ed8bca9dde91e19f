import Fbbs.ScreenUpdates

/-!
# Strings on the screen

`screen_puts` looks its line up once and goes on with it after a newline, although the cursor
is on the next line then, and it has no limit for columns.
-/

namespace Fbbs

namespace ScreenBuffer

/-! ## Steps -/

/-- The body of the loop of `screen_puts`. -/
def putsStep (place : Nat) (screen : Screen) (c : UInt8) : Screen :=
  let sl := screen.buf place
  if isNewline c then
    { screen with
      buf := Function.update screen.buf place (cutLine sl screen.curCol)
      curCol := 0
      curLn := if screen.curLn < screen.lines then screen.curLn + 1 else screen.curLn }
  else
    { screen with
      buf := Function.update screen.buf place (putChar sl screen.curCol c)
      curCol := screen.curCol + 1 }

theorem putsLoop_cons (c : UInt8) (rest : Bytes) (place : Nat) (screen : Screen) :
    putsLoop (c :: rest) place screen = putsLoop rest place (putsStep place screen c) := by
  rw [putsLoop, putsStep]
  split <;> rfl

theorem putsLoop_append (first second : Bytes) (place : Nat) (screen : Screen) :
    putsLoop (first ++ second) place screen =
      putsLoop second place (putsLoop first place screen) := by
  induction first generalizing screen with
  | nil => rfl
  | cons c rest ih => rw [List.cons_append, putsLoop_cons, putsLoop_cons, ih]

section Step

variable (place : Nat) (screen : Screen) (c : UInt8)

@[simp]
theorem putsStep_lines : (putsStep place screen c).lines = screen.lines := by
  unfold putsStep
  split <;> rfl

@[simp]
theorem putsStep_roll : (putsStep place screen c).roll = screen.roll := by
  unfold putsStep
  split <;> rfl

theorem putsStep_buf_of_ne {other : Nat} (apart : other ≠ place) :
    (putsStep place screen c).buf other = screen.buf other := by
  unfold putsStep
  split <;> exact Function.update_of_ne apart _ _

theorem putsStep_curCol :
    (putsStep place screen c).curCol = if isNewline c then 0 else screen.curCol + 1 := by
  unfold putsStep
  split <;> rfl

theorem putsStep_buf :
    (putsStep place screen c).buf place =
      if isNewline c then cutLine (screen.buf place) screen.curCol
      else putChar (screen.buf place) screen.curCol c := by
  unfold putsStep
  split <;> exact Function.update_self _ _ _

end Step

section Loop

variable (string : Bytes) (place : Nat) (screen : Screen)

theorem putsLoop_lines : (putsLoop string place screen).lines = screen.lines := by
  induction string generalizing screen with
  | nil => rfl
  | cons c rest ih => rw [putsLoop_cons, ih, putsStep_lines]

theorem putsLoop_roll : (putsLoop string place screen).roll = screen.roll := by
  induction string generalizing screen with
  | nil => rfl
  | cons c rest ih => rw [putsLoop_cons, ih, putsStep_roll]

/-- Only the line that was looked up changes. -/
theorem putsLoop_buf_of_ne {other : Nat} (apart : other ≠ place) :
    (putsLoop string place screen).buf other = screen.buf other := by
  induction string generalizing screen with
  | nil => rfl
  | cons c rest ih => rw [putsLoop_cons, ih, putsStep_buf_of_ne place screen c apart]

/-- Each newline moves the cursor down, until it has left the screen. -/
theorem putsLoop_curLn (inside : screen.curLn ≤ screen.lines) :
    (putsLoop string place screen).curLn =
      min (screen.curLn + string.countP isNewline) screen.lines := by
  induction string generalizing screen with
  | nil => exact (Nat.min_eq_left inside).symm
  | cons c rest ih =>
    rw [putsLoop_cons]
    by_cases newline : isNewline c = true
    · have moved : (putsStep place screen c).curLn =
          if screen.curLn < screen.lines then screen.curLn + 1 else screen.curLn := by
        rw [putsStep, if_pos newline]
      rw [ih _ (by rw [moved, putsStep_lines]; split <;> omega), moved, putsStep_lines,
        List.countP_cons, if_pos newline]
      split <;> omega
    · have kept : (putsStep place screen c).curLn = screen.curLn := by
        rw [putsStep, if_neg newline]
      rw [ih _ (by rw [kept, putsStep_lines]; exact inside), kept, putsStep_lines,
        List.countP_cons, if_neg newline, Nat.add_zero]

end Loop

/-! ## Strings in pieces -/

/-- The lines of a string all have the slot of the first: it has no newline, or the cursor
leaves the screen from its first line. -/
def SameSlot (screen : Screen) (string : Bytes) : Prop :=
  (∀ c ∈ string, isNewline c = false) ∨
    screen.curLn = 0 ∧ screen.lines ≤ string.countP isNewline

section Pieces

variable {screen : Screen} (inside : screen.curLn < screen.lines) (string : Bytes)

include inside in
theorem slot_screenPuts_iff :
    slot (screenPuts string screen) (screenPuts string screen).curLn =
      slot screen screen.curLn ↔ SameSlot screen string := by
  have curLn := putsLoop_curLn string (slot screen screen.curLn) screen inside.le
  have sameGeometry : ∀ line, slot (screenPuts string screen) line = slot screen line := by
    intro line
    rw [slot, slot, screenPuts, putsLoop_lines, putsLoop_roll]
  rw [sameGeometry, screenPuts, curLn]
  have none : string.countP isNewline = 0 ↔ ∀ c ∈ string, isNewline c = false := by
    simp [List.countP_eq_zero]
  rw [SameSlot, ← none]
  by_cases below : screen.curLn + string.countP isNewline < screen.lines
  · rw [Nat.min_eq_left below.le]
    constructor
    · intro same
      have equal := slot_inj below inside same
      omega
    · rintro (zero | ⟨zero, many⟩)
      · rw [zero, Nat.add_zero]
      · omega
  · rw [Nat.min_eq_right (by omega)]
    -- The line behind the last one has the slot of the first one.
    have wraps : slot screen screen.lines = slot screen 0 := by
      rw [← slot_mod, Nat.mod_self]
    rw [wraps]
    constructor
    · intro same
      have first := slot_inj (by omega) inside same
      omega
    · rintro (zero | ⟨zero, -⟩)
      · omega
      · rw [zero]

include inside in
/-- What follows a string is written as if it came with it. -/
theorem composes_iff :
    (∀ rest, screenPuts (string ++ rest) screen = screenPuts rest (screenPuts string screen)) ↔
      SameSlot screen string := by
  rw [← slot_screenPuts_iff inside string]
  have joined : ∀ rest, screenPuts (string ++ rest) screen =
      putsLoop rest (slot screen screen.curLn) (screenPuts string screen) :=
    fun rest => putsLoop_append string rest _ screen
  constructor
  · intro composes
    by_contra apart
    generalize next : screenPuts string screen = after at *
    generalize place : slot after after.curLn = q at apart
    -- A character that the line of the cursor does not have yet.
    obtain ⟨c, plain, new⟩ : ∃ c, isNewline c = false ∧ (after.buf q).data after.curCol ≠ c := by
      by_cases letter : (after.buf q).data after.curCol = 65
      · exact ⟨66, rfl, by rw [letter]; decide⟩
      · exact ⟨65, rfl, letter⟩
    have equal : putsStep (slot screen screen.curLn) after c = putsStep q after c := by
      have same := composes [c]
      rw [joined] at same
      unfold screenPuts at same
      rw [place, putsLoop_cons, putsLoop_cons] at same
      exact same
    have unchanged := putsStep_buf_of_ne (slot screen screen.curLn) after c apart
    rw [equal, putsStep_buf, plain, if_neg Bool.false_ne_true] at unchanged
    have written : (putChar (after.buf q) after.curCol c).data after.curCol = c := if_pos rfl
    rw [unchanged] at written
    exact new written
  · intro same rest
    rw [joined, ← same]
    rfl

end Pieces

/-! ## Writes -/

/-- The indexes of a line that one character of a string writes. -/
def lineWrites (sl : Line) (col : Nat) (c : UInt8) : List Nat :=
  if isNewline c then if col > sl.len then List.range' sl.len (col - sl.len + 1) else []
  else (if col > sl.len then List.range' sl.len (col - sl.len) else []) ++ [col]

/-- The lines of the buffer and the indexes in them that `screen_puts` writes. -/
def putsWrites : Bytes → Nat → Screen → List (Nat × Nat)
  | [], _, _ => []
  | c :: rest, place, screen =>
    (lineWrites (screen.buf place) screen.curCol c).map (fun index => (place, index)) ++
      putsWrites rest place (putsStep place screen c)

/-- Each line of a string ends before the end of the data. -/
def linesFit : Bytes → Nat → Bool
  | [], _ => true
  | c :: rest, col =>
    if isNewline c then linesFit rest 0
    else decide (col < screenLineLen) && linesFit rest (col + 1)

/-- A column that a line can be filled up to. -/
def ColumnOk (sl : Line) (col : Nat) : Prop :=
  col ≤ sl.len ∨ col < screenLineLen

theorem lineWrites_inside_iff {sl : Line} {col : Nat} (ok : ColumnOk sl col) (c : UInt8) :
    (∀ index ∈ lineWrites sl col c, index < screenLineLen) ↔
      isNewline c = true ∨ col < screenLineLen := by
  unfold ColumnOk at ok
  unfold lineWrites
  by_cases newline : isNewline c = true
  · rw [if_pos newline]
    apply iff_of_true _ (Or.inl newline)
    intro index member
    split at member
    · rw [List.mem_range'_1] at member
      omega
    · cases member
  · rw [if_neg newline]
    constructor
    · intro all
      exact Or.inr (all col (by simp))
    · rintro (isNew | short)
      · exact absurd isNew newline
      · intro index member
        rw [List.mem_append, List.mem_singleton] at member
        rcases member with padding | rfl
        · split at padding
          · rw [List.mem_range'_1] at padding
            omega
          · cases padding
        · exact short

theorem columnOk_putsStep {place : Nat} {screen : Screen} (c : UInt8) :
    ColumnOk ((putsStep place screen c).buf place) (putsStep place screen c).curCol := by
  apply Or.inl
  rw [putsStep_curCol, putsStep_buf]
  split
  · exact Nat.zero_le _
  · rw [putChar]
    simp only
    split <;> omega

/-- The writes of a string stay in its line of the buffer when each of its lines fits. -/
theorem putsWrites_inside_iff {place : Nat} {screen : Screen} (slotOk : place < screen.lines)
    (ok : ColumnOk (screen.buf place) screen.curCol) (string : Bytes) :
    (∀ write ∈ putsWrites string place screen,
      write.1 < screen.lines ∧ write.2 < screenLineLen) ↔
      linesFit string screen.curCol = true := by
  induction string generalizing screen with
  | nil => exact iff_of_true (fun _ member => absurd member List.not_mem_nil) rfl
  | cons c rest ih =>
    have next := @ih (putsStep place screen c) (by rw [putsStep_lines]; exact slotOk)
      (columnOk_putsStep c)
    rw [putsStep_lines] at next
    have first : (∀ write ∈ (lineWrites (screen.buf place) screen.curCol c).map
        (fun index => (place, index)), write.1 < screen.lines ∧ write.2 < screenLineLen) ↔
        isNewline c = true ∨ screen.curCol < screenLineLen := by
      rw [← lineWrites_inside_iff ok c, List.forall_mem_map]
      constructor
      · exact fun all index member => (all index member).2
      · exact fun all index member => ⟨slotOk, all index member⟩
    rw [putsWrites, List.forall_mem_append, first, next]
    by_cases newline : isNewline c = true
    · have column : (putsStep place screen c).curCol = 0 := by
        rw [putsStep_curCol, if_pos newline]
      rw [column, linesFit, if_pos newline]
      exact and_iff_right (Or.inl newline)
    · have column : (putsStep place screen c).curCol = screen.curCol + 1 := by
        rw [putsStep_curCol, if_neg newline]
      rw [column, linesFit, if_neg newline, Bool.and_eq_true, decide_eq_true_iff]
      exact and_congr_left' (or_iff_right newline)

/-! ## Both together -/

structure CursorInside (screen : Screen) : Prop where
  line : screen.curLn < screen.lines
  column : screen.curCol < screen.columns
  columns : screen.columns ≤ screenLineLen

/-- What comes after the string can as well be part of it, and the string is written to the
data of a line of the buffer. -/
structure PutsWell (screen : Screen) (string : Bytes) : Prop where
  composes : ∀ rest,
    screenPuts (string ++ rest) screen = screenPuts rest (screenPuts string screen)
  bounded : ∀ write ∈ putsWrites string (slot screen screen.curLn) screen,
    write.1 < screen.lines ∧ write.2 < screenLineLen

theorem putsWell_iff {screen : Screen} (cursor : CursorInside screen) (string : Bytes) :
    PutsWell screen string ↔
      SameSlot screen string ∧ linesFit string screen.curCol = true := by
  have slotOk : slot screen screen.curLn < screen.lines :=
    Nat.mod_lt _ (Nat.zero_lt_of_lt cursor.line)
  have ok : ColumnOk (screen.buf (slot screen screen.curLn)) screen.curCol :=
    Or.inr (Nat.lt_of_lt_of_le cursor.column cursor.columns)
  have composes := composes_iff cursor.line string
  have bounded := putsWrites_inside_iff slotOk ok string
  constructor
  · intro well
    exact ⟨composes.mp well.composes, bounded.mp well.bounded⟩
  · rintro ⟨same, fits⟩
    exact ⟨composes.mpr same, bounded.mpr fits⟩

def emptyScreen : Screen where
  buf _ := ⟨0, 0, false, fun _ => 0⟩
  columns := 255
  lines := 24
  curLn := 0
  curCol := 0
  tcLine := 0
  tcCol := 0
  roll := 0
  scrollcnt := 0
  redraw := true
  utf8 := false

theorem emptyScreen_cursorInside : CursorInside emptyScreen :=
  ⟨by decide, by decide, by decide⟩

theorem emptyScreen_putsWell : PutsWell emptyScreen [97, 98] :=
  (putsWell_iff emptyScreen_cursorInside [97, 98]).mpr ⟨Or.inl (by simp [isNewline]), by decide⟩

/-- After a newline the text stays on the line before. -/
theorem newline_not_putsWell : ¬PutsWell emptyScreen [10] := by
  intro well
  have same := well.composes [97]
  have joined : ((screenPuts ([10] ++ [97]) emptyScreen).buf 1).len = 0 := rfl
  have apart : ((screenPuts [97] (screenPuts [10] emptyScreen)).buf 1).len = 1 := rfl
  rw [same, apart] at joined
  cases joined

end ScreenBuffer

end Fbbs
