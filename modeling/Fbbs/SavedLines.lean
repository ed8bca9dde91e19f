import Fbbs.ScreenPuts

/-!
# Saved lines

`screen_save_line` and `saveline_buf` keep the text of a line and print it again later.  They
take the line from the buffer directly, whether or not the buffer has rolled, and print it
where the cursor finds it.  The data of a line are not terminated.
-/

namespace Fbbs

namespace ScreenBuffer

open TerminalGrid

/-! ## Text of lines -/

/-- Lengths and data of the lines and their places are the same. -/
structure SameText (screen other : Screen) : Prop where
  lines : other.lines = screen.lines
  roll : other.roll = screen.roll
  len : ∀ i, (other.buf i).len = (screen.buf i).len
  data : ∀ i, (other.buf i).data = (screen.buf i).data

theorem setLine_buf (screen : Screen) (i j : Nat) (sl : Line) :
    (setLine screen i sl).buf j = if j = slot screen i then sl else screen.buf j :=
  Function.update_apply screen.buf (slot screen i) sl j

namespace SameText

theorem refl (screen : Screen) : SameText screen screen :=
  ⟨rfl, rfl, fun _ => rfl, fun _ => rfl⟩

theorem trans {first second third : Screen} (left : SameText first second)
    (right : SameText second third) : SameText first third where
  lines := right.lines.trans left.lines
  roll := right.roll.trans left.roll
  len i := (right.len i).trans (left.len i)
  data i := (right.data i).trans (left.data i)

theorem of_buf_eq {screen other : Screen} (buf : other.buf = screen.buf)
    (lines : other.lines = screen.lines) (roll : other.roll = screen.roll) :
    SameText screen other :=
  ⟨lines, roll, fun i => by rw [buf], fun i => by rw [buf]⟩

theorem setLine {screen : Screen} {i : Nat} {sl : Line}
    (len : sl.len = (getScreenLine screen i).len)
    (data : sl.data = (getScreenLine screen i).data) :
    SameText screen (ScreenBuffer.setLine screen i sl) where
  lines := rfl
  roll := rfl
  len j := by
    rw [setLine_buf]
    split
    · rename_i here
      rw [len, here]
      rfl
    · rfl
  data j := by
    rw [setLine_buf]
    split
    · rename_i here
      rw [data, here]
      rfl
    · rfl

theorem foldl {body : Session → Nat → Session}
    (keeps : ∀ s i, SameText s.screen (body s i).screen) (list : List Nat) (s : Session) :
    SameText s.screen (list.foldl body s).screen := by
  induction list generalizing s with
  | nil => exact refl s.screen
  | cons i rest ih => exact (keeps s i).trans (ih (body s i))

theorem getScreenLine_len {screen other : Screen} (same : SameText screen other) (i : Nat) :
    (getScreenLine other i).len = (getScreenLine screen i).len := by
  rw [getScreenLine, slot, same.lines, same.roll, same.len]
  rfl

theorem getScreenLine_data {screen other : Screen} (same : SameText screen other) (i : Nat) :
    (getScreenLine other i).data = (getScreenLine screen i).data := by
  rw [getScreenLine, slot, same.lines, same.roll, same.data]
  rfl

theorem bytes {screen other : Screen} (same : SameText screen other) (i : Nat) :
    (getScreenLine other i).bytes = (getScreenLine screen i).bytes := by
  rw [Line.bytes, Line.bytes, same.getScreenLine_len, same.getScreenLine_data]

end SameText

/-! ## Flushing keeps the text -/

theorem moveTerminalCursor_sameText (col line : Nat) (s : Session) :
    SameText s.screen (moveTerminalCursor col line s).screen := by
  apply SameText.of_buf_eq <;> unfold moveTerminalCursor <;> dsimp only <;> split_ifs <;> rfl

section Flush

variable (convert : Bytes → Bytes)

theorem redrawLine_sameText (s : Session) (i : Nat) :
    SameText s.screen (redrawLine convert s i).screen := by
  unfold redrawLine
  by_cases empty : (getScreenLine s.screen i).len = 0
  · rw [if_pos empty]
    exact SameText.refl _
  · rw [if_neg empty]
    have moved := moveTerminalCursor_sameText 0 i s
    apply moved.trans
    generalize moveTerminalCursor 0 i s = t at moved
    have settles : SameText t.screen (setLine t.screen i (settled (getScreenLine s.screen i))) :=
      SameText.setLine (moved.getScreenLine_len i).symm (moved.getScreenLine_data i).symm
    exact settles.trans (SameText.of_buf_eq rfl rfl rfl)

theorem flushModified_sameText (s : Session) (i : Nat) :
    SameText s.screen (flushModified convert s i).screen := by
  unfold flushModified
  by_cases modified : (getScreenLine s.screen i).modified = true
  · rw [if_pos modified]
    have marked : SameText s.screen (setLine s.screen i
        { getScreenLine s.screen i with modified := false }) :=
      SameText.setLine rfl rfl
    have moved := moveTerminalCursor_sameText 0 i
      { s with screen := setLine s.screen i { getScreenLine s.screen i with modified := false } }
    apply (marked.trans moved).trans
    dsimp only
    split <;> exact SameText.of_buf_eq rfl rfl rfl
  · rw [if_neg modified]
    exact SameText.refl _

theorem flushShorter_sameText (s : Session) (i : Nat) :
    SameText s.screen (flushShorter s i).screen := by
  unfold flushShorter
  dsimp only
  split
  · have moved := moveTerminalCursor_sameText (getScreenLine s.screen i).len i s
    apply moved.trans
    apply SameText.setLine
    · exact (moved.getScreenLine_len i).symm
    · exact (moved.getScreenLine_data i).symm
  · exact SameText.setLine rfl rfl

theorem moveSend_sameText (moves : Prop) [Decidable moves] (col line : Nat)
    (commands : List Command) (s : Session) :
    SameText s.screen
      (if moves then (moveTerminalCursor col line s).send commands else s).screen := by
  split
  · exact moveTerminalCursor_sameText col line s
  · exact SameText.refl _

theorem flushScrolls_sameText (s : Session) : SameText s.screen (flushScrolls s).screen := by
  unfold flushScrolls
  have first := moveSend_sameText (s.screen.scrollcnt < 0) 0 0
    (List.replicate s.screen.scrollcnt.natAbs .scrollReverse) s
  generalize (if s.screen.scrollcnt < 0 then (moveTerminalCursor 0 0 s).send _ else s) = t
    at first ⊢
  have second := moveSend_sameText (t.screen.scrollcnt > 0) 0 (t.screen.lines - 1)
    (List.replicate t.screen.scrollcnt.natAbs .lineFeed) t
  exact (first.trans second).trans (SameText.of_buf_eq rfl rfl rfl)

theorem screenRedraw_sameText (s : Session) :
    SameText s.screen (screenRedraw convert s).screen := by
  unfold screenRedraw
  have lines := SameText.foldl (redrawLine_sameText convert) (List.range s.screen.lines)
    { s.send [.clearScreen] with
      screen := { (s.send [.clearScreen]).screen with tcCol := 0, tcLine := 0 } }
  have start : SameText s.screen { s.screen with tcCol := 0, tcLine := 0 } :=
    SameText.of_buf_eq rfl rfl rfl
  exact ((start.trans lines).trans (moveTerminalCursor_sameText _ _ _)).trans
    (SameText.of_buf_eq rfl rfl rfl)

theorem screenFlush_sameText (inputEmpty : Bool) (s : Session) :
    SameText s.screen (screenFlush convert inputEmpty s).screen := by
  unfold screenFlush
  split
  · exact SameText.refl _
  split
  · exact screenRedraw_sameText convert s
  · have line : ∀ t i, SameText t.screen (flushLine convert t i).screen :=
      fun t i => (flushModified_sameText convert t i).trans (flushShorter_sameText _ i)
    have lines := SameText.foldl line (List.range (flushScrolls s).screen.lines) (flushScrolls s)
    exact ((flushScrolls_sameText s).trans lines).trans (moveTerminalCursor_sameText _ _ _)

end Flush

/-! ## Saving and restoring -/

/-- `MAX_MSG_LINE * 2 + 2`. -/
def savedRows : Nat := 6

/-- A line that is counted from the bottom when it is negative. -/
def lineNumber (screen : Screen) (line : Int) : Int :=
  if line < 0 then line + screen.lines else line

/-- The string at the beginning of the data; `none` when it is not terminated there. -/
def dataText (data : Nat → UInt8) : Option Bytes :=
  let text := ((List.range screenLineLen).map data).takeWhile (· != 0)
  if text.length < screenLineLen then some text else none

/-- `screen_save_line(line, true)`. -/
def screenSaveLine (line : Int) (screen : Screen) : Option Bytes :=
  dataText (screen.buf (lineNumber screen line).toNat).data

/-- `screen_clear_line`. -/
def screenClearLine (line : Nat) (screen : Screen) : Screen :=
  { screen with
    buf := Function.update screen.buf line { screen.buf line with modified := false, len := 0 } }

/-- `saveline_buf(line, 0)`; `none` where it leaves `temp` or a row of it. -/
def savelineBufSave (line : Nat) (screen : Screen) : Option Bytes :=
  let sl := screen.buf line
  if line < savedRows ∧ sl.len < screenLineLen then some (sl.bytes.takeWhile (· != 0)) else none

section Restore

-- The conversion from GBK to UTF-8 of `iconv`, in the pieces that `convert` hands on.
variable (toUtf8 : Bytes → List Bytes)

/-- `prints("%s", text)`. -/
def prints (text : Bytes) (screen : Screen) : Screen :=
  (toUtf8 text).foldl (fun screen piece => screenPuts piece screen) screen

/-- `screen_save_line(line, false)`. -/
def screenRestoreLine (convert : Bytes → Bytes) (inputEmpty : Bool) (line : Int) (saved : Bytes)
    (s : Session) : Session :=
  let cleared := screenMoveClear (lineNumber s.screen line) s.screen
  let screen := move s.screen.curLn s.screen.curCol (prints toUtf8 saved cleared)
  screenFlush convert inputEmpty { s with screen }

/-- `saveline_buf(line, 1)`. -/
def savelineBufRestore (line : Nat) (saved : Bytes) (screen : Screen) : Screen :=
  move screen.curLn screen.curCol
    (prints toUtf8 saved (screenClearLine line (move line 0 screen)))

end Restore

/-- ASCII is the same in GBK and in UTF-8. -/
def KeepsText (toUtf8 : Bytes → List Bytes) : Prop :=
  ∀ text, (∀ c ∈ text, isPrint c = true) → (toUtf8 text).flatten = text

/-- A visible line has been overwritten. -/
structure Overwritten (screen written : Screen) (number : Nat) : Prop where
  lines : written.lines = screen.lines
  roll : written.roll = screen.roll
  others : ∀ i < screen.lines, i ≠ number → getScreenLine written i = getScreenLine screen i

/-- All visible lines have the lengths and bytes that they had. -/
def ShowsAgain (screen after : Screen) : Prop :=
  ∀ i < screen.lines, (getScreenLine after i).bytes = (getScreenLine screen i).bytes

/-- What `screen_save_line` has saved comes back after the line has been overwritten. -/
def SaveLineWorks (screen : Screen) (line : Int) : Prop :=
  ∃ saved, screenSaveLine line screen = some saved ∧
    ∀ toUtf8 convert, KeepsText toUtf8 → ∀ (written : Session) (inputEmpty : Bool),
      Overwritten screen written.screen (lineNumber screen line).toNat →
        ShowsAgain screen (screenRestoreLine toUtf8 convert inputEmpty line saved written).screen

/-- What `saveline_buf` has saved comes back after the line has been overwritten. -/
def SavelineBufWorks (screen : Screen) (line : Nat) : Prop :=
  ∃ saved, savelineBufSave line screen = some saved ∧
    ∀ toUtf8, KeepsText toUtf8 → ∀ written, Overwritten screen written line →
      ShowsAgain screen (savelineBufRestore toUtf8 line saved written)

/-! ## Printing on an empty line -/

theorem isNewline_of_isPrint {c : UInt8} (printable : isPrint c = true) : isNewline c = false := by
  grind [isPrint, isNewline]

/-- A character at the end of a line is appended to it. -/
theorem putChar_bytes (sl : Line) (c : UInt8) : (putChar sl sl.len c).bytes = sl.bytes ++ [c] := by
  have len : (putChar sl sl.len c).len = sl.len + 1 := if_pos (Nat.lt_succ_self _)
  have data : ∀ i < sl.len, (putChar sl sl.len c).data i = sl.data i := by
    intro i inside
    rw [putChar]
    simp only [gt_iff_lt, Nat.lt_irrefl, if_false]
    exact if_neg (Nat.ne_of_lt inside)
  have last : (putChar sl sl.len c).data sl.len = c := if_pos rfl
  rw [Line.bytes, len, List.range_succ, List.map_append, List.map_singleton, last]
  congr 1
  apply List.map_congr_left
  intro i member
  exact data i (List.mem_range.mp member)

/-- A text without newlines at the end of a line. -/
theorem putsLoop_bytes {text : Bytes} (plain : ∀ c ∈ text, isNewline c = false) {place : Nat}
    {screen : Screen} (column : screen.curCol = (screen.buf place).len) :
    ((putsLoop text place screen).buf place).bytes = (screen.buf place).bytes ++ text := by
  induction text generalizing screen with
  | nil => exact (List.append_nil _).symm
  | cons c rest ih =>
    have plainHere := plain c List.mem_cons_self
    have next : (putsStep place screen c).buf place = putChar (screen.buf place) screen.curCol c := by
      rw [putsStep_buf, plainHere]
      rfl
    have columnNext : (putsStep place screen c).curCol =
        ((putsStep place screen c).buf place).len := by
      rw [putsStep_curCol, plainHere, next, column]
      exact (if_pos (Nat.lt_succ_self _)).symm
    rw [putsLoop_cons, ih (fun d member => plain d (List.mem_cons_of_mem c member)) columnNext,
      next, column, putChar_bytes, List.append_assoc]
    rfl

/-- Pieces without newlines are printed like the whole text. -/
theorem prints_eq {pieces : List Bytes} (plain : ∀ c ∈ pieces.flatten, isNewline c = false)
    {screen : Screen} (inside : screen.curLn < screen.lines) :
    pieces.foldl (fun screen piece => screenPuts piece screen) screen =
      screenPuts pieces.flatten screen := by
  induction pieces generalizing screen with
  | nil => rfl
  | cons piece rest ih =>
    have plainHere : ∀ c ∈ piece, isNewline c = false :=
      fun c member => plain c (List.mem_append_left _ member)
    have plainRest : ∀ c ∈ rest.flatten, isNewline c = false :=
      fun c member => plain c (List.mem_append_right _ member)
    have stays : (screenPuts piece screen).curLn = screen.curLn := by
      rw [screenPuts, putsLoop_curLn _ _ _ inside.le,
        List.countP_eq_zero.mpr fun c member => by rw [plainHere c member]; decide,
        Nat.add_zero, Nat.min_eq_left inside.le]
    rw [List.foldl_cons, List.flatten_cons,
      (composes_iff inside piece).mpr (Or.inl plainHere) rest.flatten]
    apply ih plainRest
    rw [stays, screenPuts, putsLoop_lines]
    exact inside

/-- A line that has been cleared under the cursor. -/
structure ClearedAt (screen : Screen) (number : Nat) : Prop where
  inside : number < screen.lines
  curLn : screen.curLn = number
  curCol : screen.curCol = 0
  empty : (getScreenLine screen number).len = 0

section Cleared

variable {toUtf8 : Bytes → List Bytes} {text : Bytes}
  (plain : ∀ c ∈ (toUtf8 text).flatten, isNewline c = false)
  {screen : Screen} {number : Nat} (cleared : ClearedAt screen number)

include plain cleared in
theorem prints_eq_putsLoop :
    prints toUtf8 text screen = putsLoop (toUtf8 text).flatten (slot screen number) screen := by
  rw [prints, prints_eq plain (cleared.curLn.symm ▸ cleared.inside), screenPuts, cleared.curLn]

include plain cleared in
theorem slot_prints (i : Nat) : slot (prints toUtf8 text screen) i = slot screen i := by
  rw [prints_eq_putsLoop plain cleared, slot, putsLoop_lines, putsLoop_roll]
  rfl

include plain cleared in
/-- The text is printed on the line. -/
theorem bytes_prints :
    (getScreenLine (prints toUtf8 text screen) number).bytes = (toUtf8 text).flatten := by
  have column : screen.curCol = (screen.buf (slot screen number)).len :=
    cleared.curCol.trans cleared.empty.symm
  have nothing : (screen.buf (slot screen number)).bytes = [] := by
    have empty : (screen.buf (slot screen number)).len = 0 := cleared.empty
    rw [Line.bytes, empty]
    rfl
  rw [getScreenLine, slot_prints plain cleared, prints_eq_putsLoop plain cleared,
    putsLoop_bytes plain column, nothing, List.nil_append]

include plain cleared in
theorem getScreenLine_prints_of_ne {i : Nat} (below : i < screen.lines) (apart : i ≠ number) :
    getScreenLine (prints toUtf8 text screen) i = getScreenLine screen i := by
  rw [getScreenLine, slot_prints plain cleared, prints_eq_putsLoop plain cleared]
  apply putsLoop_buf_of_ne
  exact fun equal => apart (slot_inj below cleared.inside equal)

end Cleared

theorem printable_of_keepsText {toUtf8 : Bytes → List Bytes} (keeps : KeepsText toUtf8)
    {text : Bytes} (printable : ∀ c ∈ text, isPrint c = true) :
    ∀ c ∈ (toUtf8 text).flatten, isNewline c = false := by
  rw [keeps text printable]
  exact fun c member => isNewline_of_isPrint (printable c member)

/-! ## One line -/

section SaveLine

variable {screen : Screen} {line : Int} {number : Nat} (here : lineNumber screen line = number)
  (inside : number < screen.lines)

include here in
theorem screenMoveClear_eq (written : Screen) (lines : written.lines = screen.lines) :
    screenMoveClear (lineNumber written line) written =
      setLine { written with curCol := 0, curLn := number } number
        (cutLine (getScreenLine written number) 0) := by
  have sameNumber : lineNumber written line = number := by
    rw [← here, lineNumber, lineNumber, lines]
  have moved : move (number : Int) 0 written = { written with curCol := 0, curLn := number } := by
    rw [move, if_neg (by omega), Int.toNat_natCast]
  rw [screenMoveClear, clrtoeol, sameNumber, moved]
  rfl

include inside in
theorem clearedAt_setLine {written : Screen} (lines : written.lines = screen.lines) :
    ClearedAt (setLine { written with curCol := 0, curLn := number } number
      (cutLine (getScreenLine written number) 0)) number where
  inside := lines.symm ▸ inside
  curLn := rfl
  curCol := rfl
  empty := congrArg Line.len (getScreenLine_setLine_self _ _ _)

include here inside in
/-- The saved text is printed in place of the line. -/
theorem bytes_screenRestoreLine {toUtf8 : Bytes → List Bytes} {saved : Bytes}
    (plain : ∀ c ∈ (toUtf8 saved).flatten, isNewline c = false) (convert : Bytes → Bytes)
    (inputEmpty : Bool) {written : Session} (overwritten : Overwritten screen written.screen number) :
    (∀ i < screen.lines, i ≠ number →
      (getScreenLine (screenRestoreLine toUtf8 convert inputEmpty line saved written).screen i).bytes =
        (getScreenLine screen i).bytes) ∧
    (getScreenLine (screenRestoreLine toUtf8 convert inputEmpty line saved written).screen number).bytes =
      (toUtf8 saved).flatten := by
  have cleared := clearedAt_setLine inside overwritten.lines
  have flushed := screenFlush_sameText convert inputEmpty
    { written with
      screen := move written.screen.curLn written.screen.curCol
        (prints toUtf8 saved (screenMoveClear (lineNumber written.screen line) written.screen)) }
  rw [screenMoveClear_eq here written.screen overwritten.lines] at flushed
  rw [screenRestoreLine, screenMoveClear_eq here written.screen overwritten.lines]
  constructor
  · intro i below apart
    rw [flushed.bytes i]
    change (getScreenLine (prints toUtf8 saved _) i).bytes = _
    rw [getScreenLine_prints_of_ne plain cleared (overwritten.lines.symm ▸ below) apart,
      getScreenLine_setLine (overwritten.lines.symm ▸ inside) (overwritten.lines.symm ▸ below),
      if_neg apart]
    exact congrArg Line.bytes (overwritten.others i below apart)
  · rw [flushed.bytes number]
    exact bytes_prints plain cleared

theorem overwritten_self (screen : Screen) (number : Nat) : Overwritten screen screen number :=
  ⟨rfl, rfl, fun _ _ _ => rfl⟩

def sessionOf (screen : Screen) : Session where
  screen := screen
  terminal := ⟨fun _ _ => blank, 0, 0⟩

include here inside in
/-- The line comes back when the string at the beginning of the data is its text. -/
theorem saveLineWorks_iff
    (printable : ∀ c ∈ (getScreenLine screen number).bytes, isPrint c = true) :
    SaveLineWorks screen line ↔
      dataText (screen.buf number).data = some (getScreenLine screen number).bytes := by
  have save : screenSaveLine line screen = dataText (screen.buf number).data := by
    rw [screenSaveLine, here, Int.toNat_natCast]
  unfold SaveLineWorks
  rw [save, here, Int.toNat_natCast]
  constructor
  · rintro ⟨saved, found, works⟩
    rw [found]
    -- A conversion that shows a difference where the text is not ASCII.
    let toUtf8 : Bytes → List Bytes := fun text =>
      if ∀ c ∈ text, isPrint c = true then [text]
      else [(getScreenLine screen number).bytes ++ [33]]
    have keeps : KeepsText toUtf8 := by
      intro text ascii
      simp only [toUtf8, if_pos ascii, List.flatten_singleton]
    have plain : ∀ c ∈ (toUtf8 saved).flatten, isNewline c = false := by
      by_cases ascii : ∀ c ∈ saved, isPrint c = true
      · exact printable_of_keepsText keeps ascii
      · simp only [toUtf8, if_neg ascii, List.flatten_singleton]
        intro c member
        rcases List.mem_append.mp member with old | new
        · exact isNewline_of_isPrint (printable c old)
        · rw [List.mem_singleton.mp new]
          rfl
    have itself : Overwritten screen (sessionOf screen).screen number :=
      overwritten_self screen number
    have shown := works toUtf8 id keeps (sessionOf screen) true itself number inside
    rw [(bytes_screenRestoreLine here inside plain id true itself).2] at shown
    by_cases ascii : ∀ c ∈ saved, isPrint c = true
    · rw [keeps saved ascii] at shown
      rw [shown]
    · simp only [toUtf8, if_neg ascii, List.flatten_singleton] at shown
      have longer := congrArg List.length shown
      rw [List.length_append, List.length_singleton] at longer
      omega
  · intro found
    refine ⟨_, found, ?_⟩
    intro toUtf8 convert keeps written inputEmpty overwritten i below
    have plain := printable_of_keepsText keeps printable
    obtain ⟨others, restored⟩ :=
      bytes_screenRestoreLine here inside plain convert inputEmpty overwritten
    by_cases same : i = number
    · rw [same, restored, keeps _ printable]
    · exact others i below same

end SaveLine

/-! ## Several lines -/

section SavelineBuf

variable {screen : Screen} {line : Nat} (inside : line < screen.lines)

include inside in
/-- Each line of the buffer is visible somewhere. -/
theorem exists_slot_eq : ∃ number < screen.lines, slot screen number = line := by
  have positive := Nat.zero_lt_of_lt inside
  have rolled := Nat.mod_lt screen.roll positive
  refine ⟨(line + (screen.lines - screen.roll % screen.lines)) % screen.lines,
    Nat.mod_lt _ positive, ?_⟩
  rw [slot, Nat.mod_add_mod, Nat.add_mod, ← Nat.add_mod_mod, Nat.mod_mod]
  have sum : line + (screen.lines - screen.roll % screen.lines) + screen.roll % screen.lines =
      line + screen.lines := by
    omega
  rw [Nat.mod_add_mod, sum, Nat.add_mod_right, Nat.mod_eq_of_lt inside]

include inside in
theorem slot_eq_iff : slot screen line = line ↔ screen.roll % screen.lines = 0 := by
  rw [slot, Nat.add_mod, Nat.mod_eq_of_lt inside]
  have positive := Nat.zero_lt_of_lt inside
  have rolled := Nat.mod_lt screen.roll positive
  constructor
  · intro same
    by_cases wraps : line + screen.roll % screen.lines < screen.lines
    · rw [Nat.mod_eq_of_lt wraps] at same
      omega
    · rw [Nat.mod_eq_sub_mod (by omega), Nat.mod_eq_of_lt (by omega)] at same
      omega
  · intro zero
    rw [zero, Nat.add_zero, Nat.mod_eq_of_lt inside]

theorem screenClearLine_buf (screen : Screen) (line i : Nat) :
    (screenClearLine line screen).buf i =
      if i = line then { screen.buf line with modified := false, len := 0 }
      else screen.buf i :=
  Function.update_apply _ _ _ _

/-- A text without zeros ends where its line does. -/
theorem takeWhile_of_printable {text : Bytes} (printable : ∀ c ∈ text, isPrint c = true) :
    text.takeWhile (· != 0) = text := by
  rw [List.takeWhile_eq_self_iff]
  intro c member
  have visible := printable c member
  grind [isPrint]

theorem savelineBufSave_eq_some_iff {saved : Bytes} :
    savelineBufSave line screen = some saved ↔
      (line < savedRows ∧ (screen.buf line).len < screenLineLen) ∧
        (screen.buf line).bytes.takeWhile (· != 0) = saved := by
  simp only [savelineBufSave, Option.ite_none_right_eq_some, Option.some.injEq]

/-- The screen on which `saveline_buf` prints. -/
def clearedFor (line : Nat) (written : Screen) : Screen :=
  screenClearLine line (move line 0 written)

theorem savelineBufRestore_eq (toUtf8 : Bytes → List Bytes) (saved : Bytes) (written : Screen)
    (i : Nat) :
    getScreenLine (savelineBufRestore toUtf8 line saved written) i =
      getScreenLine (prints toUtf8 saved (clearedFor line written)) i :=
  rfl

include inside in
theorem clearedAt_clearedFor (unrolled : screen.roll % screen.lines = 0) {written : Screen}
    (overwritten : Overwritten screen written line) : ClearedAt (clearedFor line written) line where
  inside := overwritten.lines.symm ▸ inside
  curLn := rfl
  curCol := rfl
  empty := by
    have place : slot (clearedFor line written) line = line := by
      change (line + written.roll) % written.lines = line
      rw [overwritten.roll, overwritten.lines]
      exact (slot_eq_iff inside).mpr unrolled
    rw [getScreenLine, place, clearedFor, screenClearLine_buf, if_pos rfl]

include inside in
theorem savelineBufWorks_of_unrolled (unrolled : screen.roll % screen.lines = 0)
    (row : line < savedRows) (short : (screen.buf line).len < screenLineLen)
    (printable : ∀ c ∈ (getScreenLine screen line).bytes, isPrint c = true) :
    SavelineBufWorks screen line := by
  have place := (slot_eq_iff inside).mpr unrolled
  have visible : getScreenLine screen line = screen.buf line := by
    rw [getScreenLine, place]
  have saved : savelineBufSave line screen = some (getScreenLine screen line).bytes := by
    apply savelineBufSave_eq_some_iff.mpr
    rw [← visible]
    exact ⟨⟨row, visible ▸ short⟩, takeWhile_of_printable printable⟩
  refine ⟨_, saved, ?_⟩
  intro toUtf8 keeps written overwritten i below
  have plain := printable_of_keepsText keeps printable
  have cleared := clearedAt_clearedFor inside unrolled overwritten
  rw [savelineBufRestore_eq]
  by_cases same : i = line
  · rw [same, bytes_prints plain cleared, keeps _ printable]
  · have belowOver : i < (clearedFor line written).lines := overwritten.lines.symm ▸ below
    have apart : slot (clearedFor line written) i ≠ line := by
      intro equal
      have overPlace : slot screen i = line := by
        change (i + written.roll) % written.lines = line at equal
        rw [overwritten.roll, overwritten.lines] at equal
        exact equal
      exact same (slot_inj below inside (overPlace.trans place.symm))
    have untouched : getScreenLine (clearedFor line written) i = getScreenLine written i := by
      exact (screenClearLine_buf _ line _).trans (if_neg apart)
    rw [getScreenLine_prints_of_ne plain cleared belowOver same, untouched,
      overwritten.others i below same]

include inside in
/-- On a buffer that has rolled, another line is cleared instead. -/
theorem unrolled_of_savelineBufWorks (works : SavelineBufWorks screen line) :
    screen.roll % screen.lines = 0 := by
  by_contra rolled
  have apart : line ≠ slot screen line := fun same => rolled ((slot_eq_iff inside).mp same.symm)
  obtain ⟨saved, found, restores⟩ := works
  obtain ⟨other, below, otherSlot⟩ := exists_slot_eq inside
  have otherNe : other ≠ line := by
    rintro rfl
    exact apart otherSlot.symm
  -- The line has become longer by one.
  let longer : Line := { getScreenLine screen line with len := (getScreenLine screen line).len + 1 }
  have overwritten : Overwritten screen (setLine screen line longer) line := by
    refine ⟨rfl, rfl, ?_⟩
    intro i inRange different
    rw [getScreenLine_setLine inside inRange, if_neg different]
  have shown := restores (fun text => [text]) (fun text _ => List.flatten_singleton)
    (setLine screen line longer) overwritten
  have geometry : ∀ i, slot (prints (fun text => [text]) saved
      (clearedFor line (setLine screen line longer))) i = slot screen i := by
    intro i
    change slot (putsLoop _ _ _) i = _
    rw [slot, putsLoop_lines, putsLoop_roll]
    rfl
  -- The line that is cleared was empty before.
  have cleared := shown other below
  rw [savelineBufRestore_eq, getScreenLine, geometry, otherSlot] at cleared
  change ((putsLoop saved (slot screen line) _).buf line).bytes = _ at cleared
  rw [putsLoop_buf_of_ne _ _ _ apart, clearedFor, screenClearLine_buf, if_pos rfl] at cleared
  have wasEmpty : (screen.buf line).bytes = [] := by
    have same : getScreenLine screen other = screen.buf line := by
      rw [getScreenLine, otherSlot]
    rw [← same]
    exact cleared.symm
  have nothing : saved = [] := by
    rw [← (savelineBufSave_eq_some_iff.mp found).2, wasEmpty]
    rfl
  -- So nothing is printed and the longer line stays.
  have kept := shown line inside
  rw [savelineBufRestore_eq, getScreenLine, geometry, nothing] at kept
  change ((clearedFor line (setLine screen line longer)).buf (slot screen line)).bytes = _ at kept
  rw [clearedFor, screenClearLine_buf, if_neg apart.symm] at kept
  change ((setLine screen line longer).buf (slot screen line)).bytes = _ at kept
  rw [setLine_buf, if_pos rfl] at kept
  have lengths := congrArg List.length kept
  simp only [Line.bytes, List.length_map, List.length_range, longer] at lengths
  omega

include inside in
theorem savelineBufWorks_iff
    (printable : ∀ c ∈ (getScreenLine screen line).bytes, isPrint c = true) :
    SavelineBufWorks screen line ↔
      line < savedRows ∧ screen.roll % screen.lines = 0 ∧ (screen.buf line).len < screenLineLen := by
  constructor
  · intro works
    have unrolled := unrolled_of_savelineBufWorks inside works
    obtain ⟨saved, found, -⟩ := works
    obtain ⟨⟨row, short⟩, -⟩ := savelineBufSave_eq_some_iff.mp found
    exact ⟨row, unrolled, short⟩
  · rintro ⟨row, unrolled, short⟩
    exact savelineBufWorks_of_unrolled inside unrolled row short printable

end SavelineBuf

/-! ## Both ways of saving -/

/-- A zero behind the last character ends the string at the length of the line. -/
theorem dataText_eq_iff {sl : Line} (nonzero : ∀ c ∈ sl.bytes, c ≠ 0) :
    dataText sl.data = some sl.bytes ↔ sl.len < screenLineLen ∧ sl.data sl.len = 0 := by
  have length : sl.bytes.length = sl.len := by simp [Line.bytes]
  have split : ∀ rest, sl.len + rest = screenLineLen →
      (List.range screenLineLen).map sl.data =
        sl.bytes ++ (List.range rest).map fun i => sl.data (sl.len + i) := by
    intro rest sum
    rw [← sum, List.range_add, List.map_append, List.map_map]
    rfl
  have passes : ∀ rest, (sl.bytes ++ rest).takeWhile (· != 0) =
      sl.bytes ++ rest.takeWhile (· != 0) := by
    intro rest
    apply List.takeWhile_append_of_pos
    intro c member
    simpa using nonzero c member
  simp only [dataText, Option.ite_none_right_eq_some, Option.some.injEq]
  constructor
  · rintro ⟨short, text⟩
    rw [text, length] at short
    have sum : sl.len + (screenLineLen - sl.len) = screenLineLen := by omega
    rw [split _ sum, passes] at text
    have ends := List.append_right_eq_self.mp text
    obtain ⟨count, positive⟩ : ∃ count, screenLineLen - sl.len = count + 1 :=
      ⟨screenLineLen - sl.len - 1, by omega⟩
    rw [positive, List.range_succ_eq_map, List.map_cons, List.takeWhile_cons] at ends
    refine ⟨short, ?_⟩
    by_contra other
    rw [if_pos (by simpa using other)] at ends
    cases ends
  · rintro ⟨short, zero⟩
    obtain ⟨count, sum⟩ : ∃ count, sl.len + (count + 1) = screenLineLen :=
      ⟨screenLineLen - sl.len - 1, by omega⟩
    have ends : ((List.range (count + 1)).map fun i => sl.data (sl.len + i)).takeWhile
        (· != 0) = [] := by
      rw [List.range_succ_eq_map, List.map_cons, List.takeWhile_cons, Nat.add_zero, zero]
      rfl
    rw [split _ sum, passes, ends, List.append_nil, length]
    exact ⟨short, rfl⟩

section Both

variable {screen : Screen} {line : Int} {number : Nat}

theorem savedLines_iff (here : lineNumber screen line = number)
    (inside : number < screen.lines)
    (printable : ∀ c ∈ (getScreenLine screen number).bytes, isPrint c = true) :
    (SaveLineWorks screen line ↔
      dataText (screen.buf number).data = some (getScreenLine screen number).bytes) ∧
    (SavelineBufWorks screen number ↔
      number < savedRows ∧ screen.roll % screen.lines = 0 ∧
        (screen.buf number).len < screenLineLen) ∧
    (screen.roll % screen.lines = 0 →
      (dataText (screen.buf number).data = some (getScreenLine screen number).bytes ↔
        (screen.buf number).len < screenLineLen ∧
          (screen.buf number).data (screen.buf number).len = 0)) := by
  refine ⟨saveLineWorks_iff here inside printable, savelineBufWorks_iff inside printable, ?_⟩
  intro unrolled
  have visible : getScreenLine screen number = screen.buf number := by
    rw [getScreenLine, (slot_eq_iff inside).mpr unrolled]
  rw [visible] at printable ⊢
  apply dataText_eq_iff
  intro c member zero
  have shown := printable c member
  rw [zero] at shown
  cases shown

end Both

/-- A screen with `ab` in its first line. -/
def lettersScreen : Screen :=
  screenPuts [97, 98] emptyScreen

theorem lettersScreen_saved :
    SaveLineWorks lettersScreen 0 ∧ SavelineBufWorks lettersScreen 0 := by
  have printable : ∀ c ∈ (getScreenLine lettersScreen 0).bytes, isPrint c = true :=
    List.all_eq_true.1 (by decide)
  have inside : 0 < lettersScreen.lines := by decide
  obtain ⟨saveLine, savelineBuf, text⟩ :=
    @savedLines_iff lettersScreen 0 0 rfl inside printable
  exact ⟨saveLine.mpr ((text rfl).mpr ⟨by decide, rfl⟩),
    savelineBuf.mpr ⟨by decide, rfl, by decide⟩⟩

/-- The same screen after the line has been cut behind `a`. -/
def cutScreen : Screen :=
  clrtoeol (move 0 1 lettersScreen)

/-- A screen that has scrolled by one line, with `ab` in its last line. -/
def rolledScreen : Screen :=
  screenPuts [97, 98] (screenScroll emptyScreen)

/-- A line that has become shorter comes back with its old end, and after a scroll another
line is saved. -/
theorem saved_not_works :
    ¬SaveLineWorks cutScreen 0 ∧ ¬SavelineBufWorks rolledScreen 0 := by
  constructor
  · intro works
    have inside : 0 < cutScreen.lines := by decide
    have printable : ∀ c ∈ (getScreenLine cutScreen 0).bytes, isPrint c = true :=
      List.all_eq_true.1 (by decide)
    have saved := (@saveLineWorks_iff cutScreen 0 0 rfl inside printable).mp works
    have nonzero : ∀ c ∈ (cutScreen.buf 0).bytes, c ≠ 0 := by
      rintro c member rfl
      exact absurd (printable 0 member) (by decide)
    have ends := (@dataText_eq_iff (cutScreen.buf 0) nonzero).mp saved
    exact absurd ends.2 (by decide)
  · intro works
    have inside : 0 < rolledScreen.lines := by decide
    exact absurd (unrolled_of_savelineBufWorks inside works) (by decide)

end ScreenBuffer

end Fbbs
