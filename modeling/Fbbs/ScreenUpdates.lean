import Fbbs.ScreenBuffer
import Mathlib.Data.Nat.ModEq

/-!
# Updates of the screen

What the terminal shows after a redraw and after a flush.  Between flushes a line that is
not marked as modified is what the terminal shows in its row, once the pending scrolls
have been sent, and the row is blank behind the length that was last sent.
-/

namespace Fbbs

namespace ScreenBuffer

open TerminalGrid

/-! ## Lines -/

section Lines

variable {screen : Screen}

theorem slot_inj {i j : Nat} (left : i < screen.lines) (right : j < screen.lines)
    (same : slot screen i = slot screen j) : i = j := by
  have congruent : i ≡ j [MOD screen.lines] := Nat.ModEq.add_right_cancel' screen.roll same
  exact Nat.ModEq.eq_of_lt_of_lt congruent left right

theorem getScreenLine_setLine {i j : Nat} (left : i < screen.lines) (right : j < screen.lines)
    (sl : Line) :
    getScreenLine (setLine screen i sl) j = if j = i then sl else getScreenLine screen j := by
  change Function.update screen.buf (slot screen i) sl (slot screen j) = _
  by_cases same : j = i
  · rw [same, Function.update_self, if_pos rfl]
  · rw [Function.update_of_ne fun equal => same (slot_inj right left equal), if_neg same]
    rfl

theorem getScreenLine_congr {screen other : Screen} (buf : other.buf = screen.buf)
    (roll : other.roll = screen.roll) (lines : other.lines = screen.lines) (line : Nat) :
    getScreenLine other line = getScreenLine screen line := by
  rw [getScreenLine, getScreenLine, slot, slot, buf, roll, lines]

theorem slot_mod (screen : Screen) (line : Nat) :
    slot screen (line % screen.lines) = slot screen line :=
  Nat.mod_add_mod line screen.lines screen.roll

end Lines

/-! ## The cursor of the terminal -/

/-- The cursor of the terminal is where the screen has it. -/
structure Tracks (s : Session) : Prop where
  line : s.terminal.line = s.screen.tcLine
  col : s.terminal.col = s.screen.tcCol
  inside : s.screen.tcLine < s.screen.lines

/-- The cursor at another place. -/
def cursorAt (s : Session) (line col : Nat) : Session where
  screen := { s.screen with tcLine := line, tcCol := col }
  terminal := { s.terminal with line, col }

/-- What is sent moves the cursor there. -/
theorem cursorAt_of_send {s : Session} {commands : List Command} {line col : Nat}
    (moved : run s.screen.lines s.screen.columns s.terminal commands =
      { s.terminal with line, col }) :
    { s.send commands with
      screen := { (s.send commands).screen with tcCol := col, tcLine := line } } =
      cursorAt s line col := by
  rw [Session.send, moved]
  rfl

theorem moveTerminalCursor_eq {s : Session} (tracks : Tracks s) {line col : Nat}
    (below : line < s.screen.lines) (left : col < s.screen.columns) :
    moveTerminalCursor col line s = cursorAt s line col := by
  obtain ⟨lineEq, colEq, inside⟩ := tracks
  rw [moveTerminalCursor, if_neg (by omega)]
  split
  · -- A line feed to the line below does not scroll.
    rename_i next
    obtain ⟨rfl, rfl⟩ := next
    apply cursorAt_of_send
    by_cases atStart : s.screen.tcCol = 0
    · simp [run, step, feed, atStart, lineEq, below, colEq]
    · simp [run, step, feed, atStart, lineEq, below]
  split
  · rename_i same
    obtain ⟨rfl, rfl⟩ := same
    apply cursorAt_of_send
    by_cases atStart : s.screen.tcCol = 0
    · have zero : s.terminal.col = 0 := colEq.trans atStart
      simp [run, atStart, ← lineEq, ← zero]
    · simp [run, step, atStart, ← lineEq]
  split
  · rename_i before
    obtain ⟨next, rfl⟩ := before
    apply cursorAt_of_send
    simp [run, step, lineEq, colEq, ← next]
  split
  · exact cursorAt_of_send rfl
  · rename_i here
    rw [not_or, not_not, not_not] at here
    obtain ⟨rfl, rfl⟩ := here
    rw [← lineEq, ← colEq]
    rfl

/-! ## Sending lines -/

/-- A printable character of ASCII. -/
def isPrint (c : UInt8) : Bool :=
  32 ≤ c && c ≤ 126

/-- The line stays before the last column and has printable characters. -/
def Fits (columns : Nat) (sl : Line) : Prop :=
  sl.len < columns ∧ ∀ k < sl.len, isPrint (sl.data k) = true

instance decidableFits (columns : Nat) (sl : Line) : Decidable (Fits columns sl) :=
  inferInstanceAs (Decidable (_ ∧ ∀ k < _, _))

/-- ASCII is the same in UTF-8 and in GBK. -/
def KeepsAscii (convert : Bytes → Bytes) : Prop :=
  ∀ bytes, (∀ c ∈ bytes, isPrint c = true) → convert bytes = bytes

/-- A row with a line at its beginning. -/
def withLine (grid : Nat → Nat → UInt8) (sl : Line) (i : Nat) : Nat → Nat → UInt8 :=
  fun line col => if line = i ∧ col < sl.len then sl.data col else grid line col

/-- A row that is blank from a column on. -/
def cleared (grid : Nat → Nat → UInt8) (i start : Nat) : Nat → Nat → UInt8 :=
  fun line col => if line = i ∧ start ≤ col then blank else grid line col

section Sending

variable {convert : Bytes → Bytes} (keeps : KeepsAscii convert) {s : Session}

include keeps in
theorem screenWriteCached_eq {sl : Line} (fits : Fits s.screen.columns sl)
    (start : s.terminal.col = 0) :
    screenWriteCached convert sl s =
      { s with
        terminal := ⟨withLine s.terminal.grid sl s.terminal.line, s.terminal.line, sl.len⟩ } := by
  have same : (if s.screen.utf8 then sl.bytes else convert sl.bytes) = sl.bytes := by
    split
    · rfl
    · apply keeps
      simpa [Line.bytes] using fits.2
  have length : sl.bytes.length = sl.len := by simp [Line.bytes]
  have bytes : ∀ col < sl.len, sl.bytes.getD col blank = sl.data col := by
    intro col inside
    simp [Line.bytes, inside]
  rw [screenWriteCached, same, Session.send,
    run_puts (by rw [start, length, Nat.zero_add]; exact fits.1.le)]
  simp only [start, length, Nat.zero_add, Nat.zero_le, true_and, Nat.sub_zero]
  congr 2
  funext line col
  unfold withLine
  split
  · rename_i inside
    exact bytes col inside.2
  · rfl

/-- The state after a line has been sent. -/
def sentLine (s : Session) (i : Nat) (sl : Line) (grid : Nat → Nat → UInt8) (line col : Nat) :
    Session where
  screen := setLine { s.screen with tcLine := line, tcCol := col } i sl
  terminal := ⟨grid, line, col⟩

theorem setLine_self (screen : Screen) (i : Nat) :
    setLine screen i (getScreenLine screen i) = screen := by
  simp [setLine, getScreenLine]

theorem getScreenLine_setLine_self (screen : Screen) (i : Nat) (sl : Line) :
    getScreenLine (setLine screen i sl) i = sl := by
  simp [setLine, getScreenLine, slot]

include keeps in
/-- A line is sent from the beginning of its row. -/
theorem sendLine_eq (tracks : Tracks s) {i : Nat} (below : i < s.screen.lines) {sl : Line}
    (fits : Fits s.screen.columns sl) :
    screenWriteCached convert sl (moveTerminalCursor 0 i s) =
      { screen := { s.screen with tcLine := i, tcCol := 0 }
        terminal := ⟨withLine s.terminal.grid sl i, i, sl.len⟩ } := by
  rw [moveTerminalCursor_eq tracks below (Nat.zero_lt_of_lt fits.1)]
  exact screenWriteCached_eq keeps (s := cursorAt s i 0) fits rfl

/-- A line without its mark. -/
def unmarked (sl : Line) : Line :=
  { sl with modified := false }

include keeps in
theorem flushModified_eq (tracks : Tracks s) {i : Nat} (below : i < s.screen.lines)
    (fits : Fits s.screen.columns (getScreenLine s.screen i))
    (modified : (getScreenLine s.screen i).modified = true) :
    flushModified convert s i =
      sentLine s i (unmarked (getScreenLine s.screen i))
        (withLine s.terminal.grid (getScreenLine s.screen i) i) i
        (getScreenLine s.screen i).len := by
  generalize found : getScreenLine s.screen i = sl at fits modified ⊢
  have tracksUnmarked :
      Tracks { s with screen := setLine s.screen i { sl with modified := false } } :=
    ⟨tracks.line, tracks.col, tracks.inside⟩
  have short : ¬sl.len ≥ s.screen.columns := Nat.not_le.mpr fits.1
  rw [flushModified]
  simp only [found, modified, if_true]
  rw [sendLine_eq keeps tracksUnmarked below fits]
  exact if_neg short

/-- A line that has become shorter loses its end in the row. -/
theorem flushShorter_eq (tracks : Tracks s) {i : Nat} (below : i < s.screen.lines)
    (fits : Fits s.screen.columns (getScreenLine s.screen i)) :
    flushShorter s i =
      if (getScreenLine s.screen i).oldLen > (getScreenLine s.screen i).len then
        sentLine s i { getScreenLine s.screen i with oldLen := (getScreenLine s.screen i).len }
          (cleared s.terminal.grid i (getScreenLine s.screen i).len) i
          (getScreenLine s.screen i).len
      else
        sentLine s i { getScreenLine s.screen i with oldLen := (getScreenLine s.screen i).len }
          s.terminal.grid s.screen.tcLine s.screen.tcCol := by
  rw [flushShorter]
  split
  · rw [moveTerminalCursor_eq tracks below fits.1]
    rfl
  · have terminal : s.terminal = ⟨s.terminal.grid, s.screen.tcLine, s.screen.tcCol⟩ := by
      rw [← tracks.line, ← tracks.col]
    rw [sentLine, ← terminal]

theorem sentLine_sentLine (s : Session) (i : Nat) (first second : Line)
    (grid shown : Nat → Nat → UInt8) (line col nextLine nextCol : Nat) :
    sentLine (sentLine s i first grid line col) i second shown nextLine nextCol =
      sentLine s i second shown nextLine nextCol := by
  simp [sentLine, setLine, slot]

/-- A line that has been sent. -/
def settled (sl : Line) : Line :=
  { sl with modified := false, oldLen := sl.len }

/-- What a row shows after a flush, from what it showed before. -/
def flushedRow (sl : Line) (row : Nat → UInt8) (col : Nat) : UInt8 :=
  if col < sl.len then if sl.modified then sl.data col else row col
  else if sl.oldLen > sl.len then blank else row col

/-- The row after both halves of the loop. -/
def flushedGrid (sl : Line) (i : Nat) (grid : Nat → Nat → UInt8) : Nat → Nat → UInt8 :=
  let grid := if sl.modified then withLine grid sl i else grid
  if sl.oldLen > sl.len then cleared grid i sl.len else grid

theorem flushedGrid_eq (sl : Line) (i : Nat) (grid : Nat → Nat → UInt8) (line col : Nat) :
    flushedGrid sl i grid line col =
      if line = i then flushedRow sl (grid i) col else grid line col := by
  by_cases here : line = i
  · by_cases inside : col < sl.len
    · have notEnd : ¬sl.len ≤ col := Nat.not_le.mpr inside
      simp only [flushedGrid, flushedRow, here, inside]
      split_ifs <;> simp [cleared, withLine, inside, notEnd]
    · have outside : sl.len ≤ col := Nat.le_of_not_lt inside
      simp only [flushedGrid, flushedRow, here, inside, if_true, if_false]
      split_ifs <;> simp [cleared, withLine, inside, outside]
  · simp only [flushedGrid, if_neg here]
    split_ifs <;> simp [cleared, withLine, here]

include keeps in
theorem flushLine_spec (tracks : Tracks s) {i : Nat} (below : i < s.screen.lines)
    (fits : Fits s.screen.columns (getScreenLine s.screen i)) :
    ∃ line col, line < s.screen.lines ∧
      flushLine convert s i =
        sentLine s i (settled (getScreenLine s.screen i))
          (flushedGrid (getScreenLine s.screen i) i s.terminal.grid) line col := by
  generalize found : getScreenLine s.screen i = sl at fits ⊢
  rw [flushLine, flushedGrid]
  by_cases modified : sl.modified = true
  · have sent := flushModified_eq keeps tracks below (found ▸ fits) (found ▸ modified)
    rw [found] at sent
    generalize next : sentLine s i (unmarked sl) (withLine s.terminal.grid sl i) i sl.len = t
      at sent
    have line : getScreenLine t.screen i = unmarked sl := by
      rw [← next]
      exact getScreenLine_setLine_self _ i _
    have tracksNext : Tracks t := by
      rw [← next]
      exact ⟨rfl, rfl, below⟩
    have belowNext : i < t.screen.lines := by
      rw [← next]
      exact below
    have fitsNext : Fits t.screen.columns (getScreenLine t.screen i) := by
      rw [line, ← next]
      exact fits
    rw [sent, flushShorter_eq tracksNext belowNext fitsNext, line, if_pos modified, ← next,
      sentLine_sentLine, sentLine_sentLine]
    refine ⟨i, sl.len, below, ?_⟩
    change (if sl.oldLen > sl.len then _ else _) = _
    split <;> rfl
  · have kept : flushModified convert s i = s := by
      rw [flushModified, found]
      exact if_neg modified
    have same : { sl with oldLen := sl.len } = settled sl := by
      rw [settled, ← Bool.eq_false_iff.mpr modified]
    rw [kept, flushShorter_eq tracks below (found ▸ fits), found, if_neg modified, same]
    split
    · exact ⟨i, sl.len, below, rfl⟩
    · exact ⟨s.screen.tcLine, s.screen.tcCol, tracks.inside, rfl⟩

/-! ## Loops over the rows -/

/-- Only the lines and the cursor of the terminal differ. -/
structure SameFrame (screen other : Screen) : Prop where
  columns : other.columns = screen.columns
  lines : other.lines = screen.lines
  curLn : other.curLn = screen.curLn
  curCol : other.curCol = screen.curCol
  roll : other.roll = screen.roll
  scrollcnt : other.scrollcnt = screen.scrollcnt

/-- What the body of a loop does to a line and to its row. -/
def UpdatesRow (body : Session → Nat → Session) (after : Line → Line)
    (row : Line → (Nat → UInt8) → Nat → UInt8) : Prop :=
  ∀ s i, Tracks s → i < s.screen.lines → Fits s.screen.columns (getScreenLine s.screen i) →
    ∃ grid line col, line < s.screen.lines ∧
      body s i = sentLine s i (after (getScreenLine s.screen i)) grid line col ∧
      ∀ l k, grid l k =
        if l = i then row (getScreenLine s.screen i) (s.terminal.grid i) k else s.terminal.grid l k

/-- The state after the loop has handled some rows. -/
structure Rows (after : Line → Line) (row : Line → (Nat → UInt8) → Nat → UInt8) (s t : Session)
    (count : Nat) : Prop where
  tracks : Tracks t
  frame : SameFrame s.screen t.screen
  lines : ∀ i < s.screen.lines, getScreenLine t.screen i =
    if i < count then after (getScreenLine s.screen i) else getScreenLine s.screen i
  grid : ∀ l k, t.terminal.grid l k =
    if l < count then row (getScreenLine s.screen l) (s.terminal.grid l) k
    else s.terminal.grid l k

theorem rows_of_updatesRow {body : Session → Nat → Session} {after : Line → Line}
    {row : Line → (Nat → UInt8) → Nat → UInt8} (updates : UpdatesRow body after row)
    {s : Session} (tracks : Tracks s)
    (fits : ∀ i < s.screen.lines, Fits s.screen.columns (getScreenLine s.screen i)) {count : Nat}
    (inside : count ≤ s.screen.lines) :
    Rows after row s ((List.range count).foldl body s) count := by
  induction count with
  | zero => exact ⟨tracks, ⟨rfl, rfl, rfl, rfl, rfl, rfl⟩, fun _ _ => rfl, fun _ _ => rfl⟩
  | succ count ih =>
    have before := ih (by omega)
    rw [List.range_succ, List.foldl_append, List.foldl_cons, List.foldl_nil]
    generalize (List.range count).foldl body s = t at before
    have sameLines := before.frame.lines
    have current := before.lines count (by omega)
    rw [if_neg (Nat.lt_irrefl count)] at current
    obtain ⟨grid, line, col, below, sent, shown⟩ := updates t count before.tracks
      (by omega) (by rw [before.frame.columns, current]; exact fits count (by omega))
    rw [current] at sent shown
    rw [sent]
    obtain ⟨columns, lines, curLn, curCol, roll, scrollcnt⟩ := before.frame
    refine ⟨⟨rfl, rfl, below⟩, ⟨columns, lines, curLn, curCol, roll, scrollcnt⟩, ?_, ?_⟩
    · intro i inRange
      have updated : getScreenLine (sentLine t count (after (getScreenLine s.screen count)) grid
          line col).screen i = if i = count then after (getScreenLine s.screen count)
            else getScreenLine t.screen i :=
        @getScreenLine_setLine { t.screen with tcLine := line, tcCol := col } count i
          (by simp only; omega) (by simp only; omega) _
      rw [updated, before.lines i inRange]
      by_cases here : i = count
      · rw [if_pos here, if_pos (by omega), here]
      · rw [if_neg here]
        exact if_congr (by omega) rfl rfl
    · intro l k
      change grid l k = _
      have rowEq : t.terminal.grid count = s.terminal.grid count := by
        funext k
        rw [before.grid, if_neg (Nat.lt_irrefl count)]
      rw [shown, before.grid, rowEq]
      by_cases here : l = count
      · rw [if_pos here, if_pos (by omega), here]
      · rw [if_neg here]
        exact if_congr (by omega) rfl rfl

def redrawnRow (sl : Line) (row : Nat → UInt8) (col : Nat) : UInt8 :=
  if col < sl.len then sl.data col else row col

/-- An empty line is not sent and keeps its mark. -/
def redrawn (sl : Line) : Line :=
  if sl.len = 0 then sl else settled sl

include keeps in
theorem flushLine_updatesRow : UpdatesRow (flushLine convert) settled flushedRow := by
  intro s i tracks below fits
  obtain ⟨line, col, inside, sent⟩ := flushLine_spec keeps tracks below fits
  exact ⟨_, line, col, inside, sent, flushedGrid_eq _ _ _⟩

include keeps in
theorem redrawLine_updatesRow : UpdatesRow (redrawLine convert) redrawn redrawnRow := by
  intro s i tracks below fits
  by_cases empty : (getScreenLine s.screen i).len = 0
  · refine ⟨s.terminal.grid, s.screen.tcLine, s.screen.tcCol, tracks.inside, ?_, ?_⟩
    · rw [redrawLine, redrawn, if_pos empty, if_pos empty, sentLine]
      have kept : setLine { s.screen with tcLine := s.screen.tcLine, tcCol := s.screen.tcCol } i
          (getScreenLine s.screen i) = s.screen := setLine_self s.screen i
      rw [kept, ← tracks.line, ← tracks.col]
    · intro l k
      simp only [redrawnRow, empty, Nat.not_lt_zero, if_false]
      split <;> simp_all
  · refine ⟨withLine s.terminal.grid (getScreenLine s.screen i) i, i,
      (getScreenLine s.screen i).len, below, ?_, ?_⟩
    · have short : ¬(getScreenLine s.screen i).len ≥ s.screen.columns :=
        Nat.not_le.mpr fits.1
      rw [redrawLine, redrawn, if_neg empty, if_neg empty, sendLine_eq keeps tracks below fits]
      simp only [Nat.zero_add, if_neg short]
      rfl
    · intro l k
      rw [withLine, redrawnRow]
      by_cases here : l = i
      · simp [here]
      · simp [here]

/-- What the buffer says that the terminal shows. -/
def picture (screen : Screen) : Nat → Nat → UInt8 :=
  fun line col =>
    if line < screen.lines then redrawnRow (getScreenLine screen line) (fun _ => blank) col
    else blank

/-- All lines fit, and the cursor is before the last column. -/
structure Proper (screen : Screen) : Prop where
  positive : 0 < screen.lines
  wide : screen.columns ≤ screenLineLen
  fits : ∀ i < screen.lines, Fits screen.columns (getScreenLine screen i)
  left : screen.curCol < screen.columns

/-- The screen behind the clearing of a redraw. -/
def wiped (s : Session) : Session where
  screen := { s.screen with tcCol := 0, tcLine := 0 }
  terminal := ⟨fun _ _ => blank, 0, 0⟩

/-- What a redraw and a flush end with: the cursor is moved, if it is inside the screen. -/
theorem moveTerminalCursor_last {t : Session} (tracks : Tracks t)
    (left : t.screen.curCol < t.screen.columns) :
    Tracks (moveTerminalCursor t.screen.curCol t.screen.curLn t) ∧
      (moveTerminalCursor t.screen.curCol t.screen.curLn t).terminal.grid = t.terminal.grid ∧
      (t.screen.curLn < t.screen.lines →
        (moveTerminalCursor t.screen.curCol t.screen.curLn t).terminal =
          ⟨t.terminal.grid, t.screen.curLn, t.screen.curCol⟩) ∧
      SameFrame t.screen (moveTerminalCursor t.screen.curCol t.screen.curLn t).screen ∧
      (moveTerminalCursor t.screen.curCol t.screen.curLn t).screen.buf = t.screen.buf := by
  by_cases inside : t.screen.curLn < t.screen.lines
  · rw [moveTerminalCursor_eq tracks inside left]
    exact ⟨⟨rfl, rfl, inside⟩, rfl, fun _ => rfl, ⟨rfl, rfl, rfl, rfl, rfl, rfl⟩, rfl⟩
  · rw [moveTerminalCursor, if_pos (.inl (Nat.le_of_not_lt inside))]
    exact ⟨tracks, rfl, fun absurd' => absurd absurd' inside, ⟨rfl, rfl, rfl, rfl, rfl, rfl⟩, rfl⟩

/-- A line after it has been sent; an empty line may be as it was. -/
structure Sent (sl after : Line) : Prop where
  len : after.len = sl.len
  data : after.data = sl.data
  oldLen : after.len = 0 ∨ after.oldLen = after.len

theorem sent_settled (sl : Line) : Sent sl (settled sl) :=
  ⟨rfl, rfl, .inr rfl⟩

theorem sent_redrawn (sl : Line) : Sent sl (redrawn sl) := by
  unfold redrawn
  split
  · rename_i empty
    exact ⟨rfl, rfl, .inl empty⟩
  · exact sent_settled sl

/-- The terminal shows what a screen has in its buffer, and nothing is pending. -/
structure Shows (screen : Screen) (t : Session) : Prop where
  tracks : Tracks t
  grid : t.terminal.grid = picture screen
  cursor : screen.curLn < screen.lines →
    t.terminal = ⟨picture screen, screen.curLn, screen.curCol⟩
  frame : SameFrame { screen with scrollcnt := 0 } t.screen
  lines : ∀ i < screen.lines, Sent (getScreenLine screen i) (getScreenLine t.screen i)

/-- All rows have been handled; the cursor is moved and nothing is pending any more. -/
theorem shows_last {screen : Screen} {t : Session} (tracks : Tracks t)
    (grid : t.terminal.grid = picture screen) (frame : SameFrame screen t.screen)
    (lines : ∀ i < screen.lines, Sent (getScreenLine screen i) (getScreenLine t.screen i))
    (left : screen.curCol < screen.columns) (redraw : Bool) :
    Shows screen
      { moveTerminalCursor t.screen.curCol t.screen.curLn t with
        screen :=
          { (moveTerminalCursor t.screen.curCol t.screen.curLn t).screen with
            redraw, scrollcnt := 0 } } := by
  have leftNow : t.screen.curCol < t.screen.columns := by
    rw [frame.curCol, frame.columns]
    exact left
  obtain ⟨tracksLast, gridLast, cursorLast, frameLast, bufLast⟩ :=
    moveTerminalCursor_last tracks leftNow
  rw [frame.curCol, frame.curLn, frame.lines, grid] at *
  refine ⟨⟨tracksLast.line, tracksLast.col, tracksLast.inside⟩, gridLast, cursorLast, ?_, ?_⟩
  · exact ⟨frameLast.columns.trans frame.columns, frameLast.lines.trans frame.lines,
      frameLast.curLn.trans frame.curLn, frameLast.curCol.trans frame.curCol,
      frameLast.roll.trans frame.roll, rfl⟩
  · intro i below
    have same := getScreenLine_congr bufLast frameLast.roll frameLast.lines i
    change Sent _ (getScreenLine (moveTerminalCursor screen.curCol screen.curLn t).screen i)
    rw [same]
    exact lines i below

include keeps in
theorem shows_screenRedraw (proper : Proper s.screen) :
    Shows s.screen (screenRedraw convert s) := by
  have rows := rows_of_updatesRow (redrawLine_updatesRow keeps) (s := wiped s)
    ⟨rfl, rfl, proper.positive⟩ proper.fits (Nat.le_refl s.screen.lines)
  have start : screenRedraw convert s =
      let t := (List.range s.screen.lines).foldl (redrawLine convert) (wiped s)
      let t := moveTerminalCursor t.screen.curCol t.screen.curLn t
      { t with screen := { t.screen with redraw := false, scrollcnt := 0 } } := rfl
  rw [start]
  generalize (List.range s.screen.lines).foldl (redrawLine convert) (wiped s) = t at rows
  refine shows_last rows.tracks ?_ ?_ ?_ proper.left false
  · funext line col
    exact rows.grid line col
  · obtain ⟨columns, lines, curLn, curCol, roll, scrollcnt⟩ := rows.frame
    exact ⟨columns, lines, curLn, curCol, roll, scrollcnt⟩
  · intro i below
    have line := rows.lines i below
    rw [if_pos below] at line
    rw [line]
    exact sent_redrawn _

end Sending

end ScreenBuffer

end Fbbs
