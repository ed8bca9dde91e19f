import Fbbs.ScreenUpdates
import Fbbs.TransitionRuns

/-!
# Runs of the screen

Every call keeps the buffer consistent with the terminal, and a flush of a consistent
buffer shows what a redraw would show.  Clearing to the end of a line and writing a newline
fill the line up to the cursor without marking it as modified: when the terminal still
shows something there, a flush does not erase it.
-/

namespace Fbbs

namespace ScreenBuffer

open TerminalGrid

/-! ## Consistency -/

/-- A line against what its row shows. -/
structure LineOk (sl : Line) (row : Nat → UInt8) : Prop where
  behind : ∀ k, sl.oldLen ≤ k → row k = blank
  kept : sl.modified = false → ∀ k < sl.len, row k = sl.data k

/-- What the terminal shows once the pending scrolls have been sent. -/
def pending (s : Session) : Nat → Nat → UInt8 :=
  shifted s.screen.lines s.screen.scrollcnt.toNat s.terminal.grid

/-- The buffer knows what the terminal shows. -/
structure Consistent (s : Session) : Prop where
  proper : Proper s.screen
  tracks : Tracks s
  forward : 0 ≤ s.screen.scrollcnt
  below : ∀ line col, s.screen.lines ≤ line → s.terminal.grid line col = blank
  right : ∀ line col, s.screen.columns ≤ col → s.terminal.grid line col = blank
  rows : ∀ i < s.screen.lines, LineOk (getScreenLine s.screen i) (pending s i)

theorem flushedRow_eq {sl : Line} {row : Nat → UInt8} (ok : LineOk sl row) (col : Nat) :
    flushedRow sl row col = redrawnRow sl (fun _ => blank) col := by
  rw [flushedRow, redrawnRow]
  by_cases inside : col < sl.len
  · rw [if_pos inside, if_pos inside]
    split
    · rfl
    · rename_i unmodified
      exact ok.kept (Bool.eq_false_iff.mpr unmodified) col inside
  · rw [if_neg inside, if_neg inside]
    split
    · rfl
    · exact ok.behind col (by omega)

theorem lineOk_of_sent {sl after : Line} (sent : Sent sl after) :
    LineOk after (redrawnRow sl fun _ => blank) := by
  obtain ⟨len, data, oldLen⟩ := sent
  refine ⟨?_, ?_⟩
  · intro k behind
    rw [redrawnRow, if_neg]
    omega
  · intro _ k inside
    rw [redrawnRow, if_pos (len ▸ inside), data]

section Flushing

variable {convert : Bytes → Bytes} (keeps : KeepsAscii convert) {s : Session}

theorem pending_of_none {s : Session} (none : s.screen.scrollcnt = 0)
    (below : ∀ line col, s.screen.lines ≤ line → s.terminal.grid line col = blank) :
    pending s = s.terminal.grid := by
  rw [pending, none]
  exact shifted_zero below

theorem consistent_of_shows {screen : Screen} (proper : Proper screen) {t : Session}
    (shows' : Shows screen t) : Consistent t := by
  obtain ⟨tracks, grid, -, ⟨columns, lines, curLn, curCol, roll, scrollcnt⟩, sent⟩ := shows'
  have below : ∀ line col, t.screen.lines ≤ line → t.terminal.grid line col = blank := by
    intro line col outside
    rw [grid, picture, if_neg]
    rw [lines] at outside
    exact Nat.not_lt.mpr outside
  have fits : ∀ i < screen.lines, Fits screen.columns (getScreenLine t.screen i) := by
    intro i inside
    obtain ⟨len, data, -⟩ := sent i inside
    rw [Fits, len, data]
    exact proper.fits i inside
  refine ⟨⟨?_, ?_, ?_, ?_⟩, tracks, scrollcnt.ge, below, ?_, ?_⟩
  · rw [lines]
    exact proper.positive
  · rw [columns]
    exact proper.wide
  · rw [lines, columns]
    exact fits
  · rw [curCol, columns]
    exact proper.left
  · intro line col outside
    rw [columns] at outside
    rw [grid, picture]
    split
    · rename_i inside
      have short := (proper.fits line inside).1
      exact if_neg (Nat.not_lt.mpr (short.le.trans outside))
    · rfl
  · intro i inside
    rw [pending_of_none scrollcnt below, grid]
    rw [lines] at inside
    have row : picture screen i = redrawnRow (getScreenLine screen i) fun _ => blank :=
      funext fun _ => if_pos inside
    rw [row]
    exact lineOk_of_sent (sent i inside)

theorem flushScrolls_spec (consistent : Consistent s) :
    Tracks (flushScrolls s) ∧ (flushScrolls s).terminal.grid = pending s ∧
      SameFrame { s.screen with scrollcnt := 0 } (flushScrolls s).screen ∧
      (flushScrolls s).screen.buf = s.screen.buf := by
  have notBack : ¬s.screen.scrollcnt < 0 := Int.not_lt.mpr consistent.forward
  rw [flushScrolls, if_neg notBack]
  by_cases some : s.screen.scrollcnt > 0
  · have lastLine : s.screen.lines - 1 < s.screen.lines :=
      Nat.sub_lt consistent.proper.positive Nat.one_pos
    have scrolled := @run_lineFeeds s.screen.lines s.screen.columns s.screen.scrollcnt.toNat
      ⟨s.terminal.grid, s.screen.lines - 1, 0⟩ (by simp only; omega) consistent.below
    have count : s.screen.scrollcnt.natAbs = s.screen.scrollcnt.toNat := by omega
    rw [if_pos some, moveTerminalCursor_eq consistent.tracks lastLine
      (Nat.zero_lt_of_lt consistent.proper.left), count, Session.send]
    simp only [cursorAt]
    rw [scrolled]
    exact ⟨⟨rfl, rfl, lastLine⟩, rfl, ⟨rfl, rfl, rfl, rfl, rfl, rfl⟩, trivial⟩
  · have none : s.screen.scrollcnt = 0 := by omega
    rw [if_neg some, pending_of_none none consistent.below]
    exact ⟨⟨consistent.tracks.line, consistent.tracks.col, consistent.tracks.inside⟩, rfl,
      ⟨rfl, rfl, rfl, rfl, rfl, rfl⟩, rfl⟩

include keeps in
/-- A flush of a consistent buffer shows what the buffer has. -/
theorem shows_screenFlush (consistent : Consistent s) :
    Shows s.screen (screenFlush convert true s) := by
  rw [screenFlush]
  simp only [Bool.not_true, Bool.false_eq_true, if_false]
  split
  · exact shows_screenRedraw keeps consistent.proper
  obtain ⟨tracks, grid, frame, buf⟩ := flushScrolls_spec consistent
  generalize flushScrolls s = scrolled at tracks grid frame buf
  have sameLine : ∀ i, getScreenLine scrolled.screen i = getScreenLine s.screen i :=
    getScreenLine_congr buf frame.roll frame.lines
  have fits : ∀ i < scrolled.screen.lines,
      Fits scrolled.screen.columns (getScreenLine scrolled.screen i) := by
    intro i inside
    rw [sameLine, frame.columns]
    exact consistent.proper.fits i (frame.lines ▸ inside)
  have rows := rows_of_updatesRow (flushLine_updatesRow keeps) tracks fits
    (Nat.le_refl scrolled.screen.lines)
  generalize (List.range scrolled.screen.lines).foldl (flushLine convert) scrolled = t at rows
  have frameRows : SameFrame { s.screen with scrollcnt := 0 } t.screen :=
    ⟨rows.frame.columns.trans frame.columns, rows.frame.lines.trans frame.lines,
      rows.frame.curLn.trans frame.curLn, rows.frame.curCol.trans frame.curCol,
      rows.frame.roll.trans frame.roll, rows.frame.scrollcnt.trans frame.scrollcnt⟩
  have gridRows : t.terminal.grid = picture s.screen := by
    funext line col
    have lines : scrolled.screen.lines = s.screen.lines := frame.lines
    rw [rows.grid, grid, sameLine, lines, picture]
    split
    · rename_i inside
      exact flushedRow_eq (consistent.rows line inside) col
    · rename_i outside
      exact shifted_below _ _ col (by omega)
  have sent : ∀ i < s.screen.lines,
      Sent (getScreenLine s.screen i) (getScreenLine t.screen i) := by
    intro i inside
    have settledLine := rows.lines i (frame.lines ▸ inside)
    rw [if_pos (frame.lines ▸ inside), sameLine] at settledLine
    rw [settledLine]
    exact sent_settled _
  have left : t.screen.curCol < t.screen.columns := by
    rw [frameRows.curCol, frameRows.columns]
    exact consistent.proper.left
  have none : (moveTerminalCursor t.screen.curCol t.screen.curLn t).screen.scrollcnt = 0 := by
    obtain ⟨-, -, -, frameLast, -⟩ := moveTerminalCursor_last rows.tracks left
    exact frameLast.scrollcnt.trans frameRows.scrollcnt
  have last := @shows_last { s.screen with scrollcnt := 0 } t rows.tracks gridRows frameRows sent
    consistent.proper.left (moveTerminalCursor t.screen.curCol t.screen.curLn t).screen.redraw
  rw [← none] at last
  exact ⟨last.tracks, last.grid, last.cursor, last.frame, last.lines⟩

end Flushing

/-! ## The buffer -/

/-- Nothing is known to be shown in the row from the end of the line to the cursor, or the
line is sent anyway: it may be filled up to the cursor without a mark. -/
def PadSafe (screen : Screen) : Prop :=
  let sl := getScreenLine screen screen.curLn
  screen.curCol ≤ sl.len ∨ sl.modified = true ∨ sl.oldLen ≤ sl.len ∨
    (screen.lines : Int) ≤ (screen.curLn % screen.lines : Nat) + screen.scrollcnt

/-- The same for a line and its row. -/
def RowPadSafe (sl : Line) (row : Nat → UInt8) (col : Nat) : Prop :=
  col ≤ sl.len ∨ sl.modified = true ∨ sl.oldLen ≤ sl.len ∨ ∀ k, row k = blank

theorem lineOk_cutLine {sl : Line} {row : Nat → UInt8} {col : Nat} (ok : LineOk sl row)
    (safe : RowPadSafe sl row col) : LineOk (cutLine sl col) row := by
  refine ⟨ok.behind, ?_⟩
  intro unmodified k inside
  change k < col at inside
  change row k = (if col > sl.len then padded sl.data sl.len (col - sl.len + 1) else sl.data) k
  by_cases shown : k < sl.len
  · have same : (if col > sl.len then padded sl.data sl.len (col - sl.len + 1) else sl.data) k =
        sl.data k := by
      split
      · rw [padded, if_neg (by omega)]
      · rfl
    rw [same]
    exact ok.kept unmodified k shown
  · rw [if_pos (by omega), padded, if_pos (by omega)]
    -- Here the row has to be blank already.
    rcases safe with short | modified | sent | empty
    · omega
    · exact absurd modified (Bool.eq_false_iff.mp unmodified)
    · exact ok.behind k (by omega)
    · exact empty k

theorem fits_cutLine {columns : Nat} {sl : Line} {col : Nat} (fits : Fits columns sl)
    (left : col < columns) : Fits columns (cutLine sl col) := by
  refine ⟨left, ?_⟩
  intro k inside
  change k < col at inside
  change isPrint ((if col > sl.len then padded sl.data sl.len (col - sl.len + 1) else sl.data) k) =
    true
  by_cases shown : k < sl.len
  · have old := fits.2 k shown
    split
    · rwa [padded, if_neg (by omega)]
    · exact old
  · rw [if_pos (by omega), padded, if_pos (by omega)]
    rfl

theorem lineOk_putChar {sl : Line} {row : Nat → UInt8} (ok : LineOk sl row) (col : Nat)
    (c : UInt8) : LineOk (putChar sl col c) row :=
  ⟨ok.behind, fun unmodified => nomatch unmodified⟩

theorem fits_putChar {columns : Nat} {sl : Line} {col : Nat} {c : UInt8} (fits : Fits columns sl)
    (left : col + 1 < columns) (print : isPrint c = true) : Fits columns (putChar sl col c) := by
  refine ⟨?_, ?_⟩
  · change (if col + 1 > sl.len then col + 1 else sl.len) < columns
    split
    · exact left
    · exact fits.1
  · intro k inside
    change k < (if col + 1 > sl.len then col + 1 else sl.len) at inside
    have reached : k < sl.len ∨ k < col + 1 := by
      split at inside <;> omega
    change isPrint (if k = col then c else
      (if col > sl.len then padded sl.data sl.len (col - sl.len) else sl.data) k) = true
    by_cases here : k = col
    · rwa [if_pos here]
    rw [if_neg here]
    by_cases shown : k < sl.len
    · have old := fits.2 k shown
      split
      · rwa [padded, if_neg (by omega)]
      · exact old
    · rw [if_pos (by omega), padded, if_pos (by omega)]
      rfl

section Calls

variable {s : Session}

/-- Another line and another place of the cursor. -/
theorem consistent_setLine (consistent : Consistent s) {line : Nat} {sl : Line}
    (fits : Fits s.screen.columns sl) (ok : LineOk sl (pending s (line % s.screen.lines)))
    {curCol : Nat} (left : curCol < s.screen.columns) (curLn : Nat) :
    Consistent
      { s with screen := { setLine s.screen line sl with curLn, curCol } } := by
  have row : line % s.screen.lines < s.screen.lines :=
    Nat.mod_lt line consistent.proper.positive
  have found : ∀ i < s.screen.lines,
      getScreenLine { setLine s.screen line sl with curLn, curCol } i =
        if i = line % s.screen.lines then sl else getScreenLine s.screen i := by
    intro i inside
    have same : setLine s.screen (line % s.screen.lines) sl = setLine s.screen line sl := by
      rw [setLine, setLine, slot_mod]
    rw [← getScreenLine_setLine row inside, same]
    rfl
  refine ⟨⟨consistent.proper.positive, consistent.proper.wide, ?_, left⟩,
    ⟨consistent.tracks.line, consistent.tracks.col, consistent.tracks.inside⟩,
    consistent.forward, consistent.below, consistent.right, ?_⟩
  · intro i inside
    rw [found i inside]
    split
    · exact fits
    · exact consistent.proper.fits i inside
  · intro i inside
    simp only
    rw [found i inside]
    split
    · rename_i here
      rw [here]
      exact ok
    · exact consistent.rows i inside

theorem currentLine (consistent : Consistent s) :
    Fits s.screen.columns (getScreenLine s.screen s.screen.curLn) ∧
      LineOk (getScreenLine s.screen s.screen.curLn)
        (pending s (s.screen.curLn % s.screen.lines)) := by
  have row : s.screen.curLn % s.screen.lines < s.screen.lines :=
    Nat.mod_lt _ consistent.proper.positive
  have same : getScreenLine s.screen (s.screen.curLn % s.screen.lines) =
      getScreenLine s.screen s.screen.curLn := by
    rw [getScreenLine, slot_mod]
    rfl
  rw [← same]
  exact ⟨consistent.proper.fits _ row, consistent.rows _ row⟩

theorem rowPadSafe_of_padSafe (consistent : Consistent s) (safe : PadSafe s.screen) :
    RowPadSafe (getScreenLine s.screen s.screen.curLn)
      (pending s (s.screen.curLn % s.screen.lines)) s.screen.curCol := by
  rcases safe with short | modified | sent | scrolled
  · exact .inl short
  · exact .inr (.inl modified)
  · exact .inr (.inr (.inl sent))
  · refine .inr (.inr (.inr fun k => ?_))
    have forward := consistent.forward
    exact shifted_below _ _ k (by omega)

theorem consistent_clrtoeol (consistent : Consistent s) (safe : PadSafe s.screen) :
    Consistent { s with screen := clrtoeol s.screen } := by
  obtain ⟨fits, ok⟩ := currentLine consistent
  exact consistent_setLine consistent (fits_cutLine fits consistent.proper.left)
    (lineOk_cutLine ok (rowPadSafe_of_padSafe consistent safe)) consistent.proper.left
    s.screen.curLn

theorem consistent_move (consistent : Consistent s) (line : Int) {col : Nat}
    (left : col < s.screen.columns) : Consistent { s with screen := move line col s.screen } :=
  ⟨⟨consistent.proper.positive, consistent.proper.wide, consistent.proper.fits, left⟩,
    ⟨consistent.tracks.line, consistent.tracks.col, consistent.tracks.inside⟩,
    consistent.forward, consistent.below, consistent.right, consistent.rows⟩

theorem consistent_screenClrtobot (consistent : Consistent s) :
    Consistent { s with screen := screenClrtobot s.screen } := by
  rw [screenClrtobot]
  generalize List.range' s.screen.curLn (s.screen.lines - s.screen.curLn) = list
  induction list generalizing s with
  | nil => exact consistent
  | cons i list ih =>
    rw [List.foldl_cons]
    have fits : Fits s.screen.columns
        { getScreenLine s.screen i with modified := false, len := 0, oldLen := screenLineLen } :=
      ⟨Nat.zero_lt_of_lt consistent.proper.left,
        fun _ inside => absurd inside (Nat.not_lt_zero _)⟩
    have behind : ∀ k, screenLineLen ≤ k → pending s (i % s.screen.lines) k = blank := by
      intro k outside
      rw [pending, shifted]
      split
      · exact consistent.right _ k (consistent.proper.wide.trans outside)
      · rfl
    have ok : LineOk
        { getScreenLine s.screen i with modified := false, len := 0, oldLen := screenLineLen }
        (pending s (i % s.screen.lines)) :=
      ⟨behind, fun _ _ inside => absurd inside (Nat.not_lt_zero _)⟩
    exact ih (consistent_setLine consistent fits ok consistent.proper.left s.screen.curLn)

/-- The lines have moved up by one, and the last one is empty. -/
theorem getScreenLine_screenScroll {screen : Screen} (positive : 0 < screen.lines) {i : Nat}
    (inside : i < screen.lines) :
    getScreenLine (screenScroll screen) i =
      if i + 1 = screen.lines then cutLine (getScreenLine screen 0) 0
      else getScreenLine screen (i + 1) := by
  generalize rolled : (if screen.roll + 1 ≥ screen.lines then screen.roll + 1 - screen.lines
    else screen.roll + 1) = roll
  have slots : ∀ j, (j + roll) % screen.lines = (j + 1 + screen.roll) % screen.lines := by
    intro j
    rw [← rolled]
    split
    · rw [← Nat.add_mod_right, show j + (screen.roll + 1 - screen.lines) + screen.lines =
        j + 1 + screen.roll by omega]
    · rw [show j + (screen.roll + 1) = j + 1 + screen.roll by omega]
  have last : ((-1 : Int) + screen.lines).toNat = screen.lines - 1 := by omega
  have first : slot screen (screen.lines - 1 + 1) = slot screen 0 := by
    rw [slot, slot, Nat.sub_add_cancel positive, Nat.add_comm, Nat.add_mod_right, Nat.zero_add]
  generalize next : ({ screen with
    scrollcnt := screen.scrollcnt + 1, roll, curCol := 0, curLn := screen.lines - 1 } :
      Screen) = moved
  have lines : moved.lines = screen.lines := by rw [← next]
  have moves : ∀ j, getScreenLine moved j = getScreenLine screen (j + 1) := by
    intro j
    rw [← next]
    exact congrArg screen.buf (slots j)
  have shape : screenScroll screen =
      setLine moved (screen.lines - 1) (cutLine (getScreenLine moved (screen.lines - 1)) 0) := by
    rw [← next, ← rolled]
    simp only [screenScroll, screenMoveClear, clrtoeol, move, Int.reduceNeg, Int.reduceLT, if_true,
      last]
  rw [shape, getScreenLine_setLine (by omega) (by omega), moves, moves, getScreenLine, first]
  exact if_congr (by omega) rfl rfl

theorem consistent_screenScroll (consistent : Consistent s) :
    Consistent { s with screen := screenScroll s.screen } := by
  have found := @getScreenLine_screenScroll s.screen consistent.proper.positive
  have firstFits := consistent.proper.fits 0 consistent.proper.positive
  have firstOk := consistent.rows 0 consistent.proper.positive
  have positive := Nat.zero_lt_of_lt consistent.proper.left
  have forward : (s.screen.scrollcnt + 1).toNat = s.screen.scrollcnt.toNat + 1 :=
    Int.toNat_add_nat consistent.forward 1
  refine ⟨⟨consistent.proper.positive, consistent.proper.wide, ?_, positive⟩,
    ⟨consistent.tracks.line, consistent.tracks.col, consistent.tracks.inside⟩,
    Int.add_nonneg consistent.forward Int.one_nonneg, consistent.below, consistent.right, ?_⟩
  · intro i inside
    change i < s.screen.lines at inside
    change Fits s.screen.columns (getScreenLine (screenScroll s.screen) i)
    rw [found inside]
    split
    · exact fits_cutLine firstFits positive
    · exact consistent.proper.fits (i + 1) (by omega)
  · intro i inside
    change i < s.screen.lines at inside
    change LineOk (getScreenLine (screenScroll s.screen) i)
      (shifted s.screen.lines (s.screen.scrollcnt + 1).toNat s.terminal.grid i)
    rw [found inside, forward]
    split
    · rename_i lastRow
      refine ⟨fun k _ => ?_, fun _ _ absurd' => absurd absurd' (Nat.not_lt_zero _)⟩
      exact shifted_below _ _ k (by omega)
    · have row : shifted s.screen.lines (s.screen.scrollcnt.toNat + 1) s.terminal.grid i =
          pending s (i + 1) := by
        funext k
        rw [pending, shifted, shifted,
          show i + (s.screen.scrollcnt.toNat + 1) = i + 1 + s.screen.scrollcnt.toNat by omega]
      rw [row]
      exact consistent.rows (i + 1) (by omega)

/-- Printable characters and newlines; the cursor stays before the last column. -/
def staysBefore (columns : Nat) : Bytes → Nat → Bool
  | [], _ => true
  | c :: rest, col =>
    if isNewline c then staysBefore columns rest 0
    else isPrint c && decide (col + 1 < columns) && staysBefore columns rest (col + 1)

/-- The line that a string is written to.  Behind its first character the line is marked,
and behind a newline the cursor is at the beginning: only a newline at the beginning of the
string can fill up the line without a mark. -/
theorem putsLoop_spec {columns place : Nat} {row : Nat → UInt8} {string : Bytes}
    {screen : Screen} (fits : Fits columns (screen.buf place))
    (ok : LineOk (screen.buf place) row) (left : screen.curCol < columns)
    (stays : staysBefore columns string screen.curCol = true)
    (safe : ∀ c ∈ string.head?, isNewline c = true →
      RowPadSafe (screen.buf place) row screen.curCol) :
    ∃ sl curCol curLn, Fits columns sl ∧ LineOk sl row ∧ curCol < columns ∧
      putsLoop string place screen =
        { screen with buf := Function.update screen.buf place sl, curCol, curLn } := by
  induction string generalizing screen with
  | nil =>
    refine ⟨screen.buf place, screen.curCol, screen.curLn, fits, ok, left, ?_⟩
    rw [putsLoop, Function.update_eq_self]
  | cons c rest ih =>
    -- The rest of the string is written to what the first character has made of the line.
    have continues : ∀ (sl : Line) (curCol curLn : Nat), Fits columns sl → LineOk sl row →
        curCol < columns → staysBefore columns rest curCol = true →
        RowPadSafe sl row curCol →
        ∃ sl' curCol' curLn', Fits columns sl' ∧ LineOk sl' row ∧ curCol' < columns ∧
          putsLoop rest place
            { screen with buf := Function.update screen.buf place sl, curCol, curLn } =
          { screen with
            buf := Function.update screen.buf place sl'
            curCol := curCol'
            curLn := curLn' } := by
      intro sl curCol curLn fitsNext okNext leftNext staysNext safeNext
      have here : Function.update screen.buf place sl place = sl := Function.update_self ..
      obtain ⟨sl', curCol', curLn', fits', ok', left', written⟩ :=
        @ih { screen with buf := Function.update screen.buf place sl, curCol, curLn }
          (by simpa only [here] using fitsNext) (by simpa only [here] using okNext) leftNext
          staysNext (fun _ _ _ => by simpa only [here] using safeNext)
      refine ⟨sl', curCol', curLn', fits', ok', left', ?_⟩
      rw [written]
      simp only [Function.update_idem]
    rw [staysBefore] at stays
    rw [putsLoop]
    by_cases newline : isNewline c = true
    · rw [if_pos newline] at stays ⊢
      exact continues _ _ _ (fits_cutLine fits left) (lineOk_cutLine ok (safe c rfl newline))
        (Nat.zero_lt_of_lt left) stays (.inl (Nat.zero_le _))
    · rw [if_neg newline] at stays ⊢
      simp only [Bool.and_eq_true, decide_eq_true_eq] at stays
      obtain ⟨⟨print, next⟩, staysRest⟩ := stays
      exact continues _ _ _ (fits_putChar fits next print) (lineOk_putChar ok _ c) next staysRest
        (.inr (.inl rfl))

theorem consistent_screenPuts (consistent : Consistent s) {string : Bytes}
    (stays : staysBefore s.screen.columns string s.screen.curCol = true)
    (safe : ∀ c ∈ string.head?, isNewline c = true → PadSafe s.screen) :
    Consistent { s with screen := screenPuts string s.screen } := by
  obtain ⟨fits, ok⟩ := currentLine consistent
  obtain ⟨sl, curCol, curLn, fitsNext, okNext, leftNext, written⟩ :=
    putsLoop_spec fits ok consistent.proper.left stays fun c first newline =>
      rowPadSafe_of_padSafe consistent (safe c first newline)
  rw [screenPuts, written]
  exact consistent_setLine consistent fitsNext okNext leftNext curLn

end Calls

/-! ## Runs -/

/-- The calls are inside the screen: a move goes to a line and a column of it, and what is
written is printable and stays before the last column. -/
def Inside (s : Session) : Call → Prop
  | .move line col =>
    -(s.screen.lines : Int) ≤ line ∧ line < s.screen.lines ∧ col < s.screen.columns
  | .puts string => staysBefore s.screen.columns string s.screen.curCol = true
  | _ => True

/-- A line is not filled up behind its end while the terminal may show something there, and
a flush finds the cursor on a line of the screen. -/
def Careful (s : Session) : Call → Prop
  | .clrtoeol => PadSafe s.screen
  | .puts string => ∀ c ∈ string.head?, isNewline c = true → PadSafe s.screen
  | .flush => s.screen.curLn < s.screen.lines
  | _ => True

instance decidableInside (s : Session) : (c : Call) → Decidable (Inside s c)
  | .move line col => inferInstanceAs
      (Decidable (-(s.screen.lines : Int) ≤ line ∧ line < s.screen.lines ∧ col < s.screen.columns))
  | .puts string => inferInstanceAs
      (Decidable (staysBefore s.screen.columns string s.screen.curCol = true))
  | .clrtoeol => isTrue trivial
  | .clrtobot => isTrue trivial
  | .scroll => isTrue trivial
  | .flush => isTrue trivial

instance decidablePadSafe (screen : Screen) : Decidable (PadSafe screen) :=
  inferInstanceAs (Decidable (_ ∨ _ ∨ _ ∨ _))

instance decidableCareful (s : Session) : (c : Call) → Decidable (Careful s c)
  | .move _ _ => isTrue trivial
  | .puts string => inferInstanceAs
      (Decidable (∀ c ∈ string.head?, isNewline c = true → PadSafe s.screen))
  | .clrtoeol => inferInstanceAs (Decidable (PadSafe s.screen))
  | .clrtobot => isTrue trivial
  | .scroll => isTrue trivial
  | .flush => inferInstanceAs (Decidable (s.screen.curLn < s.screen.lines))

section Runs

variable {convert : Bytes → Bytes} (keeps : KeepsAscii convert)

include keeps in
theorem consistent_call {s : Session} (consistent : Consistent s) {c : Call} (inside : Inside s c)
    (careful : Careful s c) : Consistent (call convert s c) := by
  cases c with
  | move line col => exact consistent_move consistent line inside.2.2
  | puts string => exact consistent_screenPuts consistent inside careful
  | clrtoeol => exact consistent_clrtoeol consistent careful
  | clrtobot => exact consistent_screenClrtobot consistent
  | scroll => exact consistent_screenScroll consistent
  | flush => exact consistent_of_shows consistent.proper (shows_screenFlush keeps consistent)

theorem run_eq_calls (list : List Call) (s : Session) :
    TransitionRuns.run (fun s c => some (call convert s c)) list s =
      some (calls convert s list) := by
  induction list generalizing s with
  | nil => rfl
  | cons c list ih => exact ih (call convert s c)

include keeps in
/-- In a run in which lines are filled up with care, each flush leaves the terminal as a
redraw of the same buffer would leave it. -/
theorem flush_eq_redraw {s : Session} (proper : Proper s.screen) {list : List Call}
    (guarded : TransitionRuns.Guarded (fun s c => some (call convert s c))
      (fun s c => Inside s c ∧ Careful s c) list (screenRedraw convert s))
    {before : List Call} (reached : before ++ [.flush] <+: list) :
    (calls convert (screenRedraw convert s) (before ++ [.flush])).terminal =
      (screenRedraw convert (calls convert (screenRedraw convert s) before)).terminal := by
  obtain ⟨after, split⟩ := reached
  rw [← split, List.append_assoc] at guarded
  obtain ⟨guardedBefore, guardedAfter⟩ := TransitionRuns.guarded_append guarded
  have start : Consistent (screenRedraw convert s) :=
    consistent_of_shows proper (shows_screenRedraw keeps proper)
  have consistent : Consistent (calls convert (screenRedraw convert s) before) := by
    refine TransitionRuns.invariant_of_guarded Consistent ?_ start guardedBefore
      (run_eq_calls before _)
    intro state c next consistent allowed called
    rw [← Option.some.inj called]
    exact consistent_call keeps consistent allowed.1 allowed.2
  have flushed := (guardedAfter _ (run_eq_calls before _)).1
  rw [calls, List.foldl_append]
  change (screenFlush convert true (calls convert (screenRedraw convert s) before)).terminal = _
  rw [(shows_screenFlush keeps consistent).cursor flushed.2,
    (shows_screenRedraw keeps consistent.proper).cursor flushed.2]

end Runs

/-- A screen with a line of six letters. -/
def letters : Session where
  screen :=
    { buf := fun place => ⟨0, if place = 0 then 6 else 0, true, fun i => 97 + i.toUInt8⟩
      columns := 255
      lines := 24
      curLn := 0
      curCol := 0
      tcLine := 0
      tcCol := 0
      roll := 0
      scrollcnt := 0
      redraw := false
      utf8 := true }
  terminal := ⟨fun _ _ => blank, 0, 0⟩

theorem proper_letters : Proper letters.screen := by
  refine ⟨by decide, by decide, ?_, by decide⟩
  decide +kernel

theorem flush_eq_redraw_letters :
    (calls id (screenRedraw id letters)
        [.move 0 3, .clrtoeol, .move 23 2, .puts [104, 105, 10, 33], .scroll, .flush]).terminal =
      (screenRedraw id (calls id (screenRedraw id letters)
        [.move 0 3, .clrtoeol, .move 23 2, .puts [104, 105, 10, 33], .scroll])).terminal :=
  @flush_eq_redraw id (fun _ _ => rfl) letters proper_letters
    [.move 0 3, .clrtoeol, .move 23 2, .puts [104, 105, 10, 33], .scroll, .flush]
    (by decide +kernel) [.move 0 3, .clrtoeol, .move 23 2, .puts [104, 105, 10, 33], .scroll]
    (List.prefix_refl _)

/-- A line is emptied and filled up to the third column: the flush clears what is behind
and leaves the letters before it. -/
theorem letters_stay :
    ¬∀ convert, KeepsAscii convert → ∀ s : Session, Proper s.screen → ∀ list : List Call,
      TransitionRuns.Guarded (fun s c => some (call convert s c)) Inside list
        (screenRedraw convert s) →
      ∀ before : List Call, before ++ [.flush] <+: list →
        (calls convert (screenRedraw convert s) (before ++ [.flush])).terminal =
          (screenRedraw convert (calls convert (screenRedraw convert s) before)).terminal := by
  intro agrees
  have same := agrees id (fun _ _ => rfl) letters proper_letters
    [.clrtoeol, .move 0 3, .clrtoeol, .flush] (by decide) [.clrtoeol, .move 0 3, .clrtoeol]
    (List.prefix_refl _)
  have cell := congrArg (fun terminal => terminal.grid 0 0) same
  revert cell
  decide +kernel

end ScreenBuffer

end Fbbs
