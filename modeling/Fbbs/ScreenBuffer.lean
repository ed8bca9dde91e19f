import Fbbs.Parcel
import Fbbs.TerminalGrid

/-!
# The screen

`src/screen.c`: the lines of the screen are kept in a buffer that rolls, each with its
length, its length when it was last sent, and whether it has been modified since.
`screen_redraw` sends the whole buffer; `screen_flush` sends pending scrolls, the
modified lines and the ends of lines that have become shorter, and moves the cursor of
the terminal from where it should be.

The buffer is allocated, and the terminal has as many lines and columns as the screen.
-/

namespace Fbbs

namespace ScreenBuffer

open TerminalGrid

def screenLineLen : Nat := 1019

/-- `screen_line_t`. -/
structure Line where
  oldLen : Nat
  len : Nat
  modified : Bool
  data : Nat → UInt8

/-- `screen_t`; the lines of the buffer by their position in it. -/
structure Screen where
  buf : Nat → Line
  columns : Nat
  lines : Nat
  curLn : Nat
  curCol : Nat
  tcLine : Nat
  tcCol : Nat
  roll : Nat
  scrollcnt : Int
  redraw : Bool
  utf8 : Bool

/-- The screen and the terminal that it is sent to. -/
structure Session where
  screen : Screen
  terminal : Terminal

namespace Session

/-- `terminal_putchar`, `terminal_write_cached` and `ansi_cmd`. -/
def send (s : Session) (commands : List Command) : Session :=
  { s with terminal := run s.screen.lines s.screen.columns s.terminal commands }

end Session

/-- `move_terminal_cursor`. -/
def moveTerminalCursor (col line : Nat) (s : Session) : Session :=
  let tcLine := s.screen.tcLine
  let tcCol := s.screen.tcCol
  if line ≥ s.screen.lines ∨ col ≥ s.screen.columns then s
  else
    let s :=
      if col = 0 ∧ line = tcLine + 1 then
        s.send (.lineFeed :: if tcCol ≠ 0 then [.carriageReturn] else [])
      else if col = 0 ∧ line = tcLine then
        s.send (if tcCol ≠ 0 then [.carriageReturn] else [])
      else if col + 1 = tcCol ∧ line = tcLine then s.send [.backspace]
      else if col ≠ tcCol ∨ line ≠ tcLine then s.send [.moveTo line col]
      else s
    { s with screen := { s.screen with tcCol := col, tcLine := line } }

/-- The position of a line in the buffer. -/
def slot (screen : Screen) (line : Nat) : Nat :=
  (line + screen.roll) % screen.lines

def getScreenLine (screen : Screen) (line : Nat) : Line :=
  screen.buf (slot screen line)

/-- Assignments to the fields of a line. -/
def setLine (screen : Screen) (line : Nat) (sl : Line) : Screen :=
  { screen with buf := Function.update screen.buf (slot screen line) sl }

def Line.bytes (sl : Line) : Bytes :=
  (List.range sl.len).map sl.data

section Convert

-- The conversion from UTF-8 to GBK of `iconv`.
variable (convert : Bytes → Bytes)

/-- `screen_write_cached`. -/
def screenWriteCached (sl : Line) (s : Session) : Session :=
  s.send ((if s.screen.utf8 then sl.bytes else convert sl.bytes).map .put)

/-- The body of the loop of `screen_redraw`. -/
def redrawLine (s : Session) (i : Nat) : Session :=
  let sl := getScreenLine s.screen i
  if sl.len = 0 then s
  else
    let s := screenWriteCached convert sl (moveTerminalCursor 0 i s)
    let tcCol := s.screen.tcCol + sl.len
    let screen :=
      { s.screen with
        tcCol := if tcCol ≥ s.screen.columns then s.screen.columns - 1 else tcCol }
    { s with screen := setLine screen i { sl with modified := false, oldLen := sl.len } }

def screenRedraw (s : Session) : Session :=
  let s := s.send [.clearScreen]
  let s := { s with screen := { s.screen with tcCol := 0, tcLine := 0 } }
  let s := (List.range s.screen.lines).foldl (redrawLine convert) s
  let s := moveTerminalCursor s.screen.curCol s.screen.curLn s
  { s with screen := { s.screen with redraw := false, scrollcnt := 0 } }

/-- The first half of the loop of `screen_flush`: a modified line. -/
def flushModified (s : Session) (i : Nat) : Session :=
  let sl := getScreenLine s.screen i
  if sl.modified then
    let s := { s with screen := setLine s.screen i { sl with modified := false } }
    let s := screenWriteCached convert sl (moveTerminalCursor 0 i s)
    if sl.len ≥ s.screen.columns then
      { s with
        screen :=
          { s.screen with
            tcCol := sl.len - s.screen.columns
            tcLine :=
              if s.screen.tcLine + 1 ≥ s.screen.lines then s.screen.lines - 1
              else s.screen.tcLine + 1 } }
    else { s with screen := { s.screen with tcCol := sl.len } }
  else s

/-- The second half: the end of a line that has become shorter. -/
def flushShorter (s : Session) (i : Nat) : Session :=
  let sl := getScreenLine s.screen i
  let s := if sl.oldLen > sl.len then (moveTerminalCursor sl.len i s).send [.clearToEol] else s
  { s with screen := setLine s.screen i { sl with oldLen := sl.len } }

def flushLine (s : Session) (i : Nat) : Session :=
  flushShorter (flushModified convert s i) i

def flushScrolls (s : Session) : Session :=
  let s :=
    if s.screen.scrollcnt < 0 then
      (moveTerminalCursor 0 0 s).send
        (List.replicate s.screen.scrollcnt.natAbs .scrollReverse)
    else s
  let s :=
    if s.screen.scrollcnt > 0 then
      (moveTerminalCursor 0 (s.screen.lines - 1) s).send
        (List.replicate s.screen.scrollcnt.natAbs .lineFeed)
    else s
  { s with screen := { s.screen with scrollcnt := 0 } }

def screenFlush (inputEmpty : Bool) (s : Session) : Session :=
  if !inputEmpty then s
  else if s.screen.redraw ∨ (s.screen.scrollcnt.natAbs : Int) ≥ s.screen.lines - 3 then
    screenRedraw convert s
  else
    let s := flushScrolls s
    let s := (List.range s.screen.lines).foldl (flushLine convert) s
    moveTerminalCursor s.screen.curCol s.screen.curLn s

end Convert

/-! ## The buffer -/

def move (line : Int) (col : Nat) (screen : Screen) : Screen :=
  { screen with curCol := col, curLn := (if line < 0 then line + screen.lines else line).toNat }

/-- `memset` with blanks. -/
def padded (data : Nat → UInt8) (start size : Nat) : Nat → UInt8 :=
  fun i => if start ≤ i ∧ i < start + size then 32 else data i

/-- A line is cut at a column, or filled up to it. -/
def cutLine (sl : Line) (col : Nat) : Line :=
  { sl with
    data := if col > sl.len then padded sl.data sl.len (col - sl.len + 1) else sl.data
    len := col }

def clrtoeol (screen : Screen) : Screen :=
  setLine screen screen.curLn (cutLine (getScreenLine screen screen.curLn) screen.curCol)

def screenClrtobot (screen : Screen) : Screen :=
  (List.range' screen.curLn (screen.lines - screen.curLn)).foldl (fun screen i =>
    setLine screen i
      { getScreenLine screen i with modified := false, len := 0, oldLen := screenLineLen }) screen

/-- A character at a column of a line. -/
def putChar (sl : Line) (col : Nat) (c : UInt8) : Line :=
  let data := if col > sl.len then padded sl.data sl.len (col - sl.len) else sl.data
  { sl with
    modified := true
    data := fun i => if i = col then c else data i
    len := if col + 1 > sl.len then col + 1 else sl.len }

def isNewline (c : UInt8) : Bool :=
  c == 10 || c == 13

/-- The loop of `screen_puts`.  It goes on with the same line after a newline. -/
def putsLoop : Bytes → Nat → Screen → Screen
  | [], _, screen => screen
  | c :: rest, place, screen =>
    let sl := screen.buf place
    if isNewline c then
      putsLoop rest place
        { screen with
          buf := Function.update screen.buf place (cutLine sl screen.curCol)
          curCol := 0
          curLn := if screen.curLn < screen.lines then screen.curLn + 1 else screen.curLn }
    else
      putsLoop rest place
        { screen with
          buf := Function.update screen.buf place (putChar sl screen.curCol c)
          curCol := screen.curCol + 1 }

def screenPuts (string : Bytes) (screen : Screen) : Screen :=
  putsLoop string (slot screen screen.curLn) screen

def screenMoveClear (line : Int) (screen : Screen) : Screen :=
  clrtoeol (move line 0 screen)

def screenScroll (screen : Screen) : Screen :=
  let roll := screen.roll + 1
  screenMoveClear (-1)
    { screen with
      scrollcnt := screen.scrollcnt + 1
      roll := if roll ≥ screen.lines then roll - screen.lines else roll }

/-! ## Calls -/

inductive Call
  | move (line : Int) (col : Nat)
  | puts (string : Bytes)
  | clrtoeol
  | clrtobot
  | scroll
  | flush

def call (convert : Bytes → Bytes) (s : Session) : Call → Session
  | .move line col => { s with screen := move line col s.screen }
  | .puts string => { s with screen := screenPuts string s.screen }
  | .clrtoeol => { s with screen := clrtoeol s.screen }
  | .clrtobot => { s with screen := screenClrtobot s.screen }
  | .scroll => { s with screen := screenScroll s.screen }
  | .flush => screenFlush convert true s

def calls (convert : Bytes → Bytes) (s : Session) (list : List Call) : Session :=
  list.foldl (call convert) s

end ScreenBuffer

end Fbbs
