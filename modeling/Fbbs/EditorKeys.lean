import Fbbs.Editor

/-!
# Keys of the line editor

`vedit_key` of `src/edit.c`: what each key does, and the compensations at its end that keep the
cursor in the window.  Display is left out.
-/

namespace Fbbs

namespace Editor

open CharArrays ListNeighbours

/-! ## Moving -/

/-- `back_line`, with the number of lines it has moved. -/
def backLine (s : State) : Nat → Nat → Option (Nat × Nat)
  | 0, pos => some (pos, 0)
  | num + 1, pos =>
    if pos = s.canEditBegin then some (pos, 0)
    else
      match s.prev pos with
      | none => none
      | some before => (backLine s num before).map fun moved => (moved.1, moved.2 + 1)

/-- `forward_line`, with the number of lines it has moved. -/
def forwardLine (s : State) : Nat → Nat → Nat × Nat
  | 0, pos => (pos, 0)
  | num + 1, pos =>
    match s.next pos with
    | none => (pos, 0)
    | some behind =>
      if behind = s.canEditEnd then (pos, 0)
      else ((forwardLine s num behind).1, (forwardLine s num behind).2 + 1)

/-- `countline`: how many lines it goes on from here. -/
def countline (s : State) : Nat → Nat → Nat
  | 0, _ => 0
  | fuel + 1, pos =>
    if pos = s.canEditEnd then 0
    else
      match s.next pos with
      | none => 0
      | some behind => countline s fuel behind + 1

/-- `getlineno`: how many lines it goes back to the top of the window. -/
def getlineno (s : State) : Nat → Nat → Nat
  | 0, _ => 0
  | fuel + 1, pos =>
    if pos = s.topOfWin then 0
    else
      match s.prev pos with
      | none => 1
      | some before => getlineno s fuel before + 1

/-- The current line and the window have been moved by pages. -/
def recount (s : State) : State :=
  { s with
    currWindowLine := (getlineno s (s.order.length + 1) s.currline : Nat)
    currpnt := min s.currpnt s.current.len }

def pageUp (s : State) : Option State :=
  match backLine s (s.screenLines - 2) s.topOfWin with
  | none => none
  | some (top, _) =>
    match backLine s (s.screenLines - 2) s.currline with
    | none => none
    | some (line, moved) =>
      some (recount { s with topOfWin := top, currline := line, currln := s.currln - moved })

def pageDown (s : State) : Option State :=
  if s.topOfWin ∈ s.order then
    let (line, moved) := forwardLine s 22 s.currline
    some
      (recount
        { s with
          topOfWin := (forwardLine s 22 s.topOfWin).1
          currline := line
          currln := s.currln + moved })
  else none

/-- `Ctrl('S')`. -/
def toStart (s : State) : State :=
  { s with
    topOfWin := s.canEditBegin
    currline := s.canEditBegin
    currpnt := 0
    currWindowLine := 0
    currln := 0 }

/-- `Ctrl('T')`. -/
def toTail (s : State) : Option State :=
  match s.prev s.canEditEnd with
  | none => none
  | some last =>
    match backLine s 22 last with
    | none => none
    | some (top, _) =>
      let s :=
        { s with
          topOfWin := top
          currln := countline s (s.order.length + 1) s.canEditBegin
          currline := last }
      some
        { s with
          currWindowLine := (getlineno s (s.order.length + 1) s.currline : Nat)
          currpnt := 0 }

def left (s : State) : State :=
  if s.currpnt > 0 then { s with currpnt := s.currpnt - 1 }
  else if s.currline = s.canEditBegin then s
  else
    match s.prev s.currline with
    | none => s
    | some before =>
      { s with
        currWindowLine := s.currWindowLine - 1
        currln := s.currln - 1
        currline := before
        currpnt := (s.lines before).len }

def right (s : State) : State :=
  if s.current.len ≠ s.currpnt then { s with currpnt := s.currpnt + 1 }
  else
    match s.next s.currline with
    | none => s
    | some behind =>
      if behind = s.canEditEnd then s
      else
        { s with
          currpnt := 0
          currWindowLine := s.currWindowLine + 1
          currln := s.currln + 1
          currline := behind }

/-- The column the cursor had before it went up or down, if the line is long enough. -/
def indented (s : State) (line : Nat) : Nat :=
  if (s.lines line).len > s.lastindent then s.lastindent.toNat else (s.lines line).len

def up (s : State) : Option State :=
  if s.currline = s.canEditBegin then some s
  else
    match s.prev s.currline with
    | none => none
    | some before =>
      some
        { s with
          currln := s.currln - 1
          currWindowLine := s.currWindowLine - 1
          currline := before
          currpnt := indented s before }

def down (s : State) : Option State :=
  match s.next s.currline with
  | none => none
  | some behind =>
    if behind = s.canEditEnd then some s
    else
      some
        { s with
          currline := behind
          currWindowLine := s.currWindowLine + 1
          currln := s.currln + 1
          currpnt := indented s behind }

/-! ## Blocks -/

/-- The lines that may be edited. -/
def region (s : State) : List Nat :=
  (s.order.dropWhile (· ≠ s.canEditBegin)).takeWhile (· ≠ s.canEditEnd)

def setMark (marked : Bool) (s : State) (line : Nat) : State :=
  s.setLine line { s.lines line with marked := marked }

/-- A line of the region, with how many ends of the block have been passed. -/
def markLine (first last : Nat) (passed : Nat × State) (line : Nat) : Nat × State :=
  if line = first ∨ line = last then (passed.1 + 1, setMark true passed.2 line)
  else (passed.1, setMark (decide (passed.1 = 1)) passed.2 line)

/-- `mark_block`. -/
def markBlock (s : State) : State × Nat :=
  let s := (region s).foldl (setMark false) s
  match s.markBegin, s.markEnd with
  | none, none => (s, 0)
  | none, some last => (setMark true s last, 1)
  | some first, none => (setMark true s first, 1)
  | some first, some last =>
    if first = last then (setMark true s first, 2)
    else (((region s).foldl (markLine first last) (0, s)).2, 2)

/-- `process_MARK_action('1')`. -/
def markHere (s : State) : State :=
  (markBlock
    (match s.markBegin with
    | some _ => { s with markEnd := some s.currline }
    | none => { s with markBegin := some s.currline })).1

/-- `ve_insert_str` of a line, from its byte `k` on. -/
def pasteString (fuel p : Nat) : Nat → Nat → State → Option State
  | 0, _, _ => none
  | left + 1, k, s =>
    if p ∈ s.order ∧ k ≤ wrapMargin then
      if (s.lines p).data k = 0 then some s
      else
        match insertChar fuel ((s.lines p).data k) s with
        | none => none
        | some s => pasteString fuel p left (k + 1) s
    else none

/-- The loop of `process_MARK_action('2')`. -/
def pasteLines (fuel : Nat) : Nat → Option Nat → State → Option State
  | 0, _, _ => none
  | _ + 1, none, _ => none
  | left + 1, some p, s =>
    if p = s.canEditEnd then some s
    else if p ∈ s.order then
      if (s.lines p).marked then
        match pasteString fuel p fuel 0 s with
        | none => none
        | some s =>
          let s := split s.currline s.currpnt s
          if p ∈ s.order then pasteLines fuel left (s.next p) s else none
      else some s
    else none

/-- `process_MARK_action('2')`. -/
def paste (fuel : Nat) (s : State) : Option State :=
  let (s, on) := markBlock s
  if on ≠ 0 ∧ !s.current.marked then pasteLines fuel fuel s.markBegin s else some s

/-! ## Keys -/

inductive Key where
  | char (c : UInt8)
  | tab
  | enter
  | toggleDouble
  | redraw
  | left
  | paste
  | mark
  | right
  | up
  | down
  | pageUp
  | pageDown
  | home
  | lineEnd
  | start
  | tail
  | toggleInsert
  | backspace
  | delete
  | deleteLine
  | kill
  | other
  deriving DecidableEq

/-- The cases of `vedit_key`. -/
def keyOf (ch : Nat) : Key :=
  if ch < 256 ∧ isprint2 ch then .char (UInt8.ofNat ch)
  else
    match ch with
    | 9 => .tab
    | 13 | 10 => .enter
    | 18 => .toggleDouble
    | 7 | 17 => .redraw
    | 0x104 => .left
    | 3 => .paste
    | 21 => .mark
    | 22 | 0x103 => .right
    | 16 | 0x101 => .up
    | 14 | 0x102 => .down
    | 2 | 0x205 => .pageUp
    | 6 | 0x206 => .pageDown
    | 1 | 0x201 => .home
    | 5 | 0x204 => .lineEnd
    | 19 => .start
    | 20 => .tail
    | 15 | 0x202 => .toggleInsert
    | 8 | 0x7f => .backspace
    | 4 | 0x203 => .delete
    | 25 => .deleteLine
    | 11 => .kill
    | _ => .other

/-- `no_touch`: an edited line that shows colours is not changed. -/
def noTouch (s : State) : Bool :=
  s.editansi && s.current.text.contains escape

/-- `abort_bbs`. -/
def abortBbs (_ : State) : Option State :=
  none

/-- Blanks up to a column that is a multiple of four. -/
def tabKey (fuel : Nat) : Nat → State → Option State
  | 0, s => some s
  | count + 1, s =>
    match insertChar fuel blank s with
    | none => none
    | some s => if s.currpnt % 4 = 0 then some s else tabKey fuel count s

/-- The cursor at the end of the line before, and the top of the window a line on if the cursor
was in it. -/
def toPrevious (before : Nat) (s : State) : Option State :=
  let s : State :=
    { s with
      currln := s.currln - 1
      currline := before
      currpnt := (s.lines before).len
      currWindowLine := s.currWindowLine - 1 }
  if s.currWindowLine < 0 then
    match s.next s.topOfWin with
    | none => none
    | some top => some { s with topOfWin := top }
  else some s

/-- `Ctrl('H')`. -/
def backspaceKey (fuel : Nat) (s : State) : Option State :=
  if s.currpnt = 0 then
    if s.currline = s.canEditBegin then some s
    else
      match s.prev s.currline with
      | none => none
      | some before =>
        match toPrevious before s with
        | none => none
        | some after =>
          -- `killsp` leaves nothing of the line.
          if s.current.text.all (· == blank) then deleteLine s.currline after
          else joinAll abortBbs fuel before after
  else some (deleteChar { s with currpnt := s.currpnt - 1 })

/-- `Ctrl('K')`. -/
def killKey (fuel : Nat) (s : State) : Option State :=
  match s.next s.currline with
  | none => none
  | some behind =>
    let line := s.current
    if behind = s.canEditEnd then
      let len :=
        if line.len > s.currpnt then s.currpnt else if s.currpnt ≠ 0 then 0 else line.len
      let currpnt := if line.len > s.currpnt then s.currpnt else 0
      some
        { s.setLine s.currline
            { line with len := len, data := Function.update line.data currpnt 0 } with
          currpnt := currpnt }
    else if line.len = 0 then
      (deleteLine s.currline
        { s with topOfWin := if s.currline = s.topOfWin then behind else s.topOfWin }).map
        fun s => { s with currline := behind }
    else if line.len = s.currpnt then joinAll abortBbs fuel s.currline s
    else
      let currpnt := if highRun line.data s.currpnt % 2 = 1 then s.currpnt - 1 else s.currpnt
      some
        { s.setLine s.currline
            { line with len := currpnt, data := Function.update line.data currpnt 0 } with
          currpnt := currpnt }

/-- The end of `vedit_key`: a cursor above the window. -/
def scrollBack (s : State) : Option State :=
  if s.currWindowLine < 0 then
    if s.topOfWin = s.canEditBegin then some { s with currWindowLine := 0 }
    else
      match s.prev s.topOfWin with
      | none => none
      | some before => some { s with currWindowLine := 0, topOfWin := before }
  else some s

/-- One round of the loop for a cursor below the window. -/
def scrollOn : Nat → State → Option State
  | 0, s => some s
  | n + 1, s =>
    match s.next s.topOfWin with
    | none => none
    | some behind =>
      scrollOn n
        { s with
          currWindowLine := s.currWindowLine - 1
          topOfWin := if behind = s.canEditEnd then s.topOfWin else behind }

/-- The compensations at the end of `vedit_key`. -/
def settle (s : State) : Option State :=
  match scrollBack s with
  | none => none
  | some s =>
    if s.currWindowLine ≥ (s.screenLines : Int) - 1 then
      scrollOn (s.currWindowLine - s.screenLines + 2).toNat s
    else some s

/-- What `vedit_key` remembers of the column when the cursor goes up or down. -/
def indent (key : Key) (s : State) : State :=
  { s with
    lastindent :=
      if key = .up ∨ key = .down then if s.lastindent = -1 then s.currpnt else s.lastindent
      else -1 }

/-- A change that is not made in a line that shows colours. -/
def touch (change : State → Option State) (s : State) : Option State :=
  if noTouch s then some s else change s

/-- `vedit_key(Ctrl('K'))`, as other keys call it. -/
def veditKill (fuel : Nat) (s : State) : Option State :=
  (touch (killKey fuel) (indent .kill s)).bind settle

/-- What a key does before the compensations. -/
def press (fuel : Nat) (key : Key) (s : State) : Option State :=
  match key with
  | .char c => touch (insertChar fuel c) s
  | .tab => touch (tabKey fuel 4) s
  | .enter => touch (fun s => some (split s.currline s.currpnt s)) s
  | .toggleDouble => some { s with enabledbchar := !s.enabledbchar }
  | .redraw => some s
  | .left => some (left s)
  | .paste => paste fuel s
  | .mark => some (markHere s)
  | .right => some (right s)
  | .up => up s
  | .down => down s
  | .pageUp => pageUp s
  | .pageDown => pageDown s
  | .home => some { s with currpnt := 0 }
  | .lineEnd => some { s with currpnt := s.current.len }
  | .start => some (toStart s)
  | .tail => toTail s
  | .toggleInsert => some { s with insertCharacter := !s.insertCharacter }
  | .backspace => touch (backspaceKey fuel) s
  | .delete =>
    touch (fun s => if s.current.len = s.currpnt then veditKill fuel s else some (deleteChar s)) s
  | .deleteLine =>
    veditKill fuel { s.setLine s.currline { s.current with len := 0 } with currpnt := 0 }
  | .kill => touch (killKey fuel) s
  | .other => some s

/-- `vedit_key`. -/
def veditKey (fuel ch : Nat) (s : State) : Option State :=
  (press fuel (keyOf ch) (indent (keyOf ch) s)).bind settle

end Editor

end Fbbs
