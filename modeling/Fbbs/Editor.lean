import Fbbs.AsciiBytes
import Fbbs.CharArrays
import Fbbs.ListNeighbours
import Mathlib.Data.UInt

/-!
# The line editor

`src/edit.c`: the lines of a text as a doubly linked list, of which a part may be edited.  The
current line and the top line of the window are pointers to lines, with the row of the cursor
and the number of the line beside them.  Lines are split and joined to wrap words.

A line is known by the number of its allocation.  A pointer to a line that has been freed is a
number that is not in the list any more, and going through it has no result; neither has a
write behind the array of a line, or a loop that does not end.
-/

namespace Fbbs

namespace Editor

open AsciiBytes CharArrays ListNeighbours

abbrev Bytes := List UInt8

def wrapMargin : Nat := 255

/-- `struct textline` without its links; of `attr` there is only `M_MARK`. -/
structure TextLine where
  len : Nat
  marked : Bool
  data : Nat → UInt8

/-- The lines that are allocated and the variables of the editor; `raw` is what memory holds
that is allocated. -/
structure State where
  order : List Nat
  lines : Nat → TextLine
  fresh : Nat
  raw : Nat → Nat → UInt8
  canEditBegin : Nat
  canEditEnd : Nat
  topOfWin : Nat
  currline : Nat
  markBegin : Option Nat
  markEnd : Option Nat
  currpnt : Nat
  currWindowLine : Int
  currln : Int
  linelen : Nat
  lastindent : Int
  screenLines : Nat
  insertCharacter : Bool
  editansi : Bool
  enabledbchar : Bool

def escape : UInt8 := 27

def blank : UInt8 := 32

def dash : UInt8 := 45

/-- The string that a line holds. -/
def TextLine.text (line : TextLine) : Bytes :=
  string (wrapMargin + 1) line.data

namespace State

def next (s : State) (line : Nat) : Option Nat :=
  ListNeighbours.next s.order line

def prev (s : State) (line : Nat) : Option Nat :=
  ListNeighbours.prev s.order line

def setLine (s : State) (line : Nat) (value : TextLine) : State :=
  { s with lines := Function.update s.lines line value }

def current (s : State) : TextLine :=
  s.lines s.currline

end State

/-! ## Bytes of a line -/

/-- `strchr` in `"[0123456789;"`, which finds the zero at its end too. -/
def isCode (c : UInt8) : Bool :=
  [0, 91, 48, 49, 50, 51, 52, 53, 54, 55, 56, 57, 59].contains c

/-- `num_ans_chr`, with whether an escape sequence goes on. -/
def numAnsChr : Bool → Bytes → Nat
  | _, [] => 0
  | ansi, c :: rest =>
    if c = escape then numAnsChr true rest + 1
    else if ansi then numAnsChr (isCode c || c == blank) rest + 1
    else numAnsChr false rest

/-- The columns that a line takes, by its length. -/
def TextLine.shown (line : TextLine) : Int :=
  (line.len : Int) - numAnsChr false line.text

/-- `seekthestr`.  Escape sequences make no difference to it, and a negative number is never
counted down to zero. -/
def seekthestr : Bytes → Int → Nat
  | [], _ => 0
  | _ :: rest, num => if num = 0 then 0 else seekthestr rest (num - 1) + 1

/-- Go back to a byte that is not as given, or to the first one. -/
def skipBack (skip : UInt8 → Bool) (data : Nat → UInt8) : Nat → Nat
  | 0 => 0
  | i + 1 => if skip (data (i + 1)) then skipBack skip data i else i + 1

/-- How many bytes before a place have the high bit. -/
def highRun (data : Nat → UInt8) : Nat → Nat
  | 0 => 0
  | i + 1 => if isHigh (data i) then highRun data i + 1 else 0

/-- `isprint2`. -/
def isprint2 (ch : Nat) : Bool :=
  (decide (128 ≤ ch % 256) && ch % 256 != 255) || (decide (32 ≤ ch % 256) && decide (ch % 256 < 127))

/-! ## Lines of the list -/

/-- The new line is put behind this one. -/
def append (new line : Nat) (s : State) : State :=
  { s with
    order := insertAfter line new s.order
    canEditEnd := if line = s.canEditEnd then new else s.canEditEnd }

/-- `delete_line`. -/
def deleteLine (line : Nat) (s : State) : Option State :=
  match s.next line with
  | none => none
  | some behind =>
    if line = s.canEditBegin ∧ behind = s.canEditEnd then
      some
        { s.setLine line ⟨0, false, Function.update (s.lines line).data 0 0⟩ with
          markBegin := none
          markEnd := none
          currpnt := 0 }
    else
      some
        { s with
          markBegin :=
            if s.markBegin = some line then
              if behind = s.canEditEnd then none else some behind
            else s.markBegin
          markEnd :=
            if s.markEnd = some line then
              if line = s.canEditBegin then none else s.prev line
            else s.markEnd
          canEditBegin := if line = s.canEditBegin then behind else s.canEditBegin
          order := s.order.erase line }

/-- Where `split` cuts: neither within a character of two bytes nor within a short escape
sequence. -/
def splitPos (data : Nat → UInt8) (pos : Nat) : Nat :=
  let pos := if highRun data pos % 2 = 1 then pos - 1 else pos
  if pos ≠ 0 ∧ isCode (data (pos - 1)) then
    let i := skipBack (fun c => isCode c && c != escape) data (pos - 1)
    if data i = escape then if pos - i < 20 then i else pos - 1 else pos
  else pos

/-- `split`. -/
def split (line pos : Nat) (s : State) : State :=
  let old := s.lines line
  if pos > old.len then s
  else
    let pos := splitPos old.data pos
    let p := s.fresh
    let new : TextLine :=
      ⟨old.len - pos, old.marked,
        strcpy (Function.update (s.raw p) 0 0) (stringAt (wrapMargin + 1) old.data pos)⟩
    let cut : TextLine := ⟨pos, old.marked, Function.update old.data pos 0⟩
    let s := append p line ({ s with fresh := p + 1 }.setLine p new |>.setLine line cut)
    let s :=
      if (s.markEnd = none ∧ s.markBegin = some line) ∨ s.markEnd = some line then
        { s with markEnd := some p }
      else s
    if line = s.currline ∧ pos ≤ s.currpnt then
      { s with
        currline := p
        currpnt := s.currpnt - pos
        currWindowLine := s.currWindowLine + 1
        currln := s.currln + 1 }
    else s

/-- What `join` makes of the next line when it looks whether a signature begins there: the test
of the second byte is an assignment. -/
def dashed (line : TextLine) : TextLine :=
  if line.data 0 = dash then { line with data := Function.update line.data 1 dash } else line

/-- The text of the next line is appended to a line, and so are its marks. -/
def grow (line behind : Nat) (s : State) : State :=
  let own := s.lines line
  let other := s.lines behind
  { s.setLine line
      ⟨own.len + other.len, if other.marked then other.marked else own.marked,
        strcat (wrapMargin + 1) own.data other.text⟩ with
    markBegin := if s.markBegin = some behind then some line else s.markBegin
    markEnd := if s.markEnd = some behind then some line else s.markEnd }

def takeUp (line behind : Nat) (s : State) : Option State :=
  if (s.lines line).text.length + (s.lines behind).text.length > wrapMargin then none
  else deleteLine behind (grow line behind s)

/-- A blank at the end of a line that has been split off, unless there is one. -/
def addBlank (line : Nat) (s : State) : Option State :=
  let old := s.lines line
  if 1 ≤ old.len ∧ (old.len : Int) + 1 - numAnsChr false old.text < s.linelen ∧
      old.data (old.len - 1) ≠ blank then
    if old.text.length ≥ wrapMargin then none
    else
      some (s.setLine line
        ⟨old.len + 1, old.marked, strcat (wrapMargin + 1) old.data [blank]⟩)
  else some s

/-- Where `join` breaks the next line when it does not fit. -/
def breakPos (line : TextLine) (num : Int) : Nat :=
  skipBack (fun c => c != blank) line.data
    (skipBack (fun c => c == blank) line.data (seekthestr line.text num))

/-- `join`.  It calls itself once, so that the fuel is the depth. -/
def join : Nat → Nat → State → Option (State × Bool)
  | 0, _, _ => none
  | fuel + 1, line, s =>
    match s.next line with
    | none => some (s, true)
    | some behind =>
      if behind = s.canEditEnd then some (s, true)
      else
        let s := s.setLine behind (dashed (s.lines behind))
        -- The string may have lost its end.
        if (s.lines behind).text.length > wrapMargin then none
        else if (s.lines behind).data 0 = dash ∧ (s.lines behind).len = 2 then some (s, true)
        else
          let ovfl := (s.lines line).shown + (s.lines behind).shown - s.linelen
          if ovfl < 0 then (takeUp line behind s).map fun s => (s, true)
          else
            let pos := breakPos (s.lines behind) ((s.lines behind).len - ovfl - 1)
            if pos = 0 ∨ s.linelen > pos + 8 then some (s, true)
            else
              let s := split behind (pos + 1) s
              if (s.lines line).shown + (s.lines behind).shown ≥ s.linelen then some (s, true)
              else
                match join fuel line s with
                | none => none
                | some (s, _) =>
                  match s.next line with
                  | none => none
                  | some p => (addBlank p s).map fun s => (s, false)

/-- `while (!join(p)) p = p->next`; `atNull` is what follows when there is no next line. -/
def joinAll (atNull : State → Option State) : Nat → Nat → State → Option State
  | 0, _, _ => none
  | fuel + 1, p, s =>
    match join 2 p s with
    | none => none
    | some (s, true) => some s
    | some (s, false) =>
      match s.next p with
      | none => atNull s
      | some p => joinAll atNull fuel p s

/-! ## Characters -/

/-- Lines that are too long are split before a character is inserted. -/
def cutOverlong : Nat → Nat → State → Option State
  | 0, _, _ => none
  | fuel + 1, p, s =>
    if (s.lines p).shown > s.linelen then
      let s := split p (seekthestr (s.lines p).text s.linelen) s
      match s.next p with
      | none => none
      | some p => cutOverlong fuel p s
    else some s

/-- The character is written into the line, over another one or before it. -/
def putChar (p : Nat) (ch : UInt8) (s : State) : State :=
  let old := s.lines p
  if s.currpnt < old.len ∧ !s.insertCharacter then
    { s.setLine p { old with data := Function.update old.data s.currpnt ch } with
      currpnt := s.currpnt + 1 }
  else if old.len < wrapMargin then
    let shifted := fun i =>
      if i = s.currpnt then ch
      else if s.currpnt < i ∧ i ≤ old.len + 1 then old.data (i - 1) else old.data i
    { s.setLine p { old with len := old.len + 1, data := shifted } with
      currpnt := s.currpnt + 1 }
  else s

/-- A blank behind a word that has been wrapped, unless there is one. -/
def endWord (p : Nat) (s : State) : Option State :=
  let old := s.lines p
  if 1 ≤ old.len ∧ old.data (old.len - 1) ≠ blank then
    if old.len ≥ wrapMargin then none
    else
      some (s.setLine p
        { old with
          len := old.len + 1
          data := Function.update (Function.update old.data old.len blank) (old.len + 1) 0 })
  else some s

/-- Whether the line is wrapped at a word, and the last byte that stays. -/
def wrapPos (line : TextLine) : Bool × Nat :=
  let i := skipBack (fun c => c == blank) line.data (seekthestr line.text ((line.len : Int) - 1))
  if isHigh (line.data i) then (false, seekthestr line.text ((line.len : Int) - 2))
  else
    let j := skipBack (fun c => c != blank && !isHigh c) line.data i
    if line.data j = blank then (true, j)
    else (false, seekthestr line.text ((line.len : Int) - 2))

/-- The end of `insert_char`: a line that has become full is wrapped. -/
def wrap (fuel p : Nat) (s : State) : Option State :=
  let (wordwrap, i) := wrapPos (s.lines p)
  let s := split p (i + 1) s
  match s.next p with
  | none => none
  | some p =>
    match (if wordwrap then endWord p s else some s) with
    | none => none
    | some s => joinAll some fuel p s

/-- `insert_char`. -/
def insertChar (fuel : Nat) (ch : UInt8) (s : State) : Option State :=
  let p := s.currline
  if s.currpnt > (s.lines p).len then some s
  else
    match cutOverlong fuel p s with
    | none => none
    | some after =>
      -- The number of the line is taken back, but not the line.
      let s := putChar p ch { after with currln := s.currln }
      if (s.lines p).shown < (s.linelen : Int) - 1 ∧ (s.lines p).len < wrapMargin then some s
      else wrap fuel p s

/-- `delete_char`. -/
def deleteChar (s : State) : State :=
  let line := s.current
  if line.len = 0 ∨ s.currpnt ≥ line.len then s
  else
    let second :=
      s.enabledbchar && isHigh (line.data s.currpnt) && decide (highRun line.data s.currpnt % 2 = 1)
    let first :=
      s.enabledbchar && isHigh (line.data s.currpnt) &&
        decide (highRun line.data s.currpnt % 2 = 0) && decide (s.currpnt + 1 < line.len) &&
        isHigh (line.data (s.currpnt + 1))
    let patch := if first || second then 1 else 0
    let currpnt := if second then s.currpnt - 1 else s.currpnt
    let shifted := fun i => if currpnt ≤ i ∧ i < line.len then line.data (i + 1 + patch) else line.data i
    { s.setLine s.currline { line with len := line.len - 1 - patch, data := shifted } with
      currpnt := currpnt }

end Editor

end Fbbs
