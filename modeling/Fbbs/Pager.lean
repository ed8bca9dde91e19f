import Fbbs.AsciiBytes
import Mathlib.Order.Basic
import Mathlib.Logic.Function.Basic

/-!
# The pager

`src/more.c`: a text is read line by line, each line going on until it is as wide as the
screen.  The first line that begins in a block of the text is remembered with its number, so
that lines can be sought.  The cache of these lines stands in memory right behind the text,
and the scanner looks there.
-/

namespace Fbbs

namespace Pager

open AsciiBytes

/-- What `more_open_buffer` allocates: a text of this size with the line cache behind it.  What
follows the text is the address of the text. -/
structure Text where
  buf : Nat → UInt8
  size : Nat
  aligned : (buf size).toNat % 8 = 0

def linenumBlockSize : Nat := 4096

def tabStop : Int := 4

def intMax : Nat := 2147483647

/-- `IS_QUOTE` and `HAS_TABSTOP`. -/
structure LineProp where
  isQuote : Bool
  hasTabstop : Bool
  deriving DecidableEq

/-- `linenum_t`. -/
structure LineNum where
  offset : Nat
  number : Nat
  prop : LineProp

/-- `more_file_t`.  An entry of the cache is absent where its offset is `NULL`; pointers are
offsets in the text. -/
structure MoreFile where
  text : Text
  ln : Nat → Option LineNum
  total : Int
  width : Int
  line : Nat
  begin : Option Nat
  stop : Option Nat
  prop : LineProp

def Text.lnSize (text : Text) : Nat :=
  text.size / linenumBlockSize + 1

/-- `more_open` with `more_open_buffer`. -/
def openBuffer (text : Text) (width : Int) : MoreFile where
  text := text
  ln := fun _ => none
  total := -1
  width := width
  line := 0
  begin := none
  stop := none
  prop := ⟨false, false⟩

/-! ## One line -/

def lineFeed : UInt8 := 10

def carriageReturn : UInt8 := 13

def escape : UInt8 := 27

def tab : UInt8 := 9

/-- `memchr` in `"[0123456789;"`. -/
def isCode (c : UInt8) : Bool :=
  [91, 48, 49, 50, 51, 52, 53, 54, 55, 56, 57, 59].contains c

/-- What a round of the loop in `more_getline` leads to: another round, with the second byte of
a character skipped or not, or the end of the loop. -/
inductive Outcome where
  | next (skipped : Nat) (len : Int) (inEsc : Bool)
  | done (taken : Nat) (len : Int)
  deriving DecidableEq

/-- The columns up to the next tab stop. -/
def tabWidth (width len : Int) : Int :=
  tabStop - (width - len) % tabStop

def round (width : Int) (c : UInt8) (len : Int) (inEsc : Bool) : Outcome :=
  if c = lineFeed then .done 1 len
  else if c = escape then .next 0 len true
  else if inEsc then .next 0 len (isCode c)
  else if c = tab then
    let len := len - tabWidth width len
    -- The tab is left to the next line where it does not fit.
    if len < 0 then .done 0 len
    else if len = 0 then .done 1 len
    else .next 0 len false
  else if isHigh c then
    let len := len - 2
    if len < 0 then .done 0 len
    else if len = 0 then .done 2 len
    else .next 1 len false
  else
    let len := len - 1
    if len = 0 then .done 1 len else .next 0 len false

def roundProp (c : UInt8) (inEsc : Bool) (prop : LineProp) : LineProp :=
  if c = lineFeed then { prop with isQuote := false }
  else if c = tab ∧ !inEsc then { prop with hasTabstop := true }
  else prop

structure Scanned where
  next : Nat
  len : Int
  prop : LineProp

/-- The loop of `more_getline`, with the step behind the last byte that follows it. -/
def scan (text : Text) (width : Int) (ptr : Nat) (len : Int) (inEsc : Bool) (prop : LineProp) :
    Scanned :=
  if ptr < text.size then
    let prop := roundProp (text.buf ptr) inEsc prop
    match round width (text.buf ptr) len inEsc with
    | .next skipped len inEsc => scan text width (ptr + skipped + 1) len inEsc prop
    | .done taken len => ⟨ptr + taken, len, prop⟩
  else ⟨ptr + 1, len, prop⟩
termination_by text.size - ptr

/-- The first byte from here that is not a code of an escape sequence. -/
def skipCodes (text : Text) (ptr : Nat) : Nat :=
  if ptr < text.size ∧ isCode (text.buf ptr) then skipCodes text (ptr + 1) else ptr
termination_by text.size - ptr

/-- The end of an escape sequence that follows a full line. -/
def trailingEscape (text : Text) (ptr : Nat) : Nat :=
  if text.buf ptr = escape then skipCodes text (ptr + 1) + 1 else ptr

/-- The length of the line end at a place, if there is one. -/
def lineEndLength (text : Text) (ptr : Nat) : Nat :=
  if text.buf ptr = lineFeed then 1
  else if text.buf ptr = carriageReturn ∧ text.buf (ptr + 1) = lineFeed then 2
  else 0

/-- The end of the line and its properties when it has been scanned. -/
def finish (text : Text) (scanned : Scanned) : Nat × LineProp :=
  if scanned.next ≥ text.size then (text.size, scanned.prop)
  else if scanned.len = 0 then
    let ptr := trailingEscape text scanned.next
    (ptr + lineEndLength text ptr,
      if lineEndLength text ptr = 0 then scanned.prop
      else { scanned.prop with isQuote := false })
  else (scanned.next, scanned.prop)

/-- `strncmp` with `": "` and with `"> "`. -/
def startsQuote (text : Text) (begin : Nat) : Bool :=
  (text.buf begin == 58 || text.buf begin == 62) && text.buf (begin + 1) == 32

def startProp (text : Text) (begin : Nat) (prop : LineProp) : LineProp :=
  ⟨prop.isQuote || startsQuote text begin, false⟩

/-- The end and the properties of the line that begins here. -/
def lineFrom (text : Text) (width : Int) (begin : Nat) (prop : LineProp) : Nat × LineProp :=
  finish text (scan text width begin width false (startProp text begin prop))

/-! ## Reading, seeking and counting -/

namespace MoreFile

def cacheLine (more : MoreFile) (begin : Nat) : MoreFile :=
  match more.ln (begin / linenumBlockSize) with
  | some _ => more
  | none =>
    { more with
      ln := Function.update more.ln (begin / linenumBlockSize)
        (some ⟨begin, more.line, more.prop⟩) }

/-- `more_getline`.  There is no result where it goes outside the cache or the number of the line
is more than an `int` holds. -/
def getline (more : MoreFile) : Option (Int × MoreFile) :=
  if more.width < 2 then some (-1, more)
  else
    let begin := more.stop.getD 0
    if begin / linenumBlockSize < more.text.lnSize then
      let more := { more with stop := some begin, begin := some begin }.cacheLine begin
      if begin = more.text.size then some (0, more)
      else if more.line < intMax then
        let line := lineFrom more.text more.width begin more.prop
        some (line.1 - begin,
          { more with
            line := more.line + 1
            stop := some line.1
            prop := line.2
            total := if line.1 ≥ more.text.size then more.line + 1 else more.total })
      else none
    else none

/-- The first entry of the cache, from `i` on, that is empty or of a later line. -/
def findLn (ln : Nat → Option LineNum) (line : Nat) : Nat → Nat → Nat
  | 0, i => i
  | left + 1, i =>
    match ln i with
    | none => i
    | some entry => if entry.number > line then i else findLn ln line left (i + 1)

/-- Read on up to this line; every line read is the next one, so that the fuel is the number of
lines that are missing. -/
def readUntil (line : Nat) : Nat → MoreFile → Option MoreFile
  | 0, more => some more
  | fuel + 1, more =>
    if more.line < line then
      match more.getline with
      | none => none
      | some (size, more) => if size ≤ 0 then some more else readUntil line fuel more
    else some more

/-- The entry that reading starts from for a line, and the cache with it in its first place if it
was empty. -/
def nearestLn (more : MoreFile) (line : Nat) : LineNum × (Nat → Option LineNum) :=
  match findLn more.ln line more.text.lnSize 0 with
  | i + 1 => ((more.ln i).getD ⟨0, 0, ⟨false, false⟩⟩, more.ln)
  | 0 =>
    let first : LineNum := ⟨0, 0, (more.ln 0).elim ⟨false, false⟩ LineNum.prop⟩
    (first, Function.update more.ln 0 (some first))

/-- The place from which `more_seek` reads on. -/
def resume (more : MoreFile) (line : Nat) : MoreFile :=
  let (entry, ln) := more.nearestLn line
  if more.line > line ∨ more.line < entry.number then
    { more with ln := ln, line := entry.number, stop := some entry.offset }
  else { more with ln := ln }

/-- `more_seek`; what it returns is where the last line read begins. -/
def seek (more : MoreFile) (line : Int) : Option MoreFile :=
  let line := line.toNat
  readUntil line (line - (more.resume line).line) (more.resume line)

/-- The last of the first entries of the cache that is not empty. -/
def lastLn (ln : Nat → Option LineNum) : Nat → Option LineNum
  | 0 => none
  | n + 1 =>
    match ln n with
    | some entry => some entry
    | none => lastLn ln n

/-- The loop of `more_countline`. -/
def readAll : Nat → MoreFile → Option MoreFile
  | 0, _ => none
  | fuel + 1, more =>
    if more.total < 0 then
      match more.getline with
      | none => none
      | some (_, more) => readAll fuel more
    else some more

/-- `more_countline`.  There is no result where it looks before the cache, and none when the fuel
runs out before the loop ends. -/
def countline (fuel : Nat) (more : MoreFile) : Option (Int × MoreFile) :=
  if more.total ≥ 0 then some (more.total, more)
  else
    match lastLn more.ln more.text.lnSize with
    | none => none
    | some entry =>
      match readAll fuel { more with line := entry.number, stop := some entry.offset } with
      | none => none
      | some after =>
        some (after.total,
          { after with
            begin := more.begin
            stop := more.stop
            line := more.line
            prop := more.prop })

end MoreFile

end Pager

end Fbbs
