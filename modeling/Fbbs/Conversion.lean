import Fbbs.Parcel
import Fbbs.StreamConversion

/-!
# Conversion between UTF-8 and GBK

`convert` of `lib/convert.c` calls `iconv` in a loop.  With a callback every part of the text is
handed over as soon as it has been converted; without one the text is put into a buffer.  What
`iconv` does is given as a converter: it takes as many characters as fit and stops in front of
bytes that are invalid, incomplete or too many.
-/

namespace Fbbs

namespace Conversion

open StreamConversion

/-- `convert_type_e`, the types that have a descriptor. -/
inductive ConvertType
  | u2g
  | g2u

/-- What `convert_open` has opened. -/
structure Descriptors where
  u2g : Converter UInt8 UInt8
  g2u : Converter UInt8 UInt8

def convertDescriptor (opened : Descriptors) : ConvertType → Converter UInt8 UInt8
  | .u2g => opened.u2g
  | .g2u => opened.g2u

def iconv (cd : Converter UInt8 UInt8) (f : Bytes) (oleft : Nat) : Run UInt8 UInt8 :=
  cd.run f.length oleft f

/-- What a callback returns for a string, by the strings that it has got before. -/
abbrev Handler := List Bytes → Bytes → Int

/-- The input from `f` on, `l`, the text in the buffer, the strings that have been handed to the
callback, and `ret`. -/
structure State where
  f : Bytes
  l : Nat
  text : Bytes
  sent : List Bytes
  ret : Int32
  deriving DecidableEq

/-- `"?"`. -/
def questionMark : Bytes := [63]

/-- The error of a round. -/
def afterIconv (handler : Option Handler) (len : Nat) (status : Status) (s : State) : State :=
  match status with
  | .invalid =>
    { s with
      f := s.f.drop 1
      l := s.l - 1
      sent := if handler.isSome then s.sent ++ [questionMark] else s.sent }
  | .incomplete => { s with ret := .ofNat (len - s.l), l := 0 }
  | .full => s
  | .done => s

/-- The loop of `convert`; `size` is without the terminator. -/
def convertLoop (cd : Converter UInt8 UInt8) (handler : Option Handler) (size len : Nat) :
    Nat → State → Option State
  | 0, _ => none
  | fuel + 1, s =>
    if s.l = 0 then some s
    else
      let text := if handler.isSome then [] else s.text
      let run := iconv cd (s.f.take s.l) (size - text.length)
      let s := { s with f := run.rest, l := run.rest.length, text := text ++ run.out }
      if run.status = .full ∧ handler.isNone then some { s with ret := 0 }
      else
        let s := afterIconv handler len run.status s
        match handler with
        | none => convertLoop cd none size len fuel s
        | some handler =>
          if s.text = [] then convertLoop cd (some handler) size len fuel s
          else
            let next := { s with sent := s.sent ++ [s.text] }
            if handler s.sent s.text < 0 then some next
            else convertLoop cd (some handler) size len fuel next

/-- The room for text in the buffer that is given, of at least one byte (`size - 1` of no bytes would
wrap), or in `internal_buffer`. -/
def capacity : Option Nat → Nat
  | some size => size - 1
  | none => 1024 - 1

/-- `convert`; a null pointer is an empty input, and `CONVERT_ALL` is the length of a string. -/
def convert (opened : Descriptors) (type : ConvertType) (input : Bytes) (buf : Option Nat)
    (handler : Option Handler) (fuel : Nat) : Option State :=
  if input = [] then some ⟨[], 0, [], [], 0⟩
  else
    convertLoop (convertDescriptor opened type) handler (capacity buf) input.length fuel
      ⟨input, input.length, [], [], 0⟩

/-- `convert` returns, and leaves this state. -/
def Converts (opened : Descriptors) (type : ConvertType) (input : Bytes) (buf : Option Nat)
    (handler : Option Handler) (last : State) : Prop :=
  ∃ fuel, convert opened type input buf handler fuel = some last

/-! ## What `convert` should do -/

/-- The pieces of an input as a type reads them. -/
def piecesOf (opened : Descriptors) (type : ConvertType) (input : Bytes) :
    List (Piece UInt8 UInt8) × Bytes :=
  (convertDescriptor opened type).pieces input

/-- The callback gets the text with a question mark for every invalid byte, and the position of
an incomplete character at the end is returned. -/
def KeepsOrder (opened : Descriptors) (type : ConvertType) (input : Bytes) (buf : Option Nat)
    (handler : Handler) : Prop :=
  ∃ last, Converts opened type input buf (some handler) last ∧
    last.sent.flatten = (piecesOf opened type input).1.flatMap (Piece.text questionMark) ∧
    last.ret.toInt =
      if (piecesOf opened type input).2 = [] then 0
      else (input.length - (piecesOf opened type input).2.length : Nat)

/-- The buffer holds the text of a part of the input, and what is returned tells which part. -/
def FillsBuffer (opened : Descriptors) (type : ConvertType) (input : Bytes) (size : Nat) :
    Prop :=
  ∃ last n, Converts opened type input (some size) none last ∧
    last.text.length < size ∧
    last.text = ((piecesOf opened type input).1.take n).flatMap (Piece.text []) ∧
    input = ((piecesOf opened type input).1.take n).flatMap Piece.source ++ last.f ∧
    (last.ret = 0 ↔ last.f = []) ∧
    (last.f ≠ [] →
      last.ret.toInt = (((piecesOf opened type input).1.take n).flatMap Piece.source).length)

/-- ASCII, with bytes that are in no character and bytes that wait for another one. -/
def asciiRead : Bytes → Reading UInt8
  | [] => .incomplete
  | c :: rest =>
    if c < 0x80 then .char 1 [c]
    else if c = 0xff then .invalid
    else if rest = [] then .incomplete else .invalid

theorem asciiRead_char {input out : Bytes} {used : Nat} (found : asciiRead input = .char used out) :
    used = 1 ∧ input ≠ [] := by
  unfold asciiRead at found
  split at found
  next => cases found
  next =>
    split at found
    · cases found
      exact ⟨rfl, List.cons_ne_nil _ _⟩
    · split at found
      · cases found
      · split at found <;> cases found

def asciiConverter : Converter UInt8 UInt8 where
  read := asciiRead
  used_pos found := (asciiRead_char found).1 ▸ Nat.one_pos
  used_le found := (asciiRead_char found).1 ▸ List.length_pos_iff.mpr (asciiRead_char found).2

def asciiDescriptors : Descriptors :=
  ⟨asciiConverter, asciiConverter⟩

end Conversion

end Fbbs
