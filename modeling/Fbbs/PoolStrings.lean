import Fbbs.AsciiBytes
import Fbbs.Parcel

/-!
# Growing strings

`pstring_t` in `lib/string.c`: a string with its length in a block of memory, and
a larger block when the string does not fit.  Lengths are unsigned integers of 32
bits.  As long as a text fits into the block, appending is concatenation.
-/

namespace Fbbs

/-- `pstring_t`: the first `len` bytes of the block, and the size of the block. -/
structure PString where
  str : Bytes
  size : Nat
  deriving DecidableEq

namespace PString

/-- `PSTRING_DEFAULT_LEN`. -/
def pstringDefaultLen : Nat := 7

/-- `FB_UINT_MAX`. -/
def fbUintMax : Nat := 4294967295

/-- The loop of `pstring_round_size`, which does not end for half of the range. -/
def roundLoop (size : Nat) : Nat → Nat → Option Nat
  | 0, _ => none
  | fuel + 1, s => if s ≤ size then roundLoop size fuel (s * 2 % 2 ^ 32) else some s

def pstringRoundSize (size : Nat) : Option Nat :=
  if size = fbUintMax then some fbUintMax
  else roundLoop size 32 (pstringDefaultLen + 1)

def pstringSizedNew (size : Nat) : Option PString :=
  (pstringRoundSize (size % 2 ^ 32)).map fun size => ⟨[], size⟩

/-- `_pstring_realloc`; `none` if the copy leaves one of the blocks. -/
def reallocTo (s : PString) (size : Nat) : Option PString :=
  if s.str.length < s.size ∧ s.str.length < size then some { s with size := size } else none

/-- `pstring_realloc`, whose result is not looked at. -/
def pstringRealloc (s : PString) : Option PString :=
  if s.size = fbUintMax then some s else s.reallocTo (s.size * 2 % 2 ^ 32)

/-- Bytes behind the string; `none` outside the block. -/
def write (s : PString) (bytes : Bytes) : Option PString :=
  if s.str.length + bytes.length ≤ s.size then some { s with str := s.str ++ bytes } else none

def pstringAppendC (s : PString) (c : UInt8) : Option PString :=
  (if s.str.length = s.size - 1 then s.pstringRealloc else some s).bind fun s => s.write [c]

def pstringAppendString (s : PString) (str : CString) : Option PString :=
  (if s.size ≤ s.str.length + str.bytes.length then s.pstringRealloc else some s).bind fun s =>
    s.write str.bytes

/-- `pstring_append_printf` for the formatted text. -/
def pstringAppendPrintf (s : PString) (chars : Bytes) : Option PString :=
  if s.size - s.str.length ≤ chars.length then
    (pstringRoundSize ((s.str.length + chars.length + 1) % 2 ^ 32)).bind fun size =>
      (s.reallocTo size).bind fun s => s.write chars
  else s.write chars

def endsInSpace (text : Bytes) : Bool :=
  text.getLast?.any AsciiBytes.isspace

def pstringAppendSpace (s : PString) : Option PString :=
  if s.str ≠ [] ∧ endsInSpace s.str = false then s.pstringAppendC 32 else some s

/-- The text after `pstring_append_space`. -/
def withSpace (text : Bytes) : Bytes :=
  if text ≠ [] ∧ endsInSpace text = false then text ++ [32] else text

section Fits

variable {s : PString}

theorem write_of_fits {bytes : Bytes} (fits : (s.str ++ bytes).length < s.size) :
    s.write bytes = some { s with str := s.str ++ bytes } := by
  rw [List.length_append] at fits
  exact if_pos (Nat.le_of_lt fits)

theorem pstringAppendC_of_fits {c : UInt8} (fits : (s.str ++ [c]).length < s.size) :
    s.pstringAppendC c = some { s with str := s.str ++ [c] } := by
  have room : s.str.length ≠ s.size - 1 := by
    rw [List.length_append, List.length_singleton] at fits
    omega
  rw [pstringAppendC, if_neg room, Option.bind_some, write_of_fits fits]

theorem pstringAppendString_of_fits {str : CString}
    (fits : (s.str ++ str.bytes).length < s.size) :
    s.pstringAppendString str = some { s with str := s.str ++ str.bytes } := by
  have room : ¬s.size ≤ s.str.length + str.bytes.length := by
    rw [List.length_append] at fits
    exact Nat.not_le.mpr fits
  rw [pstringAppendString, if_neg room, Option.bind_some, write_of_fits fits]

theorem pstringAppendPrintf_of_fits {chars : Bytes} (fits : (s.str ++ chars).length < s.size) :
    s.pstringAppendPrintf chars = some { s with str := s.str ++ chars } := by
  have room : ¬s.size - s.str.length ≤ chars.length := by
    rw [List.length_append] at fits
    omega
  rw [pstringAppendPrintf, if_neg room, write_of_fits fits]

theorem pstringAppendSpace_of_fits (fits : (withSpace s.str).length < s.size) :
    s.pstringAppendSpace = some { s with str := withSpace s.str } := by
  rw [withSpace] at fits ⊢
  rw [pstringAppendSpace]
  split
  · rename_i needed
    rw [if_pos needed] at fits
    exact pstringAppendC_of_fits fits
  · rfl

end Fits

end PString

end Fbbs
