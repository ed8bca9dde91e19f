import Mathlib.Data.List.TakeWhile
import Fbbs.WordEncodings

/-!
# Parcels

The model of `lib/parcel.c`, the byte format of every message between the
front ends and the backend.  One `parcel_t` serves both directions; the model
separates a parcel that is being written, `Out`, from one that is being read,
`In`.

Sizes are natural numbers reduced modulo `2 ^ 64` wherever the C code computes
a `size_t`.  A read parcel carries the memory behind its buffer and a log of
the byte indices that were dereferenced, so that a read outside the buffer is
visible.
-/

namespace Fbbs

abbrev Bytes := List UInt8

/-- One more than the largest `size_t`. -/
def sizeModulus : Nat := 2 ^ 64

/-- A C string: its bytes before the terminator. -/
@[ext]
structure CString where
  bytes : Bytes
  nulFree : (0 : UInt8) ∉ bytes
  deriving DecidableEq

namespace CString

def empty : CString := ⟨[], by simp⟩

/-- The C string that starts at the beginning of `bytes`. -/
def ofBytes (bytes : Bytes) : CString where
  bytes := bytes.takeWhile (· != 0)
  nulFree := fun member => by
    have nonzero := List.all_eq_true.mp
      (List.all_takeWhile (p := (· != 0)) (l := bytes)) 0 member
    simp at nonzero

/-- `strlcpy` into a buffer of `size` bytes. -/
def truncate (size : Nat) (string : CString) : CString where
  bytes := string.bytes.take (size - 1)
  nulFree := fun member => string.nulFree (List.mem_of_mem_take member)

theorem truncate_of_length_lt {string : CString} {size : Nat}
    (fits : string.bytes.length < size) : string.truncate size = string := by
  apply CString.ext
  simp only [truncate]
  exact List.take_of_length_le (by omega)

theorem byte_bne_zero (string : CString) : ∀ byte ∈ string.bytes, (byte != 0) = true := by
  intro byte member
  have nonzero : byte ≠ 0 := fun isZero => string.nulFree (isZero ▸ member)
  simpa using nonzero

theorem ofBytes_bytes (string : CString) : ofBytes string.bytes = string := by
  apply CString.ext
  exact List.takeWhile_eq_self_iff.mpr string.byte_bne_zero

theorem ofBytes_append (string : CString) (rest : Bytes) :
    ofBytes (string.bytes ++ 0 :: rest) = string := by
  apply CString.ext
  simp only [ofBytes]
  rw [List.takeWhile_append_of_pos string.byte_bne_zero,
    List.takeWhile_cons_of_neg (by simp), List.append_nil]

end CString

namespace Parcel

def defaultCapacity : Nat := 4096

/-- A `parcel_t` being written.  `ptr` is `none` when it is `NULL`. -/
structure Out where
  size : Nat
  capacity : Nat
  ptr : Option Bytes
  error : Bool
  deriving DecidableEq

/-- `alloc` tells which request sizes `malloc` and `realloc` satisfy. -/
def parcelNew (alloc : Nat → Bool) : Out where
  size := 0
  capacity := defaultCapacity
  ptr := if alloc defaultCapacity then some [] else none
  error := false

def parcelClear (parcel : Out) : Out :=
  { parcel with size := 0 }

/-- The bytes that a writer hands over: `size` bytes from `ptr`. -/
def Out.contents (parcel : Out) : Option Bytes :=
  parcel.ptr.map (·.take parcel.size)

/-- The loop `while (capacity < new_size) capacity *= 2`.  Sixty-four doublings
turn every capacity into zero, so running out of fuel means that the loop never
ends. -/
def growCapacity : Nat → Nat → Nat → Option Nat
  | 0, _, _ => none
  | fuel + 1, capacity, newSize =>
    if capacity < newSize then
      growCapacity fuel (capacity * 2 % sizeModulus) newSize
    else some capacity

def growFuel : Nat := 65

/-- `parcel->capacity` and `parcel->ptr` after making room for `newSize`. -/
def parcelReserve (alloc : Nat → Bool) (parcel : Out) (newSize : Nat) :
    Option Out :=
  if parcel.capacity < newSize then
    (growCapacity growFuel parcel.capacity newSize).map fun capacity =>
      { parcel with
        capacity := capacity
        ptr := if alloc capacity then some (parcel.ptr.getD []) else none }
  else some parcel

/-- `memcpy` of `data` to the offset `size`. -/
def overlay (buffer : Bytes) (size : Nat) (data : Bytes) : Bytes :=
  buffer.take size ++ data ++ buffer.drop (size + data.length)

def parcelWrite (alloc : Nat → Bool) (data : Bytes) (parcel : Out) :
    Option Out :=
  if parcel.error then some parcel
  else
    let newSize := (parcel.size + data.length) % sizeModulus
    (parcelReserve alloc parcel newSize).map fun reserved =>
      match reserved.ptr with
      | none => { reserved with error := true }
      | some buffer =>
        if reserved.capacity < newSize then { reserved with error := true }
        else
          { reserved with
            size := (reserved.size + data.length) % sizeModulus
            ptr := some (overlay buffer reserved.size data) }

/-- The loop that fills `buf` in `parcel_write_varuint64`. -/
def varuint64Buf : Nat → Nat → Bytes
  | 0, _ => []
  | fuel + 1, val =>
    if val >>> 7 ≠ 0 then
      UInt8.ofNat ((val &&& 0x7f) ||| 0x80) :: varuint64Buf fuel (val >>> 7)
    else [UInt8.ofNat (val &&& 0x7f)]

/-- `buf` has ten entries. -/
def varuint64BufSize : Nat := 10

def parcelWriteVaruint64 (alloc : Nat → Bool) (val : BitVec 64)
    (parcel : Out) : Option Out :=
  parcelWrite alloc (varuint64Buf varuint64BufSize val.toNat) parcel

def parcelWriteVarint (alloc : Nat → Bool) (val : BitVec 32) (parcel : Out) :
    Option Out :=
  let v : BitVec 32 := (val <<< 1) ^^^ val.sshiftRight 31
  parcelWriteVaruint64 alloc (v.setWidth 64) parcel

def parcelWriteVarint64 (alloc : Nat → Bool) (val : BitVec 64)
    (parcel : Out) : Option Out :=
  parcelWriteVaruint64 alloc ((val <<< 1) ^^^ val.sshiftRight 63) parcel

def parcelWriteBool (alloc : Nat → Bool) (val : Bool) (parcel : Out) :
    Option Out :=
  parcelWrite alloc [if val then 1 else 0] parcel

/-- `parcel_write_string_with_size` with the size 0 that `parcel_write_string`
passes; `none` is the null pointer. -/
def parcelWriteString (alloc : Nat → Bool) (str : Option CString)
    (parcel : Out) : Option Out :=
  match str with
  | none => parcelWriteBool alloc true parcel
  | some str => do
    let parcel ← parcelWriteBool alloc false parcel
    let parcel ←
      parcelWriteVaruint64 alloc (BitVec.ofNat 64 str.bytes.length) parcel
    let parcel ← parcelWrite alloc str.bytes parcel
    parcelWrite alloc [0] parcel

def parcelWriteInt (alloc : Nat → Bool) (val : BitVec 32) (parcel : Out) :
    Option Out :=
  parcelWrite alloc (WordEncodings.LittleEndian.bytes 4 val.toNat) parcel

def parcelWriteInt64 (alloc : Nat → Bool) (val : BitVec 64) (parcel : Out) :
    Option Out :=
  parcelWrite alloc (WordEncodings.LittleEndian.bytes 8 val.toNat) parcel

/-- A `parcel_t` being read.  `beyond` is the memory after the buffer.  The
last two fields are only observed: `touched` lists the indices read so far, and
`exactSize` is `size` as it would be without reduction modulo `2 ^ 64`. -/
structure In where
  size : Nat
  capacity : Nat
  ptr : Bytes
  beyond : Nat → UInt8
  error : Bool
  touched : List Nat
  exactSize : Nat

def parcelReadNew (beyond : Nat → UInt8) (bytes : Bytes) : In where
  size := 0
  capacity := bytes.length
  ptr := bytes
  beyond := beyond
  error := false
  touched := []
  exactSize := 0

def In.byteAt (parcel : In) (index : Nat) : UInt8 :=
  parcel.ptr[index]?.getD (parcel.beyond index)

def parcelOk (parcel : In) : Bool :=
  !parcel.error

def parcelReadUchar (parcel : In) : UInt8 × In :=
  if parcel.size ≤ parcel.capacity then
    (parcel.byteAt parcel.size,
      { parcel with
        size := (parcel.size + 1) % sizeModulus
        touched := parcel.touched ++ [parcel.size]
        exactSize := parcel.exactSize + 1 })
  else (0, { parcel with error := true })

/-- `v << offset` on a 64-bit register, which uses the low six bits of the
count. -/
def shiftLeft64 (v offset : Nat) : Nat :=
  (v <<< (offset % 64)) % 2 ^ 64

/-- The loop of `parcel_read_varuint64`. -/
def readVaruint64Loop : Nat → In → Nat → Nat → Nat × In
  | 0, parcel, val, _ => (val, parcel)
  | fuel + 1, parcel, val, offset =>
    let (byte, parcel) := parcelReadUchar parcel
    let v := byte.toNat
    if v &&& 0x80 ≠ 0 then
      readVaruint64Loop fuel parcel (val ||| shiftLeft64 (v &&& 0x7f) offset)
        (offset + 7)
    else (val ||| shiftLeft64 v offset, parcel)

/-- Every iteration either moves the cursor or reads a zero past the end, so
this fuel is never used up. -/
def readFuel (parcel : In) : Nat :=
  parcel.capacity - parcel.size + 2

def parcelReadVaruint64 (parcel : In) : BitVec 64 × In :=
  let (val, parcel) := readVaruint64Loop (readFuel parcel) parcel 0 0
  (BitVec.ofNat 64 val, parcel)

def parcelReadVarint64 (parcel : In) : BitVec 64 × In :=
  let (val, parcel) := parcelReadVaruint64 parcel
  ((val >>> 1) ^^^ -(val &&& 1#64), parcel)

def parcelReadVarint (parcel : In) : BitVec 32 × In :=
  let (val, parcel) := parcelReadVarint64 parcel
  (val.setWidth 32, parcel)

def parcelReadBool (parcel : In) : Bool × In :=
  let (byte, parcel) := parcelReadUchar parcel
  (byte ≠ 0, parcel)

/-- A pointer returned by `parcel_read_string_and_size`, as an offset from the
buffer, with the size that was read. -/
structure StringRef where
  offset : Nat
  size : Nat
  deriving DecidableEq

def parcelReadStringAndSize (parcel : In) : Option StringRef × In :=
  let (isNull, parcel) := parcelReadBool parcel
  if isNull then (none, parcel)
  else
    let (size, parcel) := parcelReadVaruint64 parcel
    let cursor := (parcel.size + (size.toNat + 1) % sizeModulus) % sizeModulus
    (some ⟨parcel.size, size.toNat⟩,
      { parcel with
        size := cursor
        error := parcel.error || decide (parcel.capacity < cursor)
        exactSize := parcel.exactSize + (size.toNat + 1) })

def parcelReadString (parcel : In) : Option Nat × In :=
  let (str, parcel) := parcelReadStringAndSize parcel
  (str.map StringRef.offset, parcel)

/-- `parcel_read` into a zeroed variable of `count` bytes. -/
def parcelRead (count : Nat) (parcel : In) : Bytes × In :=
  if (parcel.size + count) % sizeModulus ≤ parcel.capacity then
    let indices := (List.range count).map (parcel.size + ·)
    (indices.map parcel.byteAt,
      { parcel with
        size := (parcel.size + count) % sizeModulus
        touched := parcel.touched ++ indices
        exactSize := parcel.exactSize + count })
  else (List.replicate count 0, { parcel with error := true })

def parcelReadInt (parcel : In) : BitVec 32 × In :=
  let (bytes, parcel) := parcelRead 4 parcel
  (BitVec.ofNat 32 (WordEncodings.LittleEndian.value bytes), parcel)

def parcelReadInt64 (parcel : In) : BitVec 64 × In :=
  let (bytes, parcel) := parcelRead 8 parcel
  (BitVec.ofNat 64 (WordEncodings.LittleEndian.value bytes), parcel)

/-- What a caller sees at a string pointer into the buffer. -/
def In.cstringAt (parcel : In) (offset : Nat) : CString :=
  CString.ofBytes (parcel.ptr.drop offset)

end Parcel

end Fbbs
