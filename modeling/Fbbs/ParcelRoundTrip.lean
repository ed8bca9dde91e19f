import Fbbs.Parcel

/-!
# Reading back what was written

Typed values written one after another into a fresh parcel are read back in
order by the matching readers.  Each writer appends a byte string that depends
only on its value, `encode`, and each reader consumes exactly that string, so
arbitrary concatenations are self-delimiting.
-/

namespace Fbbs

namespace Parcel

open WordEncodings

/-- The reader and writer pairs of `fbbs/parcel.h`. -/
inductive Kind
  | bool
  | varint
  | int
  | varint64
  | int64
  | varuint64
  | string
  deriving DecidableEq

inductive Value
  | bool (val : Bool)
  | varint (val : BitVec 32)
  | int (val : BitVec 32)
  | varint64 (val : BitVec 64)
  | int64 (val : BitVec 64)
  | varuint64 (val : BitVec 64)
  | string (val : Option CString)
  deriving DecidableEq

def Value.kind : Value → Kind
  | .bool _ => .bool
  | .varint _ => .varint
  | .int _ => .int
  | .varint64 _ => .varint64
  | .int64 _ => .int64
  | .varuint64 _ => .varuint64
  | .string _ => .string

def write (alloc : Nat → Bool) : Value → Out → Option Out
  | .bool val => parcelWriteBool alloc val
  | .varint val => parcelWriteVarint alloc val
  | .int val => parcelWriteInt alloc val
  | .varint64 val => parcelWriteVarint64 alloc val
  | .int64 val => parcelWriteInt64 alloc val
  | .varuint64 val => parcelWriteVaruint64 alloc val
  | .string val => parcelWriteString alloc val

def read : Kind → In → Value × In
  | .bool, parcel => (parcelReadBool parcel).map .bool id
  | .varint, parcel => (parcelReadVarint parcel).map .varint id
  | .int, parcel => (parcelReadInt parcel).map .int id
  | .varint64, parcel => (parcelReadVarint64 parcel).map .varint64 id
  | .int64, parcel => (parcelReadInt64 parcel).map .int64 id
  | .varuint64, parcel => (parcelReadVaruint64 parcel).map .varuint64 id
  | .string, parcel =>
    (parcelReadString parcel).map
      (fun str => .string (str.map parcel.cstringAt)) id

def writeAll (alloc : Nat → Bool) : List Value → Out → Option Out
  | [], parcel => some parcel
  | value :: values, parcel =>
    (write alloc value parcel).bind (writeAll alloc values)

def readAll : List Kind → In → List Value × In
  | [], parcel => ([], parcel)
  | kind :: kinds, parcel =>
    let (value, parcel) := read kind parcel
    let (values, parcel) := readAll kinds parcel
    (value :: values, parcel)

/-- The groups that `parcel_write_varuint64` writes. -/
def encodeVaruint64 (val : BitVec 64) : Bytes :=
  Base128.groups varuint64BufSize val.toNat

/-- The bytes each value occupies on the wire. -/
def encode : Value → Bytes
  | .bool val => [if val then 1 else 0]
  | .varint val => encodeVaruint64 ((ZigZag.encode val).setWidth 64)
  | .int val => LittleEndian.bytes 4 val.toNat
  | .varint64 val => encodeVaruint64 (ZigZag.encode val)
  | .int64 val => LittleEndian.bytes 8 val.toNat
  | .varuint64 val => encodeVaruint64 val
  | .string none => [1]
  | .string (some str) =>
    0 :: (encodeVaruint64 (BitVec.ofNat 64 str.bytes.length) ++
      (str.bytes ++ [0]))

def encodeAll (values : List Value) : Bytes :=
  values.flatMap encode

theorem varuint64Buf_eq_groups (fuel val : Nat) :
    varuint64Buf fuel val = Base128.groups fuel val := by
  induction fuel generalizing val with
  | zero => rfl
  | succ fuel ih =>
    rw [varuint64Buf, Base128.groups, Base128.shiftRight_seven,
      Base128.and_mask, ih]
    by_cases small : val < 128
    · rw [if_neg (by omega), if_pos small, Nat.mod_eq_of_lt small]
    · rw [if_pos (by omega), if_neg small,
        Base128.or_continuation (Nat.mod_lt val (by omega))]

section Writing

/-- The parcel holds exactly `written` and can still grow. -/
structure Holds (parcel : Out) (written : Bytes) : Prop where
  noError : parcel.error = false
  ptr : parcel.ptr = some written
  size : parcel.size = written.length
  capacity : ∃ doublings ≤ 51, parcel.capacity = 2 ^ (12 + doublings)

theorem growCapacity_spec (fuel doublings newSize : Nat)
    (enough : 52 ≤ fuel + doublings) (inRange : doublings ≤ 51)
    (fits : newSize ≤ 2 ^ 63) :
    ∃ final ≤ 51, growCapacity fuel (2 ^ (12 + doublings)) newSize =
      some (2 ^ (12 + final)) ∧ newSize ≤ 2 ^ (12 + final) := by
  induction fuel generalizing doublings with
  | zero => omega
  | succ fuel ih =>
    rw [growCapacity]
    by_cases small : 2 ^ (12 + doublings) < newSize
    · have next : doublings + 1 ≤ 51 := by
        by_contra last
        have : doublings = 51 := by omega
        subst this
        omega
      have doubled : 2 ^ (12 + doublings) * 2 % sizeModulus =
          2 ^ (12 + (doublings + 1)) := by
        rw [← pow_succ]
        apply Nat.mod_eq_of_lt
        exact Nat.pow_lt_pow_right (by omega) (by omega)
      rw [if_pos small, doubled]
      exact ih (doublings + 1) (by omega) next
    · rw [if_neg small]
      exact ⟨doublings, inRange, rfl, by omega⟩

variable {alloc : Nat → Bool}
variable (allocated : ∀ capacity ≤ 2 ^ 63, alloc capacity = true)

include allocated

theorem parcelReserve_spec {parcel : Out} {written : Bytes}
    (holds : Holds parcel written) {newSize : Nat} (fits : newSize ≤ 2 ^ 63) :
    ∃ reserved, parcelReserve alloc parcel newSize = some reserved ∧
      Holds reserved written ∧ newSize ≤ reserved.capacity := by
  obtain ⟨doublings, inRange, capacityEq⟩ := holds.capacity
  rw [parcelReserve]
  by_cases small : parcel.capacity < newSize
  · obtain ⟨final, finalLe, grown, enough⟩ :=
      growCapacity_spec growFuel doublings newSize
        (by simp only [growFuel]; omega) inRange fits
    have finalAllocated : alloc (2 ^ (12 + final)) = true :=
      allocated _ (Nat.pow_le_pow_right (by omega) (by omega))
    rw [if_pos small, capacityEq, grown]
    refine ⟨_, rfl, ⟨holds.noError, ?_, holds.size, final, finalLe, rfl⟩, enough⟩
    simp [finalAllocated, holds.ptr]
  · rw [if_neg small]
    exact ⟨parcel, rfl, holds, by omega⟩

theorem parcelWrite_spec {parcel : Out} {written : Bytes}
    (holds : Holds parcel written) (data : Bytes)
    (fits : (written ++ data).length ≤ 2 ^ 63) :
    ∃ after, parcelWrite alloc data parcel = some after ∧
      Holds after (written ++ data) := by
  have lengthEq : (written ++ data).length = parcel.size + data.length := by
    rw [List.length_append, holds.size]
  have noWrap : (parcel.size + data.length) % sizeModulus =
      parcel.size + data.length := by
    apply Nat.mod_eq_of_lt
    simp only [sizeModulus]
    omega
  have newSizeFits : parcel.size + data.length ≤ 2 ^ 63 := by omega
  obtain ⟨reserved, reservedEq, reservedHolds, enough⟩ :=
    parcelReserve_spec allocated holds newSizeFits
  have sameSize : reserved.size = parcel.size := by
    rw [reservedHolds.size, holds.size]
  refine ⟨{ reserved with
      size := (reserved.size + data.length) % sizeModulus
      ptr := some (overlay written reserved.size data) }, ?_, ?_⟩
  · have roomLeft : ¬ reserved.capacity < parcel.size + data.length := by omega
    simp only [parcelWrite, holds.noError, Bool.false_eq_true, if_false, noWrap,
      reservedEq, Option.map_some, reservedHolds.ptr, if_neg roomLeft]
  · refine ⟨reservedHolds.noError, ?_, ?_, reservedHolds.capacity⟩
    · simp [overlay, reservedHolds.size]
    · rw [sameSize, noWrap, lengthEq]

theorem parcelWriteVaruint64_spec {parcel : Out} {written : Bytes}
    (holds : Holds parcel written) (val : BitVec 64)
    (fits : (written ++ encodeVaruint64 val).length ≤ 2 ^ 63) :
    ∃ after, parcelWriteVaruint64 alloc val parcel = some after ∧
      Holds after (written ++ encodeVaruint64 val) := by
  rw [parcelWriteVaruint64, varuint64Buf_eq_groups]
  exact parcelWrite_spec allocated holds _ fits

theorem parcelWriteString_spec {parcel : Out} {written : Bytes}
    (holds : Holds parcel written) (str : Option CString)
    (fits : (written ++ encode (.string str)).length ≤ 2 ^ 63) :
    ∃ after, parcelWriteString alloc str parcel = some after ∧
      Holds after (written ++ encode (.string str)) := by
  cases str with
  | none => exact parcelWrite_spec allocated holds _ fits
  | some str =>
    simp only [encode, List.length_append, List.length_cons,
      List.length_nil] at fits
    obtain ⟨tagged, taggedEq, taggedHolds⟩ :=
      parcelWrite_spec allocated holds [0] (by simp; omega)
    obtain ⟨sized, sizedEq, sizedHolds⟩ :=
      parcelWriteVaruint64_spec allocated taggedHolds
        (BitVec.ofNat 64 str.bytes.length) (by simp; omega)
    obtain ⟨filled, filledEq, filledHolds⟩ :=
      parcelWrite_spec allocated sizedHolds str.bytes (by simp; omega)
    obtain ⟨ended, endedEq, endedHolds⟩ :=
      parcelWrite_spec allocated filledHolds [0] (by simp; omega)
    refine ⟨ended, ?_, by simpa [encode] using endedHolds⟩
    rw [parcelWriteString, parcelWriteBool]
    simp [taggedEq, sizedEq, filledEq, endedEq]

theorem write_spec {parcel : Out} {written : Bytes}
    (holds : Holds parcel written) (value : Value)
    (fits : (written ++ encode value).length ≤ 2 ^ 63) :
    ∃ after, write alloc value parcel = some after ∧
      Holds after (written ++ encode value) := by
  cases value with
  | bool val => exact parcelWrite_spec allocated holds _ fits
  | varint val => exact parcelWriteVaruint64_spec allocated holds _ fits
  | int val => exact parcelWrite_spec allocated holds _ fits
  | varint64 val => exact parcelWriteVaruint64_spec allocated holds _ fits
  | int64 val => exact parcelWrite_spec allocated holds _ fits
  | varuint64 val => exact parcelWriteVaruint64_spec allocated holds _ fits
  | string val => exact parcelWriteString_spec allocated holds val fits

theorem writeAll_spec (values : List Value) {parcel : Out} {written : Bytes}
    (holds : Holds parcel written)
    (fits : (written ++ encodeAll values).length ≤ 2 ^ 63) :
    ∃ after, writeAll alloc values parcel = some after ∧
      Holds after (written ++ encodeAll values) := by
  induction values generalizing parcel written with
  | nil => exact ⟨parcel, rfl, by simpa [encodeAll] using holds⟩
  | cons value values ih =>
    have split : written ++ encodeAll (value :: values) =
        (written ++ encode value) ++ encodeAll values := by
      simp [encodeAll]
    rw [split] at fits ⊢
    obtain ⟨next, nextEq, nextHolds⟩ :=
      write_spec allocated holds value (by
        rw [List.length_append] at fits
        omega)
    obtain ⟨after, afterEq, afterHolds⟩ := ih nextHolds fits
    exact ⟨after, by rw [writeAll, nextEq, Option.bind_some, afterEq],
      afterHolds⟩

theorem parcelNew_holds : Holds (parcelNew alloc) [] := by
  refine ⟨rfl, ?_, rfl, 0, by omega, rfl⟩
  simp [parcelNew, allocated defaultCapacity (by decide)]

end Writing

section Reading

/-- The cursor stands between `done` and `rest`, and no read has failed. -/
structure At (parcel : In) (done rest : Bytes) : Prop where
  ptr : parcel.ptr = done ++ rest
  size : parcel.size = done.length
  capacity : parcel.capacity = (done ++ rest).length
  bounded : (done ++ rest).length < sizeModulus
  noError : parcel.error = false

theorem At.advance {parcel : In} {done chunk rest : Bytes}
    (here : At parcel done (chunk ++ rest)) (touched : List Nat)
    (exactSize : Nat) :
    At { parcel with
        size := (parcel.size + chunk.length) % sizeModulus
        touched := touched
        exactSize := exactSize } (done ++ chunk) rest := by
  have noWrap : (parcel.size + chunk.length) % sizeModulus =
      parcel.size + chunk.length := by
    apply Nat.mod_eq_of_lt
    have bounded := here.bounded
    have size := here.size
    simp only [List.length_append] at bounded
    omega
  refine ⟨by simpa using here.ptr, ?_, by simpa using here.capacity,
    by simpa using here.bounded, here.noError⟩
  rw [noWrap, here.size, List.length_append]

theorem At.byteAt {parcel : In} {done chunk rest : Bytes}
    (here : At parcel done (chunk ++ rest)) {index : Nat}
    (inChunk : index < chunk.length) :
    parcel.byteAt (parcel.size + index) = chunk[index] := by
  have inBuffer : (done ++ (chunk ++ rest))[done.length + index]? =
      some chunk[index] := by
    rw [List.getElem?_append_right (by omega), Nat.add_sub_cancel_left,
      List.getElem?_append_left inChunk, List.getElem?_eq_getElem inChunk]
  rw [In.byteAt, here.ptr, here.size, inBuffer, Option.getD_some]

theorem parcelReadUchar_at {parcel : In} {done rest : Bytes} {byte : UInt8}
    (here : At parcel done (byte :: rest)) :
    ∃ after, parcelReadUchar parcel = (byte, after) ∧
      At after (done ++ [byte]) rest := by
  have inBuffer : parcel.size ≤ parcel.capacity := by
    rw [here.size, here.capacity, List.length_append]
    omega
  have asChunk : At parcel done ([byte] ++ rest) := here
  have nonempty : 0 < [byte].length := Nat.one_pos
  have value : parcel.byteAt parcel.size = byte := asChunk.byteAt nonempty
  rw [parcelReadUchar, if_pos inBuffer, value]
  exact ⟨_, rfl, asChunk.advance _ _⟩

theorem shiftLeft64_eq {v offset : Nat} (small : offset < 64)
    (fits : v * 2 ^ offset < 2 ^ 64) : shiftLeft64 v offset = v <<< offset := by
  rw [shiftLeft64, Nat.mod_eq_of_lt small, Nat.shiftLeft_eq, Nat.mod_eq_of_lt fits]

theorem readLast (fuel number : Nat) {parcel : In} {done rest : Bytes}
    {val offset : Nat} (small : number < 128)
    (enough : [UInt8.ofNat number].length ≤ fuel)
    (low : val < 2 ^ offset) (shiftSmall : offset < 64)
    (fits : number * 2 ^ offset < 2 ^ 64)
    (here : At parcel done ([UInt8.ofNat number] ++ rest)) :
    ∃ after, readVaruint64Loop fuel parcel val offset =
        (val + number * 2 ^ offset, after) ∧
      At after (done ++ [UInt8.ofNat number]) rest := by
  obtain ⟨fuel, rfl⟩ := Nat.exists_eq_succ_of_ne_zero
    (show fuel ≠ 0 by simp at enough; omega)
  obtain ⟨after, readEq, afterAt⟩ := parcelReadUchar_at here
  have byteValue : (UInt8.ofNat number).toNat = number := by
    rw [UInt8.toNat_ofNat']
    omega
  have final : ¬ number &&& 0x80 ≠ 0 := by
    rw [Base128.continuation_bit (by omega)]
    omega
  refine ⟨after, ?_, afterAt⟩
  rw [readVaruint64Loop, readEq]
  simp only [byteValue, if_neg final]
  rw [shiftLeft64_eq shiftSmall fits, Base128.or_shiftLeft low]

/-- One round of the reading loop, on a group that is not the last. -/
theorem readContinued (fuel number : Nat) {parcel : In} {done rest : Bytes}
    {val offset : Nat} (low : val < 2 ^ offset) (shiftSmall : offset < 64)
    (fits : number * 2 ^ offset < 2 ^ 64)
    (here : At parcel done (UInt8.ofNat (number % 128 + 128) :: rest)) :
    ∃ next, readVaruint64Loop (fuel + 1) parcel val offset =
        readVaruint64Loop fuel next (val + number % 128 * 2 ^ offset) (offset + 7) ∧
      At next (done ++ [UInt8.ofNat (number % 128 + 128)]) rest := by
  obtain ⟨next, readEq, nextAt⟩ := parcelReadUchar_at here
  have byteValue : (UInt8.ofNat (number % 128 + 128)).toNat = number % 128 + 128 := by
    rw [UInt8.toNat_ofNat']
    omega
  have continued : (number % 128 + 128) &&& 0x80 ≠ 0 := by
    rw [Base128.continuation_bit (by omega)]
    omega
  have group : (number % 128 + 128) &&& 0x7f = number % 128 := by
    rw [Base128.and_mask]
    omega
  refine ⟨next, ?_, nextAt⟩
  rw [readVaruint64Loop, readEq]
  simp only [byteValue, if_pos continued, group]
  rw [shiftLeft64_eq shiftSmall (Base128.group_lt_of_lt fits), Base128.or_shiftLeft low]

/-- The reading loop consumes one base-128 number and adds it above the bits
accumulated so far. -/
theorem readVaruint64Loop_at (writerFuel fuel number : Nat) {parcel : In}
    {done rest : Bytes} {val offset : Nat}
    (complete : number < 128 ^ (writerFuel + 1))
    (enough : (Base128.groups (writerFuel + 1) number).length ≤ fuel)
    (low : val < 2 ^ offset) (shiftSmall : offset < 64)
    (fits : number * 2 ^ offset < 2 ^ 64)
    (here : At parcel done (Base128.groups (writerFuel + 1) number ++ rest)) :
    ∃ after, readVaruint64Loop fuel parcel val offset =
        (val + number * 2 ^ offset, after) ∧
      At after (done ++ Base128.groups (writerFuel + 1) number) rest := by
  induction writerFuel generalizing fuel number parcel done val offset with
  | zero =>
    have small : number < 128 := by simpa using complete
    rw [Base128.groups, if_pos small] at enough here ⊢
    exact readLast fuel number small enough low shiftSmall fits here
  | succ writerFuel ih =>
    rw [Base128.groups] at enough here ⊢
    by_cases small : number < 128
    · rw [if_pos small] at enough here ⊢
      exact readLast fuel number small enough low shiftSmall fits here
    · rw [if_neg small] at here ⊢
      rw [if_neg small, List.length_cons] at enough
      obtain ⟨fuel, rfl⟩ := Nat.exists_eq_succ_of_ne_zero (show fuel ≠ 0 by omega)
      obtain ⟨next, roundEq, nextAt⟩ :=
        readContinued fuel number low shiftSmall fits here
      have restComplete : number / 128 < 128 ^ (writerFuel + 1) := by
        rw [pow_succ] at complete
        exact Nat.div_lt_of_lt_mul (by omega)
      obtain ⟨after, loopEq, afterAt⟩ :=
        ih fuel (number / 128) restComplete (by omega) (Base128.add_group_lt low)
          (Base128.position_lt_of_rest (by omega) fits)
          (Base128.rest_lt_of_lt fits) nextAt
      refine ⟨after, ?_, by simpa using afterAt⟩
      rw [roundEq, loopEq, Nat.add_assoc, Base128.mod_add_div_shifted]

theorem parcelReadVaruint64_at {parcel : In} {done rest : Bytes}
    (val : BitVec 64) (here : At parcel done (encodeVaruint64 val ++ rest)) :
    ∃ after, parcelReadVaruint64 parcel = (val, after) ∧
      At after (done ++ encodeVaruint64 val) rest := by
  have enough : (encodeVaruint64 val).length ≤ readFuel parcel := by
    rw [readFuel, here.capacity, here.size, List.length_append, List.length_append]
    omega
  have low : 0 < 2 ^ 0 := Nat.one_pos
  have fits : val.toNat * 2 ^ 0 < 2 ^ 64 := by
    have bounded := val.isLt
    omega
  obtain ⟨after, loopEq, afterAt⟩ :=
    readVaruint64Loop_at 9 (readFuel parcel) val.toNat
      (lt_of_lt_of_le val.isLt (by decide)) enough low (by omega) fits here
  refine ⟨after, ?_, afterAt⟩
  simp [parcelReadVaruint64, loopEq]

theorem parcelReadVarint64_at {parcel : In} {done rest : Bytes}
    (code : BitVec 64) (here : At parcel done (encodeVaruint64 code ++ rest)) :
    ∃ after, parcelReadVarint64 parcel = (ZigZag.decode code, after) ∧
      At after (done ++ encodeVaruint64 code) rest := by
  obtain ⟨after, readEq, afterAt⟩ := parcelReadVaruint64_at code here
  exact ⟨after, by rw [parcelReadVarint64, readEq]; rfl, afterAt⟩

theorem parcelRead_at {parcel : In} {done chunk rest : Bytes}
    (here : At parcel done (chunk ++ rest)) :
    ∃ after, parcelRead chunk.length parcel = (chunk, after) ∧
      At after (done ++ chunk) rest := by
  have bounded := here.bounded
  have size := here.size
  have capacity := here.capacity
  simp only [List.length_append] at bounded capacity
  have noWrap : (parcel.size + chunk.length) % sizeModulus =
      parcel.size + chunk.length := Nat.mod_eq_of_lt (by omega)
  have bytesEq : (List.range chunk.length).map
      (parcel.byteAt ∘ (parcel.size + ·)) = chunk := by
    apply List.ext_getElem
    · simp
    · intro index inRange inChunk
      simpa using here.byteAt inChunk
  rw [parcelRead, if_pos (by omega)]
  refine ⟨_, Prod.ext ?_ rfl, here.advance _ _⟩
  simpa [List.map_map] using bytesEq

theorem parcelReadString_none_at {parcel : In} {done rest : Bytes}
    (here : At parcel done (1 :: rest)) :
    ∃ after, parcelReadString parcel = (none, after) ∧
      At after (done ++ [1]) rest := by
  obtain ⟨after, readEq, afterAt⟩ := parcelReadUchar_at here
  refine ⟨after, ?_, afterAt⟩
  simp [parcelReadString, parcelReadStringAndSize, parcelReadBool, readEq]

theorem At.skipString {parcel : In} {done rest : Bytes} {str : CString}
    (here : At parcel done (str.bytes ++ 0 :: rest)) (exactSize : Nat) :
    let cursor :=
      (parcel.size + (str.bytes.length + 1) % sizeModulus) % sizeModulus
    At { parcel with
        size := cursor
        error := parcel.error || decide (parcel.capacity < cursor)
        exactSize := exactSize }
      (done ++ (str.bytes ++ [0])) rest := by
  have split : str.bytes ++ 0 :: rest = (str.bytes ++ [0]) ++ rest := by simp
  rw [split] at here
  have cursorEq : (parcel.size + (str.bytes.length + 1) % sizeModulus) %
      sizeModulus = (parcel.size + (str.bytes ++ [0]).length) % sizeModulus := by
    rw [List.length_append, List.length_singleton, Nat.add_mod_mod]
  have moved := here.advance parcel.touched exactSize
  have inBuffer : ¬ parcel.capacity <
      (parcel.size + (str.bytes ++ [0]).length) % sizeModulus := by
    have size := moved.size
    have capacity := moved.capacity
    simp only [List.length_append] at size capacity
    rw [List.length_append]
    omega
  simp only [cursorEq, inBuffer, decide_false, Bool.or_false]
  exact moved

theorem At.cstringAt {parcel : In} {done rest : Bytes} {str : CString}
    (here : At parcel done (str.bytes ++ 0 :: rest)) :
    parcel.cstringAt parcel.size = str := by
  rw [In.cstringAt, here.ptr, here.size, List.drop_left]
  exact CString.ofBytes_append str rest

theorem parcelReadString_some_at {parcel : In} {done rest : Bytes}
    {str : CString} (here : At parcel done (encode (.string (some str)) ++ rest)) :
    ∃ after offset, parcelReadString parcel = (some offset, after) ∧
      parcel.cstringAt offset = str ∧
      At after (done ++ encode (.string (some str))) rest := by
  have split : encode (.string (some str)) ++ rest =
      0 :: (encodeVaruint64 (BitVec.ofNat 64 str.bytes.length) ++
        (str.bytes ++ 0 :: rest)) := by
    simp [encode]
  have samePtr := here.ptr
  rw [split] at here
  obtain ⟨tagged, tagEq, taggedAt⟩ := parcelReadUchar_at here
  obtain ⟨sized, sizeEq, sizedAt⟩ := parcelReadVaruint64_at _ taggedAt
  have lengthEq : (BitVec.ofNat 64 str.bytes.length).toNat = str.bytes.length := by
    rw [BitVec.toNat_ofNat]
    apply Nat.mod_eq_of_lt
    apply lt_of_le_of_lt _ sizedAt.bounded
    simp only [List.length_append]
    omega
  have readEq : parcelReadString parcel = (some sized.size,
      { sized with
        size := (sized.size + (str.bytes.length + 1) % sizeModulus) % sizeModulus
        error := sized.error || decide (sized.capacity <
          (sized.size + (str.bytes.length + 1) % sizeModulus) % sizeModulus)
        exactSize := sized.exactSize + (str.bytes.length + 1) }) := by
    simp [parcelReadString, parcelReadStringAndSize, parcelReadBool, tagEq,
      sizeEq, lengthEq]
  refine ⟨_, sized.size, readEq, ?_, by simpa [encode] using sizedAt.skipString _⟩
  have sameBuffer : parcel.ptr = sized.ptr := by
    rw [samePtr, sizedAt.ptr, split]
    simp
  rw [In.cstringAt, sameBuffer]
  exact sizedAt.cstringAt

theorem read_at {parcel : In} {done rest : Bytes} (value : Value)
    (here : At parcel done (encode value ++ rest)) :
    ∃ after, read value.kind parcel = (value, after) ∧
      At after (done ++ encode value) rest := by
  cases value with
  | bool val =>
    obtain ⟨after, readEq, afterAt⟩ := parcelReadUchar_at here
    refine ⟨after, ?_, afterAt⟩
    cases val <;> simp [Value.kind, read, parcelReadBool, readEq]
  | varint val =>
    obtain ⟨after, readEq, afterAt⟩ := parcelReadVarint64_at _ here
    have decoded := ZigZag.decode_encode (show 32 ≤ 64 by omega) val
    exact ⟨after, by simp [Value.kind, read, parcelReadVarint, readEq, decoded],
      afterAt⟩
  | int val =>
    obtain ⟨after, readEq, afterAt⟩ := parcelRead_at here
    have decoded : LittleEndian.value (LittleEndian.bytes 4 val.toNat) = val.toNat :=
      LittleEndian.value_bytes_of_lt (by simpa using val.isLt)
    simp only [encode, LittleEndian.bytes_length] at readEq
    exact ⟨after, by simp [Value.kind, read, parcelReadInt, readEq, decoded],
      afterAt⟩
  | varint64 val =>
    obtain ⟨after, readEq, afterAt⟩ := parcelReadVarint64_at _ here
    have decoded := ZigZag.decode_encode (Nat.le_refl 64) val
    simp only [BitVec.setWidth_eq] at decoded
    exact ⟨after, by simp [Value.kind, read, readEq, decoded], afterAt⟩
  | int64 val =>
    obtain ⟨after, readEq, afterAt⟩ := parcelRead_at here
    have decoded : LittleEndian.value (LittleEndian.bytes 8 val.toNat) = val.toNat :=
      LittleEndian.value_bytes_of_lt (by simpa using val.isLt)
    simp only [encode, LittleEndian.bytes_length] at readEq
    exact ⟨after, by simp [Value.kind, read, parcelReadInt64, readEq, decoded],
      afterAt⟩
  | varuint64 val =>
    obtain ⟨after, readEq, afterAt⟩ := parcelReadVaruint64_at val here
    exact ⟨after, by simp [Value.kind, read, readEq], afterAt⟩
  | string val =>
    cases val with
    | none =>
      obtain ⟨after, readEq, afterAt⟩ := parcelReadString_none_at here
      exact ⟨after, by simp [Value.kind, read, readEq], afterAt⟩
    | some str =>
      obtain ⟨after, offset, readEq, stringEq, afterAt⟩ :=
        parcelReadString_some_at here
      exact ⟨after, by simp [Value.kind, read, readEq, stringEq], afterAt⟩

theorem readAll_at (values : List Value) {parcel : In} {done rest : Bytes}
    (here : At parcel done (encodeAll values ++ rest)) :
    ∃ after, readAll (values.map Value.kind) parcel = (values, after) ∧
      At after (done ++ encodeAll values) rest := by
  induction values generalizing parcel done with
  | nil => exact ⟨parcel, rfl, by simpa [encodeAll] using here⟩
  | cons value values ih =>
    have split : encodeAll (value :: values) ++ rest =
        encode value ++ (encodeAll values ++ rest) := by
      simp [encodeAll]
    rw [split] at here
    obtain ⟨next, readEq, nextAt⟩ := read_at value here
    obtain ⟨after, restEq, afterAt⟩ := ih nextAt
    refine ⟨after, ?_, by simpa [encodeAll] using afterAt⟩
    simp [readAll, readEq, restEq]

theorem parcelReadNew_at (beyond : Nat → UInt8) (bytes : Bytes)
    (bounded : bytes.length < sizeModulus) :
    At (parcelReadNew beyond bytes) [] bytes :=
  ⟨rfl, rfl, rfl, bounded, rfl⟩

/-- Reading a whole encoding gives the values back, without an error and with
the cursor at the end. -/
theorem readAll_encodeAll (beyond : Nat → UInt8) (values : List Value)
    (fits : (encodeAll values).length < sizeModulus) :
    ∃ after, readAll (values.map Value.kind)
        (parcelReadNew beyond (encodeAll values)) = (values, after) ∧
      parcelOk after = true ∧ after.size = (encodeAll values).length := by
  have start := parcelReadNew_at beyond (encodeAll values) fits
  have split : encodeAll values = encodeAll values ++ [] := by simp
  rw [split] at start
  obtain ⟨after, readEq, afterAt⟩ := readAll_at values start
  rw [List.append_nil] at readEq
  exact ⟨after, readEq, by simp [parcelOk, afterAt.noError], by simpa using afterAt.size⟩

end Reading

end Parcel

end Fbbs
