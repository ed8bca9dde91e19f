import Fbbs.ParcelRoundTrip
import Mathlib.Data.List.Induction

/-!
# Parcel reads on arbitrary bytes

The backend parses whatever stands on the request list.  This file says what a
sequence of read calls may do to be bounded, and characterizes the inputs on
which the readers of `lib/parcel.c` are: `parcel_read_uchar` admits the index
one past the buffer, and the string and block readers compare a cursor that
has already been reduced modulo `2 ^ 64`.
-/

namespace Fbbs

namespace Parcel

/-- No byte from `start` on ends a base-128 number. -/
def Unterminated (parcel : In) (start : Nat) : Prop :=
  ∀ index < parcel.capacity, start ≤ index → 128 ≤ (parcel.byteAt index).toNat

instance (parcel : In) (start : Nat) : Decidable (Unterminated parcel start) :=
  inferInstanceAs (Decidable (∀ index < parcel.capacity, start ≤ index →
    128 ≤ (parcel.byteAt index).toNat))

/-- The length field of a string and the parcel after it. -/
def stringLength (parcel : In) : BitVec 64 × In :=
  parcelReadVaruint64 (parcelReadBool parcel).2

/-- The call cannot complete with the bytes of the buffer alone. -/
def NeedsBeyond (kind : Kind) (parcel : In) : Prop :=
  match kind with
  | .bool => parcel.capacity ≤ parcel.size
  | .varint | .varint64 | .varuint64 => Unterminated parcel parcel.size
  | .int => parcel.capacity < parcel.size + 4
  | .int64 => parcel.capacity < parcel.size + 8
  | .string => parcel.capacity ≤ parcel.size ∨
      parcel.byteAt parcel.size = 0 ∧
        (Unterminated parcel (parcel.size + 1) ∨
          parcel.capacity < (stringLength parcel).2.size +
            (stringLength parcel).1.toNat + 1)

def returnedString (kind : Kind) (parcel : In) : Option StringRef :=
  match kind with
  | .string => (parcelReadStringAndSize parcel).1
  | _ => none

/-- The bytes of a string and the zero after them stand in the buffer. -/
def StringInside (parcel : In) (str : StringRef) : Prop :=
  str.offset + str.size + 1 ≤ parcel.capacity ∧
    parcel.byteAt (str.offset + str.size) = 0

/-- One call stays inside the buffer, or fails. -/
structure StepBounded (kind : Kind) (parcel : In) : Prop where
  inside : ∀ index ∈ (read kind parcel).2.touched, index < parcel.capacity
  noWrap : (read kind parcel).2.size = (read kind parcel).2.exactSize
  stringInside : ∀ str, returnedString kind parcel = some str →
    StringInside parcel str ∨ (read kind parcel).2.error = true
  errorSet : NeedsBeyond kind parcel → (read kind parcel).2.error = true

/-- The parcel after a sequence of calls on `bytes`. -/
def stateAfter (beyond : Nat → UInt8) (bytes : Bytes) (calls : List Kind) : In :=
  (readAll calls (parcelReadNew beyond bytes)).2

/-- Every call of the sequence is bounded, and an error that it reports for
want of bytes is still reported after all later calls. -/
structure ReadsBounded (beyond : Nat → UInt8) (bytes : Bytes)
    (calls : List Kind) : Prop where
  step : ∀ earlier kind later, calls = earlier ++ kind :: later →
    StepBounded kind (stateAfter beyond bytes earlier)
  errorStays : ∀ earlier kind later rest,
    calls = earlier ++ kind :: (later ++ rest) →
    NeedsBeyond kind (stateAfter beyond bytes earlier) →
    (stateAfter beyond bytes (earlier ++ kind :: later)).error = true

/-- The conditions under which the code's bounds are right: no byte is fetched
with the cursor exactly at the end, no sum with the cursor reaches `2 ^ 64`,
and the byte after a string that ends inside the buffer, which nothing looks
at, is zero. -/
def StepSafe (kind : Kind) (parcel : In) : Prop :=
  match kind with
  | .bool => parcel.size ≠ parcel.capacity
  | .varint | .varint64 | .varuint64 =>
    parcel.size ≤ parcel.capacity → ¬ Unterminated parcel parcel.size
  | .int => parcel.size + 4 < sizeModulus ∨
      parcel.capacity < (parcel.size + 4) % sizeModulus
  | .int64 => parcel.size + 8 < sizeModulus ∨
      parcel.capacity < (parcel.size + 8) % sizeModulus
  | .string => parcel.size ≠ parcel.capacity ∧
      ((parcelReadBool parcel).1 = false →
        (parcel.size < parcel.capacity →
          ¬ Unterminated parcel (parcel.size + 1)) ∧
        (stringLength parcel).2.size + (stringLength parcel).1.toNat + 1 <
          sizeModulus ∧
        (parcel.error = false →
          (stringLength parcel).2.size + (stringLength parcel).1.toNat + 1 ≤
            parcel.capacity →
          parcel.byteAt ((stringLength parcel).2.size +
            (stringLength parcel).1.toNat) = 0))

instance (kind : Kind) (parcel : In) : Decidable (StepSafe kind parcel) :=
  match kind with
  | .bool => inferInstanceAs (Decidable (_ ≠ _))
  | .varint | .varint64 | .varuint64 => inferInstanceAs (Decidable (_ → _))
  | .int | .int64 => inferInstanceAs (Decidable (_ ∨ _))
  | .string => inferInstanceAs (Decidable (_ ∧ _))

/-- A parcel on which no call has gone wrong so far. -/
structure Good (parcel : In) : Prop where
  capacity : parcel.capacity = parcel.ptr.length
  small : parcel.capacity + 1 < sizeModulus
  exactSize : parcel.size = parcel.exactSize
  inside : ∀ index ∈ parcel.touched, index < parcel.capacity

/-- What no call changes, and what calls only add to. -/
structure Extends (before after : In) : Prop where
  capacity : after.capacity = before.capacity
  ptr : after.ptr = before.ptr
  beyond : after.beyond = before.beyond
  touched : ∀ index ∈ before.touched, index ∈ after.touched
  error : before.error = true → after.error = true

theorem Extends.refl (parcel : In) : Extends parcel parcel :=
  ⟨rfl, rfl, rfl, fun _ member => member, fun set => set⟩

theorem Extends.trans {first second third : In} (left : Extends first second)
    (right : Extends second third) : Extends first third :=
  ⟨right.capacity.trans left.capacity, right.ptr.trans left.ptr,
    right.beyond.trans left.beyond,
    fun index member => right.touched index (left.touched index member),
    fun set => right.error (left.error set)⟩

theorem Extends.byteAt {before after : In} (grown : Extends before after)
    (index : Nat) : after.byteAt index = before.byteAt index := by
  rw [In.byteAt, In.byteAt, grown.ptr, grown.beyond]

theorem Extends.unterminated {before after : In} (grown : Extends before after)
    (start : Nat) : Unterminated after start ↔ Unterminated before start := by
  simp only [Unterminated, grown.capacity, grown.byteAt]

theorem parcelReadUchar_extends (parcel : In) :
    Extends parcel (parcelReadUchar parcel).2 := by
  rw [parcelReadUchar]
  split
  · exact ⟨rfl, rfl, rfl, fun _ member => List.mem_append_left _ member,
      fun set => set⟩
  · exact ⟨rfl, rfl, rfl, fun _ member => member, fun _ => rfl⟩

theorem readVaruint64Loop_succ (fuel : Nat) (parcel : In) (val offset : Nat) :
    readVaruint64Loop (fuel + 1) parcel val offset =
      if (parcelReadUchar parcel).1.toNat &&& 0x80 ≠ 0 then
        readVaruint64Loop fuel (parcelReadUchar parcel).2
          (val ||| shiftLeft64 ((parcelReadUchar parcel).1.toNat &&& 0x7f) offset)
          (offset + 7)
      else (val ||| shiftLeft64 (parcelReadUchar parcel).1.toNat offset,
        (parcelReadUchar parcel).2) :=
  rfl

theorem parcelReadVaruint64_snd (parcel : In) :
    (parcelReadVaruint64 parcel).2 =
      (readVaruint64Loop (readFuel parcel) parcel 0 0).2 :=
  rfl

theorem readVaruint64Loop_extends (fuel : Nat) (parcel : In) (val offset : Nat) :
    Extends parcel (readVaruint64Loop fuel parcel val offset).2 := by
  induction fuel generalizing parcel val offset with
  | zero => exact Extends.refl parcel
  | succ fuel ih =>
    have first := parcelReadUchar_extends parcel
    rw [readVaruint64Loop_succ]
    split
    · exact first.trans (ih _ _ _)
    · exact first

theorem parcelReadVaruint64_extends (parcel : In) :
    Extends parcel (parcelReadVaruint64 parcel).2 := by
  rw [parcelReadVaruint64_snd]
  exact readVaruint64Loop_extends _ _ _ _

theorem parcelRead_extends (count : Nat) (parcel : In) :
    Extends parcel (parcelRead count parcel).2 := by
  rw [parcelRead]
  split
  · exact ⟨rfl, rfl, rfl, fun _ member => List.mem_append_left _ member,
      fun set => set⟩
  · exact ⟨rfl, rfl, rfl, fun _ member => member, fun _ => rfl⟩

/-- The cursor that `parcel_read_string_and_size` stores. -/
def stringEnd (parcel : In) : Nat :=
  ((stringLength parcel).2.size +
    ((stringLength parcel).1.toNat + 1) % sizeModulus) % sizeModulus

theorem parcelReadStringAndSize_eq (parcel : In) :
    parcelReadStringAndSize parcel =
      if (parcelReadBool parcel).1 then (none, (parcelReadBool parcel).2)
      else
        (some ⟨(stringLength parcel).2.size, (stringLength parcel).1.toNat⟩,
          { (stringLength parcel).2 with
            size := stringEnd parcel
            error := (stringLength parcel).2.error ||
              decide ((stringLength parcel).2.capacity < stringEnd parcel)
            exactSize := (stringLength parcel).2.exactSize +
              ((stringLength parcel).1.toNat + 1) }) :=
  rfl

theorem stringLength_extends (parcel : In) :
    Extends parcel (stringLength parcel).2 :=
  (parcelReadUchar_extends parcel).trans (parcelReadVaruint64_extends _)

theorem parcelReadStringAndSize_extends (parcel : In) :
    Extends parcel (parcelReadStringAndSize parcel).2 := by
  rw [parcelReadStringAndSize_eq]
  split
  · exact parcelReadUchar_extends parcel
  · have before := stringLength_extends parcel
    exact ⟨before.capacity, before.ptr, before.beyond, before.touched,
      fun set => by simp [before.error set]⟩

theorem read_extends (kind : Kind) (parcel : In) :
    Extends parcel (read kind parcel).2 := by
  cases kind with
  | bool => exact parcelReadUchar_extends parcel
  | varint => exact parcelReadVaruint64_extends parcel
  | int => exact parcelRead_extends 4 parcel
  | varint64 => exact parcelReadVaruint64_extends parcel
  | int64 => exact parcelRead_extends 8 parcel
  | varuint64 => exact parcelReadVaruint64_extends parcel
  | string => exact parcelReadStringAndSize_extends parcel

theorem readAll_extends (kinds : List Kind) (parcel : In) :
    Extends parcel (readAll kinds parcel).2 := by
  induction kinds generalizing parcel with
  | nil => exact Extends.refl parcel
  | cons kind kinds ih => exact (read_extends kind parcel).trans (ih _)

section Bytes

/-- Past the end a byte read fails and touches nothing. -/
theorem parcelReadUchar_past {parcel : In} (past : parcel.capacity < parcel.size) :
    parcelReadUchar parcel = (0, { parcel with error := true }) := by
  rw [parcelReadUchar, if_neg (by omega)]

theorem parcelReadUchar_end {parcel : In} (atEnd : parcel.size = parcel.capacity) :
    parcel.capacity ∈ (parcelReadUchar parcel).2.touched := by
  rw [parcelReadUchar, if_pos (by omega)]
  simp [atEnd]

theorem parcelReadUchar_inside {parcel : In} (good : Good parcel)
    (inside : parcel.size < parcel.capacity) :
    (parcelReadUchar parcel).1 = parcel.byteAt parcel.size ∧
      (parcelReadUchar parcel).2.size = parcel.size + 1 ∧
      (parcelReadUchar parcel).2.error = parcel.error ∧
      Good (parcelReadUchar parcel).2 := by
  have small := good.small
  have noWrap : (parcel.size + 1) % sizeModulus = parcel.size + 1 :=
    Nat.mod_eq_of_lt (by omega)
  rw [parcelReadUchar, if_pos (by omega)]
  refine ⟨rfl, noWrap, rfl, good.capacity, good.small, ?_, ?_⟩
  · change (parcel.size + 1) % sizeModulus = parcel.exactSize + 1
    rw [noWrap, good.exactSize]
  · intro index member
    rcases List.mem_append.mp member with old | new
    · exact good.inside index old
    · rw [List.mem_singleton.mp new]
      exact inside

end Bytes

section Varints

theorem continuation_bit_byte (byte : UInt8) :
    byte.toNat &&& 0x80 ≠ 0 ↔ 128 ≤ byte.toNat :=
  WordEncodings.Base128.continuation_bit byte.toNat_lt

theorem readVaruint64Loop_past {fuel : Nat} {parcel : In} {val offset : Nat}
    (past : parcel.capacity < parcel.size) :
    (readVaruint64Loop (fuel + 1) parcel val offset).2 =
      { parcel with error := true } := by
  rw [readVaruint64Loop_succ, parcelReadUchar_past past]
  simp

/-- A number that is not ended by the last byte makes the loop fetch the byte
after it. -/
theorem readVaruint64Loop_unterminated (fuel : Nat) {parcel : In}
    {val offset : Nat} (good : Good parcel)
    (inside : parcel.size ≤ parcel.capacity)
    (unterminated : Unterminated parcel parcel.size)
    (enough : parcel.capacity - parcel.size < fuel) :
    parcel.capacity ∈ (readVaruint64Loop fuel parcel val offset).2.touched := by
  induction fuel generalizing parcel val offset with
  | zero => omega
  | succ fuel ih =>
    have grown := parcelReadUchar_extends parcel
    rw [readVaruint64Loop_succ]
    by_cases atEnd : parcel.size = parcel.capacity
    · have fetched := parcelReadUchar_end atEnd
      split
      · exact (readVaruint64Loop_extends _ _ _ _).touched _ fetched
      · exact fetched
    · have inBuffer : parcel.size < parcel.capacity := by omega
      obtain ⟨byteEq, sizeEq, -, nextGood⟩ := parcelReadUchar_inside good inBuffer
      have continued : (parcelReadUchar parcel).1.toNat &&& 0x80 ≠ 0 := by
        rw [continuation_bit_byte, byteEq]
        exact unterminated parcel.size inBuffer (Nat.le_refl _)
      rw [if_pos continued, ← grown.capacity]
      apply ih nextGood
      · rw [sizeEq, grown.capacity]
        omega
      · rw [grown.unterminated, sizeEq]
        intro index indexLt afterStart
        exact unterminated index indexLt (by omega)
      · rw [sizeEq, grown.capacity]
        omega

/-- A number that ends inside the buffer is read without leaving it. -/
theorem readVaruint64Loop_terminated (fuel : Nat) {parcel : In}
    {val offset : Nat} (good : Good parcel)
    (inside : parcel.size ≤ parcel.capacity)
    (terminated : ¬ Unterminated parcel parcel.size)
    (enough : parcel.capacity - parcel.size < fuel) :
    Good (readVaruint64Loop fuel parcel val offset).2 ∧
      (readVaruint64Loop fuel parcel val offset).2.size ≤ parcel.capacity ∧
      (readVaruint64Loop fuel parcel val offset).2.error = parcel.error := by
  induction fuel generalizing parcel val offset with
  | zero => omega
  | succ fuel ih =>
    have grown := parcelReadUchar_extends parcel
    have inBuffer : parcel.size < parcel.capacity := by
      by_contra atEnd
      apply terminated
      intro index indexLt afterStart
      omega
    obtain ⟨byteEq, sizeEq, errorEq, nextGood⟩ :=
      parcelReadUchar_inside good inBuffer
    rw [readVaruint64Loop_succ]
    split
    · rename_i continued
      rw [continuation_bit_byte, byteEq] at continued
      rw [← errorEq, ← grown.capacity]
      apply ih nextGood
      · rw [sizeEq, grown.capacity]
        omega
      · rw [grown.unterminated, sizeEq]
        intro unterminated
        apply terminated
        intro index indexLt afterStart
        by_cases first : index = parcel.size
        · rw [first]
          exact continued
        · exact unterminated index indexLt (by omega)
      · rw [sizeEq, grown.capacity]
        omega
    · exact ⟨nextGood, by rw [sizeEq]; omega, errorEq⟩

theorem parcelReadVaruint64_past {parcel : In}
    (past : parcel.capacity < parcel.size) :
    (parcelReadVaruint64 parcel).2 = { parcel with error := true } :=
  readVaruint64Loop_past past

theorem parcelReadVaruint64_unterminated {parcel : In} (good : Good parcel)
    (inside : parcel.size ≤ parcel.capacity)
    (unterminated : Unterminated parcel parcel.size) :
    parcel.capacity ∈ (parcelReadVaruint64 parcel).2.touched := by
  rw [parcelReadVaruint64_snd]
  exact readVaruint64Loop_unterminated _ good inside unterminated
    (by rw [readFuel]; omega)

theorem parcelReadVaruint64_terminated {parcel : In} (good : Good parcel)
    (inside : parcel.size ≤ parcel.capacity)
    (terminated : ¬ Unterminated parcel parcel.size) :
    Good (parcelReadVaruint64 parcel).2 ∧
      (parcelReadVaruint64 parcel).2.size ≤ parcel.capacity ∧
      (parcelReadVaruint64 parcel).2.error = parcel.error := by
  rw [parcelReadVaruint64_snd]
  exact readVaruint64Loop_terminated _ good inside terminated
    (by rw [readFuel]; omega)

end Varints

section Steps

variable {kind : Kind} {parcel : In}

theorem Good.fail (good : Good parcel) : Good { parcel with error := true } :=
  ⟨good.capacity, good.small, good.exactSize, good.inside⟩

theorem good_of_stepBounded (good : Good parcel)
    (bounded : StepBounded kind parcel) : Good (read kind parcel).2 := by
  have grown := read_extends kind parcel
  refine ⟨?_, ?_, bounded.noWrap, ?_⟩
  · rw [grown.capacity, grown.ptr, good.capacity]
  · rw [grown.capacity]
    exact good.small
  · rw [grown.capacity]
    exact bounded.inside

/-- A call that leaves a good parcel is bounded if its string and its error are
right. -/
theorem stepBounded_of_good (after : Good (read kind parcel).2)
    (stringInside : ∀ str, returnedString kind parcel = some str →
      StringInside parcel str ∨ (read kind parcel).2.error = true)
    (errorSet : NeedsBeyond kind parcel → (read kind parcel).2.error = true) :
    StepBounded kind parcel :=
  ⟨fun index member => (read_extends kind parcel).capacity ▸ after.inside index member,
    after.exactSize, stringInside, errorSet⟩

/-- A call that only sets the error flag is bounded. -/
theorem stepBounded_of_fail (good : Good parcel)
    (failed : (read kind parcel).2 = { parcel with error := true }) :
    StepBounded kind parcel := by
  refine stepBounded_of_good ?_ (fun _ _ => Or.inr ?_) (fun _ => ?_)
  · rw [failed]
    exact good.fail
  · rw [failed]
  · rw [failed]

theorem bool_stepBounded_iff (good : Good parcel) :
    StepBounded .bool parcel ↔ StepSafe .bool parcel := by
  constructor
  · intro bounded atEnd
    exact lt_irrefl _ (bounded.inside _ (parcelReadUchar_end atEnd))
  · intro safe
    have safe : parcel.size ≠ parcel.capacity := safe
    by_cases inside : parcel.size < parcel.capacity
    · obtain ⟨-, -, -, after⟩ := parcelReadUchar_inside good inside
      refine stepBounded_of_good after (fun _ none => by cases none) ?_
      intro needs
      have needs : parcel.capacity ≤ parcel.size := needs
      omega
    · have past : parcel.capacity < parcel.size := by omega
      apply stepBounded_of_fail good
      change (parcelReadUchar parcel).2 = _
      rw [parcelReadUchar_past past]

/-- The three base-128 readers move the parcel alike. -/
theorem varuint64_stepBounded_iff (good : Good parcel)
    (sameParcel : (read kind parcel).2 = (parcelReadVaruint64 parcel).2)
    (noString : returnedString kind parcel = none)
    (needsIff : NeedsBeyond kind parcel ↔ Unterminated parcel parcel.size) :
    StepBounded kind parcel ↔
      (parcel.size ≤ parcel.capacity → ¬ Unterminated parcel parcel.size) := by
  constructor
  · intro bounded inside unterminated
    have fetched := parcelReadVaruint64_unterminated good inside unterminated
    rw [← sameParcel] at fetched
    exact lt_irrefl _ (bounded.inside _ fetched)
  · intro safe
    by_cases inside : parcel.size ≤ parcel.capacity
    · obtain ⟨after, -, -⟩ :=
        parcelReadVaruint64_terminated good inside (safe inside)
      rw [← sameParcel] at after
      refine stepBounded_of_good after (fun _ some => by rw [noString] at some; cases some) ?_
      intro needs
      exact absurd (needsIff.mp needs) (safe inside)
    · apply stepBounded_of_fail good
      rw [sameParcel, parcelReadVaruint64_past (by omega)]

theorem parcelRead_stepBounded_iff (good : Good parcel) {count : Nat}
    (sameParcel : (read kind parcel).2 = (parcelRead count parcel).2)
    (noString : returnedString kind parcel = none)
    (needsIff : NeedsBeyond kind parcel ↔ parcel.capacity < parcel.size + count) :
    StepBounded kind parcel ↔
      (parcel.size + count < sizeModulus ∨
        parcel.capacity < (parcel.size + count) % sizeModulus) := by
  by_cases copied : (parcel.size + count) % sizeModulus ≤ parcel.capacity
  · have parcelEq : (read kind parcel).2 =
        { parcel with
          size := (parcel.size + count) % sizeModulus
          touched := parcel.touched ++ (List.range count).map (parcel.size + ·)
          exactSize := parcel.exactSize + count } := by
      rw [sameParcel, parcelRead, if_pos copied]
    constructor
    · intro bounded
      have noWrap := bounded.noWrap
      rw [parcelEq] at noWrap
      have noWrap : (parcel.size + count) % sizeModulus =
          parcel.exactSize + count := noWrap
      rw [← good.exactSize] at noWrap
      left
      rw [← noWrap]
      exact Nat.mod_lt _ (by decide)
    · intro safe
      have noWrap : parcel.size + count < sizeModulus := by omega
      rw [Nat.mod_eq_of_lt noWrap] at copied parcelEq
      refine stepBounded_of_good ?_ (fun _ some => by rw [noString] at some; cases some) ?_
      · rw [parcelEq]
        refine ⟨good.capacity, good.small, by simp [good.exactSize], ?_⟩
        intro index member
        rcases List.mem_append.mp member with old | new
        · exact good.inside index old
        · obtain ⟨position, positionLt, rfl⟩ := List.mem_map.mp new
          have := List.mem_range.mp positionLt
          change parcel.size + position < parcel.capacity
          omega
      · intro needs
        have := needsIff.mp needs
        omega
  · constructor
    · intro
      right
      omega
    · intro
      apply stepBounded_of_fail good
      rw [sameParcel, parcelRead, if_neg copied]

theorem stringLength_past (past : parcel.capacity < parcel.size) :
    (stringLength parcel).2 = { parcel with error := true } := by
  have tagEq : (parcelReadBool parcel).2 = { parcel with error := true } := by
    change (parcelReadUchar parcel).2 = _
    rw [parcelReadUchar_past past]
  have stillPast : { parcel with error := true }.capacity <
      { parcel with error := true }.size := past
  rw [stringLength, tagEq]
  exact parcelReadVaruint64_past stillPast

/-- Up to its length field a string is read like a byte and a number. -/
theorem stringLength_spec (good : Good parcel)
    (notEnd : parcel.size ≠ parcel.capacity)
    (terminated : parcel.size < parcel.capacity →
      ¬ Unterminated parcel (parcel.size + 1)) :
    Good (stringLength parcel).2 ∧
      (stringLength parcel).2.error =
        (parcel.error || decide (parcel.capacity < parcel.size)) := by
  by_cases inside : parcel.size < parcel.capacity
  · obtain ⟨-, sizeEq, errorEq, tagGood⟩ := parcelReadUchar_inside good inside
    have grown := parcelReadUchar_extends parcel
    have rest := parcelReadVaruint64_terminated tagGood
      (by rw [sizeEq, grown.capacity]; omega)
      (by rw [grown.unterminated, sizeEq]; exact terminated inside)
    refine ⟨rest.1, ?_⟩
    have notPast : ¬ parcel.capacity < parcel.size := by omega
    rw [decide_eq_false notPast, Bool.or_false, ← errorEq]
    exact rest.2.2
  · have past : parcel.capacity < parcel.size := by omega
    rw [stringLength_past past]
    exact ⟨good.fail, by simp [past]⟩

theorem read_string_of_null (null : (parcelReadBool parcel).1 = true) :
    (read .string parcel).2 = (parcelReadUchar parcel).2 ∧
      returnedString .string parcel = none := by
  constructor
  · change (parcelReadStringAndSize parcel).2 = _
    rw [parcelReadStringAndSize_eq, if_pos null]
    rfl
  · change (parcelReadStringAndSize parcel).1 = _
    rw [parcelReadStringAndSize_eq, if_pos null]

theorem read_string_of_present (present : (parcelReadBool parcel).1 = false) :
    (read .string parcel).2 =
        { (stringLength parcel).2 with
          size := stringEnd parcel
          error := (stringLength parcel).2.error ||
            decide ((stringLength parcel).2.capacity < stringEnd parcel)
          exactSize := (stringLength parcel).2.exactSize +
            ((stringLength parcel).1.toNat + 1) } ∧
      returnedString .string parcel =
        some ⟨(stringLength parcel).2.size, (stringLength parcel).1.toNat⟩ := by
  constructor
  · change (parcelReadStringAndSize parcel).2 = _
    rw [parcelReadStringAndSize_eq, if_neg (by simp [present])]
  · change (parcelReadStringAndSize parcel).1 = _
    rw [parcelReadStringAndSize_eq, if_neg (by simp [present])]

theorem stringEnd_eq (parcel : In) :
    stringEnd parcel = ((stringLength parcel).2.size +
      (stringLength parcel).1.toNat + 1) % sizeModulus := by
  rw [stringEnd, Nat.add_mod_mod, Nat.add_assoc]

theorem string_stepSafe_of_bounded (good : Good parcel)
    (bounded : StepBounded .string parcel) : StepSafe .string parcel := by
  have notEnd : parcel.size ≠ parcel.capacity := by
    intro atEnd
    have fetched := parcelReadUchar_end atEnd
    cases tag : (parcelReadBool parcel).1 with
    | true =>
      rw [← (read_string_of_null tag).1] at fetched
      exact lt_irrefl _ (bounded.inside _ fetched)
    | false =>
      have fetched := (parcelReadVaruint64_extends _).touched _ fetched
      have inside := bounded.inside parcel.capacity
      rw [(read_string_of_present tag).1] at inside
      exact lt_irrefl _ (inside fetched)
  refine ⟨notEnd, fun present => ?_⟩
  have inside := bounded.inside
  have noWrap := bounded.noWrap
  rw [(read_string_of_present present).1] at inside noWrap
  have terminated : parcel.size < parcel.capacity →
      ¬ Unterminated parcel (parcel.size + 1) := by
    intro inBuffer unterminated
    obtain ⟨-, sizeEq, -, tagGood⟩ := parcelReadUchar_inside good inBuffer
    have grown := parcelReadUchar_extends parcel
    have fetched := parcelReadVaruint64_unterminated tagGood
      (by rw [sizeEq, grown.capacity]; omega)
      (by rw [grown.unterminated, sizeEq]; exact unterminated)
    rw [grown.capacity] at fetched
    exact lt_irrefl _ (inside _ fetched)
  obtain ⟨lengthGood, lengthError⟩ := stringLength_spec good notEnd terminated
  have noWrap : stringEnd parcel = (stringLength parcel).2.exactSize +
      ((stringLength parcel).1.toNat + 1) := noWrap
  rw [← lengthGood.exactSize, ← Nat.add_assoc] at noWrap
  refine ⟨terminated, ?_, ?_⟩
  · rw [stringEnd_eq] at noWrap
    rw [← noWrap]
    exact Nat.mod_lt _ (by decide)
  · intro noError ends
    have notPast : ¬ parcel.capacity < parcel.size := by
      intro past
      rw [stringLength_past past] at ends
      have ends : parcel.size + _ + 1 ≤ parcel.capacity := ends
      omega
    rcases bounded.stringInside _ (read_string_of_present present).2 with found | failed
    · exact found.2
    · -- neither the fields before the string nor its end set the flag
      rw [(read_string_of_present present).1, noWrap] at failed
      have capacityEq := (stringLength_extends parcel).capacity
      simp [lengthError, noError, notPast, capacityEq, Nat.not_lt.mpr ends] at failed

theorem string_stepBounded_of_safe (good : Good parcel)
    (safe : StepSafe .string parcel) : StepBounded .string parcel := by
  obtain ⟨notEnd, presentSafe⟩ := safe
  cases tag : (parcelReadBool parcel).1 with
  | true =>
    obtain ⟨parcelEq, noString⟩ := read_string_of_null tag
    have inside : parcel.size < parcel.capacity := by
      by_contra outside
      have past : parcel.capacity < parcel.size := by omega
      simp [parcelReadBool, parcelReadUchar_past past] at tag
    obtain ⟨byteEq, -, -, after⟩ := parcelReadUchar_inside good inside
    rw [← parcelEq] at after
    refine stepBounded_of_good after (fun _ some => by rw [noString] at some; cases some) ?_
    rintro (atEnd | ⟨isZero, -⟩)
    · omega
    · rw [← byteEq] at isZero
      simp [parcelReadBool, isZero] at tag
  | false =>
    obtain ⟨terminated, fits, ends⟩ := presentSafe tag
    obtain ⟨parcelEq, stringEq⟩ := read_string_of_present tag
    obtain ⟨lengthGood, lengthError⟩ := stringLength_spec good notEnd terminated
    have grown := stringLength_extends parcel
    have pastError : parcel.capacity < parcel.size →
        (stringLength parcel).2.error = true := by
      intro past
      simp [lengthError, past]
    have endEq : stringEnd parcel = (stringLength parcel).2.size +
        (stringLength parcel).1.toNat + 1 := by
      rw [stringEnd_eq, Nat.mod_eq_of_lt fits]
    have errorOfOverrun : parcel.capacity < (stringLength parcel).2.size +
        (stringLength parcel).1.toNat + 1 →
        (read .string parcel).2.error = true := by
      intro overrun
      rw [parcelEq]
      simp [grown.capacity, endEq, overrun]
    refine stepBounded_of_good ?_ ?_ ?_
    · rw [parcelEq]
      refine ⟨lengthGood.capacity, lengthGood.small, ?_, lengthGood.inside⟩
      change stringEnd parcel = _
      rw [endEq, lengthGood.exactSize, Nat.add_assoc]
    · intro str strEq
      rw [stringEq, Option.some.injEq] at strEq
      subst strEq
      by_cases overrun : parcel.capacity < (stringLength parcel).2.size +
          (stringLength parcel).1.toNat + 1
      · exact Or.inr (errorOfOverrun overrun)
      · have inBuffer : (stringLength parcel).2.size +
            (stringLength parcel).1.toNat + 1 ≤ parcel.capacity := by omega
        cases before : parcel.error with
        | false => exact Or.inl ⟨inBuffer, ends before inBuffer⟩
        | true => exact Or.inr ((read_extends .string parcel).error before)
    · rintro (atEnd | ⟨-, unterminated | overrun⟩)
      · rw [parcelEq]
        simp [pastError (by omega)]
      · rw [parcelEq]
        have past : ¬ parcel.size < parcel.capacity :=
          fun inside => terminated inside unterminated
        simp [pastError (by omega)]
      · exact errorOfOverrun overrun

/-- A call on a good parcel is bounded exactly when its condition holds. -/
theorem stepBounded_iff (good : Good parcel) :
    StepBounded kind parcel ↔ StepSafe kind parcel := by
  cases kind with
  | bool => exact bool_stepBounded_iff good
  | varint => exact varuint64_stepBounded_iff good rfl rfl Iff.rfl
  | int => exact parcelRead_stepBounded_iff good rfl rfl Iff.rfl
  | varint64 => exact varuint64_stepBounded_iff good rfl rfl Iff.rfl
  | int64 => exact parcelRead_stepBounded_iff good rfl rfl Iff.rfl
  | varuint64 => exact varuint64_stepBounded_iff good rfl rfl Iff.rfl
  | string =>
    exact ⟨string_stepSafe_of_bounded good, string_stepBounded_of_safe good⟩

end Steps

section Runs

theorem readAll_append (first second : List Kind) (parcel : In) :
    (readAll (first ++ second) parcel).2 =
      (readAll second (readAll first parcel).2).2 := by
  induction first generalizing parcel with
  | nil => rfl
  | cons kind first ih => exact ih (read kind parcel).2

variable (beyond : Nat → UInt8) (bytes : Bytes)

theorem stateAfter_concat (calls : List Kind) (kind : Kind) :
    stateAfter beyond bytes (calls ++ [kind]) =
      (read kind (stateAfter beyond bytes calls)).2 := by
  rw [stateAfter, readAll_append]
  rfl

theorem parcelReadNew_good (small : bytes.length + 1 < sizeModulus) :
    Good (parcelReadNew beyond bytes) :=
  ⟨rfl, small, rfl, fun _ member => by cases member⟩

/-- If every step before a point is bounded, the parcel is good there. -/
theorem good_stateAfter (small : bytes.length + 1 < sizeModulus)
    {calls : List Kind}
    (steps : ∀ earlier kind later, calls = earlier ++ kind :: later →
      Good (stateAfter beyond bytes earlier) →
      StepBounded kind (stateAfter beyond bytes earlier))
    (earlier later : List Kind) (split : calls = earlier ++ later) :
    Good (stateAfter beyond bytes earlier) := by
  induction earlier using List.reverseRecOn generalizing later with
  | nil => exact parcelReadNew_good beyond bytes small
  | append_singleton earlier kind ih =>
    have split : calls = earlier ++ kind :: later := by simpa using split
    have before := ih (kind :: later) split
    rw [stateAfter_concat]
    exact good_of_stepBounded before (steps earlier kind later split before)

/-- The reads of a call sequence are bounded exactly when every call meets its
condition in the state it starts from. -/
theorem readsBounded_iff_stepSafe (small : bytes.length + 1 < sizeModulus)
    (calls : List Kind) :
    ReadsBounded beyond bytes calls ↔
      ∀ earlier kind later, calls = earlier ++ kind :: later →
        StepSafe kind (stateAfter beyond bytes earlier) := by
  constructor
  · intro bounded earlier kind later split
    have good := good_stateAfter beyond bytes small
      (fun earlier kind later split _ => bounded.step earlier kind later split)
      earlier (kind :: later) split
    exact (stepBounded_iff good).mp (bounded.step earlier kind later split)
  · intro safe
    have good := good_stateAfter beyond bytes small
      (fun earlier kind later split before =>
        (stepBounded_iff before).mpr (safe earlier kind later split))
    have step : ∀ earlier kind later, calls = earlier ++ kind :: later →
        StepBounded kind (stateAfter beyond bytes earlier) := by
      intro earlier kind later split
      exact (stepBounded_iff (good earlier (kind :: later) split)).mpr
        (safe earlier kind later split)
    refine ⟨step, ?_⟩
    intro earlier kind later rest split needs
    have set := (step earlier kind (later ++ rest) split).errorSet needs
    rw [← stateAfter_concat] at set
    have grown := readAll_extends later (stateAfter beyond bytes (earlier ++ [kind]))
    have stateEq : stateAfter beyond bytes (earlier ++ kind :: later) =
        (readAll later (stateAfter beyond bytes (earlier ++ [kind]))).2 := by
      rw [stateAfter, stateAfter, ← readAll_append]
      simp
    rw [stateEq]
    exact grown.error set

/-- What the writers make of the string `ab`, the number -1 and true: read
again, the string, the number and the truth value stay inside the buffer. -/
theorem readsBounded_sample :
    ReadsBounded (fun _ => 0) [0, 2, 97, 98, 0, 1, 1] [.string, .varint, .bool] := by
  apply (readsBounded_iff_stepSafe (fun _ => 0) [0, 2, 97, 98, 0, 1, 1]
    (by decide) [.string, .varint, .bool]).mpr
  intro earlier kind later split
  rcases earlier with _ | ⟨_, _ | ⟨_, _ | ⟨_, earlier⟩⟩⟩
  · cases split
    decide
  · cases split
    decide
  · cases split
    decide
  · simp at split

/-- The backend's error answer is the single byte 0.  `backend_request` reads
two numbers from it, and the second read fetches the byte at index 1.  A string
that ends inside the buffer passes whatever the byte after it is: here a letter,
so that whoever copies the string runs out of the buffer. -/
theorem malformed_not_readsBounded :
    ¬ ReadsBounded (fun _ => 0) [0] [.varint, .varint] ∧
      ¬ ReadsBounded (fun _ => 0) [0, 2, 97, 98, 99] [.string] := by
  constructor
  · intro bounded
    have step := bounded.step [.varint] .varint [] rfl
    exact absurd (step.inside 1 (by decide)) (by decide)
  · intro bounded
    have step := bounded.step [] .string [] rfl
    rcases step.stringInside ⟨2, 2⟩ (by decide) with found | failed
    · exact absurd found.2 (by decide)
    · exact absurd failed (by decide)

end Runs

end Parcel

end Fbbs
