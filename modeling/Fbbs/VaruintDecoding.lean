import Fbbs.Base128Codes
import Fbbs.ParcelBounds

/-!
# Decoding any bytes

The loop of `parcel_read_varuint64` in `src/lib/parcel.c` on any bytes.  It goes on as long as a
byte has the continuation bit, and looks neither at the number of bits to shift nor at the length of
a code.
-/

namespace Fbbs

namespace Parcel

open WordEncodings.Base128 (codeValue IsCode IsShort groups)

/-- The numbers of bits that the loop shifts by; there is no result if it goes on for too long. -/
def shiftCounts : Nat → In → Nat → Option (List Nat)
  | 0, _, _ => none
  | fuel + 1, parcel, offset =>
    let (byte, parcel) := parcelReadUchar parcel
    if byte.toNat &&& 0x80 ≠ 0 then (shiftCounts fuel parcel (offset + 7)).map (offset :: ·)
    else some [offset]

/-- A parcel of these bytes, read from a place on. -/
def parcelAt (beyond : Nat → UInt8) (bytes : Bytes) (cursor : Nat) : In :=
  { parcelReadNew beyond bytes with size := cursor, exactSize := cursor }

/-- The bytes that can be read, the one behind the end too. -/
def readable (parcel : In) : Bytes :=
  if parcel.size ≤ parcel.capacity then
    (List.range' parcel.size (parcel.capacity - parcel.size + 1)).map parcel.byteAt
  else []

def continues (byte : UInt8) : Bool :=
  decide (128 ≤ byte.toNat)

/-- How many bytes with the continuation bit are read. -/
def continuedBytes (parcel : In) : Nat :=
  ((readable parcel).takeWhile continues).length

/-- What the writer makes of a number. -/
def IsCanonical (code : Bytes) : Prop :=
  ∃ val : BitVec 64, code = encodeVaruint64 val

/-- The loop ends and shifts by less than the width; the code of a number is read as this number,
and a code that is too long is an error. -/
structure Decodes (beyond : Nat → UInt8) (bytes : Bytes) (cursor : Nat) : Prop where
  ends : ∃ fuel counts, shiftCounts fuel (parcelAt beyond bytes cursor) 0 = some counts ∧
    ∀ count ∈ counts, count < 64
  value : ∀ (val : BitVec 64) (rest : Bytes), bytes.drop cursor = encodeVaruint64 val ++ rest →
    (parcelReadVaruint64 (parcelAt beyond bytes cursor)).1 = val
  overlong : ∀ (more : Bytes) (last : UInt8) (rest : Bytes),
    bytes.drop cursor = more ++ last :: rest → IsCode more last →
      ¬IsCanonical (more ++ [last]) →
        (parcelReadVaruint64 (parcelAt beyond bytes cursor)).2.error = true

/-! ## How far the loop goes -/

variable {parcel : In} {beyond : Nat → UInt8} {bytes : Bytes} {cursor : Nat}

theorem shiftCounts_succ (fuel : Nat) (parcel : In) (offset : Nat) :
    shiftCounts (fuel + 1) parcel offset =
      if (parcelReadUchar parcel).1.toNat &&& 0x80 ≠ 0 then
        (shiftCounts fuel (parcelReadUchar parcel).2 (offset + 7)).map (offset :: ·)
      else some [offset] :=
  rfl

/-- More fuel makes no difference to a loop that ends. -/
theorem shiftCounts_unique {fuel fuel' : Nat} {offset : Nat} {counts counts' : List Nat}
    (first : shiftCounts fuel parcel offset = some counts)
    (second : shiftCounts fuel' parcel offset = some counts') : counts = counts' := by
  induction fuel generalizing fuel' parcel offset counts counts' with
  | zero => cases first
  | succ fuel ih =>
    cases fuel' with
    | zero => cases second
    | succ fuel' =>
      rw [shiftCounts_succ] at first second
      split at first
      next continued =>
        rw [if_pos continued] at second
        obtain ⟨rest, restEq, rfl⟩ := Option.map_eq_some_iff.mp first
        obtain ⟨rest', restEq', rfl⟩ := Option.map_eq_some_iff.mp second
        rw [ih restEq restEq']
      next last =>
        rw [if_neg last] at second
        exact (Option.some.inj first).symm.trans (Option.some.inj second)

theorem readable_past (past : parcel.capacity < parcel.size) : readable parcel = [] :=
  if_neg (Nat.not_le.mpr past)

theorem readable_inside (small : parcel.capacity + 1 < sizeModulus)
    (inside : parcel.size ≤ parcel.capacity) :
    readable parcel = (parcelReadUchar parcel).1 :: readable (parcelReadUchar parcel).2 := by
  have noWrap : (parcel.size + 1) % sizeModulus = parcel.size + 1 := Nat.mod_eq_of_lt (by omega)
  have next : (parcelReadUchar parcel).2.size = parcel.size + 1 := by
    rw [parcelReadUchar, if_pos inside]
    exact noWrap
  have byte : (parcelReadUchar parcel).1 = parcel.byteAt parcel.size := by
    rw [parcelReadUchar, if_pos inside]
  have grown := parcelReadUchar_extends parcel
  rw [byte]
  unfold readable
  rw [if_pos inside, next, grown.capacity, List.range'_succ, List.map_cons]
  apply congrArg (parcel.byteAt parcel.size :: ·)
  have same : (parcelReadUchar parcel).2.byteAt = parcel.byteAt := funext grown.byteAt
  rw [same]
  split
  next further =>
    have fewer : parcel.capacity - (parcel.size + 1) + 1 = parcel.capacity - parcel.size := by omega
    rw [fewer]
  next =>
    have last : parcel.capacity - parcel.size = 0 := by omega
    rw [last]
    rfl

theorem counts_succ (offset rounds : Nat) :
    (List.range (rounds + 1)).map (offset + 7 * ·) =
      offset :: (List.range rounds).map (offset + 7 + 7 * ·) := by
  rw [List.range_succ_eq_map, List.map_cons, List.map_map]
  apply congrArg (offset :: ·)
  apply List.map_congr_left
  intro i _
  change offset + 7 * (i + 1) = offset + 7 + 7 * i
  omega

/-- The loop shifts by seven more bits for each byte with the continuation bit. -/
theorem shiftCounts_eq {list : Bytes} (small : parcel.capacity + 1 < sizeModulus)
    (readableEq : readable parcel = list) (offset : Nat) :
    shiftCounts (list.length + 1) parcel offset =
      some ((List.range ((list.takeWhile continues).length + 1)).map (offset + 7 * ·)) := by
  induction list generalizing parcel offset with
  | nil =>
    have past : parcel.capacity < parcel.size := by
      by_contra inside
      rw [readable_inside small (by omega)] at readableEq
      cases readableEq
    have stops : ¬(0 : UInt8).toNat &&& 0x80 ≠ 0 := by decide
    rw [shiftCounts_succ, parcelReadUchar_past past, if_neg stops]
    rfl
  | cons byte list ih =>
    have inside : parcel.size ≤ parcel.capacity := by
      by_contra past
      rw [readable_past (by omega)] at readableEq
      cases readableEq
    rw [readable_inside small inside] at readableEq
    obtain ⟨byteEq, restEq⟩ := List.cons.inj readableEq
    have grown := parcelReadUchar_extends parcel
    have nextSmall : (parcelReadUchar parcel).2.capacity + 1 < sizeModulus := by
      rw [grown.capacity]
      exact small
    rw [shiftCounts_succ, byteEq, List.takeWhile_cons, List.length_cons]
    by_cases continued : 128 ≤ byte.toNat
    · have bit : byte.toNat &&& 0x80 ≠ 0 := (continuation_bit_byte byte).mpr continued
      have goes : continues byte = true := decide_eq_true continued
      rw [if_pos bit, if_pos goes, ih nextSmall restEq, Option.map_some, List.length_cons,
        counts_succ offset (_ + 1)]
    · have bit : ¬byte.toNat &&& 0x80 ≠ 0 := fun set =>
        continued ((continuation_bit_byte byte).mp set)
      have stops : ¬continues byte = true := fun goes => continued (of_decide_eq_true goes)
      rw [if_neg bit, if_neg stops]
      rfl

/-- The loop always ends. -/
theorem exists_shiftCounts (small : parcel.capacity + 1 < sizeModulus) :
    ∃ fuel, shiftCounts fuel parcel 0 =
      some ((List.range (continuedBytes parcel + 1)).map (7 * ·)) := by
  have counts := shiftCounts_eq small rfl 0
  simp only [Nat.zero_add] at counts
  exact ⟨_, counts⟩

theorem ends_iff (small : parcel.capacity + 1 < sizeModulus) :
    (∃ fuel counts, shiftCounts fuel parcel 0 = some counts ∧ ∀ count ∈ counts, count < 64) ↔
      continuedBytes parcel ≤ 9 := by
  obtain ⟨fuel, ends⟩ := exists_shiftCounts small
  constructor
  · rintro ⟨fuel', counts, ends', below⟩
    have same := shiftCounts_unique ends' ends
    have last : 7 * continuedBytes parcel < 64 := by
      apply below
      rw [same]
      exact List.mem_map_of_mem (List.mem_range.mpr (Nat.lt_succ_self _))
    omega
  · intro few
    refine ⟨fuel, _, ends, ?_⟩
    intro count member
    obtain ⟨i, inRange, rfl⟩ := List.mem_map.mp member
    have upTo := List.mem_range.mp inRange
    omega

/-! ## Codes -/

theorem isCanonical_iff {more : Bytes} {last : UInt8} (code : IsCode more last) :
    IsCanonical (more ++ [last]) ↔ IsShort more last ∧ codeValue more last < 2 ^ 64 := by
  constructor
  · rintro ⟨val, codeEq⟩
    have complete : val.toNat < 128 ^ (9 + 1) := Nat.lt_of_lt_of_le val.isLt (by decide)
    obtain ⟨more', last', groupsEq, -, short, valueEq⟩ :=
      WordEncodings.Base128.exists_code_of_groups complete
    have same : more ++ [last] = more' ++ [last'] := codeEq.trans groupsEq
    obtain ⟨rfl, lastEq⟩ := List.append_inj' same rfl
    obtain rfl := List.singleton_inj.mp lastEq
    exact ⟨short, valueEq ▸ val.isLt⟩
  · rintro ⟨short, below⟩
    have few : more.length < varuint64BufSize := by
      obtain rfl | nonzero := short
      · decide
      · by_contra many
        have large := Nat.le_trans (Nat.pow_le_pow_right (by decide : 0 < 128) (Nat.not_lt.mp many))
          (WordEncodings.Base128.pow_le_codeValue nonzero)
        exact absurd (Nat.lt_of_le_of_lt large below) (by decide)
    refine ⟨BitVec.ofNat 64 (codeValue more last), ?_⟩
    rw [encodeVaruint64, BitVec.toNat_ofNat, Nat.mod_eq_of_lt below]
    exact (WordEncodings.Base128.groups_codeValue code short few).symm

theorem parcelAt_good (small : bytes.length + 1 < sizeModulus) :
    Good (parcelAt beyond bytes cursor) :=
  ⟨rfl, small, rfl, fun _ member => absurd member List.not_mem_nil⟩

theorem cursor_lt_of_drop {byte : UInt8} {front rest : Bytes}
    (here : bytes.drop cursor = front ++ byte :: rest) :
    cursor + front.length < bytes.length := by
  have lengths := congrArg List.length here
  rw [List.length_drop, List.length_append, List.length_cons] at lengths
  omega

/-- A code is read inside of the bytes, and there is no error. -/
theorem parcelReadVaruint64_noError {more : Bytes} {last : UInt8} {rest : Bytes}
    (small : bytes.length + 1 < sizeModulus)
    (here : bytes.drop cursor = more ++ last :: rest) (code : IsCode more last) :
    (parcelReadVaruint64 (parcelAt beyond bytes cursor)).2.error = false := by
  have inside := cursor_lt_of_drop here
  have terminated : ¬Unterminated (parcelAt beyond bytes cursor) cursor := by
    intro unterminated
    have high := unterminated (cursor + more.length) inside (Nat.le_add_right _ _)
    have byte : (parcelAt beyond bytes cursor).byteAt (cursor + more.length) = last := by
      have found : bytes[cursor + more.length]? = some last := by
        rw [← List.getElem?_drop, here, List.getElem?_append_right (Nat.le_refl _),
          Nat.sub_self]
        rfl
      change (bytes[cursor + more.length]?).getD _ = last
      rw [found, Option.getD_some]
    rw [byte] at high
    exact absurd code.ends (Nat.not_lt.mpr high)
  have upTo : cursor ≤ bytes.length := by omega
  exact (parcelReadVaruint64_terminated (parcelAt_good small) upTo terminated).2.2

/-- The code of a number is read as this number. -/
theorem parcelReadVaruint64_canonical {val : BitVec 64} {rest : Bytes}
    (small : bytes.length + 1 < sizeModulus)
    (here : bytes.drop cursor = encodeVaruint64 val ++ rest) :
    (parcelReadVaruint64 (parcelAt beyond bytes cursor)).1 = val := by
  have complete : val.toNat < 128 ^ (9 + 1) := Nat.lt_of_lt_of_le val.isLt (by decide)
  obtain ⟨more, last, groupsEq, -⟩ := WordEncodings.Base128.exists_code_of_groups complete
  have codeEq : encodeVaruint64 val = more ++ [last] := groupsEq
  have inside : cursor + more.length < bytes.length := by
    apply @cursor_lt_of_drop _ _ last more rest
    rw [here, codeEq, List.append_assoc, List.singleton_append]
  have whole : bytes.take cursor ++ (encodeVaruint64 val ++ rest) = bytes := by
    rw [← here, List.take_append_drop]
  have length : (bytes.take cursor).length = cursor := by
    rw [List.length_take, Nat.min_eq_left (by omega)]
  have stands : At (parcelAt beyond bytes cursor) (bytes.take cursor)
      (encodeVaruint64 val ++ rest) := by
    refine ⟨whole.symm, length.symm, ?_, ?_, rfl⟩
    · rw [whole]
      rfl
    · rw [whole]
      omega
  obtain ⟨after, readEq, -⟩ := parcelReadVaruint64_at val stands
  rw [readEq]

/-- Nine bytes at most have the continuation bit, and a code that stands at the cursor has no
needless byte and a number of 64 bits. -/
def Short (beyond : Nat → UInt8) (bytes : Bytes) (cursor : Nat) : Prop :=
  continuedBytes (parcelAt beyond bytes cursor) ≤ 9 ∧
    ∀ (more : Bytes) (last : UInt8) (rest : Bytes), bytes.drop cursor = more ++ last :: rest →
      IsCode more last → IsShort more last ∧ codeValue more last < 2 ^ 64

theorem decodes_iff_short (small : bytes.length + 1 < sizeModulus) :
    Decodes beyond bytes cursor ↔ Short beyond bytes cursor := by
  have loop := @ends_iff (parcelAt beyond bytes cursor) small
  constructor
  · intro decodes
    refine ⟨loop.mp decodes.ends, ?_⟩
    intro more last rest here code
    rw [← isCanonical_iff code]
    by_contra tooLong
    have error := decodes.overlong more last rest here code tooLong
    rw [parcelReadVaruint64_noError small here code] at error
    exact Bool.false_ne_true error
  · rintro ⟨few, short⟩
    refine ⟨loop.mpr few, fun val rest here => parcelReadVaruint64_canonical small here, ?_⟩
    intro more last rest here code tooLong
    exact absurd ((isCanonical_iff code).mpr (short more last rest here code)) tooLong

/-- The code of 300. -/
theorem threeHundred_decodes :
    Decodes (fun _ => 0) [0xac, 0x02] 0 ↔ Short (fun _ => 0) [0xac, 0x02] 0 :=
  decodes_iff_short (by decide)

/-- Zero in two bytes is not an error, and eleven bytes are shifted by seventy bits. -/
theorem longCodes_not_decodes : ¬Decodes (fun _ => 0) [0x80, 0x00] 0 ∧
    ¬Decodes (fun _ => 0) (List.replicate 10 0x80) 0 := by
  constructor
  · intro decodes
    have code : IsCode [0x80] 0 := ⟨by simp, by decide⟩
    have tooLong : ¬IsCanonical ([0x80] ++ [0]) := by
      rw [isCanonical_iff code]
      decide
    have error := decodes.overlong [0x80] 0 [] rfl code tooLong
    rw [parcelReadVaruint64_noError (by decide) rfl code] at error
    exact Bool.false_ne_true error
  · intro decodes
    have small : (List.replicate 10 (0x80 : UInt8)).length + 1 < sizeModulus := by
      rw [List.length_replicate]
      decide
    have few := (ends_iff small).mp decodes.ends
    have many : continuedBytes (parcelAt (fun _ => 0) (List.replicate 10 0x80) 0) = 10 := rfl
    rw [many] at few
    exact absurd few (by decide)

end Parcel

end Fbbs
