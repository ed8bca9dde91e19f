import Mathlib.Data.Nat.Bitwise
import Mathlib.Data.List.Basic
import Mathlib.Tactic.Ring

/-!
# Byte encodings of machine words

Three encodings that wire formats combine: base-128 groups with a continuation
bit, the zigzag map from signed to unsigned words, and fixed-width
little-endian bytes.  Everything here is stated for arbitrary values and
widths; nothing refers to a particular message format.
-/

namespace WordEncodings

namespace Base128

/-- The base-128 groups of `value`, least significant first.  Every group but
the last carries the continuation bit.  At most `fuel` bytes are produced. -/
def groups : Nat → Nat → List UInt8
  | 0, _ => []
  | fuel + 1, value =>
    if value < 128 then [UInt8.ofNat value]
    else UInt8.ofNat (value % 128 + 128) :: groups fuel (value / 128)

theorem groups_length_le (fuel value : Nat) :
    (groups fuel value).length ≤ fuel := by
  induction fuel generalizing value with
  | zero => simp [groups]
  | succ fuel ih =>
    rw [groups]
    split
    · simp
    · simpa using ih (value / 128)

theorem and_mask (value : Nat) : value &&& 0x7f = value % 128 := by
  rw [show (0x7f : Nat) = 2 ^ 7 - 1 from rfl, Nat.and_two_pow_sub_one_eq_mod]

theorem or_continuation {group : Nat} (small : group < 128) :
    group ||| 0x80 = group + 128 := by
  have disjoint := Nat.two_pow_add_eq_or_of_lt (i := 7) (b := group) small 1
  rw [Nat.or_comm, Nat.add_comm]
  simpa using disjoint.symm

theorem shiftRight_seven (value : Nat) : value >>> 7 = value / 128 :=
  Nat.shiftRight_eq_div_pow value 7

section Positions

variable (number offset : Nat)

theorem two_pow_add_seven : 2 ^ (offset + 7) = 128 * 2 ^ offset := by
  rw [pow_add]
  omega

/-- A number at a bit position is its lowest group there and the rest seven bits
higher. -/
theorem mod_add_div_shifted :
    number % 128 * 2 ^ offset + number / 128 * 2 ^ (offset + 7) =
      number * 2 ^ offset := by
  rw [two_pow_add_seven]
  conv_rhs => rw [← Nat.mod_add_div number 128]
  ring

variable {number offset}

theorem group_lt_of_lt {bound : Nat} (fits : number * 2 ^ offset < bound) :
    number % 128 * 2 ^ offset < bound := by
  have split := mod_add_div_shifted number offset
  omega

theorem rest_lt_of_lt {bound : Nat} (fits : number * 2 ^ offset < bound) :
    number / 128 * 2 ^ (offset + 7) < bound := by
  have split := mod_add_div_shifted number offset
  omega

theorem position_lt_of_rest {width : Nat} (rest : 1 ≤ number / 128)
    (fits : number * 2 ^ offset < 2 ^ width) : offset + 7 < width := by
  have atLeast : 2 ^ (offset + 7) ≤ number / 128 * 2 ^ (offset + 7) :=
    Nat.le_mul_of_pos_left _ rest
  exact (Nat.pow_lt_pow_iff_right (by omega)).mp
    (lt_of_le_of_lt atLeast (rest_lt_of_lt fits))

theorem add_group_lt {val : Nat} (low : val < 2 ^ offset) :
    val + number % 128 * 2 ^ offset < 2 ^ (offset + 7) := by
  have groupLe : number % 128 * 2 ^ offset ≤ 127 * 2 ^ offset :=
    Nat.mul_le_mul_right _ (by omega)
  rw [two_pow_add_seven]
  omega

end Positions

/-- Testing the continuation bit of a byte is comparing with 128. -/
theorem continuation_bit {byte : Nat} (small : byte < 256) :
    byte &&& 0x80 ≠ 0 ↔ 128 ≤ byte := by
  have asBit : byte &&& 0x80 = (byte.testBit 7).toNat * 2 ^ 7 := by
    have power := Nat.and_two_pow byte 7
    simpa using power
  rw [asBit, Nat.testBit_eq_decide_div_mod_eq]
  constructor
  · intro set
    by_contra below
    apply set
    have clear : ¬ byte / 2 ^ 7 % 2 = 1 := by omega
    rw [decide_eq_false clear]
    rfl
  · intro above
    have set : byte / 2 ^ 7 % 2 = 1 := by omega
    rw [decide_eq_true set]
    decide

/-- Adding a group above the bits read so far. -/
theorem or_shiftLeft {value offset : Nat} (low : value < 2 ^ offset)
    (group : Nat) : value ||| group <<< offset = value + group * 2 ^ offset := by
  rw [Nat.shiftLeft_eq, Nat.or_comm, Nat.mul_comm group,
    ← Nat.two_pow_add_eq_or_of_lt low, Nat.add_comm]

end Base128

namespace ZigZag

/-- `(x << 1) ^ (x >> (width - 1))` with an arithmetic right shift. -/
def encode {width : Nat} (word : BitVec width) : BitVec width :=
  (word <<< 1) ^^^ word.sshiftRight (width - 1)

/-- `(v >> 1) ^ -(v & 1)`. -/
def decode {width : Nat} (code : BitVec width) : BitVec width :=
  (code >>> 1) ^^^ -(code &&& BitVec.ofNat width 1)

theorem sign_fill {width : Nat} (word : BitVec width) (index : Nat)
    (indexLt : index < width) :
    (word.sshiftRight (width - 1)).getLsbD index = word.msb := by
  rw [BitVec.getLsbD_sshiftRight]
  by_cases zero : index = 0
  · subst zero
    simp [show ¬ width ≤ 0 by omega, show width - 1 < width by omega, BitVec.msb_eq_getLsbD_last]
  · simp [show ¬ width ≤ index by omega, show ¬ width - 1 + index < width by omega]

theorem getLsbD_encode {width : Nat} (word : BitVec width) (index : Nat)
    (indexLt : index < width) :
    (encode word).getLsbD index =
      ((decide (1 ≤ index) && word.getLsbD (index - 1)) ^^ word.msb) := by
  rw [encode, BitVec.getLsbD_xor, sign_fill word index indexLt,
    BitVec.getLsbD_shiftLeft]
  by_cases zero : index = 0
  · simp [zero]
  · simp [zero, indexLt]
    omega

theorem neg_and_one {width : Nat} (code : BitVec width) (index : Nat)
    (indexLt : index < width) :
    (-(code &&& BitVec.ofNat width 1)).getLsbD index = code.getLsbD 0 := by
  have widthPos : 0 < width := by omega
  cases low : code.getLsbD 0 with
  | false =>
    have masked : code &&& BitVec.ofNat width 1 = BitVec.ofNat width 0 := by
      apply BitVec.eq_of_getLsbD_eq
      intro position positionLt
      by_cases zero : position = 0
      · subst zero
        simp [low]
      · simp [BitVec.getLsbD_one, zero]
    simp [masked]
  | true =>
    have masked : code &&& BitVec.ofNat width 1 = BitVec.ofNat width 1 := by
      apply BitVec.eq_of_getLsbD_eq
      intro position positionLt
      by_cases zero : position = 0
      · subst zero
        simp [low]
      · simp [BitVec.getLsbD_one, zero]
    rw [masked, BitVec.neg_one_eq_allOnes]
    simp [indexLt]

theorem getLsbD_decode {width : Nat} (code : BitVec width) (index : Nat)
    (indexLt : index < width) :
    (decode code).getLsbD index =
      (code.getLsbD (1 + index) ^^ code.getLsbD 0) := by
  rw [decode, BitVec.getLsbD_xor, neg_and_one code index indexLt,
    BitVec.getLsbD_ushiftRight]

/-- Decoding in a register at least as wide as the encoder's, then truncating,
recovers the word. -/
theorem decode_encode {narrow wide : Nat} (fits : narrow ≤ wide)
    (word : BitVec narrow) :
    (decode ((encode word).setWidth wide)).setWidth narrow = word := by
  apply BitVec.eq_of_getLsbD_eq
  intro index indexLt
  have zeroBit : (encode word).getLsbD 0 = word.msb := by
    simpa using getLsbD_encode word 0 (by omega)
  rw [BitVec.getLsbD_setWidth, getLsbD_decode _ _ (by omega),
    BitVec.getLsbD_setWidth, BitVec.getLsbD_setWidth, zeroBit]
  by_cases last : 1 + index < narrow
  · rw [getLsbD_encode word (1 + index) last]
    simp [indexLt, show 1 + index < wide by omega, show 0 < wide by omega]
  · have beyond : (encode word).getLsbD (1 + index) = false :=
      BitVec.getLsbD_of_ge _ _ (by omega)
    have topBit : word.msb = word.getLsbD index := by
      rw [BitVec.msb_eq_getLsbD_last, show narrow - 1 = index by omega]
    simp [indexLt, beyond, show 0 < wide by omega, topBit]

end ZigZag

namespace LittleEndian

/-- The low `count` bytes of `value`, least significant first. -/
def bytes (count value : Nat) : List UInt8 :=
  match count with
  | 0 => []
  | count + 1 => UInt8.ofNat (value % 256) :: bytes count (value / 256)

/-- The number whose bytes, least significant first, are given. -/
def value : List UInt8 → Nat
  | [] => 0
  | byte :: rest => byte.toNat + 256 * value rest

@[simp]
theorem bytes_length (count number : Nat) : (bytes count number).length = count := by
  induction count generalizing number with
  | zero => rfl
  | succ count ih => simp [bytes, ih]

theorem value_bytes (count number : Nat) :
    value (bytes count number) = number % 256 ^ count := by
  induction count generalizing number with
  | zero => simp [bytes, value, Nat.mod_one]
  | succ count ih =>
    rw [bytes, value, ih, pow_succ', Nat.mod_mul]
    simp

theorem value_bytes_of_lt {count number : Nat} (fits : number < 256 ^ count) :
    value (bytes count number) = number := by
  rw [value_bytes, Nat.mod_eq_of_lt fits]

theorem emod_mul_ediv (value period : Int) :
    value % (256 * period) / 256 = value / 256 % period := by
  have split : value % (256 * period) =
      value + 256 * -(period * (value / (256 * period))) := by
    rw [Int.emod_def]
    ring
  rw [split, Int.add_mul_ediv_left _ _ (by decide), Int.emod_def,
    Int.ediv_ediv_of_nonneg (by decide), Int.sub_eq_add_neg]

/-- A byte of a number in two's complement stands for a power of 256. -/
theorem bytes_eq_of_emod {count number : Nat} {value : Int}
    (same : (number : Int) = value % 256 ^ count) :
    bytes count number =
      (List.range count).map fun place => UInt8.ofInt (value / 256 ^ place) := by
  induction count generalizing number value with
  | zero => rfl
  | succ count ih =>
    rw [pow_succ'] at same
    have low : (number : Int) % 256 = value % 256 := by
      rw [same]
      exact Int.emod_emod_of_dvd _ (Int.dvd_mul_right _ _)
    have high : ((number / 256 : Nat) : Int) = value / 256 % 256 ^ count := by
      rw [Int.natCast_ediv, same]
      exact emod_mul_ediv value _
    have lowByte : UInt8.ofNat (number % 256) = UInt8.ofInt (value / 256 ^ 0) := by
      rw [pow_zero, Int.ediv_one, UInt8.ofInt]
      congr 1
      omega
    rw [bytes, ih high, lowByte, List.range_succ_eq_map, List.map_cons, List.map_map]
    congr 2
    funext place
    rw [Function.comp, pow_succ', Int.ediv_ediv_of_nonneg (by decide)]

end LittleEndian

end WordEncodings
