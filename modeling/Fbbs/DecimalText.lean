import Mathlib.Algebra.Group.Nat.Defs
import Mathlib.Data.List.Basic
import Mathlib.Data.List.Induction

/-!
# Decimal numbers as bytes

Numbers as `printf` writes them, the value of a string of digits, and the blanks and the
hexadecimal digits of markup.
-/

namespace DecimalText

def digits (n : Nat) : List UInt8 :=
  (Nat.toDigits 10 n).map Char.toUInt8

def isDigit (byte : UInt8) : Bool :=
  48 ≤ byte && byte ≤ 57

/-- The value of digits, with leading zeros or without. -/
def value (bytes : List UInt8) : Nat :=
  bytes.foldl (fun sum byte => 10 * sum + (byte.toNat - 48)) 0

/-- A signed number, as `%d` prints it. -/
def ofInt (number : Int) : List UInt8 :=
  (if number < 0 then [45] else []) ++ digits number.natAbs

/-- A number behind zeros, as `%0<width>d` prints it. -/
def zeroPadded (width : Nat) (number : Int) : List UInt8 :=
  let sign : List UInt8 := if number < 0 then [45] else []
  let digits := digits number.natAbs
  sign ++ List.replicate (width - sign.length - digits.length) 48 ++ digits

/-- A number behind blanks, as `%<width>d` prints it. -/
def spacePadded (width : Nat) (number : Int) : List UInt8 :=
  List.replicate (width - (ofInt number).length) 32 ++ ofInt number

/-- The value of a hexadecimal digit. -/
def hexValue (c : UInt8) : Option Nat :=
  if 48 ≤ c && c ≤ 57 then some (c.toNat - 48)
  else if 97 ≤ c && c ≤ 102 then some (c.toNat - 87)
  else if 65 ≤ c && c ≤ 70 then some (c.toNat - 55)
  else none

def isSpace (c : UInt8) : Bool :=
  c == 32 || c == 9 || c == 10 || c == 13

def skipSpace (text : List UInt8) : List UInt8 :=
  text.dropWhile isSpace

theorem digits_ne_nil (n : Nat) : digits n ≠ [] := by
  simp [digits]

/-- The bytes of the digits are their characters. -/
theorem toNat_of_mem_toDigits {n : Nat} {c : Char} (member : c ∈ Nat.toDigits 10 n) :
    48 ≤ c.toNat ∧ c.toNat ≤ 57 ∧ c.toUInt8.toNat = c.toNat := by
  have isDigit := Nat.isDigit_of_mem_toDigits (by decide) (by decide) member
  rw [Char.isDigit, Bool.and_eq_true, decide_eq_true_eq, decide_eq_true_eq] at isDigit
  have high : c.toNat ≤ 57 := isDigit.2
  refine ⟨isDigit.1, high, ?_⟩
  rw [Char.toUInt8, UInt32.toNat_toUInt8]
  exact Nat.mod_eq_of_lt (by change c.toNat < 256; omega)

theorem isDigit_of_mem_digits {n : Nat} {byte : UInt8} (member : byte ∈ digits n) :
    isDigit byte = true := by
  obtain ⟨c, inDigits, rfl⟩ := List.mem_map.mp member
  obtain ⟨low, high, toNat⟩ := toNat_of_mem_toDigits inDigits
  rw [isDigit, Bool.and_eq_true, decide_eq_true_eq, decide_eq_true_eq,
    UInt8.le_iff_toNat_le, UInt8.le_iff_toNat_le, toNat]
  exact ⟨low, high⟩

theorem value_digits (n : Nat) : value (digits n) = n := by
  rw [value, digits, List.foldl_map]
  have same : (Nat.toDigits 10 n).foldl
      (fun sum c => 10 * sum + (c.toUInt8.toNat - 48)) 0 =
      (Nat.toDigits 10 n).foldl (fun sum c => 10 * sum + (c.toNat - '0'.toNat)) 0 := by
    apply List.foldl_ext
    intro sum c member
    rw [(toNat_of_mem_toDigits member).2.2]
    rfl
  rw [same]
  exact Nat.ofDigitChars_ten_toDigits

theorem value_replicate_append (count : Nat) (bytes : List UInt8) :
    value (List.replicate count 48 ++ bytes) = value bytes := by
  induction count with
  | zero => rfl
  | succ count ih => exact ih

theorem length_digits_le {n : Nat} (count : Nat) (positive : 0 < count)
    (small : n < 10 ^ count) :
    (digits n).length ≤ count := by
  rw [digits, List.length_map]
  exact (Nat.length_toDigits_le_iff (by decide) positive).mpr small

theorem value_lt_pow {bytes : List UInt8} (digit : ∀ byte ∈ bytes, isDigit byte = true) :
    value bytes < 10 ^ bytes.length := by
  induction bytes using List.reverseRecOn with
  | nil => exact Nat.one_pos
  | append_singleton bytes byte ih =>
    rw [List.forall_mem_append, List.forall_mem_singleton] at digit
    have small : byte.toNat ≤ 57 := by
      have bounds := digit.2
      simp only [isDigit, Bool.and_eq_true, decide_eq_true_eq, UInt8.le_iff_toNat_le] at bounds
      exact bounds.2
    have less := ih digit.1
    rw [value, List.foldl_append, List.length_append, List.length_singleton, Nat.pow_succ]
    rw [value] at less
    simp only [List.foldl_cons, List.foldl_nil]
    omega

/-- Only the number zero starts with a zero. -/
theorem length_digits_of_head? {n : Nat} (zero : (digits n).head? = some 48) :
    (digits n).length = 1 := by
  obtain ⟨more, split⟩ := List.head?_eq_some_iff.mp zero
  by_contra long
  have nonempty : 0 < more.length := by
    rw [split, List.length_cons] at long
    omega
  have digit : ∀ byte ∈ more, isDigit byte = true := by
    intro byte member
    exact isDigit_of_mem_digits (n := n) (by rw [split]; exact List.mem_cons_of_mem 48 member)
  have small : n < 10 ^ more.length := by
    rw [← value_digits n, split]
    exact value_lt_pow digit
  have length := length_digits_le more.length nonempty small
  rw [split, List.length_cons] at length
  omega

def isNumberByte (byte : UInt8) : Bool :=
  isDigit byte || byte == 45 || byte == 32

theorem isNumberByte_of_mem_digits {n : Nat} {byte : UInt8} (member : byte ∈ digits n) :
    isNumberByte byte = true := by
  rw [isNumberByte, isDigit_of_mem_digits member]
  rfl

theorem isNumberByte_of_mem_ofInt {number : Int} {byte : UInt8} (member : byte ∈ ofInt number) :
    isNumberByte byte = true := by
  rw [ofInt, List.mem_append] at member
  rcases member with sign | digit
  · split at sign
    · rw [List.mem_singleton.mp sign]
      rfl
    · cases sign
  · exact isNumberByte_of_mem_digits digit

theorem isNumberByte_of_mem_zeroPadded {width : Nat} {number : Int} {byte : UInt8}
    (member : byte ∈ zeroPadded width number) : isNumberByte byte = true := by
  simp only [zeroPadded, List.mem_append] at member
  rcases member with (sign | zero) | digit
  · split at sign
    · rw [List.mem_singleton.mp sign]
      rfl
    · cases sign
  · rw [List.eq_of_mem_replicate zero]
    rfl
  · exact isNumberByte_of_mem_digits digit

theorem isNumberByte_of_mem_spacePadded {width : Nat} {number : Int} {byte : UInt8}
    (member : byte ∈ spacePadded width number) : isNumberByte byte = true := by
  rw [spacePadded, List.mem_append] at member
  rcases member with blank | digit
  · rw [List.eq_of_mem_replicate blank]
    rfl
  · exact isNumberByte_of_mem_ofInt digit

theorem skipSpace_cons {c : UInt8} (visible : isSpace c = false) (rest : List UInt8) :
    skipSpace (c :: rest) = c :: rest := by
  simp [skipSpace, visible]

end DecimalText
