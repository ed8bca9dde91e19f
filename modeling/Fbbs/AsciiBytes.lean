import Mathlib.Data.Nat.Bitwise
import Mathlib.Data.List.Basic

/-!
# Bytes of ASCII and others

The functions of C that tell letters from other bytes and compare them without their case, in
the locale that a program starts with.
-/

namespace AsciiBytes

/-- A byte that is none of ASCII. -/
def isHigh (c : UInt8) : Bool :=
  c &&& 128 != 0

def isspace (c : UInt8) : Bool :=
  c == 32 || (9 ≤ c && c ≤ 13)

def tolower (c : UInt8) : UInt8 :=
  if 65 ≤ c ∧ c ≤ 90 then c + 32 else c

/-- The difference of the first letters that are not the same. -/
def strcasecmp : List UInt8 → List UInt8 → Int
  | [], [] => 0
  | [], y :: _ => -(tolower y).toNat
  | x :: _, [] => (tolower x).toNat
  | x :: xs, y :: ys =>
    if tolower x = tolower y then strcasecmp xs ys
    else (tolower x).toNat - (tolower y).toNat

theorem and_0x80 (c : UInt8) : c &&& 0x80 ≠ 0 ↔ 0x80 ≤ c := by
  have small := c.toNat_lt
  have bit : c.toNat &&& 128 = (c.toNat.testBit 7).toNat * 128 := Nat.and_two_pow c.toNat 7
  have high : c.toNat.testBit 7 = decide (128 ≤ c.toNat) := by
    rw [Nat.testBit_eq_decide_div_mod_eq, decide_eq_decide]
    omega
  rw [UInt8.le_iff_toNat_le, Ne, ← UInt8.toNat_inj, UInt8.toNat_and]
  change ¬c.toNat &&& 128 = 0 ↔ 128 ≤ c.toNat
  rw [bit, high]
  by_cases above : 128 ≤ c.toNat <;> simp [above]

theorem and_0x80_of_lt {c : UInt8} (low : c < 0x80) : c &&& 0x80 = 0 := by
  by_contra high
  exact absurd low (UInt8.not_lt.mpr ((and_0x80 c).mp high))

theorem isHigh_iff {c : UInt8} : isHigh c = true ↔ 128 ≤ c := by
  rw [isHigh, bne_iff_ne]
  exact and_0x80 c

theorem toNat_tolower_of_upper {c : UInt8} (upper : 65 ≤ c ∧ c ≤ 90) :
    (tolower c).toNat = c.toNat + 32 := by
  rw [tolower, if_pos upper, UInt8.toNat_add]
  simp only [UInt8.le_iff_toNat_le, UInt8.reduceToNat] at *
  omega

theorem lower_tolower_of_upper {c : UInt8} (upper : 65 ≤ c ∧ c ≤ 90) :
    (97 ≤ tolower c ∧ tolower c ≤ 122) ∧ ¬(97 ≤ c ∧ c ≤ 122) := by
  have shift := toNat_tolower_of_upper upper
  simp only [UInt8.le_iff_toNat_le, UInt8.reduceToNat] at *
  omega

theorem tolower_low {c : UInt8} (low : c < 128) : tolower c < 128 := by
  by_cases upper : 65 ≤ c ∧ c ≤ 90
  · have shift := toNat_tolower_of_upper upper
    simp only [UInt8.le_iff_toNat_le, UInt8.lt_iff_toNat_lt, UInt8.reduceToNat] at *
    omega
  · rwa [tolower, if_neg upper]

theorem tolower_high {c : UInt8} (high : 128 ≤ c) : tolower c = c := by
  rw [tolower, if_neg]
  simp only [UInt8.le_iff_toNat_le, UInt8.reduceToNat] at *
  omega

theorem strcasecmp_self (text : List UInt8) : strcasecmp text text = 0 := by
  induction text with
  | nil => rfl
  | cons x xs ih => rw [strcasecmp, if_pos rfl, ih]

/-- Either text may be the first one. -/
theorem strcasecmp_comm (left right : List UInt8) :
    strcasecmp left right = -strcasecmp right left := by
  induction left generalizing right with
  | nil => cases right <;> simp [strcasecmp]
  | cons x xs ih =>
    cases right with
    | nil => simp [strcasecmp]
    | cons y ys =>
      simp only [strcasecmp, @eq_comm _ (tolower y), ih ys]
      split
      · rfl
      · omega

end AsciiBytes
