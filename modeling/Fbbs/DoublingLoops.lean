import Mathlib.Algebra.Group.Nat.Defs
import Mathlib.Data.Nat.Init
import Mathlib.Tactic.ByContra

/-!
# Loops that double a machine number

A number of a fixed width that is doubled while it is too small.  A power of two that is doubled
often enough is zero, and zero stays zero.
-/

namespace DoublingLoops

/-- Double a number while it is small; there is no result if that goes on for too long. -/
def doubleWhile (width : Nat) (small : Nat → Prop) [DecidablePred small] : Nat → Nat → Option Nat
  | 0, _ => none
  | fuel + 1, number =>
    if small number then doubleWhile width small fuel (number * 2 % 2 ^ width) else some number

variable {width : Nat} {small : Nat → Prop} [DecidablePred small]

theorem not_small_of_doubleWhile {fuel number result : Nat}
    (ends : doubleWhile width small fuel number = some result) : ¬small result := by
  induction fuel generalizing number with
  | zero => cases ends
  | succ fuel ih =>
    rw [doubleWhile] at ends
    split at ends
    next => exact ih ends
    next large => exact Option.some.inj ends ▸ large

theorem doubleWhile_zero (stuck : small 0) (fuel : Nat) :
    doubleWhile width small fuel 0 = none := by
  induction fuel with
  | zero => rfl
  | succ fuel ih => rw [doubleWhile, if_pos stuck, Nat.zero_mul, Nat.zero_mod, ih]

theorem double_pow {exponent : Nat} (inside : exponent + 1 < width) :
    2 ^ exponent * 2 % 2 ^ width = 2 ^ (exponent + 1) := by
  rw [← Nat.pow_succ]
  exact Nat.mod_eq_of_lt (Nat.pow_lt_pow_right Nat.one_lt_two inside)

theorem double_last (exponent : Nat) : 2 ^ exponent * 2 % 2 ^ (exponent + 1) = 0 := by
  rw [← Nat.pow_succ, Nat.mod_self]

/-- The loop ends if one of the powers is large. -/
theorem exists_doubleWhile {exponent last : Nat} (upTo : exponent ≤ last) (inside : last < width)
    (large : ¬small (2 ^ last)) :
    ∃ fuel result, doubleWhile width small fuel (2 ^ exponent) = some result := by
  induction upTo using Nat.decreasingInduction with
  | self => exact ⟨1, 2 ^ last, by rw [doubleWhile, if_neg large]⟩
  | of_succ exponent before ih =>
    by_cases further : small (2 ^ exponent)
    · obtain ⟨fuel, result, ends⟩ := ih
      refine ⟨fuel + 1, result, ?_⟩
      rw [doubleWhile, if_pos further, double_pow (by omega), ends]
    · exact ⟨1, 2 ^ exponent, by rw [doubleWhile, if_neg further]⟩

/-- The loop goes on for ever if all powers are small, and zero too. -/
theorem doubleWhile_pow_eq_none {exponent : Nat} (inside : exponent < width)
    (allSmall : ∀ k < width, small (2 ^ k)) (stuck : small 0) (fuel : Nat) :
    doubleWhile width small fuel (2 ^ exponent) = none := by
  induction fuel generalizing exponent with
  | zero => rfl
  | succ fuel ih =>
    rw [doubleWhile, if_pos (allSmall exponent inside)]
    by_cases further : exponent + 1 < width
    · rw [double_pow further, ih further]
    · obtain rfl : width = exponent + 1 := by omega
      rw [double_last, doubleWhile_zero stuck]

/-- What is doubled is a power of two at the end. -/
theorem exists_pow_of_doubleWhile {exponent fuel number : Nat} (inside : exponent < width) (stuck : small 0)
    (ends : doubleWhile width small fuel (2 ^ exponent) = some number) :
    ∃ last < width, number = 2 ^ last := by
  induction fuel generalizing exponent with
  | zero => cases ends
  | succ fuel ih =>
    rw [doubleWhile] at ends
    split at ends
    next =>
      by_cases further : exponent + 1 < width
      · rw [double_pow further] at ends
        exact ih further ends
      · obtain rfl : width = exponent + 1 := by omega
        rw [double_last, doubleWhile_zero stuck] at ends
        cases ends
    next => exact ⟨exponent, inside, (Option.some.inj ends).symm⟩

theorem le_of_doubleWhile {request fuel number result : Nat}
    (ends : doubleWhile width (· < request) fuel number = some result) : request ≤ result := by
  have large := @not_small_of_doubleWhile width (· < request) _ _ _ _ ends
  exact Nat.le_of_not_lt large

/-- A power of two is doubled up to a number exactly if that is not above the largest power. -/
theorem exists_doubleWhile_lt_iff {exponent bits request : Nat} (inside : exponent ≤ bits) :
    (∃ fuel result, doubleWhile (bits + 1) (· < request) fuel (2 ^ exponent) = some result) ↔
      request ≤ 2 ^ bits := by
  constructor
  · rintro ⟨fuel, result, ends⟩
    by_contra notUpTo
    have above : 2 ^ bits < request := Nat.lt_of_not_le notUpTo
    have powers : ∀ k < bits + 1, 2 ^ k < request := fun k below =>
      Nat.lt_of_le_of_lt (Nat.pow_le_pow_right Nat.two_pos (Nat.le_of_lt_succ below)) above
    have positive : 0 < request := Nat.zero_lt_of_lt above
    have endless := @doubleWhile_pow_eq_none (bits + 1) (· < request) _ exponent
      (Nat.lt_succ_of_le inside) powers positive fuel
    rw [endless] at ends
    cases ends
  · intro upTo
    exact @exists_doubleWhile (bits + 1) (· < request) _ exponent bits inside
      (Nat.lt_succ_self _) (Nat.not_lt.mpr upTo)

end DoublingLoops
