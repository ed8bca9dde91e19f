import Fbbs.DoublingLoops
import Fbbs.Parcel
import Fbbs.PoolStrings
import Fbbs.TransitionRuns
import Fbbs.Vectors

/-!
# Sizes that are doubled

`pstring_round_size` of `src/lib/string.c`, `grow_capacity` of `src/lib/vector.c` and the loop of
`parcel_write` in `src/lib/parcel.c` double a size until it is large enough.  None of them looks
whether the next size still fits into its type, so that each goes on for ever for a request in the
upper half of it.
-/

namespace Fbbs

namespace CapacityGrowth

open DoublingLoops

/-- `pstring_round_size`, with as many rounds of its loop as there is fuel. -/
def pstringRoundSize (fuel size : Nat) : Option Nat :=
  if size = PString.fbUintMax then some PString.fbUintMax
  else PString.roundLoop size fuel (PString.pstringDefaultLen + 1)

/-- `grow_capacity`. -/
def growCapacity (fuel : Nat) (capacity : UInt32) : Option UInt32 :=
  VectorT.growLoop capacity fuel VectorT.vectorDefaultCapacity

/-- A call that changes a parcel. -/
inductive Call
  | write (data : Bytes)
  | clear

def step (alloc : Nat → Bool) (parcel : Parcel.Out) : Call → Option Parcel.Out
  | .write data => Parcel.parcelWrite alloc data parcel
  | .clear => some (Parcel.parcelClear parcel)

/-- A parcel after some calls. -/
def reached (alloc : Nat → Bool) (calls : List Call) : Option Parcel.Out :=
  TransitionRuns.run (step alloc) calls (Parcel.parcelNew alloc)

theorem pstringDefaultLen_succ : PString.pstringDefaultLen + 1 = 2 ^ 3 := rfl

theorem toNat_vectorDefaultCapacity : VectorT.vectorDefaultCapacity.toNat = 2 ^ 3 := rfl

theorem roundLoop_eq (size fuel number : Nat) :
    PString.roundLoop size fuel number = doubleWhile 32 (· < size + 1) fuel number := by
  induction fuel generalizing number with
  | zero => rfl
  | succ fuel ih =>
    rw [PString.roundLoop, doubleWhile, ih]
    exact if_congr Nat.lt_succ_iff.symm rfl rfl

theorem growLoop_eq (capacity : UInt32) (fuel : Nat) (number : UInt32) :
    (VectorT.growLoop capacity fuel number).map UInt32.toNat =
      doubleWhile 32 (· < capacity.toNat) fuel number.toNat := by
  induction fuel generalizing number with
  | zero => rfl
  | succ fuel ih =>
    have doubled : (number * 2).toNat = number.toNat * 2 % 2 ^ 32 := UInt32.toNat_mul number 2
    rw [VectorT.growLoop, doubleWhile, ← doubled, ← ih]
    by_cases further : number < capacity
    · rw [if_pos further, if_pos (UInt32.lt_iff_toNat_lt.mp further)]
    · rw [if_neg further, if_neg fun less => further (UInt32.lt_iff_toNat_lt.mpr less)]
      rfl

theorem parcelLoop_eq (newSize fuel number : Nat) :
    Parcel.growCapacity fuel number newSize = doubleWhile 64 (· < newSize) fuel number := by
  induction fuel generalizing number with
  | zero => rfl
  | succ fuel ih =>
    rw [Parcel.growCapacity, doubleWhile, ih]
    rfl

/-- The capacity of a parcel is a power of two that has not overflowed. -/
def Powered (parcel : Parcel.Out) : Prop :=
  ∃ exponent ≤ 63, parcel.capacity = 2 ^ exponent

theorem parcelReserve_powered {alloc : Nat → Bool} {parcel reserved : Parcel.Out} {newSize : Nat}
    (powered : Powered parcel)
    (reserves : Parcel.parcelReserve alloc parcel newSize = some reserved) :
    Powered reserved := by
  rw [Parcel.parcelReserve] at reserves
  split at reserves
  next less =>
    obtain ⟨exponent, upTo, capacityEq⟩ := powered
    obtain ⟨capacity, grown, rfl⟩ := Option.map_eq_some_iff.mp reserves
    rw [parcelLoop_eq, capacityEq] at grown
    have stuck : 0 < newSize := Nat.zero_lt_of_lt less
    obtain ⟨last, below, lastEq⟩ :=
      @exists_pow_of_doubleWhile 64 (· < newSize) _ exponent _ _ (Nat.lt_succ_of_le upTo) stuck
        grown
    exact ⟨last, Nat.le_of_lt_succ below, lastEq⟩
  next => exact Option.some.inj reserves ▸ powered

theorem step_powered {alloc : Nat → Bool} {parcel after : Parcel.Out} {call : Call}
    (powered : Powered parcel) (stepped : step alloc parcel call = some after) :
    Powered after := by
  cases call with
  | clear =>
    obtain rfl := Option.some.inj stepped
    exact powered
  | write data =>
    rw [step, Parcel.parcelWrite] at stepped
    split at stepped
    next => exact Option.some.inj stepped ▸ powered
    next =>
      obtain ⟨reserved, reserves, afterEq⟩ := Option.map_eq_some_iff.mp stepped
      obtain ⟨exponent, upTo, capacityEq⟩ := parcelReserve_powered powered reserves
      have same : after.capacity = reserved.capacity := by
        rw [← afterEq]
        split
        next => rfl
        next =>
          split <;> rfl
      exact ⟨exponent, upTo, same.trans capacityEq⟩

theorem reached_powered {alloc : Nat → Bool} {calls : List Call} {parcel : Parcel.Out}
    (reaches : reached alloc calls = some parcel) : Powered parcel := by
  have guarded : TransitionRuns.Guarded (step alloc) (fun _ _ => True) calls
      (Parcel.parcelNew alloc) := TransitionRuns.guarded_of_forall (fun _ _ => trivial) _
  have fresh : Powered (Parcel.parcelNew alloc) := ⟨12, by decide, rfl⟩
  exact TransitionRuns.invariant_of_guarded Powered
    (fun _ _ _ powered _ stepped => step_powered powered stepped) fresh guarded reaches

/-- `pstring_round_size` ends with room for the request. -/
def Rounds (size : Nat) : Prop :=
  ∃ fuel rounded, pstringRoundSize fuel size = some rounded ∧ size ≤ rounded

/-- So does `grow_capacity`. -/
def Grows (capacity : UInt32) : Prop :=
  ∃ fuel grown, growCapacity fuel capacity = some grown ∧ capacity ≤ grown

/-- So does the loop of `parcel_write`. -/
def MakesRoom (parcel : Parcel.Out) (newSize : Nat) : Prop :=
  ∃ fuel capacity, Parcel.growCapacity fuel parcel.capacity newSize = some capacity ∧
    newSize ≤ capacity

theorem rounds_iff (size : Nat) : Rounds size ↔ size < 2 ^ 31 ∨ size = PString.fbUintMax := by
  unfold Rounds pstringRoundSize
  by_cases most : size = PString.fbUintMax
  · apply iff_of_true _ (.inr most)
    exact ⟨0, PString.fbUintMax, if_pos most, Nat.le_of_eq most⟩
  · have loop := @exists_doubleWhile_lt_iff 3 31 (size + 1) (by decide)
    rw [or_iff_left most, ← Nat.succ_le_iff, Nat.succ_eq_add_one, ← loop]
    simp only [if_neg most, pstringDefaultLen_succ, roundLoop_eq]
    constructor
    · rintro ⟨fuel, rounded, ends, -⟩
      exact ⟨fuel, rounded, ends⟩
    · rintro ⟨fuel, rounded, ends⟩
      exact ⟨fuel, rounded, ends, Nat.le_of_succ_le (le_of_doubleWhile ends)⟩

theorem growsCapacity_iff (capacity : UInt32) : Grows capacity ↔ capacity ≤ 2147483648 := by
  have loop := @exists_doubleWhile_lt_iff 3 31 capacity.toNat (by decide)
  have same := fun fuel => growLoop_eq capacity fuel VectorT.vectorDefaultCapacity
  rw [toNat_vectorDefaultCapacity] at same
  have upTo : capacity ≤ 2147483648 ↔ capacity.toNat ≤ 2 ^ 31 := UInt32.le_iff_toNat_le
  rw [upTo, ← loop]
  constructor
  · rintro ⟨fuel, grown, ends, -⟩
    refine ⟨fuel, grown.toNat, ?_⟩
    rw [← same, ← growCapacity, ends, Option.map_some]
  · rintro ⟨fuel, result, ends⟩
    have enough := le_of_doubleWhile ends
    rw [← same, Option.map_eq_some_iff] at ends
    obtain ⟨grown, grownEq, rfl⟩ := ends
    exact ⟨fuel, grown, grownEq, UInt32.le_iff_toNat_le.mpr enough⟩

theorem makesRoom_iff {parcel : Parcel.Out} (powered : Powered parcel) (newSize : Nat) :
    MakesRoom parcel newSize ↔ newSize ≤ 2 ^ 63 := by
  obtain ⟨exponent, upTo, capacityEq⟩ := powered
  unfold MakesRoom
  simp only [parcelLoop_eq, capacityEq]
  rw [← exists_doubleWhile_lt_iff upTo]
  constructor
  · rintro ⟨fuel, capacity, ends, -⟩
    exact ⟨fuel, capacity, ends⟩
  · rintro ⟨fuel, capacity, ends⟩
    exact ⟨fuel, capacity, ends, le_of_doubleWhile ends⟩

/-- Each loop ends, with room for the request, exactly if that is in the lower half of its type;
`pstring_round_size` looks at the largest number first. -/
theorem growth_ends_iff (size : Nat) (capacity : UInt32) (alloc : Nat → Bool) (calls : List Call)
    (parcel : Parcel.Out) (newSize : Nat) (reaches : reached alloc calls = some parcel) :
    (Rounds size ↔ size < 2 ^ 31 ∨ size = PString.fbUintMax) ∧
      (Grows capacity ↔ capacity ≤ 2147483648) ∧
      (MakesRoom parcel newSize ↔ newSize ≤ 2 ^ 63) :=
  ⟨rounds_iff size, growsCapacity_iff capacity,
    makesRoom_iff (reached_powered reaches) newSize⟩

theorem small_requests : (Rounds 100 ↔ 100 < 2 ^ 31 ∨ 100 = PString.fbUintMax) ∧
    (Grows 100 ↔ (100 : UInt32) ≤ 2147483648) ∧
    (MakesRoom (Parcel.parcelNew fun _ => true) 5000 ↔ 5000 ≤ 2 ^ 63) :=
  growth_ends_iff 100 100 (fun _ => true) [] _ 5000 rfl

/-- The loops do not end for requests above a half of the range. -/
theorem large_requests : ¬Rounds 2147483648 ∧ ¬Grows 2147483649 ∧
    ¬MakesRoom (Parcel.parcelNew fun _ => true) 9223372036854775809 := by
  have fresh : Powered (Parcel.parcelNew fun _ => true) := ⟨12, by decide, rfl⟩
  refine ⟨?_, ?_, ?_⟩
  · rw [rounds_iff]
    decide
  · rw [growsCapacity_iff]
    decide
  · rw [makesRoom_iff fresh]
    decide

end CapacityGrowth

end Fbbs
