import Mathlib.Algebra.Order.BigOperators.Group.List
import Mathlib.Algebra.Order.Group.Nat
import Mathlib.Tactic.ByContra

/-!
# Cutting a range into parts

The numbers up to `max` are cut into parts of about the same size.  The part of a number can be
found by dividing, or from the first and the last number of each part; both agree but for the
numbers between two multiples.
-/

namespace RangeParts

/-- The part of a number, by division. -/
def index (parts max value : Nat) : Nat :=
  value * parts / (max + 1)

/-- The first number of a part. -/
def lower (parts max part : Nat) : Nat :=
  part * max / parts + if part = 0 then 0 else 1

/-- The last number of a part. -/
def upper (parts max part : Nat) : Nat :=
  (part + 1) * max / parts

/-- The part that a number lies in. -/
def part (parts max value : Nat) : Nat :=
  (value * parts - 1) / max

variable {parts max value : Nat}

theorem index_lt (within : value ≤ max) (parts_pos : 0 < parts) : index parts max value < parts := by
  apply Nat.div_lt_of_lt_mul
  calc
    value * parts < (max + 1) * parts :=
      Nat.mul_lt_mul_of_pos_right (Nat.lt_succ_of_le within) parts_pos

theorem part_lt (max_pos : 0 < max) (within : value ≤ max) (parts_pos : 0 < parts) :
    part parts max value < parts := by
  have most : value * parts ≤ max * parts := Nat.mul_le_mul_right parts within
  have pos : 0 < max * parts := Nat.mul_pos max_pos parts_pos
  apply Nat.div_lt_of_lt_mul
  omega

theorem lower_le_iff (parts_pos : 0 < parts) (i : Nat) :
    lower parts max i ≤ value ↔ i = 0 ∨ i * max < value * parts := by
  rw [lower]
  by_cases first : i = 0
  · rw [if_pos first, first, Nat.zero_mul, Nat.zero_div]
    exact iff_of_true (Nat.zero_le value) (Or.inl rfl)
  · rw [if_neg first, or_iff_right first, Nat.succ_le_iff, Nat.div_lt_iff_lt_mul parts_pos]

/-- A number is between the limits of exactly one part. -/
theorem mem_part_iff (max_pos : 0 < max) (parts_pos : 0 < parts) (i : Nat) :
    lower parts max i ≤ value ∧ value ≤ upper parts max i ↔ part parts max value = i := by
  have next : (i + 1) * max = i * max + max := Nat.succ_mul i max
  have between : part parts max value = i ↔
      i * max ≤ value * parts - 1 ∧ value * parts - 1 < (i + 1) * max := by
    rw [part, Nat.div_eq_iff max_pos, next]
    omega
  rw [lower_le_iff parts_pos, upper, Nat.le_div_iff_mul_le parts_pos, between, next]
  by_cases first : i = 0
  · rw [first, Nat.zero_mul]
    omega
  · have more : max ≤ i * max := Nat.le_mul_of_pos_left max (Nat.pos_of_ne_zero first)
    omega

/-- Division never finds a later part than the one a number lies in. -/
theorem index_le_part (max_pos : 0 < max) : index parts max value ≤ part parts max value := by
  rw [part, Nat.le_div_iff_mul_le max_pos]
  have found : index parts max value * (max + 1) ≤ value * parts := Nat.div_mul_le_self _ _
  rw [Nat.mul_succ] at found
  by_cases first : index parts max value = 0
  · rw [first, Nat.zero_mul]
    exact Nat.zero_le _
  · omega

/-- Division finds the part unless the number is between two multiples. -/
theorem index_eq_part_iff (max_pos : 0 < max) (within : value ≤ max) (parts_pos : 0 < parts) :
    index parts max value = part parts max value ↔
      ∀ j, 0 < j → j < parts → ¬(j * max < value * parts ∧ value * parts < j * (max + 1)) := by
  have found : index parts max value * (max + 1) ≤ value * parts := Nat.div_mul_le_self _ _
  have next : value * parts < (index parts max value + 1) * (max + 1) :=
    Nat.lt_mul_of_div_lt (Nat.lt_succ_self _) (Nat.succ_pos max)
  have below : lower parts max (index parts max value) ≤ value := by
    rw [lower_le_iff parts_pos]
    rw [Nat.mul_succ] at found
    omega
  have agree : index parts max value = part parts max value ↔
      value * parts ≤ (index parts max value + 1) * max := by
    rw [eq_comm, ← mem_part_iff max_pos parts_pos, and_iff_right below, upper,
      Nat.le_div_iff_mul_le parts_pos]
  rw [agree]
  constructor
  · rintro last j _ _ ⟨above, before⟩
    have least : j < index parts max value + 1 :=
      Nat.lt_of_mul_lt_mul_right (Nat.lt_of_lt_of_le above last)
    have most : index parts max value < j :=
      Nat.lt_of_mul_lt_mul_right (Nat.lt_of_le_of_lt found before)
    omega
  · intro nowhere
    by_contra late
    have above := Nat.lt_of_not_le late
    have few : index parts max value + 1 < parts := by
      apply Nat.lt_of_mul_lt_mul_right (a := max)
      calc
        (index parts max value + 1) * max < value * parts := above
        _ ≤ parts * max := by
          rw [Nat.mul_comm parts]
          exact Nat.mul_le_mul_right parts within
    exact nowhere _ (Nat.succ_pos _) few ⟨above, next⟩

/-- Two ways of sorting elements into classes, where one never takes a later class, count alike
only if they agree on each element. -/
theorem count_map_eq_iff {α : Type*} {first second : α → Nat} {elements : List α}
    (le : ∀ element ∈ elements, first element ≤ second element) :
    (∀ i, (elements.map first).count i = (elements.map second).count i) ↔
      ∀ element ∈ elements, first element = second element := by
  constructor
  · intro counts element member
    by_contra different
    have less : (elements.map first).sum < (elements.map second).sum :=
      List.sum_lt_sum first second le
        ⟨element, member, Nat.lt_of_le_of_ne (le element member) different⟩
    rw [(List.perm_iff_count.mpr counts).sum_eq] at less
    exact Nat.lt_irrefl _ less
  · intro same i
    rw [List.map_congr_left same]

end RangeParts
