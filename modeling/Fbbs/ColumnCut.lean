import Mathlib.Data.List.Basic
import Mathlib.Algebra.BigOperators.Group.List.Basic
import Mathlib.Algebra.Order.Ring.Int

/-!
# Cutting a row of items at a width

Items stand in a row, each of a size and taking some columns.  A cut goes along the row until
its columns are used up.  The longest part that fits may end elsewhere: items that take no column
still fit behind a part that is full, and the columns may have been counted too high.
-/

namespace ColumnCut

structure Item where
  size : Nat
  columns : Int
  deriving DecidableEq

def size (items : List Item) : Nat :=
  (items.map Item.size).sum

def columns (items : List Item) : Int :=
  (items.map Item.columns).sum

/-- The size of what stands before the cut. -/
def cut : Int → List Item → Nat
  | _, [] => 0
  | width, item :: items =>
    if width - item.columns < 0 then 0
    else if width - item.columns = 0 then item.size
    else item.size + cut (width - item.columns) items

/-- The size of the items at the front that fit. -/
def fit : Int → List Item → Nat
  | _, [] => 0
  | width, item :: items =>
    if width - item.columns < 0 then 0 else item.size + fit (width - item.columns) items

/-- A size is the one of the longest part at the front that fits. -/
def Longest (width : Int) (items : List Item) (n : Nat) : Prop :=
  ∃ front, front <+: items ∧ size front = n ∧ columns front ≤ width ∧
    ∀ other, other <+: items → columns other ≤ width → other.length ≤ front.length

section Sums

variable (item : Item) (items first second : List Item)

@[simp] theorem columns_nil : columns [] = 0 := rfl

@[simp] theorem size_cons : size (item :: items) = item.size + size items :=
  List.sum_cons

@[simp] theorem columns_cons : columns (item :: items) = item.columns + columns items :=
  List.sum_cons

@[simp] theorem columns_append :
    columns (first ++ second) = columns first + columns second := by
  simp [columns]

end Sums

section Front

variable {width : Int} {items front : List Item} {n : Nat}

/-- An item without a column is passed. -/
theorem cut_of_columns_eq_zero {item : Item} (positive : 0 < width) (noColumn : item.columns = 0)
    (items : List Item) : cut width (item :: items) = item.size + cut width items := by
  rw [cut, noColumn, Int.sub_zero, if_neg (by omega), if_neg (by omega)]

/-- What follows on a part that does not fit is not seen by a cut. -/
theorem cut_append (positive : 0 < width) (exceeds : width < columns front) (rest : List Item) :
    cut width (front ++ rest) = cut width front := by
  induction front generalizing width with
  | nil => exact absurd exceeds (Int.lt_asymm positive)
  | cons item front ih =>
    rw [columns_cons] at exceeds
    rw [List.cons_append, cut, cut]
    split_ifs with beyond full
    · rfl
    · rfl
    · rw [ih (by omega) (by omega)]

theorem fit_append (nonneg : 0 ≤ width) (exceeds : width < columns front) (rest : List Item) :
    fit width (front ++ rest) = fit width front := by
  induction front generalizing width with
  | nil => exact absurd exceeds (Int.not_lt.mpr nonneg)
  | cons item front ih =>
    rw [columns_cons] at exceeds
    rw [List.cons_append, fit, fit]
    split_ifs with beyond
    · rfl
    · rw [ih (by omega) (by omega)]

theorem longest_unique {m : Nat} (first : Longest width items n) (second : Longest width items m) :
    n = m := by
  obtain ⟨front, isFront, rfl, fits, maximal⟩ := first
  obtain ⟨front', isFront', rfl, fits', maximal'⟩ := second
  have same : front = front' := by
    rcases List.prefix_or_prefix_of_prefix isFront isFront' with shorter | shorter
    · exact shorter.eq_of_length_le (maximal front' isFront' fits')
    · exact (shorter.eq_of_length_le (maximal' front isFront fits)).symm
  rw [same]

variable (weighed : ∀ item ∈ items, 0 ≤ item.columns)

include weighed

theorem columns_nonneg : 0 ≤ columns items := by
  induction items with
  | nil => exact Int.le_refl 0
  | cons item items ih =>
    rw [List.forall_mem_cons] at weighed
    have rest := ih weighed.2
    have first := weighed.1
    rw [columns_cons]
    omega

theorem longest_fit (nonneg : 0 ≤ width) : Longest width items (fit width items) := by
  induction items generalizing width with
  | nil =>
    refine ⟨[], List.prefix_rfl, rfl, nonneg, fun other isOther _ => ?_⟩
    exact isOther.length_le
  | cons item items ih =>
    rw [List.forall_mem_cons] at weighed
    rw [fit]
    split_ifs with exceeds
    · refine ⟨[], List.nil_prefix, rfl, nonneg, fun other isOther fits => ?_⟩
      rcases List.prefix_cons_iff.mp isOther with rfl | ⟨rest, rfl, isRest⟩
      · exact Nat.le_refl _
      · have some := columns_nonneg fun item member => weighed.2 item (isRest.subset member)
        rw [columns_cons] at fits
        omega
    · obtain ⟨front, isFront, isSize, fits, maximal⟩ :=
        @ih (width - item.columns) weighed.2 (by omega)
      refine ⟨item :: front, List.cons_prefix_cons.mpr ⟨rfl, isFront⟩, by simp [isSize], ?_,
        fun other isOther otherFits => ?_⟩
      · rw [columns_cons]
        omega
      · rcases List.prefix_cons_iff.mp isOther with rfl | ⟨rest, rfl, isRest⟩
        · exact Nat.zero_le _
        · rw [columns_cons] at otherFits
          have longest := maximal rest isRest (by omega)
          simpa using longest

theorem longest_iff (nonneg : 0 ≤ width) : Longest width items n ↔ n = fit width items := by
  constructor
  · intro longest
    exact longest_unique longest (longest_fit weighed nonneg)
  · rintro rfl
    exact longest_fit weighed nonneg

end Front

/-- An item whose columns are counted too high. -/
structure Counted where
  size : Nat
  columns : Nat
  surplus : Nat
  deriving DecidableEq

namespace Counted

def item (counted : Counted) : Item :=
  ⟨counted.size, counted.columns⟩

def miscounted (counted : Counted) : Item :=
  ⟨counted.size, counted.columns + counted.surplus⟩

end Counted

/-- With the surplus what fits still fits, and it is full at its end only. -/
def Roomy (limit room : Int) (items : List Counted) : Prop :=
  ∀ k < items.length, columns ((items.take (k + 1)).map Counted.item) ≤ limit →
    columns ((items.take k).map Counted.miscounted) < room ∧
      columns ((items.take (k + 1)).map Counted.miscounted) ≤ room

instance (limit room : Int) (items : List Counted) : Decidable (Roomy limit room items) :=
  inferInstanceAs (Decidable (∀ k < items.length, _))

section Surplus

variable {limit room : Int} {counted : Counted} {items : List Counted}

theorem item_nonneg (items : List Counted) :
    ∀ item ∈ items.map Counted.item, 0 ≤ item.columns := by
  intro item member
  obtain ⟨counted, -, rfl⟩ := List.mem_map.mp member
  exact Int.natCast_nonneg counted.columns

theorem columns_le_miscounted (items : List Counted) :
    columns (items.map Counted.item) ≤ columns (items.map Counted.miscounted) := by
  induction items with
  | nil => exact Int.le_refl 0
  | cons counted items ih =>
    simp only [List.map_cons, columns_cons, Counted.item, Counted.miscounted]
    omega

/-- Nothing fits. -/
theorem roomy_of_neg (negative : limit < 0) : Roomy limit room items := by
  intro k inside fits
  have some := columns_nonneg (item_nonneg (items.take (k + 1)))
  omega

theorem roomy_cons : Roomy limit room (counted :: items) ↔
    (counted.columns ≤ limit → 0 < room ∧ (counted.columns + counted.surplus : Nat) ≤ room) ∧
      Roomy (limit - counted.columns) (room - (counted.columns + counted.surplus : Nat)) items := by
  constructor
  · intro roomy
    constructor
    · intro fits
      simpa [Counted.item, Counted.miscounted] using
        roomy 0 (Nat.succ_pos _) (by simpa [Counted.item] using fits)
    · intro k inside fits
      have later := roomy (k + 1) (Nat.succ_lt_succ inside)
      simp only [List.take_succ_cons, List.map_cons, columns_cons, Counted.item,
        Counted.miscounted] at later
      have room := later (by omega)
      omega
  · rintro ⟨first, rest⟩ k inside fits
    cases k with
    | zero =>
      simpa [Counted.item, Counted.miscounted] using
        first (by simpa [Counted.item] using fits)
    | succ k =>
      simp only [List.take_succ_cons, List.map_cons, columns_cons, Counted.item,
        Counted.miscounted] at fits ⊢
      have room := rest k (Nat.lt_of_succ_lt_succ inside) (by omega)
      omega

/-- What follows on a part that does not fit does not matter. -/
theorem roomy_append (exceeds : limit < columns (items.map Counted.item)) (rest : List Counted) :
    Roomy limit room (items ++ rest) ↔ Roomy limit room items := by
  induction items generalizing limit room with
  | nil => exact iff_of_true (roomy_of_neg exceeds) (roomy_of_neg exceeds)
  | cons counted items ih =>
    simp only [List.map_cons, columns_cons, Counted.item] at exceeds
    rw [List.cons_append, roomy_cons, roomy_cons, ih (by omega)]

variable (sized : ∀ item ∈ items, 0 < item.size)

include sized

theorem roomy_iff_fit_eq_zero :
    Roomy limit 0 items ↔ fit limit (items.map Counted.item) = 0 := by
  cases items with
  | nil => simp [Roomy, fit]
  | cons counted items =>
    have positive := sized counted List.mem_cons_self
    simp only [roomy_cons, List.map_cons, fit, Counted.item]
    split_ifs with exceeds
    · refine ⟨fun _ => rfl, fun _ => ⟨fun fits => ?_, roomy_of_neg exceeds⟩⟩
      omega
    · constructor
      · rintro ⟨first, -⟩
        exact absurd (first (by omega)).1 (Int.lt_irrefl 0)
      · intro none
        omega

/-- A cut with columns that are counted too high is behind the longest part that fits, if that
has room for the surplus. -/
theorem cut_eq_fit_iff (positive : 0 < room) (within : room ≤ limit) :
    cut room (items.map Counted.miscounted) = fit limit (items.map Counted.item) ↔
      Roomy limit room items := by
  induction items generalizing limit room with
  | nil => simp [cut, fit, Roomy]
  | cons counted items ih =>
    rw [List.forall_mem_cons] at sized
    have positiveSize := sized.1
    have rest := fun room => @ih (limit - counted.columns) room sized.2
    simp only [roomy_cons, List.map_cons, cut, fit, Counted.item, Counted.miscounted,
      ← Nat.cast_add]
    by_cases exceeds : limit - (counted.columns : Int) < 0
    · rw [if_pos exceeds, if_pos (by omega)]
      exact ⟨fun _ => ⟨fun fits => by omega, roomy_of_neg exceeds⟩, fun _ => rfl⟩
    · rw [if_neg exceeds]
      by_cases beyond : room - ((counted.columns + counted.surplus : Nat) : Int) < 0
      · rw [if_pos beyond]
        constructor
        · intro none
          omega
        · rintro ⟨first, -⟩
          have inside := (first (by omega)).2
          omega
      · rw [if_neg beyond]
        by_cases full : room - ((counted.columns + counted.surplus : Nat) : Int) = 0
        · rw [if_pos full, full, roomy_iff_fit_eq_zero sized.2]
          omega
        · rw [if_neg full, Nat.add_left_cancel_iff, rest _ (by omega) (by omega)]
          constructor
          · intro roomy
            exact ⟨fun _ => ⟨positive, by omega⟩, roomy⟩
          · exact And.right

end Surplus

end ColumnCut
