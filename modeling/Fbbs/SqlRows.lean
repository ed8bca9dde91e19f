import Mathlib.Data.List.Basic

/-!
# Statements over rows with nullable columns

The truth value of a condition is true, false or null.  A `WHERE` clause selects
a row when all its conjuncts are true, so a null conjunct leaves the row alone.
Tables are lists of rows; a statement deletes or changes the selected ones.
-/

namespace SqlRows

/-- The value of a condition; `none` is null. -/
abbrev Truth := Option Bool

def both : Truth → Truth → Truth
  | some false, _ => some false
  | _, some false => some false
  | some true, some true => some true
  | _, _ => none

def either : Truth → Truth → Truth
  | some true, _ => some true
  | _, some true => some true
  | some false, some false => some false
  | _, _ => none

def negation (truth : Truth) : Truth :=
  truth.map not

/-- A comparison is null if one of its sides is. -/
def compare {Value : Type*} (test : Value → Value → Bool)
    (left right : Option Value) : Truth :=
  match left, right with
  | some left, some right => some (test left right)
  | _, _ => none

theorem compare_eq_true {Value : Type*} {test : Value → Value → Bool}
    {left : Option Value} {right : Value}
    (holds : compare test left (some right) = some true) :
    ∃ value, left = some value ∧ test value right = true := by
  cases left with
  | none => cases holds
  | some value => exact ⟨value, rfl, Option.some.inj holds⟩

theorem compare_eq_left_iff {Value : Type*} [BEq Value] [LawfulBEq Value]
    {left : Option Value} {right : Value} :
    compare (· == ·) left (some right) = some true ↔ left = some right := by
  cases left <;> simp [compare]

theorem compare_eq_right_iff {Value : Type*} [BEq Value] [LawfulBEq Value]
    {left : Value} {right : Option Value} :
    compare (· == ·) (some left) right = some true ↔ right = some left := by
  cases right with
  | none => simp [compare]
  | some right => simp [compare, eq_comm (a := right)]

section Statements

variable {Row : Type*}

/-- The rows that a list of conjuncts selects. -/
def selects (conditions : List (Row → Truth)) (row : Row) : Bool :=
  conditions.all fun condition => condition row == some true

/-- The rows left by a `DELETE`. -/
def kept (selected : Row → Bool) (rows : List Row) : List Row :=
  rows.filter fun row => !selected row

/-- The rows returned by a `DELETE`. -/
def removed (selected : Row → Bool) (rows : List Row) : List Row :=
  rows.filter selected

/-- The rows after an `UPDATE`. -/
def updated (selected : Row → Bool) (change : Row → Row) (rows : List Row) :
    List Row :=
  rows.map fun row => if selected row then change row else row

section Moves

variable {Value : Type*} (column : Row → Value) (others : List Value)
variable (selected : Row → Bool) (rows : List Row)

/-- What a `DELETE` keeps and what it returns, put behind other values. -/
theorem append_removed_kept_perm :
    ((others ++ (removed selected rows).map column) ++
      (kept selected rows).map column).Perm (others ++ rows.map column) := by
  rw [List.append_assoc, ← List.map_append]
  exact ((List.filter_append_perm selected rows).map column).append_left others

/-- What a `DELETE` keeps and what it returns, put around other values. -/
theorem kept_append_removed_perm :
    ((kept selected rows).map column ++
      (others ++ (removed selected rows).map column)).Perm
      (rows.map column ++ others) :=
  List.perm_append_comm.trans
    ((append_removed_kept_perm column others selected rows).trans
      List.perm_append_comm)

end Moves

variable (watched : Row → Bool)

/-- A `DELETE` leaves the watched rows alone exactly if it selects none. -/
theorem kept_filter_eq_iff (selected : Row → Bool) (rows : List Row) :
    (kept selected rows).filter watched = rows.filter watched ↔
      ∀ row ∈ rows, watched row = true → selected row = false := by
  rw [kept, List.filter_comm, List.filter_eq_self]
  constructor
  · intro unselected row member isWatched
    have notSelected := unselected row (List.mem_filter.mpr ⟨member, isWatched⟩)
    simpa using notSelected
  · intro unselected row member
    obtain ⟨inRows, isWatched⟩ := List.mem_filter.mp member
    simp [unselected row inRows isWatched]

/-- An `UPDATE` that keeps rows watched or unwatched leaves the watched rows
alone exactly if it changes none of those it selects. -/
theorem updated_filter_eq_iff {selected : Row → Bool} {change : Row → Row}
    (keeps : ∀ row, watched (change row) = watched row) (rows : List Row) :
    (updated selected change rows).filter watched = rows.filter watched ↔
      ∀ row ∈ rows, watched row = true → selected row = true →
        change row = row := by
  have sameWatch : watched ∘ (fun row => if selected row then change row else row) =
      watched := by
    funext row
    simp only [Function.comp]
    split
    · exact keeps row
    · rfl
  rw [updated, List.filter_map, sameWatch]
  constructor
  · intro unchanged row member isWatched isSelected
    have fixed := List.map_inj_left.mp (unchanged.trans (List.map_id _).symm) row
      (List.mem_filter.mpr ⟨member, isWatched⟩)
    simpa [isSelected] using fixed
  · intro unchanged
    refine Eq.trans (List.map_inj_left.mpr fun row member => ?_) (List.map_id _)
    obtain ⟨inRows, isWatched⟩ := List.mem_filter.mp member
    split
    · exact unchanged row inRows isWatched ‹_›
    · rfl

end Statements

end SqlRows
