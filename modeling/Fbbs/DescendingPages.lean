import Mathlib.Data.List.Nodup
import Mathlib.Data.List.Sort

/-!
# Pages in descending order

A page has the rows with the largest keys below a bound.  The keys of the rows are distinct.
-/

namespace DescendingPages

variable {Row : Type*} (key : Row → Nat)

/-- The rows below a bound, the largest first. -/
def below (rows : List Row) (bound : Nat) : List Row :=
  (rows.filter (key · < bound)).insertionSort fun a b => key b ≤ key a

/-- At most `limit` rows below a bound. -/
def page (rows : List Row) (bound limit : Nat) : List Row :=
  (below key rows bound).take limit

/-- Keys that become smaller from row to row. -/
def Descending (rows : List Row) : Prop :=
  rows.Pairwise fun a b => key b < key a

variable {key} {rows : List Row} {bound limit : Nat} {row : Row}

theorem mem_below : row ∈ below key rows bound ↔ row ∈ rows ∧ key row < bound := by
  rw [below, List.mem_insertionSort, List.mem_filter, decide_eq_true_eq]

theorem descending_below (unique : (rows.map key).Nodup) :
    Descending key (below key rows bound) := by
  have total : Std.Total fun a b : Row => key b ≤ key a := ⟨fun a b => Nat.le_total _ _⟩
  have transitive : IsTrans Row fun a b => key b ≤ key a := ⟨fun a b c => flip Nat.le_trans⟩
  have sorted : (below key rows bound).Pairwise fun a b => key b ≤ key a :=
    List.pairwise_insertionSort _ _
  have distinct : (below key rows bound).Pairwise fun a b => key a ≠ key b := by
    have nodup : ((below key rows bound).map key).Nodup := by
      have perm := (List.perm_insertionSort (fun a b : Row => key b ≤ key a)
        (rows.filter (key · < bound))).map key
      exact perm.nodup_iff.mpr (unique.sublist (List.filter_sublist.map key))
    exact List.pairwise_map.mp nodup
  exact sorted.imp₂ (fun a b le ne => Nat.lt_of_le_of_ne le (Ne.symm ne)) distinct

theorem mem_page (member : row ∈ page key rows bound limit) : row ∈ rows ∧ key row < bound :=
  mem_below.mp (List.mem_of_mem_take member)

theorem descending_page (unique : (rows.map key).Nodup) :
    Descending key (page key rows bound limit) :=
  (descending_below unique).sublist (List.take_sublist ..)

/-- No row between the bound and the last row of a page is left out. -/
theorem mem_page_of_le (unique : (rows.map key).Nodup) (member : row ∈ rows)
    (less : key row < bound) {last : Row} (isLast : last ∈ page key rows bound limit)
    (le : key last ≤ key row) : row ∈ page key rows bound limit := by
  have inside : row ∈ below key rows bound := mem_below.mpr ⟨member, less⟩
  have whole := List.take_append_drop limit (below key rows bound)
  rw [← whole] at inside
  rcases List.mem_append.mp inside with first | later
  · exact first
  · have sorted := @descending_below _ key rows bound unique
    rw [← whole] at sorted
    have smaller := (List.pairwise_append.mp sorted).2.2 last isLast row later
    omega

/-- Nothing is left below a page that is shorter than the limit. -/
theorem mem_page_of_short (short : (page key rows bound limit).length < limit)
    (member : row ∈ rows) (less : key row < bound) : row ∈ page key rows bound limit := by
  have inside : row ∈ below key rows bound := mem_below.mpr ⟨member, less⟩
  rw [page, List.length_take] at short
  rwa [page, List.take_of_length_le (by omega)]

/-- A page below all rows so far keeps the rows descending. -/
theorem descending_append {first second : List Row} (left : Descending key first)
    (right : Descending key second) (less : ∀ a ∈ first, ∀ b ∈ second, key b < key a) :
    Descending key (first ++ second) :=
  List.pairwise_append.mpr ⟨left, right, less⟩

/-- The last of descending rows has the smallest key. -/
theorem last_le (sorted : Descending key rows) {last : Row} (isLast : rows.getLast? = some last)
    (member : row ∈ rows) : key last ≤ key row := by
  obtain ⟨first, rfl⟩ := List.getLast?_eq_some_iff.mp isLast
  rcases List.mem_append.mp member with inside | same
  · exact Nat.le_of_lt ((List.pairwise_append.mp sorted).2.2 row inside last
      (List.mem_singleton_self last))
  · exact Nat.le_of_eq (congrArg key (List.mem_singleton.mp same)).symm

/-- A key occurs once among descending rows. -/
theorem count_key (sorted : Descending key rows) (member : row ∈ rows) :
    (rows.map key).count (key row) = 1 := by
  have nodup : (rows.map key).Nodup := by
    apply List.pairwise_map.mpr
    exact sorted.imp fun less same => by omega
  exact List.count_eq_one_of_mem nodup (List.mem_map_of_mem member)

end DescendingPages
