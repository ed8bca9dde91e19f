import Mathlib.Data.List.Perm.Basic

/-!
# Tables of pointers to the items that pass a filter

An array of items stays where it is, and a table of pointers lists those of its items that
are to be shown, in the order in which they are shown.  A pointer is the position of an
item; an entry of the table that has not been written yet is `none`.
-/

namespace FilteredIndex

variable {α : Type*} {keep : α → Bool} {items : List α} {table : List (Option Nat)}
  {count : Nat}

/-- The positions of the items that pass the filter. -/
def positions (keep : α → Bool) (items : List α) : List Nat :=
  (items.zipIdx.filter fun entry => keep entry.1).map Prod.snd

theorem mem_positions {position : Nat} :
    position ∈ positions keep items ↔
      ∃ item, items[position]? = some item ∧ keep item = true := by
  simp only [positions, List.mem_map, List.mem_filter]
  constructor
  · rintro ⟨⟨item, other⟩, ⟨listed, kept⟩, rfl⟩
    exact ⟨item, List.mk_mem_zipIdx_iff_getElem?.mp listed, kept⟩
  · rintro ⟨item, found, kept⟩
    exact ⟨(item, position), ⟨List.mk_mem_zipIdx_iff_getElem?.mpr found, kept⟩, rfl⟩

theorem length_positions : (positions keep items).length = items.countP keep := by
  have counted : items.zipIdx.countP (keep ∘ Prod.fst) = items.countP keep := by
    rw [← List.countP_map, List.zipIdx_map_fst]
  rw [positions, List.length_map, ← List.countP_eq_length_filter]
  exact counted

theorem positions_congr {other : α → Bool}
    (agree : ∀ item ∈ items, keep item = other item) :
    positions keep items = positions other items := by
  have same : ∀ entry ∈ items.zipIdx, keep entry.1 = other entry.1 := by
    intro entry listed
    exact agree entry.1 (List.mem_of_getElem? (List.mem_zipIdx_iff_getElem?.mp listed))
  rw [positions, List.filter_congr same, positions]

/-- The first `count` entries of the table are the pointers to the items that pass the
filter, each once. -/
def Indexes (keep : α → Bool) (items : List α) (table : List (Option Nat)) (count : Nat) :
    Prop :=
  count ≤ table.length ∧ (table.take count).Perm ((positions keep items).map some)

namespace Indexes

theorem count_eq (indexes : Indexes keep items table count) : count = items.countP keep := by
  have lengths := indexes.2.length_eq
  rw [List.length_map, length_positions, List.length_take, Nat.min_eq_left indexes.1] at lengths
  exact lengths

theorem getElem? (indexes : Indexes keep items table count) {n : Nat} (inside : n < count) :
    ∃ position item, table[n]? = some (some position) ∧ items[position]? = some item ∧
      keep item = true := by
  have bound : n < table.length := Nat.lt_of_lt_of_le inside indexes.1
  have listed : table[n] ∈ table.take count := by
    rw [List.mem_take_iff_getElem]
    exact ⟨n, Nat.lt_min.mpr ⟨inside, bound⟩, rfl⟩
  obtain ⟨position, member, pointer⟩ := List.mem_map.mp (indexes.2.mem_iff.mp listed)
  obtain ⟨item, found, kept⟩ := mem_positions.mp member
  exact ⟨position, item, by rw [List.getElem?_eq_getElem bound, pointer], found, kept⟩

theorem congr {other : α → Bool} (indexes : Indexes keep items table count)
    (agree : ∀ item ∈ items, keep item = other item) : Indexes other items table count := by
  rw [Indexes, ← positions_congr agree]
  exact indexes

/-- Another order of the written part of a table keeps what it lists. -/
theorem permute {written : List (Option Nat)} (indexes : Indexes keep items table count)
    (perm : written.Perm (table.take count)) :
    Indexes keep items (written ++ table.drop count) count := by
  have length : written.length = count := by
    rw [perm.length_eq, List.length_take, Nat.min_eq_left indexes.1]
  refine ⟨?_, ?_⟩
  · rw [List.length_append, length]
    exact Nat.le_add_right count _
  · rw [List.take_left' length]
    exact perm.trans indexes.2

end Indexes

/-- A table whose first entries are written anew. -/
theorem indexes_write (rest : List (Option Nat)) :
    Indexes keep items ((positions keep items).map some ++ rest)
      (positions keep items).length := by
  have written : ((positions keep items).map some).length = (positions keep items).length :=
    List.length_map _
  refine ⟨?_, ?_⟩
  · rw [List.length_append, written]
    exact Nat.le_add_right _ _
  · rw [List.take_left' written]

end FilteredIndex
