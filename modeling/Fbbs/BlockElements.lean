import Mathlib.Data.List.Basic

/-!
# Elements of a block of memory

A block is cut into elements of one length.  A move inside of the block that begins at an element
and takes whole elements moves elements; moving the end of the block to the front erases the
elements between.
-/

namespace BlockElements

variable {α : Type*}

def element (len : Nat) (block : List α) (index : Nat) : List α :=
  (block.drop (index * len)).take len

/-- The first elements of a block. -/
def elements (len count : Nat) (block : List α) : List (List α) :=
  (List.range count).map (element len block)

/-- A number of cells is moved inside of the block. -/
def move (block : List α) (dest src count : Nat) : List α :=
  block.take dest ++ (block.drop src).take count ++ block.drop (dest + count)

/-- Cells are written over those from a place on. -/
def copy (block : List α) (dest : Nat) (cells : List α) : List α :=
  block.take dest ++ cells ++ block.drop (dest + cells.length)

@[simp]
theorem length_elements (len count : Nat) (block : List α) :
    (elements len count block).length = count := by
  simp [elements]

theorem getElem?_elements {len count index : Nat} (block : List α) (inside : index < count) :
    (elements len count block)[index]? = some (element len block index) := by
  rw [elements, List.getElem?_map, List.getElem?_range inside, Option.map_some]

/-- Elements are read cell by cell. -/
theorem getElem?_element (len : Nat) (block : List α) (index cell : Nat) :
    (element len block index)[cell]? =
      if cell < len then block[index * len + cell]? else none := by
  rw [element, List.getElem?_take, List.getElem?_drop]

theorem element_congr {len index other : Nat} {block before : List α}
    (same : ∀ cell < len, block[index * len + cell]? = before[other * len + cell]?) :
    element len block index = element len before other := by
  apply List.ext_getElem?
  intro cell
  rw [getElem?_element, getElem?_element]
  split
  next inside => exact same cell inside
  next => rfl

theorem elements_take {len count most : Nat} (block : List α) (fewer : count ≤ most) :
    (elements len most block).take count = elements len count block := by
  rw [elements, ← List.map_take, List.take_range, Nat.min_eq_left fewer, elements]

section Move

variable {block : List α} {dest src count : Nat} (source : src + count ≤ block.length)
  (target : dest + count ≤ block.length)
include source target

theorem length_move : (move block dest src count).length = block.length := by
  simp only [move, List.length_append, List.length_take, List.length_drop]
  omega

/-- The cells of a block after a move. -/
theorem getElem?_move (cell : Nat) :
    (move block dest src count)[cell]? =
      if dest ≤ cell ∧ cell < dest + count then block[src + (cell - dest)]? else block[cell]? := by
  have front : (block.take dest).length = dest := by
    rw [List.length_take]
    omega
  have middle : ((block.drop src).take count).length = count := by
    rw [List.length_take, List.length_drop]
    omega
  rw [move, List.getElem?_append, List.getElem?_append, List.length_append, front, middle]
  by_cases before : cell < dest
  · rw [if_pos (by omega), if_pos before, if_neg (by omega), List.getElem?_take_of_lt before]
  by_cases within : cell < dest + count
  · rw [if_pos within, if_neg before, if_pos (by omega), List.getElem?_take_of_lt (by omega),
      List.getElem?_drop]
  · rw [if_neg within, if_neg (by omega), List.getElem?_drop]
    congr 1
    omega

end Move

/-- Moving what is behind some elements to their front erases them. -/
theorem elements_move {len size first last count : Nat} {block : List α} (ordered : first ≤ last)
    (inside : last ≤ size) (whole : (size - last) * len ≤ count)
    (source : last * len + count ≤ block.length) :
    elements len (first + (size - last)) (move block (first * len) (last * len) count) =
      (elements len size block).take first ++ (elements len size block).drop last := by
  have below : first * len ≤ last * len := Nat.mul_le_mul_right len ordered
  have target : first * len + count ≤ block.length := by omega
  have fromStart : first ≤ size := Nat.le_trans ordered inside
  apply List.ext_getElem?
  intro index
  by_cases early : index < first
  · have head : index < ((elements len size block).take first).length := by
      rw [List.length_take, length_elements]
      omega
    rw [List.getElem?_append_left head, List.getElem?_take_of_lt early,
      getElem?_elements _ (by omega), getElem?_elements _ (by omega)]
    congr 1
    apply element_congr
    intro cell within
    have short : index * len + cell < first * len := by
      calc
        index * len + cell < (index + 1) * len := by rw [Nat.succ_mul]; omega
        _ ≤ first * len := Nat.mul_le_mul_right len early
    rw [getElem?_move source target, if_neg (by omega)]
  by_cases late : index < first + (size - last)
  · have tail : ((elements len size block).take first).length ≤ index := by
      rw [List.length_take, length_elements]
      omega
    have headLength : ((elements len size block).take first).length = first := by
      rw [List.length_take, length_elements]
      omega
    rw [List.getElem?_append_right tail, headLength, List.getElem?_drop,
      getElem?_elements _ late, getElem?_elements _ (by omega)]
    congr 1
    apply element_congr
    intro cell within
    obtain ⟨offset, rfl⟩ := Nat.exists_eq_add_of_le (Nat.le_of_not_lt early)
    have moved : offset * len + cell < count := by
      calc
        offset * len + cell < (offset + 1) * len := by rw [Nat.succ_mul]; omega
        _ ≤ (size - last) * len := Nat.mul_le_mul_right len (by omega)
        _ ≤ count := whole
    have target' : (first + offset) * len = first * len + offset * len := Nat.add_mul ..
    have source' : (last + (first + offset - first)) * len = last * len + offset * len := by
      rw [Nat.add_sub_cancel_left, Nat.add_mul]
    rw [getElem?_move source target, if_pos (by omega), source', target']
    congr 1
    omega
  · have lengths : ((elements len size block).take first ++
        (elements len size block).drop last).length ≤ index := by
      rw [List.length_append, List.length_take, List.length_drop, length_elements]
      omega
    rw [List.getElem?_eq_none (by rw [length_elements]; omega), List.getElem?_eq_none lengths]

/-- Moving the end of a block to the front, and cutting as much off. -/
theorem take_move (front gone back : List α) :
    (move (front ++ gone ++ back) front.length (front.length + gone.length) back.length).take
      (front.length + back.length) = front ++ back := by
  have behind : (front ++ gone ++ back).drop (front.length + gone.length) = back := by
    rw [← List.length_append, List.drop_left]
  have before : (front ++ gone ++ back).take front.length = front := by
    rw [List.append_assoc, List.take_left]
  rw [move, behind, before, List.take_length, ← List.length_append, List.take_left]

/-- Moving the end of a block back into a gap makes room for what is written there. -/
theorem copy_move (front back gap cells : List α) (room : gap.length = cells.length) :
    copy (move (front ++ back ++ gap) (front.length + cells.length) front.length back.length)
      front.length cells = front ++ cells ++ back := by
  have moved : ((front ++ back ++ gap).drop front.length).take back.length = back := by
    rw [List.append_assoc, List.drop_left, List.take_left]
  have nothing : (front ++ back ++ gap).drop (front.length + cells.length + back.length) = [] := by
    apply List.drop_of_length_le
    simp only [List.length_append]
    omega
  have size : ((front ++ back ++ gap).take (front.length + cells.length)).length =
      front.length + cells.length := by
    simp only [List.length_take, List.length_append]
    omega
  have before : ((front ++ back ++ gap).take (front.length + cells.length) ++ back).take
      front.length = front := by
    rw [List.take_append_of_le_length (by omega), List.take_take, Nat.min_eq_left (by omega),
      List.append_assoc, List.take_left]
  have behind : ((front ++ back ++ gap).take (front.length + cells.length) ++ back).drop
      (front.length + cells.length) = back := List.drop_left' size
  rw [move, moved, nothing, List.append_nil, copy, before, behind]

/-- So it is when the gap is behind everything. -/
theorem copy_end (front gap cells : List α) (room : gap.length = cells.length) :
    copy (front ++ gap) front.length cells = front ++ cells := by
  have nothing : (front ++ gap).drop (front.length + cells.length) = [] := by
    rw [← room, ← List.length_append, List.drop_length]
  rw [copy, List.take_left, nothing, List.append_nil]

section Whole

variable {size : Nat} {parts : List (List α)} (whole : ∀ part ∈ parts, part.length = size)
include whole

theorem length_flatten_of_whole : parts.flatten.length = parts.length * size := by
  induction parts with
  | nil => rw [List.flatten_nil, List.length_nil, List.length_nil, Nat.zero_mul]
  | cons part parts ih =>
    rw [List.flatten_cons, List.length_append, whole part List.mem_cons_self,
      ih fun later member => whole later (List.mem_cons_of_mem part member), List.length_cons,
      Nat.succ_mul, Nat.add_comm]

/-- What a block of whole parts has behind some of them. -/
theorem drop_flatten_of_whole (count : Nat) :
    parts.flatten.drop (count * size) = (parts.drop count).flatten := by
  induction parts generalizing count with
  | nil => rw [List.drop_nil, List.flatten_nil, List.drop_nil]
  | cons part parts ih =>
    cases count with
    | zero => rw [Nat.zero_mul, List.drop_zero, List.drop_zero]
    | succ count =>
      have length : part.length = size := whole part List.mem_cons_self
      have split : (count + 1) * size = part.length + count * size := by
        rw [Nat.succ_mul, length, Nat.add_comm]
      rw [List.flatten_cons, split, List.drop_length_add_append, List.drop_succ_cons]
      exact ih (fun later member => whole later (List.mem_cons_of_mem part member)) count

theorem element_flatten_of_whole {index : Nat} {part : List α} (found : parts[index]? = some part) :
    element size parts.flatten index = part := by
  obtain ⟨inside, rfl⟩ := List.getElem?_eq_some_iff.mp found
  rw [element, drop_flatten_of_whole whole, List.drop_eq_getElem_cons inside, List.flatten_cons]
  exact List.take_left' (whole _ (List.getElem_mem inside))

end Whole

end BlockElements
