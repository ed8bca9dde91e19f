import Mathlib.Algebra.Order.Group.Nat
import Fbbs.RecordEdits

/-!
# Deleting a range of records

`delete_range` of `src/src/bbs.c` moves the marked records of the range to its front, in the mapped
index itself, and then the records behind the range.
-/

namespace Fbbs

namespace RangeDeletion

open RecordEdits (Bytes mmapTruncate)

/-- The length of a `fileheader`. -/
def headerSize : Nat := 256

def fileMarked : UInt8 := 8

def fileDeleted : UInt8 := 128

/-- `accessed[0]`. -/
def accessed (record : Bytes) : UInt8 :=
  record.getD 244 0

def isMarked (record : Bytes) : Bool :=
  accessed record &&& fileMarked != 0

def filename (record : Bytes) : Bytes :=
  record.takeWhile (· != 0)

/-- The index of a board, of its digest or its attachments, or of a mailbox. -/
inductive Index
  | board
  | digest
  | mail

/-- What happens to an article. -/
inductive Disposal
  /-- `canceltotrash`, with `subflag`. -/
  | cancel (record : Bytes) (subflag : Bool)
  | unlink (name : Bytes)

def dispose (mode : Index) (record : Bytes) : Disposal :=
  match mode with
  | .board => .cancel record (accessed record &&& fileDeleted != 0)
  | .digest | .mail => .unlink (filename record)

/-- The loop, with the number of records of the range that are left: the file, the place behind the
records that are kept, and the records that are not. -/
def rangeLoop : Nat → Nat → Nat → Bytes → Bytes × Nat × List Bytes
  | 0, wptr, _, file => (file, wptr, [])
  | left + 1, wptr, rptr, file =>
    let record := BlockElements.element headerSize file rptr
    if isMarked record then
      rangeLoop left (wptr + 1) (rptr + 1)
        (if wptr = rptr then file else BlockElements.copy file (wptr * headerSize) record)
    else
      let (file, kept, gone) := rangeLoop left wptr (rptr + 1) file
      (file, kept, record :: gone)

/-- `delete_range`; the numbers are those of articles and not negative, and the name of the directory
fits into its buffer. -/
def deleteRange (mode : Index) (index : Bytes) (id1 id2 : Nat) : Int × Bytes × List Disposal :=
  if id2 < id1 ∨ index.length < id2 * headerSize then (-2, index, [])
  else
    let (file, wptr, gone) := rangeLoop (id2 + 1 - id1) (id1 - 1) (id1 - 1) index
    (0,
      mmapTruncate
        (BlockElements.move file (wptr * headerSize) (id2 * headerSize)
          (index.length - headerSize * id2))
        (index.length - headerSize * gone.length),
      gone.map (dispose mode))

/-! ## The loop -/

/-- Records of the length of a `fileheader`. -/
def Whole (records : List Bytes) : Prop :=
  ∀ record ∈ records, record.length = headerSize

theorem Whole.sublist {records some : List Bytes} (whole : Whole records)
    (sub : some.Sublist records) : Whole some :=
  fun record member => whole record (sub.subset member)

theorem Whole.length_flatten {records : List Bytes} (whole : Whole records) :
    records.flatten.length = records.length * headerSize :=
  BlockElements.length_flatten_of_whole whole

/-- A record goes to the front of the gap, which is as long as before. -/
theorem copy_record {front gap record back : Bytes} (width : record.length = headerSize) :
    BlockElements.copy (front ++ gap ++ (record ++ back)) front.length record =
      front ++ record ++ (gap ++ record).drop headerSize ++ back := by
  have parts : front ++ gap ++ (record ++ back) = front ++ (gap ++ record ++ back) := by simp
  have behind : (front ++ (gap ++ record ++ back)).drop (front.length + headerSize) =
      (gap ++ record).drop headerSize ++ back := by
    rw [List.drop_append, List.drop_of_length_le (Nat.le_add_right front.length headerSize),
      List.nil_append, Nat.add_sub_cancel_left, List.drop_append_of_le_length]
    rw [List.length_append, width]
    exact Nat.le_add_left headerSize gap.length
  rw [parts, BlockElements.copy, List.take_left, width, behind]
  simp

/-- Between the two places there is a gap, with what has been passed over or moved away. -/
theorem rangeLoop_spec {wptr rptr : Nat} (front gap : Bytes) {middle : List Bytes} (back : Bytes)
    (whole : Whole middle) (place : front.length = wptr * headerSize)
    (place' : (front ++ gap).length = rptr * headerSize) :
    ∃ gap', rangeLoop middle.length wptr rptr (front ++ gap ++ middle.flatten ++ back) =
        (front ++ (middle.filter isMarked).flatten ++ gap' ++ back,
          wptr + (middle.filter isMarked).length, middle.filter (!isMarked ·)) ∧
      gap'.length + (middle.filter isMarked).length * headerSize =
        gap.length + middle.length * headerSize := by
  induction middle generalizing front gap wptr rptr with
  | nil => exact ⟨gap, by simp [rangeLoop], rfl⟩
  | cons record middle ih =>
    have width : record.length = headerSize := whole record List.mem_cons_self
    have rest : Whole middle := whole.sublist (List.sublist_cons_self record middle)
    have here : BlockElements.element headerSize
        (front ++ gap ++ (record :: middle).flatten ++ back) rptr = record := by
      rw [BlockElements.element, ← place', List.append_assoc (front ++ gap), List.drop_left,
        List.flatten_cons, List.append_assoc, List.take_left' width]
    have next' : (front ++ gap ++ record).length = (rptr + 1) * headerSize := by
      rw [List.length_append, place', width, Nat.succ_mul]
    rw [List.length_cons, rangeLoop, here]
    by_cases marked : isMarked record = true
    · rw [if_pos marked]
      have next : (front ++ record).length = (wptr + 1) * headerSize := by
        rw [List.length_append, place, width, Nat.succ_mul]
      have length_gap : ((gap ++ record).drop headerSize).length = gap.length := by
        rw [List.length_drop, List.length_append, width, Nat.add_sub_cancel]
      have moved : (if wptr = rptr then front ++ gap ++ (record :: middle).flatten ++ back
          else BlockElements.copy (front ++ gap ++ (record :: middle).flatten ++ back)
            (wptr * headerSize) record) =
            front ++ record ++ (gap ++ record).drop headerSize ++ middle.flatten ++ back := by
        split_ifs with same
        · have none : gap = [] := by
            rw [List.length_append, place, same] at place'
            exact List.eq_nil_of_length_eq_zero (by omega)
          subst none
          rw [List.nil_append, ← width, List.drop_length]
          simp
        · rw [List.flatten_cons, List.append_assoc (front ++ gap), List.append_assoc record,
            ← place, copy_record width, ← List.append_assoc]
      have place₁ : (front ++ record ++ (gap ++ record).drop headerSize).length =
          (rptr + 1) * headerSize := by
        rw [List.length_append, length_gap, ← next']
        simp only [List.length_append]
        omega
      obtain ⟨gap', result, widths⟩ := ih (front ++ record) _ rest next place₁
      refine ⟨gap', ?_, ?_⟩
      · rw [moved, result]
        simp [marked, Nat.add_assoc, Nat.add_comm 1]
      · rw [length_gap] at widths
        rw [List.filter_cons_of_pos marked, List.length_cons, Nat.succ_mul, Nat.succ_mul]
        omega
    · rw [if_neg marked]
      have passed : front ++ gap ++ (record :: middle).flatten ++ back =
          front ++ (gap ++ record) ++ middle.flatten ++ back := by simp
      have place₁ : (front ++ (gap ++ record)).length = (rptr + 1) * headerSize := by
        rw [← List.append_assoc, next']
      obtain ⟨gap', result, widths⟩ := ih front (gap ++ record) rest place place₁
      refine ⟨gap', ?_, ?_⟩
      · rw [passed, result]
        simp [marked]
      · rw [List.length_append, width] at widths
        rw [List.filter_cons_of_neg marked, Nat.succ_mul]
        omega

/-! ## The range -/

/-- What is left of the range is marked. -/
theorem deleteRange_spec (mode : Index) {first middle last : List Bytes}
    (whole : Whole (first ++ middle ++ last)) (some : middle ≠ []) {id1 id2 : Nat}
    (begins : id1 = first.length + 1) (ends : id2 = first.length + middle.length) :
    deleteRange mode (first ++ middle ++ last).flatten id1 id2 =
      (0, (first ++ middle.filter isMarked ++ last).flatten,
        (middle.filter (!isMarked ·)).map (dispose mode)) := by
  have positive := List.length_pos_of_ne_nil some
  have wholeFirst : Whole first := whole.sublist (by simp)
  have wholeMiddle : Whole middle := whole.sublist (by simp)
  have total : (first ++ middle ++ last).flatten.length =
      first.length * headerSize + middle.length * headerSize + last.flatten.length := by
    simp only [List.flatten_append, List.length_append, wholeFirst.length_flatten,
      wholeMiddle.length_flatten]
  have last_eq : id2 * headerSize = first.length * headerSize + middle.length * headerSize := by
    rw [ends, Nat.add_mul]
  obtain ⟨gap, result, widths⟩ := rangeLoop_spec first.flatten [] last.flatten wholeMiddle
    wholeFirst.length_flatten (by rw [List.append_nil]; exact wholeFirst.length_flatten)
  have parts : (first ++ middle ++ last).flatten =
      first.flatten ++ [] ++ middle.flatten ++ last.flatten := by simp
  have kept := List.length_eq_length_filter_add (l := middle) isMarked
  have place : (first.length + (middle.filter isMarked).length) * headerSize =
      (first.flatten ++ (middle.filter isMarked).flatten).length := by
    rw [List.length_append, wholeFirst.length_flatten,
      (wholeMiddle.sublist List.filter_sublist).length_flatten, Nat.add_mul]
  have front := place
  rw [Nat.add_mul] at front
  rw [List.length_nil, Nat.zero_add] at widths
  -- the gap is as long as the records that go
  have all : middle.length * headerSize = (middle.filter isMarked).length * headerSize +
      (middle.filter (!isMarked ·)).length * headerSize := by
    rw [kept, Nat.add_mul]
  have behind : id2 * headerSize =
      (first.flatten ++ (middle.filter isMarked).flatten).length + gap.length := by
    omega
  have rest : (first ++ middle ++ last).flatten.length - headerSize * id2 =
      last.flatten.length := by
    rw [total, Nat.mul_comm headerSize, last_eq]
    omega
  have size : (first ++ middle ++ last).flatten.length -
      headerSize * (middle.filter (!isMarked ·)).length =
      (first.flatten ++ (middle.filter isMarked).flatten).length + last.flatten.length := by
    rw [total, Nat.mul_comm headerSize]
    omega
  have count : id2 + 1 - id1 = middle.length := by omega
  have start : id1 - 1 = first.length := by omega
  rw [deleteRange, if_neg (by omega), count, start, rest, parts, result]
  dsimp only
  rw [← parts, size, place, behind, mmapTruncate, BlockElements.take_move]
  have done : first.flatten ++ (middle.filter isMarked).flatten ++ last.flatten =
      (first ++ middle.filter isMarked ++ last).flatten := by simp
  rw [← done]
  generalize first.flatten ++ (middle.filter isMarked).flatten = front
  have moved : (BlockElements.move (front ++ gap ++ last.flatten) front.length
      (front.length + gap.length) last.flatten.length).length =
        (front ++ gap ++ last.flatten).length := by
    apply BlockElements.length_move
    · simp [Nat.add_assoc]
    · simp
  rw [moved, Nat.sub_eq_zero_of_le (by simp), List.replicate_zero, List.append_nil]

/-- What `delete_range` leaves, and which articles go, in their order. -/
theorem deleteRange_records (mode : Index) {records : List Bytes} (whole : Whole records)
    {id1 : Nat} (positive : 1 ≤ id1) (id2 : Nat) :
    deleteRange mode records.flatten id1 id2 =
      if id1 ≤ id2 ∧ id2 ≤ records.length then
        (0,
          (records.take (id1 - 1) ++ ((records.take id2).drop (id1 - 1)).filter isMarked ++
            records.drop id2).flatten,
          (((records.take id2).drop (id1 - 1)).filter (!isMarked ·)).map (dispose mode))
      else (-2, records.flatten, []) := by
  split_ifs with range
  · have split : records.take (id1 - 1) ++ (records.take id2).drop (id1 - 1) ++ records.drop id2 =
        records := by
      have front : records.take (id1 - 1) = (records.take id2).take (id1 - 1) := by
        rw [List.take_take, Nat.min_eq_left (by omega)]
      rw [front, List.take_append_drop, List.take_append_drop]
    have wide : ((records.take id2).drop (id1 - 1)).length = id2 - (id1 - 1) := by
      rw [List.length_drop, List.length_take, Nat.min_eq_left range.2]
    have front : (records.take (id1 - 1)).length = id1 - 1 := by
      rw [List.length_take]
      omega
    have some : (records.take id2).drop (id1 - 1) ≠ [] := by
      rw [← List.length_pos_iff_ne_nil]
      omega
    have begins : id1 = (records.take (id1 - 1)).length + 1 := by omega
    have deleted := deleteRange_spec mode (split.symm ▸ whole) some begins rfl
    rwa [split, front, wide, Nat.add_sub_cancel' (by omega)] at deleted
  · have outside : id2 < id1 ∨ records.flatten.length < id2 * headerSize := by
      rw [whole.length_flatten, Nat.mul_lt_mul_right (by decide)]
      omega
    rw [deleteRange, if_pos outside]

set_option maxRecDepth 4000 in
theorem deleteRange_twoLetters :
    deleteRange .mail
        [[77, 46, 53] ++ List.replicate 253 0,
          [77, 46, 54] ++ List.replicate 241 0 ++ 8 :: List.replicate 11 0].flatten 1 2 =
      (0, [[77, 46, 54] ++ List.replicate 241 0 ++ 8 :: List.replicate 11 0].flatten,
        [.unlink [77, 46, 53]]) :=
  deleteRange_records .mail (by simp [Whole, headerSize]) le_rfl 2

end RangeDeletion

end Fbbs
