import Fbbs.RecordApply
import Fbbs.StableMerge

/-!
# Merging records into a sorted file

`record_merge` of `lib/record.c` sorts an array of records, enlarges a record file for it and
merges both from their ends into the enlarged file.  `qsort` is a parameter, as the order in
which it leaves records with equal keys is not specified.
-/

namespace Fbbs

namespace RecordMerge

open RecordScan RecordApply StableMerge

variable {Record : Type*}

/-- The loop.  A pointer is given by the number of records up to the one that it points to, so
that zero is a pointer before the first record. -/
def mergeLoop (cmp : Record → Record → Int) (ptr : List Record) :
    Nat → List Record → Nat → Nat → Nat → Option (List Record)
  | _, file, _, _, 0 => some file
  | 0, _, _, _, _ + 1 => none
  | fuel + 1, file, src, dst, p2 + 1 =>
    match ptr[p2]? with
    | none => none
    | some inserted =>
      if src = 0 then
        mergeLoop cmp ptr fuel (file.set (dst - 1) inserted) src (dst - 1) p2
      else
        match file[src - 1]? with
        | none => none
        | some record =>
          if cmp record inserted ≤ 0 then
            mergeLoop cmp ptr fuel (file.set (dst - 1) inserted) src (dst - 1) p2
          else
            mergeLoop cmp ptr fuel (file.set (dst - 1) record) (src - 1) (dst - 1)
              (p2 + 1)

/-- `record_merge`; `zero` is a record of null bytes, with which the file is enlarged. -/
def recordMerge (qsort : List Record → List Record) (zero : Record)
    (cmp : Record → Record → Int) (ptr : List Record) (rec : RecordFile Record) :
    Option (List Record) :=
  if ptr = [] then some rec.records
  else if isInt (ptr.length * rec.rlen) then
    mergeLoop cmp (qsort ptr) (rec.records.length + ptr.length)
      (rec.records ++ List.replicate ptr.length zero) rec.records.length
      (rec.records.length + ptr.length) ptr.length
  else none

/-- A comparison function orders the records totally. -/
structure TotalPreorder (cmp : Record → Record → Int) : Prop where
  trans : ∀ a b c, cmp a b ≤ 0 → cmp b c ≤ 0 → cmp a c ≤ 0
  total : ∀ a b, cmp a b ≤ 0 ∨ cmp b a ≤ 0

/-- The file or array is sorted. -/
def Sorted (cmp : Record → Record → Int) (records : List Record) : Prop :=
  records.Pairwise fun a b => cmp a b ≤ 0

/-- What is known of `qsort`. -/
def Sorts (cmp : Record → Record → Int) (qsort : List Record → List Record) : Prop :=
  ∀ records, (qsort records).Perm records ∧ Sorted cmp (qsort records)

def equalKeys (cmp : Record → Record → Int) (a b : Record) : Bool :=
  cmp a b ≤ 0 && cmp b a ≤ 0

/-- A file into which an array has been merged. -/
structure Merged (cmp : Record → Record → Int) (records array file : List Record) : Prop where
  length : file.length = records.length + array.length
  sorted : Sorted cmp file
  perm : file.Perm (records ++ array)
  stable : ∀ key, file.filter (equalKeys cmp key) =
    records.filter (equalKeys cmp key) ++ array.filter (equalKeys cmp key)

section Loop

variable {cmp : Record → Record → Int} {ptr : List Record}

/-- The order that the comparison function gives. -/
def before (cmp : Record → Record → Int) (a b : Record) : Bool :=
  cmp a b ≤ 0

/-- Between the records that have not been read yet and those that have been written, there
is one free place for each record of the array that is left. -/
theorem mergeLoop_eq {fuel p2 : Nat} {records gap written : List Record}
    (enough : records.length + p2 ≤ fuel) (free : gap.length = p2) (inside : p2 ≤ ptr.length) :
    mergeLoop cmp ptr fuel (records ++ gap ++ written) records.length (records.length + p2) p2 =
      some (fromEnd (before cmp) records (ptr.take p2) ++ written) := by
  induction fuel generalizing records gap written p2 with
  | zero =>
    have none : p2 = 0 := by omega
    subst none
    rw [List.eq_nil_of_length_eq_zero free, mergeLoop, List.take_zero, fromEnd_nil_right,
      List.append_nil]
  | succ fuel ih =>
    cases p2 with
    | zero =>
      rw [List.eq_nil_of_length_eq_zero free, mergeLoop, List.take_zero,
        fromEnd_nil_right, List.append_nil]
    | succ p2 =>
      obtain ⟨gap, last, rfl⟩ := List.eq_nil_or_concat' gap |>.resolve_left (by
        rintro rfl
        cases free)
      rw [List.length_append, List.length_singleton, Nat.add_right_cancel_iff] at free
      have inserted := List.getElem?_eq_getElem (show p2 < ptr.length from inside)
      have array : ptr.take (p2 + 1) = ptr.take p2 ++ [ptr[p2]] :=
        (List.take_append_getElem inside).symm
      have place : records.length + (p2 + 1) - 1 = (records ++ gap).length := by
        rw [List.length_append]
        omega
      have writes (record : Record) :
          (records ++ (gap ++ [last]) ++ written).set (records.length + (p2 + 1) - 1)
            record = records ++ gap ++ record :: written := by
        rw [place, ← List.append_assoc records, List.append_assoc (records ++ gap),
          List.set_append_right _ _ (Nat.le_refl _), Nat.sub_self]
        rfl
      rcases List.eq_nil_or_concat' records with rfl | ⟨records, record, rfl⟩
      · -- Only records of the array are left.
        have next := @ih p2 [] gap (ptr[p2] :: written) (by simpa using enough) free
          (Nat.le_of_succ_le inside)
        rw [fromEnd_nil_left, List.append_cons (ptr.take p2)] at next
        rw [List.length_nil, Nat.zero_add] at writes next
        rw [List.length_nil, Nat.zero_add, array, fromEnd_nil_left, mergeLoop]
        simp only [inserted, writes, if_true]
        exact next
      · have reads : (records ++ [record] ++ (gap ++ [last]) ++ written)[records.length]? =
            some record := by
          simp
        have length : (records ++ [record]).length = records.length + 1 :=
          List.length_append
        rw [length] at writes enough ⊢
        rw [mergeLoop]
        simp only [inserted, if_neg (Nat.succ_ne_zero records.length),
          Nat.add_sub_cancel, reads, writes, array]
        by_cases isLast : cmp record ptr[p2] ≤ 0
        · have next := @ih p2 (records ++ [record]) gap (ptr[p2] :: written)
            (by rw [length]; omega) free (Nat.le_of_succ_le inside)
          rw [length, List.append_cons (fromEnd _ _ _)] at next
          rw [if_pos isLast, fromEnd_second (decide_eq_true isLast)]
          exact next
        · have next := @ih (p2 + 1) records (record :: gap) (record :: written)
            (by omega) (congrArg Nat.succ free) inside
          have larger : ¬before cmp record ptr[p2] = true := by
            rw [before, decide_eq_true_eq]
            exact isLast
          have dst : records.length + 1 + (p2 + 1) - 1 = records.length + (p2 + 1) := by
            omega
          rw [array, List.append_cons (fromEnd _ _ _), List.append_cons records] at next
          rw [if_neg isLast, fromEnd_first larger, dst]
          exact next

end Loop

theorem mergeLoop_recordMerge {qsort : List Record → List Record} {zero : Record}
    {cmp : Record → Record → Int} {ptr : List Record} {rec : RecordFile Record}
    (length : (qsort ptr).length = ptr.length) (nonempty : ptr ≠ []) :
    recordMerge qsort zero cmp ptr rec =
      if ptr.length * rec.rlen < 2 ^ 31 then
        some (fromEnd (before cmp) rec.records (qsort ptr))
      else none := by
  have loop := @mergeLoop_eq _ cmp (qsort ptr) (rec.records.length + ptr.length) ptr.length
    rec.records (List.replicate ptr.length zero) [] (Nat.le_refl _) List.length_replicate
    (Nat.le_of_eq length.symm)
  rw [List.append_nil, List.append_nil, List.take_of_length_le (Nat.le_of_eq length)] at loop
  rw [recordMerge, if_neg nonempty, isInt_mul, loop]
  simp only [decide_eq_true_eq]

/-- A merge from the ends merges the array into the file. -/
theorem merged_fromEnd {cmp : Record → Record → Int} (order : TotalPreorder cmp)
    {records array : List Record} (sorted : Sorted cmp records) (sorted' : Sorted cmp array) :
    Merged cmp records array (fromEnd (before cmp) records array) := by
  have trans : ∀ a b c, before cmp a b = true → before cmp b c = true →
      before cmp a c = true := by
    simpa only [before, decide_eq_true_eq] using order.trans
  have total : ∀ a b, before cmp a b = true ∨ before cmp b a = true := by
    simpa only [before, decide_eq_true_eq] using order.total
  have isSorted {list : List Record} :
      list.Pairwise (before cmp · · = true) ↔ Sorted cmp list := by
    simp only [before, decide_eq_true_eq, Sorted]
  have perm := @fromEnd_perm _ (before cmp) records array
  refine ⟨?_, ?_, perm, ?_⟩
  · rw [perm.length_eq, List.length_append]
  · exact isSorted.mp (fromEnd_sorted trans total (isSorted.mpr sorted) (isSorted.mpr sorted'))
  · exact filter_fromEnd trans total (isSorted.mpr sorted')

/-- Merging an array into a sorted file gives a sorted file of both, in which old records
stand before inserted ones with equal keys, exactly if the size of the array is an `int`. -/
theorem recordMerge_merged_iff {cmp : Record → Record → Int} (order : TotalPreorder cmp)
    {qsort : List Record → List Record} (sorts : Sorts cmp qsort) (zero : Record)
    {rec : RecordFile Record} (sorted : Sorted cmp rec.records) {ptr : List Record}
    (nonempty : ptr ≠ []) :
    (∃ file, recordMerge qsort zero cmp ptr rec = some file ∧
        file.length = rec.records.length + ptr.length ∧ file.Perm (rec.records ++ ptr) ∧
        Merged cmp rec.records (qsort ptr) file) ↔
      ptr.length * rec.rlen < 2 ^ 31 := by
  obtain ⟨perm, sorted'⟩ := sorts ptr
  rw [mergeLoop_recordMerge perm.length_eq nonempty]
  by_cases small : ptr.length * rec.rlen < 2 ^ 31
  · have merged := merged_fromEnd order sorted sorted'
    rw [if_pos small]
    refine iff_of_true ⟨_, rfl, ?_, ?_, merged⟩ small
    · rw [merged.length, perm.length_eq]
    · exact merged.perm.trans (perm.append_left rec.records)
  · rw [if_neg small]
    exact iff_of_false (fun ⟨_, overflows, _⟩ => nomatch overflows) small

/-- Three records are merged into a file of two. -/
theorem twoRecords_merged :
    ∃ file, recordMerge (List.insertionSort (· ≤ ·)) 0 (· - ·) [6, 4, 7] twoRecords = some file ∧
      file = [4, 5, 6, 6, 7] ∧
      Merged (· - ·) twoRecords.records (List.insertionSort (· ≤ ·) [6, 4, 7]) file := by
  have order : TotalPreorder fun a b : Int => a - b :=
    ⟨fun a b c ab bc => by omega, fun a b => by omega⟩
  have sorts : Sorts (fun a b : Int => a - b) (List.insertionSort (· ≤ ·)) := by
    intro records
    refine ⟨List.perm_insertionSort _ records, ?_⟩
    apply (List.pairwise_insertionSort (· ≤ ·) records).imp
    intro a b le
    change a - b ≤ 0
    omega
  have sorted : Sorted (fun a b : Int => a - b) twoRecords.records := by
    change [(5 : Int), 6].Pairwise _
    decide
  obtain ⟨file, merges, -, -, merged⟩ := (recordMerge_merged_iff order sorts 0 sorted
    (List.cons_ne_nil 6 [4, 7])).mpr (by decide)
  exact ⟨file, merges, (Option.some.inj (merges.symm.trans rfl)), merged⟩

/-- The size of an array of two gigabytes is not an `int`, and nothing is merged. -/
theorem largeArray_not_merged :
    ¬∃ file, recordMerge (List.insertionSort (· ≤ ·)) 0 (· - ·)
      (List.replicate 524288 (6 : Int)) threeRecords = some file := by
  have nonempty : List.replicate 524288 (6 : Int) ≠ [] :=
    fun empty => absurd ((List.replicate_eq_nil_iff 6).mp empty) (by decide)
  have large : ¬524288 * threeRecords.rlen < 2 ^ 31 := by decide
  rw [mergeLoop_recordMerge (List.length_insertionSort _ _) nonempty, List.length_replicate,
    if_neg large]
  rintro ⟨file, merges⟩
  cases merges

end RecordMerge

end Fbbs
