import Fbbs.BlockElements
import Fbbs.RecordSearch
import Mathlib.Tactic.ByContra
import Mathlib.Tactic.SplitIfs

/-!
# Deleting and inserting one record

`delete_record` and `insert_record` of `src/lib/record.c`, which move the end of a mapped file by
one record.  Records are counted from one, and places in the file are products of `int`s: one that
overflows is undefined, which is `none` here.
-/

namespace Fbbs

namespace RecordEdits

open RecordScan (isInt isInt_ofNat)

abbrev Bytes := List UInt8

/-- A file of records of one length. -/
structure WholeRecords where
  size : Nat
  records : List Bytes
  size_pos : 0 < size
  whole : ∀ record ∈ records, record.length = size

def WholeRecords.bytes (file : WholeRecords) : Bytes :=
  file.records.flatten

/-- `mmap_truncate`: the bytes that a file is enlarged by are zero. -/
def mmapTruncate (file : Bytes) (size : Nat) : Bytes :=
  file.take size ++ List.replicate (size - file.length) 0

/-- `memmove`; the result is `none` if the move leaves the file. -/
def memmove (file : Bytes) (dest src count : Nat) : Option Bytes :=
  if src + count ≤ file.length ∧ dest + count ≤ file.length then
    some (BlockElements.move file dest src count)
  else none

/-- The search of `delete_record` for a record that is accepted, with the number of those that are
left and the index, which is less than `id` by one. -/
def searchLoop (size : Nat) (check : Bytes → Bool) (file : Bytes) :
    Nat → Nat → Option (Option Nat)
  | 0, _ => some none
  | left + 1, index =>
    if isInt ((index * size : Nat) : Int) then
      if check (BlockElements.element size file index) then some (some index)
      else if isInt ((index + 2 : Nat) : Int) then searchLoop size check file left (index + 1)
      else none
    else none

/-- The end of `delete_record`. -/
def removeAt (size : Nat) (file : Bytes) : Option Nat → Option (Int × Bytes)
  | none => some (-2, file)
  | some index =>
    if isInt (((index + 1) * size : Nat) : Int) then
      (memmove file (index * size) ((index + 1) * size) (file.length - size * (index + 1))).map
        fun moved => (0, mmapTruncate moved (file.length - size))
    else none

/-- A number of records as an `int`, if that is positive. -/
@[irreducible]
def recordCount (count : Nat) : Nat :=
  ((count : Int).bmod (2 ^ 32)).toNat

/-- The index of the record that is deleted: the one with this index, or the first that is
accepted. -/
def indexToDelete (size : Nat) (file : Bytes) (index : Nat) :
    Option (Bytes → Bool) → Option (Option Nat)
  | none => some (some index)
  | some check =>
    if check (BlockElements.element size file index) then some (some index)
    else searchLoop size check file (recordCount (file.length / size)) 0

/-- `delete_record`, and the file afterwards. -/
def deleteRecord (size : Nat) (id : Int) (check : Option (Bytes → Bool)) (file : Bytes) :
    Option (Int × Bytes) :=
  if id ≤ 0 then some (0, file)
  else if !isInt (id * size) then none
  else if id * size > file.length then some (-2, file)
  else (indexToDelete size file (id - 1).toNat check).bind (removeAt size file)

/-- The loop of `insert_record`. -/
def insertPlace (size : Nat) (check : Bytes → Bool) (file : Bytes) (last : Nat) :
    Nat → Nat → Option Nat
  | 0, _ => none
  | fuel + 1, iter =>
    if iter = last then some iter
    else if check ((file.drop iter).take size) then some iter
    else insertPlace size check file last fuel (iter + size)

/-- The end of `insert_record`, with the file enlarged. -/
def insertAt (size : Nat) (arg grown : Bytes) (iter : Nat) : Option (Int × Bytes) :=
  (if iter = grown.length - size then some grown
    else memmove grown (iter + size) iter (grown.length - size - iter)).map fun moved =>
      (0, BlockElements.copy moved iter arg)

def insertInto (size : Nat) (check : Bytes → Bool) (arg grown : Bytes) : Option (Int × Bytes) :=
  (insertPlace size check grown (grown.length - size) (grown.length + 1) 0).bind
    (insertAt size arg grown)

/-- `insert_record`, and the file afterwards. -/
def insertRecord (size : Nat) (check : Option (Bytes → Bool)) (arg : Option Bytes)
    (file : Bytes) : Option (Int × Bytes) :=
  match check, arg with
  | some check, some arg => insertInto size check arg (mmapTruncate file (file.length + size))
  | _, _ => some (-1, file)

/-! ## What is to be done -/

/-- The result and the records, when the first record that is accepted is deleted. -/
def deletedFirst (records : List Bytes) (check : Bytes → Bool) : Int × List Bytes :=
  match records.findIdx? check with
  | none => (-2, records)
  | some index => (0, records.eraseIdx index)

/-- The result and the records, when the record with this number is deleted, or the first that is
accepted if this one is not. -/
def deleted (records : List Bytes) (check : Option (Bytes → Bool)) (id : Nat) :
    Int × List Bytes :=
  match records[id - 1]? with
  | none => (-2, records)
  | some record =>
    match check with
    | none => (0, records.eraseIdx (id - 1))
    | some check =>
      if check record then (0, records.eraseIdx (id - 1)) else deletedFirst records check

/-- The record is put before the first one that is accepted. -/
def inserted (records : List Bytes) (check : Bytes → Bool) (record : Bytes) : List Bytes :=
  records.takeWhile (!check ·) ++ record :: records.dropWhile (!check ·)

def DeletesWell (file : WholeRecords) (check : Option (Bytes → Bool)) (id : Nat) : Prop :=
  deleteRecord file.size id check file.bytes =
    some ((deleted file.records check id).1, (deleted file.records check id).2.flatten)

/-- The record is inserted at its place, and records stay sorted if those are accepted that are
greater than the new one. -/
structure InsertsWell (file : WholeRecords) (check : Bytes → Bool) (record : Bytes) : Prop where
  place : insertRecord file.size (some check) (some record) file.bytes =
    some (0, (inserted file.records check record).flatten)
  sorted : ∀ le : Bytes → Bytes → Prop, (∀ a b, le a b ∨ le b a) →
    (∀ a b c, le a b → le b c → le a c) → (∀ other, check other = true ↔ ¬le other record) →
      file.records.Pairwise le → (inserted file.records check record).Pairwise le

/-- No place of the search for an accepted record overflows, up to the end of the one found. -/
def SearchFits (size : Nat) (check : Bytes → Bool) : Nat → List Bytes → Prop
  | _, [] => True
  | index, record :: records =>
    index * size < 2 ^ 31 ∧
      if check record then (index + 1) * size < 2 ^ 31
      else index + 2 < 2 ^ 31 ∧ SearchFits size check (index + 1) records

/-- The records that are looked through. -/
def WholeRecords.searched (file : WholeRecords) : List Bytes :=
  file.records.take (recordCount file.records.length)

/-- The end of the record with this number does not overflow.  If it is not accepted, the search
does not overflow either, and it does not end before the first accepted one. -/
def Fits (file : WholeRecords) (check : Option (Bytes → Bool)) (id : Nat) : Prop :=
  id * file.size < 2 ^ 31 ∧
    ∀ accepts record, check = some accepts → file.records[id - 1]? = some record →
      accepts record = false →
        SearchFits file.size accepts 0 file.searched ∧
          (file.records.any accepts → file.searched.any accepts)

section Deleting

variable (file : WholeRecords)

theorem length_bytes : file.bytes.length = file.records.length * file.size :=
  BlockElements.length_flatten_of_whole file.whole

theorem take_recordCount :
    file.records.take (recordCount (file.bytes.length / file.size)) = file.searched := by
  rw [length_bytes, Nat.mul_div_cancel _ file.size_pos, WholeRecords.searched]

variable {file}

theorem element_bytes {index : Nat} {record : Bytes} (found : file.records[index]? = some record) :
    BlockElements.element file.size file.bytes index = record :=
  BlockElements.element_flatten_of_whole file.whole found

/-- The end of a file is moved over a part of it. -/
theorem removeAt_parts {size index : Nat} (front gone back : Bytes)
    (place : front.length = index * size) (width : gone.length = size)
    (fits : (index + 1) * size < 2 ^ 31) :
    removeAt size (front ++ gone ++ back) (some index) = some (0, front ++ back) := by
  have next : (index + 1) * size = front.length + gone.length := by
    rw [place, width, Nat.succ_mul]
  have length : (front ++ gone ++ back).length = front.length + gone.length + back.length := by
    rw [List.length_append, List.length_append]
  have count : (front ++ gone ++ back).length - size * (index + 1) = back.length := by
    rw [Nat.mul_comm size, next, length, Nat.add_sub_cancel_left]
  have rest : (front ++ gone ++ back).length - size = front.length + back.length := by
    rw [length]
    omega
  have target : front.length + back.length ≤ (front ++ gone ++ back).length := by
    rw [length]
    omega
  have source : front.length + gone.length + back.length ≤ (front ++ gone ++ back).length :=
    Nat.le_of_eq length.symm
  have shorter : (front ++ gone ++ back).length - size -
      (BlockElements.move (front ++ gone ++ back) front.length (front.length + gone.length)
        back.length).length = 0 := by
    rw [BlockElements.length_move source target]
    omega
  rw [removeAt, isInt_ofNat, if_pos (decide_eq_true fits), count, next, ← place, memmove,
    if_pos ⟨source, target⟩, Option.map_some, mmapTruncate, shorter, List.replicate_zero,
    List.append_nil, rest, BlockElements.take_move]

theorem removeAt_eq {index : Nat} {record : Bytes} (found : file.records[index]? = some record)
    (fits : (index + 1) * file.size < 2 ^ 31) :
    removeAt file.size file.bytes (some index) =
      some (0, (file.records.eraseIdx index).flatten) := by
  obtain ⟨inside, rfl⟩ := List.getElem?_eq_some_iff.mp found
  have split : file.bytes = (file.records.take index).flatten ++ file.records[index] ++
      (file.records.drop (index + 1)).flatten := by
    rw [List.append_assoc, ← List.flatten_cons, ← List.drop_eq_getElem_cons inside,
      ← List.flatten_append, List.take_append_drop]
    rfl
  have place : (file.records.take index).flatten.length = index * file.size := by
    rw [BlockElements.length_flatten_of_whole fun other member =>
      file.whole other (List.mem_of_mem_take member), List.length_take, Nat.min_eq_left (by omega)]
  rw [split, removeAt_parts _ _ _ place (file.whole _ (List.getElem_mem inside)) fits,
    List.eraseIdx_eq_take_drop_succ, List.flatten_append]

theorem removeAt_overflows {size index : Nat} (overflow : ¬(index + 1) * size < 2 ^ 31)
    (bytes : Bytes) : removeAt size bytes (some index) = none := by
  rw [removeAt, isInt_ofNat, if_neg (by rwa [decide_eq_true_iff])]

theorem searchLoop_eq {check : Bytes → Bool} {left index : Nat}
    (fits : SearchFits file.size check index ((file.records.drop index).take left))
    (inside : index + left ≤ file.records.length) :
    searchLoop file.size check file.bytes left index =
      some ((((file.records.drop index).take left).findIdx? check).map (· + index)) := by
  induction left generalizing index with
  | zero => rw [searchLoop, List.take_zero, List.findIdx?_nil, Option.map_none]
  | succ left ih =>
    have first : index < file.records.length := by omega
    have found : file.records[index]? = some file.records[index] :=
      List.getElem?_eq_getElem first
    rw [List.drop_eq_getElem_cons first, List.take_succ_cons] at fits ⊢
    obtain ⟨place, later⟩ := fits
    rw [searchLoop, isInt_ofNat, if_pos (decide_eq_true place),
      element_bytes found, List.findIdx?_cons]
    by_cases accepted : check file.records[index] = true
    · rw [if_pos accepted, if_pos accepted, Option.map_some, Nat.zero_add]
    · rw [if_neg accepted] at later
      obtain ⟨next, rest⟩ := later
      rw [if_neg accepted, if_neg accepted, isInt_ofNat, if_pos (decide_eq_true next),
        ih rest (by omega), Option.map_map]
      apply congrArg some
      apply congrFun
      apply congrArg Option.map
      funext place
      exact (Nat.add_right_comm place 1 index).symm

theorem searchLoop_overflows {check : Bytes → Bool} {left index : Nat}
    (overflow : ¬SearchFits file.size check index ((file.records.drop index).take left))
    (inside : index + left ≤ file.records.length) :
    (searchLoop file.size check file.bytes left index).bind (removeAt file.size file.bytes) =
      none := by
  induction left generalizing index with
  | zero => exact absurd trivial overflow
  | succ left ih =>
    have first : index < file.records.length := by omega
    have found : file.records[index]? = some file.records[index] :=
      List.getElem?_eq_getElem first
    rw [List.drop_eq_getElem_cons first, List.take_succ_cons, SearchFits] at overflow
    rw [searchLoop, isInt_ofNat, element_bytes found,
      isInt_ofNat]
    by_cases place : index * file.size < 2 ^ 31
    · rw [if_pos (decide_eq_true place)]
      by_cases accepted : check file.records[index] = true
      · rw [if_pos accepted, Option.bind_some]
        apply removeAt_overflows
        intro last
        exact overflow ⟨place, by rwa [if_pos accepted]⟩
      · rw [if_neg accepted]
        by_cases next : index + 2 < 2 ^ 31
        · rw [if_pos (decide_eq_true next)]
          apply ih _ (by omega)
          intro rest
          exact overflow ⟨place, by rw [if_neg accepted]; exact ⟨next, rest⟩⟩
        · rw [if_neg (by rwa [decide_eq_true_iff]), Option.bind_none]
    · rw [if_neg (by rwa [decide_eq_true_iff]), Option.bind_none]

theorem SearchFits.found {size start index : Nat} {check : Bytes → Bool} {records : List Bytes}
    (fits : SearchFits size check start records) (found : records.findIdx? check = some index) :
    (start + index + 1) * size < 2 ^ 31 := by
  induction records generalizing start index with
  | nil => cases found
  | cons record records ih =>
    obtain ⟨_, later⟩ := fits
    rw [List.findIdx?_cons] at found
    by_cases accepted : check record = true
    · rw [if_pos accepted] at found later
      cases found
      exact later
    · rw [if_neg accepted] at found later
      obtain ⟨before, behind, rfl⟩ := Option.map_eq_some_iff.mp found
      have := ih later.2 behind
      rwa [Nat.add_right_comm start 1 before] at this

theorem toNat_bmod_le (count width : Nat) : ((count : Int).bmod width).toNat ≤ count := by
  have least : count % width ≤ count := Nat.mod_le count width
  rw [Int.bmod_def, ← Int.natCast_emod]
  split <;> omega

theorem recordCount_le (count : Nat) : recordCount count ≤ count := by
  unfold recordCount
  exact toNat_bmod_le count _

theorem recordCount_of_lt {count : Nat} (small : count < 2 ^ 31) : recordCount count = count := by
  have least : count % 2 ^ 32 = count := Nat.mod_eq_of_lt (by omega)
  unfold recordCount
  rw [Int.bmod_def, ← Int.natCast_emod, least, if_pos (by omega), Int.toNat_natCast]

/-- `delete_record` with a positive number, in natural numbers. -/
theorem deleteRecord_of_pos {size id : Nat} (check : Option (Bytes → Bool)) (bytes : Bytes)
    (positive : 1 ≤ id) :
    deleteRecord size (id : Int) check bytes =
      if id * size < 2 ^ 31 then
        if bytes.length < id * size then some (-2, bytes)
        else (indexToDelete size bytes (id - 1) check).bind (removeAt size bytes)
      else none := by
  have place : ((id : Int) - 1).toNat = id - 1 := by omega
  rw [deleteRecord, if_neg (by omega), ← Int.natCast_mul, isInt_ofNat, place]
  by_cases fits : id * size < 2 ^ 31
  · rw [decide_eq_true fits, if_neg (by decide), if_pos fits]
    exact if_congr Int.ofNat_lt rfl rfl
  · rw [decide_eq_false fits, if_neg fits]
    rfl

/-- What `delete_record` does when the product of its arguments fits and the record exists. -/
theorem deleteRecord_eq {check : Option (Bytes → Bool)} {index : Nat}
    (inside : index < file.records.length) (fits : (index + 1) * file.size < 2 ^ 31) :
    deleteRecord file.size ((index + 1 : Nat) : Int) check file.bytes =
      (indexToDelete file.size file.bytes index check).bind (removeAt file.size file.bytes) := by
  have enough : (index + 1) * file.size ≤ file.bytes.length := by
    rw [length_bytes]
    exact Nat.mul_le_mul_right _ inside
  rw [deleteRecord_of_pos _ _ (Nat.succ_pos index), if_pos fits, if_neg (Nat.not_lt_of_le enough),
    Nat.succ_sub_one]

/-- `delete_record` fails as documented when there is no such record. -/
theorem deleteRecord_behind {check : Option (Bytes → Bool)} {id : Nat}
    (behind : file.records.length < id) (fits : id * file.size < 2 ^ 31) :
    deleteRecord file.size (id : Int) check file.bytes = some (-2, file.bytes) := by
  have more : file.bytes.length < id * file.size := by
    rw [length_bytes]
    exact Nat.mul_lt_mul_of_pos_right behind file.size_pos
  rw [deleteRecord_of_pos _ _ (Nat.zero_lt_of_lt behind), if_pos fits, if_pos more]

theorem deleteRecord_overflows {size id : Nat} (check : Option (Bytes → Bool)) (bytes : Bytes)
    (positive : 1 ≤ id) (overflow : ¬id * size < 2 ^ 31) :
    deleteRecord size (id : Int) check bytes = none := by
  rw [deleteRecord_of_pos check bytes positive, if_neg overflow]

theorem findIdx?_eq_none_iff_any {records : List Bytes} {check : Bytes → Bool} :
    records.findIdx? check = none ↔ records.any check = false := by
  rw [← List.findIdx?_isSome, Option.isSome_eq_false_iff, Option.isNone_iff_eq_none]

theorem searched_append :
    file.searched ++ file.records.drop (recordCount file.records.length) = file.records :=
  List.take_append_drop ..

theorem findIdx?_of_searched {check : Bytes → Bool} {index : Nat}
    (found : file.searched.findIdx? check = some index) :
    file.records.findIdx? check = some index := by
  rw [← searched_append, List.findIdx?_append, found, Option.some_or]

/-- Removing what the search finds, compared with the first accepted record. -/
theorem search_iff {check : Bytes → Bool} :
    (searchLoop file.size check file.bytes (recordCount (file.bytes.length / file.size)) 0).bind
        (removeAt file.size file.bytes) =
      some ((deletedFirst file.records check).1, (deletedFirst file.records check).2.flatten) ↔
    SearchFits file.size check 0 file.searched ∧
      (file.records.any check → file.searched.any check) := by
  have count : recordCount (file.bytes.length / file.size) ≤ file.records.length := by
    rw [length_bytes, Nat.mul_div_cancel _ file.size_pos]
    exact recordCount_le _
  have searched : (file.records.drop 0).take (recordCount (file.bytes.length / file.size)) =
      file.searched := by
    rw [List.drop_zero, take_recordCount]
  by_cases fits : SearchFits file.size check 0 file.searched
  · rw [searchLoop_eq (by rwa [searched]) (by omega), searched, deletedFirst, Option.bind_some]
    cases found : file.searched.findIdx? check with
    | some index =>
      have early : file.searched.any check = true := by
        rw [← List.findIdx?_isSome, found, Option.isSome_some]
      have last := fits.found found
      rw [Nat.zero_add] at last
      have inside : index < file.records.length :=
        (List.findIdx?_eq_some_iff_getElem.mp (findIdx?_of_searched found)).1
      rw [findIdx?_of_searched found, Option.map_some, Nat.add_zero,
        removeAt_eq (List.getElem?_eq_getElem inside) last]
      exact iff_of_true rfl ⟨fits, fun _ => early⟩
    | none =>
      have late := findIdx?_eq_none_iff_any.mp found
      rw [Option.map_none, removeAt, late]
      cases all : file.records.findIdx? check with
      | none =>
        rw [findIdx?_eq_none_iff_any.mp all]
        exact iff_of_true rfl ⟨fits, id⟩
      | some index =>
        have accepted : file.records.any check = true := by
          rw [← List.findIdx?_isSome, all, Option.isSome_some]
        rw [accepted]
        apply iff_of_false
        · intro same
          cases congrArg Prod.fst (Option.some.inj same)
        · rintro ⟨_, complete⟩
          cases complete rfl
  · rw [searchLoop_overflows (by rwa [searched]) (by omega)]
    exact iff_of_false (fun same => nomatch same) fun condition => fits condition.1

/-- When `delete_record` does as it is to do. -/
theorem deletesWell_iff {check : Option (Bytes → Bool)} {id : Nat} (positive : 1 ≤ id) :
    DeletesWell file check id ↔ Fits file check id := by
  by_cases fits : id * file.size < 2 ^ 31
  · by_cases inside : id ≤ file.records.length
    · obtain ⟨index, rfl⟩ := Nat.exists_eq_add_of_le' positive
      have found : file.records[index]? = some file.records[index] :=
        List.getElem?_eq_getElem inside
      rw [DeletesWell, deleteRecord_eq inside fits, deleted, Nat.add_sub_cancel, found]
      cases check with
      | none =>
        apply iff_of_true
        · exact removeAt_eq found fits
        · exact ⟨fits, fun accepts record given => nomatch given⟩
      | some check =>
        rw [indexToDelete, element_bytes found]
        by_cases accepted : check file.records[index] = true
        · rw [if_pos accepted, Option.bind_some]
          simp only [accepted, if_true]
          apply iff_of_true
          · exact removeAt_eq found fits
          · use fits
            rintro _ _ ⟨⟩ same rejected
            rw [Nat.add_sub_cancel, found] at same
            cases same
            cases accepted.symm.trans rejected
        · simp only [accepted, if_false, Bool.false_eq_true]
          rw [search_iff]
          constructor
          · intro searches
            use fits
            rintro _ _ ⟨⟩ _ _
            exact searches
          · intro condition
            exact condition.2 check _ rfl found (Bool.not_eq_true _ ▸ accepted)
    · have behind : file.records[id - 1]? = none := List.getElem?_eq_none (by omega)
      rw [DeletesWell, deleteRecord_behind (by omega) fits, deleted, behind]
      apply iff_of_true rfl
      use fits
      intro accepts record _ found
      rw [behind] at found
      cases found
  · rw [DeletesWell, deleteRecord_overflows check file.bytes positive fits]
    exact iff_of_false (fun same => nomatch same) fun condition => fits condition.1

end Deleting

section Inserting

variable {check : Bytes → Bool} {record : Bytes}

theorem inserted_cons (other : Bytes) (records : List Bytes) :
    inserted (other :: records) check record =
      if check other then record :: other :: records
      else other :: inserted records check record := by
  rw [inserted, List.takeWhile_cons, List.dropWhile_cons]
  by_cases accepted : check other = true
  · rw [if_neg (by rw [accepted]; decide), if_neg (by rw [accepted]; decide), if_pos accepted,
      List.nil_append]
  · rw [Bool.not_eq_true] at accepted
    rw [accepted, Bool.not_false, if_pos rfl, if_pos rfl, if_neg (by decide), List.cons_append,
      inserted]

theorem mem_inserted {other : Bytes} {records : List Bytes} :
    other ∈ inserted records check record ↔ other = record ∨ other ∈ records := by
  have parts : other ∈ records ↔
      other ∈ records.takeWhile (!check ·) ∨ other ∈ records.dropWhile (!check ·) := by
    rw [← List.mem_append, List.takeWhile_append_dropWhile]
  rw [inserted, List.mem_append, List.mem_cons, parts]
  exact or_left_comm

/-- Records stay in order if those are accepted that are not below the new one. -/
theorem pairwise_inserted {le : Bytes → Bytes → Prop} (total : ∀ a b, le a b ∨ le b a)
    (trans : ∀ a b c, le a b → le b c → le a c)
    (greater : ∀ other, check other = true ↔ ¬le other record) {records : List Bytes}
    (sorted : records.Pairwise le) : (inserted records check record).Pairwise le := by
  induction sorted with
  | nil => exact List.pairwise_singleton le record
  | @cons other records above sorted ih =>
    rw [inserted_cons]
    by_cases accepted : check other = true
    · rw [if_pos accepted]
      have below : le record other :=
        (total record other).resolve_right ((greater other).mp accepted)
      apply List.Pairwise.cons
      · intro later member
        rcases List.mem_cons.mp member with rfl | member
        · exact below
        · exact trans _ _ _ below (above later member)
      · exact List.Pairwise.cons above sorted
    · rw [if_neg accepted]
      have below : le other record := by
        by_contra high
        exact accepted ((greater other).mpr high)
      apply List.Pairwise.cons
      · intro later member
        rcases mem_inserted.mp member with rfl | member
        · exact below
        · exact above later member
      · exact ih

/-- The place of a new record is behind the records that are not accepted. -/
theorem insertPlace_eq {size fuel : Nat} (size_pos : 0 < size) {rest : List Bytes}
    (whole : ∀ record ∈ rest, record.length = size) (front gap : Bytes)
    (enough : rest.length < fuel) :
    insertPlace size check (front ++ rest.flatten ++ gap) (front ++ rest.flatten).length fuel
        front.length =
      some (front ++ (rest.takeWhile (!check ·)).flatten).length := by
  induction rest generalizing front fuel with
  | nil =>
    cases fuel with
    | zero => cases enough
    | succ fuel =>
      rw [insertPlace, List.flatten_nil, List.append_nil, if_pos rfl, List.takeWhile_nil,
        List.flatten_nil, List.append_nil]
  | cons other rest ih =>
    cases fuel with
    | zero => cases enough
    | succ fuel =>
      have length : other.length = size := whole other List.mem_cons_self
      have later : front.length ≠ (front ++ (other :: rest).flatten).length := by
        rw [List.length_append, List.flatten_cons, List.length_append]
        omega
      have first : ((front ++ (other :: rest).flatten ++ gap).drop front.length).take size =
          other := by
        rw [List.append_assoc, List.drop_left, List.flatten_cons, List.append_assoc]
        exact List.take_left' length
      rw [insertPlace, if_neg later, first]
      by_cases accepted : check other = true
      · rw [if_pos accepted, List.takeWhile_cons_of_neg (by rw [accepted]; decide),
          List.flatten_nil, List.append_nil]
      · have parts : front ++ (other :: rest).flatten = front ++ other ++ rest.flatten := by
          rw [List.flatten_cons, List.append_assoc]
        have next : front.length + size = (front ++ other).length := by
          rw [List.length_append, length]
        rw [Bool.not_eq_true] at accepted
        rw [accepted, if_neg (by decide), parts, next,
          ih (fun record member => whole record (List.mem_cons_of_mem other member)) _
            (Nat.lt_of_succ_lt_succ enough),
          List.takeWhile_cons_of_pos (by rw [accepted]; decide), List.flatten_cons,
          List.append_assoc]

/-- Writing a record between two parts of a file. -/
theorem insertAt_eq {size : Nat} (front back gap : Bytes) (whole : gap.length = size)
    (fits : record.length = size) :
    insertAt size record (front ++ back ++ gap) front.length =
      some (0, front ++ record ++ back) := by
  have length : (front ++ back ++ gap).length = front.length + back.length + size := by
    rw [List.length_append, List.length_append, whole]
  have end_eq : front.length + back.length + size - size = front.length + back.length :=
    Nat.add_sub_cancel ..
  have moved : front.length + back.length - front.length = back.length :=
    Nat.add_sub_cancel_left ..
  have room : gap.length = record.length := whole.trans fits.symm
  rw [insertAt, length, end_eq, moved]
  by_cases last : front.length = front.length + back.length
  · have nothing : back = [] := List.eq_nil_of_length_eq_zero (by omega)
    rw [if_pos last, Option.map_some, nothing, List.append_nil, List.append_nil,
      BlockElements.copy_end front gap record room]
  · have inside : front.length + back.length ≤ (front ++ back ++ gap).length ∧
        front.length + size + back.length ≤ (front ++ back ++ gap).length := by
      rw [length]
      omega
    rw [if_neg last, memmove, if_pos inside, Option.map_some, ← fits,
      BlockElements.copy_move front back gap record room]

/-- `insert_record` puts the record before the first one that is accepted. -/
theorem insertRecord_eq (file : WholeRecords) (fits : record.length = file.size) :
    insertRecord file.size (some check) (some record) file.bytes =
      some (0, (inserted file.records check record).flatten) := by
  have parts : (file.records.takeWhile (!check ·)).flatten ++
      (file.records.dropWhile (!check ·)).flatten = file.bytes := by
    rw [← List.flatten_append, List.takeWhile_append_dropWhile]
    rfl
  have grown : mmapTruncate file.bytes (file.bytes.length + file.size) =
      file.bytes ++ List.replicate file.size 0 := by
    rw [mmapTruncate, List.take_of_length_le (Nat.le_add_right _ _), Nat.add_sub_cancel_left]
  have last : (file.bytes ++ List.replicate file.size (0 : UInt8)).length - file.size =
      file.bytes.length := by
    rw [List.length_append, List.length_replicate, Nat.add_sub_cancel]
  have enough : file.records.length <
      (file.bytes ++ List.replicate file.size (0 : UInt8)).length + 1 := by
    have := Nat.le_mul_of_pos_right file.records.length file.size_pos
    rw [List.length_append, length_bytes]
    omega
  have place : insertPlace file.size check (file.bytes ++ List.replicate file.size 0)
      file.bytes.length ((file.bytes ++ List.replicate file.size (0 : UInt8)).length + 1) 0 =
        some (file.records.takeWhile (!check ·)).flatten.length :=
    insertPlace_eq file.size_pos file.whole [] (List.replicate file.size 0) enough
  have result := insertAt_eq (file.records.takeWhile (!check ·)).flatten
    (file.records.dropWhile (!check ·)).flatten (List.replicate file.size 0)
    List.length_replicate fits
  rw [parts] at result
  rw [insertRecord, insertInto, grown, last]
  calc
    _ = (some (file.records.takeWhile (!check ·)).flatten.length).bind
          (insertAt file.size record (file.bytes ++ List.replicate file.size 0)) := by
        exact congrArg (Option.bind · _) place
    _ = some (0, (file.records.takeWhile (!check ·)).flatten ++ record ++
          (file.records.dropWhile (!check ·)).flatten) := by
        rw [Option.bind_some, result]
    _ = some (0, (inserted file.records check record).flatten) := by
        rw [inserted, List.flatten_append, List.flatten_cons, List.append_assoc]

theorem insertsWell (file : WholeRecords) (fits : record.length = file.size) :
    InsertsWell file check record where
  place := insertRecord_eq file fits
  sorted _ total trans greater sorted := pairwise_inserted total trans greater sorted

end Inserting

/-- Deleting does as it is to do exactly if nothing overflows; inserting always does. -/
theorem recordEdits_iff (file : WholeRecords) (check : Option (Bytes → Bool)) (id : Nat)
    (positive : 1 ≤ id) :
    (DeletesWell file check id ∧
      ∀ accepts record, record.length = file.size → InsertsWell file accepts record) ↔
    Fits file check id := by
  rw [deletesWell_iff positive]
  apply and_iff_left
  intro accepts record fits
  exact insertsWell file fits

/-- Three records of two bytes. -/
def threeRecords : WholeRecords where
  size := 2
  records := [[1, 1], [2, 2], [3, 3]]
  size_pos := by decide
  whole := by simp

/-- The third record is deleted, as it is the first that is accepted. -/
theorem thirdRecord_deleted :
    DeletesWell threeRecords (some fun record => record == [3, 3]) 1 ∧
      ∀ accepts record, record.length = threeRecords.size →
        InsertsWell threeRecords accepts record := by
  apply (recordEdits_iff threeRecords (some fun record => record == [3, 3]) 1 (by decide)).mpr
  have searched : threeRecords.searched = [[1, 1], [2, 2], [3, 3]] := by
    rw [WholeRecords.searched, recordCount_of_lt (by decide), List.take_length]
    rfl
  constructor
  · decide
  · rintro _ _ ⟨⟩ _ _
    rw [searched]
    exact ⟨by simp [SearchFits, threeRecords], fun _ => rfl⟩

/-- A file of two gigabytes. -/
def twoGigabytes : WholeRecords where
  size := 256
  records := List.replicate (2 ^ 23) (List.replicate 256 0)
  size_pos := by decide
  whole _ member := by rw [List.eq_of_mem_replicate member, List.length_replicate]

theorem lastRecord_not_deleted :
    twoGigabytes.records.length = 2 ^ 23 ∧ ¬DeletesWell twoGigabytes none (2 ^ 23) := by
  constructor
  · exact List.length_replicate
  · rw [DeletesWell, deleteRecord_overflows none _ (by decide) (by decide)]
    exact nofun

end RecordEdits

end Fbbs
