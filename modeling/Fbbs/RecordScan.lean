import Fbbs.RecordFiles

/-!
# Scans visit each record in its turn

`record_foreach` restarts at the first record only if it could read a whole block at its
offset.  `record_reverse_foreach` reads a whole block at the beginning of the file also when
part of it has been visited already.
-/

namespace Fbbs

namespace RecordScan

open CallbackScan

variable {Record State : Type*}

/-! ## Every record in its turn -/

theorem RecordFile.block_pos (rec : RecordFile Record) : 0 < rec.block :=
  Nat.div_pos rec.rlen_le rec.rlen_pos

/-- The records from an index on, with their indexes. -/
def RecordFile.entriesFrom (rec : RecordFile Record) (offset : Nat) : List (Record × Nat) :=
  (rec.records.drop offset).zipIdx offset

theorem length_recordRead (rec : RecordFile Record) (place count : Nat) :
    (recordRead rec place count).length = min count (rec.records.length - place) := by
  rw [recordRead, List.length_take, List.length_drop]

theorem entriesFrom_of_le {rec : RecordFile Record} {offset : Nat}
    (behind : rec.records.length ≤ offset) : rec.entriesFrom offset = [] := by
  rw [RecordFile.entriesFrom, List.drop_eq_nil_of_le behind]
  rfl

/-- What is read comes first. -/
theorem entriesFrom_eq (rec : RecordFile Record) (offset count : Nat) :
    rec.entriesFrom offset =
      (recordRead rec offset count).zipIdx offset ++
        rec.entriesFrom (offset + (recordRead rec offset count).length) := by
  have parts : rec.records.drop offset = recordRead rec offset count ++
      rec.records.drop (offset + (recordRead rec offset count).length) := by
    have behind : rec.records.drop (offset + (recordRead rec offset count).length) =
        (rec.records.drop offset).drop count := by
      rw [List.drop_drop, length_recordRead]
      by_cases inside : count ≤ rec.records.length - offset
      · rw [Nat.min_eq_left inside]
      · rw [List.drop_eq_nil_of_le (by omega), List.drop_eq_nil_of_le (by omega)]
    rw [behind]
    exact (List.take_append_drop count _).symm
  rw [RecordFile.entriesFrom]
  conv_lhs => rw [parts]
  exact List.zipIdx_append

theorem mem_recordRead {rec : RecordFile Record} {low count : Nat} {entry : Record × Nat} :
    entry ∈ (recordRead rec low count).zipIdx low ↔
      low ≤ entry.2 ∧ entry.2 < low + count ∧ rec.records[entry.2]? = some entry.1 := by
  rw [List.mem_zipIdx_iff_le_and_getElem?_sub, recordRead, List.getElem?_take, List.getElem?_drop]
  constructor
  · rintro ⟨above, found⟩
    split at found
    · rename_i below
      rw [Nat.add_sub_cancel' above] at found
      exact ⟨above, by omega, found⟩
    · cases found
  · rintro ⟨above, below, found⟩
    rw [if_pos (by omega), Nat.add_sub_cancel' above]
    exact ⟨above, found⟩

theorem mem_entriesFrom {rec : RecordFile Record} {start : Nat} {entry : Record × Nat} :
    entry ∈ rec.entriesFrom start ↔ start ≤ entry.2 ∧ rec.records[entry.2]? = some entry.1 := by
  rw [RecordFile.entriesFrom, List.mem_zipIdx_iff_le_and_getElem?_sub, List.getElem?_drop]
  apply and_congr_right
  intro above
  rw [Nat.add_sub_cancel' above]

theorem entriesFrom_cons (rec : RecordFile Record) {i : Nat} {record : Record}
    (found : rec.records[i]? = some record) :
    rec.entriesFrom i = (record, i) :: rec.entriesFrom (i + 1) := by
  obtain ⟨inside, isRecord⟩ := List.getElem?_eq_some_iff.mp found
  rw [RecordFile.entriesFrom, List.drop_eq_getElem_cons inside, isRecord, List.zipIdx_cons]
  rfl

/-- The entry of a record among those from an index on. -/
theorem entriesFrom_split (rec : RecordFile Record) {start i : Nat} {record : Record}
    (above : start ≤ i) (found : rec.records[i]? = some record) :
    ∃ before, rec.entriesFrom start = before ++ (record, i) :: rec.entriesFrom (i + 1) ∧
      ∀ entry ∈ before, start ≤ entry.2 ∧ entry.2 < i ∧ rec.records[entry.2]? = some entry.1 := by
  have inside := (List.getElem?_eq_some_iff.mp found).1
  refine ⟨(recordRead rec start (i - start)).zipIdx start, ?_, fun entry member => ?_⟩
  · rw [entriesFrom_eq rec start (i - start), length_recordRead,
      show start + min (i - start) (rec.records.length - start) = i by omega,
      entriesFrom_cons rec found]
  · obtain ⟨low, high, here⟩ := mem_recordRead.mp member
    exact ⟨low, by omega, here⟩

section Foreach

variable {callback : State → Record × Nat → Reply × State} {rec : RecordFile Record}
  {greater : Record → Bool} {scan : Scan State (Record × Nat)}

/-- The loop once the first record has been compared. -/
theorem foreachLoop_checked {fuel place : Nat} (running : scan.stopped = false)
    (enough : rec.records.length < place + fuel) :
    foreachLoop callback rec greater fuel true place place scan =
      visitAll callback scan (rec.entriesFrom place) := by
  induction fuel generalizing place scan with
  | zero =>
    rw [foreachLoop, entriesFrom_of_le (by omega)]
    rfl
  | succ fuel ih =>
    have positive := rec.block_pos
    have length := length_recordRead rec place rec.block
    rw [entriesFrom_eq rec place rec.block, foreachLoop]
    simp only [Bool.not_true, Bool.false_and, Bool.false_eq_true, if_false]
    generalize recordRead rec place rec.block = buf at length
    by_cases stopped : (visitAll callback scan (buf.zipIdx place)).stopped = true
    · rw [if_pos stopped, visitAll_append_of_stopped stopped]
    rw [if_neg stopped, visitAll_append]
    by_cases full : buf.length = rec.block
    · rw [if_pos full, ih (Bool.eq_false_iff.mpr stopped) (by omega)]
    · rw [if_neg full, entriesFrom_of_le (by omega)]
      rfl

/-- The first block decides about a restart. -/
theorem foreachLoop_restart {fuel place offset : Nat} (running : scan.stopped = false)
    (enough : rec.records.length < fuel)
    (restart : ∀ record ∈ rec.records[place]?, greater record = true) :
    foreachLoop callback rec greater (fuel + 1) false place offset scan =
      if place + rec.block ≤ rec.records.length then
        visitAll callback scan (rec.entriesFrom 0)
      else scan := by
  have positive := rec.block_pos
  have length := length_recordRead rec place rec.block
  have head : (recordRead rec place rec.block).head? = rec.records[place]? := by
    rw [recordRead, List.head?_take, if_neg (by omega), List.head?_drop]
  have restarts : ((recordRead rec place rec.block).isEmpty ||
      (recordRead rec place rec.block).head?.any greater) = true := by
    rw [head]
    cases found : rec.records[place]? with
    | none =>
      rw [found] at head
      rw [List.head?_eq_none_iff.mp head]
      rfl
    | some record =>
      have compared := restart record found
      rw [Option.any_some, compared, Bool.or_true]
  rw [foreachLoop]
  simp only [Bool.not_false, Bool.true_and, restarts, if_true, length]
  by_cases whole : place + rec.block ≤ rec.records.length
  · rw [if_pos (by omega), if_pos whole]
    exact foreachLoop_checked running (by omega)
  · rw [if_neg (by omega), if_neg whole]

/-- The first record need not be compared, or is not greater. -/
theorem foreachLoop_keeps {fuel place : Nat} {checked : Bool} (running : scan.stopped = false)
    (enough : rec.records.length < place + fuel)
    (keeps : checked = true ∨ ∃ record, rec.records[place]? = some record ∧
      greater record = false) :
    foreachLoop callback rec greater fuel checked place place scan =
      visitAll callback scan (rec.entriesFrom place) := by
  rw [← foreachLoop_checked running enough]
  cases fuel with
  | zero => rfl
  | succ fuel =>
    rcases keeps with rfl | ⟨record, found, notGreater⟩
    · rfl
    · have positive := rec.block_pos
      have head : (recordRead rec place rec.block).head? = some record := by
        rw [recordRead, List.head?_take, if_neg (by omega), List.head?_drop, found]
      have goesOn : ((recordRead rec place rec.block).isEmpty ||
          (recordRead rec place rec.block).head?.any greater) = false := by
        rw [head, Option.any_some, notGreater, Bool.or_false]
        obtain ⟨rest, buffer⟩ := List.head?_eq_some_iff.mp head
        rw [buffer]
        rfl
      rw [foreachLoop, foreachLoop]
      simp only [goesOn, Bool.and_false]

/-- The record at which the scan should start. -/
def startOf (cmp : Record → Record → Int) (ptr : Option Record) (offset : Nat)
    (rec : RecordFile Record) : Nat :=
  match ptr with
  | none => offset
  | some other => if rec.records[offset]?.any (cmp · other ≤ 0) then offset else 0

/-- The scan starts at the offset, or there is nothing to scan, or a whole block can be read
at the offset, so that the test at the end of the loop lets the scan restart. -/
def StartsWell (cmp : Record → Record → Int) (ptr : Option Record) (offset : Nat)
    (rec : RecordFile Record) : Prop :=
  ptr = none ∨ (∃ other record, ptr = some other ∧ rec.records[offset]? = some record ∧
    cmp record other ≤ 0) ∨ rec.records = [] ∨ offset + rec.block ≤ rec.records.length

theorem recordSeek_ofNat (rec : RecordFile Record) (place offset : Nat) :
    recordSeek rec place offset = if offset * rec.rlen < 2 ^ 31 then some offset else none := by
  have fits : isInt (offset * rec.rlen) = true ↔ offset * rec.rlen < 2 ^ 31 :=
    decide_eq_true_iff
  rw [recordSeek, if_neg (Int.not_lt.mpr (Int.natCast_nonneg offset)), Int.toNat_natCast]
  exact if_congr fits rfl rfl

/-- The loop visits the records from the right one on exactly if it starts well. -/
theorem foreachLoop_eq_iff {cmp : Record → Record → Int} {ptr : Option Record} {offset : Nat}
    (running : scan.stopped = false) :
    foreachLoop callback rec (fun record => ptr.any fun other => cmp record other > 0)
        (rec.records.length + 2) ptr.isNone offset offset scan =
      visitAll callback scan (rec.entriesFrom (startOf cmp ptr offset rec)) ↔
      StartsWell cmp ptr offset rec := by
  cases ptr with
  | none =>
    apply iff_of_true _ (.inl rfl)
    exact foreachLoop_keeps running (by omega) (.inl rfl)
  | some other =>
    by_cases keeps : ∃ record, rec.records[offset]? = some record ∧ cmp record other ≤ 0
    · obtain ⟨record, found, notGreater⟩ := keeps
      have start : startOf cmp (some other) offset rec = offset := by
        simp [startOf, found, notGreater]
      rw [start]
      apply iff_of_true _ (.inr (.inl ⟨other, record, rfl, found, notGreater⟩))
      exact foreachLoop_keeps running (by omega)
        (.inr ⟨record, found, by simpa using notGreater⟩)
    · have start : startOf cmp (some other) offset rec = 0 := by
        rw [startOf, if_neg]
        intro any
        cases found : rec.records[offset]? with
        | none => simp [found] at any
        | some record => exact keeps ⟨record, found, by simpa [found] using any⟩
      have restart : ∀ record ∈ rec.records[offset]?,
          ((some other).any fun other => decide (cmp record other > 0)) = true := by
        intro record found
        have greater := not_exists.mp keeps record
        simp_all
      rw [start, Option.isNone_some, foreachLoop_restart running (by omega) restart]
      have wellIff : StartsWell cmp (some other) offset rec ↔
          rec.records = [] ∨ offset + rec.block ≤ rec.records.length := by
        rw [StartsWell, or_iff_right (by simp), or_iff_right]
        rintro ⟨_, record, same, found, notGreater⟩
        obtain rfl := Option.some.inj same
        exact keeps ⟨record, found, notGreater⟩
      rw [wellIff]
      by_cases whole : offset + rec.block ≤ rec.records.length
      · rw [if_pos whole]
        exact iff_of_true rfl (.inr whole)
      · rw [if_neg whole, or_iff_left whole]
        -- Nothing is visited, which is right for an empty file only.
        cases records : rec.records with
        | nil =>
          apply iff_of_true _ rfl
          rw [entriesFrom_of_le (by rw [records]; exact Nat.zero_le 0)]
          rfl
        | cons first rest =>
          apply iff_of_false _ (List.cons_ne_nil first rest)
          rw [RecordFile.entriesFrom, records]
          exact (visitAll_cons_ne running _ _).symm

/-- `record_foreach` calls the callback on the records from the right one on, until it
breaks, exactly if the position is an `int` and the scan starts well. -/
theorem recordForeach_eq_iff (callback : State → Record × Nat → Reply × State)
    (cmp : Record → Record → Int) (ptr : Option Record) (offset : Nat) (args : State)
    (rec : RecordFile Record) :
    recordForeach callback cmp ptr offset args rec =
        some (visitAll callback (.start args) (rec.entriesFrom (startOf cmp ptr offset rec))) ↔
      offset * rec.rlen < 2 ^ 31 ∧ StartsWell cmp ptr offset rec := by
  rw [recordForeach, recordSeek_ofNat]
  by_cases fits : offset * rec.rlen < 2 ^ 31
  · rw [if_pos fits, Option.map_some, Option.some.injEq, foreachLoop_eq_iff rfl, and_iff_right fits]
  · rw [if_neg fits]
    exact iff_of_false (Option.some_ne_none _).symm fun well => fits well.1

/-- A scan without a record to compare with, or with one that has not moved, starts at its
offset. -/
theorem recordForeach_at (callback : State → Record × Nat → Reply × State)
    {cmp : Record → Record → Int} {ptr : Option Record} {offset : Nat} (args : State)
    {rec : RecordFile Record}
    (keeps : ∀ other ∈ ptr, ∃ record, rec.records[offset]? = some record ∧ cmp record other ≤ 0) :
    recordForeach callback cmp ptr offset args rec =
      if offset * rec.rlen < 2 ^ 31 then
        some (visitAll callback (.start args) (rec.entriesFrom offset))
      else none := by
  rw [recordForeach, recordSeek_ofNat]
  by_cases fits : offset * rec.rlen < 2 ^ 31
  · rw [if_pos fits, if_pos fits, Option.map_some, Option.some.injEq]
    apply foreachLoop_keeps rfl (by omega)
    cases ptr with
    | none => exact .inl rfl
    | some other =>
      obtain ⟨record, found, notGreater⟩ := keeps other rfl
      exact .inr ⟨record, found, by simpa using notGreater⟩
  · rw [if_neg fits, if_neg fits]
    rfl

end Foreach

/-- Two records of eight bytes. -/
def twoRecords : RecordFile Int where
  records := [5, 6]
  rlen := 8
  rlen_pos := Nat.zero_lt_succ 7
  rlen_le := Nat.le_of_ble_eq_true rfl
  count_lt := Nat.lt_of_sub_eq_succ rfl

/-- The scan should go back to the first record, and ends instead. -/
theorem twoRecords_not_visited :
    recordForeach (fun calls entry => (.found, entry :: calls)) (· - ·) (some 4)
        1 [] twoRecords ≠
      some (visitAll (fun calls entry => (.found, entry :: calls)) (.start [])
        (twoRecords.entriesFrom (startOf (· - ·) (some 4) 1 twoRecords))) := by
  intro same
  have counts := congrArg (Option.map Scan.matched) same
  revert counts
  decide

/-! ## Every record in reverse -/

section Reverse

variable {callback : State → Record × Nat → Reply × State} {rec : RecordFile Record}
  {scan : Scan State (Record × Nat)}

/-- The records between two indexes, with their indexes, in reverse. -/
def RecordFile.entriesDown (rec : RecordFile Record) (low high : Nat) : List (Record × Nat) :=
  ((recordRead rec low (high - low)).zipIdx low).reverse

theorem entriesDown_eq (rec : RecordFile Record) {low middle high : Nat} (first : low ≤ middle)
    (second : middle ≤ high) (inside : high ≤ rec.records.length) :
    rec.entriesDown low high = rec.entriesDown middle high ++ rec.entriesDown low middle := by
  have parts : recordRead rec low (high - low) =
      recordRead rec low (middle - low) ++ recordRead rec middle (high - middle) := by
    have skipped : rec.records.drop middle = (rec.records.drop low).drop (middle - low) := by
      rw [List.drop_drop, Nat.add_sub_cancel' first]
    rw [recordRead, recordRead, recordRead, skipped, ← List.take_add,
      show middle - low + (high - middle) = high - low by omega]
  rw [RecordFile.entriesDown, parts, List.zipIdx_append, List.reverse_append, length_recordRead,
    show low + min (middle - low) (rec.records.length - low) = middle by omega]
  rfl

theorem entriesDown_ne_nil (rec : RecordFile Record) {low high : Nat} (some : low < high)
    (inside : high ≤ rec.records.length) :
    ∃ record rest, rec.entriesDown low high = (record, high - 1) :: rest := by
  have last : high - 1 < rec.records.length := by omega
  have one : recordRead rec (high - 1) (high - (high - 1)) = [rec.records[high - 1]] := by
    rw [recordRead, show high - (high - 1) = 1 by omega, List.drop_eq_getElem_cons last]
    rfl
  rw [entriesDown_eq rec (by omega : low ≤ high - 1) (Nat.sub_le high 1) inside,
    RecordFile.entriesDown, one]
  exact ⟨_, _, rfl⟩

theorem reverseLoop_whole {fuel place offset : Nat} (whole : rec.block ≤ offset)
    (inside : offset ≤ rec.records.length)
    (fits : (offset - rec.block) * rec.rlen < 2 ^ 31) :
    ∃ next, reverseLoop callback rec (fuel + 1) place offset scan =
      let scan := visitAll callback scan (rec.entriesDown (offset - rec.block) offset)
      if scan.stopped then some scan
      else if offset = rec.block then some scan
      else reverseLoop callback rec fuel next ((offset - rec.block : Nat) : Int) scan := by
  have positive := rec.block_pos
  have position : (if (offset : Int) - rec.block < 0 then 0 else (offset : Int) - rec.block) =
      ((offset - rec.block : Nat) : Int) := by
    rw [if_neg (by omega), Int.ofNat_sub whole]
  have nonempty : (recordRead rec (offset - rec.block) rec.block).isEmpty = false := by
    rw [← Bool.not_eq_true, List.isEmpty_iff_length_eq_zero, length_recordRead]
    omega
  have range : offset - (offset - rec.block) = rec.block := by omega
  refine ⟨offset - rec.block + (recordRead rec (offset - rec.block) rec.block).length, ?_⟩
  rw [reverseLoop]
  simp only [position]
  rw [recordReadAfter, recordSeek_ofNat, if_pos fits, Option.map_some]
  simp only [nonempty, Bool.false_eq_true, if_false, Int.toNat_natCast]
  rw [RecordFile.entriesDown, range]
  congr 1
  by_cases last : offset = rec.block
  · rw [if_pos last, if_neg (by omega)]
  · rw [if_neg last, if_pos (by omega)]

/-- The last turn of the loop, which reads a whole block at the beginning of the file. -/
theorem reverseLoop_short {fuel place offset : Nat} (short : offset < rec.block) :
    reverseLoop callback rec (fuel + 1) place offset scan =
      some (visitAll callback scan (rec.entriesDown 0 (min rec.block rec.records.length))) := by
  have buffer : recordRead rec 0 (min rec.block rec.records.length - 0) =
      recordRead rec 0 rec.block := by
    rw [Nat.sub_zero, recordRead, recordRead, List.drop_zero, ← List.take_take, List.take_length]
  rw [reverseLoop, RecordFile.entriesDown, buffer]
  simp only [if_pos (by omega : (offset : Int) - rec.block < 0)]
  have seek := recordSeek_ofNat rec place 0
  rw [Nat.zero_mul, if_pos (by decide)] at seek
  rw [recordReadAfter, show (0 : Int) = ((0 : Nat) : Int) from rfl, seek, Option.map_some]
  cases recordRead rec 0 rec.block with
  | nil => rfl
  | cons record rest =>
    simp only [List.isEmpty_cons, Bool.false_eq_true, if_false, Int.toNat_natCast, gt_iff_lt]
    split <;> rfl

/-- The loop: whole blocks first, and then the block at the beginning of the file. -/
theorem reverseLoop_eq {blocks rest fuel place : Nat} (short : rest < rec.block)
    (inside : blocks * rec.block + rest ≤ rec.records.length) (enough : blocks < fuel)
    (fits : (blocks * rec.block + rest - rec.block) * rec.rlen < 2 ^ 31) :
    reverseLoop callback rec fuel place ((blocks * rec.block + rest : Nat) : Int) scan =
      some (visitAll callback
        (visitAll callback scan (rec.entriesDown rest (blocks * rec.block + rest)))
        (if rest = 0 ∧ 0 < blocks then []
          else rec.entriesDown 0 (min rec.block rec.records.length))) := by
  have positive := rec.block_pos
  induction blocks generalizing fuel place scan with
  | zero =>
    obtain ⟨fuel, rfl⟩ := Nat.exists_eq_succ_of_ne_zero (Nat.ne_of_gt enough)
    have none : rec.entriesDown rest (0 * rec.block + rest) = [] := by
      rw [RecordFile.entriesDown, Nat.zero_mul, Nat.zero_add, Nat.sub_self]
      rfl
    rw [reverseLoop_short (by omega), none, if_neg (by omega)]
    rfl
  | succ blocks ih =>
    obtain ⟨fuel, rfl⟩ := Nat.exists_eq_succ_of_ne_zero (Nat.ne_of_gt (Nat.zero_lt_of_lt enough))
    have before : (blocks + 1) * rec.block + rest - rec.block = blocks * rec.block + rest := by
      rw [Nat.succ_mul]
      omega
    have higher : blocks * rec.block + rest ≤ (blocks + 1) * rec.block + rest := by
      rw [Nat.succ_mul]
      omega
    obtain ⟨next, turn⟩ := @reverseLoop_whole Record State callback rec scan fuel place
      ((blocks + 1) * rec.block + rest) (by rw [Nat.succ_mul]; omega) inside fits
    rw [turn, before, entriesDown_eq rec (Nat.le_add_left rest _) higher inside, visitAll_append]
    generalize visitAll callback scan (rec.entriesDown (blocks * rec.block + rest)
      ((blocks + 1) * rec.block + rest)) = scan
    simp only
    by_cases stopped : scan.stopped = true
    · rw [if_pos stopped, visitAll_of_stopped stopped, visitAll_of_stopped stopped]
    rw [if_neg stopped]
    by_cases only : (blocks + 1) * rec.block + rest = rec.block
    · rw [Nat.succ_mul] at only
      have noRest : rest = 0 := by omega
      have noBlocks : blocks * rec.block + rest = rest := by omega
      have none : rec.entriesDown rest (blocks * rec.block + rest) = [] := by
        rw [noBlocks, RecordFile.entriesDown, Nat.sub_self]
        rfl
      rw [if_pos (by rw [Nat.succ_mul]; exact only), none, if_pos ⟨noRest, Nat.succ_pos blocks⟩]
      rfl
    · rw [if_neg only]
      have smaller : (blocks * rec.block + rest - rec.block) * rec.rlen < 2 ^ 31 := by
        apply Nat.lt_of_le_of_lt (Nat.mul_le_mul_right rec.rlen _) fits
        omega
      rw [ih (by omega) (by omega) smaller]
      congr 3
      apply propext
      have more : rest = 0 → blocks ≠ 0 := by
        rintro rfl rfl
        apply only
        rw [Nat.zero_add, Nat.one_mul, Nat.add_zero]
      omega

theorem reverseLoop_overflow {fuel place offset : Nat}
    (overflow : ¬(offset - rec.block) * rec.rlen < 2 ^ 31) :
    reverseLoop callback rec (fuel + 1) place offset scan = none := by
  have above : rec.block < offset := by
    by_contra notAbove
    rw [Nat.sub_eq_zero_of_le (Nat.le_of_not_lt notAbove), Nat.zero_mul] at overflow
    exact overflow (by decide)
  have position : (if (offset : Int) - rec.block < 0 then 0 else (offset : Int) - rec.block) =
      ((offset - rec.block : Nat) : Int) := by
    rw [if_neg (by omega), Int.ofNat_sub (Nat.le_of_lt above)]
  rw [reverseLoop]
  simp only [position]
  rw [recordReadAfter, recordSeek_ofNat, if_neg overflow]
  rfl

/-- What `record_reverse_foreach` reads where the records do not fill whole blocks: the first
block, and part of it is read again. -/
def RecordFile.firstBlock (rec : RecordFile Record) : List (Record × Nat) :=
  if rec.records.length % rec.block = 0 ∧ rec.block ≤ rec.records.length then []
  else rec.entriesDown 0 (min rec.block rec.records.length)

/-- The records that `record_reverse_foreach` reads, in its order. -/
def RecordFile.reverseEntries (rec : RecordFile Record) : List (Record × Nat) :=
  rec.entriesDown (rec.records.length % rec.block) rec.records.length ++ rec.firstBlock

theorem entriesDown_self (rec : RecordFile Record) (i : Nat) : rec.entriesDown i i = [] := by
  rw [RecordFile.entriesDown, recordRead, Nat.sub_self, List.take_zero]
  rfl

/-- A record between two indexes. -/
theorem entriesDown_split (rec : RecordFile Record) {low i high : Nat} {record : Record}
    (above : low ≤ i) (below : i < high) (inside : high ≤ rec.records.length)
    (found : rec.records[i]? = some record) :
    rec.entriesDown low high =
      rec.entriesDown (i + 1) high ++ (record, i) :: rec.entriesDown low i := by
  have one : rec.entriesDown i (i + 1) = [(record, i)] := by
    have here := (List.getElem?_eq_some_iff.mp found).1
    rw [RecordFile.entriesDown, recordRead, Nat.add_sub_cancel_left,
      List.drop_eq_getElem_cons here, (List.getElem?_eq_some_iff.mp found).2]
    rfl
  rw [entriesDown_eq rec (by omega : low ≤ i + 1) below inside,
    entriesDown_eq rec above (Nat.le_succ i) (by omega), one]
  rfl

theorem mem_entriesDown {low high : Nat} {entry : Record × Nat} :
    entry ∈ rec.entriesDown low high ↔
      low ≤ entry.2 ∧ entry.2 < high ∧ rec.records[entry.2]? = some entry.1 := by
  rw [RecordFile.entriesDown, List.mem_reverse, mem_recordRead]
  constructor <;> rintro ⟨above, below, found⟩ <;> exact ⟨above, by omega, found⟩

theorem mem_firstBlock {entry : Record × Nat} (member : entry ∈ rec.firstBlock) :
    rec.records[entry.2]? = some entry.1 := by
  unfold RecordFile.firstBlock at member
  split at member
  · cases member
  · exact (mem_entriesDown.mp member).2.2

/-- What `record_reverse_foreach` reads behind a record that it reads for the first time. -/
def RecordFile.behind (rec : RecordFile Record) (i : Nat) : List (Record × Nat) :=
  if rec.records.length % rec.block ≤ i then
    rec.entriesDown (rec.records.length % rec.block) i ++ rec.firstBlock
  else rec.entriesDown 0 i

theorem mem_behind {i : Nat} {entry : Record × Nat} (member : entry ∈ rec.behind i) :
    rec.records[entry.2]? = some entry.1 := by
  unfold RecordFile.behind at member
  split at member
  · rcases List.mem_append.mp member with first | second
    · exact (mem_entriesDown.mp first).2.2
    · exact mem_firstBlock second
  · exact (mem_entriesDown.mp member).2.2

theorem mem_reverseEntries {entry : Record × Nat} (member : entry ∈ rec.reverseEntries) :
    rec.records[entry.2]? = some entry.1 := by
  rcases List.mem_append.mp member with first | second
  · exact (mem_entriesDown.mp first).2.2
  · exact mem_firstBlock second

/-- A record in the part of the first block that is read only once. -/
theorem firstBlock_split {i : Nat} {record : Record} (below : i < rec.records.length % rec.block)
    (found : rec.records[i]? = some record) :
    ∃ before, rec.firstBlock = before ++ (record, i) :: rec.entriesDown 0 i ∧
      ∀ entry ∈ before, i < entry.2 := by
  have inside := (List.getElem?_eq_some_iff.mp found).1
  have small := Nat.mod_lt rec.records.length rec.block_pos
  rw [RecordFile.firstBlock, if_neg (by omega),
    entriesDown_split rec (Nat.zero_le i) (by omega : i < min rec.block rec.records.length)
      (Nat.min_le_right _ _) found]
  exact ⟨_, rfl, fun entry member => (mem_entriesDown.mp member).1⟩

/-- Before a record is read for the first time, only later ones are read. -/
theorem reverseEntries_split {i : Nat} {record : Record}
    (found : rec.records[i]? = some record) :
    ∃ before, rec.reverseEntries = before ++ (record, i) :: rec.behind i ∧
      ∀ entry ∈ before, i < entry.2 := by
  have inside := (List.getElem?_eq_some_iff.mp found).1
  rw [RecordFile.reverseEntries, RecordFile.behind]
  by_cases late : rec.records.length % rec.block ≤ i
  · rw [if_pos late, entriesDown_split rec late inside (Nat.le_refl _) found, List.append_assoc]
    exact ⟨_, rfl, fun entry member => (mem_entriesDown.mp member).1⟩
  · obtain ⟨before, split, later⟩ := firstBlock_split (Nat.lt_of_not_le late) found
    rw [if_neg late, split, ← List.append_assoc]
    refine ⟨_, rfl, fun entry member => ?_⟩
    rcases List.mem_append.mp member with first | second
    · exact Nat.lt_of_lt_of_le (Nat.lt_of_not_le late) (mem_entriesDown.mp first).1
    · exact later entry second

/-- An earlier record is read behind a record, and nothing earlier before it. -/
theorem behind_split {i k : Nat} {record : Record} (earlier : k < i)
    (inside : i ≤ rec.records.length) (found : rec.records[k]? = some record) :
    ∃ between after, rec.behind i = between ++ (record, k) :: after ∧
      ∀ entry ∈ between, k < entry.2 := by
  rw [RecordFile.behind]
  by_cases late : rec.records.length % rec.block ≤ i
  · rw [if_pos late]
    by_cases both : rec.records.length % rec.block ≤ k
    · rw [entriesDown_split rec both earlier inside found, List.append_assoc]
      exact ⟨_, _, rfl, fun entry member => (mem_entriesDown.mp member).1⟩
    · obtain ⟨before, split, later⟩ := firstBlock_split (Nat.lt_of_not_le both) found
      rw [split, ← List.append_assoc]
      refine ⟨_, _, rfl, fun entry member => ?_⟩
      rcases List.mem_append.mp member with first | second
      · exact Nat.lt_of_lt_of_le (Nat.lt_of_not_le both) (mem_entriesDown.mp first).1
      · exact later entry second
  · rw [if_neg late, entriesDown_split rec (Nat.zero_le k) earlier inside found]
    exact ⟨_, _, rfl, fun entry member => (mem_entriesDown.mp member).1⟩

/-- The record in front of a record is read next, unless the first block is read again there. -/
theorem behind_eq {i : Nat} {record : Record} (inside : i + 1 ≤ rec.records.length)
    (other : ¬(rec.block < rec.records.length ∧ i + 1 = rec.records.length % rec.block))
    (found : rec.records[i]? = some record) :
    ∃ after, rec.behind (i + 1) = (record, i) :: after := by
  have small := Nat.mod_lt rec.records.length rec.block_pos
  rw [RecordFile.behind]
  by_cases late : rec.records.length % rec.block ≤ i + 1
  · rw [if_pos late]
    by_cases both : rec.records.length % rec.block ≤ i
    · rw [entriesDown_split rec both (Nat.lt_succ_self i) inside found, entriesDown_self]
      exact ⟨_, rfl⟩
    · have last : i + 1 = rec.records.length % rec.block := by omega
      have few : rec.records.length ≤ rec.block := by omega
      have fewer : rec.records.length < rec.block := by
        rcases Nat.lt_or_eq_of_le few with fewer | same
        · exact fewer
        · rw [same, Nat.mod_self] at last
          omega
      rw [last, entriesDown_self, List.nil_append, RecordFile.firstBlock, if_neg (by omega),
        Nat.min_eq_right few, entriesDown_split rec (Nat.zero_le i) (by omega) (Nat.le_refl _)
        found]
      rw [Nat.mod_eq_of_lt fewer] at last
      rw [last, entriesDown_self]
      exact ⟨_, rfl⟩
  · rw [if_neg late, entriesDown_split rec (Nat.zero_le i) (Nat.lt_succ_self i) inside found,
      entriesDown_self]
    exact ⟨_, rfl⟩

theorem behind_zero (rec : RecordFile Record) : rec.behind 0 = [] := by
  rw [RecordFile.behind, entriesDown_self]
  by_cases whole : rec.records.length % rec.block ≤ 0
  · have rest := Nat.le_zero.mp whole
    rw [if_pos whole, rest, entriesDown_self, List.nil_append, RecordFile.firstBlock]
    by_cases several : rec.block ≤ rec.records.length
    · rw [if_pos ⟨rest, several⟩]
    · rw [Nat.mod_eq_of_lt (Nat.lt_of_not_le several)] at rest
      rw [if_neg (fun both => several both.2), rest, Nat.min_zero, entriesDown_self]
  · rw [if_neg whole]

/-- Where the first block is read again. -/
theorem behind_rest {rec : RecordFile Record} (several : rec.block < rec.records.length)
    (rest : rec.records.length % rec.block ≠ 0) :
    rec.behind (rec.records.length % rec.block) = rec.entriesDown 0 rec.block := by
  rw [RecordFile.behind, if_pos (Nat.le_refl _), entriesDown_self, List.nil_append,
    RecordFile.firstBlock, if_neg (fun whole => rest whole.1),
    Nat.min_eq_left (Nat.le_of_lt several)]

/-- `record_reverse_foreach` needs positions that are `int`s. -/
theorem recordReverseForeach_eq (callback : State → Record × Nat → Reply × State)
    (args : State) (rec : RecordFile Record) :
    recordReverseForeach callback args rec =
      if (rec.records.length - rec.block) * rec.rlen < 2 ^ 31 then
        some (visitAll callback (.start args) rec.reverseEntries)
      else none := by
  have positive := rec.block_pos
  rw [recordReverseForeach, recordCount]
  by_cases fits : (rec.records.length - rec.block) * rec.rlen < 2 ^ 31
  · have split := Nat.div_add_mod' rec.records.length rec.block
    have short := Nat.mod_lt rec.records.length positive
    have few := Nat.div_le_self rec.records.length rec.block
    have whole : rec.block ≤ rec.records.length ↔ 0 < rec.records.length / rec.block := by
      rw [Nat.div_pos_iff, and_iff_right positive]
    rw [if_pos fits, RecordFile.reverseEntries, RecordFile.firstBlock, visitAll_append]
    simp only [whole]
    generalize rec.records.length / rec.block = blocks at split few
    generalize rec.records.length % rec.block = rest at split short
    have loop := @reverseLoop_eq Record State callback rec (.start args) blocks rest
      (rec.records.length + 1) 0 short (Nat.le_of_eq split) (by omega) (by rw [split]; exact fits)
    rw [split] at loop
    rw [loop]
  · rw [if_neg fits, reverseLoop_overflow fits]

/-- `record_reverse_foreach` calls the callback on every record once, from the last to the
first and until it breaks, exactly if the positions are `int`s and the records fit one
block or whole blocks, or the callback breaks in a whole block. -/
theorem recordReverseForeach_eq_iff (callback : State → Record × Nat → Reply × State)
    (args : State) (rec : RecordFile Record) :
    recordReverseForeach callback args rec =
        some (visitAll callback (.start args) (rec.entriesDown 0 rec.records.length)) ↔
      (rec.records.length - rec.block) * rec.rlen < 2 ^ 31 ∧
        (rec.records.length ≤ rec.block ∨ rec.records.length % rec.block = 0 ∨
          (visitAll callback (.start args)
            (rec.entriesDown (rec.records.length % rec.block) rec.records.length)).stopped =
              true) := by
  have positive := rec.block_pos
  rw [recordReverseForeach, recordCount]
  by_cases fits : (rec.records.length - rec.block) * rec.rlen < 2 ^ 31
  · have split := Nat.div_add_mod' rec.records.length rec.block
    have short := Nat.mod_lt rec.records.length positive
    have few := Nat.div_le_self rec.records.length rec.block
    generalize rec.records.length / rec.block = blocks at split few
    generalize rec.records.length % rec.block = rest at split short ⊢
    have loop := @reverseLoop_eq Record State callback rec (.start args) blocks rest
      (rec.records.length + 1) 0 short (Nat.le_of_eq split) (by omega) (by rw [split]; exact fits)
    rw [split] at loop
    rw [loop, Option.some.injEq, and_iff_right fits,
      entriesDown_eq rec (Nat.zero_le rest) (by omega) (Nat.le_refl _), visitAll_append]
    generalize visitAll callback (.start args) (rec.entriesDown rest rec.records.length) = scan
    by_cases stopped : scan.stopped = true
    · rw [visitAll_of_stopped stopped, visitAll_of_stopped stopped]
      exact iff_of_true rfl (.inr (.inr stopped))
    by_cases noBlocks : blocks = 0
    · have only : rest = rec.records.length := by
        rw [← split, noBlocks, Nat.zero_mul, Nat.zero_add]
      have below : rec.records.length ≤ rec.block := by omega
      rw [if_neg (by omega), Nat.min_eq_right below, only]
      exact iff_of_true rfl (.inl below)
    have atLeast : rec.block ≤ blocks * rec.block :=
      Nat.le_mul_of_pos_left rec.block (Nat.pos_of_ne_zero noBlocks)
    by_cases noRest : rest = 0
    · rw [if_pos ⟨noRest, Nat.pos_of_ne_zero noBlocks⟩, noRest]
      exact iff_of_true rfl (.inr (.inl rfl))
    · -- The block at the beginning is read once more, down from its last record.
      rw [if_neg (by omega), Nat.min_eq_left (by omega)]
      obtain ⟨record, others, again⟩ := entriesDown_ne_nil rec positive (by omega)
      obtain ⟨next, remaining, expected⟩ := entriesDown_ne_nil rec
        (Nat.pos_of_ne_zero noRest) (by omega : rest ≤ rec.records.length)
      rw [again, expected]
      apply iff_of_false
      · apply visitAll_ne_of_ne (Bool.eq_false_iff.mpr stopped)
        intro same
        have indexes := congrArg Prod.snd same
        simp only at indexes
        omega
      · rintro (below | whole | breaks)
        · omega
        · exact noRest whole
        · exact stopped breaks
  · rw [reverseLoop_overflow fits]
    exact iff_of_false (Option.some_ne_none _).symm fun well => fits well.1

end Reverse

/-- Three records, of which two fit the buffer. -/
def threeRecords : RecordFile Int where
  records := [5, 6, 7]
  rlen := 4096
  rlen_pos := Nat.zero_lt_succ 4095
  rlen_le := Nat.le_of_ble_eq_true rfl
  count_lt := Nat.lt_of_sub_eq_succ rfl

theorem threeRecords_visited_twice :
    recordReverseForeach (fun calls entry => (.found, entry :: calls)) [] threeRecords ≠
      some (visitAll (fun calls entry => (.found, entry :: calls)) (.start [])
        (threeRecords.entriesDown 0 threeRecords.records.length)) := by
  intro same
  have counts := congrArg (Option.map Scan.matched) same
  revert counts
  decide

end RecordScan

end Fbbs
