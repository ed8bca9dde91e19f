import Fbbs.BoardrcSession

/-!
# The format of the buffer of read marks

`brc_merge` of `lib/boardrc.c` writes the current record and behind it the records of the
other boards.  A source that is too long is cut such that a record across the cut still fits.
A record whose name does not begin with a printable byte ends every scan; folders of the
favourites may have such names.
-/

namespace Fbbs

namespace Boardrc

/-- The bytes of the source that `brc_merge` looks at. -/
def mergeSize (source : Buf) : Nat :=
  if mergeLimit < source.size then brcBufsize - brcItemsize * 2 + 1 else source.size

/-- The records of the source that `brc_merge` reads. -/
def scannedRecords (source : Buf) : List Record :=
  scanRecords (mergeSize source) source.ptr (mergeSize source)

def writtenRecords (source : Buf) (brc : Brc) : List Record :=
  brc.record :: (scannedRecords source).filter (·.name ≠ brc.name)

theorem byteSize_le {record : Record} (valid : record.Valid) :
    record.byteSize ≤ brcItemsize := by
  have length_le := valid.length_le
  unfold Record.byteSize brcItemsize
  omega

theorem scanRecords_zero (fuel : Nat) (ptr : Bytes) : scanRecords fuel ptr 0 = [] := by
  cases fuel with
  | zero => rfl
  | succ fuel => simp [scanRecords]

/-- A scan of a part of some records visits the first of them, at most one beyond the part. -/
theorem scanRecords_part {bytes : Bytes} {records : List Record}
    (encodes : Encodes bytes records) (beyond : Bytes) {fuel remaining : Nat}
    (inside : remaining ≤ bytes.length) :
    scanRecords fuel (bytes ++ beyond) remaining <+: records ∧
      (∀ record ∈ scanRecords fuel (bytes ++ beyond) remaining, record.visible = true) ∧
      totalSize (scanRecords fuel (bytes ++ beyond) remaining) < remaining + brcItemsize := by
  have positive : 0 < brcItemsize := by decide
  have nothing : ([] : List Record) <+: records ∧
      (∀ record ∈ ([] : List Record), record.visible = true) ∧
      totalSize [] < remaining + brcItemsize :=
    ⟨List.nil_prefix, nofun, Nat.lt_of_lt_of_le positive (Nat.le_add_left _ _)⟩
  induction encodes generalizing fuel remaining with
  | nil =>
    have none : remaining = 0 := Nat.le_zero.mp inside
    rw [none, scanRecords_zero]
    rwa [none] at nothing
  | @cons record padding bytes records valid padded rest ih =>
    have lengthEq := Record.bytes_length padded
    rw [List.length_append, lengthEq] at inside
    cases fuel with
    | zero => exact nothing
    | succ fuel =>
      rw [scanRecords, List.append_assoc, Record.visible_iff]
      by_cases goes : remaining ≠ 0 ∧ record.visible = true
      · rw [if_pos goes, brcGetRecord_bytes valid padded]
        dsimp only
        have sizeEq : ∀ others, totalSize (record :: others) =
            record.byteSize + totalSize others := fun _ => rfl
        by_cases last : remaining ≤ record.byteSize
        · rw [Nat.sub_eq_zero_of_le last, scanRecords_zero]
          refine ⟨List.prefix_cons_inj record |>.mpr List.nil_prefix, ?_, ?_⟩
          · intro other member
            rw [List.mem_singleton.mp member]
            exact goes.2
          · rw [sizeEq]
            change record.byteSize + 0 < _
            have atMost := byteSize_le valid
            omega
        · have part : remaining - record.byteSize ≤ bytes.length := by omega
          obtain ⟨starts, visible, total⟩ := @ih fuel _ part
            ⟨List.nil_prefix, nofun, by
              change 0 < _
              omega⟩
          refine ⟨List.prefix_cons_inj record |>.mpr starts, ?_, ?_⟩
          · intro other member
            rcases List.mem_cons.mp member with rfl | later
            · exact goes.2
            · exact visible other later
          · rw [sizeEq]
            omega
      · rw [if_neg goes]
        exact nothing

section Merge

variable {source : Buf} {records : List Record} {session : Session}

theorem mergeSize_le (source : Buf) : mergeSize source ≤ source.size := by
  unfold mergeSize
  split
  · rename_i large
    have cut : brcBufsize - brcItemsize * 2 + 1 ≤ mergeLimit := by decide
    omega
  · exact Nat.le_refl _

/-- The whole of a source that is not cut is scanned. -/
theorem scannedRecords_eq (holds : Holds source records) (fits : source.size ≤ mergeLimit) :
    scannedRecords source = records.takeWhile Record.visible := by
  rw [scannedRecords, mergeSize, if_neg (Nat.not_lt.mpr fits), holds.scan]

theorem scannedRecords_spec (holds : Holds source records) :
    scannedRecords source <+: records ∧
      (∀ record ∈ scannedRecords source, record.visible = true) ∧
      totalSize (scannedRecords source) + brcItemsize ≤ brcBufsize := by
  have usedLength : (source.ptr.take source.size).length = source.size := by
    rw [List.length_take, Nat.min_eq_left holds.size_le]
  have part : mergeSize source ≤ (source.ptr.take source.size).length := by
    rw [usedLength]
    exact mergeSize_le source
  have scanned := @scanRecords_part _ _ holds.encodes (source.ptr.drop source.size)
    (mergeSize source) _ part
  rw [List.take_append_drop] at scanned
  refine ⟨scanned.1, scanned.2.1, ?_⟩
  by_cases large : mergeLimit < source.size
  · have cut : mergeSize source + brcItemsize + brcItemsize = brcBufsize + 1 := by
      rw [mergeSize, if_pos large]
      decide
    have total := scanned.2.2
    unfold scannedRecords
    omega
  · have whole := scannedRecords_eq holds (Nat.not_lt.mp large)
    have fewer := totalSize_sublist (List.takeWhile_sublist (l := records) Record.visible)
    have total : totalSize records = source.size := by
      rw [← holds.encodes.length, usedLength]
    have limit : mergeLimit + brcItemsize = brcBufsize := by decide
    rw [whole]
    omega

theorem brcMerge_writes (source : Buf) (session : Session) :
    brcMerge source session =
      let put := putRecords session.buf.ptr (writtenRecords source session.brc)
      { session with
        buf :=
          { session.buf with
            size := put.1.length
            dirty := true
            ptr := put.1 ++ put.2 }
        brc := { session.brc with dirty := false } } := by
  unfold brcMerge writtenRecords scannedRecords mergeSize
  simp [putRecords]

theorem writtenRecords_valid (holds : Holds source records) (storable : session.brc.Storable)
    (nonempty : session.brc.items ≠ []) :
    ∀ record ∈ writtenRecords source session.brc, record.Valid := by
  intro record member
  rcases List.mem_cons.mp member with rfl | other
  · exact ⟨storable.name, nonempty, storable.length_le⟩
  · exact holds.encodes.valid record
      ((scannedRecords_spec holds).1.subset (List.mem_of_mem_filter other))

theorem totalSize_writtenRecords (holds : Holds source records)
    (storable : session.brc.Storable) :
    totalSize (writtenRecords source session.brc) ≤ brcBufsize := by
  have others := totalSize_sublist (List.filter_sublist (l := scannedRecords source)
    (p := fun record => decide (record.name ≠ session.brc.name)))
  have own : session.brc.record.byteSize ≤ brcItemsize := by
    have length_le := storable.length_le
    unfold Record.byteSize brcItemsize
    change _ + session.brc.items.length * 4 ≤ _
    omega
  have sizeEq : totalSize (writtenRecords source session.brc) =
      session.brc.record.byteSize + totalSize ((scannedRecords source).filter
        (·.name ≠ session.brc.name)) := rfl
  have scanned := (scannedRecords_spec holds).2.2
  omega

/-- What a merge should leave: the current record in front, and a scan that finds it and all
the others, except for the last ones of a source that is too long. -/
structure MergesAll (source : Buf) (records : List Record) (session : Session) : Prop where
  size_le : (brcMerge source session).buf.size ≤ brcBufsize
  starts : ∃ padding rest, session.brc.name.bytes.length + 1 + padding.length = brcStrlen ∧
    (brcMerge source session).buf.ptr = session.brc.record.bytes padding ++ rest
  finds : ∃ others,
    scanRecords (brcMerge source session).buf.size (brcMerge source session).buf.ptr
        (brcMerge source session).buf.size = session.brc.record :: others ∧
      others <+: records.filter (·.name ≠ session.brc.name) ∧
      (source.size ≤ mergeLimit → others = records.filter (·.name ≠ session.brc.name))

/-- The written buffer holds the written records, whatever their names are. -/
theorem brcMerge_holds (holds : Holds source records)
    (capacity : session.buf.ptr.length = brcBufsize) (storable : session.brc.Storable)
    (nonempty : session.brc.items ≠ []) :
    Holds (brcMerge source session).buf (writtenRecords source session.brc) ∧
      (brcMerge source session).buf.size ≤ brcBufsize ∧
      ∃ padding rest, session.brc.name.bytes.length + 1 + padding.length = brcStrlen ∧
        (brcMerge source session).buf.ptr = session.brc.record.bytes padding ++ rest := by
  have total := totalSize_writtenRecords holds storable
  have room : totalSize (writtenRecords source session.brc) ≤ session.buf.ptr.length := by
    rwa [capacity]
  obtain ⟨written, putEq, encodes⟩ :=
    putRecords_spec (writtenRecords_valid holds storable nonempty) room
  have lengthEq := encodes.length
  rw [brcMerge_writes source session]
  simp only [putEq]
  refine ⟨⟨?_, ?_⟩, ?_, ?_⟩
  · simp only [List.length_append]
    omega
  · simpa only [List.take_left'] using encodes
  · omega
  · unfold writtenRecords at encodes
    cases encodes with
    | @cons _ padding bytes _ valid padded rest =>
      exact ⟨padding, bytes ++ _, padded, List.append_assoc _ _ _⟩

/-- All records are found again exactly if the current one is visible and so are, unless the
source is cut, all others. -/
theorem mergesAll_iff (holds : Holds source records)
    (capacity : session.buf.ptr.length = brcBufsize) (storable : session.brc.Storable)
    (nonempty : session.brc.items ≠ []) :
    MergesAll source records session ↔
      session.brc.record.visible = true ∧
        (source.size ≤ mergeLimit → ∀ record ∈ records, record.visible = true) := by
  obtain ⟨result, size_le, starts⟩ := brcMerge_holds holds capacity storable nonempty
  obtain ⟨part, visible, -⟩ := scannedRecords_spec holds
  have scanned := result.scan
  constructor
  · rintro ⟨-, -, others, found, -, all⟩
    rw [scanned] at found
    have own : session.brc.record.visible = true := by
      have first : session.brc.record ∈
          (writtenRecords source session.brc).takeWhile Record.visible := by
        rw [found]
        exact List.mem_cons_self
      exact List.mem_takeWhile_imp first
    refine ⟨own, fun fits record member => ?_⟩
    by_cases current : record.name = session.brc.name
    · unfold Record.visible at own ⊢
      rwa [current]
    · have inOthers : record ∈ others := by
        rw [all fits]
        exact List.mem_filter.mpr ⟨member, decide_eq_true current⟩
      have inScan : record ∈ (writtenRecords source session.brc).takeWhile Record.visible := by
        rw [found]
        exact List.mem_cons_of_mem _ inOthers
      exact List.mem_takeWhile_imp inScan
  · rintro ⟨own, each⟩
    refine ⟨size_le, starts, (scannedRecords source).filter (·.name ≠ session.brc.name),
      ?_, part.filter _, fun fits => ?_⟩
    · rw [scanned]
      apply List.takeWhile_eq_self_iff.mpr
      intro record member
      rcases List.mem_cons.mp member with rfl | other
      · exact own
      · exact visible record (List.mem_of_mem_filter other)
    · rw [scannedRecords_eq holds fits, List.takeWhile_eq_self_iff.mpr (each fits)]

end Merge

/-- A board, and a folder of the favourites whose name begins with a byte above `'~'`. -/
def boardRecord : Record := ⟨boardA.str, [7, 1]⟩

def folderRecord : Record := ⟨⟨[0xe4, 0xb8, 0x80], by decide⟩, [1]⟩

/-- The buffer for two records. -/
def bufferOf (first second : Record) : Buf where
  size := first.byteSize + second.byteSize
  dirty := false
  initialized := true
  ptr := (putRecords (List.replicate brcBufsize 0) [first, second]).1

theorem bufferOf_holds {first second : Record} (firstValid : first.Valid)
    (secondValid : second.Valid) : Holds (bufferOf first second) [first, second] := by
  have room : totalSize [first, second] ≤ (List.replicate brcBufsize (0 : UInt8)).length := by
    have firstSize := byteSize_le firstValid
    have secondSize := byteSize_le secondValid
    have sizes : brcItemsize + brcItemsize ≤ brcBufsize := by decide
    rw [List.length_replicate]
    change first.byteSize + (second.byteSize + 0) ≤ brcBufsize
    omega
  have valid : ∀ record ∈ [first, second], record.Valid := by
    intro record member
    rcases List.mem_cons.mp member with rfl | second
    · exact firstValid
    · rwa [List.mem_singleton.mp second]
  obtain ⟨written, putEq, encodes⟩ := putRecords_spec valid room
  have size : written.length = first.byteSize + second.byteSize := encodes.length
  have bytes : (bufferOf first second).ptr = written := congrArg Prod.fst putEq
  have used : (bufferOf first second).size = written.length := size.symm
  refine ⟨?_, ?_⟩
  · rw [bytes, used]
  · rw [bytes, used, List.take_length]
    exact encodes

/-- A session on board B with an empty buffer. -/
def onBoardB : Session where
  file := none
  buf := Buf.zero
  brc := ⟨true, boardB.str, [9, 1]⟩

theorem onBoardB_storable : onBoardB.brc.Storable :=
  ⟨by decide, by decide⟩

theorem onBoardB_capacity : onBoardB.buf.ptr.length = brcBufsize :=
  List.length_replicate

theorem twoBoards_mergesAll :
    MergesAll (bufferOf boardRecord ⟨⟨[67], by decide⟩, [3]⟩)
      [boardRecord, ⟨⟨[67], by decide⟩, [3]⟩] onBoardB := by
  have holds : Holds (bufferOf boardRecord ⟨⟨[67], by decide⟩, [3]⟩)
      [boardRecord, ⟨⟨[67], by decide⟩, [3]⟩] :=
    bufferOf_holds ⟨by decide, by decide, by decide⟩ ⟨by decide, by decide, by decide⟩
  exact (mergesAll_iff holds onBoardB_capacity onBoardB_storable (by decide)).mpr
    ⟨by decide, fun _ => by decide⟩

/-- A folder in front of a board: the merge loses both. -/
theorem folder_hides_board :
    Holds (bufferOf folderRecord boardRecord) [folderRecord, boardRecord] ∧
      ¬MergesAll (bufferOf folderRecord boardRecord) [folderRecord, boardRecord] onBoardB := by
  have holds : Holds (bufferOf folderRecord boardRecord) [folderRecord, boardRecord] :=
    bufferOf_holds ⟨by decide, by decide, by decide⟩ ⟨by decide, by decide, by decide⟩
  refine ⟨holds, fun merges => ?_⟩
  obtain ⟨others, found, -, all⟩ := merges.finds
  have fits : (bufferOf folderRecord boardRecord).size ≤ mergeLimit := by decide
  obtain ⟨result, -⟩ :=
    brcMerge_holds holds onBoardB_capacity onBoardB_storable (by decide)
  have written : writtenRecords (bufferOf folderRecord boardRecord) onBoardB.brc =
      [onBoardB.brc.record] := by
    rw [writtenRecords, scannedRecords_eq holds fits]
    decide
  rw [result.scan, written, all fits] at found
  revert found
  decide

end Boardrc

end Fbbs
