import Fbbs.BoardrcRecords
import Fbbs.TransitionRuns

/-!
# Read marks over a session

A session keeps the record of the current board, a buffer with the records of
all boards, and the file.  Switching boards merges the current record into the
buffer; synchronising reads the file again, merges only the current record into
what it read, and replaces both the buffer and the file with the result.  Marks
that were merged into the buffer and not written before are lost there.
-/

namespace Fbbs

namespace Boardrc

/-- `brc_buf_t`. -/
structure Buf where
  size : Nat
  dirty : Bool
  initialized : Bool
  ptr : Bytes
  deriving DecidableEq

/-- The static variables of `lib/boardrc.c`, and the user's `.boardrc`. -/
structure Session where
  file : Option Bytes
  buf : Buf
  brc : Brc
  deriving DecidableEq

def Buf.zero : Buf where
  size := 0
  dirty := false
  initialized := false
  ptr := List.replicate brcBufsize 0

def Brc.zero : Brc where
  dirty := false
  name := .empty
  items := []

def brcReset (session : Session) : Session :=
  { session with buf := Buf.zero, brc := Brc.zero }

def brcLoad (file : Option Bytes) (buf : Buf) : Buf :=
  match file with
  | none => { buf with size := 0, initialized := true, dirty := false }
  | some content =>
    let content := content.take brcBufsize
    { size := content.length
      initialized := true
      dirty := false
      ptr := content ++ buf.ptr.drop content.length }

def brcSave (session : Session) : Session :=
  { session with file := some (session.buf.ptr.take session.buf.size) }

/-- The size above which `brc_merge` cuts its source. -/
def mergeLimit : Nat := brcBufsize - brcItemsize

/-- `brc_merge`: the current record, then the records of the other boards. -/
def brcMerge (source : Buf) (session : Session) : Session :=
  let brc := session.brc
  let (own, ptr) := brcPutRecord session.buf.ptr brc.record
  let size :=
    if mergeLimit < source.size then brcBufsize - brcItemsize * 2 + 1
    else source.size
  let records := scanRecords size source.ptr size
  let (others, ptr) := putRecords ptr (records.filter (·.name ≠ brc.name))
  { session with
    buf :=
      { session.buf with
        size := (own ++ others).length
        dirty := true
        ptr := own ++ others ++ ptr }
    brc := { brc with dirty := false } }

/-- `brc_sync`; `stack` is what the local buffer contains before it is read. -/
def brcSync (stack : Bytes) (session : Session) : Session :=
  if !session.brc.dirty && !session.buf.dirty then session
  else
    let source := brcLoad session.file ⟨0, false, false, stack⟩
    brcSave (brcMerge source session)

/-- The record that the search loop of `brc_init` finds. -/
def Buf.find (buf : Buf) (name : CString) : Option Record :=
  (scanRecords buf.size buf.ptr buf.size).find? (·.name = name)

/-- What `brc_init` does before it searches for another board. -/
def leaveBoard (session : Session) : Session :=
  let session := if session.brc.dirty then brcMerge session.buf session else session
  if session.buf.initialized then session
  else { session with buf := brcLoad session.file session.buf }

/-- `brc_init` with its return value. -/
def brcInit (boardName : CString) (session : Session) : Nat × Session :=
  if session.brc.name = boardName then (session.brc.items.length, session)
  else
    let session := leaveBoard session
    match session.buf.find boardName with
    | some record =>
      (record.items.length,
        { session with
          brc := { session.brc with name := record.name, items := record.items } })
    | none => (0, { session with brc := Brc.fresh (boardName.truncate brcStrlen) })

/-- The loop of `brc_clear`.  It makes at most sixty rounds or never ends, so
running out of fuel means the latter. -/
def clearLoop : Nat → UInt32 → Item → Brc → Option Brc
  | 0, _, _, _ => none
  | fuel + 1, i, item, brc =>
    if i ≤ item then clearLoop fuel (i + 1) item (brcMarkAsRead i brc).2
    else some brc

def brcClear (item : Item) (brc : Brc) : Option Brc :=
  clearLoop (brcMaxnum + 1) (item - 59) item brc

/-- `isalnum` or one of the other characters in `valid_board_name`. -/
def validBoardNameByte (byte : UInt8) : Bool :=
  (0x30 ≤ byte && byte ≤ 0x39) || (0x41 ≤ byte && byte ≤ 0x5a) ||
    (0x61 ≤ byte && byte ≤ 0x7a) || byte == 0x5f || byte == 0x2e || byte == 0x7e

/-- A name that a board can have: `BOARD_NAME_LEN` bytes that
`valid_board_name` accepts. -/
structure BoardName where
  str : CString
  fits : str.bytes.length ≤ 17
  nonempty : str.bytes ≠ []
  valid : ∀ byte ∈ str.bytes, validBoardNameByte byte = true
  deriving DecidableEq

inductive Action
  | init (board : BoardName)
  | mark (item : Item)
  | clear (item : Item)
  | sync (stack : Bytes)

/-- A session, the boards it has visited, and the list that each of them had
when it was last current. -/
structure Observed where
  session : Session
  visited : List CString
  last : CString → Option (List Item)

def Observed.initial (file : Option Bytes) : Observed where
  session := ⟨file, Buf.zero, Brc.zero⟩
  visited := []
  last _ := none

/-- The observation after an action that leaves the board current. -/
def Observed.note (observed : Observed) (session : Session) : Observed where
  session := session
  visited := observed.visited
  last :=
    if (observed.last session.brc.name).isSome then
      Function.update observed.last session.brc.name (some session.brc.items)
    else observed.last

def step (observed : Observed) : Action → Option Observed
  | .init board =>
    let session := (brcInit board.str observed.session).2
    some
      { session := session
        visited := board.str :: observed.visited
        last := Function.update observed.last board.str (some session.brc.items) }
  | .mark item =>
    let brc := (brcMarkAsRead item observed.session.brc).2
    some (observed.note { observed.session with brc := brc })
  | .clear item => do
    let brc ← brcClear item observed.session.brc
    some (observed.note { observed.session with brc := brc })
  | .sync stack => some (observed.note (brcSync stack observed.session))

/-- What a buffer holds for a board; a missing record counts as the fresh one. -/
def Buf.stored (buf : Buf) (name : CString) : List Item :=
  ((buf.find name).map Record.items).getD [1]

/-- No action loses marks: what is merged fits, and when a synchronisation
writes, the buffer holds for every other board visited what the file holds. -/
def Safe (observed : Observed) : Action → Prop
  | .init board =>
    observed.session.brc.name ≠ board.str → observed.session.brc.dirty = true →
      observed.session.buf.size ≤ mergeLimit
  | .sync _ =>
    (observed.session.brc.dirty || observed.session.buf.dirty) = true →
      (brcLoad observed.session.file observed.session.buf).size ≤ mergeLimit ∧
      ∀ name ∈ observed.visited, name ≠ observed.session.brc.name →
        observed.session.buf.stored name =
          (brcLoad observed.session.file observed.session.buf).stored name
  | _ => True

instance (observed : Observed) : (action : Action) → Decidable (Safe observed action)
  | .init board =>
    inferInstanceAs (Decidable
      (observed.session.brc.name ≠ board.str →
        observed.session.brc.dirty = true →
        observed.session.buf.size ≤ mergeLimit))
  | .mark _ => isTrue trivial
  | .clear _ => isTrue trivial
  | .sync _ =>
    inferInstanceAs (Decidable
      ((observed.session.brc.dirty || observed.session.buf.dirty) = true →
        (brcLoad observed.session.file observed.session.buf).size ≤ mergeLimit ∧
        ∀ name ∈ observed.visited, name ≠ observed.session.brc.name →
          observed.session.buf.stored name =
            (brcLoad observed.session.file observed.session.buf).stored name))

/-- The used part of the buffer is the given records. -/
structure Holds (buf : Buf) (records : List Record) : Prop where
  size_le : buf.size ≤ buf.ptr.length
  encodes : Encodes (buf.ptr.take buf.size) records

/-- The file is the given records, within the size of the buffer. -/
def FileHolds (file : Option Bytes) (records : List Record) : Prop :=
  (file = none ∧ records = []) ∨
    ∃ content, file = some content ∧ Encodes content records ∧
      content.length ≤ brcBufsize

/-- What a list of records holds for a board. -/
def itemsOf (records : List Record) (name : CString) : List Item :=
  (((records.takeWhile Record.visible).find? (·.name = name)).map
    Record.items).getD [1]

def mergedRecords (brc : Brc) (records : List Record) : List Record :=
  (if brc.items = [] then [] else [brc.record]) ++
    (records.takeWhile Record.visible).filter (·.name ≠ brc.name)

theorem Holds.scan {buf : Buf} {records : List Record} (holds : Holds buf records) :
    scanRecords buf.size buf.ptr buf.size = records.takeWhile Record.visible := by
  have lengthEq : (buf.ptr.take buf.size).length = buf.size := by
    rw [List.length_take, Nat.min_eq_left holds.size_le]
  have scanned := scanRecords_eq holds.encodes (buf.ptr.drop buf.size)
    (Nat.le_of_eq lengthEq)
  rwa [lengthEq, List.take_append_drop] at scanned

theorem Holds.find {buf : Buf} {records : List Record} (holds : Holds buf records)
    (name : CString) :
    buf.find name = (records.takeWhile Record.visible).find? (·.name = name) := by
  rw [Buf.find, holds.scan]

theorem Holds.stored {buf : Buf} {records : List Record} (holds : Holds buf records)
    (name : CString) : buf.stored name = itemsOf records name := by
  rw [Buf.stored, holds.find, itemsOf]

theorem brcLoad_holds {file : Option Bytes} {records : List Record}
    (fileHolds : FileHolds file records) (buf : Buf) :
    Holds (brcLoad file buf) records := by
  rcases fileHolds with ⟨rfl, rfl⟩ | ⟨content, rfl, encodes, fits⟩
  · refine ⟨Nat.zero_le _, ?_⟩
    simp only [brcLoad, List.take_zero]
    exact .nil
  · simp only [brcLoad, List.take_of_length_le fits]
    refine ⟨?_, ?_⟩
    · simp only [List.length_append]
      omega
    · simp only [List.take_left']
      exact encodes

theorem brcLoad_capacity {file : Option Bytes} {records : List Record}
    (fileHolds : FileHolds file records) {buf : Buf}
    (capacity : buf.ptr.length = brcBufsize) :
    (brcLoad file buf).ptr.length = brcBufsize := by
  rcases fileHolds with ⟨rfl, rfl⟩ | ⟨content, rfl, -, fits⟩
  · exact capacity
  · simp only [brcLoad, List.take_of_length_le fits, List.length_append,
      List.length_drop]
    omega

/-- The current record can be put into a buffer. -/
structure Brc.Storable (brc : Brc) : Prop where
  name : brc.name.bytes.length < brcStrlen
  length_le : brc.items.length ≤ brcMaxnum

theorem mergedRecords_valid {brc : Brc} (storable : brc.Storable)
    {records : List Record} (valid : ∀ record ∈ records, record.Valid) :
    ∀ record ∈ mergedRecords brc records, record.Valid := by
  intro record member
  rcases List.mem_append.mp member with own | other
  · split at own
    · cases own
    · rename_i nonempty
      rw [List.mem_singleton] at own
      subst own
      exact ⟨storable.name, nonempty, storable.length_le⟩
  · have inSource := List.takeWhile_sublist _ |>.subset (List.mem_of_mem_filter other)
    exact valid record inSource

theorem totalSize_mergedRecords {brc : Brc} (storable : brc.Storable)
    (records : List Record) :
    totalSize (mergedRecords brc records) ≤ totalSize records + brcItemsize := by
  have others := totalSize_sublist
    ((List.filter_sublist (p := fun record => decide (record.name ≠ brc.name))).trans
      (List.takeWhile_sublist (l := records) Record.visible))
  have own : totalSize (if brc.items = [] then [] else [brc.record]) ≤ brcItemsize := by
    have length_le := storable.length_le
    split
    · exact Nat.zero_le _
    · simp only [totalSize, List.map_cons, List.map_nil, List.sum_singleton,
        Record.byteSize, Brc.record, brcItemsize]
      omega
  unfold mergedRecords
  rw [totalSize, List.map_append, List.sum_append]
  unfold totalSize at own others ⊢
  omega

/-- The buffer that `brc_merge` leaves, in terms of writing records. -/
theorem brcMerge_eq {source : Buf} {session : Session} {records : List Record}
    (holds : Holds source records) (fits : source.size ≤ mergeLimit) :
    brcMerge source session =
      let put := putRecords session.buf.ptr (mergedRecords session.brc records)
      { session with
        buf :=
          { session.buf with
            size := put.1.length
            dirty := true
            ptr := put.1 ++ put.2 }
        brc := { session.brc with dirty := false } } := by
  unfold brcMerge mergedRecords
  simp only [if_neg (Nat.not_lt.mpr fits), holds.scan]
  by_cases empty : session.brc.items = []
  · simp [empty, brcPutRecord, Brc.record]
  · simp [empty, putRecords]

theorem brcMerge_spec {source : Buf} {session : Session} {records : List Record}
    (holds : Holds source records) (fits : source.size ≤ mergeLimit)
    (capacity : session.buf.ptr.length = brcBufsize)
    (storable : session.brc.Storable) :
    ∃ buf, brcMerge source session =
        { session with buf := buf, brc := { session.brc with dirty := false } } ∧
      Holds buf (mergedRecords session.brc records) ∧
      buf.ptr.length = brcBufsize ∧ buf.dirty = true ∧
      buf.initialized = session.buf.initialized := by
  have sourceSize : totalSize records = source.size := by
    rw [← holds.encodes.length, List.length_take, Nat.min_eq_left holds.size_le]
  have room : totalSize (mergedRecords session.brc records) ≤
      session.buf.ptr.length := by
    have bound := totalSize_mergedRecords storable records
    have itemSmall : brcItemsize ≤ brcBufsize := by decide
    unfold mergeLimit at fits
    omega
  obtain ⟨written, putEq, encodes⟩ :=
    putRecords_spec (mergedRecords_valid storable holds.encodes.valid) room
  have writtenLength := encodes.length
  refine ⟨_, brcMerge_eq holds fits, ⟨?_, ?_⟩, ?_, rfl, rfl⟩
  · simp only [putEq, List.length_append]
    omega
  · simp only [putEq, List.take_left']
    exact encodes
  · simp only [putEq, List.length_append, List.length_drop]
    omega

section Lookup

variable {brc : Brc} {records : List Record}

/-- The current board is found first after a merge. -/
theorem itemsOf_mergedRecords_self (nonempty : brc.items ≠ [])
    (visible : brc.record.visible = true) :
    itemsOf (mergedRecords brc records) brc.name = brc.items := by
  unfold itemsOf mergedRecords
  rw [if_neg nonempty, List.singleton_append, List.takeWhile_cons_of_pos visible,
    List.find?_cons_of_pos (by simp [Brc.record])]
  rfl

/-- A merge keeps what the source holds for the other boards. -/
theorem itemsOf_mergedRecords_other (nonempty : brc.items ≠ [])
    (visible : brc.record.visible = true) {name : CString}
    (other : name ≠ brc.name) :
    itemsOf (mergedRecords brc records) name = itemsOf records name := by
  have allVisible : ∀ record ∈ (records.takeWhile Record.visible).filter
      (fun record => decide (record.name ≠ brc.name)), record.visible = true := by
    intro record member
    exact List.mem_takeWhile_imp (List.mem_of_mem_filter member)
  have notOwn : decide (brc.record.name = name) = false :=
    decide_eq_false other.symm
  have findOther : ((records.takeWhile Record.visible).filter
      fun record => decide (record.name ≠ brc.name)).find?
        (fun record => decide (record.name = name)) =
      (records.takeWhile Record.visible).find?
        fun record => decide (record.name = name) := by
    rw [List.find?_filter]
    congr 1
    funext record
    by_cases equal : record.name = name
    · simp [equal, other]
    · simp [equal]
  unfold itemsOf mergedRecords
  rw [if_neg nonempty, List.singleton_append, List.takeWhile_cons_of_pos visible,
    List.takeWhile_eq_self_iff.mpr allVisible, List.find?_cons, notOwn, findOther]

end Lookup

structure Marked (brc after : Brc) : Prop where
  name : after.name = brc.name
  length_le : brc.items.length ≤ brcMaxnum → after.items.length ≤ brcMaxnum
  nonempty : brc.items ≠ [] → after.items ≠ []
  dirty : after = brc ∨ after.dirty = true

theorem Marked.refl (brc : Brc) : Marked brc brc :=
  ⟨rfl, id, id, .inl rfl⟩

theorem Marked.trans {first second third : Brc} (before : Marked first second)
    (after : Marked second third) : Marked first third where
  name := after.name.trans before.name
  length_le := after.length_le ∘ before.length_le
  nonempty := after.nonempty ∘ before.nonempty
  dirty := by
    rcases after.dirty with equal | dirty
    · exact equal ▸ before.dirty
    · exact .inr dirty

theorem brcMarkAsRead_marked (item : Item) (brc : Brc) :
    Marked brc (brcMarkAsRead item brc).2 := by
  unfold brcMarkAsRead
  split
  · exact ⟨rfl, fun _ => by simp [brcMaxnum], fun _ => by simp, .inr rfl⟩
  · split
    · split
      · rename_i room
        refine ⟨rfl, fun _ => ?_, fun _ => by simp, .inr rfl⟩
        rw [List.length_append, List.length_singleton]
        exact room
      · exact .refl brc
    · split
      · exact .refl brc
      · refine ⟨rfl, fun length_le => ?_, fun nonempty => ?_, .inr rfl⟩
        · simp only [List.length_take]
          split <;> omega
        · have positive := List.length_pos_iff.mpr nonempty
          apply List.ne_nil_of_length_pos
          simp only [List.length_take, List.length_append, List.length_cons]
          split <;> omega

theorem clearLoop_marked {fuel : Nat} {i : UInt32} {item : Item} {brc after : Brc}
    (clears : clearLoop fuel i item brc = some after) : Marked brc after := by
  induction fuel generalizing i brc with
  | zero => cases clears
  | succ fuel ih =>
    unfold clearLoop at clears
    split at clears
    · exact (brcMarkAsRead_marked i brc).trans (ih clears)
    · rw [Option.some.injEq] at clears
      exact clears ▸ .refl brc

/-- The file, the buffer and the current record are well formed. -/
structure Sound (session : Session) : Prop where
  file : ∃ records, FileHolds session.file records
  buf : ∃ records, Holds session.buf records
  capacity : session.buf.ptr.length = brcBufsize
  storable : session.brc.Storable

/-- A board is current, and the buffer holds the others as they were left. -/
structure Opened (observed : Observed) : Prop where
  initialized : observed.session.buf.initialized = true
  visible : observed.session.brc.record.visible = true
  nonempty : observed.session.brc.items ≠ []
  current : observed.last observed.session.brc.name =
    some observed.session.brc.items
  others : ∀ name items, observed.last name = some items →
    name ≠ observed.session.brc.name → observed.session.buf.stored name = items
  clean : observed.session.brc.dirty = false →
    observed.session.buf.stored observed.session.brc.name =
      observed.session.brc.items
  untouched : observed.session.buf.dirty = false → ∀ name,
    observed.session.buf.stored name =
      (brcLoad observed.session.file observed.session.buf).stored name

/-- No board has been opened. -/
structure Closed (observed : Observed) : Prop where
  initialized : observed.session.buf.initialized = false
  name : observed.session.brc.name = .empty
  last : ∀ name, observed.last name = none

structure Coherent (observed : Observed) : Prop where
  sound : Sound observed.session
  visited : ∀ name, (observed.last name).isSome → name ∈ observed.visited
  phase : Closed observed ∨ Opened observed

theorem BoardName.ne_empty (board : BoardName) : CString.empty ≠ board.str :=
  fun equal => board.nonempty (by rw [← equal]; rfl)

theorem printable_of_validBoardNameByte {byte : UInt8}
    (valid : validBoardNameByte byte = true) : printable byte = true := by
  simp only [validBoardNameByte, printable, Bool.or_eq_true, Bool.and_eq_true,
    decide_eq_true_eq, beq_iff_eq, UInt8.le_iff_toNat_le, ← UInt8.toNat_inj,
    UInt8.reduceToNat] at valid ⊢
  omega

theorem BoardName.visible (board : BoardName) (items : List Item) :
    Record.visible ⟨board.str, items⟩ = true := by
  obtain ⟨byte, rest, bytesEq⟩ := List.exists_cons_of_ne_nil board.nonempty
  have valid := board.valid byte (by rw [bytesEq]; exact List.mem_cons_self)
  simp only [Record.visible, bytesEq, List.headD_cons]
  exact printable_of_validBoardNameByte valid

theorem BoardName.truncate (board : BoardName) :
    board.str.truncate brcStrlen = board.str :=
  CString.truncate_of_length_lt (lt_of_le_of_lt board.fits (by decide))

/-- The observation is unchanged when the current board's list is. -/
theorem note_last_of_items_eq {observed : Observed} (opened : Opened observed)
    {session : Session} (nameEq : session.brc.name = observed.session.brc.name)
    (itemsEq : session.brc.items = observed.session.brc.items) :
    (observed.note session).last = observed.last := by
  simp only [Observed.note, nameEq, itemsEq, opened.current, Option.isSome_some,
    if_true]
  rw [← opened.current, Function.update_eq_self]

theorem Brc.zero_storable : Brc.zero.Storable :=
  ⟨by decide, by decide⟩

theorem Sound.initial {file : Option Bytes} {records : List Record}
    (fileHolds : FileHolds file records) : Sound ⟨file, Buf.zero, Brc.zero⟩ where
  file := ⟨records, fileHolds⟩
  buf := ⟨[], Nat.zero_le _, .nil⟩
  capacity := List.length_replicate
  storable := Brc.zero_storable

theorem Coherent.initial {file : Option Bytes} {records : List Record}
    (fileHolds : FileHolds file records) : Coherent (Observed.initial file) where
  sound := Sound.initial fileHolds
  visited := by simp [Observed.initial]
  phase := .inl ⟨rfl, rfl, fun _ => rfl⟩

/-- What the file holds does not depend on the buffer it is read into. -/
theorem brcLoad_stored {file : Option Bytes} {records : List Record}
    (fileHolds : FileHolds file records) (buf : Buf) (name : CString) :
    (brcLoad file buf).stored name = itemsOf records name :=
  (brcLoad_holds fileHolds buf).stored name

theorem note_visited {observed : Observed} {session : Session}
    (visited : ∀ name, (observed.last name).isSome → name ∈ observed.visited)
    (name : CString) (noted : ((observed.note session).last name).isSome) :
    name ∈ (observed.note session).visited := by
  simp only [Observed.note] at noted
  apply visited
  by_cases current : (observed.last session.brc.name).isSome
  · by_cases same : name = session.brc.name
    · rwa [same]
    · rwa [if_pos current, Function.update_of_ne same] at noted
  · rwa [if_neg current] at noted

theorem update_visited {observed : Observed}
    (visited : ∀ name, (observed.last name).isSome → name ∈ observed.visited)
    {board : CString} {items : List Item} (name : CString)
    (noted : (Function.update observed.last board (some items) name).isSome) :
    name ∈ board :: observed.visited := by
  by_cases same : name = board
  · exact same ▸ List.mem_cons_self
  · rw [Function.update_of_ne same] at noted
    exact List.mem_cons_of_mem board (visited name noted)

theorem Coherent.note {observed : Observed} (coherent : Coherent observed)
    {brc : Brc} (marked : Marked observed.session.brc brc) :
    Coherent (observed.note { observed.session with brc := brc }) := by
  obtain ⟨⟨file, buf, capacity, storable⟩, visited, phase⟩ := coherent
  refine ⟨⟨file, buf, capacity, ?_⟩, note_visited visited, ?_⟩
  · exact ⟨marked.name ▸ storable.name, marked.length_le storable.length_le⟩
  · rcases phase with ⟨initialized, name, last⟩ | opened
    · left
      refine ⟨initialized, marked.name.trans name, fun other => ?_⟩
      simp [Observed.note, last]
    · right
      have noted : (observed.last brc.name).isSome := by
        rw [marked.name, opened.current]
        rfl
      have lastEq : (observed.note { observed.session with brc := brc }).last =
          Function.update observed.last brc.name (some brc.items) :=
        if_pos noted
      refine ⟨opened.initialized, ?_, marked.nonempty opened.nonempty, ?_, ?_, ?_,
        opened.untouched⟩
      · have visible := opened.visible
        unfold Record.visible Brc.record at visible ⊢
        rw [Observed.note, marked.name]
        exact visible
      · rw [lastEq]
        exact Function.update_self brc.name _ observed.last
      · intro other items visited different
        have notCurrent : other ≠ brc.name := different
        rw [lastEq, Function.update_of_ne notCurrent] at visited
        exact opened.others other items visited (marked.name ▸ notCurrent)
      · intro notDirty
        rcases marked.dirty with unchanged | dirty
        · subst unchanged
          exact opened.clean notDirty
        · have contradiction : brc.dirty = false := notDirty
          rw [dirty] at contradiction
          cases contradiction

/-- After leaving a board the buffer is initialised and holds every board
visited as it was left. -/
structure Left (observed : Observed) (session : Session) : Prop where
  sound : Sound session
  initialized : session.buf.initialized = true
  stored : ∀ name items, observed.last name = some items →
    session.buf.stored name = items
  untouched : session.buf.dirty = false → ∀ name,
    session.buf.stored name = (brcLoad session.file session.buf).stored name

/-- Writing the current record into the buffer, if it has changed. -/
theorem merge_own {session : Session} (sound : Sound session)
    (fits : session.brc.dirty = true → session.buf.size ≤ mergeLimit) :
    Sound (if session.brc.dirty then brcMerge session.buf session else session) ∧
      (if session.brc.dirty then brcMerge session.buf session
        else session).buf.initialized = session.buf.initialized := by
  cases dirty : session.brc.dirty with
  | false => exact ⟨sound, rfl⟩
  | true =>
    obtain ⟨records, holds⟩ := sound.buf
    obtain ⟨buf, mergeEq, bufHolds, capacity, -, initialized⟩ :=
      brcMerge_spec holds (fits dirty) sound.capacity sound.storable
    rw [if_pos rfl, mergeEq]
    exact ⟨⟨sound.file, ⟨_, bufHolds⟩, capacity,
      ⟨sound.storable.name, sound.storable.length_le⟩⟩, initialized⟩

theorem leaveBoard_closed {observed : Observed} (sound : Sound observed.session)
    (closed : Closed observed)
    (fits : observed.session.brc.dirty = true →
      observed.session.buf.size ≤ mergeLimit) :
    Left observed (leaveBoard observed.session) := by
  obtain ⟨merged, initialized⟩ := merge_own sound fits
  unfold leaveBoard
  generalize (if observed.session.brc.dirty then
    brcMerge observed.session.buf observed.session else observed.session) = session
    at merged initialized ⊢
  rw [closed.initialized] at initialized
  simp only [initialized, Bool.false_eq_true, if_false]
  obtain ⟨records, fileHolds⟩ := merged.file
  have loadHolds := brcLoad_holds fileHolds session.buf
  refine ⟨⟨merged.file, ⟨records, loadHolds⟩,
    brcLoad_capacity fileHolds merged.capacity, merged.storable⟩, ?_, ?_, ?_⟩
  · rcases fileHolds with ⟨fileEq, -⟩ | ⟨content, fileEq, -⟩ <;>
      rw [fileEq] <;> rfl
  · intro name items visited
    rw [closed.last] at visited
    cases visited
  · intro _ name
    rw [loadHolds.stored, brcLoad_stored fileHolds]

theorem leaveBoard_opened {observed : Observed} (sound : Sound observed.session)
    (opened : Opened observed)
    (fits : observed.session.brc.dirty = true →
      observed.session.buf.size ≤ mergeLimit) :
    Left observed (leaveBoard observed.session) := by
  obtain ⟨records, holds⟩ := sound.buf
  unfold leaveBoard
  cases dirty : observed.session.brc.dirty with
  | false =>
    simp only [Bool.false_eq_true, if_false, opened.initialized, if_true]
    refine ⟨sound, opened.initialized, fun name items visited => ?_,
      opened.untouched⟩
    by_cases same : name = observed.session.brc.name
    · subst same
      rw [opened.current, Option.some.injEq] at visited
      exact visited ▸ opened.clean dirty
    · exact opened.others name items visited same
  | true =>
    obtain ⟨buf, mergeEq, bufHolds, capacity, bufDirty, initialized⟩ :=
      brcMerge_spec holds (fits dirty) sound.capacity sound.storable
    rw [opened.initialized] at initialized
    simp only [if_true, mergeEq, initialized]
    refine ⟨⟨sound.file, ⟨_, bufHolds⟩, capacity,
      ⟨sound.storable.name, sound.storable.length_le⟩⟩, initialized,
      fun name items visited => ?_, fun notDirty => ?_⟩
    · rw [bufHolds.stored]
      by_cases same : name = observed.session.brc.name
      · subst same
        rw [opened.current, Option.some.injEq] at visited
        rw [itemsOf_mergedRecords_self opened.nonempty opened.visible, visited]
      · rw [itemsOf_mergedRecords_other opened.nonempty opened.visible same,
          ← holds.stored]
        exact opened.others name items visited same
    · simp only at notDirty
      rw [bufDirty] at notDirty
      cases notDirty

theorem Coherent.leaveBoard {observed : Observed} (coherent : Coherent observed)
    (fits : observed.session.brc.dirty = true →
      observed.session.buf.size ≤ mergeLimit) :
    Left observed (Boardrc.leaveBoard observed.session) := by
  rcases coherent.phase with closed | opened
  · exact leaveBoard_closed coherent.sound closed fits
  · exact leaveBoard_opened coherent.sound opened fits

/-- Making another board current. -/
theorem Left.opened {observed : Observed} {session : Session}
    (left : Left observed session) {brc : Brc} (visible : brc.record.visible = true)
    (nonempty : brc.items ≠ [])
    (clean : brc.dirty = false → session.buf.stored brc.name = brc.items) :
    Opened
      { session := { session with brc := brc }
        visited := brc.name :: observed.visited
        last := Function.update observed.last brc.name (some brc.items) } where
  initialized := left.initialized
  visible := visible
  nonempty := nonempty
  current := Function.update_self brc.name _ observed.last
  others name items visited different := by
    have notCurrent : name ≠ brc.name := different
    simp only [Function.update_of_ne notCurrent] at visited
    exact left.stored name items visited
  clean := clean
  untouched := left.untouched

theorem Coherent.init {observed next : Observed} (coherent : Coherent observed)
    {board : BoardName} (safe : Safe observed (.init board))
    (stepEq : step observed (.init board) = some next) : Coherent next := by
  rw [step, Option.some.injEq] at stepEq
  subst stepEq
  unfold brcInit
  by_cases same : observed.session.brc.name = board.str
  · rw [if_pos same]
    rcases coherent.phase with closed | opened
    · exact absurd (closed.name.symm.trans same) board.ne_empty
    · have unchanged : Function.update observed.last board.str
          (some observed.session.brc.items) = observed.last := by
        rw [← same, ← opened.current, Function.update_eq_self]
      simp only [unchanged]
      exact ⟨coherent.sound,
        fun name noted => List.mem_cons_of_mem _ (coherent.visited name noted),
        .inr ⟨opened.initialized, opened.visible, opened.nonempty, opened.current,
          opened.others, opened.clean, opened.untouched⟩⟩
  · rw [if_neg same]
    have left := coherent.leaveBoard (safe same)
    obtain ⟨records, holds⟩ := left.sound.buf
    cases found : (Boardrc.leaveBoard observed.session).buf.find board.str with
    | none =>
      simp only [found, board.truncate]
      refine ⟨⟨left.sound.file, left.sound.buf, left.sound.capacity, ?_⟩,
        update_visited coherent.visited, .inr ?_⟩
      · exact ⟨lt_of_le_of_lt board.fits (by decide), Nat.le_of_ble_eq_true rfl⟩
      · exact left.opened (board.visible [1]) (List.cons_ne_nil 1 [])
          (fun notDirty => Bool.noConfusion notDirty)
    | some record =>
      simp only [found]
      rw [holds.find] at found
      have nameEq : record.name = board.str := by
        simpa using List.find?_some found
      have member := List.mem_of_find?_eq_some found
      have valid := holds.encodes.valid record
        ((List.takeWhile_sublist _).subset member)
      refine ⟨⟨left.sound.file, left.sound.buf, left.sound.capacity,
        ⟨valid.name, valid.length_le⟩⟩, update_visited coherent.visited, .inr ?_⟩
      rw [← nameEq] at found ⊢
      refine left.opened (List.mem_takeWhile_imp member) valid.nonempty fun _ => ?_
      rw [holds.stored, itemsOf, found]
      rfl

/-- Every board visited can be read back from the file. -/
def Saved (observed : Observed) : Prop :=
  ∀ name items, observed.last name = some items →
    (brcLoad observed.session.file Buf.zero).stored name = items

theorem brcLoad_size (file : Option Bytes) (first second : Buf) :
    (brcLoad file first).size = (brcLoad file second).size := by
  cases file <;> rfl

/-- A synchronisation that has nothing to write finds everything in the file. -/
theorem Opened.saved {observed : Observed} (opened : Opened observed)
    (sound : Sound observed.session)
    (brcClean : observed.session.brc.dirty = false)
    (bufClean : observed.session.buf.dirty = false) : Saved observed := by
  intro name items visited
  obtain ⟨records, fileHolds⟩ := sound.file
  have fromBuffer := opened.untouched bufClean name
  rw [brcLoad_stored fileHolds] at fromBuffer
  rw [brcLoad_stored fileHolds, ← fromBuffer]
  by_cases same : name = observed.session.brc.name
  · subst same
    rw [opened.current, Option.some.injEq] at visited
    exact visited ▸ opened.clean brcClean
  · exact opened.others name items visited same

/-- The session after a synchronisation that writes. -/
theorem brcSync_spec {session : Session} (sound : Sound session) (stack : Bytes)
    {records : List Record} (fileHolds : FileHolds session.file records)
    (writes : (session.brc.dirty || session.buf.dirty) = true)
    (fits : (brcLoad session.file session.buf).size ≤ mergeLimit) :
    ∃ file buf, brcSync stack session =
        { file := file, buf := buf, brc := { session.brc with dirty := false } } ∧
      FileHolds file (mergedRecords session.brc records) ∧
      Holds buf (mergedRecords session.brc records) ∧
      buf.ptr.length = brcBufsize ∧ buf.dirty = true ∧
      buf.initialized = session.buf.initialized := by
  have sourceHolds := brcLoad_holds fileHolds ⟨0, false, false, stack⟩
  have sourceFits := brcLoad_size session.file session.buf ⟨0, false, false, stack⟩
  obtain ⟨buf, mergeEq, bufHolds, capacity, dirty, initialized⟩ :=
    brcMerge_spec sourceHolds (sourceFits ▸ fits) sound.capacity sound.storable
  have notIdle : ¬ (!session.brc.dirty && !session.buf.dirty) = true := by
    rw [← Bool.not_or, writes]
    decide
  refine ⟨some (buf.ptr.take buf.size), buf, ?_, ?_, bufHolds, capacity, dirty,
    initialized⟩
  · simp only [brcSync, if_neg notIdle, mergeEq, brcSave]
  · refine .inr ⟨_, rfl, bufHolds.encodes, ?_⟩
    rw [List.length_take, capacity]
    exact Nat.min_le_right _ _

/-- A synchronisation that finds nothing to write. -/
theorem Coherent.sync_idle {observed : Observed} (coherent : Coherent observed)
    {stack : Bytes}
    (clean : (observed.session.brc.dirty || observed.session.buf.dirty) = false) :
    Coherent (observed.note (brcSync stack observed.session)) ∧
      Saved (observed.note (brcSync stack observed.session)) := by
  obtain ⟨sound, visited, phase⟩ := coherent
  obtain ⟨brcClean, bufClean⟩ := Bool.or_eq_false_iff.mp clean
  have idle : brcSync stack observed.session = observed.session := by
    simp [brcSync, brcClean, bufClean]
  rw [idle]
  rcases phase with closed | opened
  · have lastEq : observed.note observed.session = observed := by
      simp [Observed.note, closed.last]
    rw [lastEq]
    refine ⟨⟨sound, visited, .inl closed⟩, fun name items noted => ?_⟩
    rw [closed.last] at noted
    cases noted
  · have lastEq : observed.note observed.session = observed := by
      have last := note_last_of_items_eq opened rfl rfl
      exact congrArg (Observed.mk observed.session observed.visited) last
    rw [lastEq]
    exact ⟨⟨sound, visited, .inr opened⟩, opened.saved sound brcClean bufClean⟩

/-- What a synchronisation writes agrees with the last lists, if the buffer and
the file agreed on the other boards. -/
theorem Opened.merged {observed : Observed} {records : List Record}
    (opened : Opened observed)
    (visited : ∀ name, (observed.last name).isSome → name ∈ observed.visited)
    (fileHolds : FileHolds observed.session.file records)
    (agrees : ∀ name ∈ observed.visited, name ≠ observed.session.brc.name →
      observed.session.buf.stored name =
        (brcLoad observed.session.file observed.session.buf).stored name)
    {name : CString} {items : List Item} (noted : observed.last name = some items) :
    itemsOf (mergedRecords observed.session.brc records) name = items := by
  by_cases same : name = observed.session.brc.name
  · subst same
    rw [opened.current, Option.some.injEq] at noted
    rw [itemsOf_mergedRecords_self opened.nonempty opened.visible, noted]
  · rw [itemsOf_mergedRecords_other opened.nonempty opened.visible same,
      ← brcLoad_stored fileHolds observed.session.buf,
      ← agrees name (visited name (by rw [noted]; rfl)) same]
    exact opened.others name items noted same

theorem Coherent.sync_writes {observed : Observed} (coherent : Coherent observed)
    {stack : Bytes}
    (writes : (observed.session.brc.dirty || observed.session.buf.dirty) = true)
    (fits : (brcLoad observed.session.file observed.session.buf).size ≤ mergeLimit)
    (agrees : ∀ name ∈ observed.visited, name ≠ observed.session.brc.name →
      observed.session.buf.stored name =
        (brcLoad observed.session.file observed.session.buf).stored name) :
    Coherent (observed.note (brcSync stack observed.session)) ∧
      Saved (observed.note (brcSync stack observed.session)) := by
  obtain ⟨sound, visited, phase⟩ := coherent
  obtain ⟨records, fileHolds⟩ := sound.file
  obtain ⟨file, buf, syncEq, newFile, bufHolds, capacity, dirty, initialized⟩ :=
    brcSync_spec sound stack fileHolds writes fits
  rw [syncEq]
  have newSound : Sound ⟨file, buf, { observed.session.brc with dirty := false }⟩ :=
    ⟨⟨_, newFile⟩, ⟨_, bufHolds⟩, capacity,
      ⟨sound.storable.name, sound.storable.length_le⟩⟩
  rcases phase with closed | opened
  · refine ⟨⟨newSound, note_visited visited,
      .inl ⟨?_, closed.name, fun name => ?_⟩⟩, ?_⟩
    · exact initialized.trans closed.initialized
    · simp [Observed.note, closed.last]
    · intro name items noted
      simp [Observed.note, closed.last] at noted
  · have lastEq : (observed.note ⟨file, buf,
        { observed.session.brc with dirty := false }⟩).last = observed.last :=
      note_last_of_items_eq opened rfl rfl
    have merged : ∀ name items, observed.last name = some items →
        itemsOf (mergedRecords observed.session.brc records) name = items :=
      fun _ _ noted => opened.merged visited fileHolds agrees noted
    refine ⟨⟨newSound, note_visited visited,
      .inr ⟨initialized.trans opened.initialized, opened.visible,
        opened.nonempty, ?_, ?_, ?_, ?_⟩⟩, ?_⟩
    · rw [lastEq]
      exact opened.current
    · intro name items noted _
      rw [lastEq] at noted
      exact (bufHolds.stored name).trans (merged name items noted)
    · intro _
      exact (bufHolds.stored _).trans (merged _ _ opened.current)
    · intro notDirty
      rw [show buf.dirty = false from notDirty] at dirty
      cases dirty
    · intro name items noted
      rw [lastEq] at noted
      exact (brcLoad_stored newFile Buf.zero name).trans (merged name items noted)

theorem Coherent.sync {observed next : Observed} (coherent : Coherent observed)
    {stack : Bytes} (safe : Safe observed (.sync stack))
    (stepEq : step observed (.sync stack) = some next) :
    Coherent next ∧ Saved next := by
  rw [step, Option.some.injEq] at stepEq
  subst stepEq
  cases writes : (observed.session.brc.dirty || observed.session.buf.dirty) with
  | false => exact coherent.sync_idle writes
  | true =>
    obtain ⟨fits, agrees⟩ := safe writes
    exact coherent.sync_writes writes fits agrees

theorem Coherent.step {observed next : Observed} {action : Action}
    (coherent : Coherent observed) (safe : Safe observed action)
    (stepEq : Boardrc.step observed action = some next) : Coherent next := by
  cases action with
  | init board => exact coherent.init safe stepEq
  | mark item =>
    rw [Boardrc.step, Option.some.injEq] at stepEq
    exact stepEq ▸ coherent.note (brcMarkAsRead_marked item _)
  | clear item =>
    rw [Boardrc.step] at stepEq
    obtain ⟨brc, clears, nextEq⟩ := Option.bind_eq_some_iff.mp stepEq
    rw [Option.some.injEq] at nextEq
    exact nextEq ▸ coherent.note (clearLoop_marked clears)
  | sync stack => exact (coherent.sync safe stepEq).1

/-- Opening a board after `brc_reset` reads its list from the file. -/
theorem brcInit_brcReset (board : BoardName) (session : Session) :
    (brcInit board.str (brcReset session)).2.brc.items =
      (brcLoad session.file Buf.zero).stored board.str := by
  have notCurrent : ¬ (brcReset session).brc.name = board.str := board.ne_empty
  have left : leaveBoard (brcReset session) =
      { brcReset session with buf := brcLoad session.file Buf.zero } := rfl
  unfold brcInit Buf.stored
  simp only [if_neg notCurrent, left]
  cases (brcLoad session.file Buf.zero).find board.str <;> rfl

open TransitionRuns

/-- From any well-formed file, a session whose actions are all safe and that
ends with a synchronisation loses no marks: opening a board again after a reset
gives the list it had when it was last current. -/
theorem reload_last {file : Option Bytes} {records : List Record}
    (fileHolds : FileHolds file records) {actions : List Action} {stack : Bytes}
    (safe : Guarded step Safe (actions ++ [.sync stack]) (Observed.initial file))
    {final : Observed}
    (runs : run step (actions ++ [.sync stack]) (Observed.initial file) = some final)
    (board : BoardName) (items : List Item)
    (visited : final.last board.str = some items) :
    (brcInit board.str (brcReset final.session)).2.brc.items = items := by
  rw [run_append] at runs
  obtain ⟨observed, earlier, lastRun⟩ := Option.bind_eq_some_iff.mp runs
  obtain ⟨next, syncEq, finalEq⟩ := run_cons lastRun
  obtain ⟨earlierSafe, laterSafe⟩ := guarded_append safe
  have coherent : Coherent observed :=
    invariant_of_guarded Coherent
      (fun _ _ _ coherent safe stepEq => coherent.step safe stepEq)
      (Coherent.initial fileHolds) earlierSafe earlier
  have saved := (coherent.sync (laterSafe observed earlier).1 syncEq).2
  rw [run, Option.some.injEq] at finalEq
  subst finalEq
  rw [brcInit_brcReset]
  exact saved board.str items visited

def boardA : BoardName where
  str := ⟨[0x41], by decide⟩
  fits := by decide
  nonempty := by decide
  valid := List.forall_mem_singleton.mpr (by decide)

def boardB : BoardName where
  str := ⟨[0x42], by decide⟩
  fits := by decide
  nonempty := by decide
  valid := List.forall_mem_singleton.mpr (by decide)

/-- The first board is synchronised before the second is opened. -/
def syncedActions : List Action :=
  [.init boardA, .mark 5, .sync [], .init boardB]

theorem reload_last_synced :
    ∃ final, run step (syncedActions ++ [.sync []]) (Observed.initial none) =
        some final ∧
      final.last boardA.str = some [5, 1] ∧
      (brcInit boardA.str (brcReset final.session)).2.brc.items = [5, 1] := by
  have observed : (run step (syncedActions ++ [.sync []])
      (Observed.initial none)).map (fun final => final.last boardA.str) =
      some (some [5, 1]) := by
    decide
  obtain ⟨final, runs, visited⟩ := Option.map_eq_some_iff.mp observed
  have safe : Guarded step Safe (syncedActions ++ [.sync []])
      (Observed.initial none) := by
    decide
  exact ⟨final, runs, visited,
    reload_last (.inl ⟨rfl, rfl⟩) safe runs boardA [5, 1] visited⟩

/-- The marks of the first board are lost when a synchronisation follows the
switch to the second. -/
theorem marks_lost :
    ∃ final, run step
        ([.init boardA, .mark 5, .init boardB, .mark 7] ++ [.sync []])
        (Observed.initial none) = some final ∧
      final.session.buf.size ≤ brcBufsize ∧
      final.last boardA.str = some [5, 1] ∧
      (brcInit boardA.str (brcReset final.session)).2.brc.items = [1] := by
  have observed : (run step
      ([.init boardA, .mark 5, .init boardB, .mark 7] ++ [.sync []])
      (Observed.initial none)).map (fun final =>
        (final.session.buf.size, final.last boardA.str,
          (brcInit boardA.str (brcReset final.session)).2.brc.items)) =
      some (29, some [5, 1], [1]) := by
    decide
  obtain ⟨final, runs, valuesEq⟩ := Option.map_eq_some_iff.mp observed
  simp only [Prod.mk.injEq] at valuesEq
  obtain ⟨sizeEq, lastEq, reloadEq⟩ := valuesEq
  exact ⟨final, runs, by rw [sizeEq]; decide, lastEq, reloadEq⟩

end Boardrc

end Fbbs
