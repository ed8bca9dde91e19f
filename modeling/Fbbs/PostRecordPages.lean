import Fbbs.RecordCache
import Fbbs.RecordSearch

/-!
# Reading a page of post records

`post_record_read` of `lib/post.c` reads records of a board or of its trash in chunks and
converts them to the entries of a page.  The pointer to the page does not move between two
chunks, and the converter for the trash takes the name of the eraser from the first record of
the chunk.
-/

namespace Fbbs

namespace PostRecordPages

open RecordCache RecordScan Post

/-- `POST_BOARD_BUF_SIZE` and `POST_TRASH_BUF_SIZE`. -/
def postBufSize : Nat := 50

/-- `BOARD_NAME_LEN`, the size of `board_name` in `post_info_t`. -/
def infoNameSize : Nat := 17

theorem infoNameSize_pos : 0 < infoNameSize := Nat.succ_pos _

/-- `post_record_extended_t`. -/
structure PostRecordExtended where
  basic : PostRecord
  junk : Bool
  bmVisible : Bool
  eraserId : UserId
  stamp : UInt32
  eraserName : CharArray (idLen + 1)
  deriving DecidableEq

/-- `post_info_t`. -/
structure PostInfo where
  id : PostId
  replyId : PostId
  threadId : PostId
  deleteStamp : UInt32
  flag : Int32
  userId : UserId
  userIdReplied : UserId
  boardId : Int32
  userName : CharArray (idLen + 1)
  eraserName : CharArray (idLen + 1)
  boardName : CharArray infoNameSize
  utf8Title : CharArray titleSize
  deriving DecidableEq

def postRecordCmp (r1 r2 : PostRecord) : Int :=
  if r1.id > r2.id then 1 else if r1.id = r2.id then 0 else -1

abbrev Page := Nat → PostInfo

/-- The body of the loop of `post_record_to_info`. -/
def infoOf (pr : PostRecord) : PostInfo where
  flag := pr.flag
  userId := pr.userId
  userIdReplied := pr.userIdReplied
  id := pr.id
  replyId := pr.replyId
  threadId := pr.threadId
  deleteStamp := 0
  boardId := pr.boardId
  userName := Message.getCharArray (idLen + 1) (Nat.succ_pos _) pr.userName.str
  eraserName := ⟨.empty, Nat.succ_pos _⟩
  boardName := Message.getCharArray infoNameSize infoNameSize_pos pr.boardName.str
  utf8Title := Message.getCharArray titleSize titleSize_pos pr.utf8Title.str

/-- A loop that writes an entry for each record, from an index on. -/
def convertLoop {R : Type} (convert : R → PostInfo) : Nat → List R → Page → Page
  | _, [], buf => buf
  | i, pr :: rest, buf => convertLoop convert (i + 1) rest (Function.update buf i (convert pr))

def postRecordToInfo (records : List PostRecord) : Page → Page :=
  convertLoop infoOf 0 records

/-- The body of the loop of `post_record_extended_to_info`; `pre` is the first record. -/
def infoOfExtended (pre pr : PostRecordExtended) : PostInfo :=
  { infoOf pr.basic with
    deleteStamp := pr.stamp
    eraserName := Message.getCharArray (idLen + 1) (Nat.succ_pos _) pre.eraserName.str }

def postRecordExtendedToInfo : List PostRecordExtended → Page → Page
  | [] => id
  | pre :: rest => convertLoop (infoOfExtended pre) 0 (pre :: rest)

/-- The loop of `POST_RECORD_READ_HELPER` over the rest of a file, with the number of records
that it has read. -/
def readHelper {R : Type} (converter : List R → Page → Page) :
    Nat → List R → Int → Nat → Page → Page × Nat
  | 0, _, _, records, buf => (buf, records)
  | fuel + 1, rest, size, records, buf =>
    if size > 0 then
      let max := if size > postBufSize then postBufSize else size.toNat
      let chunk := rest.take max
      if chunk = [] then (buf, records)
      else
        readHelper converter fuel (rest.drop chunk.length) (size - max)
          (records + chunk.length) (converter chunk buf)
    else (buf, records)

/-- A record file with records of the type of its list. -/
inductive PostFile
  | normal (rec : RecordFile PostRecord)
  | deleted (rec : RecordFile PostRecordExtended)

/-- `record_seek` and the loop.  Where the position is not an `int`, the result is `none`. -/
def readFrom {R : Type} (converter : List R → Page → Page) (rec : RecordFile R) (base : Nat)
    (size : Int) (buf : Page) : Option (Page × Nat) :=
  (recordSeek rec 0 base).map fun place =>
    readHelper converter size.toNat (rec.records.drop place) size 0 buf

def postRecordRead (file : PostFile) (base : Nat) (size : Int) (buf : Page) :
    Option (Page × Nat) :=
  match file with
  | .normal rec => readFrom postRecordToInfo rec base size buf
  | .deleted rec => readFrom postRecordExtendedToInfo rec base size buf

/-! ## What a page should hold -/

/-- The records of a file as they should be shown. -/
def PostFile.infos : PostFile → List PostInfo
  | .normal rec => rec.records.map infoOf
  | .deleted rec => rec.records.map fun pr => infoOfExtended pr pr

def PostFile.rlen : PostFile → Nat
  | .normal rec => rec.rlen
  | .deleted rec => rec.rlen

/-- The number of records on a page. -/
def pageSize (file : PostFile) (base : Nat) (size : Int) : Int :=
  min size (max 0 (file.infos.length - base))

/-- Whatever the memory of the page contains, the page is loaded. -/
def LoadsPage (file : PostFile) (base : Nat) (size : Int) : Prop :=
  ∀ buf, ∃ page count, postRecordRead file base size buf = some (page, count) ∧
    (count : Int) = pageSize file base size ∧
    ∀ i : Nat, i < pageSize file base size → file.infos[base + i]? = some (page i)

/-- The records of a page of the trash were erased by one user. -/
def OneEraser (base : Nat) (size : Int) : PostFile → Prop
  | .normal _ => True
  | .deleted rec => ∀ pre pr, (((rec.records.drop base).take size.toNat).head? = some pre) →
      pr ∈ (rec.records.drop base).take size.toNat → pr.eraserName = pre.eraserName

section Helper

variable {R : Type} {convert : R → PostInfo} {converter : List R → Page → Page}
  {buf : Page}

theorem convertLoop_apply (start : Nat) (records : List R) (i : Nat) :
    convertLoop convert start records buf i =
      if start ≤ i then ((records[i - start]?).map convert).getD (buf i) else buf i := by
  induction records generalizing start buf with
  | nil => simp [convertLoop]
  | cons pr rest ih =>
    rw [convertLoop, ih]
    by_cases before : i < start
    · rw [if_neg (by omega), if_neg (by omega), Function.update_of_ne (by omega)]
    · by_cases here : i = start
      · subst here
        simp
      · have offset : i - start = i - (start + 1) + 1 := by omega
        rw [if_pos (by omega), if_pos (by omega), Function.update_of_ne here, offset,
          List.getElem?_cons_succ]

/-- A converter writes an entry for each record of a chunk, which may depend on the first
record of the chunk. -/
def Writes (converter : List R → Page → Page) (convert : R → R → PostInfo) : Prop :=
  ∀ pre rest buf i, converter (pre :: rest) buf i =
    (((pre :: rest)[i]?).map (convert pre)).getD (buf i)

theorem writes_postRecordToInfo : Writes postRecordToInfo fun _ => infoOf := by
  intro pre rest buf i
  rw [postRecordToInfo, convertLoop_apply, if_pos (Nat.zero_le i), Nat.sub_zero]

theorem writes_postRecordExtendedToInfo : Writes postRecordExtendedToInfo infoOfExtended := by
  intro pre rest buf i
  rw [postRecordExtendedToInfo, convertLoop_apply, if_pos (Nat.zero_le i), Nat.sub_zero]

theorem readHelper_end {fuel records : Nat} {rest : List R} {size : Int}
    (done : size ≤ 0 ∨ rest = []) :
    readHelper converter fuel rest size records buf = (buf, records) := by
  cases fuel with
  | zero => rfl
  | succ fuel =>
    rw [readHelper]
    rcases done with empty | rfl
    · rw [if_neg (by omega)]
    · simp

/-- One round of the loop. -/
theorem readHelper_step {fuel records : Nat} {rest : List R} {size : Int} (more : 0 < size) :
    readHelper converter (fuel + 1) rest size records buf =
      if rest = [] then (buf, records)
      else
        readHelper converter fuel (rest.drop (min postBufSize size.toNat))
          (size - min postBufSize size.toNat)
          (records + (rest.take (min postBufSize size.toNat)).length)
          (converter (rest.take (min postBufSize size.toNat)) buf) := by
  have chunk : (if size > postBufSize then postBufSize else size.toNat) =
      min postBufSize size.toNat := by
    split <;> omega
  have positive : 0 < min postBufSize size.toNat := by
    unfold postBufSize
    omega
  rw [readHelper, if_pos more, chunk]
  simp only [List.take_eq_nil_iff, Nat.ne_of_gt positive, false_or]
  split
  · rfl
  · congr 1
    · rw [List.length_take]
      by_cases inside : min postBufSize size.toNat ≤ rest.length
      · rw [Nat.min_eq_left inside]
      · rw [List.drop_eq_nil_of_le (by omega), List.drop_eq_nil_of_le (by omega)]

theorem readHelper_count {fuel records : Nat} {rest : List R} {size : Int}
    (enough : size.toNat ≤ fuel) :
    (readHelper converter fuel rest size records buf).2 =
      records + min size.toNat rest.length := by
  induction fuel generalizing records rest size buf with
  | zero =>
    rw [readHelper_end (.inl (by omega))]
    omega
  | succ fuel ih =>
    by_cases more : 0 < size
    · rw [readHelper_step more]
      split
      · rename_i empty
        rw [empty, List.length_nil, Nat.min_zero, Nat.add_zero]
      · have positive : 0 < min postBufSize size.toNat := by
          unfold postBufSize
          omega
        rw [ih (by omega), List.length_drop, List.length_take]
        omega
    · rw [readHelper_end (.inl (by omega))]
      omega

/-- No entry behind the first chunk is ever written. -/
theorem readHelper_beyond {convertWith : R → R → PostInfo}
    (writes : Writes converter convertWith) {fuel records : Nat} {rest : List R} {size : Int}
    {i : Nat} (beyond : postBufSize ≤ i) :
    (readHelper converter fuel rest size records buf).1 i = buf i := by
  induction fuel generalizing records rest size buf with
  | zero => rfl
  | succ fuel ih =>
    by_cases more : 0 < size
    · rw [readHelper_step more]
      split
      · rfl
      · rw [ih]
        cases chunk : rest.take (min postBufSize size.toNat) with
        | nil =>
          exfalso
          have positive : 0 < min postBufSize size.toNat := by
            unfold postBufSize
            omega
          rcases List.take_eq_nil_iff.mp chunk with none | empty
          · omega
          · exact absurd empty ‹_›
        | cons pre later =>
          have length := congrArg List.length chunk
          rw [List.length_take] at length
          rw [writes, List.getElem?_eq_none (by omega)]
          rfl
    · rw [readHelper_end (.inl (by omega))]

/-- A page that fits into one chunk. -/
theorem readHelper_page {convertWith : R → R → PostInfo}
    (writes : Writes converter convertWith) {fuel : Nat} {pre : R} {rest later : List R}
    {size : Int} (enough : size.toNat ≤ fuel) (page : rest.take size.toNat = pre :: later)
    (small : min size.toNat rest.length ≤ postBufSize) (i : Nat) :
    (readHelper converter fuel rest size 0 buf).1 i =
      (((pre :: later)[i]?).map (convertWith pre)).getD (buf i) := by
  have nonempty : size.toNat ≠ 0 ∧ rest ≠ [] := by
    constructor
    · intro none
      rw [none, List.take_zero] at page
      cases page
    · rintro rfl
      rw [List.take_nil] at page
      cases page
  cases fuel with
  | zero => omega
  | succ fuel =>
    have chunk : rest.take (min postBufSize size.toNat) = rest.take size.toNat := by
      by_cases fits : size.toNat ≤ postBufSize
      · rw [Nat.min_eq_right fits]
      · rw [List.take_of_length_le (by omega), List.take_of_length_le (by omega)]
    have last : size - min postBufSize size.toNat ≤ 0 ∨
        rest.drop (min postBufSize size.toNat) = [] := by
      by_cases fits : size.toNat ≤ postBufSize
      · left
        omega
      · right
        exact List.drop_eq_nil_of_le (by omega)
    rw [readHelper_step (by omega), if_neg nonempty.2, readHelper_end last, chunk, page]
    exact writes pre later buf i

end Helper

/-- An entry of nulls. -/
def blankInfo : PostInfo where
  id := 0
  replyId := 0
  threadId := 0
  deleteStamp := 0
  flag := 0
  userId := 0
  userIdReplied := 0
  boardId := 0
  userName := ⟨.empty, Nat.succ_pos _⟩
  eraserName := ⟨.empty, Nat.succ_pos _⟩
  boardName := ⟨.empty, Nat.succ_pos _⟩
  utf8Title := ⟨.empty, Nat.succ_pos _⟩

section Pages

variable {R : Type} {converter : List R → Page → Page} {convertWith : R → R → PostInfo}
  {rec : RecordFile R} {base : Nat} {size : Int} {buf : Page}

def recordsOf (rec : RecordFile R) (base : Nat) (size : Int) : List R :=
  (rec.records.drop base).take size.toNat

theorem length_recordsOf :
    (recordsOf rec base size).length = min size.toNat (rec.records.length - base) := by
  rw [recordsOf, List.length_take, List.length_drop]

theorem readFrom_eq (fits : base * rec.rlen < 2 ^ 31) :
    readFrom converter rec base size buf =
      some (readHelper converter size.toNat (rec.records.drop base) size 0 buf) := by
  rw [readFrom, recordSeek_ofNat, if_pos fits]
  rfl

theorem readFrom_overflow (large : ¬base * rec.rlen < 2 ^ 31) :
    readFrom converter rec base size buf = none := by
  rw [readFrom, recordSeek_ofNat, if_neg large]
  rfl

/-- A page of one chunk: each entry is converted beside the first one. -/
theorem readFrom_entry (writes : Writes converter convertWith)
    (small : (recordsOf rec base size).length ≤ postBufSize) {i : Nat} {pre pr : R}
    (first : (recordsOf rec base size).head? = some pre)
    (entry : (recordsOf rec base size)[i]? = some pr) :
    (readHelper converter size.toNat (rec.records.drop base) size 0 buf).1 i =
      convertWith pre pr := by
  obtain ⟨later, page⟩ := List.head?_eq_some_iff.mp first
  rw [length_recordsOf, ← List.length_drop] at small
  rw [readHelper_page writes (Nat.le_refl _) page small, ← page]
  rw [entry]
  rfl

theorem getElem?_recordsOf {i : Nat} (inside : i < (recordsOf rec base size).length) :
    (recordsOf rec base size)[i]? = rec.records[base + i]? := by
  rw [length_recordsOf] at inside
  rw [recordsOf, List.getElem?_take_of_lt (by omega), List.getElem?_drop]

/-- When a page is loaded by a converter that looks at the first record of the chunk. -/
theorem readFrom_iff (writes : Writes converter convertWith) (own : R → PostInfo) :
    (∀ buf, ∃ page count, readFrom converter rec base size buf = some (page, count) ∧
        (count : Int) = min size (max 0 (rec.records.length - base)) ∧
        ∀ i : Nat, i < min size (max 0 ((rec.records.length : Int) - base)) →
          (rec.records.map own)[base + i]? = some (page i)) ↔
      base * rec.rlen < 2 ^ 31 ∧ 0 ≤ size ∧
        (recordsOf rec base size).length ≤ postBufSize ∧
        ∀ pre pr, (recordsOf rec base size).head? = some pre → pr ∈ recordsOf rec base size →
          convertWith pre pr = own pr := by
  have length : 0 ≤ size → ((recordsOf rec base size).length : Int) =
      min size (max 0 (rec.records.length - base)) := by
    intro nonneg
    rw [length_recordsOf]
    omega
  constructor
  · intro loads
    have fits : base * rec.rlen < 2 ^ 31 := by
      by_contra large
      obtain ⟨page, count, reads, -⟩ := loads fun _ => blankInfo
      rw [readFrom_overflow large] at reads
      cases reads
    have loaded : ∀ buf, 0 ≤ size ∧ ∀ i < (recordsOf rec base size).length,
        (rec.records.map own)[base + i]? =
          some ((readHelper converter size.toNat (rec.records.drop base) size 0 buf).1 i) := by
      intro buf
      obtain ⟨page, count, reads, counted, entries⟩ := loads buf
      rw [readFrom_eq fits, Option.some.injEq] at reads
      have nonneg : 0 ≤ size := by omega
      refine ⟨nonneg, fun i inside => ?_⟩
      rw [reads]
      apply entries
      rw [← length nonneg]
      omega
    have nonneg := (loaded fun _ => blankInfo).1
    have small : (recordsOf rec base size).length ≤ postBufSize := by
      by_contra large
      have inside : postBufSize < (recordsOf rec base size).length := by omega
      have entry := List.getElem?_eq_getElem inside
      -- The entry behind the first chunk keeps what it had before.
      have kept := (loaded fun _ => { blankInfo with
        id := if (own (recordsOf rec base size)[postBufSize]).id = 0 then 1 else 0 }).2
          postBufSize inside
      rw [readHelper_beyond writes (Nat.le_refl _), List.getElem?_map,
        ← getElem?_recordsOf inside, entry, Option.map_some, Option.some.injEq] at kept
      have ids := congrArg PostInfo.id kept
      by_cases zero : (own (recordsOf rec base size)[postBufSize]).id = 0
      · simp [zero] at ids
      · simp only [if_neg zero] at ids
        exact zero ids
    refine ⟨fits, nonneg, small, fun pre pr first member => ?_⟩
    obtain ⟨i, inside, entry⟩ := List.mem_iff_getElem.mp member
    have found := (List.getElem?_eq_getElem inside).trans (congrArg some entry)
    have own := (loaded fun _ => blankInfo).2 i inside
    rw [readFrom_entry writes small first found, List.getElem?_map,
      ← getElem?_recordsOf inside, found, Option.map_some, Option.some.injEq] at own
    exact own.symm
  · rintro ⟨fits, nonneg, small, same⟩ buf
    refine ⟨_, _, readFrom_eq fits, ?_, ?_⟩
    · rw [readHelper_count (Nat.le_refl _), ← length nonneg, length_recordsOf, List.length_drop]
      omega
    · intro i inside
      rw [← length nonneg] at inside
      have inPage : i < (recordsOf rec base size).length := by omega
      have entry := List.getElem?_eq_getElem inPage
      have nonempty : recordsOf rec base size ≠ [] :=
        List.ne_nil_of_length_pos (by omega)
      have first := List.head?_eq_some_head nonempty
      rw [readFrom_entry writes small first entry, same _ _ first (List.getElem_mem inPage),
        List.getElem?_map, ← getElem?_recordsOf inPage, entry]
      rfl

end Pages

/-- The name of the eraser is all that the first record of a chunk decides. -/
theorem infoOfExtended_eq_iff (pre pr : PostRecordExtended) :
    infoOfExtended pre pr = infoOfExtended pr pr ↔ pr.eraserName = pre.eraserName := by
  constructor
  · intro same
    have names := congrArg PostInfo.eraserName same
    simp only [infoOfExtended, Message.getCharArray_str] at names
    exact names.symm
  · intro same
    unfold infoOfExtended
    rw [same]

theorem pageSize_normal (rec : RecordFile PostRecord) (base : Nat) (size : Int) :
    pageSize (.normal rec) base size = min size (max 0 (rec.records.length - base)) := by
  rw [pageSize, PostFile.infos, List.length_map]

theorem pageSize_deleted (rec : RecordFile PostRecordExtended) (base : Nat) (size : Int) :
    pageSize (.deleted rec) base size = min size (max 0 (rec.records.length - base)) := by
  rw [pageSize, PostFile.infos, List.length_map]

theorem length_recordsOf_le_iff {R : Type} {rec : RecordFile R} {base : Nat} {size : Int}
    (nonneg : 0 ≤ size) :
    (recordsOf rec base size).length ≤ postBufSize ↔
      min size (max 0 ((rec.records.length : Int) - base)) ≤ postBufSize := by
  rw [length_recordsOf]
  omega

theorem loadsPage_normal_iff (rec : RecordFile PostRecord) (base : Nat) (size : Int) :
    LoadsPage (.normal rec) base size ↔
      base * rec.rlen < 2 ^ 31 ∧ 0 ≤ size ∧ pageSize (.normal rec) base size ≤ postBufSize := by
  have loads := @readFrom_iff _ _ _ rec base size writes_postRecordToInfo infoOf
  unfold LoadsPage
  rw [pageSize_normal]
  apply loads.trans
  apply and_congr_right
  intro fits
  apply and_congr_right
  intro nonneg
  rw [length_recordsOf_le_iff nonneg]
  exact and_iff_left fun _ _ _ _ => rfl

theorem loadsPage_deleted_iff (rec : RecordFile PostRecordExtended) (base : Nat) (size : Int) :
    LoadsPage (.deleted rec) base size ↔
      base * rec.rlen < 2 ^ 31 ∧ 0 ≤ size ∧
        pageSize (.deleted rec) base size ≤ postBufSize ∧ OneEraser base size (.deleted rec) := by
  have loads := @readFrom_iff _ _ _ rec base size writes_postRecordExtendedToInfo
    fun pr => infoOfExtended pr pr
  unfold LoadsPage
  rw [pageSize_deleted]
  apply loads.trans
  apply and_congr_right
  intro fits
  apply and_congr_right
  intro nonneg
  rw [length_recordsOf_le_iff nonneg]
  apply and_congr_right
  intro small
  simp only [infoOfExtended_eq_iff, OneEraser, recordsOf]

/-- A page is loaded, whatever its memory contains, exactly if the position is an `int`, at
most one chunk is read, and the records of the trash on it have one eraser. -/
theorem loadsPage_iff (file : PostFile) (base : Nat) (size : Int) :
    LoadsPage file base size ↔
      base * file.rlen < 2 ^ 31 ∧ 0 ≤ size ∧ pageSize file base size ≤ postBufSize ∧
        OneEraser base size file := by
  cases file with
  | normal rec =>
    rw [loadsPage_normal_iff]
    simp only [OneEraser, and_true]
    rfl
  | deleted rec => exact loadsPage_deleted_iff rec base size

/-- A record of nulls. -/
def blankRecord : PostRecord where
  id := 0
  replyId := 0
  threadId := 0
  userId := 0
  userIdReplied := 0
  boardId := 0
  flag := 0
  userName := ⟨.empty, Nat.succ_pos _⟩
  boardName := ⟨.empty, boardNameSize_pos⟩
  utf8Title := ⟨.empty, titleSize_pos⟩

def threadRecord (id threadId : PostId) : PostRecord :=
  { blankRecord with id, threadId }

/-- A record in the trash. -/
def erasedBy (eraserName : CharArray (idLen + 1)) : PostRecordExtended where
  basic := blankRecord
  junk := false
  bmVisible := false
  eraserId := 0
  stamp := 0
  eraserName

theorem postSize_pos : 0 < 168 := by
  decide

theorem postSize_le : 168 ≤ recordBufferSize := by
  decide

/-- A board with one record more than a chunk holds. -/
def fullBoard : RecordFile PostRecord where
  records := List.replicate 51 blankRecord
  rlen := 168
  rlen_pos := postSize_pos
  rlen_le := postSize_le
  count_lt := by simp

/-- A trash with posts that two users have deleted. -/
def sharedTrash : RecordFile PostRecordExtended where
  records := [erasedBy ⟨⟨[113], by decide⟩, by decide⟩, erasedBy ⟨⟨[119], by decide⟩, by decide⟩]
  rlen := 200
  rlen_pos := by decide
  rlen_le := by decide
  count_lt := by simp

/-- The last record of a full board is converted into the first entry, and the second post of
the trash is shown with the eraser of the first. -/
theorem secondChunk_and_secondEraser_lost :
    ¬LoadsPage (.normal fullBoard) 0 51 ∧ ¬LoadsPage (.deleted sharedTrash) 0 2 := by
  constructor
  · rw [loadsPage_normal_iff]
    rintro ⟨-, -, small⟩
    revert small
    rw [pageSize_normal]
    simp [fullBoard, postBufSize]
  · rw [loadsPage_deleted_iff]
    rintro ⟨-, -, -, one⟩
    have same := one _ (erasedBy ⟨⟨[119], by decide⟩, by decide⟩) rfl (by simp [sharedTrash])
    revert same
    decide

end PostRecordPages

end Fbbs
