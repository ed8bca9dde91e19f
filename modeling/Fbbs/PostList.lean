import Fbbs.RecordCache
import Fbbs.TransitionRuns

/-!
# The list of posts on a board

`tui_list` shows a page of the posts of a board, followed by the sticky posts,
and hands the keys to `post_list_handler`, which takes the post under the cursor
from the buffer of the page.  A page is read again only if the list has been
marked invalid; before and after that the window is moved to the cursor.
-/

namespace Fbbs

namespace PostList

open RecordCache

/-- `POST_BOARD_BUF_SIZE`. -/
def postBoardBufSize : Nat := 50

/-- The record file of the board and the file of its sticky posts. -/
structure Files where
  record : List PostRecord
  sticky : List PostRecord

/-- The number of entries of the list. -/
def Files.count (files : Files) : Nat :=
  files.record.length + files.sticky.length

/-- The memory behind `pl->buf`; `none` where nothing has been written. -/
abbrev Buffer := Nat → Option PostRecord

/-- `tui_list_t` and the part of `post_list_t` that it works with; `positioned`
says that `pl->plp` has been set, and `shown` keeps the files as the last load
read them, one behind the other. -/
structure TuiList where
  all : Int
  cur : Int
  jump : Int32
  begin : Int
  valid : Bool
  positioned : Bool
  recordCount : Int
  buf : Buffer
  shown : List PostRecord

/-- `post_record_to_info` for a number of records. -/
def postRecordToInfo (records : List PostRecord) (start : Nat) (buf : Buffer) : Buffer :=
  fun i => if start ≤ i then (records[i - start]?).or (buf i) else buf i

/-- The loop of `POST_RECORD_READ_HELPER` over the rest of a file, with the number
of records it has read; the pointer into the buffer stays where it is. -/
def postRecordReadHelper (start : Nat) : Nat → List PostRecord → Nat → Buffer → Buffer × Nat
  | 0, _, _, buf => (buf, 0)
  | fuel + 1, rest, size, buf =>
    let max := min postBoardBufSize size
    let chunk := rest.take max
    if size = 0 ∨ chunk = [] then (buf, 0)
    else
      let (buf, records) := postRecordReadHelper start fuel (rest.drop max) (size - max)
        (postRecordToInfo chunk start buf)
      (buf, chunk.length + records)

/-- `post_record_read` into the buffer from `start` on. -/
def postRecordRead (file : List PostRecord) (base : Int) (start size : Nat) (buf : Buffer) :
    Buffer × Nat :=
  if base < 0 then (buf, 0)
  else postRecordReadHelper start size (file.drop base.toNat) size buf

/-- What the loader reads to place the cursor of a new list: the saved position of
the board, or the last post that has been read. -/
inductive Start
  | saved (top : Nat) (cur : Int)
  | lastRead (offset : Int)

section Loop

variable (lines : Nat)

def adjustWindow (tl : TuiList) : TuiList :=
  if tl.cur < tl.begin ∨ tl.begin + lines ≤ tl.cur then
    { tl with begin := tl.cur.tdiv lines * lines }
  else tl

/-- The first entry of the page that `load_posts` reads. -/
def pageBegin (all begin : Int) : Int :=
  let begin := if all < begin then all - lines else begin
  if begin < 0 then 0 else begin

/-- The buffer after `load_posts`. -/
def loadBuffer (files : Files) (begin : Int) (buf : Buffer) : Buffer :=
  let recordCount := files.record.length
  if begin < recordCount then
    let (buf, loaded) := postRecordRead files.record begin 0 lines buf
    if loaded < lines ∧ 0 < files.sticky.length then
      (postRecordRead files.sticky 0 loaded (lines - loaded) buf).1
    else buf
  else (postRecordRead files.sticky (begin - recordCount) 0 lines buf).1

def loadPosts (files : Files) (tl : TuiList) : TuiList :=
  let begin := pageBegin lines files.count tl.begin
  { tl with
    all := files.count
    recordCount := files.record.length
    begin := begin
    buf := loadBuffer lines files begin tl.buf
    shown := files.record ++ files.sticky }

/-- The first part of `post_list_loader`. -/
def position (start : Start) (tl : TuiList) : TuiList :=
  if tl.positioned then tl
  else
    match start with
    | .saved top cur => { tl with cur := cur, begin := top, positioned := true }
    | .lastRead offset =>
      if 0 < offset then
        let cur := offset + 1
        let begin := cur - (lines / 2 : Nat)
        { tl with
          cur := cur
          begin := if begin < 0 then 0 else begin
          positioned := true }
      else { tl with cur := 0, begin := 0, positioned := true }

def postListLoader (files : Files) (start : Start) (tl : TuiList) : TuiList :=
  loadPosts lines files (position lines start tl)

/-- The cursor is put on an entry. -/
def limitCur (all cur : Int) : Int :=
  let cur := if all ≤ cur then all - 1 else cur
  if cur < 0 then 0 else cur

/-- The loop of `tui_list` up to the call of the handler. -/
def refresh (files : Files) (start : Start) (tl : TuiList) : TuiList :=
  let tl := adjustWindow lines tl
  let tl := if tl.valid then tl else { postListLoader lines files start tl with valid := true }
  adjustWindow lines { tl with cur := limitCur tl.all tl.cur }

inductive Seek
  | pageUp
  | up
  | pageDown
  | down

/-- `tui_list_seek`. -/
def tuiListSeek (tl : TuiList) (operation : Seek) (invalidate loop : Bool) : TuiList :=
  let invalid := if invalidate then { tl with valid := false } else tl
  match operation with
  | .pageUp =>
    let begin := if tl.begin - (lines - 1) < 0 then 0 else tl.begin - (lines - 1)
    { invalid with begin := begin, cur := begin }
  | .up =>
    if tl.begin ≤ tl.cur - 1 then { tl with cur := tl.cur - 1 }
    else if 0 ≤ tl.cur - 1 then
      let begin := tl.begin - (lines - 1)
      { invalid with cur := tl.cur - 1, begin := if begin < 0 then 0 else begin }
    else if loop then
      let begin := tl.all - lines + 1
      { invalid with
        cur := if tl.all - 1 < 0 then 0 else tl.all - 1
        begin := if begin < 0 then 0 else begin }
    else { invalid with cur := 0 }
  | .pageDown =>
    if tl.all ≤ tl.begin + lines - 1 then { tl with cur := tl.all - 1 }
    else { invalid with cur := tl.begin + lines - 1, begin := tl.begin + lines - 1 }
  | .down =>
    if tl.all ≤ tl.cur + 1 then
      if loop then { invalid with cur := 0, begin := 0 } else tl
    else if tl.begin + lines - 1 ≤ tl.cur + 1 then
      { invalid with cur := tl.cur + 1, begin := tl.cur + 1 }
    else { tl with cur := tl.cur + 1 }

/-- What a handler returns: a kind of update, `READ_AGAIN`, or a negative value
that ends the list. -/
inductive Return
  | update
  | readAgain
  | leave
  deriving DecidableEq

/-- What happens in `read_posts`: the positions that its searches find, the new
flags of the entry if it is flagged while it is read, and whether the function
returns early because the next content cannot be dumped. -/
structure Reading where
  positions : List Nat
  flag : Option Int32
  failed : Bool

/-- Changes of the entry under the cursor that a handler makes in the buffer. -/
def editEntry (tl : TuiList) (edit : PostRecord → PostRecord) : TuiList :=
  { tl with
    buf := Function.update tl.buf (tl.cur - tl.begin).toNat
      ((tl.buf (tl.cur - tl.begin).toNat).map edit) }

def editFlag (flag : Int32) (entry : PostRecord) : PostRecord :=
  { entry with flag := flag }

def editTitle (title : CharArray titleSize) (entry : PostRecord) : PostRecord :=
  { entry with utf8Title := title }

/-- `read_posts`. -/
def readPosts (reading : Reading) (tl : TuiList) : TuiList :=
  let edited := match reading.flag with
    | some flag => editEntry tl (editFlag flag)
    | none => tl
  { edited with
    cur := (reading.positions.getLast?.map Int.ofNat).getD tl.cur
    valid := if reading.failed then tl.valid else false }

/-- The keys, by what `post_list_handler` does with them, and what users, files
and the database answer meanwhile. -/
inductive Key
  -- `Ctrl('P')`
  | newPost (returned again : Return)
  -- The keys for other screens, which neither need a post nor touch the list.
  | elsewhere (returned again : Return)
  -- `.` and `J`
  | listDeleted (shown : Bool)
  -- `s`
  | switchBoard (chosen : Bool)
  -- `q`, `e`, `KEY_LEFT` and `EOF`
  | leave
  -- `'\n'` and `'\r'`
  | enter (reading : Reading)
  -- `KEY_RIGHT`, `r`, `Ctrl('S')` and `p`
  | read (reading : Reading)
  -- `Ctrl('U')`
  | readUser (reading : Reading)
  -- `_`, `m`, `g` and `w`
  | toggleFlag (flag : Option Int32)
  -- `#`
  | toggleStickiness (flag : Option Int32)
  -- `T`
  | editPostTitle (title : Option (CharArray titleSize))
  -- The keys that use the post only.
  | onPost (returned again : Return)
  -- `D`, `L`, `d` and `Y`
  | operate (done : Bool)
  -- `b`
  | batch (done : Bool)
  -- The searches `a`, `A`, `/`, `?`, `'`, `"`, `=`, `[`, `]` and the backslash.
  | search (pos : Option Nat)
  -- `n` and `Ctrl('N')`
  | firstUnread (found : Option (Nat × Reading))
  -- `K`
  | skip
  -- `P`
  | previousPage
  -- `Ctrl('B')` and `KEY_PGUP`
  | pageUp
  | up
  | pageDown
  | down
  -- `$` and `KEY_END`
  | last
  | home
  | digit (value : Fin 10)
  | unknown

/-- The number to jump to after one more digit; a number that is too long for an
`int` wraps. -/
def typed (jump : Int32) (digit : Fin 10) : Int32 :=
  jump * 10 + Int32.ofNat digit.val

def invalidate (tl : TuiList) : TuiList :=
  { tl with valid := false }

/-- A handler that may leave the list out of date. -/
def invalidateIf (done : Bool) (tl : TuiList) : TuiList :=
  if done then invalidate tl else tl

/-- The post keys of `post_list_handler`. -/
def handlePost (tl : TuiList) : Key → TuiList × Return
  | .enter reading | .read reading =>
    if tl.jump ≠ 0 then
      (invalidate { tl with cur := (tl.jump - 1).toInt, jump := 0 }, .update)
    else (readPosts reading tl, .update)
  | .readUser reading => (readPosts reading tl, .update)
  | .toggleFlag (some flag) => (editEntry tl (editFlag flag), .update)
  | .toggleStickiness (some flag) => (invalidate (editEntry tl (editFlag flag)), .update)
  | .editPostTitle (some title) => (editEntry tl (editTitle title), .update)
  | .toggleFlag none | .toggleStickiness none | .editPostTitle none => (tl, .update)
  | .onPost returned _ => (tl, returned)
  | .operate done | .batch done => (invalidateIf done tl, .update)
  | .search (some pos) => (invalidate { tl with cur := pos }, .update)
  | .search none => (tl, .update)
  | .firstUnread (some (pos, reading)) =>
    (readPosts { reading with flag := none } { tl with cur := pos }, .update)
  | .firstUnread none => (tl, .update)
  | .skip =>
    (invalidateIf (decide (tl.begin + lines ≤ tl.cur + 1)) { tl with cur := tl.cur + 1 },
      .update)
  | .previousPage | .pageUp => (tuiListSeek lines tl .pageUp true true, .update)
  | .up => (tuiListSeek lines tl .up true true, .update)
  | .pageDown => (tuiListSeek lines tl .pageDown true true, .update)
  | .down => (tuiListSeek lines tl .down true true, .update)
  | .last =>
    let sticky := (tl.buf (tl.cur - tl.begin).toNat).any fun pi =>
      pi.flag &&& Post.postFlagSticky != 0
    let target := if sticky then tl.recordCount - 1 else tl.all - 1
    let cur := if target < 0 then 0 else target
    let begin := if tl.begin + lines ≤ cur then
        if cur - lines + 1 < 0 then 0 else cur - lines + 1
      else tl.begin
    (invalidate { tl with cur := cur, begin := begin }, .update)
  | .home => (invalidate { tl with cur := 0, begin := 0 }, .update)
  | .digit value => ({ tl with jump := typed tl.jump value }, .update)
  | _ => (tl, .readAgain)

/-- `post_list_handler`. -/
def postListHandler (tl : TuiList) : Key → TuiList × Return
  | .newPost returned _ => (invalidate tl, returned)
  | .elsewhere returned _ => (tl, returned)
  | .listDeleted shown => (invalidateIf shown tl, .update)
  | .switchBoard chosen =>
    (if chosen then invalidate { tl with positioned := false } else tl, .update)
  | .leave => (tl, .readAgain)
  | key => if tl.all ≤ tl.cur then (tl, .readAgain) else handlePost lines tl key

/-- What the handler returns when it is called for the second time. -/
def returnedAgain : Key → Return
  | .newPost _ again | .elsewhere _ again | .onPost _ again => again
  | _ => .readAgain

/-- The switch of `tui_list` over a key that the handler has left to it; `none`
when the list ends. -/
def tuiListKey (tl : TuiList) : Key → Option TuiList
  | .leave => none
  | .batch _ | .pageUp =>
    some { tl with cur := if tl.cur = 0 then tl.all - 1 else tl.cur - lines }
  | .pageDown =>
    some { tl with cur := if tl.cur = tl.all - 1 then 0 else tl.cur + lines }
  | .up => some { tl with cur := if tl.cur - 1 < 0 then tl.all - 1 else tl.cur - 1 }
  | .down => some { tl with cur := if tl.all ≤ tl.cur + 1 then 0 else tl.cur + 1 }
  | .last => some { tl with cur := tl.all - 1 }
  | .home => some { tl with cur := 0 }
  | .digit value => some { tl with jump := typed tl.jump value }
  | .enter _ =>
    some (if 0 < tl.jump then { tl with cur := (tl.jump - 1).toInt, jump := 0 }
      else { tl with jump := 0 })
  | key => if returnedAgain key = .leave then none else some { tl with jump := 0 }

/-- The rest of the loop of `tui_list`; `none` when the list ends. -/
def press (tl : TuiList) (key : Key) : Option TuiList :=
  match postListHandler lines tl key with
  | (tl, .update) => some tl
  | (_, .leave) => none
  | (tl, .readAgain) => tuiListKey lines tl key

/-- The list before a turn of its loop, and when its handler is called. -/
inductive State
  | turning (tl : TuiList)
  | entered (tl : TuiList)

/-- A turn comes with the files and positions as they are then. -/
inductive Action
  | turn (files : Files) (start : Start)
  | press (key : Key)

def step : State → Action → Option State
  | .turning tl, .turn files start => some (.entered (refresh lines files start tl))
  | .entered tl, .press key => (press lines tl key).map .turning
  | _, _ => none

/-- `tui_list_init`. -/
def tuiListInit (buf : Buffer) : TuiList where
  all := 0
  cur := 0
  jump := 0
  begin := 0
  valid := false
  positioned := false
  recordCount := 0
  buf := buf
  shown := []

/-- An entry in the buffer; handlers change flags and titles there as well. -/
def IsEntry (buffered entry : PostRecord) : Prop :=
  buffered = { entry with flag := buffered.flag, utf8Title := buffered.utf8Title }

/-- The entry under the cursor is in the window, and in the buffer. -/
def ActsOnShown (tl : TuiList) : Prop :=
  tl.cur < tl.all →
    0 ≤ tl.cur - tl.begin ∧ tl.cur - tl.begin < lines ∧
      ∃ entry buffered, tl.shown[tl.cur.toNat]? = some entry ∧
        tl.buf (tl.cur - tl.begin).toNat = some buffered ∧ IsEntry buffered entry

/-- No call of `post_record_read` has more to read than fits into its own buffer. -/
def FitsBuffer (files : Files) (begin : Int) : Prop :=
  min lines (files.record.length - begin.toNat) ≤ postBoardBufSize ∧
    min (lines - (files.record.length - begin.toNat))
      (files.sticky.length - (begin.toNat - files.record.length)) ≤ postBoardBufSize

/-- The page that is read has the entry that the cursor is put on. -/
structure LoadsPage (files : Files) (tl : TuiList) : Prop where
  fits : FitsBuffer lines files (pageBegin lines files.count tl.begin)
  page : 0 < files.count →
    pageBegin lines files.count tl.begin ≤ limitCur files.count tl.cur ∧
      limitCur files.count tl.cur < pageBegin lines files.count tl.begin + lines

/-- A reading that ends early does not leave the page. -/
def StaysOnPage (tl : TuiList) (cur : Int) (reading : Reading) : Prop :=
  reading.failed = true →
    tl.begin ≤ (reading.positions.getLast?.map Int.ofNat).getD cur ∧
      (reading.positions.getLast?.map Int.ofNat).getD cur < tl.begin + lines

/-- The condition on a step: what is loaded is the page of the cursor, and
readings that end early stay on their page. -/
def Steady : State → Action → Prop
  | .turning tl, .turn files start =>
    tl.valid = false → LoadsPage lines files (position lines start (adjustWindow lines tl))
  | .entered tl, .press (.enter reading) =>
    tl.cur < tl.all → tl.jump = 0 → StaysOnPage lines tl tl.cur reading
  | .entered tl, .press (.read reading) =>
    tl.cur < tl.all → tl.jump = 0 → StaysOnPage lines tl tl.cur reading
  | .entered tl, .press (.readUser reading) =>
    tl.cur < tl.all → StaysOnPage lines tl tl.cur reading
  | .entered tl, .press (.firstUnread (some (pos, reading))) =>
    tl.cur < tl.all → StaysOnPage lines tl pos reading
  | _, _ => True

end Loop

section Reading

variable {size : Nat} {rest : List PostRecord} (start : Nat) (buf : Buffer)

theorem postRecordToInfo_before {start i : Nat} (before : i < start) :
    postRecordToInfo rest start buf i = buf i :=
  if_neg (Nat.not_le.mpr before)

theorem postRecordToInfo_inside {start i : Nat} (inside : start ≤ i) {entry : PostRecord}
    (present : rest[i - start]? = some entry) :
    postRecordToInfo rest start buf i = some entry := by
  rw [postRecordToInfo, if_pos inside, present]
  rfl

theorem postRecordReadHelper_end (fuel : Nat) (done : size = 0 ∨ rest = []) :
    postRecordReadHelper start fuel rest size buf = (buf, 0) := by
  cases fuel with
  | zero => rfl
  | succ fuel =>
    rw [postRecordReadHelper]
    apply if_pos
    obtain rfl | rfl := done
    · exact Or.inl rfl
    · exact Or.inr List.take_nil

/-- What fits into the buffer of the function is read as it should be. -/
theorem postRecordReadHelper_eq (fits : min size rest.length ≤ postBoardBufSize) :
    postRecordReadHelper start size rest size buf =
      (postRecordToInfo (rest.take size) start buf, min size rest.length) := by
  by_cases done : size = 0 ∨ rest = []
  · have nothing : rest.take size = [] := by
      obtain rfl | rfl := done
      · exact List.take_zero
      · exact List.take_nil
    have none : min size rest.length = 0 := by
      rw [← List.length_take, nothing]
      rfl
    rw [postRecordReadHelper_end start buf size done, nothing, none]
    congr 1
    funext i
    simp [postRecordToInfo]
  · obtain ⟨nonempty, some⟩ := not_or.mp done
    obtain ⟨size, rfl⟩ := Nat.exists_eq_succ_of_ne_zero nonempty
    have allTaken : rest.take (min postBoardBufSize (size + 1)) = rest.take (size + 1) := by
      rw [List.take_eq_take_iff]
      omega
    have rested : size + 1 - min postBoardBufSize (size + 1) = 0 ∨
        rest.drop (min postBoardBufSize (size + 1)) = [] := by
      rw [List.drop_eq_nil_iff]
      omega
    have notEmpty : ¬(size + 1 = 0 ∨ rest.take (size + 1) = []) := by
      simp [some]
    simp only [Nat.succ_eq_add_one]
    rw [postRecordReadHelper]
    simp only [allTaken, if_neg notEmpty, postRecordReadHelper_end _ _ size rested,
      List.length_take, Nat.add_zero]

/-- Reading a file at a position that is in it, or at its end. -/
theorem postRecordRead_eq {file : List PostRecord} {base : Int} (nonneg : 0 ≤ base)
    (fits : min size (file.length - base.toNat) ≤ postBoardBufSize) :
    postRecordRead file base start size buf =
      (postRecordToInfo ((file.drop base.toNat).take size) start buf,
        min size (file.length - base.toNat)) := by
  rw [postRecordRead, if_neg (Int.not_lt.mpr nonneg), postRecordReadHelper_eq start buf]
  · rw [List.length_drop]
  · rwa [List.length_drop]

/-- The buffer has the page of both files. -/
theorem loadBuffer_eq {lines : Nat} {files : Files} {begin : Int} (nonneg : 0 ≤ begin)
    (fits : FitsBuffer lines files begin) {i : Nat} (inWindow : i < lines)
    {entry : PostRecord}
    (present : (files.record ++ files.sticky)[begin.toNat + i]? = some entry) :
    loadBuffer lines files begin buf i = some entry := by
  obtain ⟨recordFits, stickyFits⟩ := fits
  unfold loadBuffer
  split
  · rename_i inRecord
    rw [postRecordRead_eq 0 buf nonneg recordFits]
    dsimp only
    obtain first | second : i < files.record.length - begin.toNat ∨
        files.record.length - begin.toNat ≤ i := by omega
    · rw [List.getElem?_append_left (by omega)] at present
      have inPage : postRecordToInfo ((files.record.drop begin.toNat).take lines) 0 buf i =
          some entry := by
        apply postRecordToInfo_inside _ (Nat.zero_le i)
        rw [List.getElem?_take_of_lt (by omega), List.getElem?_drop, Nat.sub_zero, present]
      split
      · rw [postRecordRead_eq _ _ le_rfl (by simp; omega)]
        exact (postRecordToInfo_before _ (by omega)).trans inPage
      · exact inPage
    · rw [List.getElem?_append_right (by omega)] at present
      have inSticky := (List.getElem?_eq_some_iff.mp present).1
      have counted : min lines (files.record.length - begin.toNat) =
          files.record.length - begin.toNat := by omega
      rw [if_pos (by omega), counted, postRecordRead_eq _ _ le_rfl (by simp; omega)]
      apply postRecordToInfo_inside _ second
      rw [List.getElem?_take_of_lt (by omega), List.getElem?_drop, ← present]
      congr 1
      simp
      omega
  · rename_i behind
    rw [List.getElem?_append_right (by omega)] at present
    rw [postRecordRead_eq 0 buf (by omega) (by omega)]
    apply postRecordToInfo_inside _ (Nat.zero_le i)
    rw [List.getElem?_take_of_lt (by omega), List.getElem?_drop, ← present]
    congr 1
    omega

end Reading

section Invariant

variable {lines : Nat}

/-- The buffer holds the entries of the page from `begin` on. -/
structure Page (lines : Nat) (tl : TuiList) : Prop where
  count : tl.all = tl.shown.length
  nonneg : 0 ≤ tl.begin
  started : 0 < tl.all → tl.begin < tl.all
  entries : ∀ i < lines, ∀ entry, tl.shown[tl.begin.toNat + i]? = some entry →
    ∃ buffered, tl.buf i = some buffered ∧ IsEntry buffered entry

/-- The cursor is in the window. -/
def Window (lines : Nat) (tl : TuiList) : Prop :=
  tl.begin ≤ tl.cur ∧ tl.cur < tl.begin + lines

/-- A list that is not loaded again has its page and its cursor there, unless it
is empty. -/
def Loaded (lines : Nat) (tl : TuiList) : Prop :=
  Page lines tl ∧ (0 < tl.all → Window lines tl)

def Invariant (lines : Nat) : State → Prop
  | .turning tl => tl.valid = true → Loaded lines tl
  | .entered tl => tl.valid = true ∧ Page lines tl ∧ Window lines tl ∧
      (0 < tl.all → tl.cur < tl.all)

theorem IsEntry.refl (entry : PostRecord) : IsEntry entry entry :=
  rfl

theorem Page.actsOnShown {tl : TuiList} (page : Page lines tl) (window : Window lines tl) :
    ActsOnShown lines tl := by
  intro inList
  have count := page.count
  have nonneg := page.nonneg
  obtain ⟨after, before⟩ := window
  refine ⟨by omega, by omega, ?_⟩
  have present : tl.cur.toNat < tl.shown.length := by omega
  have index : tl.begin.toNat + (tl.cur - tl.begin).toNat = tl.cur.toNat := by omega
  have isEntry : tl.shown[tl.cur.toNat]? = some tl.shown[tl.cur.toNat] :=
    List.getElem?_eq_getElem present
  obtain ⟨buffered, inBuffer, same⟩ := page.entries (tl.cur - tl.begin).toNat (by omega)
    tl.shown[tl.cur.toNat] (by rw [index, isEntry])
  exact ⟨_, buffered, isEntry, inBuffer, same⟩

theorem adjustWindow_of_window {tl : TuiList} (window : Window lines tl) :
    adjustWindow lines tl = tl := by
  obtain ⟨after, before⟩ := window
  exact if_neg (by omega)

/-- A multiple of the number of lines is not just above the list. -/
theorem mul_lines_cases (pages : Int) :
    0 ≤ pages * lines ∨ pages * lines ≤ -(lines : Int) := by
  obtain nonneg | negative := Int.lt_or_le (-1) pages
  · exact Or.inl (Int.mul_nonneg (by omega) (Int.natCast_nonneg lines))
  · right
    calc
      pages * lines ≤ -1 * lines :=
        Int.mul_le_mul_of_nonneg_right negative (Int.natCast_nonneg lines)
      _ = -(lines : Int) := by omega

theorem begin_adjustWindow_cases {tl : TuiList} (nonneg : 0 ≤ tl.begin) :
    0 ≤ (adjustWindow lines tl).begin ∨ (adjustWindow lines tl).begin ≤ -(lines : Int) := by
  unfold adjustWindow
  split
  · exact mul_lines_cases _
  · exact Or.inl nonneg

/-- With the cursor on the first entry the window begins there. -/
theorem begin_adjustWindow_zero {tl : TuiList} (first : tl.cur = 0)
    (cases : 0 ≤ tl.begin ∨ tl.begin ≤ -(lines : Int)) :
    (adjustWindow lines tl).begin = 0 := by
  unfold adjustWindow
  split
  · simp [first]
  · omega

theorem limitCur_eq {all : Int} (nonneg : 0 ≤ all) (cur : Int) :
    limitCur all cur = max 0 (min cur (all - 1)) := by
  unfold limitCur
  dsimp only
  split <;> split <;> omega

/-- The fields that moving the window leaves alone. -/
theorem adjustWindow_eq (lines : Nat) (tl : TuiList) :
    adjustWindow lines tl = { tl with begin := (adjustWindow lines tl).begin } := by
  unfold adjustWindow
  split <;> rfl

theorem invariant_entered_empty (positive : 0 < lines) {tl : TuiList}
    (valid : tl.valid = true) (empty : tl.all = 0) (count : tl.all = tl.shown.length)
    (cases : 0 ≤ tl.begin ∨ tl.begin ≤ -(lines : Int)) :
    Invariant lines (.entered (adjustWindow lines { tl with cur := limitCur tl.all tl.cur })) := by
  have first : limitCur tl.all tl.cur = 0 := by
    rw [limitCur_eq empty.ge]
    omega
  have shown : tl.shown = [] := List.length_eq_zero_iff.mp (by omega)
  have begins : (adjustWindow lines { tl with cur := limitCur tl.all tl.cur }).begin = 0 :=
    begin_adjustWindow_zero first cases
  rw [adjustWindow_eq, begins, first]
  refine ⟨valid, ⟨count, le_rfl, fun nonempty => absurd empty nonempty.ne', ?_⟩, ?_, ?_⟩
  · intro i _ entry present
    rw [shown] at present
    cases present
  · exact ⟨le_rfl, by simpa using positive⟩
  · exact fun nonempty => absurd empty nonempty.ne'

/-- The handler is entered on the page of a list that is not empty. -/
theorem invariant_entered_page {tl : TuiList} (valid : tl.valid = true)
    (nonempty : 0 < tl.all) (page : Page lines tl)
    (window : Window lines { tl with cur := limitCur tl.all tl.cur }) :
    Invariant lines (.entered (adjustWindow lines { tl with cur := limitCur tl.all tl.cur })) := by
  rw [adjustWindow_of_window window]
  refine ⟨valid, ⟨page.count, page.nonneg, page.started, page.entries⟩, window, ?_⟩
  intro _
  change limitCur tl.all tl.cur < tl.all
  rw [limitCur_eq nonempty.le]
  omega

/-- A list that is up to date stays on its page. -/
theorem invariant_refresh_valid (positive : 0 < lines) {tl : TuiList} (files : Files)
    (start : Start) (valid : tl.valid = true) (loaded : Loaded lines tl) :
    Invariant lines (.entered (refresh lines files start tl)) := by
  obtain ⟨page, window⟩ := loaded
  have count := page.count
  have nonneg := page.nonneg
  obtain empty | nonempty : tl.all = 0 ∨ 0 < tl.all := by omega
  · have refreshed : refresh lines files start tl =
        adjustWindow lines { adjustWindow lines tl with
          cur := limitCur (adjustWindow lines tl).all (adjustWindow lines tl).cur } := by
      rw [refresh, if_pos]
      rw [adjustWindow_eq]
      exact valid
    rw [refreshed]
    have same := adjustWindow_eq lines tl
    apply invariant_entered_empty positive
    · rw [same]
      exact valid
    · rw [same]
      exact empty
    · rw [same]
      exact count
    · exact begin_adjustWindow_cases nonneg
  · have stays := window nonempty
    have started := page.started nonempty
    rw [refresh, adjustWindow_of_window stays, if_pos valid]
    apply invariant_entered_page valid nonempty page
    obtain ⟨after, before⟩ := stays
    simp only [Window, limitCur_eq nonempty.le]
    omega

theorem pageBegin_nonneg (all begin : Int) : 0 ≤ pageBegin lines all begin := by
  unfold pageBegin
  dsimp only
  split <;> split <;> omega

/-- A page that is read has its entries in the buffer. -/
theorem page_loadPosts {files : Files} {tl : TuiList}
    (loads : LoadsPage lines files tl) : Page lines (loadPosts lines files tl) where
  count := by simp [loadPosts, Files.count]
  nonneg := pageBegin_nonneg _ _
  started nonempty := by
    change (0 : Int) < files.count at nonempty
    change pageBegin lines files.count tl.begin < files.count
    have inPage := (loads.page (by omega)).1
    rw [limitCur_eq (by omega)] at inPage
    omega
  entries i inWindow entry present :=
    ⟨entry, loadBuffer_eq tl.buf (pageBegin_nonneg _ _) loads.fits inWindow present,
      IsEntry.refl entry⟩

/-- A list that is read again shows the page of its cursor. -/
theorem invariant_refresh_invalid (positive : 0 < lines) {tl : TuiList} {files : Files}
    {start : Start} (invalid : tl.valid = false)
    (loads : LoadsPage lines files (position lines start (adjustWindow lines tl))) :
    Invariant lines (.entered (refresh lines files start tl)) := by
  have still : ¬(adjustWindow lines tl).valid = true := by
    rw [adjustWindow_eq, invalid]
    exact Bool.false_ne_true
  rw [refresh, if_neg still]
  have page := page_loadPosts loads
  obtain empty | nonempty := Nat.eq_zero_or_pos files.count
  · apply invariant_entered_empty positive rfl
    · exact congrArg Nat.cast empty
    · exact page.count
    · exact Or.inl page.nonneg
  · have window := loads.page nonempty
    exact invariant_entered_page rfl (Int.natCast_pos.mpr nonempty)
      ⟨page.count, page.nonneg, page.started, page.entries⟩ window

/-- Changing the flags or the title of an entry keeps the page. -/
theorem page_editEntry {tl : TuiList} (page : Page lines tl) {edit : PostRecord → PostRecord}
    (keeps : ∀ buffered entry, IsEntry buffered entry → IsEntry (edit buffered) entry) :
    Page lines (editEntry tl edit) where
  count := page.count
  nonneg := page.nonneg
  started := page.started
  entries i inWindow entry present := by
    obtain ⟨buffered, inBuffer, same⟩ := page.entries i inWindow entry present
    by_cases here : i = (tl.cur - tl.begin).toNat
    · refine ⟨edit buffered, ?_, keeps buffered entry same⟩
      simp [editEntry, ← here, inBuffer]
    · refine ⟨buffered, ?_, same⟩
      simp [editEntry, here, inBuffer]

theorem isEntry_editFlag (flag : Int32) (buffered entry : PostRecord)
    (same : IsEntry buffered entry) : IsEntry (editFlag flag buffered) entry := by
  rw [IsEntry] at same
  rw [same]
  rfl

theorem isEntry_editTitle (title : CharArray titleSize) (buffered entry : PostRecord)
    (same : IsEntry buffered entry) : IsEntry (editTitle title buffered) entry := by
  rw [IsEntry] at same
  rw [same]
  rfl

/-- The page does not depend on the cursor and the jump. -/
theorem Page.of_same {tl next : TuiList} (page : Page lines tl) (all : next.all = tl.all)
    (begin : next.begin = tl.begin) (buf : next.buf = tl.buf) (shown : next.shown = tl.shown) :
    Page lines next where
  count := by rw [all, shown, page.count]
  nonneg := by rw [begin]; exact page.nonneg
  started := by rw [all, begin]; exact page.started
  entries := by rw [begin, buf, shown]; exact page.entries

theorem page_readPosts {tl : TuiList} (page : Page lines tl) (reading : Reading) :
    Page lines (readPosts reading tl) := by
  unfold readPosts
  cases reading.flag with
  | none => exact page.of_same rfl rfl rfl rfl
  | some flag => exact (page_editEntry page (isEntry_editFlag flag)).of_same rfl rfl rfl rfl

/-- Readings keep the page, and stay on it if they end early. -/
theorem loaded_readPosts {tl : TuiList} (page : Page lines tl) {reading : Reading}
    (stays : StaysOnPage lines tl tl.cur reading)
    (valid : (readPosts reading tl).valid = true) :
    Loaded lines (readPosts reading tl) := by
  refine ⟨page_readPosts page reading, fun _ => ?_⟩
  have failed : reading.failed = true := by
    by_contra finished
    simp [readPosts, finished] at valid
  have begins : (readPosts reading tl).begin = tl.begin := by
    unfold readPosts
    cases reading.flag <;> rfl
  rw [Window, begins]
  exact stays failed

/-- The cursor moves on the page. -/
theorem Page.loaded_cur {tl : TuiList} (page : Page lines tl) {cur : Int} {jump : Int32}
    (after : tl.begin ≤ cur) (before : cur < tl.begin + lines) :
    Loaded lines { tl with cur := cur, jump := jump } :=
  ⟨page.of_same rfl rfl rfl rfl, fun _ => ⟨after, before⟩⟩

/-- Moving by the keys of the list keeps the page unless it has to be read. -/
theorem loaded_tuiListSeek {tl : TuiList} (page : Page lines tl) (window : Window lines tl)
    (inList : tl.cur < tl.all) (operation : Seek)
    (valid : (tuiListSeek lines tl operation true true).valid = true) :
    Loaded lines (tuiListSeek lines tl operation true true) := by
  obtain ⟨after, before⟩ := window
  cases operation with
  | pageUp => cases valid
  | up =>
    simp only [tuiListSeek, if_true] at valid ⊢
    split
    · exact page.loaded_cur (by omega) (by omega)
    · rw [if_neg ‹_›] at valid
      split at valid <;> cases valid
  | pageDown =>
    simp only [tuiListSeek, if_true] at valid ⊢
    split
    · exact page.loaded_cur (by omega) (by omega)
    · rw [if_neg ‹_›] at valid
      cases valid
  | down =>
    simp only [tuiListSeek, if_true] at valid ⊢
    split
    · rw [if_pos ‹_›] at valid
      cases valid
    · rw [if_neg ‹_›] at valid
      split
      · rw [if_pos ‹_›] at valid
        cases valid
      · exact page.loaded_cur (by omega) (by omega)

/-- The post keys keep the page unless it has to be read. -/
theorem loaded_handlePost {tl : TuiList} (page : Page lines tl) (window : Window lines tl)
    (inList : tl.cur < tl.all) {key : Key}
    (steady : Steady lines (.entered tl) (.press key))
    (valid : (handlePost lines tl key).1.valid = true) :
    Loaded lines (handlePost lines tl key).1 := by
  have unmoved : Loaded lines tl := ⟨page, fun _ => window⟩
  have unread : ∀ reading, (tl.jump = 0 → StaysOnPage lines tl tl.cur reading) →
      (handlePost lines tl (.read reading)).1.valid = true →
        Loaded lines (handlePost lines tl (.read reading)).1 := by
    intro reading stays valid
    simp only [handlePost] at valid ⊢
    split
    · rw [if_pos ‹_›] at valid
      cases valid
    · rw [if_neg ‹_›] at valid
      exact loaded_readPosts page (stays (not_not.mp ‹_›)) valid
  cases key with
  | enter reading => exact unread reading (steady inList) valid
  | read reading => exact unread reading (steady inList) valid
  | readUser reading => exact loaded_readPosts page (steady inList) valid
  | toggleFlag flag =>
    cases flag with
    | none => exact unmoved
    | some flag => exact ⟨page_editEntry page (isEntry_editFlag flag), fun _ => window⟩
  | toggleStickiness flag =>
    cases flag with
    | none => exact unmoved
    | some flag => cases valid
  | editPostTitle title =>
    cases title with
    | none => exact unmoved
    | some title => exact ⟨page_editEntry page (isEntry_editTitle title), fun _ => window⟩
  | operate done =>
    cases done with
    | true => cases valid
    | false => exact unmoved
  | batch done =>
    cases done with
    | true => cases valid
    | false => exact unmoved
  | search pos =>
    cases pos with
    | none => exact unmoved
    | some pos => cases valid
  | firstUnread found =>
    cases found with
    | none => exact unmoved
    | some found =>
      obtain ⟨pos, reading⟩ := found
      have moved : Page lines { tl with cur := pos } := page.of_same rfl rfl rfl rfl
      have stays : StaysOnPage lines { tl with cur := pos } pos
          { reading with flag := none } := steady inList
      exact loaded_readPosts moved stays valid
  | skip =>
    simp only [handlePost, invalidateIf] at valid ⊢
    split
    · rw [if_pos ‹_›] at valid
      cases valid
    · rename_i inside
      rw [decide_eq_true_eq] at inside
      exact page.loaded_cur (by have := window.1; omega) (by omega)
  | previousPage => exact loaded_tuiListSeek page window inList .pageUp valid
  | pageUp => exact loaded_tuiListSeek page window inList .pageUp valid
  | up => exact loaded_tuiListSeek page window inList .up valid
  | pageDown => exact loaded_tuiListSeek page window inList .pageDown valid
  | down => exact loaded_tuiListSeek page window inList .down valid
  | last => cases valid
  | home => cases valid
  | digit value => exact page.loaded_cur window.1 window.2
  | newPost | elsewhere | listDeleted | switchBoard | leave | onPost | unknown => exact unmoved

/-- The keys of `tui_list` change cursor and jump only. -/
theorem tuiListKey_cases {tl next : TuiList} {key : Key}
    (left : tuiListKey lines tl key = some next) :
    ∃ cur jump, next = { tl with cur := cur, jump := jump } := by
  unfold tuiListKey at left
  split at left
  case h_1 => cases left
  case h_10 =>
    cases left
    split <;> exact ⟨_, _, rfl⟩
  case h_11 =>
    split at left <;> cases left
    exact ⟨_, _, rfl⟩
  all_goals
    cases left
    exact ⟨_, _, rfl⟩

/-- What the handler does to a list without an entry under the cursor. -/
theorem postListHandler_empty (lines : Nat) {tl : TuiList} (empty : tl.all ≤ tl.cur) (key : Key) :
    (postListHandler lines tl key).1.valid = false ∨ (postListHandler lines tl key).1 = tl := by
  unfold postListHandler
  split
  case h_1 => exact Or.inl rfl
  case h_3 shown => cases shown <;> simp [invalidateIf, invalidate]
  case h_4 chosen => cases chosen <;> simp [invalidate]
  case h_6 => exact Or.inr (by rw [if_pos empty])
  all_goals exact Or.inr rfl

/-- The handler keeps the page unless it has to be read. -/
theorem loaded_postListHandler {tl : TuiList} (page : Page lines tl)
    (window : Window lines tl) (inList : tl.cur < tl.all) {key : Key}
    (steady : Steady lines (.entered tl) (.press key))
    (valid : (postListHandler lines tl key).1.valid = true) :
    Loaded lines (postListHandler lines tl key).1 := by
  have unmoved : Loaded lines tl := ⟨page, fun _ => window⟩
  have notEmpty : ¬tl.all ≤ tl.cur := by omega
  unfold postListHandler at valid ⊢
  split
  case h_1 => cases valid
  case h_2 => exact unmoved
  case h_3 shown =>
    cases shown with
    | true => cases valid
    | false => exact unmoved
  case h_4 chosen =>
    cases chosen with
    | true => cases valid
    | false => exact unmoved
  case h_5 => exact unmoved
  case h_6 =>
    rw [if_neg notEmpty]
    simp only [if_neg notEmpty] at valid
    exact loaded_handlePost page window inList steady valid

/-- A key that the handler leaves to the list although there is a post under the
cursor does not move it. -/
theorem tuiListKey_of_readAgain {tl handled next : TuiList} {key : Key}
    (inList : tl.cur < tl.all)
    (again : postListHandler lines tl key = (handled, .readAgain))
    (left : tuiListKey lines handled key = some next) :
    next = { handled with jump := 0 } := by
  have notEmpty : ¬tl.all ≤ tl.cur := by omega
  unfold tuiListKey at left
  split at left
  case h_1 => cases left
  case h_10 =>
    simp only [postListHandler, if_neg notEmpty, handlePost] at again
    split at again <;> cases again
  case h_11 =>
    split at left <;> cases left
    rfl
  all_goals
    simp only [postListHandler, if_neg notEmpty, handlePost] at again
    cases again

/-- A key keeps the page unless it has to be read. -/
theorem invariant_press {tl next : TuiList} {key : Key}
    (entered : Invariant lines (.entered tl))
    (steady : Steady lines (.entered tl) (.press key))
    (pressed : press lines tl key = some next) : Invariant lines (.turning next) := by
  obtain ⟨-, page, window, inList⟩ := entered
  have nonneg := page.nonneg
  have count := page.count
  intro valid
  unfold press at pressed
  obtain some | none : tl.cur < tl.all ∨ tl.all ≤ tl.cur := by omega
  · have loaded := loaded_postListHandler page window some steady
    split at pressed
    · rename_i handled handledEq
      cases pressed
      rw [handledEq] at loaded
      exact loaded valid
    · cases pressed
    · rename_i handled handledEq
      rw [handledEq] at loaded
      cases tuiListKey_of_readAgain some handledEq pressed
      obtain ⟨handledPage, handledWindow⟩ := loaded valid
      exact ⟨handledPage.of_same rfl rfl rfl rfl, handledWindow⟩
  · have empty : tl.all = 0 := by
      by_contra nonempty
      have := inList (by omega)
      omega
    have unmoved := postListHandler_empty lines none key
    have moved : ∃ cur jump,
        next = { (postListHandler lines tl key).1 with cur := cur, jump := jump } := by
      split at pressed
      · rename_i handled handledEq
        cases pressed
        rw [handledEq]
        exact ⟨_, _, rfl⟩
      · cases pressed
      · rename_i handled handledEq
        rw [handledEq]
        exact tuiListKey_cases pressed
    obtain ⟨cur, jump, rfl⟩ := moved
    obtain invalid | same := unmoved
    · exact absurd (invalid.symm.trans valid) Bool.false_ne_true
    · rw [same]
      exact ⟨page.of_same rfl rfl rfl rfl, fun nonempty => absurd empty nonempty.ne'⟩

theorem Invariant.step (positive : 0 < lines) {state next : State} {action : Action}
    (invariant : Invariant lines state) (steady : Steady lines state action)
    (stepEq : step lines state action = some next) : Invariant lines next := by
  cases state with
  | turning tl =>
    cases action with
    | turn files start =>
      cases stepEq
      cases valid : tl.valid with
      | true => exact invariant_refresh_valid positive files start valid (invariant valid)
      | false => exact invariant_refresh_invalid positive valid (steady valid)
    | press key => cases stepEq
  | entered tl =>
    cases action with
    | turn files start => cases stepEq
    | press key =>
      obtain ⟨next, pressed, rfl⟩ := Option.map_eq_some_iff.mp stepEq
      exact invariant_press invariant steady pressed

end Invariant

/-- In every run that loads the pages of its cursor and stays on its page when a
reading ends early, the handler acts on the entry that is shown. -/
theorem actsOnShown_of_steady {lines : Nat} (positive : 0 < lines) (buf : Buffer)
    (actions : List Action) {tl : TuiList}
    (steady : TransitionRuns.Guarded (step lines) (Steady lines) actions
      (.turning (tuiListInit buf)))
    (runs : TransitionRuns.run (step lines) actions (.turning (tuiListInit buf)) =
      some (.entered tl)) : ActsOnShown lines tl := by
  have initial : Invariant lines (.turning (tuiListInit buf)) :=
    fun valid => absurd valid Bool.false_ne_true
  have invariant := TransitionRuns.invariant_of_guarded (Invariant lines)
    (fun _ _ _ invariant steady stepEq => invariant.step positive steady stepEq)
    initial steady runs
  exact invariant.2.1.actsOnShown invariant.2.2.1

def numberedRecord (number : Nat) : PostRecord where
  id := Int64.ofNat number
  replyId := Int64.ofNat number
  threadId := Int64.ofNat number
  userId := 0
  userIdReplied := 0
  boardId := 1
  flag := 0
  userName := ⟨.empty, Nat.succ_pos idLen⟩
  boardName := ⟨.empty, boardNameSize_pos⟩
  utf8Title := ⟨.empty, titleSize_pos⟩

/-- A board with 40 posts, which are two pages of 20 lines. -/
def twoPages : Files :=
  ⟨(List.range 40).map numberedRecord, []⟩

/-- The list is opened, and the cursor goes down. -/
def openAndDown : List Action :=
  [.turn twoPages (.lastRead 0), .press .down, .turn twoPages (.lastRead 0)]

theorem actsOnShown_openAndDown :
    ∃ tl, TransitionRuns.run (step 20) openAndDown (.turning (tuiListInit fun _ => none)) =
        some (.entered tl) ∧ ActsOnShown 20 tl := by
  have steady : TransitionRuns.Guarded (step 20) (Steady 20) openAndDown
      (.turning (tuiListInit fun _ => none)) := by
    refine ⟨fun _ => ⟨⟨by decide, by decide⟩, fun _ => by decide⟩, fun _ turned => ?_⟩
    cases turned
    refine ⟨trivial, fun _ pressed => ?_⟩
    cases pressed
    exact ⟨fun invalid => absurd invalid (by decide), fun _ _ => trivial⟩
  exact ⟨_, rfl, actsOnShown_of_steady (by decide) (fun _ => none) openAndDown steady rfl⟩

/-- The number 41 is typed in a list of 40 posts. -/
def jumpBehind : List Action :=
  [.turn twoPages (.lastRead 0), .press (.digit 4), .turn twoPages (.lastRead 0),
    .press (.digit 1), .turn twoPages (.lastRead 0), .press (.enter ⟨[], none, false⟩),
    .turn twoPages (.lastRead 0)]

/-- The last post is under the cursor, and another one in the buffer. -/
theorem acts_on_another_entry :
    ¬∀ (lines : Nat) (buf : Buffer) (actions : List Action) (tl : TuiList), 20 ≤ lines →
      TransitionRuns.run (step lines) actions (.turning (tuiListInit buf)) =
        some (.entered tl) → ActsOnShown lines tl := by
  intro acts
  obtain ⟨-, -, entry, buffered, shown, inBuffer, same⟩ :=
    acts 20 (fun _ => none) jumpBehind _ le_rfl rfl (by decide)
  have isLast : entry = numberedRecord 39 := Option.some.inj (shown.symm.trans rfl)
  have isOther : buffered = numberedRecord 19 := Option.some.inj (inBuffer.symm.trans rfl)
  rw [isLast, isOther] at same
  exact absurd (congrArg PostRecord.id same) (by decide)

end PostList

end Fbbs
