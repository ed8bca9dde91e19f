import Mathlib.Data.List.Sort
import Fbbs.AsciiBytes
import Fbbs.FilteredIndex
import Fbbs.Parcel

/-!
# The lists of boards

The model of the board list of `src/board.c`: the array of loaded boards, the table of
pointers to those that are shown, and the keys of the list.  A list runs inside `tui_list`,
which calls the loader whenever the list is not valid and then waits for a key.  Reading a
directory opens another list on top of the present one; a custom folder of the favourites
is shown by a second list on the same `board_list_t`.

The files that say which posts a user has read are outside the model: a key that looks for
unread posts carries what it finds.  Names are in the encoding of the screen.
-/

namespace Fbbs

namespace BoardLists

open AsciiBytes FilteredIndex

def favBoardRootFolder : Nat := 1

def favBoardLimit : Nat := 70

/-- The fields of `board_t` that the lists read. -/
structure Board where
  id : Nat
  name : Bytes
  categ : Bytes
  parent : Nat
  dir : Bool
  nozap : Bool
  club : Bool
  read : Bool
  post : Bool
  perm : Nat
  deriving DecidableEq

/-- `board_extra_t`.  The highest bit of the flags of a board marks the custom folders. -/
structure BoardExtra where
  board : Board
  custom : Bool
  folder : Nat
  sector : Nat
  online : Nat
  deriving DecidableEq

structure BoardRow where
  board : Board
  sector : Nat
  deriving DecidableEq

/-- What the database and the files say about the boards and about the user at one time. -/
structure Db where
  boards : List BoardRow
  /-- The rows of `fav_boards` of the user: a board and its folder. -/
  favBoards : List (Nat × Nat)
  /-- The rows of `fav_board_folders` of the user: the id and the name. -/
  folders : List (Nat × Bytes)
  userlevel : Nat
  isBm : Nat → Bool
  isClubMember : Nat → Bool
  online : Nat → Nat

def Db.hasReadPerm (db : Db) (board : Board) : Bool :=
  if board.club && board.read && !db.isBm board.id && !db.isClubMember board.id then false
  else board.perm == 0 || (board.post || board.nozap) || (db.userlevel &&& board.perm) != 0

inductive Comparator
  | flag
  | online
  | default
  deriving DecidableEq

/-- `board_cmp_flag`, `board_cmp_online` and `board_cmp_default`. -/
def Comparator.compare (cmp : Comparator) (b1 b2 : BoardExtra) : Int :=
  match cmp with
  | .flag => strcasecmp b1.board.name b2.board.name
  | .online => b1.online - b2.online
  | .default =>
    if (b1.sector : Int) - b2.sector ≠ 0 then b1.sector - b2.sector
    else if strcasecmp b1.board.categ b2.board.categ ≠ 0 then
      strcasecmp b1.board.categ b2.board.categ
    else strcasecmp b1.board.name b2.board.name

/-- `board_list_t`.  An array that is not allocated has no entries; `source` is the database
at the time of the last load and is not in the source. -/
structure BoardList where
  boards : List BoardExtra
  indices : List (Option Nat)
  cmp : Comparator
  count : Nat
  sector : Nat
  parent : Nat
  yank : Bool
  newflag : Bool
  favorite : Bool
  skipReload : Bool
  copyBid : Nat
  source : Db

namespace BoardList

/-- What `indices[n]` points to. -/
def deref (bl : BoardList) (pointer : Option Nat) : Option BoardExtra :=
  pointer.bind fun position => bl.boards[position]?

def board? (bl : BoardList) (n : Nat) : Option BoardExtra :=
  bl.indices[n]?.bind bl.deref

/-- The order of two entries of the table.  The comparison of a pointer that leads nowhere
is not defined. -/
def le (bl : BoardList) (p1 p2 : Option Nat) : Bool :=
  match bl.deref p1, bl.deref p2 with
  | some b1, some b2 => bl.cmp.compare b1 b2 ≤ 0
  | _, _ => true

def qsort (bl : BoardList) (count : Nat) : BoardList :=
  { bl with
    indices := (bl.indices.take count).insertionSort (fun p1 p2 => bl.le p1 p2 = true) ++
      bl.indices.drop count }

/-- The loop of both index functions: pointers to the boards that pass are written to the
start of the table, which has room for every board. -/
def index (bl : BoardList) (keep : BoardExtra → Bool) : BoardList :=
  { bl with
    count := (positions keep bl.boards).length
    indices := (positions keep bl.boards).map some ++
      bl.indices.drop (positions keep bl.boards).length }.qsort
    (positions keep bl.boards).length

/-- The folder that `index_favorite_boards` shows. -/
def folder (bl : BoardList) : Nat :=
  if bl.parent = 0 then favBoardRootFolder else bl.parent

def indexFavoriteBoards (bl : BoardList) : BoardList :=
  { bl with parent := bl.folder }.index fun p => p.folder == bl.folder

def indexBoards (bl : BoardList) (zapbuf : Nat → Int) : BoardList :=
  bl.index fun p => !bl.yank || zapbuf p.board.id != 0

/-- The first part of `res_to_board_array`: rows of boards, which the user has to be able to
read. -/
def boardRows (db : Db) (favorite : Bool) (rows : List (BoardRow × Nat)) : List BoardExtra :=
  (rows.filter fun row => db.hasReadPerm row.1.board).map fun row =>
    { board := row.1.board
      custom := false
      folder := if favorite then row.2 else 0
      sector := if favorite then row.1.sector else 0
      online := 0 }

/-- The second part of `res_to_board_array`: the custom folders.  The fields that it leaves
uninitialised are not read. -/
def folderRows (rows : List (Nat × Bytes)) : List BoardExtra :=
  rows.map fun row =>
    { board :=
        { id := row.1, name := row.2, categ := [0xca, 0xd5, 0xb2, 0xd8], parent := 0,
          dir := true, nozap := false, club := false, read := false, post := false, perm := 0 }
      custom := true
      folder := favBoardRootFolder
      sector := 0
      online := 0 }

/-- The join of `boards` and `fav_boards`. -/
def favoriteRows (db : Db) : List (BoardRow × Nat) :=
  db.favBoards.flatMap fun favorite =>
    (db.boards.filter fun row => row.board.id == favorite.1).map fun row => (row, favorite.2)

def loadFavoriteBoards (bl : BoardList) (db : Db) : BoardList :=
  { bl with
    boards := boardRows db bl.favorite (favoriteRows db) ++ folderRows db.folders
    source := db }

/-- The condition of the query of `load_boards`. -/
def selects (bl : BoardList) (row : BoardRow) : Bool :=
  if bl.sector ≠ 0 then row.sector == bl.sector
  else if bl.parent ≠ 0 then row.board.parent == bl.parent
  else true

def loadBoards (bl : BoardList) (db : Db) : BoardList :=
  { bl with
    boards := boardRows db bl.favorite ((db.boards.filter bl.selects).map fun row => (row, 0))
    source := db }

def loadOnlineData (bl : BoardList) (db : Db) : BoardList :=
  { bl with boards := bl.boards.map fun b =>
      { b with online := if b.board.dir then 0 else db.online b.board.id } }

/-- A new table for all the boards. -/
def allocate (bl : BoardList) : BoardList :=
  { bl with indices := List.replicate bl.boards.length none }

/-- `board_list_load` up to the point where `tl->all` is set. -/
def load (bl : BoardList) (db : Db) (zapbuf : Nat → Int) (valid : Bool) : BoardList :=
  let skip := bl.skipReload && valid
  let freed := if skip then bl else { bl with indices := [], boards := [] }
  let selected :=
    if bl.favorite then
      if skip then freed else freed.loadFavoriteBoards db
    else freed.loadBoards db
  let loaded := selected.loadOnlineData db
  if loaded.boards.isEmpty then loaded
  else
    let allocated := if skip then loaded else loaded.allocate
    if bl.favorite then allocated.indexFavoriteBoards else allocated.indexBoards zapbuf

/-- The loop of `jump_to_first_unread`: `none` if a pointer that leads nowhere is followed. -/
def firstUnread (bl : BoardList) (unread : Nat → Bool) : Nat → Nat → Option (Option Nat)
  | 0, _ => some none
  | left + 1, i =>
    match bl.board? i with
    | none => none
    | some e =>
      if !e.board.dir && unread e.board.id then some (some i)
      else bl.firstUnread unread left (i + 1)

/-- The new value of `tl->cur`. -/
def jumpToFirstUnread (bl : BoardList) (unread : Nat → Bool) (all cur : Nat) : Option Nat :=
  if bl.newflag then (bl.firstUnread unread (all - cur) cur).map fun found => found.getD cur
  else some cur

end BoardList

/-- A running `tui_list` of boards.  It waits for a key or stands before the next turn of its
loop; `custom` says that it shows a custom folder on the `board_list_t` of the list below,
and `entry` is the subscribing record at the time when it was opened. -/
structure Frame where
  bl : BoardList
  all : Nat
  cur : Nat
  valid : Bool
  waiting : Bool
  custom : Bool
  entry : Nat → Int

/-- The settings of the user that a list reads or changes. -/
structure User where
  guest : Bool
  brdsortFlag : Bool
  brdsortOnline : Bool

structure State where
  db : Db
  user : User
  zapbuf : Nat → Int
  stack : List Frame

def Frame.opened (bl : BoardList) (custom : Bool) (zapbuf : Nat → Int) : Frame :=
  { bl, all := 0, cur := 0, valid := false, waiting := false, custom, entry := zapbuf }

/-- The loader, the flag and the bounds of the cursor at the head of the loop of
`tui_list`. -/
def Frame.turn (frame : Frame) (db : Db) (zapbuf : Nat → Int) (unread : Nat → Bool) :
    Option Frame := do
  let loaded ←
    if frame.valid then some frame
    else
      let bl := frame.bl.load db zapbuf frame.valid
      let cur ← bl.jumpToFirstUnread unread bl.count frame.cur
      some { frame with bl, all := bl.count, cur }
  some { loaded with
    cur := if loaded.cur ≥ loaded.all then loaded.all - 1 else loaded.cur
    valid := true
    waiting := true }

/-- The commands that open a list. -/
inductive Entry
  | allBoards
  | unreadBoards
  | readSector (sector : Nat)
  | favoriteBoards

/-- `board_list_init` and what the commands set after it. -/
def boardListInit (user : User) (db : Db) (entry : Entry) : BoardList where
  boards := []
  indices := []
  cmp := if user.brdsortFlag then .flag else if user.brdsortOnline then .online else .default
  count := 0
  sector := match entry with
    | .readSector sector => sector
    | _ => 0
  parent := 0
  yank := !user.guest
  newflag := match entry with
    | .allBoards => false
    | _ => true
  favorite := match entry with
    | .favoriteBoards => true
    | _ => false
  skipReload := false
  copyBid := 0
  source := db

/-- The keys of a list.  `move` is any key that only moves the cursor or shows something
else; the new cursor is brought into its bounds at the next turn. -/
inductive Key
  | move (cur : Nat)
  | toggleNew
  | add (name : Bytes)
  | mkdir (id : Nat) (name : Bytes)
  | rm
  | copy
  | paste
  | sort
  | yank
  | zap (login sure : Bool)
  | read (stamp : Option Nat) (unread : Nat → Bool)
  | quit (unread : Nat → Bool)

/-- The database refuses a board of the favourites in a folder that does not exist. -/
def Db.hasFolder (db : Db) (folder : Nat) : Bool :=
  folder == favBoardRootFolder || db.folders.any fun row => row.1 == folder

/-- `fav_board_add`: `none` if nothing is inserted. -/
def favBoardAdd (db : Db) (name : Bytes) (parent : Nat) : Option Db :=
  match db.boards.find? fun row => strcasecmp row.board.name name == 0 with
  | none => none
  | some row =>
    let folder := if parent ≤ favBoardRootFolder then favBoardRootFolder else parent
    if db.hasReadPerm row.board && db.hasFolder folder &&
        !db.favBoards.any fun favorite => favorite.1 == row.board.id then
      some { db with favBoards := db.favBoards ++ [(row.board.id, folder)] }
    else none

/-- `fav_board_rmdir`: the database keeps a folder that boards refer to. -/
def favBoardRmdir (db : Db) (id : Nat) : Option Db :=
  if db.favBoards.any fun favorite => favorite.2 == id then none
  else some { db with folders := db.folders.filter fun folder => folder.1 != id }

def favBoardRm (db : Db) (id : Nat) : Db :=
  { db with favBoards := db.favBoards.filter fun favorite => favorite.1 != id }

def favBoardMv (db : Db) (id parent : Nat) : Option Db :=
  let folder := if parent < favBoardRootFolder then favBoardRootFolder else parent
  if db.hasFolder folder then
    some { db with favBoards := db.favBoards.map fun favorite =>
      if favorite.1 == id then (favorite.1, folder) else favorite }
  else none

/-- `brc_zapbuf`: the record of a subscribed board becomes the stamp of a post, which is
positive. -/
def brcZapbuf (zapbuf : Nat → Int) (id : Nat) (stamp : Option Nat) : Nat → Int :=
  match stamp with
  | some time => fun other =>
    if other = id ∧ 0 < zapbuf other then (time : Int) + 1 else zapbuf other
  | none => zapbuf

/-- What `read_board` sets in the list before and after it shows a custom folder. -/
def BoardList.inFolder (bl : BoardList) (skipReload : Bool) (parent : Nat) : BoardList :=
  { bl with skipReload, parent }

/-- The list that `read_board` opens for a directory. -/
def BoardList.directory (bl : BoardList) (board : Board) : BoardList where
  boards := []
  indices := []
  cmp := bl.cmp
  count := 0
  sector := 0
  parent := board.id
  yank := bl.yank
  newflag := bl.newflag
  favorite := false
  skipReload := false
  copyBid := 0
  source := bl.source

/-- The bits of the user that `sort_boards` sets, and the new comparator. -/
def User.nextSort (user : User) : User × Comparator :=
  if user.brdsortFlag then
    ({ user with brdsortFlag := false, brdsortOnline := true }, .online)
  else if user.brdsortOnline then ({ user with brdsortOnline := false }, .default)
  else ({ user with brdsortFlag := true }, .flag)

/-- The state with another list on the place of the topmost one, whose key is handled. -/
def State.handled (state : State) (frame : Frame) (rest : List Frame) : State :=
  { state with stack := { frame with waiting := false } :: rest }

/-- The end of a key that changes the favourites: the list has to be loaded again if the
database has done it. -/
def State.changed (state : State) (frame : Frame) (rest : List Frame) : Option Db → State
  | some db => { state with db }.handled { frame with valid := false } rest
  | none => state.handled frame rest

/-- What the outer list does after the list of a custom folder has returned. -/
def Frame.resumed (below inner : Frame) : Frame :=
  if inner.custom then
    { below with bl := (inner.bl.inFolder false favBoardRootFolder).indexFavoriteBoards }
  else below

/-- The end of the topmost list, and the rest of the key of the list below that opened it. -/
def State.quit (state : State) (frame : Frame) (rest : List Frame) (unread : Nat → Bool) :
    Option State :=
  match rest with
  | [] => some { state with stack := [] }
  | below :: rest =>
    let resumed := below.resumed frame
    (resumed.bl.jumpToFirstUnread unread resumed.all resumed.cur).map fun cur =>
      state.handled { resumed with cur } rest

/-- `read_board` on the board under the cursor. -/
def State.read (state : State) (frame : Frame) (rest : List Frame) (e : BoardExtra)
    (stamp : Option Nat) (unread : Nat → Bool) : Option State :=
  if e.board.dir then
    let bl :=
      if e.custom then frame.bl.inFolder true e.board.id
      else frame.bl.directory e.board
    some { state with stack := Frame.opened bl e.custom state.zapbuf :: frame :: rest }
  else
    (frame.bl.jumpToFirstUnread unread frame.all frame.cur).map fun cur =>
      { state with zapbuf := brcZapbuf state.zapbuf e.board.id stamp }.handled
        { frame with cur } rest

/-- `board_list_handler` for the keys that need no board. -/
def State.pressList (state : State) (frame : Frame) (rest : List Frame) :
    Key → Option State
  | .move cur => some (state.handled { frame with cur } rest)
  | .toggleNew =>
    some (state.handled { frame with bl := { frame.bl with newflag := !frame.bl.newflag } }
      rest)
  | .add name =>
    if frame.bl.favorite then
      if frame.bl.count ≥ favBoardLimit then some (state.handled frame rest)
      else some (state.changed frame rest (favBoardAdd state.db name frame.bl.parent))
    else
      -- The board under the cursor, also in a list without boards, is added to the
      -- favourites, and the list stays.
      (frame.bl.board? frame.cur).map fun e =>
        let added := favBoardAdd state.db e.board.name favBoardRootFolder
        { state with db := added.getD state.db }.handled frame rest
  | .mkdir id name =>
    if frame.bl.favorite && frame.bl.parent == favBoardRootFolder &&
        frame.bl.count < favBoardLimit then
      some (state.changed frame rest
        (some { state.db with folders := state.db.folders ++ [(id, name)] }))
    else some (state.handled frame rest)
  | .quit unread => state.quit frame rest unread
  | _ => none

/-- `board_list_handler` for the keys that act on the board under the cursor. -/
def State.pressBoard (state : State) (frame : Frame) (rest : List Frame) (e : BoardExtra) :
    Key → Option State
  | .rm =>
    if frame.bl.favorite then
      some (state.changed frame rest
        (if e.custom then favBoardRmdir state.db e.board.id
        else some (favBoardRm state.db e.board.id)))
    else some (state.handled frame rest)
  | .copy =>
    if frame.bl.favorite && !e.custom then
      some (state.handled { frame with bl := { frame.bl with copyBid := e.board.id } } rest)
    else some (state.handled frame rest)
  | .paste =>
    if frame.bl.favorite then
      some (state.changed frame rest (favBoardMv state.db frame.bl.copyBid frame.bl.parent))
    else some (state.handled frame rest)
  | .sort =>
    some ({ state with user := state.user.nextSort.1 }.handled
      { frame with bl := { frame.bl with cmp := state.user.nextSort.2 }.qsort frame.all } rest)
  | .yank =>
    if frame.bl.favorite then some (state.handled frame rest)
    else
      let bl := { frame.bl with yank := !frame.bl.yank }.indexBoards state.zapbuf
      some (state.handled { frame with bl, all := bl.count } rest)
  | .zap login sure =>
    if frame.bl.favorite then some (state.handled frame rest)
    else
      let toggles := login && !e.board.nozap
      if toggles && state.zapbuf e.board.id != 0 && !sure then some (state.handled frame rest)
      else
        let zapbuf : Nat → Int := fun other =>
          if toggles && other == e.board.id then
            if state.zapbuf other = 0 then 1 else 0
          else state.zapbuf other
        let bl := frame.bl.indexBoards zapbuf
        some ({ state with zapbuf }.handled { frame with bl, all := bl.count } rest)
  | .read stamp unread => state.read frame rest e stamp unread
  | _ => none

def Key.needsBoard : Key → Bool
  | .rm | .copy | .paste | .sort | .yank | .zap .. | .read .. => true
  | _ => false

/-- A key of the topmost list: `none` if a pointer that leads nowhere is followed. -/
def State.press (state : State) (frame : Frame) (rest : List Frame) (key : Key) :
    Option State :=
  if key.needsBoard then
    if frame.cur ≥ frame.all then some (state.handled frame rest)
    else (frame.bl.board? frame.cur).bind fun e => state.pressBoard frame rest e key
  else state.pressList frame rest key

/-- One step of the program or of its surroundings. -/
inductive Action
  | change (db : Db)
  | enter (entry : Entry) (zapbuf : Nat → Int)
  | turn (unread : Nat → Bool)
  | press (key : Key)

def step (state : State) : Action → Option State
  | .change db => some { state with db }
  | .enter entry zapbuf =>
    match state.stack with
    | [] =>
      let bl := boardListInit state.user state.db entry
      some { state with zapbuf, stack := [Frame.opened bl false zapbuf] }
    | _ :: _ => none
  | .turn unread =>
    match state.stack with
    | [] => none
    | frame :: rest =>
      if frame.waiting then none
      else (frame.turn state.db state.zapbuf unread).map fun next =>
        { state with stack := next :: rest }
  | .press key =>
    match state.stack with
    | [] => none
    | frame :: rest => if frame.waiting then state.press frame rest key else none

end BoardLists

end Fbbs
