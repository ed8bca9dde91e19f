import Fbbs.BackendMessages
import Fbbs.SqlRows

/-!
# The post tables and the statements of the backend

`post.recent` and `post.deleted` with the columns of `pg/post.sql`, and the
statements that `backend/post.c` builds over them.  The conditions of a `WHERE`
clause are kept as syntax, because a statement on `post.recent` that mentions
`bm_visible` is an error: only `post.deleted` has that column.
-/

namespace Fbbs

namespace Post

open SqlRows

/-- A row of `post.recent`; every column but the id is nullable. -/
structure PostRow where
  id : PostId
  replyId : Option PostId
  threadId : Option PostId
  userId : Option UserId
  userIdReplied : Option UserId
  realUserId : Option UserId
  userName : Option CString
  boardId : Option Int32
  boardName : Option CString
  digest : Option Bool
  marked : Option Bool
  locked : Option Bool
  imported : Option Bool
  water : Option Bool
  attachment : Option Bool
  sticky : Option Bool
  title : Option CString
  deriving DecidableEq

/-- A row of `post.deleted`. -/
structure DeletedRow where
  post : PostRow
  deleteStamp : Option Int64
  eraserId : Option UserId
  eraserName : Option CString
  junk : Option Bool
  bmVisible : Option Bool
  deriving DecidableEq

structure Tables where
  recent : List PostRow
  deleted : List DeletedRow
  deriving DecidableEq

def postFlagDigest : Int32 := 1
def postFlagMarked : Int32 := 2
def postFlagLocked : Int32 := 4
def postFlagImport : Int32 := 8
def postFlagSticky : Int32 := 16
def postFlagWater : Int32 := 32

def postListThread : Int32 := 2
def postListTopic : Int32 := 5
def postListTrash : Int32 := 8
def postListJunk : Int32 := 9

def isDeleted (type : Int32) : Bool :=
  type == postListTrash || type == postListJunk

/-- A conjunct of a `WHERE` clause. -/
inductive Condition
  | boardId (bid : Int32)
  | digest
  | marked
  | water
  | userId (uid : UserId)
  | titleLike (keyword : CString)
  | isTopic
  | threadFrom (tid min : PostId)
  | threadTo (tid max : PostId)
  | idFrom (min : PostId)
  | idTo (max : PostId)
  | threadId (tid : PostId)
  | bmVisible
  | notBmVisible
  | notMarked
  | notSticky
  deriving DecidableEq

/-- The conditions that `post.recent` cannot evaluate. -/
def Condition.needsDeleted : Condition → Bool
  | .bmVisible => true
  | .notBmVisible => true
  | _ => false

/-- A call of `query_and` under a test. -/
def queryAnd (test : Bool) (condition : Condition) : List Condition :=
  if test then [condition] else []

/-- The conditions on ids and threads, which depend on the list type. -/
def filterRange (f : PostFilter) : List Condition :=
  if f.type = postListThread then
    queryAnd (f.min != 0 && f.tid != 0) (.threadFrom f.tid f.min) ++
    queryAnd (f.max != 0 && f.tid != 0) (.threadTo f.tid f.max)
  else
    queryAnd (f.min != 0) (.idFrom f.min) ++
    queryAnd (f.max != 0) (.idTo f.max) ++
    queryAnd (f.tid != 0) (.threadId f.tid)

/-- `build_post_filter`. -/
def buildPostFilter (f : PostFilter) : List Condition :=
  queryAnd (f.bid != 0 && isDeleted f.type) (.boardId f.bid) ++
  queryAnd (f.flag &&& postFlagDigest != 0) .digest ++
  queryAnd (f.flag &&& postFlagMarked != 0) .marked ++
  queryAnd (f.flag &&& postFlagWater != 0) .water ++
  queryAnd (f.uid != 0) (.userId f.uid) ++
  queryAnd (f.utf8Keyword.str.bytes != []) (.titleLike f.utf8Keyword.str) ++
  queryAnd (f.type == postListTopic) .isTopic ++
  filterRange f ++
  queryAnd (f.type == postListTrash) .bmVisible ++
  queryAnd (f.type == postListJunk) .notBmVisible

/-! The value of `title ILIKE '%' || keyword || '%'` is left to the database; it
is the parameter `ilike title keyword` of the statements below. -/

section Statements

variable (ilike : CString → CString → Bool)

/-- The value of a condition on a row, given the row's `bm_visible`. -/
def Condition.eval (row : PostRow) (visible : Option Bool) : Condition → Truth
  | .boardId bid => compare (· == ·) row.boardId (some bid)
  | .digest => row.digest
  | .marked => row.marked
  | .water => row.water
  | .userId uid => compare (· == ·) row.userId (some uid)
  | .titleLike keyword => row.title.map (ilike · keyword)
  | .isTopic => compare (· == ·) (some row.id) row.threadId
  | .threadFrom tid min =>
    either
      (both (compare (· == ·) row.threadId (some tid)) (some (decide (min ≤ row.id))))
      (compare (fun thread tid => decide (tid < thread)) row.threadId (some tid))
  | .threadTo tid max =>
    either
      (both (compare (· == ·) row.threadId (some tid)) (some (decide (row.id ≤ max))))
      (compare (fun thread tid => decide (thread < tid)) row.threadId (some tid))
  | .idFrom min => some (decide (min ≤ row.id))
  | .idTo max => some (decide (row.id ≤ max))
  | .threadId tid => compare (· == ·) row.threadId (some tid)
  | .bmVisible => visible
  | .notBmVisible => negation visible
  | .notMarked => negation row.marked
  | .notSticky => negation row.sticky

/-- The rows of `post.recent` that the conditions select. -/
def selectsRecent (conditions : List Condition) : PostRow → Bool :=
  selects (conditions.map fun condition row => condition.eval ilike row none)

/-- The rows of `post.deleted` that the conditions select. -/
def selectsDeleted (conditions : List Condition) : DeletedRow → Bool :=
  selects (conditions.map fun condition row =>
    condition.eval ilike row.post row.bmVisible)

/-- The conditions of the `DELETE` in `_backend_post_delete`. -/
def deleteConditions (req : BackendRequestPostDelete) : List Condition :=
  buildPostFilter req.filter ++ (if req.force then [] else [.notMarked]) ++
    [.notSticky]

/-- `POST_TABLE_FIELDS`: all columns but `sticky`, which takes its default. -/
def tableFields (row : PostRow) : PostRow :=
  { row with sticky := some false }

/-- The trigger before an insertion into `post.recent`. -/
def recentBeforeInsert (row : PostRow) : PostRow :=
  if row.replyId = some 0 then
    { row with replyId := some row.id, threadId := some row.id }
  else row

/-- The row that `insert_post` inserts under a new id. -/
def newRow (id : PostId) (req : BackendRequestPostNew) : PostRow where
  id := id
  replyId := some req.replyId
  threadId := some req.threadId
  userId := some (if req.hideUserId ∨ req.anonymous then 0 else req.userId)
  userIdReplied := some req.userIdReplied
  realUserId := some req.userId
  userName := req.userName
  boardId := some req.boardId
  boardName := req.boardName
  digest := some false
  marked := some req.marked
  locked := some req.locked
  imported := some false
  water := some false
  attachment := some false
  sticky := some false
  title := req.title

def insertPost (id : PostId) (req : BackendRequestPostNew) (tables : Tables) :
    Tables :=
  { tables with recent := tables.recent ++ [recentBeforeInsert (newRow id req)] }

/-- The row that `_backend_post_delete` inserts into `post.deleted`. -/
def deletedRow (now : Int64) (decrease : Bool) (req : BackendRequestPostDelete)
    (row : PostRow) : DeletedRow where
  post := tableFields row
  deleteStamp := some now
  eraserId := some req.userId
  eraserName := req.userName
  junk := both (some decrease) (either row.water (some req.junk))
  bmVisible := some req.bmVisible

/-- The statement of `_backend_post_delete`: the tables after it, and the rows
that it returns; `none` when it is an error. -/
def deletePosts (now : Int64) (decrease : Bool) (req : BackendRequestPostDelete)
    (tables : Tables) : Option (Tables × List DeletedRow) :=
  let conditions := deleteConditions req
  if conditions.any Condition.needsDeleted then none
  else
    let selected := selectsRecent ilike conditions
    let rows := (removed selected tables.recent).map (deletedRow now decrease req)
    some
      ({ recent := kept selected tables.recent, deleted := tables.deleted ++ rows },
        rows)

/-- The rows that the first statement of `_backend_post_undelete` returns. -/
def undeletedRows (req : BackendRequestPostUndelete) (tables : Tables) :
    List DeletedRow :=
  removed (selectsDeleted ilike (buildPostFilter req.filter)) tables.deleted

/-- The second statement of `_backend_post_undelete`. -/
def undeletePosts (req : BackendRequestPostUndelete) (tables : Tables) : Tables :=
  let selected := selectsDeleted ilike (buildPostFilter req.filter)
  { recent := tables.recent ++ (removed selected tables.deleted).map fun row =>
      recentBeforeInsert (tableFields row.post)
    deleted := kept selected tables.deleted }

/-- The columns that `flag_field` names. -/
inductive FlagField
  | digest
  | marked
  | locked
  | imported
  | water
  | sticky
  | attachment
  deriving DecidableEq

def flagField (flag : Int32) : FlagField :=
  if flag = postFlagDigest then .digest
  else if flag = postFlagMarked then .marked
  else if flag = postFlagLocked then .locked
  else if flag = postFlagImport then .imported
  else if flag = postFlagWater then .water
  else if flag = postFlagSticky then .sticky
  else .attachment

def FlagField.change (value : Truth → Truth) (row : PostRow) : FlagField → PostRow
  | .digest => { row with digest := value row.digest }
  | .marked => { row with marked := value row.marked }
  | .locked => { row with locked := value row.locked }
  | .imported => { row with imported := value row.imported }
  | .water => { row with water := value row.water }
  | .sticky => { row with sticky := value row.sticky }
  | .attachment => { row with attachment := value row.attachment }

/-- The assignment of `_backend_post_set_flag`. -/
def changeFlag (req : BackendRequestPostSetFlag) (row : PostRow) : PostRow :=
  (flagField req.flag).change
    (fun truth => if req.toggle then negation truth else some req.set) row

/-- The statement of `_backend_post_set_flag`. -/
def setFlag (req : BackendRequestPostSetFlag) (tables : Tables) : Tables :=
  let conditions := buildPostFilter req.filter
  if isDeleted req.filter.type then
    { tables with
      deleted := updated (selectsDeleted ilike conditions)
        (fun row => { row with post := changeFlag req row.post }) tables.deleted }
  else if conditions.any Condition.needsDeleted then tables
  else
    { tables with
      recent := updated (selectsRecent ilike conditions) (changeFlag req)
        tables.recent }

/-- The filter that `_backend_post_alter_title` builds. -/
def alterTitleFilter (req : BackendRequestPostAlterTitle) : PostFilter where
  type := 0
  bid := req.boardId
  flag := 0
  uid := 0
  min := req.postId
  max := req.postId
  tid := 0
  offsetMin := 0
  offsetMax := 0
  archive := false
  utf8Keyword := ⟨.empty, Nat.zero_lt_succ 76⟩

/-- The statement of `_backend_post_alter_title`. -/
def alterTitle (req : BackendRequestPostAlterTitle) (tables : Tables) : Tables :=
  { tables with
    recent := updated
      (selectsRecent ilike (buildPostFilter (alterTitleFilter req)))
      (fun row => { row with title := req.title }) tables.recent }

end Statements

/-- `board_t`, as far as the backend looks at it. -/
structure Board where
  flag : Int32
  deriving DecidableEq

def boardFlagJunk : Int32 := 32

def boardIsJunk (board : Board) : Bool :=
  board.flag &&& boardFlagJunk != 0

/-- The board test of `_backend_post_delete`: `none` when the handler returns at
once, otherwise whether author's post counts are decreased. -/
def deleteDecrease (getBoardByBid : Int32 → Option Board)
    (req : BackendRequestPostDelete) : Option Bool :=
  if req.filter.bid = 0 then some true
  else (getBoardByBid req.filter.bid).map fun board => !boardIsJunk board

/-- The board test and the statement of `_backend_post_delete`: the tables after
them and the rows that were returned. -/
def deleteRows (ilike : CString → CString → Bool)
    (getBoardByBid : Int32 → Option Board) (now : Int64)
    (req : BackendRequestPostDelete) (tables : Tables) : Tables × List DeletedRow :=
  match deleteDecrease getBoardByBid req with
  | none => (tables, [])
  | some decrease => (deletePosts ilike now decrease req tables).getD (tables, [])

theorem any_queryAnd (test : Bool) (condition : Condition) :
    (queryAnd test condition).any Condition.needsDeleted =
      (test && condition.needsDeleted) := by
  cases test <;> simp [queryAnd]

theorem needsDeleted_filterRange (f : PostFilter) :
    (filterRange f).any Condition.needsDeleted = false := by
  unfold filterRange
  split <;> simp [List.any_append, any_queryAnd, Condition.needsDeleted]

/-- A filter can be evaluated on `post.recent` exactly if it is not one of the
two trash lists. -/
theorem needsDeleted_buildPostFilter (f : PostFilter) :
    (buildPostFilter f).any Condition.needsDeleted = isDeleted f.type := by
  unfold buildPostFilter isDeleted
  simp only [List.any_append, any_queryAnd, needsDeleted_filterRange,
    Condition.needsDeleted, Bool.and_false, Bool.and_true, Bool.false_or]

/-- The posts of user 7 on board 1. -/
def sampleFilter (type : Int32) : PostFilter where
  type := type
  bid := 1
  flag := 0
  uid := 7
  min := 0
  max := 0
  tid := 0
  offsetMin := 0
  offsetMax := 0
  archive := false
  utf8Keyword := ⟨.empty, Nat.zero_lt_succ 76⟩

end Post

end Fbbs
