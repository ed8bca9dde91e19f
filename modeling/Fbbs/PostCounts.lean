import Mathlib.Data.List.Nodup
import Fbbs.PostTables
import Fbbs.TransitionRuns
import Fbbs.UserCache

/-!
# Posts and post counts

The handlers of `post_new`, `post_delete` and `post_undelete` move rows between
the tables and keep `numposts` of the authors in step: a new post on an ordinary
board counts, and a row of `post.deleted` whose `junk` is true takes its count
back until the post is restored.
-/

namespace Fbbs

namespace Post

open SqlRows UserCache

/-- What the three handlers act on; `sequence` is the last value of
`post.post_id_seq`. -/
structure Server where
  tables : Tables
  users : UserCache
  sequence : Nat

/-- A request, with the readings of the clocks that its handler takes: the
milliseconds of `clock_timestamp()` and the time of `current_timestamp`. -/
inductive Request
  | postNew (millis : Nat) (req : BackendRequestPostNew)
  | postDelete (now : Int64) (req : BackendRequestPostDelete)
  | postUndelete (req : BackendRequestPostUndelete)

/-- `post.next_id`. -/
def nextId (millis value : Nat) : PostId :=
  Int64.ofNat (millis <<< 21) + Int64.ofNat (value % 2048)

/-- The test on a returned row before its author's count is adjusted; a null
column reads as zero or false. -/
def adjusts (row : DeletedRow) : Bool :=
  row.post.userId.getD 0 != 0 && row.junk.getD false

/-- The loop over the returned rows; a null name reads as the empty string. -/
def adjustAuthors (delta : Int32) : List DeletedRow → UserCache → Option UserCache
  | [], users => some users
  | row :: rows, users =>
    (if adjusts row then
        adjustUserPostCount users (row.post.userName.getD .empty) delta
      else some users).bind (adjustAuthors delta rows)

section Handlers

variable (ilike : CString → CString → Bool) (getBoardByBid : Int32 → Option Board)

/-- Whether `backend_post_new` adds the post to its author's count. -/
def countsPost (req : BackendRequestPostNew) : Bool :=
  (getBoardByBid req.boardId).any fun board =>
    !(boardIsJunk board || req.hideUserId || req.anonymous)

def backendPostNew (millis : Nat) (req : BackendRequestPostNew) (server : Server) :
    Option Server :=
  let id := nextId millis (server.sequence + 1)
  let inserted : Server :=
    { server with
      tables := insertPost id req server.tables
      sequence := server.sequence + 1 }
  if id ≠ 0 ∧ countsPost getBoardByBid req then
    (adjustUserPostCount server.users (req.userName.getD .empty) 1).map fun users =>
      { inserted with users := users }
  else some inserted

def backendPostDelete (now : Int64) (req : BackendRequestPostDelete)
    (server : Server) : Option Server :=
  let (tables, rows) := deleteRows ilike getBoardByBid now req server.tables
  (adjustAuthors (-1) rows server.users).map fun users =>
    { server with tables := tables, users := users }

/-- The rows are visited from the last to the first. -/
def backendPostUndelete (req : BackendRequestPostUndelete) (server : Server) :
    Option Server :=
  (adjustAuthors 1 (undeletedRows ilike req server.tables).reverse server.users).map
    fun users =>
      { server with tables := undeletePosts ilike req server.tables, users := users }

def handle (server : Server) : Request → Option Server
  | .postNew millis req => backendPostNew getBoardByBid millis req server
  | .postDelete now req => backendPostDelete ilike getBoardByBid now req server
  | .postUndelete req => backendPostUndelete ilike req server

end Handlers

/-- The ids that the table `users` gives to the accounts, by their slot. -/
structure AccountIds where
  id : Nat → Option UserId
  inside : ∀ slot uid, id slot = some uid → 1 ≤ slot ∧ slot ≤ maxUsers
  nonzero : ∀ slot, id slot ≠ some 0
  injective : ∀ slot other uid, id slot = some uid → id other = some uid → slot = other

/-- The name and the id belong to one account. -/
def Registered (accounts : AccountIds) (users : UserCache) (uid : UserId)
    (name : Option CString) : Prop :=
  ∃ slot, searchuser users (name.getD .empty) = some slot ∧
    accounts.id slot = some uid

/-- The author of a row, unless hidden, is an account. -/
def AuthoredRow (accounts : AccountIds) (users : UserCache) (row : PostRow) : Prop :=
  ∀ uid, row.userId = some uid → uid ≠ 0 → Registered accounts users uid row.userName

def Tables.posts (tables : Tables) : List PostRow :=
  tables.recent ++ tables.deleted.map DeletedRow.post

/-- All authors are accounts. -/
def Authored (accounts : AccountIds) (server : Server) : Prop :=
  ∀ row ∈ server.tables.posts, AuthoredRow accounts server.users row

/-- A new post is written by an account, unless its author is hidden. -/
def AuthoredRequest (accounts : AccountIds) (users : UserCache) : Request → Prop
  | .postNew _ req =>
    req.hideUserId = false → req.anonymous = false →
      Registered accounts users req.userId req.userName
  | _ => True

/-- The row of a user that took a count back. -/
def junkOf (uid : UserId) (row : DeletedRow) : Bool :=
  row.post.userId == some uid && row.junk == some true

/-- The number of a user's rows in `post.deleted` whose `junk` is true. -/
def junkRows (uid : UserId) (tables : Tables) : Nat :=
  tables.deleted.countP (junkOf uid)

/-- Whether the request is a post of the user that counts. -/
def insertsFor (getBoardByBid : Int32 → Option Board) (uid : UserId) : Request → Bool
  | .postNew _ req => req.userId == uid && countsPost getBoardByBid req
  | _ => false

def Tables.ids (tables : Tables) : List PostId :=
  tables.recent.map PostRow.id ++ tables.deleted.map fun row => row.post.id

/-- The ids given out from the given last value of the sequence on. -/
def insertedIds : List Request → Nat → List PostId
  | [], _ => []
  | .postNew millis _ :: requests, value =>
    nextId millis (value + 1) :: insertedIds requests (value + 1)
  | _ :: requests, value => insertedIds requests value

/-- The readings of the clock for new ids. -/
def readings : List Request → List Nat
  | [] => []
  | .postNew millis _ :: requests => millis :: readings requests
  | _ :: requests => readings requests

variable {accounts : AccountIds} {users : UserCache}

theorem AccountIds.id_eq_iff {slot other : Nat} {uid author : UserId}
    (own : accounts.id slot = some uid) (others : accounts.id other = some author) :
    slot = other ↔ author = uid := by
  constructor
  · rintro rfl
    exact Option.some.inj (others.symm.trans own)
  · rintro rfl
    exact accounts.injective slot other author own others

theorem adjusts_eq_true {row : DeletedRow} (adjusted : adjusts row = true) :
    ∃ uid, row.post.userId = some uid ∧ uid ≠ 0 ∧ row.junk = some true := by
  cases authorEq : row.post.userId with
  | none => simp [adjusts, authorEq] at adjusted
  | some uid =>
    cases junkEq : row.junk with
    | none => simp [adjusts, junkEq] at adjusted
    | some junk =>
      simp only [adjusts, authorEq, junkEq, Option.getD_some, Bool.and_eq_true,
        bne_iff_ne] at adjusted
      exact ⟨uid, rfl, adjusted.1, congrArg some adjusted.2⟩

theorem junkOf_of_not_adjusts {row : DeletedRow} {uid : UserId} (nonzero : uid ≠ 0)
    (skipped : adjusts row = false) : junkOf uid row = false := by
  by_contra junk
  rw [Bool.not_eq_false, junkOf, Bool.and_eq_true, beq_iff_eq, beq_iff_eq] at junk
  simp [adjusts, junk.1, junk.2, nonzero] at skipped

/-- The loop adjusts each account once for each of its rows. -/
theorem adjustAuthors_eq (delta : Int32) (rows : List DeletedRow) (users : UserCache)
    (authored : ∀ row ∈ rows, AuthoredRow accounts users row.post) :
    ∃ passwd, adjustAuthors delta rows users = some { users with passwd := passwd } ∧
      ∀ slot uid, accounts.id slot = some uid →
        numposts { users with passwd := passwd } slot =
          numposts users slot +
            delta.toUInt32 * UInt32.ofNat (rows.countP (junkOf uid)) := by
  induction rows generalizing users with
  | nil => exact ⟨users.passwd, rfl, by simp⟩
  | cons row rows ih =>
    obtain ⟨authoredRow, authoredRows⟩ := List.forall_mem_cons.mp authored
    cases adjusted : adjusts row with
    | false =>
      obtain ⟨passwd, runs, counts⟩ := ih users authoredRows
      refine ⟨passwd, by simpa [adjustAuthors, adjusted] using runs, ?_⟩
      intro slot uid own
      have nonzero : uid ≠ 0 := fun zero => accounts.nonzero slot (zero ▸ own)
      rw [counts slot uid own,
        List.countP_cons_of_neg (by simp [junkOf_of_not_adjusts nonzero adjusted])]
    | true =>
      obtain ⟨author, authorEq, nonzero, junkEq⟩ := adjusts_eq_true adjusted
      obtain ⟨own, found, ownEq⟩ := authoredRow author authorEq nonzero
      obtain ⟨first, adjustEq, firstCounts⟩ :=
        adjustUserPostCount_eq found (accounts.inside own author ownEq) delta
      obtain ⟨passwd, runs, counts⟩ := ih { users with passwd := first } (by
        simpa only [AuthoredRow, Registered, searchuser_passwd] using authoredRows)
      refine ⟨passwd, by simpa [adjustAuthors, adjusted, adjustEq] using runs, ?_⟩
      intro slot uid slotEq
      rw [counts slot uid slotEq,
        firstCounts slot (accounts.inside slot uid slotEq).1]
      have sameIff := AccountIds.id_eq_iff slotEq ownEq
      have junkRow : junkOf uid row = (author == uid) := by
        simp [junkOf, authorEq, junkEq]
      rw [List.countP_cons, junkRow]
      by_cases same : author = uid
      · simp [sameIff.mpr same, same, UInt32.ofNat_add]
        grind
      · simp [mt sameIff.mp same, same]

/-- What handling requests does to the authors, the ids and the counts. -/
structure Effect (accounts : AccountIds) (getBoardByBid : Int32 → Option Board)
    (requests : List Request) (before after : Server) : Prop where
  names : ∀ name, searchuser after.users name = searchuser before.users name
  authored : Authored accounts after
  sequence : after.sequence = before.sequence + (readings requests).length
  ids : after.tables.ids.Perm
    (insertedIds requests before.sequence ++ before.tables.ids)
  counts : ∀ slot uid, accounts.id slot = some uid →
    numposts after.users slot + UInt32.ofNat (junkRows uid after.tables) =
      numposts before.users slot +
        UInt32.ofNat (requests.countP (insertsFor getBoardByBid uid)) +
        UInt32.ofNat (junkRows uid before.tables)

theorem readings_cons (request : Request) (requests : List Request) :
    readings (request :: requests) = readings [request] ++ readings requests := by
  cases request <;> rfl

theorem insertedIds_cons (request : Request) (requests : List Request) (value : Nat) :
    insertedIds (request :: requests) value =
      insertedIds [request] value ++
        insertedIds requests (value + (readings [request]).length) := by
  cases request <;> rfl

variable {ilike : CString → CString → Bool} {getBoardByBid : Int32 → Option Board}

theorem Effect.refl {server : Server} (authored : Authored accounts server) :
    Effect accounts getBoardByBid [] server server where
  names _ := rfl
  authored := authored
  sequence := rfl
  ids := List.Perm.refl _
  counts := by simp

theorem Effect.cons {request : Request} {requests : List Request}
    {before middle after : Server}
    (first : Effect accounts getBoardByBid [request] before middle)
    (rest : Effect accounts getBoardByBid requests middle after) :
    Effect accounts getBoardByBid (request :: requests) before after where
  names name := (rest.names name).trans (first.names name)
  authored := rest.authored
  sequence := by
    rw [rest.sequence, first.sequence, readings_cons request requests,
      List.length_append, Nat.add_assoc]
  ids := by
    have middleIds := first.ids.append_left
      (insertedIds requests (before.sequence + (readings [request]).length))
    have restIds := rest.ids
    rw [first.sequence] at restIds
    rw [insertedIds_cons]
    refine (restIds.trans middleIds).trans ?_
    rw [← List.append_assoc]
    exact List.perm_append_comm.append_right _
  counts := by
    intro slot uid own
    have firstCounts := first.counts slot uid own
    have restCounts := rest.counts slot uid own
    rw [← List.singleton_append, List.countP_append, UInt32.ofNat_add]
    grind

theorem toInt_nextId {millis : Nat} (small : millis < 2 ^ 42) (value : Nat) :
    (nextId millis value).toInt = millis * 2 ^ 21 + value % 2048 := by
  have bound : millis * 2 ^ 21 + value % 2048 < 2 ^ 63 := by omega
  rw [nextId, ← Int64.ofNat_add, Nat.shiftLeft_eq, Int64.toInt_ofNat_of_lt bound]
  push_cast
  rfl

theorem nextId_ne_zero {millis : Nat} (positive : 0 < millis)
    (small : millis < 2 ^ 42) (value : Nat) : nextId millis value ≠ 0 := by
  intro zero
  have toIntEq := toInt_nextId small value
  rw [zero, Int64.toInt_zero] at toIntEq
  omega

@[simp]
theorem recentBeforeInsert_id (row : PostRow) : (recentBeforeInsert row).id = row.id := by
  unfold recentBeforeInsert
  split <;> rfl

@[simp]
theorem recentBeforeInsert_userId (row : PostRow) :
    (recentBeforeInsert row).userId = row.userId := by
  unfold recentBeforeInsert
  split <;> rfl

@[simp]
theorem recentBeforeInsert_userName (row : PostRow) :
    (recentBeforeInsert row).userName = row.userName := by
  unfold recentBeforeInsert
  split <;> rfl

def SameAuthor (row source : PostRow) : Prop :=
  row.userId = source.userId ∧ row.userName = source.userName

theorem AuthoredRow.congr {users' : UserCache} {row source : PostRow}
    (authored : AuthoredRow accounts users source) (same : SameAuthor row source)
    (names : ∀ name, searchuser users' name = searchuser users name) :
    AuthoredRow accounts users' row := by
  unfold AuthoredRow Registered
  rw [same.1, same.2]
  simp only [names]
  exact authored

theorem newRow_authored {id : PostId} {millis : Nat} {req : BackendRequestPostNew}
    (authored : AuthoredRequest accounts users (.postNew millis req)) :
    AuthoredRow accounts users (recentBeforeInsert (newRow id req)) := by
  intro uid userIdEq nonzero
  rw [recentBeforeInsert_userId, newRow, Option.some.injEq] at userIdEq
  rw [recentBeforeInsert_userName]
  by_cases hidden : req.hideUserId = true ∨ req.anonymous = true
  · rw [if_pos hidden] at userIdEq
    exact absurd userIdEq.symm nonzero
  · rw [if_neg hidden] at userIdEq
    subst uid
    rw [not_or, Bool.not_eq_true, Bool.not_eq_true] at hidden
    exact authored hidden.1 hidden.2

theorem countsPost_visible {req : BackendRequestPostNew}
    (counts : countsPost getBoardByBid req = true) :
    req.hideUserId = false ∧ req.anonymous = false := by
  unfold countsPost at counts
  cases board : getBoardByBid req.boardId with
  | none => simp [board] at counts
  | some board => grind

/-- A new post adds its id, and one to the count of its author if it counts. -/
theorem backendPostNew_effect {server : Server} {millis : Nat}
    {req : BackendRequestPostNew} (authored : Authored accounts server)
    (writer : AuthoredRequest accounts server.users (.postNew millis req))
    (positive : 0 < millis) (small : millis < 2 ^ 42) :
    ∃ next, backendPostNew getBoardByBid millis req server = some next ∧
      Effect accounts getBoardByBid [.postNew millis req] server next := by
  have idNonzero := nextId_ne_zero positive small (server.sequence + 1)
  let tables := insertPost (nextId millis (server.sequence + 1)) req server.tables
  have idsPerm : tables.ids.Perm
      (nextId millis (server.sequence + 1) :: server.tables.ids) := by
    simp only [Tables.ids, tables, insertPost, List.map_append, List.map_cons,
      List.map_nil, recentBeforeInsert_id, List.append_assoc, List.singleton_append]
    exact List.perm_middle
  let next (passwd : Nat → Userec) : Server :=
    ⟨tables, { server.users with passwd := passwd }, server.sequence + 1⟩
  have stillAuthored : ∀ passwd, Authored accounts (next passwd) := by
    intro passwd
    have names := searchuser_passwd server.users passwd
    intro row member
    rcases List.mem_append.mp member with inRecent | inDeleted
    · rcases List.mem_append.mp inRecent with old | new
      · exact (authored row (List.mem_append_left _ old)).congr ⟨rfl, rfl⟩ names
      · rw [List.mem_singleton.mp new]
        exact (newRow_authored writer).congr ⟨rfl, rfl⟩ names
    · exact (authored row (List.mem_append_right _ inDeleted)).congr ⟨rfl, rfl⟩ names
  by_cases counted : countsPost getBoardByBid req = true
  · obtain ⟨visible, named⟩ := countsPost_visible counted
    obtain ⟨own, found, ownEq⟩ := writer visible named
    obtain ⟨passwd, adjustEq, counts⟩ :=
      adjustUserPostCount_eq found (accounts.inside own req.userId ownEq) 1
    have handled : backendPostNew getBoardByBid millis req server =
        some (next passwd) := by
      rw [backendPostNew, if_pos ⟨idNonzero, counted⟩, adjustEq]
      rfl
    refine ⟨next passwd, handled, searchuser_passwd _ _, stillAuthored passwd, rfl,
      idsPerm, ?_⟩
    intro slot uid slotEq
    have sameIff := AccountIds.id_eq_iff slotEq ownEq
    have junkEq : junkRows uid (next passwd).tables = junkRows uid server.tables := rfl
    rw [junkEq, counts slot (accounts.inside slot uid slotEq).1]
    by_cases same : req.userId = uid
    · simp [insertsFor, counted, same, sameIff.mpr same]
      rfl
    · simp [insertsFor, same, mt sameIff.mp same]
  · have handled : backendPostNew getBoardByBid millis req server =
        some (next server.users.passwd) :=
      if_neg fun both => counted both.2
    refine ⟨next server.users.passwd, handled, fun _ => rfl,
      stillAuthored server.users.passwd, rfl, idsPerm, ?_⟩
    intro slot uid _
    simp [insertsFor, counted, junkRows, insertPost, next, tables]

variable (ilike getBoardByBid) in
/-- What `_backend_post_delete` does to the tables: it moves the selected rows. -/
theorem deleteRows_eq (now : Int64) (req : BackendRequestPostDelete)
    (tables : Tables) :
    ∃ (selected : PostRow → Bool) (mark : PostRow → DeletedRow),
      (∀ row, (mark row).post = tableFields row) ∧
      deleteRows ilike getBoardByBid now req tables =
        (⟨kept selected tables.recent,
            tables.deleted ++ (removed selected tables.recent).map mark⟩,
          (removed selected tables.recent).map mark) := by
  have untouched : ∃ (selected : PostRow → Bool) (mark : PostRow → DeletedRow),
      (∀ row, (mark row).post = tableFields row) ∧
      (tables, []) =
        (Tables.mk (kept selected tables.recent)
            (tables.deleted ++ (removed selected tables.recent).map mark),
          (removed selected tables.recent).map mark) :=
    ⟨fun _ => false, deletedRow now false req, fun _ => rfl, by simp [kept, removed]⟩
  unfold deleteRows
  cases deleteDecrease getBoardByBid req with
  | none => exact untouched
  | some decrease =>
    unfold deletePosts
    by_cases failing : (deleteConditions req).any Condition.needsDeleted = true
    · simpa only [failing, if_true, Option.getD_none] using untouched
    · refine ⟨selectsRecent ilike (deleteConditions req),
        deletedRow now decrease req, fun _ => rfl, ?_⟩
      simp only [failing, Bool.false_eq_true, if_false, Option.getD_some]

/-- The rows go from the tables before to the tables after, and adding `delta`
for each row of a user makes up for the change of the user's junk rows. -/
structure Moves (before after : Tables) (rows : List DeletedRow) (delta : UInt32) :
    Prop where
  posts : ∀ row ∈ after.posts, ∃ source ∈ before.posts, SameAuthor row source
  returned : ∀ row ∈ rows, ∃ source ∈ before.posts, SameAuthor row.post source
  ids : after.ids.Perm before.ids
  junk : ∀ uid, delta * UInt32.ofNat (rows.countP (junkOf uid)) +
    UInt32.ofNat (junkRows uid after) = UInt32.ofNat (junkRows uid before)

variable (ilike getBoardByBid) in
theorem deleteRows_moves (now : Int64) (req : BackendRequestPostDelete)
    (tables : Tables) :
    Moves tables (deleteRows ilike getBoardByBid now req tables).1
      (deleteRows ilike getBoardByBid now req tables).2 (-1) := by
  obtain ⟨selected, mark, markPost, rowsEq⟩ :=
    deleteRows_eq ilike getBoardByBid now req tables
  rw [rowsEq]
  have markSource : ∀ row ∈ (removed selected tables.recent).map mark,
      ∃ source ∈ tables.posts, SameAuthor row.post source := by
    intro row member
    obtain ⟨source, removedSource, rfl⟩ := List.mem_map.mp member
    rw [markPost source]
    exact ⟨source, List.mem_append_left _ (List.mem_of_mem_filter removedSource),
      rfl, rfl⟩
  constructor
  · intro row member
    rcases List.mem_append.mp member with inRecent | inDeleted
    · exact ⟨row, List.mem_append_left _ (List.mem_of_mem_filter inRecent), rfl, rfl⟩
    · obtain ⟨deleted, deletedMember, rfl⟩ := List.mem_map.mp inDeleted
      rcases List.mem_append.mp deletedMember with old | new
      · exact ⟨deleted.post, List.mem_append_right _ (List.mem_map_of_mem old), rfl, rfl⟩
      · exact markSource deleted new
  · exact markSource
  · have rowIds : ((removed selected tables.recent).map mark).map
        (fun row => row.post.id) = (removed selected tables.recent).map PostRow.id := by
      simp [Function.comp_def, markPost, tableFields]
    simp only [Tables.ids, List.map_append, rowIds]
    exact kept_append_removed_perm _ _ _ _
  · intro uid
    simp only [junkRows, List.countP_append, UInt32.ofNat_add]
    grind

variable (ilike) in
theorem undeletePosts_moves (req : BackendRequestPostUndelete) (tables : Tables) :
    Moves tables (undeletePosts ilike req tables)
      (undeletedRows ilike req tables).reverse 1 := by
  have postSource : ∀ row ∈ tables.deleted,
      ∃ source ∈ tables.posts, SameAuthor row.post source := by
    intro row member
    exact ⟨row.post, List.mem_append_right _ (List.mem_map_of_mem member), rfl, rfl⟩
  constructor
  · intro row member
    rcases List.mem_append.mp member with inRecent | inDeleted
    · rcases List.mem_append.mp inRecent with old | new
      · exact ⟨row, List.mem_append_left _ old, rfl, rfl⟩
      · obtain ⟨deleted, removedRow, rfl⟩ := List.mem_map.mp new
        obtain ⟨source, sourceMember, same⟩ :=
          postSource deleted (List.mem_of_mem_filter removedRow)
        refine ⟨source, sourceMember, ?_⟩
        rw [SameAuthor, recentBeforeInsert_userId, recentBeforeInsert_userName]
        exact same
    · obtain ⟨deleted, deletedMember, rfl⟩ := List.mem_map.mp inDeleted
      exact postSource deleted (List.mem_of_mem_filter deletedMember)
  · intro row member
    exact postSource row (List.mem_of_mem_filter (List.mem_reverse.mp member))
  · simp only [Tables.ids, undeletePosts, List.map_append, List.map_map,
      Function.comp_def, recentBeforeInsert_id, tableFields]
    exact append_removed_kept_perm _ _ _ _
  · intro uid
    have junkEq : (undeletedRows ilike req tables).countP (junkOf uid) +
        junkRows uid (undeletePosts ilike req tables) = junkRows uid tables := by
      rw [junkRows, junkRows, ← List.countP_append]
      exact (List.filter_append_perm _ tables.deleted).countP_eq _
    rw [List.countP_reverse, UInt32.one_mul, ← UInt32.ofNat_add, junkEq]

variable (getBoardByBid) in
/-- Adjusting the authors of rows that move between the tables. -/
theorem adjustAuthors_effect {server : Server} {tables : Tables}
    {rows : List DeletedRow} (authored : Authored accounts server) (delta : Int32)
    (moves : Moves server.tables tables rows delta.toUInt32) (request : Request)
    (noReading : readings [request] = [])
    (noId : insertedIds [request] server.sequence = [])
    (noInsert : ∀ uid, insertsFor getBoardByBid uid request = false) :
    ∃ users, adjustAuthors delta rows server.users = some users ∧
      Effect accounts getBoardByBid [request] server
        { server with tables := tables, users := users } := by
  have rowsAuthored : ∀ row ∈ rows, AuthoredRow accounts server.users row.post := by
    intro row member
    obtain ⟨source, sourceMember, same⟩ := moves.returned row member
    exact (authored source sourceMember).congr same fun _ => rfl
  obtain ⟨passwd, adjustEq, counts⟩ :=
    adjustAuthors_eq delta rows server.users rowsAuthored
  have names := searchuser_passwd server.users passwd
  refine ⟨_, adjustEq, names, ?_, ?_, ?_, ?_⟩
  · intro row member
    obtain ⟨source, sourceMember, same⟩ := moves.posts row member
    exact (authored source sourceMember).congr same names
  · rw [noReading]
    rfl
  · rw [noId]
    exact moves.ids
  · intro slot uid own
    rw [counts slot uid own, UInt32.add_assoc, moves.junk uid]
    simp [noInsert uid]

/-- Deleting moves ids, and takes back the counts of the junk rows. -/
theorem backendPostDelete_effect {server : Server} (now : Int64)
    (req : BackendRequestPostDelete) (authored : Authored accounts server) :
    ∃ next, backendPostDelete ilike getBoardByBid now req server = some next ∧
      Effect accounts getBoardByBid [.postDelete now req] server next := by
  obtain ⟨users, adjustEq, effect⟩ := adjustAuthors_effect getBoardByBid authored (-1)
    (deleteRows_moves ilike getBoardByBid now req server.tables)
    (.postDelete now req) rfl rfl fun _ => rfl
  refine ⟨_, ?_, effect⟩
  simp only [backendPostDelete, adjustEq, Option.map_some]

/-- Restoring moves ids back, and gives back the counts of the junk rows. -/
theorem backendPostUndelete_effect {server : Server}
    (req : BackendRequestPostUndelete) (authored : Authored accounts server) :
    ∃ next, backendPostUndelete ilike req server = some next ∧
      Effect accounts getBoardByBid [.postUndelete req] server next := by
  obtain ⟨users, adjustEq, effect⟩ := adjustAuthors_effect getBoardByBid authored 1
    (undeletePosts_moves ilike req server.tables) (.postUndelete req) rfl rfl fun _ => rfl
  refine ⟨_, ?_, effect⟩
  simp only [backendPostUndelete, adjustEq, Option.map_some]

/-- Handling a request never fails if all authors are accounts. -/
theorem handle_effect {server : Server} {request : Request}
    (authored : Authored accounts server)
    (writer : AuthoredRequest accounts server.users request)
    (clock : ∀ millis ∈ readings [request], 0 < millis ∧ millis < 2 ^ 42) :
    ∃ next, handle ilike getBoardByBid server request = some next ∧
      Effect accounts getBoardByBid [request] server next := by
  cases request with
  | postNew millis req =>
    obtain ⟨positive, small⟩ := clock millis List.mem_cons_self
    exact backendPostNew_effect authored writer positive small
  | postDelete now req => exact backendPostDelete_effect now req authored
  | postUndelete req => exact backendPostUndelete_effect req authored

theorem AuthoredRequest.congr {users' : UserCache} {request : Request}
    (names : ∀ name, searchuser users' name = searchuser users name)
    (writer : AuthoredRequest accounts users request) :
    AuthoredRequest accounts users' request := by
  cases request with
  | postNew millis req => simpa only [AuthoredRequest, Registered, names] using writer
  | postDelete now req => trivial
  | postUndelete req => trivial

variable (ilike getBoardByBid) in
/-- A run of requests has the effect of its requests together. -/
theorem run_effect {requests : List Request} {server : Server}
    (authored : Authored accounts server)
    (writers : ∀ request ∈ requests, AuthoredRequest accounts server.users request)
    (clock : ∀ millis ∈ readings requests, 0 < millis ∧ millis < 2 ^ 42) :
    ∃ final, TransitionRuns.run (handle ilike getBoardByBid) requests server =
        some final ∧
      Effect accounts getBoardByBid requests server final := by
  induction requests generalizing server with
  | nil => exact ⟨server, rfl, Effect.refl authored⟩
  | cons request requests ih =>
    rw [readings_cons, List.forall_mem_append] at clock
    obtain ⟨writer, laterWriters⟩ := List.forall_mem_cons.mp writers
    obtain ⟨next, handled, first⟩ := handle_effect authored writer clock.1
    obtain ⟨final, runs, rest⟩ := ih first.authored
      (fun later member => (laterWriters later member).congr first.names) clock.2
    refine ⟨final, ?_, first.cons rest⟩
    rw [TransitionRuns.run, handled]
    exact runs

/-- What `post.next_id` relies on: the clock does not go back, no millisecond has
more than 2048 new posts, and the shifted reading fits a `BIGINT`. -/
structure Clock (readings : List Nat) : Prop where
  range : ∀ millis ∈ readings, 0 < millis ∧ millis < 2 ^ 42
  monotone : readings.Pairwise (· ≤ ·)
  moves : ∀ index millis later, readings[index]? = some millis →
    readings[index + 2048]? = some later → millis < later

theorem getElem?_insertedIds (requests : List Request) (value index : Nat) :
    (insertedIds requests value)[index]? =
      (readings requests)[index]?.map fun millis => nextId millis (value + index + 1) := by
  induction requests generalizing value index with
  | nil => rfl
  | cons request requests ih =>
    cases request with
    | postNew millis req =>
      cases index with
      | zero => rfl
      | succ index =>
        rw [insertedIds, readings, List.getElem?_cons_succ,
          List.getElem?_cons_succ, ih]
        congr 2
        funext millis
        congr 1
        omega
    | postDelete now req => exact ih value index
    | postUndelete req => exact ih value index

theorem Clock.le_of_lt {readings : List Nat} (clock : Clock readings)
    {first second millis later : Nat} (before : first < second)
    (atFirst : readings[first]? = some millis)
    (atSecond : readings[second]? = some later) : millis ≤ later := by
  obtain ⟨firstInside, rfl⟩ := List.getElem?_eq_some_iff.mp atFirst
  obtain ⟨secondInside, rfl⟩ := List.getElem?_eq_some_iff.mp atSecond
  exact List.pairwise_iff_getElem.mp clock.monotone _ _ firstInside secondInside before

/-- In one millisecond the sequence does not come round. -/
theorem Clock.lt_of_far {readings : List Nat} (clock : Clock readings)
    {first second millis later : Nat} (far : first + 2048 ≤ second)
    (atFirst : readings[first]? = some millis)
    (atSecond : readings[second]? = some later) : millis < later := by
  obtain ⟨secondInside, -⟩ := List.getElem?_eq_some_iff.mp atSecond
  have middleInside : first + 2048 < readings.length := by omega
  have atMiddle := List.getElem?_eq_getElem middleInside
  have moved := clock.moves first millis _ atFirst atMiddle
  rcases Nat.eq_or_lt_of_le far with rfl | before
  · rw [atMiddle, Option.some.injEq] at atSecond
    omega
  · have kept := clock.le_of_lt before atMiddle atSecond
    omega

/-- The ids given out are distinct. -/
theorem insertedIds_nodup {requests : List Request} (clock : Clock (readings requests))
    (value : Nat) : (insertedIds requests value).Nodup := by
  rw [List.nodup_iff_getElem?_ne_getElem?]
  intro first second before inside same
  rw [List.getElem?_eq_getElem inside] at same
  have atSecond := List.getElem?_eq_getElem inside
  rw [getElem?_insertedIds, Option.map_eq_some_iff] at same atSecond
  obtain ⟨millis, atFirst, firstEq⟩ := same
  obtain ⟨later, atLater, secondEq⟩ := atSecond
  have order := clock.le_of_lt before atFirst atLater
  have sameId := congrArg Int64.toInt (firstEq.trans secondEq.symm)
  rw [toInt_nextId (clock.range millis (List.mem_of_getElem? atFirst)).2,
    toInt_nextId (clock.range later (List.mem_of_getElem? atLater)).2] at sameId
  have sameMillis : millis = later := by omega
  have far : first + 2048 ≤ second := by omega
  have moved := clock.lt_of_far far atFirst atLater
  omega

theorem insertedIds_fresh {requests : List Request} {value : Nat}
    (clock : Clock (readings requests)) {old : PostId}
    (older : ∀ millis ∈ readings requests, old.toInt < millis * 2 ^ 21) :
    old ∉ insertedIds requests value := by
  intro member
  obtain ⟨index, found⟩ := List.mem_iff_getElem?.mp member
  rw [getElem?_insertedIds, Option.map_eq_some_iff] at found
  obtain ⟨millis, reading, rfl⟩ := found
  have known := List.mem_of_getElem? reading
  have before := older millis known
  rw [toInt_nextId (clock.range millis known).2] at before
  omega

/-- An id that occurs once in both tables together is in one of them only. -/
theorem xor_of_count_ids {tables : Tables} {id : PostId}
    (once : tables.ids.count id = 1) :
    Xor (id ∈ tables.recent.map PostRow.id)
      (id ∈ tables.deleted.map fun row => row.post.id) := by
  rw [Tables.ids, List.count_append] at once
  simp only [Xor, ← List.count_pos_iff]
  omega

/-- After any run of requests, each new post is in one of the two tables, and the
count of each account has changed by its new posts on ordinary boards less the
junk rows it has more in `post.deleted` than at the start. -/
theorem posts_and_counts_conserved (accounts : AccountIds)
    (ilike : CString → CString → Bool) (getBoardByBid : Int32 → Option Board)
    (requests : List Request) (server : Server) (authored : Authored accounts server)
    (writers : ∀ request ∈ requests, AuthoredRequest accounts server.users request)
    (clock : Clock (readings requests))
    (older : ∀ id ∈ server.tables.ids, ∀ millis ∈ readings requests,
      id.toInt < millis * 2 ^ 21) :
    ∃ final, TransitionRuns.run (handle ilike getBoardByBid) requests server =
        some final ∧
      (∀ id ∈ insertedIds requests server.sequence,
        Xor (id ∈ final.tables.recent.map PostRow.id)
          (id ∈ final.tables.deleted.map fun row => row.post.id)) ∧
      ∀ slot uid, accounts.id slot = some uid →
        numposts final.users slot - numposts server.users slot =
            UInt32.ofNat (requests.countP (insertsFor getBoardByBid uid)) -
              (UInt32.ofNat (junkRows uid final.tables) -
                UInt32.ofNat (junkRows uid server.tables)) ∧
          (junkRows uid server.tables = 0 →
            numposts final.users slot - numposts server.users slot =
              UInt32.ofNat (requests.countP (insertsFor getBoardByBid uid)) -
                UInt32.ofNat (junkRows uid final.tables)) := by
  obtain ⟨final, runs, effect⟩ :=
    run_effect ilike getBoardByBid authored writers clock.range
  refine ⟨final, runs, ?_, ?_⟩
  · intro id member
    apply xor_of_count_ids
    have fresh : id ∉ server.tables.ids := fun old =>
      insertedIds_fresh clock (older id old) member
    rw [effect.ids.count_eq, List.count_append, List.count_eq_zero_of_not_mem fresh,
      List.count_eq_one_of_mem (insertedIds_nodup clock _) member]
  · intro slot uid own
    have balance := effect.counts slot uid own
    constructor
    · grind
    · intro clean
      rw [clean] at balance
      have zero : UInt32.ofNat 0 = 0 := rfl
      grind

def sampleName : CString := ⟨[97, 98], by decide⟩

def sampleUsers : UserCache where
  userid _ := ⟨sampleName, by decide⟩
  next _ := 0
  hash a1 a2 key := if a1 = 0 ∧ a2 = 1 ∧ key = 0 then 1 else 0
  passwd _ := ⟨41⟩

def sampleAccounts : AccountIds where
  id slot := if slot = 1 then some 7 else none
  inside slot uid own := by
    split at own
    · subst slot
      decide
    · cases own
  nonzero slot := by split <;> simp
  injective slot other uid own others := by
    split at own
    · split at others
      · omega
      · cases others
    · cases own

def sampleServer : Server := ⟨⟨[], []⟩, sampleUsers, 0⟩

def samplePost : BackendRequestPostNew where
  replyId := 0
  threadId := 0
  title := none
  userName := some sampleName
  boardName := none
  content := none
  userId := 7
  userIdReplied := 0
  boardId := 1
  marked := false
  locked := false
  hideUserId := false
  anonymous := false

/-- Two posts, one of them deleted as junk. -/
def sampleRequests : List Request :=
  [.postNew 1 samplePost,
    .postDelete 0 ⟨sampleFilter 0, true, true, false, 9, none⟩,
    .postNew 1 samplePost]

theorem searchuser_sampleName : searchuser sampleUsers sampleName = some 1 := rfl

theorem posts_and_counts_conserved_sample :
    ∃ final, TransitionRuns.run (handle (fun _ _ => false) (fun _ => some ⟨0⟩))
        sampleRequests sampleServer = some final ∧
      numposts final.users 1 - numposts sampleServer.users 1 =
        2 - UInt32.ofNat (junkRows 7 final.tables) := by
  have writer : Registered sampleAccounts sampleServer.users 7 (some sampleName) :=
    ⟨1, searchuser_sampleName, rfl⟩
  obtain ⟨final, runs, -, counts⟩ := posts_and_counts_conserved sampleAccounts
    (fun _ _ => false) (fun _ => some ⟨0⟩) sampleRequests sampleServer
    (by simp [Authored, Tables.posts, sampleServer])
    (by
      simp only [sampleRequests, List.forall_mem_cons, List.not_mem_nil,
        IsEmpty.forall_iff, implies_true, and_true, AuthoredRequest, true_and]
      exact ⟨fun _ _ => writer, fun _ _ => writer⟩)
    ⟨by decide, by decide, by simp [sampleRequests, readings]⟩
    (by simp [sampleServer, Tables.ids])
  exact ⟨final, runs, (counts 1 7 rfl).2 rfl⟩

end Post

end Fbbs
