import Fbbs.PostCounts

/-!
# The count of posts behind a web post

A web process reads the record of its user once, when it takes a request.
`backend_post_new` answers before it adjusts the count of the author in shared
memory, by reading the record and writing it back.  With the answer the web process
adds one to the count of its own copy and writes the whole copy over the shared
record.  Others change the shared record at any time.
-/

namespace Fbbs

namespace WebPost

open Post

/-- `struct userec`. -/
structure UserRecord where
  uid : UInt32
  userlevel : UInt32
  numlogins : UInt32
  numposts : UInt32
  stay : UInt32
  nummedals : Int32
  money : Int32
  bet : Int32
  flags : Vector UInt8 2
  passwd : CharArray 14
  nummails : UInt32
  gender : UInt8
  birthyear : UInt8
  birthmonth : UInt8
  birthday : UInt8
  signature : Int32
  userdefine : UInt32
  prefs : UInt32
  noteline : Int32
  firstlogin : UInt32
  unused1 : Int32
  lastlogin : UInt32
  unused2 : Int32
  lastlogout : UInt32
  unused3 : Int32
  dateforbet : UInt32
  unused4 : Int32
  notedate : Int64
  userid : CharArray 16
  lasthost : CharArray 40
  username : CharArray 40
  email : CharArray 40
  reserved : Vector UInt8 8
  deriving DecidableEq

/-- The record with posts added to its count. -/
def UserRecord.addPosts (record : UserRecord) (count : UInt32) : UserRecord :=
  { record with numposts := record.numposts + count }

/-- `BOARD_FLAG_ANONY`. -/
def boardFlagAnony : Int32 := 8

/-- `board_t`, as far as `bbssnd_main` and `post_new` look at it. -/
structure BoardInfo where
  id : Int32
  name : CString
  board : Board

/-- What `bbssnd_main` hands to `post_new`; `content` is what `generate_content` makes
of it. -/
structure PostRequest where
  /-- `currentuser`, as it was read at the start of the request. -/
  user : UserRecord
  board : BoardInfo
  title : CString
  content : CString
  reid : PostId
  tid : PostId
  uidReplied : UserId
  locked : Bool
  anony : Int64

/-- `ANONYMOUS_ACCOUNT`. -/
def anonymousAccount : CString := .ofBytes [65, 110, 111, 110, 121, 109, 111, 117, 115]

/-- Whether `post_new` hides the author. -/
def PostRequest.anonymous (pr : PostRequest) : Bool :=
  pr.anony != 0 && pr.board.board.flag &&& boardFlagAnony != 0

/-- The request that `post_new` sends for the user of the session. -/
def postNew (sessionUid : UserId) (pr : PostRequest) : BackendRequestPostNew where
  replyId := pr.reid
  threadId := pr.tid
  title := some pr.title
  userName := some (if pr.anonymous then anonymousAccount else pr.user.userid.str)
  boardName := some pr.board.name
  content := some pr.content
  userId := sessionUid
  userIdReplied := pr.uidReplied
  boardId := pr.board.id
  marked := false
  locked := pr.locked
  hideUserId := false
  anonymous := pr.anonymous

/-- An access to the shared record of the author. -/
inductive Step
  | fetch
  | store
  | save
  deriving DecidableEq

/-- A change that others make to the shared record. -/
abbrev Change := UserRecord → UserRecord

/-- What changes in order make of a record. -/
def applied (changes : List Change) (record : UserRecord) : UserRecord :=
  changes.foldl (fun record change => change record) record

/-- An access, and the changes that others have made since the one before. -/
structure Turn where
  changes : List Change
  step : Step

/-- The shared record, the copy of the web process, and what the backend has read. -/
structure State where
  shared : UserRecord
  currentuser : UserRecord
  urec : UserRecord
  deriving DecidableEq

def Step.run (state : State) : Step → State
  | .fetch => { state with urec := state.shared }
  | .store => { state with shared := state.urec.addPosts 1 }
  | .save =>
    let currentuser := state.currentuser.addPosts 1
    { state with currentuser := currentuser, shared := currentuser }

/-- `adjust_user_post_count` if the post counts. -/
def backendSteps (getBoardByBid : Int32 → Option Board) (req : BackendRequestPostNew) :
    List Step :=
  if countsPost getBoardByBid req then [.fetch, .store] else []

/-- The end of `bbssnd_main` for a post that is not edited. -/
def webSteps (pr : PostRequest) : List Step :=
  if boardIsJunk pr.board.board then [] else [.save]

def Turn.run (state : State) (turn : Turn) : State :=
  turn.step.run { state with shared := applied turn.changes state.shared }

/-- An order in which the two processes can take their steps. -/
def Interleaves (schedule : List Turn) (backend web : List Step) : Prop :=
  (schedule.map Turn.step).filter (· ≠ .save) = backend ∧
    (schedule.map Turn.step).filter (· = .save) = web

/-- The shared record when the request has been handled; the web process has read
the one before the first changes. -/
def recordAfter (pr : PostRequest) (schedule : List Turn) : UserRecord :=
  (schedule.foldl Turn.run ⟨pr.user, pr.user, pr.user⟩).shared

def othersAlone (pr : PostRequest) (schedule : List Turn) : UserRecord :=
  applied (schedule.flatMap Turn.changes) pr.user

/-- Writing whole records back does no harm. -/
def Harmless (pr : PostRequest) : List Turn → Prop
  | [] => True
  | [⟨first, .save⟩] => applied first pr.user = pr.user.addPosts 1
  | [⟨first, .fetch⟩, ⟨second, .save⟩, ⟨third, .store⟩] =>
    applied (second ++ third) (applied first pr.user) = applied first pr.user
  | [⟨first, .fetch⟩, ⟨second, .store⟩, ⟨third, .save⟩] =>
    applied (first ++ second ++ third) pr.user = pr.user
  | [⟨first, .save⟩, ⟨second, .fetch⟩, ⟨third, .store⟩] =>
    applied (first ++ second ++ third) pr.user = applied second (pr.user.addPosts 1)
  | _ => False

theorem addPosts_zero (record : UserRecord) : record.addPosts 0 = record := by
  simp [UserRecord.addPosts]

theorem addPosts_addPosts (record : UserRecord) (first second : UInt32) :
    (record.addPosts first).addPosts second = record.addPosts (first + second) := by
  simp [UserRecord.addPosts, UInt32.add_assoc]

theorem addPosts_inj {left right : UserRecord} {count : UInt32} :
    left.addPosts count = right.addPosts count ↔ left = right := by
  constructor
  · intro same
    have undone := congrArg (·.addPosts (-count)) same
    simpa only [addPosts_addPosts, UInt32.add_right_neg, addPosts_zero] using undone
  · rintro rfl
    rfl

/-- The backend counts a post unless its board is a junk board or its author is hidden. -/
theorem backendSteps_postNew {getBoardByBid : Int32 → Option Board} {pr : PostRequest}
    (sessionUid : UserId) (known : getBoardByBid pr.board.id = some pr.board.board) :
    backendSteps getBoardByBid (postNew sessionUid pr) =
      if boardIsJunk pr.board.board = false ∧ pr.anonymous = false then [.fetch, .store]
      else [] := by
  simp only [backendSteps, countsPost, postNew, known, Option.any_some]
  cases boardIsJunk pr.board.board <;> cases pr.anonymous <;> rfl

theorem Interleaves.length {schedule : List Turn} {backend web : List Step}
    (interleaves : Interleaves schedule backend web) :
    schedule.length = backend.length + web.length := by
  rw [← interleaves.1, ← interleaves.2, Nat.add_comm, ← List.length_map Turn.step]
  simpa using (List.length_eq_length_filter_add (l := schedule.map Turn.step) (· = .save))

theorem eq_of_interleaves_save {schedule : List Turn}
    (interleaves : Interleaves schedule [] [.save]) :
    ∃ first, schedule = [⟨first, .save⟩] := by
  obtain ⟨turn, rfl⟩ := List.length_eq_one_iff.mp interleaves.length
  obtain ⟨first, step⟩ := turn
  obtain ⟨-, saves⟩ := interleaves
  cases step with
  | fetch => cases saves
  | store => cases saves
  | save => exact ⟨first, rfl⟩

/-- The copy is saved before, between or after the steps of the backend. -/
theorem eq_of_interleaves_count {schedule : List Turn}
    (interleaves : Interleaves schedule [.fetch, .store] [.save]) :
    ∃ first second third,
      schedule = [⟨first, .save⟩, ⟨second, .fetch⟩, ⟨third, .store⟩] ∨
        schedule = [⟨first, .fetch⟩, ⟨second, .save⟩, ⟨third, .store⟩] ∨
        schedule = [⟨first, .fetch⟩, ⟨second, .store⟩, ⟨third, .save⟩] := by
  obtain ⟨⟨first, one⟩, ⟨second, two⟩, ⟨third, three⟩, rfl⟩ :=
    List.length_eq_three.mp interleaves.length
  obtain ⟨counts, saves⟩ := interleaves
  refine ⟨first, second, third, ?_⟩
  cases one <;> cases two <;> cases three <;> simp_all

theorem applied_append (first second : List Change) (record : UserRecord) :
    applied (first ++ second) record = applied second (applied first record) :=
  List.foldl_append

/-- By how much the count of the author has to change. -/
def PostRequest.increment (pr : PostRequest) : UInt32 :=
  if boardIsJunk pr.board.board = false ∧ pr.anonymous = false then 1 else 0

/-- A web post counts once and keeps the changes of others exactly if writing whole
records back does no harm.  Saved between the steps of the backend, the copy is
overwritten, and others must not have changed the record since it was fetched; saved
after them, they must have left it as the web process read it; saved without them or
before them, their changes must amount to one more post. -/
theorem recordAfter_eq_iff (getBoardByBid : Int32 → Option Board) (sessionUid : UserId)
    (pr : PostRequest) (known : getBoardByBid pr.board.id = some pr.board.board)
    (schedule : List Turn)
    (interleaves : Interleaves schedule
      (backendSteps getBoardByBid (postNew sessionUid pr)) (webSteps pr)) :
    recordAfter pr schedule = (othersAlone pr schedule).addPosts pr.increment ↔
      Harmless pr schedule := by
  rw [backendSteps_postNew sessionUid known, webSteps] at interleaves
  cases junk : boardIsJunk pr.board.board with
  | true =>
    simp only [junk, Bool.true_eq_false, false_and, if_false, if_true] at interleaves
    have nothing := List.length_eq_zero_iff.mp interleaves.length
    simp [nothing, recordAfter, othersAlone, applied, PostRequest.increment, Harmless, junk,
      addPosts_zero]
  | false =>
    cases hidden : pr.anonymous with
    | true =>
      simp only [junk, hidden, Bool.true_eq_false, and_false, if_false,
        Bool.false_eq_true] at interleaves
      have increment : pr.increment = 0 := if_neg fun both => by simp [hidden] at both
      obtain ⟨first, rfl⟩ := eq_of_interleaves_save interleaves
      rw [increment, addPosts_zero, othersAlone, List.flatMap_singleton]
      exact eq_comm
    | false =>
      simp only [junk, hidden, and_self, if_true, if_false,
        Bool.false_eq_true] at interleaves
      have increment : pr.increment = 1 := if_pos ⟨junk, hidden⟩
      obtain ⟨first, second, third, order⟩ := eq_of_interleaves_count interleaves
      have others : othersAlone pr schedule =
          applied (first ++ second ++ third) pr.user := by
        rcases order with rfl | rfl | rfl <;> simp [othersAlone]
      rw [increment, others]
      rcases order with rfl | rfl | rfl
      · exact addPosts_inj.trans eq_comm
      · rw [List.append_assoc, applied_append]
        exact addPosts_inj.trans eq_comm
      · exact addPosts_inj.trans eq_comm

/-- A user without posts. -/
def sampleRecord : UserRecord where
  uid := 0
  userlevel := 0
  numlogins := 0
  numposts := 0
  stay := 0
  nummedals := 0
  money := 0
  bet := 0
  flags := Vector.replicate 2 0
  passwd := ⟨.empty, Nat.zero_lt_succ 13⟩
  nummails := 0
  gender := 0
  birthyear := 0
  birthmonth := 0
  birthday := 0
  signature := 0
  userdefine := 0
  prefs := 0
  noteline := 0
  firstlogin := 0
  unused1 := 0
  lastlogin := 0
  unused2 := 0
  lastlogout := 0
  unused3 := 0
  dateforbet := 0
  unused4 := 0
  notedate := 0
  userid := ⟨.empty, Nat.zero_lt_succ 15⟩
  lasthost := ⟨.empty, Nat.zero_lt_succ 39⟩
  username := ⟨.empty, Nat.zero_lt_succ 39⟩
  email := ⟨.empty, Nat.zero_lt_succ 39⟩
  reserved := Vector.replicate 8 0

/-- A post on an ordinary board. -/
def sampleRequest : PostRequest where
  user := sampleRecord
  board := ⟨1, .empty, ⟨0⟩⟩
  title := .empty
  content := .empty
  reid := 0
  tid := 0
  uidReplied := 0
  locked := false
  anony := 0

/-- A login of the user. -/
def login (record : UserRecord) : UserRecord :=
  { record with numlogins := record.numlogins + 1 }

/-- The user logs in before the backend fetches the record, and the copy is saved
before the backend stores it. -/
theorem recordAfter_eq_sample :
    recordAfter sampleRequest [⟨[login], .fetch⟩, ⟨[], .save⟩, ⟨[], .store⟩] =
      (login sampleRecord).addPosts 1 :=
  (recordAfter_eq_iff (fun _ => some ⟨0⟩) 7 sampleRequest rfl
    [⟨[login], .fetch⟩, ⟨[], .save⟩, ⟨[], .store⟩] ⟨rfl, rfl⟩).mpr rfl

/-- A login after the web process has read the record is undone by its post, and so
is one while the backend counts the post. -/
theorem login_lost :
    Interleaves [⟨[login], .fetch⟩, ⟨[], .store⟩, ⟨[], .save⟩]
        (backendSteps (fun _ => some ⟨0⟩) (postNew 7 sampleRequest))
        (webSteps sampleRequest) ∧
      sampleRequest.increment = 1 ∧
      recordAfter sampleRequest [⟨[login], .fetch⟩, ⟨[], .store⟩, ⟨[], .save⟩] ≠
        (login sampleRecord).addPosts 1 ∧
      recordAfter sampleRequest [⟨[], .fetch⟩, ⟨[], .save⟩, ⟨[login], .store⟩] ≠
        (login sampleRecord).addPosts 1 := by
  refine ⟨⟨rfl, rfl⟩, rfl, ?_, ?_⟩
  · intro same
    exact absurd (congrArg UserRecord.numlogins same) (by decide)
  · intro same
    exact absurd (congrArg UserRecord.numlogins same) (by decide)

end WebPost

end Fbbs
