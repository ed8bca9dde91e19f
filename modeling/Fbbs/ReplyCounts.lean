import Mathlib.Algebra.BigOperators.Group.Finset.Basic
import Mathlib.Algebra.BigOperators.Group.Finset.Piecewise
import Mathlib.Data.Fintype.Basic
import Mathlib.Data.List.Sort
import Fbbs.Notifications
import Fbbs.TransitionRuns

/-!
# The counters of unread replies

Redis keeps the number of unread replies of a user beside the reply tables.  The
backend inserts a row and then adds one; reading a post marks its row and then
subtracts one; the list of replies sets the counter to zero when it is opened
and marks its rows when it is closed.  Statements and commands of different
processes mix freely.
-/

namespace Fbbs

namespace ReplyCounts

open Notifications SqlRows

/-- `post_reply_load`: the ids of the rows before a post, newest first. -/
def postReplyLoad (unreadOnly : Bool) (userId : UserId) (postId : PostId) (size : Nat)
    (rows : List ReplyRow) : List PostId :=
  (((rows.filter fun row =>
      row.userIdReplied == userId && decide (row.postId < postId) &&
        (!unreadOnly || !row.isRead)).map ReplyRow.postId).insertionSort (· ≥ ·)).take size

/-- `tui_list_recent_helper_t`, as far as the rows are concerned. -/
structure RecentList where
  unreadOnly : Bool
  allLoaded : Bool
  vector : List PostId
  deriving DecidableEq

/-- `tui_list_recent_loader` with a screen of so many lines. -/
def tuiListRecentLoader (userId : UserId) (lines : Nat) (rows : List ReplyRow)
    (list : RecentList) : RecentList :=
  if list.allLoaded then list
  else
    let loaded := postReplyLoad list.unreadOnly userId
      (list.vector.getLast?.getD Int64.maxValue) lines rows
    { list with
      vector := list.vector ++ loaded
      allLoaded := decide (loaded.length < lines) }

def unreadOf (userId : UserId) (row : ReplyRow) : Bool :=
  row.userIdReplied == userId && !row.isRead

/-- The condition of the statement in `post_reply_mark_as_read`. -/
def marks (postId : PostId) (userId : UserId) (before : Bool) (row : ReplyRow) : Bool :=
  unreadOf userId row &&
    if before then decide (row.postId ≤ postId) else row.postId == postId

/-- The condition of the statement in `post_reply_delete`. -/
def deletes (userId : UserId) (postId : PostId) (row : ReplyRow) : Bool :=
  row.userIdReplied == userId && row.postId == postId

/-- What `post_list_reply_finalizer` marks, given the newest row of the list. -/
def finalizerMarks (userId : UserId) (newest : Option PostId) (row : ReplyRow) : Bool :=
  newest.any fun postId => marks postId userId true row

/-- What has happened to the counter for a row: a process has yet to add one,
or one was added, or the counter was cleared after that. -/
inductive Standing (Process : Type)
  | pending (process : Process)
  | counted
  | cleared
  deriving DecidableEq

/-- A row of the table; no statement or command looks at its standing. -/
structure Row (Process : Type) where
  reply : ReplyRow
  standing : Standing Process
  deriving DecidableEq

/-- Where a process stands: in `insert_reply_record` after the statement, in
`post_reply_mark_as_read` after a statement that found rows, or in the list. -/
inductive Call
  | idle
  | inserted (userId : UserId)
  | marked (userId : UserId) (rows : Nat)
  | listing (userId : UserId) (list : RecentList)
  deriving DecidableEq

/-- The reply tables, the hash `post:reply_count` and the processes. -/
structure System (Process : Type) where
  rows : List (Row Process)
  count : UserId → Int
  calls : Process → Call

inductive Action (Process : Type)
  | insert (process : Process) (req : BackendRequestPostNew) (postId : PostId)
      (userId : UserId)
  | increment (process : Process)
  | markOne (process : Process) (postId : PostId) (userId : UserId)
  | decrement (process : Process)
  | openList (process : Process) (userId : UserId)
  | load (process : Process) (lines : Nat)
  | delete (process : Process) (index : Nat)
  | switch (process : Process)
  | closeList (process : Process)

variable {Process : Type} [DecidableEq Process]

/-- The statement of `post_reply_mark_as_read`. -/
def markAsRead (selected : ReplyRow → Bool) (rows : List (Row Process)) :
    List (Row Process) :=
  updated (fun row => selected row.reply)
    (fun row => { row with reply := { row.reply with isRead := true } }) rows

/-- The row that the process inserted is counted now. -/
def settle (process : Process) (rows : List (Row Process)) : List (Row Process) :=
  updated (fun row => decide (row.standing = .pending process))
    (fun row => { row with standing := .counted }) rows

/-- The rows of the user are counted no more. -/
def clear (userId : UserId) (rows : List (Row Process)) : List (Row Process) :=
  updated (fun row => row.reply.userIdReplied == userId && decide (row.standing = .counted))
    (fun row => { row with standing := .cleared }) rows

/-- The row of `insert_reply_record`. -/
def pendingRow (process : Process) (req : BackendRequestPostNew) (postId : PostId)
    (userId : UserId) : Row Process where
  reply := insertReplyRecord req postId userId
  standing := .pending process

/-- The next place of a process. -/
def System.goto (system : System Process) (process : Process) (call : Call) :
    System Process :=
  { system with calls := Function.update system.calls process call }

/-- `post_reply_incr_count`. -/
def System.incrCount (system : System Process) (userId : UserId) (delta : Int) :
    System Process :=
  { system with
    count := Function.update system.count userId (system.count userId + delta) }

def step (system : System Process) : Action Process → Option (System Process)
  | .insert process req postId userId =>
    match system.calls process with
    | .idle =>
      some ({ system with
        rows := system.rows ++ [pendingRow process req postId userId] }.goto process
          (.inserted userId))
    | _ => none
  | .increment process =>
    match system.calls process with
    | .inserted userId =>
      some ({ system.incrCount userId 1 with
        rows := settle process system.rows }.goto process .idle)
    | _ => none
  | .markOne process postId userId =>
    match system.calls process with
    | .idle =>
      let selected := marks postId userId false
      let found := (system.rows.map Row.reply).countP selected
      some ({ system with rows := markAsRead selected system.rows }.goto process
        (if 0 < found then .marked userId found else .idle))
    | _ => none
  | .decrement process =>
    match system.calls process with
    | .marked userId rows => some ((system.incrCount userId (-rows)).goto process .idle)
    | _ => none
  | .openList process userId =>
    match system.calls process with
    | .idle =>
      some ({ system with
        rows := clear userId system.rows
        count := Function.update system.count userId 0 }.goto process
          (.listing userId ⟨true, false, []⟩))
    | _ => none
  | .load process lines =>
    match system.calls process with
    | .listing userId list =>
      some (system.goto process (.listing userId
        (tuiListRecentLoader userId lines (system.rows.map Row.reply) list)))
    | _ => none
  | .delete process index =>
    match system.calls process with
    | .listing userId list =>
      match list.vector[index]? with
      | none => some system
      | some postId =>
        let selected := fun row : Row Process => deletes userId postId row.reply
        -- The entry stays in the list if its row is gone already.
        let vector :=
          if removed selected system.rows = [] then list.vector
          else list.vector.eraseIdx index
        some ({ system with rows := kept selected system.rows }.goto process
          (.listing userId { list with vector := vector }))
    | _ => none
  | .switch process =>
    match system.calls process with
    | .listing userId list =>
      let newest := if list.unreadOnly then list.vector.head? else none
      some ({ system with
        rows := markAsRead (finalizerMarks userId newest) system.rows }.goto process
          (.listing userId ⟨!list.unreadOnly, false, []⟩))
    | _ => none
  | .closeList process =>
    match system.calls process with
    | .listing userId list =>
      some ({ system with
        rows := markAsRead (finalizerMarks userId list.vector.head?) system.rows }.goto
          process .idle)
    | _ => none

def System.unread (system : System Process) (userId : UserId) : Nat :=
  (system.rows.map Row.reply).countP (unreadOf userId)

/-- The counter is between zero and the number of unread rows. -/
def Honest (system : System Process) : Prop :=
  ∀ userId, 0 ≤ system.count userId ∧ system.count userId ≤ system.unread userId

/-- The rows that an action of the list marks or deletes. -/
def listTakes (system : System Process) : Action Process → ReplyRow → Bool
  | .delete process index =>
    match system.calls process with
    | .listing userId list => fun row =>
      list.vector[index]?.any fun postId => deletes userId postId row
    | _ => fun _ => false
  | .switch process =>
    match system.calls process with
    | .listing userId list =>
      finalizerMarks userId (if list.unreadOnly then list.vector.head? else none)
    | _ => fun _ => false
  | .closeList process =>
    match system.calls process with
    | .listing userId list => finalizerMarks userId list.vector.head?
    | _ => fun _ => false
  | _ => fun _ => false

/-- The subtractions from the counter of a user that a process still has to
make, for the rows it has marked. -/
def Call.subtractions (userId : UserId) : Call → Nat
  | .marked other rows => if other = userId then rows else 0
  | _ => 0

/-- The increments that a process still has to make. -/
def Call.increments (userId : UserId) : Call → Nat
  | .inserted other => if other = userId then 1 else 0
  | _ => 0

variable [Fintype Process]

/-- The rows of a user that were marked one by one and are not subtracted yet. -/
def System.outstanding (system : System Process) (userId : UserId) : Nat :=
  ∑ process, (system.calls process).subtractions userId

/-- A single mark finds only rows that are counted.  The list is opened when no
subtraction is outstanding, and takes only rows that were counted before it or
another list of the user was opened. -/
def Orderly (system : System Process) : Action Process → Prop
  | .markOne _ postId userId => ∀ row ∈ system.rows,
      marks postId userId false row.reply = true → row.standing = .counted
  | .openList _ userId => system.outstanding userId = 0
  | action => ∀ row ∈ system.rows, row.reply.isRead = false →
      listTakes system action row.reply = true → row.standing = .cleared

instance (system : System Process) (action : Action Process) :
    Decidable (Orderly system action) :=
  match action with
  | .openList _ userId => inferInstanceAs (Decidable (system.outstanding userId = 0))
  | .markOne _ _ _ | .insert _ _ _ _ | .increment _ | .decrement _ | .load _ _
  | .delete _ _ | .switch _ | .closeList _ =>
    inferInstanceAs (Decidable (∀ row ∈ system.rows, _))

/-- The unread rows of a user that are counted. -/
def Row.countedFor (userId : UserId) (row : Row Process) : Bool :=
  unreadOf userId row.reply && decide (row.standing = .counted)

/-- The unread rows of a user that a process has yet to count. -/
def Row.pendingFor (process : Process) (userId : UserId) (row : Row Process) : Bool :=
  unreadOf userId row.reply && decide (row.standing = .pending process)

def System.counted (system : System Process) (userId : UserId) : Nat :=
  system.rows.countP (Row.countedFor userId)

/-- The unread rows of a user that are not counted, or not any more. -/
def System.uncounted (system : System Process) (userId : UserId) : Nat :=
  system.rows.countP fun row => unreadOf userId row.reply && !decide (row.standing = .counted)

/-- The counter is what is counted and what is still to be subtracted, and every
process that has yet to count a row finds it unread. -/
structure Balanced (system : System Process) : Prop where
  count : ∀ userId, system.count userId =
    (system.counted userId : Int) + system.outstanding userId
  pending : ∀ process userId, system.rows.countP (Row.pendingFor process userId) =
    (system.calls process).increments userId

/-- The counter is not negative, and it exceeds the unread rows at most by what
is still to be subtracted: exactly when that is more than the unread rows that
are not counted. -/
structure Accounted (system : System Process) (userId : UserId) : Prop where
  nonneg : 0 ≤ system.count userId
  bounded : system.count userId ≤ system.unread userId + system.outstanding userId
  honest_iff : system.count userId ≤ system.unread userId ↔
    system.outstanding userId ≤ system.uncounted userId

theorem countP_and_not_add {Row : Type} (watched selected : Row → Bool) (rows : List Row) :
    rows.countP (fun row => watched row && !selected row) +
      rows.countP (fun row => watched row && selected row) = rows.countP watched := by
  induction rows with
  | nil => rfl
  | cons row rows ih =>
    simp only [List.countP_cons]
    cases watched row <;> cases selected row <;> simp <;> omega

section Rows

variable {rows : List (Row Process)} {watched : Row Process → Bool}

omit [DecidableEq Process] [Fintype Process]

theorem countP_updated (selected : Row Process → Bool) (change : Row Process → Row Process)
    (changed : ∀ row, watched (change row) = false) (rows : List (Row Process)) :
    (updated selected change rows).countP watched +
      rows.countP (fun row => watched row && selected row) = rows.countP watched := by
  rw [← countP_and_not_add watched selected rows, updated, List.countP_map]
  congr 2
  funext row
  cases selectedEq : selected row <;> simp [selectedEq, changed]

theorem countP_kept (selected : Row Process → Bool) (rows : List (Row Process)) :
    (kept selected rows).countP watched +
      rows.countP (fun row => watched row && selected row) = rows.countP watched := by
  rw [← countP_and_not_add watched selected rows, kept, List.countP_filter]

theorem countP_and_eq_zero {selected : Row Process → Bool}
    (apart : ∀ row ∈ rows, watched row = true → selected row = false) :
    rows.countP (fun row => watched row && selected row) = 0 := by
  apply List.countP_eq_zero.mpr
  intro row member both
  rw [Bool.and_eq_true] at both
  rw [apart row member both.1] at both
  exact Bool.false_ne_true both.2

theorem unread_of_unreadOf {userId : UserId} {reply : ReplyRow}
    (unread : unreadOf userId reply = true) :
    reply.userIdReplied = userId ∧ reply.isRead = false := by
  simpa [unreadOf] using unread

end Rows

section Standing

variable {userId other : UserId} {process : Process} {row : Row Process}

omit [Fintype Process]

theorem countedFor_iff : row.countedFor userId = true ↔
    unreadOf userId row.reply = true ∧ row.standing = .counted := by
  simp [Row.countedFor]

theorem pendingFor_iff : row.pendingFor process userId = true ↔
    unreadOf userId row.reply = true ∧ row.standing = .pending process := by
  simp [Row.pendingFor]

/-- Rows that are read, or counted no more, are not watched. -/
structure Live (watched : Row Process → Bool) : Prop where
  unread : ∀ row, watched row = true → row.reply.isRead = false
  standing : ∀ row, watched row = true → row.standing ≠ .cleared

theorem live_countedFor (userId : UserId) :
    Live (Row.countedFor userId : Row Process → Bool) where
  unread _ watched := (unread_of_unreadOf (countedFor_iff.mp watched).1).2
  standing _ watched := by simp [(countedFor_iff.mp watched).2]

theorem live_pendingFor (process : Process) (userId : UserId) :
    Live (Row.pendingFor process userId) where
  unread _ watched := (unread_of_unreadOf (pendingFor_iff.mp watched).1).2
  standing _ watched := by simp [(pendingFor_iff.mp watched).2]

omit [DecidableEq Process] in
theorem Live.countP_markAsRead {watched : Row Process → Bool} (live : Live watched)
    (selected : ReplyRow → Bool) (rows : List (Row Process)) :
    (markAsRead selected rows).countP watched +
      rows.countP (fun row => watched row && selected row.reply) = rows.countP watched := by
  apply countP_updated
  intro row
  by_contra isWatched
  have unread := live.unread _ (Bool.of_not_eq_false isWatched)
  cases unread

theorem countP_countedFor_settle (process : Process) (userId : UserId)
    (rows : List (Row Process)) :
    (settle process rows).countP (Row.countedFor userId) =
      rows.countP (Row.countedFor userId) +
        rows.countP (Row.pendingFor process userId) := by
  induction rows with
  | nil => rfl
  | cons row rows ih =>
    simp only [settle, updated, List.map_cons, List.countP_cons] at ih ⊢
    rw [ih]
    by_cases pending : row.standing = .pending process
    · simp [pending, Row.countedFor, Row.pendingFor]
      omega
    · simp [pending, Row.countedFor, Row.pendingFor]
      omega

theorem countP_pendingFor_settle (process other : Process) (userId : UserId)
    (rows : List (Row Process)) :
    (settle process rows).countP (Row.pendingFor other userId) =
      if other = process then 0 else rows.countP (Row.pendingFor other userId) := by
  rw [settle, updated, List.countP_map]
  split
  · subst other
    apply List.countP_eq_zero.mpr
    intro row _
    by_cases pending : row.standing = .pending process <;> simp [pending, Row.pendingFor]
  · rename_i apart
    congr 1
    funext row
    by_cases pending : row.standing = .pending process
    · simp [pending, Row.pendingFor, Ne.symm apart]
    · simp [pending]

theorem countP_countedFor_clear (userId other : UserId) (rows : List (Row Process)) :
    (clear userId rows).countP (Row.countedFor other) =
      if userId = other then 0 else rows.countP (Row.countedFor other) := by
  rw [clear, updated, List.countP_map]
  split
  · subst other
    apply List.countP_eq_zero.mpr
    intro row _ watched
    simp only [Function.comp] at watched
    split at watched
    · exact absurd (countedFor_iff.mp watched).2 (by simp)
    · rename_i kept
      obtain ⟨unread, standing⟩ := countedFor_iff.mp watched
      simp [(unread_of_unreadOf unread).1, standing] at kept
  · rename_i apart
    congr 1
    funext row
    simp only [Function.comp]
    split
    · rename_i own
      rw [Bool.and_eq_true, beq_iff_eq] at own
      have notOther : row.reply.userIdReplied ≠ other := own.1 ▸ apart
      simp [Row.countedFor, unreadOf, notOther]
    · rfl

theorem countP_pendingFor_clear (userId : UserId) (process : Process) (other : UserId)
    (rows : List (Row Process)) :
    (clear userId rows).countP (Row.pendingFor process other) =
      rows.countP (Row.pendingFor process other) := by
  rw [clear, updated, List.countP_map]
  congr 1
  funext row
  by_cases counted : row.reply.userIdReplied = userId ∧ row.standing = .counted
  · simp [counted, Row.pendingFor]
  · simp [counted]

omit [DecidableEq Process] in
/-- Marking and deleting rows that are counted no more is not seen. -/
theorem Live.countP_taken {watched : Row Process → Bool} (live : Live watched)
    {selected : ReplyRow → Bool} {rows : List (Row Process)}
    (apart : ∀ row ∈ rows, row.reply.isRead = false → selected row.reply = true →
      row.standing = .cleared) :
    (markAsRead selected rows).countP watched = rows.countP watched ∧
      (kept (fun row => selected row.reply) rows).countP watched = rows.countP watched := by
  have none : rows.countP (fun row => watched row && selected row.reply) = 0 := by
    refine @countP_and_eq_zero _ rows watched (fun row => selected row.reply) ?_
    intro row member isWatched
    by_contra isSelected
    exact live.standing row isWatched (apart row member (live.unread row isWatched)
      (Bool.of_not_eq_false isSelected))
  have marked := live.countP_markAsRead selected rows
  have left := @countP_kept _ watched (fun row => selected row.reply) rows
  omega

end Standing

section Steps

variable {system : System Process} {process : Process} {call : Call}

/-- A process that moves on exchanges its own subtractions. -/
theorem outstanding_goto (system : System Process) (process : Process) (call : Call)
    (userId : UserId) :
    (system.goto process call).outstanding userId +
        (system.calls process).subtractions userId =
      system.outstanding userId + call.subtractions userId := by
  unfold System.outstanding
  have before := Finset.add_sum_erase Finset.univ
    (fun other => (system.calls other).subtractions userId) (Finset.mem_univ process)
  have after := Finset.add_sum_erase Finset.univ
    (fun other => ((system.goto process call).calls other).subtractions userId)
    (Finset.mem_univ process)
  have others : ∀ other ∈ Finset.univ.erase process,
      ((system.goto process call).calls other).subtractions userId =
        (system.calls other).subtractions userId := by
    intro other member
    have apart : other ≠ process := Finset.ne_of_mem_erase member
    simp only [System.goto, Function.update_of_ne apart]
  rw [Finset.sum_congr rfl others] at after
  have own : (system.goto process call).calls process = call := Function.update_self ..
  simp only [own] at after
  omega

/-- A process moves on after a change of the rows and the counters. -/
theorem Balanced.goto
    (count : ∀ userId, system.count userId + (system.calls process).subtractions userId =
      (system.counted userId : Int) + system.outstanding userId + call.subtractions userId)
    (own : ∀ userId, system.rows.countP (Row.pendingFor process userId) =
      call.increments userId)
    (others : ∀ other, other ≠ process → ∀ userId,
      system.rows.countP (Row.pendingFor other userId) =
        (system.calls other).increments userId) :
    Balanced (system.goto process call) where
  count userId := by
    have exchange := outstanding_goto system process call userId
    have before := count userId
    change system.count userId =
      (system.counted userId : Int) + (system.goto process call).outstanding userId
    omega
  pending other userId := by
    simp only [System.goto]
    by_cases same : other = process
    · subst same
      rw [Function.update_self]
      exact own userId
    · rw [Function.update_of_ne same]
      exact others other same userId

theorem Balanced.insert (balanced : Balanced system) (idle : system.calls process = .idle)
    (req : BackendRequestPostNew) (postId : PostId) (userId : UserId) :
    Balanced ({ system with
      rows := system.rows ++ [pendingRow process req postId userId] }.goto process
        (.inserted userId)) := by
  apply Balanced.goto
  · intro other
    have before := balanced.count other
    have added : (system.rows ++ [pendingRow process req postId userId]).countP
        (Row.countedFor other) = system.counted other := by
      simp [List.countP_append, pendingRow, Row.countedFor, System.counted]
    simp only [idle, Call.subtractions, System.counted, added]
    exact (add_zero _).trans (before.trans (add_zero _).symm)
  · intro other
    have none := balanced.pending process other
    rw [List.countP_append, none, idle, List.countP_singleton]
    simp [pendingRow, Row.pendingFor, unreadOf, insertReplyRecord, Call.increments]
  · intro other apart user
    rw [List.countP_append, balanced.pending other user]
    simp [pendingRow, Row.pendingFor, Ne.symm apart]

/-- The row that the process counts is there, and unread. -/
theorem Balanced.increment (balanced : Balanced system) {userId : UserId}
    (inserted : system.calls process = .inserted userId) :
    Balanced ({ system.incrCount userId 1 with
      rows := settle process system.rows }.goto process .idle) := by
  apply Balanced.goto
  · intro other
    have before := balanced.count other
    have pending := balanced.pending process other
    have settled := countP_countedFor_settle process other system.rows
    rw [pending, inserted, Call.increments] at settled
    change Function.update system.count userId (system.count userId + 1) other +
        ((system.calls process).subtractions other : Int) =
      ((settle process system.rows).countP (Row.countedFor other) : Nat) +
        (system.outstanding other : Int) + (0 : Nat)
    rw [settled, inserted]
    unfold System.counted at before
    by_cases same : userId = other
    · subst same
      simp only [Function.update_self, Call.subtractions, if_true]
      push_cast
      omega
    · simp only [Function.update_of_ne (Ne.symm same), Call.subtractions, same, if_false]
      push_cast
      omega
  · intro other
    exact (countP_pendingFor_settle process process other system.rows).trans (if_pos rfl)
  · intro other apart user
    have kept := countP_pendingFor_settle process other user system.rows
    rw [if_neg apart] at kept
    exact kept.trans (balanced.pending other user)

/-- A single mark in order finds counted rows of its user. -/
theorem countP_countedFor_marks {postId : PostId} {userId : UserId}
    (orderly : Orderly system (.markOne process postId userId)) (other : UserId) :
    (if userId = other then
        system.rows.countP fun row => marks postId userId false row.reply
      else 0) =
      system.rows.countP fun row =>
        row.countedFor other && marks postId userId false row.reply := by
  have unread {row : Row Process} (marked : marks postId userId false row.reply = true) :
      unreadOf userId row.reply = true := (Bool.and_eq_true _ _ ▸ marked).1
  split
  · subst other
    apply List.countP_congr
    intro row member
    rw [Bool.and_eq_true]
    exact ⟨fun marked => ⟨countedFor_iff.mpr ⟨unread marked, orderly row member marked⟩,
      marked⟩, And.right⟩
  · rename_i apart
    symm
    apply List.countP_eq_zero.mpr
    intro row _ both
    rw [Bool.and_eq_true] at both
    have own := (unread_of_unreadOf (unread both.2)).1
    have others := (unread_of_unreadOf (countedFor_iff.mp both.1).1).1
    exact apart (own.symm.trans others)

/-- The rows of a single mark move from the counted to the outstanding ones. -/
theorem Balanced.markOne (balanced : Balanced system) (idle : system.calls process = .idle)
    {postId : PostId} {userId : UserId}
    (orderly : Orderly system (.markOne process postId userId)) :
    Balanced ({ system with
      rows := markAsRead (marks postId userId false) system.rows }.goto process
        (if 0 < (system.rows.map Row.reply).countP (marks postId userId false) then
          .marked userId ((system.rows.map Row.reply).countP (marks postId userId false))
        else .idle)) := by
  have subtractions (other : UserId) : Call.subtractions other
      (if 0 < (system.rows.map Row.reply).countP (marks postId userId false) then
        .marked userId ((system.rows.map Row.reply).countP (marks postId userId false))
      else .idle) =
      system.rows.countP fun row =>
        row.countedFor other && marks postId userId false row.reply := by
    rw [List.countP_map, ← countP_countedFor_marks orderly]
    by_cases none : system.rows.countP (fun row => marks postId userId false row.reply) = 0
    · simp [none, Function.comp_def, Call.subtractions]
    · simp [Nat.pos_of_ne_zero none, Function.comp_def, Call.subtractions]
  have noPending (other : Process) (user : UserId) :
      (markAsRead (marks postId userId false) system.rows).countP
          (Row.pendingFor other user) =
        system.rows.countP (Row.pendingFor other user) := by
    have marked := (live_pendingFor other user).countP_markAsRead
      (marks postId userId false) system.rows
    have none : system.rows.countP (fun row => row.pendingFor other user &&
        marks postId userId false row.reply) = 0 := by
      apply countP_and_eq_zero
      intro row member isPending
      by_contra isMarked
      have counted := orderly row member (Bool.of_not_eq_false isMarked)
      rw [(pendingFor_iff.mp isPending).2] at counted
      cases counted
    omega
  apply Balanced.goto
  · intro other
    have before := balanced.count other
    have marked := (live_countedFor other).countP_markAsRead
      (marks postId userId false) system.rows
    rw [subtractions, idle]
    change system.count other + (0 : Nat) =
      ((markAsRead (marks postId userId false) system.rows).countP
        (Row.countedFor other) : Nat) + (system.outstanding other : Int) + _
    unfold System.counted at before
    omega
  · intro other
    rw [noPending, balanced.pending process other, idle]
    split <;> rfl
  · intro other apart user
    exact (noPending other user).trans (balanced.pending other user)

theorem Balanced.decrement (balanced : Balanced system) {userId : UserId} {rows : Nat}
    (marked : system.calls process = .marked userId rows) :
    Balanced ((system.incrCount userId (-rows)).goto process .idle) := by
  apply Balanced.goto
  · intro other
    have before := balanced.count other
    change Function.update system.count userId (system.count userId + -(rows : Int)) other +
        ((system.calls process).subtractions other : Int) =
      (system.counted other : Int) + (system.outstanding other : Int) + (0 : Nat)
    rw [marked]
    by_cases same : userId = other
    · subst same
      simp only [Function.update_self, Call.subtractions, if_true]
      omega
    · simp only [Function.update_of_ne (Ne.symm same), Call.subtractions, same, if_false]
      omega
  · intro other
    exact (balanced.pending process other).trans (by rw [marked]; rfl)
  · intro other _ user
    exact balanced.pending other user

/-- Clearing the counter leaves nothing of the user counted. -/
theorem Balanced.openList (balanced : Balanced system)
    (idle : system.calls process = .idle) {userId : UserId}
    (orderly : system.outstanding userId = 0) (list : RecentList) :
    Balanced ({ system with
      rows := clear userId system.rows
      count := Function.update system.count userId 0 }.goto process
        (.listing userId list)) := by
  apply Balanced.goto
  · intro other
    have before := balanced.count other
    change Function.update system.count userId 0 other +
        ((system.calls process).subtractions other : Int) =
      ((clear userId system.rows).countP (Row.countedFor other) : Nat) +
        (system.outstanding other : Int) + (0 : Nat)
    rw [countP_countedFor_clear, idle]
    unfold System.counted at before
    by_cases same : userId = other
    · subst same
      simp [orderly, Call.subtractions]
    · simp only [Function.update_of_ne (Ne.symm same), Call.subtractions, same, if_false]
      omega
  · intro other
    have none := balanced.pending process other
    rw [idle] at none
    exact (countP_pendingFor_clear userId process other system.rows).trans none
  · intro other _ user
    exact (countP_pendingFor_clear userId other user system.rows).trans
      (balanced.pending other user)

/-- What the list takes was not counted. -/
theorem Balanced.take (balanced : Balanced system) {userId : UserId} {list : RecentList}
    (listing : system.calls process = .listing userId list) {rows : List (Row Process)}
    (same : ∀ watched, Live watched → rows.countP watched = system.rows.countP watched)
    (after : ∀ userId, call.subtractions userId = 0 ∧ call.increments userId = 0) :
    Balanced ({ system with rows := rows }.goto process call) := by
  apply Balanced.goto
  · intro other
    have before := balanced.count other
    change system.count other + ((system.calls process).subtractions other : Int) =
      (rows.countP (Row.countedFor other) : Nat) + (system.outstanding other : Int) +
        call.subtractions other
    rw [same _ (live_countedFor other), listing, (after other).1]
    exact (add_zero _).trans (before.trans (add_zero _).symm)
  · intro other
    have none := balanced.pending process other
    rw [listing] at none
    exact (same _ (live_pendingFor process other)).trans (none.trans (after other).2.symm)
  · intro other _ user
    exact (same _ (live_pendingFor other user)).trans (balanced.pending other user)

theorem Balanced.mark (balanced : Balanced system) {userId : UserId} {list : RecentList}
    (listing : system.calls process = .listing userId list) {selected : ReplyRow → Bool}
    (apart : ∀ row ∈ system.rows, row.reply.isRead = false → selected row.reply = true →
      row.standing = .cleared)
    (after : ∀ userId, call.subtractions userId = 0 ∧ call.increments userId = 0) :
    Balanced ({ system with rows := markAsRead selected system.rows }.goto process call) :=
  balanced.take listing (fun _ live => (live.countP_taken apart).1) after

theorem Balanced.step {next : System Process} {action : Action Process}
    (balanced : Balanced system) (orderly : Orderly system action)
    (stepEq : step system action = some next) : Balanced next := by
  cases action with
  | insert process req postId userId =>
    simp only [ReplyCounts.step] at stepEq
    split at stepEq
    · cases stepEq
      exact balanced.insert ‹_› req postId userId
    · cases stepEq
  | increment process =>
    simp only [ReplyCounts.step] at stepEq
    split at stepEq
    · cases stepEq
      exact balanced.increment ‹_›
    · cases stepEq
  | markOne process postId userId =>
    simp only [ReplyCounts.step] at stepEq
    split at stepEq
    · cases stepEq
      exact balanced.markOne ‹_› orderly
    · cases stepEq
  | decrement process =>
    simp only [ReplyCounts.step] at stepEq
    split at stepEq
    · cases stepEq
      exact balanced.decrement ‹_›
    · cases stepEq
  | openList process userId =>
    simp only [ReplyCounts.step] at stepEq
    split at stepEq
    · cases stepEq
      exact balanced.openList ‹_› orderly _
    · cases stepEq
  | load process lines =>
    simp only [ReplyCounts.step] at stepEq
    split at stepEq
    · cases stepEq
      exact balanced.take ‹_› (fun _ _ => rfl) fun _ => ⟨rfl, rfl⟩
    · cases stepEq
  | delete process index =>
    simp only [ReplyCounts.step] at stepEq
    split at stepEq
    · rename_i userId list listing
      split at stepEq
      · cases stepEq
        exact balanced
      · rename_i postId entry
        cases stepEq
        apply balanced.take listing (fun _ live => (live.countP_taken ?_).2)
          fun _ => ⟨rfl, rfl⟩
        intro row member unread taken
        apply orderly row member unread
        simpa [listTakes, listing, entry] using taken
    · cases stepEq
  | switch process =>
    simp only [ReplyCounts.step] at stepEq
    split at stepEq
    · rename_i userId list listing
      cases stepEq
      simp only [Orderly, listTakes, listing] at orderly
      exact balanced.mark listing orderly fun _ => ⟨rfl, rfl⟩
    · cases stepEq
  | closeList process =>
    simp only [ReplyCounts.step] at stepEq
    split at stepEq
    · rename_i userId list listing
      cases stepEq
      simp only [Orderly, listTakes, listing] at orderly
      exact balanced.mark listing orderly fun _ => ⟨rfl, rfl⟩
    · cases stepEq

theorem Balanced.accounted (balanced : Balanced system) (userId : UserId) :
    Accounted system userId := by
  have count := balanced.count userId
  have unread : system.unread userId = system.counted userId + system.uncounted userId := by
    have parts := countP_and_not_add (fun row : Row Process => unreadOf userId row.reply)
      (fun row => decide (row.standing = .counted)) system.rows
    rw [System.unread, List.countP_map, Nat.add_comm]
    exact parts.symm
  constructor <;> omega

end Steps

/-- No process is inside a call, and the counters are the counted rows. -/
structure Settled (system : System Process) : Prop where
  idle : ∀ process, system.calls process = .idle
  standing : ∀ row ∈ system.rows, ∀ process, row.standing ≠ .pending process
  count : ∀ userId, system.count userId = system.counted userId

theorem Settled.balanced {system : System Process} (settled : Settled system) :
    Balanced system where
  count userId := by
    have none : system.outstanding userId = 0 := by
      apply Finset.sum_eq_zero
      intro process _
      rw [settled.idle process]
      rfl
    rw [settled.count, none]
    exact (add_zero _).symm
  pending process userId := by
    rw [settled.idle process]
    apply List.countP_eq_zero.mpr
    intro row member watched
    exact settled.standing row member process (pendingFor_iff.mp watched).2

/-- In every run whose steps are in order, the counters are never negative, and
never exceed the unread rows but for single marks between their two halves. -/
theorem accounted_of_orderly (actions : List (Action Process))
    {initial final : System Process} (settled : Settled initial)
    (orderly : TransitionRuns.Guarded step Orderly actions initial)
    (runs : TransitionRuns.run step actions initial = some final) (userId : UserId) :
    Accounted final userId := by
  have balanced := TransitionRuns.invariant_of_guarded Balanced
    (fun _ _ _ balanced orderly stepEq => balanced.step orderly stepEq)
    settled.balanced orderly runs
  exact balanced.accounted userId

/-- The backend and two sessions, and no replies yet. -/
def quietSystem : System (Fin 3) where
  rows := []
  count _ := 0
  calls _ := .idle

theorem settled_quietSystem : Settled quietSystem where
  idle _ := rfl
  standing := nofun
  count _ := rfl

/-- A reply to user 8 is inserted, counted and read; the next one is inserted,
counted and seen in the list. -/
def readAndListed : List (Action (Fin 3)) :=
  [.insert 0 restrictedReply 2 8, .increment 0, .markOne 1 2 8, .decrement 1,
    .insert 0 restrictedReply 5 8, .increment 0, .openList 2 8, .load 2 20, .closeList 2]

theorem accounted_readAndListed :
    ∃ final, TransitionRuns.run step readAndListed quietSystem = some final ∧
      Accounted final 8 ∧ final.count 8 = 0 ∧ final.rows.length = 2 := by
  have orderly : TransitionRuns.Guarded step Orderly readAndListed quietSystem := by
    decide
  exact ⟨_, rfl, accounted_of_orderly readAndListed settled_quietSystem orderly rfl 8,
    by decide, rfl⟩

/-- The list of replies is opened, and then the reply is read elsewhere. -/
def readAfterOpening : List (Action (Fin 3)) :=
  [.insert 0 restrictedReply 2 8, .increment 0, .openList 1 8, .markOne 2 2 8,
    .decrement 2]

/-- Reading a reply while the list is open makes the counter negative. -/
theorem counter_negative :
    ¬∀ (initial final : System (Fin 3)) (actions : List (Action (Fin 3))),
      Honest initial → (∀ process, initial.calls process = .idle) →
        TransitionRuns.run step actions initial = some final → Honest final := by
  intro allHonest
  have honest : Honest quietSystem := fun _ => ⟨le_rfl, le_rfl⟩
  have negative := (allHonest quietSystem _ readAfterOpening honest (fun _ => rfl) rfl 8).1
  exact absurd negative (by decide)

end ReplyCounts

end Fbbs
