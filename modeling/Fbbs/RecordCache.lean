import Mathlib.Data.List.Sort
import Fbbs.PostTables
import Fbbs.TransitionRuns
import Fbbs.UserCache

/-!
# The record file of a board

Front ends read the list of a board's posts from a file.  The backend commits
changes to `post.recent` and then adds one to the invalidity of the board; a
front end that finds the invalidity nonzero locks the file, writes it anew and
subtracts the value it found.  The value is read before the lock is taken, so
two front ends can subtract the same value one after the other.
-/

namespace Fbbs

namespace RecordCache

open Post

/-- `sizeof(utf8_title)`: `POST_TITLE_CCHARS * 4 + 1`. -/
def titleSize : Nat := 93

/-- `BOARD_NAME_LEN + 1`. -/
def boardNameSize : Nat := 18

theorem titleSize_pos : 0 < titleSize := Nat.succ_pos _

theorem boardNameSize_pos : 0 < boardNameSize := Nat.succ_pos _

/-- `post_record_t`. -/
structure PostRecord where
  id : PostId
  replyId : PostId
  threadId : PostId
  userId : UserId
  userIdReplied : UserId
  boardId : Int32
  flag : Int32
  userName : CharArray (idLen + 1)
  boardName : CharArray boardNameSize
  utf8Title : CharArray titleSize
  deriving DecidableEq

/-- `string_copy_allow_null`; a null column reads as the empty string. -/
def stringCopyAllowNull (size : Nat) (positive : 0 < size) (value : Option CString) :
    CharArray size :=
  Message.getCharArray size positive (value.getD .empty)

def flagBit (value : Option Bool) (flag : Int32) : Int32 :=
  if value.getD false then flag else 0

def convertPostRecord (row : PostRow) (sticky : Bool) : PostRecord where
  id := row.id
  replyId := row.replyId.getD 0
  threadId := row.threadId.getD 0
  userId := row.userId.getD 0
  userIdReplied := row.userIdReplied.getD 0
  boardId := row.boardId.getD 0
  flag := flagBit row.digest postFlagDigest ||| flagBit row.marked postFlagMarked |||
    flagBit row.locked postFlagLocked ||| flagBit row.imported postFlagImport |||
    flagBit row.water postFlagWater ||| (if sticky then postFlagSticky else 0)
  userName := stringCopyAllowNull (idLen + 1) (by decide) row.userName
  boardName := ⟨.empty, by decide⟩
  utf8Title := stringCopyAllowNull titleSize (by decide) row.title

/-- What `update_record` writes: the rows of the board, sorted by id. -/
def boardRecords (bid : Int32) (recent : List PostRow) : List PostRecord :=
  ((recent.filter fun row => row.boardId == some bid).map
    (convertPostRecord · false)).insertionSort fun left right => left.id ≤ right.id

/-- Where a call of `post_update_record(b, false)` stands. -/
inductive Call
  | idle
  | counted (invalid : Int32)
  | locked (invalid : Int32)
  | written (invalid : Int32)
  | subtracted
  deriving DecidableEq

/-- `post.recent`, the record file and the invalidity of a board; `committed` is
the number of commits that have not been added to the invalidity yet. -/
structure System where
  recent : List PostRow
  file : List PostRecord
  invalidity : Int
  committed : Nat
  calls : Nat → Call
  lock : Option Nat

inductive Action
  | commit (recent : List PostRow)
  | increment
  | get (process : Nat)
  | tryLock (process : Nat)
  | update (process : Nat)
  | decrement (process : Nat)
  | unlock (process : Nat)
  deriving DecidableEq

/-- The next place of a process. -/
def System.goto (system : System) (process : Nat) (call : Call) : System :=
  { system with calls := Function.update system.calls process call }

section Board

variable (bid : Int32)

def postRecordInvalidityChange (delta : Int) (system : System) : System :=
  { system with
    invalidity := if 0 < bid then system.invalidity + delta else system.invalidity }

def step (system : System) : Action → Option System
  | .commit recent =>
    some { system with recent := recent, committed := system.committed + 1 }
  | .increment =>
    match system.committed with
    | 0 => none
    | rest + 1 =>
      some (postRecordInvalidityChange bid 1 { system with committed := rest })
  | .get process =>
    match system.calls process with
    | .idle =>
      -- The function returns an `int`.
      let invalid := Int32.ofInt system.invalidity
      some (system.goto process (if invalid ≠ 0 then .counted invalid else .idle))
    | _ => none
  | .tryLock process =>
    match system.calls process, system.lock with
    | .counted invalid, none =>
      some ({ system with lock := some process }.goto process (.locked invalid))
    | .counted _, some _ => some (system.goto process .idle)
    | _, _ => none
  | .update process =>
    match system.calls process with
    | .locked invalid =>
      some ({ system with file := boardRecords bid system.recent }.goto process
        (.written invalid))
    | _ => none
  | .decrement process =>
    match system.calls process with
    | .written invalid =>
      some ((postRecordInvalidityChange bid (-invalid.toInt) system).goto process
        .subtracted)
    | _ => none
  | .unlock process =>
    match system.calls process with
    | .subtracted => some ({ system with lock := none }.goto process .idle)
    | _ => none

/-- No call and no change is in progress. -/
def Quiet (system : System) : Prop :=
  system.committed = 0 ∧ ∀ process, system.calls process = .idle

/-- The start: the file is what it should be, and the invalidity is zero. -/
structure Initial (system : System) : Prop where
  quiet : Quiet system
  unlocked : system.lock = none
  invalidity : system.invalidity = 0
  file : system.file = boardRecords bid system.recent

/-- The commits that have not been subtracted: those in the invalidity and those
still to be added to it. -/
def System.outstanding (system : System) : Int :=
  system.invalidity + system.committed

/-- A call that is about to write the file has read no more than is outstanding. -/
def Call.Current (outstanding : Int) : Call → Prop
  | .locked invalid => invalid.toInt ≤ outstanding
  | _ => True

instance decidableCurrent (outstanding : Int) :
    (call : Call) → Decidable (call.Current outstanding)
  | .locked invalid => inferInstanceAs (Decidable (invalid.toInt ≤ outstanding))
  | .idle => isTrue trivial
  | .counted _ => isTrue trivial
  | .written _ => isTrue trivial
  | .subtracted => isTrue trivial

/-- Files are written by calls that have read no more than is outstanding. -/
def WritesCurrent (system : System) : Action → Prop
  | .update process => (system.calls process).Current system.outstanding
  | _ => True

instance decidableWritesCurrent (system : System) :
    (action : Action) → Decidable (WritesCurrent system action)
  | .update process => decidableCurrent system.outstanding (system.calls process)
  | .commit _ => isTrue trivial
  | .increment => isTrue trivial
  | .get _ => isTrue trivial
  | .tryLock _ => isTrue trivial
  | .decrement _ => isTrue trivial
  | .unlock _ => isTrue trivial

def Call.holding : Call → Bool
  | .locked _ => true
  | .written _ => true
  | .subtracted => true
  | _ => false

/-- What the holder of the lock still has to subtract for a file it has written. -/
def Call.owed : Call → Int
  | .written invalid => invalid.toInt
  | _ => 0

def System.owed (system : System) : Int :=
  system.lock.elim 0 fun process => (system.calls process).owed

/-- What is going to be subtracted is outstanding, and a file that is not up to
date keeps more than that outstanding. -/
structure Coherent (system : System) : Prop where
  holder : ∀ process, (system.calls process).holding = true ↔ system.lock = some process
  covered : system.owed ≤ system.outstanding
  marked : system.file ≠ boardRecords bid system.recent →
    system.owed < system.outstanding

variable {bid}

theorem Coherent.of_initial {system : System} (initial : Initial bid system) :
    Coherent bid system where
  holder process := by
    rw [initial.quiet.2 process, initial.unlocked]
    exact iff_of_false Bool.false_ne_true (Option.some_ne_none process).symm
  covered := by
    simp [System.owed, System.outstanding, initial.unlocked, initial.invalidity]
  marked different := absurd initial.file different

theorem Coherent.up_to_date {system : System} (coherent : Coherent bid system)
    (quiet : Quiet system) (zero : system.invalidity = 0) :
    system.file = boardRecords bid system.recent := by
  by_contra different
  have marked := coherent.marked different
  have nothingOwed : system.owed = 0 := by
    unfold System.owed
    cases system.lock with
    | none => rfl
    | some process => simp [quiet.2 process, Call.owed]
  rw [nothingOwed, System.outstanding, zero, quiet.1] at marked
  simp at marked

theorem System.owed_of_holder {system : System} {process : Nat}
    (holder : system.lock = some process) :
    system.owed = (system.calls process).owed := by
  simp [System.owed, holder]

theorem Coherent.commit {system : System} (coherent : Coherent bid system)
    (recent : List PostRow) :
    Coherent bid
      { system with recent := recent, committed := system.committed + 1 } := by
  have covered := coherent.covered
  have more : ({ system with
        recent := recent
        committed := system.committed + 1 } : System).outstanding =
      system.outstanding + 1 := by
    simp only [System.outstanding]
    omega
  constructor
  · exact coherent.holder
  · rw [more]
    exact covered.trans (by omega)
  · intro _
    rw [more]
    exact Int.lt_add_one_of_le covered

theorem Coherent.increment {system : System} (coherent : Coherent bid system)
    (positive : 0 < bid) {rest : Nat} (committed : system.committed = rest + 1) :
    Coherent bid
      (postRecordInvalidityChange bid 1 { system with committed := rest }) := by
  have same : (postRecordInvalidityChange bid 1
      { system with committed := rest }).outstanding = system.outstanding := by
    simp only [System.outstanding, postRecordInvalidityChange, positive, if_true,
      committed]
    omega
  constructor
  · exact coherent.holder
  · rw [same]
    exact coherent.covered
  · intro different
    rw [same]
    exact coherent.marked different

@[simp]
theorem System.goto_self (system : System) (process : Nat) (call : Call) :
    (system.goto process call).calls process = call :=
  Function.update_self ..

theorem System.goto_other (system : System) {process other : Nat} (call : Call)
    (apart : other ≠ process) :
    (system.goto process call).calls other = system.calls other :=
  Function.update_of_ne apart ..

/-- A call without the lock goes on without it. -/
theorem Coherent.goto_free {system : System} (coherent : Coherent bid system)
    {process : Nat} {call : Call} (before : (system.calls process).holding = false)
    (after : call.holding = false) : Coherent bid (system.goto process call) := by
  have notHolder : system.lock ≠ some process := by
    intro holder
    rw [(coherent.holder process).mpr holder] at before
    cases before
  have owedEq : (system.goto process call).owed = system.owed := by
    simp only [System.owed, System.goto]
    cases holder : system.lock with
    | none => rfl
    | some other =>
      have apart : other ≠ process := fun same => notHolder (same ▸ holder)
      simp only [Option.elim_some, Function.update_of_ne apart]
  constructor
  · intro other
    by_cases same : other = process
    · subst other
      rw [System.goto_self, after]
      exact iff_of_false Bool.false_ne_true notHolder
    · rw [System.goto_other system call same]
      exact coherent.holder other
  · rw [owedEq]
    exact coherent.covered
  · intro different
    rw [owedEq]
    exact coherent.marked different

/-- The holder goes on; what it did to the file and the invalidity is given. -/
theorem Coherent.goto_holder {system : System} (coherent : Coherent bid system)
    {process : Nat} {call : Call} (holder : system.lock = some process)
    (after : call.holding = true) {file : List PostRecord} {invalidity : Int}
    (covered : call.owed ≤ invalidity + system.committed)
    (marked : file ≠ boardRecords bid system.recent →
      call.owed < invalidity + system.committed) :
    Coherent bid
      ({ system with file := file, invalidity := invalidity }.goto process call) := by
  have holderAfter : ({ system with file := file, invalidity := invalidity }.goto
      process call).lock = some process := holder
  constructor
  · intro other
    by_cases same : other = process
    · subst other
      rw [System.goto_self, after]
      exact iff_of_true rfl holder
    · rw [System.goto_other _ call same]
      exact coherent.holder other
  · rw [System.owed_of_holder holderAfter, System.goto_self]
    exact covered
  · intro different
    rw [System.owed_of_holder holderAfter, System.goto_self]
    exact marked different

theorem Coherent.lock {system : System} (coherent : Coherent bid system)
    {process : Nat} {invalid : Int32} (free : system.lock = none) :
    Coherent bid
      ({ system with lock := some process }.goto process (.locked invalid)) := by
  have noHolder : ∀ other, (system.calls other).holding = false := by
    intro other
    rw [← Bool.not_eq_true, coherent.holder other, free]
    exact (Option.some_ne_none other).symm
  have owedEq : ({ system with lock := some process }.goto process
      (.locked invalid)).owed = system.owed := by
    rw [System.owed_of_holder rfl, System.goto_self, System.owed, free]
    rfl
  constructor
  · intro other
    by_cases same : other = process
    · subst other
      rw [System.goto_self]
      exact iff_of_true rfl rfl
    · rw [System.goto_other _ _ same, noHolder other]
      refine iff_of_false Bool.false_ne_true fun holder => ?_
      exact same (Option.some.inj holder).symm
  · rw [owedEq]
    exact coherent.covered
  · intro different
    rw [owedEq]
    exact coherent.marked different

theorem Coherent.unlock {system : System} (coherent : Coherent bid system)
    {process : Nat} (subtracted : system.calls process = .subtracted) :
    Coherent bid ({ system with lock := none }.goto process .idle) := by
  have holder : system.lock = some process :=
    (coherent.holder process).mp (by rw [subtracted]; rfl)
  have owedEq : ({ system with lock := none }.goto process .idle).owed =
      system.owed := by
    rw [System.owed_of_holder holder, subtracted]
    rfl
  constructor
  · intro other
    by_cases same : other = process
    · subst other
      rw [System.goto_self]
      exact iff_of_false Bool.false_ne_true (Option.some_ne_none process).symm
    · rw [System.goto_other _ _ same, coherent.holder other, holder]
      refine iff_of_false (fun both => ?_) (Option.some_ne_none other).symm
      exact same (Option.some.inj both).symm
  · rw [owedEq]
    exact coherent.covered
  · intro different
    rw [owedEq]
    exact coherent.marked different

/-- Every step keeps the file coherent if files are written on current values. -/
theorem Coherent.step (positive : 0 < bid) {system next : System} {action : Action}
    (coherent : Coherent bid system) (current : WritesCurrent system action)
    (stepEq : step bid system action = some next) : Coherent bid next := by
  cases action with
  | commit recent =>
    cases stepEq
    exact coherent.commit recent
  | increment =>
    cases committed : system.committed with
    | zero => simp [RecordCache.step, committed] at stepEq
    | succ rest =>
      simp only [RecordCache.step, committed, Option.some.injEq] at stepEq
      exact stepEq ▸ coherent.increment positive committed
  | get process =>
    cases call : system.calls process <;>
      simp only [RecordCache.step, call, reduceCtorEq, Option.some.injEq] at stepEq
    subst next
    apply coherent.goto_free
    · rw [call]
      rfl
    · split <;> rfl
  | tryLock process =>
    cases call : system.calls process <;> cases holder : system.lock <;>
      simp only [RecordCache.step, call, holder, reduceCtorEq, Option.some.injEq]
        at stepEq
    · exact stepEq ▸ coherent.lock holder
    · exact stepEq ▸ coherent.goto_free (by rw [call]; rfl) rfl
  | update process =>
    cases call : system.calls process <;>
      simp only [RecordCache.step, call, reduceCtorEq, Option.some.injEq] at stepEq
    case locked invalid =>
      subst next
      have holder := (coherent.holder process).mp (by rw [call]; rfl)
      rw [WritesCurrent, call] at current
      exact coherent.goto_holder holder rfl current (absurd rfl)
  | decrement process =>
    cases call : system.calls process <;>
      simp only [RecordCache.step, call, reduceCtorEq, Option.some.injEq] at stepEq
    case written invalid =>
      subst next
      rw [postRecordInvalidityChange, if_pos positive]
      have holder := (coherent.holder process).mp (by rw [call]; rfl)
      have covered := coherent.covered
      rw [System.owed_of_holder holder, call] at covered
      apply coherent.goto_holder holder rfl
      · simp only [Call.owed, System.outstanding] at covered ⊢
        omega
      · intro different
        have marked := coherent.marked different
        rw [System.owed_of_holder holder, call] at marked
        simp only [Call.owed, System.outstanding] at marked ⊢
        omega
  | unlock process =>
    cases call : system.calls process <;>
      simp only [RecordCache.step, call, reduceCtorEq, Option.some.injEq] at stepEq
    exact stepEq ▸ coherent.unlock call

/-- In every run in which files are written on current values, the file is up to
date whenever nothing is in progress and the invalidity is zero. -/
theorem quiet_file_up_to_date {start final : System} {actions : List Action}
    (positive : 0 < bid) (initial : Initial bid start)
    (runs : TransitionRuns.run (step bid) actions start = some final)
    (current : TransitionRuns.Guarded (step bid) WritesCurrent actions start)
    (quiet : Quiet final) (zero : final.invalidity = 0) :
    final.file = boardRecords bid final.recent := by
  have coherent : Coherent bid final := TransitionRuns.invariant_of_guarded (Coherent bid)
    (fun _ _ _ coherent current stepEq => coherent.step positive current stepEq)
    (Coherent.of_initial initial) current runs
  exact coherent.up_to_date quiet zero

end Board

def sampleRow (id : PostId) : PostRow where
  id := id
  replyId := some id
  threadId := some id
  userId := some 7
  userIdReplied := some 0
  realUserId := some 7
  userName := none
  boardId := some 1
  boardName := none
  digest := some false
  marked := some false
  locked := some false
  imported := some false
  water := some false
  attachment := some false
  sticky := some false
  title := none

def sampleStart : System where
  recent := []
  file := []
  invalidity := 0
  committed := 0
  calls _ := .idle
  lock := none

theorem sampleStart_initial : Initial 1 sampleStart :=
  ⟨⟨rfl, fun _ => rfl⟩, rfl, rfl, rfl⟩

def wholeCall (process : Nat) : List Action :=
  [.tryLock process, .update process, .decrement process, .unlock process]

/-- One change, seen by one call. -/
def oneCall : List Action :=
  [.commit [sampleRow 10], .increment, .get 0] ++ wholeCall 0

theorem quiet_file_up_to_date_oneCall :
    ∃ final, TransitionRuns.run (step 1) oneCall sampleStart = some final ∧
      final.file = boardRecords 1 final.recent := by
  refine ⟨_, rfl, ?_⟩
  have current : TransitionRuns.Guarded (step 1) WritesCurrent oneCall sampleStart := by
    decide
  apply quiet_file_up_to_date (by decide) sampleStart_initial rfl current
  · refine ⟨rfl, fun process => ?_⟩
    simp only [System.goto, postRecordInvalidityChange, Function.update_apply]
    split_ifs <;> rfl
  · rfl

/-- Two calls read the same value and both subtract it; the next change then
brings the invalidity back to zero with the file out of date. -/
def twoCalls : List Action :=
  [.commit [sampleRow 10], .increment, .get 0, .get 1] ++ wholeCall 0 ++ wholeCall 1 ++
    [.commit [sampleRow 20, sampleRow 10], .increment]

theorem stale_file :
    Initial 1 sampleStart ∧
      ∃ final, TransitionRuns.run (step 1) twoCalls sampleStart = some final ∧
        Quiet final ∧ final.invalidity = 0 ∧
        final.file ≠ boardRecords 1 final.recent := by
  refine ⟨sampleStart_initial, _, rfl, ⟨rfl, fun process => ?_⟩, rfl, ?_⟩
  · simp only [System.goto, postRecordInvalidityChange, Function.update_apply]
    split_ifs <;> rfl
  · decide

end RecordCache

end Fbbs
