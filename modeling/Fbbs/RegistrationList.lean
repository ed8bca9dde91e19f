import Mathlib.Data.Fintype.Basic
import Fbbs.TransitionRuns
import Fbbs.UserCache

/-!
# The list of pending registrations

`append_reg_list` opens the list, locks it, reads it to the end to see whether
the user is on it already, writes the new record through the same stream,
unlocks and closes.  The record stays in the buffer of the stream until the
stream is closed, which is after the lock is gone: a process that takes the lock
in between reads the old list, and writes its own record to the same place.

Processes take turns in any order.  Opening the list, taking the lock, reading
a block, giving back the lock and closing the stream are steps of their own;
what a process does in its own memory belongs to the step before or after.
-/

namespace Fbbs

namespace Register

open AsciiBytes TransitionRuns

/-- `sizeof(reginfo_t)`: seven arrays of characters, padding, and a `time_t`. -/
def reginfoSize : Nat := (idLen + 1 + 40 + 80 + 80 + 80 + 68 + 80) + 7 + 8

/-- The block that a stream reads at a time. -/
def bufferSize : Nat := 4096

/-- A `reginfo_t` as it is in memory and in the file. -/
structure Reginfo where
  bytes : Bytes
  length_eq : bytes.length = reginfoSize
  deriving DecidableEq

/-- `userid` is the first field. -/
def Reginfo.userid (reg : Reginfo) : CString :=
  .ofBytes reg.bytes

/-- A stream of the list: the offset of its descriptor, the bytes read from the
file that `fread` has not returned yet, and those written that are not in the
file yet. -/
structure Stream where
  offset : Nat
  ahead : Bytes
  pending : Bytes
  deriving DecidableEq

def Stream.fopen : Stream := ⟨0, [], []⟩

def Stream.fwrite (stream : Stream) (bytes : Bytes) : Stream :=
  { stream with pending := stream.pending ++ bytes }

/-- The contents of the file after `fclose`. -/
def Stream.fclose (stream : Stream) (contents : Bytes) : Bytes :=
  if stream.pending = [] then
    contents
  else
    contents.take stream.offset ++
      List.replicate (stream.offset - contents.length) 0 ++ stream.pending ++
      contents.drop (stream.offset + stream.pending.length)

/-- What a process does. -/
inductive Call
  | appendRegList (reg : Reginfo)
  | isRegPending (userid : CString)
  deriving DecidableEq

def Call.userid : Call → CString
  | .appendRegList reg => reg.userid
  | .isRegPending userid => userid

/-- Where a call stands. -/
inductive Place
  | start
  | opened
  | scanning (stream : Stream)
  | scanned (found : Bool) (stream : Stream)
  | unlocked (found : Bool) (stream : Stream)
  | returned (ret : Int)
  deriving DecidableEq

/-- One round of the loop over the records, or the reading of a block for it.
At the end of the file `fread` drops what is less than a record. -/
def scan (userid : CString) (contents : Bytes) (stream : Stream) : Place :=
  if reginfoSize ≤ stream.ahead.length then
    let tmp := stream.ahead.take reginfoSize
    let next := { stream with ahead := stream.ahead.drop reginfoSize }
    if strcasecmp userid.bytes (CString.ofBytes tmp).bytes == 0 then .scanned true next else .scanning next
  else
    let block := (contents.drop stream.offset).take bufferSize
    if block = [] then
      .scanned false { stream with ahead := [] }
    else
      .scanning { stream with
        offset := stream.offset + block.length
        ahead := stream.ahead ++ block }

/-- The list, its lock, and the calls of the processes. -/
structure System (Process : Type) where
  file : Option Bytes
  lock : Option Process
  places : Process → Place

section Processes

variable {Process : Type} [DecidableEq Process]

/-- The next place of a process. -/
def System.goto (system : System Process) (process : Process) (place : Place) :
    System Process :=
  { system with places := Function.update system.places process place }

/-- No call has begun. -/
def System.initial (file : Option Bytes) : System Process :=
  ⟨file, none, fun _ => .start⟩

variable (calls : Process → Call)

/-- The next step of a process; there is none for a process that waits for the
lock or has returned. -/
def step (system : System Process) (process : Process) : Option (System Process) :=
  match system.places process, calls process with
  | .start, .appendRegList _ =>
    some (system.goto process (if system.file.isSome then .opened else .returned (-1)))
  | .start, .isRegPending _ =>
    some (system.goto process
      (if system.file.isSome then .scanning .fopen else .returned 0))
  | .opened, .appendRegList _ =>
    match system.lock with
    | none =>
      some ({ system with lock := some process }.goto process (.scanning .fopen))
    | some _ => none
  | .scanning stream, call =>
    some (system.goto process (scan call.userid (system.file.getD []) stream))
  | .scanned found stream, .appendRegList reg =>
    -- `fwrite` only fills the buffer of the stream.
    let stream := if found then stream else stream.fwrite reg.bytes
    some ({ system with lock := none }.goto process (.unlocked found stream))
  | .scanned found _, .isRegPending _ =>
    some (system.goto process (.returned (if found then 1 else 0)))
  | .unlocked found stream, .appendRegList _ =>
    some ({ system with file := system.file.map stream.fclose }.goto process
      (.returned (0 - if found then 1 else 0)))
  | _, _ => none

/-- A record has been written that is not in the file, and the lock is gone. -/
def Place.unflushed : Place → Bool
  | .unlocked found _ => !found
  | _ => false

/-- Locks are taken when every record written before is in the file. -/
def LocksFlushed (system : System Process) (process : Process) : Prop :=
  system.places process = .opened →
    ∀ other, (system.places other).unflushed = false

instance decidableLocksFlushed [Fintype Process] (system : System Process)
    (process : Process) : Decidable (LocksFlushed system process) :=
  inferInstanceAs (Decidable (_ → _))

/-- The bytes of a list of records. -/
def encode (records : List Reginfo) : Bytes :=
  records.flatMap Reginfo.bytes

/-- The record is for the user. -/
def Reginfo.isFor (userid : CString) (record : Reginfo) : Bool :=
  strcasecmp userid.bytes record.userid.bytes == 0

/-- The list, if there is one, consists of whole records, and has exactly one
for every call that has returned zero: the record that the call was to append. -/
def NoneLost (system : System Process) : Prop :=
  ∃ records : Option (List Reginfo), system.file = records.map encode ∧
    ∀ process reg, calls process = .appendRegList reg →
      system.places process = .returned 0 →
        ∃ list ∈ records, list.filter (Reginfo.isFor reg.userid) = [reg]

/-- Some record is for the user. -/
def Listed (records : List Reginfo) (userid : CString) : Prop :=
  ∃ record ∈ records, record.isFor userid = true

/-- A stream that has returned the records of the front of the list, none of
which is for the user, and has read ahead into those of the back. -/
def Reached (records : List Reginfo) (userid : CString) (stream : Stream) : Prop :=
  ∃ front back rest, records = front ++ back ∧
    encode back = stream.ahead ++ rest ∧
    stream.offset = (encode front).length + stream.ahead.length ∧
    ¬Listed front userid ∧ stream.pending = []

/-- A stream that is about to write at the end of the list. -/
def AtEnd (records : List Reginfo) (userid : CString) (stream : Stream) : Prop :=
  stream.offset = (encode records).length ∧ ¬Listed records userid

/-- What a call knows of the list. -/
def Agrees (records : List Reginfo) : Call → Place → Prop
  | call, .scanning stream => Reached records call.userid stream
  | call, .scanned true stream => Listed records call.userid ∧ stream.pending = []
  | .appendRegList reg, .scanned false stream =>
    AtEnd records reg.userid stream ∧ stream.pending = []
  | .appendRegList reg, .unlocked true stream =>
    Listed records reg.userid ∧ stream.pending = []
  | .appendRegList reg, .unlocked false stream =>
    AtEnd records reg.userid stream ∧ stream.pending = reg.bytes
  | .appendRegList reg, .returned ret =>
    (ret = 0 ∧ records.filter (Reginfo.isFor reg.userid) = [reg]) ∨
      (ret = -1 ∧ Listed records reg.userid)
  | .isRegPending userid, .returned ret => ret = 1 → Listed records userid
  -- `is_reg_pending` does not lock the list.
  | .isRegPending _, .opened => False
  | .isRegPending _, .unlocked _ _ => False
  | _, _ => True

def Call.holding : Call → Place → Bool
  | .appendRegList _, .scanning _ => true
  | .appendRegList _, .scanned _ _ => true
  | _, _ => false

/-- The call holds the lock, or has given it back with its record unflushed. -/
def Call.busy (call : Call) (place : Place) : Bool :=
  call.holding place || place.unflushed

/-- The list is the one at the start and the records of calls that have returned
zero; one call at a time is busy with it. -/
structure Orderly (first records : List Reginfo) (system : System Process) : Prop where
  file : system.file = some (encode records)
  holder : ∀ process, (calls process).holding (system.places process) = true ↔
    system.lock = some process
  alone : ∀ process other, (calls process).busy (system.places process) = true →
    (calls other).busy (system.places other) = true → process = other
  agrees : ∀ process, Agrees records (calls process) (system.places process)
  added : ∃ added, records = first ++ added ∧
    ∀ reg ∈ added, ∃ process, calls process = .appendRegList reg ∧
      system.places process = .returned 0

/-- Without a file, calls of `append_reg_list` return an error. -/
structure Missing (system : System Process) : Prop where
  file : system.file = none
  places : ∀ process, system.places process = .start ∨
    ∃ ret, system.places process = .returned ret ∧
      ∀ reg, calls process = .appendRegList reg → ret = -1

section Streams

variable {records : List Reginfo} {userid : CString} {stream : Stream} {reg : Reginfo}

theorem encode_append (front back : List Reginfo) :
    encode (front ++ back) = encode front ++ encode back :=
  List.flatMap_append

theorem encode_singleton (reg : Reginfo) : encode [reg] = reg.bytes :=
  List.flatMap_singleton Reginfo.bytes reg

theorem encode_cons (reg : Reginfo) (back : List Reginfo) :
    encode (reg :: back) = reg.bytes ++ encode back :=
  List.flatMap_cons

theorem Listed.append {more : List Reginfo} (listed : Listed records userid) :
    Listed (records ++ more) userid := by
  obtain ⟨record, member, isFor⟩ := listed
  exact ⟨record, List.mem_append_left more member, isFor⟩

theorem not_listed_append_singleton (absent : ¬Listed records userid)
    (different : reg.isFor userid = false) : ¬Listed (records ++ [reg]) userid := by
  rintro ⟨record, member, isFor⟩
  rcases List.mem_append.mp member with before | here
  · exact absent ⟨record, before, isFor⟩
  · rw [List.mem_singleton.mp here, different] at isFor
    contradiction

/-- Bytes that are less than a record are of no record. -/
theorem eq_nil_of_encode_short (short : (encode records).length < reginfoSize) :
    records = [] := by
  cases records with
  | nil => rfl
  | cons reg back =>
    rw [encode_cons, List.length_append, reg.length_eq] at short
    omega

/-- A file has one reading as a list of records. -/
theorem encode_injective {left right : List Reginfo} (same : encode left = encode right) :
    left = right := by
  induction left generalizing right with
  | nil =>
    rw [encode, List.flatMap_nil] at same
    exact (eq_nil_of_encode_short (by rw [← same]; decide)).symm
  | cons reg left ih =>
    cases right with
    | nil => exact eq_nil_of_encode_short (by rw [same]; decide)
    | cons other right =>
      rw [encode_cons, encode_cons] at same
      obtain ⟨bytes, rest⟩ :=
        List.append_inj same (reg.length_eq.trans other.length_eq.symm)
      rw [ih rest]
      cases reg
      cases other
      cases bytes
      rfl

theorem Reached.fopen (records : List Reginfo) (userid : CString) :
    Reached records userid .fopen := by
  have none : ¬Listed [] userid := by
    rintro ⟨record, member, -⟩
    exact List.not_mem_nil member
  exact ⟨[], records, encode records, rfl, rfl, rfl, none, rfl⟩

/-- Records appended at the end do not disturb a stream that is reading. -/
theorem Reached.append {more : List Reginfo} (reached : Reached records userid stream) :
    Reached (records ++ more) userid stream := by
  obtain ⟨front, back, rest, split, ahead, offset, absent, pending⟩ := reached
  refine ⟨front, back ++ more, rest ++ encode more, ?_, ?_, offset, absent, pending⟩
  · rw [split, List.append_assoc]
  · rw [encode_append, ahead, List.append_assoc]

/-- The next record is the first of the back of the list. -/
theorem Reached.record (reached : Reached records userid stream)
    (enough : reginfoSize ≤ stream.ahead.length) :
    ∃ record ∈ records, record.bytes = stream.ahead.take reginfoSize ∧
      (record.isFor userid = false →
        Reached records userid
          { stream with ahead := stream.ahead.drop reginfoSize }) := by
  obtain ⟨front, back, rest, split, ahead, offset, absent, pending⟩ := reached
  cases back with
  | nil =>
    have lengths := congrArg List.length ahead
    rw [encode, List.flatMap_nil, List.length_append] at lengths
    have positive : 0 < reginfoSize := by decide
    simp only [List.length_nil] at lengths
    omega
  | cons record back =>
    have parts : record.bytes ++ encode back =
        stream.ahead.take reginfoSize ++
          (stream.ahead.drop reginfoSize ++ rest) := by
      rw [← encode_cons, ahead, ← List.append_assoc, List.take_append_drop]
    have same : record.bytes.length = (stream.ahead.take reginfoSize).length := by
      rw [record.length_eq, List.length_take, Nat.min_eq_left enough]
    obtain ⟨taken, left⟩ := List.append_inj parts same
    refine ⟨record, by simp [split], taken, fun different => ?_⟩
    refine ⟨front ++ [record], back, rest, by simp [split], left, ?_,
      not_listed_append_singleton absent different, pending⟩
    rw [encode_append, encode_singleton, List.length_append, record.length_eq,
      List.length_drop]
    simp only at offset ⊢
    omega

/-- What is left to read begins at the offset of the descriptor. -/
theorem Reached.drop_offset (reached : Reached records userid stream) :
    ∃ front back, records = front ++ back ∧
      encode back = stream.ahead ++ (encode records).drop stream.offset ∧
      stream.offset = (encode front).length + stream.ahead.length ∧
      ¬Listed front userid ∧ stream.pending = [] := by
  obtain ⟨front, back, rest, split, ahead, offset, absent, pending⟩ := reached
  refine ⟨front, back, split, ?_, offset, absent, pending⟩
  have whole : encode records = encode front ++ stream.ahead ++ rest := by
    rw [split, encode_append, ahead, List.append_assoc]
  have length : stream.offset = (encode front ++ stream.ahead).length := by
    rw [List.length_append, offset]
  rw [whole, length, List.drop_left, ahead]

theorem Reached.block (reached : Reached records userid stream) :
    Reached records userid
      { stream with
        offset := stream.offset +
          (((encode records).drop stream.offset).take bufferSize).length
        ahead := stream.ahead ++
          ((encode records).drop stream.offset).take bufferSize } := by
  obtain ⟨front, back, split, ahead, offset, absent, pending⟩ := reached.drop_offset
  refine ⟨front, back, ((encode records).drop stream.offset).drop bufferSize, split,
    ?_, ?_, absent, pending⟩
  · rw [List.append_assoc, List.take_append_drop, ahead]
  · simp only [List.length_append]
    omega

/-- At the end of the file there is no part of a record left over. -/
theorem Reached.atEnd (reached : Reached records userid stream)
    (short : ¬reginfoSize ≤ stream.ahead.length)
    (empty : ((encode records).drop stream.offset).take bufferSize = []) :
    AtEnd records userid { stream with ahead := [] } ∧ stream.pending = [] := by
  obtain ⟨front, back, split, ahead, offset, absent, pending⟩ := reached.drop_offset
  have ended : (encode records).drop stream.offset = [] := by
    rcases List.take_eq_nil_iff.mp empty with zero | ended
    · exact absurd zero (by decide)
    · exact ended
  rw [ended, List.append_nil] at ahead
  have noBack : back = [] := eq_nil_of_encode_short (by rw [ahead]; omega)
  rw [noBack] at ahead split
  rw [List.append_nil] at split
  refine ⟨⟨?_, split ▸ absent⟩, pending⟩
  have nothing : stream.ahead.length = 0 := by
    rw [← ahead]
    rfl
  rw [split]
  simp only
  omega

theorem scan_agrees {call : Call} (reached : Reached records call.userid stream) :
    Agrees records call (scan call.userid (encode records) stream) := by
  unfold scan
  split
  next enough =>
    obtain ⟨record, member, bytes, next⟩ := reached.record enough
    have userid : CString.ofBytes (stream.ahead.take reginfoSize) = record.userid := by
      rw [Reginfo.userid, bytes]
    obtain ⟨-, -, -, -, -, -, -, pending⟩ := reached
    simp only [userid]
    split
    next same => exact ⟨⟨record, member, same⟩, pending⟩
    next different => exact next (Bool.eq_false_iff.mpr different)
  next short =>
    simp only
    split
    next empty =>
      cases call with
      | appendRegList reg => exact reached.atEnd short empty
      | isRegPending userid => trivial
    next more => exact reached.block

theorem scan_busy (call : Call) (userid : CString) (contents : Bytes) (stream : Stream) :
    call.holding (scan userid contents stream) = call.holding (.scanning stream) ∧
      (scan userid contents stream).unflushed = false := by
  unfold scan
  split
  · simp only
    split <;> cases call <;> exact ⟨rfl, rfl⟩
  · simp only
    split <;> cases call <;> exact ⟨rfl, rfl⟩

theorem AtEnd.fclose (atEnd : AtEnd records userid stream)
    (pending : stream.pending = reg.bytes) :
    stream.fclose (encode records) = encode (records ++ [reg]) := by
  have positive : 0 < reginfoSize := by decide
  have nonempty : reg.bytes ≠ [] := by
    intro empty
    have length := reg.length_eq
    rw [empty, List.length_nil] at length
    omega
  rw [Stream.fclose, pending, if_neg nonempty, atEnd.1, List.take_length, Nat.sub_self,
    List.replicate_zero, List.append_nil, List.drop_eq_nil_of_le (by omega),
    List.append_nil, encode_append, encode_singleton]

/-- The record of another user changes nothing for a call that is not busy. -/
theorem Agrees.append {call : Call} {place : Place} (agrees : Agrees records call place)
    (idle : call.busy place = false) (absent : ¬Listed records reg.userid) :
    Agrees (records ++ [reg]) call place := by
  cases place with
  | start => cases call <;> trivial
  | opened => cases call <;> exact agrees
  | scanning stream => cases call <;> exact Reached.append agrees
  | scanned found stream =>
    cases call with
    | appendRegList other => cases idle
    | isRegPending userid =>
      cases found with
      | false => trivial
      | true => exact ⟨agrees.1.append, agrees.2⟩
  | unlocked found stream =>
    cases call with
    | isRegPending userid => cases found <;> exact agrees
    | appendRegList other =>
      cases found with
      | false => cases idle
      | true => exact ⟨agrees.1.append, agrees.2⟩
  | returned ret =>
    cases call with
    | isRegPending userid => exact fun one => (agrees one).append
    | appendRegList other =>
      rcases agrees with ⟨zero, only⟩ | ⟨minus, listed⟩
      · have member : other ∈ records :=
          List.mem_of_mem_filter (only ▸ List.mem_singleton_self other)
        have different : reg.isFor other.userid = false := by
          rw [Reginfo.isFor, beq_eq_false_iff_ne, strcasecmp_comm, Ne, Int.neg_eq_zero]
          exact fun same => absent ⟨other, member, beq_iff_eq.mpr same⟩
        refine .inl ⟨zero, ?_⟩
        simp [List.filter_append, only, different]
      · exact .inr ⟨minus, listed.append⟩

/-- A call that has closed its stream finds its record in the list, once. -/
theorem filter_append_self (absent : ¬Listed records reg.userid) :
    (records ++ [reg]).filter (Reginfo.isFor reg.userid) = [reg] := by
  have before : records.filter (Reginfo.isFor reg.userid) = [] := by
    rw [List.filter_eq_nil_iff]
    exact fun record member isFor => absent ⟨record, member, isFor⟩
  have own : reg.isFor reg.userid = true := beq_iff_eq.mpr (strcasecmp_self reg.userid.bytes)
  simp [List.filter_append, before, own]

end Streams

section Steps

variable {calls} {first records : List Reginfo} {system next : System Process}
  {process : Process} {place : Place}

omit [DecidableEq Process] in
theorem Orderly.of_initial (first : List Reginfo) :
    Orderly calls first first (System.initial (some (encode first))) where
  file := rfl
  holder process := by
    cases calls process <;> exact iff_of_false Bool.false_ne_true (Option.some_ne_none _).symm
  alone process _ busy := by
    cases call : calls process <;> rw [call] at busy <;> cases busy
  agrees process := by
    cases calls process <;> trivial
  added := ⟨[], (List.append_nil first).symm, by simp⟩

omit [DecidableEq Process] in
theorem Orderly.idle_of_busy (orderly : Orderly calls first records system)
    (busy : (calls process).busy (system.places process) = true) {other : Process}
    (different : other ≠ process) : (calls other).busy (system.places other) = false := by
  by_contra also
  exact different (orderly.alone other process (Bool.not_eq_false _ ▸ also) busy)

/-- A process goes to another place, and may append its record on the way. -/
theorem Orderly.change (orderly : Orderly calls first records system)
    {more : List Reginfo} {file : Option Bytes} {lock : Option Process}
    (fileEq : file = some (encode (records ++ more)))
    (appended : ∀ reg ∈ more, calls process = .appendRegList reg ∧ place = .returned 0)
    (unreturned : system.places process ≠ .returned 0)
    (agrees : Agrees (records ++ more) (calls process) place)
    (others : ∀ other, other ≠ process →
      Agrees (records ++ more) (calls other) (system.places other))
    (holder : (calls process).holding place = true ↔ lock = some process)
    (locks : ∀ other, other ≠ process → (system.lock = some other ↔ lock = some other))
    (alone : (calls process).busy place = true →
      ∀ other, other ≠ process → (calls other).busy (system.places other) = false) :
    Orderly calls first (records ++ more)
      ((⟨file, lock, system.places⟩ : System Process).goto process place) where
  file := fileEq
  holder other := by
    by_cases here : other = process
    · subst other
      simpa [System.goto] using holder
    · simp only [System.goto, Function.update_of_ne here]
      exact (orderly.holder other).trans (locks other here)
  alone left right leftBusy rightBusy := by
    by_contra different
    by_cases leftHere : left = process
    · subst left
      simp only [System.goto, Function.update_self] at leftBusy
      have idle := alone leftBusy right (Ne.symm different)
      simp [System.goto, Function.update_of_ne (Ne.symm different), idle] at rightBusy
    · simp only [System.goto, Function.update_of_ne leftHere] at leftBusy
      by_cases rightHere : right = process
      · subst right
        simp only [System.goto, Function.update_self] at rightBusy
        simp [alone rightBusy left different] at leftBusy
      · simp only [System.goto, Function.update_of_ne rightHere] at rightBusy
        exact different (orderly.alone left right leftBusy rightBusy)
  agrees other := by
    by_cases here : other = process
    · subst other
      simpa [System.goto] using agrees
    · simpa [System.goto, Function.update_of_ne here] using others other here
  added := by
    obtain ⟨added, split, all⟩ := orderly.added
    refine ⟨added ++ more, by rw [split, List.append_assoc], fun reg member => ?_⟩
    rcases List.mem_append.mp member with before | own
    · obtain ⟨other, call, zero⟩ := all reg before
      have different : other ≠ process := fun same => unreturned (same ▸ zero)
      exact ⟨other, call, by simp [System.goto, Function.update_of_ne different, zero]⟩
    · obtain ⟨call, zero⟩ := appended reg own
      exact ⟨process, call, by simp [System.goto, zero]⟩

/-- A process goes to another place and the file stays as it is. -/
theorem Orderly.goto (orderly : Orderly calls first records system)
    {lock : Option Process}
    (unreturned : system.places process ≠ .returned 0)
    (agrees : Agrees records (calls process) place)
    (holder : (calls process).holding place = true ↔ lock = some process)
    (locks : ∀ other, other ≠ process → (system.lock = some other ↔ lock = some other))
    (alone : (calls process).busy place = true →
      ∀ other, other ≠ process → (calls other).busy (system.places other) = false) :
    Orderly calls first records ({ system with lock := lock }.goto process place) := by
  rw [← List.append_nil records] at agrees ⊢
  refine orderly.change ?_ (by simp) unreturned agrees (fun other _ => ?_) holder locks alone
  · rw [List.append_nil]
    exact orderly.file
  · rw [List.append_nil]
    exact orderly.agrees other

/-- A process goes to another place, with the lock if it had it. -/
theorem Orderly.goto_same (orderly : Orderly calls first records system)
    (unreturned : system.places process ≠ .returned 0)
    (agrees : Agrees records (calls process) place)
    (holding : (calls process).holding place =
      (calls process).holding (system.places process))
    (unflushed : place.unflushed = false) :
    Orderly calls first records (system.goto process place) := by
  refine orderly.goto unreturned agrees ?_ (fun _ _ => Iff.rfl) ?_
  · rw [holding]
    exact orderly.holder process
  · intro busy other different
    rw [Call.busy, unflushed, Bool.or_false, holding] at busy
    apply orderly.idle_of_busy _ different
    rw [Call.busy, busy, Bool.true_or]

/-- A stream with a record in its buffer is closed: the record goes to the end of
the list, since nobody else has written since the stream came to the end. -/
theorem Orderly.flush (orderly : Orderly calls first records system) {reg : Reginfo}
    {stream : Stream} (call : calls process = .appendRegList reg)
    (here : system.places process = .unlocked false stream) :
    Orderly calls first (records ++ [reg])
      ({ system with file := system.file.map stream.fclose }.goto process (.returned 0)) := by
  have agrees := orderly.agrees process
  rw [call, here] at agrees
  obtain ⟨atEnd, pending⟩ := agrees
  have busy : (calls process).busy (system.places process) = true := by
    rw [call, here]
    rfl
  have idle : ∀ other, other ≠ process →
      (calls other).busy (system.places other) = false :=
    fun other different => orderly.idle_of_busy busy different
  have unlocked : (calls process).holding (.returned 0) =
      (calls process).holding (system.places process) := by
    rw [call, here]
    rfl
  apply orderly.change
  · rw [orderly.file, Option.map_some, atEnd.fclose pending]
  · intro written member
    rw [List.mem_singleton.mp member]
    exact ⟨call, rfl⟩
  · simp [here]
  · rw [call]
    exact .inl ⟨rfl, filter_append_self atEnd.2⟩
  · exact fun other different => (orderly.agrees other).append (idle other different) atEnd.2
  · rw [unlocked]
    exact orderly.holder process
  · exact fun _ _ => Iff.rfl
  · exact fun _ => idle

/-- A stream with nothing in its buffer is closed. -/
theorem fclose_of_pending_nil {stream : Stream} (pending : stream.pending = [])
    (file : Option Bytes) : file.map stream.fclose = file := by
  have same : stream.fclose = id := by
    funext contents
    rw [Stream.fclose, if_pos pending, id_eq]
  rw [same, Option.map_id_fun, id_eq]

theorem Orderly.lock (orderly : Orderly calls first records system) {reg : Reginfo}
    (call : calls process = .appendRegList reg) (here : system.places process = .opened)
    (free : system.lock = none) (flushed : LocksFlushed system process) :
    Orderly calls first records
      ({ system with lock := some process }.goto process (.scanning .fopen)) := by
  -- Nobody holds the lock, and every record written before is in the file.
  have idle : ∀ other, (calls other).busy (system.places other) = false := by
    intro other
    rw [Call.busy, flushed here other, Bool.or_false, ← Bool.not_eq_true,
      orderly.holder other, free]
    exact (Option.some_ne_none other).symm
  refine orderly.goto (by simp [here]) (Reached.fopen records _) ?_ ?_
    (fun _ other _ => idle other)
  · rw [call]
    exact iff_of_true rfl rfl
  · intro other different
    rw [free]
    exact iff_of_false (Option.some_ne_none other).symm
      (fun same => different (Option.some.inj same).symm)

theorem Orderly.scan (orderly : Orderly calls first records system) {stream : Stream}
    (here : system.places process = .scanning stream) :
    Orderly calls first records (system.goto process
      (scan (calls process).userid (encode records) stream)) := by
  have agrees := orderly.agrees process
  rw [here] at agrees
  have reached : Reached records (calls process).userid stream := by
    cases call : calls process <;> rw [call] at agrees <;> exact agrees
  obtain ⟨holding, kept⟩ :=
    scan_busy (calls process) (calls process).userid (encode records) stream
  apply orderly.goto_same (by simp [here]) (scan_agrees reached) _ kept
  rw [here, holding]

/-- The lock is given back; a record that is to be written is in the buffer. -/
theorem Orderly.unlock (orderly : Orderly calls first records system) {reg : Reginfo}
    {found : Bool} {stream : Stream} (call : calls process = .appendRegList reg)
    (here : system.places process = .scanned found stream) :
    Orderly calls first records ({ system with lock := none }.goto process
      (.unlocked found (if found then stream else stream.fwrite reg.bytes))) := by
  have agrees := orderly.agrees process
  rw [here, call] at agrees
  have busy : (calls process).busy (system.places process) = true := by
    rw [call, here]
    rfl
  have held : system.lock = some process := by
    rw [← orderly.holder process, call, here]
    rfl
  apply orderly.goto (by simp [here]) _ _ _
    (fun _ other different => orderly.idle_of_busy busy different)
  · rw [call]
    cases found with
    | false => exact ⟨agrees.1, by simp [Stream.fwrite, agrees.2]⟩
    | true => exact agrees
  · rw [call]
    exact iff_of_false Bool.false_ne_true (Option.some_ne_none process).symm
  · intro other different
    rw [held]
    exact iff_of_false (fun same => different (Option.some.inj same).symm)
      (Option.some_ne_none other).symm

/-- One step, taken by any process, keeps the list in order. -/
theorem Orderly.step (orderly : Orderly calls first records system)
    (flushed : LocksFlushed system process)
    (stepEq : step calls system process = some next) :
    ∃ after, Orderly calls first after next := by
  have agrees := orderly.agrees process
  -- The places of the process, in the order in which it comes to them.
  cases here : system.places process with
  | start =>
    have present : system.file.isSome = true := by simp [orderly.file]
    refine ⟨records, ?_⟩
    cases call : calls process with
    | appendRegList reg =>
      simp only [Register.step, here, call, present, if_true, Option.some.injEq] at stepEq
      rw [← stepEq]
      apply orderly.goto_same (by simp [here])
      · simp [call, Agrees]
      · simp [here, call, Call.holding]
      · rfl
    | isRegPending userid =>
      simp only [Register.step, here, call, present, if_true, Option.some.injEq] at stepEq
      rw [← stepEq]
      refine orderly.goto_same (by simp [here]) (Reached.fopen records _) ?_ rfl
      simp [here, call, Call.holding]
  | opened =>
    cases call : calls process with
    | isRegPending userid => simp [Register.step, here, call] at stepEq
    | appendRegList reg =>
      cases free : system.lock with
      | some owner => simp [Register.step, here, call, free] at stepEq
      | none =>
        simp only [Register.step, here, call, free, Option.some.injEq] at stepEq
        exact ⟨records, stepEq ▸ orderly.lock call here free flushed⟩
  | scanning stream =>
    simp only [Register.step, here, orderly.file, Option.getD_some,
      Option.some.injEq] at stepEq
    exact ⟨records, stepEq ▸ orderly.scan here⟩
  | scanned found stream =>
    cases call : calls process with
    | isRegPending userid =>
      rw [here, call] at agrees
      simp only [Register.step, here, call, Option.some.injEq] at stepEq
      refine ⟨records, stepEq ▸ orderly.goto_same (by simp [here]) ?_ ?_ rfl⟩
      · rw [call]
        cases found with
        | false => exact fun one => by cases one
        | true => exact fun _ => agrees.1
      · rw [here, call]
        rfl
    | appendRegList reg =>
      simp only [Register.step, here, call, Option.some.injEq] at stepEq
      exact ⟨records, stepEq ▸ orderly.unlock call here⟩
  | unlocked found stream =>
    cases call : calls process with
    | isRegPending userid => simp [Register.step, here, call] at stepEq
    | appendRegList reg =>
      rw [here, call] at agrees
      simp only [Register.step, here, call, Option.some.injEq] at stepEq
      cases found with
      | false => exact ⟨records ++ [reg], stepEq ▸ orderly.flush call here⟩
      | true =>
        rw [fclose_of_pending_nil agrees.2] at stepEq
        refine ⟨records, stepEq ▸ orderly.goto_same (by simp [here]) ?_ ?_ rfl⟩
        · rw [call]
          exact .inr ⟨rfl, agrees.1⟩
        · rw [here, call]
          rfl
  | returned ret => cases call : calls process <;> simp [Register.step, here, call] at stepEq

/-- In the state of a guarded run the list is in order. -/
theorem Orderly.of_run {schedule : List Process} {final : System Process}
    (guarded : Guarded (Register.step calls) LocksFlushed schedule
      (.initial (some (encode first))))
    (runs : run (Register.step calls) schedule (.initial (some (encode first))) =
      some final) :
    ∃ after, Orderly calls first after final :=
  invariant_of_guarded (fun system => ∃ records, Orderly calls first records system)
    (fun _ _ _ ⟨_, orderly⟩ flushed stepEq => orderly.step flushed stepEq)
    ⟨first, Orderly.of_initial first⟩ guarded runs

omit [DecidableEq Process] in
theorem Missing.of_initial : Missing calls (System.initial none) where
  file := rfl
  places _ := .inl rfl

theorem Missing.step (missing : Missing calls system)
    (stepEq : step calls system process = some next) : Missing calls next := by
  rcases missing.places process with here | ⟨ret, here, -⟩
  · obtain ⟨ret, minus, goes⟩ : ∃ ret,
        (∀ reg, calls process = .appendRegList reg → ret = -1) ∧
          system.goto process (.returned ret) = next := by
      cases call : calls process with
      | appendRegList reg =>
        simp only [Register.step, here, call, missing.file, Option.isSome_none,
          Bool.false_eq_true, if_false, Option.some.injEq] at stepEq
        exact ⟨-1, fun _ _ => rfl, stepEq⟩
      | isRegPending userid =>
        simp only [Register.step, here, call, missing.file, Option.isSome_none,
          Bool.false_eq_true, if_false, Option.some.injEq] at stepEq
        exact ⟨0, fun _ same => absurd same (by simp), stepEq⟩
    rw [← goes]
    refine ⟨missing.file, fun other => ?_⟩
    by_cases same : other = process
    · subst other
      exact .inr ⟨ret, Function.update_self .., minus⟩
    · simpa [System.goto, Function.update_of_ne same] using missing.places other
  · cases call : calls process <;> simp [Register.step, here, call] at stepEq

omit [DecidableEq Process] in
theorem Missing.noneLost (missing : Missing calls system) : NoneLost calls system := by
  refine ⟨none, missing.file, fun process reg call zero => ?_⟩
  rcases missing.places process with start | ⟨ret, returned, minus⟩
  · rw [start] at zero
    cases zero
  · rw [returned, minus reg call] at zero
    cases zero

omit [DecidableEq Process] in
theorem Orderly.noneLost (orderly : Orderly calls first records system) :
    NoneLost calls system := by
  refine ⟨some records, orderly.file, fun process reg call zero => ?_⟩
  have agrees := orderly.agrees process
  rw [call, zero] at agrees
  rcases agrees with ⟨-, only⟩ | ⟨minus, -⟩
  · exact ⟨records, rfl, only⟩
  · cases minus

end Steps

/-- In such a run no request is lost, at any time. -/
theorem guarded_noneLost (calls : Process → Call) (first : Option (List Reginfo))
    (schedule : List Process) (final : System Process)
    (guarded : Guarded (step calls) LocksFlushed schedule (.initial (first.map encode)))
    (runs : run (step calls) schedule (.initial (first.map encode)) = some final) :
    NoneLost calls final := by
  cases first with
  | none =>
    have missing : Missing calls final :=
      invariant_of_guarded (Missing calls)
        (fun _ _ _ missing _ stepEq => missing.step stepEq)
        Missing.of_initial guarded runs
    exact missing.noneLost
  | some first =>
    obtain ⟨records, orderly⟩ := Orderly.of_run guarded runs
    exact orderly.noneLost

end Processes

/-- The record of a user whose other fields are zero. -/
def sampleReg (userid : Bytes) : Reginfo where
  bytes := (userid ++ List.replicate reginfoSize 0).take reginfoSize
  length_eq := by
    rw [List.length_take, List.length_append, List.length_replicate]
    omega

/-- The processes of the samples. -/
inductive Visitor
  | ann
  | bob
  | reader
  deriving DecidableEq

instance fintypeVisitor : Fintype Visitor where
  elems := {.ann, .bob, .reader}
  complete visitor := by cases visitor <;> decide

/-- Two users register, and it is asked whether the request of the first is there. -/
def sampleCalls : Visitor → Call
  | .ann => .appendRegList (sampleReg [97, 110, 110])
  | .bob => .appendRegList (sampleReg [98, 111, 98])
  | .reader => .isRegPending (.ofBytes [65, 110, 110])

/-- Both open the list at once, and the second waits until the first has closed it. -/
def sampleSchedule : List Visitor :=
  [.ann, .bob, .ann, .ann, .ann, .ann, .bob, .bob, .reader, .bob, .reader, .bob, .bob,
    .reader, .reader, .bob]

theorem guarded_noneLost_sample :
    Guarded (step sampleCalls) LocksFlushed sampleSchedule (.initial (some [])) ∧
      ∃ final, run (step sampleCalls) sampleSchedule (.initial (some [])) = some final ∧
        final.places .ann = .returned 0 ∧ final.places .bob = .returned 0 ∧
        NoneLost sampleCalls final := by
  have guarded : Guarded (step sampleCalls) LocksFlushed sampleSchedule
      (.initial (some [])) := by decide +kernel
  have ends : (run (step sampleCalls) sampleSchedule (.initial (some []))).map
      (fun final => (final.places .ann, final.places .bob)) =
        some (.returned 0, .returned 0) := by decide +kernel
  obtain ⟨final, runs, places⟩ := Option.map_eq_some_iff.mp ends
  obtain ⟨ann, bob⟩ := Prod.mk.inj places
  exact ⟨guarded, final, runs, ann, bob,
    guarded_noneLost sampleCalls (some []) sampleSchedule final guarded runs⟩

/-- Two users register. -/
def sampleAppends : Bool → Call
  | false => .appendRegList (sampleReg [97, 110, 110])
  | true => .appendRegList (sampleReg [98, 111, 98])

/-- Two requests of different users, both of which return zero; the second is
written over the first. -/
theorem unflushed_request_lost :
    strcasecmp (sampleAppends false).userid.bytes (sampleAppends true).userid.bytes ≠ 0 ∧
      ∃ final, run (step sampleAppends) interleaved (.initial (some [])) = some final ∧
        (∀ process, final.places process = .returned 0) ∧
        ¬NoneLost sampleAppends final := by
  have ends : (run (step sampleAppends) interleaved (.initial (some []))).map
      (fun final => (final.file, final.places false, final.places true)) =
        some (some (encode [sampleReg [98, 111, 98]]), .returned 0, .returned 0) := by
    decide +kernel
  obtain ⟨final, runs, seen⟩ := Option.map_eq_some_iff.mp ends
  simp only [Prod.mk.injEq] at seen
  obtain ⟨file, ann, bob⟩ := seen
  refine ⟨by decide, final, runs, ?_, ?_⟩
  · intro process
    cases process with
    | false => exact ann
    | true => exact bob
  · rintro ⟨records, whole, once⟩
    obtain ⟨list, member, only⟩ := once false _ rfl ann
    rw [member, file, Option.map_some, Option.some.injEq] at whole
    rw [← encode_injective whole] at only
    have nobody : [sampleReg [98, 111, 98]].filter
        (Reginfo.isFor (sampleReg [97, 110, 110]).userid) = [] := by decide
    rw [nobody] at only
    cases only

end Register

end Fbbs
