import Fbbs.RecordCache

/-!
# Failing refreshes of the record file of a board

`post_update_record` of `lib/post.c` may fail before the record file is opened or locked, in
the query, or when there is no memory for the rows.  The invalidity is decreased by the
caller of `update_record`, and the number of posts is stored behind the write.
-/

namespace Fbbs

namespace RecordRefresh

open RecordCache Post

/-- What a refresh meets on its way; `recent` is `post.recent` unless the query fails. -/
structure Outcomes where
  opens : Bool
  locks : Bool
  recent : Option (List PostRow)
  allocates : Bool

/-- The fields of a board in `post_record_invalidity` and `post:board_count`, and the record
files of its posts and of its sticky posts. -/
structure Store where
  invalidity : Int
  boardCount : Option Int
  files : Bool → List PostRecord

def selectedRows (bid : Int32) (sticky : Bool) (recent : List PostRow) : List PostRow :=
  recent.filter fun row => row.boardId == some bid && (!sticky || row.sticky == some true)

def postRecordCompare (left right : PostRecord) : Int :=
  if left.id > right.id then 1 else if left.id = right.id then 0 else -1

def postStickyCompare (left right : PostRecord) : Int :=
  -postRecordCompare left right

def sortedRecords (sticky : Bool) (rows : List PostRow) : List PostRecord :=
  (rows.map (convertPostRecord · sticky)).insertionSort fun left right =>
    (if sticky then postStickyCompare else postRecordCompare) left right ≤ 0

def updateRecord (bid : Int32) (sticky : Bool) (outcomes : Outcomes) (store : Store) :
    Store × Bool :=
  match outcomes.recent with
  | none => (store, false)
  | some recent =>
    let rows := selectedRows bid sticky recent
    let written :=
      if outcomes.allocates then
        { store with files := Function.update store.files sticky (sortedRecords sticky rows) }
      else store
    (if sticky then written else { written with boardCount := some rows.length }, true)

def postRecordInvalidityGet (store : Store) : Int32 :=
  .ofInt store.invalidity

def postRecordInvalidityChange (bid : Int32) (delta : Int) (store : Store) : Store :=
  { store with invalidity := if 0 < bid then store.invalidity + delta else store.invalidity }

def postUpdateRecord (bid : Int32) (force : Bool) (outcomes : Outcomes) (store : Store) :
    Store × Bool :=
  let invalid := if force then 0 else postRecordInvalidityGet store
  if force ∨ invalid ≠ 0 then
    if outcomes.opens then
      if outcomes.locks then
        let (store, updated) := updateRecord bid false outcomes store
        (if invalid ≠ 0 then postRecordInvalidityChange bid (-invalid.toInt) store else store,
          updated)
      else (store, false)
    else (store, false)
  else (store, false)

section Refresh

variable (bid : Int32) (force : Bool) (outcomes : Outcomes) (store : Store)

/-- `update_record` is called. -/
def Starts : Prop :=
  (force = true ∨ postRecordInvalidityGet store ≠ 0) ∧
    outcomes.opens = true ∧ outcomes.locks = true

/-- The record file is rewritten from the database. -/
def Rewrites : Prop :=
  Starts force outcomes store ∧ outcomes.recent ≠ none ∧ outcomes.allocates = true

/-- Unless the file is rewritten, the invalidity and the number of posts stay as they were. -/
def FailureKeeps : Prop :=
  ¬Rewrites force outcomes store →
    (postUpdateRecord bid force outcomes store).1.invalidity = store.invalidity ∧
      (postUpdateRecord bid force outcomes store).1.boardCount = store.boardCount

/-- The value that is subtracted from the invalidity. -/
def subtracted : Int32 :=
  if force then 0 else postRecordInvalidityGet store

variable {bid force outcomes store}

theorem postUpdateRecord_of_not_starts (idle : ¬Starts force outcomes store) :
    postUpdateRecord bid force outcomes store = (store, false) := by
  unfold Starts at idle
  unfold postUpdateRecord
  cases force <;> cases opens : outcomes.opens <;> cases locks : outcomes.locks <;>
    simp_all

theorem postUpdateRecord_of_starts (starts : Starts force outcomes store) :
    postUpdateRecord bid force outcomes store =
      (if subtracted force store ≠ 0 then
        postRecordInvalidityChange bid (-(subtracted force store).toInt)
          (updateRecord bid false outcomes store).1
      else (updateRecord bid false outcomes store).1,
      (updateRecord bid false outcomes store).2) := by
  obtain ⟨asked, opens, locks⟩ := starts
  have taken : force = true ∨ (if force then 0 else postRecordInvalidityGet store) ≠ 0 := by
    cases force with
    | false => exact .inr (asked.resolve_left nofun)
    | true => exact .inl rfl
  unfold postUpdateRecord
  rw [if_pos taken, if_pos opens, if_pos locks]
  rfl

theorem updateRecord_invalidity (sticky : Bool) :
    (updateRecord bid sticky outcomes store).1.invalidity = store.invalidity := by
  unfold updateRecord
  split
  · rfl
  · dsimp only
    split_ifs <;> rfl

theorem updateRecord_boardCount :
    (updateRecord bid false outcomes store).1.boardCount =
      match outcomes.recent with
      | some recent => some ↑(selectedRows bid false recent).length
      | none => store.boardCount := by
  unfold updateRecord
  split
  · simp [*]
  · simp only [*]
    rfl

theorem postUpdateRecord_boardCount (starts : Starts force outcomes store) :
    (postUpdateRecord bid force outcomes store).1.boardCount =
      (updateRecord bid false outcomes store).1.boardCount := by
  rw [postUpdateRecord_of_starts starts]
  dsimp only
  split_ifs <;> rfl

/-- A refresh that starts subtracts what it has read, whether or not it fails. -/
theorem postUpdateRecord_invalidity (starts : Starts force outcomes store) :
    (postUpdateRecord bid force outcomes store).1.invalidity = store.invalidity ↔
      force = true ∨ bid ≤ 0 := by
  have value : subtracted force store ≠ 0 ↔ force = false := by
    unfold subtracted
    cases force with
    | false => simpa using starts.1.resolve_left nofun
    | true => simp
  rw [postUpdateRecord_of_starts starts]
  dsimp only
  by_cases reads : subtracted force store = 0
  · have forced : force = true := by
      cases force with
      | false => exact absurd reads (value.mpr rfl)
      | true => rfl
    rw [if_neg (not_not.mpr reads), updateRecord_invalidity]
    exact iff_of_true rfl (.inl forced)
  · have unforced : force = false := value.mp reads
    have nonzero : (subtracted force store).toInt ≠ 0 := by
      intro zero
      exact reads (Int32.toInt_inj.mp zero)
    rw [if_pos reads, postRecordInvalidityChange, updateRecord_invalidity, unforced]
    dsimp only
    by_cases positive : 0 < bid
    · rw [if_pos positive]
      apply iff_of_false
      · rw [← unforced]
        omega
      · rintro (forced | small)
        · cases forced
        · exact absurd positive (Int32.not_lt.mpr small)
    · rw [if_neg positive]
      exact iff_of_true rfl (.inr (Int32.not_lt.mp positive))

/-- A refresh that fails behind the lock keeps the invalidity only if it is forced, and the
number of posts only if the query fails or finds as many as before. -/
theorem failureKeeps_iff (bid : Int32) (force : Bool) (outcomes : Outcomes) (store : Store) :
    FailureKeeps bid force outcomes store ↔
      (Starts force outcomes store → outcomes.recent = none ∨ outcomes.allocates = false →
        (force = true ∨ bid ≤ 0) ∧ ∀ recent, outcomes.recent = some recent →
          store.boardCount = some ↑(selectedRows bid false recent).length) := by
  by_cases starts : Starts force outcomes store
  · have fails : ¬Rewrites force outcomes store ↔
        outcomes.recent = none ∨ outcomes.allocates = false := by
      simp [Rewrites, starts, or_iff_not_imp_left]
    have counts : (postUpdateRecord bid force outcomes store).1.boardCount = store.boardCount ↔
        ∀ recent, outcomes.recent = some recent →
          store.boardCount = some ↑(selectedRows bid false recent).length := by
      rw [postUpdateRecord_boardCount starts, updateRecord_boardCount]
      cases outcomes.recent with
      | none => simp
      | some recent => simp [eq_comm]
    rw [FailureKeeps, fails, postUpdateRecord_invalidity starts, counts]
    exact ⟨fun keeps _ => keeps, fun keeps => keeps starts⟩
  · unfold FailureKeeps
    rw [postUpdateRecord_of_not_starts starts]
    exact iff_of_true (fun _ => ⟨rfl, rfl⟩) fun begins => absurd begins starts

end Refresh

/-- The invalidity of a board with one change, for which a post has been counted. -/
def oneChange : Store where
  invalidity := 1
  boardCount := some 1
  files _ := []

/-- The query fails and the invalidity is gone; without memory for the rows, the number of
posts is changed as well. -/
theorem failedQuery_loses_invalidity :
    (¬FailureKeeps 1 false ⟨true, true, none, true⟩ oneChange ∧
        (postUpdateRecord 1 false ⟨true, true, none, true⟩ oneChange).1.invalidity = 0) ∧
      ¬FailureKeeps 1 true ⟨true, true, some [], false⟩ oneChange := by
  refine ⟨⟨fun keeps => ?_, rfl⟩, fun keeps => ?_⟩
  · have kept := (keeps fun rewrites => rewrites.2.1 rfl).1
    revert kept
    decide
  · have kept := (keeps fun rewrites => nomatch rewrites.2.2).2
    revert kept
    decide

end RecordRefresh

end Fbbs
