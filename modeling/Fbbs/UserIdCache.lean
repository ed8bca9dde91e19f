import Mathlib.Logic.Function.Basic
import Fbbs.AsciiBytes
import Fbbs.Parcel
import Fbbs.TransitionRuns

/-!
# The cache of user ids

`get_user_id` looks a name up in a hash of the cache server, on a miss selects the id of the
alive user, and stores it in the hash.  `util/cleanuser.c` marks a user as dead and then
removes the name from the hash; `create_user` inserts a new row.  Each command to the
database or to the cache server is a step of its own.
-/

namespace Fbbs

namespace UserIdCache

def idLen : Nat := 12

/-- `strtolower`, and `lower` of the database. -/
def lower (name : Bytes) : Bytes :=
  name.map AsciiBytes.tolower

/-- The field of the hash: the name is cut to the length of user names. -/
def keyOf (name : Bytes) : Bytes :=
  lower (name.take idLen)

/-- A row of `users`. -/
structure UserRow where
  id : Nat
  name : Bytes
  alive : Bool
  deriving DecidableEq

/-- Where a program stands between two commands. -/
inductive Call
  | idle
  | missed (name : Bytes)
  | selected (name : Bytes) (id : Nat)
  | updated (name : Bytes)
  deriving DecidableEq

structure System where
  users : List UserRow
  nextId : Nat
  cache : Bytes → Option Nat
  calls : Nat → Call

inductive Action
  | hget (process : Nat) (name : Bytes)
  | select (process : Nat)
  | hset (process : Nat)
  | update (process : Nat) (name : Bytes)
  | hdel (process : Nat)
  | insert (name : Bytes)

/-- The row is in `alive_users` and has the name. -/
def UserRow.isAlive (row : UserRow) (name : Bytes) : Bool :=
  row.alive && lower row.name == lower name

/-- `UPDATE users SET alive = FALSE` for the alive user of the name. -/
def UserRow.killed (name : Bytes) (row : UserRow) : UserRow :=
  if row.isAlive name then { row with alive := false } else row

def System.goto (system : System) (process : Nat) (call : Call) : System :=
  { system with calls := Function.update system.calls process call }

def step (system : System) : Action → Option System
  | .hget process name =>
    match system.calls process with
    | .idle =>
      match system.cache (keyOf name) with
      | some _ => some system
      | none => some (system.goto process (.missed name))
    | _ => none
  | .select process =>
    match system.calls process with
    | .missed name =>
      match system.users.find? (·.isAlive name) with
      | some row => some (system.goto process (.selected name row.id))
      | none => some (system.goto process .idle)
    | _ => none
  | .hset process =>
    match system.calls process with
    | .selected name id =>
      some ({ system with cache := Function.update system.cache (keyOf name) (some id) }.goto
        process .idle)
    | _ => none
  | .update process name =>
    match system.calls process with
    | .idle =>
      some ({ system with users := system.users.map (UserRow.killed name) }.goto process
        (.updated name))
    | _ => none
  | .hdel process =>
    match system.calls process with
    | .updated name =>
      some ({ system with cache := Function.update system.cache (keyOf name) none }.goto
        process .idle)
    | _ => none
  -- A name that is too long does not pass the registration; the unique index refuses the
  -- name of an alive user.
  | .insert name =>
    if name.length ≤ idLen then
      if system.users.any (·.isAlive name) then some system
      else
        some { system with
          users := system.users ++ [⟨system.nextId, name, true⟩]
          nextId := system.nextId + 1 }
    else none

/-- No user has been created yet. -/
def start : System where
  users := []
  nextId := 1
  cache := fun _ => none
  calls := fun _ => .idle

/-- The id of the alive user of a name. -/
def System.IsIdOf (system : System) (name : Bytes) (id : Nat) : Prop :=
  ∃ row ∈ system.users, row.alive = true ∧ lower row.name = name ∧ row.id = id

/-- The user of a name has been marked as dead, and the name not been removed from the
cache yet. -/
def System.Removing (system : System) (name : Bytes) : Prop :=
  ∃ process removed, system.calls process = .updated removed ∧ lower removed = name

structure Consistent (system : System) : Prop where
  short : ∀ row ∈ system.users, row.name.length ≤ idLen
  cached : ∀ key id, system.cache key = some id →
    key.length ≤ idLen ∧ (system.IsIdOf key id ∨ system.Removing key)
  selected : ∀ process name id, system.calls process = .selected name id →
    name.length ≤ idLen ∧ (system.IsIdOf (lower name) id ∨ system.Removing (lower name))

/-- When a name is removed from the cache, no call has selected an id for it that is not
that of the alive user any more. -/
def NoStaleFill (system : System) : Action → Prop
  | .hdel process => ∀ name, system.calls process = .updated name →
      ∀ other filled id, system.calls other = .selected filled id → lower filled = lower name →
        system.IsIdOf (lower name) id
  | _ => True

theorem keyOf_eq {name : Bytes} (short : name.length ≤ idLen) : keyOf name = lower name := by
  rw [keyOf, List.take_of_length_le short]

theorem length_lower (name : Bytes) : (lower name).length = name.length :=
  List.length_map _

theorem isAlive_iff {row : UserRow} {name : Bytes} :
    row.isAlive name = true ↔ row.alive = true ∧ lower row.name = lower name := by
  rw [UserRow.isAlive, Bool.and_eq_true, beq_iff_eq]

section Steps

variable {system : System}

/-- A call that has not updated anything goes to another place. -/
theorem removing_goto {process : Nat} {call : Call} {name : Bytes}
    (removing : system.Removing name)
    (notUpdated : ∀ removed, system.calls process ≠ .updated removed) :
    (system.goto process call).Removing name := by
  obtain ⟨other, removed, updated, same⟩ := removing
  refine ⟨other, removed, ?_, same⟩
  have apart : other ≠ process := by
    rintro rfl
    exact notUpdated removed updated
  exact (Function.update_of_ne apart _ _).trans updated

/-- Steps of a call that neither removes nor stores anything. -/
theorem consistent_goto (consistent : Consistent system) {process : Nat} {call : Call}
    (notUpdated : ∀ removed, system.calls process ≠ .updated removed)
    (fills : ∀ name id, call = .selected name id →
      name.length ≤ idLen ∧ system.IsIdOf (lower name) id) :
    Consistent (system.goto process call) := by
  refine ⟨consistent.short, ?_, ?_⟩
  · intro key id found
    obtain ⟨short, isId | removing⟩ := consistent.cached key id found
    · exact ⟨short, .inl isId⟩
    · exact ⟨short, .inr (removing_goto removing notUpdated)⟩
  · intro other name id selected
    by_cases same : other = process
    · rw [same] at selected
      change Function.update system.calls process call process = _ at selected
      rw [Function.update_self] at selected
      obtain ⟨short, isId⟩ := fills name id selected
      exact ⟨short, .inl isId⟩
    · change Function.update system.calls process call other = _ at selected
      rw [Function.update_of_ne same] at selected
      obtain ⟨short, isId | removing⟩ := consistent.selected other name id selected
      · exact ⟨short, .inl isId⟩
      · exact ⟨short, .inr (removing_goto removing notUpdated)⟩

theorem isIdOf_of_find {name : Bytes} {row : UserRow}
    (found : system.users.find? (·.isAlive name) = some row) :
    row ∈ system.users ∧ system.IsIdOf (lower name) row.id := by
  have member := List.mem_of_find?_eq_some found
  have isAlive := List.find?_some found
  obtain ⟨alive, same⟩ := isAlive_iff.mp isAlive
  exact ⟨member, row, member, alive, same, rfl⟩

theorem consistent_hset (consistent : Consistent system) {process id : Nat} {name : Bytes}
    (call : system.calls process = .selected name id) :
    Consistent ({ system with cache := Function.update system.cache (keyOf name) (some id) }.goto
      process .idle) := by
  obtain ⟨short, filled⟩ := consistent.selected process name id call
  have notUpdated : ∀ removed, system.calls process ≠ .updated removed := by
    intro removed updated
    rw [call] at updated
    cases updated
  have stored : Consistent
      { system with cache := Function.update system.cache (keyOf name) (some id) } := by
    refine ⟨consistent.short, ?_, consistent.selected⟩
    intro key other found
    by_cases here : key = keyOf name
    · rw [here] at found ⊢
      change Function.update system.cache (keyOf name) (some id) (keyOf name) = _ at found
      rw [Function.update_self] at found
      rw [← Option.some.inj found, keyOf_eq short, length_lower]
      exact ⟨short, filled⟩
    · change Function.update system.cache (keyOf name) (some id) key = _ at found
      rw [Function.update_of_ne here] at found
      exact consistent.cached key other found
  exact consistent_goto stored notUpdated fun _ _ selected => nomatch selected

/-- An id stays that of its name unless the name is removed. -/
theorem isIdOf_killed {name key : Bytes} {id : Nat} (isId : system.IsIdOf key id)
    (apart : key ≠ lower name) (calls : Nat → Call) :
    System.IsIdOf { system with users := system.users.map (UserRow.killed name), calls } key
      id := by
  obtain ⟨row, member, alive, same, idEq⟩ := isId
  have kept : UserRow.killed name row = row := by
    rw [UserRow.killed, if_neg]
    intro dies
    exact apart (same.symm.trans (isAlive_iff.mp dies).2)
  exact ⟨row, List.mem_map.mpr ⟨row, member, kept⟩, alive, same, idEq⟩

theorem consistent_update (consistent : Consistent system) {process : Nat}
    (call : system.calls process = .idle) (name : Bytes) :
    Consistent ({ system with users := system.users.map (UserRow.killed name) }.goto process
      (.updated name)) := by
  have notUpdated : ∀ removed, system.calls process ≠ .updated removed := by
    intro removed updated
    rw [call] at updated
    cases updated
  -- The ids of other names stay, and this name is being removed.
  have kept : ∀ key id, system.IsIdOf key id ∨ system.Removing key →
      System.IsIdOf ({ system with users := system.users.map (UserRow.killed name) }.goto process
        (.updated name)) key id ∨
      System.Removing ({ system with users := system.users.map (UserRow.killed name) }.goto process
        (.updated name)) key := by
    intro key id before
    by_cases here : key = lower name
    · exact .inr ⟨process, name, Function.update_self .., here.symm⟩
    · rcases before with isId | removing
      · exact .inl (isIdOf_killed isId here _)
      · exact .inr (removing_goto removing notUpdated)
  refine ⟨?_, ?_, ?_⟩
  · intro row member
    obtain ⟨before, isRow, rfl⟩ := List.mem_map.mp member
    have short := consistent.short before isRow
    unfold UserRow.killed
    split <;> exact short
  · intro key id found
    obtain ⟨short, before⟩ := consistent.cached key id found
    exact ⟨short, kept key id before⟩
  · intro other filled id selected
    have apart : other ≠ process := by
      rintro rfl
      change Function.update system.calls other (.updated name) other = _ at selected
      rw [Function.update_self] at selected
      cases selected
    change Function.update system.calls process (.updated name) other = _ at selected
    rw [Function.update_of_ne apart] at selected
    obtain ⟨short, before⟩ := consistent.selected other filled id selected
    exact ⟨short, kept (lower filled) id before⟩

theorem consistent_hdel (consistent : Consistent system) {process : Nat} {name : Bytes}
    (call : system.calls process = .updated name)
    (fresh : ∀ other filled id, system.calls other = .selected filled id →
      lower filled = lower name → system.IsIdOf (lower name) id) :
    Consistent ({ system with cache := Function.update system.cache (keyOf name) none }.goto
      process .idle) := by
  -- Other removals go on, and what is being removed here is not left anywhere.
  have goesOn : ∀ key, key ≠ lower name → system.Removing key →
      System.Removing ({ system with
        cache := Function.update system.cache (keyOf name) none }.goto process .idle) key := by
    rintro key apart ⟨other, removed, updated, same⟩
    refine ⟨other, removed, ?_, same⟩
    have others : other ≠ process := by
      rintro rfl
      rw [call] at updated
      cases updated
      exact apart same.symm
    exact (Function.update_of_ne others _ _).trans updated
  refine ⟨consistent.short, ?_, ?_⟩
  · intro key id found
    have apart : key ≠ keyOf name := by
      rintro rfl
      change Function.update system.cache (keyOf name) none (keyOf name) = _ at found
      rw [Function.update_self] at found
      cases found
    change Function.update system.cache (keyOf name) none key = _ at found
    rw [Function.update_of_ne apart] at found
    obtain ⟨short, isId | removing⟩ := consistent.cached key id found
    · exact ⟨short, .inl isId⟩
    · have notLower : key ≠ lower name := by
        rintro rfl
        rw [length_lower] at short
        exact apart (keyOf_eq short).symm
      exact ⟨short, .inr (goesOn key notLower removing)⟩
  · intro other filled id selected
    have apart : other ≠ process := by
      rintro rfl
      change Function.update system.calls other .idle other = _ at selected
      rw [Function.update_self] at selected
      cases selected
    change Function.update system.calls process .idle other = _ at selected
    rw [Function.update_of_ne apart] at selected
    obtain ⟨short, before⟩ := consistent.selected other filled id selected
    by_cases same : lower filled = lower name
    · have isId := fresh other filled id selected same
      rw [same]
      exact ⟨short, .inl isId⟩
    · rcases before with isId | removing
      · exact ⟨short, .inl isId⟩
      · exact ⟨short, .inr (goesOn (lower filled) same removing)⟩

theorem consistent_insert (consistent : Consistent system) {name : Bytes}
    (short : name.length ≤ idLen) :
    Consistent { system with
      users := system.users ++ [⟨system.nextId, name, true⟩]
      nextId := system.nextId + 1 } := by
  have kept : ∀ key id, system.IsIdOf key id → System.IsIdOf { system with
      users := system.users ++ [⟨system.nextId, name, true⟩]
      nextId := system.nextId + 1 } key id := by
    rintro key id ⟨row, member, isRow⟩
    exact ⟨row, List.mem_append_left _ member, isRow⟩
  refine ⟨?_, ?_, ?_⟩
  · intro row member
    rcases List.mem_append.mp member with isOld | isNew
    · exact consistent.short row isOld
    · rw [List.mem_singleton.mp isNew]
      exact short
  · intro key id found
    obtain ⟨keyShort, before⟩ := consistent.cached key id found
    exact ⟨keyShort, before.imp_left (kept key id)⟩
  · intro process filled id selected
    obtain ⟨nameShort, before⟩ := consistent.selected process filled id selected
    exact ⟨nameShort, before.imp_left (kept _ id)⟩

theorem consistent_step (consistent : Consistent system) {action : Action} {next : System}
    (fresh : NoStaleFill system action) (stepped : step system action = some next) :
    Consistent next := by
  cases action with
  | hget process name =>
    simp only [step] at stepped
    split at stepped
    · rename_i call
      split at stepped
      · exact Option.some.inj stepped ▸ consistent
      · rw [← Option.some.inj stepped]
        apply consistent_goto consistent
        · intro removed updated
          rw [call] at updated
          cases updated
        · exact fun _ _ selected => nomatch selected
    · cases stepped
  | select process =>
    simp only [step] at stepped
    split at stepped
    · rename_i name call
      have notUpdated : ∀ removed, system.calls process ≠ .updated removed := by
        intro removed updated
        rw [call] at updated
        cases updated
      split at stepped
      · rename_i row found
        obtain ⟨member, isId⟩ := isIdOf_of_find found
        rw [← Option.some.inj stepped]
        apply consistent_goto consistent notUpdated
        intro filled id selected
        cases selected
        have isAlive := List.find?_some found
        have lengths := congrArg List.length (isAlive_iff.mp isAlive).2
        rw [length_lower, length_lower] at lengths
        exact ⟨lengths ▸ consistent.short row member, isId⟩
      · rw [← Option.some.inj stepped]
        exact consistent_goto consistent notUpdated fun _ _ selected => nomatch selected
    · cases stepped
  | hset process =>
    simp only [step] at stepped
    split at stepped
    · rename_i name id call
      exact Option.some.inj stepped ▸ consistent_hset consistent call
    · cases stepped
  | update process name =>
    simp only [step] at stepped
    split at stepped
    · rename_i call
      exact Option.some.inj stepped ▸ consistent_update consistent call name
    · cases stepped
  | hdel process =>
    simp only [step] at stepped
    split at stepped
    · rename_i name call
      exact Option.some.inj stepped ▸ consistent_hdel consistent call (fresh name call)
    · cases stepped
  | insert name =>
    simp only [step] at stepped
    split at stepped
    · rename_i short
      split at stepped
      · exact Option.some.inj stepped ▸ consistent
      · exact Option.some.inj stepped ▸ consistent_insert consistent short
    · cases stepped

end Steps

theorem consistent_start : Consistent start where
  short := fun _ member => nomatch member
  cached := fun _ _ found => nomatch found
  selected := fun _ _ _ selected => nomatch selected

/-- The cache tells the ids of alive users. -/
def System.Coherent (system : System) : Prop :=
  ∀ name id, system.cache (keyOf name) = some id → system.IsIdOf (keyOf name) id

/-- In a run without stale fills the cache is coherent whenever no call is in progress. -/
theorem coherent_of_guarded {actions : List Action} {system : System}
    (guarded : TransitionRuns.Guarded step NoStaleFill actions start)
    (runs : TransitionRuns.run step actions start = some system)
    (quiet : ∀ process, system.calls process = .idle) : system.Coherent := by
  have consistent : Consistent system :=
    TransitionRuns.invariant_of_guarded Consistent
      (fun _ _ _ before fresh stepped => consistent_step before fresh stepped) consistent_start
      guarded runs
  intro name id found
  obtain ⟨-, isId | ⟨process, removed, updated, -⟩⟩ := consistent.cached _ id found
  · exact isId
  · rw [quiet process] at updated
    cases updated

/-- A name is looked up, and its user removed. -/
def removal : List Action :=
  [.insert [97, 98], .hget 1 [65, 98], .select 1, .hset 1, .update 2 [97, 98], .hdel 2]

theorem guarded_removal : TransitionRuns.Guarded step NoStaleFill removal start := by
  apply TransitionRuns.guarded_cons trivial rfl
  apply TransitionRuns.guarded_cons trivial rfl
  apply TransitionRuns.guarded_cons trivial rfl
  apply TransitionRuns.guarded_cons trivial rfl
  apply TransitionRuns.guarded_cons trivial rfl
  refine ⟨?_, fun _ _ => trivial⟩
  intro name updated other filled id selected
  exfalso
  revert selected
  simp only [System.goto, Function.update_apply, start]
  split_ifs <;> simp

theorem coherent_removal :
    ∃ system, TransitionRuns.run step removal start = some system ∧ system.Coherent := by
  refine ⟨_, rfl, coherent_of_guarded guarded_removal rfl ?_⟩
  intro process
  simp [System.goto, start]

/-- The lookup selects the id, the user is removed, and the lookup stores the id. -/
theorem stale_id_cached :
    ¬∀ (actions : List Action) (system : System),
      TransitionRuns.run step actions start = some system →
      (∀ process, system.calls process = .idle) → system.Coherent := by
  intro coherent
  have stale := coherent
    [.insert [97, 98], .hget 1 [97, 98], .select 1, .update 2 [97, 98], .hdel 2, .hset 1] _ rfl
    (by intro process; simp only [System.goto, Function.update_apply, start]; split_ifs <;> rfl)
  obtain ⟨row, member, alive, -⟩ := stale [97, 98] 1 rfl
  rw [List.mem_singleton.mp member] at alive
  cases alive

end UserIdCache

end Fbbs
