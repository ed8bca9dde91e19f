import Mathlib.Data.Fintype.Basic
import Fbbs.Notifications
import Fbbs.TransitionRuns

/-!
# Files with one entry on every line

`add_to_file` and `del_from_file` copy a list to a private file and rename the
copy to the list.  The lock is taken on the file that is read and given back
before the copy is renamed, so that another process may have read the same file;
the copy that is renamed last replaces the other one.

A list is a name that is bound to a file or to none.  Files that have been bound
are not written to any more.  A write lock on a file that is open for reading
only may be refused, and neither function looks at the result: `granted` says
whether the lock is given.
-/

namespace Fbbs

namespace ListFiles

open TransitionRuns Notifications

/-- `LINE_BUFSIZE`. -/
def lineBufsize : Nat := 256

/-- The buffer of `del_from_file`. -/
def delBufsize : Nat := 1024

/-- `BBS_ELEXIST`. -/
def bbsElexist : Int := -24

/-- The lines of a file as `fgets` reads them. -/
def fgetsAll (size : Nat) (contents : Bytes) : List Bytes :=
  fgetsLines (size - 1) (size - 1) [] contents

/-- What `fputs` writes of a buffer. -/
def fputs (buf : Bytes) : Bytes :=
  (CString.ofBytes buf).bytes

/-- The comparison that a caller of `add_to_file` passes. -/
abbrev Equal := CString → CString → Nat → Bool

/-- The loop of `add_to_file`: whether the line has been found, and the copy. -/
def addLoop (str : CString) (len : Nat) (overwrite : Bool) (equal : Option Equal) :
    Bool → List Bytes → Bool × Bytes
  | exist, [] => (exist, [])
  | exist, buf :: rest =>
    if !exist && equal.any (fun equal => equal (.ofBytes buf) str len) then
      if overwrite then
        let copied := addLoop str len overwrite equal true rest
        (copied.1, str.bytes ++ copied.2)
      else
        (true, [])
    else
      let copied := addLoop str len overwrite equal exist rest
      (copied.1, fputs buf ++ copied.2)

/-- The key begins the line, and a blank or the end of the line comes after it. -/
def delMatches (str : CString) (buf : Bytes) : Bool :=
  let line := (CString.ofBytes buf).bytes
  str.bytes.isPrefixOf line &&
    match line.drop str.bytes.length with
    | [] => true
    | c :: _ => c == 32 || c == 10

/-- The loop of `del_from_file`: whether a line has been deleted, and the copy. -/
def delLoop (str : CString) : Bool → List Bytes → Bool × Bytes
  | deleted, [] => (deleted, [])
  | deleted, buf :: rest =>
    if !deleted && delMatches str buf then
      delLoop str true rest
    else
      let copied := delLoop str deleted rest
      (copied.1, fputs buf ++ copied.2)

inductive Call
  | addToFile (str : CString) (len : Nat) (overwrite : Bool) (equal : Option Equal)
  | delFromFile (str : CString)

/-- The private copy, given the contents of the list. -/
def Call.copy : Call → Option Bytes → Bool × Bytes
  | .addToFile str len overwrite equal, file =>
    let copied := addLoop str len overwrite equal false
      (file.elim [] (fgetsAll lineBufsize))
    (copied.1, copied.2 ++ if copied.1 then [] else str.bytes)
  | .delFromFile str, file => delLoop str false (file.elim [] (fgetsAll delBufsize))

/-- The call goes on to change the list. -/
def Call.publishes : Call → Bool → Bool
  | .addToFile _ _ overwrite _, exist => overwrite || !exist
  | .delFromFile _, deleted => deleted

/-- What the call returns if it leaves the list alone. -/
def Call.refusal : Call → Int
  | .addToFile _ _ _ _ => bbsElexist
  | .delFromFile _ => -1

/-- An empty copy is not renamed by `del_from_file`. -/
def Call.removes : Call → Bytes → Bool
  | .addToFile _ _ _ _, _ => false
  | .delFromFile _, copy => copy = []

/-- Where a call stands; `inode` is the file that it has open for reading. -/
inductive Place
  | start
  | opened (inode : Option Nat)
  | locked (inode : Option Nat)
  | copied (inode : Option Nat) (found : Bool) (copy : Bytes)
  | unlocked (inode : Option Nat) (found : Bool) (copy : Bytes)
  | returned (ret : Int)
  deriving DecidableEq

/-- The list, the files with their locks, and the calls of the processes. -/
structure System (Process : Type) where
  name : Option Nat
  contents : Nat → Bytes
  fresh : Nat
  locks : Nat → Option Process
  places : Process → Place

def System.list {Process : Type} (system : System Process) : Option Bytes :=
  system.name.map system.contents

section Processes

variable {Process : Type} [DecidableEq Process]

def System.goto (system : System Process) (process : Process) (place : Place) :
    System Process :=
  { system with places := Function.update system.places process place }

/-- No call has begun. -/
def System.initial (file : Option Bytes) : System Process where
  name := file.map fun _ => 0
  contents _ := file.getD []
  fresh := 1
  locks _ := none
  places _ := .start

/-- The copy becomes the list. -/
def System.rename (system : System Process) (copy : Bytes) : System Process :=
  { system with
    name := some system.fresh
    contents := Function.update system.contents system.fresh copy
    fresh := system.fresh + 1 }

def System.lockWith (system : System Process) (inode : Nat) (holder : Option Process) :
    System Process :=
  { system with locks := Function.update system.locks inode holder }

variable (granted : Bool) (calls : Process → Call)

/-- The last step of a call: `rename` and `unlink`. -/
def finish (system : System Process) (process : Process) (found : Bool) (copy : Bytes) :
    System Process :=
  if (calls process).publishes found then
    if (calls process).removes copy then
      if system.name = none then
        system.goto process (.returned (-1))
      else
        { system with name := none }.goto process (.returned 0)
    else
      (system.rename copy).goto process (.returned 0)
  else
    system.goto process (.returned (calls process).refusal)

/-- The next step of a process; there is none for a process that waits for a lock or
has returned. -/
def step (system : System Process) (process : Process) : Option (System Process) :=
  match system.places process with
  | .start =>
    match calls process, system.name with
    | .delFromFile _, none => some (system.goto process (.returned (-1)))
    | _, inode => some (system.goto process (.opened inode))
  | .opened none => some (system.goto process (.locked none))
  | .opened (some inode) =>
    if granted then
      match system.locks inode with
      | none =>
        some ((system.lockWith inode (some process)).goto process (.locked (some inode)))
      | some _ => none
    else
      some (system.goto process (.locked (some inode)))
  | .locked inode =>
    let copied := (calls process).copy (inode.map system.contents)
    some (system.goto process (.copied inode copied.1 copied.2))
  | .copied inode found copy =>
    let unlocked := inode.elim system fun inode =>
      if granted then system.lockWith inode none else system
    some (unlocked.goto process (.unlocked inode found copy))
  | .unlocked _ found copy => some (finish calls system process found copy)
  | .returned _ => none

/-- The list that a call leaves if it runs alone. -/
def perform (call : Call) (file : Option Bytes) : Option Bytes :=
  let copied := call.copy file
  if call.publishes copied.1 then
    if call.removes copied.2 then none else some copied.2
  else file

def lines (file : Option Bytes) : Set Bytes :=
  {line | line ∈ (file.getD []).splitOnP (· == 10)}

/-- The list is what the calls that have returned zero leave if they run one after
another, in some order. -/
def Serialisable (file : Option Bytes) (system : System Process) : Prop :=
  ∃ order : List Process, order.Nodup ∧
    (∀ process, process ∈ order ↔ system.places process = .returned 0) ∧
    lines system.list =
      lines (order.foldl (fun file process => perform (calls process) file) file)

/-- A call changes the list only if the list is still the file that it has copied. -/
def StillBound (system : System Process) (process : Process) : Prop :=
  match system.places process with
  | .unlocked inode found _ =>
    (calls process).publishes found = true → system.name = inode
  | _ => True

instance decidableStillBound (system : System Process) (process : Process) :
    Decidable (StillBound calls system process) :=
  match place : system.places process with
  | .unlocked inode found copy =>
    decidable_of_iff ((calls process).publishes found = true → system.name = inode)
      (by simp [StillBound, place])
  | .start => isTrue (by simp [StillBound, place])
  | .opened _ => isTrue (by simp [StillBound, place])
  | .locked _ => isTrue (by simp [StillBound, place])
  | .copied _ _ _ => isTrue (by simp [StillBound, place])
  | .returned _ => isTrue (by simp [StillBound, place])

/-- What a call knows of the file that it has opened: it has been bound before, and
the copy is the one that the call makes of it. -/
def Knows (contents : Nat → Bytes) (fresh : Nat) (call : Call) : Place → Prop
  | .opened inode => ∀ i ∈ inode, i < fresh
  | .locked inode => ∀ i ∈ inode, i < fresh
  | .copied inode found copy =>
    (∀ i ∈ inode, i < fresh) ∧ call.copy (inode.map contents) = (found, copy)
  | .unlocked inode found copy =>
    (∀ i ∈ inode, i < fresh) ∧ call.copy (inode.map contents) = (found, copy)
  | _ => True

/-- The list is what the calls in the order have left. -/
structure Ordered (file : Option Bytes) (order : List Process) (system : System Process) :
    Prop where
  bound : ∀ i ∈ system.name, i < system.fresh
  knows : ∀ process,
    Knows system.contents system.fresh (calls process) (system.places process)
  nodup : order.Nodup
  mem_iff : ∀ process, process ∈ order ↔ system.places process = .returned 0
  list_eq : system.list =
    order.foldl (fun file process => perform (calls process) file) file

section Steps

variable {granted calls} {file : Option Bytes} {order : List Process}
  {system next : System Process} {process : Process} {place : Place}

theorem map_update_fresh {contents : Nat → Bytes} {fresh : Nat} {inode : Option Nat}
    (bound : ∀ i ∈ inode, i < fresh) (copy : Bytes) :
    inode.map (Function.update contents fresh copy) = inode.map contents := by
  cases inode with
  | none => rfl
  | some i =>
    have older : i ≠ fresh := Nat.ne_of_lt (bound i rfl)
    rw [Option.map_some, Option.map_some, Function.update_of_ne older]

/-- A new file changes nothing for a call that has opened another one. -/
theorem Knows.rename {contents : Nat → Bytes} {fresh : Nat} {call : Call}
    (knows : Knows contents fresh call place) (copy : Bytes) :
    Knows (Function.update contents fresh copy) (fresh + 1) call place := by
  cases place with
  | start => trivial
  | opened inode => exact fun i member => Nat.lt_succ_of_lt (knows i member)
  | locked inode => exact fun i member => Nat.lt_succ_of_lt (knows i member)
  | copied inode found copied =>
    refine ⟨fun i member => Nat.lt_succ_of_lt (knows.1 i member), ?_⟩
    rw [map_update_fresh knows.1]
    exact knows.2
  | unlocked inode found copied =>
    refine ⟨fun i member => Nat.lt_succ_of_lt (knows.1 i member), ?_⟩
    rw [map_update_fresh knows.1]
    exact knows.2
  | returned ret => trivial

omit [DecidableEq Process] in
theorem Ordered.of_initial (file : Option Bytes) :
    Ordered calls file [] (System.initial file) where
  bound i member := by
    obtain ⟨-, -, rfl⟩ := Option.mem_map.mp member
    exact Nat.one_pos
  knows _ := trivial
  nodup := List.nodup_nil
  mem_iff _ := by
    constructor
    · exact fun member => absurd member List.not_mem_nil
    · exact fun impossible => by cases impossible
  list_eq := by
    cases file <;> rfl

/-- A call goes on without changing the list. -/
theorem Ordered.goto (ordered : Ordered calls file order system)
    {locks : Nat → Option Process}
    (knows : Knows system.contents system.fresh (calls process) place)
    (unreturned : system.places process ≠ .returned 0) (unsuccessful : place ≠ .returned 0) :
    Ordered calls file order ({ system with locks := locks }.goto process place) where
  bound := ordered.bound
  knows other := by
    by_cases here : other = process
    · subst other
      simpa [System.goto] using knows
    · simpa [System.goto, Function.update_of_ne here] using ordered.knows other
  nodup := ordered.nodup
  mem_iff other := by
    rw [ordered.mem_iff other]
    by_cases here : other = process
    · subst other
      simp [System.goto, unreturned, unsuccessful]
    · simp [System.goto, Function.update_of_ne here]
  list_eq := ordered.list_eq

/-- A call replaces the list by the one that it leaves if it runs alone. -/
theorem Ordered.publish (ordered : Ordered calls file order system)
    {name : Option Nat} {contents : Nat → Bytes} {fresh : Nat}
    (bound : ∀ i ∈ name, i < fresh)
    (others : ∀ other, other ≠ process →
      Knows contents fresh (calls other) (system.places other))
    (unreturned : system.places process ≠ .returned 0)
    (listEq : name.map contents = perform (calls process) system.list) :
    Ordered calls file (order ++ [process])
      ((⟨name, contents, fresh, system.locks, system.places⟩ : System Process).goto process
        (.returned 0)) where
  bound := bound
  knows other := by
    by_cases here : other = process
    · subst other
      simp [System.goto, Knows]
    · simpa [System.goto, Function.update_of_ne here] using others other here
  nodup := by
    have absent : process ∉ order := fun member => unreturned ((ordered.mem_iff process).mp member)
    rw [← List.concat_eq_append]
    exact ordered.nodup.concat absent
  mem_iff other := by
    rw [List.mem_append, ordered.mem_iff other, List.mem_singleton]
    by_cases here : other = process
    · subst other
      simp [System.goto]
    · simp [System.goto, here]
  list_eq := by
    rw [List.foldl_append, ← ordered.list_eq]
    exact listEq

theorem refusal_ne_zero (call : Call) : call.refusal ≠ 0 := by
  cases call <;> simp [Call.refusal, bbsElexist]

/-- The last step of a call whose file is still the list. -/
theorem Ordered.finish (ordered : Ordered calls file order system) {inode : Option Nat}
    {found : Bool} {copy : Bytes} (here : system.places process = .unlocked inode found copy)
    (still : (calls process).publishes found = true → system.name = inode) :
    ∃ order', Ordered calls file order' (finish calls system process found copy) := by
  have knows := ordered.knows process
  rw [here] at knows
  obtain ⟨-, copied⟩ := knows
  have unreturned : system.places process ≠ .returned 0 := by simp [here]
  unfold ListFiles.finish
  split
  next publishes =>
    have current : (calls process).copy system.list = (found, copy) := by
      rw [System.list, still publishes]
      exact copied
    have performed : perform (calls process) system.list =
        if (calls process).removes copy then none else some copy := by
      rw [perform, current]
      simp only [publishes, if_true]
    split
    next removes =>
      split
      next unbound =>
        exact ⟨order, ordered.goto trivial unreturned (by simp)⟩
      next bound =>
        refine ⟨order ++ [process], ordered.publish (by simp) ?_ unreturned ?_⟩
        · exact fun other _ => ordered.knows other
        · rw [performed, if_pos removes]
          rfl
    next keeps =>
      refine ⟨order ++ [process], ordered.publish ?_ ?_ unreturned ?_⟩
      · exact fun i member => (Option.some.inj member) ▸ Nat.lt_succ_self system.fresh
      · exact fun other _ => (ordered.knows other).rename copy
      · rw [performed, if_neg keeps, Option.map_some, Function.update_self]
  next refused =>
    refine ⟨order, ordered.goto trivial unreturned ?_⟩
    simpa using refusal_ne_zero (calls process)

/-- One step, taken by any process, keeps the list in the order of the calls. -/
theorem Ordered.step (ordered : Ordered calls file order system)
    (still : StillBound calls system process)
    (stepEq : step granted calls system process = some next) :
    ∃ order', Ordered calls file order' next := by
  have knows := ordered.knows process
  cases here : system.places process with
  | start =>
    have unreturned : system.places process ≠ .returned 0 := by simp [here]
    simp only [ListFiles.step, here] at stepEq
    split at stepEq
    next =>
      cases stepEq
      exact ⟨order, ordered.goto trivial unreturned (by simp)⟩
    next =>
      cases stepEq
      exact ⟨order, ordered.goto ordered.bound unreturned (by simp)⟩
  | opened inode =>
    have unreturned : system.places process ≠ .returned 0 := by simp [here]
    rw [here] at knows
    have locked : Knows system.contents system.fresh (calls process) (.locked inode) := knows
    cases inode with
    | none =>
      simp only [ListFiles.step, here, Option.some.injEq] at stepEq
      exact ⟨order, stepEq ▸ ordered.goto locked unreturned (by simp)⟩
    | some i =>
      simp only [ListFiles.step, here] at stepEq
      split at stepEq
      next =>
        split at stepEq
        next => exact ⟨order, Option.some.inj stepEq ▸
          ordered.goto locked unreturned (by simp)⟩
        next => cases stepEq
      next =>
        exact ⟨order, Option.some.inj stepEq ▸ ordered.goto locked unreturned (by simp)⟩
  | locked inode =>
    rw [here] at knows
    simp only [ListFiles.step, here, Option.some.injEq] at stepEq
    exact ⟨order, stepEq ▸ ordered.goto ⟨knows, rfl⟩ (by simp [here]) (by simp)⟩
  | copied inode found copy =>
    rw [here] at knows
    simp only [ListFiles.step, here, Option.some.injEq] at stepEq
    have unlocked : Knows system.contents system.fresh (calls process)
        (.unlocked inode found copy) := knows
    have kept : ∃ locks, (inode.elim system fun inode =>
        if granted then system.lockWith inode none else system) =
        { system with locks := locks } := by
      cases inode with
      | none => exact ⟨system.locks, rfl⟩
      | some i => cases granted <;> exact ⟨_, rfl⟩
    obtain ⟨locks, locksEq⟩ := kept
    rw [locksEq] at stepEq
    exact ⟨order, stepEq ▸ ordered.goto unlocked (by simp [here]) (by simp)⟩
  | unlocked inode found copy =>
    simp only [ListFiles.step, here, Option.some.injEq] at stepEq
    simp only [StillBound, here] at still
    exact stepEq ▸ ordered.finish here still
  | returned ret => simp [ListFiles.step, here] at stepEq

end Steps

/-- In every run in which a call changes the list only if the list is still the file
that it has copied, the list is what the successful calls leave one after another. -/
theorem stillBound_serialisable (granted : Bool) (calls : Process → Call)
    (file : Option Bytes) (schedule : List Process) (final : System Process)
    (guarded : Guarded (step granted calls) (StillBound calls) schedule (.initial file))
    (runs : run (step granted calls) schedule (.initial file) = some final) :
    Serialisable calls file final := by
  obtain ⟨order, ordered⟩ := invariant_of_guarded
    (fun system => ∃ order, Ordered calls file order system)
    (fun _ _ _ ⟨_, ordered⟩ still stepEq => ordered.step still stepEq)
    ⟨[], Ordered.of_initial file⟩ guarded runs
  exact ⟨order, ordered.nodup, ordered.mem_iff, congrArg lines ordered.list_eq⟩

end Processes

/-- `club_do_add_equal`. -/
def clubDoAddEqual : Equal :=
  fun buf str len => str.bytes.take len == buf.bytes.take len && buf.bytes[len]? == some 32

/-- `add_to_file` for the users `ann` and `bob`. -/
def sampleAdds : Bool → Call
  | false => .addToFile (.ofBytes [97, 110, 110, 32, 10]) 3 false (some clubDoAddEqual)
  | true => .addToFile (.ofBytes [98, 111, 98, 32, 10]) 3 false (some clubDoAddEqual)

/-- The second call opens the list after the first has renamed its copy. -/
def oneAfterAnother : List Bool :=
  [false, false, false, false, false, true, true, true, true, true]

theorem stillBound_serialisable_adds :
    Guarded (step true sampleAdds) (StillBound sampleAdds) oneAfterAnother
        (.initial none) ∧
      ∃ final, run (step true sampleAdds) oneAfterAnother (.initial none) = some final ∧
        Serialisable sampleAdds none final := by
  have guarded : Guarded (step true sampleAdds) (StillBound sampleAdds) oneAfterAnother
      (.initial none) := by decide
  exact ⟨guarded, _, rfl,
    stillBound_serialisable true sampleAdds none oneAfterAnother _ guarded rfl⟩

/-- Both calls open the list before either renames its copy: both succeed and one of the lines
is lost, although the lock is granted. -/
theorem added_line_lost :
    ∃ final, run (step true sampleAdds) interleaved (.initial (some [])) = some final ∧
      (∀ process, final.places process = .returned 0) ∧
      ¬Serialisable sampleAdds (some []) final := by
  have ends : (run (step true sampleAdds) interleaved (.initial (some []))).map
      (fun final => (final.list, final.places false, final.places true)) =
        some (some [98, 111, 98, 32, 10], .returned 0, .returned 0) := by decide
  obtain ⟨final, runs, seen⟩ := Option.map_eq_some_iff.mp ends
  simp only [Prod.mk.injEq] at seen
  obtain ⟨list, ann, bob⟩ := seen
  have both : ∀ process, final.places process = .returned 0 := by
    intro process
    cases process with
    | false => exact ann
    | true => exact bob
  refine ⟨final, runs, both, ?_⟩
  rintro ⟨order, nodup, mem_iff, same⟩
  -- The line of `ann` is there in either order.
  have perm : order.Perm [false, true] := by
    apply (List.perm_ext_iff_of_nodup nodup (by decide)).mpr
    intro process
    rw [mem_iff process]
    exact iff_of_true (both process) (by cases process <;> decide)
  have kept : [97, 110, 110, 32] ∈ lines (order.foldl
      (fun file process => perform (sampleAdds process) file) (some [])) := by
    obtain ⟨first, second, rfl⟩ := List.length_eq_two.mp perm.length_eq
    simp only [lines, Set.mem_ofPred_eq]
    cases first <;> cases second
    · exact absurd nodup (by decide)
    · decide
    · decide
    · exact absurd nodup (by decide)
  rw [← same, list] at kept
  simp only [lines, Set.mem_ofPred_eq] at kept
  exact absurd kept (by decide)

end ListFiles

end Fbbs
