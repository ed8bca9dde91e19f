import Mathlib.Logic.Function.Basic
import Fbbs.Parcel
import Fbbs.TransitionRuns

/-!
# The cache file of a post's content

`post_content_get` returns the cache file of a post if there is one; otherwise
it queries the content row, creates the file and fills it.  `post_content_set`
updates the row and then unlinks the file.  Each access to the row or to a file
is a step of its own, so a reader can open a file that is not filled yet, or one
that was filled from a row that has been updated since.
-/

namespace Fbbs

namespace ContentCache

/-- A file, named or not.  `written` and `version` are not on the disk: whether
its creator has filled it, and how many updates the creator's query had seen. -/
structure Inode where
  bytes : Bytes
  written : Bool
  version : Nat
  deriving DecidableEq

/-- Where a call of `post_content_get(id, true)` or `post_content_set(id, s)`
stands.  `since` is the number of updates before the call. -/
inductive Call
  | idle
  | opened (since inode : Nat)
  | sized (since inode size : Nat)
  | missed (since : Nat)
  | checked (since : Nat) (deleted : Bool)
  | queried (since : Nat) (str : CString) (version : Nat)
  | created (since : Nat) (str : CString) (version inode : Nat)
  | updated
  deriving DecidableEq

/-- A finished call: the contents that the row held during it, and its result. -/
structure Return where
  held : List CString
  str : CString
  deriving DecidableEq

/-- The content row with the values it had before, the cache file and the
tombstone file of a post; `fresh` is an inode that was never used. -/
structure System where
  earlier : List CString
  content : CString
  cache : Option Nat
  inodes : Nat → Inode
  fresh : Nat
  tombstone : Bool
  calls : Nat → Call
  returns : List Return

/-- The values of the row up to now. -/
def System.values (system : System) : List CString :=
  system.earlier ++ [system.content]

/-- The number of updates up to now. -/
def System.version (system : System) : Nat :=
  system.earlier.length

/-- The values of the row since the given number of updates. -/
def System.heldSince (system : System) (since : Nat) : List CString :=
  system.values.drop since

inductive Action
  | openCache (process : Nat)
  | fstat (process : Nat)
  | read (process : Nat)
  | dashf (process : Nat)
  | query (process : Nat)
  | create (process : Nat)
  | write (process : Nat)
  | update (process : Nat) (str : CString)
  | unlink (process : Nat)
  deriving DecidableEq

def System.goto (system : System) (process : Nat) (call : Call) : System :=
  { system with calls := Function.update system.calls process call }

/-- `post_content_get` returns. -/
def System.finish (system : System) (process since : Nat) (str : CString) : System :=
  { system with
    calls := Function.update system.calls process .idle
    returns := system.returns ++ [⟨system.heldSince since, str⟩] }

def System.store (system : System) (index : Nat) (inode : Inode) : System :=
  { system with inodes := Function.update system.inodes index inode }

/-- An empty file under the name of the cache file. -/
def System.newFile (system : System) (version : Nat) : System :=
  { system with cache := some system.fresh, fresh := system.fresh + 1 }.store
    system.fresh ⟨[], false, version⟩

def step (system : System) : Action → Option System
  | .openCache process =>
    match system.calls process, system.cache with
    | .idle, some inode => some (system.goto process (.opened system.version inode))
    | .idle, none => some (system.goto process (.missed system.version))
    | _, _ => none
  | .fstat process =>
    match system.calls process with
    | .opened since inode =>
      some (system.goto process
        (.sized since inode (system.inodes inode).bytes.length))
    | _ => none
  | .read process =>
    match system.calls process with
    | .sized since inode size =>
      some (system.finish process since
        (.ofBytes ((system.inodes inode).bytes.take size)))
    | _ => none
  | .dashf process =>
    match system.calls process with
    | .missed since => some (system.goto process (.checked since system.tombstone))
    | _ => none
  | .query process =>
    match system.calls process with
    | .checked since deleted =>
      if deleted then some (system.finish process since system.content)
      else
        some (system.goto process (.queried since system.content system.version))
    | _ => none
  | .create process =>
    match system.calls process, system.cache with
    | .queried since str version, none =>
      some ((system.newFile version).goto process
        (.created since str version system.fresh))
    -- The file exists, and `O_EXCL` makes `open` fail.
    | .queried since str _, some _ => some (system.finish process since str)
    | _, _ => none
  | .write process =>
    match system.calls process with
    | .created since str version inode =>
      some ((system.store inode ⟨str.bytes, true, version⟩).finish process since str)
    | _ => none
  | .update process str =>
    match system.calls process with
    | .idle =>
      some ({ system with
        earlier := system.earlier ++ [system.content]
        content := str }.goto process .updated)
    | _ => none
  | .unlink process =>
    match system.calls process with
    | .updated => some ({ system with cache := none }.goto process .idle)
    | _ => none

/-- Before the calls: the post is not deleted, and its cache file, if any, holds
the content of the row. -/
structure Initial (system : System) : Prop where
  idle : ∀ process, system.calls process = .idle
  present : system.tombstone = false
  cached : ∀ inode, system.cache = some inode → inode < system.fresh ∧
    system.inodes inode = ⟨system.content.bytes, true, system.version⟩
  unused : ∀ inode, system.cache ≠ some inode → (system.inodes inode).written = false
  noReturns : system.returns = []

def Call.opening : Call → Option Nat
  | .opened _ inode => some inode
  | _ => none

/-- The row has not been updated between the query that a cache file was created
for and the opening of the file, and the file has been filled when its size is
taken. -/
def ReadsCurrent (system : System) : Action → Prop
  | .openCache process =>
    system.calls process = .idle → ∀ inode ∈ system.cache,
      (system.inodes inode).version = system.version
  | .fstat process =>
    ∀ inode ∈ (system.calls process).opening, (system.inodes inode).written = true
  | _ => True

instance decidableReadsCurrent (system : System) :
    (action : Action) → Decidable (ReadsCurrent system action)
  | .openCache process => inferInstanceAs (Decidable (system.calls process = .idle →
      ∀ inode ∈ system.cache, (system.inodes inode).version = system.version))
  | .fstat process => inferInstanceAs (Decidable (∀ inode ∈
      (system.calls process).opening, (system.inodes inode).written = true))
  | .read _ => isTrue trivial
  | .dashf _ => isTrue trivial
  | .query _ => isTrue trivial
  | .create _ => isTrue trivial
  | .write _ => isTrue trivial
  | .update _ _ => isTrue trivial
  | .unlink _ => isTrue trivial

def Call.creating : Call → Option Nat
  | .created _ _ _ inode => some inode
  | _ => none

/-- The file holds a value of the row, and stays as it is. -/
def System.HoldsValue (system : System) (inode : Nat) (str : CString) : Prop :=
  inode < system.fresh ∧ (system.inodes inode).written = true ∧
    (system.inodes inode).bytes = str.bytes

/-- What a call knows at each place. -/
def CallSound (system : System) : Call → Prop
  | .opened since inode =>
    inode < system.fresh ∧ ∃ str ∈ system.heldSince since,
      system.values[(system.inodes inode).version]? = some str
  | .sized since inode size =>
    ∃ str ∈ system.heldSince since, system.HoldsValue inode str ∧
      size = str.bytes.length
  | .missed since => since ≤ system.version
  | .checked since _ => since ≤ system.version
  | .queried since str version =>
    str ∈ system.heldSince since ∧ system.values[version]? = some str
  | .created since str version inode =>
    str ∈ system.heldSince since ∧ system.values[version]? = some str ∧
      inode < system.fresh ∧ (system.inodes inode).version = version ∧
      (system.inodes inode).written = false
  | _ => True

/-- Filled files hold the values they are tagged with, and every string returned
so far was held during its call. -/
structure Sound (system : System) : Prop where
  named : ∀ inode ∈ system.cache, inode < system.fresh
  filled : ∀ inode, (system.inodes inode).written = true →
    ∃ str, system.values[(system.inodes inode).version]? = some str ∧
      (system.inodes inode).bytes = str.bytes
  calls : ∀ process, CallSound system (system.calls process)
  owners : ∀ process other inode, (system.calls process).creating = some inode →
    (system.calls other).creating = some inode → process = other
  returned : ∀ ret ∈ system.returns, ret.str ∈ ret.held

theorem Sound.of_initial {system : System} (initial : Initial system) :
    Sound system where
  named inode named := (initial.cached inode named).1
  filled inode written := by
    by_cases named : system.cache = some inode
    · rw [(initial.cached inode named).2]
      refine ⟨system.content, ?_, rfl⟩
      simp [System.values, System.version]
    · rw [initial.unused inode named] at written
      cases written
  calls process := by
    rw [initial.idle process]
    trivial
  owners process other inode creating := by
    rw [initial.idle process] at creating
    cases creating
  returned ret member := by
    rw [initial.noReturns] at member
    cases member

theorem System.content_mem_heldSince {system : System} {since : Nat}
    (started : since ≤ system.version) : system.content ∈ system.heldSince since := by
  rw [System.heldSince, System.values, List.drop_append_of_le_length started]
  exact List.mem_append_right _ List.mem_cons_self

theorem System.values_version (system : System) :
    system.values[system.version]? = some system.content := by
  simp [System.values, System.version]

/-- The row and the filled files only get more. -/
structure Grows (system next : System) : Prop where
  values : system.values <+: next.values
  fresh : system.fresh ≤ next.fresh
  version : ∀ inode, inode < system.fresh →
    (next.inodes inode).version = (system.inodes inode).version
  kept : ∀ inode, inode < system.fresh → (system.inodes inode).written = true →
    next.inodes inode = system.inodes inode

theorem Grows.heldSince {system next : System} (grows : Grows system next)
    {since : Nat} {str : CString} (held : str ∈ system.heldSince since) :
    str ∈ next.heldSince since := by
  obtain ⟨more, valuesEq⟩ := grows.values
  rw [System.heldSince, ← valuesEq, List.drop_append]
  exact List.mem_append_left _ held

theorem Grows.value {system next : System} (grows : Grows system next)
    {version : Nat} {str : CString} (value : system.values[version]? = some str) :
    next.values[version]? = some str := by
  obtain ⟨more, valuesEq⟩ := grows.values
  obtain ⟨inside, -⟩ := List.getElem?_eq_some_iff.mp value
  rw [← valuesEq, List.getElem?_append_left inside]
  exact value

theorem Grows.updates {system next : System} (grows : Grows system next) :
    system.version ≤ next.version := by
  have lengths := grows.values.length_le
  simp only [System.values, List.length_append, List.length_singleton] at lengths
  exact Nat.le_of_add_le_add_right lengths

theorem Grows.holdsValue {system next : System} (grows : Grows system next)
    {inode : Nat} {str : CString} (holds : system.HoldsValue inode str) :
    next.HoldsValue inode str := by
  obtain ⟨used, written, bytesEq⟩ := holds
  unfold System.HoldsValue
  rw [grows.kept inode used written]
  exact ⟨used.trans_le grows.fresh, written, bytesEq⟩

/-- What a call knows stays true while others go on; a file that it is creating
is left to it. -/
theorem CallSound.grows {system next : System} (grows : Grows system next)
    {call : Call} (sound : CallSound system call)
    (unwritten : ∀ inode ∈ call.creating, (next.inodes inode).written = false) :
    CallSound next call := by
  cases call with
  | idle => trivial
  | updated => trivial
  | opened since inode =>
    obtain ⟨used, str, held, value⟩ := sound
    refine ⟨used.trans_le grows.fresh, str, grows.heldSince held, ?_⟩
    rw [grows.version inode used]
    exact grows.value value
  | sized since inode size =>
    obtain ⟨str, held, holds, sizeEq⟩ := sound
    exact ⟨str, grows.heldSince held, grows.holdsValue holds, sizeEq⟩
  | missed since => exact Nat.le_trans sound grows.updates
  | checked since deleted => exact Nat.le_trans sound grows.updates
  | queried since str version => exact ⟨grows.heldSince sound.1, grows.value sound.2⟩
  | created since str version inode =>
    obtain ⟨held, value, used, versionEq, -⟩ := sound
    exact ⟨grows.heldSince held, grows.value value, used.trans_le grows.fresh,
      (grows.version inode used).trans versionEq, unwritten inode rfl⟩

/-- What the call knows where it stands. -/
theorem Sound.known {system : System} (sound : Sound system) {process : Nat} {call : Call}
    (stands : system.calls process = call) : CallSound system call :=
  stands ▸ sound.calls process

/-- A call goes on without changing the row or a file. -/
theorem Sound.goto {system : System} (sound : Sound system) (process : Nat)
    {call : Call} (callSound : CallSound system call) (free : call.creating = none) :
    Sound (system.goto process call) where
  named := sound.named
  filled := sound.filled
  calls other := by
    by_cases same : other = process
    · subst other
      simp only [System.goto, Function.update_self]
      exact callSound
    · simp only [System.goto, Function.update_of_ne same]
      exact sound.calls other
  owners first second inode := by
    by_cases firstSame : first = process
    · subst first
      simp only [System.goto, Function.update_self, free]
      exact fun impossible => nomatch impossible
    · by_cases secondSame : second = process
      · subst second
        simp only [System.goto, Function.update_self, free]
        exact fun _ impossible => nomatch impossible
      · simp only [System.goto, Function.update_of_ne firstSame,
          Function.update_of_ne secondSame]
        exact sound.owners first second inode
  returned := sound.returned

/-- A call returns a string that was held during it. -/
theorem Sound.finish {system : System} (sound : Sound system) (process : Nat)
    {since : Nat} {str : CString} (held : str ∈ system.heldSince since) :
    Sound (system.finish process since str) := by
  have idle : Sound (system.goto process .idle) := sound.goto process trivial rfl
  refine ⟨idle.named, idle.filled, idle.calls, idle.owners, ?_⟩
  intro ret member
  rcases List.mem_append.mp member with old | new
  · exact sound.returned ret old
  · rw [List.mem_singleton.mp new]
    exact held

theorem Sound.unlink {system : System} (sound : Sound system) :
    Sound { system with cache := none } where
  named _ impossible := nomatch impossible
  filled := sound.filled
  calls := sound.calls
  owners := sound.owners
  returned := sound.returned

/-- A file that a call is creating is not filled. -/
theorem Sound.unwritten {system : System} (sound : Sound system) {process inode : Nat}
    (creating : (system.calls process).creating = some inode) :
    inode < system.fresh ∧ (system.inodes inode).written = false := by
  have known := sound.calls process
  cases call : system.calls process <;> rw [call] at creating known <;> cases creating
  exact ⟨known.2.2.1, known.2.2.2.2⟩

theorem Sound.update {system : System} (sound : Sound system) (str : CString) :
    Sound { system with earlier := system.earlier ++ [system.content], content := str } := by
  have grows : Grows system
      { system with earlier := system.earlier ++ [system.content], content := str } :=
    ⟨List.prefix_append _ _, Nat.le_refl _, fun _ _ => rfl, fun _ _ _ => rfl⟩
  refine ⟨sound.named, ?_, ?_, sound.owners, sound.returned⟩
  · intro inode written
    obtain ⟨value, valueEq, bytesEq⟩ := sound.filled inode written
    exact ⟨value, grows.value valueEq, bytesEq⟩
  · intro process
    exact (sound.calls process).grows grows fun inode creating =>
      (sound.unwritten creating).2

theorem Sound.newFile {system : System} (sound : Sound system) (version : Nat) :
    Grows system (system.newFile version) ∧ Sound (system.newFile version) := by
  have other : ∀ inode, inode < system.fresh →
      (system.newFile version).inodes inode = system.inodes inode := by
    intro inode used
    exact Function.update_of_ne (Nat.ne_of_lt used) ..
  have grows : Grows system (system.newFile version) :=
    ⟨List.prefix_refl _, Nat.le_succ _,
      fun inode used => congrArg Inode.version (other inode used),
      fun inode used _ => other inode used⟩
  refine ⟨grows, ?_, ?_, ?_, sound.owners, sound.returned⟩
  · intro inode named
    cases named
    exact Nat.lt_succ_self _
  · intro inode
    by_cases same : inode = system.fresh
    · subst inode
      simp [System.newFile, System.store]
    · simp only [System.newFile, System.store, Function.update_of_ne same]
      exact sound.filled inode
  · intro process
    refine (sound.calls process).grows grows fun inode creating => ?_
    obtain ⟨used, unwritten⟩ := sound.unwritten creating
    rw [other inode used]
    exact unwritten

theorem Sound.create {system : System} (sound : Sound system) {process since version : Nat}
    {str : CString} (queried : system.calls process = .queried since str version) :
    Sound ((system.newFile version).goto process
      (.created since str version system.fresh)) := by
  obtain ⟨grows, after⟩ := sound.newFile version
  have known := sound.known queried
  have elsewhere : ∀ other, ((system.newFile version).calls other).creating ≠
      some system.fresh := by
    intro other creating
    exact absurd (sound.unwritten creating).1 (Nat.lt_irrefl _)
  refine ⟨after.named, after.filled, ?_, ?_, after.returned⟩
  · intro other
    by_cases same : other = process
    · subst other
      simp only [System.goto, Function.update_self]
      exact ⟨grows.heldSince known.1, grows.value known.2, Nat.lt_succ_self _,
        by simp [System.newFile, System.store], by simp [System.newFile, System.store]⟩
    · simp only [System.goto, Function.update_of_ne same]
      exact after.calls other
  · intro first second inode
    by_cases firstSame : first = process
    · by_cases secondSame : second = process
      · exact fun _ _ => firstSame.trans secondSame.symm
      · subst first
        simp only [System.goto, Function.update_self, Function.update_of_ne secondSame,
          Call.creating]
        rintro ⟨⟩ creating
        exact absurd creating (elsewhere second)
    · by_cases secondSame : second = process
      · subst second
        simp only [System.goto, Function.update_self, Function.update_of_ne firstSame]
        rintro creating ⟨⟩
        exact absurd creating (elsewhere first)
      · simp only [System.goto, Function.update_of_ne firstSame,
          Function.update_of_ne secondSame]
        exact after.owners first second inode

/-- Filling a file that nobody else is creating. -/
theorem Sound.fill {system : System} (sound : Sound system) {inode version : Nat}
    {str : CString} (versionEq : (system.inodes inode).version = version)
    (unwritten : (system.inodes inode).written = false)
    (value : system.values[version]? = some str)
    (left : ∀ process, (system.calls process).creating ≠ some inode) :
    Sound (system.store inode ⟨str.bytes, true, version⟩) := by
  have other : ∀ index, index ≠ inode →
      (system.store inode ⟨str.bytes, true, version⟩).inodes index =
        system.inodes index := by
    intro index apart
    exact Function.update_of_ne apart ..
  have grows : Grows system (system.store inode ⟨str.bytes, true, version⟩) := by
    refine ⟨List.prefix_refl _, Nat.le_refl _, fun index _ => ?_,
      fun index _ written => ?_⟩
    · by_cases same : index = inode
      · subst index
        simp only [System.store, Function.update_self]
        exact versionEq.symm
      · rw [other index same]
    · refine other index fun same => ?_
      rw [same, unwritten] at written
      cases written
  refine ⟨sound.named, ?_, ?_, sound.owners, sound.returned⟩
  · intro index
    by_cases same : index = inode
    · subst index
      simp only [System.store, Function.update_self]
      exact fun _ => ⟨str, value, rfl⟩
    · rw [other index same]
      exact sound.filled index
  · intro process
    refine (sound.calls process).grows grows fun index creating => ?_
    rw [other index fun same => left process (same ▸ creating)]
    exact (sound.unwritten creating).2

theorem Sound.write {system : System} (sound : Sound system)
    {process since version inode : Nat} {str : CString}
    (created : system.calls process = .created since str version inode) :
    Sound ((system.store inode ⟨str.bytes, true, version⟩).finish process since str) := by
  obtain ⟨held, value, -, versionEq, unwritten⟩ := sound.known created
  have idle : Sound (system.goto process .idle) := sound.goto process trivial rfl
  have left : ∀ other, ((system.goto process .idle).calls other).creating ≠ some inode := by
    intro other creating
    by_cases same : other = process
    · subst other
      simp [System.goto, Call.creating] at creating
    · simp only [System.goto, Function.update_of_ne same] at creating
      exact same (sound.owners other process inode creating (by rw [created]; rfl))
  have filled := (idle.fill versionEq unwritten value left).finish process held
  simpa only [System.finish, System.store, System.goto, Function.update_idem,
    System.heldSince, System.values] using filled

theorem Sound.openCache {system : System} (sound : Sound system) (process : Nat)
    {inode : Nat} (named : system.cache = some inode)
    (current : (system.inodes inode).version = system.version) :
    Sound (system.goto process (.opened system.version inode)) := by
  apply sound.goto process _ rfl
  refine ⟨sound.named inode named, system.content,
    System.content_mem_heldSince (Nat.le_refl _), ?_⟩
  rw [current]
  exact system.values_version

theorem Sound.fstat {system : System} (sound : Sound system) {process since inode : Nat}
    (opened : system.calls process = .opened since inode)
    (written : (system.inodes inode).written = true) :
    Sound (system.goto process
      (.sized since inode (system.inodes inode).bytes.length)) := by
  obtain ⟨used, str, held, value⟩ := sound.known opened
  obtain ⟨other, otherValue, bytesEq⟩ := sound.filled inode written
  rw [value, Option.some.injEq] at otherValue
  subst other
  apply sound.goto process _ rfl
  exact ⟨str, held, ⟨used, written, bytesEq⟩, congrArg List.length bytesEq⟩

theorem Sound.read {system : System} (sound : Sound system)
    {process since inode size : Nat}
    (sized : system.calls process = .sized since inode size) :
    Sound (system.finish process since
      (.ofBytes ((system.inodes inode).bytes.take size))) := by
  obtain ⟨str, held, ⟨-, -, bytesEq⟩, rfl⟩ := sound.known sized
  rw [bytesEq, List.take_length, CString.ofBytes_bytes]
  exact sound.finish process held

/-- Every step keeps the strings sound if current files are read. -/
theorem Sound.step {system next : System} {action : Action} (sound : Sound system)
    (current : ReadsCurrent system action)
    (stepEq : step system action = some next) : Sound next := by
  cases action with
  | openCache process =>
    cases call : system.calls process <;> cases cache : system.cache <;>
      simp only [ContentCache.step, call, cache, reduceCtorEq, Option.some.injEq]
        at stepEq
    · exact stepEq ▸ sound.goto process (Nat.le_refl system.version) rfl
    · exact stepEq ▸ sound.openCache process cache (current call _ cache)
  | fstat process =>
    cases call : system.calls process <;>
      simp only [ContentCache.step, call, reduceCtorEq, Option.some.injEq] at stepEq
    exact stepEq ▸ sound.fstat call (current _ (by rw [call]; rfl))
  | read process =>
    cases call : system.calls process <;>
      simp only [ContentCache.step, call, reduceCtorEq, Option.some.injEq] at stepEq
    exact stepEq ▸ sound.read call
  | dashf process =>
    cases call : system.calls process <;>
      simp only [ContentCache.step, call, reduceCtorEq, Option.some.injEq] at stepEq
    have started := sound.known call
    exact stepEq ▸ sound.goto process started rfl
  | query process =>
    cases call : system.calls process <;>
      simp only [ContentCache.step, call, reduceCtorEq] at stepEq
    have held := System.content_mem_heldSince (sound.known call)
    split at stepEq
    · cases stepEq
      exact sound.finish process held
    · cases stepEq
      exact sound.goto process ⟨held, system.values_version⟩ rfl
  | create process =>
    cases call : system.calls process <;> cases cache : system.cache <;>
      simp only [ContentCache.step, call, cache, reduceCtorEq, Option.some.injEq]
        at stepEq
    · exact stepEq ▸ sound.create call
    · exact stepEq ▸ sound.finish process (sound.known call).1
  | write process =>
    cases call : system.calls process <;>
      simp only [ContentCache.step, call, reduceCtorEq, Option.some.injEq] at stepEq
    exact stepEq ▸ sound.write call
  | update process str =>
    cases call : system.calls process <;>
      simp only [ContentCache.step, call, reduceCtorEq, Option.some.injEq] at stepEq
    exact stepEq ▸ (sound.update str).goto process trivial rfl
  | unlink process =>
    cases call : system.calls process <;>
      simp only [ContentCache.step, call, reduceCtorEq, Option.some.injEq] at stepEq
    exact stepEq ▸ sound.unlink.goto process trivial rfl

/-- In every run in which only current cache files are read, every string that
`post_content_get` returns was a content of the row during the call. -/
theorem returned_strings_held {start final : System} {actions : List Action}
    (initial : Initial start)
    (runs : TransitionRuns.run step actions start = some final)
    (current : TransitionRuns.Guarded step ReadsCurrent actions start) :
    ∀ ret ∈ final.returns, ret.str ∈ ret.held := by
  have sound : Sound final := TransitionRuns.invariant_of_guarded Sound
    (fun _ _ _ sound current stepEq => sound.step current stepEq)
    (Sound.of_initial initial) current runs
  exact sound.returned

def sampleOld : CString := ⟨[97], by decide⟩

def sampleNew : CString := ⟨[98], by decide⟩

/-- A post whose content is cached or not. -/
def sampleStart (cached : Bool) : System where
  earlier := []
  content := sampleOld
  cache := if cached then some 0 else none
  inodes inode := ⟨sampleOld.bytes, cached && inode == 0, 0⟩
  fresh := 1
  tombstone := false
  calls _ := .idle
  returns := []

theorem sampleStart_initial (cached : Bool) : Initial (sampleStart cached) := by
  refine ⟨fun _ => rfl, rfl, ?_, ?_, rfl⟩
  · intro inode named
    cases cached with
    | false => cases named
    | true =>
      cases named
      exact ⟨Nat.zero_lt_one, rfl⟩
  · intro inode unnamed
    cases cached with
    | false => rfl
    | true =>
      have apart : inode ≠ 0 := fun same => unnamed (same ▸ rfl)
      simpa [sampleStart] using apart

/-- A call that fills the cache, one that reads it, and an update in between. -/
def sampleCalls : List Action :=
  [.openCache 0, .dashf 0, .query 0, .create 0, .write 0, .openCache 1, .fstat 1,
    .update 2 sampleNew, .unlink 2, .read 1]

theorem returned_strings_held_sample :
    ∃ final, TransitionRuns.run step sampleCalls (sampleStart false) = some final ∧
      final.returns.length = 2 ∧ ∀ ret ∈ final.returns, ret.str ∈ ret.held := by
  have current : TransitionRuns.Guarded step ReadsCurrent sampleCalls
      (sampleStart false) := by decide
  exact ⟨_, rfl, rfl, returned_strings_held (sampleStart_initial false) rfl current⟩

/-- Between the update and the unlinking, a call returns the old content, which
the row did not hold during the call. -/
theorem stale_content :
    Initial (sampleStart true) ∧
      ∃ final, TransitionRuns.run step
          [.update 1 sampleNew, .openCache 0, .fstat 0, .read 0] (sampleStart true) =
            some final ∧
        ¬ ∀ ret ∈ final.returns, ret.str ∈ ret.held := by
  refine ⟨sampleStart_initial true, _, rfl, ?_⟩
  decide

end ContentCache

end Fbbs
