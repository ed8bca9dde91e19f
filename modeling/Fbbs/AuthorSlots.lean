import Fbbs.AccountRuns
import Fbbs.PostCounts

/-!
# The accounts that deleting posts touches

`adjust_user_post_count` of `backend/post.c` searches for the author of a deleted or restored
post and reads and writes `uidshm->passwd` at the slot before the one that `searchuser`
returns.  For an author without an account this is the record before the first.
-/

namespace Fbbs

namespace Post

open SqlRows UserCache

/-- An access to `uidshm->passwd` for an author. -/
structure Access where
  author : CString
  index : Int
  deriving DecidableEq

/-- The index at which `adjust_user_post_count` reads and writes; `none` if the search reads
past the end of the name or does not end. -/
def adjustAccess (users : UserCache) (uname : CString) : Option Access :=
  (searchuser users uname).map fun (unum : Nat) => ⟨uname, (unum : Int) - 1⟩

def DeletedRow.author (row : DeletedRow) : CString :=
  row.post.userName.getD .empty

/-- The accesses of the loop over the returned rows.  Behind an access outside of the array
the memory is not what it was, and nothing more is listed. -/
def authorAccesses (delta : Int32) : List DeletedRow → UserCache → List (Option Access)
  | [], _ => []
  | row :: rows, users =>
    if adjusts row then
      adjustAccess users row.author ::
        ((adjustUserPostCount users row.author delta).map
          (authorAccesses delta rows)).getD []
    else authorAccesses delta rows users

/-- `post_delete` and `post_undelete`. -/
inductive Removal
  | postDelete (now : Int64) (req : BackendRequestPostDelete)
  | postUndelete (req : BackendRequestPostUndelete)

def Removal.request : Removal → Request
  | .postDelete now req => .postDelete now req
  | .postUndelete req => .postUndelete req

def Removal.delta : Removal → Int32
  | .postDelete _ _ => -1
  | .postUndelete _ => 1

section Handlers

variable (ilike : CString → CString → Bool) (getBoardByBid : Int32 → Option Board)

/-- The rows over which the handler loops. -/
def Removal.rows (tables : Tables) : Removal → List DeletedRow
  | .postDelete now req => (deleteRows ilike getBoardByBid now req tables).2
  | .postUndelete req => (undeletedRows ilike req tables).reverse

def Removal.accesses (server : Server) (removal : Removal) : List (Option Access) :=
  authorAccesses removal.delta (removal.rows ilike getBoardByBid server.tables) server.users

end Handlers

/-- The access is to the record of the author. -/
def Access.Own (users : UserCache) (access : Access) : Prop :=
  0 ≤ access.index ∧ access.index < maxUsers ∧
    strncaseeq (idLen + 1) access.author (users.userid access.index.toNat).str = true

/-- Every access is to the record of the author. -/
def TouchesAuthors (users : UserCache) (accesses : List (Option Access)) : Prop :=
  ∀ made ∈ accesses, ∃ access, made = some access ∧ access.Own users

/-- The search finds a slot of the array for the name. -/
def HasSlot (users : UserCache) (name : CString) : Prop :=
  ∃ slot, searchuser users name = some slot ∧ 1 ≤ slot ∧ slot ≤ maxUsers

theorem searchChain_found {cache : UserCache} {userid : CString} {fuel i slot : Nat}
    (found : searchChain cache userid fuel i = some (slot + 1)) :
    strncaseeq (idLen + 1) userid (cache.userid slot).str = true := by
  induction fuel generalizing i with
  | zero => cases found
  | succ fuel ih =>
    cases i with
    | zero => cases found
    | succ i =>
      rw [searchChain] at found
      split at found
      · rename_i same
        rw [Option.some.injEq, Nat.add_right_cancel_iff] at found
        rwa [← found]
      · exact ih found

theorem searchuser_found {cache : UserCache} {userid : CString} {slot : Nat}
    (found : searchuser cache userid = some (slot + 1)) :
    strncaseeq (idLen + 1) userid (cache.userid slot).str = true := by
  rw [searchuser, Option.bind_eq_some_iff] at found
  obtain ⟨bucket, -, inChain⟩ := found
  exact searchChain_found inChain

/-- One call touches the record of its author exactly if the search finds a slot. -/
theorem adjustAccess_own_iff (users : UserCache) (name : CString) :
    (∃ access, adjustAccess users name = some access ∧ access.Own users) ↔
      HasSlot users name := by
  constructor
  · rintro ⟨access, made, nonneg, below, -⟩
    obtain ⟨slot, found, rfl⟩ := Option.map_eq_some_iff.mp made
    refine ⟨slot, found, ?_, ?_⟩
    · simp only at nonneg
      omega
    · simp only at below
      omega
  · rintro ⟨slot, found, positive, inside⟩
    obtain ⟨before, rfl⟩ := Nat.exists_eq_add_of_le' positive
    refine ⟨⟨name, (before + 1 : Nat) - 1⟩, by rw [adjustAccess, found]; rfl, ?_, ?_, ?_⟩
    · simp only
      omega
    · simp only
      omega
    · have index : ((before + 1 : Nat) - 1 : Int).toNat = before := by omega
      simp only [index]
      exact searchuser_found found

theorem hasSlot_passwd (users : UserCache) (passwd : Nat → Userec) (name : CString) :
    HasSlot { users with passwd := passwd } name ↔ HasSlot users name := by
  unfold HasSlot
  rw [searchuser_passwd]

/-- The loop touches the records of the authors exactly if they all have a slot. -/
theorem authorAccesses_iff (delta : Int32) (rows : List DeletedRow) (users : UserCache) :
    TouchesAuthors users (authorAccesses delta rows users) ↔
      ∀ row ∈ rows, adjusts row = true → HasSlot users row.author := by
  induction rows generalizing users with
  | nil => simp [TouchesAuthors, authorAccesses]
  | cons row rows ih =>
    rw [authorAccesses, List.forall_mem_cons]
    by_cases counted : adjusts row = true
    · rw [if_pos counted, TouchesAuthors, List.forall_mem_cons, adjustAccess_own_iff]
      simp only [counted, forall_const]
      apply and_congr_right
      rintro ⟨slot, found, inside⟩
      -- Only the records change, which neither the search nor the later accesses look at.
      obtain ⟨passwd, adjusted, -⟩ := adjustUserPostCount_eq found inside delta
      rw [adjusted, Option.map_some, Option.getD_some]
      have later := ih { users with passwd := passwd }
      simp only [hasSlot_passwd] at later
      exact later
    · rw [if_neg counted, ih]
      simp [counted]

/-- A handler touches only the records of the authors of its rows exactly if the search finds
each of them. -/
theorem removal_touchesAuthors_iff (ilike : CString → CString → Bool)
    (getBoardByBid : Int32 → Option Board) (server : Server) (removal : Removal) :
    TouchesAuthors server.users (removal.accesses ilike getBoardByBid server) ↔
      ∀ row ∈ removal.rows ilike getBoardByBid server.tables,
        adjusts row = true → HasSlot server.users row.author :=
  authorAccesses_iff removal.delta _ server.users

/-- A post of `ab`, whose account has been removed. -/
def orphanedPost : PostRow where
  id := 1
  replyId := some 1
  threadId := some 1
  userId := some 7
  userIdReplied := some 0
  realUserId := some 7
  userName := some sampleName
  boardId := some 1
  boardName := none
  digest := some false
  marked := some false
  locked := some false
  imported := some false
  water := some false
  attachment := some false
  sticky := some false
  title := none

/-- A cache without accounts. -/
def orphanedServer : Server :=
  ⟨⟨[orphanedPost], []⟩, { sampleUsers with hash := fun _ _ _ => 0 }, 0⟩

/-- Deleting the post as junk writes before the first record. -/
theorem orphanedPost_touches_foreign :
    (Removal.postDelete 0 ⟨sampleFilter 0, true, true, false, 9, none⟩).accesses
        (fun _ _ => false) (fun _ => some ⟨0⟩) orphanedServer = [some ⟨sampleName, -1⟩] ∧
      ¬TouchesAuthors orphanedServer.users
        ((Removal.postDelete 0 ⟨sampleFilter 0, true, true, false, 9, none⟩).accesses
          (fun _ _ => false) (fun _ => some ⟨0⟩) orphanedServer) := by
  have made : (Removal.postDelete 0 ⟨sampleFilter 0, true, true, false, 9, none⟩).accesses
      (fun _ _ => false) (fun _ => some ⟨0⟩) orphanedServer = [some ⟨sampleName, -1⟩] := by
    decide
  refine ⟨made, fun touches => ?_⟩
  rw [made] at touches
  obtain ⟨access, isAccess, nonneg, -⟩ := touches _ List.mem_cons_self
  rw [Option.some.injEq] at isAccess
  rw [← isAccess] at nonneg
  exact absurd nonneg (by decide)

end Post

end Fbbs
