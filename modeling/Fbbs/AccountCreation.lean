import Fbbs.AccountRuns

/-!
# Whether creating an account is atomic

`create_user` inserts a row into `users` before it locks the user cache and looks
for a free slot.  If one of these fails, it returns an error, but the row stays.
-/

namespace Fbbs

namespace UserTable

open UserCache LinkedChains

/-- A cache that `load_ucache` and later calls can leave behind. -/
structure WellFormed (table : UserTable) : Prop where
  threaded : ∃ chains, Threaded table chains
  live_le : ∀ slot, table.Live slot → slot ≤ table.number
  number_le : table.number ≤ maxUsers

theorem Consistent.wellFormed {table : UserTable} {chains : Bucket → List Nat}
    (consistent : Consistent table chains) : WellFormed table :=
  ⟨⟨chains, consistent.threaded⟩, consistent.live_le, consistent.number_le⟩

/-- Every slot holds an account. -/
def Full (table : UserTable) : Prop :=
  ∀ slot, 1 ≤ slot → slot ≤ maxUsers → table.Live slot

theorem searchnewuser_eq_zero_iff {table : UserTable} (wellFormed : WellFormed table) :
    table.searchnewuser = 0 ↔ Full table := by
  constructor
  · intro notFound slot positive inside
    rw [searchnewuser] at notFound
    split at notFound
    · exact absurd notFound (Nat.succ_ne_zero _)
    · rename_i noneFree
      split at notFound
      · exact absurd notFound (Nat.succ_ne_zero _)
      · rename_i noRoom
        have occupied := List.find?_eq_none.mp noneFree (slot - 1) (List.mem_range.mpr (by omega))
        exact ⟨positive, inside, fun isFree => occupied (decide_eq_true isFree)⟩
  · intro full
    by_contra found
    obtain ⟨inside, free⟩ := searchnewuser_spec wellFormed.live_le wellFormed.number_le found
    exact (full _ (Nat.one_le_iff_ne_zero.mpr found) inside).2.2 free

/-- The rows of `alive_users`. -/
def aliveUsers (users : List UsersRow) : List UsersRow :=
  users.filter UsersRow.alive

/-- One row and one slot have been added for an account. -/
def OneAdded (sys sys' : AccountSystem) (user : Account) : Prop :=
  (∃ id, aliveUsers sys'.users =
    aliveUsers sys.users ++ [⟨id, user.userid.str, user.passwd.str, true⟩]) ∧
  ∃ slot, ¬sys.table.Live slot ∧ sys'.table.Live slot ∧
    (∀ i, i ≠ 0 → sys'.table.name i = if i = slot then user.userid.str else sys.table.name i) ∧
    sys'.table.passwd = Function.update sys.table.passwd (slot - 1) user.toUserec ∧
    sys'.table.details = Function.update sys.table.details (slot - 1) user.toUserDetails

/-- An error leaves the rows and the cache as they were, and success adds one
row and one slot. -/
def Atomic (outside : Outside) (sys : AccountSystem) (user : Account) : Prop :=
  ∃ ret sys', createUser outside sys user = some (ret, sys') ∧
    (ret < 0 → aliveUsers sys'.users = aliveUsers sys.users ∧ sys'.table = sys.table) ∧
    (ret = 0 → OneAdded sys sys' user)

/-- The database accepts the row. -/
def RowInserted (outside : Outside) (sys : AccountSystem) (user : Account) : Prop :=
  sys.home user.userid.str = false ∧ outside.serial.isSome ∧
    ∀ row ∈ sys.users, row.alive → ¬SameName row.name user.userid.str

section

variable {outside : Outside} {sys : AccountSystem} {user : Account}

theorem insertUser_eq_none_iff {users : List UsersRow} {id : UserId} {name passwd : CString} :
    insertUser users id name passwd = none ↔
      ∃ row ∈ users, row.alive ∧ SameName row.name name := by
  rw [insertUser]
  simp only [ite_eq_left_iff, reduceCtorEq, imp_false, not_not, List.any_eq_true,
    Bool.and_eq_true, beq_iff_eq, SameName]

/-- Without a row, nothing changes. -/
theorem createUser_of_not_inserted (notInserted : ¬RowInserted outside sys user) :
    createUser outside sys user = some (ucacheEexist, sys) := by
  rw [createUser]
  split
  · rfl
  · rename_i noHome
    have refused : (outside.serial.bind fun id =>
        insertUser sys.users id user.userid.str user.passwd.str) = none := by
      cases serial : outside.serial with
      | none => rfl
      | some id =>
        rw [Option.bind_some, insertUser_eq_none_iff]
        by_contra noRow
        refine notInserted ⟨Bool.eq_false_iff.mpr noHome, by rw [serial]; rfl, ?_⟩
        exact fun row member alive same => noRow ⟨row, member, alive, same⟩
    rw [refused]

/-- With a row, the rest depends on the cache only. -/
theorem createUser_of_inserted (inserted : RowInserted outside sys user) :
    ∃ id, createUser outside sys user =
      if outside.locks then
        (takeSlot sys.table user).map fun (ret, table) =>
          (ret, { sys with
            users := sys.users ++ [⟨id, user.userid.str, user.passwd.str, true⟩]
            table := table })
      else
        some (ucacheEintnl, { sys with
          users := sys.users ++ [⟨id, user.userid.str, user.passwd.str, true⟩] }) := by
  obtain ⟨noHome, reached, noRow⟩ := inserted
  obtain ⟨id, serial⟩ := Option.isSome_iff_exists.mp reached
  refine ⟨id, ?_⟩
  have accepted : insertUser sys.users id user.userid.str user.passwd.str =
      some (sys.users ++ [⟨id, user.userid.str, user.passwd.str, true⟩]) := by
    have notNone : insertUser sys.users id user.userid.str user.passwd.str ≠ none := by
      rw [ne_eq, insertUser_eq_none_iff]
      rintro ⟨row, member, alive, same⟩
      exact noRow row member alive same
    rw [insertUser] at notNone ⊢
    split
    · rename_i refused
      rw [if_pos refused] at notNone
      exact absurd rfl notNone
    · rfl
  rw [createUser, noHome, if_neg Bool.false_ne_true, serial, Option.bind_some, accepted]

theorem aliveUsers_append (users : List UsersRow) (id : UserId) (name passwd : CString) :
    aliveUsers (users ++ [⟨id, name, passwd, true⟩]) =
      aliveUsers users ++ [⟨id, name, passwd, true⟩] := by
  rw [aliveUsers, List.filter_append]
  rfl

theorem aliveUsers_append_ne (users : List UsersRow) (id : UserId) (name passwd : CString) :
    aliveUsers (users ++ [⟨id, name, passwd, true⟩]) ≠ aliveUsers users := by
  rw [aliveUsers_append]
  intro same
  have lengths := congrArg List.length same
  rw [List.length_append, List.length_singleton] at lengths
  omega

/-- Taking a slot of a cache that is not full. -/
theorem takeSlot_spec {table : UserTable} (wellFormed : WellFormed table)
    (long : 2 ≤ user.userid.str.bytes.length) (short : user.userid.str.bytes.length ≤ idLen)
    (room : ¬Full table) :
    ∃ slot table', takeSlot table user = some (0, table') ∧ ¬table.Live slot ∧ table'.Live slot ∧
      (∀ i, i ≠ 0 → table'.name i = if i = slot then user.userid.str else table.name i) ∧
      table'.passwd = Function.update table.passwd (slot - 1) user.toUserec ∧
      table'.details = Function.update table.details (slot - 1) user.toUserDetails := by
  obtain ⟨chains, threaded⟩ := wellFormed.threaded
  have found : table.searchnewuser ≠ 0 := (searchnewuser_eq_zero_iff wellFormed).not.mpr room
  obtain ⟨inside, free⟩ := searchnewuser_spec wellFormed.live_le wellFormed.number_le found
  obtain ⟨table', chains', sets, -, names, -, passwd, details⟩ :=
    setuserid_threaded threaded found inside free long short
  refine ⟨table.searchnewuser, table'.substitutAccount user table.searchnewuser, ?_,
    fun live => live.2.2 free, ?_, names, ?_, ?_⟩
  · rw [takeSlot, if_neg found, sets]
    rfl
  · refine ⟨Nat.one_le_iff_ne_zero.mpr found, inside, ?_⟩
    change (table'.name table.searchnewuser).bytes ≠ []
    rw [names _ found, if_pos rfl]
    exact List.ne_nil_of_length_pos (Nat.lt_of_lt_of_le Nat.two_pos long)
  · rw [← passwd]
    rfl
  · rw [← details]
    rfl

theorem takeSlot_full {table : UserTable} (wellFormed : WellFormed table) (full : Full table) :
    takeSlot table user = some (ucacheEfull, table) := by
  rw [takeSlot]
  exact if_pos ((searchnewuser_eq_zero_iff wellFormed).mpr full)

/-- `create_user` is atomic exactly if a row that has been inserted is followed
by a lock on a cache with a free slot. -/
theorem createUser_atomic_iff (outside : Outside) {sys : AccountSystem}
    (wellFormed : WellFormed sys.table) (user : Account)
    (long : 2 ≤ user.userid.str.bytes.length) (short : user.userid.str.bytes.length ≤ idLen) :
    Atomic outside sys user ↔
      (RowInserted outside sys user → outside.locks = true ∧ ¬Full sys.table) := by
  by_cases inserted : RowInserted outside sys user
  · obtain ⟨id, created⟩ := createUser_of_inserted inserted
    rw [imp_iff_right inserted, Atomic, created]
    by_cases locks : outside.locks = true
    · rw [if_pos locks, and_iff_right locks]
      by_cases full : Full sys.table
      · -- The row stays although the cache is full.
        rw [takeSlot_full wellFormed full]
        refine ⟨?_, fun room => absurd full room⟩
        rintro ⟨ret, sys', returns, kept, -⟩
        obtain ⟨rfl, rfl⟩ := Prod.mk.inj (Option.some.inj returns)
        exact absurd (kept (by decide)).1 (aliveUsers_append_ne _ _ _ _)
      · obtain ⟨slot, table', takes, added⟩ := takeSlot_spec wellFormed long short full
        rw [takes]
        refine ⟨fun _ => full, fun _ => ⟨0, _, rfl, ?_, ?_⟩⟩
        · exact fun negative => absurd negative (by decide)
        · exact fun _ => ⟨⟨id, aliveUsers_append _ _ _ _⟩, slot, added⟩
    · -- The row stays although the cache has not been locked.
      rw [if_neg locks]
      refine ⟨?_, fun both => absurd both.1 locks⟩
      rintro ⟨ret, sys', returns, kept, -⟩
      obtain ⟨rfl, rfl⟩ := Prod.mk.inj (Option.some.inj returns)
      exact absurd (kept (by decide)).1 (aliveUsers_append_ne _ _ _ _)
  · refine ⟨fun _ row => absurd row inserted, fun _ => ⟨ucacheEexist, sys, ?_, ?_, ?_⟩⟩
    · exact createUser_of_not_inserted inserted
    · exact fun _ => ⟨rfl, rfl⟩
    · exact fun zero => absurd zero (by decide)

end

def newSite : AccountSystem :=
  ⟨{ cleared fun _ => accountOf noName with number := 1 }, [], fun _ => false⟩

theorem newSite_wellFormed : WellFormed newSite.table := by
  have threaded := (loaded_cleared fun _ => accountOf noName).threaded
  refine ⟨⟨fun _ => [], threaded.chain, threaded.backward, threaded.live, threaded.key,
    threaded.linked, threaded.loose⟩, fun slot live => absurd rfl live.2.2, by decide⟩

theorem createUser_atomic_guest : Atomic ⟨some 1, true⟩ newSite (accountOf guestName) := by
  apply (createUser_atomic_iff ⟨some 1, true⟩ newSite_wellFormed (accountOf guestName) (by decide)
    (by decide)).mpr
  intro _
  exact ⟨rfl, fun full => (full 1 (by decide) (by decide)).2.2 rfl⟩

/-- The cache cannot be locked: the row of `guest` stays without an account. -/
theorem createUser_leaves_row :
    createUser ⟨some 1, false⟩ newSite (accountOf guestName) =
      some (ucacheEintnl, { newSite with users := [⟨1, guestName.str, CString.empty, true⟩] }) ∧
      ¬Atomic ⟨some 1, false⟩ newSite (accountOf guestName) := by
  have returned : createUser ⟨some 1, false⟩ newSite (accountOf guestName) =
      some (ucacheEintnl,
        { newSite with users := [⟨1, guestName.str, CString.empty, true⟩] }) := rfl
  refine ⟨returned, ?_⟩
  rintro ⟨ret, sys', returns, kept, -⟩
  rw [returned] at returns
  obtain ⟨rfl, rfl⟩ := Prod.mk.inj (Option.some.inj returns)
  exact absurd (kept (by decide)).1 (by decide)

end UserTable

end Fbbs
