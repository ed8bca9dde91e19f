import Mathlib.Logic.Function.Basic
import Mathlib.Algebra.Order.Group.Unbundled.Int
import Fbbs.Degrees

/-!
# Followers, friends and blocked users

The tables of `pg/friend.sql` with their triggers, and the statements of `lib/friend.c` on them.
A statement that fails leaves the database as it is.  A trigger `AFTER DELETE` runs when all rows
of the statement are gone.
-/

namespace Fbbs

namespace FollowGraph

structure Database where
  /-- The ids in `users`. -/
  users : Finset Int
  followings : Int → Int
  followers : Int → Int
  friends : Int → Int
  /-- The rows of `follows` by their primary key, the followed user and the follower. -/
  follows : Finset (Int × Int)
  isFriend : Int × Int → Bool
  /-- The rows of `blacklists` by their primary key. -/
  blacklists : Finset (Int × Int)

/-- A column after `UPDATE users SET … = … + delta` of these users. -/
def bump (column : Int → Int) (ids : List Int) (delta : Int) (id : Int) : Int :=
  if id ∈ ids then column id + delta else column id

def followingLimit : Int := 300

/-- `follow_before_trigger`, with the value of `NEW.is_friend`. -/
def followBeforeTrigger (db : Database) (userId follower : Int) : Option (Database × Bool) :=
  if follower ∈ db.users ∧ followingLimit ≤ db.followings follower then none
  else if (follower, userId) ∈ db.follows ∧ db.isFriend (follower, userId) = false then
    some ({ db with
      isFriend := Function.update db.isFriend (follower, userId) true
      friends := bump db.friends [userId, follower] 1 }, true)
  else some (db, false)

def followAfterTrigger (db : Database) (userId follower : Int) : Database :=
  { db with
    followings := bump db.followings [follower] 1
    followers := bump db.followers [userId] 1 }

/-- `INSERT INTO follows`, with the primary key and the references to `users`. -/
def insertFollow (db : Database) (userId follower : Int) : Option Database :=
  (followBeforeTrigger db userId follower).bind fun (db, isFriend) =>
    if (userId, follower) ∈ db.follows ∨ userId ∉ db.users ∨ follower ∉ db.users then none
    else
      let db := { db with
        follows := insert (userId, follower) db.follows
        isFriend := Function.update db.isFriend (userId, follower) isFriend }
      some (followAfterTrigger db userId follower)

def unfollowTrigger (db : Database) (old : Int × Int) : Database :=
  let db := { db with
    followers := bump db.followers [old.1] (-1)
    followings := bump db.followings [old.2] (-1) }
  if old.swap ∈ db.follows then
    { db with
      isFriend := Function.update db.isFriend old.swap false
      friends := bump db.friends [old.1, old.2] (-1) }
  else db

/-- `DELETE FROM follows` of the rows with these keys. -/
def deleteFollows (db : Database) (keys : List (Int × Int)) : Database :=
  let gone := keys.filter (· ∈ db.follows)
  gone.foldl unfollowTrigger { db with follows := gone.foldl Finset.erase db.follows }

/-- `INSERT INTO blacklists`, with `blacklist_after_trigger`. -/
def insertBlacklist (db : Database) (userId blocked : Int) : Option Database :=
  if (userId, blocked) ∈ db.blacklists ∨ userId ∉ db.users ∨ blocked ∉ db.users then none
  else
    let db := { db with blacklists := insert (userId, blocked) db.blacklists }
    some (deleteFollows db [(userId, blocked), (blocked, userId)])

inductive Action
  | createUser (id : Int)
  | follow (follower followed : Int)
  | unfollow (follower followed : Int)
  | blackListAdd (userId blocked : Int)
  | blackListRm (userId blocked : Int)

/-- The names are looked up before: an unknown one gives 0, and a failed query -1. -/
def attempt (db : Database) : Action → Option Database
  | .createUser id =>
    if id ∈ db.users then none
    else some { db with
      users := insert id db.users
      followings := Function.update db.followings id 0
      followers := Function.update db.followers id 0
      friends := Function.update db.friends id 0 }
  | .follow follower followed =>
    if followed = 0 then none else insertFollow db followed follower
  | .unfollow follower followed => some (deleteFollows db [(followed, follower)])
  | .blackListAdd userId blocked =>
    if blocked ≤ 0 ∨ blocked = userId then none else insertBlacklist db userId blocked
  | .blackListRm userId blocked =>
    some { db with blacklists := db.blacklists.erase (userId, blocked) }

def step (db : Database) (action : Action) : Database :=
  (attempt db action).getD db

def run (actions : List Action) (db : Database) : Database :=
  actions.foldl step db

def start : Database where
  users := ∅
  followings := fun _ => 0
  followers := fun _ => 0
  friends := fun _ => 0
  follows := ∅
  isFriend := fun _ => false
  blacklists := ∅

/-! ## What the columns count -/

/-- Whether the action blocks a friend, and who is one of the two. -/
def breaks (db : Database) : Action → Int → Nat
  | .blackListAdd userId blocked, id =>
    if (attempt db (.blackListAdd userId blocked)).isSome ∧
        (userId, blocked) ∈ db.follows ∧ (blocked, userId) ∈ db.follows ∧
        (id = userId ∨ id = blocked) then 1 else 0
  | _, _ => 0

/-- How many friends the user blocked in the run, or was blocked by. -/
def broken : List Action → Database → Int → Nat
  | [], _, _ => 0
  | action :: actions, db, id => breaks db action id + broken actions (step db action) id

/-- The columns are the numbers of rows, but for friends that were blocked. -/
structure Accurate (db : Database) (lost : Int → Nat) : Prop where
  known : ∀ pair ∈ db.follows, pair.1 ∈ db.users ∧ pair.2 ∈ db.users
  fresh : ∀ id, id ∉ db.users → lost id = 0
  followers : ∀ id, db.followers id = Degrees.inDegree db.follows id
  followings : ∀ id, db.followings id = Degrees.outDegree db.follows id
  limit : ∀ id, db.followings id ≤ followingLimit
  flags : ∀ pair ∈ db.follows,
    db.isFriend pair = true ↔ pair.swap ∈ db.follows ∧ pair.1 ≠ pair.2
  friends : ∀ id, db.friends id = Degrees.mutualDegree db.follows id + lost id

section Accurate

variable {db : Database} {lost : Int → Nat}

theorem bump_singleton (column : Int → Int) (other : Int) (delta id : Int) :
    bump column [other] delta id = column id + if other = id then delta else 0 := by
  simp only [bump, List.mem_singleton, eq_comm (a := other)]
  split
  · rfl
  · exact (add_zero _).symm

theorem bump_pair (column : Int → Int) (left right : Int) (delta id : Int) :
    bump column [left, right] delta id =
      column id + if id = left ∨ id = right then delta else 0 := by
  simp only [bump, List.mem_pair]
  split
  · rfl
  · exact (add_zero _).symm

theorem accurate_start : Accurate start fun _ => 0 where
  known := nofun
  fresh := fun _ _ => rfl
  followers := fun _ => rfl
  followings := fun _ => rfl
  limit := fun _ => show (0 : Int) ≤ 300 by decide
  flags := nofun
  friends := fun _ => rfl

/-- No row of `follows` has a user that does not exist. -/
theorem Accurate.degrees_eq_zero (accurate : Accurate db lost) {id : Int} (absent : id ∉ db.users) :
    Degrees.inDegree db.follows id = 0 ∧ Degrees.outDegree db.follows id = 0 ∧
      Degrees.mutualDegree db.follows id = 0 := by
  refine ⟨?_, ?_, ?_⟩ <;>
    refine Finset.card_eq_zero.mpr (Finset.filter_eq_empty_iff.mpr fun pair member holds => ?_)
  · exact absent (holds ▸ (accurate.known pair member).1)
  · exact absent (holds ▸ (accurate.known pair member).2)
  · exact absent (holds.1 ▸ (accurate.known pair member).2)

theorem Accurate.createUser (accurate : Accurate db lost) {id : Int} (absent : id ∉ db.users) :
    Accurate { db with
      users := insert id db.users
      followings := Function.update db.followings id 0
      followers := Function.update db.followers id 0
      friends := Function.update db.friends id 0 } lost where
  known := fun pair member =>
    ⟨Finset.mem_insert_of_mem (accurate.known pair member).1,
      Finset.mem_insert_of_mem (accurate.known pair member).2⟩
  fresh := fun other outside =>
    accurate.fresh other fun inside => outside (Finset.mem_insert_of_mem inside)
  followers := by
    intro other
    dsimp only
    rw [Function.update_apply]
    split
    case isTrue same => rw [same, (accurate.degrees_eq_zero absent).1]; rfl
    case isFalse => exact accurate.followers other
  followings := by
    intro other
    dsimp only
    rw [Function.update_apply]
    split
    case isTrue same => rw [same, (accurate.degrees_eq_zero absent).2.1]; rfl
    case isFalse => exact accurate.followings other
  limit := by
    intro other
    dsimp only
    rw [Function.update_apply]
    split
    · decide
    · exact accurate.limit other
  flags := accurate.flags
  friends := by
    intro other
    dsimp only
    rw [Function.update_apply]
    split
    case isTrue same =>
      rw [same, (accurate.degrees_eq_zero absent).2.2, accurate.fresh id absent]
      rfl
    case isFalse => exact accurate.friends other

theorem isFriend_update_iff {flags : Int × Int → Bool} {changed pair : Int × Int} {value : Bool}
    {friend : Prop} (other : pair ≠ changed → (flags pair = true ↔ friend))
    (same : pair = changed → (value = true ↔ friend)) :
    Function.update flags changed value pair = true ↔ friend := by
  rw [Function.update_apply]
  split
  case isTrue here => exact same here
  case isFalse apart => exact other apart

/-- A new row is marked exactly if the row the other way round is there. -/
theorem Accurate.followBefore_iff (accurate : Accurate db lost) {userId follower : Int}
    (new : (userId, follower) ∉ db.follows) :
    (follower, userId) ∈ db.follows ∧ db.isFriend (follower, userId) = false ↔
      (follower, userId) ∈ db.follows := by
  constructor
  · exact And.left
  · intro back
    refine ⟨back, ?_⟩
    have flag := accurate.flags _ back
    cases value : db.isFriend (follower, userId) with
    | false => rfl
    | true => exact absurd (flag.mp value).1 new

/-- What a row that can be inserted changes, if the row the other way round is there or not. -/
theorem insertFollow_spec {userId follower : Int} {next : Database}
    (inserted : insertFollow db userId follower = some next) :
    (userId, follower) ∉ db.follows ∧ userId ∈ db.users ∧ follower ∈ db.users ∧
      db.followings follower < followingLimit ∧
      ∃ back : Bool,
        (back = true ↔ (follower, userId) ∈ db.follows ∧ db.isFriend (follower, userId) = false) ∧
        next = { db with
          followings := bump db.followings [follower] 1
          followers := bump db.followers [userId] 1
          friends := if back then bump db.friends [userId, follower] 1 else db.friends
          follows := insert (userId, follower) db.follows
          isFriend := Function.update
            (if back then Function.update db.isFriend (follower, userId) true else db.isFriend)
            (userId, follower) back } := by
  obtain ⟨⟨before, isFriend⟩, beforeEq, after⟩ := Option.bind_eq_some_iff.mp inserted
  unfold followBeforeTrigger at beforeEq
  rw [Option.ite_none_left_eq_some] at beforeEq
  obtain ⟨room, beforeEq⟩ := beforeEq
  dsimp only at after
  rw [Option.ite_none_left_eq_some, Option.some.injEq] at after
  obtain ⟨possible, after⟩ := after
  by_cases back : (follower, userId) ∈ db.follows ∧ db.isFriend (follower, userId) = false
  · rw [if_pos back, Option.some.injEq, Prod.mk.injEq] at beforeEq
    obtain ⟨rfl, rfl⟩ := beforeEq
    dsimp only at possible
    simp only [not_or, not_not] at possible
    have below : db.followings follower < followingLimit :=
      not_le.mp fun reached => room ⟨possible.2.2, reached⟩
    exact ⟨possible.1, possible.2.1, possible.2.2, below, true, iff_of_true rfl back, after.symm⟩
  · rw [if_neg back, Option.some.injEq, Prod.mk.injEq] at beforeEq
    obtain ⟨rfl, rfl⟩ := beforeEq
    simp only [not_or, not_not] at possible
    have below : db.followings follower < followingLimit :=
      not_le.mp fun reached => room ⟨possible.2.2, reached⟩
    exact ⟨possible.1, possible.2.1, possible.2.2, below, false,
      iff_of_false Bool.false_ne_true back, after.symm⟩

theorem Accurate.follow (accurate : Accurate db lost) {userId follower : Int} {next : Database}
    (inserted : insertFollow db userId follower = some next) : Accurate next lost := by
  obtain ⟨new, user, other, room, back, backIff, rfl⟩ := insertFollow_spec inserted
  rw [accurate.followBefore_iff new] at backIff
  have apart : back = true → follower ≠ userId := by
    rintro mirrored rfl
    exact new (backIff.mp mirrored)
  refine ⟨?_, accurate.fresh, ?_, ?_, ?_, ?_, ?_⟩
  · intro pair member
    rcases Finset.mem_insert.mp member with rfl | old
    · exact ⟨user, other⟩
    · exact accurate.known pair old
  · intro id
    dsimp only
    rw [bump_singleton, accurate.followers, Degrees.inDegree_insert new]
    split <;> rfl
  · intro id
    dsimp only
    rw [bump_singleton, accurate.followings, Degrees.outDegree_insert new]
    split <;> rfl
  · intro id
    dsimp only
    rw [bump_singleton]
    have limit := accurate.limit id
    split
    case isTrue same => rw [← same]; omega
    case isFalse => omega
  · intro pair member
    dsimp only at member ⊢
    apply isFriend_update_iff
    · intro isOld
      have old := (Finset.mem_insert.mp member).resolve_left isOld
      by_cases other : pair = (follower, userId)
      · subst other
        have mirrored := backIff.mpr old
        rw [if_pos mirrored, Function.update_self]
        exact iff_of_true rfl ⟨Finset.mem_insert_self _ _, apart mirrored⟩
      · have unchanged : (if back then Function.update db.isFriend (follower, userId) true
            else db.isFriend) pair = db.isFriend pair := by
          split
          · exact Function.update_of_ne other _ _
          · rfl
        have swapped : pair.swap ≠ (userId, follower) :=
          fun same => other (by rw [← Prod.swap_swap pair, same, Prod.swap_prod_mk])
        rw [unchanged, accurate.flags pair old, Finset.mem_insert, or_iff_right swapped]
    · rintro rfl
      rw [Prod.swap_prod_mk, Finset.mem_insert, backIff]
      constructor
      · exact fun mirrored => ⟨.inr mirrored, (apart (backIff.mpr mirrored)).symm⟩
      · rintro ⟨same | mirrored, ne⟩
        · exact absurd (Prod.mk.inj same).2 ne
        · exact mirrored
  · intro id
    dsimp only
    rw [Degrees.mutualDegree_insert new]
    have friends := accurate.friends id
    cases back with
    | false =>
      have missing := mt backIff.mpr Bool.false_ne_true
      rw [if_neg Bool.false_ne_true, if_neg fun joined => missing joined.1, friends, add_zero]
    | true =>
      have mirrored := backIff.mp rfl
      rw [if_pos rfl, bump_pair, friends]
      by_cases ends : id = userId ∨ id = follower
      · rw [if_pos ends, if_pos ⟨mirrored, (apart rfl).symm, ends⟩]
        omega
      · rw [if_neg ends, if_neg fun joined => ends joined.2.2]
        omega

/-! ### Rows that are deleted -/

/-- What the trigger changes, if the row the other way round is there or not. -/
theorem unfollowTrigger_eq (db : Database) (old : Int × Int) :
    unfollowTrigger db old = { db with
      followers := bump db.followers [old.1] (-1)
      followings := bump db.followings [old.2] (-1)
      isFriend :=
        if old.swap ∈ db.follows then Function.update db.isFriend old.swap false
        else db.isFriend
      friends :=
        if old.swap ∈ db.follows then bump db.friends [old.1, old.2] (-1) else db.friends } := by
  unfold unfollowTrigger
  dsimp only
  split <;> rfl

theorem Accurate.unfollow (accurate : Accurate db lost) {userId follower : Int}
    (present : (userId, follower) ∈ db.follows) :
    Accurate (unfollowTrigger { db with follows := db.follows.erase (userId, follower) }
      (userId, follower)) lost := by
  have swapped {pair : Int × Int} (other : pair ≠ (follower, userId)) :
      pair.swap ≠ (userId, follower) :=
    fun same => other (by rw [← Prod.swap_swap pair, same, Prod.swap_prod_mk])
  have back_iff : (follower, userId) ∈ db.follows.erase (userId, follower) ↔
      (follower, userId) ∈ db.follows ∧ userId ≠ follower := by
    rw [Finset.mem_erase, and_comm]
    refine and_congr_right fun _ => not_congr ⟨fun same => (Prod.mk.inj same).2, ?_⟩
    rintro rfl
    rfl
  rw [unfollowTrigger_eq]
  refine ⟨?_, accurate.fresh, ?_, ?_, ?_, ?_, ?_⟩
  · exact fun pair member => accurate.known pair (Finset.mem_of_mem_erase member)
  · intro id
    dsimp only
    rw [bump_singleton, accurate.followers, Degrees.inDegree_erase present]
    split <;> omega
  · intro id
    dsimp only
    rw [bump_singleton, accurate.followings, Degrees.outDegree_erase present]
    split <;> omega
  · intro id
    dsimp only
    rw [bump_singleton]
    have limit := accurate.limit id
    split <;> omega
  · intro pair member
    dsimp only [Prod.swap_prod_mk] at member ⊢
    have old := Finset.mem_of_mem_erase member
    by_cases other : pair = (follower, userId)
    · subst other
      rw [if_pos member, Function.update_self]
      refine iff_of_false Bool.false_ne_true fun joined => ?_
      exact Finset.notMem_erase _ _ joined.1
    · have unchanged : (if (follower, userId) ∈ db.follows.erase (userId, follower) then
          Function.update db.isFriend (follower, userId) false
          else db.isFriend) pair = db.isFriend pair := by
        split
        · exact Function.update_of_ne other _ _
        · rfl
      rw [unchanged, accurate.flags pair old, Finset.mem_erase, and_iff_right (swapped other)]
  · intro id
    dsimp only [Prod.swap_prod_mk]
    have friends := accurate.friends id
    rw [Degrees.mutualDegree_erase present] at friends
    by_cases back : (follower, userId) ∈ db.follows.erase (userId, follower)
    · obtain ⟨inside, apart⟩ := back_iff.mp back
      rw [if_pos back, bump_pair, friends]
      by_cases ends : id = userId ∨ id = follower
      · rw [if_pos ends, if_pos ⟨inside, apart, ends⟩]
        omega
      · rw [if_neg ends, if_neg fun joined => ends joined.2.2]
        omega
    · rw [if_neg back, friends,
        if_neg fun joined => back (back_iff.mpr ⟨joined.1, joined.2.1⟩), add_zero]

/-- Two friends lose each other, and their columns do not tell. -/
theorem Accurate.unfollowBoth (accurate : Accurate db lost) {userId blocked : Int}
    (user : userId ∈ db.users) (other : blocked ∈ db.users)
    (apart : blocked ≠ userId) (present : (userId, blocked) ∈ db.follows)
    (back : (blocked, userId) ∈ db.follows) :
    Accurate (unfollowTrigger (unfollowTrigger { db with
        follows := (db.follows.erase (userId, blocked)).erase (blocked, userId) }
          (userId, blocked)) (blocked, userId))
      fun id => lost id + if id = userId ∨ id = blocked then 1 else 0 := by
  have back' : (blocked, userId) ∈ db.follows.erase (userId, blocked) :=
    Finset.mem_erase.mpr ⟨fun same => apart (Prod.mk.inj same).1, back⟩
  have gone : (userId, blocked) ∉ (db.follows.erase (userId, blocked)).erase (blocked, userId) :=
    fun member => Finset.notMem_erase _ _ (Finset.mem_of_mem_erase member)
  have gone' : (blocked, userId) ∉ (db.follows.erase (userId, blocked)).erase (blocked, userId) :=
    Finset.notMem_erase _ _
  rw [unfollowTrigger_eq, unfollowTrigger_eq]
  simp only [Prod.swap_prod_mk, gone, gone', if_false]
  refine ⟨?_, ?_, ?_, ?_, ?_, ?_, ?_⟩
  · exact fun pair member =>
      accurate.known pair (Finset.mem_of_mem_erase (Finset.mem_of_mem_erase member))
  · intro id absent
    dsimp only at absent ⊢
    rw [accurate.fresh id absent, if_neg]
    rintro (rfl | rfl)
    · exact absent user
    · exact absent other
  · intro id
    dsimp only
    rw [bump_singleton, bump_singleton, accurate.followers, Degrees.inDegree_erase present,
      Degrees.inDegree_erase back']
    split <;> split <;> omega
  · intro id
    dsimp only
    rw [bump_singleton, bump_singleton, accurate.followings, Degrees.outDegree_erase present,
      Degrees.outDegree_erase back']
    split <;> split <;> omega
  · intro id
    dsimp only
    rw [bump_singleton, bump_singleton]
    have limit := accurate.limit id
    split <;> split <;> omega
  · intro pair member
    obtain ⟨second, inside⟩ := Finset.mem_erase.mp member
    obtain ⟨first, old⟩ := Finset.mem_erase.mp inside
    have swapped (left right : Int) (ne : pair ≠ (right, left)) : pair.swap ≠ (left, right) :=
      fun same => ne (by rw [← Prod.swap_swap pair, same, Prod.swap_prod_mk])
    dsimp only
    rw [accurate.flags pair old, Finset.mem_erase, Finset.mem_erase,
      and_iff_right (swapped _ _ first), and_iff_right (swapped _ _ second)]
  · intro id
    dsimp only
    rw [accurate.friends, Degrees.mutualDegree_erase present, Degrees.mutualDegree_erase back',
      if_neg fun joined => Finset.notMem_erase _ _ joined.1]
    by_cases ends : id = userId ∨ id = blocked
    · rw [if_pos ends, if_pos ⟨back, apart.symm, ends⟩]
      omega
    · rw [if_neg ends, if_neg fun joined => ends joined.2.2]
      omega

theorem Accurate.withBlacklists (accurate : Accurate db lost) (blacklists : Finset (Int × Int)) :
    Accurate { db with blacklists := blacklists } lost :=
  ⟨accurate.known, accurate.fresh, accurate.followers, accurate.followings, accurate.limit,
    accurate.flags, accurate.friends⟩

theorem Accurate.deleteOne (accurate : Accurate db lost) (userId follower : Int) :
    Accurate (deleteFollows db [(userId, follower)]) lost := by
  unfold deleteFollows
  by_cases present : (userId, follower) ∈ db.follows
  · simp only [List.filter_cons, present, decide_true, if_true, List.filter_nil]
    exact accurate.unfollow present
  · simp only [List.filter_cons, present, decide_false, List.filter_nil, Bool.false_eq_true,
      if_false]
    exact accurate

/-- Two users who are not friends lose the row that there is, if any. -/
theorem Accurate.deleteEither (accurate : Accurate db lost) {userId blocked : Int}
    (noFriends : ¬((userId, blocked) ∈ db.follows ∧ (blocked, userId) ∈ db.follows)) :
    Accurate (deleteFollows db [(userId, blocked), (blocked, userId)]) lost := by
  by_cases present : (userId, blocked) ∈ db.follows
  · have absent : (blocked, userId) ∉ db.follows := fun back => noFriends ⟨present, back⟩
    have one : deleteFollows db [(userId, blocked), (blocked, userId)] =
        deleteFollows db [(userId, blocked)] := by
      simp [deleteFollows, List.filter_cons, absent]
    exact one ▸ accurate.deleteOne userId blocked
  · have one : deleteFollows db [(userId, blocked), (blocked, userId)] =
        deleteFollows db [(blocked, userId)] := by
      simp [deleteFollows, List.filter_cons, present]
    exact one ▸ accurate.deleteOne blocked userId

theorem Accurate.deleteBoth (accurate : Accurate db lost) {userId blocked : Int}
    (apart : blocked ≠ userId) (present : (userId, blocked) ∈ db.follows)
    (back : (blocked, userId) ∈ db.follows) :
    Accurate (deleteFollows db [(userId, blocked), (blocked, userId)])
      fun id => lost id + if id = userId ∨ id = blocked then 1 else 0 := by
  obtain ⟨user, other⟩ := accurate.known _ present
  unfold deleteFollows
  simp only [List.filter_cons, present, back, decide_true, if_true, List.filter_nil]
  exact accurate.unfollowBoth user other apart present back

theorem insertBlacklist_spec {userId blocked : Int} {next : Database}
    (inserted : insertBlacklist db userId blocked = some next) :
    next = deleteFollows { db with blacklists := insert (userId, blocked) db.blacklists }
      [(userId, blocked), (blocked, userId)] := by
  unfold insertBlacklist at inserted
  rw [Option.ite_none_left_eq_some, Option.some.injEq] at inserted
  exact inserted.2.symm

/-- What one statement does to the columns. -/
theorem accurate_step (accurate : Accurate db lost) (action : Action) :
    Accurate (step db action) fun id => lost id + breaks db action id := by
  unfold step
  cases attempted : attempt db action with
  | none =>
    have unbroken (id : Int) : breaks db action id = 0 := by
      cases action with
      | blackListAdd userId blocked => rw [breaks, attempted]; rfl
      | _ => rfl
    simpa only [Option.getD_none, unbroken, add_zero] using accurate
  | some next =>
    rw [Option.getD_some]
    cases action with
    | createUser id =>
      rw [attempt, Option.ite_none_left_eq_some, Option.some.injEq] at attempted
      obtain ⟨absent, rfl⟩ := attempted
      exact accurate.createUser absent
    | follow follower followed =>
      rw [attempt, Option.ite_none_left_eq_some] at attempted
      exact accurate.follow attempted.2
    | unfollow follower followed =>
      rw [attempt, Option.some.injEq] at attempted
      exact attempted ▸ accurate.deleteOne followed follower
    | blackListRm userId blocked =>
      rw [attempt, Option.some.injEq] at attempted
      exact attempted ▸ accurate.withBlacklists _
    | blackListAdd userId blocked =>
      have succeeds : (attempt db (.blackListAdd userId blocked)).isSome := by
        rw [attempted]
        rfl
      rw [attempt, Option.ite_none_left_eq_some] at attempted
      obtain ⟨other, inserted⟩ := attempted
      obtain rfl := insertBlacklist_spec inserted
      have apart : blocked ≠ userId := fun same => other (.inr same)
      have listed := accurate.withBlacklists (insert (userId, blocked) db.blacklists)
      by_cases friends : (userId, blocked) ∈ db.follows ∧ (blocked, userId) ∈ db.follows
      · simpa only [breaks, succeeds, friends, true_and] using
          listed.deleteBoth apart friends.1 friends.2
      · have unbroken (id : Int) : breaks db (.blackListAdd userId blocked) id = 0 := by
          rw [breaks, if_neg]
          exact fun broken => friends ⟨broken.2.1, broken.2.2.1⟩
        simpa only [unbroken, add_zero] using listed.deleteEither friends

theorem accurate_run (accurate : Accurate db lost) (actions : List Action) :
    Accurate (run actions db) fun id => lost id + broken actions db id := by
  induction actions generalizing db lost with
  | nil => exact accurate
  | cons action actions ih =>
    have rest := ih (accurate_step accurate action)
    simp only [add_assoc] at rest
    exact rest

end Accurate

/-! ## Runs -/

/-- In every run the columns `followers` and `followings` are the numbers of rows, nobody follows
more than the limit, and a row is marked exactly if the row the other way round is there. -/
theorem counters_of_run (actions : List Action) :
    (∀ id, (run actions start).followers id = Degrees.inDegree (run actions start).follows id) ∧
      (∀ id, (run actions start).followings id =
        Degrees.outDegree (run actions start).follows id) ∧
      (∀ id, Degrees.outDegree (run actions start).follows id ≤ 300) ∧
      ∀ pair ∈ (run actions start).follows, (run actions start).isFriend pair = true ↔
        pair.swap ∈ (run actions start).follows ∧ pair.1 ≠ pair.2 := by
  have accurate := accurate_run accurate_start actions
  refine ⟨accurate.followers, accurate.followings, fun id => ?_, accurate.flags⟩
  have limit := accurate.limit id
  rw [accurate.followings] at limit
  exact Int.ofNat_le.mp limit

/-- In every run the column `friends` is the number of friends and of those that were blocked
while they were friends: it never falls back. -/
theorem friends_of_run (actions : List Action) (id : Int) :
    (run actions start).friends id =
      Degrees.mutualDegree (run actions start).follows id + broken actions start id := by
  have accurate := accurate_run accurate_start actions
  rw [accurate.friends, zero_add]

/-- Two users follow each other, and one blocks the other. -/
example : (run [.createUser 1, .createUser 2, .follow 1 2, .follow 2 1, .blackListAdd 1 2]
    start).friends 2 = 1 := by
  decide

end FollowGraph

end Fbbs
