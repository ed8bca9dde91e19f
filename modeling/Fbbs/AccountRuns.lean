import Fbbs.AccountUpdates
import Fbbs.TransitionRuns
import Mathlib.Algebra.Order.BigOperators.Group.List

/-!
# The user cache as a map of names

From `load_ucache` on, whatever accounts are created and removed, the chains hold
the live slots, and `searchuser` finds the slot of a name without case.  The one
exception is an account that is created with the name `new`: `setuserid` fills its
slot but does not put it into a chain.
-/

namespace Fbbs

namespace UserTable

open AsciiBytes UserCache LinkedChains TransitionRuns

/-- ASCII letters. -/
def isalpha (c : UInt8) : Prop :=
  65 ≤ c ∧ c ≤ 90 ∨ 97 ≤ c ∧ c ≤ 122

/-- Two to twelve letters. -/
structure ValidName (bytes : Bytes) : Prop where
  length_ge : 2 ≤ bytes.length
  length_le : bytes.length ≤ idLen
  letters : ∀ c ∈ bytes, isalpha c

/-- Names are equal ignoring case. -/
def SameName (left right : CString) : Prop :=
  left.bytes.map tolower = right.bytes.map tolower

/-- The chains are threaded, the names are valid and distinct, and no live slot is
behind the last one. -/
structure Consistent (table : UserTable) (chains : Bucket → List Nat) : Prop where
  threaded : Threaded table chains
  valid : ∀ slot, table.Live slot → ValidName (table.name slot).bytes
  distinct : ∀ slot other, table.Live slot → table.Live other →
    SameName (table.name slot) (table.name other) → slot = other
  live_le : ∀ slot, table.Live slot → slot ≤ table.number
  number_le : table.number ≤ maxUsers

variable {table table' : UserTable} {chains chains' : Bucket → List Nat}

theorem ValidName.ne_nil {bytes : Bytes} (valid : ValidName bytes) : bytes ≠ [] := by
  rintro rfl
  exact absurd valid.length_ge (by decide)

theorem uhashkey_of_length {bytes : Bytes} (long : 2 ≤ bytes.length) :
    ∃ bucket, uhashkey bytes = some bucket := by
  match bytes, long with
  | first :: second :: rest, _ => exact ⟨_, rfl⟩

/-- The comparison of thirteen bytes is one of whole names. -/
theorem strncaseeq_iff {userid other : CString} (short : other.bytes.length ≤ idLen) :
    strncaseeq (idLen + 1) userid other = true ↔ SameName userid other := by
  rw [strncaseeq, beq_iff_eq, SameName, List.take_of_length_le (Nat.le_succ_of_le short)]
  constructor
  · intro same
    have lengths := congrArg List.length same
    rw [List.length_map, List.length_map, List.length_take] at lengths
    have whole : userid.bytes.take (idLen + 1) = userid.bytes :=
      List.take_of_length_le (by omega)
    rwa [whole] at same
  · intro same
    have lengths := congrArg List.length same
    rw [List.length_map, List.length_map] at lengths
    rwa [List.take_of_length_le (by omega)]

section Search

/-- `searchuser` finds a slot in a chain, and all of them. -/
theorem searchuser_spec (consistent : Consistent table chains) {userid : CString}
    (long : 2 ≤ userid.bytes.length) :
    ∃ found, searchuser table.toUserCache userid = some found ∧
      (found = 0 ∨ table.Live found ∧ SameName userid (table.name found)) ∧
      ∀ slot, table.Live slot → SameName userid (table.name slot) →
        (∃ bucket, slot ∈ chains bucket) → found = slot := by
  obtain ⟨bucket, key⟩ := uhashkey_of_length long
  have threaded := consistent.threaded
  have comparison : ∀ slot, table.Live slot →
      (strncaseeq (idLen + 1) userid (table.name slot) = true ↔
        SameName userid (table.name slot)) :=
    fun slot live => strncaseeq_iff (consistent.valid slot live).length_le
  obtain ⟨found, searched, result⟩ := searchChain_spec (threaded.chain bucket) userid
    (Nat.lt_succ_of_le (threaded.length_le bucket))
  refine ⟨found, ?_, ?_, ?_⟩
  · rw [searchuser, key]
    exact searched
  · rcases result with ⟨isZero, -⟩ | ⟨member, same⟩
    · exact Or.inl isZero
    · have live := threaded.live bucket found member
      exact Or.inr ⟨live, (comparison found live).mp same⟩
  · rintro slot live same ⟨other, member⟩
    -- The slot is in the chain that has been searched, because its key is the same.
    have sameKey : uhashkey (table.name slot).bytes = some bucket := by
      rw [← key, ← uhashkey_map_tolower, ← same, uhashkey_map_tolower]
    have inChain : slot ∈ chains bucket := by
      have keyOther := threaded.key other slot member
      rw [sameKey, Option.some.injEq] at keyOther
      exact keyOther ▸ member
    rcases result with ⟨-, others⟩ | ⟨foundMember, foundSame⟩
    · have missed := others slot inChain
      rw [(comparison slot live).mpr same] at missed
      exact Bool.noConfusion missed
    · have foundLive := threaded.live bucket found foundMember
      have equal := (comparison found foundLive).mp foundSame
      exact consistent.distinct found slot foundLive live (equal.symm.trans same)

end Search

section Create

/-- `searchnewuser` returns a free slot or zero. -/
theorem searchnewuser_spec (live_le : ∀ slot, table.Live slot → slot ≤ table.number)
    (number_le : table.number ≤ maxUsers) (found : table.searchnewuser ≠ 0) :
    table.searchnewuser ≤ maxUsers ∧ (table.name table.searchnewuser).bytes = [] := by
  rw [searchnewuser] at found ⊢
  split
  · rename_i i isFree
    have inside := List.mem_range.mp (List.mem_of_find?_eq_some isFree)
    have free := List.find?_some isFree
    exact ⟨by omega, of_decide_eq_true free⟩
  · rename_i noneFree
    rw [noneFree] at found
    dsimp only at found
    split
    · rename_i room
      refine ⟨room, ?_⟩
      by_contra named
      have := live_le (table.number + 1) ⟨by omega, room, named⟩
      omega
    · rename_i full
      rw [if_neg full] at found
      exact absurd rfl found

/-- The names after a free slot has been given one. -/
theorem named_distinct (consistent : Consistent table chains) {slot : Nat} {userid : CString}
    (positive : slot ≠ 0) (inside : slot ≤ maxUsers) (valid : ValidName userid.bytes)
    (new : ∀ other, table.Live other → ¬SameName userid (table.name other))
    (names : ∀ i, i ≠ 0 → table'.name i = if i = slot then userid else table.name i)
    (number : table'.number = if table.number < slot then slot else table.number)
    (threaded : Threaded table' chains') : Consistent table' chains' := by
  have old : ∀ other, table'.Live other → other ≠ slot →
      table.Live other ∧ table'.name other = table.name other := by
    intro other live ne
    have same := names other (Nat.ne_of_gt live.1)
    rw [if_neg ne] at same
    rw [Live, same] at live
    exact ⟨live, same⟩
  have nameEq : table'.name slot = userid := by
    rw [names slot positive, if_pos rfl]
  refine ⟨threaded, ?_, ?_, ?_, ?_⟩
  · intro other live
    by_cases same : other = slot
    · rw [same, nameEq]
      exact valid
    · obtain ⟨oldLive, oldName⟩ := old other live same
      rw [oldName]
      exact consistent.valid other oldLive
  · intro one two oneLive twoLive equal
    by_cases isOne : one = slot <;> by_cases isTwo : two = slot
    · rw [isOne, isTwo]
    · obtain ⟨oldLive, oldName⟩ := old two twoLive isTwo
      rw [isOne, nameEq, oldName] at equal
      exact absurd equal (new two oldLive)
    · obtain ⟨oldLive, oldName⟩ := old one oneLive isOne
      rw [isTwo, nameEq, oldName] at equal
      exact absurd equal.symm (new one oldLive)
    · obtain ⟨oneOld, oneName⟩ := old one oneLive isOne
      obtain ⟨twoOld, twoName⟩ := old two twoLive isTwo
      rw [oneName, twoName] at equal
      exact consistent.distinct one two oneOld twoOld equal
  · intro other live
    rw [number]
    by_cases same : other = slot
    · split <;> omega
    · have bound := consistent.live_le other (old other live same).1
      split <;> omega
  · rw [number]
    have bound := consistent.number_le
    split <;> omega

/-- A free slot is in no chain. -/
theorem Threaded.free_notMem (threaded : Threaded table chains) {slot : Nat}
    (free : (table.name slot).bytes = []) (bucket : Bucket) : slot ∉ chains bucket :=
  fun member => (threaded.live bucket slot member).2.2 free

/-- A free slot stays free, or gets the name that is not put into a chain. -/
theorem Threaded.rename (threaded : Threaded table chains) {slot : Nat} (nonzero : slot ≠ 0)
    (free : (table.name slot).bytes = []) {userid : CString}
    (unchained : userid.bytes = newName ∨ userid.bytes = []) (number : Nat) :
    Threaded (({ table with number := number } : UserTable).setId slot userid) chains := by
  have notIn := threaded.free_notMem free
  have short : userid.bytes.length ≤ idLen := by
    rcases unchained with isNew | isEmpty
    · rw [isNew]
      decide
    · rw [isEmpty]
      exact Nat.zero_le _
  have names : ∀ i, i ≠ 0 →
      (({ table with number := number } : UserTable).setId slot userid).name i =
        if i = slot then userid else table.name i :=
    fun i inside => name_setId _ userid short nonzero inside
  have kept : ∀ bucket, ∀ i ∈ chains bucket,
      (({ table with number := number } : UserTable).setId slot userid).name i = table.name i := by
    intro bucket i member
    rw [names i (threaded.ne_zero member), if_neg (ne_of_mem_of_not_mem member (notIn bucket))]
  refine ⟨threaded.chain, threaded.backward, ?_, ?_, ?_, threaded.loose⟩
  · intro bucket i member
    rw [Live, kept bucket i member]
    exact threaded.live bucket i member
  · intro bucket i member
    rw [kept bucket i member]
    exact threaded.key bucket i member
  · intro i live notNew
    have ne : i ≠ slot := by
      rintro rfl
      rw [names i nonzero, if_pos rfl] at notNew
      rw [Live, names i nonzero, if_pos rfl] at live
      exact unchained.elim notNew live.2.2
    rw [names i (Nat.ne_of_gt live.1), if_neg ne] at notNew
    rw [Live, names i (Nat.ne_of_gt live.1), if_neg ne] at live
    exact threaded.linked i live notNew

/-- What `setuserid` makes of a free slot. -/
theorem setuserid_threaded (threaded : Threaded table chains) {slot : Nat} {userid : CString}
    (nonzero : slot ≠ 0) (inside : slot ≤ maxUsers) (free : (table.name slot).bytes = [])
    (long : 2 ≤ userid.bytes.length) (short : userid.bytes.length ≤ idLen) :
    ∃ table' chains', table.setuserid slot userid = some table' ∧ Threaded table' chains' ∧
      (∀ i, i ≠ 0 → table'.name i = if i = slot then userid else table.name i) ∧
      table'.number = (if table.number < slot then slot else table.number) ∧
      table'.passwd = table.passwd ∧ table'.details = table.details := by
  obtain ⟨bucket, key⟩ := uhashkey_of_length long
  rw [setuserid, if_pos ⟨Nat.pos_of_ne_zero nonzero, inside⟩]
  dsimp only
  by_cases isNew : userid.bytes = newName
  · rw [if_neg (not_not.mpr isNew)]
    exact ⟨_, chains, rfl, threaded.rename nonzero free (Or.inl isNew) _,
      fun i notZero => name_setId _ userid short nonzero notZero, rfl, rfl, rfl⟩
  · rw [if_pos isNew, key, Option.bind_some]
    obtain ⟨table', chained, appended⟩ := chainSlot_spec
      (show Chain (({ table with number := if table.number < slot then slot else table.number } :
        UserTable).setId slot userid).link _ (chains bucket) from threaded.chain bucket)
      (threaded.length_le bucket) nonzero
    have names : ∀ i, i ≠ 0 → table'.name i = if i = slot then userid else table.name i := by
      intro i notZero
      rw [name, appended.userid]
      exact name_setId _ userid short nonzero notZero
    have nameEq : table'.name slot = userid := by
      rw [names slot nonzero, if_pos rfl]
    have live : table'.Live slot := by
      refine ⟨Nat.one_le_iff_ne_zero.mpr nonzero, inside, ?_⟩
      rw [nameEq]
      exact List.ne_nil_of_length_pos (Nat.lt_of_lt_of_le Nat.two_pos long)
    have linked := threaded.append (threaded.free_notMem free) live (by rw [nameEq]; exact key)
      (by
        intro i notZero ne
        rw [names i notZero, if_neg ne])
      appended.hash appended.links appended.backs
    exact ⟨table', _, chained, linked, names, appended.number, appended.passwd, appended.details⟩

theorem Consistent.substitutAccount (consistent : Consistent table chains) (account : Account)
    (id : Nat) : Consistent (table.substitutAccount account id) chains :=
  ⟨⟨consistent.threaded.chain, consistent.threaded.backward, consistent.threaded.live,
    consistent.threaded.key, consistent.threaded.linked, consistent.threaded.loose⟩,
    consistent.valid, consistent.distinct, consistent.live_le, consistent.number_le⟩

/-- `create_user` keeps the cache consistent, whatever it returns. -/
theorem createUser_consistent {sys : AccountSystem} (consistent : Consistent sys.table chains)
    (outside : Outside) {user : Account} (valid : ValidName user.userid.str.bytes)
    (new : ∀ other, sys.table.Live other → ¬SameName user.userid.str (sys.table.name other)) :
    ∃ ret sys' chains', createUser outside sys user = some (ret, sys') ∧
      Consistent sys'.table chains' := by
  rw [createUser]
  split
  · exact ⟨_, sys, chains, rfl, consistent⟩
  · split
    · exact ⟨_, sys, chains, rfl, consistent⟩
    · dsimp only
      split
      · rw [takeSlot]
        by_cases full : sys.table.searchnewuser = 0
        · rw [if_pos full]
          exact ⟨_, _, chains, rfl, consistent⟩
        · obtain ⟨inside, free⟩ :=
            searchnewuser_spec consistent.live_le consistent.number_le full
          obtain ⟨table', chains', sets, threaded, names, number, -⟩ :=
            setuserid_threaded consistent.threaded full inside free valid.length_ge valid.length_le
          have consistent' := named_distinct consistent full inside valid new names number threaded
          rw [if_neg full, sets]
          exact ⟨_, _, chains', rfl, consistent'.substitutAccount user _⟩
      · exact ⟨_, _, chains, rfl, consistent⟩

end Create

/-- `del_uidshm` on a live slot. -/
theorem delUidshm_consistent (consistent : Consistent table chains) {slot : Nat}
    (live : table.Live slot) :
    ∃ ret table' chains', table.delUidshm slot (table.name slot) = some (ret, table') ∧
      Consistent table' chains' := by
  have threaded := consistent.threaded
  by_cases linked : ∃ bucket, slot ∈ chains bucket
  · obtain ⟨bucket, member⟩ := linked
    obtain ⟨table', chains', removes, threaded', number, names⟩ :=
      delUidshm_linked threaded member
    have old : ∀ other, table'.Live other →
        table.Live other ∧ table'.name other = table.name other := by
      intro other otherLive
      have nameEq := names other (Nat.ne_of_gt otherLive.1)
      have ne : other ≠ slot := by
        rintro rfl
        rw [if_pos rfl] at nameEq
        rw [Live, nameEq] at otherLive
        exact otherLive.2.2 rfl
      rw [if_neg ne] at nameEq
      rw [Live, nameEq] at otherLive
      exact ⟨otherLive, nameEq⟩
    refine ⟨true, table', chains', removes, threaded', ?_, ?_, ?_, ?_⟩
    · intro other otherLive
      rw [(old other otherLive).2]
      exact consistent.valid other (old other otherLive).1
    · intro one two oneLive twoLive equal
      rw [(old one oneLive).2, (old two twoLive).2] at equal
      exact consistent.distinct one two (old one oneLive).1 (old two twoLive).1 equal
    · intro other otherLive
      rw [number]
      exact consistent.live_le other (old other otherLive).1
    · rw [number]
      exact consistent.number_le
  · obtain ⟨bucket, key⟩ := uhashkey_of_length (consistent.valid slot live).length_ge
    exact ⟨false, table, chains,
      delUidshm_unlinked threaded key (fun member => linked ⟨bucket, member⟩), consistent⟩

section Load

/-- The non-empty names of `PASSFILE` are valid and distinct. -/
structure ValidPassfile (passfile : Nat → Account) : Prop where
  valid : ∀ i < maxUsers, (passfile i).userid.str.bytes = [] ∨
    ValidName (passfile i).userid.str.bytes
  distinct : ∀ i < maxUsers, ∀ j < maxUsers, (passfile i).userid.str.bytes ≠ [] →
    SameName (passfile i).userid.str (passfile j).userid.str → i = j

/-- The cache after the first records have been read. -/
structure Loaded (passfile : Nat → Account) (count last : Nat) (table : UserTable)
    (chains : Bucket → List Nat) : Prop where
  threaded : Threaded table chains
  names : ∀ slot, slot ≠ 0 → table.name slot =
    if slot ≤ count then (passfile (slot - 1)).userid.str else CString.empty
  live_le : ∀ slot, table.Live slot → slot ≤ last + 1
  last_lt : last < maxUsers

variable {passfile : Nat → Account} {count last : Nat}

theorem loaded_cleared (passfile : Nat → Account) :
    Loaded passfile 0 0 (cleared passfile) fun _ => [] := by
  have dead : ∀ slot, ¬(cleared passfile).Live slot := fun slot live => live.2.2 rfl
  refine ⟨⟨fun _ => .nil, fun _ => trivial, ?_, ?_, ?_, ?_⟩, ?_, ?_, by decide⟩
  · exact fun _ slot member => absurd member List.not_mem_nil
  · exact fun _ slot member => absurd member List.not_mem_nil
  · exact fun slot live => absurd live (dead slot)
  · exact fun _ _ _ => ⟨rfl, rfl⟩
  · intro slot nonzero
    rw [if_neg (by omega)]
    rfl
  · exact fun slot live => absurd live (dead slot)

/-- One round of the loop of `load_ucache`. -/
theorem fillucache_loaded (validFile : ValidPassfile passfile)
    (loaded : Loaded passfile count last table chains) (inside : count < maxUsers) :
    ∃ filled table' chains',
      table.fillucache (passfile count).userid.str count = some (filled, table') ∧
      Loaded passfile (count + 1) (if filled then count else last) table' chains' := by
  have threaded := loaded.threaded
  have nonzero := Nat.succ_ne_zero count
  have free : (table.name (count + 1)).bytes = [] := by
    rw [loaded.names (count + 1) nonzero, if_neg (Nat.not_succ_le_self count)]
    rfl
  have namesNext : ∀ table' : UserTable, (∀ i, i ≠ 0 → table'.name i =
      if i = count + 1 then (passfile count).userid.str else table.name i) →
      ∀ i, i ≠ 0 → table'.name i =
        if i ≤ count + 1 then (passfile (i - 1)).userid.str else CString.empty := by
    intro table' names i notZero
    rw [names i notZero]
    by_cases here : i = count + 1
    · rw [if_pos here, if_pos (Nat.le_of_eq here), here, Nat.add_sub_cancel]
    · rw [if_neg here, loaded.names i notZero]
      by_cases earlier : i ≤ count
      · rw [if_pos earlier, if_pos (Nat.le_succ_of_le earlier)]
      · rw [if_neg earlier, if_neg (by omega)]
  rcases validFile.valid count inside with isEmpty | valid
  · -- A record without a name leaves the slot free.
    have short : (passfile count).userid.str.bytes.length ≤ idLen := by
      rw [isEmpty]
      exact Nat.zero_le _
    have names := fun i notZero => name_setId table (passfile count).userid.str short nonzero
      (show i ≠ 0 from notZero)
    refine ⟨false, table.setId (count + 1) (passfile count).userid.str, chains, ?_,
      threaded.rename nonzero free (Or.inr isEmpty) table.number, namesNext _ names, ?_,
      loaded.last_lt⟩
    · rw [fillucache, if_pos inside]
      dsimp only
      rw [if_neg (not_not.mpr isEmpty)]
    · intro slot live
      have ne : slot ≠ count + 1 := by
        rintro rfl
        rw [Live, names _ nonzero, if_pos rfl] at live
        exact live.2.2 isEmpty
      rw [Live, names slot (Nat.ne_of_gt live.1), if_neg ne] at live
      exact loaded.live_le slot live
  · obtain ⟨bucket, key⟩ := uhashkey_of_length valid.length_ge
    have notIn := threaded.free_notMem free
    obtain ⟨looseNext, looseBack⟩ := threaded.loose (count + 1) nonzero notIn
    obtain ⟨table', fills, appended⟩ := fillucache_spec inside valid.ne_nil key
      (threaded.chain bucket) (threaded.length_le bucket) looseNext looseBack
      (fun isLast => notIn bucket (List.mem_of_getLast? isLast))
    have names : ∀ i, i ≠ 0 → table'.name i =
        if i = count + 1 then (passfile count).userid.str else table.name i := by
      intro i notZero
      rw [name, appended.userid]
      exact name_setId table _ valid.length_le nonzero notZero
    have nameEq : table'.name (count + 1) = (passfile count).userid.str := by
      rw [names _ nonzero, if_pos rfl]
    have linked := threaded.append notIn
      (show table'.Live (count + 1) from
        ⟨Nat.succ_pos count, inside, by rw [nameEq]; exact valid.ne_nil⟩)
      (by rw [nameEq]; exact key)
      (by
        intro i notZero ne
        rw [names i notZero, if_neg ne])
      appended.hash appended.links appended.backs
    refine ⟨true, table', _, fills, linked, namesNext table' names, ?_, inside⟩
    intro slot live
    have bound : slot ≤ count + 1 := by
      by_contra later
      have nameLater := namesNext table' names slot (Nat.ne_of_gt live.1)
      rw [if_neg later] at nameLater
      rw [Live, nameLater] at live
      exact live.2.2 rfl
    exact bound

theorem fillFrom_loaded (validFile : ValidPassfile passfile) {rounds : Nat}
    (loaded : Loaded passfile count last table chains) (all : count + rounds = maxUsers) :
    ∃ last' table' chains',
      fillFrom passfile (List.range' count rounds) last table = some (last', table') ∧
      Loaded passfile maxUsers last' table' chains' := by
  induction rounds generalizing count last table chains with
  | zero => exact ⟨last, table, chains, rfl, all ▸ loaded⟩
  | succ rounds ih =>
    obtain ⟨filled, table₁, chains₁, fills, loaded₁⟩ :=
      fillucache_loaded validFile loaded (by omega)
    obtain ⟨last', table', chains', rest, loaded'⟩ := ih loaded₁ (by omega)
    refine ⟨last', table', chains', ?_, loaded'⟩
    rw [List.range'_succ, fillFrom, fills]
    exact rest

/-- `load_ucache` builds a consistent cache. -/
theorem loadUcache_consistent (validFile : ValidPassfile passfile) :
    ∃ table chains, loadUcache passfile = some table ∧ Consistent table chains ∧
      ∀ slot, table.Live slot → table.name slot = (passfile (slot - 1)).userid.str := by
  obtain ⟨last, table, chains, fills, loaded⟩ :=
    fillFrom_loaded validFile (loaded_cleared passfile) (Nat.zero_add maxUsers)
  have names : ∀ slot, table.Live slot →
      slot - 1 < maxUsers ∧ table.name slot = (passfile (slot - 1)).userid.str := by
    intro slot live
    have nameEq := loaded.names slot (Nat.ne_of_gt live.1)
    rw [if_pos live.2.1] at nameEq
    exact ⟨by have := live.1; have := live.2.1; omega, nameEq⟩
  refine ⟨{ table with number := last + 1 }, chains, ?_, ⟨⟨loaded.threaded.chain,
    loaded.threaded.backward, loaded.threaded.live, loaded.threaded.key, loaded.threaded.linked,
    loaded.threaded.loose⟩, ?_, ?_, loaded.live_le, loaded.last_lt⟩,
    fun slot live => (names slot live).2⟩
  · rw [loadUcache, List.range_eq_range', fills]
    rfl
  · intro slot live
    obtain ⟨inside, nameEq⟩ := names slot live
    have valid := (validFile.valid _ inside).resolve_left (nameEq ▸ live.2.2)
    change ValidName (table.name slot).bytes
    rw [nameEq]
    exact valid
  · intro slot other live otherLive same
    obtain ⟨inside, nameEq⟩ := names slot live
    obtain ⟨otherInside, otherEq⟩ := names other otherLive
    change SameName (table.name slot) (table.name other) at same
    rw [nameEq, otherEq] at same
    have equal := validFile.distinct _ inside _ otherInside (nameEq ▸ live.2.2) same
    have := live.1
    have := otherLive.1
    omega

end Load

section Keys

/-- The indices are inside the array `hash`. -/
def InHash (bucket : Bucket) : Prop :=
  bucket.1 < 26 ∧ bucket.2.1 < 26 ∧ 0 ≤ bucket.2.2 ∧ bucket.2.2 < 256

theorem letterIndex_lt (c : UInt8) : letterIndex c < 26 := by
  rw [letterIndex]
  simp only [UInt8.le_iff_toNat_le, UInt8.reduceToNat]
  split
  · omega
  · split <;> omega

/-- The key of a name of letters is an index of the array. -/
theorem uhashkey_inHash {bytes : Bytes} (long : 2 ≤ bytes.length)
    (letters : ∀ c ∈ bytes, isalpha c) :
    ∃ bucket, uhashkey bytes = some bucket ∧ InHash bucket := by
  match bytes, long with
  | first :: second :: rest, _ =>
    have nonneg : 0 ≤ CaseTable.glibc.keySum rest := by
      apply List.sum_nonneg
      intro value member
      obtain ⟨c, inRest, rfl⟩ := List.mem_map.mp member
      apply CaseTable.glibc_raise_nonneg
      have letter := letters c (by simp [inRest])
      simp only [isalpha, UInt8.le_iff_toNat_le, UInt8.reduceToNat] at letter
      omega
    refine ⟨_, rfl, letterIndex_lt first, letterIndex_lt second, ?_, ?_⟩
    · exact Int.tmod_nonneg 256 nonneg
    · exact Int.tmod_lt_of_pos _ (by decide)

end Keys

/-- The cache is a map of names to slots; `new` may be missing from the chains. -/
structure RefinesNames (table : UserTable) : Prop where
  unique : ∀ slot other, table.Live slot → table.Live other →
    SameName (table.name slot) (table.name other) → slot = other
  inverse : ∀ slot other, slot ≠ 0 → other ≠ 0 →
    (table.link slot = other ↔ table.back other = slot)
  chains : ∃ chains : Bucket → List Nat,
    (∀ bucket, Chain table.link (table.hashAt bucket) (chains bucket)) ∧
    (∀ bucket, ∀ slot ∈ chains bucket, table.Live slot ∧
      uhashkey (table.name slot).bytes = some bucket ∧ InHash bucket) ∧
    ∀ slot, table.Live slot → (table.name slot).bytes ≠ newName → ∃! bucket, slot ∈ chains bucket
  search : ∀ userid : CString, 2 ≤ userid.bytes.length → (∀ c ∈ userid.bytes, isalpha c) →
    ∃ found, searchuser table.toUserCache userid = some found ∧
      (found = 0 ∨ table.Live found ∧ SameName userid (table.name found)) ∧
      ∀ slot, table.Live slot → SameName userid (table.name slot) →
        (table.name slot).bytes ≠ newName → found = slot

theorem refinesNames_of_consistent (consistent : Consistent table chains) : RefinesNames table := by
  have threaded := consistent.threaded
  refine ⟨consistent.distinct, fun slot other => threaded.link_eq_iff_back_eq,
    ⟨chains, threaded.chain, ?_, ?_⟩, ?_⟩
  · intro bucket slot member
    have live := threaded.live bucket slot member
    have valid := consistent.valid slot live
    have key := threaded.key bucket slot member
    obtain ⟨other, otherKey, inHash⟩ := uhashkey_inHash valid.length_ge valid.letters
    rw [key, Option.some.injEq] at otherKey
    exact ⟨live, key, otherKey ▸ inHash⟩
  · intro slot live notNew
    obtain ⟨bucket, member⟩ := threaded.linked slot live notNew
    exact ⟨bucket, member, fun other again => threaded.bucket_unique again member⟩
  · intro userid long _
    obtain ⟨found, searched, result, all⟩ := searchuser_spec consistent long
    refine ⟨found, searched, result, ?_⟩
    intro slot live same notNew
    exact all slot live same (threaded.linked slot live notNew)

/-- Calls that change the accounts; others may change the table `users` and the
home directories at any time. -/
inductive AccountCall
  | create (outside : Outside) (user : Account)
  | del (num : Nat)
  | others (users : List UsersRow) (home : CString → Bool)

def accountStep (sys : AccountSystem) : AccountCall → Option AccountSystem
  | .create outside user => (createUser outside sys user).map Prod.snd
  | .del num => (sys.table.delUidshm num (sys.table.name num)).map fun (_, table) =>
    { sys with table := table }
  | .others users home => some { sys with users := users, home := home }

/-- New accounts have valid names that are not present, and live slots are removed. -/
def AllowedCall (sys : AccountSystem) : AccountCall → Prop
  | .create _ user => ValidName user.userid.str.bytes ∧
      ∀ slot, sys.table.Live slot → ¬SameName user.userid.str (sys.table.name slot)
  | .del num => sys.table.Live num
  | .others _ _ => True

theorem accountStep_consistent {sys : AccountSystem} (consistent : Consistent sys.table chains)
    {call : AccountCall} (allowed : AllowedCall sys call) :
    ∃ next chains', accountStep sys call = some next ∧ Consistent next.table chains' := by
  cases call with
  | create outside user =>
    obtain ⟨ret, next, chains', created, consistent'⟩ :=
      createUser_consistent consistent outside allowed.1 allowed.2
    exact ⟨next, chains', by rw [accountStep, created]; rfl, consistent'⟩
  | del num =>
    obtain ⟨ret, table', chains', removed, consistent'⟩ :=
      delUidshm_consistent consistent allowed
    exact ⟨{ sys with table := table' }, chains', by rw [accountStep, removed]; rfl, consistent'⟩
  | others users home => exact ⟨_, chains, rfl, consistent⟩

theorem accountRun_consistent {calls : List AccountCall} {sys : AccountSystem}
    (consistent : Consistent sys.table chains)
    (allowed : Guarded accountStep AllowedCall calls sys) :
    ∃ final chains', run accountStep calls sys = some final ∧ Consistent final.table chains' := by
  induction calls generalizing sys chains with
  | nil => exact ⟨sys, chains, rfl, consistent⟩
  | cons call calls ih =>
    obtain ⟨next, chains₁, stepEq, consistent₁⟩ := accountStep_consistent consistent allowed.1
    obtain ⟨final, chains', runs, consistent'⟩ := ih consistent₁ (allowed.2 next stepEq)
    refine ⟨final, chains', ?_, consistent'⟩
    rw [run, stepEq]
    exact runs

/-- After every run of allowed calls on a loaded cache, the cache is a map of
names to slots. -/
theorem loaded_cache_refinesNames {passfile : Nat → Account} (validFile : ValidPassfile passfile)
    (users : List UsersRow) (home : CString → Bool) :
    ∃ table, loadUcache passfile = some table ∧
      ∀ calls, Guarded accountStep AllowedCall calls ⟨table, users, home⟩ →
        ∃ final, run accountStep calls ⟨table, users, home⟩ = some final ∧
          RefinesNames final.table := by
  obtain ⟨table, chains, loads, consistent, -⟩ := loadUcache_consistent validFile
  refine ⟨table, loads, fun calls allowed => ?_⟩
  obtain ⟨final, chains', runs, consistent'⟩ := accountRun_consistent consistent allowed
  exact ⟨final, runs, refinesNames_of_consistent consistent'⟩

/-- A record with a name and no password. -/
def accountOf (userid : CharArray extIdLen) : Account :=
  ⟨⟨0⟩, userid, ⟨CString.empty, by decide⟩⟩

def noName : CharArray extIdLen := ⟨CString.empty, by decide⟩

/-- `guest`. -/
def guestName : CharArray extIdLen := ⟨⟨[103, 117, 101, 115, 116], by decide⟩, by decide⟩

/-- `new`. -/
def newUserid : CharArray extIdLen := ⟨⟨newName, by decide⟩, by decide⟩

/-- A file with one account. -/
def guestPassfile (i : Nat) : Account :=
  if i = 0 then accountOf guestName else accountOf noName

theorem guestPassfile_valid : ValidPassfile guestPassfile := by
  have named : ∀ i, (guestPassfile i).userid.str.bytes ≠ [] → i = 0 := by
    intro i hasName
    by_contra later
    rw [guestPassfile, if_neg later] at hasName
    exact hasName rfl
  have guest : ValidName guestName.str.bytes :=
    ⟨by decide, by decide, by simp only [isalpha]; decide +kernel⟩
  constructor
  · intro i _
    rw [guestPassfile]
    split
    · exact Or.inr guest
    · exact Or.inl rfl
  · intro i _ j _ hasName same
    have otherNamed : (guestPassfile j).userid.str.bytes ≠ [] := by
      intro isEmpty
      rw [SameName, isEmpty, List.map_nil, List.map_eq_nil_iff] at same
      exact hasName same
    rw [named i hasName, named j otherNamed]

/-- `ann`. -/
def annName : CharArray extIdLen := ⟨⟨[97, 110, 110], by decide⟩, by decide⟩

/-- An account is added to the one in the file. -/
theorem loaded_cache_refinesNames_ann :
    ∃ table final, loadUcache guestPassfile = some table ∧
      run accountStep [.create ⟨some 2, true⟩ (accountOf annName)]
        ⟨table, [], fun _ => false⟩ = some final ∧ RefinesNames final.table := by
  obtain ⟨table, loads, refines⟩ :=
    loaded_cache_refinesNames guestPassfile_valid [] fun _ => false
  obtain ⟨_, _, loads', -, names⟩ := loadUcache_consistent guestPassfile_valid
  obtain rfl := Option.some.inj (loads.symm.trans loads')
  have valid : ValidName annName.str.bytes :=
    ⟨by decide, by decide, by simp only [isalpha]; decide +kernel⟩
  have isNew : ∀ slot, table.Live slot → ¬SameName annName.str (table.name slot) := by
    intro slot live
    rw [names slot live, guestPassfile, SameName]
    split
    · decide
    · decide
  obtain ⟨final, runs, refined⟩ := refines [.create ⟨some 2, true⟩ (accountOf annName)]
    ⟨⟨valid, isNew⟩, fun _ _ => trivial⟩
  exact ⟨table, final, loads, runs, refined⟩

theorem setId_cleared (passfile : Nat → Account) (i : Nat) :
    (cleared passfile).setId (i + 1) CString.empty = cleared passfile := by
  have same : Function.update (fun _ => noUserid) (i + 1 - 1)
      (Message.getCharArray (idLen + 1) (Nat.succ_pos idLen) CString.empty) =
        fun _ => noUserid :=
    Function.update_eq_self (i + 1 - 1) fun _ => noUserid
  rw [setId]
  exact congrArg (fun ids => { cleared passfile with userid := ids }) same

/-- A file without accounts leaves the cache as it was cleared. -/
theorem loadUcache_empty :
    loadUcache (fun _ => accountOf noName) =
      some { cleared fun _ => accountOf noName with number := 1 } := by
  have fills : ∀ indices : List Nat,
      fillFrom (fun _ => accountOf noName) indices 0 (cleared fun _ => accountOf noName) =
        some (0, cleared fun _ => accountOf noName) := by
    intro indices
    induction indices with
    | nil => rfl
    | cons i indices ih =>
      have fill : (cleared fun _ => accountOf noName).fillucache CString.empty i =
          some (false, cleared fun _ => accountOf noName) := by
        rw [fillucache, setId_cleared]
        split <;> rfl
      rw [fillFrom]
      change (fillucache _ CString.empty i).bind _ = _
      rw [fill]
      exact ih
  rw [loadUcache, fills]
  rfl

/-- An account that is created with the name `new` is not found. -/
theorem new_account_not_found :
    ∃ table final, loadUcache (fun _ => accountOf noName) = some table ∧
      AllowedCall ⟨table, [], fun _ => false⟩ (.create ⟨some 1, true⟩ (accountOf newUserid)) ∧
      createUser ⟨some 1, true⟩ ⟨table, [], fun _ => false⟩ (accountOf newUserid) =
        some (0, final) ∧
      final.table.Live 1 ∧ SameName newUserid.str (final.table.name 1) ∧
      searchuser final.table.toUserCache newUserid.str = some 0 ∧
      ∀ nodes bucket, Chain final.table.link (final.table.hashAt bucket) nodes → 1 ∉ nodes := by
  have valid : ValidName newUserid.str.bytes :=
    ⟨by decide, by decide, by simp only [isalpha]; decide +kernel⟩
  refine ⟨_, _, loadUcache_empty, ⟨valid, ?_⟩, rfl, ⟨by decide, by decide, by decide⟩,
    rfl, rfl, ?_⟩
  · exact fun slot live => absurd rfl live.2.2
  · intro nodes bucket chain member
    have empty : nodes = [] := Chain.eq_nil chain
    rw [empty] at member
    exact List.not_mem_nil member

end UserTable

end Fbbs
