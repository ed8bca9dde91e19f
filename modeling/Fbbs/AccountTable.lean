import Fbbs.LinkedChains
import Fbbs.UserCache

/-!
# Creating and removing accounts

The rest of `lib/ucache.c`: the slots of the user cache are linked to each other
in both directions, one chain for every key of the hash table.  `load_ucache`
fills the cache from `PASSFILE`, `create_user` takes a free slot after it has
inserted a row into the table `users`, and `del_uidshm` frees a slot.
-/

namespace Fbbs

open AsciiBytes UserCache LinkedChains

/-- `EXT_IDLEN`. -/
def extIdLen : Nat := 16

/-- `PASSLEN`. -/
def passLen : Nat := 14

/-- The fields of `struct userec` that creating an account reads. -/
structure UserDetails where
  userid : CharArray extIdLen
  passwd : CharArray passLen
  deriving DecidableEq

/-- `struct userec`. -/
structure Account extends Userec, UserDetails where
  deriving DecidableEq

/-- `struct UCACHE` with the links back, the last occupied slot, and the rest of
the records. -/
structure UserTable extends UserCache where
  prev : Nat → Nat
  number : Nat
  details : Nat → UserDetails

/-- The indices of a chain in the array `hash`. -/
abbrev Bucket := Nat × Nat × Int

namespace UserTable

def hashAt (table : UserTable) (bucket : Bucket) : Nat :=
  table.hash bucket.1 bucket.2.1 bucket.2.2

def setHash (table : UserTable) (bucket : Bucket) (slot : Nat) : UserTable :=
  { table with
    hash := fun a1 a2 key => if (a1, a2, key) = bucket then slot else table.hash a1 a2 key }

/-- `uidshm->next[slot - 1] = target`. -/
def setNext (table : UserTable) (slot target : Nat) : UserTable :=
  { table with next := Function.update table.next (slot - 1) target }

/-- `uidshm->prev[slot - 1] = target`. -/
def setPrev (table : UserTable) (slot target : Nat) : UserTable :=
  { table with prev := Function.update table.prev (slot - 1) target }

/-- `strlcpy` to `uidshm->userid[slot - 1]`. -/
def setId (table : UserTable) (slot : Nat) (userid : CString) : UserTable :=
  { table with
    userid := Function.update table.userid (slot - 1)
      (Message.getCharArray (idLen + 1) (Nat.succ_pos idLen) userid) }

/-- `substitut_record`: the whole record is copied. -/
def substitutAccount (table : UserTable) (account : Account) (id : Nat) : UserTable :=
  { table with
    passwd := Function.update table.passwd (id - 1) account.toUserec
    details := Function.update table.details (id - 1) account.toUserDetails }

/-- The loops that look for the end of a chain, in `fillucache` and `setuserid`. -/
def lastSlot (table : UserTable) : Nat → Nat → Option Nat
  | 0, _ => none
  | fuel + 1, i =>
    if table.next (i - 1) ≠ 0 then table.lastSlot fuel (table.next (i - 1)) else some i

/-- `fillucache`, which returns whether there is an account. -/
def fillucache (table : UserTable) (userid : CString) (count : Nat) :
    Option (Bool × UserTable) :=
  if count < maxUsers then
    let table := table.setId (count + 1) userid
    if userid.bytes ≠ [] then
      (uhashkey userid.bytes).bind fun bucket =>
        if table.hashAt bucket = 0 then some (true, table.setHash bucket (count + 1))
        else
          (table.lastSlot maxUsers (table.hashAt bucket)).map fun i =>
            (true, (table.setNext i (count + 1)).setPrev (count + 1) i)
    else some (false, table)
  else some (false, table)

/-- The loop of `load_ucache` over some indices, with the last one that has an
account. -/
def fillFrom (passfile : Nat → Account) : List Nat → Nat → UserTable → Option (Nat × UserTable)
  | [], last, table => some (last, table)
  | i :: rest, last, table =>
    (table.fillucache (passfile i).userid.str i).bind fun (filled, table) =>
      fillFrom passfile rest (if filled then i else last) table

/-- An empty slot. -/
def noUserid : CharArray (idLen + 1) := ⟨CString.empty, Nat.succ_pos _⟩

/-- The cache after the calls of `memset` in `load_ucache`. -/
def cleared (passfile : Nat → Account) : UserTable where
  userid := fun _ => noUserid
  next := fun _ => 0
  hash := fun _ _ _ => 0
  passwd := fun i => (passfile i).toUserec
  prev := fun _ => 0
  number := 0
  details := fun i => (passfile i).toUserDetails

/-- `load_ucache` for the `MAXUSERS` records of `PASSFILE`. -/
def loadUcache (passfile : Nat → Account) : Option UserTable :=
  (fillFrom passfile (List.range maxUsers) 0 (cleared passfile)).map fun (last, table) =>
    { table with number := last + 1 }

/-- The name that `setuserid` does not put into a chain. -/
def newName : Bytes := [110, 101, 119]

/-- The part of `setuserid` that fills the hash table. -/
def chainSlot (table : UserTable) (num : Nat) (bucket : Bucket) : Option UserTable :=
  if table.hashAt bucket = 0 then
    some (((table.setHash bucket num).setNext num 0).setPrev num 0)
  else
    (table.lastSlot maxUsers (table.hashAt bucket)).map fun i =>
      ((table.setNext i num).setPrev num i).setNext num 0

def setuserid (table : UserTable) (num : Nat) (userid : CString) : Option UserTable :=
  if 0 < num ∧ num ≤ maxUsers then
    let table :=
      ({ table with number := if table.number < num then num else table.number }).setId num userid
    if userid.bytes ≠ newName then
      (uhashkey userid.bytes).bind fun bucket => table.chainSlot num bucket
    else some table
  else some table

/-- `searchnewuser`: a free slot, or zero. -/
def searchnewuser (table : UserTable) : Nat :=
  match (List.range table.number).find? fun i => (table.userid i).str.bytes = [] with
  | some i => i + 1
  | none => if table.number < maxUsers then table.number + 1 else 0

/-- The loop of `del_uidshm`. -/
def findSlot (table : UserTable) (num : Nat) : Nat → Nat → Option Nat
  | 0, _ => none
  | fuel + 1, i =>
    if i ≠ num ∧ 0 < i then table.findSlot num fuel (table.next (i - 1)) else some i

/-- The part of `del_uidshm` that takes a slot out of its chain. -/
def unchain (table : UserTable) (bucket : Bucket) (i : Nat) : UserTable :=
  if table.next (i - 1) ≠ 0 then
    if table.prev (i - 1) ≠ 0 then
      let table := table.setNext (table.prev (i - 1)) (table.next (i - 1))
      table.setPrev (table.next (i - 1)) (table.prev (i - 1))
    else
      let table := table.setHash bucket (table.next (i - 1))
      table.setPrev (table.next (i - 1)) 0
  else if table.prev (i - 1) ≠ 0 then table.setNext (table.prev (i - 1)) 0
  else table.setHash bucket 0

/-- `del_uidshm`, which returns whether it has found the slot. -/
def delUidshm (table : UserTable) (num : Nat) (userid : CString) : Option (Bool × UserTable) :=
  if num = 0 ∨ maxUsers < num then some (false, table)
  else
    (uhashkey userid.bytes).bind fun bucket =>
      if table.hashAt bucket = 0 then some (false, table)
      else
        (table.findSlot num (maxUsers + 1) (table.hashAt bucket)).map fun i =>
          if i ≠ num ∨ i = 0 then (false, table)
          else
            (true, (((table.unchain bucket i).setNext i 0).setPrev i 0).setId i CString.empty)

end UserTable

/-- A row of `users`. -/
structure UsersRow where
  id : UserId
  name : CString
  passwd : CString
  alive : Bool
  deriving DecidableEq

/-- `INSERT INTO users`, with the next number of the sequence; a unique index
covers the names of the rows that are alive. -/
def insertUser (users : List UsersRow) (id : UserId) (name passwd : CString) :
    Option (List UsersRow) :=
  if users.any fun row => row.alive && row.name.bytes.map tolower == name.bytes.map tolower then
    none
  else some (users ++ [⟨id, name, passwd, true⟩])

/-- The user cache, the table `users` and the names that have a home directory. -/
structure AccountSystem where
  table : UserTable
  users : List UsersRow
  home : CString → Bool

/-- What a call of `create_user` finds outside: the next number of the sequence if
the database can be reached, and whether the cache can be locked. -/
structure Outside where
  serial : Option UserId
  locks : Bool

def ucacheEintnl : Int32 := -1
def ucacheEexist : Int32 := -2
def ucacheEfull : Int32 := -3

/-- What `create_user` does to the cache while it has the lock. -/
def takeSlot (table : UserTable) (user : Account) : Option (Int32 × UserTable) :=
  let i := table.searchnewuser
  if i = 0 then some (ucacheEfull, table)
  else
    (table.setuserid i user.userid.str).map fun table => (0, table.substitutAccount user i)

def createUser (outside : Outside) (sys : AccountSystem) (user : Account) :
    Option (Int32 × AccountSystem) :=
  if sys.home user.userid.str then some (ucacheEexist, sys)
  else
    match outside.serial.bind fun id =>
        insertUser sys.users id user.userid.str user.passwd.str with
    | none => some (ucacheEexist, sys)
    | some users =>
      let sys := { sys with users := users }
      if outside.locks then
        (takeSlot sys.table user).map fun (ret, table) => (ret, { sys with table := table })
      else some (ucacheEintnl, sys)

end Fbbs
