import Fbbs.DecimalText
import Fbbs.UserIdCache

/-!
# Web sessions

A web login puts a row into `sessions` and an entry for the user, the key and the address into a
hash of the cache server.  A request is accepted by the entry, or else by the row, which
`activate_session` makes active again; `util/clean_session.c` takes rows back.
-/

namespace Fbbs

namespace WebSessions

/-- `IP_LEN` and `IPLEN`. -/
def ipLen : Nat := 40

def sessionKeyLen : Nat := 30

def passLen : Nat := 14

def webActiveLoginQuota : Nat := 4

/-- Two weeks. -/
def cookiePersistentPeriod : UInt32 := 2 * 7 * 24 * 60 * 60

def permLogin : UInt32 := 0x1

def permSysops : UInt32 := 0x2000

structure Userec where
  userid : Bytes
  userlevel : UInt32

/-- The accounts, which stay the same here. -/
structure Accounts where
  getUserId : Bytes → Int32
  getuserec : Bytes → Option Userec
  passwdCheck : Bytes → Bytes → Bool

def isHexDigit (byte : UInt8) : Bool :=
  48 ≤ byte && byte ≤ 57 || 97 ≤ byte && byte ≤ 102

/-- What `generate_session_key` makes for the cookie. -/
structure SessionKey where
  bytes : Bytes
  hex : ∀ byte ∈ bytes, isHexDigit byte = true
  length : bytes.length = sessionKeyLen
  deriving DecidableEq

/-- What the server gives as `REMOTE_ADDR`. -/
structure Address where
  bytes : Bytes
  plain : 45 ∉ bytes ∧ 32 ∉ bytes
  short : bytes.length < ipLen

/-- A row of `sessions` with `web` set. -/
structure Row where
  id : Int
  sessionKey : SessionKey
  active : Bool
  userId : Int32
  stamp : UInt32
  expire : UInt32

structure Store where
  rows : List Row
  /-- The hash of the cache server. -/
  cache : Bytes → Option Int
  /-- `sessions_id_seq`. -/
  nextId : Int

/-- The cookies of a request.  A percent sign in the key would be a directive for
`redisCommand`. -/
structure Request where
  uname : Bytes
  key : Bytes
  plain : 37 ∉ key
  token : Bytes
  apiGet : Bool
  ip : Address
  now : UInt32

/-! ## Keys and entries -/

def hexDigit (n : UInt8) : UInt8 :=
  if n < 10 then 48 + n else 87 + n

def digestToHex (digest : Fin 20 → UInt8) : Bytes :=
  (List.finRange 20).flatMap fun i => [hexDigit (digest i >>> 4), hexDigit (digest i &&& 0x0f)]

theorem isHexDigit_hexDigit {n : UInt8} (small : n < 16) : isHexDigit (hexDigit n) = true := by
  have small' : n.toNat < 16 := UInt8.lt_iff_toNat_lt.mp small
  have all : ∀ i : Fin 16, isHexDigit (hexDigit (UInt8.ofNat i)) = true := by decide
  have here := all ⟨n.toNat, small'⟩
  rwa [UInt8.ofNat_toNat] at here

theorem isHexDigit_of_mem_digestToHex {digest : Fin 20 → UInt8} {byte : UInt8}
    (member : byte ∈ digestToHex digest) : isHexDigit byte = true := by
  obtain ⟨i, -, place⟩ := List.mem_flatMap.mp member
  rcases List.mem_pair.mp place with rfl | rfl
  · apply isHexDigit_hexDigit
    rw [UInt8.lt_iff_toNat_lt, UInt8.toNat_shiftRight]
    have := (digest i).toNat_lt
    change (digest i).toNat >>> 4 < 16
    omega
  · apply isHexDigit_hexDigit
    rw [UInt8.lt_iff_toNat_lt, UInt8.toNat_and]
    exact lt_of_le_of_lt Nat.and_le_right (by decide)

theorem length_digestToHex (digest : Fin 20 → UInt8) : (digestToHex digest).length = 40 := by
  rfl

/-- The first part of the digits is the key, and the rest the token. -/
def generateSessionKey (digest : Fin 20 → UInt8) : SessionKey where
  bytes := (digestToHex digest).take sessionKeyLen
  hex := fun _ member => isHexDigit_of_mem_digestToHex (List.mem_of_mem_take member)
  length := by rw [List.length_take, length_digestToHex]; rfl

/-- `make_entry`, with the size of its buffer. -/
def makeEntry (userId : Int32) (key : Bytes) (ip : Address) : Bytes :=
  (DecimalText.ofInt userId.toInt ++ 45 :: (key ++ 45 :: ip.bytes)).take
    (ipLen + sessionKeyLen + 31)

/-- `HGET`, with 0 on a miss.  A blank would split the entry into two arguments. -/
def Store.getWebCache (store : Store) (userId : Int32) (key : Bytes) (ip : Address) : Int :=
  let entry := makeEntry userId key ip
  if 32 ∈ entry then 0 else (store.cache entry).getD 0

/-- `HSET`. -/
def Store.setWebCache (store : Store) (userId : Int32) (key : SessionKey) (sid : Int)
    (ip : Address) : Store :=
  { store with cache := Function.update store.cache (makeEntry userId key.bytes ip) (some sid) }

@[simp]
theorem cache_setWebCache (store : Store) (userId : Int32) (key : SessionKey) (sid : Int)
    (ip : Address) : (store.setWebCache userId key sid ip).cache =
      Function.update store.cache (makeEntry userId key.bytes ip) (some sid) :=
  rfl

/-! ## Logging in -/

def checkWebLoginQuota (store : Store) (userId : Int32) : Nat :=
  (store.rows.filter fun row => row.active && row.userId == userId).length

def hasPerm (permission : UInt32) (user : Userec) : Bool :=
  user.userlevel &&& permission ≠ 0

/-- Whether it returns 0.  The password is not asked for when a session is made active again. -/
def doWebLogin (accounts : Accounts) (store : Store) (uname : Bytes) (pw : Option Bytes) : Bool :=
  match accounts.getuserec uname with
  | none => false
  | some user =>
    if pw.any fun pw => !accounts.passwdCheck uname pw then false
    else if !hasPerm permSysops user &&
        webActiveLoginQuota ≤ checkWebLoginQuota store (accounts.getUserId uname) then false
    else hasPerm permLogin user

/-- The row becomes active before anything is checked. -/
def activateSession (accounts : Accounts) (store : Store) (sid : Int) (uname : Bytes)
    (now : UInt32) : Bool × Store :=
  let store := { store with
    rows := store.rows.map fun row =>
      if row.id = sid then { row with active := true, stamp := now } else row }
  (doWebLogin accounts store uname none, store)

/-- The rows that `_get_session` selects. -/
def Store.selected (store : Store) (userId : Int32) (key : Bytes) : List Row :=
  store.rows.filter fun row => row.userId == userId && row.sessionKey.bytes == key

/-- The id of the session, or 0. -/
def getSession (accounts : Accounts) (store : Store) (request : Request) : Int × Store :=
  let userId := accounts.getUserId request.uname
  if 0 < userId then
    let sid := store.getWebCache userId request.key request.ip
    if 0 < sid then (sid, store)
    else
      match store.selected userId request.key with
      | [row] =>
        if row.active then
          (row.id, store.setWebCache userId row.sessionKey row.id request.ip)
        else
          match activateSession accounts store row.id request.uname request.now with
          | (true, store) =>
            (row.id, store.setWebCache userId row.sessionKey row.id request.ip)
          | (false, store) => (0, store)
      | _ => (0, store)
  else (0, store)

def sessionValidate (accounts : Accounts) (store : Store) (request : Request) : Int × Store :=
  if request.apiGet && request.token != request.key then (0, store)
  else getSession accounts store request

structure Ticket where
  userId : Int32
  key : SessionKey
  sid : Int

/-- `_web_login`, with `session_new_id` and `session_new`. -/
def newSession (store : Store) (userId : Int32) (ip : Address) (now : UInt32) (persistent : Bool)
    (digest : Fin 20 → UInt8) : Ticket × Store :=
  let key := generateSessionKey digest
  let sid := store.nextId
  let row : Row :=
    { id := sid, sessionKey := key, active := true, userId := userId, stamp := now,
      expire := now + if persistent then cookiePersistentPeriod else 0 }
  let store := { store with rows := store.rows ++ [row], nextId := sid + 1 }
  (⟨userId, key, sid⟩, store.setWebCache userId key sid ip)

def guest : Bytes := [103, 117, 101, 115, 116]

/-- `web_login`, or `api_login`: the name and the password come with the request. -/
def webLogin (accounts : Accounts) (store : Store) (request : Request) (api : Bool)
    (uname pw : Bytes) (persistent : Bool) (digest : Fin 20 → UInt8) : Option Ticket × Store :=
  let (sid, store) := sessionValidate accounts store request
  if !api && sid != 0 then (none, store)
  else if !api && (uname.isEmpty || UserIdCache.lower uname == guest) then (none, store)
  else if doWebLogin accounts store uname (some (pw.take (passLen - 1))) then
    let (ticket, store) :=
      newSession store (accounts.getUserId uname) request.ip request.now (api || persistent) digest
    (some ticket, store)
  else (none, store)

/-- The field that `session_remove_web_cache` deletes. -/
def removedField (row : Row) : Bytes :=
  DecimalText.ofInt row.userId.toInt ++ 58 :: row.sessionKey.bytes

/-- `kill_session` on a row that the cleaner has read before. -/
def killSession (store : Store) (row : Row) (now : UInt32) : Store :=
  let rows :=
    if now < row.expire then
      store.rows.map fun other =>
        if other.id = row.id then { other with active := false } else other
    else store.rows.filter fun other => other.id ≠ row.id
  { store with rows := rows, cache := Function.update store.cache (removedField row) none }

inductive Action
  | page (request : Request)
  | login (request : Request) (api : Bool) (uname pw : Bytes) (persistent : Bool)
      (digest : Fin 20 → UInt8)
  | logout (request : Request)
  | kill (row : Row) (now : UInt32)

/-- `web_logout` only takes the cookies back. -/
def step (accounts : Accounts) (store : Store) : Action → Store
  | .page request => (sessionValidate accounts store request).2
  | .login request api uname pw persistent digest =>
    (webLogin accounts store request api uname pw persistent digest).2
  | .logout request => (sessionValidate accounts store request).2
  | .kill row now => killSession store row now

def run (accounts : Accounts) (actions : List Action) (store : Store) : Store :=
  actions.foldl (step accounts) store

def start : Store where
  rows := []
  cache := fun _ => none
  nextId := 1

/-! ## Entries -/

theorem negative_or_digits (userId : Int32) :
    (∃ rest, DecimalText.ofInt userId.toInt = 45 :: rest) ∨
      0 ≤ userId.toInt ∧
        DecimalText.ofInt userId.toInt = DecimalText.digits userId.toInt.natAbs := by
  by_cases negative : userId.toInt < 0
  · left
    refine ⟨DecimalText.digits userId.toInt.natAbs, ?_⟩
    rw [DecimalText.ofInt, if_pos negative]
    rfl
  · right
    exact ⟨by omega, by rw [DecimalText.ofInt, if_neg negative]; rfl⟩

theorem dash_notMem_digits (n : Nat) : (45 : UInt8) ∉ DecimalText.digits n :=
  fun member => absurd (DecimalText.isDigit_of_mem_digits member) (by decide)

theorem dash_notMem_key (key : SessionKey) : 45 ∉ key.bytes :=
  fun member => absurd (key.hex 45 member) (by decide)

theorem length_ofInt_le (userId : Int32) : (DecimalText.ofInt userId.toInt).length ≤ 11 := by
  have low := userId.le_toInt
  have high := userId.toInt_lt
  have digits := DecimalText.length_digits_le (n := userId.toInt.natAbs) 10 (by decide) (by omega)
  rw [DecimalText.ofInt, List.length_append]
  split
  · rw [List.length_singleton]
    omega
  · rw [List.length_nil]
    omega

theorem makeEntry_key (userId : Int32) (key : SessionKey) (ip : Address) :
    makeEntry userId key.bytes ip =
      DecimalText.ofInt userId.toInt ++ 45 :: (key.bytes ++ 45 :: ip.bytes) := by
  have number := length_ofInt_le userId
  have short := ip.short
  have length := key.length
  apply List.take_of_length_le
  simp only [List.length_append, List.length_cons, sessionKeyLen, ipLen] at *
  omega

/-- The entries of different users, keys or addresses differ. -/
theorem eq_of_makeEntry_eq {userId userId' : Int32} {key : SessionKey} {key' : Bytes}
    {ip ip' : Address} (positive : 0 < userId')
    (same : makeEntry userId key.bytes ip = makeEntry userId' key' ip') :
    userId = userId' ∧ key.bytes = key' ∧ ip.bytes = ip'.bytes := by
  have length := congrArg List.length same
  have short := ip.short
  have number := length_ofInt_le userId
  have keyLength := key.length
  have whole : makeEntry userId' key' ip' =
      DecimalText.ofInt userId'.toInt ++ 45 :: (key' ++ 45 :: ip'.bytes) := by
    apply List.take_of_length_le
    by_contra long
    rw [makeEntry_key, makeEntry, List.length_take_of_le (by omega)] at length
    simp only [List.length_append, List.length_cons, sessionKeyLen, ipLen] at *
    omega
  rw [makeEntry_key, whole] at same
  have positive' : 0 < userId'.toInt := Int32.lt_iff_toInt_lt.mp positive
  have digits' : DecimalText.ofInt userId'.toInt = DecimalText.digits userId'.toInt.natAbs := by
    rw [DecimalText.ofInt, if_neg (by omega), List.nil_append]
  rcases negative_or_digits userId with ⟨rest, negative⟩ | ⟨nonnegative, digits⟩
  · obtain ⟨digit, digits, ne⟩ := List.exists_cons_of_ne_nil
      (DecimalText.digits_ne_nil userId'.toInt.natAbs)
    rw [negative, digits', ne] at same
    have dash := (List.cons.inj same).1
    exact absurd (dash ▸ ne ▸ List.mem_cons_self) (dash_notMem_digits userId'.toInt.natAbs)
  · rw [digits, digits'] at same
    have before := congrArg (List.takeWhile (· != 45)) same
    have plain (n : Nat) : ∀ byte ∈ DecimalText.digits n, (byte != 45) = true := by
      intro byte member
      exact bne_iff_ne.mpr fun dash => dash_notMem_digits n (dash ▸ member)
    rw [List.takeWhile_append_of_pos (plain _), List.takeWhile_append_of_pos (plain _),
      List.takeWhile_cons_of_neg (by decide), List.takeWhile_cons_of_neg (by decide),
      List.append_nil, List.append_nil] at before
    have value := congrArg DecimalText.value before
    rw [DecimalText.value_digits, DecimalText.value_digits] at value
    rw [before] at same
    have rest := (List.cons.inj (List.append_cancel_left same)).2
    obtain ⟨keys, -, addresses⟩ :=
      (List.append_cons_inj_of_notMem (dash_notMem_key key) ip.plain.1).mp rest
    exact ⟨Int32.toInt_inj.mp (by omega), keys, addresses⟩

theorem count_dash_ofInt_le (userId : Int32) :
    (DecimalText.ofInt userId.toInt).count 45 ≤ 1 := by
  have plain := List.count_eq_zero.mpr (dash_notMem_digits userId.toInt.natAbs)
  rw [DecimalText.ofInt, List.count_append, plain]
  split <;> decide

/-- The field that is deleted is no entry: it has one dash less. -/
theorem removedField_ne_makeEntry (row : Row) (userId : Int32) (key : SessionKey) (ip : Address) :
    removedField row ≠ makeEntry userId key.bytes ip := by
  intro same
  have one := count_dash_ofInt_le row.userId
  have none := List.count_eq_zero.mpr (dash_notMem_key row.sessionKey)
  have counts := congrArg (List.count 45) same
  rw [makeEntry_key, removedField, List.count_append, List.count_append, List.count_cons_self,
    List.count_append, List.count_cons_self, List.count_cons_of_ne (by decide), none] at counts
  omega

/-! ## What the store holds -/

/-- Rows and entries are of sessions that are known. -/
structure Backed (known : Ticket → Prop) (store : Store) : Prop where
  rows : ∀ row ∈ store.rows, known ⟨row.userId, row.sessionKey, row.id⟩
  cache : ∀ field sid, store.cache field = some sid →
    ∃ userId key ip, field = makeEntry userId key.bytes ip ∧ known ⟨userId, key, sid⟩

section Backed

variable {accounts : Accounts} {known : Ticket → Prop} {store : Store}

theorem Backed.mono {known' : Ticket → Prop} (backed : Backed known store)
    (weaker : ∀ ticket, known ticket → known' ticket) : Backed known' store where
  rows := fun row member => weaker _ (backed.rows row member)
  cache := fun field sid cached =>
    have ⟨userId, key, ip, entry, ticket⟩ := backed.cache field sid cached
    ⟨userId, key, ip, entry, weaker _ ticket⟩

theorem Backed.setWebCache (backed : Backed known store) {userId : Int32} {key : SessionKey}
    {sid : Int} (ticket : known ⟨userId, key, sid⟩) (ip : Address) :
    Backed known (store.setWebCache userId key sid ip) where
  rows := backed.rows
  cache := by
    intro field other cached
    rw [cache_setWebCache, Function.update_apply] at cached
    split at cached
    case isTrue same =>
      rw [Option.some.injEq] at cached
      exact ⟨userId, key, ip, same, cached ▸ ticket⟩
    case isFalse => exact backed.cache field other cached

theorem Backed.activate (backed : Backed known store) (sid : Int) (uname : Bytes) (now : UInt32) :
    Backed known (activateSession accounts store sid uname now).2 where
  rows := by
    intro row member
    obtain ⟨old, inside, rfl⟩ := List.mem_map.mp member
    have ticket := backed.rows old inside
    split <;> exact ticket
  cache := backed.cache

theorem mem_selected {userId : Int32} {key : Bytes} {row : Row} {rows : List Row}
    (selected : store.selected userId key = row :: rows) :
    row ∈ store.rows ∧ row.userId = userId ∧ row.sessionKey.bytes = key := by
  have member : row ∈ store.selected userId key := selected ▸ List.mem_cons_self
  rw [Store.selected, List.mem_filter, Bool.and_eq_true, beq_iff_eq, beq_iff_eq] at member
  exact member

/-- The store, perhaps with a row that was made active. -/
def Touched (accounts : Accounts) (store next : Store) : Prop :=
  next = store ∨ ∃ sid uname now, next = (activateSession accounts store sid uname now).2

/-- How a request ends. -/
inductive Outcome (accounts : Accounts) (store : Store) (request : Request) : Int × Store → Prop
  | refused {next : Store} (touched : Touched accounts store next) :
      Outcome accounts store request (0, next)
  | cached (positive : 0 < accounts.getUserId request.uname)
      (found : 0 < store.getWebCache (accounts.getUserId request.uname) request.key request.ip) :
      Outcome accounts store request
        (store.getWebCache (accounts.getUserId request.uname) request.key request.ip, store)
  | selected {row : Row} {next : Store} (positive : 0 < accounts.getUserId request.uname)
      (member : row ∈ store.rows)
      (user : row.userId = accounts.getUserId request.uname)
      (key : row.sessionKey.bytes = request.key) (touched : Touched accounts store next) :
      Outcome accounts store request (row.id,
        next.setWebCache (accounts.getUserId request.uname) row.sessionKey row.id request.ip)

theorem outcome_getSession (accounts : Accounts) (store : Store) (request : Request) :
    Outcome accounts store request (getSession accounts store request) := by
  unfold getSession
  dsimp only
  split
  case isFalse => exact .refused (.inl rfl)
  case isTrue positive =>
    split
    case isTrue found => exact .cached positive found
    case isFalse =>
      split
      case h_2 => exact .refused (.inl rfl)
      case h_1 row selected =>
        obtain ⟨member, user, key⟩ := mem_selected selected
        split
        · exact .selected positive member user key (.inl rfl)
        · split
          case h_1 next activated =>
            exact .selected positive member user key
              (.inr ⟨row.id, request.uname, request.now, by rw [activated]⟩)
          case h_2 next activated =>
            exact .refused (.inr ⟨row.id, request.uname, request.now, by rw [activated]⟩)

theorem outcome_sessionValidate (accounts : Accounts) (store : Store) (request : Request) :
    Outcome accounts store request (sessionValidate accounts store request) := by
  unfold sessionValidate
  split
  · exact .refused (.inl rfl)
  · exact outcome_getSession accounts store request

theorem Backed.touched {next : Store} (backed : Backed known store)
    (touched : Touched accounts store next) : Backed known next := by
  rcases touched with rfl | ⟨sid, uname, now, rfl⟩
  · exact backed
  · exact backed.activate sid uname now

theorem Backed.sessionValidate (backed : Backed known store) (accounts : Accounts)
    (request : Request) :
    Backed known (sessionValidate accounts store request).2 := by
  have outcome := outcome_sessionValidate accounts store request
  generalize WebSessions.sessionValidate accounts store request = result at outcome ⊢
  cases outcome with
  | refused touched => exact backed.touched touched
  | cached => exact backed
  | selected _ member user _ touched =>
    exact (backed.touched touched).setWebCache (user ▸ backed.rows _ member) request.ip

theorem Backed.killSession (backed : Backed known store) (row : Row) (now : UInt32) :
    Backed known (killSession store row now) where
  rows := by
    intro other member
    change other ∈ ite _ _ _ at member
    split at member
    · obtain ⟨old, inside, rfl⟩ := List.mem_map.mp member
      have ticket := backed.rows old inside
      split <;> exact ticket
    · exact backed.rows other (List.mem_filter.mp member).1
  cache := by
    intro field sid cached
    change Function.update store.cache (removedField row) none field = some sid at cached
    rw [Function.update_apply] at cached
    split at cached
    · cases cached
    · exact backed.cache field sid cached

theorem Backed.newSession (backed : Backed known store) {userId : Int32} {ip : Address}
    {now : UInt32} {persistent : Bool} {digest : Fin 20 → UInt8} {ticket : Ticket} {next : Store}
    (begun : newSession store userId ip now persistent digest = (ticket, next))
    (fresh : known ticket) : Backed known next := by
  obtain ⟨rfl, rfl⟩ := Prod.mk.inj begun
  apply Backed.setWebCache _ fresh
  refine ⟨fun row member => ?_, backed.cache⟩
  rcases List.mem_append.mp member with old | new
  · exact backed.rows row old
  · rw [List.mem_singleton.mp new]
    exact fresh

/-- A login is refused after the request was looked at, or a session begins. -/
theorem webLogin_cases (accounts : Accounts) (store : Store) (request : Request) (api : Bool)
    (uname pw : Bytes) (persistent : Bool) (digest : Fin 20 → UInt8) :
    webLogin accounts store request api uname pw persistent digest =
        (none, (sessionValidate accounts store request).2) ∨
      ∃ ticket next,
        doWebLogin accounts (sessionValidate accounts store request).2 uname
            (some (pw.take (passLen - 1))) = true ∧
          newSession (sessionValidate accounts store request).2 (accounts.getUserId uname)
            request.ip request.now (api || persistent) digest = (ticket, next) ∧
          webLogin accounts store request api uname pw persistent digest =
            (some ticket, next) := by
  unfold webLogin
  generalize sessionValidate accounts store request = result
  obtain ⟨sid, validated⟩ := result
  dsimp only
  split
  · exact .inl rfl
  split
  · exact .inl rfl
  split
  case isTrue allowed => exact .inr ⟨_, _, allowed, rfl, rfl⟩
  case isFalse => exact .inl rfl

theorem Backed.webLogin (backed : Backed known store) {request : Request} {api : Bool}
    {uname pw : Bytes} {persistent : Bool} {digest : Fin 20 → UInt8}
    (fresh : ∀ ticket,
      (webLogin accounts store request api uname pw persistent digest).1 = some ticket →
        known ticket) :
    Backed known (webLogin accounts store request api uname pw persistent digest).2 := by
  have validated := backed.sessionValidate accounts request
  rcases webLogin_cases accounts store request api uname pw persistent digest with
    refused | ⟨ticket, next, -, session, begun⟩
  · rw [refused]
    exact validated
  · rw [begun] at fresh ⊢
    exact validated.newSession session (fresh ticket rfl)

/-- Who is accepted has a key that is known to be of his session. -/
theorem Backed.accepted (backed : Backed known store) {request : Request} {sid : Int}
    (accepted : (WebSessions.sessionValidate accounts store request).1 = sid)
    (nonzero : sid ≠ 0) :
    ∃ key : SessionKey, key.bytes = request.key ∧
      known ⟨accounts.getUserId request.uname, key, sid⟩ := by
  have outcome := outcome_sessionValidate accounts store request
  generalize WebSessions.sessionValidate accounts store request = result at accepted outcome
  cases accepted
  cases outcome with
  | refused => exact absurd rfl nonzero
  | cached positive found =>
    unfold Store.getWebCache at found ⊢
    dsimp only at found ⊢
    split at found
    case isTrue => omega
    case isFalse plain =>
      rw [if_neg plain]
      cases entry : store.cache (makeEntry (accounts.getUserId request.uname) request.key
        request.ip) with
      | none =>
        rw [entry] at found
        exact absurd found (by decide)
      | some sid =>
        obtain ⟨userId, key, ip, same, ticket⟩ := backed.cache _ sid entry
        obtain ⟨user, keys, -⟩ := eq_of_makeEntry_eq positive same.symm
        exact ⟨key, keys, user ▸ ticket⟩
  | selected _ member user key =>
    exact ⟨_, key, user ▸ backed.rows _ member⟩

end Backed

/-! ## Runs -/

/-- The session that an action begins. -/
def issue (accounts : Accounts) (store : Store) : Action → Option Ticket
  | .login request api uname pw persistent digest =>
    (webLogin accounts store request api uname pw persistent digest).1
  | _ => none

/-- An action of the run began the session. -/
def Issued (accounts : Accounts) (actions : List Action) (ticket : Ticket) : Prop :=
  ∃ before action after, actions = before ++ action :: after ∧
    issue accounts (run accounts before start) action = some ticket

section Runs

variable {accounts : Accounts} {known : Ticket → Prop} {store : Store}

theorem backed_step (backed : Backed known store) {action : Action}
    (fresh : ∀ ticket, issue accounts store action = some ticket → known ticket) :
    Backed known (step accounts store action) := by
  cases action with
  | page request => exact backed.sessionValidate accounts request
  | login request api uname pw persistent digest => exact backed.webLogin fresh
  | logout request => exact backed.sessionValidate accounts request
  | kill row now => exact backed.killSession row now

theorem backed_start : Backed known start where
  rows := nofun
  cache := nofun

theorem run_concat (actions : List Action) (action : Action) :
    run accounts (actions ++ [action]) store =
      step accounts (run accounts actions store) action :=
  List.foldl_concat _ _ _ _

theorem backed_run (actions : List Action) :
    Backed (Issued accounts actions) (run accounts actions start) := by
  induction actions using List.reverseRecOn with
  | nil => exact backed_start
  | append_singleton actions action ih =>
    rw [run_concat]
    apply backed_step
    · apply ih.mono
      rintro ticket ⟨before, other, after, rfl, issued⟩
      exact ⟨before, other, after ++ [action], by simp, issued⟩
    · intro ticket issued
      exact ⟨actions, action, [], rfl, issued⟩

theorem nextId_sessionValidate (accounts : Accounts) (store : Store) (request : Request) :
    (sessionValidate accounts store request).2.nextId = store.nextId := by
  have outcome := outcome_sessionValidate accounts store request
  have touched {next : Store} (touched : Touched accounts store next) :
      next.nextId = store.nextId := by
    rcases touched with rfl | ⟨sid, uname, now, rfl⟩ <;> rfl
  generalize sessionValidate accounts store request = result at outcome ⊢
  cases outcome with
  | refused reached => exact touched reached
  | cached => rfl
  | selected _ _ _ _ reached =>
    rw [← touched reached]
    rfl

theorem issue_spec {action : Action} {ticket : Ticket}
    (issued : issue accounts store action = some ticket) :
    ∃ request api uname pw persistent digest,
      action = .login request api uname pw persistent digest ∧
        accounts.passwdCheck uname (pw.take (passLen - 1)) = true ∧
        ticket = ⟨accounts.getUserId uname, generateSessionKey digest, store.nextId⟩ := by
  cases action with
  | login request api uname pw persistent digest =>
    refine ⟨request, api, uname, pw, persistent, digest, rfl, ?_⟩
    change
      (webLogin accounts store request api uname pw persistent digest).1 = some ticket at issued
    rcases webLogin_cases accounts store request api uname pw persistent digest with
      refused | ⟨other, next, allowed, session, begun⟩
    · rw [refused] at issued
      cases issued
    · rw [begun] at issued
      obtain rfl := Option.some.inj issued
      constructor
      · unfold doWebLogin at allowed
        split at allowed
        · cases allowed
        · split at allowed
          · cases allowed
          · rename_i matches_
            simpa using matches_
      · rw [← nextId_sessionValidate accounts store request]
        exact (Prod.mk.inj session).1.symm
  | page => cases issued
  | logout => cases issued
  | kill => cases issued

/-- The entries of the first store are still there, if perhaps for other sessions. -/
def Keeps (store next : Store) : Prop :=
  ∀ userId (key : SessionKey) ip, (store.cache (makeEntry userId key.bytes ip)).isSome →
    (next.cache (makeEntry userId key.bytes ip)).isSome

theorem keeps_setWebCache (store : Store) (userId : Int32) (key : SessionKey) (sid : Int)
    (ip : Address) : Keeps store (store.setWebCache userId key sid ip) := by
  intro userId' key' ip' cached
  rw [cache_setWebCache, Function.update_apply]
  split
  · rfl
  · exact cached

theorem keeps_of_touched {next : Store} (touched : Touched accounts store next) :
    Keeps store next := by
  rcases touched with rfl | ⟨sid, uname, now, rfl⟩
  · exact fun _ _ _ cached => cached
  · exact fun _ _ _ cached => cached

theorem keeps_sessionValidate (accounts : Accounts) (store : Store) (request : Request) :
    Keeps store (sessionValidate accounts store request).2 := by
  have outcome := outcome_sessionValidate accounts store request
  generalize sessionValidate accounts store request = result at outcome ⊢
  cases outcome with
  | refused touched => exact keeps_of_touched touched
  | cached => exact fun _ _ _ cached => cached
  | selected _ _ _ _ touched =>
    intro userId key ip cached
    have kept := keeps_of_touched touched userId key ip cached
    exact keeps_setWebCache _ _ _ _ _ userId key ip kept

theorem keeps_killSession (row : Row) (now : UInt32) :
    Keeps store (killSession store row now) := by
  intro userId key ip cached
  change (Function.update store.cache (removedField row) none _).isSome
  rwa [Function.update_of_ne (removedField_ne_makeEntry row userId key ip).symm]

theorem keeps_webLogin (request : Request) (api : Bool) (uname pw : Bytes) (persistent : Bool)
    (digest : Fin 20 → UInt8) :
    Keeps store (webLogin accounts store request api uname pw persistent digest).2 := by
  have validated := keeps_sessionValidate accounts store request
  rcases webLogin_cases accounts store request api uname pw persistent digest with
    refused | ⟨ticket, next, -, session, begun⟩
  · rw [refused]
    exact validated
  · rw [begun, ← (Prod.mk.inj session).2]
    intro userId key ip cached
    exact keeps_setWebCache _ _ _ _ _ userId key ip (validated userId key ip cached)

theorem keeps_run (actions : List Action) (store : Store) :
    Keeps store (run accounts actions store) := by
  induction actions generalizing store with
  | nil => exact fun _ _ _ cached => cached
  | cons action actions ih =>
    intro userId key ip cached
    apply ih
    cases action with
    | page request => exact keeps_sessionValidate accounts _ request userId key ip cached
    | login request api uname pw persistent digest =>
      exact keeps_webLogin request api uname pw persistent digest userId key ip cached
    | logout request => exact keeps_sessionValidate accounts _ request userId key ip cached
    | kill row now => exact keeps_killSession row now userId key ip cached

theorem nextId_le_step (store : Store) (action : Action) :
    store.nextId ≤ (step accounts store action).nextId := by
  cases action with
  | page request => exact (nextId_sessionValidate accounts store request).ge
  | logout request => exact (nextId_sessionValidate accounts store request).ge
  | kill row now => exact le_rfl
  | login request api uname pw persistent digest =>
    have validated := nextId_sessionValidate accounts store request
    change _ ≤ (webLogin accounts store request api uname pw persistent digest).2.nextId
    rcases webLogin_cases accounts store request api uname pw persistent digest with
      refused | ⟨ticket, next, -, session, begun⟩
    · rw [refused]
      exact validated.ge
    · rw [begun, ← (Prod.mk.inj session).2]
      change _ ≤ (sessionValidate accounts store request).2.nextId + 1
      omega

theorem nextId_pos (actions : List Action) : 0 < (run accounts actions start).nextId := by
  induction actions using List.reverseRecOn with
  | nil => exact Int.one_pos
  | append_singleton actions action ih =>
    rw [run_concat]
    exact lt_of_lt_of_le ih (nextId_le_step _ action)

/-- Sessions have positive numbers. -/
theorem backed_pos (actions : List Action) :
    Backed (fun ticket => 0 < ticket.sid) (run accounts actions start) := by
  apply (backed_run actions).mono
  rintro ticket ⟨before, action, after, -, issued⟩
  obtain ⟨_, _, _, _, _, _, -, -, rfl⟩ := issue_spec issued
  exact nextId_pos before

theorem blank_notMem_makeEntry (userId : Int32) (key : SessionKey) (ip : Address) :
    32 ∉ makeEntry userId key.bytes ip := by
  have digits : 32 ∉ DecimalText.digits userId.toInt.natAbs :=
    fun member => absurd (DecimalText.isDigit_of_mem_digits member) (by decide)
  have number : 32 ∉ DecimalText.ofInt userId.toInt := by
    rw [DecimalText.ofInt, List.mem_append]
    split <;> simp [digits]
  have hex : 32 ∉ key.bytes := fun member => absurd (key.hex 32 member) (by decide)
  have address := ip.plain.2
  rw [makeEntry_key]
  simp [number, hex, address]

/-- An entry is all that a request needs. -/
theorem accepted_of_isSome (backed : Backed (fun ticket => 0 < ticket.sid) store)
    {request : Request} {key : SessionKey} (keys : key.bytes = request.key)
    (positive : 0 < accounts.getUserId request.uname)
    (token : request.apiGet = true → request.token = request.key)
    (cached : (store.cache
      (makeEntry (accounts.getUserId request.uname) key.bytes request.ip)).isSome) :
    (sessionValidate accounts store request).1 ≠ 0 := by
  obtain ⟨sid, entry⟩ := Option.isSome_iff_exists.mp cached
  obtain ⟨_, _, _, -, sidPositive⟩ := backed.cache _ sid entry
  have found :
      store.getWebCache (accounts.getUserId request.uname) request.key request.ip = sid := by
    rw [Store.getWebCache, ← keys, if_neg (blank_notMem_makeEntry _ key _), entry,
      Option.getD_some]
  have passes : ¬(request.apiGet && request.token != request.key) = true := by
    simpa using token
  rw [sessionValidate, if_neg passes, getSession, if_pos positive, found, if_pos sidPositive]
  exact sidPositive.ne'

/-- Who is accepted is in the hash then. -/
theorem isSome_of_accepted (backed : Backed known store) {request : Request}
    (accepted : (sessionValidate accounts store request).1 ≠ 0) :
    0 < accounts.getUserId request.uname ∧ ∃ key : SessionKey, key.bytes = request.key ∧
      ((sessionValidate accounts store request).2.cache
        (makeEntry (accounts.getUserId request.uname) key.bytes request.ip)).isSome := by
  obtain ⟨key, keys, -⟩ := backed.accepted rfl accepted
  have outcome := outcome_sessionValidate accounts store request
  generalize sessionValidate accounts store request = result at accepted outcome ⊢
  cases outcome with
  | refused => exact absurd rfl accepted
  | cached positive found =>
    refine ⟨positive, key, keys, ?_⟩
    unfold Store.getWebCache at found
    dsimp only at found
    split at found
    case isTrue => omega
    case isFalse =>
      rw [keys]
      cases entry : store.cache (makeEntry (accounts.getUserId request.uname) request.key
        request.ip) with
      | none =>
        rw [entry] at found
        exact absurd found (by decide)
      | some sid => rfl
  | @selected row next positive _ _ rowKey =>
    refine ⟨positive, row.sessionKey, rowKey, ?_⟩
    rw [cache_setWebCache, Function.update_self]
    rfl

end Runs

/-! ## A login and a page -/

/-- One user, whose password is a digit. -/
def oneUser : Accounts where
  getUserId := fun _ => 5
  getuserec := fun _ => some ⟨[97, 98], permLogin⟩
  passwdCheck := fun _ pw => pw == [49]

def localhost : Address where
  bytes := [49, 50, 55, 46, 48, 46, 48, 46, 49]
  plain := by decide
  short := by decide

/-- A request with this key in the cookie. -/
def pageWith (key : SessionKey) : Request where
  uname := [97, 98]
  key := key.bytes
  plain := fun member => absurd (key.hex 37 member) (by decide)
  token := []
  apiGet := false
  ip := localhost
  now := 1000

def firstKey : SessionKey := generateSessionKey fun _ => 0

def otherKey : SessionKey := generateSessionKey fun _ => 1

def loginAction : Action :=
  .login (pageWith otherKey) false [97, 98] [49] false fun _ => 0

theorem accepted_firstKey :
    (sessionValidate oneUser (run oneUser [loginAction] start) (pageWith firstKey)).1 = 1 := by
  decide

def firstRow : Row where
  id := 1
  sessionKey := firstKey
  active := true
  userId := 5
  stamp := 1000
  expire := 1000

end WebSessions

end Fbbs
