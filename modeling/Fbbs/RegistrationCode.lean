import Fbbs.PoolStrings
import Fbbs.UserCache

/-!
# Registration codes

`register_send_email` of `lib/register.c` draws a code, keeps it with the address in a file of
the user and mails it; `register_activate_email` reads both back and compares the code with what
the user has entered.  Conversions of `fscanf` have no width.
-/

namespace Fbbs

namespace RegistrationCode

def rndPassLen : Nat := 10

def emailLen : Nat := 40

def homeLen : Nat := 80

def extIdLen : Nat := 16

/-- `1234567890abcdefghijklmnopqrstuvwxyzABCDEFGHIJKLMNOPQRSTUVWXYZ`. -/
def panel : Bytes :=
  (List.range' 49 9 ++ [48] ++ List.range' 97 26 ++ List.range' 65 26).map UInt8.ofNat

/-- `buf[i] % (sizeof(panel) - 1)`: the character, which is signed, becomes a `size_t`. -/
def panelIndex (c : UInt8) : Nat :=
  (c.toInt8.toInt % sizeModulus).toNat % panel.length

/-- `generate_random_password`, from the bytes that `read_urandom` has stored. -/
def generateRandomPassword (random : Bytes) : Bytes :=
  random.map fun c => panel.getD (panelIndex c) 0

/-- `toupper(userid[0])` as `%c` prints it. -/
def initial (userid : CString) : UInt8 :=
  match userid.bytes with
  | [] => 0
  | c :: _ => if 97 ≤ c ∧ c ≤ 122 then c - 32 else c

/-- `home/`. -/
def homePrefix : Bytes := [104, 111, 109, 101, 47]

/-- `REG_CODE_FILE`, which is `.regpass`. -/
def regCodeFile : Bytes := [46, 114, 101, 103, 112, 97, 115, 115]

/-- `sethomefile` into an array of `HOMELEN`; `none` when the path overflows it. -/
def setHomeFile (userid : CString) (filename : Bytes) : Option CString :=
  let path := homePrefix ++ initial userid :: 47 :: userid.bytes ++ 47 :: filename
  if path.length + 1 ≤ homeLen then some (CString.ofBytes path) else none

/-- The mail with a code, as far as it depends on the registration. -/
structure Mail where
  address : Bytes
  userid : Bytes
  code : Bytes
  deriving DecidableEq

/-- The tables of addresses and of users in the database. -/
structure Database (σ : Type) where
  /-- `INSERT INTO emails (addr) VALUES (%s)`. -/
  insertAddress : σ → Bytes → σ
  /-- `SELECT id FROM emails WHERE addr = %s`. -/
  selectAddress : σ → Bytes → Option (List Int)
  /-- `UPDATE users SET email = %d WHERE alive AND lower(name) = lower(%s)`. -/
  updateUser : σ → Int → CString → Option σ

structure Site (σ : Type) where
  files : CString → Option Bytes
  /-- `fopen` for writing succeeds. -/
  writable : CString → Bool
  /-- `popen` of the mailer succeeds for an address. -/
  mailer : Bytes → Bool
  mails : List Mail
  database : σ
  cache : UserCache
  userlevel : Nat → UInt32

section Operations

variable {σ : Type}

/-- `register_send_email`. -/
def registerSendEmail (random : Bytes) (user : CharArray extIdLen) (email : CString)
    (site : Site σ) : Option (Int × Site σ) :=
  let password := generateRandomPassword random
  (setHomeFile user.str regCodeFile).map fun file =>
    if !site.writable file then (-1, site)
    else
      let site :=
        { site with
          files := Function.update site.files file
            (some (password ++ [10] ++ email.bytes ++ [10])) }
      if !site.mailer email.bytes then (-1, site)
      else (0, { site with mails := site.mails ++ [⟨email.bytes, user.str.bytes, password⟩] })

/-- `fscanf` with `%s` into an array; `none` when it overflows, and nothing is stored at the
end of the file. -/
def scanString (size : Nat) (stream : Bytes) : Option (Option Bytes × Bytes) :=
  let stream := stream.dropWhile AsciiBytes.isspace
  let word := stream.takeWhile fun c => !AsciiBytes.isspace c
  if word = [] then some (none, stream)
  else if word.length < size then
    some (some word, stream.dropWhile fun c => !AsciiBytes.isspace c)
  else none

/-- The code and the address that `register_activate_email` reads from a file. -/
def readRegistration (stream : Bytes) : Option (Option Bytes × Option Bytes) :=
  (scanString (rndPassLen + 1) stream).bind fun (code, stream) =>
    (scanString emailLen stream).map fun (email, _) => (code, email)

variable (db : Database σ)

def insertEmail (database : σ) (email : Bytes) : σ × Int :=
  let database := db.insertAddress database email
  match db.selectAddress database email with
  | some [id] => (database, id)
  | _ => (database, 0)

def activateEmail (database : σ) (uname : CString) (email : Bytes) : σ × Bool :=
  let (database, id) := insertEmail db database email
  if id = 0 then (database, false)
  else
    match db.updateUser database id uname with
    | some database => (database, true)
    | none => (database, false)

/-- `PERM_DEFAULT | PERM_BINDMAIL`. -/
def activatedPerm : UInt32 := 0x1 ||| 0x2 ||| 0x4 ||| 0x8 ||| 0x10 ||| 0x20

/-- `register_activate_email`; `none` where an array overflows or is used before anything has
been stored in it. -/
def registerActivateEmail (uname attempt : CString) (site : Site σ) :
    Option (Bool × Site σ) :=
  (setHomeFile uname regCodeFile).bind fun file =>
    match site.files file with
    | none => some (false, site)
    | some stream =>
      (readRegistration stream).bind fun (code, email) =>
        code.bind fun code =>
          if code ≠ attempt.bytes then some (false, site)
          else
            email.bind fun email =>
              let (database, activated) := activateEmail db site.database uname email
              let site := { site with database }
              if !activated then some (false, site)
              else
                (UserCache.searchuser site.cache uname).map fun num =>
                  if num = 0 then (false, site)
                  else
                    (true,
                      { site with
                        userlevel := Function.update site.userlevel (num - 1)
                          (site.userlevel (num - 1) ||| activatedPerm)
                        files := Function.update site.files file none })

end Operations

/-! ## Codes -/

/-- A letter or a digit. -/
def isAlnum (c : UInt8) : Bool :=
  (48 ≤ c && c ≤ 57) || (97 ≤ c && c ≤ 122) || (65 ≤ c && c ≤ 90)

theorem isAlnum_of_mem_panel : ∀ c ∈ panel, isAlnum c = true :=
  List.all_eq_true.1 (by decide)

theorem isspace_of_isAlnum {c : UInt8} (alnum : isAlnum c = true) :
    AsciiBytes.isspace c = false := by
  grind [isAlnum, AsciiBytes.isspace]

theorem panelIndex_lt (c : UInt8) : panelIndex c < panel.length :=
  Nat.mod_lt _ (by decide)

/-- Each byte, also a negative one, gives a letter or a digit. -/
theorem isAlnum_of_mem_password {random : Bytes} :
    ∀ c ∈ generateRandomPassword random, isAlnum c = true := by
  intro c member
  obtain ⟨byte, -, rfl⟩ := List.mem_map.mp member
  rw [List.getD_eq_getElem _ _ (panelIndex_lt byte)]
  exact isAlnum_of_mem_panel _ (List.getElem_mem _)

theorem length_password (random : Bytes) :
    (generateRandomPassword random).length = random.length :=
  List.length_map _

/-! ## Reading the file -/

section Reading

variable {word : Bytes} (solid : ∀ c ∈ word, AsciiBytes.isspace c = false)

include solid in
theorem takeWhile_word (rest : Bytes) :
    (word ++ 10 :: rest).takeWhile (fun c => !AsciiBytes.isspace c) = word := by
  induction word with
  | nil => rfl
  | cons c word ih =>
    have visible := solid c List.mem_cons_self
    rw [List.cons_append, List.takeWhile_cons, visible,
      ih fun d member => solid d (List.mem_cons_of_mem c member)]
    rfl

include solid in
theorem dropWhile_word (rest : Bytes) :
    (word ++ 10 :: rest).dropWhile (fun c => !AsciiBytes.isspace c) = 10 :: rest := by
  induction word with
  | nil => rfl
  | cons c word ih =>
    have visible := solid c List.mem_cons_self
    rw [List.cons_append, List.dropWhile_cons, visible,
      ih fun d member => solid d (List.mem_cons_of_mem c member)]
    rfl

include solid in
theorem dropWhile_isspace_word (nonempty : word ≠ []) (rest : Bytes) :
    (word ++ rest).dropWhile AsciiBytes.isspace = word ++ rest := by
  cases word with
  | nil => exact absurd rfl nonempty
  | cons c word =>
    rw [List.cons_append, List.dropWhile_cons, solid c List.mem_cons_self]
    rfl

include solid in
/-- A word is read up to the end of its line, or overflows the array. -/
theorem scanString_word (nonempty : word ≠ []) (size : Nat) (rest : Bytes) :
    scanString size (word ++ 10 :: rest) =
      if word.length < size then some (some word, 10 :: rest) else none := by
  have start := dropWhile_isspace_word solid nonempty (10 :: rest)
  rw [scanString, start, takeWhile_word solid, dropWhile_word solid, if_neg nonempty]

theorem scanString_newline (size : Nat) (stream : Bytes) :
    scanString size (10 :: stream) = scanString size stream :=
  rfl

end Reading

/-- What `register_send_email` writes. -/
def written (code email : Bytes) : Bytes :=
  code ++ [10] ++ email ++ [10]

section Written

variable {code email : Bytes} (alnum : ∀ c ∈ code, isAlnum c = true)
  (length : code.length = rndPassLen) (solid : ∀ c ∈ email, AsciiBytes.isspace c = false)

include alnum length in
theorem readRegistration_written_eq :
    readRegistration (written code email) =
      (scanString emailLen (email ++ [10])).map fun (address, _) => (some code, address) := by
  have solidCode : ∀ c ∈ code, AsciiBytes.isspace c = false :=
    fun c member => isspace_of_isAlnum (alnum c member)
  have nonempty : code ≠ [] := by
    rintro rfl
    cases length
  have layout : written code email = code ++ 10 :: (email ++ [10]) := by
    simp [written]
  rw [readRegistration, layout, scanString_word solidCode nonempty, if_pos (by omega),
    Option.bind_some]
  exact congrArg (Option.map _) (scanString_newline emailLen _)

include alnum length solid in
/-- The address comes back when it fits into the array and there is one. -/
theorem readRegistration_written_iff :
    readRegistration (written code email) = some (some code, some email) ↔
      0 < email.length ∧ email.length < emailLen := by
  rw [readRegistration_written_eq alnum length]
  by_cases empty : email = []
  · subst empty
    constructor
    · intro read
      cases read
    · rintro ⟨positive, -⟩
      cases positive
  · have positive : 0 < email.length := List.length_pos_iff.mpr empty
    rw [scanString_word solid empty]
    by_cases fits : email.length < emailLen
    · rw [if_pos fits]
      exact iff_of_true rfl ⟨positive, fits⟩
    · rw [if_neg fits]
      apply iff_of_false
      · intro read
        cases read
      · exact fun bounds => fits bounds.2

end Written

/-! ## Registration and activation -/

theorem setHomeFile_isSome (user : CharArray extIdLen) :
    ∃ file, setHomeFile user.str regCodeFile = some file := by
  have short := user.fits
  refine ⟨_, if_pos ?_⟩
  simp only [List.length_append, List.length_cons]
  have sizes : homePrefix.length = 5 ∧ regCodeFile.length = 8 := ⟨rfl, rfl⟩
  simp only [extIdLen, homeLen] at short ⊢
  omega

section Activation

variable {σ : Type} (db : Database σ)

/-- The database gives a new address an identity and records it for the user. -/
structure Stores (uname : CString) (email : Bytes) : Prop where
  unique : ∀ database, ∃ id, id ≠ 0 ∧
    db.selectAddress (db.insertAddress database email) email = some [id]
  updates : ∀ database id, ∃ next, db.updateUser database id uname = some next

theorem activateEmail_of_stores {uname : CString} {email : Bytes} (stores : Stores db uname email)
    (database : σ) : ∃ next, activateEmail db database uname email = (next, true) := by
  obtain ⟨id, nonzero, found⟩ := stores.unique database
  obtain ⟨next, updated⟩ := stores.updates (db.insertAddress database email) id
  refine ⟨next, ?_⟩
  have inserted : insertEmail db database email = (db.insertAddress database email, id) := by
    simp only [insertEmail, found]
  simp only [activateEmail, inserted, if_neg nonzero, updated]

/-- The code is mailed, the file gives code and address back, and the code activates the
account while other strings do not. -/
structure RoundTrip (site : Site σ) (random : Bytes) (user : CharArray extIdLen)
    (email : CString) : Prop where
  letters : (generateRandomPassword random).length = rndPassLen ∧
    ∀ c ∈ generateRandomPassword random, isAlnum c = true
  sent : ∃ sent, registerSendEmail random user email site = some (0, sent) ∧
    sent.mails = site.mails ++ [⟨email.bytes, user.str.bytes, generateRandomPassword random⟩] ∧
    (∃ file stream, setHomeFile user.str regCodeFile = some file ∧
      sent.files file = some stream ∧
      readRegistration stream = some (some (generateRandomPassword random), some email.bytes)) ∧
    ∀ attempt : CString, ∃ after, registerActivateEmail db user.str attempt sent =
      some (decide (attempt.bytes = generateRandomPassword random), after)

/-- The site can send the mail, and the account of the user exists. -/
structure Ready (site : Site σ) (user : CharArray extIdLen) (email : CString) : Prop where
  writable : ∀ file, setHomeFile user.str regCodeFile = some file → site.writable file = true
  mailer : site.mailer email.bytes = true
  account : ∃ slot, UserCache.searchuser site.cache user.str = some slot ∧ slot ≠ 0

theorem registerActivateEmail_eq {site : Site σ} {uname : CString} {file : CString}
    {code email : Bytes} (path : setHomeFile uname regCodeFile = some file)
    (kept : site.files file = some (written code email))
    (read : readRegistration (written code email) = some (some code, some email))
    (account : ∃ slot, UserCache.searchuser site.cache uname = some slot ∧ slot ≠ 0)
    (stores : Stores db uname email) (attempt : CString) :
    ∃ after, registerActivateEmail db uname attempt site =
      some (decide (attempt.bytes = code), after) := by
  obtain ⟨slot, found, nonzero⟩ := account
  obtain ⟨next, activated⟩ := activateEmail_of_stores db stores site.database
  simp only [registerActivateEmail, path, Option.bind_some, kept, read]
  by_cases same : code = attempt.bytes
  · rw [if_neg (not_not.mpr same), activated]
    simp only [found, Option.map_some, if_neg nonzero, same, decide_true]
    exact ⟨_, rfl⟩
  · rw [if_pos same, decide_eq_false fun equal => same equal.symm]
    exact ⟨_, rfl⟩

variable (site : Site σ) (random : Bytes) (user : CharArray extIdLen) (email : CString)

/-- The site after the mail has been sent. -/
def sentSite (file : CString) : Site σ :=
  { site with
    files := Function.update site.files file
      (some (written (generateRandomPassword random) email.bytes))
    mails := site.mails ++ [⟨email.bytes, user.str.bytes, generateRandomPassword random⟩] }

theorem registerSendEmail_eq {file : CString}
    (path : setHomeFile user.str regCodeFile = some file) (ready : Ready site user email) :
    registerSendEmail random user email site = some (0, sentSite site random user email file) := by
  simp only [registerSendEmail, path, Option.map_some, ready.writable file path, ready.mailer,
    Bool.not_true, Bool.false_eq_true, if_false]
  rfl

theorem sentSite_files (file : CString) :
    (sentSite site random user email file).files file =
      some (written (generateRandomPassword random) email.bytes) :=
  Function.update_self _ _ _

/-- After a round trip the file can be read. -/
theorem readRegistration_of_roundTrip (ready : Ready site user email)
    (trip : RoundTrip db site random user email) :
    readRegistration (written (generateRandomPassword random) email.bytes) =
      some (some (generateRandomPassword random), some email.bytes) := by
  obtain ⟨file, path⟩ := setHomeFile_isSome user
  obtain ⟨sent, result, -, ⟨sentFile, stream, sentPath, found, read⟩, -⟩ := trip.sent
  rw [registerSendEmail_eq site random user email path ready] at result
  cases result
  rw [path] at sentPath
  cases sentPath
  rw [sentSite_files] at found
  cases found
  exact read

theorem roundTrip_iff (delivered : random.length = rndPassLen)
    (solid : ∀ c ∈ email.bytes, AsciiBytes.isspace c = false) (ready : Ready site user email)
    (stores : Stores db user.str email.bytes) :
    RoundTrip db site random user email ↔
      0 < email.bytes.length ∧ email.bytes.length < emailLen := by
  have alnum : ∀ c ∈ generateRandomPassword random, isAlnum c = true := isAlnum_of_mem_password
  have length := (length_password random).trans delivered
  have readIff := readRegistration_written_iff alnum length solid
  constructor
  · intro trip
    exact readIff.mp (readRegistration_of_roundTrip db site random user email ready trip)
  · intro bounds
    have read := readIff.mpr bounds
    obtain ⟨file, path⟩ := setHomeFile_isSome user
    have kept := sentSite_files site random user email file
    constructor
    · exact ⟨length, alnum⟩
    · refine ⟨_, registerSendEmail_eq site random user email path ready, rfl,
        ⟨file, _, path, kept, read⟩, ?_⟩
      exact registerActivateEmail_eq db path kept read ready.account stores

end Activation

/-- Addresses in the order of their identities. -/
def listDatabase : Database (List Bytes) where
  insertAddress addresses address :=
    if addresses.contains address then addresses else addresses ++ [address]
  selectAddress addresses address :=
    some (if addresses.contains address then [addresses.idxOf address + 1] else [])
  updateUser addresses _ _ := some addresses

theorem listDatabase_stores (uname : CString) (email : Bytes) :
    Stores listDatabase uname email where
  unique addresses := by
    refine ⟨((listDatabase.insertAddress addresses email).idxOf email : Int) + 1, by omega, ?_⟩
    have member : email ∈ listDatabase.insertAddress addresses email := by
      simp only [listDatabase, List.contains_iff_mem]
      split
      · assumption
      · simp
    exact congrArg some (if_pos (List.contains_iff_mem.mpr member))
  updates addresses _ := ⟨addresses, rfl⟩

theorem someUser_nulFree : (0 : UInt8) ∉ [97, 98] := by
  simp

/-- `ab`. -/
def someUser : CharArray extIdLen :=
  ⟨⟨[97, 98], someUser_nulFree⟩, by simp [extIdLen]⟩

def someSite : Site (List Bytes) where
  files _ := none
  writable _ := true
  mailer _ := true
  mails := []
  database := []
  cache :=
    { userid := fun _ => ⟨someUser.str, by simp [someUser, idLen]⟩
      next := fun _ => 0
      hash := fun _ _ _ => 1
      passwd := fun _ => ⟨0⟩ }
  userlevel _ := 0

theorem someSite_ready (email : CString) : Ready someSite someUser email where
  writable _ _ := rfl
  mailer := rfl
  account := ⟨1, rfl, by decide⟩

/-- `a@b`. -/
def shortAddress : CString :=
  ⟨[97, 64, 98], by simp⟩

/-- Ten negative bytes. -/
def someRandom : Bytes :=
  List.replicate 10 200

theorem shortAddress_roundTrip :
    RoundTrip listDatabase someSite someRandom someUser shortAddress :=
  (roundTrip_iff listDatabase someSite someRandom someUser shortAddress rfl
    (fun c member => by
      obtain rfl | rfl | rfl : c = 97 ∨ c = 64 ∨ c = 98 := by simpa [shortAddress] using member
      all_goals rfl)
    (someSite_ready shortAddress) (listDatabase_stores _ _)).mpr (by decide)

/-- An address of forty characters, as the form for old members admits it. -/
def longAddress : CString :=
  ⟨97 :: 64 :: List.replicate 38 98, by simp⟩

theorem longAddress_not_roundTrip :
    ¬RoundTrip listDatabase someSite someRandom someUser longAddress := by
  intro trip
  have read := readRegistration_of_roundTrip listDatabase someSite someRandom someUser longAddress
    (someSite_ready longAddress) trip
  have overflow : readRegistration
      (written (generateRandomPassword someRandom) longAddress.bytes) = none := by
    decide
  rw [overflow] at read
  cases read

end RegistrationCode

end Fbbs
