import Mathlib.Logic.Function.Basic
import Fbbs.AsciiBytes
import Fbbs.BackendMessages

/-!
# The user cache

`lib/ucache.c` keeps the accounts in shared memory: the user names with a hash
table of linked slots over them, and the records of the accounts.  Slots count
from one, so that zero can end a chain.
-/

namespace Fbbs

/-- `IDLEN`. -/
def idLen : Nat := 12

/-- `MAXUSERS`, as it is with `FDQUAN`. -/
def maxUsers : Nat := 25000

/-- A `toupper`: letters are raised and other characters of ASCII and `EOF` are kept. -/
structure CaseTable where
  toupper : Int → Int
  lower : ∀ c, 97 ≤ c → c ≤ 122 → toupper c = c - 32
  other : ∀ c, -1 ≤ c → c ≤ 127 → ¬(97 ≤ c ∧ c ≤ 122) → toupper c = c

namespace CaseTable

open AsciiBytes

variable (table : CaseTable)

/-- `toupper(*c)`. -/
def raise (c : UInt8) : Int :=
  table.toupper c.toInt8.toInt

/-- The sum of the characters of a name, raised. -/
def keySum (bytes : Bytes) : Int :=
  (bytes.map table.raise).sum

/-- The table of the GNU library, where other negative arguments are bytes. -/
def glibc : CaseTable where
  toupper c := if 97 ≤ c ∧ c ≤ 122 then c - 32 else if -128 ≤ c ∧ c < -1 then c + 256 else c
  lower := fun _ low high => if_pos ⟨low, high⟩
  other := fun _ low _ notLower => by
    rw [if_neg notLower, if_neg (by omega)]

theorem toInt_toInt8 (c : UInt8) :
    c.toInt8.toInt = if 2 * c.toNat < 256 then (c.toNat : Int) else c.toNat - 256 :=
  BitVec.toInt_eq_toNat_cond c.toBitVec

theorem toInt_of_ascii {c : UInt8} (small : c.toNat < 128) : c.toInt8.toInt = c.toNat := by
  rw [toInt_toInt8, if_pos (by omega)]

/-- Case does not change what is added for a character. -/
theorem raise_tolower (c : UInt8) : table.raise (tolower c) = table.raise c := by
  by_cases upper : 65 ≤ c ∧ c ≤ 90
  · have shift := toNat_tolower_of_upper upper
    simp only [UInt8.le_iff_toNat_le, UInt8.reduceToNat] at upper
    rw [raise, raise, toInt_of_ascii (by omega), toInt_of_ascii (by omega), shift,
      table.lower _ (by omega) (by omega), table.other _ (by omega) (by omega) (by omega)]
    omega
  · rw [tolower, if_neg upper]

theorem keySum_map_tolower (bytes : Bytes) :
    table.keySum (bytes.map tolower) = table.keySum bytes := by
  simp only [keySum, List.map_map, Function.comp_def, raise_tolower]

theorem glibc_raise_nonneg {c : UInt8} (ascii : c.toNat < 128) : 0 ≤ glibc.raise c := by
  rw [raise, toInt_of_ascii ascii, glibc]
  dsimp only
  split_ifs <;> omega

end CaseTable

/-- `struct userec`, as far as the backend changes it. -/
structure Userec where
  numposts : UInt32
  deriving DecidableEq

/-- `struct UCACHE`. -/
structure UserCache where
  userid : Nat → CharArray (idLen + 1)
  next : Nat → Nat
  hash : Nat → Nat → Int → Nat
  passwd : Nat → Userec

namespace UserCache

open AsciiBytes

def letterIndex (c : UInt8) : Nat :=
  if 97 ≤ c ∧ c ≤ 122 then c.toNat - 97
  else if 65 ≤ c ∧ c ≤ 90 then c.toNat - 65
  else 0

/-- `uhashkey`; `none` for names of fewer than two bytes, where it reads past the
end of the name. -/
def uhashkey : Bytes → Option (Nat × Nat × Int)
  | first :: second :: rest =>
    some (letterIndex first, letterIndex second,
      Int.tmod (CaseTable.glibc.keySum rest) 256)
  | _ => none

/-- Whether `strncasecmp` is zero. -/
def strncaseeq (count : Nat) (left right : CString) : Bool :=
  (left.bytes.take count).map tolower == (right.bytes.take count).map tolower

/-- The loop of `searchuser`. -/
def searchChain (cache : UserCache) (userid : CString) : Nat → Nat → Option Nat
  | 0, _ => none
  | _ + 1, 0 => some 0
  | fuel + 1, i + 1 =>
    if strncaseeq (idLen + 1) userid (cache.userid i).str then some (i + 1)
    else searchChain cache userid fuel (cache.next i)

/-- `searchuser`: the slot of an account, or zero.  A chain that is longer than
the cache is a cycle, and the search does not end. -/
def searchuser (cache : UserCache) (userid : CString) : Option Nat :=
  (uhashkey userid.bytes).bind fun (a1, a2, key) =>
    searchChain cache userid (maxUsers + 1) (cache.hash a1 a2 key)

/-- `getuserbyuid`; `none` outside the array. -/
def getuserbyuid (cache : UserCache) (uid : Nat) : Option Userec :=
  if 1 ≤ uid ∧ uid ≤ maxUsers then some (cache.passwd (uid - 1)) else none

/-- `substitut_record`; `none` outside the array. -/
def substitutRecord (cache : UserCache) (record : Userec) (id : Nat) :
    Option UserCache :=
  if 1 ≤ id ∧ id ≤ maxUsers then
    some { cache with passwd := Function.update cache.passwd (id - 1) record }
  else none

def numposts (cache : UserCache) (slot : Nat) : UInt32 :=
  (cache.passwd (slot - 1)).numposts

/-- `adjust_user_post_count`; `none` where it leaves the cache or never ends. -/
def adjustUserPostCount (cache : UserCache) (uname : CString) (delta : Int32) :
    Option UserCache := do
  let unum ← searchuser cache uname
  let urec ← getuserbyuid cache unum
  substitutRecord cache { urec with numposts := urec.numposts + delta.toUInt32 } unum

theorem searchChain_passwd (cache : UserCache) (passwd : Nat → Userec)
    (userid : CString) (fuel i : Nat) :
    searchChain { cache with passwd := passwd } userid fuel i =
      searchChain cache userid fuel i := by
  induction fuel generalizing i with
  | zero => rfl
  | succ fuel ih =>
    cases i with
    | zero => rfl
    | succ i => simp only [searchChain, ih]

/-- Searching does not look at the records. -/
@[simp]
theorem searchuser_passwd (cache : UserCache) (passwd : Nat → Userec)
    (userid : CString) :
    searchuser { cache with passwd := passwd } userid = searchuser cache userid := by
  simp only [searchuser, searchChain_passwd]

theorem adjustUserPostCount_eq {cache : UserCache} {uname : CString} {slot : Nat}
    (found : searchuser cache uname = some slot) (inside : 1 ≤ slot ∧ slot ≤ maxUsers)
    (delta : Int32) :
    ∃ passwd, adjustUserPostCount cache uname delta =
        some { cache with passwd := passwd } ∧
      ∀ other, 1 ≤ other →
        numposts { cache with passwd := passwd } other =
          numposts cache other + if other = slot then delta.toUInt32 else 0 := by
  let record : Userec := { numposts := cache.numposts slot + delta.toUInt32 }
  refine ⟨Function.update cache.passwd (slot - 1) record, ?_, ?_⟩
  · simp only [adjustUserPostCount, found, getuserbyuid, substitutRecord, inside,
      and_self, if_true, Option.bind_eq_bind, Option.bind_some, record, numposts]
  · intro other positive
    by_cases same : other = slot
    · subst other
      simp [numposts, record]
    · have apart : other - 1 ≠ slot - 1 := by omega
      simp [numposts, apart, same]

theorem letterIndex_tolower (c : UInt8) : letterIndex (tolower c) = letterIndex c := by
  by_cases upper : 65 ≤ c ∧ c ≤ 90
  · have shift := toNat_tolower_of_upper upper
    obtain ⟨lower, notLower⟩ := lower_tolower_of_upper upper
    rw [letterIndex, if_pos lower, letterIndex, if_neg notLower, if_pos upper, shift]
    omega
  · rw [tolower, if_neg upper]

/-- The hash key of a name does not depend on the case of its letters. -/
theorem uhashkey_map_tolower (bytes : Bytes) :
    uhashkey (bytes.map tolower) = uhashkey bytes := by
  match bytes with
  | [] => rfl
  | [_] => rfl
  | first :: second :: rest =>
    simp only [uhashkey, List.map_cons, letterIndex_tolower, CaseTable.keySum_map_tolower]

theorem searchChain_congr (cache : UserCache) {left right : CString}
    (same : left.bytes.map tolower = right.bytes.map tolower) (fuel i : Nat) :
    searchChain cache left fuel i = searchChain cache right fuel i := by
  induction fuel generalizing i with
  | zero => rfl
  | succ fuel ih =>
    cases i with
    | zero => rfl
    | succ i => simp only [searchChain, strncaseeq, List.map_take, same, ih]

/-- Names are looked up without case. -/
theorem searchuser_congr (cache : UserCache) {left right : CString}
    (same : left.bytes.map tolower = right.bytes.map tolower) :
    searchuser cache left = searchuser cache right := by
  have sameKey : uhashkey left.bytes = uhashkey right.bytes := by
    rw [← uhashkey_map_tolower, same, uhashkey_map_tolower]
  simp only [searchuser, sameKey, searchChain_congr cache same]

end UserCache

end Fbbs
