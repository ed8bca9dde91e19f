import Fbbs.UserCache
import Mathlib.Algebra.Order.Group.Unbundled.Int

/-!
# Looking up any name

`uhashkey` adds up `toupper` of the characters of a name in an `int`.  A `char` is signed, so
that a byte from 128 on is a negative argument, of which C defines only the value of `EOF`.
Names that a user types or that a request carries are looked up before anything is checked.
-/

namespace Fbbs

/-- The values of an `int`. -/
def FitsInt (n : Int) : Prop :=
  -2147483648 ≤ n ∧ n ≤ 2147483647

instance decidableFitsInt (n : Int) : Decidable (FitsInt n) :=
  inferInstanceAs (Decidable (_ ∧ _))

namespace CaseTable

open AsciiBytes

variable (table : CaseTable)

/-- The loop of `uhashkey`; `none` when the sum overflows. -/
def addKey : Bytes → Int → Option Int
  | [], key => some key
  | c :: rest, key =>
    if FitsInt (key + table.raise c) then addKey rest (key + table.raise c) else none

/-- `uhashkey`; `none` for names of fewer than two bytes, where it reads past the end. -/
def uhashkey : Bytes → Option (Nat × Nat × Int)
  | first :: second :: rest =>
    (table.addKey rest 0).map fun key =>
      (UserCache.letterIndex first, UserCache.letterIndex second, Int.tmod key 256)
  | _ => none

/-- `hash[a1][a2][key]`; `none` outside the table. -/
def hashEntry (cache : UserCache) : Nat × Nat × Int → Option Nat
  | (a1, a2, key) =>
    if a1 < 26 ∧ a2 < 26 ∧ 0 ≤ key ∧ key < 256 then some (cache.hash a1 a2 key) else none

/-! ## The key -/

/-- The sum stays an `int` after each character. -/
def SumsFit (bytes : Bytes) : Prop :=
  ∀ count < bytes.length, FitsInt (table.keySum (bytes.take (count + 1)))

theorem addKey_eq_some_iff {bytes : Bytes} {start key : Int} :
    table.addKey bytes start = some key ↔
      (∀ count < bytes.length, FitsInt (start + table.keySum (bytes.take (count + 1)))) ∧
        key = start + table.keySum bytes := by
  induction bytes generalizing start with
  | nil => simp [addKey, keySum, eq_comm]
  | cons c rest ih =>
    have shift : ∀ list, start + table.keySum (c :: list) =
        start + table.raise c + table.keySum list := by
      intro list
      simp only [keySum, List.map_cons, List.sum_cons]
      omega
    have first : FitsInt (start + table.keySum ((c :: rest).take 1)) ↔
        FitsInt (start + table.raise c) := by
      rw [List.take_succ_cons, List.take_zero, shift]
      simp [keySum]
    rw [addKey, shift]
    constructor
    · intro found
      split at found
      · rename_i fits
        obtain ⟨restFits, keyEq⟩ := ih.mp found
        constructor
        · intro count inside
          cases count with
          | zero => exact first.mpr fits
          | succ count =>
            rw [List.take_succ_cons, shift]
            apply restFits
            simpa using inside
        · exact keyEq
      · cases found
    · rintro ⟨fits, keyEq⟩
      rw [if_pos (first.mp (fits 0 (by simp)))]
      apply ih.mpr
      constructor
      · intro count inside
        rw [← shift, ← List.take_succ_cons]
        apply fits
        simpa using inside
      · exact keyEq

theorem uhashkey_eq_some_iff (first second : UInt8) (rest : Bytes) (triple : Nat × Nat × Int) :
    table.uhashkey (first :: second :: rest) = some triple ↔
      table.SumsFit rest ∧ triple = (UserCache.letterIndex first, UserCache.letterIndex second,
        Int.tmod (table.keySum rest) 256) := by
  rw [uhashkey, Option.map_eq_some_iff]
  constructor
  · rintro ⟨key, found, rfl⟩
    obtain ⟨fits, rfl⟩ := table.addKey_eq_some_iff.mp found
    simp only [Int.zero_add] at fits
    exact ⟨fits, by rw [Int.zero_add]⟩
  · rintro ⟨fits, rfl⟩
    refine ⟨table.keySum rest, table.addKey_eq_some_iff.mpr ?_, rfl⟩
    simp only [Int.zero_add, and_true]
    exact fits

/-- The key of a sum that is an `int` is an index of the table. -/
def KeyFits (bytes : Bytes) : Prop :=
  table.SumsFit bytes ∧ (0 ≤ table.keySum bytes ∨ 256 ∣ table.keySum bytes)

instance decidableKeyFits (bytes : Bytes) : Decidable (table.KeyFits bytes) :=
  inferInstanceAs (Decidable ((∀ count < bytes.length, _) ∧ (_ ∨ _)))

theorem letterIndex_le (c : UInt8) : UserCache.letterIndex c ≤ 25 := by
  unfold UserCache.letterIndex
  split
  · rename_i lower
    simp only [UInt8.le_iff_toNat_le, UInt8.reduceToNat] at lower
    omega
  split
  · rename_i upper
    simp only [UInt8.le_iff_toNat_le, UInt8.reduceToNat] at upper
    omega
  · omega

/-- The remainder of C has the sign of the sum. -/
theorem tmod_inRange_iff (sum : Int) :
    (0 ≤ Int.tmod sum 256 ∧ Int.tmod sum 256 ≤ 255) ↔ 0 ≤ sum ∨ 256 ∣ sum := by
  rcases Int.le_total 0 sum with nonneg | nonpos
  · have low := Int.tmod_nonneg 256 nonneg
    have high := Int.tmod_lt_of_pos sum (show (0 : Int) < 256 by decide)
    constructor
    · intro _
      exact Or.inl nonneg
    · intro _
      exact ⟨low, by omega⟩
  · have high : Int.tmod sum 256 ≤ 0 := by
      have flipped := Int.tmod_nonneg 256 (Int.neg_nonneg_of_nonpos nonpos)
      rw [Int.neg_tmod] at flipped
      omega
    constructor
    · rintro ⟨low, _⟩
      exact Or.inr (Int.dvd_of_tmod_eq_zero (Int.le_antisymm high low))
    · rintro (nonneg | divides)
      · have zero : sum = 0 := Int.le_antisymm nonpos nonneg
        simp [zero]
      · rw [Int.tmod_eq_zero_of_dvd divides]
        decide

theorem uhashkey_map_tolower (bytes : Bytes) :
    table.uhashkey (bytes.map tolower) = table.uhashkey bytes := by
  have sameKey : ∀ rest start, table.addKey (rest.map tolower) start =
      table.addKey rest start := by
    intro rest
    induction rest with
    | nil => intro start; rfl
    | cons c rest ih => intro start; simp only [List.map_cons, addKey, raise_tolower, ih]
  match bytes with
  | [] => rfl
  | [_] => rfl
  | first :: second :: rest =>
    simp only [uhashkey, List.map_cons, UserCache.letterIndex_tolower, sameKey]

/-! ## Lookups -/

/-- The key of a name is in the table, and the case of its letters does not matter. -/
structure LooksUpInside (name : CString) : Prop where
  key : ∃ a1 a2 key, table.uhashkey name.bytes = some (a1, a2, key) ∧
    a1 ≤ 25 ∧ a2 ≤ 25 ∧ 0 ≤ key ∧ key ≤ 255
  entry : ∀ cache, ((table.uhashkey name.bytes).bind (hashEntry cache)).isSome = true
  sameCase : ∀ other : CString,
    other.bytes.map tolower = name.bytes.map tolower →
      table.uhashkey other.bytes = table.uhashkey name.bytes

theorem looksUpInside_iff (name : CString) (long : 2 ≤ name.bytes.length) :
    table.LooksUpInside name ↔ table.KeyFits (name.bytes.drop 2) := by
  obtain ⟨first, second, rest, split⟩ : ∃ first second rest,
      name.bytes = first :: second :: rest := by
    match name.bytes, long with
    | first :: second :: rest, _ => exact ⟨first, second, rest, rfl⟩
  constructor
  · intro inside
    obtain ⟨a1, a2, key, found, -, -, low, high⟩ := inside.key
    rw [split, uhashkey_eq_some_iff] at found
    obtain ⟨fits, triple⟩ := found
    obtain ⟨-, -, keyEq⟩ : _ ∧ _ ∧ _ := by simpa only [Prod.mk.injEq] using triple
    rw [split]
    exact ⟨fits, (tmod_inRange_iff _).mp ⟨keyEq ▸ low, keyEq ▸ high⟩⟩
  · rw [split]
    rintro ⟨fits, sign⟩
    have found := (table.uhashkey_eq_some_iff first second rest _).mpr ⟨fits, rfl⟩
    obtain ⟨low, high⟩ := (tmod_inRange_iff (table.keySum rest)).mpr sign
    constructor
    · rw [split]
      exact ⟨_, _, _, found, letterIndex_le first, letterIndex_le second, low, high⟩
    · intro cache
      rw [split, found, Option.bind_some, hashEntry, if_pos]
      · rfl
      · have left := letterIndex_le first
        have right := letterIndex_le second
        omega
    · intro other same
      rw [← uhashkey_map_tolower, same, uhashkey_map_tolower]

/-- The lookups of the other programs, which take the sum for one that fits. -/
theorem glibc_uhashkey {bytes : Bytes} {triple : Nat × Nat × Int}
    (found : glibc.uhashkey bytes = some triple) : UserCache.uhashkey bytes = some triple := by
  match bytes, found with
  | first :: second :: rest, found =>
    rw [((glibc.uhashkey_eq_some_iff first second rest triple).mp found).2]
    rfl

/-- `SYSOP`. -/
def sysopName : CString :=
  ⟨[83, 89, 83, 79, 80], by simp⟩

theorem sysopName_looksUpInside : glibc.LooksUpInside sysopName :=
  (glibc.looksUpInside_iff sysopName (by decide)).mpr (by decide)

/-- Two letters and a byte of ones, which is `EOF` as a `char`. -/
def eofName : CString :=
  ⟨[97, 98, 255], by simp⟩

theorem eofName_not_looksUpInside : ¬glibc.LooksUpInside eofName := by
  intro inside
  obtain ⟨a1, a2, key, found, -, -, low, -⟩ := inside.key
  have computed : glibc.uhashkey eofName.bytes = some (0, 1, -1) := by decide
  rw [computed] at found
  cases found
  exact absurd low (by decide)

end CaseTable

end Fbbs
