import Fbbs.Utf8Text
import Mathlib.Algebra.Group.Nat.Defs
import Mathlib.Data.Nat.Bitwise

/-!
# Wide characters

`next_wchar` of `lib/string.c` reads a character of a UTF-8 text, and `fb_wcwidth` tells how many
columns of a terminal it takes.  What was encoded is read again as it was.
-/

namespace Fbbs

namespace WideChars

open Utf8Text

/-- `WEOF` as a `wchar_t`. -/
def weof : Int := -1

def isCont (c : UInt8) : Bool :=
  c &&& 0xc0 == 0x80

/-- The character at the start of a text and the number of its bytes. -/
def nextWchar : List UInt8 → Int × Nat
  | [] => (0, 0)
  | s0 :: s =>
    if s0 = 0 then (0, 0)
    else if s0 < 0x80 then (s0.toNat, 1)
    else if s0 &&& 0xe0 = 0xc0 then
      match s with
      | s1 :: _ =>
        if isCont s1 then
          (((s0.toNat &&& 0x1f) <<< 6 ||| (s1.toNat &&& 0x3f) : Nat), 2)
        else (weof, 0)
      | _ => (weof, 0)
    else if s0 &&& 0xf0 = 0xe0 then
      match s with
      | s1 :: s2 :: _ =>
        if isCont s1 && isCont s2 then
          (((s0.toNat &&& 0x0f) <<< 12 ||| (s1.toNat &&& 0x3f) <<< 6 |||
            (s2.toNat &&& 0x3f) : Nat), 3)
        else (weof, 0)
      | _ => (weof, 0)
    else if s0 &&& 0xf8 = 0xf0 then
      match s with
      | s1 :: s2 :: s3 :: _ =>
        if isCont s1 && isCont s2 && isCont s3 then
          (((s0.toNat &&& 0x07) <<< 18 ||| (s1.toNat &&& 0x3f) <<< 12 |||
            (s2.toNat &&& 0x3f) <<< 6 ||| (s3.toNat &&& 0x3f) : Nat), 4)
        else (weof, 0)
      | _ => (weof, 0)
    else (weof, 0)

structure Interval where
  first : Int
  last : Int

/-- The loop of `bisearch` between two indexes, both of them included. -/
def bisearchBetween (ucs : Int) (table : List Interval) : Nat → Int → Int → Bool
  | 0, _, _ => false
  | fuel + 1, min, max =>
    if max ≥ min then
      let mid := (min + max) / 2
      match table[mid.toNat]? with
      | none => false
      | some interval =>
        if ucs > interval.last then bisearchBetween ucs table fuel (mid + 1) max
        else if ucs < interval.first then bisearchBetween ucs table fuel min (mid - 1)
        else true
    else false

def bisearch (ucs : Int) (table : List Interval) : Bool :=
  match table.head?, table.getLast? with
  | some head, some last =>
    if ucs < head.first ∨ ucs > last.last then false
    else bisearchBetween ucs table table.length 0 (table.length - 1)
  | _, _ => false

/-- Characters that take no column of their own. -/
def combining : List Interval :=
  [⟨0x0300, 0x0357⟩, ⟨0x035D, 0x036F⟩, ⟨0x0483, 0x0486⟩, ⟨0x0488, 0x0489⟩, ⟨0x0591, 0x05A1⟩,
   ⟨0x05A3, 0x05B9⟩, ⟨0x05BB, 0x05BD⟩, ⟨0x05BF, 0x05BF⟩, ⟨0x05C1, 0x05C2⟩, ⟨0x05C4, 0x05C4⟩,
   ⟨0x0600, 0x0603⟩, ⟨0x0610, 0x0615⟩, ⟨0x064B, 0x0658⟩, ⟨0x0670, 0x0670⟩, ⟨0x06D6, 0x06E4⟩,
   ⟨0x06E7, 0x06E8⟩, ⟨0x06EA, 0x06ED⟩, ⟨0x070F, 0x070F⟩, ⟨0x0711, 0x0711⟩, ⟨0x0730, 0x074A⟩,
   ⟨0x07A6, 0x07B0⟩, ⟨0x0901, 0x0902⟩, ⟨0x093C, 0x093C⟩, ⟨0x0941, 0x0948⟩, ⟨0x094D, 0x094D⟩,
   ⟨0x0951, 0x0954⟩, ⟨0x0962, 0x0963⟩, ⟨0x0981, 0x0981⟩, ⟨0x09BC, 0x09BC⟩, ⟨0x09C1, 0x09C4⟩,
   ⟨0x09CD, 0x09CD⟩, ⟨0x09E2, 0x09E3⟩, ⟨0x0A01, 0x0A02⟩, ⟨0x0A3C, 0x0A3C⟩, ⟨0x0A41, 0x0A42⟩,
   ⟨0x0A47, 0x0A48⟩, ⟨0x0A4B, 0x0A4D⟩, ⟨0x0A70, 0x0A71⟩, ⟨0x0A81, 0x0A82⟩, ⟨0x0ABC, 0x0ABC⟩,
   ⟨0x0AC1, 0x0AC5⟩, ⟨0x0AC7, 0x0AC8⟩, ⟨0x0ACD, 0x0ACD⟩, ⟨0x0AE2, 0x0AE3⟩, ⟨0x0B01, 0x0B01⟩,
   ⟨0x0B3C, 0x0B3C⟩, ⟨0x0B3F, 0x0B3F⟩, ⟨0x0B41, 0x0B43⟩, ⟨0x0B4D, 0x0B4D⟩, ⟨0x0B56, 0x0B56⟩,
   ⟨0x0B82, 0x0B82⟩, ⟨0x0BC0, 0x0BC0⟩, ⟨0x0BCD, 0x0BCD⟩, ⟨0x0C3E, 0x0C40⟩, ⟨0x0C46, 0x0C48⟩,
   ⟨0x0C4A, 0x0C4D⟩, ⟨0x0C55, 0x0C56⟩, ⟨0x0CBC, 0x0CBC⟩, ⟨0x0CBF, 0x0CBF⟩, ⟨0x0CC6, 0x0CC6⟩,
   ⟨0x0CCC, 0x0CCD⟩, ⟨0x0D41, 0x0D43⟩, ⟨0x0D4D, 0x0D4D⟩, ⟨0x0DCA, 0x0DCA⟩, ⟨0x0DD2, 0x0DD4⟩,
   ⟨0x0DD6, 0x0DD6⟩, ⟨0x0E31, 0x0E31⟩, ⟨0x0E34, 0x0E3A⟩, ⟨0x0E47, 0x0E4E⟩, ⟨0x0EB1, 0x0EB1⟩,
   ⟨0x0EB4, 0x0EB9⟩, ⟨0x0EBB, 0x0EBC⟩, ⟨0x0EC8, 0x0ECD⟩, ⟨0x0F18, 0x0F19⟩, ⟨0x0F35, 0x0F35⟩,
   ⟨0x0F37, 0x0F37⟩, ⟨0x0F39, 0x0F39⟩, ⟨0x0F71, 0x0F7E⟩, ⟨0x0F80, 0x0F84⟩, ⟨0x0F86, 0x0F87⟩,
   ⟨0x0F90, 0x0F97⟩, ⟨0x0F99, 0x0FBC⟩, ⟨0x0FC6, 0x0FC6⟩, ⟨0x102D, 0x1030⟩, ⟨0x1032, 0x1032⟩,
   ⟨0x1036, 0x1037⟩, ⟨0x1039, 0x1039⟩, ⟨0x1058, 0x1059⟩, ⟨0x1160, 0x11FF⟩, ⟨0x1712, 0x1714⟩,
   ⟨0x1732, 0x1734⟩, ⟨0x1752, 0x1753⟩, ⟨0x1772, 0x1773⟩, ⟨0x17B4, 0x17B5⟩, ⟨0x17B7, 0x17BD⟩,
   ⟨0x17C6, 0x17C6⟩, ⟨0x17C9, 0x17D3⟩, ⟨0x17DD, 0x17DD⟩, ⟨0x180B, 0x180D⟩, ⟨0x18A9, 0x18A9⟩,
   ⟨0x1920, 0x1922⟩, ⟨0x1927, 0x1928⟩, ⟨0x1932, 0x1932⟩, ⟨0x1939, 0x193B⟩, ⟨0x200B, 0x200F⟩,
   ⟨0x202A, 0x202E⟩, ⟨0x2060, 0x2063⟩, ⟨0x206A, 0x206F⟩, ⟨0x20D0, 0x20EA⟩, ⟨0x302A, 0x302F⟩,
   ⟨0x3099, 0x309A⟩, ⟨0xFB1E, 0xFB1E⟩, ⟨0xFE00, 0xFE0F⟩, ⟨0xFE20, 0xFE23⟩, ⟨0xFEFF, 0xFEFF⟩,
   ⟨0xFFF9, 0xFFFB⟩, ⟨0x1D167, 0x1D169⟩, ⟨0x1D173, 0x1D182⟩, ⟨0x1D185, 0x1D18B⟩,
   ⟨0x1D1AA, 0x1D1AD⟩, ⟨0xE0001, 0xE0001⟩, ⟨0xE0020, 0xE007F⟩, ⟨0xE0100, 0xE01EF⟩]

/-- East Asian characters of double width. -/
def isWide (ch : Int) : Bool :=
  ch ≥ 0x1100 &&
    (ch ≤ 0x115f || ch == 0x2329 || ch == 0x232a ||
      (ch ≥ 0x2e80 && ch ≤ 0xa4cf && ch != 0x303f) ||
      (ch ≥ 0xac00 && ch ≤ 0xd7a3) ||
      (ch ≥ 0xf900 && ch ≤ 0xfaff) ||
      (ch ≥ 0xfe30 && ch ≤ 0xfe6f) ||
      (ch ≥ 0xff00 && ch ≤ 0xff60) ||
      (ch ≥ 0xffe0 && ch ≤ 0xffe6) ||
      (ch ≥ 0x20000 && ch ≤ 0x2fffd) ||
      (ch ≥ 0x30000 && ch ≤ 0x3fffd))

def fbWcwidth (ch : Int) : Int :=
  if ch = 0 then 0
  else if ch < 32 ∨ ch ≥ 0x7f ∧ ch < 0xa0 then -1
  else if bisearch ch combining then 0
  else if isWide ch then 2 else 1

/-- A character that is read lies in the text. -/
theorem nextWchar_bounds (s : List UInt8) :
    ¬((nextWchar s).1 = weof ∨ (nextWchar s).1 = 0) →
      0 < (nextWchar s).2 ∧ (nextWchar s).2 ≤ s.length := by
  fun_cases nextWchar s <;> simp

/-- A byte that continues no character ends one, so what is behind it does not matter. -/
theorem nextWchar_append {t : List UInt8} {stop : UInt8} (member : stop ∈ t)
    (ends : isCont stop = false) (s0 : UInt8) (after : List UInt8) :
    nextWchar (s0 :: (t ++ after)) = nextWchar (s0 :: t) := by
  rcases t with _ | ⟨s1, _ | ⟨s2, _ | ⟨s3, t⟩⟩⟩
  · cases member
  · rw [List.mem_singleton.mp member] at ends
    rcases after with _ | ⟨a, _ | ⟨b, after⟩⟩ <;> simp [nextWchar, ends]
  · have oneEnds : isCont s1 = false ∨ isCont s2 = false := by
      simp only [List.mem_cons, List.not_mem_nil, or_false] at member
      rcases member with rfl | rfl
      · exact .inl ends
      · exact .inr ends
    rcases after with _ | ⟨a, after⟩ <;> rcases oneEnds with no | no <;> simp [nextWchar, no]
  · rfl

/-- Bits put behind a number that has been shifted. -/
theorem shift_or {k factor b : Nat} (a : Nat) (power : 2 ^ k = factor) (small : b < factor) :
    a <<< k ||| b = factor * a + b := by
  subst power
  rw [Nat.shiftLeft_eq, Nat.mul_comm, Nat.two_pow_add_eq_or_of_lt small]

theorem cont_ofNat : ∀ b < 64,
    isCont (UInt8.ofNat (b + 0x80)) = true ∧ (UInt8.ofNat (b + 0x80)).toNat &&& 0x3f = b := by
  decide

theorem lead_two : ∀ a < 32, UInt8.ofNat (a + 0xc0) ≠ 0 ∧ ¬UInt8.ofNat (a + 0xc0) < 0x80 ∧
    UInt8.ofNat (a + 0xc0) &&& 0xe0 = 0xc0 ∧ (UInt8.ofNat (a + 0xc0)).toNat &&& 0x1f = a := by
  decide

theorem lead_three : ∀ a < 16, UInt8.ofNat (a + 0xe0) ≠ 0 ∧ ¬UInt8.ofNat (a + 0xe0) < 0x80 ∧
    UInt8.ofNat (a + 0xe0) &&& 0xe0 ≠ 0xc0 ∧ UInt8.ofNat (a + 0xe0) &&& 0xf0 = 0xe0 ∧
    (UInt8.ofNat (a + 0xe0)).toNat &&& 0x0f = a := by
  decide

theorem lead_four : ∀ a < 8, UInt8.ofNat (a + 0xf0) ≠ 0 ∧ ¬UInt8.ofNat (a + 0xf0) < 0x80 ∧
    UInt8.ofNat (a + 0xf0) &&& 0xe0 ≠ 0xc0 ∧ UInt8.ofNat (a + 0xf0) &&& 0xf0 ≠ 0xe0 ∧
    UInt8.ofNat (a + 0xf0) &&& 0xf8 = 0xf0 ∧ (UInt8.ofNat (a + 0xf0)).toNat &&& 0x07 = a := by
  decide

section Characters

variable {a b c d : Nat} (rest : List UInt8)

theorem nextWchar_two (lead : a < 32) (second : b < 64) :
    nextWchar (UInt8.ofNat (a + 0xc0) :: UInt8.ofNat (b + 0x80) :: rest) =
      (((64 * a + b : Nat) : Int), 2) := by
  obtain ⟨nonzero, high, two, value⟩ := lead_two a lead
  obtain ⟨isCont, bits⟩ := cont_ofNat b second
  simp only [nextWchar, if_neg nonzero, if_neg high, if_pos two, isCont, if_true, value, bits]
  have six : 2 ^ 6 = 64 := rfl
  rw [shift_or a six second]

theorem nextWchar_three (lead : a < 16) (second : b < 64) (third : c < 64) :
    nextWchar (UInt8.ofNat (a + 0xe0) :: UInt8.ofNat (b + 0x80) :: UInt8.ofNat (c + 0x80) ::
      rest) = (((4096 * a + 64 * b + c : Nat) : Int), 3) := by
  obtain ⟨nonzero, high, two, three, value⟩ := lead_three a lead
  obtain ⟨isCont, bits⟩ := cont_ofNat b second
  obtain ⟨isCont', bits'⟩ := cont_ofNat c third
  simp only [nextWchar, if_neg nonzero, if_neg high, if_neg two, if_pos three, isCont, isCont',
    Bool.and_self, if_true, value, bits, bits']
  have six : 2 ^ 6 = 64 := rfl
  have twelve : 2 ^ 12 = 4096 := rfl
  rw [Nat.or_assoc, shift_or b six third, shift_or a twelve (by omega)]
  simp only [Nat.add_assoc]

theorem nextWchar_four (lead : a < 8) (second : b < 64) (third : c < 64) (fourth : d < 64) :
    nextWchar (UInt8.ofNat (a + 0xf0) :: UInt8.ofNat (b + 0x80) :: UInt8.ofNat (c + 0x80) ::
      UInt8.ofNat (d + 0x80) :: rest) =
      (((262144 * a + 4096 * b + 64 * c + d : Nat) : Int), 4) := by
  obtain ⟨nonzero, high, two, three, four, value⟩ := lead_four a lead
  obtain ⟨isCont, bits⟩ := cont_ofNat b second
  obtain ⟨isCont', bits'⟩ := cont_ofNat c third
  obtain ⟨isCont'', bits''⟩ := cont_ofNat d fourth
  simp only [nextWchar, if_neg nonzero, if_neg high, if_neg two, if_neg three, if_pos four,
    isCont, isCont', isCont'', Bool.and_self, if_true, value, bits, bits', bits'']
  have six : 2 ^ 6 = 64 := rfl
  have twelve : 2 ^ 12 = 4096 := rfl
  have eighteen : 2 ^ 18 = 262144 := rfl
  rw [Nat.or_assoc, Nat.or_assoc, shift_or c six fourth, shift_or b twelve (by omega),
    shift_or a eighteen (by omega)]
  simp only [Nat.add_assoc]

end Characters

/-- An encoded character is read as it was. -/
theorem nextWchar_encode {c : Char} (high : 128 ≤ c.toNat) (rest : List UInt8) :
    nextWchar (String.utf8EncodeChar c ++ rest) =
      ((c.toNat : Int), (String.utf8EncodeChar c).length) := by
  have number : c.val.toNat = c.toNat := rfl
  have large : ¬c.toNat ≤ 0x7f := Nat.not_le.mpr high
  have bound : c.toNat < 0x110000 := by
    rcases c.valid with low | above
    · exact Nat.lt_trans low (by omega)
    · exact above.2
  simp only [String.utf8EncodeChar, number, if_neg large]
  split
  next two =>
    have value : 64 * (c.toNat / 64 % 32) + c.toNat % 64 = c.toNat := by omega
    have read := @nextWchar_two (c.toNat / 64 % 32) (c.toNat % 64) rest (by omega) (by omega)
    rw [value] at read
    exact read
  next two =>
    split
    next three =>
      have value : 4096 * (c.toNat / 4096 % 16) + 64 * (c.toNat / 64 % 64) + c.toNat % 64 =
          c.toNat := by
        omega
      have read := @nextWchar_three (c.toNat / 4096 % 16) (c.toNat / 64 % 64) (c.toNat % 64)
        rest (by omega) (by omega) (by omega)
      rw [value] at read
      exact read
    next three =>
      have value : 262144 * (c.toNat / 262144 % 8) + 4096 * (c.toNat / 4096 % 64) +
          64 * (c.toNat / 64 % 64) + c.toNat % 64 = c.toNat := by
        omega
      have read := @nextWchar_four (c.toNat / 262144 % 8) (c.toNat / 4096 % 64)
        (c.toNat / 64 % 64) (c.toNat % 64) rest (by omega) (by omega) (by omega) (by omega)
      rw [value] at read
      exact read

theorem fbWcwidth_le_two (ch : Int) : fbWcwidth ch ≤ 2 := by
  rw [fbWcwidth]
  split_ifs <;> omega

end WideChars

end Fbbs
