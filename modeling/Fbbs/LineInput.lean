import Fbbs.CharArrays
import Fbbs.Editor
import Fbbs.TransitionRuns

/-!
# Typing a line

`getdata` and `remove_character` of `src/tui.c`: the text is kept in an array with its length and
the cursor beside it.  An access outside of the array is `none`.
-/

namespace Fbbs

namespace LineInput

open AsciiBytes (isHigh)
open Editor (Bytes)
open TransitionRuns (run Guarded)

def ctrl (c : Char) : Int :=
  (c.toNat &&& 31 : Nat)

def keyUp : Int := 0x0101

def keyDown : Int := 0x0102

def keyRight : Int := 0x0103

def keyLeft : Int := 0x0104

def keyHome : Int := 0x0201

def keyDel : Int := 0x0203

def keyEnd : Int := 0x0204

/-- A result of `terminal_getchar`, and whether `RMSG` is set with no message waiting then. -/
structure Key where
  ch : Int
  replying : Bool

def Key.byte (key : Key) : UInt8 :=
  UInt8.ofNat (key.ch % 256).toNat

def Key.isprint2 (key : Key) : Bool :=
  Editor.isprint2 (key.ch % 256).toNat

/-- The variables of `getdata`, and whether its loop has been left. -/
structure State where
  buf : Nat → UInt8
  cur : Nat
  clen : Nat
  ended : Bool

def memmove (data : Nat → UInt8) (dest src count : Nat) : Nat → UInt8 :=
  fun i => if dest ≤ i ∧ i < dest + count then data (src + (i - dest)) else data i

/-- How many bytes a character is taken to have that begins like this. -/
def width (c : UInt8) : Nat :=
  if isHigh c then 2 else 1

/-- The loop of `remove_character`: the place and the width of the last character looked at. -/
def findCharacter (buf : Nat → UInt8) (cur clen : Nat) (backspace : Bool) :
    Nat → Nat → Nat × Nat → Nat × Nat
  | 0, _, found => found
  | fuel + 1, i, found =>
    if i < clen then
      if backspace = false ∧ (cur ≤ i ∨ cur < i + width (buf i)) ∨
          backspace = true ∧ cur ≤ i + width (buf i) then
        (i, width (buf i))
      else findCharacter buf cur clen backspace fuel (i + width (buf i)) (i, width (buf i))
    else found

def State.character (s : State) (backspace : Bool) : Nat × Nat :=
  findCharacter s.buf s.cur s.clen backspace s.clen 0 (0, 0)

def removeAt (s : State) (pos dec : Nat) : State :=
  { s with
    buf :=
      Function.update
        (if pos + dec < s.clen then memmove s.buf pos (pos + dec) (s.clen - pos - dec) else s.buf)
        (s.clen - dec) 0
    cur := pos
    clen := s.clen - dec }

/-- `remove_character`, and the length that its result is taken from. -/
def removeCharacter (s : State) (backspace : Bool) : State :=
  if s.cur = 0 ∨ s.clen = 0 then s
  else removeAt s (s.character backspace).1 (s.character backspace).2

def insertCharacter (len : Nat) (s : State) (key : Key) : Option State :=
  if (s.buf s.cur ≠ 0 → s.cur ≤ s.clen) ∧ s.cur + 1 < len then
    some
      { s with
        buf :=
          Function.update
            (Function.update
              (if s.buf s.cur ≠ 0 then memmove s.buf (s.cur + 1) s.cur (s.clen - s.cur) else s.buf)
              s.cur key.byte)
            (s.cur + 1) 0
        cur := s.cur + 1
        clen := s.clen + 1 }
  else none

/-- The loop is left with a control character in place of the first byte. -/
def answer (s : State) (c : UInt8) : State :=
  { s with buf := Function.update s.buf 0 c, clen := 1, ended := true }

/-- What the loop of `getdata` does with a key. -/
def step (len : Nat) (s : State) (key : Key) : Option State :=
  if s.ended then none
  else if key.replying ∧ (key.ch = ctrl 'Z' ∨ key.ch = keyUp) then some (answer s 26)
  else if key.replying ∧ (key.ch = ctrl 'A' ∨ key.ch = keyDown) then some (answer s 1)
  else if key.ch = 10 ∨ key.ch = 13 then some { s with ended := true }
  else if key.ch = 0x7f ∨ key.ch = ctrl 'H' then some (removeCharacter s true)
  else if key.ch = keyDel then some (removeCharacter s false)
  else if key.ch = keyLeft then some { s with cur := s.cur - 1 }
  else if key.ch = keyRight then
    some { s with cur := if s.cur < s.clen then s.cur + 1 else s.cur }
  else if key.ch = ctrl 'E' ∨ key.ch = keyEnd then some { s with cur := s.clen }
  else if key.ch = ctrl 'A' ∨ key.ch = keyHome then some { s with cur := 0 }
  else if key.isprint2 ∧ s.clen < len - 1 then insertCharacter len s key
  else some s

def State.text (s : State) (len : Nat) : Bytes :=
  CharArrays.string len s.buf

/-- The array before the loop. -/
def initial (len : Nat) (buf : Nat → UInt8) (clear : Bool) : Nat → UInt8 :=
  Function.update (if clear then Function.update buf 0 0 else buf) (len - 1) 0

def start (len : Nat) (buf : Nat → UInt8) (clear : Bool) : State where
  buf := initial len buf clear
  cur := (CharArrays.string len (initial len buf clear)).length
  clen := (CharArrays.string len (initial len buf clear)).length
  ended := false

/-! ## What a key is to do -/

/-- A text is cut into single bytes and pairs; a pair may lack its second byte at the end. -/
def characters : Bytes → List Bytes
  | [] => []
  | [c] => [[c]]
  | c :: d :: rest =>
    if isHigh c then [c, d] :: characters rest else [c] :: characters (d :: rest)

/-- One byte that is not the first of a pair, or a pair. -/
def Whole : Bytes → Prop
  | [c] => isHigh c = false
  | [c, _] => isHigh c = true
  | _ => False

/-- One whole character is taken out of a text. -/
def RemovesOne (text rest : Bytes) : Prop :=
  ∃ before character after, characters text = before ++ character :: after ∧ Whole character ∧
    rest = before.flatten ++ after.flatten

/-- A printable key, with room for it. -/
def Types (len : Nat) (s : State) (key : Key) : Prop :=
  key.isprint2 = true ∧ s.clen < len - 1

/-- Backspace or delete. -/
def Removes (key : Key) : Prop :=
  key.ch = 0x7f ∨ key.ch = ctrl 'H' ∨ key.ch = keyDel

/-- A key that ends the input while messages are looked through. -/
def Answers (key : Key) : Prop :=
  key.replying = true ∧
    (key.ch = ctrl 'Z' ∨ key.ch = keyUp ∨ key.ch = ctrl 'A' ∨ key.ch = keyDown)

instance (len : Nat) (s : State) (key : Key) : Decidable (Types len s key) :=
  inferInstanceAs (Decidable (_ ∧ _))

instance (key : Key) : Decidable (Removes key) :=
  inferInstanceAs (Decidable (_ ∨ _))

instance (key : Key) : Decidable (Answers key) :=
  inferInstanceAs (Decidable (_ ∧ _))

/-- The length is that of the text, and the cursor is in the text. -/
structure Consistent (len : Nat) (s : State) : Prop where
  clen_eq : s.clen = (s.text len).length
  clen_le : s.clen ≤ len - 1
  cur_le : s.cur ≤ s.clen

structure KeyLaw (len : Nat) (s : State) (key : Key) (next : State) : Prop where
  types : Types len s key →
    next.text len = (s.text len).take s.cur ++ key.byte :: (s.text len).drop s.cur
  removes : Removes key → next.text len = s.text len ∨ RemovesOne (s.text len) (next.text len)
  answers : Answers key → next.ended = true ∧ next.clen = 1 ∧
    next.buf = Function.update s.buf 0 (if key.ch = ctrl 'Z' ∨ key.ch = keyUp then 26 else 1)
  keeps : ¬Types len s key → ¬Removes key → ¬Answers key → next.text len = s.text len

/-- The key is not typed before the end of the text, and does not remove the first byte of a pair
without its second. -/
def Ordinary (len : Nat) (s : State) (key : Key) : Prop :=
  (Types len s key → s.cur = s.clen) ∧
    (Removes key → 0 < s.cur →
      (s.character (key.ch != keyDel)).1 + (s.character (key.ch != keyDel)).2 ≤ s.clen)

instance (len : Nat) (s : State) (key : Key) : Decidable (Ordinary len s key) :=
  inferInstanceAs (Decidable (_ ∧ _))

/-! ## Characters of a text -/

theorem width_pos (c : UInt8) : 0 < width c := by
  rw [width]
  split <;> decide

/-- The first character of a text, which is whole unless it ends behind the text. -/
theorem characters_cons (c : UInt8) (rest : Bytes) :
    ∃ character, characters (c :: rest) = character :: characters ((c :: rest).drop (width c)) ∧
      (width c ≤ (c :: rest).length → character.length = width c ∧ Whole character) ∧
      character = (c :: rest).take (width c) := by
  cases rest with
  | nil =>
    use [c]
    by_cases high : isHigh c = true
    · rw [width, if_pos high]
      exact ⟨rfl, fun short => absurd short (Nat.not_succ_le_self 1), rfl⟩
    · rw [width, if_neg high]
      exact ⟨rfl, fun _ => ⟨rfl, (Bool.not_eq_true _).mp high⟩, rfl⟩
  | cons d rest =>
    by_cases high : isHigh c = true
    · use [c, d]
      rw [width, if_pos high, characters, if_pos high]
      exact ⟨rfl, fun _ => ⟨rfl, high⟩, rfl⟩
    · use [c]
      rw [width, if_neg high, characters, if_neg high]
      exact ⟨rfl, fun _ => ⟨rfl, (Bool.not_eq_true _).mp high⟩, rfl⟩

theorem flatten_characters (text : Bytes) : (characters text).flatten = text := by
  induction text using characters.induct with
  | case1 => rfl
  | case2 c => rfl
  | case3 c d rest high ih =>
    rw [characters, if_pos high, List.flatten_cons, ih]
    rfl
  | case4 c d rest high ih =>
    rw [characters, if_neg high, List.flatten_cons, ih]
    rfl

/-- A character of the text at a place, whole if it ends in the text. -/
def Located (text : Bytes) (place : Nat × Nat) : Prop :=
  ∃ before character after, characters text = before ++ character :: after ∧
    before.flatten.length = place.1 ∧
    (place.1 + place.2 ≤ text.length → character.length = place.2 ∧ Whole character)

/-- What is found is a character of the text. -/
theorem findCharacter_located {buf : Nat → UInt8} {text : Bytes}
    (same : ∀ i, (below : i < text.length) → buf i = text[i]) (cur : Nat) (backspace : Bool)
    {fuel i : Nat} {found : Nat × Nat} (enough : text.length ≤ i + fuel)
    (reached : i < text.length → ∃ before, characters text = before ++ characters (text.drop i) ∧
      before.flatten.length = i)
    (last : text.length ≤ i → Located text found) :
    Located text (findCharacter buf cur text.length backspace fuel i found) := by
  induction fuel generalizing i found with
  | zero => exact last enough
  | succ fuel ih =>
    rw [findCharacter]
    by_cases inside : i < text.length
    · obtain ⟨before, split, place⟩ := reached inside
      obtain ⟨character, first, whole, taken⟩ := characters_cons text[i] (text.drop (i + 1))
      rw [← List.drop_eq_getElem_cons inside] at first whole taken
      rw [List.length_drop] at whole
      rw [List.drop_drop] at first
      have here : Located text (i, width text[i]) := by
        use before, character, characters (text.drop (i + width text[i]))
        exact ⟨by rw [split, first], place, fun upTo => whole (by omega)⟩
      rw [if_pos inside, same i inside]
      split
      next => exact here
      next =>
          have more := width_pos text[i]
          apply ih (by omega)
          · intro next
            use before ++ [character]
            constructor
            · rw [split, first, List.append_assoc, List.singleton_append]
            · rw [List.flatten_append, List.length_append, List.flatten_singleton, place,
                (whole (by omega)).1]
          · exact fun _ => here
    · rw [if_neg inside]
      exact last (by omega)

/-! ## Changes of the array -/

/-- The array holds a text of the length, and the cursor is in the text. -/
structure Holds (len : Nat) (s : State) : Prop where
  ends : CharArrays.Ends len s.buf 0 s.clen
  cur_le : s.cur ≤ s.clen

variable {len : Nat} {s : State}

theorem Holds.length_text (holds : Holds len s) : (s.text len).length = s.clen :=
  holds.ends.length_eq

theorem Holds.getElem_text (holds : Holds len s) (i : Nat) (below : i < (s.text len).length) :
    s.buf i = (s.text len)[i] := by
  have upTo : i ≤ s.clen := by
    rw [holds.length_text] at below
    exact Nat.le_of_lt below
  rw [← holds.ends.getD_string upTo]
  exact List.getD_eq_getElem _ _ below

theorem Holds.consistent (holds : Holds len s) : Consistent len s where
  clen_eq := holds.length_text.symm
  clen_le := by
    have := holds.ends.inside
    omega
  cur_le := holds.cur_le

/-- An array that is made of the bytes of a text holds the text. -/
theorem holds_of {text : Bytes} (length : s.clen = text.length) (inside : s.clen < len)
    (cur_le : s.cur ≤ s.clen) (zero : s.buf s.clen = 0)
    (items : ∀ i, (below : i < text.length) → s.buf i = text[i])
    (nonzero : ∀ c ∈ text, c ≠ 0) : Holds len s ∧ s.text len = text := by
  constructor
  · constructor
    · constructor
      · omega
      · rwa [Nat.zero_add]
      · intro i below
        rw [length] at below
        rw [Nat.zero_add, items i below]
        exact nonzero _ (List.getElem_mem below)
    · exact cur_le
  · apply CharArrays.stringAt_eq_of
    · omega
    · rwa [Nat.zero_add, ← length]
    · intro i below
      rw [Nat.zero_add]
      exact items i below
    · exact nonzero

theorem Holds.nonzero (_ : Holds len s) : ∀ c ∈ s.text len, c ≠ 0 :=
  fun _ member => CharArrays.nonzero_of_mem_stringAt member

/-- Bytes are taken out of the text. -/
theorem removeAt_holds (holds : Holds len s) {pos dec : Nat} (inside : pos + dec ≤ s.clen) :
    Holds len (removeAt s pos dec) ∧
      (removeAt s pos dec).text len = (s.text len).take pos ++ (s.text len).drop (pos + dec) := by
  have length := holds.length_text
  have room := holds.ends.inside
  have front : ((s.text len).take pos).length = pos := by
    rw [List.length_take]
    omega
  apply holds_of
  · rw [List.length_append, front, List.length_drop, length]
    change s.clen - dec = _
    omega
  · change s.clen - dec < len
    omega
  · change pos ≤ s.clen - dec
    omega
  · exact Function.update_self ..
  · intro i below
    rw [List.length_append, front, List.length_drop, length] at below
    change Function.update _ (s.clen - dec) 0 i = _
    rw [Function.update_of_ne (by omega)]
    by_cases before : i < pos
    · have kept : (if pos + dec < s.clen then memmove s.buf pos (pos + dec) (s.clen - pos - dec)
          else s.buf) i = s.buf i := by
        split
        next => rw [memmove, if_neg (by omega)]
        next => rfl
      rw [kept, List.getElem_append_left (by omega), List.getElem_take]
      exact holds.getElem_text i (by omega)
    · have place : pos + dec + (i - ((s.text len).take pos).length) = pos + dec + (i - pos) := by
        rw [front]
      rw [if_pos (by omega), memmove, if_pos (by omega), List.getElem_append_right (by omega),
        List.getElem_drop]
      simp only [place]
      exact holds.getElem_text _ (by omega)
  · intro c member
    rcases List.mem_append.mp member with taken | dropped
    · exact holds.nonzero c (List.mem_of_mem_take taken)
    · exact holds.nonzero c (List.mem_of_mem_drop dropped)

theorem Key.byte_ne_zero {key : Key} (printable : key.isprint2 = true) : key.byte ≠ 0 := by
  intro zero
  have none : (key.ch % 256).toNat = 0 := by
    have value := congrArg UInt8.toNat zero
    rw [Key.byte, UInt8.toNat_ofNat'] at value
    change (key.ch % 256).toNat % 256 = 0 at value
    omega
  rw [Key.isprint2, none] at printable
  exact absurd printable (by decide)

/-- A byte is put behind the text. -/
theorem insertCharacter_holds (holds : Holds len s) {key : Key} (types : Types len s key)
    (last : s.cur = s.clen) :
    ∃ next, insertCharacter len s key = some next ∧ next.ended = s.ended ∧ Holds len next ∧
      next.text len = s.text len ++ [key.byte] := by
  have length := holds.length_text
  have room := types.2
  have zero : s.buf s.cur = 0 := by
    rw [last, ← Nat.zero_add s.clen]
    exact holds.ends.zero
  have inserts : (s.buf s.cur ≠ 0 → s.cur ≤ s.clen) ∧ s.cur + 1 < len :=
    ⟨fun nonzero => absurd zero nonzero, by omega⟩
  rw [insertCharacter, if_pos inserts, if_neg (not_not_intro zero)]
  refine ⟨_, rfl, rfl, ?_⟩
  apply holds_of
  · rw [List.length_append, length]
    rfl
  · change s.clen + 1 < len
    omega
  · change s.cur + 1 ≤ s.clen + 1
    omega
  · change Function.update _ (s.cur + 1) 0 (s.clen + 1) = 0
    rw [last, Function.update_self]
  · intro i below
    rw [List.length_append, List.length_singleton, length] at below
    change Function.update _ (s.cur + 1) 0 i = _
    rw [Function.update_of_ne (by omega)]
    by_cases before : i < s.clen
    · rw [Function.update_of_ne (by omega), List.getElem_append_left (by omega)]
      exact holds.getElem_text i (by omega)
    · obtain rfl : i = s.cur := by omega
      rw [Function.update_self, List.getElem_append_right (by omega), List.getElem_singleton]
  · intro c member
    rcases List.mem_append.mp member with old | new
    · exact holds.nonzero c old
    · rw [List.mem_singleton.mp new]
      exact Key.byte_ne_zero types.1

/-- `remove_character` removes nothing or one whole character. -/
theorem removeCharacter_holds (holds : Holds len s) {backspace : Bool}
    (complete : 0 < s.cur → (s.character backspace).1 + (s.character backspace).2 ≤ s.clen) :
    Holds len (removeCharacter s backspace) ∧
      ((removeCharacter s backspace).text len = s.text len ∨
        RemovesOne (s.text len) ((removeCharacter s backspace).text len)) := by
  have length := holds.length_text
  rw [removeCharacter]
  by_cases nothing : s.cur = 0 ∨ s.clen = 0
  · rw [if_pos nothing]
    exact ⟨holds, Or.inl rfl⟩
  · rw [if_neg nothing]
    have inside := complete (by omega)
    have located : Located (s.text len) (s.character backspace) := by
      rw [State.character, ← length]
      apply findCharacter_located holds.getElem_text s.cur backspace
      · omega
      · exact fun _ => ⟨[], rfl, rfl⟩
      · intro empty
        omega
    obtain ⟨before, character, after, split, place, whole⟩ := located
    obtain ⟨width, whole⟩ := whole (by omega)
    obtain ⟨removed, text⟩ := removeAt_holds holds inside
    use removed
    right
    use before, character, after, split, whole
    have parts : s.text len = before.flatten ++ (character ++ after.flatten) := by
      rw [← List.flatten_cons, ← List.flatten_append, ← split, flatten_characters]
    have behind : (s.text len).drop ((s.character backspace).1 + (s.character backspace).2) =
        after.flatten := by
      rw [← place, ← width, parts, List.drop_length_add_append, List.drop_left]
    have front : (s.text len).take (s.character backspace).1 = before.flatten := by
      rw [← place, parts, List.take_left]
    rw [text, front, behind]

/-! ## Keys -/

theorem Key.ch_ne {key : Key} (printable : key.isprint2 = true) {c : Int}
    (control : Editor.isprint2 (c % 256).toNat = false) : key.ch ≠ c := by
  rintro rfl
  exact Bool.false_ne_true (control.symm.trans printable)

theorem step_types (running : s.ended = false) {key : Key} (types : Types len s key) :
    step len s key = insertCharacter len s key := by
  have other {c : Int} (control : Editor.isprint2 (c % 256).toNat = false) : key.ch ≠ c :=
    Key.ch_ne types.1 control
  rw [step, if_neg (by rw [running]; decide),
    if_neg fun condition => condition.2.elim (other (by decide)) (other (by decide)),
    if_neg fun condition => condition.2.elim (other (by decide)) (other (by decide)),
    if_neg fun condition => condition.elim (other (by decide)) (other (by decide)),
    if_neg fun condition => condition.elim (other (by decide)) (other (by decide)),
    if_neg (other (by decide)), if_neg (other (by decide)), if_neg (other (by decide)),
    if_neg fun condition => condition.elim (other (by decide)) (other (by decide)),
    if_neg fun condition => condition.elim (other (by decide)) (other (by decide)),
    if_pos ⟨types.1, types.2⟩]

theorem not_answers_of_removes {key : Key} (removes : Removes key) : ¬Answers key := by
  rintro ⟨_, answers⟩
  rcases removes with same | same | same <;> rw [same] at answers <;>
    exact absurd answers (by decide)

theorem step_removes (running : s.ended = false) {key : Key} (removes : Removes key) :
    step len s key = some (removeCharacter s (key.ch != keyDel)) := by
  have answers := not_answers_of_removes removes
  rw [step, if_neg (by rw [running]; decide),
    if_neg fun condition => answers ⟨condition.1, condition.2.elim Or.inl fun up => .inr (.inl up)⟩,
    if_neg fun condition => answers ⟨condition.1, .inr (.inr condition.2)⟩]
  rcases removes with same | same | same <;> rw [same] <;> rfl

theorem step_answers (running : s.ended = false) {key : Key} (answers : Answers key) :
    step len s key =
      some (answer s (if key.ch = ctrl 'Z' ∨ key.ch = keyUp then 26 else 1)) := by
  obtain ⟨replying, answers⟩ := answers
  rw [step, if_neg (by rw [running]; decide)]
  by_cases back : key.ch = ctrl 'Z' ∨ key.ch = keyUp
  · rw [if_pos ⟨replying, back⟩, if_pos back]
  · have forth : key.ch = ctrl 'A' ∨ key.ch = keyDown := by tauto
    rw [if_neg fun condition => back condition.2, if_pos ⟨replying, forth⟩, if_neg back]

/-- All other keys leave the text alone. -/
theorem step_keeps (running : s.ended = false) (cur_le : s.cur ≤ s.clen) {key : Key}
    (types : ¬Types len s key) (removes : ¬Removes key) (answers : ¬Answers key) :
    ∃ next, step len s key = some next ∧ next.buf = s.buf ∧ next.clen = s.clen ∧
      next.cur ≤ s.clen := by
  rw [step, if_neg (by rw [running]; decide),
    if_neg fun condition => answers ⟨condition.1, condition.2.elim Or.inl fun up => .inr (.inl up)⟩,
    if_neg fun condition => answers ⟨condition.1, .inr (.inr condition.2)⟩]
  by_cases newline : key.ch = 10 ∨ key.ch = 13
  · rw [if_pos newline]
    exact ⟨_, rfl, rfl, rfl, cur_le⟩
  rw [if_neg newline,
    if_neg fun condition => removes (condition.elim .inl fun back => .inr (.inl back)),
    if_neg fun del => removes (.inr (.inr del))]
  by_cases left : key.ch = keyLeft
  · rw [if_pos left]
    exact ⟨_, rfl, rfl, rfl, Nat.le_trans (Nat.sub_le _ _) cur_le⟩
  rw [if_neg left]
  by_cases right : key.ch = keyRight
  · rw [if_pos right]
    refine ⟨_, rfl, rfl, rfl, ?_⟩
    change (if s.cur < s.clen then s.cur + 1 else s.cur) ≤ s.clen
    split <;> omega
  rw [if_neg right]
  by_cases last : key.ch = ctrl 'E' ∨ key.ch = keyEnd
  · rw [if_pos last]
    exact ⟨_, rfl, rfl, rfl, Nat.le_refl _⟩
  rw [if_neg last]
  by_cases first : key.ch = ctrl 'A' ∨ key.ch = keyHome
  · rw [if_pos first]
    exact ⟨_, rfl, rfl, rfl, Nat.zero_le _⟩
  rw [if_neg first, if_neg fun condition => types ⟨condition.1, condition.2⟩]
  exact ⟨_, rfl, rfl, rfl, cur_le⟩

theorem not_types_of_removes {key : Key} (removes : Removes key) : ¬Types len s key := by
  rintro ⟨printable, _⟩
  rcases removes with same | same | same <;>
    exact Key.ch_ne printable (by decide) same

theorem not_types_of_answers {key : Key} (answers : Answers key) : ¬Types len s key := by
  rintro ⟨printable, _⟩
  rcases answers.2 with same | same | same | same <;>
    exact Key.ch_ne printable (by decide) same

/-- What a key does, unless it is one that is left out. -/
theorem step_law (holds : Holds len s) (running : s.ended = false) {key : Key}
    (ordinary : Ordinary len s key) :
    ∃ next, step len s key = some next ∧ (next.ended = false → Holds len next) ∧
      KeyLaw len s key next := by
  by_cases types : Types len s key
  · have last := ordinary.1 types
    obtain ⟨next, inserted, _, keeps, text⟩ := insertCharacter_holds holds types last
    use next, (step_types running types).trans inserted, fun _ => keeps
    have whole : s.cur = (s.text len).length := last.trans holds.length_text.symm
    constructor
    · intro _
      rw [text, whole, List.take_length, List.drop_length]
    · exact fun removes => absurd types (not_types_of_removes removes)
    · exact fun answers => absurd types (not_types_of_answers answers)
    · exact fun other => absurd types other
  by_cases removes : Removes key
  · obtain ⟨keeps, law⟩ := removeCharacter_holds holds (ordinary.2 removes)
    refine ⟨_, step_removes running removes, fun _ => keeps, ?_⟩
    constructor
    · exact fun typed => absurd typed types
    · exact fun _ => law
    · exact fun answers => absurd answers (not_answers_of_removes removes)
    · exact fun _ other => absurd removes other
  by_cases answers : Answers key
  · refine ⟨_, step_answers running answers, nofun, ?_⟩
    constructor
    · exact fun typed => absurd typed types
    · exact fun removed => absurd removed removes
    · exact fun _ => ⟨rfl, rfl, rfl⟩
    · exact fun _ _ other => absurd answers other
  · obtain ⟨next, stepped, buf, clen, cur_le⟩ :=
      step_keeps running holds.cur_le types removes answers
    have text : next.text len = s.text len := by rw [State.text, buf, State.text]
    use next, stepped
    constructor
    · intro _
      constructor
      · rw [buf, clen]
        exact holds.ends
      · rwa [clen]
    · constructor
      · exact fun typed => absurd typed types
      · exact fun removed => absurd removed removes
      · exact fun answered => absurd answered answers
      · exact fun _ _ _ => text

theorem start_holds (len_pos : 0 < len) (buf : Nat → UInt8) (clear : Bool) :
    Holds len (start len buf clear) where
  ends := CharArrays.ends_of_zero (Nat.sub_one_lt_of_lt len_pos) (Function.update_self ..)
  cur_le := Nat.le_refl _

/-- At each iteration the length and the cursor are right, and the next key does what it is to
do. -/
theorem getdata_law (two : 2 ≤ len) (buf : Nat → UInt8) (clear : Bool) (keys : List Key)
    (current : State) (ordinary : Guarded (step len) (Ordinary len) keys (start len buf clear))
    (runs : run (step len) keys (start len buf clear) = some current)
    (running : current.ended = false) :
    Consistent len current ∧ ∀ key, Ordinary len current key →
      ∃ next, step len current key = some next ∧ KeyLaw len current key next := by
  have holds : current.ended = false → Holds len current := by
    apply TransitionRuns.invariant_of_guarded (fun s : State => s.ended = false → Holds len s) _ _
      ordinary runs
    · intro s key next before allowed stepped going
      have going_before : s.ended = false := by
        by_contra ended
        rw [step, if_pos ((Bool.not_eq_false _).mp ended)] at stepped
        cases stepped
      obtain ⟨other, same, keeps, _⟩ := step_law (before going_before) going_before allowed
      obtain rfl := Option.some.inj (same.symm.trans stepped)
      exact keeps going
    · exact fun _ => start_holds (by omega) buf clear
  constructor
  · exact (holds running).consistent
  · intro key allowed
    obtain ⟨next, stepped, _, law⟩ := step_law (holds running) running allowed
    exact ⟨next, stepped, law⟩

def key (ch : Int) : Key :=
  ⟨ch, false⟩

def emptyLine : State :=
  start 8 (fun _ => 0) true

/-- A pair and a letter are typed, and the pair is removed from between its bytes. -/
theorem pair_removed :
    ∃ current, run (step 8) [key 0xb0, key 0xa1, key 97, key keyHome, key keyRight, key keyDel]
        emptyLine = some current ∧
      Consistent 8 current ∧ ∀ next, Ordinary 8 current next →
        ∃ after, step 8 current next = some after ∧ KeyLaw 8 current next after := by
  refine ⟨_, rfl, ?_⟩
  exact getdata_law (by decide) (fun _ => 0) true
    [key 0xb0, key 0xa1, key 97, key keyHome, key keyRight, key keyDel] _ (by decide) rfl rfl

/-- While messages are looked through, `Ctrl('Z')` takes the place of the first byte.  A letter that
is typed before the end cuts off what is behind it, and removing a lone first byte of a pair takes
the byte before it as well. -/
theorem keys_break_law :
    (∃ current next key, run (step 8) [⟨97, true⟩] emptyLine = some current ∧
      step 8 current key = some next ∧ ¬Types 8 current key ∧ ¬Removes key ∧
        next.text 8 ≠ current.text 8) ∧
    (∃ current, run (step 8) [key 97, key 98, key keyLeft, key 99] emptyLine = some current ∧
      current.ended = false ∧ ¬Consistent 8 current) ∧
    ∃ current, run (step 8) [key 97, key 0xb0, key 0x7f] emptyLine = some current ∧
      current.ended = false ∧ ¬Consistent 8 current := by
  refine ⟨?_, ?_, ?_⟩
  · refine ⟨_, _, ⟨26, true⟩, rfl, rfl, ?_, ?_, ?_⟩
    · decide
    · decide
    · decide
  · refine ⟨_, rfl, rfl, ?_⟩
    intro consistent
    exact absurd consistent.clen_eq (by decide)
  · refine ⟨_, rfl, rfl, ?_⟩
    intro consistent
    exact absurd consistent.cur_le (by decide)

end LineInput

end Fbbs
