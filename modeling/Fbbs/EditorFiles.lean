import Fbbs.EditorKeys
import Fbbs.EditorReflow
import Fbbs.GbkText
import Fbbs.Notifications
import Mathlib.Data.List.DropRight

/-!
# Files of the line editor

`read_file` of `src/edit.c` types the bytes of a file, and `write_file` writes the lines to it
without those that were added at the last time.  Lines that are short and made of whole characters
are neither wrapped nor cut at another place than their ends.
-/

namespace Fbbs

namespace Editor

open AsciiBytes CharArrays ListNeighbours

/-! ## Reading -/

def newline : UInt8 := 10

def tab : UInt8 := 9

def colon : UInt8 := 58

def dot : UInt8 := 46

/-- `alloc_line`. -/
def allocLine (s : State) (line : Nat) : TextLine :=
  ⟨0, false, Function.update (s.raw line) 0 0⟩

/-- `vedit_init`. -/
def veditInit (s : State) : State :=
  let p := s.fresh
  { (s.setLine p (allocLine s p)).setLine (p + 1) (allocLine s (p + 1)) with
    order := [p, p + 1]
    fresh := p + 2
    canEditBegin := p
    canEditEnd := p + 1
    topOfWin := p
    currline := p
    markBegin := none
    markEnd := none
    currpnt := 0
    currWindowLine := 0
    currln := 0 }

/-- `insertch_from_fp`. -/
def insertchFromFp (fuel : Nat) (ch : UInt8) (s : State) : Option State :=
  let wide := { s with linelen := wrapMargin }
  let typed :=
    if isprint2 ch.toNat || ch = escape then
      if s.currpnt < 254 then insertChar fuel ch wide
      else if s.currpnt < 255 then insertChar fuel dot wide
      else some wide
    else if ch = tab then tabKey fuel 4 wide
    else if ch = newline then some (split s.currline s.currpnt wide)
    else some wide
  typed.map fun after => { after with linelen := s.linelen }

/-- `insert_from_fp`. -/
def insertFromFp (fuel : Nat) (data : Bytes) (s : State) : Option State :=
  data.foldlM (fun s ch => insertchFromFp fuel ch s) s

/-- Whether a line names the source, and is not quoted. -/
def namesSource (site : Bytes) (text : Bytes) : Bool :=
  (Notifications.strstr site text).isSome && text.head? != some colon

/-- The end of `read_file`: the line with the source ends what may be edited.  The result is
whether it is to be added. -/
def findSource (site : Bytes) (s : State) : State × Bool :=
  let back := ((s.order.reverse.dropWhile (· != s.canEditEnd)).takeWhile (· != s.canEditBegin))
  match back.find? fun p => namesSource site (s.lines p).text with
  | some p => ({ s with canEditEnd := p }, false)
  | none => (s, true)

/-- `read_file`, when nothing is being edited; a file that is not there is made. -/
def readFile (fuel : Nat) (file : Option Bytes) (site : Bytes) (s : State) :
    Option (State × Bool) :=
  match file with
  | none => some (veditInit s, false)
  | some data => (insertFromFp fuel data (veditInit s)).map (findSource site)

/-! ## Writing -/

inductive Status
  | posting
  | smail
  | edit
  | other
  deriving DecidableEq

/-- What `write_file` is called with, and the texts that it adds: the header of a post, the mark of
a user who edits it, and the source with what is before it. -/
structure Saving where
  status : Status
  header : Option Bytes
  editMark : Bytes
  source : Bytes

inductive Saved
  | aborted
  | keepEditing
  | written (file : Bytes)
  deriving DecidableEq

/-- The first bytes of the line that names a user who edited the post. -/
def oldMark : Bytes :=
  [27, 91, 109, 27, 91, 49, 59, 51, 54, 109, 0xa1, 0xf9, 32, 0xd0, 0xde, 0xb8, 0xc4]

def isMarked (text : Bytes) : Bool :=
  text.take 17 == oldMark

def hasNoText (text : Bytes) : Bool :=
  text == [] || text == [newline]

/-- The lines that are left, from the last one back, when those without a text are freed; `none`
if there is no line before one that is freed. -/
def freeBlank (s : State) : List Nat → Option (List Nat)
  | [] => none
  | p :: before =>
    if p ≠ s.canEditBegin ∧ hasNoText (s.lines p).text then freeBlank s before
    else some (p :: before)

/-- The lines of a file. -/
def unlines (lines : List Bytes) : Bytes :=
  lines.flatMap (· ++ [newline])

/-- `write_file` with the answer to its question. -/
def writeFile (saving : Saving) (answer : UInt8) (addfrom : Bool) (s : State) : Option Saved :=
  if answer = 97 ∨ answer = 65 then some .aborted
  else if answer = 101 ∨ answer = 69 then some .keepEditing
  else
    (freeBlank s s.order.reverse).map fun back =>
      let kept := (back.reverse.map fun p => (s.lines p).text).filter (!isMarked ·)
      .written (saving.header.getD [] ++ unlines kept ++
        (if saving.status = .edit then saving.editMark else []) ++
        if saving.status ≠ .other ∧ addfrom then saving.source else [])

/-! ## Whole characters -/

/-- A printable character, a character of two bytes, or an escape sequence. -/
inductive Glyph
  | ascii (c : UInt8) (printable : 32 ≤ c ∧ c < 127)
  | double (lead trail : UInt8) (leads : 0x81 ≤ lead ∧ lead ≤ 0xfe)
      (trails : 0x40 ≤ trail ∧ trail ≤ 0xfe ∧ trail ≠ 127)
  | ansi (codes : Bytes) (letter : UInt8)
      (digits : ∀ c ∈ codes, 48 ≤ c ∧ c ≤ 57 ∨ c = 59)
      (ends : 65 ≤ letter ∧ letter ≤ 90 ∨ 97 ≤ letter ∧ letter ≤ 122)

def Glyph.bytes : Glyph → Bytes
  | .ascii c _ => [c]
  | .double lead trail _ _ => [lead, trail]
  | .ansi codes letter _ _ => escape :: 91 :: codes ++ [letter]

def encode (glyphs : List Glyph) : Bytes :=
  glyphs.flatMap Glyph.bytes

/-- A line of whole characters that is not too long. -/
def IsLine (text : Bytes) : Prop :=
  text.length < 254 ∧ ∃ glyphs, text = encode glyphs

/-! ## The end of a line of whole characters -/

/-- An array begins with these bytes. -/
def Begins (data : Nat → UInt8) (text : Bytes) : Prop :=
  ∀ i < text.length, data i = text.getD i 0

theorem Begins.append {data : Nat → UInt8} {front behind : Bytes}
    (begins : Begins data (front ++ behind)) : Begins data front ∧
      ∀ i < behind.length, data (front.length + i) = behind.getD i 0 := by
  constructor
  · intro i inside
    rw [begins i (by rw [List.length_append]; omega), List.getD_append _ _ _ _ inside]
  · intro i inside
    rw [begins _ (by rw [List.length_append]; omega),
      List.getD_append_right _ _ _ _ (Nat.le_add_right _ _), Nat.add_sub_cancel_left]

theorem encode_concat (glyphs : List Glyph) (glyph : Glyph) :
    encode (glyphs ++ [glyph]) = encode glyphs ++ glyph.bytes := by
  rw [encode, List.flatMap_append, List.flatMap_singleton, encode]

theorem highRun_low {data : Nat → UInt8} {i : Nat} (low : data i < 128) :
    highRun data (i + 1) = 0 := by
  rw [highRun, isHigh, and_0x80_of_lt low]
  rfl

/-- The bytes above 127 at the end of whole characters are an even number. -/
theorem highRun_encode {data : Nat → UInt8} {glyphs : List Glyph}
    (begins : Begins data (encode glyphs)) :
    highRun data (encode glyphs).length % 2 = 0 := by
  induction glyphs using List.reverseRecOn with
  | nil => rfl
  | append_singleton glyphs glyph ih =>
    rw [encode_concat] at begins ⊢
    obtain ⟨front, behind⟩ := begins.append
    rw [List.length_append]
    cases glyph with
    | ascii c printable =>
      have last := behind 0 Nat.one_pos
      have low : data (encode glyphs).length < 128 := by
        rw [Nat.add_zero] at last
        rw [last]
        exact UInt8.lt_trans printable.2 (by decide)
      exact congrArg (· % 2) (highRun_low low)
    | double lead trail leads trails =>
      have first := behind 0 Nat.two_pos
      have last := behind 1 Nat.one_lt_two
      change highRun data ((encode glyphs).length + 1 + 1) % 2 = 0
      by_cases high : 128 ≤ trail
      · have leadHigh : 128 ≤ lead := UInt8.le_trans (by decide) leads.1
        rw [Nat.add_zero] at first
        rw [highRun, highRun, first, last]
        change (if isHigh trail then (if isHigh lead then _ else 0) + 1 else 0) % 2 = 0
        rw [if_pos (isHigh_iff.mpr high), if_pos (isHigh_iff.mpr leadHigh)]
        have even := ih front
        omega
      · have low : data ((encode glyphs).length + 1) < 128 := by
          rw [last]
          exact UInt8.not_le.mp high
        rw [highRun_low low]
    | ansi codes letter digits ends =>
      have size : (escape :: 91 :: codes ++ [letter]).length = codes.length + 2 + 1 := by
        simp
      have last := behind (codes.length + 2) (by rw [Glyph.bytes, size]; omega)
      have letterEq : (escape :: 91 :: codes ++ [letter]).getD (codes.length + 2) 0 = letter := by
        simp [List.getD]
      rw [Glyph.bytes, letterEq] at last
      have low : data ((encode glyphs).length + (codes.length + 2)) < 128 := by
        rw [last]
        rcases ends with ⟨-, upper⟩ | ⟨-, lower⟩
        · exact UInt8.lt_of_le_of_lt upper (by decide)
        · exact UInt8.lt_of_le_of_lt lower (by decide)
      rw [Glyph.bytes, size, ← Nat.add_assoc, highRun_low low]

theorem escape_notMem_of_printable {c : UInt8} (printable : 32 ≤ c ∧ c < 127) : escape ∉ [c] := by
  rw [List.mem_singleton]
  rintro rfl
  exact absurd printable.1 (by decide)

theorem escape_notMem_double {lead trail : UInt8} (leads : 0x81 ≤ lead ∧ lead ≤ 0xfe)
    (trails : 0x40 ≤ trail ∧ trail ≤ 0xfe ∧ trail ≠ 127) : escape ∉ [lead, trail] := by
  rw [List.mem_pair, not_or]
  constructor
  · rintro rfl
    exact absurd leads.1 (by decide)
  · rintro rfl
    exact absurd trails.1 (by decide)

theorem isCode_letter {letter : UInt8}
    (ends : 65 ≤ letter ∧ letter ≤ 90 ∨ 97 ≤ letter ∧ letter ≤ 122) : isCode letter = false := by
  rw [isCode, List.contains_eq_any_beq, List.any_eq_false]
  intro code member same
  have nat := congrArg UInt8.toNat (beq_iff_eq.mp same)
  have small : ∀ code ∈ ([0, 91, 48, 49, 50, 51, 52, 53, 54, 55, 56, 57, 59] : Bytes),
      code.toNat < 65 ∨ code.toNat = 91 := by simp
  have codes := small code member
  rcases ends with ⟨low, high⟩ | ⟨low, high⟩ <;>
    · rw [UInt8.le_iff_toNat_le] at low high
      simp only [UInt8.reduceToNat] at low high
      omega

theorem escape_notMem_codes {codes : Bytes} {letter : UInt8}
    (digits : ∀ c ∈ codes, 48 ≤ c ∧ c ≤ 57 ∨ c = 59)
    (ends : 65 ≤ letter ∧ letter ≤ 90 ∨ 97 ≤ letter ∧ letter ≤ 122) :
    escape ∉ 91 :: codes ++ [letter] := by
  rw [List.mem_append, List.mem_cons, List.mem_singleton]
  rintro ((first | inCodes) | rfl)
  · exact absurd first (by decide)
  · exact absurd (digits escape inCodes) (by decide)
  · exact absurd ends (by decide)

/-- Behind an escape comes a byte that is not a part of the codes. -/
theorem exists_not_code {glyphs : List Glyph} {front codes : Bytes}
    (split : encode glyphs = front ++ escape :: codes) : ∃ c ∈ codes, isCode c = false := by
  induction glyphs generalizing front with
  | nil => cases front <;> cases split
  | cons glyph glyphs ih =>
    have cons : encode (glyph :: glyphs) = glyph.bytes ++ encode glyphs := List.flatMap_cons
    rw [cons, List.append_eq_append_iff] at split
    obtain ⟨between, frontEq, rest⟩ | ⟨between, bytesEq, rest⟩ := split
    · exact ih rest
    cases between with
    | nil => exact @ih [] rest.symm
    | cons c between =>
      obtain ⟨rfl, codesEq⟩ := List.cons.inj rest
      have member : escape ∈ glyph.bytes := by
        rw [bytesEq]
        simp
      cases glyph with
      | ascii c printable => exact absurd member (escape_notMem_of_printable printable)
      | double lead trail leads trails =>
        exact absurd member (escape_notMem_double leads trails)
      | ansi codes' letter digits ends =>
        refine ⟨letter, ?_, isCode_letter ends⟩
        rw [codesEq]
        apply List.mem_append_left
        cases front with
        | nil =>
          obtain ⟨-, betweenEq⟩ := List.cons.inj bytesEq
          rw [← betweenEq]
          simp
        | cons first front =>
          have behind : 91 :: codes' ++ [letter] = front ++ escape :: between :=
            (List.cons.inj bytesEq).2
          have again : escape ∈ 91 :: codes' ++ [letter] := by
            rw [behind]
            simp
          exact absurd again (escape_notMem_codes digits ends)

theorem skipBack_between {skip : UInt8 → Bool} {data : Nat → UInt8} {i j : Nat}
    (after : skipBack skip data i < j) (upTo : j ≤ i) : skip (data j) = true := by
  induction i with
  | zero => exact absurd (Nat.lt_of_lt_of_le after upTo) (Nat.not_lt_zero _)
  | succ i ih =>
    rw [skipBack] at after
    split_ifs at after with skips
    · obtain rfl | below := Nat.eq_or_lt_of_le upTo
      · exact skips
      · exact ih after (Nat.le_of_lt_succ below)
    · omega

theorem exists_not_code_between {data : Nat → UInt8} {glyphs : List Glyph} {i : Nat}
    (begins : Begins data (encode glyphs)) (place : i < (encode glyphs).length)
    (found : data i = escape) :
    ∃ j, i < j ∧ j < (encode glyphs).length ∧ isCode (data j) = false := by
  have here : (encode glyphs)[i] = escape := by
    rw [← found, begins i place, List.getD_eq_getElem _ _ place]
  have cut : encode glyphs =
      (encode glyphs).take i ++ escape :: (encode glyphs).drop (i + 1) := by
    rw [← here, List.getElem_cons_drop, List.take_append_drop]
  obtain ⟨c, member, notCode⟩ := exists_not_code cut
  obtain ⟨k, inside, rfl⟩ := List.mem_iff_getElem.mp member
  rw [List.length_drop] at inside
  have inside' : i + 1 + k < (encode glyphs).length := by omega
  refine ⟨i + 1 + k, by omega, inside', ?_⟩
  rw [begins _ inside', List.getD_eq_getElem _ _ inside']
  rw [List.getElem_drop] at notCode
  exact notCode

/-- A line of whole characters is cut at its end. -/
theorem splitPos_encode {data : Nat → UInt8} {glyphs : List Glyph}
    (begins : Begins data (encode glyphs)) :
    splitPos data (encode glyphs).length = (encode glyphs).length := by
  have even := highRun_encode begins
  have whole : (if highRun data (encode glyphs).length % 2 = 1 then (encode glyphs).length - 1
      else (encode glyphs).length) = (encode glyphs).length := if_neg (by omega)
  unfold splitPos
  dsimp only
  rw [whole]
  split
  next code =>
    rw [if_neg]
    intro found
    have place : skipBack (fun c => isCode c && c != escape) data ((encode glyphs).length - 1) <
        (encode glyphs).length := by
      have := skipBack_le (fun c => isCode c && c != escape) data ((encode glyphs).length - 1)
      omega
    -- Only codes were passed on the way back to the escape.
    obtain ⟨j, behind, inside, notCode⟩ := exists_not_code_between begins place found
    have passed := skipBack_between behind (Nat.le_sub_one_of_lt inside)
    rw [notCode, Bool.false_and] at passed
    exact Bool.false_ne_true passed
  next => rfl

/-! ## Typing a file -/

/-- The cursor is behind the last line that may be edited. -/
structure Loading (s : State) (front : List Nat) (own : Bytes) : Prop where
  order_eq : s.order = front ++ [s.currline, s.canEditEnd]
  nodup : s.order.Nodup
  old : ∀ line ∈ s.order, line < s.fresh
  begins : (front ++ [s.currline]).head? = some s.canEditBegin
  fits : Fits True s.current
  text : s.current.text = own
  currpnt : s.currpnt = own.length
  behind : (s.lines s.canEditEnd).text = []

theorem allocLine_text (s : State) (line : Nat) : (allocLine s line).text = [] := by
  have zero : (allocLine s line).data 0 = 0 := Function.update_self 0 0 (s.raw line)
  apply stringAt_eq_of (Nat.zero_lt_succ _) zero
  · intro i inside
    exact absurd inside (Nat.not_lt_zero i)
  · exact fun item member => absurd member List.not_mem_nil

theorem loading_veditInit (s : State) : Loading (veditInit s) [] [] := by
  have other : s.fresh ≠ s.fresh + 1 := Nat.ne_of_lt (Nat.lt_succ_self _)
  have own : (veditInit s).current = allocLine s s.fresh :=
    (Function.update_of_ne other ..).trans (Function.update_self ..)
  have last : (veditInit s).lines (s.fresh + 1) = allocLine s (s.fresh + 1) :=
    Function.update_self ..
  have text := allocLine_text s s.fresh
  refine ⟨rfl, ?_, ?_, rfl, ?_, ?_, rfl, ?_⟩
  · exact List.nodup_cons.mpr ⟨by simp, List.nodup_singleton _⟩
  · intro line member
    change line ∈ [s.fresh, s.fresh + 1] at member
    change line < s.fresh + 2
    rw [List.mem_pair] at member
    omega
  · rw [own]
    refine ⟨?_, ?_, fun _ => ?_⟩
    · rw [text]
      exact Nat.zero_le _
    · exact Nat.zero_le _
    · rw [text]
      exact Nat.zero_le _
  · rw [own, text]
  · change ((veditInit s).lines (s.fresh + 1)).text = []
    rw [last, allocLine_text]

theorem split_cursor {s : State} {pos : Nat} (short : pos ≤ (s.lines s.currline).len)
    (before : splitPos (s.lines s.currline).data pos ≤ s.currpnt) :
    (split s.currline pos s).order = insertAfter s.currline s.fresh s.order ∧
      (split s.currline pos s).currline = s.fresh ∧
      (split s.currline pos s).currpnt =
        s.currpnt - splitPos (s.lines s.currline).data pos ∧
      (split s.currline pos s).fresh = s.fresh + 1 := by
  unfold split
  dsimp only
  rw [if_neg (Nat.not_lt.2 short)]
  split_ifs with marks cursor cursor
  · exact ⟨rfl, rfl, rfl, rfl⟩
  · exact absurd ⟨rfl, before⟩ cursor
  · exact ⟨rfl, rfl, rfl, rfl⟩
  · exact absurd ⟨rfl, before⟩ cursor

section Typing

variable {s : State} {front : List Nat} {own : Bytes} (loading : Loading s front own)
include loading

theorem Loading.len : s.current.len = own.length := by
  have short := loading.fits.short
  have whole := loading.fits.whole trivial
  rw [loading.text] at short whole
  exact Nat.le_antisymm short whole

theorem Loading.ends : Ends (wrapMargin + 1) s.current.data 0 own.length :=
  loading.text ▸ loading.fits.ends

theorem Loading.begins_data : Begins s.current.data own := by
  intro i inside
  rw [← loading.ends.getD_string (Nat.le_of_lt inside)]
  exact congrArg (List.getD · i 0) loading.text

/-- The line after one more byte at its end. -/
def typedLine (old : TextLine) (ch : UInt8) : TextLine :=
  { old with
    len := old.len + 1
    data := fun i =>
      if i = old.len then ch
      else if old.len < i ∧ i ≤ old.len + 1 then old.data (i - 1) else old.data i }

theorem Loading.typedLine_text {ch : UInt8} (nonzero : ch ≠ 0) (room : own.length < wrapMargin) :
    (typedLine s.current ch).text = own ++ [ch] := by
  have len := loading.len
  have zero := loading.ends.zero
  rw [Nat.zero_add] at zero
  apply stringAt_eq_of
  · rw [List.length_append, List.length_singleton]
    omega
  · rw [List.length_append, List.length_singleton, typedLine, Nat.zero_add, len]
    dsimp only
    rw [if_neg (by omega), if_pos (by omega)]
    exact zero
  · intro i inside
    rw [List.length_append, List.length_singleton] at inside
    rw [typedLine, Nat.zero_add, len]
    dsimp only
    by_cases last : i = own.length
    · rw [if_pos last]
      simp [last]
    · rw [if_neg last, if_neg (by omega), loading.begins_data i (by omega),
        List.getElem_append_left (by omega), List.getD_eq_getElem _ _ (by omega)]
  · intro item member
    rw [List.mem_append, List.mem_singleton] at member
    obtain inOwn | rfl := member
    · exact nonzero_of_mem_stringAt (loading.text ▸ inOwn : item ∈ s.current.text)
    · exact nonzero

theorem Loading.notMem_front : s.currline ∉ front := by
  have nodup := loading.nodup
  rw [loading.order_eq] at nodup
  exact fun member => (List.nodup_append.mp nodup).2.2 _ member _ List.mem_cons_self rfl

theorem Loading.ne_end : s.currline ≠ s.canEditEnd := by
  have nodup := loading.nodup
  rw [loading.order_eq] at nodup
  intro same
  have last := (List.nodup_append.mp nodup).2.1
  rw [same] at last
  exact absurd last (by simp)

/-- The state after one more byte at the end of the line. -/
def typed (s : State) (ch : UInt8) : State :=
  { s.setLine s.currline (typedLine s.current ch) with currpnt := s.currpnt + 1 }

theorem Loading.typed {ch : UInt8} (nonzero : ch ≠ 0) (room : own.length < wrapMargin) :
    Loading (typed s ch) front (own ++ [ch]) := by
  have own_ : (Editor.typed s ch).current = typedLine s.current ch := Function.update_self ..
  have text := loading.typedLine_text nonzero room
  have len := loading.len
  refine ⟨loading.order_eq, loading.nodup, loading.old, loading.begins, ?_, ?_, ?_, ?_⟩
  · rw [own_]
    refine ⟨?_, ?_, fun _ => ?_⟩ <;>
      rw [text, List.length_append, List.length_singleton]
    · exact room
    · exact Nat.le_of_eq (congrArg Nat.succ len)
    · exact Nat.le_of_eq (congrArg Nat.succ len.symm)
  · rw [own_, text]
  · rw [List.length_append, List.length_singleton]
    exact congrArg Nat.succ loading.currpnt
  · have other : (Editor.typed s ch).lines s.canEditEnd = s.lines s.canEditEnd :=
      Function.update_of_ne loading.ne_end.symm ..
    change ((Editor.typed s ch).lines s.canEditEnd).text = []
    rw [other, loading.behind]

/-- A byte is put at the end of a short line, and nothing else happens. -/
theorem Loading.insertChar_eq {fuel : Nat} (ch : UInt8)
    (short : own.length < 253) (wide : s.linelen = wrapMargin) :
    insertChar (fuel + 1) ch s = some (Editor.typed s ch) := by
  have len := loading.len
  have currpnt := loading.currpnt
  have same : s.currpnt = (s.lines s.currline).len := currpnt.trans len.symm
  have ended : (s.lines s.currline).len = own.length := len
  have put : putChar s.currline ch s = Editor.typed s ch := by
    unfold putChar
    dsimp only
    rw [if_neg (by omega), if_pos (by rw [ended]; exact Nat.lt_trans short (by decide)), same]
    unfold Editor.typed
    rw [same]
    rfl
  have narrow : ¬(s.lines s.currline).shown > s.linelen := by
    rw [TextLine.shown, wide, ended, wrapMargin]
    omega
  have stays : ((Editor.typed s ch).lines s.currline).shown <
      ((Editor.typed s ch).linelen : Int) - 1 ∧
        ((Editor.typed s ch).lines s.currline).len < wrapMargin := by
    have line : (Editor.typed s ch).lines s.currline = typedLine s.current ch :=
      Function.update_self ..
    have width : (Editor.typed s ch).linelen = wrapMargin := wide
    have longer : (typedLine s.current ch).len = own.length + 1 := congrArg Nat.succ len
    rw [line, width, TextLine.shown, longer, wrapMargin]
    omega
  unfold insertChar
  dsimp only
  rw [if_neg (by omega), cutOverlong, if_neg narrow]
  dsimp only
  rw [put, if_pos stays]

theorem Loading.resized (linelen : Nat) : Loading { s with linelen := linelen } front own :=
  ⟨loading.order_eq, loading.nodup, loading.old, loading.begins, loading.fits, loading.text,
    loading.currpnt, loading.behind⟩

/-- A byte of a character is typed. -/
theorem Loading.insertch {fuel : Nat} {ch : UInt8}
    (prints : (isprint2 ch.toNat || ch = escape) = true) (short : own.length < 253) :
    ∃ after, insertchFromFp (fuel + 1) ch s = some after ∧ Loading after front (own ++ [ch]) ∧
      texts after front = texts s front := by
  have nonzero : ch ≠ 0 := by
    rintro rfl
    exact absurd prints (by decide)
  have wide := loading.resized wrapMargin
  refine ⟨_, ?_, (wide.typed nonzero (Nat.lt_trans short (by decide))).resized s.linelen, ?_⟩
  · rw [insertchFromFp, if_pos prints, if_pos (by rw [loading.currpnt]; omega),
      wide.insertChar_eq ch short rfl, Option.map_some]
  · apply List.map_congr_left
    intro line member
    have other : line ≠ s.currline := fun same => loading.notMem_front (same ▸ member)
    exact congrArg TextLine.text (Function.update_of_ne other ..)

theorem Loading.currline_mem : s.currline ∈ s.order := by
  rw [loading.order_eq]
  simp

theorem Loading.canEditEnd_mem : s.canEditEnd ∈ s.order := by
  rw [loading.order_eq]
  simp

theorem Loading.fresh_notMem : s.fresh ∉ s.order :=
  fun member => Nat.lt_irrefl _ (loading.old _ member)

theorem Loading.currpnt_le : s.currpnt ≤ (s.lines s.currline).len :=
  Nat.le_of_eq (loading.currpnt.trans loading.len.symm)

theorem Loading.splitPos_eq {glyphs : List Glyph} (whole : own = encode glyphs) :
    splitPos (s.lines s.currline).data s.currpnt = own.length := by
  have begins := loading.begins_data
  rw [loading.currpnt]
  rw [whole] at begins ⊢
  exact splitPos_encode begins

/-- A line of whole characters stays as it is, and the one that is made has no text. -/
theorem Loading.lines_split {glyphs : List Glyph} (whole : own = encode glyphs) :
    ((split s.currline s.currpnt s).lines s.currline).text = own ∧
      Fits True ((split s.currline s.currpnt s).lines s.fresh) ∧
      ((split s.currline s.currpnt s).lines s.fresh).text = [] ∧
      ∀ line ∈ s.order, line ≠ s.currline →
        (split s.currline s.currpnt s).lines line = s.lines line := by
  have lines := split_lines loading.currpnt_le
  rw [loading.splitPos_eq whole] at lines
  have upTo : own.length ≤ (s.lines s.currline).len := Nat.le_of_eq loading.len.symm
  have ownText : (s.lines s.currline).text = own := loading.text
  have fits : Fits True (s.lines s.currline) := loading.fits
  have new : s.fresh ≠ s.currline := fun same =>
    loading.fresh_notMem (same ▸ loading.currline_mem)
  rw [lines]
  refine ⟨?_, ?_, ?_, ?_⟩
  · rw [Function.update_self, firstPart_text fits upTo, ownText, List.take_length]
  · rw [Function.update_of_ne new, Function.update_self]
    exact secondPart_fits fits upTo _
  · rw [Function.update_of_ne new, Function.update_self, secondPart_text fits upTo, ownText,
      List.drop_length]
  · intro line member other
    have old : line ≠ s.fresh := fun same => loading.fresh_notMem (same ▸ member)
    rw [Function.update_of_ne other, Function.update_of_ne old]

/-- The line is ended, and the next one begins. -/
theorem Loading.split_end {glyphs : List Glyph} (whole : own = encode glyphs) :
    Loading (split s.currline s.currpnt s) (front ++ [s.currline]) [] ∧
      texts (split s.currline s.currpnt s) (front ++ [s.currline]) = texts s front ++ [own] := by
  have pos := loading.splitPos_eq whole
  obtain ⟨order, currline, currpnt, fresh⟩ :=
    split_cursor loading.currpnt_le (Nat.le_of_eq (pos.trans loading.currpnt.symm))
  obtain ⟨begin_, end_, -⟩ := split_pointers loading.currpnt_le loading.ne_end
  obtain ⟨ended, newFits, newText, kept⟩ := loading.lines_split whole
  have orderEq : insertAfter s.currline s.fresh s.order =
      front ++ [s.currline] ++ [s.fresh, s.canEditEnd] := by
    rw [loading.order_eq, insertAfter_append loading.notMem_front, List.append_assoc]
    rfl
  constructor
  · refine ⟨?_, ?_, ?_, ?_, ?_, ?_, ?_, ?_⟩
    · rw [order, orderEq, currline, end_]
    · rw [order]
      exact nodup_insertAfter loading.nodup loading.fresh_notMem
    · intro line member
      rw [order] at member
      rw [fresh]
      obtain rfl | old := mem_of_mem_insertAfter member
      · exact Nat.lt_succ_self _
      · exact Nat.lt_succ_of_lt (loading.old line old)
    · rw [begin_, List.head?_append, loading.begins]
      rfl
    · rw [State.current, currline]
      exact newFits
    · rw [State.current, currline, newText]
    · rw [currpnt, pos, loading.currpnt, Nat.sub_self]
      rfl
    · rw [end_, kept _ loading.canEditEnd_mem loading.ne_end.symm, loading.behind]
  · rw [texts, List.map_append, List.map_singleton, ended]
    apply congrArg (· ++ [own])
    apply List.map_congr_left
    intro line member
    have inOrder : line ∈ s.order := by
      rw [loading.order_eq]
      exact List.mem_append_left _ member
    rw [kept line inOrder fun same => loading.notMem_front (same ▸ member)]

theorem Loading.insertNewline {glyphs : List Glyph} (whole : own = encode glyphs) (fuel : Nat) :
    ∃ after, insertchFromFp fuel newline s = some after ∧
      Loading after (front ++ [s.currline]) [] ∧
      texts after (front ++ [s.currline]) = texts s front ++ [own] := by
  have notPrinted : (isprint2 newline.toNat || newline = escape) = false := by decide
  obtain ⟨begins, kept⟩ := (loading.resized wrapMargin).split_end whole
  refine ⟨_, ?_, begins.resized s.linelen, kept⟩
  rw [insertchFromFp, notPrinted, if_neg Bool.false_ne_true, if_neg (by decide), if_pos rfl,
    Option.map_some]

end Typing

theorem insertFromFp_cons (fuel : Nat) (ch : UInt8) (data : Bytes) (s : State) :
    insertFromFp fuel (ch :: data) s = (insertchFromFp fuel ch s).bind (insertFromFp fuel data) :=
  List.foldlM_cons

theorem insertFromFp_append (fuel : Nat) (front behind : Bytes) (s : State) :
    insertFromFp fuel (front ++ behind) s =
      (insertFromFp fuel front s).bind (insertFromFp fuel behind) :=
  List.foldlM_append

theorem isprint2_ascii {c : UInt8} (low : 32 ≤ c) (most : c < 127) : isprint2 c.toNat = true := by
  rw [UInt8.le_iff_toNat_le] at low
  rw [UInt8.lt_iff_toNat_lt] at most
  simp only [UInt8.reduceToNat] at low most
  simp [isprint2, Nat.mod_eq_of_lt c.toNat_lt]
  omega

theorem isprint2_high {c : UInt8} (low : 127 < c) (most : c ≤ 0xfe) : isprint2 c.toNat = true := by
  rw [UInt8.lt_iff_toNat_lt] at low
  rw [UInt8.le_iff_toNat_le] at most
  simp only [UInt8.reduceToNat] at low most
  simp [isprint2, Nat.mod_eq_of_lt c.toNat_lt]
  omega

theorem isprint2_letter {c : UInt8} (letter : 65 ≤ c ∧ c ≤ 90 ∨ 97 ≤ c ∧ c ≤ 122) :
    isprint2 c.toNat = true := by
  rcases letter with ⟨low, most⟩ | ⟨low, most⟩
  · exact isprint2_ascii (UInt8.le_trans (by decide) low) (UInt8.lt_of_le_of_lt most (by decide))
  · exact isprint2_ascii (UInt8.le_trans (by decide) low) (UInt8.lt_of_le_of_lt most (by decide))

/-- The bytes of whole characters are typed as they are. -/
theorem prints_of_mem {glyph : Glyph} {c : UInt8} (member : c ∈ glyph.bytes) :
    (isprint2 c.toNat || c = escape) = true := by
  rw [Bool.or_eq_true, decide_eq_true_eq]
  cases glyph with
  | ascii c' printable =>
    obtain rfl := List.mem_singleton.mp member
    exact .inl (isprint2_ascii printable.1 printable.2)
  | double lead trail leads trails =>
    obtain rfl | rfl := List.mem_pair.mp member
    · exact .inl (isprint2_high (UInt8.lt_of_lt_of_le (by decide) leads.1) leads.2)
    · by_cases low : c < 127
      · exact .inl (isprint2_ascii (UInt8.le_trans (by decide) trails.1) low)
      · have high : 127 < c :=
          UInt8.lt_of_le_of_ne (UInt8.not_lt.mp low) (Ne.symm trails.2.2)
        exact .inl (isprint2_high high trails.2.1)
  | ansi codes letter digits ends =>
    rw [Glyph.bytes, List.cons_append, List.mem_cons, List.cons_append, List.mem_cons,
      List.mem_append, List.mem_singleton] at member
    obtain rfl | rfl | inCodes | rfl := member
    · exact .inr rfl
    · exact .inl (by decide)
    · obtain ⟨low, most⟩ | rfl := digits c inCodes
      · exact .inl (isprint2_ascii (UInt8.le_trans (by decide) low)
          (UInt8.lt_of_le_of_lt most (by decide)))
      · exact .inl (by decide)
    · exact .inl (isprint2_letter ends)

theorem Loading.insertText {s : State} {front : List Nat} {own text : Bytes} {fuel : Nat}
    (loading : Loading s front own)
    (prints : ∀ c ∈ text, (isprint2 c.toNat || c = escape) = true)
    (short : own.length + text.length < 254) :
    ∃ after, insertFromFp (fuel + 1) text s = some after ∧ Loading after front (own ++ text) ∧
      texts after front = texts s front := by
  induction text generalizing s own with
  | nil =>
    rw [List.append_nil]
    exact ⟨s, rfl, loading, rfl⟩
  | cons c text ih =>
    rw [List.length_cons] at short
    obtain ⟨next, typed, nextLoading, same⟩ :=
      @Loading.insertch s front own loading fuel c (prints c List.mem_cons_self) (by omega)
    obtain ⟨after, rest, afterLoading, same'⟩ :=
      ih nextLoading (fun c member => prints c (List.mem_cons_of_mem _ member))
        (by rw [List.length_append, List.length_singleton]; omega)
    rw [List.append_assoc, List.singleton_append] at afterLoading
    refine ⟨after, ?_, afterLoading, same'.trans same⟩
    rw [insertFromFp_cons, typed, Option.bind_some, rest]

theorem Loading.insertLine {s : State} {front : List Nat} {line : Bytes} (fuel : Nat)
    (loading : Loading s front []) (isLine : IsLine line) :
    ∃ after, insertFromFp (fuel + 1) line s = some after ∧ Loading after front line ∧
      texts after front = texts s front := by
  obtain ⟨short, glyphs, rfl⟩ := isLine
  apply loading.insertText
  · intro c member
    obtain ⟨glyph, -, inGlyph⟩ := List.mem_flatMap.mp member
    exact prints_of_mem inGlyph
  · rw [List.length_nil, Nat.zero_add]
    exact short

/-- The bytes of lines: a newline is between each two of them. -/
def joinLines (first : Bytes) (rest : List Bytes) : Bytes :=
  first ++ rest.flatMap (newline :: ·)

theorem Loading.insertLines {s : State} {front : List Nat} {first : Bytes} {rest : List Bytes}
    (fuel : Nat) (loading : Loading s front []) (lines : ∀ line ∈ first :: rest, IsLine line) :
    ∃ after front' own, insertFromFp (fuel + 1) (joinLines first rest) s = some after ∧
      Loading after front' own ∧
      texts after (front' ++ [after.currline]) = texts s front ++ first :: rest := by
  induction rest generalizing s front first with
  | nil =>
    obtain ⟨next, typed, nextLoading, same⟩ :=
      loading.insertLine fuel (lines first List.mem_cons_self)
    refine ⟨next, front, first, ?_, nextLoading, ?_⟩
    · rw [joinLines, List.flatMap_nil, List.append_nil, typed]
    · rw [texts, List.map_append, ← texts, same, List.map_singleton]
      exact congrArg (texts s front ++ [·]) nextLoading.text
  | cons second rest ih =>
    have isLine := lines first List.mem_cons_self
    obtain ⟨next, typed, nextLoading, same⟩ := loading.insertLine fuel isLine
    obtain ⟨-, glyphs, whole⟩ := isLine
    obtain ⟨begun, ended, begunLoading, kept⟩ := nextLoading.insertNewline whole (fuel + 1)
    obtain ⟨after, front', own, others, afterLoading, texts'⟩ :=
      ih begunLoading fun line member => lines line (List.mem_cons_of_mem _ member)
    refine ⟨after, front', own, ?_, afterLoading, ?_⟩
    · have split : joinLines first (second :: rest) =
          first ++ newline :: joinLines second rest := rfl
      rw [split, insertFromFp_append, typed, Option.bind_some, insertFromFp_cons, ended,
        Option.bind_some, others]
    · rw [texts', kept, same, List.append_assoc, List.singleton_append]

/-! ## What is written -/

theorem newline_notMem {line : Bytes} (isLine : IsLine line) : newline ∉ line := by
  obtain ⟨-, glyphs, rfl⟩ := isLine
  intro member
  obtain ⟨glyph, -, inGlyph⟩ := List.mem_flatMap.mp member
  exact absurd (prints_of_mem inGlyph) (by decide)

theorem hasNoText_line {line : Bytes} (isLine : IsLine line) : hasNoText line = line.isEmpty := by
  have other : (line == [newline]) = false := by
    rw [beq_eq_false_iff_ne]
    rintro rfl
    exact newline_notMem isLine List.mem_cons_self
  rw [hasNoText, other, Bool.or_false]
  cases line <;> rfl

theorem findSource_fields (site : Bytes) (s : State) :
    (findSource site s).1.order = s.order ∧ (findSource site s).1.lines = s.lines ∧
      (findSource site s).1.canEditBegin = s.canEditBegin := by
  unfold findSource
  dsimp only
  split <;> exact ⟨rfl, rfl, rfl⟩

/-- The lines without a text at the end are freed, but not the first line. -/
theorem freeBlank_eq {s : State} {back : List Nat} (other : s.canEditBegin ∉ back) :
    freeBlank s (back ++ [s.canEditBegin]) =
      some (back.dropWhile (fun p => hasNoText (s.lines p).text) ++ [s.canEditBegin]) := by
  induction back with
  | nil =>
    rw [List.nil_append, freeBlank, if_neg (fun both => both.1 rfl)]
    rfl
  | cons p back ih =>
    rw [List.mem_cons, not_or] at other
    rw [List.cons_append, freeBlank, List.dropWhile_cons]
    by_cases blank : hasNoText (s.lines p).text = true
    · rw [if_pos ⟨Ne.symm other.1, blank⟩, if_pos blank, ih other.2]
    · rw [if_neg (fun both => blank both.2), if_neg blank]
      rfl

/-- The lines of a file have been typed, and behind them is one without a text. -/
structure Loaded (s : State) (first : Bytes) (rest : List Bytes) (behind : List Nat) : Prop where
  order_eq : s.order = s.canEditBegin :: behind
  nodup : s.order.Nodup
  last : behind.getLast? = some s.canEditEnd
  first_eq : (s.lines s.canEditBegin).text = first
  rest_eq : texts s behind = rest ++ [[]]

theorem Loading.loaded {s : State} {front : List Nat} {own first : Bytes} {rest : List Bytes}
    (loading : Loading s front own) (lines : texts s (front ++ [s.currline]) = first :: rest) :
    ∃ behind, Loaded s first rest behind := by
  have begins := loading.begins
  have order := loading.order_eq
  have cut : s.order = (front ++ [s.currline]) ++ [s.canEditEnd] := by
    rw [order, List.append_assoc]
    rfl
  generalize front ++ [s.currline] = before at begins lines cut
  cases before with
  | nil => cases begins
  | cons top before =>
    obtain rfl := Option.some.inj begins
    obtain ⟨firstEq, restEq⟩ := List.cons.inj lines
    refine ⟨before ++ [s.canEditEnd], cut, loading.nodup, List.getLast?_concat, firstEq, ?_⟩
    rw [texts, List.map_append, List.map_singleton, loading.behind]
    exact congrArg (· ++ [[]]) restEq

namespace Loaded

variable {s : State} {first : Bytes} {rest : List Bytes} {behind : List Nat}
  (loaded : Loaded s first rest behind)
include loaded

theorem begin_notMem : s.canEditBegin ∉ behind := by
  have nodup := loaded.nodup
  rw [loaded.order_eq] at nodup
  exact (List.nodup_cons.mp nodup).1

/-- The lines are looked through from the last one back. -/
theorem back_eq :
    (s.order.reverse.dropWhile (· != s.canEditEnd)).takeWhile (· != s.canEditBegin) =
      behind.reverse := by
  obtain ⟨before, behindEq⟩ := List.getLast?_eq_some_iff.mp loaded.last
  have dropped : s.order.reverse.dropWhile (· != s.canEditEnd) = s.order.reverse := by
    rw [loaded.order_eq, behindEq, List.reverse_cons, List.reverse_append]
    exact List.dropWhile_cons_of_neg (by simp)
  have others : ∀ line ∈ behind.reverse, (line != s.canEditBegin) = true := by
    intro line member
    rw [bne_iff_ne]
    rintro rfl
    exact loaded.begin_notMem (List.mem_reverse.mp member)
  rw [dropped, loaded.order_eq, List.reverse_cons, List.takeWhile_append_of_pos others,
    List.takeWhile_cons_of_neg (by simp), List.append_nil]

/-- The source is to be added if no line but the first names it. -/
theorem findSource_snd (site : Bytes) :
    (findSource site s).2 = !(rest ++ [[]]).any (namesSource site) := by
  have anyBack : (behind.reverse.any fun p => namesSource site (s.lines p).text) =
      (rest ++ [[]]).any (namesSource site) := by
    rw [List.any_reverse, ← loaded.rest_eq, texts, List.any_map]
    rfl
  have isSome := @List.isSome_find? _ behind.reverse fun p => namesSource site (s.lines p).text
  rw [anyBack] at isSome
  unfold findSource
  dsimp only
  rw [loaded.back_eq, ← isSome]
  split
  next found => rw [found]; rfl
  next none => rw [none]; rfl

end Loaded

/-- The lines of a file without those at the end that are empty. -/
def withoutBlankEnd (first : Bytes) (rest : List Bytes) : List Bytes :=
  first :: rest.rdropWhile List.isEmpty

/-- What `write_file` makes of lines: those that it keeps, and what it adds. -/
def savedFile (saving : Saving) (first : Bytes) (rest : List Bytes) (addfrom : Bool) : Bytes :=
  saving.header.getD [] ++ unlines ((withoutBlankEnd first rest).filter (!isMarked ·)) ++
    (if saving.status = .edit then saving.editMark else []) ++
    if saving.status ≠ .other ∧ addfrom then saving.source else []

theorem rdropWhile_hasNoText {rest : List Bytes} (lines : ∀ line ∈ rest, IsLine line) :
    rest.rdropWhile hasNoText = rest.rdropWhile List.isEmpty := by
  induction rest using List.reverseRecOn with
  | nil => rfl
  | append_singleton rest line ih =>
    have same := hasNoText_line (lines line (by simp))
    rw [List.rdropWhile_concat, List.rdropWhile_concat, same,
      ih fun line member => lines line (List.mem_append_left _ member)]

theorem texts_rdropWhile (s : State) (behind : List Nat) :
    texts s (behind.rdropWhile fun p => hasNoText (s.lines p).text) =
      (texts s behind).rdropWhile hasNoText := by
  rw [List.rdropWhile, List.rdropWhile, texts, texts, ← List.map_reverse, List.dropWhile_map,
    ← List.map_reverse]
  rfl

/-- An answer that neither gives the text up nor goes on with it. -/
abbrev Saves (answer : UInt8) : Prop :=
  (answer ≠ 97 ∧ answer ≠ 65) ∧ answer ≠ 101 ∧ answer ≠ 69

theorem writeFile_eq {s : State} {first : Bytes} {rest : List Bytes} {behind : List Nat}
    {answer : UInt8} (saving : Saving) (addfrom : Bool) (saves : Saves answer)
    (order : s.order = s.canEditBegin :: behind) (begins : s.canEditBegin ∉ behind)
    (firstEq : (s.lines s.canEditBegin).text = first) (restEq : texts s behind = rest ++ [[]])
    (lines : ∀ line ∈ rest, IsLine line) :
    writeFile saving answer addfrom s = some (.written (savedFile saving first rest addfrom)) := by
  have freed := @freeBlank_eq s behind.reverse fun member => begins (List.mem_reverse.mp member)
  have kept : (behind.reverse.dropWhile (fun p => hasNoText (s.lines p).text) ++
      [s.canEditBegin]).reverse.map (fun p => (s.lines p).text) = withoutBlankEnd first rest := by
    rw [List.reverse_append, List.reverse_singleton, List.singleton_append, List.map_cons, firstEq]
    apply congrArg (first :: ·)
    calc texts s (behind.rdropWhile fun p => hasNoText (s.lines p).text)
        = (rest ++ [[]]).rdropWhile hasNoText := by rw [texts_rdropWhile, restEq]
      _ = rest.rdropWhile hasNoText := List.rdropWhile_concat_pos hasNoText rest [] rfl
      _ = rest.rdropWhile List.isEmpty := rdropWhile_hasNoText lines
  rw [writeFile, if_neg (not_or.mpr saves.1), if_neg (not_or.mpr saves.2), order,
    List.reverse_cons, freed, Option.map_some, kept]
  rfl

theorem intercalate_lines (first : Bytes) (rest : List Bytes) :
    [newline].intercalate (first :: rest) = joinLines first rest := by
  induction rest generalizing first with
  | nil => rw [List.intercalate_singleton, joinLines, List.flatMap_nil, List.append_nil]
  | cons second rest ih =>
    rw [List.intercalate_cons_cons, ih, joinLines, joinLines, List.flatMap_cons]
    simp

/-- A file of lines that are short and made of whole characters has the same lines again when it
is read and written, but for those that are empty at its end, and the marks of those who edited
it. -/
theorem readFile_writeFile {file first : Bytes} {rest : List Bytes} {answer : UInt8}
    (site : Bytes) (saving : Saving) (fuel : Nat) (s : State)
    (split : file.splitOn newline = first :: rest) (lines : ∀ line ∈ first :: rest, IsLine line)
    (saves : Saves answer) :
    ((readFile (fuel + 1) (some file) site s).bind fun (loaded, addfrom) =>
      writeFile saving answer addfrom loaded) =
        some (.written (savedFile saving first rest
          (!(rest ++ [[]]).any (namesSource site)))) := by
  have joined : file = joinLines first rest := by
    rw [← intercalate_lines, ← split, List.intercalate_splitOn]
  obtain ⟨after, front, own, typed, loading, texts⟩ :=
    (loading_veditInit s).insertLines fuel lines
  obtain ⟨behind, loaded⟩ := loading.loaded texts
  obtain ⟨order, linesEq, begins⟩ := findSource_fields site after
  have orderBegin : (findSource site after).1.order =
      (findSource site after).1.canEditBegin :: behind := by
    rw [order, begins, loaded.order_eq]
  have firstEq : ((findSource site after).1.lines
      (findSource site after).1.canEditBegin).text = first := by
    rw [begins, linesEq, loaded.first_eq]
  have restEq : Editor.texts (findSource site after).1 behind = rest ++ [[]] := by
    rw [Editor.texts, linesEq]
    exact loaded.rest_eq
  rw [readFile, joined, typed, Option.map_some, Option.bind_some, ← loaded.findSource_snd]
  exact writeFile_eq saving _ saves orderBegin (begins.symm ▸ loaded.begin_notMem) firstEq restEq
    fun line member => lines line (List.mem_cons_of_mem _ member)

/-- Nothing is being edited. -/
def idle : State where
  order := []
  lines _ := ⟨0, false, fun _ => 0⟩
  fresh := 0
  raw _ _ := 255
  canEditBegin := 0
  canEditEnd := 0
  topOfWin := 0
  currline := 0
  markBegin := none
  markEnd := none
  currpnt := 0
  currWindowLine := 0
  currln := 0
  linelen := 79
  lastindent := -1
  screenLines := 24
  insertCharacter := true
  editansi := false
  enabledbchar := true

/-- A post with its source, and the mark of a user who edits it. -/
def editing : Saving where
  status := .edit
  header := none
  editMark := oldMark ++ [58, 0xa1, 0xa4, 117, 27, 91, 109, 10]
  source := [45, 45, 10]

theorem isLine_ascii {c : UInt8} (printable : 32 ≤ c ∧ c < 127) : IsLine [c] :=
  ⟨Nat.one_lt_succ_succ 252, [.ascii c printable], rfl⟩

theorem isLine_nil : IsLine [] :=
  ⟨by decide, [], rfl⟩

theorem isLine_post {line : Bytes} (member : line ∈ ([[97], [120], []] : List Bytes)) :
    IsLine line := by
  rw [List.mem_cons, List.mem_pair] at member
  obtain rfl | rfl | rfl := member
  · exact isLine_ascii (by decide)
  · exact isLine_ascii (by decide)
  · exact isLine_nil

theorem splitOn_post : ([97, 10, 120, 10] : Bytes).splitOn newline = [[97], [120], []] := by
  decide

/-- The mark of the user who edits it is behind the lines of the post. -/
theorem edited_marked : (∀ line ∈ ([97, 10, 120, 10] : Bytes).splitOn newline, IsLine line) ∧
    ((readFile 1 (some [97, 10, 120, 10]) [120] idle).bind fun (loaded, addfrom) =>
      writeFile editing 83 addfrom loaded) ≠
        some (.written (unlines (((([97, 10, 120, 10] : Bytes).splitOn newline).rdropWhile
          List.isEmpty).filter (!isMarked ·)))) := by
  constructor
  · rw [splitOn_post]
    exact fun line => isLine_post
  · rw [splitOn_post]
    decide

/-- A character of two bytes, a colour and a letter; an empty line, and a signature. -/
def colouredPost : Bytes :=
  [200, 200, 27, 91, 49, 109, 97, 10] ++ [10] ++ [45, 45, 10] ++ [115, 10]

/-- A new post with a header, and its source. -/
def posting : Saving where
  status := .posting
  header := some [104, 10]
  editMark := []
  source := [27, 91, 109, 120, 10]

theorem isLine_colouredPost {line : Bytes}
    (member : line ∈ ([[200, 200, 27, 91, 49, 109, 97], [], [45, 45], [115], []] : List Bytes)) :
    IsLine line := by
  simp only [List.mem_cons, List.not_mem_nil, or_false] at member
  obtain rfl | rfl | rfl | rfl | rfl := member
  · exact ⟨by decide, [.double 200 200 (by decide) (by decide),
      .ansi [49] 109 (by decide +kernel) (by decide), .ascii 97 (by decide)], rfl⟩
  · exact isLine_nil
  · exact ⟨by decide, [.ascii 45 (by decide), .ascii 45 (by decide)], rfl⟩
  · exact isLine_ascii (by decide)
  · exact isLine_nil

theorem readFile_writeFile_colouredPost :
    ((readFile 1 (some colouredPost) [120] idle).bind fun (loaded, addfrom) =>
      writeFile posting 83 addfrom loaded) =
        some (.written ([104, 10] ++ colouredPost ++ [27, 91, 109, 120, 10])) := by
  have split : colouredPost.splitOn newline =
      [[200, 200, 27, 91, 49, 109, 97], [], [45, 45], [115], []] := by decide
  exact (readFile_writeFile [120] posting 0 idle split (fun _ => isLine_colouredPost)
    (by decide)).trans (by decide)

end Editor

end Fbbs
