import Fbbs.EditorWindow
import Mathlib.Data.List.Count

/-!
# The text of the line editor

The strings of all lines, one after another.  Splitting a line, taking up the next one and adding a
blank keep them but for blanks; only the look for a signature writes another byte.
-/

namespace Fbbs

namespace Editor

open CharArrays ListNeighbours

/-- The bytes of some lines, one line after another. -/
def textOf (s : State) (lines : List Nat) : Bytes :=
  lines.flatMap fun line => (s.lines line).text

/-- The text of all lines without its blanks. -/
def content (s : State) : Bytes :=
  (textOf s s.order).filter (· != blank)

/-- The string of a line ends within its array, and its length is not above that of the string; or it
is exactly that. -/
structure Fits (exact : Prop) (line : TextLine) : Prop where
  ended : line.text.length ≤ wrapMargin
  short : line.len ≤ line.text.length
  whole : exact → line.text.length ≤ line.len

def AllFit (exact : Prop) (s : State) : Prop :=
  ∀ line ∈ s.order, Fits exact (s.lines line)

/-! ## Strings of lines -/

section Strings

variable {line : TextLine} {exact : Prop} {pos : Nat}

theorem Fits.ends (fits : Fits exact line) :
    Ends (wrapMargin + 1) line.data 0 line.text.length :=
  ends_of_length_lt (Nat.lt_succ_of_le fits.ended)

/-- What stays of a line that is split. -/
def firstPart (old : TextLine) (pos : Nat) : TextLine :=
  ⟨pos, old.marked, Function.update old.data pos 0⟩

/-- What goes into the new line. -/
def secondPart (old : TextLine) (pos : Nat) (raw : Nat → UInt8) : TextLine :=
  ⟨old.len - pos, old.marked,
    strcpy (Function.update raw 0 0) (stringAt (wrapMargin + 1) old.data pos)⟩

theorem firstPart_text (fits : Fits exact line) (inside : pos ≤ line.len) :
    (firstPart line pos).text = line.text.take pos :=
  fits.ends.update_zero (inside.trans fits.short)

theorem secondPart_text (fits : Fits exact line) (inside : pos ≤ line.len) (raw : Nat → UInt8) :
    (secondPart line pos raw).text = line.text.drop pos := by
  have rest : stringAt (wrapMargin + 1) line.data pos = line.text.drop pos := by
    have := fits.ends.stringAt_add (inside.trans fits.short)
    rwa [Nat.zero_add] at this
  have ended := fits.ended
  rw [TextLine.text, secondPart, rest, string_strcpy]
  · intro item member
    exact nonzero_of_mem_stringAt (List.mem_of_mem_drop member)
  · rw [List.length_drop]
    omega

theorem firstPart_fits (fits : Fits exact line) (inside : pos ≤ line.len) :
    Fits exact (firstPart line pos) := by
  have text := firstPart_text fits inside
  have ended := fits.ended
  have short := fits.short
  have length : (firstPart line pos).text.length = pos := by
    rw [text, List.length_take]
    omega
  exact ⟨by omega, length.ge, fun _ => length.le⟩

theorem secondPart_fits (fits : Fits exact line) (inside : pos ≤ line.len) (raw : Nat → UInt8) :
    Fits exact (secondPart line pos raw) := by
  have ended := fits.ended
  have short := fits.short
  have length : (secondPart line pos raw).text.length = line.text.length - pos := by
    rw [secondPart_text fits inside, List.length_drop]
  have len : (secondPart line pos raw).len = line.len - pos := rfl
  exact ⟨by omega, by omega, fun whole => by have := fits.whole whole; omega⟩

/-- What a line is that has taken up another one. -/
def joined (own other : TextLine) : TextLine :=
  ⟨own.len + other.len, if other.marked then other.marked else own.marked,
    strcat (wrapMargin + 1) own.data other.text⟩

theorem joined_text {own other : TextLine} (fits : Fits exact own)
    (room : own.text.length + other.text.length ≤ wrapMargin) :
    (joined own other).text = own.text ++ other.text :=
  string_strcat fits.ends (fun _ member => nonzero_of_mem_stringAt member) (Nat.lt_succ_of_le room)

theorem joined_fits {own other : TextLine} (fits : Fits exact own) (fits' : Fits exact other)
    (room : own.text.length + other.text.length ≤ wrapMargin) : Fits exact (joined own other) := by
  have length : (joined own other).text.length = own.text.length + other.text.length := by
    rw [joined_text fits room, List.length_append]
  have len : (joined own other).len = own.len + other.len := rfl
  have short := fits.short
  have short' := fits'.short
  refine ⟨by omega, by omega, fun whole => ?_⟩
  have := fits.whole whole
  have := fits'.whole whole
  omega

/-- A line with a blank at its end. -/
def blankEnded (old : TextLine) : TextLine :=
  ⟨old.len + 1, old.marked, strcat (wrapMargin + 1) old.data [blank]⟩

theorem blankEnded_text (fits : Fits exact line) (room : line.text.length < wrapMargin) :
    (blankEnded line).text = line.text ++ [blank] := by
  apply string_strcat fits.ends
  · intro item member
    rw [List.eq_of_mem_singleton member]
    decide
  · rw [List.length_singleton]
    omega

theorem blankEnded_fits (fits : Fits exact line) (room : line.text.length < wrapMargin) :
    Fits exact (blankEnded line) := by
  have length : (blankEnded line).text.length = line.text.length + 1 := by
    rw [blankEnded_text fits room, List.length_append, List.length_singleton]
  have len : (blankEnded line).len = line.len + 1 := rfl
  have short := fits.short
  exact ⟨by omega, by omega, fun whole => by have := fits.whole whole; omega⟩

end Strings

/-! ## The look for a signature -/

section Dashes

variable {line : TextLine} {exact : Prop}

/-- A line that begins with a dash begins with two. -/
def Clean (text : Bytes) : Prop :=
  text.getD 0 0 = dash → text.getD 1 0 = dash

theorem Fits.head (fits : Fits exact line) : line.text.getD 0 0 = line.data 0 :=
  fits.ends.getD_string (Nat.zero_le _)

theorem Fits.second (fits : Fits exact line) (begins : line.data 0 = dash) :
    line.text.getD 1 0 = line.data 1 := by
  apply fits.ends.getD_string
  by_contra empty
  have none : line.text = [] := List.eq_nil_of_length_eq_zero (by omega)
  have head := fits.head
  rw [none, begins] at head
  exact absurd head (by decide)

theorem dashed_of_clean (fits : Fits exact line) (clean : Clean line.text) : dashed line = line := by
  unfold dashed
  split_ifs with begins
  · have second : line.data 1 = dash := by
      rw [← fits.second begins]
      apply clean
      rw [fits.head, begins]
    rw [← second, Function.update_eq_self]
  · rfl

theorem text_eq (line : TextLine) : line.text =
    if line.data 0 = 0 then [] else
      line.data 0 :: if line.data 1 = 0 then [] else
        line.data 1 :: stringAt (wrapMargin + 1) line.data 2 := by
  rw [TextLine.text, string, stringAt_succ (Nat.succ_pos _), stringAt_succ (by decide)]

/-- The look for a signature makes a dash of another byte, or of the end of the line. -/
theorem dashed_text_of_not_clean (fits : Fits exact line) (unclean : ¬Clean line.text) :
    line.data 1 ≠ dash ∧
      line.text = dash :: (if line.data 1 = 0 then [] else
        line.data 1 :: stringAt (wrapMargin + 1) line.data 2) ∧
      (dashed line).text = dash :: dash :: stringAt (wrapMargin + 1) line.data 2 := by
  obtain ⟨begins, second⟩ := Classical.not_imp.1 unclean
  rw [fits.head] at begins
  rw [fits.second begins] at second
  have data : (dashed line).data = Function.update line.data 1 dash := by
    rw [dashed, if_pos begins]
  have head : (dashed line).data 0 = dash := by
    rw [data, Function.update_of_ne Nat.zero_ne_one, begins]
  have next : (dashed line).data 1 = dash := by
    rw [data, Function.update_self]
  have rest : stringAt (wrapMargin + 1) (dashed line).data 2 =
      stringAt (wrapMargin + 1) line.data 2 := by
    rw [data]
    exact stringAt_congr fun i further => Function.update_of_ne (by omega) _ _
  have nonzero : dash ≠ 0 := by decide
  refine ⟨second, ?_, ?_⟩
  · rw [text_eq, begins, if_neg nonzero]
  · rw [text_eq, head, next, rest, if_neg nonzero, if_neg nonzero]

theorem count_dashed_of_not_clean (fits : Fits exact line) (unclean : ¬Clean line.text) :
    line.text.count dash < (dashed line).text.count dash := by
  obtain ⟨second, text, after⟩ := dashed_text_of_not_clean fits unclean
  rw [after, text, List.count_cons_self, List.count_cons_self, List.count_cons_self]
  split_ifs
  · rw [List.count_nil]
    omega
  · rw [List.count_cons_of_ne second]
    omega

theorem count_le_dashed (fits : Fits exact line) :
    line.text.count dash ≤ (dashed line).text.count dash := by
  by_cases clean : Clean line.text
  · rw [dashed_of_clean fits clean]
  · exact (count_dashed_of_not_clean fits clean).le

theorem length_le_dashed (fits : Fits exact line) :
    line.text.length ≤ (dashed line).text.length := by
  by_cases clean : Clean line.text
  · rw [dashed_of_clean fits clean]
  · obtain ⟨-, text, after⟩ := dashed_text_of_not_clean fits clean
    rw [after, text]
    split_ifs
    · exact Nat.succ_le_succ (Nat.zero_le _)
    · exact Nat.le_refl _

theorem dashed_len (line : TextLine) : (dashed line).len = line.len := by
  unfold dashed
  split_ifs <;> rfl

/-- The look may take the end of the string away; otherwise the line still fits. -/
theorem dashed_fits (fits : Fits exact line) (ended : ¬(dashed line).text.length > wrapMargin) :
    Fits False (dashed line) := by
  refine ⟨Nat.not_lt.1 ended, ?_, False.elim⟩
  rw [dashed_len]
  exact fits.short.trans (length_le_dashed fits)

end Dashes

/-! ## Lines of the list -/

section TextOf

variable {s s' : State}

theorem textOf_append (s : State) (left right : List Nat) :
    textOf s (left ++ right) = textOf s left ++ textOf s right :=
  List.flatMap_append

theorem textOf_cons (s : State) (line : Nat) (rest : List Nat) :
    textOf s (line :: rest) = (s.lines line).text ++ textOf s rest :=
  List.flatMap_cons

theorem textOf_congr {lines : List Nat} (same : ∀ line ∈ lines, s'.lines line = s.lines line) :
    textOf s' lines = textOf s lines := by
  induction lines with
  | nil => rfl
  | cons line rest ih =>
    rw [textOf_cons, textOf_cons, same line List.mem_cons_self,
      ih fun other member => same other (List.mem_cons_of_mem _ member)]

theorem content_of_textOf (same : textOf s' s'.order = textOf s s.order) : content s' = content s := by
  rw [content, content, same]

end TextOf

/-- The lines of the list: those before a line, the line, those behind it that may be edited, and
those from the end on.  The first line that may be edited is not behind the line. -/
structure Laid (s : State) (front : List Nat) (line : Nat) (behind back : List Nat) : Prop where
  sound : Sound s
  order : s.order = front ++ line :: (behind ++ s.canEditEnd :: back)
  begin : s.canEditBegin ∈ front ++ [line]

section Laid

variable {s s' : State} {front behind back : List Nat} {line other : Nat}

theorem Laid.nodup (laid : Laid s front line behind back) :
    (front ++ line :: (behind ++ s.canEditEnd :: back)).Nodup := by
  rw [← laid.order]
  exact laid.sound.nodup

theorem Laid.notMem_front (laid : Laid s front line behind back) : line ∉ front := by
  have := (List.nodup_append.1 laid.nodup).2.2
  exact fun member => this line member line List.mem_cons_self rfl

theorem Laid.notMem_behind (laid : Laid s front line behind back) :
    line ∉ behind ++ s.canEditEnd :: back :=
  (List.nodup_cons.1 (List.nodup_append.1 laid.nodup).2.1).1

/-- One line further on. -/
theorem Laid.forward (laid : Laid s front line (other :: behind) back) :
    Laid s (front ++ [line]) other behind back where
  sound := laid.sound
  order := by
    rw [laid.order, List.append_assoc]
    rfl
  begin := List.mem_append_left _ laid.begin

theorem Laid.next_end (laid : Laid s front line [] back) : s.next line = some s.canEditEnd := by
  rw [State.next, laid.order]
  exact next_append laid.notMem_front

theorem Laid.next_cons (laid : Laid s front line (other :: behind) back) :
    s.next line = some other := by
  rw [State.next, laid.order]
  exact next_append laid.notMem_front

theorem Laid.ne_end (laid : Laid s front line (other :: behind) back) : other ≠ s.canEditEnd := by
  intro same
  apply laid.forward.notMem_behind
  rw [same]
  exact List.mem_append_right _ List.mem_cons_self

theorem Laid.ne_begin (laid : Laid s front line (other :: behind) back) : other ≠ s.canEditBegin := by
  rintro rfl
  exact laid.forward.notMem_front laid.begin

theorem Laid.ne (laid : Laid s front line (other :: behind) back) : line ≠ other := by
  rintro rfl
  exact laid.forward.notMem_front (List.mem_append_right _ List.mem_cons_self)

theorem Laid.mem (laid : Laid s front line behind back) : line ∈ s.order := by
  rw [laid.order]
  exact List.mem_append_right _ List.mem_cons_self

theorem Laid.fresh_notMem (laid : Laid s front line behind back) :
    s.fresh ∉ front ++ line :: (behind ++ s.canEditEnd :: back) := by
  rw [← laid.order]
  exact fun member => Nat.lt_irrefl _ (laid.sound.fresh _ member)

/-- What does not touch the list and the pointers. -/
theorem Laid.of_still (laid : Laid s front line behind back) (still : Still s s') :
    Laid s' front line behind back where
  sound := (Behind.of_still laid.sound still 0).sound
  order := by
    rw [still.order, still.kept.canEditEnd]
    exact laid.order
  begin := by
    rw [still.kept.canEditBegin]
    exact laid.begin

theorem Laid.textOf_setLine (laid : Laid s front line behind back) (value : TextLine) :
    textOf (s.setLine line value) (s.setLine line value).order =
      textOf s front ++ (value.text ++ textOf s (behind ++ s.canEditEnd :: back)) := by
  have own : (s.setLine line value).lines line = value := Function.update_self _ _ _
  have aside (lines : List Nat) (absent : line ∉ lines) :
      textOf (s.setLine line value) lines = textOf s lines := by
    apply textOf_congr
    rintro other member
    apply Function.update_of_ne
    rintro rfl
    exact absent member
  have order : (s.setLine line value).order = s.order := rfl
  rw [order, laid.order, textOf_append, textOf_cons, own, aside front laid.notMem_front,
    aside _ laid.notMem_behind]

theorem Laid.textOf_eq (laid : Laid s front line behind back) : textOf s s.order =
    textOf s front ++ ((s.lines line).text ++ textOf s (behind ++ s.canEditEnd :: back)) := by
  rw [laid.order, textOf_append, textOf_cons]

theorem AllFit.setLine {exact : Prop} (fit : AllFit exact s) {value : TextLine}
    (fits : Fits exact value) : AllFit exact (s.setLine line value) := by
  intro other member
  by_cases same : other = line
  · rw [same]
    have own : (s.setLine line value).lines line = value := Function.update_self _ _ _
    rw [own]
    exact fits
  · have aside : (s.setLine line value).lines other = s.lines other :=
      Function.update_of_ne same _ _
    rw [aside]
    exact fit other member

end Laid

end Editor

end Fbbs
