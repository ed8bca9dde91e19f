import Fbbs.EditorCursor
import Fbbs.EditorReflow

/-!
# Taking line breaks out of the text

Backspace at the first column and the kill key at the end of a line: exactly when they leave the text
as it is, but for blanks.
-/

namespace Fbbs

namespace Editor

open CharArrays ListNeighbours

/-- The current line is among those that may be edited, every line holds a string of its length, and
the window begins at a line. -/
structure Consistent (s : State) : Prop where
  placed : ∃ front behind back, Laid s front s.currline behind back
  fits : AllFit True s
  top : ∃ behind, s.next s.topOfWin = some behind

/-- The texts of the lines behind this one that may be edited. -/
def textsBehind (s : State) (line : Nat) : List Bytes :=
  texts s ((s.order.dropWhile (· ≠ line)).tail.takeWhile (· ≠ s.canEditEnd))

def isBlank (text : Bytes) : Bool :=
  text.all (· == blank)

section Deleting

variable {s s' : State} {front behind back : List Nat} {line other fuel : Nat}

theorem Laid.of_sameLines (laid : Laid s front line behind back) (same : SameLines s s') :
    Laid s' front line behind back where
  sound := laid.sound.of_sameLines same
  order := by
    rw [same.order, same.canEditEnd]
    exact laid.order
  begin := by
    rw [same.canEditBegin]
    exact laid.begin

theorem Laid.textsBehind_eq (laid : Laid s front line behind back) :
    textsBehind s line = texts s behind := by
  have before : ∀ node ∈ front, decide (node ≠ line) = true := by
    rintro node member
    apply decide_eq_true
    rintro rfl
    exact laid.notMem_front member
  have upTo : ∀ node ∈ behind, decide (node ≠ s.canEditEnd) = true := by
    rintro node member
    apply decide_eq_true
    rintro rfl
    have nodup := (List.nodup_append.1 laid.nodup).2.1
    have apart := (List.nodup_append.1 (List.nodup_cons.1 nodup).2).2.2
    exact apart _ member _ List.mem_cons_self rfl
  rw [textsBehind, laid.order, List.dropWhile_append_of_pos before, List.dropWhile_cons_of_neg (by simp),
    List.tail_cons, List.takeWhile_append_of_pos upTo, List.takeWhile_cons_of_neg (by simp),
    List.append_nil]

theorem filter_eq_nil_of_isBlank {text : Bytes} :
    isBlank text = true ↔ text.filter (· != blank) = [] := by
  rw [isBlank, List.all_eq_true, List.filter_eq_nil_iff]
  apply forall₂_congr
  intro c _
  rw [bne]
  cases c == blank <;> simp

theorem deleteLine_eq (laid : Laid s front line behind back)
    (others : ¬(line = s.canEditBegin ∧ behind = [])) : ∃ s', deleteLine line s = some s' ∧
      s'.lines = s.lines ∧ s'.order = front ++ (behind ++ s.canEditEnd :: back) := by
  have order : s.order.erase line = front ++ (behind ++ s.canEditEnd :: back) := by
    rw [laid.order, erase_append laid.notMem_front]
  cases behind with
  | nil =>
    rw [deleteLine, laid.next_end]
    dsimp only
    rw [if_neg fun both => others ⟨both.1, rfl⟩]
    exact ⟨_, rfl, rfl, order⟩
  | cons other rest =>
    rw [deleteLine, laid.next_cons]
    dsimp only
    rw [if_neg fun both => laid.ne_end both.2]
    exact ⟨_, rfl, rfl, order⟩

theorem deleteLine_content (laid : Laid s front line behind back)
    (others : ¬(line = s.canEditBegin ∧ behind = [])) (blanks : isBlank (s.lines line).text) :
    ∃ s', deleteLine line s = some s' ∧ content s' = content s := by
  obtain ⟨s', deleted, lines, order⟩ := deleteLine_eq laid others
  refine ⟨s', deleted, ?_⟩
  have none := filter_eq_nil_of_isBlank.1 blanks
  have same (nodes : List Nat) : textOf s' nodes = textOf s nodes :=
    textOf_congr fun node _ => by rw [lines]
  rw [content, content, order, same, laid.textOf_eq, textOf_append, List.filter_append,
    List.filter_append, List.filter_append, none, List.nil_append]

end Deleting

/-! ## The end of a line -/

section Kill

variable {s s' : State} {front behind back : List Nat} {line fuel : Nat}

/-- When deleting to the end of a line, at its end, keeps the text. -/
def KillKeeps (s : State) : Prop :=
  if s.next s.currline = some s.canEditEnd then isBlank s.current.text = true
  else s.current.len = 0 ∨ Joins s.linelen s.current.text (textsBehind s s.currline)

theorem content_cleared (laid : Laid s front line behind back) {value : TextLine}
    (cleared : value.text = []) :
    content (s.setLine line value) = content s ↔ isBlank (s.lines line).text = true := by
  rw [filter_eq_nil_of_isBlank, content, content, laid.textOf_setLine, laid.textOf_eq, cleared,
    List.nil_append, List.filter_append, List.filter_append, List.filter_append,
    List.append_cancel_left_eq, eq_comm, List.append_left_eq_self]

/-- The last line that may be edited is cleared. -/
theorem killKey_last (laid : Laid s front s.currline [] back) (atEnd : s.currpnt = s.current.len)
    (fuel : Nat) :
    ∃ s', killKey fuel s = some s' ∧ (content s' = content s ↔ isBlank s.current.text = true) := by
  have notLess : ¬s.current.len > s.currpnt := atEnd.ge.not_gt
  have cleared (len : Nat) (marked : Bool) (data : Nat → UInt8) :
      (⟨len, marked, Function.update data 0 0⟩ : TextLine).text = [] := by
    rw [text_eq]
    exact if_pos (Function.update_self 0 0 data)
  rw [killKey, laid.next_end]
  dsimp only
  rw [if_pos rfl, if_neg notLess, if_neg notLess]
  exact ⟨_, rfl, content_cleared laid (cleared _ _ _)⟩

theorem killKey_empty (laid : Laid s front s.currline behind back) (fit : AllFit True s)
    (further : behind ≠ []) (empty : s.current.len = 0) (fuel : Nat) :
    ∃ s', killKey fuel s = some s' ∧ content s' = content s := by
  cases behind with
  | nil => exact absurd rfl further
  | cons other rest =>
    have fits := fit s.currline laid.mem
    have whole := fits.whole trivial
    have len : (s.lines s.currline).len = 0 := empty
    have none : (s.lines s.currline).text = [] := List.eq_nil_of_length_eq_zero (by omega)
    rw [killKey, laid.next_cons]
    dsimp only
    rw [if_neg laid.ne_end, if_pos empty]
    generalize (if s.currline = s.topOfWin then other else s.topOfWin) = top
    have laid' : Laid { s with topOfWin := top } front s.currline (other :: rest) back :=
      laid.of_sameLines ⟨rfl, rfl, rfl, rfl, rfl, rfl⟩
    obtain ⟨s', deleted, same⟩ := deleteLine_content laid' (fun both => further both.2) (by
      rw [none]
      rfl)
    refine ⟨{ s' with currline := other }, ?_, same⟩
    rw [deleted]
    rfl

theorem killKey_join (laid : Laid s front s.currline behind back) (further : behind ≠ [])
    (nonempty : s.current.len ≠ 0) (atEnd : s.currpnt = s.current.len) :
    killKey fuel s = joinAll abortBbs fuel s.currline s := by
  cases behind with
  | nil => exact absurd rfl further
  | cons other rest =>
    rw [killKey, laid.next_cons]
    dsimp only
    rw [if_neg laid.ne_end, if_neg nonempty, if_pos atEnd.symm]

theorem killKey_ends (laid : Laid s front s.currline behind back) (fit : AllFit True s)
    (atEnd : s.currpnt = s.current.len) (keeps : KillKeeps s) :
    ∃ fuel s', killKey fuel s = some s' := by
  cases behind with
  | nil =>
    obtain ⟨s', result, -⟩ := killKey_last laid atEnd 0
    exact ⟨0, s', result⟩
  | cons other rest =>
    by_cases empty : s.current.len = 0
    · obtain ⟨s', result, -⟩ := killKey_empty laid fit (List.cons_ne_nil _ _) empty 0
      exact ⟨0, s', result⟩
    · rw [KillKeeps, if_neg, laid.textsBehind_eq] at keeps
      · obtain ⟨s', result⟩ := joinAll_ends abortBbs laid fit (keeps.resolve_left empty)
        refine ⟨rest.length + 2, s', ?_⟩
        rw [killKey_join laid (List.cons_ne_nil _ _) empty atEnd]
        exact result
      · rw [laid.next_cons]
        exact fun same => laid.ne_end (Option.some.inj same)

theorem killKey_content (laid : Laid s front s.currline behind back) (fit : AllFit True s)
    (atEnd : s.currpnt = s.current.len) (result : killKey fuel s = some s') :
    content s' = content s ↔ KillKeeps s := by
  cases behind with
  | nil =>
    obtain ⟨after, result', same⟩ := killKey_last laid atEnd fuel
    obtain rfl := Option.some.inj (result.symm.trans result')
    rw [KillKeeps, if_pos laid.next_end]
    exact same
  | cons other rest =>
    have inner : s.next s.currline ≠ some s.canEditEnd := by
      rw [laid.next_cons]
      exact fun same => laid.ne_end (Option.some.inj same)
    rw [KillKeeps, if_neg inner, laid.textsBehind_eq]
    by_cases empty : s.current.len = 0
    · obtain ⟨after, result', same⟩ := killKey_empty laid fit (List.cons_ne_nil _ _) empty fuel
      obtain rfl := Option.some.inj (result.symm.trans result')
      exact iff_of_true same (Or.inl empty)
    · rw [killKey_join laid (List.cons_ne_nil _ _) empty atEnd] at result
      rw [joinAll_content laid fit result]
      exact ⟨Or.inr, fun joins => joins.resolve_left empty⟩

end Kill

/-! ## The start of a line -/

section Backspace

variable {s s' : State} {front behind back : List Nat} {line fuel : Nat}

/-- When going back over a line break keeps the text. -/
def BackspaceKeeps (s : State) : Prop :=
  s.currline = s.canEditBegin ∨ isBlank s.current.text = true ∨
    ∀ before, s.prev s.currline = some before →
      Joins s.linelen (s.lines before).text (textsBehind s before)

/-- The line before one that is not the first. -/
theorem Laid.backward (laid : Laid s front line behind back) (notBegin : line ≠ s.canEditBegin) :
    ∃ front' before, Laid s front' before (line :: behind) back ∧ s.prev line = some before := by
  have inFront : s.canEditBegin ∈ front := by
    obtain inFront | isLine := List.mem_append.1 laid.begin
    · exact inFront
    · exact absurd (List.eq_of_mem_singleton isLine).symm notBegin
  obtain none | ⟨front', before, rfl⟩ := List.eq_nil_or_concat' front
  · rw [none] at inFront
    exact absurd inFront List.not_mem_nil
  · have order : s.order = front' ++ before :: line :: (behind ++ s.canEditEnd :: back) := by
      rw [laid.order, List.append_assoc]
      rfl
    have absent := laid.notMem_front
    rw [List.mem_append, List.mem_singleton, not_or] at absent
    refine ⟨front', before, ⟨laid.sound, order, inFront⟩, ?_⟩
    rw [State.prev, order]
    exact prev_append absent.1 (Ne.symm absent.2)

theorem toPrevious_sameLines {before top : Nat} (follows : s.next s.topOfWin = some top) :
    ∃ after, toPrevious before s = some after ∧ SameLines s after ∧ after.lines = s.lines := by
  unfold toPrevious
  dsimp only [State.next] at follows ⊢
  rw [follows]
  split_ifs
  · exact ⟨_, rfl, ⟨rfl, rfl, rfl, rfl, rfl, rfl⟩, rfl⟩
  · exact ⟨_, rfl, ⟨rfl, rfl, rfl, rfl, rfl, rfl⟩, rfl⟩

theorem AllFit.of_sameLines {exact : Prop} (fit : AllFit exact s) (same : SameLines s s')
    (lines : s'.lines = s.lines) : AllFit exact s' := by
  intro line member
  rw [same.order] at member
  rw [lines]
  exact fit line member

theorem content_of_sameLines (same : SameLines s s') (lines : s'.lines = s.lines) :
    content s' = content s := by
  apply content_of_textOf
  rw [same.order]
  exact textOf_congr fun line _ => by rw [lines]

/-- The line is deleted, or joined with the one before. -/
theorem backspaceKey_eq (consistent : Consistent s) (atStart : s.currpnt = 0)
    (notBegin : s.currline ≠ s.canEditBegin) :
    ∃ front before behind back after, Laid after front before (s.currline :: behind) back ∧
      AllFit True after ∧ content after = content s ∧ after.lines = s.lines ∧
      (Joins after.linelen (after.lines before).text (texts after (s.currline :: behind)) ↔
        ∀ other, s.prev s.currline = some other →
          Joins s.linelen (s.lines other).text (textsBehind s other)) ∧
      ∀ fuel, backspaceKey fuel s =
        if isBlank s.current.text then deleteLine s.currline after
        else joinAll abortBbs fuel before after := by
  obtain ⟨front, behind, back, laid⟩ := consistent.placed
  obtain ⟨front', before, laid', prev⟩ := laid.backward notBegin
  obtain ⟨top, follows⟩ := consistent.top
  obtain ⟨after, moved, same, lines⟩ := @toPrevious_sameLines s before top follows
  refine ⟨front', before, behind, back, after, laid'.of_sameLines same,
    consistent.fits.of_sameLines same lines, content_of_sameLines same lines, lines, ?_, ?_⟩
  · have texts_eq : texts after (s.currline :: behind) = textsBehind s before := by
      rw [laid'.textsBehind_eq, texts, texts, lines]
    rw [texts_eq, same.linelen, lines]
    constructor
    · intro joins other prev'
      obtain rfl := Option.some.inj (prev.symm.trans prev')
      exact joins
    · exact fun joins => joins before prev
  · intro fuel
    rw [backspaceKey, if_pos atStart, if_neg notBegin, prev]
    dsimp only
    rw [moved]
    rfl

theorem backspaceKey_ends (consistent : Consistent s) (atStart : s.currpnt = 0)
    (keeps : BackspaceKeeps s) : ∃ fuel s', backspaceKey fuel s = some s' := by
  by_cases first : s.currline = s.canEditBegin
  · exact ⟨0, s, by rw [backspaceKey, if_pos atStart, if_pos first]⟩
  · obtain ⟨front, before, behind, back, after, laid, fit, -, lines, joins, result⟩ :=
      backspaceKey_eq consistent atStart first
    by_cases blanks : isBlank s.current.text = true
    · have blanks' : isBlank (after.lines s.currline).text = true := by
        rw [lines]
        exact blanks
      obtain ⟨s', deleted, -⟩ := deleteLine_content laid.forward
        (fun both => laid.ne_begin both.1) blanks'
      refine ⟨0, s', ?_⟩
      rw [result, if_pos blanks]
      exact deleted
    · obtain atBegin | blanks' | keeps := keeps
      · exact absurd atBegin first
      · exact absurd blanks' blanks
      · obtain ⟨s', joined⟩ := joinAll_ends abortBbs laid fit (joins.2 keeps)
        refine ⟨(s.currline :: behind).length + 1, s', ?_⟩
        rw [result, if_neg blanks]
        exact joined

theorem backspaceKey_content (consistent : Consistent s) (atStart : s.currpnt = 0)
    (result : backspaceKey fuel s = some s') : content s' = content s ↔ BackspaceKeeps s := by
  by_cases first : s.currline = s.canEditBegin
  · rw [backspaceKey, if_pos atStart, if_pos first] at result
    obtain rfl := Option.some.inj result
    exact iff_of_true rfl (Or.inl first)
  · obtain ⟨front, before, behind, back, after, laid, fit, same, lines, joins, result'⟩ :=
      backspaceKey_eq consistent atStart first
    rw [result'] at result
    by_cases blanks : isBlank s.current.text = true
    · rw [if_pos blanks] at result
      have blanks' : isBlank (after.lines s.currline).text = true := by
        rw [lines]
        exact blanks
      obtain ⟨s₁, deleted, kept⟩ := deleteLine_content laid.forward
        (fun both => laid.ne_begin both.1) blanks'
      obtain rfl := Option.some.inj (result.symm.trans deleted)
      exact iff_of_true (kept.trans same) (Or.inr (Or.inl blanks))
    · rw [if_neg blanks] at result
      have kept := joinAll_content laid fit result
      rw [same, joins] at kept
      rw [kept, BackspaceKeeps, or_iff_right first, or_iff_right blanks]

end Backspace

/-! ## Both keys -/

section Keys

variable {s s' : State} {fuel ch : Nat}

theorem scrollOn_content {n : Nat} (result : scrollOn n s = some s') : content s' = content s := by
  induction n generalizing s with
  | zero =>
    obtain rfl := Option.some.inj result
    rfl
  | succ n ih =>
    rw [scrollOn] at result
    cases follows : s.next s.topOfWin with
    | none =>
      rw [follows] at result
      exact absurd result (Option.some_ne_none _).symm
    | some behind =>
      rw [follows] at result
      dsimp only at result
      exact (ih result).trans rfl

theorem scrollBack_content (result : scrollBack s = some s') : content s' = content s := by
  unfold scrollBack at result
  split_ifs at result
  · obtain rfl := Option.some.inj result
    rfl
  · cases before : s.prev s.topOfWin with
    | none =>
      rw [before] at result
      exact absurd result (Option.some_ne_none _).symm
    | some other =>
      rw [before] at result
      obtain rfl := Option.some.inj result
      rfl
  · obtain rfl := Option.some.inj result
    rfl

/-- The compensations do not touch the lines. -/
theorem settle_content (result : settle s = some s') : content s' = content s := by
  unfold settle at result
  cases back : scrollBack s with
  | none =>
    rw [back] at result
    exact absurd result (Option.some_ne_none _).symm
  | some after =>
    rw [back] at result
    dsimp only at result
    have first := scrollBack_content back
    split_ifs at result
    · exact (scrollOn_content result).trans first
    · obtain rfl := Option.some.inj result
      exact first

/-- Backspace at the first column, or the kill key at the end of a line. -/
def AtBreak (ch : Nat) (s : State) : Prop :=
  (keyOf ch = .backspace ∧ s.currpnt = 0) ∨ (keyOf ch = .kill ∧ s.currpnt = s.current.len)

/-- The key comes to an end before the compensations with the same text but for blanks, and whatever
it leaves behind them has that text too. -/
def KeepsText (ch : Nat) (s : State) : Prop :=
  (∃ fuel after, press fuel (keyOf ch) (indent (keyOf ch) s) = some after ∧
      content after = content s) ∧
    ∀ fuel s', veditKey fuel ch s = some s' → content s' = content s

/-- The line is not touched; or it goes without its text, or is joined with the next ones as
`Joins` says. -/
def BreakKeeps (ch : Nat) (s : State) : Prop :=
  noTouch s = true ∨
    if keyOf ch = .backspace then BackspaceKeeps s else KillKeeps s

/-- A change that is not made in a line that shows colours. -/
theorem touch_keeps {change : Nat → State → Option State} {keeps : Prop}
    (ends : keeps → ∃ fuel s', change fuel s = some s')
    (same : ∀ fuel s', change fuel s = some s' → (content s' = content s ↔ keeps)) :
    ((∃ fuel s', touch (change fuel) s = some s' ∧ content s' = content s) ↔
      noTouch s = true ∨ keeps) ∧
      (noTouch s = true ∨ keeps → ∀ fuel s', touch (change fuel) s = some s' →
        content s' = content s) := by
  by_cases colours : noTouch s = true
  · have untouched (fuel : Nat) : touch (change fuel) s = some s := if_pos colours
    refine ⟨iff_of_true ⟨0, s, untouched 0, rfl⟩ (Or.inl colours), fun _ fuel s' result => ?_⟩
    obtain rfl := Option.some.inj ((untouched fuel).symm.trans result)
    rfl
  · have touched (fuel : Nat) : touch (change fuel) s = change fuel s := if_neg colours
    rw [or_iff_right colours]
    refine ⟨⟨?_, fun holds => ?_⟩, fun holds fuel s' result => ?_⟩
    · rintro ⟨fuel, s', result, kept⟩
      rw [touched] at result
      exact (same fuel s' result).1 kept
    · obtain ⟨fuel, s', result⟩ := ends holds
      exact ⟨fuel, s', (touched fuel).trans result, (same fuel s' result).2 holds⟩
    · rw [touched] at result
      exact (same fuel s' result).2 holds

theorem Consistent.indent (consistent : Consistent s) (key : Key) :
    Consistent (indent key s) := by
  obtain ⟨front, behind, back, laid⟩ := consistent.placed
  exact ⟨⟨front, behind, back, laid.of_still (indent_still key s)⟩, consistent.fits, consistent.top⟩

/-- Exactly then going back over a line break, or deleting one, keeps the text. -/
theorem keepsText_iff (consistent : Consistent s) (atBreak : AtBreak ch s) :
    KeepsText ch s ↔ BreakKeeps ch s := by
  have indented := consistent.indent (keyOf ch)
  have pressed : ((∃ fuel s', press fuel (keyOf ch) (Editor.indent (keyOf ch) s) = some s' ∧
      content s' = content s) ↔ BreakKeeps ch s) ∧
      (BreakKeeps ch s → ∀ fuel s', press fuel (keyOf ch) (Editor.indent (keyOf ch) s) = some s' →
        content s' = content s) := by
    unfold BreakKeeps
    obtain ⟨key, atStart⟩ | ⟨key, atEnd⟩ := atBreak
    · rw [key] at indented ⊢
      rw [if_pos rfl]
      exact touch_keeps (backspaceKey_ends indented atStart)
        fun fuel s' result => backspaceKey_content indented atStart result
    · rw [key] at indented ⊢
      obtain ⟨front, behind, back, laid⟩ := indented.placed
      rw [if_neg Key.noConfusion]
      exact touch_keeps (killKey_ends laid indented.fits atEnd)
        fun fuel s' result => killKey_content laid indented.fits atEnd result
  constructor
  · exact fun kept => pressed.1.1 kept.1
  · intro keeps
    refine ⟨pressed.1.2 keeps, fun fuel s' result => ?_⟩
    obtain ⟨after, done, settled⟩ := Option.bind_eq_some_iff.1 result
    exact (settle_content settled).trans (pressed.2 keeps fuel after done)

end Keys

/-! ## Two lines -/

def textLine (text : Bytes) : TextLine :=
  ⟨text.length, false, (text.getD · 0)⟩

theorem textLine_text {text : Bytes} (nonzero : ∀ c ∈ text, c ≠ 0)
    (short : text.length ≤ wrapMargin) : (textLine text).text = text := by
  apply stringAt_eq_of
  · rw [Nat.zero_add]
    exact Nat.lt_succ_of_le short
  · rw [Nat.zero_add]
    exact List.getD_eq_default _ _ (Nat.le_refl _)
  · intro i below
    rw [Nat.zero_add]
    exact List.getD_eq_getElem _ _ below
  · exact nonzero

theorem textLine_fits {text : Bytes} (nonzero : ∀ c ∈ text, c ≠ 0)
    (short : text.length ≤ wrapMargin) : Fits True (textLine text) := by
  have same := textLine_text nonzero short
  refine ⟨?_, ?_, fun _ => ?_⟩
  · rw [same]
    exact short
  · rw [same]
    exact Nat.le_refl _
  · rw [same]
    exact Nat.le_refl _

/-- Two lines, with the cursor at the start of the second one. -/
def twoLines (first second : Bytes) : State where
  order := [0, 1, 2]
  lines line := textLine (if line = 0 then first else if line = 1 then second else [])
  fresh := 3
  raw _ _ := 0
  canEditBegin := 0
  canEditEnd := 2
  topOfWin := 0
  currline := 1
  markBegin := none
  markEnd := none
  currpnt := 0
  currWindowLine := 1
  currln := 1
  linelen := 79
  lastindent := -1
  screenLines := 24
  insertCharacter := true
  editansi := false
  enabledbchar := true

theorem twoLines_consistent {first second : Bytes} (nonzero : ∀ c ∈ first ++ second, c ≠ 0)
    (short : (first ++ second).length ≤ wrapMargin) : Consistent (twoLines first second) := by
  rw [List.length_append] at short
  have nodup : [0, 1, 2].Nodup := by decide
  have fresh : ∀ line ∈ [0, 1, 2], line < 3 := by decide
  have wide : 11 ≤ 79 := by decide
  refine ⟨⟨[0], [], [], ⟨⟨nodup, fresh, wide⟩, rfl, List.mem_cons_self⟩⟩, ?_, ⟨1, rfl⟩⟩
  · intro line _
    apply textLine_fits
    · intro c member
      apply nonzero c
      rw [List.mem_append]
      split_ifs at member
      · exact Or.inl member
      · exact Or.inr member
      · exact absurd member List.not_mem_nil
    · split_ifs
      · omega
      · omega
      · exact Nat.zero_le _

/-- Two letters are joined. -/
theorem letters_keepText : KeepsText 8 (twoLines [97] [98]) := by
  have consistent : Consistent (twoLines [97] [98]) :=
    twoLines_consistent (by simp) (by decide)
  apply (keepsText_iff consistent (Or.inl ⟨rfl, rfl⟩)).2
  have key : keyOf 8 = .backspace := rfl
  rw [BreakKeeps, if_pos key]
  refine Or.inr (Or.inr (Or.inr fun before prev => ?_))
  obtain rfl : 0 = before := Option.some.inj prev
  have first : ((twoLines [97] [98]).lines 0).text = [97] := textLine_text (by simp) (by decide)
  have behind : textsBehind (twoLines [97] [98]) 0 = [[98]] :=
    congrArg (· :: []) (textLine_text (by simp) (by decide))
  rw [first, behind]
  have room : [(97 : UInt8)].length + [(98 : UInt8)].length ≤ wrapMargin := by decide
  exact ⟨fun begins => absurd begins (by decide), room⟩

/-- A line that begins with a single dash gets another one in the place of its second byte. -/
theorem dash_not_keptText : Consistent (twoLines [100] [45, 97]) ∧
    AtBreak 8 (twoLines [100] [45, 97]) ∧ content (twoLines [100] [45, 97]) = [100, 45, 97] ∧
    (∃ s', veditKey 1 8 (twoLines [100] [45, 97]) = some s' ∧ content s' = [100, 45, 45]) ∧
    ¬KeepsText 8 (twoLines [100] [45, 97]) := by
  have before : content (twoLines [100] [45, 97]) = [100, 45, 97] := by decide
  obtain ⟨s', result, after⟩ : ∃ s', veditKey 1 8 (twoLines [100] [45, 97]) = some s' ∧
      content s' = [100, 45, 45] := ⟨_, rfl, by decide⟩
  refine ⟨twoLines_consistent (by simp) (by decide), Or.inl ⟨rfl, rfl⟩, before,
    ⟨s', result, after⟩, fun kept => ?_⟩
  have same := kept.2 1 s' result
  rw [after, before] at same
  exact absurd same (by decide)

end Editor

end Fbbs
