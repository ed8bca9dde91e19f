import Fbbs.EditorCursor
import Fbbs.EditorText

/-!
# Runs of the line editor

Pages, blocks and the keys that change lines, and from them every run of keys from a file that has
just been opened: the cursor stands in the row of the current line.
-/

namespace Fbbs

namespace Editor

open CharArrays ListNeighbours

/-! ## Pages -/

section Pages

variable {s s' : State} {b t c e : Nat}

theorem backLine_eq (sound : Sound s) (begin : s.order[b]? = some s.canEditBegin) (num : Nat)
    {i pos : Nat} (here : s.order[i]? = some pos) (from_begin : b ≤ i) :
    ∃ before, backLine s num pos = some (before, min num (i - b)) ∧
      s.order[i - min num (i - b)]? = some before := by
  induction num generalizing i pos with
  | zero => exact ⟨pos, by rw [Nat.zero_min]; rfl, by rw [Nat.zero_min]; exact here⟩
  | succ num ih =>
    by_cases atBegin : pos = s.canEditBegin
    · obtain rfl : i = b := sound.place_unique (atBegin ▸ here) begin
      rw [Nat.sub_self, Nat.min_zero]
      exact ⟨pos, if_pos atBegin, here⟩
    · have further : b ≠ i := by
        rintro rfl
        exact atBegin (Option.some.inj (here.symm.trans begin))
      obtain ⟨i, rfl⟩ : ∃ before, i = before + 1 := ⟨i - 1, by omega⟩
      obtain ⟨other, there⟩ := getElem?_isSome_of_le (Nat.le_succ i) here
      obtain ⟨before, moved, place⟩ := ih there (by omega)
      have count : min (num + 1) (i + 1 - b) = min num (i - b) + 1 := by omega
      refine ⟨before, ?_, ?_⟩
      · rw [backLine, if_neg atBegin, sound.prev_eq here, there]
        dsimp only
        rw [moved, count]
        rfl
      · rw [count, Nat.add_sub_add_right]
        exact place

theorem forwardLine_eq (sound : Sound s) (stop : StopAt s e) (num : Nat) {i pos : Nat}
    (here : s.order[i]? = some pos) (before : i < e) :
    (forwardLine s num pos).2 = min num (e - 1 - i) ∧
      s.order[i + min num (e - 1 - i)]? = some (forwardLine s num pos).1 := by
  induction num generalizing i pos with
  | zero =>
    rw [Nat.zero_min]
    exact ⟨rfl, here⟩
  | succ num ih =>
    obtain ⟨other, follows⟩ := getElem?_isSome_of_le (by omega : i + 1 ≤ e) stop
    rw [forwardLine, sound.next_eq here, follows]
    dsimp only
    by_cases ends : other = s.canEditEnd
    · have last : i + 1 = e := sound.place_unique (ends ▸ follows) stop
      have nothing : e - 1 - i = 0 := by omega
      rw [if_pos ends, nothing, Nat.min_zero]
      exact ⟨rfl, here⟩
    · have further : i + 1 ≠ e := by
        rintro rfl
        exact ends (Option.some.inj (follows.symm.trans stop))
      obtain ⟨moved, place⟩ := ih follows (by omega)
      have count : min (num + 1) (e - 1 - i) = min num (e - 1 - (i + 1)) + 1 := by omega
      rw [if_neg ends, count]
      refine ⟨by rw [moved], ?_⟩
      rw [← place]
      congr 1
      omega

/-- The lines back to the top of the window are counted. -/
theorem getlineno_eq (sound : Sound s) (top : s.order[t]? = some s.topOfWin) {fuel d pos : Nat}
    (here : s.order[t + d]? = some pos) (enough : d < fuel) : getlineno s fuel pos = d := by
  induction d generalizing fuel pos with
  | zero =>
    obtain ⟨fuel, rfl⟩ : ∃ less, fuel = less + 1 := ⟨fuel - 1, by omega⟩
    exact if_pos (Option.some.inj (here.symm.trans top))
  | succ d ih =>
    obtain ⟨fuel, rfl⟩ : ∃ less, fuel = less + 1 := ⟨fuel - 1, by omega⟩
    have notTop : pos ≠ s.topOfWin := by
      rintro rfl
      have := sound.place_unique here top
      omega
    obtain ⟨before, there⟩ := getElem?_isSome_of_le (Nat.le_succ (t + d)) here
    rw [getlineno, if_neg notTop, @Sound.prev_eq s sound (t + d) pos here, there]
    dsimp only
    rw [ih there (by omega)]

/-- The window and the current line at other places, with the row counted again. -/
theorem Located.recounted {t' c' : Nat} (located : Located s b t c e) (same : SameLines s s')
    (top : s.order[t']? = some s'.topOfWin) (here : s.order[c']? = some s'.currline)
    (begin_le : b ≤ t') (top_le : t' ≤ c') (before : c' < e)
    (number : s'.currln = (c' : Int) - b) : Located (recount s') b t' c' e := by
  have row : getlineno s' (s'.order.length + 1) s'.currline = c' - t' := by
    have inside := (List.getElem?_eq_some_iff.1 here).1
    have sound := located.sound.of_sameLines same
    rw [← same.order] at top here inside
    apply getlineno_eq sound top
    · rw [Nat.add_sub_cancel' top_le]
      exact here
    · omega
  have count : ((getlineno s' (s'.order.length + 1) s'.currline : Nat) : Int) = c' - t' := by
    rw [row]
    omega
  exact located.moved ⟨same.order, same.fresh, same.canEditBegin, same.canEditEnd, same.linelen,
    same.screenLines⟩ top here begin_le top_le before count number

theorem pageUp_pressed (located : Located s b t c e) (result : pageUp s = some s') :
    Pressed s' := by
  have top_le := located.top_le
  have begin_le := located.begin_le
  have before := located.before
  obtain ⟨top, moved, atTop⟩ :=
    backLine_eq located.sound located.begin (s.screenLines - 2) located.top begin_le
  obtain ⟨line, moved', atLine⟩ :=
    backLine_eq located.sound located.begin (s.screenLines - 2) located.here (by omega)
  have number := located.number
  rw [pageUp, moved] at result
  dsimp only at result
  rw [moved'] at result
  obtain rfl := Option.some.inj result
  apply Located.pressed
  exact located.recounted ⟨rfl, rfl, rfl, rfl, rfl, rfl⟩ atTop atLine (by omega) (by omega)
    (by omega) (by dsimp only; omega)

theorem pageDown_pressed (located : Located s b t c e) (result : pageDown s = some s') :
    Pressed s' := by
  have top_le := located.top_le
  have begin_le := located.begin_le
  have before := located.before
  obtain ⟨-, atTop⟩ := forwardLine_eq located.sound located.stop 22 located.top (by omega)
  obtain ⟨moved, atLine⟩ := forwardLine_eq located.sound located.stop 22 located.here before
  have number := located.number
  unfold pageDown at result
  generalize forwardLine s 22 s.currline = forward at result moved atLine
  obtain ⟨line, count⟩ := forward
  dsimp only at result moved atLine
  split_ifs at result
  obtain rfl := Option.some.inj result
  apply Located.pressed
  exact located.recounted ⟨rfl, rfl, rfl, rfl, rfl, rfl⟩ atTop atLine (by omega) (by omega)
    (by omega) (by dsimp only; omega)

theorem toStart_pressed (located : Located s b t c e) : Pressed (toStart s) := by
  have top_le := located.top_le
  have begin_le := located.begin_le
  have before := located.before
  apply Located.pressed
  exact located.moved ⟨rfl, rfl, rfl, rfl, rfl, rfl⟩ located.begin located.begin (Nat.le_refl b)
    (Nat.le_refl b) (by omega) (Int.sub_self _).symm (Int.sub_self _).symm

end Pages

/-! ## Blocks -/

section Blocks

variable {s : State}

theorem setMark_still (marked : Bool) (s : State) (line : Nat) : Still s (setMark marked s line) :=
  setLine_still s line _

theorem foldl_setMark_still (marked : Bool) (lines : List Nat) (s : State) :
    Still s (lines.foldl (setMark marked) s) := by
  induction lines generalizing s with
  | nil => exact Still.refl s
  | cons line rest ih => exact (setMark_still marked s line).trans (ih _)

theorem markLine_still (first last : Nat) (passed : Nat × State) (line : Nat) :
    Still passed.2 (markLine first last passed line).2 := by
  unfold markLine
  split_ifs <;> exact setMark_still _ _ line

theorem foldl_markLine_still (first last : Nat) (lines : List Nat) (passed : Nat × State) :
    Still passed.2 (lines.foldl (markLine first last) passed).2 := by
  induction lines generalizing passed with
  | nil => exact Still.refl _
  | cons line rest ih => exact (markLine_still first last passed line).trans (ih _)

theorem markBlock_still (s : State) : Still s (markBlock s).1 := by
  have cleared := foldl_setMark_still false (region s) s
  unfold markBlock
  dsimp only
  generalize (region s).foldl (setMark false) s = s₁ at cleared
  cases s₁.markBegin with
  | none =>
    cases s₁.markEnd with
    | none => exact cleared
    | some last => exact cleared.trans (setMark_still true s₁ last)
  | some first =>
    cases s₁.markEnd with
    | none => exact cleared.trans (setMark_still true s₁ first)
    | some last =>
      dsimp only
      split_ifs
      · exact cleared.trans (setMark_still true s₁ first)
      · exact cleared.trans (foldl_markLine_still first last (region s₁) (0, s₁))

theorem markHere_still (s : State) : Still s (markHere s) := by
  unfold markHere
  apply Still.trans _ (markBlock_still _)
  cases s.markBegin with
  | none => exact ⟨⟨rfl, rfl, rfl, rfl, rfl, rfl, rfl, rfl⟩, rfl, rfl⟩
  | some first => exact ⟨⟨rfl, rfl, rfl, rfl, rfl, rfl, rfl, rfl⟩, rfl, rfl⟩

end Blocks

/-! ## Typing -/

section Typing

variable {s s' : State} {b t c e fuel : Nat}

theorem enter_pressed (located : Located s b t c e) :
    Pressed (split s.currline s.currpnt s) := by
  by_cases short : s.currpnt ≤ s.current.len
  · obtain ⟨c', -, after, -, -⟩ := located.split short
    exact after.pressed
  · rw [split_of_lt (Nat.lt_of_not_le short)]
    exact located.pressed

/-- None of the blanks of a tab goes into a line that is cut before the cursor. -/
def TabWhole (fuel : Nat) : Nat → State → Prop
  | 0, _ => True
  | count + 1, s =>
    ¬CutBefore s ∧
      ∀ s', insertChar fuel blank s = some s' → s'.currpnt % 4 ≠ 0 → TabWhole fuel count s'

theorem tabKey_located {count : Nat} (located : Located s b t c e) (whole : TabWhole fuel count s)
    (result : tabKey fuel count s = some s') : ∃ c' e', Located s' b t c' e' := by
  induction count generalizing s c e with
  | zero =>
    obtain rfl := Option.some.inj result
    exact ⟨c, e, located⟩
  | succ count ih =>
    obtain ⟨uncut, further⟩ := whole
    rw [tabKey] at result
    cases inserted : insertChar fuel blank s with
    | none =>
      rw [inserted] at result
      exact absurd result (Option.some_ne_none _).symm
    | some after =>
      obtain ⟨c', e', located'⟩ := insertChar_located located uncut inserted
      rw [inserted] at result
      dsimp only at result
      split_ifs at result with aligned
      · obtain rfl := Option.some.inj result
        exact ⟨c', e', located'⟩
      · exact ih located' (further after inserted aligned) result

/-- No byte of a line that is pasted goes into a line that is cut before the cursor. -/
def StringWhole (fuel p : Nat) : Nat → Nat → State → Prop
  | 0, _, _ => True
  | left + 1, k, s =>
    (s.lines p).data k ≠ 0 →
      ¬CutBefore s ∧
        ∀ s', insertChar fuel ((s.lines p).data k) s = some s' → StringWhole fuel p left (k + 1) s'

theorem pasteString_located {p left k : Nat} (located : Located s b t c e)
    (whole : StringWhole fuel p left k s) (result : pasteString fuel p left k s = some s') :
    ∃ c' e', Located s' b t c' e' := by
  induction left generalizing s c e k with
  | zero => exact absurd result (Option.some_ne_none _).symm
  | succ left ih =>
    rw [pasteString] at result
    split_ifs at result with readable done
    · obtain rfl := Option.some.inj result
      exact ⟨c, e, located⟩
    · obtain ⟨uncut, further⟩ := whole done
      cases inserted : insertChar fuel ((s.lines p).data k) s with
      | none =>
        rw [inserted] at result
        exact absurd result (Option.some_ne_none _).symm
      | some after =>
        obtain ⟨c', e', located'⟩ := insertChar_located located uncut inserted
        rw [inserted] at result
        exact ih located' (further after inserted) result

def LinesWhole (fuel : Nat) : Nat → Option Nat → State → Prop
  | left + 1, some p, s =>
    p ≠ s.canEditEnd → (s.lines p).marked →
      StringWhole fuel p fuel 0 s ∧
        ∀ s', pasteString fuel p fuel 0 s = some s' →
          LinesWhole fuel left ((split s'.currline s'.currpnt s').next p)
            (split s'.currline s'.currpnt s')
  | _, _, _ => True

theorem pasteLines_pressed {left : Nat} {line : Option Nat} (located : Located s b t c e)
    (whole : LinesWhole fuel left line s) (result : pasteLines fuel left line s = some s') :
    Pressed s' := by
  induction left generalizing s b t c e line with
  | zero => exact absurd result (Option.some_ne_none _).symm
  | succ left ih =>
    cases line with
    | none => exact absurd result (Option.some_ne_none _).symm
    | some p =>
      rw [pasteLines] at result
      split_ifs at result with ends readable marked
      · obtain rfl := Option.some.inj result
        exact located.pressed
      · obtain ⟨wholeString, further⟩ := whole ends marked
        cases pasted : pasteString fuel p fuel 0 s with
        | none =>
          rw [pasted] at result
          exact absurd result (Option.some_ne_none _).symm
        | some after =>
          obtain ⟨c', e', located'⟩ := pasteString_located located wholeString pasted
          have rest := further after pasted
          rw [pasted] at result
          dsimp only at result
          split_ifs at result with stays
          by_cases short : after.currpnt ≤ after.current.len
          · obtain ⟨c₂, -, located₂, -, -⟩ := located'.split short
            exact ih located₂ rest result
          · rw [split_of_lt (Nat.lt_of_not_le short)] at rest result
            exact ih located' rest result
      · obtain rfl := Option.some.inj result
        exact located.pressed

def PasteWhole (fuel : Nat) (s : State) : Prop :=
  (markBlock s).2 ≠ 0 ∧ !(markBlock s).1.current.marked →
    LinesWhole fuel fuel (markBlock s).1.markBegin (markBlock s).1

theorem paste_pressed (located : Located s b t c e) (whole : PasteWhole fuel s)
    (result : paste fuel s = some s') : Pressed s' := by
  have located₁ := located.of_still (markBlock_still s)
  unfold paste at result
  unfold PasteWhole at whole
  generalize markBlock s = marked at result whole located₁
  obtain ⟨s₁, on⟩ := marked
  dsimp only at result whole located₁
  split_ifs at result with copies
  · exact pasteLines_pressed located₁ (whole copies) result
  · obtain rfl := Option.some.inj result
    exact located₁.pressed

end Typing

/-! ## Going back over a line break -/

/-- The cursor has gone to the line before the one that was at the top of the window, and the top
is the line behind that one, which is to be removed. -/
structure Removing (s : State) (line b c e : Nat) : Prop where
  sound : Sound s
  begin : s.order[b]? = some s.canEditBegin
  here : s.order[c]? = some s.currline
  line : s.order[c + 1]? = some line
  top : s.order[c + 2]? = some s.topOfWin
  stop : StopAt s e
  begin_le : b ≤ c
  before : c + 1 < e
  row : s.currWindowLine = -1
  number : s.currln = (c : Int) - b
  tall : 24 ≤ s.screenLines

section Backspace

variable {s s' : State} {line b t c e fuel : Nat}

theorem Removing.of_still (removing : Removing s line b c e) (still : Still s s') :
    Removing s' line b c e where
  sound := (Behind.of_still removing.sound still 0).sound
  begin := by
    rw [still.order, still.kept.canEditBegin]
    exact removing.begin
  here := by
    rw [still.order, still.kept.currline]
    exact removing.here
  line := by
    rw [still.order]
    exact removing.line
  top := by
    rw [still.order, still.kept.topOfWin]
    exact removing.top
  stop := by
    rw [StopAt, still.order, still.kept.canEditEnd]
    exact removing.stop
  begin_le := removing.begin_le
  before := removing.before
  row := still.kept.currWindowLine.trans removing.row
  number := still.kept.currln.trans removing.number
  tall := by
    rw [still.kept.screenLines]
    exact removing.tall

/-- When the line has been removed the top of the window is the next line. -/
theorem Removing.deleted (removing : Removing s line b c e)
    (deleted : deleteLine line s = some s') : Lifted s' b c (e - 1) := by
  have sound := removing.sound
  have begin_le := removing.begin_le
  have before := removing.before
  have notBegin : line ≠ s.canEditBegin := by
    rintro rfl
    have := sound.place_unique removing.line removing.begin
    omega
  obtain ⟨behind, stop⟩ := deleteLine_behind sound removing.line (Nat.lt_succ_self c) notBegin before
    removing.stop deleted
  refine ⟨behind.sound, ?_, ?_, ?_, stop, begin_le, by omega, ?_, ?_, ?_⟩
  · rw [behind.front b begin_le, behind.kept.canEditBegin]
    exact removing.begin
  · rw [behind.front c (Nat.le_refl c), behind.kept.currline]
    exact removing.here
  · rw [deleteLine, sound.next_eq removing.line, removing.top] at deleted
    dsimp only at deleted
    rw [if_neg fun both => notBegin both.1] at deleted
    obtain rfl := Option.some.inj deleted
    rw [getElem?_erase sound.nodup removing.line, if_neg (Nat.lt_irrefl _)]
    exact removing.top
  · exact behind.kept.currWindowLine.trans removing.row
  · exact behind.kept.currln.trans removing.number
  · rw [behind.kept.screenLines]
    exact removing.tall

/-- A line takes up the next one as a whole. -/
def TakesUp (line behind : Nat) (s : State) : Prop :=
  ¬((dashed (s.lines behind)).data 0 = dash ∧ (s.lines behind).len = 2) ∧
    (s.lines line).shown + (dashed (s.lines behind)).shown < s.linelen

theorem joinAll_of_takesUp {atNull : State → Option State} {behind : Nat}
    (follows : s.next line = some behind) (notEnd : behind ≠ s.canEditEnd) (ne : line ≠ behind)
    (takes : TakesUp line behind s) (result : joinAll atNull fuel line s = some s') :
    takeUp line behind (s.setLine behind (dashed (s.lines behind))) = some s' := by
  cases fuel with
  | zero => exact absurd result (Option.some_ne_none _).symm
  | succ fuel =>
    obtain ⟨unsigned, fits⟩ := takes
    have own : (s.setLine behind (dashed (s.lines behind))).lines line = s.lines line :=
      Function.update_of_ne ne _ _
    have other : (s.setLine behind (dashed (s.lines behind))).lines behind =
        dashed (s.lines behind) := Function.update_self _ _ _
    have width : (s.setLine behind (dashed (s.lines behind))).linelen = s.linelen := rfl
    rw [joinAll, join, follows] at result
    dsimp only at result
    rw [if_neg notEnd, own, other, width, dashed_len] at result
    by_cases lost : (dashed (s.lines behind)).text.length > wrapMargin
    · rw [if_pos lost] at result
      exact absurd result (Option.some_ne_none _).symm
    rw [if_neg lost, if_neg unsigned, if_pos (by omega)] at result
    cases taken : takeUp line behind (s.setLine behind (dashed (s.lines behind))) with
    | none =>
      rw [taken] at result
      exact absurd result (Option.some_ne_none _).symm
    | some after =>
      rw [taken] at result
      exact result

/-- The line before the window takes up the line at its top. -/
theorem Removing.joined {atNull : State → Option State} (removing : Removing s line b c e)
    (takes : TakesUp s.currline line s) (result : joinAll atNull fuel s.currline s = some s') :
    Lifted s' b c (e - 1) := by
  have sound := removing.sound
  have before := removing.before
  have notEnd : line ≠ s.canEditEnd := by
    rintro rfl
    have : c + 1 = e := sound.place_unique removing.line removing.stop
    omega
  have ne : s.currline ≠ line := by
    rintro rfl
    have := sound.place_unique removing.here removing.line
    omega
  have follows : s.next s.currline = some line := by
    rw [sound.next_eq removing.here]
    exact removing.line
  have taken := joinAll_of_takesUp follows notEnd ne takes result
  unfold takeUp at taken
  split_ifs at taken
  have still := (setLine_still s line (dashed (s.lines line))).trans (grow_still _ s.currline line)
  exact (removing.of_still still).deleted taken

/-- Going back over a line break is safe below the top of the window, or if the line at the top
is removed as a whole. -/
def BackspaceWhole (s : State) : Prop :=
  0 < s.currWindowLine ∨ s.current.text.all (· == blank) ∨
    ∀ before, s.prev s.currline = some before → TakesUp before s.currline s

theorem toPrevious_inside {before : Nat} {after : State} (located : Located s b t c e)
    (prev : s.prev s.currline = some before)
    (inside : 0 < s.currWindowLine) (moved : toPrevious before s = some after) :
    Located after b t (c - 1) e ∧ after.currline = before ∧
      after.order[c - 1 + 1]? = some s.currline ∧ c - 1 + 1 < e := by
  have row := located.row
  have number := located.number
  have begin_le := located.begin_le
  have further := located.before
  obtain ⟨c, rfl⟩ : ∃ less, c = less + 1 := ⟨c - 1, by omega⟩
  rw [located.sound.prev_eq located.here] at prev
  unfold toPrevious at moved
  dsimp only at moved
  rw [if_neg (by omega)] at moved
  obtain rfl := Option.some.inj moved
  refine ⟨?_, rfl, located.here, further⟩
  exact located.moved ⟨rfl, rfl, rfl, rfl, rfl, rfl⟩ located.top prev begin_le (by omega)
    (by omega) (by dsimp only; omega) (by dsimp only; omega)

theorem toPrevious_top {before : Nat} {after : State} (located : Located s b t c e)
    (notBegin : s.currline ≠ s.canEditBegin) (prev : s.prev s.currline = some before)
    (atTop : s.currWindowLine ≤ 0) (moved : toPrevious before s = some after) :
    Removing after s.currline b (c - 1) e ∧ after.currline = before ∧ after.lines = s.lines ∧
      after.linelen = s.linelen := by
  have row := located.row
  have number := located.number
  have begin_le := located.begin_le
  have top_le := located.top_le
  have further := located.before
  have sound := located.sound
  obtain rfl : t = c := by omega
  have notFirst : b ≠ t := by
    rintro rfl
    exact notBegin (Option.some.inj (located.here.symm.trans located.begin))
  obtain ⟨t, rfl⟩ : ∃ less, t = less + 1 := ⟨t - 1, by omega⟩
  rw [sound.prev_eq located.here] at prev
  obtain ⟨top, follows⟩ := getElem?_isSome_of_le (by omega : t + 1 + 1 ≤ e) located.stop
  have next : s.next s.topOfWin = some top := by
    rw [sound.next_eq located.top]
    exact follows
  unfold toPrevious at moved
  dsimp only at moved
  rw [if_pos (by omega)] at moved
  dsimp only [State.next] at moved next
  rw [next] at moved
  obtain rfl := Option.some.inj moved
  refine ⟨⟨⟨sound.nodup, sound.fresh, sound.wide⟩, located.begin, prev, located.here, follows,
    located.stop, by omega, further, ?_, ?_, located.tall⟩, rfl, rfl, rfl⟩
  · dsimp only
    omega
  · dsimp only
    omega

theorem deleteChar_still (s : State) : Still s (deleteChar s) := by
  unfold deleteChar
  dsimp only
  split_ifs <;> first
    | exact Still.refl s
    | exact ⟨⟨rfl, rfl, rfl, rfl, rfl, rfl, rfl, rfl⟩, rfl, rfl⟩

/-- The cursor is before the line that is removed or joined with its own. -/
theorem Located.joined (located : Located s b t c e) {blanks : Bool}
    (follows : s.order[c + 1]? = some line) (further : c + 1 < e)
    (result : (if blanks then deleteLine line s else joinAll abortBbs fuel s.currline s) = some s') :
    ∃ e', Located s' b t c e' := by
  have sound := located.sound
  cases blanks with
  | true =>
    have notBegin := located.beforeHere.ne_begin sound follows (Nat.lt_succ_self c)
    obtain ⟨behind, stop⟩ := deleteLine_behind sound follows (Nat.lt_succ_self c) notBegin further
      located.stop result
    exact ⟨e - 1, located.of_behind behind stop (by omega)⟩
  | false =>
    obtain ⟨behind, e', stop, further'⟩ := joinAll_behind
      (fun _ _ none => absurd none (Option.some_ne_none _).symm) sound located.beforeHere
      located.here located.stop located.before result
    exact ⟨e', located.of_behind behind stop further'⟩

theorem backspaceKey_pressed (located : Located s b t c e)
    (whole : s.currpnt = 0 → s.currline ≠ s.canEditBegin → BackspaceWhole s)
    (result : backspaceKey fuel s = some s') : Pressed s' := by
  unfold backspaceKey at result
  by_cases atStart : s.currpnt = 0
  · rw [if_pos atStart] at result
    by_cases first : s.currline = s.canEditBegin
    · rw [if_pos first] at result
      obtain rfl := Option.some.inj result
      exact located.pressed
    · rw [if_neg first] at result
      cases prev : s.prev s.currline with
      | none =>
        rw [prev] at result
        exact absurd result (Option.some_ne_none _).symm
      | some before =>
        rw [prev] at result
        dsimp only at result
        cases moved : toPrevious before s with
        | none =>
          rw [moved] at result
          exact absurd result (Option.some_ne_none _).symm
        | some after =>
          rw [moved] at result
          dsimp only at result
          by_cases inside : 0 < s.currWindowLine
          · obtain ⟨located', current, follows, further⟩ :=
              toPrevious_inside located prev inside moved
            rw [← current] at result
            obtain ⟨e', joined⟩ := located'.joined follows further result
            exact joined.pressed
          · obtain ⟨removing, current, lines, linelen⟩ :=
              toPrevious_top located first prev (Int.not_lt.1 inside) moved
            split_ifs at result with blanks
            · exact Or.inr ⟨b, c - 1, e - 1, removing.deleted result⟩
            · obtain inside' | blanks' | takes := whole atStart first
              · exact absurd inside' inside
              · exact absurd blanks' blanks
              · have takes' : TakesUp after.currline s.currline after := by
                  rw [TakesUp, lines, linelen, current]
                  exact takes before prev
                rw [← current] at result
                exact Or.inr ⟨b, c - 1, e - 1, removing.joined takes' result⟩
  · rw [if_neg atStart] at result
    obtain rfl := Option.some.inj result
    apply Located.pressed
    apply located.of_still
    apply Still.trans _ (deleteChar_still _)
    exact ⟨⟨rfl, rfl, rfl, rfl, rfl, rfl, rfl, rfl⟩, rfl, rfl⟩

end Backspace

/-! ## Deleting to the end of a line -/

section Kill

variable {s s' : State} {b t c e fuel : Nat}

/-- The current line is deleted, and the next one takes its place. -/
theorem Located.deleted (located : Located s b t c e) {behind : Nat}
    (follows : s.next s.currline = some behind) (notEnd : behind ≠ s.canEditEnd)
    (result : (deleteLine s.currline
      { s with topOfWin := if s.currline = s.topOfWin then behind else s.topOfWin }).map
        (fun s => { s with currline := behind }) = some s') : Located s' b t c (e - 1) := by
  have sound := located.sound
  have begin_le := located.begin_le
  have top_le := located.top_le
  have before := located.before
  have row := located.row
  have number := located.number
  have next := follows
  rw [sound.next_eq located.here] at next
  have further : c + 1 ≠ e := by
    rintro rfl
    exact notEnd (Option.some.inj (next.symm.trans located.stop))
  have place (j : Nat) := getElem?_erase sound.nodup located.here j
  obtain ⟨after, deleted, rfl⟩ := Option.map_eq_some_iff.1 result
  unfold deleteLine at deleted
  dsimp only [State.next] at deleted follows
  rw [follows] at deleted
  dsimp only at deleted
  rw [if_neg fun both => notEnd both.2] at deleted
  obtain rfl := Option.some.inj deleted
  refine ⟨⟨sound.nodup.erase _, fun other member => sound.fresh other (List.mem_of_mem_erase member),
    sound.wide⟩, ?_, ?_, ?_, ?_, begin_le, top_le, by omega, row, number, located.tall⟩
  · dsimp only
    rw [place]
    split_ifs with below first first
    · have := sound.place_unique (first ▸ located.here) located.begin
      omega
    · exact located.begin
    · obtain rfl : c = b := by omega
      exact next
    · obtain rfl : c = b := by omega
      exact absurd (Option.some.inj (located.here.symm.trans located.begin)) first
  · dsimp only
    rw [place]
    split_ifs with below atTop atTop
    · have := sound.place_unique (atTop ▸ located.here) located.top
      omega
    · exact located.top
    · obtain rfl : c = t := by omega
      exact next
    · obtain rfl : c = t := by omega
      exact absurd (Option.some.inj (located.here.symm.trans located.top)) atTop
  · dsimp only
    rw [place, if_neg (Nat.lt_irrefl c)]
    exact next
  · rw [StopAt]
    dsimp only
    rw [place, if_neg (by omega), Nat.sub_add_cancel (by omega)]
    exact located.stop

theorem killKey_located (located : Located s b t c e) (result : killKey fuel s = some s') :
    ∃ e', Located s' b t c e' := by
  unfold killKey at result
  cases follows : s.next s.currline with
  | none =>
    rw [follows] at result
    exact absurd result (Option.some_ne_none _).symm
  | some behind =>
    rw [follows] at result
    dsimp only at result
    by_cases last : behind = s.canEditEnd
    · rw [if_pos last] at result
      obtain rfl := Option.some.inj result
      exact ⟨e, located.of_still ⟨⟨rfl, rfl, rfl, rfl, rfl, rfl, rfl, rfl⟩, rfl, rfl⟩⟩
    rw [if_neg last] at result
    by_cases empty : s.current.len = 0
    · rw [if_pos empty] at result
      exact ⟨e - 1, located.deleted follows last result⟩
    rw [if_neg empty] at result
    by_cases atEnd : s.current.len = s.currpnt
    · rw [if_pos atEnd] at result
      obtain ⟨joined, e', stop, further⟩ := joinAll_behind
        (fun _ _ none => absurd none (Option.some_ne_none _).symm) located.sound
        located.beforeHere located.here located.stop located.before result
      exact ⟨e', located.of_behind joined stop further⟩
    · rw [if_neg atEnd] at result
      obtain rfl := Option.some.inj result
      exact ⟨e, located.of_still ⟨⟨rfl, rfl, rfl, rfl, rfl, rfl, rfl, rfl⟩, rfl, rfl⟩⟩

/-- A change that leaves the cursor in the window or above it, if it is made at all. -/
theorem touch_pressed {change : State → Option State} (located : Located s b t c e)
    (harmless : noTouch s = false → ∀ s', change s = some s' → Pressed s')
    (result : touch change s = some s') : Pressed s' := by
  unfold touch at result
  split_ifs at result with colours
  · obtain rfl := Option.some.inj result
    exact located.pressed
  · exact harmless (Bool.eq_false_iff.2 colours) s' result

theorem veditKill_pressed (located : Located s b t c e) (result : veditKill fuel s = some s') :
    Pressed s' := by
  obtain ⟨after, touched, settled⟩ := Option.bind_eq_some_iff.1 result
  have pressed : Pressed after := by
    apply touch_pressed (located.of_still (indent_still .kill s)) _ touched
    intro _ after' killed
    obtain ⟨e', located'⟩ := killKey_located (located.of_still (indent_still .kill s)) killed
    exact located'.pressed
  obtain ⟨b, t, c, e, located', -⟩ := pressed.settle settled
  exact located'.pressed

end Kill

/-! ## Runs -/

/-- The cursor keeps its place when this key is pressed: it is not sent to the last line, whose
number is one too high; a line is not cut before it; and it does not go back over a line break
out of the window, unless the line it was in is removed as a whole. -/
def Safe (fuel : Nat) (key : Key) (s : State) : Prop :=
  match key with
  | .char _ => noTouch s ∨ ¬CutBefore s
  | .tab => noTouch s ∨ TabWhole fuel 4 s
  | .paste => PasteWhole fuel s
  | .tail => False
  | .backspace =>
    noTouch s ∨ s.currpnt ≠ 0 ∨ s.currline = s.canEditBegin ∨ BackspaceWhole s
  | _ => True

section Runs

variable {s s' : State} {b t c e fuel : Nat} {key : Key}

theorem press_pressed (located : Located s b t c e) (safe : Safe fuel key s)
    (result : press fuel key s = some s') : Pressed s' := by
  have same {same : State} (done : some same = some s') (still : Still s same) : Pressed s' := by
    obtain rfl := Option.some.inj done
    exact (located.of_still still).pressed
  unfold press at result
  cases key with
  | char ch =>
    apply touch_pressed located _ result
    intro colourless after inserted
    obtain ⟨c', e', located'⟩ :=
      insertChar_located located (safe.resolve_left (by simp [colourless])) inserted
    exact located'.pressed
  | tab =>
    apply touch_pressed located _ result
    intro colourless after inserted
    obtain ⟨c', e', located'⟩ :=
      tabKey_located located (safe.resolve_left (by simp [colourless])) inserted
    exact located'.pressed
  | enter =>
    apply touch_pressed located _ result
    intro _ after entered
    obtain rfl := Option.some.inj entered
    exact enter_pressed located
  | toggleDouble => exact same result ⟨⟨rfl, rfl, rfl, rfl, rfl, rfl, rfl, rfl⟩, rfl, rfl⟩
  | redraw => exact same result (Still.refl s)
  | left =>
    obtain rfl := Option.some.inj result
    exact left_pressed located
  | paste => exact paste_pressed located safe result
  | mark => exact same result (markHere_still s)
  | right =>
    obtain rfl := Option.some.inj result
    exact right_pressed located
  | up => exact up_pressed located result
  | down => exact down_pressed located result
  | pageUp => exact pageUp_pressed located result
  | pageDown => exact pageDown_pressed located result
  | home => exact same result ⟨⟨rfl, rfl, rfl, rfl, rfl, rfl, rfl, rfl⟩, rfl, rfl⟩
  | lineEnd => exact same result ⟨⟨rfl, rfl, rfl, rfl, rfl, rfl, rfl, rfl⟩, rfl, rfl⟩
  | start =>
    obtain rfl := Option.some.inj result
    exact toStart_pressed located
  | tail => exact absurd safe id
  | toggleInsert => exact same result ⟨⟨rfl, rfl, rfl, rfl, rfl, rfl, rfl, rfl⟩, rfl, rfl⟩
  | backspace =>
    apply touch_pressed located _ result
    intro colourless after back
    apply backspaceKey_pressed located _ back
    intro atStart notFirst
    obtain colours | inside | first | whole := safe
    · exact absurd colours (by simp [colourless])
    · exact absurd atStart inside
    · exact absurd first notFirst
    · exact whole
  | delete =>
    apply touch_pressed located _ result
    intro _ after deleted
    split_ifs at deleted
    · exact veditKill_pressed located deleted
    · obtain rfl := Option.some.inj deleted
      exact (located.of_still (deleteChar_still s)).pressed
  | deleteLine =>
    apply veditKill_pressed (located.of_still _) result
    exact ⟨⟨rfl, rfl, rfl, rfl, rfl, rfl, rfl, rfl⟩, rfl, rfl⟩
  | kill =>
    apply touch_pressed located _ result
    intro _ after killed
    obtain ⟨e', located'⟩ := killKey_located located killed
    exact located'.pressed
  | other => exact same result (Still.refl s)

theorem veditKey_inWindow {ch : Nat} (located : Located s b t c e)
    (safe : Safe fuel (keyOf ch) (indent (keyOf ch) s)) (result : veditKey fuel ch s = some s') :
    InWindow s' := by
  obtain ⟨after, pressed, settled⟩ := Option.bind_eq_some_iff.1 result
  exact (press_pressed (located.of_still (indent_still _ s)) safe pressed).settle settled

end Runs

/-- A file that has just been opened. -/
structure Opened (s : State) : Prop where
  sound : Sound s
  editable : ∃ b e, s.order[b]? = some s.canEditBegin ∧ StopAt s e ∧ b < e
  top : s.topOfWin = s.canEditBegin
  current : s.currline = s.canEditBegin
  column : s.currpnt = 0
  row : s.currWindowLine = 0
  number : s.currln = 0
  tall : 24 ≤ s.screenLines

/-- What such keys have made of a file that was opened.  Between two keys the size of the screen may
change. -/
inductive Reached (allowed : Nat → Key → State → Prop) : State → Prop where
  | opened {s : State} (opened : Opened s) : Reached allowed s
  | key {s s' : State} {fuel ch rows : Nat} (before : Reached allowed s) (tall : 24 ≤ rows)
      (allows : allowed fuel (keyOf ch) (indent (keyOf ch) { s with screenLines := rows }))
      (result : veditKey fuel ch { s with screenLines := rows } = some s') : Reached allowed s'

/-- The cursor row shows the current line, and the number of the line is right. -/
structure CursorShown (s : State) : Prop where
  row_nonneg : 0 ≤ s.currWindowLine
  row_lt : s.currWindowLine < (s.screenLines : Int) - 1
  row : walk s.order s.currWindowLine.toNat s.topOfWin = some s.currline
  number_nonneg : 0 ≤ s.currln
  number : walk s.order s.currln.toNat s.canEditBegin = some s.currline

theorem InWindow.cursorShown {s : State} (inWindow : InWindow s) : CursorShown s := by
  obtain ⟨b, t, c, e, located, low⟩ := inWindow
  have row := located.row
  have number := located.number
  have begin_le := located.begin_le
  have top_le := located.top_le
  have inside := (List.getElem?_eq_some_iff.1 located.here).1
  have rows : s.currWindowLine.toNat = c - t := by omega
  have numbers : s.currln.toNat = c - b := by omega
  refine ⟨by omega, low, ?_, by omega, ?_⟩
  · rw [rows, walk_eq_getElem? located.sound.nodup located.top (by omega),
      Nat.add_sub_cancel' top_le]
    exact located.here
  · rw [numbers, walk_eq_getElem? located.sound.nodup located.begin (by omega),
      Nat.add_sub_cancel' (begin_le.trans top_le)]
    exact located.here

theorem Opened.inWindow {s : State} (opened : Opened s) : InWindow s := by
  obtain ⟨b, e, begin, stop, before⟩ := opened.editable
  have tall := opened.tall
  have located : Located s b b b e := by
    refine ⟨opened.sound, begin, ?_, ?_, stop, Nat.le_refl b, Nat.le_refl b, before, ?_, ?_, tall⟩
    · rw [opened.top]
      exact begin
    · rw [opened.current]
      exact begin
    · rw [opened.row, Int.sub_self]
    · rw [opened.number, Int.sub_self]
  refine ⟨b, b, b, e, located, ?_⟩
  rw [opened.row]
  omega

theorem Located.resized {s : State} {b t c e rows : Nat} (located : Located s b t c e)
    (tall : 24 ≤ rows) : Located { s with screenLines := rows } b t c e :=
  ⟨⟨located.sound.nodup, located.sound.fresh, located.sound.wide⟩, located.begin, located.top,
    located.here, located.stop, located.begin_le, located.top_le, located.before, located.row,
    located.number, tall⟩

theorem Reached.inWindow {s : State} (reached : Reached Safe s) : InWindow s := by
  induction reached with
  | opened opened => exact opened.inWindow
  | key before tall safe result ih =>
    obtain ⟨b, t, c, e, located, -⟩ := ih
    exact veditKey_inWindow (located.resized tall) safe result

/-- A new file: an empty line, and the line behind what may be edited. -/
def newFile : State where
  order := [0, 1]
  lines _ := ⟨0, false, fun _ => 0⟩
  fresh := 2
  raw _ _ := 0
  canEditBegin := 0
  canEditEnd := 1
  topOfWin := 0
  currline := 0
  markBegin := none
  markEnd := none
  currpnt := 0
  currWindowLine := 0
  currln := 0
  linelen := 79
  lastindent := -1
  screenLines := 24
  insertCharacter := true
  editansi := false
  enabledbchar := true

theorem newFile_opened : Opened newFile :=
  ⟨⟨by decide, by decide, by decide⟩, ⟨0, 1, rfl, rfl, Nat.one_pos⟩, rfl, rfl, rfl, rfl, rfl,
    Nat.le_refl 24⟩

/-- In every run of keys that are safe the cursor row shows the line being edited. -/
theorem reached_cursorShown {s : State} (reached : Reached Safe s) : CursorShown s :=
  reached.inWindow.cursorShown

/-- A line break and a step back over it. -/
theorem cursorShown_after_break : ∃ s₁ s₂, veditKey 1 13 newFile = some s₁ ∧
    veditKey 1 0x104 s₁ = some s₂ ∧ s₂.order = [0, 2, 1] ∧ CursorShown s₂ := by
  refine ⟨_, _, rfl, rfl, rfl, ?_⟩
  apply reached_cursorShown
  have broken := @Reached.key Safe newFile _ 1 13 24 (Reached.opened newFile_opened)
    (Nat.le_refl 24) trivial rfl
  exact @Reached.key Safe _ _ 1 0x104 24 broken (Nat.le_refl 24) trivial rfl

/-- In a new file the key for the end of the text makes the only line the second one. -/
theorem tail_not_cursorShown :
    ¬∀ s, Reached (fun _ _ _ => True) s → CursorShown s := by
  intro all
  have tail := @Reached.key (fun _ _ _ => True) newFile _ 0 20 24 (Reached.opened newFile_opened)
    (Nat.le_refl 24) trivial rfl
  exact absurd (all _ tail).number (by decide)

end Editor

end Fbbs
