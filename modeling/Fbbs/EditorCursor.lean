import Fbbs.EditorWindow

/-!
# The cursor of the line editor

Every key leaves the cursor in the row of the current line and its number right, but for the
cases in which the source loses one of them.
-/

namespace Fbbs

namespace Editor

open AsciiBytes CharArrays ListNeighbours

/-! ## Inserting characters -/

section Inserting

variable {s s' : State} {b t c e k line : Nat}

theorem seekthestr_le (text : Bytes) {num : Int} (nonneg : 0 ≤ num) :
    (seekthestr text num : Int) ≤ num := by
  induction text generalizing num with
  | nil => exact nonneg
  | cons _ rest ih =>
    rw [seekthestr]
    split_ifs with done
    · omega
    · have := @ih (num - 1) (by omega)
      omega

theorem shown_le (line : TextLine) : line.shown ≤ line.len := by
  unfold TextLine.shown
  omega

/-- The current line is too long, and it would be cut before the cursor. -/
def CutBefore (s : State) : Prop :=
  s.current.shown > s.linelen ∧
    splitPos s.current.data (seekthestr s.current.text s.linelen) ≤ s.currpnt

/-- An overlong line that the cursor stays in is cut. -/
theorem overlong_split (sound : Sound s) (here : s.order[k]? = some line)
    (overlong : (s.lines line).shown > s.linelen)
    (stays : ¬(line = s.currline ∧ splitPos (s.lines line).data
      (seekthestr (s.lines line).text s.linelen) ≤ s.currpnt))
    (stop : StopAt s e) (further : k < e) :
    Behind k s (split line (seekthestr (s.lines line).text s.linelen) s) ∧
      StopAt (split line (seekthestr (s.lines line).text s.linelen) s) (e + 1) ∧
      (split line (seekthestr (s.lines line).text s.linelen) s).order[k + 1]? = some s.fresh ∧
      (split line (seekthestr (s.lines line).text s.linelen) s).next line = some s.fresh := by
  have short : seekthestr (s.lines line).text s.linelen ≤ (s.lines line).len := by
    have := @seekthestr_le (s.lines line).text s.linelen (by omega)
    have := shown_le (s.lines line)
    omega
  have notEnd : line ≠ s.canEditEnd := by
    rintro rfl
    have := sound.place_unique here stop
    omega
  have first := split_behind sound here notEnd stays
  have follows : (split line (seekthestr (s.lines line).text s.linelen) s).order[k + 1]? =
      some s.fresh := by
    rw [(split_order short).1, getElem?_insertAfter sound.nodup here, if_neg (by omega), if_pos rfl]
  have firstHere := here
  rw [← first.front k (Nat.le_refl k)] at firstHere
  refine ⟨first, split_stopAt sound short here further stop notEnd, follows, ?_⟩
  rw [first.sound.next_eq firstHere, follows]

/-- The lines that are cut off behind the current one. -/
theorem cutOverlong_behind {fuel : Nat} (sound : Sound s) (before : Before s k)
    (here : s.order[k]? = some line) (aside : line ≠ s.currline) (stop : StopAt s e)
    (further : k < e) (result : cutOverlong fuel line s = some s') :
    Behind k s s' ∧ ∃ e', StopAt s' e' ∧ k < e' := by
  induction fuel generalizing s k e line with
  | zero => exact absurd result (Option.some_ne_none _).symm
  | succ fuel ih =>
    rw [cutOverlong] at result
    split_ifs at result with overlong
    · obtain ⟨first, firstStop, follows, next⟩ :=
        overlong_split sound here overlong (fun both => aside both.1) stop further
      dsimp only at result
      rw [next] at result
      have firstBefore := before.of_behind first
      obtain ⟨second, e₂, secondStop, further₂⟩ := ih first.sound
        (firstBefore.mono (Nat.le_succ k)) follows
        (firstBefore.ne_cursor first.sound follows (Nat.lt_succ_self k)) firstStop (by omega) result
      exact ⟨first.trans (second.mono (Nat.le_succ k)), e₂, secondStop, by omega⟩
    · obtain rfl := Option.some.inj result
      exact ⟨Behind.refl sound k, e, stop, further⟩

/-- The current line is not cut before the cursor, so that the cursor stays in it. -/
theorem cutOverlong_current {fuel : Nat} (located : Located s b t c e) (whole : ¬CutBefore s)
    (result : cutOverlong fuel s.currline s = some s') :
    Behind c s s' ∧ ∃ e', StopAt s' e' ∧ c < e' := by
  cases fuel with
  | zero => exact absurd result (Option.some_ne_none _).symm
  | succ fuel =>
    rw [cutOverlong] at result
    split_ifs at result with overlong
    · have further := located.before
      obtain ⟨first, firstStop, follows, next⟩ := overlong_split located.sound located.here overlong
        (fun both => whole ⟨overlong, both.2⟩) located.stop further
      dsimp only at result
      rw [next] at result
      have firstBefore := located.beforeHere.of_behind first
      obtain ⟨second, e₂, secondStop, further₂⟩ := cutOverlong_behind first.sound
        (firstBefore.mono (Nat.le_succ c)) follows
        (firstBefore.ne_cursor first.sound follows (Nat.lt_succ_self c)) firstStop (by omega) result
      exact ⟨first.trans (second.mono (Nat.le_succ c)), e₂, secondStop, by omega⟩
    · obtain rfl := Option.some.inj result
      exact ⟨Behind.refl located.sound c, e, located.stop, located.before⟩

theorem putChar_still (p : Nat) (ch : UInt8) (s : State) : Still s (putChar p ch s) := by
  unfold putChar
  dsimp only
  split_ifs <;> exact ⟨⟨rfl, rfl, rfl, rfl, rfl, rfl, rfl, rfl⟩, rfl, rfl⟩

theorem endWord_still {p : Nat} (ended : endWord p s = some s') : Still s s' := by
  unfold endWord at ended
  dsimp only at ended
  split_ifs at ended
  · obtain rfl := Option.some.inj ended
    exact setLine_still s _ _
  · obtain rfl := Option.some.inj ended
    exact Still.refl s

/-- A line is wrapped within it. -/
theorem wrapPos_lt (line : TextLine) (long : 2 ≤ line.len) : (wrapPos line).2 + 1 ≤ line.len := by
  have last := @seekthestr_le line.text ((line.len : Int) - 1) (by omega)
  have before := @seekthestr_le line.text ((line.len : Int) - 2) (by omega)
  have blanks := skipBack_le (fun c => c == blank) line.data
    (seekthestr line.text ((line.len : Int) - 1))
  have word := skipBack_le (fun c => c != blank && !isHigh c) line.data
    (skipBack (fun c => c == blank) line.data (seekthestr line.text ((line.len : Int) - 1)))
  unfold wrapPos
  dsimp only
  split_ifs <;> dsimp only <;> omega

/-- A line that has become full is wrapped, and the cursor stays in one of its parts. -/
theorem wrap_located {fuel : Nat} (located : Located s b t c e)
    (long : 2 ≤ s.current.len) (result : wrap fuel s.currline s = some s') :
    ∃ c' e', Located s' b t c' e' := by
  have inside := wrapPos_lt s.current long
  unfold wrap at result
  change (wrapPos (s.lines s.currline)).2 + 1 ≤ s.current.len at inside
  generalize wrapPos (s.lines s.currline) = place at result inside
  obtain ⟨wordwrap, i⟩ := place
  dsimp only at result inside
  obtain ⟨c₁, near, first, old, new⟩ := located.split inside
  have here : (split s.currline (i + 1) s).next s.currline = some s.fresh := by
    rw [first.sound.next_eq old]
    exact new
  rw [here] at result
  dsimp only at result
  cases ended : (if wordwrap = true then endWord s.fresh (split s.currline (i + 1) s)
    else some (split s.currline (i + 1) s)) with
  | none =>
    rw [ended] at result
    exact absurd result (Option.some_ne_none _).symm
  | some s₂ =>
    rw [ended] at result
    have second : Still (split s.currline (i + 1) s) s₂ := by
      split_ifs at ended
      · exact endWord_still ended
      · obtain rfl := Option.some.inj ended
        exact Still.refl _
    have located₂ := first.of_still second
    have new₂ : s₂.order[c + 1]? = some s.fresh := by
      rw [second.order]
      exact new
    have further := located.before
    obtain ⟨third, e₃, stop, further₃⟩ := joinAll_behind
      (fun s s' same => (Option.some.inj same).symm) located₂.sound
      (located₂.beforeHere.mono (by omega)) new₂ located₂.stop (by omega) result
    exact ⟨c₁, e₃, located₂.of_behind (third.mono (by omega)) stop (by omega)⟩

/-- A character goes into the line of the cursor. -/
theorem insertChar_located {fuel : Nat} {ch : UInt8} (located : Located s b t c e)
    (whole : ¬CutBefore s) (result : insertChar fuel ch s = some s') :
    ∃ c' e', Located s' b t c' e' := by
  unfold insertChar at result
  dsimp only at result
  split_ifs at result with outside
  · obtain rfl := Option.some.inj result
    exact ⟨c, e, located⟩
  cases cut : cutOverlong fuel s.currline s with
  | none =>
    rw [cut] at result
    exact absurd result (Option.some_ne_none _).symm
  | some s₁ =>
    rw [cut] at result
    dsimp only at result
    obtain ⟨first, e₁, stop, further⟩ := cutOverlong_current located whole cut
    have same : { s₁ with currln := s.currln } = s₁ := by
      rw [← first.kept.currln]
    rw [same] at result
    have second := putChar_still s.currline ch s₁
    have located₂ := (located.of_behind first stop further).of_still second
    have current : (putChar s.currline ch s₁).currline = s.currline :=
      second.kept.currline.trans first.kept.currline
    generalize putChar s.currline ch s₁ = s₂ at result located₂ current
    rw [← current] at result
    split_ifs at result with room
    · obtain rfl := Option.some.inj result
      exact ⟨c, e₁, located₂⟩
    · apply wrap_located located₂ _ result
      have wide := located₂.sound.wide
      have := shown_le s₂.current
      have full : ¬(s₂.current.shown < (s₂.linelen : Int) - 1 ∧ s₂.current.len < wrapMargin) := room
      have margin : wrapMargin = 255 := rfl
      omega

end Inserting

/-! ## The end of a key -/

theorem indent_still (key : Key) (s : State) : Still s (indent key s) :=
  ⟨⟨rfl, rfl, rfl, rfl, rfl, rfl, rfl, rfl⟩, rfl, rfl⟩

/-- The cursor has gone above the top of the window, to the line before it. -/
structure Lifted (s : State) (b c e : Nat) : Prop where
  sound : Sound s
  begin : s.order[b]? = some s.canEditBegin
  here : s.order[c]? = some s.currline
  top : s.order[c + 1]? = some s.topOfWin
  stop : StopAt s e
  begin_le : b ≤ c
  before : c < e
  row : s.currWindowLine = -1
  number : s.currln = (c : Int) - b
  tall : 24 ≤ s.screenLines

/-- The cursor is in the window. -/
def InWindow (s : State) : Prop :=
  ∃ b t c e, Located s b t c e ∧ s.currWindowLine < (s.screenLines : Int) - 1

section Settle

variable {s s' : State} {b t c e : Nat}

theorem scrollOn_located {n : Nat} (located : Located s b t c e) (room : t + n ≤ c)
    (result : scrollOn n s = some s') :
    Located s' b (t + n) c e ∧ s'.screenLines = s.screenLines := by
  induction n generalizing s t with
  | zero =>
    obtain rfl := Option.some.inj result
    exact ⟨located, rfl⟩
  | succ n ih =>
    have sound := located.sound
    have before := located.before
    have begin_le := located.begin_le
    obtain ⟨behind, follows⟩ := getElem?_isSome_of_le (by omega : t + 1 ≤ c) located.here
    have notEnd : behind ≠ s.canEditEnd := by
      rintro rfl
      have := sound.place_unique follows located.stop
      omega
    rw [scrollOn, sound.next_eq located.top, follows] at result
    dsimp only at result
    rw [if_neg notEnd] at result
    have row := located.row
    have moved : Located { s with currWindowLine := s.currWindowLine - 1, topOfWin := behind }
        b (t + 1) c e :=
      ⟨⟨sound.nodup, sound.fresh, sound.wide⟩, located.begin, follows, located.here, located.stop,
        by omega, by omega, before, by dsimp only; omega, located.number, located.tall⟩
    have := ih moved (by omega) result
    rwa [Nat.add_right_comm] at this

theorem Located.settle (located : Located s b t c e) (result : settle s = some s') :
    InWindow s' := by
  have row := located.row
  have top_le := located.top_le
  have back : scrollBack s = some s := if_neg (by omega)
  rw [Editor.settle, back] at result
  dsimp only at result
  split_ifs at result with low
  · have tall := located.tall
    obtain ⟨moved, same⟩ := scrollOn_located located (by omega) result
    refine ⟨b, _, c, e, moved, ?_⟩
    rw [moved.row, same]
    omega
  · obtain rfl := Option.some.inj result
    exact ⟨b, t, c, e, located, by omega⟩

theorem Lifted.settle (lifted : Lifted s b c e) (result : settle s = some s') : InWindow s' := by
  have sound := lifted.sound
  have begin_le := lifted.begin_le
  have notBegin : s.topOfWin ≠ s.canEditBegin := by
    intro same
    have top : s.order[c + 1]? = some s.canEditBegin := by
      rw [← same]
      exact lifted.top
    have := sound.place_unique top lifted.begin
    omega
  have back : scrollBack s = some { s with currWindowLine := 0, topOfWin := s.currline } := by
    rw [scrollBack, if_pos (by rw [lifted.row]; decide), if_neg notBegin, sound.prev_eq lifted.top,
      lifted.here]
  have located : Located { s with currWindowLine := 0, topOfWin := s.currline } b c c e :=
    ⟨⟨sound.nodup, sound.fresh, sound.wide⟩, lifted.begin, lifted.here, lifted.here, lifted.stop,
      begin_le, Nat.le_refl c, lifted.before, (Int.sub_self _).symm, lifted.number, lifted.tall⟩
  have tall := lifted.tall
  rw [Editor.settle, back] at result
  dsimp only at result
  rw [if_neg (by omega)] at result
  obtain rfl := Option.some.inj result
  exact ⟨b, c, c, e, located, by dsimp only; omega⟩

end Settle

/-! ## Moving the cursor -/

/-- What a key leaves for the compensations. -/
def Pressed (s : State) : Prop :=
  (∃ b t c e, Located s b t c e) ∨ ∃ b c e, Lifted s b c e

theorem Pressed.settle {s s' : State} (pressed : Pressed s) (result : settle s = some s') :
    InWindow s' := by
  obtain ⟨b, t, c, e, located⟩ | ⟨b, c, e, lifted⟩ := pressed
  · exact located.settle result
  · exact lifted.settle result

section Moving

variable {s s' : State} {b t c e : Nat}

theorem Located.pressed (located : Located s b t c e) : Pressed s :=
  Or.inl ⟨b, t, c, e, located⟩

/-- The list and the pointers that do not move with the cursor are the same. -/
structure SameLines (s s' : State) : Prop where
  order : s'.order = s.order
  fresh : s'.fresh = s.fresh
  canEditBegin : s'.canEditBegin = s.canEditBegin
  canEditEnd : s'.canEditEnd = s.canEditEnd
  linelen : s'.linelen = s.linelen
  screenLines : s'.screenLines = s.screenLines

theorem Sound.of_sameLines (sound : Sound s) (same : SameLines s s') : Sound s' := by
  refine ⟨?_, ?_, ?_⟩
  · rw [same.order]
    exact sound.nodup
  · rw [same.order, same.fresh]
    exact sound.fresh
  · rw [same.linelen]
    exact sound.wide

/-- The cursor and the window elsewhere among the same lines. -/
theorem Located.moved {t' c' : Nat} (located : Located s b t c e) (same : SameLines s s')
    (top : s.order[t']? = some s'.topOfWin) (here : s.order[c']? = some s'.currline)
    (begin_le : b ≤ t') (top_le : t' ≤ c') (before : c' < e)
    (row : s'.currWindowLine = (c' : Int) - t') (number : s'.currln = (c' : Int) - b) :
    Located s' b t' c' e where
  sound := located.sound.of_sameLines same
  begin := by
    rw [same.order, same.canEditBegin]
    exact located.begin
  top := by
    rw [same.order]
    exact top
  here := by
    rw [same.order]
    exact here
  stop := by
    rw [StopAt, same.order, same.canEditEnd]
    exact located.stop
  begin_le := begin_le
  top_le := top_le
  before := before
  row := row
  number := number
  tall := by
    rw [same.screenLines]
    exact located.tall

/-- The cursor goes to the line before, in the window or above it. -/
theorem Located.back (located : Located s b t c e) (same : SameLines s s')
    (top : s'.topOfWin = s.topOfWin) (notBegin : s.currline ≠ s.canEditBegin)
    (here : s.prev s.currline = some s'.currline)
    (row : s'.currWindowLine = s.currWindowLine - 1) (number : s'.currln = s.currln - 1) :
    Pressed s' := by
  have begin_le := located.begin_le
  have top_le := located.top_le
  have before := located.before
  have rowBefore := located.row
  have numberBefore := located.number
  have further : b < c := by
    have : b ≠ c := by
      rintro rfl
      exact notBegin (Option.some.inj (located.here.symm.trans located.begin))
    omega
  obtain ⟨c, rfl⟩ : ∃ before, c = before + 1 := ⟨c - 1, by omega⟩
  rw [located.sound.prev_eq located.here] at here
  by_cases inside : t ≤ c
  · left
    refine ⟨b, t, c, e, located.moved same ?_ here begin_le inside (by omega) (by omega) (by omega)⟩
    rw [top]
    exact located.top
  · right
    have atTop : t = c + 1 := by omega
    refine ⟨b, c, e, located.sound.of_sameLines same, ?_, ?_, ?_, ?_, by omega, by omega, by omega,
      by omega, ?_⟩
    · rw [same.order, same.canEditBegin]
      exact located.begin
    · rw [same.order]
      exact here
    · rw [same.order, top, ← atTop]
      exact located.top
    · rw [StopAt, same.order, same.canEditEnd]
      exact located.stop
    · rw [same.screenLines]
      exact located.tall

/-- The cursor goes to the next line. -/
theorem Located.forward (located : Located s b t c e) (same : SameLines s s')
    (top : s'.topOfWin = s.topOfWin) (here : s.next s.currline = some s'.currline)
    (notEnd : s'.currline ≠ s.canEditEnd)
    (row : s'.currWindowLine = s.currWindowLine + 1) (number : s'.currln = s.currln + 1) :
    Pressed s' := by
  have top_le := located.top_le
  have before := located.before
  have rowBefore := located.row
  have numberBefore := located.number
  rw [located.sound.next_eq located.here] at here
  have further : c + 1 ≠ e := by
    rintro rfl
    exact notEnd (Option.some.inj (here.symm.trans located.stop))
  left
  refine ⟨b, t, c + 1, e, located.moved same ?_ here located.begin_le (by omega) (by omega)
    (by omega) (by omega)⟩
  rw [top]
  exact located.top

theorem left_pressed (located : Located s b t c e) : Pressed (left s) := by
  unfold left
  split_ifs with inside atBegin
  · apply Located.pressed
    exact located.of_still ⟨⟨rfl, rfl, rfl, rfl, rfl, rfl, rfl, rfl⟩, rfl, rfl⟩
  · exact located.pressed
  · cases before : s.prev s.currline with
    | none => exact located.pressed
    | some other => exact located.back ⟨rfl, rfl, rfl, rfl, rfl, rfl⟩ rfl atBegin before rfl rfl

theorem right_pressed (located : Located s b t c e) : Pressed (right s) := by
  unfold right
  split_ifs with inside
  · apply Located.pressed
    exact located.of_still ⟨⟨rfl, rfl, rfl, rfl, rfl, rfl, rfl, rfl⟩, rfl, rfl⟩
  · cases follows : s.next s.currline with
    | none => exact located.pressed
    | some other =>
      dsimp only
      split_ifs with ends
      · exact located.pressed
      · exact located.forward ⟨rfl, rfl, rfl, rfl, rfl, rfl⟩ rfl follows ends rfl rfl

theorem up_pressed (located : Located s b t c e) (result : up s = some s') : Pressed s' := by
  unfold up at result
  split_ifs at result with atBegin
  · obtain rfl := Option.some.inj result
    exact located.pressed
  · cases before : s.prev s.currline with
    | none =>
      rw [before] at result
      exact absurd result (Option.some_ne_none _).symm
    | some other =>
      rw [before] at result
      obtain rfl := Option.some.inj result
      exact located.back ⟨rfl, rfl, rfl, rfl, rfl, rfl⟩ rfl atBegin before rfl rfl

theorem down_pressed (located : Located s b t c e) (result : down s = some s') : Pressed s' := by
  unfold down at result
  cases follows : s.next s.currline with
  | none =>
    rw [follows] at result
    exact absurd result (Option.some_ne_none _).symm
  | some other =>
    rw [follows] at result
    dsimp only at result
    split_ifs at result with ends
    · obtain rfl := Option.some.inj result
      exact located.pressed
    · obtain rfl := Option.some.inj result
      exact located.forward ⟨rfl, rfl, rfl, rfl, rfl, rfl⟩ rfl follows ends rfl rfl

end Moving

end Editor

end Fbbs
