import Fbbs.EditorKeys

/-!
# The window of the line editor

The cursor stands in the row of the line that is edited.  What the editor changes stands behind
the current line, so that the window and the numbers of rows and lines are kept, but for some
keys: the number of the last line is one too high, a line above the window is not always taken
up by the one before it, and an overlong line may be cut before the cursor.
-/

namespace Fbbs

namespace Editor

open CharArrays ListNeighbours

/-! ## What stays -/

/-- The pointers, the row and the number of the current line are the same. -/
structure Kept (s s' : State) : Prop where
  canEditBegin : s'.canEditBegin = s.canEditBegin
  canEditEnd : s'.canEditEnd = s.canEditEnd
  topOfWin : s'.topOfWin = s.topOfWin
  currline : s'.currline = s.currline
  currWindowLine : s'.currWindowLine = s.currWindowLine
  currln : s'.currln = s.currln
  linelen : s'.linelen = s.linelen
  screenLines : s'.screenLines = s.screenLines

/-- Every line is in the list once, new lines get other numbers, and there is room for a word. -/
structure Sound (s : State) : Prop where
  nodup : s.order.Nodup
  fresh : ∀ line ∈ s.order, line < s.fresh
  wide : 11 ≤ s.linelen

/-- The end of what may be edited stands at this place. -/
def StopAt (s : State) (e : Nat) : Prop :=
  s.order[e]? = some s.canEditEnd

/-- The list is the same too. -/
structure Still (s s' : State) : Prop where
  kept : Kept s s'
  order : s'.order = s.order
  fresh : s'.fresh = s.fresh

/-- All changes are behind this place in the list. -/
structure Behind (k : Nat) (s s' : State) : Prop where
  kept : Kept s s'
  sound : Sound s'
  front : ∀ i ≤ k, s'.order[i]? = s.order[i]?

namespace Kept

theorem refl (s : State) : Kept s s :=
  ⟨rfl, rfl, rfl, rfl, rfl, rfl, rfl, rfl⟩

theorem trans {s₁ s₂ s₃ : State} (left : Kept s₁ s₂) (right : Kept s₂ s₃) : Kept s₁ s₃ where
  canEditBegin := right.canEditBegin.trans left.canEditBegin
  canEditEnd := right.canEditEnd.trans left.canEditEnd
  topOfWin := right.topOfWin.trans left.topOfWin
  currline := right.currline.trans left.currline
  currWindowLine := right.currWindowLine.trans left.currWindowLine
  currln := right.currln.trans left.currln
  linelen := right.linelen.trans left.linelen
  screenLines := right.screenLines.trans left.screenLines

end Kept

namespace Still

theorem refl (s : State) : Still s s :=
  ⟨Kept.refl s, rfl, rfl⟩

theorem trans {s₁ s₂ s₃ : State} (left : Still s₁ s₂) (right : Still s₂ s₃) : Still s₁ s₃ :=
  ⟨left.kept.trans right.kept, right.order.trans left.order, right.fresh.trans left.fresh⟩

end Still

namespace Behind

variable {k : Nat} {s s' s'' : State}

theorem refl (sound : Sound s) (k : Nat) : Behind k s s :=
  ⟨Kept.refl s, sound, fun _ _ => rfl⟩

theorem trans (left : Behind k s s') (right : Behind k s' s'') : Behind k s s'' where
  kept := left.kept.trans right.kept
  sound := right.sound
  front i upTo := (right.front i upTo).trans (left.front i upTo)

theorem mono (behind : Behind k s s') {k' : Nat} (le : k' ≤ k) : Behind k' s s' :=
  ⟨behind.kept, behind.sound, fun i upTo => behind.front i (upTo.trans le)⟩

/-- What is written in lines changes nothing of this. -/
theorem of_still (sound : Sound s) (still : Still s s') (k : Nat) : Behind k s s' := by
  refine ⟨still.kept, ⟨?_, ?_, ?_⟩, fun i _ => by rw [still.order]⟩
  · rw [still.order]
    exact sound.nodup
  · rw [still.order, still.fresh]
    exact sound.fresh
  · rw [still.kept.linelen]
    exact sound.wide

end Behind

section Places

variable {s : State}

theorem Sound.place_unique (sound : Sound s) {i j line : Nat} (left : s.order[i]? = some line)
    (right : s.order[j]? = some line) : i = j :=
  (List.getElem?_inj (List.getElem?_eq_some_iff.1 left).1 sound.nodup).1 (left.trans right.symm)

theorem Sound.next_eq (sound : Sound s) {i line : Nat} (here : s.order[i]? = some line) :
    s.next line = s.order[i + 1]? :=
  next_eq_getElem? sound.nodup here

theorem Sound.prev_eq (sound : Sound s) {i line : Nat} (here : s.order[i + 1]? = some line) :
    s.prev line = s.order[i]? :=
  prev_eq_getElem? sound.nodup here

theorem getElem?_isSome_of_le {list : List Nat} {i j line : Nat} (upTo : i ≤ j)
    (here : list[j]? = some line) : ∃ other, list[i]? = some other := by
  have inside := (List.getElem?_eq_some_iff.1 here).1
  exact ⟨list[i], List.getElem?_eq_getElem (by omega)⟩

end Places

/-! ## Splitting -/

theorem skipBack_le (skip : UInt8 → Bool) (data : Nat → UInt8) (i : Nat) :
    skipBack skip data i ≤ i := by
  induction i with
  | zero => exact Nat.le_refl 0
  | succ i ih =>
    rw [skipBack]
    split_ifs <;> omega

section Split

variable {s : State} {line pos : Nat}

theorem split_of_lt (long : (s.lines line).len < pos) : split line pos s = s :=
  if_pos long

theorem split_order (short : pos ≤ (s.lines line).len) :
    (split line pos s).order = insertAfter line s.fresh s.order ∧
      (split line pos s).fresh = s.fresh + 1 := by
  unfold split
  dsimp only
  rw [if_neg (Nat.not_lt.2 short)]
  split_ifs <;> exact ⟨rfl, rfl⟩

/-- A split that the cursor stays before keeps all. -/
theorem split_kept (notEnd : line ≠ s.canEditEnd)
    (stays : ¬(line = s.currline ∧ splitPos (s.lines line).data pos ≤ s.currpnt)) :
    Kept s (split line pos s) := by
  by_cases long : (s.lines line).len < pos
  · rw [split_of_lt long]
    exact Kept.refl s
  · unfold split
    dsimp only
    rw [if_neg long]
    split_ifs with marks moves moves
    · exact absurd moves stays
    · exact ⟨rfl, if_neg notEnd, rfl, rfl, rfl, rfl, rfl, rfl⟩
    · exact absurd moves stays
    · exact ⟨rfl, if_neg notEnd, rfl, rfl, rfl, rfl, rfl, rfl⟩

theorem split_sound (sound : Sound s) : Sound (split line pos s) := by
  by_cases long : (s.lines line).len < pos
  · rw [split_of_lt long]
    exact sound
  · obtain ⟨order, fresh⟩ := split_order (Nat.not_lt.1 long)
    have absent : s.fresh ∉ s.order := fun member => Nat.lt_irrefl _ (sound.fresh _ member)
    refine ⟨?_, ?_, ?_⟩
    · rw [order]
      exact nodup_insertAfter sound.nodup absent
    · rw [order, fresh]
      intro other member
      obtain rfl | member := mem_of_mem_insertAfter member
      · exact Nat.lt_succ_self _
      · exact (sound.fresh other member).trans (Nat.lt_succ_self _)
    · have wide := sound.wide
      unfold split
      dsimp only
      rw [if_neg long]
      split_ifs <;> exact wide

theorem split_behind (sound : Sound s) {j : Nat} (here : s.order[j]? = some line)
    (notEnd : line ≠ s.canEditEnd)
    (stays : ¬(line = s.currline ∧ splitPos (s.lines line).data pos ≤ s.currpnt)) :
    Behind j s (split line pos s) := by
  refine ⟨split_kept notEnd stays, split_sound sound, fun i upTo => ?_⟩
  by_cases long : (s.lines line).len < pos
  · rw [split_of_lt long]
  · rw [(split_order (Nat.not_lt.1 long)).1, getElem?_insertAfter sound.nodup here, if_pos upTo]

/-- The end goes on by a place. -/
theorem split_stopAt (sound : Sound s) (short : pos ≤ (s.lines line).len) {j e : Nat}
    (here : s.order[j]? = some line) (before : j < e) (stop : StopAt s e)
    (notEnd : line ≠ s.canEditEnd) : StopAt (split line pos s) (e + 1) := by
  have same : (split line pos s).canEditEnd = s.canEditEnd := by
    unfold split
    dsimp only
    rw [if_neg (Nat.not_lt.2 short)]
    split_ifs <;> exact if_neg notEnd
  rw [StopAt, same, (split_order short).1, getElem?_insertAfter sound.nodup here,
    if_neg (by omega), if_neg (by omega)]
  exact stop

end Split

/-! ## Deleting -/

section Delete

variable {s s' : State} {line : Nat}

theorem deleteLine_behind (sound : Sound s) {j k e : Nat} (here : s.order[j]? = some line)
    (further : k < j) (notBegin : line ≠ s.canEditBegin) (before : j < e) (stop : StopAt s e)
    (deleted : deleteLine line s = some s') : Behind k s s' ∧ StopAt s' (e - 1) := by
  rw [deleteLine, sound.next_eq here] at deleted
  cases follows : s.order[j + 1]? with
  | none =>
    rw [follows] at deleted
    exact absurd deleted (Option.some_ne_none _).symm
  | some behind =>
    rw [follows] at deleted
    dsimp only at deleted
    rw [if_neg fun both => notBegin both.1] at deleted
    obtain rfl := Option.some.inj deleted
    refine ⟨⟨⟨if_neg notBegin, rfl, rfl, rfl, rfl, rfl, rfl, rfl⟩, ⟨?_, ?_, sound.wide⟩, ?_⟩, ?_⟩
    · exact sound.nodup.erase line
    · exact fun other member => sound.fresh other (List.mem_of_mem_erase member)
    · intro i upTo
      rw [getElem?_erase sound.nodup here, if_pos (by omega)]
    · rw [StopAt, getElem?_erase sound.nodup here, if_neg (by omega), Nat.sub_add_cancel (by omega)]
      exact stop

end Delete

/-! ## Joining -/

/-- The start of what may be edited and the current line are not behind this place. -/
structure Before (s : State) (k : Nat) : Prop where
  begin : ∃ b ≤ k, s.order[b]? = some s.canEditBegin
  cursor : ∃ c ≤ k, s.order[c]? = some s.currline

namespace Before

variable {s s' : State} {k : Nat}

theorem of_behind (before : Before s k) (behind : Behind k s s') : Before s' k := by
  obtain ⟨b, upTo, atBegin⟩ := before.begin
  obtain ⟨c, upTo', atCursor⟩ := before.cursor
  refine ⟨⟨b, upTo, ?_⟩, ⟨c, upTo', ?_⟩⟩
  · rw [behind.front b upTo, behind.kept.canEditBegin]
    exact atBegin
  · rw [behind.front c upTo', behind.kept.currline]
    exact atCursor

theorem mono (before : Before s k) {k' : Nat} (le : k ≤ k') : Before s k' := by
  obtain ⟨b, upTo, atBegin⟩ := before.begin
  obtain ⟨c, upTo', atCursor⟩ := before.cursor
  exact ⟨⟨b, upTo.trans le, atBegin⟩, ⟨c, upTo'.trans le, atCursor⟩⟩

theorem ne_begin (before : Before s k) (sound : Sound s) {line j : Nat}
    (here : s.order[j]? = some line) (further : k < j) : line ≠ s.canEditBegin := by
  rintro rfl
  obtain ⟨b, upTo, atBegin⟩ := before.begin
  have := sound.place_unique here atBegin
  omega

theorem ne_cursor (before : Before s k) (sound : Sound s) {line j : Nat}
    (here : s.order[j]? = some line) (further : k < j) : line ≠ s.currline := by
  rintro rfl
  obtain ⟨c, upTo, atCursor⟩ := before.cursor
  have := sound.place_unique here atCursor
  omega

end Before

section Join

variable {s s' : State} {k e line behind : Nat}

theorem setLine_still (s : State) (line : Nat) (value : TextLine) :
    Still s (s.setLine line value) :=
  ⟨⟨rfl, rfl, rfl, rfl, rfl, rfl, rfl, rfl⟩, rfl, rfl⟩

theorem grow_still (s : State) (line behind : Nat) : Still s (grow line behind s) :=
  ⟨⟨rfl, rfl, rfl, rfl, rfl, rfl, rfl, rfl⟩, rfl, rfl⟩

theorem takeUp_behind (sound : Sound s) (before : Before s k)
    (follows : s.order[k + 1]? = some behind) (stop : StopAt s e) (further : k + 1 < e)
    (taken : takeUp line behind s = some s') : Behind k s s' ∧ StopAt s' (e - 1) := by
  unfold takeUp at taken
  split_ifs at taken
  have grown := Behind.of_still sound (grow_still s line behind) k
  obtain ⟨deleted, stop⟩ := deleteLine_behind grown.sound follows (Nat.lt_succ_self k)
    (before.ne_begin sound follows (Nat.lt_succ_self k)) further stop taken
  exact ⟨grown.trans deleted, stop⟩

theorem addBlank_behind (sound : Sound s) (stop : StopAt s e)
    (added : addBlank line s = some s') : Behind k s s' ∧ StopAt s' e := by
  unfold addBlank at added
  dsimp only at added
  split_ifs at added
  · obtain rfl := Option.some.inj added
    exact ⟨Behind.of_still sound (setLine_still s _ _) k, stop⟩
  · obtain rfl := Option.some.inj added
    exact ⟨Behind.refl sound k, stop⟩

/-- The next line is split, or too short for that. -/
theorem split_next (sound : Sound s) (before : Before s k) (follows : s.order[k + 1]? = some behind)
    (notEnd : behind ≠ s.canEditEnd) (stop : StopAt s e) (further : k + 1 < e) (pos : Nat) :
    Behind k s (split behind pos s) ∧
      (split behind pos s = s ∨ StopAt (split behind pos s) (e + 1)) := by
  have notCursor := before.ne_cursor sound follows (Nat.lt_succ_self k)
  constructor
  · exact (split_behind sound follows notEnd fun both => notCursor both.1).mono (Nat.le_succ k)
  · by_cases long : (s.lines behind).len < pos
    · exact Or.inl (split_of_lt long)
    · exact Or.inr (split_stopAt sound (Nat.not_lt.1 long) follows further stop notEnd)

/-- Joining changes nothing up to the line that is joined, and the end comes nearer by at most a
line.  If some of the next line is left there is a line to go on with. -/
theorem join_behind {fuel : Nat} {joined : Bool} (sound : Sound s) (before : Before s k)
    (here : s.order[k]? = some line) (stop : StopAt s e) (further : k < e)
    (result : join fuel line s = some (s', joined)) :
    Behind k s s' ∧ ∃ e', StopAt s' e' ∧ k < e' ∧ e ≤ e' + 1 ∧ (joined = false → k + 1 < e') := by
  induction fuel generalizing s e s' joined with
  | zero => exact absurd result (Option.some_ne_none _).symm
  | succ fuel ih =>
    have unchanged (same : (s, true) = (s', joined)) :
        Behind k s s' ∧ ∃ e', StopAt s' e' ∧ k < e' ∧ e ≤ e' + 1 ∧ (joined = false → k + 1 < e') := by
      obtain ⟨rfl, rfl⟩ := Prod.mk.inj same
      exact ⟨Behind.refl sound k, e, stop, further, by omega, by simp⟩
    rw [join, sound.next_eq here] at result
    cases follows : s.order[k + 1]? with
    | none =>
      rw [follows] at result
      exact unchanged (Option.some.inj result)
    | some behind =>
      rw [follows] at result
      dsimp only at result
      by_cases ends : behind = s.canEditEnd
      · rw [if_pos ends] at result
        exact unchanged (Option.some.inj result)
      rw [if_neg ends] at result
      have room : k + 1 < e := by
        have : e ≠ k + 1 := by
          rintro rfl
          exact ends (Option.some.inj (follows.symm.trans stop))
        omega
      have first := Behind.of_still sound (setLine_still s behind (dashed (s.lines behind))) k
      have firstBefore := before.of_behind first
      have notCursor := before.ne_cursor sound follows (Nat.lt_succ_self k)
      generalize firstEq : s.setLine behind (dashed (s.lines behind)) = s₁ at result first firstBefore
      have firstOrder : s₁.order = s.order := by rw [← firstEq]; rfl
      have firstEnd : s₁.canEditEnd = s.canEditEnd := first.kept.canEditEnd
      have firstFollows : s₁.order[k + 1]? = some behind := by rw [firstOrder]; exact follows
      have firstStop : StopAt s₁ e := by rw [StopAt, firstOrder, firstEnd]; exact stop
      generalize breakPos (s₁.lines behind) ((s₁.lines behind).len -
        ((s₁.lines line).shown + (s₁.lines behind).shown - s₁.linelen) - 1) = pos at result
      split_ifs at result with lost signature fits keeps full
      · obtain ⟨rfl, rfl⟩ := Prod.mk.inj (Option.some.inj result)
        exact ⟨first, e, firstStop, further, by omega, by simp⟩
      · obtain ⟨s₂, taken, same⟩ := Option.map_eq_some_iff.1 result
        obtain ⟨rfl, rfl⟩ := Prod.mk.inj same
        obtain ⟨second, secondStop⟩ :=
          takeUp_behind first.sound firstBefore firstFollows firstStop room taken
        exact ⟨first.trans second, e - 1, secondStop, by omega, by omega, by simp⟩
      · obtain ⟨rfl, rfl⟩ := Prod.mk.inj (Option.some.inj result)
        exact ⟨first, e, firstStop, further, by omega, by simp⟩
      · -- Both lines are too long even when the next one has been split.
        obtain ⟨rfl, rfl⟩ := Prod.mk.inj (Option.some.inj result)
        obtain ⟨second, unsplit | secondStop⟩ := split_next first.sound firstBefore firstFollows
          (firstEnd ▸ ends) firstStop room (pos + 1)
        · rw [unsplit]
          exact ⟨first, e, firstStop, further, by omega, by simp⟩
        · exact ⟨first.trans second, e + 1, secondStop, by omega, by omega, by simp⟩
      · -- The first part is taken up and the second one is left.
        obtain ⟨second, unsplit | secondStop⟩ := split_next first.sound firstBefore firstFollows
          (firstEnd ▸ ends) firstStop room (pos + 1)
        · rw [unsplit] at full
          omega
        have secondHere : (split behind (pos + 1) s₁).order[k]? = some line := by
          rw [(first.trans second).front k (Nat.le_refl k)]
          exact here
        cases inner : join fuel line (split behind (pos + 1) s₁) with
        | none =>
          rw [inner] at result
          exact absurd result (Option.some_ne_none _).symm
        | some after =>
          obtain ⟨s₂, joined₂⟩ := after
          rw [inner] at result
          dsimp only at result
          obtain ⟨third, e₂, thirdStop, further₂, near, -⟩ :=
            ih second.sound (firstBefore.of_behind second) secondHere secondStop (by omega) inner
          cases follows₂ : s₂.next line with
          | none =>
            rw [follows₂] at result
            exact absurd result (Option.some_ne_none _).symm
          | some p =>
            rw [follows₂] at result
            obtain ⟨s₃, added, same⟩ := Option.map_eq_some_iff.1 result
            obtain ⟨rfl, rfl⟩ := Prod.mk.inj same
            obtain ⟨fourth, fourthStop⟩ := addBlank_behind third.sound thirdStop added
            exact ⟨((first.trans second).trans third).trans fourth, e₂, fourthStop, further₂,
              by omega, fun _ => by omega⟩

/-- Joining one line after another changes nothing up to the first of them. -/
theorem joinAll_behind {atNull : State → Option State}
    (harmless : ∀ s s', atNull s = some s' → s' = s) {fuel : Nat} (sound : Sound s)
    (before : Before s k) (here : s.order[k]? = some line) (stop : StopAt s e) (further : k < e)
    (result : joinAll atNull fuel line s = some s') :
    Behind k s s' ∧ ∃ e', StopAt s' e' ∧ k < e' := by
  induction fuel generalizing s k e line with
  | zero => exact absurd result (Option.some_ne_none _).symm
  | succ fuel ih =>
    rw [joinAll] at result
    cases step : join 2 line s with
    | none =>
      rw [step] at result
      exact absurd result (Option.some_ne_none _).symm
    | some after =>
      obtain ⟨s₁, joined⟩ := after
      obtain ⟨first, e₁, firstStop, further₁, -, stays⟩ :=
        join_behind sound before here stop further step
      rw [step] at result
      cases joined with
      | true =>
        obtain rfl := Option.some.inj result
        exact ⟨first, e₁, firstStop, further₁⟩
      | false =>
        have further₂ := stays rfl
        have here₁ : s₁.order[k]? = some line := by
          rw [first.front k (Nat.le_refl k)]
          exact here
        dsimp only at result
        rw [first.sound.next_eq here₁] at result
        cases follows : s₁.order[k + 1]? with
        | none =>
          rw [follows] at result
          obtain rfl := harmless _ _ result
          exact ⟨first, e₁, firstStop, further₁⟩
        | some p =>
          rw [follows] at result
          obtain ⟨second, e₂, secondStop, further₃⟩ := ih first.sound
            ((before.of_behind first).mono (Nat.le_succ k)) follows firstStop further₂ result
          exact ⟨first.trans (second.mono (Nat.le_succ k)), e₂, secondStop, by omega⟩

end Join

/-! ## The cursor in the window -/

/-- The places of the first line that may be edited, of the top of the window, of the current line
and of the end, with the row and the number of the current line as they are. -/
structure Located (s : State) (b t c e : Nat) : Prop where
  sound : Sound s
  begin : s.order[b]? = some s.canEditBegin
  top : s.order[t]? = some s.topOfWin
  here : s.order[c]? = some s.currline
  stop : StopAt s e
  begin_le : b ≤ t
  top_le : t ≤ c
  before : c < e
  row : s.currWindowLine = (c : Int) - t
  number : s.currln = (c : Int) - b
  tall : 24 ≤ s.screenLines

section Located

variable {s s' : State} {b t c e : Nat}

theorem Located.of_behind (located : Located s b t c e) (behind : Behind c s s') {e' : Nat}
    (stop : StopAt s' e') (further : c < e') : Located s' b t c e' where
  sound := behind.sound
  begin := by
    rw [behind.front b (located.begin_le.trans located.top_le), behind.kept.canEditBegin]
    exact located.begin
  top := by
    rw [behind.front t located.top_le, behind.kept.topOfWin]
    exact located.top
  here := by
    rw [behind.front c (Nat.le_refl c), behind.kept.currline]
    exact located.here
  stop := stop
  begin_le := located.begin_le
  top_le := located.top_le
  before := further
  row := behind.kept.currWindowLine.trans located.row
  number := behind.kept.currln.trans located.number
  tall := by
    rw [behind.kept.screenLines]
    exact located.tall

theorem Located.beforeHere (located : Located s b t c e) : Before s c :=
  ⟨⟨b, located.begin_le.trans located.top_le, located.begin⟩, ⟨c, Nat.le_refl c, located.here⟩⟩

theorem Located.ne_end (located : Located s b t c e) : s.currline ≠ s.canEditEnd := by
  intro same
  have stop : s.order[e]? = some s.currline := by
    rw [same]
    exact located.stop
  have := located.sound.place_unique located.here stop
  have := located.before
  omega

/-- The cursor goes with the second part of a line that is split before it. -/
theorem split_moved (pos : Nat) (short : pos ≤ s.current.len)
    (moves : splitPos s.current.data pos ≤ s.currpnt) :
    (split s.currline pos s).canEditBegin = s.canEditBegin ∧
      (split s.currline pos s).topOfWin = s.topOfWin ∧
      (split s.currline pos s).currline = s.fresh ∧
      (split s.currline pos s).currWindowLine = s.currWindowLine + 1 ∧
      (split s.currline pos s).currln = s.currln + 1 ∧
      (split s.currline pos s).screenLines = s.screenLines := by
  have notLong : ¬pos > (s.lines s.currline).len := Nat.not_lt.2 short
  unfold split
  dsimp only
  rw [if_neg notLong]
  split_ifs with marks here here
  · exact ⟨rfl, rfl, rfl, rfl, rfl, rfl⟩
  · exact absurd ⟨rfl, moves⟩ here
  · exact ⟨rfl, rfl, rfl, rfl, rfl, rfl⟩
  · exact absurd ⟨rfl, moves⟩ here

/-- The current line is split: the new line stands behind it, and the cursor is in one of
them. -/
theorem Located.split (located : Located s b t c e) {pos : Nat} (short : pos ≤ s.current.len) :
    ∃ c', (c' = c ∨ c' = c + 1) ∧ Located (split s.currline pos s) b t c' (e + 1) ∧
      (split s.currline pos s).order[c]? = some s.currline ∧
      (split s.currline pos s).order[c + 1]? = some s.fresh := by
  have sound := located.sound
  have further := located.before
  have stop := split_stopAt sound short located.here further located.stop located.ne_end
  have order := (@split_order s s.currline pos short).1
  have place (i : Nat) : (Editor.split s.currline pos s).order[i]? =
      if i ≤ c then s.order[i]? else if i = c + 1 then some s.fresh else s.order[i - 1]? := by
    rw [order]
    exact getElem?_insertAfter sound.nodup located.here i
  have old : (Editor.split s.currline pos s).order[c]? = some s.currline := by
    rw [place, if_pos (Nat.le_refl c)]
    exact located.here
  have new : (Editor.split s.currline pos s).order[c + 1]? = some s.fresh := by
    rw [place, if_neg (by omega), if_pos rfl]
  by_cases moves : splitPos s.current.data pos ≤ s.currpnt
  · obtain ⟨begin, top, currline, row, number, tall⟩ := split_moved pos short moves
    have begin_le := located.begin_le
    have top_le := located.top_le
    refine ⟨c + 1, Or.inr rfl, ⟨split_sound sound, ?_, ?_, ?_, stop, begin_le, by omega, by omega,
      ?_, ?_, ?_⟩, old, new⟩
    · rw [place, if_pos (by omega), begin]
      exact located.begin
    · rw [place, if_pos (by omega), top]
      exact located.top
    · rw [currline]
      exact new
    · rw [row, located.row]
      omega
    · rw [number, located.number]
      omega
    · rw [tall]
      exact located.tall
  · have behind := split_behind sound located.here located.ne_end fun both => moves both.2
    exact ⟨c, Or.inl rfl, located.of_behind behind stop (by omega), old, new⟩

/-- What does not touch the list, the pointers and the numbers. -/
theorem Located.of_still (located : Located s b t c e) (still : Still s s') :
    Located s' b t c e := by
  apply located.of_behind (Behind.of_still located.sound still c) _ located.before
  rw [StopAt, still.order, still.kept.canEditEnd]
  exact located.stop

end Located

end Editor

end Fbbs
