import Fbbs.EditorText

/-!
# Joining lines of the line editor

A line meets the next one: nothing of it is taken up, or all of it, or a part that fits.  What is left
of it goes on with the line behind it.  The text stays the same but for blanks, unless a line is met
that begins with a single dash.
-/

namespace Fbbs

namespace Editor

open CharArrays ListNeighbours

/-! ## Operations on lines -/

/-- The text and the width of the window are the same. -/
structure Retains (s s' : State) : Prop where
  content : content s' = content s
  linelen : s'.linelen = s.linelen

theorem Retains.refl (s : State) : Retains s s :=
  ⟨rfl, rfl⟩

theorem Retains.trans {s₁ s₂ s₃ : State} (left : Retains s₁ s₂) (right : Retains s₂ s₃) :
    Retains s₁ s₃ :=
  ⟨right.content.trans left.content, right.linelen.trans left.linelen⟩

section Operations

variable {s s' : State} {front behind back : List Nat} {line other pos : Nat} {exact : Prop}

theorem splitPos_le (data : Nat → UInt8) (pos : Nat) : splitPos data pos ≤ pos := by
  have upTo : (if highRun data pos % 2 = 1 then pos - 1 else pos) ≤ pos := by
    split_ifs <;> omega
  unfold splitPos
  dsimp only
  generalize (if highRun data pos % 2 = 1 then pos - 1 else pos) = start at upTo
  have := skipBack_le (fun c => isCode c && c != escape) data (start - 1)
  split_ifs <;> omega

theorem split_lines (short : pos ≤ (s.lines line).len) : (split line pos s).lines =
    Function.update
      (Function.update s.lines s.fresh
        (secondPart (s.lines line) (splitPos (s.lines line).data pos) (s.raw s.fresh)))
      line (firstPart (s.lines line) (splitPos (s.lines line).data pos)) := by
  unfold split
  dsimp only
  rw [if_neg (Nat.not_lt.2 short)]
  split_ifs <;> rfl

theorem split_pointers (short : pos ≤ (s.lines line).len) (notEnd : line ≠ s.canEditEnd) :
    (split line pos s).canEditBegin = s.canEditBegin ∧
      (split line pos s).canEditEnd = s.canEditEnd ∧ (split line pos s).linelen = s.linelen := by
  unfold split
  dsimp only
  rw [if_neg (Nat.not_lt.2 short)]
  split_ifs <;> exact ⟨rfl, if_neg notEnd, rfl⟩

/-- The next line is split. -/
theorem split_laid (laid : Laid s front line (other :: behind) back) (fit : AllFit exact s)
    (short : pos ≤ (s.lines other).len) :
    Laid (split other pos s) front line (other :: s.fresh :: behind) back ∧
      AllFit exact (split other pos s) ∧ Retains s (split other pos s) := by
  have absent := laid.fresh_notMem
  have fits := fit other laid.forward.mem
  have inside := (splitPos_le (s.lines other).data pos).trans short
  obtain ⟨begin, stop, linelen⟩ := split_pointers short laid.ne_end
  have order : (split other pos s).order =
      front ++ line :: (other :: s.fresh :: behind ++ s.canEditEnd :: back) := by
    have forward := laid.forward
    rw [(split_order short).1, forward.order, insertAfter_append forward.notMem_front,
      List.append_assoc]
    rfl
  have lines := split_lines short
  have first : (split other pos s).lines other =
      firstPart (s.lines other) (splitPos (s.lines other).data pos) := by
    rw [lines, Function.update_self]
  have neFresh : s.fresh ≠ other := by
    rintro same
    rw [same, ← laid.order] at absent
    exact absent laid.forward.mem
  have second : (split other pos s).lines s.fresh =
      secondPart (s.lines other) (splitPos (s.lines other).data pos) (s.raw s.fresh) := by
    rw [lines, Function.update_of_ne neFresh, Function.update_self]
  have aside (node : Nat) (ne : node ≠ other) (ne' : node ≠ s.fresh) :
      (split other pos s).lines node = s.lines node := by
    rw [lines, Function.update_of_ne ne, Function.update_of_ne ne']
  have same (nodes : List Nat) (notOther : other ∉ nodes) (notFresh : s.fresh ∉ nodes) :
      textOf (split other pos s) nodes = textOf s nodes := by
    apply textOf_congr
    rintro node member
    apply aside
    · rintro rfl
      exact notOther member
    · rintro rfl
      exact notFresh member
  refine ⟨⟨split_sound laid.sound, ?_, ?_⟩, ?_, ?_, linelen⟩
  · rw [order, stop]
  · rw [begin]
    exact laid.begin
  · intro node member
    by_cases isOther : node = other
    · rw [isOther, first]
      exact firstPart_fits fits inside
    · by_cases isFresh : node = s.fresh
      · rw [isFresh, second]
        exact secondPart_fits fits inside _
      · rw [aside node isOther isFresh]
        apply fit
        rw [(split_order short).1] at member
        exact (mem_of_mem_insertAfter member).resolve_left isFresh
  · have forward := laid.forward
    have parts : (split other pos s).order =
        (front ++ [line]) ++ other :: s.fresh :: (behind ++ s.canEditEnd :: back) := by
      rw [order, List.append_assoc]
      rfl
    have notFresh : s.fresh ∉ (front ++ [line]) ++ other :: (behind ++ s.canEditEnd :: back) := by
      rw [← forward.order, laid.order]
      exact absent
    rw [List.mem_append, List.mem_cons, not_or, not_or] at notFresh
    apply content_of_textOf
    rw [parts, textOf_append, textOf_cons, textOf_cons, first, second, firstPart_text fits inside,
      secondPart_text fits inside, same _ forward.notMem_front notFresh.1,
      same _ forward.notMem_behind notFresh.2.2, forward.textOf_eq, ← List.append_assoc,
      ← List.append_assoc, List.append_assoc (textOf s _), List.take_append_drop, List.append_assoc]

/-- The next line is taken up, if there is room for it. -/
theorem takeUp_laid (laid : Laid s front line (other :: behind) back) (fit : AllFit exact s)
    (room : (s.lines line).text.length + (s.lines other).text.length ≤ wrapMargin) :
    ∃ s', takeUp line other s = some s' ∧ Laid s' front line behind back ∧ AllFit exact s' ∧
      Retains s s' ∧
      s'.lines = Function.update s.lines line (joined (s.lines line) (s.lines other)) := by
  have forward := laid.forward
  have grown := laid.of_still (grow_still s line other)
  have sound := grown.sound
  have joinedFits := joined_fits (fit line laid.mem) (fit other forward.mem) room
  obtain ⟨after, rest, follows⟩ : ∃ after rest, behind ++ s.canEditEnd :: back = after :: rest := by
    cases behind with
    | nil => exact ⟨_, _, rfl⟩
    | cons first rest => exact ⟨_, _, rfl⟩
  have next : (grow line other s).next other = some after := by
    rw [State.next, grown.forward.order]
    have stop : (grow line other s).canEditEnd = s.canEditEnd := rfl
    rw [stop, follows]
    exact next_append forward.notMem_front
  have erased : s.order.erase other = front ++ line :: (behind ++ s.canEditEnd :: back) := by
    rw [forward.order, erase_append forward.notMem_front, List.append_assoc]
    rfl
  obtain ⟨s', taken, order, lines, fresh, begin, stop, linelen⟩ : ∃ s', takeUp line other s = some s' ∧
      s'.order = s.order.erase other ∧
      s'.lines = Function.update s.lines line (joined (s.lines line) (s.lines other)) ∧
      s'.fresh = s.fresh ∧ s'.canEditBegin = s.canEditBegin ∧ s'.canEditEnd = s.canEditEnd ∧
      s'.linelen = s.linelen := by
    rw [takeUp, if_neg (Nat.not_lt.2 room), deleteLine, next]
    dsimp only
    rw [if_neg fun both => laid.ne_begin both.1]
    exact ⟨_, rfl, rfl, rfl, rfl, if_neg laid.ne_begin, rfl, rfl⟩
  rw [erased] at order
  have laid' : Laid s' front line behind back := by
    refine ⟨⟨?_, ?_, ?_⟩, ?_, ?_⟩
    · rw [order, ← erased]
      exact laid.sound.nodup.erase other
    · rw [order, ← erased, fresh]
      exact fun node member => laid.sound.fresh node (List.mem_of_mem_erase member)
    · rw [linelen]
      exact laid.sound.wide
    · rw [order, stop]
    · rw [begin]
      exact laid.begin
  have own : s'.lines line = joined (s.lines line) (s.lines other) := by
    rw [lines, Function.update_self]
  have aside (node : Nat) (ne : node ≠ line) : s'.lines node = s.lines node := by
    rw [lines, Function.update_of_ne ne]
  have same (nodes : List Nat) (absent : line ∉ nodes) : textOf s' nodes = textOf s nodes := by
    apply textOf_congr
    rintro node member
    apply aside
    rintro rfl
    exact absent member
  refine ⟨s', taken, laid', ?_, ⟨?_, linelen⟩, lines⟩
  · intro node member
    by_cases isLine : node = line
    · rw [isLine, own]
      exact joinedFits
    · rw [aside node isLine]
      apply fit
      rw [order, ← erased] at member
      exact List.mem_of_mem_erase member
  · apply content_of_textOf
    rw [laid'.textOf_eq, laid.textOf_eq, own, joined_text (fit line laid.mem) room, stop,
      same front laid.notMem_front, List.append_assoc, List.cons_append, textOf_cons]
    rw [same (behind ++ s.canEditEnd :: back) fun member =>
      laid.notMem_behind (List.mem_cons_of_mem _ member)]

theorem takeUp_eq_none
    (full : ¬(s.lines line).text.length + (s.lines other).text.length ≤ wrapMargin) :
    takeUp line other s = none :=
  if_pos (Nat.lt_of_not_le full)

/-- A blank is put at the end of a line, or not. -/
theorem addBlank_still (laid : Laid s front line behind back) (fit : AllFit exact s)
    (added : addBlank line s = some s') : Still s s' ∧ AllFit exact s' ∧ Retains s s' := by
  unfold addBlank at added
  dsimp only at added
  split_ifs at added with ends full
  · obtain rfl := Option.some.inj added
    have room := Nat.lt_of_not_le full
    have fits := fit line laid.mem
    refine ⟨setLine_still s _ _, fit.setLine (blankEnded_fits fits room), ?_, rfl⟩
    have text := blankEnded_text fits room
    rw [content, content, laid.textOf_setLine, laid.textOf_eq]
    change (textOf s front ++ ((blankEnded (s.lines line)).text ++ _)).filter _ = _
    rw [text]
    simp
  · obtain rfl := Option.some.inj added
    exact ⟨Still.refl s, fit, Retains.refl s⟩

end Operations

/-! ## Dashes -/

def dashes (s : State) : Nat :=
  (content s).count dash

section Dashes

variable {s s' : State} {front behind back : List Nat} {line other : Nat}

theorem dashes_eq (s : State) : dashes s = (textOf s s.order).count dash := by
  rw [dashes, content, List.count_filter (by decide)]

theorem Laid.dashes_setLine (laid : Laid s front line behind back) (value : TextLine) :
    dashes (s.setLine line value) + (s.lines line).text.count dash =
      dashes s + value.text.count dash := by
  rw [dashes_eq, dashes_eq, laid.textOf_setLine, laid.textOf_eq, List.count_append,
    List.count_append, List.count_append, List.count_append]
  omega

theorem Retains.dashes (retains : Retains s s') : dashes s' = dashes s := by
  rw [Editor.dashes, retains.content, Editor.dashes]

/-- The next line as `join` looks at it. -/
def looked (behind : Nat) (s : State) : State :=
  s.setLine behind (dashed (s.lines behind))

theorem dashes_le_looked (laid : Laid s front line (other :: behind) back)
    (fit : AllFit False s) : dashes s ≤ dashes (looked other s) := by
  have count := laid.forward.dashes_setLine (dashed (s.lines other))
  have := count_le_dashed (fit other laid.forward.mem)
  rw [looked]
  omega

theorem dashes_lt_looked (laid : Laid s front line (other :: behind) back) (fit : AllFit False s)
    (unclean : ¬Clean (s.lines other).text) : dashes s < dashes (looked other s) := by
  have count := laid.forward.dashes_setLine (dashed (s.lines other))
  have := count_dashed_of_not_clean (fit other laid.forward.mem) unclean
  rw [looked]
  omega

theorem takeUp_dashes (laid : Laid s front line (other :: behind) back) (fit : AllFit False s)
    (taken : takeUp line other s = some s') :
    Laid s' front line behind back ∧ AllFit False s' ∧ dashes s ≤ dashes s' := by
  have room : (s.lines line).text.length + (s.lines other).text.length ≤ wrapMargin := by
    by_contra full
    rw [takeUp_eq_none full] at taken
    exact absurd taken (Option.some_ne_none _).symm
  obtain ⟨s₁, taken', laid', fit', retains, -⟩ := takeUp_laid laid fit room
  obtain rfl := Option.some.inj (taken.symm.trans taken')
  exact ⟨laid', fit', retains.dashes.ge⟩

/-- Splitting the next line, which may be too short for it. -/
theorem split_dashes (laid : Laid s front line (other :: behind) back) (fit : AllFit False s)
    (pos : Nat) :
    ∃ behind', Laid (split other pos s) front line behind' back ∧ AllFit False (split other pos s) ∧
      behind.length ≤ behind'.length ∧ dashes s ≤ dashes (split other pos s) := by
  by_cases short : pos ≤ (s.lines other).len
  · obtain ⟨laid', fit', retains⟩ := split_laid laid fit short
    refine ⟨_, laid', fit', ?_, retains.dashes.ge⟩
    rw [List.length_cons, List.length_cons]
    omega
  · rw [split_of_lt (Nat.lt_of_not_le short)]
    exact ⟨other :: behind, laid, fit, Nat.le_succ _, Nat.le_refl _⟩

/-- After a line was joined with a part of the next one, a blank ends what is left of that one. -/
theorem addBlank_next_dashes {joined : Bool} (laid : Laid s front line behind back)
    (fit : AllFit False s) (some_behind : behind ≠ [])
    (added : (match s.next line with
      | none => none
      | some p => (addBlank p s).map fun s => (s, false)) = some (s', joined)) :
    Laid s' front line behind back ∧ AllFit False s' ∧ dashes s ≤ dashes s' := by
  obtain ⟨p, rest, rfl⟩ := List.exists_cons_of_ne_nil some_behind
  rw [laid.next_cons] at added
  obtain ⟨s₁, ended, same⟩ := Option.map_eq_some_iff.1 added
  obtain ⟨rfl, rfl⟩ := Prod.mk.inj same
  obtain ⟨still, fit', retains⟩ := addBlank_still laid.forward fit ended
  exact ⟨laid.of_still still, fit', retains.dashes.ge⟩

/-- Joining never takes dashes out of the text: at least those stay that are there when the next line
has been looked at. -/
theorem join_dashes {fuel : Nat} {joined : Bool} (laid : Laid s front line behind back)
    (fit : AllFit False s) (result : join fuel line s = some (s', joined)) :
    ∃ behind', Laid s' front line behind' back ∧ AllFit False s' ∧
      behind.length ≤ behind'.length + 1 ∧ (joined = false → behind' ≠ []) ∧ dashes s ≤ dashes s' ∧
      ∀ other rest, behind = other :: rest → dashes (looked other s) ≤ dashes s' := by
  induction fuel generalizing s s' behind joined with
  | zero => exact absurd result (Option.some_ne_none _).symm
  | succ fuel ih =>
    cases behind with
    | nil =>
      rw [join, laid.next_end] at result
      dsimp only at result
      rw [if_pos rfl] at result
      obtain ⟨rfl, rfl⟩ := Prod.mk.inj (Option.some.inj result)
      exact ⟨[], laid, fit, Nat.zero_le _, by simp, Nat.le_refl _, by simp⟩
    | cons other rest =>
      have laid₁ : Laid (looked other s) front line (other :: rest) back :=
        laid.of_still (setLine_still s _ _)
      have fit₁ (ended : ¬((looked other s).lines other).text.length > wrapMargin) :
          AllFit False (looked other s) := by
        have own : (looked other s).lines other = dashed (s.lines other) :=
          Function.update_self _ _ _
        rw [own] at ended
        exact fit.setLine (dashed_fits (fit other laid.forward.mem) ended)
      have first := dashes_le_looked laid fit
      suffices rest_joins : ∃ behind', Laid s' front line behind' back ∧ AllFit False s' ∧
          rest.length ≤ behind'.length ∧ (joined = false → behind' ≠ []) ∧
          dashes (looked other s) ≤ dashes s' by
        obtain ⟨behind', laid', fit', length, stays, count⟩ := rest_joins
        refine ⟨behind', laid', fit', Nat.succ_le_succ length, stays, first.trans count, ?_⟩
        rintro _ _ same
        obtain ⟨rfl, -⟩ := List.cons.inj same
        exact count
      rw [join, laid.next_cons] at result
      dsimp only at result
      rw [if_neg laid.ne_end] at result
      have fold : s.setLine other (dashed (s.lines other)) = looked other s := rfl
      rw [fold] at result
      generalize looked other s = s₁ at result laid₁ fit₁
      generalize breakPos (s₁.lines other) ((s₁.lines other).len -
        ((s₁.lines line).shown + (s₁.lines other).shown - s₁.linelen) - 1) = pos at result
      split_ifs at result with lost signature fits keeps full
      · obtain ⟨rfl, rfl⟩ := Prod.mk.inj (Option.some.inj result)
        exact ⟨other :: rest, laid₁, fit₁ lost, Nat.le_succ _, by simp, Nat.le_refl _⟩
      · obtain ⟨s₂, taken, same⟩ := Option.map_eq_some_iff.1 result
        obtain ⟨rfl, rfl⟩ := Prod.mk.inj same
        obtain ⟨laid₂, fit₂, count⟩ := takeUp_dashes laid₁ (fit₁ lost) taken
        exact ⟨rest, laid₂, fit₂, Nat.le_refl _, by simp, count⟩
      · obtain ⟨rfl, rfl⟩ := Prod.mk.inj (Option.some.inj result)
        exact ⟨other :: rest, laid₁, fit₁ lost, Nat.le_succ _, by simp, Nat.le_refl _⟩
      · obtain ⟨rfl, rfl⟩ := Prod.mk.inj (Option.some.inj result)
        obtain ⟨behind₂, laid₂, fit₂, length, count⟩ := split_dashes laid₁ (fit₁ lost) (pos + 1)
        exact ⟨behind₂, laid₂, fit₂, length, by simp, count⟩
      · have short : pos + 1 ≤ (s₁.lines other).len := by
          by_contra long
          rw [split_of_lt (Nat.lt_of_not_le long)] at full
          omega
        obtain ⟨laid₂, fit₂, second⟩ := split_laid laid₁ (fit₁ lost) short
        cases inner : join fuel line (split other (pos + 1) s₁) with
        | none =>
          rw [inner] at result
          exact absurd result (Option.some_ne_none _).symm
        | some after =>
          obtain ⟨s₃, joined₃⟩ := after
          rw [inner] at result
          dsimp only at result
          obtain ⟨behind₃, laid₃, fit₃, length, -, count, -⟩ := ih laid₂ fit₂ inner
          rw [List.length_cons, List.length_cons] at length
          have some_behind : behind₃ ≠ [] := by
            rintro rfl
            exact absurd length (by simp)
          obtain ⟨laid₄, fit₄, fourth⟩ := addBlank_next_dashes laid₃ fit₃ some_behind result
          exact ⟨behind₃, laid₄, fit₄, by omega, fun _ => some_behind,
            (second.dashes.ge.trans count).trans fourth⟩

/-- Neither does joining one line after another. -/
theorem joinAll_dashes {atNull : State → Option State} {fuel : Nat}
    (laid : Laid s front line behind back) (fit : AllFit False s)
    (result : joinAll atNull fuel line s = some s') :
    dashes s ≤ dashes s' ∧
      ∀ other rest, behind = other :: rest → dashes (looked other s) ≤ dashes s' := by
  induction fuel generalizing s front line behind with
  | zero => exact absurd result (Option.some_ne_none _).symm
  | succ fuel ih =>
    rw [joinAll] at result
    cases step : join 2 line s with
    | none =>
      rw [step] at result
      exact absurd result (Option.some_ne_none _).symm
    | some after =>
      obtain ⟨s₁, joined⟩ := after
      obtain ⟨behind₁, laid₁, fit₁, -, stays, count, met⟩ := join_dashes laid fit step
      rw [step] at result
      cases joined with
      | true =>
        obtain rfl := Option.some.inj result
        exact ⟨count, met⟩
      | false =>
        cases behind₁ with
        | nil => exact absurd rfl (stays rfl)
        | cons p rest =>
          dsimp only at result
          rw [laid₁.next_cons] at result
          obtain ⟨further, -⟩ := ih laid₁.forward fit₁ result
          exact ⟨count.trans further,
            fun other rest same => (met other rest same).trans further⟩

end Dashes

end Editor

end Fbbs
