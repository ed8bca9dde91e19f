import Fbbs.EditorJoin

/-!
# What joining makes of the text

How a text takes up the next ones, line by line, as a function of their bytes; `join` and its loop do
exactly that.  Going back over a line break and deleting one keep the text if and only if every
line that is met and begins with a dash begins with two, and what is taken up fits the array.
-/

namespace Fbbs

namespace Editor

open CharArrays ListNeighbours

/-! ## Texts that meet -/

def shownText (text : Bytes) : Int :=
  (text.length : Int) - numAnsChr false text

def breakText (text : Bytes) (num : Int) : Nat :=
  skipBack (fun c => c != blank) (text.getD · 0)
    (skipBack (fun c => c == blank) (text.getD · 0) (seekthestr text num))

/-- The rest of a text that has been broken, with a blank behind it. -/
def endBlank (linelen : Nat) (text : Bytes) : Bytes :=
  if 1 ≤ text.length ∧ (text.length : Int) + 1 - numAnsChr false text < linelen ∧
      text.getD (text.length - 1) 0 ≠ blank then text ++ [blank]
  else text

/-- How much of the next text is taken up: nothing, all of it, or so many bytes. -/
inductive Meeting where
  | apart
  | whole
  | part (pos : Nat)

def meet (linelen : Nat) (own next : Bytes) : Meeting :=
  if next.getD 0 0 = dash ∧ next.length = 2 then .apart
  else
    let ovfl := shownText own + shownText next - linelen
    if ovfl < 0 then .whole
    else
      let pos := breakText next (next.length - ovfl - 1)
      if pos = 0 ∨ linelen > pos + 8 then .apart
      else if shownText own + shownText (next.take (pos + 1)) ≥ linelen then .apart
      else .part (pos + 1)

/-- Every text that is met is clean, and there is room for what is taken up. -/
def Joins (linelen : Nat) : Bytes → List Bytes → Prop
  | _, [] => True
  | own, next :: rest =>
    Clean next ∧
      match meet linelen own next with
      | .apart => True
      | .whole => own.length + next.length ≤ wrapMargin
      | .part pos =>
        own.length + pos ≤ wrapMargin ∧ Joins linelen (endBlank linelen (next.drop pos)) rest

/-! ## Places in a text -/

section Places

variable {line : TextLine} {text : Bytes} {num : Int}

theorem seekthestr_le_length (text : Bytes) (num : Int) : seekthestr text num ≤ text.length := by
  induction text generalizing num with
  | nil => exact Nat.le_refl 0
  | cons c rest ih =>
    rw [seekthestr]
    split_ifs
    · exact Nat.zero_le _
    · exact Nat.succ_le_succ (ih (num - 1))

theorem skipBack_congr {skip : UInt8 → Bool} {data other : Nat → UInt8} {i : Nat}
    (same : ∀ j ≤ i, data j = other j) : skipBack skip data i = skipBack skip other i := by
  induction i with
  | zero => rfl
  | succ i ih =>
    rw [skipBack, skipBack, same (i + 1) (Nat.le_refl _),
      ih fun j upTo => same j (upTo.trans (Nat.le_succ i))]

theorem skipBack_stops {skip : UInt8 → Bool} {data : Nat → UInt8} {i : Nat}
    (found : skipBack skip data i ≠ 0) : skip (data (skipBack skip data i)) = false := by
  induction i with
  | zero => exact absurd rfl found
  | succ i ih =>
    rw [skipBack] at found ⊢
    split_ifs at found ⊢ with skips
    · exact ih found
    · exact Bool.eq_false_iff.2 skips

theorem Fits.shown_eq (fits : Fits True line) : line.shown = shownText line.text := by
  have short := fits.short
  have whole := fits.whole trivial
  have len : line.len = line.text.length := by omega
  rw [TextLine.shown, shownText, len]

theorem Fits.breakPos_eq (fits : Fits True line) (num : Int) :
    breakPos line num = breakText line.text num := by
  have same (i : Nat) (upTo : i ≤ line.text.length) : line.data i = line.text.getD i 0 :=
    (fits.ends.getD_string upTo).symm
  have start := seekthestr_le_length line.text num
  have first : skipBack (fun c => c == blank) line.data (seekthestr line.text num) =
      skipBack (fun c => c == blank) (line.text.getD · 0) (seekthestr line.text num) :=
    skipBack_congr fun j upTo => same j (upTo.trans start)
  have back := skipBack_le (fun c => c == blank) (line.text.getD · 0) (seekthestr line.text num)
  rw [breakPos, breakText, first]
  exact skipBack_congr fun j upTo => same j ((upTo.trans back).trans start)

theorem breakText_blank (found : breakText text num ≠ 0) :
    text.getD (breakText text num) 0 = blank := by
  have stops : (text.getD (breakText text num) 0 != blank) = false := skipBack_stops found
  exact bne_eq_false_iff_eq.1 stops

theorem breakText_lt (found : breakText text num ≠ 0) : breakText text num < text.length := by
  by_contra outside
  have isBlank := breakText_blank found
  rw [List.getD_eq_default _ _ (Nat.not_lt.1 outside)] at isBlank
  exact absurd isBlank (by decide)

/-- Behind a blank the cut is where it is asked for. -/
theorem splitPos_of_blank {data : Nat → UInt8} {pos : Nat} (isBlank : data pos = blank) :
    splitPos data (pos + 1) = pos + 1 := by
  have high : highRun data (pos + 1) = 0 := by
    rw [highRun, isBlank]
    rfl
  have code : isCode (data pos) = false := by
    rw [isBlank]
    rfl
  have even : ¬0 % 2 = 1 := Nat.zero_ne_one
  unfold splitPos
  dsimp only
  rw [high, if_neg even, if_neg]
  rintro ⟨-, inCode⟩
  rw [Nat.add_sub_cancel, code] at inCode
  exact Bool.false_ne_true inCode

theorem clean_take {pos : Nat} (clean : Clean text) (further : 2 ≤ pos) : Clean (text.take pos) := by
  have same (i : Nat) (below : i < pos) : (text.take pos).getD i 0 = text.getD i 0 := by
    rw [List.getD_eq_getElem?_getD, List.getElem?_take_of_lt below, List.getD_eq_getElem?_getD]
  rw [Clean, same 0 (by omega), same 1 (by omega)]
  exact clean

end Places

/-! ## Lines that meet -/

section Meeting

variable {s s' : State} {front rest back : List Nat} {line other : Nat}

/-- A clean line is the same when it has been looked at. -/
theorem looked_of_clean (fit : AllFit True s) (member : other ∈ s.order)
    (clean : Clean (s.lines other).text) : looked other s = s := by
  rw [looked, dashed_of_clean (fit other member) clean, State.setLine, Function.update_eq_self]

/-- `join` up to where the next line would be split, without the look. -/
theorem join_eq (laid : Laid s front line (other :: rest) back) (fit : AllFit True s)
    (clean : Clean (s.lines other).text) (fuel : Nat) : join (fuel + 1) line s =
      if (s.lines other).text.getD 0 0 = dash ∧ (s.lines other).text.length = 2 then some (s, true)
      else
        let ovfl := shownText (s.lines line).text + shownText (s.lines other).text - s.linelen
        if ovfl < 0 then (takeUp line other s).map fun s => (s, true)
        else
          let pos := breakText (s.lines other).text ((s.lines other).text.length - ovfl - 1)
          if pos = 0 ∨ s.linelen > pos + 8 then some (s, true)
          else
            let s := split other (pos + 1) s
            if (s.lines line).shown + (s.lines other).shown ≥ s.linelen then some (s, true)
            else
              match join fuel line s with
              | none => none
              | some (s, _) =>
                match s.next line with
                | none => none
                | some p => (addBlank p s).map fun s => (s, false) := by
  have fits := fit other laid.forward.mem
  have same := looked_of_clean fit laid.forward.mem clean
  have len : (s.lines other).len = (s.lines other).text.length :=
    Nat.le_antisymm fits.short (fits.whole trivial)
  have fold : s.setLine other (dashed (s.lines other)) = s := same
  rw [join, laid.next_cons]
  dsimp only
  rewrite [if_neg laid.ne_end, fold, if_neg (Nat.not_lt.2 fits.ended), fits.shown_eq,
    (fit line laid.mem).shown_eq, fits.breakPos_eq, fits.head, len]
  rfl

/-- The rest of a line gets its blank. -/
theorem addBlank_eq (fits : Fits True (s.lines line)) (room : (s.lines line).text.length < wrapMargin) :
    ∃ s', addBlank line s = some s' ∧
      (s'.lines line).text = endBlank s.linelen (s.lines line).text ∧
      ∀ node ≠ line, s'.lines node = s.lines node := by
  have len : (s.lines line).len = (s.lines line).text.length :=
    Nat.le_antisymm fits.short (fits.whole trivial)
  have last : (s.lines line).text.getD ((s.lines line).text.length - 1) 0 =
      (s.lines line).data ((s.lines line).text.length - 1) :=
    fits.ends.getD_string (Nat.sub_le _ _)
  unfold addBlank endBlank
  dsimp only
  rw [last, ← len]
  split_ifs with ends full
  · omega
  · refine ⟨_, rfl, ?_, fun node ne => Function.update_of_ne ne _ _⟩
    rw [State.setLine]
    dsimp only
    rw [Function.update_self]
    exact blankEnded_text fits room
  · exact ⟨s, rfl, rfl, fun _ _ => rfl⟩

/-- The next line is taken up when both are short enough together. -/
theorem join_whole {fuel : Nat} (laid : Laid s front line (other :: rest) back)
    (fit : AllFit True s) (clean : Clean (s.lines other).text)
    (unsigned : ¬((s.lines other).text.getD 0 0 = dash ∧ (s.lines other).text.length = 2))
    (short : shownText (s.lines line).text + shownText (s.lines other).text - s.linelen < 0) :
    join (fuel + 1) line s = (takeUp line other s).map fun s => (s, true) := by
  rw [join_eq laid fit clean, if_neg unsigned]
  dsimp only
  rw [if_pos short]

/-- The next line is split behind the blank at which it is broken. -/
theorem split_broken {k : Nat} {num : Int} (laid : Laid s front line (other :: rest) back)
    (fit : AllFit True s) (at_break : breakText (s.lines other).text num = k) (found : k ≠ 0) :
    k + 1 ≤ (s.lines other).len ∧ (split other (k + 1) s).lines line = s.lines line ∧
      ((split other (k + 1) s).lines other).text = (s.lines other).text.take (k + 1) ∧
      ((split other (k + 1) s).lines s.fresh).text = (s.lines other).text.drop (k + 1) ∧
      ∀ node, node ≠ other → node ≠ s.fresh →
        (split other (k + 1) s).lines node = s.lines node := by
  subst at_break
  have fits := fit other laid.forward.mem
  have inside := breakText_lt found
  have isBlank := breakText_blank found
  have absent := laid.fresh_notMem
  rw [← laid.order] at absent
  have isData : (s.lines other).text.getD (breakText (s.lines other).text num) 0 =
      (s.lines other).data (breakText (s.lines other).text num) := fits.ends.getD_string inside.le
  rw [isData] at isBlank
  have whole := fits.whole trivial
  have short : breakText (s.lines other).text num + 1 ≤ (s.lines other).len := by omega
  have lines := split_lines short
  rw [splitPos_of_blank isBlank] at lines
  have neFresh : s.fresh ≠ other := fun same => absent (same ▸ laid.forward.mem)
  have neFresh' : line ≠ s.fresh := fun same => absent (same ▸ laid.mem)
  refine ⟨short, ?_, ?_, ?_, fun node ne ne' => ?_⟩
  · rw [lines, Function.update_of_ne laid.ne, Function.update_of_ne neFresh']
  · rw [lines, Function.update_self, firstPart_text fits short]
  · rw [lines, Function.update_of_ne neFresh, Function.update_self, secondPart_text fits short]
  · rw [lines, Function.update_of_ne ne, Function.update_of_ne ne']

/-- A part of the next line is taken up, and the rest goes into a new line. -/
theorem join_part {pos : Nat} (laid : Laid s front line (other :: rest) back)
    (fit : AllFit True s) (clean : Clean (s.lines other).text)
    (broken : meet s.linelen (s.lines line).text (s.lines other).text = .part pos) :
    ((s.lines line).text.length + pos ≤ wrapMargin →
      ∃ s' p, join 2 line s = some (s', false) ∧ Laid s' front line (p :: rest) back ∧
        AllFit True s' ∧ Retains s s' ∧
        (s'.lines p).text = endBlank s.linelen ((s.lines other).text.drop pos) ∧
        ∀ node ∈ rest, s'.lines node = s.lines node) ∧
      (¬(s.lines line).text.length + pos ≤ wrapMargin → join 2 line s = none) := by
  have fits := fit other laid.forward.mem
  have wide := laid.sound.wide
  rw [join_eq laid fit clean]
  unfold meet at broken
  dsimp only at broken ⊢
  generalize at_break : breakText (s.lines other).text ((s.lines other).text.length -
    (shownText (s.lines line).text + shownText (s.lines other).text - s.linelen) - 1) = k at broken ⊢
  split_ifs at broken with signature fitting keeps full
  obtain rfl := Meeting.part.inj broken
  rw [if_neg signature, if_neg fitting, if_neg keeps]
  have found : k ≠ 0 := fun none => keeps (Or.inl none)
  have far : 2 < k + 1 := by
    by_contra near
    exact keeps (Or.inr (by omega))
  obtain ⟨short, own, firstText, secondText, aside⟩ := split_broken laid fit at_break found
  obtain ⟨laid₁, fit₁, first⟩ := split_laid laid fit short
  generalize split other (k + 1) s = s₁ at *
  have taken_length : ((s.lines other).text.take (k + 1)).length = k + 1 :=
    List.length_take_of_le (short.trans fits.short)
  have inner : join 1 line s₁ = (takeUp line other s₁).map fun s => (s, true) := by
    apply join_whole laid₁ fit₁
    · rw [firstText]
      exact clean_take clean far.le
    · rintro ⟨-, two⟩
      rw [firstText, taken_length] at two
      omega
    · rw [own, firstText, first.linelen]
      omega
  have notFull : ¬(s₁.lines line).shown + (s₁.lines other).shown ≥ s₁.linelen := by
    rw [(fit₁ line laid₁.mem).shown_eq, (fit₁ other laid₁.forward.mem).shown_eq, own, firstText,
      first.linelen]
    exact full
  rw [if_neg notFull, inner]
  constructor
  · intro room
    obtain ⟨s₂, taken, laid₂, fit₂, second, lines₂⟩ := takeUp_laid laid₁ fit₁ (by
      rw [own, firstText, taken_length]
      exact room)
    have restText : (s₂.lines s.fresh).text = (s.lines other).text.drop (k + 1) := by
      rw [lines₂, Function.update_of_ne laid₂.ne.symm, secondText]
    have shorter : (s₂.lines s.fresh).text.length < wrapMargin := by
      have := fits.ended
      rw [restText, List.length_drop]
      omega
    obtain ⟨s₃, added, blanked, aside₃⟩ := addBlank_eq (fit₂ s.fresh laid₂.forward.mem) shorter
    obtain ⟨still, fit₃, third⟩ := addBlank_still laid₂.forward fit₂ added
    refine ⟨s₃, s.fresh, ?_, laid₂.of_still still, fit₃, (first.trans second).trans third, ?_, ?_⟩
    · rw [taken]
      dsimp only [Option.map_some]
      rw [laid₂.next_cons]
      dsimp only
      rw [added]
      rfl
    · rw [blanked, restText, second.linelen, first.linelen]
    · intro node member
      have neNew : node ≠ s.fresh := by
        rintro rfl
        exact laid₂.forward.notMem_behind (List.mem_append_left _ member)
      have neLine : node ≠ line := by
        rintro rfl
        exact laid₂.notMem_behind (List.mem_append_left _ (List.mem_cons_of_mem _ member))
      have neOther : node ≠ other := by
        rintro rfl
        exact laid.forward.notMem_behind (List.mem_append_left _ member)
      rw [aside₃ node neNew, lines₂, Function.update_of_ne neLine, aside node neOther neNew]
  · intro room
    rw [takeUp_eq_none]
    · rfl
    · rw [own, firstText, taken_length]
      exact room

/-- Nothing of the next line is taken up. -/
theorem join_apart (laid : Laid s front line (other :: rest) back) (fit : AllFit True s)
    (clean : Clean (s.lines other).text)
    (apart : meet s.linelen (s.lines line).text (s.lines other).text = .apart) :
    ∃ s', join 2 line s = some (s', true) ∧ Retains s s' := by
  have fits := fit other laid.forward.mem
  rw [join_eq laid fit clean]
  unfold meet at apart
  dsimp only at apart ⊢
  generalize at_break : breakText (s.lines other).text ((s.lines other).text.length -
    (shownText (s.lines line).text + shownText (s.lines other).text - s.linelen) - 1) = k at apart ⊢
  by_cases signature : (s.lines other).text.getD 0 0 = dash ∧ (s.lines other).text.length = 2
  · rw [if_pos signature]
    exact ⟨s, rfl, Retains.refl s⟩
  rw [if_neg signature] at apart ⊢
  split_ifs at apart with fitting keeps full
  · rw [if_neg fitting, if_pos keeps]
    exact ⟨s, rfl, Retains.refl s⟩
  · -- Both lines are too long even when the next one has been split.
    obtain ⟨short, own, firstText, -, -⟩ :=
      split_broken laid fit at_break fun none => keeps (Or.inl none)
    obtain ⟨laid₁, fit₁, first⟩ := split_laid laid fit short
    have full' : ((split other (k + 1) s).lines line).shown +
        ((split other (k + 1) s).lines other).shown ≥ (split other (k + 1) s).linelen := by
      rw [(fit₁ line laid₁.mem).shown_eq, (fit₁ other laid₁.forward.mem).shown_eq, own, firstText,
        first.linelen]
      exact full
    rw [if_neg fitting, if_neg keeps, if_pos full']
    exact ⟨_, rfl, first⟩

/-- The texts of some lines. -/
def texts (s : State) (lines : List Nat) : List Bytes :=
  lines.map fun line => (s.lines line).text

/-- A round of joining: it is the last one, it writes behind the array, or a line is left to go on
with. -/
theorem join_round (laid : Laid s front line (other :: rest) back) (fit : AllFit True s)
    (clean : Clean (s.lines other).text) :
    (∃ s', join 2 line s = some (s', true) ∧ Retains s s' ∧
        Joins s.linelen (s.lines line).text (texts s (other :: rest))) ∨
      (join 2 line s = none ∧ ¬Joins s.linelen (s.lines line).text (texts s (other :: rest))) ∨
      ∃ s' p, join 2 line s = some (s', false) ∧ Laid s' front line (p :: rest) back ∧
        AllFit True s' ∧ Retains s s' ∧
        (Joins s'.linelen (s'.lines p).text (texts s' rest) ↔
          Joins s.linelen (s.lines line).text (texts s (other :: rest))) := by
  have joins : Joins s.linelen (s.lines line).text (texts s (other :: rest)) ↔
      match meet s.linelen (s.lines line).text (s.lines other).text with
      | .apart => True
      | .whole => (s.lines line).text.length + (s.lines other).text.length ≤ wrapMargin
      | .part pos =>
        (s.lines line).text.length + pos ≤ wrapMargin ∧
          Joins s.linelen (endBlank s.linelen ((s.lines other).text.drop pos)) (texts s rest) :=
    and_iff_right clean
  rw [joins]
  cases met : meet s.linelen (s.lines line).text (s.lines other).text with
  | apart =>
    obtain ⟨s', result, retains⟩ := join_apart laid fit clean met
    exact Or.inl ⟨s', result, retains, trivial⟩
  | whole =>
    have result : join 2 line s = (takeUp line other s).map fun s => (s, true) := by
      unfold meet at met
      dsimp only at met
      split_ifs at met with signature short
      exact join_whole laid fit clean signature short
    by_cases room : (s.lines line).text.length + (s.lines other).text.length ≤ wrapMargin
    · obtain ⟨s', taken, -, -, retains, -⟩ := takeUp_laid laid fit room
      rw [result, taken]
      exact Or.inl ⟨s', rfl, retains, room⟩
    · rw [result, takeUp_eq_none room]
      exact Or.inr (Or.inl ⟨rfl, room⟩)
  | part pos =>
    obtain ⟨taken, full⟩ := join_part laid fit clean met
    by_cases room : (s.lines line).text.length + pos ≤ wrapMargin
    · obtain ⟨s', p, result, laid', fit', retains, text, aside⟩ := taken room
      have same : texts s' rest = texts s rest :=
        List.map_congr_left fun node member => by rw [aside node member]
      refine Or.inr (Or.inr ⟨s', p, result, laid', fit', retains, ?_⟩)
      rw [text, same, retains.linelen]
      exact (and_iff_right room).symm
    · exact Or.inr (Or.inl ⟨full room, fun both => room both.1⟩)

theorem join_last (laid : Laid s front line [] back) (fuel : Nat) :
    join (fuel + 1) line s = some (s, true) := by
  rw [join, laid.next_end]
  exact if_pos rfl

end Meeting

/-! ## The loop -/

section Loop

variable {s s' : State} {front behind back : List Nat} {line fuel : Nat}
  {atNull : State → Option State}

/-- The loop comes to an end. -/
theorem joinAll_ends (atNull : State → Option State) (laid : Laid s front line behind back)
    (fit : AllFit True s) (joins : Joins s.linelen (s.lines line).text (texts s behind)) :
    ∃ s', joinAll atNull (behind.length + 1) line s = some s' := by
  induction behind generalizing s front line with
  | nil => exact ⟨s, by rw [joinAll, join_last laid]⟩
  | cons other rest ih =>
    obtain ⟨s', result, -, -⟩ | ⟨-, unjoined⟩ | ⟨s', p, result, laid', fit', -, further⟩ :=
      join_round laid fit joins.1
    · exact ⟨s', by rw [joinAll, result]⟩
    · exact absurd joins unjoined
    · rw [joinAll, result]
      dsimp only
      rw [laid'.next_cons]
      exact ih laid'.forward fit' (further.2 joins)

/-- It keeps the text. -/
theorem joinAll_retains (laid : Laid s front line behind back) (fit : AllFit True s)
    (joins : Joins s.linelen (s.lines line).text (texts s behind))
    (result : joinAll atNull fuel line s = some s') : content s' = content s := by
  induction behind generalizing s front line fuel with
  | nil =>
    cases fuel with
    | zero => exact absurd result (Option.some_ne_none _).symm
    | succ fuel =>
      rw [joinAll, join_last laid] at result
      obtain rfl := Option.some.inj result
      rfl
  | cons other rest ih =>
    cases fuel with
    | zero => exact absurd result (Option.some_ne_none _).symm
    | succ fuel =>
      rw [joinAll] at result
      obtain ⟨s₁, step, retains, -⟩ | ⟨-, unjoined⟩ | ⟨s₁, p, step, laid₁, fit₁, retains, further⟩ :=
        join_round laid fit joins.1
      · rw [step] at result
        obtain rfl := Option.some.inj result
        exact retains.content
      · exact absurd joins unjoined
      · rw [step] at result
        dsimp only at result
        rw [laid₁.next_cons] at result
        exact (ih laid₁.forward fit₁ (further.2 joins) result).trans retains.content

theorem AllFit.weaken (fit : AllFit True s) : AllFit False s :=
  fun line member => ⟨(fit line member).ended, (fit line member).short, False.elim⟩

/-- If it keeps the text every line that has been met was clean, and there was room for what was taken
up. -/
theorem joins_of_joinAll (laid : Laid s front line behind back) (fit : AllFit True s)
    (result : joinAll atNull fuel line s = some s') (same : content s' = content s) :
    Joins s.linelen (s.lines line).text (texts s behind) := by
  induction behind generalizing s front line fuel with
  | nil => trivial
  | cons other rest ih =>
    by_cases clean : Clean (s.lines other).text
    · cases fuel with
      | zero => exact absurd result (Option.some_ne_none _).symm
      | succ fuel =>
        rw [joinAll] at result
        obtain ⟨s₁, -, -, joins⟩ | ⟨step, -⟩ | ⟨s₁, p, step, laid₁, fit₁, retains, further⟩ :=
          join_round laid fit clean
        · exact joins
        · rw [step] at result
          exact absurd result (Option.some_ne_none _).symm
        · rw [step] at result
          dsimp only at result
          rw [laid₁.next_cons] at result
          exact further.1 (ih laid₁.forward fit₁ result (same.trans retains.content.symm))
    · -- The text has got a dash that nothing takes away again.
      have more := dashes_lt_looked laid fit.weaken clean
      obtain ⟨-, kept⟩ := joinAll_dashes laid fit.weaken result
      have := kept other rest rfl
      have count : dashes s' = dashes s := by
        rw [dashes, same, dashes]
      omega

theorem joinAll_content (laid : Laid s front line behind back) (fit : AllFit True s)
    (result : joinAll atNull fuel line s = some s') :
    content s' = content s ↔ Joins s.linelen (s.lines line).text (texts s behind) :=
  ⟨joins_of_joinAll laid fit result, fun joins => joinAll_retains laid fit joins result⟩

end Loop

end Editor

end Fbbs
