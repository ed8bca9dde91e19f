import Mathlib.Algebra.Order.Ring.Int
import Mathlib.Logic.Function.Iterate
import Fbbs.DisplayColumns
import Fbbs.Pager

/-!
# Lines of the pager

Reading on from the start the pager cuts a text in lines.  A line is as it should be unless a
tab does not fit in it at all, a character is made of a byte and the line feed behind it, or a
full line is followed by an escape sequence that the end of the text or a line feed breaks off.
-/

namespace Fbbs

namespace Pager

open AsciiBytes

abbrev Bytes := List UInt8

/-- The bytes from `begin` up to `stop`. -/
def Text.slice (text : Text) (begin stop : Nat) : Bytes :=
  (List.range' begin (stop - begin)).map text.buf

/-! ## Rounds of the loop -/

theorem ne_lineFeed_of_isHigh {c : UInt8} (lead : isHigh c) : c ≠ lineFeed := by
  rintro rfl
  exact absurd lead (by decide)

theorem ne_escape_of_isHigh {c : UInt8} (lead : isHigh c) : c ≠ escape := by
  rintro rfl
  exact absurd lead (by decide)

theorem ne_tab_of_isHigh {c : UInt8} (lead : isHigh c) : c ≠ tab := by
  rintro rfl
  exact absurd lead (by decide)

section Rounds

variable {width : Int} {c : UInt8} {len len' : Int} {inEsc inEsc' : Bool} {skipped taken : Nat}

/-- Another round goes on behind one byte, or behind a character of two bytes. -/
theorem round_eq_next (goesOn : round width c len inEsc = .next skipped len' inEsc') :
    c ≠ lineFeed ∧ (0 < len → 0 < len') ∧
      (skipped = 0 ∨ skipped = 1 ∧ isHigh c ∧ inEsc = false ∧ len' = len - 2 ∧ inEsc' = false) := by
  unfold round at goesOn
  dsimp only at goesOn
  split_ifs at goesOn <;> simp only [Outcome.next.injEq] at goesOn <;> grind

/-- The loop ends at a line feed, before a tab or a character that does not fit, or behind the
byte or the character that fills the line. -/
theorem round_eq_done (ends : round width c len inEsc = .done taken len') :
    (c = lineFeed ∧ taken = 1 ∧ len' = len) ∨
      (c ≠ lineFeed ∧ taken = 0 ∧ len' < 0 ∧ inEsc = false ∧
        (c = tab ∧ len < tabWidth width len ∨ isHigh c ∧ len < 2)) ∨
      (c ≠ lineFeed ∧ taken = 1 ∧ len' = 0) ∨
      (c ≠ lineFeed ∧ taken = 2 ∧ len' = 0 ∧ isHigh c ∧ inEsc = false ∧ len = 2) := by
  unfold round at ends
  dsimp only at ends
  split_ifs at ends <;> simp only [Outcome.done.injEq] at ends <;> grind

theorem round_lead (lead : isHigh c) (fits : 2 ≤ len) :
    round width c len false = if len = 2 then .done 2 0 else .next 1 (len - 2) false := by
  rw [round, if_neg (ne_lineFeed_of_isHigh lead), if_neg (ne_escape_of_isHigh lead),
    if_neg Bool.false_ne_true, if_neg (ne_tab_of_isHigh lead), if_pos lead]
  dsimp only
  rw [if_neg (by omega)]
  by_cases full : len = 2
  · rw [if_pos (by omega), if_pos full, full]
    rfl
  · rw [if_neg (by omega), if_neg full]

theorem round_tab (overfull : len < tabWidth width len) :
    round width tab len false = .done 0 (len - tabWidth width len) := by
  have notFeed : tab ≠ lineFeed := by decide
  have notEscape : tab ≠ escape := by decide
  rw [round, if_neg notFeed, if_neg notEscape, if_neg Bool.false_ne_true, if_pos rfl]
  exact if_pos (by omega)

end Rounds

/-! ## The loop -/

section Scan

variable {text : Text} {width : Int} {ptr : Nat} {len : Int} {inEsc : Bool}

theorem scan_of_end (outside : text.size ≤ ptr) (prop : LineProp) :
    scan text width ptr len inEsc prop = ⟨ptr + 1, len, prop⟩ := by
  rw [scan, if_neg (by omega)]

theorem scan_of_done (inside : ptr < text.size) {taken : Nat} {len' : Int}
    (ends : round width (text.buf ptr) len inEsc = .done taken len') (prop : LineProp) :
    scan text width ptr len inEsc prop =
      ⟨ptr + taken, len', roundProp (text.buf ptr) inEsc prop⟩ := by
  rw [scan, if_pos inside]
  simp only [ends]

theorem scan_of_next (inside : ptr < text.size) {skipped : Nat} {len' : Int} {inEsc' : Bool}
    (goesOn : round width (text.buf ptr) len inEsc = .next skipped len' inEsc')
    (prop : LineProp) :
    scan text width ptr len inEsc prop =
      scan text width (ptr + skipped + 1) len' inEsc' (roundProp (text.buf ptr) inEsc prop) := by
  rw [scan, if_pos inside]
  simp only [goesOn]

/-- Where the loop ends does not depend on the properties. -/
theorem scan_next_len (prop other : LineProp) :
    (scan text width ptr len inEsc prop).next = (scan text width ptr len inEsc other).next ∧
      (scan text width ptr len inEsc prop).len = (scan text width ptr len inEsc other).len := by
  fun_induction scan text width ptr len inEsc prop generalizing other with
  | case1 ptr len inEsc prop inside prop' skipped len' inEsc' goesOn ih =>
    rw [scan_of_next inside goesOn other]
    exact ih _
  | case2 ptr len inEsc prop inside prop' taken len' ends =>
    rw [scan_of_done inside ends other]
    exact ⟨rfl, rfl⟩
  | case3 ptr len inEsc prop outside =>
    rw [scan_of_end (Nat.not_lt.1 outside) other]
    exact ⟨rfl, rfl⟩

theorem le_scan_next (prop : LineProp) : ptr ≤ (scan text width ptr len inEsc prop).next := by
  fun_induction scan text width ptr len inEsc prop with
  | case1 ptr len inEsc prop inside prop' skipped len' inEsc' goesOn ih => omega
  | case2 ptr len inEsc prop inside prop' taken len' ends => exact Nat.le_add_right ptr taken
  | case3 ptr len inEsc prop outside => exact Nat.le_succ ptr

end Scan

/-! ## The end of a line -/

section Stop

variable (text : Text) (width : Int)

/-- Where a line ends that has been scanned up to `next` with `len` columns left. -/
def stopAt (next : Nat) (len : Int) : Nat :=
  if next ≥ text.size then text.size
  else if len = 0 then
    trailingEscape text next + lineEndLength text (trailingEscape text next)
  else next

theorem finish_fst (scanned : Scanned) :
    (finish text scanned).1 = stopAt text scanned.next scanned.len := by
  unfold finish stopAt
  split_ifs <;> rfl

/-- Where the line that begins here ends. -/
def lineStop (begin : Nat) : Nat :=
  (lineFrom text width begin ⟨false, false⟩).1

variable {text width}

theorem lineFrom_fst (begin : Nat) (prop : LineProp) :
    (lineFrom text width begin prop).1 = lineStop text width begin := by
  obtain ⟨next, len⟩ := @scan_next_len text width begin width false
    (startProp text begin prop) (startProp text begin ⟨false, false⟩)
  rw [lineStop, lineFrom, lineFrom, finish_fst, finish_fst, next, len]

theorem le_skipCodes (ptr : Nat) : ptr ≤ skipCodes text ptr := by
  fun_induction skipCodes text ptr with
  | case1 ptr code ih => omega
  | case2 ptr code => exact Nat.le_refl ptr

theorem isCode_of_lt_skipCodes {ptr i : Nat} (from_ptr : ptr ≤ i) (before : i < skipCodes text ptr) :
    isCode (text.buf i) := by
  fun_induction skipCodes text ptr with
  | case1 ptr code ih =>
    by_cases here : i = ptr
    · rw [here]
      exact code.2
    · exact ih (by omega) before
  | case2 ptr code => omega

theorem le_stopAt {next : Nat} {len : Int} (inside : next < text.size) :
    next ≤ stopAt text next len := by
  have escapes : next ≤ trailingEscape text next := by
    unfold trailingEscape
    split_ifs
    · have := @le_skipCodes text (next + 1)
      omega
    · exact Nat.le_refl next
  unfold stopAt
  split_ifs <;> omega

/-- A line goes on unless the first byte does not fit. -/
theorem lt_stop_of_scan {ptr : Nat} {len : Int} {inEsc : Bool} {prop : LineProp}
    (inside : ptr < text.size)
    (fits : ∀ len', round width (text.buf ptr) len inEsc ≠ .done 0 len') :
    ptr < (finish text (scan text width ptr len inEsc prop)).1 := by
  have later : ptr < (scan text width ptr len inEsc prop).next := by
    cases outcome : round width (text.buf ptr) len inEsc with
    | next skipped len' inEsc' =>
      rw [scan_of_next inside outcome]
      have := @le_scan_next text width (ptr + skipped + 1) len' inEsc'
        (roundProp (text.buf ptr) inEsc prop)
      omega
    | done taken len' =>
      rw [scan_of_done inside outcome]
      have : taken ≠ 0 := by
        rintro rfl
        exact fits len' outcome
      dsimp only
      omega
  rw [finish_fst]
  by_cases within : (scan text width ptr len inEsc prop).next < text.size
  · exact Nat.lt_of_lt_of_le later (le_stopAt within)
  · rw [stopAt, if_pos (Nat.not_lt.1 within)]
    exact inside

end Stop

/-! ## Rounds that are reached -/

section Heads

variable (text : Text) (width : Int) (begin : Nat)

/-- The loop for the line that begins here comes to this byte, with so many columns left. -/
inductive Heads : Nat → Int → Bool → Prop where
  | start : Heads begin width false
  | round {ptr : Nat} {len : Int} {inEsc : Bool} {skipped : Nat} {len' : Int} {inEsc' : Bool}
      (reached : Heads ptr len inEsc) (inside : ptr < text.size)
      (goesOn : round width (text.buf ptr) len inEsc = .next skipped len' inEsc') :
      Heads (ptr + skipped + 1) len' inEsc'

/-- The line that begins here is full in front of this byte. -/
def Full (next : Nat) : Prop :=
  ∃ ptr len inEsc taken, Heads text width begin ptr len inEsc ∧ ptr < text.size ∧
    round width (text.buf ptr) len inEsc = .done taken 0 ∧ next = ptr + taken

variable {text width begin}

namespace Heads

variable {ptr : Nat} {len : Int} {inEsc : Bool}

theorem scan_eq (reached : Heads text width begin ptr len inEsc) (prop : LineProp) :
    ∃ prop', scan text width begin width false prop = scan text width ptr len inEsc prop' := by
  induction reached with
  | start => exact ⟨prop, rfl⟩
  | round _ inside goesOn ih =>
    obtain ⟨prop', equal⟩ := ih
    exact ⟨_, equal.trans (scan_of_next inside goesOn prop')⟩

theorem lineStop_eq (reached : Heads text width begin ptr len inEsc) :
    ∃ prop, lineStop text width begin = (finish text (scan text width ptr len inEsc prop)).1 := by
  obtain ⟨prop, equal⟩ := reached.scan_eq (startProp text begin ⟨false, false⟩)
  exact ⟨prop, by rw [lineStop, lineFrom, equal]⟩

theorem le (reached : Heads text width begin ptr len inEsc) : begin ≤ ptr := by
  induction reached with
  | start => exact Nat.le_refl begin
  | round _ _ _ ih => omega

theorem len_pos (wide : 0 < width) (reached : Heads text width begin ptr len inEsc) : 0 < len := by
  induction reached with
  | start => exact wide
  | round _ _ goesOn ih => exact (round_eq_next goesOn).2.1 ih

/-- The first round has the whole width. -/
theorem start_or_lt (reached : Heads text width begin ptr len inEsc) :
    (ptr = begin ∧ len = width ∧ inEsc = false) ∨ begin < ptr := by
  cases reached with
  | start => exact Or.inl ⟨rfl, rfl, rfl⟩
  | round earlier _ _ =>
    have := earlier.le
    exact Or.inr (by omega)

end Heads

end Heads

/-! ## Lines as they should be -/

section Sound

variable (text : Text) (width : Int)

/-- A line goes on in the text, and has a line feed at most at its end. -/
structure SoundLine (begin stop : Nat) : Prop where
  progress : begin < stop
  inside : stop ≤ text.size
  lineFeeds : ∀ i, begin ≤ i → i + 1 < stop → text.buf i ≠ lineFeed

/-- The line ends here, as the text does or the next byte does not fit in the columns left. -/
def EndsAt (ptr : Nat) (len : Int) : Prop :=
  ptr = text.size ∨
    (len = 0 ∧ text.buf ptr ≠ escape ∧ lineEndLength text ptr = 0) ∨
    (0 < len ∧ ∃ len', round width (text.buf ptr) len false = .done 0 len')

/-- An escape sequence ends in the text, and not at a line feed that another line end
follows. -/
def EscapeEnds (ptr : Nat) : Prop :=
  skipCodes text ptr < text.size ∧
    (text.buf (skipCodes text ptr) = lineFeed → lineEndLength text (skipCodes text ptr + 1) = 0)

/-- Nothing goes wrong in the line that begins here. -/
structure CleanAt (begin : Nat) : Prop where
  /-- A tab at the start fits. -/
  tabFits : text.buf begin = tab → 4 ≤ width
  /-- A character has no line feed for its second byte, unless the line ends there. -/
  pairs : ∀ ptr len, Heads text width begin ptr len false → ptr + 1 < text.size →
    isHigh (text.buf ptr) → 2 ≤ len → text.buf (ptr + 1) = lineFeed →
    EndsAt text width (ptr + 2) (len - 2)
  /-- An escape sequence behind a full line ends well. -/
  escapes : ∀ ptr, Full text width begin ptr → ptr < text.size → text.buf ptr = escape →
    EscapeEnds text (ptr + 1)

end Sound

/-! ## Clean lines are as they should be -/

section LineEnds

variable {text : Text} {ptr : Nat}

theorem buf_size_ne {c : UInt8} (odd : c.toNat % 8 ≠ 0) : text.buf text.size ≠ c := by
  rintro rfl
  exact odd text.aligned

/-- What follows the text is no part of a line end. -/
theorem lineEndLength_inside (inside : ptr ≤ text.size) :
    ptr + lineEndLength text ptr ≤ text.size := by
  unfold lineEndLength
  by_cases feed : text.buf ptr = lineFeed
  · have : ptr ≠ text.size := by
      rintro rfl
      exact buf_size_ne (by decide) feed
    rw [if_pos feed]
    omega
  · rw [if_neg feed]
    by_cases both : text.buf ptr = carriageReturn ∧ text.buf (ptr + 1) = lineFeed
    · have : ptr ≠ text.size := by
        rintro rfl
        exact buf_size_ne (by decide) both.1
      have : ptr + 1 ≠ text.size := by
        intro atEnd
        rw [atEnd] at both
        exact buf_size_ne (by decide) both.2
      rw [if_pos both]
      omega
    · rw [if_neg both]
      exact inside

theorem ne_lineFeed_of_lineEnd {i : Nat} (from_ptr : ptr ≤ i)
    (before : i + 1 < ptr + lineEndLength text ptr) : text.buf i ≠ lineFeed := by
  unfold lineEndLength at before
  split_ifs at before with feed both
  · omega
  · have here : i = ptr := by omega
    rw [here, both.1]
    decide
  · omega

end LineEnds

section FromClean

variable {text : Text} {width : Int} {begin : Nat}

/-- So far there is a line feed only if the line ends just behind it. -/
def Quiet (text : Text) (width : Int) (begin ptr : Nat) (len : Int) (inEsc : Bool) : Prop :=
  ∀ i, begin ≤ i → i < ptr → i < text.size → text.buf i = lineFeed →
    i + 1 = ptr ∧ inEsc = false ∧ EndsAt text width ptr len

variable {ptr : Nat} {len : Int} {inEsc : Bool}

/-- Where the loop stops neither behind the text nor before this byte, there has been no line
feed. -/
theorem Quiet.ne_lineFeed (quiet : Quiet text width begin ptr len inEsc)
    (inside : ptr < text.size) (left : 0 < len)
    (goesOn : ∀ len', round width (text.buf ptr) len inEsc ≠ .done 0 len') {i : Nat}
    (from_begin : begin ≤ i) (before : i < ptr) : text.buf i ≠ lineFeed := by
  intro feed
  obtain ⟨-, rfl, atEnd | ⟨full, -⟩ | ⟨-, len', stops⟩⟩ :=
    quiet i from_begin before (by omega) feed
  · omega
  · omega
  · exact goesOn len' stops

/-- A byte or a character behind which the line goes on has no line feed, unless the line ends
there. -/
theorem Quiet.step (quiet : Quiet text width begin ptr len inEsc) (wide : 0 < width)
    (clean : CleanAt text width begin) (reached : Heads text width begin ptr len inEsc)
    (inside : ptr < text.size) (notFeed : text.buf ptr ≠ lineFeed)
    (goesOn : ∀ len', round width (text.buf ptr) len inEsc ≠ .done 0 len')
    {n : Nat} {len' : Int} {inEsc' : Bool}
    (passed : n = 1 ∨ n = 2 ∧ isHigh (text.buf ptr) ∧ inEsc = false ∧ 2 ≤ len ∧
      len' = len - 2 ∧ inEsc' = false) :
    Quiet text width begin (ptr + n) len' inEsc' := by
  intro i from_begin before within feed
  have late : ¬i < ptr := fun earlier =>
    quiet.ne_lineFeed inside (reached.len_pos wide) goesOn from_begin earlier feed
  have next : i ≠ ptr := by
    rintro rfl
    exact notFeed feed
  obtain rfl | ⟨rfl, lead, rfl, fits, rfl, rfl⟩ := passed
  · omega
  · obtain rfl : i = ptr + 1 := by omega
    exact ⟨rfl, rfl, clean.pairs ptr len reached within lead fits feed⟩

theorem soundLine_of_past (quiet : Quiet text width begin ptr len inEsc)
    (inside : begin < text.size) (past : text.size ≤ ptr) :
    SoundLine text begin text.size where
  progress := inside
  inside := Nat.le_refl _
  lineFeeds i from_begin before feed := by
    have := (quiet i from_begin (by omega) (by omega) feed).1
    omega

/-- A full line takes an escape sequence and a line end with it. -/
theorem soundLine_of_full (clean : CleanAt text width begin) (inside : begin < text.size)
    {next : Nat} (full : Full text width begin next) (progress : begin < next)
    (quiet : Quiet text width begin next 0 false) :
    SoundLine text begin (stopAt text next 0) := by
  by_cases past : text.size ≤ next
  · rw [stopAt, if_pos past]
    exact soundLine_of_past quiet inside past
  have within : next < text.size := Nat.lt_of_not_le past
  have later := @le_stopAt text next 0 within
  rw [stopAt, if_neg past, if_pos rfl] at later ⊢
  -- A line feed among the bytes that fill the line would have ended it.
  have before : ∀ i, begin ≤ i → i < next → text.buf i = lineFeed →
      i + 1 = next ∧ text.buf next ≠ escape ∧ lineEndLength text next = 0 := by
    intro i from_begin earlier feed
    obtain ⟨last, -, atEnd | ⟨-, noEscape, noEnd⟩ | ⟨left, -⟩⟩ :=
      quiet i from_begin earlier (by omega) feed
    · omega
    · exact ⟨last, noEscape, noEnd⟩
    · omega
  by_cases escaped : text.buf next = escape
  · obtain ⟨ends, feedEnds⟩ := clean.escapes next full within escaped
    have codes := @le_skipCodes text (next + 1)
    rw [trailingEscape, if_pos escaped] at later ⊢
    refine ⟨by omega, lineEndLength_inside (by omega), fun i from_begin earlier feed => ?_⟩
    obtain first | rfl | code | rfl | behind : i < next ∨ i = next ∨
        (next < i ∧ i < skipCodes text (next + 1)) ∨ i = skipCodes text (next + 1) ∨
        skipCodes text (next + 1) + 1 ≤ i := by omega
    · exact (before i from_begin first feed).2.1 escaped
    · rw [escaped] at feed
      exact absurd feed (by decide)
    · have := isCode_of_lt_skipCodes (Nat.succ_le_of_lt code.1) code.2
      rw [feed] at this
      exact absurd this (by decide)
    · have := feedEnds feed
      omega
    · exact ne_lineFeed_of_lineEnd behind earlier feed
  · rw [trailingEscape, if_neg escaped] at later ⊢
    refine ⟨by omega, lineEndLength_inside (by omega), fun i from_begin earlier feed => ?_⟩
    obtain first | behind : i < next ∨ next ≤ i := by omega
    · obtain ⟨last, -, noEnd⟩ := before i from_begin first feed
      omega
    · exact ne_lineFeed_of_lineEnd behind earlier feed

/-- The first byte of the line fits. -/
theorem CleanAt.not_left (clean : CleanAt text width begin) (wide : 2 ≤ width)
    (reached : Heads text width begin ptr len inEsc) {len' : Int}
    (left : round width (text.buf ptr) len inEsc = .done 0 len') : begin < ptr := by
  obtain ⟨rfl, rfl, rfl⟩ | later := reached.start_or_lt
  · obtain ⟨-, taken, -⟩ | ⟨-, -, -, -, ⟨isTab, overfull⟩ | ⟨-, overfull⟩⟩ | ⟨-, taken, -⟩ |
        ⟨-, taken, -⟩ := round_eq_done left
    · omega
    · have := clean.tabFits isTab
      simp only [tabWidth, tabStop, Int.sub_self] at overfull
      omega
    · omega
    · omega
    · omega
  · exact later

theorem soundLine_of_done (wide : 2 ≤ width) (clean : CleanAt text width begin)
    (reached : Heads text width begin ptr len inEsc) (inside : ptr < text.size)
    (quiet : Quiet text width begin ptr len inEsc) {taken : Nat} {len' : Int}
    (ends : round width (text.buf ptr) len inEsc = .done taken len') :
    SoundLine text begin (stopAt text (ptr + taken) len') := by
  have from_begin := reached.le
  have left := reached.len_pos (by omega)
  have fills (notFeed : text.buf ptr ≠ lineFeed) (some : taken ≠ 0) (full : len' = 0)
      (passed : taken = 1 ∨ taken = 2 ∧ isHigh (text.buf ptr) ∧ inEsc = false ∧ 2 ≤ len ∧
        (0 : Int) = len - 2 ∧ false = false) :
      SoundLine text begin (stopAt text (ptr + taken) len') := by
    subst full
    have goesOn : ∀ len', round width (text.buf ptr) len inEsc ≠ .done 0 len' := by
      intro len' stops
      rw [ends] at stops
      exact some (Outcome.done.inj stops).1
    exact soundLine_of_full clean (by omega) ⟨ptr, len, inEsc, taken, reached, inside, ends, rfl⟩
      (by omega) (quiet.step (by omega) clean reached inside notFeed goesOn passed)
  obtain ⟨feed, rfl, rfl⟩ | ⟨notFeed, rfl, overfull, rfl, -⟩ | ⟨notFeed, rfl, full⟩ |
      ⟨notFeed, rfl, full, lead, rfl, two⟩ := round_eq_done ends
  · -- The line ends with its line feed.
    have stop : stopAt text (ptr + 1) len' = ptr + 1 := by
      unfold stopAt
      split_ifs <;> omega
    rw [stop]
    refine ⟨by omega, inside, fun i from_begin earlier => ?_⟩
    apply quiet.ne_lineFeed inside left _ from_begin (by omega)
    intro len'' stops
    rw [ends] at stops
    exact absurd (Outcome.done.inj stops).1 (by decide)
  · -- The byte is left to the next line.
    have later := clean.not_left wide reached ends
    have stop : stopAt text (ptr + 0) len' = ptr := by
      unfold stopAt
      split_ifs <;> omega
    rw [stop]
    refine ⟨later, Nat.le_of_lt inside, fun i from_begin earlier feed => ?_⟩
    have := (quiet i from_begin (by omega) (by omega) feed).1
    omega
  · exact fills notFeed (by decide) full (Or.inl rfl)
  · exact fills notFeed (by decide) full (Or.inr ⟨rfl, lead, rfl, by omega, by omega, rfl⟩)

theorem soundLine_of_scan (wide : 2 ≤ width) (clean : CleanAt text width begin)
    (begins : begin < text.size) (reached : Heads text width begin ptr len inEsc)
    (quiet : Quiet text width begin ptr len inEsc) (prop : LineProp) :
    SoundLine text begin (finish text (scan text width ptr len inEsc prop)).1 := by
  rw [finish_fst]
  fun_induction scan text width ptr len inEsc prop with
  | case1 ptr len inEsc prop inside prop' skipped len' inEsc' goesOn ih =>
    obtain ⟨notFeed, positive, passed⟩ := round_eq_next goesOn
    have left := reached.len_pos (by omega)
    have stays : ∀ len', round width (text.buf ptr) len inEsc ≠ .done 0 len' := by
      intro len' stops
      rw [goesOn] at stops
      exact Outcome.noConfusion stops
    apply ih (reached.round inside goesOn)
    rw [Nat.add_assoc]
    apply quiet.step (by omega) clean reached inside notFeed stays
    obtain rfl | ⟨rfl, lead, esc, rfl, esc'⟩ := passed
    · exact Or.inl rfl
    · exact Or.inr ⟨rfl, lead, esc, by have := positive left; omega, rfl, esc'⟩
  | case2 ptr len inEsc prop inside prop' taken len' ends =>
    exact soundLine_of_done wide clean reached inside quiet ends
  | case3 ptr len inEsc prop outside =>
    rw [stopAt, if_pos (by dsimp only; omega)]
    exact soundLine_of_past quiet begins (by omega)

theorem CleanAt.soundLine (clean : CleanAt text width begin) (wide : 2 ≤ width)
    (begins : begin < text.size) : SoundLine text begin (lineStop text width begin) := by
  apply soundLine_of_scan wide clean begins Heads.start
  intro i from_begin before
  omega

end FromClean

section ToClean

variable {text : Text} {width : Int} {begin : Nat}

/-- Where a character is made of a byte and a line feed, the line ends there. -/
theorem SoundLine.endsAt (sound : SoundLine text begin (lineStop text width begin))
    {ptr : Nat} {len : Int} (reached : Heads text width begin ptr len false)
    (inside : ptr + 1 < text.size) (lead : isHigh (text.buf ptr)) (fits : 2 ≤ len)
    (feed : text.buf (ptr + 1) = lineFeed) : EndsAt text width (ptr + 2) (len - 2) := by
  have from_begin := reached.le
  have bounded : lineStop text width begin ≤ ptr + 2 := by
    by_contra longer
    exact sound.lineFeeds (ptr + 1) (by omega) (by omega) feed
  obtain ⟨prop, stop⟩ := reached.lineStop_eq
  rw [stop] at bounded
  have outcome := @round_lead width (text.buf ptr) len lead fits
  by_cases atEnd : ptr + 2 = text.size
  · exact Or.inl atEnd
  have within : ptr + 2 < text.size := by omega
  by_cases full : len = 2
  · rw [if_pos full] at outcome
    rw [scan_of_done (by omega) outcome, finish_fst] at bounded
    dsimp only at bounded
    rw [stopAt, if_neg (by omega), if_pos rfl] at bounded
    right; left
    have noEscape : text.buf (ptr + 2) ≠ escape := by
      intro escaped
      have := @le_skipCodes text (ptr + 2 + 1)
      rw [trailingEscape, if_pos escaped] at bounded
      omega
    rw [trailingEscape, if_neg noEscape] at bounded
    exact ⟨by omega, noEscape, by omega⟩
  · rw [if_neg full] at outcome
    rw [scan_of_next (by omega) outcome] at bounded
    right; right
    refine ⟨by omega, ?_⟩
    by_contra goesOn
    have := @lt_stop_of_scan text width (ptr + 1 + 1) (len - 2) false
      (roundProp (text.buf ptr) false prop) within (not_exists.1 goesOn)
    omega

theorem SoundLine.escapeEnds (sound : SoundLine text begin (lineStop text width begin))
    {next : Nat} (full : Full text width begin next) (inside : next < text.size)
    (escaped : text.buf next = escape) : EscapeEnds text (next + 1) := by
  obtain ⟨ptr, len, inEsc, taken, reached, within, ends, rfl⟩ := full
  have from_begin := reached.le
  have codes := @le_skipCodes text (ptr + taken + 1)
  obtain ⟨prop, stop⟩ := reached.lineStop_eq
  rw [scan_of_done within ends, finish_fst] at stop
  dsimp only at stop
  rw [stopAt, if_neg (by omega), if_pos rfl, trailingEscape, if_pos escaped] at stop
  have stopInside := sound.inside
  refine ⟨by omega, fun feed => ?_⟩
  by_contra lineEnd
  exact sound.lineFeeds (skipCodes text (ptr + taken + 1)) (by omega) (by omega) feed

theorem SoundLine.tabFits (sound : SoundLine text begin (lineStop text width begin))
    (begins : begin < text.size) (isTab : text.buf begin = tab) : 4 ≤ width := by
  by_contra narrow
  have overfull : width < tabWidth width width := by
    simp only [tabWidth, tabStop, Int.sub_self]
    omega
  have outcome := round_tab overfull
  rw [← isTab] at outcome
  have stop : lineStop text width begin = begin := by
    rw [lineStop, lineFrom, scan_of_done begins outcome, finish_fst]
    dsimp only
    unfold stopAt
    split_ifs <;> omega
  have := sound.progress
  omega

theorem SoundLine.cleanAt (sound : SoundLine text begin (lineStop text width begin))
    (begins : begin < text.size) : CleanAt text width begin where
  tabFits := sound.tabFits begins
  pairs _ _ := sound.endsAt
  escapes _ := sound.escapeEnds

end ToClean

end Pager

end Fbbs
