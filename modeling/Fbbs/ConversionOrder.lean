import Fbbs.Conversion

/-!
# The order of the text that a callback gets

A round of `convert` may both convert text and meet an invalid byte; the question mark for the
byte is handed over first.
-/

namespace Fbbs

namespace Conversion

open StreamConversion

/-- What the callback gets of some pieces, if a text has been converted in the same round. -/
def delivered (size : Nat) : Bytes → List (Piece UInt8 UInt8) → Bytes
  | text, [] => text
  | text, .invalid _ :: more => questionMark ++ text ++ delivered size [] more
  | text, .char _ out :: more =>
    if text.length + out.length ≤ size then delivered size (text ++ out) more
    else text ++ delivered size out more

/-- Whenever a byte is invalid, the text since the last invalid byte, or since the buffer was full
the last time, consists of question marks. -/
def InOrder (size : Nat) : Bytes → List (Piece UInt8 UInt8) → Prop
  | _, [] => True
  | text, .invalid _ :: more => (∀ c ∈ text, c = 63) ∧ InOrder size [] more
  | text, .char _ out :: more =>
    if text.length + out.length ≤ size then InOrder size (text ++ out) more
    else InOrder size out more

/-- Every character fits into the buffer. -/
def CharsFit (size : Nat) (pieces : List (Piece UInt8 UInt8)) : Prop :=
  ∀ source out, .char source out ∈ pieces → out.length ≤ size

section Pieces

variable {size : Nat} {text : Bytes} {more : List (Piece UInt8 UInt8)}

/-- The pieces of some characters. -/
abbrev chars (taken : List (Bytes × Bytes)) : List (Piece UInt8 UInt8) :=
  taken.map fun piece => .char piece.1 piece.2

theorem delivered_chars {taken : List (Bytes × Bytes)}
    (fits : text.length + (taken.flatMap Prod.snd).length ≤ size) :
    delivered size text (chars taken ++ more) =
      delivered size (text ++ taken.flatMap Prod.snd) more := by
  induction taken generalizing text with
  | nil => simp
  | cons piece taken ih =>
    rw [List.flatMap_cons, List.length_append] at fits
    have first : text.length + piece.2.length ≤ size := by omega
    have others : (text ++ piece.2).length + (taken.flatMap Prod.snd).length ≤ size := by
      rw [List.length_append]
      omega
    simp only [List.map_cons, List.cons_append, delivered, if_pos first]
    rw [ih others, List.flatMap_cons, List.append_assoc]

theorem charsFit_chars {taken : List (Bytes × Bytes)}
    (fits : (taken.flatMap Prod.snd).length ≤ size) :
    CharsFit size (chars taken ++ more) ↔ CharsFit size more := by
  constructor
  · intro all source out member
    exact all source out (List.mem_append_right _ member)
  · intro all source out member
    rcases List.mem_append.mp member with here | behind
    · obtain ⟨piece, isTaken, same⟩ := List.mem_map.mp here
      cases same
      have part := (List.sublist_flatten_of_mem (List.mem_map_of_mem (f := Prod.snd) isTaken)).length_le
      rw [← List.flatMap_def] at part
      exact Nat.le_trans part fits
    · exact all source out behind

theorem charsFit_nil : CharsFit size [] :=
  fun _ _ member => absurd member List.not_mem_nil

theorem charsFit_invalid {a : UInt8} :
    CharsFit size (.invalid a :: more) ↔ CharsFit size more := by
  simp [CharsFit]

theorem cons_eq_append_singleton_iff {c : UInt8} :
    c :: text = text ++ [c] ↔ ∀ b ∈ text, b = c := by
  induction text with
  | nil => simp
  | cons b text ih =>
    rw [List.cons_append, List.cons.injEq, List.forall_mem_cons]
    constructor
    · rintro ⟨rfl, same⟩
      exact ⟨rfl, ih.mp same⟩
    · rintro ⟨rfl, all⟩
      exact ⟨rfl, ih.mpr all⟩

/-- The text keeps its order only if a question mark never gets in front of something else. -/
theorem delivered_eq_iff :
    delivered size text more = text ++ more.flatMap (Piece.text questionMark) ↔
      InOrder size text more := by
  induction more generalizing text with
  | nil => simp [delivered, InOrder]
  | cons piece more ih =>
    cases piece with
    | invalid a =>
      have step : delivered size text (.invalid a :: more) =
          text ++ (Piece.invalid a :: more).flatMap (Piece.text questionMark) ↔
            questionMark ++ text = text ++ questionMark ∧
              delivered size [] more = more.flatMap (Piece.text questionMark) := by
        rw [delivered, List.flatMap_cons, Piece.text, ← List.append_assoc]
        constructor
        · intro same
          exact List.append_inj same (by simp [Nat.add_comm])
        · rintro ⟨front, behind⟩
          rw [front, behind]
      have behind := @ih []
      rw [List.nil_append] at behind
      rw [step, behind, InOrder, questionMark, List.singleton_append,
        cons_eq_append_singleton_iff]
    | char source out =>
      rw [delivered, InOrder, List.flatMap_cons, Piece.text]
      split
      · rw [← List.append_assoc]
        exact ih
      · rw [List.append_cancel_left_eq]
        exact ih

end Pieces

/-! ## Rounds -/

section Rounds

variable {cd : Converter UInt8 UInt8} {handler : Handler} {size len : Nat} {s next : State}

/-- What a round with a callback makes of the input that is left. -/
inductive Round (cd : Converter UInt8 UInt8) (size len : Nat) (s next : State) : Prop
  | done {taken : List (Bytes × Bytes)} (left : next.l = 0) (ret : next.ret = s.ret)
      (pieces : cd.pieces s.f = (chars taken, []))
      (fits : (taken.flatMap Prod.snd).length ≤ size)
      (sent : next.sent.flatten = s.sent.flatten ++ taken.flatMap Prod.snd)
  | incomplete {taken : List (Bytes × Bytes)} {tail : Bytes} (left : next.l = 0)
      (ret : next.ret = .ofNat (len - tail.length)) (nonempty : tail ≠ [])
      (pieces : cd.pieces s.f = (chars taken, tail))
      (fits : (taken.flatMap Prod.snd).length ≤ size)
      (sent : next.sent.flatten = s.sent.flatten ++ taken.flatMap Prod.snd)
  | invalid {taken : List (Bytes × Bytes)} {a : UInt8} (left : next.l = next.f.length)
      (ret : next.ret = s.ret)
      (pieces : cd.pieces s.f =
        (chars taken ++ .invalid a :: (cd.pieces next.f).1, (cd.pieces next.f).2))
      (fits : (taken.flatMap Prod.snd).length ≤ size)
      (sent : next.sent.flatten = s.sent.flatten ++ questionMark ++ taken.flatMap Prod.snd)
  | full {taken : List (Bytes × Bytes)} {source out : Bytes} (left : next.l = next.f.length)
      (ret : next.ret = s.ret) (first : (cd.pieces next.f).1.head? = some (.char source out))
      (pieces : cd.pieces s.f = (chars taken ++ (cd.pieces next.f).1, (cd.pieces next.f).2))
      (fits : (taken.flatMap Prod.snd).length ≤ size)
      (overflow : size < (taken.flatMap Prod.snd).length + out.length)
      (sent : next.sent.flatten = s.sent.flatten ++ taken.flatMap Prod.snd)

/-- The text of a round is handed over if there is any. -/
theorem convertLoop_deliver (never : ∀ history text, 0 ≤ handler history text) (fuel : Nat)
    (s : State) :
    ∃ next, (if s.text = [] then convertLoop cd (some handler) size len fuel s
        else if handler s.sent s.text < 0 then some { s with sent := s.sent ++ [s.text] }
        else convertLoop cd (some handler) size len fuel
          { s with sent := s.sent ++ [s.text] }) =
        convertLoop cd (some handler) size len fuel next ∧
      next.f = s.f ∧ next.l = s.l ∧ next.ret = s.ret ∧
      next.sent.flatten = s.sent.flatten ++ s.text := by
  by_cases empty : s.text = []
  · exact ⟨s, if_pos empty, rfl, rfl, rfl, by simp [empty]⟩
  · refine ⟨{ s with sent := s.sent ++ [s.text] }, ?_, rfl, rfl, rfl, by simp⟩
    rw [if_neg empty, if_neg (Int.not_lt.mpr (never _ _))]

theorem convertLoop_round (never : ∀ history text, 0 ≤ handler history text) (fuel : Nat)
    (left : s.l = s.f.length) (nonempty : s.l ≠ 0) :
    ∃ next, convertLoop cd (some handler) size len (fuel + 1) s =
        convertLoop cd (some handler) size len fuel next ∧ Round cd size len s next := by
  obtain ⟨taken, takes⟩ := @Converter.run_takes _ _ cd s.f.length size s.f (Nat.le_refl _)
  rw [convertLoop, if_neg nonempty]
  simp only [left, List.take_length, iconv, Option.isSome_some, if_true, List.length_nil,
    Nat.sub_zero, List.nil_append, Option.isNone_some, Bool.false_eq_true, and_false, if_false]
  have out := takes.out
  have fits := takes.fits
  have pieces := takes.pieces
  have stops := takes.stops
  rw [out] at fits
  generalize cd.run s.f.length size s.f = run at out pieces stops
  cases stops with
  | done text =>
    obtain ⟨next, loop, f, l, ret, sent⟩ := convertLoop_deliver never fuel
      (afterIconv (some handler) len .done { s with f := [], l := 0, text })
    refine ⟨next, loop, .done l ret ?_ fits ?_⟩
    · simpa using pieces
    · rw [sent]
      exact congrArg _ out
  | @full text _ _ rest first overflow =>
    obtain ⟨next, loop, f, l, ret, sent⟩ := convertLoop_deliver never fuel
      (afterIconv (some handler) len .full { s with f := rest, l := rest.length, text })
    simp only [afterIconv] at f l
    rw [← f] at pieces first l
    refine ⟨next, loop, .full l ret first pieces fits (by rw [← out]; exact overflow) ?_⟩
    rw [sent]
    exact congrArg _ out
  | @invalid text a rest first =>
    obtain ⟨next, loop, f, l, ret, sent⟩ := convertLoop_deliver never fuel
      (afterIconv (some handler) len .invalid
        { s with f := a :: rest, l := (a :: rest).length, text })
    simp only [afterIconv, List.drop_succ_cons, List.drop_zero, List.length_cons,
      Nat.add_one_sub_one] at f l
    simp only [first] at pieces
    simp only [← f] at pieces l
    refine ⟨next, loop, .invalid l ret pieces fits ?_⟩
    rw [sent, show text = taken.flatMap Prod.snd from out]
    simp [afterIconv]
  | @incomplete text rest tail first =>
    obtain ⟨next, loop, f, l, ret, sent⟩ := convertLoop_deliver never fuel
      (afterIconv (some handler) len .incomplete { s with f := rest, l := rest.length, text })
    simp only [first] at pieces
    refine ⟨next, loop, .incomplete l ret tail (by simpa using pieces) fits ?_⟩
    rw [sent]
    exact congrArg _ out

/-- What the loop makes of the input, if it ends. -/
structure Ends (cd : Converter UInt8 UInt8) (size len : Nat) (s last : State) : Prop where
  fit : CharsFit size (cd.pieces s.f).1
  sent : last.sent.flatten = s.sent.flatten ++ delivered size [] (cd.pieces s.f).1
  ret : last.ret =
    if (cd.pieces s.f).2 = [] then s.ret else .ofNat (len - (cd.pieces s.f).2.length)

/-- The loop behind a round. -/
theorem Round.ends {last : State} (round : Round cd size len s next)
    (finished : next.l = 0 → last = next)
    (goesOn : next.l = next.f.length → Ends cd size len next last) :
    Ends cd size len s last := by
  cases round with
  | @done taken left ret pieces fits sent =>
    rw [← List.append_nil (chars taken)] at pieces
    cases finished left
    constructor
    · rw [pieces, charsFit_chars fits]
      exact charsFit_nil
    · rw [pieces, delivered_chars (by simpa using fits), sent]
      rfl
    · rw [pieces, ret]
      rfl
  | @incomplete taken tail left ret nonempty pieces fits sent =>
    rw [← List.append_nil (chars taken)] at pieces
    cases finished left
    constructor
    · rw [pieces, charsFit_chars fits]
      exact charsFit_nil
    · rw [pieces, delivered_chars (by simpa using fits), sent]
      rfl
    · rw [pieces, if_neg nonempty, ret]
  | invalid left ret pieces fits sent =>
    have more := goesOn left
    constructor
    · rw [pieces, charsFit_chars fits, charsFit_invalid]
      exact more.fit
    · rw [pieces, delivered_chars (by simpa using fits), more.sent, sent, delivered]
      simp
    · rw [pieces, more.ret, ret]
  | full left ret first pieces fits overflow sent =>
    have more := goesOn left
    constructor
    · rw [pieces, charsFit_chars fits]
      exact more.fit
    · rw [pieces, delivered_chars (by simpa using fits), more.sent, sent, List.append_assoc]
      obtain ⟨pieces', same⟩ := List.head?_eq_some_iff.mp first
      have small := more.fit _ _ (same ▸ List.mem_cons_self)
      rw [same, delivered, delivered, if_pos (by simpa using small), List.nil_append,
        List.nil_append, if_neg (Nat.not_le.mpr overflow)]
    · rw [pieces, more.ret, ret]

theorem convertLoop_ends (never : ∀ history text, 0 ≤ handler history text) {fuel : Nat}
    {last : State} (left : s.l = s.f.length)
    (result : convertLoop cd (some handler) size len fuel s = some last) :
    Ends cd size len s last := by
  induction fuel generalizing s with
  | zero => cases result
  | succ fuel ih =>
    by_cases empty : s.l = 0
    · rw [convertLoop, if_pos empty] at result
      cases result
      have noInput : last.f = [] := List.eq_nil_of_length_eq_zero (left ▸ empty)
      refine ⟨?_, ?_, ?_⟩ <;> rw [noInput, Converter.pieces_nil]
      · exact charsFit_nil
      · simp [delivered]
      · rfl
    · obtain ⟨next, loop, round⟩ := convertLoop_round never fuel left empty
      rw [loop] at result
      apply round.ends
      · intro finished
        cases fuel with
        | zero => cases result
        | succ fuel =>
          rw [convertLoop, if_pos finished] at result
          exact (Option.some.inj result).symm
      · intro left
        exact ih left result

/-- Every round takes a piece if all of them fit. -/
theorem exists_convertLoop (never : ∀ history text, 0 ≤ handler history text) {fuel : Nat}
    (left : s.l = s.f.length) (fit : CharsFit size (cd.pieces s.f).1)
    (enough : (cd.pieces s.f).1.length < fuel) :
    ∃ last, convertLoop cd (some handler) size len (fuel + 1) s = some last := by
  induction fuel generalizing s with
  | zero => cases enough
  | succ fuel ih =>
    by_cases empty : s.l = 0
    · exact ⟨s, by rw [convertLoop, if_pos empty]⟩
    · obtain ⟨next, loop, round⟩ := convertLoop_round never (fuel + 1) left empty
      rw [loop]
      cases round with
      | done finished => exact ⟨next, by rw [convertLoop, if_pos finished]⟩
      | incomplete finished => exact ⟨next, by rw [convertLoop, if_pos finished]⟩
      | invalid left ret pieces fits sent =>
        rw [pieces] at fit enough
        apply ih left ((charsFit_invalid).mp ((charsFit_chars fits).mp fit))
        simp at enough
        omega
      | @full taken source out left ret first pieces fits overflow sent =>
        rw [pieces] at fit enough
        have fit' := (charsFit_chars fits).mp fit
        obtain ⟨pieces', same⟩ := List.head?_eq_some_iff.mp first
        have small := fit' _ _ (same ▸ List.mem_cons_self)
        have some_taken : 0 < taken.length := by
          cases taken with
          | nil => exact absurd overflow (by simpa using small)
          | cons => exact Nat.succ_pos _
        apply ih left fit'
        simp only [List.length_append, List.length_map] at enough
        omega

end Rounds

theorem toInt_ofNat_iff (n : Nat) : (Int32.ofNat n).toInt = n ↔ n < 2 ^ 31 := by
  rw [Int32.toInt_ofNat', Int.bmod_eq_iff (by decide)]
  simp only [Int32.size, Int.sub_self, Int.dvd_zero, and_true]
  omega

section Calls

variable {opened : Descriptors} {type : ConvertType} {input : Bytes} {buf : Option Nat}
  {handler : Handler}

theorem ends_of_convert (never : ∀ history text, 0 ≤ handler history text) {fuel : Nat}
    {last : State} (result : convert opened type input buf (some handler) fuel = some last) :
    Ends (convertDescriptor opened type) (capacity buf) input.length
      ⟨input, input.length, [], [], 0⟩ last := by
  rw [convert] at result
  split at result
  next empty =>
    subst empty
    cases result
    refine ⟨?_, ?_, ?_⟩ <;> simp only [Converter.pieces_nil]
    · exact charsFit_nil
    · rfl
    · rfl
  next => exact convertLoop_ends never rfl result

theorem exists_convert (never : ∀ history text, 0 ≤ handler history text)
    (fit : CharsFit (capacity buf) ((convertDescriptor opened type).pieces input).1) :
    ∃ last, Converts opened type input buf (some handler) last := by
  unfold Converts convert
  split
  · exact ⟨_, 0, rfl⟩
  · obtain ⟨last, result⟩ := exists_convertLoop (s := ⟨input, input.length, [], [], 0⟩) never rfl
      fit (Nat.lt_succ_self _)
    exact ⟨last, _, result⟩

end Calls

/-- The text keeps its order if and only if every character fits into the buffer, nothing but
question marks is converted in front of an invalid byte since the last one, or since the buffer
was full, and the position of an incomplete character is below 2^31. -/
theorem keepsOrder_iff (opened : Descriptors) (type : ConvertType) (input : Bytes)
    (buf : Option Nat) {handler : Handler} (never : ∀ history text, 0 ≤ handler history text) :
    KeepsOrder opened type input buf handler ↔
      CharsFit (capacity buf) (piecesOf opened type input).1 ∧
      InOrder (capacity buf) [] (piecesOf opened type input).1 ∧
      ((piecesOf opened type input).2 = [] ∨
        input.length - (piecesOf opened type input).2.length < 2 ^ 31) := by
  unfold piecesOf
  constructor
  · rintro ⟨last, ⟨fuel, result⟩, sent, ret⟩
    have ends := ends_of_convert never result
    have order := ends.sent.symm.trans sent
    have position := ends.ret
    refine ⟨ends.fit, ?_, ?_⟩
    · exact delivered_eq_iff.mp order
    · unfold piecesOf at ret
      split at ret
      next whole => exact .inl whole
      next tail =>
        rw [if_neg tail] at position
        rw [position] at ret
        exact .inr ((toInt_ofNat_iff _).mp ret)
  · rintro ⟨fit, order, small⟩
    obtain ⟨last, fuel, result⟩ := exists_convert never fit
    have ends := ends_of_convert never result
    refine ⟨last, ⟨fuel, result⟩, ?_, ?_⟩
    · exact ends.sent.trans (delivered_eq_iff.mpr order)
    · rw [ends.ret]
      unfold piecesOf
      split
      next whole => rfl
      next tail => exact (toInt_ofNat_iff _).mpr (small.resolve_left tail)

/-- A callback that never fails. -/
def takesAll : Handler :=
  fun _ _ => 0

theorem invalid_first_keepsOrder : KeepsOrder asciiDescriptors .u2g [0xff, 97] none takesAll := by
  have pieces : piecesOf asciiDescriptors .u2g [0xff, 97] =
      ([.invalid 0xff, .char [97] [97]], []) := by
    rw [piecesOf, Converter.pieces_invalid rfl, Converter.pieces_char rfl]
    simp
  apply (keepsOrder_iff asciiDescriptors .u2g [0xff, 97] none fun _ _ => Int.le_refl 0).mpr
  rw [pieces]
  refine ⟨?_, ?_, .inl rfl⟩
  · simp [CharsFit, capacity]
  · simp [InOrder]

/-- The question mark for the byte behind a letter comes before the letter. -/
theorem letter_first_not_keepsOrder :
    ¬KeepsOrder asciiDescriptors .u2g [97, 0xff] none takesAll ∧
      ∃ last, Converts asciiDescriptors .u2g [97, 0xff] none (some takesAll) last ∧
        last.sent = [[63], [97]] := by
  have pieces : piecesOf asciiDescriptors .u2g [97, 0xff] =
      ([.char [97] [97], .invalid 0xff], []) := by
    rw [piecesOf, Converter.pieces_char rfl]
    simp only [List.drop_succ_cons, List.drop_zero]
    rw [Converter.pieces_invalid rfl]
    simp
  constructor
  · rintro ⟨last, ⟨fuel, result⟩, sent, -⟩
    have ends := (ends_of_convert (fun _ _ => Int.le_refl 0) result).sent
    rw [sent] at ends
    unfold piecesOf at pieces
    rw [piecesOf, pieces] at ends
    exact absurd ends (by decide)
  · exact ⟨_, ⟨3, rfl⟩, rfl⟩

end Conversion

end Fbbs
