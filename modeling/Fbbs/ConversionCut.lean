import Fbbs.ConversionOrder

/-!
# Text that is cut at the end of a buffer

Without a callback `convert` returns zero when the buffer is full, as it does when everything has
been converted.
-/

namespace Fbbs

namespace Conversion

open StreamConversion

section Rounds

variable {cd : Converter UInt8 UInt8} {size len fuel : Nat} {s last : State}

/-- What the buffer holds in the end, and what has not been converted. -/
structure Filled (cd : Converter UInt8 UInt8) (size len : Nat) (s last : State)
    (before after : List (Piece UInt8 UInt8)) : Prop where
  pieces : (cd.pieces s.f).1 = before ++ after
  text : last.text = s.text ++ before.flatMap (Piece.text [])
  rest : s.f = before.flatMap Piece.source ++ last.f
  fits : last.text.length ≤ size
  ends : after = [] ∧ last.f = (cd.pieces s.f).2 ∧
      last.ret = (if last.f = [] then 0 else .ofNat (len - last.f.length)) ∨
    last.ret = 0 ∧ last.f ≠ [] ∧
      size < s.text.length + ((cd.pieces s.f).1.flatMap (Piece.text [])).length

theorem flatMap_text_chars (taken : List (Bytes × Bytes)) :
    (chars taken).flatMap (Piece.text []) = taken.flatMap Prod.snd := by
  rw [chars, List.flatMap_map]
  rfl

theorem convertLoop_finished (finished : s.l = 0) :
    convertLoop cd none size len (fuel + 1) s = some s := by
  rw [convertLoop, if_pos finished]

theorem eq_of_convertLoop (finished : s.l = 0)
    (result : convertLoop cd none size len fuel s = some last) : last = s := by
  cases fuel with
  | zero => cases result
  | succ fuel =>
    rw [convertLoop_finished finished] at result
    exact (Option.some.inj result).symm

/-- A round without a callback. -/
theorem convertLoop_none (left : s.l = s.f.length) (nonempty : s.l ≠ 0) :
    convertLoop cd none size len (fuel + 1) s =
      let run := cd.run s.f.length (size - s.text.length) s.f
      let next : State := ⟨run.rest, run.rest.length, s.text ++ run.out, s.sent, s.ret⟩
      if run.status = .full then some { next with ret := 0 }
      else convertLoop cd none size len fuel (afterIconv none len run.status next) := by
  rw [convertLoop, if_neg nonempty]
  simp [left, iconv]

theorem Filled.cons_invalid {taken : List (Bytes × Bytes)} {a : UInt8} {rest text : Bytes}
    {before after : List (Piece UInt8 UInt8)}
    (split : cd.pieces s.f = (chars taken ++ .invalid a :: (cd.pieces rest).1, (cd.pieces rest).2))
    (isText : text = s.text ++ taken.flatMap Prod.snd)
    (filled : Filled cd size len ⟨rest, rest.length, text, s.sent, s.ret⟩ last before after) :
    Filled cd size len s last (chars taken ++ .invalid a :: before) after where
  pieces := by
    rw [split, filled.pieces]
    simp
  text := by
    rw [filled.text, List.flatMap_append, flatMap_text_chars, isText]
    simp [Piece.text]
  rest := by
    have more := filled.rest
    simp only at more
    have split' : cd.pieces s.f =
        ((chars taken ++ [.invalid a]) ++ (cd.pieces rest).1, (cd.pieces rest).2) := by
      rw [split]
      simp
    rw [Converter.eq_append_of_pieces split', more]
    simp
  fits := filled.fits
  ends := by
    rcases filled.ends with whole | cut
    · exact .inl (by rw [split]; exact whole)
    · refine .inr ⟨cut.1, cut.2.1, ?_⟩
      have overflow := cut.2.2
      rw [split, List.flatMap_append, flatMap_text_chars]
      simp only [isText, List.length_append] at overflow
      simp only [List.flatMap_cons, Piece.text, List.nil_append, List.length_append]
      omega

theorem convertLoop_filled (left : s.l = s.f.length) (room : s.text.length ≤ size)
    (noError : s.ret = 0) (result : convertLoop cd none size len fuel s = some last) :
    ∃ before after, Filled cd size len s last before after := by
  induction fuel generalizing s with
  | zero => cases result
  | succ fuel ih =>
    by_cases empty : s.l = 0
    · cases eq_of_convertLoop empty result
      have noInput : last.f = [] := List.eq_nil_of_length_eq_zero (left ▸ empty)
      refine ⟨[], [], ?_, ?_, rfl, room, .inl ⟨rfl, ?_, ?_⟩⟩
      · rw [noInput, Converter.pieces_nil]
        rfl
      · simp
      · rw [noInput, Converter.pieces_nil]
      · rw [noError, if_pos noInput]
    · rw [convertLoop_none left empty] at result
      obtain ⟨taken, takes⟩ := @Converter.run_takes _ _ cd s.f.length (size - s.text.length) s.f
        (Nat.le_refl _)
      have out := takes.out
      have fits := takes.fits
      have pieces := takes.pieces
      have stops := takes.stops
      have same := Converter.eq_append_of_pieces pieces
      simp only at result
      generalize cd.run s.f.length (size - s.text.length) s.f = run at *
      cases stops with
      | done text =>
        rw [if_neg (by simp)] at result
        have isLast := eq_of_convertLoop rfl result
        simp only [afterIconv] at isLast
        have whole : (cd.pieces s.f).2 = [] := by rw [pieces, Converter.pieces_nil]
        subst isLast
        refine ⟨chars taken, [], ?_, ?_, same, ?_, .inl ⟨rfl, whole.symm, ?_⟩⟩
        · rw [pieces, Converter.pieces_nil]
        · rw [flatMap_text_chars, ← out]
        · simp only [List.length_append] at fits ⊢
          omega
        · rw [noError, if_pos rfl]
      | @full text _ _ rest first overflow =>
        rw [if_pos rfl] at result
        cases result
        obtain ⟨more, isMore⟩ := List.head?_eq_some_iff.mp first
        refine ⟨chars taken, _, congrArg Prod.fst pieces, ?_, same, ?_, .inr ⟨rfl, ?_, ?_⟩⟩
        · rw [flatMap_text_chars, ← out]
        · simp only [List.length_append] at fits ⊢
          omega
        · intro noInput
          simp only [show rest = [] from noInput, Converter.pieces_nil] at isMore
          cases isMore
        · simp only at out
          rw [pieces, isMore, List.flatMap_append, flatMap_text_chars, ← out]
          simp only [List.flatMap_cons, Piece.text, List.length_append]
          omega
      | @invalid text a rest first =>
        rw [if_neg (by simp)] at result
        simp only [afterIconv, Option.isSome_none, Bool.false_eq_true, if_false] at result
        obtain ⟨before, after, filled⟩ := ih (s := ⟨rest, rest.length, _, _, _⟩) rfl
          (by simp only [List.length_append] at fits ⊢; omega) noError result
        rw [first] at pieces
        exact ⟨_, after, Filled.cons_invalid pieces (congrArg _ out) filled⟩
      | @incomplete text rest tail first =>
        rw [if_neg (by simp)] at result
        have isLast := eq_of_convertLoop rfl result
        simp only [afterIconv] at isLast
        subst isLast
        refine ⟨chars taken, [], ?_, ?_, same, ?_, .inl ⟨rfl, ?_, (if_neg tail).symm⟩⟩
        · rw [pieces, first]
        · rw [flatMap_text_chars, ← out]
        · simp only [List.length_append] at fits ⊢
          omega
        · rw [pieces, first]

/-- Only an invalid byte leads to another round. -/
theorem exists_filled (left : s.l = s.f.length) (enough : (cd.pieces s.f).1.length < fuel) :
    ∃ last, convertLoop cd none size len (fuel + 1) s = some last := by
  induction fuel generalizing s with
  | zero => cases enough
  | succ fuel ih =>
    by_cases empty : s.l = 0
    · exact ⟨s, convertLoop_finished empty⟩
    · rw [convertLoop_none left empty]
      obtain ⟨taken, takes⟩ := @Converter.run_takes _ _ cd s.f.length (size - s.text.length) s.f
        (Nat.le_refl _)
      have pieces := takes.pieces
      have stops := takes.stops
      simp only
      generalize cd.run s.f.length (size - s.text.length) s.f = run at *
      cases stops with
      | done text =>
        rw [if_neg (by simp)]
        exact ⟨_, convertLoop_finished rfl⟩
      | full first overflow =>
        rw [if_pos rfl]
        exact ⟨_, rfl⟩
      | invalid text first =>
        rw [if_neg (by simp)]
        apply ih rfl
        rw [pieces, first] at enough
        simp [afterIconv] at enough ⊢
        omega
      | incomplete text tail first =>
        rw [if_neg (by simp)]
        exact ⟨_, convertLoop_finished rfl⟩

end Rounds

section Calls

variable {opened : Descriptors} {type : ConvertType} {input : Bytes} {size fuel : Nat}
  {last : State}

theorem filled_of_convert
    (result : convert opened type input (some size) none fuel = some last) :
    ∃ before after, Filled (convertDescriptor opened type) (size - 1) input.length
      ⟨input, input.length, [], [], 0⟩ last before after := by
  rw [convert] at result
  split at result
  next empty =>
    subst empty
    cases result
    exact ⟨[], [], by simp, rfl, rfl, Nat.zero_le _, .inl ⟨rfl, by simp, rfl⟩⟩
  next => exact convertLoop_filled rfl (Nat.zero_le _) rfl result

theorem exists_convert_none (opened : Descriptors) (type : ConvertType) (input : Bytes)
    (size : Nat) : ∃ last, Converts opened type input (some size) none last := by
  unfold Converts convert
  split
  · exact ⟨_, 0, rfl⟩
  · obtain ⟨last, result⟩ := exists_filled (s := ⟨input, input.length, [], [], 0⟩) rfl
      (Nat.lt_succ_self _)
    exact ⟨last, _, result⟩

theorem ofNat_ne_zero {n : Nat} (positive : 0 < n) (small : n < 2 ^ 31) : Int32.ofNat n ≠ 0 := by
  intro isZero
  have value := (toInt_ofNat_iff n).mpr small
  rw [isZero] at value
  simp at value
  omega

end Calls

/-- The return value tells what has been converted if and only if the text fits into the buffer,
and an incomplete character at the end has something in front of it and a position below 2^31. -/
theorem fillsBuffer_iff (opened : Descriptors) (type : ConvertType) (input : Bytes) {size : Nat}
    (positive : 0 < size) :
    FillsBuffer opened type input size ↔
      ((piecesOf opened type input).1.flatMap (Piece.text [])).length < size ∧
      ((piecesOf opened type input).2 = [] ∨
        0 < input.length - (piecesOf opened type input).2.length ∧
          input.length - (piecesOf opened type input).2.length < 2 ^ 31) := by
  unfold FillsBuffer piecesOf
  constructor
  · rintro ⟨last, n, ⟨fuel, result⟩, -, -, consumed, zero, position⟩
    obtain ⟨before, after, filled⟩ := filled_of_convert result
    rcases filled.ends with ⟨noMore, isTail, ret⟩ | ⟨ret, rest, -⟩
    · have pieces := filled.pieces
      have text := filled.text
      have fits := filled.fits
      simp only [noMore, List.append_nil, List.nil_append] at pieces text isTail
      rw [pieces, ← text, ← isTail]
      refine ⟨by omega, ?_⟩
      by_cases whole : last.f = []
      · exact .inl whole
      · have length := congrArg List.length consumed
        rw [List.length_append] at length
        have value := position whole
        have nonzero := fun isZero => whole (zero.mp isZero)
        rw [if_neg whole] at ret
        rw [ret] at value nonzero
        have same : input.length - last.f.length =
            (((convertDescriptor opened type).pieces input).1.take n |>.flatMap
              Piece.source).length := by
          omega
        rw [same] at nonzero value ⊢
        refine .inr ⟨Nat.pos_of_ne_zero fun isZero => nonzero ?_, (toInt_ofNat_iff _).mp value⟩
        rw [isZero]
        rfl
    · exact absurd (zero.mp ret) rest
  · rintro ⟨fits, tail⟩
    obtain ⟨last, fuel, result⟩ := exists_convert_none opened type input size
    obtain ⟨before, after, filled⟩ := filled_of_convert result
    have pieces := filled.pieces
    have text := filled.text
    have rest := filled.rest
    rcases filled.ends with ⟨noMore, isTail, ret⟩ | ⟨-, -, overflow⟩
    · simp only [noMore, List.append_nil, List.nil_append] at pieces text isTail rest
      have length := congrArg List.length rest
      rw [List.length_append] at length
      refine ⟨last, before.length, ⟨fuel, result⟩, ?_, ?_, ?_, ?_, ?_⟩
      · rw [text, ← pieces]
        exact fits
      · rw [pieces, List.take_length]
        exact text
      · rw [pieces, List.take_length]
        exact rest
      · rw [ret]
        split
        next whole => exact iff_of_true rfl whole
        next part =>
          rw [← isTail] at tail
          obtain ⟨above, below⟩ := tail.resolve_left part
          exact iff_of_false (ofNat_ne_zero above below) part
      · intro part
        rw [← isTail] at tail
        obtain ⟨-, below⟩ := tail.resolve_left part
        rw [ret, if_neg part, pieces, List.take_length, (toInt_ofNat_iff _).mpr below]
        omega
    · simp only [List.length_nil, Nat.zero_add] at overflow
      omega

theorem letters_fillsBuffer : FillsBuffer asciiDescriptors .u2g [97, 98] 3 := by
  have pieces : piecesOf asciiDescriptors .u2g [97, 98] =
      ([.char [97] [97], .char [98] [98]], []) := by
    rw [piecesOf, Converter.pieces_char rfl]
    simp only [List.drop_succ_cons, List.drop_zero]
    rw [Converter.pieces_char rfl]
    simp
  apply (fillsBuffer_iff asciiDescriptors .u2g [97, 98] (Nat.succ_pos 2)).mpr
  rw [pieces]
  exact ⟨by decide, .inl rfl⟩

/-- The second letter does not fit, and zero is returned; so it is for a text that consists of an
incomplete character. -/
theorem letters_not_fillsBuffer :
    ¬FillsBuffer asciiDescriptors .u2g [97, 98] 2 ∧
      Converts asciiDescriptors .u2g [97, 98] (some 2) none ⟨[98], 1, [97], [], 0⟩ ∧
      Converts asciiDescriptors .u2g [0xe4] (some 2) none ⟨[0xe4], 0, [], [], 0⟩ := by
  refine ⟨?_, ⟨2, rfl⟩, ⟨2, rfl⟩⟩
  rintro ⟨last, n, ⟨fuel, result⟩, -, -, -, zero, -⟩
  have isLast : last = ⟨[98], 1, [97], [], 0⟩ := by
    cases fuel with
    | zero => cases result
    | succ fuel => exact (Option.some.inj result).symm
  rw [isLast] at zero
  exact absurd (zero.mp rfl) (by decide)

end Conversion

end Fbbs
