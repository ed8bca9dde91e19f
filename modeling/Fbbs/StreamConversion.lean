import Mathlib.Data.List.Basic
import Mathlib.Order.WellFounded

/-!
# Converting a stream of characters

A converter reads one character at the beginning of an input.  An input falls into pieces,
characters and invalid items, and may end within a character.  A run of the converter takes the
longest part of the input that consists of characters and fits into a given room.
-/

namespace StreamConversion

/-- What is found at the beginning of an input. -/
inductive Reading (β : Type*)
  | char (used : Nat) (out : List β)
  | invalid
  | incomplete

structure Converter (α β : Type*) where
  read : List α → Reading β
  used_pos : ∀ {input used out}, read input = .char used out → 0 < used
  used_le : ∀ {input used out}, read input = .char used out → used ≤ input.length

inductive Piece (α β : Type*)
  | char (source : List α) (out : List β)
  | invalid (item : α)

inductive Status
  | done
  | full
  | invalid
  | incomplete
  deriving DecidableEq

/-- The converted text, the input that is left and why it is left. -/
structure Run (α β : Type*) where
  out : List β
  rest : List α
  status : Status

variable {α β : Type*}

def Piece.source : Piece α β → List α
  | .char source _ => source
  | .invalid item => [item]

def Piece.text (replacement : List β) : Piece α β → List β
  | .char _ out => out
  | .invalid _ => replacement

namespace Converter

variable (cd : Converter α β)

/-- The pieces of an input, and the incomplete character at its end. -/
def pieces (input : List α) : List (Piece α β) × List α :=
  match input with
  | [] => ([], [])
  | a :: rest =>
    match _found : cd.read (a :: rest) with
    | .char used out =>
      let more := pieces ((a :: rest).drop used)
      (.char ((a :: rest).take used) out :: more.1, more.2)
    | .invalid =>
      let more := pieces rest
      (.invalid a :: more.1, more.2)
    | .incomplete => ([], a :: rest)
termination_by input.length
decreasing_by
  · have used_pos := cd.used_pos _found
    simp
    omega
  · simp

/-- At most `room` items are put out. -/
def run : Nat → Nat → List α → Run α β
  | 0, _, input => ⟨[], input, .done⟩
  | _ + 1, _, [] => ⟨[], [], .done⟩
  | fuel + 1, room, a :: rest =>
    match cd.read (a :: rest) with
    | .char used out =>
      if out.length ≤ room then
        let more := run fuel (room - out.length) ((a :: rest).drop used)
        ⟨out ++ more.out, more.rest, more.status⟩
      else ⟨[], a :: rest, .full⟩
    | .invalid => ⟨[], a :: rest, .invalid⟩
    | .incomplete => ⟨[], a :: rest, .incomplete⟩

@[simp]
theorem pieces_nil : cd.pieces [] = ([], []) := by
  rw [pieces]

variable {cd}

theorem pieces_char {input out : List _} {used : Nat} (found : cd.read input = .char used out) :
    cd.pieces input =
      (.char (input.take used) out :: (cd.pieces (input.drop used)).1,
        (cd.pieces (input.drop used)).2) := by
  cases input with
  | nil => exact absurd (cd.used_pos found) (Nat.not_lt.mpr (cd.used_le found))
  | cons a rest =>
    rw [pieces]
    split
    next used' out' found' =>
      rw [found] at found'
      cases found'
      rfl
    next found' => cases found.symm.trans found'
    next found' => cases found.symm.trans found'

theorem pieces_invalid {a : α} {rest : List α} (found : cd.read (a :: rest) = .invalid) :
    cd.pieces (a :: rest) = (.invalid a :: (cd.pieces rest).1, (cd.pieces rest).2) := by
  rw [pieces]
  split
  next found' => cases found.symm.trans found'
  next => rfl
  next found' => cases found.symm.trans found'

theorem pieces_incomplete {input : List α} (found : cd.read input = .incomplete) :
    cd.pieces input = ([], input) := by
  cases input with
  | nil => exact cd.pieces_nil
  | cons a rest =>
    rw [pieces]
    split
    next found' => cases found.symm.trans found'
    next found' => cases found.symm.trans found'
    next => rfl

/-- An input is put together from its pieces and the end. -/
theorem flatMap_source_pieces (cd : Converter α β) (input : List α) :
    (cd.pieces input).1.flatMap Piece.source ++ (cd.pieces input).2 = input := by
  induction length : input.length using Nat.strongRecOn generalizing input with
  | _ n ih =>
    cases input with
    | nil => simp
    | cons a rest =>
      cases found : cd.read (a :: rest) with
      | char used out =>
        have used_pos := cd.used_pos found
        have shorter : ((a :: rest).drop used).length < n := by
          simp only [List.length_drop, ← length, List.length_cons]
          omega
        rw [pieces_char found, List.flatMap_cons, List.append_assoc, ih _ shorter _ rfl]
        exact List.take_append_drop used (a :: rest)
      | invalid =>
        have shorter : rest.length < n := by
          simp only [← length, List.length_cons]
          omega
        rw [pieces_invalid found, List.flatMap_cons, List.append_assoc, ih _ shorter _ rfl]
        rfl
      | incomplete => simp [pieces_incomplete found]

/-- The pieces in front of the others stand for the input in front of the rest. -/
theorem eq_append_of_pieces {input rest : List α} {before : List (Piece α β)}
    (split : cd.pieces input = (before ++ (cd.pieces rest).1, (cd.pieces rest).2)) :
    input = before.flatMap Piece.source ++ rest := by
  have whole := flatMap_source_pieces cd input
  rw [split, List.flatMap_append, List.append_assoc, flatMap_source_pieces] at whole
  exact whole.symm

/-- Why a run has ended, by the pieces that are left. -/
inductive Stops (cd : Converter α β) (room : Nat) : Run α β → Prop
  | done (out : List β) : Stops cd room ⟨out, [], .done⟩
  | full {out next : List β} {source rest : List α}
      (first : (cd.pieces rest).1.head? = some (.char source next))
      (overflow : room < out.length + next.length) : Stops cd room ⟨out, rest, .full⟩
  | invalid (out : List β) {a : α} {rest : List α}
      (first : cd.pieces (a :: rest) = (.invalid a :: (cd.pieces rest).1, (cd.pieces rest).2)) :
      Stops cd room ⟨out, a :: rest, .invalid⟩
  | incomplete (out : List β) {rest : List α} (nonempty : rest ≠ [])
      (first : cd.pieces rest = ([], rest)) : Stops cd room ⟨out, rest, .incomplete⟩

theorem Stops.prepend {room left : Nat} {out : List β} {run : Run α β}
    (sum : room ≤ out.length + left) (stops : Stops cd left run) :
    Stops cd room ⟨out ++ run.out, run.rest, run.status⟩ := by
  cases stops with
  | done => exact .done _
  | full first overflow =>
    apply Stops.full first
    simp only [List.length_append]
    omega
  | invalid _ first => exact .invalid _ first
  | incomplete _ nonempty first => exact .incomplete _ nonempty first

/-- A run takes characters as long as they fit, and tells what comes next. -/
structure Takes (cd : Converter α β) (room : Nat) (input : List α) (run : Run α β)
    (taken : List (List α × List β)) : Prop where
  pieces : cd.pieces input =
    (taken.map (fun piece => .char piece.1 piece.2) ++ (cd.pieces run.rest).1,
      (cd.pieces run.rest).2)
  out : run.out = taken.flatMap Prod.snd
  fits : run.out.length ≤ room
  stops : Stops cd room run

theorem Takes.of_none {room : Nat} {rest : List α} {status : Status}
    (stops : Stops cd room ⟨[], rest, status⟩) : Takes cd room rest ⟨[], rest, status⟩ [] :=
  ⟨rfl, rfl, Nat.zero_le _, stops⟩

theorem Takes.cons {room used : Nat} {input : List α} {out : List β} {run : Run α β}
    {taken : List (List α × List β)} (found : cd.read input = .char used out)
    (small : out.length ≤ room)
    (takes : Takes cd (room - out.length) (input.drop used) run taken) :
    Takes cd room input ⟨out ++ run.out, run.rest, run.status⟩
      ((input.take used, out) :: taken) where
  pieces := by
    rw [pieces_char found, takes.pieces]
    rfl
  out := by simp [takes.out]
  fits := by
    have fits := takes.fits
    rw [List.length_append]
    omega
  stops := takes.stops.prepend (by omega)

/-- Every run ends for one of the reasons. -/
theorem run_takes (cd : Converter α β) {fuel room : Nat} {input : List α}
    (enough : input.length ≤ fuel) :
    ∃ taken, Takes cd room input (cd.run fuel room input) taken := by
  induction fuel generalizing room input with
  | zero =>
    cases List.eq_nil_of_length_eq_zero (Nat.le_zero.mp enough)
    exact ⟨[], .of_none (.done [])⟩
  | succ fuel ih =>
    cases input with
    | nil => exact ⟨[], .of_none (.done [])⟩
    | cons a rest =>
      rw [run]
      cases found : cd.read (a :: rest) with
      | char used out =>
        simp only
        split
        next small =>
          have used_pos := cd.used_pos found
          have shorter : ((a :: rest).drop used).length ≤ fuel := by
            simp only [List.length_drop, List.length_cons] at enough ⊢
            omega
          obtain ⟨taken, takes⟩ := @ih (room - out.length) _ shorter
          exact ⟨_, takes.cons found small⟩
        next large =>
          have first : (cd.pieces (a :: rest)).1.head? =
              some (.char ((a :: rest).take used) out) := by
            rw [pieces_char found]
            rfl
          exact ⟨[], .of_none (.full first (by simpa using large))⟩
      | invalid => exact ⟨[], .of_none (.invalid [] (pieces_invalid found))⟩
      | incomplete =>
        exact ⟨[], .of_none (.incomplete [] (List.cons_ne_nil _ _) (pieces_incomplete found))⟩

end Converter

end StreamConversion
