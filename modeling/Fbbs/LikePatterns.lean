import Mathlib.Data.List.Infix

/-!
# Patterns with wildcards

Matching as in the `LIKE` of SQL.  A letter of the text may take several symbols,
the later ones marked by `inside`; a wildcard matches one letter or any sequence
of letters, and everything else is compared symbol by symbol with `same`.
-/

namespace LikePatterns

inductive Token (Symbol : Type*)
  | sequence
  | single
  | literal (symbol : Symbol)

variable {Symbol : Type*} (inside : Symbol → Bool) (same : Symbol → Symbol → Bool)

/-- The text does not start within a letter. -/
def boundary : List Symbol → Bool
  | [] => true
  | symbol :: _ => !inside symbol

/-- The proper tails of a text that start with a letter. -/
def laterTails : List Symbol → List (List Symbol)
  | [] => []
  | _ :: rest => (if boundary inside rest then [rest] else []) ++ laterTails rest

/-- The tails that are left after any number of letters. -/
def letterTails (text : List Symbol) : List (List Symbol) :=
  text :: laterTails inside text

/-- Whether the pattern matches the whole text. -/
def like : List (Token Symbol) → List Symbol → Bool
  | [], text => text.isEmpty
  | .sequence :: pattern, text => (letterTails inside text).any (like pattern)
  | .single :: _, [] => false
  | .single :: pattern, _ :: rest => like pattern (rest.dropWhile inside)
  | .literal _ :: _, [] => false
  | .literal symbol :: pattern, first :: rest =>
    same symbol first && like pattern rest

variable {inside same}

theorem mem_laterTails {tail text : List Symbol} :
    tail ∈ laterTails inside text ↔
      boundary inside tail = true ∧ ∃ before, before ≠ [] ∧ text = before ++ tail := by
  induction text with
  | nil =>
    constructor
    · intro member
      cases member
    · rintro ⟨-, before, nonempty, equal⟩
      exact absurd (List.append_eq_nil_iff.mp equal.symm).1 nonempty
  | cons symbol rest ih =>
    rw [laterTails, List.mem_append, ih]
    constructor
    · rintro (here | ⟨starts, before, -, rfl⟩)
      · split at here
        · rw [List.mem_singleton] at here
          subst here
          exact ⟨‹_›, [symbol], List.cons_ne_nil _ _, rfl⟩
        · cases here
      · exact ⟨starts, symbol :: before, List.cons_ne_nil _ _, rfl⟩
    · rintro ⟨starts, before, nonempty, equal⟩
      cases before with
      | nil => exact absurd rfl nonempty
      | cons first before =>
        rw [List.cons_append, List.cons.injEq] at equal
        cases before with
        | nil =>
          left
          rw [equal.2, List.nil_append, if_pos starts]
          exact List.mem_singleton_self tail
        | cons second before =>
          exact Or.inr ⟨starts, _, List.cons_ne_nil _ _, equal.2⟩

/-- A sequence leaves the text itself or a tail that starts with a letter. -/
theorem mem_letterTails {tail text : List Symbol} :
    tail ∈ letterTails inside text ↔
      ∃ before, text = before ++ tail ∧ (before = [] ∨ boundary inside tail = true) := by
  rw [letterTails, List.mem_cons, mem_laterTails]
  constructor
  · rintro (rfl | ⟨starts, before, -, equal⟩)
    · exact ⟨[], rfl, Or.inl rfl⟩
    · exact ⟨before, equal, Or.inr starts⟩
  · rintro ⟨before, equal, whole | starts⟩
    · subst whole
      exact Or.inl equal.symm
    · by_cases empty : before = []
      · subst empty
        exact Or.inl equal.symm
      · exact Or.inr ⟨starts, before, empty, equal⟩

/-- A last sequence matches whatever is left. -/
theorem like_sequence (text : List Symbol) : like inside same [.sequence] text = true := by
  rw [like, List.any_eq_true]
  exact ⟨[], mem_letterTails.mpr ⟨text, (List.append_nil text).symm, Or.inr rfl⟩, rfl⟩

/-- Literal symbols before another pattern match a prefix of the text. -/
theorem like_literals (symbols : List Symbol) (pattern : List (Token Symbol))
    (text : List Symbol) :
    like inside same (symbols.map .literal ++ pattern) text = true ↔
      ∃ front back, text = front ++ back ∧
        List.Forall₂ (fun symbol first => same symbol first = true) symbols front ∧
        like inside same pattern back = true := by
  induction symbols generalizing text with
  | nil =>
    constructor
    · intro matches_
      exact ⟨[], text, rfl, .nil, matches_⟩
    · rintro ⟨front, back, rfl, equal, matches_⟩
      cases equal
      exact matches_
  | cons symbol symbols ih =>
    cases text with
    | nil =>
      constructor
      · intro matches_
        cases matches_
      · rintro ⟨front, back, equal, forall₂, -⟩
        cases forall₂
        cases equal
    | cons first rest =>
      rw [List.map_cons, List.cons_append, like, Bool.and_eq_true, ih]
      constructor
      · rintro ⟨sameFirst, front, back, rfl, equal, matches_⟩
        exact ⟨first :: front, back, rfl, .cons sameFirst equal, matches_⟩
      · rintro ⟨front, back, equal, forall₂, matches_⟩
        cases forall₂ with
        | cons sameFirst rest =>
          rw [List.cons_append, List.cons.injEq] at equal
          obtain ⟨rfl, rfl⟩ := equal
          exact ⟨sameFirst, _, back, rfl, rest, matches_⟩

/-- Literal symbols between two sequences are looked for in the text, at the
start of a letter. -/
theorem like_contains (symbols text : List Symbol) :
    like inside same (.sequence :: symbols.map .literal ++ [.sequence]) text = true ↔
      ∃ before front back, text = before ++ (front ++ back) ∧
        (before = [] ∨ boundary inside (front ++ back) = true) ∧
        List.Forall₂ (fun symbol first => same symbol first = true) symbols front := by
  rw [List.cons_append, like, List.any_eq_true]
  constructor
  · rintro ⟨tail, member, matches_⟩
    obtain ⟨before, textEq, starts⟩ := mem_letterTails.mp member
    obtain ⟨front, back, rfl, equal, -⟩ := (like_literals symbols _ tail).mp matches_
    exact ⟨before, front, back, textEq, starts, equal⟩
  · rintro ⟨before, front, back, textEq, starts, equal⟩
    exact ⟨front ++ back, mem_letterTails.mpr ⟨before, textEq, starts⟩,
      (like_literals symbols _ _).mpr ⟨front, back, rfl, equal, like_sequence back⟩⟩

section Samples

variable (inside) (filler : Symbol)

/-- A shortest text for the pattern, with a filler for single letters. -/
def sampleText : List (Token Symbol) → List Symbol
  | [] => []
  | .sequence :: pattern => sampleText pattern
  | .single :: pattern => filler :: sampleText pattern
  | .literal symbol :: pattern => symbol :: sampleText pattern

/-- After a single letter the sample goes on with another letter. -/
def Settled : List (Token Symbol) → Prop
  | [] => True
  | .sequence :: pattern => Settled pattern
  | .single :: pattern =>
    boundary inside (sampleText filler pattern) = true ∧ Settled pattern
  | .literal _ :: pattern => Settled pattern

variable {inside filler}

theorem dropWhile_of_boundary {text : List Symbol} (starts : boundary inside text = true) :
    text.dropWhile inside = text := by
  cases text with
  | nil => rfl
  | cons symbol rest =>
    rw [boundary, Bool.not_eq_true'] at starts
    rw [List.dropWhile_cons, starts]
    rfl

theorem like_sampleText (reflexive : ∀ symbol, same symbol symbol = true)
    {pattern : List (Token Symbol)} (settled : Settled inside filler pattern) :
    like inside same pattern (sampleText filler pattern) = true := by
  induction pattern with
  | nil => rfl
  | cons token pattern ih =>
    cases token with
    | sequence =>
      rw [like, List.any_eq_true]
      exact ⟨_, List.mem_cons_self, ih settled⟩
    | single =>
      rw [sampleText, like, dropWhile_of_boundary settled.1]
      exact ih settled.2
    | literal symbol =>
      rw [sampleText, like, reflexive, Bool.true_and]
      exact ih settled

end Samples

end LikePatterns
