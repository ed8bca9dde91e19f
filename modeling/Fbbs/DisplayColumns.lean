import Mathlib.Data.List.Basic
import Mathlib.Order.Basic

/-!
# Columns of a text on a terminal

Escape sequences take no column, the two items of a double-width character take two together,
and a tab goes on to the next tab stop.  Going on in a text the column never decreases.
-/

namespace DisplayColumns

inductive Kind where
  | escape
  | code
  | tab
  | lead
  | single
  deriving DecidableEq

/-- Between characters, within an escape sequence, or behind the first half of a character. -/
inductive Mode where
  | between
  | inEscape
  | inCharacter
  deriving DecidableEq

structure Cursor where
  mode : Mode
  column : Nat
  deriving DecidableEq

namespace Cursor

def start : Cursor :=
  ⟨.between, 0⟩

def advance (tabStop : Nat) : Cursor → Kind → Cursor
  | ⟨.inCharacter, column⟩, _ => ⟨.between, column⟩
  | ⟨.inEscape, column⟩, .escape => ⟨.inEscape, column⟩
  | ⟨.inEscape, column⟩, .code => ⟨.inEscape, column⟩
  | ⟨.inEscape, column⟩, _ => ⟨.between, column⟩
  | ⟨.between, column⟩, .escape => ⟨.inEscape, column⟩
  | ⟨.between, column⟩, .tab => ⟨.between, column + (tabStop - column % tabStop)⟩
  | ⟨.between, column⟩, .lead => ⟨.inCharacter, column + 2⟩
  | ⟨.between, column⟩, _ => ⟨.between, column + 1⟩

theorem column_le_advance (tabStop : Nat) (cursor : Cursor) (kind : Kind) :
    cursor.column ≤ (cursor.advance tabStop kind).column := by
  obtain ⟨mode, column⟩ := cursor
  cases mode <;> cases kind <;> simp [advance]

end Cursor

section Texts

variable {α : Type*} (kind : α → Kind) (tabStop : Nat)

/-- Where the cursor is behind a text that begins at `cursor`. -/
def after (cursor : Cursor) (text : List α) : Cursor :=
  text.foldl (fun cursor item => cursor.advance tabStop (kind item)) cursor

def columns (text : List α) : Nat :=
  (after kind tabStop Cursor.start text).column

@[simp] theorem after_nil (cursor : Cursor) : after kind tabStop cursor [] = cursor := rfl

@[simp] theorem after_cons (cursor : Cursor) (item : α) (text : List α) :
    after kind tabStop cursor (item :: text) =
      after kind tabStop (cursor.advance tabStop (kind item)) text := rfl

@[simp] theorem after_append (cursor : Cursor) (first second : List α) :
    after kind tabStop cursor (first ++ second) =
      after kind tabStop (after kind tabStop cursor first) second :=
  List.foldl_append

theorem column_le_after (cursor : Cursor) (text : List α) :
    cursor.column ≤ (after kind tabStop cursor text).column := by
  induction text generalizing cursor with
  | nil => exact Nat.le_refl _
  | cons item text ih =>
    exact Nat.le_trans (cursor.column_le_advance tabStop (kind item)) (ih _)

theorem columns_le_of_front {front text : List α} (isPrefix : front <+: text) :
    columns kind tabStop front ≤ columns kind tabStop text := by
  obtain ⟨rest, rfl⟩ := isPrefix
  rw [columns, columns, after_append]
  exact column_le_after kind tabStop _ rest

/-- A text that consists of codes and stands within an escape sequence does not move the
cursor. -/
theorem after_codes (column : Nat) {text : List α} (codes : ∀ item ∈ text, kind item = .code) :
    after kind tabStop ⟨.inEscape, column⟩ text = ⟨.inEscape, column⟩ := by
  induction text with
  | nil => rfl
  | cons item text ih =>
    rw [after_cons, codes item List.mem_cons_self]
    exact ih fun other member => codes other (List.mem_cons_of_mem _ member)

end Texts

end DisplayColumns
