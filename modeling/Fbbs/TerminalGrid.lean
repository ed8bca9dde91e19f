import Mathlib.Data.List.Basic
import Mathlib.Logic.Function.Iterate

/-!
# A terminal

A grid of characters with a cursor, and the commands that a program sends to it.
-/

namespace TerminalGrid

def blank : UInt8 := 32

@[ext]
structure Terminal where
  grid : Nat → Nat → UInt8
  line : Nat
  col : Nat

inductive Command
  | put (c : UInt8)
  | carriageReturn
  | lineFeed
  | backspace
  | moveTo (line col : Nat)
  | clearToEol
  | scrollReverse
  | clearScreen
  deriving DecidableEq

section Steps

variable (rows columns : Nat)

/-- The grid moved up by some rows; the rows below are blank. -/
def shifted (count : Nat) (grid : Nat → Nat → UInt8) : Nat → Nat → UInt8 :=
  fun line col => if line + count < rows then grid (line + count) col else blank

/-- The grid moved down by a row. -/
def shiftedBack (grid : Nat → Nat → UInt8) : Nat → Nat → UInt8 :=
  fun line col => if 0 < line ∧ line < rows then grid (line - 1) col else blank

def feed (terminal : Terminal) : Terminal :=
  if terminal.line + 1 < rows then { terminal with line := terminal.line + 1 }
  else { terminal with grid := shifted rows 1 terminal.grid }

/-- A character at the cursor; behind the last column it goes to the next line. -/
def write (terminal : Terminal) (c : UInt8) : Terminal :=
  let terminal :=
    if terminal.col < columns then terminal else feed rows { terminal with col := 0 }
  { terminal with
    grid := fun line col =>
      if line = terminal.line ∧ col = terminal.col then c else terminal.grid line col
    col := terminal.col + 1 }

def step (terminal : Terminal) : Command → Terminal
  | .put c => write rows columns terminal c
  | .carriageReturn => { terminal with col := 0 }
  | .lineFeed => feed rows terminal
  | .backspace => { terminal with col := terminal.col - 1 }
  | .moveTo line col => { terminal with line, col }
  | .clearToEol =>
    { terminal with
      grid := fun line col =>
        if line = terminal.line ∧ terminal.col ≤ col then blank else terminal.grid line col }
  | .scrollReverse =>
    if 0 < terminal.line then { terminal with line := terminal.line - 1 }
    else { terminal with grid := shiftedBack rows terminal.grid }
  | .clearScreen => ⟨fun _ _ => blank, 0, 0⟩

def run (terminal : Terminal) (commands : List Command) : Terminal :=
  commands.foldl (step rows columns) terminal

end Steps

section Lemmas

variable {rows columns : Nat}

theorem shifted_shifted (count : Nat) (grid : Nat → Nat → UInt8) :
    shifted rows 1 (shifted rows count grid) = shifted rows (count + 1) grid := by
  funext line col
  simp only [shifted]
  split
  · rw [show line + 1 + count = line + (count + 1) by omega]
  · rw [if_neg (by omega)]

theorem shifted_zero {grid : Nat → Nat → UInt8}
    (below : ∀ line col, rows ≤ line → grid line col = blank) : shifted rows 0 grid = grid := by
  funext line col
  rw [shifted, Nat.add_zero]
  split
  · rfl
  · exact (below line col (by omega)).symm

theorem shifted_below (count : Nat) (grid : Nat → Nat → UInt8) {line : Nat} (col : Nat)
    (below : rows ≤ line + count) : shifted rows count grid line col = blank :=
  if_neg (by omega)

theorem run_append (terminal : Terminal) (first second : List Command) :
    run rows columns terminal (first ++ second) =
      run rows columns (run rows columns terminal first) second :=
  List.foldl_append

theorem run_lineFeeds (count : Nat) {terminal : Terminal} (last : rows ≤ terminal.line + 1)
    (below : ∀ line col, rows ≤ line → terminal.grid line col = blank) :
    run rows columns terminal (List.replicate count .lineFeed) =
      { terminal with grid := shifted rows count terminal.grid } := by
  induction count with
  | zero => rw [shifted_zero below]; rfl
  | succ count ih =>
    rw [List.replicate_succ', run_append, ih]
    simp only [run, List.foldl_cons, List.foldl_nil, step, feed, if_neg (Nat.not_lt.mpr last),
      shifted_shifted]

/-- Characters in a row that stay before the last column. -/
theorem run_puts {terminal : Terminal} {bytes : List UInt8}
    (fits : terminal.col + bytes.length ≤ columns) :
    run rows columns terminal (bytes.map .put) =
      { terminal with
        grid := fun line col =>
          if line = terminal.line ∧ terminal.col ≤ col ∧ col < terminal.col + bytes.length then
            bytes.getD (col - terminal.col) blank
          else terminal.grid line col
        col := terminal.col + bytes.length } := by
  induction bytes generalizing terminal with
  | nil =>
    apply Terminal.ext
    · funext line col
      simp only [List.length_nil, Nat.add_zero]
      rw [if_neg (by omega)]
      rfl
    · rfl
    · rfl
  | cons c bytes ih =>
    rw [List.length_cons] at fits
    have first : step rows columns terminal (.put c) =
        { terminal with
          grid := fun line col =>
            if line = terminal.line ∧ col = terminal.col then c else terminal.grid line col
          col := terminal.col + 1 } := by
      simp only [step, write, if_pos (by omega : terminal.col < columns)]
    rw [List.map_cons, run, List.foldl_cons, first]
    change run rows columns _ (bytes.map .put) = _
    rw [ih (by simp only; omega)]
    apply Terminal.ext
    · funext line col
      simp only [List.length_cons]
      by_cases here : line = terminal.line
      · by_cases start : col = terminal.col
        · subst start
          rw [if_neg (by omega), if_pos ⟨here, rfl⟩, if_pos (by omega), Nat.sub_self]
          rfl
        · by_cases inside : terminal.col + 1 ≤ col ∧ col < terminal.col + 1 + bytes.length
          · rw [if_pos ⟨here, inside⟩, if_pos (by omega),
              show col - terminal.col = (col - (terminal.col + 1)) + 1 by omega]
            rfl
          · rw [if_neg (by tauto), if_neg (by tauto), if_neg (by omega)]
      · simp [here]
    · rfl
    · simp only [List.length_cons]
      omega

end Lemmas

end TerminalGrid
