import Fbbs.SavedLines

/-!
# The height of the screen

`screen_init` is called again with each size that the terminal reports.  A larger height makes
the buffer longer; neither the roll nor the lines that come from `realloc` are set.
-/

namespace Fbbs

namespace ScreenBuffer

def minScreenLines : Nat := 24

def maxScreenLines : Nat := 100

/-- `WRAPMARGIN`. -/
def wrapMargin : Nat := 255

/-- A height within the limits of the screen. -/
def clampLines (lines : Int) : Nat :=
  let lines := if lines < minScreenLines then (minScreenLines : Int) else lines
  (if lines > maxScreenLines then (maxScreenLines : Int) else lines).toNat

/-- `screen_init`, with what `malloc` or `realloc` has left in the new storage. -/
def screenInit (fresh : Nat → Line) (allocated : Bool) (lines : Int) (screen : Screen) :
    Screen :=
  let columns := if !allocated then wrapMargin else screen.columns
  let columns := if columns > screenLineLen then screenLineLen else columns
  let lines := clampLines lines
  if !allocated then
    { screen with
      columns
      buf := fun i =>
        if i < screen.lines then { fresh i with modified := false, len := 0, oldLen := 0 }
        else fresh i
      redraw := true
      roll := 0 }
  else if lines > screen.lines then
    { screen with
      columns
      buf := fun i => if i < screen.lines then screen.buf i else fresh i
      lines }
  else { screen with columns }

/-- The lines of the screen stay where they are and new lines are empty. -/
structure Grows (screen after : Screen) (lines : Int) : Prop where
  height : after.lines = max screen.lines (clampLines lines)
  kept : ∀ i < screen.lines, getScreenLine after i = getScreenLine screen i
  added : ∀ i, screen.lines ≤ i → i < after.lines →
    (getScreenLine after i).len = 0 ∧ (getScreenLine after i).modified = false

section Growth

variable {screen : Screen} {lines : Int}

theorem screenInit_of_le (lower : clampLines lines ≤ screen.lines) (fresh : Nat → Line) :
    screenInit fresh true lines screen =
      { screen with
        columns :=
          if screen.columns > screenLineLen then screenLineLen else screen.columns } :=
  if_neg (Nat.not_lt.mpr lower)

theorem screenInit_of_lt (higher : screen.lines < clampLines lines) (fresh : Nat → Line) :
    screenInit fresh true lines screen =
      { screen with
        columns := if screen.columns > screenLineLen then screenLineLen else screen.columns
        buf := fun i => if i < screen.lines then screen.buf i else fresh i
        lines := clampLines lines } :=
  if_pos higher

theorem grows_of_le (lower : clampLines lines ≤ screen.lines) (fresh : Nat → Line) :
    Grows screen (screenInit fresh true lines screen) lines := by
  rw [screenInit_of_le lower]
  constructor
  · exact (Nat.max_eq_left lower).symm
  · exact fun i _ => rfl
  · intro i outside inside
    exact absurd inside (Nat.not_lt.mpr outside)

/-- The first new line of the storage is shown somewhere, whatever it holds. -/
theorem not_grows_of_lt (higher : screen.lines < clampLines lines) :
    ∃ fresh, ¬Grows screen (screenInit fresh true lines screen) lines := by
  let grown : Screen := { screen with lines := clampLines lines }
  obtain ⟨number, below, place⟩ :
      ∃ number < grown.lines, slot grown number = screen.lines :=
    @exists_slot_eq grown screen.lines higher
  -- Storage with a line that differs from the one that was there.
  let garbage : Line := ⟨0, (getScreenLine screen number).len + 1, true, fun _ => 0⟩
  refine ⟨fun _ => garbage, ?_⟩
  intro grows
  have shown : getScreenLine (screenInit (fun _ => garbage) true lines screen) number =
      garbage := by
    rw [screenInit_of_lt higher, getScreenLine]
    have same : slot { screen with
        columns := if screen.columns > screenLineLen then screenLineLen else screen.columns
        buf := fun i => if i < screen.lines then screen.buf i else garbage
        lines := clampLines lines } number = screen.lines := place
    rw [same]
    exact if_neg (Nat.lt_irrefl _)
  by_cases old : number < screen.lines
  · have kept := grows.kept number old
    rw [shown] at kept
    have lengths := congrArg Line.len kept
    simp only [garbage] at lengths
    omega
  · have height : number < (screenInit (fun _ => garbage) true lines screen).lines := by
      rw [screenInit_of_lt higher]
      exact below
    have added := (grows.added number (Nat.le_of_not_lt old) height).2
    rw [shown] at added
    cases added

/-- Whatever the new storage holds, the screen keeps its contents exactly when it does not
grow. -/
theorem grows_iff :
    (∀ fresh, Grows screen (screenInit fresh true lines screen) lines) ↔
      clampLines lines ≤ screen.lines := by
  constructor
  · intro grows
    by_contra higher
    obtain ⟨fresh, fails⟩ := not_grows_of_lt (Nat.not_le.mp higher)
    exact fails (grows fresh)
  · exact grows_of_le

end Growth

/-- A window of 30 lines: the storage that is added is shown as it is. -/
theorem emptyScreen_not_grows :
    ¬∀ fresh, Grows emptyScreen (screenInit fresh true 30 emptyScreen) 30 := by
  intro grows
  obtain ⟨fresh, fails⟩ := @not_grows_of_lt emptyScreen 30 (by decide)
  exact fails (grows fresh)

end ScreenBuffer

end Fbbs
