import Fbbs.CommonPrefixes
import Fbbs.FreshMemory
import Fbbs.TransitionRuns
import Fbbs.UserCache

/-!
# Completing a name

`_autocomplete` of `src/autocomplete.c` lists the names that match what is typed in columns, and
extends it by what they have in common.  It is the same loop that does both, and it ends at a
column that does not fit on the screen.  A list is the sequence of its names, and a node is what
is left of the list from there.
-/

namespace Fbbs

open AsciiBytes CommonPrefixes FreshMemory UserCache

/-- `struct ac_list`; a null pointer among the nodes is the empty list. -/
structure AcList where
  head : List CString
  col : Option (Memory (List CString))
  seek : List CString
  deriving DecidableEq

namespace AcList

/-- `ac_list_new` with some calls of `ac_list_add`. -/
def new (names : List CString) : AcList :=
  ⟨names, none, []⟩

def nextMatch (l : List CString) (pre : CString) : List CString :=
  l.dropWhile fun name => !strncaseeq pre.bytes.length pre name

def columns : Nat := 80

/-- The variables of the loop. -/
structure Layout where
  col : Memory (List CString)
  xbase : Nat
  width : Nat
  count : Nat
  extra : Nat

/-- The comparison of bytes up to the first that differ. -/
def sameBytes : Bytes → Bytes → Nat → Nat
  | b :: base, n :: name, k + 1 => if b ≠ n then 0 else sameBytes base name k + 1
  | _, _, _ => 0

/-- The part of a round that shortens the extension. -/
def shorten (base : Bytes) (len extra : Nat) (name : Bytes) : Nat :=
  if extra ≠ 0 then
    sameBytes (base.drop len) (name.drop len) (min extra (name.length - len))
  else extra

/-- The part of a round for a name that matches; `none` if the table of nodes is too short. -/
def place (base : Bytes) (len : Nat) (l : List CString) (name : CString) (s : Layout) :
    Option Layout :=
  (store s.col s.count l).map fun col =>
    { s with
      col := col
      count := s.count + 1
      width := max s.width name.bytes.length
      extra := shorten base len s.extra name.bytes }

/-- The loop, with the node that is kept at its end; `none` if the table of nodes is left, or if
it is read where nothing is written yet. -/
def layOut (rows : Int) (buf : CString) (base : Bytes) :
    List CString → Layout → Option (Layout × List CString)
  | [], s => some (s, [])
  | name :: next, s =>
    (if strncaseeq buf.bytes.length name buf then
        place base buf.bytes.length (name :: next) name s
      else some s).bind fun s =>
    if s.count = rows - 1 ∨ next = [] then
      if s.xbase + s.width > columns then
        (s.col[0]?.join).map fun seek => (s, seek)
      else
        layOut rows buf base next
          { s with xbase := s.xbase + s.width + 1, width := 0, count := 0 }
    else layOut rows buf base next s

/-- The columns from a node on, and the extension of the text.  It is taken from the node that is
first in the table; `none` also if that is shorter than the text. -/
def extend (acl : AcList) (rows : Int) (buf : CString) (size : Nat) (base : Bytes) (extra : Nat)
    (col : Memory (List CString)) : Option (Nat × AcList × CString) :=
  (layOut rows buf base (if acl.seek = [] then acl.head else acl.seek)
      ⟨col, 0, 0, 0, extra⟩).bind fun (s, seek) =>
    let len := buf.bytes.length
    let extra := if len + s.extra ≥ size - 1 then size - 1 - len else s.extra
    let after : AcList := ⟨acl.head, some s.col, seek⟩
    if extra > 0 then
      (s.col[0]?.join.bind List.head?).bind fun name =>
        if len ≤ name.bytes.length then
          some (extra, after, CString.ofBytes (buf.bytes ++ (name.bytes.drop len).take extra))
        else none
    else some (extra, after, buf)

/-- `_autocomplete`: the number that it returns, the list and the text.  The rows of the screen
below the text are two more.  The table of nodes is allocated once, for the rows there are then. -/
def autocomplete (acl : AcList) (rows : Int) (buf : CString) (size : Nat) :
    Option (Nat × AcList × CString) :=
  if acl.seek = [] ∨ acl.seek = acl.head then
    match nextMatch acl.head buf with
    | [] => some (0, acl, buf)
    | l1 :: next =>
      let extra := l1.bytes.length - buf.bytes.length
      if nextMatch next buf = [] then some (extra, acl, l1.truncate size)
      else acl.extend rows buf size l1.bytes extra (acl.col.getD (malloc rows.toNat))
  else acl.col.bind fun col => acl.extend rows buf size [] 0 col

/-! ## What a completion should be -/

/-- The names that match. -/
def candidates (names : List CString) (buf : CString) : List CString :=
  names.filter fun name => strncaseeq buf.bytes.length buf name

def fold (name : Bytes) : Bytes :=
  name.map tolower

/-- A text is a completion of another one: it excludes no name that matches, and it is as long as
possible among the texts that are spelled like the first of them. -/
structure Completes (names : List CString) (buf : CString) (size : Nat) (text : CString)
    (added : Nat) : Prop where
  keeps : ∀ name ∈ candidates names buf, fold text.bytes <+: fold name.bytes
  extends_ : fold buf.bytes <+: fold text.bytes
  spelled : ∀ first ∈ (candidates names buf).head?,
    text.bytes.drop buf.bytes.length <+: first.bytes.drop buf.bytes.length
  inside : text.bytes.length ≤ size - 1
  longest : ∀ first ∈ (candidates names buf).head?, ∀ k ≤ first.bytes.length, k ≤ size - 1 →
    (∀ name ∈ candidates names buf, fold (first.bytes.take k) <+: fold name.bytes) →
      k ≤ text.bytes.length
  added_eq : buf.bytes.length + added = text.bytes.length

/-- The press ends with a completion of the typed text. -/
def Completed (acl : AcList) (rows : Int) (buf : CString) (size : Nat) : Prop :=
  ∃ added after text, acl.autocomplete rows buf size = some (added, after, text) ∧
    Completes acl.head buf size text added

/-- The names that are laid out of those that match: columns of one row less than there are, up to
the first column that does not fit. -/
def listed (rows : Int) (xbase width count : Nat) : List CString → List CString
  | [] => []
  | name :: more =>
    name ::
      if (count + 1 : Nat) = rows - 1 then
        if xbase + max width name.bytes.length > columns then []
        else listed rows (xbase + max width name.bytes.length + 1) 0 0 more
      else listed rows xbase (max width name.bytes.length) (count + 1) more

/-- The bytes behind the typed text that a name has exactly in common with others. -/
def exactly (buf first : CString) (names : List CString) : Nat :=
  agreementAll (first.bytes.drop buf.bytes.length)
    (names.map fun name => name.bytes.drop buf.bytes.length)

/-- The bytes behind the typed text that a name has in common with others but for their case. -/
def caseless (buf first : CString) (names : List CString) : Nat :=
  agreementAll (fold (first.bytes.drop buf.bytes.length))
    (names.map fun name => fold (name.bytes.drop buf.bytes.length))

/-- The names in front of the first that matches. -/
def skipped (names : List CString) (buf : CString) : Nat :=
  (names.takeWhile fun name => !strncaseeq buf.bytes.length buf name).length

/-- On a screen of one row each name that does not match takes a column. -/
def Blocked (rows : Int) (names : List CString) (buf : CString) : Prop :=
  rows = 1 ∧ columns + 2 ≤ skipped names buf

instance (rows : Int) (names : List CString) (buf : CString) : Decidable (Blocked rows names buf) :=
  inferInstanceAs (Decidable (_ ∧ _))

/-- The names in the longest column of those that match. -/
def longest (rows : Int) (matching : Nat) : Int :=
  if 2 ≤ rows then min (rows - 1) matching else matching

/-- The table, or the one that is allocated, has room for a column. -/
def HasRoom (acl : AcList) (rows : Int) (names : List CString) (buf : CString) : Prop :=
  longest rows (candidates names buf).length ≤ ((acl.col.map List.length).getD rows.toNat : Nat)

/-- The name that is first in the table. -/
def front (acl : AcList) : Option CString :=
  (acl.col.bind fun col => col[0]?.join).bind List.head?

/-- The names that are shown spell what all names have in common but for their case, as far as
there is room, like the first.  If there is more room, one of them shows where it ends. -/
def Shows (buf first : CString) (size : Nat) (shown names : List CString) : Prop :=
  (∀ name ∈ shown, (first.bytes.drop buf.bytes.length).take
      (min (caseless buf first names) (size - 1 - buf.bytes.length)) <+:
        name.bytes.drop buf.bytes.length) ∧
    (caseless buf first names < size - 1 - buf.bytes.length →
      caseless buf first names < (first.bytes.drop buf.bytes.length).length →
        ∃ name ∈ shown, ¬(first.bytes.drop buf.bytes.length).take (caseless buf first names + 1) <+:
          name.bytes.drop buf.bytes.length)

/-- From the start of the list: a single name that matches has room, and of several the names on
the screen show what they have in common.  Nothing is shown on a screen that is blocked, but a name
from an earlier press is taken.  From a later place: the names have nothing more in common. -/
def Suits (acl : AcList) (rows : Int) (buf : CString) (size : Nat) : Prop :=
  if acl.seek = [] ∨ acl.seek = acl.head then
    match candidates acl.head buf with
    | [] => True
    | [only] => only.bytes.length < size
    | first :: more =>
      if Blocked rows acl.head buf then
        Shows buf first size [] (first :: more) ∧
          ∃ name, acl.front = some name ∧
            (first.bytes.drop buf.bytes.length).take (size - 1 - buf.bytes.length) <+:
              name.bytes.drop buf.bytes.length
      else
        acl.HasRoom rows acl.head buf ∧
          Shows buf first size (listed rows 0 0 0 (first :: more)) (first :: more)
  else
    (Blocked rows acl.seek buf ∨ acl.HasRoom rows acl.seek buf) ∧
      ∀ first ∈ (candidates acl.head buf).head?,
        min (caseless buf first (candidates acl.head buf)) (size - 1 - buf.bytes.length) = 0

/-! ## The loop -/

theorem sameBytes_eq (base name : Bytes) (k : Nat) :
    sameBytes base name k = min k (agreement base name) := by
  induction k generalizing base name with
  | zero => cases base <;> cases name <;> simp [sameBytes]
  | succ k ih =>
    cases base with
    | nil => simp [sameBytes, agreement]
    | cons b base =>
      cases name with
      | nil => simp [sameBytes, agreement]
      | cons n name =>
        rw [sameBytes, agreement]
        by_cases same : b = n
        · rw [if_neg (not_not.mpr same), if_pos same, ih, Nat.add_min_add_right]
        · rw [if_pos same, if_neg same, Nat.min_zero]

theorem shorten_eq (base : Bytes) (len extra : Nat) (name : Bytes) :
    shorten base len extra name = min extra (agreement (base.drop len) (name.drop len)) := by
  have most := agreement_le_length (base.drop len) (name.drop len)
  rw [List.length_drop] at most
  unfold shorten
  split
  next => rw [sameBytes_eq]; omega
  next none => omega

/-- No name is laid out yet. -/
def Layout.Blank (rows : Int) (s : Layout) : Prop :=
  s.count = 0 ∧ s.width = 0 ∧ (rows = 1 ∨ s.xbase = 0)

/-- The first node in the table has the extension in common with the first name. -/
def Layout.Seen (base : Bytes) (len : Nat) (s : Layout) : Prop :=
  ∃ name rest, s.col[0]? = some (some (name :: rest)) ∧
    s.extra ≤ agreement (base.drop len) (name.bytes.drop len)

theorem strncaseeq_comm (count : Nat) (left right : CString) :
    strncaseeq count left right = strncaseeq count right left :=
  Bool.beq_comm ..

theorem skipped_of_match {name : CString} {next : List CString} {buf : CString}
    (matching : strncaseeq buf.bytes.length buf name = true) : skipped (name :: next) buf = 0 := by
  rw [skipped, List.takeWhile_cons_of_neg (by rw [matching]; decide), List.length_nil]

theorem skipped_of_not_match {name : CString} {next : List CString} {buf : CString}
    (matching : ¬strncaseeq buf.bytes.length buf name = true) :
    skipped (name :: next) buf = skipped next buf + 1 := by
  rw [skipped, List.takeWhile_cons_of_pos (by rw [eq_false_of_ne_true matching]; rfl),
    List.length_cons, skipped]

theorem candidates_of_match {name : CString} {next : List CString} {buf : CString}
    (matching : strncaseeq buf.bytes.length buf name = true) :
    candidates (name :: next) buf = name :: candidates next buf :=
  List.filter_cons_of_pos matching

theorem candidates_of_not_match {name : CString} {next : List CString} {buf : CString}
    (matching : ¬strncaseeq buf.bytes.length buf name = true) :
    candidates (name :: next) buf = candidates next buf :=
  List.filter_cons_of_neg matching

/-- Without a second row all names stand in one column. -/
theorem listed_of_few {rows : Int} (few : rows < 2) (xbase width count : Nat)
    (names : List CString) : listed rows xbase width count names = names := by
  induction names generalizing xbase width count with
  | nil => rfl
  | cons name more ih =>
    rw [listed, if_neg (by omega), ih]

/-- The columns are not used up by names that do not match. -/
def Layout.Passes (rows : Int) (names : List CString) (buf : CString) (s : Layout) : Prop :=
  rows = 1 → s.count = 0 → s.width = 0 ∧ s.xbase + skipped names buf ≤ columns + 1

/-- A name that does not match and is not the last is passed. -/
theorem layOut_pass {rows : Int} {buf name : CString} {base : Bytes} {next : List CString}
    {s : Layout} (matching : ¬strncaseeq buf.bytes.length buf name = true)
    (free : 2 ≤ rows → (s.count + 1 : Nat) < rows) (passes : s.Passes rows (name :: next) buf)
    (more : next ≠ []) :
    ∃ xbase, layOut rows buf base (name :: next) s =
        layOut rows buf base next { s with xbase := xbase } ∧
      Layout.Passes rows next buf { s with xbase := xbase } ∧ (rows ≠ 1 → xbase = s.xbase) := by
  rw [Layout.Passes, skipped_of_not_match matching] at passes
  rw [layOut, strncaseeq_comm, if_neg matching, Option.bind_some]
  by_cases full : (s.count : Int) = rows - 1
  · have one : rows = 1 := by omega
    have begins : s.count = 0 := by omega
    obtain ⟨noWidth, front⟩ := passes one begins
    have narrow : ¬s.xbase + s.width > columns := by omega
    rw [if_pos (.inl full), if_neg narrow]
    refine ⟨s.xbase + s.width + 1, ?_, fun _ _ => ⟨noWidth, ?_⟩, fun other => absurd one other⟩
    · rw [begins, noWidth]
    · change s.xbase + s.width + 1 + skipped next buf ≤ columns + 1
      omega
  · rw [if_neg (not_or.mpr ⟨full, more⟩)]
    refine ⟨s.xbase, rfl, fun one begins => ?_, fun _ => rfl⟩
    obtain ⟨noWidth, front⟩ := passes one begins
    refine ⟨noWidth, ?_⟩
    change s.xbase + skipped next buf ≤ columns + 1
    omega

theorem place_eq {base : Bytes} {len : Nat} {next : List CString} {name : CString} {s : Layout}
    (room : s.count < s.col.length) :
    place base len (name :: next) name s = some { s with
      col := s.col.set s.count (some (name :: next))
      count := s.count + 1
      width := max s.width name.bytes.length
      extra := shorten base len s.extra name.bytes } := by
  rw [place, store, if_pos room, Option.map_some]

theorem place_spec {base : Bytes} {len : Nat} {next : List CString} {name : CString} {s : Layout}
    (room : s.count < s.col.length) (seen : s.count = 0 ∨ s.Seen base len) :
    ∃ placed, place base len (name :: next) name s = some placed ∧
      placed.col.length = s.col.length ∧ placed.count = s.count + 1 ∧
      placed.width = max s.width name.bytes.length ∧ placed.xbase = s.xbase ∧
      placed.extra = shorten base len s.extra name.bytes ∧ placed.Seen base len := by
  refine ⟨_, place_eq room, List.length_set, rfl, rfl, rfl, rfl, ?_⟩
  rw [Layout.Seen, shorten_eq]
  by_cases begins : s.count = 0
  · have first : 0 < s.col.length := begins ▸ room
    exact ⟨name, next, by simp [begins, first], Nat.min_le_right _ _⟩
  · obtain ⟨old, rest, oldEq, extra⟩ := seen.resolve_left begins
    refine ⟨old, rest, ?_, Nat.le_trans (Nat.min_le_left _ _) extra⟩
    rw [List.getElem?_set_ne begins, oldEq]

/-- A last name that does not match ends the list, at the latest where a column is full. -/
theorem layOut_last {rows : Int} {buf name : CString} {base : Bytes} {s : Layout}
    (matching : ¬strncaseeq buf.bytes.length buf name = true) (passes : s.Passes rows [name] buf)
    (seen : s.Blank rows ∨ s.Seen base buf.bytes.length) :
    ∃ after seek, layOut rows buf base [name] s = some (after, seek) ∧ after.extra = s.extra ∧
      (s.Seen base buf.bytes.length → after.Seen base buf.bytes.length) := by
  rw [layOut, strncaseeq_comm, if_neg matching, Option.bind_some, if_pos (.inr rfl)]
  split
  next wide =>
    obtain ⟨begins, noWidth, start⟩ | already := seen
    · rw [Layout.Passes, skipped_of_not_match matching] at passes
      obtain one | front := start
      · have front := (passes one begins).2
        omega
      · rw [front, noWidth] at wide
        exact absurd wide (by decide)
    · obtain ⟨first, rest, firstEq, -⟩ := id already
      exact ⟨s, first :: rest, by rw [firstEq]; rfl, rfl, fun _ => already⟩
  next => exact ⟨_, [], rfl, rfl, id⟩

theorem layOut_spec {rows : Int} {buf : CString} {base : Bytes} {l : List CString} {s : Layout}
    (room : longest rows (s.count + (candidates l buf).length) ≤ (s.col.length : Nat))
    (free : 2 ≤ rows → (s.count + 1 : Nat) < rows) (passes : s.Passes rows l buf)
    (seen : s.Blank rows ∨ s.Seen base buf.bytes.length) :
    ∃ after seek, layOut rows buf base l s = some (after, seek) ∧
      after.extra = (listed rows s.xbase s.width s.count (candidates l buf)).foldl
        (fun extra name => shorten base buf.bytes.length extra name.bytes) s.extra ∧
      (candidates l buf ≠ [] ∨ s.Seen base buf.bytes.length →
        after.Seen base buf.bytes.length) := by
  induction l generalizing s with
  | nil =>
    refine ⟨s, [], rfl, rfl, ?_⟩
    rintro (nonempty | already)
    · exact absurd rfl nonempty
    · exact already
  | cons name next ih =>
    by_cases matching : strncaseeq buf.bytes.length buf name = true
    · rw [candidates_of_match matching] at room ⊢
      have inBlock : s.count < s.col.length := by
        rw [longest, List.length_cons] at room
        split at room <;> omega
      obtain ⟨placed, placeEq, length, count, width, xbase, extra, placedSeen⟩ :=
        @place_spec base _ next name s inBlock (seen.imp_left And.left)
      rw [layOut, strncaseeq_comm, if_pos matching, placeEq, Option.bind_some, listed,
        List.foldl_cons, ← extra, ← count, ← xbase, ← width]
      have room' : longest rows (placed.count + (candidates next buf).length) ≤
          (placed.col.length : Nat) := by
        rw [length, count, Nat.add_assoc, Nat.add_comm 1]
        exact room
      have placedPasses : ∀ names, placed.Passes rows names buf := by
        intro names _ begins
        omega
      by_cases full : (placed.count : Int) = rows - 1
      · rw [if_pos (.inl full), if_pos full]
        by_cases wide : placed.xbase + placed.width > columns
        · obtain ⟨first, rest, firstEq, -⟩ := id placedSeen
          rw [if_pos wide, if_pos wide, firstEq]
          exact ⟨placed, _, rfl, rfl, fun _ => placedSeen⟩
        · rw [if_neg wide, if_neg wide]
          obtain ⟨after, seek, ran, extraEq, afterSeen⟩ := @ih
            { placed with xbase := placed.xbase + placed.width + 1, width := 0, count := 0 }
            (by
              change longest rows (0 + (candidates next buf).length) ≤ (placed.col.length : Nat)
              have two : 2 ≤ rows := by omega
              rw [longest, if_pos two] at room' ⊢
              omega)
            (fun _ => by change ((0 + 1 : Nat) : Int) < rows; omega)
            (fun one _ => by omega) (.inr placedSeen)
          exact ⟨after, seek, ran, extraEq, fun _ => afterSeen (.inr placedSeen)⟩
      · rw [if_neg full]
        by_cases last : next = []
        · obtain ⟨first, rest, firstEq, -⟩ := id placedSeen
          rw [if_pos (.inr last), last, candidates, List.filter_nil, listed, List.foldl_nil]
          split
          · exact ⟨placed, first :: rest, by rw [firstEq]; rfl, rfl, fun _ => placedSeen⟩
          · exact ⟨_, [], rfl, rfl, fun _ => placedSeen⟩
        · rw [if_neg (not_or.mpr ⟨full, last⟩)]
          obtain ⟨after, seek, ran, extraEq, afterSeen⟩ :=
            ih room' (by omega) (placedPasses next) (.inr placedSeen)
          exact ⟨after, seek, ran, extraEq, fun _ => afterSeen (.inr placedSeen)⟩
    · rw [candidates_of_not_match matching] at room ⊢
      by_cases last : next = []
      · subst last
        obtain ⟨after, seek, ran, extraEq, afterSeen⟩ := layOut_last matching passes seen
        refine ⟨after, seek, ran, extraEq, ?_⟩
        rintro (nonempty | already)
        · exact absurd rfl nonempty
        · exact afterSeen already
      · obtain ⟨xbase, passed, passes', same⟩ :=
          @layOut_pass rows buf name base next s matching free passes last
        have seen' : Layout.Blank rows { s with xbase := xbase } ∨
            Layout.Seen base buf.bytes.length { s with xbase := xbase } := by
          refine seen.imp_left fun blank => ⟨blank.1, blank.2.1, ?_⟩
          by_cases one : rows = 1
          · exact .inl one
          · exact blank.2.2.imp_right (same one).trans
        obtain ⟨after, seek, ran, extraEq, afterSeen⟩ :=
          @ih { s with xbase := xbase } room free passes' seen'
        refine ⟨after, seek, passed.trans ran, extraEq.trans ?_, afterSeen⟩
        by_cases one : rows = 1
        · have few : rows < 2 := by omega
          rw [listed_of_few few, listed_of_few few]
        · rw [same one]

/-- A column that is longer than the table leaves it. -/
theorem layOut_over {rows : Int} {buf : CString} {base : Bytes} {l : List CString} {s : Layout}
    (beyond : (s.col.length : Nat) < longest rows (s.count + (candidates l buf).length))
    (inside : s.count ≤ s.col.length) (free : 2 ≤ rows → (s.count + 1 : Nat) < rows)
    (passes : s.Passes rows l buf) : layOut rows buf base l s = none := by
  induction l generalizing s with
  | nil =>
    rw [longest, candidates, List.filter_nil, List.length_nil] at beyond
    split at beyond <;> omega
  | cons name next ih =>
    by_cases matching : strncaseeq buf.bytes.length buf name = true
    · rw [candidates_of_match matching, List.length_cons] at beyond
      rw [layOut, strncaseeq_comm, if_pos matching]
      rcases Nat.lt_or_eq_of_le inside with inBlock | atEnd
      · have notFull : ((s.count + 1 : Nat) : Int) ≠ rows - 1 := by
          rw [longest] at beyond
          split at beyond <;> omega
        have notLast : next ≠ [] := by
          rintro rfl
          rw [longest, candidates, List.filter_nil, List.length_nil] at beyond
          split at beyond <;> omega
        rw [place_eq inBlock, Option.bind_some, if_neg (not_or.mpr ⟨notFull, notLast⟩)]
        apply ih
        · change ((s.col.set _ _).length : Int) <
            longest rows (s.count + 1 + (candidates next buf).length)
          rw [List.length_set, Nat.add_assoc, Nat.add_comm 1]
          exact beyond
        · change s.count + 1 ≤ (s.col.set _ _).length
          rw [List.length_set]
          exact inBlock
        · intro two
          change ((s.count + 1 + 1 : Nat) : Int) < rows
          have below := free two
          omega
        · exact fun _ begins => absurd begins (Nat.succ_ne_zero _)
      · rw [place, store, if_neg (by omega)]
        rfl
    · rw [candidates_of_not_match matching] at beyond
      have notLast : next ≠ [] := by
        rintro rfl
        rw [longest, candidates, List.filter_nil, List.length_nil] at beyond
        split at beyond <;> omega
      obtain ⟨xbase, passed, passes', -⟩ :=
        @layOut_pass rows buf name base next s matching free passes notLast
      rw [passed]
      exact ih beyond inside free passes'

/-- On a screen of one row the columns are used up by names that do not match. -/
theorem layOut_blocked {buf : CString} {base : Bytes} {l : List CString} {s : Layout}
    (begins : s.count = 0) (noWidth : s.width = 0) (narrow : s.xbase ≤ columns + 1)
    (wide : columns + 2 ≤ s.xbase + skipped l buf) :
    ∃ xbase, layOut 1 buf base l s =
      (s.col[0]?.join).map fun seek => ({ s with xbase := xbase }, seek) := by
  induction l generalizing s with
  | nil =>
    rw [skipped, List.takeWhile_nil, List.length_nil] at wide
    omega
  | cons name next ih =>
    by_cases matching : strncaseeq buf.bytes.length buf name = true
    · rw [skipped_of_match matching] at wide
      omega
    · rw [skipped_of_not_match matching] at wide
      rw [layOut, strncaseeq_comm, if_neg matching, Option.bind_some,
        if_pos (.inl (by rw [begins]; rfl))]
      by_cases full : s.xbase + s.width > columns
      · rw [if_pos full]
        exact ⟨s.xbase, rfl⟩
      · rw [if_neg full]
        obtain ⟨xbase, ran⟩ := @ih
          { s with xbase := s.xbase + s.width + 1, width := 0, count := 0 } rfl rfl
          (by change s.xbase + s.width + 1 ≤ columns + 1; omega)
          (by change columns + 2 ≤ s.xbase + s.width + 1 + skipped next buf; omega)
        refine ⟨xbase, ran.trans ?_⟩
        rw [begins, noWidth]

theorem nextMatch_cases (l : List CString) (buf : CString) :
    (nextMatch l buf = [] ∧ candidates l buf = []) ∨
      ∃ name next, nextMatch l buf = name :: next ∧
        candidates l buf = name :: candidates next buf := by
  induction l with
  | nil => exact .inl ⟨rfl, rfl⟩
  | cons name next ih =>
    by_cases matching : strncaseeq buf.bytes.length buf name = true
    · refine .inr ⟨name, next, ?_, List.filter_cons_of_pos matching⟩
      rw [nextMatch, List.dropWhile_cons_of_neg (by rw [matching]; decide)]
    · have skipped : nextMatch (name :: next) buf = nextMatch next buf :=
        List.dropWhile_cons_of_pos (by rw [eq_false_of_ne_true matching]; rfl)
      have dropped : candidates (name :: next) buf = candidates next buf :=
        List.filter_cons_of_neg matching
      rw [skipped, dropped]
      exact ih

/-! ## Completions -/

theorem mem_candidates_iff {names : List CString} {buf name : CString} :
    name ∈ candidates names buf ↔
      name ∈ names ∧
        fold name.bytes = fold buf.bytes ++ fold (name.bytes.drop buf.bytes.length) := by
  rw [candidates, List.mem_filter, strncaseeq, List.take_length, beq_iff_eq]
  apply and_congr_right
  intro _
  have split : fold name.bytes =
      fold (name.bytes.take buf.bytes.length) ++ fold (name.bytes.drop buf.bytes.length) := by
    rw [fold, fold, fold, ← List.map_append, List.take_append_drop]
  rw [split, List.append_cancel_right_eq]
  exact eq_comm

/-- A text that is spelled like the first name behind the typed text excludes no name exactly if
it is no longer than what the names have in common but for their case. -/
theorem keeps_iff {names : List CString} {buf first : CString} {k : Nat}
    (inside : k ≤ first.bytes.length - buf.bytes.length) :
    (∀ name ∈ candidates names buf,
      fold buf.bytes ++ fold ((first.bytes.drop buf.bytes.length).take k) <+: fold name.bytes) ↔
      k ≤ caseless buf first (candidates names buf) := by
  rw [caseless, le_agreementAll_iff, List.forall_mem_map]
  have long : k ≤ (fold (first.bytes.drop buf.bytes.length)).length := by
    rw [fold, List.length_map, List.length_drop]
    exact inside
  rw [and_iff_right long]
  apply forall₂_congr
  intro name member
  rw [(mem_candidates_iff.mp member).2, List.prefix_append_right_inj, le_agreement_iff,
    and_iff_right long, fold, List.map_take]
  exact Iff.rfl

section Completion

variable {names : List CString} {buf first : CString}
  (begins : (candidates names buf).head? = some first)
include begins

theorem first_mem : first ∈ candidates names buf :=
  List.mem_of_head? begins

theorem length_le_first : buf.bytes.length ≤ first.bytes.length := by
  have matching := (mem_candidates_iff.mp (first_mem begins)).2
  have lengths := congrArg List.length matching
  rw [fold, fold, fold, List.length_map, List.length_append, List.length_map] at lengths
  omega

theorem fold_take_first (k : Nat) :
    fold (first.bytes.take (buf.bytes.length + k)) =
      fold buf.bytes ++ fold ((first.bytes.drop buf.bytes.length).take k) := by
  have matching := (mem_candidates_iff.mp (first_mem begins)).2
  have length : (fold buf.bytes).length = buf.bytes.length := List.length_map ..
  calc
    fold (first.bytes.take (buf.bytes.length + k)) =
        (fold first.bytes).take (buf.bytes.length + k) := List.map_take ..
    _ = fold buf.bytes ++ (fold (first.bytes.drop buf.bytes.length)).take k := by
      rw [matching, ← length, List.take_length_add_append, length]
    _ = _ := by rw [fold, fold, fold, List.map_take]

/-- A text that goes on like the first name completes the typed text exactly if it does so as far
as the names have in common but for their case, and as far as there is room. -/
theorem completes_iff {size extra : Nat} {text : CString} (room : buf.bytes.length < size)
    (inside : extra ≤ first.bytes.length - buf.bytes.length)
    (textEq : text.bytes = buf.bytes ++ (first.bytes.drop buf.bytes.length).take extra) :
    Completes names buf size text extra ↔
      extra = min (caseless buf first (candidates names buf)) (size - 1 - buf.bytes.length) := by
  have shorter := length_le_first begins
  have length : text.bytes.length = buf.bytes.length + extra := by
    rw [textEq, List.length_append, List.length_take, List.length_drop]
    omega
  have folded : fold text.bytes =
      fold buf.bytes ++ fold ((first.bytes.drop buf.bytes.length).take extra) := by
    rw [textEq, fold, List.map_append]
    rfl
  have common := agreementAll_le_length (fold (first.bytes.drop buf.bytes.length))
    ((candidates names buf).map fun name => fold (name.bytes.drop buf.bytes.length))
  rw [fold, List.length_map, List.length_drop] at common
  change caseless buf first (candidates names buf) ≤ _ at common
  constructor
  · intro completes
    have atMost : extra ≤ caseless buf first (candidates names buf) := by
      rw [← keeps_iff inside, ← folded]
      exact completes.keeps
    have fits := completes.inside
    have reach := completes.longest first begins
      (buf.bytes.length + min (caseless buf first (candidates names buf))
        (size - 1 - buf.bytes.length)) (by omega) (by omega)
    rw [fold_take_first begins, keeps_iff (by omega)] at reach
    have far := reach (Nat.min_le_left _ _)
    omega
  · intro exact_
    refine ⟨?_, ?_, ?_, ?_, ?_, length.symm⟩
    · rw [folded, keeps_iff inside]
      omega
    · rw [folded]
      exact List.prefix_append _ _
    · rintro other otherEq
      rw [begins, Option.mem_some] at otherEq
      rw [← otherEq, textEq, List.drop_left]
      exact List.take_prefix _ _
    · omega
    · rintro other otherEq k short fits excludes
      rw [begins, Option.mem_some] at otherEq
      rw [← otherEq] at short excludes
      by_contra longer
      obtain ⟨more, rfl⟩ := Nat.exists_eq_add_of_le
        (Nat.le_of_lt
          (Nat.lt_of_le_of_lt (Nat.le_add_right _ extra) (length ▸ Nat.not_le.mp longer)))
      rw [fold_take_first begins, keeps_iff (by omega)] at excludes
      omega

omit begins in
theorem le_exactly_iff {shown : List CString} {k : Nat} :
    k ≤ exactly buf first shown ↔ k ≤ (first.bytes.drop buf.bytes.length).length ∧
      ∀ name ∈ shown, (first.bytes.drop buf.bytes.length).take k <+:
        name.bytes.drop buf.bytes.length := by
  rw [exactly, le_agreementAll_iff, List.forall_mem_map]
  apply and_congr_right
  intro long
  apply forall₂_congr
  intro name _
  rw [le_agreement_iff, and_iff_right long]

omit begins in
/-- The names that are shown show what is in common if they agree just as far. -/
theorem shows_iff {size : Nat} {shown names : List CString} :
    Shows buf first size shown names ↔
      min (exactly buf first shown) (size - 1 - buf.bytes.length) =
        min (caseless buf first names) (size - 1 - buf.bytes.length) := by
  have common := agreementAll_le_length (fold (first.bytes.drop buf.bytes.length))
    (names.map fun name => fold (name.bytes.drop buf.bytes.length))
  rw [fold, List.length_map] at common
  change caseless buf first names ≤ _ at common
  have most : exactly buf first shown ≤ (first.bytes.drop buf.bytes.length).length :=
    agreementAll_le_length _ _
  constructor
  · rintro ⟨spelled, ends⟩
    have far := le_exactly_iff.mpr ⟨Nat.le_trans (Nat.min_le_left _ _) common, spelled⟩
    by_cases more : caseless buf first names < size - 1 - buf.bytes.length ∧
        caseless buf first names < (first.bytes.drop buf.bytes.length).length
    · obtain ⟨name, member, other⟩ := ends more.1 more.2
      have short : ¬caseless buf first names + 1 ≤ exactly buf first shown := fun long =>
        other ((le_exactly_iff.mp long).2 name member)
      omega
    · omega
  · intro same
    constructor
    · have far : min (caseless buf first names) (size - 1 - buf.bytes.length) ≤
          exactly buf first shown := by
        omega
      exact (le_exactly_iff.mp far).2
    · intro room inside
      by_contra agreeing
      have all : caseless buf first names + 1 ≤ exactly buf first shown := by
        rw [le_exactly_iff]
        refine ⟨inside, fun name member => ?_⟩
        by_contra other
        exact agreeing ⟨name, member, other⟩
      omega

/-- A single name that matches completes the typed text exactly if there is room for it. -/
theorem single_completes_iff {size : Nat} (only : candidates names buf = [first])
    (room : buf.bytes.length < size) :
    Completes names buf size (first.truncate size) (first.bytes.length - buf.bytes.length) ↔
      first.bytes.length < size := by
  have shorter := length_le_first begins
  constructor
  · intro completes
    have added := completes.added_eq
    have inside := completes.inside
    omega
  · intro fits
    rw [CString.truncate_of_length_lt fits]
    have matching := (mem_candidates_iff.mp (first_mem begins)).2
    refine ⟨?_, ⟨_, matching.symm⟩, ?_, by omega, ?_, by omega⟩
    · intro name member
      rw [only, List.mem_singleton] at member
      exact member ▸ List.prefix_refl _
    · intro other otherEq
      rw [begins, Option.mem_some] at otherEq
      exact otherEq ▸ List.prefix_refl _
    · intro other otherEq k short _ _
      rw [begins, Option.mem_some] at otherEq
      exact otherEq ▸ short

end Completion

/-! ## Sessions -/

/-- What is done at the prompt: a completion of a typed text on a screen of some rows, or a letter
that is typed or erased. -/
inductive Press
  | complete (rows : Int) (buf : CString) (size : Nat) (fits : buf.bytes.length < size)
  | edit

def step (acl : AcList) : Press → Option AcList
  | .complete rows buf size _ => (acl.autocomplete rows buf size).map fun result => result.2.1
  | .edit => some { acl with seek := [] }

/-- The first node of a table, with so many bytes behind a typed text in common with a name. -/
def Kept (base : Bytes) (len extra : Nat) (col : Memory (List CString)) : Prop :=
  ∃ name rest, col[0]? = some (some (name :: rest)) ∧
    extra ≤ agreement (base.drop len) (name.bytes.drop len)

/-- What is true of a list at every press. -/
structure Ready (acl : AcList) : Prop where
  kept : ∀ col, acl.col = some col → Kept [] 0 0 col
  fresh : acl.col = none → acl.seek = []

theorem ready_new (names : List CString) : (new names).Ready where
  kept := fun _ absent => by cases absent
  fresh := fun _ => rfl

/-- The node from which the columns are laid out. -/
def start (acl : AcList) : List CString :=
  if acl.seek = [] then acl.head else acl.seek

theorem foldl_shorten (base : Bytes) (len extra : Nat) (names : List CString) :
    names.foldl (fun extra name => shorten base len extra name.bytes) extra =
      (names.map fun name => name.bytes.drop len).foldl
        (fun most other => min most (agreement (base.drop len) other)) extra := by
  rw [List.foldl_map]
  congr 1
  funext extra name
  exact shorten_eq base len extra name.bytes

section Extend

variable {acl : AcList} {rows : Int} {buf : CString} {size : Nat} {base : Bytes} {extra : Nat}
  {col : Memory (List CString)}

/-- What is done behind the loop. -/
theorem extend_of_layOut {s : Layout} {seek : List CString} {name : CString} {rest : List CString}
    (room : buf.bytes.length < size)
    (ran : layOut rows buf base acl.start ⟨col, 0, 0, 0, extra⟩ = some (s, seek))
    (firstEq : s.col[0]? = some (some (name :: rest))) :
    ∃ after, after.head = acl.head ∧ after.Ready ∧
      acl.extend rows buf size base extra col =
        if 0 < min s.extra (size - 1 - buf.bytes.length) then
          if buf.bytes.length ≤ name.bytes.length then
            some (min s.extra (size - 1 - buf.bytes.length), after,
              CString.ofBytes (buf.bytes ++ (name.bytes.drop buf.bytes.length).take
                (min s.extra (size - 1 - buf.bytes.length))))
          else none
        else some (min s.extra (size - 1 - buf.bytes.length), after, buf) := by
  have cut : (if buf.bytes.length + s.extra ≥ size - 1 then size - 1 - buf.bytes.length
      else s.extra) = min s.extra (size - 1 - buf.bytes.length) := by
    split <;> omega
  refine ⟨⟨acl.head, some s.col, seek⟩, rfl, ⟨?_, fun absent => by cases absent⟩, ?_⟩
  · intro _ found
    rw [← Option.some.inj found]
    exact ⟨name, rest, firstEq, Nat.zero_le _⟩
  · rw [extend, ← start, ran, Option.bind_some]
    simp only [cut, firstEq, Option.join_some, Option.bind_some, List.head?_cons, gt_iff_lt]

/-- A text that is typed on with a part of a name. -/
theorem bytes_extended (buf name : CString) (len extra : Nat) :
    (CString.ofBytes (buf.bytes ++ (name.bytes.drop len).take extra)).bytes =
      buf.bytes ++ (name.bytes.drop len).take extra := by
  have nulFree : (0 : UInt8) ∉ buf.bytes ++ (name.bytes.drop len).take extra := by
    rw [List.mem_append, not_or]
    exact ⟨buf.nulFree, fun member =>
      name.nulFree (List.mem_of_mem_drop (List.mem_of_mem_take member))⟩
  exact congrArg CString.bytes (CString.ofBytes_bytes ⟨_, nulFree⟩)

theorem passes_start (open_ : ¬Blocked rows acl.start buf) :
    Layout.Passes rows acl.start buf ⟨col, 0, 0, 0, extra⟩ := by
  intro one _
  refine ⟨rfl, ?_⟩
  by_contra wide
  apply open_
  refine ⟨one, ?_⟩
  change ¬0 + skipped acl.start buf ≤ columns + 1 at wide
  omega

theorem extend_over (open_ : ¬Blocked rows acl.start buf)
    (beyond : ¬longest rows (candidates acl.start buf).length ≤ (col.length : Nat)) :
    acl.extend rows buf size base extra col = none := by
  rw [extend, ← start, layOut_over _ (Nat.zero_le _) (fun two => by
    change ((0 + 1 : Nat) : Int) < rows; omega) (passes_start open_)]
  · rfl
  · change (col.length : Int) < longest rows (0 + (candidates acl.start buf).length)
    rw [Nat.zero_add]
    omega

theorem extend_fits (open_ : ¬Blocked rows acl.start buf)
    (fits : longest rows (candidates acl.start buf).length ≤ (col.length : Nat))
    (room : buf.bytes.length < size)
    (kept : candidates acl.start buf ≠ [] ∨ Kept base buf.bytes.length extra col) :
    ∃ after text, acl.extend rows buf size base extra col = some
        (min ((listed rows 0 0 0 (candidates acl.start buf)).foldl
          (fun extra name => shorten base buf.bytes.length extra name.bytes) extra)
          (size - 1 - buf.bytes.length), after, text) ∧
      text.bytes = buf.bytes ++ (base.drop buf.bytes.length).take
        (min ((listed rows 0 0 0 (candidates acl.start buf)).foldl
          (fun extra name => shorten base buf.bytes.length extra name.bytes) extra)
          (size - 1 - buf.bytes.length)) ∧
      after.head = acl.head ∧ after.Ready := by
  have space : longest rows (0 + (candidates acl.start buf).length) ≤ (col.length : Nat) := by
    rw [Nat.zero_add]
    exact fits
  obtain ⟨s, seek, ran, extraEq, seen⟩ :=
    @layOut_spec rows buf base acl.start ⟨col, 0, 0, 0, extra⟩ space
      (fun two => by change ((0 + 1 : Nat) : Int) < rows; omega) (passes_start open_)
      (.inl ⟨rfl, rfl, .inr rfl⟩)
  obtain ⟨name, rest, firstEq, within⟩ := seen kept
  obtain ⟨after, sameHead, ready, extended⟩ := extend_of_layOut room ran firstEq
  rw [← extraEq, extended]
  by_cases nothing : min s.extra (size - 1 - buf.bytes.length) = 0
  · rw [nothing, if_neg (Nat.lt_irrefl 0), List.take_zero, List.append_nil]
    exact ⟨after, buf, rfl, rfl, sameHead, ready⟩
  · obtain ⟨long, isPrefix⟩ := le_agreement_iff.mp
      (Nat.le_trans (Nat.min_le_left s.extra (size - 1 - buf.bytes.length)) within)
    have same := List.prefix_iff_eq_take.mp isPrefix
    rw [List.length_take, Nat.min_eq_left long] at same
    have reaches := isPrefix.length_le
    rw [List.length_take, List.length_drop] at reaches
    have inName : buf.bytes.length ≤ name.bytes.length := by
      rw [List.length_drop] at long reaches
      omega
    rw [if_pos (Nat.pos_of_ne_zero nothing), if_pos inName]
    refine ⟨after, _, rfl, ?_, sameHead, ready⟩
    rw [bytes_extended, same]

/-- On a screen that is blocked the first name of the table is taken. -/
theorem extend_blocked (blocked : Blocked rows acl.start buf) (room : buf.bytes.length < size)
    {name : CString} {rest : List CString} (firstEq : col[0]? = some (some (name :: rest))) :
    ∃ after, after.head = acl.head ∧ after.Ready ∧
      acl.extend rows buf size base extra col =
        if 0 < min extra (size - 1 - buf.bytes.length) then
          if buf.bytes.length ≤ name.bytes.length then
            some (min extra (size - 1 - buf.bytes.length), after,
              CString.ofBytes (buf.bytes ++ (name.bytes.drop buf.bytes.length).take
                (min extra (size - 1 - buf.bytes.length))))
          else none
        else some (min extra (size - 1 - buf.bytes.length), after, buf) := by
  obtain ⟨rfl, wide⟩ := blocked
  obtain ⟨xbase, ran⟩ := @layOut_blocked buf base acl.start ⟨col, 0, 0, 0, extra⟩ rfl rfl
    (Nat.zero_le _) (by change columns + 2 ≤ 0 + skipped acl.start buf; omega)
  have joined : col[0]?.join = some (name :: rest) := by rw [firstEq, Option.join_some]
  exact extend_of_layOut room (ran.trans (by rw [joined, Option.map_some])) firstEq

theorem extend_blocked_none (blocked : Blocked rows acl.start buf) (absent : col[0]?.join = none) :
    acl.extend rows buf size base extra col = none := by
  obtain ⟨rfl, wide⟩ := blocked
  obtain ⟨xbase, ran⟩ := @layOut_blocked buf base acl.start ⟨col, 0, 0, 0, extra⟩ rfl rfl
    (Nat.zero_le _) (by change columns + 2 ≤ 0 + skipped acl.start buf; omega)
  rw [extend, ← start, ran, absent]
  rfl

end Extend

section Outcomes

variable {acl : AcList} {rows : Int} {buf : CString} {size : Nat}

theorem start_of_begins (begins : acl.seek = [] ∨ acl.seek = acl.head) : acl.start = acl.head := by
  rw [start]
  split
  next => rfl
  next later => exact begins.resolve_left later

theorem start_of_later (later : ¬(acl.seek = [] ∨ acl.seek = acl.head)) :
    acl.start = acl.seek :=
  if_neg (not_or.mp later).1

theorem length_table (acl : AcList) (rows : Int) :
    (acl.col.getD (malloc rows.toNat)).length = (acl.col.map List.length).getD rows.toNat := by
  cases acl.col with
  | none => exact List.length_replicate
  | some col => rfl

/-- From a later place the text is left as it is. -/
theorem autocomplete_later (ready : acl.Ready) (room : buf.bytes.length < size)
    (later : ¬(acl.seek = [] ∨ acl.seek = acl.head)) :
    (¬(Blocked rows acl.seek buf ∨ acl.HasRoom rows acl.seek buf) ∧
        acl.autocomplete rows buf size = none) ∨
      (Blocked rows acl.seek buf ∨ acl.HasRoom rows acl.seek buf) ∧
        ∃ after, acl.autocomplete rows buf size = some (0, after, buf) ∧
          after.head = acl.head ∧ after.Ready := by
  obtain ⟨col, colEq⟩ : ∃ col, acl.col = some col := by
    rw [← Option.isSome_iff_exists]
    by_contra absent
    exact later (.inl (ready.fresh (Option.not_isSome_iff_eq_none.mp absent)))
  obtain ⟨name, rest, firstEq, -⟩ := ready.kept col colEq
  have begins := start_of_later later
  rw [autocomplete, if_neg later, colEq, Option.bind_some]
  by_cases blocked : Blocked rows acl.seek buf
  · obtain ⟨after, sameHead, afterReady, ran⟩ := @extend_blocked acl rows buf size [] 0 col
      (begins ▸ blocked) room name rest firstEq
    refine .inr ⟨.inl blocked, after, ?_, sameHead, afterReady⟩
    rw [ran, Nat.zero_min]
    exact if_neg (Nat.lt_irrefl 0)
  have open_ : ¬Blocked rows acl.start buf := by rw [begins]; exact blocked
  have sizeEq : (acl.col.map List.length).getD rows.toNat = col.length := by rw [colEq]; rfl
  by_cases fits : acl.HasRoom rows acl.seek buf
  · refine .inr ⟨.inr fits, ?_⟩
    rw [HasRoom, sizeEq, ← begins] at fits
    obtain ⟨after, text, ran, textEq, sameHead, afterReady⟩ := extend_fits open_ fits room
      (.inr ⟨name, rest, firstEq, Nat.zero_le (agreement (([] : Bytes).drop _) _)⟩)
    have nothing : (listed rows 0 0 0 (candidates acl.start buf)).foldl
        (fun extra name => shorten [] buf.bytes.length extra name.bytes) 0 = 0 := by
      rw [foldl_shorten]
      exact Nat.le_zero.mp (le_foldl_min_iff.mp (Nat.le_refl _)).1
    rw [nothing, Nat.zero_min] at ran textEq
    rw [List.take_zero, List.append_nil] at textEq
    exact ⟨after, by rw [ran, CString.ext textEq], sameHead, afterReady⟩
  · refine .inl ⟨not_or.mpr ⟨blocked, fits⟩, extend_over open_ ?_⟩
    rw [HasRoom, sizeEq, ← begins] at fits
    exact fits

theorem autocomplete_single (begins : acl.seek = [] ∨ acl.seek = acl.head) {first : CString}
    (only : candidates acl.head buf = [first]) :
    acl.autocomplete rows buf size =
      some (first.bytes.length - buf.bytes.length, acl, first.truncate size) := by
  obtain ⟨-, empty⟩ | ⟨l1, next, found, cons⟩ := nextMatch_cases acl.head buf
  · rw [only] at empty
    cases empty
  rw [only, List.cons.injEq] at cons
  obtain ⟨rfl, noMore⟩ := cons
  rw [autocomplete, if_pos begins, found]
  obtain ⟨noneLeft, -⟩ | ⟨l2, later, -, cons'⟩ := nextMatch_cases next buf
  · exact if_pos noneLeft
  · rw [cons'] at noMore
    cases noMore

theorem autocomplete_several (begins : acl.seek = [] ∨ acl.seek = acl.head)
    {first second : CString} {more : List CString}
    (several : candidates acl.head buf = first :: second :: more) :
    acl.autocomplete rows buf size =
      acl.extend rows buf size first.bytes (first.bytes.length - buf.bytes.length)
        (acl.col.getD (malloc rows.toNat)) := by
  obtain ⟨-, empty⟩ | ⟨l1, next, found, cons⟩ := nextMatch_cases acl.head buf
  · rw [several] at empty
    cases empty
  rw [several, List.cons.injEq] at cons
  obtain ⟨rfl, moreEq⟩ := cons
  rw [autocomplete, if_pos begins, found]
  obtain ⟨-, empty⟩ | ⟨l2, later, found', -⟩ := nextMatch_cases next buf
  · rw [empty] at moreEq
    cases moreEq
  · exact if_neg (by rw [found']; exact List.cons_ne_nil _ _)

/-- A completion among several names, on a screen that is not blocked. -/
theorem autocomplete_open (begins : acl.seek = [] ∨ acl.seek = acl.head)
    {first second : CString} {more : List CString}
    (several : candidates acl.head buf = first :: second :: more)
    (room : buf.bytes.length < size) (open_ : ¬Blocked rows acl.head buf) :
    (¬acl.HasRoom rows acl.head buf ∧ acl.autocomplete rows buf size = none) ∨
      acl.HasRoom rows acl.head buf ∧ ∃ after text, acl.autocomplete rows buf size = some
          (min (exactly buf first (listed rows 0 0 0 (first :: second :: more)))
            (size - 1 - buf.bytes.length), after, text) ∧
        text.bytes = buf.bytes ++ (first.bytes.drop buf.bytes.length).take
          (min (exactly buf first (listed rows 0 0 0 (first :: second :: more)))
            (size - 1 - buf.bytes.length)) ∧
        after.head = acl.head ∧ after.Ready := by
  have isStart := start_of_begins begins
  rw [← isStart] at open_ several
  have whole : (listed rows 0 0 0 (candidates acl.start buf)).foldl
      (fun extra name => shorten first.bytes buf.bytes.length extra name.bytes)
      (first.bytes.length - buf.bytes.length) =
        exactly buf first (listed rows 0 0 0 (first :: second :: more)) := by
    rw [foldl_shorten, exactly, agreementAll, List.length_drop, several]
  rw [autocomplete_several begins (isStart ▸ several), HasRoom, ← length_table, ← isStart]
  by_cases fits : longest rows (candidates acl.start buf).length ≤
      ((acl.col.getD (malloc rows.toNat)).length : Nat)
  · refine .inr ⟨fits, ?_⟩
    have nonempty : candidates acl.start buf ≠ [] := by
      rw [several]
      exact List.cons_ne_nil _ _
    have extended := @extend_fits acl rows buf size first.bytes
      (first.bytes.length - buf.bytes.length) _ open_ fits room (.inl nonempty)
    rw [whole] at extended
    rwa [← isStart] at extended
  · exact .inl ⟨fits, extend_over open_ fits⟩

/-- The same on a screen that is blocked. -/
theorem autocomplete_blocked (ready : acl.Ready) (begins : acl.seek = [] ∨ acl.seek = acl.head)
    {first second : CString} {more : List CString}
    (several : candidates acl.head buf = first :: second :: more)
    (room : buf.bytes.length < size) (blocked : Blocked rows acl.head buf) :
    (acl.front = none ∧ acl.autocomplete rows buf size = none) ∨
      ∃ name after, acl.front = some name ∧ after.head = acl.head ∧ after.Ready ∧
        acl.autocomplete rows buf size =
          if 0 < min (first.bytes.length - buf.bytes.length) (size - 1 - buf.bytes.length) then
            if buf.bytes.length ≤ name.bytes.length then
              some (min (first.bytes.length - buf.bytes.length) (size - 1 - buf.bytes.length),
                after, CString.ofBytes (buf.bytes ++ (name.bytes.drop buf.bytes.length).take
                  (min (first.bytes.length - buf.bytes.length) (size - 1 - buf.bytes.length))))
            else none
          else
            some (min (first.bytes.length - buf.bytes.length) (size - 1 - buf.bytes.length), after,
              buf) := by
  rw [← start_of_begins begins] at blocked
  rw [autocomplete_several begins several]
  cases colEq : acl.col with
  | none =>
    have one := blocked.1
    refine .inl ⟨by rw [front, colEq]; rfl, extend_blocked_none blocked ?_⟩
    rw [one]
    rfl
  | some col =>
    obtain ⟨name, rest, firstEq, -⟩ := ready.kept col colEq
    obtain ⟨after, sameHead, afterReady, ran⟩ := @extend_blocked acl rows buf size first.bytes
      (first.bytes.length - buf.bytes.length) col blocked room name rest firstEq
    refine .inr ⟨name, after, ?_, sameHead, afterReady, ran⟩
    rw [front, colEq, Option.bind_some, firstEq]
    rfl

end Outcomes

theorem ready_step {acl after : AcList} {press : Press} (ready : acl.Ready)
    (stepped : step acl press = some after) : after.head = acl.head ∧ after.Ready := by
  cases press with
  | edit =>
    rw [step, Option.some.injEq] at stepped
    rw [← stepped]
    exact ⟨rfl, ready.kept, fun _ => rfl⟩
  | complete rows buf size fits =>
    obtain ⟨⟨added, next, text⟩, ran, rfl⟩ := Option.map_eq_some_iff.mp stepped
    by_cases begins : acl.seek = [] ∨ acl.seek = acl.head
    · rcases matching : candidates acl.head buf with _ | ⟨first, _ | ⟨second, more⟩⟩
      · obtain ⟨empty, -⟩ | ⟨name, more, -, cons⟩ := nextMatch_cases acl.head buf
        · rw [autocomplete, if_pos begins, empty] at ran
          cases ran
          exact ⟨rfl, ready⟩
        · rw [matching] at cons
          cases cons
      · rw [autocomplete_single begins matching] at ran
        cases ran
        exact ⟨rfl, ready⟩
      · by_cases blocked : Blocked rows acl.head buf
        · obtain ⟨-, stuck⟩ | ⟨name, after, -, sameHead, afterReady, result⟩ :=
            autocomplete_blocked ready begins matching fits blocked
          · rw [ran] at stuck
            cases stuck
          · rw [ran] at result
            split_ifs at result
            · cases result
              exact ⟨sameHead, afterReady⟩
            · cases result
              exact ⟨sameHead, afterReady⟩
        · obtain ⟨-, stuck⟩ | ⟨-, after, text', ran', -, kept⟩ :=
            autocomplete_open begins matching fits blocked
          · rw [ran] at stuck
            cases stuck
          · rw [ran] at ran'
            cases ran'
            exact kept
    · obtain ⟨-, stuck⟩ | ⟨-, after, ran', kept⟩ :=
        @autocomplete_later acl rows buf size ready fits begins
      · rw [ran] at stuck
        cases stuck
      · rw [ran] at ran'
        cases ran'
        exact kept

theorem ready_reached {names : List CString} {presses : List Press} {acl : AcList}
    (ran : TransitionRuns.run step presses (new names) = some acl) :
    acl.head = names ∧ acl.Ready := by
  have always : TransitionRuns.Guarded step (fun _ _ => True) presses (new names) :=
    TransitionRuns.guarded_of_forall (fun _ _ => trivial) _
  refine TransitionRuns.invariant_of_guarded (fun acl => acl.head = names ∧ acl.Ready) ?_
    ⟨rfl, ready_new names⟩ always ran
  intro state press next holds _ stepped
  have kept := ready_step holds.2 stepped
  exact ⟨kept.1.trans holds.1, kept.2⟩

section Pressed

variable {acl : AcList} {rows : Int} {buf first second : CString} {more : List CString} {size : Nat}

theorem completed_iff_of_eq {added : Nat} {after : AcList} {text : CString}
    (ran : acl.autocomplete rows buf size = some (added, after, text)) :
    acl.Completed rows buf size ↔ Completes acl.head buf size text added := by
  constructor
  · rintro ⟨_, _, _, ended, completes⟩
    rw [ran] at ended
    cases ended
    exact completes
  · exact fun completes => ⟨_, _, _, ran, completes⟩

theorem not_completed_of_none (stuck : acl.autocomplete rows buf size = none) :
    ¬acl.Completed rows buf size := by
  rintro ⟨_, _, _, ended, -⟩
  rw [stuck] at ended
  cases ended

theorem completed_open_iff (begins : acl.seek = [] ∨ acl.seek = acl.head)
    (several : candidates acl.head buf = first :: second :: more) (room : buf.bytes.length < size)
    (open_ : ¬Blocked rows acl.head buf) :
    acl.Completed rows buf size ↔ acl.HasRoom rows acl.head buf ∧
      Shows buf first size (listed rows 0 0 0 (first :: second :: more))
        (first :: second :: more) := by
  obtain ⟨beyond, stuck⟩ | ⟨fits, after, text, ran, textEq, -⟩ :=
    autocomplete_open begins several room open_
  · exact iff_of_false (not_completed_of_none stuck) (fun suits => beyond suits.1)
  · have isFirst : (candidates acl.head buf).head? = some first := by rw [several]; rfl
    have inside : min (exactly buf first (listed rows 0 0 0 (first :: second :: more)))
        (size - 1 - buf.bytes.length) ≤ first.bytes.length - buf.bytes.length := by
      rw [← List.length_drop]
      exact Nat.le_trans (Nat.min_le_left _ _) (agreementAll_le_length _ _)
    rw [completed_iff_of_eq ran, completes_iff isFirst room inside textEq, several, shows_iff,
      and_iff_right fits]

/-- When nothing is laid out the text is extended like the name in the first place of the table. -/
theorem completes_front_iff {head : List CString} {name : CString} {count : Nat}
    (isFirst : (candidates head buf).head? = some first)
    (length : ((first.bytes.drop buf.bytes.length).take count).length = count)
    {text : CString}
    (textEq : text.bytes = buf.bytes ++ (name.bytes.drop buf.bytes.length).take count)
    {extended : Prop} (likeFirst : text.bytes = buf.bytes ++
      (first.bytes.drop buf.bytes.length).take count →
        (Completes head buf size text count ↔ extended)) :
    Completes head buf size text count ↔ extended ∧
      (first.bytes.drop buf.bytes.length).take count <+: name.bytes.drop buf.bytes.length := by
  constructor
  · intro completes
    have spelled := completes.spelled first isFirst
    have added := completes.added_eq
    rw [textEq, List.drop_left] at spelled
    rw [textEq, List.length_append, Nat.add_left_cancel_iff] at added
    have same := List.prefix_iff_eq_take.mp spelled
    rw [← added] at same
    exact ⟨(likeFirst (by rw [textEq, same])).mp completes, same ▸ List.take_prefix _ _⟩
  · rintro ⟨shows, alike⟩
    have same := List.prefix_iff_eq_take.mp alike
    rw [length] at same
    exact (likeFirst (by rw [textEq, same])).mpr shows

theorem completed_blocked_iff (ready : acl.Ready) (begins : acl.seek = [] ∨ acl.seek = acl.head)
    (several : candidates acl.head buf = first :: second :: more) (room : buf.bytes.length < size)
    (blocked : Blocked rows acl.head buf) :
    acl.Completed rows buf size ↔ Shows buf first size [] (first :: second :: more) ∧
      ∃ name, acl.front = some name ∧
        (first.bytes.drop buf.bytes.length).take (size - 1 - buf.bytes.length) <+:
          name.bytes.drop buf.bytes.length := by
  obtain ⟨absent, stuck⟩ | ⟨name, after, frontEq, -, -, ran⟩ :=
    autocomplete_blocked ready begins several room blocked
  · refine iff_of_false (not_completed_of_none stuck) ?_
    rintro ⟨-, name, frontEq, -⟩
    rw [absent] at frontEq
    cases frontEq
  have isFirst : (candidates acl.head buf).head? = some first := by rw [several]; rfl
  have noneShown : exactly buf first [] = first.bytes.length - buf.bytes.length :=
    List.length_drop
  have takeEq : (first.bytes.drop buf.bytes.length).take (size - 1 - buf.bytes.length) =
      (first.bytes.drop buf.bytes.length).take
        (min (first.bytes.length - buf.bytes.length) (size - 1 - buf.bytes.length)) := by
    rw [List.take_eq_take_iff, List.length_drop]
    omega
  have extended := fun {text} => @completes_iff acl.head buf first isFirst size
    (min (first.bytes.length - buf.bytes.length) (size - 1 - buf.bytes.length)) text room
    (Nat.min_le_left _ _)
  rw [several, ← noneShown, ← shows_iff, noneShown] at extended
  simp only [frontEq, Option.some.injEq, exists_eq_left', takeEq]
  by_cases nothing :
      min (first.bytes.length - buf.bytes.length) (size - 1 - buf.bytes.length) = 0
  · rw [nothing] at ran extended
    rw [if_neg (Nat.lt_irrefl 0)] at ran
    rw [completed_iff_of_eq ran, extended (List.append_nil _).symm, nothing, List.take_zero,
      and_iff_left List.nil_prefix]
  · rw [if_pos (Nat.pos_of_ne_zero nothing)] at ran
    have length : ((first.bytes.drop buf.bytes.length).take
        (min (first.bytes.length - buf.bytes.length) (size - 1 - buf.bytes.length))).length =
          min (first.bytes.length - buf.bytes.length) (size - 1 - buf.bytes.length) := by
      rw [List.length_take, List.length_drop]
      omega
    by_cases inName : buf.bytes.length ≤ name.bytes.length
    · rw [if_pos inName] at ran
      rw [completed_iff_of_eq ran]
      exact completes_front_iff isFirst length (bytes_extended ..) extended
    · rw [if_neg inName] at ran
      refine iff_of_false (not_completed_of_none ran) (fun suits => ?_)
      have reaches := suits.2.length_le
      rw [length, List.length_drop] at reaches
      omega

/-- A press completes the typed text as it should exactly under the condition. -/
theorem completed_iff_suits {names : List CString} {presses : List Press} {acl : AcList}
    (ran : TransitionRuns.run step presses (new names) = some acl) {rows : Int} {buf : CString}
    {size : Nat} (fits : buf.bytes.length < size) (matching : candidates names buf ≠ []) :
    acl.Completed rows buf size ↔ acl.Suits rows buf size := by
  obtain ⟨rfl, ready⟩ := ready_reached ran
  obtain ⟨first, more, found⟩ := List.exists_cons_of_ne_nil matching
  have isFirst : (candidates acl.head buf).head? = some first := by rw [found]; rfl
  rw [Suits]
  by_cases begins : acl.seek = [] ∨ acl.seek = acl.head
  · rw [if_pos begins, found]
    cases more with
    | nil =>
      rw [completed_iff_of_eq (autocomplete_single begins found)]
      exact single_completes_iff isFirst found fits
    | cons second more =>
      by_cases blocked : Blocked rows acl.head buf
      · simp only [if_pos blocked]
        exact completed_blocked_iff ready begins found fits blocked
      · simp only [if_neg blocked]
        exact completed_open_iff begins found fits blocked
  · rw [if_neg begins, isFirst]
    simp only [Option.mem_some, forall_eq']
    obtain ⟨beyond, stuck⟩ | ⟨room, after, ran', -⟩ := autocomplete_later ready fits begins
    · exact iff_of_false (not_completed_of_none stuck) (fun suits => beyond suits.1)
    · have unchanged : buf.bytes = buf.bytes ++ (first.bytes.drop buf.bytes.length).take 0 := by
        rw [List.take_zero, List.append_nil]
      rw [completed_iff_of_eq ran', completes_iff isFirst fits (Nat.zero_le _) unchanged,
        and_iff_right room, eq_comm]

end Pressed

/-- A name of some letters. -/
def nameOf (letters : Bytes) : CString :=
  CString.ofBytes letters

/-- `abcd`, `b` and `abce`. -/
def shortNames : List CString :=
  [nameOf [97, 98, 99, 100], nameOf [98], nameOf [97, 98, 99, 101]]

/-- The list after a press on a screen with four rows. -/
def pressedNames : AcList :=
  ⟨shortNames, some [some shortNames, some (shortNames.drop 2), none, none], []⟩

/-- Another press when there are six rows. -/
theorem pressedNames_completed : pressedNames.Completed 6 (nameOf [97]) 20 := by
  have ran : TransitionRuns.run step [.complete 4 (nameOf [97]) 20 (by decide)]
      (new shortNames) = some pressedNames := rfl
  apply (completed_iff_suits ran (by decide) (by decide)).mpr
  have matching : candidates pressedNames.head (nameOf [97]) =
      [nameOf [97, 98, 99, 100], nameOf [97, 98, 99, 101]] := by decide
  have open_ : ¬Blocked 6 pressedNames.head (nameOf [97]) := by decide
  rw [Suits, if_pos (.inl rfl), matching]
  simp only [if_neg open_]
  refine ⟨by rw [HasRoom, matching]; decide, ?_⟩
  rw [Shows]
  decide

/-- Four names of twenty letters that begin with `ab`, and `ac`. -/
def longNames : List CString :=
  [99, 100, 101, 102].map (fun c => nameOf ([97, 98, c] ++ List.replicate 17 120)) ++
    [nameOf [97, 99]]

/-- Two rows have room for three of the long names, and the fifth name is not looked at. -/
theorem longNames_not_completed : ¬(new longNames).Completed 2 (nameOf [97]) 21 := by
  have extended : ((new longNames).autocomplete 2 (nameOf [97]) 21).map
      (fun result => result.2.2.bytes) = some [97, 98] := by decide
  have other : nameOf [97, 99] ∈ candidates longNames (nameOf [97]) := by decide
  rintro ⟨added, after, text, ran, completes⟩
  rw [ran, Option.map_some, Option.some.injEq] at extended
  have excluded := completes.keeps _ other
  change text.bytes = [97, 98] at extended
  rw [extended] at excluded
  exact absurd excluded (by decide)

end AcList

end Fbbs
