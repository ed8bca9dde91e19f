import Fbbs.Vectors

/-!
# Page loads that fail

`tui_list_recent_loader` of `src/list.c` grows the vector of its rows by a page, has it filled and
erases the rows that were not loaded.  A loader that finds no database answers `-1`, and the rows
to erase are then counted from that.
-/

namespace Fbbs

open FreshMemory (Memory)

/-- A loader of a recent list: the number of rows, and what is written into the page. -/
abbrev RecentLoader := Bool → Int32 → Int64 → UInt64 → Int32 × List UInt8

/-- The fields of `tui_list_t` and of its helper that a page load uses. -/
structure RecentHelper where
  all : Int32
  cur : Int32
  valid : Bool
  lines : Int32
  unreadOnly : Bool
  allLoaded : Bool
  userId : Int32
  vector : VectorT
  deriving DecidableEq

namespace RecentHelper

def int64Max : Int64 := 9223372036854775807

/-- A number of eight cells, the lowest first; `none` if they are not all written. -/
def int64At (block : Memory UInt8) (place : Nat) : Option Int64 :=
  (((List.range 8).mapM fun cell => (block[place + cell]?).join)).map fun bytes =>
    Int64.ofNat (bytes.foldr (fun byte rest => byte.toNat + 256 * rest) 0)

def lastId (v : VectorT) : Option Int64 :=
  if v.size ≠ 0 then
    (v.vectorAt (v.size - 1)).bind fun place =>
      v.data.bind fun block => int64At block place
  else some int64Max

/-- What is written into the data of a vector. -/
def fill (v : VectorT) (place : Nat) (written : List UInt8) : Option VectorT :=
  v.data.bind fun block =>
    (FreshMemory.memcpy block place written written.length).map fun block =>
      { v with data := some block }

/-- What the loader of the list does with the number of rows. -/
def countRows (h : RecentHelper) (rows : Int32) : Option RecentHelper :=
  if rows < h.lines then
    let size := h.vector.size
    (h.vector.vectorEraseRange (size - (h.lines - rows).toUInt32) size).map fun erased =>
      { h with vector := erased.2, allLoaded := true }
  else some h

/-- The fields of the list after a page load. -/
def listed (h : RecentHelper) (first : Bool) : RecentHelper :=
  let all := h.vector.size.toInt32
  { h with
    all := all
    valid := true
    cur := if first then (if 0 < all then all - 1 else 0) else h.cur }

def tuiListRecentLoader (loader : RecentLoader) (granted : Bool) (h : RecentHelper) :
    Option (Int32 × RecentHelper) :=
  if h.allLoaded then some (0, h)
  else
    (lastId h.vector).bind fun id =>
      (h.vector.vectorGrow h.lines.toUInt32 granted).bind fun (buf, vector) =>
        match buf with
        | none => some (-1, { h with vector := vector })
        | some place =>
          let (rows, written) := loader h.unreadOnly h.userId id h.lines.toInt64.toUInt64
          (fill vector place written).bind fun vector =>
            (countRows { h with vector := vector } rows).map fun counted =>
              (rows, counted.listed (h.vector.size = 0))

/-- A page load that leaves the rows, their number, the cursor and the mark of the last page. -/
def LeavesAlone (h after : RecentHelper) : Prop :=
  after.vector.size = h.vector.size ∧ after.vector.elements = h.vector.elements ∧
    after.all = h.all ∧ after.cur = h.cur ∧ after.allLoaded = h.allLoaded

theorem fill_size {v filled : VectorT} {place : Nat} {written : List UInt8}
    (found : fill v place written = some filled) : filled.size = v.size := by
  obtain ⟨block, -, rest⟩ := Option.bind_eq_some_iff.mp found
  obtain ⟨block', -, rfl⟩ := Option.map_eq_some_iff.mp rest
  rfl

theorem countRows_cases {h counted : RecentHelper} {rows : Int32}
    (found : h.countRows rows = some counted) :
    (rows < h.lines ∧ counted.allLoaded = true) ∨ (h.lines ≤ rows ∧ counted = h) := by
  unfold countRows at found
  split at found
  next fewer =>
    obtain ⟨erased, -, rfl⟩ := Option.map_eq_some_iff.mp found
    exact Or.inl ⟨fewer, rfl⟩
  next whole =>
    rw [Option.some.injEq] at found
    exact Or.inr ⟨Int32.not_lt.mp whole, found.symm⟩

/-- A page for which there is room is added to the size. -/
theorem vectorGrow_size {v after : VectorT} {size : UInt32} {granted : Bool} {place : Nat}
    (grown : v.vectorGrow size granted = some (some place, after)) :
    after.size = v.size + size ∧ size ≤ after.size := by
  obtain ⟨enough, reserved, placeEq⟩ := VectorT.vectorGrow_cases grown
  have fits : size ≤ after.size := by
    split at placeEq
    next both => exact both.2
    next => cases placeEq
  obtain ⟨-, -, rfl⟩ | ⟨capacity, -, -, -, rfl⟩ := VectorT.vectorReserve_cases reserved
  · exact ⟨rfl, fits⟩
  · exact ⟨rfl, fits⟩

section Load

variable {loader : RecentLoader} {granted : Bool} {h after : RecentHelper} {id : Int64}
  {place : Nat} {grown : VectorT} (more : h.allLoaded = false) (last : lastId h.vector = some id)
  (room : h.vector.vectorGrow h.lines.toUInt32 granted = some (some place, grown))
include more last room

theorem loaded_cases {result : Int32}
    (loaded : tuiListRecentLoader loader granted h = some (result, after)) :
    result = (loader h.unreadOnly h.userId id h.lines.toInt64.toUInt64).1 ∧
      ∃ filled counted, fill grown place
          (loader h.unreadOnly h.userId id h.lines.toInt64.toUInt64).2 = some filled ∧
        countRows { h with vector := filled } result = some counted ∧
        after = counted.listed (h.vector.size = 0) := by
  rw [tuiListRecentLoader, if_neg (by rw [more]; decide), last, Option.bind_some, room,
    Option.bind_some] at loaded
  obtain ⟨filled, filledEq, rest⟩ := Option.bind_eq_some_iff.mp loaded
  obtain ⟨counted, countedEq, same⟩ := Option.map_eq_some_iff.mp rest
  obtain ⟨rfl, rfl⟩ := Prod.mk.inj same
  exact ⟨rfl, filled, counted, filledEq, countedEq, rfl⟩

/-- A page load that fails never leaves the list alone: the page is the last one from then on. -/
theorem failed_not_leavesAlone
    (failed : (loader h.unreadOnly h.userId id h.lines.toInt64.toUInt64).1 < 0) :
    ¬∃ result after, tuiListRecentLoader loader granted h = some (result, after) ∧
      h.LeavesAlone after := by
  rintro ⟨result, after, loaded, sizeSame, -, -, -, markSame⟩
  obtain ⟨rfl, filled, counted, filledEq, countedEq, rfl⟩ := loaded_cases more last room loaded
  obtain ⟨-, marked⟩ | ⟨whole, rfl⟩ := countRows_cases countedEq
  · have marked' : (counted.listed (h.vector.size = 0)).allLoaded = true := marked
    rw [markSame, more] at marked'
    cases marked'
  · -- the screen has a negative number of lines
    have negative : h.lines < 0 := Int32.lt_of_le_of_lt whole failed
    obtain ⟨sum, -⟩ := vectorGrow_size room
    have kept : filled.size = h.vector.size := sizeSame
    rw [fill_size filledEq, sum] at kept
    have noLines : h.lines.toUInt32 = (0 : Int32).toUInt32 := UInt32.add_eq_left.mp kept
    have zero : h.lines = 0 := congrArg Int32.ofUInt32 noLines
    rw [zero] at negative
    exact absurd negative (by decide)

end Load

def rowIds : List UInt8 :=
  [9, 0, 0, 0, 0, 0, 0, 0, 7, 0, 0, 0, 0, 0, 0, 0]

/-- A list of some rows, with four lines on the screen. -/
def listOf (size : UInt32) : RecentHelper where
  all := size.toInt32
  cur := 0
  valid := true
  lines := 4
  unreadOnly := false
  allLoaded := false
  userId := 1
  vector := ⟨8, size, 8, some (rowIds.map some ++ FreshMemory.malloc 48)⟩

/-- No result of the query: nothing is written. -/
def noDatabase : RecentLoader :=
  fun _ _ _ _ => (-1, [])

theorem twoRows_failed :
    ¬∃ result after, tuiListRecentLoader noDatabase true (listOf 2) = some (result, after) ∧
      (listOf 2).LeavesAlone after :=
  @failed_not_leavesAlone noDatabase true (listOf 2) 7 16 ⟨8, 6, 8, (listOf 2).vector.data⟩ rfl
    (by decide) (by decide) (by decide)

theorem twoRows_not_leavesAlone :
    (tuiListRecentLoader noDatabase true (listOf 2)).map (fun loaded =>
      (loaded.1, loaded.2.vector.size, loaded.2.all, loaded.2.allLoaded)) =
        some (-1, 1, 1, true) ∧
    ∀ result after, tuiListRecentLoader noDatabase true (listOf 2) = some (result, after) →
      ¬(listOf 2).LeavesAlone after := by
  have loaded : (tuiListRecentLoader noDatabase true (listOf 2)).map (fun loaded =>
      (loaded.1, loaded.2.vector.size, loaded.2.all, loaded.2.allLoaded)) =
        some (-1, 1, 1, true) := by decide
  refine ⟨loaded, ?_⟩
  rintro result after afterEq ⟨sizeSame, -⟩
  rw [afterEq, Option.map_some, Option.some.injEq] at loaded
  have one : after.vector.size = 1 := congrArg (fun fields => fields.2.1) loaded
  rw [one] at sizeSame
  exact absurd sizeSame (by decide)

end RecentHelper

end Fbbs
