import Fbbs.Parcel
import Mathlib.Data.List.TakeWhile

/-!
# Read marks of one board

`lib/boardrc.c` keeps for the current board the stamps of at most
`BRC_MAXNUM` posts that were read, newest first.  Everything older than the
last entry counts as read.  Marking an old post appends it, which would make
the posts between it and the previous last entry unread; this never happens to
a list that started with the entry 1, because it keeps that entry until it is
full, and a full list is not appended to.
-/

namespace Fbbs

namespace Boardrc

/-- `brc_item_t`, the stamp of a post. -/
abbrev Item := UInt32

def brcMaxnum : Nat := 60

/-- `brc_t`; `size` is the length of `items`. -/
structure Brc where
  dirty : Bool
  name : CString
  items : List Item
  deriving DecidableEq

/-- The entry that `brc_init` makes for a board without a record. -/
def Brc.fresh (name : CString) : Brc where
  dirty := true
  name := name
  items := [1]

/-- The entries that the loops of `brc_mark_as_read` and `brc_unread` pass
before they stop. -/
def newer (item : Item) (items : List Item) : List Item :=
  items.takeWhile (item < ·)

/-- The entries from the one at which the loops stop. -/
def notNewer (item : Item) (items : List Item) : List Item :=
  items.dropWhile (item < ·)

def brcMarkAsRead (item : Item) (brc : Brc) : Bool × Brc :=
  if brc.items = [] then (true, { brc with items := [item], dirty := true })
  else
    match notNewer item brc.items with
    | [] =>
      if brc.items.length < brcMaxnum then
        (false, { brc with items := brc.items ++ [item], dirty := true })
      else (false, brc)
    | entry :: older =>
      if item = entry then (false, brc)
      else
        let size :=
          if brc.items.length < brcMaxnum then brc.items.length + 1
          else brc.items.length
        (true,
          { brc with
            items := (newer item brc.items ++ item :: entry :: older).take size
            dirty := true })

def brcUnread (item : Item) (brc : Brc) : Bool :=
  if brc.items = [] then true
  else
    match notNewer item brc.items with
    | [] => false
    | entry :: _ => entry < item

/-- The stamps that a list of entries counts as read. -/
def Read (items : List Item) (item : Item) : Prop :=
  item ∈ items ∨ ∀ entry ∈ items, item < entry

/-- The lists that marking reaches from a fresh one. -/
structure Tracking (items : List Item) : Prop where
  nonempty : items ≠ []
  descending : items.Pairwise (· > ·)
  length_le : items.length ≤ brcMaxnum
  oldest : items.length < brcMaxnum → 1 ∈ items

theorem newer_append_notNewer (item : Item) (items : List Item) :
    newer item items ++ notNewer item items = items :=
  List.takeWhile_append_dropWhile

theorem lt_of_mem_newer {item entry : Item} {items : List Item}
    (member : entry ∈ newer item items) : item < entry := by
  have passed := List.mem_takeWhile_imp member
  simpa using passed

theorem le_of_notNewer {item entry : Item} {items older : List Item}
    (stops : notNewer item items = entry :: older) : entry ≤ item := by
  have head := List.head?_dropWhile_not (fun other => decide (item < other)) items
  unfold notNewer at stops
  rw [stops] at head
  simpa using head

/-- Where the loops stop, the list falls into newer entries, the entry that
stops them, and older ones. -/
theorem split_at_stop {item entry : Item} {items older : List Item}
    (descending : items.Pairwise (· > ·))
    (stops : notNewer item items = entry :: older) :
    items = newer item items ++ entry :: older ∧ entry ≤ item ∧
      ∀ other ∈ older, other < entry := by
  have split := newer_append_notNewer item items
  rw [stops] at split
  refine ⟨split.symm, le_of_notNewer stops, ?_⟩
  rw [← split, List.pairwise_append, List.pairwise_cons] at descending
  exact descending.2.1.1

/-- `brc_unread` is false exactly on what the list counts as read. -/
theorem brcUnread_eq_false_iff {brc : Brc} (nonempty : brc.items ≠ [])
    (descending : brc.items.Pairwise (· > ·)) (item : Item) :
    brcUnread item brc = false ↔ Read brc.items item := by
  unfold brcUnread Read
  rw [if_neg nonempty]
  cases stops : notNewer item brc.items with
  | nil =>
    have allNewer : ∀ entry ∈ brc.items, item < entry := by
      intro entry member
      apply lt_of_mem_newer
      have split := newer_append_notNewer item brc.items
      rw [stops, List.append_nil] at split
      rwa [split]
    simp only [true_iff]
    exact .inr allNewer
  | cons entry older =>
    obtain ⟨split, atMost, olderLess⟩ := split_at_stop descending stops
    have entryIn : entry ∈ brc.items := by
      rw [split]
      simp
    simp only [decide_eq_false_iff_not, UInt32.not_lt]
    constructor
    · intro atLeast
      have equal : item = entry := UInt32.le_antisymm atLeast atMost
      exact .inl (equal ▸ entryIn)
    · rintro (member | allNewer)
      · rw [split, List.mem_append, List.mem_cons] at member
        rcases member with inNewer | equal | inOlder
        · exact absurd (lt_of_mem_newer inNewer) (UInt32.lt_irrefl item)
        · exact equal ▸ UInt32.le_refl entry
        · exact UInt32.le_of_lt (olderLess item inOlder)
      · exact UInt32.le_of_lt (allNewer entry entryIn)

/-- Dropping the oldest entries leaves read what was read. -/
theorem Read.take {items : List Item} (descending : items.Pairwise (· > ·))
    {item : Item} (read : Read items item) (count : Nat) :
    Read (items.take count) item := by
  have split := List.take_append_drop count items
  rcases read with member | allNewer
  · rw [← split, List.mem_append] at member
    rcases member with kept | dropped
    · exact .inl kept
    · rw [← split, List.pairwise_append] at descending
      exact .inr fun entry entryIn => descending.2.2 entry entryIn item dropped
  · exact .inr fun entry entryIn => allNewer entry (List.mem_of_mem_take entryIn)

section Marking

variable {items older : List Item} {item entry : Item}

theorem descending_insert (descending : items.Pairwise (· > ·))
    (stops : notNewer item items = entry :: older) (smaller : entry < item) :
    (newer item items ++ item :: entry :: older).Pairwise (· > ·) := by
  obtain ⟨split, -, olderLess⟩ := split_at_stop descending stops
  rw [split, List.pairwise_append, List.pairwise_cons] at descending
  rw [List.pairwise_append, List.pairwise_cons, List.pairwise_cons]
  refine ⟨descending.1, ⟨?_, descending.2.1.1, descending.2.1.2⟩, ?_⟩
  · intro other member
    rcases List.mem_cons.mp member with rfl | inOlder
    · exact smaller
    · exact UInt32.lt_trans (olderLess other inOlder) smaller
  · intro before beforeIn after afterIn
    rcases List.mem_cons.mp afterIn with rfl | later
    · exact lt_of_mem_newer beforeIn
    · exact descending.2.2 before beforeIn after later

theorem Read.insert (descending : items.Pairwise (· > ·))
    (stops : notNewer item items = entry :: older) (smaller : entry < item)
    {other : Item} (read : Read items other) :
    Read (newer item items ++ item :: entry :: older) other := by
  obtain ⟨split, -, -⟩ := split_at_stop descending stops
  rcases read with member | allNewer
  · rw [split, List.mem_append] at member
    left
    rw [List.mem_append, List.mem_cons]
    exact member.imp_right .inr
  · right
    intro next nextIn
    rw [List.mem_append, List.mem_cons] at nextIn
    have belowEntry : other < entry := allNewer entry (by rw [split]; simp)
    rcases nextIn with inNewer | rfl | inRest
    · exact allNewer next (by rw [split]; simp [inNewer])
    · exact UInt32.lt_trans belowEntry smaller
    · exact allNewer next (by rw [split]; simp [List.mem_cons.mp inRest])

end Marking

/-- What `brc_mark_as_read` does to a tracking list: nothing if the item is
read already, and otherwise it is inserted before the first older entry, the
last entry of a full list falling off. -/
theorem brcMarkAsRead_cases {brc : Brc} (tracking : Tracking brc.items)
    {item : Item} (positive : 1 ≤ item) :
    (Read brc.items item ∧ brcMarkAsRead item brc = (false, brc)) ∨
      ∃ entry older, notNewer item brc.items = entry :: older ∧ entry < item ∧
        brcMarkAsRead item brc = (true,
          { brc with
            items :=
              (newer item brc.items ++ item :: entry :: older).take brcMaxnum
            dirty := true }) := by
  obtain ⟨nonempty, descending, length_le, oldest⟩ := tracking
  unfold brcMarkAsRead
  rw [if_neg nonempty]
  cases stops : notNewer item brc.items with
  | nil =>
    left
    have allNewer : ∀ entry ∈ brc.items, item < entry := by
      intro entry member
      apply lt_of_mem_newer
      have split := newer_append_notNewer item brc.items
      rw [stops, List.append_nil] at split
      rwa [split]
    have full : ¬ brc.items.length < brcMaxnum := by
      intro room
      have belowOne := allNewer 1 (oldest room)
      exact UInt32.not_lt.mpr positive belowOne
    exact ⟨.inr allNewer, by simp only [if_neg full]⟩
  | cons entry older =>
    obtain ⟨split, atMost, -⟩ := split_at_stop descending stops
    by_cases equal : item = entry
    · left
      refine ⟨.inl ?_, by simp only [if_pos equal]⟩
      rw [split, equal]
      simp
    · right
      have smaller : entry < item :=
        UInt32.lt_of_le_of_ne atMost (Ne.symm equal)
      refine ⟨entry, older, rfl, smaller, ?_⟩
      have lengthEq : brc.items.length + 1 =
          (newer item brc.items ++ item :: entry :: older).length := by
        conv_lhs => rw [split]
        simp [Nat.add_assoc]
      simp only [if_neg equal]
      by_cases room : brc.items.length < brcMaxnum
      · rw [if_pos room, lengthEq, List.take_length,
          List.take_of_length_le (lengthEq ▸ room)]
      · rw [if_neg room, Nat.le_antisymm length_le (Nat.le_of_not_lt room)]

/-- An inserted item does not fall off. -/
theorem mem_take_insert {items older : List Item} {item entry : Item}
    (tracking : Tracking items) (stops : notNewer item items = entry :: older) :
    item ∈ (newer item items ++ item :: entry :: older).take brcMaxnum := by
  have split := newer_append_notNewer item items
  rw [stops] at split
  have lengths := congrArg List.length split
  rw [List.length_append, List.length_cons] at lengths
  have length_le := tracking.length_le
  rw [List.take_append, List.take_cons (by omega)]
  simp

/-- Marking an item keeps the list tracking; the item is read afterwards, and
so is everything that was read before. -/
theorem brcMarkAsRead_spec {brc : Brc} (tracking : Tracking brc.items)
    {item : Item} (positive : 1 ≤ item) :
    Tracking (brcMarkAsRead item brc).2.items ∧
      (brcMarkAsRead item brc).1 = brcUnread item brc ∧
      Read (brcMarkAsRead item brc).2.items item ∧
      ∀ other, Read brc.items other →
        Read (brcMarkAsRead item brc).2.items other := by
  have unreadIff :=
    brcUnread_eq_false_iff tracking.nonempty tracking.descending item
  rcases brcMarkAsRead_cases tracking positive with
    ⟨read, markEq⟩ | ⟨entry, older, stops, smaller, markEq⟩
  · rw [markEq]
    exact ⟨tracking, (unreadIff.mpr read).symm, read, fun _ => id⟩
  · obtain ⟨split, -, -⟩ := split_at_stop tracking.descending stops
    have descending := descending_insert tracking.descending stops smaller
    have lengthEq : brc.items.length =
        (newer item brc.items).length + (older.length + 1) := by
      conv_lhs => rw [split]
      simp
    have kept := mem_take_insert tracking stops
    have unread : brcUnread item brc = true := by
      unfold brcUnread
      rw [if_neg tracking.nonempty, stops]
      simpa using smaller
    rw [markEq]
    refine ⟨⟨List.ne_nil_of_mem kept, descending.sublist (List.take_sublist _ _),
      List.length_take_le _ _, ?_⟩, unread.symm, .inl kept, fun other read =>
        (read.insert tracking.descending stops smaller).take descending brcMaxnum⟩
    intro notFull
    simp only [List.length_take, List.length_append, List.length_cons] at notFull
    have oneIn := tracking.oldest (by omega)
    rw [split] at oneIn
    rw [List.take_of_length_le (by
      simp only [List.length_append, List.length_cons]
      omega)]
    simp only [List.mem_append, List.mem_cons] at oneIn ⊢
    tauto

theorem Brc.fresh_tracking (name : CString) : Tracking (Brc.fresh name).items where
  nonempty := List.cons_ne_nil 1 []
  descending := List.pairwise_singleton _ 1
  length_le := Nat.le_of_ble_eq_true rfl
  oldest _ := List.mem_singleton.mpr rfl

/-- The record of a board after marking the items in order. -/
def markAll (items : List Item) (brc : Brc) : Brc :=
  items.foldl (fun brc item => (brcMarkAsRead item brc).2) brc

theorem markAll_tracking {brc : Brc} (tracking : Tracking brc.items)
    {items : List Item} (positive : ∀ item ∈ items, 1 ≤ item) :
    Tracking (markAll items brc).items := by
  induction items generalizing brc with
  | nil => exact tracking
  | cons item items ih =>
    have first := positive item List.mem_cons_self
    have later : ∀ other ∈ items, 1 ≤ other :=
      fun other member => positive other (List.mem_cons_of_mem item member)
    exact ih (brcMarkAsRead_spec tracking first).1 later

/-- However a fresh record has been marked, marking one more item returns
whether it was unread, makes it read, and never makes a read item unread. -/
theorem marks_stay_read (name : CString) {items : List Item}
    (positive : ∀ item ∈ items, 1 ≤ item) :
    let brc := markAll items (Brc.fresh name)
    brc.items.Pairwise (· > ·) ∧ brc.items.length ≤ brcMaxnum ∧
      ∀ item, 1 ≤ item →
        (brcMarkAsRead item brc).1 = brcUnread item brc ∧
        brcUnread item (brcMarkAsRead item brc).2 = false ∧
        ∀ other, 1 ≤ other → brcUnread other brc = false →
          brcUnread other (brcMarkAsRead item brc).2 = false := by
  intro brc
  have tracking : Tracking brc.items :=
    markAll_tracking (Brc.fresh_tracking name) positive
  refine ⟨tracking.descending, tracking.length_le, fun item itemPositive => ?_⟩
  obtain ⟨after, returned, read, preserved⟩ :=
    brcMarkAsRead_spec tracking itemPositive
  have readAfter := brcUnread_eq_false_iff after.nonempty after.descending
  have readBefore := brcUnread_eq_false_iff tracking.nonempty tracking.descending
  refine ⟨returned, (readAfter item).mpr read, fun other _ otherRead => ?_⟩
  exact (readAfter other).mpr (preserved other ((readBefore other).mp otherRead))

/-- A stamp below the newest one is inserted in the middle. -/
theorem marks_stay_read_sample :
    let brc := markAll [9, 4] (Brc.fresh .empty)
    brc.items = [9, 4, 1] ∧ brcUnread 4 (brcMarkAsRead 7 brc).2 = false := by
  have positive : ∀ item ∈ [(9 : Item), 4], 1 ≤ item := by
    rw [List.forall_mem_cons, List.forall_mem_singleton]
    decide
  exact ⟨by decide,
    ((marks_stay_read .empty positive).2.2 7 (by decide)).2.2 4 (by decide) (by decide)⟩

end Boardrc

end Fbbs
