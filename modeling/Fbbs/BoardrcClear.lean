import Fbbs.BoardrcSession
import Mathlib.Data.List.Nodup

/-!
# Clearing a board

`brc_clear` of `lib/boardrc.c` marks the last sixty stamps up to an item one after the other.
They fill the list, so that every older entry falls off, and no entry newer than the item is
touched.
-/

namespace Fbbs

namespace Boardrc

/-- The current records that a user can have: a fresh one, one that was stored and is loaded
again, and what marking and clearing make of them. -/
inductive Reachable : Brc → Prop
  | fresh (name : CString) : Reachable (Brc.fresh name)
  | stored {brc : Brc} (reachable : Reachable brc) (dirty : Bool) (name : CString) :
      Reachable ⟨dirty, name, brc.items⟩
  | mark {brc : Brc} (reachable : Reachable brc) (item : Item) :
      Reachable (brcMarkAsRead item brc).2
  | clear {brc after : Brc} (reachable : Reachable brc) (item : Item)
      (clears : brcClear item brc = some after) : Reachable after

/-- What a list counts as read after some stamps up to an item have been marked. -/
structure MarkedUpTo (marked : Item → Prop) (last : Item) (before after : List Item) :
    Prop where
  tracking : Tracking after
  read : ∀ item, marked item → Read after item
  kept : ∀ item, Read before item → Read after item
  newer : ∀ item, last < item → Read after item → Read before item

theorem MarkedUpTo.refl {items : List Item} (tracking : Tracking items) (last : Item) :
    MarkedUpTo (fun _ => False) last items items where
  tracking := tracking
  read _ := False.elim
  kept _ := id
  newer _ _ := id

theorem MarkedUpTo.trans {first second both : Item → Prop} {middle last : Item}
    {before between after : List Item} (earlier : MarkedUpTo first middle before between)
    (later : MarkedUpTo second last between after) (order : middle ≤ last)
    (each : ∀ item, both item → first item ∨ second item) :
    MarkedUpTo both last before after where
  tracking := later.tracking
  read item marked := by
    rcases each item marked with inFirst | inSecond
    · exact later.kept item (earlier.read item inFirst)
    · exact later.read item inSecond
  kept item read := later.kept item (earlier.kept item read)
  newer item above read :=
    earlier.newer item (UInt32.lt_of_le_of_lt order above) (later.newer item above read)

theorem MarkedUpTo.mono {marked fewer : Item → Prop} {last : Item} {before after : List Item}
    (all : MarkedUpTo marked last before after) (each : ∀ item, fewer item → marked item) :
    MarkedUpTo fewer last before after where
  tracking := all.tracking
  read item isFewer := all.read item (each item isFewer)
  kept := all.kept
  newer := all.newer

/-- The item 0 is appended to a list that is not full, behind the entry 1. -/
theorem brcMarkAsRead_zero {brc : Brc} (tracking : Tracking brc.items) :
    (Read brc.items 0 ∧ (brcMarkAsRead 0 brc).2 = brc) ∨
      brc.items.length < brcMaxnum ∧ (∀ entry ∈ brc.items, 0 < entry) ∧
        (brcMarkAsRead 0 brc).2 =
          { brc with items := brc.items ++ [0], dirty := true } := by
  unfold brcMarkAsRead
  rw [if_neg tracking.nonempty]
  cases stops : notNewer 0 brc.items with
  | nil =>
    have allNewer : ∀ entry ∈ brc.items, 0 < entry := by
      intro entry member
      apply lt_of_mem_newer
      have split := newer_append_notNewer 0 brc.items
      rw [stops, List.append_nil] at split
      rwa [split]
    by_cases room : brc.items.length < brcMaxnum
    · exact .inr ⟨room, allNewer, by simp only [if_pos room]⟩
    · exact .inl ⟨.inr allNewer, by simp only [if_neg room]⟩
  | cons entry older =>
    obtain ⟨split, atMost, -⟩ := split_at_stop tracking.descending stops
    have equal : 0 = entry := (UInt32.le_zero_iff.mp atMost).symm
    refine .inl ⟨.inl ?_, by simp only [if_pos equal]⟩
    rw [split, equal]
    simp

theorem zero_markedUpTo {brc : Brc} (tracking : Tracking brc.items) :
    MarkedUpTo (· = 0) 0 brc.items (brcMarkAsRead 0 brc).2.items := by
  rcases brcMarkAsRead_zero tracking with ⟨read, same⟩ | ⟨room, positive, appended⟩
  · rw [same]
    exact ⟨tracking, fun _ zero => zero ▸ read, fun _ => id, fun _ _ => id⟩
  · rw [appended]
    have zeroIn : (0 : Item) ∈ brc.items ++ [0] := by simp
    refine ⟨⟨by simp, ?_, ?_, fun _ => ?_⟩, ?_, ?_, ?_⟩
    · rw [List.pairwise_append]
      refine ⟨tracking.descending, List.pairwise_singleton _ 0, ?_⟩
      intro entry member zero isZero
      rw [List.mem_singleton.mp isZero]
      exact positive entry member
    · rw [List.length_append, List.length_singleton]
      exact room
    · exact List.mem_append_left [0] (tracking.oldest room)
    · rintro item rfl
      exact .inl zeroIn
    · rintro item (member | allNewer)
      · exact .inl (List.mem_append_left [0] member)
      · -- Only 0 is below the entry 1.
        obtain rfl : item = 0 := UInt32.lt_one_iff.mp (allNewer 1 (tracking.oldest room))
        exact .inl zeroIn
    · rintro item above (member | allNewer)
      · rcases List.mem_append.mp member with before | last
        · exact .inl before
        · rw [List.mem_singleton.mp last] at above
          exact absurd above (UInt32.lt_irrefl 0)
      · exact absurd (UInt32.lt_trans above (allNewer 0 zeroIn)) (UInt32.lt_irrefl 0)

theorem positive_markedUpTo {brc : Brc} (tracking : Tracking brc.items) {item : Item}
    (positive : 1 ≤ item) :
    MarkedUpTo (· = item) item brc.items (brcMarkAsRead item brc).2.items := by
  obtain ⟨after, -, read, preserved⟩ := brcMarkAsRead_spec tracking positive
  refine ⟨after, fun _ same => same ▸ read, preserved, ?_⟩
  intro other above otherRead
  rcases brcMarkAsRead_cases tracking positive with
    ⟨-, same⟩ | ⟨entry, older, stops, smaller, inserted⟩
  · rwa [same] at otherRead
  · -- The item itself is an entry now, so only an entry can be read above it.
    obtain ⟨split, -, -⟩ := split_at_stop tracking.descending stops
    rw [inserted] at otherRead
    rcases otherRead with member | allNewer
    · have inserted := List.mem_of_mem_take member
      rw [List.mem_append, List.mem_cons] at inserted
      left
      rw [split]
      rcases inserted with inNewer | same | inOlder
      · exact List.mem_append_left _ inNewer
      · exact absurd above (same ▸ UInt32.lt_irrefl item)
      · exact List.mem_append_right _ inOlder
    · have below := allNewer item (mem_take_insert tracking stops)
      exact absurd (UInt32.lt_trans above below) (UInt32.lt_irrefl item)

theorem brcMarkAsRead_markedUpTo {brc : Brc} (tracking : Tracking brc.items) (item : Item) :
    MarkedUpTo (· = item) item brc.items (brcMarkAsRead item brc).2.items := by
  by_cases zero : item = 0
  · subst zero
    exact zero_markedUpTo tracking
  · have positive : 1 ≤ item := by
      rw [UInt32.le_iff_toNat_le]
      have nonzero : item.toNat ≠ 0 := fun same => zero (UInt32.toNat_inj.mp same)
      change 1 ≤ item.toNat
      omega
    exact positive_markedUpTo tracking positive

/-- The loop ends if its counter cannot wrap around, and marks every stamp that it passes. -/
theorem clearLoop_markedUpTo {fuel : Nat} {i : UInt32} {item : Item} {brc : Brc}
    (tracking : Tracking brc.items) (noWrap : item.toNat < 2 ^ 32 - 1)
    (enough : item.toNat + 1 - i.toNat < fuel) :
    ∃ after, clearLoop fuel i item brc = some after ∧
      MarkedUpTo (fun other => i ≤ other ∧ other ≤ item) item brc.items after.items := by
  induction fuel generalizing i brc with
  | zero => omega
  | succ fuel ih =>
    rw [clearLoop]
    by_cases more : i ≤ item
    · rw [if_pos more]
      have first := brcMarkAsRead_markedUpTo tracking i
      have moreNat := UInt32.le_iff_toNat_le.mp more
      have next : (i + 1).toNat = i.toNat + 1 := by
        rw [UInt32.toNat_add]
        change (i.toNat + 1) % 2 ^ 32 = i.toNat + 1
        omega
      obtain ⟨after, clears, later⟩ := @ih (i + 1) _ first.tracking (by omega)
      refine ⟨after, clears, first.trans later more ?_⟩
      rintro other ⟨fromHere, upTo⟩
      by_cases here : other = i
      · exact .inl here
      · right
        have different : other.toNat ≠ i.toNat := fun same => here (UInt32.toNat_inj.mp same)
        have fromHereNat := UInt32.le_iff_toNat_le.mp fromHere
        refine ⟨UInt32.le_iff_toNat_le.mpr ?_, upTo⟩
        omega
    · rw [if_neg more]
      refine ⟨brc, rfl, (MarkedUpTo.refl tracking item).mono ?_⟩
      rintro other ⟨fromHere, upTo⟩
      exact absurd (UInt32.le_trans fromHere upTo) more

theorem clearLoop_tracking {fuel : Nat} {i : UInt32} {item : Item} {brc after : Brc}
    (tracking : Tracking brc.items) (clears : clearLoop fuel i item brc = some after) :
    Tracking after.items := by
  induction fuel generalizing i brc with
  | zero => cases clears
  | succ fuel ih =>
    rw [clearLoop] at clears
    split at clears
    · exact ih (brcMarkAsRead_markedUpTo tracking i).tracking clears
    · rw [Option.some.injEq] at clears
      exact clears ▸ tracking

theorem Reachable.tracking {brc : Brc} (reachable : Reachable brc) : Tracking brc.items := by
  induction reachable with
  | fresh name => exact Brc.fresh_tracking name
  | stored _ dirty name ih => exact ih
  | mark _ item ih => exact (brcMarkAsRead_markedUpTo ih item).tracking
  | clear _ item clears ih => exact clearLoop_tracking ih clears

/-- The last sixty stamps up to an item. -/
def lastStamps (item : Item) : List Item :=
  (List.range brcMaxnum).map fun back => item - .ofNat back

theorem toNat_lastStamp {item : Item} (low : 59 ≤ item.toNat) {back : Nat}
    (few : back < brcMaxnum) : (item - UInt32.ofNat back).toNat = item.toNat - back := by
  have small : (UInt32.ofNat back).toNat = back := by
    rw [UInt32.toNat_ofNat']
    unfold brcMaxnum at few
    omega
  have below := UInt32.toNat_lt item
  unfold brcMaxnum at few
  rw [UInt32.toNat_sub, small]
  omega

theorem nodup_lastStamps {item : Item} (low : 59 ≤ item.toNat) : (lastStamps item).Nodup := by
  apply List.Nodup.map_on _ List.nodup_range
  intro first firstIn second secondIn same
  rw [List.mem_range] at firstIn secondIn
  have values := congrArg UInt32.toNat same
  rw [toNat_lastStamp low firstIn, toNat_lastStamp low secondIn] at values
  unfold brcMaxnum at firstIn secondIn
  omega

theorem mem_lastStamps {item other : Item} (low : 59 ≤ item.toNat)
    (member : other ∈ lastStamps item) : item - 59 ≤ other ∧ other ≤ item := by
  obtain ⟨back, few, rfl⟩ := List.mem_map.mp member
  rw [List.mem_range] at few
  have first := @toNat_lastStamp _ low 59 (by decide)
  change (item - 59).toNat = item.toNat - 59 at first
  rw [UInt32.le_iff_toNat_le, UInt32.le_iff_toNat_le, toNat_lastStamp low few, first]
  unfold brcMaxnum at few
  omega

/-- Sixty entries leave no room for an older one. -/
theorem read_of_lastStamps {items : List Item} (tracking : Tracking items) {item : Item}
    (low : 59 ≤ item.toNat) (marked : ∀ other, item - 59 ≤ other ∧ other ≤ item → Read items other)
    {other : Item} (older : other < item - 59) : Read items other := by
  right
  by_contra notNewer
  push Not at notNewer
  obtain ⟨entry, entryIn, atMost⟩ := notNewer
  have below : entry < item - 59 := UInt32.lt_of_le_of_lt (UInt32.not_lt.mp atMost) older
  have entries : entry :: lastStamps item ⊆ items := by
    intro stamp member
    rcases List.mem_cons.mp member with rfl | stampIn
    · exact entryIn
    · have range := mem_lastStamps low stampIn
      apply (marked stamp range).resolve_right
      intro allNewer
      have newer := UInt32.lt_trans (UInt32.lt_of_lt_of_le below range.1)
        (allNewer entry entryIn)
      exact UInt32.lt_irrefl entry newer
  have distinct : (entry :: lastStamps item).Nodup := by
    refine List.nodup_cons.mpr ⟨fun again => ?_, nodup_lastStamps low⟩
    have above := (mem_lastStamps low again).1
    exact UInt32.lt_irrefl entry (UInt32.lt_of_lt_of_le below above)
  have count := (List.subperm_of_subset distinct entries).length_le
  rw [List.length_cons, lastStamps, List.length_map, List.length_range] at count
  have length_le := tracking.length_le
  omega

/-- Clearing ends; everything up to the item is read afterwards, and above it nothing has
changed. -/
theorem brcClear_exact {brc : Brc} (reachable : Reachable brc) {item : Item}
    (low : 59 ≤ item) (high : item.toNat < 2 ^ 32 - 1) :
    ∃ after, brcClear item brc = some after ∧
      (∀ other ≤ item, brcUnread other after = false) ∧
      ∀ other, item < other → brcUnread other after = brcUnread other brc := by
  have lowNat : 59 ≤ item.toNat := UInt32.le_iff_toNat_le.mp low
  have first := @toNat_lastStamp _ lowNat 59 (by decide)
  change (item - 59).toNat = item.toNat - 59 at first
  have tracking := reachable.tracking
  obtain ⟨after, clears, marks⟩ :=
    @clearLoop_markedUpTo (brcMaxnum + 1) (item - 59) item brc tracking high (by
      rw [first]
      unfold brcMaxnum
      omega)
  have readAfter :=
    brcUnread_eq_false_iff marks.tracking.nonempty marks.tracking.descending
  have readBefore := brcUnread_eq_false_iff tracking.nonempty tracking.descending
  refine ⟨after, clears, fun other upTo => ?_, fun other above => ?_⟩
  · rw [readAfter]
    by_cases older : other < item - 59
    · exact read_of_lastStamps marks.tracking lowNat marks.read older
    · exact marks.read other ⟨UInt32.not_lt.mp older, upTo⟩
  · have same : brcUnread other after = false ↔ brcUnread other brc = false := by
      rw [readAfter, readBefore]
      exact ⟨marks.newer other above, marks.kept other⟩
    cases unread : brcUnread other brc with
    | false => exact same.mpr unread
    | true =>
      rw [unread] at same
      simpa using same

/-- A record with the marks 1 and 70 is cleared up to 65. -/
theorem brcClear_exact_sample :
    ∃ after, brcClear 65 (brcMarkAsRead 70 (Brc.fresh .empty)).2 = some after ∧
      brcUnread 20 after = false ∧ brcUnread 66 after = true ∧ brcUnread 70 after = false := by
  have reachable : Reachable (brcMarkAsRead 70 (Brc.fresh .empty)).2 :=
    (Reachable.fresh .empty).mark 70
  obtain ⟨after, clears, read, same⟩ :=
    @brcClear_exact _ reachable 65 (by decide) (by decide)
  refine ⟨after, clears, read 20 (by decide), ?_, ?_⟩
  · rw [same 66 (by decide)]
    decide
  · rw [same 70 (by decide)]
    decide

end Boardrc

end Fbbs
