import Fbbs.PostRecordPages
import Fbbs.PostStamps
import Fbbs.ReadMarks
import Fbbs.RecordSearch

/-!
# Jumping to the first unread post of a thread

`jump_to_thread_first_unread` of `src/plist.c` searches the records of a board behind the first
one, for the number of the thread among the numbers of the posts.
-/

namespace Fbbs

namespace UnreadJump

open Boardrc CallbackScan PostRecordPages RecordCache RecordScan
open Post (postStamp)

/-- `post_list_type_e`. -/
inductive ListType
  | normal
  | thread
  | marked
  | digest
  | topic
  | author
  | keyword
  | trash
  | junk
  | forum
  | reply
  deriving DecidableEq

/-- `post_list_t` with the cursor of its list. -/
structure PostList where
  type : ListType
  record : RecordFile PostRecord
  currentTid : PostId
  cur : Int

def threadFirstUnreadFilter (brc : Brc) (tid : PostId) (entry : PostRecord × Nat) : Reply :=
  if entry.1.id = tid ∧ brcUnread (postStamp entry.1.id) brc = true then .found else .next

/-- The post that is given to `read_posts`, with the reply `FULLUPDATE`; `none` is
`DONOTHING`. -/
def jumpToThreadFirstUnread (brc : Brc) (pl : PostList) (pi : Option PostInfo) :
    Option (PostList × Option PostInfo) :=
  match pi with
  | none => some (pl, none)
  | some pi =>
    if pl.type ≠ .normal then some (pl, none)
    else
      let pl := { pl with currentTid := pi.threadId }
      (recordSearchCopy (threadFirstUnreadFilter brc pi.threadId) 0 false pl.record).map
        fun
        | none => (pl, none)
        | some (pr, pos) => ({ pl with cur := pos }, some (infoOf pr))

/-! ## Where the jump should lead -/

/-- A record of the thread that is not read. -/
def UnreadAt (brc : Brc) (rec : RecordFile PostRecord) (tid : PostId) (index : Nat)
    (record : PostRecord) : Prop :=
  rec.records[index]? = some record ∧ record.threadId = tid ∧
    brcUnread (postStamp record.id) brc = true

instance (brc : Brc) (rec : RecordFile PostRecord) (tid : PostId) (index : Nat)
    (record : PostRecord) : Decidable (UnreadAt brc rec tid index record) :=
  inferInstanceAs (Decidable (_ ∧ _))

/-- The first of them. -/
def FirstUnread (brc : Brc) (rec : RecordFile PostRecord) (tid : PostId) (index : Nat)
    (record : PostRecord) : Prop :=
  UnreadAt brc rec tid index record ∧
    ∀ other found, UnreadAt brc rec tid other found → index ≤ other

/-- The cursor goes to the first unread record of the thread, which is read, or stays when there
is none. -/
def Jumps (brc : Brc) (pl : PostList) (pi : PostInfo) : Prop :=
  ∃ after opened, jumpToThreadFirstUnread brc pl (some pi) = some (after, opened) ∧
    ((∃ index record, FirstUnread brc pl.record pi.threadId index record ∧
        after.cur = index ∧ opened = some (infoOf record)) ∨
      (∀ index record, ¬UnreadAt brc pl.record pi.threadId index record) ∧
        after.cur = pl.cur ∧ opened = none)

/-- The number of records that are searched can be rounded up to blocks. -/
def Searchable (rec : RecordFile PostRecord) : Prop :=
  rec.records.length ≤ 1 ∨ rec.records.length + rec.block < 2 ^ 31 + 2

/-- The first unread record of the thread is its opening post, and not the first of the file.
An unread record with the number of the thread has it before or at its place. -/
def OpensUnread (brc : Brc) (rec : RecordFile PostRecord) (tid : PostId) : Prop :=
  (∀ index record, FirstUnread brc rec tid index record → 0 < index ∧ record.id = tid) ∧
    ∀ index record, 0 < index → rec.records[index]? = some record → record.id = tid →
      brcUnread (postStamp record.id) brc = true →
        ∃ first ≤ index, ∃ other, UnreadAt brc rec tid first other

section Search

variable {brc : Brc} {rec : RecordFile PostRecord} {tid : PostId}

theorem threadFirstUnreadFilter_ne_stop (entry : PostRecord × Nat) :
    threadFirstUnreadFilter brc tid entry ≠ .stop := by
  rw [threadFirstUnreadFilter]
  split <;> simp

theorem threadFirstUnreadFilter_eq_found {record : PostRecord} {index : Nat} :
    threadFirstUnreadFilter brc tid (record, index) = .found ↔
      record.id = tid ∧ brcUnread (postStamp record.id) brc = true := by
  rw [threadFirstUnreadFilter]
  split
  case isTrue isMatch => exact iff_of_true rfl isMatch
  case isFalse noMatch => exact iff_of_false (by decide) noMatch

theorem exists_firstUnread {index : Nat} {record : PostRecord}
    (unread : UnreadAt brc rec tid index record) :
    ∃ first other, FirstUnread brc rec tid first other ∧ first ≤ index := by
  induction index using Nat.strongRecOn generalizing record with
  | ind index ih =>
    by_cases earlier : ∃ before < index, ∃ found, UnreadAt brc rec tid before found
    · obtain ⟨before, less, found, unread'⟩ := earlier
      obtain ⟨first, other, isFirst, atMost⟩ := ih before less unread'
      exact ⟨first, other, isFirst, by omega⟩
    · refine ⟨index, record, ⟨unread, fun other found unread' => ?_⟩, Nat.le_refl index⟩
      exact Nat.le_of_not_lt fun less => earlier ⟨other, less, found, unread'⟩

theorem search_eq_none (overflow : ¬Searchable rec) :
    recordSearchCopy (threadFirstUnreadFilter brc tid) 0 false rec = none := by
  rw [Searchable, not_or] at overflow
  have all : searchAll rec 0 false = (rec.records.length : Int) - 0 - 1 := rfl
  rw [recordSearchCopy_eq (by omega), if_neg (by omega)]

/-- The search finds the nearest match behind the first record. -/
theorem search_nearest (brc : Brc) (tid : PostId) (fits : Searchable rec) :
    ∃ result, recordSearchCopy (threadFirstUnreadFilter brc tid) 0 false rec = some result ∧
      Nearest (threadFirstUnreadFilter brc tid) rec 0 false result := by
  have all : searchAll rec 0 false = (rec.records.length : Int) - 0 - 1 := rfl
  by_cases few : rec.records.length ≤ 1
  · refine ⟨none, if_pos (by omega), fun index record _ inRange => ?_⟩
    exact absurd inRange (not_inRange (by omega) index)
  · have small := or_iff_right few |>.mp fits
    have rounded : (searchAll rec 0 false).toNat + rec.block - 1 < 2 ^ 31 := by omega
    have recordFits := rec.rlen_le
    have seeks : firstPlace rec 0 false * rec.rlen < 2 ^ 31 := by
      change 1 * rec.rlen < 2 ^ 31
      have size : recordBufferSize = 8192 := rfl
      omega
    have inside : firstPlace rec 0 false < rec.records.length := by
      change 1 < rec.records.length
      omega
    exact (searchForward_nearest_iff threadFirstUnreadFilter_ne_stop (by omega) rounded).mpr
      (.inr ⟨rounded, seeks, .inl inside⟩)

theorem FirstUnread.unique {index other : Nat} {record found : PostRecord}
    (first : FirstUnread brc rec tid index record) (second : FirstUnread brc rec tid other found) :
    index = other ∧ record = found := by
  obtain rfl : index = other :=
    Nat.le_antisymm (first.2 other found second.1) (second.2 index record first.1)
  exact ⟨rfl, Option.some.inj (first.1.1.symm.trans second.1.1)⟩

/-- A match behind the first record. -/
def MatchAt (brc : Brc) (rec : RecordFile PostRecord) (tid : PostId) (index : Nat)
    (record : PostRecord) : Prop :=
  0 < index ∧ rec.records[index]? = some record ∧ record.id = tid ∧
    brcUnread (postStamp record.id) brc = true

theorem nearest_none (nearest : Nearest (threadFirstUnreadFilter brc tid) rec 0 false none)
    (index : Nat) (record : PostRecord) : ¬MatchAt brc rec tid index record := by
  rintro ⟨positive, isRecord, isMatch⟩
  have inside := (List.getElem?_eq_some_iff.mp isRecord).1
  exact nearest index record isRecord ⟨inside, Int.natCast_pos.mpr positive⟩
    (threadFirstUnreadFilter_eq_found.mpr isMatch)

theorem nearest_some {pr : PostRecord} {pos : Nat}
    (nearest : Nearest (threadFirstUnreadFilter brc tid) rec 0 false (some (pr, pos))) :
    MatchAt brc rec tid pos pr ∧
      ∀ index record, MatchAt brc rec tid index record → pos ≤ index := by
  obtain ⟨isRecord, inRange, isMatch, least⟩ := nearest
  refine ⟨⟨Int.natCast_pos.mp inRange.2, isRecord, threadFirstUnreadFilter_eq_found.mp isMatch⟩,
    ?_⟩
  rintro index record ⟨positive, isRecord', isMatch'⟩
  have inside := (List.getElem?_eq_some_iff.mp isRecord').1
  exact least index record isRecord' ⟨inside, Int.natCast_pos.mpr positive⟩
    (threadFirstUnreadFilter_eq_found.mpr isMatch')

/-- Without a match, the jump is right for a thread that is read. -/
theorem opensUnread_iff_of_none (missed : ∀ index record, ¬MatchAt brc rec tid index record) :
    OpensUnread brc rec tid ↔ ∀ index record, ¬UnreadAt brc rec tid index record := by
  constructor
  · rintro ⟨opens, -⟩ index record unread
    obtain ⟨first, other, isFirst, -⟩ := exists_firstUnread unread
    obtain ⟨positive, isThread⟩ := opens first other isFirst
    exact missed first other ⟨positive, isFirst.1.1, isThread, isFirst.1.2.2⟩
  · intro isRead
    refine ⟨fun index record isFirst => absurd isFirst.1 (isRead index record), ?_⟩
    intro index record positive isRecord isThread unread
    exact absurd ⟨positive, isRecord, isThread, unread⟩ (missed index record)

/-- With a match, it is right if the nearest one is the first unread record. -/
theorem opensUnread_iff_of_some {pr : PostRecord} {pos : Nat} (isMatch : MatchAt brc rec tid pos pr)
    (least : ∀ index record, MatchAt brc rec tid index record → pos ≤ index) :
    OpensUnread brc rec tid ↔ FirstUnread brc rec tid pos pr := by
  constructor
  · rintro ⟨opens, before⟩
    obtain ⟨earlier, atMost, found, unread⟩ :=
      before pos pr isMatch.1 isMatch.2.1 isMatch.2.2.1 isMatch.2.2.2
    obtain ⟨first, other, isFirst, atMost'⟩ := exists_firstUnread unread
    obtain ⟨positive, isThread⟩ := opens first other isFirst
    have near := least first other ⟨positive, isFirst.1.1, isThread, isFirst.1.2.2⟩
    obtain rfl : first = pos := by omega
    obtain rfl : other = pr := Option.some.inj (isFirst.1.1.symm.trans isMatch.2.1)
    exact isFirst
  · intro isFirst
    constructor
    · intro index record isFirst'
      obtain ⟨rfl, rfl⟩ := isFirst.unique isFirst'
      exact ⟨isMatch.1, isMatch.2.2.1⟩
    · intro index record positive isRecord isThread unread
      exact ⟨pos, least index record ⟨positive, isRecord, isThread, unread⟩, pr, isFirst.1⟩

end Search

/-- The jump is right exactly if the first unread record of the thread is one that the search
can find. -/
theorem jumps_iff (brc : Brc) (rec : RecordFile PostRecord) (currentTid : PostId) (cur : Int)
    (pi : PostInfo) :
    Jumps brc ⟨.normal, rec, currentTid, cur⟩ pi ↔
      Searchable rec ∧ OpensUnread brc rec pi.threadId := by
  by_cases fits : Searchable rec
  · rw [and_iff_right fits]
    obtain ⟨result, searched, nearest⟩ := search_nearest brc pi.threadId fits
    have jumped : jumpToThreadFirstUnread brc ⟨.normal, rec, currentTid, cur⟩ (some pi) = _ :=
      congrArg (Option.map _) searched
    rw [Jumps, jumped]
    cases result with
    | none =>
      rw [opensUnread_iff_of_none (nearest_none nearest)]
      constructor
      · rintro ⟨after, opened, returned, ⟨index, record, -, -, found⟩ | ⟨isRead, -⟩⟩
        · rw [Option.map_some, Option.some.injEq, Prod.mk.injEq] at returned
          rw [found] at returned
          cases returned.2
        · exact isRead
      · intro isRead
        exact ⟨_, _, rfl, .inr ⟨isRead, rfl, rfl⟩⟩
    | some entry =>
      obtain ⟨pr, pos⟩ := entry
      obtain ⟨isMatch, least⟩ := nearest_some nearest
      rw [opensUnread_iff_of_some isMatch least]
      constructor
      · rintro ⟨after, opened, returned, ⟨index, record, isFirst, cursor, -⟩ | ⟨-, -, stays⟩⟩ <;>
          rw [Option.map_some, Option.some.injEq, Prod.mk.injEq] at returned
        · obtain rfl : pos = index := by
            rw [← returned.1] at cursor
            exact Int.ofNat_inj.mp cursor
          obtain rfl : record = pr := Option.some.inj (isFirst.1.1.symm.trans isMatch.2.1)
          exact isFirst
        · rw [stays] at returned
          cases returned.2
      · intro isFirst
        exact ⟨_, _, rfl, .inl ⟨pos, pr, isFirst, rfl, rfl⟩⟩
  · apply iff_of_false
    · rintro ⟨after, opened, returned, -⟩
      have failed : jumpToThreadFirstUnread brc ⟨.normal, rec, currentTid, cur⟩ (some pi) = none :=
        congrArg (Option.map _) (search_eq_none fits)
      rw [failed] at returned
      cases returned
    · exact fun both => fits both.1

theorem count_lt_of_pair (first second : PostRecord) : [first, second].length < 2 ^ 31 :=
  Nat.lt_of_sub_eq_succ rfl

def twoPosts (opening reply : PostId) : RecordFile PostRecord where
  records := [threadRecord opening opening, threadRecord reply opening]
  rlen := 168
  rlen_pos := postSize_pos
  rlen_le := postSize_le
  count_lt := count_lt_of_pair _ _

/-- The jump does nothing for an unread reply to a read post, and nothing for an unread thread
at the beginning of a board. -/
theorem twoPosts_not_jumps :
    ¬Jumps (.fresh .empty) ⟨.normal, twoPosts 1 10485760000, 0, 0⟩ (infoOf (threadRecord 1 1)) ∧
      ¬Jumps (.fresh .empty) ⟨.normal, twoPosts 10485760000 10485760001, 0, 1⟩
        (infoOf (threadRecord 10485760000 10485760000)) := by
  constructor
  · rintro ⟨after, opened, returned, ⟨index, record, -, -, found⟩ | ⟨isRead, -⟩⟩
    · obtain ⟨-, rfl⟩ := Prod.mk.inj (Option.some.inj returned)
      cases found
    · exact isRead 1 (threadRecord 10485760000 1) (by decide)
  · rintro ⟨after, opened, returned, ⟨index, record, -, -, found⟩ | ⟨isRead, -⟩⟩
    · obtain ⟨-, rfl⟩ := Prod.mk.inj (Option.some.inj returned)
      cases found
    · exact isRead 0 (threadRecord 10485760000 10485760000) (by decide)

end UnreadJump

end Fbbs
