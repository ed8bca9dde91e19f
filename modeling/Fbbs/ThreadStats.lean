import Fbbs.PostRecordPages
import Fbbs.RecordMerge
import Fbbs.SortedSearch

/-!
# Statistics of the threads of a board

`prepare_threads` of `fcgi/toc.c` scans the record file of a board and keeps an entry for each
thread in an array that it searches by halves.  A thread gets its entry with the record of its
opening post, so the array is sorted by thread as long as the ids of the file ascend.
-/

namespace Fbbs

namespace ThreadStats

open CallbackScan PostRecordPages RecordCache RecordMerge RecordScan SortedSearch

/-- `post_thread_info_t`. -/
structure PostThreadInfo where
  threadId : PostId
  lastPostId : PostId
  flag : Int32
  replies : Nat
  userId : UserId
  userName : CharArray (idLen + 1)
  lastUserName : CharArray (idLen + 1)
  utf8Title : CharArray titleSize
  deriving DecidableEq

/-- `update_thread_stat_t`; `size` is the length of the list. -/
structure UpdateThreadStat where
  pti : List PostThreadInfo
  capacity : Nat

def cmp (tid : PostId) (pti : PostThreadInfo) : Int :=
  if tid > pti.threadId then 1 else if tid = pti.threadId then 0 else -1

/-- `strlcpy` into `user_name` or `last_user_name`. -/
def copyName (name : CharArray (idLen + 1)) : CharArray (idLen + 1) :=
  Message.getCharArray (idLen + 1) (Nat.succ_pos _) name.str

/-- A new entry; what is not set is set behind it in the same call. -/
def newEntry (pr : PostRecord) : PostThreadInfo where
  threadId := pr.threadId
  lastPostId := pr.id
  flag := pr.flag
  replies := 0
  userId := pr.userId
  userName := copyName pr.userName
  lastUserName := ⟨.empty, Nat.succ_pos _⟩
  utf8Title := Message.getCharArray titleSize titleSize_pos pr.utf8Title.str

/-- The record is the last of its thread so far. -/
def countPost (pr : PostRecord) (pti : PostThreadInfo) : PostThreadInfo :=
  { pti with
    lastPostId := pr.id
    replies := pti.replies + 1
    lastUserName := copyName pr.userName }

def updateThreadStat (uts : UpdateThreadStat) (entry : PostRecord × Nat) :
    Reply × UpdateThreadStat :=
  let pr := entry.1
  let found := bsearch (cmp pr.threadId) uts.pti
  if found = none ∧ (∀ last ∈ uts.pti.getLast?, pr.threadId > last.threadId) ∧
      uts.pti.length < uts.capacity ∧ pr.id = pr.threadId then
    (.found, { uts with pti := uts.pti ++ [countPost pr (newEntry pr)] })
  else
    match found with
    | some i => (.found, { uts with pti := uts.pti.modify i (countPost pr) })
    | none => (.found, uts)

def threadCompare (pti1 pti2 : PostThreadInfo) : Int :=
  if pti1.lastPostId > pti2.lastPostId then 1
  else if pti1.lastPostId = pti2.lastPostId then 0
  else -1

/-- `prepare_threads` for a file that can be opened: the result and the array, where memory for
it is allocated. -/
def prepareThreads (qsort : List PostThreadInfo → List PostThreadInfo)
    (record : RecordFile PostRecord) : Option (Int × List PostThreadInfo) :=
  let posts := recordCount record
  if posts > 0 then
    (recordForeach updateThreadStat postRecordCmp none 0 ⟨[], posts.toNat⟩ record).map
      fun scan => (scan.state.pti.length, qsort scan.state.pti)
  else some (-1, [])

/-! ## What the statistics should be -/

/-- The record is the opening post of its thread. -/
def isOpening (pr : PostRecord) : Bool :=
  pr.id == pr.threadId

def threadPosts (tid : PostId) (records : List PostRecord) : List PostRecord :=
  records.filter (·.threadId == tid)

/-- The ids ascend, and no post is older than its thread. -/
structure Ascending (records : List PostRecord) : Prop where
  ids : records.Pairwise (·.id < ·.id)
  threads : ∀ pr ∈ records, pr.threadId ≤ pr.id

/-- The entry of a thread. -/
structure Describes (records : List PostRecord) (pti : PostThreadInfo) : Prop where
  replies : pti.replies = (threadPosts pti.threadId records).length
  last : ∃ pr ∈ threadPosts pti.threadId records,
    (∀ other ∈ threadPosts pti.threadId records, other.id ≤ pr.id) ∧
      pti.lastPostId = pr.id ∧ pti.lastUserName = pr.userName

structure Statistics (records : List PostRecord) (entries : List PostThreadInfo) : Prop where
  once : (entries.map (·.threadId)).Nodup
  threads : ∀ tid, tid ∈ entries.map (·.threadId) ↔
    ∃ pr ∈ records, isOpening pr = true ∧ pr.threadId = tid
  describes : ∀ pti ∈ entries, Describes records pti
  sorted : entries.Pairwise (·.lastPostId ≤ ·.lastPostId)

/-- The entry of the thread of an opening post. -/
def statOf (records : List PostRecord) (opening : PostRecord) : PostThreadInfo :=
  let last := (threadPosts opening.threadId records).getLast?.getD opening
  { newEntry opening with
    lastPostId := last.id
    replies := (threadPosts opening.threadId records).length
    lastUserName := copyName last.userName }

/-- The entries after a scan of some records. -/
def threadStats (records : List PostRecord) : List PostThreadInfo :=
  (records.filter isOpening).map (statOf records)

section Scan

variable {seen : List PostRecord} {pr : PostRecord} {capacity : Nat}

theorem copyName_eq (name : CharArray (idLen + 1)) : copyName name = name :=
  Message.getCharArray_str _ name

theorem isOpening_iff {pr : PostRecord} : isOpening pr = true ↔ pr.id = pr.threadId :=
  beq_iff_eq

theorem threadPosts_append (tid : PostId) (seen : List PostRecord) (pr : PostRecord) :
    threadPosts tid (seen ++ [pr]) =
      if pr.threadId = tid then threadPosts tid seen ++ [pr] else threadPosts tid seen := by
  rw [threadPosts, List.filter_append]
  by_cases same : pr.threadId = tid
  · rw [if_pos same, threadPosts]
    simp [same]
  · rw [if_neg same, threadPosts]
    simp [same]

theorem Ascending.before (ascending : Ascending (seen ++ [pr])) : Ascending seen where
  ids := (List.pairwise_append.mp ascending.ids).1
  threads := fun other member => ascending.threads other (List.mem_append_left _ member)

theorem Ascending.lt (ascending : Ascending (seen ++ [pr])) {other : PostRecord}
    (member : other ∈ seen) : other.id < pr.id :=
  (List.pairwise_append.mp ascending.ids).2.2 other member pr List.mem_cons_self

theorem statOf_append_of_ne {opening : PostRecord} (other : pr.threadId ≠ opening.threadId) :
    statOf (seen ++ [pr]) opening = statOf seen opening := by
  rw [statOf, statOf, threadPosts_append, if_neg other]

/-- Another post of the thread. -/
theorem statOf_append_of_eq {opening : PostRecord} (same : pr.threadId = opening.threadId) :
    statOf (seen ++ [pr]) opening = countPost pr (statOf seen opening) := by
  rw [statOf, statOf, threadPosts_append, if_pos same, List.getLast?_concat, Option.getD_some,
    List.length_append]
  rfl

theorem cmp_eq_zero_iff {tid : PostId} {pti : PostThreadInfo} :
    cmp tid pti = 0 ↔ tid = pti.threadId := by
  by_cases same : tid = pti.threadId
  · rw [cmp, if_neg (same ▸ Int64.lt_irrefl : ¬pti.threadId < tid), if_pos same]
    exact iff_of_true rfl same
  · rw [cmp, if_neg same]
    apply iff_of_false _ same
    split <;> decide

theorem sorted_threadStats (ascending : Ascending seen) (tid : PostId) :
    SortedSearch.Sorted (cmp tid) (threadStats seen) := by
  rw [SortedSearch.Sorted, threadStats, List.pairwise_map, List.pairwise_filter]
  apply ascending.ids.imp
  intro first second lower isFirst isSecond notBehind
  rw [isOpening_iff] at isFirst isSecond
  have notLarger : ¬tid > first.threadId := by
    intro larger
    rw [cmp, if_pos (show tid > (statOf seen first).threadId from larger)] at notBehind
    exact absurd notBehind (by decide)
  rw [isFirst, isSecond] at lower
  have smaller : tid < second.threadId :=
    Int64.lt_of_le_of_lt (Int64.not_lt.mp notLarger) lower
  rw [cmp, if_neg (show ¬tid > (statOf seen second).threadId from Int64.lt_asymm smaller),
    if_neg (show tid ≠ (statOf seen second).threadId from Int64.ne_of_lt smaller)]
  decide

/-- An entry is found exactly if its thread is the one that is sought. -/
theorem bsearch_threadStats (ascending : Ascending seen) (tid : PostId) (i : Nat) :
    bsearch (cmp tid) (threadStats seen) = some i ↔
      ∃ opening, (seen.filter isOpening)[i]? = some opening ∧ tid = opening.threadId := by
  rw [bsearch_eq_some_iff (sorted_threadStats ascending tid), threadStats, List.getElem?_map]
  constructor
  · rintro ⟨pti, here, equal⟩
    obtain ⟨opening, found, rfl⟩ := Option.map_eq_some_iff.mp here
    exact ⟨opening, found, cmp_eq_zero_iff.mp equal⟩
  · rintro ⟨opening, found, same⟩
    exact ⟨statOf seen opening, by rw [found]; rfl, cmp_eq_zero_iff.mpr same⟩

theorem lt_of_mem_threadStats (ascending : Ascending (seen ++ [pr])) (opens : pr.id = pr.threadId)
    {pti : PostThreadInfo} (member : pti ∈ threadStats seen) : pti.threadId < pr.threadId := by
  obtain ⟨opening, isMember, rfl⟩ := List.mem_map.mp member
  obtain ⟨inFile, isFirst⟩ := List.mem_filter.mp isMember
  have lower := ascending.lt inFile
  rw [isOpening_iff.mp isFirst, opens] at lower
  exact lower

/-- The opening post of a thread comes with its entry. -/
theorem updateThreadStat_opening (ascending : Ascending (seen ++ [pr]))
    (room : seen.length < capacity) (opens : pr.id = pr.threadId) (offset : Nat) :
    updateThreadStat ⟨threadStats seen, capacity⟩ (pr, offset) =
      (.found, ⟨threadStats (seen ++ [pr]), capacity⟩) := by
  have missing : bsearch (cmp pr.threadId) (threadStats seen) = none := by
    rw [bsearch_eq_none_iff (sorted_threadStats ascending.before _)]
    intro pti member equal
    have lower := lt_of_mem_threadStats ascending opens member
    rw [cmp_eq_zero_iff.mp equal] at lower
    exact Int64.lt_irrefl lower
  have last : ∀ last ∈ (threadStats seen).getLast?, pr.threadId > last.threadId :=
    fun last isLast => lt_of_mem_threadStats ascending opens (List.mem_of_getLast? isLast)
  have space : (threadStats seen).length < capacity := by
    rw [threadStats, List.length_map]
    exact Nat.lt_of_le_of_lt (List.length_filter_le _ _) room
  have fresh : threadPosts pr.threadId seen = [] := by
    apply List.filter_eq_nil_iff.mpr
    intro other member same
    have lower := ascending.lt member
    have older := ascending.before.threads other member
    rw [beq_iff_eq.mp same, ← opens] at older
    exact Int64.lt_irrefl (Int64.lt_of_lt_of_le lower older)
  have others : (seen.filter isOpening).map (statOf (seen ++ [pr])) = threadStats seen := by
    apply List.map_congr_left
    intro opening member
    apply statOf_append_of_ne
    have lower := lt_of_mem_threadStats ascending opens (List.mem_map_of_mem member)
    exact (Int64.ne_of_lt lower).symm
  have entry : statOf (seen ++ [pr]) pr = countPost pr (newEntry pr) := by
    rw [statOf_append_of_eq rfl, statOf, fresh]
    rfl
  have entries : threadStats (seen ++ [pr]) =
      threadStats seen ++ [countPost pr (newEntry pr)] := by
    rw [threadStats, List.filter_append, List.filter_cons_of_pos (isOpening_iff.mpr opens),
      List.map_append, others, List.filter_nil, List.map_singleton, entry]
  rw [updateThreadStat, if_pos ⟨missing, last, space, opens⟩, entries]

/-- Another post goes to the entry of its thread, if there is one. -/
theorem updateThreadStat_reply (ascending : Ascending (seen ++ [pr]))
    (replies : pr.id ≠ pr.threadId) (offset : Nat) :
    ∃ reply, reply ≠ .stop ∧ updateThreadStat ⟨threadStats seen, capacity⟩ (pr, offset) =
      (reply, ⟨threadStats (seen ++ [pr]), capacity⟩) := by
  have entries : threadStats (seen ++ [pr]) =
      (seen.filter isOpening).map (statOf (seen ++ [pr])) := by
    have notOpening : ¬isOpening pr = true := fun opens => replies (isOpening_iff.mp opens)
    rw [threadStats, List.filter_append, List.filter_cons_of_neg notOpening, List.filter_nil,
      List.append_nil]
  have search := bsearch_threadStats ascending.before pr.threadId
  rw [updateThreadStat, if_neg fun opens => replies opens.2.2.2]
  cases found : bsearch (cmp pr.threadId) (threadStats seen) with
  | none =>
    refine ⟨.found, by decide, ?_⟩
    have others : (seen.filter isOpening).map (statOf (seen ++ [pr])) = threadStats seen := by
      apply List.map_congr_left
      intro opening member
      apply statOf_append_of_ne
      intro same
      obtain ⟨i, here⟩ := List.mem_iff_getElem?.mp member
      have sought := (search i).mpr ⟨opening, here, same⟩
      rw [found] at sought
      cases sought
    rw [entries, others]
  | some i =>
    refine ⟨.found, by decide, ?_⟩
    obtain ⟨opening, here, same⟩ := (search i).mp found
    have modified : (threadStats seen).modify i (countPost pr) =
        (seen.filter isOpening).map (statOf (seen ++ [pr])) := by
      apply List.ext_getElem?
      intro j
      rw [List.getElem?_modify, threadStats, List.getElem?_map, List.getElem?_map]
      cases other : (seen.filter isOpening)[j]? with
      | none => rfl
      | some opening' =>
        by_cases index : i = j
        · rw [← index, here] at other
          obtain rfl := Option.some.inj other
          simp only [if_pos index, Option.map_some, Option.map_eq_map,
            statOf_append_of_eq same]
        · have different : pr.threadId ≠ opening'.threadId := by
            intro alsoSame
            have sought := (search j).mpr ⟨opening', other, alsoSame⟩
            rw [found] at sought
            exact index (Option.some.inj sought)
          simp only [if_neg index, Option.map_some, Option.map_eq_map,
            statOf_append_of_ne different]
    rw [entries, ← modified]

end Scan

/-- A scan of the rest of a file. -/
theorem run_updateThreadStat {seen rest : List PostRecord} {capacity offset : Nat}
    (ascending : Ascending (seen ++ rest)) (room : (seen ++ rest).length ≤ capacity) :
    run updateThreadStat ⟨threadStats seen, capacity⟩ (rest.zipIdx offset) =
      ⟨threadStats (seen ++ rest), capacity⟩ := by
  induction rest generalizing seen offset with
  | nil => rw [List.zipIdx_nil, run, List.append_nil]
  | cons pr rest ih =>
    rw [List.append_cons] at ascending room ⊢
    have next : Ascending (seen ++ [pr]) :=
      ⟨(List.pairwise_append.mp ascending.ids).1,
        fun other member => ascending.threads other (List.mem_append_left rest member)⟩
    have space : seen.length < capacity := by
      rw [List.length_append, List.length_append, List.length_singleton] at room
      omega
    obtain ⟨reply, goesOn, step⟩ : ∃ reply, reply ≠ .stop ∧
        updateThreadStat ⟨threadStats seen, capacity⟩ (pr, offset) =
          (reply, ⟨threadStats (seen ++ [pr]), capacity⟩) := by
      by_cases opens : pr.id = pr.threadId
      · exact ⟨.found, by decide, updateThreadStat_opening next space opens offset⟩
      · exact updateThreadStat_reply next opens offset
    rw [List.zipIdx_cons, run, step]
    cases reply with
    | stop => exact absurd rfl goesOn
    | found => exact ih ascending room
    | next => exact ih ascending room

section Statistics

variable {records : List PostRecord}

theorem prepareThreads_eq (qsort : List PostThreadInfo → List PostThreadInfo)
    {record : RecordFile PostRecord} (ascending : Ascending record.records) :
    prepareThreads qsort record =
      if record.records = [] then some (-1, [])
      else some (((threadStats record.records).length : Int),
        qsort (threadStats record.records)) := by
  rw [prepareThreads, recordCount]
  by_cases empty : record.records = []
  · rw [if_pos empty, empty]
    rfl
  · have some := List.length_pos_iff.mpr empty
    rw [if_neg empty, if_pos (Int.natCast_pos.mpr some),
      recordForeach_at _ _ (fun other member => absurd member (Option.not_mem_none other)),
      Nat.zero_mul, if_pos (by decide), Option.map_some, Int.toNat_natCast, state_visitAll_start]
    have scan := @run_updateThreadStat [] record.records record.records.length 0 ascending
      (Nat.le_refl _)
    have entries : record.entriesFrom 0 = record.records.zipIdx 0 := rfl
    rw [List.nil_append] at scan
    change Option.some ((((run updateThreadStat ⟨threadStats [], record.records.length⟩
      (record.entriesFrom 0)).pti.length : Nat) : Int), qsort (run updateThreadStat
        ⟨threadStats [], record.records.length⟩ (record.entriesFrom 0)).pti) = _
    rw [entries, scan]

theorem describes_statOf (ascending : Ascending records) {opening : PostRecord}
    (member : opening ∈ records) : Describes records (statOf records opening) := by
  have inThread : opening ∈ threadPosts opening.threadId records :=
    List.mem_filter.mpr ⟨member, beq_iff_eq.mpr rfl⟩
  obtain ⟨before, last, posts⟩ :=
    List.eq_nil_or_concat' (threadPosts opening.threadId records) |>.resolve_left
      (List.ne_nil_of_mem inThread)
  have isLast : (threadPosts opening.threadId records).getLast?.getD opening = last := by
    rw [posts, List.getLast?_concat, Option.getD_some]
  refine ⟨rfl, last, ?_, ?_, ?_, ?_⟩
  · change last ∈ threadPosts opening.threadId records
    rw [posts]
    exact List.mem_append_right _ List.mem_cons_self
  · intro other
    change other ∈ threadPosts opening.threadId records → _
    have ascends : (threadPosts opening.threadId records).Pairwise (·.id < ·.id) :=
      ascending.ids.filter _
    rw [posts] at ascends ⊢
    intro isMember
    rcases List.mem_append.mp isMember with earlier | same
    · exact Int64.le_of_lt ((List.pairwise_append.mp ascends).2.2 other earlier last
        List.mem_cons_self)
    · rw [List.mem_singleton.mp same]
      exact Int64.le_refl _
  · rw [← isLast]
    rfl
  · rw [← isLast]
    exact copyName_eq _

theorem nodup_threadStats (ascending : Ascending records) :
    ((threadStats records).map (·.threadId)).Nodup := by
  rw [threadStats, List.map_map, List.Nodup, List.pairwise_map, List.pairwise_filter]
  apply ascending.ids.imp
  intro first second lower isFirst isSecond same
  change first.threadId = second.threadId at same
  rw [isOpening_iff] at isFirst isSecond
  rw [isFirst, isSecond, same] at lower
  exact Int64.lt_irrefl lower

theorem mem_threads_iff (tid : PostId) :
    tid ∈ (threadStats records).map (·.threadId) ↔
      ∃ pr ∈ records, isOpening pr = true ∧ pr.threadId = tid := by
  rw [threadStats, List.map_map, List.mem_map]
  constructor
  · rintro ⟨pr, member, same⟩
    obtain ⟨inFile, opens⟩ := List.mem_filter.mp member
    exact ⟨pr, inFile, opens, same⟩
  · rintro ⟨pr, inFile, opens, same⟩
    exact ⟨pr, List.mem_filter.mpr ⟨inFile, opens⟩, same⟩

theorem threadCompare_le_zero {a b : PostThreadInfo} :
    threadCompare a b ≤ 0 ↔ a.lastPostId ≤ b.lastPostId := by
  rw [threadCompare, ← Int64.not_lt]
  by_cases larger : b.lastPostId < a.lastPostId
  · rw [if_pos larger]
    exact iff_of_false (by decide) (not_not_intro larger)
  · rw [if_neg larger]
    apply iff_of_true _ larger
    split <;> decide

/-- There is one entry for each thread whose opening post is in the file, with the number of
its posts and the id and the author of the last of them; the entries are sorted by the last
post.  Without records there is no array. -/
theorem prepareThreads_statistics {qsort : List PostThreadInfo → List PostThreadInfo}
    (sorts : Sorts threadCompare qsort) {record : RecordFile PostRecord}
    (ascending : Ascending record.records) :
    ∃ entries, prepareThreads qsort record =
        some (if record.records = [] then -1 else (entries.length : Int), entries) ∧
      Statistics record.records entries := by
  obtain ⟨perm, sorted⟩ := sorts (threadStats record.records)
  have statistics : Statistics record.records (qsort (threadStats record.records)) := by
    refine ⟨?_, fun tid => ?_, fun pti member => ?_, ?_⟩
    · exact (perm.map _).nodup_iff.mpr (nodup_threadStats ascending)
    · rw [(perm.map _).mem_iff]
      exact mem_threads_iff tid
    · obtain ⟨opening, isMember, rfl⟩ := List.mem_map.mp (perm.mem_iff.mp member)
      exact describes_statOf ascending (List.mem_filter.mp isMember).1
    · exact sorted.imp threadCompare_le_zero.mp
  rw [prepareThreads_eq qsort ascending]
  by_cases empty : record.records = []
  · have none : qsort (threadStats record.records) = [] := by
      apply List.Perm.eq_nil
      rw [empty] at perm ⊢
      exact perm
    rw [none] at statistics
    exact ⟨[], by rw [if_pos empty, if_pos empty], statistics⟩
  · exact ⟨_, by rw [if_neg empty, if_neg empty, perm.length_eq], statistics⟩

end Statistics

/-- A board with two threads and an answer to a post that is no longer there. -/
def threeThreads : RecordFile PostRecord where
  records := [threadRecord 2 1, threadRecord 3 3, threadRecord 4 4, threadRecord 5 3]
  rlen := 168
  rlen_pos := postSize_pos
  rlen_le := postSize_le
  count_lt := by simp

theorem prepareThreads_threeThreads :
    ∃ entries, prepareThreads (List.insertionSort fun a b => threadCompare a b ≤ 0)
        threeThreads = some (2, entries) ∧
      entries.map (fun pti => (pti.threadId, pti.replies)) = [(4, 1), (3, 2)] ∧
      Statistics threeThreads.records entries := by
  have sorts : Sorts threadCompare (List.insertionSort fun a b => threadCompare a b ≤ 0) := by
    intro entries
    have total : Std.Total fun a b => threadCompare a b ≤ 0 := by
      constructor
      intro a b
      rw [threadCompare_le_zero, threadCompare_le_zero]
      exact Int64.le_total _ _
    have trans : IsTrans PostThreadInfo fun a b => threadCompare a b ≤ 0 := by
      constructor
      intro a b c
      rw [threadCompare_le_zero, threadCompare_le_zero, threadCompare_le_zero]
      exact Int64.le_trans
    exact ⟨List.perm_insertionSort _ entries, List.pairwise_insertionSort _ entries⟩
  have ascending : Ascending threeThreads.records :=
    ⟨by decide, by decide⟩
  obtain ⟨entries, prepared, statistics⟩ := prepareThreads_statistics sorts ascending
  have computed : entries.map (fun pti => (pti.threadId, pti.replies)) = [(4, 1), (3, 2)] := by
    rw [prepareThreads_eq _ ascending] at prepared
    obtain ⟨-, rfl⟩ := Prod.mk.inj (Option.some.inj prepared)
    decide
  have length : entries.length = 2 := by
    rw [← List.length_map (fun pti : PostThreadInfo => (pti.threadId, pti.replies)), computed]
    rfl
  refine ⟨entries, ?_, computed, statistics⟩
  rw [prepared, length]
  rfl

end ThreadStats

end Fbbs
