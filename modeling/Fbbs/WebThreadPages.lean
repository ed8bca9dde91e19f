import Fbbs.ThreadStats
import Fbbs.WebPostSearch

/-!
# Moving from page to page in a thread

`search_topic` of `fcgi/post.c` finds, with a scan from the last record, where a page begins
and to which thread it belongs, and collects the posts of the page with a second scan.  Only
for the previous page, the first scan collects them itself.
-/

namespace Fbbs

namespace WebThreadPages

open CallbackScan PostRecordPages RecordCache RecordScan ThreadStats WebPostSearch

/-- `NOT_THREAD_LAST`. -/
def notThreadLast : Int32 := 256

/-- The actions; `page` stands for all characters that are none of the others. -/
inductive PageAction
  | page
  | prevPage
  | nextPage
  | older
  | newer
  deriving DecidableEq

/-- `search_topic_callback_t`: `prs` are the posts that have been collected, and `saved` is what
`save_offset` has written to the front of the memory for them. -/
structure SearchTopicCallback where
  action : PageAction
  flags : Int32
  pid : PostId
  tid : PostId
  offset : Int
  saved : PostRecord
  prs : List PostRecord
  capacity : Nat

def saveOffset (pr : PostRecord) (stc : SearchTopicCallback) (offset : Nat) :
    SearchTopicCallback :=
  { stc with offset := offset, saved := pr }

/-- `!pr->id == pr->thread_id`. -/
def notIdIsThread (pr : PostRecord) : Bool :=
  (if pr.id = 0 then (1 : PostId) else 0) == pr.threadId

def searchTopicCallback (stc : SearchTopicCallback) (entry : PostRecord × Nat) :
    Reply × SearchTopicCallback :=
  let pr := entry.1
  match stc.action with
  | .prevPage =>
    if stc.prs.length ≥ stc.capacity ∨ pr.id < stc.tid then (.stop, stc)
    else if pr.id < stc.pid ∧ pr.threadId = stc.tid then
      (.next, { stc with prs := stc.prs ++ [pr] })
    else (.next, stc)
  | .older =>
    if pr.id < stc.tid ∧ notIdIsThread pr then
      (.stop, { saveOffset pr stc entry.2 with tid := pr.id, pid := pr.id })
    else (.next, stc)
  | .newer =>
    if pr.id ≤ stc.tid then (.stop, stc)
    else if pr.id = pr.threadId then
      (.next, { saveOffset pr stc entry.2 with tid := pr.id, pid := pr.id })
    else (.next, stc)
  | .nextPage =>
    if pr.id ≤ stc.pid then (.stop, stc)
    else if pr.threadId = stc.tid then (.next, saveOffset pr stc entry.2)
    else (.next, stc)
  | .page =>
    if pr.id ≤ stc.pid then
      (.stop, if pr.id = stc.pid then saveOffset pr stc entry.2 else stc)
    else (.next, stc)

def searchTopicPosts (stc : SearchTopicCallback) (entry : PostRecord × Nat) :
    Reply × SearchTopicCallback :=
  let pr := entry.1
  let stc :=
    if pr.threadId = stc.tid ∧ pr.id ≥ stc.pid then
      if stc.prs.length < stc.capacity then { stc with prs := stc.prs ++ [pr] }
      else { stc with flags := stc.flags ||| notThreadLastPost }
    else stc
  (.next,
    if pr.id = pr.threadId ∧ pr.id ≥ stc.tid then
      { stc with flags := stc.flags ||| notThreadLast }
    else stc)

/-- The state in front of the first scan. -/
def topicStart (pid tid : PostId) (action : PageAction) (count : Nat) : SearchTopicCallback where
  action := action
  flags := 0
  pid := pid
  tid := tid
  offset := -1
  saved := blankRecord
  prs := []
  capacity := count

/-- The second scan, if there is one. -/
def collect (record : RecordFile PostRecord) (stc : SearchTopicCallback) :
    Option SearchTopicCallback :=
  if stc.action ≠ .prevPage ∧ stc.offset ≥ 0 then
    (recordForeach searchTopicPosts postRecordCmp (some stc.saved) stc.offset.toNat stc record).map
      Scan.state
  else some stc

/-- What `search_topic` returns and stores. -/
structure TopicPage where
  prs : List PostRecord
  tid : PostId
  flags : Int32

/-- `search_topic` in a board whose file can be opened and with enough memory; a null pointer is
`some none`.  The result is `none` if a position overflows. -/
def searchTopic (record : RecordFile PostRecord) (pid tid : PostId) (action : PageAction)
    (count : Nat) : Option (Option TopicPage) :=
  ((recordReverseForeach searchTopicCallback (topicStart pid tid action count) record).bind
    fun scan => collect record scan.state).map fun stc =>
      if stc.prs = [] then none else some ⟨stc.prs, stc.tid, stc.flags⟩

/-! ## What a page should hold -/

/-- The first posts of the thread that an opening post belongs to. -/
def pageOf (records : List PostRecord) (count : Nat) : Option PostRecord → List PostRecord
  | none => []
  | some opening => (threadPosts opening.threadId records).take count

/-- The page that an action asks for. -/
def wantedPage (records : List PostRecord) (pid tid : PostId) (count : Nat) :
    PageAction → List PostRecord
  | .page => ((threadPosts tid records).filter fun pr => pid ≤ pr.id).take count
  | .nextPage => ((threadPosts tid records).filter fun pr => pid < pr.id).take count
  | .prevPage => ((threadPosts tid records).filter fun pr => pr.id < pid).reverse.take count
  | .older =>
    pageOf records count (records.filter fun pr => isOpening pr && pr.id < tid).getLast?
  | .newer =>
    pageOf records count (records.filter fun pr => isOpening pr && tid < pr.id).head?

/-- The page is found, and there is none exactly if nothing is returned. -/
def FindsPage (record : RecordFile PostRecord) (pid tid : PostId) (count : Nat)
    (action : PageAction) : Prop :=
  let wanted := wantedPage record.records pid tid count action
  (searchTopic record pid tid action count).map (Option.map TopicPage.prs) =
    some (if wanted = [] then none else some wanted)

section Collect

variable {record : RecordFile PostRecord} {pid tid : PostId} {count : Nat} {action : PageAction}

/-- The post is of the thread, and not in front of the page. -/
def onPage (stc : SearchTopicCallback) (pr : PostRecord) : Bool :=
  pr.threadId = stc.tid ∧ pr.id ≥ stc.pid

/-- What a call of the second scan changes, apart from the flags. -/
theorem searchTopicPosts_fields (stc : SearchTopicCallback) (entry : PostRecord × Nat) :
    (searchTopicPosts stc entry).2.tid = stc.tid ∧
      (searchTopicPosts stc entry).2.pid = stc.pid ∧
      (searchTopicPosts stc entry).2.capacity = stc.capacity ∧
      (searchTopicPosts stc entry).2.prs =
        if entry.1.threadId = stc.tid ∧ entry.1.id ≥ stc.pid then
          if stc.prs.length < stc.capacity then stc.prs ++ [entry.1] else stc.prs
        else stc.prs := by
  unfold searchTopicPosts
  by_cases here : entry.1.threadId = stc.tid ∧ entry.1.id ≥ stc.pid
  · by_cases more : stc.prs.length < stc.capacity
    · simp only [if_pos here, if_pos more]
      split <;> exact ⟨rfl, rfl, rfl, rfl⟩
    · simp only [if_pos here, if_neg more]
      split <;> exact ⟨rfl, rfl, rfl, rfl⟩
  · simp only [if_neg here]
    split <;> exact ⟨rfl, rfl, rfl, rfl⟩

/-- The second scan collects posts as long as there is room. -/
theorem prs_run_searchTopicPosts {stc : SearchTopicCallback} (entries : List (PostRecord × Nat))
    (room : stc.prs.length ≤ stc.capacity) :
    (run searchTopicPosts stc entries).prs =
      (stc.prs ++ (entries.map Prod.fst).filter (onPage stc)).take stc.capacity := by
  induction entries generalizing stc with
  | nil =>
    rw [List.map_nil, List.filter_nil, List.append_nil, List.take_of_length_le room]
    rfl
  | cons entry entries ih =>
    have goesOn : run searchTopicPosts stc (entry :: entries) =
        run searchTopicPosts (searchTopicPosts stc entry).2 entries := rfl
    obtain ⟨tid, pid, capacity, prs⟩ := searchTopicPosts_fields stc entry
    generalize (searchTopicPosts stc entry).2 = next at goesOn tid pid capacity prs
    have sameTest : onPage next = onPage stc := by
      funext pr
      rw [onPage, onPage, tid, pid]
    rw [goesOn, List.map_cons, List.filter_cons]
    by_cases here : entry.1.threadId = stc.tid ∧ entry.1.id ≥ stc.pid
    · have test : onPage stc entry.1 = true := decide_eq_true here
      rw [if_pos here] at prs
      rw [if_pos test]
      by_cases more : stc.prs.length < stc.capacity
      · rw [if_pos more] at prs
        rw [ih (by rw [prs, capacity, List.length_append]; exact more), prs, capacity, sameTest,
          List.append_assoc]
        rfl
      · have full : stc.prs.length = stc.capacity := by omega
        rw [if_neg more] at prs
        rw [ih (by rw [prs, capacity]; exact room), prs, capacity, ← full, List.take_left,
          List.take_left]
    · have test : ¬onPage stc entry.1 = true := fun isOn => here (of_decide_eq_true isOn)
      rw [if_neg here] at prs
      rw [if_neg test, ih (by rw [prs, capacity]; exact room), prs, capacity, sameTest]

/-- The records from an index on, if those in front of it do not count. -/
theorem filter_drop {records : List PostRecord} {i : Nat} (test : PostRecord → Bool)
    (none : ∀ j < i, j < records.length → test (postAt records j) = false) :
    (records.drop i).filter test = records.filter test := by
  have front : (records.take i).filter test = [] := by
    rw [List.filter_eq_nil_iff]
    intro pr member
    obtain ⟨j, inside, rfl⟩ := List.mem_take_iff_getElem.mp member
    have isPost : postAt records j = records[j] :=
      postAt_of_getElem? (List.getElem?_eq_getElem (by omega))
    rw [← isPost, none j (by omega) (by omega)]
    exact Bool.false_ne_true
  conv_rhs => rw [← List.take_append_drop i records]
  rw [List.filter_append, front, List.nil_append]

/-- What is left after the first scan. -/
def firstPage (record : RecordFile PostRecord) (pid tid : PostId) (action : PageAction)
    (count : Nat) : SearchTopicCallback :=
  run searchTopicCallback (topicStart pid tid action count) record.reverseEntries

theorem searchTopic_eq (record : RecordFile PostRecord) (pid tid : PostId) (action : PageAction)
    (count : Nat) :
    searchTopic record pid tid action count =
      if ScanFits record then
        (collect record (firstPage record pid tid action count)).map fun stc =>
          if stc.prs = [] then none else some ⟨stc.prs, stc.tid, stc.flags⟩
      else none := by
  rw [searchTopic, recordReverseForeach_eq]
  change Option.map _ (Option.bind (if ScanFits record then _ else none) _) = _
  by_cases scanFits : ScanFits record
  · rw [if_pos scanFits, if_pos scanFits, Option.bind_some, state_visitAll_start]
    rfl
  · rw [if_neg scanFits, if_neg scanFits]
    rfl

theorem scanFits_of_findsPage (finds : FindsPage record pid tid count action) :
    ScanFits record := by
  by_contra overflow
  unfold FindsPage at finds
  rw [searchTopic_eq, if_neg overflow] at finds
  cases finds

/-- The posts that have been collected decide. -/
theorem findsPage_iff_of_collected {stc : SearchTopicCallback}
    (collected : collect record (firstPage record pid tid action count) = some stc) :
    FindsPage record pid tid count action ↔
      ScanFits record ∧ stc.prs = wantedPage record.records pid tid count action := by
  by_cases scanFits : ScanFits record
  · unfold FindsPage
    rw [searchTopic_eq, if_pos scanFits, collected, and_iff_right scanFits]
    generalize wantedPage record.records pid tid count action = wanted
    rw [Option.map_some, Option.map_some, Option.some.injEq]
    by_cases empty : stc.prs = []
    · rw [if_pos empty, empty]
      by_cases nothing : wanted = []
      · rw [if_pos nothing, nothing]
        exact iff_of_true rfl rfl
      · rw [if_neg nothing]
        exact iff_of_false (Option.some_ne_none wanted).symm fun same => nothing same.symm
    · rw [if_neg empty, Option.map_some]
      by_cases nothing : wanted = []
      · rw [if_pos nothing]
        exact iff_of_false (Option.some_ne_none stc.prs) fun same => empty (same.trans nothing)
      · rw [if_neg nothing, Option.some.injEq]
  · exact iff_of_false (fun finds => scanFits (scanFits_of_findsPage finds))
      fun right => scanFits right.1

/-- The second scan begins where the first one has found the page. -/
theorem findsPage_iff_of_saved {stc : SearchTopicCallback} {t : Nat}
    (here : t < record.records.length) (notPrev : action ≠ .prevPage)
    (scan : firstPage record pid tid action count =
      saveOffset (postAt record.records t) stc t)
    (isAction : stc.action = action) (empty : stc.prs = []) (capacity : stc.capacity = count) :
    FindsPage record pid tid count action ↔ ScanFits record ∧ t * record.rlen < 2 ^ 31 ∧
      ((record.records.drop t).filter (onPage stc)).take count =
        wantedPage record.records pid tid count action := by
  have second : collect record (firstPage record pid tid action count) =
      if t * record.rlen < 2 ^ 31 then
        some (run searchTopicPosts (saveOffset (postAt record.records t) stc t)
          (record.entriesFrom t))
      else none := by
    rw [scan, collect, if_pos ⟨by rw [← isAction] at notPrev; exact notPrev, Int.natCast_nonneg t⟩]
    simp only [saveOffset, Int.toNat_natCast]
    rw [recordForeach_at _ _ (postAt_keeps here)]
    split
    · rw [Option.map_some, state_visitAll_start]
    · rfl
  by_cases fits : t * record.rlen < 2 ^ 31
  · rw [if_pos fits] at second
    rw [findsPage_iff_of_collected second, and_iff_right fits, prs_run_searchTopicPosts]
    · change _ ∧ ((stc.prs ++ _).take stc.capacity = _) ↔ _
      rw [empty, capacity, List.nil_append, RecordFile.entriesFrom, List.zipIdx_map_fst]
      exact Iff.rfl
    · change stc.prs.length ≤ _
      rw [empty]
      exact Nat.zero_le _
  · refine iff_of_false (fun finds => ?_) fun right => fits right.2.1
    rw [if_neg fits] at second
    have scanFits := scanFits_of_findsPage finds
    unfold FindsPage at finds
    rw [searchTopic_eq, if_pos scanFits, second] at finds
    cases finds

/-- Nothing has been found by the first scan. -/
theorem findsPage_iff_of_unsaved
    (scan : firstPage record pid tid action count = topicStart pid tid action count) :
    FindsPage record pid tid count action ↔
      ScanFits record ∧ wantedPage record.records pid tid count action = [] := by
  have unsaved : ¬(topicStart pid tid action count).offset ≥ 0 := by
    change ¬(-1 : Int) ≥ 0
    decide
  have second : collect record (firstPage record pid tid action count) =
      some (topicStart pid tid action count) := by
    rw [scan, collect, if_neg fun both => unsaved both.2]
  rw [findsPage_iff_of_collected second]
  exact and_congr_right' eq_comm

end Collect

section Lists

variable {α : Type*} {test : α → Bool}

/-- A test that, once it fails, does not succeed again. -/
theorem takeWhile_eq_filter {items : List α}
    (once : items.Pairwise fun first second => test second = true → test first = true) :
    items.takeWhile test = items.filter test := by
  induction items with
  | nil => rfl
  | cons item items ih =>
    rw [List.pairwise_cons] at once
    rw [List.takeWhile_cons, List.filter_cons]
    by_cases here : test item = true
    · rw [if_pos here, if_pos here, ih once.2]
    · rw [if_neg here, if_neg here]
      symm
      rw [List.filter_eq_nil_iff]
      exact fun other member passes => here (once.1 other member passes)

/-- The first items are kept if they all pass, and only then. -/
theorem take_takeWhile_eq_iff {items : List α} {count : Nat} :
    (items.takeWhile test).take count = items.take count ↔
      ∀ item ∈ items.take count, test item = true := by
  induction items generalizing count with
  | nil => simp
  | cons item items ih =>
    cases count with
    | zero => simp
    | succ count =>
      rw [List.takeWhile_cons]
      by_cases here : test item = true
      · rw [if_pos here, List.take_succ_cons, List.take_succ_cons, List.cons_inj_right, ih,
          List.forall_mem_cons, and_iff_right here]
      · rw [if_neg here, List.take_succ_cons, List.take_nil, List.forall_mem_cons]
        exact iff_of_false (List.cons_ne_nil _ _).symm fun all => here all.1

/-- Something between two parts of a list does not matter if it is empty or comes too late. -/
theorem take_insert {first between second : List α} {count : Nat}
    (harmless : between = [] ∨ count ≤ first.length) :
    (first ++ (between ++ second)).take count = (first ++ second).take count := by
  rcases harmless with rfl | late
  · rfl
  · rw [List.take_append_of_le_length late, List.take_append_of_le_length late]

/-- Otherwise an item of it takes the place of one behind it. -/
theorem take_insert_ne {first between second third : List α} {count : Nat} {item : α}
    (early : first.length < count) (begins : between.head? = some item) (other : item ∉ third) :
    (first ++ (between ++ second)).take count ≠ (first ++ third).take count := by
  intro same
  have place := congrArg (·[first.length]?) same
  simp only [List.getElem?_take, if_pos early,
    List.getElem?_append_right (Nat.le_refl first.length), Nat.sub_self] at place
  rw [← List.head?_eq_getElem?, ← List.head?_eq_getElem?, List.head?_append, begins,
    Option.some_or] at place
  exact other (List.mem_of_head? place.symm)

end Lists

section Pages

variable {record : RecordFile PostRecord} {pid tid : PostId} {count : Nat}

theorem filter_onPage (records : List PostRecord) (stc : SearchTopicCallback) :
    records.filter (onPage stc) =
      (threadPosts stc.tid records).filter fun pr => stc.pid ≤ pr.id := by
  rw [threadPosts, List.filter_filter]
  refine List.filter_congr fun pr _ => ?_
  rw [onPage, Bool.decide_and, Bool.and_comm]
  rfl

theorem take_eq_nil_iff {records : List PostRecord} (positive : 0 < count) :
    records.take count = [] ↔ records = [] := by
  rw [List.take_eq_nil_iff, or_iff_right (Nat.ne_of_gt positive)]

theorem findsPage_page_iff (ascending : record.records.Pairwise (·.id < ·.id))
    (positive : 0 < count) :
    FindsPage record pid tid count .page ↔ ScanFits record ∧
      ((∃ i < record.records.length, (postAt record.records i).id = pid ∧
          i * record.rlen < 2 ^ 31) ∨
        (∀ i < record.records.length, (postAt record.records i).id ≠ pid) ∧
          ∀ pr ∈ threadPosts tid record.records, pr.id < pid) := by
  by_cases present : ∃ i < record.records.length, (postAt record.records i).id = pid
  · obtain ⟨i, inside, isPid⟩ := present
    obtain ⟨before, split, later⟩ := reverseEntries_at inside
    have scan : firstPage record pid tid .page count =
        saveOffset (postAt record.records i) (topicStart pid tid .page count) i := by
      rw [firstPage, split, run_append_of_skips]
      · have callback : searchTopicCallback (topicStart pid tid .page count)
            (postAt record.records i, i) =
            if (postAt record.records i).id ≤ pid then
              (.stop, if (postAt record.records i).id = pid then
                saveOffset (postAt record.records i) (topicStart pid tid .page count) i
                else topicStart pid tid .page count)
            else (.next, topicStart pid tid .page count) := rfl
        rw [run, callback, if_pos (Int64.le_of_eq isPid), if_pos isPid]
      · intro entry member
        obtain ⟨behind, inFile, isPost⟩ := later entry member
        have above := (lt_iff_id_lt ascending inside inFile).mpr behind
        rw [isPid, ← isPost] at above
        exact if_neg (Int64.not_le.mpr above)
    have whole : ((record.records.drop i).filter
        (onPage (topicStart pid tid .page count))).take count =
        wantedPage record.records pid tid count .page := by
      rw [filter_drop _ fun j less inFile => ?_, filter_onPage]
      · rfl
      · have below := (lt_iff_id_lt ascending inFile inside).mpr less
        rw [isPid] at below
        exact decide_eq_false fun both => Int64.not_le.mpr below both.2
    rw [findsPage_iff_of_saved inside (by decide) scan rfl rfl rfl]
    constructor
    · rintro ⟨scanFits, fits, -⟩
      exact ⟨scanFits, .inl ⟨i, inside, isPid, fits⟩⟩
    · rintro ⟨scanFits, ⟨other, inFile, alsoPid, fits⟩ | ⟨absent, -⟩⟩
      · obtain rfl := id_inj ascending inside inFile (isPid.trans alsoPid.symm)
        exact ⟨scanFits, fits, whole⟩
      · exact absurd isPid (absent i inside)
  · have absent : ∀ i < record.records.length, (postAt record.records i).id ≠ pid :=
      fun i inside isPid => present ⟨i, inside, isPid⟩
    have scan : firstPage record pid tid .page count = topicStart pid tid .page count := by
      refine run_of_unchanged fun entry member => ?_
      have found := mem_reverseEntries member
      have other := absent entry.2 (List.getElem?_eq_some_iff.mp found).1
      rw [postAt_of_getElem? found] at other
      have callback : searchTopicCallback (topicStart pid tid .page count) entry =
          if entry.1.id ≤ pid then
            (.stop, if entry.1.id = pid then
              saveOffset entry.1 (topicStart pid tid .page count) entry.2
              else topicStart pid tid .page count)
          else (.next, topicStart pid tid .page count) := rfl
      rw [callback, if_neg other]
      split <;> rfl
    rw [findsPage_iff_of_unsaved scan]
    change _ ∧ List.take count _ = [] ↔ _
    rw [take_eq_nil_iff positive, List.filter_eq_nil_iff]
    apply and_congr_right'
    constructor
    · exact fun nothing => .inr ⟨absent, fun pr member =>
        Int64.not_le.mp fun above => nothing pr member (decide_eq_true above)⟩
    · rintro (⟨i, inside, isPid, -⟩ | ⟨-, below⟩) pr member
      · exact absurd isPid (absent i inside)
      · rw [decide_eq_true_eq]
        exact Int64.not_le.mpr (below pr member)

/-- The first post of the thread behind another post. -/
def FirstBehind (records : List PostRecord) (pid tid : PostId) (m : Nat) : Prop :=
  m < records.length ∧ (postAt records m).threadId = tid ∧ pid < (postAt records m).id ∧
    ∀ j < m, (postAt records j).threadId = tid → ¬pid < (postAt records j).id

theorem searchTopicCallback_nextPage {stc : SearchTopicCallback} (action : stc.action = .nextPage)
    (entry : PostRecord × Nat) :
    searchTopicCallback stc entry =
      if entry.1.id ≤ stc.pid then (.stop, stc)
      else if entry.1.threadId = stc.tid then (.next, saveOffset entry.1 stc entry.2)
      else (.next, stc) := by
  unfold searchTopicCallback
  rw [action]

/-- The states that the scan for the next page goes through. -/
structure Saves (pid tid : PostId) (count : Nat) (stc : SearchTopicCallback) : Prop where
  action : stc.action = .nextPage
  isPid : stc.pid = pid
  isTid : stc.tid = tid
  same : ∀ pr offset, saveOffset pr stc offset =
    saveOffset pr (topicStart pid tid .nextPage count) offset

theorem saves_saveOffset {stc : SearchTopicCallback} (saves : Saves pid tid count stc)
    (pr : PostRecord) (offset : Nat) : Saves pid tid count (saveOffset pr stc offset) :=
  ⟨saves.action, saves.isPid, saves.isTid, fun other next => by rw [← saves.same other next]; rfl⟩

theorem next_ne_stop : Reply.next ≠ .stop := by
  decide

theorem goesOn_nextPage {stc : SearchTopicCallback} (saves : Saves pid tid count stc)
    {entry : PostRecord × Nat} (above : pid < entry.1.id) :
    (searchTopicCallback stc entry).1 ≠ .stop ∧
      Saves pid tid count (searchTopicCallback stc entry).2 := by
  rw [searchTopicCallback_nextPage saves.action, saves.isPid, if_neg (Int64.not_le.mpr above)]
  split
  · exact ⟨next_ne_stop, saves_saveOffset saves entry.1 entry.2⟩
  · exact ⟨next_ne_stop, saves⟩

theorem run_nextPage_saved {m : Nat} {stc : SearchTopicCallback} {pr : PostRecord}
    (saves : Saves pid tid count stc) (isThread : pr.threadId = tid) (above : pid < pr.id)
    (rest : List (PostRecord × Nat)) :
    run searchTopicCallback stc ((pr, m) :: rest) =
      run searchTopicCallback (saveOffset pr (topicStart pid tid .nextPage count) m) rest := by
  rw [run, searchTopicCallback_nextPage saves.action, saves.isPid, saves.isTid,
    if_neg (Int64.not_le.mpr above), if_pos isThread, saves.same]

theorem unchanged_nextPage {stc : SearchTopicCallback} (saves : Saves pid tid count stc)
    {entry : PostRecord × Nat} (other : entry.1.threadId = tid → ¬pid < entry.1.id) :
    (searchTopicCallback stc entry).2 = stc := by
  rw [searchTopicCallback_nextPage saves.action, saves.isPid, saves.isTid]
  split
  · rfl
  · next high =>
    split
    · next same => exact absurd (Int64.not_le.mp high) (other same)
    · rfl

/-- The record that is saved is the first one that fits. -/
theorem firstPage_nextPage {m : Nat} (ascending : record.records.Pairwise (·.id < ·.id))
    (first : FirstBehind record.records pid tid m) :
    firstPage record pid tid .nextPage count =
      saveOffset (postAt record.records m) (topicStart pid tid .nextPage count) m := by
  obtain ⟨inside, isThread, above, none⟩ := first
  have start : Saves pid tid count (topicStart pid tid .nextPage count) :=
    ⟨rfl, rfl, rfl, fun _ _ => rfl⟩
  have saved := saves_saveOffset start (postAt record.records m) m
  -- the records in front of it change nothing
  have earlier : ∀ entry : PostRecord × Nat, entry.2 < m →
      record.records[entry.2]? = some entry.1 →
      entry.1.threadId = tid → ¬pid < entry.1.id := by
    intro entry less found
    have other := none entry.2 less
    rwa [postAt_of_getElem? found] at other
  have later : ∀ entry : PostRecord × Nat, m < entry.2 →
      record.records[entry.2]? = some entry.1 → pid < entry.1.id := by
    intro entry behind found
    have inFile := (List.getElem?_eq_some_iff.mp found).1
    have more := (lt_iff_id_lt ascending inside inFile).mpr behind
    rw [postAt_of_getElem? found] at more
    exact Int64.lt_trans above more
  have down : ∀ low, run searchTopicCallback
      (saveOffset (postAt record.records m) (topicStart pid tid .nextPage count) m)
      (record.entriesDown low m) =
        saveOffset (postAt record.records m) (topicStart pid tid .nextPage count) m := by
    intro low
    refine run_of_unchanged fun entry member => unchanged_nextPage saved ?_
    obtain ⟨-, less, found⟩ := mem_entriesDown.mp member
    exact earlier entry less found
  have block : run searchTopicCallback
      (saveOffset (postAt record.records m) (topicStart pid tid .nextPage count) m)
      record.firstBlock =
        saveOffset (postAt record.records m) (topicStart pid tid .nextPage count) m := by
    unfold RecordFile.firstBlock
    split
    · rfl
    · by_cases again : m < min record.block record.records.length
      · -- the record itself is read again
        rw [entriesDown_split record (Nat.zero_le m) again (Nat.min_le_right _ _)
          (getElem?_postAt inside)]
        obtain ⟨after, saves, same⟩ := run_append_of_goesOn (Saves pid tid count)
          (fun stc entry member saves => goesOn_nextPage saves
            (later entry (mem_entriesDown.mp member).1 (mem_entriesDown.mp member).2.2)) saved
          ((postAt record.records m, m) :: record.entriesDown 0 m)
        rw [same, run_nextPage_saved saves isThread above, down]
      · refine run_of_unchanged fun entry member => unchanged_nextPage saved ?_
        obtain ⟨-, less, found⟩ := mem_entriesDown.mp member
        exact earlier entry (by omega) found
  obtain ⟨before, split, behind⟩ := reverseEntries_at inside
  obtain ⟨after, saves, same⟩ := run_append_of_goesOn (Saves pid tid count)
    (fun stc entry member saves => by
      obtain ⟨greater, inFile, isPost⟩ := behind entry member
      have found := getElem?_postAt inFile
      rw [← isPost] at found
      exact goesOn_nextPage saves (later entry greater found)) start
    ((postAt record.records m, m) :: record.behind m)
  rw [firstPage, split, same, run_nextPage_saved saves isThread above, RecordFile.behind]
  split
  · rcases run_append_of_unchanged (fun entry member => unchanged_nextPage saved
        (earlier entry (mem_entriesDown.mp member).2.1 (mem_entriesDown.mp member).2.2))
        record.firstBlock with stopped | skipped
    · exact stopped
    · exact skipped.trans block
  · exact down 0

/-- The page behind a post. -/
theorem findsPage_nextPage_iff (ascending : record.records.Pairwise (·.id < ·.id))
    (positive : 0 < count) :
    FindsPage record pid tid count .nextPage ↔ ScanFits record ∧
      ∀ m, FirstBehind record.records pid tid m → m * record.rlen < 2 ^ 31 := by
  classical
  by_cases present : ∃ m < record.records.length,
      (postAt record.records m).threadId = tid ∧ pid < (postAt record.records m).id
  · obtain ⟨m, first⟩ : ∃ m, FirstBehind record.records pid tid m := by
      obtain ⟨inside, isThread, above⟩ := Nat.find_spec present
      exact ⟨Nat.find present, inside, isThread, above, fun j less same high =>
        Nat.find_min present less ⟨less.trans inside, same, high⟩⟩
    have unique : ∀ other, FirstBehind record.records pid tid other → other = m := by
      intro other also
      rcases Nat.lt_trichotomy other m with less | same | greater
      · exact absurd also.2.2.1 (first.2.2.2 other less also.2.1)
      · exact same
      · exact absurd first.2.2.1 (also.2.2.2 m greater first.2.1)
    have whole : ((record.records.drop m).filter
        (onPage (topicStart pid tid .nextPage count))).take count =
        wantedPage record.records pid tid count .nextPage := by
      obtain ⟨inside, -, above, none⟩ := first
      have behind : (record.records.drop m).filter (onPage (topicStart pid tid .nextPage count)) =
          (record.records.drop m).filter fun pr => decide (pid < pr.id) && pr.threadId == tid := by
        refine List.filter_congr fun pr member => ?_
        obtain ⟨k, bound, rfl⟩ := List.mem_drop_iff_getElem.mp member
        have inFile : m + k < record.records.length := by omega
        have isPost := postAt_of_getElem? (List.getElem?_eq_getElem inFile)
        have high : pid < record.records[m + k].id := by
          rw [← isPost]
          rcases Nat.eq_zero_or_pos k with rfl | more
          · exact above
          · exact Int64.lt_trans above ((lt_iff_id_lt ascending inside inFile).mpr (by omega))
        rw [onPage, decide_eq_true high, Bool.true_and]
        exact decide_eq_decide.mpr (and_iff_left (Int64.le_of_lt high))
      rw [behind, filter_drop _ fun j less inFile => ?_, wantedPage, threadPosts,
        List.filter_filter]
      rw [Bool.and_eq_false_iff, decide_eq_false_iff_not, beq_eq_false_iff_ne]
      by_cases same : (postAt record.records j).threadId = tid
      · exact .inl (none j less same)
      · exact .inr same
    rw [findsPage_iff_of_saved first.1 (by decide) (firstPage_nextPage ascending first) rfl rfl
      rfl]
    constructor
    · rintro ⟨scanFits, fits, -⟩
      exact ⟨scanFits, fun other also => unique other also ▸ fits⟩
    · rintro ⟨scanFits, fits⟩
      exact ⟨scanFits, fits m first, whole⟩
  · have none : ∀ m < record.records.length, (postAt record.records m).threadId = tid →
        ¬pid < (postAt record.records m).id :=
      fun m inside same above => present ⟨m, inside, same, above⟩
    have scan : firstPage record pid tid .nextPage count = topicStart pid tid .nextPage count := by
      refine run_of_unchanged fun entry member =>
        unchanged_nextPage ⟨rfl, rfl, rfl, fun _ _ => rfl⟩ ?_
      have found := mem_reverseEntries member
      have other := none entry.2 (List.getElem?_eq_some_iff.mp found).1
      rwa [postAt_of_getElem? found] at other
    rw [findsPage_iff_of_unsaved scan]
    refine and_congr_right' (iff_of_true ?_ fun m first => absurd first.2.2.1
      (none m first.1 first.2.1))
    change List.take count _ = []
    rw [take_eq_nil_iff positive, List.filter_eq_nil_iff]
    intro pr member above
    obtain ⟨inFile, isThread⟩ := List.mem_filter.mp member
    obtain ⟨m, inside, rfl⟩ := List.mem_iff_getElem.mp inFile
    have isPost := postAt_of_getElem? (List.getElem?_eq_getElem inside)
    refine none m inside ?_ ?_
    · rw [isPost]
      exact beq_iff_eq.mp isThread
    · rw [isPost]
      exact of_decide_eq_true above

/-- The post is older than the page and of its thread. -/
def beforePage (pid tid : PostId) (pr : PostRecord) : Bool :=
  decide (pr.id < pid) && pr.threadId == tid

theorem searchTopicCallback_prevPage {stc : SearchTopicCallback} (action : stc.action = .prevPage)
    (entry : PostRecord × Nat) :
    searchTopicCallback stc entry =
      if stc.prs.length ≥ stc.capacity ∨ entry.1.id < stc.tid then (.stop, stc)
      else if entry.1.id < stc.pid ∧ entry.1.threadId = stc.tid then
        (.next, { stc with prs := stc.prs ++ [entry.1] })
      else (.next, stc) := by
  unfold searchTopicCallback
  rw [action]

/-- The first scan collects the previous page as long as there is room and no post is older than
the thread. -/
theorem run_prevPage {stc : SearchTopicCallback} (action : stc.action = .prevPage)
    (entries : List (PostRecord × Nat)) (room : stc.prs.length ≤ stc.capacity) :
    run searchTopicCallback stc entries =
      { stc with prs := (stc.prs ++ ((entries.map Prod.fst).takeWhile (stc.tid ≤ ·.id)).filter
        (beforePage stc.pid stc.tid)).take stc.capacity } := by
  induction entries generalizing stc with
  | nil =>
    rw [List.map_nil, List.takeWhile_nil, List.filter_nil, List.append_nil,
      List.take_of_length_le room]
    rfl
  | cons entry entries ih =>
    rw [run, searchTopicCallback_prevPage action, List.map_cons]
    by_cases full : stc.prs.length ≥ stc.capacity
    · have same : stc.prs.length = stc.capacity := by omega
      rw [if_pos (.inl full), ← same, List.take_left, same]
    by_cases old : entry.1.id < stc.tid
    · rw [if_pos (.inr old), List.takeWhile_cons_of_neg (by simpa using Int64.not_le.mpr old),
        List.filter_nil, List.append_nil, List.take_of_length_le room]
    have young : decide (stc.tid ≤ entry.1.id) = true := decide_eq_true (Int64.not_lt.mp old)
    rw [if_neg (not_or.mpr ⟨full, old⟩), List.takeWhile_cons, if_pos young, List.filter_cons]
    by_cases wanted : entry.1.id < stc.pid ∧ entry.1.threadId = stc.tid
    · have test : beforePage stc.pid stc.tid entry.1 = true := by
        rw [beforePage, decide_eq_true wanted.1, Bool.true_and]
        exact beq_iff_eq.mpr wanted.2
      have more : (stc.prs ++ [entry.1]).length ≤ stc.capacity := by
        rw [List.length_append, List.length_singleton]
        omega
      have rest := @ih { stc with prs := stc.prs ++ [entry.1] } action more
      rw [List.append_assoc, List.singleton_append] at rest
      rw [if_pos wanted, if_pos test]
      exact rest
    · have test : ¬beforePage stc.pid stc.tid entry.1 = true := by
        rw [beforePage, Bool.and_eq_true, decide_eq_true_eq, beq_iff_eq]
        exact wanted
      rw [if_neg wanted, if_neg test]
      exact ih action room

/-- A post of the page is read again with the first block, and the page goes on behind it. -/
def Repeats (record : RecordFile PostRecord) (pid tid : PostId) (count : Nat) : Prop :=
  let rest := record.records.length % record.block
  record.block < record.records.length ∧ rest ≠ 0 ∧
    (∀ pr ∈ record.records.drop rest, tid ≤ pr.id) ∧
    ((record.records.drop rest).filter (beforePage pid tid)).length < count ∧
    ∃ pr ∈ (record.records.take record.block).drop rest, beforePage pid tid pr = true

theorem map_entriesDown (low high : Nat) :
    (record.entriesDown low high).map Prod.fst =
      ((record.records.drop low).take (high - low)).reverse := by
  rw [RecordFile.entriesDown, List.map_reverse, List.zipIdx_map_fst]
  rfl

/-- The previous page as the first scan collects it. -/
def collected (record : RecordFile PostRecord) (pid tid : PostId) (count : Nat) :
    List PostRecord :=
  (((record.reverseEntries.map Prod.fst).takeWhile (tid ≤ ·.id)).filter
    (beforePage pid tid)).take count

theorem wantedPage_prevPage (records : List PostRecord) :
    wantedPage records pid tid count .prevPage =
      (records.reverse.filter (beforePage pid tid)).take count := by
  rw [wantedPage, threadPosts, List.filter_filter, List.filter_reverse]
  rfl

/-- Posts in reverse are not older than their thread up to one point. -/
theorem filter_takeWhile_reverse {records : List PostRecord}
    (ascending : records.Pairwise (·.id < ·.id)) (tid : PostId) (test : PostRecord → Bool) :
    (records.reverse.takeWhile (tid ≤ ·.id)).filter test =
      (records.reverse.filter test).takeWhile (tid ≤ ·.id) := by
  have once : records.reverse.Pairwise fun first second =>
      decide (tid ≤ second.id) = true → decide (tid ≤ first.id) = true := by
    rw [List.pairwise_reverse]
    refine ascending.imp fun less above => ?_
    rw [decide_eq_true_eq] at above ⊢
    exact Int64.le_trans above (Int64.le_of_lt less)
  rw [takeWhile_eq_filter once, takeWhile_eq_filter (once.filter test), List.filter_filter,
    List.filter_filter]
  exact List.filter_congr fun pr _ => Bool.and_comm _ _

theorem map_reverseEntries (record : RecordFile PostRecord) :
    record.reverseEntries.map Prod.fst =
      (record.records.drop (record.records.length % record.block)).reverse ++
        record.firstBlock.map Prod.fst := by
  rw [RecordFile.reverseEntries, List.map_append, map_entriesDown, List.take_of_length_le]
  rw [List.length_drop]

/-- Where the first block is read again, its records come once more. -/
theorem map_firstBlock (several : record.block < record.records.length)
    (rest : record.records.length % record.block ≠ 0) :
    record.firstBlock.map Prod.fst =
      ((record.records.take record.block).drop
          (record.records.length % record.block)).reverse ++
        (record.records.take (record.records.length % record.block)).reverse := by
  have small := Nat.mod_lt record.records.length record.block_pos
  rw [RecordFile.firstBlock, if_neg fun whole => rest whole.1, map_entriesDown, List.drop_zero,
    Nat.sub_zero, Nat.min_eq_left several.le, ← List.reverse_append]
  congr 1
  have front : record.records.take (record.records.length % record.block) =
      (record.records.take record.block).take (record.records.length % record.block) := by
    rw [List.take_take, Nat.min_eq_left small.le]
  rw [front, List.take_append_drop]

/-- Elsewhere, every record is read once. -/
theorem map_reverseEntries_once (record : RecordFile PostRecord)
    (once : ¬(record.block < record.records.length ∧
      record.records.length % record.block ≠ 0)) :
    record.reverseEntries.map Prod.fst = record.records.reverse := by
  rw [map_reverseEntries, RecordFile.firstBlock]
  split
  · next whole => rw [whole.1, List.drop_zero, List.map_nil, List.append_nil]
  · next notWhole =>
    have few : record.records.length < record.block := by
      by_contra notFew
      rcases Nat.lt_or_eq_of_le (Nat.le_of_not_lt notFew) with several | same
      · refine notWhole ⟨?_, several.le⟩
        by_contra rest
        exact once ⟨several, rest⟩
      · exact notWhole ⟨by rw [← same, Nat.mod_self], same.le⟩
    rw [Nat.mod_eq_of_lt few, List.drop_length, List.reverse_nil, List.nil_append,
      map_entriesDown, List.drop_zero, Nat.sub_zero, Nat.min_eq_right few.le, List.take_length]

theorem mem_drop_of_again {records : List PostRecord} {low high : Nat} {pr : PostRecord}
    (member : pr ∈ ((records.take high).drop low).reverse) : pr ∈ records.drop low := by
  rw [List.mem_reverse, List.drop_take] at member
  exact List.mem_of_mem_take member

/-- Without a repetition, the page is collected from every record in its turn. -/
theorem collected_eq (notRepeats : ¬Repeats record pid tid count) :
    collected record pid tid count =
      ((record.records.reverse.takeWhile (tid ≤ ·.id)).filter (beforePage pid tid)).take count := by
  by_cases again : record.block < record.records.length ∧
      record.records.length % record.block ≠ 0
  · have whole : record.records.reverse =
        (record.records.drop (record.records.length % record.block)).reverse ++
          (record.records.take (record.records.length % record.block)).reverse := by
      rw [← List.reverse_append, List.take_append_drop]
    rw [collected, map_reverseEntries, map_firstBlock again.1 again.2, whole]
    by_cases young : ∀ pr ∈ record.records.drop (record.records.length % record.block),
        tid ≤ pr.id
    · rw [List.takeWhile_append_of_pos fun pr member => decide_eq_true
          (young pr (List.mem_reverse.mp member)),
        List.takeWhile_append_of_pos fun pr member => decide_eq_true
          (young pr (List.mem_reverse.mp member)),
        List.takeWhile_append_of_pos fun pr member => decide_eq_true
          (young pr (mem_drop_of_again member)),
        List.filter_append, List.filter_append, List.filter_append]
      apply take_insert
      by_contra harmful
      obtain ⟨nonempty, notLate⟩ := not_or.mp harmful
      obtain ⟨pr, found⟩ := List.exists_mem_of_ne_nil _ nonempty
      obtain ⟨member, test⟩ := List.mem_filter.mp found
      have early := Nat.lt_of_not_le notLate
      rw [List.filter_reverse, List.length_reverse] at early
      exact notRepeats ⟨again.1, again.2, young, early, pr, List.mem_reverse.mp member, test⟩
    · have stops : ((record.records.drop
          (record.records.length % record.block)).reverse.takeWhile (tid ≤ ·.id)).length ≠
            (record.records.drop (record.records.length % record.block)).reverse.length := by
        intro all
        refine young fun pr member => ?_
        have same := (List.takeWhile_prefix _).eq_of_length all
        have inside := List.mem_reverse.mpr member
        rw [← same] at inside
        have passes := List.mem_takeWhile_imp inside
        exact of_decide_eq_true passes
      rw [List.takeWhile_append, if_neg stops, List.takeWhile_append, if_neg stops]
  · rw [collected, map_reverseEntries_once record again]

/-- With a repetition, the page is not the right one. -/
theorem collected_ne (ascending : record.records.Pairwise (·.id < ·.id))
    (repeats : Repeats record pid tid count) :
    collected record pid tid count ≠ wantedPage record.records pid tid count .prevPage := by
  obtain ⟨several, rest, young, early, post, member, test⟩ := repeats
  have whole : record.records.reverse =
      (record.records.drop (record.records.length % record.block)).reverse ++
        (record.records.take (record.records.length % record.block)).reverse := by
    rw [← List.reverse_append, List.take_append_drop]
  rw [collected, wantedPage_prevPage, map_reverseEntries, map_firstBlock several rest, whole,
    List.takeWhile_append_of_pos fun pr member => decide_eq_true
      (young pr (List.mem_reverse.mp member)),
    List.takeWhile_append_of_pos fun pr member => decide_eq_true
      (young pr (mem_drop_of_again member)),
    List.filter_append, List.filter_append, List.filter_append]
  have again : post ∈ ((record.records.take record.block).drop
      (record.records.length % record.block)).reverse.filter (beforePage pid tid) :=
    List.mem_filter.mpr ⟨List.mem_reverse.mpr member, test⟩
  obtain ⟨item, begins⟩ := Option.isSome_iff_exists.mp
    (List.isSome_head?.mpr (List.ne_nil_of_mem again))
  refine take_insert_ne ?_ begins fun early => ?_
  · rw [List.filter_reverse, List.length_reverse]
    exact early
  · -- the item would come before itself
    have late := mem_drop_of_again (List.mem_filter.mp (List.mem_of_mem_head? begins)).1
    have old := List.mem_reverse.mp (List.mem_filter.mp early).1
    rw [← List.take_append_drop (record.records.length % record.block) record.records] at ascending
    exact Int64.lt_irrefl ((List.pairwise_append.mp ascending).2.2 item old item late)

theorem findsPage_prevPage_iff (ascending : record.records.Pairwise (·.id < ·.id)) :
    FindsPage record pid tid count .prevPage ↔ ScanFits record ∧
      (∀ pr ∈ wantedPage record.records pid tid count .prevPage, tid ≤ pr.id) ∧
      ¬Repeats record pid tid count := by
  have scan : firstPage record pid tid .prevPage count =
      { topicStart pid tid .prevPage count with prs := collected record pid tid count } :=
    @run_prevPage (topicStart pid tid .prevPage count) rfl record.reverseEntries
      (Nat.zero_le count)
  have second : collect record (firstPage record pid tid .prevPage count) =
      some { topicStart pid tid .prevPage count with prs := collected record pid tid count } := by
    rw [scan, collect, if_neg fun both => both.1 rfl]
  rw [findsPage_iff_of_collected second]
  apply and_congr_right'
  by_cases repeats : Repeats record pid tid count
  · exact iff_of_false (collected_ne ascending repeats) fun right => right.2 repeats
  · change collected record pid tid count = _ ↔ _
    rw [collected_eq repeats, filter_takeWhile_reverse ascending, wantedPage_prevPage,
      take_takeWhile_eq_iff, and_iff_left repeats]
    simp only [decide_eq_true_eq]

/-- The last post with some property. -/
def LastWith (records : List PostRecord) (test : PostRecord → Prop) (h : Nat) : Prop :=
  h < records.length ∧ test (postAt records h) ∧
    ∀ j, h < j → j < records.length → ¬test (postAt records j)

theorem exists_lastWith {records : List PostRecord} {test : PostRecord → Prop} {i : Nat}
    (inside : i < records.length) (passes : test (postAt records i)) :
    ∃ h, LastWith records test h := by
  classical
  let good := fun j => j < records.length ∧ test (postAt records j)
  have found : good (Nat.findGreatest good records.length) :=
    Nat.findGreatest_spec inside.le (show good i from ⟨inside, passes⟩)
  refine ⟨Nat.findGreatest good records.length, found.1, found.2, fun j behind inFile also => ?_⟩
  exact Nat.findGreatest_is_greatest behind inFile.le ⟨inFile, also⟩

/-- The post at which the scan for the older thread stops. -/
def Slip (tid : PostId) (pr : PostRecord) : Prop :=
  pr.id < tid ∧ notIdIsThread pr = true

theorem searchTopicCallback_older (entry : PostRecord × Nat) :
    searchTopicCallback (topicStart pid tid .older count) entry =
      if entry.1.id < tid ∧ notIdIsThread entry.1 then
        (.stop, { saveOffset entry.1 (topicStart pid tid .older count) entry.2 with
          tid := entry.1.id, pid := entry.1.id })
      else (.next, topicStart pid tid .older count) :=
  rfl

/-- The page that begins at a post, of the thread with the id of the post. -/
theorem firstPage_older {h : Nat} (last : LastWith record.records (Slip tid) h) :
    firstPage record pid tid .older count =
      saveOffset (postAt record.records h)
        { topicStart pid tid .older count with
          tid := (postAt record.records h).id, pid := (postAt record.records h).id } h := by
  obtain ⟨inside, slips, none⟩ := last
  obtain ⟨before, split, later⟩ := reverseEntries_at inside
  rw [firstPage, split, run_append_of_skips, run, searchTopicCallback_older,
    if_pos (show _ ∧ _ from slips)]
  · rfl
  · intro entry member
    obtain ⟨behind, inFile, isPost⟩ := later entry member
    have other := none entry.2 behind inFile
    rw [← isPost] at other
    rw [searchTopicCallback_older, if_neg (show ¬(_ ∧ _) from other)]

/-- A post at which the scan stops does not open its thread. -/
theorem not_isOpening_of_slip {pr : PostRecord} (slips : Slip tid pr) :
    isOpening pr = false := by
  obtain ⟨-, weird⟩ := slips
  rw [notIdIsThread, beq_iff_eq] at weird
  rw [isOpening, beq_eq_false_iff_ne]
  intro opens
  rw [← opens] at weird
  split at weird
  · next zero =>
    rw [zero] at weird
    exact absurd weird (by decide)
  · next notZero => exact notZero weird.symm

/-- The page that begins at a post, of the thread with the id of the post. -/
def pageFrom (records : List PostRecord) (count : Nat) (opening : PostRecord) :
    List PostRecord :=
  ((threadPosts opening.id records).filter fun pr => opening.id ≤ pr.id).take count

/-- The second scan behind a post that gives the thread its id. -/
theorem findsPage_iff_of_restarted {action : PageAction} {h : Nat}
    (ascending : record.records.Pairwise (·.id < ·.id)) (inside : h < record.records.length)
    (notPrev : action ≠ .prevPage)
    (scan : firstPage record pid tid action count =
      saveOffset (postAt record.records h)
        { topicStart pid tid action count with
          tid := (postAt record.records h).id, pid := (postAt record.records h).id } h) :
    FindsPage record pid tid count action ↔ ScanFits record ∧ h * record.rlen < 2 ^ 31 ∧
      pageFrom record.records count (postAt record.records h) =
        wantedPage record.records pid tid count action := by
  rw [findsPage_iff_of_saved inside notPrev scan rfl rfl rfl, filter_drop _ fun j less inFile => ?_,
    filter_onPage]
  · rfl
  · have below := (lt_iff_id_lt ascending inFile inside).mpr less
    exact decide_eq_false fun both => Int64.not_le.mpr below both.2

theorem mem_threadPosts {records : List PostRecord} {pr : PostRecord} :
    pr ∈ threadPosts tid records ↔ pr ∈ records ∧ pr.threadId = tid := by
  rw [threadPosts, List.mem_filter, beq_iff_eq]

theorem threadId_of_mem_pageFrom {records : List PostRecord} {opening pr : PostRecord}
    (member : pr ∈ pageFrom records count opening) :
    pr.threadId = opening.id ∧ opening.id ≤ pr.id := by
  obtain ⟨inThread, above⟩ := List.mem_filter.mp (List.mem_of_mem_take member)
  exact ⟨(mem_threadPosts.mp inThread).2, of_decide_eq_true above⟩

theorem exists_mem_pageOf {records : List PostRecord} {opening : PostRecord}
    (positive : 0 < count) (member : opening ∈ records) :
    ∃ pr, pr ∈ pageOf records count (some opening) := by
  refine List.exists_mem_of_ne_nil _ fun empty => ?_
  rw [pageOf, take_eq_nil_iff positive] at empty
  exact List.not_mem_nil (empty ▸ mem_threadPosts.mpr ⟨member, rfl⟩)

theorem threadId_of_mem_pageOf {records : List PostRecord} {opening pr : PostRecord}
    (member : pr ∈ pageOf records count (some opening)) : pr.threadId = opening.threadId :=
  (mem_threadPosts.mp (List.mem_of_mem_take member)).2

/-- A page from a post and the page of an opening post agree only for one post. -/
theorem id_eq_of_pages {records : List PostRecord} {first opening : PostRecord}
    (positive : 0 < count) (member : opening ∈ records) (opens : isOpening opening = true)
    (same : pageFrom records count first = pageOf records count (some opening)) :
    first.id = opening.id := by
  obtain ⟨pr, onPage⟩ := exists_mem_pageOf positive member
  rw [isOpening_iff.mp opens, ← threadId_of_mem_pageOf onPage]
  rw [← same] at onPage
  exact (threadId_of_mem_pageFrom onPage).1.symm

theorem exists_postAt {records : List PostRecord} {pr : PostRecord} (member : pr ∈ records) :
    ∃ j < records.length, postAt records j = pr := by
  obtain ⟨j, inside, isPost⟩ := List.mem_iff_getElem.mp member
  exact ⟨j, inside, (postAt_of_getElem? (List.getElem?_eq_getElem inside)).trans isPost⟩

theorem findsPage_older_iff (ascending : record.records.Pairwise (·.id < ·.id))
    (positive : 0 < count) :
    FindsPage record pid tid count .older ↔ ScanFits record ∧
      (∀ pr ∈ record.records, isOpening pr = true → ¬pr.id < tid) ∧
      ∀ h, LastWith record.records (Slip tid) h → h * record.rlen < 2 ^ 31 ∧
        ∀ pr ∈ threadPosts (postAt record.records h).id record.records,
          pr.id < (postAt record.records h).id := by
  have wanted : wantedPage record.records pid tid count .older =
      pageOf record.records count
        (record.records.filter fun pr => isOpening pr && pr.id < tid).getLast? := rfl
  by_cases present : ∃ h, LastWith record.records (Slip tid) h
  · obtain ⟨h, last⟩ := present
    rw [findsPage_iff_of_restarted ascending last.1 (by decide) (firstPage_older last), wanted]
    apply and_congr_right'
    cases nearest : (record.records.filter fun pr => isOpening pr && pr.id < tid).getLast? with
    | some opening =>
      obtain ⟨member, test⟩ := List.mem_filter.mp (List.mem_of_getLast? nearest)
      rw [Bool.and_eq_true, decide_eq_true_eq] at test
      refine iff_of_false (fun right => ?_) fun right => right.1 opening member test.1 test.2
      have same := id_eq_of_pages positive member test.1 right.2
      obtain ⟨j, inside, rfl⟩ := exists_postAt member
      obtain rfl := id_inj ascending last.1 inside same
      rw [not_isOpening_of_slip last.2.1] at test
      exact Bool.false_ne_true test.1
    | none =>
      rw [List.getLast?_eq_none_iff, List.filter_eq_nil_iff] at nearest
      have closed : ∀ pr ∈ record.records, isOpening pr = true → ¬pr.id < tid := by
        intro pr member opens old
        exact nearest pr member (by rw [opens, decide_eq_true old]; rfl)
      have unique : ∀ other, LastWith record.records (Slip tid) other → other = h := by
        intro other also
        rcases Nat.lt_trichotomy other h with less | same | greater
        · exact absurd last.2.1 (also.2.2 h less last.1)
        · exact same
        · exact absurd also.2.1 (last.2.2 other greater also.1)
      have empty : pageFrom record.records count (postAt record.records h) = [] ↔
          ∀ pr ∈ threadPosts (postAt record.records h).id record.records,
            pr.id < (postAt record.records h).id := by
        rw [pageFrom, take_eq_nil_iff positive, List.filter_eq_nil_iff]
        refine forall₂_congr fun pr _ => ?_
        rw [decide_eq_true_eq, Int64.not_le]
      rw [and_iff_right closed, pageOf, empty]
      constructor
      · exact fun right other also => unique other also ▸ right
      · exact fun right => right h last
  · have absent : ∀ j < record.records.length, ¬Slip tid (postAt record.records j) :=
      fun j inside slips => present (exists_lastWith inside slips)
    have scan : firstPage record pid tid .older count = topicStart pid tid .older count := by
      refine run_of_unchanged fun entry member => ?_
      have found := mem_reverseEntries member
      have other := absent entry.2 (List.getElem?_eq_some_iff.mp found).1
      rw [postAt_of_getElem? found] at other
      rw [searchTopicCallback_older, if_neg (show ¬(_ ∧ _) from other)]
    rw [findsPage_iff_of_unsaved scan, wanted]
    apply and_congr_right'
    rw [and_iff_left fun h last => absurd ⟨h, last⟩ present]
    cases nearest : (record.records.filter fun pr => isOpening pr && pr.id < tid).getLast? with
    | some opening =>
      obtain ⟨member, test⟩ := List.mem_filter.mp (List.mem_of_getLast? nearest)
      rw [Bool.and_eq_true, decide_eq_true_eq] at test
      obtain ⟨pr, onPage⟩ := exists_mem_pageOf positive member
      exact iff_of_false (List.ne_nil_of_mem onPage)
        fun closed => closed opening member test.1 test.2
    | none =>
      rw [List.getLast?_eq_none_iff, List.filter_eq_nil_iff] at nearest
      refine iff_of_true rfl fun pr member opens old => ?_
      exact nearest pr member (by rw [opens, decide_eq_true old]; rfl)

/-- The post opens a thread behind the given one. -/
def OpensBehind (tid : PostId) (pr : PostRecord) : Prop :=
  tid < pr.id ∧ isOpening pr = true

theorem searchTopicCallback_newer {stc : SearchTopicCallback} (action : stc.action = .newer)
    (entry : PostRecord × Nat) :
    searchTopicCallback stc entry =
      if entry.1.id ≤ stc.tid then (.stop, stc)
      else if entry.1.id = entry.1.threadId then
        (.next, { saveOffset entry.1 stc entry.2 with tid := entry.1.id, pid := entry.1.id })
      else (.next, stc) := by
  unfold searchTopicCallback
  rw [action]

theorem searchTopicCallback_newer_start (entry : PostRecord × Nat) :
    searchTopicCallback (topicStart pid tid .newer count) entry =
      if entry.1.id ≤ tid then (.stop, topicStart pid tid .newer count)
      else if entry.1.id = entry.1.threadId then
        (.next, { saveOffset entry.1 (topicStart pid tid .newer count) entry.2 with
          tid := entry.1.id, pid := entry.1.id })
      else (.next, topicStart pid tid .newer count) :=
  rfl

/-- The scan for the newer thread begins the page at the newest opening post. -/
theorem firstPage_newer {k : Nat} (ascending : record.records.Pairwise (·.id < ·.id))
    (last : LastWith record.records (OpensBehind tid) k) :
    firstPage record pid tid .newer count =
      saveOffset (postAt record.records k)
        { topicStart pid tid .newer count with
          tid := (postAt record.records k).id, pid := (postAt record.records k).id } k := by
  obtain ⟨inside, ⟨above, opens⟩, none⟩ := last
  obtain ⟨before, split, later⟩ := reverseEntries_at inside
  -- a later post is newer than the thread, and opens none
  have skips : ∀ j, k < j → j < record.records.length →
      ¬(postAt record.records j).id ≤ tid ∧
        (postAt record.records j).id ≠ (postAt record.records j).threadId := by
    intro j behind inFile
    have high : tid < (postAt record.records j).id :=
      Int64.lt_trans above ((lt_iff_id_lt ascending inside inFile).mpr behind)
    exact ⟨Int64.not_le.mpr high, fun same => none j behind inFile ⟨high, isOpening_iff.mpr same⟩⟩
  rw [firstPage, split, run_append_of_skips]
  · rw [run, searchTopicCallback_newer_start, if_neg (Int64.not_le.mpr above),
      if_pos (isOpening_iff.mp opens)]
    refine run_of_unchanged fun entry member => ?_
    have found := mem_behind member
    have inFile := (List.getElem?_eq_some_iff.mp found).1
    rw [searchTopicCallback_newer rfl]
    by_cases behind : k < entry.2
    · have other := (skips entry.2 behind inFile).2
      rw [postAt_of_getElem? found] at other
      rw [if_neg other]
      split <;> rfl
    · rw [if_pos]
      have notGreater : ¬(postAt record.records k).id < (postAt record.records entry.2).id :=
        fun greater => behind ((lt_iff_id_lt ascending inside inFile).mp greater)
      rw [postAt_of_getElem? found] at notGreater
      exact Int64.not_lt.mp notGreater
  · intro entry member
    obtain ⟨behind, inFile, isPost⟩ := later entry member
    obtain ⟨high, other⟩ := skips entry.2 behind inFile
    rw [← isPost] at high other
    rw [searchTopicCallback_newer_start, if_neg high, if_neg other]

/-- A page that loses nothing to a test begins with a post that passes. -/
theorem take_filter_eq_iff {posts : List PostRecord} {id : PostId}
    (ascending : posts.Pairwise (·.id < ·.id)) (positive : 0 < count) :
    (posts.filter fun pr => id ≤ pr.id).take count = posts.take count ↔
      ∀ pr ∈ posts, id ≤ pr.id := by
  obtain ⟨more, rfl⟩ := Nat.exists_eq_add_one_of_ne_zero (Nat.ne_of_gt positive)
  constructor
  · intro same
    cases posts with
    | nil => exact fun pr member => absurd member List.not_mem_nil
    | cons first posts =>
      have passes : id ≤ first.id := by
        have member : first ∈ (first :: posts).take (more + 1) := List.mem_cons_self
        rw [← same] at member
        exact of_decide_eq_true (List.mem_filter.mp (List.mem_of_mem_take member)).2
      intro pr member
      rcases List.mem_cons.mp member with rfl | behind
      · exact passes
      · exact Int64.le_trans passes
          (Int64.le_of_lt ((List.pairwise_cons.mp ascending).1 pr behind))
  · intro all
    rw [List.filter_eq_self.mpr fun pr member => decide_eq_true (all pr member)]

theorem findsPage_newer_iff (ascending : record.records.Pairwise (·.id < ·.id))
    (positive : 0 < count) :
    FindsPage record pid tid count .newer ↔ ScanFits record ∧
      ∀ k, LastWith record.records (OpensBehind tid) k → k * record.rlen < 2 ^ 31 ∧
        (∀ pr ∈ record.records, OpensBehind tid pr → pr = postAt record.records k) ∧
        ∀ pr ∈ threadPosts (postAt record.records k).id record.records,
          (postAt record.records k).id ≤ pr.id := by
  have wanted : wantedPage record.records pid tid count .newer =
      pageOf record.records count
        (record.records.filter fun pr => isOpening pr && tid < pr.id).head? := rfl
  have isBehind : ∀ {pr}, (isOpening pr && decide (tid < pr.id)) = true ↔ OpensBehind tid pr := by
    intro pr
    rw [Bool.and_eq_true, decide_eq_true_eq, and_comm]
    rfl
  by_cases present : ∃ k, LastWith record.records (OpensBehind tid) k
  · obtain ⟨k, last⟩ := present
    have member : postAt record.records k ∈ record.records :=
      List.mem_of_getElem? (getElem?_postAt last.1)
    have unique : ∀ other, LastWith record.records (OpensBehind tid) other → other = k := by
      intro other also
      rcases Nat.lt_trichotomy other k with less | same | greater
      · exact absurd last.2.1 (also.2.2 k less last.1)
      · exact same
      · exact absurd also.2.1 (last.2.2 other greater also.1)
    rw [findsPage_iff_of_restarted ascending last.1 (by decide) (firstPage_newer ascending last),
      wanted]
    apply and_congr_right'
    cases nearest : (record.records.filter fun pr => isOpening pr && tid < pr.id).head? with
    | none =>
      rw [List.head?_eq_none_iff, List.filter_eq_nil_iff] at nearest
      exact absurd (isBehind.mpr last.2.1) (nearest _ member)
    | some opening =>
      obtain ⟨rest, split⟩ := List.head?_eq_some_iff.mp nearest
      obtain ⟨isMember, test⟩ := List.mem_filter.mp (List.mem_of_mem_head? nearest)
      have opens := isBehind.mp test
      have thread := isOpening_iff.mp last.2.1.2
      have pages : pageFrom record.records count (postAt record.records k) =
          pageOf record.records count (some (postAt record.records k)) ↔
          ∀ pr ∈ threadPosts (postAt record.records k).id record.records,
            (postAt record.records k).id ≤ pr.id := by
        rw [pageOf, ← thread]
        exact take_filter_eq_iff (ascending.filter _) positive
      constructor
      · rintro ⟨fits, same⟩ other also
        obtain rfl := unique other also
        have ids := id_eq_of_pages positive isMember opens.2 same
        obtain ⟨j, inside, rfl⟩ := exists_postAt isMember
        obtain rfl := id_inj ascending also.1 inside ids
        refine ⟨fits, fun pr inFile behind => ?_, pages.mp same⟩
        -- it is not before the first and not behind the last opening post
        have listed : pr ∈ record.records.filter fun pr =>
            isOpening pr && decide (tid < pr.id) :=
          List.mem_filter.mpr ⟨inFile, isBehind.mpr behind⟩
        have sorted := ascending.filter fun pr => isOpening pr && decide (tid < pr.id)
        rw [split] at listed sorted
        rcases List.mem_cons.mp listed with first | later
        · exact first
        · obtain ⟨j, inPosts, rfl⟩ := exists_postAt inFile
          have greater := (List.pairwise_cons.mp sorted).1 _ later
          exact absurd behind
            (also.2.2 j ((lt_iff_id_lt ascending also.1 inPosts).mp greater) inPosts)
      · intro right
        obtain ⟨fits, only, all⟩ := right k last
        rw [only opening isMember opens]
        exact ⟨fits, pages.mpr all⟩
  · have absent : ∀ pr ∈ record.records, ¬OpensBehind tid pr := by
      intro pr member opens
      obtain ⟨j, inside, rfl⟩ := exists_postAt member
      exact present (exists_lastWith inside opens)
    have scan : firstPage record pid tid .newer count = topicStart pid tid .newer count := by
      refine run_of_unchanged fun entry member => ?_
      have other := absent entry.1 (List.mem_of_getElem? (mem_reverseEntries member))
      rw [searchTopicCallback_newer_start]
      split
      · rfl
      · next high =>
        rw [if_neg fun opens => other ⟨Int64.not_le.mp high, isOpening_iff.mpr opens⟩]
    rw [findsPage_iff_of_unsaved scan, wanted]
    apply and_congr_right'
    refine iff_of_true ?_ fun k last => absurd ⟨k, last⟩ present
    rw [List.filter_eq_nil_iff.mpr fun pr member test => absent pr member (isBehind.mp test)]
    rfl

/-- The condition for an action to find its page. -/
def ReachesPage (record : RecordFile PostRecord) (pid tid : PostId) (count : Nat) :
    PageAction → Prop
  | .page =>
    (∃ i < record.records.length, (postAt record.records i).id = pid ∧
        i * record.rlen < 2 ^ 31) ∨
      (∀ i < record.records.length, (postAt record.records i).id ≠ pid) ∧
        ∀ pr ∈ threadPosts tid record.records, pr.id < pid
  | .nextPage => ∀ m, FirstBehind record.records pid tid m → m * record.rlen < 2 ^ 31
  | .prevPage =>
    (∀ pr ∈ wantedPage record.records pid tid count .prevPage, tid ≤ pr.id) ∧
      ¬Repeats record pid tid count
  | .older =>
    (∀ pr ∈ record.records, isOpening pr = true → ¬pr.id < tid) ∧
      ∀ h, LastWith record.records (Slip tid) h → h * record.rlen < 2 ^ 31 ∧
        ∀ pr ∈ threadPosts (postAt record.records h).id record.records,
          pr.id < (postAt record.records h).id
  | .newer =>
    ∀ k, LastWith record.records (OpensBehind tid) k → k * record.rlen < 2 ^ 31 ∧
      (∀ pr ∈ record.records, OpensBehind tid pr → pr = postAt record.records k) ∧
      ∀ pr ∈ threadPosts (postAt record.records k).id record.records,
        (postAt record.records k).id ≤ pr.id

/-- The exact condition for every action, in a file with ascending ids. -/
theorem findsPage_iff {action : PageAction} (ascending : record.records.Pairwise (·.id < ·.id))
    (positive : 0 < count) :
    FindsPage record pid tid count action ↔
      ScanFits record ∧ ReachesPage record pid tid count action := by
  cases action with
  | page => exact findsPage_page_iff ascending positive
  | prevPage => exact findsPage_prevPage_iff ascending
  | nextPage => exact findsPage_nextPage_iff ascending positive
  | older => exact findsPage_older_iff ascending positive
  | newer => exact findsPage_newer_iff ascending positive

end Pages

/-- A board with threads of one post each. -/
def threeOpenings : RecordFile PostRecord where
  records := [threadRecord 1 1, threadRecord 2 2, threadRecord 3 3]
  rlen := 168
  rlen_pos := postSize_pos
  rlen_le := postSize_le
  count_lt := by decide

theorem threeOpenings_ascending : threeOpenings.records.Pairwise (·.id < ·.id) := by
  decide

/-- The thread of the second post has nothing behind it. -/
theorem threeOpenings_findsPage : FindsPage threeOpenings 2 2 20 .nextPage := by
  refine (findsPage_iff threeOpenings_ascending (by decide)).mpr ⟨by decide, ?_⟩
  rintro m ⟨inside, isThread, above, -⟩
  have small : m < 3 := inside
  exact (Nat.mul_lt_mul_of_lt_of_le small (Nat.le_refl 168) (by decide)).trans (by decide)

/-- Behind the first thread, the last one is found; and in front of the last one, none. -/
theorem threeOpenings_not_findsPage :
    ¬FindsPage threeOpenings 1 1 20 .newer ∧ ¬FindsPage threeOpenings 3 3 20 .older := by
  constructor
  · rw [findsPage_newer_iff threeOpenings_ascending (by decide)]
    rintro ⟨-, right⟩
    obtain ⟨k, last⟩ := exists_lastWith (show 2 < threeOpenings.records.length by decide)
      (show OpensBehind 1 (postAt threeOpenings.records 2) from ⟨by decide, by decide⟩)
    obtain ⟨-, only, -⟩ := right k last
    have second := only (threadRecord 2 2) (by decide) ⟨by decide, by decide⟩
    have third := only (threadRecord 3 3) (by decide) ⟨by decide, by decide⟩
    exact absurd (second.trans third.symm) (by decide)
  · rw [findsPage_older_iff threeOpenings_ascending (by decide)]
    rintro ⟨-, closed, -⟩
    exact closed (threadRecord 2 2) (by decide) (by decide) (by decide)

end WebThreadPages

end Fbbs
