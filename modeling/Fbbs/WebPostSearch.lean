import Fbbs.PostRecordPages

/-!
# Moving from post to post

`search` of `fcgi/post.c` finds a post, or a post next to it in the board or its thread, with a
scan from the last record, and then decides by a second scan whether the post is the last of
its thread.  Both callbacks work on one state, and what the first leaves there is not what the
second needs for every action.
-/

namespace Fbbs

namespace WebPostSearch

open CallbackScan PostRecordPages RecordCache RecordScan

/-- `POST_FIRST`. -/
def postFirst : Int32 := 2

/-- `POST_LAST`. -/
def postLast : Int32 := 4

/-- `THREAD_FIRST_POST`. -/
def threadFirstPost : Int32 := 8

/-- `THREAD_LAST_POST`. -/
def threadLastPost : Int32 := 16

/-- `NOT_THREAD_LAST_POST`. -/
def notThreadLastPost : Int32 := 128

/-- The actions; `post` stands for all characters that are none of the others. -/
inductive Action
  | post
  | older
  | newer
  | threadPrev
  | threadNext
  deriving DecidableEq

/-- `bbscon_search_callback_t`; `pi` is what the pointer points to. -/
structure SearchCallback where
  action : Action
  found : Bool
  flags : Int32
  offset : Int
  pid : PostId
  tid : PostId
  pi : PostInfo
  pr : PostRecord

def saveResult (pr : PostRecord) (bsc : SearchCallback) (off : Nat) : SearchCallback :=
  { bsc with
    found := true
    offset := off
    tid := pr.threadId
    pi := infoOf pr
    pr }

def searchPidCallback (bsc : SearchCallback) (entry : PostRecord × Nat) :
    Reply × SearchCallback :=
  let pr := entry.1
  match bsc.action with
  | .older =>
    if bsc.offset ≥ 0 then (.stop, saveResult pr bsc entry.2)
    else if pr.id = bsc.pid then (.next, { bsc with offset := entry.2 })
    else (.next, bsc)
  | .threadPrev =>
    if pr.id ≤ bsc.tid then
      (.stop, if pr.id = bsc.tid then saveResult pr bsc entry.2 else bsc)
    else if pr.id = bsc.pid then (.next, { bsc with tid := pr.threadId })
    else (.next, bsc)
  | _ =>
    if pr.id ≤ bsc.pid then
      (.stop, if pr.id = bsc.pid then saveResult pr bsc entry.2 else bsc)
    else (.next, bsc)

def searchNext (bsc : SearchCallback) (entry : PostRecord × Nat) : Reply × SearchCallback :=
  let pr := entry.1
  let bsc :=
    if bsc.action = .newer ∧ (entry.2 : Int) > bsc.offset then saveResult pr bsc entry.2 else bsc
  if pr.id > bsc.pid ∧ pr.threadId = bsc.tid then
    let bsc := if bsc.action = .threadNext then saveResult pr bsc entry.2 else bsc
    (.stop, { bsc with flags := bsc.flags ||| notThreadLastPost })
  else (.next, bsc)

/-- The state in front of the first scan. -/
def searchStart (pid : PostId) (action : Action) (pi : PostInfo) : SearchCallback where
  action := action
  found := false
  flags := 0
  offset := -1
  pid := pid
  tid := 0
  pi := pi
  pr := blankRecord

/-- The second scan, if there is one. -/
def followUp (record : RecordFile PostRecord) (extra : Bool) (bsc : SearchCallback) :
    Option SearchCallback :=
  if bsc.found then
    if bsc.action = .newer ∨ bsc.action = .threadNext ∨ extra then
      let started := { bsc with found := !(bsc.action = .newer ∨ bsc.action = .threadNext) }
      (recordForeach searchNext postRecordCmp (some bsc.pr) bsc.offset.toNat started record).map
        Scan.state
    else some bsc
  else some { bsc with pi := blankInfo }

/-- The flags that `search` returns. -/
def resultFlags (record : RecordFile PostRecord) (extra : Bool) (bsc : SearchCallback) : Int32 :=
  let flags := bsc.flags ||| (if bsc.found then 1 else 0)
  if bsc.found && extra then
    let flags := if bsc.offset = 0 then flags ||| postFirst else flags
    let flags := if bsc.offset = recordCount record - 1 then flags ||| postLast else flags
    let flags := if bsc.pi.id = bsc.pi.threadId then flags ||| threadFirstPost else flags
    if flags &&& notThreadLastPost = 0 then flags ||| threadLastPost else flags
  else flags

/-- `search` in a board whose file can be opened: the flags and the post.  The result is `none`
if a position overflows. -/
def search (record : RecordFile PostRecord) (pid : PostId) (action : Action) (extra : Bool)
    (pi : PostInfo) : Option (Int32 × PostInfo) :=
  ((recordReverseForeach searchPidCallback (searchStart pid action pi) record).bind fun scan =>
    followUp record extra scan.state).map fun bsc => (resultFlags record extra bsc, bsc.pi)

/-! ## What a search should find -/

section Posts

variable (records : List PostRecord)

def postAt (i : Nat) : PostRecord :=
  records[i]?.getD blankRecord

/-- Two posts of one thread. -/
def SameThread (i j : Nat) : Prop :=
  (postAt records i).threadId = (postAt records j).threadId

instance (i j : Nat) : Decidable (SameThread records i j) :=
  inferInstanceAs (Decidable (_ = _))

/-- The post that an action asks for. -/
def Wanted (i : Nat) : Action → Nat → Prop
  | .post, q => q = i
  | .older, q => q + 1 = i
  | .newer, q => q = i + 1 ∧ q < records.length
  | .threadPrev, q => q < i ∧ SameThread records q i ∧
      ∀ j, q < j → j < i → ¬SameThread records j i
  | .threadNext, q => i < q ∧ q < records.length ∧ SameThread records q i ∧
      ∀ j, i < j → j < q → ¬SameThread records j i

/-- There is a later post in the thread. -/
def HasLater (q : Nat) : Prop :=
  ∃ j, q < j ∧ j < records.length ∧ SameThread records j q

/-- There is an earlier post in the thread. -/
def HasEarlier (q : Nat) : Prop :=
  ∃ j, j < q ∧ SameThread records j q

/-- The post and its flags. -/
structure Shows (q : Nat) (result : Int32 × PostInfo) : Prop where
  info : result.2 = infoOf (postAt records q)
  first : result.1 &&& postFirst ≠ 0 ↔ q = 0
  last : result.1 &&& postLast ≠ 0 ↔ q + 1 = records.length
  threadFirst : result.1 &&& threadFirstPost ≠ 0 ↔ ¬HasEarlier records q
  threadLast : result.1 &&& threadLastPost ≠ 0 ↔ ¬HasLater records q

end Posts

/-- The post that the action asks for is found and described, and a failure is reported if
there is none. -/
def Navigates (record : RecordFile PostRecord) (i : Nat) (action : Action) (pi : PostInfo) :
    Prop :=
  ∃ result, search record (postAt record.records i).id action true pi = some result ∧
    (0 < result.1 ↔ ∃ q, Wanted record.records i action q) ∧
    ∀ q, Wanted record.records i action q → Shows record.records q result

section Files

variable {record : RecordFile PostRecord} {i j q t : Nat}

theorem getElem?_postAt {records : List PostRecord} (inside : i < records.length) :
    records[i]? = some (postAt records i) := by
  rw [postAt, List.getElem?_eq_getElem inside]
  rfl

theorem postAt_of_getElem? {records : List PostRecord} {pr : PostRecord}
    (found : records[i]? = some pr) : postAt records i = pr := by
  rw [postAt, found]
  rfl

theorem lt_iff_id_lt {records : List PostRecord} (ascending : records.Pairwise (·.id < ·.id))
    (first : i < records.length) (second : j < records.length) :
    (postAt records i).id < (postAt records j).id ↔ i < j := by
  have forward : ∀ {i j : Nat}, j < records.length → i < j →
      (postAt records i).id < (postAt records j).id := by
    intro i j inside less
    have here := List.pairwise_iff_getElem.mp ascending i j (less.trans inside) inside less
    rwa [← postAt_of_getElem? (List.getElem?_eq_getElem (less.trans inside)),
      ← postAt_of_getElem? (List.getElem?_eq_getElem inside)] at here
  refine ⟨fun less => ?_, forward second⟩
  by_contra notLess
  rcases Nat.lt_or_eq_of_le (Nat.le_of_not_lt notLess) with greater | same
  · exact Int64.lt_irrefl (Int64.lt_trans less (forward first greater))
  · subst same
    exact Int64.lt_irrefl less

theorem id_inj {records : List PostRecord} (ascending : records.Pairwise (·.id < ·.id))
    (first : i < records.length) (second : j < records.length)
    (same : (postAt records i).id = (postAt records j).id) : i = j := by
  by_contra other
  rcases Nat.lt_or_gt_of_ne other with less | greater
  · exact Int64.ne_of_lt ((lt_iff_id_lt ascending first second).mpr less) same
  · exact Int64.ne_of_lt ((lt_iff_id_lt ascending second first).mpr greater) same.symm

/-- A post, and whether a later one of its thread has been seen. -/
structure Found (record : RecordFile PostRecord) (t : Nat) (later : Prop) (bsc : SearchCallback) :
    Prop where
  found : bsc.found = true
  offset : bsc.offset = t
  info : bsc.pi = infoOf (postAt record.records t)
  flags : later ∧ bsc.flags = notThreadLastPost ∨ ¬later ∧ bsc.flags = 0

/-- The flags of a post that has been found. -/
def flagsOf (later first last opens : Bool) : Int32 :=
  let flags := (if later then notThreadLastPost else 0) ||| 1
  let flags := if first then flags ||| postFirst else flags
  let flags := if last then flags ||| postLast else flags
  let flags := if opens then flags ||| threadFirstPost else flags
  if flags &&& notThreadLastPost = 0 then flags ||| threadLastPost else flags

theorem flagsOf_bits : ∀ later first last opens,
    0 < flagsOf later first last opens ∧
    (flagsOf later first last opens &&& postFirst ≠ 0 ↔ first = true) ∧
    (flagsOf later first last opens &&& postLast ≠ 0 ↔ last = true) ∧
    (flagsOf later first last opens &&& threadFirstPost ≠ 0 ↔ opens = true) ∧
    (flagsOf later first last opens &&& threadLastPost ≠ 0 ↔ later = false) := by
  decide

/-- The post opens its thread exactly if no earlier post of it is in the file. -/
def OpensRight (records : List PostRecord) (q : Nat) : Prop :=
  (postAt records q).id = (postAt records q).threadId ↔ ¬HasEarlier records q

theorem resultFlags_eq {later : Prop} [Decidable later] {bsc : SearchCallback}
    (found : Found record t later bsc) :
    resultFlags record true bsc = flagsOf (decide later) (t = 0) (t + 1 = record.records.length)
      ((postAt record.records t).id = (postAt record.records t).threadId) := by
  have flags : bsc.flags = if later then notThreadLastPost else 0 := by
    rcases found.flags with ⟨isLater, same⟩ | ⟨notLater, same⟩
    · rw [same, if_pos isLater]
    · rw [same, if_neg notLater]
  have last : ((t : Int) = (record.records.length : Int) - 1) =
      (t + 1 = record.records.length) := by
    rw [eq_iff_iff]
    omega
  unfold resultFlags flagsOf
  simp only [found.found, found.offset, found.info, flags, recordCount, last, infoOf,
    Bool.and_self, if_true, decide_eq_true_eq, Int.natCast_eq_zero]

theorem wanted_unique {records : List PostRecord} {action : Action} {other : Nat}
    (wanted : Wanted records i action q) (also : Wanted records i action other) : q = other := by
  cases action with
  | post => exact Eq.trans wanted (Eq.symm also)
  | older => exact Nat.succ_injective (Eq.trans wanted (Eq.symm also))
  | newer => exact wanted.1.trans also.1.symm
  | threadPrev =>
    by_contra ne
    rcases Nat.lt_or_gt_of_ne ne with less | greater
    · exact wanted.2.2 other less also.1 also.2.1
    · exact also.2.2 q greater wanted.1 wanted.2.1
  | threadNext =>
    by_contra ne
    rcases Nat.lt_or_gt_of_ne ne with less | greater
    · exact also.2.2.2 q wanted.1 less wanted.2.2.1
    · exact wanted.2.2.2 other also.1 greater also.2.2.1

theorem wanted_inside {records : List PostRecord} {action : Action} (inside : i < records.length)
    (wanted : Wanted records i action q) : q < records.length := by
  cases action with
  | post => exact (show q = i from wanted) ▸ inside
  | older =>
    have next : q + 1 = i := wanted
    omega
  | newer => exact wanted.2
  | threadPrev => exact wanted.1.trans inside
  | threadNext => exact wanted.2.1

/-- The state in which a search ends, apart from the flags that are computed at the end. -/
def Ends (record : RecordFile PostRecord) (i : Nat) (action : Action) (pi : PostInfo)
    (bsc : SearchCallback) : Prop :=
  search record (postAt record.records i).id action true pi =
    some (resultFlags record true bsc, bsc.pi)

/-- A post that is found is the right one, and so are its flags, if and only if … -/
theorem navigates_iff_of_found {action : Action} {pi : PostInfo} {later : Prop}
    {bsc : SearchCallback} (ascending : record.records.Pairwise (·.id < ·.id))
    (inside : i < record.records.length) (here : t < record.records.length)
    (ends : Ends record i action pi bsc) (found : Found record t later bsc) :
    Navigates record i action pi ↔ Wanted record.records i action t ∧
      OpensRight record.records t ∧ (later ↔ HasLater record.records t) := by
  classical
  obtain ⟨positive, first, last, opens, none⟩ := flagsOf_bits (decide later) (t = 0)
    (t + 1 = record.records.length)
    ((postAt record.records t).id = (postAt record.records t).threadId)
  rw [← resultFlags_eq found] at positive first last opens none
  rw [decide_eq_true_eq] at first last opens
  rw [decide_eq_false_iff_not] at none
  constructor
  · rintro ⟨result, same, reports, shows_⟩
    obtain rfl := Option.some.inj (ends.symm.trans same)
    obtain ⟨q, wanted⟩ := reports.mp positive
    have right := shows_ q wanted
    have ids := congrArg PostInfo.id (found.info.symm.trans right.info)
    obtain rfl := id_inj ascending here (wanted_inside inside wanted) ids
    exact ⟨wanted, opens.symm.trans right.threadFirst,
      not_iff_not.mp (none.symm.trans right.threadLast)⟩
  · rintro ⟨wanted, opensRight, same⟩
    refine ⟨_, ends, iff_of_true positive ⟨t, wanted⟩, fun q also => ?_⟩
    obtain rfl := wanted_unique wanted also
    exact ⟨found.info, first, last, opens.trans opensRight, none.trans (not_congr same)⟩

/-- A failure is right if nothing is wanted. -/
theorem navigates_iff_of_missing {action : Action} {pi : PostInfo} {bsc : SearchCallback}
    (ends : Ends record i action pi bsc) (missing : bsc.found = false) (flags : bsc.flags = 0) :
    Navigates record i action pi ↔ ∀ q, ¬Wanted record.records i action q := by
  have zero : resultFlags record true bsc = 0 := by
    unfold resultFlags
    simp only [missing, flags, Bool.false_and, Bool.false_eq_true, if_false]
    decide
  have notPositive : ¬(0 : Int32) < 0 := by decide
  constructor
  · rintro ⟨result, same, reports, -⟩ q wanted
    obtain rfl := Option.some.inj (ends.symm.trans same)
    have positive := reports.mpr ⟨q, wanted⟩
    rw [zero] at positive
    exact absurd positive notPositive
  · intro nothing
    refine ⟨_, ends, ?_, fun q wanted => absurd wanted (nothing q)⟩
    rw [zero]
    exact iff_of_false notPositive fun ⟨q, wanted⟩ => nothing q wanted

/-! ## The two scans -/

def firstScan (record : RecordFile PostRecord) (pid : PostId) (action : Action) (pi : PostInfo) :
    SearchCallback :=
  run searchPidCallback (searchStart pid action pi) record.reverseEntries

/-- The first scan needs positions that are `int`s. -/
def ScanFits (record : RecordFile PostRecord) : Prop :=
  (record.records.length - record.block) * record.rlen < 2 ^ 31

instance : Decidable (ScanFits record) :=
  inferInstanceAs (Decidable (_ < _))

theorem search_eq (record : RecordFile PostRecord) (pid : PostId) (action : Action)
    (pi : PostInfo) :
    search record pid action true pi =
      if ScanFits record then
        (followUp record true (firstScan record pid action pi)).map
          fun bsc => (resultFlags record true bsc, bsc.pi)
      else none := by
  rw [search, recordReverseForeach_eq]
  change Option.map _ (Option.bind (if ScanFits record then _ else none) _) = _
  by_cases scanFits : ScanFits record
  · rw [if_pos scanFits, if_pos scanFits, Option.bind_some, state_visitAll_start]
    rfl
  · rw [if_neg scanFits, if_neg scanFits]
    rfl

/-- A post is not before itself, so a scan for it does not move back. -/
theorem postAt_keeps (here : t < record.records.length) :
    ∀ other ∈ some (postAt record.records t), ∃ pr,
      record.records[t]? = some pr ∧ postRecordCmp pr other ≤ 0 := by
  intro other same
  obtain rfl := Option.some.inj same
  refine ⟨_, getElem?_postAt here, ?_⟩
  rw [postRecordCmp, if_neg Int64.lt_irrefl, if_pos rfl]

/-- The second scan begins at the record that has been found. -/
theorem followUp_saved {bsc : SearchCallback} (here : t < record.records.length) :
    followUp record true (saveResult (postAt record.records t) bsc t) =
      if t * record.rlen < 2 ^ 31 then
        some (run searchNext { saveResult (postAt record.records t) bsc t with
          found := !(bsc.action = .newer ∨ bsc.action = .threadNext) } (record.entriesFrom t))
      else none := by
  unfold followUp
  rw [if_pos (show (saveResult (postAt record.records t) bsc t).found = true from rfl),
    if_pos (.inr (.inr rfl))]
  simp only [saveResult, Int.toNat_natCast]
  rw [recordForeach_at _ _ (postAt_keeps here)]
  split
  · rw [Option.map_some, state_visitAll_start]
    rfl
  · rfl

/-- No later post of the thread is seen. -/
theorem run_searchNext_none {bsc : SearchCallback} (notNewer : bsc.action ≠ .newer)
    (nothing : ∀ j, t ≤ j → j < record.records.length →
      ¬((postAt record.records j).id > bsc.pid ∧ (postAt record.records j).threadId = bsc.tid)) :
    run searchNext bsc (record.entriesFrom t) = bsc := by
  refine run_of_unchanged fun entry member => ?_
  obtain ⟨above, found⟩ := mem_entriesFrom.mp member
  have inside := (List.getElem?_eq_some_iff.mp found).1
  have other := nothing entry.2 above inside
  rw [postAt_of_getElem? found] at other
  unfold searchNext
  simp only [if_neg (fun both : _ ∧ _ => notNewer both.1), if_neg other]

/-- The first later post of the thread ends the scan. -/
theorem run_searchNext_some {bsc : SearchCallback} (notNewer : bsc.action ≠ .newer)
    (above : t ≤ q) (inside : q < record.records.length)
    (here : (postAt record.records q).id > bsc.pid ∧
      (postAt record.records q).threadId = bsc.tid)
    (first : ∀ j, t ≤ j → j < q →
      ¬((postAt record.records j).id > bsc.pid ∧ (postAt record.records j).threadId = bsc.tid)) :
    run searchNext bsc (record.entriesFrom t) =
      let bsc := if bsc.action = .threadNext then saveResult (postAt record.records q) bsc q
        else bsc
      { bsc with flags := bsc.flags ||| notThreadLastPost } := by
  obtain ⟨before, split, earlier⟩ := entriesFrom_split record above (getElem?_postAt inside)
  have skips : ∀ entry ∈ before, searchNext bsc entry = (.next, bsc) := by
    intro entry member
    obtain ⟨low, high, found⟩ := earlier entry member
    have other := first entry.2 low high
    rw [postAt_of_getElem? found] at other
    unfold searchNext
    simp only [if_neg (fun both : _ ∧ _ => notNewer both.1), if_neg other]
  rw [split, run_append_of_skips skips, run]
  unfold searchNext
  simp only [if_neg (fun both : _ ∧ _ => notNewer both.1), if_pos here]

/-- A later post of the thread of one post, behind another post. -/
def LaterThan (records : List PostRecord) (i t : Nat) : Prop :=
  ∃ j, t ≤ j ∧ i < j ∧ j < records.length ∧ SameThread records j t

/-- What `search_next` finds for the actions that have found their post. -/
theorem exists_followUp {bsc : SearchCallback} (ascending : record.records.Pairwise (·.id < ·.id))
    (inside : i < record.records.length) (here : t < record.records.length)
    (notNewer : bsc.action ≠ .newer) (notNext : bsc.action ≠ .threadNext) (flags : bsc.flags = 0)
    (pid : bsc.pid = (postAt record.records i).id) (fits : t * record.rlen < 2 ^ 31) :
    ∃ after, followUp record true (saveResult (postAt record.records t) bsc t) = some after ∧
      Found record t (LaterThan record.records i t) after := by
  classical
  rw [followUp_saved here, if_pos fits]
  refine ⟨_, rfl, ?_⟩
  have isLater : ∀ j, j < record.records.length →
      ((postAt record.records j).id > bsc.pid ∧
        (postAt record.records j).threadId = (postAt record.records t).threadId ↔
      i < j ∧ SameThread record.records j t) := by
    intro j inFile
    rw [pid]
    exact and_congr_left' (lt_iff_id_lt ascending inside inFile)
  have kept : (!decide (bsc.action = .newer ∨ bsc.action = .threadNext)) = true := by
    rw [Bool.not_eq_true', decide_eq_false_iff_not, not_or]
    exact ⟨notNewer, notNext⟩
  obtain ⟨started, isStarted⟩ : ∃ started : SearchCallback, started =
      { saveResult (postAt record.records t) bsc t with
        found := !decide (bsc.action = .newer ∨ bsc.action = .threadNext) } := ⟨_, rfl⟩
  have action : started.action = bsc.action := by rw [isStarted]; rfl
  have startedPid : started.pid = bsc.pid := by rw [isStarted]; rfl
  have tid : started.tid = (postAt record.records t).threadId := by rw [isStarted]; rfl
  rw [← isStarted]
  rw [← action] at notNewer notNext
  rw [← startedPid, ← tid] at isLater
  by_cases later : LaterThan record.records i t
  · obtain ⟨above, behind, inFile, same⟩ := Nat.find_spec later
    have earlier : ∀ j, t ≤ j → j < Nat.find later →
        ¬((postAt record.records j).id > started.pid ∧
          (postAt record.records j).threadId = started.tid) := by
      intro j low less isOne
      obtain ⟨high, sameThread⟩ := (isLater j (less.trans inFile)).mp isOne
      exact Nat.find_min later less ⟨low, high, less.trans inFile, sameThread⟩
    rw [run_searchNext_some notNewer above inFile ((isLater _ inFile).mpr ⟨behind, same⟩) earlier]
    simp only [if_neg notNext]
    rw [isStarted]
    refine ⟨kept, rfl, rfl, .inl ⟨later, ?_⟩⟩
    simp only [saveResult, flags]
    decide
  · rw [run_searchNext_none notNewer fun j low inFile isOne => later
      ⟨j, low, ((isLater j inFile).mp isOne).1, inFile, ((isLater j inFile).mp isOne).2⟩,
      isStarted]
    exact ⟨kept, rfl, rfl, .inr ⟨later, flags⟩⟩

theorem laterThan_self (records : List PostRecord) (i : Nat) :
    LaterThan records i i ↔ HasLater records i := by
  constructor
  · rintro ⟨j, -, behind, inside, same⟩
    exact ⟨j, behind, inside, same⟩
  · rintro ⟨j, behind, inside, same⟩
    exact ⟨j, behind.le, behind, inside, same⟩

/-- The first time that the first scan comes to a record. -/
theorem reverseEntries_at (inside : i < record.records.length) :
    ∃ before, record.reverseEntries =
        before ++ (postAt record.records i, i) :: record.behind i ∧
      ∀ entry ∈ before, i < entry.2 ∧ entry.2 < record.records.length ∧
        entry.1 = postAt record.records entry.2 := by
  obtain ⟨before, split, later⟩ := reverseEntries_split (getElem?_postAt inside)
  refine ⟨before, split, fun entry member => ?_⟩
  have found : record.records[entry.2]? = some entry.1 :=
    mem_reverseEntries (by rw [split]; exact List.mem_append_left _ member)
  exact ⟨later entry member, (List.getElem?_eq_some_iff.mp found).1,
    (postAt_of_getElem? found).symm⟩

/-- A scan that looks for a post finds it. -/
theorem firstScan_other {action : Action} (pi : PostInfo)
    (ascending : record.records.Pairwise (·.id < ·.id)) (inside : i < record.records.length)
    (notOlder : action ≠ .older) (notPrev : action ≠ .threadPrev) :
    firstScan record (postAt record.records i).id action pi =
      saveResult (postAt record.records i)
        (searchStart (postAt record.records i).id action pi) i := by
  have callback : ∀ entry, searchPidCallback
      (searchStart (postAt record.records i).id action pi) entry =
      if entry.1.id ≤ (postAt record.records i).id then
        (.stop, if entry.1.id = (postAt record.records i).id then
          saveResult entry.1 (searchStart (postAt record.records i).id action pi) entry.2
          else searchStart (postAt record.records i).id action pi)
      else (.next, searchStart (postAt record.records i).id action pi) := by
    intro entry
    cases action with
    | older => exact absurd rfl notOlder
    | threadPrev => exact absurd rfl notPrev
    | post => rfl
    | newer => rfl
    | threadNext => rfl
  obtain ⟨before, split, later⟩ := reverseEntries_at inside
  rw [firstScan, split, run_append_of_skips, run, callback, if_pos (Int64.le_refl _),
    if_pos rfl]
  intro entry member
  obtain ⟨behind, inFile, isPost⟩ := later entry member
  rw [callback, if_neg]
  rw [isPost, Int64.not_le]
  exact (lt_iff_id_lt ascending inside inFile).mpr behind

theorem not_navigates_of_none {action : Action} {pi : PostInfo}
    (overflow : search record (postAt record.records i).id action true pi = none) :
    ¬Navigates record i action pi := by
  rintro ⟨result, some, -⟩
  rw [overflow] at some
  cases some

theorem ends_of_followUp {action : Action} {pi : PostInfo} {bsc : SearchCallback}
    (scanFits : ScanFits record)
    (followed : followUp record true
      (firstScan record (postAt record.records i).id action pi) = some bsc) :
    Ends record i action pi bsc := by
  rw [Ends, search_eq, if_pos scanFits, followed]
  rfl

/-- The right result needs positions that are `int`s. -/
theorem scanFits_of_navigates {action : Action} {pi : PostInfo}
    (navigates : Navigates record i action pi) : ScanFits record := by
  by_contra overflow
  refine not_navigates_of_none ?_ navigates
  rw [search_eq, if_neg overflow]

/-- The second scan cannot begin at a position that is no `int`. -/
theorem not_navigates_of_overflow {action : Action} {pi : PostInfo} {bsc : SearchCallback}
    (here : t < record.records.length)
    (scan : firstScan record (postAt record.records i).id action pi =
      saveResult (postAt record.records t) bsc t) (overflow : ¬t * record.rlen < 2 ^ 31) :
    ¬Navigates record i action pi := by
  refine not_navigates_of_none ?_
  rw [search_eq, scan, followUp_saved here, if_neg overflow]
  split <;> rfl

/-- A first scan that finds a post, for the actions that keep it. -/
theorem navigates_iff_of_saved {action : Action} {pi : PostInfo} {bsc : SearchCallback}
    (ascending : record.records.Pairwise (·.id < ·.id)) (inside : i < record.records.length)
    (here : t < record.records.length)
    (scan : firstScan record (postAt record.records i).id action pi =
      saveResult (postAt record.records t) bsc t)
    (notNewer : bsc.action ≠ .newer) (notNext : bsc.action ≠ .threadNext) (flags : bsc.flags = 0)
    (pid : bsc.pid = (postAt record.records i).id) :
    Navigates record i action pi ↔ ScanFits record ∧ t * record.rlen < 2 ^ 31 ∧
      Wanted record.records i action t ∧ OpensRight record.records t ∧
      (LaterThan record.records i t ↔ HasLater record.records t) := by
  by_cases scanFits : ScanFits record
  · by_cases fits : t * record.rlen < 2 ^ 31
    · obtain ⟨after, followed, found⟩ :=
        exists_followUp ascending inside here notNewer notNext flags pid fits
      rw [← scan] at followed
      rw [navigates_iff_of_found ascending inside here (ends_of_followUp scanFits followed) found,
        and_iff_right scanFits, and_iff_right fits]
    · exact iff_of_false (not_navigates_of_overflow here scan fits) fun right => fits right.2.1
  · exact iff_of_false (fun navigates => scanFits (scanFits_of_navigates navigates))
      fun right => scanFits right.1

/-- A first scan that finds nothing. -/
theorem navigates_iff_of_unsaved {action : Action} {pi : PostInfo} {bsc : SearchCallback}
    (scan : firstScan record (postAt record.records i).id action pi = bsc)
    (missing : bsc.found = false) (flags : bsc.flags = 0) :
    Navigates record i action pi ↔
      ScanFits record ∧ ∀ q, ¬Wanted record.records i action q := by
  by_cases scanFits : ScanFits record
  · rw [and_iff_right scanFits]
    have ends : Ends record i action pi { bsc with pi := blankInfo } := by
      refine ends_of_followUp scanFits ?_
      rw [scan, followUp, missing]
      rfl
    exact navigates_iff_of_missing ends missing flags
  · exact iff_of_false (fun navigates => scanFits (scanFits_of_navigates navigates))
      fun right => scanFits right.1

theorem navigates_post_iff {pi : PostInfo} (ascending : record.records.Pairwise (·.id < ·.id))
    (inside : i < record.records.length) :
    Navigates record i .post pi ↔
      ScanFits record ∧ i * record.rlen < 2 ^ 31 ∧ OpensRight record.records i := by
  have scan : firstScan record (postAt record.records i).id .post pi = _ :=
    firstScan_other pi ascending inside (by decide) (by decide)
  rw [navigates_iff_of_saved ascending inside inside scan (show Action.post ≠ .newer by decide)
    (show Action.post ≠ .threadNext by decide) rfl rfl, laterThan_self]
  exact ⟨fun right => ⟨right.1, right.2.1, right.2.2.2.1⟩,
    fun right => ⟨right.1, right.2.1, rfl, right.2.2, Iff.rfl⟩⟩

/-- The place at which the first block is read again. -/
def ReadAgain (record : RecordFile PostRecord) (i : Nat) : Prop :=
  record.block < record.records.length ∧ i = record.records.length % record.block

theorem searchPidCallback_older {bsc : SearchCallback} (action : bsc.action = .older)
    (entry : PostRecord × Nat) :
    searchPidCallback bsc entry =
      if bsc.offset ≥ 0 then (.stop, saveResult entry.1 bsc entry.2)
      else if entry.1.id = bsc.pid then (.next, { bsc with offset := entry.2 })
      else (.next, bsc) := by
  unfold searchPidCallback
  rw [action]

/-- What the first scan for the older post does behind the post itself. -/
theorem firstScan_older (pi : PostInfo) (ascending : record.records.Pairwise (·.id < ·.id))
    (inside : i < record.records.length) :
    firstScan record (postAt record.records i).id .older pi =
      run searchPidCallback
        { searchStart (postAt record.records i).id .older pi with offset := i }
        (record.behind i) := by
  obtain ⟨before, split, later⟩ := reverseEntries_at inside
  have unseen : ¬(searchStart (postAt record.records i).id .older pi).offset ≥ 0 := by
    change ¬(-1 : Int) ≥ 0
    decide
  rw [firstScan, split, run_append_of_skips, run, searchPidCallback_older rfl, if_neg unseen]
  · simp only [searchStart, if_true]
  intro entry member
  obtain ⟨behind, inFile, isPost⟩ := later entry member
  have other : ¬entry.1.id = (postAt record.records i).id := by
    intro same
    rw [isPost] at same
    exact Nat.ne_of_gt behind (id_inj ascending inFile inside same)
  rw [searchPidCallback_older rfl, if_neg unseen]
  exact if_neg other

/-- The record that is read behind a post is taken for the older one. -/
theorem firstScan_older_cons (pi : PostInfo) {after : List (PostRecord × Nat)}
    (ascending : record.records.Pairwise (·.id < ·.id)) (inside : i < record.records.length)
    (split : record.behind i = (postAt record.records t, t) :: after) :
    firstScan record (postAt record.records i).id .older pi =
      saveResult (postAt record.records t)
        { searchStart (postAt record.records i).id .older pi with offset := i } t := by
  rw [firstScan_older pi ascending inside, split, run, searchPidCallback_older rfl,
    if_pos (Int.natCast_nonneg i)]

/-- Behind the younger of two posts, a post of the older one's thread is missed only if it is
the younger one. -/
theorem laterThan_pred_iff {records : List PostRecord} (inside : q + 1 < records.length) :
    (LaterThan records (q + 1) q ↔ HasLater records q) ↔
      (SameThread records (q + 1) q → HasLater records (q + 1)) := by
  constructor
  · intro same next
    obtain ⟨j, -, behind, inFile, isSame⟩ := same.mpr ⟨q + 1, Nat.lt_succ_self q, inside, next⟩
    exact ⟨j, behind, inFile, Eq.trans isSame (Eq.symm next)⟩
  · intro has
    constructor
    · rintro ⟨j, -, behind, inFile, same⟩
      exact ⟨j, Nat.lt_of_succ_lt behind, inFile, same⟩
    · rintro ⟨j, behind, inFile, same⟩
      rcases Nat.lt_or_eq_of_le (Nat.succ_le_of_lt behind) with later | rfl
      · exact ⟨j, behind.le, later, inFile, same⟩
      · obtain ⟨k, after, inside, again⟩ := has same
        exact ⟨k, Nat.le_of_succ_le after.le, after, inside, Eq.trans again same⟩

theorem navigates_older_iff {pi : PostInfo} (ascending : record.records.Pairwise (·.id < ·.id))
    (inside : i < record.records.length) :
    Navigates record i .older pi ↔ ScanFits record ∧ ∀ q, q + 1 = i →
      ¬ReadAgain record i ∧ q * record.rlen < 2 ^ 31 ∧ OpensRight record.records q ∧
        (SameThread record.records i q → HasLater record.records i) := by
  cases i with
  | zero =>
    have scan := firstScan_older pi ascending inside
    rw [behind_zero] at scan
    rw [navigates_iff_of_unsaved scan rfl rfl]
    exact and_congr_right' ⟨fun _ q next => absurd next (Nat.succ_ne_zero q),
      fun _ q => Nat.succ_ne_zero q⟩
  | succ q =>
    have before : q < record.records.length := Nat.lt_of_succ_lt inside
    by_cases again : ReadAgain record (q + 1)
    · -- the last record of the first block comes next
      obtain ⟨several, rest⟩ := again
      have positive := record.block_pos
      have last : record.block - 1 < record.records.length := by omega
      have split : record.behind (q + 1) =
          (postAt record.records (record.block - 1), record.block - 1) ::
            record.entriesDown 0 (record.block - 1) := by
        rw [rest, behind_rest several (by omega),
          entriesDown_split record (Nat.zero_le _) (by omega : record.block - 1 < record.block)
            several.le (getElem?_postAt last),
          Nat.sub_add_cancel positive, entriesDown_self, List.nil_append]
      have scan := firstScan_older_cons pi ascending inside split
      rw [navigates_iff_of_saved ascending inside last scan
        (show Action.older ≠ .newer by decide) (show Action.older ≠ .threadNext by decide) rfl
        rfl]
      have small := Nat.mod_lt record.records.length positive
      refine iff_of_false (fun right => ?_) fun right => (right.2 q rfl).1 ⟨several, rest⟩
      have next : record.block - 1 + 1 = q + 1 := right.2.2.1
      omega
    · obtain ⟨after, split⟩ := behind_eq inside.le again (getElem?_postAt before)
      have scan := firstScan_older_cons pi ascending inside split
      rw [navigates_iff_of_saved ascending inside before scan
        (show Action.older ≠ .newer by decide) (show Action.older ≠ .threadNext by decide) rfl
        rfl]
      rw [laterThan_pred_iff inside]
      constructor
      · rintro ⟨scanFits, fits, -, opens, same⟩
        refine ⟨scanFits, fun other next => ?_⟩
        obtain rfl := Nat.succ_injective next
        exact ⟨again, fits, opens, same⟩
      · rintro ⟨scanFits, right⟩
        obtain ⟨-, fits, opens, same⟩ := right q rfl
        exact ⟨scanFits, fits, rfl, opens, same⟩

theorem zero_or_notThreadLastPost : 0 ||| notThreadLastPost = notThreadLastPost := by
  decide

theorem exists_wanted_threadNext {records : List PostRecord} (has : HasLater records i) :
    ∃ q, Wanted records i .threadNext q := by
  classical
  obtain ⟨behind, inFile, same⟩ := Nat.find_spec has
  exact ⟨Nat.find has, behind, inFile, same, fun j after less isSame =>
    Nat.find_min has less ⟨after, less.trans inFile, isSame⟩⟩

/-- The state in front of the second scan for a post behind another one. -/
def moving (record : RecordFile PostRecord) (i : Nat) (action : Action) (pi : PostInfo) :
    SearchCallback :=
  { saveResult (postAt record.records i)
      (searchStart (postAt record.records i).id action pi) i with found := false }

theorem followUp_moving {action : Action} {pi : PostInfo} (inside : i < record.records.length)
    (moves : action = .newer ∨ action = .threadNext) (fits : i * record.rlen < 2 ^ 31) :
    followUp record true (saveResult (postAt record.records i)
        (searchStart (postAt record.records i).id action pi) i) =
      some (run searchNext (moving record i action pi) (record.entriesFrom i)) := by
  have unfound : (!decide ((searchStart (postAt record.records i).id action pi).action = .newer ∨
      (searchStart (postAt record.records i).id action pi).action = .threadNext)) = false := by
    rw [Bool.not_eq_false', decide_eq_true_eq]
    exact moves
  rw [followUp_saved inside, if_pos fits, unfound]
  rfl

/-- The second scan decides where a post behind another one is sought. -/
theorem navigates_iff_of_moved {action : Action} {pi : PostInfo}
    (ascending : record.records.Pairwise (·.id < ·.id)) (inside : i < record.records.length)
    (moves : action = .newer ∨ action = .threadNext)
    (reaches : ∀ q, Wanted record.records i action q →
      Found record q True (run searchNext (moving record i action pi) (record.entriesFrom i)))
    (misses : (∀ q, ¬Wanted record.records i action q) →
      run searchNext (moving record i action pi) (record.entriesFrom i) =
        moving record i action pi) :
    Navigates record i action pi ↔ ScanFits record ∧ i * record.rlen < 2 ^ 31 ∧
      ∀ q, Wanted record.records i action q →
        OpensRight record.records q ∧ HasLater record.records q := by
  have scan := firstScan_other pi ascending inside
    (show action ≠ .older by rcases moves with rfl | rfl <;> decide)
    (show action ≠ .threadPrev by rcases moves with rfl | rfl <;> decide)
  by_cases scanFits : ScanFits record
  · by_cases fits : i * record.rlen < 2 ^ 31
    · have ends : Ends record i action pi _ :=
        ends_of_followUp scanFits (by rw [scan]; exact followUp_moving inside moves fits)
      rw [and_iff_right scanFits, and_iff_right fits]
      by_cases some : ∃ q, Wanted record.records i action q
      · obtain ⟨q, wanted⟩ := some
        rw [navigates_iff_of_found ascending inside (wanted_inside inside wanted) ends
          (reaches q wanted), true_iff]
        constructor
        · rintro ⟨-, right⟩ other also
          obtain rfl := wanted_unique wanted also
          exact right
        · exact fun right => ⟨wanted, right q wanted⟩
      · have nothing := not_exists.mp some
        rw [misses nothing] at ends
        rw [navigates_iff_of_missing ends rfl rfl]
        exact iff_of_true nothing fun q wanted => absurd wanted (nothing q)
    · exact iff_of_false (not_navigates_of_overflow inside scan fits) fun right => fits right.2.1
  · exact iff_of_false (fun navigates => scanFits (scanFits_of_navigates navigates))
      fun right => scanFits right.1

theorem navigates_newer_iff {pi : PostInfo} (ascending : record.records.Pairwise (·.id < ·.id))
    (inside : i < record.records.length) :
    Navigates record i .newer pi ↔ ScanFits record ∧ i * record.rlen < 2 ^ 31 ∧
      ∀ q, Wanted record.records i .newer q →
        OpensRight record.records q ∧ HasLater record.records q := by
  have self : searchNext (moving record i .newer pi) (postAt record.records i, i) =
      (.next, moving record i .newer pi) := by
    unfold searchNext
    simp only [moving, saveResult, searchStart, gt_iff_lt, Int64.lt_irrefl, Int.lt_irrefl,
      and_false, false_and, if_false]
  refine navigates_iff_of_moved ascending inside (.inl rfl) ?_ ?_
  · rintro q ⟨rfl, next⟩
    have newer : (postAt record.records (i + 1)).id > (postAt record.records i).id :=
      (lt_iff_id_lt ascending inside next).mpr (Nat.lt_succ_self i)
    have behind : ((i + 1 : Nat) : Int) > (i : Int) := by omega
    have found : searchNext (moving record i .newer pi) (postAt record.records (i + 1), i + 1) =
        (.stop, { saveResult (postAt record.records (i + 1)) (moving record i .newer pi) (i + 1)
          with flags := 0 ||| notThreadLastPost }) := by
      unfold searchNext
      simp only [moving, saveResult, searchStart, behind, newer, and_self, if_true]
      rfl
    rw [entriesFrom_cons record (getElem?_postAt inside),
      entriesFrom_cons record (getElem?_postAt next), run, self]
    simp only
    rw [run, found]
    exact ⟨rfl, rfl, rfl, .inl ⟨trivial, zero_or_notThreadLastPost⟩⟩
  · intro nothing
    have last : record.records.length ≤ i + 1 :=
      Nat.le_of_not_lt fun next => nothing (i + 1) ⟨rfl, next⟩
    rw [entriesFrom_cons record (getElem?_postAt inside), entriesFrom_of_le last, run, self]
    rfl

theorem navigates_threadNext_iff {pi : PostInfo}
    (ascending : record.records.Pairwise (·.id < ·.id)) (inside : i < record.records.length) :
    Navigates record i .threadNext pi ↔ ScanFits record ∧ i * record.rlen < 2 ^ 31 ∧
      ∀ q, Wanted record.records i .threadNext q →
        OpensRight record.records q ∧ HasLater record.records q := by
  have isNext : ∀ j, j < record.records.length →
      ((postAt record.records j).id > (moving record i .threadNext pi).pid ∧
        (postAt record.records j).threadId = (moving record i .threadNext pi).tid ↔
      i < j ∧ SameThread record.records j i) :=
    fun j inFile => and_congr_left' (lt_iff_id_lt ascending inside inFile)
  refine navigates_iff_of_moved ascending inside (.inr rfl) ?_ ?_
  · rintro q ⟨behind, inFile, same, first⟩
    rw [run_searchNext_some (show Action.threadNext ≠ .newer by decide) behind.le inFile
      ((isNext q inFile).mpr ⟨behind, same⟩)]
    · exact ⟨rfl, rfl, rfl, .inl ⟨trivial, zero_or_notThreadLastPost⟩⟩
    · intro j low less isOne
      obtain ⟨high, sameThread⟩ := (isNext j (less.trans inFile)).mp isOne
      exact first j high less sameThread
  · intro nothing
    refine run_searchNext_none (show Action.threadNext ≠ .newer by decide) ?_
    intro j low inFile isOne
    obtain ⟨high, sameThread⟩ := (isNext j inFile).mp isOne
    obtain ⟨q, wanted⟩ := exists_wanted_threadNext ⟨j, high, inFile, sameThread⟩
    exact nothing q wanted

theorem searchPidCallback_threadPrev {bsc : SearchCallback} (action : bsc.action = .threadPrev)
    (entry : PostRecord × Nat) :
    searchPidCallback bsc entry =
      if entry.1.id ≤ bsc.tid then
        (.stop, if entry.1.id = bsc.tid then saveResult entry.1 bsc entry.2 else bsc)
      else if entry.1.id = bsc.pid then (.next, { bsc with tid := entry.1.threadId })
      else (.next, bsc) := by
  unfold searchPidCallback
  rw [action]

/-- The scan for an id: nothing but the state's own thread is stored on the way. -/
structure Seeks (bsc : SearchCallback) (entries : List (PostRecord × Nat)) : Prop where
  action : bsc.action = .threadPrev
  keeps : ∀ entry ∈ entries, bsc.tid < entry.1.id → entry.1.id = bsc.pid →
    entry.1.threadId = bsc.tid

theorem skip_of_seeks {bsc : SearchCallback} {entries : List (PostRecord × Nat)}
    (seeks : Seeks bsc entries) {entry : PostRecord × Nat} (member : entry ∈ entries)
    (above : bsc.tid < entry.1.id) : searchPidCallback bsc entry = (.next, bsc) := by
  rw [searchPidCallback_threadPrev seeks.action, if_neg (Int64.not_le.mpr above)]
  split
  · next isPid => rw [seeks.keeps entry member above isPid]
  · rfl

/-- Without a post of that id, nothing is stored. -/
theorem run_of_absent {bsc : SearchCallback} {entries : List (PostRecord × Nat)}
    (seeks : Seeks bsc entries) (absent : ∀ entry ∈ entries, entry.1.id ≠ bsc.tid) :
    run searchPidCallback bsc entries = bsc := by
  refine run_of_unchanged fun entry member => ?_
  by_cases above : bsc.tid < entry.1.id
  · rw [skip_of_seeks seeks member above]
  · rw [searchPidCallback_threadPrev seeks.action, if_pos (Int64.not_lt.mp above),
      if_neg (absent entry member)]

/-- The post of that id is stored where it comes before all older ones. -/
theorem run_of_present {bsc : SearchCallback} {before after : List (PostRecord × Nat)}
    {entry : PostRecord × Nat} (seeks : Seeks bsc before) (isTid : entry.1.id = bsc.tid)
    (above : ∀ other ∈ before, bsc.tid < other.1.id) :
    run searchPidCallback bsc (before ++ entry :: after) = saveResult entry.1 bsc entry.2 := by
  rw [run_append_of_skips fun other member => skip_of_seeks seeks member (above other member), run,
    searchPidCallback_threadPrev seeks.action, if_pos (Int64.le_of_eq isTid), if_pos isTid]

/-- The state behind the post itself: its thread is what is sought. -/
def seeking (record : RecordFile PostRecord) (i : Nat) (pi : PostInfo) : SearchCallback :=
  { searchStart (postAt record.records i).id .threadPrev pi with
    tid := (postAt record.records i).threadId }

/-- What the first scan for the previous post of the thread does behind the post itself. -/
theorem firstScan_threadPrev (pi : PostInfo)
    (ascending : record.records.Pairwise (·.id < ·.id)) (inside : i < record.records.length)
    (positive : 0 < (postAt record.records i).id) :
    firstScan record (postAt record.records i).id .threadPrev pi =
      run searchPidCallback (seeking record i pi) (record.behind i) := by
  obtain ⟨before, split, later⟩ := reverseEntries_at inside
  have newer : ∀ entry ∈ before, (postAt record.records i).id < entry.1.id := by
    intro entry member
    obtain ⟨behind, inFile, isPost⟩ := later entry member
    rw [isPost]
    exact (lt_iff_id_lt ascending inside inFile).mpr behind
  have seeks : Seeks (searchStart (postAt record.records i).id .threadPrev pi) before :=
    ⟨rfl, fun entry member _ isPid => absurd isPid (Int64.ne_of_lt (newer entry member)).symm⟩
  rw [firstScan, split, run_append_of_skips fun entry member =>
    skip_of_seeks seeks member (Int64.lt_trans positive (newer entry member)), run,
    searchPidCallback_threadPrev rfl,
    if_neg (show ¬(postAt record.records i, i).1.id ≤
      (searchStart (postAt record.records i).id .threadPrev pi).tid from
        Int64.not_le.mpr positive)]
  simp only [searchStart, if_true, seeking]

theorem seeks_behind {pi : PostInfo} (ascending : record.records.Pairwise (·.id < ·.id))
    (inside : i < record.records.length) {entries : List (PostRecord × Nat)}
    (inFile : ∀ entry ∈ entries, record.records[entry.2]? = some entry.1) :
    Seeks (seeking record i pi) entries := by
  refine ⟨rfl, fun entry member _ isPid => ?_⟩
  have found := inFile entry member
  have isPost := postAt_of_getElem? found
  rw [← isPost] at isPid ⊢
  rw [id_inj ascending (List.getElem?_eq_some_iff.mp found).1 inside isPid]
  rfl

/-- The condition for the previous post of the thread. -/
def ReachesPrevious (record : RecordFile PostRecord) (i : Nat) : Prop :=
  let post := postAt record.records i
  if post.id ≤ 0 then
    (∀ j < record.records.length, (postAt record.records j).id ≠ 0) ∧
      ∀ q, ¬Wanted record.records i .threadPrev q
  else if post.threadId < post.id then
    (∃ t < record.records.length, (postAt record.records t).id = post.threadId ∧
        t * record.rlen < 2 ^ 31 ∧ Wanted record.records i .threadPrev t ∧
        OpensRight record.records t ∧ HasLater record.records i) ∨
      (∀ t < record.records.length, (postAt record.records t).id ≠ post.threadId) ∧
        ∀ q, ¬Wanted record.records i .threadPrev q
  else
    ¬(ReadAgain record i ∧ 0 < i ∧
        ∃ t < record.block, (postAt record.records t).id = post.threadId) ∧
      ∀ q, ¬Wanted record.records i .threadPrev q

/-- A post whose id is not positive is not found as such: the scan stops at the id 0. -/
theorem navigates_threadPrev_low {pi : PostInfo}
    (ascending : record.records.Pairwise (·.id < ·.id)) (inside : i < record.records.length)
    (low : (postAt record.records i).id ≤ 0) :
    Navigates record i .threadPrev pi ↔ ScanFits record ∧
      (∀ j < record.records.length, (postAt record.records j).id ≠ 0) ∧
      ∀ q, ¬Wanted record.records i .threadPrev q := by
  have seeks : Seeks (searchStart (postAt record.records i).id .threadPrev pi)
      record.reverseEntries :=
    ⟨rfl, fun entry _ above isPid => absurd (isPid ▸ low) (Int64.not_le.mpr above)⟩
  by_cases present : ∃ t < record.records.length, (postAt record.records t).id = 0
  · obtain ⟨t, here, zero⟩ := present
    refine iff_of_false (fun navigates => ?_) fun right => right.2.1 t here zero
    obtain ⟨before, split, later⟩ := reverseEntries_at here
    have scan : firstScan record (postAt record.records i).id .threadPrev pi =
        saveResult (postAt record.records t)
          (searchStart (postAt record.records i).id .threadPrev pi) t := by
      rw [firstScan, split]
      refine run_of_present ⟨rfl, fun entry member => seeks.keeps entry ?_⟩ zero ?_
      · rw [split]
        exact List.mem_append_left _ member
      · intro entry member
        obtain ⟨behind, inFile, isPost⟩ := later entry member
        have above := (lt_iff_id_lt ascending here inFile).mpr behind
        rw [zero, ← isPost] at above
        exact above
    have earlier := ((navigates_iff_of_saved ascending inside here scan
      (show Action.threadPrev ≠ .newer by decide) (show Action.threadPrev ≠ .threadNext by decide)
      rfl rfl).mp navigates).2.2.1.1
    have less := (lt_iff_id_lt ascending here inside).mpr earlier
    rw [zero] at less
    exact absurd low (Int64.not_le.mpr less)
  · have absent : ∀ j < record.records.length, (postAt record.records j).id ≠ 0 :=
      fun j inFile zero => present ⟨j, inFile, zero⟩
    rw [navigates_iff_of_unsaved (run_of_absent seeks fun entry member isZero => ?_) rfl rfl,
      and_iff_right absent]
    have found := mem_reverseEntries member
    exact absent entry.2 (List.getElem?_eq_some_iff.mp found).1
      (by rw [postAt_of_getElem? found]; exact isZero)

/-- Behind a post, the opening post of its thread is found if it is older. -/
theorem navigates_threadPrev_opened {pi : PostInfo}
    (ascending : record.records.Pairwise (·.id < ·.id)) (inside : i < record.records.length)
    (positive : 0 < (postAt record.records i).id)
    (opened : (postAt record.records i).threadId < (postAt record.records i).id) :
    Navigates record i .threadPrev pi ↔ ScanFits record ∧
      ((∃ t < record.records.length,
          (postAt record.records t).id = (postAt record.records i).threadId ∧
          t * record.rlen < 2 ^ 31 ∧ Wanted record.records i .threadPrev t ∧
          OpensRight record.records t ∧ HasLater record.records i) ∨
        (∀ t < record.records.length,
          (postAt record.records t).id ≠ (postAt record.records i).threadId) ∧
        ∀ q, ¬Wanted record.records i .threadPrev q) := by
  have begins := firstScan_threadPrev pi ascending inside positive
  by_cases present : ∃ t < record.records.length,
      (postAt record.records t).id = (postAt record.records i).threadId
  · obtain ⟨t, here, isTid⟩ := present
    have earlier : t < i := by
      rw [← lt_iff_id_lt ascending here inside, isTid]
      exact opened
    obtain ⟨between, after, split, later⟩ := behind_split earlier inside.le (getElem?_postAt here)
    have inFile : ∀ entry ∈ between, record.records[entry.2]? = some entry.1 := by
      intro entry member
      exact mem_behind (by rw [split]; exact List.mem_append_left _ member)
    have scan : firstScan record (postAt record.records i).id .threadPrev pi =
        saveResult (postAt record.records t) (seeking record i pi) t := by
      rw [begins, split]
      refine run_of_present (seeks_behind ascending inside inFile) isTid ?_
      intro entry member
      have found := inFile entry member
      have above := (lt_iff_id_lt ascending here (List.getElem?_eq_some_iff.mp found).1).mpr
        (later entry member)
      rw [isTid, postAt_of_getElem? found] at above
      exact above
    rw [navigates_iff_of_saved ascending inside here scan
      (show Action.threadPrev ≠ .newer by decide) (show Action.threadPrev ≠ .threadNext by decide)
      rfl rfl]
    apply and_congr_right'
    constructor
    · rintro ⟨fits, wanted, opens, same⟩
      obtain ⟨j, -, behind, inFile, sameThread⟩ := same.mpr ⟨i, earlier, inside, wanted.2.1.symm⟩
      exact .inl ⟨t, here, isTid, fits, wanted, opens, j, behind, inFile,
        Eq.trans sameThread wanted.2.1⟩
    · rintro (⟨other, inFile, alsoTid, fits, wanted, opens, j, behind, later, same⟩ | ⟨absent, -⟩)
      · obtain rfl := id_inj ascending here inFile (isTid.trans alsoTid.symm)
        have sameThread := Eq.trans same (Eq.symm wanted.2.1)
        exact ⟨fits, wanted, opens, iff_of_true
          ⟨j, (earlier.trans behind).le, behind, later, sameThread⟩
          ⟨j, earlier.trans behind, later, sameThread⟩⟩
      · exact absurd isTid (absent t here)
  · have absent : ∀ t < record.records.length,
        (postAt record.records t).id ≠ (postAt record.records i).threadId :=
      fun t here isTid => present ⟨t, here, isTid⟩
    have scan : firstScan record (postAt record.records i).id .threadPrev pi =
        seeking record i pi := by
      rw [begins]
      refine run_of_absent (seeks_behind ascending inside fun entry => mem_behind) ?_
      intro entry member isTid
      have found := mem_behind member
      exact absent entry.2 (List.getElem?_eq_some_iff.mp found).1
        (by rw [postAt_of_getElem? found]; exact isTid)
    rw [navigates_iff_of_unsaved scan rfl rfl]
    apply and_congr_right'
    constructor
    · exact fun nothing => .inr ⟨absent, nothing⟩
    · rintro (⟨t, here, isTid, -⟩ | ⟨-, nothing⟩)
      · exact absurd isTid (absent t here)
      · exact nothing

/-- The opening post, or a post of a younger thread. -/
theorem navigates_threadPrev_opening {pi : PostInfo}
    (ascending : record.records.Pairwise (·.id < ·.id)) (inside : i < record.records.length)
    (positive : 0 < (postAt record.records i).id)
    (opening : ¬(postAt record.records i).threadId < (postAt record.records i).id) :
    Navigates record i .threadPrev pi ↔ ScanFits record ∧
      ¬(ReadAgain record i ∧ 0 < i ∧ ∃ t < record.block,
          (postAt record.records t).id = (postAt record.records i).threadId) ∧
      ∀ q, ¬Wanted record.records i .threadPrev q := by
  have begins := firstScan_threadPrev pi ascending inside positive
  have young : (postAt record.records i).id ≤ (postAt record.records i).threadId :=
    Int64.not_lt.mp opening
  have unsaved : ¬(ReadAgain record i ∧ 0 < i ∧ ∃ t < record.block,
        (postAt record.records t).id = (postAt record.records i).threadId) →
      run searchPidCallback (seeking record i pi) (record.behind i) = seeking record i pi := by
    intro notSaved
    cases i with
    | zero =>
      rw [behind_zero]
      rfl
    | succ q =>
      by_cases again : ReadAgain record (q + 1)
      · refine run_of_absent (seeks_behind ascending inside fun entry => mem_behind) ?_
        intro entry member isTid
        have several := again.1
        rw [again.2, behind_rest several (by have := again.2; omega)] at member
        obtain ⟨-, inBlock, found⟩ := mem_entriesDown.mp member
        exact notSaved ⟨again, Nat.succ_pos q, entry.2, inBlock,
          by rw [postAt_of_getElem? found]; exact isTid⟩
      · -- the older post ends the scan
        have before : q < record.records.length := Nat.lt_of_succ_lt inside
        obtain ⟨after, split⟩ := behind_eq inside.le again (getElem?_postAt before)
        have less : (postAt record.records q).id < (postAt record.records (q + 1)).threadId :=
          Int64.lt_of_lt_of_le
            ((lt_iff_id_lt ascending before inside).mpr (Nat.lt_succ_self q)) young
        rw [split, run, searchPidCallback_threadPrev rfl,
          if_pos (show (postAt record.records q, q).1.id ≤ (seeking record (q + 1) pi).tid from
            Int64.le_of_lt less),
          if_neg (show (postAt record.records q, q).1.id ≠ (seeking record (q + 1) pi).tid from
            Int64.ne_of_lt less)]
  by_cases saved : ReadAgain record i ∧ 0 < i ∧ ∃ t < record.block,
      (postAt record.records t).id = (postAt record.records i).threadId
  · refine iff_of_false (fun navigates => ?_) fun right => right.2.1 saved
    obtain ⟨again, notFirst, t, inBlock, isTid⟩ := saved
    obtain ⟨several, rest⟩ := again
    have here : t < record.records.length := inBlock.trans several
    have split : record.behind i = record.entriesDown (t + 1) record.block ++
        (postAt record.records t, t) :: record.entriesDown 0 t := by
      rw [← entriesDown_split record (Nat.zero_le t) inBlock several.le (getElem?_postAt here),
        rest, behind_rest several (by omega)]
    have scan : firstScan record (postAt record.records i).id .threadPrev pi =
        saveResult (postAt record.records t) (seeking record i pi) t := by
      rw [begins, split]
      refine run_of_present (seeks_behind ascending inside
        fun entry member => (mem_entriesDown.mp member).2.2) isTid ?_
      intro entry member
      obtain ⟨later, -, found⟩ := mem_entriesDown.mp member
      have above := (lt_iff_id_lt ascending here (List.getElem?_eq_some_iff.mp found).1).mpr later
      rw [isTid, postAt_of_getElem? found] at above
      exact above
    have earlier := ((navigates_iff_of_saved ascending inside here scan
      (show Action.threadPrev ≠ .newer by decide) (show Action.threadPrev ≠ .threadNext by decide)
      rfl rfl).mp navigates).2.2.1.1
    have less := (lt_iff_id_lt ascending here inside).mpr earlier
    rw [isTid] at less
    exact opening less
  · rw [navigates_iff_of_unsaved (begins.trans (unsaved saved)) rfl rfl, and_iff_right saved]

theorem navigates_threadPrev_iff {pi : PostInfo}
    (ascending : record.records.Pairwise (·.id < ·.id)) (inside : i < record.records.length) :
    Navigates record i .threadPrev pi ↔ ScanFits record ∧ ReachesPrevious record i := by
  unfold ReachesPrevious
  by_cases low : (postAt record.records i).id ≤ 0
  · rw [if_pos low]
    exact navigates_threadPrev_low ascending inside low
  rw [if_neg low]
  have positive := Int64.not_le.mp low
  by_cases opened : (postAt record.records i).threadId < (postAt record.records i).id
  · rw [if_pos opened]
    exact navigates_threadPrev_opened ascending inside positive opened
  · rw [if_neg opened]
    exact navigates_threadPrev_opening ascending inside positive opened

/-- The condition for an action to find its post and the flags of that post. -/
def Reaches (record : RecordFile PostRecord) (i : Nat) : Action → Prop
  | .post => i * record.rlen < 2 ^ 31 ∧ OpensRight record.records i
  | .older => ∀ q, q + 1 = i → ¬ReadAgain record i ∧ q * record.rlen < 2 ^ 31 ∧
      OpensRight record.records q ∧
        (SameThread record.records i q → HasLater record.records i)
  | .threadPrev => ReachesPrevious record i
  | action => i * record.rlen < 2 ^ 31 ∧ ∀ q, Wanted record.records i action q →
      OpensRight record.records q ∧ HasLater record.records q

/-- The exact condition for every action, in a file with ascending ids. -/
theorem navigates_iff {action : Action} {pi : PostInfo}
    (ascending : record.records.Pairwise (·.id < ·.id)) (inside : i < record.records.length) :
    Navigates record i action pi ↔ ScanFits record ∧ Reaches record i action := by
  cases action with
  | post => exact navigates_post_iff ascending inside
  | older => exact navigates_older_iff ascending inside
  | newer => exact navigates_newer_iff ascending inside
  | threadPrev => exact navigates_threadPrev_iff ascending inside
  | threadNext => exact navigates_threadNext_iff ascending inside

end Files

def oneThread : RecordFile PostRecord where
  records := [threadRecord 1 1, threadRecord 2 1, threadRecord 3 1]
  rlen := 168
  rlen_pos := postSize_pos
  rlen_le := postSize_le
  count_lt := by decide

theorem oneThread_ascending : oneThread.records.Pairwise (·.id < ·.id) := by
  decide

/-- The newer post of the first one has another behind it. -/
theorem oneThread_navigates : Navigates oneThread 0 .newer blankInfo := by
  refine (navigates_iff oneThread_ascending (by decide)).mpr ⟨by decide, by decide, ?_⟩
  rintro q ⟨rfl, -⟩
  refine ⟨iff_of_false (by decide) fun none => none ⟨0, by decide, by decide⟩, 2, ?_⟩
  decide

/-- The last post of the thread is not shown as the last one, and the post in front of it not
as the previous one. -/
theorem oneThread_not_navigates :
    ¬Navigates oneThread 1 .newer blankInfo ∧ ¬Navigates oneThread 2 .threadPrev blankInfo := by
  constructor
  · intro navigates
    obtain ⟨j, behind, inside, -⟩ :=
      (((navigates_newer_iff oneThread_ascending (by decide)).mp navigates).2.2 2
        ⟨rfl, by decide⟩).2
    exact absurd inside (Nat.not_lt.mpr behind)
  · intro navigates
    have reached := ((navigates_threadPrev_opened oneThread_ascending (by decide) (by decide)
      (by decide)).mp navigates).2
    rcases reached with ⟨t, here, isTid, -, wanted, -⟩ | ⟨absent, -⟩
    · obtain rfl : t = 0 := id_inj oneThread_ascending here (by decide) isTid
      exact wanted.2.2 1 (by decide) (by decide) (by decide)
    · exact absent 0 (by decide) (by decide)

end WebPostSearch

end Fbbs
