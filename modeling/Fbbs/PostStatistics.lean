import Fbbs.FirstOccurrences
import Fbbs.GroupedTable
import Fbbs.PostRecordPages
import Fbbs.RecordScan

/-!
# Posts of a range by author

`count_posts_in_range` of `src/plist.c` scans the records of a board and keeps an entry for each
author in a growing array.  A record with a user id is looked up by it, and a record without one
by its name, which an entry with a user id has as well.
-/

namespace Fbbs

namespace PostStatistics

open CallbackScan PostRecordPages RecordCache RecordScan
open Post (postFlagDigest postFlagMarked postFlagWater)

/-- The size of `uname`. -/
def unameSize : Nat := 16

theorem unameSize_pos : 0 < unameSize := Nat.succ_pos _

/-- `count_posts_stat_t`. -/
structure CountPostsStat where
  uname : CharArray unameSize
  uid : UserId
  total : Nat
  m : Nat
  g : Nat
  w : Nat
  n : Nat
  deriving DecidableEq

/-- `count_posts_callback_t`; `size` is the length of the list. -/
structure CountPosts where
  stat : List CountPostsStat
  capacity : Nat
  min : PostId
  max : PostId
  offsetMin : Nat
  offsetMax : Nat

def capacityInit : Nat := 64

/-- The search for the entry of a record. -/
def findStat (stat : List CountPostsStat) (pr : PostRecord) : Option Nat :=
  if pr.userId ≠ 0 then stat.findIdx? fun cps => pr.userId == cps.uid
  else stat.findIdx? fun cps => (infoOf pr).userName.str == cps.uname.str

def newStat (pr : PostRecord) : CountPostsStat where
  uname := Message.getCharArray unameSize unameSize_pos (infoOf pr).userName.str
  uid := pr.userId
  total := 0
  m := 0
  g := 0
  w := 0
  n := 0

def hasFlag (pr : PostRecord) (flag : Int32) : Bool :=
  pr.flag &&& flag != 0

def isMarked (pr : PostRecord) : Bool := hasFlag pr postFlagMarked

def isDigest (pr : PostRecord) : Bool := hasFlag pr postFlagDigest

def countPost (pr : PostRecord) (cps : CountPostsStat) : CountPostsStat :=
  let cps := { cps with total := cps.total + 1 }
  if isMarked pr || isDigest pr then
    { cps with
      m := cps.m + (isMarked pr).toNat
      g := cps.g + (isDigest pr).toNat }
  else if hasFlag pr postFlagWater then { cps with w := cps.w + 1 }
  else { cps with n := cps.n + 1 }

/-- The record is in the range; its entry is found or added. -/
def countInRange (cpc : CountPosts) (entry : PostRecord × Nat) : CountPosts :=
  let (pr, off) := entry
  let cpc :=
    { cpc with
      offsetMin := if cpc.offsetMin = 0 then off + 1 else cpc.offsetMin
      offsetMax := off + 1 }
  match findStat cpc.stat pr with
  | some i => { cpc with stat := cpc.stat.modify i (countPost pr) }
  | none =>
    { cpc with
      capacity := if cpc.stat.length = cpc.capacity then cpc.capacity * 2 else cpc.capacity
      stat := cpc.stat ++ [countPost pr (newStat pr)] }

def countPostsCallback (cpc : CountPosts) (entry : PostRecord × Nat) : Reply × CountPosts :=
  if entry.1.id < cpc.min then (.next, cpc)
  else if entry.1.id > cpc.max then (.stop, cpc)
  else (.found, countInRange cpc entry)

/-- The count that `count_posts_in_range` prints, and what the scan has left. -/
def countPostsInRange (record : RecordFile PostRecord) (min max : PostId) :
    Option (Nat × CountPosts) :=
  (recordForeach countPostsCallback postRecordCmp none 0 ⟨[], capacityInit, min, max, 0, 0⟩
    record).map fun scan => (scan.matched, scan.state)

/-! ## What the statistics should be -/

/-- Who has written a record. -/
inductive Author
  | user (uid : UserId)
  | named (name : CString)
  deriving DecidableEq

def author (pr : PostRecord) : Author :=
  if pr.userId ≠ 0 then .user pr.userId else .named pr.userName.str

/-- Whom an entry stands for. -/
def authorOf (cps : CountPostsStat) : Author :=
  if cps.uid ≠ 0 then .user cps.uid else .named cps.uname.str

def inRange (min max : PostId) (entry : PostRecord × Nat) : Bool :=
  min ≤ entry.1.id && entry.1.id ≤ max

/-- The records of a range with their indexes. -/
def entriesInRange (record : RecordFile PostRecord) (min max : PostId) : List (PostRecord × Nat) :=
  record.records.zipIdx.filter (inRange min max)

def recordsInRange (record : RecordFile PostRecord) (min max : PostId) : List PostRecord :=
  (entriesInRange record min max).map Prod.fst

/-- The number of an author's records with a property. -/
def countOf (records : List PostRecord) (who : Author) (holds : PostRecord → Bool) : Nat :=
  records.countP fun pr => author pr = who && holds pr

structure Statistics (records : List PostRecord) (stat : List CountPostsStat) : Prop where
  once : (stat.map authorOf).Nodup
  authors : ∀ who, who ∈ stat.map authorOf ↔ ∃ pr ∈ records, author pr = who
  total : ∀ cps ∈ stat, cps.total = countOf records (authorOf cps) fun _ => true
  marked : ∀ cps ∈ stat, cps.m = countOf records (authorOf cps) isMarked
  digest : ∀ cps ∈ stat, cps.g = countOf records (authorOf cps) isDigest
  rest : ∀ cps ∈ stat, cps.total = cps.w + cps.n +
    countOf records (authorOf cps) fun pr => isMarked pr || isDigest pr

/-- The report is right, and the capacity of the array has stayed an `int`. -/
structure Reports (record : RecordFile PostRecord) (min max : PostId) (count : Nat)
    (cpc : CountPosts) : Prop where
  count : count = (recordsInRange record min max).length
  sum : (cpc.stat.map (·.total)).sum = (recordsInRange record min max).length
  statistics : Statistics (recordsInRange record min max) cpc.stat
  offsetMin : cpc.offsetMin = (entriesInRange record min max).head?.elim 0 (·.2 + 1)
  offsetMax : cpc.offsetMax = (entriesInRange record min max).getLast?.elim 0 (·.2 + 1)
  room : cpc.stat.length ≤ cpc.capacity
  fits : cpc.capacity < 2 ^ 31

/-- When a name without a user id comes up, no user has come up with it. -/
def NamesApart (records : List PostRecord) : Prop :=
  ∀ before pr after, records = before ++ pr :: after → pr.userId = 0 →
    (∀ other ∈ before, author other ≠ author pr) →
      ∀ other ∈ FirstOccurrences.firsts author before, other.userId ≠ 0 →
        other.userName.str ≠ pr.userName.str

/-! ## The scan -/

section Scan

theorem findStat_inside {stat : List CountPostsStat} {pr : PostRecord} {i : Nat}
    (found : findStat stat pr = some i) : i < stat.length := by
  rw [findStat] at found
  split at found
  · exact (List.findIdx?_eq_some_iff_findIdx_eq.mp found).1
  · exact (List.findIdx?_eq_some_iff_findIdx_eq.mp found).1

/-- The array as a table of entries. -/
def scheme : GroupedTable.Scheme PostRecord CountPostsStat where
  search := findStat
  fresh := newStat
  count := countPost
  inside := findStat_inside

theorem stat_countInRange (cpc : CountPosts) (entry : PostRecord × Nat) :
    (countInRange cpc entry).stat = scheme.put cpc.stat entry.1 := by
  rw [countInRange, GroupedTable.Scheme.put]
  change _ = match findStat cpc.stat entry.1 with
    | some i => cpc.stat.modify i (countPost entry.1)
    | none => cpc.stat ++ [countPost entry.1 (newStat entry.1)]
  cases findStat cpc.stat entry.1 <;> rfl

theorem stat_foldl (cpc : CountPosts) (entries : List (PostRecord × Nat)) :
    (entries.foldl countInRange cpc).stat =
      (entries.map Prod.fst).foldl scheme.put cpc.stat := by
  induction entries generalizing cpc with
  | nil => rfl
  | cons entry entries ih =>
    rw [List.foldl_cons, ih, stat_countInRange]
    rfl

theorem bounds_countInRange (cpc : CountPosts) (entry : PostRecord × Nat) :
    (countInRange cpc entry).min = cpc.min ∧ (countInRange cpc entry).max = cpc.max := by
  rw [countInRange]
  cases findStat cpc.stat entry.1 <;> exact ⟨rfl, rfl⟩

theorem offsets_countInRange (cpc : CountPosts) (entry : PostRecord × Nat) :
    (countInRange cpc entry).offsetMin =
        (if cpc.offsetMin = 0 then entry.2 + 1 else cpc.offsetMin) ∧
      (countInRange cpc entry).offsetMax = entry.2 + 1 := by
  rw [countInRange]
  cases findStat cpc.stat entry.1 <;> exact ⟨rfl, rfl⟩

theorem offsetMin_foldl (cpc : CountPosts) (entries : List (PostRecord × Nat)) :
    (entries.foldl countInRange cpc).offsetMin =
      if cpc.offsetMin = 0 then entries.head?.elim 0 (·.2 + 1) else cpc.offsetMin := by
  induction entries generalizing cpc with
  | nil =>
    rw [List.foldl_nil, List.head?_nil, Option.elim_none]
    split <;> simp_all
  | cons entry entries ih =>
    rw [List.foldl_cons, ih, (offsets_countInRange cpc entry).1, List.head?_cons,
      Option.elim_some]
    by_cases first : cpc.offsetMin = 0 <;> simp [first]

theorem offsetMax_foldl (cpc : CountPosts) (entries : List (PostRecord × Nat)) :
    (entries.foldl countInRange cpc).offsetMax =
      entries.getLast?.elim cpc.offsetMax (·.2 + 1) := by
  induction entries using List.reverseRecOn with
  | nil => rfl
  | append_singleton entries entry _ =>
    rw [List.foldl_append, List.getLast?_concat, List.foldl_cons, List.foldl_nil,
      (offsets_countInRange _ entry).2, Option.elim_some]

/-- The array is full at most, and it has been doubled only when it was. -/
structure Grown (cpc : CountPosts) : Prop where
  room : cpc.stat.length ≤ cpc.capacity
  tight : cpc.capacity = capacityInit ∨ cpc.capacity + 2 ≤ 2 * cpc.stat.length
  doubled : ∃ k, cpc.capacity = capacityInit * 2 ^ k

theorem Grown.countInRange {cpc : CountPosts} (grown : Grown cpc) (entry : PostRecord × Nat) :
    Grown (countInRange cpc entry) := by
  obtain ⟨room, tight, k, doubled⟩ := grown
  rw [PostStatistics.countInRange]
  cases findStat cpc.stat entry.1 with
  | some i =>
    refine ⟨?_, ?_, k, doubled⟩
    · simpa using room
    · simpa using tight
  | none =>
    by_cases full : cpc.stat.length = cpc.capacity
    · refine ⟨?_, .inr ?_, k + 1, ?_⟩
      · have positive : 0 < cpc.capacity := by
          rw [doubled]
          exact Nat.mul_pos (by decide) (Nat.two_pow_pos k)
        simp only [List.length_append, List.length_singleton, if_pos full]
        omega
      · simp only [List.length_append, List.length_singleton, if_pos full]
        omega
      · simp only [if_pos full]
        rw [doubled, Nat.pow_succ, Nat.mul_assoc]
    · refine ⟨?_, ?_, k, ?_⟩
      · simp only [List.length_append, List.length_singleton, if_neg full]
        omega
      · simp only [List.length_append, List.length_singleton, if_neg full]
        omega
      · simp only [if_neg full]
        exact doubled

theorem Grown.foldl {cpc : CountPosts} (grown : Grown cpc) (entries : List (PostRecord × Nat)) :
    Grown (entries.foldl PostStatistics.countInRange cpc) := by
  induction entries generalizing cpc with
  | nil => exact grown
  | cons entry entries ih => exact ih (grown.countInRange entry)

/-- The capacity is an `int` as long as there are at most `2 ^ 30` entries. -/
theorem Grown.fits_iff {cpc : CountPosts} (grown : Grown cpc) :
    cpc.capacity < 2 ^ 31 ↔ cpc.stat.length ≤ 2 ^ 30 := by
  obtain ⟨room, tight, k, doubled⟩ := grown
  have start : capacityInit = 2 ^ 6 := rfl
  constructor
  · intro small
    rw [doubled, start, ← Nat.pow_add] at small
    have exponent : 6 + k ≤ 30 := Nat.le_of_lt_succ ((Nat.pow_lt_pow_iff_right (by decide)).mp small)
    have bound : cpc.capacity ≤ 2 ^ 30 := by
      rw [doubled, start, ← Nat.pow_add]
      exact Nat.pow_le_pow_right (by decide) exponent
    exact Nat.le_trans room bound
  · intro few
    omega

/-- In a file with ascending ids, the records of the range are counted and no others. -/
theorem scan_ascending {min max : PostId} {entries : List (PostRecord × Nat)}
    (ascending : entries.Pairwise fun entry other => entry.1.id ≤ other.1.id) {cpc : CountPosts}
    (isMin : cpc.min = min) (isMax : cpc.max = max) :
    run countPostsCallback cpc entries =
        (entries.filter (inRange min max)).foldl countInRange cpc ∧
      foundBy countPostsCallback cpc entries = (entries.filter (inRange min max)).length := by
  induction entries generalizing cpc with
  | nil => exact ⟨rfl, rfl⟩
  | cons entry entries ih =>
    obtain ⟨below, ascending⟩ := List.pairwise_cons.mp ascending
    rw [run, foundBy, countPostsCallback, isMin, isMax]
    by_cases low : entry.1.id < min
    · have outside : ¬inRange min max entry = true := by
        rw [inRange, Bool.and_eq_true, decide_eq_true_eq, decide_eq_true_eq]
        exact fun inside => Int64.lt_irrefl (Int64.lt_of_lt_of_le low inside.1)
      rw [if_pos low, List.filter_cons_of_neg outside]
      exact ih ascending isMin isMax
    · rw [if_neg low]
      by_cases high : entry.1.id > max
      · have outside : (entry :: entries).filter (inRange min max) = [] := by
          apply List.filter_eq_nil_iff.mpr
          intro other member inside
          rw [inRange, Bool.and_eq_true, decide_eq_true_eq, decide_eq_true_eq] at inside
          rcases List.mem_cons.mp member with rfl | behind
          · exact Int64.lt_irrefl (Int64.lt_of_lt_of_le high inside.2)
          · exact Int64.lt_irrefl
              (Int64.lt_of_lt_of_le high (Int64.le_trans (below other behind) inside.2))
        rw [if_pos high, outside]
        exact ⟨rfl, rfl⟩
      · have inside : inRange min max entry = true := by
          rw [inRange, Bool.and_eq_true, decide_eq_true_eq, decide_eq_true_eq]
          exact ⟨Int64.not_lt.mp low, Int64.not_lt.mp high⟩
        obtain ⟨sameMin, sameMax⟩ := bounds_countInRange cpc entry
        obtain ⟨state, found⟩ := ih ascending (sameMin.trans isMin) (sameMax.trans isMax)
        rw [if_neg high, List.filter_cons_of_pos inside, List.foldl_cons, List.length_cons]
        exact ⟨state, congrArg (· + 1) found⟩

theorem countPostsInRange_eq {record : RecordFile PostRecord}
    (ascending : record.records.Pairwise (·.id ≤ ·.id)) (min max : PostId) :
    countPostsInRange record min max =
      some ((recordsInRange record min max).length,
        (entriesInRange record min max).foldl countInRange
          ⟨[], capacityInit, min, max, 0, 0⟩) := by
  have ascends : record.records.zipIdx.Pairwise fun entry other => entry.1.id ≤ other.1.id := by
    have ids : ((record.records.zipIdx.map Prod.fst).map (·.id)).Pairwise (· ≤ ·) := by
      rw [List.zipIdx_map_fst]
      exact List.pairwise_map.mpr ascending
    rw [List.map_map] at ids
    exact List.pairwise_map.mp ids
  obtain ⟨state, found⟩ := @scan_ascending min max _ ascends
    ⟨[], capacityInit, min, max, 0, 0⟩ rfl rfl
  have entries : record.entriesFrom 0 = record.records.zipIdx := rfl
  rw [countPostsInRange, recordForeach_at _ _ fun other member => absurd member
    (Option.not_mem_none other), Nat.zero_mul, if_pos (by decide), Option.map_some,
    state_visitAll_start, matched_visitAll rfl, entries]
  change some (0 + foundBy countPostsCallback ⟨[], capacityInit, min, max, 0, 0⟩ _,
    run countPostsCallback _ _) = _
  rw [state, found, Nat.zero_add, recordsInRange, List.length_map]
  rfl

end Scan

/-! ## The entries -/

section Entries

variable {records : List PostRecord}

theorem str_newStat (pr : PostRecord) : (newStat pr).uname.str = pr.userName.str := by
  have short : pr.userName.str.bytes.length < unameSize := by
    have fits := pr.userName.fits
    have size : idLen + 1 = 13 := rfl
    have size' : unameSize = 16 := rfl
    omega
  have copied : (infoOf pr).userName = pr.userName :=
    Message.getCharArray_str (Nat.succ_pos _) pr.userName
  rw [newStat, copied]
  exact CString.truncate_of_length_lt short

theorem name_countPost (pr : PostRecord) (cps : CountPostsStat) :
    (countPost pr cps).uid = cps.uid ∧ (countPost pr cps).uname = cps.uname := by
  rw [countPost]
  split
  · exact ⟨rfl, rfl⟩
  · split <;> exact ⟨rfl, rfl⟩

theorem keyed_scheme : scheme.Keyed author authorOf where
  fresh pr := by
    change (if pr.userId ≠ 0 then Author.user pr.userId else .named (newStat pr).uname.str) = _
    rw [str_newStat, author]
  count pr cps := by
    change authorOf (countPost pr cps) = authorOf cps
    rw [authorOf, authorOf, (name_countPost pr cps).1, (name_countPost pr cps).2]

theorem weighs_total : scheme.Weighs (·.total) fun _ => 1 where
  fresh _ := rfl
  count pr cps := by
    change (countPost pr cps).total = cps.total + 1
    rw [countPost]
    split
    · rfl
    · split <;> rfl

theorem weighs_marked : scheme.Weighs (·.m) fun pr => (isMarked pr).toNat where
  fresh _ := rfl
  count pr cps := by
    change (countPost pr cps).m = cps.m + (isMarked pr).toNat
    rw [countPost]
    by_cases flagged : (isMarked pr || isDigest pr) = true
    · rw [if_pos flagged]
    · rw [if_neg flagged]
      rw [Bool.not_eq_true, Bool.or_eq_false_iff] at flagged
      rw [flagged.1]
      split <;> rfl

theorem weighs_digest : scheme.Weighs (·.g) fun pr => (isDigest pr).toNat where
  fresh _ := rfl
  count pr cps := by
    change (countPost pr cps).g = cps.g + (isDigest pr).toNat
    rw [countPost]
    by_cases flagged : (isMarked pr || isDigest pr) = true
    · rw [if_pos flagged]
    · rw [if_neg flagged]
      rw [Bool.not_eq_true, Bool.or_eq_false_iff] at flagged
      rw [flagged.2]
      split <;> rfl

/-- Records that are neither marked nor digest are counted as water or as the others. -/
theorem weighs_rest :
    scheme.Weighs (fun cps => cps.w + cps.n) fun pr => (!(isMarked pr || isDigest pr)).toNat where
  fresh _ := rfl
  count pr cps := by
    change (countPost pr cps).w + (countPost pr cps).n = cps.w + cps.n + _
    rw [countPost]
    by_cases flagged : (isMarked pr || isDigest pr) = true
    · rw [if_pos flagged, flagged]
      rfl
    · rw [if_neg flagged, Bool.eq_false_iff.mpr flagged]
      split
      · exact Nat.add_right_comm cps.w 1 cps.n
      · rfl

theorem weightOf_eq_countOf (records : List PostRecord) (who : Author)
    (holds : PostRecord → Bool) :
    GroupedTable.Scheme.weightOf author (fun pr => (holds pr).toNat) records who =
      countOf records who holds := by
  induction records with
  | nil => rfl
  | cons pr records ih =>
    rw [GroupedTable.Scheme.weightOf, countOf] at ih
    rw [GroupedTable.Scheme.weightOf, countOf, List.filter_cons, List.countP_cons]
    by_cases own : author pr = who <;> cases flag : holds pr <;>
      simp [own, flag, ih, Nat.add_comm]

theorem countOf_add_not (records : List PostRecord) (who : Author) (holds : PostRecord → Bool) :
    (countOf records who fun _ => true) =
      (countOf records who fun pr => !holds pr) + countOf records who holds := by
  induction records with
  | nil => rfl
  | cons pr records ih =>
    simp only [countOf, List.countP_cons] at ih ⊢
    rw [ih]
    by_cases own : author pr = who <;> cases holds pr <;> simp [own] <;> omega

/-- The entries of the groups with their counts. -/
structure Tallied (records : List PostRecord) (stat : List CountPostsStat) : Prop where
  groups : GroupedTable.Scheme.Groups author authorOf records stat
  total : ∀ cps ∈ stat, cps.total = countOf records (authorOf cps) fun _ => true
  marked : ∀ cps ∈ stat, cps.m = countOf records (authorOf cps) isMarked
  digest : ∀ cps ∈ stat, cps.g = countOf records (authorOf cps) isDigest
  plain : ∀ cps ∈ stat, cps.w + cps.n =
    countOf records (authorOf cps) fun pr => !(isMarked pr || isDigest pr)

theorem Tallied.put {stat : List CountPostsStat} {pr : PostRecord} (tallied : Tallied records stat)
    (directed : scheme.Directed author authorOf stat pr) :
    Tallied (records ++ [pr]) (scheme.put stat pr) := by
  obtain ⟨groups, total, marked, digest, plain⟩ := tallied
  simp only [← weightOf_eq_countOf] at total marked digest plain
  constructor
  case groups => exact GroupedTable.Scheme.groups_put keyed_scheme groups directed
  all_goals simp only [← weightOf_eq_countOf]
  case total =>
    exact GroupedTable.Scheme.weighs_put weighs_total keyed_scheme groups directed total
  case marked =>
    exact GroupedTable.Scheme.weighs_put weighs_marked keyed_scheme groups directed marked
  case digest =>
    exact GroupedTable.Scheme.weighs_put weighs_digest keyed_scheme groups directed digest
  case plain =>
    exact GroupedTable.Scheme.weighs_put weighs_rest keyed_scheme groups directed plain

/-- If every search is directed, the entries are right. -/
theorem statistics_of_directed
    (directed : ∀ before pr after, records = before ++ pr :: after →
      Tallied before (scheme.table before) →
        scheme.Directed author authorOf (scheme.table before) pr) :
    Statistics records (scheme.table records) := by
  have start : Tallied [] [] :=
    ⟨⟨List.nodup_nil, by simp⟩, by simp, by simp, by simp, by simp⟩
  have tallied : Tallied records (scheme.table records) :=
    GroupedTable.Scheme.table_induction Tallied start fun before pr after split tallied =>
      tallied.put (directed before pr after split tallied)
  obtain ⟨groups, total, marked, digest, plain⟩ := tallied
  refine ⟨groups.once, groups.complete, total, marked, digest, fun cps member => ?_⟩
  rw [total cps member, plain cps member]
  exact countOf_add_not records (authorOf cps) fun pr => isMarked pr || isDigest pr

end Entries

/-! ## Names -/

section Names

variable {records : List PostRecord} {stat : List CountPostsStat} {pr : PostRecord}

/-- The user id and the name of an entry. -/
def label (cps : CountPostsStat) : UserId × CString :=
  (cps.uid, cps.uname.str)

theorem keyed_label : scheme.Keyed (fun pr => (pr.userId, pr.userName.str)) label where
  fresh pr := congrArg (pr.userId, ·) (str_newStat pr)
  count pr cps := by
    change ((countPost pr cps).uid, (countPost pr cps).uname.str) = _
    rw [(name_countPost pr cps).1, (name_countPost pr cps).2]
    rfl

theorem map_label_put (stat : List CountPostsStat) (pr : PostRecord) :
    (scheme.put stat pr).map label =
      stat.map label ++ if findStat stat pr = none then [(pr.userId, pr.userName.str)] else [] :=
  GroupedTable.Scheme.map_put keyed_label stat pr

theorem infoOf_userName (pr : PostRecord) : (infoOf pr).userName = pr.userName :=
  Message.getCharArray_str (Nat.succ_pos _) pr.userName

/-- The search by user id. -/
theorem findStat_user (stat : List CountPostsStat) (isUser : pr.userId ≠ 0) :
    match findStat stat pr with
    | some i => ∃ cps, stat[i]? = some cps ∧ cps.uid = pr.userId
    | none => ∀ cps ∈ stat, cps.uid ≠ pr.userId := by
  rw [findStat, if_pos isUser]
  cases found : stat.findIdx? fun cps => pr.userId == cps.uid with
  | some i =>
    obtain ⟨inside, isMatch, -⟩ := List.findIdx?_eq_some_iff_getElem.mp found
    exact ⟨stat[i], List.getElem?_eq_getElem inside, (beq_iff_eq.mp isMatch).symm⟩
  | none =>
    intro cps member same
    have noMatch := List.findIdx?_eq_none_iff.mp found cps member
    rw [same, beq_self_eq_true] at noMatch
    cases noMatch

theorem findStat_named (stat : List CountPostsStat) (isNamed : pr.userId = 0) :
    match findStat stat pr with
    | some i => ∃ cps, stat[i]? = some cps ∧ cps.uname.str = pr.userName.str ∧
        ∀ j < i, ∀ other, stat[j]? = some other → other.uname.str ≠ pr.userName.str
    | none => ∀ cps ∈ stat, cps.uname.str ≠ pr.userName.str := by
  rw [findStat, if_neg (not_not_intro isNamed), infoOf_userName]
  cases found : stat.findIdx? fun cps => pr.userName.str == cps.uname.str with
  | some i =>
    obtain ⟨inside, isMatch, earlier⟩ := List.findIdx?_eq_some_iff_getElem.mp found
    refine ⟨stat[i], List.getElem?_eq_getElem inside, (beq_iff_eq.mp isMatch).symm, ?_⟩
    intro j before other here same
    obtain ⟨inside', rfl⟩ := List.getElem?_eq_some_iff.mp here
    exact earlier j before (beq_iff_eq.mpr same.symm)
  | none =>
    intro cps member same
    have noMatch := List.findIdx?_eq_none_iff.mp found cps member
    rw [same, beq_self_eq_true] at noMatch
    cases noMatch

/-- Where the names in the array come from. -/
structure Named (records : List PostRecord) (stat : List CountPostsStat) : Prop where
  users : ∀ pr ∈ FirstOccurrences.firsts author records, pr.userId ≠ 0 →
    (pr.userId, pr.userName.str) ∈ stat.map label
  origin : ∀ cps ∈ stat, cps.uid ≠ 0 →
    ∃ pr ∈ FirstOccurrences.firsts author records, (pr.userId, pr.userName.str) = label cps
  known : ∀ cps ∈ stat, ∃ pr ∈ records, author pr = authorOf cps

theorem author_of_user (isUser : pr.userId ≠ 0) : author pr = .user pr.userId :=
  if_pos isUser

theorem author_of_named (isNamed : pr.userId = 0) : author pr = .named pr.userName.str :=
  if_neg (not_not_intro isNamed)

/-- An entry has been there before, or is that of the record. -/
theorem mem_put {cps : CountPostsStat} (member : cps ∈ scheme.put stat pr) :
    (∃ old ∈ stat, label old = label cps) ∨
      findStat stat pr = none ∧ label cps = (pr.userId, pr.userName.str) := by
  have labels := List.mem_map_of_mem (f := label) member
  rw [map_label_put, List.mem_append] at labels
  rcases labels with old | new
  · exact .inl (List.mem_map.mp old)
  · by_cases none : findStat stat pr = none
    · rw [if_pos none, List.mem_singleton] at new
      exact .inr ⟨none, new⟩
    · rw [if_neg none] at new
      cases new

theorem authorOf_eq_of_label {cps other : CountPostsStat} (same : label cps = label other) :
    authorOf cps = authorOf other := by
  obtain ⟨sameUid, sameName⟩ := Prod.mk.inj same
  rw [authorOf, authorOf, sameUid, sameName]

theorem authorOf_eq_of_record {cps : CountPostsStat}
    (same : label cps = (pr.userId, pr.userName.str)) : authorOf cps = author pr := by
  obtain ⟨sameUid, sameName⟩ := Prod.mk.inj same
  rw [authorOf, author, sameUid, sameName]

/-- A user who has no entry is new. -/
theorem Named.unknown (named : Named records stat) (isUser : pr.userId ≠ 0)
    (missing : ∀ cps ∈ stat, cps.uid ≠ pr.userId) :
    FirstOccurrences.known author records pr = false := by
  rw [Bool.eq_false_iff]
  intro isKnown
  obtain ⟨other, member, alike⟩ := FirstOccurrences.known_eq_true_iff.mp isKnown
  obtain ⟨first, isFirst, same⟩ := FirstOccurrences.exists_mem_firsts author member
  have authors : author first = .user pr.userId :=
    same.trans (alike.trans (author_of_user isUser))
  by_cases anonymous : first.userId = 0
  · rw [author_of_named anonymous] at authors
    cases authors
  · rw [author_of_user anonymous, Author.user.injEq] at authors
    obtain ⟨cps, isEntry, labelled⟩ := List.mem_map.mp (named.users first isFirst anonymous)
    exact missing cps isEntry ((Prod.mk.inj labelled).1.trans authors)

theorem Named.put (named : Named records stat) : Named (records ++ [pr]) (scheme.put stat pr) := by
  constructor
  · intro other isFirst isUser
    rw [FirstOccurrences.firsts_append_singleton, List.mem_append] at isFirst
    rw [map_label_put, List.mem_append]
    rcases isFirst with old | new
    · exact .inl (named.users other old isUser)
    · right
      have fresh : FirstOccurrences.known author records pr = false := by
        by_contra isKnown
        rw [Bool.not_eq_false] at isKnown
        rw [if_pos isKnown] at new
        cases new
      rw [fresh, if_neg Bool.false_ne_true, List.mem_singleton] at new
      obtain rfl := new
      have search := findStat_user stat isUser
      cases found : findStat stat other with
      | none => simp
      | some i =>
        rw [found] at search
        obtain ⟨cps, here, same⟩ := search
        obtain ⟨first, member, authors⟩ := named.known cps (List.mem_of_getElem? here)
        have alike : author first = author other := by
          rw [authors, authorOf, if_pos (same ▸ isUser), same, author_of_user isUser]
        rw [FirstOccurrences.known_eq_true_iff.mpr ⟨first, member, alike⟩] at fresh
        cases fresh
  · intro cps member isUser
    rw [FirstOccurrences.firsts_append_singleton]
    rcases mem_put member with ⟨old, isOld, same⟩ | ⟨none, same⟩
    · have sameUid : old.uid = cps.uid := (Prod.mk.inj same).1
      obtain ⟨first, isFirst, labelled⟩ := named.origin old isOld (sameUid ▸ isUser)
      exact ⟨first, List.mem_append_left _ isFirst, labelled.trans same⟩
    · have isUser' : pr.userId ≠ 0 := (Prod.mk.inj same).1 ▸ isUser
      have search := findStat_user stat isUser'
      rw [none] at search
      rw [named.unknown isUser' search]
      exact ⟨pr, List.mem_append_right _ List.mem_cons_self, same.symm⟩
  · intro cps member
    rcases mem_put member with ⟨old, isOld, same⟩ | ⟨-, same⟩
    · obtain ⟨first, isFirst, authors⟩ := named.known old isOld
      exact ⟨first, List.mem_append_left _ isFirst, authors.trans (authorOf_eq_of_label same)⟩
    · exact ⟨pr, List.mem_append_right _ List.mem_cons_self, (authorOf_eq_of_record same).symm⟩

theorem named_table (records : List PostRecord) : Named records (scheme.table records) :=
  GroupedTable.Scheme.table_induction Named ⟨by simp [FirstOccurrences.firsts], by simp, by simp⟩
    fun _ _ _ _ named => named.put

/-- A user has the name, and there is no entry of the name without a user. -/
def Taken (name : CString) (stat : List CountPostsStat) : Prop :=
  (∃ cps ∈ stat, cps.uid ≠ 0 ∧ cps.uname.str = name) ∧
    ∀ cps ∈ stat, cps.uid = 0 → cps.uname.str ≠ name

theorem Taken.put {name : CString} (taken : Taken name stat) (pr : PostRecord) :
    Taken name (scheme.put stat pr) := by
  obtain ⟨⟨cps, member, isUser, isName⟩, others⟩ := taken
  constructor
  · have labels : label cps ∈ (scheme.put stat pr).map label := by
      rw [map_label_put]
      exact List.mem_append_left _ (List.mem_map_of_mem member)
    obtain ⟨kept, isKept, same⟩ := List.mem_map.mp labels
    obtain ⟨sameUid, sameName⟩ := Prod.mk.inj same
    exact ⟨kept, isKept, sameUid ▸ isUser, sameName.trans isName⟩
  · intro other isOther anonymous isName'
    rcases mem_put isOther with ⟨old, isOld, same⟩ | ⟨none, same⟩
    · obtain ⟨sameUid, sameName⟩ := Prod.mk.inj same
      exact others old isOld (sameUid.trans anonymous) (sameName.trans isName')
    · -- The record has the name and no user id, so it would have been counted for the user.
      obtain ⟨sameUid, sameName⟩ := Prod.mk.inj same
      have search := findStat_named stat (sameUid.symm.trans anonymous)
      rw [none] at search
      exact search cps member (isName.trans (isName'.symm.trans sameName))

theorem Taken.foldl {name : CString} (taken : Taken name stat) (records : List PostRecord) :
    Taken name (records.foldl scheme.put stat) := by
  induction records generalizing stat with
  | nil => exact taken
  | cons pr records ih => exact ih (taken.put pr)

/-- Before an entry without a user, no user has its name. -/
def Ordered (stat : List CountPostsStat) : Prop :=
  (stat.map label).Pairwise fun first second =>
    second.1 = 0 → first.1 ≠ 0 → first.2 ≠ second.2

theorem Ordered.put (ordered : Ordered stat) (pr : PostRecord) :
    Ordered (scheme.put stat pr) := by
  rw [Ordered, map_label_put]
  cases found : findStat stat pr with
  | some i =>
    rw [if_neg (Option.some_ne_none i), List.append_nil]
    exact ordered
  | none =>
    rw [if_pos rfl, List.pairwise_append]
    refine ⟨ordered, List.pairwise_singleton _ _, fun old isOld new isNew anonymous _ => ?_⟩
    obtain rfl := List.mem_singleton.mp isNew
    have search := findStat_named stat anonymous
    rw [found] at search
    obtain ⟨cps, member, rfl⟩ := List.mem_map.mp isOld
    exact search cps member

theorem ordered_table (records : List PostRecord) : Ordered (scheme.table records) :=
  GroupedTable.Scheme.table_induction (fun _ => Ordered) List.Pairwise.nil
    fun _ pr _ _ ordered => ordered.put pr

theorem eq_named_iff {cps : CountPostsStat} {name : CString} :
    authorOf cps = .named name ↔ cps.uid = 0 ∧ cps.uname.str = name := by
  rw [authorOf]
  split
  case isTrue isUser => exact iff_of_false (by simp) fun both => isUser both.1
  case isFalse isNamed =>
    rw [not_not] at isNamed
    rw [Author.named.injEq, and_iff_right isNamed]

theorem eq_user_iff {cps : CountPostsStat} {uid : UserId} (isUser : uid ≠ 0) :
    authorOf cps = .user uid ↔ cps.uid = uid := by
  rw [authorOf]
  split
  case isTrue => rw [Author.user.injEq]
  case isFalse isNamed =>
    rw [not_not] at isNamed
    exact iff_of_false (by simp) fun same => isUser (same.symm.trans isNamed)

theorem directed_user (isUser : pr.userId ≠ 0) : scheme.Directed author authorOf stat pr := by
  have search := findStat_user stat isUser
  change match findStat stat pr with
    | some i => ∃ cps, stat[i]? = some cps ∧ authorOf cps = author pr
    | none => author pr ∉ stat.map authorOf
  rw [author_of_user isUser]
  cases found : findStat stat pr with
  | some i =>
    rw [found] at search
    obtain ⟨cps, here, same⟩ := search
    exact ⟨cps, here, (eq_user_iff isUser).mpr same⟩
  | none =>
    rw [found] at search
    rintro member
    obtain ⟨cps, isEntry, same⟩ := List.mem_map.mp member
    exact search cps isEntry ((eq_user_iff isUser).mp same)

/-- Two entries have the name, and the one without a user is found. -/
theorem eq_of_ordered (ordered : Ordered stat) {i j : Nat} {cps other : CountPostsStat}
    {name : CString} (here : stat[i]? = some cps) (there : stat[j]? = some other)
    (isName : cps.uname.str = name) (isOther : authorOf other = .named name)
    (first : ∀ k < i, ∀ third, stat[k]? = some third → third.uname.str ≠ name) :
    cps.uid = 0 := by
  by_contra isUser
  obtain ⟨anonymous, isName'⟩ := eq_named_iff.mp isOther
  rcases Nat.lt_trichotomy i j with before | rfl | behind
  · obtain ⟨inside, isCps⟩ := List.getElem?_eq_some_iff.mp here
    obtain ⟨inside', isThere⟩ := List.getElem?_eq_some_iff.mp there
    have apart := List.pairwise_iff_getElem.mp ordered i j (by simpa using inside)
      (by simpa using inside') before
    rw [List.getElem_map, List.getElem_map, isCps, isThere] at apart
    exact apart anonymous isUser (isName.trans isName'.symm)
  · rw [here, Option.some.injEq] at there
    exact isUser (there ▸ anonymous)
  · exact first j behind other there isName'

theorem directed_named (anonymous : pr.userId = 0) (tallied : Tallied records stat)
    (named : Named records stat) (ordered : Ordered stat)
    (apart : (∀ other ∈ records, author other ≠ author pr) →
      ∀ other ∈ FirstOccurrences.firsts author records, other.userId ≠ 0 →
        other.userName.str ≠ pr.userName.str) :
    scheme.Directed author authorOf stat pr := by
  have search := findStat_named stat anonymous
  change match findStat stat pr with
    | some i => ∃ cps, stat[i]? = some cps ∧ authorOf cps = author pr
    | none => author pr ∉ stat.map authorOf
  cases found : findStat stat pr with
  | some i =>
    rw [found] at search
    obtain ⟨cps, here, isName, first⟩ := search
    refine ⟨cps, here, ?_⟩
    rw [author_of_named anonymous, eq_named_iff, and_iff_left isName]
    by_cases seen : ∃ other ∈ records, author other = author pr
    · obtain ⟨other, isEntry, isOther⟩ :=
        List.mem_map.mp ((tallied.groups.complete _).mpr seen)
      obtain ⟨j, there⟩ := List.mem_iff_getElem?.mp isEntry
      rw [author_of_named anonymous] at isOther
      exact eq_of_ordered ordered here there isName isOther first
    · by_contra isUser
      obtain ⟨other, isFirst, labelled⟩ := named.origin cps (List.mem_of_getElem? here) isUser
      obtain ⟨sameUid, sameName⟩ := Prod.mk.inj labelled
      exact apart (fun other member same => seen ⟨other, member, same⟩) other isFirst
        (sameUid ▸ isUser) (sameName.trans isName)
  | none =>
    rw [found] at search
    intro member
    obtain ⟨cps, isEntry, same⟩ := List.mem_map.mp member
    rw [author_of_named anonymous] at same
    exact search cps isEntry (eq_named_iff.mp same).2

/-- The array has the right entries exactly if the names are apart. -/
theorem statistics_iff (records : List PostRecord) :
    Statistics records (scheme.table records) ↔ NamesApart records := by
  constructor
  · intro statistics before pr after split anonymous fresh other isFirst isUser sameName
    have taken : Taken pr.userName.str (scheme.table before) := by
      have named := named_table before
      obtain ⟨cps, isEntry, labelled⟩ := List.mem_map.mp (named.users other isFirst isUser)
      obtain ⟨sameUid, isName⟩ := Prod.mk.inj labelled
      refine ⟨⟨cps, isEntry, sameUid ▸ isUser, isName.trans sameName⟩, ?_⟩
      intro third member anonymous' isName'
      obtain ⟨first, inBefore, authors⟩ := named.known third member
      refine fresh first inBefore (authors.trans ?_)
      rw [author_of_named anonymous, eq_named_iff]
      exact ⟨anonymous', isName'⟩
    have final : Taken pr.userName.str (scheme.table records) := by
      rw [split, GroupedTable.Scheme.table, List.foldl_append]
      exact taken.foldl (pr :: after)
    have member : pr ∈ records := by
      rw [split]
      exact List.mem_append_right _ List.mem_cons_self
    obtain ⟨cps, isEntry, isAuthor⟩ :=
      List.mem_map.mp ((statistics.authors (author pr)).mpr ⟨pr, member, rfl⟩)
    rw [author_of_named anonymous, eq_named_iff] at isAuthor
    exact final.2 cps isEntry isAuthor.1 isAuthor.2
  · intro apart
    apply statistics_of_directed
    intro before pr after split tallied
    by_cases anonymous : pr.userId = 0
    · exact directed_named anonymous tallied (named_table before) (ordered_table before)
        (apart before pr after split anonymous)
    · exact directed_user anonymous

end Names

/-- The report is right exactly if the names without a user id are apart from those of the users
and there are at most `2 ^ 30` authors. -/
theorem reports_iff {record : RecordFile PostRecord}
    (ascending : record.records.Pairwise (·.id ≤ ·.id)) (min max : PostId) :
    (∃ count cpc, countPostsInRange record min max = some (count, cpc) ∧
        Reports record min max count cpc) ↔
      NamesApart (recordsInRange record min max) ∧
        ((recordsInRange record min max).map author).dedup.length ≤ 2 ^ 30 := by
  have scanned := countPostsInRange_eq ascending min max
  have stat : ((entriesInRange record min max).foldl countInRange
      ⟨[], capacityInit, min, max, 0, 0⟩).stat =
        scheme.table (recordsInRange record min max) :=
    stat_foldl _ _
  have grown : Grown ((entriesInRange record min max).foldl countInRange
      ⟨[], capacityInit, min, max, 0, 0⟩) :=
    Grown.foldl ⟨Nat.zero_le _, .inl rfl, 0, rfl⟩ _
  have few (statistics : Statistics (recordsInRange record min max)
      (scheme.table (recordsInRange record min max))) :
      (scheme.table (recordsInRange record min max)).length =
        ((recordsInRange record min max).map author).dedup.length :=
    GroupedTable.Scheme.Groups.length_eq ⟨statistics.once, statistics.authors⟩
  rw [scanned, ← statistics_iff]
  constructor
  · rintro ⟨count, cpc, returned, reports⟩
    obtain ⟨rfl, rfl⟩ := Prod.mk.inj (Option.some.inj returned)
    have statistics := reports.statistics
    rw [stat] at statistics
    refine ⟨statistics, ?_⟩
    rw [← few statistics, ← stat]
    exact grown.fits_iff.mp reports.fits
  · rintro ⟨statistics, small⟩
    refine ⟨_, _, rfl, rfl, ?_, stat ▸ statistics, ?_, ?_, grown.room, ?_⟩
    · rw [stat, GroupedTable.Scheme.sum_table weighs_total]
      simp
    · rw [offsetMin_foldl]
      rfl
    · rw [offsetMax_foldl]
    · rw [grown.fits_iff, stat, few statistics]
      exact small

def letter : CString := .ofBytes [97]

theorem letter_fits : letter.bytes.length < idLen + 1 := by decide

/-- A post of someone named `a`. -/
def letterRecord (id : PostId) (userId : UserId) : PostRecord :=
  { blankRecord with id, userId, userName := ⟨letter, letter_fits⟩ }

theorem twoLetters_count_lt :
    [letterRecord 1 5, letterRecord 2 0].length < 2 ^ 31 := by
  decide

/-- A post of user 5 and one without a user id, under one name. -/
def twoLetters : RecordFile PostRecord where
  records := [letterRecord 1 5, letterRecord 2 0]
  rlen := 168
  rlen_pos := postSize_pos
  rlen_le := postSize_le
  count_lt := twoLetters_count_lt

theorem twoLetters_iff :
    (∃ count cpc, countPostsInRange twoLetters 1 1 = some (count, cpc) ∧
        Reports twoLetters 1 1 count cpc) ↔
      NamesApart (recordsInRange twoLetters 1 1) ∧
        ((recordsInRange twoLetters 1 1).map author).dedup.length ≤ 2 ^ 30 :=
  reports_iff (by decide) 1 1

/-- The post without a user id is counted for user 5, and the name has no entry. -/
theorem twoLetters_not_reports :
    ¬∃ count cpc, countPostsInRange twoLetters 1 2 = some (count, cpc) ∧
        Reports twoLetters 1 2 count cpc := by
  rintro ⟨count, cpc, returned, reports⟩
  obtain ⟨-, rfl⟩ := Prod.mk.inj (Option.some.inj returned)
  have entry := (reports.statistics.authors (.named letter)).mpr
    ⟨letterRecord 2 0, by decide, rfl⟩
  exact absurd entry (by decide)

end PostStatistics

end Fbbs
