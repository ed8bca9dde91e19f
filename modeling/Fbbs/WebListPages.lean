import Fbbs.PostRecordPages
import Fbbs.RingBuffer

/-!
# Pages of a list of posts on the web

`print_posts` of `fcgi/toc.c` prints a page of the posts of a board, of its threads or of its
digest.  A page at the end is kept in a ring while the file is scanned.  The start of the page
is corrected after the posts have been printed.
-/

namespace Fbbs

namespace WebListPages

open CallbackScan FreshMemory Post PostRecordPages RecordCache RecordScan RingBuffer

/-- The list types for which `bbsdoc` is called. -/
inductive PostListType
  | normal
  | topic
  | digest
  deriving DecidableEq

/-- A record and its place in the file. -/
abbrev Entry := PostRecord × Nat

/-- A printed post and whether it is a notice. -/
abbrev Line := Entry × Bool

/-- `print_post_callback_t`, with what has been printed. -/
structure PrintPostCallback where
  prs : Option (Memory Entry)
  start : Int
  total : Nat
  count : Nat
  max : Nat
  thread : Bool
  digest : Bool
  sticky : Bool
  printed : List Line

def printPostRecord (entry : Entry) (ppc : PrintPostCallback) : PrintPostCallback :=
  { ppc with printed := ppc.printed ++ [(entry, ppc.sticky)] }

def printPostCallback (ppc : PrintPostCallback) (entry : Entry) : Reply × PrintPostCallback :=
  let pr := entry.1
  if (ppc.thread && pr.id != pr.threadId) ||
      (ppc.digest && pr.flag &&& postFlagDigest == 0) then (.next, ppc)
  else
    let ppc := { ppc with total := ppc.total + 1 }
    if (ppc.total : Int) < ppc.start then (.next, ppc)
    else
      match ppc.prs with
      | some prs => (.found, { ppc with prs := some (put prs (ppc.total - 1) entry) })
      | none =>
        let ppc := { ppc with count := ppc.count + 1 }
        if ppc.count > ppc.max then (.next, ppc)
        else (.found, printPostRecord entry ppc)

/-- What is printed, `*start` and the result. -/
structure Page where
  printed : List Line
  start : Int
  total : Nat
  deriving DecidableEq

/-- The arguments of the callback; memory for the ring is allocated. -/
def callbackOf (start : Int) (max : Nat) (type : PostListType) (sticky : Bool) :
    PrintPostCallback :=
  let save := (type == .topic || type == .digest) && start < 0
  { sticky
    start := if type == .normal then 0 else start
    total := 0
    count := 0
    max
    thread := type == .topic
    digest := type == .digest
    prs := if save then some (malloc max) else none
    printed := [] }

/-- What becomes of `*start`. -/
def correctedStart (start : Int) (total max : Nat) (sticky : Bool) : Int :=
  if sticky then start
  else
    let start := if start < 0 || start > (total : Int) - max then (total : Int) - max else start
    if start < 0 then 0 else start

/-- `print_posts`.  Only a list of all posts passes its start to `record_foreach`, and it is
not negative then. -/
def printPosts (record : RecordFile PostRecord) (start : Int) (max : Nat) (type : PostListType)
    (sticky : Bool) : Option Page := do
  let normal := type == .normal
  let scan ← recordForeach printPostCallback postRecordCmp none
    (if normal then start.toNat else 0) (callbackOf start max type sticky) record
  let ppc := scan.state
  let total := if normal then record.records.length else ppc.total
  let start := correctedStart start total max sticky
  match ppc.prs with
  | none => some ⟨ppc.printed, start, total⟩
  | some prs =>
    (read prs start.toNat (total - start.toNat)).map fun saved =>
      ⟨ppc.printed ++ saved.map (·, false), start, total⟩

/-! ## What a page should show -/

/-- The post belongs to a list of the type. -/
def shown (type : PostListType) (pr : PostRecord) : Bool :=
  match type with
  | .normal => true
  | .topic => pr.id == pr.threadId
  | .digest => pr.flag &&& postFlagDigest != 0

/-- The posts of a list with their places in the file. -/
def listed (type : PostListType) (record : RecordFile PostRecord) : List Entry :=
  (record.entriesFrom 0).filter fun entry => shown type entry.1

/-- Where the last whole page of a list begins. -/
def lastStart (total max : Nat) : Int :=
  Max.max 0 ((total : Int) - max)

def pageStart (start : Int) (total max : Nat) : Int :=
  if start < 0 then lastStart total max else min start (lastStart total max)

/-- The posts from the start of the page on are printed, as many as it can hold. -/
def PrintsPage (record : RecordFile PostRecord) (start : Int) (max : Nat) (type : PostListType)
    (sticky : Bool) : Prop :=
  let posts := listed type record
  let first := pageStart start posts.length max
  printPosts record start max type sticky =
    some ⟨((posts.drop first.toNat).take max).map (·, sticky), first, posts.length⟩

/-- The start for which the printed posts are those of the page. -/
def StartsRight (record : RecordFile PostRecord) (start : Int) (max : Nat) :
    PostListType → Prop
  | .normal => start * record.rlen < 2 ^ 31 ∧
      (start ≤ lastStart record.records.length max ∨ record.records = [])
  | type => start ≤ 0 ∨ listed type record = [] ∨
      start = lastStart (listed type record).length max + 1

section Callback

variable {init : PrintPostCallback}

/-- The post is not skipped. -/
def wanted (ppc : PrintPostCallback) (pr : PostRecord) : Bool :=
  !((ppc.thread && pr.id != pr.threadId) || (ppc.digest && pr.flag &&& postFlagDigest == 0))

/-- The arguments after some posts that are not skipped, where no ring is used. -/
def direct (init : PrintPostCallback) (posts : List Entry) : PrintPostCallback :=
  let rest := posts.drop (init.start - 1).toNat
  { init with
    total := posts.length
    count := rest.length
    printed := (rest.take init.max).map (·, init.sticky) }

theorem callback_unwanted (ppc : PrintPostCallback) {entry : Entry}
    (unwanted : wanted ppc entry.1 = false) : printPostCallback ppc entry = (.next, ppc) := by
  rw [wanted, Bool.not_eq_false'] at unwanted
  rw [printPostCallback, if_pos unwanted]

/-- Another post where no ring is used. -/
theorem callback_direct (noRing : init.prs = none) (posts : List Entry) {entry : Entry}
    (isWanted : wanted init entry.1 = true) :
    ∃ reply, reply ≠ .stop ∧
      printPostCallback (direct init posts) entry = (reply, direct init (posts ++ [entry])) := by
  have notSkipped : ¬((init.thread && entry.1.id != entry.1.threadId) ||
      (init.digest && entry.1.flag &&& postFlagDigest == 0)) = true := by
    rwa [wanted, Bool.not_eq_true', ← Bool.not_eq_true] at isWanted
  rw [printPostCallback]
  simp only [direct, notSkipped, Bool.false_eq_true, if_false, noRing]
  by_cases early : ((posts.length + 1 : Nat) : Int) < init.start
  · refine ⟨.next, by decide, ?_⟩
    have before : posts.length + 1 ≤ (init.start - 1).toNat := by omega
    rw [if_pos early, List.drop_eq_nil_of_le (Nat.le_of_succ_le before),
      List.drop_eq_nil_of_le (by rwa [List.length_append, List.length_singleton]),
      List.length_append]
    rfl
  · have inside : (init.start - 1).toNat ≤ posts.length := by omega
    rw [if_neg early, List.drop_append_of_le_length inside]
    generalize posts.drop (init.start - 1).toNat = rest
    by_cases full : rest.length + 1 > init.max
    · refine ⟨.next, by decide, ?_⟩
      rw [if_pos full, List.take_append_of_le_length (by omega), List.length_append,
        List.length_append]
      rfl
    · refine ⟨.found, by decide, ?_⟩
      rw [if_neg full, List.take_of_length_le (by omega),
        List.take_of_length_le (by rw [List.length_append, List.length_singleton]; omega),
        List.length_append, List.length_append, List.map_append]
      rfl

/-- A scan without a ring. -/
theorem run_direct (noRing : init.prs = none) (posts entries : List Entry) :
    run printPostCallback (direct init posts) entries =
      direct init (posts ++ entries.filter fun entry => wanted init entry.1) := by
  induction entries generalizing posts with
  | nil => rw [run, List.filter_nil, List.append_nil]
  | cons entry entries ih =>
    cases isWanted : wanted init entry.1 with
    | false =>
      rw [run, callback_unwanted (direct init posts) isWanted,
        List.filter_cons_of_neg (by rw [isWanted]; decide)]
      exact ih posts
    | true =>
      obtain ⟨reply, goesOn, step⟩ := callback_direct noRing posts isWanted
      rw [run, step, List.filter_cons, if_pos isWanted,
        List.append_cons posts entry (List.filter _ entries)]
      cases reply with
      | stop => exact absurd rfl goesOn
      | found => exact ih (posts ++ [entry])
      | next => exact ih (posts ++ [entry])

/-- The arguments after some posts that are kept in a ring. -/
structure Saved (init : PrintPostCallback) (posts : List Entry) (ring : Memory Entry)
    (ppc : PrintPostCallback) : Prop where
  same : ppc = { init with prs := some ring, total := posts.length }
  length : ring.length = init.max
  holds : Holds ring posts

/-- A scan that keeps its posts in a ring. -/
theorem run_saved (nonempty : 0 < init.max) (fromFront : init.start < 0) {posts : List Entry}
    {ring : Memory Entry} {ppc : PrintPostCallback} (saved : Saved init posts ring ppc)
    (entries : List Entry) :
    ∃ ring, Saved init (posts ++ entries.filter fun entry => wanted init entry.1) ring
      (run printPostCallback ppc entries) := by
  induction entries generalizing posts ring ppc with
  | nil =>
    rw [List.filter_nil, List.append_nil]
    exact ⟨ring, saved⟩
  | cons entry entries ih =>
    have same : wanted ppc entry.1 = wanted init entry.1 := by rw [saved.same]; rfl
    cases isWanted : wanted init entry.1 with
    | false =>
      rw [run, callback_unwanted ppc (same.trans isWanted),
        List.filter_cons_of_neg (by rw [isWanted]; decide)]
      exact ih saved
    | true =>
      have notSkipped : ¬((init.thread && entry.1.id != entry.1.threadId) ||
          (init.digest && entry.1.flag &&& postFlagDigest == 0)) = true := by
        rwa [wanted, Bool.not_eq_true', ← Bool.not_eq_true] at isWanted
      have step : printPostCallback ppc entry = (.found, { init with
          prs := some (put ring posts.length entry), total := (posts ++ [entry]).length }) := by
        rw [saved.same, printPostCallback]
        simp only [notSkipped, Bool.false_eq_true, if_false]
        rw [if_neg (by omega), List.length_append]
        rfl
      rw [run, step, List.filter_cons, if_pos isWanted, List.append_cons]
      have next : Saved init (posts ++ [entry]) (put ring posts.length entry)
          { init with
            prs := some (put ring posts.length entry)
            total := (posts ++ [entry]).length } := by
        refine ⟨rfl, ?_, ?_⟩
        · rw [length_put, saved.length]
        · exact saved.holds.put (by rwa [saved.length]) entry
      exact ih next

end Callback

section Pages

variable {record : RecordFile PostRecord} {start : Int} {max : Nat} {type : PostListType}
  {sticky : Bool}

theorem wanted_callbackOf (pr : PostRecord) :
    wanted (callbackOf start max type sticky) pr = shown type pr := by
  cases type with
  | normal => rfl
  | topic =>
    change (!((true && pr.id != pr.threadId) ||
      (false && pr.flag &&& postFlagDigest == 0))) = (pr.id == pr.threadId)
    rw [Bool.true_and, Bool.false_and, Bool.or_false, bne, Bool.not_not]
  | digest =>
    change (!((false && pr.id != pr.threadId) ||
      (true && pr.flag &&& postFlagDigest == 0))) = (pr.flag &&& postFlagDigest != 0)
    rw [Bool.true_and, Bool.false_and, Bool.false_or, bne]

theorem listed_normal (record : RecordFile PostRecord) :
    listed .normal record = record.entriesFrom 0 := by
  apply List.filter_eq_self.mpr
  intro entry member
  rfl

theorem length_entriesFrom (record : RecordFile PostRecord) (offset : Nat) :
    (record.entriesFrom offset).length = record.records.length - offset := by
  rw [RecordFile.entriesFrom, List.length_zipIdx, List.length_drop]

theorem drop_entriesFrom (record : RecordFile PostRecord) (count : Nat) :
    (record.entriesFrom 0).drop count = record.entriesFrom count := by
  apply List.ext_getElem?
  intro i
  rw [List.getElem?_drop, RecordFile.entriesFrom, RecordFile.entriesFrom, List.getElem?_zipIdx,
    List.getElem?_zipIdx, List.getElem?_drop, List.getElem?_drop, Nat.zero_add]

/-- Where the start ends up. -/
theorem correctedStart_eq {total : Nat} (isNotice : sticky = true → start = 0) :
    correctedStart start total max sticky = pageStart start total max := by
  rw [correctedStart, pageStart, lastStart]
  cases sticky with
  | true =>
    rw [isNotice rfl]
    simp
  | false =>
    simp only [Bool.false_eq_true, if_false, Bool.or_eq_true, decide_eq_true_eq]
    omega

/-- A page that is printed during the scan. -/
theorem printPosts_direct (noRing : (callbackOf start max type sticky).prs = none) (offset : Nat)
    (isOffset : offset = if type == .normal then start.toNat else 0)
    (isNotice : sticky = true → start = 0) :
    printPosts record start max type sticky =
      if offset * record.rlen < 2 ^ 31 then
        let posts := (record.entriesFrom offset).filter fun entry => shown type entry.1
        let total := if type == .normal then record.records.length else posts.length
        some ⟨((posts.drop ((callbackOf start max type sticky).start - 1).toNat).take max).map
          (·, sticky), pageStart start total max, total⟩
      else none := by
  have empty : callbackOf start max type sticky =
      direct (callbackOf start max type sticky) [] := by
    rw [direct, List.drop_nil, List.take_nil]
    rfl
  have shows : (fun entry : Entry => wanted (callbackOf start max type sticky) entry.1) =
      fun entry => shown type entry.1 :=
    funext fun entry => wanted_callbackOf entry.1
  rw [printPosts, ← isOffset,
    recordForeach_at _ _ fun other member => absurd member (Option.not_mem_none other)]
  by_cases fits : offset * record.rlen < 2 ^ 31
  · rw [if_pos fits, if_pos fits]
    have scan := run_direct noRing [] (record.entriesFrom offset)
    rw [← empty, shows, List.nil_append, ← state_visitAll_start] at scan
    simp only [Option.bind_eq_bind, Option.bind_some, scan, direct, noRing,
      correctedStart_eq isNotice]
    rfl
  · rw [if_neg fits, if_neg fits]
    rfl

/-- The last page comes out of the ring. -/
theorem printPosts_saved (nonempty : 0 < max) (other : type ≠ .normal) (fromEnd : start < 0)
    (isNotice : sticky = true → start = 0) : PrintsPage record start max type sticky := by
  obtain rfl : sticky = false := by
    rw [← Bool.not_eq_true]
    intro isSticky
    rw [isNotice isSticky] at fromEnd
    exact absurd fromEnd (by decide)
  have notNormal : (type == .normal) = false := beq_eq_false_iff_ne.mpr other
  have ring : (callbackOf start max type false).prs = some (malloc max) := by
    cases type with
    | normal => exact absurd rfl other
    | topic => exact if_pos (by simpa using fromEnd)
    | digest => exact if_pos (by simpa using fromEnd)
  have early : (callbackOf start max type false).start < 0 := by
    change (if (type == .normal) = true then 0 else start) < 0
    rwa [notNormal, if_neg Bool.false_ne_true]
  have saved : Saved (callbackOf start max type false) [] (malloc max)
      (callbackOf start max type false) := by
    refine ⟨?_, List.length_replicate, holds_nil _⟩
    rw [← ring]
    rfl
  have shows : (fun entry : Entry => wanted (callbackOf start max type false) entry.1) =
      fun entry => shown type entry.1 :=
    funext fun entry => wanted_callbackOf entry.1
  obtain ⟨prs, after⟩ := run_saved nonempty early saved (record.entriesFrom 0)
  have scan := after.same
  have length : prs.length = max := after.length
  have holds := after.holds
  rw [shows, List.nil_append] at scan holds
  rw [← state_visitAll_start] at scan
  change Holds prs (listed type record) at holds
  change _ = { callbackOf start max type false with
    prs := some prs, total := (listed type record).length } at scan
  have first : pageStart start (listed type record).length max =
      lastStart (listed type record).length max := if_pos fromEnd
  have reads := holds.read (lastStart (listed type record).length max).toNat (by
    rw [length, lastStart]
    omega)
  have page : ((listed type record).drop
      (lastStart (listed type record).length max).toNat).take max =
        (listed type record).drop (lastStart (listed type record).length max).toNat := by
    apply List.take_of_length_le
    rw [List.length_drop, lastStart]
    omega
  unfold PrintsPage
  rw [printPosts, notNormal, if_neg Bool.false_ne_true,
    recordForeach_at _ _ fun other member => absurd member (Option.not_mem_none other),
    Nat.zero_mul, if_pos (by decide)]
  simp only [Option.bind_eq_bind, Option.bind_some, scan, Bool.false_eq_true, if_false,
    correctedStart_eq isNotice, first, reads, Option.map_some, page]
  rfl

/-- Two pages of a list without duplicates. -/
theorem page_eq_iff {α : Type*} {items : List α} (nodup : items.Nodup) (nonempty : 0 < max)
    (first second : Nat) :
    (items.drop first).take max = (items.drop second).take max ↔
      first = second ∨ items.length ≤ first ∧ items.length ≤ second := by
  constructor
  · intro same
    have heads := congrArg List.head? same
    rw [List.head?_take, List.head?_take, if_neg (Nat.ne_of_gt nonempty),
      if_neg (Nat.ne_of_gt nonempty), List.head?_drop, List.head?_drop] at heads
    by_cases inside : first < items.length
    · exact .inl ((List.getElem?_inj inside nodup).mp heads)
    · right
      rw [List.getElem?_eq_none (Nat.le_of_not_lt inside)] at heads
      exact ⟨Nat.le_of_not_lt inside, List.getElem?_eq_none_iff.mp heads.symm⟩
  · rintro (rfl | ⟨firstBehind, secondBehind⟩)
    · rfl
    · rw [List.drop_eq_nil_of_le firstBehind, List.drop_eq_nil_of_le secondBehind]

theorem nodup_listed (type : PostListType) (record : RecordFile PostRecord) :
    (listed type record).Nodup := by
  apply List.Nodup.filter
  apply List.Nodup.of_map Prod.snd
  rw [RecordFile.entriesFrom, List.zipIdx_map_snd]
  exact List.nodup_range'

/-- Two pages are printed alike exactly if they are the same. -/
theorem printed_eq_iff {posts shownPosts : List Entry} {first : Int} {total : Nat} :
    (some ⟨shownPosts.map (·, sticky), first, total⟩ : Option Page) =
      some ⟨posts.map (·, sticky), first, total⟩ ↔ shownPosts = posts := by
  have injective : Function.Injective fun entry : Entry => (entry, sticky) :=
    fun _ _ same => (Prod.mk.inj same).1
  rw [Option.some.injEq, Page.mk.injEq, and_iff_left ⟨rfl, rfl⟩,
    (List.map_injective_iff.mpr injective).eq_iff]

theorem printsPage_normal_iff (nonempty : 0 < max) (nonneg : 0 ≤ start)
    (isNotice : sticky = true → start = 0) :
    PrintsPage record start max .normal sticky ↔ StartsRight record start max .normal := by
  have posts : ((record.entriesFrom start.toNat).filter fun entry => shown .normal entry.1) =
      (listed .normal record).drop start.toNat := by
    have all : ∀ entry ∈ record.entriesFrom start.toNat, shown .normal entry.1 = true :=
      fun _ _ => rfl
    rw [listed_normal, List.filter_eq_self.mpr all, drop_entriesFrom]
  have length : (listed .normal record).length = record.records.length := by
    rw [listed_normal, length_entriesFrom, Nat.sub_zero]
  have fits : start.toNat * record.rlen < 2 ^ 31 ↔ start * record.rlen < 2 ^ 31 := by
    obtain ⟨offset, rfl⟩ := Int.eq_ofNat_of_zero_le nonneg
    rw [Int.toNat_natCast]
    norm_cast
  have first : pageStart start record.records.length max =
      min start (lastStart record.records.length max) := if_neg (by omega)
  have empty : record.records = [] ↔ record.records.length = 0 := List.length_eq_zero_iff.symm
  unfold PrintsPage StartsRight
  rw [printPosts_direct rfl start.toNat rfl isNotice, ← fits, posts, empty]
  by_cases small : start.toNat * record.rlen < 2 ^ 31
  · rw [if_pos small, and_iff_right small]
    change some (⟨((((listed .normal record).drop start.toNat).drop 0).take max).map (·, sticky),
      pageStart start record.records.length max, record.records.length⟩ : Page) =
        some ⟨(((listed .normal record).drop
          (pageStart start (listed .normal record).length max).toNat).take max).map (·, sticky),
          pageStart start (listed .normal record).length max,
          (listed .normal record).length⟩ ↔ _
    rw [length, printed_eq_iff, List.drop_zero, page_eq_iff (nodup_listed _ _) nonempty, length,
      first, lastStart]
    omega
  · rw [if_neg small]
    exact iff_of_false (Option.some_ne_none _).symm fun right => small right.1

/-- A page of the threads or of the digest. -/
theorem printsPage_other_iff (other : type ≠ .normal) (nonempty : 0 < max)
    (isNotice : sticky = true → start = 0) :
    PrintsPage record start max type sticky ↔
      start ≤ 0 ∨ listed type record = [] ∨
        start = lastStart (listed type record).length max + 1 := by
  by_cases fromEnd : start < 0
  · exact iff_of_true (printPosts_saved nonempty other fromEnd isNotice)
      (.inl (Int.le_of_lt fromEnd))
  have notNormal : (type == .normal) = false := beq_eq_false_iff_ne.mpr other
  have noRing : (callbackOf start max type sticky).prs = none := by
    apply if_neg
    simp [fromEnd]
  have begins : (callbackOf start max type sticky).start = start := by
    change (if (type == .normal) = true then 0 else start) = start
    rw [notNormal, if_neg Bool.false_ne_true]
  have first : pageStart start (listed type record).length max =
      min start (lastStart (listed type record).length max) := if_neg fromEnd
  unfold PrintsPage
  rw [printPosts_direct noRing 0 (by rw [notNormal]; rfl) isNotice, Nat.zero_mul,
    if_pos (by decide), begins]
  simp only [notNormal, Bool.false_eq_true, if_false]
  change some (⟨(((listed type record).drop (start - 1).toNat).take max).map (·, sticky),
    pageStart start (listed type record).length max, (listed type record).length⟩ : Page) = _ ↔ _
  rw [printed_eq_iff, page_eq_iff (nodup_listed _ _) nonempty, first, ← List.length_eq_zero_iff,
    lastStart]
  omega

/-- The posts from the corrected start on are printed exactly if a list of all posts is not
asked for a start behind its last page, and a list of threads or of the digest for none but its
first page, its last page by a negative start, or the start behind that of the last page. -/
theorem printsPage_iff (nonempty : 0 < max) (fromFront : type = .normal → 0 ≤ start)
    (isNotice : sticky = true → start = 0) :
    PrintsPage record start max type sticky ↔ StartsRight record start max type := by
  cases type with
  | normal => exact printsPage_normal_iff nonempty (fromFront rfl) isNotice
  | topic => exact printsPage_other_iff (by decide) nonempty isNotice
  | digest => exact printsPage_other_iff (by decide) nonempty isNotice

end Pages

/-- A board with threads of one post each. -/
def fourThreads : RecordFile PostRecord where
  records := [threadRecord 1 1, threadRecord 2 2, threadRecord 3 3, threadRecord 4 4]
  rlen := 168
  rlen_pos := postSize_pos
  rlen_le := postSize_le
  count_lt := by simp

theorem fourThreads_printsPage :
    PrintsPage fourThreads (-1) 2 .topic false :=
  (printsPage_iff (by decide) (by decide) (by decide)).mpr (.inl (by decide))

/-- From the second thread on, the first one is printed; and of the last page of all posts,
only the last post. -/
theorem fourThreads_not_printsPage :
    ¬PrintsPage fourThreads 1 2 .topic false ∧ ¬PrintsPage fourThreads 3 2 .normal false := by
  unfold PrintsPage
  decide

end WebListPages

end Fbbs
