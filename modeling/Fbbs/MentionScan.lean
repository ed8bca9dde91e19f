import Fbbs.FirstOccurrences
import Fbbs.Notifications
import Mathlib.Data.List.Infix

/-!
# Scanning a post for mentions

`post_scan_for_mentions` of `lib/post.c` collects the names behind an `@` in a table with
`POST_MENTION_LIMIT` places.  The number of names goes on when the table is full, and the search
for an earlier mention then reads behind its end.
-/

namespace Fbbs

namespace MentionScan

open Notifications FirstOccurrences

/-- The local variables `user_names` and `count`, and the names with which the handler has
been called. -/
structure Scan where
  userNames : Nat → Bytes
  count : Nat
  calls : List Bytes

def Scan.start : Scan where
  userNames _ := []
  count := 0
  calls := []

/-- The loop of `process_mention` over the places from `i` on; `none` behind the table. -/
def compareNames (userNames : Nat → Bytes) (userName : Bytes) : Nat → Nat → Option Bool
  | 0, _ => some false
  | left + 1, i =>
    if i < postMentionLimit then
      if strcaseeq userName (userNames i) then some true
      else compareNames userNames userName left (i + 1)
    else none

/-- `process_mention`, and the addition to `count`. -/
def processMention (scan : Scan) (userName : Bytes) : Option Scan :=
  (compareNames scan.userNames userName scan.count 0).map fun found =>
    if found then scan
    else if scan.count < postMentionLimit then
      { userNames := Function.update scan.userNames scan.count (userName.take idLen)
        count := scan.count + 1
        calls := scan.calls ++ [userName] }
    else { scan with count := scan.count + 1 }

/-- `next_mention`: the name and the rest of the line.  `at_` holds the letters since `at`. -/
def nextMention : Option Bytes → Bytes → Bytes × Bytes
  | _, [] => ([], [])
  | some letters, byte :: rest =>
    if isalpha byte then nextMention (some (letters ++ [byte])) rest
    else if byte ≠ dot ∧ 2 ≤ letters.length ∧ letters.length < idLen + 1 then
      (letters, byte :: rest)
    else nextMention (if byte = atSign then some [] else none) rest
  | none, byte :: rest => nextMention (if byte = atSign then some [] else none) rest

/-- The loop over the mentions of a line; `none` also if it does not end in time. -/
def scanLine : Nat → Bytes → Scan → Option Scan
  | _, [], scan => some scan
  | 0, _ :: _, _ => none
  | fuel + 1, byte :: rest, scan =>
    let (userName, ptr) := nextMention none (byte :: rest)
    (if userName ≠ [] then processMention scan userName else some scan).bind
      (scanLine fuel ptr)

/-- A line up to its `get_line_end`, and the rest of the text. -/
def splitLine : Bytes → Bytes × Bytes
  | [] => ([], [])
  | byte :: rest =>
    if byte = newline then ([byte], rest)
    else (byte :: (splitLine rest).1, (splitLine rest).2)

/-- The loop over the lines. -/
def scanLines : Nat → Bytes → Scan → Option Scan
  | _, [], scan => some scan
  | 0, _ :: _, _ => none
  | fuel + 1, byte :: rest, scan =>
    let (line, behind) := splitLine (byte :: rest)
    if quoted line then scanLines fuel behind scan
    else (scanLine line.length line scan).bind (scanLines fuel behind)

/-- `post_scan_for_mentions`: the variables when it returns. -/
def postScanForMentions (title content : CString) : Option Scan :=
  let text := mentionText title.bytes content.bytes
  scanLines text.length text Scan.start

/-! ## The mentions of a post -/

/-- The letters behind an `@` that some other character than a dot follows. -/
def mentionAt : Bytes → Option Bytes
  | [] => none
  | byte :: rest =>
    let letters := rest.takeWhile isalpha
    if byte = atSign ∧ 2 ≤ letters.length ∧ letters.length ≤ idLen ∧
        (rest.dropWhile isalpha).head?.any (· ≠ dot) then some letters
    else none

/-- The names that a line mentions. -/
def mentionsOf (line : Bytes) : List Bytes :=
  line.tails.filterMap mentionAt

/-- The names that a post mentions, in their order and with repetitions. -/
def mentions (title content : CString) : List Bytes :=
  ((textLines [] (mentionText title.bytes content.bytes)).filter (!quoted ·)).flatMap mentionsOf

/-- Names without case. -/
def lowered (name : Bytes) : Bytes :=
  name.map AsciiBytes.tolower

/-- The names with which the handler should be called. -/
def notified (title content : CString) : List Bytes :=
  (firsts lowered (mentions title content)).take postMentionLimit

section Lines

/-- A call of `next_mention` finds the first of the names in what is left of a line. -/
theorem nextMention_cases (at_ : Option Bytes) (line : Bytes) :
    nextMention at_ line = ([], []) ∧ nextMentions at_ line = [] ∨
      ∃ userName ptr, nextMention at_ line = (userName, ptr) ∧ userName ≠ [] ∧
        ptr.length ≤ line.length ∧ (at_ = none → ptr.length < line.length) ∧
        nextMentions at_ line = userName :: nextMentions none ptr := by
  induction line generalizing at_ with
  | nil => exact .inl ⟨by cases at_ <;> rfl, by cases at_ <;> rfl⟩
  | cons byte rest ih =>
    have shorter : ∀ next : Option Bytes, nextMention at_ (byte :: rest) = nextMention next rest →
        nextMentions at_ (byte :: rest) = nextMentions next rest →
        nextMention at_ (byte :: rest) = ([], []) ∧ nextMentions at_ (byte :: rest) = [] ∨
          ∃ userName ptr, nextMention at_ (byte :: rest) = (userName, ptr) ∧ userName ≠ [] ∧
            ptr.length ≤ (byte :: rest).length ∧
            (at_ = none → ptr.length < (byte :: rest).length) ∧
            nextMentions at_ (byte :: rest) = userName :: nextMentions none ptr := by
      intro next found names
      rw [found, names]
      refine (ih next).imp id ?_
      rintro ⟨userName, ptr, isFound, nonempty, length_le, -, isNames⟩
      refine ⟨userName, ptr, isFound, nonempty, ?_, fun _ => ?_, isNames⟩
      · exact Nat.le_succ_of_le length_le
      · exact Nat.lt_succ_of_le length_le
    cases at_ with
    | none => exact shorter _ rfl rfl
    | some letters =>
      by_cases letter : isalpha byte = true
      · apply shorter (some (letters ++ [byte]))
        · rw [nextMention, if_pos letter]
        · simp only [nextMentions, if_pos letter]
      · by_cases mention : byte ≠ dot ∧ 2 ≤ letters.length ∧ letters.length < idLen + 1
        · right
          refine ⟨letters, byte :: rest, ?_, ?_, Nat.le_refl _,
            fun isNone => absurd isNone (Option.some_ne_none letters), ?_⟩
          · rw [nextMention, if_neg letter, if_pos mention]
          · rintro rfl
            exact absurd mention.2.1 (by decide)
          · simp only [nextMentions, if_neg letter, if_pos mention, List.singleton_append]
        · apply shorter (if byte = atSign then some [] else none)
          · rw [nextMention, if_neg letter, if_neg mention]
          · simp only [nextMentions, if_neg letter, if_neg mention, List.nil_append]

/-- The loop over a line passes its names to `process_mention`. -/
theorem scanLine_eq {fuel : Nat} {line : Bytes} (enough : line.length ≤ fuel) (scan : Scan) :
    scanLine fuel line scan = (nextMentions none line).foldlM processMention scan := by
  induction fuel generalizing line scan with
  | zero =>
    rw [List.eq_nil_of_length_eq_zero (Nat.le_zero.mp enough)]
    rfl
  | succ fuel ih =>
    cases line with
    | nil => rfl
    | cons byte rest =>
      rw [scanLine]
      rcases nextMention_cases none (byte :: rest) with
        ⟨found, names⟩ | ⟨userName, ptr, found, nonempty, -, shorter, names⟩
      · rw [found, names]
        dsimp only
        rw [if_neg (not_not.mpr rfl), Option.bind_some, @ih [] (Nat.zero_le fuel)]
        rfl
      · rw [found, names, List.foldlM_cons]
        dsimp only
        rw [if_pos nonempty]
        have left : ptr.length ≤ fuel := by
          have less := shorter rfl
          rw [List.length_cons] at less enough
          omega
        congr 1
        funext next
        exact ih left next

theorem length_splitLine (byte : UInt8) (rest : Bytes) :
    (splitLine (byte :: rest)).2.length ≤ rest.length := by
  induction rest generalizing byte with
  | nil =>
    rw [splitLine]
    split <;> exact Nat.le_refl _
  | cons next rest ih =>
    rw [splitLine]
    split
    · exact Nat.le_refl _
    · exact Nat.le_succ_of_le (ih next)

theorem textLines_splitLine (line : Bytes) (byte : UInt8) (rest : Bytes) :
    textLines line (byte :: rest) =
      (line ++ (splitLine (byte :: rest)).1) :: textLines [] (splitLine (byte :: rest)).2 := by
  induction rest generalizing line byte with
  | nil =>
    rw [textLines, splitLine]
    split
    · rfl
    · rw [textLines, if_neg (by simp)]
      rfl
  | cons next rest ih =>
    rw [textLines, splitLine]
    split
    · rfl
    · rw [ih, List.append_assoc]
      rfl

/-- The loop over the lines passes the names of the post to `process_mention`. -/
theorem scanLines_eq {fuel : Nat} {text : Bytes} (enough : text.length ≤ fuel) (scan : Scan) :
    scanLines fuel text scan =
      (((textLines [] text).filter (!quoted ·)).flatMap (nextMentions none)).foldlM
        processMention scan := by
  induction fuel generalizing text scan with
  | zero =>
    rw [List.eq_nil_of_length_eq_zero (Nat.le_zero.mp enough)]
    rfl
  | succ fuel ih =>
    cases text with
    | nil => rfl
    | cons byte rest =>
      have left : (splitLine (byte :: rest)).2.length ≤ fuel := by
        have less := length_splitLine byte rest
        rw [List.length_cons] at enough
        omega
      rw [scanLines, textLines_splitLine, List.nil_append, List.filter_cons]
      dsimp only
      by_cases isQuoted : quoted (splitLine (byte :: rest)).1 = true
      · rw [if_pos isQuoted, ih left, isQuoted]
        rfl
      · rw [if_neg isQuoted, Bool.eq_false_iff.mpr isQuoted, Bool.not_false, if_pos rfl,
          List.flatMap_cons, List.foldlM_append, scanLine_eq (Nat.le_refl _)]
        congr 1
        funext next
        exact ih left next

/-- Behind an `@`, the letters are a name if the right character follows them. -/
theorem nextMentions_letters (letters line : Bytes) :
    nextMentions (some letters) line =
      (if 2 ≤ (letters ++ line.takeWhile isalpha).length ∧
          (letters ++ line.takeWhile isalpha).length ≤ idLen ∧
          (line.dropWhile isalpha).head?.any (· ≠ dot) then
        [letters ++ line.takeWhile isalpha] else []) ++ nextMentions none line := by
  induction line generalizing letters with
  | nil => simp [nextMentions]
  | cons byte rest ih =>
    by_cases letter : isalpha byte = true
    · have other : byte ≠ atSign := by
        rintro rfl
        exact absurd letter (by decide)
      simp only [nextMentions, if_pos letter, ih, List.takeWhile_cons, List.dropWhile_cons,
        List.append_assoc, List.singleton_append, if_neg other]
    · simp only [nextMentions, if_neg letter, List.takeWhile_cons, List.dropWhile_cons,
        List.append_nil, List.head?_cons, Option.any_some, decide_eq_true_eq,
        Nat.lt_succ_iff]
      congr 1
      congr 1
      simp only [eq_iff_iff]
      tauto

/-- The scan of a line finds the names that it mentions. -/
theorem nextMentions_eq (line : Bytes) : nextMentions none line = mentionsOf line := by
  induction line with
  | nil => rfl
  | cons byte rest ih =>
    rw [mentionsOf, List.tails_cons, List.filterMap_cons, ← mentionsOf, ← ih, nextMentions,
      mentionAt]
    by_cases isAt : byte = atSign
    · rw [if_pos isAt, nextMentions_letters, List.nil_append]
      simp only [isAt, true_and]
      split <;> rfl
    · rw [if_neg isAt, if_neg fun mention => isAt mention.1]

end Lines

section Table

/-- The table holds the kept names, and some names have been counted beyond its limit. -/
structure Holds (kept : List Bytes) (outside : Nat) (scan : Scan) : Prop where
  count : scan.count = kept.length + outside
  calls : scan.calls = kept
  names : ∀ i < kept.length, kept[i]? = some (scan.userNames i)
  short : kept.length ≤ postMentionLimit
  full : outside ≠ 0 → kept.length = postMentionLimit

theorem known_lowered (kept : List Bytes) (name : Bytes) :
    known lowered kept name = kept.any (strcaseeq name) := by
  unfold known
  congr 1
  funext other
  rw [Bool.eq_iff_iff, decide_eq_true_iff, strcaseeq, beq_iff_eq]
  rfl

theorem compareNames_eq {kept : List Bytes} {userNames : Nat → Bytes} {outside : Nat}
    (names : ∀ i < kept.length, kept[i]? = some (userNames i))
    (short : kept.length ≤ postMentionLimit)
    (full : outside ≠ 0 → kept.length = postMentionLimit) (name : Bytes) {left i : Nat}
    (place : left + i = kept.length) :
    compareNames userNames name (left + outside) i =
      if (kept.drop i).any (strcaseeq name) then some true
      else if outside = 0 then some false else none := by
  induction left generalizing i with
  | zero =>
    rw [List.drop_eq_nil_of_le (by omega), List.any_nil, if_neg Bool.false_ne_true]
    cases outside with
    | zero => rfl
    | succ outside =>
      have atLimit := full (Nat.succ_ne_zero outside)
      rw [Nat.zero_add, compareNames, if_neg (by omega), if_neg (Nat.succ_ne_zero outside)]
  | succ left ih =>
    have inside : i < kept.length := by omega
    have entry := names i inside
    rw [Nat.add_right_comm, compareNames, if_pos (by omega), List.drop_eq_getElem_cons inside]
    obtain ⟨_, here⟩ := List.getElem?_eq_some_iff.mp entry
    rw [here, List.any_cons, ih (by omega)]
    by_cases same : strcaseeq name (userNames i) = true
    · rw [if_pos same, same, Bool.true_or, if_pos rfl]
    · rw [if_neg same, Bool.eq_false_iff.mpr same, Bool.false_or]

variable {kept : List Bytes} {outside : Nat} {scan : Scan} {name : Bytes}

theorem Holds.compare (holds : Holds kept outside scan) (name : Bytes) :
    compareNames scan.userNames name scan.count 0 =
      if known lowered kept name then some true
      else if outside = 0 then some false else none := by
  have compared := compareNames_eq holds.names holds.short holds.full name
    (Nat.add_zero kept.length)
  rw [List.drop_zero] at compared
  rw [holds.count, compared, known_lowered]

/-- A name that is known changes nothing. -/
theorem processMention_known (holds : Holds kept outside scan)
    (old : known lowered kept name = true) : processMention scan name = some scan := by
  rw [processMention, holds.compare, if_pos old]
  rfl

/-- A new name is entered while there is room. -/
theorem processMention_new (holds : Holds kept outside scan) (fits : name.length ≤ idLen)
    (new : ¬known lowered kept name = true) (room : kept.length < postMentionLimit) :
    ∃ next, processMention scan name = some next ∧ Holds (kept ++ [name]) 0 next := by
  have none : outside = 0 := by
    by_contra some
    have full := holds.full some
    omega
  have count : scan.count = kept.length := by
    rw [holds.count, none, Nat.add_zero]
  rw [processMention, holds.compare, if_neg new, if_pos none, Option.map_some,
    if_neg Bool.false_ne_true, if_pos (by omega), List.take_of_length_le fits, count]
  refine ⟨_, rfl, ?_, ?_, ?_, ?_, fun some => absurd rfl some⟩
  · rw [List.length_append, List.length_singleton, Nat.add_zero]
  · rw [holds.calls]
  · intro i inside
    rw [List.length_append, List.length_singleton] at inside
    change _ = some (Function.update scan.userNames kept.length name i)
    by_cases last : i = kept.length
    · rw [last, List.getElem?_concat_length, Function.update_self]
    · rw [List.getElem?_append_left (by omega), Function.update_of_ne last]
      exact holds.names i (by omega)
  · rw [List.length_append, List.length_singleton]
    exact room

/-- The first new name that a full table meets is counted. -/
theorem processMention_counted (holds : Holds kept 0 scan)
    (new : ¬known lowered kept name = true) (full : ¬kept.length < postMentionLimit) :
    ∃ next, processMention scan name = some next ∧ Holds kept 1 next := by
  have count := holds.count
  rw [processMention, holds.compare, if_neg new, if_pos rfl, Option.map_some,
    if_neg Bool.false_ne_true, if_neg (by omega)]
  refine ⟨_, rfl, ?_, holds.calls, holds.names, holds.short, fun _ => ?_⟩
  · rw [count]
  · exact Nat.le_antisymm holds.short (Nat.not_lt.mp full)

/-- For the second one the search leaves the table. -/
theorem processMention_outside (holds : Holds kept 1 scan)
    (new : ¬known lowered kept name = true) : processMention scan name = none := by
  rw [processMention, holds.compare, if_neg new, if_neg Nat.one_ne_zero]
  rfl

/-- What becomes of the table when names are passed to `process_mention`. -/
theorem foldlM_processMention {names : List Bytes} (fits : ∀ name ∈ names, name.length ≤ idLen)
    (holds : Holds kept outside scan) (few : outside ≤ 1) :
    (outside + beyond lowered postMentionLimit kept names ≤ 1 ∧
        ∃ final, names.foldlM processMention scan = some final ∧
          Holds (names.foldl (keep lowered postMentionLimit) kept)
            (outside + beyond lowered postMentionLimit kept names) final) ∨
      (¬outside + beyond lowered postMentionLimit kept names ≤ 1 ∧
        names.foldlM processMention scan = none) := by
  induction names generalizing kept outside scan with
  | nil => exact .inl ⟨few, scan, rfl, holds⟩
  | cons name names ih =>
    obtain ⟨nameFits, restFits⟩ := List.forall_mem_cons.mp fits
    rw [List.foldlM_cons, List.foldl_cons, beyond]
    by_cases old : known lowered kept name = true
    · have same : keep lowered postMentionLimit kept name = kept := if_pos old
      rw [if_pos old, same, processMention_known holds old]
      exact ih restFits holds few
    · rw [if_neg old]
      by_cases room : kept.length < postMentionLimit
      · obtain ⟨next, processed, nextHolds⟩ := processMention_new holds nameFits old room
        have none : outside = 0 := by
          by_contra some
          have full := holds.full some
          omega
        have added : keep lowered postMentionLimit kept name = kept ++ [name] := by
          rw [keep, if_neg old, if_pos room]
        rw [if_pos room, added, processed, none]
        exact ih restFits nextHolds (Nat.zero_le 1)
      · have same : keep lowered postMentionLimit kept name = kept := by
          rw [keep, if_neg old, if_neg room]
        rw [if_neg room, same]
        cases outside with
        | zero =>
          obtain ⟨next, processed, nextHolds⟩ := processMention_counted holds old room
          have rest := ih restFits nextHolds (Nat.le_refl 1)
          rw [processed, Nat.zero_add, Nat.add_comm _ 1]
          exact rest
        | succ outside =>
          have one : outside = 0 := by omega
          subst one
          rw [processMention_outside holds old]
          exact .inr ⟨by omega, rfl⟩

theorem Scan.start_holds : Holds [] 0 Scan.start :=
  ⟨rfl, rfl, nofun, Nat.zero_le _, fun some => absurd rfl some⟩

end Table

theorem mentions_eq (title content : CString) :
    mentions title content =
      ((textLines [] (mentionText title.bytes content.bytes)).filter (!quoted ·)).flatMap
        (nextMentions none) := by
  unfold mentions
  congr 1
  funext line
  exact (nextMentions_eq line).symm

theorem length_of_mem_mentions {title content : CString} {name : Bytes}
    (mentioned : name ∈ mentions title content) : name.length ≤ idLen := by
  rw [mentions_eq, List.mem_flatMap] at mentioned
  obtain ⟨line, -, found⟩ := mentioned
  exact length_of_mem_nextMentions found

theorem postScanForMentions_eq (title content : CString) :
    postScanForMentions title content =
      (mentions title content).foldlM processMention Scan.start := by
  rw [postScanForMentions, mentions_eq]
  exact scanLines_eq (Nat.le_refl _) Scan.start

/-- The mentions of names that are not notified. -/
def unnotified (title content : CString) : Nat :=
  (mentions title content).countP fun name => !known lowered (notified title content) name

/-- The scan ends without leaving the table, and the handler has been called with the first
distinct names, exactly if at most one mention is not of one of them. -/
theorem scans_iff (title content : CString) :
    (∃ scan, postScanForMentions title content = some scan ∧
        scan.calls = notified title content) ↔
      unnotified title content ≤ 1 := by
  have fits : ∀ name ∈ mentions title content, name.length ≤ idLen :=
    fun name mentioned => length_of_mem_mentions mentioned
  have outside : beyond lowered postMentionLimit [] (mentions title content) =
      unnotified title content := by
    rw [beyond_eq, foldl_keep_nil]
    rfl
  have result := foldlM_processMention fits Scan.start_holds (Nat.zero_le 1)
  rw [Nat.zero_add, outside, foldl_keep_nil, ← postScanForMentions_eq] at result
  rcases result with ⟨few, final, scans, holds⟩ | ⟨many, leaves⟩
  · exact iff_of_true ⟨final, scans, holds.calls⟩ few
  · refine iff_of_false ?_ many
    rintro ⟨scan, scans, -⟩
    rw [leaves] at scans
    cases scans

/-- A line with mentions of `aa`, `ab` and so on. -/
def mentionsLine (count : Nat) : Bytes :=
  (List.range count).flatMap fun i => [64, 97, .ofNat (97 + i), 32]

/-- Twelve names in one line: the twelfth is compared with a name behind the table. -/
theorem twelveNames_leave_table :
    postScanForMentions .empty (.ofBytes (mentionsLine 12)) = none ∧
      ¬∃ scan, postScanForMentions .empty (.ofBytes (mentionsLine 12)) = some scan ∧
        scan.calls = notified .empty (.ofBytes (mentionsLine 12)) := by
  have leaves : postScanForMentions .empty (.ofBytes (mentionsLine 12)) = none := by
    rw [← Option.isNone_iff_eq_none]
    decide
  refine ⟨leaves, ?_⟩
  rintro ⟨scan, scans, -⟩
  rw [leaves] at scans
  cases scans

end MentionScan

end Fbbs
