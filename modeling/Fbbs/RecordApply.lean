import Fbbs.RecordScan

/-!
# Updating and deleting records in place

`record_apply` of `lib/record.c` maps a record file and passes its records to a callback,
which may write to them.  To delete, the records that are not matched are moved forward over
the matched ones while the scan goes on.  A break ends the scan only if nothing is deleted.
-/

namespace Fbbs

namespace RecordApply

open CallbackScan RecordScan

variable {Record State : Type*}

/-- What a callback answers, its arguments and the record afterwards. -/
structure Answer (State Record : Type*) where
  reply : Reply
  args : State
  written : Record

abbrev Callback (State Record : Type*) :=
  State → Record → Nat → Answer State Record

/-- What a call of `record_apply` leaves: the file, the number that it returns, and the
records that it has passed to the callback. -/
@[ext]
structure Applied (State Record : Type*) where
  args : State
  file : List Record
  affected : Nat
  calls : List (Record × Nat)

section Code

variable (callback : Callback State Record)

def checkOffset (cmp : Record → Record → Int) (ptr : Option Record) (offset : Nat)
    (rec : RecordFile Record) : Option Nat :=
  match ptr with
  | none => some offset
  | some other =>
    if offset = 0 then some 0
    else if isInt (offset * rec.rlen) then
      match rec.records[offset]? with
      | some record => some (if cmp record other ≤ 0 then offset else 0)
      | none => some 0
    else none

/-- The loop, with the number of records that are left. -/
def applyLoop (delete : Bool) (len : Nat) :
    Nat → Nat → Applied State Record → Option (Applied State Record)
  | 0, _, applied => some applied
  | left + 1, offset, applied =>
    match applied.file[offset]? with
    | none => none
    | some record =>
      let answer := callback applied.args record offset
      let called : Applied State Record :=
        { applied with
          args := answer.args
          file := applied.file.set offset answer.written
          calls := applied.calls ++ [(record, offset)] }
      if answer.reply = .found then
        applyLoop delete len left (offset + 1)
          { called with affected := applied.affected + 1 }
      else if delete then
        if isInt (applied.affected * len) then
          applyLoop delete len left (offset + 1)
            { called with
              file := called.file.set (offset - applied.affected) answer.written }
        else none
      else if answer.reply = .stop then some called
      else applyLoop delete len left (offset + 1) called

def recordApply (delete : Bool) (cmp : Record → Record → Int) (ptr : Option Record)
    (offset : Nat) (args : State) (rec : RecordFile Record) : Option (Applied State Record) :=
  (checkOffset cmp ptr offset rec).bind fun offset =>
    if isInt (offset * rec.rlen) then
      (applyLoop callback delete rec.rlen (rec.records.length - offset) offset
        ⟨args, rec.records, 0, []⟩).bind fun applied =>
          if applied.affected ≠ 0 ∧ delete = true then
            if isInt (applied.affected * rec.rlen) then
              some { applied with
                file := applied.file.take (rec.records.length - applied.affected) }
            else none
          else some applied
    else none

end Code

/-! ## What is to be done -/

/-- A call of the callback: the record before and after it, and the answer. -/
structure Visit (Record : Type*) where
  before : Record
  index : Nat
  reply : Reply
  after : Record

def Visit.matched (visit : Visit Record) : Bool :=
  visit.reply == .found

/-- The offset from which on records are passed to the callback. -/
def acceptedOffset (cmp : Record → Record → Int) (ptr : Option Record) (offset : Nat)
    (rec : RecordFile Record) : Nat :=
  match ptr, rec.records[offset]? with
  | none, _ => offset
  | some other, some record => if cmp record other ≤ 0 then offset else 0
  | some _, none => 0

section Visits

variable (callback : Callback State Record)

/-- The calls on some entries, up to the first break if breaks are heeded, and the arguments
after them. -/
def visits (heeded : Bool) : State → List (Record × Nat) → List (Visit Record) × State
  | args, [] => ([], args)
  | args, (record, index) :: entries =>
    let answer := callback args record index
    let visit : Visit Record := ⟨record, index, answer.reply, answer.written⟩
    if heeded = true ∧ answer.reply = .stop then ([visit], answer.args)
    else
      let later := visits heeded answer.args entries
      (visit :: later.1, later.2)

/-- The records that some calls leave in the file. -/
def kept (delete : Bool) (made : List (Visit Record)) : List Record :=
  (made.filter fun visit => !(delete && visit.matched)).map Visit.after

/-- What is left after some calls: the records before them, those that were passed to the
callback as it has left them, and what stands behind. -/
def outcome (delete : Bool) (front back : List Record) (affected : Nat)
    (calls : List (Record × Nat)) (made : List (Visit Record) × State) :
    Applied State Record where
  args := made.2
  file := front ++ kept delete made.1 ++ back
  affected := affected + made.1.countP Visit.matched
  calls := calls ++ made.1.map fun visit => (visit.before, visit.index)

/-- What `record_apply` is to do: nothing before the offset, one call for each record from
there up to the first break, nothing behind. -/
def expected (delete : Bool) (args : State) (rec : RecordFile Record) (offset : Nat) :
    Applied State Record :=
  let made := visits callback true args (rec.entriesFrom offset)
  outcome delete (rec.records.take offset) (rec.records.drop (offset + made.1.length)) 0 [] made

end Visits

variable {callback : Callback State Record} {rec : RecordFile Record}

theorem length_visits_false (args : State) (entries : List (Record × Nat)) :
    (visits callback false args entries).1.length = entries.length := by
  induction entries generalizing args with
  | nil => rfl
  | cons entry entries ih =>
    rw [visits, if_neg fun heeded => Bool.false_ne_true heeded.1, List.length_cons,
      List.length_cons, ih]

/-- Breaks do not matter if none comes before the last entry. -/
theorem visits_false_eq {args : State} {entries : List (Record × Nat)}
    (all : (visits callback true args entries).1.length = entries.length) :
    visits callback false args entries = visits callback true args entries := by
  induction entries generalizing args with
  | nil => rfl
  | cons entry entries ih =>
    rw [visits, visits, if_neg fun heeded => Bool.false_ne_true heeded.1]
    rw [visits] at all
    by_cases stops : (callback args entry.1 entry.2).reply = .stop
    · rw [if_pos ⟨rfl, stops⟩] at all
      have last : entries = [] := by
        rw [List.length_cons, List.length_cons, List.length_nil] at all
        exact List.eq_nil_of_length_eq_zero (by omega)
      rw [if_pos ⟨rfl, stops⟩, last]
      rfl
    · have goesOn : ¬(true = true ∧ (callback args entry.1 entry.2).reply = .stop) :=
        fun heeded => stops heeded.2
      rw [if_neg goesOn] at all
      rw [if_neg goesOn, ih (Nat.succ.inj all)]

/-- Called on all of the entries, the callback breaks on none but the last. -/
def BreaksAtEnd (callback : Callback State Record) (args : State)
    (entries : List (Record × Nat)) : Prop :=
  ∀ visit ∈ (visits callback false args entries).1.dropLast, visit.reply ≠ .stop

theorem breaksAtEnd_cons {args : State} {entry next : Record × Nat}
    {entries : List (Record × Nat)} :
    BreaksAtEnd callback args (entry :: next :: entries) ↔
      (callback args entry.1 entry.2).reply ≠ .stop ∧
        BreaksAtEnd callback (callback args entry.1 entry.2).args (next :: entries) := by
  have later : (visits callback false (callback args entry.1 entry.2).args
      (next :: entries)).1 ≠ [] := by
    apply List.ne_nil_of_length_pos
    rw [length_visits_false]
    exact Nat.succ_pos _
  unfold BreaksAtEnd
  rw [visits, if_neg fun heeded => Bool.false_ne_true heeded.1,
    List.dropLast_cons_of_ne_nil later, List.forall_mem_cons]

theorem breaksAtEnd_iff {args : State} {entries : List (Record × Nat)} :
    BreaksAtEnd callback args entries ↔
      (visits callback true args entries).1.length = entries.length := by
  induction entries generalizing args with
  | nil => simp [BreaksAtEnd, visits]
  | cons entry entries ih =>
    rw [visits]
    by_cases stops : (callback args entry.1 entry.2).reply = .stop
    · rw [if_pos ⟨rfl, stops⟩, List.length_singleton, List.length_cons]
      cases entries with
      | nil => simp [BreaksAtEnd, visits]
      | cons next entries => simp [breaksAtEnd_cons, stops]
    · rw [if_neg fun heeded => stops heeded.2, List.length_cons, List.length_cons,
        Nat.add_right_cancel_iff, ← ih]
      cases entries with
      | nil => simp [BreaksAtEnd, visits]
      | cons next entries => simp [breaksAtEnd_cons, stops]

theorem isInt_mul (count len : Nat) :
    isInt ((count : Int) * len) = decide (count * len < 2 ^ 31) := by
  rw [← Int.natCast_mul]
  rfl

theorem checkOffset_eq (cmp : Record → Record → Int) (ptr : Option Record) {offset : Nat}
    (fits : offset * rec.rlen < 2 ^ 31) :
    checkOffset cmp ptr offset rec = some (acceptedOffset cmp ptr offset rec) := by
  have isFit : isInt ((offset : Int) * rec.rlen) = true := by
    rw [isInt_mul]
    exact decide_eq_true fits
  unfold checkOffset acceptedOffset
  cases ptr with
  | none => rfl
  | some other =>
    by_cases zero : offset = 0
    · subst zero
      cases rec.records[0]? <;> simp
    · simp only [if_neg zero, isFit, if_true]
      cases rec.records[offset]? <;> rfl

section Loops

variable {len left offset affected : Nat} {args : State} {calls : List (Record × Nat)}

/-- The first call of several, if its record stays in the file. -/
theorem outcome_cons_kept {delete : Bool} {front back : List Record} {visit : Visit Record}
    {later : List (Visit Record) × State} (stays : (delete && visit.matched) = false) :
    outcome delete front back affected calls (visit :: later.1, later.2) =
      outcome delete (front ++ [visit.after]) back
        (if visit.matched then affected + 1 else affected)
        (calls ++ [(visit.before, visit.index)]) later := by
  unfold outcome kept
  rw [List.filter_cons_of_pos (by rw [stays]; rfl), List.countP_cons]
  congr 1
  · simp only [List.map_cons, List.append_assoc, List.singleton_append]
  · split <;> omega
  · simp only [List.map_cons, List.append_assoc, List.singleton_append]

/-- The first call of several, if its record is deleted. -/
theorem outcome_cons_deleted {front back : List Record} {visit : Visit Record}
    {later : List (Visit Record) × State} (matched : visit.matched = true) :
    outcome true front back affected calls (visit :: later.1, later.2) =
      outcome true front back (affected + 1) (calls ++ [(visit.before, visit.index)])
        later := by
  unfold outcome kept
  rw [List.filter_cons_of_neg (by rw [matched]; decide), List.countP_cons_of_pos matched]
  congr 1
  · omega
  · simp only [List.map_cons, List.append_assoc, List.singleton_append]

/-- Scanning without deleting: what is behind the offset has not been read yet. -/
theorem applyLoop_update {front rest : List Record} (atFront : front.length = offset) :
    applyLoop callback false len rest.length offset ⟨args, front ++ rest, affected, calls⟩ =
      some (outcome false front
        (rest.drop (visits callback true args (rest.zipIdx offset)).1.length) affected calls
        (visits callback true args (rest.zipIdx offset))) := by
  induction rest generalizing args front offset affected calls with
  | nil => simp [applyLoop, visits, outcome, kept]
  | cons record rest ih =>
    have reads : (front ++ record :: rest)[offset]? = some record := by
      rw [List.getElem?_append_right (Nat.le_of_eq atFront), atFront, Nat.sub_self]
      rfl
    have writes (written : Record) :
        (front ++ record :: rest).set offset written = front ++ [written] ++ rest := by
      rw [List.set_append_right _ _ (Nat.le_of_eq atFront), atFront, Nat.sub_self,
        List.append_assoc]
      rfl
    have next (written : Record) : (front ++ [written]).length = offset + 1 := by
      rw [List.length_append, List.length_singleton, atFront]
    rw [List.length_cons, applyLoop, List.zipIdx_cons, visits]
    simp only [reads, writes, Bool.false_eq_true, if_false, true_and]
    cases reply : (callback args record offset).reply with
    | found =>
      simp only [if_true, reduceCtorEq, if_false, ih (next _)]
      rw [outcome_cons_kept rfl]
      rfl
    | next =>
      simp only [reduceCtorEq, if_false, ih (next _)]
      rw [outcome_cons_kept rfl]
      rfl
    | stop =>
      simp only [reduceCtorEq, if_false, if_true]
      simp [outcome, kept, Visit.matched]

/-- Scanning and deleting: between the records that are kept and those that have not been
read yet, there is one free place for each deleted record. -/
theorem applyLoop_delete {front gap rest : List Record} (free : gap.length = affected)
    (atGap : front.length + affected = offset) :
    ∃ back : List Record,
      back.length =
        affected + (visits callback false args (rest.zipIdx offset)).1.countP Visit.matched ∧
      (applyLoop callback true len rest.length offset
          ⟨args, front ++ gap ++ rest, affected, calls⟩ =
        some (outcome true front back affected calls
          (visits callback false args (rest.zipIdx offset))) ∨
      applyLoop callback true len rest.length offset
          ⟨args, front ++ gap ++ rest, affected, calls⟩ = none ∧
        ¬(affected + (visits callback false args (rest.zipIdx offset)).1.countP
          Visit.matched) * len < 2 ^ 31) := by
  induction rest generalizing args front gap offset affected calls with
  | nil => exact ⟨gap, free, .inl (by simp [applyLoop, visits, outcome, kept])⟩
  | cons record rest ih =>
    have behind : (front ++ gap).length = offset := by
      rw [List.length_append, free, atGap]
    have reads : (front ++ gap ++ record :: rest)[offset]? = some record := by
      rw [List.getElem?_append_right (Nat.le_of_eq behind), behind, Nat.sub_self]
      rfl
    have writes (written : Record) :
        (front ++ gap ++ record :: rest).set offset written =
          front ++ (gap ++ [written]) ++ rest := by
      rw [List.set_append_right _ _ (Nat.le_of_eq behind), behind, Nat.sub_self]
      simp only [List.set_cons_zero, List.append_assoc, List.singleton_append]
    rw [List.length_cons, applyLoop, List.zipIdx_cons, visits]
    simp only [reads, writes, Bool.false_eq_true, false_and, if_false, if_true]
    generalize callback args record offset = answer
    by_cases found : answer.reply = .found
    · -- The place of the record becomes free.
      have matched : (Visit.mk record offset answer.reply answer.written).matched = true :=
        beq_iff_eq.mpr found
      have grown : (gap ++ [answer.written]).length = affected + 1 := by
        rw [List.length_append, List.length_singleton, free]
      simp only [if_pos found, outcome_cons_deleted matched,
        List.countP_cons_of_pos matched]
      obtain ⟨back, backLength, result⟩ := @ih (offset + 1) (affected + 1) answer.args
        (calls ++ [(record, offset)]) front (gap ++ [answer.written]) grown (by omega)
      rw [Nat.add_right_comm] at backLength result
      exact ⟨back, backLength, result⟩
    · -- The record is moved to the first free place, and its own place becomes free.
      have stays : (Visit.mk record offset answer.reply answer.written).matched = false :=
        beq_eq_false_iff_ne.mpr found
      have moves : (front ++ (gap ++ [answer.written]) ++ rest).set (offset - affected)
          answer.written = front ++ [answer.written] ++
            (gap ++ [answer.written]).tail ++ rest := by
        have place : offset - affected = front.length := by omega
        rw [place, List.append_assoc, List.set_append_right _ _ (Nat.le_refl _),
          Nat.sub_self]
        cases gap <;> simp
      have shifted : ((gap ++ [answer.written]).tail).length = affected := by
        rw [List.length_tail, List.length_append, List.length_singleton, free]
        rfl
      have notDeleted : (true && (Visit.mk record offset answer.reply
          answer.written).matched) = false := by
        rw [stays]
        rfl
      have notCounted : ¬(Visit.mk record offset answer.reply
          answer.written).matched = true := by
        rw [stays]
        exact Bool.false_ne_true
      simp only [if_neg found, outcome_cons_kept notDeleted, if_neg notCounted,
        List.countP_cons_of_neg notCounted, moves]
      have result := @ih (offset + 1) affected answer.args (calls ++ [(record, offset)])
        (front ++ [answer.written]) (gap ++ [answer.written]).tail shifted
        (by rw [List.length_append, List.length_singleton]; omega)
      by_cases fits : isInt (affected * len) = true
      · rw [if_pos fits]
        exact result
      · rw [if_neg fits]
        obtain ⟨back, backLength, -⟩ := result
        refine ⟨back, backLength, .inr ⟨rfl, ?_⟩⟩
        intro small
        apply fits
        have fewer : affected * len < 2 ^ 31 :=
          Nat.lt_of_le_of_lt (Nat.mul_le_mul_right len (Nat.le_add_right affected _)) small
        rw [isInt_mul]
        exact decide_eq_true fewer

end Loops

/-- The callback and the file give rise to no overflow and no break that would have to be
heeded. -/
def Applies (callback : Callback State Record) (delete : Bool) (args : State)
    (rec : RecordFile Record) (offset : Nat) : Prop :=
  delete = true → BreaksAtEnd callback args (rec.entriesFrom offset) ∧
    (visits callback true args (rec.entriesFrom offset)).1.countP Visit.matched * rec.rlen < 2 ^ 31

section Runs

variable {delete : Bool} {cmp : Record → Record → Int} {ptr : Option Record} {offset : Nat}
  {args : State}

/-- The end of `record_apply`. -/
def finish (delete : Bool) (rec : RecordFile Record) (applied : Applied State Record) :
    Option (Applied State Record) :=
  if applied.affected ≠ 0 ∧ delete = true then
    if isInt (applied.affected * rec.rlen) then
      some { applied with file := applied.file.take (rec.records.length - applied.affected) }
    else none
  else some applied

theorem recordApply_of_fits (fits : offset * rec.rlen < 2 ^ 31) :
    recordApply callback delete cmp ptr offset args rec =
      (applyLoop callback delete rec.rlen
        (rec.records.length - acceptedOffset cmp ptr offset rec)
        (acceptedOffset cmp ptr offset rec) ⟨args, rec.records, 0, []⟩).bind
          (finish delete rec) := by
  have accepted : acceptedOffset cmp ptr offset rec * rec.rlen < 2 ^ 31 := by
    have atMost : acceptedOffset cmp ptr offset rec ≤ offset := by
      unfold acceptedOffset
      split
      · exact Nat.le_refl offset
      · split
        · exact Nat.le_refl offset
        · exact Nat.zero_le offset
      · exact Nat.zero_le offset
    exact Nat.lt_of_le_of_lt (Nat.mul_le_mul_right rec.rlen atMost) fits
  have isFit : isInt ((acceptedOffset cmp ptr offset rec : Int) * rec.rlen) = true := by
    rw [isInt_mul]
    exact decide_eq_true accepted
  rw [recordApply, checkOffset_eq cmp ptr fits, Option.bind_some, if_pos isFit]
  rfl

theorem recordApply_of_overflow (large : ¬offset * rec.rlen < 2 ^ 31) :
    recordApply callback delete cmp ptr offset args rec = none := by
  have notInt : ¬isInt ((offset : Int) * rec.rlen) = true := by
    rw [isInt_mul, decide_eq_true_eq]
    exact large
  cases ptr with
  | none => rw [recordApply, checkOffset, Option.bind_some, if_neg notInt]
  | some other =>
    have nonzero : offset ≠ 0 := by
      rintro rfl
      rw [Nat.zero_mul] at large
      exact large (by decide)
    rw [recordApply, checkOffset, if_neg nonzero, if_neg notInt]
    rfl

theorem finish_update (applied : Applied State Record) :
    finish false rec applied = some applied :=
  if_neg fun deletes => Bool.false_ne_true deletes.2

/-- The file is cut behind the records that are kept. -/
theorem finish_delete {front back : List Record} {made : List (Visit Record) × State}
    (behind : back.length = made.1.countP Visit.matched)
    (total : front.length + (kept true made.1).length + back.length = rec.records.length) :
    finish true rec (outcome true front back 0 [] made) =
      if made.1.countP Visit.matched * rec.rlen < 2 ^ 31 then
        some (outcome true front [] 0 [] made)
      else none := by
  have affected : (outcome true front back 0 [] made).affected =
      made.1.countP Visit.matched := Nat.zero_add _
  have isFit : isInt (((outcome true front back 0 [] made).affected : Int) * rec.rlen) =
      decide (made.1.countP Visit.matched * rec.rlen < 2 ^ 31) := by
    rw [affected, isInt_mul]
  by_cases none : made.1.countP Visit.matched = 0
  · rw [finish, if_neg fun deletes => deletes.1 (affected.trans none), none, Nat.zero_mul,
      if_pos (by decide), List.eq_nil_of_length_eq_zero (behind.trans none)]
  · rw [finish, if_pos ⟨fun zero => none (affected.symm.trans zero), rfl⟩, isFit]
    simp only [decide_eq_true_eq]
    split
    · congr 1
      ext1
      · rfl
      · have place : rec.records.length - (outcome true front back 0 [] made).affected =
            (front ++ kept true made.1).length := by
          rw [affected, List.length_append]
          omega
        rw [place]
        change (front ++ kept true made.1 ++ back).take _ = front ++ kept true made.1 ++ []
        rw [List.take_left, List.append_nil]
      · rfl
      · rfl
    · rfl

theorem length_kept (made : List (Visit Record)) :
    (kept true made).length + made.countP Visit.matched = made.length := by
  rw [kept, List.length_map, ← List.countP_eq_length_filter, Nat.add_comm,
    List.length_eq_countP_add_countP Visit.matched]
  simp only [Bool.true_and, Bool.not_eq_true]
  congr 1
  apply List.countP_congr
  intro visit _
  simp

/-- Deleting calls the callback on every record, so that it does what it should exactly if
no break has to be heeded. -/
theorem delete_eq_iff {front rest back : List Record} {entries : List (Record × Nat)}
    (lengths : entries.length = rest.length) (fits : back.length =
      (visits callback false args entries).1.countP Visit.matched)
    (total : front.length + rest.length = rec.records.length) :
    finish true rec (outcome true front back 0 [] (visits callback false args entries)) =
        some (outcome true front (rest.drop (visits callback true args entries).1.length) 0 []
          (visits callback true args entries)) ↔
      BreaksAtEnd callback args entries ∧
        (visits callback true args entries).1.countP Visit.matched * rec.rlen < 2 ^ 31 := by
  have kept := length_kept (visits callback false args entries).1
  have all := @length_visits_false _ _ callback args entries
  rw [finish_delete fits (by omega)]
  constructor
  · intro same
    split at same
    · rename_i small
      have calls := congrArg (fun applied : Applied State Record => applied.calls.length)
        (Option.some.inj same)
      simp only [outcome, List.length_append, List.length_map, List.length_nil] at calls
      have breaks : BreaksAtEnd callback args entries := breaksAtEnd_iff.mpr (by omega)
      rw [visits_false_eq (breaksAtEnd_iff.mp breaks)] at small
      exact ⟨breaks, small⟩
    · cases same
  · rintro ⟨breaks, small⟩
    have made := breaksAtEnd_iff.mp breaks
    rw [visits_false_eq made, if_pos small, made, lengths, List.drop_length]

end Runs

/-- `record_apply` passes the records from the accepted offset on up to the first break to
the callback, leaves or deletes what was matched, and returns how many there were, exactly
if the position is an `int` and, to delete, nothing breaks the scan before its end and the
size of what is deleted is an `int`. -/
theorem recordApply_eq_iff (callback : Callback State Record) (delete : Bool)
    (cmp : Record → Record → Int) (ptr : Option Record) (offset : Nat) (args : State)
    (rec : RecordFile Record) :
    recordApply callback delete cmp ptr offset args rec =
        some (expected callback delete args rec (acceptedOffset cmp ptr offset rec)) ↔
      offset * rec.rlen < 2 ^ 31 ∧
        Applies callback delete args rec (acceptedOffset cmp ptr offset rec) := by
  by_cases fits : offset * rec.rlen < 2 ^ 31
  · rw [recordApply_of_fits fits, and_iff_right fits]
    generalize acceptedOffset cmp ptr offset rec = start
    by_cases inside : start ≤ rec.records.length
    · have parts := List.take_append_drop start rec.records
      have front : (rec.records.take start).length = start := by
        rw [List.length_take, Nat.min_eq_left inside]
      rw [← List.length_drop, expected, ← List.drop_drop]
      cases delete with
      | false =>
        have loop := @applyLoop_update _ _ callback rec.rlen start 0 args []
          (rec.records.take start) (rec.records.drop start) front
        rw [parts] at loop
        rw [loop, Option.bind_some, finish_update]
        exact iff_of_true rfl fun deletes => absurd deletes Bool.false_ne_true
      | true =>
        obtain ⟨back, behind, loop⟩ := @applyLoop_delete _ _ callback rec.rlen start 0 args []
          (rec.records.take start) [] (rec.records.drop start) rfl front
        rw [List.append_nil, parts] at loop
        rw [Nat.zero_add] at behind loop
        have total : (rec.records.take start).length + (rec.records.drop start).length =
            rec.records.length := by
          rw [front, List.length_drop]
          omega
        have deletes : Applies callback true args rec start ↔
            BreaksAtEnd callback args ((rec.records.drop start).zipIdx start) ∧
              (visits callback true args ((rec.records.drop start).zipIdx start)).1.countP
                Visit.matched * rec.rlen < 2 ^ 31 :=
          ⟨fun applies => applies rfl, fun both _ => both⟩
        rw [deletes, ← delete_eq_iff List.length_zipIdx behind total]
        rcases loop with made | ⟨overflows, large⟩
        · rw [made]
          rfl
        · rw [overflows, finish_delete behind]
          · exact iff_of_false nofun (by rw [if_neg large]; nofun)
          · have sizes := length_kept (visits callback false args
              ((rec.records.drop start).zipIdx start)).1
            rw [length_visits_false, List.length_zipIdx] at sizes
            omega
    · -- Nothing is behind the offset.
      have nothing : rec.entriesFrom start = [] := entriesFrom_of_le (by omega)
      have noneLeft : rec.records.length - start = 0 := by omega
      have whole : rec.records.take start = rec.records :=
        List.take_of_length_le (by omega)
      have noneBehind : rec.records.drop start = [] := List.drop_eq_nil_of_le (by omega)
      rw [expected, Applies, nothing, noneLeft, applyLoop, Option.bind_some, finish,
        if_neg fun deletes => deletes.1 rfl]
      simp [visits, outcome, kept, whole, noneBehind, BreaksAtEnd]
  · rw [recordApply_of_overflow fits]
    exact iff_of_false (Option.some_ne_none _).symm fun applies => fits applies.1

/-- A callback that breaks at the record 5 and matches all others. -/
def breaksAtFive : Callback Unit Int :=
  fun _ record _ => ⟨if record = 5 then .stop else .found, (), record⟩

/-- The first of two records breaks the scan, and the second one is deleted anyway. -/
theorem deleted_after_break :
    (recordApply breaksAtFive true (· - ·) none 0 () twoRecords).map Applied.file = some [5] ∧
      recordApply breaksAtFive true (· - ·) none 0 () twoRecords ≠
        some (expected breaksAtFive true () twoRecords
          (acceptedOffset (· - ·) none 0 twoRecords)) := by
  refine ⟨rfl, fun same => ?_⟩
  have files := congrArg (Option.map Applied.file) same
  revert files
  decide

end RecordApply

end Fbbs
