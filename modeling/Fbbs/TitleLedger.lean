import Mathlib.Data.Finset.Insert
import Mathlib.Data.Multiset.Filter
import Mathlib.Algebra.Order.Group.Unbundled.Int
import Fbbs.Parcel
import Fbbs.TransitionRuns

/-!
# Titles, money and its audit

The functions and triggers of `pg/procedures.sql` and `pg/payment.sql` with the statements of
`lib/title.c` and `src/money_admin.c`.  Times and durations are seconds.  A statement that fails
leaves the database as it is.
-/

namespace Fbbs

namespace TitleLedger

/-- A row of `prop_items`. -/
structure Item where
  price : Int
  expire : Int

/-- `PROP_TITLE_FREE`. -/
def propTitleFree : Int := 1

/-- A row of `prop_records`. -/
structure Record where
  id : Int
  userId : Int
  item : Int
  price : Int
  orderTime : Int
  expire : Int

/-- A row of `titles`. -/
structure Title where
  id : Int
  userId : Int
  granter : Int
  title : Bytes
  approved : Bool
  recordId : Int

/-- A row of `payment`. -/
structure Payment where
  posts : Int
  logins : Int
  awards : Int

/-- Where the reason of a row of `audit.money` comes from. -/
inductive Reason
  | buy (item : Int)
  | deleteTitle
  | grant

/-- A row of `audit.money`. -/
structure Audit where
  userId : Int
  delta : Int
  reason : Reason

/-- The columns of users who are not there yet have their defaults. -/
structure Database where
  users : Finset Int
  money : Int → Int
  contrib : Int → Int
  /-- The titles that `string_agg` put together, which it does in no given order. -/
  title : Int → Multiset Bytes
  payment : Int → Payment
  records : List Record
  titles : List Title
  audit : List Audit
  nextRecord : Int
  nextTitle : Int

/-- `UPDATE users SET money = money + …`, with the row of the audit. -/
def charge (db : Database) (userId delta : Int) (reason : Reason) : Database :=
  { db with
    money := Function.update db.money userId (db.money userId + delta)
    audit := ⟨userId, delta, reason⟩ :: db.audit }

def approvedTitles (titles : List Title) (userId : Int) : Multiset Bytes :=
  ((titles.filter fun title => title.userId == userId && title.approved).map
    Title.title : List Bytes)

/-- `UPDATE users SET title = …`. -/
def refreshTitle (db : Database) (userId : Int) : Database :=
  { db with title := Function.update db.title userId (approvedTitles db.titles userId) }

/-- The record of the title is of an item that is not free. -/
def isPaid (records : List Record) (title : Title) : Bool :=
  records.any fun record => record.id == title.recordId && record.item != propTitleFree

def titleExists (db : Database) (userId : Int) : Bool :=
  db.titles.any fun title => title.userId == userId && isPaid db.records title

/-- `prop_record_before_insert_trigger` charges the user. -/
def insertRecord (db : Database) (record : Record) : Option Database :=
  if record.userId ∈ db.users then
    some (charge { db with records := db.records ++ [record], nextRecord := db.nextRecord + 1 }
      record.userId (-record.price) (.buy record.item))
  else none

def insertTitle (db : Database) (title : Title) : Option Database :=
  if title.granter ∈ db.users then
    some { db with titles := db.titles ++ [title], nextTitle := db.nextTitle + 1 }
  else none

def buyTitleRequest (items : Int → Option Item) (db : Database) (now userId item : Int)
    (title : Bytes) (granter : Int) : Option Database :=
  (items item).bind fun row =>
    if item ≠ propTitleFree ∧ titleExists db userId = true then none
    else
      let record := db.nextRecord
      (insertRecord db ⟨record, userId, item, row.price, now, now + row.expire⟩).bind fun db =>
        if granter ≠ 0 then
          (insertTitle db ⟨db.nextTitle, userId, granter, title, true, record⟩).map
            (refreshTitle · userId)
        else insertTitle db ⟨db.nextTitle, userId, userId, title, false, record⟩

/-- The item runs from now on. -/
def Record.renew (items : Int → Option Item) (now id : Int) (record : Record) : Record :=
  if record.id = id then
    (items record.item).elim record fun item =>
      { record with orderTime := now, expire := now + item.expire }
  else record

def Title.approve (id granter : Int) (title : Title) : Title :=
  if title.id = id then { title with approved := true, granter := granter } else title

/-- `title_after_update_trigger`: a title that gets approved is paid from now on. -/
def titleAfterUpdate (items : Int → Option Item) (db : Database) (now : Int) (old : Title) :
    Database :=
  let db := refreshTitle db old.userId
  if old.approved then db
  else { db with records := db.records.map (Record.renew items now old.recordId) }

/-- `UPDATE titles SET approved = true, granter = …`. -/
def titleApprove (items : Int → Option Item) (db : Database) (now id granter : Int) :
    Option Database :=
  match db.titles.find? (·.id == id) with
  | none => some db
  | some old =>
    if granter ∈ db.users then
      some (titleAfterUpdate items
        { db with titles := db.titles.map (Title.approve id granter) } now old)
    else none

/-- What is paid back, exactly, where the server may round.  A division by zero fails. -/
def refund (record : Record) (approved : Bool) (now : Int) : Option Int :=
  if approved then
    let total := record.expire - record.orderTime
    if total = 0 then none
    else some (max 0 ((record.price.tdiv 2 * (total - (now - record.orderTime))).fdiv total))
  else some ((record.price * 9).fdiv 10)

/-- `title_after_delete_trigger`: without a record `delta` would be null, which the audit refuses.
The record takes other titles of it along. -/
def titleAfterDelete (now : Int) (db : Database) (old : Title) : Option Database :=
  (db.records.find? (·.id == old.recordId)).bind fun record =>
    (refund record old.approved now).map fun delta =>
      let db := charge db old.userId delta .deleteTitle
      refreshTitle { db with
        records := db.records.filter (·.id != old.recordId)
        titles := db.titles.filter (·.recordId != old.recordId) } old.userId

/-- `DELETE FROM titles WHERE record_id = …`. -/
def titleRemove (db : Database) (now record : Int) : Option Database :=
  TransitionRuns.run (titleAfterDelete now) (db.titles.filter (·.recordId == record))
    { db with titles := db.titles.filter (·.recordId != record) }

/-- `UPDATE payment`, with `payment_after_update_trigger`. -/
def updatePayment (db : Database) (userId : Int) (payment : Payment) : Database :=
  let old := db.payment userId
  let delta := payment.posts + payment.logins + payment.awards - old.posts - old.logins - old.awards
  { db with
    payment := Function.update db.payment userId payment
    contrib := Function.update db.contrib userId (db.contrib userId + delta)
    money := Function.update db.money userId (db.money userId + delta) }

/-- `callback` of `money_admin.c`, for a user who was found. -/
def grantMoney (db : Database) (userId delta : Int) : Database :=
  if 0 < delta then
    let payment := db.payment userId
    let db := updatePayment db userId { payment with awards := payment.awards + delta }
    { db with audit := ⟨userId, delta, .grant⟩ :: db.audit }
  else charge db userId delta .grant

inductive Action
  | createUser (id : Int)
  | buy (userId item : Int) (title : Bytes) (granter : Int)
  | approve (id granter : Int)
  | remove (record : Int)
  | pay (userId posts logins : Int)
  | grant (userId delta : Int)

def attempt (items : Int → Option Item) (db : Database) (now : Int) : Action → Option Database
  | .createUser id => some { db with users := insert id db.users }
  | .buy userId item title granter => buyTitleRequest items db now userId item title granter
  | .approve id granter => titleApprove items db now id granter
  | .remove record => titleRemove db now record
  | .pay userId posts logins =>
    if userId ∈ db.users then
      some (updatePayment db userId { db.payment userId with posts := posts, logins := logins })
    else none
  | .grant userId delta =>
    if userId ∈ db.users then some (grantMoney db userId delta) else none

/-- An action at its time. -/
abbrev Event := Int × Action

def step (items : Int → Option Item) (db : Database) (event : Event) : Database :=
  (attempt items db event.1 event.2).getD db

def run (items : Int → Option Item) (events : List Event) (db : Database) : Database :=
  events.foldl (step items) db

def start : Database where
  users := ∅
  money := fun _ => 0
  contrib := fun _ => 0
  title := fun _ => 0
  payment := fun _ => ⟨0, 0, 0⟩
  records := []
  titles := []
  audit := []
  nextRecord := 1
  nextTitle := 1

/-! ## One step -/

/-- What an action that succeeds does. -/
inductive Effect (items : Int → Option Item) (db : Database) (now : Int) :
    Action → Database → Prop
  | createUser (id : Int) :
      Effect items db now (.createUser id) { db with users := insert id db.users }
  | buy {userId item granter : Int} {title : Bytes} {next : Database}
      (bought : buyTitleRequest items db now userId item title granter = some next) :
      Effect items db now (.buy userId item title granter) next
  | noTitle (id granter : Int) : Effect items db now (.approve id granter) db
  | approve {id granter : Int} {old : Title} (found : db.titles.find? (·.id == id) = some old) :
      Effect items db now (.approve id granter) (titleAfterUpdate items
        { db with titles := db.titles.map (Title.approve id granter) } now old)
  | remove {record : Int} {next : Database} (removed : titleRemove db now record = some next) :
      Effect items db now (.remove record) next
  | pay (userId posts logins : Int) :
      Effect items db now (.pay userId posts logins) (updatePayment db userId
        { db.payment userId with posts := posts, logins := logins })
  | grant (userId delta : Int) :
      Effect items db now (.grant userId delta) (grantMoney db userId delta)

section Step

variable {items : Int → Option Item} {db : Database} {now : Int} {action : Action}

theorem effect_of_attempt {next : Database} (attempted : attempt items db now action = some next) :
    Effect items db now action next := by
  cases action with
  | createUser id =>
    cases attempted
    exact .createUser id
  | buy userId item title granter => exact .buy attempted
  | approve id granter =>
    rw [attempt, titleApprove] at attempted
    split at attempted
    · cases attempted
      exact .noTitle id granter
    · rename_i old found
      rw [Option.ite_none_right_eq_some, Option.some.injEq] at attempted
      exact attempted.2 ▸ .approve found
  | remove record => exact .remove attempted
  | pay userId posts logins =>
    rw [attempt, Option.ite_none_right_eq_some, Option.some.injEq] at attempted
    exact attempted.2 ▸ .pay userId posts logins
  | grant userId delta =>
    rw [attempt, Option.ite_none_right_eq_some, Option.some.injEq] at attempted
    exact attempted.2 ▸ .grant userId delta

/-- A step does what its action does, or nothing. -/
theorem step_of_effect {motive : Database → Prop} (failed : motive db)
    (done : ∀ next, Effect items db now action next → motive next) :
    motive (step items db (now, action)) := by
  unfold step
  cases attempted : attempt items db now action with
  | none => exact failed
  | some next => exact done next (effect_of_attempt attempted)

end Step

/-! ## The balance and its audit -/

/-- The sum of the rows of the audit that a user has. -/
def audited : List Audit → Int → Int
  | [], _ => 0
  | row :: rows, id => (if row.userId = id then row.delta else 0) + audited rows id

/-- Money is what was paid for posts and logins and what the audit says. -/
structure Balanced (db : Database) : Prop where
  money : ∀ id,
    db.money id = (db.payment id).posts + (db.payment id).logins + audited db.audit id
  contrib : ∀ id,
    db.contrib id = (db.payment id).posts + (db.payment id).logins + (db.payment id).awards

section Balanced

variable {items : Int → Option Item} {db next : Database} {now : Int}

theorem balanced_start : Balanced start :=
  ⟨fun _ => rfl, fun _ => rfl⟩

theorem Balanced.charge (balanced : Balanced db) (userId delta : Int) (reason : Reason) :
    Balanced (charge db userId delta reason) where
  money := by
    intro id
    have money := balanced.money id
    simp only [TitleLedger.charge, Function.update_apply, audited]
    split
    case isTrue same => rw [if_pos same.symm, ← same, money]; omega
    case isFalse apart => rw [if_neg (Ne.symm apart), money]; omega
  contrib := balanced.contrib

theorem insertRecord_spec {record : Record} (inserted : insertRecord db record = some next) :
    next = TitleLedger.charge
      { db with records := db.records ++ [record], nextRecord := db.nextRecord + 1 }
      record.userId (-record.price) (.buy record.item) := by
  rw [insertRecord, Option.ite_none_right_eq_some, Option.some.injEq] at inserted
  exact inserted.2.symm

theorem insertTitle_spec {title : Title} (inserted : insertTitle db title = some next) :
    next = { db with titles := db.titles ++ [title], nextTitle := db.nextTitle + 1 } := by
  rw [insertTitle, Option.ite_none_right_eq_some, Option.some.injEq] at inserted
  exact inserted.2.symm

/-- A sale: the record, the charge and the title, which is approved if it is granted. -/
theorem buyTitleRequest_spec {userId item granter : Int} {title : Bytes}
    (bought : buyTitleRequest items db now userId item title granter = some next) :
    ∃ row sold, items item = some row ∧ (item = propTitleFree ∨ titleExists db userId = false) ∧
      sold = TitleLedger.charge { db with
        records := db.records ++
          [⟨db.nextRecord, userId, item, row.price, now, now + row.expire⟩]
        nextRecord := db.nextRecord + 1 } userId (-row.price) (.buy item) ∧
      (next = refreshTitle { sold with
          titles := db.titles ++ [⟨db.nextTitle, userId, granter, title, true, db.nextRecord⟩]
          nextTitle := db.nextTitle + 1 } userId ∨
        next = { sold with
          titles := db.titles ++ [⟨db.nextTitle, userId, userId, title, false, db.nextRecord⟩]
          nextTitle := db.nextTitle + 1 }) := by
  obtain ⟨row, rowEq, bought⟩ := Option.bind_eq_some_iff.mp bought
  rw [Option.ite_none_left_eq_some] at bought
  obtain ⟨allowed, bought⟩ := bought
  obtain ⟨sold, soldEq, bought⟩ := Option.bind_eq_some_iff.mp bought
  have soldSpec := insertRecord_spec soldEq
  refine ⟨row, sold, rowEq, ?_, soldSpec, ?_⟩
  · by_cases free : item = propTitleFree
    · exact .inl free
    · right
      cases exists_ : titleExists db userId with
      | true => exact absurd ⟨free, exists_⟩ allowed
      | false => rfl
  · split at bought
    · obtain ⟨titled, titledEq, rfl⟩ := Option.map_eq_some_iff.mp bought
      left
      rw [insertTitle_spec titledEq, soldSpec]
      rfl
    · right
      rw [insertTitle_spec bought, soldSpec]
      rfl

theorem titleAfterDelete_spec {old : Title} (deleted : titleAfterDelete now db old = some next) :
    ∃ record delta, db.records.find? (·.id == old.recordId) = some record ∧
      refund record old.approved now = some delta ∧
      next = refreshTitle { TitleLedger.charge db old.userId delta .deleteTitle with
        records := db.records.filter (·.id != old.recordId)
        titles := db.titles.filter (·.recordId != old.recordId) } old.userId := by
  obtain ⟨record, found, deleted⟩ := Option.bind_eq_some_iff.mp deleted
  obtain ⟨delta, refunded, rfl⟩ := Option.map_eq_some_iff.mp deleted
  exact ⟨record, delta, found, refunded, rfl⟩

theorem Balanced.updatePayment (balanced : Balanced db) (userId : Int) (payment : Payment) :
    (∀ id, (updatePayment db userId payment).money id =
      ((updatePayment db userId payment).payment id).posts +
        ((updatePayment db userId payment).payment id).logins + audited db.audit id +
          if id = userId then payment.awards - (db.payment userId).awards else 0) ∧
    ∀ id, (updatePayment db userId payment).contrib id =
      ((updatePayment db userId payment).payment id).posts +
        ((updatePayment db userId payment).payment id).logins +
          ((updatePayment db userId payment).payment id).awards := by
  constructor
  · intro id
    have money := balanced.money id
    simp only [TitleLedger.updatePayment, Function.update_apply]
    split
    case isTrue same => rw [same] at money ⊢; omega
    case isFalse => omega
  · intro id
    have contrib := balanced.contrib id
    simp only [TitleLedger.updatePayment, Function.update_apply]
    split
    case isTrue same => rw [same] at contrib; omega
    case isFalse => exact contrib

theorem Balanced.grantMoney (balanced : Balanced db) (userId delta : Int) :
    Balanced (grantMoney db userId delta) := by
  unfold TitleLedger.grantMoney
  split
  · obtain ⟨money, contrib⟩ := balanced.updatePayment userId
      { db.payment userId with awards := (db.payment userId).awards + delta }
    refine ⟨fun id => ?_, contrib⟩
    have money := money id
    change _ = _ + ((if userId = id then delta else 0) + audited db.audit id)
    rw [add_comm _ (audited db.audit id), ← add_assoc]
    refine money.trans ?_
    by_cases same : id = userId
    · rw [if_pos same, if_pos same.symm, add_sub_cancel_left]
    · rw [if_neg same, if_neg (Ne.symm same)]
  · exact balanced.charge userId delta .grant

theorem Balanced.titlesDeleted (balanced : Balanced db) {gone : List Title}
    (deleted : TransitionRuns.run (titleAfterDelete now) gone db = some next) :
    Balanced next := by
  induction gone generalizing db with
  | nil =>
    rw [TransitionRuns.run, Option.some.injEq] at deleted
    exact deleted ▸ balanced
  | cons old gone ih =>
    obtain ⟨middle, first, rest⟩ := TransitionRuns.run_cons deleted
    obtain ⟨_, delta, -, -, rfl⟩ := titleAfterDelete_spec first
    have charged := balanced.charge old.userId delta .deleteTitle
    refine ih ?_ rest
    exact ⟨charged.money, charged.contrib⟩

theorem balanced_step (balanced : Balanced db) (event : Event) :
    Balanced (step items db event) := by
  obtain ⟨now, action⟩ := event
  apply step_of_effect balanced
  intro next effect
  cases effect with
  | createUser => exact ⟨balanced.money, balanced.contrib⟩
  | @buy userId item _ _ _ bought =>
    obtain ⟨row, sold, -, -, rfl, rfl | rfl⟩ := buyTitleRequest_spec bought
    all_goals
      have charged := balanced.charge userId (-row.price) (.buy item)
      exact ⟨charged.money, charged.contrib⟩
  | noTitle => exact balanced
  | approve =>
    unfold titleAfterUpdate
    dsimp only
    split <;> exact ⟨balanced.money, balanced.contrib⟩
  | remove removed =>
    refine Balanced.titlesDeleted ?_ removed
    exact ⟨balanced.money, balanced.contrib⟩
  | pay userId posts logins =>
    obtain ⟨money, contrib⟩ := balanced.updatePayment userId
      { db.payment userId with posts := posts, logins := logins }
    refine ⟨fun id => ?_, contrib⟩
    rw [money id, sub_self, ite_self, add_zero]
    rfl
  | grant userId delta => exact balanced.grantMoney userId delta

end Balanced

end TitleLedger

end Fbbs
