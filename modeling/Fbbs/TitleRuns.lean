import Mathlib.Data.List.Induction
import Mathlib.Data.List.Pairwise
import Mathlib.Algebra.Order.Group.Unbundled.Int
import Fbbs.TitleLedger

/-!
# What holds in every run of titles and money

The column `title` follows the rows of `titles`, a user has at most one title that he paid for,
the audit explains the money, and no money is made by buying titles and giving them back.
-/

namespace Fbbs

namespace TitleLedger

/-! ## Titles and their records -/

/-- Titles have numbers and records of their own, a user has at most one that is not free, and the
column says what is approved. -/
structure Shelved (db : Database) : Prop where
  ids : db.titles.Pairwise fun title other => title.id ≠ other.id
  below : ∀ title ∈ db.titles, title.id < db.nextTitle ∧ title.recordId < db.nextRecord
  records : ∀ record ∈ db.records, record.id < db.nextRecord
  own : db.titles.Pairwise fun title other => title.recordId ≠ other.recordId
  owner : ∀ title ∈ db.titles, ∀ record ∈ db.records,
    record.id = title.recordId → record.userId = title.userId
  single : ∀ title ∈ db.titles, ∀ other ∈ db.titles, title.userId = other.userId →
    isPaid db.records title = true → isPaid db.records other = true →
      title.recordId = other.recordId
  column : ∀ id, db.title id = approvedTitles db.titles id

section Shelved

@[simp]
theorem Title.id_approve (id granter : Int) (title : Title) :
    (title.approve id granter).id = title.id := by
  unfold Title.approve
  split <;> rfl

@[simp]
theorem Title.userId_approve (id granter : Int) (title : Title) :
    (title.approve id granter).userId = title.userId := by
  unfold Title.approve
  split <;> rfl

@[simp]
theorem Title.recordId_approve (id granter : Int) (title : Title) :
    (title.approve id granter).recordId = title.recordId := by
  unfold Title.approve
  split <;> rfl

theorem Record.renew_eq (items : Int → Option Item) (now id : Int) (record : Record) :
    ∃ orderTime expire, record.renew items now id =
      { record with orderTime := orderTime, expire := expire } := by
  unfold Record.renew
  split
  · cases items record.item with
    | none => exact ⟨record.orderTime, record.expire, rfl⟩
    | some item => exact ⟨now, now + item.expire, rfl⟩
  · exact ⟨record.orderTime, record.expire, rfl⟩

variable {items : Int → Option Item} {db next : Database} {now : Int}

theorem shelved_start : Shelved start where
  ids := List.Pairwise.nil
  below := nofun
  records := nofun
  own := List.Pairwise.nil
  owner := nofun
  single := nofun
  column := fun _ => rfl

/-- What is not in the titles does not matter here. -/
theorem Shelved.congr (shelved : Shelved db) (title : next.title = db.title)
    (titles : next.titles = db.titles) (records : next.records = db.records)
    (nextTitle : next.nextTitle = db.nextTitle) (nextRecord : next.nextRecord = db.nextRecord) :
    Shelved next := by
  obtain ⟨ids, below, recordIds, own, owner, single, column⟩ := shelved
  constructor <;> simpa only [title, titles, records, nextTitle, nextRecord]

theorem isPaid_iff {records : List Record} {title : Title} :
    isPaid records title = true ↔
      ∃ record ∈ records, record.id = title.recordId ∧ record.item ≠ propTitleFree := by
  simp [isPaid]

theorem isPaid_append {records : List Record} {record : Record} {title : Title}
    (other : title.recordId ≠ record.id) :
    isPaid (records ++ [record]) title = isPaid records title := by
  simp [isPaid, other.symm]

theorem approvedTitles_append (titles more : List Title) (id : Int) :
    approvedTitles (titles ++ more) id = approvedTitles titles id + approvedTitles more id := by
  unfold approvedTitles
  rw [List.filter_append, List.map_append, Multiset.coe_add]

theorem approvedTitles_singleton (title : Title) (id : Int) :
    approvedTitles [title] id =
      if title.userId = id ∧ title.approved = true then {title.title} else 0 := by
  unfold approvedTitles
  by_cases own : title.userId = id ∧ title.approved = true
  · simp [own]
  · rw [if_neg own, List.filter_cons_of_neg (by simpa using own)]
    rfl

/-- A new title with a new record. -/
theorem Shelved.sell (shelved : Shelved db) {userId item price expire granter : Int} {title : Bytes}
    {approved : Bool} (free : item = propTitleFree ∨ titleExists db userId = false)
    (column : ∀ id, next.title id = approvedTitles next.titles id)
    (titles : next.titles =
      db.titles ++ [⟨db.nextTitle, userId, granter, title, approved, db.nextRecord⟩])
    (records : next.records = db.records ++ [⟨db.nextRecord, userId, item, price, now, expire⟩])
    (nextTitle : next.nextTitle = db.nextTitle + 1)
    (nextRecord : next.nextRecord = db.nextRecord + 1) : Shelved next where
  ids := by
    rw [titles, List.pairwise_append]
    refine ⟨shelved.ids, List.pairwise_singleton _ _, fun old member new single => ?_⟩
    rw [List.mem_singleton.mp single]
    exact (shelved.below old member).1.ne
  below := by
    intro other member
    rw [titles, List.mem_append, List.mem_singleton] at member
    rw [nextTitle, nextRecord]
    rcases member with old | rfl
    · have below := shelved.below other old
      omega
    · dsimp only
      omega
  records := by
    intro record member
    rw [records, List.mem_append, List.mem_singleton] at member
    rw [nextRecord]
    rcases member with old | rfl
    · have below := shelved.records record old
      omega
    · dsimp only
      omega
  own := by
    rw [titles, List.pairwise_append]
    refine ⟨shelved.own, List.pairwise_singleton _ _, fun old member new single => ?_⟩
    rw [List.mem_singleton.mp single]
    exact (shelved.below old member).2.ne
  owner := by
    intro other member record recorded same
    rw [titles, List.mem_append, List.mem_singleton] at member
    rw [records, List.mem_append, List.mem_singleton] at recorded
    rcases member with old | rfl <;> rcases recorded with oldRecord | rfl
    · exact shelved.owner other old record oldRecord same
    · exact absurd same.symm (shelved.below other old).2.ne
    · exact absurd same (shelved.records record oldRecord).ne
    · rfl
  single := by
    have old {other : Title} (member : other ∈ db.titles) :
        isPaid next.records other = isPaid db.records other := by
      rw [records, isPaid_append]
      exact (shelved.below other member).2.ne
    have sold : isPaid next.records
        ⟨db.nextTitle, userId, granter, title, approved, db.nextRecord⟩ = true →
          titleExists db userId = false := by
      intro paid
      obtain ⟨record, member, id, priced⟩ := isPaid_iff.mp paid
      rw [records, List.mem_append, List.mem_singleton] at member
      rcases member with member | rfl
      · exact absurd id (shelved.records record member).ne
      · exact free.resolve_left priced
    have unsold {other : Title} (member : other ∈ db.titles) (user : other.userId = userId)
        (none : titleExists db userId = false) : isPaid db.records other ≠ true := by
      intro paid
      have here := List.any_eq_false.mp none other member
      exact here (by rw [user, paid]; simp)
    intro left leftMember right rightMember user paidLeft paidRight
    rw [titles, List.mem_append, List.mem_singleton] at leftMember rightMember
    rcases leftMember with leftMember | rfl <;> rcases rightMember with rightMember | rfl
    · rw [old leftMember] at paidLeft
      rw [old rightMember] at paidRight
      exact shelved.single left leftMember right rightMember user paidLeft paidRight
    · rw [old leftMember] at paidLeft
      exact absurd paidLeft (unsold leftMember user (sold paidRight))
    · rw [old rightMember] at paidRight
      exact absurd paidRight (unsold rightMember user.symm (sold paidLeft))
    · rfl
  column := column

theorem approvedTitles_cons (title : Title) (titles : List Title) (id : Int) :
    approvedTitles (title :: titles) id =
      (if title.userId = id ∧ title.approved = true then {title.title} else 0) +
        approvedTitles titles id := by
  rw [← List.singleton_append, approvedTitles_append, approvedTitles_singleton]

/-- Changes of other users' titles. -/
theorem approvedTitles_map {titles : List Title} {change : Title → Title} {id : Int}
    (users : ∀ title, (change title).userId = title.userId)
    (fixed : ∀ title ∈ titles, title.userId = id → change title = title) :
    approvedTitles (titles.map change) id = approvedTitles titles id := by
  induction titles with
  | nil => rfl
  | cons title titles ih =>
    have rest := ih fun other member => fixed other (List.mem_cons_of_mem title member)
    rw [List.map_cons, approvedTitles_cons, approvedTitles_cons, rest]
    by_cases user : title.userId = id
    · rw [fixed title List.mem_cons_self user]
    · rw [users, if_neg fun own => user own.1, if_neg fun own => user own.1]

theorem Shelved.eq_of_id (shelved : Shelved db) {title other : Title} (member : title ∈ db.titles)
    (member' : other ∈ db.titles) (same : title.id = other.id) : title = other := by
  have : Std.Symm fun title other : Title => title.id ≠ other.id := ⟨fun _ _ => Ne.symm⟩
  by_contra ne
  exact shelved.ids.forall member member' ne same

theorem Shelved.eq_of_recordId (shelved : Shelved db) {title other : Title}
    (member : title ∈ db.titles) (member' : other ∈ db.titles)
    (same : title.recordId = other.recordId) : title = other := by
  have : Std.Symm fun title other : Title => title.recordId ≠ other.recordId :=
    ⟨fun _ _ => Ne.symm⟩
  by_contra ne
  exact shelved.own.forall member member' ne same

/-- The trigger renews the record, or leaves all as they are. -/
theorem titleAfterUpdate_eq (items : Int → Option Item) (db : Database) (now : Int)
    (old : Title) :
    ∃ renew : Record → Record, (renew = id ∨ renew = Record.renew items now old.recordId) ∧
      titleAfterUpdate items db now old = { db with
        title := Function.update db.title old.userId (approvedTitles db.titles old.userId)
        records := db.records.map renew } := by
  unfold titleAfterUpdate
  dsimp only
  split
  · exact ⟨id, .inl rfl, by rw [List.map_id]; rfl⟩
  · exact ⟨_, .inr rfl, rfl⟩

/-- Other titles stay the same, and so do the items and the users of the records. -/
theorem Shelved.approve (shelved : Shelved db) {id granter : Int} {old : Title}
    (found : db.titles.find? (·.id == id) = some old) :
    Shelved (titleAfterUpdate items
      { db with titles := db.titles.map (Title.approve id granter) } now old) := by
  have inside := List.mem_of_find?_eq_some found
  have oldId : old.id = id := by simpa using List.find?_some found
  obtain ⟨renew, renewed, nextEq⟩ := titleAfterUpdate_eq items
    { db with titles := db.titles.map (Title.approve id granter) } now old
  have same {record : Record} :
      (renew record).id = record.id ∧ (renew record).userId = record.userId ∧
        (renew record).item = record.item := by
    rcases renewed with rfl | rfl
    · exact ⟨rfl, rfl, rfl⟩
    · obtain ⟨_, _, renewEq⟩ := record.renew_eq items now old.recordId
      rw [renewEq]
      exact ⟨rfl, rfl, rfl⟩
  have paid (title : Title) :
      isPaid (db.records.map renew) (title.approve id granter) = isPaid db.records title := by
    simp only [isPaid, List.any_map, Function.comp_def, same, Title.recordId_approve]
  rw [nextEq]
  constructor
  · exact List.pairwise_map.mpr (by simpa using shelved.ids)
  · intro title member
    obtain ⟨before, here, rfl⟩ := List.mem_map.mp member
    simpa using shelved.below before here
  · intro record member
    obtain ⟨before, here, rfl⟩ := List.mem_map.mp member
    simpa [same] using shelved.records before here
  · exact List.pairwise_map.mpr (by simpa using shelved.own)
  · intro title member record recorded recordId
    obtain ⟨before, here, rfl⟩ := List.mem_map.mp member
    obtain ⟨first, there, rfl⟩ := List.mem_map.mp recorded
    simp only [same, Title.recordId_approve, Title.userId_approve] at recordId ⊢
    exact shelved.owner before here first there recordId
  · intro left leftMember right rightMember user paidLeft paidRight
    obtain ⟨left, here, rfl⟩ := List.mem_map.mp leftMember
    obtain ⟨right, there, rfl⟩ := List.mem_map.mp rightMember
    rw [paid] at paidLeft paidRight
    simp only [Title.recordId_approve, Title.userId_approve] at user ⊢
    exact shelved.single left here right there user paidLeft paidRight
  · intro other
    dsimp only
    rw [Function.update_apply]
    split
    case isTrue user => rw [user]
    case isFalse apart =>
      rw [shelved.column, approvedTitles_map]
      · simp
      · intro title member user
        -- The row that changes is another user's.
        have ne : title.id ≠ id := by
          intro titleId
          have row := shelved.eq_of_id member inside (titleId.trans oldId.symm)
          exact apart (row ▸ user.symm)
        rw [Title.approve, if_neg ne]

theorem Shelved.sublist (shelved : Shelved db) (titles : next.titles.Sublist db.titles)
    (records : next.records.Sublist db.records) (nextTitle : next.nextTitle = db.nextTitle)
    (nextRecord : next.nextRecord = db.nextRecord)
    (column : ∀ id, next.title id = approvedTitles next.titles id) : Shelved next where
  ids := shelved.ids.sublist titles
  below := fun title member =>
    nextTitle ▸ nextRecord ▸ shelved.below title (titles.subset member)
  records := fun record member => nextRecord ▸ shelved.records record (records.subset member)
  own := shelved.own.sublist titles
  owner := fun title member record recorded =>
    shelved.owner title (titles.subset member) record (records.subset recorded)
  single := by
    have paid {title : Title} (now : isPaid next.records title = true) :
        isPaid db.records title = true := by
      obtain ⟨record, member, rest⟩ := isPaid_iff.mp now
      exact isPaid_iff.mpr ⟨record, records.subset member, rest⟩
    exact fun left leftMember right rightMember user paidLeft paidRight =>
      shelved.single left (titles.subset leftMember) right (titles.subset rightMember) user
        (paid paidLeft) (paid paidRight)
  column := column

/-- No more than one title has the record. -/
theorem Shelved.filter_recordId (shelved : Shelved db) (record : Int) :
    db.titles.filter (·.recordId == record) = [] ∨
      ∃ old ∈ db.titles, old.recordId = record ∧
        db.titles.filter (·.recordId == record) = [old] := by
  have alike : ∀ title ∈ db.titles.filter (·.recordId == record),
      title ∈ db.titles ∧ title.recordId = record := by
    intro title member
    simpa using List.mem_filter.mp member
  have apart := shelved.own.sublist (List.filter_sublist (p := (·.recordId == record)))
  generalize db.titles.filter (·.recordId == record) = gone at alike apart
  match gone, alike, apart with
  | [], _, _ => exact .inl rfl
  | [old], alike, _ =>
    have ⟨member, same⟩ := alike old List.mem_cons_self
    exact .inr ⟨old, member, same, rfl⟩
  | old :: other :: _, alike, apart =>
    have ne := List.rel_of_pairwise_cons apart List.mem_cons_self
    have first := (alike old (by simp)).2
    have second := (alike other (by simp)).2
    exact absurd (first.trans second.symm) ne

theorem approvedTitles_filter {titles : List Title} {keep : Title → Bool} {id : Int}
    (kept : ∀ title ∈ titles, title.userId = id → keep title = true) :
    approvedTitles (titles.filter keep) id = approvedTitles titles id := by
  induction titles with
  | nil => rfl
  | cons title titles ih =>
    have rest := ih fun other member => kept other (List.mem_cons_of_mem title member)
    rw [List.filter_cons, approvedTitles_cons, ← rest]
    split
    · rw [approvedTitles_cons]
    case isFalse gone =>
      have other : title.userId ≠ id := fun user => gone (kept title List.mem_cons_self user)
      rw [if_neg fun own => other own.1]
      exact (Multiset.zero_add _).symm

/-- What is left when titles are deleted by their record. -/
theorem titleRemove_cases (shelved : Shelved db) {record : Int}
    (removed : titleRemove db now record = some next) :
    (next = { db with titles := db.titles.filter (·.recordId != record) } ∧
        ∀ title ∈ db.titles, title.recordId ≠ record) ∨
      ∃ old ∈ db.titles, old.recordId = record ∧ ∃ row delta,
        db.records.find? (·.id == record) = some row ∧ refund row old.approved now = some delta ∧
        next = refreshTitle { TitleLedger.charge db old.userId delta .deleteTitle with
          records := db.records.filter (·.id != record)
          titles := db.titles.filter (·.recordId != record) } old.userId := by
  unfold titleRemove at removed
  rcases shelved.filter_recordId record with none | ⟨old, member, rfl, single⟩
  · left
    rw [none, TransitionRuns.run, Option.some.injEq] at removed
    refine ⟨removed.symm, fun title member same => ?_⟩
    have here : title ∈ db.titles.filter (·.recordId == record) :=
      List.mem_filter.mpr ⟨member, beq_iff_eq.mpr same⟩
    rw [none] at here
    cases here
  · right
    rw [single] at removed
    obtain ⟨middle, deleted, rest⟩ := TransitionRuns.run_cons removed
    rw [TransitionRuns.run, Option.some.injEq] at rest
    obtain ⟨row, delta, found, refunded, rfl⟩ := titleAfterDelete_spec deleted
    refine ⟨old, member, rfl, row, delta, found, refunded, ?_⟩
    rw [← rest, List.filter_filter]
    simp only [Bool.and_self]
    rfl

theorem Shelved.remove (shelved : Shelved db) {record : Int}
    (removed : titleRemove db now record = some next) : Shelved next := by
  rcases titleRemove_cases shelved removed with ⟨rfl, kept⟩ | ⟨old, member, rfl, _, _, -, -, rfl⟩
  · refine shelved.sublist List.filter_sublist (List.Sublist.refl _) rfl rfl fun id => ?_
    dsimp only
    rw [shelved.column, approvedTitles_filter]
    exact fun title member _ => bne_iff_ne.mpr (kept title member)
  · refine shelved.sublist List.filter_sublist List.filter_sublist rfl rfl fun id => ?_
    dsimp only [refreshTitle, TitleLedger.charge]
    rw [Function.update_apply]
    split
    case isTrue user => rw [user]
    case isFalse other =>
      rw [shelved.column, approvedTitles_filter]
      intro title inside user
      apply bne_iff_ne.mpr
      intro same
      exact other (shelved.eq_of_recordId inside member same ▸ user.symm)

theorem Shelved.buy (shelved : Shelved db) {userId item granter : Int} {title : Bytes}
    (bought : buyTitleRequest items db now userId item title granter = some next) :
    Shelved next := by
  obtain ⟨row, sold, -, free, rfl, rfl | rfl⟩ := buyTitleRequest_spec bought
  · refine shelved.sell free (fun id => ?_) rfl rfl rfl rfl
    dsimp only [refreshTitle, TitleLedger.charge]
    rw [Function.update_apply]
    split
    case isTrue user => rw [user]
    case isFalse other =>
      rw [shelved.column, approvedTitles_append, approvedTitles_singleton,
        if_neg fun own => other own.1.symm]
      exact (Multiset.add_zero _).symm
  · refine shelved.sell free (fun id => ?_) rfl rfl rfl rfl
    dsimp only [TitleLedger.charge]
    rw [shelved.column, approvedTitles_append, approvedTitles_singleton,
      if_neg fun own => Bool.false_ne_true own.2]
    exact (Multiset.add_zero _).symm

theorem shelved_step (shelved : Shelved db) (event : Event) : Shelved (step items db event) := by
  obtain ⟨now, action⟩ := event
  apply step_of_effect shelved
  intro next effect
  cases effect with
  | createUser => exact shelved.congr rfl rfl rfl rfl rfl
  | buy bought => exact shelved.buy bought
  | noTitle => exact shelved
  | approve found => exact shelved.approve found
  | remove removed => exact shelved.remove removed
  | pay => exact shelved.congr rfl rfl rfl rfl rfl
  | grant =>
    unfold grantMoney
    split <;> exact shelved.congr rfl rfl rfl rfl rfl

end Shelved

/-! ## Buying and giving back -/

def Reason.isTrade : Reason → Bool
  | .buy _ => true
  | .deleteTitle => true
  | .grant => false

/-- What a user got for titles, less what he paid. -/
def traded : List Audit → Int → Int
  | [], _ => 0
  | row :: rows, id =>
    (if row.userId = id ∧ row.reason.isTrade = true then row.delta else 0) + traded rows id

/-- What was paid for the records that a user has. -/
def worth : List Record → Int → Int
  | [], _ => 0
  | record :: records, id =>
    (if record.userId = id then record.price else 0) + worth records id

/-- Items cost something or nothing, and run for some time. -/
def Sound (items : Int → Option Item) : Prop :=
  ∀ item row, items item = some row → 0 ≤ row.price ∧ 0 < row.expire

/-- Nobody got more for titles than he paid for those that he does not have any more. -/
structure Solvent (db : Database) (clock : Int) : Prop where
  sold : ∀ record ∈ db.records,
    0 ≤ record.price ∧ record.orderTime ≤ clock ∧ record.orderTime < record.expire
  traded : ∀ id, traded db.audit id + worth db.records id ≤ 0

section Solvent

variable {items : Int → Option Item} {db next : Database} {clock now : Int}

theorem solvent_start (clock : Int) : Solvent start clock :=
  ⟨nofun, fun _ => le_refl 0⟩

theorem Solvent.later (solvent : Solvent db clock) (later : clock ≤ now) : Solvent db now :=
  ⟨fun record member =>
    have ⟨price, order, expire⟩ := solvent.sold record member
    ⟨price, order.trans later, expire⟩, solvent.traded⟩

/-- A title gives back at most its price. -/
theorem refund_le {record : Record} {approved : Bool} {delta : Int} (price : 0 ≤ record.price)
    (order : record.orderTime ≤ now) (expire : record.orderTime < record.expire)
    (refunded : refund record approved now = some delta) : delta ≤ record.price := by
  unfold refund at refunded
  cases approved with
  | true =>
    simp only [if_true] at refunded
    rw [Option.ite_none_left_eq_some, Option.some.injEq] at refunded
    obtain ⟨-, rfl⟩ := refunded
    have half : 0 ≤ record.price.tdiv 2 ∧ record.price.tdiv 2 ≤ record.price := by
      rw [Int.tdiv_eq_ediv_of_nonneg price]
      omega
    have total : 0 < record.expire - record.orderTime := by omega
    apply max_le price
    rw [Int.fdiv_eq_ediv_of_nonneg _ total.le]
    apply le_trans _ half.2
    apply Int.ediv_le_of_le_mul total
    exact Int.mul_le_mul_of_nonneg_left (by omega) half.1
  | false =>
    simp only [Bool.false_eq_true, if_false, Option.some.injEq] at refunded
    rw [Int.fdiv_eq_ediv_of_nonneg _ (by decide)] at refunded
    omega

theorem worth_append (records : List Record) (record : Record) (id : Int) :
    worth (records ++ [record]) id =
      worth records id + if record.userId = id then record.price else 0 := by
  induction records with
  | nil => rw [List.nil_append, worth, worth, worth, add_comm]
  | cons first records ih => rw [List.cons_append, worth, worth, ih, add_assoc]

theorem worth_map {change : Record → Record}
    (same : ∀ record, (change record).userId = record.userId ∧
      (change record).price = record.price) (records : List Record) (id : Int) :
    worth (records.map change) id = worth records id := by
  induction records with
  | nil => rfl
  | cons record records ih =>
    rw [List.map_cons, worth, worth, ih, (same record).1, (same record).2]

theorem worth_filter_le {records : List Record} (prices : ∀ record ∈ records, 0 ≤ record.price)
    (keep : Record → Bool) (id : Int) : worth (records.filter keep) id ≤ worth records id := by
  induction records with
  | nil => exact le_refl 0
  | cons record records ih =>
    have rest := ih fun other member => prices other (List.mem_cons_of_mem record member)
    have price := prices record List.mem_cons_self
    rw [List.filter_cons]
    split
    · rw [worth, worth]
      omega
    · rw [worth]
      split <;> omega

/-- A record that goes takes its price along. -/
theorem worth_filter_add_le {records : List Record} {gone : Record}
    (prices : ∀ record ∈ records, 0 ≤ record.price) (member : gone ∈ records) (keep : Record → Bool)
    (dropped : keep gone = false) :
    worth (records.filter keep) gone.userId + gone.price ≤ worth records gone.userId := by
  induction records with
  | nil => cases member
  | cons record records ih =>
    have others (other : Record) (inside : other ∈ records) : 0 ≤ other.price :=
      prices other (List.mem_cons_of_mem record inside)
    have price := prices record List.mem_cons_self
    rcases List.mem_cons.mp member with rfl | member
    · rw [List.filter_cons_of_neg (by rw [dropped]; exact Bool.false_ne_true), worth, if_pos rfl]
      have rest := worth_filter_le others keep gone.userId
      omega
    · have rest := ih others member
      rw [List.filter_cons]
      split
      · rw [worth, worth]
        omega
      · rw [worth]
        split <;> omega

theorem Solvent.congr (solvent : Solvent db clock) (audit : next.audit = db.audit)
    (records : next.records = db.records) : Solvent next clock :=
  ⟨records ▸ solvent.sold, audit ▸ records ▸ solvent.traded⟩

theorem Solvent.buy (sound : Sound items) (solvent : Solvent db now)
    {userId item granter : Int} {title : Bytes}
    (bought : buyTitleRequest items db now userId item title granter = some next) :
    Solvent next now := by
  obtain ⟨row, sold, rowEq, -, rfl, nextEq⟩ := buyTitleRequest_spec bought
  obtain ⟨price, expire⟩ := sound item row rowEq
  have charged : Solvent (TitleLedger.charge { db with
      records := db.records ++ [⟨db.nextRecord, userId, item, row.price, now, now + row.expire⟩]
      nextRecord := db.nextRecord + 1 } userId (-row.price) (.buy item)) now := by
    constructor
    · intro record member
      rcases List.mem_append.mp member with old | new
      · exact solvent.sold record old
      · rw [List.mem_singleton.mp new]
        exact ⟨price, le_refl now, Int.lt_add_of_pos_right now expire⟩
    · intro id
      have before := solvent.traded id
      dsimp only [TitleLedger.charge]
      rw [worth_append, TitleLedger.traded]
      by_cases user : userId = id
      · rw [if_pos ⟨user, rfl⟩, if_pos user]
        dsimp only
        omega
      · rw [if_neg fun own => user own.1, if_neg user]
        omega
  rcases nextEq with rfl | rfl
  · exact charged.congr rfl rfl
  · exact charged.congr rfl rfl

theorem Solvent.approve (sound : Sound items) (solvent : Solvent db now) (old : Title) :
    Solvent (titleAfterUpdate items db now old) now := by
  obtain ⟨renew, renewed, nextEq⟩ := titleAfterUpdate_eq items db now old
  rw [nextEq]
  constructor
  · intro record member
    obtain ⟨before, inside, rfl⟩ := List.mem_map.mp member
    have sold := solvent.sold before inside
    rcases renewed with rfl | rfl
    · exact sold
    · unfold Record.renew
      split
      · cases rowEq : items before.item with
        | none => exact sold
        | some row =>
          exact ⟨sold.1, le_refl now, Int.lt_add_of_pos_right now (sound _ row rowEq).2⟩
      · exact sold
  · intro id
    have same (record : Record) :
        (renew record).userId = record.userId ∧ (renew record).price = record.price := by
      rcases renewed with rfl | rfl
      · exact ⟨rfl, rfl⟩
      · obtain ⟨_, _, renewEq⟩ := record.renew_eq items now old.recordId
        rw [renewEq]
        exact ⟨rfl, rfl⟩
    dsimp only
    rw [worth_map same]
    exact solvent.traded id

theorem Solvent.remove (shelved : Shelved db) (solvent : Solvent db now) {record : Int}
    (removed : titleRemove db now record = some next) : Solvent next now := by
  rcases titleRemove_cases shelved removed with
    ⟨rfl, -⟩ | ⟨old, member, rfl, row, delta, found, refunded, rfl⟩
  · exact solvent.congr rfl rfl
  · have inside := List.mem_of_find?_eq_some found
    have rowId : row.id = old.recordId := by simpa using List.find?_some found
    have user := shelved.owner old member row inside rowId
    obtain ⟨price, order, expire⟩ := solvent.sold row inside
    have bound := refund_le price order expire refunded
    have prices (record : Record) (recorded : record ∈ db.records) : 0 ≤ record.price :=
      (solvent.sold record recorded).1
    constructor
    · exact fun record kept => solvent.sold record (List.mem_filter.mp kept).1
    · intro id
      have before := solvent.traded id
      dsimp only [refreshTitle, TitleLedger.charge]
      rw [TitleLedger.traded]
      by_cases own : old.userId = id
      · rw [if_pos ⟨own, rfl⟩]
        have less := worth_filter_add_le prices inside (·.id != old.recordId)
          (by rw [rowId, bne_self_eq_false])
        rw [user, own] at less
        dsimp only
        omega
      · rw [if_neg fun both => own both.1]
        have less := worth_filter_le prices (·.id != old.recordId) id
        omega

theorem solvent_step (sound : Sound items) (shelved : Shelved db) (solvent : Solvent db clock)
    {event : Event} (later : clock ≤ event.1) : Solvent (step items db event) event.1 := by
  obtain ⟨now, action⟩ := event
  have solvent := solvent.later later
  refine step_of_effect (motive := (Solvent · now)) solvent fun next effect => ?_
  cases effect with
  | createUser => exact solvent.congr rfl rfl
  | buy bought => exact Solvent.buy sound solvent bought
  | noTitle => exact solvent
  | approve =>
    apply Solvent.approve sound
    exact solvent.congr rfl rfl
  | remove removed => exact Solvent.remove shelved solvent removed
  | pay => exact solvent.congr rfl rfl
  | grant userId delta =>
    have untraded (id : Int) :
        traded (⟨userId, delta, .grant⟩ :: db.audit) id = traded db.audit id := by
      rw [TitleLedger.traded, if_neg fun both => Bool.false_ne_true both.2, zero_add]
    unfold grantMoney
    split
    · exact ⟨solvent.sold, fun id => (untraded id).symm ▸ solvent.traded id⟩
    · exact ⟨solvent.sold, fun id => (untraded id).symm ▸ solvent.traded id⟩

theorem exists_solvent_run (sound : Sound items) {events : List Event} (shelved : Shelved db)
    (solvent : Solvent db clock) (later : ∀ event ∈ events, clock ≤ event.1)
    (ordered : events.Pairwise fun event other => event.1 ≤ other.1) :
    ∃ last, Solvent (run items events db) last := by
  induction events generalizing db clock with
  | nil => exact ⟨clock, solvent⟩
  | cons event events ih =>
    obtain ⟨after, rest⟩ := List.pairwise_cons.mp ordered
    have next := solvent_step sound shelved solvent (later event List.mem_cons_self)
    exact ih (shelved_step shelved event) next after rest

end Solvent

/-! ## Runs -/

theorem shelved_run (items : Int → Option Item) (events : List Event) :
    Shelved (run items events start) := by
  induction events using List.reverseRecOn with
  | nil => exact shelved_start
  | append_singleton events event ih =>
    rw [run, List.foldl_concat]
    exact shelved_step ih event

/-- In every run a user's money is what was paid to him for posts and logins and what the audit
says, and `contrib` what was paid at all. -/
theorem balanced_run (items : Int → Option Item) (events : List Event) (id : Int) :
    (run items events start).money id =
        ((run items events start).payment id).posts +
          ((run items events start).payment id).logins +
            audited (run items events start).audit id ∧
      (run items events start).contrib id =
        ((run items events start).payment id).posts +
          ((run items events start).payment id).logins +
            ((run items events start).payment id).awards := by
  have balanced : Balanced (run items events start) := by
    induction events using List.reverseRecOn with
    | nil => exact balanced_start
    | append_singleton events event ih =>
      rw [run, List.foldl_concat]
      exact balanced_step ih event
  exact ⟨balanced.money id, balanced.contrib id⟩

/-- In every run a user has at most one title that is not free, and his column is made of his
titles that are approved. -/
theorem titles_of_run (items : Int → Option Item) (events : List Event) :
    (∀ title ∈ (run items events start).titles, ∀ other ∈ (run items events start).titles,
      title.userId = other.userId →
        isPaid (run items events start).records title = true →
          isPaid (run items events start).records other = true → title = other) ∧
      ∀ id, (run items events start).title id =
        approvedTitles (run items events start).titles id := by
  have shelved := shelved_run items events
  refine ⟨fun title member other member' user paid paid' => ?_, shelved.column⟩
  exact shelved.eq_of_recordId member member'
    (shelved.single title member other member' user paid paid')

/-- Whatever is bought, approved and given back, nobody gets more for titles than he paid for
those that he does not have any more. -/
theorem traded_of_run {items : Int → Option Item} (sound : Sound items) {events : List Event}
    (ordered : events.Pairwise fun event other => event.1 ≤ other.1) (id : Int) :
    traded (run items events start).audit id + worth (run items events start).records id ≤ 0 := by
  cases events with
  | nil => exact le_refl 0
  | cons event events =>
    have later : ∀ other ∈ event :: events, event.1 ≤ other.1 := by
      intro other member
      rcases List.mem_cons.mp member with rfl | rest
      · exact le_refl _
      · exact (List.pairwise_cons.mp ordered).1 other rest
    obtain ⟨last, solvent⟩ :=
      exists_solvent_run sound shelved_start (solvent_start event.1) later ordered
    exact solvent.traded id

/-- A title of 30 days for 100. -/
def oneItem (item : Int) : Option Item :=
  if item = 2 then some ⟨100, 2592000⟩ else none

theorem sound_oneItem : Sound oneItem := by
  intro item row rowEq
  unfold oneItem at rowEq
  rw [Option.ite_none_right_eq_some, Option.some.injEq] at rowEq
  rw [← rowEq.2]
  decide

/-- One that is given back after half the time leaves a quarter. -/
theorem traded_given_back :
    traded (run oneItem [(0, .createUser 1), (10, .createUser 2), (20, .buy 1 2 [65] 0),
        (30, .approve 1 2), (1296030, .remove 1)] start).audit 1 +
      worth (run oneItem [(0, .createUser 1), (10, .createUser 2), (20, .buy 1 2 [65] 0),
        (30, .approve 1 2), (1296030, .remove 1)] start).records 1 ≤ 0 :=
  traded_of_run sound_oneItem (by decide) 1

end TitleLedger

end Fbbs
