import Mathlib.Algebra.Group.Nat.Defs
import Mathlib.Data.List.Basic
import Fbbs.DescendingPages
import Fbbs.TransitionRuns

/-!
# The list of recent replies

`tui_list_recent` of `src/list.c` with the handlers of `src/plist.c`: rows of a table are
fetched in pages, the newest first, into a vector that is shown in reverse order.  Keys load
more, delete, switch the filter and read; the table may change between any two steps.
-/

namespace Fbbs

namespace RecentList

open DescendingPages

/-- `INT64_MAX`. -/
def int64Max : Nat := 2 ^ 63 - 1

/-- A row of a reply table, and the `post_info_t` that is made of it. -/
structure Row (Info : Type) where
  id : Nat
  userIdReplied : Nat
  isRead : Bool
  info : Info

/-- A table: a user is not told twice of a post. -/
structure Table (Info : Type) where
  rows : List (Row Info)
  unique : ∀ user, ((rows.filter (·.userIdReplied = user)).map Row.id).Nodup
  small : ∀ row ∈ rows, row.id < int64Max

inductive Update
  | doNothing
  | fullUpdate
  | partUpdate
  | miniUpdate
  | readAgain
  deriving DecidableEq

/-- Keys that `tui_list` and the handlers treat alike are one. -/
inductive Key
  | switch
  | up
  | down
  | pageUp
  | pageDown
  | end_
  | home
  | newline
  | carriageReturn
  | right
  | delete
  | digit (value : Fin 10)
  | quit
  | other

/-- What the program is waiting for. -/
inductive Phase (Info : Type)
  | loop
  | waiting
  | confirming (row : Row Info)
  | reading (row : Option (Row Info))
  | finished

/-- A call of the loader, with the table as it was. -/
structure Fetch (Info : Type) where
  rows : List (Row Info)
  unreadOnly : Bool
  bound : Nat
  page : List (Row Info)

/-- `tui_list_t` with its helper, the table and the screen.  The calls of the loader since the
filter was switched, and the posts deleted through the list since then, are kept as well. -/
structure State (Info : Type) where
  table : Table Info
  unreadOnly : Bool
  allLoaded : Bool
  vector : List (Row Info)
  all : Int
  cur : Int
  begin_ : Int
  jump : Int32
  update : Update
  valid : Bool
  screen : Nat → Option (Row Info)
  phase : Phase Info
  fetches : List (Fetch Info)
  deleted : List Nat

section List

variable {Info : Type}

-- The user, and the lines that are left for rows on the screen.
variable (user lines : Nat)

/-! ## The vector -/

/-- `vector_at`; a negative position is a large one. -/
def vectorAt (vector : List (Row Info)) (position : Int) : Option (Row Info) :=
  if 0 ≤ position then vector[position.toNat]? else none

/-- `vector_erase`. -/
def vectorErase (vector : List (Row Info)) (position : Int) : List (Row Info) :=
  if 0 ≤ position then vector.eraseIdx position.toNat else vector

/-- `tui_list_recent_get_data`. -/
def getData (s : State Info) (n : Int) : Option (Row Info) :=
  vectorAt s.vector (s.all - n - 1)

/-! ## Loading -/

/-- The rows that the loader asks for. -/
def wanted (user : Nat) (unreadOnly : Bool) (rows : List (Row Info)) : List (Row Info) :=
  rows.filter fun row => row.userIdReplied = user && !(unreadOnly && row.isRead)

/-- `_post_reply_load`. -/
def postReplyLoad (table : Table Info) (unreadOnly : Bool) (id : Nat) : List (Row Info) :=
  page Row.id (wanted user unreadOnly table.rows) id lines

/-- The id below which more rows are loaded. -/
def nextId (vector : List (Row Info)) : Nat :=
  match vector.getLast? with
  | some row => row.id
  | none => int64Max

/-- `tui_list_recent_loader`: the number of rows, and the state. -/
def loader (s : State Info) : Int × State Info :=
  if s.allLoaded then (0, s)
  else
    let page := postReplyLoad user lines s.table s.unreadOnly (nextId s.vector)
    let vector := s.vector ++ page
    let all : Int := vector.length
    (page.length,
      { s with
        vector, all
        allLoaded := page.length < lines
        valid := true
        cur := if s.vector = [] then (if 0 < all then all - 1 else 0) else s.cur
        fetches := ⟨s.table.rows, s.unreadOnly, nextId s.vector, page⟩ :: s.fetches })

def loadMore (s : State Info) : State Info :=
  let loaded := (loader user lines s).2
  let diff := loaded.all - s.all
  if 0 < diff then { loaded with begin_ := loaded.begin_ + diff, cur := loaded.cur + diff }
  else loaded

/-! ## The loop of `tui_list` -/

def adjustWindow (s : State Info) : State Info :=
  if s.cur < s.begin_ ∨ s.begin_ + lines ≤ s.cur then
    { s with
      begin_ := s.cur.tdiv lines * lines
      update := if s.update = .fullUpdate then .fullUpdate else .partUpdate }
  else s

def clampCur (s : State Info) : State Info :=
  let cur := if s.all ≤ s.cur then s.all - 1 else s.cur
  { s with cur := if cur < 0 then 0 else cur }

/-- `tui_list_display_loop`, after the screen has been cleared. -/
def displayLoop (s : State Info) : State Info :=
  { s with screen := fun k =>
      if k < lines ∧ s.begin_ + k < s.all then getData s (s.begin_ + k) else none }

/-- The part of the loop before a key is read. -/
def loopHead (s : State Info) : State Info :=
  let s := adjustWindow lines s
  let s :=
    if s.valid then s
    else
      let loaded := (loader user lines s).2
      { loaded with
        valid := true
        update := if loaded.update = .fullUpdate then .fullUpdate else .partUpdate }
  let s := adjustWindow lines (clampCur s)
  let s := if s.update = .fullUpdate ∨ s.update = .partUpdate then displayLoop lines s else s
  { s with update := .doNothing, phase := .waiting }

/-- A row after all posts of the user up to one have been read. -/
def Row.mark (id : Nat) (row : Row Info) : Row Info :=
  { row with isRead := row.isRead || (row.userIdReplied = user && row.id ≤ id) }

/-- `post_reply_mark_as_read` for all posts up to one. -/
def markAsRead (table : Table Info) (id : Nat) : Table Info where
  rows := table.rows.map (Row.mark user id)
  unique := by
    intro other
    rw [List.filter_map, List.map_map]
    exact table.unique other
  small := by
    intro row member
    obtain ⟨before, inside, rfl⟩ := List.mem_map.mp member
    exact table.small before inside

/-- `post_list_reply_finalizer`. -/
def finalizer (s : State Info) : State Info :=
  match vectorAt s.vector 0 with
  | some row => { s with table := markAsRead user s.table row.id }
  | none => s

/-- `post_reply_delete`. -/
def deleteRow (table : Table Info) (id : Nat) : Table Info where
  rows := table.rows.filter fun row => !(row.userIdReplied = user && row.id = id)
  unique := by
    intro other
    rw [List.filter_comm]
    exact (table.unique other).sublist (List.filter_sublist.map _)
  small := fun row member => table.small row (List.mem_filter.mp member).1

/-- The handler wants the key to be handled by `tui_list`, and the key is. -/
def tuiKey (s : State Info) : Key → State Info
  | .quit => { finalizer user s with phase := .finished }
  | .pageUp => { s with
      cur := if s.cur = 0 then s.all - 1 else s.cur - lines, phase := .loop }
  | .up => { s with cur := if s.cur - 1 < 0 then s.all - 1 else s.cur - 1, phase := .loop }
  | .end_ => { s with cur := s.all - 1, phase := .loop }
  | .home => { s with cur := 0, phase := .loop }
  | .newline | .carriageReturn =>
    if 0 < s.jump then { s with cur := (s.jump - 1).toInt, jump := 0, phase := .loop }
    else { s with jump := 0, update := .readAgain, phase := .loop }
  -- A number that is too long for an `int` wraps.
  | .digit value => { s with jump := s.jump * 10 + Int32.ofNat value.val, phase := .loop }
  | _ => { s with jump := 0, update := .readAgain, phase := .loop }

def handleKey (s : State Info) (key : Key) : State Info :=
  match key with
  | .delete =>
    match getData s s.cur with
    | some row => { s with phase := .confirming row }
    | none => { s with update := .doNothing, phase := .loop }
  | .newline | .right =>
    match getData s s.cur with
    | some row => { s with phase := .reading (some row) }
    | none => tuiKey user lines s key
  | .switch =>
    let s := if s.unreadOnly then finalizer user s else s
    { s with
      vector := [], unreadOnly := !s.unreadOnly, allLoaded := false, valid := false
      update := .fullUpdate, phase := .loop, fetches := [], deleted := [] }
  | .up => tuiKey user lines (if s.cur = 0 then loadMore user lines s else s) .up
  | .down =>
    let cur := s.cur + 1
    { s with
      cur := if s.all ≤ cur then (if 0 < s.all then s.all - 1 else 0) else cur
      update := .doNothing, phase := .loop }
  | .pageUp => tuiKey user lines (if s.cur < lines - 1 then loadMore user lines s else s) .pageUp
  | .pageDown =>
    let cur := s.cur + lines
    { s with
      cur := if s.all ≤ cur then (if 0 < s.all then s.all - 1 else 0) else cur
      update := .doNothing, phase := .loop }
  | key => tuiKey user lines s key

/-- The answer to the question of `tui_list_recent_delete`. -/
def confirm (s : State Info) (row : Row Info) (yes : Bool) : State Info :=
  if yes ∧ ∃ stored ∈ s.table.rows, stored.userIdReplied = user ∧ stored.id = row.id then
    { s with
      table := deleteRow user s.table row.id
      vector := vectorErase s.vector (s.all - s.cur - 1)
      all := s.all - 1
      update := .partUpdate, phase := .loop, deleted := row.id :: s.deleted }
  else { s with update := .miniUpdate, phase := .loop }

/-- `read_reply` ends. -/
def stopReading (s : State Info) : State Info :=
  { s with update := .fullUpdate, phase := .loop }

/-- `read_reply` goes on to the next row. -/
def readNext (s : State Info) : State Info :=
  if s.all ≤ s.cur + 1 then
    stopReading { s with cur := if 0 < s.all then s.all - 1 else 0 }
  else
    let s := { s with cur := s.cur + 1 }
    { s with phase := .reading (getData s s.cur) }

/-- `read_reply` goes back to the row before, which may have to be loaded. -/
def readPrevious (s : State Info) : State Info :=
  let s := { s with cur := s.cur - 1 }
  if s.cur < 0 then
    let (rows, loaded) := loader user lines s
    if 0 < rows then
      let s := { loaded with cur := loaded.cur + rows }
      { s with phase := .reading (getData s s.cur) }
    else stopReading loaded
  else { s with phase := .reading (getData s s.cur) }

inductive Action (Info : Type)
  | change (table : Table Info)
  | head
  | key (key : Key)
  | confirm (yes : Bool)
  | stop
  | next
  | previous

def step (s : State Info) : Action Info → Option (State Info)
  -- Rows are inserted, and marked as read, while the list does nothing.
  | .change table => some { s with table }
  | .head =>
    match s.phase with
    | .loop => some (loopHead user lines s)
    | _ => none
  | .key key =>
    match s.phase with
    | .waiting => some (handleKey user lines s key)
    | _ => none
  | .confirm yes =>
    match s.phase with
    | .confirming row => some (confirm user s row yes)
    | _ => none
  | .stop =>
    match s.phase with
    | .reading _ => some (stopReading s)
    | _ => none
  | .next =>
    match s.phase with
    | .reading (some _) => some (readNext s)
    | _ => none
  | .previous =>
    match s.phase with
    | .reading (some _) => some (readPrevious user lines s)
    | _ => none

/-- The list is opened. -/
def start (table : Table Info) (unreadOnly : Bool) : State Info where
  table := table
  unreadOnly := unreadOnly
  allLoaded := false
  vector := []
  all := 0
  cur := 0
  begin_ := 0
  jump := 0
  update := .fullUpdate
  valid := false
  screen := fun _ => none
  phase := .loop
  fetches := []
  deleted := []

/-! ## The rows in the vector -/

/-- What the vector holds: the ids are descending, and every row that was wanted when it was
fetched is there unless it has been deleted.  The fetches leave no gap. -/
structure Filled (user lines : Nat) (s : State Info) : Prop where
  opened : s.valid = true → s.fetches ≠ []
  pages : ∀ fetch ∈ s.fetches,
    fetch.page = page Row.id (wanted user fetch.unreadOnly fetch.rows) fetch.bound lines
  exhausted : s.allLoaded = true → ∃ fetch ∈ s.fetches,
    ∀ row ∈ wanted user fetch.unreadOnly fetch.rows, row.id < fetch.bound → row ∈ fetch.page
  descending : Descending Row.id s.vector
  filter : ∀ fetch ∈ s.fetches, fetch.unreadOnly = s.unreadOnly
  complete : ∀ fetch ∈ s.fetches, ∀ row ∈ wanted user fetch.unreadOnly fetch.rows,
    row.id < fetch.bound → (∃ last ∈ fetch.page, last.id ≤ row.id) →
      row.id ∈ s.deleted ∨ row ∈ s.vector
  covered : ∀ fetch ∈ s.fetches, ∀ last ∈ fetch.page, ∀ id, last.id ≤ id → id < int64Max →
    ∃ other ∈ s.fetches, id < other.bound ∧ ∃ first ∈ other.page, first.id ≤ id
  fetched : ∀ row ∈ s.vector, ∃ fetch ∈ s.fetches, row ∈ fetch.page

/-- The screen shows the rows of the window. -/
def Shown (lines : Nat) (s : State Info) : Prop :=
  ∀ k < lines, s.begin_ + k < s.all → s.screen k = getData s (s.begin_ + k)

/-- The list as the handlers may rely on it. -/
structure Settled (lines : Nat) (s : State Info) : Prop where
  valid : s.valid = true
  all : s.all = s.vector.length
  begin_ : 0 ≤ s.begin_
  shown : Shown lines s

def PhaseOk (lines : Nat) (s : State Info) : Phase Info → Prop
  | .loop => 0 ≤ s.begin_ ∧ (s.valid = false → s.allLoaded = false) ∧
      (s.valid = true → s.all = s.vector.length ∧
        (s.update = .fullUpdate ∨ s.update = .partUpdate ∨ Shown lines s))
  | .waiting => Settled lines s
  | .confirming row => Settled lines s ∧ getData s s.cur = some row
  | .reading _ => s.valid = true ∧ s.all = s.vector.length ∧ 0 ≤ s.begin_
  | .finished => True

structure Consistent (user lines : Nat) (s : State Info) : Prop where
  filled : Filled user lines s
  phase : PhaseOk lines s s.phase

theorem unique_wanted (table : Table Info) (unreadOnly : Bool) :
    ((wanted user unreadOnly table.rows).map Row.id).Nodup := by
  have split : wanted user unreadOnly table.rows =
      (table.rows.filter (·.userIdReplied = user)).filter fun row =>
        !(unreadOnly && row.isRead) := by
    rw [wanted, List.filter_filter]
    congr
    funext row
    exact Bool.and_comm ..
  rw [split]
  exact (table.unique user).sublist (List.filter_sublist.map _)

section Loading

variable {user lines : Nat} {s : State Info}

/-- What the loader does when there may be more rows. -/
theorem loader_spec (more : s.allLoaded = false) :
    ∃ (page : List (Row Info)) (cur : Int) (allLoaded : Bool),
      page = postReplyLoad user lines s.table s.unreadOnly (nextId s.vector) ∧
      allLoaded = decide (page.length < lines) ∧
      loader user lines s = ((page.length : Int),
        { s with
          vector := s.vector ++ page, all := (s.vector ++ page).length, valid := true, cur,
          allLoaded
          fetches := ⟨s.table.rows, s.unreadOnly, nextId s.vector, page⟩ :: s.fetches }) := by
  have notLoaded : ¬s.allLoaded = true := by
    rw [more]
    exact Bool.false_ne_true
  exact ⟨_, _, _, rfl, rfl, if_neg notLoaded⟩

theorem lt_of_mem_vector (filled : Filled user lines s) {row new : Row Info} (member : row ∈ s.vector)
    (less : new.id < nextId s.vector) : new.id < row.id := by
  rw [nextId] at less
  split at less
  · rename_i last isLast
    exact Nat.lt_of_lt_of_le less (last_le filled.descending isLast member)
  · rename_i empty
    rw [List.getLast?_eq_none_iff.mp empty] at member
    cases member

/-- Another fetch, which begins behind the vector, leaves no gap to the fetches before. -/
theorem covered_fetch (filled : Filled user lines s) {fetch : Fetch Info}
    (bound : fetch.bound = nextId s.vector) :
    ∀ earlier ∈ fetch :: s.fetches, ∀ last ∈ earlier.page, ∀ id, last.id ≤ id → id < int64Max →
      ∃ other ∈ fetch :: s.fetches, id < other.bound ∧ ∃ first ∈ other.page, first.id ≤ id := by
  have old : ∀ earlier ∈ s.fetches, ∀ last ∈ earlier.page, ∀ id, last.id ≤ id → id < int64Max →
      ∃ other ∈ fetch :: s.fetches, id < other.bound ∧ ∃ first ∈ other.page, first.id ≤ id := by
    intro earlier member last isLast id le less
    obtain ⟨other, isOther, covers⟩ := filled.covered earlier member last isLast id le less
    exact ⟨other, List.mem_cons_of_mem _ isOther, covers⟩
  refine List.forall_mem_cons.mpr ⟨?_, old⟩
  intro last isLast id le less
  by_cases inNew : id < nextId s.vector
  · exact ⟨fetch, List.mem_cons_self, bound ▸ inNew, last, isLast, le⟩
  · -- The row at the end of the vector belongs to an earlier fetch.
    rw [nextId] at inNew
    split at inNew
    · rename_i row isRow
      obtain ⟨earlier, member, inPage⟩ := filled.fetched row (List.mem_of_getLast? isRow)
      exact old earlier member row inPage id (by omega) less
    · exact absurd less inNew

/-- A page that is loaded keeps what is known of the vector. -/
theorem filled_loader (filled : Filled user lines s) : Filled user lines (loader user lines s).2 := by
  by_cases loaded : s.allLoaded = true
  · rw [loader, if_pos loaded]
    exact filled
  · obtain ⟨page, cur, allLoaded, isPage, isAll, result⟩ :=
      @loader_spec Info user lines s (Bool.eq_false_iff.mpr loaded)
    have unique := unique_wanted user s.table s.unreadOnly
    have below : ∀ row ∈ page, row.id < nextId s.vector := by
      intro row member
      rw [isPage] at member
      exact (mem_page member).2
    rw [result]
    refine ⟨fun _ => List.cons_ne_nil _ _, ?_, ?_, ?_, ?_, ?_, ?_, ?_⟩
    · exact List.forall_mem_cons.mpr ⟨isPage, filled.pages⟩
    · intro last
      refine ⟨_, List.mem_cons_self, fun row isWanted less => ?_⟩
      change allLoaded = true at last
      rw [isAll, decide_eq_true_eq, isPage] at last
      change row ∈ page
      rw [isPage]
      exact mem_page_of_short last isWanted less
    · refine descending_append filled.descending ?_ ?_
      · rw [isPage]
        exact descending_page unique
      · exact fun old inside new member => lt_of_mem_vector filled inside (below new member)
    · exact List.forall_mem_cons.mpr ⟨rfl, filled.filter⟩
    · refine List.forall_mem_cons.mpr ⟨?_, ?_⟩
      · rintro row isWanted less ⟨last, isLast, le⟩
        right
        refine List.mem_append_right _ ?_
        change last ∈ page at isLast
        rw [isPage] at isLast ⊢
        exact mem_page_of_le unique isWanted less isLast le
      · intro fetch member row isWanted less reached
        rcases filled.complete fetch member row isWanted less reached with gone | inside
        · exact Or.inl gone
        · exact Or.inr (List.mem_append_left _ inside)
    · exact covered_fetch filled rfl
    · intro row member
      rcases List.mem_append.mp member with inside | new
      · obtain ⟨fetch, isFetch, inPage⟩ := filled.fetched row inside
        exact ⟨fetch, List.mem_cons_of_mem _ isFetch, inPage⟩
      · exact ⟨_, List.mem_cons_self, new⟩

end Loading

/-! ## Steps -/

section Steps

variable {user lines : Nat} {s : State Info}

/-- What is known of the vector does not depend on the window, the screen or the table. -/
theorem filled_of_same {t : State Info} (filled : Filled user lines s) (vector : t.vector = s.vector)
    (unreadOnly : t.unreadOnly = s.unreadOnly) (fetches : t.fetches = s.fetches)
    (deleted : t.deleted = s.deleted) (allLoaded : t.allLoaded = s.allLoaded)
    (valid : t.valid = true → s.valid = true) : Filled user lines t := by
  obtain ⟨opened, pages, exhausted, descending, filter, complete, covered, fetched⟩ := filled
  refine ⟨?_, ?_, ?_, ?_, ?_, ?_, ?_, ?_⟩
  · intro isValid
    rw [fetches]
    exact opened (valid isValid)
  · rwa [fetches]
  · rwa [fetches, allLoaded]
  · rwa [vector]
  · rwa [fetches, unreadOnly]
  · rwa [fetches, deleted, vector]
  · rwa [fetches]
  · rwa [fetches, vector]

theorem vectorAt_append {vector : List (Row Info)} {position : Int}
    (inside : position < vector.length) (page : List (Row Info)) :
    vectorAt (vector ++ page) position = vectorAt vector position := by
  rw [vectorAt, vectorAt]
  split
  · exact List.getElem?_append_left (by omega)
  · rfl

/-- Rows that are loaded move the window, and the screen stays right. -/
theorem settled_loadMore (settled : Settled lines s) :
    Settled lines (loadMore user lines s) := by
  by_cases loaded : s.allLoaded = true
  · have same : loadMore user lines s = s := by
      rw [loadMore, loader, if_pos loaded]
      simp
    rw [same]
    exact settled
  · obtain ⟨page, cur, allLoaded, -, -, result⟩ :=
      @loader_spec Info user lines s (Bool.eq_false_iff.mpr loaded)
    have all := settled.all
    have begin_ := settled.begin_
    have length : ((s.vector ++ page).length : Int) - s.all = page.length := by
      rw [List.length_append]
      omega
    rw [loadMore, result]
    simp only [length]
    split
    · refine ⟨rfl, rfl, by simp only; omega, ?_⟩
      intro k less inside
      simp only [List.length_append] at inside
      have before := settled.shown k less (by omega)
      simp only [getData] at before ⊢
      rw [before, List.length_append, ← vectorAt_append (by omega) page]
      congr 1
      omega
    · rename_i none
      have empty : page = [] := List.length_eq_zero_iff.mp (by omega)
      subst empty
      refine ⟨rfl, rfl, begin_, ?_⟩
      intro k less inside
      simp only [List.append_nil] at inside ⊢
      have before := settled.shown k less (by omega)
      simp only [getData] at before ⊢
      rw [before, all]

theorem filled_loadMore (filled : Filled user lines s) : Filled user lines (loadMore user lines s) := by
  have loaded := @filled_loader Info user lines s filled
  dsimp only [loadMore]
  split
  · exact filled_of_same loaded rfl rfl rfl rfl rfl id
  · exact loaded

/-- The list before the screen is brought up to date; the window may still begin a page before
the first row. -/
structure Ready (lines : Nat) (s : State Info) : Prop where
  valid : s.valid = true
  all : s.all = s.vector.length
  begin_ : 0 ≤ s.begin_ ∨ s.begin_ + lines ≤ 0
  shown : s.update = .fullUpdate ∨ s.update = .partUpdate ∨ Shown lines s

theorem adjustWindow_cases (lines : Nat) (s : State Info) :
    adjustWindow lines s = s ∧ s.begin_ ≤ s.cur ∧ s.cur < s.begin_ + lines ∨
    ∃ update, (update = .fullUpdate ∨ update = .partUpdate) ∧
      adjustWindow lines s = { s with begin_ := s.cur.tdiv lines * lines, update } := by
  rw [adjustWindow]
  split
  · right
    refine ⟨_, ?_, rfl⟩
    split
    · exact Or.inl rfl
    · exact Or.inr rfl
  · left
    exact ⟨rfl, by omega, by omega⟩

/-- Every window that is chosen begins at a page. -/
theorem window_start (cur : Int) (lines : Nat) :
    0 ≤ cur.tdiv lines * lines ∨ cur.tdiv lines * lines + lines ≤ 0 := by
  by_cases positive : 0 ≤ cur.tdiv lines
  · exact Or.inl (Int.mul_nonneg positive (Int.natCast_nonneg lines))
  · right
    have page : cur.tdiv lines * lines ≤ -1 * lines :=
      Int.mul_le_mul_of_nonneg_right (by omega) (Int.natCast_nonneg lines)
    omega

theorem ready_adjustWindow (ready : Ready lines s) : Ready lines (adjustWindow lines s) := by
  rcases adjustWindow_cases lines s with ⟨same, -⟩ | ⟨update, redraw, result⟩
  · rw [same]
    exact ready
  · rw [result]
    refine ⟨ready.valid, ready.all, window_start _ _, ?_⟩
    rcases redraw with full | part
    · exact Or.inl full
    · exact Or.inr (Or.inl part)

theorem clampCur_nonneg (s : State Info) : 0 ≤ (clampCur s).cur := by
  simp only [clampCur]
  split <;> omega

/-- After the window has been adjusted to a row it does not begin before the first one. -/
theorem begin_nonneg (ready : Ready lines s) (cur : 0 ≤ s.cur) :
    0 ≤ (adjustWindow lines s).begin_ := by
  rcases adjustWindow_cases lines s with ⟨same, low, high⟩ | ⟨update, -, result⟩
  · rw [same]
    rcases ready.begin_ with nonneg | before
    · exact nonneg
    · omega
  · rw [result]
    exact Int.mul_nonneg (Int.tdiv_nonneg cur (Int.natCast_nonneg lines)) (Int.natCast_nonneg lines)

theorem shown_displayLoop (lines : Nat) (s : State Info) : Shown lines (displayLoop lines s) := by
  intro k less inside
  exact if_pos ⟨less, inside⟩

/-- The part of the loop before the second adjustment. -/
theorem ready_loaded (filled : Filled user lines s) (ok : PhaseOk lines s .loop) :
    let adjusted := adjustWindow lines s
    let loaded :=
      if adjusted.valid then adjusted
      else
        let loaded := (loader user lines adjusted).2
        { loaded with
          valid := true
          update := if loaded.update = .fullUpdate then .fullUpdate else .partUpdate }
    Ready lines loaded ∧ Filled user lines loaded := by
  obtain ⟨begin_, unloaded, loaded⟩ := ok
  have fields : (adjustWindow lines s).valid = s.valid ∧
      (adjustWindow lines s).allLoaded = s.allLoaded ∧ Filled user lines (adjustWindow lines s) ∧
      (0 ≤ (adjustWindow lines s).begin_ ∨ (adjustWindow lines s).begin_ + lines ≤ 0) := by
    rcases adjustWindow_cases lines s with ⟨same, -⟩ | ⟨update, -, result⟩
    · rw [same]
      exact ⟨rfl, rfl, filled, Or.inl begin_⟩
    · rw [result]
      exact ⟨rfl, rfl, filled_of_same filled rfl rfl rfl rfl rfl id, window_start _ _⟩
  obtain ⟨valid, allLoaded, adjustedFilled, adjustedBegin⟩ := fields
  intro adjusted
  by_cases isValid : s.valid = true
  · have kept : adjusted.valid = true := valid.trans isValid
    simp only [kept, if_true]
    obtain ⟨all, shown⟩ := loaded isValid
    exact ⟨ready_adjustWindow ⟨isValid, all, Or.inl begin_, shown⟩, adjustedFilled⟩
  · have stale : adjusted.valid = false := valid.trans (Bool.eq_false_iff.mpr isValid)
    have more : adjusted.allLoaded = false :=
      allLoaded.trans (unloaded (Bool.eq_false_iff.mpr isValid))
    have newFilled := @filled_loader Info user lines adjusted adjustedFilled
    obtain ⟨page, cur, done, -, -, result⟩ := @loader_spec Info user lines adjusted more
    simp only [stale, Bool.false_eq_true, if_false]
    rw [result] at newFilled ⊢
    refine ⟨⟨rfl, rfl, adjustedBegin, ?_⟩, filled_of_same newFilled rfl rfl rfl rfl rfl id⟩
    simp only
    split
    · exact Or.inl rfl
    · exact Or.inr (Or.inl rfl)

theorem consistent_loopHead (consistent : Consistent user lines s) (phase : s.phase = .loop) :
    Consistent user lines (loopHead user lines s) := by
  have ok := consistent.phase
  rw [phase] at ok
  obtain ⟨ready, filled⟩ := ready_loaded consistent.filled ok
  rw [loopHead]
  simp only at ready filled ⊢
  generalize (if (adjustWindow lines s).valid = true then adjustWindow lines s else _) = loaded
    at ready filled ⊢
  have clamped : Ready lines (clampCur loaded) :=
    ⟨ready.valid, ready.all, ready.begin_, ready.shown⟩
  have nonneg := begin_nonneg clamped (clampCur_nonneg loaded)
  have final := ready_adjustWindow clamped
  have finalFilled : Filled user lines (adjustWindow lines (clampCur loaded)) := by
    rcases adjustWindow_cases lines (clampCur loaded) with ⟨same, -⟩ | ⟨update, -, result⟩
    · rw [same]
      exact filled_of_same filled rfl rfl rfl rfl rfl id
    · rw [result]
      exact filled_of_same filled rfl rfl rfl rfl rfl id
  generalize adjustWindow lines (clampCur loaded) = window at final finalFilled nonneg ⊢
  split
  · refine ⟨filled_of_same finalFilled rfl rfl rfl rfl rfl id, final.valid, final.all, nonneg, ?_⟩
    exact shown_displayLoop lines window
  · rename_i still
    refine ⟨filled_of_same finalFilled rfl rfl rfl rfl rfl id, final.valid, final.all, nonneg, ?_⟩
    rcases final.shown with full | part | shown
    · exact absurd (Or.inl full) still
    · exact absurd (Or.inr part) still
    · exact shown

/-- A settled list in which only the cursor, the number typed and the update have changed. -/
theorem consistent_moved {t : State Info} (filled : Filled user lines s) (settled : Settled lines s)
    (phase : t.phase = .loop) (vector : t.vector = s.vector)
    (unreadOnly : t.unreadOnly = s.unreadOnly) (fetches : t.fetches = s.fetches)
    (deleted : t.deleted = s.deleted) (all : t.all = s.all) (begin_ : t.begin_ = s.begin_)
    (valid : t.valid = s.valid) (screen : t.screen = s.screen)
    (allLoaded : t.allLoaded = s.allLoaded) : Consistent user lines t := by
  refine ⟨filled_of_same filled vector unreadOnly fetches deleted allLoaded
    (fun isValid => valid.symm.trans isValid), ?_⟩
  rw [phase]
  refine ⟨begin_ ▸ settled.begin_, ?_, ?_⟩
  · intro stale
    rw [valid, settled.valid] at stale
    cases stale
  · intro _
    refine ⟨by rw [all, vector, settled.all], Or.inr (Or.inr ?_)⟩
    intro k less inside
    rw [begin_, all] at inside
    have shown := settled.shown k less inside
    rw [screen, begin_, shown, getData, getData, vector, all]

theorem filled_finalizer (filled : Filled user lines s) : Filled user lines (finalizer user s) := by
  rw [finalizer]
  split
  · exact filled_of_same filled rfl rfl rfl rfl rfl id
  · exact filled

theorem consistent_tuiKey (filled : Filled user lines s) (settled : Settled lines s) (key : Key) :
    Consistent user lines (tuiKey user lines s key) := by
  cases key
  case quit => exact ⟨filled_of_same (filled_finalizer filled) rfl rfl rfl rfl rfl id, trivial⟩
  case newline =>
    rw [tuiKey]
    split <;> exact consistent_moved filled settled rfl rfl rfl rfl rfl rfl rfl rfl rfl rfl
  case carriageReturn =>
    rw [tuiKey]
    split <;> exact consistent_moved filled settled rfl rfl rfl rfl rfl rfl rfl rfl rfl rfl
  all_goals exact consistent_moved filled settled rfl rfl rfl rfl rfl rfl rfl rfl rfl rfl

theorem consistent_handleKey (consistent : Consistent user lines s) (phase : s.phase = .waiting)
    (key : Key) : Consistent user lines (handleKey user lines s key) := by
  have settled : Settled lines s := by
    have ok := consistent.phase
    rw [phase] at ok
    exact ok
  have filled := consistent.filled
  cases key
  case delete =>
    rw [handleKey]
    split
    · rename_i row found
      refine ⟨filled_of_same filled rfl rfl rfl rfl rfl id, ?_, found⟩
      exact ⟨settled.valid, settled.all, settled.begin_, settled.shown⟩
    · exact consistent_moved filled settled rfl rfl rfl rfl rfl rfl rfl rfl rfl rfl
  case newline =>
    rw [handleKey]
    split
    · exact ⟨filled_of_same filled rfl rfl rfl rfl rfl id, settled.valid, settled.all, settled.begin_⟩
    · exact consistent_tuiKey filled settled .newline
  case right =>
    rw [handleKey]
    split
    · exact ⟨filled_of_same filled rfl rfl rfl rfl rfl id, settled.valid, settled.all, settled.begin_⟩
    · exact consistent_tuiKey filled settled .right
  case switch =>
    refine ⟨⟨nofun, nofun, nofun, List.Pairwise.nil, nofun, nofun, nofun, nofun⟩, ?_, fun _ => rfl, nofun⟩
    dsimp only [handleKey]
    split
    · rw [finalizer]
      split <;> exact settled.begin_
    · exact settled.begin_
  case up =>
    rw [handleKey]
    split
    · exact consistent_tuiKey (filled_loadMore filled) (settled_loadMore settled) .up
    · exact consistent_tuiKey filled settled .up
  case pageUp =>
    rw [handleKey]
    split
    · exact consistent_tuiKey (filled_loadMore filled) (settled_loadMore settled) .pageUp
    · exact consistent_tuiKey filled settled .pageUp
  case down => exact consistent_moved filled settled rfl rfl rfl rfl rfl rfl rfl rfl rfl rfl
  case pageDown => exact consistent_moved filled settled rfl rfl rfl rfl rfl rfl rfl rfl rfl rfl
  case end_ => exact consistent_tuiKey filled settled .end_
  case home => exact consistent_tuiKey filled settled .home
  case carriageReturn => exact consistent_tuiKey filled settled .carriageReturn
  case digit value => exact consistent_tuiKey filled settled (.digit value)
  case quit => exact consistent_tuiKey filled settled .quit
  case other => exact consistent_tuiKey filled settled .other

theorem mem_eraseIdx_or {vector : List (Row Info)} {row : Row Info} (member : row ∈ vector)
    (index : Nat) : row ∈ vector.eraseIdx index ∨ vector[index]? = some row := by
  obtain ⟨i, inside, rfl⟩ := List.getElem_of_mem member
  by_cases same : i = index
  · right
    rw [← same]
    exact List.getElem?_eq_getElem inside
  · left
    exact List.mem_eraseIdx_iff_getElem.mpr ⟨i, inside, same, rfl⟩

theorem consistent_confirm (consistent : Consistent user lines s) {row : Row Info}
    (phase : s.phase = .confirming row) (yes : Bool) :
    Consistent user lines (confirm user s row yes) := by
  have ok := consistent.phase
  rw [phase] at ok
  obtain ⟨settled, found⟩ := ok
  have filled := consistent.filled
  rw [confirm]
  split
  · rw [getData, vectorAt] at found
    split at found
    · rename_i nonneg
      have erased : vectorErase s.vector (s.all - s.cur - 1) =
          s.vector.eraseIdx (s.all - s.cur - 1).toNat := if_pos nonneg
      obtain ⟨inside, isRow⟩ := List.getElem?_eq_some_iff.mp found
      simp only [erased]
      refine ⟨⟨filled.opened, filled.pages, filled.exhausted, ?_, filled.filter, ?_,
        filled.covered, ?_⟩, ?_⟩
      · exact filled.descending.sublist (List.eraseIdx_sublist ..)
      · intro fetch member other isWanted less reached
        rcases filled.complete fetch member other isWanted less reached with gone | kept
        · exact Or.inl (List.mem_cons_of_mem _ gone)
        · rcases mem_eraseIdx_or kept (s.all - s.cur - 1).toNat with still | here
          · exact Or.inr still
          · rw [found, Option.some.injEq] at here
            left
            rw [here]
            exact List.mem_cons_self
      · exact fun other member => filled.fetched other (List.mem_of_mem_eraseIdx member)
      · refine ⟨settled.begin_, ?_, fun _ => ⟨?_, Or.inr (Or.inl rfl)⟩⟩
        · intro stale
          rw [settled.valid] at stale
          cases stale
        · have all := settled.all
          simp only [List.length_eraseIdx_of_lt inside]
          omega
    · cases found
  · exact consistent_moved filled settled rfl rfl rfl rfl rfl rfl rfl rfl rfl rfl

theorem consistent_stopReading (filled : Filled user lines s) (valid : s.valid = true)
    (all : s.all = s.vector.length) (begin_ : 0 ≤ s.begin_) :
    Consistent user lines (stopReading s) := by
  refine ⟨filled_of_same filled rfl rfl rfl rfl rfl id, begin_, ?_, fun _ => ⟨all, Or.inl rfl⟩⟩
  intro stale
  exact absurd (valid.symm.trans stale) (by decide)

theorem consistent_readNext (filled : Filled user lines s) (valid : s.valid = true)
    (all : s.all = s.vector.length) (begin_ : 0 ≤ s.begin_) :
    Consistent user lines (readNext s) := by
  rw [readNext]
  split
  · exact consistent_stopReading (filled_of_same filled rfl rfl rfl rfl rfl id) valid all begin_
  · exact ⟨filled_of_same filled rfl rfl rfl rfl rfl id, valid, all, begin_⟩

theorem consistent_readPrevious (filled : Filled user lines s) (valid : s.valid = true)
    (all : s.all = s.vector.length) (begin_ : 0 ≤ s.begin_) :
    Consistent user lines (readPrevious user lines s) := by
  dsimp only [readPrevious]
  split
  · have moved : Filled user lines { s with cur := s.cur - 1 } :=
      filled_of_same filled rfl rfl rfl rfl rfl id
    have newFilled := @filled_loader Info user lines _ moved
    by_cases loaded : s.allLoaded = true
    · rw [loader, if_pos loaded]
      exact consistent_stopReading moved valid all begin_
    · obtain ⟨page, cur, done, -, -, result⟩ := @loader_spec Info user lines
        { s with cur := s.cur - 1 } (Bool.eq_false_iff.mpr loaded)
      rw [result] at newFilled ⊢
      dsimp only
      split
      · exact ⟨filled_of_same newFilled rfl rfl rfl rfl rfl id, rfl, rfl, begin_⟩
      · exact consistent_stopReading newFilled rfl rfl begin_
  · exact ⟨filled_of_same filled rfl rfl rfl rfl rfl id, valid, all, begin_⟩

theorem consistent_step (consistent : Consistent user lines s) {action : Action Info}
    {next : State Info} (stepped : step user lines s action = some next) :
    Consistent user lines next := by
  cases action with
  | change table =>
    cases stepped
    refine ⟨filled_of_same consistent.filled rfl rfl rfl rfl rfl id, ?_⟩
    have ok := consistent.phase
    change PhaseOk lines _ s.phase
    cases place : s.phase with
    | loop =>
      rw [place] at ok
      exact ok
    | waiting =>
      rw [place] at ok
      exact ⟨ok.valid, ok.all, ok.begin_, ok.shown⟩
    | confirming row =>
      rw [place] at ok
      exact ⟨⟨ok.1.valid, ok.1.all, ok.1.begin_, ok.1.shown⟩, ok.2⟩
    | reading row =>
      rw [place] at ok
      exact ok
    | finished => trivial
  | head =>
    rw [step] at stepped
    split at stepped
    · cases stepped
      exact consistent_loopHead consistent ‹_›
    · cases stepped
  | key key =>
    rw [step] at stepped
    split at stepped
    · cases stepped
      exact consistent_handleKey consistent ‹_› key
    · cases stepped
  | confirm yes =>
    rw [step] at stepped
    split at stepped
    · cases stepped
      exact consistent_confirm consistent ‹_› yes
    · cases stepped
  | stop =>
    rw [step] at stepped
    split at stepped
    · rename_i reading
      have ok := consistent.phase
      rw [reading] at ok
      cases stepped
      exact consistent_stopReading consistent.filled ok.1 ok.2.1 ok.2.2
    · cases stepped
  | next =>
    rw [step] at stepped
    split at stepped
    · rename_i reading
      have ok := consistent.phase
      rw [reading] at ok
      cases stepped
      exact consistent_readNext consistent.filled ok.1 ok.2.1 ok.2.2
    · cases stepped
  | previous =>
    rw [step] at stepped
    split at stepped
    · rename_i reading
      have ok := consistent.phase
      rw [reading] at ok
      cases stepped
      exact consistent_readPrevious consistent.filled ok.1 ok.2.1 ok.2.2
    · cases stepped

end Steps

/-! ## Runs -/

/-- A key fetches the next page of the table as it is. -/
def Fetches (user lines : Nat) (s : State Info) (key : Key) : Prop :=
  ∃ next, step user lines s (.key key) = some next ∧
    next.fetches = ⟨s.table.rows, s.unreadOnly, nextId s.vector,
      page Row.id (wanted user s.unreadOnly s.table.rows) (nextId s.vector) lines⟩ :: s.fetches

/-- What the list promises.  A fetch stands for its page, which has the newest wanted rows below
its bound, and the table at that time: the rows that were wanted then, down to the last row of
the page, are in the vector exactly once unless they have been deleted, and from the last fetched
id on every id belongs to a fetch.  When a key is read a page has been fetched, and the keys that
go beyond the first row fetch the next one until nothing is left. -/
structure Listed (user lines : Nat) (s : State Info) : Prop where
  opened : s.phase = .waiting → s.fetches ≠ []
  pages : ∀ fetch ∈ s.fetches,
    fetch.page = page Row.id (wanted user fetch.unreadOnly fetch.rows) fetch.bound lines
  exhausted : s.allLoaded = true → ∃ fetch ∈ s.fetches,
    ∀ row ∈ wanted user fetch.unreadOnly fetch.rows, row.id < fetch.bound → row ∈ fetch.page
  more : s.phase = .waiting → s.allLoaded = false →
    (s.cur = 0 → Fetches user lines s .up) ∧
      (s.cur < lines - 1 → Fetches user lines s .pageUp)
  descending : Descending Row.id s.vector
  complete : ∀ fetch ∈ s.fetches, fetch.unreadOnly = s.unreadOnly ∧
    ∀ row ∈ wanted user fetch.unreadOnly fetch.rows,
      row.id < fetch.bound → (∃ last ∈ fetch.page, last.id ≤ row.id) →
        row.id ∈ s.deleted ∨ row ∈ s.vector ∧ (s.vector.map Row.id).count row.id = 1
  covered : ∀ fetch ∈ s.fetches, ∀ last ∈ fetch.page, ∀ id, last.id ≤ id → id < int64Max →
    ∃ other ∈ s.fetches, id < other.bound ∧ ∃ first ∈ other.page, first.id ≤ id
  all : s.phase = .waiting → s.all = s.vector.length
  data : s.phase = .waiting → ∀ n, 0 ≤ n → n < s.all →
    ∃ row, getData s n = some row ∧ s.vector.reverse[n.toNat]? = some row ∧
      (s.begin_ ≤ n → n < s.begin_ + lines → s.screen (n - s.begin_).toNat = some row)

theorem consistent_start (user lines : Nat) (table : Table Info) (unreadOnly : Bool) :
    Consistent user lines (start table unreadOnly) :=
  ⟨⟨nofun, nofun, nofun, List.Pairwise.nil, nofun, nofun, nofun, nofun⟩, Int.le_refl 0, fun _ => rfl, nofun⟩

/-- The rows are shown in reverse order. -/
theorem getData_reverse {s : State Info} (all : s.all = s.vector.length) {n : Int}
    (nonneg : 0 ≤ n) (less : n < s.all) :
    ∃ row, getData s n = some row ∧ s.vector.reverse[n.toNat]? = some row := by
  have inside : n.toNat < s.vector.length := by omega
  have position : (s.all - n - 1).toNat = s.vector.length - 1 - n.toNat := by omega
  have found : (s.vector.length - 1 - n.toNat) < s.vector.length := by omega
  refine ⟨s.vector[s.vector.length - 1 - n.toNat], ?_, ?_⟩
  · rw [getData, vectorAt, if_pos (by omega), position, List.getElem?_eq_getElem found]
  · rw [List.getElem?_reverse inside, List.getElem?_eq_getElem found]

theorem loadMore_fetches {user lines : Nat} {s : State Info} (more : s.allLoaded = false) :
    (loadMore user lines s).fetches = ⟨s.table.rows, s.unreadOnly, nextId s.vector,
      page Row.id (wanted user s.unreadOnly s.table.rows) (nextId s.vector) lines⟩ ::
        s.fetches := by
  obtain ⟨page, cur, allLoaded, isPage, -, result⟩ := @loader_spec Info user lines s more
  rw [loadMore, result, isPage]
  dsimp only
  split <;> rfl

theorem fetches_up {user lines : Nat} {s : State Info} (waiting : s.phase = .waiting)
    (more : s.allLoaded = false) :
    (s.cur = 0 → Fetches user lines s .up) ∧
      (s.cur < lines - 1 → Fetches user lines s .pageUp) := by
  constructor
  · intro first
    refine ⟨_, by rw [step, waiting], ?_⟩
    rw [handleKey, if_pos first]
    exact loadMore_fetches more
  · intro first
    refine ⟨_, by rw [step, waiting], ?_⟩
    rw [handleKey, if_pos first]
    exact loadMore_fetches more

theorem listed_of_consistent {user lines : Nat} {s : State Info}
    (consistent : Consistent user lines s) : Listed user lines s where
  opened := by
    intro waiting
    have ok := consistent.phase
    rw [waiting] at ok
    exact consistent.filled.opened ok.valid
  pages := consistent.filled.pages
  exhausted := consistent.filled.exhausted
  more := fetches_up
  descending := consistent.filled.descending
  complete := by
    intro fetch member
    refine ⟨consistent.filled.filter fetch member, ?_⟩
    intro row isWanted less reached
    rcases consistent.filled.complete fetch member row isWanted less reached with gone | inside
    · exact Or.inl gone
    · exact Or.inr ⟨inside, count_key consistent.filled.descending inside⟩
  covered := consistent.filled.covered
  all := by
    intro waiting
    have ok := consistent.phase
    rw [waiting] at ok
    exact ok.all
  data := by
    intro waiting n nonneg less
    have ok := consistent.phase
    rw [waiting] at ok
    obtain ⟨row, found, shown⟩ := getData_reverse ok.all nonneg less
    refine ⟨row, found, shown, fun low high => ?_⟩
    have line := ok.shown (n - s.begin_).toNat (by omega) (by omega)
    rw [line, ← found]
    congr 1
    omega

/-- Whatever keys are pressed, and however the table changes meanwhile, the list neither loses
nor repeats a row. -/
theorem listed_of_run (user lines : Nat) (table : Table Info) (unreadOnly : Bool)
    {actions : List (Action Info)} {s : State Info}
    (runs : TransitionRuns.run (step user lines) actions (start table unreadOnly) = some s) :
    Listed user lines s := by
  have guarded : TransitionRuns.Guarded (step user lines) (fun _ _ => True) actions
      (start table unreadOnly) :=
    @TransitionRuns.guarded_of_forall _ _ _ (fun _ => True) _ (fun _ _ => trivial) _
  apply listed_of_consistent
  refine TransitionRuns.invariant_of_guarded (Consistent user lines) ?_
    (consistent_start user lines table unreadOnly) guarded runs
  exact fun _ _ _ consistent _ stepped => consistent_step consistent stepped

end List

/-- Two replies to a user. -/
def twoRows : Table Unit where
  rows := [⟨5, 1, false, ()⟩, ⟨7, 1, true, ()⟩]
  unique := by
    intro user
    by_cases first : 1 = user <;> simp [first]
  small := by simp [int64Max]

/-- The list is opened on a screen with one line for rows, and goes up. -/
def openAndUp : List (Action Unit) :=
  [.head, .key .up, .head]

/-- The newer reply is fetched when the list is opened, and the other one by the key. -/
theorem listed_twoRows :
    ∃ s, TransitionRuns.run (step 1 1) openAndUp (start twoRows false) = some s ∧
      Listed 1 1 s ∧ s.vector.map Row.id = [7, 5] := by
  have observed : (TransitionRuns.run (step 1 1) openAndUp (start twoRows false)).map
      (fun s => s.vector.map Row.id) = some [7, 5] := by
    decide
  obtain ⟨s, runs, vector⟩ := Option.map_eq_some_iff.mp observed
  exact ⟨s, runs, listed_of_run 1 1 twoRows false runs, vector⟩

end RecentList

end Fbbs
