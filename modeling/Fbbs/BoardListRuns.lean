import Fbbs.BoardLists
import Fbbs.TransitionRuns

/-!
# Coherence of the board list

When a list waits for a key, its table points to the boards of the current view and counts
them, unless one of three things went before: a reload that found no board left an old count
in place; the list of a custom folder changed the number of boards of the root folder under
the outer list; or boards were subscribed or unsubscribed in a directory under a list that
hides unsubscribed boards.
-/

namespace Fbbs

namespace BoardLists

open FilteredIndex

/-- The board was selected for the list when it was loaded, and the user may read it. -/
def BoardList.belongs (bl : BoardList) (e : BoardExtra) : Bool :=
  if bl.favorite then
    if e.custom then
      e.folder == favBoardRootFolder && bl.source.folders.any fun row => row.1 == e.board.id
    else
      bl.source.hasReadPerm e.board && bl.source.favBoards.contains (e.board.id, e.folder) &&
        bl.source.boards.any fun row => row.board == e.board
  else
    !e.custom && bl.source.hasReadPerm e.board &&
      bl.source.boards.any fun row => row.board == e.board && bl.selects row

/-- The board is in the folder that is shown, or is not hidden. -/
def BoardList.shown (bl : BoardList) (zapbuf : Nat → Int) (e : BoardExtra) : Bool :=
  if bl.favorite then e.folder == bl.folder else !bl.yank || zapbuf e.board.id != 0

def BoardList.inView (bl : BoardList) (zapbuf : Nat → Int) (e : BoardExtra) : Bool :=
  bl.belongs e && bl.shown zapbuf e

/-- Every index below `tl->all` leads to a board of the view, and `tl->all` counts them. -/
structure Coherent (zapbuf : Nat → Int) (frame : Frame) : Prop where
  points : ∀ n < frame.all, ∃ e ∈ frame.bl.boards,
    frame.bl.board? n = some e ∧ frame.bl.inView zapbuf e = true
  counts : frame.all = frame.bl.boards.countP (frame.bl.inView zapbuf)

/-- The condition under which a list stays coherent. -/
def Undisturbed (state : State) : Action → Prop
  | .turn _ =>
    match state.stack with
    | [] => True
    | frame :: _ => frame.valid = false →
        (frame.bl.load state.db state.zapbuf frame.valid).boards = [] → frame.bl.count = 0
  | .press (.quit _) =>
    match state.stack with
    | frame :: below :: _ =>
      if frame.custom then
        below.all = frame.bl.boards.countP fun e => e.folder == favBoardRootFolder
      else below.bl.favorite = false → below.bl.yank = true → ∀ e ∈ below.bl.boards,
        (state.zapbuf e.board.id = 0 ↔ frame.entry e.board.id = 0)
    | _ => True
  | _ => True

instance (state : State) : (action : Action) → Decidable (Undisturbed state action)
  | .change _ => isTrue trivial
  | .enter .. => isTrue trivial
  | .turn _ =>
    match stack : state.stack with
    | [] => isTrue (by simp [Undisturbed, stack])
    | frame :: _ => decidable_of_iff
        (frame.valid = false →
          (frame.bl.load state.db state.zapbuf frame.valid).boards = [] → frame.bl.count = 0)
        (by simp only [Undisturbed, stack])
  | .press (.quit _) =>
    match stack : state.stack with
    | [] => isTrue (by simp [Undisturbed, stack])
    | [_] => isTrue (by simp [Undisturbed, stack])
    | frame :: below :: _ => decidable_of_iff
        (if frame.custom then
          below.all = frame.bl.boards.countP fun e => e.folder == favBoardRootFolder
        else below.bl.favorite = false → below.bl.yank = true → ∀ e ∈ below.bl.boards,
          (state.zapbuf e.board.id = 0 ↔ frame.entry e.board.id = 0))
        (by simp only [Undisturbed, stack])
  | .press (.move _) => isTrue trivial
  | .press .toggleNew => isTrue trivial
  | .press (.add _) => isTrue trivial
  | .press (.mkdir ..) => isTrue trivial
  | .press .rm => isTrue trivial
  | .press .copy => isTrue trivial
  | .press .paste => isTrue trivial
  | .press .sort => isTrue trivial
  | .press .yank => isTrue trivial
  | .press (.zap ..) => isTrue trivial
  | .press (.read ..) => isTrue trivial

structure Frame.Ok (zapbuf : Nat → Int) (frame : Frame) : Prop where
  belongs : ∀ e ∈ frame.bl.boards, frame.bl.belongs e = true
  allocated : frame.bl.indices.length = frame.bl.boards.length
  indexed : frame.valid = true →
    Indexes (frame.bl.shown zapbuf) frame.bl.boards frame.bl.indices frame.all
  loaded : frame.waiting = true → frame.valid = true

/-- Each list is in order for the subscribing record at the time when the list above it was
opened. -/
def Linked : (Nat → Int) → List Frame → Prop
  | _, [] => True
  | zapbuf, frame :: rest =>
    frame.Ok zapbuf ∧ (frame.custom = true → frame.bl.favorite = true) ∧
      Linked frame.entry rest

theorem coherent_of_ok {zapbuf : Nat → Int} {frame : Frame} (ok : frame.Ok zapbuf)
    (valid : frame.valid = true) : Coherent zapbuf frame := by
  have indexed := ok.indexed valid
  refine ⟨?_, ?_⟩
  · intro n inside
    obtain ⟨position, e, pointer, found, shown⟩ := indexed.getElem? inside
    have member := List.mem_of_getElem? found
    refine ⟨e, member, ?_, ?_⟩
    · rw [BoardList.board?, pointer, Option.bind_some, BoardList.deref, Option.bind_some, found]
    · rw [BoardList.inView, ok.belongs e member, shown, Bool.and_self]
  · rw [indexed.count_eq]
    apply List.countP_congr
    intro e member
    rw [BoardList.inView, ok.belongs e member, Bool.true_and]

section Lists

variable {bl : BoardList} {keep : BoardExtra → Bool}

theorem length_qsort {count : Nat} : (bl.qsort count).indices.length = bl.indices.length := by
  rw [BoardList.qsort, List.length_append, (List.perm_insertionSort _ _).length_eq,
    ← List.length_append, List.take_append_drop]

theorem indexes_index :
    Indexes keep (bl.index keep).boards (bl.index keep).indices (bl.index keep).count :=
  (indexes_write _).permute (List.perm_insertionSort _ _)

/-- Indexing writes nothing beyond the table. -/
theorem length_index (allocated : bl.indices.length = bl.boards.length) :
    (bl.index keep).indices.length = bl.boards.length := by
  have fits : (positions keep bl.boards).length ≤ bl.boards.length := by
    rw [length_positions]
    exact List.countP_le_length
  rw [BoardList.index, length_qsort, List.length_append, List.length_map, List.length_drop,
    allocated]
  exact Nat.add_sub_of_le fits

theorem folder_ne_zero : bl.folder ≠ 0 := by
  unfold BoardList.folder favBoardRootFolder
  split <;> simp_all

theorem folder_indexFavoriteBoards : bl.indexFavoriteBoards.folder = bl.folder :=
  if_neg folder_ne_zero

/-- Sorting, indexing and the flags of a list do not decide which boards belong to it. -/
theorem belongs_congr {other : BoardList} (favorite : other.favorite = bl.favorite)
    (source : other.source = bl.source)
    (query : bl.favorite = false → other.sector = bl.sector ∧ other.parent = bl.parent) :
    other.belongs = bl.belongs := by
  funext e
  unfold BoardList.belongs BoardList.selects
  rw [favorite, source]
  cases isFavorite : bl.favorite with
  | true => rfl
  | false =>
    obtain ⟨sector, parent⟩ := query isFavorite
    rw [sector, parent]

theorem belongs_indexFavoriteBoards (favorite : bl.favorite = true) :
    bl.indexFavoriteBoards.belongs = bl.belongs :=
  belongs_congr rfl rfl fun ordinary => by rw [favorite] at ordinary; cases ordinary

theorem belongs_inFolder (favorite : bl.favorite = true) (skipReload : Bool) (parent : Nat) :
    (bl.inFolder skipReload parent).belongs = bl.belongs :=
  belongs_congr rfl rfl fun ordinary => by rw [favorite] at ordinary; cases ordinary

theorem favorite_of_custom {e : BoardExtra} (belongs : bl.belongs e = true)
    (custom : e.custom = true) : bl.favorite = true := by
  by_contra ordinary
  rw [BoardList.belongs, if_neg ordinary, custom] at belongs
  cases belongs

theorem indexes_indexFavoriteBoards (favorite : bl.favorite = true) (zapbuf : Nat → Int) :
    Indexes (bl.indexFavoriteBoards.shown zapbuf) bl.indexFavoriteBoards.boards
      bl.indexFavoriteBoards.indices bl.indexFavoriteBoards.count := by
  apply Indexes.congr indexes_index
  intro e _
  have isFavorite : bl.indexFavoriteBoards.favorite = true := favorite
  rw [BoardList.shown, if_pos isFavorite, folder_indexFavoriteBoards]

theorem indexes_indexBoards (ordinary : bl.favorite = false) (zapbuf : Nat → Int) :
    Indexes ((bl.indexBoards zapbuf).shown zapbuf) (bl.indexBoards zapbuf).boards
      (bl.indexBoards zapbuf).indices (bl.indexBoards zapbuf).count := by
  apply Indexes.congr indexes_index
  intro e _
  have isOrdinary : ¬(bl.indexBoards zapbuf).favorite = true := by
    rw [Bool.not_eq_true]
    exact ordinary
  exact (if_neg isOrdinary).symm

end Lists

section Loading

variable {bl : BoardList} {db : Db} {zapbuf : Nat → Int}

theorem mem_boardRows {favorite : Bool} {rows : List (BoardRow × Nat)} {e : BoardExtra}
    (member : e ∈ BoardList.boardRows db favorite rows) :
    ∃ row ∈ rows, db.hasReadPerm e.board = true ∧ e.board = row.1.board ∧ e.custom = false ∧
      e.folder = if favorite then row.2 else 0 := by
  obtain ⟨row, passes, rfl⟩ := List.mem_map.mp member
  obtain ⟨isRow, readable⟩ := List.mem_filter.mp passes
  exact ⟨row, isRow, readable, rfl, rfl, rfl⟩

theorem belongs_loadFavoriteBoards (favorite : bl.favorite = true) :
    ∀ e ∈ (bl.loadFavoriteBoards db).boards, (bl.loadFavoriteBoards db).belongs e = true := by
  intro e member
  have isFavorite : (bl.loadFavoriteBoards db).favorite = true := favorite
  rw [BoardList.belongs, if_pos isFavorite]
  rcases List.mem_append.mp member with board | folder
  · obtain ⟨⟨row, folder⟩, isRow, readable, same, notCustom, place⟩ := mem_boardRows board
    rw [if_pos favorite] at place
    obtain ⟨entry, listed, joined⟩ := List.mem_flatMap.mp isRow
    obtain ⟨found, isBoard, pairEq⟩ := List.mem_map.mp joined
    obtain ⟨inTable, sameId⟩ := List.mem_filter.mp isBoard
    obtain ⟨rfl, rfl⟩ := Prod.mk.inj pairEq
    have entryEq : (e.board.id, e.folder) = entry := by
      rw [same, place]
      exact Prod.ext (beq_iff_eq.mp sameId) rfl
    have hasRow : (db.boards.any fun row => row.board == e.board) = true :=
      List.any_eq_true.mpr ⟨found, inTable, beq_iff_eq.mpr same.symm⟩
    have hasEntry : db.favBoards.contains (e.board.id, e.folder) = true := by
      rw [entryEq]
      exact List.contains_iff_mem.mpr listed
    rw [if_neg (by rw [notCustom]; exact Bool.false_ne_true)]
    change (db.hasReadPerm e.board && db.favBoards.contains (e.board.id, e.folder) &&
      db.boards.any fun row => row.board == e.board) = true
    rw [readable, hasEntry, hasRow]
    rfl
  · obtain ⟨row, isRow, rfl⟩ := List.mem_map.mp folder
    have hasRow : (db.folders.any fun other => other.1 == row.1) = true :=
      List.any_eq_true.mpr ⟨row, isRow, beq_self_eq_true row.1⟩
    exact hasRow

theorem belongs_loadBoards (ordinary : bl.favorite = false) :
    ∀ e ∈ (bl.loadBoards db).boards, (bl.loadBoards db).belongs e = true := by
  intro e member
  obtain ⟨⟨row, folder⟩, isRow, readable, same, notCustom, -⟩ := mem_boardRows member
  obtain ⟨found, selected, pairEq⟩ := List.mem_map.mp isRow
  obtain ⟨rfl, -⟩ := Prod.mk.inj pairEq
  obtain ⟨inTable, query⟩ := List.mem_filter.mp selected
  have hasRow : (db.boards.any fun row => row.board == e.board && bl.selects row) = true := by
    refine List.any_eq_true.mpr ⟨found, inTable, ?_⟩
    rw [same, beq_self_eq_true, query, Bool.and_self]
  have isOrdinary : ¬(bl.loadBoards db).favorite = true := by
    rw [Bool.not_eq_true]
    exact ordinary
  rw [BoardList.belongs, if_neg isOrdinary, notCustom]
  change (true && db.hasReadPerm e.board &&
    db.boards.any fun row => row.board == e.board && bl.selects row) = true
  rw [readable, hasRow]
  rfl

theorem belongs_loadOnlineData (belongs : ∀ e ∈ bl.boards, bl.belongs e = true) :
    ∀ e ∈ (bl.loadOnlineData db).boards, (bl.loadOnlineData db).belongs e = true := by
  intro e member
  obtain ⟨before, isBoard, rfl⟩ := List.mem_map.mp member
  exact belongs before isBoard

/-- The arrays of a list after its loader, apart from the count of a reload that finds no
board. -/
structure Loaded (zapbuf : Nat → Int) (bl loaded : BoardList) : Prop where
  favorite : loaded.favorite = bl.favorite
  belongs : ∀ e ∈ loaded.boards, loaded.belongs e = true
  allocated : loaded.indices.length = loaded.boards.length
  indexed : (loaded.boards = [] → bl.count = 0) →
    Indexes (loaded.shown zapbuf) loaded.boards loaded.indices loaded.count

theorem indexes_nil (keep : BoardExtra → Bool) : Indexes keep [] [] 0 :=
  indexes_write []

/-- The last part of the loader: a table of the size of the array is allocated and
written. -/
theorem loaded_of_fetched {fetched : BoardList} (favorite : fetched.favorite = bl.favorite)
    (belongs : ∀ e ∈ fetched.boards, fetched.belongs e = true) (freed : fetched.indices = [])
    (count : fetched.count = bl.count) :
    Loaded zapbuf bl
      (if fetched.boards.isEmpty then fetched
      else if bl.favorite then fetched.allocate.indexFavoriteBoards
      else fetched.allocate.indexBoards zapbuf) := by
  by_cases empty : fetched.boards.isEmpty = true
  · rw [if_pos empty]
    have none : fetched.boards = [] := List.isEmpty_iff.mp empty
    refine ⟨favorite, belongs, by rw [freed, none]; rfl, ?_⟩
    intro counted
    rw [count, counted none, freed, none]
    exact indexes_nil _
  · rw [if_neg empty]
    cases isFavorite : bl.favorite with
    | true =>
      have fetchedFavorite : fetched.allocate.favorite = true := favorite.trans isFavorite
      refine ⟨favorite, ?_, length_index List.length_replicate,
        fun _ => indexes_indexFavoriteBoards fetchedFavorite zapbuf⟩
      intro e member
      rw [if_pos rfl, belongs_indexFavoriteBoards fetchedFavorite]
      exact belongs e member
    | false =>
      have fetchedOrdinary : fetched.allocate.favorite = false := favorite.trans isFavorite
      exact ⟨favorite, belongs, length_index List.length_replicate,
        fun _ => indexes_indexBoards fetchedOrdinary zapbuf⟩

theorem loaded_load : Loaded zapbuf bl (bl.load db zapbuf false) := by
  unfold BoardList.load
  simp only [Bool.and_false, Bool.false_eq_true, if_false]
  cases isFavorite : bl.favorite with
  | true =>
    have loaded := @loaded_of_fetched bl zapbuf
      (({ bl with indices := [], boards := [] }.loadFavoriteBoards db).loadOnlineData db) rfl
      (belongs_loadOnlineData (belongs_loadFavoriteBoards isFavorite)) rfl rfl
    rw [isFavorite] at loaded
    exact loaded
  | false =>
    have loaded := @loaded_of_fetched bl zapbuf
      (({ bl with indices := [], boards := [] }.loadBoards db).loadOnlineData db)
      rfl (belongs_loadOnlineData (belongs_loadBoards isFavorite)) rfl rfl
    rw [isFavorite] at loaded
    exact loaded

end Loading

section Steps

variable {state next : State} {frame below : Frame} {rest : List Frame} {zapbuf : Nat → Int}

/-- A list does not notice changes of the subscribing record that it does not show. -/
theorem ok_congr {other : Nat → Int} (ok : frame.Ok zapbuf)
    (same : frame.bl.favorite = false → frame.bl.yank = true → ∀ e ∈ frame.bl.boards,
      (other e.board.id = 0 ↔ zapbuf e.board.id = 0)) : frame.Ok other := by
  refine ⟨ok.belongs, ok.allocated, fun valid => (ok.indexed valid).congr ?_, ok.loaded⟩
  intro e member
  unfold BoardList.shown
  cases isFavorite : frame.bl.favorite with
  | true => rfl
  | false =>
    cases hides : frame.bl.yank with
    | false => rfl
    | true =>
      have iff := same isFavorite hides e member
      rw [Bool.eq_iff_iff]
      simp [iff]

/-- A key that leaves the arrays and the count of a list as they are. -/
theorem linked_handled (ok : frame.Ok state.zapbuf)
    (custom : frame.custom = true → frame.bl.favorite = true)
    (under : Linked frame.entry rest) :
    Linked (state.handled frame rest).zapbuf (state.handled frame rest).stack :=
  ⟨⟨ok.belongs, ok.allocated, ok.indexed, nofun⟩, custom, under⟩

theorem linked_changed (ok : frame.Ok state.zapbuf)
    (custom : frame.custom = true → frame.bl.favorite = true)
    (under : Linked frame.entry rest) (db : Option Db) :
    Linked (state.changed frame rest db).zapbuf (state.changed frame rest db).stack := by
  cases db with
  | none => exact linked_handled ok custom under
  | some db => exact ⟨⟨ok.belongs, ok.allocated, nofun, nofun⟩, custom, under⟩

theorem linked_turn {unread : Nat → Bool} {turned : Frame} (ok : frame.Ok zapbuf) {db : Db}
    (counted : frame.valid = false →
      (frame.bl.load db zapbuf frame.valid).boards = [] → frame.bl.count = 0)
    (turns : frame.turn db zapbuf unread = some turned) :
    turned.Ok zapbuf ∧ turned.bl.favorite = frame.bl.favorite ∧ turned.custom = frame.custom ∧
      turned.entry = frame.entry := by
  unfold Frame.turn at turns
  cases isValid : frame.valid with
  | true =>
    rw [isValid] at turns
    cases turns
    exact ⟨⟨ok.belongs, ok.allocated, fun _ => ok.indexed isValid, fun _ => rfl⟩, rfl, rfl,
      rfl⟩
  | false =>
    rw [isValid] at turns counted
    have loaded : Loaded zapbuf frame.bl (frame.bl.load db zapbuf false) := loaded_load
    simp only [Bool.false_eq_true, if_false, Option.bind_eq_bind] at turns
    obtain ⟨cur, -, moved⟩ := Option.bind_eq_some_iff.mp turns
    rw [Option.bind_some, Option.some.injEq] at moved
    subst moved
    exact ⟨⟨loaded.belongs, loaded.allocated, fun _ => loaded.indexed (counted rfl),
      fun _ => rfl⟩, loaded.favorite, rfl, rfl⟩

/-- The outer list after a list on top of it has ended. -/
theorem ok_resumed (inner : frame.Ok state.zapbuf)
    (custom : frame.custom = true → frame.bl.favorite = true) (outer : below.Ok frame.entry)
    (guard : if frame.custom then
        below.all = frame.bl.boards.countP fun e => e.folder == favBoardRootFolder
      else below.bl.favorite = false → below.bl.yank = true → ∀ e ∈ below.bl.boards,
        (state.zapbuf e.board.id = 0 ↔ frame.entry e.board.id = 0)) :
    (below.resumed frame).Ok state.zapbuf := by
  cases isCustom : frame.custom with
  | false =>
    rw [isCustom] at guard
    rw [Frame.resumed, isCustom]
    exact ok_congr outer guard
  | true =>
    rw [isCustom, if_pos rfl] at guard
    rw [Frame.resumed, isCustom, if_pos rfl]
    -- The list of the folder has been working on the arrays of this one.
    have isFavorite := custom isCustom
    have favorite : (frame.bl.inFolder false favBoardRootFolder).favorite = true := isFavorite
    refine ⟨?_, length_index inner.allocated, fun _ => ?_, outer.loaded⟩
    · intro e member
      rw [belongs_indexFavoriteBoards favorite, belongs_inFolder isFavorite]
      exact inner.belongs e member
    · have indexed := indexes_indexFavoriteBoards favorite state.zapbuf
      have count : (frame.bl.inFolder false favBoardRootFolder).indexFavoriteBoards.count =
          below.all := by
        rw [guard]
        exact length_positions
      rw [count] at indexed
      exact indexed

theorem linked_quit {unread : Nat → Bool} (linked : Linked state.zapbuf (frame :: rest))
    (top : state.stack = frame :: rest)
    (guard : Undisturbed state (.press (.quit unread)))
    (quits : state.quit frame rest unread = some next) : Linked next.zapbuf next.stack := by
  obtain ⟨ok, custom, under⟩ := linked
  unfold Undisturbed at guard
  rw [top] at guard
  cases rest with
  | nil =>
    cases quits
    trivial
  | cons below rest =>
    obtain ⟨cur, -, rfl⟩ := Option.map_eq_some_iff.mp quits
    obtain ⟨outer, belowCustom, underBelow⟩ := under
    have resumed := ok_resumed ok custom outer guard
    have kept : (below.resumed frame).custom = below.custom ∧
        (below.resumed frame).entry = below.entry := by
      unfold Frame.resumed
      split <;> exact ⟨rfl, rfl⟩
    refine ⟨⟨resumed.belongs, resumed.allocated, resumed.indexed, nofun⟩, ?_, ?_⟩
    · intro isCustom
      have belowFavorite := belowCustom (kept.1.symm.trans isCustom)
      change (below.resumed frame).bl.favorite = true
      unfold Frame.resumed
      split
      · exact custom ‹_›
      · exact belowFavorite
    · change Linked (below.resumed frame).entry rest
      rw [kept.2]
      exact underBelow

/-- The stamp of a post does not hide a board or show a hidden one. -/
theorem brcZapbuf_eq_zero_iff (id : Nat) (stamp : Option Nat) (other : Nat) :
    brcZapbuf zapbuf id stamp other = 0 ↔ zapbuf other = 0 := by
  unfold brcZapbuf
  cases stamp with
  | none => exact Iff.rfl
  | some time =>
    by_cases subscribed : other = id ∧ 0 < zapbuf other
    · simp only [if_pos subscribed]
      omega
    · simp only [if_neg subscribed]

theorem linked_read {e : BoardExtra} {stamp : Option Nat} {unread : Nat → Bool}
    (linked : Linked state.zapbuf (frame :: rest)) (listed : e ∈ frame.bl.boards)
    (reads : state.read frame rest e stamp unread = some next) :
    Linked next.zapbuf next.stack := by
  obtain ⟨ok, custom, under⟩ := linked
  unfold State.read at reads
  by_cases isDir : e.board.dir = true
  · rw [if_pos isDir, Option.some.injEq] at reads
    subst reads
    refine ⟨?_, ?_, ok, custom, under⟩
    · cases isCustom : e.custom with
      | false => exact ⟨nofun, rfl, nofun, nofun⟩
      | true =>
        refine ⟨?_, ok.allocated, nofun, nofun⟩
        intro other member
        have favorite := favorite_of_custom (ok.belongs e listed) isCustom
        exact (congrFun (belongs_inFolder favorite true e.board.id) other).trans
          (ok.belongs other member)
    · intro isCustom
      change e.custom = true at isCustom
      change (if e.custom = true then frame.bl.inFolder true e.board.id
        else frame.bl.directory e.board).favorite = true
      rw [if_pos isCustom]
      have favorite := favorite_of_custom (ok.belongs e listed) isCustom
      exact favorite
  · rw [if_neg isDir] at reads
    obtain ⟨cur, -, rfl⟩ := Option.map_eq_some_iff.mp reads
    refine linked_handled ?_ custom under
    have same := ok_congr ok fun _ _ other _ =>
      brcZapbuf_eq_zero_iff e.board.id stamp other.board.id
    exact ⟨same.belongs, same.allocated, same.indexed, same.loaded⟩

/-- A list is indexed again after a key of an ordinary list. -/
theorem linked_indexBoards {bl : BoardList} {indexed : State}
    (linked : Linked state.zapbuf (frame :: rest))
    (ordinary : bl.favorite = false) (frameOrdinary : frame.bl.favorite = false)
    (boards : bl.boards = frame.bl.boards) (indices : bl.indices = frame.bl.indices)
    (belongs : bl.belongs = frame.bl.belongs) :
    Linked indexed.zapbuf (indexed.handled
      { frame with
        bl := bl.indexBoards indexed.zapbuf
        all := (bl.indexBoards indexed.zapbuf).count } rest).stack := by
  obtain ⟨ok, custom, under⟩ := linked
  refine ⟨⟨?_, ?_, fun _ => indexes_indexBoards ordinary indexed.zapbuf, nofun⟩, ?_, under⟩
  · intro e member
    have same : (bl.indexBoards indexed.zapbuf).belongs = bl.belongs :=
      belongs_congr rfl rfl fun _ => ⟨rfl, rfl⟩
    change e ∈ bl.boards at member
    change (bl.indexBoards indexed.zapbuf).belongs e = true
    rw [boards] at member
    rw [same, belongs]
    exact ok.belongs e member
  · apply length_index
    rw [boards, indices]
    exact ok.allocated
  · intro isCustom
    rw [custom isCustom] at frameOrdinary
    cases frameOrdinary

theorem linked_pressBoard {e : BoardExtra} {key : Key}
    (linked : Linked state.zapbuf (frame :: rest)) (listed : e ∈ frame.bl.boards)
    (presses : state.pressBoard frame rest e key = some next) :
    Linked next.zapbuf next.stack := by
  obtain ⟨ok, custom, under⟩ := linked
  have unchanged : Linked state.zapbuf (state.handled frame rest).stack :=
    linked_handled ok custom under
  cases key with
  | move cur => cases presses
  | toggleNew => cases presses
  | add name => cases presses
  | mkdir id name => cases presses
  | quit unread => cases presses
  | rm =>
    simp only [State.pressBoard] at presses
    split at presses
    · cases presses
      exact linked_changed ok custom under _
    · cases presses
      exact unchanged
  | copy =>
    simp only [State.pressBoard] at presses
    split at presses
    · cases presses
      exact linked_handled ⟨ok.belongs, ok.allocated, ok.indexed, ok.loaded⟩ custom under
    · cases presses
      exact unchanged
  | paste =>
    simp only [State.pressBoard] at presses
    split at presses
    · cases presses
      exact linked_changed ok custom under _
    · cases presses
      exact unchanged
  | sort =>
    cases presses
    refine linked_handled ⟨ok.belongs, length_qsort.trans ok.allocated, ?_, ok.loaded⟩ custom
      under
    exact fun valid => (ok.indexed valid).permute (List.perm_insertionSort _ _)
  | yank =>
    simp only [State.pressBoard] at presses
    split at presses
    · cases presses
      exact unchanged
    · rename_i ordinary
      cases presses
      rw [Bool.not_eq_true] at ordinary
      exact linked_indexBoards ⟨ok, custom, under⟩ ordinary ordinary rfl rfl
        (belongs_congr rfl rfl fun _ => ⟨rfl, rfl⟩)
  | zap login sure =>
    simp only [State.pressBoard] at presses
    split at presses
    · cases presses
      exact unchanged
    · rename_i ordinary
      rw [Bool.not_eq_true] at ordinary
      split at presses
      · cases presses
        exact unchanged
      · cases presses
        exact linked_indexBoards ⟨ok, custom, under⟩ ordinary ordinary rfl rfl rfl
  | read stamp unread => exact linked_read ⟨ok, custom, under⟩ listed presses

theorem linked_pressList {key : Key} (linked : Linked state.zapbuf (frame :: rest))
    (top : state.stack = frame :: rest) (guard : Undisturbed state (.press key))
    (presses : state.pressList frame rest key = some next) :
    Linked next.zapbuf next.stack := by
  obtain ⟨ok, custom, under⟩ := linked
  have unchanged : Linked state.zapbuf (state.handled frame rest).stack :=
    linked_handled ok custom under
  cases key with
  | move cur =>
    cases presses
    exact linked_handled ⟨ok.belongs, ok.allocated, ok.indexed, ok.loaded⟩ custom under
  | toggleNew =>
    cases presses
    exact linked_handled ⟨ok.belongs, ok.allocated, ok.indexed, ok.loaded⟩ custom under
  | add name =>
    simp only [State.pressList] at presses
    split at presses
    · split at presses
      · cases presses
        exact unchanged
      · cases presses
        exact linked_changed ok custom under _
    · obtain ⟨e, -, rfl⟩ := Option.map_eq_some_iff.mp presses
      exact unchanged
  | mkdir id name =>
    simp only [State.pressList] at presses
    split at presses
    · cases presses
      exact linked_changed ok custom under _
    · cases presses
      exact unchanged
  | quit unread => exact linked_quit ⟨ok, custom, under⟩ top guard presses
  | rm => cases presses
  | copy => cases presses
  | paste => cases presses
  | sort => cases presses
  | yank => cases presses
  | zap login sure => cases presses
  | read stamp unread => cases presses

theorem mem_of_board? {bl : BoardList} {n : Nat} {e : BoardExtra}
    (found : bl.board? n = some e) : e ∈ bl.boards := by
  obtain ⟨pointer, -, follows⟩ := Option.bind_eq_some_iff.mp found
  obtain ⟨position, -, isBoard⟩ := Option.bind_eq_some_iff.mp follows
  exact List.mem_of_getElem? isBoard

theorem linked_step (action : Action) (linked : Linked state.zapbuf state.stack)
    (guard : Undisturbed state action) (steps : step state action = some next) :
    Linked next.zapbuf next.stack := by
  cases action with
  | change db =>
    cases steps
    exact linked
  | enter entry zapbuf =>
    cases stack : state.stack with
    | nil =>
      simp only [step, stack] at steps
      cases steps
      exact ⟨⟨nofun, rfl, nofun, nofun⟩, nofun, trivial⟩
    | cons frame rest =>
      simp only [step, stack] at steps
      cases steps
  | turn unread =>
    cases stack : state.stack with
    | nil =>
      simp only [step, stack] at steps
      cases steps
    | cons frame rest =>
      rw [stack] at linked
      obtain ⟨ok, custom, under⟩ := linked
      simp only [step, stack] at steps
      simp only [Undisturbed, stack] at guard
      split at steps
      · cases steps
      · obtain ⟨turned, turns, rfl⟩ := Option.map_eq_some_iff.mp steps
        obtain ⟨turnedOk, favorite, customEq, entryEq⟩ := linked_turn ok guard turns
        refine ⟨turnedOk, ?_, by rw [entryEq]; exact under⟩
        rw [favorite, customEq]
        exact custom
  | press key =>
    cases stack : state.stack with
    | nil =>
      simp only [step, stack] at steps
      cases steps
    | cons frame rest =>
      rw [stack] at linked
      simp only [step, stack, State.press] at steps
      split at steps
      · split at steps
        · split at steps
          · cases steps
            exact linked_handled linked.1 linked.2.1 linked.2.2
          · obtain ⟨e, found, presses⟩ := Option.bind_eq_some_iff.mp steps
            exact linked_pressBoard linked (mem_of_board? found) presses
        · exact linked_pressList linked stack guard steps
      · cases steps

end Steps

/-- A database with two boards in the favourites, one of them in a custom folder. -/
def sampleDb : Db where
  boards :=
    [⟨⟨7, [65], [], 0, false, false, false, false, false, 0⟩, 1⟩,
      ⟨⟨8, [66], [], 0, false, false, false, false, false, 0⟩, 1⟩]
  favBoards := [(7, 1), (8, 5)]
  folders := [(5, [70])]
  userlevel := 0
  isBm := fun _ => false
  isClubMember := fun _ => false
  online := fun _ => 0

def sampleState (db : Db) : State where
  db := db
  user := ⟨false, false, false⟩
  zapbuf := fun _ => 1
  stack := []

/-- The custom folder of the favourites is opened, and its list is left again. -/
def folderVisit : List Action :=
  [.enter .favoriteBoards fun _ => 1, .turn fun _ => false,
    .press (.read none fun _ => false), .turn fun _ => false,
    .press (.quit fun _ => false), .turn fun _ => false]

/-- The only board of the favourites is removed from them. -/
def lastRemoved : List Action :=
  [.enter .favoriteBoards fun _ => 1, .turn fun _ => false, .press .toggleNew,
    .turn fun _ => false, .press .rm, .turn fun _ => false]

end BoardLists

end Fbbs
