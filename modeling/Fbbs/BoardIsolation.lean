import Fbbs.PostTables

/-!
# Which boards a request can touch

`build_post_filter` restricts a statement to the board of the filter only for
the two trash lists.  A request with any other list type acts on every row that
meets its remaining conditions, whichever board the row is on; the rows of the
other boards stay as they are exactly when none of them meets the conditions,
or when what is assigned is what they have.
-/

namespace Fbbs

namespace Post

open SqlRows

/-- The requests that change existing posts. -/
inductive Mutation
  | postDelete (req : BackendRequestPostDelete)
  | postUndelete (req : BackendRequestPostUndelete)
  | postSetFlag (req : BackendRequestPostSetFlag)
  | postAlterTitle (req : BackendRequestPostAlterTitle)

def Mutation.bid : Mutation → Int32
  | .postDelete req => req.filter.bid
  | .postUndelete req => req.filter.bid
  | .postSetFlag req => req.filter.bid
  | .postAlterTitle req => req.boardId

section Database

variable (ilike : CString → CString → Bool)
variable (getBoardByBid : Int32 → Option Board) (now : Int64)

/-- The tables after the handler of a request. -/
def Mutation.apply (tables : Tables) : Mutation → Tables
  | .postDelete req => (deleteRows ilike getBoardByBid now req tables).1
  | .postUndelete req => undeletePosts ilike req tables
  | .postSetFlag req => setFlag ilike req tables
  | .postAlterTitle req => alterTitle ilike req tables

/-- The post is on another board. -/
def foreign (bid : Int32) (row : PostRow) : Bool :=
  row.boardId != some bid

/-- The rows of the other boards are the same in both tables. -/
def Isolated (bid : Int32) (before after : Tables) : Prop :=
  after.recent.filter (foreign bid) = before.recent.filter (foreign bid) ∧
    after.deleted.filter (foreign bid ·.post) =
      before.deleted.filter (foreign bid ·.post)

/-- No row of another board is touched by the request. -/
def Contained (tables : Tables) : Mutation → Prop
  | .postDelete req =>
    getBoardByBid req.filter.bid = none ∨ isDeleted req.filter.type = true ∨
      ∀ row ∈ tables.recent, foreign req.filter.bid row = true →
        selectsRecent ilike (deleteConditions req) row = false
  | .postUndelete req =>
    isDeleted req.filter.type = true ∨
      ∀ row ∈ tables.deleted, foreign req.filter.bid row.post = true →
        selectsDeleted ilike (buildPostFilter req.filter) row = false
  | .postSetFlag req =>
    isDeleted req.filter.type = true ∨
      ∀ row ∈ tables.recent, foreign req.filter.bid row = true →
        selectsRecent ilike (buildPostFilter req.filter) row = true →
        changeFlag req row = row
  | .postAlterTitle req =>
    ∀ row ∈ tables.recent, foreign req.boardId row = true →
      selectsRecent ilike (buildPostFilter (alterTitleFilter req)) row = true →
      row.title = req.title

variable {ilike getBoardByBid now}

theorem Isolated.refl (bid : Int32) (tables : Tables) : Isolated bid tables tables :=
  ⟨rfl, rfl⟩

/-- For the trash lists the board is among the conditions. -/
theorem boardId_mem_buildPostFilter {f : PostFilter} (bidSet : f.bid ≠ 0)
    (deleted : isDeleted f.type = true) :
    Condition.boardId f.bid ∈ buildPostFilter f := by
  have test : (f.bid != 0 && isDeleted f.type) = true := by
    simp [bidSet, deleted]
  unfold buildPostFilter
  simp [queryAnd, test]

theorem not_selectsDeleted_of_foreign {f : PostFilter} (bidSet : f.bid ≠ 0)
    (deleted : isDeleted f.type = true) {row : DeletedRow}
    (other : foreign f.bid row.post = true) :
    selectsDeleted ilike (buildPostFilter f) row = false := by
  have member := boardId_mem_buildPostFilter bidSet deleted
  rw [Bool.eq_false_iff]
  intro selected
  have holds := List.all_eq_true.mp selected _
    (List.mem_map.mpr ⟨_, member, rfl⟩)
  obtain ⟨board, boardEq, same⟩ := compare_eq_true (beq_iff_eq.mp holds)
  rw [beq_iff_eq] at same
  rw [foreign, boardEq, same] at other
  simp at other

theorem needsDeleted_deleteConditions (req : BackendRequestPostDelete) :
    (deleteConditions req).any Condition.needsDeleted =
      isDeleted req.filter.type := by
  unfold deleteConditions
  rw [List.any_append, List.any_append, needsDeleted_buildPostFilter]
  cases req.force <;> simp [Condition.needsDeleted]

theorem foreign_changeFlag (bid : Int32) (req : BackendRequestPostSetFlag)
    (row : PostRow) : foreign bid (changeFlag req row) = foreign bid row := by
  unfold changeFlag
  cases flagField req.flag <;> rfl

theorem foreign_recentBeforeInsert (bid : Int32) (row : PostRow) :
    foreign bid (recentBeforeInsert row) = foreign bid row := by
  unfold recentBeforeInsert
  split <;> rfl

/-- Appending rows of the board leaves the other boards alone. -/
theorem filter_append_eq_iff {Row : Type*} (watched : Row → Bool)
    (rows added : List Row) :
    (rows ++ added).filter watched = rows.filter watched ↔
      ∀ row ∈ added, watched row = false := by
  rw [List.filter_append, List.append_right_eq_self, List.filter_eq_nil_iff]
  simp only [Bool.not_eq_true]

/-- If no watched row is selected, no removed row is watched. -/
theorem not_foreign_of_removed {Row : Type*} {watched selected : Row → Bool}
    {rows : List Row}
    (unselected : ∀ row ∈ rows, watched row = true → selected row = false)
    {row : Row} (removedRow : row ∈ removed selected rows) :
    watched row = false := by
  obtain ⟨inRows, isSelected⟩ := List.mem_filter.mp removedRow
  rw [Bool.eq_false_iff]
  intro isWatched
  have notSelected := unselected row inRows isWatched
  rw [isSelected] at notSelected
  cases notSelected

theorem isolated_postDelete_iff {req : BackendRequestPostDelete}
    (bidSet : req.filter.bid ≠ 0) (tables : Tables) :
    Isolated req.filter.bid tables
        (deleteRows ilike getBoardByBid now req tables).1 ↔
      Contained ilike getBoardByBid tables (.postDelete req) := by
  unfold deleteRows Contained deleteDecrease
  rw [if_neg bidSet]
  cases board : getBoardByBid req.filter.bid with
  | none => exact iff_of_true (Isolated.refl _ _) (.inl board)
  | some board =>
    simp only [Option.map_some, deletePosts, needsDeleted_deleteConditions]
    cases deleted : isDeleted req.filter.type with
    | true => exact iff_of_true (Isolated.refl _ _) (.inr (.inl rfl))
    | false =>
      have recentIff := kept_filter_eq_iff (foreign req.filter.bid)
        (selectsRecent ilike (deleteConditions req)) tables.recent
      simp only [Bool.false_eq_true, if_false, Option.getD_some, Isolated]
      constructor
      · rintro ⟨recentEq, -⟩
        exact .inr (.inr (recentIff.mp recentEq))
      · rintro (missing | isTrash | unselected)
        · rw [board] at missing
          cases missing
        · cases isTrash
        · refine ⟨recentIff.mpr unselected,
            (filter_append_eq_iff _ _ _).mpr fun row member => ?_⟩
          obtain ⟨source, removedRow, rfl⟩ := List.mem_map.mp member
          have sourceHere := not_foreign_of_removed unselected removedRow
          exact sourceHere

theorem isolated_postUndelete_iff {req : BackendRequestPostUndelete}
    (bidSet : req.filter.bid ≠ 0) (tables : Tables) :
    Isolated req.filter.bid tables (undeletePosts ilike req tables) ↔
      Contained ilike getBoardByBid tables (.postUndelete req) := by
  have deletedIff := kept_filter_eq_iff
    (fun row : DeletedRow => foreign req.filter.bid row.post)
    (selectsDeleted ilike (buildPostFilter req.filter)) tables.deleted
  have unselectedIff : Isolated req.filter.bid tables (undeletePosts ilike req tables) ↔
      ∀ row ∈ tables.deleted, foreign req.filter.bid row.post = true →
        selectsDeleted ilike (buildPostFilter req.filter) row = false := by
    constructor
    · rintro ⟨-, deletedEq⟩
      exact deletedIff.mp deletedEq
    · intro unselected
      refine ⟨(filter_append_eq_iff _ _ _).mpr fun row member => ?_,
        deletedIff.mpr unselected⟩
      obtain ⟨source, removedRow, rfl⟩ := List.mem_map.mp member
      rw [foreign_recentBeforeInsert]
      exact not_foreign_of_removed unselected removedRow
  rw [unselectedIff, Contained]
  refine ⟨.inr, ?_⟩
  rintro (deleted | unselected)
  · exact fun row _ other => not_selectsDeleted_of_foreign bidSet deleted other
  · exact unselected

theorem isolated_postSetFlag_iff {req : BackendRequestPostSetFlag}
    (bidSet : req.filter.bid ≠ 0) (tables : Tables) :
    Isolated req.filter.bid tables (setFlag ilike req tables) ↔
      Contained ilike getBoardByBid tables (.postSetFlag req) := by
  unfold setFlag Contained
  cases deleted : isDeleted req.filter.type with
  | true =>
    refine iff_of_true ⟨rfl, ?_⟩ (.inl deleted)
    refine (updated_filter_eq_iff
      (fun row : DeletedRow => foreign req.filter.bid row.post)
      (fun row => foreign_changeFlag _ req row.post) tables.deleted).mpr ?_
    intro row _ other selected
    rw [not_selectsDeleted_of_foreign bidSet deleted other] at selected
    cases selected
  | false =>
    simp only [Bool.false_eq_true, if_false, needsDeleted_buildPostFilter, deleted,
      false_or, Isolated, and_true]
    exact updated_filter_eq_iff (foreign req.filter.bid)
      (foreign_changeFlag req.filter.bid req) tables.recent

theorem isolated_postAlterTitle_iff (req : BackendRequestPostAlterTitle)
    (tables : Tables) :
    Isolated req.boardId tables (alterTitle ilike req tables) ↔
      Contained ilike getBoardByBid tables (.postAlterTitle req) := by
  have keeps : ∀ row : PostRow,
      foreign req.boardId { row with title := req.title } = foreign req.boardId row :=
    fun _ => rfl
  unfold alterTitle Contained Isolated
  simp only [and_true]
  rw [updated_filter_eq_iff (foreign req.boardId) keeps]
  refine forall₄_congr fun row _ _ _ => ?_
  constructor
  · intro unchanged
    exact (congrArg PostRow.title unchanged).symm
  · intro sameTitle
    rw [← sameTitle]

/-- A request for a board leaves the rows of all other boards as they are
exactly when it is for a trash list, or no such row meets its remaining
conditions, or what it assigns is what they have. -/
theorem isolated_iff_contained (ilike : CString → CString → Bool)
    (getBoardByBid : Int32 → Option Board) (now : Int64) (tables : Tables)
    (mutation : Mutation) (bidSet : mutation.bid ≠ 0) :
    Isolated mutation.bid tables (mutation.apply ilike getBoardByBid now tables) ↔
      Contained ilike getBoardByBid tables mutation := by
  cases mutation with
  | postDelete req => exact isolated_postDelete_iff bidSet tables
  | postUndelete req => exact isolated_postUndelete_iff bidSet tables
  | postSetFlag req => exact isolated_postSetFlag_iff bidSet tables
  | postAlterTitle req => exact isolated_postAlterTitle_iff req tables

end Database

def sampleRow (id : PostId) (boardId : Int32) : PostRow where
  id := id
  replyId := some id
  threadId := some id
  userId := some 7
  userIdReplied := some 0
  realUserId := some 7
  userName := none
  boardId := some boardId
  boardName := none
  digest := some false
  marked := some false
  locked := some false
  imported := some false
  water := some false
  attachment := some false
  sticky := some false
  title := none

def sampleTables : Tables where
  recent := [sampleRow 10 1, sampleRow 20 2]
  deleted := [⟨sampleRow 30 1, none, none, none, some false, some true⟩,
    ⟨sampleRow 40 2, none, none, none, some false, some true⟩]

theorem isolated_iff_contained_trash :
    Isolated 1 sampleTables
      (Mutation.apply (fun _ _ => false) (fun _ => some ⟨0⟩) 0 sampleTables
        (.postUndelete ⟨sampleFilter postListTrash, true⟩)) :=
  (isolated_iff_contained (fun _ _ => false) (fun _ => some ⟨0⟩) 0 sampleTables
    (.postUndelete ⟨sampleFilter postListTrash, true⟩) (by decide)).mpr (.inl rfl)

/-- Deleting the posts of an author on board 1 deletes those on board 2. -/
theorem delete_reaches_other_board :
    ¬ Isolated 1 sampleTables
      (Mutation.apply (fun _ _ => false) (fun _ => some ⟨0⟩) 0 sampleTables
        (.postDelete ⟨sampleFilter 0, false, true, false, 9, none⟩)) := by
  rintro ⟨recentEq, -⟩
  have different : ((Mutation.apply (fun _ _ => false) (fun _ => some ⟨0⟩) 0
      sampleTables (.postDelete ⟨sampleFilter 0, false, true, false, 9, none⟩)).recent.filter
        (foreign 1)).length ≠ (sampleTables.recent.filter (foreign 1)).length := by
    decide
  exact different (congrArg List.length recentEq)

end Post

end Fbbs
