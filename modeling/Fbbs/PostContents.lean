import Fbbs.DecimalText
import Fbbs.PostCounts

/-!
# Contents of posts that are deleted and restored

The content of a post is in `post.content`, whether the post is deleted or not.
`post_content_get` keeps a copy in a file of its own.  When a post is deleted the
copy gets another name, or an empty file gets that name if there is no copy; when
the post is restored the file is removed.  `post_content_get` takes the file as the
sign that the post is deleted.
-/

namespace Fbbs

namespace PostContents

open Post SqlRows

/-- `post/%03d/%d`. -/
def postContentCacheFilename (postId : PostId) : Bytes :=
  [112, 111, 115, 116, 47] ++ DecimalText.zeroPadded 3 (postId % 1000).toInt ++ [47] ++
    DecimalText.ofInt (postId / 1000).toInt

/-- `post/%03d/%d~`. -/
def postContentDeletedFilename (postId : PostId) : Bytes :=
  postContentCacheFilename postId ++ [126]

/-- A row of `post.content`. -/
structure ContentRow where
  postId : PostId
  content : Option CString
  deriving DecidableEq

/-- The tables with the last value of `post.post_id_seq`, and the files by their
names. -/
structure Store where
  tables : Tables
  sequence : Nat
  contents : List ContentRow
  files : Bytes → Option CString

def Store.unlink (store : Store) (name : Bytes) : Store :=
  { store with files := Function.update store.files name none }

def Store.write (store : Store) (name : Bytes) (str : CString) : Store :=
  { store with files := Function.update store.files name (some str) }

/-- The call fails, and nothing happens, if there is no file of the old name. -/
def Store.rename (store : Store) (old new : Bytes) : Option Store :=
  (store.files old).map fun str => (store.write new str).unlink old

/-- `file_append(name, "")`. -/
def Store.touch (store : Store) (name : Bytes) : Store :=
  store.write name ((store.files name).getD .empty)

/-- `remove_cached_content`. -/
def removeCachedContent (store : Store) (postId : PostId) : Store :=
  if postId ≤ 0 then store
  else
    let old := postContentCacheFilename postId
    let new := postContentDeletedFilename postId
    (store.rename old new).getD (store.touch new)

/-- What `_backend_post_undelete` does to the file of a row. -/
def removeTombstone (store : Store) (postId : PostId) : Store :=
  if 0 < postId then store.unlink (postContentDeletedFilename postId) else store

/-- The rows of `post.content` with the id. -/
def Store.rowsOf (store : Store) (postId : PostId) : List ContentRow :=
  store.contents.filter fun row => row.postId == postId

/-- The query of `post_content_get`; a null column reads as the empty string. -/
def Store.query (store : Store) (postId : PostId) : Option CString :=
  match store.rowsOf postId with
  | [row] => some (row.content.getD .empty)
  | _ => none

def postContentGet (postId : PostId) (readDeleted : Bool) (store : Store) :
    Option CString × Store :=
  let file := postContentCacheFilename postId
  match store.files file with
  | some str => (some str, store)
  | none =>
    let deleted := (store.files (postContentDeletedFilename postId)).isSome
    if !readDeleted && deleted then (none, store)
    else
      match store.query postId with
      | some str => (some str, if deleted then store else store.write file str)
      | none => (none, store)

def postContentSet (postId : PostId) (str : Option CString) (store : Store) : Store :=
  match str with
  | none => store
  | some str =>
    let changed := { store with
      contents := updated (fun row => row.postId == postId)
        (fun row => { row with content := some str }) store.contents }
    if (store.rowsOf postId).length = 1 then
      changed.unlink (postContentCacheFilename postId)
    else changed

/-- A call that concerns the contents of posts. -/
inductive Event
  | backend (request : Post.Request)
  | contentSet (postId : PostId) (str : Option CString)
  | contentGet (postId : PostId) (readDeleted : Bool)

section Handlers

variable (ilike : CString → CString → Bool) (getBoardByBid : Int32 → Option Board)

def handleRequest (store : Store) : Post.Request → Store
  | .postNew millis req =>
    let id := nextId millis (store.sequence + 1)
    { store with
      tables := insertPost id req store.tables
      sequence := store.sequence + 1
      contents := store.contents ++ if id ≠ 0 then [⟨id, req.content⟩] else [] }
  | .postDelete now req =>
    let (tables, rows) := deleteRows ilike getBoardByBid now req store.tables
    rows.foldl (fun store row => removeCachedContent store row.post.id)
      { store with tables := tables }
  | .postUndelete req =>
    let cleaned := (undeletedRows ilike req store.tables).reverse.foldl
      (fun store row => removeTombstone store row.post.id) store
    { cleaned with tables := undeletePosts ilike req store.tables }

def handleEvent (store : Store) : Event → Store
  | .backend request => handleRequest ilike getBoardByBid store request
  | .contentSet postId str => postContentSet postId str store
  | .contentGet postId readDeleted => (postContentGet postId readDeleted store).2

end Handlers

/-- The requests to the backend among the calls. -/
def requestsOf (events : List Event) : List Post.Request :=
  events.filterMap fun
    | .backend request => some request
    | _ => none

/-- The contents that are stored after a call, given those before it. -/
def storedAfter (value : Nat) (stored : PostId → Option CString) :
    Event → PostId → Option CString
  | .backend (.postNew millis req) =>
    Function.update stored (nextId millis (value + 1)) (some (req.content.getD .empty))
  | .contentSet postId (some str) =>
    Function.update stored postId ((stored postId).map fun _ => str)
  | _ => stored

/-- The content most recently stored for every post. -/
def lastStored : List Event → Nat → (PostId → Option CString) → PostId → Option CString
  | [], _, stored => stored
  | event :: events, value, stored =>
    lastStored events (value + (readings (requestsOf [event])).length)
      (storedAfter value stored event)

/-- No posts and no files. -/
def Store.empty (sequence : Nat) : Store where
  tables := ⟨[], []⟩
  sequence := sequence
  contents := []
  files _ := none

section Filenames

theorem padded_of_small {number : Nat} (small : number < 1000) :
    (DecimalText.zeroPadded 3 number).length = 3 ∧
      DecimalText.value (DecimalText.zeroPadded 3 number) = number := by
  have short := DecimalText.length_digits_le 3 (by decide) small
  have nonneg : ¬(number : Int) < 0 := by omega
  simp only [DecimalText.zeroPadded, if_neg nonneg, List.nil_append, Int.natAbs_natCast,
    List.length_nil, Nat.sub_zero]
  constructor
  · rw [List.length_append, List.length_replicate]
    omega
  · rw [DecimalText.value_replicate_append, DecimalText.value_digits]

/-- The remainder and the quotient in the name of a file. -/
theorem filename_parts {postId : PostId} (positive : 0 < postId) :
    ∃ remainder quotient : Nat, remainder < 1000 ∧
      postId.toInt = 1000 * quotient + remainder ∧
      postContentCacheFilename postId =
        [112, 111, 115, 116, 47] ++ DecimalText.zeroPadded 3 remainder ++ [47] ++
          DecimalText.digits quotient := by
  have nonneg : 0 < postId.toInt := Int64.lt_iff_toInt_lt.mp positive
  have bound := Int64.toInt_lt postId
  have thousand : (1000 : Int64).toInt = 1000 := rfl
  have remainder : (postId % 1000).toInt = postId.toInt % 1000 := by
    rw [Int64.toInt_mod, thousand, Int.tmod_eq_emod_of_nonneg nonneg.le]
  have quotient : (postId / 1000).toInt = postId.toInt / 1000 := by
    rw [Int64.toInt_div, thousand, Int.tdiv_eq_ediv_of_nonneg nonneg.le]
    apply Int.bmod_eq_of_le <;> omega
  obtain ⟨number, numberEq⟩ := Int.eq_ofNat_of_zero_le nonneg.le
  refine ⟨number % 1000, number / 1000, Nat.mod_lt _ (by decide), by omega, ?_⟩
  rw [postContentCacheFilename, remainder, quotient, numberEq, DecimalText.ofInt]
  norm_cast

/-- Different posts have different files. -/
theorem filename_injective {postId other : PostId} (positive : 0 < postId)
    (otherPositive : 0 < other)
    (same : postContentCacheFilename postId = postContentCacheFilename other) :
    postId = other := by
  obtain ⟨remainder, quotient, small, idEq, name⟩ := filename_parts positive
  obtain ⟨remainder', quotient', small', idEq', name'⟩ := filename_parts otherPositive
  obtain ⟨length, value⟩ := padded_of_small small
  obtain ⟨length', value'⟩ := padded_of_small small'
  rw [name, name', List.append_assoc, List.append_assoc, List.append_assoc,
    List.append_assoc] at same
  have rest := List.append_cancel_left same
  obtain ⟨remainders, quotients⟩ := List.append_inj rest (length.trans length'.symm)
  have sameQuotient : quotient = quotient' := by
    have digits := List.append_cancel_left quotients
    rw [← DecimalText.value_digits quotient, digits, DecimalText.value_digits]
  have sameRemainder : remainder = remainder' := by
    rw [← value, remainders, value']
  apply Int64.toInt_inj.mp
  rw [idEq, idEq', sameQuotient, sameRemainder]

theorem isDigit_of_mem_padded {number : Nat} {byte : UInt8}
    (member : byte ∈ DecimalText.zeroPadded 3 number) : DecimalText.isDigit byte = true := by
  have nonneg : ¬(number : Int) < 0 := by omega
  simp only [DecimalText.zeroPadded, if_neg nonneg, List.nil_append, List.mem_append] at member
  rcases member with zero | digit
  · rw [List.eq_of_mem_replicate zero]
    rfl
  · exact DecimalText.isDigit_of_mem_digits digit

/-- No copy has the name of a mark. -/
theorem cacheFilename_ne_deletedFilename {postId other : PostId} (positive : 0 < postId) :
    postContentCacheFilename postId ≠ postContentDeletedFilename other := by
  obtain ⟨remainder, quotient, -, -, name⟩ := filename_parts positive
  intro same
  have tilde : (126 : UInt8) ∈ postContentCacheFilename postId := by
    rw [same, postContentDeletedFilename]
    exact List.mem_append_right _ (List.mem_singleton_self _)
  simp only [name, List.mem_append] at tilde
  rcases tilde with ((letters | padded) | slash) | digit
  · exact absurd letters (by decide)
  · exact absurd (isDigit_of_mem_padded padded) (by decide)
  · exact absurd slash (by decide)
  · exact absurd (DecimalText.isDigit_of_mem_digits digit) (by decide)

end Filenames

section Files

/-- The copy of the content of a post. -/
def Store.copy (store : Store) (postId : PostId) : Option CString :=
  store.files (postContentCacheFilename postId)

/-- The post has the mark of a deleted one. -/
def Store.marked (store : Store) (postId : PostId) : Bool :=
  (store.files (postContentDeletedFilename postId)).isSome

variable {store : Store} {postId other : PostId}

theorem deletedFilename_injective (positive : 0 < postId) (otherPositive : 0 < other)
    (same : postContentDeletedFilename postId = postContentDeletedFilename other) :
    postId = other :=
  filename_injective positive otherPositive (List.append_cancel_right same)

theorem update_cacheFilename (positive : 0 < postId) (otherPositive : 0 < other)
    (files : Bytes → Option CString) (content : Option CString) :
    Function.update files (postContentCacheFilename postId) content
        (postContentCacheFilename other) =
      if other = postId then content else files (postContentCacheFilename other) := by
  by_cases same : other = postId
  · rw [if_pos same, same, Function.update_self]
  · have names : postContentCacheFilename other ≠ postContentCacheFilename postId :=
      fun equal => same (filename_injective otherPositive positive equal)
    rw [if_neg same, Function.update_of_ne names]

theorem update_deletedFilename (positive : 0 < postId) (otherPositive : 0 < other)
    (files : Bytes → Option CString) (content : Option CString) :
    Function.update files (postContentDeletedFilename postId) content
        (postContentDeletedFilename other) =
      if other = postId then content else files (postContentDeletedFilename other) := by
  by_cases same : other = postId
  · rw [if_pos same, same, Function.update_self]
  · have names : postContentDeletedFilename other ≠ postContentDeletedFilename postId :=
      fun equal => same (deletedFilename_injective otherPositive positive equal)
    rw [if_neg same, Function.update_of_ne names]

theorem copy_unlink (positive : 0 < postId) (otherPositive : 0 < other) :
    (store.unlink (postContentCacheFilename postId)).copy other =
      if other = postId then none else store.copy other := by
  unfold Store.copy Store.unlink
  dsimp only
  rw [update_cacheFilename positive otherPositive]

theorem copy_write (positive : 0 < postId) (otherPositive : 0 < other) (str : CString) :
    (store.write (postContentCacheFilename postId) str).copy other =
      if other = postId then some str else store.copy other := by
  unfold Store.copy Store.write
  dsimp only
  rw [update_cacheFilename positive otherPositive]

theorem marked_unlink_copy (positive : 0 < postId) :
    (store.unlink (postContentCacheFilename postId)).marked other = store.marked other := by
  unfold Store.marked Store.unlink
  dsimp only
  rw [Function.update_of_ne (cacheFilename_ne_deletedFilename positive).symm]

theorem marked_write_copy (positive : 0 < postId) (str : CString) :
    (store.write (postContentCacheFilename postId) str).marked other = store.marked other := by
  unfold Store.marked Store.write
  dsimp only
  rw [Function.update_of_ne (cacheFilename_ne_deletedFilename positive).symm]

theorem removeCachedContent_tables (store : Store) (postId : PostId) :
    (removeCachedContent store postId).tables = store.tables ∧
      (removeCachedContent store postId).sequence = store.sequence ∧
      (removeCachedContent store postId).contents = store.contents := by
  unfold removeCachedContent
  split
  · exact ⟨rfl, rfl, rfl⟩
  · simp only [Store.rename]
    cases store.files (postContentCacheFilename postId) <;> exact ⟨rfl, rfl, rfl⟩

/-- The copy goes, and the mark comes, whether there was a copy or not. -/
theorem removeCachedContent_files (store : Store) (positive : 0 < postId) :
    ∃ str, (removeCachedContent store postId).files =
      Function.update (Function.update store.files (postContentDeletedFilename postId)
        (some str)) (postContentCacheFilename postId) none := by
  have notNegative : ¬postId ≤ 0 := Int64.not_le.mpr positive
  rw [removeCachedContent, if_neg notNegative]
  simp only [Store.rename]
  cases copy : store.files (postContentCacheFilename postId) with
  | some str => exact ⟨str, rfl⟩
  | none =>
    refine ⟨(store.files (postContentDeletedFilename postId)).getD .empty, ?_⟩
    -- Without a copy there is nothing to remove.
    symm
    apply Function.update_eq_self_iff.mpr
    rw [Function.update_of_ne (cacheFilename_ne_deletedFilename positive), copy]

theorem copy_removeCachedContent (positive : 0 < postId) (otherPositive : 0 < other) :
    (removeCachedContent store postId).copy other =
      if other = postId then none else store.copy other := by
  obtain ⟨str, files⟩ := removeCachedContent_files store positive
  rw [Store.copy, files, update_cacheFilename positive otherPositive,
    Function.update_of_ne (cacheFilename_ne_deletedFilename otherPositive), Store.copy]

theorem marked_removeCachedContent (positive : 0 < postId) (otherPositive : 0 < other) :
    (removeCachedContent store postId).marked other =
      (decide (other = postId) || store.marked other) := by
  obtain ⟨str, files⟩ := removeCachedContent_files store positive
  rw [Store.marked, files,
    Function.update_of_ne (cacheFilename_ne_deletedFilename positive).symm,
    update_deletedFilename positive otherPositive, Store.marked]
  by_cases same : other = postId
  · simp [same]
  · simp [same]

theorem removeTombstone_eq (positive : 0 < postId) :
    removeTombstone store postId = store.unlink (postContentDeletedFilename postId) :=
  if_pos positive

theorem copy_removeTombstone (positive : 0 < postId) (otherPositive : 0 < other) :
    (removeTombstone store postId).copy other = store.copy other := by
  rw [removeTombstone_eq positive]
  unfold Store.copy Store.unlink
  dsimp only
  rw [Function.update_of_ne (cacheFilename_ne_deletedFilename otherPositive)]

theorem marked_removeTombstone (positive : 0 < postId) (otherPositive : 0 < other) :
    (removeTombstone store postId).marked other =
      (!decide (other = postId) && store.marked other) := by
  rw [removeTombstone_eq positive, Store.marked, Store.unlink]
  dsimp only
  rw [update_deletedFilename positive otherPositive, Store.marked]
  by_cases same : other = postId
  · simp [same]
  · simp [same]

/-- What `_backend_post_delete` does to the files of the rows that it has moved. -/
theorem removeCachedContents_files {ids : List PostId} (positive : ∀ id ∈ ids, 0 < id)
    (store : Store) :
    (ids.foldl removeCachedContent store).tables = store.tables ∧
      (ids.foldl removeCachedContent store).sequence = store.sequence ∧
      (ids.foldl removeCachedContent store).contents = store.contents ∧
      ∀ other, 0 < other →
        (ids.foldl removeCachedContent store).copy other =
            (if other ∈ ids then none else store.copy other) ∧
          (ids.foldl removeCachedContent store).marked other =
            (decide (other ∈ ids) || store.marked other) := by
  induction ids generalizing store with
  | nil => simp
  | cons id ids ih =>
    obtain ⟨idPositive, idsPositive⟩ := List.forall_mem_cons.mp positive
    obtain ⟨tables, sequence, contents, files⟩ := ih idsPositive (removeCachedContent store id)
    obtain ⟨tables₁, sequence₁, contents₁⟩ := removeCachedContent_tables store id
    refine ⟨tables.trans tables₁, sequence.trans sequence₁, contents.trans contents₁, ?_⟩
    intro other otherPositive
    obtain ⟨copy, marked⟩ := files other otherPositive
    rw [List.foldl_cons, copy, marked, copy_removeCachedContent idPositive otherPositive,
      marked_removeCachedContent idPositive otherPositive]
    by_cases here : other = id
    · simp [here]
    · simp [here]

/-- What `_backend_post_undelete` does to the files of the rows that it will move. -/
theorem removeTombstones_files {ids : List PostId} (positive : ∀ id ∈ ids, 0 < id)
    (store : Store) :
    (ids.foldl removeTombstone store).sequence = store.sequence ∧
      (ids.foldl removeTombstone store).contents = store.contents ∧
      ∀ other, 0 < other →
        (ids.foldl removeTombstone store).copy other = store.copy other ∧
          (ids.foldl removeTombstone store).marked other =
            (!decide (other ∈ ids) && store.marked other) := by
  induction ids generalizing store with
  | nil => simp
  | cons id ids ih =>
    obtain ⟨idPositive, idsPositive⟩ := List.forall_mem_cons.mp positive
    obtain ⟨sequence, contents, files⟩ := ih idsPositive (removeTombstone store id)
    rw [removeTombstone_eq idPositive] at sequence contents
    refine ⟨by rw [List.foldl_cons, removeTombstone_eq idPositive, sequence]; rfl,
      by rw [List.foldl_cons, removeTombstone_eq idPositive, contents]; rfl, ?_⟩
    intro other otherPositive
    obtain ⟨copy, marked⟩ := files other otherPositive
    rw [List.foldl_cons, copy, marked, copy_removeTombstone idPositive otherPositive,
      marked_removeTombstone idPositive otherPositive]
    by_cases here : other = id
    · simp [here]
    · simp [here]

end Files

section Histories

def Store.deletedIds (store : Store) : List PostId :=
  store.tables.deleted.map fun row => row.post.id

/-- The rows hold the stored contents, the copies are of posts that are not deleted,
and the marks are those of the deleted posts. -/
structure Coherent (stored : PostId → Option CString) (store : Store) : Prop where
  rows : ∀ id, (store.rowsOf id).map (fun row => row.content.getD .empty) =
    (stored id).toList
  known : ∀ id, id ∈ store.tables.ids ↔ (stored id).isSome
  nodup : store.tables.ids.Nodup
  positive : ∀ id ∈ store.tables.ids, 0 < id
  copies : ∀ id, 0 < id → ∀ str, store.copy id = some str →
    stored id = some str ∧ id ∉ store.deletedIds
  marks : ∀ id, 0 < id → (store.marked id = true ↔ id ∈ store.deletedIds)

variable {ilike : CString → CString → Bool} {getBoardByBid : Int32 → Option Board}
variable {stored : PostId → Option CString} {store : Store}

theorem empty_coherent (sequence : Nat) :
    Coherent (fun _ => none) (Store.empty sequence) where
  rows _ := rfl
  known := by simp [Store.empty, Tables.ids]
  nodup := List.nodup_nil
  positive := by simp [Store.empty, Tables.ids]
  copies id _ str found := by cases found
  marks := by simp [Store.empty, Store.marked, Store.deletedIds]

theorem Coherent.stored_eq_none (coherent : Coherent stored store) {id : PostId}
    (unknown : id ∉ store.tables.ids) : stored id = none := by
  rw [coherent.known, Option.not_isSome_iff_eq_none] at unknown
  exact unknown

/-- The query finds what is stored. -/
theorem Coherent.query_eq (coherent : Coherent stored store) (id : PostId) :
    store.query id = stored id := by
  have rows := coherent.rows id
  unfold Store.query
  cases found : stored id with
  | none =>
    rw [found, Option.toList_none, List.map_eq_nil_iff] at rows
    rw [rows]
  | some str =>
    rw [found, Option.toList_some] at rows
    obtain ⟨row, single, content⟩ := List.map_eq_singleton_iff.mp rows
    rw [single, ← content]

theorem Coherent.length_rowsOf (coherent : Coherent stored store) (id : PostId) :
    (store.rowsOf id).length = 1 ↔ id ∈ store.tables.ids := by
  have lengths := congrArg List.length (coherent.rows id)
  rw [List.length_map, Option.length_toList] at lengths
  rw [lengths, coherent.known]
  cases stored id <;> simp

theorem postContentGet_of_copy {id : PostId} {str : CString} (readDeleted : Bool)
    (found : store.copy id = some str) :
    postContentGet id readDeleted store = (some str, store) := by
  rw [Store.copy] at found
  simp only [postContentGet, found]

theorem postContentGet_of_marked {id : PostId} (readDeleted : Bool)
    (absent : store.copy id = none) (marked : store.marked id = true) :
    postContentGet id readDeleted store =
      (if readDeleted then store.query id else none, store) := by
  rw [Store.copy] at absent
  rw [Store.marked] at marked
  simp only [postContentGet, absent, marked, Bool.and_true, if_true]
  cases readDeleted with
  | false => rfl
  | true => cases store.query id <;> rfl

theorem postContentGet_of_unmarked {id : PostId} (readDeleted : Bool)
    (absent : store.copy id = none) (unmarked : ¬store.marked id = true) :
    postContentGet id readDeleted store =
      (store.query id,
        (store.query id).elim store (store.write (postContentCacheFilename id))) := by
  rw [Store.copy] at absent
  rw [Store.marked, Bool.not_eq_true] at unmarked
  simp only [postContentGet, absent, unmarked, Bool.and_false, Bool.false_eq_true, if_false]
  cases store.query id <;> rfl

theorem Coherent.postContentGet_eq (coherent : Coherent stored store) {id : PostId}
    (member : id ∈ store.tables.ids) :
    (postContentGet id false store).1 =
      if id ∈ store.deletedIds then none else stored id := by
  have positive := coherent.positive id member
  have marks := coherent.marks id positive
  cases copy : store.copy id with
  | some str =>
    obtain ⟨storedEq, present⟩ := coherent.copies id positive str copy
    rw [postContentGet_of_copy false copy, if_neg present, storedEq]
  | none =>
    by_cases deleted : id ∈ store.deletedIds
    · rw [postContentGet_of_marked false copy (marks.mpr deleted), if_pos deleted]
      rfl
    · rw [postContentGet_of_unmarked false copy (mt marks.mp deleted), if_neg deleted]
      exact coherent.query_eq id

theorem Coherent.write_copy (coherent : Coherent stored store) {id : PostId}
    {str : CString} (storedEq : stored id = some str) (unmarked : ¬store.marked id = true) :
    Coherent stored (store.write (postContentCacheFilename id) str) := by
  have member : id ∈ store.tables.ids := (coherent.known id).mpr (by rw [storedEq]; rfl)
  have positive := coherent.positive id member
  refine ⟨coherent.rows, coherent.known, coherent.nodup, coherent.positive, ?_, ?_⟩
  · intro other otherPositive found copied
    rw [copy_write positive otherPositive] at copied
    by_cases here : other = id
    · rw [if_pos here, Option.some.injEq] at copied
      rw [here, ← copied]
      exact ⟨storedEq, mt (coherent.marks id positive).mpr unmarked⟩
    · rw [if_neg here] at copied
      exact coherent.copies other otherPositive found copied
  · intro other otherPositive
    rw [marked_write_copy positive]
    exact coherent.marks other otherPositive

/-- What a call does to the store: the ids of new posts come into the tables. -/
structure Effect (event : Event) (stored : PostId → Option CString)
    (before after : Store) : Prop where
  coherent : Coherent (storedAfter before.sequence stored event) after
  sequence : after.sequence = before.sequence + (readings (requestsOf [event])).length
  ids : after.tables.ids.Perm
    (insertedIds (requestsOf [event]) before.sequence ++ before.tables.ids)

/-- Reading keeps a copy of a post that is not deleted, and nothing else changes. -/
theorem postContentGet_effect (coherent : Coherent stored store) (id : PostId)
    (readDeleted : Bool) :
    Effect (.contentGet id readDeleted) stored store
      (postContentGet id readDeleted store).2 := by
  have same : Effect (.contentGet id readDeleted) stored store store :=
    ⟨coherent, rfl, List.Perm.refl _⟩
  cases copy : store.copy id with
  | some str =>
    rw [postContentGet_of_copy readDeleted copy]
    exact same
  | none =>
    by_cases marked : store.marked id = true
    · rw [postContentGet_of_marked readDeleted copy marked]
      exact same
    · rw [postContentGet_of_unmarked readDeleted copy marked, coherent.query_eq id]
      cases storedEq : stored id with
      | none => exact same
      | some str =>
        exact ⟨coherent.write_copy storedEq marked, rfl, List.Perm.refl _⟩

/-- A statement that changes the content of a post changes its own rows only. -/
theorem filter_updated (id other : PostId) (str : CString) (rows : List ContentRow) :
    (updated (fun row => row.postId == id) (fun row => { row with content := some str })
        rows).filter (fun row => row.postId == other) =
      if other = id then
        (rows.filter fun row => row.postId == id).map fun row =>
          { row with content := some str }
      else rows.filter fun row => row.postId == other := by
  induction rows with
  | nil => simp [updated]
  | cons row rows ih =>
    simp only [updated] at ih
    by_cases own : row.postId = id
    · by_cases here : other = id <;> simp_all [updated, eq_comm (a := id)]
    · by_cases here : other = id <;> simp_all [updated, List.filter_cons]

theorem postContentSet_effect (coherent : Coherent stored store) (id : PostId)
    (str : Option CString) :
    Effect (.contentSet id str) stored store (postContentSet id str store) := by
  cases str with
  | none => exact ⟨coherent, rfl, List.Perm.refl _⟩
  | some str =>
    let changed : Store := { store with
      contents := updated (fun row => row.postId == id)
        (fun row => { row with content := some str }) store.contents }
    let after := storedAfter store.sequence stored (.contentSet id (some str))
    have rows : ∀ other, (changed.rowsOf other).map (fun row => row.content.getD .empty) =
        (after other).toList := by
      intro other
      have filtered := filter_updated id other str store.contents
      rw [Store.rowsOf, filtered]
      by_cases here : other = id
      · have lengths := congrArg List.length (coherent.rows id)
        rw [List.length_map, Store.rowsOf] at lengths
        rw [if_pos here, here, List.map_map]
        simp only [after, storedAfter, Function.update_self]
        cases storedEq : stored id with
        | none =>
          rw [storedEq] at lengths
          rw [List.length_eq_zero_iff.mp lengths]
          rfl
        | some old =>
          rw [storedEq] at lengths
          obtain ⟨row, single⟩ := List.length_eq_one_iff.mp lengths
          rw [single]
          rfl
      · rw [if_neg here]
        simp only [after, storedAfter, Function.update_of_ne here]
        exact coherent.rows other
    have known : ∀ other, other ∈ store.tables.ids ↔ (after other).isSome := by
      intro other
      rw [coherent.known]
      by_cases here : other = id
      · simp [after, storedAfter, here]
      · simp [after, storedAfter, here]
    simp only [postContentSet]
    by_cases member : id ∈ store.tables.ids
    · have positive := coherent.positive id member
      rw [if_pos ((coherent.length_rowsOf id).mpr member)]
      refine ⟨⟨rows, known, coherent.nodup, coherent.positive, ?_, ?_⟩, rfl,
        List.Perm.refl _⟩
      · intro other otherPositive found copied
        rw [copy_unlink positive otherPositive] at copied
        by_cases here : other = id
        · rw [if_pos here] at copied
          cases copied
        · rw [if_neg here] at copied
          simp only [storedAfter, Function.update_of_ne here]
          exact coherent.copies other otherPositive found copied
      · intro other otherPositive
        rw [marked_unlink_copy positive]
        exact coherent.marks other otherPositive
    · have unchanged : after = stored := by
        simp only [after, storedAfter]
        rw [coherent.stored_eq_none member, Option.map_none, ← coherent.stored_eq_none member,
          Function.update_eq_self]
      rw [if_neg (mt (coherent.length_rowsOf id).mp member)]
      refine ⟨⟨rows, known, coherent.nodup, coherent.positive, ?_, coherent.marks⟩, rfl,
        List.Perm.refl _⟩
      intro other otherPositive found copied
      have kept := coherent.copies other otherPositive found copied
      rw [← unchanged] at kept
      exact kept

variable (ilike getBoardByBid) in
/-- A new post has a row, and neither a copy nor a mark. -/
theorem postNew_effect (coherent : Coherent stored store) {millis : Nat}
    (req : BackendRequestPostNew) (positive : 0 < millis) (small : millis < 2 ^ 42)
    (fresh : nextId millis (store.sequence + 1) ∉ store.tables.ids) :
    Effect (.backend (.postNew millis req)) stored store
      (handleRequest ilike getBoardByBid store (.postNew millis req)) := by
  have nonzero := nextId_ne_zero positive small (store.sequence + 1)
  have idPositive : 0 < nextId millis (store.sequence + 1) := by
    rw [Int64.lt_iff_toInt_lt, toInt_nextId small, Int64.toInt_zero]
    omega
  set id := nextId millis (store.sequence + 1) with idEq
  have ids : (insertPost id req store.tables).ids.Perm (id :: store.tables.ids) := by
    simp only [Tables.ids, insertPost, List.map_append, List.map_cons, List.map_nil,
      recentBeforeInsert_id, List.append_assoc, List.singleton_append]
    exact List.perm_middle
  have unknown := coherent.stored_eq_none fresh
  refine ⟨⟨?_, ?_, ?_, ?_, ?_, ?_⟩, rfl, ids⟩
  · intro other
    have rows := coherent.rows other
    simp only [Store.rowsOf] at rows ⊢
    simp only [handleRequest, ← idEq, if_pos nonzero, List.filter_append, List.map_append,
      rows, storedAfter]
    by_cases here : other = id
    · simp [here, unknown]
    · simp [here, Ne.symm here]
  · intro other
    simp only [handleRequest, ← idEq, storedAfter, ids.mem_iff, List.mem_cons]
    by_cases here : other = id
    · simp [here]
    · simp [here, coherent.known other]
  · exact ids.nodup_iff.mpr (List.nodup_cons.mpr ⟨fresh, coherent.nodup⟩)
  · intro other member
    rcases List.mem_cons.mp (ids.mem_iff.mp member) with rfl | old
    · exact idPositive
    · exact coherent.positive other old
  · intro other otherPositive str copied
    obtain ⟨storedEq, present⟩ := coherent.copies other otherPositive str copied
    have here : other ≠ id := by
      rintro rfl
      rw [unknown] at storedEq
      cases storedEq
    simp only [storedAfter, ← idEq, Function.update_of_ne here]
    exact ⟨storedEq, present⟩
  · exact coherent.marks

/-- What a `DELETE` keeps are the rows that it does not return, if their keys differ. -/
theorem mem_map_kept_iff {Row Key : Type*} {key : Row → Key} {selected : Row → Bool}
    {rows : List Row} (distinct : (rows.map key).Nodup) (value : Key) :
    value ∈ (kept selected rows).map key ↔
      value ∉ (removed selected rows).map key ∧ value ∈ rows.map key := by
  have parts : ((removed selected rows).map key ++ (kept selected rows).map key).Perm
      (rows.map key) :=
    append_removed_kept_perm key [] selected rows
  have disjoint := (List.nodup_append.mp (parts.nodup_iff.mpr distinct)).2.2
  rw [← parts.mem_iff, List.mem_append]
  constructor
  · intro keptValue
    exact ⟨fun removedValue => disjoint value removedValue value keptValue rfl, .inr keptValue⟩
  · rintro ⟨absent, removedValue | keptValue⟩
    · exact absurd removedValue absent
    · exact keptValue

/-- Deleting takes the copies of the deleted posts away and marks them. -/
theorem postDelete_effect (coherent : Coherent stored store) (now : Int64)
    (req : BackendRequestPostDelete) :
    Effect (.backend (.postDelete now req)) stored store
      (handleRequest ilike getBoardByBid store (.postDelete now req)) := by
  have moves := deleteRows_moves ilike getBoardByBid now req store.tables
  obtain ⟨selected, mark, markPost, rowsEq⟩ :=
    deleteRows_eq ilike getBoardByBid now req store.tables
  have markId : ∀ row, (mark row).post.id = row.id := fun row => by rw [markPost]; rfl
  let moved : List PostId := (removed selected store.tables.recent).map PostRow.id
  let started : Store :=
    { store with tables := (deleteRows ilike getBoardByBid now req store.tables).1 }
  have handled : handleRequest ilike getBoardByBid store (.postDelete now req) =
      moved.foldl removeCachedContent started := by
    simp only [handleRequest, started, moved, rowsEq, List.foldl_map, markId]
  have deletedIds : started.deletedIds = store.deletedIds ++ moved := by
    simp [Store.deletedIds, started, moved, rowsEq, Function.comp_def, markId]
  have movedPositive : ∀ id ∈ moved, 0 < id := by
    intro id member
    obtain ⟨row, removedRow, rfl⟩ := List.mem_map.mp member
    exact coherent.positive row.id (List.mem_append_left _
      (List.mem_map_of_mem (List.mem_of_mem_filter removedRow)))
  obtain ⟨tables, sequence, contents, files⟩ :=
    removeCachedContents_files movedPositive started
  have deletedAfter : (moved.foldl removeCachedContent started).deletedIds =
      store.deletedIds ++ moved := by
    rw [← deletedIds, Store.deletedIds, Store.deletedIds, tables]
  rw [handled]
  refine ⟨⟨?_, ?_, ?_, ?_, ?_, ?_⟩, sequence, ?_⟩
  · intro id
    rw [Store.rowsOf, contents]
    exact coherent.rows id
  · intro id
    rw [tables, moves.ids.mem_iff]
    exact coherent.known id
  · rw [tables, moves.ids.nodup_iff]
    exact coherent.nodup
  · intro id member
    rw [tables, moves.ids.mem_iff] at member
    exact coherent.positive id member
  · intro id idPositive str copied
    rw [(files id idPositive).1] at copied
    by_cases here : id ∈ moved
    · rw [if_pos here] at copied
      cases copied
    · rw [if_neg here] at copied
      obtain ⟨storedEq, present⟩ := coherent.copies id idPositive str copied
      rw [deletedAfter]
      exact ⟨storedEq, List.not_mem_append present here⟩
  · intro id idPositive
    have before := coherent.marks id idPositive
    rw [(files id idPositive).2, deletedAfter, Bool.or_eq_true, decide_eq_true_iff,
      List.mem_append, ← before, or_comm]
    rfl
  · rw [tables]
    exact moves.ids

variable (getBoardByBid) in
/-- Restoring takes the marks of the restored posts away. -/
theorem postUndelete_effect (coherent : Coherent stored store)
    (req : BackendRequestPostUndelete) :
    Effect (.backend (.postUndelete req)) stored store
      (handleRequest ilike getBoardByBid store (.postUndelete req)) := by
  have moves := undeletePosts_moves ilike req store.tables
  let selected := selectsDeleted ilike (buildPostFilter req.filter)
  let moved : List PostId :=
    (removed selected store.tables.deleted).reverse.map fun row => row.post.id
  have handled : handleRequest ilike getBoardByBid store (.postUndelete req) =
      { moved.foldl removeTombstone store with
        tables := undeletePosts ilike req store.tables } := by
    simp only [handleRequest, moved, List.foldl_map]
    rfl
  have deletedNodup : (store.tables.deleted.map fun row => row.post.id).Nodup :=
    (List.nodup_append.mp coherent.nodup).2.1
  have movedPositive : ∀ id ∈ moved, 0 < id := by
    intro id member
    obtain ⟨row, removedRow, rfl⟩ := List.mem_map.mp member
    exact coherent.positive row.post.id (List.mem_append_right _
      (List.mem_map_of_mem (List.mem_of_mem_filter (List.mem_reverse.mp removedRow))))
  obtain ⟨sequence, contents, files⟩ := removeTombstones_files movedPositive store
  have deletedAfter : ∀ id,
      id ∈ (kept selected store.tables.deleted).map (fun row => row.post.id) ↔
        id ∉ moved ∧ id ∈ store.deletedIds := by
    intro id
    simp only [moved, List.map_reverse, List.mem_reverse]
    exact mem_map_kept_iff deletedNodup id
  rw [handled]
  refine ⟨⟨?_, ?_, ?_, ?_, ?_, ?_⟩, sequence, moves.ids⟩
  · intro id
    rw [Store.rowsOf, contents]
    exact coherent.rows id
  · intro id
    rw [moves.ids.mem_iff]
    exact coherent.known id
  · exact moves.ids.nodup_iff.mpr coherent.nodup
  · intro id member
    exact coherent.positive id (moves.ids.mem_iff.mp member)
  · intro id idPositive str copied
    have copyBefore : store.copy id = some str := (files id idPositive).1.symm.trans copied
    obtain ⟨storedEq, present⟩ := coherent.copies id idPositive str copyBefore
    exact ⟨storedEq, fun member => present ((deletedAfter id).mp member).2⟩
  · intro id idPositive
    have before := coherent.marks id idPositive
    have marked := (files id idPositive).2
    rw [Store.marked] at marked ⊢
    rw [marked, Bool.and_eq_true, Bool.not_eq_true', decide_eq_false_iff_not, before]
    exact (deletedAfter id).symm

/-- Every call keeps the store coherent. -/
theorem handleEvent_effect (coherent : Coherent stored store) {event : Event}
    (clock : ∀ millis ∈ readings (requestsOf [event]), 0 < millis ∧ millis < 2 ^ 42)
    (fresh : ∀ id ∈ insertedIds (requestsOf [event]) store.sequence,
      id ∉ store.tables.ids) :
    Effect event stored store (handleEvent ilike getBoardByBid store event) := by
  cases event with
  | backend request =>
    cases request with
    | postNew millis req =>
      obtain ⟨positive, small⟩ := clock millis List.mem_cons_self
      exact postNew_effect ilike getBoardByBid coherent req positive small
        (fresh _ List.mem_cons_self)
    | postDelete now req => exact postDelete_effect coherent now req
    | postUndelete req => exact postUndelete_effect getBoardByBid coherent req
  | contentSet id str => exact postContentSet_effect coherent id str
  | contentGet id readDeleted => exact postContentGet_effect coherent id readDeleted

theorem readings_requestsOf_cons (event : Event) (events : List Event) :
    readings (requestsOf (event :: events)) =
      readings (requestsOf [event]) ++ readings (requestsOf events) := by
  cases event with
  | backend request => exact readings_cons request _
  | contentSet id str => rfl
  | contentGet id readDeleted => rfl

theorem insertedIds_requestsOf_cons (event : Event) (events : List Event) (value : Nat) :
    insertedIds (requestsOf (event :: events)) value =
      insertedIds (requestsOf [event]) value ++
        insertedIds (requestsOf events)
          (value + (readings (requestsOf [event])).length) := by
  cases event with
  | backend request => exact insertedIds_cons request _ value
  | contentSet id str => rfl
  | contentGet id readDeleted => rfl

variable (ilike getBoardByBid) in
/-- Every history keeps the store coherent, and its new posts are in the tables. -/
theorem history_coherent {events : List Event} (coherent : Coherent stored store)
    (clock : ∀ millis ∈ readings (requestsOf events), 0 < millis ∧ millis < 2 ^ 42)
    (distinct : (insertedIds (requestsOf events) store.sequence ++
      store.tables.ids).Nodup) :
    Coherent (lastStored events store.sequence stored)
        (events.foldl (handleEvent ilike getBoardByBid) store) ∧
      (events.foldl (handleEvent ilike getBoardByBid) store).tables.ids.Perm
        (insertedIds (requestsOf events) store.sequence ++ store.tables.ids) := by
  induction events generalizing stored store with
  | nil => exact ⟨coherent, List.Perm.refl _⟩
  | cons event events ih =>
    rw [readings_requestsOf_cons, List.forall_mem_append] at clock
    rw [insertedIds_requestsOf_cons] at distinct ⊢
    have fresh : ∀ id ∈ insertedIds (requestsOf [event]) store.sequence,
        id ∉ store.tables.ids := by
      intro id member old
      exact (List.nodup_append.mp distinct).2.2 id (List.mem_append_left _ member) id old rfl
    have effect : Effect event stored store (handleEvent ilike getBoardByBid store event) :=
      handleEvent_effect coherent clock.1 fresh
    have rearranged : (insertedIds (requestsOf events)
          (store.sequence + (readings (requestsOf [event])).length) ++
        (handleEvent ilike getBoardByBid store event).tables.ids).Perm
        ((insertedIds (requestsOf [event]) store.sequence ++
          insertedIds (requestsOf events)
            (store.sequence + (readings (requestsOf [event])).length)) ++
          store.tables.ids) := by
      refine (effect.ids.append_left _).trans ?_
      rw [← List.append_assoc]
      exact List.perm_append_comm.append_right _
    rw [← effect.sequence] at rearranged distinct ⊢
    obtain ⟨final, ids⟩ := ih effect.coherent clock.2 (rearranged.nodup_iff.mpr distinct)
    rw [lastStored, ← effect.sequence]
    exact ⟨final, ids.trans rearranged⟩

end Histories

/-- After every history of calls, reading a post gives nothing if the post is
deleted, and otherwise the content most recently stored for it. -/
theorem postContentGet_after_history (ilike : CString → CString → Bool)
    (getBoardByBid : Int32 → Option Board) (sequence : Nat) (events : List Event)
    (clock : Clock (readings (requestsOf events))) (id : PostId)
    (posted : id ∈ insertedIds (requestsOf events) sequence) :
    ∃ str, lastStored events sequence (fun _ => none) id = some str ∧
      (postContentGet id false
          (events.foldl (handleEvent ilike getBoardByBid) (Store.empty sequence))).1 =
        if id ∈ (events.foldl (handleEvent ilike getBoardByBid)
            (Store.empty sequence)).deletedIds
        then none else some str := by
  have distinct : (insertedIds (requestsOf events) (Store.empty sequence).sequence ++
      (Store.empty sequence).tables.ids).Nodup := by
    rw [List.nodup_append]
    exact ⟨insertedIds_nodup clock sequence, List.nodup_nil, by simp [Store.empty, Tables.ids]⟩
  obtain ⟨coherent, ids⟩ := history_coherent ilike getBoardByBid (empty_coherent sequence)
    clock.range distinct
  have member := ids.mem_iff.mpr (List.mem_append_left _ posted)
  obtain ⟨str, storedEq⟩ := Option.isSome_iff_exists.mp ((coherent.known id).mp member)
  have storedEq : lastStored events sequence (fun _ => none) id = some str := storedEq
  refine ⟨str, storedEq, ?_⟩
  rw [coherent.postContentGet_eq member, ← storedEq]
  rfl

/-- A post that is read, deleted, changed and restored. -/
def sampleHistory (id : PostId) : List Event :=
  [.backend (.postNew 1 samplePost), .contentGet id false,
    .backend (.postDelete 0 ⟨sampleFilter 0, true, true, false, 9, none⟩),
    .contentGet id true, .contentSet id (some sampleName),
    .backend (.postUndelete ⟨sampleFilter 8, true⟩)]

theorem postContentGet_after_history_sample :
    (postContentGet 2097153 false ((sampleHistory 2097153).foldl
      (handleEvent (fun _ _ => false) fun _ => some ⟨0⟩) (Store.empty 0))).1 =
      some sampleName := by
  have clock : Clock (readings (requestsOf (sampleHistory 2097153))) :=
    ⟨by decide, by decide, by simp [sampleHistory, requestsOf, readings]⟩
  obtain ⟨str, stored, read⟩ := postContentGet_after_history (fun _ _ => false)
    (fun _ => some ⟨0⟩) 0 (sampleHistory 2097153) clock 2097153 List.mem_cons_self
  have last : lastStored (sampleHistory 2097153) 0 (fun _ => none) 2097153 =
      some sampleName := rfl
  have restored : (2097153 : PostId) ∉ ((sampleHistory 2097153).foldl
      (handleEvent (fun _ _ => false) fun _ => some ⟨0⟩) (Store.empty 0)).deletedIds := by
    decide
  rw [read, if_neg restored, ← stored, last]

end PostContents

end Fbbs
