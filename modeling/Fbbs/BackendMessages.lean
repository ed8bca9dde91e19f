import Fbbs.ParcelRoundTrip

/-!
# Messages between front end and backend

`util/serialization_codegen` turns every struct of `fbbs/post.h` marked
`@frontend` or `@backend` into a `serialize_` and a `deserialize_` function
that treat the fields in order.  A `Layout` records what it generates for one
struct: the sequence of values that is written and the reads that rebuild the
struct.
-/

namespace Fbbs

abbrev PostId := Int64
abbrev UserId := Int32

/-- A `char` array of `size` bytes that holds a terminated string. -/
structure CharArray (size : Nat) where
  str : CString
  fits : str.bytes.length < size
  deriving DecidableEq

/-- `POST_LIST_KEYWORD_LEN * 4 + 1`, the size of `utf8_keyword`. -/
def keywordSize : Nat := 77

structure PostFilter where
  type : Int32
  bid : Int32
  flag : Int32
  uid : UserId
  min : PostId
  max : PostId
  tid : PostId
  offsetMin : Int32
  offsetMax : Int32
  archive : Bool
  utf8Keyword : CharArray keywordSize
  deriving DecidableEq

structure BackendRequestPostNew where
  replyId : PostId
  threadId : PostId
  title : Option CString
  userName : Option CString
  boardName : Option CString
  content : Option CString
  userId : UserId
  userIdReplied : UserId
  boardId : Int32
  marked : Bool
  locked : Bool
  hideUserId : Bool
  anonymous : Bool
  deriving DecidableEq

structure BackendRequestPostDelete where
  filter : PostFilter
  junk : Bool
  bmVisible : Bool
  force : Bool
  userId : UserId
  userName : Option CString
  deriving DecidableEq

structure BackendRequestPostUndelete where
  filter : PostFilter
  bmVisible : Bool
  deriving DecidableEq

structure BackendRequestPostSetFlag where
  filter : PostFilter
  flag : Int32
  set : Bool
  toggle : Bool
  deriving DecidableEq

structure BackendRequestPostAlterTitle where
  boardId : Int32
  postId : PostId
  title : Option CString
  deriving DecidableEq

structure BackendResponsePostNew where
  id : PostId
  deriving DecidableEq

structure BackendResponsePostDelete where
  deleted : Int32
  deriving DecidableEq

structure BackendResponsePostUndelete where
  undeleted : Int32
  deriving DecidableEq

structure BackendResponsePostSetFlag where
  affected : Int32
  deriving DecidableEq

structure BackendResponsePostAlterTitle where
  ok : Bool
  deriving DecidableEq

namespace Message

open Parcel

/-- The generated functions of one struct.  `ofValues` is `none` only where
the generated code dereferences a null pointer. -/
structure Layout (Struct : Type) where
  kinds : List Kind
  toValues : Struct → List Value
  ofValues : List Value → Option Struct
  kinds_toValues : ∀ struct, (toValues struct).map Value.kind = kinds
  ofValues_toValues : ∀ struct, ofValues (toValues struct) = some struct

def serialize {Struct : Type} (layout : Layout Struct) (alloc : Nat → Bool)
    (struct : Struct) (parcel : Out) : Option Out :=
  writeAll alloc (layout.toValues struct) parcel

def deserialize {Struct : Type} (layout : Layout Struct) (parcel : In) :
    Option Struct × In :=
  (readAll layout.kinds parcel).map layout.ofValues id

def putBool (val : Bool) : Value := .bool val
def putInt (val : Int32) : Value := .int val.toBitVec
def putPostId (val : PostId) : Value := .varint64 val.toBitVec
def putUserId (val : UserId) : Value := .varint val.toBitVec
def putString (val : Option CString) : Value := .string val
def putCharArray {size : Nat} (val : CharArray size) : Value :=
  .string (some val.str)

theorem length_truncate_lt {size : Nat} (positive : 0 < size) (str : CString) :
    (str.truncate size).bytes.length < size := by
  simp only [CString.truncate, List.length_take]
  omega

/-- `strlcpy` into the array. -/
def getCharArray (size : Nat) (positive : 0 < size) (str : CString) :
    CharArray size where
  str := str.truncate size
  fits := length_truncate_lt positive str

theorem getCharArray_str {size : Nat} (positive : 0 < size)
    (array : CharArray size) : getCharArray size positive array.str = array := by
  rcases array with ⟨str, fits⟩
  simp only [getCharArray, CharArray.mk.injEq]
  apply CString.ext
  simp only [CString.truncate]
  exact List.take_of_length_le (by omega)

/-- `serialize_post_filter` and `deserialize_post_filter`. -/
def postFilter : Layout PostFilter where
  kinds := [.int, .int, .int, .varint, .varint64, .varint64, .varint64, .int,
    .int, .bool, .string]
  toValues r := [putInt r.type, putInt r.bid, putInt r.flag, putUserId r.uid,
    putPostId r.min, putPostId r.max, putPostId r.tid, putInt r.offsetMin,
    putInt r.offsetMax, putBool r.archive, putCharArray r.utf8Keyword]
  ofValues
    | [.int type, .int bid, .int flag, .varint uid, .varint64 min,
        .varint64 max, .varint64 tid, .int offsetMin, .int offsetMax,
        .bool archive, .string (some keyword)] =>
        some
          { type := ⟨⟨type⟩⟩, bid := ⟨⟨bid⟩⟩, flag := ⟨⟨flag⟩⟩, uid := ⟨⟨uid⟩⟩
            min := ⟨⟨min⟩⟩, max := ⟨⟨max⟩⟩, tid := ⟨⟨tid⟩⟩
            offsetMin := ⟨⟨offsetMin⟩⟩, offsetMax := ⟨⟨offsetMax⟩⟩
            archive := archive
            utf8Keyword := getCharArray keywordSize (by decide) keyword }
    | _ => none
  kinds_toValues _ := rfl
  ofValues_toValues r := by
    have keyword := getCharArray_str (by decide) r.utf8Keyword
    change some { r with utf8Keyword := getCharArray _ _ r.utf8Keyword.str } = some r
    rw [keyword]

/-- `serialize_post_new` of the front end. -/
def requestPostNew : Layout BackendRequestPostNew where
  kinds := [.varint64, .varint64, .string, .string, .string, .string, .varint,
    .varint, .int, .bool, .bool, .bool, .bool]
  toValues r := [putPostId r.replyId, putPostId r.threadId, putString r.title,
    putString r.userName, putString r.boardName, putString r.content,
    putUserId r.userId, putUserId r.userIdReplied, putInt r.boardId,
    putBool r.marked, putBool r.locked, putBool r.hideUserId,
    putBool r.anonymous]
  ofValues
    | [.varint64 replyId, .varint64 threadId, .string title, .string userName,
        .string boardName, .string content, .varint userId,
        .varint userIdReplied, .int boardId, .bool marked, .bool locked,
        .bool hideUserId, .bool anonymous] =>
        some
          { replyId := ⟨⟨replyId⟩⟩, threadId := ⟨⟨threadId⟩⟩, title := title
            userName := userName, boardName := boardName, content := content
            userId := ⟨⟨userId⟩⟩, userIdReplied := ⟨⟨userIdReplied⟩⟩
            boardId := ⟨⟨boardId⟩⟩, marked := marked, locked := locked
            hideUserId := hideUserId, anonymous := anonymous }
    | _ => none
  kinds_toValues _ := rfl
  ofValues_toValues _ := rfl

/-- A struct whose first field points to a filter: `serialize_post_filter` runs
first, then the remaining fields. -/
def withFilter {Struct : Type} (kinds : List Kind) (filter : Struct → PostFilter)
    (toValues : Struct → List Value)
    (ofValues : PostFilter → List Value → Option Struct)
    (kinds_toValues : ∀ struct, (toValues struct).map Value.kind = kinds)
    (ofValues_toValues : ∀ struct,
      ofValues (filter struct) (toValues struct) = some struct) :
    Layout Struct where
  kinds := postFilter.kinds ++ kinds
  toValues r := postFilter.toValues (filter r) ++ toValues r
  ofValues values := do
    let filter ← postFilter.ofValues (values.take postFilter.kinds.length)
    ofValues filter (values.drop postFilter.kinds.length)
  kinds_toValues r := by
    rw [List.map_append, postFilter.kinds_toValues, kinds_toValues]
  ofValues_toValues r := by
    have lengthEq : postFilter.kinds.length =
        (postFilter.toValues (filter r)).length := rfl
    rw [lengthEq, List.take_left, List.drop_left, postFilter.ofValues_toValues]
    exact ofValues_toValues r

def requestPostDelete : Layout BackendRequestPostDelete :=
  withFilter [.bool, .bool, .bool, .varint, .string] (·.filter)
    (fun r => [putBool r.junk, putBool r.bmVisible, putBool r.force,
      putUserId r.userId, putString r.userName])
    (fun filter values =>
      match values with
      | [.bool junk, .bool bmVisible, .bool force, .varint userId,
          .string userName] =>
          some
            { filter := filter, junk := junk, bmVisible := bmVisible
              force := force, userId := ⟨⟨userId⟩⟩, userName := userName }
      | _ => none)
    (fun _ => rfl) (fun _ => rfl)

def requestPostUndelete : Layout BackendRequestPostUndelete :=
  withFilter [.bool] (·.filter) (fun r => [putBool r.bmVisible])
    (fun filter values =>
      match values with
      | [.bool bmVisible] => some { filter := filter, bmVisible := bmVisible }
      | _ => none)
    (fun _ => rfl) (fun _ => rfl)

def requestPostSetFlag : Layout BackendRequestPostSetFlag :=
  withFilter [.int, .bool, .bool] (·.filter)
    (fun r => [putInt r.flag, putBool r.set, putBool r.toggle])
    (fun filter values =>
      match values with
      | [.int flag, .bool set, .bool toggle] =>
        some { filter := filter, flag := ⟨⟨flag⟩⟩, set := set, toggle := toggle }
      | _ => none)
    (fun _ => rfl) (fun _ => rfl)

def requestPostAlterTitle : Layout BackendRequestPostAlterTitle where
  kinds := [.int, .varint64, .string]
  toValues r := [putInt r.boardId, putPostId r.postId, putString r.title]
  ofValues
    | [.int boardId, .varint64 postId, .string title] =>
      some { boardId := ⟨⟨boardId⟩⟩, postId := ⟨⟨postId⟩⟩, title := title }
    | _ => none
  kinds_toValues _ := rfl
  ofValues_toValues _ := rfl

def responsePostNew : Layout BackendResponsePostNew where
  kinds := [.varint64]
  toValues r := [putPostId r.id]
  ofValues
    | [.varint64 id] => some { id := ⟨⟨id⟩⟩ }
    | _ => none
  kinds_toValues _ := rfl
  ofValues_toValues _ := rfl

def responsePostDelete : Layout BackendResponsePostDelete where
  kinds := [.int]
  toValues r := [putInt r.deleted]
  ofValues
    | [.int deleted] => some { deleted := ⟨⟨deleted⟩⟩ }
    | _ => none
  kinds_toValues _ := rfl
  ofValues_toValues _ := rfl

def responsePostUndelete : Layout BackendResponsePostUndelete where
  kinds := [.int]
  toValues r := [putInt r.undeleted]
  ofValues
    | [.int undeleted] => some { undeleted := ⟨⟨undeleted⟩⟩ }
    | _ => none
  kinds_toValues _ := rfl
  ofValues_toValues _ := rfl

def responsePostSetFlag : Layout BackendResponsePostSetFlag where
  kinds := [.int]
  toValues r := [putInt r.affected]
  ofValues
    | [.int affected] => some { affected := ⟨⟨affected⟩⟩ }
    | _ => none
  kinds_toValues _ := rfl
  ofValues_toValues _ := rfl

def responsePostAlterTitle : Layout BackendResponsePostAlterTitle where
  kinds := [.bool]
  toValues r := [putBool r.ok]
  ofValues
    | [.bool ok] => some { ok := ok }
    | _ => none
  kinds_toValues _ := rfl
  ofValues_toValues _ := rfl

/-- The structs that carry an `@frontend` or `@backend` mark. -/
inductive Name
  | postFilter
  | requestPostNew
  | responsePostNew
  | requestPostDelete
  | responsePostDelete
  | requestPostUndelete
  | responsePostUndelete
  | requestPostSetFlag
  | responsePostSetFlag
  | requestPostAlterTitle
  | responsePostAlterTitle

def Name.Struct : Name → Type
  | .postFilter => PostFilter
  | .requestPostNew => BackendRequestPostNew
  | .responsePostNew => BackendResponsePostNew
  | .requestPostDelete => BackendRequestPostDelete
  | .responsePostDelete => BackendResponsePostDelete
  | .requestPostUndelete => BackendRequestPostUndelete
  | .responsePostUndelete => BackendResponsePostUndelete
  | .requestPostSetFlag => BackendRequestPostSetFlag
  | .responsePostSetFlag => BackendResponsePostSetFlag
  | .requestPostAlterTitle => BackendRequestPostAlterTitle
  | .responsePostAlterTitle => BackendResponsePostAlterTitle

def Name.layout : (name : Name) → Layout name.Struct
  | .postFilter => Message.postFilter
  | .requestPostNew => Message.requestPostNew
  | .responsePostNew => Message.responsePostNew
  | .requestPostDelete => Message.requestPostDelete
  | .responsePostDelete => Message.responsePostDelete
  | .requestPostUndelete => Message.requestPostUndelete
  | .responsePostUndelete => Message.responsePostUndelete
  | .requestPostSetFlag => Message.requestPostSetFlag
  | .responsePostSetFlag => Message.responsePostSetFlag
  | .requestPostAlterTitle => Message.requestPostAlterTitle
  | .responsePostAlterTitle => Message.responsePostAlterTitle

/-- The generated functions consume what they produce, wherever the struct
stands in a parcel. -/
theorem deserialize_at {Struct : Type} (layout : Layout Struct)
    (struct : Struct) {parcel : In} {done rest : Bytes}
    (here : At parcel done (encodeAll (layout.toValues struct) ++ rest)) :
    ∃ after, deserialize layout parcel = (some struct, after) ∧
      At after (done ++ encodeAll (layout.toValues struct)) rest := by
  obtain ⟨after, readEq, afterAt⟩ := readAll_at (layout.toValues struct) here
  rw [layout.kinds_toValues] at readEq
  refine ⟨after, ?_, afterAt⟩
  simp [deserialize, readEq, layout.ofValues_toValues]

/-- Writing values into a fresh parcel and reading the produced bytes. -/
theorem writeAll_readAll {alloc : Nat → Bool}
    (allocated : ∀ capacity ≤ 2 ^ 63, alloc capacity = true)
    (beyond : Nat → UInt8) (values : List Value)
    (fits : (encodeAll values).length ≤ 2 ^ 63) :
    ∃ out, writeAll alloc values (parcelNew alloc) = some out ∧
      out.error = false ∧ out.contents = some (encodeAll values) ∧
      ∃ after, readAll (values.map Value.kind)
          (parcelReadNew beyond (encodeAll values)) = (values, after) ∧
        parcelOk after = true ∧ after.size = (encodeAll values).length := by
  obtain ⟨out, writeEq, holds⟩ :=
    writeAll_spec allocated values (parcelNew_holds allocated)
      (by simpa using fits)
  have contents : out.contents = some (encodeAll values) := by
    rw [Out.contents, holds.ptr, holds.size, Option.map_some, List.take_length,
      List.nil_append]
  have bounded : (encodeAll values).length < sizeModulus :=
    lt_of_le_of_lt fits (by decide)
  exact ⟨out, writeEq, holds.noError, contents,
    readAll_encodeAll beyond values bounded⟩

/-- Every sequence of typed values, and every marked struct, is read back from
the bytes that were written for it, the cursor ending at the last byte. -/
theorem parcel_round_trip {alloc : Nat → Bool}
    (allocated : ∀ capacity ≤ 2 ^ 63, alloc capacity = true)
    (beyond : Nat → UInt8) :
    (∀ values : List Value, (encodeAll values).length ≤ 2 ^ 63 →
      ∃ out bytes, writeAll alloc values (parcelNew alloc) = some out ∧
        out.error = false ∧ out.contents = some bytes ∧
        ∃ after, readAll (values.map Value.kind) (parcelReadNew beyond bytes) =
            (values, after) ∧
          parcelOk after = true ∧ after.size = bytes.length) ∧
    (∀ (name : Name) (struct : name.Struct),
      (encodeAll (name.layout.toValues struct)).length ≤ 2 ^ 63 →
      ∃ out bytes, serialize name.layout alloc struct (parcelNew alloc) = some out ∧
        out.error = false ∧ out.contents = some bytes ∧
        ∃ after, deserialize name.layout (parcelReadNew beyond bytes) =
            (some struct, after) ∧
          parcelOk after = true ∧ after.size = bytes.length) := by
  constructor
  · intro values fits
    obtain ⟨out, writeEq, noError, contents, readBack⟩ :=
      writeAll_readAll allocated beyond values fits
    exact ⟨out, _, writeEq, noError, contents, readBack⟩
  · intro name struct fits
    obtain ⟨out, writeEq, noError, contents, after, readEq, ok, atEnd⟩ :=
      writeAll_readAll allocated beyond _ fits
    rw [name.layout.kinds_toValues] at readEq
    refine ⟨out, _, writeEq, noError, contents, after, ?_, ok, atEnd⟩
    simp [deserialize, readEq, name.layout.ofValues_toValues]

theorem parcel_round_trip_extremes :
    ∃ out bytes, writeAll (fun _ => true)
        [.varint (BitVec.intMin 32), .varint64 (BitVec.intMin 64),
          .varuint64 (BitVec.allOnes 64), .string none, .string (some .empty)]
        (parcelNew fun _ => true) = some out ∧
      out.error = false ∧ out.contents = some bytes ∧
      ∃ after, readAll [.varint, .varint64, .varuint64, .string, .string]
          (parcelReadNew (fun _ => 0) bytes) =
          ([.varint (BitVec.intMin 32), .varint64 (BitVec.intMin 64),
            .varuint64 (BitVec.allOnes 64), .string none, .string (some .empty)],
            after) ∧
        parcelOk after = true ∧ after.size = bytes.length :=
  (parcel_round_trip (fun _ _ => rfl) (fun _ => 0)).1 _ (by decide)

end Message

end Fbbs
