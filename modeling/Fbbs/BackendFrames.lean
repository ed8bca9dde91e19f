import Fbbs.BackendMessages

/-!
# Request and answer frames

The byte strings that travel through the redis lists.  A request starts with
its type and the pid of its sender, an answer with a success flag and the type;
both sides parse the frame before they deserialize the struct behind it.  An
unsuccessful answer is the single byte that `backend_respond_error` writes.
-/

namespace Fbbs

open Parcel Message

inductive Request
  | postNew (request : BackendRequestPostNew)
  | postDelete (request : BackendRequestPostDelete)
  | postUndelete (request : BackendRequestPostUndelete)
  | postSetFlag (request : BackendRequestPostSetFlag)
  | postAlterTitle (request : BackendRequestPostAlterTitle)
  deriving DecidableEq

inductive Response
  | postNew (response : BackendResponsePostNew)
  | postDelete (response : BackendResponsePostDelete)
  | postUndelete (response : BackendResponsePostUndelete)
  | postSetFlag (response : BackendResponsePostSetFlag)
  | postAlterTitle (response : BackendResponsePostAlterTitle)
  deriving DecidableEq

/-- `backend_request_e`. -/
inductive RequestType
  | postNew
  | postDelete
  | postUndelete
  | postSetFlag
  | postAlterTitle
  deriving DecidableEq

def RequestType.code : RequestType → BitVec 32
  | .postNew => 1
  | .postDelete => 2
  | .postUndelete => 3
  | .postSetFlag => 4
  | .postAlterTitle => 5

/-- The entries of the handler table; index 0 is empty. -/
def RequestType.ofCode (code : BitVec 32) : Option RequestType :=
  if code = 1 then some .postNew
  else if code = 2 then some .postDelete
  else if code = 3 then some .postUndelete
  else if code = 4 then some .postSetFlag
  else if code = 5 then some .postAlterTitle
  else none

@[simp]
theorem RequestType.ofCode_code (type : RequestType) :
    RequestType.ofCode type.code = some type := by
  cases type <;> rfl

theorem RequestType.code_injective : Function.Injective RequestType.code := by
  intro first second equal
  have := congrArg RequestType.ofCode equal
  simpa using this

def Request.type : Request → RequestType
  | .postNew _ => .postNew
  | .postDelete _ => .postDelete
  | .postUndelete _ => .postUndelete
  | .postSetFlag _ => .postSetFlag
  | .postAlterTitle _ => .postAlterTitle

def Response.type : Response → RequestType
  | .postNew _ => .postNew
  | .postDelete _ => .postDelete
  | .postUndelete _ => .postUndelete
  | .postSetFlag _ => .postSetFlag
  | .postAlterTitle _ => .postAlterTitle

def Request.toValues : Request → List Value
  | .postNew request => requestPostNew.toValues request
  | .postDelete request => requestPostDelete.toValues request
  | .postUndelete request => requestPostUndelete.toValues request
  | .postSetFlag request => requestPostSetFlag.toValues request
  | .postAlterTitle request => requestPostAlterTitle.toValues request

def Response.toValues : Response → List Value
  | .postNew response => responsePostNew.toValues response
  | .postDelete response => responsePostDelete.toValues response
  | .postUndelete response => responsePostUndelete.toValues response
  | .postSetFlag response => responsePostSetFlag.toValues response
  | .postAlterTitle response => responsePostAlterTitle.toValues response

/-- The `deserialize_` function that the backend's handler for `type` calls. -/
def deserializeRequest (type : RequestType) (parcel : In) : Option Request × In :=
  match type with
  | .postNew => (deserialize requestPostNew parcel).map (·.map .postNew) id
  | .postDelete => (deserialize requestPostDelete parcel).map (·.map .postDelete) id
  | .postUndelete =>
    (deserialize requestPostUndelete parcel).map (·.map .postUndelete) id
  | .postSetFlag =>
    (deserialize requestPostSetFlag parcel).map (·.map .postSetFlag) id
  | .postAlterTitle =>
    (deserialize requestPostAlterTitle parcel).map (·.map .postAlterTitle) id

/-- The `deserialize_` function that the front end passes for `type`. -/
def deserializeResponse (type : RequestType) (parcel : In) : Option Response × In :=
  match type with
  | .postNew => (deserialize responsePostNew parcel).map (·.map .postNew) id
  | .postDelete => (deserialize responsePostDelete parcel).map (·.map .postDelete) id
  | .postUndelete =>
    (deserialize responsePostUndelete parcel).map (·.map .postUndelete) id
  | .postSetFlag =>
    (deserialize responsePostSetFlag parcel).map (·.map .postSetFlag) id
  | .postAlterTitle =>
    (deserialize responsePostAlterTitle parcel).map (·.map .postAlterTitle) id

/-- What a request frame contains, in order. -/
def requestValues (pid : Int32) (request : Request) : List Value :=
  .varint request.type.code :: .varint pid.toBitVec :: request.toValues

/-- `backend_request` up to the push: `none` when the parcel is in error. -/
def requestBytes (alloc : Nat → Bool) (pid : Int32) (request : Request) :
    Option Bytes := do
  let parcelOut ← parcelWriteVarint alloc request.type.code (parcelNew alloc)
  let parcelOut ← parcelWriteVarint alloc pid.toBitVec parcelOut
  let parcelOut ← writeAll alloc request.toValues parcelOut
  if parcelOut.error then none else parcelOut.contents

/-- A parsed request: the channel to answer on, and the request if a handler
could deserialize it. -/
structure ParsedRequest where
  channel : Int32
  request : Option Request
  deriving DecidableEq

/-- The backend's main loop up to the handler's own work. -/
def parseRequest (beyond : Nat → UInt8) (bytes : Bytes) : ParsedRequest :=
  let (type, parcelIn) := parcelReadVarint (parcelReadNew beyond bytes)
  let (channel, parcelIn) := parcelReadVarint parcelIn
  { channel := ⟨⟨channel⟩⟩
    request :=
      if parcelOk parcelIn then do
        let type ← RequestType.ofCode type
        let (request, parcelIn) := deserializeRequest type parcelIn
        if parcelOk parcelIn then request else none
      else none }

/-- What a successful answer contains, in order. -/
def responseValues (response : Response) : List Value :=
  .bool true :: .varint response.type.code :: response.toValues

/-- The frame of a successful answer. -/
def successBytes (alloc : Nat → Bool) (response : Response) : Option Bytes := do
  let parcelOut ← parcelWriteBool alloc true (parcelNew alloc)
  let parcelOut ← parcelWriteVarint alloc response.type.code parcelOut
  let parcelOut ← writeAll alloc response.toValues parcelOut
  parcelOut.contents

/-- The frame that `backend_respond_error` leaves in a cleared parcel. -/
def errorBytes (alloc : Nat → Bool) : Option Bytes :=
  (parcelWriteBool alloc false (parcelClear (parcelNew alloc))).bind Out.contents

/-- `backend_request` after the pop: the response if the call returns true. -/
def interpretAnswer (beyond : Nat → UInt8) (type : RequestType) (bytes : Bytes) :
    Option Response :=
  let (ok, parcelIn) := parcelReadVarint (parcelReadNew beyond bytes)
  let (responseType, parcelIn) := parcelReadVarint parcelIn
  if parcelOk parcelIn ∧ ok ≠ 0 ∧ responseType = type.code then
    let (response, parcelIn) := deserializeResponse type parcelIn
    if parcelOk parcelIn then response else none
  else none

theorem encodeVaruint64_length (val : BitVec 64) :
    (encodeVaruint64 val).length ≤ 10 :=
  WordEncodings.Base128.groups_length_le varuint64BufSize val.toNat

/-- An answer is short: a flag, a type and one number. -/
theorem responseValues_length (response : Response) :
    (encodeAll (responseValues response)).length ≤ 21 := by
  have type := encodeVaruint64_length
    ((WordEncodings.ZigZag.encode response.type.code).setWidth 64)
  rcases response with response | response | response | response | response
  · have id := encodeVaruint64_length
      (WordEncodings.ZigZag.encode response.id.toBitVec)
    simp [encodeAll, responseValues, encode, Response.toValues, responsePostNew,
      putPostId]
    omega
  all_goals
    simp [encodeAll, responseValues, encode, Response.toValues,
      responsePostDelete, responsePostUndelete, responsePostSetFlag,
      responsePostAlterTitle, putInt, putBool]
    omega

section Writing

variable {alloc : Nat → Bool}
variable (allocated : ∀ capacity ≤ 2 ^ 63, alloc capacity = true)

include allocated

theorem writeAll_contents (values : List Value)
    (fits : (encodeAll values).length ≤ 2 ^ 63) :
    ∃ out, writeAll alloc values (parcelNew alloc) = some out ∧
      out.error = false ∧ out.contents = some (encodeAll values) := by
  obtain ⟨out, writeEq, noError, contents, -⟩ :=
    writeAll_readAll allocated (fun _ => 0) values fits
  exact ⟨out, writeEq, noError, contents⟩

theorem requestBytes_eq (pid : Int32) (request : Request)
    (fits : (encodeAll (requestValues pid request)).length ≤ 2 ^ 63) :
    requestBytes alloc pid request =
      some (encodeAll (requestValues pid request)) := by
  obtain ⟨out, writeEq, noError, contents⟩ :=
    writeAll_contents allocated (requestValues pid request) fits
  have asBind : requestBytes alloc pid request =
      (writeAll alloc (requestValues pid request) (parcelNew alloc)).bind
        fun out => if out.error then none else out.contents := by
    simp only [requestBytes, requestValues, writeAll, write, Option.bind_assoc]
    rfl
  rw [asBind, writeEq, Option.bind_some, if_neg (by simp [noError]), contents]

theorem successBytes_eq (response : Response) :
    successBytes alloc response = some (encodeAll (responseValues response)) := by
  obtain ⟨out, writeEq, noError, contents⟩ :=
    writeAll_contents allocated (responseValues response) 
      (le_trans (responseValues_length response) (by decide))
  have asBind : successBytes alloc response =
      (writeAll alloc (responseValues response) (parcelNew alloc)).bind
        Out.contents := by
    simp only [successBytes, responseValues, writeAll, write, Option.bind_assoc]
    rfl
  rw [asBind, writeEq, Option.bind_some, contents]

theorem errorBytes_eq : errorBytes alloc = some [0] := by
  obtain ⟨out, writeEq, -, contents⟩ :=
    writeAll_contents allocated [.bool false] (by decide)
  have asBind : errorBytes alloc =
      (writeAll alloc [.bool false] (parcelNew alloc)).bind Out.contents := by
    simp [errorBytes, writeAll, write, parcelClear, parcelNew]
  rw [asBind, writeEq, Option.bind_some, contents]
  rfl

end Writing

section Reading

variable {parcel : In} {done rest : Bytes}

theorem parcelReadVarint_at (val : BitVec 32)
    (here : At parcel done (encode (.varint val) ++ rest)) :
    ∃ after, parcelReadVarint parcel = (val, after) ∧
      At after (done ++ encode (.varint val)) rest := by
  obtain ⟨after, readEq, afterAt⟩ := read_at (.varint val) here
  simp only [Value.kind, Parcel.read, Prod.map, id, Prod.mk.injEq, Value.varint.injEq]
    at readEq
  exact ⟨after, Prod.ext readEq.1 readEq.2, afterAt⟩

theorem deserializeRequest_at (request : Request)
    (here : At parcel done (encodeAll request.toValues ++ rest)) :
    ∃ after, deserializeRequest request.type parcel = (some request, after) ∧
      At after (done ++ encodeAll request.toValues) rest := by
  rcases request with request | request | request | request | request
  all_goals
    obtain ⟨after, readEq, afterAt⟩ := deserialize_at _ request here
    exact ⟨after, by simp [deserializeRequest, Request.type, readEq], afterAt⟩

theorem deserializeResponse_at (response : Response)
    (here : At parcel done (encodeAll response.toValues ++ rest)) :
    ∃ after, deserializeResponse response.type parcel = (some response, after) ∧
      At after (done ++ encodeAll response.toValues) rest := by
  rcases response with response | response | response | response | response
  all_goals
    obtain ⟨after, readEq, afterAt⟩ := deserialize_at _ response here
    exact ⟨after, by simp [deserializeResponse, Response.type, readEq], afterAt⟩

/-- The backend recovers the sender and the request from a frame. -/
theorem parseRequest_encodeAll (beyond : Nat → UInt8) (pid : Int32)
    (request : Request)
    (fits : (encodeAll (requestValues pid request)).length ≤ 2 ^ 63) :
    parseRequest beyond (encodeAll (requestValues pid request)) =
      ⟨pid, some request⟩ := by
  have start := parcelReadNew_at beyond (encodeAll (requestValues pid request))
    (lt_of_le_of_lt fits (by decide))
  have split : encodeAll (requestValues pid request) =
      encode (.varint request.type.code) ++ (encode (.varint pid.toBitVec) ++
        (encodeAll request.toValues ++ [])) := by
    simp [encodeAll, requestValues]
  generalize encodeAll (requestValues pid request) = bytes at start split ⊢
  rw [split] at start
  obtain ⟨second, typeEq, secondAt⟩ := parcelReadVarint_at _ start
  obtain ⟨third, channelEq, thirdAt⟩ := parcelReadVarint_at _ secondAt
  obtain ⟨last, requestEq, lastAt⟩ := deserializeRequest_at request thirdAt
  rw [← split] at typeEq
  simp [parseRequest, typeEq, channelEq, requestEq, parcelOk, thirdAt.noError,
    lastAt.noError]

/-- The flag of an answer is one byte, which reads back as a number. -/
theorem encode_true : encode (.bool true) = encode (.varint (-1)) := by
  decide

/-- A caller accepts a successful answer exactly when its type is the one of
the request. -/
theorem interpretAnswer_success (beyond : Nat → UInt8) (type : RequestType)
    (response : Response) :
    interpretAnswer beyond type (encodeAll (responseValues response)) =
      if response.type = type then some response else none := by
  have start := parcelReadNew_at beyond (encodeAll (responseValues response))
    (lt_of_le_of_lt (responseValues_length response) (by decide))
  have split : encodeAll (responseValues response) =
      encode (.varint (-1)) ++ (encode (.varint response.type.code) ++
        (encodeAll response.toValues ++ [])) := by
    rw [← encode_true]
    simp [encodeAll, responseValues]
  generalize encodeAll (responseValues response) = bytes at start split ⊢
  rw [split] at start
  obtain ⟨second, flagEq, secondAt⟩ := parcelReadVarint_at _ start
  obtain ⟨third, typeEq, thirdAt⟩ := parcelReadVarint_at _ secondAt
  obtain ⟨last, responseEq, lastAt⟩ := deserializeResponse_at response thirdAt
  rw [← split] at flagEq
  by_cases same : response.type = type
  · subst same
    simp [interpretAnswer, flagEq, typeEq, responseEq, parcelOk, thirdAt.noError,
      lastAt.noError]
  · have different : response.type.code ≠ type.code :=
      fun equal => same (RequestType.code_injective equal)
    simp [interpretAnswer, flagEq, typeEq, same, different]

/-- No caller accepts the error answer, whatever the memory behind its one byte
contains. -/
theorem interpretAnswer_error (beyond : Nat → UInt8) (type : RequestType) :
    interpretAnswer beyond type [0] = none := by
  have start : At (parcelReadNew beyond [0]) [] (encode (.varint 0) ++ []) :=
    parcelReadNew_at beyond [0] (by decide)
  obtain ⟨second, flagEq, -⟩ := parcelReadVarint_at _ start
  simp [interpretAnswer, flagEq]

end Reading

end Fbbs
