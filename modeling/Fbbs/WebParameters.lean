import Mathlib.Data.List.DropRight
import Fbbs.AsciiBytes
import Fbbs.DecimalText
import Fbbs.Parcel

/-!
# The parameters of a web request

`fcgi/web.c`: the query string, the cookies and the posted data are split into
pieces, and each piece that is not empty becomes a pair of the array `params`.
The three sources share the array and its count.
-/

namespace Fbbs

namespace WebRequest

/-- `MAX_PARAMETERS`. -/
def maxParameters : Nat := 32

/-- `MAX_CONTENT_LENGTH`. -/
def maxContentLength : Nat := 1024 * 1024

/-- `pair_t`. -/
structure Pair where
  key : CString
  val : CString
  deriving DecidableEq

/-- `web_request_method_e`. -/
inductive Method
  | get
  | post
  | put
  | delete
  deriving DecidableEq

def requestApi : Int32 := 1
def requestParsed : Int32 := 2
def requestMobile : Int32 := 4
def requestUtf8 : Int32 := 8
def requestXml : Int32 := 16
def requestJson : Int32 := 32
def requestXhr : Int32 := 64

/-- `http_req_t`; the pairs from `count` on are those of earlier requests. -/
structure HttpReq where
  source : CString
  params : List Pair
  count : Nat
  flag : Int32
  method : Method
  length_eq : params.length = maxParameters

/-- What a request comes with; a missing variable is `none`. -/
structure Environment where
  queryString : Option CString
  httpCookie : Option CString
  remoteAddr : Option CString
  requestMethod : Option CString
  scriptName : Option CString
  requestedWith : Option CString
  contentLength : Option CString
  stdin : Bytes

/-- `_get_server_env`. -/
def getServerEnv (value : Option CString) : CString :=
  value.getD .empty

/-- `_hex2dec`. -/
def hexToDec (c : UInt8) : UInt8 :=
  if 48 ≤ c ∧ c ≤ 57 then c - 48
  else if 65 ≤ c ∧ c ≤ 70 then c - 55
  else if 97 ≤ c ∧ c ≤ 102 then c - 87
  else 0

/-- `_url_decode`; the writing pointer never passes the reading one. -/
def urlDecode : Bytes → Bytes
  | [] => []
  | 43 :: rest => 32 :: urlDecode rest
  | 37 :: high :: low :: rest => (hexToDec high * 16 + hexToDec low) :: urlDecode rest
  | 37 :: _ => []
  | c :: rest => c :: urlDecode rest

def isBlank (c : UInt8) : Bool :=
  c ≤ 32

/-- The right end goes first. -/
def trim (str : Bytes) : Bytes :=
  (str.rdropWhile isBlank).dropWhile isBlank

/-- What stands before the first `c`, and what stands behind it if there is one. -/
def strchr (str : Bytes) (c : UInt8) : Bytes × Option Bytes :=
  (str.takeWhile (· != c), (str.dropWhile (· != c)).tail?)

/-- If there is a `c`, the string is made of the two parts with the `c` between them. -/
theorem strchr_eq_some {str piece rest : Bytes} {c : UInt8}
    (found : strchr str c = (piece, some rest)) : c ∉ piece ∧ str = piece ++ c :: rest := by
  obtain ⟨rfl, tail⟩ := Prod.mk.inj found
  constructor
  · intro member
    simpa using List.mem_takeWhile_imp member
  · cases later : str.dropWhile (· != c) with
    | nil => simp [later] at tail
    | cons head after =>
      have isDelim : (head != c) = false := by
        have first := List.head_dropWhile_not (· != c) (l := str) (by simp [later])
        simpa [later] using first
      rw [later, List.tail?_cons, Option.some.injEq] at tail
      rw [bne_eq_false_iff_eq] at isDelim
      rw [← tail, ← isDelim, ← later, isDelim]
      exact List.takeWhile_append_dropWhile.symm

theorem strchr_eq_none {str piece : Bytes} {c : UInt8}
    (found : strchr str c = (piece, none)) : c ∉ piece ∧ str = piece := by
  obtain ⟨rfl, tail⟩ := Prod.mk.inj found
  constructor
  · intro member
    simpa using List.mem_takeWhile_imp member
  · have nothing : str.dropWhile (· != c) = [] := by
      cases later : str.dropWhile (· != c) with
      | nil => rfl
      | cons head after => simp [later] at tail
    have parts := List.takeWhile_append_dropWhile (p := (· != c)) (l := str)
    rw [nothing, List.append_nil] at parts
    exact parts.symm

theorem HttpReq.length_set (req : HttpReq) (index : Nat) (pair : Pair) :
    (req.params.set index pair).length = maxParameters := by
  rw [List.length_set, req.length_eq]

/-- The pair is stored behind the others; `none` if that is outside the array. -/
def HttpReq.store (req : HttpReq) (pair : Pair) : Option HttpReq :=
  if req.count < maxParameters then
    some { req with
      params := req.params.set req.count pair
      count := req.count + 1
      length_eq := req.length_set req.count pair }
  else none

/-- `_parse_param`. -/
def parseParam (req : HttpReq) (str : Bytes) : Option HttpReq :=
  if str = [] then some req
  else
    let (key, val) := strchr str 61
    let val := match val with
      | some val => urlDecode val
      | none => []
    req.store ⟨.ofBytes (trim key), .ofBytes val⟩

/-- `_parse_params`. -/
def parseParams (req : HttpReq) (str : Bytes) (delim : UInt8) : Option HttpReq :=
  match _found : strchr str delim with
  | (piece, some rest) => (parseParam req piece).bind fun req => parseParams req rest delim
  | (piece, none) => parseParam req piece
termination_by str.length
decreasing_by
  rw [(strchr_eq_some _found).2, List.length_append, List.length_cons]
  omega

/-- `_parse_http_req`. -/
def parseHttpReq (req : HttpReq) (env : Environment) : Option HttpReq :=
  (parseParams req (getServerEnv env.queryString).bytes 38).bind fun req =>
    parseParams req (getServerEnv env.httpCookie).bytes 59

/-- The loop of `web_get_param`. -/
def findParam (key : CString) : List Pair → CString
  | [] => .empty
  | pair :: pairs => if pair.key = key then pair.val else findParam key pairs

def HttpReq.pairs (req : HttpReq) : List Pair :=
  req.params.take req.count

def webGetParam (req : HttpReq) (key : CString) : CString :=
  findParam key req.pairs

def endsWith (s pattern : Bytes) : Bool :=
  pattern.length ≤ s.length && s.drop (s.length - pattern.length) == pattern

/-- The names of the parameters that set a flag. -/
def optionPairs : List (CString × Int32) :=
  [(.ofBytes [97, 112, 105], requestApi), (.ofBytes [110, 101, 119], requestParsed),
    (.ofBytes [109, 111, 98], requestMobile), (.ofBytes [117, 116, 102, 56], requestUtf8)]

/-- `get_global_options`. -/
def getGlobalOptions (req : HttpReq) (env : Environment) : Int32 :=
  let flag := optionPairs.foldl (fun flag (param, bit) =>
    if (webGetParam req param).bytes.head? = some 49 then flag ||| bit else flag) 0
  let flag := match env.scriptName with
    | none => flag
    | some name =>
      let flag := if endsWith name.bytes [46, 120, 109, 108] then
        flag ||| (requestXml ||| requestApi) else flag
      if endsWith name.bytes [46, 106, 115, 111, 110] then
        flag ||| (requestJson ||| requestApi) else flag
  let flag := if flag &&& requestApi ≠ 0 then flag ||| requestUtf8 else flag
  if env.requestedWith =
      some (.ofBytes [88, 77, 76, 72, 116, 116, 112, 82, 101, 113, 117, 101, 115, 116]) then
    flag ||| requestXhr
  else flag

/-- `parse_request_method`. -/
def parseRequestMethod (env : Environment) : Method :=
  let method := (getServerEnv env.requestMethod).bytes
  if method = [71, 69, 84] then .get
  else if method = [80, 79, 83, 84] then .post
  else if method = [80, 85, 84] then .put
  else if method = [68, 69, 76, 69, 84, 69] then .delete
  else .get

def parseWebRequest (req : HttpReq) (env : Environment) : Option HttpReq :=
  (parseHttpReq { req with count := 0 } env).map fun req =>
    { req with
      source := getServerEnv env.remoteAddr
      method := parseRequestMethod env
      flag := getGlobalOptions req env }

/-- `strtoul` with base 10 where `unsigned long` has 64 bits. -/
def strtoul (str : Bytes) : Nat :=
  let str := str.dropWhile AsciiBytes.isspace
  let (negative, str) := match str with
    | 45 :: rest => (true, rest)
    | 43 :: rest => (false, rest)
    | _ => (false, str)
  let value := DecimalText.value (str.takeWhile DecimalText.isDigit)
  if 2 ^ 64 ≤ value then 2 ^ 64 - 1
  else if negative then (2 ^ 64 - value) % 2 ^ 64
  else value

/-- The value that is returned, and the request after it. -/
def parsePostData (req : HttpReq) (env : Environment) : Option (Int32 × HttpReq) :=
  let size := strtoul (getServerEnv env.contentLength).bytes
  if size = 0 then some (0, req)
  else
    let size := min size maxContentLength
    if env.stdin.length < size then some (-1, req)
    else
      let buf := CString.ofBytes (env.stdin.take size)
      (parseParams req buf.bytes 38).map fun req => (0, req)

/-- `parse_web_request` and `parse_post_data`; `req` is left from the request before. -/
def parseRequest (req : HttpReq) (env : Environment) : Option HttpReq :=
  (parseWebRequest req env).bind fun req => (parsePostData req env).map Prod.snd

/-- The string that `parse_post_data` takes from the posted bytes: none if they end
before the announced length, and at most `MAX_CONTENT_LENGTH` bytes. -/
def posted (env : Environment) : Bytes :=
  let size := min (strtoul (getServerEnv env.contentLength).bytes) maxContentLength
  if env.stdin.length < size then [] else (CString.ofBytes (env.stdin.take size)).bytes

/-- The pieces between delimiters that are not empty. -/
def nonemptyPieces (str : Bytes) (delim : UInt8) : List Bytes :=
  (str.splitOn delim).filter (· ≠ [])

/-- The pieces of the three sources. -/
def pieces (env : Environment) : List Bytes :=
  nonemptyPieces (getServerEnv env.queryString).bytes 38 ++
    nonemptyPieces (getServerEnv env.httpCookie).bytes 59 ++
    nonemptyPieces (posted env) 38

/-- The key is trimmed, and what stands behind the first `=` is decoded. -/
def Pair.ofPiece (piece : Bytes) : Pair where
  key := .ofBytes (trim (piece.takeWhile (· != 61)))
  val := .ofBytes (urlDecode ((piece.dropWhile (· != 61)).drop 1))

/-- The value of the first pair with the key, or the empty string. -/
def IsParam (pairs : List Pair) (key value : CString) : Prop :=
  (∃ before pair after, pairs = before ++ pair :: after ∧
      (∀ other ∈ before, other.key ≠ key) ∧ pair.key = key ∧ pair.val = value) ∨
    (∀ pair ∈ pairs, pair.key ≠ key) ∧ value = .empty

/-- The table holds the pairs of the given pieces, and parameters are found in it. -/
structure Holds (req : HttpReq) (pieces : List Bytes) : Prop where
  bounded : req.count ≤ maxParameters
  pairs : req.pairs = pieces.map Pair.ofPiece
  params : ∀ key, IsParam (pieces.map Pair.ofPiece) key (webGetParam req key)

section Decoding

/-- Two hexadecimal digits. -/
inductive HexDigit : UInt8 → UInt8 → Prop
  | decimal {c : UInt8} (low : 48 ≤ c) (high : c ≤ 57) : HexDigit c (c - 48)
  | upper {c : UInt8} (low : 65 ≤ c) (high : c ≤ 70) : HexDigit c (c - 55)
  | lower {c : UInt8} (low : 97 ≤ c) (high : c ≤ 102) : HexDigit c (c - 87)

/-- What a well-formed encoding stands for. -/
inductive Encodes : Bytes → Bytes → Prop
  | nil : Encodes [] []
  | plus {text bytes : Bytes} (rest : Encodes text bytes) : Encodes (43 :: text) (32 :: bytes)
  | percent {high low a b : UInt8} {text bytes : Bytes} (first : HexDigit high a)
      (second : HexDigit low b) (rest : Encodes text bytes) :
      Encodes (37 :: high :: low :: text) ((a * 16 + b) :: bytes)
  | plain {c : UInt8} {text bytes : Bytes} (notPlus : c ≠ 43) (notPercent : c ≠ 37)
      (rest : Encodes text bytes) : Encodes (c :: text) (c :: bytes)

theorem hexToDec_eq {c value : UInt8} (digit : HexDigit c value) : hexToDec c = value := by
  cases digit with
  | decimal low high => exact if_pos ⟨low, high⟩
  | upper low high =>
    have notDecimal : ¬(48 ≤ c ∧ c ≤ 57) := by
      rintro ⟨-, small⟩
      exact absurd (UInt8.le_trans low small) (by decide)
    rw [hexToDec, if_neg notDecimal, if_pos ⟨low, high⟩]
  | lower low high =>
    have notDecimal : ¬(48 ≤ c ∧ c ≤ 57) := by
      rintro ⟨-, small⟩
      exact absurd (UInt8.le_trans low small) (by decide)
    have notUpper : ¬(65 ≤ c ∧ c ≤ 70) := by
      rintro ⟨-, small⟩
      exact absurd (UInt8.le_trans low small) (by decide)
    rw [hexToDec, if_neg notDecimal, if_neg notUpper, if_pos ⟨low, high⟩]

/-- A well-formed value is decoded. -/
theorem urlDecode_eq {text bytes : Bytes} (encodes : Encodes text bytes) :
    urlDecode text = bytes := by
  induction encodes with
  | nil => rfl
  | plus rest ih => rw [urlDecode, ih]
  | percent first second rest ih =>
    rw [urlDecode, ih, hexToDec_eq first, hexToDec_eq second]
  | plain notPlus notPercent rest ih =>
    rw [urlDecode, ih]
    all_goals simp_all

end Decoding

section Parsing

variable {req : HttpReq}

theorem parseParam_of_ne_nil {piece : Bytes} (nonempty : piece ≠ []) :
    parseParam req piece = req.store (Pair.ofPiece piece) := by
  simp only [parseParam, if_neg nonempty, strchr, Pair.ofPiece]
  cases piece.dropWhile (· != 61) <;> rfl

/-- The pairs are stored one after the other. -/
def HttpReq.storeAll (req : HttpReq) : List Pair → Option HttpReq
  | [] => some req
  | pair :: pairs => (req.store pair).bind fun req => req.storeAll pairs

theorem storeAll_append (first second : List Pair) :
    req.storeAll (first ++ second) =
      (req.storeAll first).bind fun req => req.storeAll second := by
  induction first generalizing req with
  | nil => rfl
  | cons pair pairs ih =>
    simp only [List.cons_append, HttpReq.storeAll, Option.bind_assoc, ih]

/-- A piece is stored as a pair unless it is empty. -/
theorem parseParam_eq (piece : Bytes) :
    parseParam req piece = req.storeAll (([piece].filter (· ≠ [])).map Pair.ofPiece) := by
  by_cases nonempty : piece = []
  · rw [nonempty]
    rfl
  · rw [parseParam_of_ne_nil nonempty]
    simp [nonempty, HttpReq.storeAll]

theorem parseParams_of_some {str piece rest : Bytes} {delim : UInt8}
    (found : strchr str delim = (piece, some rest)) :
    parseParams req str delim =
      (parseParam req piece).bind fun req => parseParams req rest delim := by
  rw [parseParams]
  split
  next more =>
    cases more.symm.trans found
    rfl
  next single => cases single.symm.trans found

theorem parseParams_of_none {str piece : Bytes} {delim : UInt8}
    (found : strchr str delim = (piece, none)) :
    parseParams req str delim = parseParam req piece := by
  rw [parseParams]
  split
  next more => cases more.symm.trans found
  next single =>
    cases single.symm.trans found
    rfl

/-- A string is stored piece by piece. -/
theorem parseParams_eq (req : HttpReq) (str : Bytes) (delim : UInt8) :
    parseParams req str delim =
      req.storeAll ((nonemptyPieces str delim).map Pair.ofPiece) := by
  induction req, str using parseParams.induct delim with
  | case1 req str piece rest found ih =>
    obtain ⟨absent, parts⟩ := strchr_eq_some found
    have split : nonemptyPieces str delim =
        [piece].filter (· ≠ []) ++ nonemptyPieces rest delim := by
      rw [nonemptyPieces, parts, List.splitOn_append_cons_self_of_not_mem absent,
        ← List.singleton_append, List.filter_append]
      rfl
    rw [parseParams_of_some found, split, List.map_append, storeAll_append, ← parseParam_eq]
    exact Option.bind_congr fun next _ => ih next
  | case2 req str piece found =>
    obtain ⟨absent, rfl⟩ := strchr_eq_none found
    rw [parseParams_of_none found, nonemptyPieces, List.splitOn_eq_singleton absent]
    exact parseParam_eq str

theorem take_set_succ {pairs : List Pair} {index : Nat} (inside : index < pairs.length)
    (pair : Pair) : (pairs.set index pair).take (index + 1) = pairs.take index ++ [pair] := by
  rw [List.take_add_one, List.take_set_of_le (Nat.le_refl _)]
  simp [inside]

/-- What storing pairs does: all of them fit, or one is stored outside the array. -/
theorem storeAll_eq (pairs : List Pair) (bounded : req.count ≤ maxParameters) :
    if req.count + pairs.length ≤ maxParameters then
      ∃ next, req.storeAll pairs = some next ∧ next.count = req.count + pairs.length ∧
        next.pairs = req.pairs ++ pairs
    else req.storeAll pairs = none := by
  induction pairs generalizing req with
  | nil => simpa [HttpReq.storeAll] using bounded
  | cons pair pairs ih =>
    by_cases inside : req.count < maxParameters
    · let next : HttpReq := { req with
          params := req.params.set req.count pair
          count := req.count + 1
          length_eq := req.length_set req.count pair }
      have stored : req.storeAll (pair :: pairs) = next.storeAll pairs := by
        rw [HttpReq.storeAll, HttpReq.store, if_pos inside]
        rfl
      have nextPairs : next.pairs = req.pairs ++ [pair] :=
        take_set_succ (by rw [req.length_eq]; exact inside) pair
      have rest := @ih next inside
      have length : next.count + pairs.length = req.count + (pair :: pairs).length := by
        rw [List.length_cons]
        change req.count + 1 + pairs.length = _
        omega
      rw [length, nextPairs, List.append_assoc, List.singleton_append] at rest
      rw [stored]
      exact rest
    · have full : ¬req.count + (pair :: pairs).length ≤ maxParameters := by
        rw [List.length_cons]
        omega
      rw [if_neg full, HttpReq.storeAll, HttpReq.store, if_neg inside]
      rfl

/-- The posted data are stored piece by piece. -/
theorem parsePostData_eq (req : HttpReq) (env : Environment) :
    (parsePostData req env).map Prod.snd =
      req.storeAll ((nonemptyPieces (posted env) 38).map Pair.ofPiece) := by
  simp only [parsePostData, posted]
  by_cases zero : strtoul (getServerEnv env.contentLength).bytes = 0
  · simp [zero, CString.ofBytes, nonemptyPieces, HttpReq.storeAll]
  · rw [if_neg zero]
    by_cases short : env.stdin.length <
        min (strtoul (getServerEnv env.contentLength).bytes) maxContentLength
    · simp [short, nonemptyPieces, HttpReq.storeAll]
    · rw [if_neg short, if_neg short, Option.map_map, parseParams_eq]
      exact Option.map_id'

theorem parseHttpReq_eq (req : HttpReq) (env : Environment) :
    parseHttpReq req env =
      req.storeAll ((nonemptyPieces (getServerEnv env.queryString).bytes 38 ++
        nonemptyPieces (getServerEnv env.httpCookie).bytes 59).map Pair.ofPiece) := by
  rw [parseHttpReq, parseParams_eq, List.map_append, storeAll_append]
  exact Option.bind_congr fun next _ => parseParams_eq next _ _

theorem isParam_findParam (pairs : List Pair) (key : CString) :
    IsParam pairs key (findParam key pairs) := by
  induction pairs with
  | nil => exact .inr ⟨by simp, rfl⟩
  | cons pair pairs ih =>
    by_cases here : pair.key = key
    · rw [findParam, if_pos here]
      exact .inl ⟨[], pair, pairs, rfl, by simp, here, rfl⟩
    · rw [findParam, if_neg here]
      rcases ih with ⟨before, found, after, parts, absent, keyEq, valEq⟩ | ⟨absent, empty⟩
      · refine .inl ⟨pair :: before, found, after, ?_, ?_, keyEq, valEq⟩
        · rw [parts, List.cons_append]
        · exact List.forall_mem_cons.mpr ⟨here, absent⟩
      · exact .inr ⟨List.forall_mem_cons.mpr ⟨here, absent⟩, empty⟩

/-- The three sources together fit, or a pair is stored outside the array. -/
theorem parseRequest_eq (req : HttpReq) (env : Environment) :
    if (pieces env).length ≤ maxParameters then
      ∃ next, parseRequest req env = some next ∧ next.count = (pieces env).length ∧
        next.pairs = (pieces env).map Pair.ofPiece
    else parseRequest req env = none := by
  let sent := nonemptyPieces (getServerEnv env.queryString).bytes 38 ++
    nonemptyPieces (getServerEnv env.httpCookie).bytes 59
  let started : HttpReq := { req with count := 0 }
  have piecesEq : pieces env = sent ++ nonemptyPieces (posted env) 38 := rfl
  have length : (pieces env).length =
      sent.length + (nonemptyPieces (posted env) 38).length := by
    rw [piecesEq, List.length_append]
  have startedBounded : started.count ≤ maxParameters := Nat.zero_le _
  have first := storeAll_eq (sent.map Pair.ofPiece) startedBounded
  have startedPairs : started.pairs = [] := rfl
  rw [← parseHttpReq_eq, startedPairs, List.nil_append, List.length_map] at first
  by_cases sentFit : started.count + sent.length ≤ maxParameters
  · rw [if_pos sentFit] at first
    obtain ⟨middle, parsed, count, pairs⟩ := first
    let received : HttpReq := { middle with
      source := getServerEnv env.remoteAddr
      method := parseRequestMethod env
      flag := getGlobalOptions middle env }
    have countEq : received.count = sent.length := by
      rw [← Nat.zero_add sent.length]
      exact count
    have pairsEq : received.pairs = sent.map Pair.ofPiece := pairs
    have requestEq : parseRequest req env = received.storeAll
        ((nonemptyPieces (posted env) 38).map Pair.ofPiece) := by
      rw [parseRequest, parseWebRequest, parsed, ← parsePostData_eq]
      rfl
    have bounded : received.count ≤ maxParameters := countEq.trans_le (by omega)
    rw [requestEq, length, piecesEq, List.map_append, ← pairsEq, ← countEq]
    -- As a variable the list is not computed when the two statements are compared.
    generalize nonemptyPieces (posted env) 38 = rest
    have second := storeAll_eq (rest.map Pair.ofPiece) bounded
    rw [List.length_map] at second
    exact second
  · rw [if_neg sentFit] at first
    have tooMany : ¬(pieces env).length ≤ maxParameters := by
      have zero : started.count = 0 := rfl
      omega
    rw [if_neg tooMany, parseRequest, parseWebRequest, first]
    rfl

end Parsing

/-- The pairs of a request stay in the array, and hold its pieces, exactly if there are
at most `MAX_PARAMETERS` of them. -/
theorem parameters_hold_iff (req : HttpReq) (env : Environment) :
    (∃ next, parseRequest req env = some next ∧ Holds next (pieces env)) ↔
      (pieces env).length ≤ maxParameters := by
  have outcome := parseRequest_eq req env
  by_cases fit : (pieces env).length ≤ maxParameters
  · rw [if_pos fit] at outcome
    obtain ⟨next, parsed, count, pairs⟩ := outcome
    have inside : next.count ≤ maxParameters := by
      rw [count]
      exact fit
    have params : ∀ key, IsParam ((pieces env).map Pair.ofPiece) key (webGetParam next key) := by
      intro key
      rw [webGetParam, pairs]
      exact isParam_findParam _ key
    have holds : Holds next (pieces env) := ⟨inside, pairs, params⟩
    exact iff_of_true ⟨next, parsed, holds⟩ fit
  · rw [if_neg fit] at outcome
    apply iff_of_false _ fit
    rintro ⟨next, parsed, -⟩
    rw [outcome] at parsed
    cases parsed

/-- A query string of thirty-three letters with `&` between them. -/
def longQuery : Environment where
  queryString := some (.ofBytes ((List.replicate 32 [97, 38]).flatten ++ [97]))
  httpCookie := none
  remoteAddr := none
  requestMethod := none
  scriptName := none
  requestedWith := none
  contentLength := none
  stdin := []

def idleRequest : HttpReq where
  source := .empty
  params := List.replicate maxParameters ⟨.empty, .empty⟩
  count := 0
  flag := 0
  method := .get
  length_eq := List.length_replicate

theorem longQuery_outside :
    ¬∃ next, parseRequest idleRequest longQuery = some next ∧ Holds next (pieces longQuery) := by
  have outcome := parseRequest_eq idleRequest longQuery
  rw [if_neg (by decide)] at outcome
  rintro ⟨next, parsed, -⟩
  rw [outcome] at parsed
  cases parsed

end WebRequest

end Fbbs
