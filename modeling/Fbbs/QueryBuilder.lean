import Fbbs.LinkedChains
import Fbbs.PoolStrings
import Fbbs.WordEncodings

/-!
# The query builder

`lib/pg.c` builds queries from pieces of text.  A directive of a piece becomes a
numbered placeholder, and its argument goes to a list of parameters, which
`convert_param_array` turns into what is sent to the database.
-/

namespace Fbbs

namespace QueryBuilder

open PString LinkedChains WordEncodings

/-- `query_param_t`: the type of a parameter and its value. -/
inductive Param
  | bool (d : Int32)
  | int (d : Int32)
  | bigint (l : Int64)
  | string (s : Option CString)
  | time (t : UInt32)
  deriving DecidableEq

/-- The directives of `query_vappend`. -/
inductive Directive
  | b
  | d
  | l
  | s
  | t
  deriving DecidableEq

/-- The `case` labels of `query_vappend`. -/
def directive (c : UInt8) : Option Directive :=
  if c = 98 then some .b
  else if c = 100 then some .d
  else if c = 108 then some .l
  else if c = 115 then some .s
  else if c = 116 then some .t
  else none

/-- The directive that reads an argument. -/
def Param.directive : Param → Directive
  | .bool _ => .b
  | .int _ => .d
  | .bigint _ => .l
  | .string _ => .s
  | .time _ => .t

/-- A parameter in the list. -/
structure Node where
  param : Param
  next : Nat

/-- `query_t` with the memory of its pool. -/
structure Query where
  query : PString
  first : Nat
  tail : Nat
  count : Nat
  nodes : Nat → Node
  fresh : Nat

/-- `query_new` in some memory. -/
def queryNew (size : Nat) (nodes : Nat → Node) : Option Query :=
  (pstringSizedNew (if size = 0 then 511 else size)).map fun query =>
    ⟨query, 0, 0, 0, nodes, 1⟩

/-- `$%d`. -/
def placeholder (number : Nat) : Bytes :=
  36 :: (Nat.toDigits 10 number).map Char.toUInt8

/-- `SLIST_INSERT_AFTER`. -/
def insertAfter (nodes : Nat → Node) (base entry : Nat) : Nat → Node :=
  let nodes := Function.update nodes entry { nodes entry with next := (nodes base).next }
  Function.update nodes base { nodes base with next := entry }

def queryAppendParam (q : Query) (p : Param) : Option Query :=
  let n := q.fresh
  let nodes := Function.update q.nodes n { q.nodes n with param := p }
  let q :=
    if q.tail ≠ 0 then { q with nodes := insertAfter nodes q.tail n, tail := n, fresh := n + 1 }
    else
      { q with
        nodes := Function.update nodes n { nodes n with next := q.first }
        first := n
        tail := n
        fresh := n + 1 }
  (q.query.pstringAppendPrintf (placeholder (q.count + 1))).map fun query =>
    { q with query := query, count := q.count + 1 }

def appendC (q : Query) (c : UInt8) : Option Query :=
  (q.query.pstringAppendC c).map fun query => { q with query := query }

def appendSpace (q : Query) : Option Query :=
  q.query.pstringAppendSpace.map fun query => { q with query := query }

/-- The loop of `query_vappend`; `none` for arguments that do not match, and for
text that ends with `%`, where it reads on behind the text. -/
def vappendLoop : Bytes → List Param → Query → Option Query
  | [], _, q => some q
  | c :: cmd, args, q =>
    if c = 37 then
      match cmd with
      | [] => none
      | c :: cmd =>
        match directive c with
        | none => (appendC q c).bind (vappendLoop cmd args)
        | some kind =>
          match args with
          | [] => none
          | arg :: args =>
            if arg.directive = kind then
              (queryAppendParam q arg).bind (vappendLoop cmd args)
            else none
    else (appendC q c).bind (vappendLoop cmd args)

def queryVappend (q : Query) (cmd : Option CString) (args : List Param) : Option Query :=
  match cmd with
  | none => some q
  | some cmd =>
    (if cmd.bytes.head? ≠ some 32 then appendSpace q else some q).bind
      (vappendLoop cmd.bytes args)

/-- A symbol that is neither missing nor empty. -/
def appendSymbol (q : Query) : Option CString → Option Query
  | none => some q
  | some symbol =>
    if symbol.bytes ≠ [] then
      (q.query.pstringAppendString symbol).map fun query => { q with query := query }
    else some q

def queryVappendSymbol (q : Query) (symbol cmd : Option CString) (args : List Param) :
    Option Query :=
  (appendSpace q).bind fun q =>
    (appendSymbol q symbol).bind fun q => queryVappend q cmd args

/-- `query_append` is this without a symbol. -/
def querySappend (q : Query) (symbol cmd : Option CString) (args : List Param) : Option Query :=
  queryVappendSymbol q symbol cmd args

/-- `POSTGRES_EPOCH_TIME`. -/
def postgresEpochTime : UInt32 := 946684800

/-- `time_to_ts`: the difference is one of unsigned integers. -/
def timeToTs (t : UInt32) : Int64 :=
  Int64.ofInt ((t - postgresEpochTime).toNat * 1000000)

/-- The bytes of a number in network order. -/
def bigEndian (count number : Nat) : Bytes :=
  (LittleEndian.bytes count number).reverse

/-- An element of the arrays `vals`, `lens` and `fmts`. -/
structure Converted where
  val : Option Bytes
  len : Nat
  fmt : Nat
  deriving DecidableEq

/-- The body of the loop of `convert_param_array`. -/
def convertParam : Param → Converted
  | .bool d => ⟨some [if d ≠ 0 then 1 else 0], 1, 1⟩
  | .int d => ⟨some (bigEndian 4 d.toUInt32.toNat), 4, 1⟩
  | .bigint l => ⟨some (bigEndian 8 l.toUInt64.toNat), 8, 1⟩
  | .time t => ⟨some (bigEndian 8 (timeToTs t).toUInt64.toNat), 8, 1⟩
  | .string s => ⟨s.map CString.bytes, 0, 0⟩

/-- The loop of `convert_param_array`; `none` outside the arrays. -/
def convertLoop (q : Query) : Nat → Nat → Nat → Option (List Converted)
  | 0, _, _ => none
  | fuel + 1, n, param =>
    if param = 0 then some []
    else if n < q.count then
      (convertLoop q fuel (n + 1) (q.nodes param).next).map
        (convertParam (q.nodes param).param :: ·)
    else none

/-- `convert_param_array` for arrays of `count` elements. -/
def convertParamArray (q : Query) : Option (List Converted) :=
  convertLoop q (q.fresh + 1) 0 q.first

end QueryBuilder

end Fbbs
