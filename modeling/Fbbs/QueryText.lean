import Fbbs.QueryBuilder

/-!
# The text and the parameters of a query

A piece of text is a list of bytes and arguments.  The text of a query consists
of its pieces, with white space between them and with the numbers of the
arguments in their place; the list of parameters holds the arguments in the same
order.
-/

namespace Fbbs

namespace QueryBuilder

open AsciiBytes PString LinkedChains WordEncodings

section Specification

/-- A byte of the text, or an argument. -/
inductive Token
  | char (c : UInt8)
  | param (p : Param)

/-- The meaning of a format: a directive stands for the next argument, and `%`
before another byte for that byte.  There is none for a `%` at the end or for
arguments that do not match. -/
def tokens : Bytes → List Param → Option (List Token)
  | [], [] => some []
  | [], _ :: _ => none
  | c :: cmd, args =>
    if c = 37 then
      match cmd with
      | [] => none
      | c :: cmd =>
        match directive c with
        | none => (tokens cmd args).map (.char c :: ·)
        | some kind =>
          match args with
          | [] => none
          | arg :: args =>
            if arg.directive = kind then (tokens cmd args).map (.param arg :: ·) else none
    else (tokens cmd args).map (.char c :: ·)

/-- The text of a piece behind a number of arguments. -/
def render (count : Nat) : List Token → Bytes
  | [] => []
  | .char c :: rest => c :: render count rest
  | .param _ :: rest => placeholder (count + 1) ++ render (count + 1) rest

/-- The arguments of a piece. -/
def params : List Token → List Param
  | [] => []
  | .char _ :: rest => params rest
  | .param p :: rest => p :: params rest

/-- The texts of pieces whose arguments are numbered throughout. -/
def renderAll (count : Nat) : List (List Token) → List Bytes
  | [] => []
  | piece :: pieces =>
    render count piece :: renderAll (count + (params piece).length) pieces

/-- The text consists of the pieces in order and spaces; there is white space
between one piece and the next. -/
inductive Joined : List Bytes → Bytes → Prop
  | nil : Joined [] []
  | space {pieces : List Bytes} {text : Bytes} (joined : Joined pieces text) :
      Joined pieces (text ++ [32])
  | piece {pieces : List Bytes} {text : Bytes} (joined : Joined pieces text) (next : Bytes)
      (separated : text = [] ∨ endsInSpace text = true ∨ next.head?.any isspace = true) :
      Joined (pieces ++ [next]) (text ++ next)

/-- A call of `query_sappend`, or of `query_append` without a symbol, whose
arguments match its format. -/
structure Call where
  symbol : Option CString
  cmd : Option CString
  args : List Param
  toks : List Token
  parsed : tokens ((cmd.map CString.bytes).getD []) args = some toks

def Call.run (call : Call) (q : Query) : Option Query :=
  querySappend q call.symbol call.cmd call.args

/-- Calls in order. -/
def appendAll : List Call → Query → Option Query
  | [], q => some q
  | call :: calls, q => (call.run q).bind (appendAll calls)

def Call.symbolBytes (call : Call) : Bytes :=
  (call.symbol.map CString.bytes).getD []

def Call.pieces (call : Call) : List (List Token) :=
  (if call.symbolBytes = [] then [] else [call.symbolBytes.map .char]) ++
    if call.toks = [] then [] else [call.toks]

def Call.text (call : Call) (text : Bytes) (count : Nat) : Bytes :=
  let text := withSpace text ++ call.symbolBytes
  match call.cmd with
  | none => text
  | some cmd =>
    (if cmd.bytes.head? ≠ some 32 then withSpace text else text) ++ render count call.toks

/-- The text after some calls. -/
def textFrom : List Call → Bytes → Nat → Bytes
  | [], text, _ => text
  | call :: calls, text, count =>
    textFrom calls (call.text text count) (count + (params call.toks).length)

end Specification

section Parameters

/-- The list of parameters is a chain with the arguments, and the last one is the tail. -/
structure Listed (q : Query) (ids : List Nat) (given : List Param) : Prop where
  chain : Chain (fun id => (q.nodes id).next) q.first ids
  given_eq : ids.map (fun id => (q.nodes id).param) = given
  tail_eq : q.tail = ids.getLastD 0
  bound : ∀ id ∈ ids, id < q.fresh
  length_lt : ids.length < q.fresh
  count_eq : q.count = ids.length

variable {q : Query} {ids : List Nat} {given : List Param}

/-- Changes of the text do not matter. -/
theorem Listed.withQuery (listed : Listed q ids given) (query : PString) :
    Listed { q with query := query } ids given :=
  ⟨listed.chain, listed.given_eq, listed.tail_eq, listed.bound, listed.length_lt,
    listed.count_eq⟩

theorem next_last {next : Nat → Nat} {head last : Nat} {front : List Nat}
    (chain : Chain next head (front ++ [last])) : next last = 0 := by
  have atLast : Chain next last [last] := chain.suffix
  cases atLast with
  | cons _ rest => exact rest.head_eq

theorem next_insertAfter (nodes : Nat → Node) (base entry id : Nat) :
    (insertAfter nodes base entry id).next =
      if id = base then entry else if id = entry then (nodes base).next else (nodes id).next := by
  simp only [insertAfter]
  by_cases atBase : id = base
  · rw [if_pos atBase, atBase, Function.update_self]
  · rw [if_neg atBase, Function.update_of_ne atBase]
    by_cases atEntry : id = entry
    · rw [if_pos atEntry, atEntry, Function.update_self]
    · rw [if_neg atEntry, Function.update_of_ne atEntry]

theorem param_insertAfter {base entry : Nat} (apart : base ≠ entry) (nodes : Nat → Node)
    (id : Nat) : (insertAfter nodes base entry id).param = (nodes id).param := by
  simp only [insertAfter]
  by_cases atBase : id = base
  · rw [atBase, Function.update_self, Function.update_of_ne apart]
  · rw [Function.update_of_ne atBase]
    by_cases atEntry : id = entry
    · rw [atEntry, Function.update_self]
    · rw [Function.update_of_ne atEntry]

theorem Listed.fresh_ne (listed : Listed q ids given) {id : Nat} (member : id ∈ ids) :
    id ≠ q.fresh :=
  Nat.ne_of_lt (listed.bound id member)

theorem Listed.bound_append (listed : Listed q ids given) :
    ∀ id ∈ ids ++ [q.fresh], id < q.fresh + 1 := by
  intro id member
  rcases List.mem_append.mp member with member | member
  · exact Nat.lt_succ_of_lt (listed.bound id member)
  · rw [List.mem_singleton.mp member]
    exact Nat.lt_succ_self _

/-- The memory after the parameter has been written to a new node. -/
theorem Listed.param_fresh (listed : Listed q ids given) (p : Param) :
    (ids ++ [q.fresh]).map (fun id => (Function.update q.nodes q.fresh
      { q.nodes q.fresh with param := p } id).param) = given ++ [p] := by
  rw [List.map_append, List.map_singleton, Function.update_self, ← listed.given_eq]
  congr 1
  apply List.map_congr_left
  intro id member
  rw [Function.update_of_ne (listed.fresh_ne member)]

/-- The links after the new node has been inserted behind the tail. -/
theorem Listed.chain_insertAfter {front : List Nat} {tail : Nat}
    (listed : Listed q (front ++ [tail]) given) (p : Param) :
    Chain (fun id => (insertAfter (Function.update q.nodes q.fresh
      { q.nodes q.fresh with param := p }) tail q.fresh id).next) q.first
      (front ++ [tail] ++ [q.fresh]) := by
  have freshNonzero : q.fresh ≠ 0 := Nat.ne_zero_of_lt listed.length_lt
  have apart : tail ≠ q.fresh := listed.fresh_ne (by simp)
  have ended : (q.nodes tail).next = 0 := next_last listed.chain
  have rest : Chain (fun id => (insertAfter (Function.update q.nodes q.fresh
      { q.nodes q.fresh with param := p }) tail q.fresh id).next) q.fresh [q.fresh] := by
    refine .cons freshNonzero ?_
    rw [next_insertAfter, if_neg (Ne.symm apart), if_pos rfl,
      Function.update_of_ne apart, ended]
    exact .nil
  have whole : Chain (fun id => (q.nodes id).next) q.first (front ++ [tail] ++ []) := by
    rw [List.append_nil]
    exact listed.chain
  have grafted := whole.graft rest fun id member => by
    have old := listed.fresh_ne member
    rw [next_insertAfter, List.getLast?_concat, if_neg old, Function.update_of_ne old]
    simp only [Option.some.injEq, @eq_comm _ tail id]
  rwa [if_neg (by simp)] at grafted

/-- A parameter goes to the end of the list. -/
theorem queryAppendParam_spec (listed : Listed q ids given) (p : Param)
    (fits : (q.query.str ++ placeholder (q.count + 1)).length < q.query.size) :
    ∃ q' ids', queryAppendParam q p = some q' ∧ Listed q' ids' (given ++ [p]) ∧
      q'.query = ⟨q.query.str ++ placeholder (q.count + 1), q.query.size⟩ := by
  have freshNonzero : q.fresh ≠ 0 := Nat.ne_zero_of_lt listed.length_lt
  have length : (ids ++ [q.fresh]).length = ids.length + 1 := by
    rw [List.length_append, List.length_singleton]
  have last : (ids ++ [q.fresh]).getLastD 0 = q.fresh := List.getLastD_concat ..
  have values := listed.param_fresh p
  rcases List.eq_nil_or_concat' ids with rfl | ⟨front, tail, rfl⟩
  · -- The list is empty, and the parameter becomes its head.
    have noTail : q.tail = 0 := listed.tail_eq
    have noFirst : q.first = 0 := listed.chain.head_eq
    rw [queryAppendParam]
    dsimp only
    rw [if_neg (not_not.mpr noTail)]
    dsimp only
    rw [pstringAppendPrintf_of_fits fits, Option.map_some]
    refine ⟨_, [q.fresh], rfl,
      ⟨.cons freshNonzero ?_, ?_, rfl, listed.bound_append, ?_, ?_⟩, rfl⟩
    · simp only [Function.update_self, noFirst]
      exact .nil
    · simpa using values
    · exact Nat.succ_lt_succ listed.length_lt
    · rw [listed.count_eq]
      rfl
  · -- The parameter goes behind the tail.
    have isTail : q.tail = tail := listed.tail_eq.trans (List.getLastD_concat ..)
    have tailMem : tail ∈ front ++ [tail] := List.mem_append_right front (List.mem_singleton_self _)
    have tailNonzero : q.tail ≠ 0 := by
      rw [isTail]
      rintro rfl
      exact listed.chain.zero_notMem tailMem
    rw [queryAppendParam]
    dsimp only
    rw [if_pos tailNonzero]
    dsimp only
    rw [pstringAppendPrintf_of_fits fits, Option.map_some]
    refine ⟨_, front ++ [tail] ++ [q.fresh], rfl,
      ⟨?_, ?_, last.symm, listed.bound_append, ?_, ?_⟩, rfl⟩
    · rw [isTail]
      exact listed.chain_insertAfter p
    · rw [isTail]
      simpa only [param_insertAfter (listed.fresh_ne tailMem)] using values
    · rw [length]
      exact Nat.succ_lt_succ listed.length_lt
    · rw [length, listed.count_eq]

/-- `convert_param_array` goes through the list. -/
theorem convertLoop_spec {param : Nat} {fuel n : Nat}
    (chain : Chain (fun id => (q.nodes id).next) param ids) (enough : ids.length < fuel)
    (inside : n + ids.length ≤ q.count) :
    convertLoop q fuel n param = some (ids.map fun id => convertParam (q.nodes id).param) := by
  induction ids generalizing param fuel n with
  | nil =>
    obtain ⟨fuel, rfl⟩ := Nat.exists_eq_add_one_of_ne_zero (Nat.ne_zero_of_lt enough)
    have ended : param = 0 := chain.head_eq
    rw [convertLoop, if_pos ended, List.map_nil]
  | cons id ids ih =>
    obtain ⟨fuel, rfl⟩ := Nat.exists_eq_add_one_of_ne_zero (Nat.ne_zero_of_lt enough)
    rw [List.length_cons] at enough inside
    cases chain with
    | cons nonzero rest =>
      rw [convertLoop, if_neg nonzero, if_pos (by omega), ih rest (by omega) (by omega)]
      rfl

theorem convertParamArray_of_listed (listed : Listed q ids given) :
    convertParamArray q = some (given.map convertParam) := by
  rw [convertParamArray, convertLoop_spec listed.chain (Nat.lt_succ_of_lt listed.length_lt)
    (by rw [listed.count_eq, Nat.zero_add]), ← listed.given_eq, List.map_map]
  rfl

end Parameters

section Text

variable {q : Query} {ids : List Nat} {given : List Param}

/-- The query holds a text in a buffer of some size, and the parameters. -/
def Built (q : Query) (text : Bytes) (size : Nat) (given : List Param) : Prop :=
  q.query = ⟨text, size⟩ ∧ ∃ ids, Listed q ids given

variable {text : Bytes} {size : Nat}

theorem Built.count_eq (built : Built q text size given) : q.count = given.length := by
  obtain ⟨-, ids, listed⟩ := built
  rw [listed.count_eq, ← listed.given_eq, List.length_map]

theorem Built.withQuery (built : Built q text size given) (text' : Bytes) :
    Built { q with query := ⟨text', size⟩ } text' size given := by
  obtain ⟨-, ids, listed⟩ := built
  exact ⟨rfl, ids, listed.withQuery _⟩

theorem appendC_built (built : Built q text size given) {c : UInt8}
    (fits : (text ++ [c]).length < size) :
    ∃ q', appendC q c = some q' ∧ Built q' (text ++ [c]) size given := by
  refine ⟨{ q with query := ⟨text ++ [c], size⟩ }, ?_, built.withQuery _⟩
  rw [appendC, built.1, pstringAppendC_of_fits fits]
  rfl

theorem appendSpace_built (built : Built q text size given)
    (fits : (withSpace text).length < size) :
    ∃ q', appendSpace q = some q' ∧ Built q' (withSpace text) size given := by
  refine ⟨{ q with query := ⟨withSpace text, size⟩ }, ?_, built.withQuery _⟩
  rw [appendSpace, built.1, pstringAppendSpace_of_fits fits]
  rfl

theorem queryAppendParam_built (built : Built q text size given) (p : Param)
    (fits : (text ++ placeholder (given.length + 1)).length < size) :
    ∃ q', queryAppendParam q p = some q' ∧
      Built q' (text ++ placeholder (given.length + 1)) size (given ++ [p]) := by
  have count := built.count_eq
  obtain ⟨query, ids, listed⟩ := built
  obtain ⟨q', ids', appends, listed', query'⟩ :=
    queryAppendParam_spec listed p (by rw [query, count]; exact fits)
  refine ⟨q', appends, ?_, ids', listed'⟩
  rw [query', query, count]

theorem length_lt_of_append {left right : Bytes} (fits : (left ++ right).length < size) :
    left.length < size := by
  rw [List.length_append] at fits
  omega

/-- The rest of a format appends its text and its arguments to every query. -/
def Appends (size : Nat) (cmd : Bytes) (args : List Param) (toks : List Token) : Prop :=
  ∀ (q : Query) (text : Bytes) (given : List Param), Built q text size given →
    (text ++ render given.length toks).length < size →
    ∃ q', vappendLoop cmd args q = some q' ∧
      Built q' (text ++ render given.length toks) size (given ++ params toks)

/-- A byte, and then the rest. -/
theorem Appends.char {cmd : Bytes} {args : List Param} {toks : List Token}
    (rest : Appends size cmd args toks) (c : UInt8) (built : Built q text size given)
    (fits : (text ++ render given.length (.char c :: toks)).length < size) :
    ∃ q', (appendC q c).bind (vappendLoop cmd args) = some q' ∧
      Built q' (text ++ render given.length (.char c :: toks)) size
        (given ++ params (.char c :: toks)) := by
  rw [render, List.append_cons] at fits ⊢
  obtain ⟨q₁, appends, built₁⟩ := appendC_built built (length_lt_of_append fits)
  obtain ⟨q', loops, built'⟩ := rest q₁ _ given built₁ fits
  exact ⟨q', by rw [appends, Option.bind_some, loops], built'⟩

/-- The loop of `query_vappend` appends the text of the piece and its arguments. -/
theorem vappendLoop_appends (cmd : Bytes) (args : List Param) {toks : List Token}
    (parsed : tokens cmd args = some toks) : Appends size cmd args toks := by
  induction cmd, args using tokens.induct generalizing toks with
  | case1 =>
    rw [tokens, Option.some.injEq] at parsed
    subst parsed
    intro q text given built _
    refine ⟨q, rfl, ?_⟩
    rw [render, params, List.append_nil, List.append_nil]
    exact built
  | case2 | case3 | case5 => simp [tokens, *] at parsed
  | case4 args c cmd isOther ih =>
    simp only [tokens, if_true, isOther, Option.map_eq_some_iff] at parsed
    obtain ⟨rest, restParsed, rfl⟩ := parsed
    intro q text given built fits
    simp only [vappendLoop, if_true, isOther]
    exact (ih restParsed).char c built fits
  | case6 c cmd arg args isDirective ih =>
    simp only [tokens, if_true, isDirective, Option.map_eq_some_iff] at parsed
    obtain ⟨rest, restParsed, rfl⟩ := parsed
    intro q text given built fits
    simp only [vappendLoop, if_true, isDirective]
    rw [render, ← List.append_assoc] at fits ⊢
    obtain ⟨q₁, appends, built₁⟩ :=
      queryAppendParam_built built arg (length_lt_of_append fits)
    have count : (given ++ [arg]).length = given.length + 1 := by
      rw [List.length_append, List.length_singleton]
    obtain ⟨q', loops, built'⟩ := ih restParsed q₁ _ _ built₁ (by rw [count]; exact fits)
    refine ⟨q', by rw [appends, Option.bind_some, loops], ?_⟩
    rw [count] at built'
    rw [params, List.append_cons]
    exact built'
  | case7 c cmd kind isDirective arg args mismatch =>
    simp [tokens, isDirective, mismatch] at parsed
  | case8 c cmd args notPercent ih =>
    rw [tokens.eq_def] at parsed
    simp only [notPercent, if_false, Option.map_eq_some_iff] at parsed
    obtain ⟨rest, restParsed, rfl⟩ := parsed
    intro q text given built fits
    rw [vappendLoop.eq_def]
    simp only [notPercent, if_false]
    exact (ih restParsed).char c built fits

theorem withSpace_append (text : Bytes) : ∃ spaces, withSpace text = text ++ spaces := by
  rw [withSpace]
  split
  · exact ⟨[32], rfl⟩
  · exact ⟨[], (List.append_nil text).symm⟩

theorem length_lt_of_withSpace (fits : (withSpace text).length < size) : text.length < size := by
  obtain ⟨spaces, eq⟩ := withSpace_append text
  rw [eq] at fits
  exact length_lt_of_append fits

theorem appendSymbol_built (symbol : Option CString) (built : Built q text size given)
    (fits : (text ++ (symbol.map CString.bytes).getD []).length < size) :
    ∃ q', appendSymbol q symbol = some q' ∧
      Built q' (text ++ (symbol.map CString.bytes).getD []) size given := by
  cases symbol with
  | none =>
    rw [Option.map_none, Option.getD_none, List.append_nil]
    exact ⟨q, rfl, built⟩
  | some symbol =>
    rw [Option.map_some, Option.getD_some] at fits ⊢
    rw [appendSymbol]
    split
    · refine ⟨{ q with query := ⟨text ++ symbol.bytes, size⟩ }, ?_, built.withQuery _⟩
      rw [built.1, pstringAppendString_of_fits fits]
      rfl
    · rename_i isEmpty
      rw [not_not.mp isEmpty, List.append_nil]
      exact ⟨q, rfl, built⟩

/-- A call appends its pieces. -/
theorem call_built (call : Call) (built : Built q text size given)
    (fits : (call.text text given.length).length < size) :
    ∃ q', call.run q = some q' ∧
      Built q' (call.text text given.length) size (given ++ params call.toks) := by
  -- The text grows in each step, so that what fits at the end fits before.
  have symbolFits : (withSpace text ++ call.symbolBytes).length < size := by
    rw [Call.text] at fits
    split at fits
    · exact fits
    · have shorter := length_lt_of_append fits
      split at shorter
      · exact length_lt_of_withSpace shorter
      · exact shorter
  obtain ⟨q₁, spaced, built₁⟩ := appendSpace_built built (length_lt_of_append symbolFits)
  obtain ⟨q₂, appendsSymbol, built₂⟩ := appendSymbol_built call.symbol built₁ symbolFits
  rw [Call.run, querySappend, queryVappendSymbol, spaced, Option.bind_some, appendsSymbol,
    Option.bind_some]
  rw [Call.text] at fits ⊢
  have parsed := call.parsed
  cases isCmd : call.cmd with
  | none =>
    rw [isCmd, Option.map_none, Option.getD_none] at parsed
    have noToks : call.toks = [] := by
      cases isArgs : call.args with
      | nil =>
        rw [isArgs, tokens, Option.some.injEq] at parsed
        exact parsed.symm
      | cons arg args =>
        rw [isArgs, tokens] at parsed
        exact absurd parsed.symm (Option.some_ne_none _)
    rw [noToks, params, List.append_nil]
    exact ⟨q₂, rfl, built₂⟩
  | some cmd =>
    rw [isCmd, Option.map_some, Option.getD_some] at parsed
    rw [isCmd] at fits
    dsimp only at fits ⊢
    rw [queryVappend]
    by_cases startsWithSpace : cmd.bytes.head? ≠ some 32
    · rw [if_pos startsWithSpace] at fits ⊢
      rw [if_pos startsWithSpace]
      obtain ⟨q₃, spaced₃, built₃⟩ := appendSpace_built built₂ (length_lt_of_append fits)
      rw [spaced₃, Option.bind_some]
      exact vappendLoop_appends cmd.bytes call.args parsed q₃ _ given built₃ fits
    · rw [if_neg startsWithSpace] at fits ⊢
      rw [if_neg startsWithSpace, Option.bind_some]
      exact vappendLoop_appends cmd.bytes call.args parsed q₂ _ given built₂ fits

theorem Call.text_append (call : Call) (text : Bytes) (count : Nat) :
    ∃ more, call.text text count = text ++ more := by
  obtain ⟨spaces, eq⟩ := withSpace_append text
  rw [Call.text]
  split
  · exact ⟨spaces ++ call.symbolBytes, by rw [eq, List.append_assoc]⟩
  · split
    · obtain ⟨more, eq'⟩ := withSpace_append (withSpace text ++ call.symbolBytes)
      rw [eq', eq]
      exact ⟨spaces ++ (call.symbolBytes ++ (more ++ render count call.toks)), by
        simp only [List.append_assoc]⟩
    · exact ⟨spaces ++ (call.symbolBytes ++ render count call.toks), by
        simp only [eq, List.append_assoc]⟩

theorem textFrom_append (calls : List Call) (text : Bytes) (count : Nat) :
    ∃ more, textFrom calls text count = text ++ more := by
  induction calls generalizing text count with
  | nil => exact ⟨[], (List.append_nil text).symm⟩
  | cons call calls ih =>
    obtain ⟨first, eq⟩ := call.text_append text count
    obtain ⟨more, eq'⟩ := ih (call.text text count) (count + (params call.toks).length)
    exact ⟨first ++ more, by rw [textFrom, eq', eq, List.append_assoc]⟩

/-- The arguments of calls in order. -/
def argsOf (calls : List Call) : List Param :=
  calls.flatMap fun call => params call.toks

theorem appendAll_built (calls : List Call) (built : Built q text size given)
    (fits : (textFrom calls text given.length).length < size) :
    ∃ q', appendAll calls q = some q' ∧
      Built q' (textFrom calls text given.length) size (given ++ argsOf calls) := by
  induction calls generalizing q text given with
  | nil =>
    rw [argsOf, List.flatMap_nil, List.append_nil]
    exact ⟨q, rfl, built⟩
  | cons call calls ih =>
    rw [textFrom] at fits ⊢
    have callFits : (call.text text given.length).length < size := by
      obtain ⟨more, eq⟩ := textFrom_append calls (call.text text given.length)
        (given.length + (params call.toks).length)
      rw [eq] at fits
      exact length_lt_of_append fits
    obtain ⟨q₁, runs, built₁⟩ := call_built call built callFits
    rw [← List.length_append] at fits ⊢
    obtain ⟨q', later, built'⟩ := ih built₁ fits
    refine ⟨q', by rw [appendAll, runs, Option.bind_some, later], ?_⟩
    rw [argsOf, List.flatMap_cons, ← List.append_assoc]
    exact built'

end Text

section Pieces

variable {pieces : List Bytes} {text : Bytes} {count : Nat}

/-- After `pstring_append_space` a piece can follow. -/
theorem withSpace_joined (joined : Joined pieces text) :
    Joined pieces (withSpace text) ∧
      (withSpace text = [] ∨ endsInSpace (withSpace text) = true) := by
  rw [withSpace]
  split
  · refine ⟨joined.space, Or.inr ?_⟩
    rw [endsInSpace, List.getLast?_concat]
    rfl
  · rename_i notNeeded
    refine ⟨joined, ?_⟩
    by_cases empty : text = []
    · exact Or.inl empty
    · exact Or.inr (by simpa [empty] using notNeeded)

theorem render_chars (bytes : Bytes) : render count (bytes.map .char) = bytes := by
  induction bytes with
  | nil => rfl
  | cons c bytes ih => rw [List.map_cons, render, ih]

theorem params_chars (bytes : Bytes) : params (bytes.map .char) = [] := by
  induction bytes with
  | nil => rfl
  | cons c bytes ih => rw [List.map_cons, params, ih]

theorem renderAll_append (first second : List (List Token)) :
    renderAll count (first ++ second) =
      renderAll count first ++ renderAll (count + (first.flatMap params).length) second := by
  induction first generalizing count with
  | nil => rfl
  | cons piece first ih =>
    rw [List.cons_append, renderAll, renderAll, ih, List.flatMap_cons, List.length_append,
      List.cons_append, Nat.add_assoc]

theorem Call.symbol_params (call : Call) :
    (if call.symbolBytes = [] then []
      else [call.symbolBytes.map Token.char]).flatMap params = [] := by
  split
  · rfl
  · rw [List.flatMap_singleton, params_chars]

theorem Call.pieces_params (call : Call) : call.pieces.flatMap params = params call.toks := by
  rw [Call.pieces, List.flatMap_append, call.symbol_params, List.nil_append]
  split
  · rename_i empty
    rw [empty]
    rfl
  · rw [List.flatMap_singleton]

/-- Text that starts with a blank gives a piece that starts with one. -/
theorem render_head_space (count : Nat) {cmd : Bytes} {args : List Param} {toks : List Token}
    (parsed : tokens cmd args = some toks) (blank : cmd.head? = some 32) :
    (render count toks).head?.any isspace = true := by
  cases cmd with
  | nil => exact absurd blank.symm (Option.some_ne_none _)
  | cons c cmd =>
    rw [List.head?_cons, Option.some.injEq] at blank
    subst blank
    rw [tokens.eq_def] at parsed
    simp only [show (32 : UInt8) ≠ 37 by decide, if_false, Option.map_eq_some_iff] at parsed
    obtain ⟨rest, -, rfl⟩ := parsed
    rfl

theorem tokens_nil_of_cmd_nil {args : List Param} {toks : List Token}
    (parsed : tokens [] args = some toks) : toks = [] := by
  cases args with
  | nil => exact (Option.some.inj parsed).symm
  | cons arg args => exact absurd parsed.symm (Option.some_ne_none toks)

/-- The text of a call has its pieces in order. -/
theorem call_joined (call : Call) (count : Nat) (joined : Joined pieces text) :
    Joined (pieces ++ renderAll count call.pieces) (call.text text count) := by
  obtain ⟨spaced, separated⟩ := withSpace_joined joined
  have symbolJoined : Joined (pieces ++ renderAll count
      (if call.symbolBytes = [] then [] else [call.symbolBytes.map Token.char]))
      (withSpace text ++ call.symbolBytes) := by
    split
    · rename_i empty
      rw [empty, List.append_nil, renderAll, List.append_nil]
      exact spaced
    · rw [renderAll, render_chars, renderAll]
      exact spaced.piece _ (separated.imp_right Or.inl)
  have parsed := call.parsed
  rw [Call.pieces, renderAll_append, call.symbol_params, List.length_nil, Nat.add_zero,
    ← List.append_assoc, Call.text]
  cases isCmd : call.cmd with
  | none =>
    rw [isCmd] at parsed
    rw [if_pos (tokens_nil_of_cmd_nil parsed), renderAll, List.append_nil]
    exact symbolJoined
  | some cmd =>
    rw [isCmd, Option.map_some, Option.getD_some] at parsed
    obtain ⟨spacedAgain, separatedAgain⟩ := withSpace_joined symbolJoined
    dsimp only
    by_cases notBlank : cmd.bytes.head? ≠ some 32
    · rw [if_pos notBlank]
      by_cases empty : call.toks = []
      · rw [if_pos empty, empty, render, List.append_nil, renderAll, List.append_nil]
        exact spacedAgain
      · rw [if_neg empty, renderAll, renderAll]
        exact spacedAgain.piece _ (separatedAgain.imp_right Or.inl)
    · have startsBlank := render_head_space count parsed (not_not.mp notBlank)
      have nonempty : call.toks ≠ [] := by
        intro empty
        rw [empty] at startsBlank
        exact Bool.noConfusion startsBlank
      rw [if_neg notBlank, if_neg nonempty, renderAll, renderAll]
      exact symbolJoined.piece _ (Or.inr (Or.inr startsBlank))

/-- The pieces of all calls are joined. -/
theorem textFrom_joined (calls : List Call) (joined : Joined pieces text) :
    Joined (pieces ++ renderAll count (calls.flatMap Call.pieces)) (textFrom calls text count) := by
  induction calls generalizing pieces text count with
  | nil =>
    rw [List.flatMap_nil, renderAll, List.append_nil]
    exact joined
  | cons call calls ih =>
    have first := call_joined call count joined
    rw [List.flatMap_cons, renderAll_append, call.pieces_params, ← List.append_assoc, textFrom]
    exact ih first

end Pieces

section Encoding

/-- The binary format of integers in the database: two's complement in network
order. -/
def networkBytes (count : Nat) (value : Int) : Bytes :=
  ((List.range count).map fun place => UInt8.ofInt (value / 256 ^ place)).reverse

def secondsTo2000 : Nat := 946684800

/-- The value of a timestamp in the database: microseconds since 2000. -/
def timestamp (t : UInt32) : Int :=
  ((t.toNat : Int) - secondsTo2000) * 1000000

/-- What is sent is the argument in the binary format of its type, times from
2000 on; text is sent as it is. -/
def Encodes : Param → Converted → Prop
  | .bool d, sent => sent = ⟨some [if d = 0 then 0 else 1], 1, 1⟩
  | .int d, sent => sent = ⟨some (networkBytes 4 d.toInt), 4, 1⟩
  | .bigint l, sent => sent = ⟨some (networkBytes 8 l.toInt), 8, 1⟩
  | .time t, sent => ∃ r, sent = ⟨some r, 8, 1⟩ ∧ r.length = 8 ∧
      (secondsTo2000 ≤ t.toNat → r = networkBytes 8 (timestamp t))
  | .string s, sent => sent = ⟨s.map CString.bytes, 0, 0⟩

theorem networkBytes_length (count : Nat) (value : Int) :
    (networkBytes count value).length = count := by
  simp [networkBytes]

theorem bigEndian_eq_networkBytes {count number : Nat} {value : Int}
    (same : (number : Int) = value % 256 ^ count) :
    bigEndian count number = networkBytes count value := by
  rw [bigEndian, networkBytes, LittleEndian.bytes_eq_of_emod same]

theorem bigEndian_int32 (d : Int32) :
    bigEndian 4 d.toUInt32.toNat = networkBytes 4 d.toInt := by
  apply bigEndian_eq_networkBytes
  have small := d.toUInt32.toNat_lt
  have signed : d.toInt = d.toBitVec.toInt := rfl
  have unsigned : d.toUInt32.toNat = d.toBitVec.toNat := rfl
  rw [BitVec.toInt_eq_toNat_cond] at signed
  split at signed <;> omega

theorem bigEndian_int64 (l : Int64) :
    bigEndian 8 l.toUInt64.toNat = networkBytes 8 l.toInt := by
  apply bigEndian_eq_networkBytes
  have small := l.toUInt64.toNat_lt
  have signed : l.toInt = l.toBitVec.toInt := rfl
  have unsigned : l.toUInt64.toNat = l.toBitVec.toNat := rfl
  rw [BitVec.toInt_eq_toNat_cond] at signed
  split at signed <;> omega

/-- From 2000 on the unsigned difference does not wrap. -/
theorem timeToTs_toInt {t : UInt32} (late : secondsTo2000 ≤ t.toNat) :
    (timeToTs t).toInt = timestamp t := by
  have le : postgresEpochTime ≤ t := UInt32.le_iff_toNat_le.mpr late
  have difference : (t - postgresEpochTime).toNat = t.toNat - secondsTo2000 :=
    UInt32.toNat_sub_of_le _ _ le
  have small := t.toNat_lt
  rw [timeToTs, difference, Int64.toInt_ofInt_of_le (by omega) (by omega), timestamp]
  omega

theorem convertParam_encodes (p : Param) : Encodes p (convertParam p) := by
  cases p with
  | bool d =>
    rw [Encodes, convertParam]
    by_cases zero : d = 0 <;> simp [zero]
  | int d =>
    rw [Encodes, convertParam, bigEndian_int32]
  | bigint l =>
    rw [Encodes, convertParam, bigEndian_int64]
  | time t =>
    refine ⟨networkBytes 8 (timeToTs t).toInt, ?_, networkBytes_length _ _, ?_⟩
    · rw [convertParam, bigEndian_int64]
    · intro late
      rw [timeToTs_toInt late]
  | string s => exact rfl

end Encoding

/-- What the calls have built. -/
structure Aligned (calls : List Call) (q : Query) : Prop where
  joined : Joined (renderAll 0 (calls.flatMap Call.pieces)) q.query.str
  count_eq : q.count = (argsOf calls).length
  listed : ∃ ids, Listed q ids (argsOf calls)
  encoded : ∃ sent, convertParamArray q = some sent ∧ List.Forall₂ Encodes (argsOf calls) sent

/-- Text and parameters of every query are aligned if the text fits. -/
theorem query_aligned (size : Nat) (nodes : Nat → Node) (calls : List Call) {q₀ : Query}
    (new : queryNew size nodes = some q₀)
    (fits : (textFrom calls [] 0).length < q₀.query.size) :
    ∃ q, appendAll calls q₀ = some q ∧ q.query.str = textFrom calls [] 0 ∧ Aligned calls q := by
  obtain ⟨query, created, rfl⟩ := Option.map_eq_some_iff.mp new
  obtain ⟨rounded, -, rfl⟩ := Option.map_eq_some_iff.mp created
  have listed : Listed ⟨⟨[], rounded⟩, 0, 0, 0, nodes, 1⟩ [] [] :=
    ⟨.nil, rfl, rfl, fun id member => absurd member List.not_mem_nil, Nat.one_pos, rfl⟩
  obtain ⟨q, appends, built⟩ := appendAll_built calls ⟨rfl, [], listed⟩ fits
  have count := built.count_eq
  obtain ⟨text, ids, listed'⟩ := built
  rw [List.nil_append] at listed' count
  refine ⟨q, appends, by rw [text]; rfl, ?_, count, ⟨ids, listed'⟩, _,
    convertParamArray_of_listed listed', ?_⟩
  · rw [text]
    exact textFrom_joined calls Joined.nil
  · rw [List.forall₂_map_right_iff, List.forall₂_same]
    exact fun p _ => convertParam_encodes p

/-- Memory before anything has been allocated. -/
def noNodes (_ : Nat) : Node := ⟨.bool 0, 0⟩

/-- A fresh query of the default size. -/
def freshQuery : Query := ⟨⟨[], 512⟩, 0, 0, 0, noNodes, 1⟩

/-- `query_sappend(q, "a", "b=%d", -5)` and `query_append(q, " c=%s%%%t", "d", t)`. -/
def sampleCalls : List Call :=
  [⟨some (.ofBytes [97]), some (.ofBytes [98, 61, 37, 100]), [.int (-5)],
      [.char 98, .char 61, .param (.int (-5))], rfl⟩,
    ⟨none, some (.ofBytes [32, 99, 61, 37, 115, 37, 37, 37, 116]),
      [.string (some (.ofBytes [100])), .time 946684801],
      [.char 32, .char 99, .char 61, .param (.string (some (.ofBytes [100]))), .char 37,
        .param (.time 946684801)], rfl⟩]

/-- The text is `a b=$1  c=$2%$3`. -/
theorem query_aligned_sample :
    ∃ q, appendAll sampleCalls freshQuery = some q ∧
      q.query.str = [97, 32, 98, 61, 36, 49, 32, 32, 99, 61, 36, 50, 37, 36, 51] ∧
      Aligned sampleCalls q :=
  query_aligned 0 noNodes sampleCalls rfl (by decide)

/-- `query_append(q, "%x")`. -/
def percentCall : Call := ⟨none, some (.ofBytes [37, 120]), [], [.char 120], rfl⟩

/-- `query_append` of a line and of a letter. -/
def lineCalls : List Call :=
  [⟨none, some (.ofBytes [97, 10]), [], [.char 97, .char 10], rfl⟩,
    ⟨none, some (.ofBytes [98]), [], [.char 98], rfl⟩]

/-- `query_append(q, "%t", 0)`. -/
def timeCall : Call := ⟨none, some (.ofBytes [37, 116]), [.time 0], [.param (.time 0)], rfl⟩

/-- `%x` is not copied verbatim, there is no space after a line, and the time 0
is sent as one in 2106. -/
theorem query_not_as_claimed :
    (appendAll [percentCall] freshQuery).map (fun q => q.query.str) = some [120] ∧
      (appendAll lineCalls freshQuery).map (fun q => q.query.str) = some [97, 10, 98] ∧
      (32 : UInt8) ∉ ([97, 10, 98] : Bytes) ∧
      (appendAll [timeCall] freshQuery).bind convertParamArray =
        some [⟨some (networkBytes 8 ((2 ^ 32 - 946684800) * 1000000)), 8, 1⟩] ∧
      networkBytes 8 ((2 ^ 32 - 946684800) * 1000000) ≠ networkBytes 8 (timestamp 0) :=
  ⟨rfl, rfl, by decide, by decide, by decide⟩

end QueryBuilder

end Fbbs
