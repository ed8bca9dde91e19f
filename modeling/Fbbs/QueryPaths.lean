import Fbbs.QueryText

/-!
# The two paths of a query

`db_exec` of `lib/pg.c` builds a query from a format that takes arguments, and sends a format that
takes none as it is.  A `%` is written twice in a format, and only the first path makes one of it.
-/

namespace Fbbs

namespace QueryBuilder

open PString

def isSupportedFormat (c : UInt8) : Bool :=
  c = 100 || c = 108 || c = 115 || c = 116 || c = 98

/-- `get_num_args`; `none` for a `%` at the end, where it reads on behind the text. -/
def getNumArgs : Bytes → Option Nat
  | [] => some 0
  | c :: cmd =>
    if c = 37 then
      match cmd with
      | [] => none
      | c :: cmd =>
        (getNumArgs cmd).map fun argc => if isSupportedFormat c then argc + 1 else argc
    else getNumArgs cmd

/-- The text that `db_exec` sends. -/
def dbExec (nodes : Nat → Node) (cmd : CString) (args : List Param) : Option Bytes :=
  (getNumArgs cmd.bytes).bind fun argc =>
    if argc > 0 then
      (queryNew cmd.bytes.length nodes).bind fun q =>
        (queryVappend q (some cmd) args).map fun q => q.query.str
    else some cmd.bytes

/-- What follows the `%`s of a format; there is nothing to follow one at the end. -/
def directives : Bytes → Option (List UInt8)
  | [] => some []
  | c :: cmd =>
    if c = 37 then
      match cmd with
      | [] => none
      | c :: cmd => (directives cmd).map (c :: ·)
    else directives cmd

def takesArgument (c : UInt8) : Bool :=
  (directive c).isSome

def IsSupported (cmd : Bytes) (kinds : List UInt8) : Prop :=
  directives cmd = some kinds ∧ ∀ c ∈ kinds, c = 37 ∨ takesArgument c = true

/-- A new query with a block of some size. -/
def emptyQuery (size : Nat) (nodes : Nat → Node) : Query :=
  ⟨⟨[], size⟩, 0, 0, 0, nodes, 1⟩

/-- The arguments are counted as the placeholders are, and what is sent without arguments is what
would be built. -/
structure PathsAgree (cmd : CString) : Prop where
  counted : ∃ argc, getNumArgs cmd.bytes = some argc ∧
    ∀ q args q', queryVappend q (some cmd) args = some q' → q'.count = q.count + argc
  sent : getNumArgs cmd.bytes = some 0 → ∀ size nodes, cmd.bytes.length < size →
    ∃ q, queryVappend (emptyQuery size nodes) (some cmd) [] = some q ∧
      dbExec nodes cmd [] = some q.query.str

theorem isSupportedFormat_eq (c : UInt8) : isSupportedFormat c = takesArgument c := by
  rw [isSupportedFormat, takesArgument, directive]
  split_ifs <;> simp_all

section Counts

variable {cmd : Bytes} {kinds : List UInt8}

theorem getNumArgs_eq (found : directives cmd = some kinds) :
    getNumArgs cmd = some (kinds.countP takesArgument) := by
  induction cmd using directives.induct generalizing kinds with
  | case1 =>
    rw [directives] at found
    rw [← Option.some.inj found]
    rfl
  | case2 => simp [directives] at found
  | case3 c cmd ih =>
    simp only [directives, if_true, Option.map_eq_some_iff] at found
    obtain ⟨rest, foundRest, rfl⟩ := found
    simp only [getNumArgs, if_true, ih foundRest, Option.map_some, isSupportedFormat_eq,
      List.countP_cons]
    split <;> rfl
  | case4 c cmd notPercent ih =>
    rw [directives.eq_def] at found
    simp only [notPercent, if_false] at found
    rw [getNumArgs.eq_def]
    simp only [notPercent, if_false]
    exact ih found

theorem appendC_count {q q' : Query} {c : UInt8} (appended : appendC q c = some q') :
    q'.count = q.count := by
  obtain ⟨query, -, rfl⟩ := Option.map_eq_some_iff.mp appended
  rfl

theorem queryAppendParam_count {q q' : Query} {p : Param}
    (appended : queryAppendParam q p = some q') : q'.count = q.count + 1 := by
  rw [queryAppendParam] at appended
  obtain ⟨query, -, rfl⟩ := Option.map_eq_some_iff.mp appended
  dsimp only
  split <;> rfl

/-- The loop makes a placeholder for each directive that takes an argument. -/
theorem vappendLoop_count (found : directives cmd = some kinds) {args : List Param}
    {q q' : Query} (looped : vappendLoop cmd args q = some q') :
    q'.count = q.count + kinds.countP takesArgument := by
  induction cmd using directives.induct generalizing kinds args q with
  | case1 =>
    rw [directives] at found
    rw [vappendLoop] at looped
    rw [← Option.some.inj found, ← Option.some.inj looped]
    rfl
  | case2 => simp [directives] at found
  | case3 c cmd ih =>
    simp only [directives, if_true, Option.map_eq_some_iff] at found
    obtain ⟨rest, foundRest, rfl⟩ := found
    rw [List.countP_cons, takesArgument]
    simp only [vappendLoop, if_true] at looped
    cases kind : directive c with
    | none =>
      simp only [kind] at looped
      obtain ⟨q₁, appended, looped⟩ := Option.bind_eq_some_iff.mp looped
      rw [ih foundRest looped, appendC_count appended]
      rfl
    | some kind' =>
      simp only [kind] at looped
      cases args with
      | nil => cases looped
      | cons arg args =>
        simp only at looped
        split at looped
        · obtain ⟨q₁, appended, looped⟩ := Option.bind_eq_some_iff.mp looped
          rw [ih foundRest looped, queryAppendParam_count appended]
          simp only [Option.isSome_some, if_true]
          omega
        · cases looped
  | case4 c cmd notPercent ih =>
    rw [directives.eq_def] at found
    simp only [notPercent, if_false] at found
    rw [vappendLoop.eq_def] at looped
    simp only [notPercent, if_false] at looped
    obtain ⟨q₁, appended, looped⟩ := Option.bind_eq_some_iff.mp looped
    rw [ih found looped, appendC_count appended]

theorem appendSpace_count {q q' : Query} (appended : appendSpace q = some q') :
    q'.count = q.count := by
  obtain ⟨query, -, rfl⟩ := Option.map_eq_some_iff.mp appended
  rfl

theorem queryVappend_count {cmd : CString} (found : directives cmd.bytes = some kinds)
    {args : List Param} {q q' : Query} (appended : queryVappend q (some cmd) args = some q') :
    q'.count = q.count + kinds.countP takesArgument := by
  obtain ⟨q₁, spaced, looped⟩ := Option.bind_eq_some_iff.mp appended
  rw [vappendLoop_count found looped]
  split at spaced
  · rw [appendSpace_count spaced]
  · rw [Option.some.inj spaced]

/-- Without arguments the text is the format with one `%` for two. -/
theorem tokens_of_none (found : directives cmd = some kinds)
    (none : ∀ c ∈ kinds, takesArgument c = false) :
    ∃ text : Bytes, tokens cmd [] = some (text.map .char) ∧
      text.length + kinds.length = cmd.length ∧ (kinds = [] → text = cmd) := by
  induction cmd using directives.induct generalizing kinds with
  | case1 =>
    rw [directives] at found
    rw [← Option.some.inj found]
    exact ⟨[], rfl, rfl, fun _ => rfl⟩
  | case2 => simp [directives] at found
  | case3 c cmd ih =>
    simp only [directives, if_true, Option.map_eq_some_iff] at found
    obtain ⟨rest, foundRest, rfl⟩ := found
    rw [List.forall_mem_cons] at none
    have noKind : directive c = .none :=
      Option.isNone_iff_eq_none.mp (Option.isSome_eq_false_iff.mp none.1)
    obtain ⟨text, parsed, length, -⟩ := ih foundRest none.2
    refine ⟨c :: text, ?_, ?_, fun empty => by cases empty⟩
    · simp only [tokens, if_true, noKind, parsed, Option.map_some, List.map_cons]
    · simp only [List.length_cons]
      omega
  | case4 c cmd notPercent ih =>
    rw [directives.eq_def] at found
    simp only [notPercent, if_false] at found
    obtain ⟨text, parsed, length, same⟩ := ih found none
    refine ⟨c :: text, ?_, ?_, fun empty => by rw [same empty]⟩
    · rw [tokens.eq_def]
      simp only [notPercent, if_false, parsed, Option.map_some, List.map_cons]
    · simp only [List.length_cons]
      omega

end Counts

section Paths

variable {cmd : CString} {kinds : List UInt8}

theorem emptyQuery_built (size : Nat) (nodes : Nat → Node) :
    Built (emptyQuery size nodes) [] size [] :=
  ⟨rfl, [], .nil, rfl, rfl, fun _ member => absurd member List.not_mem_nil, Nat.one_pos, rfl⟩

/-- A format without arguments in a new query. -/
theorem queryVappend_text {text : Bytes} (parsed : tokens cmd.bytes [] = some (text.map .char))
    {size : Nat} (nodes : Nat → Node) (room : text.length < size) :
    ∃ q, queryVappend (emptyQuery size nodes) (some cmd) [] = some q ∧ q.query.str = text := by
  have built := emptyQuery_built size nodes
  have fits : (([] : Bytes) ++ render 0 (text.map .char)).length < size := by
    rw [render_chars]
    exact room
  have spaceFits : (withSpace []).length < size := Nat.zero_lt_of_lt room
  obtain ⟨q₁, started, built₁⟩ : ∃ q₁,
      (if cmd.bytes.head? ≠ some 32 then appendSpace (emptyQuery size nodes)
        else some (emptyQuery size nodes)) = some q₁ ∧ Built q₁ [] size [] := by
    split
    · exact appendSpace_built built spaceFits
    · exact ⟨_, rfl, built⟩
  obtain ⟨q, looped, ⟨final, -⟩⟩ := vappendLoop_appends cmd.bytes [] parsed q₁ [] [] built₁ fits
  refine ⟨q, ?_, ?_⟩
  · rw [queryVappend, started, Option.bind_some, looped]
  · rw [final, List.length_nil, render_chars]
    rfl

/-- The paths agree exactly for the formats that take an argument or have no `%`. -/
theorem pathsAgree_iff (supported : IsSupported cmd.bytes kinds) :
    PathsAgree cmd ↔ (37 ∈ kinds → ∃ c ∈ kinds, takesArgument c = true) := by
  have argc := getNumArgs_eq supported.1
  have executed (noArgs : kinds.countP takesArgument = 0) (nodes : Nat → Node) :
      dbExec nodes cmd [] = some cmd.bytes := by
    rw [dbExec, argc, noArgs]
    rfl
  constructor
  · intro agree percent
    by_contra noneTaken
    have none : ∀ c ∈ kinds, takesArgument c = false := by
      intro c member
      by_contra taken
      exact noneTaken ⟨c, member, Bool.not_eq_false _ ▸ taken⟩
    have noArgs : kinds.countP takesArgument = 0 := List.countP_eq_zero.mpr fun c member => by
      rw [none c member]
      exact Bool.false_ne_true
    obtain ⟨text, parsed, length, -⟩ := tokens_of_none supported.1 none
    have shorter : text.length < cmd.bytes.length := by
      have some := List.length_pos_of_mem percent
      omega
    obtain ⟨q, appended, sent⟩ := agree.sent (argc.trans (congrArg some noArgs))
      (cmd.bytes.length + 1) noNodes (Nat.lt_succ_self _)
    obtain ⟨q', appended', isText⟩ := queryVappend_text parsed noNodes
      (Nat.lt_succ_of_lt shorter)
    rw [appended, Option.some.injEq] at appended'
    rw [executed noArgs, Option.some.injEq, appended', isText] at sent
    rw [sent] at shorter
    exact Nat.lt_irrefl _ shorter
  · intro takes
    constructor
    · exact ⟨_, argc, fun q args q' => queryVappend_count supported.1⟩
    · intro isZero size nodes room
      rw [argc, Option.some.injEq] at isZero
      have none : ∀ c ∈ kinds, takesArgument c = false := fun c member =>
        Bool.eq_false_iff.mpr (List.countP_eq_zero.mp isZero c member)
      have noKinds : kinds = [] := by
        rw [List.eq_nil_iff_forall_not_mem]
        intro c member
        rcases supported.2 c member with rfl | taken
        · obtain ⟨c', member', taken'⟩ := takes member
          exact Bool.noConfusion ((none c' member').symm.trans taken')
        · exact Bool.noConfusion ((none c member).symm.trans taken)
      obtain ⟨text, parsed, -, same⟩ := tokens_of_none supported.1 none
      rw [same noKinds] at parsed
      obtain ⟨q, appended, isText⟩ := queryVappend_text parsed nodes room
      exact ⟨q, appended, by rw [executed isZero, isText]⟩

end Paths

theorem percents_nulFree : (0 : UInt8) ∉ ([37, 37] : Bytes) := by
  decide

/-- The format `%%`. -/
def percents : CString :=
  ⟨[37, 37], percents_nulFree⟩

/-- It is sent with both, and one would be built. -/
theorem percents_not_pathsAgree : ¬PathsAgree percents := by
  rintro ⟨-, sent⟩
  obtain ⟨q, appended, executed⟩ := sent rfl 8 noNodes (by decide)
  have built : (queryVappend (emptyQuery 8 noNodes) (some percents) []).map
      (fun q => q.query.str) = some [37] := rfl
  have asIs : dbExec noNodes percents [] = some [37, 37] := rfl
  rw [appended, Option.map_some, Option.some.injEq] at built
  rw [asIs, built] at executed
  exact absurd executed (by decide)

theorem percents_iff :
    PathsAgree percents ↔ (37 ∈ ([37] : List UInt8) → ∃ c ∈ ([37] : List UInt8),
      takesArgument c = true) :=
  have supported : IsSupported percents.bytes [37] := ⟨rfl, by simp⟩
  pathsAgree_iff supported

end QueryBuilder

end Fbbs
