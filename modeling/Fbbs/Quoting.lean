import Fbbs.LineFraming
import Fbbs.QuoteLines
import Fbbs.TextScan

/-!
# Quotations of posts

`quote_string` of `lib/post.c` walks through a text by pieces of lines and writes those that are
to be quoted.  What it writes is a list with an item for each call of the output filter.
-/

namespace Fbbs

namespace Quoting

open LineFraming QuoteLines TextScan

/-- `post_quote_e`. -/
inductive PostQuote
  | nothing
  | auto
  | long
  | source
  | all
  | pack
  | packCompact
  deriving DecidableEq

def PostQuote.isPack (mode : PostQuote) : Bool :=
  mode == .pack || mode == .packCompact

def maxQuotedLines : Nat := 5

/-- A quotation mark with a blank behind it that does not end the text. -/
def isQuotation : Bytes → Bool
  | c :: 32 :: _ :: _ => c == 58 || c == 62
  | _ => false

def isBlank (c : UInt8) : Bool :=
  c == 32 || c == 9 || c == 13

def qualifyQuotation (line : Bytes) : Bool :=
  if isQuotation line && isQuotation (line.drop 2) then false
  else
    match ((if isQuotation line then line.drop 2 else line).dropWhile isBlank).head? with
    | none => false
    | some c => c != newline

/-- The length of the first line with its newline. -/
def getNewline : Bytes → Nat
  | [] => 0
  | c :: s => if c = newline then 1 else getNewline s + 1

/-- The user in the first line of a post, if any: what is between the first blank and the last
closing parenthesis. -/
def quotedUser (line : Bytes) : List Bytes :=
  let quser := min (line.idxOf 32 + 1) line.length
  let ptr := (lastIndex line 41 0 line.length).elim 0 (· + 1)
  if ptr > quser then [slice line quser ptr] else []

def quoteAuthor (line : Bytes) (mail utf8 : Bool) : List Bytes :=
  if utf8 then
    [[10, 227, 128, 144, 32, 229, 156, 168, 32]] ++ quotedUser line ++ [[32, 231, 154, 132]] ++
      [if mail then [230, 157, 165, 228, 191, 161] else [229, 164, 167, 228, 189, 156]] ++
      [[228, 184, 173, 230, 143, 144, 229, 136, 176, 58, 32, 227, 128, 145, 10]]
  else
    [[10, 161, 190, 32, 212, 218, 32]] ++ quotedUser line ++ [[32, 181, 196]] ++
      [if mail then [192, 180, 208, 197] else [180, 243, 215, 247]] ++
      [[214, 208, 204, 225, 181, 189, 58, 32, 161, 191, 10]]

def userLabel : Nat := 11

def quoteAuthorPack (text : Bytes) : List Bytes :=
  let lend := getNewline text
  let dateLine := (text.drop lend).take (getNewline (text.drop lend))
  let user :=
    match lastIndex text 44 0 lend with
    | some userEnd => if userEnd > userLabel then [slice text userLabel userEnd] else []
    | none => []
  let date :=
    match index dateLine 40 0 dateLine.length, index dateLine 41 0 dateLine.length with
    | some dateBegin, some dateEnd =>
      if dateEnd > dateBegin + 1 then [slice dateLine (dateBegin + 1) dateEnd] else []
    | _, _ => []
  [[32, 32, 32, 32, 27, 91, 48, 59, 49, 59, 51, 50, 109]] ++ user ++
    [[32, 228, 186, 142, 32, 27, 91, 49, 59, 51, 54, 109]] ++ date ++
    [[27, 91, 48, 59, 49, 109, 32, 230, 143, 144, 229, 136, 176, 239, 188, 154, 27, 91, 48, 109,
      10, 10]]

/-- `UTF8_SOURCE` or `GBK_SOURCE`. -/
def sourceMark (utf8 : Bool) : Bytes :=
  if utf8 then [226, 128, 187, 32, 230, 157, 165, 230, 186, 144, 58, 194, 183]
  else [161, 249, 32, 192, 180, 212, 180, 58, 161, 164]

/-- The comparison with the mark.  Its size counts the NUL behind it. -/
def isSource (utf8 : Bool) (line : Bytes) : Bool :=
  let size := (sourceMark utf8).length + 1
  line.length > 10 + size && (line.drop 10).take size == sourceMark utf8 ++ [0]

/-- Two hyphens in front of a signature. -/
def endMark : Bytes := [45, 45, newline]

def omission (utf8 : Bool) : Bytes :=
  [58, 32] ++ List.replicate 17 46 ++
    if utf8 then
      [239, 188, 136, 228, 187, 165, 228, 184, 139, 231, 156, 129, 231, 149, 165, 239, 188, 137]
    else [163, 168, 210, 212, 207, 194, 202, 161, 194, 212, 163, 169]

/-- A line as it is written. -/
def quoted (mode : PostQuote) (line : Bytes) : List Bytes :=
  (if mode = .source ∨ mode.isPack then [] else [[58, 32]]) ++ [line] ++
    if line.getLast? = some newline then [] else [[newline]]

/-- What the loop keeps: the text from the next line on, whether it is in the header and the
number of the lines quoted. -/
structure Quote where
  rest : Bytes
  header : Bool
  lines : Nat
  deriving DecidableEq

inductive Round
  | goOn (next : Quote) (written : List Bytes)
  | stop (written : List Bytes)
  deriving DecidableEq

/-- A round of the loop with text left. -/
def quoteRound (mode : PostQuote) (utf8 : Bool) (quote : Quote) : Round :=
  let size :=
    if mode.isPack then getNewline quote.rest else getTruncatedLine utf8 quote.rest
  let line := quote.rest.take size
  let more := quote.rest.drop size
  if quote.header ∧ line.head? = some newline then
    .goOn { quote with rest := more, header := false } []
  else if line = endMark ∧ (mode = .long ∨ mode = .auto ∨ mode.isPack) then .stop []
  else if quote.header ∧ mode ≠ .all then .goOn { quote with rest := more } []
  else if (mode = .long ∨ mode = .auto) ∧ ¬qualifyQuotation line then
    .goOn { quote with
      rest := if line.getLast? = some newline then more else more.drop (getNewline more) } []
  else if mode = .source ∧ isSource utf8 line then .stop []
  else if mode = .auto ∧ quote.lines + 1 > maxQuotedLines then .stop [omission utf8]
  else
    .goOn { quote with
      rest := more
      lines := if mode = .auto then quote.lines + 1 else quote.lines } (quoted mode line)

/-- The loop; `none` is one that has not ended. -/
def quoteLoop (mode : PostQuote) (utf8 : Bool) : Nat → Quote → Option (List Bytes)
  | 0, _ => none
  | fuel + 1, quote =>
    if quote.rest = [] then some []
    else
      match quoteRound mode utf8 quote with
      | .stop written => some written
      | .goOn next written => (quoteLoop mode utf8 fuel next).map (written ++ ·)

def author (mode : PostQuote) (mail utf8 : Bool) (text : Bytes) : List Bytes :=
  if mode.isPack then quoteAuthorPack text
  else quoteAuthor (text.take (getNewline text)) mail utf8

/-- Where the loop begins: behind the first line. -/
def start (text : Bytes) : Quote where
  rest := text.drop (getNewline text)
  header := true
  lines := 0

def quoteString (mode : PostQuote) (mail utf8 : Bool) (text : Bytes) : Option (List Bytes) :=
  (quoteLoop mode utf8 (text.length + 1) (start text)).map (author mode mail utf8 text ++ ·)

section Progress

variable {mode : PostQuote} {utf8 : Bool} {quote next : Quote} {written : List Bytes}

theorem getNewline_pos {text : Bytes} (nonempty : text ≠ []) : 0 < getNewline text := by
  cases text with
  | nil => exact absurd rfl nonempty
  | cons c text =>
    rw [getNewline]
    split_ifs
    · exact Nat.one_pos
    · exact Nat.succ_pos _

theorem getNewline_eq {text line after : Bytes} (isFirst : IsFirstLine text line after) :
    getNewline text = line.length := by
  obtain ⟨rfl, nonempty, plain, ends⟩ := isFirst
  induction line with
  | nil => exact absurd rfl nonempty
  | cons c line ih =>
    rw [List.cons_append, getNewline, List.length_cons]
    by_cases isNewline : c = newline
    · rw [if_pos isNewline]
      cases line with
      | nil => rfl
      | cons d line =>
        rw [isNewline, List.dropLast_cons_of_ne_nil (List.cons_ne_nil _ _)] at plain
        exact absurd List.mem_cons_self plain
    · rw [if_neg isNewline]
      cases line with
      | nil =>
        cases after with
        | nil => rfl
        | cons d after =>
          exact absurd (Option.some.inj (ends (List.cons_ne_nil _ _))) isNewline
      | cons d line =>
        rw [List.dropLast_cons_of_ne_nil (List.cons_ne_nil _ _)] at plain
        rw [ih (List.cons_ne_nil _ _) (fun member => plain (List.mem_cons_of_mem _ member))
          ends]

/-- A round leaves the lines it has looked at behind. -/
theorem quoteRound_drop (nonempty : quote.rest ≠ [])
    (round : quoteRound mode utf8 quote = .goOn next written) :
    ∃ n, 0 < n ∧ next.rest = quote.rest.drop n := by
  have byLine : 0 < getNewline quote.rest := getNewline_pos nonempty
  have byPiece : 0 < getTruncatedLine utf8 quote.rest := getTruncatedLine_pos utf8 nonempty
  simp only [quoteRound] at round
  generalize size : (if mode.isPack = true then getNewline quote.rest
    else getTruncatedLine utf8 quote.rest) = n at round
  have positive : 0 < n := by
    rw [← size]
    split_ifs <;> assumption
  split_ifs at round <;> cases round
  · exact ⟨n, positive, rfl⟩
  · exact ⟨n, positive, rfl⟩
  · exact ⟨n, positive, rfl⟩
  · exact ⟨n + getNewline (quote.rest.drop n), by omega, List.drop_drop⟩
  · exact ⟨n, positive, rfl⟩
  · exact ⟨n, positive, rfl⟩

theorem length_lt_of_round (nonempty : quote.rest ≠ [])
    (round : quoteRound mode utf8 quote = .goOn next written) :
    next.rest.length < quote.rest.length := by
  obtain ⟨n, positive, rest⟩ := quoteRound_drop nonempty round
  have some := List.length_pos_of_ne_nil nonempty
  rw [rest, List.length_drop]
  omega

theorem exists_quoteLoop {fuel : Nat} (enough : quote.rest.length < fuel) :
    ∃ out, quoteLoop mode utf8 fuel quote = some out := by
  induction fuel generalizing quote with
  | zero => omega
  | succ fuel ih =>
    rw [quoteLoop]
    by_cases ended : quote.rest = []
    · exact ⟨[], if_pos ended⟩
    · rw [if_neg ended]
      cases round : quoteRound mode utf8 quote with
      | stop written => exact ⟨written, rfl⟩
      | goOn next written =>
        have shorter := length_lt_of_round ended round
        obtain ⟨out, rest⟩ := @ih next (by omega)
        exact ⟨written ++ out, by simp only [rest, Option.map_some]⟩

end Progress

/-- The pieces behind the first that begins with a newline. -/
def afterHeader (lines : List Bytes) : List Bytes :=
  (lines.dropWhile fun line => line.head? != some newline).drop 1

section Source

variable {utf8 : Bool} {rest : Bytes} {fuel lines : Nat}

theorem quoteRound_source (utf8 : Bool) (rest : Bytes) (lines : Nat) :
    quoteRound .source utf8 ⟨rest, false, lines⟩ =
      if isSource utf8 (rest.take (getTruncatedLine utf8 rest)) then .stop []
      else
        .goOn ⟨rest.drop (getTruncatedLine utf8 rest), false, lines⟩
          (quoted .source (rest.take (getTruncatedLine utf8 rest))) := by
  simp [quoteRound, PostQuote.isPack]

theorem quoteRound_source_header (utf8 : Bool) (rest : Bytes) (lines : Nat) :
    quoteRound .source utf8 ⟨rest, true, lines⟩ =
      .goOn ⟨rest.drop (getTruncatedLine utf8 rest),
        (rest.take (getTruncatedLine utf8 rest)).head? != some newline, lines⟩ [] := by
  by_cases blank : (rest.take (getTruncatedLine utf8 rest)).head? = some newline <;>
    simp [quoteRound, PostQuote.isPack, blank]

theorem quoteLoop_source (enough : rest.length < fuel) :
    quoteLoop .source utf8 fuel ⟨rest, false, lines⟩ =
      some (((pieces utf8 rest).takeWhile fun line => !isSource utf8 line).flatMap
        (quoted .source)) := by
  induction fuel generalizing rest with
  | zero => omega
  | succ fuel ih =>
    rw [quoteLoop]
    by_cases ended : rest = []
    · subst ended
      simp [pieces_nil]
    · have shorter := length_drop_lt utf8 ended
      rw [if_neg ended, quoteRound_source, pieces_of_ne_nil ended]
      by_cases found : isSource utf8 (rest.take (getTruncatedLine utf8 rest))
      · simp [found]
      · simp only [found, Bool.false_eq_true, if_false, Bool.not_false, List.takeWhile_cons,
          if_true, List.flatMap_cons]
        rw [ih (by omega), Option.map_some]

theorem quoteLoop_source_header (enough : rest.length < fuel) :
    quoteLoop .source utf8 fuel ⟨rest, true, lines⟩ =
      some (((afterHeader (pieces utf8 rest)).takeWhile fun line => !isSource utf8 line).flatMap
        (quoted .source)) := by
  induction fuel generalizing rest with
  | zero => omega
  | succ fuel ih =>
    rw [quoteLoop]
    by_cases ended : rest = []
    · subst ended
      simp [pieces_nil, afterHeader]
    · have shorter : (rest.drop (getTruncatedLine utf8 rest)).length < fuel := by
        have less := length_drop_lt utf8 ended
        omega
      rw [if_neg ended, quoteRound_source_header, pieces_of_ne_nil ended, afterHeader,
        List.dropWhile_cons]
      by_cases blank : (rest.take (getTruncatedLine utf8 rest)).head? = some newline
      · simp only [blank, bne_self_eq_false, Bool.false_eq_true, if_false, List.drop_one,
          List.tail_cons]
        rw [quoteLoop_source shorter]
        rfl
      · have other : ((rest.take (getTruncatedLine utf8 rest)).head? != some newline) = true :=
          bne_iff_ne.mpr blank
        simp only [other, if_true]
        rw [ih shorter]
        rfl

end Source

end Quoting

end Fbbs
