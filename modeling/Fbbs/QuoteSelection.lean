import Fbbs.Quoting
import Mathlib.Data.List.TakeWhile
import Mathlib.Logic.Relation

/-!
# The lines that are quoted

What is quoted of a post are pieces of the lines between its header and its signature.  The loop
of `quote_string` looks at pieces only, and a piece at the end of a long line may look like the
blank line behind the header or like the line in front of a signature.
-/

namespace Fbbs

namespace QuoteSelection

open LineFraming QuoteLines Quoting Relation

/-- A line in front of a signature. -/
def isEndLine (line : Bytes) : Bool :=
  line == endMark || line == [45, 45]

/-- The lines behind the first that is blank, up to a signature. -/
def selectedLines (lines : List Bytes) : List Bytes :=
  ((lines.takeWhile fun line => !isEndLine line).dropWhile (· != [newline])).drop 1

def textLines (text : Bytes) : List Bytes :=
  splitLines (text.drop (getNewline text))

def bodyPieces (utf8 : Bool) (text : Bytes) : List Bytes :=
  (selectedLines (textLines text)).flatMap (pieces utf8)

/-- The pieces of a line that qualify.  With a piece that does not the rest of the line is left
out. -/
def linePieces (utf8 : Bool) (line : Bytes) : List Bytes :=
  (pieces utf8 line).takeWhile qualifyQuotation

def selectedPieces (utf8 : Bool) (text : Bytes) : List Bytes :=
  (selectedLines (textLines text)).flatMap (linePieces utf8)

def IsBlankLine (line : Bytes) : Prop :=
  ∀ c ∈ line, isBlank c = true ∨ c = newline

/-- A quotation of a quotation. -/
def IsNested (line : Bytes) : Prop :=
  ∃ first second rest, (first = 58 ∨ first = 62) ∧ (second = 58 ∨ second = 62) ∧
    line = first :: 32 :: second :: 32 :: rest

/-- Pieces of the lines in their order, a few of them in `QUOTE_AUTO`, and a notice there if more
pieces qualify. -/
structure Selection (mode : PostQuote) (utf8 : Bool) (text : Bytes) (selected : List Bytes)
    (notice : Bool) : Prop where
  inOrder : selected.Sublist (bodyPieces utf8 text)
  meaningful : ∀ line ∈ selected, ¬IsBlankLine line ∧ ¬IsNested line
  few : mode = .auto → selected.length ≤ maxQuotedLines
  noticed : notice = true ↔ mode = .auto ∧ selected.length < (selectedPieces utf8 text).length

/-- A selection as it is written. -/
def display (mode : PostQuote) (utf8 : Bool) (selected : List Bytes) (notice : Bool) :
    List Bytes :=
  selected.flatMap (quoted mode) ++ if notice then [omission utf8] else []

/-- What is written behind the author is a selection. -/
def Selects (mode : PostQuote) (mail utf8 : Bool) (text : Bytes) (out : List Bytes) : Prop :=
  ∃ selected notice, Selection mode utf8 text selected notice ∧
    out = author mode mail utf8 text ++ display mode utf8 selected notice

/-- One round of the loop, if it goes on. -/
def Goes (mode : PostQuote) (utf8 : Bool) (quote next : Quote) : Prop :=
  quote.rest ≠ [] ∧ ∃ written, quoteRound mode utf8 quote = .goOn next written

/-- The pieces of a line that matter: all in a header, and those up to the first that does not
qualify behind it. -/
def looked (utf8 header : Bool) (line : Bytes) : List Bytes :=
  if header then pieces utf8 line
  else linePieces utf8 line ++ ((pieces utf8 line).dropWhile qualifyQuotation).take 1

/-- In the text the line has the same pieces, and behind the first there is none that looks like
a line of its own. -/
structure LineKept (utf8 header : Bool) (line after : Bytes) : Prop where
  inText : looked utf8 header line <+: pieces utf8 (line ++ after)
  notBlank : header = true → [newline] ∉ (looked utf8 header line).drop 1
  notEnd : endMark ∉ (looked utf8 header line).drop 1

theorem lineKept_iff (utf8 header : Bool) (line after : Bytes) :
    (looked utf8 header line <+: pieces utf8 (line ++ after) ∧
      (header = true → ((looked utf8 header line).drop 1).all (· != [newline]) = true) ∧
      ((looked utf8 header line).drop 1).all (· != endMark) = true) ↔
    LineKept utf8 header line after := by
  have absent (piece : Bytes) (others : List Bytes) :
      others.all (· != piece) = true ↔ piece ∉ others := by
    simp only [List.all_eq_true, bne_iff_ne]
    constructor
    · exact fun other member => other piece member rfl
    · exact fun absent _ member => ne_of_mem_of_not_mem member absent
  rw [absent, absent]
  exact ⟨fun kept => ⟨kept.1, kept.2.1, kept.2.2⟩, fun kept => ⟨kept.1, kept.2, kept.3⟩⟩

instance (utf8 header : Bool) (line after : Bytes) : Decidable (LineKept utf8 header line after) :=
  decidable_of_iff _ (lineKept_iff utf8 header line after)

/-- Lines up to a signature, with the text that follows on them. -/
def LinesKept (utf8 : Bool) : Bool → List Bytes → Bytes → Prop
  | _, [], _ => True
  | header, line :: lines, after =>
    isEndLine line = true ∨
      LineKept utf8 header line (lines.flatten ++ after) ∧
        LinesKept utf8 (header && line != [newline]) lines after

instance decidableLinesKept (utf8 : Bool) : ∀ header lines after,
    Decidable (LinesKept utf8 header lines after)
  | _, [], _ => isTrue trivial
  | header, line :: lines, after =>
    haveI := decidableLinesKept utf8 (header && line != [newline]) lines after
    inferInstanceAs (Decidable (_ ∨ _ ∧ _))

/-- The lines are kept, in `QUOTE_AUTO` as far as they are read. -/
def Kept (mode : PostQuote) (utf8 : Bool) (text : Bytes) : Prop :=
  ∃ part others, textLines text = part ++ others ∧ LinesKept utf8 true part others.flatten ∧
    (others = [] ∨
      mode = .auto ∧
        maxQuotedLines < ((selectedLines part).flatMap (linePieces utf8)).length)

/-- The line in front of a signature stands behind the header and has no newline. -/
def endsInMark : Bool → List Bytes → Bool
  | _, [] => false
  | header, line :: lines =>
    if isEndLine line then !header && line == [45, 45]
    else endsInMark (header && line != [newline]) lines

/-- As many pieces as the mode allows. -/
def chosen (mode : PostQuote) (selected : List Bytes) : List Bytes :=
  if mode = .auto then selected.take maxQuotedLines else selected

/-- Where the text ends it has neither a mark without a newline nor the marks of a quotation of a
quotation alone. -/
structure EndsWell (mode : PostQuote) (utf8 : Bool) (text : Bytes) : Prop where
  nested : ∀ line ∈ chosen mode (selectedPieces utf8 text), line.length = 4 → ¬IsNested line
  mark : endsInMark true (textLines text) = true →
    mode = .auto ∧ maxQuotedLines < (selectedPieces utf8 text).length

def piece (utf8 : Bool) (rest : Bytes) : Bytes :=
  rest.take (getTruncatedLine utf8 rest)

def more (utf8 : Bool) (rest : Bytes) : Bytes :=
  rest.drop (getTruncatedLine utf8 rest)

/-- What is left behind the line of the piece. -/
def skip (utf8 : Bool) (rest : Bytes) : Bytes :=
  if (piece utf8 rest).getLast? = some newline then more utf8 rest
  else (more utf8 rest).drop (getNewline (more utf8 rest))

section Predicates

variable {line : Bytes}

theorem not_isBlankLine (qualifies : qualifyQuotation line = true) : ¬IsBlankLine line := by
  intro blank
  rw [qualifyQuotation] at qualifies
  split at qualifies
  · cases qualifies
  · generalize isTail : (if isQuotation line then line.drop 2 else line) = tail at qualifies
    have inLine : ∀ c ∈ tail, c ∈ line := by
      intro c member
      rw [← isTail] at member
      split at member
      · exact List.mem_of_mem_drop member
      · exact member
    cases found : (tail.dropWhile isBlank).head? with
    | none =>
      rw [found] at qualifies
      cases qualifies
    | some c =>
      rw [found] at qualifies
      have notBlank := List.head?_dropWhile_not isBlank tail
      rw [found] at notBlank
      have member := inLine c ((List.dropWhile_sublist isBlank).subset (List.mem_of_head? found))
      rcases blank c member with white | isNewline
      · exact absurd (notBlank.symm.trans white) Bool.false_ne_true
      · exact absurd isNewline (bne_iff_ne.mp qualifies)

/-- Only the marks themselves, at the end of a text, are taken for more than a nested quotation. -/
theorem length_eq_four (qualifies : qualifyQuotation line = true) (nested : IsNested line) :
    line.length = 4 := by
  obtain ⟨first, second, rest, firstMark, secondMark, rfl⟩ := nested
  cases rest with
  | nil => rfl
  | cons c rest =>
    have isFirst : isQuotation (first :: 32 :: second :: 32 :: c :: rest) = true := by
      rcases firstMark with rfl | rfl <;> rfl
    have isSecond : isQuotation (second :: 32 :: c :: rest) = true := by
      rcases secondMark with rfl | rfl <;> rfl
    simp [qualifyQuotation, isFirst, isSecond] at qualifies

end Predicates

section Lines

/-- The selected lines of those that are left. -/
def selectedFrom : Bool → List Bytes → List Bytes
  | _, [] => []
  | header, line :: lines =>
    if isEndLine line then []
    else if header then selectedFrom (line != [newline]) lines
    else line :: selectedFrom false lines

theorem selectedFrom_false (lines : List Bytes) :
    selectedFrom false lines = lines.takeWhile fun line => !isEndLine line := by
  induction lines with
  | nil => rfl
  | cons line lines ih =>
    rw [selectedFrom, List.takeWhile_cons, ← ih]
    cases isEndLine line <;> rfl

theorem selectedFrom_true (lines : List Bytes) : selectedFrom true lines = selectedLines lines := by
  induction lines with
  | nil => rfl
  | cons line lines ih =>
    rw [selectedFrom, selectedLines, List.takeWhile_cons]
    cases ended : isEndLine line with
    | true => rfl
    | false =>
      simp only [Bool.false_eq_true, if_false, if_true, Bool.not_false, List.dropWhile_cons]
      cases isBlank : line != [newline] with
      | true => exact ih
      | false => exact selectedFrom_false lines

end Lines

/-- The pieces that are still written when a number of them have been. -/
def chosenFrom (mode : PostQuote) (count : Nat) (selected : List Bytes) : List Bytes :=
  if mode = .auto then selected.take (maxQuotedLines - count) else selected

def displayFrom (mode : PostQuote) (utf8 : Bool) (count : Nat) (selected : List Bytes) :
    List Bytes :=
  (chosenFrom mode count selected).flatMap (quoted mode) ++
    if mode = .auto ∧ maxQuotedLines - count < selected.length then [omission utf8] else []

section Display

variable {mode : PostQuote} {utf8 : Bool} {count : Nat} {selected : List Bytes}

theorem chosenFrom_nil (mode : PostQuote) (count : Nat) : chosenFrom mode count [] = [] := by
  simp [chosenFrom]

theorem displayFrom_nil (mode : PostQuote) (utf8 : Bool) (count : Nat) :
    displayFrom mode utf8 count [] = [] := by
  simp [displayFrom, chosenFrom_nil]

theorem chosenFrom_cons (line : Bytes) (free : mode = .auto → count < maxQuotedLines) :
    chosenFrom mode count (line :: selected) =
      line :: chosenFrom mode (if mode = .auto then count + 1 else count) selected := by
  rw [chosenFrom, chosenFrom]
  split_ifs with isAuto
  · have left : maxQuotedLines - count = maxQuotedLines - (count + 1) + 1 := by
      have some := free isAuto
      omega
    rw [left, List.take_succ_cons]
  · rfl

theorem displayFrom_cons (line : Bytes) (free : mode = .auto → count < maxQuotedLines) :
    displayFrom mode utf8 count (line :: selected) =
      quoted mode line ++
        displayFrom mode utf8 (if mode = .auto then count + 1 else count) selected := by
  rw [displayFrom, displayFrom, chosenFrom_cons line free, List.flatMap_cons, List.append_assoc]
  by_cases isAuto : mode = .auto
  · have some := free isAuto
    have same : maxQuotedLines - count < (line :: selected).length ↔
        maxQuotedLines - (count + 1) < selected.length := by
      rw [List.length_cons]
      omega
    simp only [isAuto, true_and, if_true, same]
  · simp only [isAuto, false_and, if_false]

/-- The notice, when no further piece may be written. -/
theorem displayFrom_full (utf8 : Bool) (isAuto : mode = .auto) (full : count + 1 > maxQuotedLines)
    (some : selected ≠ []) :
    displayFrom mode utf8 count selected = [omission utf8] ∧
      chosenFrom mode count selected = [] := by
  have none : maxQuotedLines - count = 0 := by omega
  have nothing : chosenFrom mode count selected = [] := by
    rw [chosenFrom, if_pos isAuto, none, List.take_zero]
  refine ⟨?_, nothing⟩
  rw [displayFrom, nothing, none, if_pos ⟨isAuto, List.length_pos_of_ne_nil some⟩]
  rfl

end Display

theorem quoteRound_selecting {mode : PostQuote} (selecting : mode = .long ∨ mode = .auto)
    (utf8 : Bool) (quote : Quote) :
    quoteRound mode utf8 quote =
      if quote.header ∧ (piece utf8 quote.rest).head? = some newline then
        .goOn ⟨more utf8 quote.rest, false, quote.lines⟩ []
      else if piece utf8 quote.rest = endMark then .stop []
      else if quote.header then .goOn ⟨more utf8 quote.rest, true, quote.lines⟩ []
      else if ¬qualifyQuotation (piece utf8 quote.rest) then
        .goOn ⟨skip utf8 quote.rest, false, quote.lines⟩ []
      else if mode = .auto ∧ quote.lines + 1 > maxQuotedLines then .stop [omission utf8]
      else
        .goOn ⟨more utf8 quote.rest, false, if mode = .auto then quote.lines + 1 else quote.lines⟩
          (quoted mode (piece utf8 quote.rest)) := by
  obtain ⟨rest, header, lines⟩ := quote
  rcases selecting with rfl | rfl <;> cases header <;>
    simp [quoteRound, PostQuote.isPack, piece, more, skip]

section Loop

variable {mode : PostQuote} {utf8 : Bool} {text : Bytes}

/-- The text that is left is an end of the text, and gets shorter with each round. -/
theorem suffix_of_goes {quote next : Quote} (goes : Goes mode utf8 quote next) :
    next.rest <:+ quote.rest ∧ next.rest.length < quote.rest.length := by
  obtain ⟨nonempty, written, round⟩ := goes
  obtain ⟨n, -, rest⟩ := quoteRound_drop nonempty round
  exact ⟨rest ▸ List.drop_suffix n _, length_lt_of_round nonempty round⟩

theorem suffix_of_visits {quote : Quote}
    (visits : ReflTransGen (Goes mode utf8) (start text) quote) : quote.rest <:+ text := by
  induction visits with
  | refl => exact List.drop_suffix _ _
  | tail visits goes ih => exact (suffix_of_goes goes).1.trans ih

/-- The pieces that qualify where the loop would go without a limit. -/
def walkedWithin (utf8 : Bool) : Nat → Bool → Bytes → List Bytes
  | 0, _, _ => []
  | fuel + 1, header, rest =>
    if rest = [] then []
    else if header ∧ (piece utf8 rest).head? = some newline then
      walkedWithin utf8 fuel false (more utf8 rest)
    else if piece utf8 rest = endMark then []
    else if header then walkedWithin utf8 fuel true (more utf8 rest)
    else if ¬qualifyQuotation (piece utf8 rest) then
      walkedWithin utf8 fuel false (skip utf8 rest)
    else piece utf8 rest :: walkedWithin utf8 fuel false (more utf8 rest)

/-- The same from where the text goes on. -/
def walked (utf8 header : Bool) (rest : Bytes) : List Bytes :=
  walkedWithin utf8 (rest.length + 1) header rest

theorem length_more_lt (utf8 : Bool) {rest : Bytes} (nonempty : rest ≠ []) :
    (more utf8 rest).length < rest.length :=
  length_drop_lt utf8 nonempty

theorem length_skip_lt (utf8 : Bool) {rest : Bytes} (nonempty : rest ≠ []) :
    (skip utf8 rest).length < rest.length := by
  have shorter := length_more_lt utf8 nonempty
  rw [skip]
  split_ifs
  · exact shorter
  · rw [List.length_drop]
    omega

theorem walkedWithin_eq {fuel : Nat} {header : Bool} {rest : Bytes} (enough : rest.length < fuel) :
    walkedWithin utf8 fuel header rest = walked utf8 header rest := by
  suffices same : ∀ less more, rest.length < less → less ≤ more →
      walkedWithin utf8 more header rest = walkedWithin utf8 less header rest from
    same (rest.length + 1) fuel (Nat.lt_succ_self _) enough
  clear enough
  intro less
  induction less generalizing header rest with
  | zero => exact fun _ short _ => absurd short (Nat.not_lt_zero _)
  | succ less ih =>
    intro most short order
    obtain ⟨most, rfl⟩ := Nat.exists_eq_add_of_le' (Nat.lt_of_lt_of_le (Nat.succ_pos less) order)
    rw [walkedWithin, walkedWithin]
    by_cases ended : rest = []
    · rw [if_pos ended, if_pos ended]
    · have later := length_more_lt utf8 ended
      have behind := length_skip_lt utf8 ended
      rw [if_neg ended, if_neg ended, @ih false (more utf8 rest) most (by omega) (by omega),
        @ih true (more utf8 rest) most (by omega) (by omega),
        @ih false (skip utf8 rest) most (by omega) (by omega)]

theorem walked_of_ne_nil {header : Bool} {rest : Bytes} (nonempty : rest ≠ []) :
    walked utf8 header rest =
      if header ∧ (piece utf8 rest).head? = some newline then walked utf8 false (more utf8 rest)
      else if piece utf8 rest = endMark then []
      else if header then walked utf8 true (more utf8 rest)
      else if ¬qualifyQuotation (piece utf8 rest) then walked utf8 false (skip utf8 rest)
      else piece utf8 rest :: walked utf8 false (more utf8 rest) := by
  have later := length_more_lt utf8 nonempty
  have behind := length_skip_lt utf8 nonempty
  rw [walked, walkedWithin, if_neg nonempty, walkedWithin_eq later, walkedWithin_eq later,
    walkedWithin_eq behind]

/-- The loop writes what it meets, up to its limit. -/
theorem quoteLoop_walked (selecting : mode = .long ∨ mode = .auto) {fuel : Nat} {quote : Quote}
    (enough : quote.rest.length < fuel) :
    quoteLoop mode utf8 fuel quote =
      some (displayFrom mode utf8 quote.lines
        (walkedWithin utf8 fuel quote.header quote.rest)) := by
  induction fuel generalizing quote with
  | zero => omega
  | succ fuel ih =>
    rw [quoteLoop, walkedWithin]
    by_cases ended : quote.rest = []
    · rw [if_pos ended, if_pos ended, displayFrom_nil]
    rw [if_neg ended, if_neg ended]
    have follows : ∀ next written, quoteRound mode utf8 quote = .goOn next written →
        quoteLoop mode utf8 fuel next =
          some (displayFrom mode utf8 next.lines
            (walkedWithin utf8 fuel next.header next.rest)) := by
      intro next written round
      have shorter := length_lt_of_round ended round
      exact ih (by omega)
    have round := quoteRound_selecting selecting utf8 quote
    by_cases blank : quote.header = true ∧ (piece utf8 quote.rest).head? = some newline
    · rw [if_pos blank] at round ⊢
      simp only [round, follows _ _ round, Option.map_some, List.nil_append]
    rw [if_neg blank] at round ⊢
    by_cases signature : piece utf8 quote.rest = endMark
    · rw [if_pos signature] at round ⊢
      simp only [round, displayFrom_nil]
    rw [if_neg signature] at round ⊢
    by_cases header : quote.header = true
    · rw [if_pos header] at round ⊢
      simp only [round, follows _ _ round, Option.map_some, List.nil_append]
    rw [if_neg header] at round ⊢
    by_cases skipped : ¬qualifyQuotation (piece utf8 quote.rest) = true
    · rw [if_pos skipped] at round ⊢
      simp only [round, follows _ _ round, Option.map_some, List.nil_append]
    rw [if_neg skipped] at round ⊢
    by_cases full : mode = .auto ∧ quote.lines + 1 > maxQuotedLines
    · rw [if_pos full] at round
      simp only [round, (displayFrom_full utf8 full.1 full.2 (List.cons_ne_nil _ _)).1]
    · rw [if_neg full] at round
      have free : mode = .auto → quote.lines < maxQuotedLines := by
        intro isAuto
        by_contra notFree
        exact full ⟨isAuto, Nat.lt_succ_of_le (Nat.le_of_not_lt notFree)⟩
      rw [displayFrom_cons _ free]
      simp only [round, follows _ _ round, Option.map_some]

/-- A line is written behind a mark, and with a newline if it has none. -/
theorem quoted_selecting (selecting : mode = .long ∨ mode = .auto) (line : Bytes) :
    quoted mode line =
      [58, 32] :: line :: if line.getLast? = some newline then [] else [[newline]] := by
  rcases selecting with rfl | rfl <;> rfl

/-- The lines and the notice can be told from what is written. -/
theorem flatMap_quoted_inj (selecting : mode = .long ∨ mode = .auto) {first second : List Bytes}
    {notice other : List Bytes} (isNotice : notice = [] ∨ notice = [omission utf8])
    (isOther : other = [] ∨ other = [omission utf8])
    (same : first.flatMap (quoted mode) ++ notice = second.flatMap (quoted mode) ++ other) :
    first = second ∧ notice = other := by
  have noLine : ∀ (line : Bytes) (rest written : List Bytes),
      written = [] ∨ written = [omission utf8] → written ≠ quoted mode line ++ rest := by
    intro line rest written isWritten equal
    rw [quoted_selecting selecting line] at equal
    rcases isWritten with rfl | rfl
    · cases equal
    · have mark := (List.cons.inj equal).1
      cases utf8 <;> cases mark
  induction first generalizing second with
  | nil =>
    cases second with
    | nil => exact ⟨rfl, same⟩
    | cons line second =>
      rw [List.flatMap_cons, List.append_assoc] at same
      exact absurd same (noLine line _ notice isNotice)
  | cons line first ih =>
    cases second with
    | nil =>
      rw [List.flatMap_cons, List.append_assoc] at same
      exact absurd same.symm (noLine line _ other isOther)
    | cons line' second =>
      rw [List.flatMap_cons, List.append_assoc, List.flatMap_cons, List.append_assoc] at same
      have sameLine : line = line' := by
        rw [quoted_selecting selecting line, quoted_selecting selecting line'] at same
        exact (List.cons.inj (List.cons.inj same).2).1
      subst sameLine
      obtain ⟨sameRest, sameNotice⟩ := ih (List.append_cancel_left same)
      exact ⟨congrArg _ sameRest, sameNotice⟩

end Loop

section Line

variable {utf8 header : Bool} {line after text : Bytes}

theorem looked_of_ne_nil (nonempty : line ≠ []) :
    looked utf8 header line =
      piece utf8 line ::
        if header = true ∨ qualifyQuotation (piece utf8 line) = true then
          looked utf8 header (more utf8 line)
        else [] := by
  cases header with
  | true => simp [looked, pieces_of_ne_nil nonempty, piece, more]
  | false =>
    by_cases qualifies : qualifyQuotation (piece utf8 line) = true
    · simp only [looked, linePieces, pieces_of_ne_nil nonempty, List.takeWhile_cons,
        List.dropWhile_cons]
      rw [← piece, ← more]
      simp [qualifies]
    · simp only [looked, linePieces, pieces_of_ne_nil nonempty, List.takeWhile_cons,
        List.dropWhile_cons]
      rw [← piece, ← more]
      simp [qualifies]

/-- The first piece of the line is that of the text. -/
theorem cut_of_inText (nonempty : line ≠ [])
    (inText : looked utf8 header line <+: pieces utf8 (line ++ after)) :
    getTruncatedLine utf8 (line ++ after) = getTruncatedLine utf8 line := by
  have some : line ++ after ≠ [] := List.append_ne_nil_of_left_ne_nil nonempty after
  rw [looked_of_ne_nil nonempty, pieces_of_ne_nil some, List.cons_prefix_cons, piece] at inText
  have lengths := congrArg List.length inText.1
  rwa [List.length_take, List.length_take, Nat.min_eq_left (getTruncatedLine_le utf8 _),
    Nat.min_eq_left (getTruncatedLine_le utf8 _), eq_comm] at lengths

theorem piece_append (cut : getTruncatedLine utf8 (line ++ after) = getTruncatedLine utf8 line) :
    piece utf8 (line ++ after) = piece utf8 line := by
  rw [piece, cut, List.take_append_of_le_length (getTruncatedLine_le utf8 line), piece]

theorem more_append (cut : getTruncatedLine utf8 (line ++ after) = getTruncatedLine utf8 line) :
    more utf8 (line ++ after) = more utf8 line ++ after := by
  rw [more, cut, List.drop_append_of_le_length (getTruncatedLine_le utf8 line), more]

theorem inText_more (nonempty : line ≠ [])
    (inText : looked utf8 header line <+: pieces utf8 (line ++ after))
    (later : header = true ∨ qualifyQuotation (piece utf8 line) = true) :
    looked utf8 header (more utf8 line) <+: pieces utf8 (more utf8 line ++ after) := by
  have some : line ++ after ≠ [] := List.append_ne_nil_of_left_ne_nil nonempty after
  have isMore := more_append (cut_of_inText nonempty inText)
  rw [looked_of_ne_nil nonempty, if_pos later, pieces_of_ne_nil some, List.cons_prefix_cons,
    ← more, isMore] at inText
  exact inText.2

/-- What is left of a line in the text. -/
def IsRest (line after : Bytes) : Prop :=
  line = [] ∨ IsFirstLine (line ++ after) line after

theorem isRest_more (isFirst : IsFirstLine (line ++ after) line after) :
    IsRest (more utf8 line) after := by
  rcases Nat.lt_or_ge (getTruncatedLine utf8 line) line.length with shorter | whole
  · right
    have isRest := isFirst.drop shorter
    rwa [List.drop_append_of_le_length (Nat.le_of_lt shorter)] at isRest
  · exact .inl (List.drop_eq_nil_iff.mpr whole)

/-- A piece with a newline ends its line. -/
theorem more_of_newline (isFirst : IsFirstLine (line ++ after) line after)
    (member : newline ∈ piece utf8 line) : more utf8 line = [] := by
  by_contra some
  apply isFirst.plain
  rw [more, List.drop_eq_nil_iff, Nat.not_le] at some
  rw [List.dropLast_eq_take]
  exact List.take_subset_take_left line (by omega) member

theorem piece_of_newline (isFirst : IsFirstLine (line ++ after) line after)
    (member : newline ∈ piece utf8 line) : piece utf8 line = line := by
  have whole := List.take_append_drop (getTruncatedLine utf8 line) line
  rwa [← more, more_of_newline isFirst member, List.append_nil] at whole

/-- Behind a piece that does not qualify the rest of its line is left out. -/
theorem skip_append (isFirst : IsFirstLine (line ++ after) line after)
    (cut : getTruncatedLine utf8 (line ++ after) = getTruncatedLine utf8 line) :
    skip utf8 (line ++ after) = after := by
  rw [skip, piece_append cut, more_append cut]
  split_ifs with last
  · rw [more_of_newline isFirst (List.mem_of_getLast? last), List.nil_append]
  · rcases isRest_more isFirst with whole | isRest
    · have ended : after = [] := by
        by_contra notEnded
        have same := List.take_append_drop (getTruncatedLine utf8 line) line
        rw [← more, whole, List.append_nil, ← piece] at same
        apply last
        rw [same]
        exact isFirst.ends notEnded
      rw [whole, ended]
      rfl
    · rw [getNewline_eq isRest, List.drop_left]

/-- Behind the header the loop meets the pieces of a line that qualify. -/
theorem walked_body (isRest : IsRest line after)
    (inText : looked utf8 false line <+: pieces utf8 (line ++ after))
    (notEnd : endMark ∉ looked utf8 false line) :
    walked utf8 false (line ++ after) = linePieces utf8 line ++ walked utf8 false after := by
  generalize isPieces : pieces utf8 line = found
  induction found generalizing line with
  | nil =>
    by_cases ended : line = []
    · rw [ended]
      rfl
    · rw [pieces_of_ne_nil ended] at isPieces
      cases isPieces
  | cons first found ih =>
    have nonempty : line ≠ [] := by
      rintro rfl
      cases isPieces
    have isFirst := isRest.resolve_left nonempty
    have cut := cut_of_inText nonempty inText
    have isLooked := @looked_of_ne_nil utf8 false line nonempty
    have notMark : piece utf8 line ≠ endMark := by
      intro isMark
      apply notEnd
      rw [isLooked, isMark]
      exact List.mem_cons_self
    rw [pieces_of_ne_nil nonempty, List.cons.injEq, ← piece, ← more] at isPieces
    rw [walked_of_ne_nil isFirst.ne_nil, if_neg (fun blank => Bool.false_ne_true blank.1),
      piece_append cut, if_neg notMark, if_neg Bool.false_ne_true, more_append cut,
      skip_append isFirst cut, linePieces, pieces_of_ne_nil nonempty, List.takeWhile_cons,
      ← piece, ← more]
    by_cases qualifies : qualifyQuotation (piece utf8 line) = true
    · rw [if_pos qualifies] at *
      have laterNotEnd : endMark ∉ looked utf8 false (more utf8 line) := by
        intro member
        apply notEnd
        rw [isLooked, if_pos (.inr qualifies)]
        exact List.mem_cons_of_mem _ member
      rw [if_neg (not_not.mpr qualifies), List.cons_append,
        ih (isRest_more isFirst) (inText_more nonempty inText (.inr qualifies)) laterNotEnd
          isPieces.2]
      rfl
    · rw [if_pos qualifies, if_neg qualifies, List.nil_append]

theorem line_of_newline (isFirst : IsFirstLine (line ++ after) line after)
    (blank : (piece utf8 line).head? = some newline) : line = [newline] := by
  have isPiece := piece_of_newline isFirst (List.mem_of_head? blank)
  rw [isPiece] at blank
  have plain := isFirst.plain
  cases line with
  | nil => cases blank
  | cons c line =>
    obtain rfl := Option.some.inj blank
    cases line with
    | nil => rfl
    | cons d line =>
      rw [List.dropLast_cons_of_ne_nil (List.cons_ne_nil _ _)] at plain
      exact absurd List.mem_cons_self plain

/-- In the header it meets nothing. -/
theorem walked_header (isRest : IsRest line after)
    (inText : looked utf8 true line <+: pieces utf8 (line ++ after))
    (notEnd : endMark ∉ looked utf8 true line) (notBlank : [newline] ∉ looked utf8 true line) :
    walked utf8 true (line ++ after) = walked utf8 true after := by
  generalize isPieces : pieces utf8 line = found
  induction found generalizing line with
  | nil =>
    by_cases ended : line = []
    · rw [ended]
      rfl
    · rw [pieces_of_ne_nil ended] at isPieces
      cases isPieces
  | cons first found ih =>
    have nonempty : line ≠ [] := by
      rintro rfl
      cases isPieces
    have isFirst := isRest.resolve_left nonempty
    have cut := cut_of_inText nonempty inText
    have isLooked := @looked_of_ne_nil utf8 true line nonempty
    rw [if_pos (.inl rfl)] at isLooked
    rw [isLooked, List.mem_cons, not_or] at notEnd notBlank
    have noNewline : ¬(piece utf8 line).head? = some newline := by
      intro blank
      apply notBlank.1
      rw [piece_of_newline isFirst (List.mem_of_head? blank), line_of_newline isFirst blank]
    rw [pieces_of_ne_nil nonempty, List.cons.injEq, ← piece, ← more] at isPieces
    rw [walked_of_ne_nil isFirst.ne_nil, piece_append cut,
      if_neg (fun blank => noNewline blank.2), if_neg (fun isMark => notEnd.1 isMark.symm),
      if_pos rfl, more_append cut]
    exact ih (isRest_more isFirst) (inText_more nonempty inText (.inl rfl)) notEnd.2 notBlank.2
      isPieces.2

/-- A line that is kept is met as a whole. -/
theorem walked_line (isFirst : IsFirstLine (line ++ after) line after)
    (kept : LineKept utf8 header line after) (notEnd : isEndLine line = false) :
    walked utf8 header (line ++ after) =
      (if header then [] else linePieces utf8 line) ++
        walked utf8 (header && line != [newline]) after := by
  obtain ⟨inText, notBlank, noMark⟩ := kept
  have isLooked := @looked_of_ne_nil utf8 header line isFirst.nonempty
  have notMark : endMark ∉ looked utf8 header line := by
    rw [isLooked, List.mem_cons, not_or]
    refine ⟨fun isMark => ?_, fun member => noMark (by rw [isLooked]; exact member)⟩
    have isLine := piece_of_newline isFirst (by rw [← isMark]; decide)
    rw [← isLine, ← isMark] at notEnd
    cases notEnd
  cases header with
  | false => exact walked_body (.inr isFirst) inText notMark
  | true =>
    rw [if_pos rfl, List.nil_append, Bool.true_and]
    by_cases blank : line = [newline]
    · subst blank
      have one : getTruncatedLine utf8 ([newline] ++ after) = 1 := by
        simp [getTruncatedLine, truncateLoop]
      rw [walked_of_ne_nil isFirst.ne_nil, piece, more, one]
      rfl
    · rw [bne_iff_ne.mpr blank]
      apply walked_header (.inr isFirst) inText notMark
      rw [isLooked, List.mem_cons, not_or]
      refine ⟨fun isBlank => blank ?_, fun member =>
        notBlank rfl (by rw [isLooked]; exact member)⟩
      have isLine := piece_of_newline isFirst (by rw [← isBlank]; decide)
      rw [← isLine, isBlank]

theorem flatten_splitLines (text : Bytes) : (splitLines text).flatten = text := by
  induction text with
  | nil => rfl
  | cons c text ih =>
    rw [splitLines]
    split_ifs with isNewline
    · rw [List.flatten_cons, ih, isNewline]
      rfl
    · cases lines : splitLines text with
      | nil =>
        rw [lines] at ih
        rw [← ih]
        rfl
      | cons line lines' =>
        rw [lines] at ih
        rw [← ih]
        rfl

theorem walked_endMark (utf8 header : Bool) (after : Bytes) :
    walked utf8 header (endMark ++ after) = [] := by
  have three : getTruncatedLine utf8 (endMark ++ after) = 3 := by
    have low : (45 : UInt8) &&& 128 = 0 := rfl
    simp [getTruncatedLine, endMark, lineWidth, truncateWidth, truncateLoop, newline, escape, low]
  have isMark : piece utf8 (endMark ++ after) = endMark := by
    rw [piece, three]
    rfl
  have noBlank : ¬(header = true ∧ endMark.head? = some newline) := by
    rintro ⟨-, blank⟩
    cases blank
  have nonempty : endMark ++ after ≠ [] := List.cons_ne_nil _ _
  rw [walked_of_ne_nil nonempty, isMark, if_neg noBlank, if_pos rfl]

theorem walked_hyphens (utf8 header : Bool) :
    walked utf8 header [45, 45] = if header then [] else [[45, 45]] := by
  cases utf8 <;> cases header <;> decide

/-- What is met of lines that are kept, and what is met behind them. -/
theorem walked_lines {part others : List Bytes} (split : splitLines text = part ++ others)
    (kept : LinesKept utf8 header part others.flatten) :
    ∃ rest, walked utf8 header text =
        (selectedFrom header part).flatMap (linePieces utf8) ++ rest ∧
      (others = [] → rest = if endsInMark header part then [[45, 45]] else []) := by
  induction part generalizing header text with
  | nil =>
    refine ⟨walked utf8 header text, rfl, ?_⟩
    rintro rfl
    have whole := flatten_splitLines text
    rw [split] at whole
    rw [← whole]
    rfl
  | cons line lines ih =>
    have nonempty : text ≠ [] := by
      rintro rfl
      cases split
    obtain ⟨line', after, isFirst⟩ := exists_isFirstLine nonempty
    rw [isFirst.splitLines_eq, List.cons_append, List.cons.injEq] at split
    obtain ⟨rfl, isAfter⟩ := split
    have afterText := flatten_splitLines after
    rw [isAfter, List.flatten_append] at afterText
    have whole := isFirst.split
    subst whole
    rw [selectedFrom, endsInMark]
    cases ends : isEndLine line' with
    | true =>
      refine ⟨walked utf8 header (line' ++ after), rfl, fun _ => ?_⟩
      rw [isEndLine, Bool.or_eq_true, beq_iff_eq, beq_iff_eq] at ends
      rcases ends with rfl | rfl
      · rw [walked_endMark]
        cases header <;> rfl
      · have ended : after = [] := by
          by_contra notEnded
          cases isFirst.ends notEnded
        rw [ended, List.append_nil, walked_hyphens]
        cases header <;> rfl
    | false =>
      rw [LinesKept, ends, afterText] at kept
      obtain ⟨lineKept, linesKept⟩ := kept.resolve_left Bool.false_ne_true
      obtain ⟨rest, isRest, isMark⟩ := ih isAfter linesKept
      refine ⟨rest, ?_, isMark⟩
      rw [walked_line isFirst lineKept ends, isRest]
      cases header with
      | true => rfl
      | false => exact (List.append_assoc _ _ _).symm

/-- Lines in front of a mark without a newline are ended by newlines. -/
theorem ends_of_endsInMark {lines : List Bytes} (split : splitLines text = lines)
    (isMark : endsInMark header lines = true) :
    ∀ line ∈ selectedFrom header lines, line.getLast? = some newline := by
  induction lines generalizing header text with
  | nil => cases isMark
  | cons line lines ih =>
    have nonempty : text ≠ [] := by
      rintro rfl
      cases split
    obtain ⟨line', after, isFirst⟩ := exists_isFirstLine nonempty
    rw [isFirst.splitLines_eq, List.cons.injEq] at split
    obtain ⟨rfl, isAfter⟩ := split
    rw [endsInMark] at isMark
    rw [selectedFrom]
    cases ends : isEndLine line' with
    | true => simp
    | false =>
      rw [ends, if_neg Bool.false_ne_true] at isMark
      have later := ih isAfter isMark
      have notEnded : after ≠ [] := by
        rintro rfl
        rw [← isAfter] at isMark
        cases isMark
      rw [if_neg Bool.false_ne_true]
      cases header with
      | true => exact later
      | false => exact List.forall_mem_cons.mpr ⟨isFirst.ends notEnded, later⟩

/-- The mark is no piece of a line that is ended by a newline. -/
theorem hyphens_notMem_pieces (ends : line = [] ∨ line.getLast? = some newline) :
    [45, 45] ∉ pieces utf8 line := by
  generalize isPieces : pieces utf8 line = found
  induction found generalizing line with
  | nil => exact List.not_mem_nil
  | cons first found ih =>
    have nonempty : line ≠ [] := by
      rintro rfl
      cases isPieces
    have isLast := ends.resolve_left nonempty
    have laterEnds : more utf8 line = [] ∨ (more utf8 line).getLast? = some newline := by
      by_cases whole : line.length ≤ getTruncatedLine utf8 line
      · exact .inl (List.drop_eq_nil_iff.mpr whole)
      · rw [more, List.getLast?_drop, if_neg whole]
        exact .inr isLast
    rw [pieces_of_ne_nil nonempty, List.cons.injEq] at isPieces
    rw [List.mem_cons, not_or]
    refine ⟨fun same => ?_, ih laterEnds isPieces.2⟩
    rw [← isPieces.1] at same
    have length := congrArg List.length same
    rw [List.length_take, Nat.min_eq_left (getTruncatedLine_le utf8 line)] at length
    rcases getTruncatedLine_ge utf8 line with whole | member | long
    · rw [whole, List.take_length] at same
      rw [← same] at isLast
      cases isLast
    · rw [← same] at member
      revert member
      decide
    · rw [← length] at long
      revert long
      decide

theorem exists_selectedFrom_append (header : Bool) (part others : List Bytes) :
    ∃ rest, selectedFrom header (part ++ others) = selectedFrom header part ++ rest := by
  induction part generalizing header with
  | nil => exact ⟨selectedFrom header others, rfl⟩
  | cons line part ih =>
    rw [List.cons_append, selectedFrom, selectedFrom]
    split_ifs with ends
    · exact ⟨[], rfl⟩
    · exact ih _
    · obtain ⟨rest, same⟩ := ih false
      exact ⟨rest, by rw [same]; rfl⟩

end Line

section Whole

variable {mode : PostQuote} {utf8 : Bool} {text : Bytes}

theorem start_shorter (text : Bytes) : (start text).rest.length < text.length + 1 := by
  rw [start, List.length_drop]
  omega

/-- A notice of more pieces than the mode allows. -/
def exceeds (mode : PostQuote) (selected : List Bytes) : Bool :=
  mode == .auto && maxQuotedLines < selected.length

theorem exceeds_iff {selected : List Bytes} :
    exceeds mode selected = true ↔ mode = .auto ∧ maxQuotedLines < selected.length := by
  simp [exceeds]

theorem quoteString_walked (selecting : mode = .long ∨ mode = .auto) (mail : Bool) :
    quoteString mode mail utf8 text =
      some (author mode mail utf8 text ++
        display mode utf8 (chosen mode (walked utf8 true (start text).rest))
          (exceeds mode (walked utf8 true (start text).rest))) := by
  rw [quoteString, quoteLoop_walked selecting (start_shorter text),
    walkedWithin_eq (start_shorter text)]
  simp only [displayFrom, display, chosen, chosenFrom, exceeds_iff]
  rfl

theorem display_inj (selecting : mode = .long ∨ mode = .auto) {first second : List Bytes}
    {notice other : Bool} (same : display mode utf8 first notice = display mode utf8 second other) :
    first = second ∧ notice = other := by
  have isNotice : ∀ notice : Bool, (if notice then [omission utf8] else []) = [] ∨
      (if notice then [omission utf8] else []) = [omission utf8] := by
    intro notice
    cases notice
    · exact .inl rfl
    · exact .inr rfl
  obtain ⟨lines, notices⟩ := flatMap_quoted_inj selecting (isNotice notice) (isNotice other) same
  refine ⟨lines, ?_⟩
  cases notice <;> cases other <;> simp at notices ⊢

theorem selects_iff (selecting : mode = .long ∨ mode = .auto) (mail : Bool) :
    (∃ out, quoteString mode mail utf8 text = some out ∧ Selects mode mail utf8 text out) ↔
      Selection mode utf8 text (chosen mode (walked utf8 true (start text).rest))
        (exceeds mode (walked utf8 true (start text).rest)) := by
  rw [quoteString_walked selecting mail]
  simp only [Option.some.injEq, exists_eq_left']
  constructor
  · rintro ⟨selected, notice, selection, same⟩
    obtain ⟨rfl, rfl⟩ := display_inj selecting (List.append_cancel_left same)
    exact selection
  · intro selection
    exact ⟨_, _, selection, rfl⟩

theorem mem_of_chosen {line : Bytes} {selected : List Bytes}
    (member : line ∈ chosen mode selected) : line ∈ selected := by
  rw [chosen] at member
  split at member
  · exact List.mem_of_mem_take member
  · exact member

theorem qualifies_of_selected {line : Bytes} (member : line ∈ selectedPieces utf8 text) :
    qualifyQuotation line = true := by
  obtain ⟨whole, -, inside⟩ := List.mem_flatMap.mp member
  exact List.mem_takeWhile_imp inside

theorem chosen_sublist (mode : PostQuote) (utf8 : Bool) (text : Bytes) :
    (chosen mode (selectedPieces utf8 text)).Sublist (bodyPieces utf8 text) := by
  have qualifying : (selectedPieces utf8 text).Sublist (bodyPieces utf8 text) := by
    rw [selectedPieces, bodyPieces]
    induction selectedLines (textLines text) with
    | nil => exact List.Sublist.slnil
    | cons line lines ih => exact (List.takeWhile_sublist _).append ih
  rw [chosen]
  split_ifs
  · exact (List.take_sublist _ _).trans qualifying
  · exact qualifying

/-- The pieces of the lines are a selection. -/
theorem selection_chosen_iff :
    Selection mode utf8 text (chosen mode (selectedPieces utf8 text))
        (exceeds mode (selectedPieces utf8 text)) ↔
      ∀ line ∈ chosen mode (selectedPieces utf8 text), line.length = 4 → ¬IsNested line := by
  constructor
  · intro selection line member _
    exact (selection.meaningful line member).2
  · intro nested
    refine ⟨chosen_sublist mode utf8 text, fun line member => ?_, fun isAuto => ?_, ?_⟩
    · have qualifies := qualifies_of_selected (mem_of_chosen member)
      exact ⟨not_isBlankLine qualifies, fun isNested =>
        nested line member (length_eq_four qualifies isNested) isNested⟩
    · rw [chosen, if_pos isAuto, List.length_take]
      exact Nat.min_le_left _ _
    · rw [exceeds_iff]
      refine and_congr_right fun isAuto => ?_
      rw [chosen, if_pos isAuto, List.length_take]
      omega

/-- A few pieces decide what is written if they are more than the mode allows. -/
theorem chosen_append (isAuto : mode = .auto) {selected : List Bytes}
    (many : maxQuotedLines < selected.length) (rest : List Bytes) :
    chosen mode (selected ++ rest) = chosen mode selected ∧
      exceeds mode (selected ++ rest) = exceeds mode selected := by
  constructor
  · rw [chosen, chosen, if_pos isAuto, if_pos isAuto,
      List.take_append_of_le_length (Nat.le_of_lt many)]
  · rw [exceeds_iff.mpr ⟨isAuto, many⟩, exceeds_iff, List.length_append]
    exact ⟨isAuto, by omega⟩

/-- A mark that is taken for a piece must not be written, and no notice be given for it. -/
theorem many_of_selection (selecting : mode = .long ∨ mode = .auto)
    (isMark : endsInMark true (textLines text) = true)
    (selection : Selection mode utf8 text (chosen mode (selectedPieces utf8 text ++ [[45, 45]]))
      (exceeds mode (selectedPieces utf8 text ++ [[45, 45]]))) :
    mode = .auto ∧ maxQuotedLines < (selectedPieces utf8 text).length := by
  have notPiece : [45, 45] ∉ bodyPieces utf8 text := by
    intro member
    obtain ⟨line, inLines, inside⟩ := List.mem_flatMap.mp member
    rw [← selectedFrom_true] at inLines
    exact hyphens_notMem_pieces (.inr (ends_of_endsInMark rfl isMark line inLines)) inside
  have notWritten : [45, 45] ∉ chosen mode (selectedPieces utf8 text ++ [[45, 45]]) :=
    fun member => notPiece (selection.inOrder.subset member)
  have isAuto : mode = .auto := by
    rcases selecting with rfl | isAuto
    · exact absurd (List.mem_append_right _ (List.mem_singleton.mpr rfl)) notWritten
    · exact isAuto
  refine ⟨isAuto, ?_⟩
  by_contra few
  rw [chosen, if_pos isAuto] at notWritten
  by_cases room : (selectedPieces utf8 text).length + 1 ≤ maxQuotedLines
  · apply notWritten
    rw [List.take_of_length_le (by simpa using room)]
    exact List.mem_append_right _ (List.mem_singleton.mpr rfl)
  · have noticed := selection.noticed.mp (exceeds_iff.mpr ⟨isAuto, by simp; omega⟩)
    rw [chosen, if_pos isAuto, List.length_take, List.length_append, List.length_singleton]
      at noticed
    omega

/-- With lines that are kept a selection is written unless the text ends in a mark. -/
theorem selection_iff_endsWell (selecting : mode = .long ∨ mode = .auto)
    (kept : Kept mode utf8 text) :
    Selection mode utf8 text (chosen mode (walked utf8 true (start text).rest))
        (exceeds mode (walked utf8 true (start text).rest)) ↔
      EndsWell mode utf8 text := by
  obtain ⟨part, others, split, linesKept, reaches⟩ := kept
  obtain ⟨rest, isWalked, isMark⟩ := walked_lines split linesKept
  have isRest : (start text).rest = text.drop (getNewline text) := rfl
  rw [selectedFrom_true] at isWalked
  rw [isRest, isWalked]
  have ofMany : mode = .auto ∧ maxQuotedLines < (selectedPieces utf8 text).length →
      ((∀ line ∈ chosen mode (selectedPieces utf8 text), line.length = 4 → ¬IsNested line) ↔
        EndsWell mode utf8 text) := fun many =>
    ⟨fun nested => ⟨nested, fun _ => many⟩, EndsWell.nested⟩
  rcases reaches with ended | ⟨isAuto, many⟩
  · obtain rfl : textLines text = part := by rw [split, ended, List.append_nil]
    rw [isMark ended, ← selectedPieces]
    cases mark : endsInMark true (textLines text) with
    | false =>
      rw [if_neg Bool.false_ne_true, List.append_nil, selection_chosen_iff]
      refine ⟨fun nested => ⟨nested, fun isMark => ?_⟩, EndsWell.nested⟩
      rw [mark] at isMark
      cases isMark
    | true =>
      rw [if_pos rfl]
      constructor
      · intro selection
        have many := many_of_selection selecting mark selection
        obtain ⟨same, notice⟩ := chosen_append many.1 many.2 [[45, 45]]
        rw [same, notice, selection_chosen_iff] at selection
        exact (ofMany many).mp selection
      · intro endsWell
        have many := endsWell.mark mark
        obtain ⟨same, notice⟩ := chosen_append many.1 many.2 [[45, 45]]
        rw [same, notice, selection_chosen_iff]
        exact endsWell.nested
  · obtain ⟨later, isLater⟩ := exists_selectedFrom_append true part others
    rw [selectedFrom_true, selectedFrom_true] at isLater
    have isSelected : selectedPieces utf8 text =
        (selectedLines part).flatMap (linePieces utf8) ++ later.flatMap (linePieces utf8) := by
      rw [selectedPieces, split, isLater, List.flatMap_append]
    obtain ⟨same, notice⟩ := chosen_append isAuto many rest
    obtain ⟨same', notice'⟩ := chosen_append isAuto many (later.flatMap (linePieces utf8))
    rw [same, notice, ← same', ← notice', ← isSelected, selection_chosen_iff]
    apply ofMany
    refine ⟨isAuto, ?_⟩
    rw [isSelected, List.length_append]
    omega

end Whole

/-- A header of one line, a line of two pieces, a quotation of a quotation, four lines more and a
signature. -/
def longPost : Bytes :=
  [97, newline, 98, newline, newline] ++ List.replicate 80 120 ++
    [newline, 58, 32, 62, 32, 121, newline, 49, newline, 50, newline, 51, newline, 52, newline,
      45, 45, newline, 115, newline]

/-- The end of a text that is not ended by a newline. -/
def endedPost : Bytes := [97, newline, newline, 45, 45]

end QuoteSelection

end Fbbs
