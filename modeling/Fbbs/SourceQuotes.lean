import Fbbs.Quoting
import Mathlib.Data.List.TakeWhile

/-!
# Quotations without the line of the source

A post ends with a line that tells where it comes from.  `quote_string` is to stop in front of
this line when it copies a post to another board, and compares the mark in it with the NUL that
ends the string constant.
-/

namespace Fbbs

namespace SourceQuotes

open LineFraming QuoteLines Quoting TextScan

/-- Ten bytes of sequences that set colours. -/
def IsColour (colour : Bytes) : Prop :=
  colour.length = 10 ∧
    ∃ sequences : List Bytes, (∀ sequence ∈ sequences, sequence.all isParameter = true) ∧
      colour = sequences.flatMap fun sequence => [27, 91] ++ sequence ++ [109]

/-- A colour and the mark of the source. -/
def IsSourceStart (utf8 : Bool) (word : Bytes) : Prop :=
  ∃ colour, IsColour colour ∧ word = colour ++ sourceMark utf8

/-- A line of the text tells its source. -/
def ShowsSource (utf8 : Bool) (text : Bytes) : Prop :=
  BeginsLine (IsSourceStart utf8) text

/-- The lines behind the header, as they are cut. -/
def bodyLines (utf8 : Bool) (text : Bytes) : List Bytes :=
  afterHeader (pieces utf8 (text.drop (getNewline text)))

/-- No line of the output tells the source, and what is quoted ends in front of the first line
that does. -/
structure LeavesOutSource (mail utf8 : Bool) (text : Bytes) (out : List Bytes) : Prop where
  shows : ¬ShowsSource utf8 out.flatten
  before : ∀ front line back, bodyLines utf8 text = front ++ line :: back →
    ShowsSource utf8 line →
      ∃ part, part <+: front ∧
        out = author .source mail utf8 text ++ part.flatMap (quoted .source)

/-- A line that tells the source stops the loop, or one in front of it does. -/
def StopsInTime (utf8 : Bool) (text : Bytes) : Prop :=
  ∀ front line back, bodyLines utf8 text = front ++ line :: back → ShowsSource utf8 line →
    ∃ stop ∈ front ++ [line], isSource utf8 stop = true

section Words

variable {utf8 : Bool} {word : Bytes}

theorem newline_notMem_mark (utf8 : Bool) : newline ∉ sourceMark utf8 := by
  cases utf8 <;> decide

theorem isSourceStart_cons (start : IsSourceStart utf8 word) :
    ∃ rest, word = escape :: rest := by
  obtain ⟨colour, ⟨length, sequences, -, rfl⟩, rfl⟩ := start
  cases sequences with
  | nil => cases length
  | cons sequence sequences =>
    exact ⟨_, rfl⟩

theorem newline_notMem_word (start : IsSourceStart utf8 word) : newline ∉ word := by
  obtain ⟨colour, ⟨length, sequences, parameters, rfl⟩, rfl⟩ := start
  intro member
  rcases List.mem_append.mp member with inColour | inMark
  · obtain ⟨sequence, isSequence, inside⟩ := List.mem_flatMap.mp inColour
    have digits := List.all_eq_true.mp (parameters sequence isSequence) newline
    simp only [List.mem_append, List.mem_cons, List.not_mem_nil, or_false] at inside
    rcases inside with (open' | inSequence) | close
    · exact absurd open' (by decide)
    · exact absurd (digits inSequence) (by decide)
    · exact absurd close (by decide)
  · exact newline_notMem_mark utf8 inMark

theorem isSourceStart_plain (word : Bytes) (start : IsSourceStart utf8 word) :
    word ≠ [] ∧ 10 ∉ word := by
  refine ⟨?_, newline_notMem_word start⟩
  obtain ⟨rest, rfl⟩ := isSourceStart_cons start
  exact List.cons_ne_nil _ _

/-- A text of one line that begins in another way. -/
theorem not_showsSource {line : Bytes} (plain : newline ∉ line)
    (other : line.head? ≠ some escape) : ¬ShowsSource utf8 line := by
  rintro ⟨before, word, after, rfl, atStart, start⟩
  rcases atStart with rfl | last
  · obtain ⟨rest, rfl⟩ := isSourceStart_cons start
    exact other rfl
  · exact plain (List.mem_append_left _ (List.mem_of_getLast? last))

theorem showsSource_append {first second : Bytes}
    (ends : first = [] ∨ first.getLast? = some newline) :
    ShowsSource utf8 (first ++ second) ↔ ShowsSource utf8 first ∨ ShowsSource utf8 second :=
  beginsLine_append isSourceStart_plain ends

theorem showsSource_newline (line : Bytes) :
    ShowsSource utf8 (line ++ [newline]) ↔ ShowsSource utf8 line :=
  beginsLine_newline isSourceStart_plain line

end Words

section Author

/-- The first line has a newline at most at its end. -/
theorem newline_notMem_line (text : Bytes) : newline ∉ (text.take (getNewline text)).dropLast := by
  by_cases ended : text = []
  · subst ended
    exact List.not_mem_nil
  · obtain ⟨line, after, isFirst⟩ := exists_isFirstLine ended
    rw [getNewline_eq isFirst, isFirst.split, List.take_left]
    exact isFirst.plain

theorem newline_notMem_user {line : Bytes} (plain : newline ∉ line.dropLast) :
    newline ∉ (quotedUser line).flatten := by
  unfold quotedUser
  cases found : lastIndex line 41 0 line.length with
  | none => simp
  | some e =>
    obtain ⟨-, inside, here⟩ := lastIndex_eq_some found
    dsimp only
    split
    · rw [List.flatten_singleton]
      intro member
      -- The part ends in the parenthesis, so it is in front of the last byte or ends in it.
      have inFront : newline ∈ line.take (e + 1) := List.mem_of_mem_drop member
      rw [List.take_add_one, here] at inFront
      rcases List.mem_append.mp inFront with before | last
      · apply plain
        rw [List.dropLast_eq_take]
        exact (List.take_subset_take_left line (by omega)) before
      · exact absurd (List.mem_singleton.mp last) (by decide)
    · exact List.not_mem_nil

/-- The author is told in a line of its own, which begins in another way. -/
theorem exists_author_eq (mail utf8 : Bool) (text : Bytes) :
    ∃ body, (author .source mail utf8 text).flatten = [newline] ++ (body ++ [newline]) ∧
      newline ∉ body ∧ body.head? ≠ some escape := by
  have user := newline_notMem_user (newline_notMem_line text)
  cases utf8 with
  | true =>
    refine ⟨[227, 128, 144, 32, 229, 156, 168, 32] ++
      (quotedUser (text.take (getNewline text))).flatten ++ [32, 231, 154, 132] ++
      (if mail then [230, 157, 165, 228, 191, 161] else [229, 164, 167, 228, 189, 156]) ++
      [228, 184, 173, 230, 143, 144, 229, 136, 176, 58, 32, 227, 128, 145], ?_, ?_, ?_⟩
    · simp [author, PostQuote.isPack, quoteAuthor, newline]
    · cases mail <;> simpa [newline] using user
    · simp [escape]
  | false =>
    refine ⟨[161, 190, 32, 212, 218, 32] ++
      (quotedUser (text.take (getNewline text))).flatten ++ [32, 181, 196] ++
      (if mail then [192, 180, 208, 197] else [180, 243, 215, 247]) ++
      [214, 208, 204, 225, 181, 189, 58, 32, 161, 191], ?_, ?_, ?_⟩
    · simp [author, PostQuote.isPack, quoteAuthor, newline]
    · cases mail <;> simpa [newline] using user
    · simp [escape]

theorem not_showsSource_author (mail utf8 : Bool) (text : Bytes) :
    ¬ShowsSource utf8 (author .source mail utf8 text).flatten := by
  obtain ⟨body, same, plain, other⟩ := exists_author_eq mail utf8 text
  rw [same, showsSource_append (.inr rfl), showsSource_newline, not_or]
  exact ⟨(showsSource_newline []).not.mpr (not_showsSource List.not_mem_nil (by simp)),
    not_showsSource plain other⟩

theorem getLast?_author (mail utf8 : Bool) (text : Bytes) :
    (author .source mail utf8 text).flatten.getLast? = some newline := by
  obtain ⟨body, same, -⟩ := exists_author_eq mail utf8 text
  rw [same, ← List.append_assoc]
  exact List.getLast?_concat

end Author

section Lines

variable {mail utf8 : Bool} {text : Bytes}

/-- A line is written with a newline at its end. -/
theorem flatten_quoted (line : Bytes) :
    (quoted .source line).flatten =
      if line.getLast? = some newline then line else line ++ [newline] := by
  rw [quoted, if_pos (.inl rfl)]
  split_ifs <;> simp

theorem getLast?_quoted (line : Bytes) :
    (quoted .source line).flatten.getLast? = some newline := by
  rw [flatten_quoted]
  split_ifs with isLast
  · exact isLast
  · exact List.getLast?_concat

theorem showsSource_quoted (line : Bytes) :
    ShowsSource utf8 (quoted .source line).flatten ↔ ShowsSource utf8 line := by
  rw [flatten_quoted]
  split_ifs
  · rfl
  · exact showsSource_newline line

theorem showsSource_lines (lines : List Bytes) :
    ShowsSource utf8 (lines.flatMap (quoted .source)).flatten ↔
      ∃ line ∈ lines, ShowsSource utf8 line := by
  induction lines with
  | nil =>
    simp only [List.flatMap_nil, List.flatten_nil, List.not_mem_nil, false_and, exists_false,
      iff_false]
    exact not_showsSource List.not_mem_nil (by simp)
  | cons line lines ih =>
    rw [List.flatMap_cons, List.flatten_append, showsSource_append (.inr (getLast?_quoted line)),
      showsSource_quoted, ih, List.exists_mem_cons_iff]

/-- What is written: the lines in front of the first that stops the loop. -/
theorem quoteString_source (mail utf8 : Bool) (text : Bytes) :
    quoteString .source mail utf8 text =
      some (author .source mail utf8 text ++
        ((bodyLines utf8 text).takeWhile fun line => !isSource utf8 line).flatMap
          (quoted .source)) := by
  have shorter : (text.drop (getNewline text)).length < text.length + 1 := by
    rw [List.length_drop]
    omega
  rw [quoteString, start, quoteLoop_source_header shorter]
  rfl

theorem takeWhile_prefix_of_stop {p : Bytes → Bool} {stop : Bytes} (passed others : List Bytes)
    (stops : p stop = false) : (passed ++ stop :: others).takeWhile p <+: passed := by
  induction passed with
  | nil => simp [stops]
  | cons line passed ih =>
    rw [List.cons_append, List.takeWhile_cons]
    split_ifs
    · exact List.cons_prefix_cons.mpr ⟨rfl, ih⟩
    · exact List.nil_prefix

/-- The source is left out exactly if a NUL stands behind the mark in time. -/
theorem leavesOutSource_iff (mail utf8 : Bool) (text : Bytes) :
    (∃ out, quoteString .source mail utf8 text = some out ∧
      LeavesOutSource mail utf8 text out) ↔ StopsInTime utf8 text := by
  rw [quoteString_source]
  simp only [Option.some.injEq, exists_eq_left']
  have showsIff : ∀ lines : List Bytes, ShowsSource utf8
      (author .source mail utf8 text ++ lines.flatMap (quoted .source)).flatten ↔
        ∃ line ∈ lines, ShowsSource utf8 line := by
    intro lines
    rw [List.flatten_append, showsSource_append (.inr (getLast?_author mail utf8 text)),
      showsSource_lines, or_iff_right (not_showsSource_author mail utf8 text)]
  constructor
  · intro leaves front line back split shows
    by_contra goesOn
    apply leaves.shows
    rw [showsIff]
    refine ⟨line, ?_, shows⟩
    have passed : ∀ passedLine ∈ front ++ [line], (!isSource utf8 passedLine) = true := by
      intro passedLine member
      by_contra stops
      exact goesOn ⟨passedLine, member, by simpa using stops⟩
    rw [split, List.append_cons, List.takeWhile_append_of_pos passed]
    simp
  · intro inTime
    constructor
    · rw [showsIff]
      rintro ⟨line, member, shows⟩
      obtain ⟨front, back, taken⟩ := List.append_of_mem member
      have split : bodyLines utf8 text = front ++ line :: (back ++
          (bodyLines utf8 text).dropWhile fun line => !isSource utf8 line) := by
        rw [← List.cons_append, ← List.append_assoc, ← taken, List.takeWhile_append_dropWhile]
      obtain ⟨stop, early, stops⟩ := inTime _ _ _ split shows
      have isTaken : stop ∈ (bodyLines utf8 text).takeWhile fun line => !isSource utf8 line := by
        rw [taken, List.append_cons]
        exact List.mem_append_left _ early
      have goesOn := List.mem_takeWhile_imp isTaken
      rw [stops] at goesOn
      cases goesOn
    · intro front line back split shows
      obtain ⟨stop, member, stops⟩ := inTime front line back split shows
      obtain ⟨passed, others, early⟩ := List.append_of_mem member
      refine ⟨_, ?_, rfl⟩
      have isPrefix : passed <+: front := by
        have length := congrArg List.length early
        simp only [List.length_append, List.length_cons, List.length_nil] at length
        apply List.prefix_of_prefix_length_le _ (List.prefix_append front [line]) (by omega)
        rw [early]
        exact List.prefix_append passed _
      rw [split, List.append_cons, early, List.append_assoc, List.cons_append]
      exact (takeWhile_prefix_of_stop passed _ (by simp [stops])).trans isPrefix

end Lines

/-- `"\033[m\033[1;31m"`. -/
def red : Bytes := [27, 91, 109, 27, 91, 49, 59, 51, 49, 109]

theorem isColour_red : IsColour red := by
  refine ⟨rfl, [[], [49, 59, 51, 49]], ?_, rfl⟩
  decide

def sourceLine : Bytes := red ++ sourceMark true ++ [32, newline]

/-- A post of one letter that ends with the line of its source. -/
def sourcePost : Bytes := [97, newline, newline] ++ sourceLine

/-- The line is quoted. -/
theorem sourcePost_not_leavesOutSource :
    ¬∃ out, quoteString .source false true sourcePost = some out ∧
      LeavesOutSource false true sourcePost out := by
  have value : quoteString .source false true sourcePost =
      some (author .source false true sourcePost ++ [sourceLine]) := by
    decide +kernel
  rintro ⟨out, written, leaves⟩
  rw [value, Option.some.injEq] at written
  subst written
  apply leaves.shows
  rw [List.flatten_append, List.flatten_singleton,
    showsSource_append (.inr (getLast?_author false true sourcePost))]
  exact .inr ⟨[], red ++ sourceMark true, [32, newline], rfl, .inl rfl, red, isColour_red, rfl⟩

end SourceQuotes

end Fbbs
