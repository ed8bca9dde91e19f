import Mathlib.Data.List.Basic
import Mathlib.Data.List.TakeDrop

/-!
# Lines of a byte stream

Lines as `fgets` reads them from a stream into a buffer.
-/

namespace LineFraming

variable {line first second : List UInt8} {rest rest' : List UInt8}

/-- At most `size - 1` bytes up to a newline, and the rest of the stream. -/
def fgets (size : Nat) : List UInt8 → Option (List UInt8 × List UInt8)
  | [] => none
  | stream => some (stream.splitAt (min (size - 1) (stream.idxOf 10 + 1)))

/-- Lines, each followed by a newline. -/
def unlines (lines : List (List UInt8)) : List UInt8 :=
  lines.flatMap (· ++ [10])

theorem idxOf_line (plain : 10 ∉ line) (rest : List UInt8) :
    (line ++ 10 :: rest).idxOf 10 = line.length := by
  rw [List.idxOf_append_of_notMem plain, List.idxOf_cons_self, Nat.add_zero]

/-- A line that fits in the buffer is read as a whole. -/
theorem fgets_line {size : Nat} (plain : 10 ∉ line) (fits : line.length + 1 < size)
    (rest : List UInt8) : fgets size (line ++ 10 :: rest) = some (line ++ [10], rest) := by
  have short : min (size - 1) ((line ++ 10 :: rest).idxOf 10 + 1) = line.length + 1 := by
    rw [idxOf_line plain]
    omega
  have split : (line ++ 10 :: rest).splitAt (line.length + 1) = (line ++ [10], rest) := by
    rw [List.append_cons, List.splitAt_eq, List.take_left' (by simp), List.drop_left' (by simp)]
  unfold fgets
  split
  · rename_i empty
    exact absurd empty (by simp)
  · rw [short, split]

/-- The first line of a stream is determined. -/
theorem line_unique (plain : 10 ∉ first) (plain' : 10 ∉ second)
    (same : first ++ 10 :: rest = second ++ 10 :: rest') : first = second ∧ rest = rest' := by
  have lengths : first.length = second.length := by
    rw [← idxOf_line plain rest, same, idxOf_line plain' rest']
  obtain ⟨heads, tails⟩ := List.append_inj same lengths
  exact ⟨heads, (List.cons.inj tails).2⟩

/-- Bytes without a newline at the beginning of a stream belong to its first line. -/
theorem length_le_line (plain : 10 ∉ first) (same : first ++ rest = second ++ 10 :: rest') :
    first.length ≤ second.length := by
  by_contra longer
  have inside : second.length < first.length := by omega
  have byte : (first ++ rest)[second.length]? = some 10 := by
    rw [same, List.getElem?_append_right (Nat.le_refl _), Nat.sub_self, List.getElem?_cons_zero]
  rw [List.getElem?_append_left inside] at byte
  exact plain (List.mem_of_getElem? byte)

/-- The lines of a text, each with its newline. -/
def splitLines : List UInt8 → List (List UInt8)
  | [] => []
  | c :: text =>
    if c = 10 then [10] :: splitLines text
    else
      match splitLines text with
      | [] => [[c]]
      | line :: lines => (c :: line) :: lines

/-- A line at the front of a text and what follows on it. -/
structure IsFirstLine (text line after : List UInt8) : Prop where
  split : text = line ++ after
  nonempty : line ≠ []
  plain : 10 ∉ line.dropLast
  ends : after ≠ [] → line.getLast? = some 10

theorem IsFirstLine.ne_nil {text line after : List UInt8} (isFirst : IsFirstLine text line after) :
    text ≠ [] := by
  rw [isFirst.split]
  exact List.append_ne_nil_of_left_ne_nil isFirst.nonempty after

theorem exists_isFirstLine {text : List UInt8} (nonempty : text ≠ []) :
    ∃ line after, IsFirstLine text line after := by
  induction text with
  | nil => exact absurd rfl nonempty
  | cons c text ih =>
    by_cases newline : c = 10
    · subst newline
      exact ⟨[10], text, rfl, List.cons_ne_nil _ _, List.not_mem_nil, fun _ => rfl⟩
    · by_cases last : text = []
      · subst last
        exact ⟨[c], [], rfl, List.cons_ne_nil _ _, List.not_mem_nil, absurd rfl⟩
      · obtain ⟨line, after, isFirst⟩ := ih last
        refine ⟨c :: line, after, by rw [isFirst.split]; rfl, List.cons_ne_nil _ _, ?_, ?_⟩
        · rw [List.dropLast_cons_of_ne_nil isFirst.nonempty, List.mem_cons, not_or]
          exact ⟨fun same => newline same.symm, isFirst.plain⟩
        · intro more
          rw [List.getLast?_cons_of_ne_nil isFirst.nonempty]
          exact isFirst.ends more

namespace IsFirstLine

variable {text after : List UInt8} {n : Nat}

theorem splitLines_eq (isFirst : IsFirstLine text line after) :
    splitLines text = line :: splitLines after := by
  obtain ⟨split, nonempty, plain, ends⟩ := isFirst
  subst split
  induction line with
  | nil => exact absurd rfl nonempty
  | cons c line ih =>
    rw [List.cons_append, splitLines]
    cases line with
    | nil =>
      by_cases newline : c = 10
      · rw [if_pos newline, newline]
        rfl
      · cases after with
        | nil => rw [if_neg newline]; rfl
        | cons d after =>
          exact absurd (Option.some.inj (ends (List.cons_ne_nil _ _))) newline
    | cons d line =>
      rw [List.dropLast_cons_of_ne_nil (List.cons_ne_nil _ _), List.mem_cons, not_or] at plain
      rw [if_neg (fun same => plain.1 same.symm), ih (List.cons_ne_nil _ _) plain.2 ends]

/-- The rest of the line is the line of the rest. -/
theorem drop (isFirst : IsFirstLine text line after) (shorter : n < line.length) :
    IsFirstLine (text.drop n) (line.drop n) after := by
  refine ⟨?_, ?_, ?_, ?_⟩
  · rw [isFirst.split, List.drop_append_of_le_length (Nat.le_of_lt shorter)]
  · rw [ne_eq, List.drop_eq_nil_iff]
    exact Nat.not_le.mpr shorter
  · intro member
    rw [List.dropLast_drop_eq_drop_dropLast] at member
    exact isFirst.plain (List.mem_of_mem_drop member)
  · intro more
    rw [List.getLast?_drop, if_neg (Nat.not_le.mpr shorter)]
    exact isFirst.ends more

end IsFirstLine

def BeginsLine (isWord : List UInt8 → Prop) (text : List UInt8) : Prop :=
  ∃ before word after, text = before ++ (word ++ after) ∧
    (before = [] ∨ before.getLast? = some 10) ∧ isWord word

section Words

variable {isWord : List UInt8 → Prop} (plain : ∀ word, isWord word → word ≠ [] ∧ 10 ∉ word)

include plain

theorem beginsLine_append (ends : first = [] ∨ first.getLast? = some 10) :
    BeginsLine isWord (first ++ second) ↔ BeginsLine isWord first ∨ BeginsLine isWord second := by
  constructor
  · rintro ⟨before, word, after, split, atStart, word'⟩
    rcases List.append_eq_append_iff.mp split with ⟨front, rfl, rfl⟩ | ⟨back, rfl, inside⟩
    · refine .inr ⟨front, word, after, rfl, ?_, word'⟩
      rcases List.eq_nil_or_concat front with rfl | ⟨body, c, rfl⟩
      · exact .inl rfl
      · right
        simpa using atStart
    · rcases List.append_eq_append_iff.mp inside with ⟨rest, isBack, -⟩ | ⟨rest, longer, -⟩
      · exact .inl ⟨before, word, rest, by rw [isBack], atStart, word'⟩
      · -- Then the first text ends in the word, which has no newline.
        rcases List.eq_nil_or_concat back with rfl | ⟨body, c, rfl⟩
        · exact .inr ⟨[], word, after, inside.symm, .inl rfl, word'⟩
        · have last : c = 10 := by simpa using ends
          exact absurd (by simp [longer, last]) (plain word word').2
  · rintro (⟨before, word, after, rfl, atStart, word'⟩ | ⟨before, word, after, rfl, atStart, word'⟩)
    · exact ⟨before, word, after ++ second, by simp, atStart, word'⟩
    · refine ⟨first ++ before, word, after, by simp, ?_, word'⟩
      rcases atStart with rfl | last
      · rw [List.append_nil]
        exact ends
      · right
        rw [List.getLast?_append, last]
        rfl

/-- A newline at the end changes nothing. -/
theorem beginsLine_newline (text : List UInt8) :
    BeginsLine isWord (text ++ [10]) ↔ BeginsLine isWord text := by
  constructor
  · rintro ⟨before, word, after, split, atStart, word'⟩
    rcases List.eq_nil_or_concat after with rfl | ⟨body, c, rfl⟩
    · obtain ⟨front, c, rfl⟩ := (List.eq_nil_or_concat word).resolve_left (plain word word').1
      have last := congrArg List.getLast? split
      simp at last
      exact absurd (by simp [last]) (plain _ word').2
    · refine ⟨before, word, body, ?_, atStart, word'⟩
      have same := congrArg List.dropLast split
      simpa using same
  · rintro ⟨before, word, after, rfl, atStart, word'⟩
    exact ⟨before, word, after ++ [10], by simp, atStart, word'⟩

end Words

end LineFraming
