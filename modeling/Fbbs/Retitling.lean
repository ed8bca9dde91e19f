import Fbbs.FreshMemory
import Fbbs.PostMarkupBounds
import Mathlib.Data.List.TakeDrop

/-!
# Changing the title inside a post

`replace_content_title` of `backend/post.c` puts a new title behind the ten bytes with which the
second line of a post begins.  It takes the last byte of that line for a newline, which the
text may lack.
-/

namespace Fbbs

namespace Retitling

open FreshMemory PostMarkup TextScan

/-- The value of an `int` that a number is converted to. -/
def asInt (number : Int) : Int :=
  number.bmod (2 ^ 32)

/-- `sizeof("标  题: ")` in UTF-8, without the final zero. -/
def titleOffset : Nat := 10

/-- `replace_content_title`: a null pointer is `some none`, and the result is `none` where
memory outside of a block is touched. -/
def replaceContentTitle (content : Bytes) (title : CString) :
    Option (Option (Memory UInt8)) := do
  let textEnd := content.length
  let l1End ← getLineEnd content 0 textEnd
  let l2End ← getLineEnd content l1End textEnd
  let begin := l1End + titleOffset
  let origTitleLen := asInt ((l2End : Int) - begin - 1)
  if origTitleLen < 0 then some none
  else
    let newTitleLen := asInt title.bytes.length
    let len := (content.length + (newTitleLen - origTitleLen)).toNat
    let s ← memcpy (malloc (len + 1)) 0 content begin
    let s ← memcpy s begin title.bytes newTitleLen
    let p := begin + newTitleLen.toNat
    let s ← store s p 10
    let s ← memcpy s (p + 1) (content.drop l2End) ((textEnd : Int) - l2End)
    let s ← store s len 0
    some (some s)

/-- A newline and what follows the second line, if it ends with one. -/
def ending : Option Bytes → Bytes
  | none => []
  | some rest => 10 :: rest

/-- A text with two lines and the rest. -/
def textOf (first second : Bytes) (rest : Option Bytes) : Bytes :=
  first ++ 10 :: (second ++ ending rest)

/-- The text with another title. -/
def retitled (first second : Bytes) (rest : Option Bytes) (title : CString) : Bytes :=
  first ++ 10 :: (second.take titleOffset ++ title.bytes ++ 10 :: rest.getD [])

/-- All bytes of the result are written, and they are the text and the final zero. -/
def Gives (result : Option (Option (Memory UInt8))) (text : Bytes) : Prop :=
  result = some (some (text.map some ++ [some 0]))

/-- Retitling keeps everything but the title, and the last title decides. -/
structure RetitlingLaw (first second : Bytes) (rest : Option Bytes) (title again : CString) :
    Prop where
  once : Gives (replaceContentTitle (textOf first second rest) title)
    (retitled first second rest title)
  twice : Gives (replaceContentTitle (retitled first second rest title) again)
    (retitled first second rest again)
  direct : Gives (replaceContentTitle (textOf first second rest) again)
    (retitled first second rest again)

/-- The old title can be measured by an `int`; without a newline one byte of it is not
counted, and there must be one. -/
def Measurable (second : Bytes) : Option Bytes → Prop
  | some _ => second.length < titleOffset + 2 ^ 31
  | none => titleOffset < second.length ∧ second.length < titleOffset + 1 + 2 ^ 31

section Lines

theorem getLineEnd_line (before : Bytes) {line : Bytes} (oneLine : 10 ∉ line)
    (rest : Option Bytes) :
    getLineEnd (before ++ (line ++ ending rest)) before.length
        (before ++ (line ++ ending rest)).length =
      some (before.length + line.length + if rest.isSome then 1 else 0) := by
  have inside : before.length ≤ (before ++ (line ++ ending rest)).length := by
    rw [List.length_append]
    omega
  have behind : slice (before ++ (line ++ ending rest)) before.length
      (before ++ (line ++ ending rest)).length = line ++ ending rest := by
    rw [slice, List.take_length, List.drop_left]
  have passed : (line ++ ending rest).takeWhile (fun c => !(c == 10)) = line := by
    have whole : ∀ c ∈ line, (!(c == 10)) = true := by
      intro c member
      have other : c ≠ 10 := fun isNewline => oneLine (isNewline ▸ member)
      simpa using other
    rw [List.takeWhile_append_of_pos whole]
    cases rest with
    | none => rw [ending, List.takeWhile_nil, List.append_nil]
    | some rest => simp [ending]
  have stop : TextScan.first (before ++ (line ++ ending rest)) (· == 10) before.length
      (before ++ (line ++ ending rest)).length = before.length + line.length := by
    rw [TextScan.first, behind, passed]
  rw [getLineEnd_eq inside (Nat.le_refl _), lineEnd, stop]
  cases rest with
  | none => simp [ending]
  | some rest => simp [ending]

end Lines

section Ints

theorem asInt_eq (number : Int) :
    asInt number = if number % 2 ^ 32 < 2 ^ 31 then number % 2 ^ 32
      else number % 2 ^ 32 - 2 ^ 32 := by
  have half : ((4294967297 : Int) / 2) = 2147483648 := by decide
  rw [asInt, Int.bmod_def]
  norm_num [half]

theorem asInt_le {number : Int} (nonneg : 0 ≤ number) : asInt number ≤ number := by
  rw [asInt_eq]
  split <;> omega

/-- A number is kept exactly if it is an `int`. -/
theorem asInt_eq_self_iff {number : Int} (nonneg : 0 ≤ number) :
    asInt number = number ↔ number < 2 ^ 31 := by
  rw [asInt_eq]
  split <;> omega

theorem asInt_neg_one : asInt (-1) = -1 := by
  decide

end Ints

/-- Filling a block with the beginning of a text, a title, a newline and what follows. -/
theorem fill_block {content title behind : Bytes} {begin count unwritten : Nat}
    (inText : begin ≤ content.length) (inTitle : count ≤ title.length) :
    (do
      let s ← memcpy (malloc (begin + count + 1 + behind.length + unwritten + 1)) 0 content begin
      let s ← memcpy s begin title count
      let s ← store s (begin + count) 10
      let s ← memcpy s (begin + count + 1) behind behind.length
      let s ← store s (begin + count + 1 + behind.length + unwritten) 0
      some (some s)) =
      some (some (filled (content.take begin ++ title.take count ++ [10] ++ behind) unwritten ++
        [some 0])) := by
  have headLength : (content.take begin).length = begin := List.length_take_of_le inText
  have titleLength : (title.take count).length = count := List.length_take_of_le inTitle
  have free : begin + count + 1 + behind.length + unwritten + 1 - begin - count - 1 -
      behind.length = unwritten + 1 := by omega
  have twoParts : begin + count = (content.take begin ++ title.take count).length := by
    rw [List.length_append, headLength, titleLength]
  have threeParts : begin + count + 1 =
      (content.take begin ++ title.take count ++ [10]).length := by
    rw [List.length_append, ← twoParts, List.length_singleton]
  have allParts : begin + count + 1 + behind.length + unwritten =
      (content.take begin ++ title.take count ++ [10] ++ behind).length + unwritten := by
    rw [List.length_append, ← threeParts]
  simp only [Option.bind_eq_bind]
  rw [malloc_eq_filled, memcpy_filled List.length_nil.symm inText (by omega), Option.bind_some,
    List.nil_append]
  rw [memcpy_filled headLength.symm inTitle (by omega), Option.bind_some]
  rw [store_filled 10 twoParts (by omega), Option.bind_some]
  rw [memcpy_filled threeParts (Nat.le_refl _) (by omega), Option.bind_some, List.take_length]
  rw [free, store_last 0 allParts, Option.bind_some]

/-- A negative count is a huge one. -/
theorem memcpy_negative {block : Memory UInt8} {position : Nat} {source : Bytes} {count : Int}
    (negative : count < 0) : memcpy block position source count = none :=
  if_neg fun inside => absurd inside.1 (Int.not_le.mpr negative)

section Replacing

variable {first second : Bytes} (firstLine : 10 ∉ first) (secondLine : 10 ∉ second)
  (rest : Option Bytes) (title : CString)

/-- The bytes of the newline that ends the second line. -/
def newlines (rest : Option Bytes) : Nat :=
  if rest.isSome then 1 else 0

theorem length_ending (rest : Option Bytes) :
    (ending rest).length = newlines rest + (rest.getD []).length := by
  cases rest with
  | none => rfl
  | some rest => exact Nat.add_comm _ _

/-- The length of the old title as the code measures it. -/
def origLength (second : Bytes) (rest : Option Bytes) : Int :=
  (second.length : Int) + newlines rest - titleOffset - 1

/-- What is written in front of the final zero. -/
def writtenText (first second : Bytes) (rest : Option Bytes) (title : Bytes) : Bytes :=
  first ++ 10 :: second.take titleOffset ++ title ++ [10] ++ rest.getD []

theorem length_textOf (first second : Bytes) (rest : Option Bytes) :
    (textOf first second rest).length =
      first.length + 1 + second.length + newlines rest + (rest.getD []).length := by
  rw [textOf, List.length_append, List.length_cons, List.length_append, length_ending]
  omega

/-- Only the line of ten bytes without a newline has no measure. -/
theorem origLength_nonneg (long : titleOffset ≤ second.length)
    (measured : ¬asInt (origLength second rest) < 0) : 0 ≤ origLength second rest := by
  by_contra negative
  have minusOne : origLength second rest = -1 := by
    unfold origLength titleOffset at *
    omega
  rw [minusOne, asInt_neg_one] at measured
  exact measured (by decide)

include firstLine in
theorem getLineEnd_first :
    getLineEnd (textOf first second rest) 0 (textOf first second rest).length =
      some (first.length + 1) := by
  have found := getLineEnd_line [] firstLine (some (second ++ ending rest))
  rw [List.length_nil, Nat.zero_add] at found
  exact found

include secondLine in
theorem getLineEnd_second :
    getLineEnd (textOf first second rest) (first.length + 1) (textOf first second rest).length =
      some (first.length + 1 + second.length + newlines rest) := by
  have found := getLineEnd_line (first ++ [10]) secondLine rest
  have split : first ++ [10] ++ (second ++ ending rest) = textOf first second rest := by
    rw [textOf, List.append_assoc]
    rfl
  rw [split, List.length_append, List.length_singleton] at found
  exact found

theorem take_textOf (long : titleOffset ≤ second.length) :
    (textOf first second rest).take (first.length + 1 + titleOffset) =
      first ++ 10 :: second.take titleOffset := by
  rw [textOf, Nat.add_assoc, List.take_length_add_append, Nat.add_comm 1, List.take_succ_cons,
    List.take_append_of_le_length long]

theorem drop_textOf :
    (textOf first second rest).drop (first.length + 1 + second.length + newlines rest) =
      rest.getD [] := by
  have place : first.length + 1 + second.length + newlines rest =
      first.length + (second.length + newlines rest + 1) := by omega
  rw [textOf, place, List.drop_length_add_append, List.drop_succ_cons,
    List.drop_length_add_append]
  cases rest with
  | none => rfl
  | some rest => rfl

include firstLine secondLine

/-- What the code does to a text whose second line has the ten bytes. -/
theorem replaceContentTitle_eq (long : titleOffset ≤ second.length) :
    replaceContentTitle (textOf first second rest) title =
      if asInt (origLength second rest) < 0 then some none
      else if asInt title.bytes.length < 0 then none
      else some (some (filled (writtenText first second rest
        (title.bytes.take (asInt title.bytes.length).toNat))
          (origLength second rest - asInt (origLength second rest)).toNat ++ [some 0])) := by
  have measured : ((first.length + 1 + second.length + newlines rest : Nat) : Int) -
      (first.length + 1 + titleOffset : Nat) - 1 = origLength second rest := by
    unfold origLength
    omega
  unfold replaceContentTitle
  simp only [getLineEnd_first firstLine, getLineEnd_second secondLine, Option.bind_eq_bind,
    Option.bind_some, measured]
  by_cases missing : asInt (origLength second rest) < 0
  · rw [if_pos missing, if_pos missing]
  rw [if_neg missing, if_neg missing]
  have bound := origLength_nonneg rest long missing
  have shorter := asInt_le bound
  have copied := asInt_le (Int.natCast_nonneg title.bytes.length)
  by_cases negative : asInt title.bytes.length < 0
  · rw [if_pos negative]
    simp only [memcpy_negative negative, Option.bind_none, Option.bind_fun_none]
  · rw [if_neg negative]
    obtain ⟨count, isCount⟩ := Int.eq_ofNat_of_zero_le (Int.not_lt.mp negative)
    obtain ⟨unwritten, isUnwritten⟩ := Int.eq_ofNat_of_zero_le (Int.sub_nonneg.mpr shorter)
    have total := length_textOf first second rest
    have value : origLength second rest =
        (second.length : Int) + newlines rest - titleOffset - 1 := rfl
    have size : ∀ new orig : Int, new = count → origLength second rest - orig = unwritten →
        ((textOf first second rest).length + (new - orig)).toNat =
          first.length + 1 + titleOffset + count + 1 + (rest.getD []).length + unwritten := by
      intro new orig isNew isOrig
      omega
    have behind : ((textOf first second rest).length : Int) -
        (first.length + 1 + second.length + newlines rest : Nat) =
          ((rest.getD []).length : Nat) := by
      omega
    have inText : first.length + 1 + titleOffset ≤ (textOf first second rest).length := by
      omega
    have inTitle : count ≤ title.bytes.length := by
      rw [isCount] at copied
      exact Int.ofNat_le.mp copied
    rw [size _ _ isCount isUnwritten, behind, isCount, isUnwritten, drop_textOf]
    have filling := @fill_block _ title.bytes (rest.getD []) _ count unwritten inText inTitle
    rw [take_textOf rest long] at filling
    simp only [Int.toNat_natCast]
    exact filling

/-- The whole title is written, and nothing is left out, exactly if the lengths of both titles
are measured. -/
theorem gives_retitled_iff (long : titleOffset ≤ second.length) :
    Gives (replaceContentTitle (textOf first second rest) title)
        (retitled first second rest title) ↔
      Measurable second rest ∧ title.bytes.length < 2 ^ 31 := by
  have wanted : retitled first second rest title =
      writtenText first second rest title.bytes := by
    simp [retitled, writtenText]
  have measurable : Measurable second rest ↔
      0 ≤ origLength second rest ∧ origLength second rest < 2 ^ 31 := by
    cases rest with
    | none =>
      simp only [Measurable, origLength, newlines, titleOffset] at long ⊢
      simp
      omega
    | some rest =>
      simp only [Measurable, origLength, newlines, titleOffset] at long ⊢
      simp
      omega
  rw [Gives, replaceContentTitle_eq firstLine secondLine rest title long, wanted, measurable]
  have copied := asInt_le (Int.natCast_nonneg title.bytes.length)
  have isInt := asInt_eq_self_iff (Int.natCast_nonneg title.bytes.length)
  by_cases missing : asInt (origLength second rest) < 0
  · rw [if_pos missing]
    refine iff_of_false nofun fun fits => ?_
    rw [(asInt_eq_self_iff fits.1.1).mpr fits.1.2] at missing
    exact absurd missing (Int.not_lt.mpr fits.1.1)
  rw [if_neg missing]
  have nonneg := origLength_nonneg rest long missing
  by_cases negative : asInt title.bytes.length < 0
  · rw [if_pos negative]
    refine iff_of_false nofun fun fits => ?_
    rw [isInt.mpr (by exact_mod_cast fits.2)] at negative
    exact absurd negative (Int.not_lt.mpr (Int.natCast_nonneg _))
  rw [if_neg negative, Option.some.injEq, Option.some.injEq, List.append_left_inj,
    filled_eq_map_iff]
  have nothingLeft : (origLength second rest - asInt (origLength second rest)).toNat = 0 ↔
      0 ≤ origLength second rest ∧ origLength second rest < 2 ^ 31 := by
    rw [← asInt_eq_self_iff nonneg]
    have shorter := asInt_le nonneg
    generalize asInt (origLength second rest) = orig at *
    omega
  have wholeTitle : writtenText first second rest
      (title.bytes.take (asInt title.bytes.length).toNat) =
        writtenText first second rest title.bytes ↔ title.bytes.length < 2 ^ 31 := by
    have ints : title.bytes.length < 2 ^ 31 ↔ (title.bytes.length : Int) < 2 ^ 31 := by
      omega
    rw [ints, ← isInt]
    simp only [writtenText, List.append_left_inj, List.append_right_inj, List.take_eq_self_iff]
    generalize asInt title.bytes.length = count at *
    omega
  exact and_congr nothingLeft wholeTitle

omit firstLine secondLine in
/-- A text with another title has a second line that ends with a newline. -/
theorem retitled_eq_textOf :
    retitled first second rest title =
      textOf first (second.take titleOffset ++ title.bytes) (some (rest.getD [])) := by
  simp [retitled, textOf, ending]

/-- The law holds exactly if the old title and both new ones are measured. -/
theorem retitlingLaw_iff (long : titleOffset ≤ second.length) {title again : CString}
    (titleLine : 10 ∉ title.bytes) :
    RetitlingLaw first second rest title again ↔
      Measurable second rest ∧ title.bytes.length < 2 ^ 31 ∧ again.bytes.length < 2 ^ 31 := by
  have headLength : (second.take titleOffset).length = titleOffset :=
    List.length_take_of_le long
  have newLine : 10 ∉ second.take titleOffset ++ title.bytes := by
    rw [List.mem_append]
    rintro (inHead | inTitle)
    · exact secondLine (List.mem_of_mem_take inHead)
    · exact titleLine inTitle
  have newLong : titleOffset ≤ (second.take titleOffset ++ title.bytes).length := by
    rw [List.length_append, headLength]
    exact Nat.le_add_right _ _
  have lastTitle : retitled first (second.take titleOffset ++ title.bytes)
      (some (rest.getD [])) again = retitled first second rest again := by
    rw [retitled, retitled, List.take_append_of_le_length headLength.ge, List.take_take,
      Nat.min_self]
    rfl
  have twice := gives_retitled_iff firstLine newLine (some (rest.getD [])) again newLong
  rw [lastTitle, ← retitled_eq_textOf] at twice
  have newMeasurable : Measurable (second.take titleOffset ++ title.bytes)
      (some (rest.getD [])) ↔ title.bytes.length < 2 ^ 31 := by
    rw [Measurable, List.length_append, headLength]
    omega
  rw [newMeasurable] at twice
  have once := gives_retitled_iff firstLine secondLine rest title long
  have direct := gives_retitled_iff firstLine secondLine rest again long
  constructor
  · rintro ⟨first, second, -⟩
    obtain ⟨measurable, short⟩ := once.mp first
    exact ⟨measurable, short, (twice.mp second).2⟩
  · rintro ⟨measurable, short, shortAgain⟩
    exact ⟨once.mpr ⟨measurable, short⟩, twice.mpr ⟨short, shortAgain⟩,
      direct.mpr ⟨measurable, shortAgain⟩⟩

end Replacing

/-- A second line of eleven bytes without a newline. -/
theorem unterminated_retitlingLaw :
    RetitlingLaw [97] (topicString ++ [98]) none ⟨[99, 100], by decide⟩ ⟨[101], by decide⟩ :=
  (retitlingLaw_iff (by decide) (by decide) none (by decide) (by decide)).mpr
    ⟨⟨by decide, by decide⟩, by decide, by decide⟩

/-- A second line of ten bytes without a newline: a null pointer is returned. -/
theorem emptyTitle_not_retitled :
    replaceContentTitle (textOf [97] topicString none) ⟨[99], by decide⟩ = some none ∧
      ¬RetitlingLaw [97] topicString none ⟨[99], by decide⟩ ⟨[99], by decide⟩ := by
  have null : replaceContentTitle (textOf [97] topicString none) ⟨[99], by decide⟩ =
      some none := by
    rw [replaceContentTitle_eq (by decide) (by decide) none _ (by decide)]
    decide
  refine ⟨null, fun law => ?_⟩
  have given := law.once
  rw [Gives, null] at given
  cases given

end Retitling

end Fbbs
