import Fbbs.BackendMessages
import Fbbs.TextScan

/-!
# Editing a post on the web

`get_post_body` of `fcgi/post.c` finds the text of a post that a form shows, and `edit_article`
puts a new text between the header and the last line.  Both look for the last line from the end
of the content.  `none` is a read outside of the content.
-/

namespace Fbbs

namespace ArticleEditing

open TextScan

/-- `"\033[m\033[1;36m※ 修改"`. -/
def markPrefix : Bytes :=
  [27, 91, 109, 27, 91, 49, 59, 51, 54, 109, 226, 128, 187, 32, 228, 191, 174, 230, 148, 185]

/-- What the line of an edit names: the user, the time and the host. -/
structure Edit where
  userid : CharArray 16
  time : CString
  host : CharArray 40

/-- The line that `snprintf` makes of an edit. -/
def Edit.mark (edit : Edit) : Bytes :=
  markPrefix ++ [58, 194, 183] ++ edit.userid.str.bytes ++ [32, 228, 186, 142, 32] ++
    edit.time.bytes.take 25 ++ [194, 183, 72, 84, 84, 80, 32, 91, 70, 82, 79, 77, 58, 32] ++
    edit.host.str.bytes ++ [93, 27, 91, 109, 10]

theorem noUserid_fits : CString.empty.bytes.length < 16 :=
  Nat.succ_pos 15

theorem noHost_fits : CString.empty.bytes.length < 40 :=
  Nat.succ_pos 39

/-- An edit without names. -/
def blankEdit : Edit where
  userid := ⟨.empty, noUserid_fits⟩
  time := .empty
  host := ⟨.empty, noHost_fits⟩

/-- The length of some lines, or of the whole text if it has fewer. -/
def headerLength : Nat → Bytes → Nat
  | 0, _ => 0
  | _ + 1, [] => 0
  | n + 1, c :: rest => headerLength (if c = 10 then n else n + 1) rest + 1

/-- `strneq2` with the beginning of the line of an edit. -/
def isMark (content : Bytes) (s : Nat) : Bool :=
  markPrefix.isPrefixOf (content.drop s)

/-- Where the body begins and ends. -/
def getPostBody (content : CString) : Option (Nat × Nat) := do
  let text := content.bytes
  let begin := headerLength 4 text
  match ← findLast text 10 begin (text.length - 1) with
  | none => some (begin, text.length)
  | some ptr =>
    if isMark text (ptr + 1) then
      match ← findLast text 10 begin ptr with
      | none => some (begin, begin)
      | some ptr => some (begin, ptr)
    else some (begin, ptr)

/-- The line break in front of the last line and the end of the content without the line of an
edit; the pointer is `none` if it points to the place before the content. -/
def lastLine (text : Bytes) : Option (Option Nat × Nat) := do
  if text.length > 0 then
    match ← findLast text 10 0 (text.length - 1) with
    | none => some (none, text.length)
    | some ptr =>
      if isMark text (ptr + 1) then some (← findLast text 10 0 ptr, ptr + 1)
      else some (some ptr, text.length)
  else some (some 0, 0)

/-- `convert` into a buffer; `g2u` is the conversion of the library. -/
def convert (g2u : Bytes → Bytes) (text : CString) (size : Nat) : Bytes :=
  if text.bytes = [] then [] else (g2u text.bytes).take (size - 1)

/-- The content that `edit_article` stores. -/
def editArticle (g2u : Bytes → Bytes) (content text : CString) (edit : Edit) :
    Option Bytes := do
  let (ptr, fin) ← lastLine content.bytes
  let headerLen := headerLength 4 content.bytes
  let mark := edit.mark
  let lineLen := match ptr with
    | none => fin + 1
    | some ptr => fin - ptr
  let size := headerLen + text.bytes.length * 2 + lineLen + mark.length + 1
  let out := content.bytes.take headerLen ++ convert g2u text (size - headerLen)
  if size - out.length > lineLen + mark.length then
    match ptr with
    | none => none
    | some ptr => some (out ++ slice content.bytes ptr fin ++ mark)
  else some out

/-! ## What editing should do -/

/-- A post: lines of a header, a body that ends with a line break, a last line, and perhaps the
line of an edit. -/
structure Article where
  lines : List Bytes
  body : Bytes
  source : Bytes
  edited : Option Bytes
  four : lines.length = 4
  lines_unbroken : ∀ line ∈ lines, 10 ∉ line
  source_unbroken : 10 ∉ source
  source_isNoMark : ¬markPrefix <+: source ++ [10]
  edited_unbroken : ∀ rest ∈ edited, 10 ∉ rest

def Article.header (article : Article) : Bytes :=
  article.lines.flatMap (· ++ [10])

/-- The line of an edit that the post has. -/
def Article.oldMark (article : Article) : Bytes :=
  article.edited.elim [] fun rest => markPrefix ++ rest ++ [10]

def Article.bytes (article : Article) : Bytes :=
  article.header ++ article.body ++ 10 :: article.source ++ 10 :: article.oldMark

/-- The post with another text and a new mark. -/
def Article.edit (article : Article) (text : Bytes) (edit : Edit) : Bytes :=
  article.header ++ text ++ 10 :: article.source ++ 10 :: edit.mark

/-- The body is shown as it is, and any text that the conversion leaves as it is takes its
place. -/
structure EditsArticle (content : CString) (article : Article) : Prop where
  shows : ∃ begin fin, getPostBody content = some (begin, fin) ∧
    slice content.bytes begin fin = article.body
  stores : ∀ g2u (text : CString) (edit : Edit), g2u text.bytes = text.bytes →
    editArticle g2u content text edit = some (article.edit text.bytes edit)

/-- Nothing outside of the content is read. -/
structure ReadsInside (content : CString) : Prop where
  shows : (getPostBody content).isSome = true
  stores : ∀ g2u text edit, (editArticle g2u content text edit).isSome = true

/-- Contents are edited as they should be, and read inside their bounds. -/
structure EditsWell (content : CString) : Prop where
  article : ∀ article : Article, content.bytes = article.bytes → EditsArticle content article
  inside : ReadsInside content

/-- A line break stands in front of the last line, and if this is the line of an edit, another
one in front of the line before. -/
def HasLines (content : CString) : Prop :=
  content.bytes = [] ∨ ∃ ptr, lastIndex content.bytes 10 0 (content.bytes.length - 1) = some ptr ∧
    (isMark content.bytes (ptr + 1) = true → 10 ∈ content.bytes.take ptr)

section Lines

variable {line : Bytes}

theorem headerLength_line (unbroken : 10 ∉ line) (n : Nat) (rest : Bytes) :
    headerLength (n + 1) (line ++ 10 :: rest) = line.length + 1 + headerLength n rest := by
  induction line with
  | nil =>
    rw [List.nil_append, headerLength, if_pos rfl, List.length_nil]
    omega
  | cons c line ih =>
    have other : c ≠ 10 := fun same => unbroken (same ▸ List.mem_cons_self)
    rw [List.cons_append, headerLength, if_neg other,
      ih fun member => unbroken (List.mem_cons_of_mem c member), List.length_cons]
    omega

theorem headerLength_lines {lines : List Bytes} (unbroken : ∀ line ∈ lines, 10 ∉ line)
    (rest : Bytes) :
    headerLength lines.length (lines.flatMap (· ++ [10]) ++ rest) =
      (lines.flatMap (· ++ [10])).length := by
  induction lines with
  | nil => rw [List.length_nil, headerLength, List.flatMap_nil, List.length_nil]
  | cons line lines ih =>
    have first : (line :: lines).flatMap (· ++ [10]) ++ rest =
        line ++ 10 :: (lines.flatMap (· ++ [10]) ++ rest) := by simp
    rw [first, List.length_cons, headerLength_line (unbroken line List.mem_cons_self),
      ih fun other member => unbroken other (List.mem_cons_of_mem line member),
      List.flatMap_cons, List.length_append, List.length_append, List.length_singleton]

theorem lastIndex_line (before rest : Bytes) (unbroken : 10 ∉ line) {s : Nat}
    (low : s ≤ before.length) :
    lastIndex (before ++ 10 :: (line ++ rest)) 10 s (before.length + 1 + line.length) =
      some before.length := by
  have text : before ++ 10 :: (line ++ rest) = (before ++ [10]) ++ (line ++ rest) := by simp
  apply lastIndex_of_last low (by omega)
  · rw [List.getElem?_append_right (Nat.le_refl _), Nat.sub_self]
    rfl
  · intro q after inside here
    rw [text] at here
    apply unbroken
    apply mem_piece (p := q) _ _ here
    · rw [List.length_append, List.length_singleton]
      omega
    · rw [List.length_append, List.length_singleton]
      omega

theorem isSome_lastIndex (text : Bytes) (e : Nat) :
    (lastIndex text 10 0 e).isSome = true ↔ 10 ∈ text.take e := by
  rw [Option.isSome_iff_ne_none, ne_eq, lastIndex_eq_none_iff, List.mem_iff_getElem?]
  constructor
  · intro present
    by_contra absent
    apply present
    intro q _ before here
    exact absent ⟨q, by rw [List.getElem?_take_of_lt before, here]⟩
  · rintro ⟨p, here⟩ absent
    obtain ⟨before, -⟩ := List.getElem?_eq_some_iff.mp here
    rw [List.length_take] at before
    rw [List.getElem?_take_of_lt (by omega)] at here
    exact absent p (Nat.zero_le p) (by omega) here

end Lines

namespace Article

variable (article : Article)

/-- The place of the line break in front of the last line. -/
def place : Nat :=
  (article.header ++ article.body).length

theorem bytes_eq : article.bytes =
    (article.header ++ article.body) ++ 10 :: (article.source ++ 10 :: article.oldMark) := by
  simp [bytes]

/-- The mark of an edit is the last line. -/
theorem bytes_edited {rest : Bytes} (edited : article.edited = some rest) :
    article.bytes = (article.header ++ article.body ++ 10 :: article.source) ++
      10 :: ((markPrefix ++ rest) ++ [10]) := by
  simp [bytes, oldMark, edited]

/-- The last line is found in front of the mark of an edit. -/
theorem lastBreak {s : Nat} (low : s ≤ article.place) :
    (article.edited = none ∧
        lastIndex article.bytes 10 s (article.bytes.length - 1) = some article.place ∧
        isMark article.bytes (article.place + 1) = false ∧
        article.bytes.length = article.place + 1 + article.source.length + 1) ∨
      ∃ ptr, lastIndex article.bytes 10 s (article.bytes.length - 1) = some ptr ∧
        isMark article.bytes (ptr + 1) = true ∧
        lastIndex article.bytes 10 s ptr = some article.place ∧
        ptr = article.place + 1 + article.source.length := by
  cases edited : article.edited with
  | none =>
    left
    have text : article.bytes =
        (article.header ++ article.body) ++ 10 :: (article.source ++ [10]) := by
      rw [article.bytes_eq, oldMark, edited]
      rfl
    have length : article.bytes.length = article.place + 1 + article.source.length + 1 := by
      rw [text, place]
      simp only [List.length_append, List.length_cons, List.length_nil]
      omega
    have found := lastIndex_line (article.header ++ article.body) [10]
      article.source_unbroken low
    have isLast : article.bytes.drop (article.place + 1) = article.source ++ [10] := by
      rw [text, place, ← List.drop_drop, List.drop_left]
      rfl
    refine ⟨rfl, ?_, ?_, length⟩
    · rw [length, Nat.add_sub_cancel, text]
      exact found
    · rw [isMark, isLast, ← Bool.not_eq_true, List.isPrefixOf_iff_prefix]
      exact article.source_isNoMark
  | some rest =>
    right
    have unbroken : 10 ∉ markPrefix ++ rest := by
      intro member
      rcases List.mem_append.mp member with inPrefix | inRest
      · revert inPrefix
        decide
      · exact article.edited_unbroken rest edited inRest
    have text := article.bytes_edited edited
    have before : (article.header ++ article.body ++ 10 :: article.source).length =
        article.place + 1 + article.source.length := by
      simp only [place, List.length_append, List.length_cons]
      omega
    refine ⟨article.place + 1 + article.source.length, ?_, ?_, ?_, rfl⟩
    · have found := lastIndex_line (article.header ++ article.body ++ 10 :: article.source) [10]
        unbroken (s := s) (by omega)
      have length : article.bytes.length - 1 =
          (article.header ++ article.body ++ 10 :: article.source).length + 1 +
            (markPrefix ++ rest).length := by
        rw [text]
        simp only [List.length_append, List.length_cons, List.length_nil]
        omega
      rw [length, text, found, before]
    · rw [isMark, text, ← before, ← List.drop_drop, List.drop_left, List.isPrefixOf_iff_prefix,
        List.append_assoc]
      exact List.prefix_append _ _
    · rw [article.bytes_eq]
      exact lastIndex_line (article.header ++ article.body) _ article.source_unbroken low

theorem headerLength_eq : headerLength 4 article.bytes = article.header.length := by
  have text : article.bytes = article.lines.flatMap (· ++ [10]) ++
      (article.body ++ 10 :: (article.source ++ 10 :: article.oldMark)) := by
    rw [article.bytes_eq, header, List.append_assoc]
  rw [text, ← article.four, headerLength_lines article.lines_unbroken]
  rfl

theorem header_le_place : article.header.length ≤ article.place := by
  rw [place, List.length_append]
  exact Nat.le_add_right _ _

/-- What stands between the header and the line break in front of the last line. -/
theorem slice_body : slice article.bytes article.header.length article.place = article.body := by
  rw [article.bytes_eq, place, List.length_append, List.append_assoc]
  exact slice_piece _ _ _

theorem slice_source :
    slice article.bytes article.place (article.place + 1 + article.source.length + 1) =
      10 :: article.source ++ [10] := by
  have text : article.bytes = (article.header ++ article.body) ++
      ((10 :: article.source ++ [10]) ++ article.oldMark) := by
    rw [article.bytes_eq]
    simp
  have piece := slice_piece (article.header ++ article.body) (10 :: article.source ++ [10])
    article.oldMark
  rw [← text] at piece
  have fin : article.place + 1 + article.source.length + 1 =
      (article.header ++ article.body).length + (10 :: article.source ++ [10]).length := by
    simp only [place, List.length_append, List.length_cons, List.length_nil]
    omega
  rw [fin]
  exact piece

end Article

section Contents

variable {content : CString}

theorem lastLine_eq (text : Bytes) :
    lastLine text =
      if text = [] then some (some 0, 0)
      else
        match lastIndex text 10 0 (text.length - 1) with
        | none => some (none, text.length)
        | some ptr =>
          if isMark text (ptr + 1) then some (lastIndex text 10 0 ptr, ptr + 1)
          else some (some ptr, text.length) := by
  rw [lastLine]
  by_cases empty : text = []
  · rw [if_pos empty, empty]
    rfl
  · rw [if_neg empty, if_pos (List.length_pos_iff.mpr empty), findLast_eq (Nat.sub_le _ _)]
    simp only [Option.bind_eq_bind, Option.bind_some]
    cases found : lastIndex text 10 0 (text.length - 1) with
    | none => rfl
    | some ptr =>
      obtain ⟨-, before, -⟩ := lastIndex_eq_some found
      simp only
      rw [findLast_eq (by omega), Option.bind_some]

/-- The last line of a post and the mark behind it. -/
theorem lastLine_article {article : Article} :
    lastLine article.bytes =
      some (some article.place, article.place + 1 + article.source.length + 1) := by
  have nonempty : article.bytes ≠ [] := by
    rw [article.bytes_eq]
    simp
  rw [lastLine_eq, if_neg nonempty]
  rcases article.lastBreak (Nat.zero_le _) with ⟨-, found, noMark, length⟩ | ⟨ptr, found, marked,
    before, rfl⟩
  · rw [found]
    simp only
    rw [noMark, if_neg Bool.false_ne_true, length]
  · rw [found]
    simp only
    rw [marked, if_pos rfl, before]

theorem getPostBody_article {article : Article} (isArticle : content.bytes = article.bytes) :
    getPostBody content = some (article.header.length, article.place) := by
  rw [getPostBody, isArticle, article.headerLength_eq]
  simp only [Option.bind_eq_bind]
  rw [findLast_eq (Nat.sub_le _ _), Option.bind_some]
  rcases article.lastBreak article.header_le_place with ⟨-, found, noMark, -⟩ | ⟨ptr, found,
    marked, before, isPtr⟩
  · rw [found]
    simp only
    rw [noMark, if_neg Bool.false_ne_true]
  · obtain ⟨-, inside, -⟩ := lastIndex_eq_some found
    rw [found]
    simp only
    rw [marked, if_pos rfl, findLast_eq (by omega), Option.bind_some, before]

/-- A text that the conversion leaves as it is fits its buffer. -/
theorem convert_eq {g2u : Bytes → Bytes} {text : CString} (same : g2u text.bytes = text.bytes)
    {size : Nat} (fits : text.bytes.length < size) : convert g2u text size = text.bytes := by
  rw [convert, same]
  split
  · rename_i empty
    exact empty.symm
  · exact List.take_of_length_le (by omega)

theorem convert_empty (g2u : Bytes → Bytes) (size : Nat) : convert g2u .empty size = [] :=
  if_pos rfl

theorem editsArticle {article : Article} (isArticle : content.bytes = article.bytes) :
    EditsArticle content article := by
  constructor
  · refine ⟨_, _, getPostBody_article isArticle, ?_⟩
    rw [isArticle, article.slice_body]
  · intro g2u text edit same
    have inHeader : article.bytes.take article.header.length = article.header := by
      rw [article.bytes_eq, List.append_assoc]
      exact List.take_left
    rw [editArticle, isArticle, lastLine_article]
    simp only [Option.bind_eq_bind, Option.bind_some]
    rw [article.headerLength_eq, convert_eq same (by omega), inHeader, List.length_append,
      if_pos (by omega), article.slice_source, Article.edit]
    simp

theorem isSome_getPostBody (content : CString) : (getPostBody content).isSome = true := by
  rw [getPostBody]
  simp only [Option.bind_eq_bind]
  rw [findLast_eq (Nat.sub_le _ _), Option.bind_some]
  cases found : lastIndex content.bytes 10 (headerLength 4 content.bytes)
      (content.bytes.length - 1) with
  | none => rfl
  | some ptr =>
    obtain ⟨-, inside, -⟩ := lastIndex_eq_some found
    simp only
    split
    · rw [findLast_eq (by omega), Option.bind_some]
      cases lastIndex content.bytes 10 (headerLength 4 content.bytes) ptr <;> rfl
    · rfl

/-- The pointer stays in the content exactly if there are enough lines. -/
theorem lastLine_inside_iff (content : CString) :
    (∃ ptr fin, lastLine content.bytes = some (some ptr, fin)) ↔ HasLines content := by
  rw [lastLine_eq, HasLines]
  by_cases empty : content.bytes = []
  · rw [if_pos empty]
    exact iff_of_true ⟨0, 0, rfl⟩ (.inl empty)
  rw [if_neg empty, or_iff_right empty]
  cases lastIndex content.bytes 10 0 (content.bytes.length - 1) with
  | none => simp
  | some ptr =>
    simp only [Option.some.injEq, exists_eq_left']
    cases isMark content.bytes (ptr + 1) with
    | false => simp
    | true =>
      rw [← isSome_lastIndex, Option.isSome_iff_exists]
      simp

theorem readsInside_iff (content : CString) : ReadsInside content ↔ HasLines content := by
  rw [← lastLine_inside_iff]
  constructor
  · intro reads
    have stores := reads.stores id .empty blankEdit
    rw [editArticle] at stores
    cases found : lastLine content.bytes with
    | none =>
      rw [found] at stores
      cases stores
    | some line =>
      obtain ⟨ptr, fin⟩ := line
      rw [found] at stores
      cases ptr with
      | some ptr => exact ⟨ptr, fin, rfl⟩
      | none =>
        simp only [Option.bind_eq_bind, Option.bind_some] at stores
        rw [if_pos] at stores
        · cases stores
        · have length : CString.empty.bytes.length = 0 := rfl
          rw [convert_empty, List.append_nil, List.length_take, length]
          omega
  · rintro ⟨ptr, fin, found⟩
    refine ⟨isSome_getPostBody content, ?_⟩
    intro g2u text edit
    rw [editArticle, found]
    simp only [Option.bind_eq_bind, Option.bind_some]
    split <;> rfl

/-- Posts are edited as they should be, and nothing is read outside of a content exactly if a line
break stands in front of its last line, and another one if this is the line of an edit. -/
theorem editsWell_iff (content : CString) : EditsWell content ↔ HasLines content := by
  constructor
  · intro edits
    exact (readsInside_iff content).mp edits.inside
  · intro lines
    exact ⟨fun _ isArticle => editsArticle isArticle, (readsInside_iff content).mpr lines⟩

end Contents

def oneByteContent : CString :=
  ⟨[120], by decide⟩

theorem oneByteContent_not_edited :
    ¬EditsWell oneByteContent ∧ editArticle id oneByteContent .empty blankEdit = none := by
  have outside : editArticle id oneByteContent .empty blankEdit = none := by
    decide
  refine ⟨fun edits => ?_, outside⟩
  have stores := edits.inside.stores id .empty blankEdit
  rw [outside] at stores
  cases stores

end ArticleEditing

end Fbbs
