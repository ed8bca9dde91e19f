import Fbbs.PostMarkupBounds

/-!
# A printed post is well-formed

In UTF-8 the escaping works byte by byte, and all elements are closed.  There are two
ways out: a zero byte is printed as it is, and an address of fewer than eleven bytes is
printed without escaping, although `&` may be part of it.
-/

namespace Fbbs

namespace PostMarkup

open TaggedMarkup TextScan

section Escaping

theorem isText_of_not_escaped {c : UInt8} (nonzero : c ≠ 0) (notLess : c ≠ 60)
    (notGreater : c ≠ 62) (notAnd : c ≠ 38) (kept : ¬(c ≠ 0 ∧ c < 32 ∧ c ≠ 9)) :
    isText c = true := by
  grind [isText, isControl]

theorem reference_nbsp : Reference (lit ['&', '#'] ++ lit ['1', '6', '0'] ++ lit [';']) :=
  .numbered (by decide) (by decide)

/-- A byte is dropped, replaced by a reference, or printed. -/
theorem escapeByte_cases (c : UInt8) :
    escapeByte c = [] ∨ Reference (escapeByte c) ∨
      escapeByte c = [⟨c, true⟩] ∧ (c = 0 ∨ isText c = true) := by
  unfold escapeByte
  split
  · exact .inr (.inl (reference_lit ['l', 't'] (by decide) (by decide)))
  · split
    · exact .inr (.inl (reference_lit ['g', 't'] (by decide) (by decide)))
    · split
      · exact .inr (.inl (reference_lit ['a', 'm', 'p'] (by decide) (by decide)))
      · split
        · exact .inr (.inl reference_nbsp)
        · split
          · exact .inl rfl
          · refine .inr (.inr ⟨rfl, ?_⟩)
            by_cases zero : c = 0
            · exact .inl zero
            · exact .inr (isText_of_not_escaped zero ‹_› ‹_› ‹_› ‹_›)

theorem escapeByte_content {c : UInt8} (nonzero : c ≠ 0) : Content (escapeByte c) := by
  rcases escapeByte_cases c with dropped | replaced | ⟨printed, zero | plain⟩
  · rw [dropped]
    exact .nil
  · rw [← List.append_nil (escapeByte c)]
    exact .reference replaced .nil
  · exact absurd zero nonzero
  · rw [printed]
    exact .byte plain .nil

theorem escaped_content {bytes : Bytes} (nonzero : (0 : UInt8) ∉ bytes) :
    Content (bytes.flatMap escapeByte) := by
  induction bytes with
  | nil => exact .nil
  | cons c bytes ih =>
    rw [List.mem_cons, not_or] at nonzero
    rw [List.flatMap_cons]
    exact (escapeByte_content (Ne.symm nonzero.1)).append (ih nonzero.2)

theorem isValue_of_isUrlByte {c : UInt8} (url : isUrlByte c = true) (text : isText c = true) :
    isValue c = true := by
  have notQuote : c ≠ 39 ∧ c ≠ 34 := by
    constructor <;> (rintro rfl; exact absurd url (by decide))
  simp [isValue, text, notQuote]

theorem escaped_value {bytes : Bytes} (nonzero : (0 : UInt8) ∉ bytes)
    (url : ∀ c ∈ bytes, isUrlByte c = true) : Value (bytes.flatMap escapeByte) := by
  induction bytes with
  | nil => exact .nil
  | cons c bytes ih =>
    rw [List.mem_cons, not_or] at nonzero
    obtain ⟨urlByte, urlBytes⟩ := List.forall_mem_cons.mp url
    rw [List.flatMap_cons]
    refine Value.append ?_ (ih nonzero.2 urlBytes)
    rcases escapeByte_cases c with dropped | replaced | ⟨printed, zero | plain⟩
    · rw [dropped]
      exact .nil
    · rw [← List.append_nil (escapeByte c)]
      exact .reference replaced .nil
    · exact absurd zero.symm nonzero.1
    · rw [printed]
      exact .byte (isValue_of_isUrlByte urlByte plain) .nil

theorem escaped_spoilt {bytes : Bytes} (zero : (0 : UInt8) ∈ bytes) :
    Spoilt (bytes.flatMap escapeByte) :=
  ⟨⟨0, true⟩, List.mem_flatMap.mpr ⟨0, zero, by decide⟩, .inl (by decide)⟩

variable {page : Page} (utf8 : page.utf8 = true)

include utf8 in
theorem escaped_utf8 (bytes : Bytes) : escaped page bytes = bytes.flatMap escapeByte := by
  rw [escaped, if_pos utf8]

end Escaping

section Colours

theorem number_value (number : Int) : Value (printNumber number) := by
  apply Value.of_bytes
  intro c member
  obtain ⟨byte, inside, rfl⟩ := List.mem_map.mp member
  have numberByte := DecimalText.isNumberByte_of_mem_ofInt inside
  grind [DecimalText.isNumberByte, DecimalText.isDigit, isValue, isText, isControl]

def colourAttributes (ansi : AnsiColor) : Output :=
  lit [' '] ++ lit ['h'] ++ lit ['=', '\''] ++ printNumber ansi.hl ++ lit ['\''] ++
    (lit [' '] ++ lit ['f'] ++ lit ['=', '\''] ++ printNumber ansi.fg ++ lit ['\''] ++
      (lit [' '] ++ lit ['b'] ++ lit ['=', '\''] ++ printNumber ansi.bg ++ lit ['\''] ++ []))

theorem colourAttributes_attributes (ansi : AnsiColor) : Attributes (colourAttributes ansi) :=
  .cons (isName_lit ['h'] (by decide) (by decide)) (number_value ansi.hl)
    (.cons (isName_lit ['f'] (by decide) (by decide)) (number_value ansi.fg)
      (.cons (isName_lit ['b'] (by decide) (by decide)) (number_value ansi.bg)
        .nil))

theorem openColour_eq (ansi : AnsiColor) :
    openColour ansi = lit ['<'] ++ lit ['c'] ++ colourAttributes ansi ++ lit ['>'] := by
  simp [openColour, colourAttributes, lit]

/-- What has been printed since a colour was opened, or since the start. -/
def Continues (opened : Bool) (out : Output) : Prop :=
  if opened then
    ∃ inner tail, out = inner ++ lit ['<', '/', 'c', '>'] ++ tail ∧ Content inner ∧ Content tail
  else Content out

theorem openColour_content (ansi : AnsiColor) {out : Output} (continues : Continues true out) :
    Content (openColour ansi ++ out) := by
  obtain ⟨inner, tail, rfl, isInner, isTail⟩ := continues
  have element := Content.element (isName_lit ['c'] (by decide) (by decide))
    (colourAttributes_attributes ansi) isInner isTail
  rw [openColour_eq]
  simpa [lit] using element

theorem Continues.prepend (opened : Bool) {before after : Output} (isBefore : Content before)
    (isAfter : Content after) : Continues opened (before ++ closeColour opened ++ after) := by
  cases opened with
  | true => exact ⟨before, after, rfl, isBefore, isAfter⟩
  | false =>
    simp only [Continues, closeColour, Bool.false_eq_true, if_false, List.append_nil]
    exact isBefore.append isAfter

variable {page : Page} {text : Bytes} {e : Nat}

theorem not_mem_slice_of_append {s m : Nat} {c : UInt8} (low : s ≤ m) (high : m ≤ e)
    (inside : e ≤ text.length) :
    c ∉ slice text s e ↔ c ∉ slice text s m ∧ c ∉ slice text m e := by
  rw [slice_append low high inside, List.mem_append, not_or]

/-- `_print_ansi_text` prints balanced colours, unless there is a zero byte. -/
theorem printAnsiLoop_utf8 (utf8 : page.utf8 = true) {fuel s last : Nat} (opened : Bool)
    (ansi : AnsiColor) (order : s ≤ e) (inside : e ≤ text.length) (lastOrder : last ≤ s)
    (enough : e - s < fuel) :
    ∃ out final, printAnsiLoop text page e fuel s last opened ansi = some (out, final) ∧
      ((0 : UInt8) ∉ slice text last e → Continues opened out) ∧
      ((0 : UInt8) ∈ slice text last e → Spoilt out) := by
  induction fuel generalizing s last opened ansi with
  | zero => omega
  | succ fuel ih =>
    rw [printAnsiLoop]
    by_cases ended : s = e
    · rw [if_pos ended, xmlEscape_eq page (by omega) inside, escaped_utf8 utf8]
      refine ⟨_, _, rfl, ?_, ?_⟩
      · intro clean
        have continues := Continues.prepend opened (escaped_content clean) .nil
        rwa [List.append_nil] at continues
      · intro zero
        exact spoilt_append.mpr (.inl (escaped_spoilt zero))
    · obtain ⟨c, here⟩ := exists_getElem? (s := s) text (by omega)
      simp only [if_neg ended, here, Option.bind_eq_bind, Option.bind_some]
      by_cases escape : c = 27
      · rw [escape] at here
        obtain ⟨next, color, code, low, high, skipped⟩ :=
          parseAnsiCode_spec ansi (by omega) inside here
        obtain ⟨rest, final, loop, clean, spoilt⟩ :=
          ih true color high (Nat.le_refl next) (by omega)
        rw [if_pos escape, xmlEscape_eq page lastOrder (by omega), Option.bind_some, code,
          Option.bind_some, loop, escaped_utf8 utf8]
        have parts := not_mem_slice_of_append (c := 0) lastOrder order inside
        have later := not_mem_slice_of_append (c := 0) low.le high inside
        refine ⟨_, _, rfl, ?_, ?_⟩
        · intro nonzero
          rw [parts, later] at nonzero
          rw [List.append_assoc]
          exact .prepend opened (escaped_content nonzero.1)
            (openColour_content color (clean nonzero.2.2))
        · intro zero
          rw [List.append_assoc]
          by_cases before : (0 : UInt8) ∈ slice text last s
          · exact spoilt_append.mpr (.inl (spoilt_append.mpr (.inl (escaped_spoilt before))))
          · have behind : (0 : UInt8) ∈ slice text next e := by
              by_contra absent
              exact parts.mpr ⟨before, later.mpr ⟨skipped, absent⟩⟩ zero
            exact spoilt_append.mpr (.inr (spoilt_append.mpr (.inr (spoilt behind))))
      · rw [if_neg escape]
        exact ih opened ansi (by omega : s + 1 ≤ e) (by omega) (by omega)

theorem printAnsiText_utf8 (utf8 : page.utf8 = true) {s : Nat} (ansi : AnsiColor)
    (order : s ≤ e) (inside : e ≤ text.length) :
    ∃ out final, printAnsiText text page s e ansi = some (out, final) ∧
      ((0 : UInt8) ∉ slice text s e → Content out) ∧
      ((0 : UInt8) ∈ slice text s e → Spoilt out) :=
  printAnsiLoop_utf8 utf8 false ansi order inside (Nat.le_refl s) (by omega)

end Colours

section Paragraphs

variable {page : Page} {text : Bytes} {s e : Nat}

/-- An address that is printed as it should be: a short one has no `&`. -/
def UrlClean (url : Bytes) : Prop :=
  (0 : UInt8) ∉ url ∧ (url.length < 11 → (38 : UInt8) ∉ url)

theorem isUrlByte_of_mem_url (order : s ≤ e) (inside : e ≤ text.length) :
    ∀ c ∈ slice text s (urlEnd text s e), isUrlByte c = true := by
  intro c member
  rw [urlEnd, slice_first order inside] at member
  simpa using List.mem_takeWhile_imp member

theorem large_of_isUrlByte {c : UInt8} (url : isUrlByte c = true) (nonzero : c ≠ 0) :
    33 ≤ c := by
  simp only [isUrlByte, Bool.or_eq_true, Bool.and_eq_true, decide_eq_true_eq,
    List.contains_iff_mem] at url
  have marks : ∀ mark ∈ ([126, 36, 45, 95, 46, 43, 33, 42, 41, 40, 44, 47, 58, 59, 61, 63, 64, 37,
      35, 91, 93, 38] : Bytes), 33 ≤ mark := by decide +kernel
  rcases url with (((zero | digit) | lower) | upper) | mark
  · exact absurd zero nonzero
  · exact UInt8.le_trans (by decide) digit.1
  · exact UInt8.le_trans (by decide) lower.1
  · exact UInt8.le_trans (by decide) upper.1
  · exact marks c mark

theorem isText_of_isUrlByte {c : UInt8} (url : isUrlByte c = true) (nonzero : c ≠ 0)
    (notAnd : c ≠ 38) : isText c = true := by
  have large := large_of_isUrlByte url nonzero
  have notLess : c ≠ 60 := by
    rintro rfl
    exact absurd url (by decide)
  have notGreater : c ≠ 62 := by
    rintro rfl
    exact absurd url (by decide)
  grind [isText, isControl]

def linkAttributes (picture : Bool) (href : Output) : Output :=
  (if picture then lit [' '] ++ lit ['i'] ++ lit ['=', '\''] ++ lit ['i'] ++ lit ['\''] else []) ++
    (lit [' '] ++ lit ['h', 'r', 'e', 'f'] ++ lit ['=', '\''] ++ href ++ lit ['\''] ++ [])

theorem linkAttributes_attributes (picture : Bool) {href : Output} (isValue : Value href) :
    Attributes (linkAttributes picture href) := by
  have link : Attributes (lit [' '] ++ lit ['h', 'r', 'e', 'f'] ++ lit ['=', '\''] ++ href ++
      lit ['\''] ++ []) :=
    .cons (isName_lit ['h', 'r', 'e', 'f'] (by decide) (by decide)) isValue .nil
  cases picture with
  | false => exact link
  | true =>
    have mark : Value (lit ['i']) := .of_bytes (by decide)
    exact .cons (isName_lit ['i'] (by decide) (by decide)) mark link

theorem link_content (picture : Bool) {href : Output} (isValue : Value href) :
    Content (lit ['<', 'a', ' '] ++
      (if picture then lit ['i', '=', '\'', 'i', '\'', ' '] else []) ++
      lit ['h', 'r', 'e', 'f', '=', '\''] ++ href ++ lit ['\'', '/', '>']) := by
  have element := Content.empty (isName_lit ['a'] (by decide) (by decide))
    (linkAttributes_attributes picture isValue) .nil
  cases picture with
  | false => simpa [linkAttributes, lit] using element
  | true => simpa [linkAttributes, lit] using element

/-- `_print_url` prints a link or a plain address, unless the address has a zero byte, or is
short and has an `&`. -/
theorem printUrl_utf8 (utf8 : page.utf8 = true) (option : Int32) (order : s ≤ e)
    (inside : e ≤ text.length) :
    ∃ out, printUrl page text s e option = some (out, urlEnd text s e) ∧
      (UrlClean (slice text s (urlEnd text s e)) → Content out) ∧
      (¬UrlClean (slice text s (urlEnd text s e)) → Spoilt out) := by
  have high : urlEnd text s e ≤ e := first_le _ order inside
  have low : s ≤ urlEnd text s e := le_first _ _ s e
  have found : getUrl text s e = some (urlEnd text s e) := find_eq order inside
  have bound : urlEnd text s e ≤ text.length := Nat.le_trans high inside
  have length := length_slice (s := s) bound
  have urlBytes := isUrlByte_of_mem_url order inside
  simp only [printUrl, found, Option.bind_eq_bind, Option.bind_some]
  split
  · rename_i short
    rw [read_eq bound]
    refine ⟨_, rfl, ?_, ?_⟩
    · rintro ⟨nonzero, noAnd⟩
      apply Content.of_text
      intro c member
      obtain ⟨byte, inUrl, rfl⟩ := List.mem_map.mp member
      apply isText_of_isUrlByte (urlBytes byte inUrl)
      · rintro rfl
        exact nonzero inUrl
      · rintro rfl
        exact noAnd (by omega) inUrl
    · intro unclean
      have bad : ∃ byte ∈ slice text s (urlEnd text s e), byte = 0 ∨ byte = 38 := by
        by_contra none
        apply unclean
        constructor
        · intro zero
          exact none ⟨0, zero, .inl rfl⟩
        · intro _ ampersand
          exact none ⟨38, ampersand, .inr rfl⟩
      obtain ⟨byte, inUrl, zero | ampersand⟩ := bad
      · exact ⟨⟨byte, true⟩, List.mem_map_of_mem inUrl, by rw [zero]; exact .inl (by decide)⟩
      · exact ⟨⟨byte, true⟩, List.mem_map_of_mem inUrl,
          by rw [ampersand]; exact .inr ⟨rfl, by decide⟩⟩
  · rename_i long
    obtain ⟨picture, pictureEq⟩ : ∃ picture,
        showsPicture text s (urlEnd text s e) option = some picture := by
      unfold showsPicture
      split
      · exact Option.isSome_iff_exists.mp (isPicture_isSome bound)
      · exact ⟨false, rfl⟩
    rw [pictureEq, Option.bind_some, xmlEscape_eq page low bound, escaped_utf8 utf8]
    refine ⟨_, rfl, ?_, ?_⟩
    · rintro ⟨nonzero, -⟩
      exact link_content picture (escaped_value nonzero urlBytes)
    · intro unclean
      have zero : (0 : UInt8) ∈ slice text s (urlEnd text s e) := by
        by_contra nonzero
        exact unclean ⟨nonzero, fun short => by omega⟩
      have spoilt := escaped_spoilt zero
      simp only [spoilt_append, spoilt, or_true, true_or]

/-- The addresses that `_print_paragraph` finds in a line. -/
def urls (text : Bytes) (e : Nat) : Nat → Nat → List Bytes
  | 0, _ => []
  | fuel + 1, s =>
    match urlStart text s e with
    | none => []
    | some url =>
      slice text url (urlEnd text url e) :: urls text e fuel (urlEnd text url e)

/-- A line without zero bytes whose short addresses have no `&`. -/
def LineClean (text : Bytes) (fuel s e : Nat) : Prop :=
  (0 : UInt8) ∉ slice text s e ∧
    ∀ url ∈ urls text e fuel s, url.length < 11 → (38 : UInt8) ∉ url

theorem lineClean_of_none {fuel : Nat} (absent : urlStart text s e = none) :
    LineClean text (fuel + 1) s e ↔ (0 : UInt8) ∉ slice text s e := by
  simp [LineClean, urls, absent]

/-- A line is clean if what stands before the first address, the address and the rest are. -/
theorem lineClean_of_some {fuel url : Nat} (inside : e ≤ text.length)
    (found : urlStart text s e = some url) :
    LineClean text (fuel + 1) s e ↔
      (0 : UInt8) ∉ slice text s url ∧ UrlClean (slice text url (urlEnd text url e)) ∧
        LineClean text fuel (urlEnd text url e) e := by
  obtain ⟨low, before, after⟩ := urlStart_bounds inside found
  have high : urlEnd text url e ≤ e := first_le _ before.le inside
  rw [LineClean, not_mem_slice_of_append low before.le inside,
    not_mem_slice_of_append after.le high inside]
  simp only [urls, found, List.forall_mem_cons, UrlClean, LineClean]
  tauto

/-- A paragraph is well-formed exactly if the line is clean. -/
theorem printParagraphLoop_utf8 (utf8 : page.utf8 = true) {fuel : Nat} (option : Int32)
    (ansi : AnsiColor) (order : s ≤ e) (inside : e ≤ text.length) (enough : e - s < fuel) :
    ∃ out, printParagraphLoop page text e option fuel s ansi = some out ∧
      (LineClean text fuel s e → Content out) ∧ (¬LineClean text fuel s e → Spoilt out) := by
  induction fuel generalizing s ansi with
  | zero => omega
  | succ fuel ih =>
    rw [printParagraphLoop]
    by_cases ended : s = e
    · refine ⟨[], if_pos ended, fun _ => .nil, ?_⟩
      intro unclean
      have nothing : urlStart text s e = none := by
        cases found : urlStart text s e with
        | none => rfl
        | some url =>
          have bounds := urlStart_bounds inside found
          omega
      rw [lineClean_of_none nothing, slice_of_le (Nat.le_of_eq ended.symm)] at unclean
      simp at unclean
    · rw [if_neg ended, nextUrl_eq order inside]
      simp only [Option.bind_eq_bind, Option.bind_some]
      cases found : urlStart text s e with
      | none =>
        obtain ⟨out, final, printed, clean, spoilt⟩ :=
          printAnsiText_utf8 utf8 ansi order inside
        rw [lineClean_of_none found]
        refine ⟨out, ?_, clean, fun unclean => spoilt (not_not.mp unclean)⟩
        simp only [printed, Option.bind_some]
      | some url =>
        obtain ⟨low, before, after⟩ := urlStart_bounds inside found
        have high : urlEnd text url e ≤ e := first_le _ before.le inside
        obtain ⟨out, color, printed, clean, spoilt⟩ :=
          printAnsiText_utf8 utf8 ansi low (by omega : url ≤ text.length)
        obtain ⟨link, linked, linkClean, linkSpoilt⟩ :=
          printUrl_utf8 utf8 option before.le inside
        obtain ⟨rest, later, restClean, restSpoilt⟩ := ih color high (by omega)
        rw [lineClean_of_some inside found]
        refine ⟨out ++ link ++ rest, ?_, ?_, ?_⟩
        · simp only [printed, linked, later, Option.bind_some]
        · rintro ⟨nonzero, urlClean, lineClean⟩
          exact ((clean nonzero).append (linkClean urlClean)).append (restClean lineClean)
        · intro unclean
          rw [spoilt_append, spoilt_append]
          by_cases zero : (0 : UInt8) ∈ slice text s url
          · exact .inl (.inl (spoilt zero))
          · by_cases urlClean : UrlClean (slice text url (urlEnd text url e))
            · exact .inr (restSpoilt fun lineClean => unclean ⟨zero, urlClean, lineClean⟩)
            · exact .inl (.inr (linkSpoilt urlClean))

end Paragraphs

section Body

variable {page : Page} {text : Bytes} {s e : Nat}

/-- A line that is printed as a break. -/
def BlankLine (text : Bytes) (s e : Nat) : Prop :=
  e = s + 1 ∨ e = s + 2 ∧ text[s]? = some 13

/-- A line that is printed as it should be. -/
def LineShown (text : Bytes) (line : Nat × Nat) : Prop :=
  BlankLine text line.1 line.2 ∨ LineClean text (text.length + 1) line.1 line.2

instance decidableLineShown (text : Bytes) (line : Nat × Nat) : Decidable (LineShown text line) :=
  inferInstanceAs (Decidable ((_ ∨ _ ∧ _) ∨
    _ ∧ ∀ url ∈ urls text line.2 (text.length + 1) line.1, _ → _))

theorem isBlankLine_spec (before : s < e) (inside : e ≤ text.length) :
    ∃ blank, isBlankLine text s e = some blank ∧ (blank = true ↔ BlankLine text s e) := by
  obtain ⟨c, here⟩ := exists_getElem? (s := s) text (by omega)
  unfold isBlankLine BlankLine
  rw [here]
  split
  · rename_i single
    exact ⟨true, rfl, by simp [single]⟩
  · rename_i longer
    split
    · rename_i double
      exact ⟨c == 13, rfl, by simp [double]⟩
    · rename_i more
      exact ⟨false, rfl, by simp [longer, more]⟩

theorem paragraph_content {content : Output} (isContent : Content content) :
    Content (lit ['<', 'p', '>'] ++ content ++ lit ['<', '/', 'p', '>']) :=
  .single (isName_lit ['p'] (by decide) (by decide)) .nil isContent

theorem break_content : Content (lit ['<', 'b', 'r', '/', '>']) :=
  .empty (isName_lit ['b', 'r'] (by decide) (by decide)) .nil .nil

theorem printLine_utf8 (utf8 : page.utf8 = true) (option : Int32) (inSignature inQuote : Bool)
    (before : s < e) (inside : e ≤ text.length) :
    ∃ out, printLine page text s e option inSignature inQuote = some out ∧
      (LineShown text (s, e) → Content out) ∧ (¬LineShown text (s, e) → Spoilt out) := by
  obtain ⟨blank, blankEq, blankIff⟩ := isBlankLine_spec before inside
  obtain ⟨content, paragraph, clean, spoilt⟩ := printParagraphLoop_utf8 utf8
    (lineOption option inSignature inQuote) .plain before.le inside
    (by omega : e - s < text.length + 1)
  simp only [printLine, blankEq, printParagraph, paragraph, Option.bind_eq_bind,
    Option.bind_some]
  cases blank with
  | true =>
    have isBlank := blankIff.mp rfl
    exact ⟨_, rfl, fun _ => paragraph_content break_content,
      fun hidden => absurd (.inl isBlank) hidden⟩
  | false =>
    have notBlank : ¬BlankLine text s e := fun isBlank => by simpa using blankIff.mpr isBlank
    refine ⟨_, rfl, ?_, ?_⟩
    · rintro (isBlank | isClean)
      · exact absurd isBlank notBlank
      · exact paragraph_content (clean isClean)
    · intro hidden
      have spoiltContent := spoilt fun isClean => hidden (.inr isClean)
      simp only [spoilt_append, spoiltContent, or_true, true_or]

/-- The lines of the body that are printed; the line that begins the signature is not. -/
def shownLines (text : Bytes) (option : Int32) : Nat → Nat → Bool → List (Nat × Nat)
  | 0, _, _ => []
  | fuel + 1, s, inSignature =>
    if s = text.length then []
    else
      let line := lineEnd text s text.length
      if !inSignature && slice text s line = [45, 45, 10] then
        if option &&& parseNosig ≠ 0 then [] else shownLines text option fuel line true
      else (s, line) :: shownLines text option fuel line inSignature

theorem isSeparator_eq (inSignature : Bool) (before : s < e) (inside : e ≤ text.length) :
    isSeparator text s e inSignature =
      some (!inSignature && slice text s e = [45, 45, 10]) := by
  have length := length_slice (s := s) inside
  unfold isSeparator
  by_cases three : e = s + 3
  · cases inSignature with
    | true => simp
    | false =>
      rw [if_pos (by simp [three]), read_eq inside]
      simp only [Option.map_some, beq_eq_decide, Bool.not_false, Bool.true_and]
  · have different : slice text s e ≠ [45, 45, 10] := by
      intro same
      rw [same] at length
      simp at length
      omega
    simp [three, different]

/-- What has been printed since a part of the body was opened. -/
def BodyContinues (out : Output) : Prop :=
  ∃ inner tail, out ++ lit ['<', '/', 'p', 'a', '>'] =
    inner ++ lit ['<', '/', 'p', 'a', '>'] ++ tail ∧ Content inner ∧ Content tail

theorem bodyContinues_nil : BodyContinues [] :=
  ⟨[], [], rfl, .nil, .nil⟩

theorem BodyContinues.prepend {before out : Output} (isBefore : Content before)
    (continues : BodyContinues out) : BodyContinues (before ++ out) := by
  obtain ⟨inner, tail, parts, isInner, isTail⟩ := continues
  refine ⟨before ++ inner, tail, ?_, isBefore.append isInner, isTail⟩
  rw [List.append_assoc, parts, List.append_assoc, List.append_assoc, List.append_assoc]

/-- The mark of a part of the body. -/
def partAttributes (mark : Char) : Output :=
  lit [' '] ++ lit ['m'] ++ lit ['=', '\''] ++ lit [mark] ++ lit ['\''] ++ []

theorem part_content {mark : Char} (plain : isValue mark.toUInt8 = true) {out : Output}
    (continues : BodyContinues out) :
    Content (lit ['<', 'p', 'a', ' ', 'm', '=', '\'', mark, '\'', '>'] ++ out ++
      lit ['<', '/', 'p', 'a', '>']) := by
  obtain ⟨inner, tail, parts, isInner, isTail⟩ := continues
  have isMark : Value (lit [mark]) := .of_bytes (by simpa [lit] using plain)
  have isTag : Attributes (partAttributes mark) :=
    .cons (isName_lit ['m'] (by decide) (by decide)) isMark .nil
  have element := Content.element (isName_lit ['p', 'a'] (by decide) (by decide)) isTag
    isInner isTail
  rw [List.append_assoc, parts]
  simpa [partAttributes, lit] using element

/-- The end of one part and the begin of another. -/
theorem bodyContinues_switchTo {mark : Char} (plain : isValue mark.toUInt8 = true)
    {out : Output} (continues : BodyContinues out) : BodyContinues (switchTo mark ++ out) := by
  refine ⟨[], _, ?_, .nil, part_content plain continues⟩
  simp [switchTo, lit]

/-- The body is well-formed exactly if the lines that are printed are. -/
theorem printBodyLoop_utf8 (utf8 : page.utf8 = true) {fuel : Nat} (option : Int32)
    (inSignature inQuote : Bool) (order : s ≤ text.length) (enough : text.length - s < fuel) :
    ∃ out, printBodyLoop page text text.length option fuel s inSignature inQuote = some out ∧
      ((∀ line ∈ shownLines text option fuel s inSignature, LineShown text line) →
        BodyContinues out) ∧
      ((¬∀ line ∈ shownLines text option fuel s inSignature, LineShown text line) →
        Spoilt out) := by
  induction fuel generalizing s inSignature inQuote with
  | zero => omega
  | succ fuel ih =>
    rw [printBodyLoop, shownLines]
    by_cases ended : s = text.length
    · rw [if_pos ended, if_pos ended]
      exact ⟨[], rfl, fun _ => bodyContinues_nil, fun hidden => absurd (by simp) hidden⟩
    · have before : s < text.length := by omega
      have low : s < lineEnd text s text.length := lt_lineEnd before
      have high : lineEnd text s text.length ≤ text.length :=
        lineEnd_le order (Nat.le_refl _)
      rw [if_neg ended, if_neg ended, getLineEnd_eq order (Nat.le_refl _)]
      simp only [Option.bind_eq_bind, Option.bind_some,
        isSeparator_eq inSignature low high]
      by_cases separator : (!inSignature && decide (slice text s (lineEnd text s text.length) =
          [45, 45, 10])) = true
      · rw [if_pos separator, if_pos separator]
        by_cases cut : option &&& parseNosig ≠ 0
        · rw [if_pos cut, if_pos cut]
          exact ⟨[], rfl, fun _ => bodyContinues_nil, fun hidden => absurd (by simp) hidden⟩
        · obtain ⟨rest, restEq, clean, spoilt⟩ := ih true false high (by omega)
          rw [if_neg cut, if_neg cut, restEq]
          refine ⟨_, rfl, ?_, ?_⟩
          · intro shown
            rw [List.append_assoc]
            apply bodyContinues_switchTo (by decide)
            have dashes : Content (lit ['-', '-']) := .of_text (by decide)
            exact (clean shown).prepend (paragraph_content dashes)
          · intro hidden
            exact spoilt_append.mpr (.inr (spoilt hidden))
      · obtain ⟨quote, quoteEq⟩ := Option.isSome_iff_exists.mp
          (nowInQuote_isSome (s := s) inSignature inQuote high)
        obtain ⟨paragraph, paragraphEq, lineClean, lineSpoilt⟩ :=
          printLine_utf8 utf8 option inSignature quote low high
        obtain ⟨rest, restEq, clean, spoilt⟩ := ih inSignature quote high (by omega)
        rw [if_neg separator, if_neg separator, quoteEq]
        simp only [paragraphEq, restEq, Option.bind_some, List.forall_mem_cons]
        refine ⟨_, rfl, ?_, ?_⟩
        · rintro ⟨shown, others⟩
          have inner := (clean others).prepend (lineClean shown)
          rw [List.append_assoc]
          split
          · exact inner
          · split
            · exact bodyContinues_switchTo (by decide) inner
            · exact bodyContinues_switchTo (by decide) inner
        · intro hidden
          rw [spoilt_append, spoilt_append]
          by_cases shown : LineShown text (s, lineEnd text s text.length)
          · exact .inr (spoilt fun others => hidden ⟨shown, others⟩)
          · exact .inl (.inr (lineSpoilt shown))

end Body

section Header

variable {page : Page} {text : Bytes}

/-- The fields of a header that are copied from the post have no zero byte. -/
def FieldsClean (text : Bytes) (header : Header) : Prop :=
  (0 : UInt8) ∉ slice text header.ownerBegin header.ownerEnd ∧
    (0 : UInt8) ∉ slice text header.nickBegin header.nickEnd ∧
    (0 : UInt8) ∉ slice text header.boardBegin header.boardEnd ∧
    (0 : UInt8) ∉ slice text header.titleBegin header.titleEnd

instance decidableFieldsClean (text : Bytes) (header : Header) :
    Decidable (FieldsClean text header) :=
  inferInstanceAs (Decidable (_ ∧ _ ∧ _ ∧ _))

theorem printNode_utf8 (utf8 : page.utf8 = true) {name : List Char} {s e : Nat}
    (nonempty : name ≠ []) (letters : (name.all fun c => isLetter c.toUInt8) = true) (order : s ≤ e)
    (inside : e ≤ text.length) :
    ∃ out, printNode page text name s e = some out ∧
      ((0 : UInt8) ∉ slice text s e → Content out) ∧
      ((0 : UInt8) ∈ slice text s e → Spoilt out) := by
  rw [printNode, xmlEscape_eq page order inside, escaped_utf8 utf8]
  refine ⟨_, rfl, ?_, ?_⟩
  · intro clean
    have element := Content.single (isName_lit name nonempty letters) .nil
      (escaped_content clean)
    simpa [lit] using element
  · intro zero
    have spoilt := escaped_spoilt zero
    simp only [spoilt_append, spoilt, or_true, true_or]

theorem isText_of_isNumberByte {c : UInt8} (number : DecimalText.isNumberByte c = true) :
    isText c = true := by
  grind [DecimalText.isNumberByte, DecimalText.isDigit, isText, isControl]

/-- A printed time has no markup. -/
theorem formatTime_text (t : LocalTime) : ∀ c ∈ formatTime true t, isText c = true := by
  have year : ∀ c ∈ DecimalText.spacePadded 4 (t.year + 1900), isText c = true :=
    fun c inside => isText_of_isNumberByte (DecimalText.isNumberByte_of_mem_spacePadded inside)
  have padded : ∀ value, ∀ c ∈ DecimalText.zeroPadded 2 value, isText c = true :=
    fun value c inside => isText_of_isNumberByte (DecimalText.isNumberByte_of_mem_zeroPadded inside)
  have weekday : ∀ day : Fin 7, ∀ c ∈ utf8Weeknum.get day, isText c = true := by
    decide +kernel
  intro c member
  refine (?_ : ∀ c ∈ _, isText c = true) c (List.mem_of_mem_take member)
  simp only [if_true, List.forall_mem_append]
  and_intros
  · exact year
  · decide +kernel
  · exact padded _
  · decide +kernel
  · exact padded _
  · decide +kernel
  · exact padded _
  · decide +kernel
  · exact padded _
  · decide +kernel
  · exact padded _
  · decide +kernel
  · decide +kernel
  · exact weekday t.wday

theorem element_content {name : List Char} (nonempty : name ≠ [])
    (letters : (name.all fun c => isLetter c.toUInt8) = true) {content : Output}
    (isContent : Content content) :
    Content (lit (['<'] ++ name ++ ['>']) ++ content ++ lit (['<', '/'] ++ name ++ ['>'])) := by
  have element := Content.single (isName_lit name nonempty letters) .nil isContent
  simpa [lit] using element

/-- The header is well-formed exactly if its fields have no zero byte. -/
theorem printFields_utf8 (utf8 : page.utf8 = true) {header : Header}
    (parsed : parseHeader page text = some (some header))
    (printable : (printFields page text header).isSome = true) :
    ∃ out, printFields page text header = some out ∧
      (FieldsClean text header → Content out) ∧ (¬FieldsClean text header → Spoilt out) := by
  obtain ⟨ownerInside, nickInside, boardInside, titleInside, -, -⟩ :=
    parseHeader_inside page parsed
  obtain ⟨ownerOrder, nickOrder, boardOrder, titleOrder⟩ := (printFields_isSome_iff page
    ownerInside nickInside boardInside titleInside).mp printable
  obtain ⟨owner, ownerEq, ownerClean, ownerSpoilt⟩ := printNode_utf8 utf8
    (by decide : ['o', 'w', 'n', 'e', 'r'] ≠ []) (by decide) ownerOrder ownerInside
  obtain ⟨nick, nickEq, nickClean, nickSpoilt⟩ := printNode_utf8 utf8
    (by decide : ['n', 'i', 'c', 'k'] ≠ []) (by decide) nickOrder nickInside
  obtain ⟨board, boardEq, boardClean, boardSpoilt⟩ := printNode_utf8 utf8
    (by decide : ['b', 'o', 'a', 'r', 'd'] ≠ []) (by decide) boardOrder boardInside
  obtain ⟨title, final, titleEq, titleClean, titleSpoilt⟩ :=
    printAnsiText_utf8 utf8 .plain titleOrder titleInside
  have date : Content ((formatTime page.utf8 (page.localtime header.date)).map
      fun c => (⟨c, false⟩ : Printed)) := by
    apply Content.of_text
    rw [List.forall_mem_map, utf8]
    exact formatTime_text _
  simp only [printFields, ownerEq, nickEq, boardEq, titleEq, Option.bind_eq_bind,
    Option.bind_some]
  refine ⟨_, rfl, ?_, ?_⟩
  · rintro ⟨cleanOwner, cleanNick, cleanBoard, cleanTitle⟩
    have fields := ((ownerClean cleanOwner).append (nickClean cleanNick)).append
      (boardClean cleanBoard)
    have titleElement := element_content (by decide : ['t', 'i', 't', 'l', 'e'] ≠ [])
      (by decide) (titleClean cleanTitle)
    have dateElement := element_content (by decide : ['d', 'a', 't', 'e'] ≠ [])
      (by decide) date
    have whole := (fields.append titleElement).append dateElement
    simpa only [List.append_assoc, List.cons_append, List.nil_append] using whole
  · intro unclean
    simp only [spoilt_append]
    by_cases zeroOwner : (0 : UInt8) ∈ slice text header.ownerBegin header.ownerEnd
    · simp only [ownerSpoilt zeroOwner, true_or]
    · by_cases zeroNick : (0 : UInt8) ∈ slice text header.nickBegin header.nickEnd
      · simp only [nickSpoilt zeroNick, true_or, or_true]
      · by_cases zeroBoard : (0 : UInt8) ∈ slice text header.boardBegin header.boardEnd
        · simp only [boardSpoilt zeroBoard, true_or, or_true]
        · have zeroTitle : (0 : UInt8) ∈ slice text header.titleBegin header.titleEnd := by
            by_contra absent
            exact unclean ⟨zeroOwner, zeroNick, zeroBoard, absent⟩
          simp only [titleSpoilt zeroTitle, true_or, or_true]

end Header

/-- Where `xml_print_post` begins to print the body. -/
def bodyStart (page : Page) (text : Bytes) : Nat :=
  match parseHeader page text with
  | some (some header) => header.lineEnd + 1
  | _ => 0

/-- What is copied from the post has no zero byte, and no address of fewer than eleven
bytes in it has an `&`. -/
structure Presentable (page : Page) (text : Bytes) (option : Int32) : Prop where
  fields : ∀ header, parseHeader page text = some (some header) → FieldsClean text header
  lines : ∀ line ∈ shownLines text option (text.length + 1) (bodyStart page text) false,
    LineShown text line

theorem printBody_utf8 {page : Page} (utf8 : page.utf8 = true) {text : Bytes} {s : Nat}
    (option : Int32) (order : s ≤ text.length) :
    ∃ out, printBody page text s text.length option = some out ∧
      ((∀ line ∈ shownLines text option (text.length + 1) s false, LineShown text line) →
        Content out) ∧
      ((¬∀ line ∈ shownLines text option (text.length + 1) s false, LineShown text line) →
        Spoilt out) := by
  obtain ⟨out, printed, clean, spoilt⟩ := printBodyLoop_utf8 utf8 option false false order
    (by omega : text.length - s < text.length + 1)
  rw [printBody, printed]
  refine ⟨_, rfl, fun shown => part_content (by decide) (clean shown), ?_⟩
  intro hidden
  simp only [spoilt_append, spoilt hidden, or_true, true_or]

/-- A post with a complete header is printed well-formed or spoilt. -/
theorem xmlPrintPost_utf8 (page : Page) (utf8 : page.utf8 = true) {text : Bytes}
    (option : Int32) (complete : StaysInside page text) :
    ∃ out, xmlPrintPost page text option = some out ∧
      (Presentable page text option → Content out) ∧
      (¬Presentable page text option → Spoilt out) := by
  have printable := (isSome_iff_staysInside page text option).mpr complete
  cases parsed : parseHeader page text with
  | none => exact absurd printable (isSome_of_fault page option parsed)
  | some result =>
    cases result with
    | none =>
      have start : bodyStart page text = 0 := by simp only [bodyStart, parsed]
      obtain ⟨body, bodyEq, bodyClean, bodySpoilt⟩ :=
        printBody_utf8 utf8 option (Nat.zero_le text.length)
      refine ⟨body, ?_, ?_, ?_⟩
      · simp [xmlPrintPost, printHeader, parsed, bodyEq]
      · rintro ⟨-, lines⟩
        rw [start] at lines
        exact bodyClean lines
      · intro hidden
        apply bodySpoilt
        intro lines
        refine hidden ⟨?_, ?_⟩
        · intro header recognised
          rw [parsed] at recognised
          cases recognised
        · rw [start]
          exact lines
    | some header =>
      obtain ⟨-, -, -, -, positive, inside⟩ := parseHeader_inside page parsed
      obtain ⟨fieldsPrintable, followed⟩ :=
        (isSome_of_header page option parsed positive inside).mp printable
      have start : bodyStart page text = header.lineEnd + 1 := by
        simp only [bodyStart, parsed]
      obtain ⟨fields, fieldsEq, fieldsClean, fieldsSpoilt⟩ :=
        printFields_utf8 utf8 parsed fieldsPrintable
      obtain ⟨body, bodyEq, bodyClean, bodySpoilt⟩ :=
        printBody_utf8 utf8 option followed
      refine ⟨fields ++ body, ?_, ?_, ?_⟩
      · have nonzero : header.lineEnd ≠ 0 := by omega
        simp [xmlPrintPost, printHeader, parsed, fieldsEq, nonzero, bodyEq]
      · rintro ⟨cleanFields, lines⟩
        rw [start] at lines
        exact (fieldsClean (cleanFields header parsed)).append (bodyClean lines)
      · intro hidden
        rw [spoilt_append]
        by_cases cleanFields : FieldsClean text header
        · right
          apply bodySpoilt
          intro lines
          refine hidden ⟨?_, ?_⟩
          · intro other recognised
            rw [parsed, Option.some.injEq, Option.some.injEq] at recognised
            rw [← recognised]
            exact cleanFields
          · rw [start]
            exact lines
        · exact .inl (fieldsSpoilt cleanFields)

/-- In UTF-8 a post with a complete header is printed as well-formed content exactly if it
is presentable. -/
theorem xmlPrintPost_content_iff (page : Page) (utf8 : page.utf8 = true) (text : Bytes)
    (option : Int32) (complete : StaysInside page text) :
    (∃ out, xmlPrintPost page text option = some out ∧ Content out) ↔
      Presentable page text option := by
  obtain ⟨out, printed, clean, spoilt⟩ := xmlPrintPost_utf8 page utf8 option complete
  constructor
  · rintro ⟨other, otherEq, isContent⟩
    by_contra hidden
    rw [printed, Option.some.injEq] at otherEq
    rw [← otherEq] at isContent
    exact isContent.not_spoilt (spoilt hidden)
  · intro presentable
    exact ⟨out, printed, clean presentable⟩

theorem staysInside_of_no_mark {page : Page} {text : Bytes} (absent : nickMark text = none) :
    StaysInside page text := by
  intro nickEnd found
  rw [absent] at found
  cases found

/-- A post with its header, an address with an `&` and a signature. -/
def signedPost : Bytes :=
  senderString ++ [117, 32, 40, 110, 41, 44, 58, 32, 98, 10] ++ topicString ++ [116, 10] ++
    [40, 50, 48, 50, 52, 0xe5, 0xb9, 0xb4, 48, 49, 0xe6, 0x9c, 0x88, 48, 49, 0xe6, 0x97, 0xa5,
      48, 49, 58, 48, 49, 58, 48, 49, 41, 10] ++
    [10] ++ httpString ++ [97, 46, 98, 47, 120, 38, 121, 10] ++ [45, 45, 10] ++ [115, 10]

theorem signedPost_staysInside : StaysInside samplePage signedPost := by
  intro nickEnd found
  have mark : nickMark signedPost = some 15 := by decide +kernel
  obtain rfl := Option.some.inj (found.symm.trans mark)
  refine ⟨17, by decide +kernel, fun _ _ => ⟨fun b date => ?_, fun _ => by decide +kernel⟩⟩
  have bracket : dateMark signedPost 33 61 = some 33 := by decide +kernel
  obtain rfl := Option.some.inj (date.symm.trans bracket)
  unfold DateEnds
  decide +kernel

theorem signedPost_parsed :
    parseHeader samplePage signedPost =
      some (some ⟨11, 12, 14, 15, 19, 20, 31, 32, 1, 61⟩) := by
  decide +kernel

theorem xmlPrintPost_content_signedPost :
    ∃ out, xmlPrintPost samplePage signedPost 0 = some out ∧ Content out := by
  apply (xmlPrintPost_content_iff samplePage rfl signedPost 0 signedPost_staysInside).mpr
  constructor
  · intro header recognised
    rw [signedPost_parsed, Option.some.injEq, Option.some.injEq] at recognised
    rw [← recognised]
    decide +kernel
  · simp only [bodyStart, signedPost_parsed]
    decide +kernel

/-- An address of ten bytes with an `&` in it. -/
def shortAddress : Bytes :=
  httpString ++ [97, 38, 98, 10]

/-- The `&` of a short address is printed as it is. -/
theorem shortAddress_unescaped :
    samplePage.utf8 = true ∧ StaysInside samplePage shortAddress ∧
      ¬∃ out, xmlPrintPost samplePage shortAddress 0 = some out ∧ Content out := by
  have mark : nickMark shortAddress = none := by decide
  have inside : StaysInside samplePage shortAddress := staysInside_of_no_mark mark
  refine ⟨rfl, inside, ?_⟩
  rintro ⟨other, otherEq, isContent⟩
  obtain ⟨out, printed, -, spoilt⟩ := xmlPrintPost_utf8 samplePage rfl 0 inside
  rw [printed, Option.some.injEq] at otherEq
  rw [← otherEq] at isContent
  apply isContent.not_spoilt
  apply spoilt
  rintro ⟨-, lines⟩
  have lineList : shownLines shortAddress 0 (shortAddress.length + 1) 0 false = [(0, 11)] := by
    decide
  have start : bodyStart samplePage shortAddress = 0 := by
    simp only [bodyStart, parseHeader_of_no_mark samplePage mark]
  rw [start, lineList] at lines
  rcases lines (0, 11) List.mem_cons_self with blank | clean
  · rcases blank with single | double
    · exact absurd single (by decide)
    · exact absurd double.1 (by decide)
  · have address : urls shortAddress 11 (shortAddress.length + 1) 0 =
        [httpString ++ [97, 38, 98]] := by decide
    have short := clean.2
    simp only [address, List.forall_mem_cons] at short
    exact short.1 (by decide) (by decide)

end PostMarkup

end Fbbs
