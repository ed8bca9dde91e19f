import Mathlib.Data.List.Basic

/-!
# Markup whose bytes have an origin

The output of a program that prints markup around bytes of its input.  Each byte knows
whether it is copied from the input.  Well-formed content is text with references and
balanced elements; tags, references and quotes are the program's own bytes.
-/

namespace TaggedMarkup

/-- A byte of the output, and whether it is copied from the input. -/
structure Printed where
  byte : UInt8
  copied : Bool
  deriving DecidableEq

abbrev Output := List Printed

/-- A string of the program. -/
def lit (chars : List Char) : Output :=
  chars.map fun c => ⟨c.toUInt8, false⟩

/-- Bytes of the input. -/
def raw (bytes : List UInt8) : Output :=
  bytes.map fun c => ⟨c, true⟩

/-- A control character other than the tab. -/
def isControl (c : UInt8) : Bool :=
  c < 32 && c != 9

/-- A byte that stands for itself in text. -/
def isText (c : UInt8) : Bool :=
  !isControl c && c != 60 && c != 62 && c != 38

/-- A byte that stands for itself in the value of an attribute. -/
def isValue (c : UInt8) : Bool :=
  isText c && c != 39 && c != 34

def isLetter (c : UInt8) : Bool :=
  (97 ≤ c && c ≤ 122) || (65 ≤ c && c ≤ 90)

def IsName (name : Output) : Prop :=
  name ≠ [] ∧ ∀ c ∈ name, c.copied = false ∧ isLetter c.byte = true

/-- A reference to a character, by its name or by its number. -/
inductive Reference : Output → Prop
  | named {name : Output} (isName : IsName name) :
      Reference (lit ['&'] ++ name ++ lit [';'])
  | numbered {digits : Output} (nonempty : digits ≠ [])
      (isNumber : ∀ c ∈ digits, c.copied = false ∧ 48 ≤ c.byte ∧ c.byte ≤ 57) :
      Reference (lit ['&', '#'] ++ digits ++ lit [';'])

inductive Value : Output → Prop
  | nil : Value []
  | byte {c : Printed} {rest : Output} (plain : isValue c.byte = true) (more : Value rest) :
      Value (c :: rest)
  | reference {name rest : Output} (isReference : Reference name) (more : Value rest) :
      Value (name ++ rest)

inductive Attributes : Output → Prop
  | nil : Attributes []
  | cons {name value rest : Output} (isName : IsName name) (isValue : Value value)
      (more : Attributes rest) :
      Attributes (lit [' '] ++ name ++ lit ['=', '\''] ++ value ++ lit ['\''] ++ rest)

/-- Text, references and balanced elements. -/
inductive Content : Output → Prop
  | nil : Content []
  | byte {c : Printed} {rest : Output} (plain : isText c.byte = true) (more : Content rest) :
      Content (c :: rest)
  | reference {name rest : Output} (isReference : Reference name) (more : Content rest) :
      Content (name ++ rest)
  | element {name attributes body rest : Output} (isName : IsName name)
      (isTag : Attributes attributes) (inner : Content body) (more : Content rest) :
      Content (lit ['<'] ++ name ++ attributes ++ lit ['>'] ++ body ++
        (lit ['<', '/'] ++ name ++ lit ['>']) ++ rest)
  | empty {name attributes rest : Output} (isName : IsName name)
      (isTag : Attributes attributes) (more : Content rest) :
      Content (lit ['<'] ++ name ++ attributes ++ lit ['/', '>'] ++ rest)

/-- A control character, or a byte of the input that should have been escaped. -/
def Bad (c : Printed) : Prop :=
  isControl c.byte = true ∨ c.copied = true ∧ isText c.byte = false

theorem not_bad_of_text {c : Printed} (plain : isText c.byte = true) : ¬Bad c := by
  rintro (control | ⟨-, special⟩)
  · simp [isText, control] at plain
  · rw [plain] at special
    cases special

theorem isText_of_isLetter {c : UInt8} (letter : isLetter c = true) : isText c = true := by
  grind [isText, isLetter, isControl]

theorem not_bad_of_own {c : Printed} (own : c.copied = false)
    (visible : isControl c.byte = false) : ¬Bad c := by
  rintro (control | ⟨copied, -⟩)
  · rw [visible] at control
    cases control
  · rw [own] at copied
    cases copied

theorem not_bad_of_lit {chars : List Char}
    (visible : (chars.all fun c => !isControl c.toUInt8) = true) : ∀ c ∈ lit chars, ¬Bad c := by
  intro c member
  obtain ⟨char, inside, rfl⟩ := List.mem_map.mp member
  have shown := List.all_eq_true.mp visible char inside
  exact not_bad_of_own rfl (by simpa using shown)

theorem IsName.not_bad {name : Output} (isName : IsName name) : ∀ c ∈ name, ¬Bad c :=
  fun c member => not_bad_of_text (isText_of_isLetter (isName.2 c member).2)

theorem Reference.not_bad {name : Output} (isReference : Reference name) :
    ∀ c ∈ name, ¬Bad c := by
  cases isReference with
  | named isName =>
    simp only [List.forall_mem_append]
    exact ⟨⟨not_bad_of_lit (by decide), isName.not_bad⟩,
      not_bad_of_lit (by decide)⟩
  | numbered nonempty isNumber =>
    simp only [List.forall_mem_append]
    refine ⟨⟨not_bad_of_lit (by decide), ?_⟩, not_bad_of_lit (by decide)⟩
    intro c member
    obtain ⟨own, low, high⟩ := isNumber c member
    apply not_bad_of_own own
    have large : ¬c.byte < 32 := by
      rw [UInt8.not_lt]
      exact UInt8.le_trans (by decide) low
    simp [isControl, large]

theorem Value.not_bad {value : Output} (isValue : Value value) : ∀ c ∈ value, ¬Bad c := by
  induction isValue with
  | nil => simp
  | byte plain more ih =>
    rw [List.forall_mem_cons]
    refine ⟨not_bad_of_text ?_, ih⟩
    rw [TaggedMarkup.isValue, Bool.and_eq_true, Bool.and_eq_true] at plain
    exact plain.1.1
  | reference isReference more ih =>
    rw [List.forall_mem_append]
    exact ⟨isReference.not_bad, ih⟩

theorem Attributes.not_bad {attributes : Output} (isTag : Attributes attributes) :
    ∀ c ∈ attributes, ¬Bad c := by
  induction isTag with
  | nil => simp
  | cons isName isValue more ih =>
    simp only [List.forall_mem_append]
    exact ⟨⟨⟨⟨⟨not_bad_of_lit (by decide), isName.not_bad⟩,
      not_bad_of_lit (by decide)⟩, isValue.not_bad⟩, not_bad_of_lit (by decide)⟩, ih⟩

/-- Well-formed content has no control character, and what it copies is plain. -/
theorem Content.not_bad {content : Output} (isContent : Content content) :
    ∀ c ∈ content, ¬Bad c := by
  induction isContent with
  | nil => simp
  | byte plain more ih => exact List.forall_mem_cons.mpr ⟨not_bad_of_text plain, ih⟩
  | reference isReference more ih =>
    rw [List.forall_mem_append]
    exact ⟨isReference.not_bad, ih⟩
  | element isName isTag inner more innerIh moreIh =>
    simp only [List.forall_mem_append]
    exact ⟨⟨⟨⟨⟨⟨not_bad_of_lit (by decide), isName.not_bad⟩, isTag.not_bad⟩,
      not_bad_of_lit (by decide)⟩, innerIh⟩,
      ⟨not_bad_of_lit (by decide), isName.not_bad⟩,
      not_bad_of_lit (by decide)⟩, moreIh⟩
  | empty isName isTag more ih =>
    simp only [List.forall_mem_append]
    exact ⟨⟨⟨⟨not_bad_of_lit (by decide), isName.not_bad⟩, isTag.not_bad⟩,
      not_bad_of_lit (by decide)⟩, ih⟩

/-- A byte that is not to be printed has been printed. -/
def Spoilt (out : Output) : Prop :=
  ∃ c ∈ out, Bad c

theorem Content.not_spoilt {out : Output} (isContent : Content out) : ¬Spoilt out := by
  rintro ⟨c, member, bad⟩
  exact isContent.not_bad c member bad

theorem spoilt_append {first second : Output} :
    Spoilt (first ++ second) ↔ Spoilt first ∨ Spoilt second := by
  simp only [Spoilt, List.mem_append, or_and_right, exists_or]

theorem Content.append {first second : Output} (isFirst : Content first)
    (isSecond : Content second) : Content (first ++ second) := by
  induction isFirst with
  | nil => exact isSecond
  | byte plain more ih => exact .byte plain ih
  | reference isReference more ih =>
    rw [List.append_assoc]
    exact .reference isReference ih
  | element isName isTag inner more innerIh moreIh =>
    rw [List.append_assoc]
    exact .element isName isTag inner moreIh
  | empty isName isTag more ih =>
    rw [List.append_assoc]
    exact .empty isName isTag ih

theorem Value.append {first second : Output} (isFirst : Value first) (isSecond : Value second) :
    Value (first ++ second) := by
  induction isFirst with
  | nil => exact isSecond
  | byte plain more ih => exact .byte plain ih
  | reference isReference more ih =>
    rw [List.append_assoc]
    exact .reference isReference ih

/-- An element without anything behind it. -/
theorem Content.single {name attributes body : Output} (isName : IsName name)
    (isTag : Attributes attributes) (inner : Content body) :
    Content (lit ['<'] ++ name ++ attributes ++ lit ['>'] ++ body ++
      (lit ['<', '/'] ++ name ++ lit ['>'])) := by
  have whole := Content.element isName isTag inner .nil
  rwa [List.append_nil] at whole

theorem Content.of_text {text : Output} (plain : ∀ c ∈ text, isText c.byte = true) :
    Content text := by
  induction text with
  | nil => exact .nil
  | cons c text ih =>
    obtain ⟨first, rest⟩ := List.forall_mem_cons.mp plain
    exact .byte first (ih rest)

theorem Value.of_bytes {value : Output} (plain : ∀ c ∈ value, isValue c.byte = true) :
    Value value := by
  induction value with
  | nil => exact .nil
  | cons c value ih =>
    obtain ⟨first, rest⟩ := List.forall_mem_cons.mp plain
    exact .byte first (ih rest)

theorem isName_lit (chars : List Char) (nonempty : chars ≠ [])
    (letters : (chars.all fun c => isLetter c.toUInt8) = true) : IsName (lit chars) := by
  constructor
  · simpa [lit] using nonempty
  · intro c member
    obtain ⟨char, inside, rfl⟩ := List.mem_map.mp member
    exact ⟨rfl, List.all_eq_true.mp letters char inside⟩

theorem reference_lit (chars : List Char) (nonempty : chars ≠ [])
    (letters : (chars.all fun c => isLetter c.toUInt8) = true) :
    Reference (lit ['&'] ++ lit chars ++ lit [';']) :=
  .named (isName_lit chars nonempty letters)

end TaggedMarkup
