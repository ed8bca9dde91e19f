import Fbbs.ApiTrees
import Fbbs.XmlPrinted

/-!
# Trees as XML

The content that a tree stands for, and the trees that are read back from their dump.
The dump prints names, numbers and strings as they are, without the control characters
of strings, so a tree is read back only if none of its strings has markup.
-/

namespace Fbbs

namespace ApiTree

open XmlText

/-! ## Content -/

/-- The bytes of a value; a string loses the control characters that XML does not allow. -/
def AttrValue.xmlBytes : AttrValue → Bytes
  | .integer value => DecimalText.ofInt value.toInt
  | .bigint value => DecimalText.ofInt value.toInt
  | .boolean value => if value then lit ['1'] else []
  | .string value _ => printXmlString (nameBytes value)

/-- The attributes of an element; a false boolean is none of them. -/
def xmlAttributes : List Attr → List (Bytes × Bytes)
  | [] => []
  | attr :: attrs =>
    if attr.asNode || attr.value = .boolean false then xmlAttributes attrs
    else (nameBytes attr.name, attr.value.xmlBytes) :: xmlAttributes attrs

/-- An attribute that is a node is an element with text, or text. -/
def attrContent (attr : Attr) : Content :=
  match attr.name with
  | none => .text attr.value.xmlBytes
  | some name => .element [] name.bytes [] (.text attr.value.xmlBytes) (.text [])

def attrsContent : List Attr → Content
  | [] => .text []
  | attr :: attrs =>
    if attr.asNode then (attrContent attr).append (attrsContent attrs) else attrsContent attrs

mutual

/-- The content of a tree; an anonymous node is its children. -/
def Node.content : Node → Content
  | .mk type name attrs children =>
    if type.anonymous then childrenContent children
    else .element [] (nameBytes name) (xmlAttributes attrs)
      ((attrsContent attrs).append (childrenContent children)) (.text [])

def childrenContent : List Node → Content
  | [] => .text []
  | child :: children => child.content.append (childrenContent children)

end

/-! ## Names and strings -/

def IsXmlName (name : Option CString) : Prop :=
  ∃ s, name = some s ∧ isName s.bytes = true

/-- The attribute has the name of an attribute or an element, or it is a node without a
name; its string is there. -/
def Attr.Valid (attr : Attr) : Prop :=
  (IsXmlName attr.name ∨ attr.asNode = true ∧ attr.name = none) ∧
    ∀ value asNode, attr.value = .string value asNode → value ≠ none

mutual

/-- The names of a tree are names of XML, and no string is a null pointer. -/
def Node.Valid : Node → Prop
  | .mk type name attrs children =>
    (type.anonymous = false → IsXmlName name) ∧ (∀ attr ∈ attrs, attr.Valid) ∧ AllValid children

def AllValid : List Node → Prop
  | [] => True
  | child :: children => child.Valid ∧ AllValid children

end

/-! ## The dump prints the content -/

section Dump

variable (convert : Bytes → Bytes)

theorem xmlAttrPrintValue_eq {attr : Attr} (valid : attr.Valid) :
    xmlAttrPrintValue convert .utf8 attr.value = some attr.value.xmlBytes := by
  obtain ⟨name, value⟩ := attr
  cases value with
  | string value asNode =>
    obtain ⟨s, rfl⟩ := Option.ne_none_iff_exists'.mp (valid.2 value asNode rfl)
    rfl
  | integer value => rfl
  | bigint value => rfl
  | boolean value => rfl

theorem exists_name {attr : Attr} (valid : attr.Valid) (inTag : attr.asNode = false) :
    IsXmlName attr.name := by
  rcases valid.1 with isName | ⟨asNode, -⟩
  · exact isName
  · rw [inTag] at asNode
    cases asNode

/-- A false boolean is not printed; any other attribute is. -/
theorem xmlAttrPrint_cases {attr : Attr} (valid : attr.Valid) (inTag : attr.asNode = false) :
    attr.value = .boolean false ∧ xmlAttrPrint convert .utf8 attr = some [] ∨
      attr.value ≠ .boolean false ∧ xmlAttrPrint convert .utf8 attr =
        some (attributeText (nameBytes attr.name, attr.value.xmlBytes)) := by
  obtain ⟨name, found, -⟩ := exists_name valid inTag
  have value := xmlAttrPrintValue_eq convert valid
  by_cases absent : attr.value = .boolean false
  · left
    refine ⟨absent, ?_⟩
    rw [xmlAttrPrint, absent]
  · right
    refine ⟨absent, ?_⟩
    have printed : xmlAttrPrint convert .utf8 attr =
        some (lit [' '] ++ name.bytes ++ lit ['=', '\''] ++ attr.value.xmlBytes ++ lit ['\'']) := by
      unfold xmlAttrPrint
      split
      · contradiction
      · rw [found, value]
        rfl
    rw [printed, found]
    simp only [attributeText, nameBytes, List.append_assoc]
    rfl

theorem xmlPrintAttrs_eq {attrs : List Attr} (valid : ∀ attr ∈ attrs, attr.Valid) :
    xmlPrintAttrs convert .utf8 attrs = some ((xmlAttributes attrs).flatMap attributeText) := by
  induction attrs with
  | nil => rfl
  | cons attr attrs ih =>
    obtain ⟨attrValid, others⟩ := List.forall_mem_cons.mp valid
    rw [xmlPrintAttrs, ih others, xmlAttributes]
    by_cases asNode : attr.asNode = true
    · rw [if_pos asNode, asNode, Bool.true_or, if_pos rfl]
      rfl
    · have inTag := Bool.eq_false_iff.mpr asNode
      rw [if_neg asNode, inTag, Bool.false_or]
      rcases xmlAttrPrint_cases convert attrValid inTag with
        ⟨absent, printed⟩ | ⟨present, printed⟩
      · rw [if_pos (by simpa using absent), printed]
        rfl
      · rw [if_neg (by simpa using present), printed]
        rfl

theorem xmlPrintAttrNode_printed {attr : Attr} (valid : attr.Valid) :
    ∃ text, xmlPrintAttrNode convert .utf8 attr = some text ∧ Printed (attrContent attr) text := by
  rw [xmlPrintAttrNode, xmlAttrPrintValue_eq convert valid, attrContent]
  cases attr.name with
  | none => exact ⟨_, rfl, .text _⟩
  | some name =>
    refine ⟨_, rfl, ?_⟩
    have printed : Printed (.element [] name.bytes [] (.text attr.value.xmlBytes) (.text [])) _ :=
      .element (.text attr.value.xmlBytes) (.text [])
    have same : lit ['<'] ++ name.bytes ++ lit ['>'] ++ attr.value.xmlBytes ++
        (lit ['<', '/'] ++ name.bytes ++ lit ['>']) =
        startTag name.bytes [] ++ 62 :: (attr.value.xmlBytes ++ (endTag name.bytes ++ [])) := by
      simp only [startTag, endTag, List.append_assoc, List.flatMap_nil, List.append_nil]
      rfl
    rw [same]
    exact printed

theorem xmlPrintAttrNodes_printed {attrs : List Attr} (valid : ∀ attr ∈ attrs, attr.Valid) :
    ∃ text, xmlPrintAttrNodes convert .utf8 attrs = some text ∧
      Printed (attrsContent attrs) text := by
  induction attrs with
  | nil => exact ⟨[], rfl, .text []⟩
  | cons attr attrs ih =>
    obtain ⟨attrValid, others⟩ := List.forall_mem_cons.mp valid
    obtain ⟨more, printMore, isMore⟩ := ih others
    rw [xmlPrintAttrNodes, printMore, attrsContent]
    by_cases asNode : attr.asNode = true
    · obtain ⟨first, printFirst, isFirst⟩ := xmlPrintAttrNode_printed convert attrValid
      rw [if_pos asNode, if_pos asNode, printFirst]
      exact ⟨first ++ more, rfl, isFirst.append isMore⟩
    · rw [if_neg asNode, if_neg asNode]
      exact ⟨more, rfl, isMore⟩

/-- A node without attributes to print as nodes and without children has no content. -/
theorem attrsContent_of_not_any {attrs : List Attr} (none : attrs.any Attr.asNode = false) :
    attrsContent attrs = .text [] := by
  induction attrs with
  | nil => rfl
  | cons attr attrs ih =>
    rw [List.any_cons, Bool.or_eq_false_iff] at none
    rw [attrsContent, none.1, if_neg Bool.false_ne_true, ih none.2]

mutual

theorem printAsXml_printed : ∀ (node : Node), node.Valid →
    ∃ text, printAsXml convert .utf8 node = some text ∧ Printed node.content text
  | .mk type name attrs children, valid => by
    obtain ⟨isName, attrsValid, childrenValid⟩ := valid
    obtain ⟨inner, printInner, isInner⟩ := printAllAsXml_printed children childrenValid
    rw [printAsXml, Node.content]
    by_cases anonymous : type.anonymous = true
    · rw [if_pos anonymous, if_pos anonymous]
      exact ⟨inner, printInner, isInner⟩
    · rw [if_neg anonymous, if_neg anonymous]
      obtain ⟨name, rfl, -⟩ := isName (Bool.eq_false_iff.mpr anonymous)
      rw [xmlPrintAttrs_eq convert attrsValid, Option.bind_eq_bind, Option.bind_some,
        Option.bind_eq_bind, Option.bind_some]
      split
      · rename_i childless
        rw [Bool.and_eq_true, Bool.not_eq_true', List.isEmpty_iff] at childless
        obtain ⟨noNodes, rfl⟩ := childless
        refine ⟨_, rfl, ?_⟩
        rw [attrsContent_of_not_any noNodes]
        have printed :
            Printed (.element [] name.bytes (xmlAttributes attrs) (.text []) (.text [])) _ :=
          .empty (.text [])
        have same : lit ['<'] ++ name.bytes ++ (xmlAttributes attrs).flatMap attributeText ++
            lit ['/', '>'] = startTag name.bytes (xmlAttributes attrs) ++ [47, 62] := rfl
        rw [same]
        exact printed
      · obtain ⟨nodes, printNodes, isNodes⟩ := xmlPrintAttrNodes_printed convert attrsValid
        rw [printNodes, printInner]
        refine ⟨_, rfl, ?_⟩
        have printed : Printed (.element [] name.bytes (xmlAttributes attrs)
            ((attrsContent attrs).append (childrenContent children)) (.text [])) _ :=
          .element (isNodes.append isInner) (.text [])
        have same : lit ['<'] ++ name.bytes ++ (xmlAttributes attrs).flatMap attributeText ++
            lit ['>'] ++ (nodes ++ inner) ++ (lit ['<', '/'] ++ name.bytes ++ lit ['>']) =
            startTag name.bytes (xmlAttributes attrs) ++
              62 :: (nodes ++ inner ++ (endTag name.bytes ++ [])) := by
          simp only [startTag, endTag, List.append_assoc, List.append_nil, List.cons_append]
          rfl
        rw [same]
        exact printed

theorem printAllAsXml_printed : ∀ (children : List Node), AllValid children →
    ∃ text, printAllAsXml convert .utf8 children = some text ∧
      Printed (childrenContent children) text
  | [], _ => ⟨[], rfl, .text []⟩
  | child :: children, valid => by
    obtain ⟨first, printFirst, isFirst⟩ := printAsXml_printed child valid.1
    obtain ⟨more, printMore, isMore⟩ := printAllAsXml_printed children valid.2
    rw [printAllAsXml, printFirst, printMore]
    exact ⟨first ++ more, rfl, isFirst.append isMore⟩

end

end Dump

/-! ## Names of the content -/

theorem isName_nameBytes {name : Option CString} (valid : IsXmlName name) :
    isName (nameBytes name) = true := by
  obtain ⟨s, rfl, isName⟩ := valid
  exact isName

theorem isName_xmlAttributes {attrs : List Attr} (valid : ∀ attr ∈ attrs, attr.Valid) :
    ∀ named ∈ xmlAttributes attrs, isName named.1 = true := by
  induction attrs with
  | nil => simp [xmlAttributes]
  | cons attr attrs ih =>
    obtain ⟨attrValid, others⟩ := List.forall_mem_cons.mp valid
    rw [xmlAttributes]
    split
    · exact ih others
    · rename_i printed
      simp only [Bool.or_eq_true, not_or, Bool.not_eq_true] at printed
      exact List.forall_mem_cons.mpr
        ⟨isName_nameBytes (exists_name attrValid printed.1), ih others⟩

theorem attrsContent_named {attrs : List Attr} (valid : ∀ attr ∈ attrs, attr.Valid) :
    (attrsContent attrs).Named := by
  induction attrs with
  | nil => trivial
  | cons attr attrs ih =>
    obtain ⟨attrValid, others⟩ := List.forall_mem_cons.mp valid
    rw [attrsContent]
    split
    · refine Content.Named.append ?_ (ih others)
      unfold attrContent
      split
      · trivial
      · rename_i name found
        rcases attrValid.1 with ⟨s, same, isName⟩ | ⟨-, unnamed⟩
        · obtain rfl := Option.some.inj (found.symm.trans same)
          exact ⟨isName, by simp, trivial, trivial⟩
        · rw [found] at unnamed
          cases unnamed
    · exact ih others

mutual

theorem content_named : ∀ (node : Node), node.Valid → node.content.Named
  | .mk type name attrs children, valid => by
    obtain ⟨isName, attrsValid, childrenValid⟩ := valid
    have inner := childrenContent_named children childrenValid
    rw [Node.content]
    split
    · exact inner
    · rename_i anonymous
      exact ⟨isName_nameBytes (isName (Bool.eq_false_iff.mpr anonymous)),
        isName_xmlAttributes attrsValid, (attrsContent_named attrsValid).append inner, trivial⟩

theorem childrenContent_named : ∀ (children : List Node), AllValid children →
    (childrenContent children).Named
  | [], _ => trivial
  | child :: children, valid =>
    (content_named child valid.1).append (childrenContent_named children valid.2)

end

/-! ## One root -/

mutual

/-- The elements that a node prints side by side. -/
def Node.elementCount : Node → Nat
  | .mk type _ _ children => if type.anonymous then elementCounts children else 1

def elementCounts : List Node → Nat
  | [] => 0
  | child :: children => child.elementCount + elementCounts children

end

/-- Content of so many elements with nothing between them. -/
def Bare : Content → Nat → Prop
  | .text run, count => run = [] ∧ count = 0
  | .element before _ _ _ after, count => before = [] ∧ ∃ more, count = more + 1 ∧ Bare after more

theorem Bare.append {first second : Content} {count more : Nat} (isFirst : Bare first count)
    (isSecond : Bare second more) : Bare (first.append second) (count + more) := by
  induction first generalizing count with
  | text run =>
    obtain ⟨rfl, rfl⟩ := isFirst
    rw [Content.text_nil_append, Nat.zero_add]
    exact isSecond
  | element before name attributes inner after innerIh afterIh =>
    obtain ⟨rfl, others, rfl, isAfter⟩ := isFirst
    exact ⟨rfl, others + more, by omega, afterIh isAfter⟩

theorem Bare.root_isSome_iff {content : Content} {count : Nat} (bare : Bare content count) :
    (∃ element, content.root = some element) ↔ count = 1 := by
  cases content with
  | text run => simp [Content.root, bare.2]
  | element before name attributes inner after =>
    obtain ⟨rfl, more, rfl, isAfter⟩ := bare
    cases after with
    | text run =>
      obtain ⟨rfl, rfl⟩ := isAfter
      simp [Content.root]
    | element between next others content last =>
      obtain ⟨-, others, rfl, -⟩ := isAfter
      simp [Content.root]

mutual

theorem content_bare : ∀ (node : Node), Bare node.content node.elementCount
  | .mk type name attrs children => by
    rw [Node.content, Node.elementCount]
    split
    · exact childrenContent_bare children
    · exact ⟨rfl, 0, rfl, rfl, rfl⟩

theorem childrenContent_bare : ∀ (children : List Node),
    Bare (childrenContent children) (elementCounts children)
  | [] => ⟨rfl, rfl⟩
  | child :: children => (content_bare child).append (childrenContent_bare children)

end

/-! ## The trees that are read back -/

def ReadableText (run : Bytes) : Prop :=
  (∀ c ∈ run, c ≠ 60 ∧ c ≠ 38 ∧ c ≠ 13) ∧ ¬[93, 93, 62] <:+: run ∧
    Utf8Text.isText isXmlChar run = true

def ReadableValue (value : Bytes) : Prop :=
  (∀ c ∈ value, c ≠ 60 ∧ c ≠ 38 ∧ c ≠ 39 ∧ c ≠ 9 ∧ c ≠ 10 ∧ c ≠ 13) ∧
    Utf8Text.isText isXmlChar value = true

/-- Text without `<`, `&`, carriage returns and ends of sections, values without `<`, `&`,
the quote, tabs and line ends, all of characters of XML; attributes with different names. -/
def Readable : Content → Prop
  | .text run => ReadableText run
  | .element before _ attributes inner after =>
    ReadableText before ∧ (∀ named ∈ attributes, ReadableValue named.2) ∧
      (attributes.map Prod.fst).Nodup ∧ Readable inner ∧ Readable after

theorem readable_iff {content : Content} :
    Readable content ↔ content.Plain ∧ content.HasCharacters := by
  induction content with
  | text run =>
    rw [Readable, ReadableText, Content.Plain, Content.HasCharacters, plainText_iff, and_assoc]
  | element before name attributes inner after innerIh afterIh =>
    simp only [Readable, ReadableText, ReadableValue, Content.Plain, Content.HasCharacters,
      PlainAttributes, plainText_iff, plainValue_iff, innerIh, afterIh, forall_and]
    tauto

theorem isDeclaration_xmlDeclaration : IsDeclaration xmlDeclaration where
  begins := ⟨_, rfl⟩
  characters := by decide +kernel
  ends := fun _ => rfl

/-- The dump of a tree with one root is read back if and only if its content is readable. -/
theorem parse_xmlDump_eq_iff (convert : Bytes → Bytes) {doc : Document}
    (encoding : doc.encoding = .utf8) (valid : doc.root.Valid) {element : Element}
    (root : doc.root.content.root = some element) :
    (xmlDump convert doc .asXml).bind parse = some element ↔ Readable doc.root.content := by
  obtain ⟨text, dump, printed⟩ := printAsXml_printed convert doc.root valid
  rw [xmlDump, printDocumentAsXml, encoding, dump, readable_iff]
  exact parse_iff isDeclaration_xmlDeclaration printed (content_named doc.root valid) root

/-- The dump is read as the only element of the flattened tree. -/
def ReadsBack (convert : Bytes → Bytes) (doc : Document) : Prop :=
  ∃ element, doc.root.content.root = some element ∧
    (xmlDump convert doc .asXml).bind parse = some element

/-- A tree whose names are names of XML is read back from its dump if and only if one
element is left of it and its content is readable. -/
theorem readsBack_iff (convert : Bytes → Bytes) {doc : Document} (encoding : doc.encoding = .utf8)
    (valid : doc.root.Valid) :
    ReadsBack convert doc ↔ doc.root.elementCount = 1 ∧ Readable doc.root.content := by
  rw [← (content_bare doc.root).root_isSome_iff]
  constructor
  · rintro ⟨element, root, read⟩
    exact ⟨⟨element, root⟩, (parse_xmlDump_eq_iff convert encoding valid root).mp read⟩
  · rintro ⟨⟨element, root⟩, readable⟩
    exact ⟨element, root, (parse_xmlDump_eq_iff convert encoding valid root).mpr readable⟩

def sampleName (chars : List Char) : Option CString :=
  some (.ofBytes (lit chars))

/-- A topic with a title in an attribute and a text in a node. -/
def sampleTopic (title text : List Char) : Document where
  encoding := .utf8
  root :=
    xmlAttrString (xmlAttrString (xmlNewNode (sampleName ['t', 'o', 'p', 'i', 'c']) {})
      (sampleName ['t', 'i', 't', 'l', 'e']) (sampleName title) false)
      (sampleName ['t', 'e', 'x', 't']) (sampleName text) true

theorem sampleTopic_valid (title text : List Char) : (sampleTopic title text).root.Valid := by
  have topic : IsXmlName (sampleName ['t', 'o', 'p', 'i', 'c']) :=
    ⟨_, rfl, isName_iff.mpr ⟨'t', ['o', 'p', 'i', 'c'], by decide, by decide,
      List.all_eq_true.mp (by decide)⟩⟩
  have titleName : IsXmlName (sampleName ['t', 'i', 't', 'l', 'e']) :=
    ⟨_, rfl, isName_iff.mpr ⟨'t', ['i', 't', 'l', 'e'], by decide, by decide,
      List.all_eq_true.mp (by decide)⟩⟩
  have textName : IsXmlName (sampleName ['t', 'e', 'x', 't']) :=
    ⟨_, rfl, isName_iff.mpr ⟨'t', ['e', 'x', 't'], by decide, by decide,
      List.all_eq_true.mp (by decide)⟩⟩
  refine ⟨fun _ => topic, ?_, trivial⟩
  refine List.forall_mem_cons.mpr
    ⟨⟨.inl titleName, ?_⟩, List.forall_mem_singleton.mpr ⟨.inl textName, ?_⟩⟩
  · rintro value asNode ⟨⟩
    exact Option.some_ne_none _
  · rintro value asNode ⟨⟩
    exact Option.some_ne_none _

/-- A plain title and a text with a tab are read back. -/
theorem readsBack_iff_sampleTopic :
    (sampleTopic ['a', '!'] ['b', '\t', 'c']).encoding = .utf8 ∧
      (sampleTopic ['a', '!'] ['b', '\t', 'c']).root.Valid ∧
      ReadsBack id (sampleTopic ['a', '!'] ['b', '\t', 'c']) := by
  refine ⟨rfl, sampleTopic_valid _ _, (readsBack_iff id rfl (sampleTopic_valid _ _)).mpr ⟨rfl, ?_⟩⟩
  have noText : ReadableText [] := ⟨by simp, by decide, Utf8Text.isText_nil _⟩
  refine ⟨noText, List.forall_mem_singleton.mpr ⟨by decide +kernel, ?_⟩, by decide, ?_,
    noText⟩
  · exact Utf8Text.isText_of_ascii (by decide +kernel) (by decide +kernel)
  · refine ⟨noText, by simp, List.nodup_nil, ⟨by decide +kernel, by decide, ?_⟩, noText⟩
    exact Utf8Text.isText_of_ascii (by decide +kernel) (by decide +kernel)

theorem quotedTitle_not_readsBack :
    (sampleTopic ['i', 't', '\'', 's'] []).encoding = .utf8 ∧
      (sampleTopic ['i', 't', '\'', 's'] []).root.Valid ∧
      ¬ReadsBack id (sampleTopic ['i', 't', '\'', 's'] []) := by
  refine ⟨rfl, sampleTopic_valid _ _, ?_⟩
  rintro ⟨element, root, read⟩
  have readable := (parse_xmlDump_eq_iff id rfl (sampleTopic_valid _ _) root).mp read
  have quote := readable.2.1 _ (List.mem_singleton.mpr rfl)
  exact absurd rfl (quote.1 39 (by decide)).2.2.1

end ApiTree

end Fbbs
