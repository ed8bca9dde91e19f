import Fbbs.ApiTrees
import Fbbs.JsonText

/-!
# Trees as JSON

The value that a tree stands for, and the shape of a tree whose flags fit together.  The
dump of such a tree is the compact text of its value, so decoding it gives the value
back.
-/

namespace Fbbs

namespace ApiTree

open JsonText

/-! ## Values -/

def AttrValue.json : AttrValue → Json
  | .integer value => .number value.toInt 0
  | .bigint value => .number value.toInt 0
  | .boolean value => .bool value
  | .string none _ => .null
  | .string (some value) _ => .string value.bytes

mutual

/-- The value of a node: its attributes and then its children, as items or as members; a
plain node is its only item. -/
def Node.json : Node → Json
  | .mk type _ attrs children =>
    let items := attrs.map (fun attr => attr.value.json) ++ jsonItems children
    if type.plainJson then items.headD .null
    else if type.childArray then .array items
    else .object (attrs.map (fun attr => (nameBytes attr.name, attr.value.json)) ++
      jsonMembers children)

def jsonItems : List Node → List Json
  | [] => []
  | child :: children => child.json :: jsonItems children

def jsonMembers : List Node → List (Bytes × Json)
  | [] => []
  | child :: children => (nameBytes child.name, child.json) :: jsonMembers children

end

theorem jsonItems_eq (children : List Node) : jsonItems children = children.map Node.json := by
  induction children with
  | nil => simp [jsonItems]
  | cons child children ih => rw [jsonItems, ih, List.map_cons]

theorem jsonMembers_eq (children : List Node) :
    jsonMembers children = children.map fun child => (nameBytes child.name, child.json) := by
  induction children with
  | nil => simp [jsonMembers]
  | cons child children ih => rw [jsonMembers, ih, List.map_cons]

/-! ## Shapes -/

/-- A child that has a name in JSON. -/
def Node.Named (node : Node) : Prop :=
  node.type.anonymousJson = false ∧ node.name ≠ none

/-- What a node has fits its flags: a plain node has one item without a name, an array
only items without names, an object only members. -/
def FitsFlags (type : NodeType) (attrs : List Attr) (children : List Node) : Prop :=
  if type.plainJson then
    (∃ attr, attrs = [attr] ∧ attr.name = none ∧ children = []) ∨
      ∃ child, children = [child] ∧ child.type.anonymousJson = true ∧ attrs = []
  else if type.childArray then
    (∀ attr ∈ attrs, attr.name = none) ∧ ∀ child ∈ children, child.type.anonymousJson = true
  else (∀ attr ∈ attrs, attr.name ≠ none) ∧ ∀ child ∈ children, child.Named

mutual

/-- The flags of all nodes fit. -/
def Node.Shaped : Node → Prop
  | .mk type _ attrs children => FitsFlags type attrs children ∧ AllShaped children

def AllShaped : List Node → Prop
  | [] => True
  | child :: children => child.Shaped ∧ AllShaped children

end

def IsUtf8 (string : Option CString) : Prop :=
  ∀ s, string = some s → isUtf8 s.bytes = true

def AttrValue.IsUtf8 : AttrValue → Prop
  | .string value _ => ApiTree.IsUtf8 value
  | _ => True

mutual

/-- All strings of a tree are UTF-8. -/
def Node.IsUtf8 : Node → Prop
  | .mk _ name attrs children =>
    ApiTree.IsUtf8 name ∧
      (∀ attr ∈ attrs, ApiTree.IsUtf8 attr.name ∧ attr.value.IsUtf8) ∧ AllUtf8 children

def AllUtf8 : List Node → Prop
  | [] => True
  | child :: children => child.IsUtf8 ∧ AllUtf8 children

end

/-! ## The dump is the text of the value -/

theorem jsonByte_eq (c : UInt8) : jsonByte c = escapeByte c := by
  have same : ∀ n < 16, ApiTree.hexDigit n = JsonText.hexDigit n := by decide
  have small := c.toNat_lt
  have control : c ≤ 0x1f ↔ c < 32 := by grind
  simp only [jsonByte, escapeByte, control, same _ (by omega : c.toNat / 16 < 16),
    same _ (by omega : c.toNat % 16 < 16)]
  rfl

section Text

variable (convert : Bytes → Bytes)

theorem jsonString_some (s : CString) : jsonString convert .utf8 (some s) = quoted s.bytes := by
  rw [jsonString, quoted, funext jsonByte_eq]
  rfl

theorem jsonPrintValue_eq (value : AttrValue) :
    jsonPrintValue convert .utf8 value = text value.json := by
  cases value with
  | string value asNode =>
    cases value with
    | none => rfl
    | some value => exact jsonString_some convert value
  | integer value => exact (List.append_nil _).symm
  | bigint value => exact (List.append_nil _).symm
  | boolean value => cases value <;> rfl

theorem jsonPrintAttr_unnamed {attr : Attr} (unnamed : attr.name = none) :
    jsonPrintAttr convert .utf8 attr = text attr.value.json := by
  rw [jsonPrintAttr, unnamed, jsonPrintValue_eq]
  rfl

theorem jsonPrintAttr_named {attr : Attr} (named : attr.name ≠ none) :
    jsonPrintAttr convert .utf8 attr = memberText (nameBytes attr.name, attr.value.json) := by
  obtain ⟨name, found⟩ := Option.ne_none_iff_exists'.mp named
  rw [jsonPrintAttr, jsonPrintValue_eq, found, jsonString_some, Option.isSome_some, if_pos rfl,
    memberText, List.append_assoc]
  rfl

/-- The commas stand between all attributes and children. -/
theorem printAllAsJson_eq (children : List Node) :
    printAllAsJson convert .utf8 children = joined (children.map (printAsJson convert .utf8)) := by
  induction children with
  | nil => simp [printAllAsJson, joined]
  | cons child children ih =>
    rw [printAllAsJson, ih, List.map_cons, joined, List.isEmpty_map]
    cases children <;> rfl

theorem jsonPrint_joined (attrs : List Attr) (children : List Node) :
    jsonPrintAttrs convert .utf8 (!children.isEmpty) attrs ++
        printAllAsJson convert .utf8 children =
      joined (attrs.map (jsonPrintAttr convert .utf8) ++
        children.map (printAsJson convert .utf8)) := by
  induction attrs with
  | nil => exact printAllAsJson_eq convert children
  | cons attr attrs ih =>
    rw [jsonPrintAttrs, List.append_assoc, ih, List.map_cons, List.cons_append, joined]
    cases attrs <;> cases children <;> rfl

/-- What stands before the value of a node. -/
def label (node : Node) : Bytes :=
  if node.type.anonymousJson then [] else jsonString convert .utf8 node.name ++ lit [':']

theorem printAsJson_joined (type : NodeType) (name : Option CString) (attrs : List Attr)
    (children : List Node) :
    printAsJson convert .utf8 (.mk type name attrs children) =
      label convert (.mk type name attrs children) ++
        ((if type.plainJson then [] else if type.childArray then [91] else [123]) ++
          joined (attrs.map (jsonPrintAttr convert .utf8) ++
            children.map (printAsJson convert .utf8)) ++
          if type.plainJson then [] else if type.childArray then [93] else [125]) := by
  rw [printAsJson, ← jsonPrint_joined]
  simp only [List.append_assoc]
  rfl

theorem joined_singleton (text : Bytes) : joined [text] = text := by
  simp [joined]

/-- A node prints the text of its value if its children do. -/
theorem printAsJson_step {type : NodeType} {name : Option CString} {attrs : List Attr}
    {children : List Node} (fits : FitsFlags type attrs children)
    (printed : ∀ child ∈ children,
      printAsJson convert .utf8 child = label convert child ++ text child.json) :
    printAsJson convert .utf8 (.mk type name attrs children) =
      label convert (.mk type name attrs children) ++
        text (Node.mk type name attrs children).json := by
  have unnamedChild : ∀ child ∈ children, child.type.anonymousJson = true →
      printAsJson convert .utf8 child = text child.json := by
    intro child member anonymous
    rw [printed child member, label, if_pos anonymous, List.nil_append]
  have namedChild : ∀ child ∈ children, child.Named →
      printAsJson convert .utf8 child = memberText (nameBytes child.name, child.json) := by
    intro child member named
    obtain ⟨name, found⟩ := Option.ne_none_iff_exists'.mp named.2
    rw [printed child member, label, named.1, found, jsonString_some, memberText,
      if_neg Bool.false_ne_true, List.append_assoc]
    rfl
  rw [printAsJson_joined, Node.json, jsonItems_eq, jsonMembers_eq]
  congr 1
  rw [FitsFlags] at fits
  split at fits
  · rename_i plain
    simp only [plain, if_true, List.nil_append, List.append_nil]
    rcases fits with ⟨attr, rfl, unnamed, rfl⟩ | ⟨child, rfl, anonymous, rfl⟩
    · exact (joined_singleton _).trans (jsonPrintAttr_unnamed convert unnamed)
    · exact (joined_singleton _).trans (unnamedChild child (by simp) anonymous)
  · rename_i plain
    split at fits
    · rename_i array
      have items : attrs.map (jsonPrintAttr convert .utf8) ++
          children.map (printAsJson convert .utf8) =
          (attrs.map (fun attr => attr.value.json) ++ children.map Node.json).map text := by
        rw [List.map_append, List.map_map, List.map_map]
        congr 1
        · apply List.map_congr_left
          intro attr member
          exact jsonPrintAttr_unnamed convert (fits.1 attr member)
        · apply List.map_congr_left
          intro child member
          exact unnamedChild child member (fits.2 child member)
      simp only [plain, array, if_true, if_false, Bool.false_eq_true, items, ← itemsText_eq]
      rw [text]
      rfl
    · rename_i object
      have members : attrs.map (jsonPrintAttr convert .utf8) ++
          children.map (printAsJson convert .utf8) =
          (attrs.map (fun attr => (nameBytes attr.name, attr.value.json)) ++
            children.map fun child => (nameBytes child.name, child.json)).map memberText := by
        rw [List.map_append, List.map_map, List.map_map]
        congr 1
        · apply List.map_congr_left
          intro attr member
          exact jsonPrintAttr_named convert (fits.1 attr member)
        · apply List.map_congr_left
          intro child member
          exact namedChild child member (fits.2 child member)
      simp only [plain, object, if_false, Bool.false_eq_true, members, ← membersText_eq]
      rw [text]
      rfl

mutual

/-- The dump of a node is its name and the text of its value. -/
theorem printAsJson_eq : ∀ (node : Node), node.Shaped →
    printAsJson convert .utf8 node = label convert node ++ text node.json
  | .mk _ _ _ children, shaped =>
    printAsJson_step convert shaped.1 (printAllAsJson_text children shaped.2)

theorem printAllAsJson_text : ∀ (children : List Node), AllShaped children →
    ∀ child ∈ children, printAsJson convert .utf8 child = label convert child ++ text child.json
  | [], _ => by simp
  | child :: children, shaped =>
    List.forall_mem_cons.mpr
      ⟨printAsJson_eq child shaped.1, printAllAsJson_text children shaped.2⟩

end

end Text

/-! ## The value has the strings of the tree -/

theorem hasUtf8_value {value : AttrValue} (valid : value.IsUtf8) : HasUtf8 value.json := by
  cases value with
  | string value asNode =>
    cases value with
    | none => trivial
    | some value => exact valid value rfl
  | integer value => trivial
  | bigint value => trivial
  | boolean value => trivial

theorem isUtf8_nameBytes {name : Option CString} (valid : IsUtf8 name) :
    isUtf8 (nameBytes name) = true := by
  cases name with
  | none => exact isUtf8_ascii (by simp [nameBytes])
  | some name => exact valid name rfl

mutual

theorem hasUtf8_json : ∀ (node : Node), node.IsUtf8 → HasUtf8 node.json
  | .mk type name attrs children, valid => by
    have attrValid : ∀ attr ∈ attrs, isUtf8 (nameBytes attr.name) = true ∧
        HasUtf8 attr.value.json := by
      intro attr member
      obtain ⟨nameValid, valueValid⟩ := valid.2.1 attr member
      exact ⟨isUtf8_nameBytes nameValid, hasUtf8_value valueValid⟩
    have childValid := hasUtf8_children children valid.2.2
    have items : ∀ item ∈ attrs.map (fun attr => attr.value.json) ++ jsonItems children,
        HasUtf8 item := by
      rw [jsonItems_eq, List.forall_mem_append, List.forall_mem_map, List.forall_mem_map]
      exact ⟨fun attr member => (attrValid attr member).2,
        fun child member => (childValid child member).2⟩
    rw [Node.json]
    split
    · cases found : attrs.map (fun attr => attr.value.json) ++ jsonItems children with
      | nil => trivial
      | cons item others => exact items item (by simp [found])
    · split
      · exact itemsUtf8_iff.mpr items
      · apply membersUtf8_iff.mpr
        rw [jsonMembers_eq, List.forall_mem_append, List.forall_mem_map, List.forall_mem_map]
        exact ⟨attrValid, childValid⟩

theorem hasUtf8_children : ∀ (children : List Node), AllUtf8 children →
    ∀ child ∈ children, isUtf8 (nameBytes child.name) = true ∧ HasUtf8 child.json
  | [], _ => by simp
  | .mk _ _ _ _ :: children, valid =>
    List.forall_mem_cons.mpr
      ⟨⟨isUtf8_nameBytes valid.1.1, hasUtf8_json _ valid.1⟩,
        hasUtf8_children children valid.2⟩

end

/-- The JSON dump of a tree whose flags fit and whose strings are UTF-8 is a JSON text, and
its decoding gives the value of the tree. -/
theorem decode_xmlDump_asJson (convert : Bytes → Bytes) {doc : Document}
    (encoding : doc.encoding = .utf8) (root : doc.root.type.anonymousJson = true)
    (shaped : doc.root.Shaped) (valid : doc.root.IsUtf8) :
    (xmlDump convert doc .asJson).bind decode = some doc.root.json := by
  have dump := printAsJson_eq convert doc.root shaped
  rw [label, if_pos root, List.nil_append] at dump
  rw [xmlDump, encoding, dump]
  exact decode_text (hasUtf8_json doc.root valid)

/-- A board with its managers, as `board_to_node` builds it. -/
def sampleBoard : Document where
  encoding := .utf8
  root :=
    let name : CString := .ofBytes (lit ['n', 'a', 'm', 'e'])
    let manager := xmlAttrString
      (xmlNewNode (some name) { anonymousJson := true, plainJson := true }) none
      (some (.ofBytes (lit ['s', 'y', 's', 'o', 'p']))) true
    let managers := xmlAddChild
      (xmlNewNode (some (.ofBytes (lit ['b', 'm', 's']))) { childArray := true }) manager
    let board := xmlAttrString
      (xmlNewNode (some (.ofBytes (lit ['b', 'o', 'a', 'r', 'd']))) { anonymousJson := true })
      (some name) (some (.ofBytes (lit ['a', '"', 'b', '\t', 'c']))) false
    let board := xmlAttrBoolean board (some (.ofBytes (lit ['d', 'i', 'r']))) false
    xmlAddChild (xmlAttrInteger board (some (.ofBytes (lit ['i', 'd']))) (-7)) managers

theorem decode_xmlDump_asJson_sampleBoard :
    sampleBoard.encoding = .utf8 ∧ sampleBoard.root.type.anonymousJson = true ∧
      sampleBoard.root.Shaped ∧ sampleBoard.root.IsUtf8 ∧
      (xmlDump id sampleBoard .asJson).bind decode = some sampleBoard.root.json := by
  have shaped : sampleBoard.root.Shaped := by
    simp [sampleBoard, xmlNewNode, xmlAttrString, xmlAttrBoolean, xmlAttrInteger, xmlAddAttr,
      xmlAddChild, Node.Shaped, AllShaped, FitsFlags, Node.Named, Node.type, Node.name]
  have valid : sampleBoard.root.IsUtf8 := by
    simp only [sampleBoard, xmlNewNode, xmlAttrString, xmlAttrBoolean, xmlAttrInteger, xmlAddAttr,
      xmlAddChild, Node.IsUtf8, AllUtf8, AttrValue.IsUtf8, IsUtf8, List.nil_append,
      List.cons_append, List.forall_mem_cons, Option.some.injEq, forall_eq', and_true]
    and_intros <;> first | exact isUtf8_lit (by decide) | simp
  exact ⟨rfl, rfl, shaped, valid, decode_xmlDump_asJson id rfl rfl shaped valid⟩

end ApiTree

end Fbbs
