import Fbbs.DecimalText
import Fbbs.Parcel

/-!
# Trees of the web interface

`fcgi/xml.c`: a request of the web interface builds a tree of nodes with attributes, and
`xml_dump` prints it as XML or as JSON.  Where an attribute stands in XML, and which
names and brackets JSON has, depends on the flags of attributes and nodes.  A result
`none` is a null pointer that is read.
-/

namespace Fbbs

namespace ApiTree

/-- A string of the program. -/
def lit (chars : List Char) : Bytes :=
  chars.map Char.toUInt8

/-- `XML_ENCODING_UTF8` and `XML_ENCODING_GBK`. -/
inductive Encoding
  | utf8
  | gbk
  deriving DecidableEq

/-- The type and the value of an attribute; only a string may be printed as a node. -/
inductive AttrValue
  | string (value : Option CString) (asNode : Bool)
  | integer (value : Int32)
  | bigint (value : Int64)
  | boolean (value : Bool)
  deriving DecidableEq

structure Attr where
  name : Option CString
  value : AttrValue

/-- `attr->type & XML_ATTR_AS_NODE`. -/
def Attr.asNode (attr : Attr) : Bool :=
  match attr.value with
  | .string _ asNode => asNode
  | _ => false

/-- The flags `XML_NODE_*`. -/
structure NodeType where
  childArray : Bool := false
  anonymous : Bool := false
  anonymousJson : Bool := false
  plainJson : Bool := false

inductive Node
  | mk (type : NodeType) (name : Option CString) (attrs : List Attr) (children : List Node)

def Node.type : Node → NodeType
  | .mk type _ _ _ => type

def Node.name : Node → Option CString
  | .mk _ name _ _ => name

/-- The bytes of a string that may be a null pointer. -/
def nameBytes (name : Option CString) : Bytes :=
  (name.map CString.bytes).getD []

structure Document where
  encoding : Encoding
  root : Node

/-! ## Building trees -/

def xmlNewNode (name : Option CString) (type : NodeType) : Node :=
  .mk type name [] []

def xmlAddChild : Node → Node → Node
  | .mk type name attrs children, child => .mk type name attrs (children ++ [child])

def xmlAddAttr : Node → Attr → Node
  | .mk type name attrs children, attr => .mk type name (attrs ++ [attr]) children

def xmlAttrString (node : Node) (name value : Option CString) (asNode : Bool) : Node :=
  xmlAddAttr node ⟨name, .string value asNode⟩

def xmlAttrInteger (node : Node) (name : Option CString) (value : Int32) : Node :=
  xmlAddAttr node ⟨name, .integer value⟩

def xmlAttrBoolean (node : Node) (name : Option CString) (value : Bool) : Node :=
  xmlAddAttr node ⟨name, .boolean value⟩

section Dump

-- The conversion from UTF-8 to GBK of `iconv`.
variable (convert : Bytes → Bytes)

/-- `convert` with `CONVERT_U2G`; a null pointer is an empty string. -/
def convertU2G (value : Option CString) : Bytes :=
  match value with
  | none => []
  | some value => if value.bytes = [] then [] else convert value.bytes

/-! ## XML -/

/-- A control character that XML does not allow. -/
def isForbidden (c : UInt8) : Bool :=
  c < 0x20 && c != 9 && c != 13 && c != 10

def printXmlString (s : Bytes) : Bytes :=
  s.filter fun c => !isForbidden c

/-- `_xml_attr_print`: the value alone. -/
def xmlAttrPrintValue (encoding : Encoding) : AttrValue → Option Bytes
  | .integer value => some (DecimalText.ofInt value.toInt)
  | .bigint value => some (DecimalText.ofInt value.toInt)
  | .boolean value => some (if value then lit ['1'] else [])
  | .string value _ =>
    match encoding with
    | .utf8 => value.map fun value => printXmlString value.bytes
    | .gbk => some (convertU2G convert value)

/-- `xml_attr_print`. -/
def xmlAttrPrint (encoding : Encoding) (attr : Attr) : Option Bytes :=
  match attr.value with
  | .boolean false => some []
  | _ => do
    let name ← attr.name
    let value ← xmlAttrPrintValue convert encoding attr.value
    some (lit [' '] ++ name.bytes ++ lit ['=', '\''] ++ value ++ lit ['\''])

/-- The first loop of `_print_as_xml`. -/
def xmlPrintAttrs (encoding : Encoding) : List Attr → Option Bytes
  | [] => some []
  | attr :: attrs => do
    let first ← if attr.asNode then some [] else xmlAttrPrint convert encoding attr
    let rest ← xmlPrintAttrs encoding attrs
    some (first ++ rest)

def xmlPrintAttrNode (encoding : Encoding) (attr : Attr) : Option Bytes := do
  let value ← xmlAttrPrintValue convert encoding attr.value
  match attr.name with
  | none => some value
  | some name =>
    some (lit ['<'] ++ name.bytes ++ lit ['>'] ++ value ++
      (lit ['<', '/'] ++ name.bytes ++ lit ['>']))

/-- The second loop of `_print_as_xml`. -/
def xmlPrintAttrNodes (encoding : Encoding) : List Attr → Option Bytes
  | [] => some []
  | attr :: attrs => do
    let first ← if attr.asNode then xmlPrintAttrNode convert encoding attr else some []
    let rest ← xmlPrintAttrNodes encoding attrs
    some (first ++ rest)

mutual

/-- `_print_as_xml`. -/
def printAsXml (encoding : Encoding) : Node → Option Bytes
  | .mk type name attrs children =>
    if type.anonymous then printAllAsXml encoding children
    else do
      let name ← name
      let attributes ← xmlPrintAttrs convert encoding attrs
      if !attrs.any Attr.asNode && children.isEmpty then
        some (lit ['<'] ++ name.bytes ++ attributes ++ lit ['/', '>'])
      else do
        let nodes ← xmlPrintAttrNodes convert encoding attrs
        let inner ← printAllAsXml encoding children
        some (lit ['<'] ++ name.bytes ++ attributes ++ lit ['>'] ++ (nodes ++ inner) ++
          (lit ['<', '/'] ++ name.bytes ++ lit ['>']))

def printAllAsXml (encoding : Encoding) : List Node → Option Bytes
  | [] => some []
  | child :: children => do
    let first ← printAsXml encoding child
    let rest ← printAllAsXml encoding children
    some (first ++ rest)

end

def xmlDeclaration : Bytes :=
  lit ['<', '?', 'x', 'm', 'l', ' ', 'v', 'e', 'r', 's', 'i', 'o', 'n', '=', '"', '1', '.', '0',
    '"', ' ', 'e', 'n', 'c', 'o', 'd', 'i', 'n', 'g', '=', '"', 'u', 't', 'f', '-', '8', '"',
    '?', '>', '\n']

/-- `print_as_xml`. -/
def printDocumentAsXml (doc : Document) : Option Bytes := do
  let root ← printAsXml convert doc.encoding doc.root
  some (xmlDeclaration ++ root)

/-! ## JSON -/

/-- A digit of `%x`. -/
def hexDigit (n : Nat) : UInt8 :=
  (lit ['0', '1', '2', '3', '4', '5', '6', '7', '8', '9', 'a', 'b', 'c', 'd', 'e', 'f']).getD n 0

/-- The body of the loop of `_json_string`. -/
def jsonByte (c : UInt8) : Bytes :=
  if c = 34 then lit ['\\', '"']
  else if c = 92 then lit ['\\', '\\']
  else if c ≤ 0x1f then
    lit ['\\', 'u', '0', '0'] ++ [hexDigit (c.toNat / 16), hexDigit (c.toNat % 16)]
  else [c]

/-- `_json_string` and `json_string`. -/
def jsonString (encoding : Encoding) : Option CString → Bytes
  | none => lit ['n', 'u', 'l', 'l']
  | some s =>
    let bytes := match encoding with
      | .utf8 => s.bytes
      | .gbk => convertU2G convert (some s)
    lit ['"'] ++ bytes.flatMap jsonByte ++ lit ['"']

/-- The value that `json_print_attr` prints. -/
def jsonPrintValue (encoding : Encoding) : AttrValue → Bytes
  | .integer value => DecimalText.ofInt value.toInt
  | .bigint value => DecimalText.ofInt value.toInt
  | .boolean value => if value then lit ['t', 'r', 'u', 'e'] else lit ['f', 'a', 'l', 's', 'e']
  | .string value _ => jsonString convert encoding value

/-- `json_print_attr`. -/
def jsonPrintAttr (encoding : Encoding) (attr : Attr) : Bytes :=
  (if attr.name.isSome then jsonString convert encoding attr.name ++ lit [':'] else []) ++
    jsonPrintValue convert encoding attr.value

/-- The loop over the attributes, with a comma before each next attribute and before the
children. -/
def jsonPrintAttrs (encoding : Encoding) (child : Bool) : List Attr → Bytes
  | [] => []
  | attr :: attrs =>
    jsonPrintAttr convert encoding attr ++
      (if !attrs.isEmpty || child then lit [','] else []) ++
      jsonPrintAttrs encoding child attrs

mutual

/-- `_print_as_json`. -/
def printAsJson (encoding : Encoding) : Node → Bytes
  | .mk type name attrs children =>
    (if type.anonymousJson then [] else jsonString convert encoding name ++ lit [':']) ++
      (if type.plainJson then [] else if type.childArray then lit ['['] else lit ['\x7b']) ++
      jsonPrintAttrs convert encoding (!children.isEmpty) attrs ++
      printAllAsJson encoding children ++
      (if type.plainJson then [] else if type.childArray then lit [']'] else lit ['\x7d'])

def printAllAsJson (encoding : Encoding) : List Node → Bytes
  | [] => []
  | child :: children =>
    printAsJson encoding child ++ (if !children.isEmpty then lit [','] else []) ++
      printAllAsJson encoding children

end

/-- `XML_AS_XML` and `XML_AS_JSON`. -/
inductive DumpType
  | asJson
  | asXml

def xmlDump (doc : Document) : DumpType → Option Bytes
  | .asXml => printDocumentAsXml convert doc
  | .asJson => some (printAsJson convert doc.encoding doc.root)

end Dump

end ApiTree

end Fbbs
