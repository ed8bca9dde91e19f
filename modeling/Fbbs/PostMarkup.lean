import Fbbs.DecimalText
import Fbbs.TaggedMarkup
import Fbbs.TextScan
import Fbbs.AsciiBytes
import Fbbs.WebParameters

/-!
# Printing a post as markup

`fcgi/parse.c`: the header of a post becomes the elements `owner`, `nick`, `board`,
`title` and `date`, the body a list of paragraphs for text, quotes and signature, with
colours and addresses marked.  The post is a text of a given length, and all pointers
into it are positions.  A result `none` is a read outside the text, the printing of a
range whose begin is behind its end, or a loop that does not end.
-/

namespace Fbbs

namespace PostMarkup

open TaggedMarkup TextScan

/-- A number, as `%d` prints it. -/
def printNumber (number : Int) : Output :=
  (DecimalText.ofInt number).map fun c => ⟨c, false⟩

/-- `struct tm`, as far as it is filled in. -/
structure Tm where
  year : Int32
  mon : Int32
  mday : Int32
  hour : Int32
  min : Int32
  sec : Int32

/-- The local time of a time stamp. -/
structure LocalTime where
  year : Int
  mon : Int
  mday : Int
  hour : Int
  min : Int
  sec : Int
  wday : Fin 7

/-- How a page is printed: its encoding, the conversion of a range to it, and the time
functions of the C library. -/
structure Page where
  utf8 : Bool
  convert : Bytes → Bytes
  mktime : Tm → Int64
  localtime : UInt32 → LocalTime

/-- `weeknum`. -/
def weeknum : Vector Bytes 7 :=
  #v[[0xcc, 0xec], [0xd2, 0xbb], [0xb6, 0xfe], [0xc8, 0xfd], [0xcb, 0xc4], [0xce, 0xe5],
    [0xc1, 0xf9]]

/-- `utf8_weeknum`. -/
def utf8Weeknum : Vector Bytes 7 :=
  #v[[0xe5, 0xa4, 0xa9], [0xe4, 0xb8, 0x80], [0xe4, 0xba, 0x8c], [0xe4, 0xb8, 0x89],
    [0xe5, 0x9b, 0x9b], [0xe4, 0xba, 0x94], [0xe5, 0x85, 0xad]]

/-- `format_time` with one of the two Chinese formats; the buffer has 36 bytes. -/
def formatTime (utf8 : Bool) (t : LocalTime) : Bytes :=
  let year : Bytes := if utf8 then [0xe5, 0xb9, 0xb4] else [0xc4, 0xea]
  let month : Bytes := if utf8 then [0xe6, 0x9c, 0x88] else [0xd4, 0xc2]
  let day : Bytes := if utf8 then [0xe6, 0x97, 0xa5] else [0xc8, 0xd5]
  let week : Bytes := if utf8 then [0xe6, 0x98, 0x9f, 0xe6, 0x9c, 0x9f]
    else [0xd0, 0xc7, 0xc6, 0xda]
  let weekday : Bytes := if utf8 then utf8Weeknum.get t.wday else weeknum.get t.wday
  (DecimalText.spacePadded 4 (t.year + 1900) ++ year ++
    DecimalText.zeroPadded 2 (t.mon + 1) ++ month ++
    DecimalText.zeroPadded 2 t.mday ++ day ++
    DecimalText.zeroPadded 2 t.hour ++ [58] ++ DecimalText.zeroPadded 2 t.min ++ [58] ++
    DecimalText.zeroPadded 2 t.sec ++ [32] ++ week ++ weekday).take 35

def parseNosig : Int32 := 1
def parseNoquoteimg : Int32 := 2
def parseNosigimg : Int32 := 4

structure AnsiColor where
  hl : Int
  fg : Int
  bg : Int
  deriving DecidableEq

def AnsiColor.plain : AnsiColor := ⟨0, 37, 40⟩

/-- `SENDER_STRING`. -/
def senderString : Bytes := [0xe5, 0x8f, 0x91, 0xe4, 0xbf, 0xa1, 0xe4, 0xba, 0xba, 0x3a, 0x20]

/-- `TOPIC_STRING`. -/
def topicString : Bytes := [0xe6, 0xa0, 0x87, 0x20, 0x20, 0xe9, 0xa2, 0x98, 0x3a, 0x20]

/-- `QUOTE_STRING`. -/
def quoteString : Bytes := [0xe3, 0x80, 0x90, 0x20, 0xe5, 0x9c, 0xa8, 0x20]

/-- `sizeof(DATETIME_STRING)`: fourteen digits, two colons, three characters of three
bytes each, and the final zero. -/
def datetimeSize : Nat := 26

section Reading

variable (text : Bytes)

/-- `get_line_end`. -/
def getLineEnd (s e : Nat) : Option Nat :=
  (find text (· == 10) s e).map fun s => if s = e then s else s + 1

/-- `_memstr` for the string `c :: rest`. -/
def memstr (word : Bytes) (s e : Nat) : Option (Option Nat) :=
  match word with
  | [] => some none
  | c :: rest => findWord text c rest s e

/-- Whether `strncaseeq` holds for a string at a position. -/
def strncaseeq (s : Nat) (word : Bytes) : Option Bool :=
  (read text s (s + word.length)).map fun bytes =>
    bytes.map AsciiBytes.tolower == word.map AsciiBytes.tolower

/-- `BEGIN_WITH`. -/
def beginWith (s e : Nat) (word : Bytes) : Option Bool :=
  if s + word.length ≤ e then strncaseeq text s word else some false

/-- `END_WITH`. -/
def endWith (s e : Nat) (word : Bytes) : Option Bool :=
  if s + word.length ≤ e then strncaseeq text (e - word.length) word else some false

/-- `strtol` with base 10 where `long` has 64 bits.  It reads up to the first byte that
is not part of the number. -/
def strtol (s : Nat) : Option Int := do
  let outside := text.length + 1
  let p ← find text (fun c => !AsciiBytes.isspace c) s outside
  let sign ← text[p]?
  let q := if sign = 45 ∨ sign = 43 then p + 1 else p
  let r ← find text (fun c => !DecimalText.isDigit c) q outside
  let value := DecimalText.value (slice text q r)
  if sign = 45 then some (-(min value (2 ^ 63) : Nat))
  else some (min value (2 ^ 63 - 1) : Nat)

/-- `_parse_header_date` of the line between two positions. -/
def parseHeaderDate (page : Page) (s e : Nat) : Option UInt32 := do
  match ← findSymbol text 40 s e with
  | none => some 0
  | some b =>
    if e < b + datetimeSize then some 0
    else
      let year ← strtol text (b + 1)
      let mon ← strtol text (b + 8)
      let mday ← strtol text (b + 13)
      let hour ← strtol text (b + 18)
      let min ← strtol text (b + 21)
      let sec ← strtol text (b + 24)
      let time := page.mktime ⟨Int32.ofInt (year - 1900), Int32.ofInt (mon - 1),
        Int32.ofInt mday, Int32.ofInt hour, Int32.ofInt min, Int32.ofInt sec⟩
      some (if time = -1 then 0 else time.toUInt64.toUInt32)

end Reading

section Escaping

/-- What `_xml_escape_internal` prints for a byte. -/
def escapeByte (c : UInt8) : Output :=
  if c = 60 then lit ['&', 'l', 't', ';']
  else if c = 62 then lit ['&', 'g', 't', ';']
  else if c = 38 then lit ['&', 'a', 'm', 'p', ';']
  else if c = 32 then lit ['&', '#', '1', '6', '0', ';']
  else if c ≠ 0 ∧ c < 32 ∧ c ≠ 9 then []
  else [⟨c, true⟩]

/-- The loop of `_xml_escape_internal`. -/
def escapeLoop (text : Bytes) (s e : Nat) : Option Output :=
  if s = e then some []
  else
    match _found : text[s]? with
    | none => none
    | some c => (escapeLoop text (s + 1) e).map fun rest => escapeByte c ++ rest
termination_by text.length - s
decreasing_by
  have inside := (List.getElem?_eq_some_iff.mp _found).1
  omega

/-- `_xml_escape`. -/
def xmlEscape (page : Page) (text : Bytes) (s e : Nat) : Option Output :=
  if page.utf8 then escapeLoop text s e
  else if s = e then some []
  else if s < e then (read text s e).map fun bytes => (page.convert bytes).flatMap escapeByte
  else none

end Escaping

section Colours

variable (text : Bytes)

/-- What a number of an escape sequence sets. -/
def AnsiColor.set (a : AnsiColor) (number : Int) : AnsiColor :=
  if number = 0 ∨ number = 1 then { a with hl := number }
  else if 30 ≤ number ∧ number ≤ 37 then { a with fg := number }
  else if 40 ≤ number ∧ number ≤ 47 then { a with bg := number }
  else a

/-- The end of an escape sequence; -1 leaves a colour as it is. -/
def AnsiColor.update (ansi a : AnsiColor) : AnsiColor where
  hl := if a.hl ≠ -1 then a.hl else ansi.hl
  fg := if a.fg ≠ -1 then a.fg else ansi.fg
  bg := if a.bg ≠ -1 then a.bg else ansi.bg

/-- The loop of `_parse_ansi_code`. -/
def parseAnsiLoop (start e : Nat) (ansi : AnsiColor) (s last : Nat) (a : AnsiColor) :
    Option (Nat × AnsiColor) :=
  if s = e then some (e, ansi)
  else
    match _found : text[s]? with
    | none => none
    | some c =>
      if c = 59 then
        (strtol text last).bind fun number =>
          parseAnsiLoop start e ansi (s + 1) (s + 1) (a.set (Int32.ofInt number).toInt)
      else if c = 109 then
        (strtol text last).bind fun number =>
          some (s + 1, if s = start + 2 then .plain
            else ansi.update (a.set (Int32.ofInt number).toInt))
      else if DecimalText.isDigit c then parseAnsiLoop start e ansi (s + 1) last a
      else some (s, ansi)
termination_by text.length - s
decreasing_by
  all_goals
    have inside := (List.getElem?_eq_some_iff.mp _found).1
    omega

/-- `_parse_ansi_code`. -/
def parseAnsiCode (start e : Nat) (ansi : AnsiColor) : Option (Nat × AnsiColor) :=
  let s := start + 1
  if s = e then some (s, ansi)
  else
    match text[s]? with
    | none => none
    | some c =>
      if c ≠ 91 then some (s, ansi)
      else parseAnsiLoop text start e ansi (s + 1) (s + 1) ⟨-1, -1, -1⟩

def closeColour (opened : Bool) : Output :=
  if opened then lit ['<', '/', 'c', '>'] else []

def openColour (ansi : AnsiColor) : Output :=
  lit ['<', 'c', ' ', 'h', '=', '\''] ++ printNumber ansi.hl ++
    lit ['\'', ' ', 'f', '=', '\''] ++ printNumber ansi.fg ++
    lit ['\'', ' ', 'b', '=', '\''] ++ printNumber ansi.bg ++ lit ['\'', '>']

/-- The loop of `_print_ansi_text`. -/
def printAnsiLoop (page : Page) (e : Nat) :
    Nat → Nat → Nat → Bool → AnsiColor → Option (Output × AnsiColor)
  | 0, _, _, _, _ => none
  | fuel + 1, s, last, opened, ansi =>
    if s = e then
      (xmlEscape page text last e).map fun out => (out ++ closeColour opened, ansi)
    else do
      let c ← text[s]?
      if c = 27 then
        let before ← xmlEscape page text last s
        let (next, ansi) ← parseAnsiCode text s e ansi
        let (rest, final) ← printAnsiLoop page e fuel next next true ansi
        some (before ++ closeColour opened ++ openColour ansi ++ rest, final)
      else printAnsiLoop page e fuel (s + 1) last opened ansi

/-- `_print_ansi_text`. -/
def printAnsiText (page : Page) (s e : Nat) (ansi : AnsiColor) :
    Option (Output × AnsiColor) :=
  printAnsiLoop text page e (text.length + 1) s s false ansi

end Colours

section Header

variable (page : Page) (text : Bytes)

/-- `_print_node`. -/
def printNode (name : List Char) (s e : Nat) : Option Output :=
  (xmlEscape page text s e).map fun value =>
    lit (['<'] ++ name ++ ['>']) ++ value ++ lit (['<', '/'] ++ name ++ ['>'])

/-- The fields of a header that has been recognised. -/
structure Header where
  ownerBegin : Nat
  ownerEnd : Nat
  nickBegin : Nat
  nickEnd : Nat
  boardBegin : Nat
  boardEnd : Nat
  titleBegin : Nat
  titleEnd : Nat
  date : UInt32
  lineEnd : Nat
  deriving DecidableEq

/-- The searches of `_print_header`; the inner `none` is a header that is not
recognised.  Without a colon the search goes on at the address two. -/
def parseHeader : Option (Option Header) := do
  let e := text.length
  let line ← getLineEnd text 0 e
  let some sender ← memstr text senderString 0 line | some none
  let ownerBegin := sender + senderString.length
  let some ownerEnd ← findSymbol text 32 ownerBegin line | some none
  let nickBegin := ownerEnd + 2
  if e ≤ nickBegin then some none
  else
    let some nickEnd ← findLast text 41 nickBegin line | some none
    let some colon ← findSymbol text 58 nickEnd line | none
    let boardBegin := colon + 2
    if e ≤ boardBegin then some none
    else
      let escape ← findSymbol text 27 boardBegin line
      let boardEnd := escape.getD (line - 1)
      let line2 ← getLineEnd text line e
      let titleBegin := line + topicString.length
      if e ≤ titleBegin then some none
      else
        let line3 ← getLineEnd text line2 e
        let date ← parseHeaderDate text page line2 line3
        if date = 0 then some none
        else
          some (some ⟨ownerBegin, ownerEnd, nickBegin, nickEnd, boardBegin, boardEnd,
            titleBegin, line2 - 1, date, line3⟩)

/-- What `_print_header` prints for a header. -/
def printFields (header : Header) : Option Output := do
  let owner ← printNode page text ['o', 'w', 'n', 'e', 'r'] header.ownerBegin header.ownerEnd
  let nick ← printNode page text ['n', 'i', 'c', 'k'] header.nickBegin header.nickEnd
  let board ← printNode page text ['b', 'o', 'a', 'r', 'd'] header.boardBegin header.boardEnd
  let (title, _) ← printAnsiText text page header.titleBegin header.titleEnd .plain
  some (owner ++ nick ++ board ++
    lit ['<', 't', 'i', 't', 'l', 'e', '>'] ++ title ++
      lit ['<', '/', 't', 'i', 't', 'l', 'e', '>'] ++
    lit ['<', 'd', 'a', 't', 'e', '>'] ++
      (formatTime page.utf8 (page.localtime header.date)).map (fun c => ⟨c, false⟩) ++
      lit ['<', '/', 'd', 'a', 't', 'e', '>'])

/-- `_print_header`: what is printed, and the position that is returned. -/
def printHeader : Option (Output × Nat) := do
  match ← parseHeader page text with
  | none => some ([], 0)
  | some header => (printFields page text header).map fun out => (out, header.lineEnd)

end Header

section Body

variable (page : Page) (text : Bytes)

/-- The characters of an address; `strchr` finds the final zero too. -/
def isUrlByte (c : UInt8) : Bool :=
  c = 0 || (48 ≤ c && c ≤ 57) || (97 ≤ c && c ≤ 122) || (65 ≤ c && c ≤ 90) ||
    [126, 36, 45, 95, 46, 43, 33, 42, 41, 40, 44, 47, 58, 59, 61, 63, 64, 37, 35, 91, 93,
      38].contains c

/-- `_get_url`. -/
def getUrl (s e : Nat) : Option Nat :=
  find text (fun c => !isUrlByte c) s e

/-- The endings of pictures. -/
def isPicture (s e : Nat) : Option Bool := do
  let jpg ← endWith text s e [46, 106, 112, 103]
  let gif ← endWith text s e [46, 103, 105, 102]
  let png ← endWith text s e [46, 112, 110, 103]
  let jpeg ← endWith text s e [106, 112, 101, 103]
  some (jpg || gif || png || jpeg)

/-- Whether an address is marked as a picture. -/
def showsPicture (s e : Nat) (option : Int32) : Option Bool :=
  if option &&& (parseNoquoteimg ||| parseNosigimg) = 0 then isPicture text s e
  else some false

/-- `_print_url`: what is printed, and the position behind the address. -/
def printUrl (s e : Nat) (option : Int32) : Option (Output × Nat) := do
  let u ← getUrl text s e
  if u < s + 11 then
    let bytes ← read text s u
    some (raw bytes, u)
  else
    let picture ← showsPicture text s u option
    let href ← xmlEscape page text s u
    some (lit ['<', 'a', ' '] ++
      (if picture then lit ['i', '=', '\'', 'i', '\'', ' '] else []) ++
      lit ['h', 'r', 'e', 'f', '=', '\''] ++ href ++ lit ['\'', '/', '>'], u)

def httpString : Bytes := [104, 116, 116, 112, 58, 47, 47]
def httpsString : Bytes := [104, 116, 116, 112, 115, 58, 47, 47]

/-- The address that `_print_paragraph` prints next. -/
def nextUrl (s e : Nat) : Option (Option Nat) := do
  match ← memstr text httpString s e with
  | some url => some (some url)
  | none => memstr text httpsString s e

/-- The loop of `_print_paragraph`. -/
def printParagraphLoop (e : Nat) (option : Int32) : Nat → Nat → AnsiColor → Option Output
  | 0, _, _ => none
  | fuel + 1, s, ansi =>
    if s = e then some []
    else do
      match ← nextUrl text s e with
      | none =>
        let (out, _) ← printAnsiText text page s e ansi
        some out
      | some url =>
        let (before, ansi) ← printAnsiText text page s url ansi
        let (link, next) ← printUrl page text url e option
        let rest ← printParagraphLoop e option fuel next ansi
        some (before ++ link ++ rest)

/-- `_print_paragraph`. -/
def printParagraph (s e : Nat) (option : Int32) : Option Output :=
  printParagraphLoop page text e option (text.length + 1) s .plain

/-- `_is_quote`. -/
def isQuote (s e : Nat) : Option Bool := do
  let colon ← beginWith text s e [58, 32]
  let quote ← beginWith text s e quoteString
  some (colon || quote)

def lineOption (option : Int32) (inSignature inQuote : Bool) : Int32 :=
  let option := if !inQuote then option &&& ~~~parseNoquoteimg else option
  if !inSignature then option &&& ~~~parseNosigimg else option

/-- Whether a line is printed as a break. -/
def isBlankLine (s e : Nat) : Option Bool :=
  if e = s + 1 then some true
  else if e = s + 2 then text[s]?.map fun c => c == 13
  else some false

def printLine (s e : Nat) (option : Int32) (inSignature inQuote : Bool) : Option Output := do
  if ← isBlankLine text s e then
    some (lit ['<', 'p', '>'] ++ lit ['<', 'b', 'r', '/', '>'] ++ lit ['<', '/', 'p', '>'])
  else
    let content ← printParagraph page text s e (lineOption option inSignature inQuote)
    some (lit ['<', 'p', '>'] ++ content ++ lit ['<', '/', 'p', '>'])

/-- Whether a line before the signature begins it. -/
def isSeparator (s e : Nat) (inSignature : Bool) : Option Bool :=
  if !inSignature && e = s + 3 then (read text s e).map fun bytes => bytes == [45, 45, 10]
  else some false

/-- Whether a line is printed in a quote. -/
def nowInQuote (s e : Nat) (inSignature inQuote : Bool) : Option Bool :=
  if inSignature then some inQuote else isQuote text s e

/-- The end of one paragraph and the begin of another. -/
def switchTo (mark : Char) : Output :=
  lit ['<', '/', 'p', 'a', '>', '<', 'p', 'a', ' ', 'm', '=', '\'', mark, '\'', '>']

/-- The loop of `_print_body`. -/
def printBodyLoop (e : Nat) (option : Int32) :
    Nat → Nat → Bool → Bool → Option Output
  | 0, _, _, _ => none
  | fuel + 1, s, inSignature, inQuote =>
    if s = e then some []
    else do
      let line ← getLineEnd text s e
      if ← isSeparator text s line inSignature then
        if option &&& parseNosig ≠ 0 then some []
        else
          let rest ← printBodyLoop e option fuel line true false
          some (switchTo 's' ++ lit ['<', 'p', '>', '-', '-', '<', '/', 'p', '>'] ++ rest)
      else
        let quote ← nowInQuote text s line inSignature inQuote
        let switch := if quote = inQuote then [] else switchTo (if inQuote then 't' else 'q')
        let paragraph ← printLine page text s line option inSignature quote
        let rest ← printBodyLoop e option fuel line inSignature quote
        some (switch ++ paragraph ++ rest)

/-- `_print_body`. -/
def printBody (s e : Nat) (option : Int32) : Option Output :=
  (printBodyLoop page text e option (text.length + 1) s false false).map fun out =>
    lit ['<', 'p', 'a', ' ', 'm', '=', '\'', 't', '\'', '>'] ++ out ++
      lit ['<', '/', 'p', 'a', '>']

/-- `xml_print_post`. -/
def xmlPrintPost (option : Int32) : Option Output := do
  let (header, position) ← printHeader page text
  let start := if position ≠ 0 then position + 1 else position
  let body ← printBody page text start text.length option
  some (header ++ body)

end Body

end PostMarkup

end Fbbs
