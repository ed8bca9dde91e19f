import Fbbs.DecimalText
import Fbbs.Utf8Text

/-!
# Reading XML documents

Elements with attributes and text, and the reading of an XML document.  Bytes that are
read as they are, in text and in the value of an attribute, are plain.

The reader knows elements, character data, references and the normalization of line
ends and attribute values.  Comments, processing instructions, sections of character
data and document types are refused.
-/

namespace XmlText

open DecimalText (isSpace skipSpace hexValue)

abbrev Bytes := List UInt8

/-- Text and elements in turn: the text before an element, the element, and what follows. -/
inductive Content
  | text (run : Bytes)
  | element (before name : Bytes) (attributes : List (Bytes × Bytes)) (inner after : Content)
  deriving DecidableEq

/-- The root of a document. -/
structure Element where
  name : Bytes
  attributes : List (Bytes × Bytes)
  inner : Content
  deriving DecidableEq

/-! ## Characters and names -/

/-- The production `Char`. -/
def isXmlChar (c : Char) : Bool :=
  let n := c.toNat
  n == 9 || n == 10 || n == 13 || (0x20 ≤ n && n ≤ 0xd7ff) || (0xe000 ≤ n && n ≤ 0xfffd) ||
    (0x10000 ≤ n && n ≤ 0x10ffff)

def isLetter (n : Nat) : Bool :=
  (65 ≤ n && n ≤ 90) || (97 ≤ n && n ≤ 122)

/-- The production `NameStartChar`. -/
def isNameStart (c : Char) : Bool :=
  let n := c.toNat
  n == 58 || n == 95 || isLetter n || (0xc0 ≤ n && n ≤ 0xd6) || (0xd8 ≤ n && n ≤ 0xf6) ||
    (0xf8 ≤ n && n ≤ 0x2ff) || (0x370 ≤ n && n ≤ 0x37d) || (0x37f ≤ n && n ≤ 0x1fff) ||
    (0x200c ≤ n && n ≤ 0x200d) || (0x2070 ≤ n && n ≤ 0x218f) || (0x2c00 ≤ n && n ≤ 0x2fef) ||
    (0x3001 ≤ n && n ≤ 0xd7ff) || (0xf900 ≤ n && n ≤ 0xfdcf) || (0xfdf0 ≤ n && n ≤ 0xfffd) ||
    (0x10000 ≤ n && n ≤ 0xeffff)

/-- The production `NameChar`. -/
def isNameChar (c : Char) : Bool :=
  let n := c.toNat
  isNameStart c || n == 45 || n == 46 || (48 ≤ n && n ≤ 57) || n == 0xb7 ||
    (0x300 ≤ n && n ≤ 0x36f) || (0x203f ≤ n && n ≤ 0x2040)

/-- The production `Name`. -/
def isName (name : Bytes) : Bool :=
  match Utf8Text.decode name with
  | some (c :: chars) => isNameStart c && chars.all isNameChar
  | _ => false

def isNameByte (c : UInt8) : Bool :=
  128 ≤ c || isNameChar (Char.ofNat c.toNat)

/-! ## Reading -/

def readName (text : Bytes) : Option (Bytes × Bytes) :=
  let name := text.takeWhile isNameByte
  if isName name then some (name, text.dropWhile isNameByte) else none

/-- The number of a character reference. -/
def readNumber (base : Nat) (digits : Bytes) : Option Nat :=
  digits.foldlM (fun sum c =>
    match hexValue c with
    | some digit => if digit < base then some (base * sum + digit) else none
    | none => none) 0

def characterBytes (number : Nat) : Option Bytes :=
  if number.isValidChar && isXmlChar (Char.ofNat number) then
    some (Utf8Text.encode [Char.ofNat number])
  else none

def referenceBytes (name : Bytes) : Option Bytes :=
  if name = [108, 116] then some [60]
  else if name = [103, 116] then some [62]
  else if name = [97, 109, 112] then some [38]
  else if name = [97, 112, 111, 115] then some [39]
  else if name = [113, 117, 111, 116] then some [34]
  else
    match name with
    | [] => none
    | c :: digits =>
      if c ≠ 35 ∨ digits = [] then none
      else if digits.head? = some 120 then
        if digits.tail = [] then none
        else (readNumber 16 digits.tail).bind characterBytes
      else (readNumber 10 digits).bind characterBytes

/-- A reference after its ampersand. -/
def readReference (text : Bytes) : Option (Bytes × Bytes) :=
  let name := text.takeWhile (· != 59)
  match text.dropWhile (· != 59) with
  | [] => none
  | _ :: rest => (referenceBytes name).map fun bytes => (bytes, rest)

/-- The normalization of line ends, and of blanks in the value of an attribute. -/
def normalized (inValue : Bool) (c : UInt8) : UInt8 :=
  if inValue then if c = 9 ∨ c = 10 ∨ c = 13 then 32 else c
  else if c = 13 then 10 else c

/-- What is left behind a character; a line end may have two. -/
def behind (c : UInt8) (rest : Bytes) : Bytes :=
  if c = 13 ∧ rest.head? = some 10 then rest.tail else rest

/-- The end of a section, which may not stand in text. -/
def closesSection (text : Bytes) : Bool :=
  [93, 93, 62].isPrefixOf text

/-- Characters and references up to a byte that ends them. -/
def readCharacters (ends : UInt8 → Bool) (inValue : Bool) : Nat → Bytes → Option (Bytes × Bytes)
  | 0, _ => none
  | _ + 1, [] => some ([], [])
  | fuel + 1, c :: rest =>
    if ends c then some ([], c :: rest)
    else if c = 38 then do
      let (bytes, rest) ← readReference rest
      let (more, rest) ← readCharacters ends inValue fuel rest
      some (bytes ++ more, rest)
    else if !inValue && closesSection (c :: rest) then none
    else do
      let (more, rest) ← readCharacters ends inValue fuel (behind c rest)
      some (normalized inValue c :: more, rest)

def endsText (c : UInt8) : Bool :=
  c == 60

def endsValue (quote c : UInt8) : Bool :=
  c == quote || c == 60

def readText (text : Bytes) : Option (Bytes × Bytes) :=
  readCharacters endsText false (text.length + 1) text

/-- The value of an attribute, in one of the two quotes. -/
def readValue : Bytes → Option (Bytes × Bytes)
  | [] => none
  | quote :: text =>
    if quote = 39 ∨ quote = 34 then do
      let (value, rest) ← readCharacters (endsValue quote) true (text.length + 1) text
      match rest with
      | [] => none
      | c :: rest => if c = quote then some (value, rest) else none
    else none

/-- A byte that has to come next. -/
def readByte (expected : UInt8) : Bytes → Option Bytes
  | [] => none
  | c :: rest => if c = expected then some rest else none

def readAttribute (text : Bytes) : Option ((Bytes × Bytes) × Bytes) := do
  let (name, rest) ← readName text
  let rest ← readByte 61 (skipSpace rest)
  let (value, rest) ← readValue (skipSpace rest)
  some ((name, value), rest)

/-- The attributes of a tag, which have different names. -/
def readAttributes : Nat → Bytes → Option (List (Bytes × Bytes) × Bytes)
  | 0, _ => none
  | fuel + 1, text =>
    let next := skipSpace text
    if next.head? = some 47 ∨ next.head? = some 62 then some ([], next)
    else if next = text then none
    else do
      let (first, rest) ← readAttribute next
      let (more, rest) ← readAttributes fuel rest
      if first.1 ∈ more.map Prod.fst then none else some (first :: more, rest)

def readEnd (name text : Bytes) : Option Bytes := do
  let rest ← readByte 60 text
  let rest ← readByte 47 rest
  let (found, rest) ← readName rest
  if found = name then readByte 62 (skipSpace rest) else none

def readContent : Nat → Bytes → Option (Content × Bytes)
  | 0, _ => none
  | fuel + 1, text => do
    let (before, rest) ← readText text
    if rest = [] ∨ rest.tail.head? = some 47 then some (.text before, rest)
    else do
      let (name, rest) ← readName rest.tail
      let (attributes, rest) ← readAttributes (rest.length + 1) rest
      if rest.head? = some 47 then do
        let rest ← readByte 62 rest.tail
        let (after, rest) ← readContent fuel rest
        some (.element before name attributes (.text []) after, rest)
      else do
        let rest ← readByte 62 rest
        let (inner, rest) ← readContent fuel rest
        let rest ← readEnd name rest
        let (after, rest) ← readContent fuel rest
        some (.element before name attributes inner after, rest)

/-- What is left behind the XML declaration. -/
def readDeclaration : Bytes → Option Bytes
  | [] => none
  | c :: rest =>
    if c = 63 ∧ rest.head? = some 62 then some rest.tail else readDeclaration rest

/-- The only element of a document. -/
def readRoot (body : Bytes) : Option Element :=
  match readContent (body.length + 1) (skipSpace body) with
  | some (.element [] name attributes inner (.text spaces), []) =>
    if skipSpace spaces = [] then some ⟨name, attributes, inner⟩ else none
  | _ => none

/-- The root of a document with an XML declaration. -/
def parse (text : Bytes) : Option Element :=
  if Utf8Text.isText isXmlChar text && [60, 63, 120, 109, 108].isPrefixOf text then
    (readDeclaration text).bind readRoot
  else none

/-! ## Names -/

theorem isNameByte_of_mem {chars : List Char} (isName : ∀ c ∈ chars, isNameChar c = true)
    {byte : UInt8} (member : byte ∈ Utf8Text.encode chars) : isNameByte byte = true := by
  obtain ⟨c, inside, here⟩ := List.mem_flatMap.mp member
  rw [isNameByte, Bool.or_eq_true]
  by_cases low : c.toNat < 128
  · rw [Utf8Text.encodeChar_of_lt low, List.mem_singleton] at here
    have number : byte.toNat = c.toNat := by
      rw [here, UInt8.toNat_ofNat', Nat.mod_eq_of_lt (by omega)]
    right
    rw [number, Char.ofNat_toNat]
    exact isName c inside
  · left
    rw [decide_eq_true_eq]
    exact Utf8Text.le_of_mem_encodeChar (Nat.le_of_not_lt low) byte here

theorem isName_iff {name : Bytes} :
    isName name = true ↔ ∃ c chars, name = Utf8Text.encode (c :: chars) ∧ isNameStart c = true ∧
      ∀ c ∈ chars, isNameChar c = true := by
  unfold isName
  constructor
  · intro isName
    split at isName
    · rename_i c chars decoded
      rw [Bool.and_eq_true, List.all_eq_true] at isName
      exact ⟨c, chars, Utf8Text.decode_eq_some_iff.mp decoded, isName.1, isName.2⟩
    · cases isName
  · rintro ⟨c, chars, rfl, start, others⟩
    rw [Utf8Text.decode_encode]
    simp only [start, Bool.true_and]
    exact List.all_eq_true.mpr others

theorem isNameChar_of_isNameStart {c : Char} (start : isNameStart c = true) :
    isNameChar c = true := by
  simp [isNameChar, start]

theorem isNameByte_of_isName {name : Bytes} (name_ok : isName name = true) :
    ∀ c ∈ name, isNameByte c = true := by
  obtain ⟨c, chars, rfl, start, others⟩ := isName_iff.mp name_ok
  intro byte member
  refine isNameByte_of_mem ?_ member
  exact List.forall_mem_cons.mpr ⟨isNameChar_of_isNameStart start, others⟩

/-- What may stand behind a name. -/
def StopsName (text : Bytes) : Prop :=
  ∀ c ∈ text.head?, isNameByte c = false

theorem readName_append {name rest : Bytes} (valid : isName name = true) (stops : StopsName rest) :
    readName (name ++ rest) = some (name, rest) := by
  have inside := isNameByte_of_isName valid
  have taken : rest.takeWhile isNameByte = [] := by
    cases rest with
    | nil => rfl
    | cons c rest => simp [stops c rfl]
  have left : rest.dropWhile isNameByte = rest := by
    cases rest with
    | nil => rfl
    | cons c rest => simp [stops c rfl]
  rw [readName, List.takeWhile_append_of_pos inside, List.dropWhile_append_of_pos inside, taken,
    left, List.append_nil]
  simp [valid]

/-! ## References -/

def isReferenceByte (c : UInt8) : Bool :=
  c == 35 || (48 ≤ c && c ≤ 57) || (65 ≤ c && c ≤ 90) || (97 ≤ c && c ≤ 122)

theorem isReferenceByte_of_hexValue {c : UInt8} {n : Nat} (digit : hexValue c = some n) :
    isReferenceByte c = true := by
  unfold hexValue at digit
  grind [isReferenceByte]

theorem isReferenceByte_of_foldlM {base sum number : Nat} {digits : Bytes}
    (read : digits.foldlM (fun sum c =>
      match hexValue c with
      | some digit => if digit < base then some (base * sum + digit) else none
      | none => none) sum = some number) : ∀ c ∈ digits, isReferenceByte c = true := by
  induction digits generalizing sum with
  | nil => simp
  | cons c digits ih =>
    rw [List.foldlM_cons, Option.bind_eq_bind, Option.bind_eq_some_iff] at read
    obtain ⟨next, first, more⟩ := read
    split at first
    · rename_i digit found
      exact List.forall_mem_cons.mpr ⟨isReferenceByte_of_hexValue found, ih more⟩
    · cases first

theorem length_encode_le (c : Char) : (Utf8Text.encode [c]).length ≤ 4 := by
  rw [Utf8Text.encode, List.flatMap_singleton, String.length_utf8EncodeChar]
  exact Char.utf8Size_le_four c

theorem characterBytes_length {number : Nat} {bytes : Bytes}
    (found : characterBytes number = some bytes) : bytes.length ≤ 4 := by
  unfold characterBytes at found
  split at found
  · rw [← Option.some.inj found]
    exact length_encode_le _
  · cases found

theorem characterBytes_digit {c : UInt8} {bytes : Bytes}
    (found : (readNumber 10 [c]).bind characterBytes = some bytes) : bytes.length = 1 := by
  obtain ⟨number, read, character⟩ := Option.bind_eq_some_iff.mp found
  have small : number < 10 := by
    simp only [readNumber, List.foldlM_cons, List.foldlM_nil] at read
    grind
  unfold characterBytes at character
  split at character
  · have low : (Char.ofNat number).toNat < 128 := by
      have valid : number.isValidChar := .inl (by omega)
      rw [Char.ofNat, dif_pos valid]
      exact Nat.lt_trans small (by decide)
    rw [← Option.some.inj character, Utf8Text.encode, List.flatMap_singleton,
      Utf8Text.encodeChar_of_lt low]
    rfl
  · cases character

theorem referenceBytes_number {base : Nat} {digits bytes : Bytes}
    (found : (readNumber base digits).bind characterBytes = some bytes) :
    bytes.length ≤ 4 ∧ ∀ c ∈ digits, isReferenceByte c = true := by
  obtain ⟨number, read, character⟩ := Option.bind_eq_some_iff.mp found
  exact ⟨characterBytes_length character, isReferenceByte_of_foldlM read⟩

theorem referenceBytes_spec {name bytes : Bytes} (found : referenceBytes name = some bytes) :
    bytes.length < name.length + 2 ∧ ∀ c ∈ name, isReferenceByte c = true := by
  unfold referenceBytes at found
  split_ifs at found with lt gt amp apos quot
  · obtain rfl := Option.some.inj found
    rw [lt]
    exact ⟨by decide, List.all_eq_true.mp (by decide)⟩
  · obtain rfl := Option.some.inj found
    rw [gt]
    exact ⟨by decide, List.all_eq_true.mp (by decide)⟩
  · obtain rfl := Option.some.inj found
    rw [amp]
    exact ⟨by decide, List.all_eq_true.mp (by decide)⟩
  · obtain rfl := Option.some.inj found
    rw [apos]
    exact ⟨by decide, List.all_eq_true.mp (by decide)⟩
  · obtain rfl := Option.some.inj found
    rw [quot]
    exact ⟨by decide, List.all_eq_true.mp (by decide)⟩
  · cases name with
    | nil => cases found
    | cons c digits =>
      simp only at found
      split_ifs at found with wrong hex empty
      · rw [not_or, not_not] at wrong
        obtain ⟨others, rfl⟩ := List.head?_eq_some_iff.mp hex
        obtain ⟨short, inside⟩ := referenceBytes_number found
        have nonempty := List.length_pos_iff.mpr empty
        simp only [List.tail_cons, List.length_cons, List.forall_mem_cons] at *
        refine ⟨by omega, by rw [wrong.1]; decide, by decide, inside⟩
      · rw [not_or, not_not] at wrong
        obtain ⟨short, inside⟩ := referenceBytes_number found
        refine ⟨?_, List.forall_mem_cons.mpr ⟨by rw [wrong.1]; decide, inside⟩⟩
        match digits, wrong.2, found with
        | [], nonempty, _ => exact absurd rfl nonempty
        | [digit], _, found =>
          rw [characterBytes_digit found]
          simp
        | _ :: _ :: others, _, _ =>
          simp only [List.length_cons]
          omega

theorem readReference_spec {text bytes rest : Bytes}
    (read : readReference text = some (bytes, rest)) :
    ∃ name, text = name ++ 59 :: rest ∧ bytes.length < name.length + 2 ∧
      ∀ c ∈ name, isReferenceByte c = true := by
  unfold readReference at read
  simp only at read
  split at read
  · cases read
  · rename_i c after split
    obtain ⟨found, reference, same⟩ := Option.map_eq_some_iff.mp read
    obtain ⟨rfl, rfl⟩ := Prod.mk.inj same
    have semicolon : c = 59 := by
      have head := List.head?_dropWhile_not (fun c : UInt8 => c != 59) text
      rw [split] at head
      simpa using head
    refine ⟨text.takeWhile (· != 59), ?_, referenceBytes_spec reference⟩
    rw [semicolon] at split
    rw [← split, List.takeWhile_append_dropWhile]

/-! ## Text and values as they are -/

/-- Bytes that are read as they are. -/
def isPlain (ends : UInt8 → Bool) (inValue : Bool) : Bytes → Bool
  | [] => true
  | c :: rest =>
    !ends c && c != 38 && (inValue || !closesSection (c :: rest)) && normalized inValue c == c &&
      isPlain ends inValue rest

section Characters

variable {ends : UInt8 → Bool} {inValue : Bool}

theorem isPlain_cons {c : UInt8} {rest : Bytes} :
    isPlain ends inValue (c :: rest) = true ↔
      ends c = false ∧ c ≠ 38 ∧ (inValue = true ∨ closesSection (c :: rest) = false) ∧
        normalized inValue c = c ∧ isPlain ends inValue rest = true := by
  simp [isPlain, and_assoc]

theorem closesSection_append_right {text : Bytes} (closes : closesSection text = true)
    (rest : Bytes) : closesSection (text ++ rest) = true := by
  rw [closesSection, List.isPrefixOf_iff_prefix] at closes ⊢
  exact closes.trans (List.prefix_append text rest)

/-- A section does not end across a byte that ends text. -/
theorem closesSection_of_append {text rest : Bytes}
    (stops : ∀ c ∈ rest.head?, c ≠ 93 ∧ c ≠ 62)
    (closes : closesSection (text ++ rest) = true) : closesSection text = true := by
  match text, rest with
  | [], [] => exact closes
  | [_], [] => exact closes
  | [_, _], [] => exact closes
  | [], d :: rest =>
    have head := stops d rfl
    simp [closesSection, head.1.symm] at closes
  | [_], d :: rest =>
    have head := stops d rfl
    simp [closesSection, head.1.symm] at closes
  | [_, _], d :: rest =>
    have head := stops d rfl
    simp [closesSection, head.2.symm] at closes
  | _ :: _ :: _ :: _, _ => simpa [closesSection] using closes

theorem behind_of_normalized {c : UInt8} (same : normalized inValue c = c) (rest : Bytes) :
    behind c rest = rest := by
  have other : c ≠ 13 := by
    rintro rfl
    cases inValue <;> cases same
  simp [behind, other]

/-- Plain bytes are read up to the end of the run. -/
theorem readCharacters_of_isPlain (special : ∀ c, ends c = true → c ≠ 93 ∧ c ≠ 62)
    {run rest : Bytes} (plain : isPlain ends inValue run = true)
    (stops : ∀ c ∈ rest.head?, ends c = true) {fuel : Nat} (enough : run.length < fuel) :
    readCharacters ends inValue fuel (run ++ rest) = some (run, rest) := by
  induction run generalizing fuel with
  | nil =>
    obtain ⟨fuel, rfl⟩ := Nat.exists_eq_add_one.mpr enough
    cases rest with
    | nil => rfl
    | cons c rest => simp [readCharacters, stops c rfl]
  | cons c run ih =>
    obtain ⟨fuel, rfl⟩ := Nat.exists_eq_add_one.mpr (Nat.zero_lt_of_lt enough)
    obtain ⟨other, ampersand, section_ok, same, more⟩ := isPlain_cons.mp plain
    have noClose : ¬(!inValue && closesSection (c :: (run ++ rest))) = true := by
      rcases section_ok with value | open'
      · simp [value]
      · intro closes
        rw [Bool.and_eq_true, ← List.cons_append] at closes
        have inside := closesSection_of_append
          (fun c first => special c (stops c first)) closes.2
        rw [open'] at inside
        cases inside
    rw [List.length_cons] at enough
    rw [List.cons_append, readCharacters, if_neg (by simp [other]), if_neg ampersand,
      if_neg noClose, behind_of_normalized same, ih more (by omega), same]
    rfl

/-- What is read has at most as many bytes as are consumed, and if it is what was
consumed then it is plain. -/
def Consumes (ends : UInt8 → Bool) (inValue : Bool) (text out rest : Bytes) : Prop :=
  ∃ consumed, text = consumed ++ rest ∧ (∀ c ∈ consumed, ends c = false) ∧
    out.length ≤ consumed.length ∧ (out = consumed → isPlain ends inValue consumed = true)

theorem Consumes.nil (rest : Bytes) : Consumes ends inValue rest [] rest :=
  ⟨[], rfl, by simp, by simp, fun _ => rfl⟩

/-- A reference has more bytes than what it stands for. -/
theorem Consumes.reference (special : ∀ c, ends c = true → c = 60 ∨ c = 39 ∨ c = 34)
    {text bytes behind out rest : Bytes} (read : readReference text = some (bytes, behind))
    (more : Consumes ends inValue behind out rest) :
    Consumes ends inValue (38 :: text) (bytes ++ out) rest := by
  obtain ⟨name, rfl, shorter, inside⟩ := readReference_spec read
  obtain ⟨consumed, rfl, noEnd, short, -⟩ := more
  have other : ∀ d, isReferenceByte d = true ∨ d = 38 ∨ d = 59 → ends d = false := by
    intro d isByte
    by_contra isEnd
    rcases special d (by simpa using isEnd) with rfl | rfl | rfl <;> revert isByte <;> decide
  refine ⟨38 :: (name ++ 59 :: consumed), by simp, ?_, ?_, ?_⟩
  · rw [List.forall_mem_cons, List.forall_mem_append, List.forall_mem_cons]
    exact ⟨other 38 (by simp), fun d member => other d (.inl (inside d member)),
      other 59 (by simp), noEnd⟩
  · simp only [List.length_append, List.length_cons]
    omega
  · intro same
    have length := congrArg List.length same
    simp only [List.length_append, List.length_cons] at length
    omega

/-- A line end of two bytes becomes one. -/
theorem Consumes.line (special : ∀ c, ends c = true → c = 60 ∨ c = 39 ∨ c = 34) {c d : UInt8}
    {text out rest : Bytes} (isEnd : ends c = false) (more : Consumes ends inValue text out rest) :
    Consumes ends inValue (c :: 10 :: text) (d :: out) rest := by
  obtain ⟨consumed, rfl, noEnd, short, -⟩ := more
  have newline : ends 10 = false := by
    by_contra isEnd
    rcases special 10 (by simpa using isEnd) with bad | bad | bad <;> cases bad
  refine ⟨c :: 10 :: consumed, rfl, ?_, ?_, ?_⟩
  · rw [List.forall_mem_cons, List.forall_mem_cons]
    exact ⟨isEnd, newline, noEnd⟩
  · simp only [List.length_cons]
    omega
  · intro same
    have length := congrArg List.length same
    simp only [List.length_cons] at length
    omega

/-- Any other byte becomes one byte. -/
theorem Consumes.byte {c : UInt8} {text out rest : Bytes} (isEnd : ends c = false)
    (ampersand : c ≠ 38) (closes : (!inValue && closesSection (c :: text)) = false)
    (more : Consumes ends inValue text out rest) :
    Consumes ends inValue (c :: text) (normalized inValue c :: out) rest := by
  obtain ⟨consumed, rfl, noEnd, short, plain⟩ := more
  refine ⟨c :: consumed, rfl, List.forall_mem_cons.mpr ⟨isEnd, noEnd⟩, ?_, ?_⟩
  · simp only [List.length_cons]
    omega
  · intro same
    obtain ⟨kept, rfl⟩ := List.cons.inj same
    refine isPlain_cons.mpr ⟨isEnd, ampersand, ?_, kept, plain rfl⟩
    cases inValue with
    | true => exact .inl rfl
    | false =>
      right
      by_contra inside
      have across := closesSection_append_right (by simpa using inside) rest
      rw [List.cons_append] at across
      rw [across] at closes
      cases closes

theorem readCharacters_spec (special : ∀ c, ends c = true → c = 60 ∨ c = 39 ∨ c = 34)
    {fuel : Nat} {text out rest : Bytes}
    (read : readCharacters ends inValue fuel text = some (out, rest)) :
    Consumes ends inValue text out rest := by
  induction fuel generalizing text out with
  | zero => cases read
  | succ fuel ih =>
    cases text with
    | nil =>
      obtain ⟨rfl, rfl⟩ := Prod.mk.inj (Option.some.inj read)
      exact .nil []
    | cons c text =>
      rw [readCharacters] at read
      split_ifs at read with isEnd ampersand closes
      · obtain ⟨rfl, rfl⟩ := Prod.mk.inj (Option.some.inj read)
        exact .nil _
      · simp only [Option.bind_eq_bind, Option.bind_eq_some_iff, Prod.exists] at read
        obtain ⟨bytes, behind, reference, more, left, others, same⟩ := read
        obtain ⟨rfl, rfl⟩ := Prod.mk.inj (Option.some.inj same)
        rw [ampersand]
        exact .reference special reference (ih others)
      · simp only [Option.bind_eq_bind, Option.bind_eq_some_iff, Prod.exists] at read
        obtain ⟨more, left, others, same⟩ := read
        obtain ⟨rfl, rfl⟩ := Prod.mk.inj (Option.some.inj same)
        rw [Bool.not_eq_true] at isEnd closes
        rw [behind] at others
        split_ifs at others with line
        · obtain ⟨after, rfl⟩ := List.head?_eq_some_iff.mp line.2
          exact .line special isEnd (ih others)
        · exact .byte isEnd ampersand closes (ih others)

theorem isPlain_of_readCharacters (special : ∀ c, ends c = true → c = 60 ∨ c = 39 ∨ c = 34)
    {fuel : Nat} {run rest left : Bytes} (stops : ∀ c ∈ rest.head?, ends c = true)
    (read : readCharacters ends inValue fuel (run ++ rest) = some (run, left)) :
    isPlain ends inValue run = true := by
  obtain ⟨consumed, split, noEnd, short, plain⟩ := readCharacters_spec special read
  -- A byte more would be the one that ends the run.
  rcases List.append_eq_append_iff.mp split with ⟨more, rfl, restEq⟩ | ⟨more, runEq, -⟩
  · cases more with
    | nil =>
      rw [List.append_nil] at plain
      exact plain rfl
    | cons c more =>
      have isEnd := stops c (by rw [restEq]; rfl)
      have other := noEnd c (by simp)
      rw [other] at isEnd
      cases isEnd
  · have length := congrArg List.length runEq
    rw [List.length_append] at length
    have empty : more = [] := List.length_eq_zero_iff.mp (by omega)
    rw [empty, List.append_nil] at runEq
    rw [runEq]
    exact plain runEq

end Characters

end XmlText
