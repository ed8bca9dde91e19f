import Fbbs.DecimalText
import Fbbs.Utf8Text

/-!
# JSON texts

JSON values, their compact texts, and the decoding of any JSON text.  Decoding the text
of a value gives the value back, with the order of members and the bytes of strings.
-/

namespace JsonText

open DecimalText

abbrev Bytes := List UInt8

/-- A JSON value.  A number is its mantissa and its power of ten. -/
inductive Json
  | null
  | bool (value : Bool)
  | number (mantissa exponent : Int)
  | string (value : Bytes)
  | array (items : List Json)
  | object (members : List (Bytes × Json))

/-! ## Strings -/

def hexDigit (n : Nat) : UInt8 :=
  if n < 10 then UInt8.ofNat (48 + n) else UInt8.ofNat (87 + n)

/-- The number of four hexadecimal digits. -/
def readHex : Bytes → Option (Nat × Bytes)
  | a :: b :: c :: d :: rest => do
    let a ← hexValue a
    let b ← hexValue b
    let c ← hexValue c
    let d ← hexValue d
    some (((a * 16 + b) * 16 + c) * 16 + d, rest)
  | _ => none

/-- The character after a `\u`, which may be a pair of surrogates. -/
def readUnicode (text : Bytes) : Option (Bytes × Bytes) := do
  let (unit, rest) ← readHex text
  if 0xd800 ≤ unit ∧ unit < 0xdc00 then
    match rest with
    | 92 :: 117 :: rest => do
      let (low, rest) ← readHex rest
      if 0xdc00 ≤ low ∧ low < 0xe000 then
        some (Utf8Text.encode [Char.ofNat
          (0x10000 + (unit - 0xd800) * 0x400 + (low - 0xdc00))], rest)
      else none
    | _ => none
  else if 0xdc00 ≤ unit ∧ unit < 0xe000 then none
  else some (Utf8Text.encode [Char.ofNat unit], rest)

/-- The character after a backslash. -/
def readEscape : Bytes → Option (Bytes × Bytes)
  | [] => none
  | c :: rest =>
    if c = 34 ∨ c = 92 ∨ c = 47 then some ([c], rest)
    else if c = 98 then some ([8], rest)
    else if c = 102 then some ([12], rest)
    else if c = 110 then some ([10], rest)
    else if c = 114 then some ([13], rest)
    else if c = 116 then some ([9], rest)
    else if c = 117 then readUnicode rest
    else none

/-- A string after its opening quote. -/
def readString : Nat → Bytes → Option (Bytes × Bytes)
  | 0, _ => none
  | _ + 1, [] => none
  | fuel + 1, c :: rest =>
    if c = 34 then some ([], rest)
    else if c = 92 then do
      let (bytes, rest) ← readEscape rest
      let (more, rest) ← readString fuel rest
      some (bytes ++ more, rest)
    else if c < 32 then none
    else do
      let (more, rest) ← readString fuel rest
      some (c :: more, rest)

/-! ## Numbers -/

def readSign : Bytes → Bool × Bytes
  | [] => (false, [])
  | c :: rest => if c = 45 then (true, rest) else (false, c :: rest)

/-- A sign that may be a plus. -/
def readPlus : Bytes → Bool × Bytes
  | [] => (false, [])
  | c :: rest => if c = 43 then (false, rest) else readSign (c :: rest)

def signed (negative : Bool) (n : Nat) : Int :=
  if negative then -n else n

/-- The digits after a point, if there is one. -/
def readFraction : Bytes → Option (Bytes × Bytes)
  | [] => some ([], [])
  | c :: rest =>
    if c = 46 then
      let digits := rest.takeWhile isDigit
      if digits = [] then none else some (digits, rest.dropWhile isDigit)
    else some ([], c :: rest)

def readExponent : Bytes → Option (Int × Bytes)
  | [] => some (0, [])
  | c :: rest =>
    if c = 101 ∨ c = 69 then
      let (negative, rest) := readPlus rest
      let digits := rest.takeWhile isDigit
      if digits = [] then none
      else some (signed negative (value digits), rest.dropWhile isDigit)
    else some (0, c :: rest)

/-- A number; its integer part has no leading zero. -/
def readNumber (text : Bytes) : Option (Json × Bytes) := do
  let (negative, text) := readSign text
  let digits := text.takeWhile isDigit
  if digits = [] ∨ digits.head? = some 48 ∧ digits.length ≠ 1 then none
  else do
    let (fraction, rest) ← readFraction (text.dropWhile isDigit)
    let (exponent, rest) ← readExponent rest
    some (.number (signed negative (value (digits ++ fraction)))
      (exponent - fraction.length), rest)

/-! ## Values -/

/-- A literal name. -/
def readWord (word : Bytes) (json : Json) (text : Bytes) : Option (Json × Bytes) :=
  if word.isPrefixOf text then some (json, text.drop word.length) else none

mutual

def readValue : Nat → Bytes → Option (Json × Bytes)
  | 0, _ => none
  | fuel + 1, text =>
    match skipSpace text with
    | [] => none
    | c :: rest =>
      if c = 34 then do
        let (bytes, rest) ← readString (rest.length + 1) rest
        some (.string bytes, rest)
      else if c = 91 then
        match skipSpace rest with
        | [] => none
        | d :: after =>
          if d = 93 then some (.array [], after)
          else do
            let (items, rest) ← readItems fuel (d :: after)
            some (.array items, rest)
      else if c = 123 then
        match skipSpace rest with
        | [] => none
        | d :: after =>
          if d = 125 then some (.object [], after)
          else do
            let (members, rest) ← readMembers fuel (d :: after)
            some (.object members, rest)
      else if c = 110 then readWord [110, 117, 108, 108] .null (c :: rest)
      else if c = 116 then readWord [116, 114, 117, 101] (.bool true) (c :: rest)
      else if c = 102 then readWord [102, 97, 108, 115, 101] (.bool false) (c :: rest)
      else readNumber (c :: rest)

/-- The items of an array that is not empty. -/
def readItems : Nat → Bytes → Option (List Json × Bytes)
  | 0, _ => none
  | fuel + 1, text => do
    let (item, rest) ← readValue fuel text
    match skipSpace rest with
    | [] => none
    | c :: rest =>
      if c = 44 then do
        let (items, rest) ← readItems fuel rest
        some (item :: items, rest)
      else if c = 93 then some ([item], rest)
      else none

/-- The members of an object that is not empty. -/
def readMembers : Nat → Bytes → Option (List (Bytes × Json) × Bytes)
  | 0, _ => none
  | fuel + 1, text =>
    match skipSpace text with
    | [] => none
    | c :: rest =>
      if c = 34 then do
        let (name, rest) ← readString (rest.length + 1) rest
        match skipSpace rest with
        | [] => none
        | c :: rest =>
          if c = 58 then do
            let (json, rest) ← readValue fuel rest
            match skipSpace rest with
            | [] => none
            | c :: rest =>
              if c = 44 then do
                let (members, rest) ← readMembers fuel rest
                some ((name, json) :: members, rest)
              else if c = 125 then some ([(name, json)], rest)
              else none
          else none
      else none

end

/-- The value of a JSON text in UTF-8. -/
def decode (text : Bytes) : Option Json :=
  if Utf8Text.isText (fun _ => true) text then
    match readValue (2 * text.length + 1) text with
    | some (json, rest) => if skipSpace rest = [] then some json else none
    | none => none
  else none

/-! ## Compact texts -/

/-- A byte inside the quotes of a string. -/
def escapeByte (c : UInt8) : Bytes :=
  if c = 34 then [92, 34]
  else if c = 92 then [92, 92]
  else if c < 32 then [92, 117, 48, 48, hexDigit (c.toNat / 16), hexDigit (c.toNat % 16)]
  else [c]

def exponentText (exponent : Int) : Bytes :=
  if exponent = 0 then [] else 101 :: ofInt exponent

def quoted (bytes : Bytes) : Bytes :=
  34 :: bytes.flatMap escapeByte ++ [34]

mutual

/-- The text of a value, without spaces. -/
def text : Json → Bytes
  | .null => [110, 117, 108, 108]
  | .bool true => [116, 114, 117, 101]
  | .bool false => [102, 97, 108, 115, 101]
  | .number mantissa exponent => ofInt mantissa ++ exponentText exponent
  | .string bytes => quoted bytes
  | .array items => 91 :: itemsText items ++ [93]
  | .object members => 123 :: membersText members ++ [125]

def itemsText : List Json → Bytes
  | [] => []
  | item :: items => text item ++ moreItems items

def moreItems : List Json → Bytes
  | [] => []
  | item :: items => 44 :: text item ++ moreItems items

def membersText : List (Bytes × Json) → Bytes
  | [] => []
  | (name, json) :: members => quoted name ++ 58 :: text json ++ moreMembers members

def moreMembers : List (Bytes × Json) → Bytes
  | [] => []
  | (name, json) :: members => 44 :: quoted name ++ 58 :: text json ++ moreMembers members

end

/-! ## Reading strings back -/

theorem hexValue_hexDigit : ∀ n < 16, hexValue (hexDigit n) = some n := by
  decide

theorem hexDigit_lt : ∀ n < 16, hexDigit n < 128 := by
  decide

theorem readEscape_control {c : UInt8} (control : c < 32) (rest : Bytes) :
    readEscape (117 :: 48 :: 48 :: hexDigit (c.toNat / 16) :: hexDigit (c.toNat % 16) :: rest) =
      some ([c], rest) := by
  have small : c.toNat < 32 := control
  have zero : hexValue 48 = some 0 := by decide
  have unit : ((0 * 16 + 0) * 16 + c.toNat / 16) * 16 + c.toNat % 16 = c.toNat := by omega
  have hex : readHex (48 :: 48 :: hexDigit (c.toNat / 16) :: hexDigit (c.toNat % 16) :: rest) =
      some (c.toNat, rest) := by
    simp only [readHex, zero, hexValue_hexDigit _ (by omega : c.toNat / 16 < 16),
      hexValue_hexDigit _ (by omega : c.toNat % 16 < 16), Option.bind_eq_bind, Option.bind_some,
      unit]
  have high : ¬(0xd800 ≤ c.toNat ∧ c.toNat < 0xdc00) := by omega
  have low : ¬(0xdc00 ≤ c.toNat ∧ c.toNat < 0xe000) := by omega
  change readUnicode _ = _
  simp only [readUnicode, hex, Option.bind_eq_bind, Option.bind_some, if_neg high, if_neg low,
    Utf8Text.encode_ofNat (UInt8.lt_trans control (by decide))]

theorem readString_backslash {fuel : Nat} {c : UInt8} {text rest : Bytes}
    (escape : readEscape text = some ([c], rest)) :
    readString (fuel + 1) (92 :: text) =
      (readString fuel rest).map fun read => (c :: read.1, read.2) := by
  rw [readString, if_neg (by decide), if_pos rfl, escape]
  simp only [Option.bind_eq_bind, Option.bind_some]
  cases readString fuel rest <;> rfl

theorem readString_escapeByte (fuel : Nat) (c : UInt8) (text : Bytes) :
    readString (fuel + 1) (escapeByte c ++ text) =
      (readString fuel text).map fun read => (c :: read.1, read.2) := by
  unfold escapeByte
  split
  · rename_i quote
    rw [quote]
    exact readString_backslash rfl
  split
  · rename_i backslash
    rw [backslash]
    exact readString_backslash rfl
  split
  · exact readString_backslash (readEscape_control (by assumption) text)
  · rename_i quote backslash visible
    rw [List.singleton_append, readString, if_neg quote, if_neg backslash, if_neg visible]
    cases readString fuel text <;> rfl

theorem readString_flatMap {fuel : Nat} {bytes : Bytes} (enough : bytes.length < fuel)
    (rest : Bytes) :
    readString fuel (bytes.flatMap escapeByte ++ 34 :: rest) = some (bytes, rest) := by
  induction bytes generalizing fuel with
  | nil =>
    obtain ⟨fuel, rfl⟩ := Nat.exists_eq_add_one.mpr enough
    rfl
  | cons c bytes ih =>
    rw [List.length_cons] at enough
    obtain ⟨fuel, rfl⟩ := Nat.exists_eq_add_one.mpr (Nat.zero_lt_of_lt enough)
    rw [List.flatMap_cons, List.append_assoc, readString_escapeByte, ih (by omega)]
    rfl

theorem length_le_length_flatMap (bytes : Bytes) :
    bytes.length ≤ (bytes.flatMap escapeByte).length := by
  induction bytes with
  | nil => exact Nat.le_refl 0
  | cons c bytes ih =>
    have nonempty : 1 ≤ (escapeByte c).length := by
      unfold escapeByte
      split_ifs <;> simp
    rw [List.flatMap_cons, List.length_append, List.length_cons]
    omega

/-- The fuel that the decoder gives to a string is enough. -/
theorem readString_quoted (bytes rest : Bytes) :
    readString ((bytes.flatMap escapeByte ++ 34 :: rest).length + 1)
      (bytes.flatMap escapeByte ++ 34 :: rest) = some (bytes, rest) := by
  have short := length_le_length_flatMap bytes
  apply readString_flatMap
  rw [List.length_append]
  omega

/-! ## Reading numbers back -/

theorem signed_natAbs (n : Int) : signed (decide (n < 0)) n.natAbs = n := by
  unfold signed
  by_cases negative : n < 0
  · rw [decide_eq_true negative, if_pos rfl]
    omega
  · rw [decide_eq_false negative, if_neg Bool.false_ne_true]
    omega

theorem exists_digits_cons (n : Nat) :
    ∃ c rest, digits n = c :: rest ∧ isDigit c = true := by
  obtain ⟨c, rest, split⟩ := List.exists_cons_of_ne_nil (digits_ne_nil n)
  exact ⟨c, rest, split, isDigit_of_mem_digits (n := n) (by simp [split])⟩

theorem exists_ofInt_cons (n : Int) :
    ∃ c rest, ofInt n = c :: rest ∧ (c = 45 ∨ isDigit c = true) := by
  unfold ofInt
  split
  · exact ⟨45, _, rfl, .inl rfl⟩
  · obtain ⟨c, rest, split, isDigit⟩ := exists_digits_cons n.natAbs
    exact ⟨c, rest, split, .inr isDigit⟩

theorem readSign_ofInt (n : Int) (rest : Bytes) :
    readSign (ofInt n ++ rest) = (decide (n < 0), digits n.natAbs ++ rest) := by
  unfold ofInt
  split
  · rename_i negative
    simp [readSign, negative]
  · rename_i positive
    obtain ⟨c, more, split, isDigit⟩ := exists_digits_cons n.natAbs
    have minus : c ≠ 45 := by
      rintro rfl
      cases isDigit
    rw [List.nil_append, split, List.cons_append, readSign, if_neg minus]
    simp [positive]

theorem readPlus_ofInt (n : Int) (rest : Bytes) :
    readPlus (ofInt n ++ rest) = (decide (n < 0), digits n.natAbs ++ rest) := by
  obtain ⟨c, more, split, isSign⟩ := exists_ofInt_cons n
  have plus : c ≠ 43 := by
    rintro rfl
    rcases isSign with minus | isDigit
    · cases minus
    · cases isDigit
  rw [← readSign_ofInt, split, List.cons_append, readPlus, if_neg plus]

/-- A text whose first byte is not a digit. -/
def StopsDigits (text : Bytes) : Prop :=
  ∀ c ∈ text.head?, isDigit c = false

theorem takeWhile_digits (n : Nat) {rest : Bytes} (stops : StopsDigits rest) :
    (digits n ++ rest).takeWhile isDigit = digits n := by
  rw [List.takeWhile_append_of_pos fun byte => isDigit_of_mem_digits]
  cases rest with
  | nil => simp
  | cons c rest => simp [stops c rfl]

theorem dropWhile_digits (n : Nat) {rest : Bytes} (stops : StopsDigits rest) :
    (digits n ++ rest).dropWhile isDigit = rest := by
  rw [List.dropWhile_append_of_pos fun byte => isDigit_of_mem_digits]
  cases rest with
  | nil => rfl
  | cons c rest => simp [stops c rfl]

/-- What may stand behind a value. -/
def Closes (text : Bytes) : Prop :=
  ∀ c ∈ text.head?, c = 44 ∨ c = 93 ∨ c = 125

theorem Closes.stopsDigits {text : Bytes} (closes : Closes text) : StopsDigits text := by
  intro c first
  rcases closes c first with rfl | rfl | rfl <;> rfl

theorem Closes.readFraction {text : Bytes} (closes : Closes text) :
    readFraction text = some ([], text) := by
  cases text with
  | nil => rfl
  | cons c rest => rcases closes c rfl with rfl | rfl | rfl <;> rfl

theorem Closes.readExponent {text : Bytes} (closes : Closes text) :
    readExponent text = some (0, text) := by
  cases text with
  | nil => rfl
  | cons c rest => rcases closes c rfl with rfl | rfl | rfl <;> rfl

theorem readExponent_exponentText (exponent : Int) {rest : Bytes} (closes : Closes rest) :
    readExponent (exponentText exponent ++ rest) = some (exponent, rest) := by
  unfold exponentText
  split
  · rename_i zero
    rw [zero]
    exact closes.readExponent
  · have some : readExponent (101 :: (ofInt exponent ++ rest)) = some (exponent, rest) := by
      rw [readExponent, if_pos (.inl rfl), readPlus_ofInt]
      simp only [takeWhile_digits _ closes.stopsDigits, dropWhile_digits _ closes.stopsDigits,
        if_neg (digits_ne_nil _), value_digits, signed_natAbs]
    exact some

theorem exponentText_stops (exponent : Int) {rest : Bytes} (closes : Closes rest) :
    StopsDigits (exponentText exponent ++ rest) := by
  unfold exponentText
  split
  · exact closes.stopsDigits
  · rintro c ⟨⟩
    rfl

theorem readFraction_exponentText (exponent : Int) {rest : Bytes} (closes : Closes rest) :
    readFraction (exponentText exponent ++ rest) = some ([], exponentText exponent ++ rest) := by
  unfold exponentText
  split
  · exact closes.readFraction
  · rfl

theorem readNumber_text (mantissa exponent : Int) {rest : Bytes} (closes : Closes rest) :
    readNumber (ofInt mantissa ++ exponentText exponent ++ rest) =
      some (.number mantissa exponent, rest) := by
  have stops := exponentText_stops exponent closes
  have noZero : ¬(digits mantissa.natAbs = [] ∨
      (digits mantissa.natAbs).head? = some 48 ∧ (digits mantissa.natAbs).length ≠ 1) := by
    rintro (empty | ⟨zero, long⟩)
    · exact digits_ne_nil _ empty
    · exact long (length_digits_of_head? zero)
  rw [readNumber, List.append_assoc, readSign_ofInt]
  simp only [takeWhile_digits _ stops, dropWhile_digits _ stops, if_neg noZero,
    readFraction_exponentText exponent closes, readExponent_exponentText exponent closes,
    Option.bind_eq_bind, Option.bind_some, List.append_nil, List.length_nil, value_digits,
    signed_natAbs]
  simp

/-! ## Reading values back -/

/-- A byte that starts a number starts no other value. -/
theorem readValue_number {c : UInt8} (isSign : c = 45 ∨ isDigit c = true) (fuel : Nat)
    (rest : Bytes) : readValue (fuel + 1) (c :: rest) = readNumber (c :: rest) := by
  have other : isSpace c = false ∧ c ≠ 34 ∧ c ≠ 91 ∧ c ≠ 123 ∧ c ≠ 110 ∧ c ≠ 116 ∧ c ≠ 102 := by
    rcases isSign with rfl | isDigit
    · decide
    · grind [isDigit, isSpace]
  obtain ⟨visible, quote, bracket, brace, null, isTrue, isFalse⟩ := other
  rw [readValue, skipSpace_cons visible]
  simp only [quote, bracket, brace, null, isTrue, isFalse, if_false]

/-- The text of a value starts with a byte that closes nothing. -/
theorem exists_text_cons (json : Json) :
    ∃ c rest, text json = c :: rest ∧ isSpace c = false ∧ c ≠ 93 := by
  cases json with
  | null => exact ⟨_, _, rfl, rfl, by decide⟩
  | bool value => cases value <;> exact ⟨_, _, rfl, rfl, by decide⟩
  | number mantissa exponent =>
    obtain ⟨c, rest, split, isSign⟩ := exists_ofInt_cons mantissa
    refine ⟨c, rest ++ exponentText exponent, by rw [text, split]; rfl, ?_⟩
    rcases isSign with rfl | isDigit
    · decide
    · grind [isDigit, isSpace]
  | string bytes => exact ⟨_, _, rfl, rfl, by decide⟩
  | array items => exact ⟨_, _, rfl, rfl, by decide⟩
  | object members => exact ⟨_, _, rfl, rfl, by decide⟩

theorem closes_moreItems (items : List Json) (rest : Bytes) :
    Closes (moreItems items ++ 93 :: rest) := by
  cases items with
  | nil => rintro c ⟨⟩; decide
  | cons item items => rintro c ⟨⟩; decide

theorem closes_moreMembers (members : List (Bytes × Json)) (rest : Bytes) :
    Closes (moreMembers members ++ 125 :: rest) := by
  cases members with
  | nil => rintro c ⟨⟩; decide
  | cons member members => rintro c ⟨⟩; decide

theorem moreItems_cons (item : Json) (items : List Json) :
    moreItems (item :: items) = 44 :: itemsText (item :: items) := by
  rw [moreItems, itemsText]
  rfl

theorem moreMembers_cons (member : Bytes × Json) (members : List (Bytes × Json)) :
    moreMembers (member :: members) = 44 :: membersText (member :: members) := by
  rw [moreMembers, membersText]
  rfl

theorem text_length_pos (json : Json) : 0 < (text json).length := by
  obtain ⟨c, rest, split, -⟩ := exists_text_cons json
  rw [split]
  exact Nat.succ_pos _

/-- Names, numbers and strings. -/
theorem readValue_scalar (fuel : Nat) {rest : Bytes} (closes : Closes rest) :
    readValue (fuel + 1) (text .null ++ rest) = some (.null, rest) ∧
    (∀ value, readValue (fuel + 1) (text (.bool value) ++ rest) = some (.bool value, rest)) ∧
    (∀ mantissa exponent, readValue (fuel + 1) (text (.number mantissa exponent) ++ rest) =
      some (.number mantissa exponent, rest)) ∧
    ∀ bytes, readValue (fuel + 1) (text (.string bytes) ++ rest) = some (.string bytes, rest) := by
  refine ⟨rfl, ?_, ?_, ?_⟩
  · intro value
    cases value <;> rfl
  · intro mantissa exponent
    obtain ⟨c, more, split, isSign⟩ := exists_ofInt_cons mantissa
    have read := readNumber_text mantissa exponent closes
    rw [split] at read
    rw [text, split]
    exact (readValue_number isSign fuel _).trans read
  · intro bytes
    have quote : text (.string bytes) ++ rest = 34 :: (bytes.flatMap escapeByte ++ 34 :: rest) := by
      simp [text, quoted]
    rw [quote, readValue, skipSpace_cons rfl]
    simp only [if_pos, readString_quoted, Option.bind_eq_bind, Option.bind_some]

theorem readValue_array {fuel : Nat} {items : List Json} {rest : Bytes}
    (read : items ≠ [] → readItems fuel (itemsText items ++ 93 :: rest) = some (items, rest)) :
    readValue (fuel + 1) (text (.array items) ++ rest) = some (.array items, rest) := by
  have bracket : text (.array items) ++ rest = 91 :: (itemsText items ++ 93 :: rest) := by
    simp [text]
  rw [bracket, readValue, skipSpace_cons rfl]
  cases items with
  | nil => rfl
  | cons item items =>
    obtain ⟨c, more, split, visible, other⟩ := exists_text_cons item
    have first : itemsText (item :: items) ++ 93 :: rest =
        c :: (more ++ moreItems items ++ 93 :: rest) := by
      rw [itemsText, split]
      rfl
    have items := read (List.cons_ne_nil _ _)
    rw [first] at items ⊢
    simp only [skipSpace_cons visible, if_neg other, items, Option.bind_eq_bind,
      Option.bind_some]
    rfl

theorem readValue_object {fuel : Nat} {members : List (Bytes × Json)} {rest : Bytes}
    (read : members ≠ [] →
      readMembers fuel (membersText members ++ 125 :: rest) = some (members, rest)) :
    readValue (fuel + 1) (text (.object members) ++ rest) = some (.object members, rest) := by
  have brace : text (.object members) ++ rest = 123 :: (membersText members ++ 125 :: rest) := by
    simp [text]
  rw [brace, readValue, skipSpace_cons rfl]
  cases members with
  | nil => rfl
  | cons member members =>
    have first : membersText (member :: members) ++ 125 :: rest =
        34 :: (member.1.flatMap escapeByte ++ [34] ++ 58 :: text member.2 ++
          moreMembers members ++ 125 :: rest) := by
      rw [membersText, quoted]
      rfl
    have members := read (List.cons_ne_nil _ _)
    rw [first] at members ⊢
    simp only [skipSpace_cons (c := 34) rfl, members, Option.bind_eq_bind, Option.bind_some]
    rfl

theorem readItems_cons {fuel : Nat} {item : Json} {items : List Json} {rest : Bytes}
    (first : readValue fuel (text item ++ (moreItems items ++ 93 :: rest)) =
      some (item, moreItems items ++ 93 :: rest))
    (more : items ≠ [] → readItems fuel (itemsText items ++ 93 :: rest) = some (items, rest)) :
    readItems (fuel + 1) (itemsText (item :: items) ++ 93 :: rest) =
      some (item :: items, rest) := by
  rw [itemsText, List.append_assoc, readItems, first]
  simp only [Option.bind_eq_bind, Option.bind_some]
  cases items with
  | nil => rfl
  | cons next items =>
    rw [moreItems_cons, List.cons_append, skipSpace_cons rfl]
    simp only [if_pos, more (List.cons_ne_nil _ _), Option.bind_some]

theorem readMembers_cons {fuel : Nat} {name : Bytes} {json : Json}
    {members : List (Bytes × Json)} {rest : Bytes}
    (first : readValue fuel (text json ++ (moreMembers members ++ 125 :: rest)) =
      some (json, moreMembers members ++ 125 :: rest))
    (more : members ≠ [] →
      readMembers fuel (membersText members ++ 125 :: rest) = some (members, rest)) :
    readMembers (fuel + 1) (membersText ((name, json) :: members) ++ 125 :: rest) =
      some ((name, json) :: members, rest) := by
  have start : membersText ((name, json) :: members) ++ 125 :: rest =
      34 :: (name.flatMap escapeByte ++
        34 :: 58 :: (text json ++ (moreMembers members ++ 125 :: rest))) := by
    simp [membersText, quoted]
  rw [start, readMembers, skipSpace_cons rfl]
  simp only [if_pos, readString_quoted, skipSpace_cons (c := 58) rfl, first, Option.bind_eq_bind,
    Option.bind_some]
  cases members with
  | nil => rfl
  | cons next members =>
    rw [moreMembers_cons, List.cons_append, skipSpace_cons rfl]
    simp only [if_pos, more (List.cons_ne_nil _ _), Option.bind_some]

-- The recursion is that of the three texts; a value takes two steps of the fuel for each byte.
mutual

theorem readValue_text : ∀ (json : Json) {fuel : Nat} {rest : Bytes},
    2 * (text json).length ≤ fuel → Closes rest →
      readValue fuel (text json ++ rest) = some (json, rest)
  | json, 0, _, enough, _ => by
    have positive := text_length_pos json
    omega
  | .null, fuel + 1, _, _, closes => (readValue_scalar fuel closes).1
  | .bool value, fuel + 1, _, _, closes => (readValue_scalar fuel closes).2.1 value
  | .number mantissa exponent, fuel + 1, _, _, closes =>
    (readValue_scalar fuel closes).2.2.1 mantissa exponent
  | .string bytes, fuel + 1, _, _, closes => (readValue_scalar fuel closes).2.2.2 bytes
  | .array items, fuel + 1, rest, enough, _ => by
    apply readValue_array
    intro nonempty
    apply readItems_text items nonempty
    simp only [text, List.cons_append, List.length_cons, List.length_append] at enough
    omega
  | .object members, fuel + 1, rest, enough, _ => by
    apply readValue_object
    intro nonempty
    apply readMembers_text members nonempty
    simp only [text, List.cons_append, List.length_cons, List.length_append] at enough
    omega

theorem readItems_text : ∀ (items : List Json) {fuel : Nat} {rest : Bytes}, items ≠ [] →
    2 * (itemsText items).length + 1 ≤ fuel →
      readItems fuel (itemsText items ++ 93 :: rest) = some (items, rest)
  | [], _, _, nonempty, _ => absurd rfl nonempty
  | _ :: _, 0, _, _, enough => by omega
  | item :: items, fuel + 1, rest, _, enough => by
    rw [itemsText, List.length_append] at enough
    apply readItems_cons
    · exact readValue_text item (by omega) (closes_moreItems items rest)
    · intro nonempty
      apply readItems_text items nonempty
      obtain ⟨next, others, rfl⟩ := List.exists_cons_of_ne_nil nonempty
      rw [moreItems_cons, List.length_cons] at enough
      omega

theorem readMembers_text : ∀ (members : List (Bytes × Json)) {fuel : Nat} {rest : Bytes},
    members ≠ [] → 2 * (membersText members).length + 1 ≤ fuel →
      readMembers fuel (membersText members ++ 125 :: rest) = some (members, rest)
  | [], _, _, nonempty, _ => absurd rfl nonempty
  | _ :: _, 0, _, _, enough => by omega
  | (name, json) :: members, fuel + 1, rest, _, enough => by
    simp only [membersText, List.length_append, List.length_cons] at enough
    apply readMembers_cons
    · exact readValue_text json (by omega) (closes_moreMembers members rest)
    · intro nonempty
      apply readMembers_text members nonempty
      obtain ⟨next, others, rfl⟩ := List.exists_cons_of_ne_nil nonempty
      rw [moreMembers_cons, List.length_cons] at enough
      omega

end

/-! ## Texts joined by commas -/

/-- Texts with commas between them. -/
def joined : List Bytes → Bytes
  | [] => []
  | text :: texts => text ++ (if texts.isEmpty then [] else [44]) ++ joined texts

theorem moreItems_eq (items : List Json) :
    moreItems items = (if items.isEmpty then [] else [44]) ++ itemsText items := by
  cases items with
  | nil => simp [moreItems, itemsText]
  | cons item items => exact moreItems_cons item items

theorem moreMembers_eq (members : List (Bytes × Json)) :
    moreMembers members = (if members.isEmpty then [] else [44]) ++ membersText members := by
  cases members with
  | nil => simp [moreMembers, membersText]
  | cons member members => exact moreMembers_cons member members

theorem itemsText_eq (items : List Json) : itemsText items = joined (items.map text) := by
  induction items with
  | nil => simp [itemsText, joined]
  | cons item items ih =>
    rw [itemsText, moreItems_eq, ih, List.map_cons, joined, List.isEmpty_map, List.append_assoc]

def memberText (member : Bytes × Json) : Bytes :=
  quoted member.1 ++ 58 :: text member.2

theorem membersText_eq (members : List (Bytes × Json)) :
    membersText members = joined (members.map memberText) := by
  induction members with
  | nil => simp [membersText, joined]
  | cons member members ih =>
    rw [membersText, moreMembers_eq, ih, List.map_cons, joined, List.isEmpty_map, memberText,
      ← List.append_assoc]

/-! ## Texts in UTF-8 -/

def isUtf8 (bytes : Bytes) : Bool :=
  Utf8Text.isText (fun _ => true) bytes

mutual

/-- The strings of a value are UTF-8. -/
def HasUtf8 : Json → Prop
  | .string bytes => isUtf8 bytes = true
  | .array items => ItemsUtf8 items
  | .object members => MembersUtf8 members
  | _ => True

def ItemsUtf8 : List Json → Prop
  | [] => True
  | item :: items => HasUtf8 item ∧ ItemsUtf8 items

def MembersUtf8 : List (Bytes × Json) → Prop
  | [] => True
  | (name, json) :: members => isUtf8 name = true ∧ HasUtf8 json ∧ MembersUtf8 members

end

theorem itemsUtf8_iff {items : List Json} : ItemsUtf8 items ↔ ∀ item ∈ items, HasUtf8 item := by
  induction items with
  | nil => simp [ItemsUtf8]
  | cons item items ih => rw [ItemsUtf8, ih, List.forall_mem_cons]

theorem membersUtf8_iff {members : List (Bytes × Json)} :
    MembersUtf8 members ↔ ∀ member ∈ members, isUtf8 member.1 = true ∧ HasUtf8 member.2 := by
  induction members with
  | nil => simp [MembersUtf8]
  | cons member members ih => rw [MembersUtf8, ih, List.forall_mem_cons, and_assoc]

theorem isUtf8_ascii {bytes : Bytes} (ascii : ∀ c ∈ bytes, c < 128) :
    isUtf8 bytes = true :=
  Utf8Text.isText_of_ascii ascii fun _ _ => rfl

theorem isUtf8_lit {bytes : Bytes} (ascii : (bytes.all fun c => decide (c < 128)) = true) :
    isUtf8 bytes = true := by
  apply isUtf8_ascii
  intro c member
  exact of_decide_eq_true (List.all_eq_true.mp ascii c member)

theorem isUtf8_append {first second : Bytes} (isFirst : isUtf8 first = true)
    (isSecond : isUtf8 second = true) : isUtf8 (first ++ second) = true :=
  Utf8Text.isText_append isFirst isSecond

theorem isUtf8_cons {c : UInt8} {rest : Bytes} (ascii : c < 128)
    (isRest : isUtf8 rest = true) : isUtf8 (c :: rest) = true :=
  isUtf8_append (show isUtf8 [c] = true from isUtf8_ascii (by simpa using ascii)) isRest

theorem isUtf8_ofInt (n : Int) : isUtf8 (ofInt n) = true := by
  apply isUtf8_ascii
  intro c member
  have isNumber := isNumberByte_of_mem_ofInt member
  grind [isNumberByte, isDigit]

theorem isUtf8_quoted {bytes : Bytes} (isText : isUtf8 bytes = true) :
    isUtf8 (quoted bytes) = true := by
  refine isUtf8_cons (by decide) (isUtf8_append ?_ (isUtf8_lit (by decide)))
  refine Utf8Text.isText_flatMap ?_ ?_ isText
  · intro c high
    unfold escapeByte
    grind
  · intro c low
    apply isUtf8_ascii
    unfold escapeByte
    have small := c.toNat_lt
    have high := hexDigit_lt (c.toNat / 16) (by omega)
    have digit := hexDigit_lt (c.toNat % 16) (by omega)
    split_ifs <;> simp [high, digit, low]

mutual

theorem isUtf8_text : ∀ {json : Json}, HasUtf8 json → isUtf8 (text json) = true
  | .null, _ => isUtf8_lit (by decide)
  | .bool true, _ => isUtf8_lit (by decide)
  | .bool false, _ => isUtf8_lit (by decide)
  | .number mantissa exponent, _ => by
    refine isUtf8_append (isUtf8_ofInt mantissa) ?_
    unfold exponentText
    split
    · exact isUtf8_ascii (by simp)
    · exact isUtf8_cons (by decide) (isUtf8_ofInt exponent)
  | .string bytes, valid => isUtf8_quoted valid
  | .array items, valid =>
    isUtf8_cons (by decide)
      (isUtf8_append (isUtf8_itemsText valid) (isUtf8_lit (by decide)))
  | .object members, valid =>
    isUtf8_cons (by decide)
      (isUtf8_append (isUtf8_membersText valid) (isUtf8_lit (by decide)))

theorem isUtf8_itemsText : ∀ {items : List Json}, ItemsUtf8 items → isUtf8 (itemsText items) = true
  | [], _ => isUtf8_ascii (by simp [itemsText])
  | item :: items, valid => isUtf8_append (isUtf8_text valid.1) (isUtf8_moreItems valid.2)

theorem isUtf8_moreItems : ∀ {items : List Json}, ItemsUtf8 items → isUtf8 (moreItems items) = true
  | [], _ => isUtf8_ascii (by simp [moreItems])
  | item :: items, valid =>
    isUtf8_cons (by decide) (isUtf8_append (isUtf8_text valid.1) (isUtf8_moreItems valid.2))

theorem isUtf8_membersText : ∀ {members : List (Bytes × Json)},
    MembersUtf8 members → isUtf8 (membersText members) = true
  | [], _ => isUtf8_ascii (by simp [membersText])
  | (name, json) :: members, valid =>
    isUtf8_append (isUtf8_append (isUtf8_quoted valid.1)
      (isUtf8_cons (by decide) (isUtf8_text valid.2.1))) (isUtf8_moreMembers valid.2.2)

theorem isUtf8_moreMembers : ∀ {members : List (Bytes × Json)},
    MembersUtf8 members → isUtf8 (moreMembers members) = true
  | [], _ => isUtf8_ascii (by simp [moreMembers])
  | (name, json) :: members, valid =>
    isUtf8_append (isUtf8_append (isUtf8_cons (by decide) (isUtf8_quoted valid.1))
      (isUtf8_cons (by decide) (isUtf8_text valid.2.1))) (isUtf8_moreMembers valid.2.2)

end

/-- Decoding the text of a value gives the value. -/
theorem decode_text {json : Json} (valid : HasUtf8 json) : decode (text json) = some json := by
  have read : readValue (2 * (text json).length + 1) (text json ++ []) = some (json, []) :=
    readValue_text json (by omega) (by simp [Closes])
  rw [List.append_nil] at read
  have isText : Utf8Text.isText (fun _ => true) (text json) = true := isUtf8_text valid
  rw [decode, if_pos isText, read]
  rfl

end JsonText
