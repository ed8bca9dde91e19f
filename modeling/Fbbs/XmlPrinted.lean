import Fbbs.XmlText

/-!
# Printed XML documents

Content that is printed with all text and all values as they are, without escapes.  A
document with it is read back if and only if no text and no value has a byte that XML
reads in another way.
-/

namespace XmlText

open DecimalText (isSpace skipSpace skipSpace_cons)

/-! ## Printed content -/

def attributeText (named : Bytes × Bytes) : Bytes :=
  32 :: (named.1 ++ 61 :: 39 :: (named.2 ++ [39]))

def startTag (name : Bytes) (attributes : List (Bytes × Bytes)) : Bytes :=
  60 :: (name ++ attributes.flatMap attributeText)

def endTag (name : Bytes) : Bytes :=
  60 :: 47 :: (name ++ [62])

/-- The bytes of content whose values are printed as they are.  An element without content
has two forms. -/
inductive Printed : Content → Bytes → Prop
  | text (run : Bytes) : Printed (.text run) run
  | empty {before name : Bytes} {attributes : List (Bytes × Bytes)} {after : Content}
      {rest : Bytes} (more : Printed after rest) :
      Printed (.element before name attributes (.text []) after)
        (before ++ (startTag name attributes ++ 47 :: 62 :: rest))
  | element {before name : Bytes} {attributes : List (Bytes × Bytes)} {inner after : Content}
      {body rest : Bytes} (content : Printed inner body) (more : Printed after rest) :
      Printed (.element before name attributes inner after)
        (before ++ (startTag name attributes ++ 62 :: (body ++ (endTag name ++ rest))))

def plainText (run : Bytes) : Bool :=
  isPlain endsText false run

def plainValue (value : Bytes) : Bool :=
  isPlain (endsValue 39) true value

/-- The attributes of an element are read as they are. -/
def PlainAttributes (attributes : List (Bytes × Bytes)) : Prop :=
  (∀ named ∈ attributes, plainValue named.2 = true) ∧ (attributes.map Prod.fst).Nodup

namespace Content

def Named : Content → Prop
  | .text _ => True
  | .element _ name attributes inner after =>
    isName name = true ∧ (∀ named ∈ attributes, isName named.1 = true) ∧ inner.Named ∧ after.Named

/-- All text and all values are read as they are. -/
def Plain : Content → Prop
  | .text run => plainText run = true
  | .element before _ attributes inner after =>
    plainText before = true ∧ PlainAttributes attributes ∧ inner.Plain ∧ after.Plain

def size : Content → Nat
  | .text _ => 1
  | .element _ _ _ inner after => inner.size + after.size + 1

end Content

theorem Printed.size_le {content : Content} {text : Bytes} (printed : Printed content text) :
    content.size ≤ text.length + 1 := by
  induction printed with
  | text run => simp [Content.size]
  | empty more ih =>
    simp only [Content.size, startTag, List.length_append, List.length_cons]
    omega
  | element content more innerIh moreIh =>
    simp only [Content.size, startTag, endTag, List.length_append, List.length_cons,
      List.length_nil]
    omega

/-! ## Attributes -/

theorem exists_name_cons {name : Bytes} (valid : isName name = true) :
    ∃ c rest, name = c :: rest ∧ isNameByte c = true := by
  cases name with
  | nil =>
    obtain ⟨c, chars, empty, -⟩ := isName_iff.mp valid
    have pos := Char.utf8Size_pos c
    have length := congrArg List.length empty
    rw [Utf8Text.encode, List.flatMap_cons, List.length_append, String.length_utf8EncodeChar,
      List.length_nil] at length
    omega
  | cons c rest => exact ⟨c, rest, rfl, isNameByte_of_isName valid c (by simp)⟩

theorem stopsName_cons {c : UInt8} (stops : isNameByte c = false) (rest : Bytes) :
    StopsName (c :: rest) := by
  rintro d ⟨⟩
  exact stops

theorem skipSpace_name {name : Bytes} (valid : isName name = true) (rest : Bytes) :
    skipSpace (name ++ rest) = name ++ rest := by
  obtain ⟨c, more, rfl, isByte⟩ := exists_name_cons valid
  have visible : isSpace c = false := by
    by_contra space
    simp only [Bool.not_eq_false, isSpace, Bool.or_eq_true, beq_iff_eq, or_assoc] at space
    rcases space with rfl | rfl | rfl | rfl <;> revert isByte <;> decide
  exact skipSpace_cons visible _

theorem readAttribute_eq {name : Bytes} (valid : isName name = true) (text : Bytes) :
    readAttribute (name ++ 61 :: 39 :: text) =
      (readValue (39 :: text)).map fun read => ((name, read.1), read.2) := by
  have stops : StopsName (61 :: 39 :: text) := stopsName_cons (by decide) _
  have equals : readByte 61 (skipSpace (61 :: 39 :: text)) = some (39 :: text) := rfl
  have quote : skipSpace (39 :: text) = 39 :: text := rfl
  simp only [readAttribute, readName_append valid stops, equals, quote, Option.bind_eq_bind,
    Option.bind_some]
  cases readValue (39 :: text) <;> rfl

theorem special_value (c : UInt8) (isEnd : endsValue 39 c = true) : c = 60 ∨ c = 39 ∨ c = 34 := by
  simp only [endsValue, Bool.or_eq_true, beq_iff_eq] at isEnd
  rcases isEnd with rfl | rfl <;> simp

theorem special_text (c : UInt8) (isEnd : endsText c = true) : c = 60 ∨ c = 39 ∨ c = 34 :=
  .inl (by simpa [endsText] using isEnd)

theorem readValue_of_plainValue {value : Bytes} (plain : plainValue value = true) (rest : Bytes) :
    readValue (39 :: (value ++ 39 :: rest)) = some (value, rest) := by
  have read : readCharacters (endsValue 39) true ((value ++ 39 :: rest).length + 1)
      (value ++ 39 :: rest) = some (value, 39 :: rest) := by
    apply readCharacters_of_isPlain _ plain (by rintro c ⟨⟩; rfl)
    · rw [List.length_append]
      omega
    · intro c isEnd
      rcases special_value c isEnd with rfl | rfl | rfl <;> decide
  rw [readValue, if_pos (.inl rfl), read]
  rfl

theorem plainValue_of_readValue {value rest left : Bytes}
    (read : readValue (39 :: (value ++ 39 :: rest)) = some (value, left)) :
    plainValue value = true := by
  rw [readValue, if_pos (.inl rfl), Option.bind_eq_bind, Option.bind_eq_some_iff] at read
  obtain ⟨⟨found, after⟩, characters, closing⟩ := read
  have same : found = value := by
    cases after with
    | nil => cases closing
    | cons c after =>
      simp only at closing
      split at closing
      · exact (Prod.mk.inj (Option.some.inj closing)).1
      · cases closing
  rw [same] at characters
  exact isPlain_of_readCharacters special_value (by rintro c ⟨⟩; rfl) characters

theorem attributes_cons (named : Bytes × Bytes) (attributes : List (Bytes × Bytes)) (rest : Bytes) :
    (named :: attributes).flatMap attributeText ++ rest =
      32 :: (named.1 ++ 61 :: 39 ::
        (named.2 ++ 39 :: (attributes.flatMap attributeText ++ rest))) := by
  simp [attributeText]

theorem readAttributes_cons {name : Bytes} (valid : isName name = true) (fuel : Nat)
    (text : Bytes) :
    readAttributes (fuel + 1) (32 :: (name ++ 61 :: 39 :: text)) =
      (readValue (39 :: text)).bind fun read =>
        (readAttributes fuel read.2).bind fun more =>
          if name ∈ more.1.map Prod.fst then none
          else some ((name, read.1) :: more.1, more.2) := by
  have next : skipSpace (32 :: (name ++ 61 :: 39 :: text)) = name ++ 61 :: 39 :: text :=
    skipSpace_name valid _
  have inside : ¬((name ++ 61 :: 39 :: text).head? = some 47 ∨
      (name ++ 61 :: 39 :: text).head? = some 62) := by
    obtain ⟨c, more, rfl, isByte⟩ := exists_name_cons valid
    rintro (slash | greater)
    · obtain rfl := Option.some.inj slash
      revert isByte
      decide
    · obtain rfl := Option.some.inj greater
      revert isByte
      decide
  have moved : name ++ 61 :: 39 :: text ≠ 32 :: (name ++ 61 :: 39 :: text) := by
    intro same
    have length := congrArg List.length same
    rw [List.length_cons] at length
    omega
  rw [readAttributes]
  simp only [next, if_neg inside, if_neg moved, readAttribute_eq valid]
  cases readValue (39 :: text) <;> rfl

def ClosesTag (rest : Bytes) : Prop :=
  rest.head? = some 47 ∨ rest.head? = some 62

theorem readAttributes_nil {rest : Bytes} (closes : ClosesTag rest) (fuel : Nat) :
    readAttributes (fuel + 1) rest = some ([], rest) := by
  have same : skipSpace rest = rest := by
    rcases closes with slash | greater
    · obtain ⟨more, rfl⟩ := List.head?_eq_some_iff.mp slash
      rfl
    · obtain ⟨more, rfl⟩ := List.head?_eq_some_iff.mp greater
      rfl
  rw [readAttributes]
  simp only [same]
  exact if_pos closes

theorem readAttributes_of_plain {attributes : List (Bytes × Bytes)} {rest : Bytes} {fuel : Nat}
    (valid : ∀ named ∈ attributes, isName named.1 = true) (plain : PlainAttributes attributes)
    (closes : ClosesTag rest) (enough : attributes.length < fuel) :
    readAttributes fuel (attributes.flatMap attributeText ++ rest) = some (attributes, rest) := by
  induction attributes generalizing fuel with
  | nil =>
    obtain ⟨fuel, rfl⟩ := Nat.exists_eq_add_one.mpr enough
    exact readAttributes_nil closes fuel
  | cons named attributes ih =>
    rw [List.length_cons] at enough
    obtain ⟨fuel, rfl⟩ := Nat.exists_eq_add_one.mpr (Nat.zero_lt_of_lt enough)
    obtain ⟨nameValid, othersValid⟩ := List.forall_mem_cons.mp valid
    obtain ⟨valuePlain, othersPlain⟩ := List.forall_mem_cons.mp plain.1
    obtain ⟨new, nodup⟩ := List.nodup_cons.mp plain.2
    rw [attributes_cons, readAttributes_cons nameValid, readValue_of_plainValue valuePlain,
      Option.bind_some, ih othersValid ⟨othersPlain, nodup⟩ (by omega), Option.bind_some,
      if_neg new]

theorem plain_of_readAttributes {attributes : List (Bytes × Bytes)} {rest left : Bytes} {fuel : Nat}
    (valid : ∀ named ∈ attributes, isName named.1 = true)
    (read : readAttributes fuel (attributes.flatMap attributeText ++ rest) =
      some (attributes, left)) :
    PlainAttributes attributes := by
  induction attributes generalizing fuel left with
  | nil => exact ⟨by simp, List.nodup_nil⟩
  | cons named attributes ih =>
    obtain ⟨nameValid, othersValid⟩ := List.forall_mem_cons.mp valid
    cases fuel with
    | zero => cases read
    | succ fuel =>
      rw [attributes_cons, readAttributes_cons nameValid] at read
      simp only [Option.bind_eq_some_iff, Prod.exists] at read
      obtain ⟨value, after, first, more, end', others, same⟩ := read
      split_ifs at same with old
      obtain ⟨here, behind⟩ := List.cons.inj (Prod.mk.inj (Option.some.inj same)).1
      have valueEq : value = named.2 := congrArg Prod.snd here
      rw [valueEq] at first
      have valuePlain := plainValue_of_readValue first
      rw [readValue_of_plainValue valuePlain] at first
      obtain ⟨-, rfl⟩ := Prod.mk.inj (Option.some.inj first)
      rw [behind] at old others
      obtain ⟨othersPlain, nodup⟩ := ih othersValid others
      exact ⟨List.forall_mem_cons.mpr ⟨valuePlain, othersPlain⟩,
        List.nodup_cons.mpr ⟨old, nodup⟩⟩

/-! ## Content -/

theorem readText_of_plainText {run rest : Bytes} (plain : plainText run = true)
    (stops : ∀ c ∈ rest.head?, endsText c = true) : readText (run ++ rest) = some (run, rest) := by
  apply readCharacters_of_isPlain _ plain stops
  · rw [List.length_append]
    omega
  · intro c isEnd
    rcases special_text c isEnd with rfl | rfl | rfl <;> decide

theorem plainText_of_readText {run rest left : Bytes} (stops : ∀ c ∈ rest.head?, endsText c = true)
    (read : readText (run ++ rest) = some (run, left)) : plainText run = true :=
  isPlain_of_readCharacters special_text stops read

/-- The end of content: the end of the document or an end tag. -/
def ClosesContent (rest : Bytes) : Prop :=
  rest = [] ∨ ∃ more, rest = 60 :: 47 :: more

theorem ClosesContent.stops {rest : Bytes} (closes : ClosesContent rest) :
    ∀ c ∈ rest.head?, endsText c = true := by
  rcases closes with rfl | ⟨more, rfl⟩ <;> rintro c ⟨⟩
  rfl

theorem closesContent_endTag (name rest : Bytes) : ClosesContent (endTag name ++ rest) :=
  .inr ⟨name ++ [62] ++ rest, rfl⟩

theorem startTag_stops (name : Bytes) (attributes : List (Bytes × Bytes)) (rest : Bytes) :
    ∀ c ∈ (startTag name attributes ++ rest).head?, endsText c = true := by
  rintro c ⟨⟩
  rfl

theorem readContent_text {run rest : Bytes} (plain : plainText run = true)
    (closes : ClosesContent rest) (fuel : Nat) :
    readContent (fuel + 1) (run ++ rest) = some (.text run, rest) := by
  have ended : rest = [] ∨ rest.tail.head? = some 47 := by
    rcases closes with rfl | ⟨more, rfl⟩
    · exact .inl rfl
    · exact .inr rfl
  rw [readContent, readText_of_plainText plain closes.stops]
  simp only [Option.bind_eq_bind, Option.bind_some, if_pos ended]

theorem readEnd_append {name : Bytes} (valid : isName name = true) (rest : Bytes) :
    readEnd name (endTag name ++ rest) = some rest := by
  have split : endTag name ++ rest = 60 :: 47 :: (name ++ 62 :: rest) := by simp [endTag]
  have tag : readName (name ++ 62 :: rest) = some (name, 62 :: rest) :=
    readName_append valid (stopsName_cons (by decide) rest)
  rw [split, readEnd]
  simp only [readByte, if_true, Option.bind_eq_bind, Option.bind_some, tag]
  rfl

theorem stopsName_attributes (attributes : List (Bytes × Bytes)) {rest : Bytes}
    (closes : ClosesTag rest) : StopsName (attributes.flatMap attributeText ++ rest) := by
  cases attributes with
  | nil =>
    intro c first
    rcases closes with slash | greater
    · obtain rfl := Option.some.inj (first.symm.trans slash)
      decide
    · obtain rfl := Option.some.inj (first.symm.trans greater)
      decide
  | cons named attributes =>
    rintro c ⟨⟩
    decide

theorem length_le_attributes (attributes : List (Bytes × Bytes)) :
    attributes.length ≤ (attributes.flatMap attributeText).length := by
  induction attributes with
  | nil => exact Nat.le_refl 0
  | cons named attributes ih =>
    simp only [List.flatMap_cons, attributeText, List.length_append, List.length_cons]
    omega

/-- The start tag is read; what follows decides the form of the element. -/
theorem readContent_startTag {before name : Bytes} {attributes : List (Bytes × Bytes)}
    (plain : plainText before = true) (valid : isName name = true)
    (names : ∀ named ∈ attributes, isName named.1 = true)
    (plainAttributes : PlainAttributes attributes) {rest : Bytes} (closes : ClosesTag rest)
    (fuel : Nat) :
    readContent (fuel + 1) (before ++ (startTag name attributes ++ rest)) =
      if rest.head? = some 47 then
        (readByte 62 rest.tail).bind fun rest =>
          (readContent fuel rest).bind fun after =>
            some (.element before name attributes (.text []) after.1, after.2)
      else
        (readByte 62 rest).bind fun rest =>
          (readContent fuel rest).bind fun inner =>
            (readEnd name inner.2).bind fun rest =>
              (readContent fuel rest).bind fun after =>
                some (.element before name attributes inner.1 after.1, after.2) := by
  have tag : startTag name attributes ++ rest =
      60 :: (name ++ (attributes.flatMap attributeText ++ rest)) := by
    simp [startTag]
  have isOpen : ¬(startTag name attributes ++ rest = [] ∨
      (startTag name attributes ++ rest).tail.head? = some 47) := by
    obtain ⟨c, more, rfl, isByte⟩ := exists_name_cons valid
    rintro (empty | slash)
    · cases empty
    · obtain rfl := Option.some.inj slash
      revert isByte
      decide
  have readTag : readName (startTag name attributes ++ rest).tail =
      some (name, attributes.flatMap attributeText ++ rest) := by
    rw [tag]
    exact readName_append valid (stopsName_attributes attributes closes)
  have short : attributes.length < (attributes.flatMap attributeText ++ rest).length + 1 := by
    have bound := length_le_attributes attributes
    rw [List.length_append]
    omega
  rw [readContent, readText_of_plainText plain (startTag_stops name attributes rest)]
  simp only [Option.bind_eq_bind, Option.bind_some, if_neg isOpen, readTag,
    readAttributes_of_plain names plainAttributes closes short]

theorem readContent_of_plain {content : Content} {text : Bytes} (printed : Printed content text)
    (named : content.Named) (plain : content.Plain) {rest : Bytes} (closes : ClosesContent rest)
    {fuel : Nat} (enough : content.size ≤ fuel) :
    readContent fuel (text ++ rest) = some (content, rest) := by
  induction printed generalizing rest fuel with
  | text run =>
    obtain ⟨fuel, rfl⟩ := Nat.exists_eq_add_one.mpr (Nat.lt_of_lt_of_le Nat.one_pos enough)
    exact readContent_text plain closes fuel
  | @empty before name attributes after tail more ih =>
    obtain ⟨nameValid, names, -, afterNamed⟩ := named
    obtain ⟨beforePlain, attributesPlain, -, afterPlain⟩ := plain
    simp only [Content.size] at enough
    obtain ⟨fuel, rfl⟩ := Nat.exists_eq_add_one.mpr (Nat.lt_of_lt_of_le (Nat.succ_pos _) enough)
    have split : before ++ (startTag name attributes ++ 47 :: 62 :: tail) ++ rest =
        before ++ (startTag name attributes ++ 47 :: 62 :: (tail ++ rest)) := by simp
    have behind := ih afterNamed afterPlain closes (by omega : after.size ≤ fuel)
    rw [split, readContent_startTag beforePlain nameValid names attributesPlain (.inl rfl),
      List.head?_cons, if_pos rfl]
    simp only [List.tail_cons, readByte, if_true, Option.bind_some, behind]
  | @element before name attributes inner after body tail content more innerIh moreIh =>
    obtain ⟨nameValid, names, innerNamed, afterNamed⟩ := named
    obtain ⟨beforePlain, attributesPlain, innerPlain, afterPlain⟩ := plain
    simp only [Content.size] at enough
    obtain ⟨fuel, rfl⟩ := Nat.exists_eq_add_one.mpr (Nat.lt_of_lt_of_le (Nat.succ_pos _) enough)
    have split : before ++ (startTag name attributes ++ 62 :: (body ++ (endTag name ++ tail))) ++
        rest = before ++ (startTag name attributes ++
          62 :: (body ++ (endTag name ++ (tail ++ rest)))) := by simp
    have inside := innerIh innerNamed innerPlain
      (closesContent_endTag name (tail ++ rest)) (by omega : inner.size ≤ fuel)
    have behind := moreIh afterNamed afterPlain closes (by omega : after.size ≤ fuel)
    rw [split, readContent_startTag beforePlain nameValid names attributesPlain (.inr rfl),
      if_neg (by simp)]
    simp only [readByte, if_true, Option.bind_some, inside, readEnd_append nameValid, behind]

/-- The text and the tag that have been read for an element. -/
theorem readContent_element {fuel : Nat} {text before name left : Bytes}
    {attributes : List (Bytes × Bytes)} {inner after : Content}
    (read : readContent (fuel + 1) text =
      some (.element before name attributes inner after, left)) :
    ∃ start behind tag, readText text = some (before, start) ∧
      readName start.tail = some (name, behind) ∧
      readAttributes (behind.length + 1) behind = some (attributes, tag) := by
  rw [readContent] at read
  simp only [Option.bind_eq_bind, Option.bind_eq_some_iff, Prod.exists] at read
  obtain ⟨run, start, readRun, read⟩ := read
  split at read
  · cases read
  · simp only [Option.bind_eq_some_iff, Prod.exists] at read
    obtain ⟨foundName, behind, readTag, found, tag, readFound, read⟩ := read
    split at read
    · simp only [Option.bind_eq_some_iff, Prod.exists] at read
      obtain ⟨_, _, _, _, _, same⟩ := read
      cases same
      exact ⟨start, behind, tag, readRun, readTag, readFound⟩
    · simp only [Option.bind_eq_some_iff, Prod.exists] at read
      obtain ⟨_, _, _, _, _, _, _, _, _, _, same⟩ := read
      cases same
      exact ⟨start, behind, tag, readRun, readTag, readFound⟩

/-- The text that has been read. -/
theorem readContent_run {fuel : Nat} {text run left : Bytes}
    (read : readContent (fuel + 1) text = some (.text run, left)) :
    ∃ start, readText text = some (run, start) := by
  rw [readContent] at read
  simp only [Option.bind_eq_bind, Option.bind_eq_some_iff, Prod.exists] at read
  obtain ⟨found, start, readRun, read⟩ := read
  split at read
  · cases read
    exact ⟨_, readRun⟩
  · simp only [Option.bind_eq_some_iff, Prod.exists] at read
    obtain ⟨_, _, _, _, _, _, read⟩ := read
    split at read
    · simp only [Option.bind_eq_some_iff, Prod.exists] at read
      obtain ⟨_, _, _, _, _, same⟩ := read
      cases same
    · simp only [Option.bind_eq_some_iff, Prod.exists] at read
      obtain ⟨_, _, _, _, _, _, _, _, _, _, same⟩ := read
      cases same

/-- The text and the attributes of an element that is read back are plain. -/
theorem plain_of_readContent_startTag {before name : Bytes} {attributes : List (Bytes × Bytes)}
    (valid : isName name = true) (names : ∀ named ∈ attributes, isName named.1 = true)
    {rest left : Bytes} (closes : ClosesTag rest) {fuel : Nat} {inner after : Content}
    (read : readContent (fuel + 1) (before ++ (startTag name attributes ++ rest)) =
      some (.element before name attributes inner after, left)) :
    plainText before = true ∧ PlainAttributes attributes := by
  obtain ⟨start, behind, tag, readRun, readTag, readFound⟩ := readContent_element read
  have stops := startTag_stops name attributes rest
  have plain := plainText_of_readText stops readRun
  refine ⟨plain, ?_⟩
  rw [readText_of_plainText plain stops] at readRun
  obtain ⟨-, rfl⟩ := Prod.mk.inj (Option.some.inj readRun)
  have split : (startTag name attributes ++ rest).tail =
      name ++ (attributes.flatMap attributeText ++ rest) := by
    simp [startTag]
  rw [split, readName_append valid (stopsName_attributes attributes closes)] at readTag
  obtain ⟨-, rfl⟩ := Prod.mk.inj (Option.some.inj readTag)
  exact plain_of_readAttributes names readFound

/-- Content that is read back has plain values, and is read up to where it ends. -/
theorem plain_of_readContent {content : Content} {text : Bytes} (printed : Printed content text)
    (named : content.Named) {rest left : Bytes} (closes : ClosesContent rest) {fuel : Nat}
    (read : readContent fuel (text ++ rest) = some (content, left)) :
    content.Plain ∧ left = rest := by
  induction printed generalizing rest left fuel with
  | text run =>
    cases fuel with
    | zero => cases read
    | succ fuel =>
      obtain ⟨start, readRun⟩ := readContent_run read
      have plain := plainText_of_readText closes.stops readRun
      rw [readContent_text plain closes] at read
      cases read
      exact ⟨plain, rfl⟩
  | @empty before name attributes after tail more ih =>
    obtain ⟨nameValid, names, -, afterNamed⟩ := named
    cases fuel with
    | zero => cases read
    | succ fuel =>
      have split : before ++ (startTag name attributes ++ 47 :: 62 :: tail) ++ rest =
          before ++ (startTag name attributes ++ 47 :: 62 :: (tail ++ rest)) := by simp
      rw [split] at read
      obtain ⟨beforePlain, attributesPlain⟩ :=
        plain_of_readContent_startTag nameValid names (.inl rfl) read
      rw [readContent_startTag beforePlain nameValid names attributesPlain (.inl rfl),
        List.head?_cons, if_pos rfl] at read
      simp only [List.tail_cons, readByte, if_true, Option.bind_some, Option.bind_eq_some_iff,
        Prod.exists] at read
      obtain ⟨found, end', behind, same⟩ := read
      cases same
      obtain ⟨afterPlain, rfl⟩ := ih afterNamed closes behind
      exact ⟨⟨beforePlain, attributesPlain, rfl, afterPlain⟩, rfl⟩
  | @element before name attributes inner after body tail content more innerIh moreIh =>
    obtain ⟨nameValid, names, innerNamed, afterNamed⟩ := named
    cases fuel with
    | zero => cases read
    | succ fuel =>
      have split : before ++ (startTag name attributes ++
          62 :: (body ++ (endTag name ++ tail))) ++ rest =
          before ++ (startTag name attributes ++
            62 :: (body ++ (endTag name ++ (tail ++ rest)))) := by simp
      rw [split] at read
      obtain ⟨beforePlain, attributesPlain⟩ :=
        plain_of_readContent_startTag nameValid names (.inr rfl) read
      rw [readContent_startTag beforePlain nameValid names attributesPlain (.inr rfl),
        if_neg (by simp)] at read
      simp only [readByte, if_true, Option.bind_some, Option.bind_eq_some_iff,
        Prod.exists] at read
      obtain ⟨found, behind, inside, next, endRead, others, end', readOthers, same⟩ := read
      cases same
      obtain ⟨innerPlain, rfl⟩ := innerIh innerNamed (closesContent_endTag name _) inside
      rw [readEnd_append nameValid] at endRead
      obtain rfl := Option.some.inj endRead
      obtain ⟨afterPlain, rfl⟩ := moreIh afterNamed closes readOthers
      exact ⟨⟨beforePlain, attributesPlain, innerPlain, afterPlain⟩, rfl⟩

/-! ## Documents -/

/-- The element of content that is one element. -/
def Content.root : Content → Option Element
  | .element [] name attributes inner (.text []) => some ⟨name, attributes, inner⟩
  | _ => none

theorem Content.root_eq_some {content : Content} {element : Element}
    (root : content.root = some element) :
    content = .element [] element.name element.attributes element.inner (.text []) := by
  unfold Content.root at root
  split at root
  · obtain rfl := Option.some.inj root
    rfl
  · cases root

theorem readRoot_of_read {body : Bytes} {element : Element}
    (read : readContent (body.length + 1) (skipSpace body) =
      some (.element [] element.name element.attributes element.inner (.text []), [])) :
    readRoot body = some element := by
  rw [readRoot, read]
  rfl

theorem exists_read_of_readRoot {body : Bytes} {element : Element}
    (read : readRoot body = some element) :
    ∃ spaces, readContent (body.length + 1) (skipSpace body) =
      some (.element [] element.name element.attributes element.inner (.text spaces), []) := by
  unfold readRoot at read
  split at read
  · rename_i name attributes inner spaces found
    split at read
    · obtain rfl := Option.some.inj read
      exact ⟨spaces, found⟩
    · cases read
  · cases read

/-- The root of a document is plain if it is read back, whatever is read behind it. -/
theorem plain_of_read_root {element : Element} {text : Bytes}
    (printed : Printed (.element [] element.name element.attributes element.inner (.text [])) text)
    (named : (Content.element [] element.name element.attributes element.inner (.text [])).Named)
    {fuel : Nat} {after : Content} {left : Bytes}
    (read : readContent (fuel + 1) text =
      some (.element [] element.name element.attributes element.inner after, left)) :
    (Content.element [] element.name element.attributes element.inner (.text [])).Plain := by
  obtain ⟨nameValid, names, innerNamed, -⟩ := named
  generalize element.inner = inner at printed read innerNamed ⊢
  cases printed with
  | empty more =>
    obtain ⟨-, attributesPlain⟩ := plain_of_readContent_startTag nameValid names (.inl rfl) read
    exact ⟨rfl, attributesPlain, rfl, rfl⟩
  | element content more =>
    obtain ⟨-, attributesPlain⟩ := plain_of_readContent_startTag nameValid names (.inr rfl) read
    rw [readContent_startTag rfl nameValid names attributesPlain (.inr rfl),
      if_neg (by simp)] at read
    simp only [readByte, if_true, Option.bind_some, Option.bind_eq_some_iff, Prod.exists] at read
    obtain ⟨found, behind, inside, _, _, _, _, _, same⟩ := read
    cases same
    have innerPlain := plain_of_readContent content innerNamed (closesContent_endTag _ _) inside
    exact ⟨rfl, attributesPlain, innerPlain.1, rfl⟩

theorem Printed.skipSpace_root {element : Element} {text : Bytes}
    (printed :
      Printed (.element [] element.name element.attributes element.inner (.text [])) text) :
    skipSpace (10 :: text) = text := by
  generalize element.inner = inner at printed
  cases printed <;> rfl

/-- A printed element is read back as the root if and only if its values are plain. -/
theorem readRoot_iff {content : Content} {text : Bytes} (printed : Printed content text)
    (named : content.Named) {element : Element} (root : content.root = some element) :
    readRoot (10 :: text) = some element ↔ content.Plain := by
  obtain rfl := Content.root_eq_some root
  constructor
  · intro read
    obtain ⟨spaces, readSpaces⟩ := exists_read_of_readRoot read
    rw [printed.skipSpace_root] at readSpaces
    exact plain_of_read_root printed named readSpaces
  · intro plain
    have size := printed.size_le
    have read := readContent_of_plain printed named plain (.inl rfl)
      (by rw [List.length_cons]; omega : _ ≤ (10 :: text).length + 1)
    rw [List.append_nil] at read
    apply readRoot_of_read
    rw [printed.skipSpace_root]
    exact read

/-! ## Characters -/

theorem isXmlChar_of_isNameChar {c : Char} (isName : isNameChar c = true) :
    isXmlChar c = true := by
  simp only [isNameChar, isNameStart, isLetter, isXmlChar, Bool.or_eq_true, Bool.and_eq_true,
    beq_iff_eq, decide_eq_true_eq] at isName ⊢
  omega

theorem isText_of_isName {name : Bytes} (valid : isName name = true) :
    Utf8Text.isText isXmlChar name = true := by
  obtain ⟨c, chars, rfl, start, others⟩ := isName_iff.mp valid
  refine Utf8Text.isText_iff.mpr ⟨c :: chars, rfl, List.forall_mem_cons.mpr ⟨?_, ?_⟩⟩
  · exact isXmlChar_of_isNameChar (isNameChar_of_isNameStart start)
  · exact fun c member => isXmlChar_of_isNameChar (others c member)

namespace Content

/-- All text and all values are characters of XML in UTF-8. -/
def HasCharacters : Content → Prop
  | .text run => Utf8Text.isText isXmlChar run = true
  | .element before _ attributes inner after =>
    Utf8Text.isText isXmlChar before = true ∧
      (∀ named ∈ attributes, Utf8Text.isText isXmlChar named.2 = true) ∧
      inner.HasCharacters ∧ after.HasCharacters

end Content

theorem isText_attributes_iff {attributes : List (Bytes × Bytes)}
    (names : ∀ named ∈ attributes, isName named.1 = true) {c : UInt8} (ascii : c < 128)
    (isAllowed : isXmlChar (Char.ofNat c.toNat) = true) (rest : Bytes) :
    Utf8Text.isText isXmlChar (attributes.flatMap attributeText ++ c :: rest) = true ↔
      (∀ named ∈ attributes, Utf8Text.isText isXmlChar named.2 = true) ∧
        Utf8Text.isText isXmlChar rest = true := by
  induction attributes with
  | nil => simpa using Utf8Text.isText_cons_iff ascii isAllowed
  | cons named attributes ih =>
    obtain ⟨nameValid, others⟩ := List.forall_mem_cons.mp names
    rw [attributes_cons, Utf8Text.isText_cons_iff (by decide) (by decide),
      Utf8Text.isText_cut_iff (by decide) (by decide),
      Utf8Text.isText_cons_iff (by decide) (by decide),
      Utf8Text.isText_cut_iff (by decide) (by decide), isText_of_isName nameValid, ih others,
      List.forall_mem_cons, and_assoc, eq_self, true_and]

theorem isText_startTag_iff {name : Bytes} {attributes : List (Bytes × Bytes)}
    (valid : isName name = true) (names : ∀ named ∈ attributes, isName named.1 = true) {c : UInt8}
    (ascii : c < 128) (isAllowed : isXmlChar (Char.ofNat c.toNat) = true) (before rest : Bytes) :
    Utf8Text.isText isXmlChar (before ++ (startTag name attributes ++ c :: rest)) = true ↔
      Utf8Text.isText isXmlChar before = true ∧
        (∀ named ∈ attributes, Utf8Text.isText isXmlChar named.2 = true) ∧
        Utf8Text.isText isXmlChar rest = true := by
  have tag : Utf8Text.isText isXmlChar (name ++ (attributes.flatMap attributeText ++ c :: rest)) =
      true ↔ Utf8Text.isText isXmlChar (attributes.flatMap attributeText ++ c :: rest) = true := by
    cases attributes with
    | nil =>
      rw [List.flatMap_nil, List.nil_append, Utf8Text.isText_cut_iff ascii isAllowed,
        Utf8Text.isText_cons_iff ascii isAllowed, isText_of_isName valid, eq_self, true_and]
    | cons named attributes =>
      rw [attributes_cons, Utf8Text.isText_cut_iff (by decide) (by decide),
        Utf8Text.isText_cons_iff (by decide) (by decide), isText_of_isName valid, eq_self,
        true_and]
  rw [startTag, List.cons_append, List.append_assoc,
    Utf8Text.isText_cut_iff (by decide) (by decide), tag,
    isText_attributes_iff names ascii isAllowed]

/-- The bytes of content are UTF-8 if and only if those of its text and values are. -/
theorem isText_printed_iff {content : Content} {text : Bytes} (printed : Printed content text)
    (named : content.Named) :
    Utf8Text.isText isXmlChar text = true ↔ content.HasCharacters := by
  induction printed with
  | text run => rfl
  | empty more ih =>
    obtain ⟨nameValid, names, -, afterNamed⟩ := named
    rw [isText_startTag_iff nameValid names (by decide) (by decide),
      Utf8Text.isText_cons_iff (by decide) (by decide), ih afterNamed]
    simp [Content.HasCharacters, Utf8Text.isText_nil]
  | element content more innerIh moreIh =>
    obtain ⟨nameValid, names, innerNamed, afterNamed⟩ := named
    rw [isText_startTag_iff nameValid names (by decide) (by decide)]
    simp only [endTag, List.cons_append, List.append_assoc, List.nil_append]
    rw [Utf8Text.isText_cut_iff (by decide) (by decide),
      Utf8Text.isText_cons_iff (by decide) (by decide),
      Utf8Text.isText_cut_iff (by decide) (by decide), isText_of_isName nameValid,
      innerIh innerNamed, moreIh afterNamed]
    simp [Content.HasCharacters]

/-- An XML declaration and the line end behind it. -/
structure IsDeclaration (declaration : Bytes) : Prop where
  begins : [60, 63, 120, 109, 108] <+: declaration
  characters : ∀ c ∈ declaration, c < 128 ∧ isXmlChar (Char.ofNat c.toNat) = true
  ends : ∀ text, readDeclaration (declaration ++ text) = some (10 :: text)

/-- A document whose root is printed with its values as they are is read back if and only
if they are plain characters. -/
theorem parse_iff {declaration : Bytes} (isDeclaration : IsDeclaration declaration)
    {content : Content} {text : Bytes} (printed : Printed content text) (named : content.Named)
    {element : Element} (root : content.root = some element) :
    parse (declaration ++ text) = some element ↔ content.Plain ∧ content.HasCharacters := by
  have begins : [60, 63, 120, 109, 108].isPrefixOf (declaration ++ text) = true :=
    List.isPrefixOf_iff_prefix.mpr (isDeclaration.begins.trans (List.prefix_append _ _))
  have characters : Utf8Text.isText isXmlChar (declaration ++ text) = true ↔
      content.HasCharacters :=
    (Utf8Text.isText_ascii_append_iff isDeclaration.characters).trans
      (isText_printed_iff printed named)
  rw [parse, begins, Bool.and_true, isDeclaration.ends, Option.bind_some]
  by_cases isText : Utf8Text.isText isXmlChar (declaration ++ text) = true
  · rw [if_pos isText, readRoot_iff printed named root]
    exact (and_iff_left (characters.mp isText)).symm
  · rw [if_neg isText]
    constructor
    · intro read
      cases read
    · rintro ⟨-, inUtf8⟩
      exact absurd (characters.mpr inUtf8) isText

/-! ## Joined content -/

namespace Content

/-- Content behind content; text that meets is one text. -/
def append : Content → Content → Content
  | .text run, .text more => .text (run ++ more)
  | .text run, .element before name attributes inner after =>
    .element (run ++ before) name attributes inner after
  | .element before name attributes inner after, more =>
    .element before name attributes inner (after.append more)

theorem text_nil_append (content : Content) : (Content.text []).append content = content := by
  cases content <;> rfl

theorem Named.append {first second : Content} (isFirst : first.Named) (isSecond : second.Named) :
    (first.append second).Named := by
  induction first with
  | text run => cases second <;> exact isSecond
  | element before name attributes inner after innerIh afterIh =>
    exact ⟨isFirst.1, isFirst.2.1, isFirst.2.2.1, afterIh isFirst.2.2.2⟩

end Content

theorem Printed.append {first second : Content} {start more : Bytes}
    (isFirst : Printed first start) (isSecond : Printed second more) :
    Printed (first.append second) (start ++ more) := by
  induction isFirst with
  | text run =>
    cases isSecond with
    | text _ => exact .text _
    | empty others =>
      rw [← List.append_assoc]
      exact .empty others
    | element content others =>
      rw [← List.append_assoc]
      exact .element content others
  | empty others ih =>
    simp only [List.append_assoc, List.cons_append]
    exact .empty ih
  | element content others innerIh ih =>
    simp only [List.append_assoc, List.cons_append]
    exact .element content ih

/-! ## Plain bytes by their bytes -/

theorem normalized_false_iff {c : UInt8} : normalized false c = c ↔ c ≠ 13 := by
  grind [normalized]

theorem normalized_true_iff {c : UInt8} : normalized true c = c ↔ c ≠ 9 ∧ c ≠ 10 ∧ c ≠ 13 := by
  grind [normalized]

theorem plainText_iff {run : Bytes} :
    plainText run = true ↔
      (∀ c ∈ run, c ≠ 60 ∧ c ≠ 38 ∧ c ≠ 13) ∧ ¬[93, 93, 62] <:+: run := by
  induction run with
  | nil => simp [plainText, isPlain]
  | cons c run ih =>
    have section_iff : closesSection (c :: run) = false ↔ ¬[93, 93, 62] <+: c :: run := by
      rw [closesSection, ← List.isPrefixOf_iff_prefix, Bool.not_eq_true]
    rw [plainText, isPlain_cons, normalized_false_iff, section_iff, List.forall_mem_cons,
      List.infix_cons_iff, not_or]
    change _ ∧ _ ∧ _ ∧ _ ∧ plainText run = true ↔ _
    rw [ih, endsText, beq_eq_false_iff_ne]
    tauto

theorem plainValue_iff {value : Bytes} :
    plainValue value = true ↔
      ∀ c ∈ value, c ≠ 60 ∧ c ≠ 38 ∧ c ≠ 39 ∧ c ≠ 9 ∧ c ≠ 10 ∧ c ≠ 13 := by
  induction value with
  | nil => simp [plainValue, isPlain]
  | cons c value ih =>
    rw [plainValue, isPlain_cons, normalized_true_iff, List.forall_mem_cons]
    change _ ∧ _ ∧ _ ∧ _ ∧ plainValue value = true ↔ _
    rw [ih, endsValue, Bool.or_eq_false_iff, beq_eq_false_iff_ne, beq_eq_false_iff_ne]
    tauto

end XmlText
