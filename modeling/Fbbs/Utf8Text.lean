import Mathlib.Data.List.Basic

/-!
# UTF-8 texts as bytes

The characters of a byte string and the bytes of characters.  Characters below 128 are
single bytes and no byte of another character is below 128, so a text may be cut at
them.
-/

namespace Utf8Text

/-- The bytes of characters. -/
def encode (chars : List Char) : List UInt8 :=
  chars.flatMap String.utf8EncodeChar

/-- The characters of bytes that are UTF-8. -/
def decode (bytes : List UInt8) : Option (List Char) :=
  bytes.toByteArray.utf8Decode?.map Array.toList

theorem decode_encode (chars : List Char) : decode (encode chars) = some chars := by
  have bytes : (encode chars).toByteArray = chars.utf8Encode := rfl
  rw [decode, bytes, List.utf8Decode?_utf8Encode]
  rfl

theorem decode_eq_some_iff {bytes : List UInt8} {chars : List Char} :
    decode bytes = some chars ↔ bytes = encode chars := by
  constructor
  · intro decoded
    obtain ⟨array, found, rfl⟩ := Option.map_eq_some_iff.mp decoded
    have isSome : bytes.toByteArray.utf8Decode?.isSome = true := by
      rw [found]
      rfl
    have encoded := ByteArray.utf8Encode_get_utf8Decode? (h := isSome)
    simp only [found, Option.get_some] at encoded
    rw [List.utf8Encode, List.toByteArray_inj] at encoded
    exact encoded.symm
  · rintro rfl
    exact decode_encode chars

theorem encode_append (first second : List Char) :
    encode (first ++ second) = encode first ++ encode second :=
  List.flatMap_append

/-- The bytes are UTF-8 and their characters are allowed. -/
def isText (allowed : Char → Bool) (bytes : List UInt8) : Bool :=
  (decode bytes).any fun chars => chars.all allowed

theorem isText_iff {allowed : Char → Bool} {bytes : List UInt8} :
    isText allowed bytes = true ↔
      ∃ chars, bytes = encode chars ∧ ∀ c ∈ chars, allowed c = true := by
  simp only [isText, Option.any_eq_true, decode_eq_some_iff, List.all_eq_true]

/-- A character below 128 is one byte. -/
theorem encodeChar_of_lt {c : Char} (low : c.toNat < 128) :
    String.utf8EncodeChar c = [UInt8.ofNat c.toNat] := by
  have small : c.val.toNat ≤ 0x7f := Nat.le_of_lt_succ low
  simp only [String.utf8EncodeChar, if_pos small]
  rfl

theorem encode_ofNat {byte : UInt8} (ascii : byte < 128) :
    encode [Char.ofNat byte.toNat] = [byte] := by
  have small : byte.toNat < 128 := ascii
  have valid : byte.toNat.isValidChar := .inl (by omega)
  have number : (Char.ofNat byte.toNat).toNat = byte.toNat := by
    rw [Char.ofNat, dif_pos valid]
    rfl
  rw [encode, List.flatMap_singleton, encodeChar_of_lt (by omega), number, UInt8.ofNat_toNat]

/-- The bytes of another character are not below 128. -/
theorem le_of_mem_encodeChar {c : Char} (high : 128 ≤ c.toNat) :
    ∀ byte ∈ String.utf8EncodeChar c, 128 ≤ byte := by
  have large : ¬c.val.toNat ≤ 0x7f := Nat.not_le.mpr high
  simp only [String.utf8EncodeChar, if_neg large]
  split
  · simp only [List.forall_mem_cons, List.not_mem_nil, IsEmpty.forall_iff, implies_true, and_true,
      UInt8.le_iff_toNat_le, UInt8.toNat_ofNat', UInt8.reduceToNat]
    omega
  · split <;> simp only [List.forall_mem_cons, List.not_mem_nil, IsEmpty.forall_iff, implies_true,
      and_true, UInt8.le_iff_toNat_le, UInt8.toNat_ofNat', UInt8.reduceToNat] <;> omega

section Texts

variable {allowed : Char → Bool} {bytes first second : List UInt8}

theorem isText_nil (allowed : Char → Bool) : isText allowed [] = true :=
  isText_iff.mpr ⟨[], rfl, by simp⟩

theorem isText_append (isFirst : isText allowed first = true)
    (isSecond : isText allowed second = true) : isText allowed (first ++ second) = true := by
  obtain ⟨firstChars, rfl, firstAllowed⟩ := isText_iff.mp isFirst
  obtain ⟨secondChars, rfl, secondAllowed⟩ := isText_iff.mp isSecond
  refine isText_iff.mpr ⟨firstChars ++ secondChars, (encode_append _ _).symm, ?_⟩
  exact List.forall_mem_append.mpr ⟨firstAllowed, secondAllowed⟩

/-- An allowed character below 128. -/
theorem isText_singleton {byte : UInt8} (ascii : byte < 128)
    (isAllowed : allowed (Char.ofNat byte.toNat) = true) : isText allowed [byte] = true :=
  isText_iff.mpr ⟨[Char.ofNat byte.toNat], (encode_ofNat ascii).symm, by simpa using isAllowed⟩

theorem isText_of_ascii (ascii : ∀ byte ∈ bytes, byte < 128)
    (isAllowed : ∀ byte ∈ bytes, allowed (Char.ofNat byte.toNat) = true) :
    isText allowed bytes = true := by
  induction bytes with
  | nil => exact isText_nil allowed
  | cons byte bytes ih =>
    rw [List.forall_mem_cons] at ascii isAllowed
    exact isText_append (isText_singleton ascii.1 isAllowed.1) (ih ascii.2 isAllowed.2)

theorem isText_cut {byte : UInt8} (ascii : byte < 128)
    (text : isText allowed (first ++ byte :: second) = true) :
    isText allowed first = true ∧ isText allowed second = true := by
  obtain ⟨chars, bytes, isAllowed⟩ := isText_iff.mp text
  clear text
  induction chars generalizing first with
  | nil => simp [encode] at bytes
  | cons c chars ih =>
    rw [List.forall_mem_cons] at isAllowed
    rw [encode, List.flatMap_cons, List.append_eq_append_iff] at bytes
    have isChar : isText allowed (String.utf8EncodeChar c) = true :=
      isText_iff.mpr ⟨[c], (List.flatMap_singleton _ _).symm, by simpa using isAllowed.1⟩
    rcases bytes with ⟨inside, charBytes, after⟩ | ⟨before, rfl, after⟩
    · cases inside with
      | nil =>
        rw [List.append_nil] at charBytes
        have start : [] ++ byte :: second = encode chars := after
        rw [← charBytes]
        exact ⟨isChar, (ih start isAllowed.2).2⟩
      | cons x inside =>
        obtain ⟨rfl, rfl⟩ := List.cons.inj after
        have low : c.toNat < 128 := by
          by_contra high
          have large := le_of_mem_encodeChar (Nat.le_of_not_lt high) byte (by simp [charBytes])
          exact UInt8.not_le.mpr ascii large
        rw [encodeChar_of_lt low, eq_comm, List.append_eq_singleton_iff] at charBytes
        rcases charBytes with ⟨rfl, single⟩ | ⟨rfl, none⟩
        · rw [(List.cons.inj single).2]
          exact ⟨isText_nil allowed, isText_iff.mpr ⟨chars, rfl, isAllowed.2⟩⟩
        · cases none
    · obtain ⟨isBefore, isSecond⟩ := ih after.symm isAllowed.2
      exact ⟨isText_append isChar isBefore, isSecond⟩

theorem isText_cut_iff {byte : UInt8} (ascii : byte < 128)
    (isAllowed : allowed (Char.ofNat byte.toNat) = true) :
    isText allowed (first ++ byte :: second) = true ↔
      isText allowed first = true ∧ isText allowed second = true := by
  constructor
  · exact isText_cut ascii
  · rintro ⟨isFirst, isSecond⟩
    exact isText_append isFirst (isText_append (isText_singleton ascii isAllowed) isSecond)

theorem isText_cons_iff {byte : UInt8} (ascii : byte < 128)
    (isAllowed : allowed (Char.ofNat byte.toNat) = true) :
    isText allowed (byte :: second) = true ↔ isText allowed second = true := by
  have cut : isText allowed ([] ++ byte :: second) = true ↔ _ := isText_cut_iff ascii isAllowed
  rw [isText_nil, eq_self, true_and] at cut
  exact cut

theorem isText_ascii_append_iff
    (ascii : ∀ byte ∈ first, byte < 128 ∧ allowed (Char.ofNat byte.toNat) = true) :
    isText allowed (first ++ second) = true ↔ isText allowed second = true := by
  induction first with
  | nil => rfl
  | cons byte first ih =>
    obtain ⟨here, others⟩ := List.forall_mem_cons.mp ascii
    rw [List.cons_append, isText_cons_iff here.1 here.2, ih others]

/-- Bytes from 128 on are kept, and each byte below 128 becomes a text. -/
theorem isText_flatMap {replace : UInt8 → List UInt8}
    (kept : ∀ byte, 128 ≤ byte → replace byte = [byte])
    (replaced : ∀ byte, byte < 128 → isText allowed (replace byte) = true)
    (text : isText allowed bytes = true) : isText allowed (bytes.flatMap replace) = true := by
  obtain ⟨chars, rfl, isAllowed⟩ := isText_iff.mp text
  clear text
  induction chars with
  | nil => exact isText_nil allowed
  | cons c chars ih =>
    rw [List.forall_mem_cons] at isAllowed
    rw [encode, List.flatMap_cons, List.flatMap_append]
    refine isText_append ?_ (ih isAllowed.2)
    by_cases low : c.toNat < 128
    · rw [encodeChar_of_lt low, List.flatMap_singleton]
      apply replaced
      rw [UInt8.lt_iff_toNat_lt, UInt8.toNat_ofNat']
      exact Nat.lt_of_le_of_lt (Nat.mod_le _ _) low
    · have high := le_of_mem_encodeChar (Nat.le_of_not_lt low)
      have same : (String.utf8EncodeChar c).flatMap replace = String.utf8EncodeChar c := by
        rw [List.flatMap_congr fun byte member => kept byte (high byte member)]
        exact List.flatMap_singleton' _
      rw [same]
      exact isText_iff.mpr ⟨[c], (List.flatMap_singleton _ _).symm, by simpa using isAllowed.1⟩

end Texts

/-- The characters from the start that fit into some bytes. -/
def fitting : Nat → List Char → List Char
  | _, [] => []
  | limit, c :: chars =>
    if (String.utf8EncodeChar c).length ≤ limit then
      c :: fitting (limit - (String.utf8EncodeChar c).length) chars
    else []

/-- The longest start of a text that is made of whole characters and has at most so many bytes. -/
structure LongestWhole (chars : List Char) (limit : Nat) (bytes : List UInt8) : Prop where
  whole : ∃ front, front <+: chars ∧ bytes = encode front
  fits : bytes.length ≤ limit
  longest : ∀ front, front <+: chars → (encode front).length ≤ limit →
    (encode front).length ≤ bytes.length

theorem encode_cons (c : Char) (chars : List Char) :
    encode (c :: chars) = String.utf8EncodeChar c ++ encode chars :=
  List.flatMap_cons

theorem longestWhole_fitting (chars : List Char) (limit : Nat) :
    LongestWhole chars limit (encode (fitting limit chars)) := by
  induction chars generalizing limit with
  | nil =>
    apply LongestWhole.mk ⟨[], List.nil_prefix, rfl⟩ (Nat.zero_le limit)
    intro front start _
    obtain rfl := List.prefix_nil.mp start
    exact Nat.le_refl _
  | cons c chars ih =>
    rw [fitting]
    split
    next fits =>
      obtain ⟨⟨front, start, isFront⟩, inside, longest⟩ :=
        ih (limit - (String.utf8EncodeChar c).length)
      rw [encode_cons]
      apply LongestWhole.mk
      · exact ⟨c :: front, List.prefix_cons_inj c |>.mpr start, by rw [encode_cons, isFront]⟩
      · rw [List.length_append]
        omega
      · intro other isStart short
        cases other with
        | nil => exact Nat.zero_le _
        | cons d other =>
          obtain ⟨rfl, behind⟩ := List.cons_prefix_cons.mp isStart
          rw [encode_cons, List.length_append] at short ⊢
          have shorter := longest other behind (by omega)
          rw [List.length_append]
          omega
    next long =>
      apply LongestWhole.mk ⟨[], List.nil_prefix, rfl⟩ (Nat.zero_le limit)
      intro other isStart short
      cases other with
      | nil => exact Nat.le_refl _
      | cons d other =>
        obtain ⟨rfl, -⟩ := List.cons_prefix_cons.mp isStart
        rw [encode_cons, List.length_append] at short
        omega

theorem fitting_of_length_le {chars : List Char} {limit : Nat}
    (short : (encode chars).length ≤ limit) : fitting limit chars = chars := by
  induction chars generalizing limit with
  | nil => rfl
  | cons c chars ih =>
    rw [encode_cons, List.length_append] at short
    rw [fitting, if_pos (by omega), ih (by omega)]

/-- The bytes from the start are whole characters and a part of the character behind them. -/
theorem take_encode (chars : List Char) (limit : Nat) :
    (encode chars).take limit = encode (fitting limit chars) ∨
      ∃ c k, 0 < k ∧ k < (String.utf8EncodeChar c).length ∧
        (encode chars).take limit =
          encode (fitting limit chars) ++ (String.utf8EncodeChar c).take k := by
  induction chars generalizing limit with
  | nil => exact .inl (List.take_nil)
  | cons c chars ih =>
    rw [encode_cons, fitting]
    split
    next fits =>
      rw [List.take_append, List.take_of_length_le fits, encode_cons]
      rcases ih (limit - (String.utf8EncodeChar c).length) with whole | ⟨d, k, pos, part, cut⟩
      · exact .inl (by rw [whole])
      · exact .inr ⟨d, k, pos, part, by rw [cut, List.append_assoc]⟩
    next long =>
      rw [List.take_append_of_le_length (by omega)]
      rcases Nat.eq_zero_or_pos limit with rfl | pos
      · exact .inl rfl
      · exact .inr ⟨c, limit, pos, by omega, rfl⟩

end Utf8Text
