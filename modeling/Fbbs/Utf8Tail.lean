import Fbbs.Parcel
import Fbbs.WideChars

/-!
# Cutting UTF-8 strings

`string_cp` of `lib/string.c` copies as much of a string as there is room for, and
`string_check_tail` takes off the character that was cut.  What is left are whole characters, as
many as fit.
-/

namespace Fbbs

namespace Utf8Tail

open Utf8Text WideChars

/-- The loop of `string_check_tail`, below an index.  The string that is left and the number of
bytes that were taken off. -/
def checkTailBelow (text : Bytes) (stop : Nat) : Nat → Bytes × Nat
  | 0 => (text, 0)
  | p + 1 =>
    match text[p]? with
    | none => (text, 0)
    | some c =>
      if isCont c then checkTailBelow text stop p
      else if (nextWchar (text.drop p)).1 = weof then (text.take p, stop - p)
      else (text, 0)

/-- The end is `NULL` or the index of the terminator. -/
def stringCheckTail (text : Bytes) (stop : Option Nat) : Bytes × Nat :=
  let stop := stop.getD text.length
  checkTailBelow text stop stop

def strlcpy (dst : Bytes) (src : CString) (siz : Nat) : Bytes × Nat :=
  (if siz = 0 then dst else (src.truncate siz).bytes, src.bytes.length)

def stringCp (dst : Bytes) (src : CString) (siz : Nat) : Bytes × Nat :=
  let (copied, size) := strlcpy dst src siz
  if size ≥ siz then
    let (kept, removed) := stringCheckTail copied (some (siz - 1))
    (kept, size - removed)
  else (copied, size)

theorem lead_not_cont : ∀ a < 64, isCont (UInt8.ofNat (a + 0xc0)) = false := by
  decide

theorem ascii_not_cont : ∀ a < 128, isCont (UInt8.ofNat a) = false := by
  decide

/-- Only the first byte of a character does not continue one. -/
theorem encodeChar_eq_cons (c : Char) :
    ∃ lead conts, String.utf8EncodeChar c = lead :: conts ∧ isCont lead = false ∧
      ∀ byte ∈ conts, isCont byte = true := by
  have cont (b : Nat) : isCont (UInt8.ofNat (b % 64 + 0x80)) = true :=
    (cont_ofNat (b % 64) (Nat.mod_lt b (by omega))).1
  simp only [String.utf8EncodeChar]
  split
  next one => exact ⟨_, [], rfl, ascii_not_cont _ (by omega), by simp⟩
  next =>
    split
    next two =>
      have lead := lead_not_cont (c.val.toNat / 64 % 32) (by omega)
      exact ⟨_, _, rfl, lead, by
          simp only [List.forall_mem_cons, cont, List.not_mem_nil, false_imp_iff, implies_true,
            and_self]⟩
    next =>
      split
      next three =>
        have lead := lead_not_cont (c.val.toNat / 4096 % 16 + 32) (by omega)
        exact ⟨_, _, rfl, lead, by
          simp only [List.forall_mem_cons, cont, List.not_mem_nil, false_imp_iff, implies_true,
            and_self]⟩
      next four =>
        have lead := lead_not_cont (c.val.toNat / 262144 % 8 + 48) (by omega)
        exact ⟨_, _, rfl, lead, by
          simp only [List.forall_mem_cons, cont, List.not_mem_nil, false_imp_iff, implies_true,
            and_self]⟩

/-- A whole character is read. -/
theorem nextWchar_encodeChar (c : Char) : (nextWchar (String.utf8EncodeChar c)).1 ≠ weof := by
  by_cases high : 128 ≤ c.toNat
  · have read := nextWchar_encode high []
    rw [List.append_nil] at read
    rw [read]
    exact fun negative => by cases negative
  · have ascii : UInt8.ofNat c.toNat < 0x80 := by
      rw [UInt8.lt_iff_toNat_lt, UInt8.toNat_ofNat']
      exact Nat.lt_of_le_of_lt (Nat.mod_le _ _) (Nat.lt_of_not_le high)
    rw [encodeChar_of_lt (Nat.lt_of_not_le high)]
    simp only [nextWchar, if_pos ascii]
    split_ifs with zero
    · decide
    · exact fun negative => by cases negative

theorem nextWchar_part (c : Char) {k : Nat} (pos : 0 < k)
    (part : k < (String.utf8EncodeChar c).length) :
    (nextWchar ((String.utf8EncodeChar c).take k)).1 = weof := by
  simp only [String.utf8EncodeChar] at part ⊢
  split at part
  next one =>
    simp only [List.length_singleton] at part
    omega
  next two =>
    rw [if_neg two]
    split at part
    next two =>
      rw [if_pos two]
      obtain ⟨nonzero, high, isTwo, -⟩ := lead_two (c.val.toNat / 64 % 32) (by omega)
      simp only [List.length_cons, List.length_nil] at part
      have single : k = 1 := by omega
      simp only [single, List.take, nextWchar, if_neg nonzero, if_neg high, if_pos isTwo]
    next three =>
      rw [if_neg three]
      split at part
      next three =>
        rw [if_pos three]
        obtain ⟨nonzero, high, notTwo, isThree, -⟩ :=
          lead_three (c.val.toNat / 4096 % 16) (by omega)
        simp only [List.length_cons, List.length_nil] at part
        rcases show k = 1 ∨ k = 2 by omega with rfl | rfl <;>
          simp only [List.take, nextWchar, if_neg nonzero, if_neg high, if_neg notTwo,
            if_pos isThree]
      next four =>
        rw [if_neg four]
        obtain ⟨nonzero, high, notTwo, notThree, isFour, -⟩ :=
          lead_four (c.val.toNat / 262144 % 8) (by omega)
        simp only [List.length_cons, List.length_nil] at part
        rcases show k = 1 ∨ k = 2 ∨ k = 3 by omega with rfl | rfl | rfl <;>
          simp only [List.take, nextWchar, if_neg nonzero, if_neg high, if_neg notTwo,
            if_neg notThree, if_pos isFour]

/-- The loop goes back to the start of the last character. -/
theorem checkTailBelow_char {front conts : Bytes} {lead : UInt8} (stop : Nat)
    (isLead : isCont lead = false) (areConts : ∀ byte ∈ conts, isCont byte = true) {k : Nat}
    (inside : k ≤ conts.length) :
    checkTailBelow (front ++ lead :: conts) stop (front.length + 1 + k) =
      if (nextWchar (lead :: conts)).1 = weof then (front, stop - front.length)
      else (front ++ lead :: conts, 0) := by
  induction k with
  | zero =>
    have here : (front ++ lead :: conts)[front.length]? = some lead := by simp
    simp only [checkTailBelow, here, isLead, Bool.false_eq_true, if_false,
      List.drop_left, List.take_left]
  | succ k ih =>
    have cont : conts[k]? = some conts[k] := List.getElem?_eq_getElem inside
    have here : (front ++ lead :: conts)[front.length + 1 + k]? = some conts[k] := by
      rw [List.getElem?_append_right (by omega), ← cont]
      have index : front.length + 1 + k - front.length = k + 1 := by omega
      rw [index, List.getElem?_cons_succ]
    rw [← Nat.add_assoc, checkTailBelow]
    simp only [here, areConts _ (List.getElem_mem inside), if_true]
    exact ih (Nat.le_of_succ_le inside)

theorem checkTailBelow_whole (front : List Char) (stop : Nat) :
    checkTailBelow (encode front) stop (encode front).length = (encode front, 0) := by
  rcases List.eq_nil_or_concat front with rfl | ⟨front, c, rfl⟩
  · rfl
  · obtain ⟨lead, conts, char, isLead, areConts⟩ := encodeChar_eq_cons c
    have single : encode [c] = lead :: conts := by
      rw [encode, List.flatMap_singleton, char]
    have read := nextWchar_encodeChar c
    rw [char] at read
    rw [List.concat_eq_append, encode_append, single, List.length_append, List.length_cons,
      Nat.add_comm conts.length, ← Nat.add_assoc,
      checkTailBelow_char stop isLead areConts (Nat.le_refl _), if_neg read]

/-- A character that was cut is taken off. -/
theorem checkTailBelow_cut (front : List Char) (c : Char) {k : Nat} (stop : Nat) (pos : 0 < k)
    (part : k < (String.utf8EncodeChar c).length) :
    checkTailBelow (encode front ++ (String.utf8EncodeChar c).take k) stop
      (encode front ++ (String.utf8EncodeChar c).take k).length =
        (encode front, stop - (encode front).length) := by
  have invalid := nextWchar_part c pos part
  obtain ⟨lead, conts, char, isLead, areConts⟩ := encodeChar_eq_cons c
  obtain ⟨k, rfl⟩ := Nat.exists_eq_add_of_lt pos
  rw [char, Nat.zero_add, List.take_succ_cons] at invalid ⊢
  have stillConts : ∀ byte ∈ conts.take k, isCont byte = true :=
    fun byte member => areConts byte (List.mem_of_mem_take member)
  rw [List.length_append, List.length_cons, Nat.add_comm (conts.take k).length, ← Nat.add_assoc,
    checkTailBelow_char stop isLead stillConts (Nat.le_refl _), if_pos invalid]

/-- Of the first bytes of a text the whole characters are left. -/
theorem stringCheckTail_take (chars : List Char) (limit : Nat) :
    stringCheckTail ((encode chars).take limit) none =
      (encode (fitting limit chars),
        ((encode chars).take limit).length - (encode (fitting limit chars)).length) := by
  rw [stringCheckTail, Option.getD_none]
  rcases take_encode chars limit with whole | ⟨c, k, pos, part, cut⟩
  · rw [whole, checkTailBelow_whole, Nat.sub_self]
  · rw [cut, checkTailBelow_cut _ c _ pos part]

theorem stringCheckTail_length (text : Bytes) :
    stringCheckTail text (some text.length) = stringCheckTail text none :=
  rfl

/-- A UTF-8 string of any length is copied up to the last character that fits. -/
theorem stringCp_fitting (dst : Bytes) {src : CString} {chars : List Char}
    (text : src.bytes = encode chars) {siz : Nat} (room : 1 ≤ siz) :
    (stringCp dst src siz).1 = encode (fitting (siz - 1) chars) := by
  have nonzero : siz ≠ 0 := by omega
  simp only [stringCp, strlcpy, if_neg nonzero, CString.truncate, text]
  split
  next cut =>
    have full : ((encode chars).take (siz - 1)).length = siz - 1 := by
      rw [List.length_take]
      omega
    have tail := stringCheckTail_take chars (siz - 1)
    rw [← stringCheckTail_length, full] at tail
    rw [tail]
  next short =>
    rw [List.take_of_length_le (by omega), fitting_of_length_le (by omega)]

/-- Copying and taking off the tail leave the longest start of whole characters. -/
theorem longestWhole_stringCp_and_stringCheckTail {src : CString} {chars : List Char}
    (text : src.bytes = encode chars) :
    (∀ (dst : Bytes) (siz : Nat), 1 ≤ siz →
      LongestWhole chars (siz - 1) (stringCp dst src siz).1) ∧
    ∀ cut, cut <+: src.bytes →
      LongestWhole chars cut.length (stringCheckTail cut none).1 ∧
      (stringCheckTail cut none).2 = cut.length - (stringCheckTail cut none).1.length := by
  constructor
  · intro dst siz room
    rw [stringCp_fitting dst text room]
    exact longestWhole_fitting chars (siz - 1)
  · intro cut start
    rw [text, List.prefix_iff_eq_take] at start
    have tail := stringCheckTail_take chars cut.length
    rw [← start] at tail
    rw [tail]
    exact ⟨longestWhole_fitting chars cut.length, rfl⟩

theorem helloNulFree : (0 : UInt8) ∉ encode ['h', 'é', '中', '😀'] := by
  decide

def hello : CString :=
  ⟨encode ['h', 'é', '中', '😀'], helloNulFree⟩

theorem hello_longestWhole :
    hello.bytes = encode ['h', 'é', '中', '😀'] ∧
      LongestWhole ['h', 'é', '中', '😀'] 5 (stringCp [] hello 6).1 :=
  have text : hello.bytes = encode ['h', 'é', '中', '😀'] := rfl
  ⟨text, (longestWhole_stringCp_and_stringCheckTail text).1 [] 6 (by decide)⟩

example : stringCheckTail [0x68, 0xc3, 0xa9, 0xe4, 0xb8] none = ([0x68, 0xc3, 0xa9], 2) := by
  decide

end Utf8Tail

end Fbbs
