import Fbbs.AsciiBytes

/-!
# GBK texts as bytes

A character is a byte below 128 or a pair of a lead byte and a trail byte.  Trail bytes may be
below 128 too, so the characters of a text are found from its start only.
-/

namespace GbkText

open AsciiBytes

def isLead (byte : UInt8) : Bool :=
  0x81 ≤ byte && byte ≤ 0xfe

def isTrail (byte : UInt8) : Bool :=
  0x40 ≤ byte && byte != 0x7f

inductive Symbol
  | ascii (byte : UInt8) (low : byte < 0x80)
  | pair (lead trail : UInt8) (leads : isLead lead = true) (trails : isTrail trail = true)
  deriving DecidableEq

def Symbol.bytes : Symbol → List UInt8
  | ascii byte _ => [byte]
  | pair lead trail _ _ => [lead, trail]

/-- The bytes of characters. -/
def encode (symbols : List Symbol) : List UInt8 :=
  symbols.flatMap Symbol.bytes

def IsText (bytes : List UInt8) : Prop :=
  ∃ symbols, bytes = encode symbols

/-- Whether a text ends in a pair after one more byte. -/
def toggle (inPair : Bool) (c : UInt8) : Bool :=
  !inPair && c &&& 0x80 != 0

theorem isLead_iff (byte : UInt8) :
    isLead byte = true ↔ 0x80 ≤ byte ∧ byte ≠ 0x80 ∧ byte ≠ 0xff := by
  rw [isLead, Bool.and_eq_true, decide_eq_true_eq, decide_eq_true_eq, UInt8.le_iff_toNat_le,
    UInt8.le_iff_toNat_le, UInt8.le_iff_toNat_le, Ne, Ne, ← UInt8.toNat_inj, ← UInt8.toNat_inj]
  have small := byte.toNat_lt
  simp only [UInt8.reduceToNat]
  omega

theorem isTrail_iff (byte : UInt8) :
    isTrail byte = true ↔ ¬(byte < 0x40 ∨ byte = 0x7f) := by
  rw [isTrail, Bool.and_eq_true, decide_eq_true_eq, bne_iff_ne, not_or, UInt8.not_lt]

theorem encode_cons (symbol : Symbol) (symbols : List Symbol) :
    encode (symbol :: symbols) = symbol.bytes ++ encode symbols :=
  List.flatMap_cons

theorem encode_append (first second : List Symbol) :
    encode (first ++ second) = encode first ++ encode second :=
  List.flatMap_append

theorem isText_nil : IsText [] :=
  ⟨[], rfl⟩

theorem IsText.ascii {byte : UInt8} {bytes : List UInt8} (text : IsText bytes)
    (low : byte < 0x80) : IsText (byte :: bytes) := by
  obtain ⟨symbols, rfl⟩ := text
  exact ⟨.ascii byte low :: symbols, rfl⟩

theorem IsText.pair {lead trail : UInt8} {bytes : List UInt8} (text : IsText bytes)
    (leads : isLead lead = true) (trails : isTrail trail = true) :
    IsText (lead :: trail :: bytes) := by
  obtain ⟨symbols, rfl⟩ := text
  exact ⟨.pair lead trail leads trails :: symbols, rfl⟩

theorem toggle_low {c : UInt8} (low : c < 0x80) (inPair : Bool) : toggle inPair c = false := by
  rw [toggle, bne, beq_iff_eq.mpr (and_0x80_of_lt low), Bool.not_true, Bool.and_false]

theorem toggle_high {c : UInt8} (high : 0x80 ≤ c) : toggle false c = true := by
  rw [toggle, Bool.not_false, Bool.true_and, bne_iff_ne]
  exact (and_0x80 c).mpr high

/-- Where the first bytes of a text end: between two characters, or in a pair. -/
theorem foldl_toggle_take {symbols : List Symbol} {k : Nat} (inside : k ≤ (encode symbols).length) :
    ∃ front back, symbols = front ++ back ∧
      (((encode symbols).take k).foldl toggle false = false ∧ k = (encode front).length ∨
        ((encode symbols).take k).foldl toggle false = true ∧ k = (encode front).length + 1 ∧
          ∃ lead trail leads trails rest, back = .pair lead trail leads trails :: rest) := by
  induction symbols generalizing k with
  | nil =>
    have zero : k = 0 := Nat.le_zero.mp inside
    exact ⟨[], [], rfl, .inl ⟨by rw [zero]; rfl, zero⟩⟩
  | cons symbol symbols ih =>
    rw [encode_cons, List.length_append] at inside
    rw [encode_cons]
    cases symbol with
    | ascii byte low =>
      cases k with
      | zero => exact ⟨[], .ascii byte low :: symbols, rfl, .inl ⟨rfl, rfl⟩⟩
      | succ k =>
        have room : k ≤ (encode symbols).length := by
          rw [Symbol.bytes, List.length_singleton] at inside
          omega
        obtain ⟨front, back, rfl, place⟩ := ih room
        refine ⟨.ascii byte low :: front, back, rfl, ?_⟩
        rw [Symbol.bytes, List.singleton_append, List.take_succ_cons, List.foldl_cons,
          toggle_low low, encode_cons, Symbol.bytes, List.singleton_append,
          List.length_cons]
        exact place.imp (And.imp_right (congrArg Nat.succ))
          (And.imp_right (And.imp_left (congrArg Nat.succ)))
    | pair lead trail leads trails =>
      have high := toggle_high ((isLead_iff lead).mp leads).1
      rcases k with _ | _ | k
      · exact ⟨[], .pair lead trail leads trails :: symbols, rfl, .inl ⟨rfl, rfl⟩⟩
      · exact ⟨[], _, rfl, .inr ⟨high, rfl, lead, trail, leads, trails, symbols, rfl⟩⟩
      · have room : k ≤ (encode symbols).length := by
          simp only [Symbol.bytes, List.length_cons, List.length_nil] at inside
          omega
        have outside : toggle true trail = false := rfl
        obtain ⟨front, back, rfl, place⟩ := ih room
        refine ⟨.pair lead trail leads trails :: front, back, rfl, ?_⟩
        rw [Symbol.bytes, List.cons_append, List.singleton_append, List.take_succ_cons,
          List.take_succ_cons, List.foldl_cons, List.foldl_cons, high, outside, encode_cons,
          Symbol.bytes, List.cons_append, List.singleton_append, List.length_cons,
          List.length_cons]
        exact place.imp (And.imp_right (congrArg (· + 2)))
          (And.imp_right (And.imp_left (congrArg (· + 2))))

end GbkText
