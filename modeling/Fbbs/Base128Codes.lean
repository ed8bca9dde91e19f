import Fbbs.WordEncodings

/-!
# Codes in base 128

Which strings of bytes are base-128 groups of a number: all bytes but the last one have the
continuation bit, and the last one is not zero unless it is the only one.
-/

namespace WordEncodings

namespace Base128

/-- The number of some bytes with the continuation bit and a last one without it. -/
def codeValue : List UInt8 → UInt8 → Nat
  | [], last => last.toNat
  | byte :: more, last => byte.toNat % 128 + 128 * codeValue more last

/-- All bytes but the last one have the continuation bit. -/
structure IsCode (more : List UInt8) (last : UInt8) : Prop where
  continued : ∀ byte ∈ more, 128 ≤ byte.toNat
  ends : last.toNat < 128

/-- The last byte is needed. -/
def IsShort (more : List UInt8) (last : UInt8) : Prop :=
  more = [] ∨ last ≠ 0

instance (more : List UInt8) (last : UInt8) : Decidable (IsShort more last) :=
  inferInstanceAs (Decidable (_ ∨ _))

variable {more : List UInt8} {last : UInt8}

theorem codeValue_pos (nonzero : last ≠ 0) : 0 < codeValue more last := by
  induction more with
  | nil =>
    rw [codeValue]
    exact Nat.pos_of_ne_zero fun zero => nonzero (UInt8.toNat_inj.mp zero)
  | cons byte more ih =>
    rw [codeValue]
    omega

theorem groups_codeValue {fuel : Nat} (code : IsCode more last) (short : IsShort more last)
    (enough : more.length < fuel) : groups fuel (codeValue more last) = more ++ [last] := by
  induction more generalizing fuel with
  | nil =>
    obtain ⟨fuel, rfl⟩ := Nat.exists_eq_succ_of_ne_zero (Nat.ne_of_gt enough)
    rw [groups, codeValue, if_pos code.ends, UInt8.ofNat_toNat]
    rfl
  | cons byte more ih =>
    obtain ⟨fuel, rfl⟩ := Nat.exists_eq_succ_of_ne_zero (Nat.ne_of_gt (Nat.zero_lt_of_lt enough))
    rw [List.length_cons] at enough
    have nonzero : last ≠ 0 := short.resolve_left (List.cons_ne_nil _ _)
    have positive : 0 < codeValue more last := codeValue_pos nonzero
    have high := code.continued byte List.mem_cons_self
    have below := byte.toNat_lt
    have rest : IsCode more last :=
      ⟨fun other member => code.continued other (List.mem_cons_of_mem _ member), code.ends⟩
    have low : (byte.toNat % 128 + 128 * codeValue more last) % 128 = byte.toNat % 128 := by
      omega
    have next : (byte.toNat % 128 + 128 * codeValue more last) / 128 = codeValue more last := by
      omega
    have whole : byte.toNat % 128 + 128 = byte.toNat := by omega
    rw [groups, codeValue, if_neg (by omega), low, next, whole, UInt8.ofNat_toNat,
      ih rest (.inr nonzero) (by omega), List.cons_append]

theorem exists_code_of_lt (fuel : Nat) {value : Nat} (small : value < 128) :
    ∃ more last, groups (fuel + 1) value = more ++ [last] ∧ IsCode more last ∧
      IsShort more last ∧ codeValue more last = value := by
  have same : (UInt8.ofNat value).toNat = value := by
    rw [UInt8.toNat_ofNat']
    omega
  have ends : (UInt8.ofNat value).toNat < 128 := Nat.lt_of_le_of_lt (Nat.le_of_eq same) small
  refine ⟨[], UInt8.ofNat value, ?_, ⟨by simp, ends⟩, .inl rfl, same⟩
  rw [groups, if_pos small, List.nil_append]

/-- The groups of a number are a code without a needless byte. -/
theorem exists_code_of_groups {fuel value : Nat} (complete : value < 128 ^ (fuel + 1)) :
    ∃ more last, groups (fuel + 1) value = more ++ [last] ∧ IsCode more last ∧
      IsShort more last ∧ codeValue more last = value := by
  induction fuel generalizing value with
  | zero => exact exists_code_of_lt 0 complete
  | succ fuel ih =>
    by_cases small : value < 128
    · exact exists_code_of_lt (fuel + 1) small
    · have restComplete : value / 128 < 128 ^ (fuel + 1) := by
        rw [pow_succ] at complete
        exact Nat.div_lt_of_lt_mul (by omega)
      obtain ⟨more, last, groupsEq, code, short, valueEq⟩ := ih restComplete
      have byte : (UInt8.ofNat (value % 128 + 128)).toNat = value % 128 + 128 := by
        rw [UInt8.toNat_ofNat']
        omega
      have nonzero : last ≠ 0 := by
        rintro rfl
        obtain rfl := short.resolve_right fun other => other rfl
        have zero : value / 128 = 0 := valueEq.symm
        omega
      refine ⟨UInt8.ofNat (value % 128 + 128) :: more, last, ?_, ⟨?_, code.ends⟩, .inr nonzero,
        ?_⟩
      · rw [groups, if_neg small, groupsEq, List.cons_append]
      · intro other member
        obtain rfl | member := List.mem_cons.mp member
        · rw [byte]
          omega
        · exact code.continued other member
      · rw [codeValue, valueEq, byte]
        omega

/-- The number of a code with a last byte that is not zero is not below a power of 128. -/
theorem pow_le_codeValue (nonzero : last ≠ 0) : 128 ^ more.length ≤ codeValue more last := by
  induction more with
  | nil => exact codeValue_pos nonzero
  | cons byte more ih =>
    rw [List.length_cons, pow_succ, codeValue]
    omega

end Base128

end WordEncodings
