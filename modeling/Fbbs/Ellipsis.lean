import Fbbs.GbkText
import Fbbs.Parcel

/-!
# Shortening GBK texts

`ellipsis` of `lib/string.c` makes a text shorter and ends it with dots.  For a text that is short
enough it is to do nothing, but it looks for the end of the text behind the place that its first
loop has come to, which may be the end already.
-/

namespace Fbbs

namespace Ellipsis

open AsciiBytes GbkText

def dot : UInt8 := 46

/-- The first loop: the pointer and `inGBK`; `none` where the memory is left. -/
def skip (memory : Bytes) : Nat → Nat → Bool → Option (Nat × Bool)
  | 0, ptr, inGBK => memory[ptr]?.map fun _ => (ptr, inGBK)
  | i + 1, ptr, inGBK =>
    match memory[ptr]? with
    | none => none
    | some c => if c = 0 then some (ptr, inGBK) else skip memory i (ptr + 1) (toggle inGBK c)

/-- The second loop: the pointer and the counter. -/
def probe (memory : Bytes) : Nat → Nat → Option (Nat × Nat)
  | 0, ptr => some (ptr, 0)
  | i + 1, ptr =>
    match memory[ptr + 1]? with
    | none => none
    | some c => if c = 0 then some (ptr + 1, i + 1) else probe memory i (ptr + 1)

/-- The writes where the text is longer. -/
def addDots (memory : Bytes) (ptr len : Nat) (inGBK : Bool) : Option Bytes :=
  if memory.length ≤ len ∨ ptr < 3 then none
  else
    let dotted := ((memory.set len 0).set (ptr - 1) dot).set (ptr - 2) dot
    if inGBK then some dotted
    else
      dotted[ptr - 3]?.map fun c => if c &&& 0x80 ≠ 0 then dotted.set (ptr - 3) dot else dotted

/-- The memory of the string and the result. -/
def ellipsis (memory : Bytes) (len : Int) : Option (Bytes × Nat) :=
  if len < 0 then some (memory, 0)
  else if len < 3 then
    if len.toNat < memory.length then some (memory.set len.toNat 0, 1) else none
  else
    (skip memory (len - 3).toNat 0 false).bind fun (ptr, inGBK) =>
      (probe memory 3 ptr).bind fun (ptr, i) =>
        match memory[ptr]? with
        | none => none
        | some c =>
          if c ≠ 0 ∧ i = 0 then (addDots memory ptr len.toNat inGBK).map fun out => (out, 1)
          else some (memory, 1)

/-- The memory holds the start of a text, up to a character at one of two places, and dots. -/
def Shortened (symbols : List Symbol) (len : Nat) (memory : Bytes) : Prop :=
  ∃ front back behind, symbols = front ++ back ∧
    ((encode front).length = len - 2 ∨ (encode front).length = len - 3) ∧
    memory = encode front ++ List.replicate (len - (encode front).length) dot ++ 0 :: behind

/-- The string is left as it is or shortened, and the memory behind it is not used. -/
def Lawful (symbols : List Symbol) (len : Int) : Prop :=
  ∃ memory result, ellipsis (encode symbols ++ [0]) len = some (memory, result) ∧
    if (encode symbols).length ≤ len then memory = encode symbols ++ [0]
    else Shortened symbols len.toNat memory

theorem skip_eq {memory : Bytes} {i ptr : Nat} (inGBK : Bool) (inside : ptr + i < memory.length)
    (nonzero : ∀ j < ptr + i, memory[j]? ≠ some 0) :
    skip memory i ptr inGBK =
      some (ptr + i, ((memory.drop ptr).take i).foldl toggle inGBK) := by
  induction i generalizing ptr inGBK with
  | zero =>
    have here : memory[ptr]? = some memory[ptr] := List.getElem?_eq_getElem inside
    rw [skip, here]
    rfl
  | succ i ih =>
    have start : ptr < memory.length := by omega
    have here := List.getElem?_eq_getElem start
    have notZero : memory[ptr] ≠ 0 := fun zero => nonzero ptr (by omega) (by rw [here, zero])
    rw [skip]
    simp only [here, if_neg notZero]
    rw [ih (toggle inGBK memory[ptr]) (by omega) (fun j below => nonzero j (by omega)),
      List.drop_eq_getElem_cons start, List.take_succ_cons, List.foldl_cons]
    congr 2
    omega

/-- A string that ends before the loop does. -/
theorem skip_end {memory : Bytes} {length i ptr : Nat} (inGBK : Bool)
    (size : memory.length = length + 1) (zero : memory[length]? = some 0)
    (nonzero : ∀ j < length, memory[j]? ≠ some 0) (before : ptr ≤ length)
    (far : length ≤ ptr + i) : ∃ flag, skip memory i ptr inGBK = some (length, flag) := by
  induction i generalizing ptr inGBK with
  | zero =>
    have same : ptr = length := by omega
    exact ⟨inGBK, by rw [skip, same, zero]; rfl⟩
  | succ i ih =>
    rcases Nat.lt_or_eq_of_le before with inside | rfl
    · have start : ptr < memory.length := by omega
      have here := List.getElem?_eq_getElem start
      have notZero : memory[ptr] ≠ 0 := fun isZero =>
        nonzero ptr inside (by rw [here, isZero])
      obtain ⟨flag, found⟩ := @ih (ptr + 1) (toggle inGBK memory[ptr]) (by omega) (by omega)
      refine ⟨flag, ?_⟩
      rw [skip]
      simp only [here, if_neg notZero]
      exact found
    · refine ⟨inGBK, ?_⟩
      rw [skip]
      simp only [zero, if_true]

/-- The second loop stops at the end of the string. -/
theorem probe_end {memory : Bytes} {length i ptr : Nat} (zero : memory[length]? = some 0)
    (size : memory.length = length + 1) (nonzero : ∀ j < length, memory[j]? ≠ some 0)
    (before : ptr < length) (near : length ≤ ptr + i) :
    ∃ left, probe memory i ptr = some (length, left) := by
  induction i generalizing ptr with
  | zero => omega
  | succ i ih =>
    rw [probe]
    rcases Nat.lt_or_eq_of_le (Nat.succ_le_of_lt before) with inside | rfl
    · have start : ptr + 1 < memory.length := by omega
      have here := List.getElem?_eq_getElem start
      have notZero : memory[ptr + 1] ≠ 0 := fun isZero =>
        nonzero (ptr + 1) inside (by rw [here, isZero])
      simp only [here, if_neg notZero]
      exact ih inside (by omega)
    · simp only [zero, if_true]
      exact ⟨i + 1, rfl⟩

theorem probe_through {memory : Bytes} {length i ptr : Nat} (size : memory.length = length + 1)
    (nonzero : ∀ j < length, memory[j]? ≠ some 0) (far : ptr + i < length) :
    probe memory i ptr = some (ptr + i, 0) := by
  induction i generalizing ptr with
  | zero => rfl
  | succ i ih =>
    have start : ptr + 1 < memory.length := by omega
    have here := List.getElem?_eq_getElem start
    have notZero : memory[ptr + 1] ≠ 0 := fun isZero =>
      nonzero (ptr + 1) (by omega) (by rw [here, isZero])
    rw [probe]
    simp only [here, if_neg notZero]
    rw [@ih (ptr + 1) (by omega)]
    congr 2
    omega

theorem addDots_eq (front rest : Bytes) (a b c d : UInt8) (inGBK : Bool) :
    addDots (front ++ a :: b :: c :: d :: rest) (front.length + 3) (front.length + 3) inGBK =
      some (front ++ (if inGBK = false ∧ a &&& 0x80 ≠ 0 then dot else a) ::
        dot :: dot :: 0 :: rest) := by
  have room : ¬((front ++ a :: b :: c :: d :: rest).length ≤ front.length + 3 ∨
      front.length + 3 < 3) := by
    simp only [List.length_append, List.length_cons]
    omega
  have dotted : (((front ++ a :: b :: c :: d :: rest).set (front.length + 3) 0).set
      (front.length + 3 - 1) dot).set (front.length + 3 - 2) dot =
        front ++ a :: dot :: dot :: 0 :: rest := by
    simp
  have here : (front ++ a :: dot :: dot :: 0 :: rest)[front.length + 3 - 3]? = some a := by simp
  have third : (front ++ a :: dot :: dot :: 0 :: rest).set (front.length + 3 - 3) dot =
      front ++ dot :: dot :: dot :: 0 :: rest := by
    simp
  rw [addDots, if_neg room]
  simp only [dotted, here, third, Option.map_some]
  cases inGBK with
  | true => simp
  | false =>
    simp only [Bool.false_eq_true, if_false, true_and]
    split <;> rfl

theorem terminator (bytes : Bytes) : (bytes ++ [0])[bytes.length]? = some (0 : UInt8) := by
  simp

section Texts

variable {symbols : List Symbol}

theorem nonzero_before (nulFree : (0 : UInt8) ∉ encode symbols) :
    ∀ j < (encode symbols).length, (encode symbols ++ [0])[j]? ≠ some 0 := by
  intro j inside zero
  rw [List.getElem?_append_left inside] at zero
  exact nulFree (List.mem_of_getElem? zero)

theorem length_memory (symbols : List Symbol) :
    (encode symbols ++ [0]).length = (encode symbols).length + 1 := by
  rw [List.length_append, List.length_singleton]

/-- Where the first loop ends at the end of the string, the second one reads behind it. -/
theorem ellipsis_short (nulFree : (0 : UInt8) ∉ encode symbols) {len : Int}
    (short : (encode symbols).length + 3 ≤ len) : ellipsis (encode symbols ++ [0]) len = none := by
  have size := length_memory symbols
  have beyond : (encode symbols ++ [0])[(encode symbols).length + 1]? = none :=
    List.getElem?_eq_none (by omega)
  obtain ⟨flag, skipped⟩ := @skip_end _ _ (len - 3).toNat 0 false size
    (terminator (encode symbols)) (nonzero_before nulFree) (Nat.zero_le _) (by omega)
  rw [ellipsis, if_neg (by omega), if_neg (by omega), skipped, Option.bind_some]
  simp only [probe, beyond, Option.bind_none]

/-- Inside of the string the first loop knows whether it is in a pair. -/
theorem skip_inside (nulFree : (0 : UInt8) ∉ encode symbols) {k : Nat}
    (inside : k < (encode symbols).length) :
    skip (encode symbols ++ [0]) k 0 false =
      some (k, ((encode symbols).take k).foldl toggle false) := by
  have size := length_memory symbols
  rw [skip_eq false (by omega) fun j below => nonzero_before nulFree j (by omega), List.drop_zero,
    List.take_append_of_le_length inside.le, Nat.zero_add]

theorem ellipsis_unchanged (nulFree : (0 : UInt8) ∉ encode symbols) {k : Nat}
    (inside : k < (encode symbols).length) (fits : (encode symbols).length ≤ k + 3) :
    ellipsis (encode symbols ++ [0]) (k + 3 : Nat) = some (encode symbols ++ [0], 1) := by
  have start : (((k + 3 : Nat) : Int) - 3).toNat = k := by omega
  obtain ⟨left, probed⟩ := @probe_end _ _ 3 k (terminator (encode symbols)) (length_memory symbols)
    (nonzero_before nulFree) inside fits
  rw [ellipsis, if_neg (by omega), if_neg (by omega), start, skip_inside nulFree inside,
    Option.bind_some]
  simp only [probed, Option.bind_some, terminator, ne_eq, not_true_eq_false, false_and, if_false]

/-- A longer string gets its dots. -/
theorem ellipsis_long (nulFree : (0 : UInt8) ∉ encode symbols) {front rest : Bytes}
    {a b c d : UInt8} (bytes : encode symbols = front ++ a :: b :: c :: d :: rest) :
    ellipsis (encode symbols ++ [0]) (front.length + 3 : Nat) =
      some (front ++ (if front.foldl toggle false = false ∧ a &&& 0x80 ≠ 0 then dot else a) ::
        dot :: dot :: 0 :: (rest ++ [0]), 1) := by
  have start : (((front.length + 3 : Nat) : Int) - 3).toNat = front.length := by omega
  have size : (encode symbols).length = front.length + (rest.length + 4) := by
    rw [bytes, List.length_append]
    rfl
  have taken : (encode symbols).take front.length = front := by
    rw [bytes, List.take_left]
  have probed : probe (encode symbols ++ [0]) 3 front.length = some (front.length + 3, 0) :=
    probe_through (length_memory symbols) (nonzero_before nulFree) (by omega)
  have here : (encode symbols ++ [0])[front.length + 3]? = some d := by
    rw [bytes]
    simp
  have nonzero : d ≠ 0 := by
    rintro rfl
    exact nonzero_before nulFree (front.length + 3) (by omega) here
  have dots := addDots_eq front (rest ++ [0]) a b c d (front.foldl toggle false)
  rw [ellipsis, if_neg (by omega), if_neg (by omega), start, skip_inside nulFree (by omega), taken,
    Option.bind_some]
  simp only [probed, Option.bind_some, here, ne_eq, nonzero, not_false_eq_true, and_self, if_true,
    Int.toNat_natCast]
  rw [bytes, List.append_assoc]
  exact congrArg (Option.map fun out => (out, 1)) dots

theorem exists_two : ∀ {bytes : Bytes}, 2 ≤ bytes.length → ∃ b c rest, bytes = b :: c :: rest
  | b :: c :: rest, _ => ⟨b, c, rest, rfl⟩

theorem exists_three : ∀ {bytes : Bytes}, 3 ≤ bytes.length →
    ∃ b c d rest, bytes = b :: c :: d :: rest
  | b :: c :: d :: rest, _ => ⟨b, c, d, rest, rfl⟩

/-- The characters that are kept end where the dots begin. -/
theorem shortened_of {front back : List Symbol} {len : Nat} {memory : Bytes} (behind : Bytes)
    (count : Nat) (split : symbols = front ++ back)
    (place : (encode front).length + count = len) (dots : count = 2 ∨ count = 3)
    (text : memory = encode front ++ List.replicate count dot ++ 0 :: behind) :
    Shortened symbols len memory := by
  have remaining : len - (encode front).length = count := by omega
  exact ⟨front, back, behind, split, by omega, by rw [remaining, text]⟩

/-- Two dots behind the character that ends after the place of the first loop. -/
theorem shortened_two {kept others : List Symbol} (nulFree : (0 : UInt8) ∉ encode (kept ++ others))
    {front : Bytes} {a : UInt8} (last : encode kept = front ++ [a])
    (room : 3 ≤ (encode others).length)
    (stays : ¬(front.foldl toggle false = false ∧ a &&& 0x80 ≠ 0)) :
    ∃ memory, ellipsis (encode (kept ++ others) ++ [0]) (front.length + 3 : Nat) =
        some (memory, 1) ∧
      Shortened (kept ++ others) (front.length + 3) memory := by
  obtain ⟨b, c, d, rest, behind⟩ := exists_three room
  have bytes : encode (kept ++ others) = front ++ a :: b :: c :: d :: rest := by
    rw [encode_append, last, behind, List.append_assoc]
    rfl
  refine ⟨_, ellipsis_long nulFree bytes, ?_⟩
  apply shortened_of (rest ++ [0]) 2 rfl _ (.inl rfl)
  · rw [if_neg stays, last]
    simp [List.replicate]
  · rw [last, List.length_append, List.length_singleton]

/-- Three dots in place of a pair that would end there. -/
theorem shortened_three {kept others : List Symbol} {lead trail : UInt8}
    {leads : isLead lead = true} {trails : isTrail trail = true}
    (nulFree : (0 : UInt8) ∉ encode (kept ++ .pair lead trail leads trails :: others))
    (room : 2 ≤ (encode others).length) (flag : (encode kept).foldl toggle false = false) :
    ∃ memory, ellipsis (encode (kept ++ .pair lead trail leads trails :: others) ++ [0])
        ((encode kept).length + 3 : Nat) = some (memory, 1) ∧
      Shortened (kept ++ .pair lead trail leads trails :: others) ((encode kept).length + 3)
        memory := by
  obtain ⟨c, d, rest, behind⟩ := exists_two room
  have bytes : encode (kept ++ .pair lead trail leads trails :: others) =
      encode kept ++ lead :: trail :: c :: d :: rest := by
    rw [encode_append, encode_cons, behind]
    rfl
  have high : lead &&& 0x80 ≠ 0 := (and_0x80 lead).mpr ((isLead_iff lead).mp leads).1
  refine ⟨_, ellipsis_long nulFree bytes, ?_⟩
  apply shortened_of (rest ++ [0]) 3 rfl rfl (.inr rfl)
  rw [if_pos ⟨flag, high⟩]
  simp [List.replicate]

theorem ellipsis_shortened (nulFree : (0 : UInt8) ∉ encode symbols) {k : Nat}
    (long : k + 3 < (encode symbols).length) :
    ∃ memory, ellipsis (encode symbols ++ [0]) (k + 3 : Nat) = some (memory, 1) ∧
      Shortened symbols (k + 3) memory := by
  obtain ⟨front, back, rfl, place⟩ := foldl_toggle_take (show k ≤ (encode symbols).length by omega)
  rcases place with ⟨flag, rfl⟩ | ⟨flag, rfl, lead, trail, leads, trails, others, rfl⟩
  · rw [encode_append, List.take_left] at flag
    rw [encode_append, List.length_append] at long
    cases back with
    | nil => exact absurd long (by simp [encode])
    | cons symbol others =>
      rw [encode_cons, List.length_append] at long
      cases symbol with
      | ascii byte low =>
        have room : 3 ≤ (encode others).length := by
          rw [Symbol.bytes, List.length_singleton] at long
          omega
        have split : front ++ .ascii byte low :: others =
            (front ++ [.ascii byte low]) ++ others := by
          rw [List.append_assoc, List.singleton_append]
        have kept : encode (front ++ [.ascii byte low]) = encode front ++ [byte] := by
          rw [encode_append]
          rfl
        rw [split] at nulFree ⊢
        exact shortened_two nulFree kept room fun both =>
          both.2 (and_0x80_of_lt low)
      | pair lead trail leads trails =>
        apply shortened_three nulFree _ flag
        simp only [Symbol.bytes, List.length_cons, List.length_nil] at long
        omega
  · have split : front ++ .pair lead trail leads trails :: others =
        (front ++ [.pair lead trail leads trails]) ++ others := by
      rw [List.append_assoc, List.singleton_append]
    have kept : encode (front ++ [.pair lead trail leads trails]) =
        (encode front ++ [lead]) ++ [trail] := by
      rw [encode_append, List.append_assoc]
      rfl
    rw [split] at nulFree long flag ⊢
    have size : (encode (front ++ [.pair lead trail leads trails] ++ others)).length =
        (encode front).length + 1 + 1 + (encode others).length := by
      rw [encode_append, List.length_append, kept]
      simp
    have taken : (encode (front ++ [.pair lead trail leads trails] ++ others)).take
        ((encode front).length + 1) = encode front ++ [lead] := by
      have length : (encode front ++ [lead]).length = (encode front).length + 1 := by simp
      rw [encode_append, kept, List.append_assoc, ← length, List.take_left]
    rw [taken] at flag
    have shortened := shortened_two nulFree kept (by omega) fun both =>
      Bool.noConfusion (flag.symm.trans both.1)
    rw [List.length_append, List.length_singleton] at shortened
    exact shortened

end Texts

/-- `ellipsis` does what it is to do unless the string ends three bytes before the length. -/
theorem ellipsis_lawful_iff {symbols : List Symbol} (nulFree : (0 : UInt8) ∉ encode symbols)
    {len : Int} (three : 3 ≤ len) : Lawful symbols len ↔ len ≤ (encode symbols).length + 2 := by
  constructor
  · rintro ⟨memory, result, ended, -⟩
    by_contra short
    rw [ellipsis_short nulFree (by omega)] at ended
    cases ended
  · intro near
    obtain ⟨k, rfl⟩ : ∃ k : Nat, len = (k + 3 : Nat) := ⟨(len - 3).toNat, by omega⟩
    rcases Nat.lt_or_ge (k + 3) (encode symbols).length with long | fits
    · obtain ⟨memory, ended, shortened⟩ := ellipsis_shortened nulFree long
      exact ⟨memory, 1, ended, (if_neg (by omega)).mpr shortened⟩
    · exact ⟨_, 1, ellipsis_unchanged nulFree (by omega) fits, (if_pos (by omega)).mpr rfl⟩

/-- The empty string is read behind its end. -/
theorem empty_not_lawful : ¬Lawful [] 3 := by
  rintro ⟨memory, result, ended, -⟩
  have outside : ellipsis (encode [] ++ [0]) 3 = none := by decide
  rw [outside] at ended
  cases ended

theorem letter_lawful : Lawful [.ascii 0x61 (by decide)] 3 :=
  (ellipsis_lawful_iff (by decide) (by decide)).mpr (by decide)

-- a string in a larger array, with bytes behind it that are changed
example : ellipsis [0x61, 0, 0x62, 0x62, 0x62, 0x62, 0] 5 =
    some ([0x61, 0, 46, 46, 0x62, 0, 0], 1) := by
  decide

end Ellipsis

end Fbbs
