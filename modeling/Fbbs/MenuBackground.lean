import Fbbs.RunLengths
import Fbbs.SysconfBuild
import Mathlib.Algebra.Order.BigOperators.Group.List

/-!
# The background of a menu

`encodestr` of `lib/sysconf.c` shortens the runs of a line in the memory of the line itself, and
`decodestr` of `src/comm_lists.c` writes the lines of a block to the screen again.
-/

namespace Fbbs

namespace Sysconf

/-- The memory of a line, the place that is read next and the place that is written next. -/
structure Coder where
  memory : Bytes
  str : Nat
  buf : Nat

/-- `*buf = c`; there is no result if the place is not behind the ones that have been read. -/
def Coder.store (coder : Coder) (c : UInt8) : Option Coder :=
  if coder.buf < coder.str then some { coder with memory := coder.memory.set coder.buf c }
  else none

/-- `*buf++ = c`. -/
def Coder.put (coder : Coder) (c : UInt8) : Option Coder :=
  (coder.store c).map fun next => { next with buf := next.buf + 1 }

/-- `while (*str == ch && n < 100)`, with the number of rounds that are left. -/
def skipRun (memory : Bytes) (ch : UInt8) : Nat → Nat → Nat → Nat × Nat
  | 0, str, n => (str, n)
  | left + 1, str, n =>
    if memory[str]? = some ch then skipRun memory ch left (str + 1) (n + 1) else (str, n)

/-- The loop of `encodestr`, with the store behind it. -/
def encodeLoop : Nat → Coder → Option Coder
  | 0, _ => none
  | fuel + 1, coder => do
    let ch ← coder.memory[coder.str]?
    let str := coder.str + 1
    if ch = 0 then Coder.store { coder with str := str } 0
    else if coder.memory[str]? = some ch ∧ coder.memory[str + 1]? = some ch ∧
        coder.memory[str + 2]? = some ch then
      let (str, n) := skipRun coder.memory ch (100 - 4) (str + 3) 4
      let coder ← Coder.put { coder with str := str } 1
      let coder ← coder.put ch
      let coder ← coder.put n.toUInt8
      encodeLoop fuel coder
    else
      let coder ← Coder.put { coder with str := str } ch
      encodeLoop fuel coder

/-- `encodestr` on the memory of a line. -/
def encodeMemory (memory : Bytes) : Option Bytes :=
  (encodeLoop memory.length ⟨memory, 0, 0⟩).map Coder.memory

/-- What `decodestr` puts on the screen; the number of a run is a `char`. -/
def decodestr : Bytes → Bytes
  | [] => []
  | ch :: str =>
    if ch = 1 then
      match str with
      | ch :: n :: str => List.replicate n.toInt8.toInt.toNat ch ++ decodestr str
      | str => decodestr str
    else ch :: decodestr str

/-! ## Runs -/

theorem encodeBytes_eq (fuel : Nat) (bytes : Bytes) :
    encodeBytes fuel bytes =
      (RunLengths.tokens 4 100 fuel bytes).flatMap (RunLengths.Token.code 1 Nat.toUInt8) := by
  induction fuel generalizing bytes with
  | zero => cases bytes <;> rfl
  | succ fuel ih =>
    cases bytes with
    | nil => rfl
    | cons ch rest =>
      simp only [encodeBytes, RunLengths.tokens, Nat.add_one_sub_one]
      split
      next long =>
        rw [if_pos (Nat.succ_le_succ long), List.flatMap_cons, ← ih]
        rfl
      next short =>
        rw [if_neg (fun long => short (Nat.le_of_succ_le_succ long)), List.flatMap_cons, ← ih]
        rfl

theorem decodestr_eq (bytes : Bytes) :
    decodestr bytes = RunLengths.decode 1 (fun n : UInt8 => n.toInt8.toInt.toNat) bytes := by
  fun_induction decodestr bytes with
  | case1 => rfl
  | case2 ch n str ih =>
    rw [RunLengths.decode, if_pos rfl, ih]
  | case3 str noRun ih =>
    rw [RunLengths.decode.eq_def]
    simp only [if_true]
    rw [ih]
  | case4 ch str plain ih =>
    rw [RunLengths.decode.eq_def]
    simp only [if_neg plain]
    rw [ih]

theorem toNat_count {n : Nat} (least : 4 ≤ n) (most : n ≤ 100) :
    n.toUInt8 ≠ 0 ∧ n.toUInt8.toInt8.toInt.toNat = n := by
  have all : ∀ n ≤ 100, 4 ≤ n → n.toUInt8 ≠ 0 ∧ n.toUInt8.toInt8.toInt.toNat = n := by
    decide
  exact all n most least

theorem coded_tokens {fuel : Nat} {bytes : Bytes} (clean : 1 ∉ bytes) :
    ∀ token ∈ RunLengths.tokens 4 100 fuel bytes,
      token.Coded 1 Nat.toUInt8 (fun n : UInt8 => n.toInt8.toInt.toNat) := by
  intro token member
  have inside := RunLengths.mem_tokens (by omega) member
  cases token with
  | single ch => exact fun isMark => clean (isMark ▸ inside)
  | run ch n => exact (toNat_count inside.2.1 inside.2.2).2

theorem encodeBytes_nulFree {fuel : Nat} {bytes : Bytes} (nulFree : 0 ∉ bytes) :
    0 ∉ encodeBytes fuel bytes := by
  rw [encodeBytes_eq, List.mem_flatMap]
  rintro ⟨token, member, coded⟩
  have inside := RunLengths.mem_tokens (by omega) member
  cases token with
  | single ch =>
    rw [RunLengths.Token.code, List.mem_singleton] at coded
    exact nulFree (coded ▸ inside)
  | run ch n =>
    simp only [RunLengths.Token.code, List.mem_cons, List.not_mem_nil, or_false] at coded
    rcases coded with isMark | isItem | isCount
    · cases isMark
    · exact nulFree (isItem ▸ inside.1)
    · exact (toNat_count inside.2.1 inside.2.2).1 isCount.symm

theorem encodestr_bytes (line : CString) :
    (encodestr line).bytes = encodeBytes line.bytes.length line.bytes :=
  List.takeWhile_eq_self_iff.mpr
    (CString.byte_bne_zero ⟨_, encodeBytes_nulFree line.nulFree⟩)

theorem length_encodeBytes_le (fuel : Nat) (bytes : Bytes) (enough : bytes.length ≤ fuel) :
    (encodeBytes fuel bytes).length ≤ bytes.length := by
  have items := RunLengths.expand_tokens 4 100 enough
  rw [RunLengths.expand] at items
  conv => rhs; rw [← items]
  rw [encodeBytes_eq, List.length_flatMap, List.length_flatMap]
  apply List.sum_le_sum
  intro token member
  apply RunLengths.length_code_le
  rintro ch n rfl
  have inside := RunLengths.mem_tokens (by omega) member
  exact Nat.le_of_succ_le inside.2.1

/-! ## The memory of a line -/

/-- What has been written, what is left to be read, and nothing is written that is left. -/
structure Coding (coder : Coder) (out rest behind : Bytes) : Prop where
  written : coder.memory.take coder.buf = out
  left : coder.memory.drop coder.str = rest ++ 0 :: behind
  order : coder.buf ≤ coder.str

section Memory

variable {coder : Coder} {out rest behind : Bytes}

theorem Coding.str_lt (coding : Coding coder out rest behind) :
    coder.str < coder.memory.length := by
  have length := congrArg List.length coding.left
  simp only [List.length_drop, List.length_append, List.length_cons] at length
  omega

theorem Coding.getElem? (coding : Coding coder out rest behind) (k : Nat) :
    coder.memory[coder.str + k]? = (rest ++ 0 :: behind)[k]? := by
  rw [← coding.left, List.getElem?_drop]

/-- Reading on. -/
theorem Coding.skip (coding : Coding coder out rest behind) {k : Nat} (inside : k ≤ rest.length) :
    Coding { coder with str := coder.str + k } out (rest.drop k) behind where
  written := coding.written
  left := by
    rw [← List.drop_drop, coding.left, List.drop_append_of_le_length inside]
  order := Nat.le_trans coding.order (Nat.le_add_right _ _)

theorem Coding.put (coding : Coding coder out rest behind) (room : coder.buf < coder.str)
    (c : UInt8) :
    ∃ next, coder.put c = some next ∧ Coding next (out ++ [c]) rest behind ∧
      next.str = coder.str ∧ next.buf = coder.buf + 1 := by
  have inside : coder.buf < coder.memory.length := Nat.lt_trans room coding.str_lt
  refine ⟨⟨coder.memory.set coder.buf c, coder.str, coder.buf + 1⟩, ?_, ⟨?_, ?_, room⟩, rfl, rfl⟩
  · rw [Coder.put, Coder.store, if_pos room]
    rfl
  · rw [← coding.written]
    simp [List.take_add_one, List.take_set_of_le (Nat.le_refl coder.buf), inside]
  · simp only [List.drop_set_of_lt room]
    exact coding.left

theorem skipRun_eq (memory : Bytes) (ch : UInt8) (left str n : Nat) :
    ∃ k, skipRun memory ch left str n = (str + k, n + k) ∧
      k = min ((memory.drop str).takeWhile (· = ch)).length left := by
  induction left generalizing str n with
  | zero => exact ⟨0, rfl, (Nat.min_zero _).symm⟩
  | succ left ih =>
    rw [skipRun]
    cases here : memory[str]? with
    | none =>
      refine ⟨0, if_neg (by simp), ?_⟩
      rw [List.drop_eq_nil_of_le (List.getElem?_eq_none_iff.mp here)]
      simp
    | some c =>
      obtain ⟨inside, isHere⟩ := List.getElem?_eq_some_iff.mp here
      rw [List.drop_eq_getElem_cons inside, isHere]
      by_cases same : c = ch
      · obtain ⟨k, skipped, isMin⟩ := ih (str + 1) (n + 1)
        refine ⟨k + 1, ?_, ?_⟩
        · rw [if_pos (congrArg some same), skipped]
          simp only [Prod.mk.injEq]
          omega
        · rw [List.takeWhile_cons_of_pos (by simpa using same), List.length_cons,
            Nat.add_min_add_right, isMin]
      · refine ⟨0, ?_, ?_⟩
        · rw [if_neg (fun equal => same (Option.some.inj equal))]
          rfl
        · rw [List.takeWhile_cons_of_neg (by simpa using same)]
          simp

/-- The three bytes behind a byte are compared one after another. -/
theorem three_iff {ch : UInt8} (nonzero : ch ≠ 0) (rest behind : Bytes) :
    ((rest ++ 0 :: behind)[0]? = some ch ∧ (rest ++ 0 :: behind)[1]? = some ch ∧
      (rest ++ 0 :: behind)[2]? = some ch) ↔ ∃ more, rest = ch :: ch :: ch :: more := by
  have other : ¬(0 : UInt8) = ch := fun same => nonzero same.symm
  constructor
  · rintro ⟨first, second, third⟩
    rcases rest with _ | ⟨a, _ | ⟨b, _ | ⟨c, more⟩⟩⟩
    · exact absurd (Option.some.inj first) other
    · exact absurd (Option.some.inj second) other
    · exact absurd (Option.some.inj third) other
    · cases Option.some.inj first
      cases Option.some.inj second
      cases Option.some.inj third
      exact ⟨more, rfl⟩
  · rintro ⟨more, rfl⟩
    exact ⟨rfl, rfl, rfl⟩

theorem length_takeWhile_lt_three {ch : UInt8} {rest : Bytes}
    (single : ¬∃ more, rest = ch :: ch :: ch :: more) :
    (rest.takeWhile (· = ch)).length < 3 := by
  by_contra long
  have run := RunLengths.take_takeWhile_eq (Nat.not_lt.mp long)
  apply single
  refine ⟨rest.drop 3, ?_⟩
  conv => lhs; rw [← List.take_append_drop 3 rest, run]
  rfl

theorem takeWhile_append_zero {ch : UInt8} (nonzero : ch ≠ 0) (rest behind : Bytes) :
    (rest ++ 0 :: behind).takeWhile (· = ch) = rest.takeWhile (· = ch) := by
  have other : ¬(0 : UInt8) = ch := fun same => nonzero same.symm
  induction rest with
  | nil => simp [other]
  | cons a rest ih => simp [List.takeWhile_cons, ih]

theorem encodeLoop_nil (coding : Coding coder out [] behind) (fuel : Nat) :
    ∃ last, encodeLoop (fuel + 1) coder = some last ∧
      last.memory.take last.buf = out ++ encodeBytes fuel [] ∧
      last.memory[last.buf]? = some 0 := by
  have here : coder.memory[coder.str]? = some 0 := coding.getElem? 0
  have inside : coder.buf < coder.memory.length := Nat.lt_of_le_of_lt coding.order coding.str_lt
  refine ⟨⟨coder.memory.set coder.buf 0, coder.str + 1, coder.buf⟩, ?_, ?_, ?_⟩
  · rw [encodeLoop]
    simp only [here, Option.bind_eq_bind, Option.bind_some, if_true]
    exact if_pos (Nat.lt_succ_of_le coding.order)
  · rw [List.take_set_of_le (Nat.le_refl coder.buf), coding.written]
    cases fuel <;> simp [encodeBytes]
  · simp [inside]

theorem encodeBytes_run (fuel : Nat) (ch : UInt8) (more : Bytes) :
    encodeBytes (fuel + 1) (ch :: ch :: ch :: ch :: more) =
      [1, ch, (4 + min (more.takeWhile (· = ch)).length (100 - 4)).toUInt8] ++
        encodeBytes fuel (more.drop (min (more.takeWhile (· = ch)).length (100 - 4))) := by
  have long : min ((ch :: ch :: ch :: more).takeWhile (· = ch)).length 99 =
      min (more.takeWhile (· = ch)).length (100 - 4) + 3 := by
    simp
    omega
  rw [encodeBytes]
  simp only [long]
  rw [if_pos (Nat.le_add_left 3 _), Nat.add_assoc, Nat.add_comm _ (3 + 1)]
  rfl

/-- The code of the bytes that are left is put behind what has been written. -/
theorem encodeLoop_eq {fuel : Nat} (coding : Coding coder out rest behind) (nulFree : 0 ∉ rest)
    (enough : rest.length ≤ fuel) :
    ∃ last, encodeLoop (fuel + 1) coder = some last ∧
      last.memory.take last.buf = out ++ encodeBytes fuel rest ∧
      last.memory[last.buf]? = some 0 := by
  induction fuel generalizing coder out rest with
  | zero =>
    cases List.eq_nil_of_length_eq_zero (Nat.le_zero.mp enough)
    exact encodeLoop_nil coding 0
  | succ fuel ih =>
    cases rest with
    | nil => exact encodeLoop_nil coding (fuel + 1)
    | cons ch rest =>
      have nonzero : ch ≠ 0 := fun isZero => nulFree (isZero ▸ List.mem_cons_self)
      have restFree : 0 ∉ rest := fun member => nulFree (List.mem_cons_of_mem _ member)
      have short : rest.length ≤ fuel := Nat.le_of_succ_le_succ enough
      have here : coder.memory[coder.str]? = some ch := coding.getElem? 0
      have next := coding.getElem?
      simp only [List.cons_append] at next
      rw [encodeLoop]
      simp only [here, Option.bind_eq_bind, Option.bind_some, if_neg nonzero, Nat.add_assoc,
        next, Nat.reduceAdd, List.getElem?_cons_succ]
      by_cases runs : ∃ more, rest = ch :: ch :: ch :: more
      · rw [if_pos ((three_iff nonzero rest behind).mpr runs)]
        obtain ⟨more, rfl⟩ := runs
        obtain ⟨k, skipped, isMin⟩ := skipRun_eq coder.memory ch (100 - 4) (coder.str + 4) 4
        have afterFour : coder.memory.drop (coder.str + 4) = more ++ 0 :: behind :=
          (coding.skip (k := 4) (by simp)).left
        rw [afterFour, takeWhile_append_zero nonzero] at isMin
        have least := (@List.takeWhile_prefix _ more (· = ch)).length_le
        have skip := coding.skip (k := 4 + k) (by simp; omega)
        rw [skipped, Nat.add_assoc]
        have order := coding.order
        obtain ⟨first, putFirst, coding₁, str₁, buf₁⟩ := skip.put (by simp; omega) 1
        obtain ⟨second, putSecond, coding₂, str₂, buf₂⟩ := coding₁.put (by simp [*]; omega) ch
        obtain ⟨third, putThird, coding₃, -, -⟩ :=
          coding₂.put (by simp [*]; omega) (4 + k).toUInt8
        rw [putFirst, Option.bind_some, putSecond, Option.bind_some, putThird,
          Option.bind_some]
        have left : (ch :: ch :: ch :: ch :: more).drop (4 + k) = more.drop k := by
          rw [Nat.add_comm]
          rfl
        rw [left] at coding₃
        obtain ⟨last, loop, written, ends⟩ := ih coding₃
          (fun member => restFree (by simp [List.mem_of_mem_drop member]))
          (by simp at short ⊢; omega)
        refine ⟨last, loop, ?_, ends⟩
        rw [written, encodeBytes_run, ← isMin]
        simp
      · rw [if_neg (fun three => runs ((three_iff nonzero rest behind).mp three))]
        obtain ⟨coder', put, coding', -, -⟩ := (coding.skip (k := 1) (by simp)).put
          (Nat.lt_succ_of_le coding.order) ch
        rw [put]
        obtain ⟨last, loop, written, ends⟩ := ih coding' restFree short
        refine ⟨last, loop, ?_, ends⟩
        have few := length_takeWhile_lt_three runs
        rw [written, encodeBytes]
        simp only [Nat.le_min]
        rw [if_neg (by omega), List.append_assoc]
        rfl

end Memory

/-- The code of a line replaces it; nothing is written over what has not been read. -/
theorem encodeMemory_eq (line : CString) (behind : Bytes) :
    ∃ memory, encodeMemory (line.bytes ++ 0 :: behind) = some memory ∧
      CString.ofBytes memory = encodestr line := by
  have coding : Coding ⟨line.bytes ++ 0 :: behind, 0, 0⟩ [] line.bytes behind :=
    ⟨rfl, rfl, Nat.le_refl 0⟩
  obtain ⟨fuel, isLength⟩ : ∃ fuel, (line.bytes ++ 0 :: behind).length = fuel + 1 :=
    ⟨(line.bytes ++ behind).length, by simp; omega⟩
  have enough : line.bytes.length ≤ fuel := by
    simp at isLength
    omega
  obtain ⟨last, loop, written, ends⟩ := encodeLoop_eq coding line.nulFree enough
  refine ⟨last.memory, ?_, ?_⟩
  · rw [encodeMemory, isLength, loop]
    rfl
  · obtain ⟨inside, isZero⟩ := List.getElem?_eq_some_iff.mp ends
    have same : encodeBytes fuel line.bytes = (encodestr line).bytes := by
      rw [encodestr_bytes, encodeBytes_eq, encodeBytes_eq,
        RunLengths.tokens_fuel enough (Nat.le_refl _)]
    rw [← List.take_append_drop last.buf last.memory, List.drop_eq_getElem_cons inside, isZero,
      written, List.nil_append, same, CString.ofBytes_append]

/-- Lines without the mark of a run come back, and the code of none of them is longer. -/
theorem decodestr_encodestr (lines : List CString) (clean : ∀ line ∈ lines, 1 ∉ line.bytes) :
    decodestr (lines.flatMap fun line => (encodestr line).bytes) =
        lines.flatMap CString.bytes ∧
      ∀ line ∈ lines, (encodestr line).bytes.length ≤ line.bytes.length ∧
        ∀ behind, ∃ memory, encodeMemory (line.bytes ++ 0 :: behind) = some memory ∧
          CString.ofBytes memory = encodestr line := by
  constructor
  · induction lines with
    | nil => rfl
    | cons line lines ih =>
      have first := @coded_tokens line.bytes.length _ (clean line List.mem_cons_self)
      rw [List.flatMap_cons, List.flatMap_cons, ← ih fun other member =>
        clean other (List.mem_cons_of_mem _ member), decodestr_eq, decodestr_eq,
        encodestr_bytes, encodeBytes_eq, RunLengths.decode_flatMap_code first,
        RunLengths.expand_tokens 4 100 (Nat.le_refl _)]
  · intro line member
    constructor
    · rw [encodestr_bytes]
      exact length_encodeBytes_le _ _ (Nat.le_refl _)
    · exact encodeMemory_eq line

/-- `aaaaa` and a line break. -/
def fiveBytes : CString :=
  ⟨[97, 97, 97, 97, 97, 10], by decide⟩

theorem fiveBytes_decoded :
    (encodestr fiveBytes).bytes = [1, 97, 5, 10] ∧
      decodestr ([fiveBytes].flatMap fun line => (encodestr line).bytes) =
        [fiveBytes].flatMap CString.bytes :=
  ⟨by decide, (decodestr_encodestr [fiveBytes] (by decide)).1⟩

end Sysconf

end Fbbs
