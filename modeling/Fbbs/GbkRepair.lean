import Fbbs.GbkText
import Fbbs.Parcel

/-!
# Repairing GBK texts

`valid_gbk` of `lib/string.c` replaces the bytes of a text that belong to no character.  A byte
that is no trail byte is looked at once more, after the lead byte before it has been replaced.
-/

namespace Fbbs

namespace GbkRepair

open AsciiBytes GbkText

inductive State
  | gbkFirst
  | gbkSecond
  deriving DecidableEq

/-- The memory, the pointer, the counter and the state after the loop. -/
structure Scanned where
  memory : Bytes
  s : Nat
  count : Nat
  state : State

/-- How many steps are left at most for each byte. -/
def State.pending : State → Nat
  | gbkFirst => 0
  | gbkSecond => 1

/-- The loop of `valid_gbk`; `none` where it leaves the memory. -/
def scan (replace : UInt8) (memory : Bytes) (s len count : Nat) (state : State) :
    Option Scanned :=
  match len with
  | 0 => some ⟨memory, s, count, state⟩
  | left + 1 =>
    match memory[s]?, state with
    | none, _ => none
    | some c, .gbkFirst =>
      if c = 0x80 ∨ c = 0xff then
        scan replace (memory.set s replace) (s + 1) left count .gbkFirst
      else if c &&& 0x80 ≠ 0 then scan replace memory (s + 1) left count .gbkSecond
      else scan replace memory (s + 1) left count .gbkFirst
    | some c, .gbkSecond =>
      if c < 0x40 ∨ c = 0x7f then
        -- the pointer goes back, the byte counts once more
        if s = 0 then none
        else scan replace (memory.set (s - 1) replace) s (left + 1) (count + 1) .gbkFirst
      else scan replace memory (s + 1) left count .gbkFirst
termination_by 2 * len + state.pending
decreasing_by all_goals simp only [State.pending]; omega

/-- The memory that is left and the number of pairs that were replaced, after a lead byte at the
end has been replaced as well. -/
def Scanned.finish (replace : UInt8) (scanned : Scanned) : Option (Bytes × Nat) :=
  if scanned.state = .gbkSecond then
    if scanned.s = 0 ∨ scanned.memory.length < scanned.s then none
    else some (scanned.memory.set (scanned.s - 1) replace, scanned.count)
  else some (scanned.memory, scanned.count)

def validGbk (memory : Bytes) (len : Nat) (replace : UInt8) : Option (Bytes × Nat) :=
  (scan replace memory 0 len 0 .gbkFirst).bind (Scanned.finish replace)

/-- A text with the bytes replaced that belong to no character. -/
def repair (replace : UInt8) : Bytes → Bytes
  | [] => []
  | [b] => [if b < 0x80 then b else replace]
  | b :: c :: rest =>
    if b < 0x80 then b :: repair replace (c :: rest)
    else if isLead b && isTrail c then b :: c :: repair replace rest
    else replace :: repair replace (c :: rest)

theorem length_repair (replace : UInt8) (text : Bytes) :
    (repair replace text).length = text.length := by
  fun_induction repair replace text <;> simp [*]

/-- A changed byte is replaced. -/
theorem getElem?_repair (replace : UInt8) (text : Bytes) (i : Nat) :
    (repair replace text)[i]? = text[i]? ∨
      i < text.length ∧ (repair replace text)[i]? = some replace := by
  fun_induction repair replace text generalizing i with
  | case1 => exact .inl rfl
  | case2 b =>
    cases i with
    | zero =>
      split
      · exact .inl rfl
      · exact .inr ⟨Nat.zero_lt_one, rfl⟩
    | succ i => exact .inl rfl
  | case3 b c rest ascii ih =>
    cases i with
    | zero => exact .inl rfl
    | succ i => simpa using ih i
  | case4 b c rest high pair ih =>
    rcases i with _ | _ | i
    · exact .inl rfl
    · exact .inl rfl
    · simpa using ih i
  | case5 b c rest high single ih =>
    cases i with
    | zero => exact .inr ⟨Nat.zero_lt_succ _, rfl⟩
    | succ i => simpa using ih i

theorem isText_repair {replace : UInt8} (low : replace < 0x80) (text : Bytes) :
    IsText (repair replace text) := by
  fun_induction repair replace text with
  | case1 => exact isText_nil
  | case2 b =>
    split
    next ascii => exact isText_nil.ascii ascii
    next => exact isText_nil.ascii low
  | case3 b c rest ascii ih => exact ih.ascii ascii
  | case4 b c rest high pair ih =>
    rw [Bool.and_eq_true] at pair
    exact ih.pair pair.1 pair.2
  | case5 b c rest high single ih => exact ih.ascii low

theorem repair_ascii {replace b : UInt8} (low : b < 0x80) (rest : Bytes) :
    repair replace (b :: rest) = b :: repair replace rest := by
  cases rest with
  | nil => simp only [repair, if_pos low]
  | cons c rest => rw [repair, if_pos low]

theorem repair_pair {replace lead trail : UInt8} (leads : isLead lead = true)
    (trails : isTrail trail = true) (rest : Bytes) :
    repair replace (lead :: trail :: rest) = lead :: trail :: repair replace rest := by
  have high : ¬lead < 0x80 := UInt8.not_lt.mpr ((isLead_iff lead).mp leads).1
  rw [repair, if_neg high, leads, trails, Bool.and_self, if_pos rfl]

theorem repair_of_isText (replace : UInt8) {text : Bytes} (isText : IsText text) :
    repair replace text = text := by
  obtain ⟨symbols, rfl⟩ := isText
  induction symbols with
  | nil => rfl
  | cons symbol symbols ih =>
    rw [encode_cons]
    cases symbol with
    | ascii byte low =>
      rw [Symbol.bytes, List.singleton_append, repair_ascii low, ih]
    | pair lead trail leads trails =>
      rw [Symbol.bytes, List.cons_append, List.singleton_append, repair_pair leads trails, ih]

section Steps

variable {replace b c : UInt8} (done after : Bytes) (left count : Nat)

theorem scan_zero (memory : Bytes) (s : Nat) (state : State) :
    scan replace memory s 0 count state = some ⟨memory, s, count, state⟩ := by
  rw [scan]

theorem scan_ascii (low : b < 0x80) :
    scan replace (done ++ b :: after) done.length (left + 1) count .gbkFirst =
      scan replace (done ++ b :: after) (done.length + 1) left count .gbkFirst := by
  have here : (done ++ b :: after)[done.length]? = some b := by simp
  have notEnd : ¬(b = 0x80 ∨ b = 0xff) := by
    rintro (rfl | rfl)
    · exact absurd low (by decide)
    · exact absurd low (by decide)
  have notHigh : ¬(b &&& 0x80 ≠ 0) := not_not.mpr (and_0x80_of_lt low)
  rw [scan.eq_def]
  simp only [here, if_neg notEnd, if_neg notHigh]

theorem scan_single (single : b = 0x80 ∨ b = 0xff) :
    scan replace (done ++ b :: after) done.length (left + 1) count .gbkFirst =
      scan replace (done ++ replace :: after) (done.length + 1) left count .gbkFirst := by
  have here : (done ++ b :: after)[done.length]? = some b := by simp
  have written : (done ++ b :: after).set done.length replace = done ++ replace :: after := by simp
  rw [scan.eq_def]
  simp only [here, if_pos single, written]

theorem scan_lead (leads : isLead b = true) :
    scan replace (done ++ b :: after) done.length (left + 1) count .gbkFirst =
      scan replace (done ++ b :: after) (done.length + 1) left count .gbkSecond := by
  have here : (done ++ b :: after)[done.length]? = some b := by simp
  obtain ⟨high, notFirst, notLast⟩ := (isLead_iff b).mp leads
  rw [scan.eq_def]
  simp only [here, if_neg (not_or.mpr ⟨notFirst, notLast⟩), if_pos ((and_0x80 b).mpr high)]

theorem scan_trail (trails : isTrail c = true) :
    scan replace (done ++ b :: c :: after) (done.length + 1) (left + 1) count .gbkSecond =
      scan replace (done ++ b :: c :: after) (done.length + 2) left count .gbkFirst := by
  have here : (done ++ b :: c :: after)[done.length + 1]? = some c := by simp
  rw [scan.eq_def]
  simp only [here, if_neg ((isTrail_iff c).mp trails)]

/-- The lead byte is replaced and the byte behind it looked at again. -/
theorem scan_back (noTrail : isTrail c = false) :
    scan replace (done ++ b :: c :: after) (done.length + 1) (left + 1) count .gbkSecond =
      scan replace (done ++ replace :: c :: after) (done.length + 1) (left + 1) (count + 1)
        .gbkFirst := by
  have here : (done ++ b :: c :: after)[done.length + 1]? = some c := by simp
  have bad : c < 0x40 ∨ c = 0x7f := by
    by_contra good
    rw [(isTrail_iff c).mpr good] at noTrail
    cases noTrail
  have written : (done ++ b :: c :: after).set (done.length + 1 - 1) replace =
      done ++ replace :: c :: after := by
    simp
  rw [scan.eq_def]
  simp only [here, if_pos bad, if_neg (Nat.succ_ne_zero _), written]

end Steps

/-- The bytes from 128 on that are no lead bytes. -/
theorem eq_end_of_not_lead {b : UInt8} (high : ¬b < 0x80) (noLead : ¬isLead b = true) :
    b = 0x80 ∨ b = 0xff := by
  by_contra other
  rw [not_or] at other
  exact noLead ((isLead_iff b).mpr ⟨UInt8.not_lt.mp high, other.1, other.2⟩)

/-- The loop repairs what is left of the text. -/
theorem scan_finish (replace : UInt8) (todo done behind : Bytes) (count : Nat) :
    ∃ total, (scan replace (done ++ (todo ++ behind)) done.length todo.length count
      .gbkFirst).bind (Scanned.finish replace) =
        some (done ++ (repair replace todo ++ behind), total) := by
  fun_induction repair replace todo generalizing done count with
  | case1 =>
    rw [List.length_nil, scan_zero]
    exact ⟨count, rfl⟩
  | case2 b =>
    rw [List.singleton_append, List.length_singleton]
    by_cases ascii : b < 0x80
    · rw [scan_ascii done _ _ count ascii, scan_zero, if_pos ascii]
      exact ⟨count, rfl⟩
    rw [if_neg ascii]
    by_cases leads : isLead b = true
    · have written : (done ++ b :: behind).set (done.length + 1 - 1) replace =
          done ++ replace :: behind := by
        simp
      have inside : ¬(done.length + 1 = 0 ∨ (done ++ b :: behind).length < done.length + 1) := by
        rw [List.length_append, List.length_cons]
        omega
      rw [scan_lead done _ _ count leads, scan_zero]
      exact ⟨count, by
        rw [Option.bind_some, Scanned.finish, if_pos rfl, if_neg inside, written]
        rfl⟩
    · rw [scan_single done _ _ count (eq_end_of_not_lead ascii leads), scan_zero]
      exact ⟨count, rfl⟩
  | case3 b c rest ascii ih =>
    obtain ⟨total, finished⟩ := ih (done ++ [b]) count
    rw [List.length_append, List.append_assoc, List.append_assoc] at finished
    rw [List.cons_append, List.length_cons, scan_ascii done _ _ count ascii]
    exact ⟨total, finished⟩
  | case4 b c rest high pair ih =>
    rw [Bool.and_eq_true] at pair
    obtain ⟨total, finished⟩ := ih (done ++ [b, c]) count
    rw [List.length_append, List.append_assoc, List.append_assoc] at finished
    rw [List.cons_append, List.cons_append, List.length_cons, List.length_cons,
      scan_lead done _ _ count pair.1, scan_trail done _ _ count pair.2]
    exact ⟨total, finished⟩
  | case5 b c rest high single ih =>
    rw [List.cons_append, List.length_cons]
    by_cases leads : isLead b = true
    · have noTrail : isTrail c = false := by simpa [leads] using single
      obtain ⟨total, finished⟩ := ih (done ++ [replace]) (count + 1)
      rw [List.length_append, List.append_assoc, List.append_assoc] at finished
      rw [scan_lead done _ _ count leads, List.cons_append, List.length_cons,
        scan_back done _ _ count noTrail]
      exact ⟨total, finished⟩
    · obtain ⟨total, finished⟩ := ih (done ++ [replace]) count
      rw [List.length_append, List.append_assoc, List.append_assoc] at finished
      rw [scan_single done _ _ count (eq_end_of_not_lead high leads)]
      exact ⟨total, finished⟩

theorem validGbk_eq (replace : UInt8) (text behind : Bytes) :
    ∃ count, validGbk (text ++ behind) text.length replace =
      some (repair replace text ++ behind, count) :=
  scan_finish replace text [] behind 0

/-- `valid_gbk` makes a text of the bytes that it is told of, and only replaces bytes. -/
theorem validGbk_repairs {replace : UInt8} (low : replace < 0x80) (text behind : Bytes) :
    ∃ out count, validGbk (text ++ behind) text.length replace = some (out ++ behind, count) ∧
      out.length = text.length ∧ IsText out ∧ (IsText text → out = text) ∧
      (∃ again, validGbk (out ++ behind) out.length replace = some (out ++ behind, again)) ∧
      ∀ i < text.length, out[i]? = text[i]? ∨ out[i]? = some replace := by
  obtain ⟨count, repaired⟩ := validGbk_eq replace text behind
  have isText := isText_repair low text
  obtain ⟨again, kept⟩ := validGbk_eq replace (repair replace text) behind
  rw [repair_of_isText replace isText] at kept
  exact ⟨_, count, repaired, length_repair replace text, isText, repair_of_isText replace,
    ⟨again, kept⟩, fun i _ => (getElem?_repair replace text i).imp_right And.right⟩

theorem brokenPair_repairs :
    ∃ out count, validGbk ([0xb0, 0x20, 0x61] ++ [0]) 3 0x3f = some (out ++ [0], count) ∧
      IsText out :=
  let ⟨out, count, repaired, _, isText, _⟩ :=
    @validGbk_repairs 0x3f (by decide) [0xb0, 0x20, 0x61] [0]
  ⟨out, count, repaired, isText⟩

example : repair 0x3f [0xb0, 0x20, 0xd6, 0xd0, 0xff, 0xb0] =
    [0x3f, 0x20, 0xd6, 0xd0, 0x3f, 0x3f] := by
  decide

end GbkRepair

end Fbbs
