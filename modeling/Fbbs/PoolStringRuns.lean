import Fbbs.PoolStrings
import Fbbs.TransitionRuns

/-!
# Appending to growing strings

Runs of the appends of `pstring_t`.  `pstring_append_string` doubles the block once, whatever the
length of the text; `pstring_append_printf` looks for a block by doubling a number of 32 bits until
it is greater, which it never is from `2 ^ 31` on.
-/

namespace Fbbs

namespace PString

/-- A call that appends to a string. -/
inductive Append
  | char (c : UInt8)
  | string (str : CString)
  | printf (chars : Bytes)
  | space
  deriving DecidableEq

def textAfter (text : Bytes) : Append → Bytes
  | .char c => text ++ [c]
  | .string str => text ++ str.bytes
  | .printf chars => text ++ chars
  | .space => withSpace text

def append (s : PString) : Append → Option PString
  | .char c => s.pstringAppendC c
  | .string str => s.pstringAppendString str
  | .printf chars => s.pstringAppendPrintf chars
  | .space => s.pstringAppendSpace

/-- `pstring` writes the terminator; `none` if that is outside of the block. -/
def pstring (s : PString) : Option PString :=
  if s.str.length < s.size then some s else none

/-- An append after which the string can be used. -/
def appendStep (s : PString) (call : Append) : Option PString :=
  (s.append call).bind pstring

/-- The appends can be made, and the string is the text then. -/
def Appends (s : PString) (calls : List Append) : Prop :=
  ∃ final, TransitionRuns.run appendStep calls s = some final ∧
    final.str = calls.foldl textAfter s.str

/-- One doubling is enough for a string, and what is printed does not reach the largest `int`. -/
def Suits (s : PString) : Append → Prop
  | .string str => s.str.length + str.bytes.length < 2 * s.size
  | .printf chars =>
    s.str.length + chars.length < s.size ∨ s.str.length + chars.length + 1 < 2 ^ 31
  | _ => True

instance (s : PString) (call : Append) : Decidable (s.Suits call) := by
  cases call <;> simp only [Suits] <;> infer_instance

theorem roundLoop_gt {size fuel s rounded : Nat} (found : roundLoop size fuel s = some rounded) :
    size < rounded := by
  induction fuel generalizing s with
  | zero => cases found
  | succ fuel ih =>
    rw [roundLoop] at found
    split at found
    next => exact ih found
    next large => exact Option.some.inj found ▸ Nat.lt_of_not_le large

/-- A power of two is found while it fits. -/
theorem exists_roundLoop {size : Nat} (small : size < 2 ^ 31) {fuel k : Nat} (inside : k ≤ 31)
    (enough : 31 < k + fuel) : ∃ rounded, roundLoop size fuel (2 ^ k) = some rounded := by
  induction fuel generalizing k with
  | zero => omega
  | succ fuel ih =>
    rw [roundLoop]
    split
    next below =>
      have more : k < 31 := by
        by_contra notMore
        have same : k = 31 := by omega
        rw [same] at below
        omega
      have double : 2 ^ k * 2 % 2 ^ 32 = 2 ^ (k + 1) := by
        rw [← Nat.pow_succ]
        exact Nat.mod_eq_of_lt (Nat.pow_lt_pow_right (by decide) (by omega))
      rw [double]
      exact ih more (by omega)
    next => exact ⟨_, rfl⟩

theorem pstringRoundSize_of_lt {size : Nat} (small : size < 2 ^ 31) :
    ∃ rounded, pstringRoundSize size = some rounded ∧ size < rounded := by
  have notMax : size ≠ fbUintMax := by
    rw [fbUintMax]
    omega
  obtain ⟨rounded, found⟩ := @exists_roundLoop size small 32 3 (by decide) (by decide)
  have eight : pstringDefaultLen + 1 = 2 ^ 3 := rfl
  refine ⟨rounded, ?_, roundLoop_gt found⟩
  rw [pstringRoundSize, if_neg notMax, eight, found]

theorem pstringRoundSize_half : pstringRoundSize (2 ^ 31) = none := by
  decide

section Calls

variable {s : PString}

theorem reallocTo_str {size : Nat} {larger : PString} (moved : s.reallocTo size = some larger) :
    larger.str = s.str := by
  rw [reallocTo] at moved
  split at moved
  · exact Option.some.inj moved ▸ rfl
  · cases moved

theorem pstringRealloc_str {larger : PString} (moved : s.pstringRealloc = some larger) :
    larger.str = s.str := by
  rw [pstringRealloc] at moved
  split at moved
  · exact Option.some.inj moved ▸ rfl
  · exact reallocTo_str moved

theorem write_str {bytes : Bytes} {written : PString} (wrote : s.write bytes = some written) :
    written.str = s.str ++ bytes := by
  rw [write] at wrote
  split at wrote
  · exact Option.some.inj wrote ▸ rfl
  · cases wrote

/-- A block that is enlarged where it is too small, and the bytes behind the string. -/
theorem realloc_write_str {small : Prop} [Decidable small] {bytes : Bytes} {next : PString}
    (appended : ((if small then s.pstringRealloc else some s).bind fun s => s.write bytes) =
      some next) : next.str = s.str ++ bytes := by
  obtain ⟨larger, moved, wrote⟩ := Option.bind_eq_some_iff.mp appended
  rw [write_str wrote]
  split at moved
  · rw [pstringRealloc_str moved]
  · rw [Option.some.inj moved]

/-- An append that is possible leaves the text with what was appended. -/
theorem append_str {call : Append} {next : PString} (appended : s.append call = some next) :
    next.str = textAfter s.str call := by
  cases call with
  | char c => exact realloc_write_str appended
  | string str => exact realloc_write_str appended
  | printf chars =>
    rw [append, pstringAppendPrintf] at appended
    split at appended
    · obtain ⟨size, -, moved⟩ := Option.bind_eq_some_iff.mp appended
      obtain ⟨larger, moved, wrote⟩ := Option.bind_eq_some_iff.mp moved
      rw [write_str wrote, reallocTo_str moved]
      rfl
    · exact write_str appended
  | space =>
    rw [append, pstringAppendSpace] at appended
    rw [textAfter, withSpace]
    split at appended
    next needed =>
      rw [if_pos needed]
      exact realloc_write_str appended
    next notNeeded =>
      rw [if_neg notNeeded]
      exact Option.some.inj appended ▸ rfl

theorem appendStep_eq_some_iff {call : Append} {next : PString} :
    s.appendStep call = some next ↔ s.append call = some next ∧ next.str.length < next.size := by
  rw [appendStep, Option.bind_eq_some_iff]
  constructor
  · rintro ⟨middle, appended, inside⟩
    rw [pstring] at inside
    split at inside
    next within =>
      rw [Option.some.inj inside] at appended within
      exact ⟨appended, within⟩
    next => cases inside
  · rintro ⟨appended, inside⟩
    exact ⟨next, appended, if_pos inside⟩

/-- A block that is doubled. -/
theorem pstringRealloc_of_lt (inside : s.str.length < s.size) (small : s.size < 2 ^ 31) :
    s.pstringRealloc = some { s with size := 2 * s.size } := by
  have notMax : s.size ≠ fbUintMax := by
    rw [fbUintMax]
    omega
  have double : s.size * 2 % 2 ^ 32 = 2 * s.size := by omega
  have fits : s.str.length < s.size ∧ s.str.length < 2 * s.size := ⟨inside, by omega⟩
  rw [pstringRealloc, if_neg notMax, double, reallocTo, if_pos fits]

/-- One doubling is enough for less than twice the size. -/
theorem doubled_write {small : Prop} [Decidable small] {bytes : Bytes}
    (inside : s.str.length < s.size) (total : s.str.length + bytes.length < 2 ^ 31)
    (isSmall : small ↔ s.size ≤ s.str.length + bytes.length) :
    (((if small then s.pstringRealloc else some s).bind fun s => s.write bytes).bind pstring) =
      if s.str.length + bytes.length < 2 * s.size then
        some ⟨s.str ++ bytes, if small then 2 * s.size else s.size⟩
      else none := by
  by_cases enlarge : small
  · have short := isSmall.mp enlarge
    rw [if_pos enlarge, if_pos enlarge, pstringRealloc_of_lt inside (by omega), Option.bind_some,
      write]
    split
    next fits =>
      rw [Option.bind_some, pstring, List.length_append]
    next beyond =>
      rw [if_neg (fun below => beyond (Nat.le_of_lt below))]
      rfl
  · have room := Nat.lt_of_not_le (mt isSmall.mpr enlarge)
    have fits : s.str.length + bytes.length < 2 * s.size := by omega
    rw [if_neg enlarge, if_neg enlarge, Option.bind_some, write, if_pos room.le, Option.bind_some,
      pstring, List.length_append, if_pos room, if_pos fits]

theorem appendStep_char (inside : s.str.length < s.size) (c : UInt8)
    (total : s.str.length + 1 < 2 ^ 31) :
    s.appendStep (.char c) =
      some ⟨s.str ++ [c], if s.str.length = s.size - 1 then 2 * s.size else s.size⟩ := by
  have last : s.str.length = s.size - 1 ↔ s.size ≤ s.str.length + [c].length := by
    rw [List.length_singleton]
    omega
  have fits : s.str.length + [c].length < 2 * s.size := by
    rw [List.length_singleton]
    omega
  exact (@doubled_write s _ _ [c] inside total last).trans (if_pos fits)

theorem appendStep_string (inside : s.str.length < s.size) (str : CString)
    (total : s.str.length + str.bytes.length < 2 ^ 31) :
    s.appendStep (.string str) =
      if s.str.length + str.bytes.length < 2 * s.size then
        some ⟨s.str ++ str.bytes,
          if s.size ≤ s.str.length + str.bytes.length then 2 * s.size else s.size⟩
      else none :=
  doubled_write inside total Iff.rfl

theorem appendStep_space (inside : s.str.length < s.size)
    (total : (withSpace s.str).length < 2 ^ 31) :
    ∃ next, s.appendStep .space = some next := by
  rw [withSpace] at total
  by_cases needed : s.str ≠ [] ∧ endsInSpace s.str = false
  · rw [if_pos needed, List.length_append] at total
    have same : s.append .space = s.append (.char 32) := if_pos needed
    rw [appendStep, same]
    exact ⟨_, appendStep_char inside 32 total⟩
  · have same : s.append .space = some s := if_neg needed
    rw [appendStep, same]
    exact ⟨s, if_pos inside⟩

/-- What is printed fits, or a block is found for it unless none is large enough. -/
theorem appendStep_printf (inside : s.str.length < s.size) (chars : Bytes)
    (total : s.str.length + chars.length < 2 ^ 31) :
    (∃ next, s.appendStep (.printf chars) = some next) ↔
      s.str.length + chars.length < s.size ∨ s.str.length + chars.length + 1 < 2 ^ 31 := by
  have small : (s.str.length + chars.length + 1) % 2 ^ 32 = s.str.length + chars.length + 1 := by
    omega
  rw [appendStep, append, pstringAppendPrintf]
  by_cases enlarge : s.size - s.str.length ≤ chars.length
  · have long : ¬s.str.length + chars.length < s.size := by omega
    rw [if_pos enlarge, small, or_iff_right long]
    constructor
    · rintro ⟨next, appended⟩
      by_contra beyond
      have half : s.str.length + chars.length + 1 = 2 ^ 31 := by omega
      rw [half, pstringRoundSize_half] at appended
      cases appended
    · intro below
      obtain ⟨rounded, found, larger⟩ := pstringRoundSize_of_lt below
      have moved : s.str.length < s.size ∧ s.str.length < rounded := ⟨inside, by omega⟩
      have fits : (s.str ++ chars).length < rounded := by
        rw [List.length_append]
        omega
      rw [found, Option.bind_some, reallocTo, if_pos moved, Option.bind_some, write_of_fits fits]
      exact ⟨_, if_pos fits⟩
  · have room : (s.str ++ chars).length < s.size := by
      rw [List.length_append]
      omega
    rw [if_neg enlarge, write_of_fits room]
    exact iff_of_true ⟨_, if_pos room⟩ (.inl (by omega))

/-- An append is possible exactly if it suits the string. -/
theorem appendStep_iff (inside : s.str.length < s.size) {call : Append}
    (total : (textAfter s.str call).length < 2 ^ 31) :
    (∃ next, s.appendStep call = some next) ↔ s.Suits call := by
  cases call with
  | char c =>
    rw [textAfter, List.length_append] at total
    exact iff_of_true ⟨_, appendStep_char inside c total⟩ trivial
  | string str =>
    rw [textAfter, List.length_append] at total
    rw [appendStep_string inside str total, Suits]
    split
    next fits => exact iff_of_true ⟨_, rfl⟩ fits
    next beyond => exact iff_of_false (fun ⟨_, appended⟩ => by cases appended) beyond
  | printf chars =>
    rw [textAfter, List.length_append] at total
    exact appendStep_printf inside chars total
  | space => exact iff_of_true (appendStep_space inside total) trivial

end Calls

section Runs

open TransitionRuns

variable {s : PString} {calls : List Append}

theorem run_str {final : PString} (runs : run appendStep calls s = some final) :
    final.str = calls.foldl textAfter s.str := by
  induction calls generalizing s with
  | nil => exact Option.some.inj runs ▸ rfl
  | cons call calls ih =>
    obtain ⟨next, stepped, rest⟩ := run_cons runs
    rw [List.foldl_cons, ← append_str (appendStep_eq_some_iff.mp stepped).1]
    exact ih rest

theorem length_le_textAfter (text : Bytes) (call : Append) :
    text.length ≤ (textAfter text call).length := by
  cases call with
  | space =>
    rw [textAfter, withSpace]
    split <;> simp
  | _ => simp [textAfter]

theorem length_le_foldl (text : Bytes) (calls : List Append) :
    text.length ≤ (calls.foldl textAfter text).length := by
  induction calls generalizing text with
  | nil => exact Nat.le_refl _
  | cons call calls ih => exact Nat.le_trans (length_le_textAfter text call) (ih _)

/-- Every text on the way is at most as long as the last one. -/
theorem guarded_total (total : (calls.foldl textAfter s.str).length < 2 ^ 31) :
    Guarded appendStep (fun s call => (textAfter s.str call).length < 2 ^ 31) calls s := by
  induction calls generalizing s with
  | nil => trivial
  | cons call calls ih =>
    rw [List.foldl_cons] at total
    refine ⟨Nat.lt_of_le_of_lt (length_le_foldl _ calls) total, fun next stepped => ?_⟩
    apply ih
    rw [append_str (appendStep_eq_some_iff.mp stepped).1]
    exact total

theorem pstringSizedNew_inside {size : Nat} (made : pstringSizedNew size = some s) :
    s.str = [] ∧ s.str.length < s.size := by
  obtain ⟨rounded, found, rfl⟩ := Option.map_eq_some_iff.mp made
  refine ⟨rfl, ?_⟩
  rw [pstringRoundSize] at found
  split at found
  · rw [← Option.some.inj found]
    decide
  · exact Nat.zero_lt_of_lt (roundLoop_gt found)

/-- The appends to a new string work exactly if each suits the string before it. -/
theorem appends_iff {size : Nat} (made : pstringSizedNew size = some s)
    (total : (calls.foldl textAfter []).length < 2 ^ 31) :
    s.Appends calls ↔ Guarded appendStep Suits calls s := by
  obtain ⟨empty, inside⟩ := pstringSizedNew_inside made
  rw [← empty] at total
  have runs : (∃ final, run appendStep calls s = some final ∧ True) ↔
      Guarded appendStep Suits calls s := by
    apply exists_run_iff_guarded (fun s : PString => s.str.length < s.size) _ _ _ inside
      (guarded_total total)
    · intro state call within short suits
      obtain ⟨next, stepped⟩ := (appendStep_iff within short).mpr suits
      exact ⟨next, stepped, (appendStep_eq_some_iff.mp stepped).2⟩
    · intro state call within short unsuited
      by_contra possible
      obtain ⟨next, stepped⟩ := Option.ne_none_iff_exists'.mp possible
      exact unsuited ((appendStep_iff within short).mp ⟨next, stepped⟩)
    · exact fun _ _ => trivial
  rw [← runs]
  constructor
  · rintro ⟨final, run, -⟩
    exact ⟨final, run, trivial⟩
  · rintro ⟨final, run, -⟩
    exact ⟨final, run, run_str run⟩

theorem longText_nulFree : (0 : UInt8) ∉ List.replicate 16 (97 : UInt8) := by
  decide

/-- Twice as many letters as a new string has room for. -/
def longText : CString :=
  ⟨List.replicate 16 97, longText_nulFree⟩

theorem longText_not_appends :
    pstringSizedNew 7 = some ⟨[], 8⟩ ∧ ¬(⟨[], 8⟩ : PString).Appends [.string longText] := by
  refine ⟨by decide, ?_⟩
  rintro ⟨final, runs, -⟩
  have outside : run appendStep [.string longText] ⟨[], 8⟩ = none := by decide
  rw [outside] at runs
  cases runs

theorem longText_iff : (⟨[], 8⟩ : PString).Appends [.string longText, .space] ↔
    Guarded appendStep Suits [.string longText, .space] ⟨[], 8⟩ :=
  have made : pstringSizedNew 7 = some ⟨[], 8⟩ := by decide
  appends_iff made (by decide)

end Runs

end PString

end Fbbs
