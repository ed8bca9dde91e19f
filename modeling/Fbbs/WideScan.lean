import Fbbs.Parcel
import Fbbs.WideChars

/-!
# Reading a string by wide characters

A string as the pieces that `next_wchar` reads from it: characters, and bytes that begin none and
are passed over one at a time.  An encoded NUL is a piece too, though it reads like the end of the
string.
-/

namespace Fbbs

namespace WideScan

open WideChars

inductive Piece
  | char (wc : Int) (bytes : Bytes)
  | bad (byte : UInt8)
  deriving DecidableEq

def Piece.bytes : Piece → Bytes
  | char _ bytes => bytes
  | bad byte => [byte]

def pieces (text : Bytes) : List Piece :=
  match text with
  | [] => []
  | c :: rest =>
    let read := nextWchar (c :: rest)
    if read.1 = weof then .bad c :: pieces rest
    else .char read.1 ((c :: rest).take read.2) :: pieces (rest.drop (read.2 - 1))
termination_by text.length
decreasing_by
  · exact Nat.lt_succ_self _
  · rw [List.length_drop, List.length_cons]
    omega

/-- The bytes are read as the character whatever is behind them. -/
structure Reads (wc : Int) (bytes : Bytes) : Prop where
  valid : wc ≠ weof
  begins : bytes.headD 0 ≠ 0
  reads : ∀ rest, nextWchar (bytes ++ rest) = (wc, bytes.length)

theorem nextWchar_length {text : Bytes} (begins : text.headD 0 ≠ 0) :
    (nextWchar text).1 ≠ weof → 0 < (nextWchar text).2 ∧ (nextWchar text).2 ≤ text.length := by
  fun_cases nextWchar text <;>
    first
    | exact absurd rfl begins
    | exact fun valid => absurd rfl valid
    | simp

/-- A character is read from its own bytes only. -/
theorem nextWchar_take {text : Bytes} (begins : text.headD 0 ≠ 0) (after : Bytes) :
    (nextWchar text).1 ≠ weof →
      nextWchar (text.take (nextWchar text).2 ++ after) = nextWchar text := by
  fun_cases nextWchar text <;>
    first
    | exact absurd rfl begins
    | exact fun valid => absurd rfl valid
    | simp [nextWchar, *]

/-- The terminator reads like the end of the text. -/
theorem nextWchar_terminated (text behind : Bytes) :
    nextWchar (text ++ 0 :: behind) = nextWchar text := by
  have ends : isCont 0 = false := rfl
  cases text with
  | nil => rfl
  | cons s0 t =>
    have cut := nextWchar_append (@List.mem_concat_self _ t _) ends s0 behind
    rw [List.append_assoc, List.singleton_append] at cut
    rw [List.cons_append, cut]
    rcases t with _ | ⟨s1, _ | ⟨s2, _ | ⟨s3, t⟩⟩⟩ <;> simp [nextWchar, ends]

/-- What is read begins the text. -/
theorem reads_of_nextWchar {text : Bytes} (begins : text.headD 0 ≠ 0)
    (valid : (nextWchar text).1 ≠ weof) :
    Reads (nextWchar text).1 (text.take (nextWchar text).2) := by
  obtain ⟨pos, inside⟩ := nextWchar_length begins valid
  refine ⟨valid, ?_, fun rest => ?_⟩
  · cases text with
    | nil => exact absurd rfl begins
    | cons c rest =>
      obtain ⟨k, eq⟩ := Nat.exists_eq_add_of_lt pos
      rw [eq]
      exact begins
  · rw [nextWchar_take begins rest valid, List.length_take, Nat.min_eq_left inside]

theorem Reads.length_pos {wc : Int} {bytes : Bytes} (char : Reads wc bytes) : 0 < bytes.length := by
  cases bytes with
  | nil => exact absurd rfl char.begins
  | cons c conts => exact Nat.zero_lt_succ _

theorem headD_ne_zero {c : UInt8} {rest : Bytes} (nulFree : (0 : UInt8) ∉ c :: rest) : c ≠ 0 :=
  fun zero => nulFree (zero ▸ List.mem_cons_self)

/-- A string is empty, or begins with a byte that begins no character, or with a character. -/
inductive Divided : Bytes → Prop
  | nil : Divided []
  | bad {c : UInt8} {rest : Bytes} (nonzero : c ≠ 0) (invalid : (nextWchar (c :: rest)).1 = weof)
      (behind : Divided rest) : Divided (c :: rest)
  | char {wc : Int} {bytes rest : Bytes} (reads : Reads wc bytes) (behind : Divided rest) :
      Divided (bytes ++ rest)

theorem divided {text : Bytes} (nulFree : (0 : UInt8) ∉ text) : Divided text := by
  induction size : text.length using Nat.strongRecOn generalizing text with
  | ind size' ih =>
    subst size
    cases text with
    | nil => exact .nil
    | cons c rest =>
      have begins : (c :: rest).headD 0 ≠ 0 := headD_ne_zero nulFree
      by_cases invalid : (nextWchar (c :: rest)).1 = weof
      · exact .bad begins invalid
          (ih rest.length (Nat.lt_succ_self _) (List.not_mem_of_not_mem_cons nulFree) rfl)
      · have reads := reads_of_nextWchar begins invalid
        have pos := (nextWchar_length begins invalid).1
        have shorter : ((c :: rest).drop (nextWchar (c :: rest)).2).length <
            (c :: rest).length := by
          rw [List.length_drop, List.length_cons]
          omega
        have behind := ih _ shorter (fun member => nulFree (List.mem_of_mem_drop member)) rfl
        have split := List.take_append_drop (nextWchar (c :: rest)).2 (c :: rest)
        rw [← split]
        exact .char reads behind

theorem pieces_nil : pieces [] = [] := by
  rw [pieces]

theorem pieces_bad {c : UInt8} {rest : Bytes} (invalid : (nextWchar (c :: rest)).1 = weof) :
    pieces (c :: rest) = .bad c :: pieces rest := by
  rw [pieces, if_pos invalid]

/-- A character is the first piece whatever is behind it. -/
theorem pieces_char {wc : Int} {bytes : Bytes} (char : Reads wc bytes) (rest : Bytes) :
    pieces (bytes ++ rest) = .char wc bytes :: pieces rest := by
  have read := char.reads rest
  cases bytes with
  | nil => exact absurd rfl char.begins
  | cons c conts =>
    rw [List.cons_append] at read ⊢
    have valid : (nextWchar (c :: (conts ++ rest))).1 ≠ weof := by
      rw [read]
      exact char.valid
    rw [pieces, if_neg valid, read]
    simp

theorem flatMap_pieces {text : Bytes} (nulFree : (0 : UInt8) ∉ text) :
    (pieces text).flatMap Piece.bytes = text := by
  induction divided nulFree with
  | nil =>
    rw [pieces_nil]
    rfl
  | bad nonzero invalid behind ih =>
    rw [pieces_bad invalid, List.flatMap_cons, ih (List.not_mem_of_not_mem_cons nulFree)]
    rfl
  | char reads behind ih =>
    rw [pieces_char reads, List.flatMap_cons,
      ih fun member => nulFree (List.mem_append_right _ member)]
    rfl

end WideScan

end Fbbs
