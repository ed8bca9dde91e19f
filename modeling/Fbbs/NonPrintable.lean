import Fbbs.WideScan

/-!
# Removing characters that do not print

`string_remove_non_printable` of `lib/string.c` moves the characters that print towards the start
of a string.  It copies with `memcpy`, which is undefined for regions that overlap.
-/

namespace Fbbs

namespace NonPrintable

open WideChars WideScan

/-- `memcpy`; `none` if the regions overlap. -/
def memcpy (memory : Bytes) (dst src n : Nat) : Option Bytes :=
  if dst + n ≤ src ∨ src + n ≤ dst then
    some (memory.take dst ++ (memory.drop src).take n ++ memory.drop (dst + n))
  else none

/-- The loop, with the memory before `str` and from `str` on. -/
def removeFrom (before : Bytes) (dst : Nat) (rest : Bytes) : Option Bytes :=
  match rest with
  | [] => none
  | c :: after =>
    if c = 0 then some ((before ++ c :: after).set dst 0)
    else
      let read := nextWchar (c :: after)
      -- `next_wchar` moves `str` forward
      let passed := before ++ (c :: after).take read.2
      let left := after.drop (read.2 - 1)
      if read.1 = 0 then removeFrom (passed.set dst 0) dst left
      else if read.1 = weof then removeFrom (before ++ [c]) dst after
      else if fbWcwidth read.1 > 0 then
        if dst = before.length then removeFrom passed (dst + read.2) left
        else
          match memcpy passed dst before.length read.2 with
          | none => none
          | some copied => removeFrom copied (dst + read.2) left
      else removeFrom passed dst left
termination_by rest.length
decreasing_by
  all_goals
    simp only [List.length_drop, List.length_cons]
    omega

/-- The memory of a string without the characters that do not print. -/
def stringRemoveNonPrintable (memory : Bytes) : Option Bytes :=
  removeFrom [] 0 memory

/-- A piece is a character that takes columns. -/
def prints : Piece → Bool
  | .char wc _ => fbWcwidth wc > 0
  | .bad _ => false

def clean (text : Bytes) : Bytes :=
  ((pieces text).filter prints).flatMap Piece.bytes

/-- No piece that is kept has been moved by fewer bytes than its own, unless by none. -/
def apart : Nat → List Piece → Bool
  | _, [] => true
  | gap, piece :: rest =>
    if prints piece then (gap == 0 || piece.bytes.length ≤ gap) && apart gap rest
    else apart (gap + piece.bytes.length) rest

section Steps

variable {before behind : Bytes} {dst : Nat}

theorem removeFrom_end (before behind : Bytes) (dst : Nat) :
    removeFrom before dst (0 :: behind) = some ((before ++ 0 :: behind).set dst 0) := by
  rw [removeFrom, if_pos rfl]

theorem removeFrom_bad {c : UInt8} {rest : Bytes} (nonzero : c ≠ 0)
    (invalid : (nextWchar (c :: rest)).1 = weof) :
    removeFrom before dst (c :: rest ++ 0 :: behind) =
      removeFrom (before ++ [c]) dst (rest ++ 0 :: behind) := by
  have read := nextWchar_terminated (c :: rest) behind
  have notNul : (nextWchar (c :: (rest ++ 0 :: behind))).1 ≠ 0 := by
    rw [← List.cons_append, read, invalid]
    decide
  rw [List.cons_append, removeFrom, if_neg nonzero]
  simp only [if_neg notNul]
  rw [if_pos]
  rw [← List.cons_append, read, invalid]

/-- A character moves `str` over its bytes. -/
theorem removeFrom_char {wc : Int} {bytes : Bytes} (reads : Reads wc bytes) (rest : Bytes) :
    removeFrom before dst (bytes ++ rest) =
      if wc = 0 then removeFrom ((before ++ bytes).set dst 0) dst rest
      else if fbWcwidth wc > 0 then
        if dst = before.length then removeFrom (before ++ bytes) (dst + bytes.length) rest
        else
          match memcpy (before ++ bytes) dst before.length bytes.length with
          | none => none
          | some copied => removeFrom copied (dst + bytes.length) rest
      else removeFrom (before ++ bytes) dst rest := by
  have read := reads.reads rest
  cases bytes with
  | nil => exact absurd rfl reads.begins
  | cons c conts =>
    have nonzero : c ≠ 0 := reads.begins
    rw [List.cons_append] at read ⊢
    rw [removeFrom, if_neg nonzero]
    simp only [read, List.length_cons, List.take_succ_cons, List.take_left, Nat.add_sub_cancel,
      List.drop_left, if_neg reads.valid]

/-- What `memcpy` moves down to a place before it. -/
theorem memcpy_down {bytes : Bytes} (inside : dst < before.length) (pos : 0 < bytes.length) :
    memcpy (before ++ bytes) dst before.length bytes.length =
      if dst + bytes.length ≤ before.length then
        some (before.take dst ++ bytes ++ (before ++ bytes).drop (dst + bytes.length))
      else none := by
  rw [memcpy, List.take_append_of_le_length inside.le, List.drop_left, List.take_length]
  by_cases fits : dst + bytes.length ≤ before.length
  · rw [if_pos (.inl fits), if_pos fits]
  · rw [if_neg (by omega), if_neg fits]

end Steps

theorem prints_char_iff (wc : Int) (bytes : Bytes) :
    prints (.char wc bytes) = true ↔ fbWcwidth wc > 0 :=
  decide_eq_true_iff

theorem clean_nil : clean [] = [] := by
  rw [clean, pieces_nil]
  rfl

theorem clean_bad {c : UInt8} {rest : Bytes} (invalid : (nextWchar (c :: rest)).1 = weof) :
    clean (c :: rest) = clean rest := by
  rw [clean, pieces_bad invalid]
  rfl

theorem clean_char {wc : Int} {bytes : Bytes} (reads : Reads wc bytes) (rest : Bytes) :
    clean (bytes ++ rest) = if fbWcwidth wc > 0 then bytes ++ clean rest else clean rest := by
  rw [clean, pieces_char reads, List.filter_cons]
  by_cases wide : fbWcwidth wc > 0
  · rw [if_pos ((prints_char_iff wc bytes).mpr wide), if_pos wide]
    rfl
  · rw [if_neg ((prints_char_iff wc bytes).not.mpr wide), if_neg wide]
    rfl

/-- The string in the memory is the text without what does not print, or a copy was undefined. -/
def Outcome (defined : Bool) (kept : Bytes) (result : Option Bytes) : Prop :=
  if defined then ∃ after, result = some (kept ++ 0 :: after) else result = none

/-- The loop keeps what it has written before `dst`. -/
theorem removeFrom_outcome {text : Bytes} (nulFree : (0 : UInt8) ∉ text) (behind : Bytes)
    {before : Bytes} {dst : Nat} (inside : dst ≤ before.length) :
    Outcome (apart (before.length - dst) (pieces text)) (before.take dst ++ clean text)
      (removeFrom before dst (text ++ 0 :: behind)) := by
  induction divided nulFree generalizing before dst with
  | nil =>
    have size : dst < (before ++ 0 :: behind).length := by
      rw [List.length_append, List.length_cons]
      omega
    rw [pieces_nil, clean_nil, List.nil_append, removeFrom_end, List.append_nil,
      List.set_eq_take_append_cons_drop, if_pos size, List.take_append_of_le_length inside]
    exact ⟨_, rfl⟩
  | @bad c rest nonzero invalid divided ih =>
    have next := @ih (List.not_mem_of_not_mem_cons nulFree) (before ++ [c]) dst (by
      rw [List.length_append]
      omega)
    have gap : (before ++ [c]).length - dst = before.length - dst + [c].length := by
      rw [List.length_append]
      omega
    rw [List.take_append_of_le_length inside, gap] at next
    rw [removeFrom_bad nonzero invalid, pieces_bad invalid, clean_bad invalid]
    exact next
  | @char wc bytes rest reads divided ih =>
    have restNulFree : (0 : UInt8) ∉ rest := fun member =>
      nulFree (List.mem_append_right _ member)
    have size : (before ++ bytes).length = before.length + bytes.length := List.length_append
    have gap : (before ++ bytes).length - dst = before.length - dst + bytes.length := by
      omega
    rw [List.append_assoc, removeFrom_char reads, pieces_char reads, clean_char reads, apart]
    by_cases isNul : wc = 0
    · subst isNul
      have next := @ih restNulFree ((before ++ bytes).set dst 0) dst (by
        rw [List.length_set]
        omega)
      rw [List.length_set, gap, List.take_set_of_le (Nat.le_refl dst),
        List.take_append_of_le_length inside] at next
      exact next
    · rw [if_neg isNul]
      by_cases wide : fbWcwidth wc > 0
      · rw [if_pos wide, if_pos wide, if_pos ((prints_char_iff wc bytes).mpr wide),
          ← List.append_assoc]
        by_cases same : dst = before.length
        · subst same
          have next := @ih restNulFree (before ++ bytes) (before.length + bytes.length) (by omega)
          rw [← size, List.take_length, Nat.sub_self, size] at next
          rw [if_pos rfl, Nat.sub_self, List.take_length]
          exact next
        · have pos := reads.length_pos
          have moved : ¬before.length - dst = 0 := by omega
          rw [if_neg same, memcpy_down (by omega) pos]
          by_cases fits : dst + bytes.length ≤ before.length
          · have enough : bytes.length ≤ before.length - dst := by omega
            have taken : (before.take dst ++ bytes).length = dst + bytes.length := by
              rw [List.length_append, List.length_take, Nat.min_eq_left inside]
            have next := @ih restNulFree (before.take dst ++ bytes ++
              (before ++ bytes).drop (dst + bytes.length)) (dst + bytes.length) (by
                rw [List.length_append, taken]
                exact Nat.le_add_right _ _)
            have stays : (before.take dst ++ bytes ++
                (before ++ bytes).drop (dst + bytes.length)).length - (dst + bytes.length) =
                  before.length - dst := by
              rw [List.length_append, taken, List.length_drop, size]
              omega
            rw [stays, List.take_append_of_le_length (by omega), List.take_of_length_le (by omega)]
              at next
            rw [if_pos fits]
            simpa only [Piece.bytes, beq_iff_eq, moved, enough, decide_true, Bool.or_true,
              Bool.true_and] using next
          · have short : ¬bytes.length ≤ before.length - dst := by omega
            rw [if_neg fits]
            simp [Outcome, Piece.bytes, moved, short]
      · have next := @ih restNulFree (before ++ bytes) dst (by omega)
        rw [gap, List.take_append_of_le_length inside] at next
        rw [if_neg wide, if_neg wide, if_neg ((prints_char_iff wc bytes).not.mpr wide)]
        exact next

theorem pieces_clean {text : Bytes} (nulFree : (0 : UInt8) ∉ text) :
    pieces (clean text) = (pieces text).filter prints := by
  induction divided nulFree with
  | nil =>
    rw [clean_nil, pieces_nil]
    rfl
  | bad nonzero invalid divided ih =>
    rw [clean_bad invalid, ih (List.not_mem_of_not_mem_cons nulFree), pieces_bad invalid]
    rfl
  | @char wc bytes rest reads divided ih =>
    have inRest := ih fun member => nulFree (List.mem_append_right _ member)
    rw [clean_char reads, pieces_char reads, List.filter_cons]
    by_cases wide : fbWcwidth wc > 0
    · rw [if_pos wide, if_pos ((prints_char_iff wc bytes).mpr wide), pieces_char reads, inRest]
    · rw [if_neg wide, if_neg ((prints_char_iff wc bytes).not.mpr wide), inRest]

theorem nulFree_clean {text : Bytes} (nulFree : (0 : UInt8) ∉ text) :
    (0 : UInt8) ∉ clean text := by
  intro member
  apply nulFree
  rw [← flatMap_pieces nulFree]
  obtain ⟨piece, kept, inside⟩ := List.mem_flatMap.mp member
  exact List.mem_flatMap.mpr ⟨piece, List.mem_of_mem_filter kept, inside⟩

theorem clean_clean {text : Bytes} (nulFree : (0 : UInt8) ∉ text) :
    clean (clean text) = clean text := by
  rw [clean, pieces_clean nulFree, List.filter_filter]
  simp only [Bool.and_self]
  rfl

/-- Where everything is kept nothing is moved. -/
theorem apart_of_all {kept : List Piece} (all : ∀ piece ∈ kept, prints piece = true) :
    apart 0 kept = true := by
  induction kept with
  | nil => rfl
  | cons piece kept ih =>
    rw [List.forall_mem_cons] at all
    rw [apart, if_pos all.1, ih all.2]
    rfl

/-- What is to be left of a string, also when it is done again. -/
structure Cleans (str : CString) : Prop where
  decodes : ∀ piece ∈ pieces (clean str.bytes), ∃ wc bytes,
    piece = .char wc bytes ∧ fbWcwidth wc > 0
  once : ∃ memory, stringRemoveNonPrintable (str.bytes ++ [0]) = some memory ∧
    (CString.ofBytes memory).bytes = clean str.bytes ∧
    ∃ again, stringRemoveNonPrintable memory = some again ∧
      (CString.ofBytes again).bytes = clean str.bytes

theorem ofBytes_clean {text : Bytes} (nulFree : (0 : UInt8) ∉ text) (after : Bytes) :
    (CString.ofBytes (clean text ++ 0 :: after)).bytes = clean text :=
  congrArg CString.bytes (CString.ofBytes_append ⟨clean text, nulFree_clean nulFree⟩ after)

/-- Exactly the characters that print are left, unless a character is moved by less than its own
length. -/
theorem cleans_iff (str : CString) : Cleans str ↔ apart 0 (pieces str.bytes) = true := by
  have first := @removeFrom_outcome str.bytes str.nulFree [] [] 0 (Nat.le_refl 0)
  constructor
  · rintro ⟨-, memory, removed, -⟩
    by_contra overlaps
    rw [Bool.not_eq_true] at overlaps
    rw [List.length_nil, Nat.sub_zero, overlaps] at first
    exact absurd (removed.symm.trans first) (by simp)
  · intro isApart
    rw [List.length_nil, Nat.sub_zero, isApart] at first
    obtain ⟨after, removed⟩ := first
    have second := @removeFrom_outcome (clean str.bytes) (nulFree_clean str.nulFree) after [] 0
      (Nat.le_refl 0)
    have all : ∀ piece ∈ pieces (clean str.bytes), prints piece = true := by
      rw [pieces_clean str.nulFree]
      exact fun piece member => List.of_mem_filter member
    rw [List.length_nil, Nat.sub_zero, apart_of_all all, clean_clean str.nulFree] at second
    obtain ⟨again, repeated⟩ := second
    constructor
    · intro piece member
      have wide := all piece member
      cases piece with
      | char wc bytes => exact ⟨wc, bytes, rfl, (prints_char_iff wc bytes).mp wide⟩
      | bad byte => cases wide
    · exact ⟨_, removed, ofBytes_clean str.nulFree after, _, repeated,
        ofBytes_clean str.nulFree again⟩

theorem accented_nulFree : (0 : UInt8) ∉ ([1, 0xc3, 0xa9] : Bytes) := by
  decide

/-- A control character before a letter of two bytes. -/
def accented : CString :=
  ⟨[1, 0xc3, 0xa9], accented_nulFree⟩

/-- The letter overlaps itself when it is moved. -/
theorem accented_not_cleans : ¬Cleans accented := by
  rintro ⟨-, memory, removed, -⟩
  have control : Reads 1 [1] := ⟨by decide, by decide, fun _ => rfl⟩
  have letter : Reads 0xe9 [0xc3, 0xa9] := ⟨by decide, by decide, fun _ => rfl⟩
  have both : pieces accented.bytes = [.char 1 [1], .char 0xe9 [0xc3, 0xa9]] := by
    have last := pieces_char letter []
    rw [pieces_nil] at last
    exact (pieces_char control [0xc3, 0xa9]).trans (congrArg _ last)
  have overlaps : apart 0 (pieces accented.bytes) = false := by
    rw [both]
    decide
  have outcome := @removeFrom_outcome accented.bytes accented.nulFree [] [] 0 (Nat.le_refl 0)
  rw [List.length_nil, Nat.sub_zero, overlaps] at outcome
  exact absurd (removed.symm.trans outcome) (by simp)

end NonPrintable

end Fbbs
