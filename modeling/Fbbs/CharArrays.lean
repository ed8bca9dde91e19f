import Mathlib.Data.List.Basic
import Mathlib.Data.List.GetD
import Mathlib.Data.List.TakeWhile
import Mathlib.Data.List.Range
import Mathlib.Data.Nat.Find
import Mathlib.Logic.Function.Basic
import Mathlib.Algebra.Notation.Defs
import Mathlib.Algebra.Group.Nat.Defs

/-!
# Strings in arrays

An array of a fixed size holds a string up to its first zero; what is behind it stays there when
the string is changed.  Copying and appending write a string with the zero behind it.
-/

namespace CharArrays

variable {α : Type*} [Zero α] [DecidableEq α]

/-- The string in an array of this size that begins here. -/
def stringAt (size : Nat) (data : Nat → α) (start : Nat) : List α :=
  ((List.range' start (size - start)).map data).takeWhile (· ≠ 0)

def string (size : Nat) (data : Nat → α) : List α :=
  stringAt size data 0

/-- Items written into an array from a place on. -/
def put (data : Nat → α) (start : Nat) (items : List α) : Nat → α :=
  fun i => if start ≤ i ∧ i < start + items.length then items.getD (i - start) 0 else data i

def strcpy (data : Nat → α) (text : List α) : Nat → α :=
  put data 0 (text ++ [0])

def strcat (size : Nat) (data : Nat → α) (text : List α) : Nat → α :=
  put data (string size data).length (text ++ [0])

/-- The first zero of an array of this size, from a place on, ends a string of this length. -/
structure Ends (size : Nat) (data : Nat → α) (start length : Nat) : Prop where
  inside : start + length < size
  zero : data (start + length) = 0
  before : ∀ i < length, data (start + i) ≠ 0

variable {size start length : Nat} {data : Nat → α} {text : List α}

omit [DecidableEq α] in
/-- Further on in a string it ends at the same place. -/
theorem Ends.drop (ends : Ends size data start length) {k : Nat} (inside : k ≤ length) :
    Ends size data (start + k) (length - k) := by
  have sum : start + k + (length - k) = start + length := by omega
  refine ⟨?_, ?_, fun i below => ?_⟩
  · rw [sum]
    exact ends.inside
  · rw [sum]
    exact ends.zero
  · rw [Nat.add_assoc]
    exact ends.before (k + i) (by omega)

theorem Ends.stringAt_eq (ends : Ends size data start length) :
    stringAt size data start = (List.range' start length).map data := by
  obtain ⟨rest, split⟩ : ∃ rest, size - start = length + (rest + 1) :=
    ⟨size - start - length - 1, by have := ends.inside; omega⟩
  rw [stringAt, split, ← List.range'_append_1, List.map_append, List.takeWhile_append_of_pos]
  · rw [List.range'_succ, List.map_cons, List.takeWhile_cons_of_neg, List.append_nil]
    rw [ends.zero]
    simp
  · intro item member
    obtain ⟨i, inside, rfl⟩ := List.mem_map.1 member
    rw [List.mem_range'_1] at inside
    have := ends.before (i - start) (by omega)
    rw [Nat.add_sub_cancel' inside.1] at this
    exact decide_eq_true this

theorem Ends.length_eq (ends : Ends size data start length) :
    (stringAt size data start).length = length := by
  rw [ends.stringAt_eq, List.length_map, List.length_range']

/-- A string is the items of the array that it is to be made of. -/
theorem stringAt_eq_of (inside : start + text.length < size)
    (zero : data (start + text.length) = 0) (items : ∀ i, (below : i < text.length) →
      data (start + i) = text[i]) (nonzero : ∀ item ∈ text, item ≠ 0) :
    stringAt size data start = text := by
  have ends : Ends size data start text.length := by
    refine ⟨inside, zero, fun i below => ?_⟩
    rw [items i below]
    exact nonzero _ (List.getElem_mem below)
  rw [ends.stringAt_eq]
  apply List.ext_getElem
  · rw [List.length_map, List.length_range']
  · intro i left right
    rw [List.getElem_map, List.getElem_range', Nat.one_mul, items i right]

theorem nonzero_of_mem_stringAt {item : α} (member : item ∈ stringAt size data start) :
    item ≠ 0 := by
  have := List.mem_takeWhile_imp member
  simpa using this

/-- The string of an array that has a zero. -/
theorem ends_of_zero {place : Nat} (inside : place < size) (zero : data place = 0) :
    Ends size data 0 (string size data).length := by
  classical
  have exists_zero : ∃ n, data n = 0 := ⟨place, zero⟩
  have ends : Ends size data 0 (Nat.find exists_zero) := by
    refine ⟨?_, ?_, fun i below => ?_⟩
    · have := Nat.find_min' exists_zero zero
      omega
    · rw [Nat.zero_add]
      exact Nat.find_spec exists_zero
    · rw [Nat.zero_add]
      exact Nat.find_min exists_zero below
  rw [string, ends.length_eq]
  exact ends

/-- A string that is shorter than the array has its zero in it. -/
theorem ends_of_length_lt (short : (string size data).length < size) :
    Ends size data 0 (string size data).length := by
  by_cases exists_zero : ∃ place < size, data place = 0
  · obtain ⟨place, inside, zero⟩ := exists_zero
    exact ends_of_zero inside zero
  · have whole : string size data = (List.range' 0 size).map data := by
      rw [string, stringAt, Nat.sub_zero, List.takeWhile_eq_self_iff]
      intro item member
      obtain ⟨place, inside, rfl⟩ := List.mem_map.1 member
      rw [List.mem_range'_1] at inside
      exact decide_eq_true fun zero => exists_zero ⟨place, by omega, zero⟩
    rw [whole, List.length_map, List.length_range'] at short
    exact absurd short (Nat.lt_irrefl size)

/-- The items of the array up to the end of its string. -/
theorem Ends.getD_string (ends : Ends size data 0 length) {i : Nat} (upTo : i ≤ length) :
    (string size data).getD i 0 = data i := by
  obtain rfl | below := Nat.eq_or_lt_of_le upTo
  · have end_eq := ends.length_eq
    have zero := ends.zero
    rw [Nat.zero_add] at zero
    rw [string, List.getD_eq_default _ _ (Nat.le_of_eq end_eq), zero]
  · have inside : i < (string size data).length := by
      rw [string, ends.length_eq]
      exact below
    rw [List.getD_eq_getElem _ _ inside]
    simp only [string, ends.stringAt_eq, List.getElem_map, List.getElem_range', Nat.one_mul,
      Nat.zero_add]

theorem stringAt_succ (inside : start < size) : stringAt size data start =
    if data start = 0 then [] else data start :: stringAt size data (start + 1) := by
  obtain ⟨rest, split⟩ : ∃ rest, size - start = rest + 1 := ⟨size - start - 1, by omega⟩
  have less : size - (start + 1) = rest := by omega
  rw [stringAt, split, List.range'_succ, List.map_cons, List.takeWhile_cons, stringAt, less]
  split_ifs <;> simp_all

theorem stringAt_congr {other : Nat → α} (same : ∀ i ≥ start, data i = other i) :
    stringAt size data start = stringAt size other start := by
  rw [stringAt, stringAt]
  congr 1
  apply List.map_congr_left
  intro i member
  exact same i (List.mem_range'_1.1 member).1

theorem Ends.stringAt_add (ends : Ends size data start length) {k : Nat} (inside : k ≤ length) :
    stringAt size data (start + k) = (stringAt size data start).drop k := by
  rw [(ends.drop inside).stringAt_eq, ends.stringAt_eq, ← List.map_drop, List.drop_range',
    Nat.mul_one]

/-- A zero written into a string cuts it off. -/
theorem Ends.update_zero (ends : Ends size data 0 length) {k : Nat} (inside : k ≤ length) :
    string size (Function.update data k 0) = (string size data).take k := by
  have cut : Ends size (Function.update data k 0) 0 k := by
    refine ⟨?_, ?_, fun i below => ?_⟩
    · have := ends.inside
      omega
    · rw [Nat.zero_add, Function.update_self]
    · rw [Nat.zero_add, Function.update_of_ne (by omega)]
      have := ends.before i (by omega)
      rwa [Nat.zero_add] at this
  have split : (List.range' 0 length).take k = List.range' 0 k := by
    obtain ⟨rest, rfl⟩ := Nat.exists_eq_add_of_le inside
    rw [← List.range'_append_1, List.take_left' List.length_range']
  rw [string, string, cut.stringAt_eq, ends.stringAt_eq, ← List.map_take, split]
  apply List.map_congr_left
  intro i member
  have := (List.mem_range'_1.1 member).2
  exact Function.update_of_ne (by omega) _ _

omit [DecidableEq α] in
/-- Items that are written with a zero behind them end there. -/
theorem Ends.put (nonzero : ∀ item ∈ text, item ≠ 0) (inside : start + text.length < size)
    (before : ∀ i < start, data i ≠ 0) :
    Ends size (put data start (text ++ [0])) 0 (start + text.length) := by
  refine ⟨by omega, ?_, fun i below => ?_⟩
  · rw [Nat.zero_add, CharArrays.put, List.length_append, List.length_singleton,
      if_pos ⟨Nat.le_add_right _ _, by omega⟩, Nat.add_sub_cancel_left]
    simp
  · rw [Nat.zero_add, CharArrays.put, List.length_append, List.length_singleton]
    by_cases written : start ≤ i
    · have within : i - start < text.length := by omega
      rw [if_pos ⟨written, by omega⟩, List.getD_append _ _ _ _ within,
        List.getD_eq_getElem _ _ within]
      exact nonzero _ (List.getElem_mem within)
    · rw [if_neg fun both => written both.1]
      exact before i (by omega)

theorem string_strcpy (nonzero : ∀ item ∈ text, item ≠ 0) (inside : text.length < size) :
    string size (strcpy data text) = text := by
  have ends : Ends size (strcpy data text) 0 (0 + text.length) :=
    Ends.put nonzero (by omega) fun i below => absurd below (Nat.not_lt_zero i)
  rw [Nat.zero_add] at ends
  rw [string, ends.stringAt_eq]
  apply List.ext_getElem
  · rw [List.length_map, List.length_range']
  · intro i left right
    rw [List.getElem_map, List.getElem_range', Nat.one_mul, Nat.zero_add, strcpy, CharArrays.put,
      List.length_append, List.length_singleton, if_pos ⟨Nat.zero_le i, by omega⟩, Nat.sub_zero,
      List.getD_append _ _ _ _ right, List.getD_eq_getElem _ _ right]

theorem string_strcat {own : Nat} (ends : Ends size data 0 own)
    (nonzero : ∀ item ∈ text, item ≠ 0) (inside : own + text.length < size) :
    string size (strcat size data text) = string size data ++ text := by
  have length : (string size data).length = own := ends.length_eq
  have before : ∀ i < own, data i ≠ 0 := by
    intro i below
    have := ends.before i below
    rwa [Nat.zero_add] at this
  have whole : Ends size (strcat size data text) 0 (own + text.length) := by
    rw [strcat, length]
    exact Ends.put nonzero inside before
  rw [string, whole.stringAt_eq]
  apply List.ext_getElem
  · rw [List.length_map, List.length_range', List.length_append, length]
  · intro i left right
    rw [List.length_append, length] at right
    rw [List.getElem_map, List.getElem_range', Nat.one_mul, Nat.zero_add, strcat, length,
      CharArrays.put, List.length_append, List.length_singleton]
    by_cases written : own ≤ i
    · have within : i - own < text.length := by omega
      rw [if_pos ⟨written, by omega⟩, List.getD_append _ _ _ _ within,
        List.getD_eq_getElem _ _ within, List.getElem_append_right (by omega)]
      simp only [length]
    · have below : i < (string size data).length := by omega
      rw [if_neg fun both => written both.1, List.getElem_append_left below]
      simp only [string, ends.stringAt_eq, List.getElem_map, List.getElem_range', Nat.one_mul,
        Nat.zero_add]

end CharArrays
