import Mathlib.Data.List.Basic
import Mathlib.Data.Option.Basic

/-!
# Fresh memory

A block of memory whose cells are unwritten at first.  A program that fills it from the front
leaves what it has written, followed by unwritten cells.
-/

namespace Fbbs

namespace FreshMemory

variable {α : Type*}

/-- A block; an unwritten cell is `none`. -/
abbrev Memory (α : Type*) := List (Option α)

/-- A block of unwritten cells. -/
def malloc (size : Nat) : Memory α :=
  List.replicate size none

/-- The source is copied from its front to a position.  The result is `none` if the count is
negative or cells outside of the block or the source are touched. -/
def memcpy (block : Memory α) (position : Nat) (source : List α) (count : Int) :
    Option (Memory α) :=
  if 0 ≤ count ∧ count.toNat ≤ source.length ∧ position + count.toNat ≤ block.length then
    some (block.take position ++ (source.take count.toNat).map some ++
      block.drop (position + count.toNat))
  else none

/-- One cell is written. -/
def store (block : Memory α) (position : Nat) (value : α) : Option (Memory α) :=
  if position < block.length then some (block.set position (some value)) else none

/-- As many cells of another block are copied from its front to a position. -/
def copy (block : Memory α) (position : Nat) (source : Memory α) (count : Nat) :
    Option (Memory α) :=
  if count ≤ source.length ∧ position + count ≤ block.length then
    some (block.take position ++ source.take count ++ block.drop (position + count))
  else none

/-- What is written in front of a stop symbol.  The result is `none` if an unwritten cell or
the end of the block comes first. -/
def readUntil [DecidableEq α] (stop : α) : Memory α → Option (List α)
  | [] => none
  | none :: _ => none
  | some value :: rest =>
    if value = stop then some [] else (readUntil stop rest).map (value :: ·)

/-- Some cells are written in front of unwritten ones. -/
def filled (written : List α) (free : Nat) : Memory α :=
  written.map some ++ List.replicate free none

theorem malloc_eq_filled (size : Nat) : (malloc size : Memory α) = filled [] size :=
  rfl

theorem length_filled (written : List α) (free : Nat) :
    (filled written free).length = written.length + free := by
  rw [filled, List.length_append, List.length_map, List.length_replicate]

/-- Copying to the first unwritten cells. -/
theorem memcpy_filled {written source : List α} {free count position : Nat}
    (atEnd : position = written.length) (inside : count ≤ source.length) (fits : count ≤ free) :
    memcpy (filled written free) position source count =
      some (filled (written ++ source.take count) (free - count)) := by
  subst atEnd
  have length : (written.map some).length = written.length := List.length_map some
  unfold memcpy
  rw [if_pos ⟨Int.natCast_nonneg count, by rwa [Int.toNat_natCast], by
    rw [length_filled, Int.toNat_natCast]
    omega⟩, Int.toNat_natCast, filled, List.take_left' length, ← List.drop_drop,
    List.drop_left' length, List.drop_replicate, filled, List.map_append]

/-- Writing the first unwritten cell. -/
theorem store_filled {written : List α} {free position : Nat} (value : α)
    (atEnd : position = written.length) (fits : 0 < free) :
    store (filled written free) position value =
      some (filled (written ++ [value]) (free - 1)) := by
  subst atEnd
  obtain ⟨rest, rfl⟩ := Nat.exists_eq_add_one_of_ne_zero (Nat.ne_of_gt fits)
  have inside : written.length < (filled written (rest + 1)).length := by
    rw [length_filled]
    omega
  rw [store, if_pos inside, filled, List.set_append_right _ _ (Nat.le_of_eq (List.length_map some)),
    List.length_map, Nat.sub_self, List.replicate_succ, List.set_cons_zero]
  simp [filled]

/-- Writing the last cell behind unwritten ones. -/
theorem store_last {written : List α} {free position : Nat} (value : α)
    (last : position = written.length + free) :
    store (filled written (free + 1)) position value =
      some (filled written free ++ [some value]) := by
  subst last
  have inside : written.length + free < (filled written (free + 1)).length := by
    rw [length_filled]
    omega
  have split : filled written (free + 1) = filled written free ++ [none] := by
    rw [filled, filled, List.append_assoc, List.replicate_succ']
  rw [store, if_pos inside, split,
    List.set_append_right _ _ (Nat.le_of_eq (length_filled written free)), length_filled,
    Nat.sub_self]
  rfl

/-- Only a block without unwritten cells holds a list. -/
theorem filled_eq_map_iff {written whole : List α} {free : Nat} :
    filled written free = whole.map some ↔ free = 0 ∧ written = whole := by
  constructor
  · intro same
    have none : free = 0 := by
      by_contra some
      have member : (none : Option α) ∈ filled written free := by
        rw [filled]
        exact List.mem_append_right _ (List.mem_replicate.mpr ⟨some, rfl⟩)
      rw [same, List.mem_map] at member
      obtain ⟨value, -, isNone⟩ := member
      cases isNone
    refine ⟨none, ?_⟩
    rw [none, filled, List.replicate_zero, List.append_nil] at same
    exact List.map_injective_iff.mpr (Option.some_injective α) same
  · rintro ⟨rfl, rfl⟩
    rw [filled, List.replicate_zero, List.append_nil]

section Fronts

variable {block result source : Memory α} {written text : List α} {position count : Nat}

theorem isSome_copy_iff :
    (copy block position source count).isSome ↔
      count ≤ source.length ∧ position + count ≤ block.length := by
  rw [copy]
  split <;> simp_all

theorem isSome_store_iff {value : α} :
    (store block position value).isSome ↔ position < block.length := by
  rw [store]
  split <;> simp_all

theorem front_nil (block : Memory α) : ([] : List α).map some <+: block :=
  List.nil_prefix

theorem length_copy (copied : copy block position source count = some result) :
    result.length = block.length := by
  unfold copy at copied
  split at copied
  · next inside =>
    obtain rfl := Option.some.inj copied
    simp only [List.length_append, List.length_take, List.length_drop]
    omega
  · cases copied

theorem length_store {value : α} (stored : store block position value = some result) :
    result.length = block.length := by
  unfold store at stored
  split at stored
  · obtain rfl := Option.some.inj stored
    exact List.length_set
  · cases stored

/-- A copy behind what is written keeps it, and the copied text follows. -/
theorem front_copy (front : written.map some <+: block) (textFront : text.map some <+: source)
    (atEnd : position = written.length) (whole : text.length ≤ count)
    (copied : copy block position source count = some result) :
    (written ++ text).map some <+: result := by
  obtain ⟨rest, rfl⟩ := front
  obtain ⟨more, rfl⟩ := textFront
  subst atEnd
  unfold copy at copied
  split at copied
  · obtain rfl := Option.some.inj copied
    have atFront : (written.map some).length = written.length := List.length_map some
    have taken : (text.map some ++ more).take count =
        text.map some ++ more.take (count - text.length) := by
      rw [List.take_append, List.length_map,
        List.take_of_length_le (by rw [List.length_map]; exact whole)]
    rw [List.take_left' atFront, taken, List.map_append, ← List.append_assoc, List.append_assoc]
    exact List.prefix_append _ _
  · cases copied

/-- A cell written behind what is written. -/
theorem front_store {value : α} (front : written.map some <+: block)
    (atEnd : position = written.length) (stored : store block position value = some result) :
    (written ++ [value]).map some <+: result := by
  obtain ⟨rest, rfl⟩ := front
  subst atEnd
  unfold store at stored
  split at stored
  · next inside =>
    obtain rfl := Option.some.inj stored
    rw [List.length_append, List.length_map] at inside
    cases rest with
    | nil =>
      rw [List.length_nil] at inside
      omega
    | cons cell rest =>
      refine ⟨rest, ?_⟩
      rw [List.set_append_right _ _ (Nat.le_of_eq (List.length_map some)), List.length_map,
        Nat.sub_self, List.set_cons_zero, List.map_append, List.append_assoc]
      rfl
  · cases stored

/-- A text that begins a block and ends with the stop symbol. -/
theorem readUntil_eq_some_iff [DecidableEq α] {stop : α} :
    readUntil stop block = some text ↔ stop ∉ text ∧ (text ++ [stop]).map some <+: block := by
  induction block generalizing text with
  | nil => simp [readUntil]
  | cons cell rest ih =>
    cases cell with
    | none =>
      cases text <;> simp [readUntil]
    | some value =>
      rw [readUntil]
      by_cases stops : value = stop
      · rw [if_pos stops, stops]
        cases text with
        | nil => simp
        | cons first text =>
          constructor
          · intro same
            cases same
          · rintro ⟨absent, front⟩
            have same : first = stop := by
              simpa using (List.cons_prefix_cons.mp front).1
            exact absurd (same ▸ List.mem_cons_self) absent
      · cases text with
        | nil => simp [stops, Ne.symm stops]
        | cons first text =>
          rw [if_neg stops, Option.map_eq_some_iff]
          constructor
          · rintro ⟨_, read, same⟩
            obtain ⟨rfl, rfl⟩ := List.cons.inj same
            obtain ⟨absent, front⟩ := ih.mp read
            exact ⟨by simp [Ne.symm stops, absent], by simpa using front⟩
          · rintro ⟨absent, front⟩
            have same : first = value := by
              simpa using (List.cons_prefix_cons.mp front).1
            subst same
            exact ⟨text, ih.mpr ⟨fun member => absent (List.mem_cons_of_mem _ member),
              (List.cons_prefix_cons.mp front).2⟩, rfl⟩

/-- A written cell is read. -/
theorem getElem?_of_front (front : written.map some <+: block)
    (inside : position < written.length) :
    block[position]?.join = written[position]? := by
  obtain ⟨rest, rfl⟩ := front
  rw [List.getElem?_append_left (by rw [List.length_map]; exact inside), List.getElem?_map,
    List.getElem?_eq_getElem inside]
  rfl

end Fronts

end FreshMemory

end Fbbs
