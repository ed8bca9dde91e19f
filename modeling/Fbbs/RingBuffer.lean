import Fbbs.FreshMemory
import Mathlib.Data.List.Range
import Mathlib.Algebra.Group.Nat.Defs

/-!
# Ring buffers

Items are written to a block of memory in turn, and after the last place the first one follows.
The block then holds the last items, as many as it has places.
-/

namespace Fbbs

namespace RingBuffer

open FreshMemory

variable {α : Type*}

/-- The item with an index goes to its place. -/
def put (ring : Memory α) (index : Nat) (item : α) : Memory α :=
  ring.set (index % ring.length) (some item)

/-- Items are read by their indexes; an unwritten place gives `none`. -/
def read (ring : Memory α) (start count : Nat) : Option (List α) :=
  (List.range' start count).mapM fun index => ring[index % ring.length]?.join

/-- Of some items, the ring holds the last. -/
def Holds (ring : Memory α) (items : List α) : Prop :=
  ∀ index item, items[index]? = some item → items.length ≤ index + ring.length →
    ring[index % ring.length]? = some (some item)

theorem holds_nil (ring : Memory α) : Holds ring [] :=
  fun _ _ none => nomatch none

theorem length_put (ring : Memory α) (index : Nat) (item : α) :
    (put ring index item).length = ring.length :=
  List.length_set

/-- Between two items of one place there are as many as the ring has places. -/
theorem mod_ne_mod {index later size : Nat} (before : index < later)
    (near : later < index + size) : later % size ≠ index % size := by
  intro same
  have turn : (later - index) % size = 0 := Nat.sub_mod_eq_zero_of_mod_eq same
  rw [Nat.mod_eq_of_lt (by omega)] at turn
  omega

theorem Holds.put {ring : Memory α} {items : List α} (holds : Holds ring items)
    (nonempty : 0 < ring.length) (item : α) :
    Holds (put ring items.length item) (items ++ [item]) := by
  intro index other found near
  rw [length_put] at near ⊢
  rw [List.length_append, List.length_singleton] at near
  rw [RingBuffer.put, List.getElem?_set]
  rcases Nat.lt_or_ge index items.length with old | new
  · rw [List.getElem?_append_left old] at found
    rw [if_neg (mod_ne_mod old (by omega))]
    exact holds index other found (by omega)
  · rw [List.getElem?_append_right new] at found
    rw [List.getElem?_singleton] at found
    split at found
    · have last : items.length = index := by omega
      obtain rfl := Option.some.inj found
      rw [if_pos (congrArg (· % ring.length) last), if_pos (Nat.mod_lt _ nonempty)]
    · cases found

/-- The last items can be read. -/
theorem Holds.read {ring : Memory α} {items : List α} (holds : Holds ring items) (start : Nat)
    (recent : items.length ≤ start + ring.length) :
    read ring start (items.length - start) = some (items.drop start) := by
  generalize rest : items.length - start = count
  induction count generalizing start with
  | zero =>
    rw [List.drop_eq_nil_of_le (by omega)]
    rfl
  | succ count ih =>
    have inside : start < items.length := by omega
    have here := holds start items[start] (List.getElem?_eq_getElem inside) recent
    have behind := ih (start + 1) (by omega) (by omega)
    rw [RingBuffer.read] at behind ⊢
    rw [List.range'_succ, List.mapM_cons, here, behind, List.drop_eq_getElem_cons inside]
    rfl

end RingBuffer

end Fbbs
