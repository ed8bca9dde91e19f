import Mathlib.Algebra.Group.Nat.Defs
import Fbbs.BlockElements
import Fbbs.FreshMemory
import Fbbs.TransitionRuns

/-!
# Growing vectors

`vector_t` of `src/lib/vector.c`: elements of one length in a block that is doubled.  All numbers
have 32 bits, the products of lengths and positions too.  Erasing moves one element more than
there are behind the range, so the block must have room for one element more than the vector has.
-/

namespace Fbbs

open FreshMemory (Memory malloc)

/-- `vector_t`; the data are `none` for a null pointer. -/
structure VectorT where
  len : UInt32
  size : UInt32
  capacity : UInt32
  data : Option (Memory UInt8)
  deriving DecidableEq

/-- The arguments of a `memmove` inside of the data, in bytes. -/
structure ByteMove where
  dest : Nat
  src : Nat
  count : Nat

namespace ByteMove

def Touches (move : ByteMove) (byte : Nat) : Prop :=
  (move.src ≤ byte ∧ byte < move.src + move.count) ∨
    (move.dest ≤ byte ∧ byte < move.dest + move.count)

end ByteMove

namespace VectorT

def vectorDefaultCapacity : UInt32 := 8

/-- The loop of `grow_capacity`. -/
def growLoop (capacity : UInt32) : Nat → UInt32 → Option UInt32
  | 0, _ => none
  | fuel + 1, val => if val < capacity then growLoop capacity fuel (val * 2) else some val

/-- `none` if the loop does not end: after 29 doublings the number is zero. -/
def growCapacity (capacity : UInt32) : Option UInt32 :=
  growLoop capacity 30 vectorDefaultCapacity

/-- `realloc`, which may find no memory; new cells are unwritten. -/
def realloc (data : Option (Memory UInt8)) (bytes : Nat) (granted : Bool) :
    Option (Memory UInt8) :=
  if granted then
    some ((data.getD []).take bytes ++ malloc (bytes - (data.getD []).length))
  else none

def vectorReserve (v : VectorT) (capacity : UInt32) (granted : Bool) : Option (Bool × VectorT) :=
  if v.capacity < capacity then
    (growCapacity capacity).map fun capacity =>
      let data := realloc v.data (v.len * capacity).toNat granted
      (data.isSome, { v with capacity := capacity, data := data })
  else some (true, v)

def blank (len : UInt32) : VectorT :=
  ⟨len, 0, 0, none⟩

def vectorInit (len capacity : UInt32) (granted : Bool) : Option (Bool × VectorT) :=
  (blank len).vectorReserve capacity granted

/-- The place of an element in the data. -/
def vectorAt (v : VectorT) (position : UInt32) : Option Nat :=
  if v.data.isSome ∧ position < v.size then some (v.len * position).toNat else none

/-- The place of the new elements in the data, `none` for a null pointer. -/
def vectorGrow (v : VectorT) (size : UInt32) (granted : Bool) : Option (Option Nat × VectorT) :=
  (vectorReserve { v with size := v.size + size } (v.size + size) granted).map fun (enough, v) =>
    (if enough = true ∧ size ≤ v.size then some (v.len * (v.size - size)).toNat else none, v)

/-- The result is `none` if the move leaves the block. -/
def memmove (data : Option (Memory UInt8)) (move : ByteMove) : Option (Memory UInt8) :=
  data.bind fun block =>
    if move.src + move.count ≤ block.length ∧ move.dest + move.count ≤ block.length then
      some (BlockElements.move block move.dest move.src move.count)
    else none

def eraseMove (v : VectorT) (first last : UInt32) : ByteMove where
  dest := (first * v.len).toNat
  src := (last * v.len).toNat
  count := (v.len * (v.size - last + 1)).toNat

def vectorEraseRange (v : VectorT) (first last : UInt32) : Option (Bool × VectorT) :=
  if first < last ∧ first < v.size then
    if last ≤ v.size then
      (memmove v.data (v.eraseMove first last)).map fun block =>
        (true, { v with data := some block, size := v.size - (last - first) })
    else some (true, { v with size := first })
  else some (false, v)

def vectorErase (v : VectorT) (position : UInt32) : Option (Bool × VectorT) :=
  v.vectorEraseRange position (position + 1)

/-- A call that changes a vector, with what `realloc` answers. -/
inductive Call
  | reserve (capacity : UInt32) (granted : Bool)
  | grow (size : UInt32) (granted : Bool)
  | erase (position : UInt32)
  | eraseRange (first last : UInt32)

def step (v : VectorT) : Call → Option VectorT
  | .reserve capacity granted => (v.vectorReserve capacity granted).map Prod.snd
  | .grow size granted => (v.vectorGrow size granted).map Prod.snd
  | .erase position => (v.vectorErase position).map Prod.snd
  | .eraseRange first last => (v.vectorEraseRange first last).map Prod.snd

/-- The vector after `vector_init` and some calls. -/
def reached (len capacity : UInt32) (granted : Bool) (calls : List Call) : Option VectorT :=
  (vectorInit len capacity granted).bind fun started => TransitionRuns.run step calls started.2

/-- The elements are in the data. -/
def Holds (v : VectorT) : Prop :=
  v.size.toNat * v.len.toNat ≤ (v.data.getD []).length

instance (v : VectorT) : Decidable v.Holds :=
  inferInstanceAs (Decidable (_ ≤ _))

def elements (v : VectorT) : Option (List (Memory UInt8)) :=
  if v.Holds then
    some (BlockElements.elements v.len.toNat v.size.toNat (v.data.getD []))
  else none

/-- The number of elements of a range. -/
def erased (v : VectorT) (first last : UInt32) : Nat :=
  min last.toNat v.size.toNat - min first.toNat v.size.toNat

/-- The elements outside of the range are left in order, the size is reduced by the number of the
others, and no element is touched from the capacity on. -/
def Erases (v : VectorT) (first last : UInt32) : Prop :=
  ∃ elements result after, v.elements = some elements ∧
    v.vectorEraseRange first last = some (result, after) ∧
    after.elements = some (elements.take first.toNat ++ elements.drop last.toNat) ∧
    after.size.toNat = v.size.toNat - v.erased first last ∧
    (first < v.size → last ≤ v.size →
      ∀ byte, (v.eraseMove first last).Touches byte → byte / v.len.toNat < v.capacity.toNat)

/-- There is room for one element more than the vector has. -/
def Spares (v : VectorT) : Prop :=
  v.data.isSome ∧ (v.size.toNat + 1) * v.len.toNat ≤ (v.data.getD []).length

instance (v : VectorT) : Decidable v.Spares :=
  inferInstanceAs (Decidable (_ ∧ _))

/-- The elements are there, and there is room for one more if the range ends inside of them. -/
def Fits (v : VectorT) (first last : UInt32) : Prop :=
  v.Holds ∧ (first < v.size → last ≤ v.size → v.Spares)

instance (v : VectorT) (first last : UInt32) : Decidable (v.Fits first last) :=
  inferInstanceAs (Decidable (_ ∧ (_ → _ → _)))

/-- What is true of every vector that is reached. -/
structure Sized (v : VectorT) : Prop where
  size_le : v.size ≤ v.capacity
  length_data : ∀ block, v.data = some block → block.length = (v.len * v.capacity).toNat

theorem growLoop_ge {capacity val grown : UInt32} {fuel : Nat}
    (found : growLoop capacity fuel val = some grown) : capacity ≤ grown := by
  induction fuel generalizing val with
  | zero => cases found
  | succ fuel ih =>
    rw [growLoop] at found
    split at found
    next => exact ih found
    next large =>
      rw [Option.some.injEq] at found
      exact found ▸ UInt32.not_lt.mp large

theorem length_realloc {data : Option (Memory UInt8)} {bytes : Nat} {granted : Bool}
    {block : Memory UInt8} (moved : realloc data bytes granted = some block) :
    block.length = bytes := by
  unfold realloc at moved
  split at moved
  next =>
    rw [Option.some.injEq] at moved
    rw [← moved, List.length_append, List.length_take, malloc, List.length_replicate]
    omega
  next => cases moved

theorem vectorReserve_cases {v after : VectorT} {capacity : UInt32} {granted result : Bool}
    (reserved : v.vectorReserve capacity granted = some (result, after)) :
    (capacity ≤ v.capacity ∧ result = true ∧ after = v) ∨
      ∃ grown, v.capacity < capacity ∧ growCapacity capacity = some grown ∧
        result = (realloc v.data (v.len * grown).toNat granted).isSome ∧
        after = { v with capacity := grown,
                         data := realloc v.data (v.len * grown).toNat granted } := by
  unfold vectorReserve at reserved
  split at reserved
  next more =>
    obtain ⟨grown, grownEq, same⟩ := Option.map_eq_some_iff.mp reserved
    obtain ⟨rfl, rfl⟩ := Prod.mk.inj same
    exact Or.inr ⟨grown, more, grownEq, rfl, rfl⟩
  next enough =>
    rw [Option.some.injEq] at reserved
    obtain ⟨rfl, rfl⟩ := Prod.mk.inj reserved
    exact Or.inl ⟨UInt32.not_lt.mp enough, rfl, rfl⟩

theorem vectorGrow_cases {v after : VectorT} {size : UInt32} {granted : Bool} {place : Option Nat}
    (grown : v.vectorGrow size granted = some (place, after)) :
    ∃ enough, vectorReserve { v with size := v.size + size } (v.size + size) granted =
        some (enough, after) ∧
      place = if enough = true ∧ size ≤ after.size then
        some (after.len * (after.size - size)).toNat else none := by
  obtain ⟨⟨enough, reserved⟩, reservedEq, same⟩ := Option.map_eq_some_iff.mp grown
  obtain ⟨rfl, rfl⟩ := Prod.mk.inj same
  exact ⟨enough, reservedEq, rfl⟩

theorem vectorEraseRange_cases {v after : VectorT} {first last : UInt32} {result : Bool}
    (erased : v.vectorEraseRange first last = some (result, after)) :
    (¬(first < last ∧ first < v.size) ∧ result = false ∧ after = v) ∨
      (first < last ∧ first < v.size ∧ result = true ∧
        ((v.size < last ∧ after = { v with size := first }) ∨
          last ≤ v.size ∧ ∃ block, memmove v.data (v.eraseMove first last) = some block ∧
            after = { v with data := some block, size := v.size - (last - first) })) := by
  unfold vectorEraseRange at erased
  split at erased
  next inside =>
    refine Or.inr ⟨inside.1, inside.2, ?_⟩
    split at erased
    next within =>
      obtain ⟨block, blockEq, same⟩ := Option.map_eq_some_iff.mp erased
      obtain ⟨rfl, rfl⟩ := Prod.mk.inj same
      exact ⟨rfl, Or.inr ⟨within, block, blockEq, rfl⟩⟩
    next beyond =>
      rw [Option.some.injEq] at erased
      obtain ⟨rfl, rfl⟩ := Prod.mk.inj erased
      exact ⟨rfl, Or.inl ⟨UInt32.not_le.mp beyond, rfl⟩⟩
  next outside =>
    rw [Option.some.injEq] at erased
    obtain ⟨rfl, rfl⟩ := Prod.mk.inj erased
    exact Or.inl ⟨outside, rfl, rfl⟩

theorem memmove_cases {data : Option (Memory UInt8)} {move : ByteMove} {block : Memory UInt8}
    (moved : memmove data move = some block) :
    ∃ before, data = some before ∧ move.src + move.count ≤ before.length ∧
      move.dest + move.count ≤ before.length ∧
      block = BlockElements.move before move.dest move.src move.count := by
  obtain ⟨before, dataEq, inside⟩ := Option.bind_eq_some_iff.mp moved
  split at inside
  next bounds =>
    rw [Option.some.injEq] at inside
    exact ⟨before, dataEq, bounds.1, bounds.2, inside.symm⟩
  next => cases inside

theorem sized_blank (len : UInt32) : (blank len).Sized where
  size_le := UInt32.le_refl 0
  length_data := by
    rintro block absent
    cases absent

theorem sized_vectorReserve {v after : VectorT} {capacity : UInt32} {granted result : Bool}
    (reserved : v.vectorReserve capacity granted = some (result, after))
    (length_data : ∀ block, v.data = some block → block.length = (v.len * v.capacity).toNat)
    (size_le : v.size ≤ capacity ∨ v.size ≤ v.capacity) : after.Sized := by
  obtain ⟨enough, -, rfl⟩ | ⟨grown, more, grownEq, -, rfl⟩ := vectorReserve_cases reserved
  · refine ⟨?_, length_data⟩
    obtain below | below := size_le
    · exact UInt32.le_trans below enough
    · exact below
  · have reach : capacity ≤ grown := growLoop_ge grownEq
    refine ⟨?_, fun block found => length_realloc found⟩
    obtain below | below := size_le
    · exact UInt32.le_trans below reach
    · exact UInt32.le_trans below (UInt32.le_trans (UInt32.le_of_lt more) reach)

/-- The size after a range inside of the elements is erased. -/
theorem toNat_size_sub (v : VectorT) {first last : UInt32} (ordered : first < last)
    (within : last ≤ v.size) :
    (v.size - (last - first)).toNat = first.toNat + (v.size.toNat - last.toNat) := by
  rw [UInt32.le_iff_toNat_le] at within
  rw [UInt32.lt_iff_toNat_lt] at ordered
  have width : (last - first).toNat = last.toNat - first.toNat :=
    UInt32.toNat_sub_of_le _ _ (UInt32.le_iff_toNat_le.mpr (Nat.le_of_lt ordered))
  have less : last - first ≤ v.size := by
    rw [UInt32.le_iff_toNat_le, width]
    omega
  rw [UInt32.toNat_sub_of_le _ _ less, width]
  omega

theorem sized_vectorEraseRange {v after : VectorT} {first last : UInt32} {result : Bool}
    (sized : v.Sized) (erased : v.vectorEraseRange first last = some (result, after)) :
    after.Sized := by
  obtain ⟨-, -, rfl⟩ | ⟨ordered, inside, -, cases⟩ := vectorEraseRange_cases erased
  · exact sized
  obtain ⟨-, rfl⟩ | ⟨within, block, moved, rfl⟩ := cases
  · exact ⟨UInt32.le_trans (UInt32.le_of_lt inside) sized.size_le, sized.length_data⟩
  · obtain ⟨before, dataEq, source, target, rfl⟩ := memmove_cases moved
    constructor
    · have smaller := sized.size_le
      rw [UInt32.le_iff_toNat_le] at smaller ⊢
      rw [toNat_size_sub v ordered within]
      rw [UInt32.le_iff_toNat_le] at within
      rw [UInt32.lt_iff_toNat_lt] at ordered
      change _ ≤ v.capacity.toNat
      omega
    · intro block found
      rw [Option.some.injEq] at found
      rw [← found, BlockElements.length_move source target]
      exact sized.length_data before dataEq

theorem sized_step {v after : VectorT} {call : Call} (sized : v.Sized)
    (stepped : step v call = some after) : after.Sized := by
  cases call with
  | reserve capacity granted =>
    obtain ⟨⟨result, next⟩, reserved, rfl⟩ := Option.map_eq_some_iff.mp stepped
    exact sized_vectorReserve reserved sized.length_data (Or.inr sized.size_le)
  | grow size granted =>
    obtain ⟨⟨place, next⟩, grown, rfl⟩ := Option.map_eq_some_iff.mp stepped
    obtain ⟨enough, reserved, -⟩ := vectorGrow_cases grown
    exact sized_vectorReserve reserved sized.length_data (Or.inl (UInt32.le_refl _))
  | erase position =>
    obtain ⟨⟨result, next⟩, erased, rfl⟩ := Option.map_eq_some_iff.mp stepped
    exact sized_vectorEraseRange sized erased
  | eraseRange first last =>
    obtain ⟨⟨result, next⟩, erased, rfl⟩ := Option.map_eq_some_iff.mp stepped
    exact sized_vectorEraseRange sized erased

theorem sized_reached {len capacity : UInt32} {granted : Bool} {calls : List Call} {v : VectorT}
    (ran : reached len capacity granted calls = some v) : v.Sized := by
  obtain ⟨⟨result, started⟩, initialised, runs⟩ := Option.bind_eq_some_iff.mp ran
  have initial : started.Sized :=
    sized_vectorReserve initialised (sized_blank len).length_data (Or.inr (sized_blank len).size_le)
  have always : TransitionRuns.Guarded step (fun _ _ => True) calls started :=
    TransitionRuns.guarded_of_forall (fun _ _ => trivial) started
  exact TransitionRuns.invariant_of_guarded Sized
    (fun _ _ _ sized _ stepped => sized_step sized stepped) initial always runs

theorem toNat_mul_of_lt {a b : UInt32} (small : a.toNat * b.toNat < 2 ^ 32) :
    (a * b).toNat = a.toNat * b.toNat := by
  rw [UInt32.toNat_mul, Nat.mod_eq_of_lt small]

/-- A move reads up to the element behind the last one. -/
theorem move_end {v : VectorT} {last : UInt32} (within : last ≤ v.size) :
    last.toNat * v.len.toNat + (v.size.toNat - last.toNat + 1) * v.len.toNat =
      (v.size.toNat + 1) * v.len.toNat := by
  rw [UInt32.le_iff_toNat_le] at within
  rw [← Nat.add_mul]
  congr 1
  omega

theorem elements_eq {v : VectorT} (holds : v.Holds) :
    v.elements =
      some (BlockElements.elements v.len.toNat v.size.toNat (v.data.getD [])) :=
  if_pos holds

theorem holds_of_elements {v : VectorT} {elements : List (Memory UInt8)}
    (found : v.elements = some elements) : v.Holds := by
  by_contra lacks
  rw [VectorT.elements, if_neg lacks] at found
  cases found

namespace Sized

variable {v : VectorT} (sized : v.Sized)
include sized

theorem length_lt : (v.data.getD []).length < 2 ^ 32 := by
  cases dataEq : v.data with
  | none => decide
  | some block =>
    rw [Option.getD_some, sized.length_data block dataEq]
    exact UInt32.toNat_lt _

theorem length_le : (v.data.getD []).length ≤ v.capacity.toNat * v.len.toNat := by
  cases dataEq : v.data with
  | none => exact Nat.zero_le _
  | some block =>
    rw [Option.getD_some, sized.length_data block dataEq, UInt32.toNat_mul, Nat.mul_comm]
    exact Nat.mod_le _ _

section Move

variable (holds : v.Holds) {first last : UInt32} (ordered : first < last) (within : last ≤ v.size)
include holds ordered within

/-- No product of a move wraps if the elements are in the data. -/
theorem eraseMove_eq :
    v.eraseMove first last = ⟨first.toNat * v.len.toNat, last.toNat * v.len.toNat,
      (v.size.toNat - last.toNat + 1) * v.len.toNat⟩ := by
  have small : v.size.toNat * v.len.toNat < 2 ^ 32 := Nat.lt_of_le_of_lt holds sized.length_lt
  rw [UInt32.lt_iff_toNat_lt] at ordered
  have behind : (v.size - last + 1).toNat = v.size.toNat - last.toNat + 1 := by
    have bound := UInt32.toNat_lt v.size
    have rest : (v.size - last).toNat = v.size.toNat - last.toNat :=
      UInt32.toNat_sub_of_le _ _ within
    rw [UInt32.toNat_add, rest, UInt32.toNat_one]
    omega
  rw [UInt32.le_iff_toNat_le] at within
  have below : ∀ a : Nat, a ≤ v.size.toNat → a * v.len.toNat < 2 ^ 32 := fun a le =>
    Nat.lt_of_le_of_lt (Nat.mul_le_mul_right _ le) small
  have count : (v.len * (v.size - last + 1)).toNat =
      (v.size.toNat - last.toNat + 1) * v.len.toNat := by
    rw [UInt32.mul_comm, toNat_mul_of_lt (by rw [behind]; exact below _ (by omega)), behind]
  rw [eraseMove, toNat_mul_of_lt (below _ (by omega)), toNat_mul_of_lt (below _ within), count]

end Move

variable {first last : UInt32}

/-- A range inside of the elements is erased if there is room for one more. -/
theorem vectorEraseRange_inside (ordered : first < last) (within : last ≤ v.size)
    (spares : v.Spares) :
    ∃ block after, v.data = some block ∧ v.vectorEraseRange first last = some (true, after) ∧
      after.size = v.size - (last - first) ∧
      after.elements =
        some (BlockElements.elements v.len.toNat (first.toNat + (v.size.toNat - last.toNat))
          (BlockElements.move block (first.toNat * v.len.toNat) (last.toNat * v.len.toNat)
            ((v.size.toNat - last.toNat + 1) * v.len.toNat))) := by
  obtain ⟨present, room⟩ := spares
  obtain ⟨block, dataEq⟩ := Option.isSome_iff_exists.mp present
  rw [dataEq, Option.getD_some] at room
  have holds : v.Holds := by
    rw [Holds, dataEq, Option.getD_some]
    exact Nat.le_trans (Nat.mul_le_mul_right _ (Nat.le_succ _)) room
  have inside : first < v.size := UInt32.lt_of_lt_of_le ordered within
  have source := Nat.le_trans (Nat.le_of_eq (move_end within)) room
  have front : first.toNat * v.len.toNat ≤ last.toNat * v.len.toNat :=
    Nat.mul_le_mul_right _ (Nat.le_of_lt (UInt32.lt_iff_toNat_lt.mp ordered))
  have target : first.toNat * v.len.toNat + (v.size.toNat - last.toNat + 1) * v.len.toNat ≤
      block.length := by omega
  have moved := sized.eraseMove_eq holds ordered within
  refine ⟨block, { v with
    data := some (BlockElements.move block (first.toNat * v.len.toNat)
      (last.toNat * v.len.toNat) ((v.size.toNat - last.toNat + 1) * v.len.toNat))
    size := v.size - (last - first) }, dataEq, ?_, rfl, ?_⟩
  · rw [vectorEraseRange, if_pos ⟨ordered, inside⟩, if_pos within, moved, memmove, dataEq,
      Option.bind_some, if_pos ⟨source, target⟩, Option.map_some]
  · rw [elements_eq, toNat_size_sub v ordered within, Option.getD_some]
    rw [Holds, toNat_size_sub v ordered within, Option.getD_some,
      BlockElements.length_move source target]
    rw [Holds, dataEq, Option.getD_some] at holds
    have fewer : first.toNat + (v.size.toNat - last.toNat) ≤ v.size.toNat := by
      rw [UInt32.le_iff_toNat_le] at within
      rw [UInt32.lt_iff_toNat_lt] at ordered
      omega
    exact Nat.le_trans (Nat.mul_le_mul_right _ fewer) holds

theorem erases_of_fits (ordered : first < last) (fits : v.Fits first last) :
    v.Erases first last := by
  obtain ⟨holds, spares⟩ := fits
  have orderedNat := UInt32.lt_iff_toNat_lt.mp ordered
  by_cases inside : first < v.size
  · by_cases within : last ≤ v.size
    · have room := spares inside within
      obtain ⟨block, after, dataEq, erased, size, afterElements⟩ :=
        sized.vectorEraseRange_inside ordered within room
      have withinNat := UInt32.le_iff_toNat_le.mp within
      rw [Spares, dataEq, Option.getD_some] at room
      refine ⟨_, true, after, elements_eq holds, erased, ?_, ?_, fun _ _ byte touched => ?_⟩
      · rw [afterElements, dataEq, Option.getD_some, BlockElements.elements_move
          (Nat.le_of_lt orderedNat) withinNat (Nat.mul_le_mul_right _ (Nat.le_succ _))
          (Nat.le_trans (Nat.le_of_eq (move_end within)) room.2)]
      · rw [size, toNat_size_sub v ordered within, VectorT.erased]
        omega
      · have length := sized.length_le
        have front : first.toNat * v.len.toNat ≤ last.toNat * v.len.toNat :=
          Nat.mul_le_mul_right _ (Nat.le_of_lt orderedNat)
        have ends := move_end within
        rw [dataEq, Option.getD_some] at length
        rw [sized.eraseMove_eq holds ordered within] at touched
        have reach : byte < (v.size.toNat + 1) * v.len.toNat := by
          obtain ⟨-, read⟩ | ⟨-, written⟩ := touched
          · exact ends ▸ read
          · change byte < first.toNat * v.len.toNat +
              (v.size.toNat - last.toNat + 1) * v.len.toNat at written
            omega
        apply Nat.div_lt_of_lt_mul
        rw [Nat.mul_comm]
        exact Nat.lt_of_lt_of_le reach (Nat.le_trans room.2 length)
    · have beyond := UInt32.lt_iff_toNat_lt.mp (UInt32.not_le.mp within)
      have insideNat := UInt32.lt_iff_toNat_lt.mp inside
      have shorter : Holds { v with size := first } :=
        Nat.le_trans (Nat.mul_le_mul_right _ (Nat.le_of_lt insideNat)) holds
      refine ⟨_, true, { v with size := first }, elements_eq holds, ?_, ?_, ?_,
        fun _ within' => absurd within' within⟩
      · rw [vectorEraseRange, if_pos ⟨ordered, inside⟩, if_neg within]
      · rw [elements_eq shorter, BlockElements.elements_take _ (Nat.le_of_lt insideNat),
          List.drop_eq_nil_of_le (by rw [BlockElements.length_elements]; omega), List.append_nil]
      · change first.toNat = v.size.toNat - v.erased first last
        rw [VectorT.erased]
        omega
  · have behind := UInt32.le_iff_toNat_le.mp (UInt32.not_lt.mp inside)
    refine ⟨_, false, v, elements_eq holds, ?_, ?_, ?_, fun inside' => absurd inside' inside⟩
    · rw [vectorEraseRange, if_neg (fun both => inside both.2)]
    · rw [elements_eq holds, List.take_of_length_le (by rw [BlockElements.length_elements]; omega),
        List.drop_eq_nil_of_le (by rw [BlockElements.length_elements]; omega), List.append_nil]
    · rw [VectorT.erased]
      omega

theorem fits_of_erases (ordered : first < last) (erases : v.Erases first last) :
    v.Fits first last := by
  obtain ⟨elements, result, after, found, erased, -⟩ := erases
  have holds := holds_of_elements found
  refine ⟨holds, fun inside within => ?_⟩
  obtain ⟨outside, -⟩ | ⟨-, -, -, ⟨beyond, -⟩ | ⟨-, block, moved, -⟩⟩ :=
    vectorEraseRange_cases erased
  · exact absurd ⟨ordered, inside⟩ outside
  · exact absurd within (UInt32.not_le.mpr beyond)
  · obtain ⟨before, dataEq, source, -⟩ := memmove_cases moved
    rw [sized.eraseMove_eq holds ordered within] at source
    rw [Spares, dataEq, Option.getD_some, ← move_end within]
    exact ⟨rfl, source⟩

end Sized

/-- A vector that is reached is erased as it should be exactly if its elements are there and there
is room for one more where the range ends inside of them. -/
theorem erases_iff {len capacity : UInt32} {granted : Bool} {calls : List Call} {v : VectorT}
    (ran : reached len capacity granted calls = some v) {first last : UInt32}
    (ordered : first < last) : v.Erases first last ↔ v.Fits first last :=
  ⟨(sized_reached ran).fits_of_erases ordered, (sized_reached ran).erases_of_fits ordered⟩

/-- A page of some elements. -/
def page (size : UInt32) : VectorT :=
  ⟨4, size, 8, some (malloc 32)⟩

theorem page_erases : (page 7).Erases 1 3 :=
  (@erases_iff 4 0 true [.grow 7 true] (page 7) rfl 1 3 (by decide)).mpr (by decide)

/-- A page that fills the block. -/
theorem fullPage_not_erases :
    reached 4 0 true [.grow 8 true] = some (page 8) ∧ ¬(page 8).Erases 0 1 := by
  have leaves : (page 8).vectorEraseRange 0 1 = none := by decide
  refine ⟨by decide, ?_⟩
  rintro ⟨elements, result, after, -, erased, -⟩
  rw [leaves] at erased
  cases erased

end VectorT

end Fbbs
