import Fbbs.LinkedChains
import Fbbs.Parcel
import Fbbs.TransitionRuns

/-!
# The hash table

`lib/hash.c`: an array of chains of entries, a list of entries that have been
deleted, whose links share the field of the chains, and an array of twice the
size whenever there are more entries than slots.  Memory is a function from
addresses to entries; the null pointer is zero.
-/

namespace Fbbs

namespace Hash

open LinkedChains

/-- A key as it is passed: with its length, or as a string with
`HASH_KEY_STRING`, the greatest unsigned integer. -/
inductive Key
  | string (str : CString)
  | sized (bytes : Bytes) (fits : bytes.length < 2 ^ 32 - 1)

def Key.bytes : Key → Bytes
  | .string str => str.bytes
  | .sized bytes _ => bytes

/-- `hash_func_t`: the hash value of a key, and its length. -/
structure HashFunc where
  call : Key → UInt32 × UInt32
  length_eq : ∀ key, (call key).2 = UInt32.ofNat key.bytes.length
  value_eq : ∀ key other, key.bytes = other.bytes → (call key).1 = (call other).1

/-- A step of the loops in `hash_func_default`; characters are signed. -/
def hashStep (value : UInt32) (c : UInt8) : UInt32 :=
  value + (value * 33 + c.toInt8.toInt32.toUInt32)

/-- The loop of `hash_func_default` for keys with a length. -/
def hashSized : Nat → Bytes → UInt32 → UInt32
  | 0, _, value => value
  | _ + 1, [], value => value
  | len + 1, c :: key, value => hashSized len key (hashStep value c)

def hashFuncDefaultCall : Key → UInt32 × UInt32
  | .string str => (str.bytes.foldl hashStep 0, UInt32.ofNat str.bytes.length)
  | .sized bytes _ => (hashSized bytes.length bytes 0, UInt32.ofNat bytes.length)

theorem hashSized_length (bytes : Bytes) (value : UInt32) :
    hashSized bytes.length bytes value = bytes.foldl hashStep value := by
  induction bytes generalizing value with
  | nil => rfl
  | cons c bytes ih => exact ih (hashStep value c)

/-- The two loops hash equal keys alike. -/
theorem hashFuncDefaultCall_eq (key : Key) :
    hashFuncDefaultCall key =
      (key.bytes.foldl hashStep 0, UInt32.ofNat key.bytes.length) := by
  cases key with
  | string str => rfl
  | sized bytes fits => rw [hashFuncDefaultCall, hashSized_length, Key.bytes]

def hashFuncDefault : HashFunc where
  call := hashFuncDefaultCall
  length_eq key := by rw [hashFuncDefaultCall_eq]
  value_eq key other same := by rw [hashFuncDefaultCall_eq, hashFuncDefaultCall_eq, same]

/-- `hash_entry_t`. -/
structure Entry (Value : Type) where
  next : Nat
  key : Bytes
  klen : UInt32
  hash : UInt32
  val : Value

/-- `hash_t` with the memory; `slots` is the size of the array, and `fresh` the
first address that has not been allocated. -/
structure Table (Value : Type) where
  count : UInt32
  max : UInt32
  slots : Nat
  array : Nat → Nat
  free : Nat
  heap : Nat → Entry Value
  fresh : Nat

/-- A place that holds a pointer to an entry. -/
inductive Place
  | slot (i : Nat)
  | next (node : Nat)
  deriving DecidableEq

/-- `HASH_DEFAULT_MAX`. -/
def hashDefaultMax : UInt32 := 15

section Functions

variable {Value : Type} (func : HashFunc)

/-- `hash_create` in some memory. -/
def hashCreate (max : UInt32) (heap : Nat → Entry Value) : Table Value :=
  let max := if max = 0 then hashDefaultMax else max
  { count := 0
    max := max
    slots := (max + 1).toNat
    array := fun _ => 0
    free := 0
    heap := heap
    fresh := 1 }

def Table.link (ht : Table Value) (node : Nat) : Nat :=
  (ht.heap node).next

def Table.setEntry (ht : Table Value) (node : Nat) (entry : Entry Value) : Table Value :=
  { ht with heap := Function.update ht.heap node entry }

/-- `node->next = target`. -/
def Table.setLink (ht : Table Value) (node target : Nat) : Table Value :=
  ht.setEntry node { ht.heap node with next := target }

def Table.read (ht : Table Value) : Place → Nat
  | .slot i => ht.array i
  | .next node => ht.link node

def Table.write (ht : Table Value) (target : Nat) : Place → Table Value
  | .slot i => { ht with array := Function.update ht.array i target }
  | .next node => ht.setLink node target

/-- The test of an entry in `find_entry`. -/
def Entry.hasKey (entry : Entry Value) (hash klen : UInt32) (key : Bytes) : Bool :=
  entry.klen == klen && entry.hash == hash &&
    entry.key.take klen.toNat == key.take klen.toNat

/-- The loop of `find_entry`; a chain that is longer than the memory is a cycle. -/
def Table.findLoop (ht : Table Value) (hash klen : UInt32) (key : Bytes) :
    Nat → Place → Option Place
  | 0, _ => none
  | fuel + 1, ptr =>
    let entry := ht.read ptr
    if entry = 0 ∨ (ht.heap entry).hasKey hash klen key then some ptr
    else ht.findLoop hash klen key fuel (.next entry)

/-- The first part of `find_entry`; `none` behind the end of the array. -/
def Table.find (ht : Table Value) (key : Key) : Option Place :=
  let (hash, klen) := func.call key
  let slot := (hash &&& ht.max).toNat
  if slot < ht.slots then ht.findLoop hash klen key.bytes (ht.fresh + 1) (.slot slot)
  else none

/-- An entry from the list of deleted ones, or a new one. -/
def Table.alloc (ht : Table Value) : Nat × Table Value :=
  if ht.free ≠ 0 then (ht.free, { ht with free := ht.link ht.free })
  else (ht.fresh, { ht with fresh := ht.fresh + 1 })

/-- The second part of `find_entry`. -/
def Table.insert (ht : Table Value) (key : Key) (val : Value) (ptr : Place) : Table Value :=
  let (hash, klen) := func.call key
  let (entry, ht) := ht.alloc
  let ht := (ht.setEntry entry ⟨0, key.bytes, klen, hash, val⟩).write entry ptr
  { ht with count := ht.count + 1 }

/-- The inner loop of `hash_expand`, which moves a chain to the new array. -/
def relinkChain (max : UInt32) (slots : Nat) :
    Nat → Nat → (Nat → Nat) × (Nat → Entry Value) → Option ((Nat → Nat) × (Nat → Entry Value))
  | 0, _, _ => none
  | fuel + 1, entry, (array, heap) =>
    if entry = 0 then some (array, heap)
    else
      let slot := ((heap entry).hash &&& max).toNat
      if slot < slots then
        relinkChain max slots fuel (heap entry).next
          (Function.update array slot entry,
            Function.update heap entry { heap entry with next := array slot })
      else none

/-- The outer loop of `hash_expand`, over the given slots. -/
def relinkSlots (max : UInt32) (slots fuel : Nat) (old : Nat → Nat) :
    List Nat → (Nat → Nat) × (Nat → Entry Value) → Option ((Nat → Nat) × (Nat → Entry Value))
  | [], memory => some memory
  | i :: rest, memory =>
    (relinkChain max slots fuel (old i) memory).bind (relinkSlots max slots fuel old rest)

def hashExpand (ht : Table Value) : Option (Table Value) :=
  let max := 2 * ht.max + 1
  let slots := (max + 1).toNat
  (relinkSlots max slots (ht.fresh + 1) ht.array (List.range (ht.max.toNat + 1))
      (fun _ => 0, ht.heap)).map fun (array, heap) =>
    { ht with max := max, slots := slots, array := array, heap := heap }

/-- `hash_set`; `none` where it leaves the array or does not end. -/
def hashSet (ht : Table Value) (key : Key) (val : Option Value) : Option (Table Value) :=
  (ht.find func key).bind fun ptr =>
    let entry := ht.read ptr
    match val with
    | some val =>
      let ht :=
        if entry ≠ 0 then ht.setEntry entry { ht.heap entry with val := val }
        else ht.insert func key val ptr
      if ht.max < ht.count then hashExpand ht else some ht
    | none =>
      if entry ≠ 0 then
        let ht := (ht.write (ht.link entry) ptr).setLink entry ht.free
        some { ht with free := entry, count := ht.count - 1 }
      else some ht

/-- `hash_get`; the outer `none` as for `hash_set`. -/
def hashGet (ht : Table Value) (key : Key) : Option (Option Value) :=
  (ht.find func key).map fun ptr =>
    if ht.read ptr ≠ 0 then some (ht.heap (ht.read ptr)).val else none

/-- `hash_iter_t`. -/
structure Iter where
  entry : Nat
  next : Nat
  index : UInt32

/-- The loop of `hash_next`: the entry and the index, or the end; `none` behind
the end of the array. -/
def Table.nextLoop (ht : Table Value) : Nat → Nat → UInt32 → Option (Option (Nat × UInt32))
  | 0, _, _ => none
  | fuel + 1, entry, index =>
    if entry ≠ 0 then some (some (entry, index))
    else if ht.max < index then some none
    else if index.toNat < ht.slots then
      ht.nextLoop fuel (ht.array index.toNat) (index + 1)
    else none

def hashNext (ht : Table Value) (iter : Iter) : Option (Option Iter) :=
  (ht.nextLoop (ht.slots + 2) iter.next iter.index).map fun found =>
    found.map fun (entry, index) => ⟨entry, ht.link entry, index⟩

def hashBegin (ht : Table Value) : Option (Option Iter) :=
  hashNext ht ⟨0, 0, 0⟩

/-- Calls of `hash_next` until it returns a null pointer, at most as many as the
fuel says, and the entries that they visit. -/
def visitFrom (ht : Table Value) : Nat → Option Iter → Option (List Nat)
  | _, none => some []
  | 0, some _ => none
  | fuel + 1, some iter =>
    ((hashNext ht iter).bind (visitFrom ht fuel)).map (iter.entry :: ·)

/-- A whole iteration that visits the given number of entries or fewer. -/
def iterate (ht : Table Value) (steps : Nat) : Option (List Nat) :=
  (hashBegin ht).bind (visitFrom ht steps)

end Functions

end Hash

end Fbbs
