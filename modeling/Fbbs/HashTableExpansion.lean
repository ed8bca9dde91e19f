import Fbbs.HashTableChains
import Mathlib.Data.List.Flatten

/-!
# Expanding a hash table

`hash_expand` takes the entries out of their chains one after another and puts
each in front of its chain in the new array.  Both loops together reverse, for
every slot of the new array, the entries that belong there.
-/

namespace Fbbs

namespace Hash

open LinkedChains

variable {Value : Type}

/-- The links in some memory. -/
def linkIn (heap : Nat → Entry Value) (node : Nat) : Nat :=
  (heap node).next

/-- The slot of an entry in an array with the given greatest index. -/
def slotIn (max : UInt32) (heap : Nat → Entry Value) (node : Nat) : Nat :=
  ((heap node).hash &&& max).toNat

/-- Only links of the given entries have changed. -/
def Relinked (moved : List Nat) (heap heap' : Nat → Entry Value) : Prop :=
  ∀ node, (∃ target, heap' node = { heap node with next := target }) ∧
    (node ∉ moved → heap' node = heap node)

/-- The chain of a slot after entries have been moved to the array. -/
def movedTo (max : UInt32) (heap : Nat → Entry Value) (moved : List Nat)
    (new : Nat → List Nat) (slot : Nat) : List Nat :=
  (moved.filter fun node => slotIn max heap node = slot).reverse ++ new slot

section

variable {max : UInt32} {heap heap' heap'' : Nat → Entry Value} {moved more : List Nat}
  {new : Nat → List Nat}

theorem Relinked.refl (heap : Nat → Entry Value) : Relinked [] heap heap :=
  fun node => ⟨⟨(heap node).next, rfl⟩, fun _ => rfl⟩

theorem Relinked.append (first : Relinked moved heap heap') (second : Relinked more heap' heap'') :
    Relinked (moved ++ more) heap heap'' := by
  intro node
  obtain ⟨⟨target, changed⟩, kept⟩ := first node
  obtain ⟨⟨target', changed'⟩, kept'⟩ := second node
  constructor
  · exact ⟨target', by rw [changed', changed]⟩
  · intro apart
    rw [List.mem_append, not_or] at apart
    rw [kept' apart.2, kept apart.1]

theorem Relinked.slotIn_eq (relinked : Relinked moved heap heap') :
    slotIn max heap' = slotIn max heap := by
  funext node
  obtain ⟨⟨target, changed⟩, -⟩ := relinked node
  rw [slotIn, slotIn, changed]

theorem movedTo_append (relinked : Relinked moved heap heap') :
    movedTo max heap' more (movedTo max heap moved new) = movedTo max heap (moved ++ more) new := by
  funext slot
  rw [movedTo, movedTo, movedTo, relinked.slotIn_eq, List.filter_append, List.reverse_append,
    List.append_assoc]

theorem mem_movedTo {slot node : Nat} :
    node ∈ movedTo max heap moved new slot ↔
      (node ∈ moved ∧ slotIn max heap node = slot) ∨ node ∈ new slot := by
  rw [movedTo, List.mem_append, List.mem_reverse, List.mem_filter, decide_eq_true_iff]

theorem movedTo_singleton (node : Nat) :
    movedTo max heap [node] new =
      Function.update new (slotIn max heap node) (node :: new (slotIn max heap node)) := by
  funext slot
  by_cases same : slot = slotIn max heap node
  · subst same
    simp [movedTo]
  · rw [Function.update_of_ne same, movedTo]
    simp [Ne.symm same]

end

section Loops

variable {max : UInt32} {slots : Nat} (wide : ∀ hash : UInt32, (hash &&& max).toNat < slots)

include wide

/-- The inner loop moves a whole chain. -/
theorem relinkChain_spec {todo : List Nat} (new : Nat → List Nat) {array : Nat → Nat}
    {heap : Nat → Entry Value} {entry fuel : Nat} (chain : Chain (linkIn heap) entry todo)
    (chains : ∀ slot, Chain (linkIn heap) (array slot) (new slot))
    (apart : ∀ node ∈ todo, ∀ slot, node ∉ new slot) (enough : todo.length < fuel) :
    ∃ array' heap', relinkChain max slots fuel entry (array, heap) = some (array', heap') ∧
      Relinked todo heap heap' ∧
      ∀ slot, Chain (linkIn heap') (array' slot) (movedTo max heap todo new slot) := by
  induction todo generalizing new array heap entry fuel with
  | nil =>
    obtain ⟨fuel, rfl⟩ := Nat.exists_eq_add_one_of_ne_zero (Nat.ne_of_gt enough)
    have ended : entry = 0 := chain.head_eq
    refine ⟨array, heap, ?_, Relinked.refl heap, chains⟩
    rw [relinkChain, if_pos ended]
  | cons node todo ih =>
    obtain ⟨fuel, rfl⟩ := Nat.exists_eq_add_one_of_ne_zero (Nat.ne_zero_of_lt enough)
    have nodup := List.nodup_cons.mp chain.nodup
    cases chain with
    | cons nonzero rest =>
      have links : linkIn (Function.update heap node
          { heap node with next := array (slotIn max heap node) }) =
            Function.update (linkIn heap) node (array (slotIn max heap node)) := by
        funext other
        by_cases same : other = node
        · subst same
          simp only [linkIn, Function.update_self]
        · simp only [linkIn, Function.update_of_ne same]
      have first : Relinked [node] heap (Function.update heap node
          { heap node with next := array (slotIn max heap node) }) := by
        intro other
        by_cases same : other = node
        · subst same
          rw [Function.update_self]
          exact ⟨⟨_, rfl⟩, fun absent => absurd (List.mem_singleton_self other) absent⟩
        · rw [Function.update_of_ne same]
          exact ⟨⟨(heap other).next, rfl⟩, fun _ => rfl⟩
      have chainsNext : ∀ slot, Chain (linkIn (Function.update heap node
          { heap node with next := array (slotIn max heap node) }))
          (Function.update array (slotIn max heap node) node slot)
          (movedTo max heap [node] new slot) := by
        intro slot
        rw [links, movedTo_singleton]
        have unlinked := apart node List.mem_cons_self
        by_cases same : slot = slotIn max heap node
        · subst same
          rw [Function.update_self, Function.update_self]
          exact (chains _).push nonzero (unlinked _)
        · rw [Function.update_of_ne same, Function.update_of_ne same]
          exact (chains slot).update (unlinked slot)
      have apartNext : ∀ other ∈ todo, ∀ slot, other ∉ movedTo max heap [node] new slot := by
        intro other member slot again
        rcases mem_movedTo.mp again with ⟨again, -⟩ | again
        · rw [List.mem_singleton] at again
          exact nodup.1 (again ▸ member)
        · exact apart other (List.mem_cons_of_mem node member) slot again
      rw [List.length_cons] at enough
      obtain ⟨array', heap', moves, relinked, moved⟩ :=
        ih _ (links ▸ rest.update nodup.1) chainsNext apartNext (Nat.lt_of_succ_lt_succ enough)
      refine ⟨array', heap', ?_, first.append relinked, ?_⟩
      · rw [relinkChain, if_neg nonzero]
        exact (if_pos (wide (heap node).hash)).trans moves
      · intro slot
        have chain := moved slot
        rw [movedTo_append first] at chain
        exact chain

/-- The outer loop moves the chains of all slots. -/
theorem relinkSlots_spec {indices : List Nat} {old : Nat → Nat} {chains : Nat → List Nat}
    (new : Nat → List Nat) {array : Nat → Nat} {heap : Nat → Entry Value} {fuel : Nat}
    (oldChains : ∀ i ∈ indices, Chain (linkIn heap) (old i) (chains i))
    (newChains : ∀ slot, Chain (linkIn heap) (array slot) (new slot))
    (nodup : (indices.flatMap chains).Nodup)
    (apart : ∀ node ∈ indices.flatMap chains, ∀ slot, node ∉ new slot)
    (enough : ∀ i ∈ indices, (chains i).length < fuel) :
    ∃ array' heap', relinkSlots max slots fuel old indices (array, heap) = some (array', heap') ∧
      Relinked (indices.flatMap chains) heap heap' ∧
      ∀ slot, Chain (linkIn heap') (array' slot)
        (movedTo max heap (indices.flatMap chains) new slot) := by
  induction indices generalizing new array heap with
  | nil => exact ⟨array, heap, rfl, Relinked.refl heap, newChains⟩
  | cons i indices ih =>
    rw [List.flatMap_cons] at nodup apart
    obtain ⟨-, restNodup, disjoint⟩ := List.nodup_append.mp nodup
    obtain ⟨array₁, heap₁, moves, first, chains₁⟩ :=
      relinkChain_spec wide new (oldChains i List.mem_cons_self) newChains
        (fun node member => apart node (List.mem_append_left _ member))
        (enough i List.mem_cons_self)
    have oldRest : ∀ j ∈ indices, Chain (linkIn heap₁) (old j) (chains j) := by
      intro j member
      apply (oldChains j (List.mem_cons_of_mem i member)).congr
      intro node inChain
      have notMoved : node ∉ chains i := fun moved =>
        disjoint node moved node (List.mem_flatMap.mpr ⟨j, member, inChain⟩) rfl
      rw [linkIn, (first node).2 notMoved, linkIn]
    have apartRest : ∀ node ∈ indices.flatMap chains, ∀ slot,
        node ∉ movedTo max heap (chains i) new slot := by
      intro node member slot again
      rcases mem_movedTo.mp again with ⟨again, -⟩ | again
      · exact disjoint node again node member rfl
      · exact apart node (List.mem_append_right _ member) slot again
    obtain ⟨array', heap', rest, relinked, moved⟩ := ih _ oldRest chains₁ restNodup apartRest
      (fun j member => enough j (List.mem_cons_of_mem i member))
    refine ⟨array', heap', ?_, first.append relinked, ?_⟩
    · rw [relinkSlots, moves]
      exact rest
    · intro slot
      have chain := moved slot
      rw [movedTo_append first] at chain
      exact chain

end Loops

namespace Layout

variable {ht : Table Value} {chains : Nat → List Nat} {deleted : List Nat}

theorem entries_nodup (layout : Layout ht chains deleted) (indices : List Nat)
    (nodup : indices.Nodup) : (indices.flatMap chains).Nodup := by
  rw [List.nodup_flatMap]
  constructor
  · exact fun slot _ => (layout.chain slot).nodup
  · apply nodup.imp
    intro slot other ne node member again
    exact ne ((layout.slot_eq slot node member).symm.trans (layout.slot_eq other node again))

theorem mem_entries (layout : Layout ht chains deleted) {node : Nat} :
    node ∈ (List.range ht.slots).flatMap chains ↔ ∃ slot, node ∈ chains slot := by
  rw [List.mem_flatMap]
  constructor
  · rintro ⟨slot, -, member⟩
    exact ⟨slot, member⟩
  · rintro ⟨slot, member⟩
    refine ⟨slot, ?_, member⟩
    rw [List.mem_range, ← layout.slot_eq slot node member]
    exact layout.slot_lt _

end Layout

theorem toNat_two_mul_add_one {max : UInt32} (small : max.toNat < 2 ^ 31 - 1) :
    (2 * max + 1).toNat = 2 * max.toNat + 1 ∧ (2 * max + 1 + 1).toNat = 2 * max.toNat + 2 := by
  have twice : (2 * max).toNat = 2 * max.toNat := by
    rw [UInt32.toNat_mul]
    exact Nat.mod_eq_of_lt (by change 2 * max.toNat < _; omega)
  have plus : (2 * max + 1).toNat = 2 * max.toNat + 1 := by
    rw [UInt32.toNat_add, twice]
    exact Nat.mod_eq_of_lt (by change 2 * max.toNat + 1 < _; omega)
  refine ⟨plus, ?_⟩
  rw [UInt32.toNat_add, plus]
  exact Nat.mod_eq_of_lt (by change 2 * max.toNat + 1 + 1 < _; omega)

/-- `hash_expand` keeps the entries and finds a slot for each. -/
theorem hashExpand_spec {ht : Table Value} {chains : Nat → List Nat} {deleted : List Nat}
    (layout : Layout ht chains deleted) (small : ht.max.toNat < 2 ^ 31 - 1) :
    ∃ ht' chains', hashExpand ht = some ht' ∧ Layout ht' chains' deleted ∧
      ht'.record = ht.record ∧ ht'.count = ht.count ∧
      ht'.max.toNat = 2 * ht.max.toNat + 1 ∧
      ∀ node, (∃ slot, node ∈ chains' slot) ↔ ∃ slot, node ∈ chains slot := by
  obtain ⟨maxEq, slotsEq⟩ := toNat_two_mul_add_one small
  have wide : ∀ hash : UInt32,
      (hash &&& (2 * ht.max + 1)).toNat < (2 * ht.max + 1 + 1).toNat := by
    intro hash
    rw [UInt32.toNat_and, slotsEq, maxEq]
    exact Nat.lt_succ_of_le Nat.and_le_right
  obtain ⟨array, heap, moves, relinked, moved⟩ :=
    relinkSlots_spec wide (fun _ => []) (fun i _ => layout.chain i)
      (fun _ => (Chain.nil : Chain (linkIn ht.heap) 0 []))
      (layout.entries_nodup (List.range ht.slots) List.nodup_range)
      (fun _ _ _ => List.not_mem_nil) (fun i _ => layout.length_lt i)
  have member : ∀ slot node,
      node ∈ movedTo (2 * ht.max + 1) ht.heap ((List.range ht.slots).flatMap chains)
        (fun _ => []) slot ↔
        (∃ slot, node ∈ chains slot) ∧ slotIn (2 * ht.max + 1) ht.heap node = slot := by
    intro slot node
    rw [mem_movedTo, layout.mem_entries, or_iff_left List.not_mem_nil]
  have record : ∀ node, (heap node).key = (ht.heap node).key ∧
      (heap node).klen = (ht.heap node).klen ∧ (heap node).hash = (ht.heap node).hash ∧
      (heap node).val = (ht.heap node).val := by
    intro node
    obtain ⟨⟨target, changed⟩, -⟩ := relinked node
    rw [changed]
    exact ⟨rfl, rfl, rfl, rfl⟩
  refine ⟨{ ht with max := 2 * ht.max + 1, slots := (2 * ht.max + 1 + 1).toNat, array, heap },
    _, ?_, ⟨moved, ?_, ?_, ?_, ?_, layout.free_lt, layout.positive, ?_⟩, ?_, rfl, maxEq, ?_⟩
  · rw [hashExpand, ← layout.slots_eq, moves]
    rfl
  · apply layout.free.congr
    intro node isDeleted
    have notMoved : node ∉ (List.range ht.slots).flatMap chains := by
      rw [layout.mem_entries]
      rintro ⟨slot, inChain⟩
      exact layout.apart slot node inChain isDeleted
    exact congrArg Entry.next ((relinked node).2 notMoved)
  · intro slot node inChain
    rw [Table.slotOf, Table.record, (record node).2.2.1]
    exact ((member slot node).mp inChain).2
  · intro slot node inChain
    obtain ⟨⟨old, inOld⟩, -⟩ := (member slot node).mp inChain
    exact layout.apart old node inOld
  · intro slot node inChain
    obtain ⟨⟨old, inOld⟩, -⟩ := (member slot node).mp inChain
    exact layout.chain_lt old node inOld
  · rw [slotsEq, maxEq]
  · funext node
    obtain ⟨key, klen, hash, val⟩ := record node
    rw [Table.record, Table.record, key, klen, hash, val]
  · intro node
    constructor
    · rintro ⟨slot, inChain⟩
      exact ((member slot node).mp inChain).1
    · intro inOld
      exact ⟨_, (member _ node).mpr ⟨inOld, rfl⟩⟩

end Hash

end Fbbs
