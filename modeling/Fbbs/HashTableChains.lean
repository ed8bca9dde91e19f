import Fbbs.HashTable
import Mathlib.Data.List.Perm.Subperm

/-!
# The chains of a hash table

Every slot of the array starts a chain, and so does the list of deleted entries.
The chains do not share entries, and what an operation writes to one of them
leaves the others alone.
-/

namespace Fbbs

namespace Hash

open LinkedChains

variable {Value : Type}

/-- An entry without its link. -/
structure Record (Value : Type) where
  key : Bytes
  klen : UInt32
  hash : UInt32
  val : Value

def Table.record (ht : Table Value) (node : Nat) : Record Value :=
  ⟨(ht.heap node).key, (ht.heap node).klen, (ht.heap node).hash, (ht.heap node).val⟩

/-- The slot where an entry belongs. -/
def Table.slotOf (ht : Table Value) (node : Nat) : Nat :=
  ((ht.record node).hash &&& ht.max).toNat

/-- The chains of the slots, and the list of deleted entries. -/
structure Layout (ht : Table Value) (chains : Nat → List Nat) (deleted : List Nat) : Prop where
  chain : ∀ slot, Chain ht.link (ht.array slot) (chains slot)
  free : Chain ht.link ht.free deleted
  slot_eq : ∀ slot, ∀ node ∈ chains slot, ht.slotOf node = slot
  apart : ∀ slot, ∀ node ∈ chains slot, node ∉ deleted
  chain_lt : ∀ slot, ∀ node ∈ chains slot, node < ht.fresh
  free_lt : ∀ node ∈ deleted, node < ht.fresh
  positive : 0 < ht.fresh
  slots_eq : ht.slots = ht.max.toNat + 1

/-- The place that `find_entry` has reached behind some entries of a chain. -/
def placeAfter (slot : Nat) (before : List Nat) : Place :=
  match before.getLast? with
  | none => .slot slot
  | some node => .next node

section Frames

variable (ht : Table Value) (node target : Nat) (entry : Entry Value)

theorem link_setEntry :
    (ht.setEntry node entry).link = Function.update ht.link node entry.next := by
  funext other
  by_cases same : other = node
  · subst same
    simp only [Table.link, Table.setEntry, Function.update_self]
  · simp only [Table.link, Table.setEntry, Function.update_of_ne same]

theorem link_setLink : (ht.setLink node target).link = Function.update ht.link node target :=
  link_setEntry ht node _

theorem record_setEntry :
    (ht.setEntry node entry).record =
      Function.update ht.record node ⟨entry.key, entry.klen, entry.hash, entry.val⟩ := by
  funext other
  by_cases same : other = node
  · subst same
    simp only [Table.record, Table.setEntry, Function.update_self]
  · simp only [Table.record, Table.setEntry, Function.update_of_ne same]

theorem record_setLink : (ht.setLink node target).record = ht.record :=
  (record_setEntry ht node _).trans (Function.update_eq_self node ht.record)

theorem record_write (place : Place) : (ht.write target place).record = ht.record := by
  cases place with
  | slot i => rfl
  | next node => exact record_setLink ht node target

theorem write_unchanged (place : Place) :
    (ht.write target place).free = ht.free ∧ (ht.write target place).fresh = ht.fresh ∧
      (ht.write target place).max = ht.max ∧ (ht.write target place).slots = ht.slots ∧
      (ht.write target place).count = ht.count := by
  cases place <;> exact ⟨rfl, rfl, rfl, rfl, rfl⟩

end Frames

section Places

variable {ht : Table Value} {slot target : Nat} {before after tail : List Nat}

theorem placeAfter_concat (node : Nat) :
    placeAfter slot (before ++ [node]) = .next node := by
  rw [placeAfter, List.getLast?_concat]

theorem read_placeAfter (chain : Chain ht.link (ht.array slot) (before ++ after)) :
    ht.read (placeAfter slot before) = after.headD 0 := by
  rcases List.eq_nil_or_concat' before with rfl | ⟨front, node, rfl⟩
  · exact chain.head_eq
  · rw [placeAfter_concat]
    rw [List.append_assoc] at chain
    have fromNode := chain.suffix
    cases fromNode with
    | cons _ rest => exact rest.head_eq

/-- Only the last entry before the place gets another link. -/
theorem link_write_of_notMem (node : Nat) (apart : node ∉ before) :
    (ht.write target (placeAfter slot before)).link node = ht.link node := by
  rcases List.eq_nil_or_concat' before with rfl | ⟨front, last, rfl⟩
  · rfl
  · rw [placeAfter_concat, Table.write, link_setLink]
    apply Function.update_of_ne
    rintro rfl
    exact apart (List.mem_append_right front (List.mem_singleton_self node))

theorem array_write_of_ne {other : Nat} (ne : other ≠ slot) :
    (ht.write target (placeAfter slot before)).array other = ht.array other := by
  rcases List.eq_nil_or_concat' before with rfl | ⟨front, last, rfl⟩
  · exact Function.update_of_ne ne _ _
  · rw [placeAfter_concat]
    rfl

/-- Writing to the place replaces the rest of the chain. -/
theorem chain_write (chain : Chain ht.link (ht.array slot) (before ++ after))
    (rest : Chain (ht.write target (placeAfter slot before)).link target tail) :
    Chain (ht.write target (placeAfter slot before)).link
      ((ht.write target (placeAfter slot before)).array slot) (before ++ tail) := by
  rcases List.eq_nil_or_concat' before with rfl | ⟨front, node, rfl⟩
  · have head : (ht.write target (placeAfter slot [])).array slot = target :=
      Function.update_self ..
    rw [head]
    exact rest
  · rw [placeAfter_concat] at rest ⊢
    have grafted := chain.graft rest
    rw [if_neg (by simp)] at grafted
    apply grafted
    intro other _
    rw [Table.write, link_setLink, Function.update_apply, List.getLast?_concat]
    simp only [Option.some.injEq, eq_comm]

/-- The loop stops at the first entry with the key, or at the end. -/
theorem findLoop_spec (hash klen : UInt32) (key : Bytes) (fuel : Nat)
    (chain : Chain ht.link (ht.array slot) (before ++ after)) (enough : after.length < fuel) :
    ∃ front rest, after = front ++ rest ∧
      ht.findLoop hash klen key fuel (placeAfter slot before) =
        some (placeAfter slot (before ++ front)) ∧
      (∀ node ∈ front, (ht.heap node).hasKey hash klen key = false) ∧
      ∀ node ∈ rest.head?, (ht.heap node).hasKey hash klen key = true := by
  induction after generalizing before fuel with
  | nil =>
    obtain ⟨fuel, rfl⟩ := Nat.exists_eq_add_one_of_ne_zero (Nat.ne_of_gt enough)
    refine ⟨[], [], rfl, ?_, by simp, by simp⟩
    rw [Table.findLoop, read_placeAfter chain, List.append_nil]
    exact if_pos (Or.inl rfl)
  | cons node after ih =>
    obtain ⟨fuel, rfl⟩ := Nat.exists_eq_add_one_of_ne_zero (Nat.ne_zero_of_lt enough)
    have nonzero : node ≠ 0 := by
      rintro rfl
      exact chain.zero_notMem (List.mem_append_right before List.mem_cons_self)
    rw [Table.findLoop, read_placeAfter chain, List.headD_cons]
    by_cases has : (ht.heap node).hasKey hash klen key = true
    · refine ⟨[], node :: after, rfl, ?_, by simp, ?_⟩
      · rw [List.append_nil]
        exact if_pos (Or.inr has)
      · intro other isHead
        rw [List.head?_cons, Option.mem_some_iff] at isHead
        exact isHead ▸ has
    · have longer : Chain ht.link (ht.array slot) ((before ++ [node]) ++ after) := by
        rw [List.append_assoc]
        exact chain
      rw [List.length_cons] at enough
      obtain ⟨front, rest, parts, found, others, isKey⟩ :=
        ih fuel longer (Nat.lt_of_succ_lt_succ enough)
      rw [placeAfter_concat, List.append_assoc] at found
      refine ⟨node :: front, rest, by rw [parts, List.cons_append], ?_, ?_, isKey⟩
      · have notFound : ¬(node = 0 ∨ (ht.heap node).hasKey hash klen key = true) :=
          not_or.mpr ⟨nonzero, has⟩
        exact (if_neg notFound).trans found
      · intro other member
        rcases List.mem_cons.mp member with rfl | member
        · exact Bool.eq_false_iff.mpr has
        · exact others other member

end Places

namespace Layout

variable {ht ht' : Table Value} {chains : Nat → List Nat} {deleted : List Nat}

/-- A chain is shorter than the memory. -/
theorem length_lt (layout : Layout ht chains deleted) (slot : Nat) :
    (chains slot).length < ht.fresh + 1 := by
  have subset : chains slot ⊆ List.range ht.fresh :=
    fun node member => List.mem_range.mpr (layout.chain_lt slot node member)
  have short := (List.subperm_of_subset (layout.chain slot).nodup subset).length_le
  rw [List.length_range] at short
  exact Nat.lt_succ_of_le short

theorem slot_lt (layout : Layout ht chains deleted) (hash : UInt32) :
    (hash &&& ht.max).toNat < ht.slots := by
  rw [layout.slots_eq, UInt32.toNat_and]
  exact Nat.lt_succ_of_le Nat.and_le_right

/-- Only the links of the entries in the chains and their hash values matter. -/
theorem congr (layout : Layout ht chains deleted) (array : ht'.array = ht.array)
    (free : ht'.free = ht.free) (fresh : ht'.fresh = ht.fresh) (max : ht'.max = ht.max)
    (slots : ht'.slots = ht.slots)
    (links : ∀ node, (∃ slot, node ∈ chains slot) ∨ node ∈ deleted → ht'.link node = ht.link node)
    (hashes : ∀ slot, ∀ node ∈ chains slot,
      (ht'.record node).hash = (ht.record node).hash) :
    Layout ht' chains deleted where
  chain slot := by
    rw [array]
    exact (layout.chain slot).congr fun node member => links node (Or.inl ⟨slot, member⟩)
  free := by
    rw [free]
    exact layout.free.congr fun node member => links node (Or.inr member)
  slot_eq slot node member := by
    rw [Table.slotOf, hashes slot node member, max]
    exact layout.slot_eq slot node member
  apart := layout.apart
  chain_lt slot node member := by
    rw [fresh]
    exact layout.chain_lt slot node member
  free_lt node member := by
    rw [fresh]
    exact layout.free_lt node member
  positive := by
    rw [fresh]
    exact layout.positive
  slots_eq := by
    rw [slots, max]
    exact layout.slots_eq

/-- An entry that is in no chain can be filled. -/
theorem setEntry (layout : Layout ht chains deleted) {node : Nat} (entry : Entry Value)
    (unlinked : ∀ slot, node ∉ chains slot) (notDeleted : node ∉ deleted) :
    Layout (ht.setEntry node entry) chains deleted := by
  refine layout.congr rfl rfl rfl rfl rfl ?_ ?_
  · intro other linked
    rw [link_setEntry]
    apply Function.update_of_ne
    rintro rfl
    rcases linked with ⟨slot, member⟩ | member
    · exact unlinked slot member
    · exact notDeleted member
  · intro slot other member
    rw [record_setEntry, Function.update_of_ne (ne_of_mem_of_not_mem member (unlinked slot))]

/-- Entries without duplicates and in the right slot can replace the rest of a chain. -/
theorem write (layout : Layout ht chains deleted) {slot target : Nat}
    {before after tail : List Nat} (parts : chains slot = before ++ after)
    (rest : Chain (ht.write target (placeAfter slot before)).link target tail)
    (rightSlot : ∀ node ∈ tail, ht.slotOf node = slot) (apart : ∀ node ∈ tail, node ∉ deleted)
    (bound : ∀ node ∈ tail, node < ht.fresh) :
    Layout (ht.write target (placeAfter slot before))
      (Function.update chains slot (before ++ tail)) deleted := by
  obtain ⟨free, fresh, max, slots, -⟩ := write_unchanged ht target (placeAfter slot before)
  have inBefore : ∀ node ∈ before, node ∈ chains slot := by
    intro node member
    rw [parts]
    exact List.mem_append_left after member
  have known : ∀ other, ∀ node ∈ Function.update chains slot (before ++ tail) other,
      ht.slotOf node = other ∧ node ∉ deleted ∧ node < ht.fresh := by
    intro other node member
    by_cases same : other = slot
    · subst same
      rw [Function.update_self, List.mem_append] at member
      rcases member with member | member
      · exact ⟨layout.slot_eq _ node (inBefore node member),
          layout.apart _ node (inBefore node member), layout.chain_lt _ node (inBefore node member)⟩
      · exact ⟨rightSlot node member, apart node member, bound node member⟩
    · rw [Function.update_of_ne same] at member
      exact ⟨layout.slot_eq _ node member, layout.apart _ node member,
        layout.chain_lt _ node member⟩
  constructor
  · intro other
    by_cases same : other = slot
    · subst same
      rw [Function.update_self]
      exact chain_write (parts ▸ layout.chain _) rest
    · rw [Function.update_of_ne same, array_write_of_ne same]
      apply (layout.chain other).congr
      intro node member
      apply link_write_of_notMem
      -- An entry of both chains would belong to both slots.
      intro both
      exact same ((layout.slot_eq other node member).symm.trans
        (layout.slot_eq slot node (inBefore node both)))
  · rw [free]
    apply layout.free.congr
    intro node member
    apply link_write_of_notMem
    exact fun both => layout.apart slot node (inBefore node both) member
  · intro other node member
    rw [Table.slotOf, record_write, max]
    exact (known other node member).1
  · exact fun other node member => (known other node member).2.1
  · intro other node member
    rw [fresh]
    exact (known other node member).2.2
  · rw [fresh]
    exact layout.free_lt
  · rw [fresh]
    exact layout.positive
  · rw [slots, max]
    exact layout.slots_eq

/-- An entry that is in no chain becomes the first of the deleted ones. -/
theorem release (layout : Layout ht chains deleted) {node : Nat} (count : UInt32)
    (nonzero : node ≠ 0) (bound : node < ht.fresh) (unlinked : ∀ slot, node ∉ chains slot)
    (notDeleted : node ∉ deleted) :
    Layout { ht.setLink node ht.free with free := node, count := count } chains
      (node :: deleted) := by
  have kept : Layout (ht.setLink node ht.free) chains deleted :=
    layout.setEntry _ unlinked notDeleted
  constructor
  · exact kept.chain
  · have pushed := layout.free.push nonzero notDeleted
    rw [← link_setLink] at pushed
    exact pushed
  · exact kept.slot_eq
  · intro slot other member
    rw [List.mem_cons, not_or]
    exact ⟨ne_of_mem_of_not_mem member (unlinked slot), layout.apart slot other member⟩
  · exact kept.chain_lt
  · intro other member
    rcases List.mem_cons.mp member with rfl | member
    · exact bound
    · exact kept.free_lt other member
  · exact kept.positive
  · exact kept.slots_eq

/-- An allocated entry is in no chain. -/
theorem alloc (layout : Layout ht chains deleted) :
    ∃ remaining, Layout ht.alloc.2 chains remaining ∧ ht.alloc.1 ≠ 0 ∧
      ht.alloc.1 < ht.alloc.2.fresh ∧ ht.alloc.1 ∉ remaining ∧
      (∀ slot, ht.alloc.1 ∉ chains slot) ∧ ht.alloc.2.record = ht.record ∧
      ht.alloc.2.max = ht.max ∧ ht.alloc.2.array = ht.array ∧ ht.alloc.2.count = ht.count := by
  by_cases recycled : ht.free ≠ 0
  · rw [Table.alloc, if_pos recycled]
    have chain := layout.free
    cases deleted with
    | nil => exact absurd chain.head_eq recycled
    | cons node remaining =>
      have head : ht.free = node := chain.head_eq
      have nodup := List.nodup_cons.mp chain.nodup
      have tail : Chain ht.link (ht.link ht.free) remaining := by
        rw [head] at chain ⊢
        cases chain with
        | cons _ rest => exact rest
      rw [head] at tail ⊢
      refine ⟨remaining, ⟨layout.chain, tail, layout.slot_eq, ?_, layout.chain_lt, ?_,
        layout.positive, layout.slots_eq⟩, head ▸ recycled,
        layout.free_lt node List.mem_cons_self, nodup.1, ?_, rfl, rfl, rfl, rfl⟩
      · exact fun slot other member again =>
          layout.apart slot other member (List.mem_cons_of_mem node again)
      · exact fun other member => layout.free_lt other (List.mem_cons_of_mem node member)
      · exact fun slot member => layout.apart slot node member List.mem_cons_self
  · rw [Table.alloc, if_neg recycled]
    have larger : ht.fresh < ht.fresh + 1 := Nat.lt_succ_self ht.fresh
    refine ⟨deleted, ⟨layout.chain, layout.free, layout.slot_eq, layout.apart, ?_, ?_,
      Nat.succ_pos _, layout.slots_eq⟩, Nat.ne_of_gt layout.positive, larger, ?_, ?_,
      rfl, rfl, rfl, rfl⟩
    · exact fun slot node member => (layout.chain_lt slot node member).trans larger
    · exact fun node member => (layout.free_lt node member).trans larger
    · exact fun member => Nat.lt_irrefl _ (layout.free_lt _ member)
    · exact fun slot member => Nat.lt_irrefl _ (layout.chain_lt slot _ member)

end Layout

end Hash

end Fbbs
