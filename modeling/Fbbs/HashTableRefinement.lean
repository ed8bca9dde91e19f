import Fbbs.HashTableExpansion
import Mathlib.Data.Finmap

/-!
# The hash table as a finite map

The entries in the chains stand for the pairs of a finite map.  A call of
`hash_set` changes the map in one key, however the entries move.
-/

namespace Fbbs

namespace Hash

open LinkedChains

/-- What a table is for. -/
abbrev Contents (Value : Type) :=
  Finmap fun _ : Bytes => Value

variable {Value : Type}

/-- Setting a value, or deleting a key. -/
def Contents.set (contents : Contents Value) (key : Bytes) : Option Value → Contents Value
  | some val => contents.insert key val
  | none => contents.erase key

variable {func : HashFunc}

/-- The live entries have the keys and values of the map, each key once. -/
structure Stores (func : HashFunc) (live : Nat → Prop) (record : Nat → Record Value)
    (contents : Contents Value) : Prop where
  hashed : ∀ node, live node → ∀ key : Key, key.bytes = (record node).key →
    func.call key = ((record node).hash, (record node).klen)
  klen_eq : ∀ node, live node → (record node).klen.toNat = (record node).key.length
  stored : ∀ node, live node → contents.lookup (record node).key = some (record node).val
  present : ∀ key ∈ contents, ∃ node, live node ∧ (record node).key = key
  distinct : ∀ node other, live node → live other →
    (record node).key = (record other).key → node = other

theorem HashFunc.call_eq_of_bytes_eq (func : HashFunc) {key other : Key}
    (same : key.bytes = other.bytes) : func.call key = func.call other := by
  apply Prod.ext
  · exact func.value_eq key other same
  · rw [func.length_eq, func.length_eq, same]

theorem HashFunc.toNat_klen (func : HashFunc) {key : Key} (short : key.bytes.length < 2 ^ 32) :
    (func.call key).2.toNat = key.bytes.length := by
  rw [func.length_eq, UInt32.toNat_ofNat_of_lt' short]

namespace Stores

variable {live live' : Nat → Prop} {record : Nat → Record Value} {contents : Contents Value}

theorem congr (stores : Stores func live record contents)
    (same : ∀ node, live' node ↔ live node) : Stores func live' record contents := by
  have eq : live' = live := funext fun node => propext (same node)
  rw [eq]
  exact stores

/-- A new entry for a new key. -/
theorem insert (stores : Stores func live record contents) {node : Nat} {key : Key} (val : Value)
    (unused : ¬live node) (short : key.bytes.length < 2 ^ 32) (new : key.bytes ∉ contents) :
    Stores func (fun other => other = node ∨ live other)
      (Function.update record node ⟨key.bytes, (func.call key).2, (func.call key).1, val⟩)
      (contents.insert key.bytes val) := by
  have others : ∀ other, live other → other ≠ node := by
    rintro other isLive rfl
    exact unused isLive
  have oldKey : ∀ other, live other → (record other).key ≠ key.bytes := by
    intro other isLive same
    have found := Finmap.mem_of_lookup_eq_some (stores.stored other isLive)
    exact new (same ▸ found)
  constructor
  · rintro other (rfl | isLive) query same
    · rw [Function.update_self] at same ⊢
      exact func.call_eq_of_bytes_eq same
    · rw [Function.update_of_ne (others other isLive)] at same ⊢
      exact stores.hashed other isLive query same
  · rintro other (rfl | isLive)
    · rw [Function.update_self]
      exact func.toNat_klen short
    · rw [Function.update_of_ne (others other isLive)]
      exact stores.klen_eq other isLive
  · rintro other (rfl | isLive)
    · rw [Function.update_self, Finmap.lookup_insert]
    · rw [Function.update_of_ne (others other isLive),
        Finmap.lookup_insert_of_ne _ (oldKey other isLive)]
      exact stores.stored other isLive
  · intro query member
    rcases Finmap.mem_insert.mp member with rfl | member
    · exact ⟨node, Or.inl rfl, by rw [Function.update_self]⟩
    · obtain ⟨other, isLive, keyEq⟩ := stores.present query member
      exact ⟨other, Or.inr isLive, by rw [Function.update_of_ne (others other isLive), keyEq]⟩
  · rintro one two (rfl | isLive) (rfl | isLive') same
    · rfl
    · rw [Function.update_self, Function.update_of_ne (others two isLive')] at same
      exact absurd same.symm (oldKey two isLive')
    · rw [Function.update_self, Function.update_of_ne (others one isLive)] at same
      exact absurd same (oldKey one isLive)
    · rw [Function.update_of_ne (others one isLive), Function.update_of_ne (others two isLive')]
        at same
      exact stores.distinct one two isLive isLive' same

/-- Another value for a key. -/
theorem overwrite (stores : Stores func live record contents) {node : Nat} (val : Value)
    (isLive : live node) :
    Stores func live (Function.update record node { record node with val := val })
      (contents.insert (record node).key val) := by
  have keys : ∀ other, (Function.update record node { record node with val := val } other).key =
      (record other).key ∧
      (Function.update record node { record node with val := val } other).klen =
        (record other).klen ∧
      (Function.update record node { record node with val := val } other).hash =
        (record other).hash := by
    intro other
    by_cases same : other = node
    · subst same
      rw [Function.update_self]
      exact ⟨rfl, rfl, rfl⟩
    · rw [Function.update_of_ne same]
      exact ⟨rfl, rfl, rfl⟩
  constructor
  · intro other otherLive query same
    rw [(keys other).1] at same
    rw [(keys other).2.1, (keys other).2.2]
    exact stores.hashed other otherLive query same
  · intro other otherLive
    rw [(keys other).1, (keys other).2.1]
    exact stores.klen_eq other otherLive
  · intro other otherLive
    rw [(keys other).1]
    by_cases same : other = node
    · subst same
      rw [Function.update_self, Finmap.lookup_insert]
    · have otherKey : (record other).key ≠ (record node).key :=
        fun equal => same (stores.distinct other node otherLive isLive equal)
      rw [Function.update_of_ne same, Finmap.lookup_insert_of_ne _ otherKey]
      exact stores.stored other otherLive
  · intro query member
    rcases Finmap.mem_insert.mp member with rfl | member
    · exact ⟨node, isLive, (keys node).1⟩
    · obtain ⟨other, otherLive, keyEq⟩ := stores.present query member
      exact ⟨other, otherLive, (keys other).1.trans keyEq⟩
  · intro one two oneLive twoLive same
    rw [(keys one).1, (keys two).1] at same
    exact stores.distinct one two oneLive twoLive same

/-- An entry is no longer live. -/
theorem erase (stores : Stores func live record contents) {node : Nat} (isLive : live node) :
    Stores func (fun other => other ≠ node ∧ live other) record
      (contents.erase (record node).key) := by
  constructor
  · exact fun other otherLive => stores.hashed other otherLive.2
  · exact fun other otherLive => stores.klen_eq other otherLive.2
  · rintro other ⟨ne, otherLive⟩
    have otherKey : (record other).key ≠ (record node).key :=
      fun equal => ne (stores.distinct other node otherLive isLive equal)
    rw [Finmap.lookup_erase_ne otherKey]
    exact stores.stored other otherLive
  · intro query member
    obtain ⟨ne, member⟩ := Finmap.mem_erase.mp member
    obtain ⟨other, otherLive, keyEq⟩ := stores.present query member
    refine ⟨other, ⟨?_, otherLive⟩, keyEq⟩
    rintro rfl
    exact ne keyEq.symm
  · exact fun one two oneLive twoLive => stores.distinct one two oneLive.2 twoLive.2

end Stores

/-- An entry is in one of the chains. -/
def Linked (chains : Nat → List Nat) (node : Nat) : Prop :=
  ∃ slot, node ∈ chains slot

/-- The table stands for the map. -/
structure Represents (func : HashFunc) (ht : Table Value) (contents : Contents Value)
    (chains : Nat → List Nat) (deleted : List Nat) : Prop where
  layout : Layout ht chains deleted
  stores : Stores func (Linked chains) ht.record contents
  count_eq : ht.count.toNat = contents.keys.card
  count_le : ht.count.toNat ≤ ht.max.toNat
  max_lt : ht.max.toNat < 2 ^ 32 - 1

section Find

variable {ht : Table Value} {contents : Contents Value} {chains : Nat → List Nat}
  {deleted : List Nat}

/-- The test of `find_entry` compares keys. -/
theorem hasKey_iff (stores : Stores func (Linked chains) ht.record contents) {node : Nat}
    (linked : Linked chains node) {key : Key} (short : key.bytes.length < 2 ^ 32) :
    (ht.heap node).hasKey (func.call key).1 (func.call key).2 key.bytes = true ↔
      (ht.record node).key = key.bytes := by
  rw [Entry.hasKey, Bool.and_eq_true, Bool.and_eq_true, beq_iff_eq, beq_iff_eq, beq_iff_eq]
  have klen : (ht.heap node).klen.toNat = (ht.heap node).key.length := stores.klen_eq node linked
  constructor
  · rintro ⟨⟨klenEq, -⟩, prefixes⟩
    have length := func.toNat_klen short
    rw [← klenEq] at prefixes length
    rw [length, List.take_length, ← length, klen, List.take_length] at prefixes
    exact prefixes
  · intro same
    have hashed := stores.hashed node linked key same.symm
    have keyEq : (ht.heap node).key = key.bytes := same
    rw [hashed, keyEq]
    exact ⟨⟨rfl, rfl⟩, rfl⟩

/-- `find_entry` stops in front of the entry with the key if the key is in the
table, and otherwise at the end of its chain. -/
theorem find_spec (layout : Layout ht chains deleted)
    (stores : Stores func (Linked chains) ht.record contents) {key : Key}
    (short : key.bytes.length < 2 ^ 32) :
    ∃ before after, chains ((func.call key).1 &&& ht.max).toNat = before ++ after ∧
      ht.find func key = some (placeAfter ((func.call key).1 &&& ht.max).toNat before) ∧
      ht.read (placeAfter ((func.call key).1 &&& ht.max).toNat before) = after.headD 0 ∧
      (after = [] → key.bytes ∉ contents) ∧
      ∀ node ∈ after.head?, (ht.record node).key = key.bytes := by
  have chain : Chain ht.link (ht.array ((func.call key).1 &&& ht.max).toNat)
      ([] ++ chains ((func.call key).1 &&& ht.max).toNat) := layout.chain _
  obtain ⟨before, after, parts, found, others, isKey⟩ :=
    findLoop_spec (func.call key).1 (func.call key).2 key.bytes (ht.fresh + 1) chain
      (layout.length_lt _)
  have linked : ∀ node ∈ before ++ after, Linked chains node := by
    intro node member
    exact ⟨_, parts ▸ member⟩
  rw [List.nil_append, parts] at chain
  refine ⟨before, after, parts, ?_, read_placeAfter chain, ?_, ?_⟩
  · exact (if_pos (layout.slot_lt (func.call key).1)).trans found
  · rintro rfl member
    obtain ⟨node, ⟨slot, inChain⟩, keyEq⟩ := stores.present key.bytes member
    have hashed := stores.hashed node ⟨slot, inChain⟩ key keyEq.symm
    -- The entry with the key is in the chain that has been searched.
    have slotEq : slot = ((func.call key).1 &&& ht.max).toNat := by
      rw [hashed]
      exact (layout.slot_eq slot node inChain).symm
    rw [slotEq, parts, List.append_nil] at inChain
    have missed := others node inChain
    rw [(hasKey_iff stores (linked node (List.mem_append_left _ inChain)) short).mpr keyEq]
      at missed
    exact Bool.noConfusion missed
  · intro node isHead
    have member : node ∈ before ++ after :=
      List.mem_append_right before (List.mem_of_mem_head? isHead)
    exact (hasKey_iff stores (linked node member) short).mp (isKey node isHead)

/-- `hash_get` reads the map. -/
theorem hashGet_eq_lookup (represents : Represents func ht contents chains deleted) {key : Key}
    (short : key.bytes.length < 2 ^ 32) :
    hashGet func ht key = some (contents.lookup key.bytes) := by
  obtain ⟨before, after, parts, found, head, absent, isKey⟩ :=
    find_spec represents.layout represents.stores short
  rw [hashGet, found, Option.map_some, head]
  cases after with
  | nil =>
    rw [Finmap.lookup_eq_none.mpr (absent rfl)]
    rfl
  | cons node rest =>
    have linked : Linked chains node :=
      ⟨_, parts ▸ List.mem_append_right before List.mem_cons_self⟩
    have nonzero : node ≠ 0 := by
      rintro rfl
      obtain ⟨slot, member⟩ := linked
      exact (represents.layout.chain slot).zero_notMem member
    rw [List.headD_cons, if_pos nonzero, ← isKey node rfl, represents.stores.stored node linked]
    rfl

end Find

section Set

variable {ht : Table Value} {contents : Contents Value} {chains : Nat → List Nat}
  {deleted : List Nat}

theorem keys_insert (contents : Contents Value) (key : Bytes) (val : Value) :
    (contents.insert key val).keys = Insert.insert key contents.keys := by
  ext other
  rw [Finmap.mem_keys, Finmap.mem_insert, Finset.mem_insert, Finmap.mem_keys]

theorem toNat_add_one {count : UInt32} (small : count.toNat + 1 < 2 ^ 32) :
    (count + 1).toNat = count.toNat + 1 := by
  rw [UInt32.toNat_add]
  exact Nat.mod_eq_of_lt small

theorem toNat_sub_one {count : UInt32} (positive : 1 ≤ count.toNat) :
    (count - 1).toNat = count.toNat - 1 :=
  UInt32.toNat_sub_of_le count 1 (UInt32.le_iff_toNat_le.mpr positive)

/-- The value of an entry is replaced. -/
theorem overwrite_represents (represents : Represents func ht contents chains deleted)
    {node : Nat} (linked : Linked chains node) (val : Value) :
    Represents func (ht.setEntry node { ht.heap node with val := val })
      (contents.insert (ht.record node).key val) chains deleted := by
  have links : (ht.setEntry node { ht.heap node with val := val }).link = ht.link :=
    (link_setEntry ht node _).trans (Function.update_eq_self node ht.link)
  have record := record_setEntry ht node { ht.heap node with val := val }
  have stores := represents.stores.overwrite val linked
  constructor
  · refine represents.layout.congr rfl rfl rfl rfl rfl ?_ ?_
    · exact fun other _ => congrFun links other
    · intro slot other member
      rw [record]
      by_cases same : other = node
      · rw [same, Function.update_self]
        rfl
      · rw [Function.update_of_ne same]
  · rw [record]
    exact stores
  · have member : (ht.record node).key ∈ contents.keys :=
      Finmap.mem_keys.mpr (Finmap.mem_of_lookup_eq_some (represents.stores.stored node linked))
    rw [keys_insert, Finset.insert_eq_of_mem member]
    exact represents.count_eq
  · exact represents.count_le
  · exact represents.max_lt

/-- A new entry at the end of a chain, before the size of the array is checked. -/
theorem insert_layout (layout : Layout ht chains deleted)
    (stores : Stores func (Linked chains) ht.record contents) {key : Key} (val : Value)
    (short : key.bytes.length < 2 ^ 32) (new : key.bytes ∉ contents) {slot : Nat}
    (slotEq : ((func.call key).1 &&& ht.max).toNat = slot) :
    ∃ chains' deleted',
      Layout (ht.insert func key val (placeAfter slot (chains slot))) chains' deleted' ∧
      Stores func (Linked chains') (ht.insert func key val (placeAfter slot (chains slot))).record
        (contents.insert key.bytes val) ∧
      (ht.insert func key val (placeAfter slot (chains slot))).count = ht.count + 1 ∧
      (ht.insert func key val (placeAfter slot (chains slot))).max = ht.max := by
  obtain ⟨remaining, allocated, nonzero, bound, notDeleted, unlinked, record, max, -, count⟩ :=
    layout.alloc
  have filled := allocated.setEntry
    ⟨0, key.bytes, (func.call key).2, (func.call key).1, val⟩ unlinked notDeleted
  have filledRecord := record_setEntry ht.alloc.2 ht.alloc.1
    ⟨0, key.bytes, (func.call key).2, (func.call key).1, val⟩
  rw [record] at filledRecord
  -- The new entry ends its chain.
  have rest : Chain ((ht.alloc.2.setEntry ht.alloc.1
      ⟨0, key.bytes, (func.call key).2, (func.call key).1, val⟩).write ht.alloc.1
        (placeAfter slot (chains slot))).link ht.alloc.1 [ht.alloc.1] := by
    refine .cons nonzero ?_
    rw [link_write_of_notMem _ (unlinked slot), link_setEntry, Function.update_self]
    exact .nil
  have written := filled.write (List.append_nil (chains slot)).symm rest
    (by
      intro node member
      rw [List.mem_singleton] at member
      rw [Table.slotOf, member, filledRecord, Function.update_self]
      exact (congrArg (fun m => ((func.call key).1 &&& m).toNat) max).trans slotEq)
    (by
      intro node member
      rw [List.mem_singleton] at member
      exact member ▸ notDeleted)
    (by
      intro node member
      rw [List.mem_singleton] at member
      exact member ▸ bound)
  obtain ⟨-, -, maxKept, -, countKept⟩ := write_unchanged (ht.alloc.2.setEntry ht.alloc.1
    ⟨0, key.bytes, (func.call key).2, (func.call key).1, val⟩) ht.alloc.1
    (placeAfter slot (chains slot))
  refine ⟨_, remaining, written.congr rfl rfl rfl rfl rfl (fun _ _ => rfl) (fun _ _ _ => rfl),
    ?_, ?_, maxKept.trans max⟩
  · have notLinked : ¬Linked chains ht.alloc.1 := by
      rintro ⟨place, member⟩
      exact unlinked place member
    have inserted := stores.insert val notLinked short new
    have recordEq : (ht.insert func key val (placeAfter slot (chains slot))).record = _ :=
      (record_write _ _ _).trans filledRecord
    rw [recordEq]
    apply inserted.congr
    intro node
    constructor
    · rintro ⟨place, member⟩
      rcases mem_update_append.mp member with before | ⟨-, isNew⟩
      · exact Or.inr ⟨place, before⟩
      · exact Or.inl isNew
    · rintro (isNew | ⟨place, before⟩)
      · exact ⟨slot, mem_update_append.mpr (Or.inr ⟨rfl, isNew⟩)⟩
      · exact ⟨place, mem_update_append.mpr (Or.inl before)⟩
  · exact congrArg (· + 1) (countKept.trans count)

/-- An entry is taken out of its chain. -/
theorem delete_represents (represents : Represents func ht contents chains deleted)
    {slot node : Nat} {before rest : List Nat} (parts : chains slot = before ++ node :: rest) :
    Represents func
      { (ht.write (ht.link node) (placeAfter slot before)).setLink node ht.free with
        free := node, count := ht.count - 1 }
      (contents.erase (ht.record node).key) (Function.update chains slot (before ++ rest))
      (node :: deleted) := by
  have layout := represents.layout
  have inChain : node ∈ chains slot := by
    rw [parts]
    exact List.mem_append_right before List.mem_cons_self
  have whole := layout.chain slot
  rw [parts] at whole
  have nodup := whole.nodup
  have apartBefore : ∀ other ∈ node :: rest, other ∉ before := by
    intro other member again
    exact (List.nodup_append.mp nodup).2.2 other again other member rfl
  have mem_iff : ∀ other i, i ∈ Function.update chains slot (before ++ rest) other ↔
      i ∈ chains other ∧ i ≠ node :=
    mem_update_cut parts (layout.chain slot).nodup fun other member =>
      (layout.slot_eq other node member).symm.trans (layout.slot_eq slot node inChain)
  have tail : Chain ht.link (ht.link node) rest := by
    have fromNode : Chain ht.link node (node :: rest) := whole.suffix
    cases fromNode with
    | cons _ tail => exact tail
  have inRest : ∀ other ∈ rest, other ∈ chains slot := by
    intro other member
    rw [parts]
    exact List.mem_append_right before (List.mem_cons_of_mem node member)
  have written := layout.write parts
    (tail.congr fun other member =>
      link_write_of_notMem other (apartBefore other (List.mem_cons_of_mem node member)))
    (fun other member => layout.slot_eq slot other (inRest other member))
    (fun other member => layout.apart slot other (inRest other member))
    (fun other member => layout.chain_lt slot other (inRest other member))
  obtain ⟨free, fresh, max, -, -⟩ :=
    write_unchanged ht (ht.link node) (placeAfter slot before)
  have gone : ∀ other, node ∉ Function.update chains slot (before ++ rest) other :=
    fun other member => ((mem_iff other node).mp member).2 rfl
  have nonzero : node ≠ 0 := by
    rintro rfl
    exact (layout.chain slot).zero_notMem inChain
  have released := written.release (ht.count - 1) nonzero
    (fresh ▸ layout.chain_lt slot node inChain) gone (layout.apart slot node inChain)
  rw [free] at released
  have record : ((ht.write (ht.link node) (placeAfter slot before)).setLink node ht.free).record =
      ht.record := (record_setLink _ _ _).trans (record_write _ _ _)
  have linked : Linked chains node := ⟨slot, inChain⟩
  have member : (ht.record node).key ∈ contents.keys :=
    Finmap.mem_keys.mpr (Finmap.mem_of_lookup_eq_some (represents.stores.stored node linked))
  have countEq : (ht.count - 1).toNat = (contents.erase (ht.record node).key).keys.card := by
    rw [Finmap.keys_erase, Finset.card_erase_of_mem member, toNat_sub_one, represents.count_eq]
    rw [represents.count_eq]
    exact Finset.card_pos.mpr ⟨_, member⟩
  refine ⟨released, ?_, countEq, ?_, max ▸ represents.max_lt⟩
  · have erased := represents.stores.erase linked
    rw [← record] at erased
    rw [← record]
    apply erased.congr
    intro other
    constructor
    · rintro ⟨place, remains⟩
      obtain ⟨before, ne⟩ := (mem_iff place other).mp remains
      exact ⟨ne, place, before⟩
    · rintro ⟨ne, place, before⟩
      exact ⟨place, (mem_iff place other).mpr ⟨before, ne⟩⟩
  · change (ht.count - 1).toNat ≤ (ht.write (ht.link node) (placeAfter slot before)).max.toNat
    rw [countEq, Finmap.keys_erase, max]
    calc
      (contents.keys.erase (ht.record node).key).card ≤ contents.keys.card :=
        Finset.card_erase_le
      _ = ht.count.toNat := represents.count_eq.symm
      _ ≤ ht.max.toNat := represents.count_le

/-- `hash_set` for a key that is not in the table. -/
theorem hashSet_of_read_zero {key : Key} {ptr : Place} (found : ht.find func key = some ptr)
    (missing : ht.read ptr = 0) :
    hashSet func ht key none = some ht ∧
      ∀ val, hashSet func ht key (some val) =
        if (ht.insert func key val ptr).max < (ht.insert func key val ptr).count then
          hashExpand (ht.insert func key val ptr)
        else some (ht.insert func key val ptr) := by
  constructor
  · rw [hashSet, found, Option.bind_some, missing]
    rfl
  · intro val
    rw [hashSet, found, Option.bind_some, missing]
    rfl

/-- `hash_set` for a key that has an entry. -/
theorem hashSet_of_read {key : Key} {ptr : Place} {node : Nat} (nonzero : node ≠ 0)
    (found : ht.find func key = some ptr) (head : ht.read ptr = node) :
    hashSet func ht key none =
      some { (ht.write (ht.link node) ptr).setLink node ht.free with
        free := node, count := ht.count - 1 } ∧
      ∀ val, hashSet func ht key (some val) =
        if ht.max < ht.count then hashExpand (ht.setEntry node { ht.heap node with val := val })
        else some (ht.setEntry node { ht.heap node with val := val }) := by
  constructor
  · rw [hashSet, found, Option.bind_some, head]
    refine (if_pos nonzero).trans ?_
    cases ptr <;> rfl
  · intro val
    rw [hashSet, found, Option.bind_some, head]
    simp only [ne_eq, nonzero, not_false_eq_true, if_true]
    rfl

/-- A new key, with or without an expansion. -/
theorem insert_represents (represents : Represents func ht contents chains deleted) {key : Key}
    (val : Value) (short : key.bytes.length < 2 ^ 32) (new : key.bytes ∉ contents)
    (few : contents.keys.card + 1 < 2 ^ 31)
    {ptr : Place} (found : ht.find func key = some ptr) (missing : ht.read ptr = 0)
    (atEnd : ptr = placeAfter ((func.call key).1 &&& ht.max).toNat
      (chains ((func.call key).1 &&& ht.max).toNat)) :
    ∃ ht' chains' deleted', hashSet func ht key (some val) = some ht' ∧
      Represents func ht' (contents.insert key.bytes val) chains' deleted' := by
  obtain ⟨chains', deleted', inserted, stores, count, max⟩ :=
    insert_layout represents.layout represents.stores val short new rfl
  rw [← atEnd] at inserted stores count max
  have card : (contents.insert key.bytes val).keys.card = contents.keys.card + 1 := by
    rw [keys_insert, Finset.card_insert_of_notMem (Finmap.mem_keys.not.mpr new)]
  have countEq : (ht.insert func key val ptr).count.toNat =
      (contents.insert key.bytes val).keys.card := by
    rw [count, toNat_add_one, represents.count_eq, card]
    rw [represents.count_eq]
    exact few.trans (by decide)
  rw [(hashSet_of_read_zero found missing).2 val]
  by_cases full : (ht.insert func key val ptr).max < (ht.insert func key val ptr).count
  · rw [if_pos full]
    rw [UInt32.lt_iff_toNat_lt, countEq, card] at full
    obtain ⟨ht', expanded, expands, layout, record, count', max', linked⟩ :=
      hashExpand_spec inserted (by omega)
    refine ⟨ht', expanded, deleted', expands, layout, ?_, ?_, ?_, by omega⟩
    · rw [record]
      exact stores.congr linked
    · rw [count', countEq]
    · rw [count', countEq, max', max, card]
      have fits := represents.count_le
      rw [represents.count_eq] at fits
      omega
  · rw [if_neg full]
    rw [UInt32.lt_iff_toNat_lt, Nat.not_lt] at full
    exact ⟨_, chains', deleted', rfl, inserted, stores, countEq, full, max ▸ represents.max_lt⟩

/-- A call of `hash_set` changes the map in one key. -/
theorem hashSet_represents (represents : Represents func ht contents chains deleted) {key : Key}
    (val : Option Value) (short : key.bytes.length < 2 ^ 32)
    (few : (contents.set key.bytes val).keys.card < 2 ^ 31) :
    ∃ ht' chains' deleted', hashSet func ht key val = some ht' ∧
      Represents func ht' (contents.set key.bytes val) chains' deleted' := by
  have layout := represents.layout
  obtain ⟨before, after, parts, found, head, absent, isKey⟩ :=
    find_spec layout represents.stores short
  cases after with
  | nil =>
    have new := absent rfl
    rw [List.append_nil] at parts
    cases val with
    | none =>
      have same : contents.set key.bytes none = contents := by
        apply Finmap.ext_lookup
        intro other
        by_cases equal : other = key.bytes
        · rw [equal, Contents.set, Finmap.lookup_erase, Finmap.lookup_eq_none.mpr new]
        · rw [Contents.set, Finmap.lookup_erase_ne equal]
      rw [same]
      exact ⟨ht, chains, deleted, (hashSet_of_read_zero found head).1, represents⟩
    | some val =>
      rw [Contents.set, keys_insert,
        Finset.card_insert_of_notMem (Finmap.mem_keys.not.mpr new)] at few
      exact insert_represents represents val short new few found head (by rw [parts])
  | cons node rest =>
    have linked : Linked chains node :=
      ⟨_, parts ▸ List.mem_append_right before List.mem_cons_self⟩
    have nonzero : node ≠ 0 := by
      rintro rfl
      obtain ⟨slot, member⟩ := linked
      exact (layout.chain slot).zero_notMem member
    have keyEq := isKey node rfl
    obtain ⟨deletes, overwrites⟩ := hashSet_of_read nonzero found head
    cases val with
    | none =>
      have removed := delete_represents represents parts
      rw [keyEq] at removed
      exact ⟨_, _, _, deletes, removed⟩
    | some val =>
      have replaced := overwrite_represents represents linked val
      rw [keyEq] at replaced
      have fits : ¬ht.max < ht.count := by
        rw [UInt32.lt_iff_toNat_lt, Nat.not_lt]
        exact represents.count_le
      exact ⟨_, chains, deleted, (overwrites val).trans (if_neg fits), replaced⟩

end Set

end Hash

end Fbbs
