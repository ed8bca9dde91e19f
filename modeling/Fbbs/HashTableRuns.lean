import Fbbs.HashTableRefinement

/-!
# Sequences of calls on a hash table

After every sequence of calls of `hash_set` the table answers like a finite map,
and an iteration visits its keys.  Sizes are unsigned integers of 32 bits: an
array of `2 ^ 32` slots is allocated with none, and the length of a key of
`2 ^ 32` bytes is zero.
-/

namespace Fbbs

namespace Hash

open LinkedChains TransitionRuns

variable {Value : Type} {func : HashFunc} {ht : Table Value} {contents : Contents Value}
  {chains : Nat → List Nat} {deleted : List Nat}

section Iteration

/-- The entries that an iterator has not visited: the rest of a chain, and the
chains of the later slots. -/
def Remaining (ht : Table Value) (chains : Nat → List Nat) (next : Nat) (index : UInt32)
    (nodes : List Nat) : Prop :=
  index.toNat ≤ ht.slots ∧ ∃ front, Chain ht.link next front ∧
    nodes = front ++ (List.range' index.toNat (ht.slots - index.toNat)).flatMap chains

/-- The loop of `hash_next` finds the next entry. -/
theorem nextLoop_spec (represents : Represents func ht contents chains deleted) {entry : Nat}
    {index : UInt32} {nodes : List Nat} (remaining : Remaining ht chains entry index nodes)
    {fuel : Nat} (enough : ht.slots - index.toNat + 1 < fuel) :
    (nodes = [] → ht.nextLoop fuel entry index = some none) ∧
      ∀ node more, nodes = node :: more →
        ∃ index', ht.nextLoop fuel entry index = some (some (node, index')) ∧
          Remaining ht chains (ht.link node) index' more := by
  induction fuel generalizing entry index nodes with
  | zero => exact absurd enough (Nat.not_lt_zero _)
  | succ fuel ih =>
    obtain ⟨inside, front, chain, rfl⟩ := remaining
    cases chain with
    | cons nonzero rest =>
      refine ⟨fun empty => absurd empty (List.cons_ne_nil _ _), ?_⟩
      intro node more parts
      obtain ⟨rfl, rfl⟩ := List.cons.inj parts
      exact ⟨index, if_pos nonzero, inside, _, rest, rfl⟩
    | nil =>
      rw [Table.nextLoop, if_neg (by simp), List.nil_append]
      have slots := represents.layout.slots_eq
      by_cases ended : ht.max < index
      · rw [if_pos ended]
        rw [UInt32.lt_iff_toNat_lt] at ended
        have none : ht.slots - index.toNat = 0 := by omega
        rw [none]
        exact ⟨fun _ => rfl, fun node more parts => absurd parts.symm (List.cons_ne_nil _ _)⟩
      · rw [UInt32.lt_iff_toNat_lt, Nat.not_lt] at ended
        have inArray : index.toNat < ht.slots := by omega
        have next : (index + 1).toNat = index.toNat + 1 := by
          apply toNat_add_one
          have max := represents.max_lt
          omega
        rw [if_neg (by rw [UInt32.lt_iff_toNat_lt]; omega), if_pos inArray]
        -- The slot at the index is the next one to be read.
        have split : (List.range' index.toNat (ht.slots - index.toNat)).flatMap chains =
            chains index.toNat ++
              (List.range' (index + 1).toNat (ht.slots - (index + 1).toNat)).flatMap
                chains := by
          have length : ht.slots - index.toNat = (ht.slots - (index + 1).toNat) + 1 := by
            omega
          rw [length, List.range'_succ, List.flatMap_cons, next]
        exact ih ⟨by omega, chains index.toNat, represents.layout.chain index.toNat, split⟩
          (by omega)

/-- The remaining entries are visited in order, and then the iteration stops. -/
theorem visit_remaining (represents : Represents func ht contents chains deleted) {iter : Iter}
    {nodes : List Nat} (remaining : Remaining ht chains iter.next iter.index nodes) {fuel : Nat}
    (enough : nodes.length ≤ fuel) :
    (hashNext ht iter).bind (visitFrom ht fuel) = some nodes := by
  have loopFuel : ∀ iter : Iter, ht.slots - iter.index.toNat + 1 < ht.slots + 2 := by
    intro iter
    omega
  induction nodes generalizing iter fuel with
  | nil =>
    rw [hashNext, (nextLoop_spec represents remaining (loopFuel iter)).1 rfl]
    cases fuel <;> rfl
  | cons node nodes ih =>
    obtain ⟨index, found, later⟩ :=
      (nextLoop_spec represents remaining (loopFuel iter)).2 node nodes rfl
    rw [List.length_cons] at enough
    obtain ⟨fuel, rfl⟩ := Nat.exists_eq_add_one_of_ne_zero (Nat.ne_zero_of_lt enough)
    have rest : (hashNext ht ⟨node, ht.link node, index⟩).bind (visitFrom ht fuel) =
        some nodes := ih later (Nat.le_of_succ_le_succ enough)
    rw [hashNext, found, Option.map_some, Option.map_some, Option.bind_some, visitFrom, rest]
    rfl

theorem iterate_eq (represents : Represents func ht contents chains deleted) {steps : Nat}
    (enough : ((List.range ht.slots).flatMap chains).length ≤ steps) :
    iterate ht steps = some ((List.range ht.slots).flatMap chains) := by
  apply visit_remaining represents _ enough
  refine ⟨Nat.zero_le _, [], .nil, ?_⟩
  rw [List.nil_append, List.range_eq_range']
  rfl

end Iteration

/-- The table answers like the map. -/
structure RefinesMap (func : HashFunc) (ht : Table Value) (contents : Contents Value) :
    Prop where
  get : ∀ key : Key, key.bytes.length < 2 ^ 32 →
    hashGet func ht key = some (contents.lookup key.bytes)
  count : ht.count.toNat = contents.keys.card
  placed : ∀ slot < ht.slots, ∃ nodes, Chain ht.link (ht.array slot) nodes ∧
    ∀ node ∈ nodes, ((ht.heap node).hash &&& ht.max).toNat = slot
  visits : ∃ nodes, iterate ht ht.count.toNat = some nodes ∧
    (nodes.map fun node => (ht.heap node).key).Nodup ∧
    ∀ key val, contents.lookup key = some val ↔
      ∃ node ∈ nodes, (ht.heap node).key = key ∧ (ht.heap node).val = val

theorem refinesMap_of_represents (represents : Represents func ht contents chains deleted) :
    RefinesMap func ht contents := by
  have layout := represents.layout
  have stores := represents.stores
  have linked : ∀ node, node ∈ (List.range ht.slots).flatMap chains ↔ Linked chains node :=
    fun node => layout.mem_entries
  have keysNodup : (((List.range ht.slots).flatMap chains).map
      fun node => (ht.heap node).key).Nodup := by
    apply (layout.entries_nodup _ List.nodup_range).map_on
    intro node member other member' same
    exact stores.distinct node other ((linked node).mp member) ((linked other).mp member') same
  have lookup : ∀ key val, contents.lookup key = some val ↔
      ∃ node ∈ (List.range ht.slots).flatMap chains,
        (ht.heap node).key = key ∧ (ht.heap node).val = val := by
    intro key val
    constructor
    · intro found
      obtain ⟨node, isLive, keyEq⟩ := stores.present key (Finmap.mem_of_lookup_eq_some found)
      have stored := stores.stored node isLive
      rw [keyEq, found, Option.some.injEq] at stored
      exact ⟨node, (linked node).mpr isLive, keyEq, stored.symm⟩
    · rintro ⟨node, member, rfl, rfl⟩
      exact stores.stored node ((linked node).mp member)
  have length : ((List.range ht.slots).flatMap chains).length = ht.count.toNat := by
    have keys : (((List.range ht.slots).flatMap chains).map
        fun node => (ht.heap node).key).toFinset = contents.keys := by
      ext key
      rw [List.mem_toFinset, List.mem_map, Finmap.mem_keys, Finmap.mem_iff]
      constructor
      · rintro ⟨node, member, keyEq⟩
        exact ⟨_, (lookup key _).mpr ⟨node, member, keyEq, rfl⟩⟩
      · rintro ⟨val, found⟩
        obtain ⟨node, member, keyEq, -⟩ := (lookup key val).mp found
        exact ⟨node, member, keyEq⟩
    rw [represents.count_eq, ← keys, List.toFinset_card_of_nodup keysNodup, List.length_map]
  refine ⟨fun key short => hashGet_eq_lookup represents short, represents.count_eq, ?_,
    _, iterate_eq represents length.le, keysNodup, lookup⟩
  exact fun slot _ => ⟨chains slot, layout.chain slot, layout.slot_eq slot⟩

/-- The last values that a sequence of calls has set. -/
def contentsOf (calls : List (Key × Option Value)) : Contents Value :=
  calls.foldl (fun contents call => contents.set call.1.bytes call.2) ∅

/-- Calls of `hash_set` in order. -/
def hashSets (func : HashFunc) (calls : List (Key × Option Value)) (ht : Table Value) :
    Option (Table Value) :=
  run (fun ht call => hashSet func ht call.1 call.2) calls ht

/-- A new table stands for the empty map. -/
theorem hashCreate_represents (func : HashFunc) {max : UInt32} (heap : Nat → Entry Value)
    (notWidest : max ≠ 4294967295) :
    Represents func (hashCreate max heap) ∅ (fun _ => []) [] := by
  have bound : (hashCreate max heap).max.toNat < 2 ^ 32 - 1 := by
    rw [hashCreate]
    dsimp only
    split
    · decide
    · have ne : max.toNat ≠ (4294967295 : UInt32).toNat :=
        fun same => notWidest (UInt32.toNat_inj.mp same)
      have lt := max.toNat_lt
      change max.toNat ≠ 4294967295 at ne
      omega
  refine ⟨⟨fun _ => .nil, .nil, ?_, ?_, ?_, ?_, Nat.one_pos, ?_⟩, ?_, rfl, Nat.zero_le _, bound⟩
  · exact fun slot node member => absurd member List.not_mem_nil
  · exact fun slot node member => absurd member List.not_mem_nil
  · exact fun slot node member => absurd member List.not_mem_nil
  · exact fun node member => absurd member List.not_mem_nil
  · apply toNat_add_one
    change (hashCreate max heap).max.toNat + 1 < 2 ^ 32
    omega
  · have noneLinked : ∀ node, ¬Linked (fun _ => []) node :=
      fun node linked => List.not_mem_nil linked.choose_spec
    exact ⟨fun node linked => absurd linked (noneLinked node),
      fun node linked => absurd linked (noneLinked node),
      fun node linked => absurd linked (noneLinked node),
      fun key member => absurd member Finmap.notMem_empty,
      fun node other linked => absurd linked (noneLinked node)⟩

/-- The run lemma: every call that is made with few live keys and a short key
leaves a table that stands for the map. -/
theorem hashSets_represents (func : HashFunc) {max : UInt32} (heap : Nat → Entry Value)
    (notWidest : max ≠ 4294967295) (calls : List (Key × Option Value))
    (short : ∀ call ∈ calls, call.1.bytes.length < 2 ^ 32)
    (few : ∀ first, first <+: calls → (contentsOf first).keys.card < 2 ^ 31) :
    ∃ ht chains deleted, hashSets func calls (hashCreate max heap) = some ht ∧
      Represents func ht (contentsOf calls) chains deleted := by
  induction calls using List.reverseRecOn with
  | nil => exact ⟨_, _, _, rfl, hashCreate_represents func heap notWidest⟩
  | append_singleton calls call ih =>
    obtain ⟨ht, chains, deleted, runs, represents⟩ :=
      ih (fun other member => short other (List.mem_append_left _ member))
        (fun first isPrefix => few first (isPrefix.trans (List.prefix_append calls [call])))
    have contentsEq : contentsOf (calls ++ [call]) =
        (contentsOf calls).set call.1.bytes call.2 := by
      rw [contentsOf, List.foldl_append]
      rfl
    have fewNow := few (calls ++ [call]) (List.prefix_refl _)
    rw [contentsEq] at fewNow ⊢
    obtain ⟨ht', chains', deleted', sets, represents'⟩ :=
      hashSet_represents represents call.2
        (short call (List.mem_append_right calls (List.mem_singleton_self call))) fewNow
    refine ⟨ht', chains', deleted', ?_, represents'⟩
    rw [hashSets, run_append]
    rw [hashSets] at runs
    rw [runs, Option.bind_some, run, sets]
    rfl

/-- Every sequence of calls refines a finite map, unless the array would have
`2 ^ 32` slots or a key has `2 ^ 32` bytes. -/
theorem hashSets_refinesMap (func : HashFunc) (max : UInt32) (heap : Nat → Entry Value)
    (notWidest : max ≠ 4294967295) (calls : List (Key × Option Value))
    (short : ∀ call ∈ calls, call.1.bytes.length < 2 ^ 32)
    (few : ∀ first, first <+: calls → (contentsOf first).keys.card < 2 ^ 31) :
    ∃ ht, hashSets func calls (hashCreate max heap) = some ht ∧
      RefinesMap func ht (contentsOf calls) := by
  obtain ⟨ht, chains, deleted, runs, represents⟩ :=
    hashSets_represents func heap notWidest calls short few
  exact ⟨ht, runs, refinesMap_of_represents represents⟩

theorem card_contentsOf_le (calls : List (Key × Option Value)) :
    (contentsOf calls).keys.card ≤ calls.length := by
  induction calls using List.reverseRecOn with
  | nil => exact Nat.le_refl 0
  | append_singleton calls call ih =>
    rw [contentsOf, List.foldl_append, ← contentsOf, List.length_append]
    change ((contentsOf calls).set call.1.bytes call.2).keys.card ≤ calls.length + 1
    cases call.2 with
    | none =>
      rw [Contents.set, Finmap.keys_erase]
      exact (Finset.card_erase_le.trans ih).trans (Nat.le_succ _)
    | some val =>
      rw [Contents.set, keys_insert]
      exact (Finset.card_insert_le _ _).trans (Nat.succ_le_succ ih)

/-- Three keys in a table of two slots, one of which is deleted and set again. -/
def sampleCalls : List (Key × Option Nat) :=
  [(.string (.ofBytes [97]), some 1), (.sized [98] (by decide), some 2),
    (.sized [97] (by decide), none), (.string (.ofBytes [99]), some 3),
    (.string (.ofBytes [97]), some 4)]

theorem hashSets_refinesMap_sample :
    ∃ ht, hashSets hashFuncDefault sampleCalls (hashCreate 1 fun _ => ⟨0, [], 0, 0, 0⟩) =
      some ht ∧ RefinesMap hashFuncDefault ht (contentsOf sampleCalls) := by
  apply hashSets_refinesMap hashFuncDefault 1 _ (by decide) sampleCalls (by decide)
  intro first isPrefix
  calc
    (contentsOf first).keys.card ≤ first.length := card_contentsOf_le first
    _ ≤ sampleCalls.length := isPrefix.length_le
    _ < 2 ^ 31 := by decide

/-- The greatest size that can be asked for gives an array without slots. -/
theorem hashSets_widest_not_refinesMap :
    (4294967295 : UInt32).toNat = 2 ^ 32 - 1 ∧
      hashSets hashFuncDefault [(.string (.ofBytes [97]), some 1)]
        (hashCreate 4294967295 fun _ => (⟨0, [], 0, 0, 0⟩ : Entry Nat)) = none ∧
      ¬∃ ht, hashSets hashFuncDefault [(.string (.ofBytes [97]), some 1)]
        (hashCreate 4294967295 fun _ => (⟨0, [], 0, 0, 0⟩ : Entry Nat)) = some ht ∧
        RefinesMap hashFuncDefault ht (contentsOf [(.string (.ofBytes [97]), some 1)]) := by
  have outside : hashSets hashFuncDefault [(.string (.ofBytes [97]), some 1)]
      (hashCreate 4294967295 fun _ => (⟨0, [], 0, 0, 0⟩ : Entry Nat)) = none := rfl
  refine ⟨rfl, outside, ?_⟩
  rintro ⟨ht, runs, -⟩
  rw [outside] at runs
  exact Option.some_ne_none ht runs.symm

end Hash

end Fbbs
