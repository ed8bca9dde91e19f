import Mathlib.Algebra.BigOperators.Group.List.Basic
import Mathlib.Algebra.GroupWithZero.Nat
import Mathlib.Data.List.Basic
import Mathlib.Data.List.Dedup
import Mathlib.Data.List.Induction
import Mathlib.Data.List.Perm.Basic

/-!
# Tables with an entry for each group of items

A table is searched for the entry of an item, which is counted there; an item that has no entry
gets a new one at the end.  If every search finds the entry of the item's group, the entries
stand for the groups.  A measure of the entries that grows with every item that is counted
has the same sum, however the searches end.
-/

namespace GroupedTable

variable {Item Entry Key : Type*}

/-- How items get into a table. -/
structure Scheme (Item Entry : Type*) where
  search : List Entry → Item → Option Nat
  fresh : Item → Entry
  count : Item → Entry → Entry
  inside : ∀ {table item i}, search table item = some i → i < table.length

namespace Scheme

variable (scheme : Scheme Item Entry)

def put (table : List Entry) (item : Item) : List Entry :=
  match scheme.search table item with
  | some i => table.modify i (scheme.count item)
  | none => table ++ [scheme.count item (scheme.fresh item)]

def table (items : List Item) : List Entry :=
  items.foldl scheme.put []

variable {scheme}

theorem put_of_some {table : List Entry} {item : Item} {i : Nat}
    (found : scheme.search table item = some i) :
    scheme.put table item = table.modify i (scheme.count item) := by
  rw [put, found]

theorem put_of_none {table : List Entry} {item : Item} (missing : scheme.search table item = none) :
    scheme.put table item = table ++ [scheme.count item (scheme.fresh item)] := by
  rw [put, missing]

theorem table_append (items : List Item) (item : Item) :
    scheme.table (items ++ [item]) = scheme.put (scheme.table items) item := by
  rw [table, List.foldl_append]
  rfl

/-- What holds of a table and the items in it, from the first item to the last. -/
theorem table_induction (holds : List Item → List Entry → Prop) (start : holds [] [])
    {items : List Item}
    (puts : ∀ before item after, items = before ++ item :: after →
      holds before (scheme.table before) →
        holds (before ++ [item]) (scheme.put (scheme.table before) item)) :
    holds items (scheme.table items) := by
  suffices whole : ∀ before after, items = before ++ after → holds before (scheme.table before) by
    exact whole items [] (List.append_nil items).symm
  intro before
  induction before using List.reverseRecOn with
  | nil => exact fun _ _ => start
  | append_singleton before item ih =>
    intro after split
    rw [List.append_assoc, List.singleton_append] at split
    rw [table_append]
    exact puts before item after split (ih (item :: after) split)

/-! ## Measures -/

section Measures

variable {size : Entry → Nat} {weight : Item → Nat}

/-- The measure of an entry grows by the weight of each item in it. -/
structure Weighs (scheme : Scheme Item Entry) (size : Entry → Nat) (weight : Item → Nat) :
    Prop where
  fresh : ∀ item, size (scheme.fresh item) = 0
  count : ∀ item entry, size (scheme.count item entry) = size entry + weight item

theorem sum_modify (weighs : Weighs scheme size weight) {table : List Entry} (item : Item) {i : Nat}
    (inside : i < table.length) :
    ((table.modify i (scheme.count item)).map size).sum = (table.map size).sum + weight item := by
  induction table generalizing i with
  | nil => exact absurd inside (Nat.not_lt_zero i)
  | cons entry table ih =>
    cases i with
    | zero =>
      rw [List.modify_zero_cons, List.map_cons, List.map_cons, List.sum_cons, List.sum_cons,
        weighs.count]
      omega
    | succ i =>
      rw [List.modify_succ_cons, List.map_cons, List.map_cons, List.sum_cons, List.sum_cons,
        ih (Nat.lt_of_succ_lt_succ inside)]
      omega

theorem sum_put (weighs : Weighs scheme size weight) (table : List Entry) (item : Item) :
    ((scheme.put table item).map size).sum = (table.map size).sum + weight item := by
  cases found : scheme.search table item with
  | some i =>
    rw [put_of_some found]
    exact sum_modify weighs item (scheme.inside found)
  | none =>
    rw [put_of_none found]
    simp [weighs.count, weighs.fresh]

/-- Every item is counted once. -/
theorem sum_table (weighs : Weighs scheme size weight) (items : List Item) :
    ((scheme.table items).map size).sum = (items.map weight).sum := by
  induction items using List.reverseRecOn with
  | nil => rfl
  | append_singleton items item ih =>
    rw [table_append, sum_put weighs, ih]
    simp

end Measures

/-! ## Groups -/

section Groups

variable {key : Item → Key} {keyOf : Entry → Key}

/-- A new entry is for the group of its item, and counting does not change that. -/
structure Keyed (scheme : Scheme Item Entry) (key : Item → Key) (keyOf : Entry → Key) :
    Prop where
  fresh : ∀ item, keyOf (scheme.fresh item) = key item
  count : ∀ item entry, keyOf (scheme.count item entry) = keyOf entry

/-- The search ends at the entry of the item's group, or there is none. -/
def Directed (scheme : Scheme Item Entry) (key : Item → Key) (keyOf : Entry → Key)
    (table : List Entry) (item : Item) : Prop :=
  match scheme.search table item with
  | some i => ∃ entry, table[i]? = some entry ∧ keyOf entry = key item
  | none => key item ∉ table.map keyOf

structure Groups (key : Item → Key) (keyOf : Entry → Key) (items : List Item)
    (table : List Entry) : Prop where
  once : (table.map keyOf).Nodup
  complete : ∀ group, group ∈ table.map keyOf ↔ ∃ item ∈ items, key item = group

theorem map_modify (keyed : Keyed scheme key keyOf) (table : List Entry) (item : Item) (i : Nat) :
    (table.modify i (scheme.count item)).map keyOf = table.map keyOf := by
  apply List.ext_getElem?
  intro j
  rw [List.getElem?_map, List.getElem?_map, List.getElem?_modify]
  cases table[j]? with
  | none => rfl
  | some entry =>
    by_cases here : i = j
    · simp [here, keyed.count]
    · simp [here]

theorem map_put (keyed : Keyed scheme key keyOf) (table : List Entry) (item : Item) :
    (scheme.put table item).map keyOf =
      table.map keyOf ++ if scheme.search table item = none then [key item] else [] := by
  cases found : scheme.search table item with
  | some i =>
    rw [put_of_some found, map_modify keyed]
    simp
  | none =>
    rw [put_of_none found]
    simp [keyed.count, keyed.fresh]

theorem groups_put (keyed : Keyed scheme key keyOf) {items : List Item} {table : List Entry}
    {item : Item} (groups : Groups key keyOf items table)
    (directed : Directed scheme key keyOf table item) :
    Groups key keyOf (items ++ [item]) (scheme.put table item) := by
  rw [Directed] at directed
  constructor
  · rw [map_put keyed]
    cases found : scheme.search table item with
    | some i => simpa using groups.once
    | none =>
      rw [found] at directed
      rw [if_pos rfl]
      exact List.nodup_append'.mpr
        ⟨groups.once, List.nodup_singleton _, List.disjoint_singleton.mpr directed⟩
  · intro group
    rw [map_put keyed, List.mem_append, groups.complete]
    cases found : scheme.search table item with
    | some i =>
      rw [found] at directed
      obtain ⟨entry, here, same⟩ := directed
      have known : key item ∈ table.map keyOf :=
        same ▸ List.mem_map_of_mem (List.mem_of_getElem? here)
      obtain ⟨other, member, alike⟩ := (groups.complete _).mp known
      simp only [reduceCtorEq, if_false, List.not_mem_nil, or_false, List.mem_append,
        List.mem_singleton]
      constructor
      · rintro ⟨other, member, alike⟩
        exact ⟨other, .inl member, alike⟩
      · rintro ⟨other', member' | rfl, alike'⟩
        · exact ⟨other', member', alike'⟩
        · exact ⟨other, member, alike.trans alike'⟩
    | none =>
      simp only [if_true, List.mem_singleton, List.mem_append]
      constructor
      · rintro (⟨other, member, alike⟩ | rfl)
        · exact ⟨other, .inl member, alike⟩
        · exact ⟨item, .inr rfl, rfl⟩
      · rintro ⟨other, member | rfl, alike⟩
        · exact .inl ⟨other, member, alike⟩
        · exact .inr alike.symm

variable [DecidableEq Key]

/-- The weights of the items of a group. -/
def weightOf (key : Item → Key) (weight : Item → Nat) (items : List Item) (group : Key) : Nat :=
  ((items.filter fun item => decide (key item = group)).map weight).sum

theorem weightOf_append (key : Item → Key) (weight : Item → Nat) (items : List Item) (item : Item)
    (group : Key) :
    weightOf key weight (items ++ [item]) group =
      weightOf key weight items group + if key item = group then weight item else 0 := by
  rw [weightOf, weightOf, List.filter_append, List.map_append, List.sum_append]
  by_cases same : key item = group <;> simp [same]

theorem weightOf_eq_zero {weight : Item → Nat} {items : List Item} {group : Key}
    (unknown : ¬∃ item ∈ items, key item = group) : weightOf key weight items group = 0 := by
  have none : items.filter (fun item => decide (key item = group)) = [] := by
    rw [List.filter_eq_nil_iff]
    intro item member same
    exact unknown ⟨item, member, of_decide_eq_true same⟩
  rw [weightOf, none]
  rfl

theorem weighs_put {size : Entry → Nat} {weight : Item → Nat}
    (weighs : Weighs scheme size weight) (keyed : Keyed scheme key keyOf) {items : List Item}
    {table : List Entry} {item : Item} (groups : Groups key keyOf items table)
    (directed : Directed scheme key keyOf table item)
    (right : ∀ entry ∈ table, size entry = weightOf key weight items (keyOf entry)) :
    ∀ entry ∈ scheme.put table item,
      size entry = weightOf key weight (items ++ [item]) (keyOf entry) := by
  intro entry member
  rw [weightOf_append]
  rw [Directed] at directed
  cases found : scheme.search table item with
  | some i =>
    rw [found] at directed
    obtain ⟨own, here, same⟩ := directed
    rw [put_of_some found] at member
    obtain ⟨j, isEntry⟩ := List.mem_iff_getElem?.mp member
    rw [List.getElem?_modify] at isEntry
    obtain ⟨before, there, changed⟩ := Option.map_eq_some_iff.mp isEntry
    by_cases index : i = j
    · rw [← index, here] at there
      obtain rfl := Option.some.inj there
      rw [if_pos index] at changed
      rw [← changed, keyed.count, weighs.count, if_pos same.symm,
        right own (List.mem_of_getElem? here)]
    · rw [if_neg index] at changed
      obtain rfl : before = entry := changed
      have other : keyOf before ≠ key item := by
        intro alike
        apply index
        have inside := (List.getElem?_eq_some_iff.mp here).1
        have sameKey : (table.map keyOf)[i]? = (table.map keyOf)[j]? := by
          rw [List.getElem?_map, List.getElem?_map, here, there, Option.map_some, Option.map_some,
            same, alike]
        exact (List.getElem?_inj (by rwa [List.length_map]) groups.once).mp sameKey
      rw [if_neg other.symm, Nat.add_zero, right before (List.mem_of_getElem? there)]
  | none =>
    rw [found] at directed
    rw [put_of_none found, List.mem_append, List.mem_singleton] at member
    rcases member with old | rfl
    · have other : key item ≠ keyOf entry :=
        fun same => directed (same ▸ List.mem_map_of_mem old)
      rw [if_neg other, Nat.add_zero, right entry old]
    · rw [keyed.count, keyed.fresh, weighs.count, weighs.fresh, if_pos rfl,
        weightOf_eq_zero fun known => directed ((groups.complete _).mpr known)]

/-- There are as many entries as groups. -/
theorem Groups.length_eq {items : List Item} {table : List Entry}
    (groups : Groups key keyOf items table) : table.length = (items.map key).dedup.length := by
  have same : (table.map keyOf).Perm (items.map key).dedup := by
    refine (List.perm_ext_iff_of_nodup groups.once (List.nodup_dedup _)).mpr fun group => ?_
    rw [groups.complete, List.mem_dedup, List.mem_map]
  rw [← same.length_eq, List.length_map]

end Groups

end Scheme

end GroupedTable
