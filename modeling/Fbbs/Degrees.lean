import Mathlib.Data.Finset.Card
import Mathlib.Data.Finset.Prod

/-!
# Degrees in a finite relation

How many pairs of a relation begin or end with an element, how many of the pairs that end with it
are there in both directions, and how these numbers change with one pair.
-/

namespace Degrees

variable {α : Type*} [DecidableEq α]

/-- The pairs that begin with the element. -/
def inDegree (relation : Finset (α × α)) (element : α) : Nat :=
  (relation.filter fun pair => pair.1 = element).card

/-- The pairs that end with the element. -/
def outDegree (relation : Finset (α × α)) (element : α) : Nat :=
  (relation.filter fun pair => pair.2 = element).card

/-- The others that are related to the element in both directions. -/
def mutualDegree (relation : Finset (α × α)) (element : α) : Nat :=
  (relation.filter fun pair =>
    pair.2 = element ∧ pair.1 ≠ element ∧ pair.swap ∈ relation).card

variable {relation : Finset (α × α)} {first second : α}

theorem inDegree_insert (new : (first, second) ∉ relation) (element : α) :
    inDegree (insert (first, second) relation) element =
      inDegree relation element + if first = element then 1 else 0 := by
  rw [inDegree, Finset.filter_insert]
  split
  · rw [Finset.card_insert_of_notMem fun member => new (Finset.mem_filter.mp member).1]
    rfl
  · rfl

theorem outDegree_insert (new : (first, second) ∉ relation) (element : α) :
    outDegree (insert (first, second) relation) element =
      outDegree relation element + if second = element then 1 else 0 := by
  rw [outDegree, Finset.filter_insert]
  split
  · rw [Finset.card_insert_of_notMem fun member => new (Finset.mem_filter.mp member).1]
    rfl
  · rfl

/-- A pair makes a mutual one if it is there the other way round. -/
theorem mutualDegree_insert (new : (first, second) ∉ relation) (element : α) :
    mutualDegree (insert (first, second) relation) element = mutualDegree relation element +
      if (second, first) ∈ relation ∧ first ≠ second ∧ (element = first ∨ element = second)
        then 1 else 0 := by
  let others := relation.filter fun pair =>
    pair.2 = element ∧ pair.1 ≠ element ∧ pair.swap ∈ relation
  by_cases joined :
      (second, first) ∈ relation ∧ first ≠ second ∧ (element = first ∨ element = second)
  · obtain ⟨back, apart, ends⟩ := joined
    let partner := if element = first then second else first
    have added : (insert (first, second) relation).filter (fun pair =>
        pair.2 = element ∧ pair.1 ≠ element ∧ pair.swap ∈ insert (first, second) relation) =
        insert (partner, element) others := by
      ext ⟨left, right⟩
      rcases ends with rfl | rfl <;>
        simp only [partner, others, Finset.mem_filter, Finset.mem_insert, Prod.mk.injEq,
          Prod.swap_prod_mk] <;> grind
    have fresh : (partner, element) ∉ others := by
      intro member
      rcases ends with rfl | rfl <;>
        simp only [partner, others, Finset.mem_filter, Prod.swap_prod_mk] at member <;> grind
    rw [mutualDegree, added, Finset.card_insert_of_notMem fresh, if_pos ⟨back, apart, ends⟩]
    rfl
  · have same : (insert (first, second) relation).filter (fun pair =>
        pair.2 = element ∧ pair.1 ≠ element ∧ pair.swap ∈ insert (first, second) relation) =
        others := by
      ext ⟨left, right⟩
      simp only [others, Finset.mem_filter, Finset.mem_insert, Prod.mk.injEq, Prod.swap_prod_mk]
      grind
    rw [mutualDegree, same, if_neg joined]
    rfl

theorem inDegree_erase (old : (first, second) ∈ relation) (element : α) :
    inDegree relation element = inDegree (relation.erase (first, second)) element +
      if first = element then 1 else 0 := by
  rw [← inDegree_insert (Finset.notMem_erase _ _), Finset.insert_erase old]

theorem outDegree_erase (old : (first, second) ∈ relation) (element : α) :
    outDegree relation element = outDegree (relation.erase (first, second)) element +
      if second = element then 1 else 0 := by
  rw [← outDegree_insert (Finset.notMem_erase _ _), Finset.insert_erase old]

theorem mutualDegree_erase (old : (first, second) ∈ relation) (element : α) :
    mutualDegree relation element = mutualDegree (relation.erase (first, second)) element +
      if (second, first) ∈ relation ∧ first ≠ second ∧ (element = first ∨ element = second)
        then 1 else 0 := by
  have added := mutualDegree_insert (Finset.notMem_erase (first, second) relation) element
  rw [Finset.insert_erase old] at added
  rw [added]
  congr 2
  rw [Finset.mem_erase, eq_iff_iff]
  constructor
  · exact fun ⟨inside, rest⟩ => ⟨inside.2, rest⟩
  · rintro ⟨inside, apart, ends⟩
    exact ⟨⟨fun same => apart (Prod.mk.inj same).2, inside⟩, apart, ends⟩

end Degrees
