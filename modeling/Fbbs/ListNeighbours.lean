import Mathlib.Data.List.Basic
import Mathlib.Data.List.Nodup

/-!
# Neighbours in a list

A doubly linked list as the list of its nodes, without duplicates: the neighbours of a node, a
new node behind another, and the node so many places further on.
-/

namespace ListNeighbours

variable {α : Type*} [DecidableEq α]

/-- The node behind this one. -/
def next : List α → α → Option α
  | first :: second :: rest, node =>
    if first = node then some second else next (second :: rest) node
  | _, _ => none

/-- The node before this one. -/
def prev : List α → α → Option α
  | first :: second :: rest, node =>
    if second = node then some first else prev (second :: rest) node
  | _, _ => none

def insertAfter (node new : α) : List α → List α
  | [] => []
  | first :: rest => if first = node then first :: new :: rest else first :: insertAfter node new rest

/-- The node so many places behind this one. -/
def walk (list : List α) : Nat → α → Option α
  | 0, node => some node
  | n + 1, node => (next list node).bind (walk list n)

section Lemmas

variable {front rest : List α} {node other new : α}

theorem next_cons_of_ne (ne : other ≠ node) (list : List α) :
    next (other :: list) node = next list node := by
  cases list with
  | nil => rfl
  | cons second rest => exact if_neg ne

theorem next_append (absent : node ∉ front) :
    next (front ++ node :: other :: rest) node = some other := by
  induction front with
  | nil => exact if_pos rfl
  | cons first front ih =>
    obtain ⟨ne, absent⟩ := List.ne_and_not_mem_of_not_mem_cons absent
    rw [List.cons_append, next_cons_of_ne (Ne.symm ne)]
    exact ih absent

theorem prev_cons_of_ne {second : α} (ne : second ≠ node) (first : α) (list : List α) :
    prev (first :: second :: list) node = prev (second :: list) node :=
  if_neg ne

theorem prev_append (absent : node ∉ front) (ne : other ≠ node) :
    prev (front ++ other :: node :: rest) node = some other := by
  induction front with
  | nil => exact if_pos rfl
  | cons first front ih =>
    obtain ⟨-, absent⟩ := List.ne_and_not_mem_of_not_mem_cons absent
    cases front with
    | nil =>
      rw [List.cons_append, List.nil_append, prev_cons_of_ne ne]
      exact if_pos rfl
    | cons second front =>
      obtain ⟨ne', -⟩ := List.ne_and_not_mem_of_not_mem_cons absent
      rw [List.cons_append, List.cons_append, prev_cons_of_ne (Ne.symm ne')]
      exact ih absent

theorem insertAfter_append (absent : node ∉ front) :
    insertAfter node new (front ++ node :: rest) = front ++ node :: new :: rest := by
  induction front with
  | nil => exact if_pos rfl
  | cons first front ih =>
    obtain ⟨ne, absent⟩ := List.ne_and_not_mem_of_not_mem_cons absent
    rw [List.cons_append, insertAfter, if_neg (Ne.symm ne), ih absent]
    rfl

theorem erase_append (absent : node ∉ front) :
    (front ++ node :: rest).erase node = front ++ rest := by
  rw [List.erase_append_right _ absent, List.erase_cons_head]

end Lemmas

/-! ## By position -/

section Positions

variable {list : List α} {node new : α}

omit [DecidableEq α] in
theorem ne_head_of_getElem? {first : α} {i : Nat} (nodup : (first :: list).Nodup)
    (here : list[i]? = some node) : first ≠ node := by
  rintro rfl
  exact (List.nodup_cons.1 nodup).1 (List.mem_of_getElem? here)

theorem next_eq_getElem? {i : Nat} (nodup : list.Nodup) (here : list[i]? = some node) :
    next list node = list[i + 1]? := by
  induction list generalizing i with
  | nil => rfl
  | cons first rest ih =>
    cases i with
    | zero =>
      obtain rfl := Option.some.inj here
      cases rest with
      | nil => rfl
      | cons second rest => exact if_pos rfl
    | succ i =>
      rw [next_cons_of_ne (ne_head_of_getElem? nodup here)]
      exact ih (List.nodup_cons.1 nodup).2 here

theorem prev_eq_getElem? {i : Nat} (nodup : list.Nodup) (here : list[i + 1]? = some node) :
    prev list node = list[i]? := by
  induction list generalizing i with
  | nil => rfl
  | cons first rest ih =>
    cases rest with
    | nil => exact absurd here (by simp)
    | cons second rest =>
      cases i with
      | zero =>
        obtain rfl := Option.some.inj here
        exact if_pos rfl
      | succ i =>
        have other := ne_head_of_getElem? (List.nodup_cons.1 nodup).2 here
        rw [prev_cons_of_ne other]
        exact ih (List.nodup_cons.1 nodup).2 here

theorem walk_eq_getElem? {i n : Nat} (nodup : list.Nodup) (here : list[i]? = some node)
    (inside : i + n < list.length) : walk list n node = list[i + n]? := by
  induction n generalizing i node with
  | zero => exact here.symm
  | succ n ih =>
    have within : i + 1 < list.length := by omega
    rw [walk, next_eq_getElem? nodup here, List.getElem?_eq_getElem within, Option.bind_some,
      ih (List.getElem?_eq_getElem within) (by omega)]
    congr 1
    omega

theorem getElem?_insertAfter {i : Nat} (nodup : list.Nodup) (here : list[i]? = some node)
    (j : Nat) : (insertAfter node new list)[j]? =
      if j ≤ i then list[j]? else if j = i + 1 then some new else list[j - 1]? := by
  induction list generalizing i j with
  | nil => exact absurd here (by simp)
  | cons first rest ih =>
    cases i with
    | zero =>
      obtain rfl := Option.some.inj here
      rw [insertAfter, if_pos rfl]
      cases j with
      | zero => rfl
      | succ j =>
        cases j with
        | zero => rfl
        | succ j => rw [if_neg (by omega), if_neg (by omega)]; rfl
    | succ i =>
      rw [insertAfter, if_neg (ne_head_of_getElem? nodup here)]
      cases j with
      | zero => rfl
      | succ j =>
        rw [List.getElem?_cons_succ, ih (List.nodup_cons.1 nodup).2 here]
        split_ifs with upTo here next here' next'
        · rfl
        · omega
        · omega
        · omega
        · rfl
        · omega
        · omega
        · omega
        · obtain ⟨k, rfl⟩ : ∃ k, j = k + 1 := ⟨j - 1, by omega⟩
          rfl

theorem getElem?_erase {i : Nat} (nodup : list.Nodup) (here : list[i]? = some node) (j : Nat) :
    (list.erase node)[j]? = if j < i then list[j]? else list[j + 1]? := by
  induction list generalizing i j with
  | nil => exact absurd here (by simp)
  | cons first rest ih =>
    cases i with
    | zero =>
      obtain rfl := Option.some.inj here
      rw [List.erase_cons_head, if_neg (Nat.not_lt_zero j)]
      rfl
    | succ i =>
      rw [List.erase_cons_tail (by simpa using ne_head_of_getElem? nodup here)]
      cases j with
      | zero => rw [if_pos (Nat.succ_pos i)]; rfl
      | succ j =>
        rw [List.getElem?_cons_succ, ih (List.nodup_cons.1 nodup).2 here]
        split_ifs with below below' below'
        · rfl
        · omega
        · omega
        · rfl

theorem mem_of_mem_insertAfter {other : α} (member : other ∈ insertAfter node new list) :
    other = new ∨ other ∈ list := by
  induction list with
  | nil => exact absurd member List.not_mem_nil
  | cons first rest ih =>
    rw [insertAfter] at member
    split_ifs at member
    · rw [List.mem_cons, List.mem_cons] at member
      rw [List.mem_cons]
      tauto
    · obtain rfl | further := List.mem_cons.1 member
      · exact Or.inr List.mem_cons_self
      · exact (ih further).imp_right (List.mem_cons_of_mem _)

theorem nodup_insertAfter (nodup : list.Nodup) (absent : new ∉ list) :
    (insertAfter node new list).Nodup := by
  induction list with
  | nil => exact List.nodup_nil
  | cons first rest ih =>
    obtain ⟨ne, absent⟩ := List.ne_and_not_mem_of_not_mem_cons absent
    obtain ⟨fresh, nodup⟩ := List.nodup_cons.1 nodup
    rw [insertAfter]
    split_ifs
    · rw [List.nodup_cons, List.nodup_cons, List.mem_cons, not_or]
      exact ⟨⟨Ne.symm ne, fresh⟩, absent, nodup⟩
    · rw [List.nodup_cons]
      refine ⟨fun member => ?_, ih nodup absent⟩
      obtain rfl | member := mem_of_mem_insertAfter member
      · exact ne rfl
      · exact fresh member

end Positions

end ListNeighbours
