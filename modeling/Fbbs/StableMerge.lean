import Mathlib.Data.List.Induction
import Mathlib.Data.List.Sort

/-!
# Merging from the ends

Two sorted lists are merged by taking the larger of their last elements, the one of the
second list if the order does not tell them apart.  The result is sorted, and elements of
the first list stand before those of the second list that have the same place in the order.
-/

namespace StableMerge

variable {α : Type*} (le : α → α → Bool)

/-- The merge of two lists from their ends. -/
def fromEnd (first second : List α) : List α :=
  (List.merge second.reverse first.reverse fun y x => le x y).reverse

/-- The elements that the order does not tell apart from a given one. -/
def alike (key item : α) : Bool :=
  le key item && le item key

variable {le}

theorem fromEnd_nil_left (second : List α) : fromEnd le [] second = second := by
  rw [fromEnd, List.reverse_nil, List.merge_right, List.reverse_reverse]

theorem fromEnd_nil_right (first : List α) : fromEnd le first [] = first := by
  rw [fromEnd, List.reverse_nil, List.nil_merge, List.reverse_reverse]

/-- The last element of the second list comes last. -/
theorem fromEnd_second {first second : List α} {x y : α} (last : le x y = true) :
    fromEnd le (first ++ [x]) (second ++ [y]) = fromEnd le (first ++ [x]) second ++ [y] := by
  unfold fromEnd
  rw [List.reverse_concat, List.reverse_concat, List.cons_merge_cons, if_pos last,
    List.reverse_cons]

/-- The last element of the first list comes last. -/
theorem fromEnd_first {first second : List α} {x y : α} (larger : ¬le x y = true) :
    fromEnd le (first ++ [x]) (second ++ [y]) = fromEnd le first (second ++ [y]) ++ [x] := by
  unfold fromEnd
  rw [List.reverse_concat, List.reverse_concat, List.cons_merge_cons, if_neg larger,
    List.reverse_cons]

theorem fromEnd_perm (first second : List α) :
    (fromEnd le first second).Perm (first ++ second) := by
  unfold fromEnd
  calc
    (List.merge second.reverse first.reverse fun y x => le x y).reverse.Perm
        (List.merge second.reverse first.reverse fun y x => le x y) := List.reverse_perm _
    _ |>.Perm (second.reverse ++ first.reverse) := List.merge_perm_append _
    _ |>.Perm (first ++ second) := by
      rw [← List.reverse_append]
      exact List.reverse_perm _

section Order

variable (trans : ∀ a b c, le a b = true → le b c = true → le a c = true)
  (total : ∀ a b, le a b = true ∨ le b a = true)

include trans total

theorem fromEnd_sorted {first second : List α} (sorted : first.Pairwise (le · · = true))
    (sorted' : second.Pairwise (le · · = true)) :
    (fromEnd le first second).Pairwise (le · · = true) := by
  unfold fromEnd
  rw [List.pairwise_reverse]
  apply List.pairwise_merge
  · intro a b c ba cb
    exact trans c b a cb ba
  · intro a b
    rw [Bool.or_eq_true]
    exact total b a
  · rw [List.pairwise_reverse]
    exact sorted'
  · rw [List.pairwise_reverse]
    exact sorted

/-- Where the order does not tell elements apart, those of the first list come first. -/
theorem filter_fromEnd {first second : List α} (sorted : second.Pairwise (le · · = true))
    (key : α) :
    (fromEnd le first second).filter (alike le key) =
      first.filter (alike le key) ++ second.filter (alike le key) := by
  induction first using List.reverseRecOn generalizing second with
  | nil => rw [fromEnd_nil_left, List.filter_nil, List.nil_append]
  | append_singleton first x ihFirst =>
    induction second using List.reverseRecOn with
    | nil => rw [fromEnd_nil_right, List.filter_nil, List.append_nil]
    | append_singleton second y ihSecond =>
      have before := (List.pairwise_append.mp sorted)
      by_cases last : le x y = true
      · rw [fromEnd_second last, List.filter_append, ihSecond before.1,
          List.filter_append second, List.append_assoc]
      · rw [fromEnd_first last, List.filter_append, ihFirst sorted,
          List.filter_append first]
        by_cases same : alike le key x = true
        · -- Everything in the second list comes before the key.
          obtain ⟨-, xKey⟩ := Bool.and_eq_true_iff.mp same
          have none : (second ++ [y]).filter (alike le key) = [] := by
            apply List.filter_eq_nil_iff.mpr
            intro item member alikeItem
            obtain ⟨keyItem, -⟩ := Bool.and_eq_true_iff.mp alikeItem
            have itemY : le item y = true := by
              rcases List.mem_append.mp member with earlier | isLast
              · exact before.2.2 item earlier y List.mem_cons_self
              · rw [List.mem_singleton.mp isLast]
                exact (total y y).elim id id
            exact last (trans x key y xKey (trans key item y keyItem itemY))
          rw [none, List.append_nil, List.append_nil]
        · rw [List.filter_cons_of_neg same, List.filter_nil, List.append_nil,
            List.append_nil]

end Order

end StableMerge
