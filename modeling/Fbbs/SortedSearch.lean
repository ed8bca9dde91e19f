import Mathlib.Data.List.Basic

/-!
# Binary search

`bsearch` of the C library, over a list.  The comparison function is given the item only; its
sign says on which side of the item the key lies.
-/

namespace SortedSearch

variable {α : Type*}

/-- The search between two indexes, the second one excluded. -/
def searchBetween (cmp : α → Int) (items : List α) : Nat → Nat → Nat → Option Nat
  | 0, _, _ => none
  | fuel + 1, low, high =>
    if low < high then
      let idx := (low + high) / 2
      match items[idx]? with
      | none => none
      | some item =>
        if cmp item < 0 then searchBetween cmp items fuel low idx
        else if cmp item > 0 then searchBetween cmp items fuel (idx + 1) high
        else some idx
    else none

def bsearch (cmp : α → Int) (items : List α) : Option Nat :=
  searchBetween cmp items items.length 0 items.length

/-- Once the key is not behind an item, it is before all later ones. -/
def Sorted (cmp : α → Int) (items : List α) : Prop :=
  items.Pairwise fun a b => cmp a ≤ 0 → cmp b < 0

variable {cmp : α → Int} {items : List α}

theorem searchBetween_sound {fuel low high i : Nat}
    (found : searchBetween cmp items fuel low high = some i) :
    ∃ item, items[i]? = some item ∧ cmp item = 0 := by
  induction fuel generalizing low high with
  | zero => cases found
  | succ fuel ih =>
    rw [searchBetween] at found
    split at found
    · cases middle : items[(low + high) / 2]? with
      | none =>
        simp only [middle] at found
        cases found
      | some item =>
        simp only [middle] at found
        split at found
        · exact ih found
        · split at found
          · exact ih found
          · obtain rfl := Option.some.inj found
            exact ⟨item, middle, by omega⟩
    · cases found

/-- An item that is sought is found if the interval holds it. -/
theorem searchBetween_complete (sorted : Sorted cmp items) {fuel low high i : Nat} {item : α}
    (here : items[i]? = some item) (equal : cmp item = 0) (above : low ≤ i) (below : i < high)
    (inside : high ≤ items.length) (enough : high ≤ low + fuel) :
    searchBetween cmp items fuel low high = some i := by
  induction fuel generalizing low high with
  | zero => omega
  | succ fuel ih =>
    obtain ⟨iInside, rfl⟩ := List.getElem?_eq_some_iff.mp here
    have idxInside : (low + high) / 2 < items.length := by omega
    have ordered := List.pairwise_iff_getElem.mp sorted
    rw [searchBetween, if_pos (by omega)]
    simp only [List.getElem?_eq_getElem idxInside]
    by_cases before : cmp items[(low + high) / 2] < 0
    · have left : i < (low + high) / 2 := by
        by_contra notLeft
        rcases Nat.lt_or_eq_of_le (Nat.le_of_not_lt notLeft) with right | same
        · have behind := ordered _ _ idxInside iInside right (Int.le_of_lt before)
          omega
        · simp only [← same] at equal
          omega
      rw [if_pos before]
      exact ih above left (Nat.le_of_lt idxInside) (by omega)
    rw [if_neg before]
    by_cases behind : cmp items[(low + high) / 2] > 0
    · have right : (low + high) / 2 + 1 ≤ i := by
        by_contra notRight
        rcases Nat.lt_or_eq_of_le (Nat.le_of_not_lt notRight) with left | same
        · have later := ordered _ _ iInside idxInside (by omega) (Int.le_of_eq equal)
          omega
        · have here : i = (low + high) / 2 := by omega
          simp only [here] at equal
          omega
      rw [if_pos behind]
      exact ih right below inside (by omega)
    · rw [if_neg behind, Option.some.injEq]
      rcases Nat.lt_trichotomy i ((low + high) / 2) with left | same | right
      · have later := ordered _ _ iInside idxInside left (Int.le_of_eq equal)
        omega
      · exact same.symm
      · have later := ordered _ _ idxInside iInside right (by omega)
        omega

/-- In a sorted list exactly the item that is sought is found. -/
theorem bsearch_eq_some_iff (sorted : Sorted cmp items) {i : Nat} :
    bsearch cmp items = some i ↔ ∃ item, items[i]? = some item ∧ cmp item = 0 := by
  constructor
  · exact searchBetween_sound
  · rintro ⟨item, here, equal⟩
    obtain ⟨inside, -⟩ := List.getElem?_eq_some_iff.mp here
    exact searchBetween_complete sorted here equal (Nat.zero_le i) inside (Nat.le_refl _)
      (by omega)

theorem bsearch_eq_none_iff (sorted : Sorted cmp items) :
    bsearch cmp items = none ↔ ∀ item ∈ items, cmp item ≠ 0 := by
  constructor
  · intro missing item member equal
    obtain ⟨i, here⟩ := List.mem_iff_getElem?.mp member
    have found := (bsearch_eq_some_iff sorted).mpr ⟨item, here, equal⟩
    rw [missing] at found
    cases found
  · intro absent
    cases found : bsearch cmp items with
    | none => rfl
    | some i =>
      obtain ⟨item, here, equal⟩ := searchBetween_sound found
      exact absurd equal (absent item (List.mem_of_getElem? here))

end SortedSearch
