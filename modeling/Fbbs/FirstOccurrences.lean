import Mathlib.Data.List.Basic

/-!
# The first distinct items of a list

Items with the same key are alike.  A bounded table that keeps every item that is new to it
holds the first distinct items of a list, up to its limit.
-/

namespace Fbbs

namespace FirstOccurrences

variable {α κ : Type*} [DecidableEq κ] (key : α → κ) (limit : Nat)

/-- An item like this one is kept. -/
def known (kept : List α) (item : α) : Bool :=
  kept.any fun other => decide (key item = key other)

/-- A new item is kept unless the table is full. -/
def keep (kept : List α) (item : α) : List α :=
  if known key kept item then kept
  else if kept.length < limit then kept ++ [item]
  else kept

/-- The items that are not like an earlier one. -/
def firsts : List α → List α
  | [] => []
  | item :: items => item :: (firsts items).filter fun other => decide (key item ≠ key other)

/-- The number of items that a full table does not know. -/
def beyond : List α → List α → Nat
  | _, [] => 0
  | kept, item :: items =>
    if known key kept item then beyond kept items
    else if kept.length < limit then beyond (kept ++ [item]) items
    else beyond kept items + 1

variable {key limit}

theorem known_append_singleton (kept : List α) (item other : α) :
    known key (kept ++ [item]) other = (known key kept other || decide (key other = key item)) := by
  simp [known]

/-- An item at the end is one of the first if none like it comes before. -/
theorem firsts_append_singleton (items : List α) (item : α) :
    firsts key (items ++ [item]) =
      firsts key items ++ if known key items item then [] else [item] := by
  induction items with
  | nil => simp [firsts, known]
  | cons other items ih =>
    have knows : known key (other :: items) item =
        (decide (key item = key other) || known key items item) := by
      rw [known, List.any_cons, known]
    rw [List.cons_append, firsts, firsts, ih, List.filter_append, List.cons_append, knows]
    by_cases same : key item = key other
    · have gone : (if known key items item = true then [] else [item]).filter
          (fun third => decide (key other ≠ key third)) = [] := by
        split <;> simp [same]
      rw [gone]
      simp [same]
    · have kept : (if known key items item = true then [] else [item]).filter
          (fun third => decide (key other ≠ key third)) =
            if known key items item = true then [] else [item] := by
        split
        · rfl
        · simp [Ne.symm same]
      rw [kept]
      simp [same]

theorem known_eq_true_iff {kept : List α} {item : α} :
    known key kept item = true ↔ ∃ other ∈ kept, key other = key item := by
  rw [known, List.any_eq_true]
  exact exists_congr fun other => and_congr_right fun _ => decide_eq_true_iff.trans eq_comm

/-- Every item is like one of the first. -/
theorem exists_mem_firsts (key : α → κ) {items : List α} {item : α} (member : item ∈ items) :
    ∃ other ∈ firsts key items, key other = key item := by
  induction items with
  | nil => cases member
  | cons other items ih =>
    rw [firsts]
    by_cases same : key other = key item
    · exact ⟨other, List.mem_cons_self, same⟩
    · rcases List.mem_cons.mp member with rfl | behind
      · exact absurd rfl same
      · obtain ⟨first, isFirst, alike⟩ := ih behind
        have different : key other ≠ key first := fun equal => same (equal.trans alike)
        exact ⟨first, List.mem_cons_of_mem other
          (List.mem_filter.mpr ⟨isFirst, decide_eq_true different⟩), alike⟩

theorem known_of_key_eq {kept : List α} {item other : α} (same : key item = key other) :
    known key kept item = known key kept other := by
  rw [known, known, same]

theorem foldl_keep_of_full (kept items : List α) (full : limit ≤ kept.length) :
    items.foldl (keep key limit) kept = kept := by
  induction items with
  | nil => rfl
  | cons item items ih =>
    have same : keep key limit kept item = kept := by
      unfold keep
      rw [if_neg (Nat.not_lt.mpr full), ite_self]
    rw [List.foldl_cons, same, ih]

/-- Keeping items after others adds the first of those that are new. -/
theorem foldl_keep (kept items : List α) :
    items.foldl (keep key limit) kept =
      kept ++ ((firsts key items).filter fun item => !known key kept item).take
        (limit - kept.length) := by
  induction items generalizing kept with
  | nil => simp [firsts]
  | cons item items ih =>
    rw [List.foldl_cons, firsts, List.filter_cons]
    by_cases old : known key kept item = true
    · -- Items like this one are known as well.
      have same : keep key limit kept item = kept := if_pos old
      have filters : ((firsts key items).filter fun other => decide (key item ≠ key other)).filter
          (fun other => !known key kept other) =
            (firsts key items).filter fun other => !known key kept other := by
        rw [List.filter_filter]
        apply List.filter_congr
        intro other _
        by_cases alike : key item = key other
        · rw [← known_of_key_eq alike, old]
          rfl
        · simp [alike]
      rw [same, ih, old, filters]
      rfl
    · have new : known key kept item = false := Bool.eq_false_iff.mpr old
      by_cases room : kept.length < limit
      · have added : keep key limit kept item = kept ++ [item] := by
          unfold keep
          rw [if_neg old, if_pos room]
        have filters :
            ((firsts key items).filter fun other => decide (key item ≠ key other)).filter
              (fun other => !known key kept other) =
              (firsts key items).filter fun other => !known key (kept ++ [item]) other := by
          rw [List.filter_filter]
          apply List.filter_congr
          intro other _
          rw [known_append_singleton, Bool.not_or, ← decide_not]
          simp only [ne_eq, eq_comm]
        obtain ⟨left, isLeft⟩ := Nat.exists_eq_add_of_lt room
        have rest : limit - (kept ++ [item]).length = left := by
          rw [List.length_append, List.length_singleton]
          omega
        have size : limit - kept.length = left + 1 := by omega
        rw [added, ih, filters, rest, size, new]
        simp
      · have full : limit - kept.length = 0 := by omega
        have same : keep key limit kept item = kept := by
          unfold keep
          rw [if_neg room, ite_self]
        rw [same, ih, full, List.take_zero, List.take_zero]

/-- The table of a whole list. -/
theorem foldl_keep_nil (items : List α) :
    items.foldl (keep key limit) [] = (firsts key items).take limit := by
  rw [foldl_keep, List.nil_append, List.length_nil, Nat.sub_zero]
  congr 1
  rw [List.filter_eq_self]
  intro item _
  rfl

theorem known_foldl_keep {kept items : List α} {item : α} (old : known key kept item = true) :
    known key (items.foldl (keep key limit) kept) item = true := by
  rw [foldl_keep, known, List.any_append]
  exact Bool.or_eq_true_iff.mpr (.inl old)

/-- The items beyond the limit are those that the final table does not know. -/
theorem beyond_eq (kept items : List α) :
    beyond key limit kept items =
      items.countP fun item => !known key (items.foldl (keep key limit) kept) item := by
  induction items generalizing kept with
  | nil => rfl
  | cons item items ih =>
    rw [beyond, List.foldl_cons, List.countP_cons]
    by_cases old : known key kept item = true
    · have same : keep key limit kept item = kept := if_pos old
      rw [if_pos old, same, ih, known_foldl_keep old]
      rfl
    · rw [if_neg old]
      by_cases room : kept.length < limit
      · have added : keep key limit kept item = kept ++ [item] := by
          unfold keep
          rw [if_neg old, if_pos room]
        have itself : known key (kept ++ [item]) item = true := by
          rw [known_append_singleton, decide_eq_true rfl, Bool.or_true]
        rw [if_pos room, added, ih, known_foldl_keep itself]
        rfl
      · have same : keep key limit kept item = kept := by
          unfold keep
          rw [if_neg room, ite_self]
        have final := @foldl_keep_of_full _ _ _ key limit kept items
          (Nat.not_lt.mp room)
        rw [if_neg room, same, ih, final, Bool.eq_false_iff.mpr old]
        rfl

end FirstOccurrences

end Fbbs
