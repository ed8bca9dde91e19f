import Mathlib.Data.List.Basic

/-!
# Common prefixes

How many items a list has in common with others at their beginnings.
-/

namespace CommonPrefixes

variable {α : Type*} [DecidableEq α]

/-- The number of items that two lists begin with in common. -/
def agreement : List α → List α → Nat
  | a :: s, b :: t => if a = b then agreement s t + 1 else 0
  | _, _ => 0

/-- The number of items that a list begins with in common with all others. -/
def agreementAll (first : List α) (others : List (List α)) : Nat :=
  others.foldl (fun most other => min most (agreement first other)) first.length

theorem le_agreement_iff {k : Nat} {s t : List α} :
    k ≤ agreement s t ↔ k ≤ s.length ∧ s.take k <+: t := by
  induction s generalizing t k with
  | nil => cases t <;> simp [agreement]
  | cons a s ih =>
    cases k with
    | zero => simp
    | succ k =>
      cases t with
      | nil => simp [agreement]
      | cons b t =>
        rw [agreement, List.take_succ_cons, List.cons_prefix_cons, List.length_cons]
        split
        next same =>
          rw [Nat.add_le_add_iff_right, ih, Nat.add_le_add_iff_right]
          exact ⟨fun both => ⟨both.1, same, both.2⟩, fun all => ⟨all.1, all.2.2⟩⟩
        next other =>
          exact ⟨fun le => absurd le (Nat.not_succ_le_zero k), fun all =>
            absurd all.2.1 other⟩

theorem agreement_le_length (s t : List α) : agreement s t ≤ t.length := by
  obtain ⟨le, isPrefix⟩ := le_agreement_iff.mp (Nat.le_refl (agreement s t))
  have length := isPrefix.length_le
  rw [List.length_take, Nat.min_eq_left le] at length
  exact length

theorem le_foldl_min_iff {k most : Nat} {first : List α} {others : List (List α)} :
    k ≤ others.foldl (fun most other => min most (agreement first other)) most ↔
      k ≤ most ∧ ∀ other ∈ others, k ≤ agreement first other := by
  induction others generalizing most with
  | nil => simp
  | cons other others ih =>
    rw [List.foldl_cons, ih, Nat.le_min, List.forall_mem_cons, and_assoc]

theorem le_agreementAll_iff {k : Nat} {first : List α} {others : List (List α)} :
    k ≤ agreementAll first others ↔
      k ≤ first.length ∧ ∀ other ∈ others, k ≤ agreement first other :=
  le_foldl_min_iff

theorem agreementAll_le_length (first : List α) (others : List (List α)) :
    agreementAll first others ≤ first.length :=
  (le_agreementAll_iff.mp (Nat.le_refl _)).1

end CommonPrefixes
