import Mathlib.Data.List.TakeWhile
import Mathlib.Data.List.Flatten

/-!
# Run lengths

A list is written as single items and runs of equal ones.  In a code a run is a mark, the item
and a number; a list of codes is read without knowing where one ends.
-/

namespace RunLengths

variable {α : Type*} [DecidableEq α]

inductive Token (α : Type*)
  | single (a : α)
  | run (a : α) (n : Nat)

def Token.items : Token α → List α
  | .single a => [a]
  | .run a n => List.replicate n a

def expand (tokens : List (Token α)) : List α :=
  tokens.flatMap Token.items

/-- Runs of at least `least` and at most `most` items, from the left. -/
def tokens (least most : Nat) : Nat → List α → List (Token α)
  | 0, _ => []
  | _, [] => []
  | fuel + 1, a :: rest =>
    let more := min (rest.takeWhile (· = a)).length (most - 1)
    if least ≤ more + 1 then
      .run a (more + 1) :: tokens least most fuel (rest.drop more)
    else .single a :: tokens least most fuel rest

omit [DecidableEq α] in
@[simp]
theorem expand_nil : expand ([] : List (Token α)) = [] :=
  rfl

omit [DecidableEq α] in
@[simp]
theorem expand_cons (token : Token α) (tokens : List (Token α)) :
    expand (token :: tokens) = token.items ++ expand tokens := by
  simp [expand]

theorem take_takeWhile_eq {a : α} {rest : List α} {more : Nat}
    (within : more ≤ (rest.takeWhile (· = a)).length) :
    rest.take more = List.replicate more a := by
  obtain ⟨behind, split⟩ := List.takeWhile_prefix (p := (· = a)) (l := rest)
  have taken : rest.take more = (rest.takeWhile (· = a)).take more := by
    rw [← List.take_append_of_le_length within, split]
  rw [taken, List.eq_replicate_iff]
  constructor
  · simp [within]
  · intro b member
    simpa using List.mem_takeWhile_imp (List.mem_of_mem_take member)

theorem expand_tokens (least most : Nat) {fuel : Nat} {list : List α}
    (enough : list.length ≤ fuel) : expand (tokens least most fuel list) = list := by
  induction fuel generalizing list with
  | zero =>
    rw [List.eq_nil_of_length_eq_zero (Nat.le_zero.mp enough)]
    rfl
  | succ fuel ih =>
    cases list with
    | nil => rfl
    | cons a rest =>
      have short : rest.length ≤ fuel := Nat.le_of_succ_le_succ enough
      simp only [tokens]
      split
      · have run := take_takeWhile_eq
          (Nat.min_le_left (rest.takeWhile (· = a)).length (most - 1))
        rw [expand_cons, ih (by simp; omega), Token.items, List.replicate_succ, ← run,
          List.cons_append, List.take_append_drop]
      · rw [expand_cons, ih short]
        rfl

/-- The fuel does not matter if it is enough. -/
theorem tokens_fuel {least most fuel more : Nat} {list : List α} (enough : list.length ≤ fuel)
    (enough' : list.length ≤ more) :
    tokens least most fuel list = tokens least most more list := by
  induction fuel generalizing list more with
  | zero =>
    rw [List.eq_nil_of_length_eq_zero (Nat.le_zero.mp enough)]
    cases more <;> rfl
  | succ fuel ih =>
    cases list with
    | nil => cases more <;> rfl
    | cons a rest =>
      cases more with
      | zero => simp at enough'
      | succ more =>
        have short : rest.length ≤ fuel := Nat.le_of_succ_le_succ enough
        have short' : rest.length ≤ more := Nat.le_of_succ_le_succ enough'
        simp only [tokens]
        rw [ih short short', ih _ _]
        · simp; omega
        · simp; omega

section Codes

variable (mark : α) (count : Nat → α) (value : α → Nat)

def Token.code : Token α → List α
  | .single a => [a]
  | .run a n => [mark, a, count n]

/-- A mark that is not followed by two items is left out. -/
def decode : List α → List α
  | [] => []
  | a :: rest =>
    if a = mark then
      match rest with
      | b :: n :: more => List.replicate (value n) b ++ decode more
      | rest => decode rest
    else a :: decode rest

def Token.Coded : Token α → Prop
  | .single a => a ≠ mark
  | .run _ n => value (count n) = n

variable {mark count value}

theorem decode_code {token : Token α} (coded : token.Coded mark count value) (rest : List α) :
    decode mark value (token.code mark count ++ rest) = token.items ++ decode mark value rest := by
  cases token with
  | single a =>
    have plain : a ≠ mark := coded
    rw [Token.code, Token.items, List.singleton_append, List.singleton_append, decode.eq_def]
    simp only [if_neg plain]
  | run a n =>
    have number : value (count n) = n := coded
    simp [Token.code, Token.items, decode, number]

/-- Codes that follow each other are read one after another. -/
theorem decode_flatMap_code {tokens : List (Token α)}
    (coded : ∀ token ∈ tokens, token.Coded mark count value) (rest : List α) :
    decode mark value (tokens.flatMap (Token.code mark count) ++ rest) =
      expand tokens ++ decode mark value rest := by
  induction tokens with
  | nil => rfl
  | cons token tokens ih =>
    have others : ∀ token ∈ tokens, token.Coded mark count value :=
      fun other member => coded other (List.mem_cons_of_mem _ member)
    rw [List.flatMap_cons, List.append_assoc, decode_code (coded token List.mem_cons_self),
      ih others, expand_cons, List.append_assoc]

/-- The items are those of the list, and the lengths of the runs keep the bounds. -/
theorem mem_tokens {least most fuel : Nat} {list : List α} (positive : 0 < most)
    {token : Token α} (member : token ∈ tokens least most fuel list) :
    match token with
    | .single a => a ∈ list
    | .run a n => a ∈ list ∧ least ≤ n ∧ n ≤ most := by
  induction fuel generalizing list with
  | zero => cases member
  | succ fuel ih =>
    cases list with
    | nil => cases member
    | cons a rest =>
      simp only [tokens] at member
      split at member
      next long =>
        rcases List.mem_cons.mp member with rfl | later
        · exact ⟨List.mem_cons_self, long, by omega⟩
        · have inside := ih later
          cases token with
          | single b => exact List.mem_cons_of_mem _ (List.mem_of_mem_drop inside)
          | run b n =>
            exact ⟨List.mem_cons_of_mem _ (List.mem_of_mem_drop inside.1), inside.2⟩
      next short =>
        rcases List.mem_cons.mp member with rfl | later
        · exact List.mem_cons_self
        · have inside := ih later
          cases token with
          | single b => exact List.mem_cons_of_mem _ inside
          | run b n => exact ⟨List.mem_cons_of_mem _ inside.1, inside.2⟩

omit [DecidableEq α] in
/-- A code is not longer than what it stands for. -/
theorem length_code_le {token : Token α}
    (long : ∀ a n, token = .run a n → 3 ≤ n) :
    (token.code mark count).length ≤ token.items.length := by
  cases token with
  | single a => exact Nat.le_refl _
  | run a n => simpa [Token.code, Token.items] using long a n rfl

end Codes

end RunLengths
