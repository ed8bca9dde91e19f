import Mathlib.Data.List.Nodup
import Mathlib.Logic.Function.Basic

/-!
# Chains of linked nodes

Nodes are numbered from one, and every node has a link to another one, or to
zero at the end.  A chain is the list of the nodes that are visited from a head;
in a doubly linked chain every node also has a link back to the one before it.
-/

namespace LinkedChains

/-- Following the links from a head visits the nodes in order and ends. -/
inductive Chain (next : Nat → Nat) : Nat → List Nat → Prop
  | nil : Chain next 0 []
  | cons {node : Nat} {nodes : List Nat} (nonzero : node ≠ 0)
      (rest : Chain next (next node) nodes) : Chain next node (node :: nodes)

variable {next next' : Nat → Nat} {head target : Nat} {nodes before after tail : List Nat}

namespace Chain

theorem head_eq (chain : Chain next head nodes) : head = nodes.headD 0 := by
  cases chain <;> rfl

theorem eq_nil (chain : Chain next 0 nodes) : nodes = [] := by
  cases chain with
  | nil => rfl
  | cons nonzero => exact absurd rfl nonzero

theorem zero_notMem (chain : Chain next head nodes) : 0 ∉ nodes := by
  induction chain with
  | nil => exact List.not_mem_nil
  | cons nonzero _ ih =>
    rw [List.mem_cons]
    rintro (zero | member)
    · exact nonzero zero.symm
    · exact ih member

/-- A head has one chain only. -/
theorem unique {others : List Nat} (chain : Chain next head nodes)
    (other : Chain next head others) : nodes = others := by
  induction chain generalizing others with
  | nil => exact other.eq_nil.symm
  | cons nonzero _ ih =>
    cases other with
    | nil => exact absurd rfl nonzero
    | cons _ rest => rw [ih rest]

/-- What is behind some nodes is a chain. -/
theorem suffix (chain : Chain next head (before ++ after)) :
    Chain next (after.headD 0) after := by
  induction before generalizing head with
  | nil =>
    rw [List.nil_append] at chain
    exact chain.head_eq ▸ chain
  | cons node before ih =>
    cases chain with
    | cons _ rest => exact ih rest

/-- A chain does not come back to a node. -/
theorem nodup (chain : Chain next head nodes) : nodes.Nodup := by
  induction nodes generalizing head with
  | nil => exact List.nodup_nil
  | cons node nodes ih =>
    have whole := chain
    cases chain with
    | cons nonzero rest =>
      refine List.nodup_cons.mpr ⟨fun again => ?_, ih rest⟩
      obtain ⟨front, back, rfl⟩ := List.append_of_mem again
      -- The chain from the second visit on is the chain from the first.
      have same := whole.unique (rest.suffix : Chain next node (node :: back))
      have lengths := congrArg List.length same
      simp at lengths
      omega

theorem congr (chain : Chain next head nodes) (same : ∀ node ∈ nodes, next' node = next node) :
    Chain next' head nodes := by
  induction chain with
  | nil => exact .nil
  | cons nonzero _ ih =>
    rename_i node nodes _
    have sameRest : ∀ other ∈ nodes, next' other = next other :=
      fun other member => same other (List.mem_cons_of_mem node member)
    refine .cons nonzero ?_
    rw [same node List.mem_cons_self]
    exact ih sameRest

/-- Links of other nodes do not matter. -/
theorem update (chain : Chain next head nodes) {node : Nat} (apart : node ∉ nodes) :
    Chain (Function.update next node target) head nodes := by
  apply chain.congr
  intro other member
  exact Function.update_of_ne (ne_of_mem_of_not_mem member apart) _ _

/-- A node is put in front. -/
theorem push (chain : Chain next head nodes) {node : Nat} (nonzero : node ≠ 0)
    (apart : node ∉ nodes) : Chain (Function.update next node head) node (node :: nodes) := by
  refine .cons nonzero ?_
  rw [Function.update_self]
  exact chain.update apart

/-- What follows some nodes is replaced by another chain. -/
theorem graft (chain : Chain next head (before ++ after)) (rest : Chain next' target tail)
    (links : ∀ node ∈ before,
      next' node = if before.getLast? = some node then target else next node) :
    Chain next' (if before = [] then target else head) (before ++ tail) := by
  induction before generalizing head with
  | nil => exact rest
  | cons node before ih =>
    have notLater : node ∉ before := by
      have nodup := chain.nodup
      rw [List.cons_append, List.nodup_cons] at nodup
      exact fun member => nodup.1 (List.mem_append_left after member)
    have here := links node List.mem_cons_self
    rw [if_neg (List.cons_ne_nil node before)]
    cases chain with
    | cons nonzero chain =>
      refine .cons nonzero ?_
      cases before with
      | nil =>
        rw [List.getLast?_singleton, if_pos rfl] at here
        rw [here]
        exact rest
      | cons second before =>
        rw [List.getLast?_cons_cons] at here
        have later := ih chain (fun other member => by
          rw [links other (List.mem_cons_of_mem node member), List.getLast?_cons_cons])
        rw [if_neg (List.cons_ne_nil second before)] at later
        rw [here, if_neg (fun isLast => notLater (List.mem_of_getLast? isLast))]
        exact later

/-- A node is taken out of a chain. -/
theorem cut {node : Nat} (chain : Chain next head (before ++ node :: after))
    (links : ∀ other ∈ before ++ after, next' other =
      if before.getLast? = some other then after.headD 0 else next other) :
    Chain next' (if before = [] then after.headD 0 else head) (before ++ after) := by
  obtain ⟨-, -, apart⟩ := List.nodup_append.mp chain.nodup
  have tail : Chain next (after.headD 0) after := by
    rw [List.append_cons] at chain
    exact chain.suffix
  apply chain.graft (tail.congr ?_)
  · exact fun other member => links other (List.mem_append_left after member)
  · intro other member
    have notLast : before.getLast? ≠ some other := fun isLast =>
      apart other (List.mem_of_getLast? isLast) other (List.mem_cons_of_mem node member) rfl
    rw [links other (List.mem_append_right before member), if_neg notLast]

end Chain

/-- The links back along a chain, whose first node has the given one. -/
def Backward (back : Nat → Nat) : Nat → List Nat → Prop
  | _, [] => True
  | previous, node :: nodes => back node = previous ∧ Backward back node nodes

namespace Backward

variable {back back' : Nat → Nat} {previous : Nat}

theorem congr (backward : Backward back previous nodes)
    (same : ∀ node ∈ nodes, back' node = back node) : Backward back' previous nodes := by
  induction nodes generalizing previous with
  | nil => trivial
  | cons node nodes ih =>
    obtain ⟨first, rest⟩ := backward
    exact ⟨(same node List.mem_cons_self).trans first,
      ih rest fun other member => same other (List.mem_cons_of_mem node member)⟩

theorem append_iff : Backward back previous (before ++ after) ↔
    Backward back previous before ∧ Backward back (before.getLastD previous) after := by
  induction before generalizing previous with
  | nil => simp [Backward]
  | cons node before ih =>
    rw [List.cons_append, Backward, Backward, ih, List.getLastD_cons, and_assoc]

/-- A node is taken out of a chain. -/
theorem cut {node : Nat} (nodup : (before ++ node :: after).Nodup)
    (backward : Backward back previous (before ++ node :: after))
    (backs : ∀ other ∈ before ++ after, back' other =
      if after.head? = some other then before.getLastD previous else back other) :
    Backward back' previous (before ++ after) := by
  obtain ⟨-, laterNodup, apart⟩ := List.nodup_append.mp nodup
  obtain ⟨first, -, last⟩ := append_iff.mp backward
  rw [append_iff]
  constructor
  · apply first.congr
    intro other member
    have notHead : after.head? ≠ some other := fun isHead =>
      apart other member other (List.mem_cons_of_mem node (List.mem_of_mem_head? isHead)) rfl
    rw [backs other (List.mem_append_left after member), if_neg notHead]
  · cases after with
    | nil => trivial
    | cons second after =>
      have notLater : second ∉ after :=
        (List.nodup_cons.mp (List.nodup_cons.mp laterNodup).2).1
      refine ⟨?_, last.2.congr ?_⟩
      · rw [backs second (List.mem_append_right before List.mem_cons_self), List.head?_cons,
          if_pos rfl]
      · intro other member
        have notHead : (second :: after).head? ≠ some other := by
          rw [List.head?_cons, ne_eq, Option.some.injEq]
          exact fun isHead => notLater (isHead ▸ member)
        rw [backs other (List.mem_append_right before (List.mem_cons_of_mem second member)),
          if_neg notHead]

/-- The link back is the inverse of the link. -/
theorem back_next (chain : Chain next head nodes) (backward : Backward back previous nodes)
    {node : Nat} (member : node ∈ nodes) (inside : next node ≠ 0) : back (next node) = node := by
  obtain ⟨before, after, rfl⟩ := List.append_of_mem member
  have fromNode : Chain next node (node :: after) := chain.suffix
  obtain ⟨-, -, rest⟩ := append_iff.mp backward
  cases fromNode with
  | cons _ tail =>
    cases after with
    | nil => exact absurd tail.head_eq inside
    | cons other after =>
      have isNext : next node = other := tail.head_eq
      rw [isNext]
      exact rest.1

theorem next_back (chain : Chain next head nodes) (backward : Backward back previous nodes)
    {node : Nat} (member : node ∈ nodes) :
    (node = head ∧ back node = previous) ∨ (back node ∈ nodes ∧ next (back node) = node) := by
  induction nodes generalizing head previous with
  | nil => exact absurd member List.not_mem_nil
  | cons first nodes ih =>
    obtain ⟨isFirst, rest⟩ := backward
    cases chain with
    | cons _ tail =>
      rcases List.mem_cons.mp member with rfl | member
      · exact Or.inl ⟨rfl, isFirst⟩
      · rcases ih tail rest member with ⟨isNext, isBack⟩ | ⟨inside, isNext⟩
        · rw [isBack]
          exact Or.inr ⟨List.mem_cons_self, isNext.symm⟩
        · exact Or.inr ⟨List.mem_cons_of_mem first inside, isNext⟩

end Backward

section Families

variable {Bucket : Type*} [DecidableEq Bucket] {chains : Bucket → List Nat} {bucket : Bucket}
  {node : Nat}

/-- The nodes of a family of chains after one has been added at the end of a chain. -/
theorem mem_update_append {other : Bucket} {i : Nat} :
    i ∈ Function.update chains bucket (chains bucket ++ [node]) other ↔
      i ∈ chains other ∨ (other = bucket ∧ i = node) := by
  by_cases same : other = bucket
  · subst same
    rw [Function.update_self, List.mem_append, List.mem_singleton]
    simp only [true_and]
  · rw [Function.update_of_ne same]
    simp only [same, false_and, or_false]

/-- The nodes of a family of chains after one has been taken out of its chain. -/
theorem mem_update_cut (parts : chains bucket = before ++ node :: after)
    (nodup : (chains bucket).Nodup) (only : ∀ other, node ∈ chains other → other = bucket)
    (other : Bucket) (i : Nat) :
    i ∈ Function.update chains bucket (before ++ after) other ↔ i ∈ chains other ∧ i ≠ node := by
  by_cases same : other = bucket
  · subst same
    rw [parts] at nodup
    obtain ⟨-, laterNodup, apart⟩ := List.nodup_append.mp nodup
    have notBefore : node ∉ before := fun member => apart node member node List.mem_cons_self rfl
    have notAfter : node ∉ after := (List.nodup_cons.mp laterNodup).1
    rw [Function.update_self, parts]
    simp only [List.mem_append, List.mem_cons]
    constructor
    · rintro (member | member)
      · exact ⟨Or.inl member, ne_of_mem_of_not_mem member notBefore⟩
      · exact ⟨Or.inr (Or.inr member), ne_of_mem_of_not_mem member notAfter⟩
    · rintro ⟨member | isNode | member, ne⟩
      · exact Or.inl member
      · exact absurd isNode ne
      · exact Or.inr member
  · rw [Function.update_of_ne same]
    refine ⟨fun member => ⟨member, ?_⟩, And.left⟩
    rintro rfl
    exact same (only other member)

end Families

end LinkedChains
