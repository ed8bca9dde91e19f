import Mathlib.Logic.Basic

/-!
# Runs of labelled transition systems

A system is given by a partial step function from a state and a label.  A run
is a list of labels that can all be executed; a guarded run is one whose steps
all meet a condition on the label and the state before the step.
-/

namespace TransitionRuns

variable {State Label : Type*} (step : State → Label → Option State)

/-- The state after executing the labels in order. -/
def run : List Label → State → Option State
  | [], state => some state
  | label :: labels, state => (step state label).bind (run labels)

/-- Every step of the run meets the guard. -/
def Guarded (guard : State → Label → Prop) : List Label → State → Prop
  | [], _ => True
  | label :: labels, state =>
    guard state label ∧
      ∀ next, step state label = some next → Guarded guard labels next

variable {step}

theorem run_cons {label : Label} {labels : List Label} {state final : State}
    (runs : run step (label :: labels) state = some final) :
    ∃ next, step state label = some next ∧ run step labels next = some final :=
  Option.bind_eq_some_iff.mp runs

/-- Running one list of labels after another. -/
theorem run_append (first second : List Label) (state : State) :
    run step (first ++ second) state =
      (run step first state).bind (run step second) := by
  induction first generalizing state with
  | nil => rfl
  | cons label first ih =>
    rw [List.cons_append, run, run, Option.bind_assoc]
    congr 1
    funext next
    exact ih next

/-- A guarded run begins with a step that meets the guard. -/
theorem guarded_cons {guard : State → Label → Prop} {label : Label} {labels : List Label}
    {state next : State} (allowed : guard state label) (stepped : step state label = some next)
    (rest : Guarded step guard labels next) : Guarded step guard (label :: labels) state := by
  refine ⟨allowed, fun other stepped' => ?_⟩
  rw [stepped, Option.some.injEq] at stepped'
  exact stepped' ▸ rest

/-- A guarded run is guarded on its first part and on its second. -/
theorem guarded_append {guard : State → Label → Prop} {first second : List Label}
    {state : State} (guarded : Guarded step guard (first ++ second) state) :
    Guarded step guard first state ∧
      ∀ middle, run step first state = some middle →
        Guarded step guard second middle := by
  induction first generalizing state with
  | nil =>
    refine ⟨trivial, fun middle runs => ?_⟩
    rw [run, Option.some.injEq] at runs
    exact runs ▸ guarded
  | cons label first ih =>
    refine ⟨⟨guarded.1, fun next stepEq => (ih (guarded.2 next stepEq)).1⟩, ?_⟩
    intro middle runs
    obtain ⟨next, stepEq, rest⟩ := run_cons runs
    exact (ih (guarded.2 next stepEq)).2 middle rest

/-- What every guarded step preserves holds at the end of a guarded run. -/
theorem invariant_of_guarded (Invariant : State → Prop)
    {guard : State → Label → Prop}
    (preserved : ∀ state label next, Invariant state → guard state label →
      step state label = some next → Invariant next)
    {labels : List Label} {state final : State} (initial : Invariant state)
    (guarded : Guarded step guard labels state)
    (runs : run step labels state = some final) : Invariant final := by
  induction labels generalizing state with
  | nil =>
    rw [run, Option.some.injEq] at runs
    exact runs ▸ initial
  | cons label labels ih =>
    obtain ⟨next, stepEq, rest⟩ := run_cons runs
    exact ih (preserved state label next initial guarded.1 stepEq)
      (guarded.2 next stepEq) rest

/-- When every guarded step is possible and preserves the invariant, a guarded run is possible. -/
theorem exists_run_of_guarded (Invariant : State → Prop)
    {guard : State → Label → Prop}
    (advances : ∀ state label, Invariant state → guard state label →
      ∃ next, step state label = some next ∧ Invariant next)
    {labels : List Label} {state : State} (initial : Invariant state)
    (guarded : Guarded step guard labels state) :
    ∃ final, run step labels state = some final ∧ Invariant final := by
  induction labels generalizing state with
  | nil => exact ⟨state, rfl, initial⟩
  | cons label labels ih =>
    obtain ⟨next, stepEq, preserved⟩ := advances state label initial guarded.1
    obtain ⟨final, runs, holds⟩ := ih preserved (guarded.2 next stepEq)
    have whole : run step (label :: labels) state = some final := by
      rw [run, stepEq, Option.bind_some, runs]
    exact ⟨final, whole, holds⟩

/-- When a step is possible exactly under a condition, and preserves the invariant then, a run is
possible exactly if it is guarded by the condition. -/
theorem exists_run_iff_guarded (Invariant : State → Prop)
    {premise guard : State → Label → Prop} {Goal : State → Prop}
    (advances : ∀ state label, Invariant state → premise state label → guard state label →
      ∃ next, step state label = some next ∧ Invariant next)
    (blocks : ∀ state label, Invariant state → premise state label → ¬guard state label →
      step state label = none)
    (reaches : ∀ state, Invariant state → Goal state)
    {labels : List Label} {state : State} (initial : Invariant state)
    (assumed : Guarded step premise labels state) :
    (∃ final, run step labels state = some final ∧ Goal final) ↔
      Guarded step guard labels state := by
  induction labels generalizing state with
  | nil => exact iff_of_true ⟨state, rfl, reaches state initial⟩ trivial
  | cons label labels ih =>
    by_cases allowed : guard state label
    · obtain ⟨next, stepEq, preserved⟩ := advances state label initial assumed.1 allowed
      have rest := ih preserved (assumed.2 next stepEq)
      have runs : run step (label :: labels) state = run step labels next := by
        rw [run, stepEq, Option.bind_some]
      rw [runs, rest]
      constructor
      · exact guarded_cons allowed stepEq
      · exact fun guarded => guarded.2 next stepEq
    · have blocked := blocks state label initial assumed.1 allowed
      apply iff_of_false
      · rintro ⟨final, runs, -⟩
        rw [run, blocked] at runs
        cases runs
      · exact fun guarded => allowed guarded.1

/-- A guarded run can be checked by executing it. -/
instance decidableGuarded {guard : State → Label → Prop}
    [∀ state label, Decidable (guard state label)] :
    (labels : List Label) → (state : State) →
      Decidable (Guarded step guard labels state)
  | [], _ => isTrue trivial
  | label :: labels, state =>
    match stepEq : step state label with
    | none => decidable_of_iff (guard state label)
        ⟨fun allowed => ⟨allowed, by simp [stepEq]⟩, And.left⟩
    | some next =>
      have : Decidable (Guarded step guard labels next) :=
        decidableGuarded labels next
      decidable_of_iff (guard state label ∧ Guarded step guard labels next)
        ⟨fun ⟨allowed, rest⟩ => ⟨allowed, by simpa [stepEq] using rest⟩,
          fun ⟨allowed, rest⟩ => ⟨allowed, rest next stepEq⟩⟩

/-- A condition on the labels alone guards a run from every state. -/
theorem guarded_of_forall {allowed : Label → Prop} {labels : List Label}
    (all : ∀ label ∈ labels, allowed label) (state : State) :
    Guarded step (fun _ label => allowed label) labels state := by
  induction labels generalizing state with
  | nil => trivial
  | cons label labels ih =>
    have here := all label List.mem_cons_self
    have later : ∀ other ∈ labels, allowed other :=
      fun other member => all other (List.mem_cons_of_mem label member)
    exact ⟨here, fun next _ => ih later next⟩

/-- Ten steps of two processes; either goes on before the other has ended. -/
def interleaved : List Bool :=
  [false, true, false, false, false, true, true, true, false, true]

end TransitionRuns
