import Mathlib.Data.List.Basic

/-!
# Scans with a callback

A callback is called on entries one after the other until it asks to stop.  The calls are
kept, so that two scans can be compared.
-/

namespace CallbackScan

/-- What a callback answers. -/
inductive Reply
  | found
  | next
  | stop
  deriving DecidableEq

variable {State Entry : Type*}

@[ext]
structure Scan (State Entry : Type*) where
  state : State
  matched : Nat
  calls : List Entry
  stopped : Bool

/-- A scan before its first call. -/
def Scan.start (state : State) : Scan State Entry :=
  ⟨state, 0, [], false⟩

section Visits

variable (callback : State → Entry → Reply × State)

def visit (scan : Scan State Entry) (entry : Entry) : Scan State Entry :=
  if scan.stopped then scan
  else
    let (reply, state) := callback scan.state entry
    { state
      matched := if reply = .found then scan.matched + 1 else scan.matched
      calls := scan.calls ++ [entry]
      stopped := reply == .stop }

def visitAll (scan : Scan State Entry) (entries : List Entry) : Scan State Entry :=
  entries.foldl (visit callback) scan

end Visits

variable {callback : State → Entry → Reply × State} {scan : Scan State Entry}

theorem visitAll_append (scan : Scan State Entry) (first second : List Entry) :
    visitAll callback scan (first ++ second) =
      visitAll callback (visitAll callback scan first) second :=
  List.foldl_append

theorem visitAll_of_stopped (stopped : scan.stopped = true) (entries : List Entry) :
    visitAll callback scan entries = scan := by
  induction entries with
  | nil => rfl
  | cons entry entries ih =>
    change visitAll callback (visit callback scan entry) entries = scan
    rw [visit, if_pos stopped]
    exact ih

/-- Nothing is called any more once the scan has been stopped. -/
theorem visitAll_append_of_stopped {first : List Entry}
    (stopped : (visitAll callback scan first).stopped = true) (second : List Entry) :
    visitAll callback scan (first ++ second) = visitAll callback scan first := by
  rw [visitAll_append, visitAll_of_stopped stopped]

theorem calls_isPrefix (scan : Scan State Entry) (entries : List Entry) :
    scan.calls <+: (visitAll callback scan entries).calls := by
  induction entries generalizing scan with
  | nil => exact List.prefix_refl _
  | cons entry entries ih =>
    apply List.IsPrefix.trans _ (ih (visit callback scan entry))
    rw [visit]
    split
    · exact List.prefix_refl _
    · exact List.prefix_append _ _

/-- A scan that goes on calls the next entry. -/
theorem calls_cons (running : scan.stopped = false) (entry : Entry) (entries : List Entry) :
    scan.calls ++ [entry] <+: (visitAll callback scan (entry :: entries)).calls := by
  have first : (visit callback scan entry).calls = scan.calls ++ [entry] := by
    rw [visit, if_neg (Bool.eq_false_iff.mp running)]
  rw [← first]
  exact calls_isPrefix (visit callback scan entry) entries

/-- Two scans that go on with different entries differ. -/
theorem visitAll_ne_of_ne (running : scan.stopped = false) {entry other : Entry}
    (ne : entry ≠ other) (entries others : List Entry) :
    visitAll callback scan (entry :: entries) ≠ visitAll callback scan (other :: others) := by
  intro same
  obtain ⟨rest, left⟩ := calls_cons running entry entries
  obtain ⟨rest', right⟩ := calls_cons running other others
  rw [same, ← right, List.append_assoc, List.append_assoc, List.append_cancel_left_eq] at left
  exact ne (List.cons.inj left).1

/-- A scan that goes on is changed by the next entry. -/
theorem visitAll_cons_ne (running : scan.stopped = false) (entry : Entry) (entries : List Entry) :
    visitAll callback scan (entry :: entries) ≠ scan := by
  intro same
  obtain ⟨rest, calls⟩ := calls_cons running entry entries
  rw [same] at calls
  simp at calls

/-- The state after a scan, without its calls. -/
def run (callback : State → Entry → Reply × State) : State → List Entry → State
  | state, [] => state
  | state, entry :: entries =>
    match callback state entry with
    | (.stop, state) => state
    | (_, state) => run callback state entries

theorem visit_of_running (running : scan.stopped = false) (entry : Entry) :
    (visit callback scan entry).state = (callback scan.state entry).2 ∧
      (visit callback scan entry).stopped = ((callback scan.state entry).1 == .stop) := by
  rw [visit, if_neg (Bool.eq_false_iff.mp running)]
  exact ⟨rfl, rfl⟩

/-- The state of a scan is what a run of its callback leaves. -/
theorem state_visitAll (running : scan.stopped = false) (entries : List Entry) :
    (visitAll callback scan entries).state = run callback scan.state entries := by
  induction entries generalizing scan with
  | nil => rfl
  | cons entry entries ih =>
    obtain ⟨state, stopped⟩ := @visit_of_running _ _ callback _ running entry
    change (visitAll callback (visit callback scan entry) entries).state = _
    rw [run]
    obtain ⟨reply, same⟩ : ∃ answer, answer = callback scan.state entry := ⟨_, rfl⟩
    rw [← same] at state stopped ⊢
    obtain ⟨answer, after⟩ := reply
    cases answer with
    | stop => rw [visitAll_of_stopped stopped, state]
    | found => rw [ih stopped, state]
    | next => rw [ih stopped, state]

theorem state_visitAll_start (state : State) (entries : List Entry) :
    (visitAll callback (.start state) entries).state = run callback state entries :=
  state_visitAll rfl entries

/-- How many entries a run of the callback finds. -/
def foundBy (callback : State → Entry → Reply × State) : State → List Entry → Nat
  | _, [] => 0
  | state, entry :: entries =>
    match callback state entry with
    | (.stop, _) => 0
    | (.found, state) => foundBy callback state entries + 1
    | (.next, state) => foundBy callback state entries

theorem matched_visitAll (running : scan.stopped = false) (entries : List Entry) :
    (visitAll callback scan entries).matched =
      scan.matched + foundBy callback scan.state entries := by
  induction entries generalizing scan with
  | nil => rfl
  | cons entry entries ih =>
    obtain ⟨state, stopped⟩ := @visit_of_running _ _ callback _ running entry
    have matched : (visit callback scan entry).matched =
        if (callback scan.state entry).1 = .found then scan.matched + 1 else scan.matched := by
      rw [visit, if_neg (Bool.eq_false_iff.mp running)]
    change (visitAll callback (visit callback scan entry) entries).matched = _
    rw [foundBy]
    obtain ⟨reply, same⟩ : ∃ answer, answer = callback scan.state entry := ⟨_, rfl⟩
    rw [← same] at state stopped matched ⊢
    obtain ⟨answer, after⟩ := reply
    cases answer with
    | stop =>
      rw [visitAll_of_stopped stopped, matched]
      simp
    | found =>
      rw [ih stopped, state, matched, if_pos rfl, Nat.add_assoc, Nat.add_comm 1]
    | next =>
      rw [ih stopped, state, matched]
      simp

/-- Entries at which the callback does nothing are skipped. -/
theorem run_append_of_skips {state : State} {skipped : List Entry}
    (skips : ∀ entry ∈ skipped, callback state entry = (.next, state)) (entries : List Entry) :
    run callback state (skipped ++ entries) = run callback state entries := by
  induction skipped with
  | nil => rfl
  | cons entry skipped ih =>
    rw [List.cons_append, run, skips entry List.mem_cons_self]
    exact ih fun other member => skips other (List.mem_cons_of_mem entry member)

/-- Entries that leave the state alone, whether they stop the scan or not. -/
theorem run_of_unchanged {state : State} {entries : List Entry}
    (unchanged : ∀ entry ∈ entries, (callback state entry).2 = state) :
    run callback state entries = state := by
  induction entries with
  | nil => rfl
  | cons entry entries ih =>
    have rest := ih fun other member => unchanged other (List.mem_cons_of_mem entry member)
    rw [run]
    obtain ⟨reply, same⟩ : ∃ answer, answer = callback state entry := ⟨_, rfl⟩
    have first := unchanged entry List.mem_cons_self
    rw [← same] at first ⊢
    obtain ⟨answer, after⟩ := reply
    obtain rfl : after = state := first
    cases answer with
    | stop => rfl
    | found => exact rest
    | next => exact rest

/-- Entries at which the scan goes on, as long as an invariant holds of its state. -/
theorem run_append_of_goesOn (invariant : State → Prop) {state : State} {first : List Entry}
    (keeps : ∀ state, ∀ entry ∈ first, invariant state →
      (callback state entry).1 ≠ .stop ∧ invariant (callback state entry).2)
    (holds : invariant state) (second : List Entry) :
    ∃ after, invariant after ∧
      run callback state (first ++ second) = run callback after second := by
  induction first generalizing state with
  | nil => exact ⟨state, holds, rfl⟩
  | cons entry first ih =>
    obtain ⟨goesOn, next⟩ := keeps state entry List.mem_cons_self holds
    obtain ⟨after, stays, same⟩ := ih (fun state other member =>
      keeps state other (List.mem_cons_of_mem entry member)) next
    refine ⟨after, stays, ?_⟩
    rw [← same, List.cons_append, run]
    obtain ⟨reply, isReply⟩ : ∃ answer, answer = callback state entry := ⟨_, rfl⟩
    rw [← isReply] at goesOn ⊢
    obtain ⟨answer, changed⟩ := reply
    cases answer with
    | stop => exact absurd rfl goesOn
    | found => rfl
    | next => rfl

/-- Entries that leave the state alone either stop the scan or are skipped. -/
theorem run_append_of_unchanged {state : State} {first : List Entry}
    (unchanged : ∀ entry ∈ first, (callback state entry).2 = state) (second : List Entry) :
    run callback state (first ++ second) = state ∨
      run callback state (first ++ second) = run callback state second := by
  induction first with
  | nil => exact .inr rfl
  | cons entry first ih =>
    have rest := ih fun other member => unchanged other (List.mem_cons_of_mem entry member)
    rw [List.cons_append, run]
    obtain ⟨reply, same⟩ : ∃ answer, answer = callback state entry := ⟨_, rfl⟩
    have here := unchanged entry List.mem_cons_self
    rw [← same] at here ⊢
    obtain ⟨answer, after⟩ := reply
    obtain rfl : after = state := here
    cases answer with
    | stop => exact .inl rfl
    | found => exact rest
    | next => exact rest

end CallbackScan
