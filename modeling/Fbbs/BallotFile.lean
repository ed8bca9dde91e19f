import Mathlib.Data.List.Dedup
import Mathlib.Logic.Function.Basic
import Fbbs.Parcel
import Fbbs.TransitionRuns

/-!
# The ballot file

`user_vote` of `src/vote.c`: a session finds the ballot of its user, lets the user choose,
looks the ballot up once more, and then overwrites it or appends a new one.  Sessions of the
same user and of other users may do anything between these steps.
-/

namespace Fbbs

namespace BallotFile

/-- `struct ballot`. -/
structure Ballot where
  uid : CString
  voted : UInt32
  msg : List CString
  deriving DecidableEq

/-- What `memset` makes of a ballot. -/
def zeroBallot : Ballot :=
  ⟨.empty, 0, [.empty, .empty, .empty]⟩

/-- `search_record` with `cmpvuid`: positions are counted from one, and zero is none. -/
def searchRecord (ballots : List Ballot) (userid : CString) : Nat :=
  match ballots.findIdx? (·.uid == userid) with
  | some index => index + 1
  | none => 0

def substituteRecord (ballots : List Ballot) (ballot : Ballot) (pos : Nat) : List Ballot :=
  (ballots ++ List.replicate (pos - ballots.length) zeroBallot).set (pos - 1) ballot

def appendRecord (ballots : List Ballot) (ballot : Ballot) : List Ballot :=
  ballots ++ [ballot]

/-- Where a session stands in `user_vote`. -/
inductive Phase
  | idle
  | choosing (uservote : Ballot)
  | chosen (uservote : Ballot)
  | found (uservote : Ballot) (pos : Nat)

/-- The file, the sessions, and all ballots that have been recorded so far. -/
structure System where
  ballots : List Ballot
  phase : Nat → Phase
  recorded : List Ballot

inductive Action
  | enter (session : Nat)
  | abort (session : Nat)
  | choose (session : Nat) (voted : UInt32) (msg : List CString)
  | search (session : Nat)
  | record (session : Nat)

def System.goto (system : System) (session : Nat) (phase : Phase) : System :=
  { system with phase := Function.update system.phase session phase }

section Votes

-- The user of each session; a user may have several.
variable (user : Nat → CString)

def step (system : System) : Action → Option System
  | .enter session =>
    match system.phase session with
    | .idle =>
      let old := (system.ballots.find? (·.uid == user session)).getD zeroBallot
      some (system.goto session (.choosing { old with uid := user session }))
    | _ => none
  | .abort session =>
    match system.phase session with
    | .choosing _ => some (system.goto session .idle)
    | _ => none
  | .choose session voted msg =>
    match system.phase session with
    | .choosing uservote => some (system.goto session (.chosen { uservote with voted, msg }))
    | _ => none
  | .search session =>
    match system.phase session with
    | .chosen uservote =>
      some (system.goto session
        (.found uservote (searchRecord system.ballots (user session))))
    | _ => none
  | .record session =>
    match system.phase session with
    | .found uservote pos =>
      some ({ system with
        ballots :=
          if pos ≠ 0 then substituteRecord system.ballots uservote pos
          else appendRecord system.ballots uservote
        recorded := system.recorded ++ [uservote] }.goto session .idle)
    | _ => none

/-- The vote has been opened. -/
def start : System where
  ballots := []
  phase := fun _ => .idle
  recorded := []

def lastBallot (recorded : List Ballot) (userid : CString) : Option Ballot :=
  (recorded.filter (·.uid == userid)).getLast?

/-- There is one ballot for each user who has voted, the last one that was recorded. -/
structure OneBallot (system : System) : Prop where
  single : (system.ballots.map Ballot.uid).Nodup
  last : ∀ ballot ∈ system.ballots, lastBallot system.recorded ballot.uid = some ballot
  count : system.ballots.length = (system.recorded.map Ballot.uid).dedup.length

/-- No other session of the same user is about to append a ballot. -/
def Alone (system : System) (session : Nat) : Prop :=
  ∀ other, other ≠ session → user other = user session →
    ∀ uservote, system.phase other ≠ .found uservote 0

/-- A session looks for the ballot of its user when there is one, or when no other session
of the user is about to append the first one. -/
def NoOvertaking (system : System) : Action → Prop
  | .search session =>
    (∃ ballot ∈ system.ballots, ballot.uid = user session) ∨ Alone user system session
  | _ => True

/-! ## The invariant -/

/-- The ballot of a session that has none yet is appended, and otherwise its own one is
overwritten. -/
def PhaseOk (system : System) (session : Nat) : Phase → Prop
  | .idle => True
  | .choosing uservote => uservote.uid = user session
  | .chosen uservote => uservote.uid = user session
  | .found uservote pos => uservote.uid = user session ∧
      (pos = 0 → (∀ ballot ∈ system.ballots, ballot.uid ≠ user session) ∧
        Alone user system session) ∧
      (pos ≠ 0 → ∃ ballot, system.ballots[pos - 1]? = some ballot ∧ ballot.uid = user session)

structure Consistent (system : System) : Prop where
  single : (system.ballots.map Ballot.uid).Nodup
  last : ∀ userid, system.ballots.find? (·.uid == userid) = lastBallot system.recorded userid
  phases : ∀ session, PhaseOk user system session (system.phase session)

end Votes

theorem searchRecord_eq_zero {ballots : List Ballot} {userid : CString} :
    searchRecord ballots userid = 0 ↔ ∀ ballot ∈ ballots, ballot.uid ≠ userid := by
  rw [searchRecord]
  cases found : ballots.findIdx? (·.uid == userid) with
  | none =>
    have none := List.findIdx?_eq_none_iff.mp found
    simpa using none
  | some index =>
    obtain ⟨inside, same, -⟩ := List.findIdx?_eq_some_iff_getElem.mp found
    refine iff_of_false (Nat.succ_ne_zero index) fun none => ?_
    exact none _ (List.getElem_mem inside) (beq_iff_eq.mp same)

theorem getElem?_searchRecord {ballots : List Ballot} {userid : CString}
    (found : searchRecord ballots userid ≠ 0) :
    ∃ ballot, ballots[searchRecord ballots userid - 1]? = some ballot ∧ ballot.uid = userid := by
  rw [searchRecord] at found ⊢
  cases position : ballots.findIdx? (·.uid == userid) with
  | none =>
    rw [position] at found
    exact absurd rfl found
  | some index =>
    obtain ⟨inside, same, -⟩ := List.findIdx?_eq_some_iff_getElem.mp position
    exact ⟨ballots[index], List.getElem?_eq_getElem inside, beq_iff_eq.mp same⟩

theorem lastBallot_append (recorded : List Ballot) (ballot : Ballot) (userid : CString) :
    lastBallot (recorded ++ [ballot]) userid =
      if ballot.uid = userid then some ballot else lastBallot recorded userid := by
  rw [lastBallot, List.filter_append]
  by_cases same : ballot.uid = userid
  · simp [same]
  · simp [same, lastBallot]

/-- A file after a ballot has been written to it: that ballot is the one of its user now,
and nothing else has changed. -/
structure Written (before after : List Ballot) (ballot : Ballot) : Prop where
  single : (after.map Ballot.uid).Nodup
  find : ∀ userid, after.find? (·.uid == userid) =
    if ballot.uid = userid then some ballot else before.find? (·.uid == userid)
  stays : ∀ (index : Nat) (old : Ballot), before[index]? = some old →
    ∃ new : Ballot, after[index]? = some new ∧ new.uid = old.uid
  only : ∀ new ∈ after, new.uid = ballot.uid ∨ ∃ old ∈ before, old.uid = new.uid

/-- A ballot is found by the id of its user. -/
theorem find?_uid {ballots : List Ballot} (single : (ballots.map Ballot.uid).Nodup)
    {ballot : Ballot} (member : ballot ∈ ballots) :
    ballots.find? (·.uid == ballot.uid) = some ballot := by
  induction ballots with
  | nil => exact absurd member List.not_mem_nil
  | cons first rest ih =>
    rw [List.map_cons, List.nodup_cons] at single
    rcases List.mem_cons.mp member with here | later
    · subst here
      exact List.find?_cons_of_pos (beq_self_eq_true _)
    · have apart : first.uid ≠ ballot.uid := by
        intro same
        apply single.1
        rw [same]
        exact List.mem_map_of_mem later
      rw [List.find?_cons_of_neg (by simpa using apart)]
      exact ih single.2 later

theorem find?_set {ballots : List Ballot} {index : Nat} {old ballot : Ballot}
    (place : ballots[index]? = some old) {userid : CString} (oldApart : old.uid ≠ userid)
    (newApart : ballot.uid ≠ userid) :
    (ballots.set index ballot).find? (·.uid == userid) =
      ballots.find? (·.uid == userid) := by
  induction ballots generalizing index with
  | nil => rfl
  | cons first rest ih =>
    cases index with
    | zero =>
      rw [List.getElem?_cons_zero, Option.some.injEq] at place
      subst place
      rw [List.set_cons_zero, List.find?_cons_of_neg (by simpa using newApart),
        List.find?_cons_of_neg (by simpa using oldApart)]
    | succ index =>
      rw [List.getElem?_cons_succ] at place
      rw [List.set_cons_succ, List.find?_cons, List.find?_cons, ih place]

theorem written_append {ballots : List Ballot} {ballot : Ballot}
    (single : (ballots.map Ballot.uid).Nodup)
    (none : ∀ old ∈ ballots, old.uid ≠ ballot.uid) :
    Written ballots (appendRecord ballots ballot) ballot where
  single := by
    rw [appendRecord, List.map_append, List.map_singleton, List.nodup_append]
    refine ⟨single, List.nodup_singleton _, ?_⟩
    intro uid member other same
    obtain ⟨old, inside, rfl⟩ := List.mem_map.mp member
    rw [List.mem_singleton.mp same]
    exact none old inside
  find := by
    intro userid
    rw [appendRecord, List.find?_append, List.find?_singleton]
    by_cases same : ballot.uid = userid
    · have missing : ballots.find? (·.uid == userid) = Option.none :=
        List.find?_eq_none.mpr fun old inside => by simpa [← same] using none old inside
      simp [missing, same]
    · simp [same]
  stays := by
    intro index old place
    refine ⟨old, ?_, rfl⟩
    rw [appendRecord, List.getElem?_append_left (List.getElem?_eq_some_iff.mp place).1]
    exact place
  only := by
    intro new member
    rcases List.mem_append.mp member with inside | last
    · exact Or.inr ⟨new, inside, rfl⟩
    · exact Or.inl (congrArg Ballot.uid (List.mem_singleton.mp last))

theorem map_uid_set {ballots : List Ballot} {index : Nat} {old ballot : Ballot}
    (place : ballots[index]? = some old) (same : old.uid = ballot.uid) :
    (ballots.set index ballot).map Ballot.uid = ballots.map Ballot.uid := by
  obtain ⟨inside, value⟩ := List.getElem?_eq_some_iff.mp place
  apply List.ext_getElem (by simp)
  intro i first second
  simp only [List.getElem_map, List.getElem_set]
  split
  · rename_i here
    subst here
    rw [value, same]
  · rfl

theorem substituteRecord_eq {ballots : List Ballot} {pos : Nat} {old : Ballot}
    (place : ballots[pos - 1]? = some old) (ballot : Ballot) :
    substituteRecord ballots ballot pos = ballots.set (pos - 1) ballot := by
  have inside := (List.getElem?_eq_some_iff.mp place).1
  have short : pos - ballots.length = 0 := by omega
  rw [substituteRecord, short, List.replicate_zero, List.append_nil]

theorem written_substitute {ballots : List Ballot} {ballot old : Ballot} {pos : Nat}
    (single : (ballots.map Ballot.uid).Nodup) (place : ballots[pos - 1]? = some old)
    (same : old.uid = ballot.uid) :
    Written ballots (substituteRecord ballots ballot pos) ballot := by
  have uids := map_uid_set place same
  have inside := (List.getElem?_eq_some_iff.mp place).1
  have singleAfter : ((ballots.set (pos - 1) ballot).map Ballot.uid).Nodup := by
    rw [uids]
    exact single
  rw [substituteRecord_eq place]
  refine ⟨singleAfter, ?_, ?_, ?_⟩
  · intro userid
    split
    · rename_i this
      subst this
      exact find?_uid singleAfter (List.mem_set inside ballot)
    · rename_i apart
      exact find?_set place (by rwa [same]) apart
  · intro index before found
    have uidAt := congrArg (·[index]?) uids
    simp only [List.getElem?_map, found, Option.map_some] at uidAt
    obtain ⟨new, newPlace, newUid⟩ := Option.map_eq_some_iff.mp uidAt
    exact ⟨new, newPlace, newUid⟩
  · intro new member
    right
    have listed : new.uid ∈ ballots.map Ballot.uid := by
      rw [← uids]
      exact List.mem_map_of_mem member
    exact List.mem_map.mp listed

section Steps

variable {user : Nat → CString} {system : System}

theorem goto_phase (system : System) (session : Nat) (phase : Phase) (other : Nat) :
    (system.goto session phase).phase other =
      if other = session then phase else system.phase other :=
  Function.update_apply ..

theorem alone_goto {session current : Nat} {phase : Phase} (alone : Alone user system current)
    (calm : current ≠ session → user session = user current →
      ∀ uservote, phase ≠ .found uservote 0) :
    Alone user (system.goto session phase) current := by
  intro other apart same uservote
  rw [goto_phase]
  split
  · rename_i moved
    subst moved
    exact calm (Ne.symm apart) same uservote
  · exact alone other apart same uservote

/-- A step of a session that leaves the file alone. -/
theorem consistent_goto (consistent : Consistent user system) {session : Nat} {phase : Phase}
    (ok : PhaseOk user system session phase)
    (calm : (∀ uservote, phase ≠ .found uservote 0) ∨ Alone user system session) :
    Consistent user (system.goto session phase) := by
  refine ⟨consistent.single, consistent.last, ?_⟩
  intro current
  rw [goto_phase]
  split
  · rename_i here
    subst here
    cases phase with
    | idle => trivial
    | choosing uservote => exact ok
    | chosen uservote => exact ok
    | found uservote pos =>
      obtain ⟨uid, appends, replaces⟩ := ok
      refine ⟨uid, fun none => ?_, replaces⟩
      obtain ⟨noBallot, alone⟩ := appends none
      exact ⟨noBallot, alone_goto alone fun apart => absurd rfl apart⟩
  · rename_i apart
    have before := consistent.phases current
    cases place : system.phase current with
    | idle => trivial
    | choosing uservote =>
      rw [place] at before
      exact before
    | chosen uservote =>
      rw [place] at before
      exact before
    | found uservote pos =>
      rw [place] at before
      obtain ⟨uid, appends, replaces⟩ := before
      refine ⟨uid, fun none => ?_, replaces⟩
      obtain ⟨noBallot, alone⟩ := appends none
      refine ⟨noBallot, alone_goto alone fun _ same otherVote => ?_⟩
      rcases calm with notAppending | sessionAlone
      · exact notAppending otherVote
      · subst none
        exact absurd place (sessionAlone current apart same.symm uservote)

/-- A session writes its ballot, and no other session of its user is about to append one. -/
theorem consistent_record (consistent : Consistent user system) {session : Nat}
    {after : List Ballot} {ballot : Ballot} (own : ballot.uid = user session)
    (written : Written system.ballots after ballot) (alone : Alone user system session) :
    Consistent user ({ system with
      ballots := after, recorded := system.recorded ++ [ballot] }.goto session .idle) := by
  refine ⟨written.single, ?_, ?_⟩
  · intro userid
    show after.find? _ = lastBallot (system.recorded ++ [ballot]) userid
    rw [lastBallot_append, written.find, consistent.last]
  · intro current
    rw [goto_phase]
    split
    · trivial
    · rename_i apart
      have before := consistent.phases current
      show PhaseOk user _ current (system.phase current)
      cases place : system.phase current with
      | idle => trivial
      | choosing uservote =>
        rw [place] at before
        exact before
      | chosen uservote =>
        rw [place] at before
        exact before
      | found uservote pos =>
        rw [place] at before
        obtain ⟨uid, appends, replaces⟩ := before
        refine ⟨uid, fun none => ?_, fun some => ?_⟩
        · obtain ⟨noBallot, currentAlone⟩ := appends none
          subst none
          refine ⟨?_, alone_goto currentAlone fun _ _ _ => nofun⟩
          intro new member same
          rcases written.only new member with this | ⟨old, inside, oldSame⟩
          · exact alone current apart (by rw [← same, this, own]) uservote place
          · exact noBallot old inside (oldSame.trans same)
        · obtain ⟨old, oldPlace, oldUid⟩ := replaces some
          obtain ⟨new, newPlace, newUid⟩ := written.stays (pos - 1) old oldPlace
          exact ⟨new, newPlace, newUid.trans oldUid⟩

/-- The ballot of a user who has one is never appended a second time. -/
theorem alone_of_ballot (consistent : Consistent user system) {session : Nat} {ballot : Ballot}
    (member : ballot ∈ system.ballots) (own : ballot.uid = user session) :
    Alone user system session := by
  intro other _ same uservote place
  have phase := consistent.phases other
  rw [place] at phase
  obtain ⟨noBallot, -⟩ := phase.2.1 rfl
  exact noBallot ballot member (own.trans same.symm)

theorem consistent_step (consistent : Consistent user system) {action : Action} {next : System}
    (allowed : NoOvertaking user system action) (stepped : step user system action = some next) :
    Consistent user next := by
  cases action with
  | enter session =>
    rw [step] at stepped
    split at stepped
    · cases stepped
      exact consistent_goto consistent rfl (Or.inl fun _ => nofun)
    · cases stepped
  | abort session =>
    rw [step] at stepped
    split at stepped
    · cases stepped
      exact consistent_goto consistent trivial (Or.inl fun _ => nofun)
    · cases stepped
  | choose session voted msg =>
    rw [step] at stepped
    split at stepped
    · rename_i uservote place
      have before := consistent.phases session
      rw [place] at before
      cases stepped
      exact consistent_goto consistent before (Or.inl fun _ => nofun)
    · cases stepped
  | search session =>
    rw [step] at stepped
    split at stepped
    · rename_i uservote place
      have before := consistent.phases session
      rw [place] at before
      cases stepped
      have alone : Alone user system session := by
        rcases allowed with ⟨ballot, member, own⟩ | alone
        · exact alone_of_ballot consistent member own
        · exact alone
      refine consistent_goto consistent ⟨before, ?_, getElem?_searchRecord⟩ (Or.inr alone)
      exact fun none => ⟨searchRecord_eq_zero.mp none, alone⟩
    · cases stepped
  | record session =>
    rw [step] at stepped
    split at stepped
    · rename_i uservote pos place
      have before := consistent.phases session
      rw [place] at before
      obtain ⟨own, appends, replaces⟩ := before
      cases stepped
      by_cases none : pos = 0
      · obtain ⟨noBallot, alone⟩ := appends none
        rw [if_neg (not_not.mpr none)]
        apply consistent_record consistent own _ alone
        exact written_append consistent.single (by rwa [own])
      · obtain ⟨old, oldPlace, oldUid⟩ := replaces none
        rw [if_pos none]
        apply consistent_record consistent own
        · exact written_substitute consistent.single oldPlace (oldUid.trans own.symm)
        · exact alone_of_ballot consistent (List.mem_of_getElem? oldPlace) oldUid
    · cases stepped

theorem consistent_start (user : Nat → CString) : Consistent user start where
  single := List.nodup_nil
  last := fun _ => rfl
  phases := fun _ => trivial

/-- The users who have a ballot in the file are those who have recorded one. -/
theorem mem_uids_iff (consistent : Consistent user system) (userid : CString) :
    userid ∈ system.ballots.map Ballot.uid ↔ userid ∈ system.recorded.map Ballot.uid := by
  have listed := consistent.last userid
  rw [lastBallot] at listed
  have inFile : userid ∈ system.ballots.map Ballot.uid ↔
      (system.ballots.find? (·.uid == userid)).isSome := by
    simp [List.find?_isSome]
  have inRecorded : userid ∈ system.recorded.map Ballot.uid ↔
      ((system.recorded.filter (·.uid == userid)).getLast?).isSome := by
    simp
  rw [inFile, inRecorded, listed]

theorem oneBallot_of_consistent (consistent : Consistent user system) : OneBallot system where
  single := consistent.single
  last := by
    intro ballot member
    rw [← consistent.last]
    exact find?_uid consistent.single member
  count := by
    have same : List.Perm (system.ballots.map Ballot.uid)
        (system.recorded.map Ballot.uid).dedup := by
      apply (List.perm_ext_iff_of_nodup consistent.single (List.nodup_dedup _)).mpr
      intro userid
      rw [List.mem_dedup]
      exact mem_uids_iff consistent userid
    rw [← same.length_eq, List.length_map]

end Steps

/-- As long as no session looks for a ballot while another session of its user is about to
append the first one, there is one ballot for each user who has voted: the last one that the
user recorded. -/
theorem oneBallot_of_guarded (user : Nat → CString) {actions : List Action} {system : System}
    (guarded : TransitionRuns.Guarded (step user) (NoOvertaking user) actions start)
    (runs : TransitionRuns.run (step user) actions start = some system) : OneBallot system := by
  apply @oneBallot_of_consistent user
  apply TransitionRuns.invariant_of_guarded (Consistent user) _ (consistent_start user) guarded
    runs
  exact fun _ _ _ consistent allowed stepped => consistent_step consistent allowed stepped

def bob : CString := ⟨[98, 111, 98], by decide⟩

/-- A user votes in one session, and changes the ballot in another one. -/
def secondThoughts : List Action :=
  [.enter 1, .choose 1 1 [], .enter 2, .search 1, .record 1, .choose 2 2 [], .search 2, .record 2]

theorem guarded_secondThoughts :
    TransitionRuns.Guarded (step fun _ => bob) (NoOvertaking fun _ => bob) secondThoughts
      start := by
  apply TransitionRuns.guarded_cons trivial rfl
  apply TransitionRuns.guarded_cons trivial rfl
  apply TransitionRuns.guarded_cons trivial rfl
  refine TransitionRuns.guarded_cons (Or.inr ?_) rfl ?_
  · intro other _ _ uservote
    simp only [System.goto, Function.update_apply, start]
    split_ifs <;> exact nofun
  apply TransitionRuns.guarded_cons trivial rfl
  apply TransitionRuns.guarded_cons trivial rfl
  refine TransitionRuns.guarded_cons (Or.inl ⟨_, List.mem_singleton_self _, rfl⟩) rfl ?_
  exact TransitionRuns.guarded_cons trivial rfl trivial

theorem oneBallot_secondThoughts :
    ∃ system, TransitionRuns.run (step fun _ => bob) secondThoughts start = some system ∧
      OneBallot system :=
  ⟨_, rfl, oneBallot_of_guarded (fun _ => bob) guarded_secondThoughts rfl⟩

/-- Two sessions of a user look for the ballot before either has appended it. -/
theorem two_ballots :
    ¬∀ (user : Nat → CString) (actions : List Action) (system : System),
      TransitionRuns.run (step user) actions start = some system →
      (∀ session, system.phase session = .idle) → OneBallot system := by
  intro oneBallot
  have one := oneBallot (fun _ => bob)
    [.enter 1, .choose 1 1 [], .enter 2, .choose 2 2 [], .search 1, .search 2, .record 1,
      .record 2] _ rfl (by
        intro session
        simp only [System.goto, Function.update_apply, start]
        split_ifs <;> rfl)
  have single := one.single
  revert single
  decide

end BallotFile

end Fbbs
