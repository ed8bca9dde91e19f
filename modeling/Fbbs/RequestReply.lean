import Mathlib.Data.Multiset.Filter
import Mathlib.Data.Multiset.UnionInter
import Mathlib.Logic.Function.Basic

/-!
# Request and reply over one mailbox per client

Clients send requests one at a time and wait for a reply in their own mailbox;
servers answer the requests in any order.  A client can give up waiting, which
leaves the reply to be found by a later wait.  Every call carries a ticket, so
that two equal requests of one client are told apart.

A wait returns the reply to its own call when no client gives up, or when the
calls of a client that are still outstanding all differ in a key that the
client compares.
-/

namespace RequestReply

variable {Client Request Answer : Type*}

@[ext]
structure Call (Client Request : Type*) where
  ticket : Nat
  client : Client
  request : Request
  deriving DecidableEq

structure Reply (Client Request Answer : Type*) where
  call : Call Client Request
  answer : Answer

structure Return (Client Request Answer : Type*) where
  call : Call Client Request
  reply : Reply Client Request Answer

structure State (Client Request Answer : Type*) where
  /-- Sent, and not answered yet. -/
  unanswered : Multiset (Call Client Request)
  /-- The mailboxes. -/
  replies : Client → List (Reply Client Request Answer)
  waiting : Client → Option (Call Client Request)
  /-- Everything that was sent, answered or returned so far. -/
  issued : List (Call Client Request)
  pushed : List (Reply Client Request Answer)
  returned : List (Return Client Request Answer)

def State.initial : State Client Request Answer where
  unanswered := 0
  replies _ := []
  waiting _ := none
  issued := []
  pushed := []
  returned := []

section Steps

variable [DecidableEq Client]

def State.send (state : State Client Request Answer) (client : Client)
    (request : Request) : State Client Request Answer :=
  let call : Call Client Request := ⟨state.issued.length, client, request⟩
  { state with
    unanswered := call ::ₘ state.unanswered
    waiting := Function.update state.waiting client (some call)
    issued := call :: state.issued }

def State.answer (state : State Client Request Answer)
    (rest : Multiset (Call Client Request))
    (reply : Reply Client Request Answer) : State Client Request Answer :=
  { state with
    unanswered := rest
    replies := Function.update state.replies reply.call.client
      (reply :: state.replies reply.call.client)
    pushed := reply :: state.pushed }

def State.receive (state : State Client Request Answer) (client : Client)
    (call : Call Client Request) (reply : Reply Client Request Answer)
    (rest : List (Reply Client Request Answer)) : State Client Request Answer :=
  { state with
    replies := Function.update state.replies client rest
    waiting := Function.update state.waiting client none
    returned := ⟨call, reply⟩ :: state.returned }

def State.giveUp (state : State Client Request Answer) (client : Client) :
    State Client Request Answer :=
  { state with waiting := Function.update state.waiting client none }

inductive Event (Client Request : Type*)
  | send (client : Client) (request : Request)
  | answer
  | receive (client : Client)
  | giveUp (client : Client)

inductive Step (state : State Client Request Answer) :
    Event Client Request → State Client Request Answer → Prop
  | send {client : Client} (request : Request)
      (idle : state.waiting client = none) :
      Step state (.send client request) (state.send client request)
  | answer {rest : Multiset (Call Client Request)}
      (reply : Reply Client Request Answer)
      (taken : state.unanswered = reply.call ::ₘ rest) :
      Step state .answer (state.answer rest reply)
  | receive {client : Client} {call : Call Client Request}
      {reply : Reply Client Request Answer}
      {rest : List (Reply Client Request Answer)}
      (waits : state.waiting client = some call)
      (arrived : state.replies client = reply :: rest) :
      Step state (.receive client) (state.receive client call reply rest)
  | giveUp {client : Client} :
      Step state (.giveUp client) (state.giveUp client)

section Fields

variable (state : State Client Request Answer) {client other : Client}

theorem send_waiting_self (request : Request) :
    (state.send client request).waiting client =
      some ⟨state.issued.length, client, request⟩ :=
  Function.update_self client _ state.waiting

theorem send_waiting_other (request : Request) (different : other ≠ client) :
    (state.send client request).waiting other = state.waiting other :=
  Function.update_of_ne different _ state.waiting

theorem answer_replies_self (rest : Multiset (Call Client Request))
    (reply : Reply Client Request Answer) :
    (state.answer rest reply).replies reply.call.client =
      reply :: state.replies reply.call.client :=
  Function.update_self reply.call.client _ state.replies

theorem answer_replies_other (rest : Multiset (Call Client Request))
    {reply : Reply Client Request Answer} (different : other ≠ reply.call.client) :
    (state.answer rest reply).replies other = state.replies other :=
  Function.update_of_ne different _ state.replies

variable (call : Call Client Request) (reply : Reply Client Request Answer)
variable (rest : List (Reply Client Request Answer))

theorem receive_replies_self :
    (state.receive client call reply rest).replies client = rest :=
  Function.update_self client _ state.replies

theorem receive_replies_other (different : other ≠ client) :
    (state.receive client call reply rest).replies other = state.replies other :=
  Function.update_of_ne different _ state.replies

theorem receive_waiting_self :
    (state.receive client call reply rest).waiting client = none :=
  Function.update_self client _ state.waiting

theorem receive_waiting_other (different : other ≠ client) :
    (state.receive client call reply rest).waiting other = state.waiting other :=
  Function.update_of_ne different _ state.waiting

theorem giveUp_waiting_other (different : other ≠ client) :
    (state.giveUp client).waiting other = state.waiting other :=
  Function.update_of_ne different _ state.waiting

end Fields

/-- The calls of a client whose reply it can still find in its mailbox. -/
def State.outstanding (state : State Client Request Answer) (client : Client) :
    Multiset (Call Client Request) :=
  state.unanswered.filter (·.client = client) +
    (state.replies client).map Reply.call

section Outstanding

variable (state : State Client Request Answer)

theorem outstanding_send_self (client : Client) (request : Request) :
    (state.send client request).outstanding client =
      ⟨state.issued.length, client, request⟩ ::ₘ state.outstanding client := by
  simp [State.outstanding, State.send]

theorem outstanding_send_other {client other : Client} (request : Request)
    (different : client ≠ other) :
    (state.send client request).outstanding other = state.outstanding other := by
  simp [State.outstanding, State.send, different]

/-- A reply keeps the call outstanding: it moves into the mailbox. -/
theorem outstanding_answer {rest : Multiset (Call Client Request)}
    {reply : Reply Client Request Answer}
    (taken : state.unanswered = reply.call ::ₘ rest) (client : Client) :
    (state.answer rest reply).outstanding client = state.outstanding client := by
  by_cases own : reply.call.client = client
  · subst own
    simp [State.outstanding, State.answer, taken, ← Multiset.cons_coe]
  · have other : client ≠ reply.call.client := fun equal => own equal.symm
    simp [State.outstanding, State.answer, taken, own, other]

theorem outstanding_receive_self {client : Client} (call : Call Client Request)
    {reply : Reply Client Request Answer}
    {rest : List (Reply Client Request Answer)}
    (arrived : state.replies client = reply :: rest) :
    state.outstanding client =
      reply.call ::ₘ (state.receive client call reply rest).outstanding client := by
  simp [State.outstanding, State.receive, arrived, ← Multiset.cons_coe]

theorem outstanding_receive_other {client other : Client}
    (call : Call Client Request) (reply : Reply Client Request Answer)
    (rest : List (Reply Client Request Answer)) (different : other ≠ client) :
    (state.receive client call reply rest).outstanding other =
      state.outstanding other := by
  simp [State.outstanding, State.receive, different]

end Outstanding

/-- Every call is unanswered or has been answered once, and what was returned
came out of the client's own mailbox. -/
structure Conserved (state : State Client Request Answer) : Prop where
  balance : state.unanswered +
    Multiset.ofList (state.pushed.map Reply.call) = Multiset.ofList state.issued
  tickets : ∀ call ∈ state.issued, call.ticket < state.issued.length
  nodup : state.issued.Nodup
  mailbox : ∀ client, ∀ reply ∈ state.replies client,
    reply.call.client = client ∧ reply ∈ state.pushed
  waits : ∀ client call, state.waiting client = some call → call.client = client
  own : ∀ entry ∈ state.returned,
    entry.reply.call.client = entry.call.client ∧ entry.reply ∈ state.pushed

omit [DecidableEq Client] in
theorem Conserved.initial :
    Conserved (State.initial : State Client Request Answer) where
  balance := rfl
  tickets := by simp [State.initial]
  nodup := List.nodup_nil
  mailbox := by simp [State.initial]
  waits := by simp [State.initial]
  own := by simp [State.initial]

theorem Conserved.step {state next : State Client Request Answer}
    {event : Event Client Request} (conserved : Conserved state)
    (stepped : Step state event next) : Conserved next := by
  obtain ⟨balance, tickets, nodup, mailbox, waits, own⟩ := conserved
  cases stepped with
  | @send client request idle =>
    refine ⟨?_, ?_, ?_, mailbox, ?_, own⟩
    · rw [State.send, Multiset.cons_add, balance, Multiset.cons_coe]
    · intro call member
      rcases List.mem_cons.mp member with rfl | old
      · exact Nat.lt_succ_self _
      · exact Nat.lt_succ_of_lt (tickets call old)
    · refine List.nodup_cons.mpr ⟨fun member => ?_, nodup⟩
      exact Nat.lt_irrefl _ (tickets _ member)
    · intro other call waiting
      by_cases same : other = client
      · subst same
        rw [send_waiting_self, Option.some.injEq] at waiting
        rw [← waiting]
      · rw [send_waiting_other state request same] at waiting
        exact waits other call waiting
  | @answer rest reply taken =>
    refine ⟨?_, tickets, nodup, ?_, waits, ?_⟩
    · rw [State.answer, List.map_cons, ← Multiset.cons_coe, Multiset.add_cons,
        ← Multiset.cons_add, ← taken, balance]
    · intro client queued member
      by_cases same : client = reply.call.client
      · subst same
        rw [answer_replies_self] at member
        rcases List.mem_cons.mp member with rfl | old
        · exact ⟨rfl, List.mem_cons_self⟩
        · exact ⟨(mailbox _ queued old).1,
            List.mem_cons_of_mem _ (mailbox _ queued old).2⟩
      · rw [answer_replies_other state rest same] at member
        exact ⟨(mailbox client queued member).1,
          List.mem_cons_of_mem _ (mailbox client queued member).2⟩
    · intro entry member
      exact ⟨(own entry member).1, List.mem_cons_of_mem _ (own entry member).2⟩
  | @receive client call reply rest waiting arrived =>
    refine ⟨balance, tickets, nodup, ?_, ?_, ?_⟩
    · intro other queued member
      by_cases same : other = client
      · subst same
        rw [receive_replies_self] at member
        exact mailbox other queued (arrived ▸ List.mem_cons_of_mem _ member)
      · rw [receive_replies_other state call reply rest same] at member
        exact mailbox other queued member
    · intro other waitingCall later
      by_cases same : other = client
      · simp [State.receive, same] at later
      · rw [receive_waiting_other state call reply rest same] at later
        exact waits other waitingCall later
    · intro entry member
      rcases List.mem_cons.mp member with rfl | old
      · have queued := mailbox client reply (arrived ▸ List.mem_cons_self)
        exact ⟨queued.1.trans (waits client call waiting).symm, queued.2⟩
      · exact own entry old
  | @giveUp client =>
    refine ⟨balance, tickets, nodup, mailbox, ?_, own⟩
    intro other waitingCall later
    by_cases same : other = client
    · simp [State.giveUp, same] at later
    · rw [giveUp_waiting_other state same] at later
      exact waits other waitingCall later

/-- Exactly one answer for every call that is not unanswered. -/
theorem Conserved.count [DecidableEq Request]
    {state : State Client Request Answer} (conserved : Conserved state)
    {call : Call Client Request} (sent : call ∈ state.issued) :
    state.unanswered.count call +
      (state.pushed.map Reply.call).count call = 1 := by
  have counted := congrArg (Multiset.count call) conserved.balance
  rw [Multiset.count_add, Multiset.coe_count, Multiset.coe_count] at counted
  rw [counted]
  exact List.count_eq_one_of_mem conserved.nodup sent

/-- Only the call that a client waits for is outstanding, and every other call
has returned. -/
structure Lossless (state : State Client Request Answer) : Prop where
  alone : ∀ client, state.outstanding client =
    Multiset.ofList (state.waiting client).toList
  matched : ∀ entry ∈ state.returned, entry.reply.call = entry.call
  settled : ∀ call ∈ state.issued, state.waiting call.client = some call ∨
    ∃ entry ∈ state.returned, entry.call = call

theorem Lossless.initial :
    Lossless (State.initial : State Client Request Answer) where
  alone _ := rfl
  matched := by simp [State.initial]
  settled := by simp [State.initial]

theorem Lossless.reply_call {state : State Client Request Answer}
    (lossless : Lossless state) {client : Client} {call : Call Client Request}
    {reply : Reply Client Request Answer}
    {rest : List (Reply Client Request Answer)}
    (waits : state.waiting client = some call)
    (arrived : state.replies client = reply :: rest) : reply.call = call := by
  have outstanding := lossless.alone client
  rw [outstanding_receive_self state call arrived, waits] at outstanding
  have member : reply.call ∈ (Multiset.ofList [call]) :=
    outstanding ▸ Multiset.mem_cons_self _ _
  simpa using member

/-- A client that waits finds its mailbox empty until its call is answered, and
then nothing but the reply to that call. -/
theorem Lossless.replies_of_waiting {state : State Client Request Answer}
    (lossless : Lossless state) (conserved : Conserved state) {client : Client}
    {call : Call Client Request} (waits : state.waiting client = some call) :
    (call ∈ state.unanswered ∧ state.replies client = []) ∨
      (call ∉ state.unanswered ∧
        ∃ reply, state.replies client = [reply] ∧ reply.call = call) := by
  have own := conserved.waits client call waits
  have alone := lossless.alone client
  rw [waits, State.outstanding] at alone
  cases arrived : state.replies client with
  | nil =>
    left
    have member : call ∈ state.unanswered.filter (·.client = client) := by
      rw [arrived, List.map_nil, Multiset.coe_nil, Multiset.add_zero] at alone
      simp [alone]
    exact ⟨(Multiset.mem_filter.mp member).1, rfl⟩
  | cons reply rest =>
    right
    have replyEq := lossless.reply_call waits arrived
    rw [arrived, List.map_cons, ← Multiset.cons_coe, Multiset.add_cons, replyEq] at alone
    have nothingElse := (Multiset.cons_inj_right call).mp (alone.trans rfl :
      call ::ₘ _ = call ::ₘ 0)
    have outstandingNot : ∀ other, other ∉ (0 : Multiset (Call Client Request)) :=
      Multiset.notMem_zero
    constructor
    · intro unanswered
      apply outstandingNot call
      rw [← nothingElse]
      exact Multiset.mem_add.mpr
        (.inl (Multiset.mem_filter.mpr ⟨unanswered, own⟩))
    · cases rest with
      | nil => exact ⟨reply, rfl, replyEq⟩
      | cons other rest =>
        apply absurd _ (outstandingNot other.call)
        rw [← nothingElse]
        exact Multiset.mem_add.mpr (.inr List.mem_cons_self)

theorem Lossless.step {state next : State Client Request Answer}
    {event : Event Client Request} (lossless : Lossless state)
    (patient : ∀ client, event ≠ .giveUp client)
    (stepped : Step state event next) : Lossless next := by
  cases stepped with
  | @send client request idle =>
    refine ⟨fun other => ?_, lossless.matched, fun call issued => ?_⟩
    · by_cases same : client = other
      · subst same
        rw [outstanding_send_self, lossless.alone client, idle,
          send_waiting_self]
        rfl
      · rw [outstanding_send_other state request same, lossless.alone other,
          send_waiting_other state request (Ne.symm same)]
    · rcases List.mem_cons.mp issued with rfl | old
      · exact .inl (send_waiting_self state request)
      · rcases lossless.settled call old with waits | returned
        · have different : call.client ≠ client := by
            intro same
            rw [same, idle] at waits
            cases waits
          exact .inl ((send_waiting_other state request different).trans waits)
        · exact .inr returned
  | @answer rest reply taken =>
    refine ⟨fun client => ?_, lossless.matched, lossless.settled⟩
    rw [outstanding_answer state taken, lossless.alone client]
    rfl
  | @receive client call reply rest waits arrived =>
    have replyEq := lossless.reply_call waits arrived
    refine ⟨fun other => ?_, fun entry member => ?_, fun sent issued => ?_⟩
    · by_cases same : other = client
      · subst same
        have before := lossless.alone other
        rw [outstanding_receive_self state call arrived, waits, replyEq] at before
        rw [(Multiset.cons_inj_right call).mp (before.trans rfl :
          call ::ₘ _ = call ::ₘ 0), receive_waiting_self]
        rfl
      · rw [outstanding_receive_other state call reply rest same,
          lossless.alone other, receive_waiting_other state call reply rest same]
    · rcases List.mem_cons.mp member with rfl | old
      · exact replyEq
      · exact lossless.matched entry old
    · rcases lossless.settled sent issued with stillWaits | ⟨entry, member, entryEq⟩
      · by_cases same : sent.client = client
        · rw [same, waits, Option.some.injEq] at stillWaits
          exact .inr ⟨⟨call, reply⟩, List.mem_cons_self, stillWaits⟩
        · exact .inl
            ((receive_waiting_other state call reply rest same).trans stillWaits)
      · exact .inr ⟨entry, List.mem_cons_of_mem _ member, entryEq⟩
  | giveUp => exact absurd rfl (patient _)

section Keys

variable {Key : Type*} (key : Request → Key) (client : Client)

/-- The outstanding calls of the client differ in their keys, and the call it
waits for is among them. -/
structure Separated (state : State Client Request Answer) : Prop where
  keys : ((state.outstanding client).map (key ·.request)).Nodup
  waited : ∀ call, state.waiting client = some call →
    call ∈ state.outstanding client
  matched : ∀ entry ∈ state.returned, entry.call.client = client →
    key entry.reply.call.request = key entry.call.request →
    entry.reply.call = entry.call

/-- The client sends a request only when no outstanding call has its key. -/
def FreshKey (state : State Client Request Answer) :
    Event Client Request → Prop
  | .send sender request => sender = client →
      ∀ call ∈ state.outstanding client, key call.request ≠ key request
  | _ => True

theorem Separated.initial :
    Separated key client (State.initial : State Client Request Answer) where
  keys := Multiset.nodup_zero
  waited := by simp [State.initial]
  matched := by simp [State.initial]

variable {key client}

theorem Separated.step {state next : State Client Request Answer}
    {event : Event Client Request} (separated : Separated key client state)
    (conserved : Conserved state) (fresh : FreshKey key client state event)
    (stepped : Step state event next) : Separated key client next := by
  obtain ⟨keys, waited, matched⟩ := separated
  cases stepped with
  | @send sender request idle =>
    by_cases same : sender = client
    · subst same
      refine ⟨?_, ?_, matched⟩
      · rw [outstanding_send_self, Multiset.map_cons, Multiset.nodup_cons]
        refine ⟨fun member => ?_, keys⟩
        obtain ⟨call, outstanding, sameKey⟩ := Multiset.mem_map.mp member
        exact fresh rfl call outstanding sameKey
      · intro call waits
        rw [send_waiting_self, Option.some.injEq] at waits
        rw [outstanding_send_self, ← waits]
        exact Multiset.mem_cons_self _ _
    · refine ⟨?_, ?_, matched⟩
      · rw [outstanding_send_other state request same]
        exact keys
      · intro call waits
        rw [send_waiting_other state request (Ne.symm same)] at waits
        rw [outstanding_send_other state request same]
        exact waited call waits
  | @answer rest reply taken =>
    refine ⟨?_, ?_, matched⟩
    · rw [outstanding_answer state taken]
      exact keys
    · intro call waits
      rw [outstanding_answer state taken]
      exact waited call waits
  | @receive receiver call reply rest waits arrived =>
    by_cases same : client = receiver
    · subst same
      have outstandingEq := outstanding_receive_self state call arrived
      refine ⟨?_, ?_, fun entry member ownEntry sameKey => ?_⟩
      · rw [outstandingEq, Multiset.map_cons, Multiset.nodup_cons] at keys
        exact keys.2
      · intro other later
        simp [State.receive] at later
      · rcases List.mem_cons.mp member with rfl | old
        · have replyIn : reply.call ∈ state.outstanding client :=
            outstandingEq ▸ Multiset.mem_cons_self _ _
          exact Multiset.inj_on_of_nodup_map keys reply.call replyIn call
            (waited call waits) sameKey
        · exact matched entry old ownEntry sameKey
    · refine ⟨?_, ?_, fun entry member ownEntry sameKey => ?_⟩
      · rw [outstanding_receive_other state call reply rest same]
        exact keys
      · intro other later
        rw [receive_waiting_other state call reply rest same] at later
        rw [outstanding_receive_other state call reply rest same]
        exact waited other later
      · rcases List.mem_cons.mp member with rfl | old
        · exact absurd (ownEntry.symm.trans (conserved.waits receiver call waits))
            same
        · exact matched entry old ownEntry sameKey
  | @giveUp quitter =>
    refine ⟨keys, fun call waits => ?_, matched⟩
    by_cases same : client = quitter
    · simp [State.giveUp, same] at waits
    · rw [giveUp_waiting_other state same] at waits
      exact waited call waits

end Keys

end Steps

end RequestReply
