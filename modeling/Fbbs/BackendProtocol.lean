import Fbbs.BackendFrames
import Fbbs.RequestReply
import Fbbs.TransitionRuns

/-!
# The exchange between front ends and backend workers

`backend_request` pushes a frame onto one request list, which all workers pop,
and then pops the list `response_<pid>` of its own process; the lists are
stacks, since `LPUSH` and `BLPOP` work on the same end.  A worker parses the
frame, runs the handler of its type, and pushes the answer: `post_new` pushes
it before the handler has finished, the other handlers at their end, and the
main loop pushes the error answer when a handler returns false.

A state records along with each frame the call it was built for, which no step
looks at.  Forgetting the bytes gives the request and reply pattern.
-/

namespace Fbbs

namespace Backend

open Parcel

abbrev Call := RequestReply.Call Int32 Request

/-- A request frame in the redis list or at a worker. -/
structure Sent where
  call : Call
  bytes : Bytes

/-- An answer frame; `outcome` is what the handler returned in its response,
`none` when it failed. -/
structure Answer where
  outcome : Option Response
  bytes : Bytes

abbrev Reply := RequestReply.Reply Int32 Request Answer

/-- A finished `backend_request`: the answer that was popped, and the response
if the call returned true. -/
structure Returned where
  call : Call
  reply : Reply
  result : Option Response

structure State where
  /-- The list `BACKEND_REQUEST_KEY`. -/
  requests : List Sent
  /-- Workers inside a handler that has not answered. -/
  handling : List Sent
  /-- Workers whose handler has answered and will return true. -/
  finishing : List Sent
  /-- Workers whose handler has returned false. -/
  failed : List Sent
  /-- The lists `BACKEND_RESPONSE_KEY_<pid>`. -/
  responses : Int32 → List Reply
  /-- Processes between the push and the pop of `backend_request`. -/
  waiting : Int32 → Option Call
  issued : List Call
  pushed : List (Int32 × Reply)
  returned : List Returned

def State.initial : State where
  requests := []
  handling := []
  finishing := []
  failed := []
  responses _ := []
  waiting _ := none
  issued := []
  pushed := []
  returned := []

/-- One redis command, or one handler that decides its return value. -/
inductive Action
  | send (pid : Int32) (request : Request)
  | pop
  | respond (worker : Nat) (response : Response)
  | returnFalse (worker : Nat)
  | respondError (worker : Nat)
  | finish (worker : Nat)
  | receive (pid : Int32)
  | fail (pid : Int32)

/-- The responses with which a handler can answer; `post_new` answers only if
the insertion returned an id. -/
def handlerResponds : Option Request → Response → Bool
  | some (.postNew _), .postNew response => response.id ≠ 0
  | some (.postDelete _), .postDelete _ => true
  | some (.postUndelete _), .postUndelete _ => true
  | some (.postSetFlag _), .postSetFlag _ => true
  | some (.postAlterTitle _), .postAlterTitle _ => true
  | _, _ => false

/-- The handlers that can return false: there is none, the request was not
deserialized, or `post_new` inserted nothing. -/
def handlerReturnsFalse : Option Request → Bool
  | none => true
  | some (.postNew _) => true
  | some _ => false

/-- The request fits into a parcel. -/
def WellFormed (pid : Int32) (request : Request) : Prop :=
  (encodeAll (requestValues pid request)).length ≤ 2 ^ 63

instance (pid : Int32) (request : Request) : Decidable (WellFormed pid request) :=
  inferInstanceAs (Decidable (_ ≤ _))

def backendRespond (channel : Int32) (reply : Reply) (state : State) : State :=
  if channel ≤ 0 then state
  else
    { state with
      responses := Function.update state.responses channel
        (reply :: state.responses channel)
      pushed := (channel, reply) :: state.pushed }

variable (alloc : Nat → Bool) (beyond : Nat → UInt8)

/-- `backend_request` up to and including `LPUSH`. -/
def send (pid : Int32) (request : Request) (state : State) : Option State :=
  if 0 < pid ∧ state.waiting pid = none ∧ WellFormed pid request then
    (requestBytes alloc pid request).map fun bytes =>
      let call : Call := ⟨state.issued.length, pid, request⟩
      { state with
        requests := ⟨call, bytes⟩ :: state.requests
        waiting := Function.update state.waiting pid (some call)
        issued := call :: state.issued }
  else none

/-- The rest of `backend_request` when `BLPOP` returns an element. -/
def receive (pid : Int32) (state : State) : Option State :=
  match state.waiting pid, state.responses pid with
  | some call, reply :: rest =>
    some { state with
      responses := Function.update state.responses pid rest
      waiting := Function.update state.waiting pid none
      returned :=
        ⟨call, reply,
          interpretAnswer beyond call.request.type reply.answer.bytes⟩ ::
          state.returned }
  | _, _ => none

def step (state : State) : Action → Option State
  | .send pid request => send alloc pid request state
  | .pop =>
    match state.requests with
    | [] => none
    | sent :: rest =>
      some { state with requests := rest, handling := sent :: state.handling }
  | .respond worker response => do
    let sent ← state.handling[worker]?
    let parsed := parseRequest beyond sent.bytes
    if handlerResponds parsed.request response then
      let bytes ← successBytes alloc response
      some (backendRespond parsed.channel ⟨sent.call, some response, bytes⟩
        { state with
          handling := state.handling.eraseIdx worker
          finishing := sent :: state.finishing })
    else none
  | .returnFalse worker => do
    let sent ← state.handling[worker]?
    if handlerReturnsFalse (parseRequest beyond sent.bytes).request then
      some { state with
        handling := state.handling.eraseIdx worker
        failed := sent :: state.failed }
    else none
  | .respondError worker => do
    let sent ← state.failed[worker]?
    let bytes ← errorBytes alloc
    some (backendRespond (parseRequest beyond sent.bytes).channel
      ⟨sent.call, none, bytes⟩
      { state with failed := state.failed.eraseIdx worker })
  | .finish worker => do
    let _ ← state.finishing[worker]?
    some { state with finishing := state.finishing.eraseIdx worker }
  | .receive pid => receive beyond pid state
  | .fail pid =>
    match state.waiting pid with
    | none => none
    | some _ =>
      some { state with waiting := Function.update state.waiting pid none }

/-- The calls whose answer has not been pushed. -/
def State.unanswered (state : State) : Multiset Call :=
  Multiset.ofList (state.requests.map Sent.call) +
    (Multiset.ofList (state.handling.map Sent.call) +
      Multiset.ofList (state.failed.map Sent.call))

/-- The exchange without its bytes. -/
def State.exchange (state : State) :
    RequestReply.State Int32 Request Answer where
  unanswered := state.unanswered
  replies := state.responses
  waiting := state.waiting
  issued := state.issued
  pushed := state.pushed.map Prod.snd
  returned := state.returned.map fun entry => ⟨entry.call, entry.reply⟩

/-- What an action is in the exchange without bytes; a pop and the return of a
handler do not show. -/
def Action.event : Action → Option (RequestReply.Event Int32 Request)
  | .send pid request => some (.send pid request)
  | .respond _ _ => some .answer
  | .respondError _ => some .answer
  | .receive pid => some (.receive pid)
  | .fail pid => some (.giveUp pid)
  | .pop => none
  | .returnFalse _ => none
  | .finish _ => none

/-- The frame was built for the call, by a process that can be answered. -/
def Sent.Framed (sent : Sent) : Prop :=
  parseRequest beyond sent.bytes = ⟨sent.call.client, some sent.call.request⟩ ∧
    0 < sent.call.client

/-- The bytes of an answer carry its outcome. -/
def Faithful (reply : Reply) : Prop :=
  (reply.answer.outcome = none ∧ reply.answer.bytes = [0]) ∨
    ∃ response, reply.answer.outcome = some response ∧
      reply.answer.bytes = encodeAll (responseValues response) ∧
      response.type = reply.call.request.type

structure Framed (state : State) : Prop where
  requests : ∀ sent ∈ state.requests, sent.Framed beyond
  handling : ∀ sent ∈ state.handling, sent.Framed beyond
  failed : ∀ sent ∈ state.failed, sent.Framed beyond
  pushed : ∀ entry ∈ state.pushed,
    entry.1 = entry.2.call.client ∧ Faithful entry.2
  returned : ∀ entry ∈ state.returned, entry.result =
    if entry.reply.call.request.type = entry.call.request.type then
      entry.reply.answer.outcome
    else none

/-- What a step is in the exchange without bytes. -/
def Simulates (state next : State) :
    Option (RequestReply.Event Int32 Request) → Prop
  | none => next.exchange = state.exchange
  | some event => RequestReply.Step state.exchange event next.exchange

variable {alloc beyond}

theorem Framed.initial : Framed beyond State.initial := by
  constructor <;> simp [State.initial]

theorem interpretAnswer_faithful {reply : Reply} (faithful : Faithful reply)
    (type : RequestType) :
    interpretAnswer beyond type reply.answer.bytes =
      if reply.call.request.type = type then reply.answer.outcome else none := by
  rcases faithful with ⟨outcome, bytes⟩ | ⟨response, outcome, bytes, sameType⟩
  · rw [bytes, interpretAnswer_error, outcome, ite_self]
  · rw [bytes, interpretAnswer_success, outcome, sameType]

theorem handlerResponds_type {request : Request} {response : Response}
    (responds : handlerResponds (some request) response = true) :
    response.type = request.type := by
  rcases request with request | request | request | request | request <;>
    rcases response with response | response | response | response | response <;>
    first
    | rfl
    | exact absurd responds Bool.false_ne_true

theorem exists_handlerResponds (request : Request) :
    ∃ response, handlerResponds (some request) response = true := by
  rcases request with request | request | request | request | request
  · exact ⟨.postNew ⟨1⟩, rfl⟩
  · exact ⟨.postDelete ⟨0⟩, rfl⟩
  · exact ⟨.postUndelete ⟨0⟩, rfl⟩
  · exact ⟨.postSetFlag ⟨0⟩, rfl⟩
  · exact ⟨.postAlterTitle ⟨true⟩, rfl⟩

theorem coe_map_eraseIdx {items : List Sent} {worker : Nat} {sent : Sent}
    (found : items[worker]? = some sent) :
    Multiset.ofList (items.map Sent.call) =
      sent.call ::ₘ Multiset.ofList ((items.eraseIdx worker).map Sent.call) := by
  obtain ⟨inside, itemEq⟩ := List.getElem?_eq_some_iff.mp found
  have perm := List.getElem_cons_eraseIdx_perm inside
  rw [itemEq] at perm
  rw [Multiset.cons_coe, ← List.map_cons]
  exact Multiset.coe_eq_coe.mpr (perm.map Sent.call).symm

theorem backendRespond_of_pos {channel : Int32} (positive : 0 < channel)
    (reply : Reply) (state : State) :
    backendRespond channel reply state =
      { state with
        responses := Function.update state.responses channel
          (reply :: state.responses channel)
        pushed := (channel, reply) :: state.pushed } :=
  if_neg (Int32.not_le.mpr positive)

section Simulation

variable {state next : State}

theorem send_simulates
    (allocated : ∀ capacity ≤ 2 ^ 63, alloc capacity = true)
    (framed : Framed beyond state) {pid : Int32} {request : Request}
    (stepEq : send alloc pid request state = some next) :
    Framed beyond next ∧ Simulates state next (some (.send pid request)) := by
  unfold send at stepEq
  split at stepEq
  case isFalse => exact absurd stepEq (Option.some_ne_none next).symm
  case isTrue sendable =>
    obtain ⟨positive, idle, wellFormed⟩ := sendable
    rw [requestBytes_eq allocated pid request wellFormed, Option.map_some,
      Option.some.injEq] at stepEq
    subst stepEq
    constructor
    · refine ⟨fun sent member => ?_, framed.handling, framed.failed, framed.pushed,
        framed.returned⟩
      rcases List.mem_cons.mp member with rfl | old
      · exact ⟨parseRequest_encodeAll beyond pid request wellFormed, positive⟩
      · exact framed.requests sent old
    · exact (RequestReply.Step.send request idle :
        RequestReply.Step state.exchange _ _)

/-- Pushing an answer for a call that was not answered before. -/
theorem backendRespond_simulates {sent : Sent} (sentFramed : sent.Framed beyond)
    {handling finishing failed : List Sent}
    (framed : Framed beyond
      { state with handling := handling, finishing := finishing, failed := failed })
    (taken : state.unanswered = sent.call ::ₘ State.unanswered
      { state with handling := handling, finishing := finishing, failed := failed })
    {answer : Answer} (faithful : Faithful ⟨sent.call, answer⟩)
    (nextEq : backendRespond (parseRequest beyond sent.bytes).channel
      ⟨sent.call, answer⟩
      { state with handling := handling, finishing := finishing, failed := failed } =
        next) :
    Framed beyond next ∧ Simulates state next (some .answer) := by
  obtain ⟨parsed, positive⟩ := sentFramed
  rw [parsed, backendRespond_of_pos positive] at nextEq
  subst nextEq
  constructor
  · refine ⟨framed.requests, framed.handling, framed.failed, ?_, framed.returned⟩
    intro entry member
    rcases List.mem_cons.mp member with rfl | old
    · exact ⟨rfl, faithful⟩
    · exact framed.pushed entry old
  · exact (RequestReply.Step.answer ⟨sent.call, answer⟩ taken :
      RequestReply.Step state.exchange _ _)

theorem respond_simulates
    (allocated : ∀ capacity ≤ 2 ^ 63, alloc capacity = true)
    (framed : Framed beyond state) {worker : Nat} {response : Response}
    (stepEq : step alloc beyond state (.respond worker response) = some next) :
    Framed beyond next ∧ Simulates state next (some .answer) := by
  simp only [step] at stepEq
  obtain ⟨sent, found, answerEq⟩ := Option.bind_eq_some_iff.mp stepEq
  have sentFramed := framed.handling sent (List.mem_of_getElem? found)
  split at answerEq
  case isFalse => exact absurd answerEq (Option.some_ne_none next).symm
  case isTrue responds =>
    obtain ⟨bytes, bytesEq, nextEq⟩ := Option.bind_eq_some_iff.mp answerEq
    rw [successBytes_eq allocated, Option.some.injEq] at bytesEq
    rw [sentFramed.1] at responds
    refine backendRespond_simulates sentFramed ?_ ?_ ?_ (Option.some.inj nextEq)
    · exact ⟨framed.requests,
        fun other member => framed.handling other (List.mem_of_mem_eraseIdx member),
        framed.failed, framed.pushed, framed.returned⟩
    · rw [State.unanswered, State.unanswered, coe_map_eraseIdx found]
      simp only [Multiset.cons_add, Multiset.add_cons]
    · exact .inr ⟨response, rfl, bytesEq.symm, handlerResponds_type responds⟩

theorem respondError_simulates
    (allocated : ∀ capacity ≤ 2 ^ 63, alloc capacity = true)
    (framed : Framed beyond state) {worker : Nat}
    (stepEq : step alloc beyond state (.respondError worker) = some next) :
    Framed beyond next ∧ Simulates state next (some .answer) := by
  simp only [step] at stepEq
  obtain ⟨sent, found, answerEq⟩ := Option.bind_eq_some_iff.mp stepEq
  obtain ⟨bytes, bytesEq, nextEq⟩ := Option.bind_eq_some_iff.mp answerEq
  rw [errorBytes_eq allocated, Option.some.injEq] at bytesEq
  refine backendRespond_simulates
    (framed.failed sent (List.mem_of_getElem? found)) ?_ ?_ ?_
    (Option.some.inj nextEq)
  · exact ⟨framed.requests, framed.handling,
      fun other member => framed.failed other (List.mem_of_mem_eraseIdx member),
      framed.pushed, framed.returned⟩
  · rw [State.unanswered, State.unanswered, coe_map_eraseIdx found]
    simp only [Multiset.add_cons]
  · exact .inl ⟨rfl, bytesEq.symm⟩

/-- A worker that moves a request on changes nothing in the exchange. -/
theorem returnFalse_simulates (framed : Framed beyond state) {worker : Nat}
    (stepEq : step alloc beyond state (.returnFalse worker) = some next) :
    Framed beyond next ∧ Simulates state next none := by
  simp only [step] at stepEq
  obtain ⟨sent, found, nextEq⟩ := Option.bind_eq_some_iff.mp stepEq
  split at nextEq
  case isFalse => exact absurd nextEq (Option.some_ne_none next).symm
  case isTrue =>
    rw [Option.some.injEq] at nextEq
    subst nextEq
    constructor
    · refine ⟨framed.requests,
        fun other member => framed.handling other (List.mem_of_mem_eraseIdx member),
        fun other member => ?_, framed.pushed, framed.returned⟩
      rcases List.mem_cons.mp member with rfl | old
      · exact framed.handling other (List.mem_of_getElem? found)
      · exact framed.failed other old
    · simp only [Simulates, State.exchange, State.unanswered, List.map_cons,
        ← Multiset.cons_coe, coe_map_eraseIdx found, Multiset.cons_add,
        Multiset.add_cons]

theorem pop_simulates (framed : Framed beyond state)
    (stepEq : step alloc beyond state .pop = some next) :
    Framed beyond next ∧ Simulates state next none := by
  simp only [step] at stepEq
  split at stepEq
  case h_1 => exact absurd stepEq (Option.some_ne_none next).symm
  case h_2 sent rest requestsEq =>
    rw [Option.some.injEq] at stepEq
    subst stepEq
    constructor
    · refine ⟨fun other member => ?_, fun other member => ?_, framed.failed,
        framed.pushed, framed.returned⟩
      · exact framed.requests other (requestsEq ▸ List.mem_cons_of_mem _ member)
      · rcases List.mem_cons.mp member with rfl | old
        · exact framed.requests other (requestsEq ▸ List.mem_cons_self)
        · exact framed.handling other old
    · simp only [Simulates, State.exchange, State.unanswered, requestsEq,
        List.map_cons, ← Multiset.cons_coe, Multiset.cons_add, Multiset.add_cons]

theorem finish_simulates (framed : Framed beyond state) {worker : Nat}
    (stepEq : step alloc beyond state (.finish worker) = some next) :
    Framed beyond next ∧ Simulates state next none := by
  simp only [step] at stepEq
  obtain ⟨sent, -, nextEq⟩ := Option.bind_eq_some_iff.mp stepEq
  rw [Option.some.injEq] at nextEq
  subst nextEq
  exact ⟨⟨framed.requests, framed.handling, framed.failed, framed.pushed,
    framed.returned⟩, rfl⟩

theorem receive_simulates (framed : Framed beyond state)
    (conserved : RequestReply.Conserved state.exchange) {pid : Int32}
    (stepEq : receive beyond pid state = some next) :
    Framed beyond next ∧ Simulates state next (some (.receive pid)) := by
  unfold receive at stepEq
  split at stepEq
  case h_2 => exact absurd stepEq (Option.some_ne_none next).symm
  case h_1 call reply rest waits arrived =>
    rw [Option.some.injEq] at stepEq
    subst stepEq
    constructor
    · refine ⟨framed.requests, framed.handling, framed.failed, framed.pushed, ?_⟩
      intro entry member
      rcases List.mem_cons.mp member with rfl | old
      · have queued := conserved.mailbox pid reply
          (List.mem_of_mem_head? (by simp [State.exchange, arrived]))
        obtain ⟨pushedEntry, pushed, rfl⟩ := List.mem_map.mp queued.2
        exact interpretAnswer_faithful (framed.pushed pushedEntry pushed).2 _
      · exact framed.returned entry old
    · exact (RequestReply.Step.receive waits arrived :
        RequestReply.Step state.exchange _ _)

theorem fail_simulates (framed : Framed beyond state) {pid : Int32}
    (stepEq : step alloc beyond state (.fail pid) = some next) :
    Framed beyond next ∧ Simulates state next (some (.giveUp pid)) := by
  simp only [step] at stepEq
  split at stepEq
  case h_1 => exact absurd stepEq (Option.some_ne_none next).symm
  case h_2 =>
    rw [Option.some.injEq] at stepEq
    subst stepEq
    exact ⟨⟨framed.requests, framed.handling, framed.failed, framed.pushed,
      framed.returned⟩, (RequestReply.Step.giveUp :
        RequestReply.Step state.exchange _ _)⟩

/-- The redis lists and the workers carry out the request and reply pattern. -/
theorem step_simulates
    (allocated : ∀ capacity ≤ 2 ^ 63, alloc capacity = true)
    (framed : Framed beyond state)
    (conserved : RequestReply.Conserved state.exchange) {action : Action}
    (stepEq : step alloc beyond state action = some next) :
    Framed beyond next ∧ Simulates state next action.event := by
  cases action with
  | send pid request => exact send_simulates allocated framed stepEq
  | pop => exact pop_simulates framed stepEq
  | respond worker response => exact respond_simulates allocated framed stepEq
  | returnFalse worker => exact returnFalse_simulates framed stepEq
  | respondError worker => exact respondError_simulates allocated framed stepEq
  | finish worker => exact finish_simulates framed stepEq
  | receive pid => exact receive_simulates framed conserved stepEq
  | fail pid => exact fail_simulates framed stepEq

end Simulation

section Runs

open TransitionRuns

variable (beyond) in
/-- What holds in every state, with or without failures. -/
structure Consistent (state : State) : Prop where
  framed : Framed beyond state
  conserved : RequestReply.Conserved state.exchange

theorem Consistent.initial : Consistent beyond State.initial :=
  ⟨Framed.initial, RequestReply.Conserved.initial⟩

/-- A property of the exchange that its steps keep is kept by the actions. -/
theorem exchange_invariant
    {Invariant : RequestReply.State Int32 Request Answer → Prop}
    {state next : State} {action : Action} (invariant : Invariant state.exchange)
    (preserved : ∀ event exchange, action.event = some event →
      RequestReply.Step state.exchange event exchange → Invariant exchange)
    (simulates : Simulates state next action.event) :
    Invariant next.exchange := by
  cases eventEq : action.event with
  | none =>
    rw [eventEq, Simulates] at simulates
    exact simulates ▸ invariant
  | some event =>
    rw [eventEq] at simulates
    exact preserved event next.exchange eventEq simulates

/-- A process sends a request only when it has no outstanding call of the same
type: none in the request list, at a worker, or answered in its response list. -/
def FreshType (pid : Int32) (state : State) : Action → Prop
  | .send sender request => sender = pid →
      ∀ call ∈ state.exchange.outstanding pid, call.request.type ≠ request.type
  | _ => True

instance (pid : Int32) (state : State) :
    (action : Action) → Decidable (FreshType pid state action)
  | .send sender request =>
    inferInstanceAs (Decidable (sender = pid →
      ∀ call ∈ state.exchange.outstanding pid, call.request.type ≠ request.type))
  | .pop => isTrue trivial
  | .respond _ _ => isTrue trivial
  | .returnFalse _ => isTrue trivial
  | .respondError _ => isTrue trivial
  | .finish _ => isTrue trivial
  | .receive _ => isTrue trivial
  | .fail _ => isTrue trivial

def Action.byWorker : Action → Bool
  | .pop => true
  | .respond _ _ => true
  | .returnFalse _ => true
  | .respondError _ => true
  | .finish _ => true
  | _ => false

/-- The steps that the workers have to make until every call is answered. -/
def State.remaining (state : State) : Nat :=
  2 * state.requests.length + state.handling.length + state.failed.length

section Allocated

variable (allocated : ∀ capacity ≤ 2 ^ 63, alloc capacity = true)

include allocated

theorem Consistent.step {state next : State} {action : Action}
    (consistent : Consistent beyond state)
    (stepEq : Backend.step alloc beyond state action = some next) :
    Consistent beyond next := by
  obtain ⟨framed, simulates⟩ :=
    step_simulates allocated consistent.framed consistent.conserved stepEq
  exact ⟨framed, exchange_invariant consistent.conserved
    (fun _ _ _ stepped => consistent.conserved.step stepped) simulates⟩

/-- Without a failing pop only the call that a process waits for is outstanding. -/
theorem lossless_of_run {actions : List Action} {state : State}
    (reliable : ∀ action ∈ actions, ∀ pid, action ≠ .fail pid)
    (runs : run (Backend.step alloc beyond) actions State.initial = some state) :
    Consistent beyond state ∧ RequestReply.Lossless state.exchange := by
  refine invariant_of_guarded
    (fun state => Consistent beyond state ∧ RequestReply.Lossless state.exchange)
    ?_ ⟨Consistent.initial, RequestReply.Lossless.initial⟩
    (guarded_of_forall reliable _) runs
  rintro state action next ⟨consistent, lossless⟩ noFailure stepEq
  obtain ⟨-, simulates⟩ :=
    step_simulates allocated consistent.framed consistent.conserved stepEq
  refine ⟨consistent.step allocated stepEq,
    exchange_invariant lossless ?_ simulates⟩
  intro event exchange eventEq stepped
  refine lossless.step (fun pid isGiveUp => ?_) stepped
  subst isGiveUp
  cases action <;> simp_all [Action.event]

/-- The outstanding calls of a process that keeps its types apart. -/
theorem separated_of_run {pid : Int32} {actions : List Action} {state : State}
    (fresh : Guarded (Backend.step alloc beyond) (FreshType pid) actions
      State.initial)
    (runs : run (Backend.step alloc beyond) actions State.initial = some state) :
    Consistent beyond state ∧
      RequestReply.Separated Request.type pid state.exchange := by
  refine invariant_of_guarded
    (fun state => Consistent beyond state ∧
      RequestReply.Separated Request.type pid state.exchange)
    ?_ ⟨Consistent.initial, RequestReply.Separated.initial Request.type pid⟩
    fresh runs
  rintro state action next ⟨consistent, separated⟩ freshType stepEq
  obtain ⟨-, simulates⟩ :=
    step_simulates allocated consistent.framed consistent.conserved stepEq
  refine ⟨consistent.step allocated stepEq,
    exchange_invariant separated ?_ simulates⟩
  intro event exchange eventEq stepped
  refine separated.step consistent.conserved ?_ stepped
  cases action <;> simp only [Action.event, Option.some.injEq, reduceCtorEq] at eventEq
  all_goals
    subst eventEq
    exact freshType

/-- Some worker can make a step as long as a call is unanswered. -/
theorem worker_step {state : State} (consistent : Consistent beyond state)
    (busy : state.remaining ≠ 0) :
    ∃ action next, action.byWorker = true ∧
      Backend.step alloc beyond state action = some next ∧
      next.remaining < state.remaining := by
  have framed := consistent.framed
  cases requestsEq : state.requests with
  | cons sent rest =>
    refine ⟨.pop, { state with requests := rest, handling := sent :: state.handling },
      rfl, by simp only [Backend.step, requestsEq], ?_⟩
    simp only [State.remaining, requestsEq, List.length_cons]
    omega
  | nil =>
    cases handlingEq : state.handling with
    | cons sent rest =>
      have sentFramed := framed.handling sent (handlingEq ▸ List.mem_cons_self)
      obtain ⟨response, responds⟩ := exists_handlerResponds sent.call.request
      have stepEq : Backend.step alloc beyond state (.respond 0 response) =
          some (backendRespond sent.call.client
            ⟨sent.call, some response, encodeAll (responseValues response)⟩
            { state with
              handling := rest, finishing := sent :: state.finishing }) := by
        simp only [Backend.step, handlingEq, List.getElem?_cons_zero,
          sentFramed.1, responds, if_true, successBytes_eq allocated,
          Option.bind_eq_bind, Option.bind_some, List.eraseIdx_cons_zero]
      refine ⟨_, _, rfl, stepEq, ?_⟩
      simp only [backendRespond_of_pos sentFramed.2, State.remaining,
        handlingEq, List.length_cons]
      omega
    | nil =>
      cases failedEq : state.failed with
      | cons sent rest =>
        have sentFramed := framed.failed sent (failedEq ▸ List.mem_cons_self)
        have stepEq : Backend.step alloc beyond state (.respondError 0) =
            some (backendRespond sent.call.client ⟨sent.call, none, [0]⟩
              { state with failed := rest }) := by
          simp only [Backend.step, failedEq, List.getElem?_cons_zero,
            sentFramed.1, errorBytes_eq allocated, Option.bind_eq_bind,
            Option.bind_some, List.eraseIdx_cons_zero]
        refine ⟨_, _, rfl, stepEq, ?_⟩
        simp only [backendRespond_of_pos sentFramed.2, State.remaining,
          failedEq, List.length_cons]
        omega
      | nil =>
        simp [State.remaining, requestsEq, handlingEq, failedEq] at busy

/-- The workers alone bring every call to its answer. -/
theorem drain {state : State} (consistent : Consistent beyond state) :
    ∃ actions final, (∀ action ∈ actions, action.byWorker = true) ∧
      run (Backend.step alloc beyond) actions state = some final ∧
      final.unanswered = 0 := by
  induction count : state.remaining using Nat.strong_induction_on
    generalizing state with
  | _ count ih =>
    by_cases busy : state.remaining = 0
    · refine ⟨[], state, by simp, rfl, ?_⟩
      obtain ⟨⟨noRequests, noHandling⟩, noFailed⟩ :
          (state.requests.length = 0 ∧ state.handling.length = 0) ∧
            state.failed.length = 0 := by
        unfold State.remaining at busy
        omega
      simp [State.unanswered, List.length_eq_zero_iff.mp noRequests,
        List.length_eq_zero_iff.mp noHandling, List.length_eq_zero_iff.mp noFailed]
    · obtain ⟨action, next, byWorker, stepEq, smaller⟩ :=
        worker_step allocated consistent busy
      obtain ⟨actions, final, allByWorker, runs, done⟩ :=
        ih next.remaining (by omega) (consistent.step allocated stepEq) rfl
      refine ⟨action :: actions, final, ?_, ?_, done⟩
      · intro other member
        rcases List.mem_cons.mp member with rfl | later
        · exact byWorker
        · exact allByWorker other later
      · rw [run, stepEq, Option.bind_some, runs]

end Allocated

variable (alloc beyond) in
/-- A process that waits blocks until its call is answered.  Then its pop takes
that answer, alone on its list, and the call returns the outcome. -/
structure Delivers (state : State) : Prop where
  blocks : ∀ pid call, state.waiting pid = some call → call ∈ state.unanswered →
    Backend.step alloc beyond state (.receive pid) = none
  returns : ∀ pid call, state.waiting pid = some call → call ∉ state.unanswered →
    ∃ reply next, state.responses pid = [reply] ∧ reply.call = call ∧
      Backend.step alloc beyond state (.receive pid) = some next ∧
      next.waiting pid = none ∧
      next.returned = ⟨call, reply, reply.answer.outcome⟩ :: state.returned

/-- What the callers of `backend_request` rely on. -/
structure Agreement (state : State) : Prop where
  distinct : state.issued.Nodup
  once : ∀ call ∈ state.issued, state.unanswered.count call +
    (state.pushed.map (·.2.call)).count call = 1
  channel : ∀ entry ∈ state.pushed, entry.1 = entry.2.call.client
  ownReply : ∀ entry ∈ state.returned,
    entry.reply.call = entry.call ∧
      (entry.call.client, entry.reply) ∈ state.pushed ∧
      entry.result = entry.reply.answer.outcome
  settled : ∀ call ∈ state.issued, state.waiting call.client = some call ∨
    ∃ entry ∈ state.returned, entry.call = call

theorem Consistent.once {state : State} (consistent : Consistent beyond state) :
    ∀ call ∈ state.issued, state.unanswered.count call +
      (state.pushed.map (·.2.call)).count call = 1 := by
  intro call issued
  have counted := consistent.conserved.count issued
  rw [State.exchange, List.map_map] at counted
  exact counted

theorem Consistent.agreement {state : State} (consistent : Consistent beyond state)
    (lossless : RequestReply.Lossless state.exchange) : Agreement state where
  distinct := consistent.conserved.nodup
  once := consistent.once
  channel entry member := (consistent.framed.pushed entry member).1
  ownReply entry member := by
    have inExchange : (⟨entry.call, entry.reply⟩ :
        RequestReply.Return Int32 Request Answer) ∈ state.exchange.returned :=
      List.mem_map_of_mem member
    have sameCall := lossless.matched _ inExchange
    obtain ⟨-, replyPushed⟩ := consistent.conserved.own _ inExchange
    obtain ⟨pushed, pushedIn, replyEq⟩ := List.mem_map.mp replyPushed
    have channel := (consistent.framed.pushed pushed pushedIn).1
    have result := consistent.framed.returned entry member
    simp only at sameCall replyEq
    rw [sameCall, if_pos rfl] at result
    refine ⟨sameCall, ?_, result⟩
    rw [← sameCall, ← replyEq, ← channel]
    exact pushedIn
  settled call issued := by
    rcases lossless.settled call issued with waits | ⟨returned, member, rfl⟩
    · exact .inl waits
    · obtain ⟨entry, entryIn, rfl⟩ := List.mem_map.mp member
      exact .inr ⟨entry, entryIn, rfl⟩

theorem Consistent.delivers {state : State} (consistent : Consistent beyond state)
    (lossless : RequestReply.Lossless state.exchange) :
    Delivers alloc beyond state where
  blocks pid call waits unanswered := by
    rcases lossless.replies_of_waiting consistent.conserved waits with
      ⟨-, empty⟩ | ⟨answered, -⟩
    · have empty : state.responses pid = [] := empty
      simp [Backend.step, receive, waits, empty]
    · exact absurd unanswered answered
  returns pid call waits answered := by
    rcases lossless.replies_of_waiting consistent.conserved waits with
      ⟨unanswered, -⟩ | ⟨-, reply, arrived, replyEq⟩
    · exact absurd unanswered answered
    · have arrived : state.responses pid = [reply] := arrived
      have queued := consistent.conserved.mailbox pid reply
        (List.mem_of_mem_head? (by simp [State.exchange, arrived]))
      obtain ⟨pushedEntry, pushed, rfl⟩ := List.mem_map.mp queued.2
      have faithful := (consistent.framed.pushed pushedEntry pushed).2
      have result := @interpretAnswer_faithful beyond _ faithful call.request.type
      rw [replyEq, if_pos rfl] at result
      refine ⟨pushedEntry.2,
        { state with
          responses := Function.update state.responses pid []
          waiting := Function.update state.waiting pid none
          returned := ⟨call, pushedEntry.2, pushedEntry.2.answer.outcome⟩ ::
            state.returned },
        arrived, replyEq, ?_, Function.update_self pid none state.waiting, rfl⟩
      simp only [Backend.step, receive, waits, arrived, result]

def sampleFilter : PostFilter where
  type := 0
  bid := 1
  flag := 0
  uid := 7
  min := 0
  max := 0
  tid := 0
  offsetMin := 0
  offsetMax := 0
  archive := false
  utf8Keyword := ⟨.empty, by decide⟩

def sampleDelete : Request :=
  .postDelete ⟨sampleFilter, false, false, false, 7, none⟩

def sampleSetFlag : Request :=
  .postSetFlag ⟨sampleFilter, 1, true, false⟩

/-- As long as no pop of a response list fails, every request has exactly one
answer once a worker has dealt with it, pushed to the process that sent it, and
a call that finds an answer takes it and returns the outcome of its own request;
the workers can always bring every request to its answer. -/
theorem run_agreement {alloc : Nat → Bool}
    (allocated : ∀ capacity ≤ 2 ^ 63, alloc capacity = true)
    (beyond : Nat → UInt8) {actions : List Action} {state : State}
    (reliable : ∀ action ∈ actions, ∀ pid, action ≠ .fail pid)
    (runs : run (Backend.step alloc beyond) actions State.initial = some state) :
    Agreement state ∧ Delivers alloc beyond state ∧
      ∃ rest final, (∀ action ∈ rest, action.byWorker = true) ∧
        run (Backend.step alloc beyond) rest state = some final ∧
        final.unanswered = 0 ∧ Agreement final ∧ Delivers alloc beyond final := by
  obtain ⟨consistent, lossless⟩ := lossless_of_run allocated reliable runs
  refine ⟨consistent.agreement lossless, consistent.delivers lossless, ?_⟩
  obtain ⟨rest, final, byWorkers, restRuns, done⟩ := drain allocated consistent
  refine ⟨rest, final, byWorkers, restRuns, done, ?_⟩
  have wholeRun : run (Backend.step alloc beyond) (actions ++ rest) State.initial =
      some final := by
    rw [run_append, runs, Option.bind_some, restRuns]
  have wholeReliable : ∀ action ∈ actions ++ rest, ∀ pid, action ≠ .fail pid := by
    intro action member pid isFail
    rcases List.mem_append.mp member with early | late
    · exact reliable action early pid isFail
    · have worker := byWorkers action late
      rw [isFail] at worker
      cases worker
  obtain ⟨finalConsistent, finalLossless⟩ :=
    lossless_of_run allocated wholeReliable wholeRun
  exact ⟨finalConsistent.agreement finalLossless, finalConsistent.delivers finalLossless⟩

/-- Two processes at two workers, the later request being popped first: each
process gets what the handler of its own request deleted. -/
theorem run_agreement_twoProcesses :
    ∃ state, run (Backend.step (fun _ => true) (fun _ => 0))
        [.send 12 sampleDelete, .send 13 sampleDelete, .pop, .pop,
          .respond 0 (.postDelete ⟨3⟩), .receive 12, .respond 0 (.postDelete ⟨0⟩),
          .receive 13]
        State.initial = some state ∧ Agreement state ∧
      state.returned.map (fun entry => (entry.call, entry.result)) =
        [(⟨1, 13, sampleDelete⟩, some (.postDelete ⟨0⟩)),
          (⟨0, 12, sampleDelete⟩, some (.postDelete ⟨3⟩))] := by
  have observed : (run (Backend.step (fun _ => true) (fun _ => 0))
      [.send 12 sampleDelete, .send 13 sampleDelete, .pop, .pop,
        .respond 0 (.postDelete ⟨3⟩), .receive 12, .respond 0 (.postDelete ⟨0⟩),
        .receive 13] State.initial).map
        (fun state => state.returned.map fun entry => (entry.call, entry.result)) =
      some [(⟨1, 13, sampleDelete⟩, some (.postDelete ⟨0⟩)),
        (⟨0, 12, sampleDelete⟩, some (.postDelete ⟨3⟩))] := by
    decide
  obtain ⟨state, runs, returnedEq⟩ := Option.map_eq_some_iff.mp observed
  exact ⟨state, runs,
    (run_agreement (fun _ _ => rfl) (fun _ => 0) (by simp) runs).1, returnedEq⟩

/-- The calls of the process that returned true were given their own answer. -/
def OwnAnswers (pid : Int32) (state : State) : Prop :=
  ∀ entry ∈ state.returned, entry.call.client = pid → entry.result.isSome →
    entry.reply.call = entry.call ∧ entry.result = entry.reply.answer.outcome

/-- A process that keeps the types of its outstanding requests apart never
takes the answer to an earlier request, whichever of its calls fail. -/
theorem run_ownAnswers {alloc : Nat → Bool}
    (allocated : ∀ capacity ≤ 2 ^ 63, alloc capacity = true)
    (beyond : Nat → UInt8) {pid : Int32} {actions : List Action} {state : State}
    (fresh : Guarded (Backend.step alloc beyond) (FreshType pid) actions
      State.initial)
    (runs : run (Backend.step alloc beyond) actions State.initial = some state) :
    OwnAnswers pid state := by
  intro entry member ownCall returnedTrue
  obtain ⟨consistent, separated⟩ := separated_of_run allocated fresh runs
  have result := consistent.framed.returned entry member
  by_cases sameType : entry.reply.call.request.type = entry.call.request.type
  · rw [if_pos sameType] at result
    have inExchange : (⟨entry.call, entry.reply⟩ :
        RequestReply.Return Int32 Request Answer) ∈ state.exchange.returned :=
      List.mem_map_of_mem member
    exact ⟨separated.matched _ inExchange ownCall sameType, result⟩
  · rw [if_neg sameType] at result
    rw [result] at returnedTrue
    cases returnedTrue

/-- After a failed deletion a flag can be set: the late answer to the deletion
is popped and refused. -/
def sampleFailure : List Action :=
  [.send 12 sampleDelete, .fail 12, .pop, .respond 0 (.postDelete ⟨3⟩),
    .send 12 sampleSetFlag, .receive 12, .pop, .respond 0 (.postSetFlag ⟨1⟩)]

theorem run_ownAnswers_sampleFailure :
    ∃ state, run (Backend.step (fun _ => true) (fun _ => 0)) sampleFailure
        State.initial = some state ∧ OwnAnswers 12 state := by
  obtain ⟨state, runs⟩ := Option.isSome_iff_exists.mp (by decide :
    (run (Backend.step (fun _ => true) (fun _ => 0)) sampleFailure
      State.initial).isSome = true)
  have fresh : Guarded (Backend.step (fun _ => true) (fun _ => 0)) (FreshType 12)
      sampleFailure State.initial := by
    decide
  exact ⟨state, runs, run_ownAnswers (fun _ _ => rfl) (fun _ => 0) fresh runs⟩

/-- After a failed deletion a second deletion takes the answer to the first. -/
theorem stale_answer :
    ¬ ∀ (pid : Int32) (actions : List Action) (state : State),
      run (Backend.step (fun _ => true) (fun _ => 0)) actions State.initial =
        some state → OwnAnswers pid state := by
  intro ownAnswers
  have observed : (run (Backend.step (fun _ => true) (fun _ => 0))
      [.send 12 sampleDelete, .fail 12, .pop, .respond 0 (.postDelete ⟨3⟩),
        .send 12 sampleDelete, .receive 12] State.initial).map
        (fun state => state.returned.map fun entry =>
          (entry.call, entry.reply.call.ticket, entry.result)) =
      some [(⟨1, 12, sampleDelete⟩, 0, some (.postDelete ⟨3⟩))] := by
    decide
  obtain ⟨state, runs, returnedEq⟩ := Option.map_eq_some_iff.mp observed
  have own := ownAnswers 12 _ state runs
  cases entries : state.returned with
  | nil => simp [entries] at returnedEq
  | cons entry rest =>
    simp only [entries, List.map_cons, List.cons.injEq, Prod.mk.injEq] at returnedEq
    obtain ⟨⟨callEq, ticketEq, resultEq⟩, -⟩ := returnedEq
    have sameCall := (own entry (entries ▸ List.mem_cons_self) (by rw [callEq])
      (by rw [resultEq]; rfl)).1
    rw [sameCall, callEq] at ticketEq
    cases ticketEq

end Runs

end Backend

end Fbbs
