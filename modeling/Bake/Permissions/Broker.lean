import Bake.Permissions.Approval
import Bake.Lib.Interleave

/-!
# The approval broker

`ApprovalBroker`: approval requests wait in a queue for a person to answer them. A call of
the broker is a task: a place between two of its sections under the broker's lock. The
listener runs without the lock, so what it calls is a task of its own; a request's future
is the task that asked it, at rest between its polls.

A request's channel is known by the request's generation: what was sent on it, and whether
its receiving end is gone.
-/

namespace Bake.Permissions

open Bake.Json

structure ApprovalPrompt where
 generation : Nat
 toolName : String
 callId : String
 parentToolCallId : Option String
 reason : String
 arguments : Value

inductive ApprovalAnswer where
 | allowOnce
 | reject
 | cancel
 deriving DecidableEq, Repr

def ApprovalAnswer.outcome : ApprovalAnswer → EscalationOutcome
 | .allowOnce => .allowedOnce
 | .reject => .rejected
 | .cancel => .cancelled

inductive Phase where
 /-- No frontend yet: nobody can answer. -/
 | unconnected
 | open
 /-- The frontend has gone: nobody can answer again. -/
 | closed
 deriving DecidableEq, Repr

/-- The largest `u64`. -/
def u64Max : Nat := 2 ^ 64 - 1

/-- A queued request; `cancel` is its abort signal, if it has one. -/
structure Waiting where
 prompt : ApprovalPrompt
 cancel : Option Nat

/-- The broker, the channels of its requests and the abort signals. -/
structure Broker where
 phase : Phase
 queue : List Waiting
 /-- The last generation handed out. -/
 last : Nat
 /-- Whether a caller is announcing, and whether the queue changed since its last
  snapshot. -/
 announcing : Bool
 changed : Bool
 /-- What was sent on a request's channel. -/
 sent : Nat → Option EscalationOutcome
 /-- The receiving end of a request's channel is gone. -/
 hungUp : Nat → Bool
 /-- The abort signals that have fired. -/
 aborted : Nat → Bool
 /-- The last handle to the broker is gone, and its queue with it. -/
 gone : Bool

namespace Broker

/-- `ApprovalBroker::new`, whatever the signals are at that moment. -/
def new (aborted : Nat → Bool) : Broker where
 phase := .unconnected
 queue := []
 last := 0
 announcing := false
 changed := false
 sent _ := none
 hungUp _ := false
 aborted := aborted
 gone := false

def generations (s : Broker) : List Nat := s.queue.map fun w => w.prompt.generation

def fired (s : Broker) (cancel : Option Nat) : Bool := cancel.any s.aborted

/-- `Sender::send` of requests: nothing arrives where the receiving end is gone. -/
def send (s : Broker) (generation : Nat) (outcome : EscalationOutcome) : Broker :=
 if s.hungUp generation then s
 else { s with sent := fun g => if g = generation then some outcome else s.sent g }

/-- Every queued request is sent `cancelled`. -/
def cancelAll (s : Broker) : Broker :=
 s.queue.foldl (fun s w => s.send w.prompt.generation .cancelled) { s with queue := [] }

def close (s : Broker) : Broker := { s.cancelAll with phase := .closed }

/-- The section of `answer`, and whether it settled the request: `none` where the front of
the queue is not the request it names. -/
def answer (s : Broker) (generation : Nat) (answer : ApprovalAnswer) : Option (Broker × Bool) :=
 match s.queue with
 | [] => none
 | front :: rest =>
  if front.prompt.generation ≠ generation then none
  else
   let popped := { s with queue := rest }
   if s.fired front.cancel then some (popped.send generation .cancelled, false)
   else some (popped.send generation answer.outcome, !s.hungUp generation)

/-- The section of `request`: the generation under which it is queued, if anybody can
answer it and the generations have not run out. -/
def push (s : Broker) (request : ApprovalRequest) (cancel : Option Nat) : Option (Broker × Nat) :=
 if s.phase = .open ∧ s.last + 1 ≤ u64Max then
  some ({ s with
   last := s.last + 1
   queue := s.queue ++
    [{ prompt :=
     { generation := s.last + 1, toolName := request.toolName, callId := request.callId,
       parentToolCallId := request.parentToolCallId, reason := request.reason,
       arguments := request.arguments },
       cancel }] }, s.last + 1)
 else none

/-- The section of `Withdraw::drop`, and whether a request was removed. -/
def withdraw (s : Broker) (generation : Nat) : Broker × Bool :=
 if generation ∈ s.generations then
  ({ s with queue := s.queue.eraseP fun w => w.prompt.generation == generation }, true)
 else (s, false)

/-- The receiving end of a channel is dropped. -/
def hangUp (s : Broker) (generation : Nat) : Broker :=
 { s with hungUp := fun g => if g = generation then true else s.hungUp g }

end Broker

/-- Where a task stands: before the section of that name. -/
inductive Place where
 | connect
 | answer (generation : Nat) (answer : ApprovalAnswer)
 | cancelPending
 | close
 /-- `request`: its look at the signal, and its section. -/
 | request (request : ApprovalRequest) (cancel : Option Nat)
 | push (request : ApprovalRequest) (cancel : Option Nat)
 /-- `announce`, on the way to `next`: its first section, its look at the queue, and its
  section behind the listener, which is shown `snapshot`. -/
 | announce (next : Place)
 | snapshot (next : Place)
 | listening (snapshot : List ApprovalPrompt) (next : Place)
 /-- A request's future before a poll: first it looks at the signal. -/
 | idle (generation : Nat) (cancel : Option Nat)
 /-- In a poll: the channel, and the last look at the signal. -/
 | channel (generation : Nat) (cancel : Option Nat)
 | check (generation : Nat) (cancel : Option Nat) (answer : EscalationOutcome)
 /-- The future is dropped, or has its outcome: what is left is `Withdraw::drop`. -/
 | leave (generation : Nat) (cancel : Option Nat) (outcome : Option EscalationOutcome)
 /-- The future is over. -/
 | departed (generation : Nat) (cancel : Option Nat) (outcome : Option EscalationOutcome)
 /-- `request` gave a future that is ready. -/
 | ready (outcome : EscalationOutcome)
 /-- Another call has returned. -/
 | returned (value : Bool)

/-- What the program does not decide: to poll a future, or to drop it, whether its receiving
end goes before its guard then, and what the listener answers, `false` also where it
panics. -/
inductive Choice where
 | go
 | drop (hangsUp : Bool)
 | delivered (value : Bool)

/-- What happens around the calls: a signal fires, and the last handle to the broker is
dropped. -/
inductive Event where
 | abort (signal : Nat)
 | dropBroker

def Place.entry : Place → Bool
 | .connect | .answer .. | .cancelPending | .close | .request .. => true
 | _ => false

/-- The sections of `announce`. -/
def Broker.announceNext (s : Broker) : Place → Choice → Option (Broker × Place)
 | .announce next, .go =>
  if s.announcing then some ({ s with changed := true }, next)
  else some ({ s with announcing := true }, .snapshot next)
 | .snapshot next, .go =>
  if s.phase = .open then
   some ({ s with changed := false }, .listening (s.queue.map Waiting.prompt) next)
  else some ({ s with changed := false, announcing := false }, next)
 | .listening _ next, .delivered value =>
  let s := if value then s else s.close
  if s.changed then some (s, .snapshot next)
  else some ({ s with announcing := false }, next)
 | _, _ => none

def Broker.futureNext (s : Broker) : Place → Choice → Option (Broker × Place)
 | .idle g cancel, .drop hangsUp => some (if hangsUp then s.hangUp g else s, .leave g cancel none)
 | .idle g cancel, .go =>
  if s.fired cancel then some (s.hangUp g, .leave g cancel (some .cancelled))
  else some (s, .channel g cancel)
 | .channel g cancel, .go =>
  match s.sent g with
  | some answer => some (s, .check g cancel answer)
  -- The answer channel closes unanswered only when the broker itself is gone.
  | none => if s.gone then some (s, .check g cancel .cancelled) else some (s, .idle g cancel)
 | .check g cancel answer, .go =>
  some (s.hangUp g, .leave g cancel (some (if s.fired cancel then .cancelled else answer)))
 | .leave g cancel outcome, .go =>
  if s.gone then some (s, .departed g cancel outcome)
  else
   let (s, removed) := s.withdraw g
   some (s, if removed then .announce (.departed g cancel outcome)
    else .departed g cancel outcome)
 | _, _ => none

/-- The section of a task at a place. While the broker is there every section of its lock
may be taken. -/
def Broker.next (s : Broker) (place : Place) (choice : Choice) : Option (Broker × Place) :=
 match place, choice with
 | .connect, .go =>
  if s.phase = .unconnected then some ({ s with phase := .open }, .announce (.returned true))
  else some (s, .returned false)
 | .answer g answer, .go =>
  match s.answer g answer with
  | none => some (s, .returned false)
  | some (s, settled) => some (s, .announce (.returned settled))
 | .cancelPending, .go => some (s.cancelAll, .announce (.returned true))
 | .close, .go => some (s.close, .returned true)
 | .request request cancel, .go =>
  if s.fired cancel then some (s, .ready .cancelled) else some (s, .push request cancel)
 | .push request cancel, .go =>
  match s.push request cancel with
  | none => some (s, .ready .unavailable)
  | some (s, g) => some (s, .announce (.idle g cancel))
 | .announce _, _ | .snapshot _, _ | .listening .., _ => s.announceNext place choice
 | .idle .., _ | .channel .., _ | .check .., _ | .leave .., _ => s.futureNext place choice
 | _, _ => none

/-- The places whose section is taken by a handle to the broker. -/
def Place.holdsBroker : Place → Bool
 | .idle .. | .channel .. | .check .. | .leave .. => false
 | _ => true

/-- What happens around the calls. -/
def Broker.act (s : Broker) : Event → Broker
 | .abort signal => { s with aborted := fun i => if i = signal then true else s.aborted i }
 | .dropBroker => { s with gone := true, queue := [] }

/-- The broker's program. A call holds a handle to the broker, so none goes on without it. -/
def brokerProgram : Interleave.Program Broker Place Choice Event where
 entry := Place.entry
 next s _ place choice :=
  if s.gone && place.holdsBroker then none else s.next place choice
 act := Broker.act

end Bake.Permissions
