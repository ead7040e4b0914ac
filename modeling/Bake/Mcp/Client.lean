import Bake.Lib.Interleave
import Bake.Lib.OrdMap
import Mathlib.Algebra.GroupWithZero.Nat

/-!
# One MCP connection

The task that drives a connection and the callers of `Core::request`, any number of each
method at once, over the channels between them: requests travel over a bounded channel, the
cancellations of dropped and timed-out ones over another that overtakes it, and each
cancellation carries its request's permit. A step is one operation on a channel, a semaphore
or a reply slot; the driver's own state changes with it. Which branch of a `select!` is taken,
what the server sends and how a write ends come from outside, as does a request's deadline.

Identities count up without a bound. What has happened on the connection (who made which
request, who holds a permit, the writes that were started, the messages that were read and the
answers that were delivered) is kept beside it; no step reads it.
-/

namespace Bake.Mcp

/-- The methods `Core::request` is called with. -/
inductive Method where
 | initializeConnection
 | toolsList
 | toolsCall
 | resourcesList
 | templatesList
 | resourcesRead
 | ping
 deriving DecidableEq

/-- The `cancellable` each is requested with. -/
def Method.cancellable : Method → Bool
 | .initializeConnection => false
 | _ => true

inductive CloseReason where
 | shutdown
 | endOfStream
 | incompleteMessage (bytes : Nat)
 | messageTooLarge (limit : Nat)
 | receive (kind message : String)
 | send (kind message : String)
 | driverFailed
 deriving DecidableEq

inductive ReceiveError where
 | tooLarge (limit : Nat)
 | incomplete (bytes : Nat)
 | io (kind message : String)

def CloseReason.fromReceive : ReceiveError → CloseReason
 | .tooLarge limit => .messageTooLarge limit
 | .incomplete bytes => .incompleteMessage bytes
 | .io kind message => .receive kind message

/-- `Reply`; `V` stands for JSON values. -/
structure Reply (V : Type) where
 result : V
 bytes : Nat
 deriving DecidableEq

/-- The `RequestError`s of a single request. -/
inductive RequestError (V : Type) where
 | server (method : Method) (error : V)
 | timeout (method : Method) (after : Nat)
 | closed (reason : CloseReason)
 | messageTooLarge (method : Method) (size limit : Nat)
 | invalidResponse (method : Method) (detail : String)
 deriving DecidableEq

inductive Answer (V : Type) where
 | ok (reply : Reply V)
 | error (error : RequestError V)
 deriving DecidableEq

inductive Outcome (V : Type) where
 | result (value : V)
 | error (error : V)
 | invalid (detail : String)

/-- A response's id: a number that fits in a `u64`, or any other. -/
inductive ResponseId where
 | number (n : Nat)
 | other (text : String)
 deriving DecidableEq

def ResponseId.asU64 : ResponseId → Option Nat
 | .number n => some n
 | .other _ => none

inductive Incoming (V : Type) where
 | response (id : ResponseId) (outcome : Outcome V)
 | errorWithoutId (error : V)
 | request (id method : String)
 | notification (method : String) (params : Option V)

/-- A message of the server: its size, whether it is white space only, and what it is
parsed as. -/
structure Frame (V : Type) where
 size : Nat
 blank : Bool
 parsed : Except String (Incoming V)

/-- What `receive` returns. -/
inductive Received (V : Type) where
 | frame (frame : Frame V)
 | endOfStream
 | failed (error : ReceiveError)

inductive ClientEvent (V : Type) where
 | notification (method : String) (params : Option V)
 | malformedMessage (detail : String)
 | unknownResponse (id : ResponseId)
 | errorWithoutId (error : V)

/-- A message to the server. -/
inductive Outgoing where
 | request (id : Nat)
 | initialized
 | cancelled (id : Nat) (reason : String)
 | pong (id : String)
 | methodNotFound (id method : String)
 deriving DecidableEq

namespace Outgoing

/-- The request it is, if it is one. -/
def request? : Outgoing → Option Nat
 | request id => some id
 | _ => none

/-- The request it is the cancellation of, if it is one. -/
def notice? : Outgoing → Option Nat
 | cancelled id _ => some id
 | _ => none

end Outgoing

inductive Command where
 | request (id : Nat) (method : Method) (cancellable : Bool)
 | notify
 deriving DecidableEq

/-- The request it is, if it is one. -/
def Command.request? : Command → Option Nat
 | request id _ _ => some id
 | notify => none

/-- `Cancel`, with the request's permit. -/
structure Cancel where
 id : Nat
 reason : String
 deriving DecidableEq

structure Pending where
 method : Method
 cancellable : Bool
 deriving DecidableEq

/-- A request's reply channel. -/
inductive Slot (V : Type) where
 | waiting
 | sent (answer : Answer V)
 /-- The receiver was dropped. -/
 | closed
 /-- The sender was dropped and nothing was sent. -/
 | lost

def Slot.isClosed {V : Type} : Slot V → Bool
 | .closed => true
 | _ => false

/-- The part of `Driver::finish` that is next. -/
inductive Stage where
 | record
 | closePermits
 | closeCommands
 | drainCommands
 | drainPending
 | closeCancels
 | drainCancels
 | flush
 deriving DecidableEq

inductive DriverPlace where
 /-- The top of `serve`'s loop. -/
 | top
 /-- The pass over the cancellations, with as many left to take. -/
 | pass (left : Nat)
 | select
 | finishing (stage : Stage) (reason : CloseReason)
 | done (reason : CloseReason)
 deriving DecidableEq

/-- One call of `Core::request`: the method, and the size of the encoded request. -/
structure Call where
 method : Method
 size : Nat
 deriving DecidableEq

/-- `Limits` and the options the connection reads; the limits are not zero. -/
structure Options where
 maxMessageBytes : Nat
 maxPendingRequests : Nat
 maxQueuedMessages : Nat
 maxEvents : Nat
 requestTimeout : Option Nat
 message_pos : 0 < maxMessageBytes
 pending_pos : 0 < maxPendingRequests
 queued_pos : 0 < maxQueuedMessages
 events_pos : 0 < maxEvents

/-- What `Core` and `Driver` share and what the driver owns. -/
structure Connection (V : Type) where
 nextId : Nat
 free : Nat
 permitsClosed : Bool
 commands : List Command
 commandsClosed : Bool
 cancels : List Cancel
 cancelsClosed : Bool
 shutdown : Bool
 close : Option CloseReason
 replies : Nat → Slot V
 /-- The consumer's events. -/
 events : List (ClientEvent V)
 eventsOpen : Bool
 droppedEvents : Nat
 tools : Nat
 driver : DriverPlace
 writing : Option Outgoing
 queue : List Outgoing
 pending : List (Nat × Pending)
 cancelled : List Nat
 /-- What has happened: the call and the caller of each identity, the requests that hold a
  permit, the writes started, the messages read and the answers delivered. -/
 requests : Nat → Option (Call × Nat)
 held : List Nat
 wire : List Outgoing
 received : List (Frame V)
 delivered : List (Nat × Answer V)

variable {V : Type}

/-- `McpClient::start`. -/
def started (o : Options) : Connection V where
 nextId := 1
 free := o.maxPendingRequests
 permitsClosed := false
 commands := []
 commandsClosed := false
 cancels := []
 cancelsClosed := false
 shutdown := false
 close := none
 replies := fun _ => .waiting
 events := []
 eventsOpen := true
 droppedEvents := 0
 tools := 0
 driver := .top
 writing := none
 queue := []
 pending := []
 cancelled := []
 requests := fun _ => none
 held := []
 wire := []
 received := []
 delivered := []

namespace Connection

variable (o : Options) (c : Connection V)

/-- The requests on the command channel, in the queue and among the writes started. -/
def commandIds : List Nat := c.commands.filterMap Command.request?
def queuedIds : List Nat := c.queue.filterMap Outgoing.request?
def wireIds : List Nat := c.wire.filterMap Outgoing.request?
def cancelIds : List Nat := c.cancels.map Cancel.id
/-- The requests whose cancellation is queued or on the wire. -/
def noticeIds : List Nat := (c.queue ++ c.wire).filterMap Outgoing.notice?

/-- `Sender::send` of a reply. -/
def deliver (id : Nat) (answer : Answer V) : Connection V :=
 match c.replies id with
 | .waiting =>
  { c with
    replies := Function.update c.replies id (.sent answer)
    delivered := c.delivered ++ [(id, answer)] }
 | _ => c

def dropSender (id : Nat) : Connection V :=
 match c.replies id with
 | .waiting => { c with replies := Function.update c.replies id .lost }
 | _ => c

def dropReceiver (id : Nat) : Connection V :=
 { c with replies := Function.update c.replies id .closed }

def event (event : ClientEvent V) : Connection V :=
 if !c.eventsOpen then c
 else if c.events.length < o.maxEvents then { c with events := c.events ++ [event] }
 else { c with droppedEvents := c.droppedEvents + 1 }

def startWrite : Connection V :=
 match c.writing, c.queue with
 | none, message :: rest =>
  { c with queue := rest, writing := some message, wire := c.wire ++ [message] }
 | _, _ => c

def command : Command → Connection V
 | .request id method cancellable =>
  -- abandoned before it reached the driver
  if (c.replies id).isClosed then c
  else
   { c with
     pending := OrdMap.insert c.pending id { method, cancellable }
     queue := c.queue ++ [Outgoing.request id] }
 | .notify => { c with queue := c.queue ++ [.initialized] }

def cancel (cancel : Cancel) : Connection V :=
 match OrdMap.get? c.pending cancel.id with
 | none => c
 | some entry =>
  let c := { c with pending := OrdMap.erase c.pending cancel.id }.dropSender cancel.id
  if cancel.id ∈ c.queuedIds then
   { c with queue := c.queue.eraseP fun outgoing => outgoing.request? = some cancel.id }
  else
   { c with
     cancelled := (if c.cancelled.length = o.maxPendingRequests then c.cancelled.tail
      else c.cancelled) ++ [cancel.id]
     queue := if entry.cancellable then c.queue ++ [.cancelled cancel.id cancel.reason]
      else c.queue }

/-- The next cancellation is taken, and its permit released behind it. -/
def takeCancel (first : Cancel) (rest : List Cancel) : Connection V :=
 let c := { c with cancels := rest }.cancel o first
 { c with free := c.free + 1 }

/-- What a response means to the request it answers. -/
def reply (method : Method) (outcome : Outcome V) (bytes : Nat) : Answer V :=
 match outcome with
 | .result result => .ok { result, bytes }
 | .error error => .error (.server method error)
 | .invalid detail => .error (.invalidResponse method detail)

def response (id : ResponseId) (outcome : Outcome V) (bytes : Nat) : Connection V :=
 match id.asU64 with
 | none => c.event o (.unknownResponse id)
 | some number =>
  match OrdMap.get? c.pending number with
  | some entry =>
   { c with pending := OrdMap.erase c.pending number }.deliver number
     (reply entry.method outcome bytes)
  | none =>
   if number ∈ c.cancelled then { c with cancelled := c.cancelled.erase number }
   else c.event o (.unknownResponse id)

def serverRequest (id method : String) : Connection V :=
 { c with queue := c.queue ++ [if method = "ping" then .pong id else .methodNotFound id method] }

def notification (method : String) (params : Option V) : Connection V :=
 if method = "notifications/tools/list_changed" then { c with tools := (c.tools + 1) % 2 ^ 64 }
 else if method = "notifications/cancelled" then c
 else c.event o (.notification method params)

/-- `Driver::frame`, for a message that is neither too large nor blank. -/
def incoming (frame : Frame V) : Connection V :=
 let c := { c with received := c.received ++ [frame] }
 match frame.parsed with
 | .error detail => c.event o (.malformedMessage detail)
 | .ok (.response id outcome) => c.response o id outcome frame.size
 | .ok (.errorWithoutId error) => c.event o (.errorWithoutId error)
 | .ok (.request id method) => c.serverRequest id method
 | .ok (.notification method params) => c.notification o method params

/-- `serve` returns. -/
def closing (reason : CloseReason) : Connection V :=
 { c with driver := .finishing .record reason }

/-- The branch of `select!` that reads a message. -/
def receive : Received V → Connection V
 | .frame frame =>
  if o.maxMessageBytes < frame.size then c.closing (.messageTooLarge o.maxMessageBytes)
  else if frame.blank then { c with driver := .top }
  else { c.incoming o frame with driver := .top }
 | .endOfStream => c.closing .endOfStream
 | .failed error => c.closing (.fromReceive error)

/-- The requests in the queue were failed before and are not sent. -/
def flush (reason : CloseReason) : Connection V :=
 match c.writing, reason with
 | some _, _ => c
 | none, .send _ _ => { c with driver := .done reason }
 | none, _ =>
  match c.queue with
  | [] => { c with driver := .done reason }
  | .request _ :: rest => { c with queue := rest }
  | message :: rest =>
   { c with queue := rest, writing := some message, wire := c.wire ++ [message] }

/-- One operation of `finish`. The entries of the map come in any order, and are taken from
outside. -/
def finish (reason : CloseReason) : Stage → Connection V
 | .record => { c with close := some reason, driver := .finishing .closePermits reason }
 | .closePermits => { c with permitsClosed := true, driver := .finishing .closeCommands reason }
 | .closeCommands => { c with commandsClosed := true, driver := .finishing .drainCommands reason }
 | .drainCommands =>
  match c.commands with
  | [] => { c with driver := .finishing .drainPending reason }
  | .request id _ _ :: rest => { c with commands := rest }.deliver id (.error (.closed reason))
  | .notify :: rest => { c with commands := rest, queue := c.queue ++ [.initialized] }
 | .drainPending =>
  if c.pending = [] then { c with driver := .finishing .closeCancels reason } else c
 | .closeCancels => { c with cancelsClosed := true, driver := .finishing .drainCancels reason }
 | .drainCancels =>
  match c.cancels with
  | [] => { c with driver := .finishing .flush reason }
  | _ :: rest => { c with cancels := rest, free := c.free + 1 }
 | .flush => c.flush reason

/-- The next operation of the driver's own. -/
def proceed : Connection V :=
 match c.driver with
 | .top =>
  if c.shutdown then c.closing .shutdown
  else { c with driver := .pass o.maxPendingRequests }
 | .pass 0 => { c.startWrite with driver := .select }
 | .pass (left + 1) =>
  match c.cancels with
  | [] => { c.startWrite with driver := .select }
  | first :: rest => { c.takeCancel o first rest with driver := .pass left }
 | .select => c
 | .finishing stage reason => c.finish reason stage
 | .done _ => c

def room : Bool := c.queue.length < o.maxQueuedMessages

def wrote (error : Option (String × String)) : Connection V :=
 match c.writing, c.driver with
 | some _, .select =>
  match error with
  | none => { c with writing := none, driver := .top }
  | some (kind, message) => { c with writing := none }.closing (.send kind message)
 | some _, .finishing .flush reason =>
  match error with
  | none => { c with writing := none }
  | some _ => { c with writing := none, driver := .done reason }
 | _, _ => c

/-- The branch of `select!` that takes a command. -/
def takeCommand : Connection V :=
 match c.commands with
 | [] => c
 | first :: rest => { { c with commands := rest }.command first with driver := .top }

/-- An entry of the map is drained. -/
def drain (index : Nat) (reason : CloseReason) : Connection V :=
 match c.pending[index]? with
 | none => c
 | some (id, _) =>
  { c with pending := OrdMap.erase c.pending id }.deliver id (.error (.closed reason))

def closedError : Answer V := .error (.closed (c.close.getD .driverFailed))

end Connection

inductive Signal (V : Type) where
 /-- The driver's next operation. -/
 | proceed
 /-- `Core::shutdown`, or the client is dropped. -/
 | shutdown
 /-- The branches of `select!`. A write also ends behind `serve`. -/
 | stop
 | wrote (error : Option (String × String))
 | command
 | receive (received : Received V)
 | cancel
 /-- An entry of the map that `finish` drains. -/
 | drain (index : Nat)
 /-- `shutdown_timeout` is over. -/
 | deadline
 /-- The consumer takes an event, or goes away. -/
 | consume
 | unsubscribe

namespace Connection

/-- The driver and the world. A branch that is not ready does nothing. -/
def act (o : Options) (c : Connection V) : Signal V → Connection V
 | .proceed => c.proceed o
 | .shutdown => { c with shutdown := true }
 | .stop => if c.driver = .select ∧ c.shutdown then c.closing .shutdown else c
 | .wrote error => c.wrote error
 | .command => if c.driver = .select ∧ c.room o then c.takeCommand else c
 | .receive received => if c.driver = .select ∧ c.room o then c.receive o received else c
 | .cancel =>
  if c.driver = .select then
   match c.cancels with
   | [] => c
   | first :: rest => { c.takeCancel o first rest with driver := .top }
  else c
 | .drain index =>
  match c.driver with
  | .finishing .drainPending reason => c.drain index reason
  | _ => c
 | .deadline =>
  match c.driver with
  | .finishing .flush reason => { c with writing := none, driver := .done reason }
  | _ => c
 | .consume => { c with events := c.events.tail }
 | .unsubscribe => { c with eventsOpen := false }

end Connection

/-- A request that was given its identity. -/
structure Ticket where
 id : Nat
 method : Method
 deriving DecidableEq

inductive Place (V : Type) where
 | entry (call : Call)
 /-- Waits for a permit. -/
 | acquire (r : Ticket)
 /-- Waits for room on the channel. -/
 | sending (r : Ticket)
 | waiting (r : Ticket)
 /-- The armed guard is dropped: first its receiver, then the cancellation is sent. -/
 | dropping (r : Ticket) (reason : String) (answer : Option (Answer V))
 | cancelling (r : Ticket) (reason : String) (answer : Option (Answer V))
 /-- The guard is dropped disarmed. -/
 | releasing (r : Ticket) (answer : Answer V)
 | returned (id : Nat) (answer : Answer V)
 /-- Its future was dropped. -/
 | dropped
 /-- `notifications/initialized`. -/
 | notifying
 | notified (error : Option (Answer V))
 deriving DecidableEq

/-- Whether a caller goes on, its deadline passes, or its future is dropped. -/
inductive Choice where
 | go
 | timeout
 | drop
 deriving DecidableEq

def Place.isEntry : Place V → Bool
 | entry _ => true
 | notifying => true
 | _ => false

def cancelledReason : String := "Request cancelled"

def timedOutReason : String := "Request timed out"

namespace Connection

variable (o : Options) (c : Connection V) (t : Nat)

/-- A caller's future ends. -/
def ended (r : Ticket) : Option (Answer V) → Place V
 | none => .dropped
 | some answer => .returned r.id answer

/-- The start of `Core::request`: the identity, and the size of the message. -/
def begin (call : Call) : Connection V × Place V :=
 let id := c.nextId
 let c := { c with
  nextId := id + 1
  requests := Function.update c.requests id (some (call, t)) }
 if o.maxMessageBytes < call.size then
  (c, .returned id (.error (.messageTooLarge call.method call.size o.maxMessageBytes)))
 else (c, .acquire { id, method := call.method })

def acquire (r : Ticket) : Choice → Option (Connection V × Place V)
 | .go =>
  if c.permitsClosed then some (c, .returned r.id c.closedError)
  else if c.free = 0 then none
  else some ({ c with free := c.free - 1, held := c.held ++ [r.id] }, .sending r)
 | .timeout =>
  if c.permitsClosed then none
  else o.requestTimeout.map fun after => (c, .returned r.id (.error (.timeout r.method after)))
 | .drop => some (c, .dropped)

def sending (r : Ticket) : Choice → Option (Connection V × Place V)
 | .go =>
  if c.commandsClosed then some (c, .releasing r c.closedError)
  else if c.commands.length < o.maxPendingRequests then
   some ({ c with commands := c.commands ++ [.request r.id r.method r.method.cancellable] },
    .waiting r)
  else none
 | .timeout =>
  if c.commandsClosed then none
  else o.requestTimeout.map fun after =>
   (c, .dropping r cancelledReason (some (.error (.timeout r.method after))))
 | .drop => some (c, .dropping r cancelledReason none)

def waiting (r : Ticket) : Choice → Option (Connection V × Place V)
 | .go =>
  match c.replies r.id with
  | .waiting => none
  | .sent answer => some (c, .releasing r answer)
  | _ => some (c, .releasing r c.closedError)
 | .timeout =>
  match c.replies r.id with
  | .waiting => o.requestTimeout.map fun after =>
   (c, .dropping r timedOutReason (some (.error (.timeout r.method after))))
  | _ => none
 | .drop => some (c, .dropping r cancelledReason none)

/-- The cancellation is sent with its permit; the permit goes with a channel that is
closed. -/
def sendCancel (r : Ticket) (reason : String) : Connection V :=
 if c.cancelsClosed then { c with free := c.free + 1, held := c.held.erase r.id }
 else { c with cancels := c.cancels ++ [{ id := r.id, reason }], held := c.held.erase r.id }

def notifying : Choice → Option (Connection V × Place V)
 | .go =>
  if c.commandsClosed then some (c, .notified (some c.closedError))
  else if c.commands.length < o.maxPendingRequests then
   some ({ c with commands := c.commands ++ [.notify] }, .notified none)
  else none
 | .timeout => none
 | .drop => some (c, .dropped)

/-- A caller's next operation. -/
def next (p : Place V) (choice : Choice) : Option (Connection V × Place V) :=
 match p with
 | .entry call =>
  match choice with
  | .go => some (c.begin o t call)
  | .timeout => none
  | .drop => some (c, .dropped)
 | .acquire r => c.acquire o r choice
 | .sending r => c.sending o r choice
 | .waiting r => c.waiting o r choice
 | .dropping r reason answer => some (c.dropReceiver r.id, .cancelling r reason answer)
 | .cancelling r reason answer => some (c.sendCancel r reason, ended r answer)
 | .releasing r answer =>
  some ({ c.dropReceiver r.id with free := c.free + 1, held := c.held.erase r.id },
   .returned r.id answer)
 | .notifying => c.notifying o choice
 | .returned _ _ | .dropped | .notified _ => none

end Connection

def client (o : Options) : Interleave.Program (Connection V) (Place V) Choice (Signal V) where
 entry := Place.isEntry
 next c t p choice := c.next o t p choice
 act := Connection.act o

end Bake.Mcp
