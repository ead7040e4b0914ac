import Bake.Permissions.History
import Bake.Lib.Interleave

/-!
# The permission engine

`PermissionEngine::resolve` takes a call through the layers; where one requires an approval
it records the request, asks the policy approver, and records the answer. A call is a task:
it may be aborted, its session may be written to, stopped or shut down, and the standing
permissions may be switched, between any two of its sections. A section is what runs under
one lock, or up to an await.

Each task keeps a trace of what happened to it.
-/

namespace Bake.Permissions

open Bake.Json Bake.Session

/-! ## The session's recorder -/

/-- What the manager gives a new entry. -/
structure Stamp where
 id : String
 parentId : Value
 timestamp : String

def approvalEntry (stamp : Stamp) (entry : ApprovalEntry) : SessionEntry where
 id := stamp.id
 raw := [("type", .string "custom"), ("id", .string stamp.id), ("parentId", stamp.parentId),
  ("timestamp", .string stamp.timestamp), ("customType", .string approvalCustomType),
  ("data", entry.toData)]

inductive Write where
 /-- Nothing ran: the write could not start. -/
 | refused (text : String)
 /-- Written and synced. -/
 | done (stamp : Stamp)
 /-- The write failed; where its line is whole in the file all the same, the line's stamp. -/
 | failed (error : String) (landed : Option Stamp)
 /-- The blocking task was lost; whether the entry landed is unknown. -/
 | lost (error : String) (landed : Option Stamp)

structure ApprovalSession where
 standing : StandingPermissions
 /-- A recorder is bound to the engine. -/
 bound : Bool
 /-- The abort signals that have fired. -/
 aborted : Nat → Bool
 /-- The error after which the session writes nothing more. -/
 gap : Option String
 shut : Bool
 /-- The entries the manager keeps, and those a reader of the file finds. -/
 entries : List SessionEntry
 file : List SessionEntry
 /-- The request ids drawn, each with the task that drew it. -/
 drawn : List (String × Nat)

namespace ApprovalSession

def fired (s : ApprovalSession) (cancel : Option Nat) : Bool := cancel.any s.aborted

/-- An entry is written and synced. -/
def append (s : ApprovalSession) (entry : SessionEntry) : ApprovalSession :=
 { s with entries := s.entries ++ [entry], file := s.file ++ [entry] }

/-- A write has failed: nothing is written from here on. -/
def stop (s : ApprovalSession) (error : String) (landed : Option SessionEntry) : ApprovalSession :=
 { s with gap := some error, file := s.file ++ landed.toList }

def shutDown : String := "The session is shut down."

/-- The refusal of a call whose approval entry was not written. -/
def unwritten (error : String) : String :=
 "The approval could not be written to the session file (" ++ error
  ++ "), so the session stopped and takes no more prompts."

def lostTask (error : String) : String := "Session I/O task failed: " ++ error

/-- `SessionRecorder::record`: an entry is written as it is admitted. -/
def record (s : ApprovalSession) (entry : ApprovalEntry) (cancel : Option Nat) (write : Write) :
 ApprovalSession × Except String (Option ApprovalEntry) :=
 let admitted := entry.admitted (s.fired cancel)
 let line := fun stamp => admitted.map (approvalEntry stamp)
 if s.shut then (s, .error shutDown)
 else match write, s.gap with
  | .refused text, _ => (s, .error text)
  | .lost error _, some _ => (s, .error (unwritten (lostTask error)))
  | .lost error landed, none =>
   (s.stop (lostTask error) (landed.bind line), .error (unwritten (lostTask error)))
  | _, some error => (s, .error (unwritten error))
  | .done stamp, none =>
   match admitted with
   | none => (s, .ok none)
   | some entry => (s.append (approvalEntry stamp entry), .ok (some entry))
  | .failed error landed, none =>
   match admitted with
   | none => (s, .ok none)
   | some _ => (s.stop error (landed.bind line), .error (unwritten error))

end ApprovalSession

/-! ## Calls -/

/-- An approval a call waits for, and the layers behind the one that requires it. -/
structure Pending where
 call : ToolCall
 signal : Option Nat
 need : ApprovalNeed
 layers : List PolicyLayer

/-- The `asked` entry of an approval. -/
def Pending.asked (p : Pending) (id : String) : ApprovalEntry :=
 .asked { id, toolName := p.call.toolName, callId := some p.call.callId,
          reason := some p.need.reason, sandbox := some p.need.grant.mode }

/-- Where a call stands: before the section of that name. A request is known by the id
drawn for it, if it is recorded. -/
inductive Stage where
 | start (call : ToolCall) (signal : Option Nat)
 /-- `resolve`, with the layers left and the policy so far. -/
 | resolve (call : ToolCall) (signal : Option Nat) (layers : List PolicyLayer)
  (policy : Option SandboxPolicy)
 | approve (p : Pending)
 | recordAsked (p : Pending) (id : String)
 /-- `PolicyApprover::request`: its look at the policy; its future's first look at the
  signal; its race of the signal and the answerer, who is asked by the first poll; and its
  last look at the signal. -/
 | request (p : Pending) (id : Option String)
 | poll (p : Pending) (id : Option String) (policy : ApprovalPolicy)
 | race (p : Pending) (id : Option String) (asking : Bool)
 | check (p : Pending) (id : Option String) (outcome : EscalationOutcome)
 | recordDecided (p : Pending) (id : Option String) (outcome : EscalationOutcome)
 | approved (p : Pending) (result : Except String EscalationOutcome)
 | returned (call : ToolCall) (result : Except String SandboxPolicy)

/-- What happened to a call. -/
inductive Moment where
 /-- A layer was evaluated under these standing permissions. -/
 | evaluated (standing : StandingPermissions)
 | drew (id : String)
 /-- An entry was written, while its signal had fired or not. -/
 | wrote (entry : ApprovalEntry) (aborted : Bool)
 /-- A request started under this approval policy. -/
 | started (policy : ApprovalPolicy)
 /-- The answerer was asked, and answered; without an outcome where it panicked. -/
 | asked
 | answered (outcome : Option EscalationOutcome)
 /-- `approve` returned. -/
 | approved (id : Option String) (result : Except String EscalationOutcome)

/-- A call and its trace. -/
structure Task where
 stage : Stage
 trace : List Moment

/-- What the engine does not decide: the id a request gets, how a write comes out, and what
the answerer says when it is polled: nothing yet, an outcome, or a panic. -/
inductive EngineChoice where
 | go
 | draw (id : String)
 | write (write : Write)
 | poll (answer : Option (Option EscalationOutcome))

/-- What happens around the calls. -/
inductive EngineEvent where
 | abort (signal : Nat)
 | set (sandbox : SandboxMode) (approval : ApprovalPolicy)
 /-- Another entry of the session is written, and a write of one fails. -/
 | append (entry : SessionEntry)
 | gap (error : String)
 | shutdown

/-- `PermissionEngine`, without its approver. -/
structure PermissionEngine where
 layers : List PolicyLayer

def PermissionEngine.standard : PermissionEngine where
 layers := [standingModeLayer, escalationLayer]

/-- `resolve` without a policy. -/
def unresolved (call : ToolCall) : String :=
 "permission: no policy layer resolved a sandbox policy for this " ++ call.toolName ++ " call"

namespace ApprovalSession

/-- The sections of `resolve` around an approval. -/
def resolveNext (s : ApprovalSession) (call : ToolCall) (signal : Option Nat)
 (policy : Option SandboxPolicy) : List PolicyLayer → List Moment × Stage
 | [] =>
  match policy with
  | some policy => ([], .returned call (.ok policy))
  | none => ([], .returned call (.error (unresolved call)))
 | layer :: layers =>
  ([.evaluated s.standing],
   match layer.evaluate s.standing call policy with
   | .pass => .resolve call signal layers policy
   | .setPolicy next => .resolve call signal layers (some next)
   | .refuse text => .returned call (.error text)
   | .requireApproval need => .approve { call, signal, need, layers })

/-- `resolve` behind an approval. -/
def approvedNext (p : Pending) : Except String EscalationOutcome → Stage
 | .ok .allowedOnce => .resolve p.call p.signal p.layers (some p.need.grant)
 | .ok outcome => .returned p.call (.error (p.need.refusal outcome))
 | .error text => .returned p.call (.error text)

/-- `approve` comes to its result. -/
def approvedWith (p : Pending) (id : Option String) (result : Except String EscalationOutcome) :
 List Moment × Stage :=
 ([.approved id result], .approved p result)

/-- The section of `approve` that writes the `asked` entry. -/
def recordAskedNext (s : ApprovalSession) (p : Pending) (id : String) (write : Write) :
 ApprovalSession × List Moment × Stage :=
 match s.record (p.asked id) p.signal write with
 | (s', .error text) => (s', approvedWith p (some id) (.error text))
 | (s', .ok none) => (s', approvedWith p (some id) (.ok .cancelled))
 | (s', .ok (some entry)) => (s', [.wrote entry (s.fired p.signal)], .request p (some id))

/-- The section of `approve` that writes the `decided` entry. -/
def recordDecidedNext (s : ApprovalSession) (p : Pending) (id : String)
 (outcome : EscalationOutcome) (write : Write) : ApprovalSession × List Moment × Stage :=
 match s.record (.decided id outcome) p.signal write with
 | (s', .error text) => (s', approvedWith p (some id) (.error text))
 | (s', .ok (some (.decided id' outcome))) =>
  (s', [.wrote (.decided id' outcome) (s.fired p.signal), .approved (some id) (.ok outcome)],
   .approved p (.ok outcome))
 | (s', .ok _) => (s', approvedWith p (some id) (.ok .cancelled))

def approverNext (s : ApprovalSession) : Stage → EngineChoice → Option (List Moment × Stage)
 | .request p id, .go => some ([.started s.standing.approval], .poll p id s.standing.approval)
 | .poll p id policy, .go =>
  if s.fired p.signal then some ([], .recordDecided p id .cancelled)
  -- Decided here, before any answerer.
  else if policy = .never then some ([], .recordDecided p id .rejected)
  else some ([], .race p id false)
 | .race p id asking, .poll answer =>
  -- Cancellation first: a late answer is dropped.
  if s.fired p.signal then some ([], .recordDecided p id .cancelled)
  else
   let asked := if asking then [] else [Moment.asked]
   match answer with
   | none => some (asked, .race p id true)
   | some answer => some (asked ++ [.answered answer], .check p id (answer.getD .unavailable))
 | .check p id outcome, .go =>
  some ([], .recordDecided p id (if s.fired p.signal then .cancelled else outcome))
 | _, _ => none

def next (engine : PermissionEngine) (s : ApprovalSession) (t : Nat) (stage : Stage)
 (choice : EngineChoice) : Option (ApprovalSession × List Moment × Stage) :=
 match stage, choice with
 | .start call signal, .go => some (s, [], .resolve call signal engine.layers none)
 | .resolve call signal layers policy, .go => some (s, s.resolveNext call signal policy layers)
 | .approve p, .draw id =>
  if s.bound then
   -- `uuid_v4` draws an id that no request has.
   if id = "" ∨ (OrdMap.get? s.drawn id).isSome then none
   else some ({ s with drawn := OrdMap.insert s.drawn id t }, [.drew id], .recordAsked p id)
  else some (s, [], .request p none)
 | .recordAsked p id, .write write => some (s.recordAskedNext p id write)
 | .recordDecided p (some id) outcome, .write write => some (s.recordDecidedNext p id outcome write)
 | .recordDecided p none outcome, .go => some (s, approvedWith p none (.ok outcome))
 | .approved p result, .go => some (s, [], approvedNext p result)
 | stage, choice => (s.approverNext stage choice).map fun next => (s, next)

/-- What happens around the calls. The entries others write are no approval entries. -/
def act (s : ApprovalSession) : EngineEvent → ApprovalSession
 | .abort signal => { s with aborted := fun i => if i = signal then true else s.aborted i }
 | .set sandbox approval => { s with standing := s.standing.set sandbox approval }
 | .append entry => if s.gap = none ∧ !isApproval entry then s.append entry else s
 | .gap error => if s.gap = none then s.stop error none else s
 | .shutdown => { s with shut := true }

end ApprovalSession

/-- A call before its first section. -/
def Task.entry : Task → Bool
 | ⟨.start .., []⟩ => true
 | _ => false

def engineProgram (engine : PermissionEngine) :
 Interleave.Program ApprovalSession Task EngineChoice EngineEvent where
 entry := Task.entry
 next s t task choice := (s.next engine t task.stage choice).map fun (s, moments, stage) =>
   (s, { stage, trace := task.trace ++ moments })
 act := ApprovalSession.act

end Bake.Permissions
