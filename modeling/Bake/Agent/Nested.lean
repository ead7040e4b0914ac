import Bake.Agent.NestedRecord
import Bake.Lib.FairLock
import Bake.Lib.Forest
import Bake.Lib.Run

/-!
# Nested tool calls

The calls the tools of one batch make while they run, to any depth below the batch's
model-issued calls. Each calling tool has a scope; a call is admitted by the scope's gate,
numbered, recorded and spawned as a task of the scope, one lock after another, and the
task takes it through the pipeline: the call site, the exclusive queue, the preparation,
the tool, the close of the tool's own scope, the hook behind it. A call below one that
holds the queue never waits for it.

A task ends early in two ways: its scope's tasks are aborted, or the pipeline panics. Its
tool is then dropped, with a request to abort the tasks of its scope; behind that the
queue is released; and last the call leaves its scope's count. What a hook, a tool, a
signal or the loop decides is an answer.
-/

namespace Bake.Agent

open Bake.Json Bake.Ai

/-! ## The pipeline -/

def maxNestedCallDepth : Nat := 8

def nestedCallerFinished : String :=
 "Nested tool calls are not available after the calling tool call finished"

def nestedCallAborted : String := "Operation aborted"

/-- `NestedPipeline`, with the tools of its call site that nested calls may run. `jsonBytes`
is the length of a value's JSON. -/
structure NestedPipeline where
 callable : List AgentTool
 toolExecution : ToolExecutionMode
 maxConcurrentReadTools : Option NonZero
 runtime : Bool
 jsonBytes : Value → Nat
 validateToolArguments : Value → String → Value → Except String Value

/-- `NestedPipeline::is_exclusive`: the loop's rule for running a call alone. -/
def NestedPipeline.isExclusive (pipeline : NestedPipeline) (tool : Option AgentTool) : Bool :=
 pipeline.toolExecution = .sequential
  || match tool with
   | some tool =>
    tool.executionMode = some .sequential
     || (pipeline.maxConcurrentReadTools.isSome && !tool.readOnly)
   | none => pipeline.maxConcurrentReadTools.isSome

def bareToolCall (id name : String) : ToolCall :=
 { id, name, arguments := [], thoughtSignature := none, namespace_ := none }

def immediate (call : ToolCall) (text : String) : AgentToolCallOutcome :=
 { toolCall := call, result := createErrorToolResult text, isError := true }

def textOf (result : AgentToolResult) : String :=
 "\n".intercalate (result.content.filterMap fun
  | .text text => some text.text
  | .image _ => none)

/-! ## Calls, scopes and the queue -/

/-- Where a call is. It is `torn` once its tool has been dropped by an abort or a panic,
`leaving` once only its count is left. -/
inductive NestedPlace where
 | entered | numbered | recorded
 | starting | site | contending | queued | ready | preparing | executing | closing | finalizing
 | recording (outcome : AgentToolCallOutcome)
 | ending (outcome : AgentToolCallOutcome)
 | torn (panic : Option String)
 | leaving
 | gone

/-- `NestedCall`: a call a scope has admitted. Its statements also need how many calls had
been recorded when it was admitted, and whether it was torn. -/
structure NestedCall where
 scope : Nat
 id : String
 name : String
 args : Value
 record : Option Nat
 place : NestedPlace
 /-- The scope its tool's own calls are made in. -/
 child : Option Nat
 resolved : Option AgentToolCallOutcome
 finished : Bool
 torn : Bool
 seen : Nat

/-- `CallScope`, with the executor bound to it: whose calls it admits. -/
structure CallScope where
 /-- The model-issued call it is below, which keeps the record. -/
 root : Nat
 /-- The nested call whose tool has the executor; none for a model-issued call. -/
 call : Option Nat
 callerId : String
 depth : Nat
 /-- Whether the calling tool has been given its executor. -/
 handed : Bool
 nextId : Nat
 holdsQueue : Bool
 closed : Bool
 running : Nat
 /-- Whether the controller that stops its running calls has been aborted. -/
 closing : Bool
 /-- Whether its tasks have been aborted. -/
 aborted : Bool

/-- How far a model-issued call is. -/
inductive IssuedStage where
 | executing | closing | closed | taken | dropped
 deriving DecidableEq, Repr

structure IssuedCall where
 scope : Nat
 stage : IssuedStage
 recorder : NestedCallRecorder

/-- `NestedToolCallRunner`: the nested calls of one batch, and the exclusive queue, which is
first come, first served. -/
structure NestedRunner where
 queue : FairLock Nat
 issued : List IssuedCall
 scopes : List CallScope
 calls : List NestedCall

namespace NestedRunner

/-- A batch before its first tool runs. -/
def empty : NestedRunner := { queue := .free, issued := [], scopes := [], calls := [] }

def setCall (r : NestedRunner) (c : Nat) (call : NestedCall) : NestedRunner :=
 { r with calls := r.calls.set c call }

def setScope (r : NestedRunner) (s : Nat) (scope : CallScope) : NestedRunner :=
 { r with scopes := r.scopes.set s scope }

def setIssued (r : NestedRunner) (i : Nat) (issued : IssuedCall) : NestedRunner :=
 { r with issued := r.issued.set i issued }

def modifyScope (r : NestedRunner) (s : Nat) (f : CallScope → CallScope) : NestedRunner :=
 { r with scopes := r.scopes.modify s f }

def leaveQueue (r : NestedRunner) (c : Nat) : NestedRunner := { r with queue := r.queue.leave c }

/-- `NestedToolCallRunner::executor`, for a model-issued call that now runs its tool. -/
def issue (r : NestedRunner) (callerId : String) : NestedRunner :=
 { r with
   issued := r.issued ++ [{ scope := r.scopes.length, stage := .executing, recorder := .new }]
   scopes := r.scopes ++
    [{ root := r.issued.length
       call := none
       callerId
       depth := 1
       handed := true
       nextId := 1
       holdsQueue := false
       closed := false
       running := 0
       closing := false
       aborted := false }] }

/-- `NestedToolExecutor::start` up to the gate: the call is admitted, or refused. -/
def start (pipeline : NestedPipeline) (r : NestedRunner) (s : Nat) (name : String)
 (args : Value) : Option NestedRunner :=
 match r.scopes[s]? with
 | none => none
 | some scope =>
  if !scope.handed || !pipeline.runtime || maxNestedCallDepth < scope.depth || scope.closed then
   none
  else
   let args := match args with
    | .null => .object []
    | args => args
   let seen := (r.issued[scope.root]?.map fun issued => issued.recorder.started.length).getD 0
   some { r with
    scopes := r.scopes.set s { scope with running := scope.running + 1 }
    calls := r.calls ++
     [{ scope := s
        id := ""
        name
        args
        record := none
        place := .entered
        child := none
        resolved := none
        finished := false
        torn := false
        seen }] }

end NestedRunner

/-! ## Steps of a call -/

/-- What the surroundings answer a call: whether the branch of a cancelled signal is taken
or its own or its caller's signal has aborted; whether the loop still answers for its call
site; what the preparation brings; and the outcome of the call. -/
structure NestedAnswer where
 cancelled : Bool
 site : Bool
 preparation : Preparation
 outcome : AgentToolCallOutcome

namespace NestedRunner

def childScope (pipeline : NestedPipeline) (scope : CallScope) (c : Nat) (call : NestedCall) :
 CallScope :=
 { root := scope.root
   call := some c
   callerId := call.id
   depth := scope.depth + 1
   handed := false
   nextId := 1
   holdsQueue := scope.holdsQueue || pipeline.isExclusive (findTool pipeline.callable call.name)
   closed := false
   running := 0
   closing := false
   aborted := false }

def argumentsError (pipeline : NestedPipeline) (name : String) (args : Value) : String :=
 match findTool pipeline.callable name with
 | none => "Tool " ++ name ++ " not found"
 | some tool =>
  match pipeline.validateToolArguments tool.parameters name args with
  | .error error => error
  | .ok _ => "Validation failed for tool \"" ++ name ++ "\": arguments must be an object"

def toolCallOf (call : NestedCall) : ToolCall :=
 match call.args with
 | .object arguments => { bareToolCall call.id call.name with arguments }
 | _ => bareToolCall call.id call.name

/-- A call's next step, from where it is. A step that has to wait does nothing. -/
def proceedFrom (pipeline : NestedPipeline) (r : NestedRunner) (c : Nat) (call : NestedCall)
 (scope : CallScope) (answer : NestedAnswer) : NestedRunner :=
 let tool := findTool pipeline.callable call.name
 let toolCall := toolCallOf call
 match call.place with
 -- `start`, behind the gate: the id, the record and the task
 | .entered =>
  (r.setScope call.scope { scope with nextId := scope.nextId + 1 }).setCall c
   { call with place := .numbered, id := scope.callerId ++ "/" ++ toString scope.nextId }
 | .numbered =>
  match r.issued[scope.root]? with
  | none => r
  | some issued =>
   let (record, recorder) := issued.recorder.start pipeline.jsonBytes c call.id call.name call.args
   (r.setIssued scope.root { issued with recorder }).setCall c
    { call with place := .recorded, record }
 | .recorded =>
  if scope.aborted then r.setCall c { call with place := .leaving, torn := true }
  else r.setCall c { call with place := .starting }
 -- the task
 | .starting => r.setCall c { call with place := .site }
 | .site =>
  if !answer.site then
   r.setCall c { call with
    place := .recording (immediate (bareToolCall call.id call.name) nestedCallerFinished) }
  else
   match call.args with
   | .object _ =>
    if !scope.holdsQueue && pipeline.isExclusive tool then
     r.setCall c { call with place := .contending }
    else r.setCall c { call with place := .ready }
   | args =>
    r.setCall c { call with
     place := .recording (immediate toolCall (argumentsError pipeline call.name args)) }
 | .contending =>
  if answer.cancelled then
   r.setCall c { call with place := .recording (immediate toolCall nestedCallAborted) }
  else
   { r with queue := r.queue.lock c }.setCall c
     { call with place := if r.queue.holder.isNone then .ready else .queued }
 | .queued =>
  if answer.cancelled then
   (r.leaveQueue c).setCall c
    { call with place := .recording (immediate toolCall nestedCallAborted) }
  else if r.queue.holder = some c then r.setCall c { call with place := .ready }
  else r
 | .ready =>
  if scope.closing || answer.cancelled then
   (r.leaveQueue c).setCall c
    { call with place := .recording (immediate toolCall nestedCallAborted) }
  else
   { r with scopes := r.scopes ++ [childScope pipeline scope c call] }.setCall c
     { call with place := .preparing, child := some r.scopes.length }
 | .preparing =>
  let preparation := match tool with
   | none => immediateError ("Tool " ++ call.name ++ " not found")
   | some _ => answer.preparation
  match preparation with
  | .immediate result isError =>
   (r.leaveQueue c).setCall c
    { call with place := .recording { toolCall, result, isError } }
  | .prepared _ _ =>
   (r.modifyScope (call.child.getD 0) fun scope => { scope with handed := true }).setCall c
    { call with place := .executing }
 -- the tool has settled: its executor closes
 | .executing =>
  (r.modifyScope (call.child.getD 0) fun scope =>
   { scope with closed := true, closing := true }).setCall c { call with place := .closing }
 | .closing =>
  match call.child.bind (r.scopes[·]?) with
  | none => r
  | some child =>
   if child.running = 0 then
    (r.modifyScope (call.child.getD 0) fun scope => { scope with aborted := true }).setCall c
     { call with place := .finalizing }
   else r
 | .finalizing =>
  (r.leaveQueue c).setCall c
   { call with place := .recording { answer.outcome with toolCall } }
 | .recording outcome =>
  match r.issued[scope.root]? with
  | none => r
  | some issued =>
   (r.setIssued scope.root { issued with
    recorder := issued.recorder.finish call.record outcome.isError
     (textOf outcome.result) }).setCall c
    { call with place := .ending outcome, finished := true }
 | .ending outcome =>
  r.setCall c { call with place := .leaving, resolved := some outcome }
 | .torn panic =>
  (r.leaveQueue c).setCall c { call with
   place := .leaving
   resolved := panic.map fun message =>
    immediate (bareToolCall call.id call.name) ("Nested tool call failed: " ++ message) }
 -- the count is dropped with the task; a future without an outcome resolves to the abort
 | .leaving =>
  (r.setScope call.scope { scope with running := scope.running - 1 }).setCall c
   { call with
     place := .gone
     resolved := some (call.resolved.getD
      (immediate (bareToolCall call.id call.name) nestedCallAborted)) }
 | .gone => r

def proceed (pipeline : NestedPipeline) (r : NestedRunner) (c : Nat) (answer : NestedAnswer) :
 NestedRunner :=
 match r.calls[c]? with
 | none => r
 | some call =>
  match r.scopes[call.scope]? with
  | none => r
  | some scope => proceedFrom pipeline r c call scope answer

/-- Whether a call's task is on the runtime and has not ended. -/
def NestedPlace.task : NestedPlace → Bool
 | .entered | .numbered | .recorded | .torn _ | .leaving | .gone => false
 | _ => true

/-- Whether a call's tool runs, or its executor closes behind it: the guard that aborts the
tasks of its scope is there. -/
def NestedPlace.guarded : NestedPlace → Bool
 | .executing | .closing => true
 | _ => false

/-- A call's task ends early: by a panic, or because its scope's tasks were aborted. -/
def tear (r : NestedRunner) (c : Nat) (panic : Option String) : NestedRunner :=
 match r.calls[c]? with
 | none => r
 | some call =>
  match r.scopes[call.scope]? with
  | none => r
  | some scope =>
   if NestedPlace.task call.place && (panic.isSome || scope.aborted) then
    let r := if NestedPlace.guarded call.place then
     r.modifyScope (call.child.getD 0) fun scope => { scope with aborted := true }
     else r
    r.setCall c { call with place := .torn panic, torn := true }
   else r

/-! ## Steps of a model-issued call -/

/-- A model-issued call's tool has settled: its executor closes. -/
def settle (r : NestedRunner) (i : Nat) : NestedRunner :=
 match r.issued[i]? with
 | some issued =>
  if issued.stage = .executing then
   (r.modifyScope issued.scope fun scope =>
    { scope with closed := true, closing := true }).setIssued i
    { issued with stage := .closing }
  else r
 | none => r

def closeReturned (r : NestedRunner) (i : Nat) : NestedRunner :=
 match r.issued[i]? with
 | some issued =>
  match r.scopes[issued.scope]? with
  | some scope =>
   if issued.stage = .closing ∧ scope.running = 0 then
    (r.setScope issued.scope { scope with aborted := true }).setIssued i
     { issued with stage := .closed }
   else r
  | none => r
 | none => r

def takeSummary (r : NestedRunner) (i : Nat) : NestedRunner :=
 match r.issued[i]? with
 | some issued =>
  if issued.stage = .closed then
   r.setIssued i { issued with stage := .taken, recorder := .new }
  else r
 | none => r

/-- The loop is dropped while it executes: the guard aborts the tasks. -/
def drop (r : NestedRunner) (i : Nat) : NestedRunner :=
 match r.issued[i]? with
 | some issued =>
  if issued.stage = .executing ∨ issued.stage = .closing then
   (r.modifyScope issued.scope fun scope => { scope with aborted := true }).setIssued i
    { issued with stage := .dropped }
  else r
 | none => r

end NestedRunner

/-- What may happen to the calls of a batch. -/
inductive NestedInput where
 | issue (callerId : String)
 | start (scope : Nat) (name : String) (args : Value)
 | proceed (call : Nat) (answer : NestedAnswer)
 | tear (call : Nat) (panic : Option String)
 | settle (issued : Nat)
 | closeReturned (issued : Nat)
 | takeSummary (issued : Nat)
 | drop (issued : Nat)

namespace NestedRunner

def step (pipeline : NestedPipeline) (r : NestedRunner) : NestedInput → NestedRunner
 | .issue callerId => r.issue callerId
 | .start s name args => (r.start pipeline s name args).getD r
 | .proceed c answer => r.proceed pipeline c answer
 | .tear c panic => r.tear c panic
 | .settle i => r.settle i
 | .closeReturned i => r.closeReturned i
 | .takeSummary i => r.takeSummary i
 | .drop i => r.drop i

def Reachable (pipeline : NestedPipeline) : NestedRunner → Prop :=
 Run.Reach (· = empty) (step pipeline) fun _ _ => True

end NestedRunner

end Bake.Agent
