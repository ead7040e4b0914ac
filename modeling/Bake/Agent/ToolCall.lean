import Bake.Agent.ToolChanges

/-!
# One tool call

`prepare_tool_call`, `execute_prepared_tool_call` and `finalize_executed_tool_call`: a call
finds its tool, has its arguments prepared and validated, passes the hook before it, runs,
and passes the hook behind it. Each stands at an await and goes on with an answer; a panic
of a tool or of one of its hooks is an error with the panic's message.
-/

namespace Bake.Agent

open Bake.Json Bake.Ai

/-! ## Preparing -/

inductive Preparation where
 | prepared (tool : AgentTool) (args : Value)
 | immediate (result : AgentToolResult) (isError : Bool)

def immediateError (message : String) : Preparation :=
 .immediate (createErrorToolResult message) true

def findTool (tools : List AgentTool) (name : String) : Option AgentTool :=
 tools.find? (·.name = name)

/-- Where a preparation stands: it has not begun, or awaits `before_tool_call`. -/
inductive PreparePlace where
 | begin
 | before (tool : AgentTool)

/-- The last look at the signal before a call counts as prepared. -/
def preparedUnlessAborted (env : Surroundings) (tool : AgentTool) (args : Value) : Preparation :=
 if env.aborted then immediateError "Operation aborted" else .prepared tool args

/-- The result of a call `before_tool_call` blocks. -/
def blockedResult (before : BeforeToolCallResult) : AgentToolResult :=
 { createErrorToolResult
    ((before.reason.filter (· ≠ "")).getD "Tool execution was blocked") with
   terminate := before.terminate }

/-- `prepare_tool_call`, up to the hook and behind it. -/
def prepareToolCall (config : AgentLoopConfig) (tools : List AgentTool) (env : Surroundings)
 (call : ToolCall) : PreparePlace → Answer → Option (PreparePlace ⊕ Preparation)
 | .begin, .prepared prepared =>
  match findTool tools call.name with
  | none => some (.inr (immediateError ("Tool " ++ call.name ++ " not found")))
  | some tool =>
   match if tool.prepareArguments then prepared else .ok (.object call.arguments) with
   | .error error => some (.inr (immediateError error))
   | .ok prepared =>
    match config.validateToolArguments tool.parameters call.name prepared with
    | .error error => some (.inr (immediateError error))
    | .ok args =>
     if config.beforeToolCall then some (.inl (.before tool))
     else some (.inr (preparedUnlessAborted env tool args))
 | .before tool, .before args result =>
  match result with
  | .error error => some (.inr (immediateError error))
  | .ok before =>
   if env.aborted then some (.inr (immediateError "Operation aborted"))
   else
    match before.filter (·.block) with
    | some before => some (.inr (.immediate (blockedResult before) true))
    | none => some (.inr (preparedUnlessAborted env tool args))
 | _, _ => none

/-! ## Running -/

structure ExecutedToolCallOutcome where
 result : AgentToolResult
 isError : Bool

/-- What `execute_prepared_tool_call` makes of what the tool returned. -/
def executedOutcome : Except String AgentToolResult → ExecutedToolCallOutcome
 | .ok result => { result, isError := result.isError }
 | .error error => { result := createErrorToolResult error, isError := true }

/-- The overrides of `after_tool_call`. Structured content that is not replaced along with
the content may no longer match it. -/
def AgentToolResult.override (result : AgentToolResult) (after : AfterToolCallResult) :
 AgentToolResult :=
 { content := after.content.getD result.content
   details := after.details.orElse fun _ => result.details
   structuredContent :=
    match after.structuredContent with
    | some structured => some structured
    | none => if after.content.isSome then none else result.structuredContent
   isError := result.isError
   terminate := after.terminate.getD result.terminate }

/-- `finalize_executed_tool_call`, behind its hook when there is one. -/
def finalizeExecutedToolCall (call : ToolCall) (executed : ExecutedToolCallOutcome) :
 Option (Except String (Option AfterToolCallResult)) → AgentToolCallOutcome
 | some (.ok (some after)) =>
  { toolCall := call
    result := executed.result.override after
    isError := after.isError.getD executed.isError }
 | some (.error error) =>
  { toolCall := call, result := createErrorToolResult error, isError := true }
 | some (.ok none) | none =>
  { toolCall := call, result := executed.result, isError := executed.isError }

/-- `emit_tool_execution_start`. -/
def toolExecutionStart (call : ToolCall) : AgentEvent :=
 .tool (.started call.id call.name (.object call.arguments) none)

/-- `emit_tool_execution_end`. -/
def toolExecutionEnd (outcome : AgentToolCallOutcome) : AgentEvent :=
 .tool (.ended outcome.toolCall.id outcome.toolCall.name outcome.result outcome.isError none)

/-- Where the future of one call stands. A call of a parallel batch is deferred until the
batch is prepared; a tool that has settled still lets out the updates it sent and waits
for its nested calls. -/
inductive RunPlace where
 | deferred (args : Value)
 | execute (args : Value)
 | executing
 | settled (result : Except String AgentToolResult)
 | after (executed : ExecutedToolCallOutcome)
 | finished (outcome : AgentToolCallOutcome)

/-- The future of a call: the call's events it is about to emit, and where it goes on. -/
structure CallRun where
 call : ToolCall
 emits : List ToolExecutionEvent
 place : RunPlace

/-- The value of a future that is ready. -/
def CallRun.ready (run : CallRun) : Option AgentToolCallOutcome :=
 match run.emits, run.place with
 | [], .finished outcome => some outcome
 | _, _ => none

/-- The call is over: its end is emitted, and its future is ready. -/
def CallRun.finish (run : CallRun) (outcome : AgentToolCallOutcome) : CallRun :=
 { run with
   emits := [.ended outcome.toolCall.id outcome.toolCall.name outcome.result outcome.isError none]
   place := .finished outcome }

def CallRun.ofReady (outcome : AgentToolCallOutcome) : CallRun :=
 { call := outcome.toolCall, emits := [], place := .finished outcome }

def CallRun.updated (run : CallRun) (partialResult : AgentToolResult) : CallRun :=
 { run with
   emits := [.updated run.call.id run.call.name (.object run.call.arguments) partialResult none] }

/-- One section of a call's future: `Batch::run_prepared` and the events around it. -/
def CallRun.next (config : AgentLoopConfig) (env : Surroundings) (response : AssistantMessage)
 (run : CallRun) (answer : Answer) : Option (List Effect × CallRun) :=
 match run.emits, run.place, answer with
 | event :: rest, _, .settled => some ([.event (.tool event)], { run with emits := rest })
 | [], .deferred args, .settled =>
  if env.aborted then
   some ([], run.finish
    { toolCall := run.call
      result := createErrorToolResult "Operation aborted"
      isError := true })
  else some ([], { run with place := .execute args })
 | [], .execute args, .settled =>
  some ([.execute response run.call args], { run with place := .executing })
 | [], .executing, .update partialResult => some ([], run.updated partialResult)
 | [], .executing, .nested event => some ([], { run with emits := [event] })
 | [], .executing, .executed result => some ([], { run with place := .settled result })
 | [], .settled _, .update partialResult => some ([], run.updated partialResult)
 | [], .settled _, .nested event => some ([], { run with emits := [event] })
 | [], .settled result, .settled =>
  let executed := executedOutcome result
  if config.afterToolCall then some ([], { run with place := .after executed })
  else some ([], run.finish (finalizeExecutedToolCall run.call executed none))
 | [], .after executed, .after result =>
  some ([], run.finish (finalizeExecutedToolCall run.call executed (some result)))
 | _, _, _ => none

def createToolResultMessage (now : Int) (outcome : AgentToolCallOutcome) : ToolResultMessage :=
 { toolCallId := outcome.toolCall.id
   toolName := outcome.toolCall.name
   content := outcome.result.content
   details := outcome.result.details
   isError := outcome.isError
   timestamp := now }

/-- `emit_tool_result_message`. -/
def toolResultEvents (result : ToolResultMessage) : List AgentEvent :=
 [.messageStart (.ofRun (.toolResult result)), .messageEnd (.ofRun (.toolResult result))]

def shouldTerminateToolBatch (finalized : List AgentToolCallOutcome) : Bool :=
 !finalized.isEmpty && finalized.all fun outcome => outcome.result.terminate

/-! ## What a section does -/

def CallRun.Sound (run : CallRun) : Prop :=
 ∀ outcome, run.place = .finished outcome → outcome.toolCall = run.call

variable {run : CallRun}

variable {outcome : AgentToolCallOutcome}

theorem CallRun.Sound.ready (h : run.Sound)
 (hr : run.ready = some outcome) : outcome.toolCall = run.call := by
 unfold CallRun.ready at hr
 split at hr
 next hplace =>
  exact h outcome (Option.some.inj hr ▸ hplace)
 · simp at hr

@[simp] theorem finalizeExecutedToolCall_call (call : ToolCall) (executed : ExecutedToolCallOutcome)
 (after : Option (Except String (Option AfterToolCallResult))) :
 (finalizeExecutedToolCall call executed after).toolCall = call := by
 unfold finalizeExecutedToolCall
 split <;> rfl

theorem CallRun.Sound.finish (h : outcome.toolCall = run.call) : (run.finish outcome).Sound :=
 fun _ he => RunPlace.finished.inj he ▸ h

theorem CallRun.Sound.unfinished (h : ∀ outcome, run.place ≠ .finished outcome) : run.Sound :=
 fun outcome he => absurd he (h outcome)

/-- The effects of a batch and of its calls: events of tool calls, and executions for one
response. -/
def OfCalls (response : AssistantMessage) (effects : List Effect) : Prop := ∀ effect ∈ effects,
  (∃ event, effect = .event (.tool event)) ∨ ∃ call args, effect = .execute response call args

theorem OfCalls.nil (response : AssistantMessage) : OfCalls response [] := fun _ h =>
 absurd h (by simp)

/-- **A section of a call's future** keeps the future about its call, and has no effects but
tool events and one execution. -/
theorem CallRun.next_spec {config : AgentLoopConfig} {env : Surroundings}
 {response : AssistantMessage} {run' : CallRun} {answer : Answer} {effects : List Effect}
 (hs : run.Sound) (h : run.next config env response answer = some (effects, run')) :
 run'.call = run.call ∧ run'.Sound ∧ OfCalls response effects := by
 unfold CallRun.next at h
 split at h
 · -- an event of the call is emitted
   cases h
   refine ⟨rfl, hs, fun effect he => .inl ⟨_, List.mem_singleton.mp he⟩⟩
 · split at h <;> simp only [Option.some.injEq, Prod.mk.injEq] at h <;> obtain ⟨rfl, rfl⟩ := h
   · exact ⟨rfl, .finish rfl, .nil _⟩
   · exact ⟨rfl, .unfinished (by simp), .nil _⟩
 · cases h
   exact ⟨rfl, .unfinished (by simp),
    fun effect he => .inr ⟨_, _, List.mem_singleton.mp he⟩⟩
 next hplace =>
  cases h
  exact ⟨rfl, hs, .nil _⟩
 · cases h
   exact ⟨rfl, hs, .nil _⟩
 · cases h
   exact ⟨rfl, .unfinished (by simp), .nil _⟩
 · cases h
   exact ⟨rfl, hs, .nil _⟩
 · cases h
   exact ⟨rfl, hs, .nil _⟩
 · split at h <;> simp only [Option.some.injEq, Prod.mk.injEq] at h <;> obtain ⟨rfl, rfl⟩ := h
   · exact ⟨rfl, .unfinished (by simp), .nil _⟩
   · exact ⟨rfl, .finish (finalizeExecutedToolCall_call _ _ _), .nil _⟩
 · cases h
   exact ⟨rfl, .finish (finalizeExecutedToolCall_call _ _ _), .nil _⟩
 · simp at h

end Bake.Agent
