import Bake.Ai.Transcript
import Bake.RunControl.Control

/-!
# What an agent run is made of

`bake-agent`'s `types.rs`: the messages of a run, its tools, events, hooks and
configuration, as far as the loop reads them. Usage, durations, the records of nested
calls and thinking levels are left out.

Whatever a run awaits belongs to others: a hook, a tool, the model, a listener. A run is
modelled up to its next await, and the answer it gets there is its input, so that a hook
or a tool is a choice the run does not make. A prepared tool call, say, is executed by an
input and not by a function of this model.

A message carries where it came from. That is the model's own mark: no function reads it.
-/

namespace Bake.Agent

open Bake.Json Bake.Ai Bake.RunControl

/-! ## Messages -/

/-- `AgentMessage`: a message of the model's transcript, or an application's, as the JSON
a session stores. -/
inductive AgentMessage where
 | llm (message : Message)
 | custom (object : JsonObject)

namespace AgentMessage

/-- `as_system`. -/
def system? : AgentMessage → Option SystemMessage
 | .llm (.system message) => some message
 | _ => none

/-- `as_assistant`. -/
def assistant? : AgentMessage → Option AssistantMessage
 | .llm (.assistant message) => some message
 | _ => none

/-- `as_tool_result`. -/
def toolResult? : AgentMessage → Option ToolResultMessage
 | .llm (.toolResult message) => some message
 | _ => none

end AgentMessage

/-- The two queues of an agent. -/
inductive Lane where
 | steering
 | followUp
deriving DecidableEq, Repr

/-- Who hands a run a message: its caller or a hook, or a queue, as part of the unit queued
there after so many others. -/
inductive Supply where
 | caller
 | queue (lane : Lane) (unit : Nat)
deriving DecidableEq, Repr

/-- Where a message came from; the run makes the rest itself. -/
inductive Source where
 | supplied (supply : Supply)
 | run
deriving DecidableEq, Repr

structure Entry where
 message : AgentMessage
 source : Source

structure Supplied where
 message : AgentMessage
 supply : Supply

def Supplied.entry (supplied : Supplied) : Entry :=
 { message := supplied.message, source := .supplied supplied.supply }

def AgentMessage.fromCaller (message : AgentMessage) : Entry :=
 { message, source := .supplied .caller }

def Entry.ofRun (message : Message) : Entry := { message := .llm message, source := .run }

/-! ## Tools -/

inductive ToolExecutionMode where
 | sequential
 | parallel
deriving DecidableEq, Repr

/-- `AgentTool`: what of a tool the loop decides by. -/
structure AgentTool where
 name : String
 description : String
 parameters : Value
 constrainedSampling : Option ConstrainedSampling
 /-- The tool has a `prepare_arguments`. -/
 prepareArguments : Bool
 executionMode : Option ToolExecutionMode
 readOnly : Bool

def AgentTool.declaration (tool : AgentTool) : Tool :=
 { name := tool.name
   description := tool.description
   parameters := tool.parameters
   constrainedSampling := tool.constrainedSampling }

structure AgentContext where
 messages : List AgentMessage
 tools : List AgentTool

structure AgentToolResult where
 content : List UserContentBlock
 details : Option Value
 structuredContent : Option Value
 isError : Bool
 terminate : Bool

/-- `AgentToolResult::text`. -/
def AgentToolResult.ofText (text : String) : AgentToolResult :=
 { content := [.text (.new text)]
   details := none
   structuredContent := none
   isError := false
   terminate := false }

def createErrorToolResult (message : String) : AgentToolResult :=
 { AgentToolResult.ofText message with details := some (.object []) }

structure AgentToolCallOutcome where
 toolCall : ToolCall
 result : AgentToolResult
 isError : Bool

/-! ## Events -/

inductive ToolExecutionEvent where
 | started (toolCallId toolName : String) (args : Value) (parentToolCallId : Option String)
 | updated (toolCallId toolName : String) (args : Value) (partialResult : AgentToolResult)
  (parentToolCallId : Option String)
 | ended (toolCallId toolName : String) (result : AgentToolResult) (isError : Bool)
  (parentToolCallId : Option String)

inductive AgentEvent where
 | agentStart
 | agentEnd (messages : List Entry)
 | turnStart
 | turnEnd (message : AssistantMessage) (toolResults : List ToolResultMessage)
 | messageStart (message : Entry)
 | messageUpdate (message : AssistantMessage)
 | messageEnd (message : Entry)
 | tool (event : ToolExecutionEvent)

/-- What a run does to others: an event, or a tool executed for a call of a response. -/
inductive Effect where
 | event (event : AgentEvent)
 | execute (response : AssistantMessage) (call : ToolCall) (args : Value)

/-! ## Hooks -/

structure BeforeToolCallResult where
 block : Bool
 reason : Option String
 terminate : Bool

structure AfterToolCallResult where
 content : Option (List UserContentBlock)
 details : Option Value
 structuredContent : Option Value
 isError : Option Bool
 terminate : Option Bool

inductive AgentTurnDecision where
 | continue_
 | end_
deriving DecidableEq, Repr

structure AgentLoopTurnUpdate where
 context : Option AgentContext
 messages : List AgentMessage
 model : Option Model

structure AgentRequestUpdate where
 context : Option AgentContext
 model : Option Model

abbrev NonZero := { n : Nat // 0 < n }

/-- `AgentLoopConfig`, each hook by whether there is one; a stream function and a run
control are arguments of the loop. `shown` is the JSON of a tool declaration. -/
structure AgentLoopConfig where
 model : Model
 toolExecution : ToolExecutionMode
 maxConcurrentReadTools : Option NonZero
 beforeToolCall : Bool
 afterToolCall : Bool
 finishTurn : Bool
 prepareRequest : Bool
 prepareNextTurn : Bool
 getSteeringMessages : Bool
 getFollowUpMessages : Bool
 streamFn : Bool
 controlled : Bool
 validateToolArguments : Value → String → Value → Except String Value
 shown : Tool → String

/-! ## Answers -/

/-- What a run sees of its surroundings while it runs up to its next await: whether its
signal has aborted, the cause its control has stopped for, and the clock. -/
structure Surroundings where
 aborted : Bool
 stopped : Option RunOutcome
 now : Int

/-- What an await brings. -/
inductive Answer where
 /-- Nothing: a listener is done with an event, or there was nothing to wait for. -/
 | settled
 /-- What was awaited is not there, and the task is polled again later. -/
 | pending
 /-- A tool's `prepare_arguments` returned or panicked. -/
 | prepared (args : Except String Value)
 /-- `before_tool_call` returned, with the arguments as it leaves them, or panicked. -/
 | before (args : Value) (result : Except String (Option BeforeToolCallResult))
 | update (partialResult : AgentToolResult)
 /-- A call nested in a tool's emitted an event. -/
 | nested (event : ToolExecutionEvent)
 /-- A tool returned or panicked. -/
 | executed (result : Except String AgentToolResult)
 /-- `after_tool_call` returned or panicked. -/
 | after (result : Except String (Option AfterToolCallResult))
 /-- A source of queued messages was drained. -/
 | polled (messages : List Supplied)
 | nextTurn (update : Option AgentLoopTurnUpdate)
 | request (update : Option AgentRequestUpdate)
 /-- The run's control refused the model call. -/
 | refused (outcome : RunOutcome)
 /-- The stream function failed. -/
 | streamError (message : String)
 | streamStarted (partialMessage : AssistantMessage)
 | streamUpdated (partialMessage : AssistantMessage)
 | streamEnded (result : Option AssistantMessage)
 | decided (decision : Option AgentTurnDecision)
 /-- A hook or a listener the run depends on panicked. -/
 | panicked (message : String)

end Bake.Agent
