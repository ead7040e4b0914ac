import Bake.Ai.Stream

/-!
# Assembling a Chat Completions stream

`CompletionsStreamProcessor`: the chunks of one response of the OpenAI Chat Completions
protocol. Text and reasoning have one block each, made when the first of it comes; the
deltas of a tool call are found by the call's index or its id.

Token usage is left out: no chunk is refused or read differently because of it.
-/

namespace Bake.Ai

open Bake.Json
open OrdMap (get?)

structure ToolScratch where
 partialArgs : StreamingJsonObject
 /-- The index the call is found by, the first that a delta of it has. -/
 streamIndex : Option Int
 scan : ArgumentScan

structure CompletionsStreamProcessor where
 model : Model
 /-- The message being built. -/
 output : AssistantMessage
 textBlock : Option Nat
 thinkingBlock : Option Nat
 hasFinishReason : Bool
 toolsByIndex : List (Int × Nat)
 toolsById : List (String × Nat)
 scratch : List (Nat × ToolScratch)
 maxToolArgumentWhitespace : Nat
 reasoningDetails : Option (List Value)
 /-- What was emitted. -/
 events : List AssistantMessageEvent

namespace Completions

def mapStopReason (reason : String) : StopReason × Option String :=
 match reason with
 | "stop" | "end" => (.stop, none)
 | "length" => (.length, none)
 | "function_call" | "tool_calls" => (.toolUse, none)
 | other => (.error, some ("Provider finish_reason: " ++ other))

def isString : Option Value → Bool
 | some (.string _) => true
 | _ => false

def isReasoningDetail (detail : Value) : Bool :=
 match detail with
 | .object object =>
  let idOk := match get? object "id" with
   | none | some .null | some (.string _) => true
   | _ => false
  let formatOk := match get? object "format" with
   | none | some (.string _) => true
   | _ => false
  let indexOk := match get? object "index" with
   | none | some (.number _) => true
   | _ => false
  idOk && formatOk && indexOk &&
   match getStr (some detail) "type" with
   | some "reasoning.summary" => isString (get? object "summary")
   | some "reasoning.encrypted" => isString (get? object "data")
   | some "reasoning.text" =>
    isString (get? object "text")
     && match get? object "signature" with
      | none | some .null | some (.string _) => true
      | _ => false
   | _ => false
 | _ => false

/-- A member that is missing, or that `absent` holds of, is taken from `source`. -/
def fillMember (absent : Option Value → Bool) (key : String) (source target : JsonObject) :
 JsonObject :=
 match absent (get? target key), get? source key with
 | true, some value => OrdMap.insert target key value
 | _, _ => target

def isNullish : Option Value → Bool
 | none | some .null => true
 | _ => false

def fillMissingCommonFields (target source : JsonObject) : JsonObject :=
 let target := fillMember isNullish "id" source target
 let target := fillMember (fun value => !jsTruthy value) "format" source target
 fillMember isNullish "index" source target

def mergeField (kind lastKind : Option String) : Option String :=
 match kind, lastKind with
 | some "reasoning.text", some "reasoning.text" => some "text"
 | some "reasoning.summary", some "reasoning.summary" => some "summary"
 | _, _ => none

/-- `append_reasoning_detail`: text and summaries go on in the last detail. -/
def appendReasoningDetail (details : List Value) (detail : Value) : List Value :=
 match details.getLast?, detail with
 | some (.object last), .object source =>
  match mergeField (typeOf (some detail)) (typeOf (some (.object last))) with
  | some field =>
   let merged := textOf (some (.object last)) field ++ textOf (some detail) field
   let last := OrdMap.insert last field (.string merged)
   let last :=
    if field = "text" then fillMember (fun value => !jsTruthy value) "signature" source last
    else last
   details.dropLast ++ [.object (fillMissingCommonFields last source)]
  | none => details ++ [detail]
 | _, _ => details ++ [detail]

def callIndex (delta : Value) : Option Int := (get (some delta) "index").bind asI64

def callId (delta : Value) : Option String := nonEmptyStr (some delta) "id"

def callName (delta : Value) : String :=
 (((get (get (some delta) "function") "name").orElse fun _ =>
  get (get (some delta) "custom") "name").bind Value.asStr).getD ""

def callArguments (delta : Value) : Option String :=
 nonEmptyStr (get (some delta) "function") "arguments"

def reasoningText (delta : Option Value) : Option (String × String) :=
 ["reasoning_content", "reasoning", "reasoning_text"].findSome? fun field =>
  (nonEmptyStr delta field).map fun text => (field, text)

def choiceOf (chunk : Value) : Option Value :=
 ((get (some chunk) "choices").bind asArray).bind List.head?

end Completions

namespace CompletionsStreamProcessor

open Completions

/-- A processor for `model` filling `output`. -/
def new (model : Model) (output : AssistantMessage) : CompletionsStreamProcessor :=
 { model
   output
   textBlock := none
   thinkingBlock := none
   hasFinishReason := false
   toolsByIndex := []
   toolsById := []
   scratch := []
   maxToolArgumentWhitespace := defaultMaxToolArgumentWhitespace
   reasoningDetails := none
   events := [] }

def withMaxToolArgumentWhitespace (p : CompletionsStreamProcessor) (max : Nat) :
 CompletionsStreamProcessor := { p with maxToolArgumentWhitespace := max }

def emit (p : CompletionsStreamProcessor) (make : AssistantMessage → AssistantMessageEvent) :
 CompletionsStreamProcessor := { p with events := p.events ++ [make p.output] }

/-- Change the block at `index`. -/
def modifyBlock (p : CompletionsStreamProcessor) (index : Nat)
 (f : AssistantContentBlock → AssistantContentBlock) : CompletionsStreamProcessor :=
 { p with output := { p.output with content := p.output.content.modify index f } }

def pushBlock (p : CompletionsStreamProcessor) (block : AssistantContentBlock) :
 CompletionsStreamProcessor :=
 { p with output := { p.output with content := p.output.content ++ [block] } }

/-- `ensure_text`: the text block and its place. -/
def ensureText (p : CompletionsStreamProcessor) : CompletionsStreamProcessor × Nat :=
 match p.textBlock with
 | some index => (p, index)
 | none =>
  let index := p.output.content.length
  let p := p.pushBlock (.text (.new ""))
  (({ p with textBlock := some index } : CompletionsStreamProcessor).emit (.textStart index), index)

/-- `ensure_thinking`: the reasoning block and its place. -/
def ensureThinking (p : CompletionsStreamProcessor) (signature : String) :
 CompletionsStreamProcessor × Nat :=
 match p.thinkingBlock with
 | some index => (p, index)
 | none =>
  let index := p.output.content.length
  let p := p.pushBlock
   (.thinking { thinking := "", thinkingSignature := some signature, redacted := none })
  (({ p with thinkingBlock := some index } : CompletionsStreamProcessor).emit
   (.thinkingStart index), index)

def findCall (p : CompletionsStreamProcessor) (delta : Value) : Option Nat :=
 ((callIndex delta).bind (get? p.toolsByIndex)).orElse fun _ =>
  (callId delta).bind (get? p.toolsById)

def beginCall (p : CompletionsStreamProcessor) (delta : Value) : CompletionsStreamProcessor :=
 let index := p.output.content.length
 let p := p.pushBlock (.toolCall
  { id := (callId delta).getD ""
    name := callName delta
    arguments := []
    thoughtSignature := none
    namespace_ := none })
 let p : CompletionsStreamProcessor := { p with
  scratch := OrdMap.insert p.scratch index
   { partialArgs := .empty, streamIndex := callIndex delta, scan := .empty } }
 let p : CompletionsStreamProcessor := match callIndex delta with
  | some streamIndex => { p with toolsByIndex := OrdMap.insert p.toolsByIndex streamIndex index }
  | none => p
 p.emit (.toolCallStart index)

/-- The index of a later delta is the call's when it had none. -/
def registerIndex (p : CompletionsStreamProcessor) (index : Nat) (delta : Value) :
 CompletionsStreamProcessor :=
 match callIndex delta, get? p.scratch index with
 | some streamIndex, some scratch =>
  if scratch.streamIndex = none then
   { p with
     scratch := OrdMap.insert p.scratch index { scratch with streamIndex := some streamIndex }
     toolsByIndex := OrdMap.insert p.toolsByIndex streamIndex index }
  else p
 | _, _ => p

def registerId (p : CompletionsStreamProcessor) (index : Nat) (delta : Value) :
 CompletionsStreamProcessor :=
 match callId delta with
 | some id => { p with toolsById := OrdMap.insert p.toolsById id index }
 | none => p

def nameCall (p : CompletionsStreamProcessor) (index : Nat) (delta : Value) :
 CompletionsStreamProcessor :=
 p.modifyBlock index fun
  | .toolCall call => .toolCall { call with
   id := if call.id = "" then (callId delta).getD call.id else call.id
   name := if call.name = "" then callName delta else call.name }
  | block => block

/-- `ensure_tool_call`: the block of the call a delta belongs to. -/
def ensureToolCall (p : CompletionsStreamProcessor) (delta : Value) :
 CompletionsStreamProcessor × Nat :=
 let (p, index) := match p.findCall delta with
  | some index => (p, index)
  | none => (p.beginCall delta, p.output.content.length)
 let p := p.registerIndex index delta
 let p := p.registerId index delta
 (p.nameCall index delta, index)

def toolName (p : CompletionsStreamProcessor) (index : Nat) : String :=
 match p.output.content[index]? with
 | some (.toolCall call) => call.name
 | _ => ""

variable (codec : Codec)

def pushArguments (p : CompletionsStreamProcessor) (index : Nat) (arguments : String) :
 Except String CompletionsStreamProcessor :=
 match get? p.scratch index with
 | none => .ok p
 | some scratch => do
  let scan ← scratch.scan.checkDelta arguments p.maxToolArgumentWhitespace p.model.id
   (p.toolName index)
  let partialArgs := scratch.partialArgs.push arguments
  let p : CompletionsStreamProcessor :=
   { p with scratch := OrdMap.insert p.scratch index { scratch with scan, partialArgs } }
  .ok (p.modifyBlock index fun
   | .toolCall call => .toolCall { call with arguments := partialArgs.object codec }
   | block => block)

def toolCallDelta (p : CompletionsStreamProcessor) (delta : Value) :
 Except String CompletionsStreamProcessor := do
 let (p, index) := p.ensureToolCall delta
 match callArguments delta with
 | some arguments =>
  let p ← p.pushArguments codec index arguments
  .ok (p.emit (.toolCallDelta index arguments))
 | none => .ok (p.emit (.toolCallDelta index ""))

def textDelta (p : CompletionsStreamProcessor) (text : String) : CompletionsStreamProcessor :=
 let (p, index) := p.ensureText
 (p.modifyBlock index fun
  | .text block => .text { block with text := block.text ++ text }
  | block => block).emit (.textDelta index text)

/-- Reasoning text that came in a member. -/
def thinkingDelta (p : CompletionsStreamProcessor) (field text : String) :
 CompletionsStreamProcessor :=
 let signature :=
  if p.model.provider = "opencode-go" ∧ field = "reasoning" then "reasoning_content" else field
 let (p, index) := p.ensureThinking signature
 (p.modifyBlock index fun
  | .thinking block => .thinking { block with thinking := block.thinking ++ text }
  | block => block).emit (.thinkingDelta index text)

def reasoningDetail (p : CompletionsStreamProcessor) (detail : Value) :
 CompletionsStreamProcessor :=
 let p := (p.ensureThinking "").1
 let details := appendReasoningDetail (p.reasoningDetails.getD []) detail
 { p with reasoningDetails := some details }

def envelope (p : CompletionsStreamProcessor) (chunk : Value) : CompletionsStreamProcessor :=
 let p : CompletionsStreamProcessor :=
  match nonEmptyStr (some chunk) "id" with
  | some id =>
   if p.output.responseId.getD "" = "" then
    { p with output := { p.output with responseId := some id } }
   else p
  | none => p
 match nonEmptyStr (some chunk) "model" with
 | some model =>
  if model ≠ p.model.id ∧ p.output.responseModel.getD "" = "" then
   { p with output := { p.output with responseModel := some model } }
  else p
 | none => p

def finishReason (p : CompletionsStreamProcessor) (choice : Value) : CompletionsStreamProcessor :=
 match nonEmptyStr (some choice) "finish_reason" with
 | some reason =>
  let (stopReason, error) := mapStopReason reason
  { p with
    hasFinishReason := true
    output := { p.output with
     rawStopReason := some reason
     stopReason
     errorMessage := if error.isSome then error else p.output.errorMessage } }
 | none => p

def choiceDelta (p : CompletionsStreamProcessor) (delta : Value) :
 Except String CompletionsStreamProcessor := do
 let p := match nonEmptyStr (some delta) "content" with
  | some text => p.textDelta text
  | none => p
 let p := match reasoningText (some delta) with
  | some (field, text) => p.thinkingDelta field text
  | none => p
 let p ← (((get (some delta) "tool_calls").bind asArray).getD []).foldlM (toolCallDelta codec) p
 let details := ((get (some delta) "reasoning_details").bind asArray).getD []
 .ok ((details.filter isReasoningDetail).foldl reasoningDetail p)

/-- `CompletionsStreamProcessor::handle_chunk`: apply one parsed chunk. -/
def handleChunk (p : CompletionsStreamProcessor) (chunk : Value) :
 Except String CompletionsStreamProcessor :=
 match chunk with
 | .object _ =>
  let p := p.envelope chunk
  match choiceOf chunk with
  | none => .ok p
  | some choice =>
   let p := p.finishReason choice
   match (get (some choice) "delta").filter fun delta => jsTruthy (some delta) with
   | none => .ok p
   | some delta => p.choiceDelta codec delta
 | _ => .ok p

/-- Apply a response's chunks; the first one refused ends it. -/
def handleChunks (p : CompletionsStreamProcessor) (chunks : List Value) :
 Except String CompletionsStreamProcessor := chunks.foldlM (handleChunk codec) p

def applyReasoningDetails (p : CompletionsStreamProcessor) (index : Nat) :
 CompletionsStreamProcessor :=
 match p.reasoningDetails with
 | some details => p.modifyBlock index fun
  | .thinking block =>
   .thinking { block with thinkingSignature := some (codec.toText (.array details)) }
  | block => block
 | none => p

/-- Emit the end of the block at `index`. -/
def finishBlock (p : CompletionsStreamProcessor) (index : Nat) : CompletionsStreamProcessor :=
 match p.output.content[index]? with
 | some (.text text) => p.emit (.textEnd index text.text)
 | some (.thinking _) =>
  let p := p.applyReasoningDetails codec index
  let content := match p.output.content[index]? with
   | some (.thinking thinking) => thinking.thinking
   | _ => ""
  p.emit (.thinkingEnd index content)
 | some (.toolCall call) =>
  let text := ((get? p.scratch index).map (·.partialArgs.text)).getD ""
  let p : CompletionsStreamProcessor := { p with scratch := OrdMap.erase p.scratch index }
  let call := { call with arguments := codec.parse text }
  (p.modifyBlock index fun _ => .toolCall call).emit (.toolCallEnd index call)
 | none => p

/-- `finish_blocks`: the end events of every block, in content order. -/
def finishBlocks (p : CompletionsStreamProcessor) : CompletionsStreamProcessor :=
 (List.range p.output.content.length).foldl (finishBlock codec) p

end CompletionsStreamProcessor

end Bake.Ai
