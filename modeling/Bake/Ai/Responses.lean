import Bake.Ai.Stream

/-!
# Assembling a Responses stream

`ResponsesStreamProcessor`: the events of one response of the OpenAI Responses protocol.
An item has a slot, found by its output index, from the event that adds it to the event
that ends it; an event without an index has its own slot.

Token usage and its pricing are left out: no event is refused or read differently because
of them.
-/

namespace Bake.Ai

open Bake.Json OrdMap
open OrdMap (get?)

/-- `SlotKind`: the kind of block an item fills. -/
abbrev SlotKind := BlockKind

structure ResponsesStreamProcessor where
 model : Model
 /-- The message being built. -/
 output : AssistantMessage
 sawTerminal : Bool
 /-- The open items by output index. -/
 slots : List (Option Int × (SlotKind × Nat))
 /-- The argument text of the calls that are not finished. -/
 partialJson : List (Nat × StreamingJsonObject)
 scans : List (Nat × ArgumentScan)
 maxToolArgumentWhitespace : Nat
 reasoningById : List (String × Nat)
 /-- What was emitted. -/
 events : List AssistantMessageEvent

namespace Responses

/-- `template`: the text a JavaScript template literal makes of a member. -/
def template (codec : Codec) : Option Value → String
 | none => "undefined"
 | some (.string text) => text
 | some other => codec.toText other

/-- `texts`: the texts of a list of parts. -/
def texts (items : Option Value) (separator : String) : String :=
 match items.bind asArray with
 | some items => String.intercalate separator (items.map fun item => textOf item "text")
 | none => ""

def encodeTextSignatureV1 (codec : Codec) (id : String) (phase : Option String) : String :=
 let payload : JsonObject := [("v", .number (.posInt 1)), ("id", .string id)]
 match phase.filter (· ≠ "") with
 | some phase => codec.toText (.object (payload ++ [("phase", .string phase)]))
 | none => codec.toText (.object payload)

def mapStopReason (status incompleteReason : Option String) :
 Except String (StopReason × Option String) :=
 match status with
 | none | some "" | some "completed" => .ok (.stop, none)
 | some "incomplete" => match incompleteReason with
  | some "max_output_tokens" => .ok (.length, none)
  | some reason => .ok (.error, some ("Response incomplete: " ++ reason))
  | none => .ok (.error, some "Response incomplete without a provider reason")
 | some "failed" | some "cancelled" => .ok (.error, none)
 | some "in_progress" | some "queued" => .ok (.stop, none)
 | some other => .error ("Unhandled stop reason: " ++ other)

/-- `str::strip_prefix`. -/
def stripStart (text start : String) : Option String :=
 if start.toList <+: text.toList then some (String.ofList (text.toList.drop start.toList.length))
 else none

def itemKind (item : Option Value) : Option SlotKind :=
 match typeOf item with
 | some "reasoning" => some .thinking
 | some "message" => some .text
 | some "function_call" => some .toolCall
 | _ => none

def startBlock (codec : Codec) (item : Option Value) : SlotKind → AssistantContentBlock
 | .thinking => .thinking { thinking := "", thinkingSignature := none, redacted := none }
 | .text => .text (.new "")
 | .toolCall => .toolCall
  { id := template codec (get item "call_id") ++ "|" ++ template codec (get item "id")
    name := textOf item "name"
    arguments := []
    thoughtSignature := none
    namespace_ := getStr item "namespace" }

def isFinalAnswer (item : Option Value) : Bool :=
 typeOf item = some "message" && getStr item "phase" = some "final_answer"

def messageText (item : Option Value) : String :=
 match (get item "content").bind asArray with
 | some parts => String.join (parts.map fun part =>
  textOf part (if typeOf part = some "output_text" then "text" else "refusal"))
 | none => ""

def failure (codec : Codec) (response : Option Value) : String :=
 match (get response "error").filter fun error => jsTruthy (some error) with
 | some error =>
  let code := match (get error "code").filter fun code => jsTruthy (some code) with
   | some code => template codec (some code)
   | none => "unknown"
  let message := match (get error "message").filter fun message => jsTruthy (some message) with
   | some message => template codec (some message)
   | none => "no message"
  code ++ ": " ++ message
 | none =>
  match (get (get response "incomplete_details") "reason").filter
   fun reason => jsTruthy (some reason) with
  | some reason => "incomplete: " ++ template codec (some reason)
  | none => "Unknown error (no error details in response)"

end Responses

namespace ResponsesStreamProcessor

open Responses

/-- A processor for `model` filling `output`. -/
def new (model : Model) (output : AssistantMessage) : ResponsesStreamProcessor :=
 { model
   output
   sawTerminal := false
   slots := []
   partialJson := []
   scans := []
   maxToolArgumentWhitespace := defaultMaxToolArgumentWhitespace
   reasoningById := []
   events := [] }

def withMaxToolArgumentWhitespace (p : ResponsesStreamProcessor) (max : Nat) :
 ResponsesStreamProcessor := { p with maxToolArgumentWhitespace := max }

def toolName (p : ResponsesStreamProcessor) (index : Nat) : String :=
 match p.output.content[index]? with
 | some (.toolCall call) => call.name
 | _ => ""

def checkArgumentDelta (p : ResponsesStreamProcessor) (index : Nat) (delta : String) :
 Except String ResponsesStreamProcessor := do
 let scan ← ((get? p.scans index).getD .empty).checkDelta delta p.maxToolArgumentWhitespace
  p.model.id (p.toolName index)
 .ok { p with scans := insert p.scans index scan }

def emit (p : ResponsesStreamProcessor) (make : AssistantMessage → AssistantMessageEvent) :
 ResponsesStreamProcessor := { p with events := p.events ++ [make p.output] }

/-- Change the block at `index`. -/
def modifyBlock (p : ResponsesStreamProcessor) (index : Nat)
 (f : AssistantContentBlock → AssistantContentBlock) : ResponsesStreamProcessor :=
 { p with output := { p.output with content := p.output.content.modify index f } }

def applyMessagePhase (p : ResponsesStreamProcessor) (item : Option Value) :
 ResponsesStreamProcessor :=
 if isFinalAnswer item then { p with output := { p.output with stopReason := .stop } } else p

def slot (p : ResponsesStreamProcessor) (outputIndex : Option Int) (kind : SlotKind) : Option Nat :=
 ((get? p.slots outputIndex).filter fun slot => slot.1 = kind).map Prod.snd

variable (codec : Codec)

/-- `create_slot` for an item of a kind that is assembled. -/
def createSlot (p : ResponsesStreamProcessor) (outputIndex : Option Int) (item : Option Value)
 (kind : SlotKind) : ResponsesStreamProcessor :=
 let index := p.output.content.length
 let p := p.applyMessagePhase item
 let p : ResponsesStreamProcessor := { p with
  output := { p.output with content := p.output.content ++ [startBlock codec item kind] } }
 let p : ResponsesStreamProcessor := match kind with
  | .toolCall =>
   let initial := textOf item "arguments"
   { p with
     scans := insert p.scans index (ArgumentScan.empty.scanArguments initial)
     partialJson := insert p.partialJson index (.new initial) }
  | .thinking | .text => p
 let p : ResponsesStreamProcessor :=
  { p with slots := insert p.slots outputIndex (kind, index) }
 p.emit fun m => match kind with
  | .thinking => .thinkingStart index m
  | .text => .textStart index m
  | .toolCall => .toolCallStart index m

def appendThinking (p : ResponsesStreamProcessor) (index : Nat) (delta : String) :
 ResponsesStreamProcessor :=
 (p.modifyBlock index fun
  | .thinking block => .thinking { block with thinking := block.thinking ++ delta }
  | block => block).emit (.thinkingDelta index delta)

def appendText (p : ResponsesStreamProcessor) (index : Nat) (delta : String) :
 ResponsesStreamProcessor :=
 (p.modifyBlock index fun
  | .text block => .text { block with text := block.text ++ delta }
  | block => block).emit (.textDelta index delta)

def setArguments (p : ResponsesStreamProcessor) (index : Nat) : ResponsesStreamProcessor :=
 let parsed := ((get? p.partialJson index).map (·.object codec)).getD []
 p.modifyBlock index fun
  | .toolCall call => .toolCall { call with arguments := parsed }
  | block => block

def backfillItem (p : ResponsesStreamProcessor) (item : Value) : ResponsesStreamProcessor :=
 if typeOf item ≠ some "reasoning" ∨ jsTruthy (get item "encrypted_content") = false then p
 else match (getStr item "id").bind fun id => get? p.reasoningById id with
  | none => p
  | some index => p.modifyBlock index fun
   | .thinking block =>
    match block.thinkingSignature.bind codec.fromText with
    | some (.object stored) =>
     if jsTruthy (get? stored "encrypted_content") then .thinking block
     else
      let stored := match get item "encrypted_content" with
       | some encrypted => insert stored "encrypted_content" encrypted
       | none => stored
      .thinking { block with thinkingSignature := some (codec.toText (.object stored)) }
    | _ => .thinking block
   | block => block

def backfillReasoning (p : ResponsesStreamProcessor) (responseOutput : Option Value) :
 ResponsesStreamProcessor :=
 ((responseOutput.bind asArray).getD []).foldl (backfillItem codec) p

def finalizeResponse (p : ResponsesStreamProcessor) (response : Option Value) :
 Except String ResponsesStreamProcessor := do
 let p : ResponsesStreamProcessor := { p with sawTerminal := true }
 let p := p.backfillReasoning codec (get response "output")
 let status := getStr response "status"
 let incompleteReason := nonEmptyStr (get response "incomplete_details") "reason"
 let (stopReason, error) ← mapStopReason status incompleteReason
 .ok { p with output := { p.output with
  responseId := (nonEmptyStr response "id").orElse fun _ => p.output.responseId
  rawStopReason := match incompleteReason with
   | some reason => some (status.getD "undefined" ++ "." ++ reason)
   | none => status
  stopReason :=
   if stopReason = .stop ∧ p.output.toolCalls ≠ [] then .toolUse else stopReason
  errorMessage := error } }

/-- `response.function_call_arguments.delta`. -/
def argumentsDelta (p : ResponsesStreamProcessor) (outputIndex : Option Int) (delta : String) :
 Except String ResponsesStreamProcessor :=
 match p.slot outputIndex .toolCall with
 | none => .ok p
 | some index => match get? p.partialJson index with
  | none => .ok p
  | some arguments => do
   let p ← p.checkArgumentDelta index delta
   let p : ResponsesStreamProcessor :=
    { p with partialJson := insert p.partialJson index (arguments.push delta) }
   .ok ((p.setArguments codec index).emit (.toolCallDelta index delta))

/-- `response.function_call_arguments.done`: the arguments as a whole. -/
def argumentsDone (p : ResponsesStreamProcessor) (outputIndex : Option Int) (arguments : String) :
 Except String ResponsesStreamProcessor :=
 match p.slot outputIndex .toolCall with
 | none => .ok p
 | some index => match get? p.partialJson index with
  | none => .ok p
  | some previous =>
   match (stripStart arguments previous.text).filter (· ≠ "") with
   | some rest => do
    let p ← p.checkArgumentDelta index rest
    let p : ResponsesStreamProcessor :=
     { p with partialJson := insert p.partialJson index (.new arguments) }
    .ok ((p.setArguments codec index).emit (.toolCallDelta index rest))
   | none =>
    let p : ResponsesStreamProcessor :=
     { p with partialJson := insert p.partialJson index (.new arguments) }
    .ok (p.setArguments codec index)

/-- Free the slot of an item that is finished. -/
def removeSlot (p : ResponsesStreamProcessor) (outputIndex : Option Int) :
 ResponsesStreamProcessor := { p with slots := erase p.slots outputIndex }

def finishReasoning (p : ResponsesStreamProcessor) (outputIndex : Option Int) (item : Option Value)
 (index : Nat) : ResponsesStreamProcessor :=
 let summary := texts (get item "summary") "\n\n"
 let content := texts (get item "content") "\n\n"
 let p := p.modifyBlock index fun
  | .thinking block => .thinking { block with
   thinking :=
    if summary ≠ "" then summary else if content ≠ "" then content else block.thinking
   thinkingSignature := some (codec.toText (item.getD .null)) }
  | block => block
 let p : ResponsesStreamProcessor := match getStr item "id" with
  | some id => { p with reasoningById := insert p.reasoningById id index }
  | none => p
 let content := match p.output.content[index]? with
  | some (.thinking block) => block.thinking
  | _ => ""
 (p.emit (.thinkingEnd index content)).removeSlot outputIndex

def finishMessage (p : ResponsesStreamProcessor) (outputIndex : Option Int) (item : Option Value)
 (index : Nat) : ResponsesStreamProcessor :=
 let text := messageText item
 let signature :=
  encodeTextSignatureV1 codec (template codec (get item "id")) (getStr item "phase")
 let p := p.modifyBlock index fun
  | .text _ => .text { text, textSignature := some signature }
  | block => block
 (p.emit (.textEnd index text)).removeSlot outputIndex

def finishCall (p : ResponsesStreamProcessor) (outputIndex : Option Int) (item : Option Value)
 (index : Nat) : ResponsesStreamProcessor :=
 let p : ResponsesStreamProcessor := { p with scans := erase p.scans index }
 match get? p.partialJson index with
 | none => p
 | some streamed =>
  let p : ResponsesStreamProcessor := { p with partialJson := erase p.partialJson index }
  let source := (nonEmptyStr item "arguments").getD
   (if streamed.text = "" then "\x7b\x7d" else streamed.text)
  match p.output.content[index]? with
  | some (.toolCall call) =>
   let call := { call with
    arguments := codec.parse source
    namespace_ := (getStr item "namespace").orElse fun _ => call.namespace_ }
   ((p.modifyBlock index fun _ => .toolCall call).emit (.toolCallEnd index call)).removeSlot
    outputIndex
  | _ => p

/-- `finish_item` for the block in the item's slot. -/
def finishItem (p : ResponsesStreamProcessor) (outputIndex : Option Int) (item : Option Value)
 (slot : SlotKind × Nat) : ResponsesStreamProcessor :=
 match typeOf item, slot with
 | some "reasoning", (.thinking, index) => p.finishReasoning codec outputIndex item index
 | some "message", (.text, index) => p.finishMessage codec outputIndex item index
 | some "function_call", (.toolCall, index) => p.finishCall codec outputIndex item index
 | _, _ => p

/-- `response.output_item.added`. -/
def outputItemAdded (p : ResponsesStreamProcessor) (outputIndex : Option Int)
 (item : Option Value) : Except String ResponsesStreamProcessor :=
 match itemKind item with
 | none => .ok p
 | some kind =>
  let index := p.output.content.length
  let p := p.createSlot codec outputIndex item kind
  -- the item's initial arguments count toward the bound too
  if kind = .toolCall then p.checkArgumentDelta index "" else .ok p

/-- `response.output_item.done`. -/
def outputItemDone (p : ResponsesStreamProcessor) (outputIndex : Option Int)
 (item : Option Value) : ResponsesStreamProcessor :=
 let p := p.applyMessagePhase item
 match get? p.slots outputIndex with
 | some slot => p.finishItem codec outputIndex item slot
 | none => match itemKind item with
  | none => p
  | some kind =>
   let index := p.output.content.length
   (p.createSlot codec outputIndex item kind).finishItem codec outputIndex item (kind, index)

/-- `ResponsesStreamProcessor::handle_event`: apply one parsed event. -/
def handleEvent (p : ResponsesStreamProcessor) (event : Value) :
 Except String ResponsesStreamProcessor :=
 let outputIndex := (get event "output_index").bind asI64
 let delta := textOf event "delta"
 match textOf event "type" with
 | "response.created" =>
  .ok { p with output := { p.output with responseId := getStr (get event "response") "id" } }
 | "response.output_item.added" => p.outputItemAdded codec outputIndex (get event "item")
 | "response.reasoning_summary_text.delta" | "response.reasoning_text.delta" =>
  match p.slot outputIndex .thinking with
  | some index => .ok (p.appendThinking index delta)
  | none => .ok p
 | "response.reasoning_summary_part.done" =>
  match p.slot outputIndex .thinking with
  | some index => .ok (p.appendThinking index "\n\n")
  | none => .ok p
 | "response.output_text.delta" | "response.refusal.delta" =>
  match p.slot outputIndex .text with
  | some index => .ok (p.appendText index delta)
  | none => .ok p
 | "response.function_call_arguments.delta" => p.argumentsDelta codec outputIndex delta
 | "response.function_call_arguments.done" =>
  p.argumentsDone codec outputIndex (textOf event "arguments")
 | "response.output_item.done" => .ok (p.outputItemDone codec outputIndex (get event "item"))
 | "response.completed" | "response.incomplete" =>
  p.finalizeResponse codec (get event "response")
 | "error" =>
  .error ("Error Code " ++ template codec (get event "code") ++ ": "
   ++ template codec (get event "message"))
 | "response.failed" => .error (failure codec (get event "response"))
 | _ => .ok p

/-- Apply a response's events; the first one refused ends it. -/
def handleEvents (p : ResponsesStreamProcessor) (events : List Value) :
 Except String ResponsesStreamProcessor := events.foldlM (handleEvent codec) p

/-- The first call that is not finished. -/
def unfinishedCall (p : ResponsesStreamProcessor) : Option ToolCall :=
 p.output.content.zipIdx.findSome? fun
  | (.toolCall call, index) => if (get? p.partialJson index).isSome then some call else none
  | _ => none

/-- `ResponsesStreamProcessor::finish`: check the stream after its last event. -/
def finish (p : ResponsesStreamProcessor) : Except String Unit :=
 if p.sawTerminal = false then
  .error "OpenAI Responses stream ended before a terminal response event"
 else if p.output.stopReason = .toolUse then
  match p.unfinishedCall with
  | some call =>
   .error ("OpenAI Responses stream completed with an unfinished tool call: " ++ call.name
    ++ " (" ++ call.id ++ ")")
  | none => .ok ()
 else .ok ()

end ResponsesStreamProcessor

end Bake.Ai
