import Bake.Ai.Stream

/-!
# Assembling an Anthropic stream

`AnthropicStreamProcessor`: the decoded events of one response in the order they come.
A block is found by the provider's index, the first open one that has it; an event
without an index has the index -1.

Token usage is left out: no event is refused or read differently because of it.
-/

namespace Bake.Ai

open Bake.Json

/-- An open block: its place in the message, its provider index, its argument text and the
scan of it. -/
structure OpenBlock where
 contentIndex : Nat
 providerIndex : Int
 partialJson : StreamingJsonObject
 scan : ArgumentScan

structure AnthropicStreamProcessor where
 model : Model
 /-- The message being built. -/
 output : AssistantMessage
 isOauth : Bool
 tools : List Tool
 /-- The open blocks, in the order they were started. -/
 openBlocks : List OpenBlock
 maxToolArgumentWhitespace : Nat
 sawStart : Bool
 sawStop : Bool
 /-- What was emitted. -/
 events : List AssistantMessageEvent

namespace Anthropic

def mapStopReason (reason : String) (stopDetails : Option Value) :
 Except String (StopReason × Option String) :=
 match reason with
 | "end_turn" | "pause_turn" | "stop_sequence" => .ok (.stop, none)
 | "max_tokens" => .ok (.length, none)
 | "tool_use" => .ok (.toolUse, none)
 | "refusal" =>
  .ok (.error, some ((nonEmptyStr stopDetails "explanation").getD
   "The model refused to complete the request"))
 | "sensitive" => .ok (.error, some "Provider stopped with: sensitive")
 | other => .error ("Unhandled stop reason: " ++ other)

/-- `from_claude_code_name`: the declared tool whose name matches in lower case. -/
def fromClaudeCodeName (codec : Codec) (name : String) (tools : List Tool) : String :=
 match tools.find? fun tool => codec.toLowercase tool.name = codec.toLowercase name with
 | some tool => tool.name
 | none => name

def providerIndex (event : Value) : Int := ((get event "index").bind asI64).getD (-1)

/-- The block a `content_block` starts with; `none` for a kind that is not assembled. -/
def startContent (codec : Codec) (isOauth : Bool) (tools : List Tool) (block : Option Value) :
 Option AssistantContentBlock :=
 match typeOf block with
 | some "text" => some (.text (.new (textOf block "text")))
 | some "thinking" =>
  some (.thinking
   { thinking := textOf block "thinking"
     thinkingSignature := some (textOf block "signature")
     redacted := none })
 | some "redacted_thinking" =>
  some (.thinking
   { thinking := "[Reasoning redacted]"
     thinkingSignature := getStr block "data"
     redacted := some true })
 | some "tool_use" =>
  some (.toolCall
   { id := textOf block "id"
     name :=
      if isOauth then fromClaudeCodeName codec (textOf block "name") tools
      else textOf block "name"
     arguments := ((get block "input").bind Value.asObject).getD []
     thoughtSignature := none
     namespace_ := none })
 | _ => none

end Anthropic

namespace AnthropicStreamProcessor

open Anthropic

/-- A processor for `model` filling `output`. -/
def new (model : Model) (output : AssistantMessage) (isOauth : Bool) (tools : List Tool) :
 AnthropicStreamProcessor :=
 { model
   output
   isOauth
   tools
   openBlocks := []
   maxToolArgumentWhitespace := defaultMaxToolArgumentWhitespace
   sawStart := false
   sawStop := false
   events := [] }

def withMaxToolArgumentWhitespace (p : AnthropicStreamProcessor) (max : Nat) :
 AnthropicStreamProcessor := { p with maxToolArgumentWhitespace := max }

def emit (p : AnthropicStreamProcessor) (make : AssistantMessage → AssistantMessageEvent) :
 AnthropicStreamProcessor := { p with events := p.events ++ [make p.output] }

/-- Replace the block at `index`. -/
def setBlock (p : AnthropicStreamProcessor) (index : Nat) (block : AssistantContentBlock) :
 AnthropicStreamProcessor :=
 { p with output := { p.output with content := p.output.content.set index block } }

def find (p : AnthropicStreamProcessor) (providerIndex : Int) : Option Nat :=
 p.openBlocks.findIdx? fun block => block.providerIndex = providerIndex

variable (codec : Codec)

def messageStart (p : AnthropicStreamProcessor) (event : Value) : AnthropicStreamProcessor :=
 let message := get event "message"
 { p with
   sawStart := true
   output := { p.output with
    responseId := getStr message "id"
    responseModel := match getStr message "model" with
     | some responseModel =>
      if responseModel ≠ p.model.id then some responseModel else p.output.responseModel
     | none => p.output.responseModel } }

def contentBlockStart (p : AnthropicStreamProcessor) (event : Value) :
 Except String AnthropicStreamProcessor :=
 let block := get event "content_block"
 if typeOf block = some "fallback" then
  if p.output.content ≠ [] then
   .error "Anthropic performed an unsupported mid-output model fallback"
  else .ok p
 else match startContent codec p.isOauth p.tools block with
  | none => .ok p
  | some content =>
   let index := p.output.content.length
   let opened : OpenBlock :=
    { contentIndex := index
      providerIndex := providerIndex event
      partialJson := .empty
      scan := .empty }
   let p : AnthropicStreamProcessor := { p with
    output := { p.output with content := p.output.content ++ [content] }
    openBlocks := p.openBlocks ++ [opened] }
   .ok (p.emit fun m => match content with
    | .text _ => .textStart index m
    | .thinking _ => .thinkingStart index m
    | .toolCall _ => .toolCallStart index m)

/-- `content_block_delta` for the open block at `slot`. -/
def deltaAt (p : AnthropicStreamProcessor) (slot : Nat) (delta : Option Value) :
 Except String AnthropicStreamProcessor :=
 let index := (p.openBlocks[slot]?.map OpenBlock.contentIndex).getD 0
 match typeOf delta, p.output.content[index]? with
 | some "text_delta", some (.text block) =>
  let text := textOf delta "text"
  .ok ((p.setBlock index (.text { block with text := block.text ++ text })).emit
   (.textDelta index text))
 | some "thinking_delta", some (.thinking block) =>
  let text := textOf delta "thinking"
  .ok ((p.setBlock index (.thinking { block with thinking := block.thinking ++ text })).emit
   (.thinkingDelta index text))
 | some "input_json_delta", some (.toolCall call) =>
  let text := textOf delta "partial_json"
  match p.openBlocks[slot]? with
  | none => .ok p
  | some block => do
   let scan ← block.scan.checkDelta text p.maxToolArgumentWhitespace p.model.id call.name
   let partialJson := block.partialJson.push text
   let p : AnthropicStreamProcessor :=
    { p with openBlocks := p.openBlocks.set slot { block with partialJson, scan } }
   .ok ((p.setBlock index (.toolCall { call with arguments := partialJson.object codec })).emit
    (.toolCallDelta index text))
 | some "signature_delta", some (.thinking block) =>
  .ok (p.setBlock index (.thinking { block with
   thinkingSignature := some (block.thinkingSignature.getD "" ++ textOf delta "signature") }))
 | _, _ => .ok p

def contentBlockDelta (p : AnthropicStreamProcessor) (event : Value) :
 Except String AnthropicStreamProcessor :=
 match p.find (providerIndex event) with
 | none => .ok p
 | some slot => p.deltaAt codec slot (get event "delta")

def contentBlockStop (p : AnthropicStreamProcessor) (event : Value) : AnthropicStreamProcessor :=
 match p.find (providerIndex event) with
 | none => p
 | some slot => match p.openBlocks[slot]? with
  | none => p
  | some removed =>
   let index := removed.contentIndex
   let p : AnthropicStreamProcessor := { p with openBlocks := p.openBlocks.eraseIdx slot }
   match p.output.content[index]? with
   | some (.text block) => p.emit (.textEnd index block.text)
   | some (.thinking block) => p.emit (.thinkingEnd index block.thinking)
   | some (.toolCall call) =>
    let call := { call with arguments := codec.parse removed.partialJson.text }
    (p.setBlock index (.toolCall call)).emit (.toolCallEnd index call)
   | none => p

def messageDelta (p : AnthropicStreamProcessor) (event : Value) :
 Except String AnthropicStreamProcessor :=
 let delta := get event "delta"
 match nonEmptyStr delta "stop_reason" with
 | none => .ok p
 | some reason => do
  let (stopReason, error) ← mapStopReason reason (get delta "stop_details")
  .ok { p with output := { p.output with
   rawStopReason := some reason
   stopReason
   errorMessage := if error.isSome then error else p.output.errorMessage } }

/-- `AnthropicStreamProcessor::handle_event`: apply one decoded event. -/
def handleEvent (p : AnthropicStreamProcessor) (event : Value) :
 Except String AnthropicStreamProcessor :=
 match textOf event "type" with
 | "message_start" => .ok (p.messageStart event)
 | "content_block_start" => p.contentBlockStart codec event
 | "content_block_delta" => p.contentBlockDelta codec event
 | "content_block_stop" => .ok (p.contentBlockStop codec event)
 | "message_delta" => p.messageDelta event
 | "message_stop" => .ok { p with sawStop := true }
 | _ => .ok p

/-- Apply a response's events; the first one refused ends it. -/
def handleEvents (p : AnthropicStreamProcessor) (events : List Value) :
 Except String AnthropicStreamProcessor := events.foldlM (handleEvent codec) p

/-- `AnthropicStreamProcessor::finish`: check the stream after its last event. -/
def finish (p : AnthropicStreamProcessor) : Except String Unit :=
 if p.sawStart ∧ ¬p.sawStop then .error "Anthropic stream ended before message_stop" else .ok ()

end AnthropicStreamProcessor

end Bake.Ai
