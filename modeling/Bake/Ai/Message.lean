import Bake.Json.Value

/-!
# Messages

The transcript messages of `bake-ai`'s `types.rs`: what the request builders read and
what a response is assembled into. Token usage, costs, diagnostics, deferred handles and
durations are left out.
-/

namespace Bake.Ai

open Bake.Json

structure TextContent where
 text : String
 textSignature : Option String

def TextContent.new (text : String) : TextContent := { text, textSignature := none }

/-- Reasoning text, with replay data of its provider. -/
structure ThinkingContent where
 thinking : String
 thinkingSignature : Option String
 redacted : Option Bool

def ThinkingContent.isRedacted (thinking : ThinkingContent) : Bool := thinking.redacted = some true

/-- Base64 data and its MIME type. -/
structure ImageContent where
 data : String
 mimeType : String
deriving DecidableEq

structure ToolCall where
 id : String
 name : String
 arguments : JsonObject
 thoughtSignature : Option String
 /-- The OpenAI Responses namespace. -/
 namespace_ : Option String

inductive UserContentBlock where
 | text (text : TextContent)
 | image (image : ImageContent)

inductive AssistantContentBlock where
 | text (text : TextContent)
 | thinking (thinking : ThinkingContent)
 | toolCall (call : ToolCall)

inductive UserContent where
 | text (text : String)
 | blocks (blocks : List UserContentBlock)

inductive SystemContent where
 | text (text : String)
 | blocks (blocks : List TextContent)

inductive StopReason where
 | pending
 | stop
 | length
 | toolUse
 | error
 | aborted
 | deferred
deriving DecidableEq, Repr

/-- The `strict` member of a JSON-schema constrained-sampling configuration. -/
inductive StrictPreference where
 /-- Strict sampling when the schema allows it. -/
 | prefer
 /-- The request fails when strict sampling is impossible. -/
 | require
deriving DecidableEq

/-- Provider-side constrained sampling of a tool's arguments. -/
inductive ConstrainedSampling where
 | disabled
 | jsonSchema (strict : StrictPreference)
 | grammar (variants : JsonObject)

structure Tool where
 name : String
 description : String
 parameters : Value
 constrainedSampling : Option ConstrainedSampling

/-- Instructions and tool declarations at one point of the transcript. A section without
a text is removed. -/
structure SystemMessage where
 content : SystemContent
 sections : Option (List (String × Option String))
 toolsAdded : Option (List Tool)
 /-- The names of tools that stop being available. -/
 toolsRemoved : Option (List String)
 timestamp : Int

structure UserMessage where
 content : UserContent
 timestamp : Int

/-- A model response. -/
structure AssistantMessage where
 content : List AssistantContentBlock
 api : String
 provider : String
 model : String
 /-- The model the response names, when it is another one. -/
 responseModel : Option String
 responseId : Option String
 stopReason : StopReason
 errorMessage : Option String
 rawStopReason : Option String
 timestamp : Int

structure ToolResultMessage where
 toolCallId : String
 toolName : String
 content : List UserContentBlock
 details : Option Value
 isError : Bool
 timestamp : Int

inductive Message where
 | system (system : SystemMessage)
 | user (user : UserMessage)
 | assistant (assistant : AssistantMessage)
 | toolResult (result : ToolResultMessage)

inductive InputModality where
 | text
 | image
deriving DecidableEq

/-- What the request builders read of a model. -/
structure Model where
 id : String
 api : String
 provider : String
 input : List InputModality
 reasoning : Bool
 /-- The compatibility override of the developer role. -/
 supportsDeveloperRole : Option Bool

def Model.acceptsImages (model : Model) : Bool := model.input.contains .image

def AssistantContentBlock.call? : AssistantContentBlock → Option ToolCall
 | .toolCall call => some call
 | _ => none

def AssistantMessage.toolCalls (assistant : AssistantMessage) : List ToolCall :=
 assistant.content.filterMap AssistantContentBlock.call?

def AssistantMessage.failed (assistant : AssistantMessage) : Bool :=
 assistant.stopReason = .error || assistant.stopReason = .aborted

namespace Message

def isSystem : Message → Bool
 | .system _ => true
 | _ => false

def isToolResult : Message → Bool
 | .toolResult _ => true
 | _ => false

def isFailed : Message → Bool
 | .assistant response => response.failed
 | _ => false

def answers? : Message → Option String
 | .toolResult result => some result.toolCallId
 | _ => none

end Message

/-- The Unicode white space `str::trim` removes. -/
def isWhiteSpace (c : Char) : Bool :=
 let n := c.toNat
 (0x9 ≤ n && n ≤ 0xD) || n = 0x20 || n = 0x85 || n = 0xA0 || n = 0x1680
  || (0x2000 ≤ n && n ≤ 0x200A) || n = 0x2028 || n = 0x2029 || n = 0x202F || n = 0x205F
  || n = 0x3000

/-- `text.trim().is_empty()`. -/
def isBlank (text : String) : Bool := text.toList.all isWhiteSpace

end Bake.Ai
