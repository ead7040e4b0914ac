import Bake.Ai.Message

/-!
# Messages before a request

`transform_messages`: images become placeholders for a text-only model, thinking from
another model becomes text, tool-call ids are rewritten and their results follow, failed
assistant messages are dropped, and a call without a result gets an error result.

The second pass closes the calls of an assistant message behind the results that follow
it, at the next user or assistant message or at the end; system messages wait until
then. What it sends is marked as given or made up, so that the two can be told apart.
-/

namespace Bake.Ai

def nonVisionUserImagePlaceholder : String := "(image omitted: model does not support images)"

def nonVisionToolImagePlaceholder : String :=
 "(tool image omitted: model does not support images)"

/-- `replace_images_with_placeholder`, behind a placeholder or not. -/
def replaceImages (placeholder : String) : Bool → List UserContentBlock → List UserContentBlock
 | _, [] => []
 | previous, .image _ :: rest =>
  if previous then replaceImages placeholder true rest
  else .text (.new placeholder) :: replaceImages placeholder true rest
 | _, .text text :: rest =>
  .text text :: replaceImages placeholder (text.text = placeholder) rest

def replaceImagesWithPlaceholder (content : List UserContentBlock) (placeholder : String) :
 List UserContentBlock := replaceImages placeholder false content

/-- `downgrade_unsupported_images` of one message. -/
def downgradeMessage : Message → Message
 | .user user =>
  match user.content with
  | .blocks blocks =>
   .user { user with
    content := .blocks (replaceImagesWithPlaceholder blocks nonVisionUserImagePlaceholder) }
  | .text _ => .user user
 | .toolResult result =>
  .toolResult { result with
   content := replaceImagesWithPlaceholder result.content nonVisionToolImagePlaceholder }
 | message => message

def downgradeUnsupportedImages (messages : List Message) (model : Model) : List Message :=
 if model.acceptsImages then messages else messages.map downgradeMessage

/-! ## The first pass -/

abbrev NormalizeToolCallId := String → Model → AssistantMessage → String

abbrev IdMap := List (String × String)

def AssistantMessage.sameModel (assistant : AssistantMessage) (model : Model) : Bool :=
 assistant.provider = model.provider && assistant.api = model.api && assistant.model = model.id

section FirstPass

variable (model : Model) (normalize : Option NormalizeToolCallId)

def transformCall (assistant : AssistantMessage) (idMap : IdMap) (call : ToolCall) :
 IdMap × ToolCall :=
 if assistant.sameModel model then (idMap, call)
 else
  let call := { call with thoughtSignature := none }
  match normalize with
  | none => (idMap, call)
  | some normalize =>
   let normalized := normalize call.id model assistant
   if normalized = call.id then (idMap, call)
   else (OrdMap.insert idMap call.id normalized, { call with id := normalized })

/-- A block of another kind: dropped, kept, or turned into text. -/
def transformThinking (sameModel : Bool) (thinking : ThinkingContent) :
 List AssistantContentBlock :=
 if thinking.isRedacted then (if sameModel then [.thinking thinking] else [])
 else if sameModel && thinking.thinkingSignature.any fun s => s ≠ "" then [.thinking thinking]
 else if isBlank thinking.thinking then []
 else if sameModel then [.thinking thinking]
 else [.text (.new thinking.thinking)]

def transformContent (assistant : AssistantMessage) :
 IdMap → List AssistantContentBlock → IdMap × List AssistantContentBlock
 | idMap, [] => (idMap, [])
 | idMap, .thinking thinking :: rest =>
  let (idMap, content) := transformContent assistant idMap rest
  (idMap, transformThinking (assistant.sameModel model) thinking ++ content)
 | idMap, .text text :: rest =>
  let (idMap, content) := transformContent assistant idMap rest
  (idMap, .text (if assistant.sameModel model then text else .new text.text) :: content)
 | idMap, .toolCall call :: rest =>
  let (idMap, call) := transformCall model normalize assistant idMap call
  let (idMap, content) := transformContent assistant idMap rest
  (idMap, .toolCall call :: content)

def renameResult (idMap : IdMap) (result : ToolResultMessage) : ToolResultMessage :=
 { result with toolCallId := (OrdMap.get? idMap result.toolCallId).getD result.toolCallId }

def transformMessage (idMap : IdMap) : Message → IdMap × Message
 | .toolResult result => (idMap, .toolResult (renameResult idMap result))
 | .assistant assistant =>
  let (idMap, content) := transformContent model normalize assistant idMap assistant.content
  (idMap, .assistant { assistant with content })
 | message => (idMap, message)

def firstPass : IdMap → List Message → List Message
 | _, [] => []
 | idMap, message :: rest =>
  let (idMap, message) := transformMessage model normalize idMap message
  message :: firstPass idMap rest

end FirstPass

/-! ## The second pass -/

/-- A message of a request: one that was given, or the error result of a call without
one. -/
inductive Sent where
 | given (message : Message)
 | synthetic (result : ToolResultMessage)

namespace Sent

def message : Sent → Message
 | .given message => message
 | .synthetic result => .toolResult result

def given? : Sent → Option Message
 | .given message => some message
 | .synthetic _ => none

def synthetic? : Sent → Option ToolResultMessage
 | .given _ => none
 | .synthetic result => some result

end Sent

/-- What the second pass has sent, the calls it has not closed, the ids answered since,
and the system messages it holds. -/
structure Closing where
 result : List Sent
 pending : List ToolCall
 existing : List String
 heldSystem : List SystemMessage

def noResult (call : ToolCall) (now : Int) : ToolResultMessage :=
 { toolCallId := call.id
   toolName := call.name
   content := [.text (.new "No result provided")]
   details := none
   isError := true
   timestamp := now }

/-- The error results of the calls without a result. The clock is read for each, so a
moment goes with the number of messages before it. -/
def pushResults (clock : Nat → Int) (existing : List String) : List Sent → List ToolCall → List Sent
 | result, [] => result
 | result, call :: calls =>
  pushResults clock existing (if call.id ∈ existing then result
    else result ++ [.synthetic (noResult call (clock result.length))]) calls

namespace Closing

def start : Closing := { result := [], pending := [], existing := [], heldSystem := [] }

variable (clock : Nat → Int) (s : Closing)

/-- `close_pending`. -/
def close : Closing :=
 let closed := if s.pending.isEmpty then s else
  { s with
    result := pushResults clock s.existing s.result s.pending
    pending := []
    existing := [] }
 { closed with
   result := closed.result ++ closed.heldSystem.map fun system => .given (.system system)
   heldSystem := [] }

def push (message : Message) : Closing := { s with result := s.result ++ [.given message] }

/-- One message of the second pass. -/
def step : Message → Closing
 | .assistant assistant =>
  let s := s.close clock
  if assistant.failed then s
  else
   let calls := assistant.toolCalls
   let s := if calls.isEmpty then s else { s with pending := calls, existing := [] }
   s.push (.assistant assistant)
 | .toolResult result =>
  { s with existing := result.toolCallId :: s.existing }.push (.toolResult result)
 | .system system =>
  if s.pending.isEmpty then s.push (.system system)
  else { s with heldSystem := s.heldSystem ++ [system] }
 | .user user => (s.close clock).push (.user user)

end Closing

def secondPass (clock : Nat → Int) (messages : List Message) : List Sent :=
 ((messages.foldl (Closing.step clock) Closing.start).close clock).result

/-- `transform_messages`, with what it made up marked. -/
def transform (clock : Nat → Int) (messages : List Message) (model : Model)
 (normalize : Option NormalizeToolCallId) : List Sent :=
 secondPass clock (firstPass model normalize [] (downgradeUnsupportedImages messages model))

def transformMessages (clock : Nat → Int) (messages : List Message) (model : Model)
 (normalize : Option NormalizeToolCallId) : List Message :=
 (transform clock messages model normalize).map Sent.message

end Bake.Ai
