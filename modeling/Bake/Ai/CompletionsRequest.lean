import Bake.Ai.Completions
import Bake.Ai.ConstrainedSampling
import Bake.Ai.ToolCallIds
import Bake.Ai.Wire

/-!
# The messages of a Chat Completions request

`convert_messages` of `openai_completions.rs`. Each tool result is a message of its own.
The images of the results that follow each other come behind all of them, in a user
message the converter adds; some providers also want an assistant message between tool
results and a user message.
-/

open List OrdMap
open OrdMap (get?)

namespace Bake.Ai.Completions

open Bake.Json

/-- What `convert_messages` reads of the compatibility settings. -/
structure ResolvedCompletionsCompat where
 supportsDeveloperRole : Bool
 requiresToolResultName : Bool
 requiresAssistantAfterToolResult : Bool
 requiresThinkingAsText : Bool
 requiresReasoningContentOnAssistantMessages : Bool
 supportsStrictMode : Bool
 supportsMidConvoSystemMessages : Bool
 supportsMidConvoToolAdditions : Bool

def toolSupport (compat : ResolvedCompletionsCompat) : TranscriptToolSupport :=
 if compat.supportsMidConvoSystemMessages && compat.supportsMidConvoToolAdditions then .additions
 else .none

/-! ## Replayed reasoning -/

def reasoningFields : List String := ["reasoning", "reasoning_content", "reasoning_text"]

section Convert

variable (codec : Codec)

def parseReasoningDetails (signature : Option String) : Option (List Value) :=
 match ((signature.filter (· ≠ "")).bind codec.fromText).bind asArray with
 | some details => if !details.isEmpty && details.all isReasoningDetail then some details else none
 | none => none

def parseLegacyEncryptedDetail (signature : Option String) : Option Value :=
 ((signature.filter (· ≠ "")).bind codec.fromText).filter fun parsed =>
  isReasoningDetail parsed && typeOf (some parsed) = some "reasoning.encrypted"
   && (nonEmptyStr (some parsed) "id").isSome && (nonEmptyStr (some parsed) "data").isSome

/-! ## Messages -/

def textPart (text : String) : Value := .object [("type", .string "text"), ("text", .string text)]

def imageAddress (image : ImageContent) : Value :=
 .object [("url", .string ("data:" ++ image.mimeType ++ ";base64," ++ image.data))]

def imageUrl (image : ImageContent) : Value :=
 .object [("type", .string "image_url"), ("image_url", imageAddress image)]

def contentPart : UserContentBlock → Value
 | .text text => textPart text.text
 | .image image => imageUrl image

def message (role : String) (content : Value) : Value :=
 .object [("role", .string role), ("content", content)]

def processed : Value := message "assistant" (.string "I have processed the tool results.")

/-- The message of a user message without its empty texts; none when nothing is left. -/
def userParams (user : UserMessage) : List Value :=
 match user.content with
 | .text text => [message "user" (.string text)]
 | .blocks blocks =>
  let content := (blocks.filter fun
   | .text text => text.text ≠ ""
   | .image _ => true).map contentPart
  if content.isEmpty then [] else [message "user" (.array content)]

/-- The declarations of `convert_tools`. -/
def convertTool (compat : ResolvedCompletionsCompat) (tool : Tool) : Except String Value := do
 let strict ← resolveJsonSchemaStrictSampling codec none tool compat.supportsStrictMode
 let parameters ← getJsonSchemaToolParameters codec tool strict
 let function := [("name", .string tool.name), ("description", .string tool.description),
  ("parameters", parameters)]
 let function := if compat.supportsStrictMode then
  function ++ [("strict", .bool (strict.getD false))] else function
 pure (.object [("type", .string "function"), ("function", .object function)])

def convertTools (compat : ResolvedCompletionsCompat) (tools : List Tool) :
 Except String (List Value) := tools.mapM (convertTool codec compat)

/-! ## An assistant message -/

def thinkingBlocks (assistant : AssistantMessage) : List ThinkingContent :=
 assistant.content.filterMap fun
  | .thinking thinking => some thinking
  | _ => none

def textParts (assistant : AssistantMessage) : List String := (assistant.content.filterMap fun
  | .text text => some text.text
  | _ => none).filter fun text => !isBlank text

def preservedDetails (assistant : AssistantMessage) : Option (List Value) :=
 match (thinkingBlocks assistant).findSome? fun thinking =>
  parseReasoningDetails codec thinking.thinkingSignature with
 | some details => some details
 | none =>
  let legacy := assistant.toolCalls.filterMap fun call =>
   parseLegacyEncryptedDetail codec call.thoughtSignature
  if legacy.isEmpty then none else some legacy

/-- The member reasoning is replayed under. -/
def reasoningField (model : Model) (thinking : ThinkingContent) : Option String :=
 (match thinking.thinkingSignature with
  | some "reasoning" =>
   if model.provider = "opencode-go" then some "reasoning_content" else some "reasoning"
  | signature => signature).filter reasoningFields.contains

def thoughtMembers (model : Model) (compat : ResolvedCompletionsCompat)
 (assistant : AssistantMessage) : JsonObject :=
 let content := if compat.requiresAssistantAfterToolResult then Value.string "" else .null
 let members := [("role", .string "assistant"), ("content", content)]
 let text := String.join (textParts assistant)
 let spoken := if text = "" then members else insert members "content" (.string text)
 match (thinkingBlocks assistant).filter fun thinking => !isBlank thinking.thinking with
 | [] => spoken
 | first :: rest =>
  let thoughts := (first :: rest).map ThinkingContent.thinking
  if compat.requiresThinkingAsText then
   insert members "content"
    (.array (textPart ("\n\n".intercalate thoughts) :: (textParts assistant).map textPart))
  else if (preservedDetails codec assistant).isSome then spoken
  else
   match reasoningField model first with
   | some field => insert spoken field (.string ("\n".intercalate thoughts))
   | none => spoken

def callValue (call : ToolCall) : Value :=
 .object [("id", .string call.id), ("type", .string "function"),
  ("function", .object [("name", .string call.name),
   ("arguments", .string (codec.toText (.object call.arguments)))])]

def calledMembers (model : Model) (compat : ResolvedCompletionsCompat)
 (assistant : AssistantMessage) : JsonObject :=
 let members := thoughtMembers codec model compat assistant
 let members := if assistant.toolCalls.isEmpty then members
  else insert members "tool_calls" (.array (assistant.toolCalls.map (callValue codec)))
 match preservedDetails codec assistant with
 | some details => insert members "reasoning_details" (.array details)
 | none => members

def hasContent (members : JsonObject) : Bool :=
 match get? members "content" with
 | some (.string text) => text ≠ ""
 | some (.array parts) => !parts.isEmpty
 | _ => false

/-- `convert_assistant`: no message when there is nothing to send. -/
def convertAssistant (model : Model) (compat : ResolvedCompletionsCompat)
 (assistant : AssistantMessage) : Option Value :=
 let members := calledMembers codec model compat assistant
 let members :=
  if compat.requiresReasoningContentOnAssistantMessages && model.reasoning
   && (get? members "reasoning_content").isNone then
   insert members "reasoning_content" (.string "")
  else members
 if !hasContent members && (get? members "tool_calls").isNone then none else some (.object members)

/-! ## Tool results -/

def toolMessage (compat : ResolvedCompletionsCompat) (result : ToolResultMessage) : Value :=
 let text := blocksText result.content
 let text := if !jsBlank text then text
  else if result.content.any UserContentBlock.isImage then "(see attached image)"
  else "(no tool output)"
 let members := [("role", .string "tool"), ("content", .string text),
  ("tool_call_id", .string result.toolCallId)]
 .object (if compat.requiresToolResultName && result.toolName ≠ "" then
  members ++ [("name", .string result.toolName)] else members)

def resultImages (model : Model) (results : List ToolResultMessage) : List Value :=
 if model.acceptsImages then
  results.flatMap fun result => result.content.filterMap fun
   | .image image => some (imageUrl image)
   | .text _ => none
 else []

def attachedImages (images : List Value) : Value :=
 message "user" (.array (textPart "Attached image(s) from tool result:" :: images))

/-! ## The loop -/

def instructionRole (model : Model) (compat : ResolvedCompletionsCompat) : String :=
 if model.reasoning && compat.supportsDeveloperRole then "developer" else "system"

section Loop

variable (model : Model) (compat : ResolvedCompletionsCompat) (folded : Nat)

def systemParams (first : Bool) (systemIndex : Nat) (system : SystemMessage) :
 Except String (List Value) := do
 let added := if folded ≤ systemIndex then system.toolsAdded.getD [] else []
 let tools ← (if added.isEmpty then pure [] else do
  let tools ← convertTools codec compat added
  pure [.object [("role", .string "system"), ("tools", .array tools)]])
 let text := if first then getSystemMessageText system else renderSystemMessageUpdate system
 pure (tools ++ if text = "" then [] else [message (instructionRole model compat) (.string text)])

/-- The messages of tool results that follow each other, and the role behind them. -/
def resultsParams (results : List ToolResultMessage) : List Value × String :=
 let images := resultImages model results
 let tools := results.map (toolMessage compat)
 if images.isEmpty then (tools, "toolResult")
 else
  (tools ++ (if compat.requiresAssistantAfterToolResult then [processed] else [])
   ++ [attachedImages images], "user")

/-- What a user message behind tool results needs before it. -/
def filler (lastRole : Option String) : List Value :=
 if compat.requiresAssistantAfterToolResult && lastRole = some "toolResult" then [processed] else []

/-- The loop of `convert_messages`: whether a message is the first, the role before it, and
the number of system messages before it. -/
def convertRuns : Bool → Option String → Nat → List Run → Except String (List Value)
 | _, _, _, [] => pure []
 | first, _, systemIndex, .system system :: rest => do
  let params ← systemParams codec model compat folded first systemIndex system
  let more ← convertRuns false (some "system") (systemIndex + 1) rest
  pure (params ++ more)
 | _, lastRole, systemIndex, .user user :: rest => do
  let params := userParams user
  let more ← convertRuns false (if params.isEmpty then lastRole else some "user") systemIndex rest
  pure (filler compat lastRole ++ params ++ more)
 | _, lastRole, systemIndex, .assistant assistant :: rest =>
  match convertAssistant codec model compat assistant with
  | some converted => do
   let more ← convertRuns false (some "assistant") systemIndex rest
   pure (converted :: more)
  | none => convertRuns false lastRole systemIndex rest
 | _, _, systemIndex, .results results :: rest => do
  let (params, role) := resultsParams model compat results
  let more ← convertRuns false (some role) systemIndex rest
  pure (params ++ more)

end Loop

/-- The messages of the request before they are converted. -/
def transformedMessages (clock : Nat → Int) (model : Model) (context : List Message)
 (compat : ResolvedCompletionsCompat) : List Message :=
 transformMessages clock (resolveTranscript context compat.supportsMidConvoSystemMessages) model
  (some fun id _ _ => normalizeCompletionsToolCallId model id)

def convertMessages (clock : Nat → Int) (model : Model) (context : List Message)
 (compat : ResolvedCompletionsCompat) : Except String (List Value) :=
 let normalized := resolveTranscript context compat.supportsMidConvoSystemMessages
 let folded := (resolveTranscriptTools normalized (toolSupport compat)).2
 convertRuns codec model compat folded true none 0
  (runs (transformedMessages clock model context compat))

end Convert

/-! ## Reading a message -/

def partOf (part : Value) : Option Part :=
 if typeOf (some part) = some "text" then (getStr (some part) "text").map .text
 else if typeOf (some part) = some "image_url" then (get (some part) "image_url").map .image
 else none

/-- What a content shows. -/
def partsOf : Option Value → List Part
 | some (.string text) => [.text text]
 | some (.array parts) => parts.filterMap partOf
 | _ => []

def callsOf : Option Value → List String
 | some (.array calls) => calls.filterMap fun call => getStr (some call) "id"
 | _ => []

/-- What a message says. -/
def read (param : Value) : Wire :=
 { role := getStr (some param) "role"
   calls := callsOf (get (some param) "tool_calls")
   answers := (getStr (some param) "tool_call_id").toList
   parts := partsOf (get (some param) "content") }

/-! ## What the converted messages say -/

@[simp] theorem read_message (role : String) (content : Value) : read (message role content)
  = { role := some role, calls := [], answers := [], parts := partsOf (some content) } := rfl

theorem partOf_contentPart (block : UserContentBlock) :
 partOf (contentPart block) = some (block.part imageAddress) := by
 cases block <;> rfl

theorem userParams_read (user : UserMessage) :
 (userParams user).map read = [] ∧ (user.content.parts imageAddress).filter Part.shown = []
  ∨ ∃ m, (userParams user).map read = [m] ∧ m.role = some "user" ∧ m.calls = []
   ∧ m.parts.filter Part.shown = (user.content.parts imageAddress).filter Part.shown := by
 unfold userParams
 split
 next text htext =>
  exact Or.inr ⟨_, rfl, rfl, rfl, by rw [htext]; rfl⟩
 next blocks hblocks =>
  rw [hblocks]
  generalize hkeep : (fun block : UserContentBlock => match block with
   | .text text => decide (text.text ≠ "")
   | .image _ => true) = keep
  have hshown : ∀ block : UserContentBlock, (block.part imageAddress).shown = true →
   keep block = true := by
   intro block hb
   rw [← hkeep]
   cases block with
   | image image => rfl
   | text text =>
    refine decide_eq_true fun he => ?_
    rw [UserContentBlock.part, Part.shown, he] at hb
    exact absurd hb (by decide)
  have hparts : (((blocks.filter keep).map contentPart).filterMap partOf).filter Part.shown
   = ((UserContent.blocks blocks).parts imageAddress).filter Part.shown := by
   have hpart : partOf ∘ contentPart = some ∘ UserContentBlock.part imageAddress :=
    funext partOf_contentPart
   rw [filterMap_map, hpart, filterMap_eq_map, UserContent.parts, filter_map,
    filter_map, filter_filter]
   congr 1
   refine filter_congr fun block _ => ?_
   rw [Bool.and_eq_left_iff_imp]
   exact hshown block
  dsimp only
  split
  next hempty =>
   rw [List.isEmpty_iff] at hempty
   rw [hempty] at hparts
   exact Or.inl ⟨rfl, hparts.symm⟩
  · exact Or.inr ⟨_, rfl, rfl, rfl, hparts⟩

section

variable {codec : Codec} {model : Model} {compat : ResolvedCompletionsCompat} {folded : Nat}

theorem instructionRole_cases :
 instructionRole model compat = "developer" ∨ instructionRole model compat = "system" := by
 unfold instructionRole
 split
 · exact Or.inl rfl
 · exact Or.inr rfl

variable {first : Bool} {params : List Value} {systemIndex : Nat} {lastRole : Option String}
 {rest : List Run}

variable {system : SystemMessage}

theorem systemParams_read
 (h : systemParams codec model compat folded first systemIndex system = .ok params) :
 (∀ m ∈ params.map read, m.calls = [] ∧ m.role ≠ some "user")
  ∧ saidBy (instructionRole model compat) (params.map read)
   = (sentTexts first [.system system]).map .text := by
 obtain ⟨tools, htools, h⟩ := Except.bind_ok h
 injection h with h
 have hempty : ∀ m ∈ tools.map read, m.calls = [] ∧ m.role = some "system" ∧ m.parts = [] := by
  generalize (if folded ≤ systemIndex then system.toolsAdded.getD [] else []) = added at htools
  split at htools
  · cases htools
    simp
  · obtain ⟨values, -, htools⟩ := Except.bind_ok htools
    cases htools
    intro m hm
    simp only [map_cons, map_nil, mem_singleton] at hm
    subst hm
    exact ⟨rfl, rfl, rfl⟩
 have hsilent : saidBy (instructionRole model compat) (tools.map read) = [] := by
  unfold saidBy
  rw [flatMap_eq_nil_iff]
  exact fun m hm => (hempty m (mem_filter.mp hm).1).2.2
 have hrole : some (instructionRole model compat) ≠ some "user" := by
  rcases @instructionRole_cases model compat with h | h <;> rw [h] <;> decide
 subst h
 simp only [sentTexts, append_nil]
 generalize (if first then getSystemMessageText system else renderSystemMessageUpdate system) = text
 rw [map_append, saidBy_append, hsilent, nil_append]
 refine ⟨fun m hm => ?_, ?_⟩
 · rcases mem_append.mp hm with hm | hm
   · obtain ⟨hcalls, hr, -⟩ := hempty m hm
     exact ⟨hcalls, by rw [hr]; decide⟩
   · split at hm
     · simp at hm
     · simp only [map_cons, map_nil, mem_singleton] at hm
       subst hm
       exact ⟨rfl, hrole⟩
 · split
   · rfl
   · simp [saidBy, partsOf]

variable (assistant : AssistantMessage)

theorem thoughtMembers_get {key : String} (hkey : key ≠ "content")
 (hfield : key ∉ reasoningFields) : get? (thoughtMembers codec model compat assistant) key
  = get? [("role", Value.string "assistant"), ("content", .null)] key := by
 have hbase : ∀ content : Value, get? [("role", Value.string "assistant"),
  ("content", content)] key = get? [("role", Value.string "assistant"),
  ("content", .null)] key := by
  intro content
  rw [get?_cons, get?_cons, get?_cons, get?_cons, if_neg hkey.symm, if_neg hkey.symm]
 have hspoken : ∀ (text : String) (content : Value), get? (if text = "" then
  [("role", Value.string "assistant"), ("content", content)] else
  insert [("role", Value.string "assistant"), ("content", content)] "content"
   (.string text)) key = get? [("role", Value.string "assistant"),
  ("content", .null)] key := by
  intro text content
  split
  · exact hbase content
  · rw [get?_insert_ne _ _ hkey.symm, hbase]
 unfold thoughtMembers
 dsimp only
 split
 · exact hspoken _ _
 split
 · rw [get?_insert_ne _ _ hkey.symm, hbase]
 · split
   · exact hspoken _ _
   · split
     next field hreasoning =>
      have hmem : field ∈ reasoningFields := by
       obtain ⟨-, hf⟩ := Option.filter_eq_some_iff.mp hreasoning
       exact contains_iff_mem.mp hf
      have hne : field ≠ key := fun he => hfield (he ▸ hmem)
      rw [get?_insert_ne _ _ hne, hspoken]
     · exact hspoken _ _

theorem calledMembers_get :
 get? (calledMembers codec model compat assistant) "role" = some (.string "assistant")
  ∧ get? (calledMembers codec model compat assistant) "tool_calls"
   = if assistant.toolCalls.isEmpty then none
    else some (.array (assistant.toolCalls.map (callValue codec))) := by
 have hrole := @thoughtMembers_get codec model compat assistant "role" (by decide) (by decide)
 have hcalls := @thoughtMembers_get codec model compat assistant "tool_calls" (by decide)
  (by decide)
 have hmembers : ∀ key : String, get? (calledMembers codec model compat assistant) key
  = if key = "reasoning_details" ∧ (preservedDetails codec assistant).isSome then
   (preservedDetails codec assistant).map .array
   else get? (if assistant.toolCalls.isEmpty then
    thoughtMembers codec model compat assistant else
    insert (thoughtMembers codec model compat assistant) "tool_calls"
     (.array (assistant.toolCalls.map (callValue codec)))) key := by
  intro key
  unfold calledMembers
  dsimp only
  split
  next details hdetails =>
   rw [get?_insert, hdetails]
   by_cases hk : key = "reasoning_details"
   · simp [hk]
   · simp [hk, Ne.symm hk]
  next hdetails =>
   simp [hdetails]
 refine ⟨?_, ?_⟩
 · rw [hmembers, if_neg fun h => absurd h.1 (by decide)]
   split
   · exact hrole
   · rw [get?_insert_ne _ _ (by decide)]
     exact hrole
 · rw [hmembers, if_neg fun h => absurd h.1 (by decide)]
   split
   · exact hcalls
   · rw [get?_insert_self]

/-- An assistant message makes its calls; one that is dropped has none. -/
theorem convertAssistant_read :
 (convertAssistant codec model compat assistant = none ∧ assistant.toolCalls = [])
  ∨ ∃ v, convertAssistant codec model compat assistant = some v
   ∧ (read v).role = some "assistant"
   ∧ (read v).calls = assistant.toolCalls.map ToolCall.id := by
 obtain ⟨hrole, hcalls⟩ := @calledMembers_get codec model compat assistant
 have hids : callsOf (if assistant.toolCalls.isEmpty then none
  else some (.array (assistant.toolCalls.map (callValue codec))))
  = assistant.toolCalls.map ToolCall.id := by
  split
  next hempty =>
   rw [List.isEmpty_iff] at hempty
   rw [hempty]
   rfl
  · have hid : (fun call => getStr (some call) "id") ∘ callValue codec = some ∘ ToolCall.id := rfl
    rw [callsOf, filterMap_map, hid, filterMap_eq_map]
 unfold convertAssistant
 generalize hm : calledMembers codec model compat assistant = members at hrole hcalls
 dsimp only
 have hfinal : ∀ b : Bool, get? (if b then
  insert members "reasoning_content" (.string "") else members) "role"
  = some (.string "assistant")
  ∧ get? (if b then
   insert members "reasoning_content" (.string "") else members) "tool_calls"
   = if assistant.toolCalls.isEmpty then none
    else some (.array (assistant.toolCalls.map (callValue codec))) := by
  intro b
  cases b with
  | false => exact ⟨hrole, hcalls⟩
  | true =>
   refine ⟨?_, ?_⟩ <;> simp only [if_true] <;> rw [get?_insert_ne _ _ (by decide)]
   · exact hrole
   · exact hcalls
 obtain ⟨hrole, hcalls⟩ := hfinal (compat.requiresReasoningContentOnAssistantMessages
  && model.reasoning && (get? members "reasoning_content").isNone)
 generalize (if (compat.requiresReasoningContentOnAssistantMessages && model.reasoning
  && (get? members "reasoning_content").isNone) = true then
  insert members "reasoning_content" (.string "") else members) = final at hrole hcalls ⊢
 split
 next hdropped =>
  refine Or.inl ⟨rfl, ?_⟩
  rw [Bool.and_eq_true, hcalls] at hdropped
  by_contra hne
  simp [hne] at hdropped
 · refine Or.inr ⟨_, rfl, ?_, ?_⟩
   · rw [read, getStr, get, hrole]
     rfl
   · rw [read, get, hcalls]
     exact hids

/-! ## Tool results -/

/-- A message that shows the images of tool results. -/
def Attached (m : Wire) : Prop :=
 m.role = some "user" ∧ ∃ images : List Part,
  m.parts = .text "Attached image(s) from tool result:" :: images

theorem toolMessage_read (result : ToolResultMessage) :
 (read (toolMessage compat result)).role = some "tool"
  ∧ (read (toolMessage compat result)).calls = []
  ∧ (read (toolMessage compat result)).answers = [result.toolCallId] := by
 unfold toolMessage
 dsimp only
 generalize (if (!jsBlank (blocksText result.content)) = true then blocksText result.content
  else if result.content.any UserContentBlock.isImage then "(see attached image)"
  else "(no tool output)") = text
 split <;> exact ⟨rfl, rfl, rfl⟩

/-- Tool results are answers first, and then what shows their images. -/
theorem resultsParams_read (results : List ToolResultMessage) :
 ∃ shown, (resultsParams model compat results).1.map read
  = results.map (fun result => read (toolMessage compat result)) ++ shown
  ∧ ∀ m ∈ shown, m.calls = [] ∧ (m.role = some "assistant" ∨ Attached m) := by
 unfold resultsParams
 dsimp only
 split
 · exact ⟨[], by simp, by simp⟩
 refine ⟨((if compat.requiresAssistantAfterToolResult then [processed] else [])
  ++ [attachedImages (resultImages model results)]).map read, by simp, fun m hm => ?_⟩
 rw [map_append, mem_append] at hm
 rcases hm with hm | hm
 · split at hm
   · simp only [map_cons, map_nil, mem_singleton] at hm
     subst hm
     exact ⟨rfl, Or.inl rfl⟩
   · simp at hm
 · simp only [map_cons, map_nil, mem_singleton] at hm
   subst hm
   refine ⟨rfl, Or.inr ⟨rfl, (resultImages model results).filterMap partOf, ?_⟩⟩
   rw [attachedImages, read_message, partsOf, filterMap_cons]
   rfl

theorem filler_read (lastRole : Option String) :
 ∀ m ∈ (filler compat lastRole).map read, m.calls = [] ∧ m.role = some "assistant" := by
 intro m hm
 unfold filler at hm
 split at hm
 · simp only [map_cons, map_nil, mem_singleton] at hm
   subst hm
   exact ⟨rfl, rfl⟩
 · simp at hm

/-! ## The conversation -/

theorem convertRuns_user {user : UserMessage}
 (h : convertRuns codec model compat folded first lastRole systemIndex (.user user :: rest)
  = .ok params) : ∃ role more, convertRuns codec model compat folded false role systemIndex rest
   = .ok more ∧ params = filler compat lastRole ++ (userParams user ++ more) := by
 obtain ⟨more, hmore, h⟩ := Except.bind_ok h
 injection h with h
 exact ⟨_, more, hmore, by rw [← h, append_assoc]⟩

theorem convertRuns_system
 (h : convertRuns codec model compat folded first lastRole systemIndex (.system system :: rest)
  = .ok params) : ∃ own more,
   systemParams codec model compat folded first systemIndex system = .ok own
    ∧ convertRuns codec model compat folded false (some "system") (systemIndex + 1) rest
     = .ok more ∧ params = own ++ more := by
 obtain ⟨own, hown, h⟩ := Except.bind_ok h
 obtain ⟨more, hmore, h⟩ := Except.bind_ok h
 injection h with h
 exact ⟨own, more, hown, hmore, h.symm⟩

theorem convertRuns_results {results : List ToolResultMessage}
 (h : convertRuns codec model compat folded first lastRole systemIndex (.results results :: rest)
  = .ok params) : ∃ role more,
   convertRuns codec model compat folded false role systemIndex rest = .ok more
    ∧ params = (resultsParams model compat results).1 ++ more := by
 obtain ⟨more, hmore, h⟩ := Except.bind_ok h
 injection h with h
 exact ⟨_, more, hmore, h.symm⟩

theorem convertRuns_assistant {assistant : AssistantMessage}
 (h : convertRuns codec model compat folded first lastRole systemIndex
  (.assistant assistant :: rest) = .ok params) : ∃ role more,
   convertRuns codec model compat folded false role systemIndex rest = .ok more
    ∧ ((params = more ∧ assistant.toolCalls = [])
     ∨ ∃ own, params = own :: more ∧ (read own).role = some "assistant"
      ∧ (read own).calls = assistant.toolCalls.map ToolCall.id) := by
 unfold convertRuns at h
 rcases @convertAssistant_read codec model compat assistant with
  ⟨hnone, hcalls⟩ | ⟨own, hsome, hrole, hcalls⟩
 · rw [hnone] at h
   exact ⟨_, params, h, Or.inl ⟨rfl, hcalls⟩⟩
 · rw [hsome] at h
   obtain ⟨more, hmore, h⟩ := Except.bind_ok h
   injection h with h
   exact ⟨_, more, hmore, Or.inr ⟨own, h.symm, hrole, hcalls⟩⟩

/-- The calls of every assistant message are answered by the tool messages behind it. -/
theorem convertRuns_answered {l : List Run} (hl : RunsAnswered l)
 (h : convertRuns codec model compat folded first lastRole systemIndex l = .ok params) :
 AnsweredByRun "tool" (params.map read) := by
 induction l generalizing first lastRole systemIndex params with
 | nil =>
  cases h
  exact .nil _
 | cons run rest ih =>
  cases run with
  | system system =>
   obtain ⟨own, more, hown, hmore, rfl⟩ := convertRuns_system h
   rw [map_append]
   exact (ih hl hmore).append fun m hm => ((systemParams_read hown).1 m hm).1
  | user user =>
   obtain ⟨role, more, hmore, rfl⟩ := convertRuns_user h
   rw [map_append, map_append]
   refine AnsweredByRun.append ?_ fun m hm => (filler_read _ m hm).1
   refine (ih hl hmore).append fun m hm => ?_
   rcases userParams_read user with ⟨hnone, -⟩ | ⟨m', hm', -, hcalls, -⟩
   · rw [hnone] at hm
     simp at hm
   · rw [hm', mem_singleton] at hm
     rw [hm, hcalls]
  | results results =>
   obtain ⟨role, more, hmore, rfl⟩ := convertRuns_results h
   obtain ⟨shown, hshown, hsilent⟩ := @resultsParams_read model compat results
   rw [map_append, hshown, append_assoc]
   refine AnsweredByRun.append ?_ fun m hm => ?_
   · exact (ih hl hmore).append fun m hm => (hsilent m hm).1
   · obtain ⟨result, -, rfl⟩ := mem_map.mp hm
     exact (toolMessage_read result).2.1
  | assistant assistant =>
   obtain ⟨role, more, hmore, ⟨rfl, -⟩ | ⟨own, rfl, -, hcalls⟩⟩ := convertRuns_assistant h
   · exact ih hl.2 hmore
   rw [map_cons]
   refine (ih hl.2 hmore).cons fun id hid => ?_
   rw [hcalls] at hid
   obtain ⟨call, hcall, rfl⟩ := mem_map.mp hid
   obtain ⟨results, after, rfl, hanswered⟩ := hl.1 (ne_nil_of_mem hcall)
   obtain ⟨-, more', -, rfl⟩ := convertRuns_results hmore
   obtain ⟨shown, hshown, -⟩ := @resultsParams_read model compat results
   obtain ⟨result, hresult, heq⟩ := hanswered call hcall
   refine ⟨read (toolMessage compat result), ?_, ?_⟩
   · rw [map_append, hshown, append_assoc, takeWhile_append_of_pos]
     · exact mem_append_left _ (mem_map_of_mem hresult)
     · intro m hm
       obtain ⟨r, -, rfl⟩ := mem_map.mp hm
       simp [(@toolMessage_read compat r).1]
   · rw [(toolMessage_read result).2.2, heq]
     exact mem_singleton_self _

/-- The user messages say what the given ones do, beside those that show images of tool
results. -/
theorem convertRuns_users (l : List Run)
 (h : convertRuns codec model compat folded first lastRole systemIndex l = .ok params) :
 SaysBeside "user" Part.shown Attached (params.map read)
  (shownParts imageAddress (l.filterMap Run.user?)) := by
 induction l generalizing first lastRole systemIndex params with
 | nil =>
  cases h
  exact .nil
 | cons run rest ih =>
  cases run with
  | system system =>
   obtain ⟨own, more, hown, hmore, rfl⟩ := convertRuns_system h
   rw [map_append]
   exact (ih hmore).append fun m hm => Or.inl ((systemParams_read hown).1 m hm).2
  | user user =>
   obtain ⟨role, more, hmore, rfl⟩ := convertRuns_user h
   rw [map_append, map_append]
   refine SaysBeside.append ?_ fun m hm => Or.inl (by simp [(filler_read _ m hm).2])
   have hparts : shownParts imageAddress ((Run.user user :: rest).filterMap Run.user?)
    = (user.content.parts imageAddress).filter Part.shown
     ++ shownParts imageAddress (rest.filterMap Run.user?) := by
    simp [shownParts, Run.user?]
   rw [hparts]
   rcases userParams_read user with ⟨hnone, hshown⟩ | ⟨m, hm, hrole, -, hshown⟩
   · rw [hnone, hshown]
     exact ih hmore
   · rw [hm, ← hshown]
     exact .own hrole (ih hmore)
  | results results =>
   obtain ⟨role, more, hmore, rfl⟩ := convertRuns_results h
   obtain ⟨shown, hshown, hsilent⟩ := @resultsParams_read model compat results
   rw [map_append, hshown, append_assoc]
   refine SaysBeside.append ?_ fun m hm => ?_
   · refine (ih hmore).append fun m hm => ?_
     exact (hsilent m hm).2.imp (fun hrole => by simp [hrole]) id
   · obtain ⟨result, -, rfl⟩ := mem_map.mp hm
     exact Or.inl (by simp [(@toolMessage_read compat result).1])
  | assistant assistant =>
   obtain ⟨role, more, hmore, ⟨rfl, -⟩ | ⟨own, rfl, hrole, -⟩⟩ := convertRuns_assistant h
   · exact ih hmore
   · exact .other (by simp [hrole]) (ih hmore)

theorem convertRuns_systems (l : List Run)
 (h : convertRuns codec model compat folded first lastRole systemIndex l = .ok params) :
 saidBy (instructionRole model compat) (params.map read) = (sentTexts first l).map .text := by
 have hother : ∀ role : String, role ≠ "developer" → role ≠ "system" →
  some role ≠ some (instructionRole model compat) := by
  intro role h1 h2 he
  injection he with he
  rcases @instructionRole_cases model compat with hr | hr
  · exact h1 (he.trans hr)
  · exact h2 (he.trans hr)
 induction l generalizing first lastRole systemIndex params with
 | nil =>
  cases h
  simp [sentTexts]
 | cons run rest ih =>
  cases run with
  | system system =>
   obtain ⟨own, more, hown, hmore, rfl⟩ := convertRuns_system h
   rw [map_append, saidBy_append, (systemParams_read hown).2, ih hmore]
   simp only [sentTexts, append_nil, map_append]
  | user user =>
   obtain ⟨role, more, hmore, rfl⟩ := convertRuns_user h
   rw [map_append, map_append, saidBy_append, saidBy_append, ih hmore, saidBy_other fun m hm => by
     rw [(filler_read _ m hm).2]; exact hother _ (by decide) (by decide),
    saidBy_other fun m hm => ?_]
   · rfl
   · rcases userParams_read user with ⟨hnone, -⟩ | ⟨m', hm', hrole, -⟩
     · rw [hnone] at hm
       simp at hm
     · rw [hm', mem_singleton] at hm
       rw [hm, hrole]
       exact hother _ (by decide) (by decide)
  | results results =>
   obtain ⟨role, more, hmore, rfl⟩ := convertRuns_results h
   obtain ⟨shown, hshown, hsilent⟩ := @resultsParams_read model compat results
   rw [map_append, hshown, saidBy_append, ih hmore, saidBy_other fun m hm => ?_]
   · rfl
   · rcases mem_append.mp hm with hm | hm
     · obtain ⟨result, -, rfl⟩ := mem_map.mp hm
       rw [(toolMessage_read result).1]
       exact hother _ (by decide) (by decide)
     · rcases (hsilent m hm).2 with hrole | hattached
       · rw [hrole]
         exact hother _ (by decide) (by decide)
       · rw [hattached.1]
         exact hother _ (by decide) (by decide)
  | assistant assistant =>
   obtain ⟨role, more, hmore, ⟨rfl, -⟩ | ⟨own, rfl, hrole, -⟩⟩ := convertRuns_assistant h
   · exact ih hmore
   · rw [map_cons, saidBy_cons, if_neg, nil_append, ih hmore]
     · rfl
     · rw [hrole]
       exact hother _ (by decide) (by decide)

end

end Bake.Ai.Completions
