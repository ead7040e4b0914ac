import Bake.Ai.ToolCallIds
import Bake.Ai.Wire

/-!
# The messages of an Anthropic request

`convert_messages` of `anthropic_messages.rs` and what `build_params` hands it. System
messages are held back until the next assistant message or the end, so that none stands
between the calls of an assistant message and the user message with their results.
-/

open List

namespace Bake.Ai.Anthropic

open Bake.Json
open UserContentBlock (isImage part shown_part)

def claudeCodeTools : List String :=
 ["Read", "Write", "Edit", "Bash", "Grep", "Glob", "AskUserQuestion", "EnterPlanMode",
  "ExitPlanMode", "KillShell", "NotebookEdit", "Skill", "Task", "TaskOutput", "TodoWrite",
  "WebFetch", "WebSearch"]

def eqIgnoreAsciiCase (a b : String) : Bool := a.toList.map Char.toLower = b.toList.map Char.toLower

def toClaudeCodeName (name : String) : String :=
 (claudeCodeTools.find? fun tool => eqIgnoreAsciiCase tool name).getD name

/-! ## Blocks -/

def textBlock (text : String) : Value := .object [("type", .string "text"), ("text", .string text)]

def imageSource (image : ImageContent) : Value :=
 .object [("type", .string "base64"), ("media_type", .string image.mimeType),
  ("data", .string image.data)]

def contentBlock : UserContentBlock → Value
 | .text text => textBlock text.text
 | .image image => .object [("type", .string "image"), ("source", imageSource image)]

def message (role : String) (content : Value) : Value :=
 .object [("role", .string role), ("content", content)]

/-- `convert_content_blocks`: the content of a tool result. -/
def convertContentBlocks (content : List UserContentBlock) : Value :=
 if !content.any isImage then .string (blocksText content)
 else
  let blocks := content.map contentBlock
  .array (if content.all isImage then textBlock "(see attached image)" :: blocks
   else blocks)

def systemParams (system : SystemMessage) : List Value :=
 let text := renderSystemMessageUpdate system
 if text = "" then [] else [message "system" (.array [textBlock text])]

def userParams (user : UserMessage) : List Value :=
 match user.content with
 | .text text => if isBlank text then [] else [message "user" (.string text)]
 | .blocks blocks =>
  let content := (blocks.filter fun block => !UserContentBlock.isBlankText block).map contentBlock
  if content.isEmpty then [] else [message "user" (.array content)]

section Assistant

variable (isOauth allowEmptySignature : Bool)

/-- The blocks of a thinking block: replayed, as text, or none. -/
def thinkingParams (thinking : ThinkingContent) : List Value :=
 if thinking.redacted = some true then
  [.object [("type", .string "redacted_thinking"),
   ("data", .string (thinking.thinkingSignature.getD ""))]]
 else
  match thinking.thinkingSignature.filter fun signature => !isBlank signature with
  | some signature =>
   [.object [("type", .string "thinking"), ("thinking", .string thinking.thinking),
    ("signature", .string signature)]]
  | none =>
   if isBlank thinking.thinking then []
   else if allowEmptySignature then
    [.object [("type", .string "thinking"), ("thinking", .string thinking.thinking),
     ("signature", .string "")]]
   else [textBlock thinking.thinking]

def assistantBlock : AssistantContentBlock → List Value
 | .text text => if isBlank text.text then [] else [textBlock text.text]
 | .thinking thinking => thinkingParams allowEmptySignature thinking
 | .toolCall call =>
  [.object [("type", .string "tool_use"), ("id", .string call.id),
   ("name", .string (if isOauth then toClaudeCodeName call.name else call.name)),
   ("input", .object call.arguments)]]

def assistantParams (assistant : AssistantMessage) : List Value :=
 let blocks := assistant.content.flatMap (assistantBlock isOauth allowEmptySignature)
 if blocks.isEmpty then [] else [message "assistant" (.array blocks)]

def resultBlock (result : ToolResultMessage) : Value :=
 .object [("type", .string "tool_result"), ("tool_use_id", .string result.toolCallId),
  ("content", convertContentBlocks result.content), ("is_error", .bool result.isError)]

def resultsParam (results : List ToolResultMessage) : Value :=
 message "user" (.array (results.map resultBlock))

/-- The loop of `convert_messages`, with the system messages held back. -/
def convertRuns : List Value → List Run → List Value
 | pendingSystem, [] => pendingSystem
 | pendingSystem, .system system :: rest => convertRuns (pendingSystem ++ systemParams system) rest
 | pendingSystem, .user user :: rest => userParams user ++ convertRuns pendingSystem rest
 | pendingSystem, .assistant assistant :: rest =>
  pendingSystem ++ assistantParams isOauth allowEmptySignature assistant ++ convertRuns [] rest
 | pendingSystem, .results results :: rest => resultsParam results :: convertRuns pendingSystem rest

end Assistant

/-! ## The cache mark -/

/-- The block kinds a cache mark may stand on. -/
def cacheable : List String := ["text", "image", "tool_result", "tool_addition", "tool_removal"]

def markContent (control : Value) : Value → Value
 | .array blocks =>
  match blocks.getLast? with
  | some (.object block) =>
   if (typeOf (some (.object block))).any cacheable.contains then
    .array (blocks.dropLast ++ [.object (OrdMap.insert block "cache_control" control)])
   else .array blocks
  | _ => .array blocks
 | .string text =>
  .array [.object [("type", .string "text"), ("text", .string text), ("cache_control", control)]]
 | content => content

def markMessage (control : Value) : Value → Value
 | .object members =>
  if (strMember members "role").any ["user", "system"].contains then
   match OrdMap.get? members "content" with
   | some content => .object (OrdMap.insert members "content" (markContent control content))
   | none => .object members
  else .object members
 | value => value

def withCacheControl (control : Option Value) (params : List Value) : List Value :=
 match control, params.getLast? with
 | some control, some last => params.dropLast ++ [markMessage control last]
 | _, _ => params

def convertMessages (messages : List Message) (isOauth : Bool) (cacheControl : Option Value)
 (allowEmptySignature : Bool) : List Value :=
 withCacheControl cacheControl (convertRuns isOauth allowEmptySignature [] (runs messages))

/-- The prompt and the messages of `build_params`: a leading system message is the prompt. -/
def buildMessages (clock : Nat → Int) (messages : List Message) (model : Model) (isOauth : Bool)
 (cacheControl : Option Value) (allowEmptySignature : Bool) : String × List Value :=
 let normalize := fun id _ _ => normalizeToolCallId id
 let transformed := transformMessages clock messages model (some normalize)
 let initial := messages.head?.bind Message.system?
 ((initial.map getSystemMessageText).getD "",
  convertMessages (if initial.isSome then transformed.drop 1 else transformed) isOauth
   cacheControl allowEmptySignature)

/-! ## Reading a message -/

def blockId (kind key : String) (block : Value) : Option String :=
 if typeOf (some block) = some kind then getStr (some block) key else none

def blockPart (block : Value) : Option Part :=
 if typeOf (some block) = some "text" then (getStr (some block) "text").map .text
 else if typeOf (some block) = some "image" then (get (some block) "source").map .image
 else none

def readContent (role : Option String) : Option Value → Wire
 | some (.array blocks) =>
  { role
    calls := blocks.filterMap (blockId "tool_use" "id")
    answers := blocks.filterMap (blockId "tool_result" "tool_use_id")
    parts := blocks.filterMap blockPart }
 | some (.string text) => { role, calls := [], answers := [], parts := [.text text] }
 | _ => { role, calls := [], answers := [], parts := [] }

/-- What a message says. -/
def read (param : Value) : Wire :=
 readContent (getStr (some param) "role") (get (some param) "content")

/-! ## What the converted messages say -/

@[simp] theorem read_array (role : String) (blocks : List Value) :
 read (message role (.array blocks))
  = { role := some role
      calls := blocks.filterMap (blockId "tool_use" "id")
      answers := blocks.filterMap (blockId "tool_result" "tool_use_id")
      parts := blocks.filterMap blockPart } := rfl

@[simp] theorem read_string (role text : String) : read (message role (.string text))
  = { role := some role, calls := [], answers := [], parts := [.text text] } := rfl

@[simp] theorem blockPart_textBlock (text : String) : blockPart (textBlock text) = some (.text text) :=
 rfl

theorem calls_contentBlock (block : UserContentBlock) :
 blockId "tool_use" "id" (contentBlock block) = none := by
 cases block <;> rfl

theorem userParams_read (user : UserMessage) :
 (∀ m ∈ (userParams user).map read, m.calls = [] ∧ m.role = some "user")
  ∧ saidBy "user" ((userParams user).map read)
   = (user.content.parts imageSource).filter Part.shown := by
 unfold userParams
 split
 next text htext =>
  by_cases hb : isBlank text <;> simp [saidBy, htext, UserContent.parts, Part.shown, hb]
 next blocks hblocks =>
  rw [hblocks]
  have hparts : ((blocks.filter fun block => !block.isBlankText).map contentBlock).filterMap
   blockPart = ((UserContent.blocks blocks).parts imageSource).filter Part.shown := by
   have hpart : blockPart ∘ contentBlock = some ∘ part imageSource := by
    funext block
    cases block <;> rfl
   have hshown : Part.shown ∘ part imageSource
    = fun block => !block.isBlankText := funext (shown_part imageSource)
   rw [filterMap_map, hpart, filterMap_eq_map, UserContent.parts, filter_map, hshown]
  have hcalls : ((blocks.filter fun block => !block.isBlankText).map contentBlock).filterMap
   (blockId "tool_use" "id") = [] := by
   rw [filterMap_eq_nil_iff]
   intro v hv
   obtain ⟨block, -, rfl⟩ := mem_map.mp hv
   exact calls_contentBlock block
  dsimp only
  rw [← hparts]
  split
  next hempty =>
   rw [List.isEmpty_iff] at hempty
   simp [hempty]
  · simp [saidBy, hcalls]

theorem systemParams_read (system : SystemMessage) :
 (∀ m ∈ (systemParams system).map read, m.calls = [] ∧ m.role = some "system")
  ∧ saidBy "system" ((systemParams system).map read) = (updateTexts [system]).map .text := by
 unfold systemParams updateTexts
 by_cases h : renderSystemMessageUpdate system = ""
 · simp [h]
 · simp only [h, if_false, map_cons, map_nil, filter_cons]
   simp [saidBy, h]
   rfl

theorem assistantParams_read (isOauth allowEmptySignature : Bool) (assistant : AssistantMessage) :
 (assistantParams isOauth allowEmptySignature assistant).map read = [] ∧ assistant.toolCalls = []
  ∨ ∃ m, (assistantParams isOauth allowEmptySignature assistant).map read = [m]
   ∧ m.role = some "assistant" ∧ m.calls = assistant.toolCalls.map ToolCall.id := by
 have hcalls : ∀ content : List AssistantContentBlock,
  (content.flatMap (assistantBlock isOauth allowEmptySignature)).filterMap
   (blockId "tool_use" "id")
  = (content.filterMap AssistantContentBlock.call?).map ToolCall.id := by
  intro content
  induction content with
  | nil => rfl
  | cons block content ih =>
   rw [flatMap_cons, filterMap_append, ih]
   cases block with
   | text text =>
    simp only [assistantBlock]
    split <;> rfl
   | thinking thinking =>
    simp only [assistantBlock, thinkingParams]
    split
    · rfl
    · split
      · rfl
      · split
        · rfl
        · split <;> rfl
   | toolCall call => rfl
 have h := hcalls assistant.content
 unfold assistantParams
 dsimp only
 split
 next hempty =>
  rw [List.isEmpty_iff] at hempty
  rw [hempty] at h
  exact Or.inl ⟨rfl, map_eq_nil_iff.mp h.symm⟩
 · exact Or.inr ⟨_, rfl, rfl, h⟩

theorem resultsParam_read (results : List ToolResultMessage) : read (resultsParam results)
  = { role := some "user"
      calls := []
      answers := results.map ToolResultMessage.toolCallId
      parts := [] } := by
 have h : ∀ (β : Type) (f : Value → Option β) (g : ToolResultMessage → Option β),
  (∀ r, f (resultBlock r) = g r) →
  (results.map resultBlock).filterMap f = results.filterMap g := by
  intro β f g hfg
  rw [filterMap_map]
  congr 1
  funext r
  exact hfg r
 unfold resultsParam
 rw [read_array, h _ _ (fun _ => none) fun _ => rfl, h _ _ (fun r => some r.toolCallId) fun _ => rfl,
  h _ _ (fun _ => none) fun _ => rfl]
 simp

/-! ## The conversation -/

variable (isOauth allowEmptySignature : Bool)

/-- The calls of every assistant message are answered by the message behind it. -/
theorem convertRuns_answered {l : List Run} (h : RunsAnswered l) {pending : List Value}
 (hp : ∀ m ∈ pending.map read, m.calls = []) :
 AnsweredNext ((convertRuns isOauth allowEmptySignature pending l).map read) := by
 induction l generalizing pending with
 | nil =>
  have := AnsweredNext.nil.append hp
  simpa [convertRuns] using this
 | cons run rest ih =>
  cases run with
  | system system =>
   refine ih h fun m hm => ?_
   rw [map_append, mem_append] at hm
   exact hm.elim (hp m) fun hm => ((systemParams_read system).1 m hm).1
  | user user =>
   rw [convertRuns, map_append]
   exact (ih h hp).append fun m hm => ((userParams_read user).1 m hm).1
  | results results =>
   rw [convertRuns, map_cons, resultsParam_read]
   exact (ih h hp).cons fun hc => absurd rfl hc
  | assistant assistant =>
   have hrest := @ih h.2 [] (by simp)
   rw [convertRuns, append_assoc, map_append, map_append]
   refine AnsweredNext.append ?_ hp
   rcases assistantParams_read isOauth allowEmptySignature assistant with
    ⟨hnone, -⟩ | ⟨m, hm, -, hmcalls⟩
   · rw [hnone]
     exact hrest
   · rw [hm]
     refine hrest.cons fun hc => ?_
     obtain ⟨results, more, rfl, hanswered⟩ := h.1 fun hnil => hc (by simp [hmcalls, hnil])
     refine ⟨_, _, by rw [convertRuns, map_cons, resultsParam_read], rfl, ?_⟩
     intro id hid
     rw [hmcalls] at hid
     obtain ⟨call, hcall, rfl⟩ := mem_map.mp hid
     obtain ⟨result, hresult, heq⟩ := hanswered call hcall
     exact mem_map.mpr ⟨result, hresult, heq⟩

theorem saidBy_assistantParams {role : String} (hne : some "assistant" ≠ some role)
 (assistant : AssistantMessage) :
 saidBy role ((assistantParams isOauth allowEmptySignature assistant).map read) = [] := by
 rcases assistantParams_read isOauth allowEmptySignature assistant with
  ⟨hnone, -⟩ | ⟨m, hm, hrole, -⟩
 · rw [hnone, saidBy_nil]
 · exact saidBy_other fun m' hm' => by rw [hm, mem_singleton] at hm'; rwa [hm', hrole]

theorem convertRuns_users (l : List Run) {pending : List Value}
 (hp : ∀ m ∈ pending.map read, m.role = some "system") :
 saidBy "user" ((convertRuns isOauth allowEmptySignature pending l).map read)
  = shownParts imageSource (l.filterMap Run.user?) := by
 induction l generalizing pending with
 | nil => exact saidBy_other fun m hm => by simp [hp m hm]
 | cons run rest ih =>
  cases run with
  | system system =>
   refine ih fun m hm => ?_
   rw [map_append, mem_append] at hm
   exact hm.elim (hp m) fun hm => ((systemParams_read system).1 m hm).2
  | user user =>
   rw [convertRuns, map_append, saidBy_append, ih hp, (userParams_read user).2]
   simp [shownParts, Run.user?]
  | results results =>
   rw [convertRuns, map_cons, saidBy_cons, resultsParam_read, ih hp]
   simp [filterMap_cons, Run.user?]
  | assistant assistant =>
   rw [convertRuns, map_append, map_append, saidBy_append, saidBy_append,
    saidBy_other fun m hm => by simp [hp m hm], saidBy_assistantParams _ _ (by decide),
    @ih [] (by simp)]
   simp [filterMap_cons, Run.user?]

/-- The system messages say what is held back and what the given ones add. -/
theorem convertRuns_systems (l : List Run) (pending : List Value) :
 saidBy "system" ((convertRuns isOauth allowEmptySignature pending l).map read)
  = saidBy "system" (pending.map read) ++ (updateTexts (l.filterMap Run.system?)).map .text := by
 induction l generalizing pending with
 | nil => simp [convertRuns, updateTexts]
 | cons run rest ih =>
  cases run with
  | system system =>
   rw [convertRuns, ih, map_append, saidBy_append, (systemParams_read system).2]
   simp [updateTexts, Run.system?, filter_cons]
   split <;> simp
  | user user =>
   rw [convertRuns, map_append, saidBy_append, ih,
    saidBy_other fun m hm => by simp [((userParams_read user).1 m hm).2]]
   simp [filterMap_cons, Run.system?]
  | results results =>
   rw [convertRuns, map_cons, saidBy_cons, resultsParam_read, ih]
   simp [filterMap_cons, Run.system?]
  | assistant assistant =>
   rw [convertRuns, map_append, map_append, saidBy_append, saidBy_append, ih,
    saidBy_assistantParams _ _ (by decide)]
   simp [filterMap_cons, Run.system?]

/-! ## A cache mark says nothing -/

theorem blockPart_mark (block : JsonObject) (control : Value) :
 blockPart (.object (OrdMap.insert block "cache_control" control)) = blockPart (.object block) := by
 unfold blockPart
 rw [typeOf_insert_ne _ _ (by decide), getStr_insert_ne _ _ (by decide),
  get_insert_ne _ _ (by decide)]

theorem blockId_mark (kind : String) {key : String} (hkey : key ≠ "cache_control")
 (block : JsonObject) (control : Value) :
 blockId kind key (.object (OrdMap.insert block "cache_control" control))
  = blockId kind key (.object block) := by
 unfold blockId
 rw [typeOf_insert_ne _ _ (by decide), getStr_insert_ne _ _ hkey.symm]

theorem readContent_mark (role : Option String) (control content : Value) :
 readContent role (some (markContent control content)) = readContent role (some content) := by
 cases content with
 | array blocks =>
  rw [markContent]
  split
  next block hlast =>
   split
   · obtain ⟨front, rfl⟩ := getLast?_eq_some_iff.mp hlast
     simp only [readContent, dropLast_concat, filterMap_append, filterMap_cons, filterMap_nil]
     rw [blockPart_mark, blockId_mark _ (by decide), blockId_mark _ (by decide)]
   · rfl
  · rfl
 | _ => rfl

theorem read_markMessage (control param : Value) : read (markMessage control param) = read param := by
 cases param with
 | object members =>
  simp only [markMessage]
  split
  · split
    next content hcontent =>
     have hget : get (some (.object members)) "content" = some content := hcontent
     have hset : get (some (.object (OrdMap.insert members "content"
      (markContent control content)))) "content" = some (markContent control content) := by
      simp [get]
     unfold read
     rw [hget, hset, getStr_insert_ne _ _ (by decide), readContent_mark]
    · rfl
  · rfl
 | _ => rfl

theorem read_withCacheControl (control : Option Value) (params : List Value) :
 (withCacheControl control params).map read = params.map read := by
 unfold withCacheControl
 split
 next control last hlast =>
  obtain ⟨front, rfl⟩ := getLast?_eq_some_iff.mp hlast
  simp [read_markMessage]
 · rfl

/-- **An Anthropic request answers its calls and says everything once.** -/
theorem convertMessages_spec {messages : List Message} (h : CallsAnswered messages)
 (cacheControl : Option Value) :
 AnsweredNext ((convertMessages messages isOauth cacheControl allowEmptySignature).map read)
  ∧ saidBy "user" ((convertMessages messages isOauth cacheControl allowEmptySignature).map read)
   = shownParts imageSource (userMessages messages)
  ∧ saidBy "system" ((convertMessages messages isOauth cacheControl allowEmptySignature).map read)
   = (updateTexts (systemMessages messages)).map .text := by
 unfold convertMessages
 rw [read_withCacheControl]
 refine ⟨convertRuns_answered _ _ (runsAnswered h) (by simp), ?_, ?_⟩
 · rw [convertRuns_users _ _ _ (by simp), runs_user]
 · rw [convertRuns_systems, runs_system]
   simp

end Bake.Ai.Anthropic
