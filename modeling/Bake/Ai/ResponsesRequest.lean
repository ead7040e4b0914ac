import Bake.Ai.ToolCallIds
import Bake.Ai.Wire

/-!
# The input of a Responses request

`convert_responses_messages`. Every block of an assistant message is an input item of its
own, and so is every tool result; the id of a call is the part before its `|`. A thinking
block with a signature is replayed: the signature is the item, as it was received.
-/

open List Or

namespace Bake.Ai.Responses

open Bake.Json
open AssistantContentBlock (call?)

structure ConvertResponsesMessagesOptions where
 /-- Whether the leading system message is sent; it is when nothing says so. -/
 includeSystemPrompt : Option Bool
 /-- Whether later system messages are sent in place. -/
 supportsMidConvoSystemMessages : Bool

section Convert

variable (codec : Codec)

/-- `parse_text_signature`: the id a text had, and its phase. -/
def parseTextSignature (signature : Option String) : Option (String × Option String) :=
 match signature.filter (· ≠ "") with
 | none => none
 | some signature =>
  let parsed := if signature.toList.head? = some '\x7b' then codec.fromText signature else none
  if ((get parsed "v").bind asI64) = some 1 then
   match getStr parsed "id" with
   | some id =>
    some (id, (getStr parsed "phase").filter fun phase =>
     phase = "commentary" || phase = "final_answer")
   | none => some (signature, none)
  else some (signature, none)

def imageAddress (image : ImageContent) : Value :=
 .string ("data:" ++ image.mimeType ++ ";base64," ++ image.data)

def inputText (text : String) : Value :=
 .object [("type", .string "input_text"), ("text", .string text)]

def inputImage (image : ImageContent) : Value :=
 .object [("type", .string "input_image"), ("detail", .string "auto"),
  ("image_url", imageAddress image)]

def inputPart : UserContentBlock → Value
 | .text text => inputText text.text
 | .image image => inputImage image

def convertToolResultOutput (model : Model) (content : List UserContentBlock) : Value :=
 let text := blocksText content
 let images := content.filter UserContentBlock.isImage
 if images.isEmpty || !model.acceptsImages then
  .string (if !jsBlank text then text
   else if !images.isEmpty then "(see attached image)"
   else "(no tool output)")
 else .array ((if jsBlank text then [] else [inputText text]) ++ images.map inputPart)

def roleItem (role : String) (content : Value) : Value :=
 .object [("role", .string role), ("content", content)]

/-! ## An assistant message -/

def fallbackId (msgIndex textBlockIndex : Nat) : String :=
 if textBlockIndex = 0 then "msg_pi_" ++ toString msgIndex
 else "msg_pi_" ++ toString msgIndex ++ "_" ++ toString textBlockIndex

def textId (text : TextContent) (msgIndex textBlockIndex : Nat) : String × Option String :=
 match parseTextSignature codec text.textSignature with
 | none => (fallbackId msgIndex textBlockIndex, none)
 | some (id, phase) =>
  if id = "" then (fallbackId msgIndex textBlockIndex, phase)
  else (if 64 < utf16Length id then "msg_" ++ shortHash id else id, phase)

def textItem (text : TextContent) (msgIndex textBlockIndex : Nat) : Value :=
 let (id, phase) := textId codec text msgIndex textBlockIndex
 let item := [("type", Value.string "message"), ("role", .string "assistant"),
  ("content", .array [.object [("type", .string "output_text"), ("text", .string text.text),
   ("annotations", .array [])]]),
  ("status", .string "completed"), ("id", .string id)]
 match phase with
 | some phase => .object (item ++ [("phase", .string phase)])
 | none => .object item

def callItem (model : Model) (assistant : AssistantMessage) (call : ToolCall) : Value :=
 let differentModel := assistant.provider = model.provider ∧ assistant.api = model.api
  ∧ assistant.model ≠ model.id
 let itemId := (itemIdOf call.id).filter fun item => ¬ differentModel ∧ item.startsWith "fc_"
 let id : JsonObject := match itemId with
  | some itemId => [("id", .string itemId)]
  | none => []
 let item := [("type", Value.string "function_call")] ++ id
  ++ [("call_id", .string (callIdOf call.id)), ("name", .string call.name),
   ("arguments", .string (codec.toText (.object call.arguments)))]
 match (if assistant.sameModel model then call.namespace_ else none) with
 | some space => .object (item ++ [("namespace", .string space)])
 | none => .object item

def assistantItems (model : Model) (assistant : AssistantMessage) (msgIndex : Nat) :
 Nat → List AssistantContentBlock → Except String (List Value)
 | _, [] => pure []
 | textBlockIndex, .thinking thinking :: rest =>
  match thinking.thinkingSignature.filter (· ≠ "") with
  | none => assistantItems model assistant msgIndex textBlockIndex rest
  | some signature =>
   match codec.fromText signature with
   | none => throw "Invalid reasoning item in thinking signature"
   | some item => do
    let items ← assistantItems model assistant msgIndex textBlockIndex rest
    pure (item :: items)
 | textBlockIndex, .text text :: rest => do
  let items ← assistantItems model assistant msgIndex (textBlockIndex + 1) rest
  pure (textItem codec text msgIndex textBlockIndex :: items)
 | textBlockIndex, .toolCall call :: rest => do
  let items ← assistantItems model assistant msgIndex textBlockIndex rest
  pure (callItem codec model assistant call :: items)

/-! ## The loop -/

def instructionRole (model : Model) : String :=
 if model.reasoning && model.supportsDeveloperRole ≠ some false then "developer" else "system"

def resultItem (model : Model) (result : ToolResultMessage) : Value :=
 .object [("type", .string "function_call_output"),
  ("call_id", .string (callIdOf result.toolCallId)),
  ("output", convertToolResultOutput model result.content)]

def userItems (user : UserMessage) : List Value :=
 match user.content with
 | .text text => [roleItem "user" (.array [inputText text])]
 | .blocks blocks =>
  if blocks.isEmpty then [] else [roleItem "user" (.array (blocks.map inputPart))]

/-- The items of a system message, the one the request opens with or a later one. -/
def systemItems (model : Model) (options : ConvertResponsesMessagesOptions) (leading : Bool)
 (system : SystemMessage) : List Value :=
 if !leading || options.includeSystemPrompt.getD true then
  let text := if leading then getSystemMessageText system else renderSystemMessageUpdate system
  if text = "" then [] else [roleItem (instructionRole model) (.string text)]
 else []

def messageItems (model : Model) (options : ConvertResponsesMessagesOptions) (first : Bool)
 (msgIndex : Nat) : Message → Except String (List Value)
 | .system system => pure (systemItems model options first system)
 | .user user => pure (userItems user)
 | .assistant assistant =>
  assistantItems codec model assistant msgIndex 0 assistant.content
 | .toolResult result => pure [resultItem model result]

/-- Whether a message counts for the ids of the texts behind it: not the one the request
opens with when it is a system message, nor a user or assistant message without items. -/
def counts (first : Bool) (items : List Value) : Message → Bool
 | .system _ => !first
 | .toolResult _ => true
 | _ => !items.isEmpty

/-- The loop of `convert_responses_messages`: the items of each message. -/
def convertFrom (model : Model) (options : ConvertResponsesMessagesOptions) :
 Bool → Nat → List Message → Except String (List (List Value))
 | _, _, [] => pure []
 | first, msgIndex, message :: rest => do
  let items ← messageItems codec model options first msgIndex message
  let more ← convertFrom model options false
   (if counts first items message then msgIndex + 1 else msgIndex) rest
  pure (items :: more)

def transformedMessages (clock : Nat → Int) (model : Model) (context : List Message)
 (allowedToolCallProviders : List String) (options : ConvertResponsesMessagesOptions) :
 List Message :=
 transformMessages clock (resolveTranscript context options.supportsMidConvoSystemMessages) model
  (some fun id model source => normalizeResponsesToolCallId allowedToolCallProviders model id source)

def convertResponsesMessages (clock : Nat → Int) (model : Model) (context : List Message)
 (allowedToolCallProviders : List String) (options : ConvertResponsesMessagesOptions) :
 Except String (List Value) := do
 let items ← convertFrom codec model options true 0
  (transformedMessages clock model context allowedToolCallProviders options)
 pure items.flatten

end Convert

/-! ## Reading an item -/

def callIdIn (kind : String) (item : Value) : List String :=
 if typeOf (some item) = some kind then (getStr (some item) "call_id").toList else []

def partOf (part : Value) : Option Part :=
 if typeOf (some part) = some "input_text" then (getStr (some part) "text").map .text
 else if typeOf (some part) = some "input_image" then (get (some part) "image_url").map .image
 else none

/-- What a content shows. -/
def partsOf : Option Value → List Part
 | some (.string text) => [.text text]
 | some (.array parts) => parts.filterMap partOf
 | _ => []

def read (item : Value) : Wire :=
 { role := getStr (some item) "role"
   calls := callIdIn "function_call" item
   answers := callIdIn "function_call_output" item
   parts := partsOf (get (some item) "content") }

/-! ## What is replayed -/

def replayedItem (codec : Codec) : AssistantContentBlock → Option Value
 | .thinking thinking => (thinking.thinkingSignature.filter (· ≠ "")).bind codec.fromText
 | _ => none

def replayed (codec : Codec) : Message → List Value
 | .assistant assistant => assistant.content.filterMap (replayedItem codec)
 | _ => []

section

variable {codec : Codec} {model : Model} {options : ConvertResponsesMessagesOptions}

theorem textItem_read (text : TextContent) (msgIndex textBlockIndex : Nat) :
 (read (textItem codec text msgIndex textBlockIndex)).role = some "assistant"
  ∧ (read (textItem codec text msgIndex textBlockIndex)).calls = [] := by
 unfold textItem
 dsimp only
 split <;> exact ⟨rfl, rfl⟩

theorem callItem_read (assistant : AssistantMessage) (call : ToolCall) :
 (read (callItem codec model assistant call)).role = none
  ∧ (read (callItem codec model assistant call)).calls = [callIdOf call.id] := by
 unfold callItem
 dsimp only
 split <;> split <;> exact ⟨rfl, rfl⟩

variable {assistant : AssistantMessage} {items : List Value} {msgIndex : Nat} {first : Bool}
 {chunks : List (List Value)}

/-- The items of an assistant message are replayed, or say nothing for another role and call
only its calls. -/
theorem assistantItems_read (content : List AssistantContentBlock) {textBlockIndex : Nat}
 (h : assistantItems codec model assistant msgIndex textBlockIndex content = .ok items) :
 ∀ item ∈ items, item ∈ content.filterMap (replayedItem codec)
  ∨ ((read item).role = none ∨ (read item).role = some "assistant")
   ∧ ∀ id ∈ (read item).calls, ∃ call ∈ content.filterMap call?, id = callIdOf call.id := by
 induction content generalizing textBlockIndex items with
 | nil =>
  cases h
  simp
 | cons block rest ih =>
  have hlift : ∀ {more : List Value}, (∀ item ∈ more, item ∈ rest.filterMap (replayedItem codec)
    ∨ ((read item).role = none ∨ (read item).role = some "assistant")
     ∧ ∀ id ∈ (read item).calls, ∃ call ∈ rest.filterMap call?, id = callIdOf call.id) →
   ∀ item ∈ more, item ∈ (block :: rest).filterMap (replayedItem codec)
    ∨ ((read item).role = none ∨ (read item).role = some "assistant")
     ∧ ∀ id ∈ (read item).calls, ∃ call ∈ (block :: rest).filterMap call?,
       id = callIdOf call.id := by
   intro more hmore item hitem
   rcases hmore item hitem with hreplayed | ⟨hrole, hcalls⟩
   · exact inl ((sublist_cons_self block rest).filterMap _ |>.subset hreplayed)
   · refine inr ⟨hrole, fun id hid => ?_⟩
     obtain ⟨call, hcall, he⟩ := hcalls id hid
     exact ⟨call, (sublist_cons_self block rest).filterMap _ |>.subset hcall, he⟩
  cases block with
  | thinking thinking =>
   unfold assistantItems at h
   split at h
   · exact hlift (ih h)
   next signature hsignature =>
    split at h
    · simp [throw, throwThe, MonadExceptOf.throw] at h
    next value hvalue =>
     obtain ⟨more, hmore, h⟩ := Except.bind_ok h
     cases h
     intro item hitem
     rcases mem_cons.mp hitem with rfl | hitem
     · refine inl (mem_filterMap.mpr ⟨_, mem_cons_self, ?_⟩)
       rw [replayedItem, hsignature]
       exact hvalue
     · exact hlift (ih hmore) item hitem
  | text text =>
   obtain ⟨more, hmore, h⟩ := Except.bind_ok h
   cases h
   intro item hitem
   rcases mem_cons.mp hitem with rfl | hitem
   · obtain ⟨hrole, hcalls⟩ := @textItem_read codec text msgIndex textBlockIndex
     exact inr ⟨inr hrole, by rw [hcalls]; simp⟩
   · exact hlift (ih hmore) item hitem
  | toolCall call =>
   obtain ⟨more, hmore, h⟩ := Except.bind_ok h
   cases h
   intro item hitem
   rcases mem_cons.mp hitem with rfl | hitem
   · obtain ⟨hrole, hcalls⟩ := @callItem_read codec model assistant call
     refine inr ⟨inl hrole, fun id hid => ?_⟩
     rw [hcalls, mem_singleton] at hid
     exact ⟨call, by simp [call?], hid⟩
   · exact hlift (ih hmore) item hitem

/-! ## The conversation -/

theorem resultItem_read (result : ToolResultMessage) :
 (read (resultItem model result)).role = none ∧ (read (resultItem model result)).calls = []
  ∧ (read (resultItem model result)).answers = [callIdOf result.toolCallId] := ⟨rfl, rfl, rfl⟩

theorem userItems_read (user : UserMessage) :
 (userItems user = [] ∧ user.content.parts imageAddress = [])
  ∨ ∃ item, userItems user = [item] ∧ (read item).role = some "user" ∧ (read item).calls = []
   ∧ (read item).parts = user.content.parts imageAddress := by
 unfold userItems
 split
 next text htext =>
  exact inr ⟨_, rfl, rfl, rfl, by rw [htext]; rfl⟩
 next blocks hblocks =>
  rw [hblocks]
  split
  next hempty =>
   rw [List.isEmpty_iff] at hempty
   exact inl ⟨rfl, by rw [hempty]; rfl⟩
  · refine inr ⟨_, rfl, rfl, rfl, ?_⟩
    have hpart : partOf ∘ inputPart = some ∘ UserContentBlock.part imageAddress := by
     funext block
     cases block <;> rfl
    change (blocks.map inputPart).filterMap partOf = _
    rw [filterMap_map, hpart, filterMap_eq_map]
    rfl

theorem systemItems_read (leading : Bool) (system : SystemMessage) :
 systemItems model options leading system = [] ∨ ∃ text, systemItems model options leading system
   = [roleItem (instructionRole model) (.string text)] := by
 unfold systemItems
 dsimp only
 generalize (if leading then getSystemMessageText system else renderSystemMessageUpdate system) = text
 split
 · split
   · exact inl rfl
   · exact inr ⟨text, rfl⟩
 · exact inl rfl

theorem instructionRole_cases :
 instructionRole model = "developer" ∨ instructionRole model = "system" := by
 unfold instructionRole
 split
 · exact inl rfl
 · exact inr rfl

/-- The items of the messages of a request that may be replayed ones. -/
theorem messageItems_read {message : Message}
 (h : messageItems codec model options first msgIndex message = .ok items) :
 ∀ item ∈ items, item ∈ replayed codec message ∨ ∀ id ∈ (read item).calls,
  ∃ assistant, message = .assistant assistant
   ∧ ∃ call ∈ assistant.toolCalls, id = callIdOf call.id := by
 intro item hitem
 cases message with
 | system system =>
  cases h
  rcases @systemItems_read model options first system with
   hnone | ⟨text, htext⟩
  · rw [hnone] at hitem
    simp at hitem
  · rw [htext, mem_singleton] at hitem
    subst hitem
    exact inr fun id hid => absurd hid (not_mem_nil)
 | user user =>
  cases h
  rcases userItems_read user with ⟨hnone, -⟩ | ⟨own, hown, -, hcalls, -⟩
  · rw [hnone] at hitem
    simp at hitem
  · rw [hown, mem_singleton] at hitem
    rw [hitem, hcalls]
    exact inr fun id hid => absurd hid (not_mem_nil)
 | assistant assistant =>
  rcases assistantItems_read assistant.content h item hitem with hreplayed | ⟨-, hcalls⟩
  · exact inl hreplayed
  · exact inr fun id hid => ⟨assistant, rfl, hcalls id hid⟩
 | toolResult result =>
  cases h
  rw [mem_singleton] at hitem
  rw [hitem]
  exact inr fun id hid => absurd hid (not_mem_nil)

variable {rest : List Message}

theorem convertFrom_cons {message : Message}
 (h : convertFrom codec model options first msgIndex (message :: rest) = .ok chunks) :
 ∃ items index more, messageItems codec model options first msgIndex message = .ok items
  ∧ convertFrom codec model options false index rest = .ok more ∧ chunks = items :: more := by
 obtain ⟨items, hitems, h⟩ := Except.bind_ok h
 obtain ⟨more, hmore, h⟩ := Except.bind_ok h
 injection h with h
 exact ⟨items, _, more, hitems, hmore, h.symm⟩

variable (messages : List Message)

section

variable (h : convertFrom codec model options first msgIndex messages = .ok chunks)

include h

theorem convertFrom_length :
 chunks.length = messages.length := by
 induction messages generalizing first msgIndex chunks with
 | nil =>
  cases h
  rfl
 | cons message rest ih =>
  obtain ⟨items, index, more, -, hmore, rfl⟩ := convertFrom_cons h
  simp [ih hmore]

theorem mem_leading_items
 {result : ToolResultMessage} (hresult : result ∈ leadingResults messages) : resultItem model result
  ∈ ((messages.zip chunks).takeWhile fun c => c.1.isToolResult).flatMap Prod.snd := by
 induction messages generalizing first msgIndex chunks with
 | nil => simp [leadingResults] at hresult
 | cons message rest ih =>
  obtain ⟨items, index, more, hitems, hmore, rfl⟩ := convertFrom_cons h
  cases message with
  | toolResult own =>
   cases hitems
   rw [zip_cons_cons, takeWhile_cons_of_pos rfl, flatMap_cons]
   rcases mem_cons.mp hresult with rfl | hresult
   · exact mem_append_left _ (mem_singleton_self _)
   · exact mem_append_right _ (ih hmore hresult)
  | _ => simp [leadingResults] at hresult

end

/-- Every call that is not replayed is answered before anything but tool results. -/
def AnsweredLater (codec : Codec) (sent : List (Message × List Value)) : Prop :=
 ∀ before message items after, sent = before ++ (message, items) :: after → ∀ item ∈ items,
  item ∈ replayed codec message ∨ ∀ id ∈ (read item).calls,
   ∃ answer ∈ (after.takeWhile fun c => c.1.isToolResult).flatMap Prod.snd,
    id ∈ (read answer).answers

theorem convertFrom_answered {messages : List Message} (hl : CallsAnswered messages)
 (h : convertFrom codec model options first msgIndex messages = .ok chunks) :
 AnsweredLater codec (messages.zip chunks) := by
 induction messages generalizing first msgIndex chunks with
 | nil => exact fun before message items after he => absurd he (by simp)
 | cons message rest ih =>
  obtain ⟨items, index, more, hitems, hmore, rfl⟩ := convertFrom_cons h
  have hrest : CallsAnswered rest := by
   cases message with
   | assistant assistant => exact hl.2
   | _ => exact hl
  intro before m own after he
  rw [zip_cons_cons] at he
  cases before with
  | cons c before => exact ih hrest hmore before m own after (List.cons.inj he).2
  | nil =>
   obtain ⟨hhead, rfl⟩ := List.cons.inj he
   cases hhead
   intro item hitem
   refine (messageItems_read hitems item hitem).imp_right fun hcalls id hid => ?_
   obtain ⟨assistant, rfl, call, hcall, rfl⟩ := hcalls id hid
   obtain ⟨result, hresult, heq⟩ := hl.1 call hcall
   refine ⟨resultItem model result, mem_leading_items rest hmore hresult, ?_⟩
   rw [(resultItem_read result).2.2, heq]
   exact mem_singleton_self _

def Replayed (codec : Codec) (messages : List Message) (m : Wire) : Prop :=
 ∃ item ∈ messages.flatMap (replayed codec), m = read item

theorem assistant_beside
 (h : messageItems codec model options first msgIndex (.assistant assistant) = .ok items)
 {role : String} (hrole : role ≠ "assistant") :
 ∀ m ∈ items.map read, m.role ≠ some role ∨ Replayed codec (.assistant assistant :: rest) m := by
 intro m hm
 obtain ⟨item, hitem, rfl⟩ := mem_map.mp hm
 rcases assistantItems_read assistant.content h item hitem with hreplayed | ⟨hr, -⟩
 · exact inr ⟨item, mem_append_left _ hreplayed, rfl⟩
 · left
   rcases hr with hr | hr <;> rw [hr]
   · simp
   · exact fun he => hrole (Option.some.inj he).symm

theorem Replayed.cons (message : Message) {m : Wire} (h : Replayed codec rest m) :
 Replayed codec (message :: rest) m := by
 obtain ⟨item, hitem, rfl⟩ := h
 exact ⟨item, mem_append_right _ hitem, rfl⟩

/-- The user items say what the given messages do, beside what is replayed. -/
theorem convertFrom_users
 (h : convertFrom codec model options first msgIndex messages = .ok chunks) :
 SaysBeside "user" Part.shown (Replayed codec messages) (chunks.flatten.map read)
  (shownParts imageAddress (userMessages messages)) := by
 induction messages generalizing first msgIndex chunks with
 | nil =>
  cases h
  exact .nil
 | cons message rest ih =>
  obtain ⟨items, index, more, hitems, hmore, rfl⟩ := convertFrom_cons h
  have hrest := (ih hmore).mono fun _ hm => Replayed.cons message hm
  rw [flatten_cons, map_append]
  cases message with
  | system system =>
   cases hitems
   refine hrest.append fun m hm => inl ?_
   rcases @systemItems_read model options first system with
    hnone | ⟨text, htext⟩
   · rw [hnone] at hm
     simp at hm
   · rw [htext, map_singleton, mem_singleton] at hm
     subst hm
     rcases @instructionRole_cases model with hr | hr <;>
      simp [read, roleItem, hr, getStr, get, OrdMap.get?_cons, Value.asStr]
  | assistant assistant => exact hrest.append (assistant_beside hitems (by decide))
  | toolResult result =>
   cases hitems
   refine hrest.append fun m hm => inl ?_
   rw [map_singleton, mem_singleton] at hm
   rw [hm, (resultItem_read result).1]
   simp
  | user user =>
   cases hitems
   have hparts : shownParts imageAddress (userMessages (.user user :: rest))
    = (user.content.parts imageAddress).filter Part.shown
     ++ shownParts imageAddress (userMessages rest) := by
    simp [shownParts, userMessages, Message.user?]
   rw [hparts]
   rcases userItems_read user with ⟨hnone, hshown⟩ | ⟨item, hitem, hrole, -, hshown⟩
   · rw [hnone, hshown]
     exact hrest
   · rw [hitem, ← hshown]
     exact .own hrole hrest

/-- The texts of the system messages that are sent: all of them, or all but the one the
request opens with. -/
def sentPrompts (options : ConvertResponsesMessagesOptions) (first : Bool) :
 List Message → List String
 | [] => []
 | .system system :: rest =>
  (if !first || options.includeSystemPrompt.getD true then
   [if first then getSystemMessageText system else renderSystemMessageUpdate system].filter
    (· ≠ "")
  else []) ++ sentPrompts options false rest
 | _ :: rest => sentPrompts options false rest

theorem convertFrom_systems
 (h : convertFrom codec model options first msgIndex messages = .ok chunks) :
 SaysBeside (instructionRole model) (fun _ => true) (Replayed codec messages)
  (chunks.flatten.map read) ((sentPrompts options first messages).map .text) := by
 have hother : ∀ role : String, role ≠ "developer" → role ≠ "system" →
  some role ≠ some (instructionRole model) := by
  intro role h1 h2 he
  injection he with he
  rcases @instructionRole_cases model with hr | hr
  · exact h1 (he.trans hr)
  · exact h2 (he.trans hr)
 induction messages generalizing first msgIndex chunks with
 | nil =>
  cases h
  exact .nil
 | cons message rest ih =>
  obtain ⟨items, index, more, hitems, hmore, rfl⟩ := convertFrom_cons h
  have hrest := (ih hmore).mono fun _ hm => Replayed.cons message hm
  rw [flatten_cons, map_append]
  cases message with
  | system system =>
   cases hitems
   rw [sentPrompts, map_append]
   unfold systemItems
   dsimp only
   generalize (if first then getSystemMessageText system
    else renderSystemMessageUpdate system) = text
   split
   · split
     next htext =>
      simpa [htext] using hrest
     next htext =>
      have hparts : (read (roleItem (instructionRole model) (.string text))).parts
       = [.text text] := rfl
      simpa [htext, hparts] using SaysBeside.own (m := read (roleItem (instructionRole model)
       (.string text))) rfl hrest
   · exact hrest
  | assistant assistant =>
   exact hrest.append (assistant_beside hitems fun he => by
    rcases @instructionRole_cases model with hr | hr <;> rw [hr] at he <;>
     exact absurd he (by decide))
  | toolResult result =>
   cases hitems
   refine hrest.append fun m hm => inl ?_
   rw [map_singleton, mem_singleton] at hm
   rw [hm, (resultItem_read result).1]
   simp
  | user user =>
   cases hitems
   refine hrest.append fun m hm => inl ?_
   rcases userItems_read user with ⟨hnone, -⟩ | ⟨item, hitem, hrole, -⟩
   · rw [hnone] at hm
     simp at hm
   · rw [hitem, map_singleton, mem_singleton] at hm
     rw [hm, hrole]
     exact hother _ (by decide) (by decide)

end

end Bake.Ai.Responses
