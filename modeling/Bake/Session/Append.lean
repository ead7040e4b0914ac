import Bake.Session.Manager

/-!
# Appends, groups, branches

Each append builds the entry the source builds, member for member, as a child of
the leaf. Entries that belong together are appended as a group: every one is
built and checked before any is written.
-/

namespace Bake.Session

open Bake.Json
open OrdMap (get?)

/-- A member that is left out when absent. -/
def optionalMember (key : String) (value : Option Value) : JsonObject :=
 match value with
 | some value => [(key, value)]
 | none => []

inductive EditContent where
 | text (text : String)
 | blocks (blocks : List Value)

inductive GroupEntry where
 | custom (customType : String) (data : Option Value)
 | customMessage (customType : String) (content : Value) (display : Bool) (details : Option Value)
 | modelChange (provider modelId : String)
 | thinkingLevelChange (thinkingLevel : String)
 | contextEdit (targetId : String) (replacement : Option EditContent)

/-- The prompt and tool state accumulated over system messages. -/
structure SystemState where
 content : List String := []
 sections : JsonObject := []
 tools : List (String × Value) := []
 timestamp : Option Value := none

def systemText (message : AgentMessage) : String :=
 match get? message "content" with
 | some (.string text) => text
 | some (.array blocks) =>
  String.intercalate "\n" <| (blocks.filterMap Value.asObject).filterMap fun block =>
   if strMember block "type" = some "text" then
    some (jsToStringMember (get? block "text"))
   else none
 | _ => ""

def arrayMember (object : JsonObject) (key : String) : List Value :=
 match get? object key with
 | some (.array items) => items
 | _ => []

def toolName (tool : Value) : Option String := tool.asObject.bind fun tool => strMember tool "name"

/-- A section patch: `null` removes a section. -/
def patchSections (sections patch : JsonObject) : JsonObject :=
 patch.foldl (fun sections (name, value) =>
  if value.isNull then OrdMap.erase sections name else OrdMap.insert sections name value) sections

def SystemState.apply (state : SystemState) (message : AgentMessage) : SystemState where
 timestamp :=
  if isNullish state.timestamp then get? message "timestamp" else state.timestamp
 content :=
  if systemText message = "" then state.content else state.content ++ [systemText message]
 sections :=
  match get? message "sections" with
  | some (.object patch) => patchSections state.sections patch
  | _ => state.sections
 tools :=
  let kept := (arrayMember message "toolsRemoved").foldl (fun tools tool =>
   match toolName tool with
   | some name => OrdMap.erase tools name
   | none => tools) state.tools
  (arrayMember message "toolsAdded").foldl (fun tools tool =>
   match toolName tool with
   | some name => OrdMap.insert tools name tool
   | none => tools) kept

def currentSystemMessage (messages : List AgentMessage) : Option JsonObject :=
 let state := (messages.filter fun message => strMember message "role" = some "system").foldl
  SystemState.apply {}
 if state.timestamp.isNone ∧ state.tools = [] then none
 else some (
  [("role", .string "system"), ("content", .string (String.intercalate "\n\n" state.content))]
  ++ (if state.sections = [] then [] else [("sections", .object state.sections)])
  ++ (if state.tools = [] then [] else [("toolsAdded", .array (state.tools.map Prod.snd))])
  ++ [("timestamp", if isNullish state.timestamp then .number (.ofNat 0)
   else state.timestamp.getD .null)])

/-- A display name: each run of line breaks becomes a space, and the name is
trimmed. -/
def sanitizeName (name : List Char) : List Char :=
 let isBreak := fun c : Char => c = '\r' ∨ c = '\n'
 let step := fun (state : List Char × Bool) (c : Char) =>
  if isBreak c then (if state.2 then state.1 else state.1 ++ [' '], true)
  else (state.1 ++ [c], false)
 jsTrim (name.foldl step ([], false)).1

namespace SessionManager

/-! ## The entries -/

def messageRaw (m : SessionManager) (env : Env) (id : String) (message : AgentMessage) :
 JsonObject :=
 m.base env 0 "message" id ++ [("message", .object message)]

def thinkingLevelChangeRaw (m : SessionManager) (env : Env) (k : Nat) (id level : String) :
 JsonObject :=
 m.base env k "thinking_level_change" id ++ [("thinkingLevel", .string level)]

def modelChangeRaw (m : SessionManager) (env : Env) (k : Nat) (id provider modelId : String) :
 JsonObject :=
 m.base env k "model_change" id ++ [("provider", .string provider), ("modelId", .string modelId)]

def usageRaw (m : SessionManager) (env : Env) (id kind provider model : String) (usage : Value)
 (note : Option String) : JsonObject :=
 m.base env 0 "usage" id
  ++ [("kind", .string kind), ("provider", .string provider), ("model", .string model),
   ("usage", usage)]
  ++ optionalMember "note" ((note.filter (· ≠ "")).map .string)

/-- The prompt and tool state a compaction records, at the compaction's time. -/
def recordedSystem (m : SessionManager) (timestamp : String) : Option Value :=
 (currentSystemMessage m.buildSessionProjection.messages).map fun system =>
  .object (OrdMap.insert system "timestamp" (match jsDateMs (some (.string timestamp)) with
   | some ms => intValue ms
   | none => .null))

def compactionRaw (m : SessionManager) (env : Env) (id summary : String)
 (firstKeptEntryId : Option String) (tokensBefore : Nat) (details : Option Value)
 (fromHook : Option Bool) (usage : Option Value) : JsonObject :=
 m.base env 0 "compaction" id
  ++ [("summary", .string summary), ("firstKeptEntryId", .string (firstKeptEntryId.getD id)),
   ("tokensBefore", .number (.ofNat tokensBefore))]
  ++ optionalMember "details" details ++ optionalMember "usage" usage
  ++ optionalMember "fromHook" (fromHook.map .bool)
  ++ optionalMember "systemMessage" (m.recordedSystem (formatIso (env.clock 0)))

/-- A custom entry on its own has its type members first. -/
def customRaw (m : SessionManager) (env : Env) (id customType : String) (data : Option Value) :
 JsonObject :=
 [("type", .string "custom"), ("customType", .string customType)] ++ optionalMember "data" data
  ++ m.baseMembers env 0 id

def sessionInfoRaw (m : SessionManager) (env : Env) (id name : String) : JsonObject :=
 m.base env 0 "session_info" id
  ++ [("name", .string (String.ofList (sanitizeName name.toList)))]

def customMessageRaw (m : SessionManager) (env : Env) (id customType : String) (content : Value)
 (display : Bool) (details : Option Value) : JsonObject :=
 [("type", .string "custom_message"), ("customType", .string customType), ("content", content),
  ("display", .bool display)] ++ optionalMember "details" details ++ m.baseMembers env 0 id

def labelRaw (m : SessionManager) (env : Env) (id targetId : String) (label : Option String) :
 JsonObject :=
 m.base env 0 "label" id ++ [("targetId", .string targetId)]
  ++ optionalMember "label" (label.map .string)

def branchSummaryRaw (m : SessionManager) (env : Env) (id fromId summary : String)
 (details : Option Value) (fromHook : Option Bool) (usage : Option Value) : JsonObject :=
 m.base env 0 "branch_summary" id ++ [("fromId", .string fromId), ("summary", .string summary)]
  ++ optionalMember "details" details ++ optionalMember "usage" usage
  ++ optionalMember "fromHook" (fromHook.map .bool)

def editableRole (target : SessionEntry) : Option String :=
 if target.entryType = "custom_message" then some "custom"
 else target.messageRole.filter fun role =>
  role = "user" || role = "assistant" || role = "toolResult"

def editValue (role : String) : EditContent → Value
 | .text text =>
  if role = "assistant" ∨ role = "toolResult" then textBlocks text else .string text
 | .blocks blocks => .array blocks

/-- `context_edit`: the entry, checked. -/
def contextEdit (m : SessionManager) (env : Env) (k : Nat) (targetId : String)
 (replacement : Option EditContent) : Except SessionError (String × JsonObject) :=
 match m.entry targetId with
 | none => .error (.entryNotFound targetId)
 | some target =>
  if (m.branchEntries none).all fun entry => entry.id ≠ targetId then
   .error (.notOnActiveBranch targetId)
  else match editableRole target with
   | none => .error (.notEditable targetId)
   | some role =>
    let replacement := match replacement with
     | some content => .object [("content", editValue role content)]
     | none => .null
    let id := m.nextId env k
    .ok (id, m.base env k "context_edit" id
     ++ [("targetId", .string targetId), ("replacement", replacement)])

/-- `group_entry`: the entry, as a child of the leaf, checked. -/
def groupEntry (m : SessionManager) (env : Env) (k : Nat) :
 GroupEntry → Except SessionError (String × JsonObject)
 | .custom customType data =>
  let id := m.nextId env k
  .ok (id, m.base env k "custom" id ++ [("customType", .string customType)]
   ++ optionalMember "data" data)
 | .customMessage customType content display details =>
  let id := m.nextId env k
  .ok (id, m.base env k "custom_message" id
   ++ [("customType", .string customType), ("content", content), ("display", .bool display)]
   ++ optionalMember "details" details)
 | .modelChange provider modelId =>
  let id := m.nextId env k
  .ok (id, m.modelChangeRaw env k id provider modelId)
 | .thinkingLevelChange level =>
  let id := m.nextId env k
  .ok (id, m.thinkingLevelChangeRaw env k id level)
 | .contextEdit targetId replacement => m.contextEdit env k targetId replacement

/-- Build and push a group's entries: the ids pushed, the check that failed, if one
did, and the manager with what was pushed. -/
def pushGroup (m : SessionManager) (env : Env) (k : Nat) :
 List GroupEntry → List String × Option SessionError × SessionManager
 | [] => ([], none, m)
 | entry :: rest => match m.groupEntry env k entry with
  | .error e => ([], some e, m)
  | .ok (id, raw) =>
   let (ids, error, m) := (m.pushEntry id raw).pushGroup env (k + 1) rest
   (id :: ids, error, m)

/-- `keep_group_prefix`: keep the first `kept` of the group's entries `ids`. -/
def keepGroupPrefix (m : SessionManager) (start startIds : Nat) (leaf : Option String)
 (ids : List String) (kept : Nat) : SessionManager :=
 { m with
   fileEntries := m.fileEntries.take (start + kept)
   index := { m.index with
    byId := m.index.byId.take (startIds + kept)
    leafId := if kept = 0 then leaf else (ids[kept - 1]?).or leaf } }

end SessionManager

namespace World

/-- An append of an entry the manager builds under a new id. -/
def appendRaw (w : World) (env : Env) (raw : SessionManager → String → JsonObject) :
 Result String :=
 let id := w.manager.nextId env 0
 w.appendEntry env id (raw w.manager id)

def appendMessage (w : World) (env : Env) (message : AgentMessage) : Result String :=
 match strMember message "role" with
 | some "branchSummary" => (.error (.summaryMessage "branchSummary"), w)
 | some "compactionSummary" => (.error (.summaryMessage "compactionSummary"), w)
 | _ => w.appendRaw env fun m id => m.messageRaw env id message

def appendContextEdit (w : World) (env : Env) (targetId : String)
 (replacement : Option EditContent) : Result String :=
 match w.manager.contextEdit env 0 targetId replacement with
 | .error e => (.error e, w)
 | .ok (id, raw) => w.appendEntry env id raw

/-- `append_label_change`: the label maps follow once the entry is written. -/
def appendLabelChange (w : World) (env : Env) (targetId : String) (label : Option String) :
 Result String :=
 if (get? w.manager.index.byId targetId).isNone then (.error (.entryNotFound targetId), w)
 else match w.appendRaw env fun m id => m.labelRaw env id targetId label with
  | (.error e, w) => (.error e, w)
  | (.ok id, w) =>
   (.ok id, w.withManager { w.manager with
    index := w.manager.index.label targetId (label.filter (· ≠ ""))
     (formatIso (env.clock 0)) })

/-- `branch`: move the leaf to an earlier entry. -/
def branch (w : World) (id : String) : Result Unit :=
 if (get? w.manager.index.byId id).isNone then (.error (.entryNotFound id), w)
 else (.ok (), w.withManager { w.manager with
  index := { w.manager.index with leafId := some id } })

/-- `reset_leaf`: move the leaf before the first entry. -/
def resetLeaf (w : World) : World :=
 w.withManager { w.manager with index := { w.manager.index with leafId := none } }

def branchWithSummary (w : World) (env : Env) (branchFromId : Option String) (summary : String)
 (details : Option Value) (fromHook : Option Bool) (usage : Option Value) : Result String :=
 if branchFromId.any fun id => (get? w.manager.index.byId id).isNone then
  (.error (.entryNotFound (branchFromId.getD "")), w)
 else
  let fromId := w.manager.index.leafId.getD "root"
  let w := w.withManager { w.manager with
   index := { w.manager.index with leafId := branchFromId } }
  w.appendRaw env fun m id => m.branchSummaryRaw env id fromId summary details fromHook usage

/-! ## Groups -/

/-- Why `persist_group` stopped. -/
inductive PersistFailure where
 /-- Before any line of the group. -/
 | before (error : SessionError)
 /-- At a line of the group. -/
 | at (path : String) (failure : LinesFailure)

/-- `persist_group`: write the entries from `start` on, in order. -/
def persistGroup (w : World) (env : Env) (start : Nat) (forceCreate : Bool) :
 Option PersistFailure × World :=
 match w.manager.target with
 | none => (none, w)
 | some path =>
  if w.manager.flushed = false ∧ forceCreate = false ∧ w.manager.hasConversation = false then
   (none, w)
  else match w.holdWriter env path with
   | (.error e, w) => (some (.before e), w)
   | (.ok (), w) =>
    let (created, w) :=
     if w.manager.flushed then (true, w)
     else
      let before := linesOf (w.manager.fileEntries.take start)
      let (done, disk) := createNew w.disk path before env.create
      let w := w.withDisk disk
      (done, if done then w.withManager { w.manager with flushed := true } else w)
    if created = false then (some (.before (.io path)), w)
    else
     let lines := (w.manager.fileEntries.drop start).map fun line => linesOf [line]
     let (failure, disk) := appendLines w.disk path lines env.lines
     (failure.map (.at path), w.withDisk disk)

def appendGroupInner (w : World) (env : Env) (entries : List GroupEntry) (forceCreate : Bool) :
 Result (List String) :=
 let start := w.manager.fileEntries.length
 let startIds := w.manager.index.byId.length
 let leaf := w.manager.index.leafId
 let (ids, error, m) := w.manager.pushGroup env 0 entries
 match error with
 | some e => (.error e, w.withManager (m.keepGroupPrefix start startIds leaf ids 0))
 | none =>
  let w := w.withManager m
  if ids = [] then (.ok [], w)
  else match w.persistGroup env start forceCreate with
   | (none, w) => (.ok ids, w)
   | (some (.before e), w) =>
    (.error e, w.withManager (w.manager.keepGroupPrefix start startIds leaf ids 0))
   | (some (.at path failure), w) =>
    let kept := min failure.synced ids.length
    (.error (.groupWrite path (ids.take kept) ids.length failure.line),
     w.withManager (w.manager.keepGroupPrefix start startIds leaf ids kept))

def appendGroup (w : World) (env : Env) (entries : List GroupEntry) : Result (List String) :=
 w.appendGroupInner env entries false

def appendDurableGroup (w : World) (env : Env) (entries : List GroupEntry) : Result (List String) :=
 w.appendGroupInner env entries true

end World

end Bake.Session
