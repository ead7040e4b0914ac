import Bake.Ai.Message

/-!
# The transcript a request reads

`utils/text.rs` and `utils/transcript.rs`: the text of a system message, as a prompt and
as a later update, and the transcript for a model that takes no system message in its
middle. There every system message is replayed into one at the front: contents joined,
sections patched by name, tools added and removed.
-/

namespace Bake.Ai

open Bake.Json

/-! ## System texts -/

def systemContentText : SystemContent → String
 | .text text => text
 | .blocks blocks => "\n".intercalate (blocks.map TextContent.text)

/-- `get_system_message_text`: a complete prompt, the content and then the sections. -/
def getSystemMessageText (message : SystemMessage) : String :=
 let sections := (message.sections.getD []).filterMap Prod.snd
 "\n\n".intercalate ((systemContentText message.content :: sections).filter (· ≠ ""))

def renderSection (change : String × Option String) : String :=
 match change.2 with
 | none => "Removed system prompt section \"" ++ change.1 ++ "\"."
 | some value => "Updated system prompt section \"" ++ change.1 ++ "\":\n\n" ++ value

/-- `render_system_message_update`: section changes are framed by name. -/
def renderSystemMessageUpdate (message : SystemMessage) : String :=
 let text := systemContentText message.content
 let sections := (message.sections.getD []).map renderSection
 "\n\n".intercalate (if text = "" then sections else text :: sections)

def UserContentBlock.isImage : UserContentBlock → Bool
 | .image _ => true
 | .text _ => false

def UserContentBlock.isBlankText : UserContentBlock → Bool
 | .text block => isBlank block.text
 | .image _ => false

def jsBlank (text : String) : Bool := text.toList.all isJsWhitespace

def blocksText (blocks : List UserContentBlock) : String :=
 "\n".intercalate (blocks.filterMap fun
  | .text text => some text.text
  | .image _ => none)

/-! ## Tools -/

/-- A declaration under a known name takes the place of the one before it. -/
def declareTool (tools : List Tool) (added : Tool) : List Tool :=
 if tools.any fun tool => tool.name = added.name then
  tools.replaceF fun tool => if tool.name = added.name then some added else none
 else tools ++ [added]

def changeTools (tools : List Tool) (message : SystemMessage) : List Tool :=
 let kept := (message.toolsRemoved.getD []).foldl
  (fun tools removed => tools.filter (·.name ≠ removed)) tools
 (message.toolsAdded.getD []).foldl declareTool kept

/-- `current_tools`: what is available after the system messages. -/
def currentTools (systems : List SystemMessage) : List Tool := systems.foldl changeTools []

def Message.system? : Message → Option SystemMessage
 | .system message => some message
 | _ => none

def systemMessages (messages : List Message) : List SystemMessage :=
 messages.filterMap Message.system?

def getCurrentTools (messages : List Message) : List Tool := currentTools (systemMessages messages)

/-- The declaration a map by name holds: the last one under the name. -/
def toolNamed (tools : List Tool) (name : String) : Option Tool :=
 tools.reverse.find? (·.name = name)

/-- `declarations_equal`: the JSON of two declarations, member order included. -/
def declarationsEqual (shown : Tool → String) (left right : Tool) : Bool := shown left = shown right

/-- `get_tool_state_changes`: a changed definition is a removal followed by an addition. -/
def getToolStateChanges (shown : Tool → String) (previous current : List Tool) :
 List Tool × List String :=
 let added := current.filter fun tool =>
  (toolNamed previous tool.name).all fun old => !declarationsEqual shown old tool
 let removed := previous.filter fun tool =>
  (toolNamed current tool.name).all fun new => !declarationsEqual shown tool new
 (added, removed.map Tool.name)

/-! ## One system message -/

def patchSection (sections : List (String × String)) (change : String × Option String) :
 List (String × String) :=
 match change.2 with
 | none => OrdMap.erase sections change.1
 | some value => OrdMap.insert sections change.1 value

/-- `get_current_system_message`: every system message replayed into one. -/
def getCurrentSystemMessage (messages : List Message) : Option SystemMessage :=
 let systems := systemMessages messages
 let content := (systems.map fun system => systemContentText system.content).filter (· ≠ "")
 let sections := (systems.flatMap fun system => system.sections.getD []).foldl patchSection []
 let tools := getCurrentTools messages
 if systems.isEmpty && tools.isEmpty then none
 else some
  { content := .text ("\n\n".intercalate content)
    sections :=
     if sections.isEmpty then none
     else some (sections.map fun (name, value) => (name, some value))
    toolsAdded := if tools.isEmpty then none else some tools
    toolsRemoved := none
    timestamp := (systems.head?.map SystemMessage.timestamp).getD 0 }

def collapseSystemMessages (messages : List Message) : List Message :=
 (getCurrentSystemMessage messages).toList.map Message.system
  ++ messages.filter fun message => !message.isSystem

/-- `resolve_transcript`: later system messages stay in place when the model accepts them. -/
def resolveTranscript (messages : List Message) (supportsMidConvoSystemMessages : Bool) :
 List Message :=
 if supportsMidConvoSystemMessages then messages else collapseSystemMessages messages

/-! ## Tools in place -/

/-- How a transport can express tool changes after the first request. -/
inductive TranscriptToolSupport where
 | none
 | additions
 | changes

/-- The names declared before, and the last system message that cannot be sent in place,
counted from one. -/
def foldSystem (declared : List String) (folded : Nat) (index : Nat) (message : SystemMessage) :
 List String × Nat :=
 let folded := if (message.toolsRemoved.getD []).isEmpty then folded else max folded (index + 1)
 (message.toolsAdded.getD []).foldl (fun (declared, folded) tool =>
   if tool.name ∈ declared then (declared, max folded (index + 1))
   else (tool.name :: declared, folded))
  (declared, folded)

def startsWithSystem (messages : List Message) : Bool := messages.head?.any Message.isSystem

/-- `resolve_transcript_tools`: the tools of the request's own list, and how many leading
system messages' changes it holds. -/
def resolveTranscriptTools (messages : List Message) (support : TranscriptToolSupport) :
 List Tool × Nat :=
 let systems := systemMessages messages
 match support with
 | .none => (currentTools systems, systems.length)
 | .changes => ([], 0)
 | .additions =>
  let start := if startsWithSystem messages then 1 else 0
  let folded := (systems.zipIdx.foldl
   (fun (declared, folded) (message, index) => foldSystem declared folded index message)
   ([], start)).2
  (currentTools (systems.take folded), folded)

end Bake.Ai
