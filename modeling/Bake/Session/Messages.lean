import Bake.Session.Context
import Bake.Ai.Message

/-!
# Stored messages as the agent reads them

`messages.rs`: a stored message read by its role as one of the model messages or of the
coding agent's own kinds, and what of it reaches the model.

Reading an object as one of these types is the work of the derived deserializers, which
are no part of the repository; `Readers` stands for them.
-/

namespace Bake.Session

open Bake.Json Bake.Ai

/-- A `!` command's execution. -/
structure BashExecutionMessage where
 command : String
 output : String
 exitCode : Option Int
 cancelled : Bool
 truncated : Bool
 fullOutputPath : Option String
 timestamp : Int
 /-- True for `!!` commands, which stay out of model context. -/
 excludeFromContext : Option Bool

structure CustomMessage where
 customType : String
 content : UserContent
 display : Bool
 details : Option Value
 timestamp : Int

structure BranchSummaryMessage where
 summary : String
 fromId : Option String
 timestamp : Int

structure CompactionSummaryMessage where
 summary : String
 tokensBefore : Nat
 timestamp : Int

inductive LiveMessage where
 | llm (message : Message)
 | bashExecution (message : BashExecutionMessage)
 | custom (message : CustomMessage)
 | branchSummary (message : BranchSummaryMessage)
 | compactionSummary (message : CompactionSummaryMessage)
 /-- An unknown role, or members of the wrong shape. -/
 | opaque_ (object : JsonObject)

/-- `serde_json::from_value` at the types a stored message is read as. -/
structure Readers where
 message : JsonObject → Option Message
 bashExecution : JsonObject → Option BashExecutionMessage
 custom : JsonObject → Option CustomMessage
 branchSummary : JsonObject → Option BranchSummaryMessage
 compactionSummary : JsonObject → Option CompactionSummaryMessage

def liveFromJson (read : Readers) (object : JsonObject) : LiveMessage :=
 let role := (strMember object "role").getD ""
 let untagged := OrdMap.erase object "role"
 let live :=
  if role = "system" ∨ role = "user" ∨ role = "assistant" ∨ role = "toolResult" then
   (read.message object).map .llm
  else if role = "bashExecution" then (read.bashExecution untagged).map .bashExecution
  else if role = "custom" then (read.custom untagged).map .custom
  else if role = "branchSummary" then (read.branchSummary untagged).map .branchSummary
  else if role = "compactionSummary" then (read.compactionSummary untagged).map .compactionSummary
  else none
 live.getD (.opaque_ object)

def compactionSummaryPrefix : String :=
 "The conversation history before this point was compacted into the following summary:\n\n<summary>\n"

def compactionSummarySuffix : String := "\n</summary>"

def branchSummaryPrefix : String :=
 "The following is a summary of a branch that this conversation came back from:\n\n<summary>\n"

def branchSummarySuffix : String := "</summary>"

def bashExecutionToText (message : BashExecutionMessage) : String :=
 let text := "Ran `" ++ message.command ++ "`\n"
  ++ if message.output = "" then "(no output)" else "```\n" ++ message.output ++ "\n```"
 let text := text ++
  if message.cancelled then "\n\n(command cancelled)"
  else match message.exitCode with
   | some code => if code = 0 then "" else "\n\nCommand exited with code " ++ toString code
   | none => ""
 match message.fullOutputPath with
 | some path =>
  if message.truncated ∧ path ≠ "" then
   text ++ "\n\n[Output truncated. Full output: " ++ path ++ "]"
  else text
 | none => text

def textMessage (text : String) (timestamp : Int) : Message :=
 .user { content := .blocks [.text (.new text)], timestamp }

def LiveMessage.toLlm : LiveMessage → Option Message
 | .llm message => some message
 | .bashExecution message =>
  if message.excludeFromContext = some true then none
  else some (textMessage (bashExecutionToText message) message.timestamp)
 | .custom message =>
  let content := match message.content with
   | .text text => .blocks [.text (.new text)]
   | blocks => blocks
  some (.user { content, timestamp := message.timestamp })
 | .branchSummary message =>
  some (textMessage (branchSummaryPrefix ++ message.summary ++ branchSummarySuffix)
   message.timestamp)
 | .compactionSummary message =>
  some (textMessage (compactionSummaryPrefix ++ message.summary ++ compactionSummarySuffix)
   message.timestamp)
 | .opaque_ _ => none

def convertToLlm (messages : List LiveMessage) : List Message := messages.filterMap LiveMessage.toLlm

end Bake.Session
