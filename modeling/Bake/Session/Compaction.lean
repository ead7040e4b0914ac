import Bake.Session.Append

/-!
# Preparing a compaction

`compaction/mod.rs`: what a compaction of a branch summarizes and from which entry it
keeps. The cut is searched from the newest entry back until the tokens kept reach the
budget, moved forward past a retry that was left out and back over entries that show
nothing, and may split a turn, whose first messages are then summarized apart.

Tokens of a stored `usage` object are sums of JavaScript numbers; `contextTokens` stands
for them.
-/

namespace Bake.Session

open Bake.Json ProjectedSessionEntry
open OrdMap (get?)

structure CompactionSettings where
 enabled : Bool
 reserveTokens : Nat
 /-- Recent tokens kept unsummarized. -/
 keepRecentTokens : Nat
 thresholdPercent : Option Nat

def roleOf (message : AgentMessage) : Option String := strMember message "role"

/-! ## File operations -/

/-- The files a conversation read, wrote and edited, in first-seen order. -/
structure FileOperations where
 read : List String := []
 written : List String := []
 edited : List String := []
deriving DecidableEq

/-- A path in a set, behind the others unless it is there. -/
def addPath (paths : List String) (path : String) : List String :=
 if path ∈ paths then paths else paths ++ [path]

def memberOf (value : Value) (key : String) : Option Value :=
 value.asObject.bind fun object => get? object key

def addFileOp (toolName : Option String) (args : Option Value) (ops : FileOperations) :
 FileOperations :=
 match ((args.bind fun args => memberOf args "path").bind Value.asStr).filter (· ≠ "") with
 | none => ops
 | some path =>
  if toolName = some "read" then { ops with read := addPath ops.read path }
  else if toolName = some "write" then { ops with written := addPath ops.written path }
  else if toolName = some "edit" then { ops with edited := addPath ops.edited path }
  else ops

def itemsOf : Option Value → List Value
 | some (.array items) => items
 | _ => []

def extractFileOpsFromMessage (message : AgentMessage) (ops : FileOperations) : FileOperations :=
 let add := fun ops call =>
  addFileOp ((memberOf call "name").bind Value.asStr) (memberOf call "arguments") ops
 if roleOf message = some "toolResult" then
  (itemsOf ((get? message "nestedCalls").bind fun nested => memberOf nested "calls")).foldl
   add ops
 else if roleOf message = some "assistant" then
  let calls := (itemsOf (get? message "content")).filter fun block =>
   (memberOf block "type").bind Value.asStr = some "toolCall"
    && (memberOf block "arguments").isSome && (memberOf block "name").isSome
  calls.foldl add ops
 else ops

/-- `extract_file_operations`: the previous compaction's files, then those of the messages. -/
def extractFileOperations (messages : List AgentMessage) (previous : Option SessionEntry) :
 FileOperations :=
 let recorded : FileOperations := match previous with
  | none => {}
  | some previous =>
   let details := (previous.get "details").filter fun details => jsTruthy (some details)
   if jsTruthy (previous.get "fromHook") then {}
   else match details with
    | none => {}
    | some details =>
     let strings := fun key => (itemsOf (memberOf details key)).filterMap Value.asStr
     { read := (strings "readFiles").foldl addPath []
       edited := (strings "modifiedFiles").foldl addPath [] }
 messages.foldl (fun ops message => extractFileOpsFromMessage message ops) recorded

/-! ## Token estimates -/

/-- `js_len`: UTF-16 code units. -/
def jsLen (text : List Char) : Nat := (text.map fun c => if c.toNat < 0x10000 then 1 else 2).sum

def estimatedImageChars : Nat := 4800

def strLen (value : Option Value) : Nat :=
 match value.bind Value.asStr with
 | some text => jsLen text.toList
 | none => 0

def blockType (block : Value) : Option String := (memberOf block "type").bind Value.asStr

def contentChars : Option Value → Nat
 | some (.string text) => jsLen text.toList
 | some (.array blocks) => (blocks.map fun block =>
  if blockType block = some "text" then strLen (memberOf block "text")
  else if blockType block = some "image" then estimatedImageChars
  else 0).sum
 | _ => 0

def assistantBlockChars (block : Value) : Nat :=
 if blockType block = some "text" then strLen (memberOf block "text")
 else if blockType block = some "thinking" then strLen (memberOf block "thinking")
 else if blockType block = some "toolCall" then
  strLen (memberOf block "name") + match memberOf block "arguments" with
   | some arguments => jsLen (writeValue arguments)
   | none => 0
 else 0

def systemChars (message : AgentMessage) : Nat :=
 let sections := match get? message "sections" with
  | some (.object sections) => (sections.map fun b => strLen (some b.2)).sum
  | _ => 0
 let tools := match (get? message "toolsAdded").filter fun tools => jsTruthy (some tools) with
  | some tools => jsLen (writeValue tools)
  | none => 0
 contentChars (get? message "content") + sections + tools

def charsToTokens (chars : Nat) : Nat := (chars + 3) / 4

def estimateTokens (message : AgentMessage) : Nat :=
 match roleOf message with
 | none => 0
 | some role =>
  if role = "system" then charsToTokens (systemChars message)
  else if role = "user" ∨ role = "custom" ∨ role = "toolResult" then
   charsToTokens (contentChars (get? message "content"))
  else if role = "assistant" then
   charsToTokens ((itemsOf (get? message "content")).map assistantBlockChars).sum
  else if role = "bashExecution" then
   charsToTokens (strLen (get? message "command") + strLen (get? message "output"))
  else if role = "branchSummary" ∨ role = "compactionSummary" then
   charsToTokens (strLen (get? message "summary"))
  else 0

structure ContextUsageEstimate where
 tokens : Nat
 usageTokens : Nat
 trailingTokens : Nat
 lastUsageIndex : Option Nat

section Usage

variable (contextTokens : Value → Nat)

/-- `assistant_usage`: the usage of an answer that did not fail, unless it is nothing. -/
def assistantUsage (message : AgentMessage) : Option Value :=
 let stop := strMember message "stopReason"
 if roleOf message ≠ some "assistant" ∨ stop = some "aborted" ∨ stop = some "error" then none
 else (get? message "usage").filter fun usage =>
  jsTruthy (some usage) && 0 < contextTokens usage

/-- `estimate_context_tokens`: the last usage and the messages behind it. -/
def estimateContextTokens (messages : List AgentMessage) : ContextUsageEstimate :=
 let usages := messages.zipIdx.filterMap fun (message, index) =>
  (assistantUsage contextTokens message).map fun usage => (index, usage)
 match usages.getLast? with
 | none =>
  let tokens := (messages.map estimateTokens).sum
  { tokens, usageTokens := 0, trailingTokens := tokens, lastUsageIndex := none }
 | some (index, usage) =>
  let trailing := ((messages.drop (index + 1)).map estimateTokens).sum
  { tokens := contextTokens usage + trailing
    usageTokens := contextTokens usage
    trailingTokens := trailing
    lastUsageIndex := some index }

def entryAt : List ProjectedSessionEntry → Nat → Option SessionEntry
 | [], _ => none
 | entry :: rest, index =>
  if index < entry.messages.length then some entry.sourceEntry
  else entryAt rest (index - entry.messages.length)

/-- `estimate_projected_context_tokens`: usage recorded before a later edit or compaction
is not trusted. -/
def estimateProjectedContextTokens (projection : SessionProjection) (branch : List SessionEntry) :
 ContextUsageEstimate :=
 let estimate := estimateContextTokens contextTokens projection.messages
 let usage := (estimate.lastUsageIndex.bind (entryAt projection.entries)).bind fun entry =>
  if entry.id = "" then none else branch.findIdx? fun other => other.id = entry.id
 let invalidating := (branch.zipIdx.filter fun b =>
  b.1.entryType = "context_edit" || b.1.entryType = "compaction").getLast?.map Prod.snd
 let trusted : Bool := match usage, invalidating with
  | some usage, some invalidating => decide (invalidating < usage)
  | some _, none => true
  | none, _ => false
 if trusted then estimate
 else
  let system := match currentSystemMessage projection.messages with
   | some system => estimateTokens system
   | none => 0
  let tokens := system + ((projection.messages.filter fun message =>
   roleOf message ≠ some "system").map estimateTokens).sum
  { tokens, usageTokens := 0, trailingTokens := tokens, lastUsageIndex := none }

end Usage

/-! ## The cut -/

def isCutPointMessage (message : AgentMessage) : Bool :=
 match roleOf message with
 | some role => role = "user" || role = "assistant" || role = "bashExecution" || role = "custom"
  || role = "branchSummary" || role = "compactionSummary"
 | none => false

def isTurnStartMessage (message : AgentMessage) : Bool :=
 match roleOf message with
 | some role => role = "user" || role = "bashExecution" || role = "custom"
  || role = "branchSummary" || role = "compactionSummary"
 | none => false

structure CutPointResult where
 firstKeptEntryIndex : Nat
 /-- The entry starting the turn being split. -/
 turnStartIndex : Option Nat
 isSplitTurn : Bool

namespace ProjectedSessionEntry

variable (entry : ProjectedSessionEntry)

def isCompaction : Bool := entry.sourceEntry.entryType = "compaction"

/-- `is_projected_turn_start`. -/
def isTurnStart : Bool := !entry.isCompaction && entry.messages.any isTurnStartMessage

def isCutPoint : Bool := !entry.isCompaction && entry.messages.any isCutPointMessage

def tokens : Nat := (entry.messages.map estimateTokens).sum

/-- It shows messages unless an edit leaves it out. -/
def intrinsicallyVisible : Bool :=
 entry.sourceEntry.entryType ≠ "context_edit"
  && sessionEntryToContextMessages entry.sourceEntry ≠ []

def omitted : Bool := entry.intrinsicallyVisible && entry.messages.isEmpty

/-- `summary_messages`: no compaction's, and no system messages. -/
def summaryMessages : List AgentMessage :=
 if entry.isCompaction then []
 else entry.messages.filter fun message => roleOf message ≠ some "system"

end ProjectedSessionEntry

section Cut

variable (entries : List ProjectedSessionEntry)

def findProjectedTurnStartIndex (entryIndex startIndex : Nat) : Option Nat :=
 (List.range' startIndex (entryIndex + 1 - startIndex)).reverse.find? fun index =>
  (entries[index]?).any isTurnStart

def budgetIndex (keepRecentTokens : Nat) : Nat → List (ProjectedSessionEntry × Nat) → Option Nat
 | _, [] => none
 | accumulated, (entry, index) :: older =>
  if entry.tokens = 0 then budgetIndex keepRecentTokens accumulated older
  else if keepRecentTokens ≤ accumulated + entry.tokens then some index
  else budgetIndex keepRecentTokens (accumulated + entry.tokens) older

/-- What follows the cut is a recovery attempt that edits left out, with its edits. -/
def recoveryOmissionSuffix (suffix : List ProjectedSessionEntry) : Bool :=
 let omittedIds := (suffix.filter omitted).map fun entry => entry.sourceEntry.id
 let hasExternalReplacement := suffix.any fun entry =>
  entry.sourceEntry.entryType = "context_edit"
   && !(match entry.sourceEntry.get "replacement" with
    | some .null => true
    | _ => false)
   && !(match strMember entry.sourceEntry.raw "targetId" with
    | some target => omittedIds.contains target
    | none => false)
 !hasExternalReplacement
  && (suffix.any fun entry => entry.sourceEntry.entryType = "message"
   && entry.sourceEntry.messageRole = some "assistant" && entry.omitted)
  && suffix.all fun entry => !entry.isCompaction && (!entry.intrinsicallyVisible || entry.omitted)

/-- The cut moved back over entries that show nothing. -/
def moveBack (startIndex : Nat) : Nat → Nat
 | 0 => 0
 | cut + 1 =>
  if startIndex < cut + 1 then
   match entries[cut]? with
   | none => cut + 1
   | some previous =>
    if previous.isCompaction || !previous.messages.isEmpty then cut + 1
    else moveBack startIndex cut
  else cut + 1

def findProjectedCutPoint (startIndex endIndex keepRecentTokens : Nat) : CutPointResult :=
 let cutPoints := (List.range' startIndex (endIndex - startIndex)).filter fun index =>
  (entries[index]?).any isCutPoint
 match cutPoints.head?, cutPoints.getLast? with
 | some first, some last =>
  let newestFirst := ((entries.zipIdx.take endIndex).drop startIndex).reverse
  let budget := budgetIndex keepRecentTokens 0 newestFirst
  let cutIndex := match budget with
   | some index => (cutPoints.find? fun candidate => index ≤ candidate).getD last
   | none => first
  let suffix := (entries.take endIndex).drop (cutIndex + 1)
  let cutIndex := if budget.isSome && recoveryOmissionSuffix suffix then cutIndex + 1 else cutIndex
  let cutIndex := moveBack entries startIndex cutIndex
  let startsTurn := (entries[cutIndex]?).any isTurnStart
  let turnStartIndex :=
   if startsTurn then none else findProjectedTurnStartIndex entries cutIndex startIndex
  { firstKeptEntryIndex := cutIndex
    turnStartIndex
    isSplitTurn := !startsTurn && turnStartIndex.isSome }
 | _, _ => { firstKeptEntryIndex := startIndex, turnStartIndex := none, isSplitTurn := false }

def summaryRange (start stop : Nat) : List AgentMessage :=
 if max start stop ≤ entries.length then
  ((entries.take (max start stop)).drop start).flatMap summaryMessages
 else []

/-- The newest compaction, which is projected first; older ones show nothing. -/
def previousIndex : Option Nat :=
 entries.findIdx? fun entry => entry.isCompaction && !entry.messages.isEmpty

def boundaryStart : Nat :=
 match previousIndex entries with
 | some index => index + 1
 | none => 0

def CutPointResult.splitStart (cut : CutPointResult) : Option Nat :=
 if cut.isSplitTurn then cut.turnStartIndex else none

def messagesToSummarize (cut : CutPointResult) : List AgentMessage :=
 summaryRange entries (boundaryStart entries) (cut.splitStart.getD cut.firstKeptEntryIndex)

def turnPrefixMessages (cut : CutPointResult) : List AgentMessage :=
 match cut.splitStart with
 | some start => summaryRange entries start cut.firstKeptEntryIndex
 | none => []

end Cut

structure CompactionPreparation where
 firstKeptEntryId : String
 messagesToSummarize : List AgentMessage
 turnPrefixMessages : List AgentMessage
 isSplitTurn : Bool
 tokensBefore : Nat
 previousSummary : Option String
 fileOps : FileOperations
 settings : CompactionSettings

def prepareCompaction (contextTokens : Value → Nat) (pathEntries : List SessionEntry)
 (settings : CompactionSettings) : Option CompactionPreparation :=
 if pathEntries.getLast?.any fun entry => entry.entryType = "compaction" then none
 else
  let projection := buildSessionProjection pathEntries .last
  let entries := projection.entries
  let previous := ((previousIndex entries).bind fun index => entries[index]?).map sourceEntry
  let cut := findProjectedCutPoint entries (boundaryStart entries) entries.length
   settings.keepRecentTokens
  (entries[cut.firstKeptEntryIndex]?).bind fun firstKept =>
   if firstKept.sourceEntry.id = "" then none
   else
    let summarized := messagesToSummarize entries cut
    let turnPrefix := turnPrefixMessages entries cut
    if summarized.isEmpty && turnPrefix.isEmpty then none
    else some {
     firstKeptEntryId := firstKept.sourceEntry.id
     messagesToSummarize := summarized
     turnPrefixMessages := turnPrefix
     isSplitTurn := cut.isSplitTurn
     tokensBefore := (estimateProjectedContextTokens contextTokens projection pathEntries).tokens
     previousSummary := previous.bind fun entry => strMember entry.raw "summary"
     fileOps := (if cut.isSplitTurn then turnPrefix else []).foldl
      (fun ops message => extractFileOpsFromMessage message ops)
      (extractFileOperations summarized previous)
     settings }

end Bake.Session
