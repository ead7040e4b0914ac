import Bake.Session.Entry
import Bake.Session.Time

/-!
# The session context

The messages an agent resumes with: the path from the root to the leaf, the
latest compaction's summary in place of what it summarizes, and context edits
applied. Entries are read without validating them; a message is the object the
session stores.
-/

namespace Bake.Session

open Bake.Json OrdMap
open OrdMap (get?)

/-- A stored message, kept whole. -/
abbrev AgentMessage := JsonObject

/-- Which leaf a context is built for. -/
inductive LeafSelector where
 /-- The last entry. -/
 | last
 /-- Before the first entry. -/
 | empty
 /-- An entry id; the last entry when no entry has it. -/
 | id (id : String)

/-- A manager's leaf pointer. -/
def LeafSelector.ofLeaf : Option String → LeafSelector
 | some leaf => .id leaf
 | none => .empty

/-- The model a session last used. -/
structure ModelRef where
 provider : String
 modelId : String
deriving DecidableEq

/-- One context entry and the messages it contributes. -/
structure ProjectedSessionEntry where
 sourceEntry : SessionEntry
 messages : List AgentMessage

structure SessionProjection where
 entries : List ProjectedSessionEntry
 messages : List AgentMessage
 thinkingLevel : String
 model : Option ModelRef

structure SessionContext where
 messages : List AgentMessage
 thinkingLevel : String
 model : Option ModelRef

/-! ## Paths -/

/-- Entries by id; a repeated id names its last entry. -/
abbrev EntryIndex := List (String × SessionEntry)

def indexEntries (entries : List SessionEntry) : EntryIndex :=
 entries.foldl (fun index entry => insert index entry.id entry) []

def parentIn (index : EntryIndex) (entry : SessionEntry) : Option SessionEntry :=
 (entry.parentId.filter (· ≠ "")).bind (get? index)

def unseen (index : EntryIndex) (seen : List String) : Nat :=
 (index.filter fun b => b.2.id ∉ seen).length

theorem unseen_lt {index : EntryIndex} {seen : List String} {b : String × SessionEntry}
 (hb : b ∈ index) (hs : b.2.id ∉ seen) : unseen index (b.2.id :: seen) < unseen index seen := by
 unfold unseen
 have hsub : (index.filter fun c => c.2.id ∉ b.2.id :: seen)
  = (index.filter fun c => c.2.id ∉ seen).filter fun c => c.2.id ≠ b.2.id := by
  rw [List.filter_filter]
  refine List.filter_congr fun c _ => ?_
  simp
 rw [hsub]
 refine List.length_filter_lt_length_iff_exists.mpr ⟨b, ?_, by simp⟩
 exact List.mem_filter.mpr ⟨hb, by simpa using hs⟩

theorem mem_index_of_parentIn {index : EntryIndex} {entry parent : SessionEntry}
 (h : parentIn index entry = some parent) : ∃ key, (key, parent) ∈ index := by
 obtain ⟨key, -, hkey⟩ := Option.bind_eq_some_iff.mp h
 exact ⟨key, mem_of_get? hkey⟩

/-- The entries from `entry` up to its root, or up to where its chain comes back to
an entry already on the path. -/
def pathUp (index : EntryIndex) (seen : List String) (entry : SessionEntry) : List SessionEntry :=
 entry :: match _h : parentIn index entry with
  | none => []
  | some parent =>
   if parent.id ∈ entry.id :: seen then [] else pathUp index (entry.id :: seen) parent
termination_by unseen index (entry.id :: seen)
decreasing_by
 obtain ⟨key, hmem⟩ := mem_index_of_parentIn _h
 exact unseen_lt hmem (by assumption)

def pathToRoot (start : Option SessionEntry) (index : EntryIndex) : List SessionEntry :=
 match start with
 | none => []
 | some entry => (pathUp index [] entry).reverse

def sessionPath (entries : List SessionEntry) (leaf : LeafSelector) (index : EntryIndex) :
 List SessionEntry :=
 match leaf with
 | .empty => []
 | .last => pathToRoot entries.getLast? index
 | .id id =>
  -- an empty id is falsy: the last entry
  pathToRoot (((get? index id).filter fun _ => id ≠ "").or entries.getLast?) index

/-! ## Settings -/

def modelRef (provider modelId : Option String) : Option ModelRef :=
 provider.bind fun provider => modelId.map fun modelId => { provider, modelId }

def applySettings (settings : String × Option ModelRef) (entry : SessionEntry) :
 String × Option ModelRef :=
 if entry.entryType = "thinking_level_change" then
  ((strMember entry.raw "thinkingLevel").getD settings.1, settings.2)
 else if entry.entryType = "model_change" then
  (settings.1, modelRef (strMember entry.raw "provider") (strMember entry.raw "modelId"))
 else if entry.entryType = "message" ∧ entry.messageRole = some "assistant" then
  (settings.1, ((entry.get "message").bind Value.asObject).bind fun message =>
   modelRef (strMember message "provider") (strMember message "model"))
 else settings

def contextSettings (path : List SessionEntry) : String × Option ModelRef :=
 path.foldl applySettings ("off", none)

/-! ## Messages -/

def copyMember (target source : JsonObject) (key : String) : JsonObject :=
 match get? source key with
 | some value => insert target key value
 | none => target

def intValue (n : Int) : Value :=
 .number (if 0 ≤ n then .posInt (UInt64.ofNat n.toNat) else .negInt (Int64.ofInt n))

/-- The entry's time in milliseconds; `NaN` is `null`. -/
def timestampValue (entry : SessionEntry) : Value :=
 match jsDateMs (entry.get "timestamp") with
 | some ms => intValue ms
 | none => .null

def roleObject (role : String) : JsonObject := [("role", .string role)]

/-- Whether a member is missing or `null`. -/
def isNullish : Option Value → Bool
 | none | some .null => true
 | _ => false

def sessionEntryToContextMessages (entry : SessionEntry) : List AgentMessage :=
 if entry.entryType = "message" then
  match get? entry.raw "message" with
  | some (.object message) =>
   let missingContent := isNullish (get? message "content")
   let role := strMember message "role"
   if role = some "system" ∧ missingContent then
    [insert message "content" (.string "")]
   else if (role = some "user" ∨ role = some "assistant" ∨ role = some "toolResult")
    ∧ missingContent then
    [insert message "content" (.array [])]
   else [message]
  | _ => []
 else if entry.entryType = "custom_message" then
  let content := match get? entry.raw "content" with
   | none | some .null => .array []
   | some content => content
  let message := copyMember (roleObject "custom") entry.raw "customType"
  let message := insert message "content" content
  let message := copyMember (copyMember message entry.raw "display") entry.raw "details"
  [insert message "timestamp" (timestampValue entry)]
 else if entry.entryType = "branch_summary" ∧ jsTruthy (get? entry.raw "summary") then
  let message := copyMember (roleObject "branchSummary") entry.raw "summary"
  let message := copyMember message entry.raw "fromId"
  [insert message "timestamp" (timestampValue entry)]
 else if entry.entryType = "compaction" then
  let summary := copyMember (roleObject "compactionSummary") entry.raw "summary"
  let summary := copyMember summary entry.raw "tokensBefore"
  let summary := insert summary "timestamp" (timestampValue entry)
  match get? entry.raw "systemMessage" with
  | some (.object system) => [system, summary]
  | _ => [summary]
 else []

def contextEntries (path : List SessionEntry) : List SessionEntry :=
 let isCompaction := fun entry : SessionEntry => entry.entryType = "compaction"
 match path.reverse.dropWhile fun entry => !isCompaction entry with
 | [] => path
 | compaction :: before =>
  let after := (path.reverse.takeWhile fun entry => !isCompaction entry).reverse
  let firstKept := strMember compaction.raw "firstKeptEntryId"
  let kept := before.reverse.dropWhile fun entry => some entry.id ≠ firstKept
  compaction :: (kept.filter fun entry => entry.messageRole ≠ some "system") ++ after

/-- `[{ type: "text", text }]`. -/
def textBlocks (text : String) : Value :=
 .array [.object [("type", .string "text"), ("text", .string text)]]

def editMessage (content : Option Value) (message : AgentMessage) : AgentMessage :=
 let role := (strMember message "role").getD ""
 if role ≠ "user" ∧ role ≠ "assistant" ∧ role ≠ "toolResult" ∧ role ≠ "custom" then message
 else match content with
  | some (.string text) =>
   if role = "assistant" ∨ role = "toolResult" then
    insert message "content" (textBlocks text)
   else insert message "content" (.string text)
  | some content => insert message "content" content
  | none => erase message "content"

def projectEntry (entry : SessionEntry) (edit : Option SessionEntry) : List AgentMessage :=
 let messages := sessionEntryToContextMessages entry
 match edit.bind fun edit => edit.get "replacement" with
 | none => messages
 | some .null => []
 | some replacement =>
  let content := replacement.asObject.bind fun object => get? object "content"
  messages.map (editMessage content)

/-- The context edits among the entries, by target; the last one counts. -/
def contextEdits (context : List SessionEntry) : EntryIndex := context.foldl (fun edits entry =>
  if entry.entryType = "context_edit" then
   match strMember entry.raw "targetId" with
   | some target => insert edits target entry
   | none => edits
  else edits) []

/-- The messages a context entry contributes at its place: an older compaction kept
by the newest one contributes none. -/
def projectAt (edits : EntryIndex) (first : Bool) (entry : SessionEntry) : ProjectedSessionEntry where
 sourceEntry := entry
 messages :=
  if entry.entryType = "compaction" ∧ first = false then []
  else projectEntry entry (get? edits entry.id)

def projectContext (context : List SessionEntry) : List ProjectedSessionEntry :=
 match context with
 | [] => []
 | entry :: rest =>
  let edits := contextEdits context
  projectAt edits true entry :: rest.map (projectAt edits false)

def projection (entries : List SessionEntry) (leaf : LeafSelector) (index : EntryIndex) :
 SessionProjection :=
 let path := sessionPath entries leaf index
 let settings := contextSettings path
 let projected := projectContext (contextEntries path)
 { entries := projected
   messages := projected.flatMap ProjectedSessionEntry.messages
   thinkingLevel := settings.1
   model := settings.2 }

def buildSessionProjection (entries : List SessionEntry) (leaf : LeafSelector) :
 SessionProjection :=
 projection entries leaf (indexEntries entries)

def buildSessionContext (entries : List SessionEntry) (leaf : LeafSelector) : SessionContext :=
 let projection := buildSessionProjection entries leaf
 { messages := projection.messages
   thinkingLevel := projection.thinkingLevel
   model := projection.model }

end Bake.Session
