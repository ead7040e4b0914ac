import Bake.Json.Stringify

/-!
# The lines of a session file

Each line is kept as the object it was read or written as, with the text kept for
values that memory holds differently.
-/

namespace Bake.Session

open Bake.Json

/-- The `{"type":"session"}` line that opens a session file. -/
structure SessionHeader where
 object : JsonObject
 verbatim : Verbatim := none

/-- One entry of the session tree: any other line whose `id` is a string. -/
structure SessionEntry where
 id : String
 raw : JsonObject
 verbatim : Verbatim := none

namespace SessionHeader

/-- `CURRENT_SESSION_VERSION`. -/
def currentVersion : Nat := 3

/-- A current-version header; `parentSession` is left out when absent. -/
def new (id timestamp cwd : String) (parentSession : Option String) : SessionHeader where
 object :=
  [("type", .string "session"), ("version", .number (.ofNat currentVersion)),
   ("id", .string id), ("timestamp", .string timestamp), ("cwd", .string cwd)]
  ++ match parentSession with
   | some parent => [("parentSession", .string parent)]
   | none => []

/-- The `id` member; empty when it is not a string. -/
def id (header : SessionHeader) : String := (strMember header.object "id").getD ""

/-- The line `JSON.stringify` writes, without its newline. -/
def toLine (header : SessionHeader) : List Char :=
 jsStringifyObjectHeld header.object header.verbatim

end SessionHeader

namespace SessionEntry

/-- Read an object as an entry, when its `id` is a string. -/
def fromJson (raw : JsonObject) : Option SessionEntry :=
 (strMember raw "id").map fun id => { id, raw }

def parentId (entry : SessionEntry) : Option String := strMember entry.raw "parentId"

/-- The `type` member; empty when it is not a string. -/
def entryType (entry : SessionEntry) : String := (strMember entry.raw "type").getD ""

/-- The `timestamp` member, when it is a string. -/
def timestamp (entry : SessionEntry) : Option String := strMember entry.raw "timestamp"

/-- A member of the stored object. -/
def get (entry : SessionEntry) (key : String) : Option Value := OrdMap.get? entry.raw key

/-- The line `JSON.stringify` writes, without its newline. -/
def toLine (entry : SessionEntry) : List Char := jsStringifyObjectHeld entry.raw entry.verbatim

/-- For a `message` entry, the message's `role`, when it is a string. -/
def messageRole (entry : SessionEntry) : Option String :=
 if entry.entryType ≠ "message" then none
 else ((entry.get "message").bind Value.asObject).bind fun message => strMember message "role"

/-- `set_member`: a new `id` string is the entry's id too. -/
def setMember (entry : SessionEntry) (key : String) (value : Value) : SessionEntry where
 id := if key = "id" then value.asStr.getD entry.id else entry.id
 raw := OrdMap.insert entry.raw key value
 verbatim := entry.verbatim

end SessionEntry

inductive FileEntry where
 | header (header : SessionHeader)
 | entry (entry : SessionEntry)
 /-- Another object, kept for a rewrite but no part of the tree. -/
 | unindexed (object : JsonObject)

namespace FileEntry

/-- Classify a parsed line with the text it keeps. An unindexed line drops it. -/
def fromLine (object : JsonObject) (verbatim : Verbatim) : FileEntry :=
 if strMember object "type" = some "session" then .header { object, verbatim }
 else match SessionEntry.fromJson object with
  | some line => .entry { line with verbatim }
  | none => .unindexed object

/-- The line `JSON.stringify` writes, without its newline. -/
def toLine : FileEntry → List Char
 | .header line => line.toLine
 | .entry line => line.toLine
 | .unindexed object => jsStringifyObjectHeld object none

def asEntry : FileEntry → Option SessionEntry
 | .entry line => some line
 | _ => none

/-- The text kept for the line's values. -/
def verbatim : FileEntry → Verbatim
 | .header line => line.verbatim
 | .entry line => line.verbatim
 | .unindexed _ => none

/-- What the line keeps, if anything, was kept when a line was read: its fields are
only ever filled by the reader. -/
def LineRead (line : FileEntry) : Prop :=
 ∀ node, line.verbatim = some node → ∃ (text : List Char) (parsed : ParsedJson),
  '\n' ∉ text ∧ parseJsonLine text = some parsed ∧ parsed.verbatim = some node

theorem LineRead.verbatimOk {line : FileEntry} (h : line.LineRead) :
 ∃ T, '\n' ∉ T ∧ VerbatimOk T line.verbatim := by
 cases hv : line.verbatim with
 | none => exact ⟨[], by simp, by simp [VerbatimOk]⟩
 | some node =>
  obtain ⟨text, parsed, hline, hparse, hverb⟩ := h node hv
  refine ⟨text, hline, ?_⟩
  rintro n hn
  cases hn
  obtain ⟨⟨v, n⟩, hp, hrest⟩ := Option.bind_eq_some_iff.mp hparse
  cases hrest
  dsimp only at hverb
  split at hverb
  · simp at hverb
  · injection hverb with hverb
    exact hverb ▸ (parse_sound hp).2.1

/-- **A line the writer writes is one JSON object without a line break.** -/
theorem toLine_written {line : FileEntry} (h : line.LineRead) :
 IsValue line.toLine ∧ line.toLine.head? = some '{' ∧ '\n' ∉ line.toLine := by
 obtain ⟨T, hT, hv⟩ := h.verbatimOk
 have key : ∀ object, IsValue (jsStringifyObjectHeld object line.verbatim)
  ∧ (jsStringifyObjectHeld object line.verbatim).head? = some '{'
  ∧ '\n' ∉ jsStringifyObjectHeld object line.verbatim := by
  intro object
  obtain ⟨hw, hhead⟩ := jsStringifyObjectHeld_written hv object
  exact ⟨hw.1, hhead, fun hn => hT (hw.2 hn)⟩
 cases line with
 | header line => exact key line.object
 | entry line => exact key line.raw
 | unindexed object => exact key object

end FileEntry

end Bake.Session
