import Bake.Ai.Message
import Bake.Lib.Run

/-!
# What the stream processors share

The three processors that assemble a streamed response read decoded provider events,
build one assistant message and emit an event for every change to it. Here are the
members they read, the text of a tool call's arguments while it streams, and the events
they emit.

The JSON text functions are parameters (`Codec`): nothing the processors do depends on
what a text is read as, only on which text is read.
-/

namespace Bake.Ai

open Bake.Json

/-! ## Members of an event -/

/-- `Value::get`: a member of an object. -/
def get (value : Option Value) (key : String) : Option Value :=
 match value with
 | some (.object members) => OrdMap.get? members key
 | _ => none

def asI64 : Value → Option Int
 | .number (.posInt n) => if n.toNat < 2 ^ 63 then some n.toNat else none
 | .number (.negInt n) => some n.toInt
 | _ => none

def asArray : Value → Option (List Value)
 | .array items => some items
 | _ => none

variable {key : String}

theorem get_insert_ne (object : JsonObject) (value : Value) {other : String} (h : key ≠ other) :
 get (some (.object (OrdMap.insert object key value))) other = get (some (.object object)) other :=
 OrdMap.get?_insert_ne object value h

def getStr (value : Option Value) (key : String) : Option String := (get value key).bind Value.asStr

theorem getStr_insert_ne (object : JsonObject) (value : Value) {other : String} (h : key ≠ other) :
 getStr (some (.object (OrdMap.insert object key value))) other
  = getStr (some (.object object)) other := by
 rw [getStr, get_insert_ne object value h, getStr]

/-- `non_empty_str` of a member. -/
def nonEmptyStr (value : Option Value) (key : String) : Option String :=
 (getStr value key).filter (· ≠ "")

/-- The kind of an event, of a block or of an item. -/
def typeOf (value : Option Value) : Option String := getStr value "type"

theorem typeOf_insert_ne (object : JsonObject) (value : Value) (h : key ≠ "type") :
 typeOf (some (.object (OrdMap.insert object key value))) = typeOf (some (.object object)) :=
 getStr_insert_ne object value h

/-- A member's text; a missing one is empty. -/
def textOf (value : Option Value) (key : String) : String := (getStr value key).getD ""

/-! ## JSON text -/

/-- The functions on JSON text, and lower case. -/
structure Codec where
 parse : String → JsonObject
 /-- Blank text is no object yet. -/
 parse_empty : parse "" = []
 /-- An empty object is read as one. -/
 parse_braces : parse "\x7b\x7d" = []
 /-- What a `StreamingJsonObject` holds after the texts pushed onto it. -/
 streamed : List String → JsonObject
 /-- `serde_json`'s text of a value. -/
 toText : Value → String
 /-- `serde_json::from_str`. -/
 fromText : String → Option Value
 /-- `str::to_lowercase`. -/
 toLowercase : String → String

/-- Arguments while they stream: the texts pushed, from the first. -/
structure StreamingJsonObject where
 pushed : List String

namespace StreamingJsonObject

/-- No text yet. -/
def empty : StreamingJsonObject := ⟨[]⟩

/-- Arguments whose text starts as `text`. -/
def new (text : String) : StreamingJsonObject := ⟨[text]⟩

def push (arguments : StreamingJsonObject) (delta : String) : StreamingJsonObject :=
 ⟨arguments.pushed ++ [delta]⟩

def text (arguments : StreamingJsonObject) : String := String.join arguments.pushed

def object (codec : Codec) (arguments : StreamingJsonObject) : JsonObject :=
 if arguments.pushed = [] then [] else codec.streamed arguments.pushed

end StreamingJsonObject

/-! ## The guard against runaway whitespace -/

def defaultMaxToolArgumentWhitespace : Nat := 2000

/-- How far a tool call's arguments have been scanned. A character outside the basic
plane, two UTF-16 units, is scanned like any other that is neither quote, backslash nor
whitespace. -/
structure ArgumentScan where
 inString : Bool
 escaped : Bool
 trailingWhitespace : Nat
deriving DecidableEq

namespace ArgumentScan

def empty : ArgumentScan := { inString := false, escaped := false, trailingWhitespace := 0 }

def step (scan : ArgumentScan) (c : Char) : ArgumentScan :=
 if scan.inString then
  if scan.escaped then { scan with escaped := false }
  else if c = '\\' then { scan with escaped := true }
  else if c = '"' then { scan with inString := false }
  else scan
 else if c = ' ' ∨ c = '\n' ∨ c = '\r' ∨ c = '\t' then
  { scan with trailingWhitespace := scan.trailingWhitespace + 1 }
 else { scan with trailingWhitespace := 0, inString := c = '"' }

def scanArguments (scan : ArgumentScan) (delta : String) : ArgumentScan :=
 delta.toList.foldl step scan

/-- Scan a delta; a run of whitespace past `max` fails. -/
def checkDelta (scan : ArgumentScan) (delta : String) (max : Nat) (model toolName : String) :
 Except String ArgumentScan :=
 let scan := scan.scanArguments delta
 if max < scan.trailingWhitespace then
  .error ("model \"" ++ model ++ "\" streamed " ++ toString scan.trailingWhitespace
   ++ " whitespace characters after the arguments of tool call \"" ++ toolName
   ++ "\" without closing them")
 else .ok scan

theorem checkDelta_ok {scan scan' : ArgumentScan} {delta model toolName : String} {max : Nat}
 (h : scan.checkDelta delta max model toolName = .ok scan') :
 scan' = scan.scanArguments delta := by
 unfold checkDelta at h
 dsimp only at h
 split at h
 · simp at h
 · exact (Except.ok.inj h).symm

end ArgumentScan

/-! ## Events -/

/-- What is emitted for a change to the message; `partialMessage` is the message then. -/
inductive AssistantMessageEvent where
 | textStart (contentIndex : Nat) (partialMessage : AssistantMessage)
 | textDelta (contentIndex : Nat) (delta : String) (partialMessage : AssistantMessage)
 | textEnd (contentIndex : Nat) (content : String) (partialMessage : AssistantMessage)
 | thinkingStart (contentIndex : Nat) (partialMessage : AssistantMessage)
 | thinkingDelta (contentIndex : Nat) (delta : String) (partialMessage : AssistantMessage)
 | thinkingEnd (contentIndex : Nat) (content : String) (partialMessage : AssistantMessage)
 | toolCallStart (contentIndex : Nat) (partialMessage : AssistantMessage)
 | toolCallDelta (contentIndex : Nat) (delta : String) (partialMessage : AssistantMessage)
 | toolCallEnd (contentIndex : Nat) (toolCall : ToolCall) (partialMessage : AssistantMessage)

inductive BlockKind where
 | text
 | thinking
 | toolCall
deriving DecidableEq, Repr

/-- An event without its place and the message. -/
inductive Change where
 | start (kind : BlockKind)
 | delta (kind : BlockKind) (text : String)
 | finished (text : String)
 | thought (text : String)
 | called (toolCall : ToolCall)

namespace AssistantMessageEvent

def contentIndex : AssistantMessageEvent → Nat
 | textStart i _ | textDelta i _ _ | textEnd i _ _ | thinkingStart i _ | thinkingDelta i _ _
 | thinkingEnd i _ _ | toolCallStart i _ | toolCallDelta i _ _ | toolCallEnd i _ _ => i

def partialMessage : AssistantMessageEvent → AssistantMessage
 | textStart _ m | textDelta _ _ m | textEnd _ _ m | thinkingStart _ m | thinkingDelta _ _ m
 | thinkingEnd _ _ m | toolCallStart _ m | toolCallDelta _ _ m | toolCallEnd _ _ m => m

def change : AssistantMessageEvent → Change
 | textStart .. => .start .text
 | textDelta _ delta _ => .delta .text delta
 | textEnd _ content _ => .finished content
 | thinkingStart .. => .start .thinking
 | thinkingDelta _ delta _ => .delta .thinking delta
 | thinkingEnd _ content _ => .thought content
 | toolCallStart .. => .start .toolCall
 | toolCallDelta _ delta _ => .delta .toolCall delta
 | toolCallEnd _ toolCall _ => .called toolCall

end AssistantMessageEvent

/-- The event begins a block. -/
def Change.isStart : Change → Bool
 | .start _ => true
 | _ => false

def journal (events : List AssistantMessageEvent) : List (Nat × Change) :=
 events.map fun event => (event.contentIndex, event.change)

theorem journal_snoc (events : List AssistantMessageEvent) (event : AssistantMessageEvent) :
 journal (events ++ [event]) = journal events ++ [(event.contentIndex, event.change)] := by
 rw [journal, List.map_append, List.map_singleton, journal]

theorem join_append (a : List String) (text : String) :
 String.join (a ++ [text]) = String.join a ++ text := by
 simp [String.join]

def AssistantContentBlock.kind : AssistantContentBlock → BlockKind
 | .text _ => .text
 | .thinking _ => .thinking
 | .toolCall _ => .toolCall

/-- What the last event of a block says. -/
def AssistantContentBlock.final : AssistantContentBlock → Change
 | .text block => .finished block.text
 | .thinking block => .thought block.thinking
 | .toolCall call => .called call

/-- A block without the replay data of its reasoning, which may be filled in late. -/
def AssistantContentBlock.unsigned : AssistantContentBlock → AssistantContentBlock
 | .thinking block => .thinking { block with thinkingSignature := none }
 | block => block

def AssistantMessage.pending (model : Model) (timestamp : Int) : AssistantMessage :=
 { content := []
   api := model.api
   provider := model.provider
   model := model.id
   responseModel := none
   responseId := none
   stopReason := .pending
   errorMessage := none
   rawStopReason := none
   timestamp }

end Bake.Ai
