import Bake.Ai.Transform

/-!
# Tool-call ids of a protocol

What each protocol accepts as the id of a tool call, and how the id of another model's
call is mapped to one: `normalize_tool_call_id` of Anthropic,
`normalize_completions_tool_call_id`, and the closure of `convert_responses_messages`.
Lengths are in UTF-16 units, as the original counts them. A Responses id is two ids
joined by `|`: the call's and the item's.
-/

namespace Bake.Ai

/-! ## UTF-16 -/

def utf16Units (c : Char) : List UInt32 :=
 if c.val < 0x10000 then [c.val]
 else
  let high : UInt32 := 0xD800 + ((c.val - 0x10000) >>> (10 : UInt32))
  let low : UInt32 := 0xDC00 + ((c.val - 0x10000) &&& (0x3FF : UInt32))
  [high, low]

/-- `encode_utf16().count()`. -/
def utf16Length (text : String) : Nat := (text.toList.flatMap utf16Units).length

def isIdChar (c : Char) : Bool := c.isAlphanum || c = '_' || c = '-'

/-- `sanitize_id_chars`: every other unit becomes `_`. -/
def sanitizeIdChars (text : String) : String := String.ofList (text.toList.flatMap fun c =>
  if isIdChar c then [c] else List.replicate (utf16Units c).length '_')

/-- The characters that fit into `count` units. -/
def takeUnits : Nat → List Char → List Char
 | _, [] => []
 | count, c :: cs =>
  if (utf16Units c).length ≤ count then c :: takeUnits (count - (utf16Units c).length) cs else []

def truncateUnits (text : String) (count : Nat) : String :=
 String.ofList (takeUnits count text.toList)

/-! ## A short hash -/

/-- The last `count` digits in base 36, without leading zeros. -/
def base36Digits : Nat → Nat → List Char
 | 0, _ => []
 | count + 1, n =>
  if n = 0 then []
  else
   let digit := n % 36
   base36Digits count (n / 36)
    ++ [if digit < 10 then Char.ofNat (digit + 48) else Char.ofNat (digit + 87)]

/-- `base36`: seven digits hold 32 bits. -/
def base36 (value : UInt32) : String :=
 if value = 0 then "0" else String.ofList (base36Digits 7 value.toNat)

def hashUnit (factor lane unit : UInt32) : UInt32 := (lane ^^^ unit) * factor

def mixLanes (lane other : UInt32) : UInt32 :=
 let left : UInt32 := (lane ^^^ (lane >>> (16 : UInt32))) * 2246822507
 let right : UInt32 := (other ^^^ (other >>> (13 : UInt32))) * 3266489909
 left ^^^ right

/-- `short_hash`: two 32-bit lanes, each printed in base 36. -/
def shortHash (text : String) : String :=
 let units := text.toList.flatMap utf16Units
 let h1 := units.foldl (hashUnit 2654435761) 0xdeadbeef
 let h2 := units.foldl (hashUnit 1597334677) 0x41c6ce57
 let h1 := mixLanes h1 h2
 let h2 := mixLanes h2 h1
 base36 h2 ++ base36 h1

example : shortHash "call_abc|fc_123" = "jp01dsxufnom" := by decide +kernel

/-! ## The two ids of a Responses call -/

/-- The part of an id before the first `|`. -/
def callIdOf (id : String) : String := String.ofList (id.toList.takeWhile (· ≠ '|'))

/-- What follows the first `|`. -/
def afterBar (id : String) : Option (List Char) :=
 match id.toList.dropWhile (· ≠ '|') with
 | [] => none
 | _ :: rest => some rest

/-- The part between the first two `|`. -/
def itemIdOf (id : String) : Option String :=
 (afterBar id).map fun rest => String.ofList (rest.takeWhile (· ≠ '|'))

/-! ## The protocols -/

/-- Anthropic's `normalize_tool_call_id`. -/
def normalizeToolCallId (id : String) : String := truncateUnits (sanitizeIdChars id) 64

def normalizeCompletionsToolCallId (model : Model) (id : String) : String :=
 match afterBar id with
 | some rest =>
  let callId := sanitizeIdChars (callIdOf id)
  let itemId := sanitizeIdChars (String.ofList rest)
  let combined := if itemId = "" then callId else callId ++ "_" ++ itemId
  if utf16Length combined ≤ 40 then combined
  else
   let hash := String.ofList ((shortHash id).toList.take 8)
   truncateUnits callId (max (40 - hash.length - 1) 1) ++ "_" ++ hash
 | none => if model.provider = "openai" ∧ 40 < utf16Length id then truncateUnits id 40 else id

def normalizeIdPart (part : String) : String :=
 let sanitized := sanitizeIdChars part
 let normalized := if 64 < sanitized.utf8ByteSize then truncateUnits sanitized 64 else sanitized
 String.ofList (normalized.toList.reverse.dropWhile (· = '_')).reverse

def foreignItemId (itemId : String) : String := truncateUnits ("fc_" ++ shortHash itemId) 64

/-- The normaliser of `convert_responses_messages`. -/
def normalizeResponsesToolCallId (allowedToolCallProviders : List String) (model : Model)
 (id : String) (source : AssistantMessage) : String :=
 if model.provider ∉ allowedToolCallProviders then normalizeIdPart id
 else match itemIdOf id with
  | none => normalizeIdPart id
  | some itemId =>
   let foreign := source.provider ≠ model.provider ∨ source.api ≠ model.api
   let item := if foreign then foreignItemId itemId else normalizeIdPart itemId
   let item := if item.startsWith "fc_" then item else normalizeIdPart ("fc_" ++ item)
   normalizeIdPart (callIdOf id) ++ "|" ++ item

end Bake.Ai
