import Bake.Json.Value

/-!
# Reading one session line as `JSON.parse` reads it

`Parser::run` over a cursor: the text from `pos` on. The reader keeps no
recursion; open containers are a stack of frames, and containers nested past
`maxHeldDepth` are only validated, so they are a second stack of kinds.

A text range of the source is here the slice it names: `Kept.deep` and
`Kept.lossyKeys` hold the text, and a frame's `start` is the text from its
opening bracket on, from which the slice is cut when the frame closes.
-/

open List Option

namespace Bake.Json

/-- The deepest nesting held in memory. -/
def maxHeldDepth : Nat := 128

/-- Why a value's text is kept. -/
inductive Kept where
 /-- A string holding a lone surrogate: the string in memory and its
  `JSON.stringify` text. -/
 | string (value : String) (text : List Char)
 /-- A container nested past `maxHeldDepth`, `null` in memory. -/
 | deep (text : List Char)
 /-- An object with a key holding a lone surrogate, inside `depth` containers. -/
 | lossyKeys (text : List Char) (depth : Nat)

inductive Node where
 | mk (kept : Option Kept) (keyTexts : List (String × List Char))
  (members : List (String × Node)) (items : List (Nat × Node))

namespace Node

/-- Nothing kept. -/
def empty : Node := .mk none [] [] []

def kept : Node → Option Kept
 | .mk kept _ _ _ => kept

def keyTexts : Node → List (String × List Char)
 | .mk _ keyTexts _ _ => keyTexts

def members : Node → List (String × Node)
 | .mk _ _ members _ => members

def items : Node → List (Nat × Node)
 | .mk _ _ _ items => items

def isEmpty : Node → Bool
 | .mk kept keyTexts members items =>
  kept.isNone && keyTexts.isEmpty && members.isEmpty && items.isEmpty

end Node

/-- The text of values a line holds differently from `JSON.parse`. -/
abbrev Verbatim := Option Node

inductive Kind where
 | array
 | object
deriving DecidableEq, Repr

/-- An open container. -/
inductive Frame where
 | array (items : List Value) (node : Node)
 | object (map : JsonObject) (key : String) (keyText : Option (List Char))
  (start : List Char) (lossyKey : Bool) (node : Node)

def Frame.kind : Frame → Kind
 | .array .. => .array
 | .object .. => .object

/-- The reader's state. Both stacks are innermost first. -/
structure Parser where
 /-- The text from the cursor on. -/
 rest : List Char
 /-- Containers around the text being read, for a text cut from a line. -/
 baseDepth : Nat
 stack : List Frame
 /-- Containers below `maxHeldDepth`, validated without being built. -/
 skipped : List Kind
 skipStart : List Char
 root : Option (Value × Node)

/-- One UTF-16 unit of a decoded string that names no character, or a character. -/
inductive StrUnit where
 | text (c : Char)
 | lone (unit : Nat)
deriving DecidableEq

/-! ## Tokens -/

def isJsonWs (c : Char) : Bool := c = ' ' || c = '\t' || c = '\n' || c = '\r'

def skipWhitespace (text : List Char) : List Char := text.dropWhile isJsonWs

def isHexDigit (c : Char) : Bool := c.isDigit || ('a' ≤ c && c ≤ 'f') || ('A' ≤ c && c ≤ 'F')

def hexValue (c : Char) : Nat :=
 if c.isDigit then c.toNat - '0'.toNat
 else if 'a' ≤ c && c ≤ 'f' then c.toNat - 'a'.toNat + 10
 else c.toNat - 'A'.toNat + 10

/-- Four hexadecimal digits at the cursor. -/
def hex4 : List Char → Option (Nat × List Char)
 | a :: b :: c :: d :: rest =>
  if isHexDigit a && isHexDigit b && isHexDigit c && isHexDigit d then
   some (((hexValue a * 16 + hexValue b) * 16 + hexValue c) * 16 + hexValue d, rest)
  else none
 | _ => none

def isSurrogate (unit : Nat) : Bool := 0xD800 ≤ unit && unit < 0xE000

def loneUnit (unit : Nat) : StrUnit :=
 if isSurrogate unit then .lone unit else .text (Char.ofNat unit)

/-- The character a `\u` escape starts, consuming a following low surrogate
escape; the unit itself for a lone surrogate. -/
def codePoint (unit : Nat) (rest : List Char) : StrUnit × List Char :=
 if 0xD800 ≤ unit ∧ unit < 0xDC00 then
  match rest with
  | '\\' :: 'u' :: low => match hex4 low with
   | some (lowUnit, after) =>
    if 0xDC00 ≤ lowUnit ∧ lowUnit < 0xE000 then
     (.text (Char.ofNat (0x10000 + (unit - 0xD800) * 1024 + (lowUnit - 0xDC00))), after)
    else (loneUnit unit, rest)
   | none => (loneUnit unit, rest)
  | _ => (loneUnit unit, rest)
 else (loneUnit unit, rest)

/-- What follows a backslash. -/
def escape : List Char → Option (StrUnit × List Char)
 | '"' :: rest => some (.text '"', rest)
 | '\\' :: rest => some (.text '\\', rest)
 | '/' :: rest => some (.text '/', rest)
 | 'b' :: rest => some (.text '\x08', rest)
 | 'f' :: rest => some (.text '\x0c', rest)
 | 'n' :: rest => some (.text '\n', rest)
 | 'r' :: rest => some (.text '\r', rest)
 | 't' :: rest => some (.text '\t', rest)
 | 'u' :: rest => (hex4 rest).map fun (unit, rest) => codePoint unit rest
 | _ => none

variable {rest text : List Char}

theorem hex4_length {n : Nat} (h : hex4 text = some (n, rest)) : rest.length < text.length := by
 unfold hex4 at h
 split at h
 · split at h
   · injection h with h
     injection h with _ h
     subst h
     simp only [length_cons]
     omega
   · simp at h
 · simp at h

theorem codePoint_length (unit : Nat) (rest : List Char) :
 (codePoint unit rest).2.length ≤ rest.length := by
 unfold codePoint
 split
 · split
   · split
     next h =>
      split
      · have := hex4_length h
        simp only [length_cons]
        omega
      · exact Nat.le_refl _
     · exact Nat.le_refl _
   · exact Nat.le_refl _
 · exact Nat.le_refl _

theorem escape_length {u : StrUnit} (h : escape text = some (u, rest)) :
 rest.length < text.length := by
 unfold escape at h
 split at h
 case h_9 rest' =>
  cases hx : hex4 rest' with
  | none => rw [hx] at h; simp at h
  | some r =>
   rw [hx] at h
   obtain ⟨n, r⟩ := r
   simp only [map_some, some.injEq] at h
   have h1 := hex4_length hx
   have h2 := codePoint_length n r
   rw [h] at h2
   simp only [length_cons]
   dsimp only at h2
   omega
 case h_10 => simp at h
 all_goals
  injection h with h
  injection h with _ h
  subst h
  simp

/-- The units of a string, from behind its opening quote to behind its closing
one. -/
def stringUnits : List Char → Option (List StrUnit × List Char)
 | [] => none
 | '"' :: rest => some ([], rest)
 | '\\' :: rest =>
  match _h : escape rest with
  | none => none
  | some (u, rest') => (stringUnits rest').map fun (us, r) => (u :: us, r)
 | c :: rest =>
  if c.toNat < 0x20 then none
  else (stringUnits rest).map fun (us, r) => (.text c :: us, r)
termination_by text => text.length
decreasing_by
 · have := escape_length _h
   simp only [length_cons]
   omega
 · simp

/-- A unit in memory: a lone surrogate reads as U+FFFD. -/
def StrUnit.char : StrUnit → Char
 | .text c => c
 | .lone _ => '\uFFFD'

def unitsValue (units : List StrUnit) : String := String.ofList (units.map StrUnit.char)

/-- Whether a decoded string holds a lone surrogate. -/
def unitsLossy (units : List StrUnit) : Bool := units.any fun
  | .lone _ => true
  | .text _ => false

def hexDigit (n : Nat) : Char := Nat.digitChar n

/-- `\u` and the unit's four hexadecimal digits. -/
def unicodeEscape (unit : Nat) : List Char :=
 ['\\', 'u', hexDigit (unit / 4096 % 16), hexDigit (unit / 256 % 16), hexDigit (unit / 16 % 16),
  hexDigit (unit % 16)]

/-- How `JSON.stringify` writes one character of a string. -/
def writeChar (c : Char) : List Char :=
 if c = '"' then ['\\', '"']
 else if c = '\\' then ['\\', '\\']
 else if c = '\x08' then ['\\', 'b']
 else if c = '\x0c' then ['\\', 'f']
 else if c = '\n' then ['\\', 'n']
 else if c = '\r' then ['\\', 'r']
 else if c = '\t' then ['\\', 't']
 else if c.toNat < 0x20 then unicodeEscape c.toNat
 else [c]

/-- `JSON.stringify` of a string. -/
def writeString (text : String) : List Char :=
 '"' :: text.toList.flatMap writeChar ++ ['"']

def StrUnit.write : StrUnit → List Char
 | .text c => writeChar c
 | .lone unit => unicodeEscape unit

/-- `JSON.stringify` of a string with lone surrogates, which it escapes as
lowercase `\udxxx`. -/
def canonicalString (units : List StrUnit) : List Char :=
 '"' :: units.flatMap StrUnit.write ++ ['"']

/-- A string at the cursor, which is at its opening quote: its value, and when it
holds a lone surrogate, its `JSON.stringify` text. -/
def string (text : List Char) : Option ((String × Option (List Char)) × List Char) :=
 (stringUnits text.tail).map fun (units, rest) =>
  ((unitsValue units, if unitsLossy units then some (canonicalString units) else none), rest)

/-- The cursor past ASCII digits. -/
def digits (text : List Char) : List Char := text.dropWhile Char.isDigit

/-- At least one digit, and the cursor past the rest of them. -/
def digits1 (text : List Char) : Option (List Char) :=
 match text with
 | c :: rest => if c.isDigit then some (digits rest) else none
 | [] => none

/-- The cursor past the integer digits of a number. -/
def intPart : List Char → Option (List Char)
 | '0' :: rest => some rest
 | c :: rest => if '1' ≤ c ∧ c ≤ '9' then some (digits rest) else none
 | [] => none

/-- The cursor past the fraction of a number. -/
def fracPart (text : List Char) : Option (List Char) :=
 if text.head? = some '.' then digits1 text.tail else some text

/-- The cursor past an optional sign. -/
def skipSign (text : List Char) : List Char :=
 if text.head? = some '+' ∨ text.head? = some '-' then text.tail else text

/-- The cursor past the exponent of a number. -/
def expPart (text : List Char) : Option (List Char) :=
 if text.head? = some 'e' ∨ text.head? = some 'E' then digits1 (skipSign text.tail)
 else some text

/-- The cursor past a number token in JSON's grammar. -/
def numberEnd (text : List Char) : Option (List Char) :=
 (intPart (if text.head? = some '-' then text.tail else text)).bind fun text =>
  (fracPart text).bind expPart

/-- The text between two cursors. -/
def slice (start stop : List Char) : List Char := start.take (start.length - stop.length)

/-! ## The machine -/

namespace Parser

/-- The kinds of the open containers, innermost first. -/
def shape (p : Parser) : List Kind := p.skipped ++ p.stack.map Frame.kind

def topKind (p : Parser) : Option Kind := p.shape.head?

/-- Give a finished value and the text kept below it to its container; values
inside a skipped container are dropped. -/
def attach (p : Parser) (value : Value) (below : Node) : Parser :=
 if p.skipped ≠ [] then p
 else match p.stack with
  | [] => { p with root := some (value, below) }
  | .array items node :: outer =>
   let node := if below.isEmpty then node
    else .mk node.kept node.keyTexts node.members (node.items ++ [(items.length, below)])
   { p with stack := .array (items ++ [value]) node :: outer }
  | .object map key keyText start lossyKey node :: outer =>
   let keyTexts := match keyText with
    | some text => OrdMap.insert node.keyTexts key text
    | none => OrdMap.erase node.keyTexts key
   let members := if below.isEmpty then OrdMap.erase node.members key
    else OrdMap.insert node.members key below
   { p with
     stack := .object (OrdMap.insert map key value) "" none start lossyKey
      (.mk node.kept keyTexts members node.items) :: outer }

/-- Close the innermost container, whose closing bracket was just read. -/
def close (p : Parser) : Option Parser :=
 match p.skipped with
 | _ :: skipped =>
  let p := { p with skipped }
  if skipped = [] then
   some (p.attach .null (.mk (some (.deep (slice p.skipStart p.rest))) [] [] []))
  else some p
 | [] => match p.stack with
  | [] => none
  | .array items node :: stack => some ({ p with stack }.attach (.array items) node)
  | .object map _ _ start lossyKey node :: stack =>
   let node := if lossyKey then
    .mk (some (.lossyKeys (slice start p.rest) (stack.length + p.baseDepth)))
     node.keyTexts node.members node.items
    else node
   some ({ p with stack }.attach (.object map) node)

def pending (p : Parser) (key : String) (canonical : Option (List Char)) : Parser :=
 if p.skipped ≠ [] then p
 else match p.stack with
  | .object map _ _ start lossyKey node :: outer =>
   { p with
     stack := .object map key canonical start (lossyKey || canonical.isSome) node :: outer }
  | _ => p

/-- `"key"` and `:` after `{` or `,`. -/
def memberKey (p : Parser) : Option Parser :=
 let text := skipWhitespace p.rest
 if text.head? ≠ some '"' then none
 else match string text with
  | none => none
  | some ((key, canonical), text) => match skipWhitespace text with
   | ':' :: rest => some ({ p with rest }.pending key canonical)
   | _ => none

def literal (p : Parser) (word : List Char) (value : Value) : Option (Bool × Parser) :=
 if word <+: p.rest then
  some (false, { p with rest := p.rest.drop word.length }.attach value .empty)
 else none

def openContainer (p : Parser) (kind : Kind) : Parser :=
 let start := p.rest
 let p := { p with rest := p.rest.tail }
 if p.skipped ≠ [] ∨ maxHeldDepth ≤ p.stack.length + p.baseDepth then
  { p with
    skipStart := if p.skipped = [] then start else p.skipStart
    skipped := kind :: p.skipped }
 else match kind with
  | .array => { p with stack := .array [] .empty :: p.stack }
  | .object => { p with stack := .object [] "" none start false .empty :: p.stack }

def closing : Kind → Char
 | .array => ']'
 | .object => '}'

/-- A container at the cursor: opened, and closed at once when empty. `true` when
it was left open. -/
def container (p : Parser) (kind : Kind) : Option (Bool × Parser) :=
 let p := p.openContainer kind
 let text := skipWhitespace p.rest
 if text.head? = some (closing kind) then
  ({ p with rest := text.tail }.close).map fun p => (false, p)
 else match kind with
  | .object => ({ p with rest := text }.memberKey).map fun p => (true, p)
  | .array => some (true, { p with rest := text })

/-- The node of a string value: its text when it holds a lone surrogate. -/
def stringNode (p : Parser) (text : String) (canonical : Option (List Char)) : Node :=
 match canonical with
 | some canonical =>
  if p.skipped = [] then .mk (some (.string text canonical)) [] [] [] else .empty
 | none => .empty

def stringValue (p : Parser) : Option (Bool × Parser) :=
 (string p.rest).map fun ((text, canonical), rest) =>
  (false, { p with rest }.attach (.string text) (p.stringNode text canonical))

/-- The value of a number token; out of the double range, `null`. -/
def tokenValue (token : List Char) : Value :=
 match Number.ofToken token with
 | some n => .number n
 | none => .null

def numberValue (p : Parser) : Option (Bool × Parser) := (numberEnd p.rest).map fun rest =>
  (false, { p with rest }.attach (tokenValue (slice p.rest rest)) .empty)

def value (p : Parser) : Option (Bool × Parser) :=
 match p.rest with
 | [] => none
 | c :: _ =>
  if c = '[' then p.container .array
  else if c = '{' then p.container .object
  else if c = '"' then p.stringValue
  else if c = 't' then p.literal "true".toList (.bool true)
  else if c = 'f' then p.literal "false".toList (.bool false)
  else if c = 'n' then p.literal "null".toList .null
  else if c = '-' ∨ c.isDigit then p.numberValue
  else none

inductive Turn where
 /-- The text is not JSON. -/
 | fail
 /-- The text is read to its end. -/
 | done
 /-- The loop goes on, expecting a value or not. -/
 | next (expectValue : Bool) (p : Parser)

/-- The loop goes on where a step succeeds. -/
def Turn.of (expectValue : Bool) : Option Parser → Turn
 | some p => .next expectValue p
 | none => .fail

/-- What may follow a value inside an open container. -/
def separator (p : Parser) : Kind → Turn
 | .array => match p.rest with
  | ',' :: rest => .next true { p with rest }
  | ']' :: rest => .of false { p with rest }.close
  | _ => .fail
 | .object => match p.rest with
  | ',' :: rest => .of true { p with rest }.memberKey
  | '}' :: rest => .of false { p with rest }.close
  | _ => .fail

/-- One turn of the loop of `Parser::run`. -/
def turn (p : Parser) (expectValue : Bool) : Turn :=
 let p := { p with rest := skipWhitespace p.rest }
 if expectValue then
  -- a container left open expects its first value next
  match p.value with
  | some (left, p) => .next left p
  | none => .fail
 else match p.topKind with
  | none => if p.rest = [] then .done else .fail
  | some kind => p.separator kind

/-! ### What a turn leaves of the text -/

@[simp] theorem attach_rest (p : Parser) (v : Value) (n : Node) : (p.attach v n).rest = p.rest := by
 unfold attach
 split
 · rfl
 · split <;> rfl

theorem close_rest {p p' : Parser} (h : p.close = some p') : p'.rest = p.rest := by
 unfold close at h
 split at h
 · dsimp only at h
   split at h
   · cases h
     exact attach_rest ..
   · cases h
     rfl
 · split at h
   · simp at h
   · cases h
     exact attach_rest ..
   · cases h
     exact attach_rest ..

end Parser

theorem skipWhitespace_length (text : List Char) :
 (skipWhitespace text).length ≤ text.length := (dropWhile_suffix _).length_le

theorem digits_length (text : List Char) : (digits text).length ≤ text.length :=
 (dropWhile_suffix _).length_le

theorem stringUnits_length {us : List StrUnit} (h : stringUnits text = some (us, rest)) :
 rest.length < text.length := by
 fun_induction stringUnits text generalizing us with
 | case2 rest' =>
  injection h with h
  injection h with _ h
  subst h
  simp
 | case4 tail u rest' hesc ih =>
  simp only [map_eq_some_iff, Prod.mk.injEq, Prod.exists] at h
  obtain ⟨us', r, hr, -, rfl⟩ := h
  have := ih hr
  have := escape_length hesc
  simp only [length_cons]
  omega
 | case6 c tail _ _ _ ih =>
  simp only [map_eq_some_iff, Prod.mk.injEq, Prod.exists] at h
  obtain ⟨us', r, hr, -, rfl⟩ := h
  have := ih hr
  simp only [length_cons]
  omega
 | _ => simp at h

theorem string_length {r : String × Option (List Char)} (h : string text = some (r, rest)) :
 rest.length < text.length := by
 simp only [string, map_eq_some_iff, Prod.mk.injEq, Prod.exists] at h
 obtain ⟨us, r', hu, -, rfl⟩ := h
 have := stringUnits_length hu
 simp only [length_tail] at this
 omega

theorem digits1_length (h : digits1 text = some rest) : rest.length < text.length := by
 unfold digits1 at h
 split at h
 next c tail =>
  split at h
  · cases h
    have := digits_length tail
    simp only [length_cons]
    omega
  · simp at h
 · simp at h

theorem intPart_length (h : intPart text = some rest) : rest.length < text.length := by
 unfold intPart at h
 split at h
 · cases h
   simp
 next c tail _ =>
  split at h
  · cases h
    have := digits_length tail
    simp only [length_cons]
    omega
  · simp at h
 · simp at h

theorem fracPart_length (h : fracPart text = some rest) : rest.length ≤ text.length := by
 unfold fracPart at h
 split at h
 · have := digits1_length h
   simp only [length_tail] at this
   omega
 · injection h with h
   rw [h]

theorem expPart_length (h : expPart text = some rest) : rest.length ≤ text.length := by
 unfold expPart at h
 split at h
 · have := digits1_length h
   have : (skipSign text.tail).length ≤ text.length := by
    unfold skipSign
    split <;> simp only [length_tail] <;> omega
   omega
 · injection h with h
   rw [h]

theorem numberEnd_length (h : numberEnd text = some rest) : rest.length < text.length := by
 simp only [numberEnd, bind_eq_some_iff] at h
 obtain ⟨t1, h1, t2, h2, h3⟩ := h
 have hsign : (if text.head? = some '-' then text.tail else text).length ≤ text.length := by
  split <;> simp
 have := intPart_length h1
 have := fracPart_length h2
 have := expPart_length h3
 omega

namespace Parser

@[simp] theorem pending_rest (p : Parser) (key : String) (canonical : Option (List Char)) :
 (p.pending key canonical).rest = p.rest := by
 unfold pending
 split
 · rfl
 · split <;> rfl

variable {p p' : Parser}

theorem memberKey_length (h : p.memberKey = some p') : p'.rest.length < p.rest.length := by
 unfold memberKey at h
 dsimp only at h
 split at h
 · simp at h
 split at h
 · simp at h
 rename_i key canonical text hs
 split at h
 next rest hc =>
  injection h with h
  have h1 := skipWhitespace_length p.rest
  have h2 := string_length hs
  have h3 := skipWhitespace_length text
  rw [hc] at h3
  simp only [length_cons] at h3
  rw [← h, pending_rest]
  dsimp only
  omega
 · simp at h

theorem openContainer_rest (p : Parser) (kind : Kind) :
 (p.openContainer kind).rest = p.rest.tail := by
 unfold openContainer
 dsimp only
 split
 · rfl
 · split <;> rfl

theorem container_length {kind : Kind} {left : Bool} (hne : p.rest ≠ [])
 (h : p.container kind = some (left, p')) : p'.rest.length < p.rest.length := by
 have hpos : p.rest.tail.length < p.rest.length := by
  cases hp : p.rest with
  | nil => exact absurd hp hne
  | cons => simp
 have h1 := skipWhitespace_length p.rest.tail
 simp only [container, openContainer_rest] at h
 split at h
 · simp only [map_eq_some_iff, Prod.mk.injEq] at h
   obtain ⟨q, hq, -, rfl⟩ := h
   rw [close_rest hq]
   simp only [length_tail] at h1 hpos ⊢
   omega
 · split at h
   · simp only [map_eq_some_iff, Prod.mk.injEq] at h
     obtain ⟨q, hq, -, rfl⟩ := h
     have := memberKey_length hq
     dsimp only at this
     omega
   · injection h with h
     injection h with _ h
     rw [← h]
     dsimp only
     omega

theorem value_length {left : Bool} (h : p.value = some (left, p')) :
 p'.rest.length < p.rest.length := by
 unfold value at h
 split at h
 · simp at h
 rename_i c tail hp
 have hne : p.rest ≠ [] := by rw [hp]; simp
 have hlit : ∀ {word : List Char} {v : Value}, word ≠ [] → p.literal word v = some (left, p') →
  p'.rest.length < p.rest.length := by
  intro word v hw hl
  unfold literal at hl
  split at hl
  · injection hl with hl
    injection hl with _ hl
    rw [← hl, attach_rest]
    have := length_pos_iff.mpr hw
    have := length_pos_iff.mpr hne
    simp only [length_drop]
    omega
  · simp at hl
 split at h
 · exact container_length hne h
 split at h
 · exact container_length hne h
 split at h
 · simp only [stringValue, map_eq_some_iff, Prod.mk.injEq] at h
   obtain ⟨⟨r, rest⟩, hs, -, rfl⟩ := h
   rw [attach_rest]
   exact string_length hs
 split at h
 · exact hlit (by decide) h
 split at h
 · exact hlit (by decide) h
 split at h
 · exact hlit (by decide) h
 split at h
 · simp only [numberValue, map_eq_some_iff, Prod.mk.injEq] at h
   obtain ⟨rest, hs, -, rfl⟩ := h
   rw [attach_rest]
   exact numberEnd_length hs
 · simp at h

theorem Turn.of_eq_next {e e' : Bool} {o : Option Parser} (h : Turn.of e o = .next e' p) :
 o = some p ∧ e' = e := by
 cases o with
 | none => simp [Turn.of] at h
 | some q =>
  injection h with h1 h2
  exact ⟨by rw [h2], h1.symm⟩

theorem separator_length {kind : Kind} {e : Bool} (h : p.separator kind = .next e p') :
 p'.rest.length < p.rest.length := by
 have hcons : ∀ {c : Char} {rest : List Char}, p.rest = c :: rest →
  rest.length < p.rest.length := by
  intro c rest hr
  rw [hr]
  exact Nat.lt_succ_self _
 cases kind with
 | array =>
  simp only [separator] at h
  split at h
  next hr =>
   injection h with _ h
   rw [← h]
   exact hcons hr
  next hr =>
   rw [close_rest (Turn.of_eq_next h).1]
   exact hcons hr
  · simp at h
 | object =>
  simp only [separator] at h
  split at h
  next hr =>
   exact Nat.lt_trans (memberKey_length (Turn.of_eq_next h).1) (hcons hr)
  next hr =>
   rw [close_rest (Turn.of_eq_next h).1]
   exact hcons hr
  · simp at h

theorem turn_length {e e' : Bool} (h : p.turn e = .next e' p') :
 p'.rest.length < p.rest.length := by
 have hws := skipWhitespace_length p.rest
 simp only [turn] at h
 split at h
 · split at h
   next hv =>
    injection h with _ h
    have := value_length hv
    rw [← h]
    exact Nat.lt_of_lt_of_le this hws
   · simp at h
 · split at h
   · split at h <;> simp at h
   · exact Nat.lt_of_lt_of_le (separator_length h) hws

/-- `Parser::run`: turns until the text is read or refused. -/
def run (p : Parser) (expectValue : Bool) : Option Parser :=
 match _h : p.turn expectValue with
 | .fail => none
 | .done => some p
 | .next e p' => run p' e
termination_by p.rest.length
decreasing_by exact turn_length _h

/-- The reader at the start of a text cut from inside `baseDepth` containers. -/
def start (text : List Char) (baseDepth : Nat) : Parser :=
 { rest := text, baseDepth, stack := [], skipped := [], skipStart := [], root := none }

end Parser

/-! ## Lines -/

/-- A value's text cut from a line, inside `baseDepth` containers, read as it was
read in the line, with the text kept below it. -/
def parseAtDepthWithNode (text : List Char) (baseDepth : Nat) : Option (Value × Node) :=
 ((Parser.start text baseDepth).run true).bind Parser.root

def parseAtDepth (text : List Char) (depth : Nat) : Option Value :=
 (parseAtDepthWithNode text depth).map Prod.fst

structure ParsedJson where
 value : Value
 verbatim : Verbatim
 /-- The line is a single out-of-range number, truthy in JavaScript. -/
 nonFiniteRoot : Bool

/-- `JSON.parse(text)`, or `none` where it throws. -/
def parseJsonLine (text : List Char) : Option ParsedJson := do
 let (value, node) ← parseAtDepthWithNode text 0
 let first := text.find? fun c => !isJsonWs c
 some {
  value
  verbatim := if node.isEmpty then none else some node
  nonFiniteRoot := value.isNull && first ≠ some 'n' }

end Bake.Json
