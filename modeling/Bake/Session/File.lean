import Bake.Lib.Lines
import Bake.Lib.Utf8
import Bake.Session.Entry

/-!
# Reading session files

Bytes decode as UTF-8 with U+FFFD for invalid sequences. Blank lines, lines that
do not parse and lines whose value is falsy in JavaScript are skipped, wherever
they are. The first parsed line must be a header with a string `id`; otherwise
the file is no session.
-/

namespace Bake.Session

open Bake.Json

abbrev Bytes := List UInt8

/-- A parsed line: an object with the text it keeps, or a truthy value of another
kind. -/
inductive ParsedLine where
 | object (object : JsonObject) (verbatim : Verbatim)
 | other

abbrev Line := JsonObject × Verbatim

/-- `parseSessionEntryLine`: nothing for a blank, malformed, or falsy line. -/
def parseLine (line : List Char) : Option ParsedLine :=
 if jsTrim line = [] then none
 else match parseJsonLine line with
  | none => none
  | some parsed =>
   if parsed.nonFiniteRoot then some .other
   else match parsed.value with
    | .object object => some (.object object parsed.verbatim)
    | .null | .bool false => none
    | .number n => if n.asF64.any F64.isZero then none else some .other
    | .string text => if text = "" then none else some .other
    | .bool true | .array _ => some .other

def ParsedLine.object? : ParsedLine → Option Line
 | .object members verbatim => some (members, verbatim)
 | .other => none

/-- A header with a string `id`. -/
def isValidHeader (object : JsonObject) : Bool :=
 strMember object "type" = some "session" && (strMember object "id").isSome

/-- Who may append a missing final newline to a session file. -/
inductive Repair where
 /-- The caller holds the file's writer lock. -/
 | held
 /-- A reader: leave the file as it is. -/
 | never
deriving DecidableEq

def parsedLines (file : Bytes) : List ParsedLine :=
 (Lines.split file).filterMap fun line => parseLine (Utf8.lossy line)

def firstIsHeader (file : Bytes) : Bool :=
 match (parsedLines file).head? with
 | some (.object object _) => isValidHeader object
 | _ => false

def objects (file : Bytes) : List Line :=
 if firstIsHeader file then (parsedLines file).filterMap ParsedLine.object? else []

/-- `load_objects`: the objects, and the file with its missing final newline
repaired as `repair` allows. A missing file has none. -/
def loadObjects : Option Bytes → Repair → List Line × Option Bytes
 | none, _ => ([], none)
 | some file, repair =>
  if firstIsHeader file ∧ Lines.isOpen file ∧ repair = .held then
   (objects file, some (file ++ [Lines.newline]))
  else (objects file, some file)

end Bake.Session
