import Bake.Lib.Text

/-!
# Job ids

A job's id is its kind and its number within the kind, and the registry that issued it.
Its text is the kind, a hyphen and the number; a kind has no hyphen, so a text names one
kind and number at most.
-/

namespace Bake.Jobs

def maxTextBytes : Nat := 1024

def maxKindBytes : Nat := 32

/-- The numbers of a kind are `u64`s. -/
def maxOrdinal : Nat := 2 ^ 64 - 1

structure JobId where
 registry : Nat
 kind : String
 ordinal : Nat
 deriving DecidableEq, Repr

def idText (kind : String) (ordinal : Nat) : String := kind ++ "-" ++ toString ordinal

/-- `JobId`'s `Display`. -/
def JobId.text (id : JobId) : String := idText id.kind id.ordinal

def validKind (kind : String) : Bool :=
 match kind.toList with
 | [] => false
 | first :: rest =>
  Text.size kind.toList ≤ maxKindBytes && first.isLower
   && (first :: rest).all fun c => c.isLower || c.isDigit || c = '_'

/-- The longest start of a text that takes at most `n` bytes. -/
def firstBytes : Nat → List Char → List Char
 | _, [] => []
 | n, c :: rest => if c.utf8Size ≤ n then c :: firstBytes (n - c.utf8Size) rest else []

def cut (text : String) (max : Nat) : String := String.ofList (firstBytes max text.toList)

/-- `tail`, and how many bytes were cut. -/
def tail (text : String) (max : Nat) : String × Nat :=
 let kept := Text.lastBytes max text.toList
 (String.ofList kept, Text.size text.toList - Text.size kept)

def splitLastHyphen (text : List Char) : Option (List Char × List Char) :=
 match text.reverse.span (· ≠ '-') with
 | (number, _ :: kind) => some (kind.reverse, number.reverse)
 | (_, []) => none

/-- `parse_job_id`: the kind and the number a text names. -/
def parseJobId (text : String) : Option (String × Nat) :=
 match splitLastHyphen text.toList with
 | none => none
 | some (kind, number) =>
  let ordinal := Nat.ofDigitChars 10 number 0
  if !validKind (String.ofList kind) || number.isEmpty || 20 < Text.size number
   || !number.all Char.isDigit || number.head? = some '0' || maxOrdinal < ordinal then
   none
  else some (String.ofList kind, ordinal)

example : parseJobId "bash-12" = some ("bash", 12) := by decide +kernel

end Bake.Jobs
