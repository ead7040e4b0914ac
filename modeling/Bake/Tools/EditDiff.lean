import Bake.Lib.Search
import Bake.Lib.Text
import Bake.Lib.WholeLines
import Mathlib.Data.List.Sort

/-!
# Applying edits to a text

`apply_edits_to_normalized_content`: every old text is looked for in the same content,
verbatim or else in a normalised view of it, must be there once, must share nothing with
another's match, and all are replaced together. Where one was found in the normalised view
only, all are matched there, and the lines they do not touch are kept from the original.

Normalisation to NFKC is a function of its own, outside this code. Offsets count characters.
-/

namespace Bake.Tools

structure Edit where
 oldText : List Char
 newText : List Char
 deriving DecidableEq

/-! ## Line ends -/

inductive LineEnding
 | lf
 | crLf
 deriving DecidableEq

def detectLineEnding (content : List Char) : LineEnding :=
 match Search.find ['\r', '\n'] content, Search.find ['\n'] content with
 | some crlf, some lf => if crlf < lf then .crLf else .lf
 | _, _ => .lf

/-- Every `\r\n` replaced by `\n`. -/
def replaceCrLf : List Char → List Char
 | [] => []
 | '\r' :: '\n' :: text => '\n' :: replaceCrLf text
 | c :: text => c :: replaceCrLf text

def normalizeToLf (text : List Char) : List Char :=
 (replaceCrLf text).map fun c => if c = '\r' then '\n' else c

def restoreLineEndings (text : List Char) : LineEnding → List Char
 | .crLf => text.flatMap fun c => if c = '\n' then ['\r', '\n'] else [c]
 | .lf => text

/-! ## The normalised view -/

/-- `js::is_whitespace`. -/
def isJsWhitespace (c : Char) : Bool :=
 (0x09 ≤ c.toNat && c.toNat ≤ 0x0D) || c.toNat = 0x20 || c.toNat = 0xA0 || c.toNat = 0x1680
  || (0x2000 ≤ c.toNat && c.toNat ≤ 0x200A) || c.toNat = 0x2028 || c.toNat = 0x2029
  || c.toNat = 0x202F || c.toNat = 0x205F || c.toNat = 0x3000 || c.toNat = 0xFEFF

def trimEnd (text : List Char) : List Char := (text.reverse.dropWhile isJsWhitespace).reverse

/-- Typographic quotes, dashes and spaces made ASCII. -/
def foldChar (c : Char) : Char :=
 if 0x2018 ≤ c.toNat ∧ c.toNat ≤ 0x201B then '\''
 else if 0x201C ≤ c.toNat ∧ c.toNat ≤ 0x201F then '"'
 else if (0x2010 ≤ c.toNat ∧ c.toNat ≤ 0x2015) ∨ c.toNat = 0x2212 then '-'
 else if c.toNat = 0xA0 ∨ (0x2002 ≤ c.toNat ∧ c.toNat ≤ 0x200A) ∨ c.toNat = 0x202F
  ∨ c.toNat = 0x205F ∨ c.toNat = 0x3000 then ' '
 else c

def normalizeForFuzzyMatch (nfkc : List Char → List Char) (text : List Char) : List Char :=
 (['\n'].intercalate (((nfkc text).splitOn '\n').map trimEnd)).map foldChar

structure FuzzyMatch where
 index : Nat
 matchLength : Nat
 usedFuzzyMatch : Bool
 contentForReplacement : List Char

def fuzzyFindText (nfkc : List Char → List Char) (content oldText : List Char) :
 Option FuzzyMatch :=
 match Search.find oldText content with
 | some index => some { index, matchLength := oldText.length, usedFuzzyMatch := false
                        contentForReplacement := content }
 | none => do
  let fuzzyContent := normalizeForFuzzyMatch nfkc content
  let fuzzyOld := normalizeForFuzzyMatch nfkc oldText
  let index ← Search.find fuzzyOld fuzzyContent
  some { index, matchLength := fuzzyOld.length, usedFuzzyMatch := true
         contentForReplacement := fuzzyContent }

def utf16Units (text : List Char) : Nat :=
 (text.map fun c => if c.toNat < 0x10000 then 1 else 2).sum

/-- `count_occurrences`. An empty text is counted as JavaScript's `split` would. -/
def countOccurrences (nfkc : List Char → List Char) (content oldText : List Char) : Nat :=
 let fuzzyContent := normalizeForFuzzyMatch nfkc content
 let fuzzyOld := normalizeForFuzzyMatch nfkc oldText
 if fuzzyOld.isEmpty then utf16Units fuzzyContent - 1
 else Search.count fuzzyOld 0 fuzzyContent

/-! ## Replacements -/

structure Replacement where
 editIndex : Nat
 index : Nat
 length : Nat
 newText : List Char
 deriving DecidableEq

inductive EditError
 | emptyOldText (index : Nat)
 | notFound (index : Nat)
 | duplicate (index occurrences : Nat)
 | overlapping (first second : Nat)
 | differentLineCount
 | outsideBase
 | noChange
 deriving DecidableEq

def EditError.message (path : String) (total : Nat) : EditError → String
 | .emptyOldText index =>
  if total = 1 then "oldText must not be empty in " ++ path ++ "."
  else "edits[" ++ toString index ++ "].oldText must not be empty in " ++ path ++ "."
 | .notFound index =>
  if total = 1 then
   "Could not find the exact text in " ++ path
    ++ ". The old text must match exactly including all whitespace and newlines."
  else
   "Could not find edits[" ++ toString index ++ "] in " ++ path
    ++ ". The oldText must match exactly including all whitespace and newlines."
 | .duplicate index occurrences =>
  if total = 1 then
   "Found " ++ toString occurrences ++ " occurrences of the text in " ++ path
    ++ ". The text must be unique. Please provide more context to make it unique."
  else
   "Found " ++ toString occurrences ++ " occurrences of edits[" ++ toString index ++ "] in "
    ++ path
    ++ ". Each oldText must be unique. Please provide more context to make it unique."
 | .overlapping first second =>
  "edits[" ++ toString first ++ "] and edits[" ++ toString second ++ "] overlap in " ++ path
   ++ ". Merge them into one edit or target disjoint regions."
 | .differentLineCount =>
  "Cannot preserve unchanged lines because the base content has a different line count."
 | .outsideBase => "Replacement range is outside the base content."
 | .noChange =>
  if total = 1 then
   "No changes made to " ++ path ++ ". The replacement produced identical content. "
    ++ "This might indicate an issue with special characters or the text not existing as "
    ++ "expected."
  else "No changes made to " ++ path ++ ". The replacements produced identical content."

/-- `line_spans`: where the lines begin and end, from an offset on. -/
def lineSpansFrom (offset : Nat) : List (List Char) → List (Nat × Nat)
 | [] => []
 | line :: lines => (offset, offset + line.length) :: lineSpansFrom (offset + line.length) lines

def splitLinesWithEndings (content : List Char) : List (List Char) := WholeLines.split '\n' content

def lineSpans (content : List Char) : List (Nat × Nat) :=
 lineSpansFrom 0 (splitLinesWithEndings content)

/-- The lines from `endLine` on that end in front of `stop` are passed over. -/
def endLineFrom (stop : Nat) (endLine : Nat) : List (Nat × Nat) → Nat
 | [] => endLine
 | span :: spans => if span.2 < stop then endLineFrom stop (endLine + 1) spans else endLine

def replacementLineRange (lines : List (Nat × Nat)) (replacement : Replacement) :
 Except EditError (Nat × Nat) :=
 let start := replacement.index
 let stop := replacement.index + replacement.length
 match lines.findIdx? fun span => decide (start ≥ span.1) && decide (start < span.2) with
 | none => .error .outsideBase
 | some startLine =>
  let endLine := endLineFrom stop startLine (lines.drop startLine)
  if endLine ≥ lines.length then .error .outsideBase else .ok (startLine, endLine + 1)

def replaceRange (content : List Char) (index length : Nat) (newText : List Char) : List Char :=
 content.take index ++ newText ++ content.drop (index + length)

def applyReplacements (content : List Char) (replacements : List Replacement) (offset : Nat) :
 List Char :=
 replacements.foldr (fun replacement result =>
   replaceRange result (replacement.index - offset) replacement.length replacement.newText)
  content

/-- `sort_by_key` on the index. -/
def sortByIndex (replacements : List Replacement) : List Replacement :=
 replacements.insertionSort fun a b => a.index ≤ b.index

/-- Replacements that touch the same lines: the lines from `start` up to `stop`. -/
structure LineGroup where
 start : Nat
 stop : Nat
 replacements : List Replacement
 deriving DecidableEq

/-- The loop that gathers replacements by lines. The groups are kept last one first. -/
def groupLines (lines : List (Nat × Nat)) :
 List Replacement → List LineGroup → Except EditError (List LineGroup)
 | [], groups => .ok groups.reverse
 | replacement :: rest, groups => do
  let (start, stop) ← replacementLineRange lines replacement
  match groups with
  | current :: before =>
   if start < current.stop then
    groupLines lines rest ({ current with
        stop := max current.stop stop
        replacements := current.replacements ++ [replacement] } :: before)
   else groupLines lines rest ({ start, stop, replacements := [replacement] } :: groups)
  | [] => groupLines lines rest [{ start, stop, replacements := [replacement] }]

def writeGroups (originalLines : List (List Char)) (base : List Char) (lines : List (Nat × Nat))
 (originalIndex : Nat) : List LineGroup → List Char
 | [] => (originalLines.drop originalIndex).flatten
 | group :: groups =>
  let groupStart := (lines.getD group.start (0, 0)).1
  let groupEnd := (lines.getD (group.stop - 1) (0, 0)).2
  ((originalLines.take group.start).drop originalIndex).flatten
   ++ applyReplacements ((base.take groupEnd).drop groupStart) group.replacements groupStart
   ++ writeGroups originalLines base lines group.stop groups

def applyReplacementsPreservingUnchangedLines (original base : List Char)
 (replacements : List Replacement) : Except EditError (List Char) := do
 let originalLines := splitLinesWithEndings original
 let baseLines := lineSpans base
 if originalLines.length ≠ baseLines.length then .error .differentLineCount
 else do
  let groups ← groupLines baseLines (sortByIndex replacements) []
  .ok (writeGroups originalLines base baseLines 0 groups)

/-! ## All edits -/

structure AppliedEdits where
 baseContent : List Char
 newContent : List Char
 deriving DecidableEq

def matchEdits (nfkc : List Char → List Char) (base : List Char) :
 Nat → List Edit → Except EditError (List Replacement)
 | _, [] => .ok []
 | index, edit :: edits => do
  let some found := fuzzyFindText nfkc base edit.oldText | .error (.notFound index)
  let occurrences := countOccurrences nfkc base edit.oldText
  if occurrences > 1 then .error (.duplicate index occurrences)
  else do
   let matched ← matchEdits nfkc base (index + 1) edits
   .ok ({ editIndex := index, index := found.index, length := found.matchLength
          newText := edit.newText } :: matched)

def firstOverlap : List Replacement → Option (Replacement × Replacement)
 | first :: second :: rest =>
  if first.index + first.length > second.index then some (first, second)
  else firstOverlap (second :: rest)
 | _ => none

def normalizeEdits (edits : List Edit) : List Edit := edits.map fun edit =>
  { oldText := normalizeToLf edit.oldText, newText := normalizeToLf edit.newText }

/-- Some edit is found in the normalised view only. -/
def usesFuzzy (nfkc : List Char → List Char) (content : List Char) (edits : List Edit) : Bool :=
 edits.any fun edit => (fuzzyFindText nfkc content edit.oldText).any (·.usedFuzzyMatch)

def applyEditsToNormalizedContent (nfkc : List Char → List Char) (content : List Char)
 (edits : List Edit) : Except EditError AppliedEdits :=
 let edits := normalizeEdits edits
 match edits.findIdx? (·.oldText.isEmpty) with
 | some index => .error (.emptyOldText index)
 | none => do
  let usedFuzzy := usesFuzzy nfkc content edits
  let base := if usedFuzzy then normalizeForFuzzyMatch nfkc content else content
  let matched ← matchEdits nfkc base 0 edits
  let matched := sortByIndex matched
  match firstOverlap matched with
  | some (first, second) => .error (.overlapping first.editIndex second.editIndex)
  | none => do
   let newContent ←
    if usedFuzzy then applyReplacementsPreservingUnchangedLines content base matched
    else .ok (applyReplacements base matched 0)
   if content = newContent then .error .noChange
   else .ok { baseContent := content, newContent }

end Bake.Tools
