import Bake.Tools.LineDiff
import Bake.Tools.Truncation

/-!
# The unified patch

`create_two_files_patch`: the hunks of a line diff, with up to `context` common lines around the
changes. A hunk is open while its range has a start; the counters are those of the lines gone
past. A subtraction that would fall below zero is `none`, and the product `context * 2` wraps
around at the end of a `usize`, as it does in a release build.
-/

namespace Bake.Tools

def splitLines (text : List Char) : List Line :=
 if text = [] then [[]]
 else
  let lines := (text.splitOn '\n').map fun line => line ++ ['\n']
  if text.getLast? = some '\n' then lines.dropLast
  else match lines.getLast? with
   | some last => lines.dropLast ++ [last.dropLast]
   | none => lines

/-- `Hunk`. -/
structure PatchHunk where
 oldStart : Nat
 oldLines : Nat
 newStart : Nat
 newLines : Nat
 lines : List (List Char)

/-- An entry of the diff: its lines, and whether they were added or removed. -/
structure PatchEntry where
 lines : List Line
 added : Bool
 removed : Bool

/-- What the loop keeps from entry to entry. A range start of 0 is that of no open hunk. -/
structure PatchLoop where
 hunks : List PatchHunk
 oldRangeStart : Nat
 newRangeStart : Nat
 current : List (List Char)
 oldLine : Nat
 newLine : Nat

def contextLines (lines : List Line) : List (List Char) := lines.map fun line => ' ' :: line

def PatchLoop.openHunk (context : Nat) (loop : PatchLoop) (previous : Option PatchEntry) :
 Option PatchLoop :=
 match previous with
 | none => some { loop with oldRangeStart := loop.oldLine, newRangeStart := loop.newLine }
 | some previous => do
  let current :=
   if context > 0 then
    contextLines (previous.lines.drop (previous.lines.length - context))
   else []
  let oldRangeStart ← checkedSub loop.oldLine current.length
  let newRangeStart ← checkedSub loop.newLine current.length
  some { loop with oldRangeStart, newRangeStart, current }

def PatchLoop.addLines (loop : PatchLoop) (entry : PatchEntry) : PatchLoop :=
 let sign := if entry.added then '+' else '-'
 let loop := { loop with current := loop.current ++ entry.lines.map fun line => sign :: line }
 if entry.added then { loop with newLine := loop.newLine + entry.lines.length }
 else { loop with oldLine := loop.oldLine + entry.lines.length }

/-- An entry of added or removed lines. -/
def PatchLoop.change (context : Nat) (loop : PatchLoop) (previous : Option PatchEntry)
 (entry : PatchEntry) : Option PatchLoop :=
 (if loop.oldRangeStart = 0 then loop.openHunk context previous else some loop).map
  fun loop => loop.addLines entry

def PatchLoop.closeHunk (context : Nat) (loop : PatchLoop) (lines : List Line) :
 Option PatchLoop := do
 let contextSize := min lines.length context
 let current := loop.current ++ contextLines (lines.take contextSize)
 let oldLines ← checkedSub loop.oldLine loop.oldRangeStart
 let newLines ← checkedSub loop.newLine loop.newRangeStart
 let hunk :=
  { oldStart := loop.oldRangeStart
    oldLines := oldLines + contextSize
    newStart := loop.newRangeStart
    newLines := newLines + contextSize
    lines := current }
 some { loop with
  hunks := loop.hunks ++ [hunk], oldRangeStart := 0, newRangeStart := 0, current := [] }

/-- Common lines gone past. -/
def PatchLoop.pass (loop : PatchLoop) (lines : List Line) : PatchLoop :=
 { loop with oldLine := loop.oldLine + lines.length, newLine := loop.newLine + lines.length }

/-- An entry of common lines. `more` says that it is in front of the last two. -/
def PatchLoop.common (context : Nat) (loop : PatchLoop) (lines : List Line) (more : Bool) :
 Option PatchLoop :=
 (if loop.oldRangeStart ≠ 0 then
  if lines.length ≤ context * 2 % 2 ^ 64 && more then
   some { loop with current := loop.current ++ contextLines lines }
  else loop.closeHunk context lines
 else some loop).map fun loop => loop.pass lines

def PatchLoop.entry (context : Nat) (loop : PatchLoop) (previous : Option PatchEntry)
 (entry : PatchEntry) (more : Bool) : Option PatchLoop :=
 if entry.added || entry.removed then loop.change context previous entry
 else loop.common context entry.lines more

def patchLoop (context : Nat) (loop : PatchLoop) (previous : Option PatchEntry) :
 List PatchEntry → Option PatchLoop
 | [] => some loop
 | entry :: entries => do
  let loop ← loop.entry context previous entry (1 < entries.length)
  patchLoop context loop (some entry) entries

/-- A hunk's line as it is written. -/
def patchLine (line : List Char) : List (List Char) :=
 if line.getLast? = some '\n' then [line.dropLast]
 else [line, "\\ No newline at end of file".toList]

def patchHunk (hunk : PatchHunk) : Option (List (List Char)) := do
 let oldStart ← if hunk.oldLines = 0 then checkedSub hunk.oldStart 1 else some hunk.oldStart
 let newStart ← if hunk.newLines = 0 then checkedSub hunk.newStart 1 else some hunk.newStart
 let header := ['@', '@', ' ', '-'] ++ Nat.toDigits 10 oldStart
  ++ [','] ++ Nat.toDigits 10 hunk.oldLines ++ [' ', '+'] ++ Nat.toDigits 10 newStart
  ++ [','] ++ Nat.toDigits 10 hunk.newLines ++ [' ', '@', '@']
 some (header :: hunk.lines.flatMap patchLine)

def createTwoFilesPatch (oldName newName old new : List Char) (context : Nat) :
 Option (List Char) := do
 let diff ← diffLines old new
 let entries := (diff.map fun change =>
  { lines := splitLines change.value, added := change.added, removed := change.removed })
  ++ [{ lines := [], added := false, removed := false }]
 let loop ← patchLoop context
  { hunks := [], oldRangeStart := 0, newRangeStart := 0, current := [], oldLine := 1, newLine := 1 }
  none entries
 let hunks ← loop.hunks.mapM patchHunk
 let out := ["--- ".toList ++ oldName, "+++ ".toList ++ newName] ++ hunks.flatten
 some (['\n'].intercalate out ++ ['\n'])

def generateUnifiedPatch (path old new : List Char) : Option (List Char) :=
 createTwoFilesPatch path path old new 4

end Bake.Tools
