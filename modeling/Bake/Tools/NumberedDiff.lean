import Bake.Lib.PaddedNumber
import Bake.Lib.Text
import Bake.Tools.LineDiffRuns

/-!
# The numbered diff

`generate_diff_string`: the changes of a line diff as numbered rows with four lines of context,
and the first changed line. Both lines are counted from 1 as the changes go by, shown or not.

However a common run is shown, whole, from either end or not at all, every row of it has the
number its line has in the old text, and both counters go past the whole run: `Passes`, which is
kept together by what is shown after one another.
-/

namespace Bake.Tools

structure DiffString where
 diff : List Char
 firstChangedLine : Option Nat
 deriving DecidableEq

/-- `CONTEXT`. -/
def diffContext : Nat := 4

/-- The digits of the number of lines of the longer text. -/
def diffWidth (old new : List Char) : Nat :=
 (Nat.toDigits 10 (max (old.splitOn '\n').length (new.splitOn '\n').length)).length

def numberedRow (width : Nat) (sign : Char) (n : Nat) (line : List Char) : List Char :=
 sign :: (PaddedNumber.text width n ++ ' ' :: line)

def skippedRow (width : Nat) : List Char := ' ' :: (List.replicate width ' ' ++ " ...".toList)

/-- What `generate_diff_string` keeps from change to change. -/
structure DiffRows where
 output : List (List Char)
 oldLine : Nat
 newLine : Nat
 lastWasChange : Bool
 firstChangedLine : Option Nat

namespace DiffRows

variable (width : Nat)

def change (added : Bool) (rows : DiffRows) (line : List Char) : DiffRows :=
 if added then
  { rows with
    output := rows.output ++ [numberedRow width '+' rows.newLine line]
    newLine := rows.newLine + 1 }
 else
  { rows with
    output := rows.output ++ [numberedRow width '-' rows.oldLine line]
    oldLine := rows.oldLine + 1 }

def context (rows : DiffRows) (lines : List (List Char)) : DiffRows := lines.foldl (fun rows line =>
  { rows with
    output := rows.output ++ [numberedRow width ' ' rows.oldLine line]
    oldLine := rows.oldLine + 1
    newLine := rows.newLine + 1 }) rows

/-- Lines passed over, and nothing shown for them. -/
def pass (rows : DiffRows) (skipped : Nat) : DiffRows :=
 { rows with oldLine := rows.oldLine + skipped, newLine := rows.newLine + skipped }

/-- Lines passed over, and a row for them. -/
def skip (rows : DiffRows) (skipped : Nat) : DiffRows :=
 { rows with output := rows.output ++ [skippedRow width] }.pass skipped

/-- The body of the loop over the changes. -/
def part (rows : DiffRows) (part : Change) (next : Option Change) : DiffRows :=
 let raw := Text.rows part.value
 if part.added || part.removed then
  let firstChangedLine := some (rows.firstChangedLine.getD rows.newLine)
  { raw.foldl (change width part.added) { rows with firstChangedLine } with
    lastWasChange := true }
 else
  let nextIsChange := next.any fun next => next.added || next.removed
  let rows :=
   if rows.lastWasChange && nextIsChange then
    if raw.length ≤ diffContext * 2 then rows.context width raw
    else
     let skipped := raw.length - 2 * diffContext
     let rows := rows.context width (raw.take diffContext)
     (rows.skip width skipped).context width (raw.drop (raw.length - diffContext))
   else if rows.lastWasChange then
    let shown := min raw.length diffContext
    let rows := rows.context width (raw.take shown)
    let skipped := raw.length - shown
    if skipped > 0 then rows.skip width skipped else rows
   else if nextIsChange then
    let skipped := raw.length - diffContext
    let rows := if skipped > 0 then rows.skip width skipped else rows
    rows.context width (raw.drop skipped)
   else rows.pass raw.length
  { rows with lastWasChange := false }

def parts (rows : DiffRows) : List Change → DiffRows
 | [] => rows
 | part :: rest => (rows.part width part rest.head?).parts rest

end DiffRows

def generateDiffString (old new : List Char) : Option DiffString := do
 let parts ← diffLines old new
 let rows := DiffRows.parts (diffWidth old new)
  { output := [], oldLine := 1, newLine := 1, lastWasChange := false, firstChangedLine := none }
  parts
 some { diff := ['\n'].intercalate rows.output, firstChangedLine := rows.firstChangedLine }

/-! ## Rows -/

open List
open WholeLines (Whole)

def bare (line : Line) : List Char := line.takeWhile fun c => c ≠ '\n'

theorem not_mem_bare (line : Line) : '\n' ∉ bare line := fun h =>
 absurd (mem_takeWhile_imp h) (by simp)

theorem rows_flatten {lines : List Line} (h : Whole '\n' lines) :
 Text.rows lines.flatten = lines.map bare := by
 have hbare : ∀ {body : List Char} (rest : List Char), '\n' ∉ body →
  (∀ c ∈ rest.head?, c = '\n') → bare (body ++ rest) = body := by
  intro body rest hbody hrest
  rw [bare, takeWhile_append_of_pos fun c hc => by
   simpa using fun heq : c = '\n' => hbody (heq ▸ hc)]
  cases rest with
  | nil => rw [takeWhile_nil, append_nil]
  | cons c rest => simp [hrest c rfl]
 induction h with
 | nil => rfl
 | last hne hsep =>
  rw [flatten_singleton, Text.rows_single hsep, if_neg hne, map_singleton]
  have := hbare [] hsep (by simp)
  rw [append_nil] at this
  rw [this]
 | line hsep _ ih =>
  rw [flatten_cons, append_assoc, singleton_append, Text.rows_newline, ih,
   splitOn_eq_singleton hsep, map_cons, hbare ['\n'] hsep (by simp)]
  rfl

/-! ## Rows -/

inductive DiffRow
 | line (sign : Char) (n : Nat) (text : List Char)
 | skipped

def DiffRow.text (width : Nat) : DiffRow → List Char
 | .line sign n text => numberedRow width sign n text
 | .skipped => skippedRow width

def DiffRow.signed (sign : Char) : DiffRow → Option (List Char × Nat)
 | .line s n text => if s = sign then some (text, n) else none
 | .skipped => none

def DiffRow.of (sign : Char) (line : List Char × Nat) : DiffRow := .line sign line.2 line.1

variable {width : Nat} {rows after : DiffRows} {lines : List (List Char)} {shown : List DiffRow}

/-- Common lines gone past, some of them shown. -/
structure Passes (width : Nat) (lines : List (List Char)) (rows after : DiffRows)
 (shown : List DiffRow) : Prop where
 output : after.output = rows.output ++ shown.map (DiffRow.text width)
 oldLine : after.oldLine = rows.oldLine + lines.length
 newLine : after.newLine = rows.newLine + lines.length
 first : after.firstChangedLine = rows.firstChangedLine
 /-- What is shown has its number in the old text. -/
 shown : ∀ row ∈ shown, row = .skipped ∨ ∃ line ∈ lines.zipIdx rows.oldLine, row = .of ' ' line

theorem Passes.append {behind : DiffRows} {lines' : List (List Char)} {shown' : List DiffRow}
 (h : Passes width lines rows after shown) (h' : Passes width lines' after behind shown') :
 Passes width (lines ++ lines') rows behind (shown ++ shown') where
 output := by rw [h'.output, h.output, map_append, append_assoc]
 oldLine := by rw [h'.oldLine, h.oldLine, length_append, Nat.add_assoc]
 newLine := by rw [h'.newLine, h.newLine, length_append, Nat.add_assoc]
 first := by rw [h'.first, h.first]
 shown := by
  intro row hrow
  rw [zipIdx_append]
  rcases mem_append.mp hrow with hrow | hrow
  · refine (h.shown row hrow).imp_right ?_
    rintro ⟨line, hline, heq⟩
    exact ⟨line, mem_append_left _ hline, heq⟩
  · refine (h'.shown row hrow).imp_right ?_
    rintro ⟨line, hline, heq⟩
    rw [h.oldLine] at hline
    exact ⟨line, mem_append_right _ hline, heq⟩

theorem passes_pass (width : Nat) (rows : DiffRows) (lines : List (List Char)) :
 Passes width lines rows (rows.pass lines.length) [] where
 output := by simp [DiffRows.pass]
 oldLine := rfl
 newLine := rfl
 first := rfl
 shown := by simp

theorem passes_skip (width : Nat) (rows : DiffRows) (lines : List (List Char)) :
 Passes width lines rows (rows.skip width lines.length) [.skipped] where
 output := rfl
 oldLine := rfl
 newLine := rfl
 first := rfl
 shown := by simp

theorem passes_context (width : Nat) (rows : DiffRows) (lines : List (List Char)) :
 Passes width lines rows (rows.context width lines)
  ((lines.zipIdx rows.oldLine).map (DiffRow.of ' ')) := by
 induction lines generalizing rows with
 | nil => exact passes_pass width rows []
 | cons line lines ih =>
  have hfirst : Passes width [line] rows (rows.context width [line])
   [.line ' ' rows.oldLine line] :=
   ⟨rfl, rfl, rfl, rfl, fun row hrow => Or.inr ⟨(line, rows.oldLine), by simp, by
    simpa [DiffRow.of] using hrow⟩⟩
  exact hfirst.append (ih _)

theorem passes_skipped (width : Nat) (rows : DiffRows) (lines : List (List Char)) :
 ∃ shown, Passes width lines rows
  (if lines.length > 0 then rows.skip width lines.length else rows) shown := by
 split
 · exact ⟨_, passes_skip width rows lines⟩
 · obtain rfl : lines = [] := length_eq_zero_iff.mp (by omega)
   exact ⟨_, passes_pass width rows []⟩

/-! ## A change's rows -/

/-- **A common run** is gone past, in each of its five layouts. -/
theorem part_common (width : Nat) (rows : DiffRows) {part : Change} (next : Option Change)
 (hcommon : (part.added || part.removed) = false) :
 ∃ shown, Passes width (Text.rows part.value) rows (rows.part width part next) shown := by
 generalize hraw : Text.rows part.value = raw
 -- the flag set behind the run is no part of what is said of it
 have hflag : ∀ {after : DiffRows} {shown : List DiffRow}, Passes width raw rows after shown →
  Passes width raw rows { after with lastWasChange := false } shown :=
  fun h => ⟨h.output, h.oldLine, h.newLine, h.first, h.shown⟩
 unfold DiffRows.part
 rw [if_neg (by simp [hcommon]), hraw]
 dsimp only
 split
 · split
   · exact ⟨_, hflag (passes_context width rows raw)⟩
   next hlong =>
    rw [Nat.not_le, diffContext] at hlong
    have hskipped : ((raw.drop diffContext).take (raw.length - 2 * diffContext)).length
     = raw.length - 2 * diffContext := by
     rw [length_take, length_drop, diffContext]
     omega
    have hsplit : raw = raw.take diffContext
     ++ (raw.drop diffContext).take (raw.length - 2 * diffContext)
     ++ raw.drop (raw.length - diffContext) := by
     have hend : raw.length - diffContext = diffContext + (raw.length - 2 * diffContext) := by
      rw [diffContext]
      omega
     rw [hend, ← drop_drop, append_assoc, take_append_drop, take_append_drop]
    have hfront := passes_context width rows (raw.take diffContext)
    have hmiddle := passes_skip width (rows.context width (raw.take diffContext))
     ((raw.drop diffContext).take (raw.length - 2 * diffContext))
    rw [hskipped] at hmiddle
    have hall := (hfront.append hmiddle).append
     (passes_context width _ (raw.drop (raw.length - diffContext)))
    rw [← hsplit] at hall
    exact ⟨_, hflag hall⟩
 split
 · have hskipped : (raw.drop (min raw.length diffContext)).length
    = raw.length - min raw.length diffContext := length_drop
   have hfront := passes_context width rows (raw.take (min raw.length diffContext))
   obtain ⟨shown, hback⟩ := passes_skipped width
    (rows.context width (raw.take (min raw.length diffContext)))
    (raw.drop (min raw.length diffContext))
   rw [hskipped] at hback
   have hall := hfront.append hback
   rw [take_append_drop] at hall
   exact ⟨_, hflag hall⟩
 · split
   · have hskipped : (raw.take (raw.length - diffContext)).length = raw.length - diffContext := by
      rw [length_take]
      omega
     obtain ⟨shown, hfront⟩ := passes_skipped width rows (raw.take (raw.length - diffContext))
     rw [hskipped] at hfront
     have hall := hfront.append (passes_context width _ (raw.drop (raw.length - diffContext)))
     rw [take_append_drop] at hall
     exact ⟨_, hflag hall⟩
   · exact ⟨_, hflag (passes_pass width rows raw)⟩

theorem change_added (width : Nat) (rows : DiffRows) (lines : List (List Char)) :
 lines.foldl (DiffRows.change width true) rows = { rows with
      output := rows.output
       ++ ((lines.zipIdx rows.newLine).map (DiffRow.of '+')).map (DiffRow.text width)
      newLine := rows.newLine + lines.length } := by
 induction lines generalizing rows with
 | nil => simp
 | cons line lines ih =>
  rw [foldl_cons, ih]
  simp [DiffRows.change, DiffRow.of, DiffRow.text]
  omega

theorem change_removed (width : Nat) (rows : DiffRows) (lines : List (List Char)) :
 lines.foldl (DiffRows.change width false) rows = { rows with
      output := rows.output
       ++ ((lines.zipIdx rows.oldLine).map (DiffRow.of '-')).map (DiffRow.text width)
      oldLine := rows.oldLine + lines.length } := by
 induction lines generalizing rows with
 | nil => simp
 | cons line lines ih =>
  rw [foldl_cons, ih]
  simp [DiffRows.change, DiffRow.of, DiffRow.text]
  omega

end Bake.Tools
