import Bake.Lib.Blocks
import Bake.Lib.Run

/-!
# The transcript's viewport

`Transcript`: rows, each drawn as lines, and the first line on screen as a row and a line
within it, or none while the newest lines are followed. Row heights are measured once for a
width and a look, and again for rows that changed. How a row's own lines are drawn is a
parameter; what opens a row is as in `opening`. `usize` is read as unbounded, and an index
out of range or a difference below zero is `none`.
-/

namespace Bake.Tui

open Blocks (Le)

inductive Tones where
 | trueColor
 | ansi
 | none
 deriving DecidableEq

structure Look where
 tones : Tones := .trueColor
 classic : Bool := false
 /-- The blink's phase. -/
 lit : Bool := true
 deriving DecidableEq

/-- The first line the viewport shows. -/
structure Anchor where
 row : Nat := 0
 line : Nat := 0
 deriving DecidableEq

/-- `(anchor.row, anchor.line)`. -/
def Anchor.place (a : Anchor) : Blocks.Place := (a.row, a.line)

/-- How rows are drawn. A row has a line of its own, and a mark that blinks is replaced by a
blank as wide, so the phase changes no row's height. -/
structure Presenter (Row Line : Type) where
 isUser : Row → Bool
 blank : Line
 rule : Nat → Look → Line
 body : Row → Nat → Look → List Line
 body_ne : ∀ row width look, body row width look ≠ []
 body_lit : ∀ row width look lit,
  (body row width { look with lit := lit }).length = (body row width look).length

variable {Row Line : Type}

namespace Presenter

variable (p : Presenter Row Line)

def opening (previous : Option Row) (row : Row) (width : Nat) (look : Look) : List Line :=
 match previous with
 | none => []
 | some _ => if p.isUser row then [p.blank, p.rule width look] else [p.blank]

/-- `index.checked_sub(1).map(|i| &rows[i])`. -/
def previous (rows : List Row) : Nat → Option (Option Row)
 | 0 => some none
 | i + 1 => rows[i]?.map some

/-- The lines `rows[index]` draws. -/
def present (rows : List Row) (index width : Nat) (look : Look) : Option (List Line) := do
 let row ← rows[index]?
 let previous ← previous rows index
 some (p.opening previous row width look ++ p.body row width look)

end Presenter

structure Transcript (Row : Type) where
 rows : List Row
 /-- The rows settled for good; the ones behind them are live. -/
 committed : Nat
 anchor : Option Anchor := none
 width : Nat := 0
 height : Nat := 0
 look : Look := {}
 /-- The rows' heights at `measured`. -/
 heights : List Nat := []
 measured : Option (Nat × Tones × Bool) := none
 /-- The rows there were when output was last followed. -/
 seen : Nat := 0

namespace Transcript

def new (rows : List Row) : Transcript Row := { rows := rows, committed := rows.length }

def newBelow (t : Transcript Row) : Bool := t.anchor.isSome && decide (t.seen < t.rows.length)

/-- Marks a row as changed, so its height is measured again. -/
def touched (t : Transcript Row) (index : Nat) : Transcript Row :=
 { t with heights := t.heights.take index }

def follow (t : Transcript Row) : Transcript Row := { t with anchor := none }

/-- The lines of the whole transcript, as last measured. -/
def total (t : Transcript Row) : Nat := t.heights.sum

variable (p : Presenter Row Line) (t : Transcript Row)

def lines (index : Nat) : Option (List Line) := p.present t.rows index t.width t.look

def count (index : Nat) : Option Nat := (t.lines p index).map List.length

/-- Brings the heights up to date: all of them where the width or the look changed, and
otherwise those of the rows behind them. -/
def measure : Option (Transcript Row) := do
 let key := (t.width, t.look.tones, t.look.classic)
 let heights := if t.measured = some key then t.heights else []
 let heights := heights.take t.rows.length
 let behind ← (List.range' heights.length (t.rows.length - heights.length)).mapM (t.count p)
 some { t with heights := heights ++ behind, measured := some key }

/-- The loop of `bottom_anchor`, with the rows in front of `index` still to walk. -/
def bottomFrom : Nat → Nat → Option Anchor
 | 0, _ => some {}
 | index + 1, need => do
  let count ← t.count p index
  if need ≤ count then some { row := index, line := count - need }
  else bottomFrom index (need - count)

/-- The top while following: up from the newest row until the viewport is full. -/
def bottomAnchor : Option Anchor := t.bottomFrom p t.rows.length t.height

def top : Option Anchor :=
 match t.anchor with
 | some anchor => some anchor
 | none => t.bottomAnchor p

/-- The line the viewport's top is on, counted from the start. -/
def offset : Option Nat := do
 let top ← t.top p
 some ((t.heights.take top.row).sum + top.line)

/-- Follows output where the anchor is at or past the bottom. -/
def settle : Option (Transcript Row) :=
 match t.anchor with
 | none => some t
 | some anchor => do
  let bottom ← t.bottomAnchor p
  some (if Le bottom.place anchor.place then t.follow else t)

/-- The loop of `jump` over the heights from `row` on. -/
def jumpFrom : List Nat → Nat → Nat → Anchor → Anchor
 | [], _, _, anchor => anchor
 | height :: rest, row, left, _ =>
  if left < height then { row := row, line := left }
  else jumpFrom rest (row + 1) (left - height) { row := row + 1, line := 0 }

/-- Moves the top to a line; reaching the bottom follows output. -/
def jump (offset : Nat) : Option (Transcript Row) :=
 let anchor := jumpFrom t.heights 0 offset {}
 if t.rows.length ≤ anchor.row then some t.follow
 else settle p { t with anchor := some anchor }

/-- A row's lines from `skip` on go out until `limit` are there; whether that stopped it. -/
def pushLines (row limit : Nat) :
 List (Line × Nat) → List (Anchor × Line) → Bool × List (Anchor × Line)
 | [], out => (false, out)
 | (content, line) :: rest, out =>
  if out.length = limit then (true, out)
  else pushLines row limit rest (out ++ [({ row := row, line := line }, content)])

/-- The loop of `walk`, with `left` rows still to draw. -/
def walkFrom (limit : Nat) : Nat → Nat → Nat → List (Anchor × Line) → Option (List (Anchor × Line))
 | 0, _, _, out => some out
 | left + 1, row, skip, out => do
  let lines ← t.lines p row
  match pushLines row limit (lines.zipIdx.drop skip) out with
  | (true, out) => some out
  | (false, out) => walkFrom limit left (row + 1) 0 out

/-- The lines from an anchor down, at most `limit`, each with its place. -/
def walk (anchor : Anchor) (limit : Nat) : Option (List (Anchor × Line)) :=
 t.walkFrom p limit (t.rows.length - anchor.row) anchor.row anchor.line []

def visible : Option (List Line) := do
 let top ← t.top p
 let shown ← t.walk p top t.height
 some (shown.map Prod.snd)

/-- The loop of `scroll_up`. -/
def upFrom (row line lines : Nat) : Option Anchor :=
 if lines = 0 then some { row := row, line := line }
 else if lines ≤ line then some { row := row, line := line - lines }
 else
  match row with
  | 0 => some { row := 0, line := 0 }
  | row + 1 => do
   let count ← t.count p row
   upFrom row count (lines - line)

/-- Moves the viewport up; reaching the start holds there. -/
def scrollUp (lines : Nat) : Option (Transcript Row) := do
 let top ← t.top p
 let anchor ← t.upFrom p top.row top.line lines
 some { t with anchor := some anchor }

/-- The loop of `scroll_down`, with `left` rows from `row` on. -/
def downFrom : Nat → Nat → Nat → Option Anchor
 | 0, row, line => some { row := row, line := line }
 | left + 1, row, line => do
  let count ← t.count p row
  if line < count then some { row := row, line := line }
  else downFrom left (row + 1) (line - count)

/-- Moves the viewport down; reaching the newest line follows output again. -/
def scrollDown (lines : Nat) : Option (Transcript Row) :=
 match t.anchor with
 | none => some t
 | some anchor => do
  let bottom ← t.bottomAnchor p
  let anchor ← t.downFrom p (t.rows.length - anchor.row) anchor.row (anchor.line + lines)
  let pastBottom := t.rows.length ≤ anchor.row ∨ Le bottom.place anchor.place
  some { t with anchor := if pastBottom then none else some anchor }

def toStart : Option (Transcript Row) := do
 let bottom ← t.bottomAnchor p
 some { t with anchor := if bottom = {} then none else some {} }

/-- The line of a user row that holds its first row, past its opening. -/
def promptLine (index : Nat) : Option Nat := do
 let previous ← Presenter.previous t.rows index
 let row ← t.rows[index]?
 some (p.opening previous row t.width t.look).length

/-- The first of the rows that is a user's and lies where asked. -/
def findPrompt (sought : Anchor → Bool) : List Nat → Option (Option Anchor)
 | [] => some none
 | index :: rest => do
  let row ← t.rows[index]?
  if p.isUser row then
   let line ← t.promptLine p index
   if sought { row := index, line := line } then some (some { row := index, line := line })
   else findPrompt sought rest
  else findPrompt sought rest

def previousPrompt : Option (Transcript Row) := do
 let top ← t.top p
 let target ← t.findPrompt p (fun a => decide ¬ Le top.place a.place)
  (List.range t.rows.length).reverse
 match target with
 | some anchor => settle p { t with anchor := some anchor }
 | none => t.toStart p

/-- Brings the next prompt to the top; past the last, follows output. -/
def nextPrompt : Option (Transcript Row) := do
 let top ← t.top p
 let target ← t.findPrompt p (fun a => decide ¬ Le a.place top.place) (List.range t.rows.length)
 match target with
 | some anchor => settle p { t with anchor := some anchor }
 | none => some t.follow

/-- Records the viewport's size and keeps the anchor in range. -/
def resize (width height : Nat) (look : Look) : Option (Transcript Row) := do
 let t ← { t with width := width, height := height, look := look }.measure p
 let t := if t.anchor.isNone then { t with seen := t.rows.length } else t
 match t.anchor with
 | none => some t
 | some anchor =>
  let count ← t.count p (min anchor.row (t.rows.length - 1))
  settle p { t with anchor := some { row := anchor.row, line := min anchor.line (count - 1) } }

variable [DecidableEq Row]

/-- Replaces the live rows: those that are as before in front of the first change keep their
heights. -/
def replaceLive (rows : List Row) : Option (Transcript Row) :=
 if t.rows.length < t.committed then none
 else
  let same := (((t.rows.drop t.committed).zip rows).takeWhile fun (old, new) => old == new).length
  let kept := t.rows.take (t.committed + same)
  let t := { t with rows := kept ++ rows.drop same }.touched (t.committed + same)
  match t.anchor with
  | some anchor =>
   -- a reading position on a row that went away
   if t.rows.length ≤ anchor.row then
    settle p { t with anchor := some { row := t.rows.length - 1, line := 0 } }
   else some t
  | none => some t

def setLive (rows : List Row) : Option (Transcript Row) := t.replaceLive p rows

def commit (rows : List Row) : Option (Transcript Row) := do
 let t ← t.replaceLive p rows
 some { t with committed := t.rows.length }

end Transcript

/-! ## Runs -/

/-- What is done with a transcript. -/
inductive Op (Row : Type) where
 | resize (width height : Nat) (look : Look)
 | scrollUp (lines : Nat)
 | scrollDown (lines : Nat)
 | toStart
 | follow
 | previousPrompt
 | nextPrompt
 | jump (offset : Nat)
 | setLive (rows : List Row)
 | commit (rows : List Row)

/-- A transcript, whether it was resized behind the last change of its rows, and whether an
operation indexed out of range. -/
structure View (Row : Type) where
 transcript : Transcript Row
 fresh : Bool := false
 failed : Bool := false

variable [DecidableEq Row] (p : Presenter Row Line)

def Op.apply (op : Op Row) (t : Transcript Row) : Option (Transcript Row) :=
 match op with
 | .resize width height look => t.resize p width height look
 | .scrollUp lines => t.scrollUp p lines
 | .scrollDown lines => t.scrollDown p lines
 | .toStart => t.toStart p
 | .follow => some t.follow
 | .previousPrompt => t.previousPrompt p
 | .nextPrompt => t.nextPrompt p
 | .jump offset => t.jump p offset
 | .setLive rows => t.setLive p rows
 | .commit rows => t.commit p rows

/-- Whether the view is fresh behind an operation. -/
def Op.freshens (op : Op Row) (fresh : Bool) : Bool :=
 match op with
 | .resize .. => true
 | .setLive _ | .commit _ => false
 | _ => fresh

def View.step (v : View Row) (op : Op Row) : View Row :=
 match op.apply p v.transcript with
 | none => { v with failed := true }
 | some t => { v with transcript := t, fresh := op.freshens v.fresh }

/-- A viewport has a line, the rows are never all taken away, and a jump is made to a line
of a view as last measured. -/
def View.Allows (v : View Row) : Op Row → Prop
 | .resize _ height _ => 0 < height
 | .jump _ => v.fresh = true
 | .setLive rows | .commit rows => v.transcript.rows.take v.transcript.committed ++ rows ≠ []
 | _ => True

def View.Reached : View Row → Prop :=
 Run.Reach (fun v => ∃ rows, rows ≠ [] ∧ v = { transcript := .new rows }) (View.step p) View.Allows

end Bake.Tui
