import Bake.Lib.WholeLines

/-!
# The line diff

`diff_lines`: a search for a shortest way from the old lines to the new ones, over the furthest
path on each diagonal. A round looks at every other diagonal, from the lowest to the highest
that may still matter; a path that has come to the end of one text bounds the diagonals on its
side. A path keeps its runs of common, added and removed lines, the newest first, and the
changes are read off the first one that comes to the ends of both texts.

A position is an `Int`, -1 in front of the first line. Every access to an array or a slice that
would be out of range is `none`.
-/

namespace Bake.Tools

abbrev Line := List Char

/-- `Change`: one run of a diff, common, added, or removed lines. -/
structure Change where
 value : List Char
 added : Bool
 removed : Bool
 deriving DecidableEq

/-- `Component`. What is `previous` to it is the rest of the list it heads. -/
structure Component where
 count : Nat
 added : Bool
 removed : Bool
 deriving DecidableEq

structure DiffPath where
 oldPos : Int
 last : List Component

def tokenize (value : List Char) : List Line := WholeLines.split '\n' value

def addToPath (path : DiffPath) (added removed : Bool) (oldPosInc : Int) : DiffPath :=
 let last := match path.last with
  | last :: previous =>
   if last.added = added ∧ last.removed = removed then
    { last with count := last.count + 1 } :: previous
   else { count := 1, added, removed } :: last :: previous
  | [] => [{ count := 1, added, removed }]
 { oldPos := path.oldPos + oldPosInc, last }

def lineAt (lines : List Line) (position : Int) : Option Line :=
 if 0 ≤ position then lines[position.toNat]? else none

/-- The loop of `extract_common`. -/
def commonLoop (new old : List Line) (oldPos newPos : Int) (common : Nat) :
 Option (Int × Int × Nat) :=
 if newPos + 1 < new.length ∧ oldPos + 1 < old.length then do
  let oldLine ← lineAt old (oldPos + 1)
  let newLine ← lineAt new (newPos + 1)
  if oldLine = newLine then commonLoop new old (oldPos + 1) (newPos + 1) (common + 1)
  else some (oldPos, newPos, common)
 else some (oldPos, newPos, common)
termination_by (old.length - oldPos).toNat

/-- `extract_common`: the path with what is common behind it, and its position in the new
lines. -/
def extractCommon (path : DiffPath) (new old : List Line) (diagonal : Int) :
 Option (DiffPath × Int) := do
 let (oldPos, newPos, common) ← commonLoop new old path.oldPos (path.oldPos - diagonal) 0
 let last :=
  if common > 0 then { count := common, added := false, removed := false } :: path.last
  else path.last
 some ({ oldPos, last }, newPos)

def concatSlice (lines : List Line) (start count : Nat) : Option (List Char) :=
 if start + count ≤ lines.length then some ((lines.drop start).take count).flatten else none

/-- The loop of `build_values`, over the components from the first on. -/
def buildFrom (new old : List Line) (newPos oldPos : Nat) : List Component → Option (List Change)
 | [] => some []
 | component :: components =>
  if component.removed then do
   let value ← concatSlice old oldPos component.count
   let rest ← buildFrom new old newPos (oldPos + component.count) components
   some ({ value, added := component.added, removed := component.removed } :: rest)
  else do
   let value ← concatSlice new newPos component.count
   let oldPos := if !component.added then oldPos + component.count else oldPos
   let rest ← buildFrom new old (newPos + component.count) oldPos components
   some ({ value, added := component.added, removed := component.removed } :: rest)

def buildValues (last : List Component) (new old : List Line) : Option (List Change) :=
 buildFrom new old 0 0 last.reverse

/-! ## The search -/

/-- The best path of every diagonal, and the bounds on the diagonals. `none` is for
`isize::MIN` and `isize::MAX`. -/
structure DiffSearch where
 best : List (Option DiffPath)
 minDiagonal : Option Int
 maxDiagonal : Option Int

def slotGet (best : List (Option DiffPath)) (offset diagonal : Int) : Option (Option DiffPath) :=
 if 0 ≤ diagonal + offset then best[(diagonal + offset).toNat]? else none

def slotSet (best : List (Option DiffPath)) (offset diagonal : Int) (path : Option DiffPath) :
 Option (List (Option DiffPath)) :=
 if 0 ≤ diagonal + offset ∧ (diagonal + offset).toNat < best.length then
  some (best.set (diagonal + offset).toNat path)
 else none

/-- What a diagonal comes to. -/
inductive DiffStep
 | found (path : DiffPath)
 | next (search : DiffSearch)
 | leave (search : DiffSearch)

/-- `can_add`. -/
def canAddTo (new : List Line) (diagonal : Int) (addPath : Option DiffPath) : Bool :=
 addPath.any fun path =>
  decide (0 ≤ path.oldPos - diagonal) && decide (path.oldPos - diagonal < (new.length : Int))

/-- `can_remove`. -/
def canRemoveTo (old : List Line) (removePath : Option DiffPath) : Bool :=
 removePath.any fun path => decide (path.oldPos + 1 < (old.length : Int))

/-- The old positions of two paths compared, no path being the least. -/
def isBehind : Option DiffPath → Option DiffPath → Bool
 | some remove, some add => decide (remove.oldPos < add.oldPos)
 | none, some _ => true
 | _, none => false

/-- The path to go on from, one line further: the one farthest along the old lines that stays in
both texts. Ties go to the removal. -/
def branch (canAdd canRemove : Bool) (addPath removePath : Option DiffPath) : Option DiffPath :=
 match !canRemove || (canAdd && isBehind removePath addPath), addPath, removePath with
 | true, some add, _ => some (addToPath add true false 0)
 | false, _, some remove => some (addToPath remove false true 1)
 | _, _, _ => none

/-- The bounds behind a path, and its entry. -/
def keepPath (new old : List Line) (offset : Int) (search : DiffSearch) (diagonal : Int)
 (base : DiffPath) (newPos : Int) : Option DiffSearch := do
 let maxDiagonal :=
  if base.oldPos + 1 ≥ old.length then
   some (search.maxDiagonal.elim (diagonal - 1) fun bound => min bound (diagonal - 1))
  else search.maxDiagonal
 let minDiagonal :=
  if newPos + 1 ≥ new.length then
   some (search.minDiagonal.elim (diagonal + 1) fun bound => max bound (diagonal + 1))
  else search.minDiagonal
 let best ← slotSet search.best offset diagonal (some base)
 some { best, minDiagonal, maxDiagonal }

/-- The body of the loop over the diagonals. -/
def diagonalStep (new old : List Line) (offset : Int) (search : DiffSearch) (diagonal : Int) :
 Option DiffStep := do
 let removePath ← slotGet search.best offset (diagonal - 1)
 let best ← slotSet search.best offset (diagonal - 1) none
 let addPath ← slotGet best offset (diagonal + 1)
 let canAdd := canAddTo new diagonal addPath
 let canRemove := canRemoveTo old removePath
 if !canAdd && !canRemove then do
  let best ← slotSet best offset diagonal none
  some (.next { search with best })
 else
  match branch canAdd canRemove addPath removePath with
  | none => some (.leave { search with best })
  | some base => do
   let (base, newPos) ← extractCommon base new old diagonal
   if base.oldPos + 1 ≥ old.length ∧ newPos + 1 ≥ new.length then some (.found base)
   else do
    let search ← keepPath new old offset { search with best } diagonal base newPos
    some (.next search)

def diagonalLoop (new old : List Line) (offset editLength : Int) (search : DiffSearch)
 (diagonal : Int) : Option (DiffPath ⊕ DiffSearch) :=
 if _h : diagonal ≤ search.maxDiagonal.elim editLength fun bound => min bound editLength then
  match diagonalStep new old offset search diagonal with
  | none => none
  | some (.found path) => some (.inl path)
  | some (.leave after) => some (.inr after)
  | some (.next after) => diagonalLoop new old offset editLength after (diagonal + 2)
 else some (.inr search)
termination_by (editLength + 1 - diagonal).toNat
decreasing_by cases hmax : search.maxDiagonal with
 | none => rw [hmax, Option.elim_none] at _h; omega
 | some bound => rw [hmax, Option.elim_some] at _h; omega

def editLoop (new old : List Line) (offset maxEditLength : Int) (search : DiffSearch)
 (editLength : Int) : Option (List Change) :=
 if editLength ≤ maxEditLength then do
  let start := search.minDiagonal.elim (-editLength) fun bound => max bound (-editLength)
  match ← diagonalLoop new old offset editLength search start with
  | .inl path => buildValues path.last new old
  | .inr search => editLoop new old offset maxEditLength search (editLength + 1)
 else some []
termination_by (maxEditLength + 1 - editLength).toNat

def diffLines (old new : List Char) : Option (List Change) := do
 let oldTokens := tokenize old
 let newTokens := tokenize new
 let maxEditLength : Int := newTokens.length + oldTokens.length
 let offset := maxEditLength + 1
 let best := List.replicate (2 * offset + 1).toNat none
 let (first, newPos) ← extractCommon { oldPos := -1, last := [] } newTokens oldTokens 0
 if first.oldPos + 1 ≥ oldTokens.length ∧ newPos + 1 ≥ newTokens.length then
  buildValues first.last newTokens oldTokens
 else do
  let best ← slotSet best offset 0 (some first)
  editLoop newTokens oldTokens offset maxEditLength
   { best, minDiagonal := none, maxDiagonal := none } 1

end Bake.Tools
