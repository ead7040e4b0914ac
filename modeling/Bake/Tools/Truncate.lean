import Bake.Lib.Text

/-!
# Truncated tool output

`truncate_tail`: complete lines from the end of an output, as many as fit into a number of
lines and of bytes, or the end of the last line where that alone is too long. What is shown
is a matter of the last lines only: `keepLines_cut` and `keepLines_append`.
-/

namespace Bake.Tools

open Text (size rows spent lastBytes AtLineStart)

/-- Why an output is cut. -/
inductive TruncatedBy
 | lines
 | bytes
 deriving DecidableEq

structure TruncationOptions where
 maxLines : Nat
 maxBytes : Nat

structure TruncationResult where
 content : List Char
 truncated : Bool
 truncatedBy : Option TruncatedBy
 totalLines : Nat
 totalBytes : Nat
 outputLines : Nat
 outputBytes : Nat
 /-- The only kept line is the end of an overlong last line. -/
 lastLinePartial : Bool
 firstLineExceedsLimit : Bool
 maxLines : Nat
 maxBytes : Nat
 deriving DecidableEq

/-- The output is longer than the limits. -/
def exceeds (content : List Char) (options : TruncationOptions) : Bool :=
 (rows content).length > options.maxLines || size content > options.maxBytes

def initial (content : List Char) (options : TruncationOptions) : TruncationResult where
 content := []
 truncated := exceeds content options
 truncatedBy := if exceeds content options then some .lines else none
 totalLines := (rows content).length
 totalBytes := size content
 outputLines := 0
 outputBytes := 0
 lastLinePartial := false
 firstLineExceedsLimit := false
 maxLines := options.maxLines
 maxBytes := options.maxBytes

def unchanged (result : TruncationResult) (content : List Char) : TruncationResult :=
 { result with content, outputBytes := result.totalBytes, outputLines := result.totalLines }

/-- What the loop over the lines of `truncate_tail` changes. -/
structure Kept where
 lines : List (List Char)
 outputBytes : Nat
 truncatedBy : Option TruncatedBy
 lastLinePartial : Bool

/-- The loop over the lines, the last one first. -/
def keepLines (options : TruncationOptions) : List (List Char) → Kept → Kept
 | [], kept => kept
 | line :: more, kept =>
  let separator := (!kept.lines.isEmpty).toNat
  if size line + separator > options.maxBytes - kept.outputBytes then
   if kept.lines.isEmpty then
    { lines := kept.lines ++ [lastBytes options.maxBytes line]
      outputBytes := size (lastBytes options.maxBytes line)
      truncatedBy := some .bytes, lastLinePartial := true }
   else { kept with truncatedBy := some .bytes }
  else keepLines options more
   { kept with
     lines := kept.lines ++ [line]
     outputBytes := kept.outputBytes + (separator + size line) }

def truncateTail (content : List Char) (options : TruncationOptions) : TruncationResult :=
 let result := initial content options
 if !result.truncated then unchanged result content
 else
  let kept := keepLines options ((rows content).reverse.take options.maxLines)
   { lines := [], outputBytes := result.outputBytes, truncatedBy := result.truncatedBy,
     lastLinePartial := result.lastLinePartial }
  { result with
    -- The line limit has precedence even when a partial line hit bytes.
    truncatedBy := if kept.lines.length ≥ options.maxLines
     ∧ kept.outputBytes ≤ options.maxBytes then some .lines else kept.truncatedBy
    outputBytes := kept.outputBytes
    lastLinePartial := kept.lastLinePartial
    outputLines := kept.lines.length
    content := ['\n'].intercalate kept.lines.reverse }

/-! ## The loop over the lines -/

variable {options : TruncationOptions}

theorem keepLines_append (a b : List (List Char)) (kept : Kept)
 (hspent : kept.outputBytes = spent kept.lines)
 (hfits : spent (kept.lines ++ a) ≤ options.maxBytes) :
 keepLines options (a ++ b) kept = keepLines options b
   { kept with lines := kept.lines ++ a, outputBytes := spent (kept.lines ++ a) } := by
 induction a generalizing kept with
 | nil => simp [← hspent]
 | cons line a ih =>
  have hsplit : kept.lines ++ line :: a = (kept.lines ++ [line]) ++ a := by simp
  have hline : spent (kept.lines ++ [line]) ≤ options.maxBytes := by
   rw [hsplit] at hfits
   exact Nat.le_trans (Text.spent_le_append _ _) hfits
  rw [Text.spent_concat] at hline
  rw [List.cons_append, keepLines, if_neg (by omega), ih]
  · rw [hsplit]
  · dsimp only
    rw [Text.spent_concat, hspent]
  · rw [← hsplit]
    exact hfits

theorem keepLines_cut (a b : List (List Char)) (kept : Kept)
 (hspent : kept.outputBytes = spent kept.lines) (hkept : spent kept.lines ≤ options.maxBytes)
 (hcut : options.maxBytes < spent (kept.lines ++ a)) :
 keepLines options (a ++ b) kept = keepLines options a kept := by
 induction a generalizing kept with
 | nil => exact absurd hcut (by rw [List.append_nil]; omega)
 | cons line a ih =>
  rw [List.cons_append, keepLines, keepLines]
  split
  · rfl
  next hline =>
   refine ih _ ?_ ?_ ?_
   · dsimp only
     rw [Text.spent_concat, hspent]
   · dsimp only
     rw [Text.spent_concat]
     omega
   · dsimp only
     rw [List.append_assoc]
     exact hcut

/-! ## What is shown -/

/-- What a result shows: the content, why it is cut, and its lines and bytes. -/
def TruncationResult.shown (result : TruncationResult) :
 List Char × Option TruncatedBy × Nat × Nat :=
 (result.content, result.truncatedBy, result.outputLines, result.outputBytes)

def Kept.start : Kept :=
 { lines := [], outputBytes := 0, truncatedBy := some .lines, lastLinePartial := false }

/-- What is shown of an output that is cut, by its last lines. -/
def shownLines (options : TruncationOptions) (lines : List (List Char)) :
 List Char × Option TruncatedBy × Nat × Nat :=
 let kept := keepLines options lines Kept.start
 (['\n'].intercalate kept.lines.reverse,
  if kept.lines.length ≥ options.maxLines ∧ kept.outputBytes ≤ options.maxBytes
   then some .lines else kept.truncatedBy, kept.lines.length, kept.outputBytes)

theorem truncateTail_exceeds {content : List Char} (h : exceeds content options = true) :
 (truncateTail content options).shown
  = shownLines options ((rows content).reverse.take options.maxLines) := by
 simp [truncateTail, initial, h, shownLines, Kept.start, TruncationResult.shown]

theorem truncateTail_fits {content : List Char} (h : exceeds content options = false) :
 (truncateTail content options).shown = (content, none, (rows content).length, size content) := by
 simp [truncateTail, initial, h, unchanged, TruncationResult.shown]

@[simp] theorem truncateTail_truncated (content : List Char) :
 (truncateTail content options).truncated = exceeds content options := by
 unfold truncateTail
 dsimp only
 split <;> rfl

@[simp] theorem truncateTail_totalLines (content : List Char) :
 (truncateTail content options).totalLines = (rows content).length := by
 unfold truncateTail
 dsimp only
 split <;> rfl

@[simp] theorem truncateTail_totalBytes (content : List Char) :
 (truncateTail content options).totalBytes = size content := by
 unfold truncateTail
 dsimp only
 split <;> rfl

theorem truncateTail_truncatedBy (content : List Char) :
 (truncateTail content options).truncatedBy.isSome = exceeds content options := by
 have hkeep : ∀ lines kept, kept.truncatedBy.isSome = true →
  (keepLines options lines kept).truncatedBy.isSome = true := by
  intro lines
  induction lines with
  | nil => exact fun kept h => h
  | cons line lines ih =>
   intro kept h
   rw [keepLines]
   split
   · split <;> rfl
   · exact ih _ h
 cases h : exceeds content options with
 | false => simp [truncateTail, initial, h, unchanged]
 | true =>
  simp only [truncateTail, initial, h, Bool.not_true, Bool.false_eq_true, if_false, if_true]
  split
  · rfl
  · exact hkeep _ _ rfl

theorem shownLines_fits {lines : List (List Char)} (h : spent lines ≤ options.maxBytes) :
 shownLines options lines
  = (['\n'].intercalate lines.reverse, some .lines, lines.length, spent lines) := by
 have hkeep := @keepLines_append options lines [] Kept.start rfl h
 rw [List.append_nil] at hkeep
 rw [shownLines, hkeep]
 simp [keepLines, Kept.start]

theorem shownLines_cut {a : List (List Char)} (b : List (List Char))
 (h : options.maxBytes < spent a) : shownLines options (a ++ b) = shownLines options a := by
 rw [shownLines, shownLines, keepLines_cut a b Kept.start rfl (Nat.zero_le _) h]

theorem shownLines_stop {a : List (List Char)} {line : List Char} (b : List (List Char))
 (hne : a ≠ []) (hfits : spent a ≤ options.maxBytes)
 (hline : options.maxBytes < spent a + (1 + size line)) :
 shownLines options (a ++ line :: b) = (['\n'].intercalate a.reverse,
   if a.length ≥ options.maxLines then some .lines else some .bytes, a.length,
   spent a) := by
 have hkeep : keepLines options (a ++ line :: b) Kept.start
  = { lines := a, outputBytes := spent a, truncatedBy := some .bytes,
      lastLinePartial := false } := by
  have hempty : (Kept.start.lines ++ a).isEmpty = false := by simpa [Kept.start] using hne
  rw [keepLines_append a (line :: b) Kept.start rfl hfits, keepLines, hempty,
   if_pos (by simpa [Kept.start] using by omega), if_neg (by simp)]
  rfl
 rw [shownLines, hkeep]
 simp [hfits]

theorem shownLines_partialLine {line : List Char} (b : List (List Char))
 (hline : options.maxBytes < size line) :
 shownLines options (line :: b) = (lastBytes options.maxBytes line,
   if 1 ≥ options.maxLines then some .lines else some .bytes, 1,
   size (lastBytes options.maxBytes line)) := by
 have hle := Text.size_lastBytes_le options.maxBytes line
 have hkeep : keepLines options (line :: b) Kept.start
  = { lines := [lastBytes options.maxBytes line]
      outputBytes := size (lastBytes options.maxBytes line)
      truncatedBy := some .bytes, lastLinePartial := true } := by
  rw [keepLines, if_pos (by simpa [Kept.start] using hline), if_pos (by rfl)]
  rfl
 rw [shownLines, hkeep]
 simp [hle]

end Bake.Tools
