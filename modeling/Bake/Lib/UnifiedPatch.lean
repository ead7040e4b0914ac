import Bake.Lib.PaddedNumber
import Mathlib.Data.List.Basic

/-!
# Unified patches

Hunks of kept, removed and added lines, and what it is to apply them strictly: every hunk
stands where its header says, in both files, its counts are those of its rows, and the old
lines are those of its rows to the last character, the missing line feed of a last line
included. A patch that was made from the front of the files on has what its hunks take and what
they make (`Takes`): it grows by a hunk at a time, and applies to whatever follows.
-/

open List Option Nat

namespace UnifiedPatch

/-- What a row does with its line. -/
inductive Sign
 | keep
 | remove
 | add
 deriving DecidableEq

/-- A row. Its line has its line feed, if it ends with one. -/
structure Row where
 sign : Sign
 line : List Char
 deriving DecidableEq

/-- A hunk: the four numbers of its header, and its rows. -/
structure Hunk where
 oldStart : Nat
 oldCount : Nat
 newStart : Nat
 newCount : Nat
 rows : List Row
 deriving DecidableEq

def oldLines (rows : List Row) : List (List Char) :=
 (rows.filter fun row => row.sign ≠ .add).map Row.line

def newLines (rows : List Row) : List (List Char) :=
 (rows.filter fun row => row.sign ≠ .remove).map Row.line

/-- How many lines are in front of a range. An empty one starts at the line in front of it. -/
def before (start count : Nat) : Nat := if count = 0 then start else start - 1

def Hunk.oldBefore (hunk : Hunk) : Nat := before hunk.oldStart hunk.oldCount

def Hunk.newBefore (hunk : Hunk) : Nat := before hunk.newStart hunk.newCount

structure Hunk.Counted (hunk : Hunk) : Prop where
 oldCount : hunk.oldCount = (oldLines hunk.rows).length
 newCount : hunk.newCount = (newLines hunk.rows).length

instance (hunk : Hunk) : Decidable hunk.Counted :=
 decidable_of_iff (hunk.oldCount = (oldLines hunk.rows).length
  ∧ hunk.newCount = (newLines hunk.rows).length) ⟨fun h => ⟨h.1, h.2⟩, fun h => ⟨h.1, h.2⟩⟩

/-! ## Applying -/

/-- A patch being applied: the new lines made, and the old ones that follow the first `taken`. -/
structure Progress where
 made : List (List Char)
 taken : Nat
 rest : List (List Char)
 deriving DecidableEq

/-- A hunk applied. What is between it and the one in front stays as it is. -/
def applyHunk (progress : Progress) (hunk : Hunk) : Option Progress :=
 let gap := hunk.oldBefore - progress.taken
 if progress.taken ≤ hunk.oldBefore ∧ gap ≤ progress.rest.length
  ∧ hunk.newBefore = progress.made.length + gap ∧ hunk.Counted
  ∧ oldLines hunk.rows <+: progress.rest.drop gap then
  some { made := progress.made ++ progress.rest.take gap ++ newLines hunk.rows
         taken := hunk.oldBefore + hunk.oldCount
         rest := progress.rest.drop (gap + hunk.oldCount) }
 else none

def applyHunks : Progress → List Hunk → Option Progress
 | progress, [] => some progress
 | progress, hunk :: hunks => (applyHunk progress hunk).bind fun after => applyHunks after hunks

/-- A patch applied to the lines of a file. -/
def apply (old : List (List Char)) (hunks : List Hunk) : Option (List (List Char)) :=
 (applyHunks { made := [], taken := 0, rest := old } hunks).map fun progress =>
  progress.made ++ progress.rest

/-- One hunk ends in front of another, in both files, and a line is between them. -/
structure Precedes (a b : Hunk) : Prop where
 old : a.oldBefore + a.oldCount < b.oldBefore
 new : a.newBefore + a.newCount < b.newBefore

theorem applyHunks_append (progress : Progress) (a b : List Hunk) : applyHunks progress (a ++ b)
  = (applyHunks progress a).bind fun after => applyHunks after b := by
 induction a generalizing progress with
 | nil => rfl
 | cons hunk a ih =>
  rw [cons_append, applyHunks, applyHunks, bind_assoc]
  exact congrArg _ (funext fun after => ih after)

/-! ## A patch in the making -/

/-- The hunk of rows with so many lines in front of it in either file. -/
def hunkAt (oldBefore newBefore : Nat) (rows : List Row) : Hunk where
 oldStart := if (oldLines rows).length = 0 then oldBefore else oldBefore + 1
 oldCount := (oldLines rows).length
 newStart := if (newLines rows).length = 0 then newBefore else newBefore + 1
 newCount := (newLines rows).length
 rows := rows

variable {hunks : List Hunk} {rows : List Row} {old new gap : List (List Char)} {x y : Nat}

@[simp] theorem before_start (k n : Nat) : before (if n = 0 then k else k + 1) n = k := by
 unfold before
 split <;> rfl

@[simp] theorem oldBefore_hunkAt (x y : Nat) (rows : List Row) : (hunkAt x y rows).oldBefore = x :=
 before_start x _

@[simp] theorem newBefore_hunkAt (x y : Nat) (rows : List Row) : (hunkAt x y rows).newBefore = y :=
 before_start y _

theorem counted_hunkAt (x y : Nat) (rows : List Row) : (hunkAt x y rows).Counted := ⟨rfl, rfl⟩

structure Takes (hunks : List Hunk) (old new : List (List Char)) : Prop where
 /-- Whatever follows the old lines stays. -/
 takes : ∀ rest, applyHunks { made := [], taken := 0, rest := old ++ rest } hunks
  = some { made := new, taken := old.length, rest }
 counted : ∀ hunk ∈ hunks, hunk.Counted
 ordered : hunks.Pairwise Precedes
 /-- No hunk goes past the lines taken and made. -/
 ends : ∀ hunk ∈ hunks, hunk.oldBefore + hunk.oldCount ≤ old.length
  ∧ hunk.newBefore + hunk.newCount ≤ new.length

theorem takes_nil : Takes [] [] [] where
 takes := fun _ => rfl
 counted := by simp
 ordered := .nil
 ends := by simp

/-- **A hunk more**, behind a gap that is no part of it. -/
theorem Takes.snoc (h : Takes hunks old new) (rows : List Row) (hgap : hunks ≠ [] → gap ≠ []) :
 Takes (hunks ++ [hunkAt (old.length + gap.length) (new.length + gap.length) rows])
  (old ++ gap ++ oldLines rows) (new ++ gap ++ newLines rows) where
 takes := by
  intro rest
  have hnext : applyHunk { made := new, taken := old.length, rest := gap ++ oldLines rows ++ rest }
   (hunkAt (old.length + gap.length) (new.length + gap.length) rows)
   = some { made := new ++ gap ++ newLines rows
            taken := (old ++ gap ++ oldLines rows).length
            rest } := by
   unfold applyHunk
   simp only [oldBefore_hunkAt, newBefore_hunkAt, Nat.add_sub_cancel_left, append_assoc,
    take_left, drop_left]
   rw [if_pos ⟨Nat.le_add_right _ _, by simp, trivial, counted_hunkAt _ _ _,
    prefix_append _ _⟩]
   simp only [hunkAt, ← drop_drop, drop_left, length_append, Nat.add_assoc]
  rw [applyHunks_append, append_assoc, append_assoc, h.takes, bind_some,
   ← append_assoc, applyHunks, hnext]
  rfl
 counted := by
  intro hunk hhunk
  rcases mem_append.mp hhunk with hhunk | hhunk
  · exact h.counted hunk hhunk
  · rw [mem_singleton.mp hhunk]
    exact counted_hunkAt _ _ _
 ordered := by
  refine pairwise_append.mpr ⟨h.ordered, pairwise_singleton _ _, fun a ha b hb => ?_⟩
  rw [mem_singleton.mp hb]
  have hpos := length_pos_iff.mpr (hgap (ne_nil_of_mem ha))
  obtain ⟨hold, hnew⟩ := h.ends a ha
  exact ⟨by rw [oldBefore_hunkAt]; omega, by rw [newBefore_hunkAt]; omega⟩
 ends := by
  intro hunk hhunk
  rcases mem_append.mp hhunk with hhunk | hhunk
  · obtain ⟨hold, hnew⟩ := h.ends hunk hhunk
    simp only [length_append]
    omega
  · rw [mem_singleton.mp hhunk, oldBefore_hunkAt, newBefore_hunkAt]
    simp [hunkAt, Nat.add_assoc]

/-- **Applied**, with what is behind the last hunk. -/
theorem Takes.apply (h : Takes hunks old new) (gap : List (List Char)) :
 apply (old ++ gap) hunks = some (new ++ gap) := by
 rw [UnifiedPatch.apply, h.takes]
 rfl

/-- A hunk's lines are the old file's, or are made. -/
theorem applyHunk_lines {progress after : Progress} {hunk : Hunk}
 (h : applyHunk progress hunk = some after) :
 (∀ line ∈ progress.made, line ∈ after.made) ∧ (∀ line ∈ after.rest, line ∈ progress.rest)
  ∧ ∀ row ∈ hunk.rows, row.line ∈ progress.rest ∨ row.line ∈ after.made := by
 unfold applyHunk at h
 dsimp only at h
 split at h
 next hfits =>
  cases h
  refine ⟨fun line hline => ?_, fun line hline => mem_of_mem_drop hline, fun row hrow => ?_⟩
  · exact mem_append_left _ (mem_append_left _ hline)
  · by_cases hadd : row.sign = .add
    · refine Or.inr (mem_append_right _ (mem_map_of_mem (mem_filter.mpr ⟨hrow, ?_⟩)))
      simp [hadd]
    · refine Or.inl (mem_of_mem_drop (hfits.2.2.2.2.subset
       (mem_map_of_mem (mem_filter.mpr ⟨hrow, ?_⟩))))
      simpa using hadd
 · simp at h

theorem applyHunks_lines {progress after : Progress} (h : applyHunks progress hunks = some after) :
 (∀ line ∈ progress.made, line ∈ after.made) ∧ (∀ line ∈ after.rest, line ∈ progress.rest)
  ∧ ∀ hunk ∈ hunks, ∀ row ∈ hunk.rows, row.line ∈ progress.rest ∨ row.line ∈ after.made := by
 induction hunks generalizing progress with
 | nil =>
  cases h
  exact ⟨fun _ h => h, fun _ h => h, by simp⟩
 | cons hunk hunks ih =>
  obtain ⟨next, hnext, h⟩ := bind_eq_some_iff.mp h
  obtain ⟨hmade, hrest, hrows⟩ := applyHunk_lines hnext
  obtain ⟨hmade', hrest', hrows'⟩ := ih h
  refine ⟨fun line hline => hmade' line (hmade line hline),
   fun line hline => hrest line (hrest' line hline), fun other hother row hrow => ?_⟩
  rcases mem_cons.mp hother with rfl | hother
  · exact (hrows row hrow).imp_right (hmade' _)
  · exact (hrows' other hother row hrow).imp_left (hrest _)

/-- **No line of a patch is made up**: it is one of the old file or of the new. -/
theorem apply_lines (h : apply old hunks = some new) :
 ∀ hunk ∈ hunks, ∀ row ∈ hunk.rows, row.line ∈ old ∨ row.line ∈ new := by
 obtain ⟨progress, happly, rfl⟩ := map_eq_some_iff.mp h
 intro hunk hhunk row hrow
 exact ((applyHunks_lines happly).2.2 hunk hhunk row hrow).imp_right (mem_append_left _)

/-! ## Rows put together -/

theorem oldLines_append (a b : List Row) : oldLines (a ++ b) = oldLines a ++ oldLines b := by
 simp [oldLines]

theorem newLines_append (a b : List Row) : newLines (a ++ b) = newLines a ++ newLines b := by
 simp [newLines]

theorem oldLines_rows (sign : Sign) (lines : List (List Char)) :
 oldLines (lines.map (Row.mk sign)) = if sign = .add then [] else lines := by
 induction lines with
 | nil => simp [oldLines]
 | cons line lines ih =>
  rw [oldLines] at ih ⊢
  by_cases h : sign = .add <;> simp_all

theorem newLines_rows (sign : Sign) (lines : List (List Char)) :
 newLines (lines.map (Row.mk sign)) = if sign = .remove then [] else lines := by
 induction lines with
 | nil => simp [newLines]
 | cons line lines ih =>
  rw [newLines] at ih ⊢
  by_cases h : sign = .remove <;> simp_all

/-! ## Text -/

def Sign.char : Sign → Char
 | .keep => ' '
 | .remove => '-'
 | .add => '+'

/-- What follows a line that has no line feed. -/
def noNewline : List Char := "\\ No newline at end of file".toList

def Row.written (row : Row) : List (List Char) :=
 if row.line.getLast? = some '\n' then [row.sign.char :: row.line.dropLast]
 else [row.sign.char :: row.line, noNewline]

def Hunk.header (hunk : Hunk) : List Char := ['@', '@', ' ', '-'] ++ toDigits 10 hunk.oldStart
  ++ [','] ++ toDigits 10 hunk.oldCount
  ++ [' ', '+'] ++ toDigits 10 hunk.newStart
  ++ [','] ++ toDigits 10 hunk.newCount ++ [' ', '@', '@']

def Hunk.written (hunk : Hunk) : List (List Char) := hunk.header :: hunk.rows.flatMap Row.written

/-- What is written of rows whose lines have no line feed but at their ends has none. -/
theorem not_mem_written {hunk : Hunk} (h : ∀ row ∈ hunk.rows, '\n' ∉ row.line.dropLast) :
 ∀ text ∈ hunk.written, '\n' ∉ text := by
 have hdigit : ∀ n : Nat, '\n' ∉ toDigits 10 n := fun n hmem =>
  absurd (PaddedNumber.isDigit_digits hmem) (by decide)
 intro text htext
 rcases mem_cons.mp htext with rfl | htext
 · simp [Hunk.header, hdigit]
 obtain ⟨row, hrow, htext⟩ := mem_flatMap.mp htext
 have hsign : '\n' ≠ row.sign.char := by cases row.sign <;> decide
 have hline := h row hrow
 rw [Row.written] at htext
 split at htext
 · rw [mem_singleton.mp htext, mem_cons, not_or]
   exact ⟨hsign, hline⟩
 next hlast =>
  rcases mem_cons.mp htext with rfl | htext
  · rw [mem_cons, not_or]
    refine ⟨hsign, fun hmem => ?_⟩
    rcases eq_nil_or_concat row.line with hnil | ⟨front, last, hconcat⟩
    · simp [hnil] at hmem
    · rw [hconcat] at hmem hline hlast
      simp only [concat_eq_append, dropLast_concat, getLast?_concat,
       mem_append, mem_singleton] at hmem hline hlast
      exact hmem.elim hline fun heq => hlast (by rw [heq])
  · rw [mem_singleton.mp htext]
    decide

def readSign : Char → Option Sign
 | ' ' => some .keep
 | '-' => some .remove
 | '+' => some .add
 | _ => none

def readNumber (text : List Char) : Option (Nat × List Char) :=
 match text.takeWhile Char.isDigit with
 | [] => none
 | digits => some (ofDigitChars 10 digits 0, text.dropWhile Char.isDigit)

def expect (front text : List Char) : Option (List Char) :=
 if front <+: text then some (text.drop front.length) else none

def readHeader (text : List Char) : Option Hunk := do
 let (oldStart, text) ← readNumber (← expect ['@', '@', ' ', '-'] text)
 let (oldCount, text) ← readNumber (← expect [','] text)
 let (newStart, text) ← readNumber (← expect [' ', '+'] text)
 let (newCount, text) ← readNumber (← expect [','] text)
 if text = [' ', '@', '@'] then some { oldStart, oldCount, newStart, newCount, rows := [] } else none

def readFrom : List (List Char) → Option (List Row × List Hunk)
 | [] => some ([], [])
 | [] :: _ => none
 | ('@' :: text) :: texts => do
  let header ← readHeader ('@' :: text)
  let (rows, hunks) ← readFrom texts
  some ([], { header with rows } :: hunks)
 | (c :: text) :: texts => do
  let sign ← readSign c
  if texts.head? = some noNewline then do
   let (rows, hunks) ← readFrom texts.tail
   some (⟨sign, text⟩ :: rows, hunks)
  else do
   let (rows, hunks) ← readFrom texts
   some (⟨sign, text ++ ['\n']⟩ :: rows, hunks)
termination_by texts => texts.length
decreasing_by all_goals simp +arith

def read (texts : List (List Char)) : Option (List Hunk) := do
 match ← readFrom texts with
 | ([], hunks) => some hunks
 | _ => none

/-! ## What is written is read -/

theorem readNumber_digits (n : Nat) {c : Char} (hc : c.isDigit = false) (rest : List Char) :
 readNumber (toDigits 10 n ++ c :: rest) = some (n, c :: rest) := by
 have hdigits : ∀ d ∈ toDigits 10 n, d.isDigit = true := fun d hd =>
  PaddedNumber.isDigit_digits hd
 rw [readNumber, takeWhile_append_of_pos hdigits, dropWhile_append_of_pos hdigits,
  takeWhile_cons_of_neg (by simp [hc]), dropWhile_cons_of_neg (by simp [hc]),
  append_nil]
 cases hn : toDigits 10 n with
 | nil => exact absurd hn toDigits_ne_nil
 | cons d digits =>
  have hread : ofDigitChars 10 (d :: digits) 0 = n := by
   rw [← hn]
   exact ofDigitChars_toDigits (by decide) (by decide)
  exact congrArg (fun m => some (m, c :: rest)) hread

theorem expect_append (front rest : List Char) : expect front (front ++ rest) = some rest := by
 rw [expect, if_pos (prefix_append _ _), drop_left]

theorem readHeader_header (hunk : Hunk) : readHeader hunk.header = some { hunk with rows := [] } := by
 have hnumber : ∀ (n : Nat) {c : Char} (front rest : List Char), c.isDigit = false →
  readNumber (toDigits 10 n ++ (c :: front ++ rest)) = some (n, c :: front ++ rest) :=
  fun n _ front rest hc => readNumber_digits n hc (front ++ rest)
 have hblank : (' ').isDigit = false := by decide
 have hcomma : (',').isDigit = false := by decide
 have hend := readNumber_digits hunk.newCount hblank ['@', '@']
 simp only [Hunk.header, readHeader, append_assoc, expect_append, hnumber _ _ _ hblank,
  hnumber _ _ _ hcomma, hend, bind_eq_bind, bind_some, if_true]

/-- No row or hunk is written as the mark of a missing line feed. -/
theorem head_written (rows : List Row) (hunks : List Hunk) :
 (rows.flatMap Row.written ++ hunks.flatMap Hunk.written).head? ≠ some noNewline := by
 have hmark : ∀ {c : Char} {text : List Char}, c ≠ '\\' → some (c :: text) ≠ some noNewline :=
  fun hc h => hc (List.cons.inj (some.inj h)).1
 cases rows with
 | nil =>
  cases hunks with
  | nil => simp
  | cons hunk hunks => exact hmark (by decide)
 | cons row rows =>
  have hsign : row.sign.char ≠ '\\' := by cases row.sign <;> decide
  rw [flatMap_cons, Row.written]
  split <;> exact hmark hsign

theorem readFrom_row (row : Row) {texts : List (List Char)}
 (hhead : texts.head? ≠ some noNewline) (h : readFrom texts = some (rows, hunks)) :
 readFrom (row.written ++ texts) = some (row :: rows, hunks) := by
 obtain ⟨sign, line⟩ := row
 have hat : sign.char ≠ '@' := by cases sign <;> decide
 have hsign : readSign sign.char = some sign := by cases sign <;> rfl
 rw [Row.written]
 split
 next hlast =>
  have hline : line.dropLast ++ ['\n'] = line := dropLast_append_getLast? _ hlast
  rw [singleton_append, readFrom.eq_4 _ _ _ hat, hsign]
  simp only [bind_eq_bind, bind_some, if_neg hhead, h, hline]
 · rw [cons_append, singleton_append, readFrom.eq_4 _ _ _ hat, hsign]
   simp only [bind_eq_bind, bind_some, head?_cons, if_true, tail_cons, h]

theorem readFrom_written (rows : List Row) (hunks : List Hunk) :
 readFrom (rows.flatMap Row.written ++ hunks.flatMap Hunk.written) = some (rows, hunks) := by
 induction hunks generalizing rows with
 | nil =>
  induction rows with
  | nil => rw [flatMap_nil, flatMap_nil, nil_append, readFrom]
  | cons row rows ih =>
   rw [flatMap_cons, append_assoc]
   exact readFrom_row row (head_written rows []) ih
 | cons hunk hunks ihHunks =>
  induction rows with
  | nil =>
   have hheader : hunk.header = '@' :: hunk.header.tail := rfl
   rw [flatMap_nil, nil_append, flatMap_cons, Hunk.written, cons_append,
    hheader, readFrom, ← hheader, readHeader_header, ihHunks]
   rfl
  | cons row rows ih =>
   rw [flatMap_cons, append_assoc]
   exact readFrom_row row (head_written rows (hunk :: hunks)) ih

/-- **What is written is read again.** -/
theorem read_written (hunks : List Hunk) : read (hunks.flatMap Hunk.written) = some hunks := by
 have := readFrom_written [] hunks
 rw [flatMap_nil, nil_append] at this
 rw [read, this]
 rfl

end UnifiedPatch
