import Bake.Tools.LineDiffFirst
import Bake.Tools.NumberedDiff

/-!
# The numbered diff is truthful

Every row of `generate_diff_string` is numbered as its line is in its text, the changed lines
are all shown, once and in order, and the first changed line is the first that differs.
-/

open List Text

namespace Bake.Tools

open WholeLines (Whole)
open DiffRun
open DiffRow (of)

/-- Line `n` of a text, counted from 1. -/
def lineOf (text : List Char) (n : Nat) : Option (List Char) :=
 if n = 0 then none else (rows text)[n - 1]?

/-- The lines of the changes of a kind, each with its number in the text the changes of the
other kind are no part of. `n` is the number of the first line. -/
def changedRows (other kind : Change → Bool) : Nat → List Change → List (List Char × Nat)
 | _, [] => []
 | n, part :: parts =>
  if other part then changedRows other kind n parts
  else
   let lines := rows part.value
   (if kind part then lines.zipIdx n else []) ++ changedRows other kind (n + lines.length) parts

/-- The line of a first change, when all changes begin at line `n`. -/
def firstChange (n : Nat) : List DiffRun → Option Nat
 | [] => none
 | run :: runs => if run.kind = .common then firstChange (n + run.lines.length) runs else some n

def signed (sign : Char) (shown : List DiffRow) : List (List Char × Nat) :=
 shown.filterMap (DiffRow.signed sign)

variable {width oldLine newLine : Nat} {runs : List DiffRun} {shown : List DiffRow}

theorem signed_append (sign : Char) (a b : List DiffRow) :
 signed sign (a ++ b) = signed sign a ++ signed sign b := filterMap_append

theorem signed_of (sign other : Char) (lines : List (List Char × Nat)) :
 signed sign (lines.map (of other)) = if other = sign then lines else [] := by
 induction lines with
 | nil => simp [signed]
 | cons line lines ih =>
  rw [signed] at ih ⊢
  rw [map_cons, filterMap_cons, ih]
  by_cases h : other = sign <;> simp [of, DiffRow.signed, h]

/-- A row has one of three signs, and its line no line feed. -/
structure DiffRow.Plain (sign : Char) (text : List Char) : Prop where
 sign : sign = '-' ∨ sign = '+' ∨ sign = ' '
 text : '\n' ∉ text

/-- What runs are shown as, the first line of either text having a given number. -/
structure Tells (oldLine newLine : Nat) (runs : List DiffRun) (shown : List DiffRow) : Prop where
 removed : signed '-' shown = changedRows (·.added) (·.removed) oldLine (runs.map change)
 added : signed '+' shown = changedRows (·.removed) (·.added) newLine (runs.map change)
 context : ∀ line ∈ signed ' ' shown, line ∈ ((runs.flatMap old).map bare).zipIdx oldLine
 plain : ∀ sign n text, .line sign n text ∈ shown → DiffRow.Plain sign text

variable {n : Nat} {line : List Char}

theorem not_mem_numbered {lines : List Line} {line : List Char × Nat}
 (h : line ∈ (lines.map bare).zipIdx n) : '\n' ∉ line.1 := by
 obtain ⟨whole, -, heq⟩ := mem_map.mp (fst_mem_of_mem_zipIdx h)
 rw [← heq]
 exact not_mem_bare whole

theorem Tells.cons {run : DiffRun} {front : List DiffRow}
 (hfront : Tells oldLine newLine [run] front)
 (h : Tells (oldLine + run.old.length) (newLine + run.new.length) runs shown)
 (hlines : rows run.change.value = run.lines.map bare) :
 Tells oldLine newLine (run :: runs) (front ++ shown) where
 removed := by
  rw [signed_append, hfront.removed, h.removed]
  obtain ⟨kind, lines⟩ := run
  cases kind <;> simp [changedRows, change, old] at hlines ⊢ <;> simp [hlines]
 added := by
  rw [signed_append, hfront.added, h.added]
  obtain ⟨kind, lines⟩ := run
  cases kind <;> simp [changedRows, change, new] at hlines ⊢ <;> simp [hlines]
 context := by
  intro line hline
  rw [signed_append] at hline
  rw [flatMap_cons, map_append, zipIdx_append, length_map]
  rcases mem_append.mp hline with hline | hline
  · have := hfront.context line hline
    rw [flatMap_singleton] at this
    exact mem_append_left _ this
  · exact mem_append_right _ (h.context line hline)
 plain := by
  intro sign n text hrow
  rcases mem_append.mp hrow with hrow | hrow
  · exact hfront.plain sign n text hrow
  · exact h.plain sign n text hrow

/-- **A change's rows** tell its run. -/
theorem part_tells (width : Nat) (rows : DiffRows) {run : DiffRun} (next : Option Change)
 (hlines : Text.rows run.change.value = run.lines.map bare) :
 ∃ shown, (rows.part width run.change next).output = rows.output ++ shown.map (DiffRow.text width)
  ∧ (rows.part width run.change next).oldLine = rows.oldLine + run.old.length
  ∧ (rows.part width run.change next).newLine = rows.newLine + run.new.length
  ∧ (rows.part width run.change next).firstChangedLine
   = (if run.kind = .common then rows.firstChangedLine
    else some (rows.firstChangedLine.getD rows.newLine))
  ∧ Tells rows.oldLine rows.newLine [run] shown := by
 obtain ⟨kind, lines⟩ := run
 cases kind with
 | common =>
  obtain ⟨shown, hpasses⟩ := @part_common width rows (mk .common lines).change next rfl
  rw [hlines] at hpasses
  have hcontext : ∀ row ∈ shown, row = .skipped
   ∨ ∃ line ∈ (lines.map bare).zipIdx rows.oldLine, row = .of ' ' line := hpasses.shown
  have hnone : ∀ sign, sign ≠ ' ' → signed sign shown = [] := by
   intro sign hsign
   refine filterMap_eq_nil_iff.mpr fun row hrow => ?_
   rcases hcontext row hrow with rfl | ⟨line, -, rfl⟩
   · rfl
   · simp [of, DiffRow.signed, Ne.symm hsign]
  refine ⟨shown, hpasses.output, by rw [hpasses.oldLine]; simp [old],
   by rw [hpasses.newLine]; simp [new], hpasses.first, ⟨?_, ?_, ?_, ?_⟩⟩
  · rw [hnone '-' (by decide)]
    simp [changedRows, change]
  · rw [hnone '+' (by decide)]
    simp [changedRows, change]
  · intro line hline
    obtain ⟨row, hrow, hsigned⟩ := mem_filterMap.mp hline
    rcases hcontext row hrow with rfl | ⟨line', hline', rfl⟩
    · simp [DiffRow.signed] at hsigned
    · obtain rfl : line' = line := by simpa [of, DiffRow.signed] using hsigned
      simpa [old] using hline'
  · intro sign n text hrow
    rcases hcontext _ hrow with h | ⟨line, hline, h⟩
    · simp at h
    · obtain ⟨rfl, rfl, rfl⟩ := DiffRow.line.inj h
      exact ⟨Or.inr (Or.inr rfl), not_mem_numbered hline⟩
 | added =>
  refine ⟨((lines.map bare).zipIdx rows.newLine).map (of '+'), ?_⟩
  have hpart : rows.part width (mk .added lines).change next
   = { (lines.map bare).foldl (DiffRows.change width true)
    { rows with firstChangedLine := some (rows.firstChangedLine.getD rows.newLine) } with
    lastWasChange := true } := by
   rw [← hlines]
   rfl
  rw [hpart, change_added]
  refine ⟨rfl, rfl, by simp [new], rfl, ⟨?_, ?_, ?_, ?_⟩⟩
  · rw [signed_of]
    simp [changedRows, change]
  · rw [signed_of]
    simpa [changedRows, change] using congrArg (List.zipIdx · rows.newLine) hlines.symm
  · rw [signed_of]
    simp
  · intro sign n text hrow
    obtain ⟨line, hline, h⟩ := mem_map.mp hrow
    obtain ⟨rfl, rfl, rfl⟩ := DiffRow.line.inj h
    exact ⟨Or.inr (Or.inl rfl), not_mem_numbered hline⟩
 | removed =>
  refine ⟨((lines.map bare).zipIdx rows.oldLine).map (of '-'), ?_⟩
  have hpart : rows.part width (mk .removed lines).change next
   = { (lines.map bare).foldl (DiffRows.change width false)
    { rows with firstChangedLine := some (rows.firstChangedLine.getD rows.newLine) } with
    lastWasChange := true } := by
   rw [← hlines]
   rfl
  rw [hpart, change_removed]
  refine ⟨rfl, by simp [old], rfl, rfl, ⟨?_, ?_, ?_, ?_⟩⟩
  · rw [signed_of]
    simpa [changedRows, change] using congrArg (List.zipIdx · rows.oldLine) hlines.symm
  · rw [signed_of]
    simp [changedRows, change]
  · rw [signed_of]
    simp
  · intro sign n text hrow
    obtain ⟨line, hline, h⟩ := mem_map.mp hrow
    obtain ⟨rfl, rfl, rfl⟩ := DiffRow.line.inj h
    exact ⟨Or.inl rfl, not_mem_numbered hline⟩

/-- **All rows** tell all runs. -/
theorem parts_tells (width : Nat) (rows : DiffRows)
 (hlines : ∀ run ∈ runs, Text.rows run.change.value = run.lines.map bare) :
 ∃ shown, (rows.parts width (runs.map change)).output
  = rows.output ++ shown.map (DiffRow.text width)
  ∧ (rows.parts width (runs.map change)).firstChangedLine
   = rows.firstChangedLine.or (firstChange rows.newLine runs)
  ∧ Tells rows.oldLine rows.newLine runs shown := by
 induction runs generalizing rows with
 | nil => exact ⟨[], by simp [DiffRows.parts], by simp [DiffRows.parts, firstChange],
  ⟨rfl, rfl, by simp [signed], by simp⟩⟩
 | cons run runs ih =>
  have hrun := hlines run (mem_cons_self ..)
  obtain ⟨front, houtput, hold, hnew, hfirst, hfront⟩ :=
   part_tells width rows (runs.map change).head? hrun
  obtain ⟨shown, houtput', hfirst', htells⟩ :=
   ih (rows.part width run.change (runs.map change).head?)
    fun r hr => hlines r (mem_cons_of_mem _ hr)
  rw [hold, hnew] at htells
  refine ⟨front ++ shown, ?_, ?_, hfront.cons htells hrun⟩
  · rw [map_cons, DiffRows.parts, houtput', houtput, map_append, append_assoc]
  · rw [map_cons, DiffRows.parts, hfirst', hfirst, hnew, firstChange]
    split
    next hcommon =>
     rw [new, if_neg (by rw [hcommon]; decide)]
    · cases rows.firstChangedLine <;> rfl

/-! ## What is read in the diff -/

theorem text_inj {row : DiffRow} {sign : Char}
 (h : row.text width = numberedRow width sign n line) : row = .line sign n line := by
 cases row with
 | line s m text =>
  obtain ⟨rfl, htail⟩ := List.cons.inj h
  obtain ⟨rfl, rfl⟩ := PaddedNumber.text_inj htail
  rfl
 | skipped =>
  obtain ⟨-, htail⟩ := List.cons.inj h
  have hblank : List.replicate width ' ' ++ " ...".toList
   = List.replicate (width + 1) ' ' ++ '.' :: "..".toList := by
   rw [replicate_succ', append_assoc]
   rfl
  rw [hblank] at htail
  exact absurd htail.symm (PaddedNumber.text_ne_blank (by decide) rfl)

theorem rows_intercalate {output : List (List Char)} (h : ∀ row ∈ output, row ≠ [] ∧ '\n' ∉ row) :
 rows (['\n'].intercalate output) = output := by
 induction output with
 | nil => rfl
 | cons row output ih =>
  have hrow := h row (mem_cons_self ..)
  have ih := ih fun r hr => h r (mem_cons_of_mem _ hr)
  cases output with
  | nil => rw [intercalate_singleton, rows_single hrow.2, if_neg hrow.1]
  | cons next output =>
   rw [intercalate_cons_cons, append_assoc, singleton_append,
    rows_newline, ih, splitOn_eq_singleton hrow.2]
   rfl

theorem text_plain {row : DiffRow} (h : ∀ sign n text, row = .line sign n text →
 DiffRow.Plain sign text) : row.text width ≠ [] ∧ '\n' ∉ row.text width := by
 cases row with
 | line sign n text =>
  obtain ⟨hsign, htext⟩ := h sign n text rfl
  refine ⟨by simp [DiffRow.text, numberedRow], fun hmem => ?_⟩
  rcases mem_cons.mp hmem with rfl | hmem
  · exact absurd hsign (by decide)
  · rcases mem_append.mp hmem with hmem | hmem
    · exact PaddedNumber.not_mem_text (by decide) rfl hmem
    · rcases mem_cons.mp hmem with hmem | hmem
      · exact absurd hmem (by decide)
      · exact htext hmem
 | skipped =>
  refine ⟨by simp [DiffRow.text, skippedRow], fun hmem => ?_⟩
  rcases mem_cons.mp hmem with hmem | hmem
  · exact absurd hmem (by decide)
  · rcases mem_append.mp hmem with hmem | hmem
    · exact absurd (eq_of_mem_replicate hmem) (by decide)
    · exact absurd hmem (by decide)

theorem filter_sign (sign : Char) (hsign : sign ≠ ' ') (shown : List DiffRow) :
 (shown.map (DiffRow.text width)).filter (fun row => row.head? = some sign)
  = (signed sign shown).map fun line => numberedRow width sign line.2 line.1 := by
 induction shown with
 | nil => rfl
 | cons row shown ih =>
  rw [signed] at ih ⊢
  rw [map_cons, filter_cons, filterMap_cons, ih]
  cases row with
  | line s n text =>
   by_cases h : s = sign <;> simp [DiffRow.text, DiffRow.signed, numberedRow, h]
  | skipped => simp [DiffRow.text, DiffRow.signed, skippedRow, Ne.symm hsign]

theorem mem_signed {sign : Char}
 (h : numberedRow width sign n line ∈ shown.map (DiffRow.text width)) :
 (line, n) ∈ signed sign shown := by
 obtain ⟨row, hrow, heq⟩ := mem_map.mp h
 obtain rfl := text_inj heq
 exact mem_filterMap.mpr ⟨_, hrow, by simp [DiffRow.signed]⟩

/-! ## Lines by their numbers -/

theorem changedRows_lines {other kind : Change → Bool} {parts : List Change}
 {line : List Char × Nat} (h : line ∈ changedRows other kind n parts) :
 line ∈ ((parts.filter fun part => !other part).flatMap fun part =>
  rows part.value).zipIdx n := by
 induction parts generalizing n with
 | nil => simp [changedRows] at h
 | cons part parts ih =>
  rw [changedRows] at h
  by_cases hother : other part = true
  · rw [if_pos hother] at h
    rw [filter_cons_of_neg (by simp [hother])]
    exact ih h
  · rw [if_neg hother] at h
    rw [filter_cons_of_pos (by simp [hother]), flatMap_cons, zipIdx_append]
    rcases mem_append.mp h with h | h
    · split at h
      · exact mem_append_left _ h
      · simp at h
    · exact mem_append_right _ (ih h)

theorem flatMap_rows (keep : Change → Bool) (lines : DiffRun → List Line)
 (h : ∀ run, (if keep run.change then run.lines else []) = lines run)
 (hlines : ∀ run ∈ runs, rows run.change.value = run.lines.map bare) :
 ((runs.map change).filter keep).flatMap (fun part => rows part.value)
  = (runs.flatMap lines).map bare := by
 induction runs with
 | nil => rfl
 | cons run runs ih =>
  have hrun := hlines run (mem_cons_self ..)
  have ih := ih fun r hr => hlines r (mem_cons_of_mem _ hr)
  rw [map_cons, filter_cons, flatMap_cons, map_append, ← ih, ← h]
  split <;> simp [hrun]

theorem rows_tokenize (text : List Char) : rows text = (tokenize text).map bare := by
 have := rows_flatten (WholeLines.whole_split '\n' text)
 rwa [WholeLines.flatten_split] at this

theorem lineOf_numbered {text : List Char} (h : (line, n) ∈ ((tokenize text).map bare).zipIdx 1) :
 lineOf text n = some line := by
 obtain ⟨hpos, hget⟩ := mk_mem_zipIdx_iff_le_and_getElem?_sub.mp h
 rw [lineOf, if_neg (by omega), rows_tokenize, hget]

theorem firstChange_append {front rest : List DiffRun} (n : Nat)
 (hcommon : ∀ run ∈ front, run.kind = .common) (hrest : ∀ run ∈ rest.head?, run.kind ≠ .common) :
 firstChange n (front ++ rest)
  = if rest = [] then none else some (n + (front.flatMap new).length) := by
 induction front generalizing n with
 | nil =>
  cases rest with
  | nil => rfl
  | cons run rest => simp [firstChange, hrest run rfl]
 | cons run front ih =>
  have hrun := hcommon run (mem_cons_self ..)
  rw [cons_append, firstChange, if_pos hrun, ih _ fun r hr => hcommon r (mem_cons_of_mem _ hr)]
  simp [new, hrun, Nat.add_assoc]

/-! ## The diff -/

structure Truthful (oldText newText : List Char) (parts : List Change) (shown : DiffString) :
 Prop where
 /-- A removed line has its number in the old text. -/
 removed : ∀ n line, numberedRow (diffWidth oldText newText) '-' n line ∈ Text.rows shown.diff →
   lineOf oldText n = some line
 /-- An added line has its number in the new text. -/
 added : ∀ n line, numberedRow (diffWidth oldText newText) '+' n line ∈ Text.rows shown.diff →
   lineOf newText n = some line
 /-- A line of context has its number in the old text. -/
 context : ∀ n line, numberedRow (diffWidth oldText newText) ' ' n line ∈ Text.rows shown.diff →
   lineOf oldText n = some line
 /-- There are no other rows but those for what is skipped. -/
 rows : ∀ row ∈ Text.rows shown.diff, row = skippedRow (diffWidth oldText newText)
  ∨ ∃ sign n line, (sign = '-' ∨ sign = '+' ∨ sign = ' ')
   ∧ row = numberedRow (diffWidth oldText newText) sign n line
 /-- The removed lines of the line diff, each once and in order. -/
 allRemoved : (Text.rows shown.diff).filter (fun row => row.head? = some '-')
  = (changedRows (·.added) (·.removed) 1 parts).map fun line =>
   numberedRow (diffWidth oldText newText) '-' line.2 line.1
 /-- The added lines of the line diff, each once and in order. -/
 allAdded : (Text.rows shown.diff).filter (fun row => row.head? = some '+')
  = (changedRows (·.removed) (·.added) 1 parts).map fun line =>
   numberedRow (diffWidth oldText newText) '+' line.2 line.1
 first : ∀ n, shown.firstChangedLine = some n → 0 < n
  ∧ (tokenize oldText).take (n - 1) = (tokenize newText).take (n - 1)
  ∧ (tokenize oldText)[n - 1]? ≠ (tokenize newText)[n - 1]?
 /-- Only of equal texts there is none. -/
 same : shown.firstChangedLine = none ↔ oldText = newText

/-- **The numbered diff is truthful**, whatever the texts. -/
theorem numbered_diff (oldText newText : List Char) :
 ∃ parts shown, diffLines oldText newText = some parts
  ∧ generateDiffString oldText newText = some shown
  ∧ Truthful oldText newText parts shown := by
 obtain ⟨front, rest, hparts, hshortest, hfirst⟩ := diffLines_first oldText newText
 have hold := hshortest.oldLines
 have hnew := hshortest.newLines
 have hlines : ∀ run ∈ front ++ rest, rows run.change.value = run.lines.map bare := by
  intro run hrun
  rw [rows_tokenize, tokenize_change hshortest hrun]
 obtain ⟨shown, houtput, hchanged, htells⟩ := parts_tells (diffWidth oldText newText)
  { output := [], oldLine := 1, newLine := 1, lastWasChange := false, firstChangedLine := none }
  hlines
 rw [nil_append] at houtput
 rw [Option.none_or, firstChange_append 1 hfirst.common hfirst.begins] at hchanged
 refine ⟨_, _, hparts, by rw [generateDiffString, hparts]; rfl, ?_⟩
 have hrows : rows (['\n'].intercalate (shown.map (DiffRow.text (diffWidth oldText newText))))
  = shown.map (DiffRow.text (diffWidth oldText newText)) := by
  refine rows_intercalate fun row hrow => ?_
  obtain ⟨line, hline, rfl⟩ := mem_map.mp hrow
  exact text_plain fun sign n text heq => htells.plain sign n text (heq ▸ hline)
 have hremoved : ∀ line ∈ signed '-' shown, line ∈ ((tokenize oldText).map bare).zipIdx 1 := by
  intro line hline
  rw [htells.removed] at hline
  have := changedRows_lines hline
  rwa [flatMap_rows _ old (fun run => ?_) hlines, hold] at this
  obtain ⟨kind, lines⟩ := run
  cases kind <;> rfl
 have hadded : ∀ line ∈ signed '+' shown, line ∈ ((tokenize newText).map bare).zipIdx 1 := by
  intro line hline
  rw [htells.added] at hline
  have := changedRows_lines hline
  rwa [flatMap_rows _ new (fun run => ?_) hlines, hnew] at this
  obtain ⟨kind, lines⟩ := run
  cases kind <;> rfl
 have hcontext : ∀ line ∈ signed ' ' shown, line ∈ ((tokenize oldText).map bare).zipIdx 1 := by
  rw [← hold]
  exact htells.context
 rw [houtput, hchanged]
 refine ⟨?_, ?_, ?_, ?_, ?_, ?_, ?_, ?_⟩ <;> dsimp only <;> try rw [hrows]
 · exact fun n line h => lineOf_numbered (hremoved _ (mem_signed h))
 · exact fun n line h => lineOf_numbered (hadded _ (mem_signed h))
 · exact fun n line h => lineOf_numbered (hcontext _ (mem_signed h))
 · intro row hrow
   obtain ⟨row, hmem, rfl⟩ := mem_map.mp hrow
   cases row with
   | skipped => exact Or.inl rfl
   | line sign n text => exact Or.inr ⟨sign, n, text, (htells.plain sign n text hmem).sign, rfl⟩
 · rw [filter_sign '-' (by decide), htells.removed]
 · rw [filter_sign '+' (by decide), htells.added]
 · intro n hn
   split at hn
   · simp at hn
   next hrest =>
    cases hn
    rw [Nat.add_sub_cancel_left]
    refine ⟨by omega, ?_, hfirst.differ hrest⟩
    rw [← hold, ← hnew, flatMap_append, flatMap_append, hfirst.front_eq, take_left, take_left]
 constructor
 · intro hnone
   obtain rfl : rest = [] := by
    by_contra hrest
    rw [if_neg hrest] at hnone
    simp at hnone
   rw [append_nil] at hold hnew
   rw [← WholeLines.flatten_split '\n' oldText, ← WholeLines.flatten_split '\n' newText]
   exact congrArg List.flatten (hold.symm.trans (hfirst.front_eq.trans hnew))
 · rintro rfl
   by_contra hrest
   exact hfirst.differ (fun hnil => hrest (by rw [if_pos hnil])) rfl

end Bake.Tools
