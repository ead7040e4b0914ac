import Bake.Lib.UnifiedPatch
import Bake.Tools.LineDiffMinimal
import Bake.Tools.Patch

/-!
# The unified patch applies

The loop of `create_two_files_patch` is between two hunks or within one. Between them, what the
hunks take and make is followed by a gap of common lines, the end of which is what the next hunk
begins with (`Between`); within one, its rows are the lines gone past since its start
(`Within`). A gap is never used up, so hunks do not touch.
-/

open List UnifiedPatch

namespace Bake.Tools

open UnifiedPatch (Row Sign Hunk Takes hunkAt oldLines newLines)
open PatchLoop (addLines change common mk openHunk)
open Option (bind_eq_bind bind_some some)

/-! ## Lines -/

theorem splitLines_tokens {lines : List Line} (h : WholeLines.Whole '\n' lines)
 (hne : lines ≠ []) : splitLines lines.flatten = lines := by
 induction h with
 | nil => exact absurd rfl hne
 | @last line hline hopen =>
  have hlast : line.getLast? ≠ some '\n' := fun h => hopen (mem_of_getLast? h)
  simp [splitLines, hline, hlast, splitOn_eq_singleton hopen]
 | @line body lines hopen hlines ih =>
  have htext : ((body ++ ['\n']) :: lines).flatten = body ++ '\n' :: lines.flatten := by simp
  rw [htext, splitLines, if_neg (by simp), splitOn_append_cons_self,
   splitOn_eq_singleton hopen]
  rcases eq_nil_or_concat lines with rfl | ⟨front, last, hconcat⟩
  · simp
  have hne : lines ≠ [] := by simp [hconcat]
  have hrest : lines.flatten ≠ [] := fun hnil => by
   have := hlines.split_flatten
   rw [hnil] at this
   exact hne this.symm
  have ih := ih hne
  have hpieces : (lines.flatten.splitOn '\n').map (fun line => line ++ ['\n']) ≠ [] := by
   simp [splitOn_ne_nil]
  have hend : (body ++ '\n' :: lines.flatten).getLast? = lines.flatten.getLast? := by
   rw [getLast?_append, getLast?_cons, getLast?_eq_some_getLast hrest]
   rfl
  rw [splitLines, if_neg hrest] at ih
  dsimp only at ih ⊢
  rw [hend, map_append, map_singleton]
  generalize (lines.flatten.splitOn '\n').map (fun line => line ++ ['\n']) = pieces at *
  split at ih
  next hlast =>
   rw [if_pos hlast, dropLast_append_of_ne_nil hpieces, ih]
   rfl
  next hlast =>
   rw [if_neg hlast, getLast?_append_of_ne_nil _ hpieces, dropLast_append_of_ne_nil hpieces]
   cases hpiece : pieces.getLast? with
   | none => exact absurd (getLast?_eq_none_iff.mp hpiece) hpieces
   | some piece =>
    rw [hpiece] at ih
    rw [← ih]
    simp

def rowText (row : Row) : List Char := row.sign.char :: row.line

theorem contextLines_eq (lines : List Line) :
 contextLines lines = (lines.map (Row.mk .keep)).map rowText := by
 simp [contextLines, rowText, Sign.char]

/-- A hunk to be: the lines in front of it in both texts, and its rows. -/
structure Piece where
 oldBefore : Nat
 newBefore : Nat
 rows : List Row

def Piece.hunk (piece : Piece) : Hunk := hunkAt piece.oldBefore piece.newBefore piece.rows

def Piece.patch (piece : Piece) : PatchHunk where
 oldStart := piece.oldBefore + 1
 oldLines := (oldLines piece.rows).length
 newStart := piece.newBefore + 1
 newLines := (newLines piece.rows).length
 lines := piece.rows.map rowText

theorem patchLine_rowText (row : Row) : patchLine (rowText row) = row.written := by
 obtain ⟨sign, line⟩ := row
 have hsign : sign.char ≠ '\n' := by cases sign <;> decide
 have hlast : (sign.char :: line).getLast? = some '\n' ↔ line.getLast? = some '\n' := by
  cases line with
  | nil => simp [hsign]
  | cons c line => rw [getLast?_cons_cons]
 rw [patchLine, rowText, Row.written]
 by_cases h : line.getLast? = some '\n'
 · rw [if_pos (hlast.mpr h), if_pos h, dropLast_cons_of_ne_nil]
   rintro rfl
   simp at h
 · rw [if_neg (mt hlast.mp h), if_neg h]
   rfl

/-- **What is written** of a hunk. -/
theorem patchHunk_patch (piece : Piece) : patchHunk piece.patch = some piece.hunk.written := by
 have hsub : ∀ n : Nat, checkedSub (n + 1) 1 = some n := fun n => by simp [checkedSub]
 have hlines : (piece.rows.map rowText).flatMap patchLine = piece.rows.flatMap Row.written := by
  rw [flatMap_map]
  exact congrArg List.flatten (map_congr_left fun row _ => patchLine_rowText row)
 unfold patchHunk Piece.patch Piece.hunk Hunk.written Hunk.header hunkAt
 by_cases hold : (oldLines piece.rows).length = 0 <;>
  by_cases hnew : (newLines piece.rows).length = 0 <;>
   simp only [hold, hnew, hsub, hlines, if_true, if_false, bind_eq_bind, bind_some]

/-! ## The loop -/

/-- What a hunk begins with: the last lines of the entry in front. -/
def leading (context : Nat) (previous : Option PatchEntry) : List Line :=
 previous.elim [] fun entry => entry.lines.drop (entry.lines.length - context)

/-- What either state says of the loop behind so many lines of both texts. -/
structure Loops (old new : List Line) (loop : PatchLoop) (pieces : List Piece)
 (taken made : List Line) : Prop where
 hunks : loop.hunks = pieces.map Piece.patch
 takes : Takes (pieces.map Piece.hunk) taken made
 oldLine : loop.oldLine = old.length + 1
 newLine : loop.newLine = new.length + 1

/-- No hunk is open. If another may follow, the gap ends with what it begins with. -/
structure Between (context : Nat) (old new : List Line) (previous : Option PatchEntry)
 (more : Prop) (loop : PatchLoop) (pieces : List Piece) (taken made gap : List Line) : Prop
 extends Loops old new loop pieces taken made where
 old : old = taken ++ gap
 new : new = made ++ gap
 closed : loop.oldRangeStart = 0
 current : loop.current = []
 gap : more → ∃ front, gap = front ++ leading context previous ∧ (pieces ≠ [] → front ≠ [])

/-- A hunk is open behind a gap. -/
structure Within (old new : List Line) (loop : PatchLoop) (pieces : List Piece)
 (taken made gap : List Line) (rows : List Row) : Prop
 extends Loops old new loop pieces taken made where
 old : old = taken ++ gap ++ oldLines rows
 new : new = made ++ gap ++ newLines rows
 oldStart : loop.oldRangeStart = taken.length + gap.length + 1
 newStart : loop.newRangeStart = made.length + gap.length + 1
 current : loop.current = rows.map rowText
 gap : pieces ≠ [] → gap ≠ []

/-- The loop is between two hunks, or within one. -/
def Reaches (context : Nat) (old new : List Line) (previous : Option PatchEntry) (more : Prop)
 (loop : PatchLoop) : Prop :=
 (∃ pieces taken made gap, Between context old new previous more loop pieces taken made gap)
  ∨ ∃ pieces taken made gap rows, Within old new loop pieces taken made gap rows

variable {context : Nat} {old new taken made gap lines : List Line} {previous : Option PatchEntry}
 {loop : PatchLoop} {pieces : List Piece} {rows : List Row} {more : Prop}

theorem Between.openHunk (h : Between context old new previous more loop pieces taken made gap)
 (hmore : more) : ∃ after front rows, loop.openHunk context previous = some after
  ∧ Within old new after pieces taken made front rows := by
 obtain ⟨front, hgap, hfront⟩ := h.gap hmore
 refine ⟨{ loop with
  oldRangeStart := taken.length + front.length + 1
  newRangeStart := made.length + front.length + 1
  current := contextLines (leading context previous) }, front,
  (leading context previous).map (Row.mk .keep), ?_, ⟨h.hunks, h.takes, h.oldLine, h.newLine⟩,
  ?_, ?_, rfl, rfl, contextLines_eq _, hfront⟩
 · have hold := h.oldLine
   have hnew := h.newLine
   rw [h.old, hgap, length_append, length_append] at hold
   rw [h.new, hgap, length_append, length_append] at hnew
   cases previous with
   | none =>
    have hcurrent := h.current
    have hnone : (leading context none).length = 0 := rfl
    rw [hnone, Nat.add_zero] at hold hnew
    rw [openHunk]
    simp only [some.injEq, mk.injEq, true_and, and_true]
    exact ⟨by omega, by omega, hcurrent⟩
   | some entry =>
    have hcurrent : (if context > 0 then
     contextLines (entry.lines.drop (entry.lines.length - context)) else [])
     = contextLines (leading context (some entry)) := by
     split
     · rfl
     · have hzero : context = 0 := by omega
       simp [leading, hzero, contextLines]
    have hlength : (contextLines (leading context (some entry))).length
     = (leading context (some entry)).length := by
     rw [contextLines, length_map]
    rw [openHunk, hcurrent]
    simp only [checkedSub, hlength]
    rw [if_pos (by omega), if_pos (by omega)]
    simp only [bind_eq_bind, bind_some, some.injEq, mk.injEq, true_and, and_true]
    omega
 · rw [oldLines_rows, if_neg (by decide), h.old, hgap, append_assoc]
 · rw [newLines_rows, if_neg (by decide), h.new, hgap, append_assoc]

def entryRows (entry : PatchEntry) : List Row :=
 entry.lines.map (Row.mk (if entry.added then .add else if entry.removed then .remove else .keep))

def PatchEntry.inOld (entry : PatchEntry) : List Line := if entry.added then [] else entry.lines

def PatchEntry.inNew (entry : PatchEntry) : List Line :=
 if entry.added then entry.lines else if entry.removed then [] else entry.lines

theorem oldLines_entryRows (entry : PatchEntry) : oldLines (entryRows entry) = entry.inOld := by
 obtain ⟨lines, added, removed⟩ := entry
 cases added <;> cases removed <;> simp [entryRows, PatchEntry.inOld, oldLines_rows]

theorem newLines_entryRows (entry : PatchEntry) : newLines (entryRows entry) = entry.inNew := by
 obtain ⟨lines, added, removed⟩ := entry
 cases added <;> cases removed <;> simp [entryRows, PatchEntry.inNew, newLines_rows]

/-- A changed entry goes into the open hunk, which is opened if there is none. -/
theorem change_spec {entry : PatchEntry} (hentry : (entry.added || entry.removed) = true)
 (h : Reaches context old new previous more loop) (hmore : more) :
 ∃ after pieces taken made gap rows, loop.change context previous entry = some after
  ∧ Within (old ++ entry.inOld) (new ++ entry.inNew) after pieces taken made gap rows := by
 have hopen : ∃ opened pieces taken made gap rows,
  (if loop.oldRangeStart = 0 then loop.openHunk context previous else some loop) = some opened
  ∧ Within old new opened pieces taken made gap rows := by
  rcases h with ⟨pieces, taken, made, gap, h⟩ | ⟨pieces, taken, made, gap, rows, h⟩
  · obtain ⟨after, front, rows, hopen, hwithin⟩ := h.openHunk hmore
    exact ⟨after, pieces, taken, made, front, rows, by rw [if_pos h.closed, hopen], hwithin⟩
  · exact ⟨loop, pieces, taken, made, gap, rows, by rw [if_neg (by rw [h.oldStart]; omega)], h⟩
 obtain ⟨opened, pieces, taken, made, gap, rows, hopen, hwithin⟩ := hopen
 have hold : old ++ entry.inOld = taken ++ gap ++ oldLines (rows ++ entryRows entry) := by
  rw [oldLines_append, oldLines_entryRows, ← append_assoc, hwithin.old]
 have hnew : new ++ entry.inNew = made ++ gap ++ newLines (rows ++ entryRows entry) := by
  rw [newLines_append, newLines_entryRows, ← append_assoc, hwithin.new]
 refine ⟨opened.addLines entry, pieces, taken, made, gap, rows ++ entryRows entry,
  by rw [change, hopen]; rfl, ?_⟩
 obtain ⟨lines, added, removed⟩ := entry
 cases added with
 | true =>
  refine ⟨⟨hwithin.hunks, hwithin.takes, ?_, ?_⟩, hold, hnew, hwithin.oldStart,
   hwithin.newStart, ?_, hwithin.gap⟩
  · simp [addLines, PatchEntry.inOld, hwithin.oldLine]
  · simp [addLines, PatchEntry.inNew, hwithin.newLine, Nat.add_right_comm]
  · simp [addLines, hwithin.current, entryRows, rowText, Sign.char]
 | false =>
  obtain rfl : removed = true := hentry
  refine ⟨⟨hwithin.hunks, hwithin.takes, ?_, ?_⟩, hold, hnew, hwithin.oldStart,
   hwithin.newStart, ?_, hwithin.gap⟩
  · simp [addLines, PatchEntry.inOld, hwithin.oldLine, Nat.add_right_comm]
  · simp [addLines, PatchEntry.inNew, hwithin.newLine]
  · simp [addLines, hwithin.current, entryRows, rowText, Sign.char]

/-- **A hunk closed** behind some of the lines that follow it. The others are the next gap. -/
theorem Within.closeHunk (h : Within old new loop pieces taken made gap rows) (context : Nat)
 (lines : List Line) :
 ∃ after taken' made', loop.closeHunk context lines = some after
  ∧ after.oldLine = loop.oldLine ∧ after.newLine = loop.newLine
  ∧ after.oldRangeStart = 0 ∧ after.current = []
  ∧ ∃ piece, after.hunks = (pieces ++ [piece]).map Piece.patch
   ∧ Takes ((pieces ++ [piece]).map Piece.hunk) taken' made'
   ∧ old ++ lines = taken' ++ lines.drop (min lines.length context)
   ∧ new ++ lines = made' ++ lines.drop (min lines.length context) := by
 generalize hrows : rows ++ (lines.take (min lines.length context)).map (Row.mk .keep) = rows'
 have holdLines : oldLines rows' = oldLines rows ++ lines.take (min lines.length context) := by
  rw [← hrows, oldLines_append, oldLines_rows, if_neg (by decide)]
 have hnewLines : newLines rows' = newLines rows ++ lines.take (min lines.length context) := by
  rw [← hrows, newLines_append, newLines_rows, if_neg (by decide)]
 have hold := h.oldLine
 have hnew := h.newLine
 rw [h.old, length_append, length_append] at hold
 rw [h.new, length_append, length_append] at hnew
 have hlength : (lines.take (min lines.length context)).length = min lines.length context := by
  rw [length_take, Nat.min_eq_left (Nat.min_le_left _ _)]
 refine ⟨{ loop with
  hunks := (pieces ++ [Piece.mk (taken.length + gap.length) (made.length + gap.length)
   rows']).map Piece.patch
  oldRangeStart := 0
  newRangeStart := 0
  current := [] }, taken ++ gap ++ oldLines rows', made ++ gap ++ newLines rows', ?_, rfl, rfl,
  rfl, rfl, ⟨taken.length + gap.length, made.length + gap.length, rows'⟩, rfl, ?_, ?_, ?_⟩
 · have hcurrent : loop.current ++ contextLines (lines.take (min lines.length context))
    = rows'.map rowText := by
    rw [h.current, contextLines_eq, ← map_append, hrows]
   have holdCount := congrArg List.length holdLines
   have hnewCount := congrArg List.length hnewLines
   rw [length_append, hlength] at holdCount hnewCount
   rw [PatchLoop.closeHunk, h.oldStart, h.newStart]
   simp only [checkedSub, hcurrent]
   rw [if_pos (by omega), if_pos (by omega)]
   simp only [bind_eq_bind, bind_some, some.injEq, mk.injEq,
    and_true, h.hunks, map_append, append_cancel_left_eq, map_singleton,
    List.cons.injEq, Piece.patch, PatchHunk.mk.injEq, true_and]
   omega
 · rw [map_append]
   exact h.takes.snoc rows' fun hne => h.gap (by simpa using hne)
 · rw [holdLines, h.old]
   simp [append_assoc]
 · rw [hnewLines, h.new]
   simp [append_assoc]

/-- **A common entry** behind which more changes may follow, if it is not the last. -/
theorem common_spec (hcontext : context * 2 < 2 ^ 64) (entry : PatchEntry) (next : Bool)
 (hentry : entry.lines = lines)
 (h : Reaches context old new previous more loop) (hmore : next = true → more) :
 ∃ after, loop.common context lines next = some after
  ∧ ((∃ pieces taken made gap, Between context (old ++ lines) (new ++ lines) (some entry)
   (next = true) after pieces taken made gap)
   ∨ next = true ∧ ∃ pieces taken made gap rows,
    Within (old ++ lines) (new ++ lines) after pieces taken made gap rows) := by
 have hleading : leading context (some entry) = lines.drop (lines.length - context) := by
  rw [leading, Option.elim_some, hentry]
 rcases h with ⟨pieces, taken, made, gap, h⟩ | ⟨pieces, taken, made, gap, rows, h⟩
 · refine ⟨loop.pass lines, by rw [common, if_neg (by simp [h.closed])]; rfl,
    Or.inl ⟨pieces, taken, made, gap ++ lines, ⟨h.hunks, h.takes, ?_, ?_⟩, ?_, ?_, h.closed,
     h.current, fun hnext => ?_⟩⟩
   · simp [PatchLoop.pass, h.oldLine, Nat.add_right_comm]
   · simp [PatchLoop.pass, h.newLine, Nat.add_right_comm]
   · rw [h.old, append_assoc]
   · rw [h.new, append_assoc]
   · obtain ⟨front, hgap, hfront⟩ := h.gap (hmore hnext)
     refine ⟨gap ++ lines.take (lines.length - context), ?_, fun hne => ?_⟩
     · rw [hleading, append_assoc, take_append_drop]
     · simp [hgap, hfront hne]
 have hopen : loop.oldRangeStart ≠ 0 := by
  rw [h.oldStart]
  omega
 by_cases hmerge : lines.length ≤ context * 2 ∧ next = true
 · refine ⟨{ loop with current := loop.current ++ contextLines lines }.pass lines, by
    rw [common, if_pos hopen, Nat.mod_eq_of_lt hcontext, if_pos (by simp [hmerge])]
    rfl, Or.inr ⟨hmerge.2, pieces, taken, made, gap, rows ++ lines.map (Row.mk .keep),
     ⟨h.hunks, h.takes, ?_, ?_⟩, ?_, ?_, h.oldStart, h.newStart, ?_, h.gap⟩⟩
   · simp [PatchLoop.pass, h.oldLine, Nat.add_right_comm]
   · simp [PatchLoop.pass, h.newLine, Nat.add_right_comm]
   · rw [oldLines_append, oldLines_rows, if_neg (by decide), h.old]
     simp
   · rw [newLines_append, newLines_rows, if_neg (by decide), h.new]
     simp
   · simp [PatchLoop.pass, h.current, contextLines_eq]
 obtain ⟨after, taken', made', hclose, holdLine, hnewLine, hstart, hcurrent, piece, hhunks,
  htakes, hold, hnew⟩ := h.closeHunk context lines
 refine ⟨after.pass lines, by
  rw [common, if_pos hopen, Nat.mod_eq_of_lt hcontext,
   if_neg (by simpa [← not_and] using hmerge), hclose]
  rfl, Or.inl ⟨pieces ++ [piece], taken', made', _, ⟨hhunks, htakes, ?_, ?_⟩, hold, hnew,
   hstart, hcurrent, fun hnext => ?_⟩⟩
 · simp [PatchLoop.pass, holdLine, h.oldLine, Nat.add_right_comm]
 · simp [PatchLoop.pass, hnewLine, h.newLine, Nat.add_right_comm]
 -- the entry is longer than what is shown of it behind one hunk and in front of the next
 have hlong : context * 2 < lines.length := by
  by_contra hshort
  exact hmerge ⟨by omega, hnext⟩
 refine ⟨(lines.drop context).take (lines.length - context - context), ?_, fun _ hnil => ?_⟩
 · have hdrop : lines.drop (lines.length - context)
    = (lines.drop context).drop (lines.length - context - context) := by
    rw [drop_drop]
    congr 1
    omega
   rw [hleading, hdrop, take_append_drop, Nat.min_eq_right (by omega)]
 · have := congrArg List.length hnil
   rw [length_take, length_drop, length_nil] at this
   omega

/-- **The whole loop** ends between two hunks, with all lines gone past. -/
theorem patchLoop_spec (hcontext : context * 2 < 2 ^ 64) (entries : List PatchEntry)
 (h : Reaches context old new previous (entries ≠ []) loop) :
 ∃ after pieces taken made gap more,
  patchLoop context loop previous (entries ++ [⟨[], false, false⟩]) = some after
  ∧ Between context (old ++ entries.flatMap PatchEntry.inOld)
   (new ++ entries.flatMap PatchEntry.inNew) (some ⟨[], false, false⟩) more after pieces taken
   made gap := by
 induction entries generalizing old new previous loop with
 | nil =>
  obtain ⟨after, hcommon, ⟨pieces, taken, made, gap, hbetween⟩ | ⟨hfalse, -⟩⟩ :=
   common_spec hcontext ⟨[], false, false⟩ false rfl h (by simp)
  · exact ⟨after, pieces, taken, made, gap, _, by simp [patchLoop, PatchLoop.entry, hcommon],
     hbetween⟩
  · exact absurd hfalse (by decide)
 | cons entry entries ih =>
  suffices hstep : ∃ after, loop.entry context previous entry
   (1 < (entries ++ [(⟨[], false, false⟩ : PatchEntry)]).length) = some after
   ∧ Reaches context (old ++ entry.inOld) (new ++ entry.inNew) (some entry) (entries ≠ []) after by
   obtain ⟨after, hstep, hreaches⟩ := hstep
   obtain ⟨last, pieces, taken, made, gap, more, hrun, hbetween⟩ := ih hreaches
   refine ⟨last, pieces, taken, made, gap, more, ?_, ?_⟩
   · rw [cons_append, patchLoop, hstep]
     exact hrun
   · rwa [flatMap_cons, flatMap_cons, ← append_assoc, ← append_assoc]
  by_cases hchange : (entry.added || entry.removed) = true
  · obtain ⟨after, pieces, taken, made, gap, rows, hstep, hwithin⟩ :=
     change_spec hchange h (by simp)
    exact ⟨after, by rw [PatchLoop.entry, if_pos hchange, hstep],
     Or.inr ⟨pieces, taken, made, gap, rows, hwithin⟩⟩
  · obtain ⟨lines, added, removed⟩ := entry
    obtain ⟨rfl, rfl⟩ : added = false ∧ removed = false := by simpa using hchange
    obtain ⟨after, hstep, hafter⟩ := common_spec hcontext ⟨lines, false, false⟩
     (1 < (entries ++ [(⟨[], false, false⟩ : PatchEntry)]).length) rfl h (by simp)
    refine ⟨after, by rw [PatchLoop.entry, if_neg hchange, hstep], ?_⟩
    rcases hafter with ⟨pieces, taken, made, gap, hbetween⟩ | ⟨-, hwithin⟩
    · refine Or.inl ⟨pieces, taken, made, gap, { hbetween with gap := fun hne => ?_ }⟩
      have := length_pos_iff.mpr hne
      exact hbetween.gap (by simp; omega)
    · exact Or.inr hwithin

/-! ## The patch -/

theorem entry_of_change {oldText newText : List Char} {runs : List DiffRun}
 (h : Shortest (tokenize oldText) (tokenize newText) runs) {run : DiffRun} (hrun : run ∈ runs) :
 PatchEntry.mk (splitLines run.change.value) run.change.added run.change.removed
  = ⟨run.lines, run.kind = .added, run.kind = .removed⟩ := by
 have hlines := tokenize_change h hrun
 have hwhole := WholeLines.whole_split '\n' run.change.value
 rw [show WholeLines.split '\n' run.change.value = run.lines from hlines] at hwhole
 rw [show run.change.value = run.lines.flatten from rfl,
  splitLines_tokens hwhole (h.trace.alternate.nonempty run hrun)]
 rfl

theorem intercalate_newline (first second : List Char) (texts : List (List Char)) :
 ['\n'].intercalate (first :: second :: texts) ++ ['\n']
  = first ++ '\n' :: second ++ '\n' :: (texts.map fun text => text ++ ['\n']).flatten := by
 have hall : ∀ (head : List Char) (tail : List (List Char)),
  ['\n'].intercalate (head :: tail) ++ ['\n']
   = ((head :: tail).map fun text => text ++ ['\n']).flatten := by
  intro head tail
  induction tail generalizing head with
  | nil => simp
  | cons next tail ih =>
   rw [intercalate_cons_cons, append_assoc, append_assoc, ih]
   simp
 rw [hall]
 simp

/-- **The unified patch applies.** For all texts, and all sizes of context the double of which
is a `usize`, what is written behind the names are hunks. They are in order and do not touch in
either text, their headers count their rows, and applied strictly to the lines of the old text
they give those of the new one. -/
theorem unified_patch (oldName newName oldText newText : List Char) (context : Nat)
 (hcontext : context * 2 < 2 ^ 64) :
 ∃ texts hunks, createTwoFilesPatch oldName newName oldText newText context
  = some ("--- ".toList ++ oldName ++ '\n' :: ("+++ ".toList ++ newName)
   ++ '\n' :: (texts.map fun text => text ++ ['\n']).flatten)
  ∧ (∀ text ∈ texts, '\n' ∉ text) ∧ read texts = some hunks
  ∧ hunks.Pairwise UnifiedPatch.Precedes ∧ (∀ hunk ∈ hunks, hunk.Counted)
  ∧ apply (tokenize oldText) hunks = some (tokenize newText) := by
 obtain ⟨runs, hdiff, hshortest⟩ := diffLines_runs oldText newText
 generalize hentries : runs.map (fun run : DiffRun =>
  PatchEntry.mk run.lines (run.kind = .added) (run.kind = .removed)) = entries
 have hall : (runs.map DiffRun.change).map (fun change => PatchEntry.mk (splitLines change.value)
  change.added change.removed) = entries := by
  rw [← hentries, map_map]
  exact map_congr_left fun run hrun => entry_of_change hshortest hrun
 have hold : entries.flatMap PatchEntry.inOld = tokenize oldText := by
  rw [← hentries, ← hshortest.oldLines, flatMap_map]
  refine congrArg List.flatten (map_congr_left fun run _ => ?_)
  obtain ⟨kind, lines⟩ := run
  cases kind <;> rfl
 have hnew : entries.flatMap PatchEntry.inNew = tokenize newText := by
  rw [← hentries, ← hshortest.newLines, flatMap_map]
  refine congrArg List.flatten (map_congr_left fun run _ => ?_)
  obtain ⟨kind, lines⟩ := run
  cases kind <;> rfl
 obtain ⟨after, pieces, taken, made, gap, _, hrun, hbetween⟩ := patchLoop_spec hcontext entries
  (Or.inl ⟨[], [], [], [], ⟨rfl, takes_nil, rfl, rfl⟩, rfl, rfl, rfl, rfl,
   fun _ => ⟨[], rfl, by simp⟩⟩ : Reaches context [] [] none (entries ≠ []) ⟨[], 0, 0, [], 1, 1⟩)
 rw [hold, hnew, nil_append, nil_append] at hbetween
 have happly : apply (tokenize oldText) (pieces.map Piece.hunk) = some (tokenize newText) := by
  rw [hbetween.old, hbetween.new]
  exact hbetween.takes.apply gap
 refine ⟨(pieces.map Piece.hunk).flatMap Hunk.written, pieces.map Piece.hunk, ?_, ?_,
  read_written _, hbetween.takes.ordered, hbetween.takes.counted, happly⟩
 · have hwritten : after.hunks.mapM patchHunk = some ((pieces.map Piece.hunk).map Hunk.written) := by
    rw [hbetween.hunks]
    clear hbetween happly
    induction pieces with
    | nil => rfl
    | cons piece pieces ih =>
     simp only [map_cons, mapM_cons, patchHunk_patch, ih, bind_eq_bind, bind_some, Option.pure_def]
   rw [createTwoFilesPatch, hdiff]
   simp only [bind_eq_bind, bind_some, hall, hrun, hwritten]
   rw [← intercalate_newline]
   rfl
 · intro text htext
   obtain ⟨hunk, hhunk, htext⟩ := mem_flatMap.mp htext
   refine not_mem_written (fun row hrow => ?_) text htext
   rcases apply_lines happly hunk hhunk row hrow with hline | hline
   · exact (WholeLines.whole_split '\n' oldText).not_mem_dropLast _ hline
   · exact (WholeLines.whole_split '\n' newText).not_mem_dropLast _ hline

/-- A line replaced, with four lines of context. -/
theorem unified_patch_line :
 ∃ texts hunks, createTwoFilesPatch ['f'] ['f'] "a\n".toList "b\n".toList 4
  = some ("--- ".toList ++ ['f'] ++ '\n' :: ("+++ ".toList ++ ['f'])
   ++ '\n' :: (texts.map fun text => text ++ ['\n']).flatten)
  ∧ (∀ text ∈ texts, '\n' ∉ text) ∧ read texts = some hunks
  ∧ hunks.Pairwise UnifiedPatch.Precedes ∧ (∀ hunk ∈ hunks, hunk.Counted)
  ∧ apply (tokenize "a\n".toList) hunks = some (tokenize "b\n".toList) :=
 unified_patch ['f'] ['f'] "a\n".toList "b\n".toList 4 (by decide)

/-- The double of `2 ^ 63` is 0. The common line is shown behind one hunk and in front of the
next, both hunks begin at line 1, and the patch does not apply. -/
theorem patch_context_wraps :
 createTwoFilesPatch ['f'] ['f'] "b\n".toList "x\nb\ny\n".toList (2 ^ 63)
  = some "--- f\n+++ f\n@@ -1,1 +1,2 @@\n+x\n b\n@@ -1,1 +2,2 @@\n b\n+y\n".toList
  ∧ (read ["@@ -1,1 +1,2 @@".toList, "+x".toList, " b".toList,
   "@@ -1,1 +2,2 @@".toList, " b".toList, "+y".toList]).map
    (fun hunks => (hunks.map Hunk.oldBefore,
     apply (tokenize "b\n".toList) hunks))
   = some ([0, 0], none) := by
 decide +kernel

end Bake.Tools
