import Bake.Tools.LineDiffRounds

/-!
# The line diff is a shortest edit script

What `diff_lines` promises, said of its changes: they are the old text and the new one, no two
neighbours are of one kind, and no edit script of lines adds and removes fewer lines.
-/

open List

namespace Bake.Tools

open EditScript (Script Common)
open WholeLines (Whole)
open DiffRun (change edits)

variable {old new : List Line} {runs : List DiffRun}

/-! ## The lines of a run -/

theorem Shortest.oldLines (h : Shortest old new runs) : runs.flatMap DiffRun.old = old := by
 rw [h.trace.oldLines, take_length]

theorem Shortest.newLines (h : Shortest old new runs) : runs.flatMap DiffRun.new = new := by
 rw [h.trace.newLines, take_length]

theorem whole_part {f : DiffRun → List Line} {run : DiffRun} (hrun : run ∈ runs)
 (h : Whole '\n' (runs.flatMap f)) : Whole '\n' (f run) := by
 obtain ⟨front, back, rfl⟩ := append_of_mem hrun
 rw [flatMap_append, flatMap_cons] at h
 exact h.append.2.append.1

/-- **A change's lines are its run's.** -/
theorem tokenize_change {oldText newText : List Char}
 (h : Shortest (tokenize oldText) (tokenize newText) runs) {run : DiffRun} (hrun : run ∈ runs) :
 tokenize run.change.value = run.lines := by
 have hold : Whole '\n' (run.old) := by
  refine whole_part hrun ?_
  rw [h.oldLines]
  exact WholeLines.whole_split _ _
 have hnew : Whole '\n' (run.new) := by
  refine whole_part hrun ?_
  rw [h.newLines]
  exact WholeLines.whole_split _ _
 have hlines : Whole '\n' run.lines := by
  obtain ⟨kind, lines⟩ := run
  cases kind with
  | common | removed => exact hold
  | added => exact hnew
 exact hlines.split_flatten

/-! ## The changes -/

def changedLines (parts : List Change) : Nat :=
 ((parts.filter fun part => part.added || part.removed).map
  fun part => (tokenize part.value).length).sum

theorem changedLines_runs {oldText newText : List Char}
 (h : Shortest (tokenize oldText) (tokenize newText) runs) :
 changedLines (runs.map change) = editCount runs := by
 have hlines : ∀ run ∈ runs, tokenize run.change.value = run.lines := fun run hrun =>
  tokenize_change h hrun
 clear h
 induction runs with
 | nil => rfl
 | cons run runs ih =>
  have hrun := hlines run (mem_cons_self ..)
  have ih := ih fun r hr => hlines r (mem_cons_of_mem _ hr)
  have hcons : editCount (run :: runs) = run.edits + editCount runs := rfl
  rw [hcons, ← ih]
  obtain ⟨kind, lines⟩ := run
  unfold changedLines
  cases kind with
  | common => simp [change, edits]
  | added | removed => simpa [change, edits] using congrArg List.length hrun

theorem flatMap_values (keep : Change → Bool) (lines : DiffRun → List Line)
 (h : ∀ run, (if keep run.change then run.lines else []) = lines run) (runs : List DiffRun) :
 ((runs.map change).filter keep).flatMap (·.value) = (runs.flatMap lines).flatten := by
 induction runs with
 | nil => rfl
 | cons run runs ih =>
  rw [map_cons, filter_cons, flatMap_cons, flatten_append, ← ih, ← h]
  split <;> simp [change]

theorem kind_change {a b : DiffRun} (h : a.kind ≠ b.kind) :
 (a.change.added, a.change.removed) ≠ (b.change.added, b.change.removed) := by
 obtain ⟨kind, lines⟩ := a
 obtain ⟨kind', lines'⟩ := b
 revert h
 cases kind <;> cases kind' <;> simp [change]

/-- **The line diff is a shortest edit script.** For all texts the search comes to an end with
every access in range. What was not added is the old text and what was not removed the new one,
no two neighbours are of one kind, and the lines added and removed are as few as in any edit
script: all lines but twice those of a longest common subsequence. -/
theorem line_diff (oldText newText : List Char) : ∃ parts, diffLines oldText newText = some parts
  ∧ (parts.filter fun part => !part.added).flatMap (·.value) = oldText
  ∧ (parts.filter fun part => !part.removed).flatMap (·.value) = newText
  ∧ (parts.IsChain fun a b => (a.added, a.removed) ≠ (b.added, b.removed))
  ∧ IsLeast {n | Script (tokenize oldText) (tokenize newText) n} (changedLines parts)
  ∧ ∃ l, IsGreatest {l | Common (tokenize oldText) (tokenize newText) l} l
   ∧ changedLines parts + 2 * l = (tokenize oldText).length + (tokenize newText).length := by
 obtain ⟨runs, hparts, hshortest⟩ := diffLines_runs oldText newText
 have hleast : IsLeast {n | Script (tokenize oldText) (tokenize newText) n}
  (changedLines (runs.map change)) := by
  rw [changedLines_runs hshortest]
  refine ⟨?_, fun n hn => hshortest.least n (Script.reach hn)⟩
  have := script_runs runs
  rw [hshortest.oldLines, hshortest.newLines] at this
  exact this
 refine ⟨_, hparts, ?_, ?_, ?_, hleast, EditScript.isGreatest_common hleast⟩
 · rw [flatMap_values _ DiffRun.old (fun run => ?_), hshortest.oldLines]
   · exact WholeLines.flatten_split _ _
   · obtain ⟨kind, lines⟩ := run
     cases kind <;> rfl
 · rw [flatMap_values _ DiffRun.new (fun run => ?_), hshortest.newLines]
   · exact WholeLines.flatten_split _ _
   · obtain ⟨kind, lines⟩ := run
     cases kind <;> rfl
 · exact (isChain_map _).mpr (hshortest.trace.alternate.kinds.imp fun _ _ => kind_change)

/-! ## The lines changed as a distance -/

/-- The lines that `diff_lines` says were added or removed. -/
def changesBetween (oldText newText : List Char) : Nat :=
 ((diffLines oldText newText).map changedLines).getD 0

theorem changesBetween_least (oldText newText : List Char) :
 IsLeast {n | Script (tokenize oldText) (tokenize newText) n} (changesBetween oldText newText) := by
 obtain ⟨runs, hparts, h⟩ := diffLines_runs oldText newText
 rw [changesBetween, hparts, Option.map_some, Option.getD_some, changedLines_runs h]
 refine ⟨?_, fun n hn => h.least n (Script.reach hn)⟩
 have := script_runs runs
 rwa [h.oldLines, h.newLines] at this

/-- **The lines changed are a distance between texts.** None are changed between equal texts
only, as many are changed one way as the other, and a text between two others saves nothing. -/
theorem changesBetween_metric (a b c : List Char) : (changesBetween a b = 0 ↔ a = b)
 ∧ changesBetween a b = changesBetween b a
 ∧ changesBetween a c ≤ changesBetween a b + changesBetween b c := by
 have hab := changesBetween_least a b
 refine ⟨⟨fun h0 => ?_, ?_⟩, Nat.le_antisymm ?_ ?_, ?_⟩
 · have := (show Script _ _ 0 from h0 ▸ hab.1).eq_of_zero
   rw [← WholeLines.flatten_split '\n' a, ← WholeLines.flatten_split '\n' b]
   exact congrArg flatten this
 · rintro rfl
   exact Nat.le_zero.mp (hab.2 (.refl _))
 · exact hab.2 (Script.symm (changesBetween_least b a).1)
 · exact (changesBetween_least b a).2 (Script.symm hab.1)
 · obtain ⟨k, hk, h⟩ := Script.trans hab.1 (changesBetween_least b c).1
   exact ((changesBetween_least a c).2 h).trans hk

end Bake.Tools
