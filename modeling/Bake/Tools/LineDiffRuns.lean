import Bake.Lib.EditScript
import Bake.Tools.LineDiff
import Mathlib.Data.List.Chain
import Mathlib.Algebra.GroupWithZero.Nat

/-!
# Runs of a diff

The runs of lines a path's components stand for (`Run`), the lines of each text they make up,
and what extending a path by a line and by all that is common behind it comes to. `build_values`
reads the runs off the texts again: `buildValues_eq`.
-/

open List

namespace Bake.Tools

open EditScript (Script)

inductive RunKind
 | common
 | added
 | removed
 deriving DecidableEq

structure DiffRun where
 kind : RunKind
 lines : List Line
 deriving DecidableEq

def DiffRun.old (run : DiffRun) : List Line := if run.kind = .added then [] else run.lines

def DiffRun.new (run : DiffRun) : List Line := if run.kind = .removed then [] else run.lines

def DiffRun.edits (run : DiffRun) : Nat := if run.kind = .common then 0 else run.lines.length

def DiffRun.component (run : DiffRun) : Component where
 count := run.lines.length
 added := run.kind = .added
 removed := run.kind = .removed

def DiffRun.change (run : DiffRun) : Change where
 value := run.lines.flatten
 added := run.kind = .added
 removed := run.kind = .removed

def components (runs : List DiffRun) : List Component := (runs.map DiffRun.component).reverse

/-- How many lines runs add and remove. -/
def editCount (runs : List DiffRun) : Nat := (runs.map DiffRun.edits).sum

/-- No run is empty, and none is of the kind of the one in front of it. -/
structure Alternate (runs : List DiffRun) : Prop where
 nonempty : ∀ run ∈ runs, run.lines ≠ []
 kinds : runs.IsChain fun a b => a.kind ≠ b.kind

variable {runs : List DiffRun} {old new : List Line} {x y : Nat}

theorem components_snoc (runs : List DiffRun) (run : DiffRun) :
 components (runs ++ [run]) = run.component :: components runs := by simp [components]

theorem editCount_snoc (runs : List DiffRun) (run : DiffRun) :
 editCount (runs ++ [run]) = editCount runs + run.edits := by simp [editCount]

theorem script_runs (runs : List DiffRun) :
 Script (runs.flatMap DiffRun.old) (runs.flatMap DiffRun.new) (editCount runs) := by
 induction runs with
 | nil => exact .nil
 | cons run runs ih =>
  have hrun : Script run.old run.new run.edits := by
   obtain ⟨kind, lines⟩ := run
   cases kind with
   | common => exact .refl lines
   | added => exact .addAll lines
   | removed => exact .removeAll lines
  exact hrun.append ih

theorem Alternate.snoc (h : Alternate runs) {run : DiffRun} (hlines : run.lines ≠ [])
 (hkind : ∀ last ∈ runs.getLast?, last.kind ≠ run.kind) : Alternate (runs ++ [run]) where
 nonempty := by
  rintro r hr
  rcases mem_append.mp hr with hr | hr
  · exact h.nonempty r hr
  · rw [mem_singleton.mp hr]
    exact hlines
 kinds := by
  refine isChain_append.mpr ⟨h.kinds, .singleton run, fun last hlast first hfirst => ?_⟩
  obtain rfl : run = first := by simpa using hfirst
  exact hkind last hlast

theorem Alternate.front {last : DiffRun} (h : Alternate (runs ++ [last])) :
 Alternate runs ∧ last.lines ≠ [] ∧ ∀ r ∈ runs.getLast?, r.kind ≠ last.kind := by
 obtain ⟨hfront, -, hnext⟩ := isChain_append.mp h.kinds
 exact ⟨⟨fun r hr => h.nonempty r (mem_append_left _ hr), hfront⟩,
  h.nonempty last (mem_append_right _ (mem_singleton_self _)),
  fun r hr => hnext r hr last (by simp)⟩

def addLine (runs : List DiffRun) (kind : RunKind) (line : Line) : List DiffRun :=
 match runs.getLast? with
 | some last =>
  if last.kind = kind then runs.dropLast ++ [{ last with lines := last.lines ++ [line] }]
  else runs ++ [{ kind, lines := [line] }]
 | none => [{ kind, lines := [line] }]

theorem addLine_cases (runs : List DiffRun) (kind : RunKind) (line : Line) :
 (∃ front lines, runs = front ++ [⟨kind, lines⟩]
  ∧ addLine runs kind line = front ++ [⟨kind, lines ++ [line]⟩])
  ∨ (∀ last ∈ runs.getLast?, last.kind ≠ kind)
   ∧ addLine runs kind line = runs ++ [⟨kind, [line]⟩] := by
 rcases eq_nil_or_concat runs with rfl | ⟨front, last, rfl⟩
 · exact Or.inr ⟨by simp, rfl⟩
 · rw [concat_eq_append, addLine, getLast?_concat, dropLast_concat]
   dsimp only
   split
   next hsame =>
    subst hsame
    exact Or.inl ⟨front, last.lines, rfl, rfl⟩
   next hother =>
    exact Or.inr ⟨by simpa using hother, rfl⟩

theorem addToPath_last {path : DiffPath} (hlast : path.last = components runs) (kind : RunKind)
 (line : Line) (oldPosInc : Int) (hkind : kind ≠ .common) :
 (addToPath path (kind = .added) (kind = .removed) oldPosInc).last
  = components (addLine runs kind line) := by
 rcases addLine_cases runs kind line with ⟨front, lines, rfl, hadd⟩ | ⟨hother, hadd⟩
 · rw [hadd, components_snoc, addToPath, hlast, components_snoc]
   simp [DiffRun.component]
 rw [hadd, components_snoc, addToPath, hlast]
 rcases eq_nil_or_concat runs with rfl | ⟨front, last, rfl⟩
 · rfl
 · rw [concat_eq_append] at hother ⊢
   rw [components_snoc]
   have hne : ¬ (last.component.added = decide (kind = .added)
    ∧ last.component.removed = decide (kind = .removed)) := by
    have hdiffer : last.kind ≠ kind := by simpa using hother
    obtain ⟨lastKind, lines⟩ := last
    cases lastKind <;> cases kind <;> simp_all [DiffRun.component]
   dsimp only
   rw [if_neg hne]
   rfl

theorem addLine_spec (h : Alternate runs) {kind : RunKind} (hkind : kind ≠ .common) (line : Line) :
 Alternate (addLine runs kind line) ∧ (addLine runs kind line).flatMap DiffRun.old
   = runs.flatMap DiffRun.old ++ (DiffRun.mk kind [line]).old
  ∧ (addLine runs kind line).flatMap DiffRun.new
   = runs.flatMap DiffRun.new ++ (DiffRun.mk kind [line]).new
  ∧ editCount (addLine runs kind line) = editCount runs + 1
  ∧ ∀ last ∈ (addLine runs kind line).getLast?, last.kind ≠ .common := by
 rcases addLine_cases runs kind line with ⟨front, lines, rfl, hadd⟩ | ⟨hother, hadd⟩
 · obtain ⟨hfront, -, hnext⟩ := h.front
   rw [hadd]
   refine ⟨hfront.snoc (by simp) hnext, ?_, ?_, ?_, by simpa using hkind⟩
   · cases kind <;> simp [DiffRun.old]
   · cases kind <;> simp [DiffRun.new]
   · rw [editCount_snoc, editCount_snoc, DiffRun.edits, DiffRun.edits, if_neg hkind, if_neg hkind]
     simp [Nat.add_assoc]
 · rw [hadd]
   refine ⟨h.snoc (by simp) hother, by simp, by simp, ?_, by simpa using hkind⟩
   rw [editCount_snoc, DiffRun.edits, if_neg hkind]
   rfl

/-! ## What is common -/

theorem lineAt_eq (lines : List Line) (position : Nat) :
 lineAt lines position = lines[position]? := by
 rw [lineAt, if_pos (Int.natCast_nonneg _), Int.toNat_natCast]

theorem commonLoop_spec (hx : x ≤ old.length) (hy : y ≤ new.length) (common : Nat) :
 ∃ n : Nat, commonLoop new old ((x : Int) - 1) ((y : Int) - 1) common
  = some ((x : Int) + n - 1, (y : Int) + n - 1, common + n)
  ∧ x + n ≤ old.length ∧ y + n ≤ new.length
  ∧ (old.drop x).take n = (new.drop y).take n
  ∧ (x + n < old.length → old[x + n]? ≠ new[y + n]?) := by
 induction hlen : old.length - x generalizing x y common with
 | zero =>
  refine ⟨0, ?_, by omega, by omega, by simp, fun hlt => by omega⟩
  rw [commonLoop, if_neg (by omega)]
  simp
 | succ n ih =>
  have hxs : ((x : Int) - 1 + 1) = x := by omega
  have hys : ((y : Int) - 1 + 1) = y := by omega
  have hold : lineAt old ((x : Int) - 1 + 1) = some old[x] := by
   rw [hxs, lineAt_eq, getElem?_eq_getElem]
  by_cases hnew : y < new.length
  · have hnewLine : lineAt new ((y : Int) - 1 + 1) = some new[y] := by
     rw [hys, lineAt_eq, getElem?_eq_getElem]
    by_cases heq : old[x] = new[y]
    · obtain ⟨m, hm, hxm, hym, htake, hstop⟩ :=
       @ih (x + 1) (y + 1) (by omega) (by omega) (common + 1) (by omega)
      refine ⟨m + 1, ?_, by omega, by omega, ?_, fun hlt => ?_⟩
      · have hx1 : ((x + 1 : Nat) : Int) - 1 = x - 1 + 1 := by omega
        have hy1 : ((y + 1 : Nat) : Int) - 1 = y - 1 + 1 := by omega
        rw [hx1, hy1] at hm
        rw [commonLoop, if_pos (by omega), hold, hnewLine]
        simp only [Option.bind_eq_bind, Option.bind_some, if_pos heq, hm]
        simp only [Option.some.injEq, Prod.mk.injEq]
        omega
      · rw [drop_eq_getElem_cons (by omega : x < old.length),
         drop_eq_getElem_cons hnew, take_succ_cons, take_succ_cons, heq, htake]
      · rw [← Nat.add_assoc, Nat.add_right_comm, ← Nat.add_assoc, Nat.add_right_comm y]
        exact hstop (by omega)
    · refine ⟨0, ?_, by omega, by omega, by simp, fun _ => ?_⟩
      · rw [commonLoop, if_pos (by omega), hold, hnewLine]
        simp [heq]
      · rw [Nat.add_zero, Nat.add_zero, getElem?_eq_getElem (by omega),
         getElem?_eq_getElem hnew]
        simpa using heq
  · refine ⟨0, ?_, by omega, by omega, by simp, fun _ => ?_⟩
    · rw [commonLoop, if_neg (by omega)]
      simp
    · rw [Nat.add_zero, Nat.add_zero, getElem?_eq_getElem (by omega),
       getElem?_eq_none (by omega)]
      simp

/-! ## Traces -/

/-- Runs that have come to `x` in the old lines and to `y` in the new ones. -/
structure Trace (old new : List Line) (runs : List DiffRun) (x y : Nat) : Prop where
 alternate : Alternate runs
 oldLe : x ≤ old.length
 newLe : y ≤ new.length
 oldLines : runs.flatMap DiffRun.old = old.take x
 newLines : runs.flatMap DiffRun.new = new.take y

theorem trace_nil (old new : List Line) : Trace old new [] 0 0 :=
 ⟨⟨by simp, .nil⟩, Nat.zero_le _, Nat.zero_le _, rfl, rfl⟩

/-- The path of runs that have come to `x`. -/
def pathOf (runs : List DiffRun) (x : Nat) : DiffPath where
 oldPos := (x : Int) - 1
 last := components runs

theorem Trace.remove (h : Trace old new runs x y) (hx : x < old.length) :
 ∃ runs', Trace old new runs' (x + 1) y ∧ editCount runs' = editCount runs + 1
  ∧ (∀ last ∈ runs'.getLast?, last.kind ≠ .common)
  ∧ addToPath (pathOf runs x) false true 1 = pathOf runs' (x + 1) := by
 obtain ⟨halternate, hold, hnew, hcount, hlast⟩ :=
  addLine_spec h.alternate (by decide : RunKind.removed ≠ .common) old[x]
 have hpath : (addToPath (pathOf runs x) false true 1).last
  = components (addLine runs .removed old[x]) := addToPath_last rfl .removed old[x] 1 (by decide)
 have hpos : (addToPath (pathOf runs x) false true 1).oldPos = ((x + 1 : Nat) : Int) - 1 := by
  show (x : Int) - 1 + 1 = ((x + 1 : Nat) : Int) - 1
  omega
 refine ⟨_, ⟨halternate, hx, h.newLe, ?_, ?_⟩, hcount, hlast, congrArg₂ DiffPath.mk hpos hpath⟩
 · rw [hold, h.oldLines, take_add_one, getElem?_eq_getElem hx]
   rfl
 · rw [hnew, h.newLines]
   simp [DiffRun.new]

theorem Trace.add (h : Trace old new runs x y) (hy : y < new.length) :
 ∃ runs', Trace old new runs' x (y + 1) ∧ editCount runs' = editCount runs + 1
  ∧ (∀ last ∈ runs'.getLast?, last.kind ≠ .common)
  ∧ addToPath (pathOf runs x) true false 0 = pathOf runs' x := by
 obtain ⟨halternate, hold, hnew, hcount, hlast⟩ :=
  addLine_spec h.alternate (by decide : RunKind.added ≠ .common) new[y]
 have hpath : (addToPath (pathOf runs x) true false 0).last
  = components (addLine runs .added new[y]) := addToPath_last rfl .added new[y] 0 (by decide)
 have hpos : (addToPath (pathOf runs x) true false 0).oldPos = (x : Int) - 1 := Int.add_zero _
 refine ⟨_, ⟨halternate, h.oldLe, hy, ?_, ?_⟩, hcount, hlast, congrArg₂ DiffPath.mk hpos hpath⟩
 · rw [hold, h.oldLines]
   simp [DiffRun.old]
 · rw [hnew, h.newLines, take_add_one, getElem?_eq_getElem hy]
   rfl

theorem Trace.extractCommon (h : Trace old new runs x y)
 (hlast : ∀ last ∈ runs.getLast?, last.kind ≠ .common) :
 ∃ n runs', extractCommon (pathOf runs x) new old ((x : Int) - y)
  = some (pathOf runs' (x + n), ((y + n : Nat) : Int) - 1)
  ∧ Trace old new runs' (x + n) (y + n) ∧ editCount runs' = editCount runs
  ∧ (x + n < old.length → old[x + n]? ≠ new[y + n]?) := by
 obtain ⟨n, hloop, hxn, hyn, hsame, hstop⟩ := commonLoop_spec h.oldLe h.newLe 0
 have hpos : (pathOf runs x).oldPos - ((x : Int) - y) = (y : Int) - 1 := by
  show (x : Int) - 1 - ((x : Int) - y) = (y : Int) - 1
  omega
 have htake : ∀ (lines : List Line) (z : Nat),
  lines.take (z + n) = lines.take z ++ (lines.drop z).take n := fun _ _ => take_add
 have hextract : Bake.Tools.extractCommon (pathOf runs x) new old ((x : Int) - y)
  = some ({ oldPos := ((x + n : Nat) : Int) - 1
            last := if n > 0 then { count := n, added := false, removed := false }
             :: components runs else components runs }, ((y + n : Nat) : Int) - 1) := by
  have hloop' : commonLoop new old (pathOf runs x).oldPos ((y : Int) - 1) 0
   = some ((x : Int) + n - 1, (y : Int) + n - 1, 0 + n) := hloop
  rw [Bake.Tools.extractCommon, hpos, hloop']
  simp [pathOf]
 cases n with
 | zero =>
  refine ⟨0, runs, ?_, h, rfl, hstop⟩
  rw [hextract]
  rfl
 | succ n =>
  have hlength : ((old.drop x).take (n + 1)).length = n + 1 := by
   rw [length_take, length_drop]
   omega
  refine ⟨n + 1, runs ++ [⟨.common, (old.drop x).take (n + 1)⟩], ?_, ⟨?_, hxn, hyn, ?_, ?_⟩,
   ?_, hstop⟩
  · rw [hextract, pathOf, components_snoc, if_pos (Nat.succ_pos n), DiffRun.component]
    simp only [hlength]
    rfl
  · refine h.alternate.snoc (fun hnil => ?_) hlast
    have hnil : (old.drop x).take (n + 1) = [] := hnil
    rw [hnil] at hlength
    simp at hlength
  · rw [htake, ← h.oldLines]
    simp [DiffRun.old]
  · rw [htake, ← h.newLines, ← hsame]
    simp [DiffRun.new]
  · rw [editCount_snoc]
    rfl

/-! ## The changes -/

theorem concatSlice_eq {lines slice rest : List Line} {start : Nat} (hne : slice ≠ [])
 (h : lines.drop start = slice ++ rest) :
 concatSlice lines start slice.length = some slice.flatten := by
 have hlength := congrArg List.length h
 rw [length_drop, length_append] at hlength
 have := length_pos_iff.mpr hne
 rw [concatSlice, if_pos (by omega), h, take_left]

/-- **The runs are read off the texts again.** -/
theorem buildFrom_eq {newPos oldPos : Nat} (hne : ∀ run ∈ runs, run.lines ≠ [])
 (hold : old.drop oldPos = runs.flatMap DiffRun.old)
 (hnew : new.drop newPos = runs.flatMap DiffRun.new) :
 buildFrom new old newPos oldPos (runs.map DiffRun.component) = some (runs.map DiffRun.change) := by
 induction runs generalizing newPos oldPos with
 | nil => rfl
 | cons run runs ih =>
  have hrun := hne run (mem_cons_self ..)
  have ih := fun newPos oldPos => @ih newPos oldPos fun r hr => hne r (mem_cons_of_mem _ hr)
  obtain ⟨kind, lines⟩ := run
  rw [flatMap_cons] at hold hnew
  have hpass : ∀ {all rest : List Line} {start : Nat}, all.drop start = lines ++ rest →
   all.drop (start + lines.length) = rest := fun h => by
   rw [← drop_drop, h, drop_left]
  cases kind with
  | removed =>
   have hslice := concatSlice_eq hrun hold
   simp only [map_cons, buildFrom, DiffRun.component]
   simp [hslice, ih newPos (oldPos + lines.length) (hpass hold) hnew, DiffRun.change]
  | added =>
   have hslice := concatSlice_eq hrun hnew
   simp only [map_cons, buildFrom, DiffRun.component]
   simp [hslice, ih (newPos + lines.length) oldPos hold (hpass hnew), DiffRun.change]
  | common =>
   have hslice := concatSlice_eq hrun hnew
   simp only [map_cons, buildFrom, DiffRun.component]
   simp [hslice, ih (newPos + lines.length) (oldPos + lines.length) (hpass hold) (hpass hnew),
    DiffRun.change]

theorem Trace.buildValues (h : Trace old new runs old.length new.length) :
 buildValues (components runs) new old = some (runs.map DiffRun.change) := by
 rw [Bake.Tools.buildValues, components, reverse_reverse]
 refine buildFrom_eq h.alternate.nonempty ?_ ?_
 · rw [h.oldLines, take_length, drop_zero]
 · rw [h.newLines, take_length, drop_zero]

end Bake.Tools
