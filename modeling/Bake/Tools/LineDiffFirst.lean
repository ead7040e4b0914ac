import Bake.Tools.LineDiffMinimal

/-!
# Where a line diff has its first change

All paths of the search go on from one: what is common in front of both texts, as far as it
goes. So the first change stands where the texts first differ, though a shortest way could have
it elsewhere.
-/

open List Option

namespace Bake.Tools

open WholeLines (Whole)
open DiffRun (change)

variable {old new : List Line} {base : List Component} {path : DiffPath}

/-! ## Paths that go on from one -/

/-- A path whose components are those of `base`, and a change behind them. -/
def GoneOn (base : List Component) (path : DiffPath) : Prop :=
 ∃ newer first, path.last = newer ++ first :: base ∧ (first.added || first.removed) = true

/-- The path the search began with, or one that has gone on from it. -/
def Descends (base : List Component) (path : DiffPath) : Prop := path.last = base ∨ GoneOn base path

/-- The last of the components is no change. -/
def EndsCommon (base : List Component) : Prop := ∀ c ∈ base.head?, (c.added || c.removed) = false

theorem Descends.addToPath (h : Descends base path) (hbase : EndsCommon base)
 {added removed : Bool} (hkind : (added || removed) = true) (oldPosInc : Int) :
 GoneOn base (addToPath path added removed oldPosInc) := by
 rcases h with h | ⟨newer, first, h, hfirst⟩
 · refine ⟨[], { count := 1, added, removed }, ?_, hkind⟩
   cases base with
   | nil => simp [Bake.Tools.addToPath, h]
   | cons c base =>
    have hc : (c.added || c.removed) = false := hbase c rfl
    have hother : ¬ (c.added = added ∧ c.removed = removed) := by
     rintro ⟨rfl, rfl⟩
     rw [hc] at hkind
     exact absurd hkind (by decide)
    simp [Bake.Tools.addToPath, h, hother]
 cases newer with
 | nil =>
  by_cases hsame : first.added = added ∧ first.removed = removed
  · exact ⟨[], { first with count := first.count + 1 },
     by simp [Bake.Tools.addToPath, h, hsame], hfirst⟩
  · exact ⟨[{ count := 1, added, removed }], first,
     by simp [Bake.Tools.addToPath, h, hsame], hfirst⟩
 | cons c newer =>
  by_cases hsame : c.added = added ∧ c.removed = removed
  · exact ⟨{ c with count := c.count + 1 } :: newer, first,
     by simp [Bake.Tools.addToPath, h, hsame], hfirst⟩
  · exact ⟨{ count := 1, added, removed } :: c :: newer, first,
     by simp [Bake.Tools.addToPath, h, hsame], hfirst⟩

theorem GoneOn.extractCommon (h : GoneOn base path) {diagonal newPos : Int} {after : DiffPath}
 (hextract : extractCommon path new old diagonal = some (after, newPos)) :
 GoneOn base after := by
 obtain ⟨newer, first, hlast, hfirst⟩ := h
 obtain ⟨⟨oldPos, newPos', common⟩, -, hafter⟩ := bind_eq_some_iff.mp hextract
 obtain rfl := (Prod.mk.inj (some.inj hafter)).1
 by_cases hcommon : common > 0
 · exact ⟨{ count := common, added := false, removed := false } :: newer, first,
    by simp [hcommon, hlast], hfirst⟩
 · exact ⟨newer, first, by simp [hcommon, hlast], hfirst⟩

theorem branch_goneOn (hbase : EndsCommon base) {canAdd canRemove : Bool}
 {addPath removePath : Option DiffPath} (hadd : ∀ p ∈ addPath, Descends base p)
 (hremove : ∀ p ∈ removePath, Descends base p)
 (h : branch canAdd canRemove addPath removePath = some path) : GoneOn base path := by
 unfold branch at h
 split at h
 next add _ =>
  cases h
  exact (hadd add rfl).addToPath hbase rfl 0
 next remove _ =>
  cases h
  exact (hremove remove rfl).addToPath hbase rfl 1
 · simp at h

/-! ## The search -/

def AllDescend (base : List Component) (best : List (Option DiffPath)) : Prop :=
 ∀ p, some p ∈ best → Descends base p

variable {best after : List (Option DiffPath)} {offset diagonal : Int}

variable {entry : Option DiffPath}

theorem AllDescend.get (h : AllDescend base best)
 (hget : slotGet best offset diagonal = some entry) : ∀ p ∈ entry, Descends base p := by
 rintro p rfl
 unfold slotGet at hget
 split at hget
 · exact h p (mem_of_getElem? hget)
 · simp at hget

theorem AllDescend.set (h : AllDescend base best)
 (hset : slotSet best offset diagonal entry = some after)
 (hentry : ∀ p ∈ entry, Descends base p) : AllDescend base after := by
 unfold slotSet at hset
 split at hset
 · cases hset
   intro p hp
   rcases mem_or_eq_of_mem_set hp with hp | hp
   · exact h p hp
   · exact hentry p hp.symm
 · simp at hset

def DiffStep.Descends (base : List Component) : DiffStep → Prop
 | .found path => GoneOn base path
 | .next search => AllDescend base search.best
 | .leave search => AllDescend base search.best

variable {search : DiffSearch} {parts : List Change}

theorem keepPath_descends {kept : DiffSearch} {newPos : Int} (h : AllDescend base search.best)
 (hpath : Descends base path)
 (hkeep : keepPath new old offset search diagonal path newPos = some kept) :
 AllDescend base kept.best := by
 obtain ⟨best, hset, hkept⟩ := bind_eq_some_iff.mp hkeep
 cases hkept
 exact h.set hset (by rintro p ⟨⟩; exact hpath)

/-- **Preserved by every step.** -/
theorem diagonalStep_descends (hbase : EndsCommon base) {step : DiffStep}
 (h : AllDescend base search.best)
 (hstep : diagonalStep new old offset search diagonal = some step) : step.Descends base := by
 obtain ⟨removePath, hremove, hstep⟩ := bind_eq_some_iff.mp hstep
 obtain ⟨best, hclear, hstep⟩ := bind_eq_some_iff.mp hstep
 obtain ⟨addPath, hadd, hstep⟩ := bind_eq_some_iff.mp hstep
 have hbest : AllDescend base best := h.set hclear (by simp)
 dsimp only at hstep
 split at hstep
 · obtain ⟨cleared, hset, hstep⟩ := bind_eq_some_iff.mp hstep
   cases hstep
   exact hbest.set hset (by simp)
 split at hstep
 · cases hstep
   exact hbest
 next first hbranch =>
  have hgone := branch_goneOn hbase (hbest.get hadd) (h.get hremove) hbranch
  obtain ⟨⟨path, newPos⟩, hextract, hstep⟩ := bind_eq_some_iff.mp hstep
  have hgone := hgone.extractCommon hextract
  dsimp only at hstep
  split at hstep
  · cases hstep
    exact hgone
  · obtain ⟨kept, hkeep, hstep⟩ := bind_eq_some_iff.mp hstep
    cases hstep
    exact keepPath_descends hbest (Or.inr hgone) hkeep

theorem diagonalLoop_descends (hbase : EndsCommon base) {editLength : Int}
 {result : DiffPath ⊕ DiffSearch} (h : AllDescend base search.best)
 (hloop : diagonalLoop new old offset editLength search diagonal = some result) :
 result.elim (GoneOn base) fun search => AllDescend base search.best := by
 induction hleft : (editLength + 1 - diagonal).toNat using Nat.strongRecOn
  generalizing diagonal search with
 | ind left ih =>
  rw [diagonalLoop] at hloop
  split at hloop
  next hin =>
   have hle : diagonal ≤ editLength := by
    cases hmax : search.maxDiagonal with
    | none => rwa [hmax] at hin
    | some bound =>
     rw [hmax] at hin
     exact Int.le_trans hin (Int.min_le_right _ _)
   cases hstep : diagonalStep new old offset search diagonal with
   | none =>
    rw [hstep] at hloop
    simp at hloop
   | some step =>
    have hdescends := diagonalStep_descends hbase h hstep
    rw [hstep] at hloop
    cases step with
    | found path | leave search =>
     cases hloop
     exact hdescends
    | next search => exact ih _ (by omega) hdescends hloop rfl
  · cases hloop
    exact h

/-- **The changes are read off a path that has gone on**, if there are any. -/
theorem editLoop_descends (hbase : EndsCommon base) {maxEditLength editLength : Int}
 (h : AllDescend base search.best)
 (hloop : editLoop new old offset maxEditLength search editLength = some parts) :
 parts = [] ∨ ∃ path, GoneOn base path ∧ buildValues path.last new old = some parts := by
 induction hleft : (maxEditLength + 1 - editLength).toNat using Nat.strongRecOn
  generalizing editLength search with
 | ind left ih =>
  rw [editLoop] at hloop
  split at hloop
  · obtain ⟨result, hdiagonals, hloop⟩ := bind_eq_some_iff.mp hloop
    have hdescends := diagonalLoop_descends hbase h hdiagonals
    cases result with
    | inl path => exact Or.inr ⟨path, hdescends, hloop⟩
    | inr search => exact ih _ (by omega) hdescends hloop rfl
  · exact Or.inl (some.inj hloop).symm

/-! ## The first change -/

theorem buildFrom_cons {component : Component} {components : List Component} {newPos oldPos : Nat}
 (h : buildFrom new old newPos oldPos (component :: components) = some parts) :
 ∃ part rest newPos' oldPos', parts = part :: rest
  ∧ part.added = component.added ∧ part.removed = component.removed
  ∧ (component.removed = false → concatSlice new newPos component.count = some part.value)
  ∧ buildFrom new old newPos' oldPos' components = some rest := by
 rw [buildFrom] at h
 split at h
 next hremoved =>
  obtain ⟨value, -, h⟩ := bind_eq_some_iff.mp h
  obtain ⟨rest, hrest, h⟩ := bind_eq_some_iff.mp h
  cases h
  exact ⟨_, rest, _, _, rfl, rfl, rfl, by simp [hremoved], hrest⟩
 · obtain ⟨value, hvalue, h⟩ := bind_eq_some_iff.mp h
   obtain ⟨rest, hrest, h⟩ := bind_eq_some_iff.mp h
   cases h
   exact ⟨_, rest, _, _, rfl, rfl, rfl, fun _ => hvalue, hrest⟩

theorem extractCommon_first (old new : List Line) :
 ∃ n : Nat, extractCommon { oldPos := -1, last := [] } new old 0
  = some ({ oldPos := (n : Int) - 1
            last := if n > 0 then [{ count := n, added := false, removed := false }]
             else [] }, (n : Int) - 1)
  ∧ n ≤ old.length ∧ n ≤ new.length ∧ old.take n = new.take n
  ∧ (n < old.length ∨ n < new.length → old[n]? ≠ new[n]?) := by
 obtain ⟨n, hloop, hold, hnew, hsame, hstop⟩ :=
  commonLoop_spec (Nat.zero_le old.length) (Nat.zero_le new.length) 0
 simp only [Nat.zero_add, drop_zero] at hloop hold hnew hsame hstop
 have hloop : commonLoop new old (-1) (-1 - 0) 0 = some ((n : Int) - 1, (n : Int) - 1, n) := by
  simpa using hloop
 refine ⟨n, ?_, hold, hnew, hsame, fun hends => ?_⟩
 · rw [extractCommon, hloop]
   rfl
 · by_cases hlt : n < old.length
   · exact hstop hlt
   · rw [getElem?_eq_none (by omega), getElem?_eq_getElem (by omega)]
     simp

structure FirstChange (old new : List Line) (front rest : List DiffRun) : Prop where
 /-- Everything in front is common. -/
 common : ∀ run ∈ front, run.kind = .common
 /-- What follows begins with a change. -/
 begins : ∀ run ∈ rest.head?, run.kind ≠ .common
 /-- The texts differ there. -/
 differ : rest ≠ [] →
  old[(front.flatMap DiffRun.new).length]? ≠ new[(front.flatMap DiffRun.new).length]?

theorem FirstChange.front_eq {front rest : List DiffRun} (h : FirstChange old new front rest) :
 front.flatMap DiffRun.old = front.flatMap DiffRun.new := by
 refine congrArg List.flatten (map_congr_left fun run hrun => ?_)
 have hkind := h.common run hrun
 simp [DiffRun.old, DiffRun.new, hkind]

theorem kind_of_change {run : DiffRun} {part : Change} (h : run.change = part) :
 run.kind = .common ↔ (part.added || part.removed) = false := by
 subst h
 obtain ⟨kind, lines⟩ := run
 cases kind <;> simp [change]

/-- What the components of a path that has gone on from a common run come to. -/
theorem buildValues_goneOn {n : Nat}
 (hgone : GoneOn (if n > 0 then [{ count := n, added := false, removed := false }] else []) path)
 (h : buildValues path.last new old = some parts) :
 ∃ front part rest, parts = front ++ part :: rest ∧ (part.added || part.removed) = true
  ∧ if n > 0 then front = [{ value := (new.take n).flatten, added := false, removed := false }]
   else front = [] := by
 obtain ⟨newer, first, hlast, hfirst⟩ := hgone
 rw [buildValues, hlast, reverse_append, reverse_cons] at h
 by_cases hn : n > 0
 · rw [if_pos hn] at h
   obtain ⟨common, rest, newPos, oldPos, rfl, hadded, hremoved, hvalue, h⟩ := buildFrom_cons h
   obtain ⟨part, rest, -, -, rfl, hpartAdded, hpartRemoved, -, -⟩ := buildFrom_cons h
   refine ⟨[common], part, rest, rfl, by rw [hpartAdded, hpartRemoved]; exact hfirst, ?_⟩
   have hvalue : concatSlice new 0 n = some common.value := hvalue rfl
   rw [concatSlice] at hvalue
   split at hvalue
   · rw [if_pos hn, ← drop_zero (l := new), some.inj hvalue]
     obtain ⟨value, added, removed⟩ := common
     simp_all
   · simp at hvalue
 · rw [if_neg hn] at h
   obtain ⟨part, rest, -, -, rfl, hpartAdded, hpartRemoved, -, -⟩ := buildFrom_cons h
   exact ⟨[], part, rest, rfl, by rw [hpartAdded, hpartRemoved]; exact hfirst, by rw [if_neg hn]⟩

theorem front_lines {oldText newText : List Char} {front rest : List DiffRun} {n : Nat}
 (h : Shortest (tokenize oldText) (tokenize newText) (front ++ rest))
 (hn : n ≤ (tokenize newText).length)
 (hfront : if n > 0 then
  front.map change
   = [{ value := ((tokenize newText).take n).flatten, added := false, removed := false }]
  else front.map change = []) :
 (∀ run ∈ front, run.kind = .common) ∧ (front.flatMap DiffRun.new).length = n := by
 split at hfront
 · obtain ⟨run, others, rfl, hrun, hnil⟩ := map_eq_cons_iff.mp hfront
   obtain rfl := map_eq_nil_iff.mp hnil
   have hkind : run.kind = .common := (kind_of_change hrun).mpr rfl
   have hlines := tokenize_change h (mem_cons_self ..)
   have htake : Whole '\n' ((tokenize newText).take n) := by
    have hall := WholeLines.whole_split '\n' newText
    rw [← take_append_drop n (WholeLines.split '\n' newText)] at hall
    exact hall.append.1
   rw [hrun] at hlines
   have hlines : (tokenize newText).take n = run.lines := by
    rw [← hlines]
    exact htake.split_flatten.symm
   refine ⟨by simpa using hkind, ?_⟩
   rw [flatMap_singleton, DiffRun.new, if_neg (by rw [hkind]; decide), ← hlines,
    length_take, Nat.min_eq_left hn]
 · obtain rfl := map_eq_nil_iff.mp hfront
   exact ⟨by simp, by simp; omega⟩

/-- **The first change** of a line diff stands where the texts first differ. -/
theorem diffLines_first (oldText newText : List Char) :
 ∃ front rest, diffLines oldText newText = some ((front ++ rest).map change)
  ∧ Shortest (tokenize oldText) (tokenize newText) (front ++ rest)
  ∧ FirstChange (tokenize oldText) (tokenize newText) front rest := by
 obtain ⟨runs, hparts, hshortest⟩ := diffLines_runs oldText newText
 obtain ⟨n, hextract, hold, hnew, -, hdiffer⟩ :=
  extractCommon_first (tokenize oldText) (tokenize newText)
 suffices hfirst : runs = [] ∨ (∀ run ∈ runs, run.kind = .common)
  ∨ (n < (tokenize oldText).length ∨ n < (tokenize newText).length)
   ∧ ∃ front part rest, runs.map change = front ++ part :: rest
   ∧ (part.added || part.removed) = true
   ∧ if n > 0 then
    front = [{ value := ((tokenize newText).take n).flatten, added := false, removed := false }]
    else front = [] by
  rcases hfirst with rfl | hcommon | ⟨hends, front, part, rest, hmap, hpart, hfront⟩
  · exact ⟨[], [], hparts, hshortest, ⟨by simp, by simp, by simp⟩⟩
  · refine ⟨runs, [], ?_, ?_, ⟨hcommon, by simp, by simp⟩⟩ <;> rwa [append_nil]
  · obtain ⟨frontRuns, restRuns, rfl, rfl, hrest⟩ := map_eq_append_iff.mp hmap
    obtain ⟨run, restRuns, rfl, hrun, -⟩ := map_eq_cons_iff.mp hrest
    have hlines : (∀ r ∈ frontRuns, r.kind = .common)
     ∧ (frontRuns.flatMap DiffRun.new).length = n :=
     front_lines hshortest hnew hfront
    refine ⟨frontRuns, run :: restRuns, hparts, hshortest, ⟨hlines.1, ?_, fun _ => ?_⟩⟩
    · rintro r ⟨⟩ hkind
      rw [(kind_of_change hrun).mp hkind] at hpart
      exact absurd hpart (by decide)
    · rw [hlines.2]
      exact hdiffer hends
 rw [diffLines] at hparts
 generalize tokenize oldText = old at *
 generalize tokenize newText = new at *
 simp only [hextract, bind_eq_bind, bind_some] at hparts
 split at hparts
 · -- the texts are the same
   refine Or.inr (Or.inl fun run hrun => (kind_of_change rfl).mpr ?_)
   have hmem : run.change ∈ runs.map change := mem_map_of_mem hrun
   rw [buildValues] at hparts
   by_cases hn : n > 0
   · rw [if_pos hn] at hparts
     obtain ⟨part, rest, _, _, heq, hadded, hremoved, -, hrest⟩ := buildFrom_cons hparts
     cases hrest
     rw [heq] at hmem
     rw [mem_singleton.mp hmem, hadded, hremoved]
     rfl
   · rw [if_neg hn] at hparts
     rw [← some.inj hparts] at hmem
     simp at hmem
 next hends =>
  obtain ⟨best, hset, hloop⟩ := bind_eq_some_iff.mp hparts
  have hbase : EndsCommon
   (if n > 0 then [{ count := n, added := false, removed := false }] else []) := by
   split <;> simp [EndsCommon]
  have hall : AllDescend (if n > 0 then [{ count := n, added := false, removed := false }] else [])
   (List.replicate (2 * ((new.length : Int) + old.length + 1) + 1).toNat none) :=
   fun p hp => absurd (eq_of_mem_replicate hp) (by simp)
  have hall := hall.set hset (by rintro p ⟨⟩; exact Or.inl rfl)
  rcases editLoop_descends hbase hall hloop with hnil | ⟨path, hgone, hvalues⟩
  · exact Or.inl (map_eq_nil_iff.mp hnil)
  · exact Or.inr (Or.inr ⟨by omega, buildValues_goneOn hgone hvalues⟩)

end Bake.Tools
