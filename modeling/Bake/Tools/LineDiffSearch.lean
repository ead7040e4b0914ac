import Bake.Tools.LineDiffRuns

/-!
# The search for a line diff

Round by round, every diagonal that may still matter has the furthest path of so many edits.
A path at the end of one text bounds the diagonals on its side: what lies beyond could only come
back over that path. So the bounds close in on the diagonal of the two ends from both sides and
never pass it, and as each bound moves by one a round, no entry of an earlier round is read
again.

`Ready` is what holds between two rounds, `Round` what holds within one, in front of a diagonal.
-/

namespace Bake.Tools

open EditScript (Reach)
open Or

variable {old new : List Line} {best : List (Option DiffPath)} {offset k : Int} {D : Nat}

/-! ## The table -/

def entryAt (best : List (Option DiffPath)) (offset diagonal : Int) : Option DiffPath :=
 (best[(diagonal + offset).toNat]?).join

/-- The table has an entry for every diagonal up to the offset. -/
def Fits (best : List (Option DiffPath)) (offset : Int) : Prop :=
 (best.length : Int) = 2 * offset + 1

theorem slotGet_eq (h : Fits best offset) (hlow : -offset ≤ k) (hhigh : k ≤ offset) :
 slotGet best offset k = some (entryAt best offset k) := by
 unfold Fits at h
 have hlt : (k + offset).toNat < best.length := by omega
 rw [slotGet, if_pos (by omega), entryAt, List.getElem?_eq_getElem hlt]
 rfl

theorem slotSet_eq (h : Fits best offset) (hlow : -offset ≤ k) (hhigh : k ≤ offset)
 (path : Option DiffPath) :
 ∃ best', slotSet best offset k path = some best' ∧ Fits best' offset ∧ ∀ j, -offset ≤ j →
   entryAt best' offset j = if j = k then path else entryAt best offset j := by
 unfold Fits at h
 have hlt : (k + offset).toNat < best.length := by omega
 refine ⟨best.set (k + offset).toNat path, by rw [slotSet, if_pos ⟨by omega, hlt⟩], ?_, ?_⟩
 · unfold Fits
   rw [List.length_set]
   exact h
 · intro j hj
   rw [entryAt, entryAt, List.getElem?_set]
   by_cases hjk : j = k
   · rw [hjk, if_pos rfl, if_pos rfl, if_pos hlt]
     rfl
   · rw [if_neg hjk, if_neg (by omega)]

/-! ## Paths -/

/-- A path on a diagonal, of so many edits at most. -/
def Stands (old new : List Line) (D : Nat) (k : Int) (path : DiffPath) : Prop :=
 ∃ runs x y, Trace old new runs x y ∧ path = pathOf runs x ∧ (x : Int) - y = k ∧ editCount runs ≤ D

/-- A path is as far as any place of its diagonal with so many edits. -/
def Covers (old new : List Line) (D : Nat) (k : Int) (path : Option DiffPath) : Prop :=
 ∀ x y, Reach old new D x y → (x : Int) - y = k → ∃ p ∈ path, (x : Int) - 1 ≤ p.oldPos

theorem Stands.mono {path : DiffPath} (h : Stands old new D k path) :
 Stands old new (D + 1) k path := by
 obtain ⟨runs, x, y, htrace, hpath, hk, hcount⟩ := h
 exact ⟨runs, x, y, htrace, hpath, hk, by omega⟩

theorem Stands.bounds {path : DiffPath} (h : Stands old new D k path) :
 -1 ≤ path.oldPos ∧ path.oldPos + 1 ≤ old.length ∧ 0 ≤ path.oldPos + 1 - k
  ∧ path.oldPos + 1 - k ≤ new.length := by
 obtain ⟨runs, x, y, htrace, rfl, hk, -⟩ := h
 have := htrace.oldLe
 have := htrace.newLe
 show -1 ≤ (x : Int) - 1 ∧ (x : Int) - 1 + 1 ≤ old.length ∧ 0 ≤ (x : Int) - 1 + 1 - k
  ∧ (x : Int) - 1 + 1 - k ≤ new.length
 omega

variable {removePath addPath : Option DiffPath}

theorem canRemoveTo_eq (h : ∀ p ∈ removePath, p.oldPos + 1 < old.length) :
 canRemoveTo old removePath = removePath.isSome := by
 cases removePath with
 | none => rfl
 | some p =>
  have := h p rfl
  simpa [canRemoveTo] using this

theorem canAddTo_eq (hstands : ∀ p ∈ addPath, Stands old new D (k + 1) p)
 (h : ∀ p ∈ addPath, p.oldPos - (k + 1) + 1 < new.length) :
 canAddTo new k addPath = addPath.isSome := by
 cases addPath with
 | none => rfl
 | some p =>
  have := h p rfl
  have := (hstands p rfl).bounds
  simp only [canAddTo, Option.any_some, Option.isSome_some, Bool.and_eq_true, decide_eq_true_eq]
  omega

/-- **The path to go on from** is one edit further than both, and there is one if either is. -/
theorem branch_spec
 (hremove : ∀ p ∈ removePath, Stands old new D (k - 1) p ∧ p.oldPos + 1 < old.length)
 (hadd : ∀ p ∈ addPath, Stands old new D (k + 1) p ∧ p.oldPos - (k + 1) + 1 < new.length)
 (hsome : ¬ (addPath = none ∧ removePath = none)) :
 ∃ runs x y, branch addPath.isSome removePath.isSome addPath removePath = some (pathOf runs x)
  ∧ Trace old new runs x y ∧ (x : Int) - y = k ∧ editCount runs ≤ D + 1
  ∧ (∀ last ∈ runs.getLast?, last.kind ≠ .common)
  ∧ (∀ p ∈ removePath, p.oldPos + 2 ≤ x) ∧ ∀ p ∈ addPath, p.oldPos + 1 ≤ x := by
 -- either path, one edit further
 have hremoved : ∀ p ∈ removePath, ∃ runs x y, addToPath p false true 1 = pathOf runs x
  ∧ Trace old new runs x y ∧ (x : Int) - y = k ∧ editCount runs ≤ D + 1
  ∧ (∀ last ∈ runs.getLast?, last.kind ≠ .common) ∧ p.oldPos + 2 = x := by
  intro p hp
  obtain ⟨⟨runs, x, y, htrace, rfl, hk, hcount⟩, hlt⟩ := hremove p hp
  have hx : (x : Int) - 1 + 1 < old.length := hlt
  obtain ⟨runs', htrace', hcount', hlast, hpath⟩ := htrace.remove (by omega)
  refine ⟨runs', x + 1, y, hpath, htrace', by omega, by omega, hlast, ?_⟩
  show (x : Int) - 1 + 2 = ((x + 1 : Nat) : Int)
  omega
 have hadded : ∀ p ∈ addPath, ∃ runs x y, addToPath p true false 0 = pathOf runs x
  ∧ Trace old new runs x y ∧ (x : Int) - y = k ∧ editCount runs ≤ D + 1
  ∧ (∀ last ∈ runs.getLast?, last.kind ≠ .common) ∧ p.oldPos + 1 = x := by
  intro p hp
  obtain ⟨⟨runs, x, y, htrace, rfl, hk, hcount⟩, hlt⟩ := hadd p hp
  have hy : (x : Int) - 1 - (k + 1) + 1 < new.length := hlt
  obtain ⟨runs', htrace', hcount', hlast, hpath⟩ := htrace.add (by omega)
  refine ⟨runs', x, y + 1, hpath, htrace', by omega, by omega, hlast, ?_⟩
  show (x : Int) - 1 + 1 = (x : Int)
  omega
 cases removePath with
 | none =>
  cases addPath with
  | none => exact absurd ⟨rfl, rfl⟩ hsome
  | some a =>
   obtain ⟨runs, x, y, hpath, htrace, hk, hcount, hlast, hx⟩ := hadded a rfl
   refine ⟨runs, x, y, by rw [← hpath]; rfl, htrace, hk, hcount, hlast, by simp, ?_⟩
   rintro p ⟨⟩
   omega
 | some r =>
  obtain ⟨runs, x, y, hpath, htrace, hk, hcount, hlast, hx⟩ := hremoved r rfl
  cases addPath with
  | none =>
   refine ⟨runs, x, y, by rw [← hpath]; rfl, htrace, hk, hcount, hlast, ?_, by simp⟩
   rintro p ⟨⟩
   omega
  | some a =>
   by_cases hbehind : r.oldPos < a.oldPos
   · obtain ⟨runs, x, y, hpath, htrace, hk, hcount, hlast, hx⟩ := hadded a rfl
     refine ⟨runs, x, y, ?_, htrace, hk, hcount, hlast, ?_, ?_⟩
     · rw [← hpath]
       simp [branch, isBehind, hbehind]
     · rintro p ⟨⟩
       omega
     · rintro p ⟨⟩
       omega
   · refine ⟨runs, x, y, ?_, htrace, hk, hcount, hlast, ?_, ?_⟩
     · rw [← hpath]
       simp [branch, isBehind, hbehind]
     · rintro p ⟨⟩
       omega
     · rintro p ⟨⟩
       omega

/-! ## Bounds -/

/-- Every other diagonal between the bounds, and one further out. -/
structure Level (D : Nat) (low high : Option Int) (k : Int) : Prop where
 parity : (k - D) % 2 = 0
 ge : -(D : Int) ≤ k
 le : k ≤ D
 low : ∀ b ∈ low, b - 1 ≤ k
 high : ∀ b ∈ high, k ≤ b + 1

/-- A path at the end of a text is beyond the bound on its side. -/
structure Beyond (old new : List Line) (low high : Option Int) (k : Int)
 (path : Option DiffPath) : Prop where
 old : ∀ p ∈ path, p.oldPos + 1 = old.length → ∃ b ∈ high, b < k
 new : ∀ p ∈ path, p.oldPos - k + 1 = new.length → ∃ b ∈ low, k < b

/-- A lower bound after so many edits. It does not pass the diagonal of the ends. -/
structure LowBound (old new : List Line) (D : Nat) (b : Int) : Prop where
 parity : (b - D) % 2 = 1
 gt : -(D : Int) < b
 le : b ≤ D + 1
 goal : b ≤ (old.length : Int) - new.length

/-- An upper bound after so many edits. -/
structure HighBound (old new : List Line) (D : Nat) (b : Int) : Prop where
 parity : (b - D) % 2 = 1
 ge : -(D : Int) - 1 ≤ b
 lt : b < D
 goal : (old.length : Int) - new.length ≤ b

/-- The path that set a lower bound. -/
def LowPath (new : List Line) (best : List (Option DiffPath)) (offset b : Int) : Prop :=
 ∃ p, entryAt best offset (b - 1) = some p ∧ p.oldPos - (b - 1) + 1 = new.length

/-- The path that set an upper bound. -/
def HighPath (old : List Line) (best : List (Option DiffPath)) (offset b : Int) : Prop :=
 ∃ p, entryAt best offset (b + 1) = some p ∧ p.oldPos + 1 = old.length

/-- The lowest diagonal of the next round. -/
def lowest (D : Nat) (low : Option Int) : Int := low.elim (-(D : Int) - 1) id

/-- What is in the table, whatever the round. -/
structure BestHolds (old new : List Line) (offset : Int) (D : Nat) (best : List (Option DiffPath)) :
 Prop where
 fits : Fits best offset
 stands : ∀ j p, -offset ≤ j → j ≤ offset → entryAt best offset j = some p → Stands old new D j p
 outside : ∀ j, -offset ≤ j → j ≤ offset → j < -(D : Int) ∨ D < j → entryAt best offset j = none

/-- Between two rounds: every diagonal of the level has the furthest path of `D` edits. -/
structure Ready (old new : List Line) (offset : Int) (D : Nat) (low high : Option Int)
 (best : List (Option DiffPath)) : Prop where
 holds : BestHolds old new offset D best
 covers : ∀ j, Level D low high j → Covers old new D j (entryAt best offset j)
 beyond : ∀ j, Level D low high j → Beyond old new low high j (entryAt best offset j)
 lowBound : ∀ b ∈ low, LowBound old new D b ∧ LowPath new best offset b
 highBound : ∀ b ∈ high, HighBound old new D b ∧ HighPath old best offset b

/-- Within the round of `D + 1` edits, in front of diagonal `k`. Ahead of it stand the paths of
`D` edits, behind it the new ones. -/
structure Round (old new : List Line) (offset : Int) (D : Nat) (low high : Option Int) (k : Int)
 (search : DiffSearch) : Prop where
 holds : BestHolds old new offset (D + 1) search.best
 parity : (k - D) % 2 = 1
 start : lowest D low ≤ k
 lowBound : ∀ b ∈ low, LowBound old new D b
 highBound : ∀ b ∈ high, HighBound old new D b
 ahead : ∀ j, Level D low high j → k - 1 ≤ j → Covers old new D j (entryAt search.best offset j)
   ∧ Beyond old new low high j (entryAt search.best offset j)
   ∧ ∀ p ∈ entryAt search.best offset j, Stands old new D j p
 lowPath : ∀ b ∈ low, k = b → LowPath new search.best offset b
 highPath : ∀ b ∈ high, k ≤ b → HighPath old search.best offset b
 behind : ∀ j : Int, (j - D) % 2 = 1 → lowest D low ≤ j → j < k →
  Covers old new (D + 1) j (entryAt search.best offset j)
   ∧ Beyond old new search.minDiagonal search.maxDiagonal j (entryAt search.best offset j)
 /-- The lower bound is set at the first diagonal, if it was set before. -/
 minDiagonal : (k = lowest D low ∧ (search.minDiagonal = low ∨ search.minDiagonal = none))
  ∨ (lowest D low < k ∧ low = none ∧ search.minDiagonal = none)
  ∨ ∃ b, search.minDiagonal = some b ∧ LowBound old new (D + 1) b ∧ lowest D low < b ∧ b < k
   ∧ LowPath new search.best offset b
 /-- The upper bound is set at the diagonal of the old one at the latest. -/
 maxDiagonal : ((∀ b ∈ high, k ≤ b) ∧ (search.maxDiagonal = high ∨ search.maxDiagonal = none))
  ∨ ∃ b, search.maxDiagonal = some b ∧ HighBound old new (D + 1) b ∧ lowest D low ≤ b + 1
   ∧ b + 1 < k ∧ HighPath old search.best offset b

variable {low high : Option Int} {search : DiffSearch}

theorem lowest_le (h : ∀ b ∈ low, LowBound old new D b) :
 -(D : Int) - 1 ≤ lowest D low ∧ ∀ b ∈ low, b = lowest D low := by
 cases low with
 | none => exact ⟨by simp [lowest], by simp⟩
 | some b =>
  have := (h b rfl).gt
  exact ⟨by simp only [lowest, Option.elim_some, id]; omega, by simp [lowest]⟩

section

variable (h : Round old new offset D low high k search)

include h

theorem Round.guard
 (hguard : ∀ b ∈ search.maxDiagonal, k ≤ b) :
 (∀ b ∈ high, k ≤ b) ∧ (search.maxDiagonal = high ∨ search.maxDiagonal = none) := by
 rcases h.maxDiagonal with hsame | ⟨b, hb, -, -, hlt, -⟩
 · exact hsame
 · have := hguard b hb
   omega

theorem Round.minDiagonal_le :
 ∀ b ∈ search.minDiagonal, b ≤ k := by
 intro b hb
 have hstart := h.start
 obtain ⟨-, hlow⟩ := lowest_le h.lowBound
 rcases h.minDiagonal with ⟨-, hsame | hnone⟩ | ⟨-, -, hnone⟩ | ⟨b', hb', -, -, hlt, -⟩
 · have := hlow b (hsame ▸ hb)
   omega
 · exact absurd (hnone ▸ hb) (by simp)
 · exact absurd (hnone ▸ hb) (by simp)
 · obtain rfl : b' = b := Option.some.inj (hb'.symm.trans hb)
   omega

theorem Round.around (hk : k ≤ D + 1)
 (hhigh : ∀ b ∈ high, k ≤ b) (hoffset : (D : Int) + 2 ≤ offset) {j : Int}
 (hj : j = k - 1 ∨ j = k + 1) :
 Covers old new D j (entryAt search.best offset j)
  ∧ Beyond old new low high j (entryAt search.best offset j)
  ∧ ∀ p ∈ entryAt search.best offset j, Stands old new D j p := by
 obtain ⟨hlowest, hlow⟩ := lowest_le h.lowBound
 have hstart := h.start
 have hparity := h.parity
 by_cases hin : -(D : Int) ≤ j ∧ j ≤ D
 · refine h.ahead j ⟨by omega, hin.1, hin.2, fun b hb => ?_, fun b hb => ?_⟩ (by omega)
   · have := hlow b hb
     omega
   · have := hhigh b hb
     omega
 · rw [h.holds.outside j (by omega) (by omega) (by omega)]
   refine ⟨fun x y hreach hdiag => ?_, ⟨by simp, by simp⟩, by simp⟩
   have := hreach.bounds
   omega

end

/-- **A diagonal passed.** What the round keeps of a diagonal: its path, if it has one, is as far
as any, and bounds the diagonals if it is at the end of a text. -/
theorem Round.advance (h : Round old new offset D low high k search) (hk : k ≤ D + 1)
 (hguard : ∀ b ∈ search.maxDiagonal, k ≤ b) (hoffset : (D : Int) + 2 ≤ offset) {path : Option DiffPath}
 {after : DiffSearch} (hfits : Fits after.best offset)
 (hentry : ∀ j, -offset ≤ j → entryAt after.best offset j
  = if j = k then path else if j = k - 1 then none else entryAt search.best offset j)
 (hstands : ∀ p ∈ path, Stands old new (D + 1) k p) (hcovers : Covers old new (D + 1) k path)
 (hold : (∃ p ∈ path, p.oldPos + 1 = old.length) ∧ after.maxDiagonal = some (k - 1)
  ∧ (old.length : Int) - new.length ≤ k - 1
  ∨ (∀ p ∈ path, p.oldPos + 1 ≠ old.length) ∧ after.maxDiagonal = search.maxDiagonal)
 (hnew : (∃ p ∈ path, p.oldPos - k + 1 = new.length) ∧ after.minDiagonal = some (k + 1)
  ∧ k + 1 ≤ (old.length : Int) - new.length
  ∨ (∀ p ∈ path, p.oldPos - k + 1 ≠ new.length) ∧ after.minDiagonal = search.minDiagonal)
 (holdForced : k ∈ high → ∃ p ∈ path, p.oldPos + 1 = old.length)
 (hnewForced : k ∈ low → ∃ p ∈ path, p.oldPos - k + 1 = new.length) :
 Round old new offset D low high (k + 2) after := by
 obtain ⟨hlowest, hlow⟩ := lowest_le h.lowBound
 have hstart := h.start
 have hparity := h.parity
 have hk' : entryAt after.best offset k = path := by rw [hentry k (by omega), if_pos rfl]
 have hother : ∀ j, -offset ≤ j → j ≠ k → j ≠ k - 1 →
  entryAt after.best offset j = entryAt search.best offset j := fun j hj hne hne' => by
  rw [hentry j hj, if_neg hne, if_neg hne']
 constructor
 case holds =>
  refine ⟨hfits, fun j p hj hj' hp => ?_, fun j hj hj' hout => ?_⟩
  · rw [hentry j hj] at hp
    split at hp
    next hjk =>
     exact hjk ▸ hstands p hp
    · split at hp
      · simp at hp
      · exact h.holds.stands j p hj hj' hp
  · rw [hentry j hj]
    split
    · omega
    · split
      · rfl
      · exact h.holds.outside j hj hj' hout
 case parity => omega
 case start => omega
 case lowBound => exact h.lowBound
 case highBound => exact h.highBound
 case ahead =>
  intro j hlevel hj
  rw [hother j (by omega) (by omega) (by omega)]
  exact h.ahead j hlevel (by omega)
 case lowPath =>
  intro b hb hkb
  have := hlow b hb
  omega
 case highPath =>
  intro b hb hkb
  obtain ⟨p, hp, hend⟩ := h.highPath b hb (by omega)
  exact ⟨p, by rw [hother _ (by omega) (by omega) (by omega), hp], hend⟩
 case behind =>
  intro j hjparity hjlow hjk
  rcases Int.lt_or_eq_of_le (by omega : j ≤ k) with hlt | rfl
  · rw [hother j (by omega) (by omega) (by omega)]
    obtain ⟨hcov, hbeyond⟩ := h.behind j hjparity hjlow hlt
    refine ⟨hcov, ⟨fun p hp hend => ?_, fun p hp hend => ?_⟩⟩
    · -- no upper bound is behind a diagonal that is looked at
      obtain ⟨b, hb, hbj⟩ := hbeyond.old p hp hend
      have := hguard b hb
      omega
    · obtain ⟨b, hb, hbj⟩ := hbeyond.new p hp hend
      rcases hnew with ⟨-, hmin, -⟩ | ⟨-, hmin⟩
      · exact ⟨k + 1, hmin, by omega⟩
      · exact ⟨b, by rw [hmin]; exact hb, hbj⟩
  · rw [hk']
    refine ⟨hcovers, ⟨fun p hp hend => ?_, fun p hp hend => ?_⟩⟩
    · rcases hold with ⟨-, hmax, -⟩ | ⟨hne, -⟩
      · exact ⟨j - 1, hmax, by omega⟩
      · exact absurd hend (hne p hp)
    · rcases hnew with ⟨-, hmin, -⟩ | ⟨hne, -⟩
      · exact ⟨j + 1, hmin, by omega⟩
      · exact absurd hend (hne p hp)
 case minDiagonal =>
  rcases hnew with ⟨⟨p, hp, hend⟩, hmin, hgoal⟩ | ⟨hne, hmin⟩
  · refine inr (inr ⟨k + 1, hmin, ⟨by omega, by omega, by omega, hgoal⟩, by omega, by omega,
     p, ?_, ?_⟩)
    · rw [Int.add_sub_cancel, hk']
      exact hp
    · rw [Int.add_sub_cancel]
      exact hend
  rw [hmin]
  rcases h.minDiagonal with ⟨hfirst, hsame⟩ | ⟨-, hnone, hmin'⟩
   | ⟨b, hb, hbound, hlt, hbk, p, hp, hend⟩
  · cases low with
    | none => exact inr (inl ⟨by omega, rfl, hsame.elim id id⟩)
    | some b =>
     have hkb := hlow b rfl
     obtain ⟨p, hp, hend⟩ := hnewForced (by rw [hfirst, ← hkb]; rfl)
     exact absurd hend (hne p hp)
  · exact inr (inl ⟨by omega, hnone, hmin'⟩)
  · refine inr (inr ⟨b, hb, hbound, hlt, by omega, p, ?_, hend⟩)
    rw [hother _ (by omega) (by omega) (by omega), hp]
 case maxDiagonal =>
  obtain ⟨hhigh, hsame⟩ := h.guard hguard
  rcases hold with ⟨⟨p, hp, hend⟩, hmax, hgoal⟩ | ⟨hne, hmax⟩
  · refine inr ⟨k - 1, hmax, ⟨by omega, by omega, by omega, hgoal⟩, by omega, by omega, p, ?_,
     hend⟩
    rw [Int.sub_add_cancel, hk']
    exact hp
  · refine inl ⟨fun b hb => ?_, by rw [hmax]; exact hsame⟩
    have hle := hhigh b hb
    have hbparity := (h.highBound b hb).parity
    rcases Int.lt_or_eq_of_le hle with hlt | rfl
    · omega
    · obtain ⟨p, hp, hend⟩ := holdForced hb
      exact absurd hend (hne p hp)

theorem covers_branch {runs : List DiffRun} {x y : Nat}
 (hremove : Covers old new D (k - 1) removePath) (hadd : Covers old new D (k + 1) addPath)
 (hremoved : ∀ p ∈ removePath, p.oldPos + 2 ≤ x) (hadded : ∀ p ∈ addPath, p.oldPos + 1 ≤ x)
 (hk : (x : Int) - y = k) (hstop : x < old.length → old[x]? ≠ new[y]?) :
 Covers old new (D + 1) k (some (pathOf runs x)) := by
 intro x' y' hreach hk'
 have hfar : x' ≤ x := by
  refine hreach.furthest (fun u v hr hd _ => ?_) (fun u v hr hd _ => ?_) (fun v hd hlt => ?_) hk'
  · obtain ⟨p, hp, hle⟩ := hremove u v hr hd
    have := hremoved p hp
    omega
  · obtain ⟨p, hp, hle⟩ := hadd u v hr hd
    have := hadded p hp
    omega
  · obtain rfl : v = y := by omega
    exact hstop hlt
 exact ⟨_, rfl, by show (x' : Int) - 1 ≤ (x : Int) - 1; omega⟩

theorem covers_none (hremove : Covers old new D (k - 1) none)
 (hadd : Covers old new D (k + 1) none) : Covers old new (D + 1) k none := by
 intro x y hreach hk
 rcases hreach.last with ⟨x', y', h, hd⟩ | ⟨x', y', h, hd⟩
 · obtain ⟨p, hp, -⟩ := hremove x' y' h (by omega)
   simp at hp
 · obtain ⟨p, hp, -⟩ := hadd x' y' h (by omega)
   simp at hp

theorem keepPath_eq (search : DiffSearch) (runs : List DiffRun) (x y : Nat)
 (hfits : Fits search.best offset)
 (hlow : -offset ≤ k) (hhigh : k ≤ offset) :
 ∃ best', keepPath new old offset search k (pathOf runs x) ((y : Int) - 1)
  = some { best := best'
           minDiagonal := if new.length ≤ y then
            some (search.minDiagonal.elim (k + 1) fun b => max b (k + 1))
            else search.minDiagonal
           maxDiagonal := if old.length ≤ x then
            some (search.maxDiagonal.elim (k - 1) fun b => min b (k - 1))
            else search.maxDiagonal }
  ∧ Fits best' offset
  ∧ ∀ j, -offset ≤ j → entryAt best' offset j
   = if j = k then some (pathOf runs x) else entryAt search.best offset j := by
 obtain ⟨best', hset, hfits', hentry⟩ := slotSet_eq hfits hlow hhigh (some (pathOf runs x))
 refine ⟨best', ?_, hfits', hentry⟩
 have hx : ((pathOf runs x).oldPos + 1 ≥ old.length) ↔ old.length ≤ x := by
  show ((x : Int) - 1 + 1 ≥ old.length) ↔ old.length ≤ x
  omega
 have hy : ((y : Int) - 1 + 1 ≥ new.length) ↔ new.length ≤ y := by omega
 rw [keepPath, hset]
 simp only [hx, hy, Option.bind_eq_bind, Option.bind_some]

/-- **One diagonal.** It finds a path to both ends, or the round goes on. -/
theorem Round.step (h : Round old new offset D low high k search) (hk : k ≤ D + 1)
 (hguard : ∀ b ∈ search.maxDiagonal, k ≤ b) (hoffset : (D : Int) + 2 ≤ offset) :
 (∃ runs, diagonalStep new old offset search k = some (.found (pathOf runs old.length))
  ∧ Trace old new runs old.length new.length ∧ editCount runs ≤ D + 1)
  ∨ ∃ after, diagonalStep new old offset search k = some (.next after)
   ∧ Round old new offset D low high (k + 2) after := by
 obtain ⟨hlowest, hlow⟩ := lowest_le h.lowBound
 have hstart := h.start
 obtain ⟨hhigh, hsame⟩ := h.guard hguard
 -- what is read
 have hgetRemove := slotGet_eq h.holds.fits (by omega : -offset ≤ k - 1) (by omega)
 obtain ⟨best₁, hset₁, hfits₁, hentry₁⟩ :=
  slotSet_eq h.holds.fits (by omega : -offset ≤ k - 1) (by omega) none
 have hgetAdd := slotGet_eq hfits₁ (by omega : -offset ≤ k + 1) (by omega)
 rw [hentry₁ (k + 1) (by omega), if_neg (by omega)] at hgetAdd
 obtain ⟨hcovRemove, hbeyondRemove, hstandsRemove⟩ :=
  h.around hk hhigh hoffset (inl rfl : k - 1 = k - 1 ∨ _)
 obtain ⟨hcovAdd, hbeyondAdd, hstandsAdd⟩ := h.around hk hhigh hoffset (inr rfl : k + 1 = k - 1 ∨ _)
 have hhighPath : ∀ b ∈ high, k = b →
  ∃ p ∈ entryAt search.best offset (k + 1), p.oldPos + 1 = old.length := by
  rintro b hb rfl
  exact h.highPath k hb (Int.le_refl k)
 have hlowPath : ∀ b ∈ low, k = b →
  ∃ p ∈ entryAt search.best offset (k - 1), p.oldPos - (k - 1) + 1 = new.length := by
  rintro b hb rfl
  exact h.lowPath k hb rfl
 generalize hremovePath : entryAt search.best offset (k - 1) = removePath at *
 generalize haddPath : entryAt search.best offset (k + 1) = addPath at *
 have hremove : ∀ p ∈ removePath, Stands old new D (k - 1) p ∧ p.oldPos + 1 < old.length := by
  intro p hp
  refine ⟨hstandsRemove p hp, ?_⟩
  have hbounds := (hstandsRemove p hp).bounds
  by_contra hend
  obtain ⟨b, hb, hlt⟩ := hbeyondRemove.old p hp (by omega)
  have := hhigh b hb
  omega
 have hadd : ∀ p ∈ addPath, Stands old new D (k + 1) p ∧ p.oldPos - (k + 1) + 1 < new.length := by
  intro p hp
  refine ⟨hstandsAdd p hp, ?_⟩
  have hbounds := (hstandsAdd p hp).bounds
  by_contra hend
  obtain ⟨b, hb, hlt⟩ := hbeyondAdd.new p hp (by omega)
  have := hlow b hb
  omega
 have hcanRemove := canRemoveTo_eq fun p hp => (hremove p hp).2
 have hcanAdd := canAddTo_eq (fun p hp => (hadd p hp).1) fun p hp => (hadd p hp).2
 rw [diagonalStep]
 simp only [hgetRemove, hset₁, hgetAdd, hcanRemove, hcanAdd, Option.bind_eq_bind, Option.bind_some]
 by_cases hnone : addPath = none ∧ removePath = none
 · obtain ⟨rfl, rfl⟩ := hnone
   obtain ⟨best₂, hset₂, hfits₂, hentry₂⟩ :=
    slotSet_eq hfits₁ (by omega : -offset ≤ k) (by omega) none
   have hentry : ∀ j, -offset ≤ j → entryAt best₂ offset j
    = if j = k then none else if j = k - 1 then none else entryAt search.best offset j :=
    fun j hj => by rw [hentry₂ j hj, hentry₁ j hj]
   refine inr ⟨{ search with best := best₂ }, by simp [hset₂], ?_⟩
   refine h.advance hk hguard hoffset hfits₂ hentry (by simp) (covers_none hcovRemove hcovAdd)
    (inr ⟨by simp, rfl⟩) (inr ⟨by simp, rfl⟩) (fun hb => ?_) fun hb => ?_
   · obtain ⟨p, hp, -⟩ := hhighPath k hb rfl
     simp at hp
   · obtain ⟨p, hp, -⟩ := hlowPath k hb rfl
     simp at hp
 obtain ⟨runs, x, y, hbranch, htrace, hdiag, hcount, hlast, hremoved, hadded⟩ :=
  branch_spec hremove hadd hnone
 obtain ⟨n, runs', hextract, htrace', hcount', hstop⟩ := htrace.extractCommon hlast
 rw [hdiag] at hextract
 have hsome : (!addPath.isSome && !removePath.isSome) = false := by
  cases addPath with
  | some a => rfl
  | none =>
   cases removePath with
   | some r => rfl
   | none => exact absurd ⟨rfl, rfl⟩ hnone
 rw [hsome]
 simp only [Bool.false_eq_true, if_false, hbranch, hextract, Option.bind_some]
 have hx := htrace'.oldLe
 have hy := htrace'.newLe
 generalize hxn : x + n = x' at *
 generalize hyn : y + n = y' at *
 have hendOld : ((pathOf runs' x').oldPos + 1 ≥ old.length) ↔ old.length ≤ x' := by
  show ((x' : Int) - 1 + 1 ≥ old.length) ↔ old.length ≤ x'
  omega
 have hendNew : (((y' : Nat) : Int) - 1 + 1 ≥ new.length) ↔ new.length ≤ y' := by omega
 simp only [hendOld, hendNew]
 by_cases hboth : old.length ≤ x' ∧ new.length ≤ y'
 · obtain rfl : x' = old.length := by omega
   obtain rfl : y' = new.length := by omega
   exact inl ⟨runs', by rw [if_pos hboth], htrace', by omega⟩
 rw [if_neg hboth]
 obtain ⟨best₂, hkeep, hfits₂, hentry₂⟩ := keepPath_eq { search with best := best₁ } runs' x' y'
  hfits₁ (by omega : -offset ≤ k) (by omega)
 rw [hkeep]
 have hentry : ∀ j, -offset ≤ j → entryAt best₂ offset j
  = if j = k then some (pathOf runs' x') else if j = k - 1 then none
   else entryAt search.best offset j := fun j hj => by rw [hentry₂ j hj, hentry₁ j hj]
 have hdiag' : (x' : Int) - y' = k := by omega
 have holdEnd : ∀ p ∈ some (pathOf runs' x'), p.oldPos + 1 = old.length ↔ old.length ≤ x' := by
  rintro p ⟨⟩
  show (x' : Int) - 1 + 1 = old.length ↔ old.length ≤ x'
  omega
 have hnewEnd : ∀ p ∈ some (pathOf runs' x'),
  p.oldPos - k + 1 = new.length ↔ new.length ≤ y' := by
  rintro p ⟨⟩
  show (x' : Int) - 1 - k + 1 = new.length ↔ new.length ≤ y'
  omega
 have hmax : (search.maxDiagonal.elim (k - 1) fun b => min b (k - 1)) = k - 1 := by
  cases hbound : search.maxDiagonal with
  | none => rfl
  | some b =>
   have := hguard b hbound
   exact Int.min_eq_right (by omega)
 have hmin : (search.minDiagonal.elim (k + 1) fun b => max b (k + 1)) = k + 1 := by
  cases hbound : search.minDiagonal with
  | none => rfl
  | some b =>
   have := h.minDiagonal_le b hbound
   exact Int.max_eq_right (by omega)
 refine inr ⟨_, rfl, ?_⟩
 refine h.advance hk hguard hoffset hfits₂ hentry ?_ ?_ ?_ ?_ (fun hb => ?_) fun hb => ?_
 · rintro p ⟨⟩
   exact ⟨runs', x', y', htrace', rfl, hdiag', by omega⟩
 · exact covers_branch hcovRemove hcovAdd (fun p hp => by have := hremoved p hp; omega)
    (fun p hp => by have := hadded p hp; omega) hdiag' hstop
 · by_cases hend : old.length ≤ x'
   · exact inl ⟨⟨_, rfl, (holdEnd _ rfl).mpr hend⟩, by rw [if_pos hend, hmax], by omega⟩
   · exact inr ⟨fun p hp => mt (holdEnd p hp).mp hend, by rw [if_neg hend]⟩
 · by_cases hend : new.length ≤ y'
   · exact inl ⟨⟨_, rfl, (hnewEnd _ rfl).mpr hend⟩, by rw [if_pos hend, hmin], by omega⟩
   · exact inr ⟨fun p hp => mt (hnewEnd p hp).mp hend, by rw [if_neg hend]⟩
 · -- the path that set the bound goes on along the end
   obtain ⟨p, hp, hend⟩ := hhighPath k hb rfl
   have := hadded p hp
   exact ⟨_, rfl, (holdEnd _ rfl).mpr (by omega)⟩
 · obtain ⟨p, hp, hend⟩ := hlowPath k hb rfl
   have := hremoved p hp
   exact ⟨_, rfl, (hnewEnd _ rfl).mpr (by omega)⟩

end Bake.Tools
