import Bake.Tools.LineDiffSearch

/-!
# The rounds of a line diff

A round comes to a path to both ends or leaves the table ready for the next (`Round.loop`), and
where no path so short was found there is none. Removing all old lines and adding all new ones is
a way, so some round finds one, and the first that does finds a shortest: `diffLines_runs`.
-/

namespace Bake.Tools

open Option

open EditScript (Reach Script)

variable {old new : List Line} {best : List (Option DiffPath)} {offset k : Int} {D : Nat}
 {low high : Option Int} {search : DiffSearch}

/-! ## One round -/

theorem Ready.round (h : Ready old new offset D low high search.best)
 (hoffset : (D : Int) + 2 ≤ offset)
 (hmin : search.minDiagonal = low ∨ search.minDiagonal = none)
 (hmax : search.maxDiagonal = high ∨ search.maxDiagonal = none) :
 Round old new offset D low high (lowest D low) search := by
 have hlows : ∀ b ∈ low, LowBound old new D b := fun b hb => (h.lowBound b hb).1
 have hhighs : ∀ b ∈ high, HighBound old new D b := fun b hb => (h.highBound b hb).1
 obtain ⟨hlowest, hlow⟩ := lowest_le hlows
 constructor
 case holds =>
  refine ⟨h.holds.fits, fun j p hj hj' hp => (h.holds.stands j p hj hj' hp).mono,
   fun j hj hj' hout => h.holds.outside j hj hj' (by omega)⟩
 case parity =>
  cases low with
  | none => simp only [lowest, elim_none]; omega
  | some b => exact (hlows b rfl).parity
 case start => exact Int.le_refl _
 case lowBound => exact hlows
 case highBound => exact hhighs
 case ahead =>
  intro j hlevel _
  have := hlevel.ge
  have := hlevel.le
  exact ⟨h.covers j hlevel, h.beyond j hlevel,
   fun p hp => h.holds.stands j p (by omega) (by omega) hp⟩
 case lowPath => exact fun b hb _ => (h.lowBound b hb).2
 case highPath => exact fun b hb _ => (h.highBound b hb).2
 case behind =>
  intro j _ hjlow hjk
  omega
 case minDiagonal => exact Or.inl ⟨rfl, hmin⟩
 case maxDiagonal =>
  refine Or.inl ⟨fun b hb => ?_, hmax⟩
  have hbound := hhighs b hb
  cases low with
  | none =>
   have := hbound.ge
   simp only [lowest, elim_none]
   omega
  | some l =>
   have := (hlows l rfl).goal
   have := hbound.goal
   simp only [lowest, elim_some, id]
   omega

theorem Round.lowest_guard (h : Round old new offset D low high (lowest D low) search) :
 lowest D low ≤ D + 1 ∧ ∀ b ∈ search.maxDiagonal, lowest D low ≤ b := by
 refine ⟨?_, fun b hb => ?_⟩
 · cases low with
   | none => simp only [lowest, elim_none]; omega
   | some b => exact (h.lowBound b rfl).le
 · rcases h.maxDiagonal with ⟨hhigh, hsame | hnone⟩ | ⟨b', -, -, hle, hlt, -⟩
   · exact hhigh b (hsame ▸ hb)
   · exact absurd (hnone ▸ hb) (by simp)
   · omega

/-- **The end of a round.** Where no diagonal is left to look at, the table is ready for the next
round, and no way of so many edits comes to both ends. -/
theorem Round.finish (h : Round old new offset D low high k search)
 (hoffset : (D : Int) + 2 ≤ offset)
 (hend : ¬ (k ≤ D + 1 ∧ ∀ b ∈ search.maxDiagonal, k ≤ b)) :
 Ready old new offset (D + 1) search.minDiagonal search.maxDiagonal search.best
  ∧ ¬ Reach old new (D + 1) old.length new.length := by
 obtain ⟨hlowest, hlow⟩ := lowest_le h.lowBound
 have hpassed : lowest D low < k := by
  rcases Int.lt_or_eq_of_le h.start with hlt | heq
  · exact hlt
  · subst heq
    exact absurd h.lowest_guard hend
 have hmin : ∀ b ∈ search.minDiagonal, LowBound old new (D + 1) b ∧ lowest D low < b
  ∧ LowPath new search.best offset b := by
  intro b hb
  rcases h.minDiagonal with ⟨heq, -⟩ | ⟨-, -, hnone⟩ | ⟨b', hb', hbound, hlt, -, hpath⟩
  · omega
  · exact absurd (hnone ▸ hb) (by simp)
  · obtain rfl : b' = b := some.inj (hb'.symm.trans hb)
    exact ⟨hbound, hlt, hpath⟩
 have hmax : ∀ b ∈ search.maxDiagonal, HighBound old new (D + 1) b ∧ b + 1 < k
  ∧ HighPath old search.best offset b := by
  intro b hb
  rcases h.maxDiagonal with ⟨hhigh, hsame | hnone⟩ | ⟨b', hb', hbound, -, hlt, hpath⟩
  · have hle := hhigh b (hsame ▸ hb)
    have := (h.highBound b (hsame ▸ hb)).lt
    refine absurd ⟨by omega, fun c hc => ?_⟩ hend
    obtain rfl : b = c := some.inj (hb.symm.trans hc)
    exact hle
  · exact absurd (hnone ▸ hb) (by simp)
  · obtain rfl : b' = b := some.inj (hb'.symm.trans hb)
    exact ⟨hbound, hlt, hpath⟩
 -- a diagonal of the next level has been passed
 have hbehind : ∀ j, Level (D + 1) search.minDiagonal search.maxDiagonal j →
  (j - D) % 2 = 1 ∧ lowest D low ≤ j ∧ j < k := by
  intro j hlevel
  have hge := hlevel.ge
  have hle := hlevel.le
  have hparity := hlevel.parity
  refine ⟨by omega, ?_, ?_⟩
  · rcases h.minDiagonal with ⟨heq, -⟩ | ⟨-, hnone, -⟩ | ⟨b, hb, -, hlt, -⟩
    · omega
    · rw [hnone]
      simp only [lowest, elim_none]
      omega
    · have := hlevel.low b hb
      omega
  · by_contra hjk
    refine hend ⟨by omega, fun b hb => ?_⟩
    have := hlevel.high b hb
    have := (hmax b hb).2.1
    omega
 refine ⟨⟨h.holds, fun j hlevel => ?_, fun j hlevel => ?_, fun b hb => ⟨(hmin b hb).1, (hmin b hb).2.2⟩,
  fun b hb => ⟨(hmax b hb).1, (hmax b hb).2.2⟩⟩, fun hreach => ?_⟩
 · obtain ⟨hparity, hge, hlt⟩ := hbehind j hlevel
   exact (h.behind j hparity hge hlt).1
 · obtain ⟨hparity, hge, hlt⟩ := hbehind j hlevel
   exact (h.behind j hparity hge hlt).2
 -- the diagonal of the ends has been passed, and its path is at the end of the old lines
 have hbounds := hreach.bounds
 have hgoal : lowest D low ≤ (old.length : Int) - new.length := by
  cases low with
  | none => simp only [lowest, elim_none]; omega
  | some b => exact (h.lowBound b rfl).goal
 have hlt : (old.length : Int) - new.length < k := by
  by_contra hle
  refine hend ⟨by omega, fun b hb => ?_⟩
  have := (hmax b hb).1.goal
  omega
 obtain ⟨hcovers, hbeyond⟩ := h.behind ((old.length : Int) - new.length) (by omega) hgoal hlt
 obtain ⟨p, hp, hfar⟩ := hcovers _ _ hreach rfl
 have hstands := (h.holds.stands _ p (by omega) (by omega) hp).bounds
 obtain ⟨b, hb, hbgoal⟩ := hbeyond.old p hp (by omega)
 have := (hmax b hb).1.goal
 omega

/-- **A round** finds a way to both ends, or there is none of so many edits. -/
theorem Round.loop (h : Round old new offset D low high k search)
 (hoffset : (D : Int) + 2 ≤ offset) :
 (∃ runs, diagonalLoop new old offset ((D : Int) + 1) search k
  = some (.inl (pathOf runs old.length))
  ∧ Trace old new runs old.length new.length ∧ editCount runs ≤ D + 1)
  ∨ ∃ after, diagonalLoop new old offset ((D : Int) + 1) search k = some (.inr after)
   ∧ Ready old new offset (D + 1) after.minDiagonal after.maxDiagonal after.best
   ∧ ¬ Reach old new (D + 1) old.length new.length := by
 induction hleft : ((D : Int) + 2 - k).toNat using Nat.strongRecOn generalizing k search with
 | ind left ih =>
  have hguard : (k ≤ search.maxDiagonal.elim ((D : Int) + 1) fun b => min b ((D : Int) + 1))
   ↔ k ≤ D + 1 ∧ ∀ b ∈ search.maxDiagonal, k ≤ b := by
   cases search.maxDiagonal with
   | none => simp
   | some b => simp [and_comm]
  rw [diagonalLoop]
  by_cases hin : k ≤ D + 1 ∧ ∀ b ∈ search.maxDiagonal, k ≤ b
  · rw [dif_pos (hguard.mpr hin)]
    rcases h.step hin.1 hin.2 hoffset with ⟨runs, hstep, htrace, hcount⟩ | ⟨after, hstep, hround⟩
    · rw [hstep]
      exact Or.inl ⟨runs, rfl, htrace, hcount⟩
    · rw [hstep]
      exact ih _ (by omega) hround rfl
  · rw [dif_neg (mt hguard.mp hin)]
    obtain ⟨hready, hnone⟩ := h.finish hoffset hin
    exact Or.inr ⟨search, rfl, hready, hnone⟩

/-! ## All rounds -/

/-- Runs from one text to the other, no more of them edits than any way takes. -/
structure Shortest (old new : List Line) (runs : List DiffRun) : Prop where
 trace : Trace old new runs old.length new.length
 least : ∀ d, Reach old new d old.length new.length → editCount runs ≤ d

theorem reach_all (old new : List Line) :
 Reach old new (old.length + new.length) old.length new.length := by
 have := ((Script.removeAll old).append (Script.addAll new)).reach
 rwa [List.append_nil, List.nil_append] at this

variable {runs : List DiffRun}

theorem shortest_of_round (htrace : Trace old new runs old.length new.length)
 (hcount : editCount runs ≤ D + 1) (hnone : ∀ d ≤ D, ¬ Reach old new d old.length new.length) :
 Shortest old new runs := by
 refine ⟨htrace, fun d hd => ?_⟩
 by_contra hlt
 exact hnone d (by omega) hd

/-- **The rounds find a shortest way.** -/
theorem editLoop_eq (hoffset : offset = (new.length : Int) + old.length + 1)
 (hready : Ready old new offset D search.minDiagonal search.maxDiagonal search.best)
 (hnone : ∀ d ≤ D, ¬ Reach old new d old.length new.length) :
 ∃ runs, editLoop new old offset ((new.length : Int) + old.length) search ((D : Int) + 1)
  = some (runs.map DiffRun.change) ∧ Shortest old new runs := by
 induction hleft : old.length + new.length - D using Nat.strongRecOn generalizing D search with
 | ind left ih =>
  -- a way of all lines would have been found
  have hD : D < old.length + new.length := by
   by_contra hge
   exact hnone _ (by omega) (reach_all old new)
  have hround := hready.round (by omega) (Or.inl rfl) (Or.inl rfl)
  have hstart : (search.minDiagonal.elim (-((D : Int) + 1)) fun b => max b (-((D : Int) + 1)))
   = lowest D search.minDiagonal := by
   cases hmin : search.minDiagonal with
   | none => simp only [elim_none, lowest]; omega
   | some b =>
    have := (hready.lowBound b hmin).1.gt
    simp only [elim_some, lowest, id]
    omega
  rw [editLoop, if_pos (by omega), hstart]
  rcases hround.loop (by omega) with ⟨runs, hloop, htrace, hcount⟩ | ⟨after, hloop, hready', hno⟩
  · simp only [hloop, bind_eq_bind, bind_some]
    exact ⟨runs, htrace.buildValues, shortest_of_round htrace hcount hnone⟩
  · simp only [hloop, bind_eq_bind, bind_some]
    have hnone' : ∀ d ≤ D + 1, ¬ Reach old new d old.length new.length := by
     intro d hd
     rcases Nat.lt_or_eq_of_le hd with hlt | rfl
     · exact hnone d (by omega)
     · exact hno
    have hless : old.length + new.length - (D + 1) < left := by omega
    exact ih _ hless hready' hnone' rfl

/-! ## The first round -/

/-- The table with the first path alone, and the bounds that path stands for. -/
theorem ready_first {n : Nat} (htrace : Trace old new runs n n) (hcount : editCount runs = 0)
 (hstop : n < old.length → old[n]? ≠ new[n]?) (hends : ¬ (old.length ≤ n ∧ new.length ≤ n))
 (hfits : Fits best offset) (hentry : ∀ j, -offset ≤ j →
  entryAt best offset j = if j = 0 then some (pathOf runs n) else none) :
 Ready old new offset 0 (if new.length ≤ n then some 1 else none)
  (if old.length ≤ n then some (-1) else none) best := by
 have hold := htrace.oldLe
 have hnew := htrace.newLe
 have hat : ∀ j, -offset ≤ j → ∀ p, entryAt best offset j = some p → j = 0 ∧ p = pathOf runs n := by
  intro j hj p hp
  rw [hentry j hj] at hp
  split at hp
  · exact ⟨‹_›, (some.inj hp).symm⟩
  · simp at hp
 have hoffset : 0 ≤ offset := by
  unfold Fits at hfits
  omega
 have hzero : entryAt best offset 0 = some (pathOf runs n) := by
  rw [hentry 0 (by omega), if_pos rfl]
 have hlevel : ∀ {j : Int} {low high : Option Int}, Level 0 low high j → j = 0 := fun h => by
  have := h.ge
  have := h.le
  omega
 constructor
 case holds =>
  refine ⟨hfits, fun j p hj _ hp => ?_, fun j hj _ hout => ?_⟩
  · obtain ⟨rfl, rfl⟩ := hat j hj p hp
    exact ⟨runs, n, n, htrace, rfl, by omega, by omega⟩
  · rw [hentry j hj, if_neg (by omega)]
 case covers =>
  intro j hj
  obtain rfl := hlevel hj
  rw [hzero]
  intro x y hreach _
  have := hreach.furthest_zero hstop
  exact ⟨_, rfl, by show (x : Int) - 1 ≤ (n : Int) - 1; omega⟩
 case beyond =>
  intro j hj
  obtain rfl := hlevel hj
  rw [hzero]
  refine ⟨?_, ?_⟩
  · rintro p ⟨⟩ hend
    have hend : (n : Int) - 1 + 1 = old.length := hend
    exact ⟨-1, by rw [if_pos (by omega)]; rfl, by omega⟩
  · rintro p ⟨⟩ hend
    have hend : (n : Int) - 1 - 0 + 1 = new.length := hend
    exact ⟨1, by rw [if_pos (by omega)]; rfl, by omega⟩
 case lowBound =>
  intro b hb
  split at hb
  · cases hb
    refine ⟨⟨by omega, by omega, by omega, by omega⟩, _, hzero, ?_⟩
    show (n : Int) - 1 - (1 - 1) + 1 = new.length
    omega
  · simp at hb
 case highBound =>
  intro b hb
  split at hb
  · cases hb
    refine ⟨⟨by omega, by omega, by omega, by omega⟩, _, hzero, ?_⟩
    show (n : Int) - 1 + 1 = old.length
    omega
  · simp at hb

/-- Below a first path at the end of the new lines there is nothing to look at. -/
theorem diagonalStep_first {n : Nat} (hn : new.length ≤ n) (hfits : Fits best offset)
 (hoffset : 2 ≤ offset) (hentry : ∀ j, -offset ≤ j →
  entryAt best offset j = if j = 0 then some (pathOf runs n) else none) :
 ∃ best', diagonalStep new old offset { best, minDiagonal := none, maxDiagonal := none } (-1)
  = some (.next { best := best', minDiagonal := none, maxDiagonal := none })
  ∧ Fits best' offset ∧ ∀ j, -offset ≤ j →
   entryAt best' offset j = if j = 0 then some (pathOf runs n) else none := by
 have hget := slotGet_eq hfits (by omega : -offset ≤ -1 - 1) (by omega)
 obtain ⟨best₁, hset₁, hfits₁, hentry₁⟩ :=
  slotSet_eq hfits (by omega : -offset ≤ -1 - 1) (by omega) none
 have hget₁ := slotGet_eq hfits₁ (by omega : -offset ≤ -1 + 1) (by omega)
 obtain ⟨best₂, hset₂, hfits₂, hentry₂⟩ :=
  slotSet_eq hfits₁ (by omega : -offset ≤ -1) (by omega) none
 rw [hentry _ (by omega), if_neg (by omega)] at hget
 rw [hentry₁ _ (by omega), if_neg (by omega), hentry _ (by omega), if_pos (by omega)] at hget₁
 have hcanAdd : canAddTo new (-1) (some (pathOf runs n)) = false := by
  simp only [canAddTo, any_some, Bool.and_eq_false_iff, decide_eq_false_iff_not]
  refine Or.inr ?_
  show ¬ ((n : Int) - 1 - -1 < new.length)
  omega
 refine ⟨best₂, ?_, hfits₂, fun j hj => ?_⟩
 · rw [diagonalStep]
   simp only [hget, hset₁, hget₁, hcanAdd, bind_eq_bind, bind_some]
   simp [canRemoveTo, hset₂]
 · rw [hentry₂ j hj, hentry₁ j hj, hentry j hj]
   by_cases hj0 : j = 0
   · rw [if_neg (by omega), if_neg (by omega)]
   · rw [if_neg hj0]
     split
     · rfl
     · split <;> rfl

theorem diagonalLoop_first {n : Nat} (htrace : Trace old new runs n n) (hcount : editCount runs = 0)
 (hstop : n < old.length → old[n]? ≠ new[n]?) (hends : ¬ (old.length ≤ n ∧ new.length ≤ n))
 (hfits : Fits best offset) (hoffset : 2 ≤ offset) (hentry : ∀ j, -offset ≤ j →
  entryAt best offset j = if j = 0 then some (pathOf runs n) else none) :
 ∃ low high best' start, diagonalLoop new old offset 1
  { best, minDiagonal := none, maxDiagonal := none } (-1)
  = diagonalLoop new old offset 1
   { best := best', minDiagonal := none, maxDiagonal := none } start
  ∧ Round old new offset 0 low high start
   { best := best', minDiagonal := none, maxDiagonal := none } := by
 by_cases hn : new.length ≤ n
 · obtain ⟨best', hstep, hfits', hentry'⟩ := diagonalStep_first hn hfits hoffset hentry
   have hready := ready_first htrace hcount hstop hends hfits' hentry'
   rw [if_pos hn] at hready
   have hround : Round old new offset 0 (some 1) (if old.length ≤ n then some (-1) else none) 1
    { best := best', minDiagonal := none, maxDiagonal := none } :=
    hready.round (by omega) (Or.inr rfl) (Or.inr rfl)
   refine ⟨_, _, best', 1, ?_, hround⟩
   rw [diagonalLoop, dif_pos (by simp), hstep]
   rfl
 · have hready := ready_first htrace hcount hstop hends hfits hentry
   rw [if_neg hn] at hready
   have hround : Round old new offset 0 none (if old.length ≤ n then some (-1) else none) (-1)
    { best, minDiagonal := none, maxDiagonal := none } :=
    hready.round (by omega) (Or.inr rfl) (Or.inr rfl)
   exact ⟨_, _, best, -1, rfl, hround⟩

/-- **The line diff**: it always comes to an end, with the runs of a shortest way. -/
theorem diffLines_runs (oldText newText : List Char) :
 ∃ runs, diffLines oldText newText = some (runs.map DiffRun.change)
  ∧ Shortest (tokenize oldText) (tokenize newText) runs := by
 rw [diffLines]
 generalize tokenize oldText = old
 generalize tokenize newText = new
 obtain ⟨n, runs, hextract, htrace, hcount, hstop⟩ := (trace_nil old new).extractCommon (by simp)
 rw [Nat.zero_add] at hextract htrace hstop
 have hpath : extractCommon { oldPos := -1, last := [] } new old 0
  = some (pathOf runs n, (n : Int) - 1) := hextract
 have hendOld : ((pathOf runs n).oldPos + 1 ≥ old.length) ↔ old.length ≤ n := by
  show ((n : Int) - 1 + 1 ≥ old.length) ↔ old.length ≤ n
  omega
 have hendNew : ((n : Int) - 1 + 1 ≥ new.length) ↔ new.length ≤ n := by omega
 simp only [hpath, hendOld, hendNew, bind_eq_bind, bind_some]
 have hold := htrace.oldLe
 have hnew := htrace.newLe
 have hcount : editCount runs = 0 := hcount
 by_cases hends : old.length ≤ n ∧ new.length ≤ n
 · have hfull : Trace old new runs old.length new.length := by
    have hx : n = old.length := by omega
    have hy : n = new.length := by omega
    rw [← hx, ← hy]
    exact htrace
   rw [if_pos hends]
   exact ⟨runs, hfull.buildValues, hfull, fun d _ => by omega⟩
 rw [if_neg hends]
 generalize hoffset : (new.length : Int) + old.length + 1 = offset
 have hfits : Fits (List.replicate (2 * offset + 1).toNat none) offset := by
  unfold Fits
  rw [List.length_replicate]
  omega
 obtain ⟨best, hset, hfits', hentry⟩ :=
  slotSet_eq hfits (by omega : -offset ≤ 0) (by omega) (some (pathOf runs n))
 have hentry' : ∀ j, -offset ≤ j →
  entryAt best offset j = if j = 0 then some (pathOf runs n) else none := fun j hj => by
  rw [hentry j hj]
  congr 1
  rw [entryAt, List.getElem?_replicate]
  split <;> rfl
 obtain ⟨low, high, best', start, hloop, hround⟩ :=
  diagonalLoop_first htrace hcount hstop hends hfits' (by omega) hentry'
 -- no way without an edit comes to both ends
 have hzero : ¬ Reach old new 0 old.length new.length := by
  intro hreach
  have := hreach.furthest_zero hstop
  have := hreach.bounds
  omega
 simp only [hset, bind_some]
 rw [editLoop, if_pos (by omega)]
 simp only [elim_none, hloop, bind_eq_bind]
 have hround := hround.loop (by omega)
 have hone : ((0 : Nat) : Int) + 1 = 1 := rfl
 rw [hone] at hround
 rcases hround with ⟨runs', hfound, htrace', hcount'⟩ | ⟨after, hnext, hready, hno⟩
 · simp only [hfound, bind_some]
   refine ⟨runs', htrace'.buildValues, shortest_of_round htrace' hcount' fun d hd => ?_⟩
   obtain rfl : d = 0 := by omega
   exact hzero
 · simp only [hnext, bind_some]
   have hnone : ∀ d ≤ 0 + 1, ¬ Reach old new d old.length new.length := by
    intro d hd
    cases d with
    | zero => exact hzero
    | succ d =>
     obtain rfl : d = 0 := by omega
     exact hno
   exact editLoop_eq hoffset.symm hready hnone

end Bake.Tools
