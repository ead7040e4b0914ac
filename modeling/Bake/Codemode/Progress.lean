import Bake.Codemode.Replay
import Bake.Lib.Schedule

/-!
# Accepted answers are applied

Where every number up to some one is taken by an accepted answer, the thread comes to apply
them all, whatever else happens meanwhile, unless the run ends first. Each of its steps brings
it nearer: the answers left are fewer, or the turn is shorter, or the answer it needs is nearer
to the front of the channel.
-/

open List

namespace Bake.Codemode

variable {σ τ ρ κ ω ε : Type}

/-! ## The rank -/

def Command.carries (n : UInt32) : Command τ ρ → Bool
 | .answer a => decide (a.seq = n)
 | .stop => false

/-- How far the next number's answer is from the thread. -/
def ScriptRun.distance (r : ScriptRun σ τ ρ κ ω ε) : Nat :=
 match OrdMap.get? r.early r.script.nextSeq with
 | some _ => 0
 | none => r.commands.findIdx (Command.carries r.script.nextSeq) + 1

/-- How far the run is from having applied `goal` answers. -/
def ScriptRun.rank (goal : Nat) (r : ScriptRun σ τ ρ κ ω ε) : Nat × Nat × Nat :=
 match r.script.phase with
 | .turn rest => (goal - r.script.applied.length, 1, rest.size)
 | .idle _ => (goal - r.script.applied.length, 0, r.distance)
 | .ended _ | .gone _ => (0, 0, 0)

variable {goal : Nat} {answers : List (Answer τ ρ)}

theorem ScriptRun.rank_turn {r : ScriptRun σ τ ρ κ ω ε} {rest : Turn σ κ ω ε}
 (h : r.script.phase = .turn rest) :
 r.rank goal = (goal - r.script.applied.length, 1, rest.size) := by
 unfold ScriptRun.rank
 rw [h]

theorem ScriptRun.rank_idle {r : ScriptRun σ τ ρ κ ω ε} {vm : σ} (h : r.script.phase = .idle vm) :
 r.rank goal = (goal - r.script.applied.length, 0, r.distance) := by
 unfold ScriptRun.rank
 rw [h]

/-- Fewer answers are left, or as many and the turn is over, or the same and the rest is less. -/
def Nearer : Nat × Nat × Nat → Nat × Nat × Nat → Prop := Prod.Lex (· < ·) (Prod.Lex (· < ·) (· < ·))

theorem nearer_wf : WellFounded Nearer :=
 (Prod.lex Nat.lt_wfRel (Prod.lex Nat.lt_wfRel Nat.lt_wfRel)).wf

theorem Nearer.fewer {a b : Nat} (h : a < b) (s t : Nat × Nat) : Nearer (a, s) (b, t) :=
 Prod.Lex.left _ _ h

theorem Nearer.turned {a s t x y : Nat} (h : s < t) : Nearer (a, s, x) (a, t, y) :=
 Prod.Lex.right _ (Prod.Lex.left _ _ h)

theorem Nearer.less {a s x y : Nat} (h : x < y) : Nearer (a, s, x) (a, s, y) :=
 Prod.Lex.right _ (Prod.Lex.right _ h)

/-! ## Steps -/

variable [LinearOrder τ] {machine : Machine σ τ ρ κ ω ε} {clock : τ} {r : ScriptRun σ τ ρ κ ω ε}

theorem length_deliveries (clock : τ) (answers : List (Answer τ ρ)) :
 (deliveries clock answers).length = answers.length := by
 induction answers generalizing clock with
 | nil => rfl
 | cons a rest ih => exact congrArg Nat.succ (ih _)

/-- Every number up to `goal` is taken. -/
def Filled (goal : Nat) (accepted : List (Answer τ ρ)) : Prop :=
 ∀ n, 1 ≤ n → n ≤ goal → ∃ a ∈ accepted, a.seq.toNat = n

/-- The run has ended, or `goal` answers are applied. -/
def Reaches (goal : Nat) (r : ScriptRun σ τ ρ κ ω ε) : Prop :=
 (∃ outcome, r.script.phase = .gone outcome) ∨ goal ≤ r.script.applied.length

theorem accepted_step (machine : Machine σ τ ρ κ ω ε) (r : ScriptRun σ τ ρ κ ω ε) (input : Input τ ρ) :
 r.accepted <+: (r.step machine input).accepted := by
 cases input with
 | answer seq now id result =>
  unfold ScriptRun.step ScriptRun.answerInOrder
  dsimp only
  repeat' split
  all_goals first | exact prefix_refl _ | exact prefix_append ..
 | stop reason => exact prefix_refl _
 | stopCommand =>
  unfold ScriptRun.step
  dsimp only
  split <;> exact prefix_refl _
 | script => exact (scriptStep_frame machine r).1 ▸ prefix_refl _
 | interrupt =>
  show r.accepted <+: r.interrupted.accepted
  unfold ScriptRun.interrupted
  split <;> exact prefix_refl _

theorem Sound.up_on_way (h : Sound clock answers r) (hfilled : Filled goal r.accepted)
 (hlt : answers.length < goal) {vm : σ} (hphase : r.script.phase = .idle vm)
 (hearly : OrdMap.get? r.early r.script.nextSeq = none) :
 ∃ command ∈ r.commands, command.carries r.script.nextSeq = true := by
 have hat := h.at_
 rw [hphase] at hat
 obtain ⟨a, ha, hseq⟩ := hfilled (answers.length + 1) (by omega) hlt
 have hnext : a.seq = r.script.nextSeq := by
  have hbound := a.seq.toNat_lt
  refine UInt32.toNat_inj.mp ?_
  rw [hat.2, hseq, maxNumber_toNat]
  omega
 rcases h.mem_accepted.mp ha with hm | hm | hm
 · have hrange := h.numbered.mem.mp ⟨a, hm, rfl⟩
   omega
 · obtain ⟨b, hb, rfl⟩ := mem_map.mp hm
   have hget := OrdMap.get?_of_mem h.early_nodup hb
   rw [← h.early b hb, hnext, hearly] at hget
   simp at hget
 · exact ⟨_, hm, decide_eq_true hnext⟩

theorem Sound.nears_script (h : Sound clock answers r) (hfilled : Filled goal r.accepted)
 (hgoal : ¬ Reaches goal r) :
 Reaches goal (r.scriptStep machine) ∨ Nearer ((r.scriptStep machine).rank goal) (r.rank goal) := by
 have hlt : r.script.applied.length < goal := Nat.lt_of_not_le fun hle => hgoal (.inr hle)
 have hlength : r.script.applied.length = answers.length := by rw [h.applied, length_deliveries]
 have hleft : 0 < goal - r.script.applied.length := by omega
 unfold ScriptRun.scriptStep
 split
 next what bytes rest hphase =>
  refine .inr ?_
  rw [ScriptRun.rank_turn hphase]
  unfold ScriptRun.hostCall
  split
  · exact .fewer hleft _ _
  · exact .less (Nat.lt_succ_self _)
 next item rest hphase =>
  refine .inr ?_
  rw [ScriptRun.rank_turn hphase]
  exact .less (Nat.lt_succ_self _)
 next result hphase =>
  refine .inr ?_
  rw [ScriptRun.rank_turn hphase]
  exact .fewer hleft _ _
 next result hphase =>
  refine .inr ?_
  rw [ScriptRun.rank_turn hphase]
  exact .fewer hleft _ _
 next vm hphase =>
  refine .inr ?_
  rw [ScriptRun.rank_turn hphase]
  exact .turned Nat.zero_lt_one
 next vm hphase =>
  refine .inr ?_
  rw [ScriptRun.rank_idle hphase]
  split
  · refine .fewer ?_ _ _
    show goal - (r.script.applied ++ [_]).length < _
    rw [length_append, length_singleton]
    omega
  next hearly =>
   obtain ⟨command, hmem, hcarries⟩ := h.up_on_way hfilled (hlength ▸ hlt) hphase hearly
   unfold ScriptRun.receive
   split
   next hc =>
    rw [hc] at hmem
    simp at hmem
   · exact .fewer hleft _ _
   next a commands hc =>
    split
    · exact .fewer hleft _ _
    rw [ScriptRun.rank_idle (r := { r with commands, early := OrdMap.insert r.early a.seq a }) hphase]
    refine .less ?_
    unfold ScriptRun.distance
    dsimp only
    rw [hearly, hc]
    dsimp only
    by_cases hseq : a.seq = r.script.nextSeq
    · rw [hseq, OrdMap.get?_insert_self]
      exact Nat.succ_pos _
    · rw [OrdMap.get?_insert_ne _ _ hseq, hearly, findIdx_cons,
       show (Command.answer a).carries r.script.nextSeq = false from decide_eq_false hseq]
      exact Nat.lt_succ_self _
 · exact .inl (.inl ⟨_, rfl⟩)
 next outcome hphase =>
  exact absurd (.inl ⟨_, hphase⟩) hgoal

theorem Sound.nears_other (h : Sound clock answers r) (hfilled : Filled goal r.accepted)
 (hgoal : ¬ Reaches goal r) {input : Input τ ρ} (hi : input ≠ .script) :
 Nearer ((r.step machine input).rank goal) (r.rank goal)
  ∨ (r.step machine input).rank goal = r.rank goal := by
 have hlt : r.script.applied.length < goal := Nat.lt_of_not_le fun hle => hgoal (.inr hle)
 have hlength : r.script.applied.length = answers.length := by rw [h.applied, length_deliveries]
 -- only the channel and the book change
 have hkeep : ∀ (book : CallBook) (stopped : Option StopReason) (new : List (Command τ ρ))
  (accepted : List (Answer τ ρ)),
  ({ r with book, stopped, commands := r.commands ++ new, accepted } : ScriptRun σ τ ρ κ ω ε).rank goal
   = r.rank goal := by
  intro book stopped new accepted
  unfold ScriptRun.rank
  dsimp only
  split
  · rfl
  next vm hphase =>
   unfold ScriptRun.distance
   dsimp only
   split
   · rfl
   next hearly =>
    obtain ⟨command, hmem, hcarries⟩ := h.up_on_way hfilled (hlength ▸ hlt) hphase hearly
    rw [findIdx_append, if_pos (findIdx_lt_length_of_exists ⟨command, hmem, hcarries⟩)]
  · rfl
  · rfl
 cases input with
 | answer seq now id result =>
  refine .inr ?_
  unfold ScriptRun.step ScriptRun.answerInOrder
  dsimp only
  repeat' split
  all_goals first | rfl | exact hkeep _ _ _ _
 | stop reason => exact .inr rfl
 | stopCommand =>
  refine .inr ?_
  unfold ScriptRun.step
  dsimp only
  split
  · exact hkeep _ _ _ _
  · rfl
 | script => exact absurd rfl hi
 | interrupt =>
  unfold ScriptRun.step ScriptRun.interrupted
  dsimp only
  split
  next hphase =>
   rw [ScriptRun.rank_turn hphase]
   exact .inl (.fewer (by omega) _ _)
  next hphase =>
   rw [ScriptRun.rank_idle hphase]
   exact .inl (.fewer (by omega) _ _)
  · exact .inr rfl

def ScriptRun.under (machine : Machine σ τ ρ κ ω ε) (r : ScriptRun σ τ ρ κ ω ε)
 (schedule : Nat → Input τ ρ) (n : Nat) : ScriptRun σ τ ρ κ ω ε :=
 Schedule.under (ScriptRun.step machine) r schedule n

theorem reaches (hr : ScriptRun.Reachable machine clock r) (hfilled : Filled goal r.accepted)
 {schedule : Nat → Input τ ρ} (hs : Schedule.Recurs (· = .script) schedule) :
 ∃ n, Reaches goal (r.under machine schedule n) := by
 refine Schedule.eventually nearer_wf (ScriptRun.rank goal)
  (fun r => (∃ answers, Sound clock answers r) ∧ Filled goal r.accepted) ?_ ?_
  ⟨exists_sound hr, hfilled⟩ hs
 · rintro r input ⟨⟨answers, h⟩, hfilled⟩
   refine ⟨h.step input, fun n hone hn => ?_⟩
   obtain ⟨a, ha, hseq⟩ := hfilled n hone hn
   exact ⟨a, (accepted_step machine r input).subset ha, hseq⟩
 · rintro r input ⟨⟨answers, h⟩, hfilled⟩ hgoal
   by_cases hi : input = .script
   · subst hi
     exact (h.nears_script hfilled hgoal).imp_right .inl
   · exact .inr ((h.nears_other hfilled hgoal hi).imp_right fun heq => ⟨hi, heq⟩)

end Bake.Codemode
