import Mathlib.Init

/-!
# Unending runs

A schedule gives a machine its inputs, one after another and without end. Where inputs of one
kind come again and again, a rank that falls at each of them, and that no other input raises,
brings the run to its goal.
-/

namespace Schedule

variable {σ ι : Type}

def under (step : σ → ι → σ) (s : σ) (schedule : Nat → ι) : Nat → σ
 | 0 => s
 | n + 1 => step (under step s schedule n) (schedule n)

/-- Inputs of a kind come again and again. -/
def Recurs (kind : ι → Prop) (schedule : Nat → ι) : Prop := ∀ n, ∃ m, n ≤ m ∧ kind (schedule m)

variable {step : σ → ι → σ}

theorem under_invariant (Inv : σ → Prop) (hstep : ∀ s i, Inv s → Inv (step s i)) {s : σ}
 (hs : Inv s) (schedule : Nat → ι) (n : Nat) : Inv (under step s schedule n) := by
 induction n with
 | zero => exact hs
 | succ n ih => exact hstep _ _ ih

/-- A step towards a goal: it is reached, or the rank falls, or the input is not of the kind and
the rank stays. -/
def Nears {α : Type} (lt : α → α → Prop) (kind : ι → Prop) (rank : σ → α) (Goal : σ → Prop)
 (step : σ → ι → σ) (s : σ) (i : ι) : Prop :=
 Goal (step s i) ∨ lt (rank (step s i)) (rank s) ∨ (¬ kind i ∧ rank (step s i) = rank s)

/-- Until the next input of the kind, the rank falls or the goal is reached. -/
theorem falls {α : Type} {lt : α → α → Prop} {kind : ι → Prop} {rank : σ → α} {Goal Inv : σ → Prop}
 (hinv : ∀ s i, Inv s → Inv (step s i))
 (hstep : ∀ s i, Inv s → ¬ Goal s → Nears lt kind rank Goal step s i) {s : σ} (hs : Inv s)
 {schedule : Nat → ι} (d n : Nat) (hk : kind (schedule (n + d))) :
 ∃ m, Goal (under step s schedule m)
  ∨ lt (rank (under step s schedule m)) (rank (under step s schedule n)) := by
 induction d generalizing n with
 | zero =>
  by_cases hgoal : Goal (under step s schedule n)
  · exact ⟨n, .inl hgoal⟩
  · rcases hstep _ (schedule n) (under_invariant Inv hinv hs schedule n) hgoal with h | h | ⟨h, -⟩
    · exact ⟨n + 1, .inl h⟩
    · exact ⟨n + 1, .inr h⟩
    · exact absurd hk h
 | succ d ih =>
  by_cases hgoal : Goal (under step s schedule n)
  · exact ⟨n, .inl hgoal⟩
  · rcases hstep _ (schedule n) (under_invariant Inv hinv hs schedule n) hgoal with h | h | ⟨-, h⟩
    · exact ⟨n + 1, .inl h⟩
    · exact ⟨n + 1, .inr h⟩
    · obtain ⟨m, hm⟩ := ih (n + 1) (by rw [Nat.add_right_comm]; exact hk)
      exact ⟨m, hm.imp_right fun hlt => h ▸ hlt⟩

/-- **A rank that falls at every input of the kind** brings the run to its goal. -/
theorem eventually {α : Type} {lt : α → α → Prop} (wf : WellFounded lt) {kind : ι → Prop}
 (rank : σ → α) (Inv : σ → Prop) {Goal : σ → Prop} (hinv : ∀ s i, Inv s → Inv (step s i))
 (hstep : ∀ s i, Inv s → ¬ Goal s → Nears lt kind rank Goal step s i) {s : σ} (hs : Inv s)
 {schedule : Nat → ι} (hr : Recurs kind schedule) : ∃ n, Goal (under step s schedule n) := by
 suffices key : ∀ a n, rank (under step s schedule n) = a → ∃ m, Goal (under step s schedule m) from
  key _ 0 rfl
 intro a
 induction a using wf.induction with
 | _ a ih =>
  intro n hn
  obtain ⟨k, hle, hk⟩ := hr n
  obtain ⟨m, hm | hlt⟩ := falls hinv hstep hs (k - n) n (by rw [Nat.add_sub_cancel' hle]; exact hk)
  · exact ⟨m, hm⟩
  · exact ih _ (hn ▸ hlt) m rfl

end Schedule
