import Mathlib.Init

/-!
# Runs

The states a machine passes through: from an initial state, step after step, each
step taken from the state it starts in with an input the guard allows there. What
holds of the initial states and is kept by every allowed step holds throughout.
-/

namespace Run

variable {σ ι : Type}

inductive Reach (init : σ → Prop) (step : σ → ι → σ) (guard : σ → ι → Prop) : σ → Prop where
 | init {s : σ} : init s → Reach init step guard s
 | step {s : σ} {i : ι} : Reach init step guard s → guard s i → Reach init step guard (step s i)

/-- **An invariant of the initial states and of every allowed step** holds of every
state reached. -/
theorem Reach.invariant {init : σ → Prop} {step : σ → ι → σ} {guard : σ → ι → Prop}
 (Inv : σ → Prop) (hinit : ∀ s, init s → Inv s)
 (hstep : ∀ s i, Inv s → guard s i → Inv (step s i)) {s : σ} (h : Reach init step guard s) :
 Inv s := by
 induction h with
 | init h => exact hinit _ h
 | step _ hg ih => exact hstep _ _ ih hg

def final (step : σ → ι → σ) (s : σ) (inputs : List ι) : σ := inputs.foldl step s

variable {step : σ → ι → σ} {guard : σ → ι → Prop}

theorem final_invariant (Inv : σ → Prop) (hstep : ∀ s i, Inv s → Inv (step s i)) {s : σ}
 (hs : Inv s) (inputs : List ι) : Inv (final step s inputs) := by
 induction inputs generalizing s with
 | nil => exact hs
 | cons i rest ih => exact ih (hstep s i hs)

/-- Every input of a list is allowed where it is taken. -/
def Allowed (step : σ → ι → σ) (guard : σ → ι → Prop) : σ → List ι → Prop
 | _, [] => True
 | s, i :: rest => guard s i ∧ Allowed step guard (step s i) rest

theorem allowed_iff {s : σ} {inputs : List ι} : Allowed step guard s inputs
  ↔ ∀ before i onward, inputs = before ++ i :: onward → guard (final step s before) i := by
 induction inputs generalizing s with
 | nil => exact ⟨fun _ before i onward h => absurd h (by simp), fun _ => trivial⟩
 | cons i rest ih =>
  constructor
  · rintro ⟨hi, hrest⟩ before j onward h
    cases before with
    | nil => exact (List.cons.inj h).1 ▸ hi
    | cons _ before =>
     obtain ⟨rfl, htail⟩ := List.cons.inj h
     exact ih.mp hrest before j onward htail
  · intro h
    exact ⟨h [] i rest rfl, ih.mpr fun before j onward heq =>
     h (i :: before) j onward (by rw [heq, List.cons_append])⟩

/-- **A rank that falls at every allowed step** bounds the run. -/
theorem length_le_rank (rank : σ → Nat) (Inv : σ → Prop) (hinv : ∀ s i, Inv s → Inv (step s i))
 (hfalls : ∀ s i, Inv s → guard s i → rank (step s i) < rank s) {s : σ} (hs : Inv s)
 {inputs : List ι} (ha : Allowed step guard s inputs) : inputs.length ≤ rank s := by
 induction inputs generalizing s with
 | nil => exact Nat.zero_le _
 | cons i rest ih =>
  have := ih (hinv s i hs) ha.2
  have := hfalls s i hs ha.1
  rw [List.length_cons]
  omega

theorem Reach.final {init : σ → Prop} {step : σ → ι → σ} {guard : σ → ι → Prop} {s : σ}
 (h : Reach init step guard s) {inputs : List ι} (ha : Allowed step guard s inputs) :
 Reach init step guard (final step s inputs) := by
 induction inputs generalizing s with
 | nil => exact h
 | cons i rest ih => exact ih (h.step ha.1) ha.2

theorem Reach.final_free {init : σ → Prop} {s : σ} (hg : ∀ s i, guard s i)
 (h : Reach init step guard s) (inputs : List ι) :
 Reach init step guard (Run.final step s inputs) := by
 induction inputs generalizing s with
 | nil => exact h
 | cons i rest ih => exact ih (h.step (hg s i))

/-- **What holds at the end and not at the start** begins with one of the steps. -/
theorem final_began {Q : σ → Prop} {s : σ} {inputs : List ι} (hs : ¬ Q s)
 (h : Q (final step s inputs)) :
 ∃ before i after, inputs = before ++ i :: after ∧ ¬ Q (final step s before)
  ∧ Q (step (final step s before) i) := by
 induction inputs generalizing s with
 | nil => exact absurd h hs
 | cons i rest ih =>
  by_cases hi : Q (step s i)
  · exact ⟨[], i, rest, rfl, hs, hi⟩
  · obtain ⟨before, j, after, rfl, hbefore, hafter⟩ := ih hi h
    exact ⟨i :: before, j, after, rfl, hbefore, hafter⟩

end Run

/-!
# Steps that may fail

What a chain of steps that may fail comes to: it succeeds exactly where each of them does.
-/

namespace Except

theorem bind_ok {ε α β : Type} {x : Except ε α} {f : α → Except ε β} {b : β}
 (h : x >>= f = .ok b) : ∃ a, x = .ok a ∧ f a = .ok b := by
 cases x with
 | error e => simp [bind, Except.bind] at h
 | ok a => exact ⟨a, rfl, h⟩

theorem ok_bind {ε α β : Type} {x : Except ε α} {a : α} (f : α → Except ε β)
 (h : x = .ok a) : x >>= f = f a := by
 rw [h]
 rfl

theorem ite_bind {ε α β : Type} (c : Prop) [Decidable c] (x y : Except ε α)
 (f : α → Except ε β) : (if c then x >>= f else y >>= f) = (if c then x else y) >>= f := by
 split <;> rfl

end Except
