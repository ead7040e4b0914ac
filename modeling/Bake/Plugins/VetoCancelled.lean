import Bake.Plugins.VetoRuns

/-!
# Calls whose signal aborted

A dispatch that has not decided and whose signal aborted looks at it before it decides, with one
exception: a trusted plugin's code runs with no look behind it. What it answers then counts,
although the signal aborted meanwhile.
-/

namespace Bake.Plugins

open VetoDispatcher

variable {d : VetoDispatcher} {inputs : List Input}

/-- The dispatch has plugins left to ask, or has one's answer still to look at. -/
def Phase.Undecided : Phase → Prop
 | .top (_ :: _) | .calling _ _ | .waiting _ _ | .polling _ _ | .entering _ _ | .asking _ _
 | .heard _ _ _ => True
 | _ => False

/-- The dispatch has not decided anything but to cancel. -/
def Phase.Open (phase : Phase) : Prop :=
 phase.Undecided ∨ phase = .returned .cancelled ∨ phase = .dropped

/-- **An abort wins**: a call that aborted before its decision stays open, and its dispatch sets
no failure. -/
def AbortWins (d : VetoDispatcher) (inputs more : List Input) : Prop :=
 ∀ c call phase, (d.after inputs).calls c = some ⟨call, phase⟩ →
  (d.after inputs).abortedFor call = true → phase.Undecided →
  (∃ later, (d.after (inputs ++ more)).calls c = some ⟨call, later⟩ ∧ later.Open)
   ∧ ∀ before move onward, more = before ++ .act c move :: onward →
    (d.after (inputs ++ before ++ [.act c move])).failure = (d.after (inputs ++ before)).failure

/-- While the signal is aborted, the step brings no answer of a trusted plugin that decides. -/
def Phase.InTime (failure : String → Option Failure) : Phase → Move → Prop
 | .calling _ _, .called (some _) => False
 | .polling slot rest, .polled poll =>
  poll = .pending ∨ (poll = .ready .continues ∧ rest ≠ [] ∧ failure slot.id = none)
 | _, _ => True

/-- No trusted plugin's code decides a call whose signal aborted while it ran. -/
def InTime (s : VetoState) : Input → Prop
 | .act c move => ∀ call phase, s.calls c = some ⟨call, phase⟩ → s.abortedFor call = true →
  phase.InTime s.failure move
 | _ => True

/-! ## One step -/

theorem undecided_top {rest : List Registered} : (Phase.top rest).Undecided ↔ rest ≠ [] := by
 cases rest with
 | nil => exact ⟨False.elim, fun h => absurd rfl h⟩
 | cons _ _ => exact ⟨fun _ => by simp, fun _ => trivial⟩

section

variable {failure : String → Option Failure} {call : ToolCall} {phase : Phase} {move : Move}

theorem open_next (h : phase.Undecided) (ht : phase.InTime failure move) :
 (d.next failure true call phase move).1.Open ∧ (d.next failure true call phase move).2 = none := by
 have hstay : ∀ phase : Phase, phase.Undecided → phase.Open := fun _ => .inl
 have hcancelled : (Phase.returned .cancelled).Open := .inr (.inl rfl)
 have hdropped : Phase.dropped.Open := .inr (.inr rfl)
 cases phase with
 | top rest =>
  cases rest with
  | nil => exact absurd h id
  | cons slot rest =>
   cases move with
   | proceed => exact ⟨hcancelled, rfl⟩
   | drop => exact ⟨hdropped, rfl⟩
   | _ =>
    exact ⟨hstay _ trivial, rfl⟩
 | calling slot rest =>
  cases move with
  | called panic =>
   cases panic with
   | none => exact ⟨hstay _ trivial, rfl⟩
   | some message => exact absurd ht id
  | drop => exact ⟨hdropped, rfl⟩
  | _ =>
   exact ⟨hstay _ trivial, rfl⟩
 | waiting slot rest | heard slot rest answer =>
  cases move with
  | proceed => exact ⟨hcancelled, rfl⟩
  | drop => exact ⟨hdropped, rfl⟩
  | _ =>
   exact ⟨hstay _ trivial, rfl⟩
 | polling slot rest =>
  cases move with
  | polled poll =>
   rcases ht with rfl | ⟨rfl, hrest, hf⟩
   · exact ⟨hstay _ trivial, rfl⟩
   · show (take failure call slot rest (.veto .continues)).1.Open ∧ _ = none
     rw [next, answerOf]
     dsimp only
     rw [take, hf]
     exact ⟨hstay _ (undecided_top.mpr hrest), rfl⟩
  | drop => exact ⟨hdropped, rfl⟩
  | _ =>
   exact ⟨hstay _ trivial, rfl⟩
 | entering slot rest =>
  cases move with
  | entered granted =>
   rw [next]
   split
   · exact ⟨hstay _ trivial, rfl⟩
   · exact ⟨hcancelled, rfl⟩
  | drop => exact ⟨hdropped, rfl⟩
  | _ =>
   exact ⟨hstay _ trivial, rfl⟩
 | asking slot rest =>
  cases move with
  | drop => exact ⟨hdropped, rfl⟩
  | _ =>
   exact ⟨hstay _ trivial, rfl⟩
 | _ => exact absurd h id

theorem inTime_of_open (h : (d.next failure true call phase move).1.Open) :
 phase.InTime failure move := by
 have hblocked : ∀ v, ¬ (Phase.returned (.blocked v)).Open := by
  rintro v (h | h | h)
  · exact h
  · simp at h
  · simp at h
 cases phase with
 | calling slot rest =>
  cases move with
  | called panic =>
   cases panic with
   | none => trivial
   | some message => exact absurd h (hblocked _)
  | _ => trivial
 | polling slot rest =>
  cases move with
  | polled poll =>
   cases poll with
   | pending => exact .inl rfl
   | ready veto =>
    cases veto with
    | continues =>
     rw [next, answerOf] at h
     dsimp only at h
     cases hf : failure slot.id with
     | some f =>
      rw [take, hf] at h
      exact absurd h (hblocked _)
     | none =>
      rw [take, hf] at h
      refine .inr ⟨rfl, ?_, hf⟩
      rcases h with h | h | h
      · exact undecided_top.mp h
      · simp at h
      · simp at h
    | block reason terminate =>
     rw [next, answerOf] at h
     dsimp only at h
     rw [take] at h
     split at h <;> exact absurd h (hblocked _)
   | _ => exact absurd h (hblocked _)
  | _ => trivial
 | top rest | waiting slot rest | entering slot rest | asking slot rest | heard slot rest answer
 | recording slot f | returned result | dropped => trivial

theorem open_done (h : phase = .returned .cancelled ∨ phase = .dropped) (aborted : Bool) :
 d.next failure aborted call phase move = (phase, none) := by
 rcases h with rfl | rfl <;> cases move <;> rfl

end

/-! ## Every run -/

def Doomed (s : VetoState) (c : Nat) (call : ToolCall) : Prop :=
 s.abortedFor call = true ∧ ∃ phase, s.calls c = some ⟨call, phase⟩ ∧ phase.Open

variable {s : VetoState}

theorem abortedFor_step {call : ToolCall} (h : s.abortedFor call = true) (i : Input) :
 (s.step d i).abortedFor call = true := by
 cases i with
 | dispatch c call' =>
  unfold VetoState.step
  dsimp only
  split <;> exact h
 | act c move =>
  unfold VetoState.step VetoState.act
  dsimp only
  split <;> exact h
 | abort signal =>
  unfold VetoState.abortedFor at h ⊢
  obtain ⟨g, hg, ha⟩ := Option.any_eq_true .. |>.mp h
  refine (Option.any_eq_true ..).mpr ⟨g, hg, ?_⟩
  show (g == signal || s.aborted g) = true
  rw [ha, Bool.or_true]

/-- **A step in time** keeps an aborted call open and sets no failure for it. -/
theorem Doomed.step {c : Nat} {call : ToolCall} (h : Doomed s c call) {i : Input}
 (ht : InTime s i) :
 Doomed (s.step d i) c call ∧ ∀ move, i = .act c move → (s.step d i).failure = s.failure := by
 obtain ⟨haborted, phase, hc, hopen⟩ := h
 refine and_assoc.mpr ⟨abortedFor_step haborted i, ?_⟩
 cases i with
 | dispatch k call' =>
  refine ⟨⟨phase, ?_, hopen⟩, nofun⟩
  unfold VetoState.step
  dsimp only
  split
  · exact hc
  next hnew =>
   have hne : c ≠ k := by
    rintro rfl
    rw [hc] at hnew
    exact hnew rfl
   dsimp only
   rw [if_neg hne]
   exact hc
 | act k move =>
  by_cases hk : c = k
  · subst hk
    have hnext : (d.next s.failure true call phase move).1.Open
     ∧ (d.next s.failure true call phase move).2 = none := by
     rcases hopen with hu | hdone
     · exact open_next hu (ht call phase hc haborted)
     · rw [open_done hdone]
       exact ⟨.inr hdone, rfl⟩
    have hstep : s.step d (.act c move) = { s with
     failure := s.fail (d.next s.failure true call phase move).2
     calls := fun k => if k = c then some ⟨call, (d.next s.failure true call phase move).1⟩
      else s.calls k } := by
     unfold VetoState.step VetoState.act
     dsimp only
     rw [hc]
     dsimp only
     rw [haborted]
    rw [hstep]
    refine ⟨⟨_, if_pos rfl, hnext.1⟩, fun _ _ => ?_⟩
    dsimp only
    rw [hnext.2]
    rfl
  · refine ⟨⟨phase, ?_, hopen⟩, fun _ he => absurd (Input.act.inj he).1.symm hk⟩
    unfold VetoState.step VetoState.act
    dsimp only
    split
    · exact hc
    · dsimp only
      rw [if_neg hk]
      exact hc
 | abort signal => exact ⟨⟨phase, hc, hopen⟩, nofun⟩

theorem Doomed.final {c : Nat} {call : ToolCall} (h : Doomed s c call)
 {more : List Input} (ht : Run.Allowed (VetoState.step d) InTime s more) :
 Doomed (Run.final (VetoState.step d) s more) c call
  ∧ ∀ before move onward, more = before ++ .act c move :: onward →
   (Run.final (VetoState.step d) s (before ++ [.act c move])).failure
    = (Run.final (VetoState.step d) s before).failure := by
 induction more generalizing s with
 | nil => exact ⟨h, fun before move onward he => absurd he (by simp)⟩
 | cons i rest ih =>
  obtain ⟨hnext, hsame⟩ := h.step ht.1
  obtain ⟨hfinal, hrest⟩ := ih hnext ht.2
  refine ⟨hfinal, fun before move onward he => ?_⟩
  cases before with
  | nil =>
   obtain ⟨rfl, -⟩ := List.cons.inj he
   exact hsame move rfl
  | cons _ before =>
   obtain ⟨rfl, htail⟩ := List.cons.inj he
   exact hrest before move onward htail

/-- **Vetoes fail closed, and an abort wins exactly where no trusted plugin's code decides a call
whose signal aborted while it ran.** -/
theorem vetoes_fail_closed (d : VetoDispatcher) (inputs : List Input) :
 (∀ more, FailsClosed d inputs more)
  ∧ ((∀ before between onward, inputs = before ++ (between ++ onward) → AbortWins d before between)
   ↔ Run.Allowed (VetoState.step d) InTime d.start inputs) := by
 refine ⟨fails_closed d inputs, ?_, ?_⟩
 · intro h
   refine Run.allowed_iff.mpr fun before i onward heq => ?_
   cases i with
   | dispatch c call | abort signal => trivial
   | act c move =>
    intro call phase (hc : (d.after before).calls c = _)
     (haborted : (d.after before).abortedFor call = true)
    by_cases hu : phase.Undecided
    · obtain ⟨⟨later, hlater, hopen⟩, -⟩ :=
       h before [.act c move] onward heq c call phase hc haborted hu
      rw [after_snoc] at hlater
      rcases calls_act hlater with ⟨hne, -⟩ | ⟨-, phase', hc', hp⟩
      · exact absurd rfl hne
      · have hsame := hc.symm.trans hc'
        cases hsame
        dsimp only at hp
        rw [hp, haborted] at hopen
        exact inTime_of_open hopen
    · cases phase with
      | calling slot rest | polling slot rest => exact absurd trivial hu
      | top rest | waiting slot rest | entering slot rest | asking slot rest
      | heard slot rest answer | recording slot f | returned result | dropped => trivial
 rintro h before between onward rfl c call phase hc haborted hu
 have hall := Run.allowed_iff.mp h
 have hbetween : Run.Allowed (VetoState.step d) InTime (d.after before) between := by
  refine Run.allowed_iff.mpr fun past i future heq => ?_
  have hi := hall (before ++ past) i (future ++ onward) (by rw [heq]; simp)
  rw [← after_append]
  exact hi
 obtain ⟨hdoomed, hsame⟩ := Doomed.final ⟨haborted, phase, hc, .inl hu⟩ hbetween
 rw [← after_append] at hdoomed
 refine ⟨hdoomed.2, fun past move future heq => ?_⟩
 rw [List.append_assoc, after_append, after_append]
 exact hsame past move future heq

/-! ## A call that panics -/

/-- One trusted plugin, for one tool. -/
def guardDispatcher : VetoDispatcher where
 slots := [{
  order := 0
  manifest := { id := "guard", version := "1", vetoTools := ["write"] }
  plugin := .trusted
  sha256 := none
  record := false }]
 callTimeout := 10000
 distinct := by decide
 sorted := List.pairwise_singleton ..

/-- The signal aborts while `on_tool_call` runs, which then panics: the plugin is failed and the
call blocked. -/
theorem aborted_call_panics : ¬ AbortWins guardDispatcher
 [.dispatch 0 ⟨"1", "write", some 7⟩, .act 0 .proceed, .abort 7] [.act 0 (.called (some "boom"))] := by
 intro h
 obtain ⟨⟨later, hlater, hopen⟩, -⟩ := h 0 _ _ rfl rfl trivial
 obtain rfl : Phase.returned _ = later := (Dispatching.mk.inj (Option.some.inj hlater)).2
 rcases hopen with h | h | h
 · exact h
 · simp at h
 · simp at h

/-- The signal aborts while the plugin's future waits, and the call is cancelled. -/
theorem vetoes_fail_closed_waiting : AbortWins guardDispatcher
 [.dispatch 0 ⟨"1", "write", some 7⟩, .act 0 .proceed, .act 0 (.called none), .abort 7]
 [.act 0 .proceed, .act 0 (.polled (.ready .continues))] :=
 (vetoes_fail_closed guardDispatcher _).2.mpr (by
  refine ⟨trivial, ?_, ?_, trivial, ?_, ?_, trivial⟩
  all_goals
   rintro call phase hc -
   obtain rfl : _ = phase := (Dispatching.mk.inj (Option.some.inj hc)).2
   trivial) _ _ [] rfl

end Bake.Plugins
