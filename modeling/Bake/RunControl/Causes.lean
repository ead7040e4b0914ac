import Bake.RunControl.Tasks

/-!
# Stopping causes are ordered

The cell of the stopping cause is written by `stop` and by `finish_interval` alone. A
section leaves the cell as it was, or writes an outcome to a cell that admits it: an
empty one, or one without a failure when a failure is required. So a run writes at most
two causes, the second of them a failure behind a first that is none.
-/

namespace Bake.RunControl

open RunOutcome

open Inner

def causes (log : List Event) : List RunOutcome := log.filterMap fun
  | .stored cause => some cause
  | _ => none

def Inner.cell (s : Inner) : Option RunOutcome × Option Nat × List RunOutcome :=
 (s.state.stopped, s.state.stoppedAt, causes s.log)

def Inner.Admits (s : Inner) (outcome : RunOutcome) : Prop := s.state.stopped = none
  ∨ outcome.isFailed ∧ ∃ cause, s.state.stopped = some cause ∧ cause.isFailed = false

/-- The causes a run may have written, with what is stored behind them. -/
inductive Causes : List RunOutcome → Option RunOutcome → Option Nat → Prop where
 | none : Causes [] none none
 | first (cause : RunOutcome) (at_ : Nat) : Causes [cause] (some cause) (some at_)
 | failed {cause : RunOutcome} (message : String) (at_ : Nat) : cause.isFailed = false →
  Causes [cause, .failed message] (some (.failed message)) (some at_)

/-- What a later state holds: the same cause, or a failure in place of one that is none;
and the same moment. -/
structure State.Later (s s' : State) : Prop where
 cause : ∀ cause, s.stopped = some cause → s'.stopped = some cause
  ∨ cause.isFailed = false ∧ ∃ message, s'.stopped = some (.failed message)
 moment : ∀ at_, s.stoppedAt = some at_ → s'.stoppedAt = some at_

theorem State.Later.trans {a b c : State} (h : a.Later b) (h' : b.Later c) : a.Later c := by
 refine ⟨fun cause ha => ?_, fun at_ ha => h'.moment at_ (h.moment at_ ha)⟩
 rcases h.cause cause ha with hb | ⟨hc, message, hb⟩
 · exact h'.cause cause hb
 · rcases h'.cause _ hb with hc' | ⟨hf, -⟩
   · exact .inr ⟨hc, message, hc'⟩
   · simp [isFailed] at hf

/-- A required failure is stored, unless one already is. -/
def FailureStored (s s' : State) : Place → Prop
 | .fail message | .failing _ _ message =>
  s'.stopped = if s.stopped.any isFailed then s.stopped else some (.failed message)
 | _ => True

/-- A call that returns an outcome returns the cause stored there and then. A turn that
just finished is stored nowhere. -/
def ReturnsCause (place : Place) (stopped : Option RunOutcome) : Place → Prop
 | .done (.outcome outcome) =>
  stopped = some outcome
   ∨ place = .read (.settle .finishedTurn) ∧ outcome = .finishedTurn ∧ stopped = none
 | .done (.cause cause) => cause = stopped
 | _ => True

section Cell

variable (s : Inner)

@[simp] theorem causes_append (a b : List Event) : causes (a ++ b) = causes a ++ causes b :=
 List.filterMap_append

@[simp] theorem cell_unlock : s.unlock.cell = s.cell := rfl

@[simp] theorem cell_lockWrite (w t : Nat) : (s.lockWrite w t).cell = s.cell := rfl

@[simp] theorem cell_unlockWrite (w : Nat) : (s.unlockWrite w).cell = s.cell := rfl

@[simp] theorem cell_callObserver (w : Nat) : (s.callObserver w).cell = s.cell := by
 have h : ∀ l : List PendingWrite, causes (l.map fun write => .observed write.admission) = [] := by
  intro l
  rw [causes, List.filterMap_map]
  exact List.filterMap_eq_nil_iff.mpr fun _ _ => rfl
 unfold callObserver cell
 rw [causes_append, h, List.append_nil]

@[simp] theorem cell_publish (w : Nat) (r : Except RunOutcome Unit) :
 (s.publish w r).cell = s.cell := by
 have h : ∀ l : List PendingWrite,
  causes (l.map fun write => .completed write.admission r) = [] := by
  intro l
  rw [causes, List.filterMap_map]
  exact List.filterMap_eq_nil_iff.mpr fun _ _ => rfl
 unfold publish cell
 rw [causes_append, h, List.append_nil]

@[simp] theorem cell_debit (call : AdmitCall) : (s.debit call).cell = s.cell := by
 unfold debit cell
 simp [causes]

@[simp] theorem cell_resumeStopped (answer : Option RunOutcome) (call : StoppedCall) :
 (s.resumeStopped answer call).1.cell = s.cell := by
 cases call <;> cases answer <;> try rfl
 next o =>
  cases o <;> rfl
 · simp [resumeStopped, cell, causes]

@[simp] theorem cell_lookAtSlot (t : Nat) (call : AdmitCall) :
 (s.lookAtSlot t call).1.cell = s.cell := by
 unfold lookAtSlot
 split <;> rfl

@[simp] theorem cell_reserve (call : AdmitCall) : (s.reserve call).1.cell = s.cell := by
 unfold reserve
 split
 · rfl
 · split
   · exact cell_debit s call
   · rfl

theorem cell_startPoll {s' : Inner} {p : Place} {t w : Nat} {call : ObserveCall}
 (h : s.startPoll t w call = some (s', p)) : s'.cell = s.cell := by
 obtain ⟨pending, -, -, ⟨_, -, rfl, -⟩ | ⟨-, -, rfl, -⟩ | ⟨-, -, rfl, -⟩⟩ := startPoll_cases h
 · rfl
 · rw [cell_callObserver, cell_lockWrite]
 · rw [cell_lockWrite]

end Cell

variable {o : RunOutcome} {s s' : Inner}

theorem cell_stop (s : Inner) {required : Bool} (h : required → o.isFailed) :
 (s.stop o required).cell = s.cell ∨ (s.stop o required).cell = (s.store o).cell ∧ s.Admits o := by
 unfold stop
 by_cases hm : s.mayStore required
 · rw [if_pos hm]
   refine .inr ⟨rfl, ?_⟩
   unfold mayStore at hm
   cases hs : s.state.stopped with
   | none => exact .inl hs
   | some cause =>
    rw [hs] at hm
    obtain ⟨hreq, hc⟩ : required = true ∧ cause.isFailed = false := by simpa using hm
    exact .inr ⟨h hreq, cause, hs, hc⟩
 · rw [if_neg hm]
   exact .inl rfl

variable {p : Place}

theorem stops_failed {required : Bool} {resume : RunOutcome → Place}
 (h : p.stops = some (o, required, resume)) : required → o.isFailed := by
 intro hreq
 subst hreq
 unfold Place.stops at h
 split at h <;> simp at h <;> simp [← h.1, isFailed]

theorem cell_finishInterval (s : Inner) (outcome : RunOutcome) :
 (s.finishInterval outcome).cell = s.cell
  ∨ ∃ o, (s.finishInterval outcome).cell = (s.store o).cell ∧ s.Admits o := by
 unfold finishInterval
 by_cases hs : s.state.stopped.isNone
 · rw [if_pos hs]
   exact .inr ⟨_, rfl, .inl (Option.isNone_iff_eq_none.mp hs)⟩
 · rw [if_neg hs]
   exact .inl rfl

variable {p' : Place}

variable {t : Nat}

/-- **What a section can do to the cell**: nothing, or write an outcome it admits. -/
theorem next_cell {k : Choice} (h : next s t p k = some (s', p')) :
 s'.cell = s.cell ∨ ∃ o, s'.cell = (s.store o).cell ∧ s.Admits o := by
 cases takes_of_next h with
 | stop hstops =>
  rcases cell_stop s (stops_failed hstops) with he | he
  · exact .inl he
  · exact .inr ⟨_, he⟩
 | finishInterval outcome => exact cell_finishInterval s outcome
 | moves | refused => exact .inl rfl
 | read call => exact .inl (cell_resumeStopped s _ call)
 | admitModelCall call => exact .inl (cell_lookAtSlot s t call)
 | reserve call => exact .inl (cell_reserve s call)
 | observe hpoll => exact .inl (cell_startPoll s hpoll)
 | pending write => exact .inl (cell_unlockWrite s write)
 | publish write call result => exact .inl (cell_publish s write result)

def Inner.CausesKept (s : Inner) : Prop := Causes (causes s.log) s.state.stopped s.state.stoppedAt

theorem causesKept_of_cell (he : s'.cell = s.cell) (h : s.CausesKept) : s'.CausesKept := by
 unfold Inner.CausesKept
 obtain ⟨hs, ha, hc⟩ : s'.state.stopped = s.state.stopped
  ∧ s'.state.stoppedAt = s.state.stoppedAt ∧ causes s'.log = causes s.log := by
  simpa [cell] using he
 rw [hs, ha, hc]
 exact h

theorem causesKept_store (ho : s.Admits o) (h : s.CausesKept) : (s.store o).CausesKept := by
 unfold Inner.CausesKept at h ⊢
 have hlog : causes (s.store o).log = causes s.log ++ [o] := by
  simp [store, causes]
 rw [hlog]
 show Causes _ (some o) (some (s.state.stoppedAt.getD s.now))
 generalize causes s.log = log at h ⊢
 generalize s.state.stoppedAt = moment at h ⊢
 rcases ho with hs | ⟨hf, cause, hs, hc⟩
 · rw [hs] at h
   cases h
   exact .first o _
 · rw [hs] at h
   obtain ⟨message, rfl⟩ : ∃ message, o = .failed message := by
    cases o <;> simp_all [isFailed]
   cases h with
   | first => exact .failed message _ hc
   | failed => simp [isFailed] at hc

theorem later_store (ho : s.Admits o) : s.state.Later (s.store o).state := by
 refine ⟨fun cause hs => ?_, fun at_ ha => by simp [store, ha]⟩
 rcases ho with hn | ⟨hf, cause', hs', hc⟩
 · exact absurd (hn.symm.trans hs) (by simp)
 · obtain rfl : cause' = cause := Option.some.inj (hs'.symm.trans hs)
   cases o with
   | failed message => exact .inr ⟨hc, message, rfl⟩
   | _ => simp [isFailed] at hf

/-- `wait_stopped` behind its wait. -/
def Place.waited : Place → Bool
 | .deadline .waited | .expire .waited | .read .waited => true
 | _ => false

theorem stopped_of_cell (h : s'.cell = s.cell ∨ ∃ o, s'.cell = (s.store o).cell ∧ s.Admits o)
 (hs : s.state.stopped.isSome) : s'.state.stopped.isSome := by
 rcases h with he | ⟨o, he, -⟩
 · rw [show s'.state.stopped = s.state.stopped from congrArg Prod.fst he]
   exact hs
 · rw [show s'.state.stopped = some o from congrArg Prod.fst he]
   rfl

theorem stop_stopped (s : Inner) (o : RunOutcome) (required : Bool) :
 (s.stop o required).state.stopped = some (s.stopOutcome o required) := by
 have h : (s.stop o required).state.stopped.isSome := by
  unfold stop
  by_cases hm : s.mayStore required
  · rw [if_pos hm]
    rfl
  · rw [if_neg hm]
    unfold mayStore at hm
    cases hs : s.state.stopped with
    | none => rw [hs] at hm; exact absurd rfl hm
    | some => rfl
 obtain ⟨stored, hs⟩ := Option.isSome_iff_exists.mp h
 rw [stopOutcome, hs]
 rfl

theorem finishInterval_stopped (s : Inner) (outcome : RunOutcome) :
 (s.finishInterval outcome).state.stopped
  = some ((s.finishInterval outcome).state.stopped.getD .cancelled) := by
 unfold finishInterval
 split
 · rfl
 next hs =>
  cases hc : s.state.stopped with
  | none => rw [hc] at hs; exact absurd rfl hs
  | some => rfl

section Waited

@[simp] theorem waited_resumeObserve (result : Except RunOutcome Unit) (call : ObserveCall) :
 (resumeObserve result call).waited = false := by
 cases call <;> cases result <;> rfl

@[simp] theorem waited_answerRefused (call : AdmitCall) (stopped : Option RunOutcome) :
 (answerRefused call stopped).waited = false := by
 cases stopped with
 | some => rfl
 | none => unfold answerRefused; dsimp only; split <;> rfl

@[simp] theorem waited_resumeStopped (s : Inner) (answer : Option RunOutcome)
 (call : StoppedCall) : (s.resumeStopped answer call).2.waited = false := by
 cases call <;> cases answer <;> try rfl
 rename_i o
 cases o <;> rfl

@[simp] theorem waited_lookAtSlot (s : Inner) (t : Nat) (call : AdmitCall) :
 (s.lookAtSlot t call).2.waited = false := by
 unfold lookAtSlot
 split <;> rfl

@[simp] theorem waited_reserve (s : Inner) (call : AdmitCall) :
 (s.reserve call).2.waited = false := by
 unfold reserve
 split
 · rfl
 · split <;> dsimp only <;> split <;> rfl

theorem waited_startPoll {t w : Nat} {call : ObserveCall}
 (h : s.startPoll t w call = some (s', p)) : p.waited = false := by
 obtain ⟨pending, -, -, ⟨_, -, -, rfl⟩ | ⟨-, -, -, rfl⟩ | ⟨-, -, -, rfl⟩⟩ := startPoll_cases h
 · exact waited_resumeObserve _ call
 · rfl
 · rfl

theorem waited_takes {t : Nat} (h : Takes s t p s' p')
 (hw : p'.waited) : p.waited ∨ s'.state.stopped.isSome := by
 cases h with
 | stop => exact .inr (by rw [stop_stopped]; rfl)
 | finishInterval | pending => simp [Place.waited] at hw
 | moves hm =>
  cases hm with
  | deadline call =>
   refine .inl ?_
   split at hw <;> cases call <;> simp_all [Place.waited]
  | woken hs => exact .inr hs
  | _ => simp [Place.waited] at hw
 | observe hpoll => simp [waited_startPoll hpoll] at hw
 | _ => simp at hw

end Waited

theorem causesKept : program.Keeps Inner.CausesKept fun s _ p => p.waited → s.state.stopped.isSome where
 next hi hj h := by
  refine ⟨?_, fun hw => ?_⟩
  · rcases next_cell h with he | ⟨o, he, ho⟩
    · exact causesKept_of_cell he hi
    · exact causesKept_of_cell he (causesKept_store ho hi)
  · rcases waited_takes (takes_of_next h) hw with hp | hs
    · exact stopped_of_cell (next_cell h) (hj hp)
    · exact hs
 others _ _ h _ _ _ hq hw := stopped_of_cell (next_cell h) (hq hw)
 spawn {_ _ p} _ he hw := by
  cases p with
  | deadline call => cases call <;> simp_all [program, Place.entry, Place.waited]
  | _ => simp_all [Place.waited, program, Place.entry]
 act hi _ := ⟨hi, fun h => h⟩

theorem later_next {k : Choice} (h : next s t p k = some (s', p')) : s.state.Later s'.state := by
 have hcell : ∀ {a : Inner}, s'.cell = a.cell → s.state.Later a.state → s.state.Later s'.state := by
  intro a he ha
  obtain ⟨hs, hm, -⟩ : s'.state.stopped = a.state.stopped
   ∧ s'.state.stoppedAt = a.state.stoppedAt ∧ causes s'.log = causes a.log := by
   simpa [cell] using he
  exact ⟨fun cause hc => hs ▸ ha.cause cause hc, fun at_ hat => hm ▸ ha.moment at_ hat⟩
 rcases next_cell h with he | ⟨o, he, ho⟩
 · exact hcell he ⟨fun _ hc => .inl hc, fun _ ha => ha⟩
 · exact hcell he (later_store ho)

theorem stop_required (s : Inner) (message : String) : (s.stop (.failed message) true).state.stopped
  = if s.state.stopped.any isFailed then s.state.stopped
   else some (.failed message) := by
 unfold stop mayStore
 cases hs : s.state.stopped with
 | none => rfl
 | some cause => cases hc : cause.isFailed <;> simp [hc, hs, store]

theorem failureStored_takes (h : Takes s t p s' p') : FailureStored s.state s'.state p := by
 cases h with
 | @stop _ _ _ _ hstops =>
  cases p with
  | fail message | failing write call message =>
   obtain ⟨rfl, rfl, -⟩ : failed message = _ ∧ true = _ ∧ _ := by
    simpa [Place.stops] using hstops
   exact stop_required s message
  | _ => trivial
 | moves hm => cases hm <;> trivial
 | _ => trivial

theorem returnsCause_read (s : Inner) (call : StoppedCall)
 (hw : call = .waited → s.state.stopped.isSome) :
 ReturnsCause (.read call) (s.resumeStopped s.state.stopped call).1.state.stopped
  (s.resumeStopped s.state.stopped call).2 := by
 cases call with
 | stopped | drain => rfl
 | settle outcome =>
  cases hs : s.state.stopped with
  | some stopped => exact .inl hs
  | none =>
   cases outcome with
   | finishedTurn => exact .inr ⟨rfl, rfl, hs⟩
   | _ => trivial
 | waitStopped =>
  cases hs : s.state.stopped with
  | some stopped => exact .inl hs
  | none => trivial
 | waited =>
  obtain ⟨stopped, hs⟩ := Option.isSome_iff_exists.mp (hw rfl)
  rw [hs]
  exact .inl hs
 | _ =>
  cases s.state.stopped <;> trivial

theorem returnsCause_takes (h : Takes s t p s' p')
 (hw : p.waited → s.state.stopped.isSome) : ReturnsCause p s'.state.stopped p' := by
 cases h with
 | @stop _ o required resume hstops =>
  have hs := stop_stopped s o required
  cases p with
  | fail | settle => 
   obtain ⟨-, -, rfl⟩ : _ ∧ _ ∧ (fun o => Place.done (.outcome o)) = resume := by
    simpa [Place.stops] using hstops
   exact .inl hs
  | expire | waitExpired | exhausted | failing | cancelDropped | cancel | noDebit =>
   simp only [Place.stops, Option.some.injEq, Prod.mk.injEq] at hstops
   obtain ⟨-, -, rfl⟩ := hstops
   trivial
  | _ => simp [Place.stops] at hstops
 | finishInterval outcome => exact .inl (finishInterval_stopped s outcome)
 | moves hm =>
  cases hm with
  | deadline => split <;> trivial
  | _ => trivial
 | read call => exact returnsCause_read s call fun hc => hw (by rw [hc]; rfl)
 | admitModelCall call => unfold lookAtSlot; split <;> trivial
 | reserve call =>
  unfold reserve
  split
  · trivial
  · split <;> dsimp only <;> split <;> trivial
 | refused call stopped =>
  cases stopped with
  | some => trivial
  | none => unfold answerRefused; dsimp only; split <;> trivial
 | @observe _ call _ _ hpoll =>
  obtain ⟨pending, -, -, ⟨r, -, -, rfl⟩ | ⟨-, -, -, rfl⟩ | ⟨-, -, -, rfl⟩⟩ := startPoll_cases hpoll
  · cases call <;> cases r <;> trivial
  · trivial
  · trivial
 | pending => trivial
 | publish write call result => cases call <;> cases result <;> trivial

/-- **Stopping causes are ordered.** In every run of a control, with its calls interleaved
section by section in any order: at most one cause is written, or one that is no failure
and a failure behind it, and the cell holds the last of them; a later state holds the same
cause or a failure in place of one that is none, and never another moment; a required
failure is stored unless a failure is; and a call that returns an outcome returns the
cause stored in the section it ends with, but for `settle` of a turn that just finished
while nothing is stored. -/
theorem causes_ordered {limits : RunLimits} {restored : Nat} {observer : Bool}
 {c : Interleave.Config Inner Place} (h : Reachable limits restored observer c) :
 Causes (causes c.shared.log) c.shared.state.stopped c.shared.state.stoppedAt
  ∧ (∀ c', program.After c c' → c.shared.state.Later c'.shared.state)
  ∧ ∀ t p k s' p', c.tasks[t]? = some p → next c.shared t p k = some (s', p') →
   FailureStored c.shared.state s'.state p ∧ ReturnsCause p s'.state.stopped p' := by
 have hkept := causesKept.reachable (fun s hs => by obtain ⟨now, rfl⟩ := hs; exact .none) h
 refine ⟨hkept.1, fun c' hc => ?_, fun t p k s' p' ht hn => ?_⟩
 · exact causesKept.later (R := fun s s' => s.state.Later s'.state)
    (fun _ => ⟨fun _ hc => .inl hc, fun _ ha => ha⟩) State.Later.trans
    (fun _ _ hn => later_next hn) (fun _ _ => ⟨fun _ hc => .inl hc, fun _ ha => ha⟩) hkept hc
 · have htakes := takes_of_next hn
   exact ⟨failureStored_takes htakes, returnsCause_takes htakes (hkept.2 t p ht)⟩

/-- A failed write outranks the cancellation before it. -/
theorem causes_ordered_late_failure :
 Causes [.cancelled, .failed "disk"] (some (.failed "disk")) (some 0) :=
 (causes_ordered (reachable_runFrom ⟨none, none⟩ 0 false
  [.spawn .cancel, .spawn (.fail "disk"), .run 0 .go, .act 5, .run 1 .go])).1

/-- `settle` of a turn that just finished returns it, and no cause is stored. -/
theorem settle_returns_unstored :
 ∃ c, Reachable ⟨none, none⟩ 0 false c ∧ c.tasks[0]? = some (.read (.settle .finishedTurn))
  ∧ ∃ s', next c.shared 0 (.read (.settle .finishedTurn)) .go
   = some (s', .done (.outcome .finishedTurn))
   ∧ s'.state.stopped ≠ some .finishedTurn := by
 refine ⟨_, reachable_runFrom ⟨none, none⟩ 0 false
  [.spawn (.deadline (.settle .finishedTurn)), .run 0 .go], rfl, _, rfl, ?_⟩
 show (none : Option RunOutcome) ≠ _
 simp

end Bake.RunControl
