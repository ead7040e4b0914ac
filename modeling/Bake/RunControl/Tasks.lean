import Bake.RunControl.Control
import Bake.Lib.Interleave

/-!
# The callers of a control

A call on a control is a task: a place in the function's code, between two of its
critical sections. `next` takes one section. A section that needs a lock another task
holds is blocked. Local steps between two sections are taken with the one before.

The slot's lock is held from `admit`'s look at the slot to the end of `reserve`, over
several sections of the state's lock, so another task can stop the control in between.
The lock of a write's observation is held while its future is polled, and beyond it
until the result is published.

A call waits only where it observes a write. There its caller may drop it, and whoever
polls next goes on with the same write.
-/

namespace Bake.RunControl

/-- What called `stopped`, and goes on with its answer. -/
inductive StoppedCall where
 /-- The public function. -/
 | stopped
 | settle (outcome : RunOutcome)
 /-- `reserve`, under the slot's lock. -/
 | reserve (call : AdmitCall)
 /-- The end of `admit`, with the debit it reserved. -/
 | admitModelCall (admission : ModelCallAdmission)
 | drain
 | hasModelCallAllowance (calls : Nat)
 | waitStopped
 | waited
 deriving DecidableEq, Repr

/-- What called `observe`, and goes on with the write's result. -/
inductive ObserveCall where
 /-- `admit`, behind another call's write. -/
 | wait (call : AdmitCall)
 | own (admission : ModelCallAdmission)
 | drain
 deriving DecidableEq, Repr

inductive Returned where
 | unit
 | outcome (outcome : RunOutcome)
 | cause (stopped : Option RunOutcome)
 | fits (answer : Bool)
 | admission (result : Except RunOutcome (Option ModelCallAdmission))
 /-- The call was dropped. -/
 | dropped

/-- Where a task stands: before the section of that name. -/
inductive Place where
 | cancel
 | fail (message : String)
 | finishInterval (outcome : RunOutcome)
 /-- `settle`, when nothing stopped the control and the turn has not just finished. -/
 | settle (outcome : RunOutcome)
 /-- `stopped`: its look at the deadline, its `stop`, and its reading of the cause. -/
 | deadline (call : StoppedCall)
 | expire (call : StoppedCall)
 | read (call : StoppedCall)
 | hasModelCallAllowance (calls : Nat)
 /-- `wait_stopped` waits, or its timer fired. -/
 | waiting
 | waitExpired
 /-- `admit`: the look at the slot; `reserve` behind its look at the cause, at the `stop`
  of an exhausted allowance, and where it answers without a debit, with `Err` of a cause
  or `Ok(None)`. -/
 | admitModelCall (call : AdmitCall)
 | reserve (call : AdmitCall)
 | exhausted (call : AdmitCall)
 | refused (call : AdmitCall) (stopped : Option RunOutcome)
 /-- `admit_model_call` was answered without a debit. -/
 | noDebit
 /-- `observe` before a poll, in the poll, at the failure of the write, and at its
  publication. -/
 | observe (write : Nat) (call : ObserveCall)
 | polling (write : Nat) (call : ObserveCall)
 | failing (write : Nat) (call : ObserveCall) (message : String)
 | publish (write : Nat) (call : ObserveCall) (result : Except RunOutcome Unit)
 /-- The drop of an `AdmissionWait` that has not completed. -/
 | cancelDropped
 | drain
 | done (result : Returned)

/-- What the program does not decide: to go on, to drop the call where it waits, what a
poll of the observer's future answers, and that a timer fires. -/
inductive Choice where
 | go
 | drop
 | pending
 | ready (result : Except String Unit)
 | timer

def Place.entry : Place → Bool
 | .cancel | .fail _ | .finishInterval _ | .admitModelCall _ | .drain => true
 | .deadline .stopped | .deadline (.settle _) | .deadline (.hasModelCallAllowance _)
 | .deadline .waitStopped => true
 | _ => false

/-- The places whose section is `stop`: its arguments, and where the call goes on with
its answer. -/
def Place.stops : Place → Option (RunOutcome × Bool × (RunOutcome → Place))
 | .cancel => some (.cancelled, false, fun _ => .done .unit)
 | .fail message => some (.failed message, true, fun o => .done (.outcome o))
 | .settle outcome => some (outcome, false, fun o => .done (.outcome o))
 | .expire call => some (.budgetExhausted .deadline, false, fun _ => .read call)
 | .waitExpired => some (.budgetExhausted .deadline, false, fun _ => .deadline .waited)
 | .exhausted call => some (.budgetExhausted .modelCalls, false, fun o => .refused call (some o))
 | .noDebit =>
  some (.failed "Required model admission returned no debit", true, fun o =>
   .done (.admission (.error o)))
 | .failing write call message =>
  some (.failed message, true, fun o => .publish write call (.error o))
 | .cancelDropped => some (.cancelled, false, fun _ => .done .dropped)
 | _ => none

/-- `admit`'s answer without a debit. `admit_model_call` takes `Ok(None)` for a failure. -/
def answerRefused (call : AdmitCall) : Option RunOutcome → Place
 | some stopped => .done (.admission (.error stopped))
 | none => if call.reserve.isSome then .done (.admission (.ok none)) else .noDebit

/-- A call goes on with what `stopped` answered. -/
def Inner.resumeStopped (s : Inner) (answer : Option RunOutcome) : StoppedCall → Inner × Place
 | .stopped | .drain => (s, .done (.cause answer))
 | .settle outcome =>
  match answer, outcome with
  | some stopped, _ => (s, .done (.outcome stopped))
  | none, .finishedTurn => (s, .done (.outcome outcome))
  | none, _ => (s, .settle outcome)
 | .reserve call =>
  match answer with
  | some stopped => (s, .refused call (some stopped))
  | none => (s, .reserve call)
 | .admitModelCall admission =>
  match answer with
  | some stopped => (s, .done (.admission (.error stopped)))
  | none =>
   ({ s with log := s.log ++ [.admitted admission] }, .done (.admission (.ok (some admission))))
 | .hasModelCallAllowance calls =>
  match answer with
  | some _ => (s, .done (.fits false))
  | none => (s, .hasModelCallAllowance calls)
 | .waitStopped =>
  match answer with
  | some stopped => (s, .done (.outcome stopped))
  | none => (s, .waiting)
 | .waited => (s, .done (.outcome (answer.getD .cancelled)))

def resumeObserve (result : Except RunOutcome Unit) : ObserveCall → Place
 | .wait call =>
  match result with
  | .error stopped => .done (.admission (.error stopped))
  | .ok () => .admitModelCall call
 | .own admission =>
  match result with
  | .error stopped => .done (.admission (.error stopped))
  | .ok () => .deadline (.admitModelCall admission)
 | .drain => .drain

/-- `admit`'s look at the slot, which keeps the slot's lock for `reserve`. -/
def Inner.lookAtSlot (s : Inner) (task : Nat) (call : AdmitCall) : Inner × Place :=
 match s.admission with
 | some write => (s, .observe write (.wait call))
 | none => ({ s with admissionLock := some task }, .deadline (.reserve call))

/-- `reserve` behind its look at the cause. -/
def Inner.reserve (s : Inner) (call : AdmitCall) : Inner × Place :=
 match s.state.stopped with
 | some stopped => (s, .refused call (some stopped))
 | none =>
  if s.fits call.reserve then
   let admission := s.nextAdmission call
   ((s.debit call).unlock,
    if s.observer then .observe s.writes.length (.own admission)
    else .deadline (.admitModelCall admission))
  else (s, if call.reserve.isSome then .refused call none else .exhausted call)

/-- `observe` up to the poll of the future. -/
def Inner.startPoll (s : Inner) (task write : Nat) (call : ObserveCall) : Option (Inner × Place) :=
 match s.writes[write]? with
 | none => none
 | some pending =>
  if pending.lock.isSome then none
  else
   match pending.result with
   | some result => some (s, resumeObserve result call)
   | none =>
    if pending.future then
     some ((s.lockWrite write task).callObserver write, .polling write call)
    else
     some (s.lockWrite write task,
      .failing write call "Required admission write lost its future")

/-- `has_model_call_allowance` behind its look at the cause. -/
def Inner.hasModelCallAllowance (s : Inner) (calls : Nat) : Bool :=
 s.state.stopped.isNone && s.limits.callsFit s.state.calls calls

/-- A section that is not `stop`. -/
def act (s : Inner) (task : Nat) : Place → Choice → Option (Inner × Place)
 | .finishInterval outcome, .go =>
  some (s.finishInterval outcome,
   .done (.outcome ((s.finishInterval outcome).state.stopped.getD .cancelled)))
 | .deadline call, .go => some (s, if s.expired then .expire call else .read call)
 | .read call, .go => some (s.resumeStopped s.state.stopped call)
 | .hasModelCallAllowance calls, .go => some (s, .done (.fits (s.hasModelCallAllowance calls)))
 | .waiting, .go => if s.state.stopped.isSome then some (s, .deadline .waited) else none
 | .waiting, .timer => if s.expired then some (s, .waitExpired) else none
 | .waiting, .drop => some (s, .done .dropped)
 | .admitModelCall call, .go => if s.admissionLock.isSome then none else some (s.lookAtSlot task call)
 | .reserve call, .go => some (s.reserve call)
 | .refused call stopped, .go => some (s.unlock, answerRefused call stopped)
 | .observe write call, .go => s.startPoll task write call
 | .observe _ (.own _), .drop => some (s, .cancelDropped)
 | .observe _ _, .drop => some (s, .done .dropped)
 | .polling write call, .pending => some (s.unlockWrite write, .observe write call)
 | .polling write call, .ready (.ok ()) => some (s, .publish write call (.ok ()))
 | .polling write call, .ready (.error message) => some (s, .failing write call message)
 | .publish write call result, .go =>
  if s.admissionLock.isSome then none
  else some (s.publish write result, resumeObserve result call)
 | .drain, .go =>
  if s.admissionLock.isSome then none
  else
   match s.admission with
   | some write => some (s, .observe write .drain)
   | none => some (s, .deadline .drain)
 | _, _ => none

/-- One critical section of a task. -/
def next (s : Inner) (task : Nat) (place : Place) (choice : Choice) : Option (Inner × Place) :=
 match place.stops, choice with
 | some (outcome, requiredFailure, place), .go =>
  some (s.stop outcome requiredFailure, place (s.stopOutcome outcome requiredFailure))
 | some _, _ => none
 | none, _ => act s task place choice

/-- The control and its callers; the environment moves the clock. -/
def program : Interleave.Program Inner Place Choice Nat where
 entry := Place.entry
 next := next
 act s elapsed := { s with now := s.now + elapsed }

/-- The configurations of a control restored with `restored` calls. -/
def Reachable (limits : RunLimits) (restored : Nat) (observer : Bool) :
 Interleave.Config Inner Place → Prop :=
 program.Reachable fun s => ∃ now, s = restore limits restored observer now

def runFrom (limits : RunLimits) (restored : Nat) (observer : Bool)
 (inputs : List (Interleave.Input Place Choice Nat)) : Interleave.Config Inner Place :=
 program.run (restore limits restored observer 0) inputs

theorem reachable_runFrom (limits : RunLimits) (restored : Nat) (observer : Bool)
 (inputs : List (Interleave.Input Place Choice Nat)) :
 Reachable limits restored observer (runFrom limits restored observer inputs) :=
 Interleave.Program.reachable_run ⟨0, rfl⟩ inputs

/-- The sections that change nothing but the place. -/
inductive Moves (s : Inner) : Place → Place → Prop where
 | deadline (call : StoppedCall) :
  Moves s (.deadline call) (if s.expired then .expire call else .read call)
 | hasModelCallAllowance (calls : Nat) : Moves s (.hasModelCallAllowance calls)
  (.done (.fits (s.hasModelCallAllowance calls)))
 | woken : s.state.stopped.isSome → Moves s .waiting (.deadline .waited)
 | timer : Moves s .waiting .waitExpired
 | waitDropped : Moves s .waiting (.done .dropped)
 | ownDropped (write : Nat) (admission : ModelCallAdmission) :
  Moves s (.observe write (.own admission)) .cancelDropped
 | dropped (write : Nat) (call : ObserveCall) : Moves s (.observe write call) (.done .dropped)
 | polled (write : Nat) (call : ObserveCall) :
  Moves s (.polling write call) (.publish write call (.ok ()))
 | pollFailed (write : Nat) (call : ObserveCall) (message : String) :
  Moves s (.polling write call) (.failing write call message)
 | drains (write : Nat) : Moves s .drain (.observe write .drain)
 | drained : Moves s .drain (.deadline .drain)

/-- What one section can do. -/
inductive Takes (s : Inner) (task : Nat) : Place → Inner → Place → Prop where
 | stop {place : Place} {outcome : RunOutcome} {requiredFailure : Bool}
  {resume : RunOutcome → Place} : place.stops = some (outcome, requiredFailure, resume) →
  Takes s task place (s.stop outcome requiredFailure)
   (resume (s.stopOutcome outcome requiredFailure))
 | finishInterval (outcome : RunOutcome) :
  Takes s task (.finishInterval outcome) (s.finishInterval outcome)
   (.done (.outcome ((s.finishInterval outcome).state.stopped.getD .cancelled)))
 | moves {place place' : Place} : Moves s place place' → Takes s task place s place'
 | read (call : StoppedCall) : Takes s task (.read call)
  (s.resumeStopped s.state.stopped call).1 (s.resumeStopped s.state.stopped call).2
 | admitModelCall (call : AdmitCall) : s.admissionLock = none →
  Takes s task (.admitModelCall call) (s.lookAtSlot task call).1 (s.lookAtSlot task call).2
 | reserve (call : AdmitCall) :
  Takes s task (.reserve call) (s.reserve call).1 (s.reserve call).2
 | refused (call : AdmitCall) (stopped : Option RunOutcome) :
  Takes s task (.refused call stopped) s.unlock (answerRefused call stopped)
 | observe {write : Nat} {call : ObserveCall} {s' : Inner} {place : Place} :
  s.startPoll task write call = some (s', place) →
  Takes s task (.observe write call) s' place
 | pending (write : Nat) (call : ObserveCall) :
  Takes s task (.polling write call) (s.unlockWrite write) (.observe write call)
 | publish (write : Nat) (call : ObserveCall) (result : Except RunOutcome Unit) :
  s.admissionLock = none →
  Takes s task (.publish write call result) (s.publish write result) (resumeObserve result call)

variable {place : Place}

theorem takes_of_act {s s' : Inner} {task : Nat} {place' : Place} {choice : Choice}
 (h : act s task place choice = some (s', place')) : Takes s task place s' place' := by
 have hdone : ∀ {a : Inner × Place}, Takes s task place a.1 a.2 → some a = some (s', place') →
  Takes s task place s' place' := by
  intro a ha he
  cases he
  exact ha
 unfold act at h
 split at h
 case h_1 outcome => exact hdone (.finishInterval outcome) h
 case h_2 call => exact hdone (.moves (.deadline call)) h
 case h_3 call => exact hdone (.read call) h
 case h_4 calls => exact hdone (.moves (.hasModelCallAllowance calls)) h
 case h_5 =>
  split at h
  next ha =>
   exact hdone (.moves (.woken ha)) h
  · simp at h
 case h_6 =>
  split at h
  · exact hdone (.moves .timer) h
  · simp at h
 case h_7 => exact hdone (.moves .waitDropped) h
 case h_8 call =>
  split at h
  · simp at h
  next hl =>
   exact hdone (.admitModelCall call (by simpa using hl)) h
 case h_9 call => exact hdone (.reserve call) h
 case h_10 call stopped => exact hdone (.refused call stopped) h
 case h_11 write call => exact .observe h
 case h_12 write admission => exact hdone (.moves (.ownDropped write admission)) h
 case h_13 write call _ => exact hdone (.moves (.dropped write call)) h
 case h_14 write call => exact hdone (.pending write call) h
 case h_15 write call => exact hdone (.moves (.polled write call)) h
 case h_16 write call message => exact hdone (.moves (.pollFailed write call message)) h
 case h_17 write call result =>
  split at h
  · simp at h
  next hl =>
   exact hdone (.publish write call result (by simpa using hl)) h
 case h_18 =>
  split at h
  · simp at h
  · split at h
    · exact hdone (.moves (.drains _)) h
    · exact hdone (.moves .drained) h
 case h_19 => simp at h

/-- **A section does one of these.** -/
theorem takes_of_next {s s' : Inner} {task : Nat} {place' : Place} {choice : Choice}
 (h : next s task place choice = some (s', place')) : Takes s task place s' place' := by
 unfold next at h
 split at h
 next hstops =>
  injection h with h
  injection h with hs hp
  exact hs ▸ hp ▸ .stop hstops
 · simp at h
 · exact takes_of_act h

/-- How a poll starts: with a result already there, with the future, or without one. -/
theorem startPoll_cases {s s' : Inner} {task write : Nat} {call : ObserveCall}
 (h : s.startPoll task write call = some (s', place)) :
 ∃ pending, s.writes[write]? = some pending ∧ pending.lock = none
  ∧ ((∃ result, pending.result = some result ∧ s' = s ∧ place = resumeObserve result call)
   ∨ pending.result = none ∧ pending.future
    ∧ s' = (s.lockWrite write task).callObserver write ∧ place = .polling write call
   ∨ pending.result = none ∧ pending.future = false ∧ s' = s.lockWrite write task
    ∧ place = .failing write call "Required admission write lost its future") := by
 unfold Inner.startPoll at h
 split at h
 · simp at h
 next pending hw =>
  split at h
  · simp at h
  next hl =>
   refine ⟨pending, hw, by simpa using hl, ?_⟩
   split at h
   next result hr =>
    injection h with h
    injection h with hs hp
    exact .inl ⟨result, hr, hs.symm, hp.symm⟩
   next hr =>
    split at h <;> rename_i hf <;> injection h with h <;> injection h with hs hp
    · exact .inr (.inl ⟨hr, hf, hs.symm, hp.symm⟩)
    · exact .inr (.inr ⟨hr, by simpa using hf, hs.symm, hp.symm⟩)

end Bake.RunControl
