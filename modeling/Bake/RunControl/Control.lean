import Mathlib.Algebra.GroupWithZero.Nat

/-!
# A run's shared control

`run_control.rs` up to its critical sections: the limits of one execution interval, the
state every clone of a `RunControl` shares, and what each function does to it while it
holds the state's lock. The calls are 64-bit numbers, and a sum that does not fit is
refused. Moments are natural numbers of a monotonic clock.

`Inner.log` is the model's own record of what happened to a control, in order; no
function reads it. Wakers and the abort handles of a pending write are left out, and so is
the abort controller: its signal is sent behind every write of a cause, and nothing else
sends it, so it stands for a stored cause.
-/

namespace Bake.RunControl

inductive BudgetLimit where
 | deadline
 | modelCalls
 deriving DecidableEq, Repr

inductive RunOutcome where
 | finishedTurn
 | cancelled
 | budgetExhausted (limit : BudgetLimit)
 | failed (message : String)
 deriving DecidableEq, Repr

/-- `matches!(self, RunOutcome::Failed { .. })`. -/
def RunOutcome.isFailed : RunOutcome → Bool
 | .failed _ => true
 | _ => false

structure RunLimits where
 deadline : Option Nat
 maxModelCalls : Option Nat

inductive ModelCallKind where
 | agent
 | summary
 | verification
 deriving DecidableEq, Repr

structure ModelCallAdmission where
 ordinal : Nat
 kind : ModelCallKind
 provider : String
 model : String
 deriving DecidableEq, Repr

/-- The arguments of `admit`: `admit_model_call` has no reserve, `try_admit_model_call`
has one. -/
structure AdmitCall where
 kind : ModelCallKind
 provider : String
 model : String
 reserve : Option Nat
 deriving DecidableEq, Repr

/-- `State`: what the state's lock guards. -/
structure State where
 calls : Nat
 stopped : Option RunOutcome
 stoppedAt : Option Nat

/-- `PendingWrite`: the admission its future hands to the observer when it is first
polled, whether that has happened, whether the future is still there, its result, and
the task that holds the lock of its observation. -/
structure PendingWrite where
 admission : ModelCallAdmission
 called : Bool
 future : Bool
 result : Option (Except RunOutcome Unit)
 lock : Option Nat

/-- What happens to a control. -/
inductive Event where
 /-- A cause was written to the state. -/
 | stored (cause : RunOutcome)
 /-- A debit was reserved, by a call that leaves this much in reserve. -/
 | reserved (admission : ModelCallAdmission) (reserve : Option Nat)
 | observed (admission : ModelCallAdmission)
 /-- The observer's write for an admission completed. -/
 | completed (admission : ModelCallAdmission) (result : Except RunOutcome Unit)
 /-- An admission was returned to its caller. -/
 | admitted (admission : ModelCallAdmission)

/-- `Inner`, behind every clone: the pending writes by number, the one in the admission
slot, and the task that holds the slot's lock. -/
structure Inner where
 limits : RunLimits
 observer : Bool
 state : State
 writes : List PendingWrite
 admission : Option Nat
 admissionLock : Option Nat
 now : Nat
 log : List Event

def restore (limits : RunLimits) (modelCalls : Nat) (observer : Bool) (now : Nat) : Inner :=
 { limits
   observer
   state := { calls := modelCalls, stopped := none, stoppedAt := none }
   writes := []
   admission := none
   admissionLock := none
   now
   log := [] }

def checkedAdd (a b : Nat) : Option Nat := if a + b < 2 ^ 64 then some (a + b) else none

def RunLimits.callsFit (limits : RunLimits) (used additional : Nat) : Bool :=
 (checkedAdd used additional).any fun total =>
  limits.maxModelCalls.all fun maximum => decide (total ≤ maximum)

namespace Inner

variable (s : Inner)

def expired : Bool := s.limits.deadline.any fun deadline => decide (deadline ≤ s.now)

/-- A cause is written, with the first moment of any. -/
def store (outcome : RunOutcome) : Inner :=
 { s with
   state := { s.state with
    stopped := some outcome
    stoppedAt := some (s.state.stoppedAt.getD s.now) }
   log := s.log ++ [.stored outcome] }

/-- `stop` writes when nothing is stored: a required failure also when no failure is. -/
def mayStore (requiredFailure : Bool) : Bool :=
 s.state.stopped.isNone || (requiredFailure && !s.state.stopped.any RunOutcome.isFailed)

/-- `stop`: the state after it. -/
def stop (outcome : RunOutcome) (requiredFailure : Bool) : Inner :=
 if s.mayStore requiredFailure then s.store outcome else s

/-- `stop`: what it returns. -/
def stopOutcome (outcome : RunOutcome) (requiredFailure : Bool) : RunOutcome :=
 (s.stop outcome requiredFailure).state.stopped.getD outcome

/-- `finish_interval`: the state after it. -/
def finishInterval (outcome : RunOutcome) : Inner :=
 if s.state.stopped.isNone then
  s.store (if s.expired then .budgetExhausted .deadline else outcome)
 else s

/-- Whether a call that leaves `reserve` calls free still fits. -/
def fits (reserve : Option Nat) : Bool := (checkedAdd (reserve.getD 0) 1).any fun additional =>
  s.limits.callsFit s.state.calls additional

def unlock : Inner := { s with admissionLock := none }

def nextAdmission (call : AdmitCall) : ModelCallAdmission :=
 { ordinal := s.state.calls + 1
   kind := call.kind
   provider := call.provider
   model := call.model }

/-- The debit is taken, and its pending write put into the slot when there is an
observer. -/
def debit (call : AdmitCall) : Inner :=
 let admission := s.nextAdmission call
 { s with
   state := { s.state with calls := admission.ordinal }
   writes := if s.observer then
    s.writes ++ [{ admission, called := false, future := true, result := none, lock := none }]
    else s.writes
   admission := if s.observer then some s.writes.length else none
   log := s.log ++ [.reserved admission call.reserve] }

def lockWrite (w task : Nat) : Inner :=
 { s with writes := s.writes.modify w fun write => { write with lock := some task } }

def unlockWrite (w : Nat) : Inner :=
 { s with writes := s.writes.modify w fun write => { write with lock := none } }

def callObserver (w : Nat) : Inner :=
 { s with
   writes := s.writes.modify w fun write => { write with called := true }
   log := s.log ++ ((s.writes[w]?.filter fun write => !write.called).toList.map fun write =>
    .observed write.admission) }

/-- A write has its result, and leaves the slot if it is the one in it. -/
def publish (w : Nat) (result : Except RunOutcome Unit) : Inner :=
 { s with
   writes := s.writes.modify w fun write =>
    { write with future := false, result := some result, lock := none }
   admission := if s.admission = some w then none else s.admission
   log := s.log ++ (s.writes[w]?.toList.map fun write => .completed write.admission result) }

end Inner

end Bake.RunControl
