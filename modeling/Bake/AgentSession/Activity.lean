import Bake.Lib.Interleave
import Mathlib.Algebra.GroupWithZero.Nat

/-!
# The session's activity

What the session's context is used for, and the calls that claim it: `execute_prompt` with the
run it admits, `compact`, `compact_when_idle`, `navigate_tree`, `owned_context_commit` and
`abort`, any number of each at once. A step is one change of the activity, of the executions
or of an abort controller's slot; each is made under its own lock. What a run or a compaction
does in between has no effect here but how it ends, and a call may be dropped at any await or
lose its task. An agent's own automatic compaction outlives a driver that is lost.
-/

namespace Bake.AgentSession

structure Activity where
 run : Bool := false
 manualCompaction : Bool := false
 autoCompaction : Bool := false
 contextCommits : Nat := 0
 navigation : Bool := false
 deriving DecidableEq

namespace Activity

def idle (a : Activity) : Bool :=
 !a.run && !a.manualCompaction && !a.autoCompaction && a.contextCommits == 0 && !a.navigation

end Activity

/-- `Core`, with the session's executions. An abort controller is known by the task that
registered it, and an execution by its identity. -/
structure Core where
 activity : Activity
 /-- `Executions`. -/
 nextId : Nat
 current : Option Nat
 runControl : Option Nat
 /-- `RunState`'s abort controllers. -/
 retryAbort : Option Nat
 compactionAbort : Option Nat
 autoCompactionAbort : Option Nat
 branchSummaryAbort : Option Nat
 abortRequested : Bool
 /-- The executions whose outcome is published. -/
 completed : List Nat
 deriving DecidableEq

/-- One call of `execute_prompt`: its control, and whether it only delivers notices. -/
structure Prompt where
 control : Nat
 deliveryOnly : Bool
 deriving DecidableEq

/-- How far a run is with `run_auto_compaction`, or with the wait before a retry. -/
inductive Recovery where
 | none
 /-- The compaction's controller is registered. -/
 | registered
 /-- And its flag is set. -/
 | busy
 /-- It ended: the controller's slot is cleared. -/
 | unregistered
 /-- Its future was dropped: the flag is cleared. -/
 | cleared
 /-- The retry's controller is registered. -/
 | waiting
 deriving DecidableEq

inductive Place where
 /-- `execute_prompt`. -/
 | promptEntry (c : Prompt)
 | promptClaim (c : Prompt) (streaming : Bool)
 | promptSpawn (c : Prompt) (id : Nat)
 /-- `PromptExecution::run`. -/
 | running (c : Prompt) (id : Nat) (recovery : Recovery)
 /-- Its task was lost. -/
 | unwound (c : Prompt) (id : Nat) (recovery : Recovery)
 /-- `drain_execution`. -/
 | drainAgent (c : Prompt) (id : Nat) (recovery : Recovery)
 | drainCommits (c : Prompt) (id : Nat)
 /-- `publish_completion`. -/
 | release (c : Prompt) (id : Nat)
 | publish (c : Prompt) (id : Nat)
 /-- It was lost behind the release. -/
 | interrupted (c : Prompt) (id : Nat)
 /-- `abort`, on its own or as the start of `compact`. -/
 | abortEntry (compact : Bool)
 | waitExecution (compact : Bool) (id : Nat)
 | waitAgent (compact : Bool)
 | waitIdle (compact : Bool)
 | compactClaim
 | whenIdleEntry
 | whenIdleClaim (streaming : Bool)
 /-- `manual_compaction`. -/
 | compactBegin
 | compacting
 | compactEnd
 /-- `navigate_tree`. -/
 | navigateEntry
 | navigateClaim (streaming : Bool)
 | navigateBegin
 | navigating
 | navigateEnd
 /-- `owned_context_commit`. -/
 | commitEntry
 | committing
 | refused (error : Option String)
 | returned
 deriving DecidableEq

/-- How a step turns out. -/
inductive Answer where
 | go
 /-- A recovery ends early, or its future is dropped. -/
 | stop
 /-- The caller's future is dropped, or the task is lost. -/
 | lose
 /-- The session is shut down, or the caller cancelled. -/
 | closed (error : String)
 /-- Whether the agent streams. -/
 | reads (streaming : Bool)
 /-- `run_auto_compaction` begins. -/
 | compact
 /-- `prepare_retry` begins its wait. -/
 | retry

namespace Core

variable (s : Core) (t : Nat)

/-- One step of a recovery: its slot is that of the task `t`. -/
def recover : Recovery → Answer → Option (Core × Recovery)
 | .none, .compact => some ({ s with autoCompactionAbort := some t }, .registered)
 | .none, .retry => some ({ s with retryAbort := some t }, .waiting)
 | .registered, .go =>
  some ({ s with activity := { s.activity with autoCompaction := true } }, .busy)
 | .registered, .stop => some ({ s with autoCompactionAbort := none }, .none)
 | .busy, .go => some ({ s with autoCompactionAbort := none }, .unregistered)
 | .busy, .stop =>
  some ({ s with activity := { s.activity with autoCompaction := false } }, .cleared)
 | .unregistered, .go =>
  some ({ s with activity := { s.activity with autoCompaction := false } }, .none)
 | .cleared, .go => some ({ s with autoCompactionAbort := none }, .none)
 | .waiting, .go => some ({ s with retryAbort := none }, .none)
 | _, _ => none

/-- Why `execute_prompt` refuses. -/
def promptRefusal (streaming : Bool) : Option String :=
 if s.activity.contextCommits ≠ 0 then
  some ("Cannot submit a prompt while the session context is being updated. "
   ++ "Wait for it to finish and retry.")
 else if s.activity.manualCompaction then
  some ("Cannot submit a prompt while compaction is in progress. "
   ++ "Wait for compaction to finish and retry.")
 else if s.activity.navigation then
  some ("Cannot submit a prompt while the session tree is being navigated. "
   ++ "Wait for it to finish and retry.")
 else if s.activity.run || streaming then
  some ("Agent is already processing. Specify streamingBehavior ('steer' or 'followUp') "
   ++ "to queue the message.")
 else if s.current.isSome then some "The previous session execution has not finished."
 else if s.nextId + 1 = 2 ^ 64 then some "The session exhausted its execution identities."
 else none

/-- `execute_prompt`'s claim. -/
def claimPrompt (control : Nat) : Core :=
 { s with
   activity := { s.activity with run := true }
   nextId := s.nextId + 1
   current := some (s.nextId + 1)
   runControl := some control
   abortRequested := false }

def releaseExecution (id : Nat) : Core :=
 if s.current = some id then
  { s with activity := { s.activity with run := false }, current := none, runControl := none }
 else s

def setManual (manual : Bool) : Core :=
 { s with activity := { s.activity with manualCompaction := manual } }

def setNavigation (navigation : Bool) : Core :=
 { s with activity := { s.activity with navigation := navigation } }

/-- Why `claim_manual_compaction` and `navigate_tree` refuse. -/
def claimRefusal (streaming : Bool) (whileStreaming whileBusy : String) : Option String :=
 if s.activity.run || streaming then some whileStreaming
 else if s.activity.idle then none
 else some whileBusy

def compactionRefusal (streaming : Bool) : Option String := s.claimRefusal streaming
  "Wait for the current response to finish before compacting the session."
  ("Wait for the current compaction or tree navigation to finish "
   ++ "before compacting the session.")

def navigationRefusal (streaming : Bool) : Option String := s.claimRefusal streaming
  "Wait for the current response to finish before navigating the session tree."
  ("Wait for the current compaction or tree navigation to finish "
   ++ "before navigating the session tree.")

/-- What follows `abort`. -/
def aborted (compact : Bool) : Place := if compact then .compactClaim else .returned

/-- One step of `PromptExecution::run`. -/
def nextRunning (c : Prompt) (id : Nat) : Recovery → Answer → Option (Core × Place)
 | .none, .go => some (s, .drainAgent c id .none)
 | recovery, .lose => some (s, .unwound c id recovery)
 | recovery, answer => (s.recover t recovery answer).map fun r => (r.1, .running c id r.2)

/-- One of a run whose task was lost: `RunGuard::drop` is the last. -/
def nextUnwound (c : Prompt) (id : Nat) (recovery : Recovery) : Answer → Option (Core × Place)
 | .lose =>
  if s.current = some id then some (s, .drainAgent c id recovery)
  else some ({ s with completed := s.completed ++ [id] }, .returned)
 | answer => (s.recover t recovery answer).map fun r => (r.1, .unwound c id r.2)

/-- One while the agent is not idle yet. -/
def nextDrain (c : Prompt) (id : Nat) : Recovery → Answer → Option (Core × Place)
 | .none, .go => some (s, .drainCommits c id)
 | recovery, .lose => some (s, .unwound c id recovery)
 | recovery, answer => (s.recover t recovery answer).map fun r => (r.1, .drainAgent c id r.2)

/-- One step of a call. -/
def next : Place → Answer → Option (Core × Place)
 | .promptEntry c, .closed error =>
  some (s, .refused (if c.deliveryOnly then none else some error))
 | .promptEntry c, .reads streaming => some (s, .promptClaim c streaming)
 | .promptClaim c streaming, .go =>
  match s.promptRefusal streaming with
  | some error => some (s, .refused (if c.deliveryOnly then none else some error))
  | none => some (s.claimPrompt c.control, .promptSpawn c (s.nextId + 1))
 | .promptSpawn c id, .go => some (s, .running c id .none)
 -- the gate refuses the driver: `reject_execution`
 | .promptSpawn c id, .closed _ => some (s, .release c id)
 | .running c id recovery, answer => s.nextRunning t c id recovery answer
 | .unwound c id recovery, answer => s.nextUnwound t c id recovery answer
 | .drainAgent c id recovery, answer => s.nextDrain t c id recovery answer
 | .drainCommits c id, .go =>
  if s.activity.contextCommits = 0 then some (s, .release c id) else none
 | .drainCommits c id, .lose => some (s, .unwound c id .none)
 | .release c id, .go => some (s.releaseExecution id, .publish c id)
 | .publish _ id, .go => some ({ s with completed := s.completed ++ [id] }, .returned)
 | .publish c id, .lose => some (s, .interrupted c id)
 | .interrupted c id, .go =>
  if s.current = some id then some (s, .drainAgent c id .none)
  else some ({ s with completed := s.completed ++ [id] }, .returned)
 | .abortEntry compact, .go =>
  match s.current with
  | some id => some ({ s with abortRequested := true }, .waitExecution compact id)
  | none => some ({ s with abortRequested := true }, .waitAgent compact)
 | .waitExecution compact id, .go =>
  if id ∈ s.completed then some (s, aborted compact) else none
 | .waitAgent compact, .go => some (s, .waitIdle compact)
 | .waitIdle compact, .go => if s.activity.idle then some (s, aborted compact) else none
 | .waitExecution _ _, .lose | .waitAgent _, .lose | .waitIdle _, .lose => some (s, .returned)
 | .compactClaim, .go => some (s.setManual true, .compactBegin)
 | .whenIdleEntry, .closed error => some (s, .refused (some error))
 | .whenIdleEntry, .reads streaming => some (s, .whenIdleClaim streaming)
 | .whenIdleClaim streaming, .go =>
  match s.compactionRefusal streaming with
  | some error => some (s, .refused (some error))
  | none => some (s.setManual true, .compactBegin)
 | .compactBegin, .go => some ({ s with compactionAbort := some t }, .compacting)
 | .compacting, .go => some ({ s with compactionAbort := none }, .compactEnd)
 | .compactEnd, .go => some (s.setManual false, .returned)
 -- the guard clears the flag; the controller's slot has none
 | .compactBegin, .lose | .compacting, .lose | .compactEnd, .lose =>
  some (s.setManual false, .returned)
 | .navigateEntry, .closed error => some (s, .refused (some error))
 | .navigateEntry, .reads streaming => some (s, .navigateClaim streaming)
 | .navigateClaim streaming, .go =>
  match s.navigationRefusal streaming with
  | some error => some (s, .refused (some error))
  | none => some (s.setNavigation true, .navigateBegin)
 | .navigateBegin, .go => some ({ s with branchSummaryAbort := some t }, .navigating)
 | .navigating, .go => some ({ s with branchSummaryAbort := none }, .navigateEnd)
 | .navigateEnd, .go => some (s.setNavigation false, .returned)
 | .commitEntry, .closed error => some (s, .refused (some error))
 | .commitEntry, .go =>
  some ({ s with
   activity := { s.activity with contextCommits := s.activity.contextCommits + 1 } },
   .committing)
 | .committing, .go =>
  some ({ s with
   activity := { s.activity with contextCommits := s.activity.contextCommits - 1 } },
   .returned)
 | _, _ => none

end Core

def calls : Interleave.Program Core Place Answer Empty where
 entry
  | .promptEntry _ | .abortEntry _ | .whenIdleEntry | .navigateEntry | .commitEntry => true
  | _ => false
 next := fun s t place answer => s.next t place answer
 act := fun s _ => s

/-- A session that is opened: nothing claims it. -/
def opened : Core where
 activity := {}
 nextId := 0
 current := none
 runControl := none
 retryAbort := none
 compactionAbort := none
 autoCompactionAbort := none
 branchSummaryAbort := none
 abortRequested := false
 completed := []

end Bake.AgentSession
