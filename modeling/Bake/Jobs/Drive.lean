import Bake.Jobs.Registry

/-!
# Jobs and their drivers

A registry with the drivers of its jobs. A driver records that its job starts, has the
producer run under the job's gate, closes that gate and waits until everything in it has
ended, records the outcome, and only then settles the job. Each of its steps takes the
registry's lock once, or waits; the producer and all it starts use the job's gate as they
like. What the recorder, the producer and the session's gate answer is an answer.
-/

namespace Bake.Jobs

open Bake.Session Bake.Work

/-! ## Drivers -/

inductive DriverPlace where
 | begin
 | recordingStart (started : Except String JobSnapshot)
 | admitting (admission : Except String Unit)
 | refusing (error : String)
 | drainingStart (error : String) (close : Nat)
 | ready
 | spawning
 | entered (permit : Nat)
 | calling (task permit : Nat)
 | producing (task : Nat)
 | produced (outcome : JobOutcome)
 | returned (outcome : JobOutcome)
 | draining (outcome : JobOutcome) (close : Nat)
 | drained (outcome : JobOutcome)
 | recordingEnd (outcome : JobOutcome) (terminal : Option JobSnapshot)
 | settling (outcome : JobOutcome)
 | failing (error : String)
 | failed (error : String)
 | done
 /-- The producer panicked as it was called. -/
 | unwound

/-- `drive`: a job's driver, and the job's gate. -/
structure Driver where
 id : JobId
 gate : WorkGate
 place : DriverPlace

/-- A registry, the drivers of the jobs it admitted, in the order it did, the facts its
recorder has made durable, and the jobs it has failed to write a fact of. -/
structure JobSystem where
 registry : JobRegistry
 drivers : List Driver
 journal : List JobSnapshot
 failures : List JobId

/-- What a driver's surroundings answer it: the recorder; whether the session's gate has
cancelled the driver; whether it is inside a runtime; whether the producer's call panics;
and how the producer's task ended. -/
structure DriverAnswer where
 recorded : Except String Unit
 cancelled : Bool
 runtime : Bool
 panicked : Bool
 joined : Except String JobOutcome
 now : Int

namespace JobSystem

/-- A session's jobs before the first is started. -/
def new (registry : Nat) (limits : JobLimits) : JobSystem where
 registry := .new registry limits
 drivers := []
 journal := []
 failures := []

def setDriver (j : JobSystem) (d : Nat) (driver : Driver) : JobSystem :=
 { j with drivers := j.drivers.set d driver }

/-- `Inner::record`: what the recorder writes, and its answer. -/
def record (j : JobSystem) (snapshot : JobSnapshot) (answer : Except String Unit) :
 Except String Unit × JobSystem :=
 if j.registry.recorder then
  match answer with
  | .ok _ => (.ok (), { j with journal := j.journal ++ [snapshot] })
  | .error error => (.error error, { j with failures := j.failures ++ [snapshot.id] })
 else (.ok (), j)

/-- The number of the next call of `close`. -/
def nextClose (gate : WorkGate) : Nat := gate.closes.length

/-- A driver's next step, from where it is. A step that has to wait does nothing. -/
def driveFrom (j : JobSystem) (d : Nat) (driver : Driver) (answer : DriverAnswer) : JobSystem :=
 match driver.place with
 | .begin =>
  let started := match j.registry.find driver.id with
   | .ok record => .ok record.snapshot
   | .error error => .error error.text
  j.setDriver d { driver with place := .recordingStart started }
 | .recordingStart (.ok snapshot) =>
  let (admission, j) := j.record snapshot answer.recorded
  j.setDriver d { driver with place := .admitting admission }
 | .recordingStart (.error error) => j.setDriver d { driver with place := .admitting (.error error) }
 | .admitting admission =>
  let j := { j with registry := j.registry.admitted driver.id admission }
  match admission with
  | .ok _ => j.setDriver d { driver with place := .ready }
  | .error error => j.setDriver d { driver with place := .refusing error }
 | .refusing error =>
  j.setDriver d { driver with
   gate := driver.gate.close, place := .drainingStart error (nextClose driver.gate) }
 | .drainingStart error close =>
  let gate := driver.gate.step (.poll close)
  if gate.closes[close]? = some true then
   j.setDriver d { driver with gate, place := .failing error }
  else j
 | .ready =>
  let j :=
   if answer.cancelled then
    { j with registry := j.registry.requestStop driver.id .shutdown }
   else j
  j.setDriver d { driver with place := .spawning }
 -- the gate's `spawn`: a permit, the task, and the producer's call
 | .spawning =>
  match driver.gate.enter with
  | none =>
   j.setDriver d { driver with place := .produced (.killed "stopped before it started") }
  | some gate => j.setDriver d { driver with gate, place := .entered driver.gate.held.length }
 | .entered permit =>
  match driver.gate.spawn none answer.runtime with
  | .error _ =>
   j.setDriver d { driver with
    gate := driver.gate.step (.drop permit)
    place := .produced (.killed "stopped before it started") }
  | .ok gate =>
   j.setDriver d { driver with gate, place := .calling driver.gate.tasks.length permit }
 | .calling task permit =>
  if answer.panicked then
   j.setDriver d { driver with
    gate := (driver.gate.step (.panicked task)).step (.drop permit), place := .unwound }
  else
   j.setDriver d { driver with
    gate := (driver.gate.step (.returned task)).step (.drop permit), place := .producing task }
 | .producing task =>
  if answer.cancelled then
   { j with registry := j.registry.requestStop driver.id .shutdown }
  else
   let outcome := match answer.joined with
    | .ok outcome => outcome
    | .error error => .failed ("the job's task failed: " ++ error)
   j.setDriver d { driver with
    gate := driver.gate.step (.dropHandle task), place := .produced outcome }
 | .produced outcome =>
  { j with registry := j.registry.producerReturned driver.id }.setDriver d
    { driver with place := .returned outcome }
 | .returned outcome =>
  j.setDriver d { driver with
   gate := driver.gate.close, place := .draining outcome (nextClose driver.gate) }
 | .draining outcome close =>
  let gate := driver.gate.step (.poll close)
  if gate.closes[close]? = some true then
   j.setDriver d { driver with gate, place := .drained outcome }
  else j
 | .drained outcome =>
  let terminal := match j.registry.find driver.id with
   | .ok record =>
    some { record.snapshot with
     status := outcome.status.toJobStatus
     detail := outcome.detail.map (cut · maxTextBytes)
     finishedAt := some answer.now }
   | .error _ => none
  j.setDriver d { driver with place := .recordingEnd outcome terminal }
 | .recordingEnd outcome none => j.setDriver d { driver with place := .settling outcome }
 | .recordingEnd outcome (some snapshot) =>
  let (recorded, j) := j.record snapshot answer.recorded
  match recorded with
  | .ok _ => j.setDriver d { driver with place := .settling outcome }
  | .error error => j.setDriver d { driver with place := .failing error }
 | .settling outcome =>
  { j with registry := j.registry.settle driver.id outcome answer.now }.setDriver d
    { driver with place := .done }
 -- `journal_failed`
 | .failing error =>
  { j with registry := j.registry.claimFailed driver.id }.setDriver d
    { driver with place := .failed error }
 | .failed error =>
  let outcome := JobOutcome.failed ("the job journal failed: " ++ error)
  { j with registry := j.registry.settle driver.id outcome answer.now }.setDriver d
    { driver with place := .done }
 | .done => j
 | .unwound => j

def drive (j : JobSystem) (d : Nat) (answer : DriverAnswer) : JobSystem :=
 match j.drivers[d]? with
 | some driver => j.driveFrom d driver answer
 | none => j

/-- `JobRegistry::start`, with the driver of the job it admits. -/
def start (j : JobSystem) (spec : JobSpec) (spawned : Except Refused Unit) (now : Int) : JobSystem :=
 match j.registry.start spec j.drivers.length spawned now with
 | (.ok id, registry) =>
  { j with registry, drivers := j.drivers ++ [{ id, gate := .empty, place := .begin }] }
 | (.error _, registry) => { j with registry }

/-- What is done with a job's gate: by its producer, and all that runs under it. -/
def useGate (j : JobSystem) (d : Nat) (input : Input) : JobSystem :=
 match j.drivers[d]? with
 | some driver => j.setDriver d { driver with gate := driver.gate.step input }
 | none => j

def closeGate (j : JobSystem) (k : Nat) : JobSystem :=
 match j.registry.closing[k]? with
 | none => j
 | some d =>
  { j with registry := { j.registry with closing := j.registry.closing.eraseIdx k } }.useGate d
    .close

end JobSystem

/-- What may happen to a session's jobs. -/
inductive JobInput where
 | attachRecorder
 | start (spec : JobSpec) (spawned : Except Refused Unit) (now : Int)
 | reserveOrdinals (kind : String) (through : Nat)
 | drive (driver : Nat) (answer : DriverAnswer)
 | useGate (driver : Nat) (input : Input)
 | closeGate (closing : Nat)
 | append (driver : Nat) (data : List UInt8)
 | read (id : JobId)
 | kill (id : JobId) (reason : Option String)
 | stop (id : JobId)
 | wait (id : JobId) (timeout : Nat)
 | wake (wait : Nat)
 | timeOut (wait : Nat)
 | cancel (wait : Nat)
 | dropWait (wait : Nat)
 | claimReport (id : JobId)
 | claimUnreported
 | releaseDeliveries (pending : List String)
 | acknowledge (text : String)
 | announce
 | post (message : CustomMessage)
 | claimMail
 | close
 | pollClose (close : Nat)

namespace JobSystem

def withRegistry (j : JobSystem) (registry : JobRegistry) : JobSystem := { j with registry }

def step (j : JobSystem) : JobInput → JobSystem
 | .attachRecorder => j.withRegistry j.registry.attachRecorder
 | .start spec spawned now => j.start spec spawned now
 | .reserveOrdinals kind through => j.withRegistry (j.registry.reserveOrdinals kind through).2
 | .drive d answer => j.drive d answer
 | .useGate d input => j.useGate d input
 | .closeGate k => j.closeGate k
 | .append d data => j.withRegistry (j.registry.append d data)
 | .read id => j.withRegistry (j.registry.read id).2
 | .kill id reason => j.withRegistry (j.registry.kill id reason).2
 | .stop id => j.withRegistry (j.registry.stop id).2
 | .wait id timeout => j.withRegistry (j.registry.wait id timeout).2
 | .wake w => j.withRegistry (j.registry.finish w false true).2
 | .timeOut w => j.withRegistry (j.registry.finish w false false).2
 | .cancel w => j.withRegistry (j.registry.finish w true false).2
 | .dropWait w => j.withRegistry (j.registry.dropWait w)
 | .claimReport id => j.withRegistry (j.registry.claimReport id).2
 | .claimUnreported => j.withRegistry j.registry.claimUnreported.2
 | .releaseDeliveries pending => j.withRegistry (j.registry.releaseDeliveries pending)
 | .acknowledge text => j.withRegistry (j.registry.acknowledge text)
 | .announce => j.withRegistry j.registry.announce
 | .post message => j.withRegistry (j.registry.post message).2
 | .claimMail => j.withRegistry j.registry.claimMail.2
 | .close => j.withRegistry j.registry.close
 | .pollClose k => j.withRegistry (j.registry.pollClose k)

def Reachable (registry : Nat) (limits : JobLimits) : JobSystem → Prop :=
 Run.Reach (· = new registry limits) step fun _ _ => True

end JobSystem

end Bake.Jobs
