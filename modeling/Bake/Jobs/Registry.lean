import Bake.Jobs.Ids
import Bake.Session.Messages
import Bake.Work.Gate
import Bake.Lib.Utf8

/-!
# The job registry

A session's background jobs: their records, the ids given out, and what readers, waiters,
killers and the session's deliveries do to a job's report. A terminal job is reported once:
its report is unclaimed, held for the waits pending when it settled, reserved for a
delivery until the delivery's message is durable, or claimed.

A record also keeps two facts for its statements only: whether its report has been handed
out since it was last unclaimed, and whether an announcement was sent since then.
-/

namespace Bake.Jobs

open Bake.Ai Bake.Session

/-! ## Jobs -/

inductive OutputMode where
 | stream | final
 deriving DecidableEq, Repr

inductive JobStatus where
 | running | stopping | completing | completed | killed | failed
 deriving DecidableEq, Repr

def JobStatus.isTerminal : JobStatus → Bool
 | .completed | .killed | .failed => true
 | _ => false

def JobStatus.asStr : JobStatus → String
 | .running => "running"
 | .stopping => "stopping"
 | .completing => "completing"
 | .completed => "completed"
 | .killed => "killed"
 | .failed => "failed"

inductive OutcomeStatus where
 | completed | killed | failed
 deriving DecidableEq, Repr

def OutcomeStatus.toJobStatus : OutcomeStatus → JobStatus
 | .completed => .completed
 | .killed => .killed
 | .failed => .failed

structure JobOutcome where
 status : OutcomeStatus
 detail : Option String
 output : Option String
 deriving DecidableEq, Repr

def JobOutcome.killed (detail : String) : JobOutcome :=
 { status := .killed, detail := some detail, output := none }

def JobOutcome.failed (detail : String) : JobOutcome :=
 { status := .failed, detail := some detail, output := none }

inductive StopCause where
 | kill (reason : Option String)
 | shutdown
 deriving DecidableEq, Repr

structure JobSnapshot where
 id : JobId
 label : String
 output : OutputMode
 status : JobStatus
 stop : Option StopCause
 detail : Option String
 startedAt : Int
 finishedAt : Option Int
 reported : Bool
 deriving DecidableEq, Repr

structure JobSpec where
 kind : String
 label : String
 output : OutputMode

/-- `JobLimits`; waits are in milliseconds. -/
structure JobLimits where
 maxActive : Nat
 maxRetained : Nat
 streamBytes : Nat
 finalOutputBytes : Nat
 maxWait : Nat

inductive KillResult where
 | requested | alreadyStopping | alreadyFinished
 deriving DecidableEq, Repr

inductive StartError where
 | closed
 | limitReached (limit : Nat)
 | invalidKind
 | invalidLabel
 | idsExhausted
 | refused (refused : Work.Refused)
 deriving DecidableEq, Repr

inductive JobError where
 | unknown (id : String)
 | foreign (id : JobId)
 | expired (id : JobId)
 | earlierProcess (id : JobId)
 | invalidTimeout (max : Nat)
 | waitCancelled (id : JobId)
 deriving DecidableEq, Repr

/-- `JobError`'s `Display`. -/
def JobError.text : JobError → String
 | .unknown id => "unknown job " ++ id
 | .foreign id => "job " ++ id.text ++ " belongs to another session"
 | .expired id => "job " ++ id.text ++ " finished and is no longer kept"
 | .earlierProcess id =>
  "job " ++ id.text ++ " ran in an earlier process of this session and did not survive it"
 | .invalidTimeout max =>
  "invalid wait timeout: expected more than 0 and at most " ++ toString max ++ " ms"
 | .waitCancelled id => "the wait for job " ++ id.text ++ " was cancelled"

def userStopReason : String := "stopped by the user"

/-! ## Streamed output -/

/-- `StreamBuffer`, but for what viewers see of it. -/
structure StreamBuffer where
 bytes : List UInt8
 dropped : Nat
 cap : Nat
 closed : Bool
 deriving DecidableEq, Repr

def continues (byte : UInt8) : Bool := byte &&& 0xC0 == 0x80

def sequenceLength (byte : UInt8) : Option Nat :=
 if 0xC0 ≤ byte ∧ byte ≤ 0xDF then some 2
 else if 0xE0 ≤ byte ∧ byte ≤ 0xEF then some 3
 else if 0xF0 ≤ byte ∧ byte ≤ 0xF7 then some 4
 else none

/-- How many of the last bytes begin a character they do not end, looking at the `back`-th
byte from the end and those before it. -/
def unfinished (back : Nat) : List UInt8 → Nat
 | [] => 0
 | byte :: before =>
  match sequenceLength byte with
  | some length => if back < length then back else 0
  | none => if continues byte then unfinished (back + 1) before else 0

namespace StreamBuffer

def new (cap : Nat) : StreamBuffer := { bytes := [], dropped := 0, cap, closed := false }

def append (stream : StreamBuffer) (data : List UInt8) : Bool × StreamBuffer :=
 if stream.closed then (false, stream)
 else
  let kept : List UInt8 × Nat :=
   if stream.cap ≤ data.length then
    (data.drop (data.length - stream.cap),
     stream.dropped + (stream.bytes.length + data.length - stream.cap))
   else
    let all := stream.bytes ++ data
    let excess := all.length - stream.cap
    (all.drop excess, stream.dropped + excess)
  -- a cut that landed inside a character drops the rest of it too
  let cutOff := if 0 < kept.2 then ((kept.1.take 3).takeWhile continues).length else 0
  (true, { stream with bytes := kept.1.drop cutOff, dropped := kept.2 + cutOff })

def take (stream : StreamBuffer) (flush : Bool) : (String × Nat) × StreamBuffer :=
 let stop := stream.bytes.length - if flush then 0 else unfinished 1 (stream.bytes.reverse.take 3)
 ((String.ofList (Utf8.lossy (stream.bytes.take stop)), stream.dropped),
  { stream with bytes := stream.bytes.drop stop, dropped := 0 })

end StreamBuffer

/-! ## Records -/

/-- `Claim`: the reporting claim on a job's terminal state. -/
inductive Claim where
 | unclaimed | waiters | delivery | claimed
 deriving DecidableEq, Repr

/-- `Record`. Its gate is the one of the driver with that number. `handed` and `announced`
are for its statements: since the report was last unclaimed it was handed to a caller or
the job was stopped with its report claimed, or an announcement was sent. -/
structure Record where
 id : JobId
 label : String
 output : OutputMode
 status : JobStatus
 stop : Option StopCause
 detail : Option String
 finalOutput : Option String
 finalOmitted : Nat
 stream : Option StreamBuffer
 startedAt : Int
 finishedAt : Option Int
 claim : Claim
 admission : Option (Except String Unit)
 waiters : Nat
 gate : Nat
 handed : Bool
 announced : Bool

namespace Record

def terminal (record : Record) : Bool := record.status.isTerminal

def snapshot (record : Record) : JobSnapshot where
 id := record.id
 label := record.label
 output := record.output
 status := record.status
 stop := record.stop
 detail := record.detail
 startedAt := record.startedAt
 finishedAt := record.finishedAt
 reported := record.claim != .unclaimed

/-- A terminal job nothing is registered on may be dropped. -/
def evictable (record : Record) : Bool := record.terminal && record.waiters == 0

def reportable (record : Record) : Bool := record.terminal && record.claim == .unclaimed

/-- Its report is handed to a caller, who claims it unless it is claimed for good. -/
def hand (record : Record) (claim : Claim) : Record :=
 { record with claim := if record.claim = .claimed then .claimed else claim, handed := true }

/-- Its report is unclaimed again. -/
def release (record : Record) : Record :=
 { record with claim := .unclaimed, handed := false, announced := false }

end Record

structure KindIds where
 kind : String
 floor : Nat
 last : Nat
 deriving DecidableEq, Repr

structure JobRead where
 text : String
 omittedBytes : Nat
 snapshot : JobSnapshot

/-- A wait that was registered, until it ends or is dropped. -/
structure Waiter where
 id : JobId
 registered : Bool
 deriving DecidableEq, Repr

/-- `JobRegistry`: its state, the waits on it, the calls of `close` and whether each one's
future has resolved, and what has left the lock and is still to be done: the gates to be
closed and the announcements to be sent. -/
structure JobRegistry where
 registry : Nat
 limits : JobLimits
 /-- Whether a recorder is attached. -/
 recorder : Bool
 closed : Bool
 kinds : List KindIds
 records : List Record
 mail : List CustomMessage
 generation : Nat
 waits : List Waiter
 closes : List Bool
 closing : List Nat
 announcing : Nat

namespace JobRegistry

def new (registry : Nat) (limits : JobLimits) : JobRegistry where
 registry
 limits
 recorder := false
 closed := false
 kinds := []
 records := []
 mail := []
 generation := 0
 waits := []
 closes := []
 closing := []
 announcing := 0

def kind? (r : JobRegistry) (kind : String) : Option KindIds := r.kinds.find? (·.kind = kind)

/-- `State::kind_mut`, and a change of what it finds. -/
def modifyKind (r : JobRegistry) (kind : String) (f : KindIds → KindIds) : JobRegistry :=
 match r.kind? kind with
 | some _ => { r with kinds := r.kinds.map fun ids => if ids.kind = kind then f ids else ids }
 | none => { r with kinds := r.kinds ++ [f { kind, floor := 0, last := 0 }] }

def find (r : JobRegistry) (id : JobId) : Except JobError Record :=
 if id.registry ≠ r.registry then .error (.foreign id)
 else
  match r.records.find? (·.id = id) with
  | some record => .ok record
  | none =>
   .error <| match r.kind? id.kind with
    | some ids =>
     if id.ordinal ≤ ids.floor then .earlierProcess id
     else if id.ordinal ≤ ids.last then .expired id
     else .unknown id.text
    | none => .unknown id.text

/-- Writes to the record `find` has found. -/
def put (r : JobRegistry) (record : Record) : JobRegistry :=
 { r with records := r.records.map fun old => if old.id = record.id then record else old }

def active (r : JobRegistry) : Nat := r.records.countP fun record => !record.terminal

/-- One turn of `State::evict`'s loop. -/
def evictOne (records : List Record) : List Record :=
 match records.findIdx? fun record => record.evictable && record.claim == .claimed with
 | some index => records.eraseIdx index
 | none =>
  match records.findIdx? Record.evictable with
  | some index => records.eraseIdx index
  | none => records

/-- `State::evict`: at most as many turns as there are terminal jobs too many. -/
def evict (max : Nat) (records : List Record) : List Record :=
 evictOne^[records.countP Record.terminal - max] records

def deliveryClaim (r : JobRegistry) : Claim := if r.recorder then .delivery else .claimed

/-- `Inner::announce`, sent by an operation that has left the lock. -/
def announce (r : JobRegistry) : JobRegistry :=
 match r.announcing with
 | 0 => r
 | pending + 1 =>
  { r with
    announcing := pending
    generation := (r.generation + 1) % 2 ^ 64
    records := r.records.map fun record => { record with announced := true } }

/-! ## Admission -/

def attachRecorder (r : JobRegistry) : JobRegistry :=
 if !r.records.isEmpty || r.closed || r.recorder then r else { r with recorder := true }

/-- `JobRegistry::start`, for a job whose driver has the number `gate`. The session's gate
spawns the driver or refuses it. -/
def start (r : JobRegistry) (spec : JobSpec) (gate : Nat) (spawned : Except Work.Refused Unit)
 (now : Int) : Except StartError JobId × JobRegistry :=
 if !validKind spec.kind then (.error .invalidKind, r)
 else if isBlank spec.label then (.error .invalidLabel, r)
 else if r.closed then (.error .closed, r)
 else if r.limits.maxActive ≤ r.active then (.error (.limitReached r.limits.maxActive), r)
 else
  let last := ((r.kind? spec.kind).map (·.last)).getD 0
  if maxOrdinal ≤ last then (.error .idsExhausted, r)
  else
   let id : JobId := { registry := r.registry, kind := spec.kind, ordinal := last + 1 }
   match spawned with
   | .error .closed => (.error .closed, r)
   | .error refused => (.error (.refused refused), r)
   | .ok _ =>
    let r := r.modifyKind spec.kind fun ids => { ids with last := last + 1 }
    (.ok id, { r with
     records := r.records ++
      [{ id
         label := cut spec.label maxTextBytes
         output := spec.output
         status := .running
         stop := none
         detail := none
         finalOutput := none
         finalOmitted := 0
         stream := if spec.output = .stream then some (.new r.limits.streamBytes) else none
         startedAt := now
         finishedAt := none
         claim := .unclaimed
         admission := none
         waiters := 0
         gate
         handed := false
         announced := false }] })

def reserveOrdinals (r : JobRegistry) (kind : String) (through : Nat) :
 Except StartError Unit × JobRegistry :=
 if !validKind kind then (.error .invalidKind, r)
 else
  (.ok (), r.modifyKind kind fun ids =>
   { ids with floor := max ids.floor through, last := max ids.last through })

def id (r : JobRegistry) (text : String) : Except JobError JobId :=
 let unknown := JobError.unknown (cut text 64)
 match parseJobId text with
 | none => .error unknown
 | some (kind, ordinal) =>
  match r.kind? kind with
  | none => .error unknown
  | some ids =>
   if ids.last < ordinal then .error unknown
   else .ok { registry := r.registry, kind := ids.kind, ordinal }

/-! ## The driver's part -/

def admitted (r : JobRegistry) (id : JobId) (admission : Except String Unit) : JobRegistry :=
 match r.find id with
 | .ok record => r.put { record with admission := some admission }
 | .error _ => r

/-- `Inner::request_stop`. Its gate is to be closed. -/
def requestStop (r : JobRegistry) (id : JobId) (cause : StopCause) : JobRegistry :=
 match r.find id with
 | .ok record =>
  if record.terminal then r
  else
   let claimed := { record with claim := .claimed, handed := true }
   let stopped :=
    if record.status = .running then
     { claimed with status := .stopping, stop := some (record.stop.getD cause) }
    else claimed
   { r.put stopped with closing := r.closing ++ [record.gate] }
 | .error _ => r

def producerReturned (r : JobRegistry) (id : JobId) : JobRegistry :=
 match r.find id with
 | .ok record => if record.terminal then r else r.put { record with status := .completing }
 | .error _ => r

def settled (limits : JobLimits) (record : Record) (outcome : JobOutcome) (now : Int) : Record :=
 let output := tail (outcome.output.getD "") limits.finalOutputBytes
 { record with
   status := outcome.status.toJobStatus
   detail := outcome.detail.map (cut · maxTextBytes)
   finalOutput := if record.output = .final then some output.1 else record.finalOutput
   finalOmitted := if record.output = .final then output.2 else record.finalOmitted
   stream := record.stream.map fun stream => { stream with closed := true }
   finishedAt := some now
   claim :=
    if record.claim = .claimed then .claimed
    else if 0 < record.waiters then .waiters
    else .unclaimed
   announced := false }

def settle (r : JobRegistry) (id : JobId) (outcome : JobOutcome) (now : Int) : JobRegistry :=
 match r.find id with
 | .ok record =>
  if record.terminal then r
  else
   let record := settled r.limits record outcome now
   let announces := !r.closed && record.claim == .unclaimed
   let put := r.put record
   { put with
     records := evict r.limits.maxRetained put.records
     announcing := r.announcing + if announces then 1 else 0 }
 | .error _ => r

/-- `Inner::journal_failed`, its first part: no later delivery. -/
def claimFailed (r : JobRegistry) (id : JobId) : JobRegistry :=
 match r.find id with
 | .ok record => r.put { record with claim := .claimed }
 | .error _ => r

/-- `JobOutput::append`, by a producer whose driver has the number `gate`. -/
def append (r : JobRegistry) (gate : Nat) (data : List UInt8) : JobRegistry :=
 { r with
   records := r.records.map fun record =>
    if record.gate = gate then
     { record with stream := record.stream.map fun stream => (stream.append data).2 }
    else record }

/-! ## Readers, killers and reports -/

def read (r : JobRegistry) (id : JobId) : Except JobError JobRead × JobRegistry :=
 match r.find id with
 | .error error => (.error error, r)
 | .ok record =>
  let taken : (String × Nat) × Option StreamBuffer :=
   match record.stream with
   | some stream =>
    let (taken, stream) := stream.take record.terminal
    (taken, some stream)
   | none =>
    if record.terminal then ((record.finalOutput.getD "", record.finalOmitted), none)
    else (("", 0), none)
  let record := { record with stream := taken.2 }
  let record := if record.terminal then record.hand r.deliveryClaim else record
  (.ok { text := taken.1.1, omittedBytes := taken.1.2, snapshot := record.snapshot }, r.put record)

/-- `JobRegistry::request_kill`. Its gate is to be closed. -/
def requestKill (r : JobRegistry) (id : JobId) (reason : Option String) (claim : Bool) :
 Except JobError KillResult × JobRegistry :=
 match r.find id with
 | .error error => (.error error, r)
 | .ok record =>
  if record.terminal then
   (.ok .alreadyFinished, if claim then r.put (record.hand r.deliveryClaim) else r)
  else
   let record := if claim then { record with claim := .claimed, handed := true } else record
   if record.status ≠ .running then (.ok .alreadyStopping, r.put record)
   else
    let stopped := { record with
     status := .stopping
     stop := some (.kill (reason.map (cut · maxTextBytes))) }
    (.ok .requested, { r.put stopped with closing := r.closing ++ [record.gate] })

def kill (r : JobRegistry) (id : JobId) (reason : Option String) :
 Except JobError KillResult × JobRegistry := r.requestKill id reason true

def stop (r : JobRegistry) (id : JobId) : Except JobError KillResult × JobRegistry :=
 r.requestKill id (some userStopReason) false

def claimReport (r : JobRegistry) (id : JobId) : Except JobError Bool × JobRegistry :=
 match r.find id with
 | .error error => (.error error, r)
 | .ok record =>
  if record.reportable then (.ok true, r.put (record.hand r.deliveryClaim)) else (.ok false, r)

def claimUnreported (r : JobRegistry) : List JobSnapshot × JobRegistry :=
 if r.closed then ([], r)
 else
  ((r.records.filter (·.reportable)).map fun record => (record.hand r.deliveryClaim).snapshot,
   { r with
     records := r.records.map fun record =>
      if record.reportable then record.hand r.deliveryClaim else record })

def hasUndelivered (r : JobRegistry) : Bool := !r.mail.isEmpty || r.records.any (·.reportable)

def acknowledge (r : JobRegistry) (text : String) : JobRegistry :=
 match r.id text with
 | .error _ => r
 | .ok id =>
  match r.find id with
  | .ok record =>
   if record.terminal then r.put { record with claim := .claimed, handed := true } else r
  | .error _ => r

/-- A report reserved for a delivery that is not among the pending ones. -/
def abandoned (pending : List String) (record : Record) : Bool :=
 record.claim == .delivery && !pending.contains record.id.text

def releaseDeliveries (r : JobRegistry) (pending : List String) : JobRegistry :=
 if r.closed then r
 else
  { r with
    records := r.records.map fun record =>
     if abandoned pending record then record.release else record
    announcing := r.announcing + if r.records.any (abandoned pending) then 1 else 0 }

/-! ## Waits -/

/-- `JobRegistry::wait` up to its loop: the terminal snapshot, or none for a registered
wait. -/
def wait (r : JobRegistry) (id : JobId) (timeout : Nat) :
 Except JobError (Option JobSnapshot) × JobRegistry :=
 if timeout = 0 ∨ r.limits.maxWait < timeout then (.error (.invalidTimeout r.limits.maxWait), r)
 else
  match r.find id with
  | .error error => (.error error, r)
  | .ok record =>
   if record.terminal then
    let record := record.hand r.deliveryClaim
    (.ok (some record.snapshot), r.put record)
   else
    let put := r.put { record with waiters := record.waiters + 1 }
    (.ok none, { put with waits := r.waits ++ [{ id, registered := true }] })

/-- The wait `w` is no longer registered. -/
def unregister (r : JobRegistry) (w : Nat) : JobRegistry :=
 { r with waits := r.waits.modify w fun waiter => { waiter with registered := false } }

/-- `Waiter::finish`, for the registered wait `w`. -/
def finish (r : JobRegistry) (w : Nat) (cancelled onlyTerminal : Bool) :
 Except JobError (Option JobSnapshot) × JobRegistry :=
 match r.waits[w]? with
 | none => (.ok none, r)
 | some waiter =>
  if !waiter.registered then (.ok none, r)
  else
   match r.find waiter.id with
   | .error error => (.error error, r)
   | .ok record =>
    if !record.terminal && onlyTerminal then (.ok none, r)
    else
     let record := { record with waiters := record.waiters - 1 }
     if record.terminal then
      let record := record.hand r.deliveryClaim
      (.ok (some record.snapshot), (r.put record).unregister w)
     else
      (.ok (if cancelled then none else some record.snapshot), (r.put record).unregister w)

/-- `Waiter::drop`, for the wait `w`. -/
def dropWait (r : JobRegistry) (w : Nat) : JobRegistry :=
 match r.waits[w]? with
 | none => r
 | some waiter =>
  if !waiter.registered then r
  else
   match r.find waiter.id with
   | .error _ => r.unregister w
   | .ok record =>
    let record := { record with waiters := record.waiters - 1 }
    let released := record.waiters == 0 && record.claim == .waiters
    let record := if released then record.release else record
    let put := (r.put record).unregister w
    { put with
      records := evict r.limits.maxRetained put.records
      announcing := r.announcing + if released && !r.closed then 1 else 0 }

/-! ## Notices and the close -/

def post (r : JobRegistry) (message : CustomMessage) : Except StartError Unit × JobRegistry :=
 if r.closed then (.error .closed, r)
 else (.ok (), { r with mail := r.mail ++ [message], announcing := r.announcing + 1 })

def claimMail (r : JobRegistry) : List CustomMessage × JobRegistry := (r.mail, { r with mail := [] })

/-- `JobRegistry::close`: its part under the lock, and the future it returns. The gates of
the live jobs are to be closed. -/
def close (r : JobRegistry) : JobRegistry :=
 { r with
   closed := true
   mail := []
   records := r.records.map fun record =>
    let claimed := { record with claim := .claimed }
    if record.status = .running then
     { claimed with status := .stopping, stop := some (record.stop.getD .shutdown) }
    else claimed
   closes := r.closes ++ [false]
   closing := r.closing ++ (r.records.filter fun record => !record.terminal).map (·.gate) }

/-- The future of a close looks whether every job is terminal. -/
def pollClose (r : JobRegistry) (k : Nat) : JobRegistry :=
 if r.closes[k]? = some false ∧ r.active = 0 then { r with closes := r.closes.set k true } else r

end JobRegistry

end Bake.Jobs
