import Bake.Ai.Stream
import Bake.Jobs.Drive
import Bake.Session.Step

/-!
# What a session file says of background jobs

A job's start and its end are facts in custom entries, written before the job runs and before
its end is published; a `bash` result that names the job records its start too. A notice, or
the result of a job tool that found the job terminal, tells the branch it is on how the job
ended. From these a resumed session learns which jobs of earlier processes it has not been
told of, and which ids were given out.
-/

namespace Bake.Jobs

open Bake.Ai Bake.Json Bake.Session
open OrdMap (get?)

def journalType : String := "bake.job.state"

def noticeType : String := "bake.job.notice"

def backgroundJobDetail : String := "backgroundJob"

def jobObservationDetail : String := "backgroundJobObservation"

/-! ## What is written -/

def optionalString : Option String → Value
 | some text => .string text
 | none => .null

/-- The data of a job's fact, as `record` writes it. -/
def factData (snapshot : JobSnapshot) : Value :=
 let terminal := snapshot.status.isTerminal
 .object
  [("version", .number (.ofNat 1)),
   ("phase", .string (if terminal then "terminal" else "started")),
   ("jobId", .string snapshot.id.text),
   ("kind", .string snapshot.id.kind),
   ("label", .string snapshot.label),
   ("status", .string (if terminal then snapshot.status.asStr else "running")),
   ("detail", optionalString snapshot.detail),
   ("startedAt", intValue snapshot.startedAt),
   ("finishedAt", (snapshot.finishedAt.map intValue).getD .null),
   ("outputRetained", .bool false)]

def publicStatus : JobStatus → String
 | .completing => "running"
 | status => status.asStr

def statusLine (snapshot : JobSnapshot) : String :=
 match snapshot.detail with
 | some detail => "[status: " ++ publicStatus snapshot.status ++ ", " ++ detail ++ "]"
 | none => "[status: " ++ publicStatus snapshot.status ++ "]"

def noticeDetails (id status : String) : Value :=
 .object [("jobId", .string id), ("status", .string status)]

def notice (id text status : String) (now : Int) : CustomMessage where
 customType := noticeType
 content := .blocks [.text (.new text)]
 display := true
 details := some (noticeDetails id status)
 timestamp := now

def completionNotice (snapshot : JobSnapshot) (now : Int) : CustomMessage :=
 let byUser := snapshot.stop = some (.kill (some userStopReason))
 let text := "background job " ++ snapshot.id.text ++ " (" ++ snapshot.id.kind ++ ": "
  ++ snapshot.label ++ ") finished " ++ statusLine snapshot ++ "."
  ++ (if byUser then " The user stopped it." else "") ++ " Read its output with job_output."
 notice snapshot.id.text text snapshot.status.asStr now

def lostNotice (id kind label : String) (now : Int) : CustomMessage :=
 let text := "background job " ++ id ++ " (" ++ kind ++ ": " ++ label
  ++ ") belongs to an earlier process and has no recorded final outcome [status: lost]. "
  ++ "Its output is unavailable. "
  ++ "Check whether its effects completed before starting it again."
 notice id text "lost" now

structure Started where
 kind : String
 label : String
 onBranch : Bool
 deriving DecidableEq

def recoveredCompletion (id : String) (job : Started) (status : String) (detail : Option String)
 (now : Int) : CustomMessage :=
 let detail := match detail with
  | some detail => ", " ++ detail
  | none => ""
 let text := "background job " ++ id ++ " (" ++ job.kind ++ ": " ++ job.label
  ++ ") finished in its earlier process [status: " ++ status ++ detail
  ++ "]. Its output was not retained across processes and is unavailable."
 notice id text status now

/-- The details of a job tool's result that found the job terminal. -/
def observationDetails (id status : String) : Value :=
 .object [(jobObservationDetail, .object [("id", .string id), ("status", .string status)])]

/-- The details of the `bash` result of a background command. -/
def backgroundDetails (id label : String) : Value :=
 .object [(backgroundJobDetail, .object [("id", .string id), ("label", .string label)])]

/-! ## What is read -/

def asU64 : Value → Option UInt64
 | .number number => number.asU64
 | _ => none

/-- `parse`: a number of the one kind there is. -/
def parse (id : String) : Option (String × Nat) :=
 match parseJobId id with
 | some (kind, ordinal) => if kind = "bash" then some ("bash", ordinal) else none
 | none => none

def noticeId (details : Option Value) : Option String :=
 match getStr details "jobId" with
 | none => none
 | some id =>
  if (parseJobId id).isNone then none
  else match getStr details "status" with
   | none => none
   | some status =>
    if status ∈ ["completed", "killed", "failed", "lost"] then some id else none

def terminalId (observation : Option Value) : Option String :=
 match getStr observation "id" with
 | none => none
 | some id =>
  if (parseJobId id).isNone then none
  else match getStr observation "status" with
   | none => none
   | some status => if status ∈ ["completed", "failed", "killed"] then some id else none

def terminalObservation (message : Value) : Option String :=
 match getStr (some message) "toolName", get (some message) "isError" with
 | some toolName, some (.bool isError) =>
  if toolName ∉ ["job_output", "job_kill"] ∨ isError = true then none
  else terminalId (get (get (some message) "details") jobObservationDetail)
 | _, _ => none

/-- What `project` has read: the jobs started, in order; those reported on the branch; every
id; the first end of each job. -/
structure Projection where
 started : List (String × Started)
 order : List String
 reported : List String
 recorded : List String
 terminal : List (String × String × Option String)

namespace Projection

def empty : Projection := { started := [], order := [], reported := [], recorded := [], terminal := [] }

def record (p : Projection) (id : String) : Projection := { p with recorded := p.recorded ++ [id] }

def start (p : Projection) (id kind label : String) (onBranch : Bool) : Projection :=
 match get? p.started id with
 | some known =>
  let known := { known with onBranch := known.onBranch || onBranch }
  { p with started := OrdMap.insert p.started id known }
 | none =>
  { p with
    started := OrdMap.insert p.started id { kind, label, onBranch }
    order := p.order ++ [id] }

def report (p : Projection) (id : String) (onBranch : Bool) : Projection :=
 { p.record id with reported := if onBranch then p.reported ++ [id] else p.reported }

/-- An end, unless there was one. -/
def finish (p : Projection) (id status : String) (detail : Option String) : Projection :=
 match get? p.terminal id with
 | some _ => p
 | none => { p with terminal := OrdMap.insert p.terminal id (status, detail) }

/-- A `message` entry. -/
def message (p : Projection) (onBranch : Bool) (message : Value) : Projection :=
 if getStr (some message) "role" ≠ some "toolResult" then p
 else
  let p := match terminalObservation message with
   | some id => p.report id onBranch
   | none => p
  if getStr (some message) "toolName" ≠ some "bash" then p
  else
   let job := get (get (some message) "details") backgroundJobDetail
   match getStr job "id", getStr job "label" with
   | some id, some label =>
    match splitLastHyphen id.toList with
    | none => p
    | some (kind, _) => (p.record id).start id (String.ofList kind) label onBranch
   | _, _ => p

/-- A journal entry. -/
def fact (p : Projection) (onBranch : Bool) (data : Option Value) : Projection :=
 if ((get data "version").bind asU64) ≠ some 1 then p
 else
  match getStr data "jobId" with
  | none => p
  | some id =>
   match parse id with
   | none => p
   | some (kind, _) =>
    if getStr data "kind" ≠ some kind then p
    else
     match getStr data "label" with
     | none => p
     | some label =>
      match getStr data "phase" with
      | some "started" => (p.record id).start id kind label onBranch
      | some "terminal" =>
       match getStr data "status" with
       | none => p
       | some status =>
        if status ∉ ["completed", "killed", "failed"] then p
        else (p.record id).finish id status (getStr data "detail")
      | _ => p

/-- One turn of `project`'s loop; `branch` are the ids of the entries on the branch. -/
def entry (branch : List String) (p : Projection) (entry : SessionEntry) : Projection :=
 let onBranch := decide (entry.id ∈ branch)
 let customType := (entry.get "customType").bind Value.asStr
 if entry.entryType = "message" then
  match entry.get "message" with
  | some message => p.message onBranch message
  | none => p
 else if entry.entryType = "custom_message" then
  if customType ≠ some noticeType then p
  else match noticeId (entry.get "details") with
   | some id => p.report id onBranch
   | none => p
 else if entry.entryType = "custom" ∧ customType = some journalType then
  p.fact onBranch (entry.get "data")
 else p

def highest (p : Projection) : List (String × Nat) := p.recorded.foldl (fun highest id =>
  match parse id with
  | some (kind, ordinal) =>
   OrdMap.insert highest kind (max ((get? highest kind).getD 0) ordinal)
  | none => highest) []

/-- The notices due: for each job started on the branch and not reported there. -/
def notices (p : Projection) (now : Int) : List CustomMessage :=
 (p.order.filter fun id => id ∉ p.reported ∧ (parse id).isSome).filterMap fun id =>
  (get? p.started id).bind fun job =>
   if job.onBranch then
    some <| match get? p.terminal id with
     | some (status, detail) => recoveredCompletion id job status detail now
     | none => lostNotice id job.kind job.label now
   else none

end Projection

/-- `project`'s loop. -/
def project (session : SessionManager) : Projection :=
 session.entries.foldl (.entry ((session.branchEntries none).map (·.id))) .empty

/-- `recover`: the notices, and the registry with every recorded id reserved. -/
def recover (session : SessionManager) (jobs : JobRegistry) (now : Int) :
 List CustomMessage × JobRegistry :=
 let p := project session
 (p.notices now, p.highest.foldl (fun jobs slot => (jobs.reserveOrdinals slot.1 slot.2).2) jobs)

def unobserved (session : SessionManager) (now : Int) : List CustomMessage :=
 (project session).notices now

end Bake.Jobs
