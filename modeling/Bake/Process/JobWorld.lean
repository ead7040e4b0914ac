import Bake.Process.JobLedger
import Bake.Lib.Run

/-!
# A job and its account

The processes a job associated, under each pid one after another; the messages queued of
them, taken in the order queued; and the account kept of both. A pid is taken again only
when the process that had it is signalled, its exit message was queued or lost, and the
account holds no handle to it. Opening a pid answers truthfully, or that it is unknown, or
withholds the creation time; a pid no process of the job has may belong to another process.

A message also says which of its pid's processes it is about, for its statements only: the
account sees the pid alone.
-/

namespace Bake.Process

/-- A process is known by its pid and its creation time. -/
abbrev Handle := UInt32 × Nat

inductive ExitMessage where
 | pending | queued | lost
 deriving DecidableEq, Repr

/-- A process the job associated; `told` is whether a new-process message was queued. -/
structure Member where
 created : Nat
 told : Bool
 signalled : Bool
 exit : ExitMessage
 released : Bool
 deriving DecidableEq, Repr

/-- A message about the `rank`-th process associated under a pid. -/
structure Note where
 isExit : Bool
 rank : Nat
 deriving DecidableEq, Repr

/-- A settle poll: the lifetime count read first, and what the check found. -/
inductive Poll where
 | idle
 | before (total : Nat)
 | checked (total : Nat) (waiting : Option Nat)
 deriving DecidableEq, Repr

/-- The latest process of each pid stands first. -/
structure JobWorld where
 processes : List (UInt32 × List Member)
 queue : List (UInt32 × Note)
 ledger : Ledger Handle
 poll : Poll

/-- How a pid's opening answers. -/
inductive Opening where
 | unknown
 | truthful (timed other : Bool)
 deriving DecidableEq, Repr

inductive JobInput where
 /-- The job associates a process. -/
 | associate (pid : UInt32) (created : Nat)
 /-- A new-process message of the pid's latest process is queued. -/
 | announce (pid : UInt32)
 | signal (pid : UInt32)
 /-- Its exit message is queued or lost. -/
 | exit (pid : UInt32) (lost : Bool)
 | release (pid : UInt32)
 /-- The account takes the oldest message. -/
 | take (opening : Opening)
 | retry (opening : UInt32 → Opening)
 /-- A poll begins. -/
 | total
 | check (readable : Handle → Bool)
 /-- A poll ends. -/
 | verdict

namespace JobWorld

def new : JobWorld where
 processes := []
 queue := []
 ledger := .empty
 poll := .idle

def under (w : JobWorld) (pid : UInt32) : List Member := (OrdMap.get? w.processes pid).getD []

/-- The job's lifetime count. -/
def associated (w : JobWorld) : Nat := (w.processes.map fun entry => entry.2.length).sum

def Ended (w : JobWorld) : Prop := ∀ entry ∈ w.processes, ∀ p ∈ entry.2, p.signalled = true

/-- No message was lost: each process's new-process message was queued, no exit message was
lost. -/
def NoneLost (w : JobWorld) : Prop :=
 ∀ entry ∈ w.processes, ∀ p ∈ entry.2, p.told = true ∧ p.exit ≠ .lost

def current (w : JobWorld) (pid : UInt32) : Option Member :=
 match w.under pid with
 | p :: _ => if p.released then none else some p
 | [] => none

def opened (w : JobWorld) (pid : UInt32) : Opening → Opened Handle
 | .unknown => .unknown
 | .truthful timed other =>
  match w.current pid with
  | some p => .member (if timed then some p.created else none) (pid, p.created)
  | none => if other then .otherProcess else .noSuchProcess

def signalled (w : JobWorld) (handle : Handle) : Option Bool :=
 ((w.under handle.1).find? (·.created = handle.2)).map (·.signalled)

def held (w : JobWorld) (handle : Handle) : Bool :=
 match OrdMap.get? w.ledger.records handle.1 with
 | some (.live _ h) => h = handle
 | _ => false

def put (w : JobWorld) (pid : UInt32) (ps : List Member) : JobWorld :=
 { w with processes := OrdMap.insert w.processes pid ps }

def push (w : JobWorld) (pid : UInt32) (note : Note) : JobWorld :=
 { w with queue := w.queue ++ [(pid, note)] }

def polling (w : JobWorld) : Bool :=
 match w.poll with
 | .checked _ _ => true
 | _ => false

/-- The account takes a message. -/
def deliver (w : JobWorld) (pid : UInt32) (note : Note) (opening : Opening) : JobWorld :=
 if note.isExit then { w with ledger := w.ledger.exited pid }
 else { w with ledger := w.ledger.reported pid (w.opened pid opening) }

def step (w : JobWorld) : JobInput → JobWorld
 | .associate pid created =>
  if (w.current pid).isNone && (w.under pid).all (·.created ≠ created) then
   w.put pid ({ created, told := false, signalled := false, exit := .pending, released := false }
     :: w.under pid)
  else w
 | .announce pid =>
  match w.under pid with
  | p :: rest =>
   if p.exit = .pending then
    (w.put pid ({ p with told := true } :: rest)).push pid
     { isExit := false, rank := rest.length + 1 }
   else w
  | [] => w
 | .signal pid =>
  match w.under pid with
  | p :: rest => w.put pid ({ p with signalled := true } :: rest)
  | [] => w
 | .exit pid lost =>
  match w.under pid with
  | p :: rest =>
   if p.exit = .pending then
    if lost then w.put pid ({ p with exit := .lost } :: rest)
    else
     (w.put pid ({ p with exit := .queued } :: rest)).push pid
      { isExit := true, rank := rest.length + 1 }
   else w
  | [] => w
 | .release pid =>
  match w.under pid with
  | p :: rest =>
   if p.signalled && decide (p.exit ≠ .pending) && !w.held (pid, p.created) then
    w.put pid ({ p with released := true } :: rest)
   else w
  | [] => w
 | .take opening =>
  if w.polling then w
  else
   match w.queue with
   | (pid, note) :: rest => { w with queue := rest }.deliver pid note opening
   | [] => w
 | .retry opening =>
  if w.polling then w
  else { w with ledger := w.ledger.retry fun pid => w.opened pid (opening pid) }
 | .total =>
  if w.polling || !w.queue.isEmpty then w else { w with poll := .before w.associated }
 | .check readable =>
  if w.polling then w
  else
   let (waiting, ledger) := w.ledger.check fun handle =>
    if readable handle then w.signalled handle else none
   match w.poll with
   | .before total =>
    if w.queue.isEmpty then { w with ledger, poll := .checked total waiting }
    else { w with ledger }
   | _ => { w with ledger }
 | .verdict => if w.polling then { w with poll := .idle } else w

/-- What a poll that ends now answers, with the job's active count as it is read. -/
def verdict? (w : JobWorld) (active : Nat) : Option Verdict :=
 match w.poll with
 | .checked total waiting => some (w.ledger.verdict total w.associated active waiting)
 | _ => none

end JobWorld

end Bake.Process
