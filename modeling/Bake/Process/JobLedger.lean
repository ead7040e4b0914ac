import Bake.Lib.OrdMap
import Mathlib.Algebra.GroupWithZero.Nat

/-!
# The account of a killed tree

The processes a job reported, each held by handle until it is signalled, and what is counted
of them: for each pid the larger of two lower bounds on the processes the job associated under
it. A poll compares the sum with the job's lifetime count.
-/

namespace Bake.Process

open OrdMap (get?)

def maxRecords : Nat := 2 ^ 20

/-- `Opened`: what opening a reported pid found. -/
inductive Opened (H : Type) where
 | noSuchProcess
 | otherProcess
 | member (created : Option Nat) (handle : H)
 | unknown

inductive Record (H : Type) where
 | live (created : Option Nat) (handle : H)
 | ended (created : Option Nat)
 | vanished
 | unresolved

/-- A record that a check or a retry visits. -/
def Record.isOpen {H : Type} : Record H → Bool
 | .live _ _ | .unresolved => true
 | _ => false

inductive Verdict where
 | settled
 | pending (why : String)
 | contradiction (why : String)
 deriving DecidableEq, Repr

/-- `Tally`: one pid's lower bounds. -/
structure Tally where
 members : Nat
 messages : Nat
 deriving DecidableEq, Repr

def Tally.zero : Tally := { members := 0, messages := 0 }

def Tally.counted (tally : Tally) : Nat :=
 if tally.members = 0 then 0 else max tally.members tally.messages

/-- `Ledger`. Its sets of pids are lists without repetition. -/
structure Ledger (H : Type) where
 records : List (UInt32 × Record H)
 openPids : List UInt32
 exitedPids : List UInt32
 tallies : List (UInt32 × Tally)
 counted : Nat
 contradiction : Option String

/-- `HashSet::insert`. -/
def insertPid (pids : List UInt32) (pid : UInt32) : List UInt32 :=
 if pid ∈ pids then pids else pids ++ [pid]

/-- `HashSet::remove`. -/
def removePid (pids : List UInt32) (pid : UInt32) : List UInt32 := pids.filter (· ≠ pid)

@[simp] theorem mem_insertPid {pids : List UInt32} {pid q : UInt32} :
 q ∈ insertPid pids pid ↔ q ∈ pids ∨ q = pid := by
 unfold insertPid
 split
 next h =>
  exact ⟨.inl, fun hq => hq.elim id fun he => he ▸ h⟩
 · simp

@[simp] theorem mem_removePid {pids : List UInt32} {pid q : UInt32} :
 q ∈ removePid pids pid ↔ q ∈ pids ∧ q ≠ pid := by
 simp [removePid]

/-- What a report makes of a pid's record: the members it adds, the record, and a
contradiction. -/
def observed {H : Type} : Option (Record H) → Opened H → Nat × Record H × Option String
 | none, .noSuchProcess | none, .otherProcess
 | some .unresolved, .noSuchProcess | some .unresolved, .otherProcess => (1, .vanished, none)
 | none, .member created handle | some .unresolved, .member created handle =>
  (1, .live created handle, none)
 | none, .unknown | some .unresolved, .unknown => (0, .unresolved, none)
 -- a held handle pins the pid: it can only name the same member
 | some (.live created handle), .member now _ =>
  let differs := match created, now with
   | some created, some now => decide (created ≠ now)
   | _, _ => false
  (0, .live (created.or now) handle,
   if differs then some "a held member's pid named another member" else none)
 | some (.live created handle), .noSuchProcess | some (.live created handle), .otherProcess =>
  (0, .live created handle, some "a held member's pid was released")
 | some (.live created handle), .unknown => (0, .live created handle, none)
 | some (.ended (some ended)), .member (some now) handle =>
  if ended ≠ now then (1, .live (some now) handle, none) else (0, .ended (some ended), none)
 | some (.ended created), _ => (0, .ended created, none)
 | some .vanished, .member created handle => (1, .live created handle, none)
 | some .vanished, _ => (0, .vanished, none)

namespace Ledger

variable {H : Type}

/-- `Ledger::default`. -/
def empty : Ledger H where
 records := []
 openPids := []
 exitedPids := []
 tallies := []
 counted := 0
 contradiction := none

def contradict (l : Ledger H) (why : String) : Ledger H :=
 { l with contradiction := some (l.contradiction.getD why) }

def exited (l : Ledger H) (pid : UInt32) : Ledger H :=
 match get? l.records pid with
 | some _ => { l with exitedPids := insertPid l.exitedPids pid }
 | none => l

def tally (l : Ledger H) (pid : UInt32) (members messages : Nat) : Ledger H :=
 let before := (get? l.tallies pid).getD .zero
 let after : Tally :=
  { members := before.members + members, messages := before.messages + messages }
 { l with
   tallies := OrdMap.insert l.tallies pid after
   counted := l.counted + (after.counted - before.counted) }

/-- `Ledger::observe`: the members counted, and the account. -/
def observe (l : Ledger H) (pid : UInt32) (opened : Opened H) : Nat × Ledger H :=
 let (members, next, why) := observed (get? l.records pid) opened
 let l := match why with
  | some why => l.contradict why
  | none => l
 (members,
  { l with
    records := OrdMap.insert l.records pid next
    openPids := if next.isOpen then insertPid l.openPids pid else removePid l.openPids pid })

/-- `Ledger::reported`; `opened` is what opening the pid finds. -/
def reported (l : Ledger H) (pid : UInt32) (opened : Opened H) : Ledger H :=
 if pid = 0 then l.contradict "a new-process message named pid 0"
 else
  let first := (get? l.records pid).isNone
  if first && decide (maxRecords ≤ l.records.length) then
   l.contradict "more distinct pids than the account keeps"
  else
   let afterExit := decide (pid ∈ l.exitedPids)
   let (members, l) :=
    { l with exitedPids := removePid l.exitedPids pid }.observe pid opened
   l.tally pid members (if first || afterExit then 1 else 0)

def unresolved (l : Ledger H) : List UInt32 := l.openPids.filter fun pid =>
  match get? l.records pid with
  | some .unresolved => true
  | _ => false

/-- One turn of `retry`'s loop. -/
def retryPid (open_ : UInt32 → Opened H) (l : Ledger H) (pid : UInt32) : Ledger H :=
 let (members, l) := l.observe pid (open_ pid)
 l.tally pid members 0

/-- `Ledger::retry`; `open_` is what opening each pid finds. -/
def retry (l : Ledger H) (open_ : UInt32 → Opened H) : Ledger H :=
 l.unresolved.foldl (retryPid open_) l

/-- What a check finds of an open pid. -/
inductive Seen where
 | ended (created : Option Nat)
 | waiting
 | failed
 deriving DecidableEq

/-- What a check finds of the pid; `signalled` reads a handle. -/
def seen (l : Ledger H) (signalled : H → Option Bool) (pid : UInt32) : Seen :=
 match get? l.records pid with
 | some (.live created handle) =>
  match signalled handle with
  | some true => .ended created
  | some false => .waiting
  | none => .failed
 | some .unresolved => .waiting
 | _ => .failed

/-- The record of a member that ended. -/
def finish (l : Ledger H) (pid : UInt32) (created : Option Nat) : Ledger H :=
 { l with
   records := OrdMap.insert l.records pid (.ended created)
   openPids := removePid l.openPids pid }

/-- `Ledger::check`: how many members wait, none when a handle cannot be read. -/
def check (l : Ledger H) (signalled : H → Option Bool) : Option Nat × Ledger H :=
 let found := l.openPids.map fun pid => (pid, l.seen signalled pid)
 (if found.any (·.2 = .failed) then none else some (found.filter (·.2 = .waiting)).length,
  found.foldl (fun l entry =>
   match entry.2 with
   | .ended created => l.finish entry.1 created
   | _ => l) l)

def verdict (l : Ledger H) (before after active : Nat) (waiting : Option Nat) : Verdict :=
 match l.contradiction with
 | some why => .contradiction why
 | none =>
  if after < before then .contradiction "the job's lifetime count went down"
  else if before < l.counted ∧ before = after then
   .contradiction "more members counted than the job associated"
  else
   match waiting with
   | none => .pending "a member's handle could not be checked"
   | some 0 =>
    if l.counted < before then .pending "fewer members named than the job associated"
    else if before ≠ after ∨ l.counted ≠ after then
     .pending "the job associated more processes meanwhile"
    else if active ≠ 0 then .pending "the job still counts an active process"
    else .settled
   | some _ => .pending "a named member has not ended"

end Ledger

end Bake.Process
