import Bake.Lib.OrdMap
import Bake.Lib.Run
import Mathlib.Order.Lattice
import Mathlib.Algebra.GroupWithZero.Nat

/-!
# A deterministic script run

The script's thread drives the VM; handles answer the calls it makes. An answer is accepted
under the lock of the call book, which knows the calls that wait and the result numbers used,
and is sent to the thread. The thread applies answers strictly in the order of their numbers,
those that come early from a buffer, under a clock that never goes back.

The VM is any machine that answers each delivery with a finite turn: calls, outputs, and then
its end or the state it waits in. Ids are the prelude's, counted from one.
-/

namespace Bake.Codemode

/-! ## The machine -/

/-- What the VM is driven by. -/
structure Delivery (τ ρ : Type) where
 seq : UInt32
 clock : τ
 id : UInt32
 result : ρ

inductive Turn (σ κ ω ε : Type) where
 | wait (vm : σ)
 | call (what : κ) (bytes : Nat) (rest : Turn σ κ ω ε)
 | output (item : ω) (rest : Turn σ κ ω ε)
 /-- The end the prelude reports. -/
 | done (result : ε)
 /-- The VM fails. -/
 | fail (result : ε)

def Turn.size {σ κ ω ε : Type} : Turn σ κ ω ε → Nat
 | .call _ _ rest | .output _ rest => rest.size + 1
 | .wait _ | .done _ | .fail _ => 1

/-- A VM: the script's first turn and what each delivery makes of a state it waits in. -/
structure Machine (σ τ ρ κ ω ε : Type) where
 first : Turn σ κ ω ε
 deliver : σ → Delivery τ ρ → Turn σ κ ω ε

inductive StopReason where
 | aborted
 | timedOut
deriving DecidableEq

inductive CallFailure where
 | badId
 | tooManyCalls
 | tooManyBytes
 | duplicateId
deriving DecidableEq

inductive Outcome (ε : Type) where
 /-- The script's own end, with the result being processed and the calls issued. -/
 | reported (result : ε) (seq : UInt32) (issued : Nat)
 | failed (result : ε)
 | refused (failure : CallFailure)
 | stopped (reason : StopReason)

inductive Event (κ ω ε : Type) where
 | call (id : UInt32) (what : κ)
 | output (item : ω)
 | idle (seq : UInt32) (issued : Nat)
 | done (outcome : Outcome ε)

/-! ## The script's thread -/

inductive Phase (σ κ ω ε : Type) where
 | turn (rest : Turn σ κ ω ε)
 /-- The VM waits: the next answer is applied, or awaited. -/
 | idle (vm : σ)
 /-- The outcome is decided. -/
 | ended (outcome : Outcome ε)
 /-- The outcome is reported, and the thread is gone. -/
 | gone (outcome : Outcome ε)

def maxPendingCalls : Nat := 1024

def maxPendingArgumentBytes : Nat := 64 * 2 ^ 20

/-- `u32::MAX`. -/
def maxNumber : UInt32 := 0xffffffff

/-- The number after `n`; the last one stays. -/
def nextNumber (n : UInt32) : UInt32 := if n = maxNumber then n else n + 1

/-- What the thread has to itself. -/
structure Script (σ τ ρ κ ω ε : Type) where
 phase : Phase σ κ ω ε
 /-- The prelude's counter. -/
 nextId : Nat
 issued : Nat
 settled : Nat
 /-- The argument bytes of the calls that wait, by id, and their sum. -/
 waitingBytes : List (UInt32 × Nat)
 waitingTotal : Nat
 clock : τ
 /-- The result being processed, 0 during the first turn. -/
 currentSeq : UInt32
 nextSeq : UInt32
 events : List (Event κ ω ε)
 /-- The deliveries the VM has had. -/
 applied : List (Delivery τ ρ)

structure Answer (τ ρ : Type) where
 seq : UInt32
 clock : τ
 id : UInt32
 result : ρ
deriving DecidableEq

namespace Script

variable {σ τ ρ κ ω ε : Type}

def start (machine : Machine σ τ ρ κ ω ε) (clock : τ) : Script σ τ ρ κ ω ε where
 phase := .turn machine.first
 nextId := 1
 issued := 0
 settled := 0
 waitingBytes := []
 waitingTotal := 0
 clock
 currentSeq := 0
 nextSeq := 1
 events := []
 applied := []

def finish (s : Script σ τ ρ κ ω ε) (outcome : Outcome ε) : Script σ τ ρ κ ω ε :=
 { s with phase := .ended outcome }

def callId (s : Script σ τ ρ κ ω ε) : UInt32 := UInt32.ofNat s.nextId

/-- Why `host_call` refuses a call, given whether its id is one that waits. -/
def refusal (s : Script σ τ ρ κ ω ε) (bytes : Nat) (waits : Bool) : Option CallFailure :=
 if maxNumber.toNat < s.nextId then some .badId
 else if maxPendingCalls ≤ s.issued - s.settled then some .tooManyCalls
 else if maxPendingArgumentBytes - s.waitingTotal < bytes then some .tooManyBytes
 else if waits then some .duplicateId
 else none

/-- A call that is not refused. -/
def issue (s : Script σ τ ρ κ ω ε) (what : κ) (bytes : Nat) (rest : Turn σ κ ω ε) :
 Script σ τ ρ κ ω ε :=
 { s with
   phase := .turn rest
   nextId := s.nextId + 1
   issued := s.issued + 1
   waitingBytes := OrdMap.insert s.waitingBytes s.callId bytes
   waitingTotal := s.waitingTotal + bytes
   events := s.events ++ [.call s.callId what] }

def emit (s : Script σ τ ρ κ ω ε) (item : ω) (rest : Turn σ κ ω ε) : Script σ τ ρ κ ω ε :=
 { s with phase := .turn rest, events := s.events ++ [.output item] }

/-- The turn is over: the VM waits, and the next number is up. -/
def rest (s : Script σ τ ρ κ ω ε) (vm : σ) : Script σ τ ρ κ ω ε :=
 { s with
   phase := .idle vm
   nextSeq := if s.currentSeq = 0 then s.nextSeq else nextNumber s.nextSeq
   events := s.events ++ [.idle s.currentSeq s.issued] }

/-- `settle`: a call no longer waits. -/
def settle (s : Script σ τ ρ κ ω ε) (id : UInt32) : Script σ τ ρ κ ω ε :=
 { s with
   settled := s.settled + 1
   waitingBytes := OrdMap.erase s.waitingBytes id
   waitingTotal := s.waitingTotal - (OrdMap.get? s.waitingBytes id).getD 0 }

/-- `apply`, for the answer whose number is up. -/
def apply [LinearOrder τ] (machine : Machine σ τ ρ κ ω ε) (s : Script σ τ ρ κ ω ε) (vm : σ)
 (a : Answer τ ρ) : Script σ τ ρ κ ω ε :=
 let clock := max s.clock a.clock
 let delivery : Delivery τ ρ := { seq := s.nextSeq, clock, id := a.id, result := a.result }
 { s.settle a.id with
   phase := .turn (machine.deliver vm delivery)
   clock
   currentSeq := s.nextSeq
   applied := s.applied ++ [delivery] }

def conclude (s : Script σ τ ρ κ ω ε) (outcome : Outcome ε) : Script σ τ ρ κ ω ε :=
 { s with phase := .gone outcome, events := s.events ++ [.done outcome] }

end Script

/-! ## The run -/

structure CallBook where
 pending : List UInt32 := []
 delivered : List UInt32 := []
 finished : Bool := false

inductive Command (τ ρ : Type) where
 | answer (a : Answer τ ρ)
 | stop

def Command.answer? {τ ρ : Type} : Command τ ρ → Option (Answer τ ρ)
 | .answer a => some a
 | .stop => none

inductive AnswerError where
 | notWaiting (id : UInt32)
 | sequenceUsed (seq : UInt32)
 | clockNotFinite (seq : UInt32)
deriving DecidableEq

/-- A run: what the handles and the thread share, the thread's own state with its buffer of
early answers, and the answers accepted so far. -/
structure ScriptRun (σ τ ρ κ ω ε : Type) where
 book : CallBook
 stopped : Option StopReason
 commands : List (Command τ ρ)
 early : List (UInt32 × Answer τ ρ)
 script : Script σ τ ρ κ ω ε
 accepted : List (Answer τ ρ)

/-- What happens to a run. -/
inductive Input (τ ρ : Type) where
 /-- A handle answers; no reading is one that is not finite. -/
 | answer (seq : UInt32) (now : Option τ) (id : UInt32) (result : ρ)
 /-- A handle or the deadline stops the run. -/
 | stop (reason : StopReason)
 | stopCommand
 /-- The thread's next step. -/
 | script
 /-- The thread sees the stop. -/
 | interrupt

namespace ScriptRun

variable {σ τ ρ κ ω ε : Type}

def start (machine : Machine σ τ ρ κ ω ε) (clock : τ) : ScriptRun σ τ ρ κ ω ε where
 book := {}
 stopped := none
 commands := []
 early := []
 script := .start machine clock
 accepted := []

def answerInOrder (r : ScriptRun σ τ ρ κ ω ε) (seq : UInt32) (now : Option τ) (id : UInt32)
 (result : ρ) : Except AnswerError Unit × ScriptRun σ τ ρ κ ω ε :=
 if r.book.finished then (.ok (), r)
 else match now with
  | none => (.error (.clockNotFinite seq), r)
  | some clock =>
   if seq = 0 ∨ seq ∈ r.book.delivered then (.error (.sequenceUsed seq), r)
   else if id ∉ r.book.pending then (.error (.notWaiting id), r)
   else
    let a : Answer τ ρ := { seq, clock, id, result }
    (.ok (), { r with
     book := { r.book with
      delivered := r.book.delivered ++ [seq], pending := r.book.pending.erase id }
     commands := r.commands ++ [.answer a]
     accepted := r.accepted ++ [a] })

/-- `host_call`: a call waits once it is in the book. -/
def hostCall (r : ScriptRun σ τ ρ κ ω ε) (what : κ) (bytes : Nat) (rest : Turn σ κ ω ε) :
 ScriptRun σ τ ρ κ ω ε :=
 match r.script.refusal bytes (decide (r.script.callId ∈ r.book.pending)) with
 | some failure => { r with script := r.script.finish (.refused failure) }
 | none => { r with
  book := { r.book with pending := r.script.callId :: r.book.pending }
  script := r.script.issue what bytes rest }

/-- The thread takes the next command. -/
def receive (r : ScriptRun σ τ ρ κ ω ε) : ScriptRun σ τ ρ κ ω ε :=
 match r.commands with
 | [] => r
 | .stop :: commands =>
  let reason := r.stopped.getD .aborted
  { r with commands, stopped := some reason, script := r.script.finish (.stopped reason) }
 | .answer a :: commands => match r.stopped with
  -- what is left in the channel is dropped with it
  | some reason => { r with script := r.script.finish (.stopped reason) }
  | none => { r with commands, early := OrdMap.insert r.early a.seq a }

/-- The thread's next step. -/
def scriptStep [LinearOrder τ] (machine : Machine σ τ ρ κ ω ε) (r : ScriptRun σ τ ρ κ ω ε) :
 ScriptRun σ τ ρ κ ω ε :=
 match r.script.phase with
 | .turn (.call what bytes rest) => r.hostCall what bytes rest
 | .turn (.output item rest) => { r with script := r.script.emit item rest }
 | .turn (.done result) => { r with script := r.script.finish (match r.stopped with
  | some reason => .stopped reason
  | none => .reported result r.script.currentSeq r.script.issued) }
 | .turn (.fail result) => { r with script := r.script.finish (.failed result) }
 | .turn (.wait vm) => { r with script := r.script.rest vm }
 | .idle vm => match OrdMap.get? r.early r.script.nextSeq with
  | some a => { r with
   early := OrdMap.erase r.early r.script.nextSeq, script := r.script.apply machine vm a }
  | none => r.receive
 | .ended outcome => { r with
  book := { r.book with finished := true }, script := r.script.conclude outcome }
 | .gone _ => r

/-- The thread sees that it is stopped, in a turn or while it waits. -/
def interrupted (r : ScriptRun σ τ ρ κ ω ε) : ScriptRun σ τ ρ κ ω ε :=
 match r.stopped, r.script.phase with
 | some reason, .turn _ | some reason, .idle _ =>
  { r with script := r.script.finish (.stopped reason) }
 | _, _ => r

/-- A step; one that cannot be taken changes nothing. -/
def step [LinearOrder τ] (machine : Machine σ τ ρ κ ω ε) (r : ScriptRun σ τ ρ κ ω ε) :
 Input τ ρ → ScriptRun σ τ ρ κ ω ε
 | .answer seq now id result => (r.answerInOrder seq now id result).2
 | .stop reason => { r with stopped := some (r.stopped.getD reason) }
 | .stopCommand => if r.stopped.isSome then { r with commands := r.commands ++ [.stop] } else r
 | .script => r.scriptStep machine
 | .interrupt => r.interrupted

/-- The runs of a machine from a start: any interleaving of answers, stops and the thread. -/
def Reachable [LinearOrder τ] (machine : Machine σ τ ρ κ ω ε) (clock : τ)
 (r : ScriptRun σ τ ρ κ ω ε) : Prop :=
 Run.Reach (· = start machine clock) (step machine) (fun _ _ => True) r

end ScriptRun

end Bake.Codemode
