import Bake.Lib.Run
import Mathlib.Data.Prod.Lex
import Mathlib.Data.String.Basic

/-!
# The tool-call veto dispatcher

A dispatch asks the plugins that list a call's tool, in configured order, and returns the first
block. Dispatches run side by side; what they share is each plugin's first failure and the
signals that cancel them.

A dispatch looks at its signal before it asks a plugin, at the start of every poll of a trusted
plugin, and when a Wasm plugin has answered. What it looks at and what it does on that look, with
no plugin in between, is one step; the code of a trusted plugin is a step of its own.
-/

namespace Bake.Plugins

/-! ## Failures and decisions -/

def maxReasonBytes : Nat := 16 * 1024

def truncateChars : Nat → List Char → List Char
 | _, [] => []
 | n, c :: rest => if c.utf8Size ≤ n then c :: truncateChars (n - c.utf8Size) rest else []

/-- `truncate`: cut to at most `max` bytes on a character boundary. -/
def truncate (text : String) (max : Nat) : String := String.ofList (truncateChars max text.toList)

inductive FailureKind where
 | error
 | panic
 | timeout
 | invalidReturn
 | trap
 | helper
 | start
 | unavailable
 | unloadable
deriving DecidableEq

def FailureKind.persists : FailureKind → Bool
 | .unavailable | .unloadable => false
 | _ => true

structure Failure where
 kind : FailureKind
 message : String
deriving DecidableEq

def Failure.new (kind : FailureKind) (message : String) : Failure :=
 { kind, message := truncate message maxReasonBytes }

inductive Outcome where
 | blocked (reason : String)
 | failed (failure : Failure) (earlier : Bool)
 | unchecked (message : String)
deriving DecidableEq

structure VetoDecision where
 plugin : String
 version : String
 sha256 : Option String
 toolCallId : String
 toolName : String
 outcome : Outcome
 terminate : Bool
 unrecorded : Option String
deriving DecidableEq

inductive Dispatch where
 | continues
 | cancelled
 | blocked (decision : VetoDecision)
deriving DecidableEq

inductive ToolCallVeto where
 | continues
 | block (reason : String) (terminate : Bool)
deriving DecidableEq

/-- `Answer`: a trusted plugin's, when its dispatch is not cancelled. -/
inductive Answer where
 | veto (answer : ToolCallVeto)
 | failed (failure : Failure)
deriving DecidableEq

inductive WasmAnswer where
 | veto (answer : ToolCallVeto)
 | unchecked (message : String)
 | failed (failure : Failure)
 | cancelled
deriving DecidableEq

/-! ## Plugins -/

structure PluginManifest where
 id : String
 version : String
 vetoTools : List String

def PluginManifest.vetoes (m : PluginManifest) (tool : String) : Bool := decide (tool ∈ m.vetoTools)

inductive Contribution where
 | trusted
 | wasm
 | blocked (failure : Failure)

/-- `Registered`; `record` tells whether its failures are recorded in the Bake home. -/
structure Registered where
 order : Int
 manifest : PluginManifest
 plugin : Contribution
 sha256 : Option String
 record : Bool

def Registered.id (r : Registered) : String := r.manifest.id

/-- What the plugins are sorted by. -/
def Registered.key (r : Registered) : Int ×ₗ String := toLex (r.order, r.id)

/-- `PluginRegistry`: no two plugins have one id. -/
structure PluginRegistry where
 plugins : List Registered
 callTimeout : Nat
 distinct : (plugins.map Registered.id).Nodup

/-- `PluginRegistry::add`; none for a duplicate. -/
def PluginRegistry.add (registry : PluginRegistry) (r : Registered) : Option PluginRegistry :=
 if h : r.id ∈ registry.plugins.map Registered.id then none
 else some { registry with
  plugins := registry.plugins ++ [r]
  distinct := by
   rw [List.map_append, List.nodup_append]
   refine ⟨registry.distinct, by simp, ?_⟩
   intro a ha b hb he
   rw [List.map_singleton, List.mem_singleton] at hb
   exact h (hb ▸ he ▸ ha) }

/-- `VetoDispatcher`: its slots are sorted by configured order, then id. -/
structure VetoDispatcher where
 slots : List Registered
 callTimeout : Nat
 distinct : (slots.map Registered.id).Nodup
 sorted : slots.Pairwise (·.key ≤ ·.key)

/-- `VetoDispatcher::new`; none when the registry is empty. -/
def VetoDispatcher.new (registry : PluginRegistry) : Option VetoDispatcher :=
 if registry.plugins = [] then none
 else some {
  slots := registry.plugins.mergeSort fun a b => decide (a.key ≤ b.key)
  callTimeout := registry.callTimeout
  distinct := ((List.mergeSort_perm ..).map _).nodup_iff.mpr registry.distinct
  sorted := (List.pairwise_mergeSort
   (fun _ _ _ hab hbc => decide_eq_true ((of_decide_eq_true hab).trans (of_decide_eq_true hbc)))
   (fun a b => by
    rw [← Bool.decide_or]
    exact decide_eq_true (le_total _ _)) _).imp of_decide_eq_true }

/-- `ToolCallView`, with the signal of its call. -/
structure ToolCall where
 toolCallId : String
 toolName : String
 signal : Option Nat
deriving DecidableEq

/-- The plugins that are asked about calls to a tool, in order. -/
def VetoDispatcher.listed (d : VetoDispatcher) (tool : String) : List Registered :=
 d.slots.filter (·.manifest.vetoes tool)

/-! ## One dispatch -/

/-- What a poll of a trusted plugin's future gives, under the deadline. -/
inductive PluginPoll where
 | pending
 | ready (veto : ToolCallVeto)
 | error (message : String)
 | panicked (message : String)
 | elapsed

/-- Where a dispatch is, with the plugin it is at and those after it. -/
inductive Phase where
 | top (rest : List Registered)
 /-- `on_tool_call` runs. -/
 | calling (slot : Registered) (rest : List Registered)
 /-- The plugin's future is not ready. -/
 | waiting (slot : Registered) (rest : List Registered)
 /-- A poll of the plugin's future, with the signal found clear. -/
 | polling (slot : Registered) (rest : List Registered)
 /-- A Wasm plugin's dispatch wants a permit of the gate. -/
 | entering (slot : Registered) (rest : List Registered)
 | asking (slot : Registered) (rest : List Registered)
 /-- A Wasm plugin has answered. -/
 | heard (slot : Registered) (rest : List Registered) (answer : WasmAnswer)
 /-- The failure of a Wasm plugin is being recorded in the Bake home. -/
 | recording (slot : Registered) (failure : Failure)
 | returned (result : Dispatch)
 /-- The dispatch's future was dropped. -/
 | dropped

/-- A step of one dispatch: its own, or what a plugin, the gate or its caller does. -/
inductive Move where
 | proceed
 /-- `on_tool_call` returns its future, or panics. -/
 | called (panic : Option String)
 | polled (poll : PluginPoll)
 | entered (granted : Bool)
 | answered (answer : WasmAnswer)
 | recorded (unrecorded : Option String)
 | drop

namespace VetoDispatcher

/-- What a failing call of a plugin's handler is failed with. -/
def panicked (message : String) : Failure := Failure.new .panic ("panicked: " ++ message)

def answerOf (d : VetoDispatcher) : PluginPoll → Option Answer
 | .pending => none
 | .ready veto => some (.veto veto)
 | .error message => some (.failed (Failure.new .error message))
 | .panicked message => some (.failed (panicked message))
 | .elapsed => some (.failed
  (Failure.new .timeout ("no answer within " ++ toString d.callTimeout ++ " ms")))

def invalidReturn (reason : String) : Failure :=
 Failure.new .invalidReturn ("returned a block reason of " ++ toString reason.utf8ByteSize
  ++ " bytes, over the " ++ toString maxReasonBytes ++ "-byte limit")

def decision (slot : Registered) (call : ToolCall) (outcome : Outcome) (terminate : Bool)
 (unrecorded : Option String) : VetoDecision where
 plugin := slot.id
 version := slot.manifest.version
 sha256 := slot.sha256
 toolCallId := call.toolCallId
 toolName := call.toolName
 outcome
 terminate
 unrecorded

def earlier (slot : Registered) (call : ToolCall) (failure : Failure) : Phase :=
 .returned (.blocked (decision slot call (.failed failure true) false none))

def failed (slot : Registered) (call : ToolCall) (failure : Failure) (unrecorded : Option String) :
 Phase := .returned (.blocked (decision slot call (.failed failure false) false unrecorded))

/-- What a dispatch does with a trusted plugin's answer, and the failure it sets. -/
def take (failure : String → Option Failure) (call : ToolCall) (slot : Registered)
 (rest : List Registered) : Answer → Phase × Option (String × Failure)
 | .veto .continues => match failure slot.id with
  | some f => (earlier slot call f, none)
  | none => (.top rest, none)
 | .veto (.block reason terminate) =>
  if maxReasonBytes < reason.utf8ByteSize then
   (failed slot call (invalidReturn reason) none, some (slot.id, invalidReturn reason))
  else (.returned (.blocked (decision slot call (.blocked reason) terminate none)), none)
 | .failed f => (failed slot call f none, some (slot.id, f))

/-- What `ask_wasm` does with a Wasm plugin's answer. -/
def takeWasm (failure : String → Option Failure) (call : ToolCall) (slot : Registered)
 (rest : List Registered) : WasmAnswer → Phase × Option (String × Failure)
 | .cancelled => (.returned .cancelled, none)
 | .unchecked message =>
  (.returned (.blocked (decision slot call (.unchecked message) false none)), none)
 | .veto .continues => match failure slot.id with
  | some f => (earlier slot call f, none)
  | none => (.top rest, none)
 | .veto (.block reason terminate) =>
  (.returned (.blocked (decision slot call (.blocked reason) terminate none)), none)
 | .failed f =>
  if slot.record && f.kind.persists then (.recording slot f, some (slot.id, f))
  else (failed slot call f none, some (slot.id, f))

/-- A step of a dispatch: where it is then, and the failure it sets. -/
def next (d : VetoDispatcher) (failure : String → Option Failure) (aborted : Bool) (call : ToolCall) :
 Phase → Move → Phase × Option (String × Failure)
 | .top [], .proceed => (.returned .continues, none)
 | .top (slot :: rest), .proceed =>
  if aborted then (.returned .cancelled, none)
  else match failure slot.id with
   | some f => (earlier slot call f, none)
   | none => match slot.plugin with
    | .trusted => (.calling slot rest, none)
    | .wasm => (.entering slot rest, none)
    | .blocked _ =>
     take failure call slot rest (.failed (Failure.new .error "the plugin cannot be asked"))
 | .calling slot rest, .called none => (.waiting slot rest, none)
 | .calling slot rest, .called (some message) =>
  -- the panic of the call itself comes with no look at the signal
  take failure call slot rest (.failed (panicked message))
 | .waiting slot rest, .proceed =>
  if aborted then (.returned .cancelled, none) else (.polling slot rest, none)
 | .polling slot rest, .polled poll => match d.answerOf poll with
  | none => (.waiting slot rest, none)
  | some answer => take failure call slot rest answer
 | .entering slot rest, .entered granted =>
  if granted then (.asking slot rest, none) else (.returned .cancelled, none)
 | .asking slot rest, .answered answer => (.heard slot rest answer, none)
 | .heard slot rest answer, .proceed =>
  if aborted then (.returned .cancelled, none) else takeWasm failure call slot rest answer
 | .recording slot f, .recorded unrecorded => (failed slot call f unrecorded, none)
 | .returned result, _ => (.returned result, none)
 | _, .drop => (.dropped, none)
 | phase, _ => (phase, none)

end VetoDispatcher

/-! ## Dispatches side by side -/

structure Dispatching where
 call : ToolCall
 phase : Phase

/-- The plugins' failures, the signals that aborted, and the dispatches. -/
structure VetoState where
 failure : String → Option Failure
 aborted : Nat → Bool
 calls : Nat → Option Dispatching

/-- What happens: a dispatch starts or takes a step, or a signal aborts. -/
inductive Input where
 | dispatch (c : Nat) (call : ToolCall)
 | act (c : Nat) (move : Move)
 | abort (signal : Nat)

namespace VetoState

def abortedFor (s : VetoState) (call : ToolCall) : Bool := call.signal.any s.aborted

/-- `Slot::fail`: the first failure stays. -/
def fail (s : VetoState) : Option (String × Failure) → String → Option Failure
 | none, id => s.failure id
 | some (slot, f), id => if id = slot then some ((s.failure id).getD f) else s.failure id

def act (s : VetoState) (d : VetoDispatcher) (c : Nat) (move : Move) : VetoState :=
 match s.calls c with
 | none => s
 | some ⟨call, phase⟩ =>
  let result := d.next s.failure (s.abortedFor call) call phase move
  { s with
    failure := s.fail result.2
    calls := fun k => if k = c then some ⟨call, result.1⟩ else s.calls k }

def step (d : VetoDispatcher) (s : VetoState) : Input → VetoState
 | .dispatch c call =>
  if (s.calls c).isSome then s
  else { s with
   calls := fun k => if k = c then some ⟨call, .top (d.listed call.toolName)⟩ else s.calls k }
 | .act c move => s.act d c move
 | .abort signal => { s with aborted := fun k => k == signal || s.aborted k }

end VetoState

def Registered.initial (r : Registered) : Option Failure :=
 match r.plugin with
 | .blocked failure => some failure
 | _ => none

def VetoDispatcher.start (d : VetoDispatcher) : VetoState where
 failure id := (d.slots.find? (·.id = id)).bind Registered.initial
 aborted _ := false
 calls _ := none

def VetoDispatcher.after (d : VetoDispatcher) (inputs : List Input) : VetoState :=
 Run.final (VetoState.step d) d.start inputs

end Bake.Plugins
