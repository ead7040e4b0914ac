import Bake.Lib.Forest
import Bake.Lib.Run

/-!
# The work gate

A session's owner of the work it runs outside the task awaiting it. Work joins a gate
under permits: a permit a caller holds, the permit of an owned task, the permit of a
blocking closure. Owned tasks form a tree: a task spawned from the permit of another
task's scope is its child, and cancelling a task cancels what is below it. Closing the
gate refuses new admission and cancels every task, and a close resolves once no permit
is left.

A parent's node holds its children weakly. A node lives while a permit, a task's handle
or a child's node holds it; entries whose node is gone are pruned as tasks are added.
Here a node keeps its place in the list of nodes when it is gone, so that places are
identities, and `alive` says which are still there.
-/

namespace Bake.Work

/-- Why work was not admitted. -/
inductive Refused where
 | closed | cancelled | noRuntime
 deriving DecidableEq, Repr

/-- One owned task in the gate's cancellation tree. -/
structure Node where
 parent : Option Nat
 children : List Nat
 aborted : Bool
 deriving DecidableEq, Repr

/-- How far admitted work is: its function is being called, its future or closure runs,
all of it has been dropped, its permit has been dropped too. -/
inductive Stage where
 | calling | running | ended | gone
 deriving DecidableEq, Repr

structure OwnedTask where
 stage : Stage
 /-- Whether its handle has been returned and not yet dropped. -/
 handle : Bool
 deriving DecidableEq, Repr

structure BlockingTask where
 node : Option Nat
 stage : Stage
 deriving DecidableEq, Repr

def OwnedTask.live (task : OwnedTask) : Bool := task.stage != .gone

def BlockingTask.live (task : BlockingTask) : Bool := task.stage != .gone

structure WorkGate where
 closing : Bool
 permits : Nat
 roots : List Nat
 nodes : List Node
 tasks : List OwnedTask
 /-- The permits callers hold, each with its node; `none` once it has been dropped. -/
 held : List (Option (Option Nat))
 blocking : List BlockingTask
 /-- The calls of `close`, and whether each one's future has resolved. -/
 closes : List Bool
 deriving DecidableEq, Repr

namespace WorkGate

def empty : WorkGate where
 closing := false
 permits := 0
 roots := []
 nodes := []
 tasks := []
 held := []
 blocking := []
 closes := []

def parent (g : WorkGate) (n : Nat) : Option Nat := g.nodes[n]?.bind (·.parent)

def children (g : WorkGate) (n : Nat) : List Nat := (g.nodes[n]?.map (·.children)).getD []

def cancelled (g : WorkGate) (n : Nat) : Bool := g.nodes[n]?.any (·.aborted)

def holdsNode (g : WorkGate) (t : Nat) : Bool := g.tasks[t]?.any fun task => task.live || task.handle

/-- The nodes that permits and handles hold. -/
def holders (g : WorkGate) : List Nat := g.held.reduceOption.reduceOption
  ++ (List.range g.tasks.length).filter g.holdsNode
  ++ (g.blocking.filter BlockingTask.live).filterMap (·.node)

/-- Whether a node's strong count is not zero: it or a node below it is held. -/
def alive (g : WorkGate) (n : Nat) : Bool :=
 g.holders.any fun m => decide (n ∈ Forest.lineage g.parent m m)

def livePermits (g : WorkGate) : Nat := g.held.countP Option.isSome + g.tasks.countP OwnedTask.live
  + g.blocking.countP BlockingTask.live

/-- Adds `node` to a list, dropping entries whose node is gone. -/
def adopt (g : WorkGate) (list : List Nat) (node : Nat) : List Nat := list.filter g.alive ++ [node]

def abort (g : WorkGate) (n : Nat) : WorkGate :=
 { g with nodes := g.nodes.modify n fun node => { node with aborted := true } }

/-- A node's children that are still there. -/
def liveChildren (g : WorkGate) (n : Nat) : List Nat := (g.children n).filter g.alive

/-- Aborts each node in `start` and every live descendant. The last of the pending nodes
is taken first; aborting one changes no list. -/
def cancelTree (g : WorkGate) (start : List Nat) : WorkGate :=
 (Forest.visit g.liveChildren g.nodes.length start.reverse).foldl abort g

def enter (g : WorkGate) : Option WorkGate :=
 if g.closing then none
 else some { g with permits := g.permits + 1, held := g.held ++ [some none] }

/-- `WorkPermit::share`, of a permit with this node. -/
def share (g : WorkGate) (node : Option Nat) : WorkGate :=
 { g with permits := g.permits + 1, held := g.held ++ [some node] }

/-- The admission of `WorkPermit::spawn`: the new task's node joins the tree, the task's
own permit and its scope's are counted, and the task's function is called. -/
def spawn (g : WorkGate) (node : Option Nat) (runtime : Bool) : Except Refused WorkGate :=
 if runtime = false then .error .noRuntime
 else if g.closing then .error .closed
 else if node.any g.cancelled then .error .cancelled
 else
  let n := g.nodes.length
  let child : Node := { parent := node, children := [], aborted := false }
  let adopted : WorkGate :=
   match node with
   | some p =>
    { g with
      nodes := g.nodes.modify p fun node =>
       { node with children := g.adopt node.children n } }
   | none => { g with roots := g.adopt g.roots n }
  .ok { adopted with
   permits := g.permits + 2
   nodes := adopted.nodes ++ [child]
   tasks := g.tasks ++ [{ stage := .calling, handle := false }]
   held := g.held ++ [some (some n)] }

/-- `WorkPermit::spawn_blocking`: the closure runs under a share of the permit. -/
def spawnBlocking (g : WorkGate) (node : Option Nat) (runtime : Bool) : Except Refused WorkGate :=
 if runtime = false then .error .noRuntime
 else
  .ok { g with
   permits := g.permits + 1
   blocking := g.blocking ++ [{ node, stage := .running }] }

/-- The count's part of dropping a permit. -/
def release (g : WorkGate) : WorkGate := { g with permits := g.permits - 1 }

/-- `WorkGate::close`: its part under the lock, and the future it returns. -/
def close (g : WorkGate) : WorkGate :=
 let closing := { g with closing := true }
 let cancelled := closing.cancelTree (closing.roots.filter closing.alive)
 { cancelled with closes := g.closes ++ [false] }

def cancel (g : WorkGate) (t : Nat) : WorkGate := g.cancelTree [t]

end WorkGate

/-- What may happen to a gate. Callers use the permits and handles they hold; tasks and
closures go from stage to stage. `WorkGate::spawn` is an `enter`, a `spawn` from that
permit and its drop. -/
inductive Input where
 | enter
 | share (permit : Nat)
 | spawn (permit : Nat) (runtime : Bool)
 | spawnBlocking (permit : Nat) (runtime : Bool)
 | drop (permit : Nat)
 | returned (task : Nat)
 | panicked (task : Nat)
 | ended (task : Nat)
 | released (task : Nat)
 | dropHandle (task : Nat)
 | cancel (task : Nat)
 | closureEnded (closure : Nat)
 | closureReleased (closure : Nat)
 | close
 | poll (close : Nat)
 deriving DecidableEq, Repr

namespace WorkGate

/-- The node of a permit some caller holds. -/
def permit? (g : WorkGate) (p : Nat) : Option (Option Nat) := (g.held[p]?).join

def stageTask (g : WorkGate) (t : Nat) (before after : Stage) (handle : Bool → Bool) : WorkGate :=
 match g.tasks[t]? with
 | some task =>
  if task.stage = before then
   { g with tasks := g.tasks.set t { stage := after, handle := handle task.handle } }
  else g
 | none => g

def stageClosure (g : WorkGate) (c : Nat) (before after : Stage) : WorkGate :=
 match g.blocking[c]? with
 | some closure =>
  if closure.stage = before then
   { g with blocking := g.blocking.set c { closure with stage := after } }
  else g
 | none => g

/-- One step. What is asked of a permit, handle or stage that is not there does
nothing, as does a refused request. -/
def step (g : WorkGate) : Input → WorkGate
 | .enter => g.enter.getD g
 | .share p =>
  match g.permit? p with
  | some node => g.share node
  | none => g
 | .spawn p runtime =>
  match g.permit? p with
  | some node => ((g.spawn node runtime).toOption).getD g
  | none => g
 | .spawnBlocking p runtime =>
  match g.permit? p with
  | some node => ((g.spawnBlocking node runtime).toOption).getD g
  | none => g
 | .drop p =>
  match g.permit? p with
  | some _ => { g.release with held := g.held.set p none }
  | none => g
 -- `work` returned its future: the runtime has it, and the caller the handle
 | .returned t => g.stageTask t .calling .running fun _ => true
 -- `work` panicked: the future was never made
 | .panicked t => g.stageTask t .calling .ended id
 -- the future has been dropped with all it held, finished or not
 | .ended t => g.stageTask t .running .ended id
 | .released t =>
  match g.tasks[t]? with
  | some { stage := .ended, handle } =>
   { g.release with tasks := g.tasks.set t { stage := .gone, handle } }
  | _ => g
 | .dropHandle t =>
  match g.tasks[t]? with
  | some { stage, handle := true } => { g with tasks := g.tasks.set t { stage, handle := false } }
  | _ => g
 | .cancel t =>
  match g.tasks[t]? with
  | some { handle := true, .. } => g.cancel t
  | _ => g
 | .closureEnded c => g.stageClosure c .running .ended
 | .closureReleased c =>
  match g.blocking[c]? with
  | some { node, stage := .ended } =>
   { g.release with blocking := g.blocking.set c { node, stage := .gone } }
  | _ => g
 | .close => g.close
 -- the close's future sees no permit left
 | .poll k =>
  if g.closes[k]? = some false && g.permits == 0 then { g with closes := g.closes.set k true }
  else g

/-- The gates a new one becomes. -/
def Reachable : WorkGate → Prop := Run.Reach (· = empty) step fun _ _ => True

end WorkGate

end Bake.Work
