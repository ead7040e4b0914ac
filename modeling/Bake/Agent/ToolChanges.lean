import Bake.Agent.Types

/-!
# Announcing the tools of a run

`declare_tool_changes`: the tools a run can execute against those the transcript's system
messages declare. The difference goes into the last system message that is about to enter
the transcript, or into a new one in front of what is.

The messages about to enter stay as they are, but for the tool changes of a system
message, and in order; at most one message of the run's own joins them, in front.
-/

namespace Bake.Agent

open Bake.Json Bake.Ai

/-- `with_tool_changes`: empty lists omit the field. -/
def withToolChanges (message : SystemMessage) (added : List Tool) (removed : List String) :
 SystemMessage :=
 { message with
   toolsAdded := if added.isEmpty then none else some added
   toolsRemoved := if removed.isEmpty then none else some removed }

def lastSystem : List Entry → Option (Nat × SystemMessage)
 | [] => none
 | entry :: rest =>
  match lastSystem rest with
  | some (index, system) => some (index + 1, system)
  | none => entry.message.system?.map fun system => (0, system)

def setSystem (pending : List Entry) (index : Nat) (system : SystemMessage) : List Entry :=
 pending.modify index fun entry => { entry with message := .llm (.system system) }

/-- The executable tools against those declared by a context and what is about to follow
it. -/
def toolChanges (shown : Tool → String) (context : AgentContext) (baseline : List Entry) :
 List Tool × List String :=
 let systems := (context.messages ++ baseline.map Entry.message).filterMap AgentMessage.system?
 getToolStateChanges shown (getCurrentTools (systems.map Message.system))
  (context.tools.map AgentTool.declaration)

def declaresNothing (system : SystemMessage) : Bool :=
 system.toolsAdded.all List.isEmpty && system.toolsRemoved.all List.isEmpty

def toolUpdate (now : Int) (added : List Tool) (removed : List String) : SystemMessage :=
 withToolChanges
  { content := .text "", sections := none, toolsAdded := none, toolsRemoved := none,
    timestamp := now }
  added removed

def declareToolChanges (shown : Tool → String) (now : Int) (context : AgentContext)
 (pending : List Entry) : List Entry :=
 match lastSystem pending with
 | some (index, system) =>
  let baseline := setSystem pending index (withToolChanges system [] [])
  let (added, removed) := toolChanges shown context baseline
  -- The caller's message stays when it already declares no changes.
  if added.isEmpty && removed.isEmpty && declaresNothing system then pending
  else setSystem baseline index (withToolChanges system added removed)
 | none =>
  let (added, removed) := toolChanges shown context pending
  if added.isEmpty && removed.isEmpty then pending
  else
   let index := pending.findIdx fun entry => entry.message.system?.isNone
   pending.insertIdx index (.ofRun (.system (toolUpdate now added removed)))

/-! ## What stays of the messages -/

/-- A message without the tool changes it declares, when it is a system message. -/
def Entry.bare (entry : Entry) : Entry :=
 match entry.message with
 | .llm (.system system) =>
  { entry with message := .llm (.system (withToolChanges system [] [])) }
 | _ => entry

@[simp] theorem Entry.bare_source (entry : Entry) : entry.bare.source = entry.source := by
 unfold Entry.bare
 split <;> rfl

theorem bare_setSystem (source : Source) (system : SystemMessage) (added : List Tool)
 (removed : List String) :
 Entry.bare { message := .llm (.system (withToolChanges system added removed)), source }
  = Entry.bare { message := .llm (.system system), source } := rfl

variable {system : SystemMessage} {pending : List Entry}

theorem AgentMessage.system?_eq_some {message : AgentMessage} :
 message.system? = some system ↔ message = .llm (.system system) := by
 unfold AgentMessage.system?
 split
 · simp
 next hother =>
  exact ⟨by simp, fun h => absurd h (hother system)⟩

theorem lastSystem_some {index : Nat} (h : lastSystem pending = some (index, system)) :
 ∃ source, pending[index]? = some { message := .llm (.system system), source } := by
 induction pending generalizing index with
 | nil => simp [lastSystem] at h
 | cons entry rest ih =>
  rw [lastSystem] at h
  cases hrest : lastSystem rest with
  | some found =>
   rw [hrest] at h
   cases h
   exact ih hrest
  | none =>
   rw [hrest] at h
   obtain ⟨message, source⟩ := entry
   obtain ⟨found, hfound, heq⟩ := Option.map_eq_some_iff.mp h
   simp only [Prod.mk.injEq] at heq
   obtain ⟨rfl, rfl⟩ := heq
   rw [AgentMessage.system?_eq_some] at hfound
   exact ⟨source, by rw [List.getElem?_cons_zero, ← hfound]⟩

theorem findIdx_of_lastSystem_none (h : lastSystem pending = none) :
 pending.findIdx (fun entry => entry.message.system?.isNone) = 0 := by
 cases pending with
 | nil => rfl
 | cons entry rest =>
  rw [lastSystem] at h
  cases hrest : lastSystem rest with
  | some found => exact absurd (hrest ▸ h) (by simp)
  | none =>
   rw [hrest, Option.map_eq_none_iff] at h
   rw [List.findIdx_cons, h]
   rfl

theorem setSystem_bare {index : Nat}
 (h : ∃ source, pending[index]? = some { message := .llm (.system system), source })
 (added : List Tool) (removed : List String) :
 (setSystem pending index (withToolChanges system added removed)).map Entry.bare
  = pending.map Entry.bare := by
 obtain ⟨source, h⟩ := h
 refine List.ext_getElem? fun i => ?_
 rw [List.getElem?_map, List.getElem?_map, setSystem, List.getElem?_modify]
 by_cases hi : index = i
 · subst hi
   rw [h]
   simp only [if_true]
   exact congrArg some (bare_setSystem source system added removed)
 · simp only [if_neg hi]
   exact congrArg (Option.map Entry.bare) (id_map _)

def Announces (front : List Entry) : Prop :=
 front = [] ∨ ∃ system, front = [Entry.ofRun (.system system)]

/-- **Announcing tools keeps the messages**: what enters the transcript is what was about
to, but for tool changes, behind at most one message of the run's own. -/
theorem declareToolChanges_spec (shown : Tool → String) (now : Int) (context : AgentContext)
 (pending : List Entry) :
 ∃ front rest, declareToolChanges shown now context pending = front ++ rest
  ∧ Announces front ∧ rest.map Entry.bare = pending.map Entry.bare := by
 unfold declareToolChanges
 split
 next index system hlast =>
  have hat := lastSystem_some hlast
  dsimp only
  split
  · exact ⟨[], pending, rfl, .inl rfl, rfl⟩
  · have hbase := setSystem_bare hat [] []
    have hat' : ∃ source, (setSystem pending index (withToolChanges system [] []))[index]?
     = some { message := .llm (.system (withToolChanges system [] [])), source } := by
     obtain ⟨source, hat⟩ := hat
     exact ⟨source, by rw [setSystem, List.getElem?_modify, hat]; simp⟩
    refine ⟨[], _, rfl, .inl rfl, ?_⟩
    rw [← hbase]
    exact setSystem_bare hat' _ _
 next hlast =>
  dsimp only
  split
  · exact ⟨[], pending, rfl, .inl rfl, rfl⟩
  · rw [findIdx_of_lastSystem_none hlast, List.insertIdx_zero]
    exact ⟨[_], pending, rfl, .inr ⟨_, rfl⟩, rfl⟩

end Bake.Agent
