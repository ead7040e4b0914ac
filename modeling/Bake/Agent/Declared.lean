import Bake.Agent.Loop
import Bake.Ai.ToolState

/-!
# The model is told the tools it can call

Whatever enters a run's context, and whatever a hook replaces it with, the system messages
of the context declare the tools the context can execute whenever the model is asked.
-/

open List

namespace Bake.Agent

open Bake.Json Bake.Ai Bake.RunControl

def systemsOf (messages : List AgentMessage) : List SystemMessage :=
 messages.filterMap AgentMessage.system?

def AgentContext.executable (context : AgentContext) : List Tool :=
 context.tools.map AgentTool.declaration

/-- `get_current_tools` over the system messages of a context holds under every name what the
tools of the context declare. -/
def Declared (shown : Tool → String) (context : AgentContext) : Prop :=
 SameTools shown (getCurrentTools ((systemsOf context.messages).map Message.system))
  context.executable

theorem getCurrentTools_systems (systems : List SystemMessage) :
 getCurrentTools (systems.map Message.system) = currentTools systems := by
 rw [getCurrentTools, systemMessages, filterMap_map]
 exact congrArg currentTools filterMap_some

theorem systemsOf_append (before after : List AgentMessage) :
 systemsOf (before ++ after) = systemsOf before ++ systemsOf after := filterMap_append

theorem toolChanges_eq (shown : Tool → String) (context : AgentContext) (baseline : List Entry) :
 toolChanges shown context baseline = getToolStateChanges shown
   (currentTools (systemsOf context.messages ++ systemsOf (baseline.map Entry.message)))
   context.executable := by
 rw [toolChanges, getCurrentTools_systems, ← systemsOf_append]
 rfl

/-! ## The last system message -/

variable {pending : List Entry} {context : AgentContext} {shown : Tool → String}
 {systems : List SystemMessage}

theorem lastSystem_split {index : Nat} {system : SystemMessage}
 (h : lastSystem pending = some (index, system)) :
 ∃ before source after, pending = before ++ { message := .llm (.system system), source } :: after
   ∧ before.length = index ∧ lastSystem after = none := by
 induction pending generalizing index with
 | nil => simp [lastSystem] at h
 | cons entry rest ih =>
  rw [lastSystem] at h
  cases hrest : lastSystem rest with
  | some found =>
   rw [hrest] at h
   cases h
   obtain ⟨before, source, after, rfl, hlength, hafter⟩ := ih hrest
   exact ⟨entry :: before, source, after, rfl, by rw [length_cons, hlength], hafter⟩
  | none =>
   rw [hrest] at h
   obtain ⟨message, source⟩ := entry
   obtain ⟨found, hfound, heq⟩ := Option.map_eq_some_iff.mp h
   simp only [Prod.mk.injEq] at heq
   obtain ⟨rfl, rfl⟩ := heq
   rw [AgentMessage.system?_eq_some] at hfound
   exact ⟨[], source, rest, by rw [← hfound]; rfl, rfl, hrest⟩

theorem systemsOf_lastSystem_none (h : lastSystem pending = none) :
 systemsOf (pending.map Entry.message) = [] := by
 induction pending with
 | nil => rfl
 | cons entry rest ih =>
  rw [lastSystem] at h
  cases hrest : lastSystem rest with
  | some found => exact absurd (hrest ▸ h) (by simp)
  | none =>
   rw [hrest, Option.map_eq_none_iff] at h
   rw [systemsOf, map_cons, filterMap_cons, h]
   exact ih hrest

theorem setSystem_append (before after : List Entry) (entry : Entry) (system : SystemMessage) :
 setSystem (before ++ entry :: after) before.length system
  = before ++ { entry with message := .llm (.system system) } :: after := by
 rw [setSystem]
 induction before with
 | nil => rfl
 | cons first rest ih =>
  rw [cons_append, length_cons, modify_succ_cons, ih]
  rfl

theorem systemsOf_split (before after : List Entry) (source : Source) (system : SystemMessage)
 (hafter : lastSystem after = none) :
 systemsOf ((before ++ { message := .llm (.system system), source } :: after).map Entry.message)
  = systemsOf (before.map Entry.message) ++ [system] := by
 rw [map_append, systemsOf_append, map_cons]
 refine congrArg (systemsOf (before.map Entry.message) ++ ·) ?_
 exact congrArg (system :: ·) (systemsOf_lastSystem_none hafter)

/-! ## Declaring -/

theorem getD_added (message : SystemMessage) (added : List Tool) (removed : List String) :
 (withToolChanges message added removed).toolsAdded.getD [] = added := by
 unfold withToolChanges
 cases added <;> rfl

theorem getD_removed (message : SystemMessage) (added : List Tool) (removed : List String) :
 (withToolChanges message added removed).toolsRemoved.getD [] = removed := by
 unfold withToolChanges
 cases removed <;> rfl

theorem declaresNothing_iff {system : SystemMessage} : declaresNothing system = true
  ↔ system.toolsAdded.getD [] = [] ∧ system.toolsRemoved.getD [] = [] := by
 unfold declaresNothing
 cases system.toolsAdded <;> cases system.toolsRemoved <;> simp

theorem declared_of_changes (hdistinct : DistinctNames context.executable) {message : SystemMessage}
 (hadded : message.toolsAdded.getD []
  = (getToolStateChanges shown (currentTools systems) context.executable).1)
 (hremoved : message.toolsRemoved.getD []
  = (getToolStateChanges shown (currentTools systems) context.executable).2) :
 SameTools shown (currentTools (systems ++ [message])) context.executable := by
 rw [currentTools_append]
 exact changes_replayed (distinct_currentTools systems) hdistinct hadded hremoved

theorem declared_of_unchanged (hdistinct : DistinctNames context.executable)
 (h : getToolStateChanges shown (currentTools systems) context.executable = ([], [])) :
 SameTools shown (currentTools systems) context.executable :=
 (changes_nil_iff (distinct_currentTools systems) hdistinct).mp h

theorem unchanged_iff {changes : List Tool × List String} :
 (changes.1.isEmpty && changes.2.isEmpty) = true ↔ changes = ([], []) := by
 obtain ⟨added, removed⟩ := changes
 cases added <;> cases removed <;> simp

/-- **What enters the transcript declares the tools**: behind the messages as they enter, the
system messages declare what the context can execute. -/
theorem declareToolChanges_declared (shown : Tool → String) (now : Int) {context : AgentContext}
 (hdistinct : DistinctNames context.executable) (pending : List Entry) :
 Declared shown
  { context with
    messages := context.messages
     ++ (declareToolChanges shown now context pending).map Entry.message } := by
 have hgoal : ∀ messages : List AgentMessage, SameTools shown
   (currentTools (systemsOf context.messages ++ systemsOf messages)) context.executable →
   Declared shown { context with messages := context.messages ++ messages } := by
  intro messages h
  rw [Declared, getCurrentTools_systems, systemsOf_append]
  exact h
 refine hgoal _ ?_
 unfold declareToolChanges
 split
 next index system hlast =>
  obtain ⟨before, source, after, rfl, rfl, hafter⟩ := lastSystem_split hlast
  simp only [setSystem_append]
  generalize hchanges : toolChanges shown context _ = changes
  rw [toolChanges_eq, systemsOf_split _ _ _ _ hafter, ← append_assoc,
   currentTools_append, foldl_cons, foldl_nil,
   changeTools_none _ (getD_added _ _ _) (getD_removed _ _ _)] at hchanges
  split
  next hunchanged =>
   rw [Bool.and_eq_true] at hunchanged
   have hempty := unchanged_iff.mp hunchanged.1
   obtain ⟨hadded, hremoved⟩ := declaresNothing_iff.mp hunchanged.2
   rw [systemsOf_split _ _ _ _ hafter, ← append_assoc, currentTools_append,
    foldl_cons, foldl_nil, changeTools_none _ hadded hremoved]
   exact declared_of_unchanged hdistinct (hchanges.trans hempty)
  · rw [systemsOf_split _ _ _ _ hafter, ← append_assoc]
    refine declared_of_changes hdistinct ?_ ?_
    · rw [getD_added, hchanges]
    · rw [getD_removed, hchanges]
 next hlast =>
  have hnone := systemsOf_lastSystem_none hlast
  generalize hchanges : toolChanges shown context pending = changes
  rw [toolChanges_eq, hnone, append_nil] at hchanges
  dsimp only
  split
  next hunchanged =>
   rw [hnone, append_nil]
   exact declared_of_unchanged hdistinct (hchanges.trans (unchanged_iff.mp hunchanged))
  · rw [findIdx_of_lastSystem_none hlast, insertIdx_zero]
    have hsystems : systemsOf ((Entry.ofRun (.system (toolUpdate now changes.1 changes.2))
     :: pending).map Entry.message) = [toolUpdate now changes.1 changes.2] :=
     congrArg (toolUpdate now changes.1 changes.2 :: ·) hnone
    rw [hsystems]
    refine declared_of_changes hdistinct ?_ ?_
    · rw [toolUpdate, getD_added, hchanges]
    · rw [toolUpdate, getD_removed, hchanges]

def CarriesTools (pending : List Entry) : Prop :=
 ∃ entry ∈ pending, ∃ system, entry.message.system? = some system ∧ declaresNothing system = false

/-- **Messages are only rewritten for a reason**: the transcript with the messages does not
declare the tools as they are, or one of the messages carries tool fields. -/
theorem declareToolChanges_ne {now : Int}
 (h : declareToolChanges shown now context pending ≠ pending) :
 toolChanges shown context pending ≠ ([], []) ∨ CarriesTools pending := by
 unfold declareToolChanges at h
 split at h
 next index system hlast =>
  obtain ⟨before, source, after, rfl, rfl, hafter⟩ := lastSystem_split hlast
  cases hnothing : declaresNothing system with
  | false =>
   exact .inr ⟨_, mem_append_right _ mem_cons_self, system, rfl, hnothing⟩
  | true =>
   refine .inl fun hnil => h ?_
   obtain ⟨hadded, hremoved⟩ := declaresNothing_iff.mp hnothing
   have hbase : toolChanges shown context
    (setSystem (before ++ { message := .llm (.system system), source } :: after)
     before.length (withToolChanges system [] [])) = ([], []) := by
    rw [setSystem_append, toolChanges_eq, systemsOf_split _ _ _ _ hafter,
     ← append_assoc, currentTools_append, foldl_cons, foldl_nil,
     changeTools_none _ (getD_added _ _ _) (getD_removed _ _ _)]
    rw [toolChanges_eq, systemsOf_split _ _ _ _ hafter, ← append_assoc,
     currentTools_append, foldl_cons, foldl_nil,
     changeTools_none _ hadded hremoved] at hnil
    exact hnil
   simp [hbase, hnothing]
 · refine .inl fun hnil => h ?_
   simp [hnil]

/-! ## Runs -/

/-- The model is about to be asked with a context that declares its tools. -/
def Point.Told (shown : Tool → String) : Point → Prop
 | .prepareRequest run | .request run =>
  DistinctNames run.current.executable → Declared shown run.current
 | _ => True

theorem appendMessages_told (config : AgentLoopConfig) (env : Surroundings) (run : LoopRun)
 (pending : List Entry)
 (hdistinct : DistinctNames (appendMessages config env run pending).2.current.executable) :
 Declared config.shown (appendMessages config env run pending).2.current :=
 @declareToolChanges_declared config.shown env.now run.current hdistinct pending

theorem updateRequest_told (config : AgentLoopConfig) (env : Surroundings) (run : LoopRun)
 (update : AgentRequestUpdate)
 (h : DistinctNames run.current.executable → Declared config.shown run.current) :
 (updateRequest config env run update).point.Told config.shown := by
 unfold updateRequest
 dsimp only
 split
 · exact h
 · exact appendMessages_told config env _ []

theorem PointStep.told {config : AgentLoopConfig} {env : Surroundings} {point : Point}
 {answer : Answer} {effects : List Effect} {place : LoopPlace} (ht : point.Told config.shown)
 (h : PointStep config env answer effects place point) : place.point.Told config.shown := by
 cases point with
 | begin start =>
  obtain ⟨-, rfl⟩ := h
  unfold beginLoop
  split
  · split <;> trivial
  · split
    · trivial
    · split <;> trivial
 | pollStart run =>
  obtain ⟨-, pending, -, rfl⟩ := h
  trivial
 | top run pending hasMoreToolCalls =>
  obtain ⟨-, rfl⟩ := h
  unfold loopTop
  split
  · split
    · trivial
    · split
      · split <;> trivial
      · trivial
  · trivial
 | prepareNextTurn run pending =>
  rcases h.2 with rfl | ⟨update, rfl⟩ <;> trivial
 | prepared run prepared pending =>
  obtain ⟨-, polled, -, rfl⟩ := h
  trivial
 | append run pending =>
  obtain ⟨-, rfl⟩ := h
  exact appendMessages_told config env run pending
 | prepareRequest run =>
  rcases h.2 with rfl | ⟨update, rfl⟩
  · exact ht
  · exact updateRequest_told config env run update ht
 | request run =>
  rcases h.2 with ⟨outcome, rfl⟩ | ⟨message, rfl⟩ | rfl <;> trivial
 | streaming run addedPartial =>
  rcases h.2 with ⟨emits, addedPartial', -, -, rfl⟩ | ⟨response, rfl⟩ <;> trivial
 | responded run response =>
  obtain ⟨-, rfl⟩ := h
  unfold respond
  dsimp only
  split
  all_goals split <;> trivial
 | failedTurn run response =>
  obtain ⟨-, rfl⟩ := h
  trivial
 | batch run response batch =>
  rcases h with ⟨messages, terminate, -, -, rfl⟩ | ⟨emits, batch', -, rfl⟩ <;> trivial
 | finishTurn run response toolResults hasMoreToolCalls =>
  obtain ⟨-, decision, rfl⟩ := h
  unfold finishTurn
  split <;> trivial
 | pollTurn run hasMoreToolCalls =>
  obtain ⟨-, pending, explicit, -, rfl⟩ := h
  trivial
 | followUps run =>
  obtain ⟨-, messages, -, rfl⟩ := h
  unfold followUp
  dsimp only
  split
  · trivial
  · split <;> trivial
 | returned newMessages outcome | failed error => exact h.elim

theorem Running.step_told {config : AgentLoopConfig} {s : Running}
 (ht : s.place.point.Told config.shown) (input : LoopInput) :
 (s.step config input).place.point.Told config.shown := by
 cases input with
 | answer answer =>
  rw [Running.step]
  split
  · exact ht
  next effects place hnext =>
   rcases loopNext_cases hnext with ⟨event, rest, -, -, ⟨-, heq⟩ | ⟨error, -, heq⟩⟩
    | ⟨-, -, -, error, -, heq⟩ | ⟨-, hstep⟩
   · exact heq ▸ ht
   · exact heq ▸ trivial
   · exact heq ▸ trivial
   · exact hstep.told ht
 | _ => exact ht

/-- **The model is always told the tools it can call.** Whenever a run is about to ask the
model and the tools of its context have distinct names, the system messages of the context
declare those tools. Messages on their way into the transcript are rewritten, or joined by a
system message, only when the transcript with them does not declare the tools or one of them
carries tool fields. -/
theorem requests_declare_tools (config : AgentLoopConfig) (start : LoopStart) (now : Int)
 (inputs : List LoopInput) :
 (∀ run, (runLoop config start now inputs).place.point = .request run →
  DistinctNames run.current.executable → Declared config.shown run.current)
  ∧ ∀ (at_ : Int) (context : AgentContext) (pending : List Entry),
   declareToolChanges config.shown at_ context pending ≠ pending →
   toolChanges config.shown context pending ≠ ([], []) ∨ CarriesTools pending := by
 refine ⟨fun run hrun => ?_, fun at_ context pending => declareToolChanges_ne⟩
 have ht : (runLoop config start now inputs).place.point.Told config.shown :=
  Run.final_invariant (fun s : Running => s.place.point.Told config.shown)
   (fun _ input hs => Running.step_told hs input)
   (show (Running.begin start now).place.point.Told config.shown from trivial) inputs
 rw [hrun] at ht
 exact ht

/-! ## A plain run -/

/-- A configuration without hooks or a bound; it shows a tool by its name. -/
def plainConfig : AgentLoopConfig :=
 { model := { id := "m", api := "a", provider := "p", input := [], reasoning := false,
              supportsDeveloperRole := none }
   toolExecution := .parallel
   maxConcurrentReadTools := none
   beforeToolCall := false
   afterToolCall := false
   finishTurn := false
   prepareRequest := false
   prepareNextTurn := false
   getSteeringMessages := false
   getFollowUpMessages := false
   streamFn := true
   controlled := false
   validateToolArguments := fun _ _ args => .ok args
   shown := Tool.name }

def plainTool : AgentTool :=
 { name := "read", description := "", parameters := .null, constrainedSampling := none,
   prepareArguments := false, executionMode := none, readOnly := true }

def plainPrompt : Supplied :=
 { message := .llm (.user { content := .text "go", timestamp := 0 }), supply := .caller }

/-- The first request of a run with one tool declares it. -/
theorem requests_declare_tools_first :
 ∃ run, (runLoop plainConfig (.prompt [plainPrompt] { messages := [], tools := [plainTool] }) 0
  (List.replicate 11 (.answer .settled))).place.point = .request run
  ∧ Declared plainConfig.shown run.current :=
 ⟨_, rfl, (requests_declare_tools plainConfig
  (.prompt [plainPrompt] { messages := [], tools := [plainTool] }) 0
  (List.replicate 11 (.answer .settled))).1 _ rfl (nodup_singleton _)⟩

end Bake.Agent
