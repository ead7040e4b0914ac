import Bake.Agent.Batch
import Bake.Lib.Run

/-!
# The agent loop

`run_loop` and its two entry points: turns of one model response and its tool calls, with
messages drained from the queues in between. A `Point` is a place between two awaits, with
the locals that are alive there, and a section goes on to the next one. The events a section
emits are awaited one after another before the loop goes on; what the section pushes behind
each of them is pushed with the section, as nothing reads it in between.

The signal may abort, the run's control may stop and time passes between any two sections.
-/

namespace Bake.Agent

open Bake.Json Bake.Ai Bake.RunControl Option

/-! ## Points -/

/-- How a loop starts: `run_agent_loop` or `run_agent_loop_continue`. -/
inductive LoopStart where
 | prompt (prompts : List Supplied) (context : AgentContext)
 | continue_ (context : AgentContext)

/-- The locals of `run_loop` that outlive a turn. -/
structure LoopRun where
 current : AgentContext
 model : Model
 lastCompleted : Option (AssistantMessage × List ToolResultMessage)
 explicitContinuation : Bool
 newMessages : List Entry

inductive Point where
 | begin (start : LoopStart)
 /-- Steering typed while the run was starting is about to be drained. -/
 | pollStart (run : LoopRun)
 /-- The condition of the inner loop. -/
 | top (run : LoopRun) (pending : List Entry) (hasMoreToolCalls : Bool)
 | prepareNextTurn (run : LoopRun) (pending : List Entry)
 | prepared (run : LoopRun) (prepared pending : List Entry)
 | append (run : LoopRun) (pending : List Entry)
 | prepareRequest (run : LoopRun)
 | request (run : LoopRun)
 | streaming (run : LoopRun) (addedPartial : Bool)
 | responded (run : LoopRun) (response : AssistantMessage)
 | failedTurn (run : LoopRun) (response : AssistantMessage)
 | batch (run : LoopRun) (response : AssistantMessage) (place : BatchPlace)
 | finishTurn (run : LoopRun) (response : AssistantMessage)
  (toolResults : List ToolResultMessage) (hasMoreToolCalls : Bool)
 | pollTurn (run : LoopRun) (hasMoreToolCalls : Bool)
 | followUps (run : LoopRun)
 | returned (newMessages : List Entry) (outcome : RunOutcome)
 | failed (error : String)

structure LoopPlace where
 emits : List AgentEvent
 point : Point

def Point.at (point : Point) : LoopPlace := { emits := [], point }

/-- The points that await a hook, the model or a tool, and end with it when it panics. -/
def Point.awaits : Point → Bool
 | .begin _ | .top _ _ _ | .append _ _ | .responded _ _ | .returned _ _ | .failed _ => false
 | _ => true

/-! ## Sections -/

def messageEvents (messages : List Entry) : List AgentEvent :=
 messages.flatMap fun message => [.messageStart message, .messageEnd message]

def LoopRun.push (run : LoopRun) (messages : List Entry) : LoopRun :=
 { run with
   current :=
    { run.current with messages := run.current.messages ++ messages.map Entry.message }
   newMessages := run.newMessages ++ messages }

/-- `append_messages`: what of it the run keeps, and the events. -/
def appendMessages (config : AgentLoopConfig) (env : Surroundings) (run : LoopRun)
 (pending : List Entry) : List AgentEvent × LoopRun :=
 let messages := declareToolChanges config.shown env.now run.current pending
 (messageEvents messages, run.push messages)

def pollMessages (source : Bool) (answer : Answer) : Option (List Entry) :=
 if source then
  match answer with
  | .polled messages => some (messages.map Supplied.entry)
  | _ => none
 else
  match answer with
  | .settled => some []
  | _ => none

def hookAnswer {ρ : Type} (hook : Bool) (read : Answer → Option (Option ρ)) (answer : Answer) :
 Option (Option ρ) :=
 if hook then read answer
 else
  match answer with
  | .settled => some none
  | _ => none

/-- `AssistantMessage::pending`, failed: the stream ended without a final message. -/
def noResult (model : Model) (now : Int) : AssistantMessage :=
 { content := []
   api := model.api
   provider := model.provider
   model := model.id
   responseModel := none
   responseId := none
   stopReason := .error
   errorMessage := some "The stream ended without a final message"
   rawStopReason := none
   timestamp := now }

def checkContinuable (context : AgentContext) : Except String Unit :=
 match context.messages.getLast? with
 | none => .error "Cannot continue: no messages in context"
 | some message =>
  if message.assistant?.isSome then .error "Cannot continue from message role: assistant"
  else .ok ()

def noDefaultStreamFn : String :=
 "No default stream function configured. Pass streamFn explicitly or call setDefaultStreamFn()."

def LoopRun.begin (config : AgentLoopConfig) (context : AgentContext) : LoopRun :=
 { current := context
   model := config.model
   lastCompleted := none
   explicitContinuation := false
   newMessages := [] }

/-- `run_agent_loop` and `run_agent_loop_continue` up to `run_loop`. -/
def beginLoop (config : AgentLoopConfig) (env : Surroundings) : LoopStart → LoopPlace
 | .prompt prompts context =>
  if config.streamFn then
   let (events, run) := appendMessages config env (.begin config context)
    (prompts.map Supplied.entry)
   { emits := .agentStart :: .turnStart :: events, point := .pollStart run }
  else (Point.failed noDefaultStreamFn).at
 | .continue_ context =>
  match checkContinuable context with
  | .error error => (Point.failed error).at
  | .ok () =>
   if config.streamFn then
    { emits := [.agentStart, .turnStart], point := .pollStart (.begin config context) }
   else (Point.failed noDefaultStreamFn).at

/-- `agent_end`, and the loop returns. -/
def endRun (run : LoopRun) (outcome : RunOutcome) : LoopPlace :=
 { emits := [.agentEnd run.newMessages], point := .returned run.newMessages outcome }

def endTurn (run : LoopRun) (response : AssistantMessage) (toolResults : List ToolResultMessage)
 (outcome : RunOutcome) : LoopPlace :=
 { emits := [.turnEnd response toolResults, .agentEnd run.newMessages]
   point := .returned run.newMessages outcome }

def failedOutcome (response : AssistantMessage) : RunOutcome :=
 if response.stopReason = .aborted then .cancelled
 else .failed (response.errorMessage.getD "Model request failed")

/-- The replacements of `prepare_next_turn`. -/
def LoopRun.updateTurn (run : LoopRun) (update : AgentLoopTurnUpdate) : LoopRun :=
 { run with
   current := update.context.getD run.current
   model := update.model.getD run.model }

/-- The replacements of `prepare_request`. A replaced context may change the executable tools
or lack their declarations, so it is reconciled. -/
def updateRequest (config : AgentLoopConfig) (env : Surroundings) (run : LoopRun)
 (update : AgentRequestUpdate) : LoopPlace :=
 let run := { run with model := update.model.getD run.model }
 match update.context with
 | none => (Point.request run).at
 | some context =>
  let (events, run) := appendMessages config env { run with current := context } []
  { emits := events, point := .request run }

/-- The response is complete: `stream_assistant_response` behind its stream. -/
def completeResponse (run : LoopRun) (addedPartial : Bool) (response : AssistantMessage) :
 LoopPlace :=
 let entry := Entry.ofRun (.assistant response)
 { emits := if addedPartial then [.messageEnd entry] else [.messageStart entry, .messageEnd entry]
   point := .responded
     { run with
       current :=
        { run.current with messages := run.current.messages ++ [entry.message] } }
     response }

/-- What follows a response that is complete. -/
def respond (config : AgentLoopConfig) (run : LoopRun) (response : AssistantMessage) : LoopPlace :=
 let run := { run with newMessages := run.newMessages ++ [.ofRun (.assistant response)] }
 if response.failed then
  if config.finishTurn then (Point.failedTurn run response).at
  else endTurn run response [] (failedOutcome response)
 else if response.toolCalls.isEmpty then (Point.finishTurn run response [] false).at
 else (Point.batch run response
  (startBatch config run.current.tools response response.toolCalls)).at

def finishTurn (run : LoopRun) (response : AssistantMessage)
 (toolResults : List ToolResultMessage) (hasMoreToolCalls : Bool)
 (decision : Option AgentTurnDecision) : LoopPlace :=
 if decision = some .end_ then endTurn run response toolResults .finishedTurn
 else
  { emits := [.turnEnd response toolResults]
    point := .pollTurn
      { run with
        lastCompleted := some (response, toolResults)
        explicitContinuation := decision = some .continue_ }
      hasMoreToolCalls }

/-- The loop would stop here; follow-ups keep it going, and so does a `Continue` that nothing
else has honoured. -/
def followUp (run : LoopRun) (followUps : List Entry) : LoopPlace :=
 let settled := { run with explicitContinuation := false }
 if !followUps.isEmpty then (Point.top settled followUps true).at
 else if run.explicitContinuation then (Point.top settled [] true).at
 else endRun run .finishedTurn

def stoppedCause (config : AgentLoopConfig) (env : Surroundings) : Option RunOutcome :=
 if config.controlled then env.stopped else none

/-- The condition of the inner loop, and what comes before the hook of the next turn. -/
def loopTop (config : AgentLoopConfig) (env : Surroundings) (run : LoopRun)
 (pending : List Entry) (hasMoreToolCalls : Bool) : LoopPlace :=
 if hasMoreToolCalls || !pending.isEmpty then
  match stoppedCause config env with
  | some outcome => endRun run outcome
  | none =>
   if run.lastCompleted.isSome then
    if config.prepareNextTurn then (Point.prepareNextTurn run pending).at
    else (Point.prepared run [] pending).at
   else (Point.append run pending).at
 else (Point.followUps run).at

def pointNext (config : AgentLoopConfig) (env : Surroundings) :
 Point → Answer → Option (List Effect × LoopPlace)
 | .begin start, .settled => some ([], beginLoop config env start)
 | .pollStart run, answer =>
  (pollMessages config.getSteeringMessages answer).map fun pending =>
   ([], (Point.top run pending true).at)
 | .top run pending hasMoreToolCalls, .settled =>
  some ([], loopTop config env run pending hasMoreToolCalls)
 | .prepareNextTurn run pending, .nextTurn none => some ([], (Point.prepared run [] pending).at)
 | .prepareNextTurn run pending, .nextTurn (some update) =>
  some ([], (Point.prepared (run.updateTurn update)
   (update.messages.map AgentMessage.fromCaller) pending).at)
 | .prepared run prepared pending, answer =>
  -- Steering queued while the turn was prepared, but only if the poll before found
  -- nothing: one at a time would deliver two.
  let polled := if pending.isEmpty then pollMessages config.getSteeringMessages answer
   else pollMessages false answer |>.map fun _ => pending
  polled.map fun pending =>
   ([], { emits := [.turnStart], point := .append run (prepared ++ pending) })
 | .append run pending, .settled =>
  let (events, run) := appendMessages config env run pending
  some ([], { emits := events, point := .prepareRequest run })
 | .prepareRequest run, answer =>
  (hookAnswer config.prepareRequest
   (fun | .request update => some update | _ => none) answer).map fun
   | none => ([], (Point.request run).at)
   | some update => ([], updateRequest config env run update)
 | .request run, .refused outcome => if config.controlled then some ([], endRun run outcome) else none
 | .request _, .streamError message => some ([], (Point.failed message).at)
 | .request run, .settled => some ([], (Point.streaming run false).at)
 | .streaming run _, .streamStarted partialMessage =>
  some ([], { emits := [.messageStart (.ofRun (.assistant partialMessage))],
              point := .streaming run true })
 | .streaming run addedPartial, .streamUpdated partialMessage =>
  some ([], { emits := if addedPartial then [.messageUpdate partialMessage] else [],
              point := .streaming run addedPartial })
 | .streaming run addedPartial, .streamEnded result =>
  some ([], completeResponse run addedPartial (result.getD (noResult run.model env.now)))
 | .responded run response, .settled => some ([], respond config run response)
 | .failedTurn run response, .decided _ =>
  some ([], endTurn run response [] (failedOutcome response))
 | .batch run response (.executed messages terminate), .settled =>
  some ([], (Point.finishTurn (run.push (messages.map resultEntry)) response messages
   !terminate).at)
 | .batch run response place, answer =>
  (batchNext config env response run.current.tools place answer).map
   fun (effects, emits, place) => (effects, { emits, point := .batch run response place })
 | .finishTurn run response toolResults hasMoreToolCalls, answer =>
  (hookAnswer config.finishTurn
   (fun | .decided decision => some decision | _ => none) answer).map fun decision =>
   ([], finishTurn run response toolResults hasMoreToolCalls decision)
 | .pollTurn run hasMoreToolCalls, answer =>
  (pollMessages config.getSteeringMessages answer).map fun pending =>
   let explicitContinuation := run.explicitContinuation && !(hasMoreToolCalls || !pending.isEmpty)
   ([], (Point.top { run with explicitContinuation } pending hasMoreToolCalls).at)
 | .followUps run, answer =>
  (pollMessages config.getFollowUpMessages answer).map fun followUps =>
   ([], followUp run followUps)
 | _, _ => none

/-- One section of a loop: the next event is emitted, or the loop goes on from its point. A
panic ends the loop: of the hook or the stream the point awaits, or of a listener the run
depends on, which has the event by then. -/
def loopNext (config : AgentLoopConfig) (env : Surroundings) (place : LoopPlace)
 (answer : Answer) : Option (List Effect × LoopPlace) :=
 match place.emits, answer with
 | event :: rest, .settled => some ([.event event], { place with emits := rest })
 | event :: _, .panicked error => some ([.event event], (Point.failed error).at)
 | [], .panicked error => if place.point.awaits then some ([], (Point.failed error).at) else none
 | [], answer => pointNext config env place.point answer
 | _, _ => none

/-! ## Runs -/

/-- A loop, what happened around it, and what it did. -/
structure Running where
 env : Surroundings
 trace : List Effect
 place : LoopPlace

/-- What happens next: the signal aborts, the control stops, time passes, or the loop gets
an answer. -/
inductive LoopInput where
 | abort
 | stop (outcome : RunOutcome)
 | tick (now : Int)
 | answer (answer : Answer)

/-- One step of a run; the cause of a stopped control stays. -/
def Running.step (config : AgentLoopConfig) (s : Running) : LoopInput → Running
 | .abort => { s with env := { s.env with aborted := true } }
 | .stop outcome => { s with env := { s.env with stopped := s.env.stopped.or (some outcome) } }
 | .tick now => { s with env := { s.env with now } }
 | .answer answer =>
  match loopNext config s.env s.place answer with
  | none => s
  | some (effects, place) => { s with trace := s.trace ++ effects, place }

/-- A run before its first section. -/
def Running.begin (start : LoopStart) (now : Int) : Running :=
 { env := { aborted := false, stopped := none, now }
   trace := []
   place := (Point.begin start).at }

def runLoop (config : AgentLoopConfig) (start : LoopStart) (now : Int)
 (inputs : List LoopInput) : Running :=
 Run.final (Running.step config) (.begin start now) inputs

/-- What the loop returned, once its last event is emitted. -/
def Running.returned (s : Running) : Option (List Entry × RunOutcome) :=
 match s.place.emits, s.place.point with
 | [], .returned newMessages outcome => some (newMessages, outcome)
 | _, _ => none

/-! ## What a section does -/

def PointStep (config : AgentLoopConfig) (env : Surroundings) (answer : Answer)
 (effects : List Effect) (place : LoopPlace) : Point → Prop
 | .begin start => effects = [] ∧ place = beginLoop config env start
 | .pollStart run =>
  effects = [] ∧ ∃ pending, pollMessages config.getSteeringMessages answer = some pending
   ∧ place = (Point.top run pending true).at
 | .top run pending hasMoreToolCalls =>
  effects = [] ∧ place = loopTop config env run pending hasMoreToolCalls
 | .prepareNextTurn run pending =>
  effects = [] ∧ (place = (Point.prepared run [] pending).at
   ∨ ∃ update, place = (Point.prepared (run.updateTurn update)
    (update.messages.map AgentMessage.fromCaller) pending).at)
 | .prepared run prepared pending =>
  effects = [] ∧ ∃ polled,
   (pending = [] ∧ pollMessages config.getSteeringMessages answer = some polled
    ∨ pending ≠ [] ∧ polled = pending)
   ∧ place = { emits := [.turnStart], point := .append run (prepared ++ polled) }
 | .append run pending =>
  effects = [] ∧ place = { emits := (appendMessages config env run pending).1,
                           point := .prepareRequest (appendMessages config env run pending).2 }
 | .prepareRequest run =>
  effects = [] ∧ (place = (Point.request run).at
   ∨ ∃ update, place = updateRequest config env run update)
 | .request run =>
  effects = [] ∧ ((∃ outcome, place = endRun run outcome)
   ∨ (∃ message, place = (Point.failed message).at)
   ∨ place = (Point.streaming run false).at)
 | .streaming run addedPartial =>
  effects = [] ∧ ((∃ emits addedPartial', ended emits = []
   ∧ (∀ event ∈ emits, (∃ message, event = .messageStart message)
    ∨ ∃ message, event = .messageUpdate message)
   ∧ place = { emits, point := .streaming run addedPartial' })
   ∨ ∃ response, place = completeResponse run addedPartial response)
 | .responded run response => effects = [] ∧ place = respond config run response
 | .failedTurn run response =>
  effects = [] ∧ place = endTurn run response [] (failedOutcome response)
 | .batch run response batch =>
  (∃ messages terminate, batch = .executed messages terminate ∧ effects = []
   ∧ place = (Point.finishTurn (run.push (messages.map resultEntry)) response messages
    !terminate).at)
  ∨ ∃ emits batch',
   batchNext config env response run.current.tools batch answer = some (effects, emits, batch')
   ∧ place = { emits, point := .batch run response batch' }
 | .finishTurn run response toolResults hasMoreToolCalls =>
  effects = [] ∧ ∃ decision, place = finishTurn run response toolResults hasMoreToolCalls decision
 | .pollTurn run hasMoreToolCalls =>
  effects = [] ∧ ∃ pending explicitContinuation,
   pollMessages config.getSteeringMessages answer = some pending
   ∧ place = (Point.top { run with explicitContinuation } pending hasMoreToolCalls).at
 | .followUps run =>
  effects = [] ∧ ∃ messages, pollMessages config.getFollowUpMessages answer = some messages
   ∧ place = followUp run messages
 | .returned _ _ | .failed _ => False

variable {answer : Answer}

variable {config : AgentLoopConfig} {effects : List Effect}

/-- **Every section of a loop**, point by point. -/
theorem pointNext_step {env : Surroundings} {point : Point} {place : LoopPlace}
 (h : pointNext config env point answer = some (effects, place)) :
 PointStep config env answer effects place point := by
 unfold pointNext at h
 split at h
 · cases h
   exact ⟨rfl, rfl⟩
 · obtain ⟨pending, hpoll, heq⟩ := map_eq_some_iff.mp h
   cases heq
   exact ⟨rfl, pending, hpoll, rfl⟩
 · cases h
   exact ⟨rfl, rfl⟩
 · cases h
   exact ⟨rfl, .inl rfl⟩
 · cases h
   exact ⟨rfl, .inr ⟨_, rfl⟩⟩
 · obtain ⟨polled, hpolled, heq⟩ := map_eq_some_iff.mp h
   cases heq
   refine ⟨rfl, polled, ?_, rfl⟩
   split at hpolled
   next hempty =>
    exact .inl ⟨List.isEmpty_iff.mp hempty, hpolled⟩
   next hfull =>
    obtain ⟨-, -, rfl⟩ := map_eq_some_iff.mp hpolled
    exact .inr ⟨fun he => hfull (List.isEmpty_iff.mpr he), rfl⟩
 · cases h
   exact ⟨rfl, rfl⟩
 · obtain ⟨update, -, heq⟩ := map_eq_some_iff.mp h
   cases update with
   | none =>
    cases heq
    exact ⟨rfl, .inl rfl⟩
   | some update =>
    cases heq
    exact ⟨rfl, .inr ⟨update, rfl⟩⟩
 · split at h
   · cases h
     exact ⟨rfl, .inl ⟨_, rfl⟩⟩
   · simp at h
 · cases h
   exact ⟨rfl, .inr (.inl ⟨_, rfl⟩)⟩
 · cases h
   exact ⟨rfl, .inr (.inr rfl)⟩
 · cases h
   exact ⟨rfl, .inl ⟨_, _, rfl, fun event he => .inl ⟨_, List.mem_singleton.mp he⟩, rfl⟩⟩
 · cases h
   refine ⟨rfl, .inl ⟨_, _, ?_, ?_, rfl⟩⟩
   · split <;> rfl
   · intro event he
     split at he
     · exact .inr ⟨_, List.mem_singleton.mp he⟩
     · simp at he
 · cases h
   exact ⟨rfl, .inr ⟨_, rfl⟩⟩
 · cases h
   exact ⟨rfl, rfl⟩
 · cases h
   exact ⟨rfl, rfl⟩
 · cases h
   exact .inl ⟨_, _, rfl, rfl, rfl⟩
 · obtain ⟨⟨es, emits, batch'⟩, hbatch, heq⟩ := map_eq_some_iff.mp h
   cases heq
   exact .inr ⟨emits, batch', hbatch, rfl⟩
 · obtain ⟨decision, -, heq⟩ := map_eq_some_iff.mp h
   cases heq
   exact ⟨rfl, decision, rfl⟩
 · obtain ⟨pending, hpoll, heq⟩ := map_eq_some_iff.mp h
   cases heq
   exact ⟨rfl, pending, _, hpoll, rfl⟩
 · obtain ⟨messages, hpoll, heq⟩ := map_eq_some_iff.mp h
   cases heq
   exact ⟨rfl, messages, hpoll, rfl⟩
 · simp at h

/-- **Every step of a loop**: an event is emitted, with or without a panic behind it, what the
point awaits panics, or the point's section is taken. -/
theorem loopNext_cases {env : Surroundings} {place place' : LoopPlace} (h : loopNext config env place answer = some (effects, place')) :
 (∃ event rest, place.emits = event :: rest ∧ effects = [.event event]
  ∧ (answer = .settled ∧ place' = { place with emits := rest }
   ∨ ∃ error, answer = .panicked error ∧ place' = (Point.failed error).at))
  ∨ (place.emits = [] ∧ effects = [] ∧ place.point.awaits = true
   ∧ ∃ error, answer = .panicked error ∧ place' = (Point.failed error).at)
  ∨ (place.emits = [] ∧ PointStep config env answer effects place' place.point) := by
 unfold loopNext at h
 split at h
 next event rest hemits =>
  cases h
  exact .inl ⟨event, rest, hemits, rfl, .inl ⟨rfl, rfl⟩⟩
 next event rest error hemits =>
  cases h
  exact .inl ⟨event, rest, hemits, rfl, .inr ⟨error, rfl, rfl⟩⟩
 next error hemits =>
  split at h
  next hawaits =>
   cases h
   exact .inr (.inl ⟨hemits, rfl, hawaits, error, rfl, rfl⟩)
  · simp at h
 next hemits hanswer =>
  exact .inr (.inr ⟨hemits, pointNext_step h⟩)
 · simp at h

theorem pollMessages_some {source : Bool} {pending : List Entry}
 (h : pollMessages source answer = some pending) :
 (∃ messages, answer = .polled messages ∧ pending = messages.map Supplied.entry)
  ∨ pending = [] := by
 unfold pollMessages at h
 split at h
 · split at h
   · exact .inl ⟨_, rfl, (some.inj h).symm⟩
   · simp at h
 · split at h
   · exact .inr (some.inj h).symm
   · simp at h

end Bake.Agent
