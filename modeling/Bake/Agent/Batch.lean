import Bake.Agent.ToolCall
import Bake.Agent.JoinAll

/-!
# The tool calls of one response

`execute_tool_calls` and what it chooses between: the calls run one after another, or are
prepared in order and run together, and the calls of a response cut at the token limit fail
without running. An abort ends a batch behind the call it is at.

Each section is taken by the loop's own task and comes with the events the task emits before
the next one. However a batch runs, its results are those of the first calls, one for each
in order, and of all calls unless the signal has aborted.
-/

open List

namespace Bake.Agent

open Bake.Json Bake.Ai

/-- `usize::MAX`, the bound of a join without one. -/
def usizeMax : Nat := 2 ^ 64 - 1

/-- The outcome of a call whose arguments may be cut. -/
def truncatedOutcome (call : ToolCall) : AgentToolCallOutcome :=
 { toolCall := call
   result := createErrorToolResult
    ("Tool call \"" ++ call.name ++ "\" was not executed: the response hit the output token "
     ++ "limit, so its arguments may be truncated. Re-issue the tool call with complete "
     ++ "arguments.")
   isError := true }

inductive BatchPlace where
 | truncated (rest : List ToolCall) (messages : List ToolResultMessage)
 | truncatedResult (finalized : AgentToolCallOutcome) (rest : List ToolCall)
  (messages : List ToolResultMessage)
 | sequential (rest : List ToolCall) (finalizedCalls : List AgentToolCallOutcome)
  (messages : List ToolResultMessage)
 | sequentialPrepare (call : ToolCall) (place : PreparePlace) (rest : List ToolCall)
  (finalizedCalls : List AgentToolCallOutcome) (messages : List ToolResultMessage)
 | sequentialRun (run : CallRun) (rest : List ToolCall)
  (finalizedCalls : List AgentToolCallOutcome) (messages : List ToolResultMessage)
 | sequentialResult (finalized : AgentToolCallOutcome) (rest : List ToolCall)
  (finalizedCalls : List AgentToolCallOutcome) (messages : List ToolResultMessage)
 | sequentialNext (rest : List ToolCall) (finalizedCalls : List AgentToolCallOutcome)
  (messages : List ToolResultMessage)
 | parallel (rest : List ToolCall) (entries : List CallRun)
 | parallelPrepare (call : ToolCall) (place : PreparePlace) (rest : List ToolCall)
  (entries : List CallRun)
 | parallelNext (rest : List ToolCall) (entries : List CallRun)
 | join (join : Join CallRun AgentToolCallOutcome)
 | results (ordered rest : List AgentToolCallOutcome) (messages : List ToolResultMessage)
 /-- `ExecutedToolCallBatch`. -/
 | executed (messages : List ToolResultMessage) (terminate : Bool)

/-- A call that makes its batch run one call at a time. -/
def hasSequentialToolCall (config : AgentLoopConfig) (tools : List AgentTool)
 (calls : List ToolCall) : Bool :=
 calls.any fun call =>
  match findTool tools call.name with
  | none => config.maxConcurrentReadTools.isSome
  | some tool =>
   tool.executionMode = some .sequential
    || (config.maxConcurrentReadTools.isSome && !tool.readOnly)

/-- The start of a batch: `execute_tool_calls`, or the failure of a truncated response. -/
def startBatch (config : AgentLoopConfig) (tools : List AgentTool) (response : AssistantMessage)
 (calls : List ToolCall) : BatchPlace :=
 if response.stopReason = .length then .truncated calls []
 else if config.toolExecution = .sequential || hasSequentialToolCall config tools calls then
  .sequential calls [] []
 else .parallel calls []

def immediateOutcome (call : ToolCall) (result : AgentToolResult) (isError : Bool) :
 AgentToolCallOutcome :=
 { toolCall := call, result, isError }

def Answer.poll : Answer → Option Answer
 | .pending => none
 | answer => some answer

/-- One section of a batch: its effects, the events the loop then emits, and where the batch
goes on. -/
def batchNext (config : AgentLoopConfig) (env : Surroundings) (response : AssistantMessage)
 (tools : List AgentTool) : BatchPlace → Answer →
  Option (List Effect × List AgentEvent × BatchPlace)
 | .truncated [] messages, .settled => some ([], [], .executed messages false)
 | .truncated (call :: rest) messages, .settled =>
  let finalized := truncatedOutcome call
  some ([], [toolExecutionStart call, toolExecutionEnd finalized],
   .truncatedResult finalized rest messages)
 | .truncatedResult finalized rest messages, .settled =>
  let message := createToolResultMessage env.now finalized
  some ([], toolResultEvents message, .truncated rest (messages ++ [message]))
 | .sequential [] finalizedCalls messages, .settled =>
  some ([], [], .executed messages (shouldTerminateToolBatch finalizedCalls))
 | .sequential (call :: rest) finalizedCalls messages, .settled =>
  some ([], [toolExecutionStart call], .sequentialPrepare call .begin rest finalizedCalls messages)
 | .sequentialPrepare call place rest finalizedCalls messages, answer =>
  match prepareToolCall config tools env call place answer with
  | some (.inl place) =>
   some ([], [], .sequentialPrepare call place rest finalizedCalls messages)
  | some (.inr (.immediate result isError)) =>
   let finalized := immediateOutcome call result isError
   some ([], [toolExecutionEnd finalized], .sequentialResult finalized rest finalizedCalls messages)
  | some (.inr (.prepared _ args)) =>
   some ([], [], .sequentialRun { call, emits := [], place := .execute args } rest finalizedCalls
     messages)
  | none => none
 | .sequentialRun run rest finalizedCalls messages, answer =>
  match run.ready with
  | some finalized =>
   some ([], [], .sequentialResult finalized rest finalizedCalls messages)
  | none =>
   (run.next config env response answer).map fun (effects, run) =>
    (effects, [], .sequentialRun run rest finalizedCalls messages)
 | .sequentialResult finalized rest finalizedCalls messages, .settled =>
  let message := createToolResultMessage env.now finalized
  some ([], toolResultEvents message,
   .sequentialNext rest (finalizedCalls ++ [finalized]) (messages ++ [message]))
 | .sequentialNext rest finalizedCalls messages, .settled =>
  if env.aborted then
   some ([], [], .executed messages (shouldTerminateToolBatch finalizedCalls))
  else some ([], [], .sequential rest finalizedCalls messages)
 | .parallel [] entries, .settled => some ([], [], .join (Join.begin entries))
 | .parallel (call :: rest) entries, .settled =>
  some ([], [toolExecutionStart call], .parallelPrepare call .begin rest entries)
 | .parallelPrepare call place rest entries, answer =>
  match prepareToolCall config tools env call place answer with
  | some (.inl place) => some ([], [], .parallelPrepare call place rest entries)
  | some (.inr (.immediate result isError)) =>
   let finalized := immediateOutcome call result isError
   some ([], [toolExecutionEnd finalized], .parallelNext rest (entries ++ [.ofReady finalized]))
  | some (.inr (.prepared _ args)) =>
   some ([], [], .parallelNext rest (entries ++ [{ call, emits := [], place := .deferred args }]))
  | none => none
 | .parallelNext rest entries, .settled =>
  if env.aborted then some ([], [], .join (Join.begin entries))
  else some ([], [], .parallel rest entries)
 | .join join, answer =>
  let limit := (config.maxConcurrentReadTools.map Subtype.val).getD usizeMax
  match join.next limit CallRun.ready (CallRun.next config env response) answer.poll with
  | some (.going effects join) => some (effects, [], .join join)
  | some (.ready ordered) => some ([], [], .results ordered ordered [])
  | none => none
 | .results ordered [] messages, .settled =>
  some ([], [], .executed messages (shouldTerminateToolBatch ordered))
 | .results ordered (finalized :: rest) messages, .settled =>
  let message := createToolResultMessage env.now finalized
  some ([], toolResultEvents message, .results ordered rest (messages ++ [message]))
 | _, _ => none

/-! ## The results of a batch -/

/-- The results whose events a batch has handed to the loop. -/
def BatchPlace.messages : BatchPlace → List ToolResultMessage
 | .truncated _ messages | .truncatedResult _ _ messages => messages
 | .sequential _ _ messages | .sequentialPrepare _ _ _ _ messages
 | .sequentialRun _ _ _ messages | .sequentialResult _ _ _ messages
 | .sequentialNext _ _ messages => messages
 | .parallel _ _ | .parallelPrepare _ _ _ _ | .parallelNext _ _ | .join _ => []
 | .results _ _ messages | .executed messages _ => messages

def Answers (calls : List ToolCall) (results : List ToolResultMessage) : Prop :=
 results.map (fun result => (result.toolCallId, result.toolName))
  = calls.map fun call => (call.id, call.name)

/-- The results of a batch answer the first calls of a response, and all of them unless the
signal has aborted. -/
def AnswersFirst (aborted : Bool) (calls : List ToolCall) (results : List ToolResultMessage) :
 Prop :=
 ∃ done rest, calls = done ++ rest ∧ Answers done results ∧ (rest = [] ∨ aborted = true)

theorem Answers.nil : Answers [] [] := rfl

variable {calls : List ToolCall} {aborted : Bool} {place place' : BatchPlace}
 {effects : List Effect} {emits : List AgentEvent} {response : AssistantMessage}
 {config : AgentLoopConfig} {env : Surroundings}

theorem Answers.result {results : List ToolResultMessage} (h : Answers calls results) (now : Int)
 (finalized : AgentToolCallOutcome) :
 Answers (calls ++ [finalized.toolCall]) (results ++ [createToolResultMessage now finalized]) := by
 rw [Answers, map_append, map_append, h]
 rfl

def BatchPlace.Sound (aborted : Bool) (calls : List ToolCall) : BatchPlace → Prop
 | .truncated rest messages | .sequential rest _ messages | .sequentialNext rest _ messages =>
  ∃ done, calls = done ++ rest ∧ Answers done messages
 | .truncatedResult finalized rest messages | .sequentialResult finalized rest _ messages =>
  ∃ done, calls = done ++ finalized.toolCall :: rest ∧ Answers done messages
 | .sequentialPrepare call _ rest _ messages =>
  ∃ done, calls = done ++ call :: rest ∧ Answers done messages
 | .sequentialRun run rest _ messages =>
  run.Sound ∧ ∃ done, calls = done ++ run.call :: rest ∧ Answers done messages
 | .parallel rest entries | .parallelNext rest entries =>
  (∀ run ∈ entries, run.Sound) ∧ calls = entries.map CallRun.call ++ rest
 | .parallelPrepare call _ rest entries =>
  (∀ run ∈ entries, run.Sound) ∧ calls = entries.map CallRun.call ++ call :: rest
 | .join futures =>
  ∃ done rest, calls = done ++ rest ∧ (rest = [] ∨ aborted = true)
   ∧ futures.futures.length = done.length
   ∧ futures.Sound (fun i run => run.Sound ∧ done[i]? = some run.call)
    (fun i finalized => done[i]? = some finalized.toolCall)
 | .results _ rest messages =>
  ∃ done left, calls = done ++ rest.map AgentToolCallOutcome.toolCall ++ left
   ∧ (left = [] ∨ aborted = true) ∧ Answers done messages
 | .executed messages _ => AnswersFirst aborted calls messages

theorem BatchPlace.Sound.abort (h : place.Sound aborted calls) : place.Sound true calls := by
 cases place with
 | join join =>
  obtain ⟨done, rest, hcalls, -, hjoin⟩ := h
  exact ⟨done, rest, hcalls, .inr rfl, hjoin⟩
 | results ordered rest messages =>
  obtain ⟨done, left, hcalls, -, hanswers⟩ := h
  exact ⟨done, left, hcalls, .inr rfl, hanswers⟩
 | executed messages terminate =>
  obtain ⟨done, rest, hcalls, hanswers, -⟩ := h
  exact ⟨done, rest, hcalls, hanswers, .inr rfl⟩
 | _ => exact h

theorem startBatch_sound (config : AgentLoopConfig) (tools : List AgentTool)
 (response : AssistantMessage) (calls : List ToolCall) (aborted : Bool) :
 (startBatch config tools response calls).Sound aborted calls := by
 unfold startBatch
 split
 · exact ⟨[], rfl, .nil⟩
 · split
   · exact ⟨[], rfl, .nil⟩
   · exact ⟨fun run h => absurd h (by simp), rfl⟩

@[simp] theorem startBatch_messages (config : AgentLoopConfig) (tools : List AgentTool)
 (response : AssistantMessage) (calls : List ToolCall) :
 (startBatch config tools response calls).messages = [] := by
 unfold startBatch
 split
 · rfl
 · split <;> rfl

theorem CallRun.Sound.ofReady (outcome : AgentToolCallOutcome) :
 (CallRun.ofReady outcome).Sound := fun _ he => RunPlace.finished.inj he ▸ rfl

variable {entries : List CallRun} {rest : List ToolCall}

theorem join_sound
 (hsound : ∀ run ∈ entries, run.Sound) (hcalls : calls = entries.map CallRun.call ++ rest)
 (hrest : rest = [] ∨ aborted = true) :
 (BatchPlace.join (Join.begin entries)).Sound aborted calls := by
 refine ⟨_, rest, hcalls, hrest, by simp [Join.begin], Join.Sound.begin fun i run hi => ?_⟩
 exact ⟨hsound run (mem_of_getElem? hi), by rw [getElem?_map, hi]; rfl⟩

theorem entries_append {run : CallRun} (hsound : ∀ entry ∈ entries, entry.Sound)
 (hcalls : calls = entries.map CallRun.call ++ run.call :: rest) (hrun : run.Sound) :
 (∀ entry ∈ entries ++ [run], entry.Sound)
  ∧ calls = (entries ++ [run]).map CallRun.call ++ rest := by
 refine ⟨fun other hother => ?_, by simp [hcalls]⟩
 rcases mem_append.mp hother with h | h
 · exact hsound other h
 · exact mem_singleton.mp h ▸ hrun

variable {done : List ToolCall}

theorem outputs_calls {values : List AgentToolCallOutcome} (hlength : values.length = done.length)
 (h : ∀ (i : Nat) (finalized : AgentToolCallOutcome), values[i]? = some finalized →
  done[i]? = some finalized.toolCall) :
 done = values.map AgentToolCallOutcome.toolCall := by
 refine ext_getElem? fun i => ?_
 rw [getElem?_map]
 cases hv : values[i]? with
 | some finalized => exact h i finalized hv
 | none =>
  have := List.getElem?_eq_none_iff.mp hv
  rw [getElem?_eq_none (by omega)]
  rfl

def ended : List AgentEvent → List Entry := List.filterMap fun
 | .messageEnd message => some message
 | _ => none

@[simp] theorem ended_nil : ended [] = [] := rfl

theorem ended_append (before after : List AgentEvent) :
 ended (before ++ after) = ended before ++ ended after := filterMap_append

/-- The result of a call, as the transcript holds it. -/
def resultEntry (result : ToolResultMessage) : Entry := .ofRun (.toolResult result)

/-- The events of a batch: those of its calls and of their results. -/
def OfBatch (emits : List AgentEvent) : Prop :=
 ∀ event ∈ emits, (∃ tool, event = .tool tool) ∨ (∃ message, event = .messageStart message)
  ∨ ∃ message, event = .messageEnd message

theorem OfBatch.nil : OfBatch [] := fun _ h => absurd h (by simp)

theorem OfBatch.tool (call : ToolCall) : OfBatch [toolExecutionStart call] :=
 fun _ h => .inl ⟨_, mem_singleton.mp h⟩

theorem OfBatch.toolEnd (finalized : AgentToolCallOutcome) :
 OfBatch [toolExecutionEnd finalized] := fun _ h => .inl ⟨_, mem_singleton.mp h⟩

theorem OfBatch.results (result : ToolResultMessage) : OfBatch (toolResultEvents result) := by
 intro event h
 rcases mem_pair.mp h with rfl | rfl
 · exact .inr (.inl ⟨_, rfl⟩)
 · exact .inr (.inr ⟨_, rfl⟩)

/-- What a section of a batch comes to: the batch is in its place, and the new results are
those whose ends are emitted. -/
def BatchStep (aborted : Bool) (response : AssistantMessage) (calls : List ToolCall)
 (place : BatchPlace) (effects : List Effect) (emits : List AgentEvent)
 (place' : BatchPlace) : Prop :=
 place'.Sound aborted calls ∧ OfCalls response effects ∧ OfBatch emits
  ∧ place'.messages.map resultEntry = place.messages.map resultEntry ++ ended emits

theorem BatchStep.quiet (hsound : place'.Sound aborted calls) (heffects : OfCalls response effects)
 (hemits : OfBatch emits) (hended : ended emits = [])
 (hmessages : place'.messages = place.messages) :
 BatchStep aborted response calls place effects emits place' :=
 ⟨hsound, heffects, hemits, by rw [hended, append_nil, hmessages]⟩

theorem BatchStep.result {message : ToolResultMessage} (hsound : place'.Sound aborted calls)
 (hmessages : place'.messages = place.messages ++ [message]) :
 BatchStep aborted response calls place [] (toolResultEvents message) place' :=
 ⟨hsound, .nil _, .results _, by rw [hmessages, map_append]; rfl⟩

theorem joinCalls_spec {join : Join CallRun AgentToolCallOutcome}
 {answer : Option Answer} {r : Joined CallRun AgentToolCallOutcome Effect}
 (hjoin : join.Sound (fun i run => run.Sound ∧ done[i]? = some run.call)
  (fun i finalized => done[i]? = some finalized.toolCall))
 (hnext : join.next ((config.maxConcurrentReadTools.map Subtype.val).getD usizeMax)
  CallRun.ready (CallRun.next config env response) answer = some r) :
 (∃ es join', r = .going es join' ∧ OfCalls response es
  ∧ join'.Sound (fun i run => run.Sound ∧ done[i]? = some run.call)
   (fun i finalized => done[i]? = some finalized.toolCall)
  ∧ join'.futures.length = join.futures.length)
  ∨ ∃ values, r = .ready values ∧ values.length = join.futures.length
   ∧ ∀ (i : Nat) (finalized : AgentToolCallOutcome), values[i]? = some finalized →
    done[i]? = some finalized.toolCall := by
 have hlimit : 0 < (config.maxConcurrentReadTools.map Subtype.val).getD usizeMax := by
  cases config.maxConcurrentReadTools with
  | none => exact show 0 < 2 ^ 64 - 1 by decide
  | some limit => exact limit.2
 refine Join.next_spec hlimit (.nil response) (fun hP hr => ?_) (fun hP hp => ?_) hjoin hnext
 · rw [hP.1.ready hr]
   exact hP.2
 · obtain ⟨hcall, hrun, heffects⟩ := CallRun.next_spec hP.1 hp
   exact ⟨⟨hrun, hcall ▸ hP.2⟩, heffects⟩

variable {tools : List AgentTool}

/-- **A section of a batch** keeps the batch in its place, and the results whose ends it emits
are the new results of the batch. -/
theorem batchNext_spec {answer : Answer} (hs : place.Sound env.aborted calls)
 (h : batchNext config env response tools place answer = some (effects, emits, place')) :
 BatchStep env.aborted response calls place effects emits place' := by
 unfold batchNext at h
 split at h
 · -- every call of a truncated response has failed
   cases h
   obtain ⟨done, hcalls, hanswers⟩ := hs
   exact .quiet ⟨done, [], hcalls, hanswers, .inl rfl⟩ (.nil _) .nil rfl rfl
 · cases h
   refine .quiet hs (.nil _) (fun event he => ?_) rfl rfl
   rcases mem_pair.mp he with rfl | rfl
   all_goals exact .inl ⟨_, rfl⟩
 · cases h
   obtain ⟨done, hcalls, hanswers⟩ := hs
   exact .result ⟨_, by rw [hcalls, append_assoc]; rfl, hanswers.result _ _⟩ rfl
 · cases h
   obtain ⟨done, hcalls, hanswers⟩ := hs
   exact .quiet ⟨done, [], hcalls, hanswers, .inl rfl⟩ (.nil _) .nil rfl rfl
 · cases h
   exact .quiet hs (.nil _) (.tool _) rfl rfl
 · -- a call of a sequential batch is prepared
   split at h
   · cases h
     exact .quiet hs (.nil _) .nil rfl rfl
   · cases h
     exact .quiet hs (.nil _) (.toolEnd _) rfl rfl
   · cases h
     exact .quiet ⟨.unfinished (by simp), hs⟩ (.nil _) .nil rfl rfl
   · simp at h
 · -- a call of a sequential batch runs
   obtain ⟨hrun, done, hcalls, hanswers⟩ := hs
   split at h
   next finalized hready =>
    cases h
    exact .quiet ⟨done, by rw [hrun.ready hready]; exact hcalls, hanswers⟩ (.nil _) .nil rfl rfl
   · obtain ⟨⟨es, run'⟩, hnext, heq⟩ := Option.map_eq_some_iff.mp h
     simp only [Prod.mk.injEq] at heq
     obtain ⟨rfl, rfl, rfl⟩ := heq
     obtain ⟨hcall, hrun', heffects⟩ := CallRun.next_spec hrun hnext
     exact .quiet ⟨hrun', done, hcall ▸ hcalls, hanswers⟩ heffects .nil rfl rfl
 · cases h
   obtain ⟨done, hcalls, hanswers⟩ := hs
   exact .result ⟨_, by rw [hcalls, append_assoc]; rfl, hanswers.result _ _⟩ rfl
 · obtain ⟨done, hcalls, hanswers⟩ := hs
   split at h
   next haborted =>
    cases h
    exact .quiet ⟨done, _, hcalls, hanswers, .inr haborted⟩ (.nil _) .nil rfl rfl
   · cases h
     exact .quiet ⟨done, hcalls, hanswers⟩ (.nil _) .nil rfl rfl
 · -- every call of a parallel batch is prepared
   cases h
   exact .quiet (join_sound hs.1 hs.2 (.inl rfl)) (.nil _) .nil rfl rfl
 · cases h
   exact .quiet hs (.nil _) (.tool _) rfl rfl
 · split at h
   · cases h
     exact .quiet hs (.nil _) .nil rfl rfl
   · cases h
     exact .quiet (entries_append hs.1 hs.2 (.ofReady _)) (.nil _) (.toolEnd _) rfl rfl
   · cases h
     exact .quiet (entries_append hs.1 hs.2 (.unfinished (by simp))) (.nil _) .nil rfl rfl
   · simp at h
 · split at h
   next haborted =>
    cases h
    exact .quiet (join_sound hs.1 hs.2 (.inr haborted)) (.nil _) .nil rfl rfl
   · cases h
     exact .quiet hs (.nil _) .nil rfl rfl
 · -- the calls of a parallel batch run together
   obtain ⟨done, rest, hcalls, hrest, hlength, hjoin⟩ := hs
   dsimp only at h
   split at h
   next es join' hnext =>
    cases h
    rcases joinCalls_spec hjoin hnext with ⟨es', join'', heq, heffects, hjoin', hfutures⟩ | hready
    · obtain ⟨rfl, rfl⟩ := Joined.going.inj heq
      exact .quiet ⟨done, rest, hcalls, hrest, hfutures.trans hlength, hjoin'⟩ heffects .nil rfl rfl
    · obtain ⟨values, heq, -⟩ := hready
      simp at heq
   next ordered hnext =>
    cases h
    rcases joinCalls_spec hjoin hnext with ⟨es', join'', heq, -⟩ | ⟨values, heq, hvalues, hQ⟩
    · simp at heq
    · obtain rfl := Joined.ready.inj heq
      refine .quiet ⟨[], rest, ?_, hrest, .nil⟩ (.nil _) .nil rfl rfl
      rw [nil_append, ← outputs_calls (hvalues.trans hlength) hQ, hcalls]
   · simp at h
 · cases h
   obtain ⟨done, left, hcalls, hleft, hanswers⟩ := hs
   exact .quiet ⟨done, left, by simpa using hcalls, hanswers, hleft⟩ (.nil _) .nil rfl rfl
 · cases h
   obtain ⟨done, left, hcalls, hleft, hanswers⟩ := hs
   exact .result ⟨_, left, by rw [hcalls]; simp, hleft, hanswers.result _ _⟩ rfl
 · simp at h

/-! ## A truncated response -/

/-- A batch whose calls fail without running. -/
def BatchPlace.IsTruncated : BatchPlace → Prop
 | .truncated _ _ | .truncatedResult _ _ _ | .executed _ _ => True
 | _ => False

theorem startBatch_truncated (config : AgentLoopConfig) (tools : List AgentTool)
 (calls : List ToolCall) (h : response.stopReason = .length) :
 (startBatch config tools response calls).IsTruncated := by
 rw [startBatch, if_pos h]
 trivial

/-- **A truncated response executes nothing.** -/
theorem batchNext_truncated {answer : Answer} (ht : place.IsTruncated)
 (h : batchNext config env response tools place answer = some (effects, emits, place')) :
 effects = [] ∧ place'.IsTruncated := by
 unfold batchNext at h
 split at h
 case h_1 | h_2 | h_3 =>
  cases h
  exact ⟨rfl, trivial⟩
 all_goals first
  | exact absurd ht (fun h => h)
  | simp at h

end Bake.Agent
