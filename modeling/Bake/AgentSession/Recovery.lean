import Bake.Ai.Message
import Bake.AgentSession.OmissionRuns

/-!
# The recovery of failed responses

After an agent run the prompt's loop looks at its last response: a transient error is
retried after a wait, an overflow or a truncated response is followed by one compaction and
one more try, anything else settles the prompt. Two fields carry this over the responses:
the retries counted and whether the one recovery was used.

The patterns of error texts and comparisons of floating-point numbers are parameters, as is
the sum of a stored usage. What the loop meets beside the responses (the session it reads, the
settings, an abort, a queued message, how a compaction ends) is given to each iteration.
-/

namespace Bake.AgentSession

open Bake.Ai Bake.Json Bake.Session

/-! ## Classifying a response -/

/-- What is outside the model: patterns, and numbers as JavaScript has them. -/
structure Classify where
 /-- `OVERFLOW_PATTERNS` -/
 overflow : String → Bool
 nonOverflow : String → Bool
 bodylessOverflow : String → Bool
 retryable : String → Bool
 nonRetryable : String → Bool
 /-- `input as f64 >= window as f64 * 0.99` -/
 nearlyFull : Nat → Nat → Bool
 contextTokens : Value → Nat
 /-- Whether a stored message's timestamp is a number and at most a time. -/
 stampedBy : AgentMessage → Int → Bool

structure Usage where
 input : Nat
 output : Nat
 cacheRead : Nat
 cacheWrite : Nat
 totalTokens : Nat

/-- `u64` addition that saturates. -/
def saturatingAdd (a b : Nat) : Nat := min (a + b) (2 ^ 64 - 1)

def Usage.componentSum (usage : Usage) : Nat :=
 saturatingAdd (saturatingAdd (saturatingAdd usage.input usage.output) usage.cacheRead)
  usage.cacheWrite

def calculateContextTokens (usage : Usage) : Nat :=
 if 0 < usage.totalTokens then usage.totalTokens else usage.componentSum

/-- A model's response, with its usage. -/
structure Response where
 message : AssistantMessage
 usage : Usage

namespace Response

def stopReason (r : Response) : StopReason := r.message.stopReason

def callIds (r : Response) : List String :=
 r.message.content.filterMap fun block => match block with
  | .toolCall call => some call.id
  | _ => none

def errorText (r : Response) : Option String := r.message.errorMessage.filter (· ≠ "")

end Response

/-- The data of a selected model the recovery reads. -/
structure Model where
 provider : String
 id : String
 contextWindow : Nat
 maxTokens : Nat

namespace Classify

variable (p : Classify) (r : Response)

def isContextOverflow (contextWindow : Option Nat) : Bool :=
 let explicit : Bool := match r.errorText with
  | some error => r.stopReason = .error && !p.nonOverflow error
   && (p.overflow error || (r.message.provider = "cerebras" && p.bodylessOverflow error))
  | none => false
 let full : Bool := match contextWindow.filter (0 < ·) with
  | some window =>
   let input := saturatingAdd r.usage.input r.usage.cacheRead
   (r.stopReason = .stop && window < input)
    || (r.stopReason = .length && r.usage.output = 0 && p.nearlyFull input window)
  | none => false
 explicit || full

def isRecoverableLength (desiredMaxOutput : Nat) : Bool :=
 r.stopReason = .length && 0 < desiredMaxOutput && r.usage.output < desiredMaxOutput

def isRetryableAssistantError : Bool :=
 match r.errorText with
 | some error => r.stopReason = .error && !p.nonRetryable error && p.retryable error
 | none => false

def modelForMessage (model : Option Model) : Option Model :=
 model.filter fun model => model.provider = r.message.provider && model.id = r.message.model

def isRetryableError (model : Option Model) : Bool :=
 let window := ((modelForMessage r model).or model).elim 0 Model.contextWindow
 !p.isContextOverflow r (some window) && p.isRetryableAssistantError r

end Classify

/-! ## The decision -/

inductive CompactionReason where
 | manual
 | threshold
 | overflow
deriving DecidableEq

def overflowRecoveryFailed : String :=
 "Context overflow recovery failed after one compact-and-retry attempt. Try reducing context or switching to a larger-context model."

def lengthRecoveryFailed : String :=
 "Truncated response recovery failed after one compact-and-retry attempt."

/-- What `_checkCompaction` decides. -/
inductive Decision where
 | skip
 | run (reason : CompactionReason) (willRetry : Bool)
 | recoveryExhausted (message : String)
deriving DecidableEq

structure CheckInput where
 settings : CompactionSettings
 model : Option Model
 assistant : Response
 assistantEntryId : Option String
 branch : List SessionEntry
 projection : SessionProjection
 /-- The agent's transcript. -/
 messages : List AgentMessage
 skipAbortedCheck : Bool
 overflowRecoveryAttempted : Bool

/-- `threshold`, of a context window. -/
def threshold (settings : CompactionSettings) (contextWindow : Nat) : Int :=
 let reserved := (contextWindow : Int) - settings.reserveTokens
 match settings.thresholdPercent with
 | some percent => min reserved ((contextWindow : Int) * percent / 100)
 | none => reserved

def shouldCompact (contextTokens contextWindow : Nat) (settings : CompactionSettings) : Bool :=
 settings.enabled && threshold settings contextWindow < contextTokens

/-- `compaction_time`: of the latest compaction, when there is one. -/
def compactionTime (branch : List SessionEntry) : Option (Option Int) :=
 (branch.reverse.find? fun entry => entry.entryType = "compaction").map fun entry =>
  jsDateMs (entry.get "timestamp")

namespace CheckInput

variable (p : Classify) (input : CheckInput)

def behind : List SessionEntry :=
 match input.assistantEntryId.bind fun id => input.branch.findIdx? fun entry => entry.id = id with
 | some index => input.branch.drop (index + 1)
 | none => []

/-- Whether the projection still shows the response. -/
def projected : Bool :=
 match input.assistantEntryId with
 | none => true
 | some id => input.projection.entries.any fun entry =>
  entry.sourceEntry.id = id && entry.messages.any isAssistant

/-- Whether no compaction and no omission came behind the response. -/
def retained : Bool :=
 let latestEdit := (input.behind.filter fun entry => entry.entryType = "context_edit"
  && strMember entry.raw "targetId" = input.assistantEntryId).getLast?
 let omitted := latestEdit.any fun edit => (edit.get "replacement").any Value.isNull
 input.assistantEntryId.isNone
  || (!(input.behind.any fun entry => entry.entryType = "compaction") && !omitted)

def contextWindow : Nat :=
 ((Classify.modelForMessage input.assistant input.model).or input.model).elim 0 Model.contextWindow

def contextOverflow : Bool :=
 let usageMatches := input.projected
  && !(input.behind.any fun entry => entry.entryType = "context_edit")
 let explicit := input.assistant.stopReason = .error && p.isContextOverflow input.assistant none
 (Classify.modelForMessage input.assistant input.model).isSome && ((explicit && input.retained)
   || (usageMatches && p.isContextOverflow input.assistant (some input.contextWindow)))

def recoverableLength : Bool :=
 (Classify.modelForMessage input.assistant input.model).any fun model =>
  input.projected && Classify.isRecoverableLength input.assistant model.maxTokens

/-- Whether the usage an estimate rests on is from before the latest compaction. -/
def staleUsage (estimate : ContextUsageEstimate) : Bool :=
 match estimate.lastUsageIndex.bind fun index => input.messages[index]?,
  compactionTime input.branch with
 | some message, some (some time) => isAssistant message && p.stampedBy message time
 | _, _ => false

def thresholdDecision : Decision :=
 let hasEdits := input.projection.entries.any fun entry =>
  entry.sourceEntry.entryType = "context_edit"
 let direct := calculateContextTokens input.assistant.usage
 let decide := fun tokens =>
  if shouldCompact tokens input.contextWindow input.settings then .run .threshold false else .skip
 if hasEdits then
  decide (estimateProjectedContextTokens p.contextTokens input.projection input.branch).tokens
 else if input.assistant.stopReason = .error ∨ direct = 0 then
  let estimate := estimateContextTokens p.contextTokens input.messages
  if input.staleUsage p estimate then .skip else decide estimate.tokens
 else decide direct

def decideCompaction : Decision :=
 if input.settings.enabled = false then .skip
 else if input.skipAbortedCheck ∧ input.assistant.stopReason = .aborted then .skip
 else if (compactionTime input.branch).any fun time =>
  time.any fun time => input.assistant.message.timestamp ≤ time then .skip
 else if input.contextOverflow p ∨ input.recoverableLength then
  if input.assistant.stopReason = .stop then .run .overflow false
  else if input.overflowRecoveryAttempted then
   .recoveryExhausted (if input.contextOverflow p then overflowRecoveryFailed
    else lengthRecoveryFailed)
  else .run .overflow true
 else input.thresholdDecision p

end CheckInput

/-! ## The loop -/

/-- An omission made before a request: the failed response's entry, if it has one. -/
structure Omission where
 response : Response
 entryId : Option String
 before : Recorded
 after : Recorded

/-- What made the next request follow a response. -/
inductive Continuation where
 /-- The agent goes on with the results of the response's calls. -/
 | turn
 | retry (omission : Omission)
 | recovery (omission : Omission)
 | queued
 | notices
 | stopHook

/-- A response and what made the next request follow it. -/
structure Round where
 response : Response
 next : Continuation

structure Loop where
 /-- `RunState::retry_attempt` -/
 retryAttempt : Nat
 overflowRecoveryAttempted : Bool
 /-- `RunState::last_assistant`: the last response, with its entry -/
 lastAssistant : Option (Response × Option String)
 /-- The responses followed by another request, the latest first. -/
 rounds : List Round
 /-- The response to the latest request. -/
 current : Option Response
 ended : Bool

/-- `RetrySettings`, as far as a prompt's loop reads them. -/
structure RetrySettings where
 enabled : Bool
 maxRetries : Nat

inductive AutoCompaction where
 | settingsError (error : String)
 /-- No model, nothing to compact, or no summary. -/
 | notCompacted
 | compacted

/-- What one iteration of the loop meets. -/
structure Meets where
 /-- The agent's run ended in an error. -/
 failed : Bool
 /-- The agent's run was cancelled. -/
 cancelled : Bool
 /-- A hook ended the run. -/
 halted : Bool
 /-- What `Core::aborted` gives, each time it is read. -/
 aborted : Nat → Bool
 model : Option Model
 retry : RetrySettings
 settings : Except String CompactionSettings
 /-- How masking and the background compaction boundary end. -/
 masked : Except String Unit
 background : Except String Unit
 assistantEntryId : Except String (Option String)
 /-- The session and the transcript, when they are read and written. -/
 recorded : Recorded
 env : Env
 shutDown : Bool
 inTranscript : Bool
 waitAborted : Bool
 compaction : AutoCompaction
 queued : Bool
 notices : Bool
 /-- A `Stop` hook continues the run; or it fails. -/
 stopHook : Except String Bool

namespace Loop

def trackMessage (s : Loop) (response : Response) (entryId : Option String) : Loop :=
 { s with
   lastAssistant := some (response, entryId)
   overflowRecoveryAttempted :=
    if response.stopReason = .error ∨ response.stopReason = .length then
     s.overflowRecoveryAttempted
    else false
   retryAttempt := if response.stopReason = .error then s.retryAttempt else 0 }

def finishCancelledRetry (s : Loop) : Loop := { s with retryAttempt := 0 }

/-- The entry of a response: the tracked one, or the one found. -/
def entryOf (entryId : Option String) (a : Meets) : Except String (Option String) :=
 match entryId with
 | some id => .ok (some id)
 | none => a.assistantEntryId

/-- `omit_recovery_attempt`, as an omission. -/
def omitAttempt (a : Meets) (response : Response) (entryId : Option String) :
 Except OmissionFailure Omission :=
 match a.recorded.omitRecoveryAttempt a.env a.shutDown a.inTranscript response.callIds entryId with
 | (some failure, _) => .error failure
 | (none, after) => .ok { response, entryId, before := a.recorded, after }

/-- `prepare_retry`: the omission made when the run continues; an error ends it. -/
def prepareRetry (s : Loop) (a : Meets) (response : Response) (entryId : Option String) :
 Except Unit (Option Omission) × Loop :=
 if a.retry.enabled = false then (.ok none, s)
 else if a.retry.maxRetries < s.retryAttempt + 1 then (.ok none, s)
 else
  let s := { s with retryAttempt := s.retryAttempt + 1 }
  match entryOf entryId a with
  | .error _ => (.error (), s)
  | .ok entryId => match omitAttempt a response entryId with
   | .error _ => (.error (), s)
   | .ok omission =>
    if a.waitAborted then (.ok none, s.finishCancelledRetry) else (.ok (some omission), s)

/-- `run_auto_compaction`: whether the loop continues. -/
def runAutoCompaction (a : Meets) (willRetry : Bool) : Except Unit Bool :=
 match a.compaction with
 | .settingsError _ => .error ()
 | .notCompacted => .ok false
 | .compacted => .ok (willRetry || a.queued)

/-- `check_compaction`: how the loop continues, if it does. -/
def checkCompaction (p : Classify) (s : Loop) (a : Meets) (response : Response)
 (entryId : Option String) : Except Unit (Option Continuation) × Loop :=
 match a.masked, a.background, a.settings with
 | .ok (), .ok (), .ok settings =>
  if settings.enabled = false then (.ok none, s)
  else match entryOf entryId a with
   | .error _ => (.error (), s)
   | .ok entryId =>
    let decision := CheckInput.decideCompaction p
     { settings, model := a.model, assistant := response, assistantEntryId := entryId
       branch := a.recorded.world.manager.branchEntries none
       projection := a.recorded.world.manager.buildSessionProjection
       messages := a.recorded.transcript
       skipAbortedCheck := true
       overflowRecoveryAttempted := s.overflowRecoveryAttempted }
    match decision with
    | .skip | .recoveryExhausted _ => (.ok none, s)
    | .run _ true =>
     let s := { s with overflowRecoveryAttempted := true }
     match omitAttempt a response entryId with
     | .error _ => (.error (), s)
     | .ok omission => match runAutoCompaction a true with
      | .error () => (.error (), s)
      | .ok continues =>
       (.ok (if continues then some (.recovery omission) else none), s)
    | .run _ false => match runAutoCompaction a false with
     | .error () => (.error (), s)
     | .ok continues => (.ok (if continues then some .queued else none), s)
 | _, _, _ => (.error (), s)

/-- `handle_post_agent_run`, behind the retry: how the loop continues, if it does. -/
def settleResponse (p : Classify) (s : Loop) (a : Meets) (response : Response)
 (entryId : Option String) : Except Unit (Option Continuation) × Loop :=
 if a.aborted 3 then (.ok none, s.finishCancelledRetry)
 else
  let s := if response.stopReason = .error then { s with retryAttempt := 0 } else s
  match checkCompaction p s a response entryId with
  | (.error (), s) => (.error (), s)
  | (.ok (some next), s) => (.ok (if a.aborted 4 then none else some next), s)
  | (.ok none, s) => (.ok (if !a.aborted 4 && a.queued then some .queued else none), s)

/-- `handle_post_agent_run`: how the loop continues, if it does. -/
def handlePostAgentRun (p : Classify) (s : Loop) (a : Meets) :
 Except Unit (Option Continuation) × Loop :=
 let last := s.lastAssistant
 let s := { s with lastAssistant := none }
 if a.aborted 1 then (.ok none, s.finishCancelledRetry)
 else match last with
  | none => (.ok (if a.queued then some .queued else none), s)
  | some (response, entryId) =>
   if p.isRetryableError response a.model then
    match s.prepareRetry a response entryId with
    | (.error (), s) => (.error (), s)
    | (.ok (some omission), s) =>
     if a.aborted 2 then (.ok none, s.finishCancelledRetry)
     else (.ok (some (.retry omission)), s)
    | (.ok none, s) => s.settleResponse p a response entryId
   else s.settleResponse p a response entryId

def stop (s : Loop) : Loop := { s with ended := true }

/-- One more request. -/
def proceed (s : Loop) (next : Continuation) : Loop :=
 { s with
   rounds := (s.current.map fun response => { response, next }).toList ++ s.rounds
   current := none }

/-- One iteration of the loop of `run_agent_input`. -/
def iterate (p : Classify) (s : Loop) (a : Meets) : Loop :=
 if a.failed ∨ a.aborted 0 ∨ a.cancelled ∨ a.halted then s.stop
 else match handlePostAgentRun p s a with
  | (.error (), s) => s.stop
  | (.ok (some next), s) => if a.aborted 5 then s.stop else s.proceed next
  | (.ok none, s) =>
   if a.aborted 5 then s.stop
   else if a.queued then s.proceed .queued
   else if a.notices then s.proceed .notices
   else match a.stopHook with
    | .ok true => if a.aborted 6 then s.stop else s.proceed .stopHook
    | _ => s.stop

/-- What happens to the loop. -/
inductive Event where
 /-- A message of the user's is delivered. -/
 | user
 /-- A response, with the entry it was persisted as. -/
 | respond (response : Response) (entryId : Option String)
 /-- The agent goes on with the next turn of its run. -/
 | turn
 /-- The agent's run ended. -/
 | iterate (meets : Meets)

def step (p : Classify) (s : Loop) : Event → Loop
 | .user => { s with overflowRecoveryAttempted := false }
 | .respond response entryId =>
  { s.trackMessage response entryId with current := some response }
 | .turn => s.proceed .turn
 | .iterate a => s.iterate p a

end Loop

end Bake.AgentSession
