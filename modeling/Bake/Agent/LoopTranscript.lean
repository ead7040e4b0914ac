import Bake.Agent.Declared

/-!
# The transcript of a run

The messages a run returns are those whose ends it has emitted, and they fall into pieces:
a message somebody handed to the run, a tool announcement of the run's own, or a response
of the model with the results of its calls right behind it.
-/

open List

namespace Bake.Agent

open Bake.Json Bake.Ai Bake.RunControl

/-! ## Pieces -/

/-- A part of a run's messages: one that was handed to it or announces tools, or a response
with its results. -/
inductive Piece where
 | given (entry : Entry)
 | turn (response : AssistantMessage) (results : List ToolResultMessage)

def responseEntry (response : AssistantMessage) : Entry := .ofRun (.assistant response)

def Piece.entries : Piece → List Entry
 | .given entry => [entry]
 | .turn response results => responseEntry response :: results.map resultEntry

/-- Somebody handed the message to the run. -/
def Entry.IsSupplied (entry : Entry) : Prop := ∃ supply, entry.source = .supplied supply

/-- A given message was supplied or announces tools; a response that failed has no results,
another the results of its first calls, and of all unless the signal has aborted. -/
def Piece.WellFormed (aborted : Bool) : Piece → Prop
 | .given entry => entry.IsSupplied ∨ ∃ system, entry = .ofRun (.system system)
 | .turn response results =>
  if response.failed then results = [] else AnswersFirst aborted response.toolCalls results

def Transcript (aborted : Bool) (messages : List Entry) : Prop :=
 ∃ pieces : List Piece, messages = pieces.flatMap Piece.entries
  ∧ ∀ piece ∈ pieces, piece.WellFormed aborted

theorem Transcript.nil (aborted : Bool) : Transcript aborted [] :=
 ⟨[], rfl, fun _ h => absurd h (by simp)⟩

variable {aborted : Bool} {response : AssistantMessage}

theorem Piece.WellFormed.abort {piece : Piece} (h : piece.WellFormed aborted) :
 piece.WellFormed true := by
 cases piece with
 | given entry => exact h
 | turn response results =>
  rw [Piece.WellFormed] at h ⊢
  by_cases hfailed : response.failed = true
  · rwa [if_pos hfailed] at h ⊢
  · rw [if_neg hfailed] at h ⊢
    obtain ⟨done, rest, hcalls, hanswers, -⟩ := h
    exact ⟨done, rest, hcalls, hanswers, .inr rfl⟩

theorem Transcript.abort {messages : List Entry} (h : Transcript aborted messages) :
 Transcript true messages := by
 obtain ⟨pieces, hmessages, hpieces⟩ := h
 exact ⟨pieces, hmessages, fun piece hp => (hpieces piece hp).abort⟩

theorem Transcript.piece {messages : List Entry} (h : Transcript aborted messages) {piece : Piece}
 (hp : piece.WellFormed aborted) : Transcript aborted (messages ++ piece.entries) := by
 obtain ⟨pieces, rfl, hpieces⟩ := h
 refine ⟨pieces ++ [piece], by simp, fun other hother => ?_⟩
 rcases mem_append.mp hother with h | h
 · exact hpieces other h
 · exact mem_singleton.mp h ▸ hp

theorem Transcript.given {messages entries : List Entry} (h : Transcript aborted messages)
 (he : ∀ entry ∈ entries, (Piece.given entry).WellFormed aborted) :
 Transcript aborted (messages ++ entries) := by
 induction entries generalizing messages with
 | nil => rwa [append_nil]
 | cons entry rest ih =>
  have := ih (h.piece (he entry mem_cons_self))
   fun other hother => he other (mem_cons_of_mem _ hother)
  rwa [Piece.entries, append_assoc] at this

theorem Transcript.turn {messages : List Entry} (h : Transcript aborted messages)
 {results : List ToolResultMessage} (hp : (Piece.turn response results).WellFormed aborted) :
 Transcript aborted (messages ++ [responseEntry response] ++ results.map resultEntry) := by
 have := h.piece hp
 rwa [Piece.entries, ← singleton_append, ← append_assoc] at this

/-- Every message of a list was handed to the run. -/
def AllSupplied (entries : List Entry) : Prop := ∀ entry ∈ entries, entry.IsSupplied

theorem AllSupplied.nil : AllSupplied [] := fun _ h => absurd h (by simp)

theorem AllSupplied.append {before after : List Entry} (hb : AllSupplied before)
 (ha : AllSupplied after) : AllSupplied (before ++ after) := fun entry h =>
 (mem_append.mp h).elim (hb entry) (ha entry)

theorem AllSupplied.entries (messages : List Supplied) :
 AllSupplied (messages.map Supplied.entry) := by
 intro entry h
 obtain ⟨supplied, -, rfl⟩ := mem_map.mp h
 exact ⟨supplied.supply, rfl⟩

theorem AllSupplied.fromCaller (messages : List AgentMessage) :
 AllSupplied (messages.map AgentMessage.fromCaller) := by
 intro entry h
 obtain ⟨message, -, rfl⟩ := mem_map.mp h
 exact ⟨.caller, rfl⟩

theorem AllSupplied.polled {source : Bool} {answer : Answer} {pending : List Entry}
 (h : pollMessages source answer = some pending) : AllSupplied pending := by
 rcases pollMessages_some h with ⟨messages, -, rfl⟩ | rfl
 · exact .entries messages
 · exact .nil

theorem declared_given (shown : Tool → String) (now : Int) (context : AgentContext)
 {pending : List Entry} (h : AllSupplied pending) (aborted : Bool) :
 ∀ entry ∈ declareToolChanges shown now context pending,
  (Piece.given entry).WellFormed aborted := by
 obtain ⟨front, rest, heq, hfront, hrest⟩ := declareToolChanges_spec shown now context pending
 intro entry hentry
 rw [heq] at hentry
 rcases mem_append.mp hentry with hmem | hmem
 · rcases hfront with rfl | ⟨system, rfl⟩
   · simp at hmem
   · exact .inr ⟨system, mem_singleton.mp hmem⟩
 · have hbare : entry.bare ∈ pending.map Entry.bare := hrest ▸ mem_map_of_mem hmem
   obtain ⟨before, hbefore, hsame⟩ := mem_map.mp hbare
   obtain ⟨supply, hsource⟩ := h before hbefore
   exact .inl ⟨supply, by rw [← entry.bare_source, ← hsame, before.bare_source, hsource]⟩

/-! ## What a point holds -/

/-- The messages of a run whose ends are emitted once its events are: the run's new messages,
and those in flight. -/
def Point.messages : Point → List Entry
 | .begin _ | .failed _ => []
 | .pollStart run | .top run _ _ | .prepareNextTurn run _ | .prepared run _ _ | .append run _
 | .prepareRequest run | .request run | .streaming run _ | .failedTurn run _
 | .finishTurn run _ _ _ | .pollTurn run _ | .followUps run => run.newMessages
 | .responded run response => run.newMessages ++ [responseEntry response]
 | .batch run _ place => run.newMessages ++ place.messages.map resultEntry
 | .returned newMessages _ => newMessages

def Point.result : Point → List (List Entry)
 | .returned newMessages _ => [newMessages]
 | _ => []

/-- The loop ended without an outcome. -/
def Point.isFailed : Point → Prop
 | .failed _ => True
 | _ => False

/-- The messages of a run while no calls of its last response are running. -/
def Point.settledMessages : Point → Option (List Entry)
 | .begin _ | .batch _ _ _ | .failed _ => none
 | .pollStart run | .top run _ _ | .prepareNextTurn run _ | .prepared run _ _ | .append run _
 | .prepareRequest run | .request run | .streaming run _ | .responded run _ | .failedTurn run _
 | .finishTurn run _ _ _ | .pollTurn run _ | .followUps run => some run.newMessages
 | .returned newMessages _ => some newMessages

/-- The messages a point holds back. -/
def Point.pending : Point → List Entry
 | .top _ pending _ | .prepareNextTurn _ pending | .append _ pending => pending
 | .prepared _ messages pending => messages ++ pending
 | _ => []

/-- A point of a run: its settled messages are a transcript, what it holds back was supplied,
and the calls of its response run as they may. -/
structure Point.Sound (aborted : Bool) (point : Point) : Prop where
 settled : ∀ messages, point.settledMessages = some messages → Transcript aborted messages
 pending : AllSupplied point.pending
 batch : ∀ run response batch, point = .batch run response batch →
  (∃ before, run.newMessages = before ++ [responseEntry response] ∧ Transcript aborted before)
   ∧ response.failed = false ∧ batch.Sound aborted response.toolCalls
   ∧ (response.stopReason = .length → batch.IsTruncated)

variable {point : Point}

theorem Point.Sound.of {messages : List Entry} (hsettled : point.settledMessages = some messages)
 (ht : Transcript aborted messages) (hp : AllSupplied point.pending) : point.Sound aborted where
 settled other h := Option.some.inj (hsettled.symm.trans h) ▸ ht
 pending := hp
 batch run response batch h := by
  rw [h] at hsettled
  simp [Point.settledMessages] at hsettled

theorem Point.Sound.ofFailed (aborted : Bool) (error : String) :
 (Point.failed error).Sound aborted where
 settled messages h := absurd h (by simp [Point.settledMessages])
 pending := .nil
 batch run response batch h := absurd h (by simp)

theorem Point.Sound.abort (h : point.Sound aborted) : point.Sound true where
 settled messages hm := (h.settled messages hm).abort
 pending := h.pending
 batch run response batch hb := by
  obtain ⟨⟨before, hnew, ht⟩, hfailed, hsound, hlength⟩ := h.batch run response batch hb
  exact ⟨⟨before, hnew, ht.abort⟩, hfailed, hsound.abort, hlength⟩

/-! ## What a section adds -/

def events : List Effect → List AgentEvent := List.filterMap fun
 | .event event => some event
 | .execute _ _ _ => none

/-- The messages `agent_end` carries. -/
def agentEnds : List AgentEvent → List (List Entry) := List.filterMap fun
 | .agentEnd messages => some messages
 | _ => none

theorem events_append (before after : List Effect) :
 events (before ++ after) = events before ++ events after := filterMap_append

theorem agentEnds_append (before after : List AgentEvent) :
 agentEnds (before ++ after) = agentEnds before ++ agentEnds after := filterMap_append

theorem ended_messageEvents (messages : List Entry) : ended (messageEvents messages) = messages := by
 induction messages with
 | nil => rfl
 | cons message rest ih =>
  rw [messageEvents, flatMap_cons, ended_append]
  exact congrArg (message :: ·) ih

theorem agentEnds_messageEvents (messages : List Entry) :
 agentEnds (messageEvents messages) = [] := by
 induction messages with
 | nil => rfl
 | cons message rest ih =>
  rw [messageEvents, flatMap_cons, agentEnds_append]
  exact ih

def ExecutesWhole (effects : List Effect) : Prop :=
 ∀ response call args, Effect.execute response call args ∈ effects → response.stopReason ≠ .length

/-- What a section of a loop adds: the ends it emits are those of its new messages, and it
emits `agent_end` as it returns. -/
structure Accounted (aborted : Bool) (point : Point) (effects : List Effect) (place : LoopPlace) :
 Prop where
 sound : place.point.Sound aborted
 executes : ExecutesWhole effects
 quiet : ended (events effects) = [] ∧ agentEnds (events effects) = []
 messages : place.point.isFailed ∨ place.point.messages = point.messages ++ ended place.emits
 ends : place.point.isFailed ∨ agentEnds place.emits = place.point.result

theorem Accounted.plain {aborted : Bool} {point : Point} {place : LoopPlace}
 (hsound : place.point.Sound aborted)
 (hmessages : place.point.messages = point.messages ++ ended place.emits)
 (hends : agentEnds place.emits = place.point.result) :
 Accounted aborted point [] place where
 sound := hsound
 executes _ _ _ h := absurd h (by simp)
 quiet := ⟨rfl, rfl⟩
 messages := .inr hmessages
 ends := .inr hends

theorem Accounted.ofFailed (error : String) :
 Accounted aborted point [] (Point.failed error).at where
 sound := .ofFailed aborted error
 executes _ _ _ h := absurd h (by simp)
 quiet := ⟨rfl, rfl⟩
 messages := .inl trivial
 ends := .inl trivial

theorem Accounted.goes {point' : Point} {emits : List AgentEvent} {messages : List Entry}
 (ht : Transcript aborted messages) (hsettled : point'.settledMessages = some messages)
 (hp : AllSupplied point'.pending) (hmessages : point'.messages = point.messages)
 (hended : ended emits = []) (hends : agentEnds emits = point'.result) :
 Accounted aborted point [] { emits, point := point' } :=
 .plain (.of hsettled ht hp) (by rw [hended, append_nil]; exact hmessages) hends

theorem tool_effects {effects : List Effect} (h : OfCalls response effects) :
 ended (events effects) = [] ∧ agentEnds (events effects) = [] := by
 induction effects with
 | nil => exact ⟨rfl, rfl⟩
 | cons effect rest ih =>
  have hrest := ih fun other hother => h other (mem_cons_of_mem _ hother)
  rcases h effect mem_cons_self with ⟨event, rfl⟩ | ⟨call, args, rfl⟩
  · exact hrest
  · exact hrest

theorem OfBatch.agentEnds_nil {emits : List AgentEvent} (h : OfBatch emits) :
 agentEnds emits = [] := by
 unfold agentEnds
 rw [filterMap_eq_nil_iff]
 intro event hevent
 rcases h event hevent with ⟨tool, rfl⟩ | ⟨message, rfl⟩ | ⟨message, rfl⟩ <;> rfl

theorem appendMessages_accounted (config : AgentLoopConfig) (env : Surroundings) (run : LoopRun)
 {pending : List Entry} (ht : Transcript env.aborted run.newMessages) (hp : AllSupplied pending)
 {point' : Point}
 (hsettled : point'.settledMessages = some (appendMessages config env run pending).2.newMessages)
 (hpending : point'.pending = []) (hresult : point'.result = [])
 (hbefore : point.messages = run.newMessages)
 (hafter : point'.messages = (appendMessages config env run pending).2.newMessages)
 (front : List AgentEvent) (hended : ended front = []) (hends : agentEnds front = []) :
 Accounted env.aborted point []
  { emits := front ++ (appendMessages config env run pending).1, point := point' } := by
 refine .plain (.of hsettled (ht.given (declared_given _ _ _ hp _)) (hpending ▸ .nil)) ?_ ?_
 · rw [hafter, hbefore, ended_append, hended, nil_append]
   exact congrArg (run.newMessages ++ ·) (ended_messageEvents _).symm
 · rw [agentEnds_append, hends, hresult]
   exact agentEnds_messageEvents _

theorem respond_accounted (config : AgentLoopConfig) {run : LoopRun}
 (ht : Transcript aborted run.newMessages) :
 Accounted aborted (.responded run response) [] (respond config run response) := by
 have hturn : (Piece.turn response []).WellFormed aborted →
  Transcript aborted (run.newMessages ++ [responseEntry response]) := fun hp => by
  have := ht.turn hp
  rwa [map_nil, append_nil] at this
 unfold respond
 dsimp only
 split
 next hfailed =>
  have hdone := hturn (by rw [Piece.WellFormed, if_pos hfailed])
  split
  all_goals exact .goes hdone rfl .nil rfl rfl rfl
 next hfailed =>
  split
  next hempty =>
   refine .goes (hturn ?_) rfl .nil rfl rfl rfl
   rw [Piece.WellFormed, if_neg hfailed, List.isEmpty_iff.mp hempty]
   exact ⟨[], [], rfl, .nil, .inl rfl⟩
  · refine .plain ⟨fun messages h => absurd h (by simp [Point.at, Point.settledMessages]),
     .nil, ?_⟩ ?_ rfl
    · intro run' response' batch heq
      obtain ⟨rfl, rfl, rfl⟩ := Point.batch.inj heq
      exact ⟨⟨run.newMessages, rfl, ht⟩, by simpa using hfailed, startBatch_sound _ _ _ _ _,
       startBatch_truncated _ _ _⟩
    · simp [Point.at, Point.messages, responseEntry]

/-- **A section of a loop** adds to the transcript what it emits. -/
theorem PointStep.accounted {config : AgentLoopConfig} {env : Surroundings} {answer : Answer}
 {effects : List Effect} {place : LoopPlace} (hs : point.Sound env.aborted)
 (h : PointStep config env answer effects place point) :
 Accounted env.aborted point effects place := by
 cases point with
 | begin start =>
  obtain ⟨rfl, rfl⟩ := h
  unfold beginLoop
  split
  · split
    · exact appendMessages_accounted config env _ (.nil _) (.entries _) rfl rfl rfl rfl rfl
       [.agentStart, .turnStart] rfl rfl
    · exact .ofFailed _
  · split
    · exact .ofFailed _
    · split
      · exact .goes (.nil _) rfl .nil rfl rfl rfl
      · exact .ofFailed _
 | pollStart run =>
  obtain ⟨rfl, pending, hpoll, rfl⟩ := h
  exact .goes (hs.settled _ rfl) rfl (.polled hpoll) rfl rfl rfl
 | top run pending hasMoreToolCalls =>
  obtain ⟨rfl, rfl⟩ := h
  have ht := hs.settled _ rfl
  unfold loopTop
  split
  · split
    · exact .goes ht rfl .nil rfl rfl rfl
    · split
      · split
        all_goals exact .goes ht rfl hs.pending rfl rfl rfl
      · exact .goes ht rfl hs.pending rfl rfl rfl
  · exact .goes ht rfl .nil rfl rfl rfl
 | prepareNextTurn run pending =>
  obtain ⟨rfl, h⟩ := h
  have ht := hs.settled _ rfl
  rcases h with rfl | ⟨update, rfl⟩
  · exact .goes ht rfl hs.pending rfl rfl rfl
  · exact .goes ht rfl ((AllSupplied.fromCaller _).append hs.pending) rfl rfl rfl
 | prepared run prepared pending =>
  obtain ⟨rfl, polled, hpolled, rfl⟩ := h
  have hsplit : AllSupplied prepared ∧ AllSupplied pending :=
   ⟨fun entry he => hs.pending entry (mem_append_left _ he),
    fun entry he => hs.pending entry (mem_append_right _ he)⟩
  refine .goes (hs.settled _ rfl) rfl (hsplit.1.append ?_) rfl rfl rfl
  rcases hpolled with ⟨-, hpoll⟩ | ⟨-, rfl⟩
  · exact .polled hpoll
  · exact hsplit.2
 | append run pending =>
  obtain ⟨rfl, rfl⟩ := h
  exact appendMessages_accounted config env run (hs.settled _ rfl) hs.pending rfl rfl rfl rfl
   rfl [] rfl rfl
 | prepareRequest run =>
  obtain ⟨rfl, h⟩ := h
  have ht := hs.settled _ rfl
  rcases h with rfl | ⟨update, rfl⟩
  · exact .goes ht rfl .nil rfl rfl rfl
  · unfold updateRequest
    dsimp only
    split
    · exact .goes ht rfl .nil rfl rfl rfl
    next context hcontext =>
     exact appendMessages_accounted config env
      { run with model := update.model.getD run.model, current := context } ht .nil
      rfl rfl rfl rfl rfl [] rfl rfl
 | request run =>
  obtain ⟨rfl, h⟩ := h
  have ht := hs.settled _ rfl
  rcases h with ⟨outcome, rfl⟩ | ⟨message, rfl⟩ | rfl
  · exact .goes ht rfl .nil rfl rfl rfl
  · exact .ofFailed _
  · exact .goes ht rfl .nil rfl rfl rfl
 | streaming run addedPartial =>
  obtain ⟨rfl, h⟩ := h
  have ht := hs.settled _ rfl
  rcases h with ⟨emits, addedPartial', hended, hemits, rfl⟩ | ⟨response, rfl⟩
  · refine .goes ht rfl .nil rfl hended ?_
    rw [agentEnds, filterMap_eq_nil_iff.mpr]
    · rfl
    · intro event hevent
      rcases hemits event hevent with ⟨message, rfl⟩ | ⟨message, rfl⟩ <;> rfl
  · refine .plain (.of rfl ht .nil) ?_ ?_
    all_goals
     unfold completeResponse
     cases addedPartial <;> rfl
 | responded run response =>
  obtain ⟨rfl, rfl⟩ := h
  exact respond_accounted config (hs.settled _ rfl)
 | failedTurn run response =>
  obtain ⟨rfl, rfl⟩ := h
  exact .goes (hs.settled _ rfl) rfl .nil rfl rfl rfl
 | batch run response batch =>
  obtain ⟨⟨before, hnew, ht⟩, hfailed, hsound, hlength⟩ := hs.batch run response batch rfl
  rcases h with ⟨messages, terminate, rfl, rfl, rfl⟩ | ⟨emits, batch', hbatch, rfl⟩
  · have hdone : Transcript env.aborted (run.push (messages.map resultEntry)).newMessages := by
     rw [LoopRun.push, hnew]
     exact ht.turn (by rw [Piece.WellFormed, hfailed]; exact hsound)
    exact .goes hdone rfl .nil rfl rfl rfl
  obtain ⟨hsound', heffects, hemits, hmessages⟩ := batchNext_spec hsound hbatch
  refine ⟨⟨fun messages h => absurd h (by simp [Point.settledMessages]), .nil, ?_⟩, ?_,
   tool_effects heffects, .inr ?_, .inr hemits.agentEnds_nil⟩
  · intro run' response' other heq
    obtain ⟨rfl, rfl, rfl⟩ := Point.batch.inj heq
    exact ⟨⟨before, hnew, ht⟩, hfailed, hsound',
     fun hl => (batchNext_truncated (hlength hl) hbatch).2⟩
  · intro response' call args hexecute hl
    rcases heffects _ hexecute with ⟨event, heq⟩ | ⟨call', args', heq⟩
    · simp at heq
    · obtain ⟨rfl, -, -⟩ := Effect.execute.inj heq
      rw [(batchNext_truncated (hlength hl) hbatch).1] at hexecute
      simp at hexecute
  · simp only [Point.messages, hmessages, append_assoc]
 | finishTurn run response toolResults hasMoreToolCalls =>
  obtain ⟨rfl, decision, rfl⟩ := h
  have ht := hs.settled _ rfl
  unfold finishTurn
  split
  all_goals exact .goes ht rfl .nil rfl rfl rfl
 | pollTurn run hasMoreToolCalls =>
  obtain ⟨rfl, pending, explicit, hpoll, rfl⟩ := h
  exact .goes (hs.settled _ rfl) rfl (.polled hpoll) rfl rfl rfl
 | followUps run =>
  obtain ⟨rfl, messages, hpoll, rfl⟩ := h
  have ht := hs.settled _ rfl
  unfold followUp
  dsimp only
  split
  · exact .goes ht rfl (.polled hpoll) rfl rfl rfl
  · split
    all_goals exact .goes ht rfl .nil rfl rfl rfl
 | returned newMessages outcome | failed error => exact h.elim

/-! ## Runs -/

/-- What holds of a run: its point is sound, it executed tools of whole responses only, and
unless it failed the ends it has emitted and is about to emit are those of its messages. -/
structure Running.Sound (s : Running) : Prop where
 point : s.place.point.Sound s.env.aborted
 executes : ExecutesWhole s.trace
 messages : s.place.point.isFailed
  ∨ ended (events s.trace) ++ ended s.place.emits = s.place.point.messages
 ends : s.place.point.isFailed
  ∨ agentEnds (events s.trace) ++ agentEnds s.place.emits = s.place.point.result

theorem Running.Sound.begin (start : LoopStart) (now : Int) : (Running.begin start now).Sound where
 point := ⟨fun messages h => absurd h (by simp [Running.begin, Point.at, Point.settledMessages]),
  .nil, fun run response batch h => absurd h (by simp [Running.begin, Point.at])⟩
 executes _ _ _ h := absurd h (by simp [Running.begin])
 messages := .inr rfl
 ends := .inr rfl

theorem ExecutesWhole.append {before after : List Effect} (hb : ExecutesWhole before)
 (ha : ExecutesWhole after) : ExecutesWhole (before ++ after) := fun response call args h =>
 (mem_append.mp h).elim (hb response call args) (ha response call args)

theorem ExecutesWhole.event (event : AgentEvent) : ExecutesWhole [.event event] :=
 fun _ _ _ h => absurd (mem_singleton.mp h) (by simp)

/-- **A step of a run** keeps what holds of it. -/
theorem Running.Sound.step {config : AgentLoopConfig} {s : Running} (hs : s.Sound)
 (input : LoopInput) : (s.step config input).Sound := by
 cases input with
 | abort => exact ⟨hs.point.abort, hs.executes, hs.messages, hs.ends⟩
 | stop outcome | tick now => exact ⟨hs.point, hs.executes, hs.messages, hs.ends⟩
 | answer answer =>
  rw [Running.step]
  split
  · exact hs
  rename_i effects place hnext
  rcases loopNext_cases hnext with ⟨event, rest, hemits, rfl, ⟨-, rfl⟩ | ⟨error, -, rfl⟩⟩
   | ⟨-, rfl, -, error, -, rfl⟩ | ⟨hemits, hstep⟩
  · -- an event is emitted
    refine ⟨hs.point, hs.executes.append (.event event), ?_, ?_⟩
    · refine hs.messages.imp id fun h => ?_
      rw [hemits, ← singleton_append, ended_append] at h
      rw [events_append, ended_append, append_assoc]
      exact h
    · refine hs.ends.imp id fun h => ?_
      rw [hemits, ← singleton_append, agentEnds_append] at h
      rw [events_append, agentEnds_append, append_assoc]
      exact h
  · exact ⟨.ofFailed _ _, hs.executes.append (.event event), .inl trivial, .inl trivial⟩
  · exact ⟨.ofFailed _ _, by rw [append_nil]; exact hs.executes, .inl trivial,
     .inl trivial⟩
  -- a section is taken from the point
  obtain ⟨hsound, hexecutes, ⟨hended, hends⟩, hmessages, hresult⟩ := hstep.accounted hs.point
  refine ⟨hsound, hs.executes.append hexecutes, ?_, ?_⟩
  · rcases hs.messages with hfailed | hbefore
    · exact absurd hstep (by cases hp : s.place.point <;> simp_all [Point.isFailed, PointStep])
    · refine hmessages.imp id fun h => ?_
      rw [hemits, ended_nil, append_nil] at hbefore
      rw [events_append, ended_append, hended, append_nil, hbefore, h]
  · rcases hs.ends with hfailed | hbefore
    · exact absurd hstep (by cases hp : s.place.point <;> simp_all [Point.isFailed, PointStep])
    · refine hresult.imp id fun h => ?_
      have hnone : s.place.point.result = [] := by
       cases hp : s.place.point <;> simp_all [Point.result, PointStep]
      rw [hemits, hnone] at hbefore
      rw [events_append, agentEnds_append, hends, append_nil, h]
      simpa [agentEnds] using hbefore

theorem runLoop_sound (config : AgentLoopConfig) (start : LoopStart) (now : Int)
 (inputs : List LoopInput) : (runLoop config start now inputs).Sound :=
 Run.final_invariant Running.Sound (fun _ input hs => hs.step input) (.begin start now) inputs

/-- **The loop's transcript is well formed.** The messages a run returns are those of its
`message_end` events in order and the payload of its one `agent_end`. At any moment outside a
batch the run's messages fall into pieces: messages that were handed to the run, its tool
announcements, and responses of the model, each followed by the results of its first calls in
order with their ids and names, of all its calls unless the signal has aborted, and of none
when it failed. No tool is executed for a response cut at the token limit. -/
theorem runLoop_transcript (config : AgentLoopConfig) (start : LoopStart) (now : Int)
 (inputs : List LoopInput) :
 let s := runLoop config start now inputs
 (∀ messages outcome, s.returned = some (messages, outcome) →
  ended (events s.trace) = messages ∧ agentEnds (events s.trace) = [messages]
   ∧ Transcript s.env.aborted messages)
  ∧ (∀ messages, s.place.point.settledMessages = some messages → Transcript s.env.aborted messages)
  ∧ ∀ response call args, .execute response call args ∈ s.trace →
   response.stopReason ≠ .length := by
 intro s
 have hs : s.Sound := runLoop_sound config start now inputs
 refine ⟨fun messages outcome h => ?_, hs.point.settled, hs.executes⟩
 unfold Running.returned at h
 split at h
 next newMessages outcome' hemits hpoint =>
  cases h
  have hmessages := hs.messages
  have hends := hs.ends
  rw [hpoint, hemits] at hmessages hends
  refine ⟨?_, ?_, hs.point.settled _ (by rw [hpoint]; rfl)⟩
  · simpa [Point.isFailed, Point.messages] using hmessages
  · simpa [Point.isFailed, Point.result, agentEnds] using hends
 · simp at h

def strayResult : ToolResultMessage :=
 { toolCallId := "t", toolName := "read", content := [], details := none, isError := false,
   timestamp := 0 }

def plainResponse : AssistantMessage :=
 { content := [], api := "a", provider := "p", model := "m", responseModel := none,
   responseId := none, stopReason := .stop, errorMessage := none, rawStopReason := none,
   timestamp := 0 }

/-- A prompt may be a tool result, and a run returns it where no response stands before it. -/
theorem runLoop_stray_result :
 ¬ ∀ (config : AgentLoopConfig) (start : LoopStart) (now : Int) (inputs : List LoopInput)
  (messages : List Entry) (outcome : RunOutcome),
  (runLoop config start now inputs).returned = some (messages, outcome) →
  ∀ (i : Nat) (result : ToolResultMessage),
   messages[i]?.bind (fun entry => entry.message.toolResult?) = some result →
   ∃ j < i, (messages[j]?.bind fun entry => entry.message.assistant?).isSome := by
 intro h
 obtain ⟨j, hj, -⟩ := h plainConfig
  (.prompt [{ message := .llm (.toolResult strayResult), supply := .caller }]
   { messages := [], tools := [] }) 0
  (List.replicate 10 (.answer .settled) ++ .answer (.streamEnded (some plainResponse))
   :: List.replicate 9 (.answer .settled))
  [{ message := .llm (.toolResult strayResult), source := .supplied .caller },
   responseEntry plainResponse] .finishedTurn rfl 0 strayResult rfl
 exact absurd hj (Nat.not_lt_zero j)

end Bake.Agent
