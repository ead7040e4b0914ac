import Bake.Session.Messages
import Bake.Ai.Pairing

/-!
# Unanswered tool calls

The calls of a leaf's context that the next request closes itself, read off the entries
one by one. The scan and the request builder close the same calls, because both come to
the calls of an assistant message that no tool result answers before the next user or
assistant message.
-/

open List

namespace Bake.Session

open Bake.Json Bake.Ai

structure UnansweredToolCall where
 /-- The entry that holds the assistant message. -/
 entryId : String
 toolCallId : String
 toolName : String

/-- The second pass of `transform_messages`, recording what it would answer. -/
structure Scan where
 pending : List UnansweredToolCall
 answered : List String
 unanswered : List UnansweredToolCall

namespace Scan

def start : Scan := { pending := [], answered := [], unanswered := [] }

variable (s : Scan)

def close : Scan :=
 if s.pending.isEmpty then s
 else
  { pending := []
    answered := []
    unanswered := s.unanswered ++ s.pending.filter fun call => call.toolCallId ∉ s.answered }

def message (entryId : String) : Message → Scan
 | .assistant assistant =>
  let s := s.close
  if assistant.failed then s
  else
   let calls := assistant.toolCalls.map fun call =>
    { entryId, toolCallId := call.id, toolName := call.name : UnansweredToolCall }
   if calls.isEmpty then s else { s with pending := calls, answered := [] }
 | .toolResult result => { s with answered := result.toolCallId :: s.answered }
 | .system _ => s
 | .user _ => s.close

def entry (read : Readers) (entry : ProjectedSessionEntry) : Scan :=
 (convertToLlm (entry.messages.map (liveFromJson read))).foldl
  (fun s message => s.message entry.sourceEntry.id message) s

end Scan

def unansweredToolCalls (read : Readers) (projection : SessionProjection) :
 List UnansweredToolCall :=
 (projection.entries.foldl (fun s entry => s.entry read entry) Scan.start).close.unanswered

def buildUnansweredToolCalls (read : Readers) (entries : List SessionEntry) (leaf : LeafSelector) :
 List UnansweredToolCall :=
 unansweredToolCalls read (buildSessionProjection entries leaf)

/-! ## The scan and the request agree -/

def UnansweredToolCall.pair (call : UnansweredToolCall) : String × String :=
 (call.toolCallId, call.toolName)

theorem Scan.close_spec (s : Scan) : s.close.pending = []
 ∧ s.close.unanswered.map UnansweredToolCall.pair = s.unanswered.map UnansweredToolCall.pair
  ++ (s.pending.filter fun call => call.toolCallId ∉ s.answered).map UnansweredToolCall.pair := by
 unfold Scan.close
 split
 next hp =>
  have hp : s.pending = [] := by simpa using hp
  exact ⟨hp, by simp [hp]⟩
 · exact ⟨rfl, map_append⟩

/-- What the scan finds from a state on, for messages of any entries. -/
theorem Scan.foldl_spec (messages : List (String × Message)) (s : Scan) :
 (messages.foldl (fun s m => s.message m.1 m.2) s).close.unanswered.map UnansweredToolCall.pair
  = s.unanswered.map UnansweredToolCall.pair ++ (s.pending.filter fun call =>
    call.toolCallId ∉ s.answered ++ answeredIn (messages.map Prod.snd)).map
    UnansweredToolCall.pair
   ++ unansweredIn (messages.map Prod.snd) := by
 induction messages generalizing s with
 | nil => simp [s.close_spec.2, answeredIn, unansweredIn]
 | cons m rest ih =>
  obtain ⟨entryId, m⟩ := m
  rw [foldl_cons, ih, map_cons]
  obtain ⟨hpending, hclose⟩ := s.close_spec
  cases m with
  | assistant a =>
   rw [answeredIn_assistant, append_nil, unansweredIn]
   unfold Scan.message
   dsimp only
   by_cases hf : a.failed
   · simp [hf, hclose, hpending]
   simp only [if_neg hf]
   by_cases hcalls : a.toolCalls = []
   · simp [hcalls, hclose, hpending]
   · have hmap : ∀ calls : List ToolCall, ∀ ids : List String,
      ((calls.map fun call => ({ entryId, toolCallId := call.id, toolName := call.name }
       : UnansweredToolCall)).filter fun call => call.toolCallId ∉ ids).map
       UnansweredToolCall.pair
      = (calls.filter fun call => call.id ∉ ids).map fun call => (call.id, call.name) := by
      intro calls ids
      rw [filter_map, map_map]
      rfl
     simpa [hcalls, hclose] using hmap a.toolCalls (answeredIn (rest.map Prod.snd))
  | toolResult r =>
   rw [answeredIn_toolResult, unansweredIn]
   · congr 2
     refine congrArg _ (filter_congr fun call _ => ?_)
     simp [Scan.message, Bool.and_left_comm]
   · simp
  | system system =>
   rw [answeredIn_system, unansweredIn]
   · rfl
   · simp
  | user user =>
   rw [answeredIn_user, unansweredIn]
   · simp [Scan.message, hclose, hpending]
   · simp

/-- The calls of all entries are found by one scan over their messages. -/
theorem unansweredToolCalls_eq (read : Readers) (projection : SessionProjection) :
 (unansweredToolCalls read projection).map UnansweredToolCall.pair = unansweredIn (convertToLlm
   ((projection.entries.flatMap ProjectedSessionEntry.messages).map (liveFromJson read))) := by
 let tagged : ProjectedSessionEntry → List (String × Message) := fun entry =>
  (convertToLlm (entry.messages.map (liveFromJson read))).map (entry.sourceEntry.id, ·)
 have hscan : projection.entries.foldl (fun s entry => s.entry read entry) Scan.start
  = (projection.entries.flatMap tagged).foldl (fun s m => s.message m.1 m.2) Scan.start := by
  rw [foldl_flatMap]
  refine foldl_ext _ _ _ fun s entry _ => ?_
  rw [foldl_map]
  rfl
 have hmessages : (projection.entries.flatMap tagged).map Prod.snd
  = convertToLlm ((projection.entries.flatMap ProjectedSessionEntry.messages).map
   (liveFromJson read)) := by
  rw [convertToLlm, map_flatMap, map_flatMap, filterMap_flatMap]
  refine congrArg (fun f => projection.entries.flatMap f) (funext fun entry => ?_)
  rw [map_map]
  exact map_id _
 rw [unansweredToolCalls, hscan, Scan.foldl_spec, hmessages]
 rfl

/-! ## Requests without a normaliser -/

/-- The same kind of message with the same calls, or answering the same call. -/
inductive Alike : Message → Message → Prop where
 | system (system : SystemMessage) : Alike (.system system) (.system system)
 | user (user user' : UserMessage) : Alike (.user user) (.user user')
 | toolResult (result result' : ToolResultMessage) (h : result'.toolCallId = result.toolCallId) :
  Alike (.toolResult result) (.toolResult result')
 | assistant (assistant assistant' : AssistantMessage) (hf : assistant'.failed = assistant.failed)
  (hc : assistant'.toolCalls.map (fun call => (call.id, call.name))
   = assistant.toolCalls.map fun call => (call.id, call.name)) :
  Alike (.assistant assistant) (.assistant assistant')

theorem answeredIn_alike {l l' : List Message} (h : List.Forall₂ Alike l l') :
 answeredIn l' = answeredIn l := by
 induction h with
 | nil => rfl
 | cons hm _ ih =>
  cases hm with
  | system system => simpa using ih
  | user user user' | assistant assistant assistant' hf hc => rfl
  | toolResult result result' hid => simp [hid, ih]

theorem unansweredIn_alike {l l' : List Message} (h : List.Forall₂ Alike l l') :
 unansweredIn l' = unansweredIn l := by
 -- a call is unanswered by its id alone
 have hpairs : ∀ (calls : List ToolCall) (ids : List String),
  (calls.filter fun call => call.id ∉ ids).map (fun call => (call.id, call.name))
   = (calls.map fun call => (call.id, call.name)).filter fun pair => pair.1 ∉ ids := by
  intro calls ids
  rw [filter_map]
  rfl
 induction h with
 | nil => rfl
 | cons hm hrest ih =>
  cases hm with
  | assistant assistant assistant' hf hc =>
   rw [unansweredIn, unansweredIn, hf, hpairs, hpairs, hc, ih, answeredIn_alike hrest]
  | _ => simpa [unansweredIn] using ih

theorem transformContent_alike (model : Model) (assistant : AssistantMessage) (idMap : IdMap)
 (content : List AssistantContentBlock) :
 (transformContent model none assistant idMap content).1 = idMap
  ∧ ((transformContent model none assistant idMap content).2.filterMap
   AssistantContentBlock.call?).map (fun call => (call.id, call.name))
   = (content.filterMap AssistantContentBlock.call?).map fun call => (call.id, call.name) := by
 induction content with
 | nil => exact ⟨rfl, rfl⟩
 | cons block rest ih =>
  cases block with
  | text text => exact ih
  | thinking thinking =>
   refine ⟨ih.1, ?_⟩
   rw [transformContent]
   dsimp only
   rw [filterMap_append, transformThinking_calls, nil_append]
   exact ih.2
  | toolCall call =>
   have hcall : (transformCall model none assistant idMap call).1 = idMap
    ∧ (transformCall model none assistant idMap call).2.id = call.id
    ∧ (transformCall model none assistant idMap call).2.name = call.name := by
    unfold transformCall
    split <;> exact ⟨rfl, rfl, rfl⟩
   rw [transformContent]
   dsimp only
   rw [hcall.1]
   refine ⟨ih.1, ?_⟩
   simp only [filterMap_cons, AssistantContentBlock.call?, map_cons, ih.2, hcall.2.1, hcall.2.2]

theorem firstPass_alike (model : Model) (messages : List Message) :
 List.Forall₂ Alike messages (firstPass model none [] (messages.map (downgraded model))) := by
 induction messages with
 | nil => exact .nil
 | cons message rest ih =>
  rw [map_cons, firstPass_cons]
  obtain ⟨a, rfl, h⟩ | ⟨s, rfl, h⟩ | ⟨u, u', rfl, h⟩ | ⟨r, r', rfl, h, hid⟩ :=
   @downgraded_cases model message <;> rw [h]
  · obtain ⟨hmap, hcalls⟩ := transformContent_alike model a [] a.content
    rw [transformMessage]
    dsimp only
    rw [hmap]
    exact .cons (.assistant a _ rfl hcalls) ih
  · exact .cons (.system s) ih
  · exact .cons (.user u u') ih
  · exact .cons (.toolResult r _ hid) ih

/-- **The scan agrees with the request builder.** For every session's entries, leaf and
target model, the unanswered calls of the leaf are the ones a request made of its context
closes itself, in order and with repetitions. -/
theorem buildUnansweredToolCalls_eq (read : Readers) (clock : Nat → Int) (model : Model)
 (entries : List SessionEntry) (leaf : LeafSelector) :
 (buildUnansweredToolCalls read entries leaf).map UnansweredToolCall.pair
  = synthesized (transform clock (convertToLlm
   ((buildSessionContext entries leaf).messages.map (liveFromJson read))) model none) := by
 rw [buildUnansweredToolCalls, unansweredToolCalls_eq, transform, synthesized_secondPass,
  downgrade_eq, unansweredIn_alike (firstPass_alike model _)]
 rfl

end Bake.Session
