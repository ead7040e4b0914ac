import Bake.Ai.Closed

/-!
# Calls and their results

Which calls the second pass answers itself is read off the list it is given: the calls of
an assistant message that did not fail and that no tool result answers before the next
user or assistant message.

The ids of the first pass are kept in one map for the whole conversation, and an entry is
never retired: a call that keeps its id loses its result when an earlier assistant
message had the same id rewritten.
-/

open List
open OrdMap (get?)

namespace Bake.Ai

open AssistantContentBlock
open Closing (close push step)

/-- A user or assistant message, which ends the results of the calls before it. -/
def Message.closes : Message → Bool
 | .user _ | .assistant _ => true
 | _ => false

/-- The results that can answer the calls of a message: those before the next user or
assistant message. -/
def answeredIn (after : List Message) : List String :=
 (after.takeWhile fun m => !m.closes).filterMap Message.answers?

/-- The calls without a result, in order. -/
def unansweredIn : List Message → List (String × String)
 | [] => []
 | .assistant a :: after =>
  (if a.failed then []
   else (a.toolCalls.filter fun call => call.id ∉ answeredIn after).map
    fun call => (call.id, call.name)) ++ unansweredIn after
 | _ :: after => unansweredIn after

/-- The calls the second pass answers itself. -/
def synthesized (sent : List Sent) : List (String × String) :=
 (sent.filterMap Sent.synthetic?).map fun r => (r.toolCallId, r.toolName)

@[simp] theorem synthesized_append (a b : List Sent) :
 synthesized (a ++ b) = synthesized a ++ synthesized b := by
 simp [synthesized]

theorem synthesized_given (l : List Message) : synthesized (l.map .given) = [] := by
 have : (l.map Sent.given).filterMap Sent.synthetic? = [] := by
  rw [filterMap_map]
  exact filterMap_eq_nil_iff.mpr fun _ _ => rfl
 rw [synthesized, this, map_nil]

section Answered

variable (rest : List Message)

@[simp] theorem answeredIn_assistant (a : AssistantMessage) :
 answeredIn (.assistant a :: rest) = [] := rfl

@[simp] theorem answeredIn_user (u : UserMessage) : answeredIn (.user u :: rest) = [] := rfl

@[simp] theorem answeredIn_system (system : SystemMessage) :
 answeredIn (.system system :: rest) = answeredIn rest := rfl

@[simp] theorem answeredIn_toolResult (r : ToolResultMessage) :
 answeredIn (.toolResult r :: rest) = r.toolCallId :: answeredIn rest := rfl

end Answered

variable (clock : Nat → Int)

theorem pending_close (s : Closing) : (s.close clock).pending = [] := by
 unfold close
 split
 next hp =>
  simpa using hp
 · rfl

theorem synthesized_close (s : Closing) :
 synthesized (s.close clock).result = synthesized s.result
  ++ (s.pending.filter fun call => call.id ∉ s.existing).map fun call => (call.id, call.name) := by
 have hheld : synthesized (s.heldSystem.map fun system => .given (.system system)) = [] := by
  have hmap : (s.heldSystem.map fun system => Sent.given (.system system))
   = (s.heldSystem.map Message.system).map .given := by
   rw [map_map]
   rfl
  rw [hmap, synthesized_given]
 unfold close
 split
 next hp =>
  have hp : s.pending = [] := by simpa using hp
  rw [synthesized_append, hheld, hp]
  rfl
 · obtain ⟨made, hmade, hids⟩ := pushResults_spec clock s.existing s.result s.pending
   have hmade' : synthesized (made.map .synthetic)
    = made.map fun r => (r.toolCallId, r.toolName) := by
    rw [synthesized, filterMap_map]
    exact congrArg _ (filterMap_some (l := made))
   rw [synthesized_append, hheld, hmade, synthesized_append, hmade', hids, append_nil]

theorem synthesized_foldl (messages : List Message) (s : Closing) :
 synthesized ((messages.foldl (step clock) s).close clock).result = synthesized s.result
   ++ ((s.pending.filter fun call => call.id ∉ s.existing ++ answeredIn messages).map
    fun call => (call.id, call.name)) ++ unansweredIn messages := by
 induction messages generalizing s with
 | nil => simp [synthesized_close, answeredIn, unansweredIn]
 | cons message rest ih =>
  rw [foldl_cons, ih]
  have hgiven : ∀ (t : Closing) (m : Message),
   synthesized (t.push m).result = synthesized t.result := by
   intro t m
   have hm : synthesized [.given m] = [] := synthesized_given [m]
   rw [push, synthesized_append, hm, append_nil]
  cases message with
  | assistant a =>
   have hclose := synthesized_close clock s
   have hpending := pending_close clock s
   unfold step
   dsimp only
   rw [answeredIn_assistant, append_nil, unansweredIn]
   by_cases hf : a.failed
   · simp [hf, hclose, hpending]
   · simp only [if_neg hf, hgiven]
     by_cases hcalls : a.toolCalls = []
     · simp [hcalls, push, hclose, hpending]
     · simp [hcalls, push, hclose]
  | toolResult r =>
   rw [step, hgiven, answeredIn_toolResult, unansweredIn]
   · congr 2
     refine congrArg _ (filter_congr fun call _ => ?_)
     simp [push, Bool.and_left_comm]
   · simp
  | system system =>
   rw [answeredIn_system, unansweredIn]
   · unfold step
     dsimp only
     split
     · rw [hgiven]
       rfl
     · rfl
   · simp
  | user user =>
   rw [step, hgiven, synthesized_close, answeredIn_user, unansweredIn]
   · simp [push, pending_close]
   · simp

/-- **What the second pass makes up**: the results of the calls without one. -/
theorem synthesized_secondPass (messages : List Message) :
 synthesized (secondPass clock messages) = unansweredIn messages := by
 rw [secondPass, synthesized_foldl]
 rfl

/-! ## The ids of the first pass -/

section Ids

variable (model : Model) (normalize : NormalizeToolCallId)

def AssistantMessage.keeps (a : AssistantMessage) (id : String) : Prop :=
 a.sameModel model ∨ normalize id model a = id

/-- The id of a call behind the first pass. -/
def AssistantMessage.newId (a : AssistantMessage) (id : String) : String :=
 if a.sameModel model then id else normalize id model a

def idsAfter (idMap : IdMap) (messages : List Message) : IdMap :=
 messages.foldl (fun idMap message => (transformMessage model (some normalize) idMap message).1) idMap

def RewrittenIn (messages : List Message) (id : String) : Prop :=
 ∃ a, .assistant a ∈ messages ∧ id ∈ a.toolCalls.map ToolCall.id ∧ ¬a.keeps model normalize id

variable {model normalize}

variable (a : AssistantMessage)

theorem newId_eq_iff (id : String) :
 a.newId model normalize id = id ↔ a.keeps model normalize id := by
 unfold AssistantMessage.newId AssistantMessage.keeps
 split
 next h =>
  exact ⟨fun _ => .inl h, fun _ => rfl⟩
 next h =>
  exact ⟨.inr, fun hk => hk.resolve_left h⟩

theorem transformCall_eq (idMap : IdMap) (call : ToolCall) :
 (transformCall model (some normalize) a idMap call).2.id = a.newId model normalize call.id
  ∧ (transformCall model (some normalize) a idMap call).1
   = if a.newId model normalize call.id = call.id then idMap
    else OrdMap.insert idMap call.id (a.newId model normalize call.id) := by
 unfold transformCall AssistantMessage.newId
 by_cases hs : a.sameModel model
 · simp [hs]
 · simp only [if_neg hs]
   by_cases hn : normalize call.id model a = call.id
   · simp [hn]
   · simp [hn]

theorem transformContent_ids (idMap : IdMap)
 (content : List AssistantContentBlock) :
 ((transformContent model (some normalize) a idMap content).2.filterMap call?).map ToolCall.id
  = (content.filterMap call?).map fun call => a.newId model normalize call.id := by
 induction content generalizing idMap with
 | nil => rfl
 | cons block rest ih =>
  cases block with
  | thinking thinking =>
   rw [transformContent]
   dsimp only
   rw [filterMap_append, transformThinking_calls, nil_append, ih]
   rfl
  | text text => exact ih idMap
  | toolCall call =>
   rw [transformContent]
   simp only [filterMap_cons, call?, map_cons, ih, (transformCall_eq a idMap call).1]

/-- What the map holds behind an assistant message: the new ids of its calls, and before
them what it held. -/
theorem get?_transformContent (a : AssistantMessage) (idMap : IdMap)
 (content : List AssistantContentBlock) (id : String) :
 let ids := (content.filterMap call?).map ToolCall.id
 let after := (transformContent model (some normalize) a idMap content).1
 (id ∈ ids → ¬a.keeps model normalize id → get? after id = some (a.newId model normalize id))
  ∧ ((id ∈ ids → a.keeps model normalize id) → get? after id = get? idMap id) := by
 induction content generalizing idMap with
 | nil => exact ⟨by simp, fun _ => rfl⟩
 | cons block rest ih =>
  cases block with
  | thinking thinking | text text => exact ih idMap
  | toolCall call =>
   obtain ⟨hnew, hold⟩ := ih (transformCall model (some normalize) a idMap call).1
   have hmap := (@transformCall_eq model normalize a idMap call).2
   have hiff := @newId_eq_iff model normalize a call.id
   dsimp only
   rw [transformContent]
   simp only [filterMap_cons, call?, map_cons, mem_cons]
   refine ⟨fun hmem hk => ?_, fun h => ?_⟩
   · by_cases hrest : id ∈ (rest.filterMap call?).map ToolCall.id
     · exact hnew hrest hk
     · obtain rfl := hmem.resolve_right hrest
       rw [hold fun h => absurd h hrest, hmap, if_neg (mt hiff.mp hk), OrdMap.get?_insert_self]
   · rw [hold fun hm => h (.inr hm), hmap]
     split
     · rfl
     next hn =>
      refine OrdMap.get?_insert_ne _ _ fun he => hn (hiff.mpr ?_)
      exact he ▸ h (.inl he.symm)

variable (idMap : IdMap)

theorem transformMessage_ids {message : Message} (h : ∀ a, message ≠ .assistant a) :
 (transformMessage model (some normalize) idMap message).1 = idMap := by
 cases message with
 | assistant a => exact absurd rfl (h a)
 | _ => rfl

theorem idsAfter_cons (message : Message) (rest : List Message) :
 idsAfter model normalize idMap (message :: rest)
  = idsAfter model normalize (transformMessage model (some normalize) idMap message).1 rest := rfl

theorem idsAfter_snoc (messages : List Message) (message : Message) :
 idsAfter model normalize idMap (messages ++ [message])
  = (transformMessage model (some normalize) (idsAfter model normalize idMap messages) message).1 := by
 simp [idsAfter]

/-- **The map's entries are never retired**: it holds an id when some assistant message so
far had it rewritten, and then another id. -/
theorem get?_idsAfter (messages : List Message) (id : String) :
 (get? (idsAfter model normalize [] messages) id = none ↔ ¬RewrittenIn model normalize messages id)
  ∧ get? (idsAfter model normalize [] messages) id ≠ some id := by
 induction messages using List.reverseRecOn with
 | nil => exact ⟨⟨fun _ ⟨a, hm, _⟩ => absurd hm (by simp), fun _ => rfl⟩, by simp [idsAfter]⟩
 | append_singleton messages message ih =>
  rw [idsAfter_snoc]
  by_cases hm : ∃ a, message = .assistant a
  · obtain ⟨a, rfl⟩ := hm
    obtain ⟨hnew, hold⟩ := @get?_transformContent model normalize a
     (idsAfter model normalize [] messages) a.content id
    by_cases hk : id ∈ a.toolCalls.map ToolCall.id → a.keeps model normalize id
    · show (get? (transformContent ..).1 id = none ↔ _)
       ∧ get? (transformContent ..).1 id ≠ _
      rw [hold hk]
      refine ⟨ih.1.trans (not_congr ⟨?_, ?_⟩), ih.2⟩
      · rintro ⟨b, hb, h⟩
        exact ⟨b, mem_append_left _ hb, h⟩
      · rintro ⟨b, hb, h⟩
        rcases mem_append.mp hb with hb | hb
        · exact ⟨b, hb, h⟩
        · obtain rfl : b = a := by simpa using hb
          exact absurd (hk h.1) h.2
    · obtain ⟨hmem, hk⟩ := Classical.not_imp.mp hk
      show (get? (transformContent ..).1 id = none ↔ _) ∧ get? (transformContent ..).1 id ≠ _
      rw [hnew hmem hk]
      refine ⟨⟨by simp, fun h => absurd ⟨a, by simp, hmem, hk⟩ h⟩,
       fun h => hk ((newId_eq_iff a id).mp (Option.some.inj h))⟩
  · have hm : ∀ a, message ≠ .assistant a := fun a he => hm ⟨a, he⟩
    rw [transformMessage_ids _ hm]
    refine ⟨ih.1.trans (not_congr ⟨?_, ?_⟩), ih.2⟩
    · rintro ⟨b, hb, h⟩
      exact ⟨b, mem_append_left _ hb, h⟩
    · rintro ⟨b, hb, h⟩
      rcases mem_append.mp hb with hb | hb
      · exact ⟨b, hb, h⟩
      · exact absurd (mem_singleton.mp hb).symm (hm b)

/-- A result follows the call it answers when the call's id was rewritten here, or never
before. -/
theorem renamed_iff (before : List Message) (a : AssistantMessage) {id : String}
 (hid : id ∈ a.toolCalls.map ToolCall.id) :
 (get? (idsAfter model normalize [] (before ++ [.assistant a])) id).getD id
  = a.newId model normalize id
  ↔ (a.keeps model normalize id → ¬RewrittenIn model normalize before id) := by
 obtain ⟨hnew, hold⟩ := @get?_transformContent model normalize a
  (idsAfter model normalize [] before) a.content id
 rw [idsAfter_snoc]
 show (get? (transformContent ..).1 id).getD id = _ ↔ _
 by_cases hk : a.keeps model normalize id
 · rw [hold fun _ => hk, (newId_eq_iff a id).mpr hk]
   obtain ⟨hnone, hne⟩ := @get?_idsAfter model normalize before id
   cases hg : get? (idsAfter model normalize [] before) id with
   | none => exact ⟨fun _ _ => hnone.mp hg, fun _ => rfl⟩
   | some y =>
    rw [hg] at hne hnone
    constructor
    · intro h
      exact absurd (congrArg some h) hne
    · intro h
      exact absurd (hnone.mpr (h hk)) (by simp)
 · rw [hnew hid hk]
   exact ⟨fun _ h => absurd h hk, fun _ => rfl⟩

/-- A message before the first pass. -/
def downgraded (model : Model) (message : Message) : Message :=
 if model.acceptsImages then message else downgradeMessage message

theorem downgrade_eq (messages : List Message) (model : Model) :
 downgradeUnsupportedImages messages model = messages.map (downgraded model) := by
 unfold downgradeUnsupportedImages downgraded
 split
 · exact (map_id'' (fun _ => rfl) messages).symm
 · rfl

@[simp] theorem downgraded_assistant :
 downgraded model (.assistant a) = .assistant a := by
 unfold downgraded
 split <;> rfl

theorem downgraded_cases (message : Message) :
 (∃ a, message = .assistant a ∧ downgraded model message = .assistant a)
  ∨ (∃ s, message = .system s ∧ downgraded model message = .system s)
  ∨ (∃ u u', message = .user u ∧ downgraded model message = .user u')
  ∨ ∃ r r', message = .toolResult r ∧ downgraded model message = .toolResult r'
   ∧ r'.toolCallId = r.toolCallId := by
 cases message with
 | assistant a => exact .inl ⟨a, rfl, downgraded_assistant a⟩
 | system s =>
  refine .inr (.inl ⟨s, rfl, ?_⟩)
  unfold downgraded
  split <;> rfl
 | user u =>
  refine .inr (.inr (.inl ?_))
  unfold downgraded downgradeMessage
  split
  · exact ⟨u, u, rfl, rfl⟩
  · dsimp only
    split <;> exact ⟨u, _, rfl, rfl⟩
 | toolResult r =>
  refine .inr (.inr (.inr ?_))
  unfold downgraded
  split <;> exact ⟨r, _, rfl, rfl, rfl⟩

theorem idsAfter_downgraded (messages : List Message) :
 idsAfter model normalize idMap (messages.map (downgraded model))
  = idsAfter model normalize idMap messages := by
 induction messages generalizing idMap with
 | nil => rfl
 | cons message rest ih =>
  rw [map_cons, idsAfter_cons, idsAfter_cons, ih]
  congr 1
  obtain ⟨a, rfl, h⟩ | ⟨s, rfl, h⟩ | ⟨u, u', rfl, h⟩ | ⟨r, r', rfl, h, -⟩ :=
   @downgraded_cases model message <;> rw [h] <;> rfl

theorem firstPass_append (a b : List Message) :
 firstPass model (some normalize) idMap (a ++ b) = firstPass model (some normalize) idMap a
   ++ firstPass model (some normalize) (idsAfter model normalize idMap a) b := by
 induction a generalizing idMap with
 | nil => rfl
 | cons message rest ih => rw [cons_append, firstPass_cons, firstPass_cons, ih]; rfl

theorem firstPass_length (messages : List Message) :
 (firstPass model (some normalize) idMap messages).length = messages.length := by
 induction messages generalizing idMap with
 | nil => rfl
 | cons message rest ih => rw [firstPass_cons, length_cons, ih, length_cons]

theorem answeredIn_firstPass (messages : List Message) :
 answeredIn (firstPass model (some normalize) idMap (messages.map (downgraded model)))
  = (answeredIn messages).map fun id => (get? idMap id).getD id := by
 induction messages with
 | nil => rfl
 | cons message rest ih =>
  rw [map_cons, firstPass_cons]
  obtain ⟨a, rfl, h⟩ | ⟨s, rfl, h⟩ | ⟨u, u', rfl, h⟩ | ⟨r, r', rfl, h, hid⟩ :=
   @downgraded_cases model message <;> rw [h]
  · rfl
  · exact ih
  · rfl
  · show (get? idMap r'.toolCallId).getD r'.toolCallId :: answeredIn _ = _
    rw [hid, answeredIn_toolResult, map_cons]
    exact congrArg _ ih

end Ids

/-- Each call of an assistant message has its result before the next user or assistant
message. -/
def Answered (messages : List Message) : Prop :=
 ∀ before a after, messages = before ++ .assistant a :: after →
  ∀ call ∈ a.toolCalls, call.id ∈ answeredIn after

/-- A result that answered a call of an assistant message that did not fail answers the
same call of the rewritten message. -/
def PairsKept (messages rewritten : List Message) : Prop := ∀ before a between r after,
  messages = before ++ .assistant a :: (between ++ .toolResult r :: after) →
  a.failed = false → (∀ m ∈ between, m.closes = false) →
  ∃ a' r', rewritten[before.length]? = some (.assistant a')
   ∧ rewritten[before.length + 1 + between.length]? = some (.toolResult r')
   ∧ a'.toolCalls.length = a.toolCalls.length
   ∧ ∀ (k : Nat) (call call' : ToolCall), a.toolCalls[k]? = some call →
    a'.toolCalls[k]? = some call' → r.toolCallId = call.id → r'.toolCallId = call'.id

section Pairs

variable {model : Model} {normalize : NormalizeToolCallId}

theorem idsAfter_between (idMap : IdMap) {between : List Message}
 (h : ∀ m ∈ between, m.closes = false) : idsAfter model normalize idMap between = idMap := by
 induction between generalizing idMap with
 | nil => rfl
 | cons m between ih =>
  rw [idsAfter_cons, ih _ fun m' hm' => h m' (mem_cons_of_mem _ hm')]
  have hm := h m (mem_cons_self ..)
  cases m <;> first | rfl | simp [Message.closes] at hm

theorem exists_result {after : List Message} {id : String} (h : id ∈ answeredIn after) :
 ∃ between r rest, after = between ++ .toolResult r :: rest ∧ r.toolCallId = id
  ∧ ∀ m ∈ between, m.closes = false := by
 induction after with
 | nil => simp [answeredIn] at h
 | cons m after ih =>
  cases m with
  | user | assistant => simp at h
  | system s =>
   obtain ⟨between, r, rest, rfl, hr, hb⟩ := ih (by simpa using h)
   refine ⟨.system s :: between, r, rest, rfl, hr, fun m hm => ?_⟩
   rcases mem_cons.mp hm with rfl | hm
   · rfl
   · exact hb m hm
  | toolResult r =>
   rw [answeredIn_toolResult] at h
   rcases mem_cons.mp h with rfl | h
   · exact ⟨[], r, after, rfl, rfl, by simp⟩
   · obtain ⟨between, r', rest, rfl, hr, hb⟩ := ih h
     refine ⟨.toolResult r :: between, r', rest, rfl, hr, fun m hm => ?_⟩
     rcases mem_cons.mp hm with rfl | hm
     · rfl
     · exact hb m hm

theorem firstPass_at (before between after : List Message) (a : AssistantMessage)
 (r : ToolResultMessage) (hb : ∀ m ∈ between, m.closes = false) :
 let rewritten := firstPass model (some normalize) [] ((before ++ .assistant a ::
  (between ++ .toolResult r :: after)).map (downgraded model))
 ∃ a' r', rewritten[before.length]? = some (.assistant a')
  ∧ rewritten[before.length + 1 + between.length]? = some (.toolResult r')
  ∧ a'.toolCalls.map ToolCall.id = a.toolCalls.map (fun call => a.newId model normalize call.id)
  ∧ r'.toolCallId = (get? (idsAfter model normalize [] (before ++ [.assistant a]))
   r.toolCallId).getD r.toolCallId := by
 obtain ⟨_, h, -⟩ | ⟨_, h, -⟩ | ⟨_, _, h, -⟩ | ⟨_, r', h, hr, hid⟩ :=
  @downgraded_cases model (.toolResult r)
 · simp at h
 · simp at h
 · simp at h
 obtain rfl := (Message.toolResult.inj h)
 dsimp only
 rw [map_append, map_cons, map_append, map_cons, downgraded_assistant, hr,
  firstPass_append, firstPass_cons, firstPass_append, firstPass_cons, idsAfter_downgraded,
  idsAfter_downgraded, idsAfter_between _ hb]
 have hlen := @firstPass_length model normalize [] (before.map (downgraded model))
 rw [length_map] at hlen
 refine ⟨{ a with content := (transformContent model (some normalize) a
  (idsAfter model normalize [] before) a.content).2 },
  renameResult (idsAfter model normalize [] (before ++ [.assistant a])) r', ?_, ?_,
  transformContent_ids a _ a.content, ?_⟩
 · rw [getElem?_append_right (by omega), hlen, Nat.sub_self]
   rfl
 · rw [getElem?_append_right (by omega), hlen,
    show before.length + 1 + between.length - before.length = between.length + 1 by omega,
    getElem?_cons_succ,
    getElem?_append_right (by rw [firstPass_length, length_map]),
    firstPass_length, length_map, Nat.sub_self, idsAfter_snoc]
   rfl
 · rw [renameResult, hid]

theorem unansweredIn_firstPass (messages : List Message) (h : Answered messages)
 (hkept : ∀ before a after, messages = before ++ .assistant a :: after → a.failed = false →
  ∀ call ∈ a.toolCalls, a.keeps model normalize call.id →
   ¬RewrittenIn model normalize before call.id) :
 unansweredIn (firstPass model (some normalize) [] (messages.map (downgraded model))) = [] := by
 suffices hall : ∀ before after, messages = before ++ after →
  unansweredIn (firstPass model (some normalize) (idsAfter model normalize [] before)
   (after.map (downgraded model))) = [] from hall [] messages rfl
 intro before after
 induction after generalizing before with
 | nil => intro _; rfl
 | cons m after ih =>
  intro he
  have hrest := ih (before ++ [m]) (by rw [he]; simp)
  rw [idsAfter_snoc] at hrest
  rw [map_cons, firstPass_cons]
  obtain ⟨a, rfl, hm⟩ | ⟨s, rfl, hm⟩ | ⟨u, u', rfl, hm⟩ | ⟨r, r', rfl, hm, -⟩ :=
   @downgraded_cases model m <;> rw [hm]
  · show (if a.failed then _ else _) ++ unansweredIn _ = []
    rw [hrest, append_nil]
    split
    · rfl
    next hf =>
     refine map_eq_nil_iff.mpr (filter_eq_nil_iff.mpr fun call' hc => ?_)
     rw [answeredIn_firstPass]
     have hids := @transformContent_ids model normalize a
      (idsAfter model normalize [] before) a.content
     obtain ⟨call, hcall, hid⟩ : ∃ call ∈ a.toolCalls, a.newId model normalize call.id = call'.id := by
      have := mem_map_of_mem (f := ToolCall.id) hc
      rw [AssistantMessage.toolCalls] at this
      exact mem_map.mp (hids ▸ this)
     have hin := h before a after he call hcall
     have hname := (renamed_iff before a (mem_map_of_mem hcall)).mpr
      (hkept before a after he (by simpa using hf) call hcall)
     rw [idsAfter_snoc] at hname
     simp only [decide_not, Bool.not_eq_true', decide_eq_false_iff_not, not_not]
     exact mem_map.mpr ⟨call.id, hin, by rw [← hid, ← hname]⟩
  · exact hrest
  · exact hrest
  · exact hrest

/-- **When calls keep their results.** For messages in which each call has its result, and
for every normaliser, the request makes up no result and every call of an assistant
message that did not fail is answered by the result that answered it, if and only if no
such message keeps the id of a call that an earlier assistant message had rewritten. -/
theorem pairs_kept_iff (clock : Nat → Int) (messages : List Message) (h : Answered messages) :
 (synthesized (transform clock messages model (some normalize)) = []
  ∧ PairsKept messages (firstPass model (some normalize) []
   (downgradeUnsupportedImages messages model)))
  ↔ ∀ before a after, messages = before ++ .assistant a :: after → a.failed = false →
   ∀ call ∈ a.toolCalls, a.keeps model normalize call.id →
    ¬RewrittenIn model normalize before call.id := by
 rw [transform, synthesized_secondPass, downgrade_eq]
 constructor
 · rintro ⟨-, hpairs⟩ before a after he hf call hcall
   obtain ⟨between, r, rest, rfl, hr, hb⟩ := exists_result (h before a after he call hcall)
   obtain ⟨a', r', ha, hr', -, hids⟩ := hpairs before a between r rest he hf hb
   obtain ⟨a'', r'', ha', hr'', hcalls, hname⟩ :=
    @firstPass_at model normalize before between rest a r hb
   rw [← he] at ha' hr''
   obtain rfl : a' = a'' := by simpa using ha.symm.trans ha'
   obtain rfl : r' = r'' := by simpa using hr'.symm.trans hr''
   obtain ⟨k, hk⟩ := mem_iff_getElem?.mp hcall
   obtain ⟨call', hk', hid'⟩ : ∃ call', a'.toolCalls[k]? = some call'
    ∧ call'.id = a.newId model normalize call.id := by
    have := congrArg (fun l => l[k]?) hcalls
    simpa [hk] using this
   refine (renamed_iff before a (mem_map_of_mem hcall)).mp ?_
   rw [← hid', ← hids k call call' hk hk' hr, hname, hr]
 intro hkept
 refine ⟨unansweredIn_firstPass messages h hkept, ?_⟩
 rintro before a between r rest he hf hb
 obtain ⟨a', r', ha', hr', hcalls, hname⟩ :=
  @firstPass_at model normalize before between rest a r hb
 rw [← he] at ha' hr'
 have hlen := congrArg List.length hcalls
 rw [length_map, length_map] at hlen
 refine ⟨a', r', ha', hr', hlen, fun k call call' hk hk' hr => ?_⟩
 have hid' : call'.id = a.newId model normalize call.id := by
  have := congrArg (fun l => l[k]?) hcalls
  simpa [hk, hk'] using this
 have hcall := mem_of_getElem? hk
 rw [hid', hname, hr]
 exact (renamed_iff before a (mem_map_of_mem hcall)).mpr (hkept before a _ he hf call hcall)

end Pairs

def exchange (provider id : String) : List Message :=
 let call : ToolCall :=
  { id, name := "read", arguments := [], thoughtSignature := none, namespace_ := none }
 [.assistant
  { content := [.toolCall call]
    api := "api"
    provider
    model := "model"
    responseModel := none
    responseId := none
    stopReason := .toolUse
    errorMessage := none
    rawStopReason := none
    timestamp := 0 },
  .toolResult
  { toolCallId := id
    toolName := "read"
    content := []
    details := none
    isError := false
    timestamp := 0 }]

theorem answered_exchange (provider id : String) {rest : List Message} (h : Answered rest) :
 Answered (exchange provider id ++ rest) := by
 intro before a after he call hcall
 cases before with
 | nil =>
  injection he with ha hafter
  injection ha with ha
  subst ha hafter
  obtain rfl := mem_singleton.mp hcall
  exact mem_cons_self ..
 | cons m before =>
  injection he with _ he
  cases before with
  | nil => simp at he
  | cons m' before =>
   injection he with _ he
   exact h before a after he call hcall

def targetModel : Model :=
 { id := "model"
   api := "api"
   provider := "own"
   input := [.text, .image]
   reasoning := false
   supportsDeveloperRole := none }

def swapIds (id : String) (_ : Model) (_ : AssistantMessage) : String :=
 if id = "x" then "y" else if id = "y" then "x" else id

theorem swapIds_injective (model : Model) (a : AssistantMessage) {id id' : String}
 (h : swapIds id model a = swapIds id' model a) : id = id' := by
 unfold swapIds at h
 grind

/-- A call of the target model keeps its result when its id was never rewritten. -/
theorem pairs_kept_own :
 synthesized (transform (fun _ => 0) (exchange "own" "x") targetModel (some swapIds)) = []
  ∧ PairsKept (exchange "own" "x") (firstPass targetModel (some swapIds) []
   (downgradeUnsupportedImages (exchange "own" "x") targetModel)) := by
 have hnil : Answered [] := fun before a after h => absurd h (by simp)
 have hanswered : Answered (exchange "own" "x") := by
  simpa using answered_exchange "own" "x" hnil
 refine (pairs_kept_iff (fun _ => 0) (exchange "own" "x") hanswered).mpr ?_
 intro before a after he hf call hcall hk
 rintro ⟨b, hb, -⟩
 cases before with
 | nil => simp at hb
 | cons m before =>
  injection he with _ he
  cases before with
  | nil => simp at he
  | cons m' before =>
   injection he with _ he
   simp at he

/-- The same id in a turn of another model, where it is rewritten, and then in one of the
target model: the second call loses its result. -/
theorem not_pairs_kept_stale :
 (∀ model a id id', swapIds id model a = swapIds id' model a → id = id')
  ∧ Answered (exchange "other" "x" ++ exchange "own" "x")
  ∧ synthesized (transform (fun _ => 0) (exchange "other" "x" ++ exchange "own" "x") targetModel
   (some swapIds)) = [("x", "read")] := by
 refine ⟨fun model a id id' => swapIds_injective model a, ?_, by decide⟩
 have hnil : Answered [] := fun before a after h => absurd h (by simp)
 have hown : Answered (exchange "own" "x") := by
  simpa using answered_exchange "own" "x" hnil
 exact answered_exchange "other" "x" hown

end Bake.Ai
