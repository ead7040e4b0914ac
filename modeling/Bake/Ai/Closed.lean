import Bake.Ai.Transform

/-!
# Every request closes its tool calls

Behind an assistant message of the result stands a run of tool results that answers all
of its calls. `ClosedUp` says it of what has been sent; it is kept by anything sent
later, because the run stays where it is. While calls are pending, what has been sent
ends with their assistant message and tool results, and the results' ids are remembered.
-/

open List

namespace Bake.Ai

open Message (isFailed isSystem)
open AssistantContentBlock

/-- Each assistant message is followed by a run of tool results that answers its calls. -/
def ClosedUp (sent : List Sent) : Prop :=
 ∀ before assistant after, sent = before ++ .given (.assistant assistant) :: after →
  ∃ results, results <+: after ∧ (∀ m ∈ results, m.message.isToolResult)
   ∧ ∀ call ∈ assistant.toolCalls, ∃ m ∈ results, m.message.answers? = some call.id

theorem closedUp_nil : ClosedUp [] := fun before assistant after h => absurd h (by simp)

variable {sent : List Sent}

theorem ClosedUp.snoc (h : ClosedUp sent) {m : Sent}
 (hm : ∀ assistant, m = .given (.assistant assistant) → assistant.toolCalls = []) :
 ClosedUp (sent ++ [m]) := by
 intro before assistant after he
 rcases eq_nil_or_concat after with rfl | ⟨middle, last, rfl⟩
 · obtain ⟨-, hlast⟩ := append_inj' he rfl
   have hcalls := hm assistant (by simpa using hlast)
   exact ⟨[], nil_prefix, by simp, by simp [hcalls]⟩
 · have he' : sent ++ [m] = (before ++ .given (.assistant assistant) :: middle) ++ [last] := by
    simpa using he
   obtain ⟨results, hpre, hrun, hcalls⟩ := h before assistant middle (append_inj' he' rfl).1
   exact ⟨results, hpre.trans (by simp), hrun, hcalls⟩

theorem ClosedUp.append (h : ClosedUp sent) {more : List Sent}
 (hmore : ∀ m ∈ more, ∀ assistant, m ≠ .given (.assistant assistant)) :
 ClosedUp (sent ++ more) := by
 induction more using List.reverseRecOn with
 | nil => simpa using h
 | append_singleton more m ih =>
  rw [← append_assoc]
  refine (ih fun m' hm' => hmore m' (by simp [hm'])).snoc fun assistant he => ?_
  exact absurd he (hmore m (by simp) assistant)

theorem ClosedUp.run {results : List Sent} {assistant : AssistantMessage} (h : ClosedUp sent)
 (hrun : ∀ m ∈ results, m.message.isToolResult)
 (hcalls : ∀ call ∈ assistant.toolCalls, ∃ m ∈ results, m.message.answers? = some call.id) :
 ClosedUp (sent ++ .given (.assistant assistant) :: results) := by
 intro before assistant' after he
 rcases append_eq_append_iff.mp he with ⟨middle, rfl, hmid⟩ | ⟨middle, rfl, hmid⟩
 · cases middle with
   | nil => 
    obtain ⟨hhead, rfl⟩ : assistant = assistant' ∧ results = after := by simpa using hmid
    exact ⟨results, prefix_refl _, hrun, hhead ▸ hcalls⟩
   | cons m middle =>
    obtain ⟨-, rfl⟩ : _ ∧ results = middle ++ .given (.assistant assistant') :: after := by
     simpa using hmid
    exact absurd (hrun (.given (.assistant assistant')) (by simp)) (by
     simp [Sent.message, Message.isToolResult])
 · cases middle with
   | nil => 
    obtain ⟨hhead, rfl⟩ : assistant' = assistant ∧ after = results := by simpa using hmid
    exact ⟨after, prefix_refl _, hrun, hhead ▸ hcalls⟩
   | cons m middle =>
    obtain ⟨rfl, rfl⟩ : .given (.assistant assistant') = m
     ∧ after = middle ++ .given (.assistant assistant) :: results := by simpa using hmid
    obtain ⟨run, hpre, hrun', hcalls'⟩ := h before assistant' middle rfl
    exact ⟨run, hpre.trans (prefix_append ..), hrun', hcalls'⟩

variable (clock : Nat → Int)

theorem pushResults_spec (existing : List String) (result : List Sent)
 (calls : List ToolCall) :
 ∃ made : List ToolResultMessage,
  pushResults clock existing result calls = result ++ made.map .synthetic
   ∧ made.map (fun r => (r.toolCallId, r.toolName))
    = (calls.filter fun call => call.id ∉ existing).map fun call => (call.id, call.name) := by
 induction calls generalizing result with
 | nil => exact ⟨[], by simp [pushResults], rfl⟩
 | cons call calls ih =>
  rw [pushResults]
  by_cases hin : call.id ∈ existing
  · rw [if_pos hin]
    obtain ⟨made, hmade, hids⟩ := ih result
    exact ⟨made, hmade, by simpa [hin] using hids⟩
  · rw [if_neg hin]
    obtain ⟨made, hmade, hids⟩ := ih (result ++ [.synthetic (noResult call (clock result.length))])
    refine ⟨noResult call (clock result.length) :: made, ?_, ?_⟩
    · rw [hmade, append_assoc]
      rfl
    · rw [map_cons, hids, filter_cons_of_pos (by simpa using hin)]
      rfl

/-- What has been sent: everything is closed, or it ends with the assistant message whose
calls are pending and the results since. -/
inductive Closing.Good (s : Closing) : Prop where
 | idle : s.pending = [] → s.heldSystem = [] → ClosedUp s.result → s.Good
 | pending {before results : List Sent} {assistant : AssistantMessage} :
  s.result = before ++ .given (.assistant assistant) :: results → ClosedUp before →
  (∀ m ∈ results, m.message.isToolResult) → s.pending = assistant.toolCalls →
  s.pending ≠ [] → (∀ id ∈ s.existing, ∃ m ∈ results, m.message.answers? = some id) → s.Good

variable {s : Closing}

theorem Closing.Good.close (h : s.Good) (clock : Nat → Int) :
 (s.close clock).pending = [] ∧ (s.close clock).heldSystem = []
  ∧ ClosedUp (s.close clock).result := by
 have hheld : ∀ m ∈ s.heldSystem.map fun system => Sent.given (.system system),
  ∀ assistant, m ≠ .given (.assistant assistant) := by
  intro m hm assistant he
  obtain ⟨system, -, rfl⟩ := mem_map.mp hm
  simp at he
 unfold Closing.close
 cases h with
 | idle hp hh hc => simpa [hp, hh] using hc
 | @pending before results assistant hr hbefore hrun hp hne hexisting =>
  rw [if_neg (by simpa using hne)]
  refine ⟨rfl, rfl, ClosedUp.append ?_ hheld⟩
  obtain ⟨made, hmade, hids⟩ := pushResults_spec clock s.existing s.result s.pending
  show ClosedUp (pushResults clock s.existing s.result s.pending)
  rw [hmade, hr, append_assoc, cons_append]
  refine hbefore.run (fun m hm => ?_) fun call hcall => ?_
  · rcases mem_append.mp hm with hm | hm
    · exact hrun m hm
    · obtain ⟨r, -, rfl⟩ := mem_map.mp hm
      rfl
  · by_cases hin : call.id ∈ s.existing
    · obtain ⟨m, hm, ha⟩ := hexisting call.id hin
      exact ⟨m, mem_append_left _ hm, ha⟩
    · have hmem : (call.id, call.name) ∈ made.map fun r => (r.toolCallId, r.toolName) := by
       rw [hids]
       exact mem_map.mpr ⟨call, mem_filter.mpr ⟨hp ▸ hcall, by simpa using hin⟩, rfl⟩
      obtain ⟨r, hrmem, hre⟩ := mem_map.mp hmem
      refine ⟨.synthetic r, mem_append_right _ (mem_map_of_mem hrmem), ?_⟩
      exact congrArg some (Prod.ext_iff.mp hre).1

theorem Closing.Good.step (h : s.Good) (clock : Nat → Int) (message : Message) :
 (s.step clock message).Good := by
 cases message with
 | assistant assistant =>
  obtain ⟨hp, hh, hc⟩ := h.close clock
  unfold Closing.step
  dsimp only
  split
  · exact .idle hp hh hc
  · split
    next hcalls =>
     refine .idle hp hh (hc.snoc fun assistant' he => ?_)
     obtain rfl : assistant = assistant' := by simpa using he
     simpa using hcalls
    next hcalls =>
     have hne : assistant.toolCalls ≠ [] := by simpa using hcalls
     exact @Closing.Good.pending _ (s.close clock).result [] assistant rfl hc (by simp) rfl hne
      (by simp [Closing.push])
 | toolResult result =>
  cases h with
  | idle hp hh hc => exact .idle hp hh (hc.snoc (by simp))
  | @pending before results assistant hr hbefore hrun hp hne hexisting =>
   refine @Closing.Good.pending _ before (results ++ [.given (.toolResult result)]) assistant
    (by simp [Closing.step, Closing.push, hr]) hbefore (fun m hm => ?_) hp hne
    fun id hid => ?_
   · rcases mem_append.mp hm with hm | hm
     · exact hrun m hm
     · rw [mem_singleton.mp hm]
       rfl
   · rcases mem_cons.mp hid with rfl | hid
     · exact ⟨_, mem_append_right _ (mem_singleton_self _), rfl⟩
     · obtain ⟨m, hm, ha⟩ := hexisting id hid
       exact ⟨m, mem_append_left _ hm, ha⟩
 | system system =>
  unfold Closing.step
  dsimp only
  cases h with
  | idle hp hh hc =>
   rw [if_pos (by simp [hp])]
   exact .idle hp hh (hc.snoc (by simp))
  | pending hr hbefore hrun hp hne hexisting =>
   rw [if_neg (by simpa using hne)]
   exact .pending hr hbefore hrun hp hne hexisting
 | user user =>
  obtain ⟨hp, hh, hc⟩ := h.close clock
  exact .idle hp hh (hc.snoc (by simp))

/-- The state behind some messages. -/
def Closing.after (clock : Nat → Int) (messages : List Message) : Closing :=
 messages.foldl (Closing.step clock) Closing.start

theorem Closing.after_snoc (messages : List Message) (message : Message) :
 Closing.after clock (messages ++ [message]) = (Closing.after clock messages).step clock message := by
 simp [Closing.after]

theorem Closing.good_after (messages : List Message) :
 (Closing.after clock messages).Good := by
 induction messages using List.reverseRecOn with
 | nil => exact .idle rfl rfl closedUp_nil
 | append_singleton messages message ih =>
  rw [Closing.after_snoc]
  exact ih.step clock message

/-! ## What is given is sent -/

def given (sent : List Sent) : List Message := sent.filterMap Sent.given?

@[simp] theorem given_append (a b : List Sent) : given (a ++ b) = given a ++ given b :=
 filterMap_append

def Message.survives (message : Message) : Bool := !message.isSystem && !message.isFailed

/-- What has been sent of the messages so far, and what is held. -/
structure Closing.Faithful (s : Closing) (messages : List Message) : Prop where
 others : (given s.result).filter (fun m => !m.isSystem) = messages.filter Message.survives
 systems : (given s.result).filter isSystem ++ s.heldSystem.map .system = messages.filter isSystem

theorem Closing.given_close (s : Closing) :
 given (s.close clock).result = given s.result ++ s.heldSystem.map .system := by
 have hheld : ∀ l : List SystemMessage,
  given (l.map fun system => .given (.system system)) = l.map .system := by
  intro l
  rw [given, filterMap_map]
  exact congrFun (filterMap_eq_map (f := Message.system)) l
 unfold Closing.close
 split
 · rw [given_append, hheld]
 · obtain ⟨made, hmade, -⟩ := pushResults_spec clock s.existing s.result s.pending
   have hmade' : given (made.map .synthetic) = [] := by
    rw [given, filterMap_map]
    exact filterMap_eq_nil_iff.mpr fun _ _ => rfl
   rw [given_append, hheld, hmade, given_append, hmade', append_nil]

variable {messages : List Message}

theorem Closing.Faithful.close (h : s.Faithful messages) (clock : Nat → Int) :
 (s.close clock).Faithful messages where
 others := by
  rw [Closing.given_close, filter_append, h.others]
  simp [isSystem]
 systems := by
  rw [Closing.given_close, filter_append, ← h.systems]
  simp [Closing.close, isSystem]

theorem Closing.Faithful.push (h : s.Faithful messages) {message : Message}
 (hs : message.isSystem = false) (hf : message.isFailed = false) :
 (s.push message).Faithful (messages ++ [message]) where
 others := by
  have hlast : message.survives = true := by simp [Message.survives, hs, hf]
  have := h.others
  simp [Closing.push, given, Sent.given?, hs, hlast] at this ⊢
  exact this
 systems := by
  have := h.systems
  simp [Closing.push, given, Sent.given?, hs] at this ⊢
  exact this

theorem Closing.Faithful.step (h : s.Faithful messages) (hgood : s.Good) (clock : Nat → Int)
 (message : Message) : (s.step clock message).Faithful (messages ++ [message]) := by
 cases message with
 | assistant assistant =>
  have hclose := h.close clock
  unfold Closing.step
  dsimp only
  split
  next hf =>
   exact {
    others := by
     rw [hclose.others]
     simp [Message.survives, isFailed, hf]
    systems := by
     rw [hclose.systems]
     simp [isSystem] }
  next hf =>
   have hkept : ∀ t : Closing, t.result = (s.close clock).result →
    t.heldSystem = (s.close clock).heldSystem → t.Faithful messages := by
    intro t hr hh
    exact ⟨hr ▸ hclose.others, hr ▸ hh ▸ hclose.systems⟩
   refine Closing.Faithful.push (hkept _ ?_ ?_) rfl (by simpa [isFailed] using hf) <;>
    split <;> rfl
 | toolResult result =>
  have hkept : { s with existing := result.toolCallId :: s.existing : Closing }.Faithful messages :=
   ⟨h.others, h.systems⟩
  exact hkept.push rfl rfl
 | user user => exact (h.close clock).push rfl rfl
 | system system =>
  unfold Closing.step
  dsimp only
  split
  next hp =>
   have hheld : s.heldSystem = [] := by
    cases hgood with
    | idle _ hh => exact hh
    | pending _ _ _ _ hne => exact absurd (by simpa using hp) hne
   have hsystems := h.systems
   have hothers := h.others
   rw [hheld] at hsystems
   exact {
    others := by
     simpa [Closing.push, given, Sent.given?, isSystem, Message.survives] using hothers
    systems := by
     simpa [Closing.push, given, Sent.given?, isSystem, hheld] using hsystems }
  · have hsystems := h.systems
    have hothers := h.others
    exact {
     others := by simpa [Message.survives, isSystem] using hothers
     systems := by
      rw [filter_append, ← hsystems, map_append, append_assoc]
      rfl }

theorem Closing.faithful_after (messages : List Message) :
 (Closing.after clock messages).Faithful messages := by
 induction messages using List.reverseRecOn with
 | nil => exact ⟨rfl, rfl⟩
 | append_singleton messages message ih =>
  rw [Closing.after_snoc]
  exact ih.step (Closing.good_after clock messages) clock message

/-! ## The first pass rewrites in place -/

/-- What becomes of a message before the second pass: an assistant message keeps all but
its content, and its calls keep their order, names and arguments; a tool result keeps all
but its call's id and its images; a user message all but its images. -/
inductive Rewrites (model : Model) : Message → Message → Prop where
 | system (system : SystemMessage) : Rewrites model (.system system) (.system system)
 | user (user : UserMessage) : Rewrites model (.user user)
  (if model.acceptsImages then .user user else downgradeMessage (.user user))
 | assistant (assistant : AssistantMessage) (content : List AssistantContentBlock) :
  ({ assistant with content } : AssistantMessage).toolCalls.map
   (fun call => (call.name, call.arguments))
   = assistant.toolCalls.map (fun call => (call.name, call.arguments)) →
  Rewrites model (.assistant assistant) (.assistant { assistant with content })
 | toolResult (result : ToolResultMessage) (toolCallId : String)
  (content : List UserContentBlock) :
  content = (if model.acceptsImages then result.content
   else replaceImagesWithPlaceholder result.content nonVisionToolImagePlaceholder) →
  Rewrites model (.toolResult result) (.toolResult { result with toolCallId, content })

section FirstPass

variable (model : Model) (normalize : Option NormalizeToolCallId)

theorem transformCall_name (assistant : AssistantMessage) (idMap : IdMap) (call : ToolCall) :
 (transformCall model normalize assistant idMap call).2.name = call.name
  ∧ (transformCall model normalize assistant idMap call).2.arguments = call.arguments := by
 unfold transformCall
 split
 · exact ⟨rfl, rfl⟩
 · dsimp only
   split
   · exact ⟨rfl, rfl⟩
   · split <;> exact ⟨rfl, rfl⟩

theorem transformThinking_calls (sameModel : Bool) (thinking : ThinkingContent) :
 (transformThinking sameModel thinking).filterMap call? = [] := by
 refine filterMap_eq_nil_iff.mpr fun block hb => ?_
 unfold transformThinking at hb
 split at hb
 · split at hb <;> simp_all [call?]
 · split at hb
   · simp_all [call?]
   · split at hb
     · simp at hb
     · split at hb <;> simp_all [call?]

theorem transformContent_calls (assistant : AssistantMessage) (idMap : IdMap)
 (content : List AssistantContentBlock) :
 ((transformContent model normalize assistant idMap content).2.filterMap
  call?).map (fun call => (call.name, call.arguments))
  = (content.filterMap call?).map fun call => (call.name, call.arguments) := by
 induction content generalizing idMap with
 | nil => rfl
 | cons block rest ih =>
  cases block with
  | thinking thinking =>
   rw [transformContent]
   dsimp only
   rw [filterMap_append, transformThinking_calls, nil_append, ih]
   rfl
  | text text => exact ih idMap
  | toolCall call =>
   obtain ⟨hn, ha⟩ := transformCall_name model normalize assistant idMap call
   rw [transformContent]
   simp only [filterMap_cons, call?, map_cons, hn, ha, ih]

theorem firstPass_cons (idMap : IdMap) (message : Message) (rest : List Message) :
 firstPass model normalize idMap (message :: rest)
  = (transformMessage model normalize idMap message).2
   :: firstPass model normalize (transformMessage model normalize idMap message).1 rest := rfl

theorem firstPass_rewrites (idMap : IdMap) (messages : List Message) :
 List.Forall₂ (Rewrites model) messages
  (firstPass model normalize idMap (downgradeUnsupportedImages messages model)) := by
 induction messages generalizing idMap with
 | nil => unfold downgradeUnsupportedImages; split <;> exact .nil
 | cons message rest ih =>
  have hcons : downgradeUnsupportedImages (message :: rest) model
   = (if model.acceptsImages then message else downgradeMessage message)
    :: downgradeUnsupportedImages rest model := by
   unfold downgradeUnsupportedImages
   split <;> rfl
  rw [hcons, firstPass_cons]
  refine .cons ?_ (ih _)
  cases message with
  | system system => 
   have : (if model.acceptsImages then Message.system system
    else downgradeMessage (.system system)) = .system system := by
    split <;> rfl
   rw [this]
   exact .system system
  | user user =>
   have hsame : ∀ m, (∃ u, m = Message.user u) →
    (transformMessage model normalize idMap m).2 = m := by
    rintro m ⟨u, rfl⟩
    rfl
   rw [hsame]
   · exact .user user
   · split
     · exact ⟨user, rfl⟩
     · unfold downgradeMessage
       dsimp only
       split <;> exact ⟨_, rfl⟩
  | assistant assistant =>
   have : (if model.acceptsImages then Message.assistant assistant
    else downgradeMessage (.assistant assistant)) = .assistant assistant := by
    split <;> rfl
   rw [this]
   exact .assistant assistant _
    (transformContent_calls model normalize assistant idMap assistant.content)
  | toolResult result =>
   have : (if model.acceptsImages then Message.toolResult result
    else downgradeMessage (.toolResult result)) = .toolResult { result with
     content := if model.acceptsImages then result.content
      else replaceImagesWithPlaceholder result.content nonVisionToolImagePlaceholder } := by
    split <;> rfl
   rw [this]
   exact .toolResult result _ _ rfl

end FirstPass

theorem Rewrites.system_eq {model : Model} {m m' : Message} (h : Rewrites model m m') :
 m'.isFailed = m.isFailed ∧ m'.isSystem = m.isSystem ∧ (m.isSystem → m' = m) := by
 cases h with
 | user user =>
  split
  · exact ⟨rfl, rfl, fun _ => rfl⟩
  · unfold downgradeMessage
    dsimp only
    split <;> exact ⟨rfl, rfl, by simp [isSystem]⟩
 | _ => exact ⟨rfl, rfl, fun h => by first | rfl | exact absurd h (by simp [isSystem])⟩

theorem rewrites_systems {model : Model} {rewritten : List Message}
 (h : List.Forall₂ (Rewrites model) messages rewritten) :
 rewritten.filter isSystem = messages.filter isSystem := by
 induction h with
 | nil => rfl
 | @cons m m' _ _ hm _ ih =>
  obtain ⟨-, hs, heq⟩ := hm.system_eq
  cases hc : m.isSystem with
  | false => rw [filter_cons_of_neg (by simp [hs, hc]),
   filter_cons_of_neg (by simp [hc]), ih]
  | true => rw [heq hc, filter_cons_of_pos hc, filter_cons_of_pos hc, ih]

theorem transform_rewritten (messages : List Message) (model : Model)
 (normalize : Option NormalizeToolCallId) :
 ClosedUp (transform clock messages model normalize)
  ∧ ∃ rewritten, List.Forall₂ (Rewrites model) messages rewritten
   ∧ (given (transform clock messages model normalize)).filter (fun m => !m.isSystem)
    = rewritten.filter Message.survives
   ∧ (given (transform clock messages model normalize)).filter isSystem
    = messages.filter isSystem := by
 have hrewrites := firstPass_rewrites model normalize [] messages
 unfold transform secondPass
 generalize firstPass model normalize [] (downgradeUnsupportedImages messages model) = rewritten
  at hrewrites
 have hfaithful := (Closing.faithful_after clock rewritten).close clock
 obtain ⟨-, hheld, hclosed⟩ := (Closing.good_after clock rewritten).close clock
 have hothers := hfaithful.others
 have hsystems := hfaithful.systems
 rw [hheld, map_nil, append_nil, rewrites_systems hrewrites] at hsystems
 exact ⟨hclosed, rewritten, hrewrites, hothers, hsystems⟩

/-- **Every request closes its tool calls.** In what `transform_messages` returns, each
assistant message is followed at once by tool results that answer all of its calls, so
before any other message and with no system message in between; no assistant message
that failed or was aborted is left; and besides the error results that were made up it
holds, rewritten in place, every user message, tool result and other assistant message
once and in order, and every system message once and in order. -/
theorem transform_closed (clock : Nat → Int) (messages : List Message) (model : Model)
 (normalize : Option NormalizeToolCallId) :
 ClosedUp (transform clock messages model normalize)
  ∧ (∀ m ∈ transform clock messages model normalize, m.message.isFailed = false)
  ∧ ∃ rewritten, List.Forall₂ (Rewrites model) messages rewritten
   ∧ (given (transform clock messages model normalize)).filter (fun m => !m.isSystem)
    = rewritten.filter Message.survives
   ∧ (given (transform clock messages model normalize)).filter isSystem
    = messages.filter isSystem := by
 obtain ⟨hclosed, rewritten, hrewrites, hothers, hsystems⟩ :=
  transform_rewritten clock messages model normalize
 refine ⟨hclosed, fun m hm => ?_, rewritten, hrewrites, hothers, hsystems⟩
 cases m with
 | synthetic r => rfl
 | given message =>
  cases hs : message.isSystem with
  | true => cases message <;> simp_all [isSystem, isFailed, Sent.message]
  | false =>
   have hmem : message ∈ rewritten.filter Message.survives := by
    rw [← hothers]
    exact mem_filter.mpr ⟨mem_filterMap.mpr ⟨_, hm, rfl⟩, by simp [hs]⟩
   simpa [Message.survives, hs, Sent.message] using (mem_filter.mp hmem).2

end Bake.Ai
