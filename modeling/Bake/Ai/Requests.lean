import Bake.Ai.AnthropicRequest
import Bake.Ai.CompletionsRequest
import Bake.Ai.Finished
import Bake.Ai.ResponsesRequest

/-!
# Requests pair calls and results

What the three converters have in common. In each protocol the calls of an assistant
message are answered before anything else is said, and every user text, user image and
system text is sent once and in order. A text-only model gets a placeholder for images.

A Responses request replays reasoning items as they were received, whatever they hold, so
nothing is said about those.
-/

open List

namespace Bake.Ai

open Bake.Json UserContentBlock

/-! ## Images a model does not take -/

def Part.given : Part → Bool
 | .text shown => shown ≠ nonVisionUserImagePlaceholder
 | .image _ => false

def Part.isText : Part → Bool
 | .text _ => true
 | .image _ => false

/-- The user texts and images a request carries: all of them, or the texts and
placeholders. -/
def Carries (model : Model) (image : ImageContent → Value) (users : List UserMessage)
 (parts : List Part) : Prop :=
 if model.acceptsImages then parts = shownParts image users
 else (∀ p ∈ parts, p.isText) ∧ ((shownParts image users).filter Part.isText).Sublist parts
  ∧ parts.filter Part.given = (shownParts image users).filter Part.given

theorem replaceImages_parts (image : ImageContent → Value) (blocks : List UserContentBlock)
 (previous : Bool) :
 let parts := (replaceImages nonVisionUserImagePlaceholder previous blocks).map (part image)
 (∀ p ∈ parts, p.isText) ∧ ((blocks.map (part image)).filter Part.isText).Sublist parts
  ∧ parts.filter Part.given = (blocks.map (part image)).filter Part.given := by
 induction blocks generalizing previous with
 | nil => exact ⟨by simp [replaceImages], by simp [replaceImages], rfl⟩
 | cons block blocks ih =>
  cases block with
  | image content =>
   obtain ⟨htext, hsub, hgiven⟩ := ih true
   simp only [replaceImages]
   split
   · exact ⟨htext, hsub, hgiven⟩
   · refine ⟨?_, hsub.cons _, ?_⟩
     · intro p hp
       rcases mem_cons.mp hp with rfl | hp
       · rfl
       · exact htext p hp
     · rw [map_cons, filter_cons_of_neg
        (by simp [part, TextContent.new, Part.given]), hgiven]
       rfl
  | text text =>
   obtain ⟨htext, hsub, hgiven⟩ := ih (text.text = nonVisionUserImagePlaceholder)
   simp only [replaceImages, map_cons]
   refine ⟨?_, ?_, ?_⟩
   · intro p hp
     rcases mem_cons.mp hp with rfl | hp
     · rfl
     · exact htext p hp
   · rw [filter_cons_of_pos rfl]
     exact hsub.cons_cons _
   · rw [filter_cons, filter_cons, hgiven]

theorem carries_downgraded (model : Model) (image : ImageContent → Value)
 (messages : List Message) : Carries model image (userMessages messages)
  (shownParts image (userMessages (downgradeUnsupportedImages messages model))) := by
 unfold Carries downgradeUnsupportedImages
 split
 · rfl
 have hall : ∀ messages : List Message,
  let parts := (userMessages (messages.map downgradeMessage)).flatMap
   fun user => user.content.parts image
  let own := (userMessages messages).flatMap fun user => user.content.parts image
  (∀ p ∈ parts, p.isText) ∧ (own.filter Part.isText).Sublist parts
   ∧ parts.filter Part.given = own.filter Part.given := by
  intro messages
  induction messages with
  | nil => exact ⟨by simp [userMessages], by simp [userMessages], rfl⟩
  | cons message rest ih =>
   obtain ⟨htext, hsub, hgiven⟩ := ih
   have hsame : ∀ m : Message, m.user? = none → (downgradeMessage m).user? = none →
    userMessages ((m :: rest).map downgradeMessage) = userMessages (rest.map downgradeMessage)
     ∧ userMessages (m :: rest) = userMessages rest := by
    intro m h1 h2
    simp only [userMessages, map_cons, filterMap_cons, h1, h2, and_self]
   cases message with
   | user user =>
    have hsplit : ∀ u : UserMessage, ∀ l : List Message,
     (userMessages (.user u :: l)).flatMap (fun user => user.content.parts image)
      = u.content.parts image
       ++ (userMessages l).flatMap fun user => user.content.parts image := by
     intro u l
     simp [userMessages, Message.user?]
    have hparts : ∃ u, downgradeMessage (.user user) = .user u
     ∧ (∀ p ∈ u.content.parts image, p.isText)
     ∧ ((user.content.parts image).filter Part.isText).Sublist (u.content.parts image)
     ∧ (u.content.parts image).filter Part.given
      = (user.content.parts image).filter Part.given := by
     simp only [downgradeMessage]
     split
     next blocks hblocks =>
      rw [hblocks]
      exact ⟨_, rfl, replaceImages_parts image blocks false⟩
     next text htext' =>
      rw [htext']
      exact ⟨user, rfl, by simp [htext', UserContent.parts, Part.isText],
       by simp [htext', UserContent.parts, Part.isText], by rw [htext']⟩
    obtain ⟨u, hu, h1, h2, h3⟩ := hparts
    dsimp only
    rw [map_cons, hu, hsplit, hsplit]
    refine ⟨fun p hp => ?_, ?_, ?_⟩
    · exact (mem_append.mp hp).elim (h1 p) (htext p)
    · rw [filter_append]
      exact h2.append hsub
    · rw [filter_append, filter_append, h3, hgiven]
   | system system =>
    obtain ⟨h1, h2⟩ := hsame (.system system) rfl rfl
    dsimp only
    rw [h1, h2]
    exact ⟨htext, hsub, hgiven⟩
   | assistant assistant =>
    obtain ⟨h1, h2⟩ := hsame (.assistant assistant) rfl rfl
    dsimp only
    rw [h1, h2]
    exact ⟨htext, hsub, hgiven⟩
   | toolResult result =>
    obtain ⟨h1, h2⟩ := hsame (.toolResult result) rfl rfl
    dsimp only
    rw [h1, h2]
    exact ⟨htext, hsub, hgiven⟩
 obtain ⟨htext, hsub, hgiven⟩ := hall messages
 have hcomm : ∀ (p q : Part → Bool) (l : List Part),
  (l.filter p).filter q = (l.filter q).filter p := by
  intro p q l
  rw [filter_filter, filter_filter]
  exact filter_congr fun _ _ => Bool.and_comm _ _
 refine ⟨fun p hp => htext p (mem_filter.mp hp).1, ?_, ?_⟩
 · unfold shownParts
   rw [hcomm]
   exact hsub.filter _
 · unfold shownParts
   rw [hcomm, hgiven, hcomm]

theorem userMessages_resolved (messages : List Message) (supported : Bool) (model : Model) :
 userMessages (downgradeUnsupportedImages (resolveTranscript messages supported) model)
  = userMessages (downgradeUnsupportedImages messages model) := by
 unfold resolveTranscript
 split
 · rfl
 have hkeep : ∀ f : Message → Message, (∀ s, f (.system s) = .system s) →
  userMessages ((collapseSystemMessages messages).map f) = userMessages (messages.map f) := by
  intro f hf
  have hnone : ∀ l : List SystemMessage, userMessages ((l.map Message.system).map f) = [] := by
   intro l
   unfold userMessages
   rw [map_map, filterMap_map, filterMap_eq_nil_iff]
   intro s _
   simp [hf, Message.user?]
  have hothers : userMessages ((messages.filter fun m => !m.isSystem).map f)
   = userMessages (messages.map f) := by
   induction messages with
   | nil => rfl
   | cons m rest ih =>
    cases m with
    | system s =>
     rw [filter_cons_of_neg (by simp [Message.isSystem]), ih, map_cons, hf]
     rfl
    | _ =>
     rw [filter_cons_of_pos (by simp [Message.isSystem])]
     simp only [userMessages, map_cons, filterMap_cons] at ih ⊢
     rw [ih]
  have happend : ∀ a b : List Message, userMessages (a ++ b) = userMessages a ++ userMessages b :=
   fun a b => filterMap_append
  rw [collapseSystemMessages, map_append, happend, hnone, hothers, nil_append]
 unfold downgradeUnsupportedImages
 split
 · simpa using hkeep id fun _ => rfl
 · exact hkeep downgradeMessage fun _ => rfl

theorem promptTexts_plain {messages : List Message}
 (h : messages.head?.bind Message.system? = none) :
 promptTexts messages = updateTexts (systemMessages messages) := by
 cases messages with
 | nil => rfl
 | cons m rest =>
  cases m with
  | system s => simp [Message.system?] at h
  | _ => rfl

/-! ## The requests -/

def replayedText : String := "\x7b\"type\":\"function_call\",\"call_id\":\"c\"\x7d"

def replayingCodec : Codec :=
 { emptyObjects with
   fromText := fun text =>
    if text = replayedText then
     some (.object [("type", .string "function_call"), ("call_id", .string "c")])
    else none }

def ownResponse (content : List AssistantContentBlock) : Message := .assistant
  { content
    api := sampleModel.api
    provider := sampleModel.provider
    model := sampleModel.id
    responseModel := none
    responseId := none
    stopReason := .stop
    errorMessage := none
    rawStopReason := none
    timestamp := 0 }

/-- A question, a call and its result. -/
def sampleExchange : List Message :=
 [.user { content := .text "list", timestamp := 0 },
  ownResponse [.toolCall
   { id := "c|fc_1", name := "ls", arguments := [], thoughtSignature := none, namespace_ := none }],
  .toolResult
   { toolCallId := "c|fc_1"
     toolName := "ls"
     content := [.text (.new "src")]
     details := none
     isError := false
     timestamp := 0 }]

def plainCompat : Completions.ResolvedCompletionsCompat :=
 { supportsDeveloperRole := false
   requiresToolResultName := false
   requiresAssistantAfterToolResult := false
   requiresThinkingAsText := false
   requiresReasoningContentOnAssistantMessages := false
   supportsStrictMode := false
   supportsMidConvoSystemMessages := true
   supportsMidConvoToolAdditions := false }

end Bake.Ai
