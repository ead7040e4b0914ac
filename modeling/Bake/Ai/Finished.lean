import Bake.Ai.AnthropicBlocks
import Bake.Ai.ResponsesItems

/-!
# Calls that are run half streamed

The calls of a message are run when its stop reason is tool use or stop. Whether every one
of them was closed by the provider is decided by what the processor still holds when the
stream ends: a block that is open, or argument text that was not used. The Responses
processor looks for such text, but only when the stop reason is tool use; the Anthropic
processor does not look at all.
-/

open List Except

namespace Bake.Ai

open Bake.Json

def StopReason.runsCalls (reason : StopReason) : Bool := reason = .toolUse || reason = .stop

/-! ## Anthropic -/

namespace Anthropic

/-- The records of the open blocks are those of the blocks that are open. -/
theorem mem_openFrom {blocks : List Block} {n : Nat} {o : OpenBlock} : o ∈ openFrom n blocks
  ↔ ∃ (i : Nat) (b : Block), blocks[i]? = some b ∧ b.closed = false ∧ o = b.opened (n + i) := by
 induction blocks generalizing n with
 | nil => simp [openFrom]
 | cons c blocks ih =>
  have hrest : (∃ (i : Nat) (b : Block), blocks[i]? = some b ∧ b.closed = false
   ∧ o = b.opened (n + 1 + i))
   ↔ ∃ (i : Nat) (b : Block), (c :: blocks)[i + 1]? = some b ∧ b.closed = false
    ∧ o = b.opened (n + (i + 1)) := by
   simp only [getElem?_cons_succ, Nat.add_comm 1, Nat.add_assoc]
  rw [openFrom]
  split
  next hc =>
   rw [ih, hrest]
   constructor
   · rintro ⟨i, b, h⟩
     exact ⟨i + 1, b, h⟩
   · rintro ⟨i, b, hb, hclosed, ho⟩
     cases i with
     | zero =>
      cases hb
      simp [hc] at hclosed
     | succ i => exact ⟨i, b, hb, hclosed, ho⟩
  next hc =>
   rw [mem_cons, ih, hrest]
   constructor
   · rintro (rfl | ⟨i, b, h⟩)
     · exact ⟨0, c, rfl, by simpa using hc, rfl⟩
     · exact ⟨i + 1, b, h⟩
   · rintro ⟨i, b, hb, hclosed, ho⟩
     cases i with
     | zero =>
      cases hb
      exact .inl ho
     | succ i => exact .inr ⟨i, b, hb, hclosed, ho⟩

end Anthropic

namespace AnthropicStreamProcessor

open Anthropic

def HoldsCall (p : AnthropicStreamProcessor) : Prop :=
 ∃ o ∈ p.openBlocks, ∃ call, p.output.content[o.contentIndex]? = some (.toolCall call)

/-- Every call was stopped, and its arguments are read from the text streamed for it. -/
def CallsClosed (codec : Codec) (p : AnthropicStreamProcessor) (blocks : List Block) : Prop :=
 ∀ (i : Nat) (call : ToolCall), p.output.content[i]? = some (.toolCall call) →
  ∃ b, blocks[i]? = some b ∧ b.closed = true ∧ call.arguments = codec.parse b.text

variable {codec : Codec} {isOauth : Bool} {tools : List Tool}

variable {p : AnthropicStreamProcessor}

variable {blocks : List Block}

theorem Assembled.call (hp : Assembled codec isOauth tools p blocks) {i : Nat}
 {call : ToolCall} (h : p.output.content[i]? = some (.toolCall call)) :
 ∃ b start, blocks[i]? = some b ∧ b.start = .toolCall start
  ∧ call = { start with arguments := b.arguments codec start.arguments } := by
 rw [hp.shows.parts, getElem?_map] at h
 obtain ⟨b, hb, hcontent⟩ := Option.map_eq_some_iff.mp h
 cases hstart : b.start with
 | text block =>
  rw [Block.content_text hstart] at hcontent
  simp at hcontent
 | thinking block =>
  rw [Block.content_thinking hstart] at hcontent
  simp at hcontent
 | toolCall start =>
  rw [Block.content_call hstart] at hcontent
  exact ⟨b, start, hb, hstart, (AssistantContentBlock.toolCall.inj hcontent).symm⟩

theorem Assembled.callsClosed_iff
 (hp : Assembled codec isOauth tools p blocks) : p.CallsClosed codec blocks ↔ ¬p.HoldsCall := by
 constructor
 · rintro hclosed ⟨o, ho, call, hcall⟩
   rw [hp.opened] at ho
   obtain ⟨i, b, hb, hopen, rfl⟩ := mem_openFrom.mp ho
   rw [Nat.zero_add] at hcall
   obtain ⟨c, hc, hcc, -⟩ := hclosed i call hcall
   rw [hb] at hc
   rw [← Option.some.inj hc, hopen] at hcc
   simp at hcc
 intro hnone i call hcall
 obtain ⟨b, start, hb, -, harguments⟩ := hp.call hcall
 have hclosed : b.closed = true := by
  cases h : b.closed with
  | true => rfl
  | false =>
   refine absurd ⟨b.opened i, ?_, call, hcall⟩ hnone
   rw [hp.opened]
   exact mem_openFrom.mpr ⟨i, b, hb, h, by rw [Nat.zero_add]⟩
 refine ⟨b, hb, hclosed, ?_⟩
 rw [harguments]
 exact if_pos hclosed

end AnthropicStreamProcessor

/-! ## Responses -/

namespace ResponsesStreamProcessor

open Responses

/-- Every call was done, and its arguments are read from the item that ended it, or from
the text streamed for it. -/
def CallsClosed (codec : Codec) (p : ResponsesStreamProcessor) (items : List Item) : Prop :=
 ∀ (i : Nat) (call : ToolCall), p.output.content[i]? = some (.toolCall call) →
  ∃ b item, items[i]? = some b ∧ b.done = some item ∧ call.arguments = codec.parse (b.source item)

variable {codec : Codec}

variable {items : List Item} {p p' : ResponsesStreamProcessor}

theorem Assembled.call (hp : Assembled codec p items) {i : Nat} {call : ToolCall}
 (h : p.output.content[i]? = some (.toolCall call)) :
 ∃ b, items[i]? = some b ∧ b.kind = .toolCall ∧ call = b.call codec := by
 have hpart := congrArg (fun l => l[i]?) hp.shows.parts
 simp only [getElem?_map, h, Option.map_some, AssistantContentBlock.unsigned] at hpart
 obtain ⟨b, hb, hcontent⟩ := Option.map_eq_some_iff.mp hpart.symm
 unfold Item.content at hcontent
 split at hcontent
 · simp at hcontent
 · simp at hcontent
 next hk =>
  exact ⟨b, hb, hk, (AssistantContentBlock.toolCall.inj hcontent).symm⟩

theorem unfinishedCall_eq_none : p.unfinishedCall = none ↔ ∀ (i : Nat) (call : ToolCall),
  p.output.content[i]? = some (.toolCall call) → OrdMap.get? p.partialJson i = none := by
 unfold unfinishedCall
 rw [findSome?_eq_none_iff]
 constructor
 · intro h i call hcall
   have := h (.toolCall call, i) (mem_zipIdx_iff_getElem?.mpr hcall)
   cases hget : OrdMap.get? p.partialJson i with
   | none => rfl
   | some a => simp [hget] at this
 · rintro h ⟨block, i⟩ hmem
   cases block with
   | text _ | thinking _ => rfl
   | toolCall call =>
    have := h i call (mem_zipIdx_iff_getElem?.mp hmem)
    simp [this]

theorem Assembled.callsClosed_iff (hp : Assembled codec p items) :
 p.CallsClosed codec items ↔ p.unfinishedCall = none := by
 rw [unfinishedCall_eq_none]
 constructor
 · intro hclosed i call hcall
   obtain ⟨b, item, hb, hdone, -⟩ := hclosed i call hcall
   rw [hp.partialJson i, hb, Option.bind_some, Item.buffer, if_neg (by simp [hdone])]
 · intro hnone i call hcall
   obtain ⟨b, hb, hk, rfl⟩ := hp.call hcall
   have hbuffer := hnone i _ hcall
   rw [hp.partialJson i, hb, Option.bind_some, Item.buffer] at hbuffer
   cases hdone : b.done with
   | none => simp [hk, hdone] at hbuffer
   | some item => exact ⟨b, item, hb, hdone, by rw [Item.call, hdone]⟩

/-! ### The end of the response -/

def isTerminal (event : Value) : Bool :=
 textOf event "type" = "response.completed" || textOf event "type" = "response.incomplete"

def isItemEvent (event : Value) : Bool :=
 textOf event "type" = "response.output_item.added"
  || textOf event "type" = "response.output_item.done"

/-- No item begins or ends after the response has ended for the last time. -/
def EndsLast (events : List Value) : Prop :=
 ∃ before terminal after, events = before ++ terminal :: after ∧ isTerminal terminal = true
  ∧ ∀ event ∈ after, isTerminal event = false ∧ isItemEvent event = false

theorem kinds_streamed {event : Value} (h : isItemEvent event = false) :
 (assign items event).map Item.kind = items.map Item.kind := by
 have hmodify : ∀ (key : Option Int) (kind : SlotKind) (piece : Piece),
  (streamedFor items key kind piece).map Item.kind = items.map Item.kind := by
  intro key kind piece
  unfold streamedFor
  split
  · refine map_modify_of_eq (fun b => ?_) _ _
    unfold Item.take
    split <;> rfl
  · rfl
 simp only [isItemEvent, Bool.or_eq_false_iff, decide_eq_false_iff_not] at h
 unfold assign
 dsimp only
 split
 · exact absurd ‹_› h.1
 · exact absurd ‹_› h.2
 · split
   · exact hmodify _ _ _
   · rfl

theorem stopReason_streamed {event : Value} (hitem : isItemEvent event = false)
 (hend : isTerminal event = false) (h : p.handleEvent codec event = .ok p') :
 p'.output.stopReason = p.output.stopReason := by
 simp only [isItemEvent, isTerminal, Bool.or_eq_false_iff, decide_eq_false_iff_not] at hitem hend
 unfold handleEvent at h
 dsimp only at h
 split at h
 · exact ok.inj h ▸ rfl
 · exact absurd ‹_› hitem.1
 · split at h <;> exact ok.inj h ▸ rfl
 · split at h <;> exact ok.inj h ▸ rfl
 · split at h <;> exact ok.inj h ▸ rfl
 · split at h <;> exact ok.inj h ▸ rfl
 · split at h <;> exact ok.inj h ▸ rfl
 · unfold argumentsDelta at h
   split at h
   · exact ok.inj h ▸ rfl
   · split at h
     · exact ok.inj h ▸ rfl
     · obtain ⟨q, hq, h⟩ := bind_ok h
       obtain ⟨scans, rfl⟩ := checkArgumentDelta_ok hq
       exact ok.inj h ▸ rfl
 · unfold argumentsDone at h
   split at h
   · exact ok.inj h ▸ rfl
   · split at h
     · exact ok.inj h ▸ rfl
     · split at h
       · obtain ⟨q, hq, h⟩ := bind_ok h
         obtain ⟨scans, rfl⟩ := checkArgumentDelta_ok hq
         exact ok.inj h ▸ rfl
       · exact ok.inj h ▸ rfl
 · exact absurd ‹_› hitem.2
 · exact absurd ‹_› hend.1
 · exact absurd ‹_› hend.2
 · simp at h
 · simp at h
 · exact ok.inj h ▸ rfl

theorem finalizeResponse_stop {response : Option Value}
 (h : p.finalizeResponse codec response = .ok p') (hstop : p'.output.stopReason = .stop) :
 p'.output.toolCalls = [] := by
 obtain ⟨⟨stopReason, error⟩, -, h⟩ := bind_ok h
 cases h
 dsimp only at hstop
 split at hstop
 · simp at hstop
 next hcalls =>
  by_cases hnone : (AssistantMessage.toolCalls (backfillReasoning codec
   { p with sawTerminal := true } (get response "output")).output) = []
  · exact hnone
  · exact absurd ⟨hstop, hnone⟩ hcalls

variable {events : List Value}

theorem Assembled.idle
 (hidle : ∀ event ∈ events, isTerminal event = false ∧ isItemEvent event = false)
 (hp : Assembled codec p items) (h : p.handleEvents codec events = .ok p') :
 p'.output.stopReason = p.output.stopReason
  ∧ (events.foldl assign items).map Item.kind = items.map Item.kind := by
 induction events generalizing p items with
 | nil => exact ⟨by rw [← ok.inj h], rfl⟩
 | cons event events ih =>
  rw [handleEvents, foldlM_cons] at h
  obtain ⟨q, hq, h⟩ := bind_ok h
  obtain ⟨hend, hitem⟩ := hidle event (mem_cons_self ..)
  obtain ⟨hreason, hkinds⟩ := ih (fun e he => hidle e (mem_cons_of_mem _ he)) (hp.event hq) h
  exact ⟨hreason.trans (stopReason_streamed hitem hend hq), hkinds.trans (kinds_streamed hitem)⟩

/-- **Nothing is left open** by an accepted stream that ends with the end of the response. -/
theorem Assembled.callsClosed_of_endsLast (hp : Assembled codec p items)
 (hends : EndsLast events) (h : p.handleEvents codec events = .ok p')
 (hfinish : p'.finish = .ok ()) (hruns : p'.output.stopReason.runsCalls = true) :
 p'.CallsClosed codec (events.foldl assign items) := by
 have hp' := hp.events h
 obtain ⟨before, terminal, after, rfl, hterminal, hidle⟩ := hends
 rw [handleEvents, foldlM_append] at h
 obtain ⟨q, hq, h⟩ := bind_ok h
 rw [foldlM_cons] at h
 obtain ⟨r, hr, h⟩ := bind_ok h
 have hr' := (hp.events hq).event hr
 obtain ⟨hreason, hkinds⟩ := hr'.idle hidle h
 simp only [StopReason.runsCalls, Bool.or_eq_true, decide_eq_true_eq] at hruns
 rcases hruns with huse | hstop
 · refine hp'.callsClosed_iff.mpr ?_
   unfold finish at hfinish
   split at hfinish
   · simp at hfinish
   · split at hfinish
     · simp at hfinish
     · assumption
 intro i call hcall
 have hfinal : r.output.toolCalls = [] := by
  rw [hstop] at hreason
  simp only [isTerminal, Bool.or_eq_true, decide_eq_true_eq] at hterminal
  unfold handleEvent at hr
  dsimp only at hr
  rcases hterminal with htype | htype
  all_goals
   rw [htype] at hr
   exact finalizeResponse_stop hr hreason.symm
 obtain ⟨b, hb, hk, -⟩ := hp'.call hcall
 -- the item was there when the response ended, and so was its block
 rw [foldl_append, foldl_cons] at hb
 have hkind := congrArg (fun l => l[i]?) hkinds
 simp only [getElem?_map, hb, Option.map_some] at hkind
 obtain ⟨c, hc, hck⟩ := Option.map_eq_some_iff.mp hkind.symm
 have hblock := hr'.callBlock hc (hck.trans hk)
 have hmem : c.call codec ∈ r.output.toolCalls :=
  mem_filterMap.mpr ⟨_, mem_of_getElem? hblock, rfl⟩
 rw [hfinal] at hmem
 simp at hmem

end ResponsesStreamProcessor

end Bake.Ai

namespace Bake.Ai

open Bake.Json

/-! ## Both processors -/

/-- **In every accepted stream whose message is run, all calls are closed and read from
their whole text exactly if no call is left over:** for Anthropic no call's block is open
when the stream ends, for Responses no call's argument text is still held. A Responses
stream in which no item comes after the end of the response leaves none. -/
theorem calls_closed_iff (codec : Codec) (model : Model) (timestamp : Int) (max : Nat)
 (events : List Value) :
 (∀ (isOauth : Bool) (tools : List Tool) (p : AnthropicStreamProcessor),
  ((AnthropicStreamProcessor.new model (.pending model timestamp) isOauth
   tools).withMaxToolArgumentWhitespace max).handleEvents codec events = .ok p →
  p.finish = .ok () → p.output.stopReason.runsCalls = true →
  (p.CallsClosed codec (Anthropic.blocksOf codec isOauth tools events) ↔ ¬p.HoldsCall))
 ∧ (∀ p : ResponsesStreamProcessor, ((ResponsesStreamProcessor.new model
   (.pending model timestamp)).withMaxToolArgumentWhitespace max).handleEvents codec events
    = .ok p →
  p.finish = .ok () → p.output.stopReason.runsCalls = true →
  (p.CallsClosed codec (Responses.itemsOf events) ↔ p.unfinishedCall = none)
   ∧ (ResponsesStreamProcessor.EndsLast events →
    p.CallsClosed codec (Responses.itemsOf events))) := by
 refine ⟨fun isOauth tools p h _ _ => ?_, fun p h hfinish hruns => ⟨?_, fun hends => ?_⟩⟩
 · exact ((AnthropicStreamProcessor.assembled_new model timestamp isOauth tools max).events
    h).callsClosed_iff
 · exact ((ResponsesStreamProcessor.assembled_new model timestamp max).events h).callsClosed_iff
 · exact (ResponsesStreamProcessor.assembled_new model timestamp max).callsClosed_of_endsLast
    hends h hfinish hruns

def event (type : String) (members : List (String × Value)) : Value :=
 .object (("type", .string type) :: members)

def sampleModel : Model :=
 { id := "m"
   api := "anthropic-messages"
   provider := "anthropic"
   input := [.text]
   reasoning := false
   supportsDeveloperRole := none }

/-- A codec that reads what every text below is read as, an empty object. -/
def emptyObjects : Codec where
 parse := fun _ => []
 parse_empty := rfl
 parse_braces := rfl
 streamed := fun _ => []
 toText := fun _ => ""
 fromText := fun _ => none
 toLowercase := id

def callBegins : List Value :=
 [event "message_start" [],
  event "content_block_start" [("index", .number (.posInt 0)),
   ("content_block", event "tool_use" [("id", .string "t"), ("name", .string "bash")])],
  event "content_block_delta" [("index", .number (.posInt 0)),
   ("delta", event "input_json_delta" [("partial_json", .string "\x7b")])]]

def callStops : List Value := [event "content_block_stop" [("index", .number (.posInt 0))]]

def messageEnds : List Value :=
 [event "message_delta" [("delta", .object [("stop_reason", .string "tool_use")])],
  event "message_stop" []]

def functionCall : Value :=
 event "function_call" [("call_id", .string "c"), ("id", .string "i"), ("name", .string "bash")]

def callAdded : List Value :=
 [event "response.output_item.added" [("output_index", .number (.posInt 0)), ("item", functionCall)]]

def callDone : List Value :=
 [event "response.output_item.done" [("output_index", .number (.posInt 0)), ("item", functionCall)]]

def responseEnds : List Value :=
 [event "response.completed" [("response", .object [("status", .string "completed")])]]

/-- Both processors take streams whose call is closed before the message ends. -/
theorem calls_closed_sample : (∃ p : AnthropicStreamProcessor,
  p.CallsClosed emptyObjects (Anthropic.blocksOf emptyObjects false []
   (callBegins ++ callStops ++ messageEnds)) ∧ p.output.toolCalls.length = 1)
 ∧ ∃ p : ResponsesStreamProcessor,
  p.CallsClosed emptyObjects (Responses.itemsOf (callAdded ++ callDone ++ responseEnds))
   ∧ p.output.toolCalls.length = 1 := by
 refine ⟨⟨_, ((calls_closed_iff emptyObjects sampleModel 0 2000
  (callBegins ++ callStops ++ messageEnds)).1 false [] _ rfl rfl rfl).mpr ?_, rfl⟩,
  ⟨_, ((calls_closed_iff emptyObjects sampleModel 0 2000
   (callAdded ++ callDone ++ responseEnds)).2 _ rfl rfl rfl).2 ?_, rfl⟩⟩
 · rintro ⟨o, ho, -⟩
   exact absurd ho (not_mem_nil)
 · exact ⟨callAdded ++ callDone, _, [], rfl, rfl, fun e he => absurd he (not_mem_nil)⟩

/-- **A call that was never stopped is run,** and so is one that begins after the response
has ended. -/
theorem half_streamed_calls_run : ¬(∀ (events : List Value) (p : AnthropicStreamProcessor),
  ((AnthropicStreamProcessor.new sampleModel (.pending sampleModel 0) false
   []).withMaxToolArgumentWhitespace 2000).handleEvents emptyObjects events = .ok p →
  p.finish = .ok () → p.output.stopReason.runsCalls = true →
  p.CallsClosed emptyObjects (Anthropic.blocksOf emptyObjects false [] events))
 ∧ ¬(∀ (events : List Value) (p : ResponsesStreamProcessor),
  ((ResponsesStreamProcessor.new sampleModel
   (.pending sampleModel 0)).withMaxToolArgumentWhitespace 2000).handleEvents emptyObjects events
    = .ok p →
  p.finish = .ok () → p.output.stopReason.runsCalls = true →
  p.CallsClosed emptyObjects (Responses.itemsOf events)) := by
 constructor
 · intro h
   obtain ⟨b, hb, hclosed, -⟩ := h (callBegins ++ messageEnds) _ rfl rfl rfl 0 _ rfl
   cases hb
   exact absurd hclosed (by decide)
 · intro h
   obtain ⟨b, item, hb, hdone, -⟩ := h (responseEnds ++ callAdded) _ rfl rfl rfl 0 _ rfl
   cases hb
   injection hdone

end Bake.Ai
