import Bake.Ai.Responses
import Bake.Lib.Journal
import Bake.Lib.Tables

/-!
# The items of a Responses stream

What the processor builds, item by item: each item of the stream with what was streamed
for it, whatever comes between. An event belongs to the open item with its output index;
an item that is added under the index of an open one takes the index over, and nothing
ends the older one any more.
-/

open List Except
open OrdMap (get?)

namespace Bake.Ai

open Bake.Json
open AssistantContentBlock (thinking toolCall unsigned)
open ResponsesStreamProcessor (backfillItem emit removeSlot setArguments)

namespace Responses

/-- What an event streams for an item: more of its text, or its arguments as a whole. -/
inductive Piece where
 | more (text : String)
 | whole (text : String)

/-- What was streamed for an item: the argument text, and the deltas that were emitted. -/
structure Streamed where
 arguments : StreamingJsonObject
 deltas : List String

def Streamed.rest (s : Streamed) (text : String) : Option String :=
 (stripStart text s.arguments.text).filter (· ≠ "")

def Streamed.take (s : Streamed) : Piece → Streamed
 | .more text => { arguments := s.arguments.push text, deltas := s.deltas ++ [text] }
 | .whole text => { arguments := .new text, deltas := s.deltas ++ (s.rest text).toList }

/-- An item of a stream: its output index, its kind, the item it began with, what was
streamed for it, the item that ended it, and whether another item took its index. -/
structure Item where
 key : Option Int
 kind : SlotKind
 item : Option Value
 pieces : List Piece
 done : Option (Option Value)
 superseded : Bool

namespace Item

def begun (key : Option Int) (kind : SlotKind) (item : Option Value) : Item :=
 { key, kind, item, pieces := [], done := none, superseded := false }

/-- Events can still find the item. -/
def isOpen (b : Item) : Bool := b.done.isNone && !b.superseded

def more (b : Item) (piece : Piece) : Item := { b with pieces := b.pieces ++ [piece] }

def take (b : Item) (kind : SlotKind) (piece : Piece) : Item :=
 if b.kind = kind then b.more piece else b

def ended (b : Item) (item : Option Value) : Item := { b with done := some item }

def finish (b : Item) (item : Option Value) : Item :=
 if itemKind item = some b.kind then b.ended item else b

def supersede (key : Option Int) (b : Item) : Item :=
 if b.key = key then { b with superseded := true } else b

def streamed (b : Item) : Streamed :=
 b.pieces.foldl Streamed.take { arguments := .new (textOf b.item "arguments"), deltas := [] }

def text (b : Item) : String := String.join b.streamed.deltas

/-- The argument text a call is read from: the closing item's, or what was streamed. -/
def source (b : Item) (item : Option Value) : String :=
 (nonEmptyStr item "arguments").getD b.streamed.arguments.text

/-- The reasoning text: of the closing item when it has one. -/
def thought (b : Item) : String :=
 match b.done with
 | none => b.text
 | some item =>
  let summary := texts (get item "summary") "\n\n"
  let content := texts (get item "content") "\n\n"
  if summary ≠ "" then summary else if content ≠ "" then content else b.text

variable (codec : Codec)

def call (b : Item) : ToolCall :=
 { id := template codec (get b.item "call_id") ++ "|" ++ template codec (get b.item "id")
   name := textOf b.item "name"
   arguments := match b.done with
    | some item => codec.parse (b.source item)
    | none => if b.pieces = [] then [] else b.streamed.arguments.object codec
   thoughtSignature := none
   namespace_ := match b.done with
    | some item => (getStr item "namespace").orElse fun _ => getStr b.item "namespace"
    | none => getStr b.item "namespace" }

def message (b : Item) : TextContent :=
 match b.done with
 | none => .new b.text
 | some item =>
  { text := messageText item
    textSignature := some
     (encodeTextSignatureV1 codec (template codec (get item "id")) (getStr item "phase")) }

def content (b : Item) : AssistantContentBlock :=
 match b.kind with
 | .text => .text (b.message codec)
 | .thinking => .thinking { thinking := b.thought, thinkingSignature := none, redacted := none }
 | .toolCall => .toolCall (b.call codec)

/-- What is emitted for the item: its start, its deltas, and its end once it is finished. -/
def changes (b : Item) : List Change := .start b.kind :: b.streamed.deltas.map (.delta b.kind)
  ++ if b.done.isSome then [(b.content codec).final] else []

/-- The argument text the processor holds for a call that is not finished. -/
def buffer (b : Item) : Option StreamingJsonObject :=
 if b.kind = .toolCall ∧ b.done = none then some b.streamed.arguments else none

def claims (b : Item) (key : Option Int) (slot : SlotKind × Nat) : Prop :=
 b.isOpen = true ∧ b.key = key ∧ b.kind = slot.1

end Item

def openAt (items : List Item) (key : Option Int) : Option Nat :=
 items.findIdx? fun b => b.isOpen && b.key = key

def piece (event : Value) : Option (SlotKind × Piece) :=
 match textOf event "type" with
 | "response.reasoning_summary_text.delta" | "response.reasoning_text.delta" =>
  some (.thinking, .more (textOf event "delta"))
 | "response.reasoning_summary_part.done" => some (.thinking, .more "\n\n")
 | "response.output_text.delta" | "response.refusal.delta" =>
  some (.text, .more (textOf event "delta"))
 | "response.function_call_arguments.delta" => some (.toolCall, .more (textOf event "delta"))
 | "response.function_call_arguments.done" => some (.toolCall, .whole (textOf event "arguments"))
 | _ => none

def added (items : List Item) (key : Option Int) (item : Option Value) : List Item :=
 match itemKind item with
 | none => items
 | some kind => items.map (·.supersede key) ++ [.begun key kind item]

/-- The items after an item is done; one that was not added before begins and ends at once. -/
def finished (items : List Item) (key : Option Int) (item : Option Value) : List Item :=
 match openAt items key with
 | some i => items.modify i (·.finish item)
 | none => (added items key item).modify items.length (·.finish item)

def streamedFor (items : List Item) (key : Option Int) (kind : SlotKind) (piece : Piece) :
 List Item :=
 match openAt items key with
 | some i => items.modify i (·.take kind piece)
 | none => items

def assign (items : List Item) (event : Value) : List Item :=
 let key := (get event "output_index").bind asI64
 match textOf event "type" with
 | "response.output_item.added" => added items key (get event "item")
 | "response.output_item.done" => finished items key (get event "item")
 | _ => match piece event with
  | some (kind, piece) => streamedFor items key kind piece
  | none => items

def itemsOf (events : List Value) : List Item := events.foldl assign []

namespace Item

variable {codec : Codec} {b : Item}

theorem isOpen_iff : b.isOpen = true ↔ b.done = none ∧ b.superseded = false := by
 simp [isOpen]

theorem streamed_more (b : Item) (piece : Piece) :
 (b.more piece).streamed = b.streamed.take piece := by
 rw [streamed, more, foldl_append]
 rfl

theorem take_of_eq {kind : SlotKind} (h : b.kind = kind) (piece : Piece) :
 b.take kind piece = b.more piece := if_pos h

theorem take_of_ne {kind : SlotKind} (h : b.kind ≠ kind) (piece : Piece) :
 b.take kind piece = b := if_neg h

variable {item : Option Value}

theorem finish_of_eq (h : itemKind item = some b.kind) : b.finish item = b.ended item := if_pos h

theorem finish_of_ne (h : itemKind item ≠ some b.kind) : b.finish item = b := if_neg h

theorem buffer_of_ne (h : b.kind ≠ .toolCall) : b.buffer = none := if_neg fun hk => h hk.1

theorem buffer_more (h : b.kind ≠ .toolCall) (piece : Piece) :
 (b.more piece).buffer = b.buffer := by
 rw [buffer_of_ne h, buffer_of_ne (b := b.more piece) h]

theorem claims_supersede (key : Option Int) (b : Item) (k : Option Int) (slot : SlotKind × Nat) :
 (b.supersede key).claims k slot ↔ k ≠ key ∧ b.claims k slot := by
 unfold supersede
 split
 next hk =>
  subst hk
  simp only [claims, isOpen_iff]
  constructor
  · rintro ⟨⟨-, h⟩, -, -⟩
    simp at h
  · rintro ⟨hne, -, hk, -⟩
    exact absurd hk.symm hne
 next hk =>
  constructor
  · rintro ⟨ho, rfl, hs⟩
    exact ⟨hk, ho, rfl, hs⟩
  · exact fun h => h.2

theorem content_supersede (key : Option Int) (b : Item) :
 (b.supersede key).content codec = b.content codec := by
 unfold supersede
 split <;> rfl

theorem changes_supersede (key : Option Int) (b : Item) :
 (b.supersede key).changes codec = b.changes codec := by
 unfold supersede
 split <;> rfl

theorem buffer_supersede (key : Option Int) (b : Item) : (b.supersede key).buffer = b.buffer := by
 unfold supersede
 split <;> rfl

theorem changes_more (h : b.done = none) {piece : Piece} {deltas : List String}
 (hd : (b.streamed.take piece).deltas = b.streamed.deltas ++ deltas) :
 (b.more piece).changes codec = b.changes codec ++ deltas.map (.delta b.kind) := by
 rw [changes, changes, streamed_more, hd]
 simp [more, h]

theorem changes_ended (h : b.done = none) (item : Option Value) : (b.ended item).changes codec
  = b.changes codec ++ [((b.ended item).content codec).final] := by
 rw [changes, changes, show (b.ended item).streamed = b.streamed from rfl]
 simp [h, ended]

end Item

end Responses

/-! ## The processor -/

namespace ResponsesStreamProcessor

open Responses Journal OrdMap

/-- The message, the events, the slots and the argument texts are what the items say. -/
structure Assembled (codec : Codec) (p : ResponsesStreamProcessor) (items : List Item) : Prop where
 shows : Shows (Item.content codec) (Item.changes codec) Change.isStart items
  (p.output.content.map unsigned) (journal p.events)
 slots : Finds Prod.snd Item.claims p.slots items
 partialJson : Holds Item.buffer p.partialJson items

variable {codec : Codec}

theorem assembled_new (model : Model) (timestamp : Int) (max : Nat) :
 Assembled codec ((new model (.pending model timestamp)).withMaxToolArgumentWhitespace max) [] where
 shows := .nil
 slots := .nil
 partialJson := .nil

variable {items : List Item} {p q p' : ResponsesStreamProcessor} {b : Item} {i : Nat}
 {key : Option Int}

theorem Assembled.find (hp : Assembled codec p items) (key : Option Int) :
 (get? p.slots key = none ∧ openAt items key = none)
  ∨ ∃ i b, items[i]? = some b ∧ b.isOpen = true ∧ b.key = key
   ∧ get? p.slots key = some (b.kind, i) ∧ openAt items key = some i := by
 cases h : openAt items key with
 | none =>
  refine .inl ⟨?_, rfl⟩
  cases hs : get? p.slots key with
  | none => rfl
  | some slot =>
   obtain ⟨b, hb, ho, hk, -⟩ := (hp.slots key slot).mp hs
   have := findIdx?_eq_none_iff.mp h b (mem_of_getElem? hb)
   simp [ho, hk] at this
 | some i =>
  obtain ⟨hlt, hb, -⟩ := findIdx?_eq_some_iff_getElem.mp h
  simp only [Bool.and_eq_true, decide_eq_true_eq] at hb
  refine .inr ⟨i, items[i], getElem?_eq_getElem hlt, hb.1, hb.2, ?_, rfl⟩
  exact (hp.slots key (items[i].kind, i)).mpr ⟨items[i], getElem?_eq_getElem hlt, hb.1, hb.2, rfl⟩

theorem Assembled.block (hp : Assembled codec p items) (hb : items[i]? = some b) :
 ∃ block, p.output.content[i]? = some block ∧ block.unsigned = b.content codec := by
 have := hp.shows.part hb
 rw [getElem?_map] at this
 exact Option.map_eq_some_iff.mp this

theorem Assembled.of_eq (hp : Assembled codec p items) (hcontent : q.output.content.map unsigned
  = p.output.content.map unsigned) (hevents : q.events = p.events)
 (hslots : q.slots = p.slots) (hjson : q.partialJson = p.partialJson) :
 Assembled codec q items where
 shows := by rw [hcontent, hevents]; exact hp.shows
 slots := hslots ▸ hp.slots
 partialJson := hjson ▸ hp.partialJson

theorem modifyBlock_content {block : AssistantContentBlock} (h : p.output.content[i]? = some block)
 (f : AssistantContentBlock → AssistantContentBlock) :
 (p.modifyBlock i f).output.content = p.output.content.set i (f block) := by
 rw [modifyBlock, modify_eq_set h]

variable {block' : AssistantContentBlock}

theorem Assembled.change {b' : Item} {xs : List Change} (hp : Assembled codec p items)
 (hb : items[i]? = some b) (hl : b'.changes codec = b.changes codec ++ xs)
 (hx : ∀ x ∈ xs, x.isStart = false)
 (hcontent : p'.output.content = p.output.content.set i block')
 (hblock : block'.unsigned = b'.content codec)
 (hevents : journal p'.events = journal p.events ++ entered i xs)
 (hslots : Finds Prod.snd Item.claims p'.slots (items.set i b'))
 (hjson : Holds Item.buffer p'.partialJson (items.set i b')) :
 Assembled codec p' (items.set i b') where
 shows := by
  rw [hcontent, map_set, hblock, hevents]
  exact hp.shows.change hb hl hx
 slots := hslots
 partialJson := hjson

/-! ### What is streamed for an item -/

theorem Assembled.appendThinking (hp : Assembled codec p items) (hb : items[i]? = some b)
 (ho : b.isOpen = true) (hk : b.kind = .thinking) (delta : String) :
 Assembled codec (p.appendThinking i delta) (items.set i (b.more (.more delta))) := by
 have hdone := (Item.isOpen_iff.mp ho).1
 obtain ⟨block, hget, hblock⟩ := hp.block hb
 refine hp.change hb (Item.changes_more hdone rfl) (by simp [Change.isStart])
  (modifyBlock_content hget _) ?_ ?_ (hp.slots.keep hb fun _ _ => Iff.rfl)
  (hp.partialJson.keep hb (Item.buffer_more (by simp [hk]) _))
 · rw [Item.content, hk] at hblock
   rw [Item.content, show (b.more (.more delta)).kind = .thinking from hk]
   cases block with
   | text _ | toolCall _ => simp [unsigned] at hblock
   | thinking block =>
    simp only [unsigned, thinking.injEq, ThinkingContent.mk.injEq] at hblock ⊢
    refine ⟨?_, trivial, hblock.2.2⟩
    rw [hblock.1, Item.thought, hdone, Item.thought, show (b.more (.more delta)).done = none
     from hdone, Item.text, Item.text, Item.streamed_more]
    exact (join_append _ _).symm
 · rw [hk]
   exact journal_snoc _ _

theorem Assembled.appendText (hp : Assembled codec p items) (hb : items[i]? = some b)
 (ho : b.isOpen = true) (hk : b.kind = .text) (delta : String) :
 Assembled codec (p.appendText i delta) (items.set i (b.more (.more delta))) := by
 have hdone := (Item.isOpen_iff.mp ho).1
 obtain ⟨block, hget, hblock⟩ := hp.block hb
 refine hp.change hb (Item.changes_more hdone rfl) (by simp [Change.isStart])
  (modifyBlock_content hget _) ?_ ?_ (hp.slots.keep hb fun _ _ => Iff.rfl)
  (hp.partialJson.keep hb (Item.buffer_more (by simp [hk]) _))
 · rw [Item.content, hk] at hblock
   rw [Item.content, show (b.more (.more delta)).kind = .text from hk]
   cases block with
   | thinking _ | toolCall _ => simp [unsigned] at hblock
   | text block =>
    simp only [unsigned, AssistantContentBlock.text.injEq] at hblock ⊢
    rw [hblock, Item.message, hdone, Item.message, show (b.more (.more delta)).done = none
     from hdone]
    simp only [TextContent.new, TextContent.mk.injEq, and_true]
    rw [Item.text, Item.text, Item.streamed_more]
    exact (join_append _ _).symm
 · rw [hk]
   exact journal_snoc _ _

theorem checkArgumentDelta_ok {delta : String} (h : p.checkArgumentDelta i delta = .ok q) :
 ∃ scans, q = { p with scans } := by
 obtain ⟨scan, -, h⟩ := bind_ok h
 exact ⟨_, (ok.inj h).symm⟩

theorem Assembled.held (hp : Assembled codec p items) (hb : items[i]? = some b)
 (hdone : b.done = none) (hk : b.kind = .toolCall) :
 get? p.partialJson i = some b.streamed.arguments := by
 rw [hp.partialJson i, hb, Option.bind_some, Item.buffer, if_pos ⟨hk, hdone⟩]

theorem Assembled.callBlock (hp : Assembled codec p items) (hb : items[i]? = some b)
 (hk : b.kind = .toolCall) : p.output.content[i]? = some (.toolCall (b.call codec)) := by
 obtain ⟨block, hget, hblock⟩ := hp.block hb
 rw [Item.content, hk] at hblock
 cases block with
 | text _ | thinking _ => simp [unsigned] at hblock
 | toolCall call =>
  simp only [unsigned, toolCall.injEq] at hblock
  rw [hget, hblock]

theorem setArguments_content {call : ToolCall} {arguments : StreamingJsonObject}
 (h : p.output.content[i]? = some (.toolCall call))
 (ha : get? p.partialJson i = some arguments) :
 (p.setArguments codec i).output.content
  = p.output.content.set i (.toolCall { call with arguments := arguments.object codec }) := by
 rw [setArguments, modifyBlock_content h, ha]
 rfl

section

variable (hp : Assembled codec p items)

include hp

section

variable (hb : items[i]? = some b)

include hb

/-- A call's arguments go on: their text is held, and they are shown as far as they go. -/
theorem Assembled.moreArguments {piece : Piece} {deltas : List String}
 (hdone : b.done = none)
 (hk : b.kind = .toolCall) (hd : (b.streamed.take piece).deltas = b.streamed.deltas ++ deltas)
 (hcontent : p'.output.content = p.output.content.set i (.toolCall
  { b.call codec with arguments := (b.streamed.take piece).arguments.object codec }))
 (hevents : journal p'.events = journal p.events ++ entered i (deltas.map (.delta .toolCall)))
 (hslots : p'.slots = p.slots)
 (hjson : p'.partialJson = OrdMap.insert p.partialJson i (b.streamed.take piece).arguments) :
 Assembled codec p' (items.set i (b.more piece)) := by
 have hbuffer : (b.more piece).buffer = some (b.streamed.take piece).arguments := by
  rw [Item.buffer, if_pos ⟨hk, hdone⟩, Item.streamed_more]
 refine hp.change hb (Item.changes_more hdone hd) ?_ hcontent ?_ (hk ▸ hevents)
  (hslots ▸ hp.slots.keep hb fun _ _ => Iff.rfl) (hjson ▸ hp.partialJson.insert hb hbuffer)
 · intro x hx
   obtain ⟨delta, -, rfl⟩ := mem_map.mp hx
   rfl
 · have hne : (b.more piece).pieces ≠ [] := by simp [Item.more]
   rw [Item.content, show (b.more piece).kind = .toolCall from hk, Item.call, Item.call, hdone,
    show (b.more piece).done = none from hdone]
   simp only [if_neg hne, Item.streamed_more]
   rfl

section

variable (ho : b.isOpen = true)

include ho

/-- **A delta of a call's arguments.** -/
theorem Assembled.argumentsDelta {delta : String}
 (hk : b.kind = .toolCall)
 (hslot : p.slot key .toolCall = some i) (h : p.argumentsDelta codec key delta = .ok p') :
 Assembled codec p' (items.set i (b.more (.more delta))) := by
 have hdone := (Item.isOpen_iff.mp ho).1
 unfold ResponsesStreamProcessor.argumentsDelta at h
 rw [hslot] at h
 dsimp only at h
 rw [hp.held hb hdone hk] at h
 obtain ⟨q, hq, h⟩ := bind_ok h
 obtain ⟨scans, rfl⟩ := checkArgumentDelta_ok hq
 cases h
 refine hp.moreArguments hb hdone hk rfl ?_ (journal_snoc _ _) rfl rfl
 exact setArguments_content (hp.callBlock hb hk) (by rw [get?_insert_self]; rfl)

/-- **The arguments of a call as a whole.** -/
theorem Assembled.argumentsDone {arguments : String}
 (hk : b.kind = .toolCall)
 (hslot : p.slot key .toolCall = some i) (h : p.argumentsDone codec key arguments = .ok p') :
 Assembled codec p' (items.set i (b.more (.whole arguments))) := by
 have hdone := (Item.isOpen_iff.mp ho).1
 unfold ResponsesStreamProcessor.argumentsDone at h
 rw [hslot] at h
 dsimp only at h
 rw [hp.held hb hdone hk] at h
 dsimp only at h
 split at h
 next rest hrest =>
  obtain ⟨q, hq, h⟩ := bind_ok h
  obtain ⟨scans, rfl⟩ := checkArgumentDelta_ok hq
  cases h
  have hd : (b.streamed.take (.whole arguments)).deltas = b.streamed.deltas ++ [rest] := by
   rw [Streamed.take, Streamed.rest, hrest]
   rfl
  refine hp.moreArguments hb hdone hk hd ?_ (journal_snoc _ _) rfl rfl
  exact setArguments_content (hp.callBlock hb hk) (by rw [get?_insert_self]; rfl)
 next hrest =>
  cases h
  have hd : (b.streamed.take (.whole arguments)).deltas = b.streamed.deltas ++ [] := by
   rw [Streamed.take, Streamed.rest, hrest]
   rfl
  refine hp.moreArguments hb hdone hk hd ?_ (append_nil _).symm rfl rfl
  exact setArguments_content (hp.callBlock hb hk) (by rw [get?_insert_self]; rfl)

/-! ### Items that end and items that begin -/

theorem Assembled.ended {item : Option Value}
 (hcontent : p'.output.content = p.output.content.set i block')
 (hblock : block'.unsigned = (b.ended item).content codec)
 (hevents : journal p'.events = journal p.events ++ [(i, ((b.ended item).content codec).final)])
 (hslots : p'.slots = OrdMap.erase p.slots b.key)
 (hjson : p'.partialJson = OrdMap.erase p.partialJson i
  ∨ (b.kind ≠ .toolCall ∧ p'.partialJson = p.partialJson)) :
 Assembled codec p' (items.set i (b.ended item)) := by
 have hdone := (Item.isOpen_iff.mp ho).1
 have hclosed : ∀ k slot, (b.ended item).claims k slot ↔ k ≠ b.key ∧ b.claims k slot := by
  intro k slot
  constructor
  · rintro ⟨h, -, -⟩
    exact absurd (Item.isOpen_iff.mp h).1 (by simp [Item.ended])
  · rintro ⟨hne, -, hk, -⟩
    exact absurd hk.symm hne
 have hbuffer : (b.ended item).buffer = none := if_neg (by simp [Item.ended])
 refine hp.change hb (Item.changes_ended hdone item) ?_ hcontent hblock hevents ?_ ?_
 · intro x hx
   rw [mem_singleton.mp hx]
   cases (b.ended item).content codec <;> rfl
 · rw [hslots]
   exact hp.slots.release (e := (b.kind, i)) hb rfl ⟨ho, rfl, rfl⟩ hclosed
 · rcases hjson with hjson | ⟨hk, hjson⟩
   · rw [hjson]
     exact hp.partialJson.erase hb hbuffer
   · rw [hjson]
     exact hp.partialJson.keep hb (hbuffer.trans (Item.buffer_of_ne hk).symm)

theorem Assembled.finishReasoning
 (hk : b.kind = .thinking) (item : Option Value) :
 Assembled codec (p.finishReasoning codec b.key item i) (items.set i (b.ended item)) := by
 have hdone := (Item.isOpen_iff.mp ho).1
 obtain ⟨block, hget, hblock⟩ := hp.block hb
 have hkend : (b.ended item).kind = .thinking := hk
 rw [Item.content, hk] at hblock
 cases block with
 | text _ | toolCall _ => simp [unsigned] at hblock
 | thinking block =>
  simp only [unsigned, thinking.injEq, ThinkingContent.mk.injEq, Item.thought, hdone] at hblock
  have hthought : (b.ended item).thought
   = if texts (get item "summary") "\n\n" ≠ "" then texts (get item "summary") "\n\n"
    else if texts (get item "content") "\n\n" ≠ "" then texts (get item "content") "\n\n"
    else block.thinking := by
   rw [hblock.1]
   rfl
  have hcontent : (p.finishReasoning codec b.key item i).output.content
   = p.output.content.set i (.thinking { block with
    thinking := (b.ended item).thought
    thinkingSignature := some (codec.toText (item.getD .null)) }) := by
   rw [hthought]
   unfold ResponsesStreamProcessor.finishReasoning
   cases getStr item "id" <;> exact modifyBlock_content hget _
  have hevents : ∃ text, (p.finishReasoning codec b.key item i).events
    = p.events ++ [.thinkingEnd i text (p.finishReasoning codec b.key item i).output]
   ∧ ∀ block, (p.finishReasoning codec b.key item i).output.content[i]? = some (.thinking block) →
    text = block.thinking := by
   unfold ResponsesStreamProcessor.finishReasoning
   cases getStr item "id" <;> refine ⟨_, rfl, fun block hat => ?_⟩ <;>
    simp only [emit, removeSlot] at hat <;>
    simp only [hat]
  obtain ⟨text, hevents, htext⟩ := hevents
  have hlt := (List.getElem_of_getElem? hget).1
  refine hp.ended hb ho hcontent ?_ ?_ ?_ (.inr ⟨by simp [hk], ?_⟩)
  · rw [Item.content, hkend]
    simp [unsigned, hblock.2.2]
  · rw [hevents, journal_snoc, htext _ (by rw [hcontent, getElem?_set_self hlt]), Item.content,
     hkend]
    rfl
  · unfold ResponsesStreamProcessor.finishReasoning
    cases getStr item "id" <;> rfl
  · unfold ResponsesStreamProcessor.finishReasoning
    cases getStr item "id" <;> rfl

theorem Assembled.finishMessage
 (hk : b.kind = .text) (item : Option Value) :
 Assembled codec (p.finishMessage codec b.key item i) (items.set i (b.ended item)) := by
 obtain ⟨block, hget, hblock⟩ := hp.block hb
 have hkend : (b.ended item).kind = .text := hk
 rw [Item.content, hk] at hblock
 cases block with
 | thinking _ | toolCall _ => simp [unsigned] at hblock
 | text block =>
  refine hp.ended hb ho (modifyBlock_content hget _) ?_ ?_ rfl (.inr ⟨by simp [hk], rfl⟩)
  · rw [Item.content, hkend]
    rfl
  · rw [Item.content, hkend]
    exact journal_snoc _ _

theorem Assembled.finishCall
 (hk : b.kind = .toolCall) (item : Option Value) :
 Assembled codec (p.finishCall codec b.key item i) (items.set i (b.ended item)) := by
 have hdone := (Item.isOpen_iff.mp ho).1
 have hget := hp.callBlock hb hk
 have hkend : (b.ended item).kind = .toolCall := hk
 -- blank text is read like an empty object
 have hsource : codec.parse ((nonEmptyStr item "arguments").getD
  (if b.streamed.arguments.text = "" then "\x7b\x7d" else b.streamed.arguments.text))
  = codec.parse ((b.ended item).source item) := by
  rw [Item.source, show (b.ended item).streamed = b.streamed from rfl]
  cases nonEmptyStr item "arguments" with
  | some text => rfl
  | none =>
   simp only [Option.getD_none]
   split
   next hempty =>
    rw [hempty, codec.parse_braces, codec.parse_empty]
   · rfl
 have hcall : { b.call codec with
  arguments := codec.parse ((nonEmptyStr item "arguments").getD
   (if b.streamed.arguments.text = "" then "\x7b\x7d" else b.streamed.arguments.text))
  namespace_ := (getStr item "namespace").orElse fun _ => (b.call codec).namespace_ }
  = (b.ended item).call codec := by
  rw [hsource, Item.call, Item.call, hdone]
  rfl
 unfold ResponsesStreamProcessor.finishCall
 dsimp only
 rw [hp.held hb hdone hk]
 dsimp only
 rw [hget]
 dsimp only
 rw [hcall]
 refine hp.ended hb ho (modifyBlock_content hget _) ?_ ?_ rfl (.inl rfl)
 · rw [Item.content, hkend]
   rfl
 · rw [Item.content, hkend]
   exact journal_snoc _ _

/-- **An item of its own kind ends an open item;** another one leaves it as it is. -/
theorem Assembled.finishItem
 (item : Option Value) :
 Assembled codec (p.finishItem codec b.key item (b.kind, i)) (items.set i (b.finish item)) := by
 have hsame : items.set i b = items := by
  obtain ⟨hlt, hget⟩ := List.getElem_of_getElem? hb
  rw [← hget, set_getElem_self]
 unfold ResponsesStreamProcessor.finishItem
 split
 next htype hslot =>
  obtain ⟨hk, rfl⟩ := Prod.mk.inj hslot
  rw [Item.finish_of_eq (by rw [itemKind, htype, hk]; rfl)]
  exact hp.finishReasoning hb ho hk item
 next htype hslot =>
  obtain ⟨hk, rfl⟩ := Prod.mk.inj hslot
  rw [Item.finish_of_eq (by rw [itemKind, htype, hk]; rfl)]
  exact hp.finishMessage hb ho hk item
 next htype hslot =>
  obtain ⟨hk, rfl⟩ := Prod.mk.inj hslot
  rw [Item.finish_of_eq (by rw [itemKind, htype, hk]; rfl)]
  exact hp.finishCall hb ho hk item
 next hthinking htext hcall =>
  rw [Item.finish_of_ne, hsame]
  · exact hp
  · intro hkind
    unfold itemKind at hkind
    split at hkind
    next htype =>
     exact hthinking i htype (by rw [← Option.some.inj hkind])
    next htype =>
     exact htext i htype (by rw [← Option.some.inj hkind])
    next htype =>
     exact hcall i htype (by rw [← Option.some.inj hkind])
    · simp at hkind

end

end

end

theorem applyMessagePhase_eq (p : ResponsesStreamProcessor) (item : Option Value) : ∃ stopReason,
  p.applyMessagePhase item = { p with output := { p.output with stopReason } } := by
 unfold applyMessagePhase
 split
 · exact ⟨.stop, rfl⟩
 · exact ⟨p.output.stopReason, rfl⟩

section

variable (hp : Assembled codec p items)

include hp

/-- **An item begins,** and takes its index over. -/
theorem Assembled.createSlot (key : Option Int) (item : Option Value)
 (kind : SlotKind) :
 Assembled codec (p.createSlot codec key item kind)
  (items.map (·.supersede key) ++ [.begun key kind item]) := by
 have hadd := (hp.shows.retold (Item.content_supersede key) (Item.changes_supersede key)).add
  (l := .begun key kind item) (x := .start kind) rfl rfl
 have hlen : p.output.content.length = items.length := by
  rw [← length_map (f := unsigned), hp.shows.parts, length_map]
 obtain ⟨stopReason, hphase⟩ := p.applyMessagePhase_eq item
 have hstart : (startBlock codec item kind).unsigned = (Item.begun key kind item).content codec := by
  cases kind <;> rfl
 rw [length_map] at hadd
 have hclaims : ∀ k slot, slot.2 = items.length →
  ((Item.begun key kind item).claims k slot ↔ k = key ∧ slot = (kind, items.length)) := by
  rintro k ⟨kind', i⟩ hi
  simp only at hi
  subst hi
  simp only [Item.claims, Item.begun, Prod.mk.injEq, and_true]
  constructor
  · rintro ⟨-, rfl, rfl⟩
    exact ⟨rfl, rfl⟩
  · rintro ⟨rfl, rfl⟩
    exact ⟨rfl, rfl, rfl⟩
 have hslots := hp.slots.takeOver (e := (kind, items.length)) (Item.claims_supersede key) rfl hclaims
 have hheld := hp.partialJson.map (Item.buffer_supersede key)
 have hmap : (items.map (·.supersede key)).length = items.length := length_map _
 unfold ResponsesStreamProcessor.createSlot
 rw [hphase]
 dsimp only
 rw [hlen]
 refine ⟨?_, ?_, ?_⟩
 · cases kind <;>
    simpa [emit, journal_snoc, hstart, entered, hlen, AssistantMessageEvent.contentIndex,
     AssistantMessageEvent.change] using hadd
 · cases kind <;> exact hslots
 · cases kind with
   | text | thinking => exact hheld.add rfl
   | toolCall => exact hmap ▸ hheld.addHeld rfl

theorem Assembled.applyMessagePhase (item : Option Value) :
 Assembled codec (p.applyMessagePhase item) items := by
 obtain ⟨stopReason, h⟩ := p.applyMessagePhase_eq item
 rw [h]
 exact hp.of_eq rfl rfl rfl rfl

/-- **An item is added.** -/
theorem Assembled.outputItemAdded {item : Option Value}
 (h : p.outputItemAdded codec key item = .ok p') : Assembled codec p' (added items key item) := by
 unfold ResponsesStreamProcessor.outputItemAdded at h
 split at h
 next hkind =>
  rw [added, hkind]
  exact ok.inj h ▸ hp
 next kind hkind =>
  rw [added, hkind]
  have hslot := hp.createSlot key item kind
  dsimp only at h
  split at h
  · obtain ⟨scans, rfl⟩ := checkArgumentDelta_ok h
    exact hslot.of_eq rfl rfl rfl rfl
  · exact ok.inj h ▸ hslot

/-- **An item is done.** -/
theorem Assembled.outputItemDone (key : Option Int)
 (item : Option Value) :
 Assembled codec (p.outputItemDone codec key item) (finished items key item) := by
 have hphase := hp.applyMessagePhase item
 unfold ResponsesStreamProcessor.outputItemDone finished
 dsimp only
 rcases hphase.find key with ⟨hslot, hopen⟩ | ⟨i, b, hb, ho, rfl, hslot, hopen⟩
 · rw [hslot, hopen]
   dsimp only
   unfold added
   cases hkind : itemKind item with
   | none =>
    dsimp only
    rw [modify_length]
    exact hphase
   | some kind =>
    dsimp only
    have hcreated := hphase.createSlot key item kind
    have hlen : (p.applyMessagePhase item).output.content.length = items.length := by
     rw [← length_map (f := unsigned), hphase.shows.parts, length_map]
    have hb : (items.map (·.supersede key) ++ [Item.begun key kind item])[items.length]?
     = some (Item.begun key kind item) := by simp
    rw [modify_eq_set hb, hlen]
    exact hcreated.finishItem hb rfl item
 · rw [hslot, hopen]
   dsimp only
   rw [modify_eq_set hb]
   exact hphase.finishItem hb ho item

end

theorem map_modify_of_eq {α γ : Type} {g : α → γ} {f : α → α} (h : ∀ x, g (f x) = g x) (l : List α)
 (i : Nat) : (l.modify i f).map g = l.map g := by
 induction l generalizing i with
 | nil => rw [modify_nil]
 | cons x l ih =>
  cases i with
  | zero => rw [modify_zero_cons, map_cons, map_cons, h]
  | succ i => rw [modify_succ_cons, map_cons, map_cons, ih]

theorem backfillItem_eq (p : ResponsesStreamProcessor) (codec : Codec) (item : Value) :
 ∃ content, p.backfillItem codec item = { p with output := { p.output with content } }
  ∧ content.map unsigned = p.output.content.map unsigned := by
 unfold backfillItem
 split
 · exact ⟨p.output.content, rfl, rfl⟩
 · split
   · exact ⟨p.output.content, rfl, rfl⟩
   next index hindex =>
    refine ⟨_, rfl, map_modify_of_eq (fun block => ?_) _ _⟩
    cases block with
    | text _ | toolCall _ => rfl
    | thinking block =>
     dsimp only
     split
     · split <;> rfl
     · rfl

theorem Assembled.backfillReasoning (hp : Assembled codec p items) (output : Option Value) :
 Assembled codec (p.backfillReasoning codec output) items := by
 unfold ResponsesStreamProcessor.backfillReasoning
 induction (output.bind asArray).getD [] generalizing p with
 | nil => exact hp
 | cons item rest ih =>
  obtain ⟨content, h, hsame⟩ := p.backfillItem_eq codec item
  refine ih ?_
  rw [h]
  exact hp.of_eq hsame rfl rfl rfl

theorem Assembled.finalizeResponse {response : Option Value} (hp : Assembled codec p items)
 (h : p.finalizeResponse codec response = .ok p') : Assembled codec p' items := by
 obtain ⟨⟨stopReason, error⟩, -, h⟩ := bind_ok h
 have hfilled := (hp.of_eq (q := { p with sawTerminal := true }) rfl rfl rfl rfl).backfillReasoning
  (get response "output")
 exact ok.inj h ▸ hfilled.of_eq rfl rfl rfl rfl

theorem Assembled.slot (hslot : get? p.slots key = some (b.kind, i)) (kind : SlotKind) :
 p.slot key kind = if b.kind = kind then some i else none := by
 rw [ResponsesStreamProcessor.slot, hslot]
 by_cases h : b.kind = kind <;> simp [h]

/-- **Something is streamed** for the open item with the event's output index, if that is
of the right kind. -/
theorem Assembled.streamed {kind : SlotKind} {piece : Piece} (hp : Assembled codec p items)
 (hnone : p.slot key kind = none → p' = p)
 (hsome : ∀ i b, items[i]? = some b → b.isOpen = true → b.kind = kind →
  p.slot key kind = some i → Assembled codec p' (items.set i (b.more piece))) :
 Assembled codec p' (streamedFor items key kind piece) := by
 unfold streamedFor
 rcases hp.find key with ⟨hslot, hopen⟩ | ⟨i, b, hb, ho, rfl, hslot, hopen⟩
 · rw [hopen, hnone (by rw [ResponsesStreamProcessor.slot, hslot]; rfl)]
   exact hp
 rw [hopen]
 dsimp only
 rw [modify_eq_set hb]
 have hfound := Assembled.slot hslot kind
 by_cases hk : b.kind = kind
 · rw [if_pos hk] at hfound
   have := hsome i b hb ho hk hfound
   simpa [Item.take_of_eq hk] using this
 · rw [if_neg hk] at hfound
   obtain ⟨hlt, hget⟩ := List.getElem_of_getElem? hb
   rw [hnone hfound, Item.take_of_ne hk, ← hget, set_getElem_self]
   exact hp

/-- **Every event changes the items as it is assigned.** -/
theorem Assembled.event {event : Value} (hp : Assembled codec p items)
 (h : p.handleEvent codec event = .ok p') : Assembled codec p' (assign items event) := by
 have hthinking : ∀ {delta : String} {q : ResponsesStreamProcessor},
  (match p.slot ((get event "output_index").bind asI64) .thinking with
   | some index => ok (p.appendThinking index delta)
   | none => .ok p) = (.ok q : Except String ResponsesStreamProcessor) →
  Assembled codec q (streamedFor items ((get event "output_index").bind asI64) .thinking
   (.more delta)) := by
  intro delta q h
  refine hp.streamed (fun hnone => ?_) fun i b hb ho hk hslot => ?_
  · rw [hnone] at h
    exact (ok.inj h).symm
  · rw [hslot] at h
    exact ok.inj h ▸ hp.appendThinking hb ho hk delta
 have htext : ∀ {delta : String} {q : ResponsesStreamProcessor},
  (match p.slot ((get event "output_index").bind asI64) .text with
   | some index => ok (p.appendText index delta)
   | none => .ok p) = (.ok q : Except String ResponsesStreamProcessor) →
  Assembled codec q (streamedFor items ((get event "output_index").bind asI64) .text
   (.more delta)) := by
  intro delta q h
  refine hp.streamed (fun hnone => ?_) fun i b hb ho hk hslot => ?_
  · rw [hnone] at h
    exact (ok.inj h).symm
  · rw [hslot] at h
    exact ok.inj h ▸ hp.appendText hb ho hk delta
 unfold handleEvent at h
 unfold assign piece
 dsimp only at h ⊢
 split at h
 next htype =>
  rw [htype]
  exact ok.inj h ▸ hp.of_eq rfl rfl rfl rfl
 next htype =>
  rw [htype]
  exact hp.outputItemAdded h
 next htype =>
  rw [htype]
  exact hthinking h
 next htype =>
  rw [htype]
  exact hthinking h
 next htype =>
  rw [htype]
  exact hthinking h
 next htype =>
  rw [htype]
  exact htext h
 next htype =>
  rw [htype]
  exact htext h
 next htype =>
  rw [htype]
  refine hp.streamed (fun hnone => ?_) fun i b hb ho hk hslot => hp.argumentsDelta hb ho hk hslot h
  rw [ResponsesStreamProcessor.argumentsDelta, hnone] at h
  exact (ok.inj h).symm
 next htype =>
  rw [htype]
  refine hp.streamed (fun hnone => ?_) fun i b hb ho hk hslot => hp.argumentsDone hb ho hk hslot h
  rw [ResponsesStreamProcessor.argumentsDone, hnone] at h
  exact (ok.inj h).symm
 next htype =>
  rw [htype]
  exact ok.inj h ▸ hp.outputItemDone _ _
 next htype =>
  rw [htype]
  exact hp.finalizeResponse h
 next htype =>
  rw [htype]
  exact hp.finalizeResponse h
 · simp at h
 · simp at h
 · obtain rfl := ok.inj h
   split
   · exact absurd ‹_› ‹_›
   · exact absurd ‹_› ‹_›
   · have hnone : ∀ o : Option (SlotKind × Piece), o = none → Assembled codec p (match o with
       | some (kind, piece) =>
        streamedFor items ((get event "output_index").bind asI64) kind piece
       | none => items) := fun o ho => by rw [ho]; exact hp
     refine hnone _ ?_
     split <;> first | rfl | exact absurd ‹_› ‹_›

/-- **What the processor holds is what the items of the stream say,** whatever order their
events come in. -/
theorem Assembled.events {events : List Value} (hp : Assembled codec p items)
 (h : p.handleEvents codec events = .ok p') : Assembled codec p' (events.foldl assign items) := by
 induction events generalizing p items with
 | nil => exact ok.inj h ▸ hp
 | cons event events ih =>
  rw [handleEvents, foldlM_cons] at h
  obtain ⟨q, hq, h⟩ := bind_ok h
  exact ih (hp.event hq) h

end ResponsesStreamProcessor

end Bake.Ai
