import Bake.Ai.Finished
import Bake.Ai.CompletionsBlocks

/-!
# Parallel blocks are assembled independently

In a well-formed stream every event names the block it is for. However the events of
different blocks come mixed, the message has one block for each of the stream, in the order
they begin, each made of its own events; and what is emitted for each is its start, its
deltas, and its end with what it then holds.
-/

open List OrdMap

namespace Bake.Ai

open Bake.Json ResponsesStreamProcessor Completions.Block AssistantContentBlock

/-! ## Anthropic -/

namespace Anthropic

def isBlockEvent (event : Value) : Bool :=
 textOf event "type" = "content_block_start" || textOf event "type" = "content_block_delta"
  || textOf event "type" = "content_block_stop"

def Free (blocks : List Block) (index : Int) : Prop :=
 ∀ b ∈ blocks, b.closed = false → b.index ≠ index

/-- Streams in which a block starts before its deltas and its stop, under an index no open
block has; and the blocks of the stream. A block of a kind that is not assembled is none. -/
inductive Streams (codec : Codec) (isOauth : Bool) (tools : List Tool) :
 List Value → List Block → Prop where
 | nil : Streams codec isOauth tools [] []
 | start {events : List Value} {blocks : List Block} {event : Value}
  {start : AssistantContentBlock} : Streams codec isOauth tools events blocks →
  textOf event "type" = "content_block_start" →
  startContent codec isOauth tools (get event "content_block") = some start →
  Free blocks (providerIndex event) →
  Streams codec isOauth tools (events ++ [event]) (blocks ++ [.begun (providerIndex event) start])
 | delta {events : List Value} {blocks : List Block} {event : Value} {i : Nat} {b : Block} :
  Streams codec isOauth tools events blocks →
  textOf event "type" = "content_block_delta" → blocks[i]? = some b → b.closed = false →
  b.index = providerIndex event →
  Streams codec isOauth tools (events ++ [event]) (blocks.set i (b.extend (get event "delta")))
 | stop {events : List Value} {blocks : List Block} {event : Value} {i : Nat} {b : Block} :
  Streams codec isOauth tools events blocks →
  textOf event "type" = "content_block_stop" → blocks[i]? = some b → b.closed = false →
  b.index = providerIndex event →
  Streams codec isOauth tools (events ++ [event]) (blocks.set i b.close)
 | unassembled {events : List Value} {blocks : List Block} {event : Value} :
  Streams codec isOauth tools events blocks → isBlockEvent event = true →
  startContent codec isOauth tools (get event "content_block") = none →
  Free blocks (providerIndex event) → Streams codec isOauth tools (events ++ [event]) blocks
 | other {events : List Value} {blocks : List Block} {event : Value} :
  Streams codec isOauth tools events blocks → isBlockEvent event = false →
  Streams codec isOauth tools (events ++ [event]) blocks

variable {codec : Codec} {isOauth : Bool} {tools : List Tool}

/-- Two open blocks have two indices. -/
def Apart (blocks : List Block) : Prop :=
 ∀ (i j : Nat) (b c : Block), blocks[i]? = some b → blocks[j]? = some c → b.closed = false →
  c.closed = false → b.index = c.index → i = j

variable {blocks : List Block}

theorem Apart.firstOpen (h : Apart blocks) {i : Nat} {b : Block} (hb : blocks[i]? = some b)
 (hc : b.closed = false) : firstOpen blocks b.index = some i := by
 rcases firstOpen_cases blocks b.index with ⟨-, hne⟩ | 
  ⟨before, c, after, hblocks, hcc, hindex, hfirst, -⟩
 · exact absurd rfl (hne b (mem_of_getElem? hb) hc)
 · have hget : blocks[before.length]? = some c := by rw [hblocks]; simp
   rw [hfirst, h before.length i c b hget hb hcc hc hindex]

theorem Apart.set (h : Apart blocks) {i : Nat} {b b' : Block} (hb : blocks[i]? = some b)
 (hopen : b'.closed = false → b.closed = false) (hindex : b'.index = b.index) :
 Apart (blocks.set i b') := by
 have hold : ∀ (j : Nat) (c : Block), (blocks.set i b')[j]? = some c → c.closed = false →
  ∃ c', blocks[j]? = some c' ∧ c'.closed = false ∧ c'.index = c.index := by
  intro j c hc hclosed
  rcases getElem?_set_some hc with ⟨rfl, rfl⟩ | ⟨-, hc⟩
  · exact ⟨b, hb, hopen hclosed, hindex.symm⟩
  · exact ⟨c, hc, hclosed, rfl⟩
 intro j k c d hc hd hcc hdc he
 obtain ⟨c', hc', hcc', hci⟩ := hold j c hc hcc
 obtain ⟨d', hd', hdc', hdi⟩ := hold k d hd hdc
 exact h j k c' d' hc' hd' hcc' hdc' (by rw [hci, hdi, he])

theorem Apart.snoc (h : Apart blocks) {b : Block} (hfree : Free blocks b.index) :
 Apart (blocks ++ [b]) := by
 intro j k c d hc hd hcc hdc he
 rcases getElem?_snoc_some hc with ⟨hj, hcb⟩ | ⟨hj, hc⟩
 · rcases getElem?_snoc_some hd with ⟨hk, hdb⟩ | ⟨hk, hd⟩
   · rw [hj, hk]
   · exact absurd (hcb ▸ he).symm (hfree d (mem_of_getElem? hd) hdc)
 · rcases getElem?_snoc_some hd with ⟨hk, hdb⟩ | ⟨hk, hd⟩
   · exact absurd (hdb ▸ he) (hfree c (mem_of_getElem? hc) hcc)
   · exact h j k c d hc hd hcc hdc he

theorem apart_of_streams {events : List Value} (hs : Streams codec isOauth tools events blocks) :
 Apart blocks := by
 induction hs with
 | nil => exact fun i j b c hb => absurd hb (by simp)
 | start hs htype hstart hfree ih => exact ih.snoc hfree
 | delta hs htype hb hc hindex ih | stop hs htype hb hc hindex ih =>
  exact ih.set hb (fun _ => hc) rfl
 | unassembled hs hblock hstart hfree ih | other hs hblock ih => exact ih

theorem Free.firstOpen {index : Int} (h : Free blocks index) : firstOpen blocks index = none := by
 rcases firstOpen_cases blocks index with ⟨hnone, -⟩ | ⟨before, b, after, rfl, hc, hindex, -, -⟩
 · exact hnone
 · exact absurd hindex (h b (by simp) hc)

/-- **The blocks of a well-formed stream are those its events are assigned to.** -/
theorem blocksOf_eq {events : List Value} (hs : Streams codec isOauth tools events blocks) :
 blocksOf codec isOauth tools events = blocks := by
 have hsnoc : ∀ (events : List Value) (event : Value),
  blocksOf codec isOauth tools (events ++ [event])
   = assign codec isOauth tools (blocksOf codec isOauth tools events) event :=
  fun events event => foldl_concat ..
 induction hs with
 | nil => rfl
 | start hs htype hstart hfree ih =>
  simp only [hsnoc, ih, assign, htype, hstart]
 | delta hs htype hb hc hindex ih | stop hs htype hb hc hindex ih =>
  simp only [hsnoc, ih, assign, htype, ← hindex, (apart_of_streams hs).firstOpen hb hc,
   modify_eq_set hb]
 | unassembled hs hblock hstart hfree ih =>
  rw [hsnoc, ih, assign, hstart, hfree.firstOpen]
  split <;> rfl
 | other hs hblock ih =>
  simp only [isBlockEvent, Bool.or_eq_false_iff, decide_eq_false_iff_not] at hblock
  rw [hsnoc, ih, assign]
  split
  · exact absurd ‹_› hblock.1.1
  · exact absurd ‹_› hblock.1.2
  · exact absurd ‹_› hblock.2
  · rfl

end Anthropic

/-! ## Responses -/

namespace Responses

def outputIndex (event : Value) : Option Int := (get event "output_index").bind asI64

/-- Streams in which an item is added before what is streamed for it and before it is done,
under an index no other item has; and the items of the stream. An item of a kind that is
not assembled is none. -/
inductive Streams : List Value → List Item → Prop where
 | nil : Streams [] []
 | added {events : List Value} {items : List Item} {event : Value} {kind : SlotKind} :
  Streams events items → textOf event "type" = "response.output_item.added" →
  itemKind (get event "item") = some kind → (∀ b ∈ items, b.key ≠ outputIndex event) →
  Streams (events ++ [event]) (items ++ [.begun (outputIndex event) kind (get event "item")])
 | streamed {events : List Value} {items : List Item} {event : Value} {i : Nat} {b : Item}
  {piece : Piece} : Streams events items → Responses.piece event = some (b.kind, piece) →
  items[i]? = some b → b.done = none → b.key = outputIndex event →
  Streams (events ++ [event]) (items.set i (b.more piece))
 | done {events : List Value} {items : List Item} {event : Value} {i : Nat} {b : Item} :
  Streams events items → textOf event "type" = "response.output_item.done" →
  items[i]? = some b → b.done = none → b.key = outputIndex event →
  itemKind (get event "item") = some b.kind →
  Streams (events ++ [event]) (items.set i (b.ended (get event "item")))
 | unassembled {events : List Value} {items : List Item} {event : Value} :
  Streams events items → itemKind (get event "item") = none →
  (∀ b ∈ items, b.key ≠ outputIndex event) → Streams (events ++ [event]) items
 | other {events : List Value} {items : List Item} {event : Value} : Streams events items →
  isItemEvent event = false → Responses.piece event = none →
  Streams (events ++ [event]) items

/-- Items have indices of their own, and none was taken over. -/
def Apart (items : List Item) : Prop := (∀ b ∈ items, b.superseded = false)
  ∧ ∀ (i j : Nat) (b c : Item), items[i]? = some b → items[j]? = some c → b.key = c.key → i = j

variable {items : List Item}

theorem Apart.set (h : Apart items) {i : Nat} {b b' : Item} (hb : items[i]? = some b)
 (hs : b'.superseded = b.superseded) (hk : b'.key = b.key) : Apart (items.set i b') := by
 refine ⟨fun c hc => ?_, ?_⟩
 · rcases mem_or_eq_of_mem_set hc with hc | rfl
   · exact h.1 c hc
   · exact hs.trans (h.1 b (mem_of_getElem? hb))
 · have hold : ∀ (j : Nat) (c : Item), (items.set i b')[j]? = some c →
    ∃ c', items[j]? = some c' ∧ c'.key = c.key := by
    intro j c hc
    rcases getElem?_set_some hc with ⟨rfl, rfl⟩ | ⟨-, hc⟩
    · exact ⟨b, hb, hk.symm⟩
    · exact ⟨c, hc, rfl⟩
   intro j k c d hc hd he
   obtain ⟨c', hc', hck⟩ := hold j c hc
   obtain ⟨d', hd', hdk⟩ := hold k d hd
   exact h.2 j k c' d' hc' hd' (by rw [hck, hdk, he])

theorem Apart.snoc (h : Apart items) {b : Item} (hs : b.superseded = false)
 (hfree : ∀ c ∈ items, c.key ≠ b.key) : Apart (items ++ [b]) := by
 refine ⟨fun c hc => ?_, ?_⟩
 · rcases mem_append.mp hc with hc | hc
   · exact h.1 c hc
   · exact mem_singleton.mp hc ▸ hs
 · intro j k c d hc hd he
   rcases getElem?_snoc_some hc with ⟨hj, hcb⟩ | ⟨hj, hc⟩
   · rcases getElem?_snoc_some hd with ⟨hk, hdb⟩ | ⟨hk, hd⟩
     · rw [hj, hk]
     · exact absurd (hcb ▸ he).symm (hfree d (mem_of_getElem? hd))
   · rcases getElem?_snoc_some hd with ⟨hk, hdb⟩ | ⟨hk, hd⟩
     · exact absurd (hdb ▸ he) (hfree c (mem_of_getElem? hc))
     · exact h.2 j k c d hc hd he

theorem apart_of_streams {events : List Value} (hs : Streams events items) : Apart items := by
 induction hs with
 | nil => exact ⟨fun b hb => absurd hb (by simp), fun i j b c hb => absurd hb (by simp)⟩
 | added hs htype hkind hfree ih => exact ih.snoc rfl hfree
 | streamed hs hpiece hb hdone hkey ih | done hs htype hb hdone hkey hkind ih =>
  exact ih.set hb rfl rfl
 | unassembled hs hkind hfree ih | other hs hitem hpiece ih => exact ih

theorem Apart.openAt (h : Apart items) {i : Nat} {b : Item} (hb : items[i]? = some b)
 (hdone : b.done = none) : openAt items b.key = some i := by
 have hlt : i < items.length := (List.getElem_of_getElem? hb).1
 have hget := (List.getElem_of_getElem? hb).2
 refine findIdx?_eq_some_iff_getElem.mpr ⟨hlt, ?_, fun j hj => ?_⟩
 · rw [hget, Item.isOpen_iff.mpr ⟨hdone, h.1 b (mem_of_getElem? hb)⟩]
   simp
 · have hjlt : j < items.length := Nat.lt_trans hj hlt
   intro hc
   simp only [Bool.and_eq_true, decide_eq_true_eq] at hc
   have := h.2 j i _ b (getElem?_eq_getElem hjlt) hb hc.2
   omega

theorem openAt_none {key : Option Int} (h : ∀ b ∈ items, b.key ≠ key) : openAt items key = none :=
 findIdx?_eq_none_iff.mpr fun b hb => by simp [h b hb]

theorem map_supersede {key : Option Int} (h : ∀ b ∈ items, b.key ≠ key) :
 items.map (·.supersede key) = items := by
 refine (map_congr_left fun b hb => ?_).trans (map_id items)
 exact if_neg (h b hb)

theorem isItemEvent_of_piece {event : Value} {kind : SlotKind} {piece : Piece}
 (h : Responses.piece event = some (kind, piece)) :
 isItemEvent event = false := by
 cases hitem : isItemEvent event with
 | false => rfl
 | true =>
  simp only [isItemEvent, Bool.or_eq_true, decide_eq_true_eq] at hitem
  unfold Responses.piece at h
  rcases hitem with htype | htype
  all_goals
   rw [htype] at h
   simp at h

/-- **The items of a well-formed stream are those its events are assigned to.** -/
theorem itemsOf_eq {events : List Value} (hs : Streams events items) : itemsOf events = items := by
 have hsnoc : ∀ (events : List Value) (event : Value),
  itemsOf (events ++ [event]) = assign (itemsOf events) event :=
  fun events event => foldl_concat ..
 have hplain : ∀ (items : List Item) {event : Value}, isItemEvent event = false →
  assign items event = (Responses.piece event).elim items fun found =>
   streamedFor items (outputIndex event) found.1 found.2 := by
  intro items event h
  simp only [isItemEvent, Bool.or_eq_false_iff, decide_eq_false_iff_not] at h
  unfold assign
  dsimp only
  split
  · exact absurd ‹_› h.1
  · exact absurd ‹_› h.2
  · cases Responses.piece event <;> rfl
 induction hs with
 | nil => rfl
 | added hs htype hkind hfree ih =>
  rw [hsnoc, ih, assign, htype]
  show added _ (outputIndex _) _ = _
  rw [Responses.added, hkind]
  dsimp only
  rw [map_supersede hfree]
 | streamed hs hpiece hb hdone hkey ih =>
  rw [hsnoc, ih, hplain _ (isItemEvent_of_piece hpiece), hpiece, Option.elim_some]
  simp only [streamedFor, ← hkey, (apart_of_streams hs).openAt hb hdone,
   modify_eq_set hb, Item.take_of_eq rfl]
 | done hs htype hb hdone hkey hkind ih =>
  rw [hsnoc, ih, assign, htype]
  show finished _ (outputIndex _) _ = _
  simp only [finished, ← hkey, (apart_of_streams hs).openAt hb hdone,
   modify_eq_set hb, Item.finish_of_eq hkind]
 | @unassembled events items event hs hkind hfree ih =>
  rw [hsnoc, ih]
  cases hitem : isItemEvent event with
  | false =>
   rw [hplain _ hitem]
   cases Responses.piece event with
   | none => rfl
   | some found => rw [Option.elim_some, streamedFor, openAt_none hfree]
  | true =>
   simp only [isItemEvent, Bool.or_eq_true, decide_eq_true_eq] at hitem
   rcases hitem with htype | htype
   · rw [assign, htype]
     show added _ _ _ = _
     rw [Responses.added, hkind]
   · rw [assign, htype]
     show finished _ (outputIndex _) _ = _
     rw [finished, openAt_none hfree]
     dsimp only
     rw [Responses.added, hkind]
     exact modify_length _ _
 | other hs hitem hpiece ih =>
  rw [hsnoc, ih, hplain _ hitem, hpiece, Option.elim_none]

end Responses

/-! ## The three processors -/

/-- **Parallel blocks are assembled independently:** in an accepted well-formed stream the
message has one block for each of the stream, in the order they begin, made of its own
events; and what is emitted under each block's number is its start, its deltas and its end,
the starts in the order of the numbers. -/
theorem blocks_assembled (codec : Codec) (model : Model) (timestamp : Int) (max : Nat) :
 (∀ (isOauth : Bool) (tools : List Tool) (events : List Value) (blocks : List Anthropic.Block)
  (p : AnthropicStreamProcessor),
  Anthropic.Streams codec isOauth tools events blocks →
  ((AnthropicStreamProcessor.new model (.pending model timestamp) isOauth
   tools).withMaxToolArgumentWhitespace max).handleEvents codec events = .ok p →
  Journal.Shows (Anthropic.Block.content codec) (Anthropic.Block.changes codec) Change.isStart
   blocks p.output.content (journal p.events))
 ∧ (∀ (events : List Value) (items : List Responses.Item) (p : ResponsesStreamProcessor),
  Responses.Streams events items →
  ((new model
   (.pending model timestamp)).withMaxToolArgumentWhitespace max).handleEvents codec events
    = .ok p →
  Journal.Shows (Responses.Item.content codec) (Responses.Item.changes codec) Change.isStart
   items (p.output.content.map unsigned) (journal p.events))
 ∧ (∀ (chunks : List Value) (blocks : List Completions.Block) (p : CompletionsStreamProcessor),
  Completions.Streams (chunks.flatMap Completions.piecesOf) blocks →
  Completions.OneIndex blocks →
  ((CompletionsStreamProcessor.new model
   (.pending model timestamp)).withMaxToolArgumentWhitespace max).handleChunks codec chunks
    = .ok p →
  Journal.Shows (content codec) (changes codec) Change.isStart (blocks.map finish)
   ((p.finishBlocks codec).output.content.map unsigned)
   (journal (p.finishBlocks codec).events)) := by
 refine ⟨fun isOauth tools events blocks p hs h => ?_, fun events items p hs h => ?_,
  fun chunks blocks p hs hone h => ?_⟩
 · have hevents := ((AnthropicStreamProcessor.assembled_new model timestamp isOauth tools
    max).events h).shows
   rw [show events.foldl (Anthropic.assign codec isOauth tools) [] = blocks
    from Anthropic.blocksOf_eq hs] at hevents
   exact hevents
 · have hevents := ((assembled_new model timestamp max).events h).shows
   rw [show events.foldl Responses.assign [] = items from Responses.itemsOf_eq hs] at hevents
   exact hevents
 · rw [CompletionsStreamProcessor.handleChunks_eq] at h
   have hpieces := CompletionsStreamProcessor.Assembled.pieces hs hone
    (CompletionsStreamProcessor.assembled_new model timestamp max) h
   exact (hpieces.finishBlocks (CompletionsStreamProcessor.unfinished_of_streams hs)).shows

def indexed (type key : String) (index : UInt64) (members : List (String × Value)) : Value :=
 event type ((key, .number (.posInt index)) :: members)

def startsText : Value :=
 indexed "content_block_start" "index" 0 [("content_block", event "text" [("text", .string "")])]

def startsCall : Value :=
 indexed "content_block_start" "index" 1 [("content_block",
  event "tool_use" [("id", .string "t"), ("name", .string "bash")])]

/-- More text, while the call is open. -/
def deltaText : Value :=
 indexed "content_block_delta" "index" 0
  [("delta", event "text_delta" [("text", .string "hi")])]

def stopsCall : Value := indexed "content_block_stop" "index" 1 []

def addsMessage : Value :=
 indexed "response.output_item.added" "output_index" 0 [("item", event "message" [])]

def addsCall : Value :=
 indexed "response.output_item.added" "output_index" 1 [("item", functionCall)]

/-- More text, while the call is open. -/
def streamsText : Value :=
 indexed "response.output_text.delta" "output_index" 0 [("delta", .string "hi")]

def endsCall : Value :=
 indexed "response.output_item.done" "output_index" 1 [("item", functionCall)]

def callChunk (deltas : List Value) : Value :=
 .object [("choices", .array [.object [("delta", .object [("tool_calls", .array deltas)])]])]

/-- The call `a` under the index 0. -/
def firstDelta : Value := .object [("index", .number (.posInt 0)), ("id", .string "a")]

/-- The call `b` under the index 1. -/
def otherDelta : Value := .object [("index", .number (.posInt 1)), ("id", .string "b")]

def laterDelta : Value := .object [("index", .number (.posInt 0))]

/-- The call `a` under the index 1. -/
def movedDelta : Value := .object [("index", .number (.posInt 1)), ("id", .string "a")]

def lostDelta : Value := .object [("index", .number (.posInt 1))]

/-- Streams in which blocks come mixed. -/
theorem blocks_assembled_sample : (∃ p : AnthropicStreamProcessor, p.output.content.length = 2
  ∧ ∃ blocks, Journal.Shows (Anthropic.Block.content emptyObjects)
   (Anthropic.Block.changes emptyObjects) Change.isStart blocks p.output.content
   (journal p.events))
 ∧ (∃ p : ResponsesStreamProcessor, p.output.content.length = 2
  ∧ ∃ items, Journal.Shows (Responses.Item.content emptyObjects)
   (Responses.Item.changes emptyObjects) Change.isStart items
   (p.output.content.map unsigned) (journal p.events))
 ∧ (∃ p : CompletionsStreamProcessor, p.output.content.length = 2
  ∧ ∃ blocks : List Completions.Block, Journal.Shows (content emptyObjects)
   (changes emptyObjects) Change.isStart (blocks.map finish)
   ((p.finishBlocks emptyObjects).output.content.map unsigned)
   (journal (p.finishBlocks emptyObjects).events)) := by
 refine ⟨?_, ?_, ?_⟩
 · have h0 := @Anthropic.Streams.nil emptyObjects false []
   have h1 := @Anthropic.Streams.start emptyObjects false [] _ _ startsText _ h0 rfl rfl
    (fun b hb => absurd hb (by simp))
   have h2 := @Anthropic.Streams.start emptyObjects false [] _ _ startsCall _ h1 rfl rfl
    (fun b hb => by rw [mem_singleton.mp hb]; decide)
   have h3 := @Anthropic.Streams.delta emptyObjects false [] _ _ deltaText 0 _ h2 rfl rfl rfl rfl
   have h4 := @Anthropic.Streams.stop emptyObjects false [] _ _ stopsCall 1 _ h3 rfl rfl rfl rfl
   exact ⟨_, rfl, _, (blocks_assembled emptyObjects sampleModel 0 2000).1 false [] _ _ _ h4 rfl⟩
 · have h1 := @Responses.Streams.added _ _ addsMessage _ .nil rfl rfl
    (fun b hb => absurd hb (by simp))
   have h2 := @Responses.Streams.added _ _ addsCall _ h1 rfl rfl
    (fun b hb => by rw [mem_singleton.mp hb]; decide)
   have h3 := @Responses.Streams.streamed _ _ streamsText 0 _ _ h2 rfl rfl rfl rfl
   have h4 := @Responses.Streams.done _ _ endsCall 1 _ h3 rfl rfl rfl rfl rfl
   exact ⟨_, rfl, _, (blocks_assembled emptyObjects sampleModel 0 2000).2.1 _ _ _ h4 rfl⟩
 have h1 := (Completions.Streams.nil.header (callChunk [firstDelta])).begins
  (.inl (by decide : Completions.callIndex firstDelta ≠ none)) (fun b hb => absurd hb (by simp))
 have h2 := (h1.header (callChunk [otherDelta])).begins
  (.inl (by decide : Completions.callIndex otherDelta ≠ none)) fun b hb h => by
   rw [mem_singleton.mp hb] at h
   rcases h with ⟨key, hkey, hmem⟩ | ⟨key, hkey, hmem⟩
   · obtain rfl : (1 : Int) = key := Option.some.inj hkey
     exact absurd hmem (by decide)
   · obtain rfl : "b" = key := Option.some.inj hkey
     exact absurd hmem (by decide)
 have h3 := @Completions.Streams.continues _ _ laterDelta 0 _
  (h2.header (callChunk [laterDelta])) rfl rfl (.inl ⟨0, rfl, by decide⟩) fun j c hj hc h => by
   match j, hj, hc with
   | 1, _, hc =>
    cases hc
    rcases h with ⟨key, hkey, hmem⟩ | ⟨key, hkey, -⟩
    · obtain rfl : (0 : Int) = key := Option.some.inj hkey
      exact absurd hmem (by decide)
    · exact Option.some_ne_none key hkey.symm
 exact ⟨_, rfl, _, (blocks_assembled emptyObjects sampleModel 0 2000).2.2
  [callChunk [firstDelta], callChunk [otherDelta], callChunk [laterDelta]] _ _ h3
  (by unfold Completions.OneIndex; decide) rfl⟩

def oneMember : Codec where
 parse := fun text => if text = "\x7b\"n\":null\x7d" then [("n", .null)] else []
 parse_empty := rfl
 parse_braces := rfl
 streamed := fun _ => []
 toText := fun _ => ""
 fromText := fun _ => none
 toLowercase := id

/-- A block of a kind that is not assembled. -/
def startsSearch : Value :=
 indexed "content_block_start" "index" 0 [("content_block", event "server_tool_use" [])]

def streamsArguments : Value :=
 indexed "response.function_call_arguments.delta" "output_index" 1
  [("delta", .string "{}")]

def endsCallOtherwise : Value :=
 indexed "response.output_item.done" "output_index" 1
  [("item", event "function_call" [("arguments", .string "\x7b\"n\":null\x7d")])]

/-- **Where blocks are not what their own deltas say:** a block of a kind that is not
assembled is none, a call of a Responses stream has the arguments of the item that ends it,
and a call whose deltas go on under a second index is split in two. -/
theorem blocks_not_assembled :
 (∃ p, ((AnthropicStreamProcessor.new sampleModel (.pending sampleModel 0) false
  []).withMaxToolArgumentWhitespace 2000).handleEvents emptyObjects
   [startsSearch, indexed "content_block_stop" "index" 0 []] = .ok p
  ∧ p.output.content.length = 0)
 ∧ ¬(∀ (events : List Value) (items : List Responses.Item) (p : ResponsesStreamProcessor),
  Responses.Streams events items →
  ((new sampleModel
   (.pending sampleModel 0)).withMaxToolArgumentWhitespace 2000).handleEvents oneMember events
    = .ok p →
  ∀ (i : Nat) (b : Responses.Item) (call : ToolCall), items[i]? = some b → b.done.isSome = true →
   p.output.content[i]? = some (.toolCall call) →
   call.arguments = oneMember.parse b.streamed.arguments.text)
 ∧ ¬(∀ (chunks : List Value) (blocks : List Completions.Block) (p : CompletionsStreamProcessor),
  Completions.Streams (chunks.flatMap Completions.piecesOf) blocks →
  ((CompletionsStreamProcessor.new sampleModel
   (.pending sampleModel 0)).withMaxToolArgumentWhitespace 2000).handleChunks emptyObjects chunks
    = .ok p →
  (p.finishBlocks emptyObjects).output.content.length = blocks.length) := by
 refine ⟨⟨_, rfl, rfl⟩, fun h => ?_, fun h => ?_⟩
 · have h1 := @Responses.Streams.added _ _ addsCall _ .nil rfl rfl
    (fun b hb => absurd hb (by simp))
   have h2 := @Responses.Streams.streamed _ _ streamsArguments 0 _ _ h1 rfl rfl rfl rfl
   have h3 := @Responses.Streams.done _ _ endsCallOtherwise 0 _ h2 rfl rfl rfl rfl rfl
   have := congrArg List.length (h _ _ _ h3 rfl 0 _ _ rfl rfl rfl)
   exact absurd this (by decide)
 have h1 := (Completions.Streams.nil.header (callChunk [firstDelta])).begins
  (.inl (by decide : Completions.callIndex firstDelta ≠ none)) (fun b hb => absurd hb (by simp))
 have hone : ∀ (j : Nat) (b c : Completions.Block), j ≠ 0 → [b][j]? = some c → False := by
  intro j b c hj hc
  cases j with
  | zero => exact hj rfl
  | succ j => simp at hc
 have h2 := @Completions.Streams.continues _ _ movedDelta 0 _
  (h1.header (callChunk [movedDelta])) rfl rfl (.inr ⟨"a", rfl, by decide⟩)
  fun j c hj hc => (hone j _ c hj hc).elim
 have h3 := @Completions.Streams.continues _ _ lostDelta 0 _
  (h2.header (callChunk [lostDelta])) rfl rfl (.inl ⟨1, rfl, by decide⟩)
  fun j c hj hc => (hone j _ c hj hc).elim
 have := h [callChunk [firstDelta], callChunk [movedDelta], callChunk [lostDelta]] _ _ h3 rfl
 exact absurd this (by decide)

end Bake.Ai
