import Bake.Ai.Completions
import Bake.Lib.Journal
import Bake.Lib.Tables

/-!
# The blocks of a Chat Completions stream

What the processor builds, block by block: one block of text, one of reasoning, and one
for each call, with the deltas that are its own. A chunk streams several pieces, one after
another. Which call a delta belongs to is not decided here but by the stream: `Streams`
says of a stream in which no two calls share a key what its blocks are.
-/

open List Option Except
open OrdMap (get?)

namespace Bake.Ai

open Bake.Json
open AssistantContentBlock (toolCall)

namespace Completions

/-- What a chunk streams; its header is the response's id and model and the reason to
stop. -/
inductive Piece where
 | header (chunk : Value)
 | text (text : String)
 | thinking (field text : String)
 | call (delta : Value)
 | detail (detail : Value)

def deltaPieces (delta : Value) : List Piece :=
 (nonEmptyStr (some delta) "content").toList.map .text
  ++ ((reasoningText (some delta)).toList.map fun (field, text) => .thinking field text)
  ++ (((get (some delta) "tool_calls").bind asArray).getD []).map .call
  ++ ((((get (some delta) "reasoning_details").bind asArray).getD []).filter
   isReasoningDetail).map .detail

def piecesOf (chunk : Value) : List Piece :=
 match chunk with
 | .object _ => .header chunk ::
  match (choiceOf chunk).bind fun choice =>
   (get (some choice) "delta").filter fun delta => jsTruthy (some delta) with
  | some delta => deltaPieces delta
  | none => []
 | _ => []

/-- A block of a stream: its kind, the call deltas that are its own, the texts streamed for
it, and whether it was finished. -/
structure Block where
 kind : BlockKind
 deltas : List Value
 texts : List String
 finished : Bool

namespace Block

def begun (kind : BlockKind) : Block := { kind, deltas := [], texts := [], finished := false }

/-- A delta is the call's own. -/
def carry (b : Block) (delta : Value) : Block := { b with deltas := b.deltas ++ [delta] }

def more (b : Block) (text : String) : Block := { b with texts := b.texts ++ [text] }

def add (b : Block) (delta : Value) : Block :=
 (b.carry delta).more ((callArguments delta).getD "")

def finish (b : Block) : Block := { b with finished := true }

def text (b : Block) : String := String.join b.texts

def argumentTexts (b : Block) : List String := b.texts.filter (· ≠ "")

def index (b : Block) : Option Int := b.deltas.findSome? callIndex

def ids (b : Block) : List String := b.deltas.filterMap callId

def claimsIndex (b : Block) (key : Int) (_ : Nat) : Prop := b.index = some key

def claimsId (b : Block) (key : String) (_ : Nat) : Prop := key ∈ b.ids

def Carries (b : Block) (delta : Value) : Prop :=
 (∃ key, callIndex delta = some key ∧ key ∈ b.deltas.filterMap callIndex)
  ∨ ∃ key, callId delta = some key ∧ key ∈ b.ids

variable (codec : Codec)

def call (b : Block) : ToolCall :=
 { id := (b.deltas.findSome? callId).getD ""
   name := ((b.deltas.map callName).find? (· ≠ "")).getD ""
   arguments :=
    if b.finished then codec.parse b.text
    else if b.argumentTexts = [] then []
    else codec.streamed b.argumentTexts
   thoughtSignature := none
   namespace_ := none }

def content (b : Block) : AssistantContentBlock :=
 match b.kind with
 | .text => .text (.new b.text)
 | .thinking => .thinking { thinking := b.text, thinkingSignature := none, redacted := none }
 | .toolCall => .toolCall (b.call codec)

/-- What is emitted for the block: its start, its deltas, and once it is finished its end. -/
def changes (b : Block) : List Change := .start b.kind :: b.texts.map (.delta b.kind)
  ++ if b.finished then [(b.content codec).final] else []

def scratch (b : Block) : Option ToolScratch :=
 if b.kind = .toolCall ∧ b.finished = false then
  some
   { partialArgs := ⟨b.argumentTexts⟩
     streamIndex := b.index
     scan := b.argumentTexts.foldl ArgumentScan.scanArguments .empty }
 else none

end Block

def findKind (blocks : List Block) (kind : BlockKind) : Option Nat :=
 blocks.findIdx? fun b => b.kind = kind

def ensured (blocks : List Block) (kind : BlockKind) : List Block × Nat :=
 match findKind blocks kind with
 | some i => (blocks, i)
 | none => (blocks ++ [.begun kind], blocks.length)

def streamedTo (blocks : List Block) (kind : BlockKind) (text : String) : List Block :=
 (ensured blocks kind).1.modify (ensured blocks kind).2 (·.more text)

/-- Streams in which every delta of a call has a key, no two calls share one, and each later
delta of a call has a key an earlier one had; and the blocks of the stream. -/
inductive Streams : List Piece → List Block → Prop where
 | nil : Streams [] []
 | header {pieces : List Piece} {blocks : List Block} (chunk : Value) : Streams pieces blocks →
  Streams (pieces ++ [.header chunk]) blocks
 | text {pieces : List Piece} {blocks : List Block} (text : String) : Streams pieces blocks →
  Streams (pieces ++ [.text text]) (streamedTo blocks .text text)
 | thinking {pieces : List Piece} {blocks : List Block} (field text : String) :
  Streams pieces blocks →
  Streams (pieces ++ [.thinking field text]) (streamedTo blocks .thinking text)
 | detail {pieces : List Piece} {blocks : List Block} (detail : Value) : Streams pieces blocks →
  Streams (pieces ++ [.detail detail]) (ensured blocks .thinking).1
 | begins {pieces : List Piece} {blocks : List Block} {delta : Value} : Streams pieces blocks →
  callIndex delta ≠ none ∨ callId delta ≠ none → (∀ b ∈ blocks, ¬b.Carries delta) →
  Streams (pieces ++ [.call delta]) (blocks ++ [(Block.begun .toolCall).add delta])
 | continues {pieces : List Piece} {blocks : List Block} {delta : Value} {i : Nat} {b : Block} :
  Streams pieces blocks → blocks[i]? = some b → b.kind = .toolCall → b.Carries delta →
  (∀ (j : Nat) (c : Block), j ≠ i → blocks[j]? = some c → ¬c.Carries delta) →
  Streams (pieces ++ [.call delta]) (blocks.set i (b.add delta))

/-- No call has two indices. -/
def OneIndex (blocks : List Block) : Prop :=
 ∀ b ∈ blocks, ∀ first ∈ b.deltas.filterMap callIndex, ∀ second ∈ b.deltas.filterMap callIndex,
  first = second

namespace Block

variable {codec : Codec} {b : Block}

theorem changes_more (h : b.finished = false) (text : String) :
 (b.more text).changes codec = b.changes codec ++ [.delta b.kind text] := by
 simp [changes, more, h]

theorem changes_carry (h : b.finished = false) (delta : Value) :
 (b.carry delta).changes codec = b.changes codec := by
 simp [changes, carry, h]

theorem changes_finish (h : b.finished = false) :
 b.finish.changes codec = b.changes codec ++ [(b.finish.content codec).final] := by
 simp [changes, h, show b.finish.finished = true from rfl, show b.finish.kind = b.kind from rfl,
  show b.finish.texts = b.texts from rfl]

theorem text_more (b : Block) (text : String) : (b.more text).text = b.text ++ text :=
 join_append _ _

theorem argumentTexts_more (b : Block) (text : String) : (b.more text).argumentTexts
  = if text = "" then b.argumentTexts else b.argumentTexts ++ [text] := by
 rw [argumentTexts, more, filter_append]
 by_cases h : text = "" <;> simp [argumentTexts, h]

theorem join_argumentTexts (b : Block) : String.join b.argumentTexts = b.text := by
 unfold argumentTexts text
 induction b.texts using List.reverseRecOn with
 | nil => rfl
 | append_singleton texts text ih =>
  rw [filter_append, join_append, ← ih]
  by_cases h : text = "" <;> simp [h]

theorem index_carry (b : Block) (delta : Value) :
 (b.carry delta).index = b.index.or (callIndex delta) := by
 rw [index, carry, findSome?_append, findSome?_cons]
 cases callIndex delta <;> rfl

theorem ids_carry (b : Block) (delta : Value) :
 (b.carry delta).ids = b.ids ++ (callId delta).toList := by
 rw [ids, carry, filterMap_append]
 cases h : callId delta <;> simp [ids, h]

theorem unclaimed_index (kind : BlockKind) (key : Int) (i : Nat) :
 ¬(begun kind).claimsIndex key i := by simp [claimsIndex, index, begun]

theorem unclaimed_id (kind : BlockKind) (key : String) (i : Nat) :
 ¬(begun kind).claimsId key i := by simp [claimsId, ids, begun]

theorem index_of_mem {key : Int} (h : key ∈ b.deltas.filterMap callIndex) :
 ∃ first, b.index = some first := by
 cases hindex : b.index with
 | some first => exact ⟨first, rfl⟩
 | none =>
  obtain ⟨delta, hmem, hkey⟩ := mem_filterMap.mp h
  rw [findSome?_eq_none_iff.mp hindex delta hmem] at hkey
  simp at hkey

theorem index_mem {key : Int} (h : b.index = some key) : key ∈ b.deltas.filterMap callIndex := by
 obtain ⟨delta, hmem, hkey⟩ := exists_of_findSome?_eq_some h
 exact mem_filterMap.mpr ⟨delta, hmem, hkey⟩

end Block

/-! ## Blocks that grow -/

theorem OneIndex.of_grown {blocks blocks' : List Block} (h : OneIndex blocks')
 (hgrown : ∀ b ∈ blocks, ∃ b' ∈ blocks', b.deltas <+: b'.deltas) : OneIndex blocks := by
 intro b hb first hfirst second hsecond
 obtain ⟨b', hb', hsub⟩ := hgrown b hb
 have hsub := hsub.filterMap callIndex
 exact h b' hb' first (hsub.mem hfirst) second (hsub.mem hsecond)

theorem set_grown {blocks : List Block} {i : Nat} {b b' : Block} (hb : blocks[i]? = some b)
 (h : b.deltas <+: b'.deltas) :
 ∀ c ∈ blocks, ∃ c' ∈ blocks.set i b', c.deltas <+: c'.deltas := by
 intro c hc
 obtain ⟨j, hj⟩ := mem_iff_getElem?.mp hc
 by_cases hij : i = j
 · subst hij
   rw [hb] at hj
   injection hj with hj
   exact ⟨b', mem_set (List.getElem_of_getElem? hb).1 _, hj ▸ h⟩
 · refine ⟨c, mem_of_getElem? (i := j) ?_, prefix_refl _⟩
   rw [getElem?_set_ne hij]
   exact hj

theorem ensured_get (blocks : List Block) (kind : BlockKind) :
 ∃ b, (ensured blocks kind).1[(ensured blocks kind).2]? = some b ∧ b.kind = kind := by
 unfold ensured
 cases h : findKind blocks kind with
 | some i =>
  obtain ⟨hlt, hk, -⟩ := findIdx?_eq_some_iff_getElem.mp h
  exact ⟨blocks[i], getElem?_eq_getElem hlt, by simpa using hk⟩
 | none => exact ⟨.begun kind, by simp, rfl⟩

theorem ensured_mem (blocks : List Block) (kind : BlockKind) :
 ∀ b ∈ blocks, b ∈ (ensured blocks kind).1 := by
 intro b hb
 unfold ensured
 split
 · exact hb
 · exact mem_append_left _ hb

theorem streamedTo_grown (blocks : List Block) (kind : BlockKind) (text : String) :
 ∀ b ∈ blocks, ∃ b' ∈ streamedTo blocks kind text, b.deltas <+: b'.deltas := by
 intro b hb
 obtain ⟨c, hc, -⟩ := ensured_get blocks kind
 unfold streamedTo
 rw [OrdMap.modify_eq_set hc]
 have hgrown : c.deltas <+: (c.more text).deltas := prefix_refl _
 exact set_grown hc hgrown b (ensured_mem blocks kind b hb)

end Completions

/-! ## The processor -/

namespace CompletionsStreamProcessor

open Completions Journal OrdMap

/-- The message, the events and the tables are what the blocks say. -/
structure Assembled (codec : Codec) (p : CompletionsStreamProcessor) (blocks : List Block) :
 Prop where
 shows : Shows (Block.content codec) (Block.changes codec) Change.isStart blocks
  (p.output.content.map AssistantContentBlock.unsigned) (journal p.events)
 textBlock : p.textBlock = findKind blocks .text
 thinkingBlock : p.thinkingBlock = findKind blocks .thinking
 byIndex : Finds id Block.claimsIndex p.toolsByIndex blocks
 byId : Finds id Block.claimsId p.toolsById blocks
 scratch : Holds Block.scratch p.scratch blocks

variable {codec : Codec}

theorem assembled_new (model : Model) (timestamp : Int) (max : Nat) :
 Assembled codec ((new model (.pending model timestamp)).withMaxToolArgumentWhitespace max) [] where
 shows := .nil
 textBlock := rfl
 thinkingBlock := rfl
 byIndex := .nil
 byId := .nil
 scratch := .nil

variable {b : Block} {blocks : List Block} {i : Nat} {p q p' : CompletionsStreamProcessor}
 {delta : Value}

theorem Assembled.block (hp : Assembled codec p blocks) (hb : blocks[i]? = some b) :
 ∃ block, p.output.content[i]? = some block ∧ block.unsigned = b.content codec := by
 have := hp.shows.part hb
 rw [getElem?_map] at this
 exact map_eq_some_iff.mp this

theorem Assembled.length (hp : Assembled codec p blocks) :
 p.output.content.length = blocks.length := by
 rw [← length_map (f := AssistantContentBlock.unsigned), hp.shows.parts, length_map]

theorem Assembled.of_eq (hp : Assembled codec p blocks)
 (hcontent : q.output.content = p.output.content) (hevents : q.events = p.events)
 (htext : q.textBlock = p.textBlock) (hthinking : q.thinkingBlock = p.thinkingBlock)
 (hindex : q.toolsByIndex = p.toolsByIndex) (hid : q.toolsById = p.toolsById)
 (hscratch : q.scratch = p.scratch) : Assembled codec q blocks where
 shows := by rw [hcontent, hevents]; exact hp.shows
 textBlock := htext.trans hp.textBlock
 thinkingBlock := hthinking.trans hp.thinkingBlock
 byIndex := hindex ▸ hp.byIndex
 byId := hid ▸ hp.byId
 scratch := hscratch ▸ hp.scratch

theorem findKind_set {b' : Block} (hb : blocks[i]? = some b) (hkind : b'.kind = b.kind)
 (kind : BlockKind) : findKind (blocks.set i b') kind = findKind blocks kind := by
 unfold findKind
 induction blocks generalizing i with
 | nil => rfl
 | cons c blocks ih =>
  cases i with
  | zero =>
   cases hb
   rw [set_cons_zero, findIdx?_cons, findIdx?_cons, hkind]
  | succ i =>
   rw [set_cons_succ, findIdx?_cons, findIdx?_cons, ih hb]

variable {block : AssistantContentBlock}

theorem modifyBlock_content (h : p.output.content[i]? = some block)
 (f : AssistantContentBlock → AssistantContentBlock) :
 (p.modifyBlock i f).output.content = p.output.content.set i (f block) := by
 rw [modifyBlock, modify_eq_set h]

variable {block' : AssistantContentBlock}

theorem Assembled.change {b' : Block} {xs : List Change}
 (hp : Assembled codec p blocks) (hb : blocks[i]? = some b) (hkind : b'.kind = b.kind)
 (hl : b'.changes codec = b.changes codec ++ xs) (hx : ∀ x ∈ xs, x.isStart = false)
 (hcontent : p'.output.content = p.output.content.set i block')
 (hblock : block'.unsigned = b'.content codec)
 (hevents : journal p'.events = journal p.events ++ entered i xs)
 (hone : p'.textBlock = p.textBlock ∧ p'.thinkingBlock = p.thinkingBlock)
 (hindex : Finds id Block.claimsIndex p'.toolsByIndex (blocks.set i b'))
 (hid : Finds id Block.claimsId p'.toolsById (blocks.set i b'))
 (hscratch : Holds Block.scratch p'.scratch (blocks.set i b')) :
 Assembled codec p' (blocks.set i b') where
 shows := by
  rw [hcontent, map_set, hblock, hevents]
  exact hp.shows.change hb hl hx
 textBlock := by rw [hone.1, hp.textBlock, findKind_set hb hkind]
 thinkingBlock := by rw [hone.2, hp.thinkingBlock, findKind_set hb hkind]
 byIndex := hindex
 byId := hid
 scratch := hscratch

/-! ### Text and reasoning -/

theorem Assembled.add {kind : BlockKind} (hp : Assembled codec p blocks) (hkind : kind ≠ .toolCall)
 (hcontent : p'.output.content = p.output.content ++ [block])
 (hblock : block.unsigned = (Block.begun kind).content codec)
 (hevents : journal p'.events = journal p.events ++ [(blocks.length, .start kind)])
 (htext : p'.textBlock = findKind (blocks ++ [.begun kind]) .text)
 (hthinking : p'.thinkingBlock = findKind (blocks ++ [.begun kind]) .thinking)
 (hindex : p'.toolsByIndex = p.toolsByIndex) (hid : p'.toolsById = p.toolsById)
 (hscratch : p'.scratch = p.scratch) : Assembled codec p' (blocks ++ [.begun kind]) where
 shows := by
  have hadd := hp.shows.add (l := .begun kind) (x := .start kind) rfl rfl
  rw [hcontent, map_append, map_singleton, hblock, hevents]
  rw [length_map, hp.length] at hadd
  exact hadd
 textBlock := htext
 thinkingBlock := hthinking
 byIndex := hindex ▸ hp.byIndex.add (Block.unclaimed_index kind)
 byId := hid ▸ hp.byId.add (Block.unclaimed_id kind)
 scratch := hscratch ▸ hp.scratch.add (if_neg fun h => hkind h.1)

theorem findKind_snoc (blocks : List Block) (b : Block) (kind : BlockKind) :
 findKind (blocks ++ [b]) kind
  = (findKind blocks kind).or (if b.kind = kind then some blocks.length else none) := by
 rw [findKind, findIdx?_append, findIdx?_singleton, findKind]
 by_cases h : b.kind = kind <;> simp [h]

/-- **The text block** is found or added. -/
theorem Assembled.ensureText (hp : Assembled codec p blocks) :
 Assembled codec p.ensureText.1 (ensured blocks .text).1
  ∧ p.ensureText.2 = (ensured blocks .text).2 := by
 unfold CompletionsStreamProcessor.ensureText ensured
 rw [hp.textBlock]
 cases h : findKind blocks .text with
 | some i => exact ⟨hp, rfl⟩
 | none =>
  refine ⟨hp.add (by simp) rfl rfl ?_ ?_ ?_ rfl rfl rfl, hp.length⟩
  · rw [← hp.length]
    exact journal_snoc _ _
  · rw [findKind_snoc, h, ← hp.length]
    rfl
  · rw [findKind_snoc, ← hp.thinkingBlock]
    exact (or_none).symm

/-- **The reasoning block** is found or added. -/
theorem Assembled.ensureThinking (hp : Assembled codec p blocks) (signature : String) :
 Assembled codec (p.ensureThinking signature).1 (ensured blocks .thinking).1
  ∧ (p.ensureThinking signature).2 = (ensured blocks .thinking).2 := by
 unfold CompletionsStreamProcessor.ensureThinking ensured
 rw [hp.thinkingBlock]
 cases h : findKind blocks .thinking with
 | some i => exact ⟨hp, rfl⟩
 | none =>
  refine ⟨hp.add (by simp) rfl rfl ?_ ?_ ?_ rfl rfl rfl, hp.length⟩
  · rw [← hp.length]
    exact journal_snoc _ _
  · rw [findKind_snoc, ← hp.textBlock]
    exact (or_none).symm
  · rw [findKind_snoc, h, ← hp.length]
    rfl

def Unfinished (blocks : List Block) : Prop := ∀ b ∈ blocks, b.finished = false

section

variable (h : Unfinished blocks)

include h

theorem Unfinished.snoc (hb : b.finished = false) :
 Unfinished (blocks ++ [b]) := by
 intro c hc
 rcases mem_append.mp hc with hc | hc
 · exact h c hc
 · exact mem_singleton.mp hc ▸ hb

theorem Unfinished.set (hb : b.finished = false) (i : Nat) :
 Unfinished (blocks.set i b) := by
 intro c hc
 rcases mem_or_eq_of_mem_set hc with hc | rfl
 · exact h c hc
 · exact hb

theorem Unfinished.ensured (kind : BlockKind) :
 Unfinished (ensured blocks kind).1 := by
 unfold Completions.ensured
 split
 · exact h
 · exact h.snoc rfl

theorem Unfinished.streamedTo (kind : BlockKind) (text : String) :
 Unfinished (streamedTo blocks kind text) := by
 obtain ⟨b, hb, -⟩ := ensured_get blocks kind
 unfold Completions.streamedTo
 rw [modify_eq_set hb]
 have hensured := h.ensured kind
 exact hensured.set (b := b.more text) (hensured b (mem_of_getElem? hb)) _

end

section

variable (hp : Assembled codec p blocks)

include hp

theorem Assembled.more {text : String}
 (hb : blocks[i]? = some b) (hopen : b.finished = false)
 (hk : b.kind ≠ .toolCall) (hcontent : p'.output.content = p.output.content.set i block')
 (hblock : block'.unsigned = (b.more text).content codec)
 (hevents : journal p'.events = journal p.events ++ [(i, .delta b.kind text)])
 (htables : p'.textBlock = p.textBlock ∧ p'.thinkingBlock = p.thinkingBlock
  ∧ p'.toolsByIndex = p.toolsByIndex ∧ p'.toolsById = p.toolsById ∧ p'.scratch = p.scratch) :
 Assembled codec p' (blocks.set i (b.more text)) := by
 obtain ⟨htext, hthinking, hindex, hid, hscratch⟩ := htables
 have hnone : (b.more text).scratch = b.scratch := by
  rw [Block.scratch, Block.scratch, if_neg fun h => hk h.1, if_neg fun h => hk h.1]
 refine hp.change hb rfl (Block.changes_more hopen text) (by simp [Change.isStart]) hcontent hblock
  hevents ⟨htext, hthinking⟩ ?_ ?_ ?_
 · exact hindex ▸ hp.byIndex.keep hb fun _ _ => Iff.rfl
 · exact hid ▸ hp.byId.keep hb fun _ _ => Iff.rfl
 · exact hscratch ▸ hp.scratch.keep hb hnone

/-- **Text goes to the text block.** -/
theorem Assembled.textDelta (hopen : Unfinished blocks)
 (text : String) : Assembled codec (p.textDelta text) (streamedTo blocks .text text) := by
 obtain ⟨hensured, hindex⟩ := hp.ensureText
 obtain ⟨b, hb, hk⟩ := ensured_get blocks .text
 obtain ⟨block, hget, hblock⟩ := hensured.block hb
 have hfinished := hopen.ensured .text b (mem_of_getElem? hb)
 unfold CompletionsStreamProcessor.textDelta streamedTo
 dsimp only
 rw [modify_eq_set hb, hindex]
 refine hensured.more hb hfinished (by simp [hk]) (modifyBlock_content hget _) ?_ ?_
  ⟨rfl, rfl, rfl, rfl, rfl⟩
 · rw [Block.content, hk] at hblock
   rw [Block.content, show (b.more text).kind = .text from hk, Block.text_more]
   cases block with
   | thinking _ | toolCall _ => simp [AssistantContentBlock.unsigned] at hblock
   | text block =>
    simp only [AssistantContentBlock.unsigned, AssistantContentBlock.text.injEq] at hblock ⊢
    rw [hblock]
    rfl
 · rw [hk]
   exact journal_snoc _ _

/-- **Reasoning text goes to the reasoning block.** -/
theorem Assembled.thinkingDelta (hopen : Unfinished blocks)
 (field text : String) :
 Assembled codec (p.thinkingDelta field text) (streamedTo blocks .thinking text) := by
 unfold CompletionsStreamProcessor.thinkingDelta streamedTo
 dsimp only
 generalize (if p.model.provider = "opencode-go" ∧ field = "reasoning" then "reasoning_content"
  else field) = signature
 obtain ⟨hensured, hindex⟩ := hp.ensureThinking signature
 obtain ⟨b, hb, hk⟩ := ensured_get blocks .thinking
 obtain ⟨block, hget, hblock⟩ := hensured.block hb
 have hfinished := hopen.ensured .thinking b (mem_of_getElem? hb)
 rw [modify_eq_set hb, hindex]
 refine hensured.more hb hfinished (by simp [hk]) (modifyBlock_content hget _) ?_ ?_
  ⟨rfl, rfl, rfl, rfl, rfl⟩
 · rw [Block.content, hk] at hblock
   rw [Block.content, show (b.more text).kind = .thinking from hk, Block.text_more]
   cases block with
   | text _ | toolCall _ => simp [AssistantContentBlock.unsigned] at hblock
   | thinking block =>
    simp only [AssistantContentBlock.unsigned, AssistantContentBlock.thinking.injEq,
     ThinkingContent.mk.injEq] at hblock ⊢
    exact ⟨by rw [hblock.1], trivial, hblock.2.2⟩
 · rw [hk]
   exact journal_snoc _ _

theorem Assembled.reasoningDetail (detail : Value) :
 Assembled codec (p.reasoningDetail detail) (ensured blocks .thinking).1 :=
 (hp.ensureThinking "").1.of_eq rfl rfl rfl rfl rfl rfl rfl

end

def header (p : CompletionsStreamProcessor) (chunk : Value) : CompletionsStreamProcessor :=
 match choiceOf chunk with
 | none => p.envelope chunk
 | some choice => (p.envelope chunk).finishReason choice

def applyPiece (codec : Codec) (p : CompletionsStreamProcessor) :
 Piece → Except String CompletionsStreamProcessor
 | .header chunk => .ok (p.header chunk)
 | .text text => .ok (p.textDelta text)
 | .thinking field text => .ok (p.thinkingDelta field text)
 | .call delta => p.toolCallDelta codec delta
 | .detail detail => .ok (p.reasoningDetail detail)

theorem choiceDelta_eq (p : CompletionsStreamProcessor) (delta : Value) :
 p.choiceDelta codec delta = (deltaPieces delta).foldlM (applyPiece codec) p := by
 have hcalls : ∀ (calls : List Value) (q : CompletionsStreamProcessor),
  (calls.map Piece.call).foldlM (applyPiece codec) q
   = calls.foldlM (CompletionsStreamProcessor.toolCallDelta codec) q := by
  intro calls q
  rw [foldlM_map]
  rfl
 have hdetails : ∀ (details : List Value) (q : CompletionsStreamProcessor),
  (details.map Piece.detail).foldlM (applyPiece codec) q
   = .ok (details.foldl CompletionsStreamProcessor.reasoningDetail q) := by
  intro details
  induction details with
  | nil => exact fun q => rfl
  | cons detail details ih => exact fun q => ih (q.reasoningDetail detail)
 unfold choiceDelta deltaPieces
 simp only [foldlM_append, hcalls, hdetails]
 cases nonEmptyStr (some delta) "content" <;> cases reasoningText (some delta) <;> rfl

/-- **A chunk is applied piece by piece.** -/
theorem handleChunk_eq (p : CompletionsStreamProcessor) (chunk : Value) :
 p.handleChunk codec chunk = (piecesOf chunk).foldlM (applyPiece codec) p := by
 cases chunk with
 | object members =>
  unfold handleChunk piecesOf
  dsimp only
  generalize Value.object members = chunk
  rw [foldlM_cons, applyPiece, header]
  cases choiceOf chunk with
  | none => rfl
  | some choice =>
   dsimp only [bind_some]
   cases (get (some choice) "delta").filter fun delta => jsTruthy (some delta) with
   | none => rfl
   | some delta => exact choiceDelta_eq _ delta
 | _ => rfl

theorem handleChunks_eq (p : CompletionsStreamProcessor) (chunks : List Value) :
 p.handleChunks codec chunks = (chunks.flatMap piecesOf).foldlM (applyPiece codec) p := by
 unfold handleChunks
 induction chunks generalizing p with
 | nil => rfl
 | cons chunk chunks ih =>
  rw [foldlM_cons, flatMap_cons, foldlM_append, handleChunk_eq]
  exact bind_congr fun q => ih q

theorem envelope_eq (p : CompletionsStreamProcessor) (chunk : Value) : ∃ responseId responseModel,
  p.envelope chunk = { p with output := { p.output with responseId, responseModel } } := by
 unfold envelope
 cases nonEmptyStr (some chunk) "id" <;> cases nonEmptyStr (some chunk) "model" <;> dsimp only
 · exact ⟨_, _, rfl⟩
 · split <;> exact ⟨_, _, rfl⟩
 · split <;> exact ⟨_, _, rfl⟩
 · split <;> split <;> exact ⟨_, _, rfl⟩

section

variable (hp : Assembled codec p blocks)

include hp

theorem Assembled.header (chunk : Value) :
 Assembled codec (p.header chunk) blocks := by
 obtain ⟨responseId, responseModel, henvelope⟩ := p.envelope_eq chunk
 unfold CompletionsStreamProcessor.header
 rw [henvelope]
 split
 · exact hp.of_eq rfl rfl rfl rfl rfl rfl rfl
 · unfold finishReason
   split <;> exact hp.of_eq rfl rfl rfl rfl rfl rfl rfl

/-! ### Calls -/

theorem Assembled.carries_index {key : Int}
 (hkey : callIndex delta = some key) (h : get? p.toolsByIndex key = some i) :
 ∃ b, blocks[i]? = some b ∧ b.Carries delta := by
 obtain ⟨b, hb, hclaims⟩ := (hp.byIndex key i).mp h
 exact ⟨b, hb, .inl ⟨key, hkey, Block.index_mem hclaims⟩⟩

theorem Assembled.carries_id {key : String}
 (hkey : callId delta = some key) (h : get? p.toolsById key = some i) :
 ∃ b, blocks[i]? = some b ∧ b.Carries delta := by
 obtain ⟨b, hb, hclaims⟩ := (hp.byId key i).mp h
 exact ⟨b, hb, .inr ⟨key, hkey, hclaims⟩⟩

/-- **A call that no delta came for is not found.** -/
theorem Assembled.findCall_none
 (hnew : ∀ b ∈ blocks, ¬b.Carries delta) : p.findCall delta = none := by
 have hindex : (callIndex delta).bind (get? p.toolsByIndex) = none := by
  cases hkey : callIndex delta with
  | none => rfl
  | some key =>
   cases h : get? p.toolsByIndex key with
   | none => exact h
   | some i =>
    obtain ⟨b, hb, hcarries⟩ := hp.carries_index hkey h
    exact absurd hcarries (hnew b (mem_of_getElem? hb))
 have hid : (callId delta).bind (get? p.toolsById) = none := by
  cases hkey : callId delta with
  | none => rfl
  | some key =>
   cases h : get? p.toolsById key with
   | none => exact h
   | some i =>
    obtain ⟨b, hb, hcarries⟩ := hp.carries_id hkey h
    exact absurd hcarries (hnew b (mem_of_getElem? hb))
 rw [findCall, hindex, hid]
 rfl

/-- **A delta finds the one call that has a key of it.** -/
theorem Assembled.findCall_some (hb : blocks[i]? = some b)
 (hcarries : b.Carries delta)
 (hothers : ∀ (j : Nat) (c : Block), j ≠ i → blocks[j]? = some c → ¬c.Carries delta)
 (hone : ∀ key ∈ b.deltas.filterMap callIndex, callIndex delta = none ∨ callIndex delta = some key) :
 p.findCall delta = some i := by
 have hid : ∀ {key : String}, callId delta = some key → key ∈ b.ids →
  (callId delta).bind (get? p.toolsById) = some i := by
  intro key hkey hmem
  rw [hkey]
  exact (hp.byId key i).mpr ⟨b, hb, hmem⟩
 rw [findCall]
 cases hkey : callIndex delta with
 | none =>
  rcases hcarries with ⟨key, hindex, -⟩ | ⟨key, hcall, hmem⟩
  · rw [hkey] at hindex
    simp at hindex
  · exact hid hcall hmem
 | some key =>
  rw [bind_some]
  cases hfound : get? p.toolsByIndex key with
  | some j =>
   obtain ⟨c, hc, hcc⟩ := hp.carries_index hkey hfound
   by_cases hji : j = i
   · rw [hji]
     rfl
   · exact absurd hcc (hothers j c hji hc)
  | none =>
   rcases hcarries with ⟨key', hindex, hmem⟩ | ⟨id, hcall, hmem⟩
   · obtain ⟨first, hfirst⟩ := Block.index_of_mem hmem
     have hsame : first = key := by
      rcases hone first (Block.index_mem hfirst) with h | h
      · rw [hkey] at h
        simp at h
      · rw [hkey] at h
        exact (some.inj h).symm
     have hbound := (hp.byIndex key i).mpr ⟨b, hb, hsame ▸ hfirst⟩
     rw [hfound] at hbound
     simp at hbound
   · exact hid hcall hmem

theorem Assembled.scratch_call (hb : blocks[i]? = some b)
 (hk : b.kind = .toolCall) (hopen : b.finished = false) :
 get? p.scratch i = some
  { partialArgs := ⟨b.argumentTexts⟩
    streamIndex := b.index
    scan := b.argumentTexts.foldl ArgumentScan.scanArguments .empty } := by
 rw [hp.scratch i, hb, bind_some, Block.scratch, if_pos ⟨hk, hopen⟩]

theorem Assembled.callBlock (hb : blocks[i]? = some b)
 (hk : b.kind = .toolCall) : p.output.content[i]? = some (.toolCall (b.call codec)) := by
 obtain ⟨block, hget, hblock⟩ := hp.block hb
 rw [Block.content, hk] at hblock
 cases block with
 | text _ | thinking _ => simp [AssistantContentBlock.unsigned] at hblock
 | toolCall call =>
  simp only [AssistantContentBlock.unsigned, toolCall.injEq] at hblock
  rw [hget, hblock]

end

theorem claim_index {toolsByIndex : List (Int × Nat)} {key : Int} (hb : blocks[i]? = some b)
 (hindex : Finds id Block.claimsIndex toolsByIndex blocks) (hnone : b.index = none)
 (hkey : callIndex delta = some key)
 (hothers : ∀ (j : Nat) (c : Block), j ≠ i → blocks[j]? = some c → ¬c.Carries delta) :
 Finds id Block.claimsIndex (OrdMap.insert toolsByIndex key i) (blocks.set i (b.carry delta)) := by
 have hnew : (b.carry delta).index = some key := by
  rw [Block.index_carry, hnone, hkey, none_or]
 refine hindex.claim hb rfl (fun a ha => ?_) fun k a ha => ?_
 · obtain ⟨c, hc, hclaims⟩ := (hindex key a).mp ha
   by_cases hai : a = i
   · exact hai
   · exact absurd (.inl ⟨key, hkey, Block.index_mem hclaims⟩) (hothers a c hai hc)
 · simp only [Block.claimsIndex, hnew, hnone, some.injEq]
   constructor
   · rintro rfl
     exact .inl ⟨rfl, ha⟩
   · rintro (⟨rfl, -⟩ | ⟨-, h⟩)
     · rfl
     · simp at h

theorem registerIndex_eq (hb : blocks[i]? = some b) (hk : b.kind = .toolCall)
 (hopen : b.finished = false) (hindex : Finds id Block.claimsIndex p.toolsByIndex blocks)
 (hscratch : Holds Block.scratch p.scratch blocks)
 (hothers : ∀ (j : Nat) (c : Block), j ≠ i → blocks[j]? = some c → ¬c.Carries delta) :
 ∃ toolsByIndex scratch, p.registerIndex i delta = { p with toolsByIndex, scratch }
  ∧ Finds id Block.claimsIndex toolsByIndex (blocks.set i (b.carry delta))
  ∧ Holds Block.scratch scratch (blocks.set i (b.carry delta)) := by
 have hheld : get? p.scratch i = some
  { partialArgs := ⟨b.argumentTexts⟩
    streamIndex := b.index
    scan := b.argumentTexts.foldl ArgumentScan.scanArguments .empty } := by
  rw [hscratch i, hb, bind_some, Block.scratch, if_pos ⟨hk, hopen⟩]
 have hcarry : (b.carry delta).scratch = some
  { partialArgs := ⟨b.argumentTexts⟩
    streamIndex := (b.carry delta).index
    scan := b.argumentTexts.foldl ArgumentScan.scanArguments .empty } := if_pos ⟨hk, hopen⟩
 unfold registerIndex
 rw [hheld]
 cases hkey : callIndex delta with
 | none =>
  have hsame : (b.carry delta).index = b.index := by
   rw [Block.index_carry, hkey, or_none]
  refine ⟨p.toolsByIndex, p.scratch, rfl, hindex.keep hb fun k a => ?_, hscratch.keep hb ?_⟩
  · rw [Block.claimsIndex, hsame, Block.claimsIndex]
  · rw [hcarry, hsame, Block.scratch, if_pos ⟨hk, hopen⟩]
 | some key =>
  dsimp only
  cases hnone : b.index with
  | some first =>
   have hsame : (b.carry delta).index = b.index := by
    rw [Block.index_carry, hnone, some_or]
   rw [if_neg (by simp)]
   refine ⟨p.toolsByIndex, p.scratch, rfl, hindex.keep hb fun k a => ?_, hscratch.keep hb ?_⟩
   · rw [Block.claimsIndex, hsame, Block.claimsIndex]
   · rw [hcarry, hsame, Block.scratch, if_pos ⟨hk, hopen⟩]
  | none =>
   have hnew : (b.carry delta).index = some key := by
    rw [Block.index_carry, hnone, hkey, none_or]
   rw [if_pos rfl]
   exact ⟨_, _, rfl, claim_index hb hindex hnone hkey hothers,
    hscratch.insert hb (by rw [hcarry, hnew])⟩

theorem registerId_eq (hb : blocks[i]? = some b) (hid : Finds id Block.claimsId p.toolsById blocks)
 (hothers : ∀ (j : Nat) (c : Block), j ≠ i → blocks[j]? = some c → ¬c.Carries delta) :
 ∃ toolsById, p.registerId i delta = { p with toolsById }
  ∧ Finds id Block.claimsId toolsById (blocks.set i (b.carry delta)) := by
 unfold registerId
 cases hkey : callId delta with
 | none =>
  refine ⟨p.toolsById, rfl, hid.keep hb fun k a => ?_⟩
  rw [Block.claimsId, Block.ids_carry, hkey, toList_none, append_nil, Block.claimsId]
 | some key =>
  refine ⟨_, rfl, hid.claim hb rfl (fun a ha => ?_) fun k a ha => ?_⟩
  · obtain ⟨c, hc, hclaims⟩ := (hid key a).mp ha
    by_cases hai : a = i
    · exact hai
    · exact absurd (.inr ⟨key, hkey, hclaims⟩) (hothers a c hai hc)
  · simp only [Block.claimsId, Block.ids_carry, hkey, toList_some, mem_append,
     mem_singleton]
    constructor
    · rintro (h | rfl)
      · by_cases hk : k = key
        · exact .inl ⟨hk, ha⟩
        · exact .inr ⟨hk, h⟩
      · exact .inl ⟨rfl, ha⟩
    · rintro (⟨rfl, -⟩ | ⟨-, h⟩)
      · exact .inr rfl
      · exact .inl h

theorem callId_ne {key : String} (h : callId delta = some key) : key ≠ "" := by
 have := (filter_eq_some_iff.mp h).2
 simpa using this

theorem call_carry (b : Block) (delta : Value) : (b.carry delta).call codec = { b.call codec with
  id := if (b.call codec).id = "" then (callId delta).getD (b.call codec).id
   else (b.call codec).id
  name := if (b.call codec).name = "" then callName delta else (b.call codec).name } := by
 have hid : ((b.deltas ++ [delta]).findSome? callId).getD ""
  = if (b.deltas.findSome? callId).getD "" = "" then
   (callId delta).getD ((b.deltas.findSome? callId).getD "")
   else (b.deltas.findSome? callId).getD "" := by
  rw [findSome?_append]
  cases h : b.deltas.findSome? callId with
  | none => cases hkey : callId delta <;> simp [hkey]
  | some key =>
   obtain ⟨d, -, hd⟩ := exists_of_findSome?_eq_some h
   simp [callId_ne hd]
 have hname : (((b.deltas ++ [delta]).map callName).find? (· ≠ "")).getD ""
  = if ((b.deltas.map callName).find? (· ≠ "")).getD "" = "" then callName delta
   else ((b.deltas.map callName).find? (· ≠ "")).getD "" := by
  rw [map_append, find?_append]
  cases h : (b.deltas.map callName).find? (· ≠ "") with
  | none => by_cases hn : callName delta = "" <;> simp [hn]
  | some name =>
   have := find?_some h
   simp only [decide_eq_true_eq] at this
   simp [this]
 unfold Block.call
 simp only [Block.carry, hid, hname]
 rfl

/-- **A later delta is entered under its call:** its id, and its index if the call had none,
find the call from now on. -/
theorem Assembled.continues (hp : Assembled codec p blocks) (hb : blocks[i]? = some b)
 (hk : b.kind = .toolCall) (hopen : b.finished = false) (hcarries : b.Carries delta)
 (hothers : ∀ (j : Nat) (c : Block), j ≠ i → blocks[j]? = some c → ¬c.Carries delta)
 (hone : ∀ key ∈ b.deltas.filterMap callIndex,
  callIndex delta = none ∨ callIndex delta = some key) :
 Assembled codec (p.ensureToolCall delta).1 (blocks.set i (b.carry delta))
  ∧ (p.ensureToolCall delta).2 = i := by
 have hget := hp.callBlock hb hk
 obtain ⟨toolsByIndex, scratch, hregister, hindex, hscratch⟩ :=
  registerIndex_eq hb hk hopen hp.byIndex hp.scratch hothers
 obtain ⟨toolsById, hregisterId, hid⟩ :=
  registerId_eq (p := { p with toolsByIndex, scratch }) hb hp.byId hothers
 unfold ensureToolCall
 rw [hp.findCall_some hb hcarries hothers hone]
 dsimp only
 rw [hregister, hregisterId]
 refine ⟨hp.change hb rfl ((Block.changes_carry hopen delta).trans (append_nil _).symm)
  (by simp) (modifyBlock_content hget _) ?_ (append_nil _).symm ⟨rfl, rfl⟩ hindex hid
  hscratch, rfl⟩
 rw [Block.content, show (b.carry delta).kind = .toolCall from hk, call_carry]
 rfl

theorem beginCall_eq (p : CompletionsStreamProcessor) (delta : Value) : p.beginCall delta = { p with
  output := { p.output with content := p.output.content ++ [.toolCall
   { id := (callId delta).getD ""
     name := callName delta
     arguments := []
     thoughtSignature := none
     namespace_ := none }] }
  scratch := OrdMap.insert p.scratch p.output.content.length
   { partialArgs := .empty, streamIndex := callIndex delta, scan := .empty }
  toolsByIndex := match callIndex delta with
   | some key => OrdMap.insert p.toolsByIndex key p.output.content.length
   | none => p.toolsByIndex
  events := (p.beginCall delta).events } := by
 unfold beginCall
 cases callIndex delta <;> rfl

theorem beginCall_registerIndex (h : i = p.output.content.length) :
 (p.beginCall delta).registerIndex i delta = p.beginCall delta := by
 have hscratch : get? (p.beginCall delta).scratch i
  = some { partialArgs := .empty, streamIndex := callIndex delta, scan := .empty } := by
  rw [beginCall_eq, h]
  exact get?_insert_self _ _ _
 unfold registerIndex
 rw [hscratch]
 cases callIndex delta with
 | none => rfl
 | some key => exact if_neg (by simp)

/-- **A delta with a key no call has begins one.** -/
theorem Assembled.begins (hp : Assembled codec p blocks) (hnew : ∀ b ∈ blocks, ¬b.Carries delta) :
 Assembled codec (p.ensureToolCall delta).1 (blocks ++ [(Block.begun .toolCall).carry delta])
  ∧ (p.ensureToolCall delta).2 = blocks.length := by
 have hget : (blocks ++ [Block.begun .toolCall])[blocks.length]? = some (.begun .toolCall) := by
  simp
 have hset : (blocks ++ [Block.begun .toolCall]).set blocks.length ((Block.begun .toolCall).carry delta)
  = blocks ++ [(Block.begun .toolCall).carry delta] := by
  rw [set_append_right _ _ (Nat.le_refl _), Nat.sub_self]
  rfl
 have hothers : ∀ (j : Nat) (c : Block), j ≠ blocks.length →
  (blocks ++ [Block.begun .toolCall])[j]? = some c → ¬c.Carries delta := by
  intro j c hj hc
  rcases getElem?_snoc_some hc with ⟨h, -⟩ | ⟨-, hc⟩
  · exact absurd h hj
  · exact hnew c (mem_of_getElem? hc)
 have hadded := hp.byIndex.add (b := .begun .toolCall) (Block.unclaimed_index _)
 have hindex : Finds id Block.claimsIndex (match callIndex delta with
   | some key => OrdMap.insert p.toolsByIndex key p.output.content.length
   | none => p.toolsByIndex) (blocks ++ [(Block.begun .toolCall).carry delta]) := by
  rw [← hset, hp.length]
  cases hkey : callIndex delta with
  | none =>
   refine hadded.keep hget fun k a => ?_
   rw [Block.claimsIndex, Block.index_carry, hkey, or_none, Block.claimsIndex]
  | some key => exact claim_index hget hadded rfl hkey hothers
 obtain ⟨toolsById, hregisterId, hid⟩ := registerId_eq (p := p.beginCall delta) hget
  (by rw [beginCall_eq]; exact hp.byId.add (Block.unclaimed_id _)) hothers
 rw [hset] at hid
 have hblock : (p.beginCall delta).output.content[blocks.length]? = some (.toolCall
  { id := (callId delta).getD ""
    name := callName delta
    arguments := []
    thoughtSignature := none
    namespace_ := none }) := by
  rw [beginCall_eq, ← hp.length]
  simp
 unfold ensureToolCall
 rw [hp.findCall_none hnew]
 dsimp only
 rw [hp.length, beginCall_registerIndex hp.length.symm, hregisterId]
 have hcall : toolCall
  { id := if (callId delta).getD "" = "" then (callId delta).getD ((callId delta).getD "")
     else (callId delta).getD ""
    name := if callName delta = "" then callName delta else callName delta
    arguments := []
    thoughtSignature := none
    namespace_ := none }
  = ((Block.begun .toolCall).carry delta).content codec := by
  refine congrArg toolCall ?_
  rw [call_carry, ite_self]
  cases callId delta with
  | none => rfl
  | some key => rw [getD_some, getD_some, ite_self]; rfl
 refine ⟨⟨?_, ?_, ?_, ?_, hid, ?_⟩, rfl⟩
 · have hadd := hp.shows.add (l := (Block.begun .toolCall).carry delta) (x := .start .toolCall)
    rfl rfl
   have hevents : journal (p.beginCall delta).events
    = journal p.events ++ [(p.output.content.length, .start .toolCall)] := by
    unfold beginCall
    cases callIndex delta <;> exact journal_snoc _ _
   have hcontent : (p.beginCall delta).output.content.set p.output.content.length
    (((Block.begun .toolCall).carry delta).content codec)
    = p.output.content ++ [((Block.begun .toolCall).carry delta).content codec] := by
    rw [beginCall_eq, set_append_right _ _ (Nat.le_refl _), Nat.sub_self]
    rfl
   have hnamed : (({ p.beginCall delta with toolsById } : CompletionsStreamProcessor).nameCall
    blocks.length delta).output.content
    = p.output.content ++ [((Block.begun .toolCall).carry delta).content codec] := by
    rw [← hcontent, ← hcall, hp.length]
    exact modifyBlock_content hblock _
   rw [length_map] at hadd
   rw [hnamed, map_append]
   exact hevents ▸ hadd
 · rw [findKind_snoc, ← hp.textBlock]
   show (p.beginCall delta).textBlock = _
   rw [beginCall_eq]
   exact (or_none).symm
 · rw [findKind_snoc, ← hp.thinkingBlock]
   show (p.beginCall delta).thinkingBlock = _
   rw [beginCall_eq]
   exact (or_none).symm
 · show Finds id Block.claimsIndex (p.beginCall delta).toolsByIndex _
   rw [beginCall_eq]
   exact hindex
 · show Holds Block.scratch (p.beginCall delta).scratch _
   rw [beginCall_eq, hp.length]
   refine hp.scratch.addHeld ?_
   rw [Block.scratch, if_pos ⟨rfl, rfl⟩, Block.index_carry]
   rfl

/-- **Argument text goes to its call.** -/
theorem Assembled.pushArguments {arguments : String} (hp : Assembled codec p blocks)
 (hb : blocks[i]? = some b) (hk : b.kind = .toolCall) (hopen : b.finished = false)
 (hne : arguments ≠ "") (h : p.pushArguments codec i arguments = .ok p') :
 Assembled codec (p'.emit (.toolCallDelta i arguments)) (blocks.set i (b.more arguments)) := by
 unfold CompletionsStreamProcessor.pushArguments at h
 rw [hp.scratch_call hb hk hopen] at h
 obtain ⟨scan, hscan, h⟩ := bind_ok h
 cases h
 have htexts : (b.more arguments).argumentTexts = b.argumentTexts ++ [arguments] := by
  rw [Block.argumentTexts_more, if_neg hne]
 have hcall : (b.more arguments).call codec = { b.call codec with
  arguments := (StreamingJsonObject.push ⟨b.argumentTexts⟩ arguments).object codec } := by
  rw [StreamingJsonObject.object, StreamingJsonObject.push, if_neg (by simp), Block.call,
   show (b.more arguments).finished = false from hopen, htexts, if_neg (by simp),
   if_neg (by simp)]
  rfl
 refine hp.change hb rfl (Block.changes_more hopen arguments) (by simp [Change.isStart])
  (modifyBlock_content (hp.callBlock hb hk) _) ?_ ?_ ⟨rfl, rfl⟩
  (hp.byIndex.keep hb fun _ _ => Iff.rfl) (hp.byId.keep hb fun _ _ => Iff.rfl)
  (hp.scratch.insert hb ?_)
 · rw [Block.content, show (b.more arguments).kind = .toolCall from hk, hcall]
   rfl
 · rw [hk]
   exact journal_snoc _ _
 · rw [Block.scratch, if_pos ⟨hk, hopen⟩, htexts, ArgumentScan.checkDelta_ok hscan,
    foldl_append]
   rfl

theorem Assembled.silentDelta (hp : Assembled codec p blocks) (hb : blocks[i]? = some b)
 (hk : b.kind = .toolCall) (hopen : b.finished = false) :
 Assembled codec (p.emit (.toolCallDelta i "")) (blocks.set i (b.more "")) := by
 have hget := hp.callBlock hb hk
 have htexts : (b.more "").argumentTexts = b.argumentTexts := by
  rw [Block.argumentTexts_more, if_pos rfl]
 have hcall : (b.more "").call codec = b.call codec := by
  rw [Block.call, Block.call, htexts, show (b.more "").finished = false from hopen, hopen]
  rfl
 have hcontent : p.output.content
  = p.output.content.set i (.toolCall ((b.more "").call codec)) := by
  obtain ⟨hlt, hget⟩ := List.getElem_of_getElem? hget
  rw [hcall, ← hget, set_getElem_self]
 refine hp.change hb rfl (Block.changes_more hopen "") (by simp [Change.isStart]) hcontent ?_ ?_
  ⟨rfl, rfl⟩ (hp.byIndex.keep hb fun _ _ => Iff.rfl) (hp.byId.keep hb fun _ _ => Iff.rfl)
  (hp.scratch.keep hb ?_)
 · rw [Block.content, show (b.more "").kind = .toolCall from hk]
   rfl
 · rw [hk]
   exact journal_snoc _ _
 · rw [Block.scratch, Block.scratch, if_pos ⟨hk, hopen⟩, if_pos ⟨hk, hopen⟩, htexts]
   rfl

theorem Assembled.streamArguments {j : Nat} (hensure : p.ensureToolCall delta = (q, j))
 (hq : Assembled codec q blocks) (hj : j = i) (hb : blocks[i]? = some b) (hk : b.kind = .toolCall)
 (hopen : b.finished = false) (h : p.toolCallDelta codec delta = .ok p') :
 Assembled codec p' (blocks.set i (b.more ((callArguments delta).getD ""))) := by
 subst hj
 unfold CompletionsStreamProcessor.toolCallDelta at h
 rw [hensure] at h
 dsimp only at h
 cases harguments : callArguments delta with
 | none =>
  rw [harguments] at h
  exact ok.inj h ▸ hq.silentDelta hb hk hopen
 | some arguments =>
  rw [harguments] at h
  obtain ⟨r, hr, h⟩ := bind_ok h
  have hne : arguments ≠ "" := by simpa using (filter_eq_some_iff.mp harguments).2
  exact ok.inj h ▸ hq.pushArguments hb hk hopen hne hr

theorem unfinished_of_streams {pieces : List Piece} (hs : Streams pieces blocks) :
 Unfinished blocks := by
 induction hs with
 | nil => exact fun b hb => absurd hb (by simp)
 | header chunk hs ih => exact ih
 | text text hs ih => exact ih.streamedTo .text text
 | thinking field text hs ih => exact ih.streamedTo .thinking text
 | detail detail hs ih => exact ih.ensured .thinking
 | begins hs hkey hnew ih => exact ih.snoc rfl
 | @continues pieces blocks delta i b hs hb hk hcarries hothers ih =>
  exact ih.set (b := b.add delta) (ih b (mem_of_getElem? hb)) i

/-- **Every piece changes the blocks as the stream says.** -/
theorem Assembled.pieces {pieces : List Piece} (hs : Streams pieces blocks) (hone : OneIndex blocks)
 (hp : Assembled codec p []) (h : pieces.foldlM (applyPiece codec) p = .ok p') :
 Assembled codec p' blocks := by
 -- the last piece of a run that succeeds
 have hlast : ∀ {pieces : List Piece} {piece : Piece} {p' : CompletionsStreamProcessor},
  (pieces ++ [piece]).foldlM (applyPiece codec) p = .ok p' →
  ∃ q, pieces.foldlM (applyPiece codec) p = .ok q ∧ applyPiece codec q piece = .ok p' := by
  intro pieces piece p' h
  rw [foldlM_append] at h
  obtain ⟨q, hq, h⟩ := bind_ok h
  rw [foldlM_cons] at h
  obtain ⟨r, hr, h⟩ := bind_ok h
  exact ⟨q, hq, by rw [hr, ok.inj h]⟩
 induction hs generalizing p' with
 | nil => exact ok.inj h ▸ hp
 | header chunk hs ih =>
  obtain ⟨q, hq, h⟩ := hlast h
  exact ok.inj h ▸ (ih hone hq).header chunk
 | text text hs ih =>
  obtain ⟨q, hq, h⟩ := hlast h
  have hq := ih (hone.of_grown (streamedTo_grown _ _ _)) hq
  exact ok.inj h ▸ hq.textDelta (unfinished_of_streams hs) text
 | thinking field text hs ih =>
  obtain ⟨q, hq, h⟩ := hlast h
  have hq := ih (hone.of_grown (streamedTo_grown _ _ _)) hq
  exact ok.inj h ▸ hq.thinkingDelta (unfinished_of_streams hs) field text
 | detail detail hs ih =>
  obtain ⟨q, hq, h⟩ := hlast h
  have hq := ih (hone.of_grown fun b hb => ⟨b, ensured_mem _ _ b hb, prefix_refl _⟩) hq
  exact ok.inj h ▸ hq.reasoningDetail detail
 | @begins pieces blocks delta hs hkey hnew ih =>
  obtain ⟨q, hq, h⟩ := hlast h
  have hq := ih (hone.of_grown fun b hb => ⟨b, mem_append_left _ hb, prefix_refl _⟩) hq
  obtain ⟨hensured, hindex⟩ := hq.begins hnew
  have hget : (blocks ++ [(Block.begun .toolCall).carry delta])[blocks.length]?
   = some ((Block.begun .toolCall).carry delta) := by simp
  have := Assembled.streamArguments rfl hensured hindex hget rfl rfl h
  rw [set_append_right _ _ (Nat.le_refl _), Nat.sub_self] at this
  exact this
 | @continues pieces blocks delta i b hs hb hk hcarries hothers ih =>
  obtain ⟨q, hq, h⟩ := hlast h
  have hopen := unfinished_of_streams hs b (mem_of_getElem? hb)
  have hlt := (List.getElem_of_getElem? hb).1
  have hadded : b.add delta ∈ blocks.set i (b.add delta) := mem_set hlt _
  have hq := ih (hone.of_grown (set_grown hb (prefix_append _ _))) hq
  have hsame : ∀ key ∈ b.deltas.filterMap callIndex,
   callIndex delta = none ∨ callIndex delta = some key := by
   intro key hmem
   cases hkey : callIndex delta with
   | none => exact .inl rfl
   | some new =>
    have hsub : (b.add delta).deltas.filterMap callIndex
     = b.deltas.filterMap callIndex ++ [new] := by
     rw [Block.add, Block.more, Block.carry, filterMap_append]
     simp [hkey]
    refine .inr (congrArg some (hone _ hadded new ?_ key ?_))
    · rw [hsub]
      exact mem_append_right _ (mem_singleton_self new)
    · rw [hsub]
      exact mem_append_left _ hmem
  obtain ⟨hensured, hindex⟩ := hq.continues hb hk hopen hcarries hothers hsame
  have hget : (blocks.set i (b.carry delta))[i]? = some (b.carry delta) := getElem?_set_self hlt
  have := Assembled.streamArguments rfl hensured hindex hget hk hopen h
  rw [set_set] at this
  exact this

/-! ### The end -/

theorem applyReasoningDetails_eq
 {block : ThinkingContent} (h : p.output.content[i]? = some (.thinking block)) :
 ∃ thinkingSignature, p.applyReasoningDetails codec i = { p with
  output := { p.output with
   content := p.output.content.set i (.thinking { block with thinkingSignature }) } } := by
 unfold applyReasoningDetails
 split
 next details hdetails =>
  refine ⟨some (codec.toText (.array details)), ?_⟩
  rw [modifyBlock, modify_eq_set h]
 · refine ⟨block.thinkingSignature, ?_⟩
   obtain ⟨hlt, hget⟩ := List.getElem_of_getElem? h
   rw [← hget, set_getElem_self]

/-- **A block ends** with what it holds. -/
theorem Assembled.finishBlock (hp : Assembled codec p blocks) (hb : blocks[i]? = some b)
 (hopen : b.finished = false) :
 Assembled codec (p.finishBlock codec i) (blocks.set i b.finish) := by
 obtain ⟨block, hget, hblock⟩ := hp.block hb
 have hsame : p.output.content = p.output.content.set i block := by
  obtain ⟨hlt, hget⟩ := List.getElem_of_getElem? hget
  rw [← hget, set_getElem_self]
 have hindex : Finds id Block.claimsIndex p.toolsByIndex (blocks.set i b.finish) :=
  hp.byIndex.keep hb fun _ _ => Iff.rfl
 have hid : Finds id Block.claimsId p.toolsById (blocks.set i b.finish) :=
  hp.byId.keep hb fun _ _ => Iff.rfl
 have hnone : b.finish.scratch = none := if_neg fun h => absurd h.2 (by simp [Block.finish])
 have hfinal : ∀ x ∈ [(b.finish.content codec).final], x.isStart = false := by
  intro x hx
  rw [mem_singleton.mp hx]
  cases b.finish.content codec <;> rfl
 unfold CompletionsStreamProcessor.finishBlock
 rw [hget]
 cases hk : b.kind with
 | text =>
  have hkind : b.finish.kind = .text := hk
  rw [Block.content, hk] at hblock
  cases block with
  | thinking _ | toolCall _ => simp [AssistantContentBlock.unsigned] at hblock
  | text block =>
   refine hp.change hb rfl (Block.changes_finish hopen) hfinal hsame ?_ ?_ ⟨rfl, rfl⟩ hindex
    hid (hp.scratch.keep hb ?_)
   · rw [hblock, Block.content, hkind]
     rfl
   · rw [Block.content, hkind]
     simp only [AssistantContentBlock.unsigned, AssistantContentBlock.text.injEq] at hblock
     rw [hblock]
     exact journal_snoc _ _
   · rw [hnone, Block.scratch, if_neg (by simp [hk])]
 | thinking =>
  have hkind : b.finish.kind = .thinking := hk
  rw [Block.content, hk] at hblock
  cases block with
  | text _ | toolCall _ => simp [AssistantContentBlock.unsigned] at hblock
  | thinking block =>
   simp only [AssistantContentBlock.unsigned, AssistantContentBlock.thinking.injEq,
    ThinkingContent.mk.injEq] at hblock
   obtain ⟨signature, happly⟩ := @applyReasoningDetails_eq codec _ _ _ hget
   have hlt := (List.getElem_of_getElem? hget).1
   dsimp only
   rw [happly]
   dsimp only
   rw [getElem?_set_self hlt]
   refine hp.change hb rfl (Block.changes_finish hopen) hfinal rfl ?_ ?_ ⟨rfl, rfl⟩ hindex
    hid (hp.scratch.keep hb ?_)
   · rw [Block.content, hkind, hblock.1, hblock.2.2]
     rfl
   · rw [Block.content, hkind]
     dsimp only
     rw [hblock.1]
     exact journal_snoc _ _
   · rw [hnone, Block.scratch, if_neg (by simp [hk])]
 | toolCall =>
  have hkind : b.finish.kind = .toolCall := hk
  have hcall := hp.callBlock hb hk
  rw [hget] at hcall
  cases hcall
  have htext : ((get? p.scratch i).map (·.partialArgs.text)).getD "" = b.text := by
   rw [hp.scratch_call hb hk hopen]
   exact b.join_argumentTexts
  have hfinished : { b.call codec with
   arguments := codec.parse
    (((get? p.scratch i).map (·.partialArgs.text)).getD "") }
   = b.finish.call codec := by
   rw [htext]
   rfl
  dsimp only
  rw [hfinished]
  refine hp.change hb rfl (Block.changes_finish hopen) hfinal (modifyBlock_content hget _) ?_ ?_
   ⟨rfl, rfl⟩ hindex hid (hp.scratch.erase hb hnone)
  · rw [Block.content, hkind]
    rfl
  · rw [Block.content, hkind]
    exact journal_snoc _ _

/-- **At the end every block is finished.** -/
theorem Assembled.finishBlocks (hp : Assembled codec p blocks) (hopen : Unfinished blocks) :
 Assembled codec (p.finishBlocks codec) (blocks.map Block.finish) := by
 have hstep : ∀ n ≤ blocks.length,
  Assembled codec ((List.range n).foldl (CompletionsStreamProcessor.finishBlock codec) p)
   ((blocks.take n).map Block.finish ++ blocks.drop n) := by
  intro n
  induction n with
  | zero => exact fun _ => hp
  | succ n ih =>
   intro hn
   have hlt : n < blocks.length := hn
   have hlen : ((blocks.take n).map Block.finish).length = n := by
    rw [length_map, length_take_of_le (Nat.le_of_lt hlt)]
   have hget : ((blocks.take n).map Block.finish ++ blocks.drop n)[n]? = some blocks[n] := by
    rw [getElem?_append_right (by omega), hlen, Nat.sub_self, getElem?_drop,
     Nat.add_zero, getElem?_eq_getElem hlt]
   have := (ih (Nat.le_of_lt hlt)).finishBlock hget (hopen _ (getElem_mem hlt))
   rw [range_succ, foldl_append]
   rw [set_append_right _ _ (by omega), hlen, Nat.sub_self,
    drop_eq_getElem_cons hlt, set_cons_zero] at this
   rw [← take_append_getElem hlt, map_append, append_assoc]
   exact this
 have := hstep blocks.length (Nat.le_refl _)
 rw [take_length, drop_length, append_nil, ← hp.length] at this
 exact this

end CompletionsStreamProcessor

end Bake.Ai
