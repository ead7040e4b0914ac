import Bake.Ai.Anthropic
import Bake.Lib.Journal

/-!
# The blocks of an Anthropic stream

What the processor builds, block by block: each block of the stream with the deltas that
are its own, whatever comes between them. A delta or a stop belongs to the first block
with its index that is still open.
-/

open List Except

namespace Bake.Ai

open Bake.Json

def BlockKind.deltaType : BlockKind → String
 | .text => "text_delta"
 | .thinking => "thinking_delta"
 | .toolCall => "input_json_delta"

def BlockKind.deltaKey : BlockKind → String
 | .text => "text"
 | .thinking => "thinking"
 | .toolCall => "partial_json"

namespace Anthropic

/-- A block of a stream: its index, what it started with, its deltas, and whether it was
stopped. -/
structure Block where
 index : Int
 start : AssistantContentBlock
 deltas : List (Option Value)
 closed : Bool

namespace Block

def begun (index : Int) (start : AssistantContentBlock) : Block :=
 { index, start, deltas := [], closed := false }

def extend (b : Block) (delta : Option Value) : Block := { b with deltas := b.deltas ++ [delta] }

def close (b : Block) : Block := { b with closed := true }

def deltaTexts (b : Block) (type key : String) : List String :=
 b.deltas.filterMap fun delta => if typeOf delta = some type then some (textOf delta key) else none

def texts (b : Block) : List String := b.deltaTexts b.start.kind.deltaType b.start.kind.deltaKey

def text (b : Block) : String := String.join b.texts

def signature (b : Block) (signature : Option String) : Option String :=
 match b.deltaTexts "signature_delta" "signature" with
 | [] => signature
 | texts => some (signature.getD "" ++ String.join texts)

variable (codec : Codec)

def arguments (b : Block) (initial : JsonObject) : JsonObject :=
 if b.closed then codec.parse b.text
 else if b.texts = [] then initial
 else codec.streamed b.texts

def content (b : Block) : AssistantContentBlock :=
 match b.start with
 | .text block => .text { block with text := block.text ++ b.text }
 | .thinking block =>
  .thinking { block with
   thinking := block.thinking ++ b.text
   thinkingSignature := b.signature block.thinkingSignature }
 | .toolCall call => .toolCall { call with arguments := b.arguments codec call.arguments }

/-- What is emitted for the block: its start, its deltas, and once it is closed its end. -/
def changes (b : Block) : List Change := .start b.start.kind :: b.texts.map (.delta b.start.kind)
  ++ if b.closed then [(b.content codec).final] else []

/-- The processor's record of the block while it is open. -/
def opened (b : Block) (contentIndex : Nat) : OpenBlock :=
 let arguments := match b.start with
  | .toolCall _ => b.texts
  | _ => []
 { contentIndex
   providerIndex := b.index
   partialJson := ⟨arguments⟩
   scan := arguments.foldl ArgumentScan.scanArguments .empty }

end Block

def firstOpen (blocks : List Block) (index : Int) : Option Nat :=
 blocks.findIdx? fun b => !b.closed && b.index = index

def assign (codec : Codec) (isOauth : Bool) (tools : List Tool) (blocks : List Block)
 (event : Value) : List Block :=
 match textOf event "type" with
 | "content_block_start" =>
  match startContent codec isOauth tools (get event "content_block") with
  | some start => blocks ++ [.begun (providerIndex event) start]
  | none => blocks
 | "content_block_delta" =>
  match firstOpen blocks (providerIndex event) with
  | some i => blocks.modify i (·.extend (get event "delta"))
  | none => blocks
 | "content_block_stop" =>
  match firstOpen blocks (providerIndex event) with
  | some i => blocks.modify i Block.close
  | none => blocks
 | _ => blocks

def blocksOf (codec : Codec) (isOauth : Bool) (tools : List Tool) (events : List Value) :
 List Block := events.foldl (assign codec isOauth tools) []

/-! ## Open blocks -/

/-- The processor's records of the open blocks, the first of which is block `n`. -/
def openFrom : Nat → List Block → List OpenBlock
 | _, [] => []
 | n, b :: bs => if b.closed then openFrom (n + 1) bs else b.opened n :: openFrom (n + 1) bs

theorem openFrom_append (n : Nat) (a b : List Block) :
 openFrom n (a ++ b) = openFrom n a ++ openFrom (n + a.length) b := by
 induction a generalizing n with
 | nil => rfl
 | cons x a ih =>
  rw [cons_append, openFrom, openFrom, ih, length_cons, Nat.add_right_comm n 1, Nat.add_assoc n]
  split <;> rfl

theorem openFrom_ne {index : Int} {blocks : List Block}
 (h : ∀ b ∈ blocks, b.closed = false → b.index ≠ index) (n : Nat) :
 ∀ o ∈ openFrom n blocks, o.providerIndex ≠ index := by
 induction blocks generalizing n with
 | nil => exact fun o ho => absurd ho (by simp [openFrom])
 | cons b bs ih =>
  have ih := ih (fun c hc => h c (mem_cons_of_mem _ hc)) (n + 1)
  rw [openFrom]
  split
  · exact ih
  next hb =>
   intro o ho
   rcases mem_cons.mp ho with rfl | ho
   · exact h b (mem_cons_self ..) (by simpa using hb)
   · exact ih o ho

theorem firstOpen_cases (blocks : List Block) (index : Int) :
 (firstOpen blocks index = none ∧ ∀ b ∈ blocks, b.closed = false → b.index ≠ index)
  ∨ ∃ before b after, blocks = before ++ b :: after ∧ b.closed = false ∧ b.index = index
   ∧ firstOpen blocks index = some before.length
   ∧ ∀ c ∈ before, c.closed = false → c.index ≠ index := by
 cases h : firstOpen blocks index with
 | none =>
  refine .inl ⟨rfl, fun b hb hc hi => ?_⟩
  have := findIdx?_eq_none_iff.mp h b hb
  simp [hc, hi] at this
 | some i =>
  obtain ⟨hlt, hp, hmin⟩ := findIdx?_eq_some_iff_getElem.mp h
  simp only [Bool.and_eq_true, Bool.not_eq_true', decide_eq_true_eq] at hp
  refine .inr ⟨blocks.take i, blocks[i], blocks.drop (i + 1), ?_, hp.1, hp.2, ?_, ?_⟩
  · rw [← drop_eq_getElem_cons hlt, take_append_drop]
  · rw [length_take_of_le (Nat.le_of_lt hlt)]
  · intro c hc hclosed hindex
    obtain ⟨j, hj, rfl⟩ := mem_take_iff_getElem.mp hc
    have := hmin j (by omega)
    simp [hclosed, hindex] at this

theorem modify_append {α : Type} (before : List α) (b : α) (after : List α) (f : α → α) :
 (before ++ b :: after).modify before.length f = before ++ f b :: after := by
 induction before with
 | nil => rfl
 | cons x before ih => simp [ih]

/-! ## One delta -/

namespace Block

theorem deltaTexts_extend (b : Block) (delta : Option Value) (type key : String) :
 (b.extend delta).deltaTexts type key
  = b.deltaTexts type key ++ if typeOf delta = some type then [textOf delta key] else [] := by
 rw [deltaTexts, extend, filterMap_append]
 by_cases h : typeOf delta = some type <;> simp [deltaTexts, h]

theorem texts_extend (b : Block) (delta : Option Value) : (b.extend delta).texts = b.texts
  ++ if typeOf delta = some b.start.kind.deltaType then [textOf delta b.start.kind.deltaKey]
   else [] := b.deltaTexts_extend delta _ _

variable {b : Block}

variable {delta : Option Value}

theorem texts_extend_of_eq (h : typeOf delta = some b.start.kind.deltaType) :
 (b.extend delta).texts = b.texts ++ [textOf delta b.start.kind.deltaKey] := by
 rw [texts_extend, if_pos h]

theorem texts_extend_of_ne (h : typeOf delta ≠ some b.start.kind.deltaType) :
 (b.extend delta).texts = b.texts := by
 rw [texts_extend, if_neg h, append_nil]

theorem text_extend_of_eq (h : typeOf delta = some b.start.kind.deltaType) :
 (b.extend delta).text = b.text ++ textOf delta b.start.kind.deltaKey := by
 rw [text, texts_extend_of_eq h, join_append, text]

theorem text_extend_of_ne (h : typeOf delta ≠ some b.start.kind.deltaType) :
 (b.extend delta).text = b.text := by
 rw [text, texts_extend_of_ne h, text]

theorem signature_extend (b : Block) (delta : Option Value) (signature : Option String) :
 (b.extend delta).signature signature
  = if typeOf delta = some "signature_delta" then
   some ((b.signature signature).getD "" ++ textOf delta "signature")
   else b.signature signature := by
 unfold Block.signature
 rw [deltaTexts_extend]
 by_cases h : typeOf delta = some "signature_delta"
 · rw [if_pos h, if_pos h]
   cases hs : b.deltaTexts "signature_delta" "signature" with
   | nil => simp [String.join]
   | cons s ss =>
    have := join_append (s :: ss) (textOf delta "signature")
    simp only [cons_append] at this ⊢
    rw [this]
    simp [String.append_assoc]
 · rw [if_neg h, if_neg h, append_nil]

variable {codec : Codec}

theorem content_text {b : Block} {block : TextContent} (h : b.start = .text block) :
 b.content codec = .text { block with text := block.text ++ b.text } := by
 rw [content, h]

theorem content_thinking {b : Block} {block : ThinkingContent} (h : b.start = .thinking block) :
 b.content codec = .thinking { block with
  thinking := block.thinking ++ b.text
  thinkingSignature := b.signature block.thinkingSignature } := by
 rw [content, h]

theorem content_call {call : ToolCall} (h : b.start = .toolCall call) :
 b.content codec = .toolCall { call with arguments := b.arguments codec call.arguments } := by
 rw [content, h]

theorem changes_extend_of_eq (hc : b.closed = false)
 (h : typeOf delta = some b.start.kind.deltaType) :
 (b.extend delta).changes codec
  = b.changes codec ++ [.delta b.start.kind (textOf delta b.start.kind.deltaKey)] := by
 simp only [changes, texts_extend_of_eq h]
 simp [extend, hc]

theorem changes_extend_of_ne {b : Block} {delta : Option Value} (hc : b.closed = false)
 (h : typeOf delta ≠ some b.start.kind.deltaType) :
 (b.extend delta).changes codec = b.changes codec := by
 simp only [changes, texts_extend_of_ne h]
 simp [extend, hc]

theorem content_extend_of_ne (h : typeOf delta ≠ some b.start.kind.deltaType)
 (hs : b.start.kind = .thinking → typeOf delta ≠ some "signature_delta") :
 (b.extend delta).content codec = b.content codec := by
 have htexts := texts_extend_of_ne h
 have hstart : (b.extend delta).start = b.start := rfl
 have hclosed : (b.extend delta).closed = b.closed := rfl
 unfold content
 rw [hstart]
 cases hk : b.start with
 | text block => simp only [text, htexts]
 | thinking block =>
  simp only [text, htexts]
  rw [signature_extend, if_neg (hs (by rw [hk]; rfl))]
 | toolCall call => simp only [arguments, text, htexts, hclosed]

theorem opened_extend_of_ne (h : typeOf delta ≠ some b.start.kind.deltaType)
 (n : Nat) : (b.extend delta).opened n = b.opened n := by
 have hstart : (b.extend delta).start = b.start := rfl
 unfold opened
 rw [hstart, texts_extend_of_ne h]
 rfl

theorem opened_extend_of_kind (h : b.start.kind ≠ .toolCall) (delta : Option Value) (n : Nat) :
 (b.extend delta).opened n = b.opened n := by
 unfold opened
 rw [show (b.extend delta).start = b.start from rfl]
 cases hs : b.start with
 | text _ | thinking _ => rfl
 | toolCall _ => exact absurd (by rw [hs]; rfl) h

end Block

theorem openFrom_open {b : Block} (hc : b.closed = false) (before after : List Block) :
 openFrom 0 (before ++ b :: after)
  = openFrom 0 before ++ b.opened before.length :: openFrom (before.length + 1) after := by
 rw [openFrom_append, openFrom, if_neg (by simp [hc]), Nat.zero_add]

end Anthropic

/-! ## The processor -/

namespace AnthropicStreamProcessor

open Anthropic Journal

/-- The message, the events and the records of the open blocks are what the blocks say. -/
structure Assembled (codec : Codec) (isOauth : Bool) (tools : List Tool)
 (p : AnthropicStreamProcessor) (blocks : List Block) : Prop where
 isOauth : p.isOauth = isOauth
 tools : p.tools = tools
 shows : Shows (Block.content codec) (Block.changes codec) Change.isStart blocks
  p.output.content (journal p.events)
 opened : p.openBlocks = openFrom 0 blocks

variable {codec : Codec} {isOauth : Bool} {tools : List Tool}

theorem assembled_new (model : Model) (timestamp : Int) (isOauth : Bool) (tools : List Tool)
 (max : Nat) :
 Assembled codec isOauth tools ((new model (.pending model timestamp) isOauth
  tools).withMaxToolArgumentWhitespace max) [] where
 isOauth := rfl
 tools := rfl
 shows := .nil
 opened := rfl

variable {after before : List Block} {p p' : AnthropicStreamProcessor}

theorem Assembled.find {b : Block} (hp : Assembled codec isOauth tools p (before ++ b :: after))
 (hc : b.closed = false) (hbefore : ∀ c ∈ before, c.closed = false → c.index ≠ b.index) :
 p.find b.index = some (openFrom 0 before).length
  ∧ p.openBlocks[(openFrom 0 before).length]? = some (b.opened before.length)
  ∧ p.output.content[before.length]? = some (b.content codec) := by
 have hopen := hp.opened.trans (openFrom_open hc before after)
 refine ⟨?_, by rw [hopen]; simp, hp.shows.part (by simp)⟩
 rw [AnthropicStreamProcessor.find, hopen, findIdx?_append,
  findIdx?_eq_none_iff.mpr, Option.none_or, findIdx?_cons]
 · simp [Block.opened]
 · intro o ho
   simpa using openFrom_ne hbefore 0 o ho

theorem Assembled.change {p p' : AnthropicStreamProcessor} {before after : List Block}
 {b b' : Block} (hp : Assembled codec isOauth tools p (before ++ b :: after))
 {xs : List Change} (hl : b'.changes codec = b.changes codec ++ xs)
 (hx : ∀ x ∈ xs, x.isStart = false)
 (hconf : p'.isOauth = p.isOauth ∧ p'.tools = p.tools)
 (hcontent : p'.output.content = p.output.content.set before.length (b'.content codec))
 (hevents : journal p'.events = journal p.events ++ entered before.length xs)
 (hopen : p'.openBlocks = openFrom 0 (before ++ b' :: after)) :
 Assembled codec isOauth tools p' (before ++ b' :: after) where
 isOauth := hconf.1.trans hp.isOauth
 tools := hconf.2.trans hp.tools
 shows := by
  have hget : (before ++ b :: after)[before.length]? = some b := by simp
  have := hp.shows.change hget hl hx
  rw [hcontent, hevents]
  simpa using this
 opened := hopen

theorem Assembled.ignored {b : Block} (hp : Assembled codec isOauth tools p (before ++ b :: after))
 (hc : b.closed = false) {delta : Option Value} (h : typeOf delta ≠ some b.start.kind.deltaType)
 (hs : b.start.kind = .thinking → typeOf delta ≠ some "signature_delta") :
 Assembled codec isOauth tools p (before ++ b.extend delta :: after) := by
 have hget : (before ++ b :: after)[before.length]? = some b := by simp
 refine ⟨hp.isOauth, hp.tools, ?_, ?_⟩
 · have := hp.shows.silent hget (Block.content_extend_of_ne h hs) (Block.changes_extend_of_ne hc h)
   simpa using this
 · have hce : (b.extend delta).closed = false := hc
   rw [hp.opened, openFrom_open hc, openFrom_open hce, Block.opened_extend_of_ne h]

theorem Assembled.own {b : Block} (hp : Assembled codec isOauth tools p (before ++ b :: after))
 (hc : b.closed = false) {delta : Option Value} (h : typeOf delta = some b.start.kind.deltaType)
 (hconf : p'.isOauth = p.isOauth ∧ p'.tools = p.tools) (hcontent : p'.output.content
  = p.output.content.set before.length ((b.extend delta).content codec))
 (hevents : journal p'.events = journal p.events
  ++ [(before.length, .delta b.start.kind (textOf delta b.start.kind.deltaKey))])
 (hopen : p'.openBlocks
  = p.openBlocks.set (openFrom 0 before).length ((b.extend delta).opened before.length)) :
 Assembled codec isOauth tools p' (before ++ b.extend delta :: after) := by
 have hce : (b.extend delta).closed = false := hc
 refine hp.change (Block.changes_extend_of_eq hc h) (by simp [Change.isStart]) hconf hcontent
  hevents ?_
 rw [hopen, hp.opened, openFrom_open hc, openFrom_open hce]
 simp

/-- **A delta extends its block,** and nothing else. -/
theorem Assembled.delta {p p' : AnthropicStreamProcessor} {before after : List Block} {b : Block}
 (hp : Assembled codec isOauth tools p (before ++ b :: after)) (hc : b.closed = false)
 (hbefore : ∀ c ∈ before, c.closed = false → c.index ≠ b.index) {delta : Option Value}
 (h : p.deltaAt codec (openFrom 0 before).length delta = .ok p') :
 Assembled codec isOauth tools p' (before ++ b.extend delta :: after) := by
 obtain ⟨-, hslot, hcontent⟩ := hp.find hc hbefore
 have hstart' : (b.extend delta).start = b.start := rfl
 have hkeep : b.start.kind ≠ .toolCall → p.openBlocks
  = p.openBlocks.set (openFrom 0 before).length ((b.extend delta).opened before.length) := by
  intro hk
  obtain ⟨hlt, hget⟩ := List.getElem_of_getElem? hslot
  rw [Block.opened_extend_of_kind hk, ← hget, set_getElem_self]
 rw [deltaAt, hslot] at h
 simp only [Option.map_some, Option.getD_some] at h
 rw [show (b.opened before.length).contentIndex = before.length from rfl, hcontent] at h
 cases hstart : b.start with
 | text block =>
  have hkind : b.start.kind = .text := by rw [hstart]; rfl
  rw [Block.content_text hstart] at h
  by_cases htype : typeOf delta = some "text_delta"
  · have hown : typeOf delta = some b.start.kind.deltaType := by rw [hkind]; exact htype
    rw [htype] at h
    cases h
    refine hp.own hc hown ⟨rfl, rfl⟩ ?_ ?_ (hkeep (by simp [hkind]))
    · rw [Block.content_text (hstart'.trans hstart), Block.text_extend_of_eq hown, hkind,
       ← String.append_assoc]
      rfl
    · rw [hkind]
      simp [journal, emit, setBlock, AssistantMessageEvent.contentIndex,
       AssistantMessageEvent.change, BlockKind.deltaKey]
  · have hp' : p = p' := by
     split at h
     · exact absurd ‹_› htype
     all_goals first
      | exact ok.inj h
      | (rename_i hblock; exact absurd hblock (by simp))
    exact hp' ▸ hp.ignored hc (by rw [hkind]; exact htype) (by simp [hkind])
 | thinking block =>
  have hkind : b.start.kind = .thinking := by rw [hstart]; rfl
  rw [Block.content_thinking hstart] at h
  by_cases htype : typeOf delta = some "thinking_delta"
  · have hown : typeOf delta = some b.start.kind.deltaType := by rw [hkind]; exact htype
    rw [htype] at h
    cases h
    refine hp.own hc hown ⟨rfl, rfl⟩ ?_ ?_ (hkeep (by simp [hkind]))
    · rw [Block.content_thinking (hstart'.trans hstart), Block.text_extend_of_eq hown, hkind,
       ← String.append_assoc, Block.signature_extend, if_neg (by rw [htype]; decide)]
      rfl
    · rw [hkind]
      simp [journal, emit, setBlock, AssistantMessageEvent.contentIndex,
       AssistantMessageEvent.change, BlockKind.deltaKey]
  have hne : typeOf delta ≠ some b.start.kind.deltaType := by rw [hkind]; exact htype
  by_cases hsig : typeOf delta = some "signature_delta"
  · rw [hsig] at h
    cases h
    have hchanges := @Block.changes_extend_of_ne codec _ _ hc hne
    have hce : (b.extend delta).closed = false := hc
    refine @Assembled.change codec isOauth tools p _ before after b (b.extend delta) hp [] (by rw [hchanges, append_nil]) (by simp)
     ⟨rfl, rfl⟩ ?_ (by simp [entered, setBlock]) ?_
    · rw [Block.content_thinking (hstart'.trans hstart), Block.text_extend_of_ne hne,
       Block.signature_extend, if_pos hsig]
      rfl
    · rw [setBlock, hp.opened, openFrom_open hc, openFrom_open hce, Block.opened_extend_of_ne hne]
  · have hp' : p = p' := by
     split at h
     next hblock =>
      simp at hblock
     · exact absurd ‹_› htype
     next hblock =>
      simp at hblock
     · exact absurd ‹_› hsig
     · exact ok.inj h
    exact hp' ▸ hp.ignored hc hne fun _ => hsig
 | toolCall call =>
  have hkind : b.start.kind = .toolCall := by rw [hstart]; rfl
  rw [Block.content_call hstart] at h
  by_cases htype : typeOf delta = some "input_json_delta"
  · have hown : typeOf delta = some b.start.kind.deltaType := by rw [hkind]; exact htype
    have htexts : (b.extend delta).texts = b.texts ++ [textOf delta "partial_json"] := by
     rw [Block.texts_extend_of_eq hown, hkind]
     rfl
    rw [htype] at h
    obtain ⟨scan, hscan, h⟩ := bind_ok h
    cases h
    have hopened : (b.extend delta).opened before.length = { b.opened before.length with
         partialJson := (b.opened before.length).partialJson.push (textOf delta "partial_json")
         scan } := by
     rw [ArgumentScan.checkDelta_ok hscan]
     unfold Block.opened
     rw [hstart', hstart, htexts]
     simp only [foldl_append, foldl_cons, foldl_nil]
     rfl
    refine hp.own hc hown ⟨rfl, rfl⟩ ?_ ?_ (by rw [hopened]; rfl)
    · have harguments : (b.extend delta).arguments codec call.arguments
       = ((b.opened before.length).partialJson.push (textOf delta "partial_json")).object
        codec := by
       have hce : (b.extend delta).closed = false := hc
       rw [Block.arguments, hce, htexts, StreamingJsonObject.object, StreamingJsonObject.push,
        Block.opened, hstart]
       simp
      rw [Block.content_call (hstart'.trans hstart), harguments]
      rfl
    · rw [hkind]
      simp [journal, emit, setBlock, AssistantMessageEvent.contentIndex,
       AssistantMessageEvent.change, BlockKind.deltaKey]
  · have hp' : p = p' := by
     split at h
     next hblock =>
      simp at hblock
     next hblock =>
      simp at hblock
     · exact absurd ‹_› htype
     next hblock =>
      simp at hblock
     · exact ok.inj h
    exact hp' ▸ hp.ignored hc (by rw [hkind]; exact htype) (by simp [hkind])

theorem Assembled.start {p p' : AnthropicStreamProcessor} {blocks : List Block} {event : Value}
 (hp : Assembled codec isOauth tools p blocks) (h : p.contentBlockStart codec event = .ok p') :
 Assembled codec isOauth tools p'
  (match startContent codec isOauth tools (get event "content_block") with
   | some start => blocks ++ [.begun (providerIndex event) start]
   | none => blocks) := by
 unfold contentBlockStart at h
 dsimp only at h
 split at h
 next hfallback =>
  have hnone : startContent codec isOauth tools (get event "content_block") = none := by
   simp [startContent, hfallback]
  rw [hnone]
  split at h
  · simp at h
  · exact ok.inj h ▸ hp
 · obtain rfl := hp.isOauth
   obtain rfl := hp.tools
   split at h
   next hnone =>
    rw [hnone]
    exact ok.inj h ▸ hp
   next content hcontent =>
    rw [hcontent]
    cases h
    have hlen : p.output.content.length = blocks.length := by
     rw [hp.shows.parts, length_map]
    have hview : (Block.begun (providerIndex event) content).content codec = content := by
     cases content <;> simp [Block.content, Block.begun, Block.text, Block.texts,
      Block.deltaTexts, Block.signature, Block.arguments, String.join]
    have hadd := hp.shows.add (l := .begun (providerIndex event) content)
     (x := .start content.kind) rfl rfl
    rw [hview] at hadd
    refine ⟨rfl, rfl, ?_, ?_⟩
    · have hjournal : ∀ event : AssistantMessageEvent,
       event.contentIndex = p.output.content.length → event.change = .start content.kind →
       journal (p.events ++ [event])
        = journal p.events ++ entered p.output.content.length [.start content.kind] := by
       intro event hi hc
       simp [journal, entered, hi, hc]
      refine Eq.subst (motive := fun j => Shows _ _ _ _ _ j) (hjournal _ ?_ ?_).symm hadd
      all_goals cases content <;> rfl
    · show p.openBlocks ++ _ = openFrom 0 (blocks ++ [_])
      rw [openFrom_append, hp.opened, hlen, Nat.zero_add]
      cases content <;> rfl

theorem Assembled.stop {p : AnthropicStreamProcessor} {before after : List Block} {b : Block}
 (hp : Assembled codec isOauth tools p (before ++ b :: after)) (hc : b.closed = false)
 (hbefore : ∀ c ∈ before, c.closed = false → c.index ≠ b.index) {event : Value}
 (he : providerIndex event = b.index) :
 Assembled codec isOauth tools (p.contentBlockStop codec event) (before ++ b.close :: after) := by
 obtain ⟨hfind, hslot, hcontent⟩ := hp.find hc hbefore
 have hchanges : b.close.changes codec = b.changes codec ++ [(b.close.content codec).final] := by
  rw [Block.changes, Block.changes, show b.close.texts = b.texts from rfl,
   show b.close.start = b.start from rfl, show b.close.closed = true from rfl, hc]
  simp
 have hopen : p.openBlocks.eraseIdx (openFrom 0 before).length
  = openFrom 0 (before ++ b.close :: after) := by
  have hclosed : b.close.closed = true := rfl
  rw [hp.opened, openFrom_open hc, openFrom_append, openFrom, if_pos hclosed, Nat.zero_add,
   eraseIdx_append_of_length_le (Nat.le_refl _)]
  simp
 have hfinal : (b.close.content codec).final.isStart = false := by
  cases b.close.content codec <;> rfl
 have hkeep : b.close.content codec = b.content codec →
  p.output.content = p.output.content.set before.length (b.close.content codec) := by
  intro he
  obtain ⟨hlt, hget⟩ := List.getElem_of_getElem? hcontent
  rw [he, ← hget, set_getElem_self]
 unfold contentBlockStop
 rw [he, hfind]
 dsimp only
 rw [hslot]
 dsimp only
 rw [show (b.opened before.length).contentIndex = before.length from rfl, hcontent]
 cases hstart : b.start with
 | text block =>
  have hclose : b.close.content codec = .text { block with text := block.text ++ b.text } :=
   Block.content_text (b := b.close) hstart
  have hsame := hclose.trans (@Block.content_text codec _ _ hstart).symm
  rw [Block.content_text hstart]
  refine hp.change hchanges (by simpa using hfinal) ⟨rfl, rfl⟩ (hkeep hsame) ?_ hopen
  rw [hclose]
  simp [journal, emit, AssistantContentBlock.final, AssistantMessageEvent.contentIndex,
   AssistantMessageEvent.change, entered]
 | thinking block =>
  have hclose : b.close.content codec = .thinking { block with
   thinking := block.thinking ++ b.text
   thinkingSignature := b.signature block.thinkingSignature } :=
   Block.content_thinking (b := b.close) hstart
  have hsame := hclose.trans (@Block.content_thinking codec _ _ hstart).symm
  rw [Block.content_thinking hstart]
  refine hp.change hchanges (by simpa using hfinal) ⟨rfl, rfl⟩ (hkeep hsame) ?_ hopen
  rw [hclose]
  simp [journal, emit, AssistantContentBlock.final, AssistantMessageEvent.contentIndex,
   AssistantMessageEvent.change, entered]
 | toolCall call =>
  have hclose : b.close.content codec = .toolCall { call with arguments := codec.parse b.text } :=
   Block.content_call (b := b.close) hstart
  have htext : (b.opened before.length).partialJson.text = b.text := by
   rw [Block.opened, hstart]
   rfl
  rw [Block.content_call hstart]
  refine hp.change hchanges (by simpa using hfinal) ⟨rfl, rfl⟩ ?_ ?_ hopen
  · rw [hclose]
    simp [setBlock, emit, htext]
  · rw [hclose]
    simp [journal, emit, setBlock, AssistantContentBlock.final, htext,
     AssistantMessageEvent.contentIndex, AssistantMessageEvent.change, entered]

/-- **Every event changes the blocks as it is assigned.** -/
theorem Assembled.event {blocks : List Block} {event : Value}
 (hp : Assembled codec isOauth tools p blocks) (h : p.handleEvent codec event = .ok p') :
 Assembled codec isOauth tools p' (assign codec isOauth tools blocks event) := by
 have hother : ∀ {q : AnthropicStreamProcessor}, q.isOauth = p.isOauth → q.tools = p.tools →
  q.output.content = p.output.content → q.events = p.events → q.openBlocks = p.openBlocks →
  Assembled codec isOauth tools q blocks := by
  intro q h1 h2 h3 h4 h5
  exact ⟨h1.trans hp.isOauth, h2.trans hp.tools, by rw [h3, h4]; exact hp.shows,
   h5.trans hp.opened⟩
 have hnone : ∀ {index : Int}, (∀ b ∈ blocks, b.closed = false → b.index ≠ index) →
  p.find index = none := by
  intro index hne
  refine findIdx?_eq_none_iff.mpr fun o ho => ?_
  rw [hp.opened] at ho
  simpa using openFrom_ne hne 0 o ho
 unfold handleEvent at h
 unfold assign
 split at h
 next htype =>
  rw [htype]
  exact ok.inj h ▸ hother rfl rfl rfl rfl rfl
 next htype =>
  rw [htype]
  exact hp.start h
 next htype =>
  rw [htype]
  rcases firstOpen_cases blocks (providerIndex event) with ⟨hfirst, hne⟩ | 
   ⟨before, b, after, rfl, hc, hindex, hfirst, hbefore⟩
  · rw [contentBlockDelta, hnone hne] at h
    simp only [hfirst]
    exact ok.inj h ▸ hp
  · rw [← hindex] at hbefore
    rw [contentBlockDelta, ← hindex, (hp.find hc hbefore).1] at h
    simp only [hfirst, modify_append]
    exact hp.delta hc hbefore h
 next htype =>
  rw [htype]
  cases h
  rcases firstOpen_cases blocks (providerIndex event) with ⟨hfirst, hne⟩ | 
   ⟨before, b, after, rfl, hc, hindex, hfirst, hbefore⟩
  · rw [contentBlockStop, hnone hne]
    simp only [hfirst]
    exact hp
  · rw [← hindex] at hbefore
    simp only [hfirst, modify_append]
    exact hp.stop hc hbefore hindex.symm
 next htype =>
  rw [htype]
  unfold messageDelta at h
  dsimp only at h
  split at h
  · exact ok.inj h ▸ hp
  · obtain ⟨⟨stopReason, error⟩, -, h⟩ := bind_ok h
    exact ok.inj h ▸ hother rfl rfl rfl rfl rfl
 next htype =>
  rw [htype]
  exact ok.inj h ▸ hother rfl rfl rfl rfl rfl
 next h1 h2 h3 h4 h5 h6 =>
  split
  · exact absurd ‹_› h2
  · exact absurd ‹_› h3
  · exact absurd ‹_› h4
  · exact ok.inj h ▸ hp

/-- **What the processor holds is what the blocks of the stream say,** whatever order their
events come in. -/
theorem Assembled.events {blocks : List Block} {events : List Value}
 (hp : Assembled codec isOauth tools p blocks) (h : p.handleEvents codec events = .ok p') :
 Assembled codec isOauth tools p' (events.foldl (assign codec isOauth tools) blocks) := by
 induction events generalizing p blocks with
 | nil => exact ok.inj h ▸ hp
 | cons event events ih =>
  rw [handleEvents, foldlM_cons] at h
  obtain ⟨q, hq, h⟩ := bind_ok h
  exact ih (hp.event hq) h

end AnthropicStreamProcessor

end Bake.Ai
