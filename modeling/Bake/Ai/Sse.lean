import Bake.Lib.LineBreaks
import Bake.Lib.Utf8Stream
import Mathlib.Data.List.Induction

/-!
# Server-sent events

`SseDecoder`: bytes in chunks, decoded as UTF-8 without a byte order mark in front, read
line by line and folded into events. Four things wait between chunks: bytes that a
character may still continue, whether a text has begun, a line without its end, and the
fields of an event without its end. None of them depends on where the chunks end.
-/

open List LineBreaks

namespace Bake.Ai

def byteOrderMark : Char := '\uFEFF'

def dropBom : List Char → List Char
 | c :: text => if c = byteOrderMark then text else c :: text
 | [] => []

structure ServerSentEvent where
 /-- The `event` field, if any. -/
 event : Option (List Char)
 /-- The `data` lines joined by newlines. -/
 data : List Char
 /-- The event's raw lines. -/
 raw : List (List Char)

structure Utf8StreamDecoder where
 pending : List UInt8
 started : Bool

namespace Utf8StreamDecoder

/-- `Utf8StreamDecoder::decode`: the text of more bytes. -/
def decode (d : Utf8StreamDecoder) (bytes : List UInt8) : Utf8StreamDecoder × List Char :=
 let (out, pending) := Utf8.drain (d.pending ++ bytes)
 if !d.started && !out.isEmpty then ({ pending, started := true }, dropBom out)
 else ({ d with pending }, out)

def finish (d : Utf8StreamDecoder) : Utf8StreamDecoder × List Char :=
 if d.pending.isEmpty then (d, []) else ({ d with pending := [] }, [Utf8.replacement])

end Utf8StreamDecoder

structure SseFields where
 event : Option (List Char)
 data : List (List Char)
 raw : List (List Char)

namespace SseFields

def empty : SseFields := { event := none, data := [], raw := [] }

def flush (f : SseFields) : SseFields × List ServerSentEvent :=
 if f.event.isNone && f.data.isEmpty then (f, [])
 else (empty, [{ event := f.event, data := ['\n'].intercalate f.data, raw := f.raw }])

def splitField (line : List Char) : List Char × List Char :=
 let value := (line.dropWhile (· ≠ ':')).drop 1
 (line.takeWhile (· ≠ ':'), match value with
  | ' ' :: rest => rest
  | value => value)

def decodeLine (f : SseFields) (line : List Char) : SseFields × List ServerSentEvent :=
 if line.isEmpty then f.flush
 else if line.head? = some ':' then ({ f with raw := f.raw ++ [line] }, [])
 else
  let (field, value) := splitField line
  let f :=
   if field = "event".toList then { f with event := some value }
   else if field = "data".toList then { f with data := f.data ++ [value] }
   else f
  ({ f with raw := f.raw ++ [line] }, [])

def decodeLines (f : SseFields) : List (List Char) → SseFields × List ServerSentEvent
 | [] => (f, [])
 | line :: lines =>
  let (f, events) := f.decodeLine line
  let (f, more) := decodeLines f lines
  (f, events ++ more)

end SseFields

structure SseDecoder where
 utf8 : Utf8StreamDecoder
 buffer : List Char
 fields : SseFields

namespace SseDecoder

def new : SseDecoder :=
 { utf8 := { pending := [], started := false }, buffer := [], fields := .empty }

/-- More text: `drain_lines`. -/
def drainLines (d : SseDecoder) (atEnd : Bool) (text : List Char) :
 SseDecoder × List ServerSentEvent :=
 let (lines, buffer) := drain atEnd (d.buffer ++ text)
 let (fields, events) := d.fields.decodeLines lines
 ({ d with buffer, fields }, events)

def push (d : SseDecoder) (bytes : List UInt8) : SseDecoder × List ServerSentEvent :=
 let (utf8, text) := d.utf8.decode bytes
 { d with utf8 }.drainLines false text

def finish (d : SseDecoder) : List ServerSentEvent :=
 let (utf8, text) := d.utf8.finish
 let (d, events) := { d with utf8 }.drainLines true text
 let (fields, last) := if d.buffer.isEmpty then (d.fields, []) else d.fields.decodeLine d.buffer
 events ++ last ++ fields.flush.2

/-- The events of chunks, from a state of the decoder on to the end of the stream. -/
def decodeFrom (d : SseDecoder) : List (List UInt8) → List ServerSentEvent
 | [] => d.finish
 | bytes :: chunks =>
  let (d, events) := d.push bytes
  events ++ decodeFrom d chunks

def decodeAll (chunks : List (List UInt8)) : List ServerSentEvent := decodeFrom new chunks

end SseDecoder

/-! ## The reference -/

def eventsOf (text : List Char) : List ServerSentEvent :=
 let (fields, events) := SseFields.empty.decodeLines (pieces text)
 events ++ fields.flush.2

def reference (bytes : List UInt8) : List ServerSentEvent := eventsOf (dropBom (Utf8.lossy bytes))

/-! ## Any chunks -/

theorem SseFields.decodeLines_cons (f : SseFields) (line : List Char) (lines : List (List Char)) :
 f.decodeLines (line :: lines) = (((f.decodeLine line).1.decodeLines lines).1,
  (f.decodeLine line).2 ++ ((f.decodeLine line).1.decodeLines lines).2) := rfl

theorem SseFields.decodeLines_append (f : SseFields) (a b : List (List Char)) :
 f.decodeLines (a ++ b) = (((f.decodeLines a).1.decodeLines b).1,
  (f.decodeLines a).2 ++ ((f.decodeLines a).1.decodeLines b).2) := by
 induction a generalizing f with
 | nil => rfl
 | cons line a ih =>
  simp only [cons_append, decodeLines, ih, append_assoc]

theorem dropBom_append {text : List Char} (h : text ≠ []) (more : List Char) :
 dropBom (text ++ more) = dropBom text ++ more := by
 cases text with
 | nil => exact absurd rfl h
 | cons c text =>
  rw [cons_append, dropBom, dropBom]
  split <;> rfl

namespace SseDecoder

/-- What has been read of the bytes so far: the text, up to what waits. -/
structure Reads (d : SseDecoder) (bytes : List UInt8) (events : List ServerSentEvent) : Prop where
 pending : d.utf8.pending = (Utf8.drain bytes).2
 started : d.utf8.started = !(Utf8.drain bytes).1.isEmpty
 buffer : d.buffer = (drain false (dropBom (Utf8.drain bytes).1)).2
 fields : d.fields = (SseFields.empty.decodeLines (drain false (dropBom (Utf8.drain bytes).1)).1).1
 events : events = (SseFields.empty.decodeLines (drain false (dropBom (Utf8.drain bytes).1)).1).2

theorem reads_new : Reads new [] [] := by
 constructor <;> simp [new, dropBom, drain, SseFields.decodeLines]

theorem decode_eq {d : Utf8StreamDecoder} {bytes : List UInt8}
 (hp : d.pending = (Utf8.drain bytes).2) (hs : d.started = !(Utf8.drain bytes).1.isEmpty)
 (more : List UInt8) :
 (d.decode more).1.pending = (Utf8.drain (bytes ++ more)).2
  ∧ (d.decode more).1.started = !(Utf8.drain (bytes ++ more)).1.isEmpty
  ∧ dropBom (Utf8.drain (bytes ++ more)).1 = dropBom (Utf8.drain bytes).1 ++ (d.decode more).2 := by
 have happend := Utf8.drain_append bytes more
 unfold Utf8StreamDecoder.decode
 rw [hp, happend]
 dsimp only
 by_cases hfirst : (Utf8.drain bytes).1 = []
 · rw [hs, hfirst]
   by_cases hout : (Utf8.drain ((Utf8.drain bytes).2 ++ more)).1 = []
   · rw [hout]
     exact ⟨by simp, by simp, by simp [dropBom]⟩
   · simp [hout, dropBom]
 · have hstarted : d.started = true := by simp [hs, hfirst]
   simp [hstarted, hfirst, dropBom_append hfirst]

variable {events : List ServerSentEvent}

theorem Reads.push {d : SseDecoder} {bytes : List UInt8} (h : Reads d bytes events)
 (more : List UInt8) : Reads (d.push more).1 (bytes ++ more) (events ++ (d.push more).2) := by
 obtain ⟨hpending, hstarted, htext⟩ := decode_eq h.pending h.started more
 have hdrain := drain_append false (dropBom (Utf8.drain bytes).1) (d.utf8.decode more).2
 rw [← htext, ← h.buffer] at hdrain
 have hfields := SseFields.decodeLines_append .empty (drain false (dropBom (Utf8.drain bytes).1)).1
  (drain false (d.buffer ++ (d.utf8.decode more).2)).1
 rw [← h.fields, ← h.events] at hfields
 constructor
 · exact hpending
 · exact hstarted
 · rw [hdrain]
   rfl
 · rw [hdrain, join, hfields]
   rfl
 · rw [hdrain, join, hfields]
   rfl

theorem flush_flush (f : SseFields) : f.flush.1.flush.2 = [] := by
 cases h : f.event.isNone && f.data.isEmpty with
 | true => simp [SseFields.flush, h]
 | false => simp [SseFields.flush, h, SseFields.empty]

theorem decode_last (f : SseFields) (piece : List Char) :
 (f.decodeLine piece).2 ++ (f.decodeLine piece).1.flush.2
  = (if piece.isEmpty then (f, []) else f.decodeLine piece).2
   ++ (if piece.isEmpty then (f, []) else f.decodeLine piece).1.flush.2 := by
 cases piece with
 | nil =>
  change f.flush.2 ++ f.flush.1.flush.2 = [] ++ f.flush.2
  rw [flush_flush, append_nil, nil_append]
 | cons c piece => rfl

theorem Reads.finish {d : SseDecoder} {bytes : List UInt8} {events : List ServerSentEvent}
 (h : Reads d bytes events) : events ++ d.finish = reference bytes := by
 obtain ⟨hpending, -, hbuffer, hfields, hevents⟩ := h
 have htext : dropBom (Utf8.lossy bytes) = dropBom (Utf8.drain bytes).1 ++ d.utf8.finish.2 := by
  have hfinish : d.utf8.finish.2
   = if (Utf8.drain bytes).2 = [] then [] else [Utf8.replacement] := by
   unfold Utf8StreamDecoder.finish
   rw [hpending]
   cases (Utf8.drain bytes).2 <;> rfl
  rw [Utf8.lossy_drain, hfinish]
  by_cases hfirst : (Utf8.drain bytes).1 = []
  · rw [hfirst]
    split <;> rfl
  · exact dropBom_append hfirst _
 have hdrain := drain_append true (dropBom (Utf8.drain bytes).1) d.utf8.finish.2
 rw [← htext, ← hbuffer] at hdrain
 unfold reference eventsOf
 rw [pieces_eq, hdrain, join, append_assoc,
  SseFields.decodeLines_append, ← hfields, ← hevents, SseFields.decodeLines_append]
 unfold SseDecoder.finish drainLines
 simp only [SseFields.decodeLines, append_nil, append_assoc]
 rw [decode_last]

theorem Reads.decodeFrom {d : SseDecoder} {bytes : List UInt8} (h : Reads d bytes events)
 (chunks : List (List UInt8)) :
 events ++ d.decodeFrom chunks = reference (bytes ++ chunks.flatten) := by
 induction chunks generalizing d bytes events with
 | nil => simpa [SseDecoder.decodeFrom] using h.finish
 | cons more chunks ih =>
  have hrest := ih (h.push more)
  rw [append_assoc, append_assoc] at hrest
  simpa [SseDecoder.decodeFrom] using hrest

theorem decodeAll_eq (chunks : List (List UInt8)) :
 decodeAll chunks = reference chunks.flatten := by
 have h := reads_new.decodeFrom chunks
 rwa [nil_append, nil_append] at h

end SseDecoder

/-! ## Written events -/

/-- An event as it is written: an optional name and data lines, not both missing, each on
a line of its own. -/
structure WrittenEvent where
 name : Option (List Char)
 lines : List (List Char)
 name_line : ∀ n ∈ name, LineBreaks.OneLine n
 data_lines : ∀ line ∈ lines, LineBreaks.OneLine line
 written : name.isSome ∨ lines ≠ []

namespace WrittenEvent

def fieldLines (e : WrittenEvent) : List (List Char) :=
 e.name.toList.map ("event: ".toList ++ ·) ++ e.lines.map ("data: ".toList ++ ·)

def event (e : WrittenEvent) : ServerSentEvent :=
 { event := e.name, data := ['\n'].intercalate e.lines, raw := e.fieldLines }

end WrittenEvent

def writeEvents (b : LineBreaks.Break) (events : List WrittenEvent) : List Char :=
 write b (events.flatMap fun e => e.fieldLines ++ [[]])

theorem fieldLines_line (e : WrittenEvent) {line : List Char} (h : line ∈ e.fieldLines ++ [[]]) :
 LineBreaks.OneLine line ∧ line.head? ≠ some '\n' := by
 have hprefixed : ∀ (start : List Char) (l : List Char), LineBreaks.OneLine start →
  LineBreaks.OneLine l → LineBreaks.OneLine (start ++ l) := by
  intro start l hs hl c hc
  exact (mem_append.mp hc).elim (hs c) (hl c)
 rcases mem_append.mp h with h | h
 · rcases mem_append.mp h with h | h
   · obtain ⟨n, hn, rfl⟩ := mem_map.mp h
     have hline := e.name_line n (Option.mem_toList.mp hn)
     exact ⟨hprefixed _ _ (by simp [LineBreaks.OneLine, inLine]) hline, by simp⟩
   · obtain ⟨l, hl, rfl⟩ := mem_map.mp h
     exact ⟨hprefixed _ _ (by simp [LineBreaks.OneLine, inLine])
      (e.data_lines l hl), by simp⟩
 · rw [mem_singleton.mp h]
   exact ⟨fun c hc => absurd hc (by simp), by simp⟩

namespace SseFields

theorem decodeLine_event (f : SseFields) (name : List Char) :
 f.decodeLine ("event: ".toList ++ name)
  = ({ f with event := some name, raw := f.raw ++ ["event: ".toList ++ name] }, []) := rfl

theorem decodeLine_data (f : SseFields) (line : List Char) :
 f.decodeLine ("data: ".toList ++ line)
  = ({ f with data := f.data ++ [line], raw := f.raw ++ ["data: ".toList ++ line] }, []) := rfl

theorem decodeLines_data (f : SseFields) (lines : List (List Char)) :
 f.decodeLines (lines.map ("data: ".toList ++ ·))
  = ({ f with
   data := f.data ++ lines
   raw := f.raw ++ lines.map ("data: ".toList ++ ·) }, []) := by
 induction lines generalizing f with
 | nil => simp [decodeLines]
 | cons line lines ih =>
  rw [map_cons, decodeLines_cons, decodeLine_data, ih]
  simp

theorem decodeLines_written (e : WrittenEvent) :
 empty.decodeLines (e.fieldLines ++ [[]]) = (empty, [e.event]) := by
 have hfields : empty.decodeLines e.fieldLines
  = ({ event := e.name, data := e.lines, raw := e.fieldLines }, []) := by
  unfold WrittenEvent.fieldLines
  rw [decodeLines_append]
  cases e.name with
  | none =>
   simp only [Option.toList_none, map_nil, decodeLines, decodeLines_data]
   rfl
  | some name =>
   simp only [Option.toList_some, map_cons, map_nil, decodeLines, decodeLine_event,
    decodeLines_data]
   rfl
 have hflush : (e.name.isNone && e.lines.isEmpty) = false := by
  rcases e.written with h | h
  · cases hn : e.name with
    | none => rw [hn] at h; simp at h
    | some n => rfl
  · simp [h]
 rw [decodeLines_append, hfields]
 simp only [decodeLines, decodeLine, isEmpty_nil, if_true, flush, hflush]
 rfl

theorem decodeLines_events (events : List WrittenEvent) :
 empty.decodeLines (events.flatMap fun e => e.fieldLines ++ [[]])
  = (empty, events.map WrittenEvent.event) := by
 induction events with
 | nil => rfl
 | cons e events ih =>
  rw [flatMap_cons, decodeLines_append, decodeLines_written, ih]
  rfl

end SseFields

theorem dropBom_writeEvents (b : LineBreaks.Break) (events : List WrittenEvent) :
 dropBom (writeEvents b events) = writeEvents b events := by
 cases events with
 | nil => rfl
 | cons e events =>
  unfold writeEvents write
  rw [flatMap_cons]
  cases hname : e.name with
  | some name =>
   simp only [WrittenEvent.fieldLines, hname]
   rfl
  | none =>
   have hlines : e.lines ≠ [] := by
    rcases e.written with h | h
    · rw [hname] at h
      simp at h
    · exact h
   obtain ⟨line, lines, hl⟩ := exists_cons_of_ne_nil hlines
   simp only [WrittenEvent.fieldLines, hname, hl]
   rfl

/-- **Any chunks of a stream decode to the same events**, those of its lossily decoded
text, read line by line; and events written with any one line ending are read as they
were written. -/
theorem decode_chunks :
 (∀ chunks : List (List UInt8), SseDecoder.decodeAll chunks = SseDecoder.decodeAll [chunks.flatten]
  ∧ SseDecoder.decodeAll chunks = reference chunks.flatten)
 ∧ ∀ (b : LineBreaks.Break) (events : List WrittenEvent),
  reference (Utf8.encode (writeEvents b events)) = events.map WrittenEvent.event := by
 refine ⟨fun chunks => ⟨?_, SseDecoder.decodeAll_eq chunks⟩, fun b events => ?_⟩
 · rw [SseDecoder.decodeAll_eq, SseDecoder.decodeAll_eq, flatten_singleton]
 · rw [reference, Utf8.lossy_encode, dropBom_writeEvents, eventsOf, writeEvents,
    pieces_write fun line hline => ?_, SseFields.decodeLines_append,
    SseFields.decodeLines_events]
   · simp [SseFields.decodeLines, SseFields.decodeLine, SseFields.flush, SseFields.empty]
   · obtain ⟨e, -, he⟩ := mem_flatMap.mp hline
     exact fieldLines_line e he

end Bake.Ai
