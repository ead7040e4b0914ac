import Bake.Ai.Sse
import Bake.Lib.Run
import Bake.Tools.Truncate

/-!
# Tool output as it comes

`OutputAccumulator`: the chunks of a process's output, decoded as they come, of which only a
rolling tail is kept in memory. `Window` says what the tail is of the text so far: its end,
cut in front of a character that no longer fits, and the counters are those of the whole
text. A snapshot is `truncate_tail` of the tail's complete lines under the whole text's
counts, which is `truncate_tail` of the whole text exactly where `ShownAsWhole` says.
-/

open List Text Utf8

namespace Bake.Tools

open Text (size rows lastRow spent lastBytes AtLineStart)
open Except (bind_ok ok_bind)
open Or

/-- The largest `usize`. -/
def usizeMax : Nat := 2 ^ 64 - 1

def saturatingMul (a b : Nat) : Nat := min (a * b) usizeMax

inductive IoErrorKind
 | invalidInput
 | other
 deriving DecidableEq

structure IoError where
 kind : IoErrorKind
 text : String

def counterOverflow : IoError :=
 { kind := .other, text := "Output byte or line count exceeds the platform limit" }

def checkedAdd (a b : Nat) : Except IoError Nat :=
 if a + b ≤ usizeMax then .ok (a + b) else .error counterOverflow

/-- What the file system answers while one call runs. -/
structure Disk where
 /-- `output_files::create`: the path of a new file. -/
 create : Except IoError String
 /-- `write_all` of bytes to the output file. -/
 writeAll : List UInt8 → Except IoError Unit
 /-- `flush` of the output file. -/
 flush : Except IoError Unit

/-- Nothing fails. -/
def Disk.Works (disk : Disk) : Prop :=
 (∃ path, disk.create = .ok path) ∧ (∀ data, disk.writeAll data = .ok ()) ∧ disk.flush = .ok ()

inductive State
 | open
 | finished
 | failed
 deriving DecidableEq

structure OutputAccumulator where
 limits : TruncationOptions
 maxRollingBytes : Nat
 decoder : Ai.Utf8StreamDecoder
 raw : List UInt8
 tail : List Char
 tailStartsAtLineBoundary : Bool
 totalRawBytes : Nat
 totalDecodedBytes : Nat
 completedLines : Nat
 totalLines : Nat
 currentLineBytes : Nat
 state : State
 path : Option String
 /-- The open output file: the bytes it holds. -/
 file : Option (List UInt8)

structure OutputSnapshot where
 content : List Char
 truncation : TruncationResult
 fullOutputPath : Option String

/-- `decode_all`: the text of whole bytes. -/
def decodeAll (bytes : List UInt8) : List Char :=
 let (decoder, text) := ({ pending := [], started := false } : Ai.Utf8StreamDecoder).decode bytes
 text ++ decoder.finish.2

namespace OutputAccumulator

def new (limits : TruncationOptions) : OutputAccumulator where
 limits := limits
 maxRollingBytes := max (saturatingMul limits.maxBytes 2) 1
 decoder := { pending := [], started := false }
 raw := []
 tail := []
 tailStartsAtLineBoundary := true
 totalRawBytes := 0
 totalDecodedBytes := 0
 completedLines := 0
 totalLines := 0
 currentLineBytes := 0
 state := .open
 path := none
 file := none

/-- Only the last `maxRollingBytes` bytes of a tail that has grown to twice as many stay. -/
def trim (acc : OutputAccumulator) : OutputAccumulator :=
 if size acc.tail > saturatingMul acc.maxRollingBytes 2 then
  let kept := lastBytes acc.maxRollingBytes acc.tail
  { acc with
    tailStartsAtLineBoundary := (acc.tail.take (acc.tail.length - kept.length)).getLast? = some '\n'
    tail := kept }
 else acc

/-- The completed lines and the bytes of the line that has begun, after more text. -/
def countLines (acc : OutputAccumulator) (text : List Char) : Except IoError (Nat × Nat) :=
 if '\n' ∈ text then do
  let completedLines ← checkedAdd acc.completedLines (text.count '\n')
  .ok (completedLines, size (lastRow text))
 else do
  let currentLineBytes ← checkedAdd acc.currentLineBytes (size text)
  .ok (acc.completedLines, currentLineBytes)

def appendDecoded (acc : OutputAccumulator) (text : List Char) :
 Except IoError OutputAccumulator :=
 if text.isEmpty then .ok acc
 else do
  let totalDecodedBytes ← checkedAdd acc.totalDecodedBytes (size text)
  let acc := trim { acc with totalDecodedBytes, tail := acc.tail ++ text }
  let (completedLines, currentLineBytes) ← acc.countLines text
  let totalLines ← checkedAdd completedLines (if currentLineBytes > 0 then 1 else 0)
  .ok { acc with completedLines, currentLineBytes, totalLines }

def shouldSpill (acc : OutputAccumulator) : Bool :=
 acc.totalRawBytes > acc.limits.maxBytes || acc.totalDecodedBytes > acc.limits.maxBytes
  || acc.totalLines > acc.limits.maxLines

def ensureFile (acc : OutputAccumulator) (disk : Disk) : Except IoError OutputAccumulator :=
 if acc.path.isSome then .ok acc
 else do
  let path ← disk.create
  disk.writeAll acc.raw
  .ok { acc with raw := [], path := some path, file := some acc.raw }

/-- The output goes to a file once it is longer than the limits. -/
def spill (acc : OutputAccumulator) (disk : Disk) : Except IoError OutputAccumulator :=
 if acc.shouldSpill then acc.ensureFile disk else .ok acc

def appendInner (acc : OutputAccumulator) (disk : Disk) (data : List UInt8) :
 Except IoError OutputAccumulator := do
 let totalRawBytes ← checkedAdd acc.totalRawBytes data.length
 let (decoder, text) := acc.decoder.decode data
 let acc ← appendDecoded { acc with totalRawBytes, decoder } text
 let acc ← acc.spill disk
 match acc.file with
 | some file =>
  disk.writeAll data
  .ok { acc with file := some (file ++ data) }
 | none => .ok { acc with raw := acc.raw ++ data }

/-- `record_failure`: a call that fails poisons the accumulator. Nothing else of a failed
accumulator is read again. -/
def recordFailure (acc : OutputAccumulator) (result : Except IoError OutputAccumulator) :
 OutputAccumulator × Except IoError Unit :=
 match result with
 | .ok acc => (acc, .ok ())
 | .error error => ({ acc with state := .failed, file := none }, .error error)

def append (acc : OutputAccumulator) (disk : Disk) (data : List UInt8) :
 OutputAccumulator × Except IoError Unit :=
 if acc.state ≠ .open then
  (acc, .error { kind := .invalidInput
                 text := "Cannot append to a finished or failed output accumulator" })
 else acc.recordFailure (acc.appendInner disk data)

def checkHealthy (acc : OutputAccumulator) : Except IoError Unit :=
 if acc.state = .failed then
  .error { kind := .other
           text := "Output accumulator failed; complete output is unavailable" }
 else .ok ()

/-- What `OutputAccumulator::finish` does to an open accumulator. -/
def finishInner (acc : OutputAccumulator) (disk : Disk) : Except IoError OutputAccumulator := do
 let (decoder, rest) := acc.decoder.finish
 let acc ← appendDecoded { acc with decoder } rest
 let acc ← acc.spill disk
 match acc.file with
 | some _ => disk.flush
 | none => .ok ()
 .ok { acc with file := none, state := .finished }

def finish (acc : OutputAccumulator) (disk : Disk) : OutputAccumulator × Except IoError Unit :=
 match acc.checkHealthy with
 | .error error => (acc, .error error)
 | .ok () =>
  if acc.state = .finished then (acc, .ok ())
  else acc.recordFailure (acc.finishInner disk)

/-- The part of the tail that a snapshot shows: its complete lines, or all of it where it is
a part of one. -/
def visible (acc : OutputAccumulator) : List Char :=
 if acc.tailStartsAtLineBoundary then acc.tail
 else if '\n' ∈ acc.tail then (acc.tail.dropWhile (fun c => c ≠ '\n')).drop 1
 else acc.tail

/-- What `snapshot` says of the visible part, under the counts of the whole output. -/
def truncation (acc : OutputAccumulator) : TruncationResult :=
 let truncation := truncateTail acc.visible acc.limits
 let truncated := decide (acc.totalLines > acc.limits.maxLines)
  || decide (acc.totalDecodedBytes > acc.limits.maxBytes)
 let truncatedBy :=
  if truncated then
   truncation.truncatedBy.or
    (some (if acc.totalDecodedBytes > acc.limits.maxBytes then .bytes else .lines))
  else none
 { truncation with
   truncated, truncatedBy, totalLines := acc.totalLines, totalBytes := acc.totalDecodedBytes }

def snapshot (acc : OutputAccumulator) : Except IoError OutputSnapshot := do
 acc.checkHealthy
 .ok { content := acc.truncation.content, truncation := acc.truncation
       fullOutputPath := acc.path }

/-- Chunks one after the other, whatever becomes of each. -/
def appendAll (acc : OutputAccumulator) : List (Disk × List UInt8) → OutputAccumulator
 | [] => acc
 | (disk, data) :: steps => appendAll (acc.append disk data).1 steps

/-- An accumulator that was given chunks and finished. -/
def run (limits : TruncationOptions) (steps : List (Disk × List UInt8)) (last : Disk) :
 OutputAccumulator :=
 ((appendAll (new limits) steps).finish last).1

/-! ## What the accumulator holds -/

/-- A tail of a text, and whether it starts a line: the text's end, cut behind a character
that would take it over twice the byte limit. -/
def Cut (limits : TruncationOptions) (text tail : List Char) (boundary : Bool) : Prop :=
 ∃ front, text = front ++ tail ∧ (boundary = true ↔ AtLineStart front)
  ∧ ∀ c ∈ front.getLast?, max (2 * limits.maxBytes) 1 < c.utf8Size + size tail

/-- The accumulator's text part, for the text so far: what the tail is of it, and the
counters of the whole of it. -/
structure Window (acc : OutputAccumulator) (text : List Char) : Prop where
 rolling : acc.maxRollingBytes = max (saturatingMul acc.limits.maxBytes 2) 1
 cut : Cut acc.limits text acc.tail acc.tailStartsAtLineBoundary
 decoded : acc.totalDecodedBytes = size text
 completed : acc.completedLines = text.count '\n'
 current : acc.currentLineBytes = size (lastRow text)
 lines : acc.totalLines = (rows text).length

theorem rows_le_size (text : List Char) : (rows text).length ≤ size text := by
 have hcount : ∀ text : List Char, text.count '\n' ≤ size text := by
  intro text
  induction text with
  | nil => exact Nat.le_refl 0
  | cons c text ih =>
   have := Char.utf8Size_pos c
   rw [count_cons, size_cons]
   split <;> omega
 obtain ⟨front, hstart, heq, hlast⟩ := split_last text
 have hfront : text.count '\n' = front.count '\n' := by
  conv => lhs; rw [heq]
  rw [count_append, count_eq_zero.mpr hlast, Nat.add_zero]
 have hsize : size text = size front + size (lastRow text) := by
  conv => lhs; rw [heq]
  exact size_append _ _
 have := hcount front
 rw [length_rows, hfront, hsize]
 split <;> omega

theorem count_le_rows (text : List Char) : text.count '\n' ≤ (rows text).length := by
 rw [length_rows]
 omega

theorem window_new (limits : TruncationOptions) : Window (new limits) [] where
 rolling := rfl
 cut := ⟨[], rfl, by simp [new, AtLineStart], by simp⟩
 decoded := rfl
 completed := rfl
 current := rfl
 lines := rfl

variable {acc acc' : OutputAccumulator} {more text : List Char} {disk : Disk} {bytes : List UInt8}
 {limits : TruncationOptions}

theorem Window.trim (h : Window acc text) (total : Nat) (hsize : size (text ++ more) ≤ usizeMax) :
 let acc' := OutputAccumulator.trim
  { acc with totalDecodedBytes := total, tail := acc.tail ++ more }
 Cut acc.limits (text ++ more) acc'.tail acc'.tailStartsAtLineBoundary := by
 obtain ⟨front, heq, hstart, hcut⟩ := h.cut
 unfold OutputAccumulator.trim
 dsimp only
 split
 next hlong =>
  have htail : size (acc.tail ++ more) ≤ usizeMax := by
   rw [heq, append_assoc, size_append] at hsize
   omega
  -- the counters bound the text, so neither product saturates where the tail is cut
  have hroll : acc.maxRollingBytes = max (2 * acc.limits.maxBytes) 1 := by
   have hr := h.rolling
   unfold saturatingMul at hlong hr
   omega
  obtain ⟨dropped, c, hdropped, hc⟩ := @lastBytes_cut acc.maxRollingBytes
   (acc.tail ++ more) (by unfold saturatingMul at hlong; omega)
  generalize lastBytes acc.maxRollingBytes (acc.tail ++ more) = kept at hdropped hc ⊢
  refine ⟨front ++ dropped ++ [c], ?_, ?_, ?_⟩
  · rw [heq, append_assoc, hdropped]
    simp
  · have htake : (acc.tail ++ more).take ((acc.tail ++ more).length - kept.length)
     = dropped ++ [c] := by
     have hlen : (dropped ++ c :: kept).length - kept.length = (dropped ++ [c]).length := by
      simp only [length_append, length_cons, length_nil]
      omega
     rw [hdropped, hlen, show dropped ++ c :: kept = (dropped ++ [c]) ++ kept by simp,
      take_left]
    rw [htake]
    simp [AtLineStart]
  · intro d hd
    obtain rfl : c = d := by simpa using hd
    rw [← hroll]
    exact hc
 · refine ⟨front, by rw [heq, append_assoc], hstart, fun c hc => ?_⟩
   have := hcut c hc
   dsimp only
   rw [size_append]
   omega

@[simp] theorem trim_limits (acc : OutputAccumulator) : acc.trim.limits = acc.limits := by
 unfold OutputAccumulator.trim
 dsimp only
 split <;> rfl

@[simp] theorem trim_maxRollingBytes (acc : OutputAccumulator) :
 acc.trim.maxRollingBytes = acc.maxRollingBytes := by
 unfold OutputAccumulator.trim
 dsimp only
 split <;> rfl

@[simp] theorem trim_totalDecodedBytes (acc : OutputAccumulator) :
 acc.trim.totalDecodedBytes = acc.totalDecodedBytes := by
 unfold OutputAccumulator.trim
 dsimp only
 split <;> rfl

@[simp] theorem trim_completedLines (acc : OutputAccumulator) :
 acc.trim.completedLines = acc.completedLines := by
 unfold OutputAccumulator.trim
 dsimp only
 split <;> rfl

@[simp] theorem trim_currentLineBytes (acc : OutputAccumulator) :
 acc.trim.currentLineBytes = acc.currentLineBytes := by
 unfold OutputAccumulator.trim
 dsimp only
 split <;> rfl

def Beside (acc acc' : OutputAccumulator) : Prop :=
 acc'.limits = acc.limits ∧ acc'.decoder = acc.decoder ∧ acc'.totalRawBytes = acc.totalRawBytes
  ∧ acc'.state = acc.state

theorem checkedAdd_ok {a b n : Nat} (h : checkedAdd a b = .ok n) : n = a + b ∧ n ≤ usizeMax := by
 unfold checkedAdd at h
 split at h
 · injection h with h
   omega
 · simp at h

theorem checkedAdd_fits {a b : Nat} (h : a + b ≤ usizeMax) : checkedAdd a b = .ok (a + b) :=
 if_pos h

theorem size_lastRow_le (text : List Char) : size (lastRow text) ≤ size text := by
 obtain ⟨front, -, heq, -⟩ := split_last text
 conv => rhs; rw [heq]
 rw [size_append]
 omega

theorem countLines_ok {completed current : Nat} (hcompleted : acc.completedLines = text.count '\n')
 (hcurrent : acc.currentLineBytes = size (lastRow text))
 (h : acc.countLines more = .ok (completed, current)) :
 completed = (text ++ more).count '\n' ∧ current = size (lastRow (text ++ more)) := by
 unfold countLines at h
 rw [count_append, lastRow_append]
 split at h
 · obtain ⟨n, hn, h⟩ := bind_ok h
   injection h with h
   injection h with h1 h2
   rw [if_pos ‹_›, ← h1, (checkedAdd_ok hn).1, hcompleted, h2]
   exact ⟨rfl, rfl⟩
 · obtain ⟨n, hn, h⟩ := bind_ok h
   injection h with h
   injection h with h1 h2
   rw [if_neg ‹_›, ← h1, ← h2, (checkedAdd_ok hn).1, hcompleted, hcurrent, size_append,
    count_eq_zero.mpr (show '\n' ∉ more from ‹_›)]
   exact ⟨rfl, rfl⟩

theorem countLines_fits {acc : OutputAccumulator} {text more : List Char}
 (hcompleted : acc.completedLines = text.count '\n')
 (hcurrent : acc.currentLineBytes = size (lastRow text))
 (hsize : size (text ++ more) ≤ usizeMax) :
 ∃ counts, acc.countLines more = .ok counts := by
 have hrows := rows_le_size (text ++ more)
 have hcount := count_le_rows (text ++ more)
 have hlast := size_lastRow_le text
 rw [count_append] at hcount
 rw [size_append] at hsize hrows
 unfold countLines
 split
 all_goals
  rw [ok_bind _ (checkedAdd_fits (by omega))]
  exact ⟨_, rfl⟩

/-- **More text moves the window on.** -/
theorem Window.appendDecoded (h : Window acc text) (hok : acc.appendDecoded more = .ok acc') :
 Window acc' (text ++ more) ∧ Beside acc acc' := by
 unfold OutputAccumulator.appendDecoded at hok
 split at hok
 next hempty =>
  injection hok with hok
  obtain rfl : more = [] := List.isEmpty_iff.mp hempty
  subst hok
  rw [append_nil]
  exact ⟨h, rfl, rfl, rfl, rfl⟩
 · obtain ⟨total, htotal, hok⟩ := bind_ok hok
   obtain ⟨⟨completed, current⟩, hcounts, hok⟩ := bind_ok hok
   obtain ⟨lines, hlines, hok⟩ := bind_ok hok
   cases hok
   obtain ⟨rfl, htotal⟩ := checkedAdd_ok htotal
   rw [h.decoded, ← size_append] at htotal
   obtain ⟨hcompleted, hcurrent⟩ := countLines_ok (by simpa using h.completed)
    (by simpa using h.current) hcounts
   refine ⟨⟨?_, ?_, ?_, hcompleted, hcurrent, ?_⟩, ?_⟩
   · simpa using h.rolling
   · simpa using h.trim _ htotal
   · simpa using h.decoded
   · rw [length_rows, (checkedAdd_ok hlines).1, hcompleted, hcurrent]
   · unfold OutputAccumulator.trim
     dsimp only
     split <;> exact ⟨rfl, rfl, rfl, rfl⟩

theorem Window.appendDecoded_fits (h : Window acc text) (hsize : size (text ++ more) ≤ usizeMax) :
 ∃ acc', acc.appendDecoded more = .ok acc' := by
 unfold OutputAccumulator.appendDecoded
 split
 · exact ⟨_, rfl⟩
 obtain ⟨⟨completed, current⟩, hcounts⟩ := @countLines_fits (OutputAccumulator.trim { acc with
   totalDecodedBytes := acc.totalDecodedBytes + size more, tail := acc.tail ++ more })
  text more (by simpa using h.completed) (by simpa using h.current) hsize
 obtain ⟨hcompleted, hcurrent⟩ := countLines_ok (by simpa using h.completed)
  (by simpa using h.current) hcounts
 have hrows := rows_le_size (text ++ more)
 rw [length_rows, ← hcompleted, ← hcurrent] at hrows
 rw [size_append] at hsize hrows
 rw [ok_bind _ (checkedAdd_fits (by rw [h.decoded]; exact hsize))]
 dsimp only
 rw [ok_bind _ hcounts]
 dsimp only
 rw [ok_bind _ (checkedAdd_fits (Nat.le_trans hrows hsize))]
 exact ⟨_, rfl⟩

/-! ## Any chunks -/

/-- An accumulator that has taken bytes, and may take more. -/
structure Reads (limits : TruncationOptions) (acc : OutputAccumulator) (bytes : List UInt8) :
 Prop where
 limits : acc.limits = limits
 pending : acc.decoder.pending = (drain bytes).2
 started : acc.decoder.started = !(drain bytes).1.isEmpty
 window : Window acc (Ai.dropBom (drain bytes).1)
 rawBytes : acc.totalRawBytes = bytes.length
 state : acc.state = .open

theorem reads_new (limits : TruncationOptions) : Reads limits (new limits) [] where
 limits := rfl
 pending := by simp [new]
 started := by simp [new]
 window := by simpa [Ai.dropBom] using window_new limits
 rawBytes := rfl
 state := rfl

theorem Window.files (h : Window acc text) (raw : List UInt8) (path : Option String)
 (file : Option (List UInt8)) (state : State) : Window { acc with raw, path, file, state } text :=
 ⟨h.rolling, h.cut, h.decoded, h.completed, h.current, h.lines⟩

theorem Window.input (h : Window acc text) (totalRawBytes : Nat) (decoder : Ai.Utf8StreamDecoder) :
 Window { acc with totalRawBytes, decoder } text :=
 ⟨h.rolling, h.cut, h.decoded, h.completed, h.current, h.lines⟩

theorem spill_ok (h : acc.spill disk = .ok acc') :
 ∃ raw path file, acc' = { acc with raw, path, file } := by
 unfold spill at h
 split at h
 · unfold ensureFile at h
   split at h
   · injection h with h
     exact ⟨_, _, _, h.symm⟩
   · obtain ⟨path, -, h⟩ := bind_ok h
     obtain ⟨-, -, h⟩ := bind_ok h
     injection h with h
     exact ⟨_, _, _, h.symm⟩
 · injection h with h
   exact ⟨_, _, _, h.symm⟩

theorem spill_works (h : disk.Works) (acc : OutputAccumulator) :
 ∃ acc', acc.spill disk = .ok acc' := by
 obtain ⟨⟨path, hcreate⟩, hwrite, -⟩ := h
 unfold spill
 split
 · unfold ensureFile
   split
   · exact ⟨_, rfl⟩
   · rw [ok_bind _ hcreate, ok_bind _ (hwrite _)]
     exact ⟨_, rfl⟩
 · exact ⟨_, rfl⟩

/-- More bytes: what is decoded of them goes on where the text stopped. -/
theorem Reads.appendInner {data : List UInt8} (h : Reads limits acc bytes)
 (hok : acc.appendInner disk data = .ok acc') : Reads limits acc' (bytes ++ data) := by
 obtain ⟨hpending, hstarted, htext⟩ := Ai.SseDecoder.decode_eq h.pending h.started data
 obtain ⟨total, htotal, hok⟩ := bind_ok hok
 obtain ⟨acc1, hacc1, hok⟩ := bind_ok hok
 obtain ⟨acc2, hacc2, hok⟩ := bind_ok hok
 obtain ⟨hwindow, hlimits, hdecoder, hraw, hstate⟩ :=
  (h.window.input total (acc.decoder.decode data).1).appendDecoded hacc1
 obtain ⟨raw, path, file, rfl⟩ := spill_ok hacc2
 obtain ⟨raw', file', rfl⟩ : ∃ raw' file', acc' = { acc1 with raw := raw', path, file := file' } := by
  dsimp only at hok
  split at hok
  · obtain ⟨-, -, hok⟩ := bind_ok hok
    injection hok with hok
    exact ⟨_, _, hok.symm⟩
  · injection hok with hok
    exact ⟨_, _, hok.symm⟩
 refine ⟨?_, ?_, ?_, ?_, ?_, ?_⟩
 · exact hlimits.trans h.limits
 · dsimp only
   rw [hdecoder, hpending]
 · dsimp only
   rw [hdecoder, hstarted]
 · rw [htext]
   exact hwindow.files _ _ _ acc1.state
 · dsimp only
   rw [hraw, (checkedAdd_ok htotal).1, h.rawBytes, length_append]
 · exact hstate.trans h.state

theorem Reads.appendInner_works {data : List UInt8} (h : Reads limits acc bytes)
 (hdisk : disk.Works) (hraw : (bytes ++ data).length ≤ usizeMax)
 (hsize : size (Ai.dropBom (drain (bytes ++ data)).1) ≤ usizeMax) :
 ∃ acc', acc.appendInner disk data = .ok acc' := by
 obtain ⟨-, -, htext⟩ := Ai.SseDecoder.decode_eq h.pending h.started data
 rw [length_append] at hraw
 rw [htext] at hsize
 unfold OutputAccumulator.appendInner
 rw [ok_bind _ (checkedAdd_fits (by rw [h.rawBytes]; exact hraw))]
 obtain ⟨acc1, hacc1⟩ := (h.window.input (acc.totalRawBytes + data.length)
  (acc.decoder.decode data).1).appendDecoded_fits hsize
 obtain ⟨acc2, hacc2⟩ := spill_works hdisk acc1
 dsimp only
 rw [ok_bind _ hacc1, ok_bind _ hacc2]
 split
 · rw [ok_bind _ (hdisk.2.1 data)]
   exact ⟨_, rfl⟩
 · exact ⟨_, rfl⟩

theorem append_failed (h : acc.state = .failed) (disk : Disk) (data : List UInt8) :
 (acc.append disk data).1.state = .failed := by
 unfold append
 rw [if_pos (by rw [h]; decide)]
 exact h

theorem appendAll_failed (h : acc.state = .failed) (steps : List (Disk × List UInt8)) :
 (acc.appendAll steps).state = .failed := by
 induction steps generalizing acc with
 | nil => exact h
 | cons step steps ih => exact ih (append_failed h step.1 step.2)

def bytesOf (steps : List (Disk × List UInt8)) : List UInt8 := steps.flatMap Prod.snd

/-- **Chunks end anywhere**: an accumulator that has not failed has read their bytes. -/
theorem Reads.appendAll (h : Reads limits acc bytes) (steps : List (Disk × List UInt8)) :
 (acc.appendAll steps).state = .failed
  ∨ Reads limits (acc.appendAll steps) (bytes ++ bytesOf steps) := by
 induction steps generalizing acc bytes with
 | nil => exact inr (by simpa [OutputAccumulator.appendAll, bytesOf] using h)
 | cons step steps ih =>
  obtain ⟨disk, data⟩ := step
  unfold OutputAccumulator.appendAll append
  rw [if_neg (by rw [h.state]; decide)]
  cases hinner : acc.appendInner disk data with
  | error error => exact inl (appendAll_failed rfl steps)
  | ok acc' =>
   have := ih (h.appendInner hinner)
   rwa [append_assoc] at this

theorem decoded_le (bytes more : List UInt8) : size (Ai.dropBom (drain bytes).1)
  ≤ size (Ai.dropBom (drain (bytes ++ more)).1) := by
 obtain ⟨-, -, htext⟩ := @Ai.SseDecoder.decode_eq
  { pending := (drain bytes).2, started := !(drain bytes).1.isEmpty } bytes rfl rfl more
 rw [htext, size_append]
 omega

theorem Reads.appendAll_works (h : Reads limits acc bytes) (steps : List (Disk × List UInt8))
 (hdisks : ∀ step ∈ steps, step.1.Works) (hraw : (bytes ++ bytesOf steps).length ≤ usizeMax)
 (hsize : size (Ai.dropBom (drain (bytes ++ bytesOf steps)).1) ≤ usizeMax) :
 Reads limits (acc.appendAll steps) (bytes ++ bytesOf steps) := by
 induction steps generalizing acc bytes with
 | nil => simpa [OutputAccumulator.appendAll, bytesOf] using h
 | cons step steps ih =>
  obtain ⟨disk, data⟩ := step
  have hbytes : bytes ++ bytesOf ((disk, data) :: steps) = (bytes ++ data) ++ bytesOf steps := by
   simp [bytesOf]
  rw [hbytes] at hraw hsize ⊢
  obtain ⟨acc', hinner⟩ := h.appendInner_works (hdisks _ (mem_cons_self ..))
   (by rw [length_append] at hraw; omega)
   (Nat.le_trans (decoded_le _ _) hsize)
  unfold OutputAccumulator.appendAll append
  rw [if_neg (by rw [h.state]; decide), hinner]
  exact ih (h.appendInner hinner)
   (fun step hstep => hdisks step (mem_cons_of_mem _ hstep)) hraw hsize

/-! ## A snapshot and the whole text -/

/-- The visible part of a tail that was cut shows what the whole text does: something of it
is cut itself, or it is the whole text's last lines, no newline at the end. -/
def ShownAsWhole (limits : TruncationOptions) (visible : List Char) : Prop := visible ≠ [] ∧
  if AtLineStart visible then
   limits.maxLines < (rows visible).length ∨ limits.maxBytes + 1 < size visible
    ∨ (size visible = limits.maxBytes + 1 ∧ (rows visible).length = limits.maxLines)
  else (rows visible).length ≠ limits.maxLines ∨ limits.maxBytes < size visible

theorem spent_rows_open (h : ¬ AtLineStart text) : spent (rows text) = size text := by
 rw [← size_intercalate, intercalate_rows_open h]

theorem spent_rows_terminated (front : List Char) :
 spent (rows (front ++ ['\n'])) = size front := by
 rw [← size_intercalate, intercalate_rows_terminated]

theorem spent_rows_le (text : List Char) : spent (rows text) ≤ size text := by
 by_cases h : AtLineStart text
 · rcases h.cases with rfl | ⟨front, rfl⟩
   · exact Nat.le_refl 0
   · rw [spent_rows_terminated, size_append]
     omega
 · exact Nat.le_of_eq (spent_rows_open h)

/-- What a snapshot shows of a visible part, the whole text being longer than the bytes. -/
def shownVisible (limits : TruncationOptions) (visible : List Char) :
 List Char × Option TruncatedBy × Nat × Nat :=
 if exceeds visible limits then
  shownLines limits ((rows visible).reverse.take limits.maxLines)
 else (visible, some .bytes, (rows visible).length, size visible)

theorem exceeds_iff : exceeds text limits = true
  ↔ limits.maxLines < (rows text).length ∨ limits.maxBytes < size text := by
 simp [exceeds]

theorem shownAsWhole_of_rows {visible : List Char} (hmany : limits.maxLines ≤ (rows visible).length)
 (hexceeds : limits.maxLines < (rows visible).length ∨ limits.maxBytes < size visible) :
 ShownAsWhole limits visible := by
 constructor
 · rintro rfl
   rw [rows_nil, size_nil] at hexceeds
   simp at hexceeds
 · by_cases hend : AtLineStart visible
   · rw [if_pos hend]
     omega
   · rw [if_neg hend]
     omega

theorem shownAsWhole_of_spent {visible : List Char} (hfew : (rows visible).length < limits.maxLines)
 (hcut : limits.maxBytes < spent (rows visible)) : ShownAsWhole limits visible := by
 constructor
 · rintro rfl
   simp [spent] at hcut
 · by_cases hstart : AtLineStart visible
   · rw [if_pos hstart]
     rcases hstart.cases with rfl | ⟨front, rfl⟩
     · simp [spent] at hcut
     · rw [spent_rows_terminated] at hcut
       rw [size_append, size_cons, size_newline]
       omega
   · rw [if_neg hstart]
     omega

/-- The visible part is whole lines, and the line in front of them fits no more. -/
theorem shownVisible_lines {limits : TruncationOptions} {visible line : List Char}
 {before : List (List Char)} {text : List Char}
 (hrows : rows text = before ++ [line] ++ rows visible)
 (hline : if visible = [] then limits.maxBytes < size line
  else limits.maxBytes < spent (rows visible) + (1 + size line)) :
 shownVisible limits visible = shownLines limits ((rows text).reverse.take limits.maxLines)
  ↔ ShownAsWhole limits visible := by
 have hrev : (rows text).reverse = (rows visible).reverse ++ line :: before.reverse := by
  rw [hrows]
  simp
 have hle := spent_rows_le visible
 rw [hrev]
 by_cases hmany : limits.maxLines ≤ (rows visible).length
 · rw [take_append_of_le_length (by rw [length_reverse]; exact hmany)]
   by_cases hexceeds : exceeds visible limits = true
   · rw [shownVisible, if_pos hexceeds]
     rw [exceeds_iff] at hexceeds
     exact ⟨fun _ => shownAsWhole_of_rows hmany hexceeds, fun _ => rfl⟩
   rw [shownVisible, if_neg hexceeds]
   rw [exceeds_iff] at hexceeds
   have htake : (rows visible).reverse.take limits.maxLines = (rows visible).reverse :=
    take_of_length_le (by rw [length_reverse]; omega)
   rw [htake, shownLines_fits (by rw [spent_reverse]; omega)]
   constructor
   · intro h
     exact absurd (congrArg (fun s => s.2.1) h) (by simp)
   · rintro ⟨-, h⟩
     by_cases hend : AtLineStart visible
     · rw [if_pos hend] at h
       omega
     · rw [if_neg hend] at h
       omega
 obtain ⟨more, hmore⟩ : ∃ more, ((rows visible).reverse ++ line :: before.reverse).take
  limits.maxLines = (rows visible).reverse ++ line :: more := by
  refine ⟨before.reverse.take (limits.maxLines - (rows visible).length - 1), ?_⟩
  rw [take_append, length_reverse, take_of_length_le (by rw [length_reverse]; omega)]
  obtain ⟨k, hk⟩ : ∃ k, limits.maxLines - (rows visible).length = k + 1 :=
   ⟨limits.maxLines - (rows visible).length - 1, by omega⟩
  rw [hk, take_succ_cons, Nat.add_sub_cancel]
 rw [hmore]
 have htake : (rows visible).reverse.take limits.maxLines = (rows visible).reverse :=
  take_of_length_le (by rw [length_reverse]; omega)
 by_cases hcut : limits.maxBytes < spent (rows visible)
 · rw [shownLines_cut _ (by rw [spent_reverse]; exact hcut), shownVisible,
    if_pos (exceeds_iff.mpr (by omega)), htake]
   exact ⟨fun _ => shownAsWhole_of_spent (Nat.lt_of_not_le hmany) hcut, fun _ => rfl⟩
 by_cases hne : visible = []
 · subst hne
   rw [if_pos rfl] at hline
   have hpartial := @shownLines_partialLine limits _ more hline
   rw [rows_nil, reverse_nil, nil_append, hpartial, shownVisible, if_neg (by simp [exceeds])]
   constructor
   · intro h
     exact absurd (congrArg (fun s => s.2.2.1) h) (by simp)
   · exact fun h => absurd rfl h.1
 rw [if_neg hne] at hline
 rw [shownLines_stop more (by simpa [rows_eq_nil] using hne)
  (by rw [spent_reverse]; omega) (by rw [spent_reverse]; exact hline),
  length_reverse, if_neg hmany, reverse_reverse, spent_reverse]
 by_cases hstart : AtLineStart visible
 · obtain ⟨front, rfl⟩ := hstart.cases.resolve_left hne
   have hsize : size (front ++ ['\n']) = spent (rows (front ++ ['\n'])) + 1 := by
    rw [spent_rows_terminated, size_append]
    rfl
   rw [ShownAsWhole, if_pos hstart]
   constructor
   · intro h
     rw [shownVisible] at h
     split at h
     · rw [htake, shownLines_fits (by rw [spent_reverse]; omega)] at h
       exact absurd (congrArg (fun s => s.2.1) h) (by simp)
     · have hbytes := congrArg (fun s => s.2.2.2) h
       dsimp only at hbytes
       omega
   · rintro ⟨-, h⟩
     omega
 · rw [ShownAsWhole, if_neg hstart, shownVisible, intercalate_rows_open hstart,
    spent_rows_open hstart, if_neg (by
     rw [exceeds_iff]
     rw [spent_rows_open hstart] at hcut
     omega)]
   exact ⟨fun _ => ⟨hne, inl (by omega)⟩, fun _ => rfl⟩

theorem shownVisible_partial {visible front : List Char} {c : Char} {before : List (List Char)}
 (hne : visible ≠ []) (hno : '\n' ∉ visible)
 (hrows : rows text = before ++ [front ++ c :: visible])
 (hcut : limits.maxBytes < c.utf8Size + size visible) :
 shownVisible limits visible = shownLines limits ((rows text).reverse.take limits.maxLines)
  ↔ ShownAsWhole limits visible := by
 have hvisible : rows visible = [visible] := by rw [rows_single hno, if_neg hne]
 have hstart : ¬ AtLineStart visible := by
  intro h
  obtain ⟨front, rfl⟩ := h.cases.resolve_left hne
  exact hno (by simp)
 have hrev : (rows text).reverse = (front ++ c :: visible) :: before.reverse := by
  rw [hrows]
  simp
 rw [ShownAsWhole, if_neg hstart, hvisible, hrev, shownVisible, hvisible, length_singleton]
 cases hlines : limits.maxLines with
 | zero =>
  rw [if_pos (exceeds_iff.mpr (by rw [hvisible, length_singleton]; omega))]
  exact ⟨fun _ => ⟨hne, inl (by omega)⟩, fun _ => rfl⟩
 | succ k =>
  have hpartial := @shownLines_partialLine limits (front ++ c :: visible)
   (before.reverse.take k) (by simp only [size_append, size_cons]; omega)
  rw [take_succ_cons, hpartial, reverse_singleton, take_succ_cons, take_nil]
  by_cases hlong : limits.maxBytes < size visible
  · rw [if_pos (exceeds_iff.mpr (inr hlong)), shownLines_partialLine [] hlong,
     show front ++ c :: visible = (front ++ [c]) ++ visible by simp,
     lastBytes_append _ hlong]
    exact ⟨fun _ => ⟨hne, inr hlong⟩, fun _ => rfl⟩
  · rw [if_neg (by rw [exceeds_iff, hvisible, length_singleton]; omega),
     lastBytes_fits front (by omega) hcut]
    by_cases hone : limits.maxLines = 1
    · rw [if_pos (by omega)]
      constructor
      · intro h
        exact absurd (congrArg (fun s => s.2.1) h) (by simp)
      · rintro ⟨-, h⟩
        omega
    · rw [if_neg (by omega)]
      exact ⟨fun _ => ⟨hne, inl (by omega)⟩, fun _ => rfl⟩

theorem splitOn_last (text : List Char) :
 ∃ before, text.splitOn '\n' = before ++ [lastRow text] := by
 obtain ⟨front, hstart, heq, hlast⟩ := split_last text
 generalize lastRow text = last at heq hlast ⊢
 subst heq
 rcases hstart.cases with rfl | ⟨front, rfl⟩
 · exact ⟨[], by rw [nil_append, splitOn_eq_singleton hlast, nil_append]⟩
 · refine ⟨front.splitOn '\n', ?_⟩
   rw [append_assoc, singleton_append, splitOn_append_cons_self, splitOn_eq_singleton hlast]

theorem lastRow_concat {c : Char} (hc : c ≠ '\n') (front : List Char) (hmore : '\n' ∉ more) :
 lastRow (front ++ [c] ++ more) = lastRow front ++ c :: more := by
 rw [lastRow_append, if_neg hmore, lastRow_append, if_neg (by simpa using hc.symm)]
 simp

/-- **What is shown of a tail that was cut** is what is shown of the whole text, where
`ShownAsWhole` says so and nowhere else. -/
theorem Window.shown_iff (h : Window acc text) (hcut : acc.tail ≠ text) :
 shownVisible acc.limits acc.visible
  = shownLines acc.limits ((rows text).reverse.take acc.limits.maxLines)
  ↔ ShownAsWhole acc.limits acc.visible := by
 obtain ⟨front, heq, hboundary, hlast⟩ := h.cut
 obtain ⟨front, c, rfl⟩ : ∃ front' c, front = front' ++ [c] := by
  rcases eq_nil_or_concat front with rfl | ⟨front, c, rfl⟩
  · exact absurd heq.symm hcut
  · exact ⟨front, c, concat_eq_append⟩
 have hsize := hlast c (by simp)
 have hge : ∀ visible : List Char, size visible ≤ spent (rows visible) + 1 := by
  intro visible
  by_cases hstart : AtLineStart visible
  · rcases hstart.cases with rfl | ⟨front, rfl⟩
    · simp
    · rw [spent_rows_terminated, size_append]
      rfl
  · rw [spent_rows_open hstart]
    omega
 by_cases hstart : acc.tailStartsAtLineBoundary = true
 · -- the tail begins a line: the line before it ends with the newline in front
   have hvisible : acc.visible = acc.tail := by rw [visible, if_pos hstart]
   have hfront := hboundary.mp hstart
   obtain rfl : c = '\n' := hfront c (by simp)
   obtain ⟨before, hbefore⟩ := splitOn_last front
   have hne : acc.tail ≠ [] := by
    intro hnil
    rw [hnil, size_newline, size_nil] at hsize
    omega
   have htail := hge acc.tail
   rw [size_newline] at hsize
   rw [hvisible]
   refine @shownVisible_lines _ _ (lastRow front) before _ ?_ ?_
   · rw [heq, rows_append hfront, rows_terminated, hbefore]
   · rw [if_neg hne]
     omega
 have hc : c ≠ '\n' := by
  rintro rfl
  exact hstart (hboundary.mpr (atLineStart_newline front))
 by_cases hmem : '\n' ∈ acc.tail
 · -- the tail ends a line before its first newline
   obtain ⟨q, visible, htail, hq⟩ := eq_append_cons_of_mem hmem
   have hvisible : acc.visible = visible := by
    rw [OutputAccumulator.visible, if_neg hstart, if_pos hmem, htail,
     dropWhile_append_of_pos fun d hd => by
      simpa using fun he => hq (by rw [← he]; exact hd)]
    simp
   obtain ⟨before, hbefore⟩ := splitOn_last (front ++ [c] ++ q)
   rw [lastRow_concat hc front hq] at hbefore
   have hspent := hge visible
   rw [htail, size_append, size_cons, size_newline] at hsize
   rw [hvisible]
   refine @shownVisible_lines _ _ (lastRow front ++ c :: q) before _ ?_ ?_
   · rw [heq, htail, show front ++ [c] ++ (q ++ '\n' :: visible)
      = (front ++ [c] ++ q) ++ '\n' :: visible by simp, rows_newline, hbefore]
   · have hpos := Char.utf8Size_pos c
     rw [size_append, size_cons]
     split
     next hnil =>
      subst hnil
      rw [size_nil] at hsize
      omega
     · omega
 have hvisible : acc.visible = acc.tail := by
  rw [visible, if_neg hstart, if_neg hmem]
 obtain ⟨before, hbefore⟩ := splitOn_last (front ++ [c] ++ acc.tail)
 rw [lastRow_concat hc front hmem] at hbefore
 have hopen : ¬ AtLineStart (front ++ [c] ++ acc.tail) := by
  intro hs
  rcases eq_nil_or_concat acc.tail with hnil | ⟨t, d, ht⟩
  · exact hc (hs c (by simp [hnil]))
  · rw [concat_eq_append] at ht
    obtain rfl : d = '\n' := hs d (by
     rw [ht, ← append_assoc, getLast?_concat]
     exact rfl)
    exact hmem (by simp [ht])
 rw [← rows_open hopen, ← heq] at hbefore
 rw [hvisible]
 by_cases hne : acc.tail = []
 · -- nothing of the last line is left
   rw [hne] at hbefore hsize ⊢
   refine @shownVisible_lines _ _ (lastRow front ++ [c]) before _ ?_ ?_
   · rw [hbefore, rows_nil, append_nil]
   · rw [if_pos rfl, size_append, size_cons]
     omega
 · exact shownVisible_partial hne hmem hbefore (by omega)

theorem decodeAll_eq (bytes : List UInt8) : decodeAll bytes = Ai.dropBom (drain bytes).1
  ++ if (drain bytes).2.isEmpty then [] else [replacement] := by
 obtain ⟨hpending, -, htext⟩ := @Ai.SseDecoder.decode_eq
  { pending := [], started := false } [] (by simp) (by simp) bytes
 rw [nil_append] at hpending htext
 rw [decodeAll]
 dsimp only
 rw [htext, drain_nil, Ai.Utf8StreamDecoder.finish, hpending]
 split <;> rfl

/-- An accumulator that has finished has read the whole text. -/
structure Finished (limits : TruncationOptions) (acc : OutputAccumulator) (bytes : List UInt8) :
 Prop where
 limits : acc.limits = limits
 window : Window acc (decodeAll bytes)
 state : acc.state = .finished

theorem Reads.finishInner (h : Reads limits acc bytes) (hok : acc.finishInner disk = .ok acc') :
 Finished limits acc' bytes := by
 obtain ⟨acc1, hacc1, hok⟩ := bind_ok hok
 obtain ⟨acc2, hacc2, hok⟩ := bind_ok hok
 have hstart := h.window.input acc.totalRawBytes acc.decoder.finish.1
 obtain ⟨hwindow, hlimits, -⟩ := hstart.appendDecoded hacc1
 obtain ⟨raw, path, file, rfl⟩ := spill_ok hacc2
 obtain rfl : acc' = { acc1 with raw, path, file := none, state := .finished } := by
  dsimp only at hok
  split at hok
  · obtain ⟨-, -, hok⟩ := bind_ok hok
    injection hok with hok
    exact hok.symm
  · injection hok with hok
    exact hok.symm
 refine ⟨hlimits.trans h.limits, ?_, rfl⟩
 rw [decodeAll_eq, ← h.pending]
 have hfinish : acc.decoder.finish.2
  = if acc.decoder.pending.isEmpty then [] else [replacement] := by
  unfold Ai.Utf8StreamDecoder.finish
  split <;> rfl
 rw [← hfinish]
 exact hwindow.files _ _ _ _

theorem Reads.finishInner_works (h : Reads limits acc bytes) (hdisk : disk.Works)
 (hsize : size (decodeAll bytes) ≤ usizeMax) : ∃ acc', acc.finishInner disk = .ok acc' := by
 have hstart := h.window.input acc.totalRawBytes acc.decoder.finish.1
 have hfinish : acc.decoder.finish.2
  = if acc.decoder.pending.isEmpty then [] else [replacement] := by
  unfold Ai.Utf8StreamDecoder.finish
  split <;> rfl
 rw [decodeAll_eq, ← h.pending, ← hfinish] at hsize
 obtain ⟨acc1, hacc1⟩ := hstart.appendDecoded_fits hsize
 obtain ⟨acc2, hacc2⟩ := spill_works hdisk acc1
 unfold OutputAccumulator.finishInner
 dsimp only
 rw [ok_bind _ hacc1, ok_bind _ hacc2]
 split
 · rw [ok_bind _ hdisk.2.2]
   exact ⟨_, rfl⟩
 · exact ⟨_, rfl⟩

theorem finish_failed (h : acc.state = .failed) (disk : Disk) :
 (acc.finish disk).1.state = .failed := by
 unfold finish checkHealthy
 rw [if_pos h]
 exact h

theorem Reads.finish {limits : TruncationOptions} {acc : OutputAccumulator} {bytes : List UInt8}
 (h : Reads limits acc bytes) (disk : Disk) :
 (acc.finish disk).1.state = .failed ∨ Finished limits (acc.finish disk).1 bytes := by
 unfold OutputAccumulator.finish checkHealthy
 rw [if_neg (by rw [h.state]; decide)]
 dsimp only
 rw [if_neg (by rw [h.state]; decide)]
 cases hinner : acc.finishInner disk with
 | error error => exact inl rfl
 | ok acc' => exact inr (h.finishInner hinner)

/-- **A run fails, and says so, or has read the whole text.** -/
theorem run_reads (limits : TruncationOptions) (steps : List (Disk × List UInt8)) (last : Disk) :
 (run limits steps last).state = .failed
  ∨ Finished limits (run limits steps last) (bytesOf steps) := by
 rcases (reads_new limits).appendAll steps with h | h
 · exact inl (finish_failed h last)
 · rw [nil_append] at h
   exact h.finish last

theorem run_works {limits : TruncationOptions} {steps : List (Disk × List UInt8)} {last : Disk}
 (hdisks : ∀ step ∈ steps, step.1.Works) (hlast : last.Works)
 (hraw : (bytesOf steps).length ≤ usizeMax) (hsize : size (decodeAll (bytesOf steps)) ≤ usizeMax) :
 Finished limits (run limits steps last) (bytesOf steps) := by
 have hdecoded : size (Ai.dropBom (drain (bytesOf steps)).1) ≤ usizeMax := by
  rw [decodeAll_eq, size_append] at hsize
  omega
 have h := (reads_new limits).appendAll_works steps hdisks hraw hdecoded
 rw [nil_append] at h
 obtain ⟨acc', hinner⟩ := h.finishInner_works hlast hsize
 unfold run OutputAccumulator.finish checkHealthy
 rw [if_neg (by rw [h.state]; decide)]
 dsimp only
 rw [if_neg (by rw [h.state]; decide), hinner]
 exact h.finishInner hinner

theorem snapshot_ok {snapshot : OutputSnapshot} (h : acc.snapshot = .ok snapshot) :
 acc.state ≠ .failed ∧ snapshot.truncation = acc.truncation
  ∧ snapshot.content = acc.truncation.content := by
 obtain ⟨_, hhealthy, h⟩ := bind_ok h
 cases h
 refine ⟨fun hfailed => ?_, rfl, rfl⟩
 unfold checkHealthy at hhealthy
 rw [if_pos hfailed] at hhealthy
 simp at hhealthy

theorem snapshot_healthy (h : acc.state ≠ .failed) : ∃ snapshot, acc.snapshot = .ok snapshot := by
 unfold snapshot checkHealthy
 rw [if_neg h]
 exact ⟨_, rfl⟩

theorem Window.truncation (h : Window acc text) : acc.truncation.truncated = exceeds text acc.limits
  ∧ acc.truncation.totalLines = (rows text).length
  ∧ acc.truncation.totalBytes = size text
  ∧ (acc.tail = text → acc.truncation.shown = (truncateTail text acc.limits).shown)
  ∧ (acc.tail ≠ text → acc.truncation.shown = shownVisible acc.limits acc.visible
   ∧ exceeds text acc.limits = true) := by
 have htruncated : acc.truncation.truncated = exceeds text acc.limits := by
  simp only [OutputAccumulator.truncation, exceeds, h.lines, h.decoded]
 have hshown : acc.truncation.shown = ((truncateTail acc.visible acc.limits).content,
   if exceeds text acc.limits then (truncateTail acc.visible acc.limits).truncatedBy.or
    (some (if size text > acc.limits.maxBytes then .bytes else .lines)) else none,
   (truncateTail acc.visible acc.limits).outputLines,
   (truncateTail acc.visible acc.limits).outputBytes) := by
  rw [← htruncated, ← h.decoded]
  rfl
 obtain ⟨front, heq, hboundary, hlast⟩ := h.cut
 have hby := @truncateTail_truncatedBy acc.limits acc.visible
 refine ⟨htruncated, h.lines, h.decoded, fun hwhole => ?_, fun hcut => ?_⟩
 · obtain rfl : front = [] := by
    rw [hwhole] at heq
    simpa using heq
   have hvisible : acc.visible = text := by
    rw [visible, if_pos (hboundary.mpr (by simp [AtLineStart])), hwhole]
   rw [hvisible] at hshown hby
   rw [hshown, TruncationResult.shown]
   cases hexceeds : exceeds text acc.limits with
   | false =>
    rw [hexceeds, Option.isSome_eq_false_iff, Option.isNone_iff_eq_none] at hby
    rw [hby]
    rfl
   | true =>
    rw [hexceeds, Option.isSome_iff_exists] at hby
    obtain ⟨by', hby⟩ := hby
    rw [hby]
    rfl
 obtain ⟨front, c, rfl⟩ : ∃ front' c, front = front' ++ [c] := by
  rcases eq_nil_or_concat front with rfl | ⟨front, c, rfl⟩
  · exact absurd heq.symm hcut
  · exact ⟨front, c, concat_eq_append⟩
 have hsize := hlast c (by simp)
 have hbytes : acc.limits.maxBytes < size text := by
  rw [heq, size_append, size_append, size_cons, size_nil]
  omega
 have hexceeds : exceeds text acc.limits = true := exceeds_iff.mpr (inr hbytes)
 refine ⟨?_, hexceeds⟩
 rw [hshown, hexceeds, if_pos rfl, if_pos hbytes, shownVisible]
 cases hvisible : exceeds acc.visible acc.limits with
 | false =>
  have := truncateTail_fits hvisible
  rw [TruncationResult.shown] at this
  injection this with h1 this
  injection this with h2 this
  injection this with h3 h4
  rw [h1, h2, h3, h4]
  rfl
 | true =>
  rw [hvisible, Option.isSome_iff_exists] at hby
  obtain ⟨by', hby⟩ := hby
  rw [if_pos rfl, ← truncateTail_exceeds hvisible, TruncationResult.shown, hby]
  rfl

/-- A disk on which nothing fails. -/
def workingDisk : Disk where
 create := .ok "bake-output.log"
 writeAll _ := .ok ()
 flush := .ok ()

end OutputAccumulator

end Bake.Tools
