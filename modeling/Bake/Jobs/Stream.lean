import Bake.Jobs.Registry
import Bake.Lib.Utf8Stream

/-!
# Streamed output, accounted for

A `StreamBuffer` over any calls: every byte that is appended is taken, reported as dropped,
or still there, and what viewers see is the end of it all. Where nothing is dropped the texts
that are taken are one decoding, wherever the bytes were cut: a take leaves what may still
become a character, and otherwise ends where none is open.
-/

open List Utf8

namespace Bake.Jobs

@[irreducible] def viewTailBytes : Nat := 16 * 1024

/-- `StreamBuffer` with what viewers see of it. -/
structure ViewedBuffer where
 unread : StreamBuffer
 recent : List UInt8
 total : Nat

namespace ViewedBuffer

def new (cap : Nat) : ViewedBuffer := { unread := .new cap, recent := [], total := 0 }

/-- `StreamBuffer::recent`. -/
def recentText (stream : ViewedBuffer) : String × Nat :=
 let shown := stream.recent.drop ((stream.recent.take 3).takeWhile continues).length
 (String.ofList (lossy shown), stream.total - shown.length)

def append (stream : ViewedBuffer) (data : List UInt8) : Bool × ViewedBuffer :=
 if stream.unread.closed then (false, stream)
 else
  let recent := stream.recent ++ data.drop (data.length - min data.length viewTailBytes)
  let (accepted, unread) := stream.unread.append data
  (accepted,
   { unread, recent := recent.drop (recent.length - viewTailBytes)
     total := stream.total + data.length })

def take (stream : ViewedBuffer) (flush : Bool) : (String × Nat) × ViewedBuffer :=
 let (told, unread) := stream.unread.take flush
 (told, { stream with unread })

end ViewedBuffer

/-- A call of a `StreamBuffer`. -/
inductive StreamCall where
 | append (data : List UInt8)
 | take (flush : Bool)

structure Streamed where
 stream : ViewedBuffer
 appended : List UInt8
 /-- How many bytes were taken. -/
 taken : Nat
 /-- How many bytes were reported as dropped. -/
 reported : Nat
 /-- The texts that were taken, one behind the other. -/
 texts : String

namespace Streamed

def new (cap : Nat) : Streamed :=
 { stream := .new cap, appended := [], taken := 0, reported := 0, texts := "" }

def step (s : Streamed) : StreamCall → Streamed
 | .append data => { s with stream := (s.stream.append data).2, appended := s.appended ++ data }
 | .take flush =>
  let ((text, dropped), stream) := s.stream.take flush
  { s with
    stream
    taken := s.taken + (s.stream.unread.bytes.length - stream.unread.bytes.length)
    reported := s.reported + dropped
    texts := s.texts ++ text }

/-- The buffer behind some calls. -/
def after (cap : Nat) (calls : List StreamCall) : Streamed := calls.foldl step (new cap)

end Streamed

/-! ## Where a take ends -/

theorem continues_eq (byte : UInt8) : continues byte = isTail byte := by
 have h : ∀ v : BitVec 8, (UInt8.ofBitVec v &&& 0xC0 == 0x80)
  = (0x80 ≤ v.toNat && v.toNat ≤ 0xBF) := by decide
 exact h byte.toBitVec

theorem sequenceLength_isTail {byte : UInt8} (h : isTail byte = true) :
 sequenceLength byte = none := by
 simp only [isTail, sequenceLength, UInt8.le_iff_toNat_le] at *
 grind

theorem unfinished_incomplete {a : UInt8} {rest : List UInt8} (h : incomplete a rest = true)
 (before : List UInt8) :
 unfinished 1 ((before ++ a :: rest).reverse.take 3) = rest.length + 1 := by
 obtain ⟨htails, hlead⟩ := incomplete_shape h
 obtain ⟨n, hn, hlt, hle⟩ : ∃ n, sequenceLength a = some n ∧ rest.length + 1 < n
  ∧ rest.length ≤ 2 := by
  rcases hlead with ⟨hl, hlo, hhi⟩ | ⟨hl, hlo, hhi⟩ | ⟨hl, hlo, hhi⟩
  · refine ⟨2, ?_, by omega, by omega⟩
    simp only [sequenceLength, UInt8.le_iff_toNat_le]
    grind
  · refine ⟨3, ?_, by omega, by omega⟩
    simp only [sequenceLength, UInt8.le_iff_toNat_le]
    grind
  · refine ⟨4, ?_, by omega, by omega⟩
    simp only [sequenceLength, UInt8.le_iff_toNat_le]
    grind
 match rest, hle with
 | [], _ => simp [unfinished, hn, show 1 < n from hlt]
 | [b], _ =>
  have hb := htails b (by simp)
  simp [unfinished, hn, sequenceLength_isTail hb, continues_eq, hb, show 2 < n from hlt]
 | [b, c], _ =>
  have hb := htails b (by simp)
  have hc := htails c (by simp)
  simp [unfinished, hn, sequenceLength_isTail hb, sequenceLength_isTail hc, continues_eq, hb, hc,
   show 3 < n from hlt]

theorem unfinished_lead (back : Nat) (reversed : List UInt8) :
 unfinished back reversed = 0 ∨ ∃ i, unfinished back reversed = back + i
  ∧ ∃ b, reversed[i]? = some b ∧ isTail b = false := by
 induction reversed generalizing back with
 | nil => exact .inl rfl
 | cons byte before ih =>
  rw [unfinished]
  cases hs : sequenceLength byte with
  | some length =>
   dsimp only
   split
   · refine .inr ⟨0, rfl, byte, rfl, ?_⟩
     cases ht : isTail byte with
     | false => rfl
     | true => exact absurd (sequenceLength_isTail ht) (by simp [hs])
   · exact .inl rfl
  | none =>
   dsimp only
   split
   · rcases ih (back + 1) with h | ⟨i, hi, b, hb⟩
     · exact .inl h
     · exact .inr ⟨i + 1, by omega, b, hb⟩
   · exact .inl rfl

/-- **Where a take ends** the bytes may be cut, whatever is appended behind them. -/
theorem lossy_taken (bytes more : List UInt8) :
 let stop := bytes.length - unfinished 1 (bytes.reverse.take 3)
 lossy (bytes ++ more) = lossy (bytes.take stop) ++ lossy (bytes.drop stop ++ more) := by
 intro stop
 have hsplit : bytes ++ more = bytes.take stop ++ (bytes.drop stop ++ more) := by
  rw [← append_assoc, take_append_drop]
 rw [hsplit, lossy_append]
 rcases unfinished_lead 1 (bytes.reverse.take 3) with hzero | ⟨i, hi, b, hb, htail⟩
 · refine .inl ?_
   have hstop : stop = bytes.length := by simp only [stop, hzero, Nat.sub_zero]
   rw [hstop, take_length]
   obtain ⟨⟨before, hbefore⟩, hleft⟩ := drain_left bytes
   rcases hleft with hnil | ⟨a, rest, hleft, hinc⟩
   · exact hnil
   · rw [hleft] at hbefore
     have := unfinished_incomplete hinc before
     rw [hbefore, hzero] at this
     exact absurd this (by omega)
 · refine .inr fun c hc => ?_
   have hlt := (List.getElem_of_getElem? hb).1
   rw [length_take, length_reverse] at hlt
   rw [getElem?_take, if_pos (by omega), getElem?_reverse (by omega)] at hb
   have hstop : stop = bytes.length - 1 - i := by
    simp only [stop, hi]
    omega
   rw [hstop, drop_eq_getElem_cons (by omega), cons_append, head?_cons] at hc
   rw [List.getElem?_eq_getElem (by omega)] at hb
   rw [← Option.some.inj hc, Option.some.inj hb]
   exact htail

/-! ## The account -/

/-- What holds of a buffer behind any calls, but for the texts. -/
structure Streamed.Sound (cap : Nat) (s : Streamed) : Prop where
 opened : s.stream.unread.closed = false
 capacity : s.stream.unread.cap = cap
 bounded : s.stream.unread.bytes.length ≤ cap
 counted : s.taken + s.reported + s.stream.unread.dropped + s.stream.unread.bytes.length
  = s.appended.length
 recent : s.stream.recent <:+ s.appended
 total : s.stream.total = s.appended.length

/-- What an append drops is counted, and where it drops nothing the bytes are put behind
those that are there. -/
theorem StreamBuffer.append_spec (stream : StreamBuffer) (data : List UInt8)
 (hopen : stream.closed = false) (hbound : stream.bytes.length ≤ stream.cap) :
 let behind := (stream.append data).2
 behind.closed = false ∧ behind.cap = stream.cap ∧ behind.bytes.length ≤ stream.cap
  ∧ behind.dropped + behind.bytes.length = stream.dropped + stream.bytes.length + data.length
  ∧ (behind.dropped = 0 → stream.dropped = 0 ∧ behind.bytes = stream.bytes ++ data) := by
 have hcut : ∀ bytes : List UInt8, ((bytes.take 3).takeWhile continues).length ≤ bytes.length :=
  fun bytes => ((takeWhile_sublist _).trans (take_sublist ..)).length_le
 unfold StreamBuffer.append
 rw [if_neg (by simp [hopen])]
 dsimp only
 split
 next hle =>
  have := hcut (data.drop (data.length - stream.cap))
  refine ⟨hopen, rfl, ?_, ?_, fun hzero => ?_⟩
  · rw [length_drop, length_drop]
    omega
  · rw [length_drop]
    split <;> simp only [length_drop] at * <;> omega
  · have hnil : stream.bytes = [] := length_eq_zero_iff.mp (by omega)
    refine ⟨by omega, ?_⟩
    rw [if_neg (by omega), hnil, show data.length - stream.cap = 0 by omega]
    rfl
 next hlt =>
  have := hcut ((stream.bytes ++ data).drop ((stream.bytes ++ data).length - stream.cap))
  refine ⟨hopen, rfl, ?_, ?_, fun hzero => ?_⟩
  · rw [length_drop, length_drop]
    omega
  · rw [length_drop]
    split <;> simp only [length_drop, length_append] at * <;> omega
  · refine ⟨by omega, ?_⟩
    rw [if_neg (by omega), show (stream.bytes ++ data).length - stream.cap = 0 by omega]
    rfl

theorem recent_suffix {recent appended : List UInt8} (h : recent <:+ appended)
 (data : List UInt8) (n : Nat) :
 let all := recent ++ data.drop (data.length - min data.length n)
 all.drop (all.length - n) <:+ appended ++ data := by
 intro all
 obtain ⟨before, rfl⟩ := h
 by_cases hle : data.length ≤ n
 · have hall : all = recent ++ data := by
    simp only [all, Nat.min_eq_left hle, Nat.sub_self, drop_zero]
   rw [hall, append_assoc]
   exact (drop_suffix _ _).trans (suffix_append _ _)
 · have hlast : (data.drop (data.length - n)).length = n := by rw [length_drop]; omega
   have hall : all = recent ++ data.drop (data.length - n) := by
    simp only [all, Nat.min_eq_right (Nat.le_of_not_le hle)]
   rw [hall, length_append, hlast, Nat.add_sub_cancel, drop_left]
   exact (drop_suffix _ _).trans (suffix_append _ _)

theorem Streamed.Sound.step {cap : Nat} {s : Streamed} (h : s.Sound cap) (call : StreamCall) :
 (s.step call).Sound cap := by
 cases call with
 | append data =>
  obtain ⟨hclosed, hcap, hbound, hcount, -⟩ := s.stream.unread.append_spec data h.opened
   (by rw [h.capacity]; exact h.bounded)
  have := h.counted
  have hstep : (s.stream.append data).2
   = { unread := (s.stream.unread.append data).2, total := s.stream.total + data.length
       recent :=
        let all := s.stream.recent ++ data.drop (data.length - min data.length viewTailBytes)
        all.drop (all.length - viewTailBytes) } := by
   rw [ViewedBuffer.append, if_neg (by simp [h.opened])]
  rw [Streamed.step, hstep]
  exact {
   opened := hclosed
   capacity := hcap.trans h.capacity
   bounded := h.capacity ▸ hbound
   counted := by dsimp only; rw [length_append]; omega
   recent := recent_suffix h.recent data _
   total := by dsimp only; rw [length_append, h.total] }
 | take flush =>
  have := h.counted
  have := h.bounded
  exact {
   opened := h.opened
   capacity := h.capacity
   bounded := by
    simp only [Streamed.step, ViewedBuffer.take, StreamBuffer.take, length_drop]
    omega
   counted := by
    simp only [Streamed.step, ViewedBuffer.take, StreamBuffer.take, length_drop]
    omega
   recent := h.recent
   total := h.total }

theorem Streamed.sound_after (cap : Nat) (calls : List StreamCall) :
 (after cap calls).Sound cap := by
 induction calls using reverseRecOn with
 | nil => exact ⟨rfl, rfl, Nat.zero_le _, rfl, suffix_refl _, rfl⟩
 | append_singleton calls call ih =>
  rw [after, foldl_append]
  exact ih.step call

/-- Nothing is appended behind a take that flushes, as for a job that is over. -/
def FlushedLast (calls : List StreamCall) : Prop :=
 ∀ before later, calls = before ++ .take true :: later → ∀ data, .append data ∉ later

/-- Where nothing is dropped the texts taken and what is left are one decoding, with more
bytes behind it too until the first flush. The induction is on the last call. -/
theorem Streamed.texts_after (cap : Nat) (calls : List StreamCall) (hlast : FlushedLast calls)
 (hnone : (after cap calls).reported + (after cap calls).stream.unread.dropped = 0)
 (more : List UInt8) (hmore : more = [] ∨ .take true ∉ calls) :
 String.ofList (lossy ((after cap calls).appended ++ more)) = (after cap calls).texts
   ++ String.ofList (lossy ((after cap calls).stream.unread.bytes ++ more)) := by
 induction calls using reverseRecOn generalizing more with
 | nil => simp [after, Streamed.new, ViewedBuffer.new, StreamBuffer.new]
 | append_singleton calls call ih =>
  have hbefore : FlushedLast calls := fun before later he data hmem =>
   hlast before (later ++ [call]) (by rw [he]; simp) data (mem_append_left _ hmem)
  have hsound := sound_after cap calls
  have hstep : after cap (calls ++ [call]) = (after cap calls).step call := by
   rw [after, foldl_append]
   rfl
  rw [hstep] at hnone ⊢
  specialize ih hbefore
  generalize after cap calls = s at *
  cases call with
  | append data =>
   have hflush : .take true ∉ calls := fun hmem => by
    obtain ⟨before, later, rfl⟩ := append_of_mem hmem
    exact hlast before (later ++ [.append data]) (by simp) data (by simp)
   obtain ⟨-, -, -, -, hkept⟩ := s.stream.unread.append_spec data hsound.opened
    (by rw [hsound.capacity]; exact hsound.bounded)
   have hunread : (s.stream.append data).2.unread = (s.stream.unread.append data).2 := by
    rw [ViewedBuffer.append, if_neg (by simp [hsound.opened])]
   rw [Streamed.step] at hnone ⊢
   dsimp only at hnone ⊢
   rw [hunread] at hnone ⊢
   obtain ⟨hdropped, hbytes⟩ := hkept (by omega)
   rw [hbytes, append_assoc, append_assoc]
   exact ih (by omega) (data ++ more) (.inr hflush)
  | take flush =>
   have hzero : s.reported + s.stream.unread.dropped = 0 := hnone
   have hprior : more = [] ∨ .take true ∉ calls :=
    hmore.imp id fun h hmem => h (mem_append_left _ hmem)
   rw [show (s.step (.take flush)).appended = s.appended from rfl, ih hzero more hprior]
   simp only [Streamed.step, ViewedBuffer.take, StreamBuffer.take]
   rw [String.append_assoc, ← String.ofList_append]
   cases flush with
   | false => rw [if_neg (by simp), lossy_taken]
   | true =>
    obtain rfl : more = [] := hmore.resolve_right fun h => h (by simp)
    simp

/-- **Streamed output is accounted for.** Behind any calls the buffer holds no more than its
capacity, and what viewers see decodes the end of all that was appended, with the count of
the bytes before it. Once a flush took the rest, every byte was taken or reported as dropped;
and where none was dropped, and nothing was appended behind a flush, the texts taken are the
decoding of all of it. -/
theorem stream_accounted (cap : Nat) (calls : List StreamCall) :
 let s := Streamed.after cap calls
 let last := Streamed.after cap (calls ++ [.take true])
 s.stream.unread.bytes.length ≤ cap
 ∧ (∃ before shown, s.appended = before ++ shown
  ∧ s.stream.recentText = (String.ofList (lossy shown), before.length))
 ∧ last.taken + last.reported = last.appended.length
 ∧ (last.reported = 0 → FlushedLast calls → last.texts = String.ofList (lossy last.appended)) := by
 intro s last
 have hs : s.Sound cap := Streamed.sound_after cap calls
 have hlast : last.Sound cap := Streamed.sound_after cap _
 have hstep : last = s.step (.take true) := by
  simp only [last, s, Streamed.after, foldl_append, foldl_cons, foldl_nil]
 have hempty : last.stream.unread.bytes = [] ∧ last.stream.unread.dropped = 0 := by
  rw [hstep]
  simp [Streamed.step, ViewedBuffer.take, StreamBuffer.take]
 refine ⟨hs.bounded, ?_, ?_, fun hzero hflushed => ?_⟩
 · obtain ⟨before, hbefore⟩ := hs.recent
   let cut := ((s.stream.recent.take 3).takeWhile continues).length
   refine ⟨before ++ s.stream.recent.take cut, s.stream.recent.drop cut, ?_, ?_⟩
   · rw [append_assoc, take_append_drop, hbefore]
   · have hlength : s.appended.length
      = (before ++ s.stream.recent.take cut).length + (s.stream.recent.drop cut).length := by
      rw [← length_append, append_assoc, take_append_drop, hbefore]
     rw [ViewedBuffer.recentText, hs.total, hlength]
     exact congrArg _ (Nat.add_sub_cancel ..)
 · have := hlast.counted
   rw [hempty.1, hempty.2] at this
   simpa using this
 have hcalls : FlushedLast (calls ++ [.take true]) := by
  intro before later he data hmem
  rcases eq_nil_or_concat later with rfl | ⟨later, call, rfl⟩
  · simp at hmem
  · rw [concat_eq_append] at he hmem
    rw [← cons_append, ← append_assoc] at he
    obtain ⟨hcalls, hcall⟩ := append_inj' he rfl
    obtain rfl := (cons.inj hcall).1
    exact hflushed before later hcalls data (by simpa using hmem)
 have := Streamed.texts_after cap _ hcalls
  (show last.reported + last.stream.unread.dropped = 0 by rw [hempty.2, hzero]) [] (.inl rfl)
 rw [append_nil, append_nil, show (Streamed.after cap (calls ++ [.take true])) = last from rfl,
  hempty.1] at this
 simpa using this.symm

/-- A flush between the two bytes of `é` reads as two U+FFFD, with nothing dropped. -/
theorem stream_flush_cuts :
 let last := Streamed.after 4 [.append [0xC3], .take true, .append [0xA9], .take true]
 last.reported = 0 ∧ last.texts ≠ String.ofList (lossy last.appended) := by
 decide +kernel

end Bake.Jobs
