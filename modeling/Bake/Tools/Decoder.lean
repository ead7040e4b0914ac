import Bake.Ai.Sse
import Bake.Lib.Utf8Subparts

/-!
# The decoder of process output

`Decoder`: chunks of bytes decoded by `from_utf8`, error by error. An invalid sequence is
one U+FFFD, an unfinished one waits for the next chunk. Decoding is that of one piece
whatever the chunks: `Holds.decode` says what a call does to the text so far, and
`decodeChunks_decodeAll` what a whole stream comes to.
-/

open List Utf8

namespace Bake.Tools

structure Utf8Error where
 validUpTo : Nat
 /-- The bytes of an invalid sequence, or `none` where the input ends inside one. -/
 errorLen : Option Nat
 deriving DecidableEq

/-- `from_utf8` at the first byte of a sequence: its length, or the error's. -/
def sequence (first : UInt8) (rest : List UInt8) : Except (Option Nat) Nat :=
 if first.toNat < 0x80 then .ok 1
 else if 0xC2 ≤ first.toNat ∧ first.toNat ≤ 0xDF then
  match rest with
  | [] => .error none
  | b :: _ => if isTail b then .ok 2 else .error (some 1)
 else if 0xE0 ≤ first.toNat ∧ first.toNat ≤ 0xEF then
  match rest with
  | [] => .error none
  | b :: rest =>
   if second3 first b then
    match rest with
    | [] => .error none
    | c :: _ => if isTail c then .ok 3 else .error (some 2)
   else .error (some 1)
 else if 0xF0 ≤ first.toNat ∧ first.toNat ≤ 0xF4 then
  match rest with
  | [] => .error none
  | b :: rest =>
   if second4 first b then
    match rest with
    | [] => .error none
    | c :: rest =>
     if isTail c then
      match rest with
      | [] => .error none
      | d :: _ => if isTail d then .ok 4 else .error (some 3)
     else .error (some 2)
   else .error (some 1)
 else .error (some 1)

/-- The validation of `from_utf8`, from a byte index on. -/
def validate : List UInt8 → Nat → Except Utf8Error Unit
 | [], _ => .ok ()
 | first :: rest, index =>
  match sequence first rest with
  | .ok length => validate (rest.drop (length - 1)) (index + length)
  | .error errorLen => .error { validUpTo := index, errorLen }
termination_by bytes => bytes.length
decreasing_by
 simp only [length_drop, length_cons]
 omega

/-- `std::str::from_utf8`. Valid bytes are the encoding of the text they read as:
`fromUtf8_ok`. -/
def fromUtf8 (bytes : List UInt8) : Except Utf8Error (List Char) :=
 (validate bytes 0).map fun _ => lossy bytes

/-! ## What `from_utf8` finds -/

variable {first : UInt8} {length : Nat} {rest bytes : List UInt8}

theorem sequence_invalid (h : sequence first rest = .error (some length)) :
 1 ≤ length ∧ length - 1 ≤ rest.length ∧ incomplete first rest = false
  ∧ lossyStep first rest = (replacement, rest.drop (length - 1)) := by
 fun_cases sequence first rest
 all_goals simp [sequence, *] at h
 all_goals
  subst h
  refine ⟨by omega, by simp, ?_, by simp [lossyStep, *]⟩
  unfold incomplete
  grind

theorem sequence_ok (h : sequence first rest = .ok length) :
 1 ≤ length ∧ length - 1 ≤ rest.length ∧ incomplete first rest = false
  ∧ ∃ c, String.utf8EncodeChar c = first :: rest.take (length - 1) := by
 fun_cases sequence first rest
 all_goals simp [sequence, *] at h
 all_goals
  subst h
  refine ⟨by omega, by simp, by unfold incomplete; grind, ?_⟩
 · exact encodeChar_one ‹_›
 · exact encodeChar_two ‹_› ‹_›
 · exact encodeChar_three ‹_› ‹_› ‹_›
 · exact encodeChar_four ‹_› ‹_› ‹_› ‹_›

theorem sequence_unfinished (h : sequence first rest = .error none) :
 incomplete first rest = true := by
 fun_cases sequence first rest
 all_goals simp [sequence, *] at h
 all_goals
  unfold incomplete
  grind

theorem sequence_ok_step (h : sequence first rest = .ok length) :
 String.utf8EncodeChar (lossyStep first rest).1 = first :: rest.take (length - 1)
  ∧ (lossyStep first rest).2 = rest.drop (length - 1) := by
 obtain ⟨-, -, -, c, hc⟩ := sequence_ok h
 obtain ⟨a, bytes, hc', hstep⟩ := lossyStep_encodeChar c (rest.drop (length - 1))
 obtain ⟨rfl, rfl⟩ := List.cons.inj (hc.symm.trans hc')
 rw [take_append_drop] at hstep
 rw [hstep]
 exact ⟨hc, rfl⟩

theorem sequence_encodeChar (c : Char) (rest : List UInt8) :
 ∃ first bytes, String.utf8EncodeChar c = first :: bytes
  ∧ sequence first (bytes ++ rest) = .ok (bytes.length + 1) := by
 rcases encodeChar_cases c with ⟨a, h, h1, -⟩ | ⟨a, b, h, h1, h2, hb, -⟩
  | ⟨a, b, d, h, h1, h2, hs, hb, hd, -⟩ | ⟨a, b, d, e, h, h1, h2, hs, hb, hd, he, -⟩
 · exact ⟨a, [], h, by simp [sequence, h1]⟩
 · have h0 : ¬ a.toNat < 0x80 := by omega
   exact ⟨a, [b], h, by simp [sequence, h0, h1, h2, hb]⟩
 · have h0 : ¬ a.toNat < 0x80 := by omega
   have h3 : ¬ a.toNat ≤ 0xDF := by omega
   exact ⟨a, [b, d], h, by simp [sequence, h0, h1, h2, h3, hs, hd]⟩
 · have h0 : ¬ a.toNat < 0x80 := by omega
   have h3 : ¬ a.toNat ≤ 0xDF := by omega
   have h4 : ¬ a.toNat ≤ 0xEF := by omega
   exact ⟨a, [b, d, e], h, by simp [sequence, h0, h1, h2, h3, h4, hs, hd, he]⟩

/-- What `from_utf8` says of bytes: they are valid, or valid up to a sequence that is
refused or that they end in. -/
theorem validate_cases (bytes : List UInt8) (index : Nat) :
 (validate bytes index = .ok () ∧ encode (lossy bytes) = bytes)
 ∨ ∃ text first rest errorLen, bytes = encode text ++ first :: rest
  ∧ sequence first rest = .error errorLen
  ∧ validate bytes index = .error { validUpTo := index + (encode text).length, errorLen } := by
 fun_induction validate bytes index with
 | case1 => exact Or.inl ⟨rfl, by rw [lossy_nil, encode_nil]⟩
 | case2 first rest index length hseq ih =>
  obtain ⟨hchar, hrest⟩ := sequence_ok_step hseq
  obtain ⟨hpos, hlength, -⟩ := sequence_ok hseq
  rcases ih with ⟨hok, hencode⟩ | ⟨text, first', rest', errorLen, heq, hseq', herror⟩
  · refine Or.inl ⟨hok, ?_⟩
    rw [lossy_cons, encode_cons, hchar, hrest, hencode, cons_append, take_append_drop]
  · refine Or.inr ⟨(lossyStep first rest).1 :: text, first', rest', errorLen, ?_, hseq', ?_⟩
    · rw [encode_cons, hchar, append_assoc, ← heq, cons_append, take_append_drop]
    · rw [herror, encode_cons, hchar, length_append, length_cons,
       length_take, Nat.min_eq_left hlength]
      congr 2
      omega
 | case3 first rest index errorLen hseq =>
  exact Or.inr ⟨[], first, rest, errorLen, rfl, hseq, by simp⟩

theorem validate_encode (text : List Char) (index : Nat) :
 validate (encode text) index = .ok () := by
 induction text generalizing index with
 | nil => rw [encode_nil, validate]
 | cons c text ih =>
  obtain ⟨first, bytes, hc, hseq⟩ := sequence_encodeChar c (encode text)
  rw [encode_cons, hc, cons_append, validate, hseq]
  simpa using ih _

/-- **`from_utf8` accepts exactly the encodings of texts**, and gives the text. -/
theorem fromUtf8_ok {text : List Char} : fromUtf8 bytes = .ok text ↔ encode text = bytes := by
 constructor
 · intro h
   rcases validate_cases bytes 0 with ⟨hok, hencode⟩ | ⟨_, _, _, _, -, -, herror⟩
   · rw [fromUtf8, hok] at h
     injection h with h
     rw [← h, hencode]
   · rw [fromUtf8, herror] at h
     simp [Except.map] at h
 · rintro rfl
   rw [fromUtf8, validate_encode, lossy_encode]
   rfl

theorem fromUtf8_error {error : Utf8Error} (h : fromUtf8 bytes = .error error) :
 ∃ text first rest, bytes = encode text ++ first :: rest ∧ error.validUpTo = (encode text).length
  ∧ sequence first rest = .error error.errorLen := by
 rcases validate_cases bytes 0 with ⟨hok, -⟩ | ⟨text, first, rest, errorLen, heq, hseq, herror⟩
 · rw [fromUtf8, hok] at h
   simp [Except.map] at h
 · rw [fromUtf8, herror] at h
   cases h
   exact ⟨text, first, rest, heq, by simp, hseq⟩

/-! ## The decoder -/

theorem fromUtf8_errorLen {error : Utf8Error} (h : fromUtf8 bytes = .error error)
 (hlength : error.errorLen = some length) :
 1 ≤ length ∧ error.validUpTo + length ≤ bytes.length := by
 obtain ⟨text, first, rest, rfl, hvalid, hseq⟩ := fromUtf8_error h
 rw [hlength] at hseq
 obtain ⟨hpos, hle, -⟩ := sequence_invalid hseq
 rw [length_append, length_cons, hvalid]
 omega

/-- The loop of `Decoder::decode`: the output, and the bytes that stay pending. -/
def decodeLoop (rest : List UInt8) (output : List Char) : List Char × List UInt8 :=
 match _ : fromUtf8 rest with
 | .ok text => (output ++ text, [])
 | .error error =>
  let valid := rest.take error.validUpTo
  let invalid := rest.drop error.validUpTo
  let output := output ++ (fromUtf8 valid).toOption.getD []
  match _ : error.errorLen with
  | some length => decodeLoop (invalid.drop length) (output ++ [replacement])
  | none => (output, invalid)
termination_by rest.length
decreasing_by
 have := fromUtf8_errorLen ‹fromUtf8 rest = _› ‹error.errorLen = _›
 simp only [length_drop]
 omega

structure Decoder where
 pending : List UInt8
 started : Bool

namespace Decoder

/-- `Decoder::default`. -/
def new : Decoder := { pending := [], started := false }

def decode (d : Decoder) (bytes : List UInt8) : Decoder × List Char :=
 let rest := if d.pending.isEmpty then bytes else d.pending ++ bytes
 let (output, pending) := decodeLoop rest []
 if !d.started && !output.isEmpty then ({ pending, started := true }, Ai.dropBom output)
 else ({ d with pending }, output)

def finish (d : Decoder) : Decoder × List Char :=
 if d.pending.isEmpty then (d, []) else ({ d with pending := [] }, [replacement])

def decodeAll (bytes : List UInt8) : List Char :=
 let (decoder, text) := new.decode bytes
 text ++ decoder.finish.2

/-- The chunks of a stream, one after the other. -/
def decodeChunks (d : Decoder) : List (List UInt8) → Decoder × List Char
 | [] => (d, [])
 | bytes :: chunks =>
  let (d, text) := d.decode bytes
  let (d, more) := d.decodeChunks chunks
  (d, text ++ more)

end Decoder

/-! ## What the loop reads -/

theorem drain_encode_append (text : List Char) (rest : List UInt8) : drain (encode text ++ rest)
  = (text ++ (drain rest).1, (drain rest).2) := by
 induction text with
 | nil => rfl
 | cons c text ih =>
  obtain ⟨first, bytes, hc, hseq⟩ := sequence_encodeChar c (encode text ++ rest)
  obtain ⟨first', bytes', hc', hstep⟩ := lossyStep_encodeChar c (encode text ++ rest)
  obtain ⟨rfl, rfl⟩ := List.cons.inj (hc.symm.trans hc')
  rw [encode_cons, hc, append_assoc, cons_append, drain_cons (sequence_ok hseq).2.2.1, hstep, ih]
  rfl

/-- The loop reads what the bytes decode to, and leaves what they end in. -/
theorem decodeLoop_eq (rest : List UInt8) (output : List Char) :
 decodeLoop rest output = (output ++ (drain rest).1, (drain rest).2) := by
 fun_induction decodeLoop rest output with
 | case1 rest output text hok =>
  have hdrain := drain_encode_append text []
  rw [append_nil, fromUtf8_ok.mp hok, drain_nil, append_nil] at hdrain
  rw [hdrain]
 | case2 rest output error herror valid invalid output' length hlength ih =>
  obtain ⟨text, first, more, rfl, hvalid, hseq⟩ := fromUtf8_error herror
  rw [hlength] at hseq
  obtain ⟨hpos, -, hwhole, hstep⟩ := sequence_invalid hseq
  have htext : fromUtf8 valid = .ok text :=
   fromUtf8_ok.mpr (by simp only [valid, hvalid, take_left])
  have hinvalid : invalid.drop length = more.drop (length - 1) := by
   obtain ⟨n, rfl⟩ : ∃ n, length = n + 1 := ⟨length - 1, by omega⟩
   simp only [invalid, hvalid, drop_left]
   rfl
  rw [ih, hinvalid, drain_encode_append, drain_cons hwhole, hstep]
  simp only [output', htext, Except.toOption, Option.getD_some, append_assoc,
   cons_append, nil_append]
 | case3 rest output error herror valid invalid output' hlength =>
  obtain ⟨text, first, more, rfl, hvalid, hseq⟩ := fromUtf8_error herror
  rw [hlength] at hseq
  have htext : fromUtf8 valid = .ok text :=
   fromUtf8_ok.mpr (by simp only [valid, hvalid, take_left])
  have hinvalid : invalid = first :: more := by simp only [invalid, hvalid, drop_left]
  rw [drain_encode_append, drain_incomplete (sequence_unfinished hseq), hinvalid]
  simp only [output', htext, Except.toOption, Option.getD_some, append_nil]

namespace Decoder

/-- The decoder as one that drains its bytes. -/
def stream (d : Decoder) : Ai.Utf8StreamDecoder := { pending := d.pending, started := d.started }

theorem decode_stream (d : Decoder) (bytes : List UInt8) :
 (d.decode bytes).1.stream = (d.stream.decode bytes).1
  ∧ (d.decode bytes).2 = (d.stream.decode bytes).2 := by
 have hloop : decodeLoop (if d.pending.isEmpty then bytes else d.pending ++ bytes) []
  = drain (d.pending ++ bytes) := by
  rw [decodeLoop_eq, nil_append]
  cases d.pending <;> rfl
 cases hs : d.started <;> cases hout : (drain (d.pending ++ bytes)).1
 all_goals
  unfold decode Ai.Utf8StreamDecoder.decode
  dsimp only
  rw [hloop]
  simp [stream, hs, hout]

structure Holds (d : Decoder) (bytes : List UInt8) : Prop where
 pending : d.pending = (drain bytes).2
 started : d.started = !(drain bytes).1.isEmpty

theorem holds_new : Holds new [] := ⟨by simp [new], by simp [new]⟩

variable {d : Decoder}

/-- **One call**: the text goes on where it stopped. -/
theorem Holds.decode (h : Holds d bytes) (more : List UInt8) :
 Holds (d.decode more).1 (bytes ++ more) ∧ Ai.dropBom (drain (bytes ++ more)).1
   = Ai.dropBom (drain bytes).1 ++ (d.decode more).2 := by
 obtain ⟨hd, htext⟩ := d.decode_stream more
 obtain ⟨hpending, hstarted, hmore⟩ := @Ai.SseDecoder.decode_eq d.stream bytes h.pending
  h.started more
 rw [← hd] at hpending hstarted
 exact ⟨⟨hpending, hstarted⟩, by rw [htext, hmore]⟩

theorem Holds.decodeChunks (h : Holds d bytes) (chunks : List (List UInt8)) :
 Holds (d.decodeChunks chunks).1 (bytes ++ chunks.flatten)
  ∧ Ai.dropBom (drain (bytes ++ chunks.flatten)).1
   = Ai.dropBom (drain bytes).1 ++ (d.decodeChunks chunks).2 := by
 induction chunks generalizing d bytes with
 | nil =>
  rw [flatten_nil, append_nil]
  exact ⟨h, by simp [Decoder.decodeChunks]⟩
 | cons chunk chunks ih =>
  obtain ⟨h', htext⟩ := h.decode chunk
  obtain ⟨h'', hmore⟩ := ih h'
  rw [append_assoc, ← flatten_cons] at h'' hmore
  exact ⟨h'', by rw [hmore, htext, append_assoc]; rfl⟩

theorem Holds.finish (h : Holds d bytes) :
 Ai.dropBom (drain bytes).1 ++ d.finish.2 = Ai.dropBom (lossy bytes) := by
 have hfinish : d.finish.2 = if (drain bytes).2 = [] then [] else [replacement] := by
  rw [← h.pending, Decoder.finish]
  cases d.pending <;> rfl
 rw [hfinish, lossy_drain]
 by_cases hfirst : (drain bytes).1 = []
 · rw [hfirst]
   split <;> rfl
 · rw [Ai.dropBom_append hfirst]

theorem length_drain_le (bytes : List UInt8) : (drain bytes).2.length ≤ 3 := by
 fun_induction drain bytes with
 | case1 => simp
 | case2 first rest h =>
  unfold incomplete at h
  grind
 | case3 first rest h ih => exact ih

/-- **Streaming UTF-8 decoding is chunk-independent.** However bytes are split into chunks,
the texts of the calls and of the end are `decode_all` of all of them, which is the one text
the bytes decode to by maximal subparts, without a byte order mark in front. After any
number of chunks at most three bytes are pending. -/
theorem decodeChunks_decodeAll (chunks : List (List UInt8)) :
 (new.decodeChunks chunks).2 ++ (new.decodeChunks chunks).1.finish.2 = decodeAll chunks.flatten
  ∧ (∃ text, (∀ other, Utf8.Decodes chunks.flatten other ↔ other = text)
   ∧ decodeAll chunks.flatten = Ai.dropBom text)
  ∧ ∀ k, (new.decodeChunks (chunks.take k)).1.pending.length ≤ 3 := by
 have hall : decodeAll chunks.flatten = Ai.dropBom (lossy chunks.flatten) := by
  obtain ⟨h, htext⟩ := holds_new.decode chunks.flatten
  rw [nil_append, drain_nil] at htext
  have hfinish := h.finish
  rw [nil_append, htext] at hfinish
  exact hfinish
 refine ⟨?_, ⟨lossy chunks.flatten, fun _ => decodes_iff, hall⟩, fun k => ?_⟩
 · obtain ⟨h, htext⟩ := holds_new.decodeChunks chunks
   rw [nil_append, drain_nil] at htext
   have hfinish := h.finish
   rw [nil_append, htext] at hfinish
   rw [hall, ← hfinish]
   rfl
 · obtain ⟨h, -⟩ := holds_new.decodeChunks (chunks.take k)
   rw [h.pending]
   exact length_drain_le _

end Decoder

end Bake.Tools
