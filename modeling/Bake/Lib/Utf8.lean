import Mathlib.Data.List.Basic

/-!
# Lossy UTF-8 decoding

What a reader sees of bytes that may stop anywhere. Decoding replaces each
maximal part that no character continues by one U+FFFD, so a text cut in the
middle of a character reads as the characters before the cut and one U+FFFD, and
nothing else: that is `lossy_take`, the fact a crash argument needs.

Encoding is `String.utf8EncodeChar`, one character at a time.
-/

open List Char

namespace Utf8

open String (utf8EncodeChar)

def encode (text : List Char) : List UInt8 := text.flatMap utf8EncodeChar

def replacement : Char := '\uFFFD'

/-- A continuation byte. -/
def isTail (b : UInt8) : Bool := 0x80 ≤ b.toNat && b.toNat ≤ 0xBF

/-- The bytes that may follow the lead byte `a` of a three-byte sequence. -/
def second3 (a b : UInt8) : Bool :=
 if a.toNat = 0xE0 then 0xA0 ≤ b.toNat && b.toNat ≤ 0xBF
 else if a.toNat = 0xED then 0x80 ≤ b.toNat && b.toNat ≤ 0x9F
 else isTail b

/-- The bytes that may follow the lead byte `a` of a four-byte sequence. -/
def second4 (a b : UInt8) : Bool :=
 if a.toNat = 0xF0 then 0x90 ≤ b.toNat && b.toNat ≤ 0xBF
 else if a.toNat = 0xF4 then 0x80 ≤ b.toNat && b.toNat ≤ 0x8F
 else isTail b

/-- One character from the front of `a :: rest`, and the bytes after it. A
sequence that breaks off reads as U+FFFD, and decoding goes on at the byte that
broke it. -/
def lossyStep (a : UInt8) (rest : List UInt8) : Char × List UInt8 :=
 if a.toNat < 0x80 then (ofNat a.toNat, rest)
 else if 0xC2 ≤ a.toNat ∧ a.toNat ≤ 0xDF then
  match rest with
  | b :: rest1 =>
   if isTail b then
    (ofNat ((a.toNat - 0xC0) * 64 + (b.toNat - 0x80)), rest1)
   else (replacement, rest)
  | [] => (replacement, [])
 else if 0xE0 ≤ a.toNat ∧ a.toNat ≤ 0xEF then
  match rest with
  | b :: rest1 =>
   if second3 a b then
    match rest1 with
    | c :: rest2 =>
     if isTail c then
      (ofNat ((a.toNat - 0xE0) * 4096 + (b.toNat - 0x80) * 64 + (c.toNat - 0x80)), rest2)
     else (replacement, rest1)
    | [] => (replacement, [])
   else (replacement, rest)
  | [] => (replacement, [])
 else if 0xF0 ≤ a.toNat ∧ a.toNat ≤ 0xF4 then
  match rest with
  | b :: rest1 =>
   if second4 a b then
    match rest1 with
    | c :: rest2 =>
     if isTail c then
      match rest2 with
      | d :: rest3 =>
       if isTail d then
        (ofNat ((a.toNat - 0xF0) * 262144 + (b.toNat - 0x80) * 4096
         + (c.toNat - 0x80) * 64 + (d.toNat - 0x80)), rest3)
       else (replacement, rest2)
      | [] => (replacement, [])
     else (replacement, rest1)
    | [] => (replacement, [])
   else (replacement, rest)
  | [] => (replacement, [])
 else (replacement, rest)

variable (a : UInt8)

theorem lossyStep_length (rest : List UInt8) : (lossyStep a rest).2.length ≤ rest.length := by
 unfold lossyStep
 repeat' split
 all_goals simp only [length_cons, length_nil]
 all_goals omega

/-- Decode bytes, each maximal invalid part as one U+FFFD. -/
def lossy : List UInt8 → List Char
 | [] => []
 | a :: rest => (lossyStep a rest).1 :: lossy (lossyStep a rest).2
termination_by bytes => bytes.length
decreasing_by
 have := lossyStep_length a rest
 simp only [length_cons]
 omega

/-! ## One character -/

theorem code_valid (c : Char) :
 c.val.toNat < 0xD800 ∨ (0xDFFF < c.val.toNat ∧ c.val.toNat < 0x110000) := by
 have := c.valid
 simpa [UInt32.isValidChar, Nat.isValidChar] using this

variable {n : Nat}

private theorem ofNat_toNat_lt (h : n < 256) : (UInt8.ofNat n).toNat = n := by
 simp only [UInt8.toNat_ofNat']
 exact Nat.mod_eq_of_lt h

variable {c : Char}

private theorem char_eq (h : n = c.val.toNat) : ofNat n = c := by
 subst h
 exact ofNat_toNat c

/-- The shapes an encoded character takes, one per length. -/
theorem encodeChar_cases (c : Char) :
 (∃ a, utf8EncodeChar c = [a] ∧ a.toNat < 0x80 ∧ a.toNat = c.val.toNat)
 ∨ (∃ a b, utf8EncodeChar c = [a, b] ∧ 0xC2 ≤ a.toNat ∧ a.toNat ≤ 0xDF
  ∧ isTail b ∧ (a.toNat - 0xC0) * 64 + (b.toNat - 0x80) = c.val.toNat)
 ∨ (∃ a b d, utf8EncodeChar c = [a, b, d] ∧ 0xE0 ≤ a.toNat ∧ a.toNat ≤ 0xEF
  ∧ second3 a b ∧ isTail b ∧ isTail d
  ∧ (a.toNat - 0xE0) * 4096 + (b.toNat - 0x80) * 64 + (d.toNat - 0x80) = c.val.toNat)
 ∨ (∃ a b d e, utf8EncodeChar c = [a, b, d, e] ∧ 0xF0 ≤ a.toNat ∧ a.toNat ≤ 0xF4
  ∧ second4 a b ∧ isTail b ∧ isTail d ∧ isTail e
  ∧ (a.toNat - 0xF0) * 262144 + (b.toNat - 0x80) * 4096 + (d.toNat - 0x80) * 64
   + (e.toNat - 0x80) = c.val.toNat) := by
 have hv := code_valid c
 unfold utf8EncodeChar
 generalize hn : c.val.toNat = v at hv
 dsimp only
 split
 · exact .inl ⟨_, rfl, by rw [ofNat_toNat_lt (by omega)]; omega,
    by rw [ofNat_toNat_lt (by omega)]⟩
 split
 · refine .inr (.inl ⟨_, _, rfl, ?_⟩)
   simp only [isTail]
   rw [ofNat_toNat_lt (by omega), ofNat_toNat_lt (by omega)]
   simp only [Bool.and_eq_true, decide_eq_true_eq]
   omega
 split
 · refine .inr (.inr (.inl ⟨_, _, _, rfl, ?_⟩))
   simp only [second3, isTail]
   rw [ofNat_toNat_lt (by omega), ofNat_toNat_lt (by omega), ofNat_toNat_lt (by omega)]
   refine ⟨by omega, by omega, ?_, by simp; omega, by simp; omega, by omega⟩
   split
   · simp; omega
   split
   · simp; omega
   · simp; omega
 · refine .inr (.inr (.inr ⟨_, _, _, _, rfl, ?_⟩))
   simp only [second4, isTail]
   rw [ofNat_toNat_lt (by omega), ofNat_toNat_lt (by omega), ofNat_toNat_lt (by omega),
    ofNat_toNat_lt (by omega)]
   refine ⟨by omega, by omega, ?_, by simp; omega, by simp; omega, by simp; omega, by omega⟩
   split
   · simp; omega
   split
   · simp; omega
   · simp; omega

/-- A whole character decodes to itself. -/
theorem lossyStep_encodeChar (c : Char) (rest : List UInt8) :
 ∃ a bytes, utf8EncodeChar c = a :: bytes ∧ lossyStep a (bytes ++ rest) = (c, rest) := by
 rcases encodeChar_cases c with ⟨a, h, h1, h2⟩ | ⟨a, b, h, h1, h2, hb, hn⟩
  | ⟨a, b, d, h, h1, h2, hs, hb, hd, hn⟩ | ⟨a, b, d, e, h, h1, h2, hs, hb, hd, he, hn⟩
 · refine ⟨a, [], h, ?_⟩
   rw [lossyStep.eq_def, if_pos h1, h2, char_eq rfl]
   rfl
 · refine ⟨a, [b], h, ?_⟩
   rw [lossyStep.eq_def, if_neg (by omega), if_pos ⟨h1, h2⟩]
   simp only [cons_append, nil_append, hb, if_true]
   rw [char_eq hn]
 · refine ⟨a, [b, d], h, ?_⟩
   rw [lossyStep.eq_def, if_neg (by omega), if_neg (by omega), if_pos ⟨h1, h2⟩]
   simp only [cons_append, nil_append, hs, hd, if_true]
   rw [char_eq hn]
 · refine ⟨a, [b, d, e], h, ?_⟩
   rw [lossyStep.eq_def, if_neg (by omega), if_neg (by omega), if_neg (by omega), if_pos ⟨h1, h2⟩]
   simp only [cons_append, nil_append, hs, hd, he, if_true]
   rw [char_eq hn]

/-- **A character cut short reads as one U+FFFD**, however many of its bytes are there. -/
theorem lossyStep_cut {a : UInt8} {bytes : List UInt8} (h : utf8EncodeChar c = a :: bytes) (hn : n < bytes.length) : lossyStep a (bytes.take n) = (replacement, []) := by
 rcases encodeChar_cases c with ⟨a, h', h1, h2⟩ | ⟨a, b, h', h1, h2, hb, hv⟩
  | ⟨a, b, d, h', h1, h2, hs, hb, hd, hv⟩ | ⟨a, b, d, e, h', h1, h2, hs, hb, hd, he, hv⟩
 all_goals
  rw [h'] at h
  obtain ⟨rfl, rfl⟩ := List.cons.inj h
  simp only [length_cons, length_nil] at hn
 · omega
 · obtain rfl : n = 0 := by omega
   rw [lossyStep.eq_def, if_neg (by omega), if_pos ⟨h1, h2⟩]
   rfl
 · rw [lossyStep.eq_def, if_neg (by omega), if_neg (by omega), if_pos ⟨h1, h2⟩]
   rcases n with _ | n
   · rfl
   · obtain rfl : n = 0 := by omega
     simp [hs]
 · rw [lossyStep.eq_def, if_neg (by omega), if_neg (by omega), if_neg (by omega), if_pos ⟨h1, h2⟩]
   rcases n with _ | _ | n
   · rfl
   · simp [hs]
   · obtain rfl : n = 0 := by omega
     simp [hs, hd]

/-! ## Texts -/

@[simp] theorem encode_nil : encode [] = [] := rfl

@[simp] theorem encode_cons (c : Char) (text : List Char) :
 encode (c :: text) = utf8EncodeChar c ++ encode text := by
 simp [encode]

theorem encode_append (s t : List Char) : encode (s ++ t) = encode s ++ encode t := by
 simp [encode]

@[simp] theorem lossy_nil : lossy [] = [] := by rw [lossy]

theorem lossy_cons (rest : List UInt8) :
 lossy (a :: rest) = (lossyStep a rest).1 :: lossy (lossyStep a rest).2 := by rw [lossy]

variable (text : List Char)

theorem lossy_encode_append (rest : List UInt8) :
  lossy (encode text ++ rest) = text ++ lossy rest := by
 induction text with
 | nil => simp
 | cons c text ih =>
  obtain ⟨a, bytes, hc, hstep⟩ := lossyStep_encodeChar c (encode text ++ rest)
  rw [encode_cons, hc, append_assoc, cons_append, lossy_cons, hstep]
  simp [ih]

theorem lossy_encode : lossy (encode text) = text := by
 have := lossy_encode_append text []
 simpa using this

/--
**A text cut after any number of its bytes** reads as the characters wholly
before the cut, followed by at most one U+FFFD for a character cut in two.
-/
theorem lossy_take (n : Nat) : ∃ k, (lossy ((encode text).take n) = text.take k
  ∨ (k < text.length ∧ lossy ((encode text).take n) = text.take k ++ [replacement]))
  ∧ (n < (encode text).length → k < text.length) := by
 induction text generalizing n with
 | nil => exact ⟨0, .inl (by simp), by simp⟩
 | cons c text ih =>
  obtain ⟨a, bytes, hc, -⟩ := lossyStep_encodeChar c []
  by_cases hn : n < (utf8EncodeChar c).length
  · refine ⟨0, ?_, by simp⟩
    rw [encode_cons, take_append_of_le_length (by omega)]
    rcases n with _ | n
    · exact .inl (by simp)
    · refine .inr ⟨by simp, ?_⟩
      rw [hc] at hn ⊢
      simp only [length_cons] at hn
      rw [take_succ_cons, lossy_cons, lossyStep_cut hc (by omega)]
      simp
  obtain ⟨k, hk, hlt⟩ := ih (n - (utf8EncodeChar c).length)
  have htake : (encode (c :: text)).take n
   = utf8EncodeChar c ++ (encode text).take (n - (utf8EncodeChar c).length) := by
   rw [encode_cons, take_append, take_of_length_le (by omega)]
  have hone : ∀ rest, lossy (utf8EncodeChar c ++ rest) = c :: lossy rest := by
   intro rest
   have := lossy_encode_append [c] rest
   simpa using this
  refine ⟨k + 1, ?_, ?_⟩
  · rw [htake, hone]
    rcases hk with hk | ⟨hlen, hk⟩
    · exact .inl (by rw [hk]; rfl)
    · exact .inr ⟨by simp only [length_cons]; omega, by rw [hk]; rfl⟩
  · intro h
    rw [encode_cons, length_append] at h
    have := hlt (by omega)
    simp only [length_cons]
    omega

/-- Only an ASCII character has its code among the bytes of a text. -/
theorem mem_encode_ascii {text : List Char} {b : UInt8} (hb : b.toNat < 0x80)
 (h : b ∈ encode text) : ofNat b.toNat ∈ text := by
 rw [encode, mem_flatMap] at h
 obtain ⟨c, hc, hmem⟩ := h
 suffices c = ofNat b.toNat by rwa [← this]
 rcases encodeChar_cases c with ⟨a, h', h1, h2⟩ | ⟨a, b', h', h1, h2, hb', hv⟩
  | ⟨a, b', d, h', h1, h2, hs, hb', hd, hv⟩ | ⟨a, b', d, e, h', h1, h2, hs, hb', hd, he, hv⟩
 all_goals
  rw [h'] at hmem
  simp only [mem_cons, not_mem_nil, or_false] at hmem
 · subst hmem
   rw [h2, char_eq rfl]
 all_goals
  simp only [isTail, Bool.and_eq_true, decide_eq_true_eq] at *
  rcases hmem with rfl | rfl | rfl | rfl <;> omega

private theorem ofNat_eq (h : ofNat n = c) (h0 : c ≠ ofNat 0) : n = c.val.toNat := by
 by_cases hv : n.isValidChar
 · subst h
   rw [ofNat, dif_pos hv]
   rfl
 · rw [ofNat, dif_neg hv] at h
   exact absurd h.symm h0

/-- A decoded character below the multi-byte range is one byte of its own, and decoding
goes on within the bytes behind it. -/
theorem lossyStep_ascii (rest : List UInt8) : (lossyStep a rest).2 <:+ rest
  ∧ ∀ c : Char, (lossyStep a rest).1 = c → c.val.toNat < 0x80 →
   c ≠ ofNat 0 → a.toNat = c.val.toNat := by
 have hrep : ∀ c : Char, replacement = c → c.val.toNat < 0x80 → c ≠ ofNat 0 →
  a.toNat = c.val.toNat := by
  intro c hc hlt
  subst hc
  exact absurd hlt (by decide)
 have hmulti : ∀ n, 0x80 ≤ n → ∀ c : Char, ofNat n = c → c.val.toNat < 0x80 →
  c ≠ ofNat 0 → a.toNat = c.val.toNat := by
  intro n hn c hc hlt h0
  have := ofNat_eq hc h0
  omega
 unfold lossyStep
 repeat' split
 all_goals dsimp only
 all_goals try with_reducible exact ⟨suffix_refl _, hrep⟩
 · exact ⟨suffix_refl _, fun c hc _ h0 => ofNat_eq hc h0⟩
 all_goals
  refine ⟨by first | exact ⟨[_], rfl⟩ | exact ⟨[_, _], rfl⟩ | exact ⟨[_, _, _], rfl⟩, ?_⟩
  -- what breaks off is U+FFFD, and what does not is past the ASCII range
  first
   | with_reducible exact hrep
   | refine hmulti _ ?_
     simp only [second3, second4, isTail] at *
     grind

theorem mem_lossy_ascii (hlt : c.val.toNat < 0x80) (h0 : c ≠ ofNat 0) (bytes : List UInt8)
 (h : c ∈ lossy bytes) : ∃ b ∈ bytes, b.toNat = c.val.toNat := by
 induction bytes using lossy.induct with
 | case1 => simp at h
 | case2 a rest ih =>
  obtain ⟨hsuffix, hchar⟩ := lossyStep_ascii a rest
  rw [lossy_cons, mem_cons] at h
  rcases h with h | h
  · exact ⟨a, mem_cons_self .., hchar c h.symm hlt h0⟩
  · obtain ⟨b, hb, hv⟩ := ih h
    exact ⟨b, mem_cons_of_mem _ (hsuffix.subset hb), hv⟩

end Utf8
