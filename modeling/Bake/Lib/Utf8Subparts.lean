import Bake.Lib.Utf8

/-!
# Maximal subparts

What lossy decoding is, said without a decoder: a character is read where one stands, and
where none does, the longest front part that begins a character is one U+FFFD, or the first
byte where not even that begins one. `Decodes` says so as a relation, and `decodes_iff` that
`lossy` computes it.
-/

open List Or

namespace Utf8

open String (utf8EncodeChar)

def Begins (bytes : List UInt8) : Prop := ∃ c, bytes <+: utf8EncodeChar c

structure MaximalSubpart (part bytes : List UInt8) : Prop where
 front : part <+: bytes
 nonempty : part ≠ []
 begins : Begins part ∨ part.length = 1
 maximal : ∀ longer, longer <+: bytes → part.length < longer.length → ¬ Begins longer

inductive Decodes : List UInt8 → List Char → Prop
 | nil : Decodes [] []
 | char {c : Char} {rest : List UInt8} {text : List Char} : Decodes rest text →
  Decodes (utf8EncodeChar c ++ rest) (c :: text)
 | subpart {part rest : List UInt8} {text : List Char} :
  (∀ c, ¬ utf8EncodeChar c <+: part ++ rest) → MaximalSubpart part (part ++ rest) →
  Decodes rest text → Decodes (part ++ rest) (replacement :: text)

/-! ## Which bytes begin a character -/

variable {a b : UInt8} {bytes : List UInt8}

private theorem toNat_inj (h : a.toNat = b.toNat) : a = b := UInt8.toNat_inj.mp h

private theorem ofNat_val {n : Nat} (h : n < 0xD800 ∨ (0xDFFF < n ∧ n < 0x110000)) :
 (Char.ofNat n).val.toNat = n := by
 have hv : n.isValidChar := h
 rw [Char.ofNat, dif_pos hv]
 rfl

theorem isTail_iff : isTail b = true ↔ 0x80 ≤ b.toNat ∧ b.toNat ≤ 0xBF := by
 simp [isTail]

theorem second3_iff : second3 a b = true ↔ 0x80 ≤ b.toNat ∧ b.toNat ≤ 0xBF
 ∧ (a.toNat = 0xE0 → 0xA0 ≤ b.toNat) ∧ (a.toNat = 0xED → b.toNat ≤ 0x9F) := by
 unfold second3
 split
 · simp only [Bool.and_eq_true, decide_eq_true_eq]
   omega
 split
 · simp only [Bool.and_eq_true, decide_eq_true_eq]
   omega
 · rw [isTail_iff]
   omega

theorem second4_iff : second4 a b = true ↔ 0x80 ≤ b.toNat ∧ b.toNat ≤ 0xBF
 ∧ (a.toNat = 0xF0 → 0x90 ≤ b.toNat) ∧ (a.toNat = 0xF4 → b.toNat ≤ 0x8F) := by
 unfold second4
 split
 · simp only [Bool.and_eq_true, decide_eq_true_eq]
   omega
 split
 · simp only [Bool.and_eq_true, decide_eq_true_eq]
   omega
 · rw [isTail_iff]
   omega

/-- The shapes an encoded character takes, in numbers. -/
theorem encodeChar_shapes (c : Char) :
 (∃ a, utf8EncodeChar c = [a] ∧ a.toNat < 0x80 ∧ a.toNat = c.val.toNat)
 ∨ (∃ a b, utf8EncodeChar c = [a, b] ∧ 0xC2 ≤ a.toNat ∧ a.toNat ≤ 0xDF
  ∧ 0x80 ≤ b.toNat ∧ b.toNat ≤ 0xBF
  ∧ (a.toNat - 0xC0) * 64 + (b.toNat - 0x80) = c.val.toNat)
 ∨ (∃ a b d, utf8EncodeChar c = [a, b, d] ∧ 0xE0 ≤ a.toNat ∧ a.toNat ≤ 0xEF
  ∧ 0x80 ≤ b.toNat ∧ b.toNat ≤ 0xBF ∧ (a.toNat = 0xE0 → 0xA0 ≤ b.toNat)
  ∧ (a.toNat = 0xED → b.toNat ≤ 0x9F) ∧ 0x80 ≤ d.toNat ∧ d.toNat ≤ 0xBF
  ∧ (a.toNat - 0xE0) * 4096 + (b.toNat - 0x80) * 64 + (d.toNat - 0x80) = c.val.toNat)
 ∨ (∃ a b d e, utf8EncodeChar c = [a, b, d, e] ∧ 0xF0 ≤ a.toNat ∧ a.toNat ≤ 0xF4
  ∧ 0x80 ≤ b.toNat ∧ b.toNat ≤ 0xBF ∧ (a.toNat = 0xF0 → 0x90 ≤ b.toNat)
  ∧ (a.toNat = 0xF4 → b.toNat ≤ 0x8F) ∧ 0x80 ≤ d.toNat ∧ d.toNat ≤ 0xBF
  ∧ 0x80 ≤ e.toNat ∧ e.toNat ≤ 0xBF
  ∧ (a.toNat - 0xF0) * 262144 + (b.toNat - 0x80) * 4096 + (d.toNat - 0x80) * 64
   + (e.toNat - 0x80) = c.val.toNat) := by
 rcases encodeChar_cases c with ⟨a, h, h1, hv⟩ | ⟨a, b, h, h1, h2, hb, hv⟩
  | ⟨a, b, d, h, h1, h2, hs, hb, hd, hv⟩ | ⟨a, b, d, e, h, h1, h2, hs, hb, hd, he, hv⟩
 · exact inl ⟨a, h, h1, hv⟩
 · rw [isTail_iff] at hb
   exact inr (inl ⟨a, b, h, h1, h2, hb.1, hb.2, hv⟩)
 · rw [second3_iff] at hs
   rw [isTail_iff] at hd
   obtain ⟨hb1, hb2, hb3, hb4⟩ := hs
   exact inr (inr (inl ⟨a, b, d, h, h1, h2, hb1, hb2, hb3, hb4, hd.1, hd.2, hv⟩))
 · rw [second4_iff] at hs
   rw [isTail_iff] at hd he
   obtain ⟨hb1, hb2, hb3, hb4⟩ := hs
   exact inr (inr (inr ⟨a, b, d, e, h, h1, h2, hb1, hb2, hb3, hb4, hd.1, hd.2, he.1, he.2, hv⟩))

theorem encodeChar_one (ha : a.toNat < 0x80) : ∃ c, utf8EncodeChar c = [a] := by
 refine ⟨Char.ofNat a.toNat, ?_⟩
 have hval := @ofNat_val a.toNat (by omega)
 rcases encodeChar_shapes (Char.ofNat a.toNat) with ⟨a', h, hv⟩ | ⟨a', b', h, hv⟩
  | ⟨a', b', d', h, hv⟩ | ⟨a', b', d', e', h, hv⟩
 · rw [h, toNat_inj (by omega : a'.toNat = a.toNat)]
 all_goals omega

theorem encodeChar_two (ha : 0xC2 ≤ a.toNat ∧ a.toNat ≤ 0xDF) (hb : isTail b = true) :
 ∃ c, utf8EncodeChar c = [a, b] := by
 rw [isTail_iff] at hb
 generalize hn : (a.toNat - 0xC0) * 64 + (b.toNat - 0x80) = n
 refine ⟨Char.ofNat n, ?_⟩
 have hval := @ofNat_val n (by omega)
 rcases encodeChar_shapes (Char.ofNat n) with ⟨a', h, hv⟩ | ⟨a', b', h, hv⟩
  | ⟨a', b', d', h, hv⟩ | ⟨a', b', d', e', h, hv⟩
 · omega
 · rw [h, toNat_inj (by omega : a'.toNat = a.toNat), toNat_inj (by omega : b'.toNat = b.toNat)]
 all_goals omega

theorem encodeChar_three {d : UInt8} (ha : 0xE0 ≤ a.toNat ∧ a.toNat ≤ 0xEF)
 (hb : second3 a b = true) (hd : isTail d = true) : ∃ c, utf8EncodeChar c = [a, b, d] := by
 rw [second3_iff] at hb
 rw [isTail_iff] at hd
 generalize hn : (a.toNat - 0xE0) * 4096 + (b.toNat - 0x80) * 64 + (d.toNat - 0x80) = n
 refine ⟨Char.ofNat n, ?_⟩
 have hval := @ofNat_val n (by omega)
 rcases encodeChar_shapes (Char.ofNat n) with ⟨a', h, hv⟩ | ⟨a', b', h, hv⟩
  | ⟨a', b', d', h, hv⟩ | ⟨a', b', d', e', h, hv⟩
 · omega
 · omega
 · rw [h, toNat_inj (by omega : a'.toNat = a.toNat), toNat_inj (by omega : b'.toNat = b.toNat),
    toNat_inj (by omega : d'.toNat = d.toNat)]
 · omega

theorem encodeChar_four {d e : UInt8} (ha : 0xF0 ≤ a.toNat ∧ a.toNat ≤ 0xF4)
 (hb : second4 a b = true) (hd : isTail d = true) (he : isTail e = true) :
 ∃ c, utf8EncodeChar c = [a, b, d, e] := by
 rw [second4_iff] at hb
 rw [isTail_iff] at hd he
 generalize hn : (a.toNat - 0xF0) * 262144 + (b.toNat - 0x80) * 4096 + (d.toNat - 0x80) * 64
  + (e.toNat - 0x80) = n
 refine ⟨Char.ofNat n, ?_⟩
 have hval := @ofNat_val n (by omega)
 rcases encodeChar_shapes (Char.ofNat n) with ⟨a', h, hv⟩ | ⟨a', b', h, hv⟩
  | ⟨a', b', d', h, hv⟩ | ⟨a', b', d', e', h, hv⟩
 · omega
 · omega
 · omega
 · rw [h, toNat_inj (by omega : a'.toNat = a.toNat), toNat_inj (by omega : b'.toNat = b.toNat),
    toNat_inj (by omega : d'.toNat = d.toNat), toNat_inj (by omega : e'.toNat = e.toNat)]

/-- The fronts of encodings, by their bytes. -/
def front : List UInt8 → Bool
 | [] => true
 | [a] => a.toNat < 0x80 || (0xC2 ≤ a.toNat && a.toNat ≤ 0xF4)
 | [a, b] => (0xC2 ≤ a.toNat && a.toNat ≤ 0xDF && isTail b)
  || (0xE0 ≤ a.toNat && a.toNat ≤ 0xEF && second3 a b)
  || (0xF0 ≤ a.toNat && a.toNat ≤ 0xF4 && second4 a b)
 | [a, b, d] => (0xE0 ≤ a.toNat && a.toNat ≤ 0xEF && second3 a b && isTail d)
  || (0xF0 ≤ a.toNat && a.toNat ≤ 0xF4 && second4 a b && isTail d)
 | [a, b, d, e] => 0xF0 ≤ a.toNat && a.toNat ≤ 0xF4 && second4 a b && isTail d && isTail e
 | _ => false

private theorem begins_of {bytes more : List UInt8}
 (h : ∃ c, utf8EncodeChar c = bytes ++ more) : Begins bytes := by
 obtain ⟨c, h⟩ := h
 exact ⟨c, h ▸ prefix_append bytes more⟩

private theorem begins_three (ha : 0xE0 ≤ a.toNat ∧ a.toNat ≤ 0xEF) : Begins [a] := by
 by_cases h : a.toNat = 0xE0
 · refine @begins_of [a] [0xA0, 0x80] (encodeChar_three ha (second3_iff.mpr ?_) rfl)
   exact ⟨by decide, by decide, fun _ => by decide, fun h' => by omega⟩
 · refine @begins_of [a] [0x80, 0x80] (encodeChar_three ha (second3_iff.mpr ?_) rfl)
   exact ⟨by decide, by decide, fun h' => absurd h' h, fun _ => by decide⟩

private theorem begins_four (ha : 0xF0 ≤ a.toNat ∧ a.toNat ≤ 0xF4) : Begins [a] := by
 by_cases h : a.toNat = 0xF0
 · refine @begins_of [a] [0x90, 0x80, 0x80] (encodeChar_four ha (second4_iff.mpr ?_) rfl rfl)
   exact ⟨by decide, by decide, fun _ => by decide, fun h' => by omega⟩
 · refine @begins_of [a] [0x80, 0x80, 0x80] (encodeChar_four ha (second4_iff.mpr ?_) rfl rfl)
   exact ⟨by decide, by decide, fun h' => absurd h' h, fun _ => by decide⟩

theorem begins_of_front (h : front bytes = true) : Begins bytes := by
 match bytes with
 | [] => exact ⟨'a', nil_prefix⟩
 | [a] =>
  simp only [front, Bool.or_eq_true, Bool.and_eq_true, decide_eq_true_eq] at h
  by_cases h1 : a.toNat < 0x80
  · exact @begins_of [a] [] (encodeChar_one h1)
  by_cases h2 : a.toNat ≤ 0xDF
  · exact @begins_of [a] [0x80] (encodeChar_two ⟨by omega, h2⟩ rfl)
  by_cases h3 : a.toNat ≤ 0xEF
  · exact begins_three ⟨by omega, h3⟩
  · exact begins_four ⟨by omega, by omega⟩
 | [a, b] =>
  simp only [front, Bool.or_eq_true, Bool.and_eq_true, decide_eq_true_eq] at h
  rcases h with (⟨ha, hb⟩ | ⟨ha, hb⟩) | ⟨ha, hb⟩
  · exact @begins_of [a, b] [] (encodeChar_two ha hb)
  · exact @begins_of [a, b] [0x80] (encodeChar_three ha hb rfl)
  · exact @begins_of [a, b] [0x80, 0x80] (encodeChar_four ha hb rfl rfl)
 | [a, b, d] =>
  simp only [front, Bool.or_eq_true, Bool.and_eq_true, decide_eq_true_eq] at h
  rcases h with ⟨⟨ha, hb⟩, hd⟩ | ⟨⟨ha, hb⟩, hd⟩
  · exact @begins_of [a, b, d] [] (encodeChar_three ha hb hd)
  · exact @begins_of [a, b, d] [0x80] (encodeChar_four ha hb hd rfl)
 | [a, b, d, e] =>
  simp only [front, Bool.and_eq_true, decide_eq_true_eq] at h
  obtain ⟨⟨⟨ha, hb⟩, hd⟩, he⟩ := h
  exact @begins_of [a, b, d, e] [] (encodeChar_four ha hb hd he)
 | _ :: _ :: _ :: _ :: _ :: _ => simp [front] at h

theorem front_of_begins (h : Begins bytes) : front bytes = true := by
 obtain ⟨c, h⟩ := h
 rcases encodeChar_cases c with ⟨a, h', h1, hv⟩ | ⟨a, b, h', h1, h2, hb, hv⟩
  | ⟨a, b, d, h', h1, h2, hs, hb, hd, hv⟩ | ⟨a, b, d, e, h', h1, h2, hs, hb, hd, he, hv⟩
 all_goals
  rw [h'] at h
  simp only [prefix_cons_iff, prefix_nil] at h
 · rcases h with rfl | ⟨_, rfl, rfl⟩
   · rfl
   · simp [front, h1]
 · rcases h with rfl | ⟨_, rfl, rfl | ⟨_, rfl, rfl⟩⟩
   · rfl
   · simp [front, show 0xC2 ≤ a.toNat ∧ a.toNat ≤ 0xF4 by omega]
   · simp [front, h1, h2, hb]
 · rcases h with rfl | ⟨_, rfl, rfl | ⟨_, rfl, rfl | ⟨_, rfl, rfl⟩⟩⟩
   · rfl
   · simp [front, show 0xC2 ≤ a.toNat ∧ a.toNat ≤ 0xF4 by omega]
   · simp [front, h1, h2, hs]
   · simp [front, h1, h2, hs, hd]
 · rcases h with rfl | ⟨_, rfl, rfl | ⟨_, rfl, rfl | ⟨_, rfl, rfl | ⟨_, rfl, rfl⟩⟩⟩⟩
   · rfl
   · simp [front, show 0xC2 ≤ a.toNat ∧ a.toNat ≤ 0xF4 by omega]
   · simp [front, h1, h2, hs]
   · simp [front, h1, h2, hs, hd]
   · simp [front, h1, h2, hs, hd, he]

theorem Begins.of_front {more : List UInt8} (h : Begins more) (hfront : bytes <+: more) :
 Begins bytes := by
 obtain ⟨c, h⟩ := h
 exact ⟨c, hfront.trans h⟩

/-- A part that no next byte continues is as long as it can be. -/
theorem maximalSubpart_of {part rest : List UInt8} (hne : part ≠ [])
 (hbegins : Begins part ∨ part.length = 1)
 (hnext : ∀ b more, rest = b :: more → ¬ Begins (part ++ [b])) :
 MaximalSubpart part (part ++ rest) := by
 refine ⟨prefix_append part rest, hne, hbegins, ?_⟩
 rintro longer hlonger hlength hbegins'
 cases rest with
 | nil =>
  have := hlonger.length_le
  rw [append_nil] at this
  omega
 | cons b more =>
  refine hnext b more rfl (hbegins'.of_front ?_)
  refine prefix_of_prefix_length_le ?_ hlonger ?_
  · exact ⟨more, by simp⟩
  · rw [length_append]
    exact hlength

/-! ## What one step reads -/

private theorem no_char {rest part more : List UInt8}
 (hstep : lossyStep a rest = (replacement, more)) (heq : a :: rest = part ++ more)
 (hpart : part ≠ [0xEF, 0xBF, 0xBD]) (c : Char) : ¬ utf8EncodeChar c <+: a :: rest := by
 rintro ⟨r, hr⟩
 obtain ⟨a', bytes, hc, hstep'⟩ := lossyStep_encodeChar c r
 rw [hc, cons_append] at hr
 obtain ⟨rfl, rfl⟩ := List.cons.inj hr
 rw [hstep] at hstep'
 cases hstep'
 have hsame : part ++ more = utf8EncodeChar replacement ++ more := by
  rw [← heq, hc, cons_append]
 exact hpart (append_cancel_right hsame)

/-- What a step that finds no character reads. -/
structure Subpart (a : UInt8) (rest : List UInt8) (part : List UInt8) : Prop where
 eq : a :: rest = part ++ (lossyStep a rest).2
 replaced : (lossyStep a rest).1 = replacement
 noChar : ∀ c, ¬ utf8EncodeChar c <+: a :: rest
 maximal : MaximalSubpart part (a :: rest)

private theorem subpart_of {a : UInt8} {rest part more : List UInt8}
 (hstep : lossyStep a rest = (replacement, more)) (heq : a :: rest = part ++ more)
 (hpart : part ≠ [0xEF, 0xBF, 0xBD]) (hne : part ≠ [])
 (hbegins : front part = true ∨ part.length = 1)
 (hnext : ∀ b tail, more = b :: tail → front (part ++ [b]) = false) : Subpart a rest part where
 eq := by rw [hstep, heq]
 replaced := by rw [hstep]
 noChar := no_char hstep heq hpart
 maximal := by
  rw [heq]
  refine maximalSubpart_of hne (hbegins.imp_left begins_of_front) ?_
  intro b tail hb hbegins
  exact absurd (front_of_begins hbegins) (by simp [hnext b tail hb])

def Reads (a : UInt8) (rest : List UInt8) : Prop :=
 a :: rest = utf8EncodeChar (lossyStep a rest).1 ++ (lossyStep a rest).2
  ∨ ∃ part, Subpart a rest part

private theorem reads_char {a : UInt8} {rest bytes more : List UInt8}
 (h : ∃ c, utf8EncodeChar c = bytes) (heq : a :: rest = bytes ++ more) :
 Reads a rest := by
 obtain ⟨c, rfl⟩ := h
 obtain ⟨a', bytes, hc, hstep⟩ := lossyStep_encodeChar c more
 rw [hc, cons_append] at heq
 obtain ⟨rfl, rfl⟩ := List.cons.inj heq
 left
 rw [hstep, hc]
 rfl

private theorem reads_two (ha : 0xC2 ≤ a.toNat ∧ a.toNat ≤ 0xDF) (rest : List UInt8) :
 Reads a rest := by
 have h1 : ¬ a.toNat < 0x80 := by omega
 have h3 : ¬ 0xE0 ≤ a.toNat := by omega
 have h4 : ¬ 0xF0 ≤ a.toNat := by omega
 match rest with
 | [] =>
  exact inr ⟨[a], subpart_of (by simp [lossyStep, h1, ha]) rfl (by simp) (by simp)
   (inr rfl) (by simp)⟩
 | b :: rest =>
  cases hb : isTail b with
  | true => exact @reads_char _ _ [a, b] rest (encodeChar_two ha hb) rfl
  | false =>
   refine inr ⟨[a], @subpart_of _ _ _ (b :: rest) (by simp [lossyStep, h1, ha, hb]) rfl
    (by simp) (by simp) (inr rfl) ?_⟩
   rintro b' tail h
   obtain ⟨rfl, rfl⟩ := List.cons.inj h
   simp [front, hb, h3, h4]

private theorem reads_three (ha : 0xE0 ≤ a.toNat ∧ a.toNat ≤ 0xEF) (rest : List UInt8) :
 Reads a rest := by
 have h1 : ¬ a.toNat < 0x80 := by omega
 have h2 : ¬ a.toNat ≤ 0xDF := by omega
 have h4 : ¬ 0xF0 ≤ a.toNat := by omega
 match rest with
 | [] =>
  exact inr ⟨[a], subpart_of (by simp [lossyStep, h1, h2, ha]) rfl (by simp) (by simp)
   (inr rfl) (by simp)⟩
 | b :: rest =>
  cases hb : second3 a b with
  | false =>
   refine inr ⟨[a], @subpart_of _ _ _ (b :: rest) (by simp [lossyStep, h1, h2, ha, hb])
    rfl (by simp) (by simp) (inr rfl) ?_⟩
   rintro b' tail h
   obtain ⟨rfl, rfl⟩ := List.cons.inj h
   simp [front, hb, h2, h4]
  | true =>
   have hfront : front [a, b] = true := by simp [front, ha, hb]
   match rest with
   | [] =>
    exact inr ⟨[a, b], subpart_of (by simp [lossyStep, h1, h2, ha, hb]) rfl (by simp)
     (by simp) (inl hfront) (by simp)⟩
   | d :: rest =>
    cases hd : isTail d with
    | true => exact @reads_char _ _ [a, b, d] rest (encodeChar_three ha hb hd) rfl
    | false =>
     refine inr ⟨[a, b], @subpart_of _ _ _ (d :: rest)
      (by simp [lossyStep, h1, h2, ha, hb, hd]) rfl (by simp) (by simp)
      (inl hfront) ?_⟩
     rintro d' tail h
     obtain ⟨rfl, rfl⟩ := List.cons.inj h
     simp [front, hd]

private theorem reads_four (ha : 0xF0 ≤ a.toNat ∧ a.toNat ≤ 0xF4) (rest : List UInt8) :
 Reads a rest := by
 have h1 : ¬ a.toNat < 0x80 := by omega
 have h2 : ¬ a.toNat ≤ 0xDF := by omega
 have h3 : ¬ a.toNat ≤ 0xEF := by omega
 match rest with
 | [] =>
  exact inr ⟨[a], subpart_of (by simp [lossyStep, h1, h2, h3, ha]) rfl (by simp) (by simp)
   (inr rfl) (by simp)⟩
 | b :: rest =>
  cases hb : second4 a b with
  | false =>
   refine inr ⟨[a], @subpart_of _ _ _ (b :: rest)
    (by simp [lossyStep, h1, h2, h3, ha, hb]) rfl (by simp) (by simp) (inr rfl) ?_⟩
   rintro b' tail h
   obtain ⟨rfl, rfl⟩ := List.cons.inj h
   simp [front, hb, h2, h3]
  | true =>
   have hfront : front [a, b] = true := by simp [front, ha, hb]
   match rest with
   | [] =>
    exact inr ⟨[a, b], subpart_of (by simp [lossyStep, h1, h2, h3, ha, hb]) rfl
     (by simp) (by simp) (inl hfront) (by simp)⟩
   | d :: rest =>
    cases hd : isTail d with
    | false =>
     refine inr ⟨[a, b], @subpart_of _ _ _ (d :: rest)
      (by simp [lossyStep, h1, h2, h3, ha, hb, hd]) rfl (by simp) (by simp)
      (inl hfront) ?_⟩
     rintro d' tail h
     obtain ⟨rfl, rfl⟩ := List.cons.inj h
     simp [front, hd]
    | true =>
     have hfront : front [a, b, d] = true := by simp [front, ha, hb, hd]
     have hpart : [a, b, d] ≠ [0xEF, 0xBF, 0xBD] := by
      intro h
      obtain rfl := (List.cons.inj h).1
      exact absurd ha.1 (by decide)
     match rest with
     | [] =>
      exact inr ⟨[a, b, d], subpart_of
       (by simp [lossyStep, h1, h2, h3, ha, hb, hd]) rfl hpart (by simp)
       (inl hfront) (by simp)⟩
     | e :: rest =>
      cases he : isTail e with
      | true =>
       exact @reads_char _ _ [a, b, d, e] rest (encodeChar_four ha hb hd he) rfl
      | false =>
       refine inr ⟨[a, b, d], @subpart_of _ _ _ (e :: rest)
        (by simp [lossyStep, h1, h2, h3, ha, hb, hd, he]) rfl hpart (by simp)
        (inl hfront) ?_⟩
       rintro e' tail h
       obtain ⟨rfl, rfl⟩ := List.cons.inj h
       simp [front, he]

/-- **One step reads a character, or a maximal subpart** where no character stands. -/
theorem lossyStep_reads (a : UInt8) (rest : List UInt8) : Reads a rest := by
 by_cases h1 : a.toNat < 0x80
 · exact @reads_char _ _ [a] rest (encodeChar_one h1) rfl
 by_cases h2 : 0xC2 ≤ a.toNat ∧ a.toNat ≤ 0xDF
 · exact reads_two h2 rest
 by_cases h3 : 0xE0 ≤ a.toNat ∧ a.toNat ≤ 0xEF
 · exact reads_three h3 rest
 by_cases h4 : 0xF0 ≤ a.toNat ∧ a.toNat ≤ 0xF4
 · exact reads_four h4 rest
 · -- no character's encoding begins with such a byte
   refine inr ⟨[a], @subpart_of _ _ _ rest (by simp [lossyStep, h1, h2, h3, h4]) rfl
    (by simp) (by simp) (inr rfl) ?_⟩
   rintro b tail -
   have h2' : ¬ (0xC2 ≤ a.toNat ∧ a.toNat ≤ 0xDF ∧ isTail b = true) := fun h => h2 ⟨h.1, h.2.1⟩
   have h3' : ¬ (0xE0 ≤ a.toNat ∧ a.toNat ≤ 0xEF ∧ second3 a b = true) := fun h => h3 ⟨h.1, h.2.1⟩
   have h4' : ¬ (0xF0 ≤ a.toNat ∧ a.toNat ≤ 0xF4 ∧ second4 a b = true) := fun h => h4 ⟨h.1, h.2.1⟩
   rw [← Bool.not_eq_true]
   simp only [cons_append, nil_append, front, Bool.or_eq_true, Bool.and_eq_true,
    decide_eq_true_eq, and_assoc]
   exact fun h => h.elim (fun h => h.elim h2' h3') h4'

/-! ## The whole decoding -/

theorem decodes_lossy (bytes : List UInt8) : Decodes bytes (lossy bytes) := by
 induction bytes using lossy.induct with
 | case1 => rw [lossy_nil]; exact .nil
 | case2 a rest ih =>
  rw [lossy_cons]
  rcases lossyStep_reads a rest with heq | ⟨part, h⟩
  · rw [heq]
    exact .char ih
  · rw [h.replaced, h.eq]
    have hno := h.noChar
    have hmax := h.maximal
    rw [h.eq] at hno hmax
    exact .subpart hno hmax ih

theorem MaximalSubpart.unique {p q : List UInt8} (hp : MaximalSubpart p bytes)
 (hq : MaximalSubpart q bytes) : p = q := by
 have hle : ∀ {p q : List UInt8}, MaximalSubpart p bytes → MaximalSubpart q bytes →
  p.length ≤ q.length := by
  intro p q hp hq
  by_contra hlt
  rcases hp.begins with hbegins | hone
  · exact hq.maximal p hp.front (by omega) hbegins
  · have := length_pos_iff.mpr hq.nonempty
    omega
 exact (prefix_of_prefix_length_le hp.front hq.front (hle hp hq)).eq_of_length
  (Nat.le_antisymm (hle hp hq) (hle hq hp))

/-- **Bytes decode to one text**, and `lossy` computes it. -/
theorem decodes_iff {text : List Char} : Decodes bytes text ↔ text = lossy bytes := by
 constructor
 · intro h
   induction h with
   | nil => rw [lossy_nil]
   | @char c rest text _ ih =>
    have := lossy_encode_append [c] rest
    rw [encode_cons, encode_nil, append_nil] at this
    rw [this, ih]
    rfl
   | @subpart part rest text hno hmax _ ih =>
    obtain ⟨a, part, rfl⟩ := exists_cons_of_ne_nil hmax.nonempty
    rw [cons_append, lossy_cons]
    rcases lossyStep_reads a (part ++ rest) with heq | ⟨other, h⟩
    · exact absurd ⟨_, heq.symm⟩ (hno _)
    · have hsame := hmax.unique h.maximal
      have heq := h.eq
      rw [← hsame, cons_append] at heq
      rw [h.replaced, ih, ← append_cancel_left (List.cons.inj heq).2]
 · rintro rfl
   exact decodes_lossy bytes

end Utf8
