import Bake.Lib.Utf8
import Mathlib.Algebra.GroupWithZero.Nat

/-!
# Lossy UTF-8 decoding of a stream

Bytes that come in chunks. What a chunk's end may still continue is kept for the next
one, and everything before it is decoded as it would be in one piece: `drain_append` says
so, and `lossy_drain` what the end of the stream makes of what is left.
-/

namespace Utf8

open List

/-- The bytes are the front of a character, and end before it does. -/
def incomplete (a : UInt8) (rest : List UInt8) : Bool :=
 if 0xC2 ≤ a.toNat ∧ a.toNat ≤ 0xDF then rest = []
 else if 0xE0 ≤ a.toNat ∧ a.toNat ≤ 0xEF then
  match rest with
  | [] => true
  | [b] => second3 a b
  | _ => false
 else if 0xF0 ≤ a.toNat ∧ a.toNat ≤ 0xF4 then
  match rest with
  | [] => true
  | [b] => second4 a b
  | [b, c] => second4 a b && isTail c
  | _ => false
 else false

/-- What a chunk decodes to, and the bytes it leaves for the next one. -/
def drain : List UInt8 → List Char × List UInt8
 | [] => ([], [])
 | a :: rest =>
  if incomplete a rest then ([], a :: rest)
  else
   ((lossyStep a rest).1 :: (drain (lossyStep a rest).2).1, (drain (lossyStep a rest).2).2)
termination_by bytes => bytes.length
decreasing_by
 have := lossyStep_length a rest
 simp only [length_cons]
 omega

@[simp] theorem drain_nil : drain [] = ([], []) := by simp [drain]

variable {a : UInt8} {rest : List UInt8}

theorem drain_incomplete (h : incomplete a rest = true) : drain (a :: rest) = ([], a :: rest) := by
 simp [drain, h]

theorem drain_cons (h : incomplete a rest = false) : drain (a :: rest)
  = ((lossyStep a rest).1 :: (drain (lossyStep a rest).2).1, (drain (lossyStep a rest).2).2) := by
 rw [drain]
 simp [h]

/-- A character that does not break off at the end is the same before more bytes. -/
theorem lossyStep_append (h : incomplete a rest = false) (more : List UInt8) :
 lossyStep a (rest ++ more) = ((lossyStep a rest).1, (lossyStep a rest).2 ++ more)
  ∧ incomplete a (rest ++ more) = false := by
 unfold incomplete at h ⊢
 unfold lossyStep
 by_cases h2 : 0xC2 ≤ a.toNat ∧ a.toNat ≤ 0xDF
 · simp only [h2, and_self, if_true, decide_eq_false_iff_not] at h ⊢
   cases rest with
   | nil => exact absurd rfl h
   | cons b rest =>
    have h1 : ¬ a.toNat < 0x80 := by omega
    simp only [cons_append, if_neg h1]
    constructor
    · split <;> simp
    · simp
 rw [if_neg h2] at h ⊢
 by_cases h3 : 0xE0 ≤ a.toNat ∧ a.toNat ≤ 0xEF
 · rw [if_pos h3] at h ⊢
   rw [if_neg (by omega), if_neg h2, if_pos h3, if_neg (by omega), if_neg h2, if_pos h3]
   match rest with
   | [] => simp at h
   | [b] =>
    have hb : second3 a b = false := h
    cases more <;> simp [hb]
   | b :: c :: rest =>
    simp only [cons_append]
    constructor
    · split
      · split <;> simp
      · simp
    · trivial
 rw [if_neg h3] at h ⊢
 by_cases h4 : 0xF0 ≤ a.toNat ∧ a.toNat ≤ 0xF4
 · rw [if_pos h4] at h ⊢
   rw [if_neg (by omega), if_neg h2, if_neg h3, if_pos h4, if_neg (by omega), if_neg h2,
    if_neg h3, if_pos h4]
   match rest with
   | [] => simp at h
   | [b] =>
    have hb : second4 a b = false := h
    match more with
    | [] | [c] | c :: d :: more => simp [hb]
   | [b, c] =>
    have hbc : (second4 a b && isTail c) = false := h
    cases hb : second4 a b with
    | false => cases more <;> simp [hb]
    | true =>
     have hc : isTail c = false := by simpa [hb] using hbc
     cases more <;> simp [hb, hc]
   | b :: c :: d :: rest =>
    simp only [cons_append]
    constructor
    · split
      · split
        · split <;> simp
        · simp
      · simp
    · trivial
 · rw [if_neg h4] at h ⊢
   simp only [if_neg h2, if_neg h3, if_neg h4, and_true]
   split <;> rfl

/-- A character that breaks off at the end reads as U+FFFD. -/
theorem lossyStep_incomplete (h : incomplete a rest = true) :
 lossyStep a rest = (replacement, []) := by
 unfold incomplete at h
 unfold lossyStep
 by_cases h2 : 0xC2 ≤ a.toNat ∧ a.toNat ≤ 0xDF
 · rw [if_pos h2] at h
   rw [if_neg (by omega), if_pos h2, of_decide_eq_true h]
 rw [if_neg h2] at h
 by_cases h3 : 0xE0 ≤ a.toNat ∧ a.toNat ≤ 0xEF
 · rw [if_pos h3] at h
   rw [if_neg (by omega), if_neg h2, if_pos h3]
   match rest with
   | [] => rfl
   | [b] =>
    have hb : second3 a b = true := h
    simp [hb]
   | b :: c :: rest => simp at h
 rw [if_neg h3] at h
 by_cases h4 : 0xF0 ≤ a.toNat ∧ a.toNat ≤ 0xF4
 · rw [if_pos h4] at h
   rw [if_neg (by omega), if_neg h2, if_neg h3, if_pos h4]
   match rest with
   | [] => rfl
   | [b] =>
    have hb : second4 a b = true := h
    simp [hb]
   | [b, c] =>
    have hbc : (second4 a b && isTail c) = true := h
    rw [Bool.and_eq_true] at hbc
    simp [hbc.1, hbc.2]
   | b :: c :: d :: rest => simp at h
 · rw [if_neg h4] at h
   simp at h

/-- **A chunk may end anywhere**: what it leaves is decoded in front of the next one. -/
theorem drain_append (bytes more : List UInt8) :
 drain (bytes ++ more) = ((drain bytes).1 ++ (drain ((drain bytes).2 ++ more)).1,
  (drain ((drain bytes).2 ++ more)).2) := by
 fun_induction drain bytes with
 | case1 => simp
 | case2 a rest h => rfl
 | case3 a rest h ih =>
  obtain ⟨happend, hinc⟩ := lossyStep_append (Bool.not_eq_true _ ▸ h) more
  rw [cons_append, drain_cons hinc, happend, ih]
  rfl

theorem lossy_drain (bytes : List UInt8) :
 lossy bytes = (drain bytes).1 ++ (if (drain bytes).2 = [] then [] else [replacement]) := by
 fun_induction drain bytes with
 | case1 => simp
 | case2 a rest h => simp [lossy_cons, lossyStep_incomplete h]
 | case3 a rest h ih =>
  rw [lossy_cons, ih]
  rfl

/-! ## Where a text may be cut -/

theorem drain_left (bytes : List UInt8) : (drain bytes).2 <:+ bytes ∧ ((drain bytes).2 = []
  ∨ ∃ a rest, (drain bytes).2 = a :: rest ∧ incomplete a rest = true) := by
 fun_induction drain bytes with
 | case1 => exact ⟨suffix_refl _, .inl rfl⟩
 | case2 a rest h => exact ⟨suffix_refl _, .inr ⟨a, rest, rfl, h⟩⟩
 | case3 a rest h ih =>
  exact ⟨(ih.1.trans (lossyStep_ascii a rest).1).trans (suffix_cons ..), ih.2⟩

/-- The front of a character: its lead byte, and fewer continuation bytes than that takes. -/
theorem incomplete_shape (h : incomplete a rest = true) : (∀ b ∈ rest, isTail b = true)
 ∧ (rest.length = 0 ∧ 0xC2 ≤ a.toNat ∧ a.toNat ≤ 0xDF
  ∨ rest.length ≤ 1 ∧ 0xE0 ≤ a.toNat ∧ a.toNat ≤ 0xEF
  ∨ rest.length ≤ 2 ∧ 0xF0 ≤ a.toNat ∧ a.toNat ≤ 0xF4) := by
 have h3 : ∀ b, second3 a b = true → isTail b = true := fun b hb => by
  simp only [second3, isTail] at *
  grind
 have h4 : ∀ b, second4 a b = true → isTail b = true := fun b hb => by
  simp only [second4, isTail] at *
  grind
 unfold incomplete at h
 split at h
 next hlead =>
  obtain rfl : rest = [] := of_decide_eq_true h
  exact ⟨by simp, .inl ⟨rfl, hlead⟩⟩
 split at h
 next hlead =>
  rcases rest with _ | ⟨b, _ | ⟨c, _⟩⟩
  · exact ⟨by simp, .inr (.inl ⟨by simp, hlead⟩)⟩
  · exact ⟨by simpa using h3 b h, .inr (.inl ⟨by simp, hlead⟩)⟩
  · simp at h
 · split at h
   next hlead =>
    rcases rest with _ | ⟨b, _ | ⟨c, _ | ⟨d, _⟩⟩⟩
    · exact ⟨by simp, .inr (.inr ⟨by simp, hlead⟩)⟩
    · exact ⟨by simpa using h4 b h, .inr (.inr ⟨by simp, hlead⟩)⟩
    · obtain ⟨hb, hc⟩ := Bool.and_eq_true_iff.mp (show (second4 a b && isTail c) = true from h)
      exact ⟨by simpa using ⟨h4 b hb, hc⟩, .inr (.inr ⟨by simp, hlead⟩)⟩
    · simp at h
   · simp at h

/-- A byte that continues no character breaks off the one before it. -/
theorem lossyStep_broken (h : incomplete a rest = true) {b : UInt8} (hb : isTail b = false)
 (more : List UInt8) : lossyStep a (rest ++ b :: more) = (replacement, b :: more) := by
 have h3 : second3 a b = false := by
  simp only [second3, isTail] at *
  grind
 have h4 : second4 a b = false := by
  simp only [second4, isTail] at *
  grind
 unfold incomplete at h
 unfold lossyStep
 split at h
 next hlead =>
  obtain rfl : rest = [] := of_decide_eq_true h
  rw [if_neg (by omega), if_pos hlead]
  simp [hb]
 next h2 =>
  split at h
  next hlead =>
   rw [if_neg (by omega), if_neg h2, if_pos hlead]
   rcases rest with _ | ⟨c, _ | ⟨d, _⟩⟩
   · simp [h3]
   · simp [show second3 a c = true from h, hb]
   · simp at h
  next hn3 =>
   split at h
   next hlead =>
    rw [if_neg (by omega), if_neg h2, if_neg hn3, if_pos hlead]
    rcases rest with _ | ⟨c, _ | ⟨d, _ | ⟨e, _⟩⟩⟩
    · simp [h4]
    · simp [show second4 a c = true from h, hb]
    · obtain ⟨hc, hd⟩ := Bool.and_eq_true_iff.mp (show (second4 a c && isTail d) = true from h)
      simp [hc, hd, hb]
    · simp at h
   · simp at h

/-- **A text may be cut** where no character is left unfinished, and before a byte that
continues none. -/
theorem lossy_append {bytes more : List UInt8}
 (h : (drain bytes).2 = [] ∨ ∀ b, more.head? = some b → isTail b = false) :
 lossy (bytes ++ more) = lossy bytes ++ lossy more := by
 rw [lossy_drain (bytes ++ more), drain_append, append_assoc, ← lossy_drain, lossy_drain bytes]
 rcases (drain_left bytes).2 with hnil | ⟨a, rest, hleft, hinc⟩
 · rw [hnil, if_pos rfl, append_nil, nil_append]
 · rw [hleft, if_neg (by simp), append_assoc]
   cases more with
   | nil =>
    rw [append_nil, lossy_cons, lossyStep_incomplete hinc]
    rfl
   | cons b more =>
    have hb := (h.resolve_left (by rw [hleft]; simp)) b rfl
    rw [cons_append, lossy_cons, lossyStep_broken hinc hb]
    rfl

end Utf8
