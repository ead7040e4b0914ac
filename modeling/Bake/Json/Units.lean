import Mathlib.Data.List.Chain
import Bake.Json.Tokens

/-!
# Strings read back

The units a string is read as are written so that they read back: a lone surrogate is
escaped, and no escaped high surrogate stands before an escaped low one, because the
reader would have taken the two as one character.
-/

open List

namespace Bake.Json

/-- Two units that would read as one character. -/
def StrUnit.Pair (u v : StrUnit) : Prop :=
 ∃ high low, u = .lone high ∧ high < 0xDC00 ∧ v = .lone low ∧ 0xDC00 ≤ low

def UnitsOk (units : List StrUnit) : Prop :=
 (∀ n, .lone n ∈ units → isSurrogate n = true) ∧ units.IsChain fun u v => ¬u.Pair v

theorem UnitsOk.nil : UnitsOk [] := ⟨fun n h => absurd h (by simp), .nil⟩

variable {u : StrUnit}

theorem UnitsOk.cons {units : List StrUnit} (h : UnitsOk units)
 (hu : ∀ n, u = .lone n → isSurrogate n = true) (hp : ∀ v ∈ units.head?, ¬u.Pair v) :
 UnitsOk (u :: units) := by
 refine ⟨fun n hn => ?_, isChain_cons.mpr ⟨hp, h.2⟩⟩
 rcases mem_cons.mp hn with he | hn
 · exact hu n he.symm
 · exact h.1 n hn

variable {units : List StrUnit} {t r : List Char}

theorem UnitsOk.tail (h : UnitsOk (u :: units)) : UnitsOk units :=
 ⟨fun n hn => h.1 n (mem_cons_of_mem _ hn), (isChain_cons.mp h.2).2⟩

theorem unitsOk_text (cs : List Char) : UnitsOk (cs.map StrUnit.text) := by
 induction cs with
 | nil => exact .nil
 | cons c cs ih =>
  refine ih.cons (fun n hn => absurd hn (by simp)) ?_
  rintro v - ⟨n, m, hn, -⟩
  simp at hn

/-! ## Reading -/

theorem stringUnits_escape {rest : List Char} (h : escape t = some (u, rest)) :
 stringUnits ('\\' :: t) = (stringUnits rest).map fun (us, r) => (u :: us, r) := by
 rw [stringUnits]
 split
 next hn =>
  rw [h] at hn
  simp at hn
 next hs =>
  rw [h] at hs
  cases hs
  rfl

theorem stringUnits_plain {c : Char} (hq : c ≠ '"') (hb : c ≠ '\\') (hge : 0x20 ≤ c.toNat) :
 stringUnits (c :: t) = (stringUnits t).map fun (us, r) => (.text c :: us, r) := by
 rw [stringUnits, if_neg (by omega)]
 · exact hq
 · exact hb

variable {n : Nat}

/-- A unit left lone is a surrogate, and no low surrogate's escape follows a high one. -/
theorem codePoint_lone {unit : Nat} {rest after : List Char}
 (h : codePoint unit rest = (.lone n, after)) : unit = n ∧ after = rest ∧ isSurrogate n = true
  ∧ (n < 0xDC00 → ∀ low m t, rest = '\\' :: 'u' :: low → hex4 low = some (m, t) →
   ¬(0xDC00 ≤ m ∧ m < 0xE000)) := by
 have hlone : ∀ {rest : List Char}, (loneUnit unit, rest) = (StrUnit.lone n, after) →
  unit = n ∧ after = rest ∧ isSurrogate n = true := by
  intro rest h
  obtain ⟨hu, hr⟩ := Prod.mk.inj h
  unfold loneUnit at hu
  split at hu
  next hs =>
   injection hu with hu
   exact ⟨hu, hr.symm, hu ▸ hs⟩
  · simp at hu
 unfold codePoint at h
 split at h
 · split at h
   next low =>
    split at h
    next lowUnit t hhex =>
     split at h
     · exact absurd (Prod.mk.inj h).1 (by simp)
     next hlow =>
      obtain ⟨hu, hr, hs⟩ := hlone h
      refine ⟨hu, hr, hs, fun _ low' m t' he hm => ?_⟩
      obtain rfl : low = low' := by simpa using he
      rw [hhex] at hm
      obtain ⟨rfl, -⟩ := Prod.mk.inj (Option.some.inj hm)
      exact hlow
    next hhex =>
     obtain ⟨hu, hr, hs⟩ := hlone h
     refine ⟨hu, hr, hs, fun _ low' m t' he hm => ?_⟩
     obtain rfl : low = low' := by simpa using he
     rw [hhex] at hm
     simp at hm
   next hno =>
    obtain ⟨hu, hr, hs⟩ := hlone h
    exact ⟨hu, hr, hs, fun _ low m t he _ => absurd he (hno low)⟩
 next hrange =>
  obtain ⟨hu, hr, hs⟩ := hlone h
  refine ⟨hu, hr, hs, fun hlt => ?_⟩
  simp only [isSurrogate, Bool.and_eq_true, decide_eq_true_eq] at hs
  exact absurd ⟨hu ▸ hs.1, hu ▸ hlt⟩ hrange

theorem escape_lone {after : List Char} (h : escape t = some (.lone n, after)) :
 ∃ hex, t = 'u' :: hex ∧ hex4 hex = some (n, after) ∧ isSurrogate n = true
  ∧ (n < 0xDC00 → ∀ low m rest, after = '\\' :: 'u' :: low → hex4 low = some (m, rest) →
   ¬(0xDC00 ≤ m ∧ m < 0xE000)) := by
 unfold escape at h
 split at h
 case h_9 hex =>
  obtain ⟨⟨unit, rest⟩, hhex, hcode⟩ := Option.map_eq_some_iff.mp h
  obtain ⟨rfl, rfl, hs, hlow⟩ := codePoint_lone hcode
  exact ⟨hex, rfl, hhex, hs, hlow⟩
 all_goals simp at h

/-- A string begins with its closing quote, an escape, or a plain character. -/
theorem stringUnits_cases {us : List StrUnit} (h : stringUnits t = some (us, r)) :
 (us = [] ∧ t = '"' :: r)
  ∨ (∃ u us' rest rest', us = u :: us' ∧ t = '\\' :: rest ∧ escape rest = some (u, rest')
   ∧ stringUnits rest' = some (us', r))
  ∨ ∃ c us' rest, us = .text c :: us' ∧ t = c :: rest ∧ stringUnits rest = some (us', r) := by
 cases t with
 | nil => simp [stringUnits] at h
 | cons c t =>
  by_cases hq : c = '"'
  · subst hq
    rw [stringUnits] at h
    injection h with h
    cases h
    exact .inl ⟨rfl, rfl⟩
  by_cases hb : c = '\\'
  · subst hb
    cases he : escape t with
    | none =>
     rw [stringUnits] at h
     split at h
     · simp at h
     next hs =>
      rw [he] at hs
      simp at hs
    | some e =>
     obtain ⟨u, rest⟩ := e
     rw [stringUnits_escape he] at h
     obtain ⟨⟨us', r'⟩, hr, heq⟩ := Option.map_eq_some_iff.mp h
     cases heq
     exact .inr (.inl ⟨u, us', t, rest, rfl, rfl, he, hr⟩)
  by_cases hlt : c.toNat < 0x20
  · rw [stringUnits, if_pos hlt] at h
    · simp at h
    · exact hq
    · exact hb
  · rw [stringUnits_plain hq hb (by omega)] at h
    obtain ⟨⟨us', r'⟩, hr, heq⟩ := Option.map_eq_some_iff.mp h
    cases heq
    exact .inr (.inr ⟨c, us', t, rfl, rfl, hr⟩)

/-- **The units a string is read as** are surrogates where lone, and no two pair. -/
theorem unitsOk_of_stringUnits {us : List StrUnit} (h : stringUnits t = some (us, r)) :
 UnitsOk us := by
 induction us generalizing t with
 | nil => exact .nil
 | cons u us ih =>
  rcases stringUnits_cases h with ⟨hn, -⟩ | ⟨u', us', rest, rest', he, -, hesc, hrest⟩
   | ⟨c, us', rest, he, -, hrest⟩
  · simp at hn
  · obtain ⟨rfl, rfl⟩ := List.cons.inj he
    refine (ih hrest).cons (fun n hn => ?_) fun v hv => ?_
    · obtain ⟨-, -, -, hs, -⟩ := escape_lone (hn ▸ hesc)
      exact hs
    rintro ⟨high, low, rfl, hhigh, rfl, hlow⟩
    obtain ⟨-, -, -, -, hno⟩ := escape_lone hesc
    -- the next unit is lone too, so an escape of it stands there
    obtain ⟨us'', rfl⟩ : ∃ us'', us = .lone low :: us'' := by
     cases us with
     | nil => simp at hv
     | cons w us'' => exact ⟨us'', by rw [Option.some.inj hv]⟩
    rcases stringUnits_cases hrest with ⟨hn, -⟩ | ⟨w, ws, next, next', hw, ht, hesc', -⟩
     | ⟨c, ws, next, hw, -, -⟩
    · simp at hn
    · obtain ⟨rfl, -⟩ := List.cons.inj hw
      obtain ⟨hex, hx, hhex, hs, -⟩ := escape_lone hesc'
      simp only [isSurrogate, Bool.and_eq_true, decide_eq_true_eq] at hs
      exact hno hhigh hex low next' (by rw [ht, hx]) hhex ⟨hlow, hs.2⟩
    · exact absurd (List.cons.inj hw).1 (by simp)
  · obtain ⟨rfl, rfl⟩ := List.cons.inj he
    refine (ih hrest).cons (fun n hn => absurd hn (by simp)) fun v _ => ?_
    rintro ⟨high, low, hhigh, -⟩
    simp at hhigh

/-! ## Writing -/

theorem hexValue_hexDigit (h : n < 16) : hexValue (hexDigit n) = n := by
 have : ∀ n : Fin 16, hexValue (hexDigit n) = n := by decide
 exact this ⟨n, h⟩

theorem hex4_unicodeEscape (h : n < 0x10000) (t : List Char) :
 hex4 ((unicodeEscape n).drop 2 ++ t) = some (n, t) := by
 have hd : ∀ k, isHexDigit (hexDigit (k % 16)) = true := fun k =>
  isHexDigit_hexDigit (Nat.mod_lt _ (by omega))
 have hv : ∀ k, hexValue (hexDigit (k % 16)) = k % 16 := fun k =>
  hexValue_hexDigit (Nat.mod_lt _ (by omega))
 simp only [unicodeEscape, drop_succ_cons, drop_zero, cons_append, nil_append,
  hex4, hd, Bool.and_self, if_true, hv, Option.some.injEq, Prod.mk.injEq, and_true]
 omega

/-- How a character is written: behind a backslash, as an escape of its code, or as it
is. -/
theorem writeChar_cases (c : Char) :
 (∃ x, x ≠ 'u' ∧ writeChar c = ['\\', x] ∧ ∀ t, escape (x :: t) = some (.text c, t))
  ∨ (writeChar c = unicodeEscape c.toNat ∧ c.toNat < 0x20)
  ∨ (writeChar c = [c] ∧ c ≠ '"' ∧ c ≠ '\\' ∧ 0x20 ≤ c.toNat) := by
 unfold writeChar
 split
 next h =>
  exact .inl ⟨'"', by decide, rfl, fun t => by rw [h]; rfl⟩
 rename_i hq
 split
 next h =>
  exact .inl ⟨'\\', by decide, rfl, fun t => by rw [h]; rfl⟩
 rename_i hb
 split
 next h =>
  exact .inl ⟨'b', by decide, rfl, fun t => by rw [h]; rfl⟩
 split
 next h =>
  exact .inl ⟨'f', by decide, rfl, fun t => by rw [h]; rfl⟩
 split
 next h =>
  exact .inl ⟨'n', by decide, rfl, fun t => by rw [h]; rfl⟩
 split
 next h =>
  exact .inl ⟨'r', by decide, rfl, fun t => by rw [h]; rfl⟩
 split
 next h =>
  exact .inl ⟨'t', by decide, rfl, fun t => by rw [h]; rfl⟩
 split
 next h =>
  exact .inr (.inl ⟨rfl, h⟩)
 next h =>
  exact .inr (.inr ⟨rfl, hq, hb, by omega⟩)

/-- A written string that goes on with a `\u` escape of a low surrogate begins with that
unit. -/
theorem write_low (h : UnitsOk units) {low : List Char} {m : Nat}
 (he : units.flatMap StrUnit.write ++ '"' :: r = '\\' :: 'u' :: low) (hm : hex4 low = some (m, t))
 (hlow : 0xDC00 ≤ m) : units.head? = some (.lone m) := by
 have hunicode : ∀ {n : Nat} {rest : List Char}, n < 0x10000 →
  unicodeEscape n ++ rest = '\\' :: 'u' :: low → n = m := by
  intro n rest hn hw
  have hdrop : low = (unicodeEscape n).drop 2 ++ rest := by
   injection hw with _ hw
   injection hw with _ hw
   exact hw.symm
  rw [hdrop, hex4_unicodeEscape hn] at hm
  exact (Prod.mk.inj (Option.some.inj hm)).1
 cases units with
 | nil => simp at he
 | cons u units =>
  rw [flatMap_cons, append_assoc] at he
  cases u with
  | lone n =>
   have hs := h.1 n (mem_cons_self ..)
   simp only [isSurrogate, Bool.and_eq_true, decide_eq_true_eq] at hs
   rw [head?_cons, hunicode (by omega) he]
  | text c =>
   rw [StrUnit.write] at he
   rcases writeChar_cases c with ⟨x, hx, hw, -⟩ | ⟨hw, hlt⟩ | ⟨hw, -, hb, -⟩
   · rw [hw] at he
     injection he with _ he
     injection he with he _
     exact absurd he hx
   · rw [hw] at he
     have := hunicode (by omega) he
     omega
   · rw [hw] at he
     injection he with he _
     exact absurd he hb

/-- **Units that are well formed are written as they read.** -/
theorem stringUnits_write (h : UnitsOk units) (r : List Char) :
 stringUnits (units.flatMap StrUnit.write ++ '"' :: r) = some (units, r) := by
 induction units with
 | nil => rw [flatMap_nil, nil_append, stringUnits]
 | cons u units ih =>
  have ih := ih h.tail
  rw [flatMap_cons, append_assoc]
  generalize hrest : units.flatMap StrUnit.write ++ '"' :: r = rest at ih
  have hescape : ∀ {n : Nat} {v : StrUnit}, n < 0x10000 → codePoint n rest = (v, rest) →
   stringUnits (unicodeEscape n ++ rest) = some (v :: units, r) := by
   intro n v hn hc
   have hesc : escape ((unicodeEscape n).tail ++ rest) = some (v, rest) := by
    show (hex4 ((unicodeEscape n).drop 2 ++ rest)).map _ = _
    rw [hex4_unicodeEscape hn, Option.map_some]
    exact congrArg some hc
   show stringUnits ('\\' :: ((unicodeEscape n).tail ++ rest)) = _
   rw [stringUnits_escape hesc, ih]
   rfl
  cases u with
  | lone n =>
   have hs := h.1 n (mem_cons_self ..)
   have hrange := hs
   simp only [isSurrogate, Bool.and_eq_true, decide_eq_true_eq] at hrange
   have hlone : loneUnit n = .lone n := by rw [loneUnit, if_pos hs]
   refine hescape (by omega) ?_
   unfold codePoint
   split
   next hhigh =>
    split
    next low =>
     split
     next m t hm =>
      split
      next hlow =>
       -- the next unit would be the low half of a pair
       have hhead := write_low h.tail hrest hm hlow.1
       exact absurd ⟨n, m, rfl, hhigh.2, rfl, hlow.1⟩ ((isChain_cons.mp h.2).1 _ hhead)
      · rw [hlone]
     · rw [hlone]
    · rw [hlone]
   · rw [hlone]
  | text c =>
   rw [StrUnit.write]
   rcases writeChar_cases c with ⟨x, -, hw, hesc⟩ | ⟨hw, hlt⟩ | ⟨hw, hq, hb, hge⟩
   · rw [hw]
     show stringUnits ('\\' :: x :: rest) = _
     rw [stringUnits_escape (hesc rest), ih]
     rfl
   · rw [hw]
     refine hescape (by omega) ?_
     have hs : isSurrogate c.toNat = false := by
      simp only [isSurrogate, Bool.and_eq_false_iff, decide_eq_false_iff_not]
      omega
     have hchar : loneUnit c.toNat = .text c := by
      rw [loneUnit, if_neg (by simp [hs]), Char.ofNat_toNat]
     unfold codePoint
     rw [if_neg (by omega), hchar]
   · rw [hw]
     show stringUnits (c :: rest) = _
     rw [stringUnits_plain hq hb hge, ih]
     rfl

end Bake.Json
