import Bake.Json.Grammar

/-!
# Tokens: what the reader takes is what the grammar derives

Each token is related to the grammar both ways. Soundness: what the cursor moved
over is derivable. Completeness: a derivable token is read whole. Only a number
looks at the character after it, so only there does completeness ask what
follows.
-/

open List Option

namespace Bake.Json

/-! ## Whitespace -/

theorem skipWhitespace_split (t : List Char) : ∃ a, Ws a ∧ t = a ++ skipWhitespace t := by
 refine ⟨t.takeWhile isJsonWs, ?_, (takeWhile_append_dropWhile ..).symm⟩
 intro c hc
 exact all_eq_true.mp all_takeWhile c hc

theorem skipWhitespace_append {a : List Char} (ha : Ws a) (t : List Char) :
 skipWhitespace (a ++ t) = skipWhitespace t := by
 induction a with
 | nil => rfl
 | cons c a ih =>
  rw [cons_append, skipWhitespace, dropWhile_cons_of_pos (ha c (by simp))]
  exact ih (fun x hx => ha x (mem_cons_of_mem _ hx))

theorem skipWhitespace_cons {c : Char} (hc : isJsonWs c = false) (t : List Char) :
 skipWhitespace (c :: t) = c :: t := by
 rw [skipWhitespace, dropWhile_cons_of_neg (by rw [hc]; simp)]

theorem skipWhitespace_idem (t : List Char) :
 skipWhitespace (skipWhitespace t) = skipWhitespace t := by
 obtain ⟨a, ha, h⟩ := skipWhitespace_split t
 conv => rhs; rw [h, skipWhitespace_append ha]

/-! ## Numbers -/

theorem digits_split (t : List Char) : ∃ ds, Digits ds ∧ t = ds ++ digits t := by
 refine ⟨t.takeWhile Char.isDigit, ?_, (takeWhile_append_dropWhile ..).symm⟩
 intro c hc
 exact all_eq_true.mp all_takeWhile c hc

def NoDigit (t : List Char) : Prop := ∀ c, t.head? = some c → c.isDigit = false

variable {t r w : List Char}

theorem digits_append {ds : List Char} (hd : Digits ds) (ht : NoDigit t) :
 digits (ds ++ t) = t := by
 induction ds with
 | nil =>
  cases t with
  | nil => rfl
  | cons c t =>
   rw [nil_append, digits, dropWhile_cons_of_neg (by rw [ht c rfl]; simp)]
 | cons c ds ih =>
  rw [cons_append, digits, dropWhile_cons_of_pos (hd c (by simp))]
  exact ih (fun x hx => hd x (mem_cons_of_mem _ hx))

theorem digits1_sound (h : digits1 t = some r) : ∃ ds, ds ≠ [] ∧ Digits ds ∧ t = ds ++ r := by
 unfold digits1 at h
 split at h
 next c tail =>
  split at h
  next hc =>
   injection h with h
   obtain ⟨ds, hd, hs⟩ := digits_split tail
   refine ⟨c :: ds, by simp, ?_, ?_⟩
   · intro x hx
     rcases mem_cons.mp hx with rfl | hx
     · exact hc
     · exact hd x hx
   · rw [← h, cons_append, ← hs]
  · simp at h
 · simp at h

theorem digits1_complete {ds : List Char} (hne : ds ≠ []) (hd : Digits ds) (ht : NoDigit t) :
 digits1 (ds ++ t) = some t := by
 cases ds with
 | nil => exact absurd rfl hne
 | cons c ds =>
  rw [cons_append, digits1, if_pos (hd c (by simp)),
   digits_append (fun x hx => hd x (mem_cons_of_mem _ hx)) ht]

theorem intPart_sound (h : intPart t = some r) : ∃ w, IsInt w ∧ t = w ++ r := by
 unfold intPart at h
 split at h
 · injection h with h
   exact ⟨['0'], .zero, by rw [h]; rfl⟩
 next c tail _ =>
  split at h
  next hc =>
   injection h with h
   obtain ⟨ds, hd, hs⟩ := digits_split tail
   exact ⟨c :: ds, .pos hc.1 hc.2 hd, by rw [← h, cons_append, ← hs]⟩
  · simp at h
 · simp at h

theorem intPart_complete (hw : IsInt w) (ht : NoDigit t) : intPart (w ++ t) = some t := by
 cases hw with
 | zero => rfl
 | @pos c ds h1 h9 hd =>
  rw [cons_append]
  unfold intPart
  split
  next heq =>
   injection heq with hc _
   subst hc
   exact absurd h1 (by decide)
  next heq =>
   injection heq with hc ht'
   subst hc
   subst ht'
   rw [if_pos ⟨h1, h9⟩, digits_append hd ht]
  next heq =>
   simp at heq

/-- What a number does not reach into. -/
def NumberEnds (t : List Char) : Prop :=
 ∀ c, t.head? = some c → c.isDigit = false ∧ c ≠ '.' ∧ c ≠ 'e' ∧ c ≠ 'E'

theorem fracPart_sound (h : fracPart t = some r) : ∃ w, IsFrac w ∧ t = w ++ r := by
 unfold fracPart at h
 split at h
 next hdot =>
  obtain ⟨ds, hne, hd, ht⟩ := digits1_sound h
  refine ⟨'.' :: ds, .some hne hd, ?_⟩
  rw [cons_append, ← ht]
  exact eq_cons_of_mem_head? hdot
 · injection h with h
   exact ⟨[], .none, by rw [h]; rfl⟩

theorem expPart_sound (h : expPart t = some r) : ∃ w, IsExp w ∧ t = w ++ r := by
 unfold expPart at h
 split at h
 next he =>
  obtain ⟨ds, hne, hd, ht⟩ := digits1_sound h
  unfold skipSign at ht
  obtain ⟨e, hee, het⟩ : ∃ e, (e = 'e' ∨ e = 'E') ∧ t = e :: t.tail := by
   rcases he with he | he
   · exact ⟨'e', .inl rfl, eq_cons_of_mem_head? he⟩
   · exact ⟨'E', .inr rfl, eq_cons_of_mem_head? he⟩
  split at ht
  next hs =>
   obtain ⟨s, hss, hst⟩ : ∃ s, (s = '+' ∨ s = '-') ∧ t.tail = s :: t.tail.tail := by
    rcases hs with hs | hs
    · exact ⟨'+', .inl rfl, eq_cons_of_mem_head? hs⟩
    · exact ⟨'-', .inr rfl, eq_cons_of_mem_head? hs⟩
   refine ⟨e :: ([s] ++ ds), .some hee ?_ hne hd, ?_⟩
   · rcases hss with rfl | rfl <;> simp
   · rw [het, hst, ht]
     simp
  · refine ⟨e :: ([] ++ ds), .some hee (.inl rfl) hne hd, ?_⟩
    rw [het, ht]
    simp
 · injection h with h
   exact ⟨[], .none, by rw [h]; rfl⟩

theorem numberEnd_sound (h : numberEnd t = some r) : ∃ w, IsNumber w ∧ t = w ++ r := by
 simp only [numberEnd, bind_eq_some_iff] at h
 obtain ⟨t1, h1, t2, h2, h3⟩ := h
 obtain ⟨wi, hi, e1⟩ := intPart_sound h1
 obtain ⟨wf, hf, e2⟩ := fracPart_sound h2
 obtain ⟨we, he, e3⟩ := expPart_sound h3
 split at e1
 next hs =>
  refine ⟨['-'] ++ (wi ++ (wf ++ we)), .mk (.inr rfl) hi hf he, ?_⟩
  rw [eq_cons_of_mem_head? hs, e1, e2, e3]
  simp
 · refine ⟨[] ++ (wi ++ (wf ++ we)), .mk (.inl rfl) hi hf he, ?_⟩
   rw [e1, e2, e3]
   simp

theorem fracPart_complete (hw : IsFrac w) (hd : NoDigit t) (ht : t.head? ≠ some '.') :
 fracPart (w ++ t) = some t := by
 cases hw with
 | none =>
  rw [nil_append, fracPart, if_neg ht]
 | @some ds hne hds =>
  show digits1 (ds ++ t) = some t
  exact digits1_complete hne hds hd

theorem expPart_complete (hw : IsExp w) (ht : NumberEnds t) : expPart (w ++ t) = some t := by
 cases hw with
 | none =>
  rw [nil_append, expPart, if_neg]
  rintro (h | h)
  · exact (ht _ h).2.2.1 rfl
  · exact (ht _ h).2.2.2 rfl
 | @some e sign ds he hs hne hds =>
  have hd1 := digits1_complete (t := t) hne hds (fun c hc => (ht c hc).1)
  have hhead : expPart (e :: (sign ++ ds ++ t)) = digits1 (skipSign (sign ++ ds ++ t)) := by
   rcases he with rfl | rfl <;> rfl
  rw [cons_append, hhead]
  rcases hs with rfl | rfl | rfl
  · rw [nil_append, skipSign, if_neg, hd1]
    cases ds with
    | nil => exact absurd rfl hne
    | cons d ds =>
     have := hds d (by simp)
     rintro (h | h)
     all_goals
      simp only [cons_append, head?_cons, some.injEq] at h
      subst h
      exact absurd this (by decide)
  · exact hd1
  · exact hd1

theorem isExp_head (hw : IsExp w) (ht : NumberEnds t) :
 NoDigit (w ++ t) ∧ (w ++ t).head? ≠ some '.' := by
 cases hw with
 | none =>
  refine ⟨fun c hc => (ht c hc).1, fun h => (ht _ h).2.1 rfl⟩
 | @some e sign ds he hs hne hds =>
  refine ⟨?_, ?_⟩
  · intro c hc
    simp only [cons_append, head?_cons, some.injEq] at hc
    subst hc
    rcases he with rfl | rfl <;> decide
  · rcases he with rfl | rfl <;> simp

theorem isFrac_head (hw : IsFrac w) (ht : NoDigit t) : NoDigit (w ++ t) := by
 cases hw with
 | none => exact ht
 | @some ds hne hds =>
  intro c hc
  simp only [cons_append, head?_cons, some.injEq] at hc
  subst hc
  decide

theorem numberEnd_complete (hw : IsNumber w) (ht : NumberEnds t) : numberEnd (w ++ t) = some t := by
 cases hw with
 | @mk sign int frac exp hs hi hf he =>
  have hexp := isExp_head he ht
  have hfrac := isFrac_head hf hexp.1
  have hcore : numberEnd (sign ++ (int ++ (frac ++ exp)) ++ t)
   = (intPart (int ++ (frac ++ (exp ++ t)))).bind fun t => (fracPart t).bind expPart := by
   rw [numberEnd]
   simp only [append_assoc]
   rcases hs with rfl | rfl
   · rw [nil_append, if_neg]
     intro h
     cases hi with
     | zero => simp at h
     | @pos c ds h1 h9 hd =>
      simp only [cons_append, head?_cons, some.injEq] at h
      subst h
      exact absurd h1 (by decide)
   · rfl
  rw [hcore, intPart_complete hi hfrac, bind_some,
   fracPart_complete hf hexp.1 hexp.2, bind_some, expPart_complete he ht]

/-! ## Strings -/

theorem hex4_sound {n : Nat} (h : hex4 t = some (n, r)) :
 ∃ a b c d, isHexDigit a ∧ isHexDigit b ∧ isHexDigit c ∧ isHexDigit d
  ∧ t = a :: b :: c :: d :: r := by
 unfold hex4 at h
 split at h
 next a b c d rest =>
  split at h
  next hx =>
   simp only [Bool.and_eq_true] at hx
   obtain ⟨⟨⟨ha, hb⟩, hc⟩, hd⟩ := hx
   injection h with h
   injection h with _ h
   exact ⟨a, b, c, d, ha, hb, hc, hd, by rw [h]⟩
  · simp at h
 · simp at h

theorem codePoint_cases (unit : Nat) (t : List Char) :
 (codePoint unit t).2 = t ∨ ∃ low n, t = '\\' :: 'u' :: low ∧ hex4 low = some (n, (codePoint unit t).2) := by
 unfold codePoint
 split
 · split
   next low =>
    split
    next n after hx =>
     split
     · exact .inr ⟨low, n, rfl, hx⟩
     · exact .inl rfl
    · exact .inl rfl
   · exact .inl rfl
 · exact .inl rfl

theorem escape_sound {u : StrUnit} (h : escape t = some (u, r)) :
 ∀ w, IsChars w → ∃ e, IsChars ('\\' :: (e ++ w)) ∧ t = e ++ r := by
 intro w hw
 unfold escape at h
 split at h
 case h_9 rest =>
  simp only [map_eq_some_iff, Prod.exists] at h
  obtain ⟨n, r1, hx, hc⟩ := h
  obtain ⟨a, b, c, d, ha, hb, hc', hd, hrest⟩ := hex4_sound hx
  have hr : (codePoint n r1).2 = r := by rw [hc]
  rcases codePoint_cases n r1 with heq | ⟨low, m, heq, hlow⟩
  · rw [hr] at heq
    exact ⟨['u', a, b, c, d], .unicode ha hb hc' hd hw, by rw [hrest, heq]; rfl⟩
  · rw [hr] at hlow
    obtain ⟨a2, b2, c2, d2, ha2, hb2, hc2, hd2, hlowe⟩ := hex4_sound hlow
    refine ⟨['u', a, b, c, d, '\\', 'u', a2, b2, c2, d2],
     .unicode ha hb hc' hd (.unicode ha2 hb2 hc2 hd2 hw), ?_⟩
    rw [hrest, heq, hlowe]
    rfl
 case h_10 => simp at h
 all_goals
  rename_i rest
  injection h with h
  injection h with _ h
  subst h
  exact ⟨[_], .simple (by simp) hw, rfl⟩

theorem stringUnits_sound {us : List StrUnit} (h : stringUnits t = some (us, r)) :
 ∃ body, IsChars body ∧ t = body ++ '"' :: r := by
 fun_induction stringUnits t generalizing us with
 | case2 rest =>
  injection h with h
  injection h with _ h
  exact ⟨[], .nil, by rw [h]; rfl⟩
 | case4 tail u rest hesc ih =>
  simp only [map_eq_some_iff, Prod.mk.injEq, Prod.exists] at h
  obtain ⟨us', r', hr, -, rfl⟩ := h
  obtain ⟨body, hb, hrest⟩ := ih hr
  obtain ⟨e, he, ht⟩ := escape_sound hesc body hb
  exact ⟨_, he, by rw [ht, hrest]; simp⟩
 | case6 c tail hq hb hlt ih =>
  simp only [map_eq_some_iff, Prod.mk.injEq, Prod.exists] at h
  obtain ⟨us', r', hr, -, rfl⟩ := h
  obtain ⟨body, hbody, hrest⟩ := ih hr
  refine ⟨c :: body, .plain ?_ ?_ (by omega) hbody, by rw [hrest]; rfl⟩
  · intro hc
    exact hq hc
  · intro hc
    exact hb hc
 | _ => simp at h

theorem string_sound {v : String × Option (List Char)} (ht : t.head? = some '"')
 (h : string t = some (v, r)) : ∃ w, IsString w ∧ t = w ++ r := by
 simp only [string, map_eq_some_iff, Prod.mk.injEq, Prod.exists] at h
 obtain ⟨us, r', hu, -, rfl⟩ := h
 obtain ⟨body, hb, hbody⟩ := stringUnits_sound hu
 refine ⟨_, ⟨body, hb, rfl⟩, ?_⟩
 rw [eq_cons_of_mem_head? ht, hbody]
 simp

theorem hex4_complete {a b c d : Char} (ha : isHexDigit a) (hb : isHexDigit b)
 (hc : isHexDigit c) (hd : isHexDigit d) (t : List Char) :
 ∃ n, hex4 (a :: b :: c :: d :: t) = some (n, t) :=
 ⟨_, by rw [hex4, if_pos (by rw [ha, hb, hc, hd]; rfl)]⟩

/-- What follows one `\u` escape's four digits is still the inside of a string
when a second escape is taken with it. -/
theorem IsChars.codePoint (hw : IsChars w) (n : Nat) (t : List Char) :
 ∃ w', IsChars w' ∧ w'.length ≤ w.length
  ∧ (codePoint n (w ++ '"' :: t)).2 = w' ++ '"' :: t := by
 rcases codePoint_cases n (w ++ '"' :: t) with heq | ⟨low, m, heq, hlow⟩
 · exact ⟨w, hw, Nat.le_refl _, heq⟩
 cases hw with
 | nil => simp at heq
 | plain _ hbs =>
  injection heq with h _
  exact absurd h hbs
 | simple hc =>
  injection heq with _ h
  injection h with h _
  subst h
  exact absurd hc (by decide)
 | @unicode a b c d w' ha hb hc hd hw' =>
  injection heq with _ h
  injection h with _ h
  subst h
  obtain ⟨k, hk⟩ := hex4_complete ha hb hc hd (w' ++ '"' :: t)
  refine ⟨w', hw', by simp only [length_cons]; omega, ?_⟩
  have := hlow.symm.trans hk
  injection this with this
  injection this with _ this

theorem stringUnits_complete {body : List Char} (hb : IsChars body) (t : List Char) :
 ∃ us, stringUnits (body ++ '"' :: t) = some (us, t) := by
 induction hlen : body.length using Nat.strongRecOn generalizing body with
 | ind n ih =>
  cases hb with
  | nil => exact ⟨[], by rw [nil_append, stringUnits]⟩
  | @plain c w hq hs hge hw =>
   obtain ⟨us, hus⟩ := ih w.length (by rw [← hlen]; simp) hw rfl
   refine ⟨.text c :: us, ?_⟩
   rw [cons_append, stringUnits, if_neg (by omega), hus]
   · rfl
   · exact hq
   · exact hs
  | @simple c w hc hw =>
   obtain ⟨us, hus⟩ := ih w.length (by rw [← hlen]; simp only [length_cons]; omega) hw rfl
   have hesc : ∃ u, escape (c :: (w ++ '"' :: t)) = some (u, w ++ '"' :: t) := by
    simp only [mem_cons, not_mem_nil, or_false] at hc
    rcases hc with rfl | rfl | rfl | rfl | rfl | rfl | rfl | rfl <;> exact ⟨_, rfl⟩
   obtain ⟨u, hu⟩ := hesc
   refine ⟨u :: us, ?_⟩
   rw [cons_append, cons_append, stringUnits]
   split
   next hn =>
    rw [hu] at hn
    simp at hn
   next hs =>
    rw [hu] at hs
    cases hs
    rw [hus]
    rfl
  | @unicode a b c d w ha hb hc hd hw =>
   obtain ⟨n, hn⟩ := hex4_complete ha hb hc hd (w ++ '"' :: t)
   obtain ⟨w', hw', hle, hcp⟩ := hw.codePoint n t
   obtain ⟨us, hus⟩ := ih w'.length (by rw [← hlen]; simp only [length_cons]; omega) hw' rfl
   have hu : escape ('u' :: a :: b :: c :: d :: (w ++ '"' :: t))
    = some ((codePoint n (w ++ '"' :: t)).1, w' ++ '"' :: t) := by
    rw [escape, hn, ← hcp]
    rfl
   refine ⟨(codePoint n (w ++ '"' :: t)).1 :: us, ?_⟩
   simp only [cons_append]
   rw [stringUnits]
   split
   next hx =>
    rw [hu] at hx
    simp at hx
   next hs =>
    rw [hu] at hs
    cases hs
    rw [hus]
    rfl

theorem string_complete (hw : IsString w) (t : List Char) : ∃ v, string (w ++ t) = some (v, t) := by
 obtain ⟨body, hb, rfl⟩ := hw
 obtain ⟨us, hus⟩ := stringUnits_complete hb t
 exact ⟨(unitsValue us, if unitsLossy us then some (canonicalString us) else none), by
  simp only [string, cons_append, append_assoc, nil_append, tail_cons, hus, map_some]⟩

/-! ### Written strings -/

theorem isHexDigit_hexDigit {n : Nat} (h : n < 16) : isHexDigit (hexDigit n) = true := by
 have : ∀ n : Fin 16, isHexDigit (hexDigit n) = true := by decide
 exact this ⟨n, h⟩

theorem IsChars.unicodeEscape (hw : IsChars w) (n : Nat) : IsChars (unicodeEscape n ++ w) := by
 refine .unicode ?_ ?_ ?_ ?_ hw
 all_goals exact isHexDigit_hexDigit (Nat.mod_lt _ (by decide))

theorem IsChars.writeChar (hw : IsChars w) (c : Char) : IsChars (writeChar c ++ w) := by
 have hsimple : ∀ d ∈ ['"', '\\', '/', 'b', 'f', 'n', 'r', 't'], IsChars (['\\', d] ++ w) :=
  fun d hd => .simple hd hw
 unfold Json.writeChar
 split
 · exact hsimple _ (by simp)
 split
 · exact hsimple _ (by simp)
 split
 · exact hsimple _ (by simp)
 split
 · exact hsimple _ (by simp)
 split
 · exact hsimple _ (by simp)
 split
 · exact hsimple _ (by simp)
 split
 · exact hsimple _ (by simp)
 split
 · exact hw.unicodeEscape _
 next h1 h2 _ _ _ _ _ h20 =>
  exact .plain h1 h2 (by omega) hw

theorem isString_writeString (text : String) : IsString (writeString text) := by
 refine ⟨text.toList.flatMap Json.writeChar, ?_, rfl⟩
 induction text.toList with
 | nil => exact .nil
 | cons c cs ih =>
  rw [flatMap_cons]
  exact ih.writeChar c

theorem isString_canonicalString (units : List StrUnit) : IsString (canonicalString units) := by
 refine ⟨units.flatMap StrUnit.write, ?_, rfl⟩
 induction units with
 | nil => exact .nil
 | cons u us ih =>
  rw [flatMap_cons]
  cases u with
  | text c => exact ih.writeChar c
  | lone n => exact ih.unicodeEscape n

end Bake.Json
