import Bake.Json.Complete

/-!
# A text cut short inside an object is not JSON

A scan that counts brackets outside strings ends every JSON text where it began
it. Inside an object's braces it stands at least one bracket deeper, so what is
left of an object line by a crash is never accepted, whatever the cut fell into.
-/

open List

namespace Bake.Json

/-- Where the scan is: outside strings, in one, or behind a backslash in one. -/
inductive Mode where
 | out
 | str
 | esc
deriving DecidableEq, Repr

/-- What the scan counts: the open brackets. -/
structure Scan where
 depth : Nat
 mode : Mode
deriving DecidableEq, Repr

def Scan.step : Scan → Char → Scan
 | ⟨d, .out⟩, c =>
  if c = '"' then ⟨d, .str⟩
  else if c = '[' ∨ c = '{' then ⟨d + 1, .out⟩
  else if c = ']' ∨ c = '}' then ⟨d - 1, .out⟩
  else ⟨d, .out⟩
 | ⟨d, .str⟩, c => if c = '"' then ⟨d, .out⟩ else if c = '\\' then ⟨d, .esc⟩ else ⟨d, .str⟩
 | ⟨d, .esc⟩, _ => ⟨d, .str⟩

def Scan.run (s : Scan) (text : List Char) : Scan := text.foldl Scan.step s

/-- At every character of the text the scan stands at least `d` brackets deep. -/
def Above (d : Nat) : Scan → List Char → Prop
 | s, [] => d ≤ s.depth
 | s, c :: text => d ≤ s.depth ∧ Above d (s.step c) text

variable (s : Scan)

@[simp] theorem Scan.run_nil : s.run [] = s := rfl

@[simp] theorem Scan.run_cons (c : Char) (text : List Char) :
 s.run (c :: text) = (s.step c).run text := rfl

theorem Scan.run_append (a b : List Char) : s.run (a ++ b) = (s.run a).run b :=
 foldl_append

theorem Above.append {d : Nat} {s : Scan} {a b : List Char} (ha : Above d s a)
 (hb : Above d (s.run a) b) : Above d s (a ++ b) := by
 induction a generalizing s with
 | nil => exact hb
 | cons c a ih => exact ⟨ha.1, ih ha.2 hb⟩

variable {w : List Char}

theorem Above.isPrefix {d : Nat} {s : Scan} {u : List Char} (h : Above d s w) (hu : u <+: w) :
 d ≤ (s.run u).depth := by
 induction u generalizing s w with
 | nil => cases w with
  | nil => exact h
  | cons c w => exact h.1
 | cons c u ih =>
  obtain ⟨t, rfl⟩ := hu
  exact ih h.2 (prefix_append u t)

/-- The scan reads the text from any depth, ends where it began, and never comes
out above that. -/
def Balanced (w : List Char) : Prop := ∀ d, Scan.run ⟨d, .out⟩ w = ⟨d, .out⟩ ∧ Above d ⟨d, .out⟩ w

theorem Balanced.nil : Balanced [] := fun _ => ⟨rfl, Nat.le_refl _⟩

theorem Balanced.append {a b : List Char} (ha : Balanced a) (hb : Balanced b) :
 Balanced (a ++ b) := by
 intro d
 obtain ⟨ha, ha'⟩ := ha d
 obtain ⟨hb, hb'⟩ := hb d
 exact ⟨by rw [Scan.run_append, ha, hb], ha'.append (by rw [ha]; exact hb')⟩

/-- A character the scan passes over outside strings. -/
def Neutral (c : Char) : Prop := c ≠ '"' ∧ c ≠ '[' ∧ c ≠ '{' ∧ c ≠ ']' ∧ c ≠ '}'

variable {c : Char}

theorem Neutral.step (h : Neutral c) (d : Nat) : Scan.step ⟨d, .out⟩ c = ⟨d, .out⟩ := by
 obtain ⟨h1, h2, h3, h4, h5⟩ := h
 simp [Scan.step, h1, h2, h3, h4, h5]

theorem Balanced.neutral (h : ∀ c ∈ w, Neutral c) : Balanced w := by
 intro d
 induction w with
 | nil => exact Balanced.nil d
 | cons c w ih =>
  obtain ⟨h1, h2⟩ := ih fun x hx => h x (mem_cons_of_mem _ hx)
  have hc := (h c (mem_cons_self ..)).step d
  exact ⟨by rw [Scan.run_cons, hc, h1], Nat.le_refl _, by rw [hc]; exact h2⟩

theorem Balanced.ws (h : Ws w) : Balanced w := by
 refine .neutral fun c hc => ?_
 have := h c hc
 simp only [isJsonWs, Bool.or_eq_true, decide_eq_true_eq] at this
 rcases this with ((rfl | rfl) | rfl) | rfl <;> simp [Neutral]

theorem neutral_digit (h : c.isDigit = true) : Neutral c := by
 refine ⟨?_, ?_, ?_, ?_, ?_⟩ <;>
  · rintro rfl
    exact absurd h (by decide)

theorem Balanced.digits (h : Digits w) : Balanced w := .neutral fun c hc => neutral_digit (h c hc)

theorem Balanced.cons (hc : Neutral c) (hw : Balanced w) : Balanced (c :: w) :=
 (Balanced.neutral (w := [c]) (by simpa using hc)).append hw

theorem balanced_number (h : IsNumber w) : Balanced w := by
 obtain @⟨sign, int, frac, exp, hs, hi, hf, he⟩ := h
 have hsign : Balanced sign := by
  rcases hs with rfl | rfl
  · exact .nil
  · exact .cons (by simp [Neutral]) .nil
 have hint : Balanced int := by
  cases hi with
  | zero => exact .cons (by simp [Neutral]) .nil
  | @pos c ds h1 h9 hd =>
   refine .cons (neutral_digit ?_) (.digits hd)
   have h0 : '0' ≤ c := Char.le_trans (by decide) h1
   simp only [Char.isDigit, Bool.and_eq_true, decide_eq_true_eq]
   exact ⟨h0, h9⟩
 have hfrac : Balanced frac := by
  cases hf with
  | none => exact .nil
  | some _ hd => exact .cons (by simp [Neutral]) (.digits hd)
 have hexp : Balanced exp := by
  cases he with
  | none => exact .nil
  | some he hsg _ hd =>
   refine .cons (by rcases he with rfl | rfl <;> simp [Neutral]) (.append ?_ (.digits hd))
   rcases hsg with rfl | rfl | rfl
   · exact .nil
   · exact .cons (by simp [Neutral]) .nil
   · exact .cons (by simp [Neutral]) .nil
 exact hsign.append (hint.append (hfrac.append hexp))

theorem scan_chars (h : IsChars w) (d : Nat) :
 Scan.run ⟨d, .str⟩ w = ⟨d, .str⟩ ∧ Above d ⟨d, .str⟩ w := by
 induction h with
 | nil => exact ⟨rfl, Nat.le_refl _⟩
 | plain h1 h2 _ _ ih => simpa [Scan.step, h1, h2, Above] using ih
 | simple _ _ ih => simpa [Scan.step, Above] using ih
 | unicode ha hb hc hd _ ih =>
  have hx : ∀ x : Char, isHexDigit x = true → x ≠ '"' ∧ x ≠ '\\' := by
   rintro x hx
   exact ⟨by rintro rfl; exact absurd hx (by decide), by rintro rfl; exact absurd hx (by decide)⟩
  simpa [Scan.step, Above, hx _ ha, hx _ hb, hx _ hc, hx _ hd] using ih

theorem balanced_string (h : IsString w) : Balanced w := by
 obtain ⟨body, hb, rfl⟩ := h
 intro d
 obtain ⟨h1, h2⟩ := scan_chars hb d
 have hq : Scan.step ⟨d, .out⟩ '"' = ⟨d, .str⟩ := by simp [Scan.step]
 refine ⟨?_, Nat.le_refl _, ?_⟩
 · rw [Scan.run_cons, hq, Scan.run_append, h1]
   simp [Scan.step]
 · rw [hq]
   refine h2.append ?_
   rw [h1]
   simp [Above, Scan.step]

theorem balanced_key (h : IsKey w) : Balanced w := by
 obtain ⟨a, k, b, ha, hk, hb, rfl⟩ := h
 exact (Balanced.ws ha).append ((balanced_string hk).append
  ((Balanced.ws hb).append (.cons (by simp [Neutral]) .nil)))

variable (k : Kind)

theorem step_opening (d : Nat) : Scan.step ⟨d, .out⟩ (opening k) = ⟨d + 1, .out⟩ := by
 cases k <;> simp [Scan.step, opening]

theorem step_closing (d : Nat) : Scan.step ⟨d + 1, .out⟩ (Parser.closing k) = ⟨d, .out⟩ := by
 cases k <;> simp [Scan.step, Parser.closing]

theorem Balanced.container (h : Balanced w) :
  Balanced (opening k :: (w ++ [Parser.closing k])) := by
 intro d
 obtain ⟨h1, h2⟩ := h (d + 1)
 have hlow : ∀ {s : Scan} {w : List Char}, Above (d + 1) s w → Above d s w := by
  intro s w h
  induction w generalizing s with
  | nil => exact Nat.le_of_succ_le h
  | cons c w ih => exact ⟨Nat.le_of_succ_le h.1, ih h.2⟩
 refine ⟨?_, Nat.le_refl _, ?_⟩
 · rw [Scan.run_cons, step_opening, Scan.run_append, h1, Scan.run_cons, step_closing]
   rfl
 · rw [step_opening]
   refine (hlow h2).append ?_
   rw [h1]
   exact ⟨Nat.le_succ d, by rw [step_closing]; exact Nat.le_refl d⟩

/-- **Every derivable text is balanced.** -/
theorem Derives.balanced {n : Nonterminal} (h : Derives n w) : Balanced w := by
 have hcomma : ∀ {w u : List Char}, Balanced w → Balanced u → Balanced (w ++ ',' :: u) :=
  fun hw hu => hw.append (.cons (by simp [Neutral]) hu)
 induction h with
 | literal h =>
  simp only [mem_cons, not_mem_nil, or_false] at h
  rcases h with rfl | rfl | rfl <;> exact .neutral (by simp [Neutral])
 | number h => exact balanced_number h
 | string h => exact balanced_string h
 | empty k hs => exact (Balanced.ws hs).container k
 | array _ ih => exact ih.container .array
 | object _ ih => exact ih.container .object
 | element ha _ hb ih => exact (Balanced.ws ha).append (ih.append (.ws hb))
 | elements _ ha _ hb ihw ihv =>
  exact hcomma ihw ((Balanced.ws ha).append (ihv.append (.ws hb)))
 | member hk ha _ hb ih =>
  exact (balanced_key hk).append ((Balanced.ws ha).append (ih.append (.ws hb)))
 | members _ hk ha _ hb ihw ihv =>
  exact hcomma ihw ((balanced_key hk).append ((Balanced.ws ha).append (ihv.append (.ws hb))))

theorem IsJson.balanced {T : List Char} (h : IsJson T) : Balanced T := by
 obtain ⟨a, v, b, ha, hv, hb, rfl⟩ := h
 exact (Balanced.ws ha).append (hv.balanced.append (.ws hb))

theorem Derives.inside {k : Kind} {v : List Char} (h : IsValue v)
 (hhead : v.head? = some (opening k)) :
 ∃ w, Balanced w ∧ v = opening k :: (w ++ [Parser.closing k]) := by
 have hne : ∀ {c : Char} {t : List Char}, v = c :: t → c ≠ '[' → c ≠ '{' → False := by
  intro c t hv h1 h2
  rw [hv] at hhead
  injection hhead with hc
  cases k
  · exact h1 hc
  · exact h2 hc
 cases h with
 | literal h =>
  simp only [mem_cons, not_mem_nil, or_false] at h
  rcases h with rfl | rfl | rfl <;> exact (hne rfl (by decide) (by decide)).elim
 | number h =>
  obtain @⟨sign, int, frac, exp, hs, hi, -, -⟩ := h
  exact absurd hhead (by
   rcases hs with rfl | rfl
   · cases hi with
     | zero => cases k <;> simp [opening]
     | @pos c ds h1 h9 _ =>
      intro h
      cases h
      cases k <;> exact absurd h9 (by decide)
   · cases k <;> simp [opening])
 | string h =>
  obtain ⟨body, -, rfl⟩ := h
  exact (hne rfl (by decide) (by decide)).elim
 | @empty k' s hs =>
  have : k' = k := by cases k <;> cases k' <;> first | rfl | simp [opening] at hhead
  subst this
  exact ⟨s, .ws hs, rfl⟩
 | @array w hw =>
  have : k = .array := by cases k <;> first | rfl | simp [opening] at hhead
  subst this
  exact ⟨w, hw.balanced, rfl⟩
 | @object w hw =>
  have : k = .object := by cases k <;> first | rfl | simp [opening] at hhead
  subst this
  exact ⟨w, hw.balanced, rfl⟩

/--
**A container's text cut short is not JSON**, also when the cut left half a
character that reads as one that is no bracket, and whatever depth it is read at.
-/
theorem cut_not_json {k : Kind} {v u : List Char} (hv : IsValue v)
 (hhead : v.head? = some (opening k)) (hu : u <+: v) (hne : u ≠ []) (hlt : u ≠ v) {r : List Char}
 (hr : ∀ c ∈ r, Neutral c ∧ c ≠ '\\') : ¬IsJson (u ++ r) := by
 obtain ⟨w, hw, rfl⟩ := hv.inside hhead
 obtain ⟨u, rfl, hin⟩ : ∃ u', u = opening k :: u' ∧ u' <+: w := by
  cases u with
  | nil => exact absurd rfl hne
  | cons c u =>
   obtain ⟨rfl, h⟩ := cons_prefix_cons.mp hu
   refine ⟨u, rfl, ?_⟩
   rcases prefix_concat_iff.mp h with h | h
   · exact absurd (congrArg _ h) hlt
   · exact h
 -- inside the brackets the scan is one level down, and `r` does not come up again
 have hdeep : 1 ≤ (Scan.run ⟨0, .out⟩ (opening k :: u)).depth := by
  rw [Scan.run_cons, step_opening]
  exact (hw 1).2.isPrefix hin
 have hstay : ∀ (s : Scan) (r : List Char), (∀ c ∈ r, Neutral c ∧ c ≠ '\\') → 1 ≤ s.depth →
  1 ≤ (s.run r).depth := by
  intro s r hr hs
  induction r generalizing s with
  | nil => exact hs
  | cons c r ih =>
   refine ih _ (fun x hx => hr x (mem_cons_of_mem _ hx)) ?_
   obtain ⟨hc, -⟩ := hr c (mem_cons_self ..)
   obtain ⟨d, m⟩ := s
   cases m with
   | out => rw [hc.step]; exact hs
   | str =>
    simp only [Scan.step]
    split
    · exact hs
    split <;> exact hs
   | esc => exact hs
 intro hjson
 have h0 := (hjson.balanced 0).1
 rw [Scan.run_append] at h0
 have := hstay _ r hr hdeep
 rw [h0] at this
 exact absurd this (by decide)

end Bake.Json
