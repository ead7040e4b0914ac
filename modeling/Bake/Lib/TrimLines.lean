import Bake.Lib.WholeLines
import Mathlib.Data.List.DropRight

/-!
# Lines without the blanks at their ends

Every line of a list trimmed at its end. Cut at the separators, trimmed piece by piece and put
together again (`intercalate_splitOn`), it is one pass from the back that leaves out a blank
where nothing else stands behind it in its line. So no separator is lost, and what trimming
makes of a list stands within what it makes of any list around it (`trim_append`).
-/

open List

namespace TrimLines

variable {α : Type} {blank : α → Bool}

theorem rdropWhile_cons (c : α) (text : List α) : (c :: text).rdropWhile blank
  = if blank c = true ∧ text.rdropWhile blank = [] then [] else c :: text.rdropWhile blank := by
 induction text using List.reverseRecOn with
 | nil => simp [rdropWhile_singleton]
 | append_singleton text d ih =>
  rw [← cons_append, rdropWhile_concat, rdropWhile_concat]
  split
  · exact ih
  · simp

variable [DecidableEq α] (blank) (sep : α)

/-- An element in front of trimmed lines. A blank goes where its line ends. -/
def keep (c : α) (text : List α) : List α :=
 if blank c = true ∧ c ≠ sep ∧ (∀ d ∈ text.head?, d = sep) then text else c :: text

def trim (text : List α) : List α := text.foldr (keep blank sep) []

theorem trim_cons (c : α) (text : List α) :
 trim blank sep (c :: text) = keep blank sep c (trim blank sep text) := rfl

variable (text : List α)

theorem trim_sep : trim blank sep (sep :: text) = sep :: trim blank sep text := by
 rw [trim_cons, keep, if_neg (by simp)]

variable {blank sep}

variable {body : List α}

/-- One line in front of the others. -/
theorem foldr_keep {text : List α} (hbody : sep ∉ body) (htext : ∀ d ∈ text.head?, d = sep) :
 body.foldr (keep blank sep) text = body.rdropWhile blank ++ text := by
 induction body with
 | nil => rfl
 | cons c body ih =>
  rw [mem_cons, not_or] at hbody
  have hhead : (∀ d ∈ (body.rdropWhile blank ++ text).head?, d = sep)
   ↔ body.rdropWhile blank = [] := by
   cases hkept : body.rdropWhile blank with
   | nil => simpa using htext
   | cons d kept =>
    have hd : d ∈ body := ( rdropWhile_prefix blank body).subset (by rw [hkept]; simp)
    simpa using fun heq : d = sep => hbody.2 (heq ▸ hd)
  rw [foldr_cons, ih hbody.2, keep, rdropWhile_cons]
  by_cases h : blank c = true ∧ body.rdropWhile blank = []
  · rw [if_pos h, if_pos ⟨h.1, Ne.symm hbody.1, hhead.mpr h.2⟩, h.2]
  · rw [if_neg h, if_neg fun h' => h ⟨h'.1, hhead.mp h'.2.2⟩]
    rfl

theorem trim_open (h : sep ∉ body) : trim blank sep body = body.rdropWhile blank := by
 rw [trim, foldr_keep h (by simp), append_nil]

theorem trim_line (h : sep ∉ body) (text : List α) :
 trim blank sep (body ++ sep :: text) = body.rdropWhile blank ++ sep :: trim blank sep text := by
 rw [trim, foldr_append, ← trim, trim_sep, foldr_keep h (by simp)]

/-- **Trimmed piece by piece and put together again.** -/
theorem intercalate_splitOn :
 [sep].intercalate ((text.splitOn sep).map (List.rdropWhile blank)) = trim blank sep text := by
 induction hlen : text.length using Nat.strongRecOn generalizing text with
 | ind n ih =>
  rcases WholeLines.cases_line sep text with h | ⟨body, rest, h, rfl⟩
  · rw [splitOn_eq_singleton h, trim_open h]
    simp
  · have hrest := ih rest.length (by simp at hlen; omega) rest rfl
    rw [splitOn_append_cons_self_of_not_mem h, trim_line h, ← hrest, map_cons,
     intercalate_cons_of_ne_nil (by simp)]
    simp

theorem trim_trim : trim blank sep (trim blank sep text) = trim blank sep text := by
 induction text with
 | nil => rfl
 | cons c text ih =>
  rw [trim_cons, keep]
  split
  · exact ih
  next h =>
   rw [trim_cons, ih, keep, if_neg h]

theorem trim_map {f : α → α} (hblank : ∀ c, blank (f c) = blank c) (hsep : ∀ c, f c = sep ↔ c = sep)
 (text : List α) : trim blank sep (text.map f) = (trim blank sep text).map f := by
 induction text with
 | nil => rfl
 | cons c text ih =>
  have hhead : (∀ d ∈ ((trim blank sep text).map f).head?, d = sep)
   ↔ ∀ d ∈ (trim blank sep text).head?, d = sep := by
   cases trim blank sep text with
   | nil => simp
   | cons d kept => simp [hsep]
  rw [map_cons, trim_cons, trim_cons, ih]
  simp only [keep, hblank, ne_eq, hsep, hhead]
  split <;> rfl

/-- **What trimming makes of a list stands within what it makes of more.** -/
theorem trim_append (a b : List α) :
 ∃ mid, trim blank sep (a ++ b) = trim blank sep a ++ mid ++ trim blank sep b := by
 induction a with
 | nil => exact ⟨[], rfl⟩
 | cons c a ih =>
  obtain ⟨mid, hmid⟩ := ih
  rw [cons_append, trim_cons, trim_cons, hmid]
  cases ha : trim blank sep a with
  | nil =>
   by_cases hc : blank c = true ∧ c ≠ sep
   · have hgone : keep blank sep c [] = [] := by
      rw [keep, if_pos ⟨hc.1, hc.2, by simp⟩]
     rw [hgone, nil_append, keep]
     split
     · exact ⟨mid, rfl⟩
     · exact ⟨c :: mid, rfl⟩
   · have hkept : ∀ text, keep blank sep c text = c :: text := fun text => by
      rw [keep, if_neg fun h => hc ⟨h.1, h.2.1⟩]
     rw [hkept, hkept]
     exact ⟨mid, rfl⟩
  | cons d kept =>
   refine ⟨mid, ?_⟩
   have hhead : (d :: kept ++ mid ++ trim blank sep b).head? = (d :: kept).head? := rfl
   rw [keep, keep, hhead]
   split <;> rfl

end TrimLines
