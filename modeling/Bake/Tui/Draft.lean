import Bake.Lib.Substitute
import Bake.Lib.Text

/-!
# Pasted text comes back

A long paste stands in the draft as a placeholder, and a submission puts the text back: one
replacement for each placeholder, in what the ones before it left. That is putting all of
them back at once only where no pasted text makes a place for a placeholder behind it. Every
placeholder is lighter than the text that collapsed into it, so a text that is replaced once
more never comes out right again.
-/

open List Nat

namespace Bake.Tui

open Substitute (substitute inTurn Untouched Bracketed Distinct)

/-- `Atom`: what a placeholder stands for. -/
inductive Atom where
 | text (pasted : List Char)
 | image (id : Nat)

def pasteCollapseBytes : Nat := 800

def pasteCollapseLines : Nat := 3

def collapses (text : List Char) : Bool :=
 pasteCollapseBytes < Text.size text || pasteCollapseLines ≤ (text.splitOn '\n').length

def pastedTextToken (id : Nat) (text : List Char) : List Char :=
 let breaks := text.count '\n'
 if breaks > 0 then
  "[Pasted text #".toList ++ toDigits 10 id ++ " +".toList ++ toDigits 10 breaks
   ++ " lines]".toList
 else
  "[Pasted text #".toList ++ toDigits 10 id ++ " ".toList
   ++ toDigits 10 text.length ++ " chars]".toList

def imageToken (id : Nat) : List Char := "[Image #".toList ++ toDigits 10 id ++ "]".toList

structure Draft where
 text : List Char
 atoms : List (List Char × Atom)

def replace (text token pasted : List Char) : List Char := substitute [(token, pasted)] 0 text

def Draft.expanded (d : Draft) : List Char := d.atoms.foldl (fun text entry => match entry.2 with
  | .text pasted => replace text entry.1 pasted
  | .image _ => text) d.text

def Atom.token (number : Nat) : Atom → List Char
 | .text pasted => pastedTextToken number pasted
 | .image _ => imageToken number

/-- Placeholders as the draft registers them: each under a number of 32 bits, no two alike. -/
structure Registered (atoms : List (List Char × Atom)) : Prop where
 numbered : ∀ entry ∈ atoms, ∃ number < 2 ^ 32, entry.1 = entry.2.token number
 distinct : (atoms.map Prod.fst).Nodup

def Draft.texts (d : Draft) : List (List Char × List Char) :=
 d.atoms.filterMap fun entry => match entry.2 with
  | .text pasted => some (entry.1, pasted)
  | .image _ => none

def Draft.atOnce (d : Draft) : List Char := substitute d.texts 0 d.text

theorem expanded_eq (d : Draft) : d.expanded = inTurn d.texts d.text := by
 obtain ⟨text, atoms⟩ := d
 rw [Draft.expanded, Draft.texts, inTurn, foldl_filterMap]
 congr
 funext text entry
 cases entry.2 <;> rfl

theorem mem_texts {d : Draft} {entry : List Char × List Char} :
 entry ∈ d.texts ↔ (entry.1, Atom.text entry.2) ∈ d.atoms := by
 rw [Draft.texts, mem_filterMap]
 constructor
 · rintro ⟨⟨token, atom⟩, hmem, hsome⟩
   cases atom <;> cases hsome
   exact hmem
 · exact fun hmem => ⟨_, hmem, rfl⟩

theorem bracketed_token (number : Nat) (text : List Char) :
 Bracketed '[' ']' (pastedTextToken number text) := by
 have hdigits : ∀ {c : Char} (n : Nat), c.isDigit = false → c ∉ toDigits 10 n := fun n hc hmem => by
   rw [isDigit_of_mem_toDigits (by decide) (by decide) hmem] at hc
   cases hc
 rw [pastedTextToken]
 have ho : '[' ∉ toDigits 10 number := hdigits number (by decide)
 have hc : ']' ∉ toDigits 10 number := hdigits number (by decide)
 split
 · exact ⟨"Pasted text #".toList ++ toDigits 10 number ++ " +".toList
    ++ toDigits 10 (text.count '\n') ++ " lines".toList, by simp,
    by simp [ho, hdigits], by simp [hc, hdigits]⟩
 · exact ⟨"Pasted text #".toList ++ toDigits 10 number ++ " ".toList
    ++ toDigits 10 text.length ++ " chars".toList, by simp,
    by simp [ho, hdigits], by simp [hc, hdigits]⟩

theorem Registered.texts {d : Draft} (h : Registered d.atoms) : Distinct '[' ']' d.texts := by
 refine ⟨fun entry hentry => ?_, Sublist.nodup (?_ : _ <+ d.atoms.map Prod.fst) h.distinct⟩
 · obtain ⟨number, -, hnumber⟩ := h.numbered _ (mem_texts.mp hentry)
   exact hnumber ▸ bracketed_token number entry.2
 · rw [Draft.texts]
   induction d.atoms with
   | nil => exact .slnil
   | cons entry atoms ih =>
    obtain ⟨token, atom⟩ := entry
    cases atom with
    | text pasted => exact ih.cons_cons token
    | image id => exact ih.cons token

/-- How much a character weighs: a line feed more than what a placeholder says beside its
numbers. -/
def weigh (c : Char) : Nat := if c = '\n' then 40 else 1

theorem sum_weigh (text : List Char) :
 (text.map weigh).sum = text.length + 39 * text.count '\n' := by
 induction text with
 | nil => rfl
 | cons c text ih =>
  rw [map_cons, sum_cons, ih, weigh, count_cons, length_cons]
  by_cases hc : c = '\n'
  all_goals
   simp [hc]
   omega

theorem length_digits (n : Nat) : (Nat.toDigits 10 n).length ≤ n / 10 + 1 := by
 refine (Nat.length_toDigits_le_iff (by decide) (Nat.succ_pos _)).mpr ?_
 have : n / 10 < 10 ^ (n / 10) := Nat.lt_pow_self (by decide)
 rw [Nat.pow_succ]
 omega

theorem size_le (text : List Char) : Text.size text ≤ 4 * text.length := by
 induction text with
 | nil => exact le_refl _
 | cons c text ih =>
  have := c.utf8Size_le_four
  rw [Text.size, map_cons, sum_cons, ← Text.size, length_cons]
  omega

/-- **A placeholder is lighter than the text that collapsed into it.** -/
theorem token_lighter {number : Nat} {text : List Char} (hnumber : number < 2 ^ 32)
 (h : collapses text) :
 ((pastedTextToken number text).map weigh).sum < (text.map weigh).sum := by
 have hsize := size_le text
 have hten : (toDigits 10 number).length ≤ 10 :=
  (length_toDigits_le_iff (by decide) (by decide)).mpr (by omega)
 have hdigits : ∀ n, (toDigits 10 n).count '\n' = 0 := fun n => by
  refine count_eq_zero.mpr fun hmem => ?_
  exact absurd (isDigit_of_mem_toDigits (by decide) (by decide) hmem) (by decide)
 have hlong : 200 < text.length ∨ 2 ≤ text.count '\n' := by
  rw [collapses, Text.length_splitOn, pasteCollapseBytes, pasteCollapseLines] at h
  simp at h
  omega
 rw [sum_weigh, sum_weigh, pastedTextToken]
 have hbreaks := length_digits (text.count '\n')
 have hchars := length_digits text.length
 split <;> simp [hdigits] <;> omega

def Draft.Collapsed (d : Draft) : Prop := ∀ entry ∈ d.texts, collapses entry.2

/-- **What a submission sends** is the draft with every pasted text at its placeholders where
no text makes a place for a later placeholder, and, for texts that collapsed, only there. -/
theorem expanded_atOnce (d : Draft) (h : Registered d.atoms) :
 (Untouched d.texts d.text → d.expanded = d.atOnce)
 ∧ (d.Collapsed → (d.expanded = d.atOnce ↔ Untouched d.texts d.text)) := by
 have hequal : Untouched d.texts d.text → d.expanded = d.atOnce := fun huntouched =>
  (expanded_eq d).trans (h.texts.inTurn_eq huntouched)
 refine ⟨hequal, fun hcollapsed => ⟨fun heq => ?_, hequal⟩⟩
 refine (h.texts.untouched_of_eq weigh fun entry hentry => ?_).2 ?_
 · obtain ⟨number, hnumber, htoken⟩ := h.numbered _ (mem_texts.mp hentry)
   exact htoken ▸ token_lighter hnumber (hcollapsed entry hentry)
 · rw [← expanded_eq, heq, Draft.atOnce]

def twoPastes : Draft :=
 let second := "\n\n".toList
 let first := "\n\n[Pasted text #2 +2 lines]".toList
 ⟨pastedTextToken 1 first, [(pastedTextToken 1 first, .text first),
  (pastedTextToken 2 second, .text second)]⟩

def onePaste : Draft :=
 let pasted := "a\nb\n".toList
 ⟨"see ".toList ++ pastedTextToken 1 pasted, [(pastedTextToken 1 pasted, .text pasted)]⟩

theorem expanded_atOnce_onePaste : onePaste.expanded = onePaste.atOnce
 ∧ (onePaste.expanded = onePaste.atOnce ↔ Untouched onePaste.texts onePaste.text) := by
 have hregistered : Registered onePaste.atoms :=
  ⟨fun _ h => ⟨1, by decide, by rw [mem_singleton.mp h]; rfl⟩, by simp [onePaste]⟩
 have huntouched : Untouched onePaste.texts onePaste.text :=
  (@History.valid_snoc _ _ [] _).mpr ⟨.nil, by decide⟩
 have hcollapsed : onePaste.Collapsed := by
  intro entry hentry
  rw [mem_singleton.mp hentry]
  decide
 exact ⟨(expanded_atOnce onePaste hregistered).1 huntouched,
  (expanded_atOnce onePaste hregistered).2 hcollapsed⟩

/-- **A paste that shows the placeholder of a later one** is not sent as it was pasted. -/
theorem not_atOnce_twoPastes : ¬ ∀ d : Draft, Registered d.atoms → d.expanded = d.atOnce := by
 intro h
 have hregistered : Registered twoPastes.atoms := by
  refine ⟨?_, by decide⟩
  simp only [twoPastes, mem_cons, not_mem_nil, or_false, forall_eq_or_imp, forall_eq]
  exact ⟨⟨1, by decide, rfl⟩, ⟨2, by decide, rfl⟩⟩
 exact absurd (h twoPastes hregistered) (by decide)

end Bake.Tui
