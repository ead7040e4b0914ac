import Mathlib.Data.Nat.Digits.Defs
import Mathlib.Data.List.TakeWhile

/-!
# Numbers in a column

A number in decimal, with blanks in front of it up to a width. With a blank behind it, it is
read back whatever the width and whatever follows (`text_inj`), and it is never blanks alone.
-/

open List Nat

namespace PaddedNumber

/-- A number in decimal, padded on the left to a width. -/
def text (width n : Nat) : List Char :=
 List.replicate (width - (toDigits 10 n).length) ' ' ++ toDigits 10 n

variable {n : Nat}

theorem isDigit_digits {c : Char} (h : c ∈ toDigits 10 n) : c.isDigit = true :=
 isDigit_of_mem_toDigits (by decide) (by decide) h

theorem digits_inj {m : Nat} (h : toDigits 10 n = toDigits 10 m) : n = m := by
 have hread := congrArg (ofDigitChars 10 · 0) h
 rwa [ofDigitChars_toDigits (by decide) (by decide),
  ofDigitChars_toDigits (by decide) (by decide)] at hread

/-- Behind the blanks in front there is a digit. -/
theorem dropWhile_text (width n : Nat) (rest : List Char) :
 (text width n ++ rest).dropWhile (· = ' ') = toDigits 10 n ++ rest := by
 have hblank : ∀ c ∈ List.replicate (width - (toDigits 10 n).length) ' ',
  decide (c = ' ') = true := fun c hc => decide_eq_true (eq_of_mem_replicate hc)
 rw [text, append_assoc, dropWhile_append_of_pos hblank]
 cases hdigits : toDigits 10 n with
 | nil => exact absurd hdigits (toDigits_ne_nil)
 | cons c digits =>
  have hc : c.isDigit = true := isDigit_digits (hdigits ▸ mem_cons_self ..)
  refine dropWhile_cons_of_neg ?_
  rintro hspace
  obtain rfl : c = ' ' := of_decide_eq_true hspace
  exact absurd hc (by decide)

/-- **A number is read back**, and what follows the blank behind it. -/
theorem text_inj {width m : Nat} {a b : List Char}
 (h : text width n ++ ' ' :: a = text width m ++ ' ' :: b) : n = m ∧ a = b := by
 have hdrop := congrArg (List.dropWhile (· = ' ')) h
 rw [dropWhile_text, dropWhile_text] at hdrop
 have htake : ∀ k (rest : List Char),
  (toDigits 10 k ++ ' ' :: rest).takeWhile Char.isDigit = toDigits 10 k := by
  intro k rest
  rw [takeWhile_append_of_pos fun c hc => isDigit_digits hc]
  simp
 have hdigits := congrArg (List.takeWhile Char.isDigit) hdrop
 rw [htake, htake] at hdigits
 obtain rfl := digits_inj hdigits
 exact ⟨rfl, by simpa using hdrop⟩

theorem text_ne_blank {width k : Nat} {a b : List Char} {c : Char} (hblank : c ≠ ' ')
 (hdigit : c.isDigit = false) : text width n ++ a ≠ List.replicate k ' ' ++ c :: b := by
 intro h
 have hdrop := congrArg (List.dropWhile (· = ' ')) h
 rw [dropWhile_text, dropWhile_append_of_pos fun d hd =>
  decide_eq_true (eq_of_mem_replicate hd),
  dropWhile_cons_of_neg (by simpa using hblank)] at hdrop
 cases hdigits : toDigits 10 n with
 | nil => exact absurd hdigits (toDigits_ne_nil)
 | cons d digits =>
  have hd : d.isDigit = true := isDigit_digits (hdigits ▸ mem_cons_self ..)
  rw [hdigits] at hdrop
  injection hdrop with hhead
  rw [hhead, hdigit] at hd
  exact absurd hd (by decide)

theorem not_mem_text {width : Nat} {c : Char} (hblank : c ≠ ' ') (hdigit : c.isDigit = false) :
 c ∉ text width n := by
 intro h
 rcases mem_append.mp h with h | h
 · exact hblank (eq_of_mem_replicate h)
 · rw [isDigit_digits h] at hdigit
   exact absurd hdigit (by decide)

end PaddedNumber
