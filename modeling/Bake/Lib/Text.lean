import Mathlib.Data.List.TakeWhile
import Mathlib.Algebra.GroupWithZero.Nat

/-!
# Texts and their lines

A text as its characters: how many bytes it takes, its lines, and the longest end of it
that fits into a number of bytes. A newline ends a line, so one at the end of the text
starts no further line, and what follows a newline has its own lines: `rows_append`.
-/

open List

namespace Text

def size (text : List Char) : Nat := (text.map Char.utf8Size).sum

/-- The pieces without the last one, where that is empty. -/
def dropEmptyLast : List (List Char) → List (List Char)
 | [] => []
 | [last] => if last = [] then [] else [last]
 | piece :: next :: rest => piece :: dropEmptyLast (next :: rest)

def rows (text : List Char) : List (List Char) := dropEmptyLast (text.splitOn '\n')

/-- What stands behind the last newline. -/
def lastRow (text : List Char) : List Char := (text.reverse.takeWhile (fun c => c ≠ '\n')).reverse

/-- The longest end of a text that takes at most `n` bytes. -/
def lastBytes (n : Nat) : List Char → List Char
 | [] => []
 | c :: rest => if size (c :: rest) ≤ n then c :: rest else lastBytes n rest

/-- The text stops at a line's end, or has not begun. -/
def AtLineStart (text : List Char) : Prop := ∀ c ∈ text.getLast?, c = '\n'

instance (text : List Char) : Decidable (AtLineStart text) :=
 Option.decidableForallMem _

/-! ## Sizes -/

@[simp] theorem size_nil : size [] = 0 := rfl

@[simp] theorem size_cons (c : Char) (text : List Char) :
 size (c :: text) = c.utf8Size + size text := by
 simp [size]

@[simp] theorem size_append (a b : List Char) : size (a ++ b) = size a + size b := by
 simp [size]

variable {text : List Char}

theorem size_pos (h : text ≠ []) : 0 < size text := by
 cases text with
 | nil => exact absurd rfl h
 | cons c rest =>
  have := Char.utf8Size_pos c
  rw [size_cons]
  omega

theorem size_newline : Char.utf8Size '\n' = 1 := rfl

/-! ## The end of a text -/

theorem lastBytes_self {n : Nat} (h : size text ≤ n) : lastBytes n text = text := by
 cases text with
 | nil => rfl
 | cons c rest => rw [lastBytes, if_pos h]

theorem size_lastBytes_le (n : Nat) (text : List Char) : size (lastBytes n text) ≤ n := by
 induction text with
 | nil => exact Nat.zero_le n
 | cons c rest ih =>
  rw [lastBytes]
  split
  · assumption
  · exact ih

/-- What does not fit is cut off in front, before a character that no longer fits. -/
theorem lastBytes_cut {n : Nat} {text : List Char} (h : n < size text) :
 ∃ front c, text = front ++ c :: lastBytes n text ∧ n < c.utf8Size + size (lastBytes n text) := by
 induction text with
 | nil => simp at h
 | cons c rest ih =>
  rw [lastBytes, if_neg (by omega)]
  by_cases hrest : n < size rest
  · obtain ⟨front, d, heq, hd⟩ := ih hrest
    exact ⟨c :: front, d, by rw [cons_append, ← heq], hd⟩
  · rw [lastBytes_self (by omega)]
    rw [size_cons] at h
    exact ⟨[], c, rfl, h⟩

theorem lastBytes_append {n : Nat} (front : List Char) (h : n < size text) :
 lastBytes n (front ++ text) = lastBytes n text := by
 induction front with
 | nil => rfl
 | cons c front ih =>
  rw [cons_append, lastBytes, if_neg (by simp only [size_cons, size_append]; omega), ih]

theorem lastBytes_fits {n : Nat} {c : Char} (front : List Char) (hfits : size text ≤ n)
 (hc : n < c.utf8Size + size text) : lastBytes n (front ++ c :: text) = text := by
 rw [lastBytes_append front (by rw [size_cons]; exact hc), lastBytes,
  if_neg (by rw [size_cons]; omega), lastBytes_self hfits]

/-! ## Lines -/

theorem dropEmptyLast_append (a : List (List Char)) {b : List (List Char)} (hb : b ≠ []) :
 dropEmptyLast (a ++ b) = a ++ dropEmptyLast b := by
 induction a with
 | nil => rfl
 | cons piece a ih =>
  cases hab : a ++ b with
  | nil => exact absurd (append_eq_nil_iff.mp hab).2 hb
  | cons next rest => rw [cons_append, hab, dropEmptyLast, ← hab, ih, cons_append]

@[simp] theorem rows_nil : rows [] = [] := rfl

theorem rows_single (h : '\n' ∉ text) : rows text = if text = [] then [] else [text] := by
 rw [rows, splitOn_eq_singleton h, dropEmptyLast]

theorem rows_newline (a b : List Char) : rows (a ++ '\n' :: b) = a.splitOn '\n' ++ rows b := by
 rw [rows, splitOn_append_cons_self, dropEmptyLast_append _ (splitOn_ne_nil '\n' b)]
 rfl

theorem rows_terminated (a : List Char) : rows (a ++ ['\n']) = a.splitOn '\n' := by
 rw [rows_newline, rows_nil, append_nil]

theorem AtLineStart.cases (h : AtLineStart text) : text = [] ∨ ∃ front, text = front ++ ['\n'] := by
 rcases eq_nil_or_concat text with rfl | ⟨front, c, rfl⟩
 · exact Or.inl rfl
 · rw [concat_eq_append] at h ⊢
   exact Or.inr ⟨front, by rw [h c (by simp)]⟩

theorem atLineStart_newline (front : List Char) : AtLineStart (front ++ ['\n']) := by
 intro c hc
 have : '\n' = c := by simpa using hc
 exact this.symm

/-- **What follows the end of a line has its own lines.** -/
theorem rows_append {a : List Char} (h : AtLineStart a) (b : List Char) :
 rows (a ++ b) = rows a ++ rows b := by
 rcases h.cases with rfl | ⟨front, rfl⟩
 · rfl
 · rw [rows_terminated, append_assoc, singleton_append, rows_newline]

theorem split_last (text : List Char) :
 ∃ front, AtLineStart front ∧ text = front ++ lastRow text ∧ '\n' ∉ lastRow text := by
 refine ⟨(text.reverse.dropWhile (fun c => c ≠ '\n')).reverse, ?_, ?_, ?_⟩
 · intro c hc
   rw [getLast?_reverse] at hc
   have := head?_dropWhile_not (fun c => decide (c ≠ '\n')) text.reverse
   rw [hc] at this
   simpa using this
 · rw [lastRow, ← reverse_append, takeWhile_append_dropWhile, reverse_reverse]
 · intro hmem
   have := mem_takeWhile_imp (mem_reverse.mp hmem)
   simp at this

theorem lastRow_append (a b : List Char) :
 lastRow (a ++ b) = if '\n' ∈ b then lastRow b else lastRow a ++ b := by
 unfold lastRow
 rw [reverse_append]
 split
 next h =>
  congr 1
  rw [takeWhile_append]
  split
  next hlen =>
   have hall : ∀ c ∈ b.reverse, c ≠ '\n' := by
    have heq := ( takeWhile_prefix (fun c => decide (c ≠ '\n')) (l := b.reverse)).eq_of_length hlen
    intro c hc
    rw [← heq] at hc
    simpa using mem_takeWhile_imp hc
   exact absurd rfl (hall '\n' (mem_reverse.mpr h))
  · rfl
 next h =>
  rw [takeWhile_append_of_pos fun c hc => by
   simpa using fun he => h (by rw [← he]; exact mem_reverse.mp hc)]
  rw [reverse_append, reverse_reverse]

theorem length_splitOn (text : List Char) : (text.splitOn '\n').length = text.count '\n' + 1 := by
 induction text with
 | nil => rfl
 | cons c text ih =>
  rw [splitOn_cons_eq_if_modifyHead]
  by_cases hc : c = '\n'
  · subst hc
    simp [ih]
  · simp [hc, ih]

/-- The lines are the newlines, and one more where something stands behind the last one. -/
theorem length_rows (text : List Char) :
 (rows text).length = text.count '\n' + if 0 < size (lastRow text) then 1 else 0 := by
 obtain ⟨front, hstart, heq, hlast⟩ := split_last text
 have hcount : text.count '\n' = front.count '\n' := by
  conv => lhs; rw [heq]
  rw [count_append, count_eq_zero.mpr hlast, Nat.add_zero]
 rw [hcount]
 conv => lhs; rw [heq]
 rw [rows_append hstart, length_append, rows_single hlast]
 have hfront : (rows front).length = front.count '\n' := by
  rcases hstart.cases with rfl | ⟨front, rfl⟩
  · rfl
  · rw [rows_terminated, length_splitOn]
    simp
 rw [hfront]
 by_cases hne : lastRow text = []
 · simp [hne]
 · simp [hne, size_pos hne]

/-! ## Lines put together again -/

/-- What lines take with a newline between each two. -/
def spent (lines : List (List Char)) : Nat := (lines.map size).sum + (lines.length - 1)

theorem spent_concat (lines : List (List Char)) (line : List Char) :
 spent (lines ++ [line]) = spent lines + ((!lines.isEmpty).toNat + size line) := by
 cases lines with
 | nil => simp [spent]
 | cons first lines =>
  simp only [spent, map_append, sum_append, length_append, map_cons,
   map_nil, sum_cons, sum_nil, length_cons, length_nil,
   isEmpty_cons, Bool.not_false, Bool.toNat_true]
  omega

theorem spent_le_append (a b : List (List Char)) : spent a ≤ spent (a ++ b) := by
 simp only [spent, map_append, sum_append, length_append]
 omega

theorem spent_reverse (lines : List (List Char)) : spent lines.reverse = spent lines := by
 simp [spent, sum_reverse]

theorem size_intercalate (lines : List (List Char)) :
 size (['\n'].intercalate lines) = spent lines := by
 induction lines with
 | nil => rfl
 | cons first lines ih =>
  cases lines with
  | nil => simp [spent, List.intercalate]
  | cons second lines =>
   rw [intercalate_cons_cons, size_append, size_append, ih, size_cons, size_newline, size_nil]
   simp only [spent, map_cons, sum_cons, length_cons]
   omega

theorem intercalate_rows_terminated (front : List Char) :
 ['\n'].intercalate (rows (front ++ ['\n'])) = front := by
 rw [rows_terminated, List.intercalate_splitOn]

theorem rows_open (h : ¬ AtLineStart text) : rows text = text.splitOn '\n' := by
 obtain ⟨front, hstart, heq, hlast⟩ := split_last text
 have hne : lastRow text ≠ [] := by
  intro hnil
  rw [hnil, append_nil] at heq
  exact h (heq ▸ hstart)
 generalize lastRow text = last at heq hlast hne
 subst heq
 rw [rows_append hstart, rows_single hlast, if_neg hne]
 rcases hstart.cases with rfl | ⟨front, rfl⟩
 · exact (splitOn_eq_singleton hlast).symm
 · rw [rows_terminated, append_assoc, singleton_append, splitOn_append_cons_self,
    splitOn_eq_singleton hlast]

theorem intercalate_rows_open (h : ¬ AtLineStart text) : ['\n'].intercalate (rows text) = text := by
 rw [rows_open h, List.intercalate_splitOn]

theorem rows_eq_nil : rows text = [] ↔ text = [] := by
 constructor
 · intro h
   by_cases hstart : AtLineStart text
   · rcases hstart.cases with rfl | ⟨front, rfl⟩
     · rfl
     · rw [rows_terminated] at h
       exact absurd h (splitOn_ne_nil _ _)
   · rw [rows_open hstart] at h
     exact absurd h (splitOn_ne_nil _ _)
 · rintro rfl
   rfl

end Text
