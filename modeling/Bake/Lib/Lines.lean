import Mathlib.Data.List.Basic

/-!
# Files of lines

Bytes read line by line, each line up to a newline or the end of the file. A file
whose last line has no newline is open: what is appended to it would go on that
line, unless a newline is put in between first.
-/

open List

namespace Lines

/-- The byte that ends a line. -/
def newline : UInt8 := 10

/-- The lines of a file, without their newlines. A newline at the end starts no
further line. -/
def split : List UInt8 → List (List UInt8)
 | [] => []
 | b :: rest =>
  if b = newline then [] :: split rest
  else match split rest with
   | [] => [[b]]
   | line :: lines => (b :: line) :: lines

/-- Whether the last line has no newline. -/
def isOpen (file : List UInt8) : Bool :=
 match file.getLast? with
 | some last => last ≠ newline
 | none => false

/-- What sets an appended line apart from an open one. -/
def separator (file : List UInt8) : List UInt8 := if isOpen file then [newline] else []

@[simp] theorem split_nil : split [] = [] := rfl

theorem split_newline (rest : List UInt8) : split (newline :: rest) = [] :: split rest := by
 rw [split, if_pos rfl]

variable {line : List UInt8}

theorem split_cons {b : UInt8} (hb : b ≠ newline) {rest : List UInt8} {lines : List (List UInt8)}
 (h : split rest = line :: lines) : split (b :: rest) = (b :: line) :: lines := by
 rw [split, if_neg hb, h]

theorem split_cons_nil {b : UInt8} (hb : b ≠ newline) {rest : List UInt8} (h : split rest = []) :
 split (b :: rest) = [[b]] := by
 rw [split, if_neg hb, h]

theorem split_line (h : newline ∉ line) (rest : List UInt8) :
 split (line ++ newline :: rest) = line :: split rest := by
 induction line with
 | nil => exact split_newline rest
 | cons b line ih =>
  rw [mem_cons, not_or] at h
  exact split_cons (Ne.symm h.1) (ih h.2)

theorem split_unterminated (h : newline ∉ line) (hne : line ≠ []) : split line = [line] := by
 induction line with
 | nil => exact absurd rfl hne
 | cons b line ih =>
  rw [mem_cons, not_or] at h
  cases line with
  | nil => exact split_cons_nil (Ne.symm h.1) rfl
  | cons c line => exact split_cons (Ne.symm h.1) (ih h.2 (by simp))

theorem split_eq_nil {file : List UInt8} (h : split file = []) : file = [] := by
 cases file with
 | nil => rfl
 | cons b file =>
  rw [split] at h
  split at h
  · simp at h
  · split at h <;> simp at h

theorem newline_not_mem_split (file : List UInt8) : ∀ line ∈ split file, newline ∉ line := by
 induction file with
 | nil => simp
 | cons b file ih =>
  intro line hline
  rw [split] at hline
  split at hline
  · rcases mem_cons.mp hline with rfl | hline
    · simp
    · exact ih line hline
  next hb =>
   split at hline
   · obtain rfl : line = [b] := by simpa using hline
     simpa using Ne.symm hb
   next first lines hs =>
    rw [hs] at ih
    rcases mem_cons.mp hline with rfl | hline
    · simpa using ⟨Ne.symm hb, ih first (mem_cons_self ..)⟩
    · exact ih line (mem_cons_of_mem _ hline)

/-- What follows a newline is read by itself. -/
theorem split_append_newline (a rest : List UInt8) :
 split (a ++ newline :: rest) = split (a ++ [newline]) ++ split rest := by
 induction a with
 | nil => simp [split_newline]
 | cons b a ih =>
  by_cases hb : b = newline
  · subst hb
    rw [cons_append, cons_append, split_newline, split_newline, ih]
    rfl
  · cases h : split (a ++ [newline]) with
    | nil => exact absurd (split_eq_nil h) (by simp)
    | cons line lines =>
     rw [h] at ih
     rw [cons_append, cons_append, split_cons hb ih, split_cons hb h]
     rfl

/-- The newline an open line lacks does not change what is read. -/
theorem split_close {file : List UInt8} (h : isOpen file = true) :
 split (file ++ [newline]) = split file := by
 induction file with
 | nil => simp [isOpen] at h
 | cons b file ih =>
  cases file with
  | nil =>
   have hb : b ≠ newline := by simpa [isOpen] using h
   rw [split_cons_nil hb rfl]
   exact split_cons hb (split_newline [])
  | cons c file =>
   have ih := ih (by simpa [isOpen] using h)
   simp only [cons_append] at ih ⊢
   conv => lhs; rw [split, ih]
   conv => rhs; rw [split]

/-- **What is appended behind the separator is read by itself**, and everything
before it as before. -/
theorem split_append (file rest : List UInt8) :
 split (file ++ (separator file ++ rest)) = split file ++ split rest := by
 unfold separator
 split
 next h =>
  rw [singleton_append, split_append_newline, split_close h]
 next h =>
  rcases eq_nil_or_concat file with rfl | ⟨a, last, rfl⟩
  · rfl
  · have hl : last = newline := by simpa [isOpen] using h
    subst hl
    rw [concat_eq_append, nil_append, append_assoc, singleton_append, split_append_newline]

end Lines
