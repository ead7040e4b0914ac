import Mathlib.Data.List.Basic

/-!
# Lines with their ends

A list cut behind every separator: each piece keeps its separator, and what stands behind
the last one is a piece of its own where it is not empty. Nothing is lost (`flatten_split`),
no piece is empty, and what follows a separator has its own pieces (`split_append`).
-/

open List

namespace WholeLines

section Split

variable {α : Type} [DecidableEq α]

/-- The pieces of a list, each with the separator that ends it. -/
def split (sep : α) : List α → List (List α)
 | [] => []
 | c :: text =>
  if c = sep then [c] :: split sep text
  else match split sep text with
   | [] => [[c]]
   | line :: lines => (c :: line) :: lines

@[simp] theorem split_nil (sep : α) : split sep [] = [] := rfl

theorem split_sep (sep : α) (text : List α) : split sep (sep :: text) = [sep] :: split sep text := by
 rw [split, if_pos rfl]

variable {sep : α}

theorem split_eq_nil {text : List α} (h : split sep text = []) : text = [] := by
 cases text with
 | nil => rfl
 | cons c text =>
  rw [split] at h
  split at h
  · simp at h
  · split at h <;> simp at h

@[simp] theorem flatten_split (sep : α) (text : List α) : (split sep text).flatten = text := by
 induction text with
 | nil => rfl
 | cons c text ih =>
  rw [split]
  split
  · rw [flatten_cons, ih]
    rfl
  · cases h : split sep text with
    | nil => rw [split_eq_nil h]; rfl
    | cons line lines =>
     rw [h] at ih
     rw [← ih]
     rfl

theorem split_line {body : List α} (h : sep ∉ body) (text : List α) :
 split sep (body ++ sep :: text) = (body ++ [sep]) :: split sep text := by
 induction body with
 | nil => exact split_sep sep text
 | cons c body ih =>
  rw [mem_cons, not_or] at h
  rw [cons_append, split, if_neg (Ne.symm h.1), ih h.2]
  rfl

theorem split_open {body : List α} (h : sep ∉ body) :
 split sep body = if body = [] then [] else [body] := by
 induction body with
 | nil => rfl
 | cons c body ih =>
  rw [mem_cons, not_or] at h
  rw [split, if_neg (Ne.symm h.1), ih h.2]
  by_cases hbody : body = []
  · simp [hbody]
  · simp [hbody]

theorem cases_line (sep : α) (text : List α) :
 sep ∉ text ∨ ∃ body rest, sep ∉ body ∧ text = body ++ sep :: rest := by
 by_cases h : sep ∈ text
 · obtain ⟨body, rest, htext, hbody⟩ := eq_append_cons_of_mem h
   exact Or.inr ⟨body, rest, hbody, htext⟩
 · exact Or.inl h

/-- The lines of some list: each ends with the separator and has no other, but the last may end
without one. -/
inductive Whole (sep : α) : List (List α) → Prop
 | nil : Whole sep []
 | last {line : List α} : line ≠ [] → sep ∉ line → Whole sep [line]
 | line {body : List α} {lines : List (List α)} : sep ∉ body → Whole sep lines →
  Whole sep ((body ++ [sep]) :: lines)

theorem whole_split (sep : α) (text : List α) : Whole sep (split sep text) := by
 induction hlen : text.length using Nat.strongRecOn generalizing text with
 | ind n ih =>
  rcases cases_line sep text with h | ⟨body, rest, h, rfl⟩
  · rw [split_open h]
    split
    · exact .nil
    · exact .last ‹_› h
  · rw [split_line h]
    exact .line h (ih rest.length (by simp at hlen; omega) rest rfl)

/-- **Lines are found again in their text.** -/
theorem Whole.split_flatten {lines : List (List α)} (h : Whole sep lines) :
 split sep lines.flatten = lines := by
 induction h with
 | nil => rfl
 | last hne hsep => rw [flatten_cons, flatten_nil, append_nil, split_open hsep,
  if_neg hne]
 | line hsep _ ih => rw [flatten_cons, append_assoc, singleton_append,
  split_line hsep, ih]

end Split

variable {α : Type}

theorem Whole.append {sep : α} {a b : List (List α)} (h : Whole sep (a ++ b)) :
 Whole sep a ∧ Whole sep b := by
 induction a with
 | nil => exact ⟨.nil, h⟩
 | cons line a ih =>
  generalize hall : line :: a ++ b = all at h
  cases h with
  | nil => simp at hall
  | last hne hsep =>
   injection hall with hline hrest
   obtain ⟨rfl, rfl⟩ := append_eq_nil_iff.mp hrest
   exact ⟨hline ▸ .last hne hsep, .nil⟩
  | line hsep hlines =>
   cases hall
   obtain ⟨ha, hb⟩ := ih hlines
   exact ⟨.line hsep ha, hb⟩

theorem Whole.not_mem_dropLast {sep : α} {lines : List (List α)} (h : Whole sep lines) :
 ∀ line ∈ lines, sep ∉ line.dropLast := by
 induction h with
 | nil => simp
 | last _ hsep => simpa using fun hmem => hsep ((dropLast_subset _) hmem)
 | line hsep _ ih => simpa [hsep] using ih

/-! ## Where lines begin -/

/-- Where line `k` begins. -/
def startOf (lines : List (List α)) (k : Nat) : Nat := (lines.take k).flatten.length

variable {lines : List (List α)} {j k : Nat}

@[simp] theorem startOf_zero (lines : List (List α)) : startOf lines 0 = 0 := by simp [startOf]

theorem startOf_length (lines : List (List α)) :
 startOf lines lines.length = lines.flatten.length := by
 rw [startOf, take_length]

theorem startOf_mono (h : j ≤ k) : startOf lines j ≤ startOf lines k := by
 obtain ⟨d, rfl⟩ := Nat.exists_eq_add_of_le h
 rw [startOf, startOf, take_add, flatten_append, length_append]
 omega

theorem le_of_startOf {i : Nat} (hj : startOf lines j ≤ i) (hk : i < startOf lines (k + 1)) :
 j ≤ k := by
 by_contra hlt
 have := @startOf_mono _ lines (k + 1) j (by omega)
 omega

theorem take_startOf (lines : List (List α)) (k : Nat) :
 lines.flatten.take (startOf lines k) = (lines.take k).flatten := by
 conv => lhs; rw [← take_append_drop k lines, flatten_append]
 rw [startOf, take_append_drop, take_left]

theorem drop_startOf (lines : List (List α)) (k : Nat) :
 lines.flatten.drop (startOf lines k) = (lines.drop k).flatten := by
 conv => lhs; rw [← take_append_drop k lines, flatten_append]
 rw [startOf, take_append_drop, drop_left]

theorem take_drop_startOf (lines : List (List α)) (hjk : j ≤ k) :
 (lines.flatten.take (startOf lines k)).drop (startOf lines j)
  = ((lines.take k).drop j).flatten := by
 have hstart : startOf lines j = startOf (lines.take k) j := by
  rw [startOf, startOf, take_take, Nat.min_eq_left hjk]
 rw [take_startOf, hstart, drop_startOf]

end WholeLines
