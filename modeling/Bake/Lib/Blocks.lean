import Mathlib.Algebra.BigOperators.Group.List.Basic
import Mathlib.Algebra.GroupWithZero.Nat

/-!
# Blocks of lines

A flat list read as blocks one after another. A place is a block and a line within it;
counted from the start it is one number, the lines of the blocks in front and the line.
Places within the blocks are ordered as their numbers are.
-/

open List

namespace Blocks

abbrev Place := Nat × Nat

variable {α : Type}

/-- The number of a place, counted from the start. -/
def flat (sizes : List Nat) (a : Place) : Nat := (sizes.take a.1).sum + a.2

/-- A place that is a line of a block. -/
def Within (sizes : List Nat) (a : Place) : Prop := ∃ size, sizes[a.1]? = some size ∧ a.2 < size

/-- The order of places: by the block, then by the line. -/
def Le (a b : Place) : Prop := a.1 < b.1 ∨ (a.1 = b.1 ∧ a.2 ≤ b.2)

instance (a b : Place) : Decidable (Le a b) :=
 inferInstanceAs (Decidable (a.1 < b.1 ∨ (a.1 = b.1 ∧ a.2 ≤ b.2)))

theorem sum_take_succ {sizes : List Nat} {row size : Nat} (h : sizes[row]? = some size) :
 (sizes.take (row + 1)).sum = (sizes.take row).sum + size := by
 rw [take_add_one, h, Option.toList_some, sum_append, sum_singleton]

theorem sum_take_mono (sizes : List Nat) {i j : Nat} (h : i ≤ j) :
 (sizes.take i).sum ≤ (sizes.take j).sum := by
 obtain ⟨k, rfl⟩ := Nat.exists_eq_add_of_le h
 induction k with
 | zero => exact Nat.le_refl _
 | succ k ih =>
  have hk := ih (Nat.le_add_right i k)
  rw [← Nat.add_assoc, take_add_one, sum_append]
  omega

namespace Within

variable {sizes : List Nat} {a b : Place}

theorem row_lt (h : Within sizes a) : a.1 < sizes.length := by
 obtain ⟨size, hs, -⟩ := h
 exact (List.getElem_of_getElem? hs).1

theorem flat_lt (h : Within sizes a) : flat sizes a < (sizes.take (a.1 + 1)).sum := by
 obtain ⟨size, hs, hlt⟩ := h
 rw [sum_take_succ hs, flat]
 omega

theorem flat_lt_flat (h : Within sizes a) (hr : a.1 < b.1) : flat sizes a < flat sizes b := by
 have hlt := h.flat_lt
 have hle := sum_take_mono sizes (show a.1 + 1 ≤ b.1 from hr)
 unfold flat at hlt ⊢
 omega

/-- **Places are ordered as their numbers are.** -/
theorem le_iff (ha : Within sizes a) (hb : Within sizes b) :
 Le a b ↔ flat sizes a ≤ flat sizes b := by
 constructor
 · rintro (hr | ⟨hr, hl⟩)
   · exact Nat.le_of_lt (ha.flat_lt_flat hr)
   · rw [flat, flat, hr]
     omega
 · intro h
   rcases Nat.lt_trichotomy a.1 b.1 with hr | hr | hr
   · exact Or.inl hr
   · rw [flat, flat, hr] at h
     exact Or.inr ⟨hr, by omega⟩
   · have hlt := hb.flat_lt_flat hr
     omega

theorem start (hne : sizes ≠ []) (hpos : ∀ size ∈ sizes, 0 < size) : Within sizes (0, 0) := by
 cases sizes with
 | nil => exact absurd rfl hne
 | cons size rest => exact ⟨size, rfl, hpos size (mem_cons_self ..)⟩

end Within

theorem flat_start (sizes : List Nat) : flat sizes (0, 0) = 0 := by simp [flat]

/-- What is left of the flat list from a place on: the rest of its block and the blocks
behind it. -/
theorem drop_flat {blocks : List (List α)} {row line : Nat} {block : List α}
 (h : blocks[row]? = some block) (hl : line ≤ block.length) :
 blocks.flatten.drop (flat (blocks.map List.length) (row, line))
  = block.drop line ++ (blocks.drop (row + 1)).flatten := by
 have hdrop : blocks.drop row = block :: blocks.drop (row + 1) := by
  obtain ⟨hlt, hget⟩ := List.getElem_of_getElem? h
  rw [drop_eq_getElem_cons hlt, hget]
 calc blocks.flatten.drop (flat (blocks.map List.length) (row, line))
     = (blocks.flatten.drop ((blocks.map List.length).take row).sum).drop line := by
       rw [drop_drop, flat]
   _ = (blocks.drop row).flatten.drop line := by rw [drop_sum_flatten]
   _ = block.drop line ++ (blocks.drop (row + 1)).flatten := by
       rw [hdrop, flatten_cons, drop_append_of_le_length hl]

end Blocks
