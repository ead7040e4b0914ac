import Mathlib.Data.List.Infix

/-!
# Searching a list for a part of it

Where a part stands in a list, the first place it does, and how often it is counted from the
left without overlap. Counted at most once is less than standing at most once: any two places
then overlap, which is `overlap_of_count_le_one`.
-/

open List

namespace Search

variable {α : Type}

/-- `part` stands in `text` at `i`. -/
def OccursAt (part text : List α) (i : Nat) : Prop := i ≤ text.length ∧ part <+: text.drop i

variable {i : Nat} {part text : List α}

theorem OccursAt.split (h : OccursAt part text i) :
 text = text.take i ++ part ++ text.drop (i + part.length) := by
 obtain ⟨rest, hrest⟩ := h.2
 have hdrop : rest = text.drop (i + part.length) := by
  rw [← drop_drop, ← hrest, drop_left]
 rw [append_assoc, ← hdrop, hrest, take_append_drop]

theorem OccursAt.le_length (h : OccursAt part text i) : i + part.length ≤ text.length := by
 have := h.2.length_le
 rw [length_drop] at this
 have := h.1
 omega

theorem OccursAt.take (h : OccursAt part text i) : (text.drop i).take part.length = part := by
 obtain ⟨rest, hrest⟩ := h.2
 rw [← hrest, take_left]

theorem OccursAt.subset_front {front back : List α} (h : OccursAt part (front ++ back) i)
 (hle : i + part.length ≤ front.length) : part ⊆ front := by
 rw [← h.take, drop_append_of_le_length (by omega),
  take_append_of_le_length (by rw [length_drop]; omega)]
 exact fun c hc => mem_of_mem_drop (mem_of_mem_take hc)

/-- Two places of a part that are apart. -/
theorem OccursAt.twice {j : Nat} (hi : OccursAt part text i) (hj : OccursAt part text j)
 (h : i + part.length ≤ j) :
 ∃ front mid back, text = front ++ (part ++ (mid ++ (part ++ back))) := by
 refine ⟨text.take i, (text.take j).drop (i + part.length), text.drop (j + part.length), ?_⟩
 have hmid : (text.take j).drop (i + part.length) ++ (part ++ text.drop (j + part.length))
  = text.drop (i + part.length) := by
  conv => rhs; rw [hj.split]
  rw [append_assoc, drop_append_of_le_length]
  rw [length_take]
  have := hj.1
  omega
 rw [hmid, ← append_assoc]
 exact hi.split

theorem occursAt_append (front part back : List α) :
 OccursAt part (front ++ part ++ back) front.length := by
 refine ⟨by simp, ?_⟩
 rw [append_assoc, drop_left]
 exact prefix_append part back

theorem occursAt_zero : OccursAt part text 0 ↔ part <+: text := by
 simp [OccursAt]

theorem occursAt_succ {c : α} : OccursAt part (c :: text) (i + 1) ↔ OccursAt part text i := by
 simp [OccursAt]

/-- The part stands there first, and elsewhere only where it overlaps that place. -/
def OnlyAt (part text : List α) (i : Nat) : Prop :=
 OccursAt part text i ∧ ∀ j, OccursAt part text j → i ≤ j ∧ j < i + part.length

variable [DecidableEq α]

/-- The first place of `part`. -/
def find (part : List α) : List α → Option Nat
 | [] => if part.isEmpty then some 0 else none
 | c :: text =>
  if part.isPrefixOf (c :: text) then some 0 else (find part text).map (· + 1)

/-- How often `part` is met from the left, after `skip` elements that are passed over. What
has been met is passed over too. -/
def count (part : List α) : Nat → List α → Nat
 | _, [] => 0
 | skip + 1, _ :: text => count part skip text
 | 0, c :: text =>
  if part.isPrefixOf (c :: text) then count part (part.length - 1) text + 1
  else count part 0 text

/-- **The first place**: the part stands there, and nowhere in front of it. -/
theorem find_eq_some :
 find part text = some i ↔ OccursAt part text i ∧ ∀ j < i, ¬ OccursAt part text j := by
 induction text generalizing i with
 | nil =>
  rw [find]
  constructor
  · intro h
    split at h
    · cases h
      rename_i hempty
      exact ⟨occursAt_zero.mpr (by rw [List.isEmpty_iff.mp hempty]), by simp⟩
    · simp at h
  · rintro ⟨⟨hle, hpart⟩, -⟩
    rw [drop_nil, prefix_nil] at hpart
    obtain rfl : i = 0 := by simpa using hle
    rw [hpart]
    rfl
 | cons c text ih =>
  rw [find]
  by_cases hpart : part.isPrefixOf (c :: text) = true
  · rw [if_pos hpart]
    have hzero : OccursAt part (c :: text) 0 := occursAt_zero.mpr ( isPrefixOf_iff_prefix.mp hpart)
    constructor
    · intro h
      cases h
      exact ⟨hzero, by simp⟩
    · rintro ⟨-, hfirst⟩
      cases i with
      | zero => rfl
      | succ i => exact absurd hzero (hfirst 0 (by omega))
  rw [if_neg hpart]
  have hzero : ¬ OccursAt part (c :: text) 0 := by
   rw [occursAt_zero, ← isPrefixOf_iff_prefix]
   exact hpart
  cases i with
  | zero => simp [hzero]
  | succ i =>
   rw [Option.map_eq_some_iff]
   constructor
   · rintro ⟨j, hj, hij⟩
     obtain rfl : j = i := by omega
     obtain ⟨hj, hfirst⟩ := ih.mp hj
     refine ⟨occursAt_succ.mpr hj, fun k hk => ?_⟩
     cases k with
     | zero => exact hzero
     | succ k => exact mt occursAt_succ.mp (hfirst k (by omega))
   · rintro ⟨hi, hfirst⟩
     exact ⟨i, ih.mpr ⟨occursAt_succ.mp hi, fun k hk =>
      mt occursAt_succ.mpr (hfirst (k + 1) (by omega))⟩, rfl⟩

theorem le_of_find (h : find part text = some i) {j : Nat} (hj : OccursAt part text j) : i ≤ j :=
 Nat.not_lt.mp fun hlt => (find_eq_some.mp h).2 j hlt hj

theorem find_eq_none : find part text = none ↔ ∀ i, ¬ OccursAt part text i := by
 constructor
 · intro h i hi
   -- the least place would have been found
   induction i using Nat.strongRecOn with
   | ind i ih =>
    have : find part text = some i := find_eq_some.mpr ⟨hi, fun j hj => ih j hj⟩
    rw [h] at this
    simp at this
 · intro h
   cases hfind : find part text with
   | none => rfl
   | some i => exact absurd (find_eq_some.mp hfind).1 (h i)

/-- What stands behind the elements that are passed over is met. -/
theorem count_pos {part text : List α} (hne : part ≠ []) {skip i : Nat} (hskip : skip ≤ i)
 (h : OccursAt part text i) : 0 < count part skip text := by
 induction text generalizing skip i with
 | nil =>
  have := h.le_length
  have := length_pos_iff.mpr hne
  rw [length_nil] at *
  omega
 | cons c text ih =>
  cases skip with
  | succ skip =>
   obtain ⟨i, rfl⟩ : ∃ j, i = j + 1 := ⟨i - 1, by omega⟩
   rw [count]
   exact ih (by omega) (occursAt_succ.mp h)
  | zero =>
   rw [count]
   split
   · omega
   next hpart =>
    cases i with
    | zero => exact absurd ( isPrefixOf_iff_prefix.mpr (occursAt_zero.mp h)) hpart
    | succ i => exact ih (Nat.zero_le _) (occursAt_succ.mp h)

/-- **A part that is counted at most once overlaps itself wherever it stands.** -/
theorem overlap_of_count_le_one (hne : part ≠ []) (hcount : count part 0 text ≤ 1) {j : Nat}
 (hi : OccursAt part text i) (hj : OccursAt part text j) : j < i + part.length := by
 induction text generalizing i j with
 | nil =>
  have := hi.le_length
  have := hj.le_length
  have := length_pos_iff.mpr hne
  rw [length_nil] at *
  omega
 | cons c text ih =>
  rw [count] at hcount
  have hpos := length_pos_iff.mpr hne
  split at hcount
  · by_contra hlt
    obtain ⟨j, rfl⟩ : ∃ k, j = k + 1 := ⟨j - 1, by omega⟩
    have := @count_pos _ _ part text hne (part.length - 1) j (by omega) (occursAt_succ.mp hj)
    omega
  next hpart =>
   have hzero : ¬ OccursAt part (c :: text) 0 := by
    rw [occursAt_zero, ← isPrefixOf_iff_prefix]
    exact hpart
   obtain ⟨i, rfl⟩ : ∃ k, i = k + 1 := by
    cases i with
    | zero => exact absurd hi hzero
    | succ i => exact ⟨i, rfl⟩
   cases j with
   | zero => omega
   | succ j =>
    have := ih hcount (occursAt_succ.mp hi) (occursAt_succ.mp hj)
    omega

end Search
