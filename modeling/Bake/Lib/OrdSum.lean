import Bake.Lib.OrdMap
import Mathlib.Algebra.Order.BigOperators.Group.Finset
import Mathlib.Algebra.GroupWithZero.Nat

/-!
# Sums over a map

What the values of an insertion-ordered map add up to: binding a key exchanges one value for
another, and a sum over the bindings is one over any keys that hold the bound ones.
-/

namespace OrdMap

variable {κ α : Type} [DecidableEq κ]

/-- A value of the map at a key, zero where none is bound. -/
def valueAt (f : α → Nat) (m : List (κ × α)) (k : κ) : Nat := ((get? m k).map f).getD 0

variable {m : List (κ × α)}

theorem valueAt_of_get? {f : α → Nat} {k : κ} {v : α} (h : get? m k = some v) :
 valueAt f m k = f v := by
 simp [valueAt, h]

theorem valueAt_of_none {f : α → Nat} {k : κ} (h : get? m k = none) : valueAt f m k = 0 := by
 simp [valueAt, h]

/-- Binding a key exchanges what was there for what is there now. -/
theorem sum_insert (f : α → Nat) (m : List (κ × α)) (k : κ) (v : α) :
 ((insert m k v).map fun b => f b.2).sum + valueAt f m k = (m.map fun b => f b.2).sum + f v := by
 induction m with
 | nil => simp [insert, valueAt]
 | cons b m ih =>
  obtain ⟨k', w⟩ := b
  by_cases hk : k' = k
  · subst hk
    simp only [insert, if_true, List.map_cons, List.sum_cons, valueAt, get?_cons,
     Option.map_some, Option.getD_some]
    omega
  · have hat : valueAt f ((k', w) :: m) k = valueAt f m k := by
     simp [valueAt, get?_cons, hk]
    rw [insert, if_neg hk, List.map_cons, List.sum_cons, List.map_cons, List.sum_cons, hat]
    omega

/-- **A sum over the bindings** is one over keys that hold the bound ones. -/
theorem sum_eq (f : α → Nat) (hd : (keys m).Nodup) {s : Finset κ} (hs : ∀ k ∈ keys m, k ∈ s) :
 (m.map fun b => f b.2).sum = ∑ k ∈ s, valueAt f m k := by
 have hkeys : (m.map fun b => f b.2) = (keys m).map (valueAt f m) := by
  rw [keys, List.map_map]
  refine List.map_congr_left fun b hb => ?_
  exact (valueAt_of_get? (get?_of_mem hd hb)).symm
 rw [hkeys, ← List.sum_toFinset _ hd]
 refine Finset.sum_subset (fun k hk => hs k (List.mem_toFinset.mp hk)) fun k _ hk => ?_
 exact valueAt_of_none (get?_eq_none.mpr fun h => hk (List.mem_toFinset.mpr h))

end OrdMap
