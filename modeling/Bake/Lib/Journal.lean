import Mathlib.Data.List.Induction

/-!
# Parts and their journal

Parts that are added to a list and changed in any order, and one journal in which the
entries of all of them come mixed, each with the number of its part. Every part has a
history of its own; a step that extends one history, changes that part and enters what
the history says leaves every other part and its entries alone.
-/

open List

namespace Journal

variable {Λ β η : Type}

/-- The entries of one part. -/
def own (journal : List (Nat × η)) (i : Nat) : List η :=
 (journal.filter fun e => e.1 = i).map Prod.snd

/-- Entries of one part. -/
def entered (i : Nat) (xs : List η) : List (Nat × η) := xs.map fun x => (i, x)

theorem own_append (a b : List (Nat × η)) (i : Nat) : own (a ++ b) i = own a i ++ own b i := by
 rw [own, filter_append, map_append, own, own]

theorem own_entered (i : Nat) (xs : List η) : own (entered i xs) i = xs := by
 rw [own, filter_eq_self.mpr, entered, map_map]
 · exact map_id xs
 · intro e he
   obtain ⟨x, -, rfl⟩ := mem_map.mp he
   exact decide_eq_true rfl

theorem own_entered_ne {i j : Nat} (h : i ≠ j) (xs : List η) : own (entered i xs) j = [] := by
 rw [own, filter_eq_nil_iff.mpr, map_nil]
 intro e he
 obtain ⟨x, -, rfl⟩ := mem_map.mp he
 simpa using h

/-- The parts and the journal are what the histories say: each part is its history's, its
entries are too, and the first entries come in the order of the parts. -/
structure Shows (view : Λ → β) (entries : Λ → List η) (first : η → Bool) (histories : List Λ)
 (parts : List β) (journal : List (Nat × η)) : Prop where
 parts : parts = histories.map view
 own : ∀ i, own journal i = (histories[i]?.map entries).getD []
 order : (journal.filter fun e => first e.2).map Prod.fst = List.range histories.length

variable {view : Λ → β} {entries : Λ → List η} {first : η → Bool} {histories : List Λ}
 {parts : List β} {journal : List (Nat × η)}

theorem Shows.nil : Shows view entries first [] [] [] := ⟨rfl, fun _ => rfl, rfl⟩

section

variable (h : Shows view entries first histories parts journal)

include h

/-- **A part is added.** -/
theorem Shows.add {l : Λ} {x : η}
 (hl : entries l = [x]) (hx : first x = true) :
 Shows view entries first (histories ++ [l]) (parts ++ [view l])
  (journal ++ entered parts.length [x]) := by
 have hlen : parts.length = histories.length := by rw [h.parts, length_map]
 refine ⟨by rw [h.parts, map_append, map_singleton], fun i => ?_, ?_⟩
 · rw [own_append, h.own i, hlen]
   by_cases hi : histories.length = i
   · subst hi
     rw [own_entered, getElem?_append_right (Nat.le_refl _)]
     simp [hl]
   · rw [own_entered_ne hi, append_nil]
     rcases Nat.lt_or_gt_of_ne hi with hlt | hgt
     · have hnone : (histories ++ [l])[i]? = none :=
        getElem?_eq_none (by rw [length_append, length_singleton]; omega)
       rw [hnone, getElem?_eq_none (Nat.le_of_lt hlt)]
     · rw [getElem?_append_left hgt]
 · rw [filter_append, map_append, h.order, hlen]
   simp [entered, hx, range_succ]

/-- **A part is changed,** and what its history now says besides is entered. -/
theorem Shows.change {i : Nat} {l l' : Λ}
 {xs : List η} (hi : histories[i]? = some l) (hl : entries l' = entries l ++ xs)
 (hx : ∀ x ∈ xs, first x = false) :
 Shows view entries first (histories.set i l') (parts.set i (view l'))
  (journal ++ entered i xs) := by
 have hlt : i < histories.length := (List.getElem_of_getElem? hi).1
 refine ⟨by rw [h.parts, map_set], fun j => ?_, ?_⟩
 · rw [own_append, h.own j]
   by_cases hij : i = j
   · subst hij
     rw [own_entered, hi, getElem?_set_self hlt]
     simp [hl]
   · rw [own_entered_ne hij, append_nil, getElem?_set_ne hij]
 · rw [filter_append, map_append, h.order, length_set,
    filter_eq_nil_iff.mpr, map_nil, append_nil]
   intro e he
   obtain ⟨x, hmem, rfl⟩ := mem_map.mp he
   simp [hx x hmem]

theorem Shows.silent {i : Nat} {l l' : Λ}
 (hi : histories[i]? = some l) (hv : view l' = view l) (hl : entries l' = entries l) :
 Shows view entries first (histories.set i l') parts journal := by
 have hset : parts.set i (view l') = parts := by
  have hp : parts[i]? = some (view l) := by rw [h.parts, getElem?_map, hi]; rfl
  obtain ⟨hlt, hp⟩ := List.getElem_of_getElem? hp
  rw [hv, ← hp, set_getElem_self]
 have hnone : entries l' = entries l ++ [] := by rw [hl, append_nil]
 have := h.change hi hnone (by simp)
 rw [hset] at this
 simpa [entered] using this

theorem Shows.retold {f : Λ → Λ}
 (hv : ∀ l, view (f l) = view l) (hl : ∀ l, entries (f l) = entries l) :
 Shows view entries first (histories.map f) parts journal := by
 refine ⟨?_, fun i => ?_, by rw [h.order, length_map]⟩
 · rw [h.parts, map_map]
   exact map_congr_left fun l _ => (hv l).symm
 · rw [h.own i, getElem?_map]
   cases histories[i]? with
   | none => rfl
   | some l => simp [hl l]

theorem Shows.part {i : Nat} {l : Λ}
 (hi : histories[i]? = some l) : parts[i]? = some (view l) := by
 rw [h.parts, getElem?_map, hi, Option.map_some]

end

end Journal

/-!
# Histories

A list of events in which each one is allowed by those before it. A history is extended
at its end, and what is behind an event of it is a history of its own.
-/

namespace History

variable {ε : Type} {allowed : List ε → ε → Prop}

def Valid (allowed : List ε → ε → Prop) (log : List ε) : Prop :=
 ∀ before e after, log = before ++ e :: after → allowed before e

theorem Valid.nil : Valid allowed [] := fun before e after h => absurd h (by simp)

theorem valid_snoc {log : List ε} {e : ε} :
 Valid allowed (log ++ [e]) ↔ Valid allowed log ∧ allowed log e := by
 refine ⟨fun h => ⟨fun before e' after he => h before e' (after ++ [e]) (by rw [he]; simp),
  h log e [] rfl⟩, fun ⟨h, hlast⟩ before e' after he => ?_⟩
 rcases List.eq_nil_or_concat after with rfl | ⟨middle, last, rfl⟩
 · obtain ⟨rfl, he⟩ := List.append_inj' he rfl
   obtain rfl : e = e' := by simpa using he
   exact hlast
 · have hcons : log ++ [e] = (before ++ e' :: middle) ++ [last] := by simpa using he
   exact h before e' middle (List.append_inj' hcons rfl).1

theorem Valid.before {before after : List ε} (h : Valid allowed (before ++ after)) :
 Valid allowed before :=
 fun b e a he => h b e (a ++ after) (by rw [he]; simp)

end History
