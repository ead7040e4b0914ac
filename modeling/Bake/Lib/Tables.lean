import Bake.Lib.OrdMap

/-!
# Tables beside a list of parts

A program that keeps its parts in a list often keeps tables beside it: one that finds a
part by a key the part goes by, and one that holds something for a part under its number.
Both say nothing the parts do not say; here is what changing one part, or adding one, does
to them.
-/

open List

namespace OrdMap

variable {κ α β : Type}

variable {i : Nat} {parts : List β} {b : β}

theorem getElem?_set_some {j : Nat} {b' c : β} (h : (parts.set i b')[j]? = some c) :
 (j = i ∧ c = b') ∨ (j ≠ i ∧ parts[j]? = some c) := by
 by_cases hij : i = j
 · subst hij
   obtain ⟨hlt, hget⟩ := List.getElem_of_getElem? h
   rw [getElem_set_self] at hget
   exact .inl ⟨rfl, hget.symm⟩
 · rw [getElem?_set_ne hij] at h
   exact .inr ⟨fun e => hij e.symm, h⟩

theorem getElem?_snoc_some {j : Nat} {c : β} (h : (parts ++ [b])[j]? = some c) :
 (j = parts.length ∧ c = b) ∨ (j < parts.length ∧ parts[j]? = some c) := by
 have hlt := (List.getElem_of_getElem? h).1
 rw [length_append, length_singleton] at hlt
 by_cases hj : j < parts.length
 · rw [getElem?_append_left hj] at h
   exact .inr ⟨hj, h⟩
 · have hj : j = parts.length := by omega
   subst hj
   rw [getElem?_append_right (Nat.le_refl _), Nat.sub_self] at h
   exact .inl ⟨rfl, (Option.some.inj h).symm⟩

theorem modify_eq_set (h : parts[i]? = some b) (f : β → β) :
 parts.modify i f = parts.set i (f b) := by
 rw [modify_eq_set_getElem?, h]
 rfl

theorem modify_length (parts : List β) (f : β → β) : parts.modify parts.length f = parts := by
 rw [modify_eq_set_getElem?, getElem?_eq_none (Nat.le_refl _)]
 rfl

theorem set_of_getElem? (h : parts[i]? = some b) : parts.set i b = parts := by
 obtain ⟨hlt, hget⟩ := List.getElem_of_getElem? h
 rw [← hget, set_getElem_self]

theorem map_set_of_eq {b' : β} {f : β → α} (h : parts[i]? = some b) (hf : f b' = f b) :
 (parts.set i b').map f = parts.map f := by
 rw [map_set, hf]
 exact set_of_getElem? (by rw [getElem?_map, h, Option.map_some])

/-- A part gets what it did not have. -/
theorem filterMap_set_perm {b' : β} {f : β → Option α} {a : α} (h : parts[i]? = some b)
 (hb : f b = none) (hb' : f b' = some a) :
 ((parts.set i b').filterMap f).Perm (parts.filterMap f ++ [a]) := by
 induction parts generalizing i with
 | nil => simp at h
 | cons c rest ih =>
  cases i with
  | zero =>
   obtain rfl : c = b := by simpa using h
   rw [set_cons_zero, filterMap_cons_some hb', filterMap_cons_none hb]
   exact (perm_append_singleton a _).symm
  | succ i =>
   have ih := ih (i := i) (by simpa using h)
   rw [set_cons_succ]
   cases hc : f c with
   | none => rwa [filterMap_cons_none hc, filterMap_cons_none hc]
   | some d =>
    rw [filterMap_cons_some hc, filterMap_cons_some hc]
    exact ih.cons d

/-! ## Finding a part by its key -/

section Finds

variable [DecidableEq κ] {num : α → Nat} {claims : β → κ → α → Prop} {table : List (κ × α)}
 {parts : List β} {i : Nat} {b b' : β} {k₀ : κ} {e : α}

/-- The table binds a key to an entry when the part with the entry's number claims it. -/
def Finds (num : α → Nat) (claims : β → κ → α → Prop) (table : List (κ × α)) (parts : List β) :
 Prop :=
 ∀ k a, get? table k = some a ↔ ∃ b, parts[num a]? = some b ∧ claims b k a

theorem Finds.nil : Finds num claims [] [] := by
 intro k a
 refine ⟨by simp, ?_⟩
 rintro ⟨b, hb, -⟩
 simp at hb

section

variable (h : Finds num claims table parts)

include h

theorem Finds.unclaimed (hk : get? table k₀ = none) {a : α}
 (hb : parts[num a]? = some b) : ¬claims b k₀ a := by
 intro hc
 have := (h k₀ a).mpr ⟨b, hb, hc⟩
 rw [hk] at this
 simp at this

/-- **A part is replaced by one with the same claims.** -/
theorem Finds.keep (hb : parts[i]? = some b)
 (hclaims : ∀ k a, claims b' k a ↔ claims b k a) :
 Finds num claims table (parts.set i b') := by
 have hlt : i < parts.length := (List.getElem_of_getElem? hb).1
 intro k a
 rw [h k a]
 constructor
 · rintro ⟨c, hc, ha⟩
   by_cases hi : i = num a
   · subst hi
     rw [hb] at hc
     injection hc with hc
     exact ⟨b', getElem?_set_self hlt, (hclaims k a).mpr (hc ▸ ha)⟩
   · exact ⟨c, by rw [getElem?_set_ne hi]; exact hc, ha⟩
 · rintro ⟨c, hc, ha⟩
   rcases getElem?_set_some hc with ⟨hi, rfl⟩ | ⟨-, hc⟩
   · exact ⟨b, hi ▸ hb, (hclaims k a).mp ha⟩
   · exact ⟨c, hc, ha⟩

/-- **A part gives a key up.** -/
theorem Finds.release (hb : parts[i]? = some b)
 (hi : num e = i) (hclaim : claims b k₀ e)
 (hclaims : ∀ k a, claims b' k a ↔ k ≠ k₀ ∧ claims b k a) :
 Finds num claims (erase table k₀) (parts.set i b') := by
 have hbound : get? table k₀ = some e := (h k₀ e).mpr ⟨b, hi ▸ hb, hclaim⟩
 have hlt : i < parts.length := (List.getElem_of_getElem? hb).1
 intro k a
 rw [get?_erase]
 by_cases hk : k₀ = k
 · subst hk
   rw [if_pos rfl]
   refine ⟨by simp, ?_⟩
   rintro ⟨c, hc, ha⟩
   rcases getElem?_set_some hc with ⟨-, rfl⟩ | ⟨hne, hc⟩
   · exact absurd rfl ((hclaims k₀ a).mp ha).1
   · have := (h k₀ a).mpr ⟨c, hc, ha⟩
     rw [hbound] at this
     injection this with this
     exact absurd (this ▸ hi) hne
 rw [if_neg hk, h k a]
 constructor
 · rintro ⟨c, hc, ha⟩
   by_cases hi' : i = num a
   · subst hi'
     rw [hb] at hc
     injection hc with hc
     exact ⟨b', getElem?_set_self hlt, (hclaims k a).mpr ⟨fun e => hk e.symm, hc ▸ ha⟩⟩
   · exact ⟨c, by rw [getElem?_set_ne hi']; exact hc, ha⟩
 · rintro ⟨c, hc, ha⟩
   rcases getElem?_set_some hc with ⟨hi', rfl⟩ | ⟨-, hc⟩
   · exact ⟨b, hi' ▸ hb, ((hclaims k a).mp ha).2⟩
   · exact ⟨c, hc, ha⟩

/-- **A part claims a key** that no other part has. -/
theorem Finds.claim (hb : parts[i]? = some b)
 (hi : num e = i) (hfree : ∀ a, get? table k₀ = some a → num a = i)
 (hclaims : ∀ k a, num a = i → (claims b' k a ↔ (k = k₀ ∧ a = e) ∨ (k ≠ k₀ ∧ claims b k a))) :
 Finds num claims (insert table k₀ e) (parts.set i b') := by
 have hlt : i < parts.length := (List.getElem_of_getElem? hb).1
 intro k a
 rw [get?_insert]
 by_cases hk : k₀ = k
 · subst hk
   rw [if_pos rfl]
   constructor
   · intro ha
     cases ha
     refine ⟨b', ?_, (hclaims k₀ e hi).mpr (.inl ⟨rfl, rfl⟩)⟩
     rw [hi]
     exact getElem?_set_self hlt
   · rintro ⟨c, hc, ha⟩
     rcases getElem?_set_some hc with ⟨hi', rfl⟩ | ⟨hne, hc⟩
     · rcases (hclaims k₀ a hi').mp ha with ⟨-, rfl⟩ | ⟨hk, -⟩
       · rfl
       · exact absurd rfl hk
     · exact absurd (hfree a ((h k₀ a).mpr ⟨c, hc, ha⟩)) hne
 rw [if_neg hk, h k a]
 constructor
 · rintro ⟨c, hc, ha⟩
   by_cases hi' : i = num a
   · rw [← hi', hb] at hc
     injection hc with hc
     refine ⟨b', hi' ▸ getElem?_set_self hlt, ?_⟩
     exact (hclaims k a hi'.symm).mpr (.inr ⟨fun e => hk e.symm, hc ▸ ha⟩)
   · exact ⟨c, by rw [getElem?_set_ne hi']; exact hc, ha⟩
 · rintro ⟨c, hc, ha⟩
   rcases getElem?_set_some hc with ⟨hi', rfl⟩ | ⟨-, hc⟩
   · rcases (hclaims k a hi').mp ha with ⟨rfl, -⟩ | ⟨-, ha⟩
     · exact absurd rfl hk
     · exact ⟨b, hi' ▸ hb, ha⟩
   · exact ⟨c, hc, ha⟩

theorem Finds.add (hclaims : ∀ k a, ¬claims b k a) :
 Finds num claims table (parts ++ [b]) := by
 intro k a
 rw [h k a]
 constructor
 · rintro ⟨c, hc, ha⟩
   have hlt := (List.getElem_of_getElem? hc).1
   exact ⟨c, by rw [getElem?_append_left hlt]; exact hc, ha⟩
 · rintro ⟨c, hc, ha⟩
   rcases getElem?_snoc_some hc with ⟨-, rfl⟩ | ⟨-, hc⟩
   · exact absurd ha (hclaims k a)
   · exact ⟨c, hc, ha⟩

/-- **A part is added under a key of its own.** -/
theorem Finds.addUnder (hk : get? table k₀ = none)
 (hnum : num e = parts.length)
 (hclaims : ∀ k a, num a = parts.length → (claims b k a ↔ k = k₀ ∧ a = e)) :
 Finds num claims (insert table k₀ e) (parts ++ [b]) := by
 intro k a
 rw [get?_insert]
 by_cases hkk : k₀ = k
 · subst hkk
   rw [if_pos rfl]
   constructor
   · intro ha
     cases ha
     refine ⟨b, ?_, (hclaims k₀ e hnum).mpr ⟨rfl, rfl⟩⟩
     rw [hnum, getElem?_append_right (Nat.le_refl _), Nat.sub_self]
     rfl
   · rintro ⟨c, hc, ha⟩
     rcases getElem?_snoc_some hc with ⟨hi, rfl⟩ | ⟨-, hc⟩
     · rw [((hclaims k₀ a hi).mp ha).2]
     · exact absurd ha (h.unclaimed hk hc)
 · rw [if_neg hkk, h k a]
   constructor
   · rintro ⟨c, hc, ha⟩
     have hlt := (List.getElem_of_getElem? hc).1
     exact ⟨c, by rw [getElem?_append_left hlt]; exact hc, ha⟩
   · rintro ⟨c, hc, ha⟩
     rcases getElem?_snoc_some hc with ⟨hi, rfl⟩ | ⟨-, hc⟩
     · exact absurd ((hclaims k a hi).mp ha).1 (fun he => hkk he.symm)
     · exact ⟨c, hc, ha⟩

/-- **A part is added that takes a key over,** from whatever part has it. -/
theorem Finds.takeOver {f : β → β}
 (hf : ∀ b k a, claims (f b) k a ↔ k ≠ k₀ ∧ claims b k a) (hnum : num e = parts.length)
 (hclaims : ∀ k a, num a = parts.length → (claims b k a ↔ k = k₀ ∧ a = e)) :
 Finds num claims (insert table k₀ e) (parts.map f ++ [b]) := by
 have hlen : (parts.map f).length = parts.length := length_map f
 intro k a
 rw [get?_insert]
 by_cases hk : k₀ = k
 · subst hk
   rw [if_pos rfl]
   constructor
   · intro ha
     cases ha
     refine ⟨b, ?_, (hclaims k₀ e hnum).mpr ⟨rfl, rfl⟩⟩
     rw [hnum, getElem?_append_right (by omega), hlen, Nat.sub_self]
     rfl
   · rintro ⟨c, hc, ha⟩
     rcases getElem?_snoc_some hc with ⟨hi, rfl⟩ | ⟨-, hc⟩
     · rw [((hclaims k₀ a (hi.trans hlen)).mp ha).2]
     · rw [getElem?_map] at hc
       obtain ⟨d, -, rfl⟩ := Option.map_eq_some_iff.mp hc
       exact absurd rfl ((hf d k₀ a).mp ha).1
 rw [if_neg hk, h k a]
 constructor
 · rintro ⟨c, hc, ha⟩
   have hlt := (List.getElem_of_getElem? hc).1
   refine ⟨f c, ?_, (hf c k a).mpr ⟨fun e => hk e.symm, ha⟩⟩
   rw [getElem?_append_left (hlen ▸ hlt), getElem?_map, hc, Option.map_some]
 · rintro ⟨c, hc, ha⟩
   rcases getElem?_snoc_some hc with ⟨hi, rfl⟩ | ⟨-, hc⟩
   · exact absurd ((hclaims k a (hi.trans hlen)).mp ha).1 (fun e => hk e.symm)
   · rw [getElem?_map] at hc
     obtain ⟨d, hd, rfl⟩ := Option.map_eq_some_iff.mp hc
     exact ⟨d, hd, ((hf d k a).mp ha).2⟩

end

end Finds

/-! ## Holding something for a part -/

section Holds

variable {f : β → Option α} {table : List (Nat × α)} {parts : List β} {i : Nat} {b b' : β}

/-- Under the number of a part the table holds what `f` says of the part. -/
def Holds (f : β → Option α) (table : List (Nat × α)) (parts : List β) : Prop :=
 ∀ i, get? table i = parts[i]?.bind f

theorem Holds.nil : Holds f [] [] := fun _ => rfl

section

variable (h : Holds f table parts)

include h

theorem Holds.keep (hb : parts[i]? = some b) (hf : f b' = f b) :
 Holds f table (parts.set i b') := by
 have hlt : i < parts.length := (List.getElem_of_getElem? hb).1
 intro j
 rw [h j]
 by_cases hij : i = j
 · subst hij
   rw [getElem?_set_self hlt, hb, Option.bind_some, Option.bind_some, hf]
 · rw [getElem?_set_ne hij]

/-- **What is held of a part changes.** -/
theorem Holds.insert (hb : parts[i]? = some b) {a : α}
 (hf : f b' = some a) : Holds f (OrdMap.insert table i a) (parts.set i b') := by
 have hlt : i < parts.length := (List.getElem_of_getElem? hb).1
 intro j
 rw [get?_insert]
 by_cases hij : i = j
 · subst hij
   rw [if_pos rfl, getElem?_set_self hlt, Option.bind_some, hf]
 · rw [if_neg hij, getElem?_set_ne hij, h j]

theorem Holds.erase (hb : parts[i]? = some b) (hf : f b' = none) :
 Holds f (OrdMap.erase table i) (parts.set i b') := by
 have hlt : i < parts.length := (List.getElem_of_getElem? hb).1
 intro j
 rw [get?_erase]
 by_cases hij : i = j
 · subst hij
   rw [if_pos rfl, getElem?_set_self hlt, Option.bind_some, hf]
 · rw [if_neg hij, getElem?_set_ne hij, h j]

theorem Holds.add (hf : f b = none) : Holds f table (parts ++ [b]) := by
 intro j
 rw [h j]
 rcases Nat.lt_trichotomy j parts.length with hj | rfl | hj
 · rw [getElem?_append_left hj]
 · rw [getElem?_append_right (Nat.le_refl _), getElem?_eq_none (Nat.le_refl _)]
   simp [hf]
 · rw [getElem?_eq_none (by omega), getElem?_eq_none (by simp; omega)]

theorem Holds.addHeld {a : α} (hf : f b = some a) :
 Holds f (OrdMap.insert table parts.length a) (parts ++ [b]) := by
 intro j
 rw [get?_insert]
 rcases Nat.lt_trichotomy j parts.length with hj | rfl | hj
 · rw [if_neg (by omega), getElem?_append_left hj, h j]
 · rw [if_pos rfl, getElem?_append_right (Nat.le_refl _)]
   simp [hf]
 · rw [if_neg (by omega), h j, getElem?_eq_none (by omega),
    getElem?_eq_none (by simp; omega)]

theorem Holds.map {g : β → β} (hg : ∀ b, f (g b) = f b) :
 Holds f table (parts.map g) := by
 intro j
 rw [h j, getElem?_map]
 cases parts[j]? with
 | none => rfl
 | some b => exact (hg b).symm

end

end Holds

end OrdMap
