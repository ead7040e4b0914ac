import Mathlib.Data.List.Induction
import Mathlib.Data.List.Nodup

/-!
# Insertion-ordered maps

A list of bindings read as a map that remembers when each key was first bound:
binding a key again keeps its place, binding a new one puts it last, and erasing
a key closes the gap. Lists are used as they are, so that the map can occur
inside an inductive type of values.
-/

open List

namespace OrdMap

variable {κ α : Type} [DecidableEq κ]

/-- What `k` is bound to. -/
def get? : List (κ × α) → κ → Option α
 | [], _ => none
 | (k', v) :: m, k => if k' = k then some v else get? m k

/-- Bind `k` to `v`, in its old place when it has one, else last. -/
def insert : List (κ × α) → κ → α → List (κ × α)
 | [], k, v => [(k, v)]
 | (k', w) :: m, k, v => if k' = k then (k', v) :: m else (k', w) :: insert m k v

/-- Unbind `k`. -/
def erase (m : List (κ × α)) (k : κ) : List (κ × α) := m.filter (fun b => b.1 ≠ k)

/-- The bound keys, oldest first. -/
def keys (m : List (κ × α)) : List κ := m.map Prod.fst

@[simp] theorem get?_nil (k : κ) : get? ([] : List (κ × α)) k = none := rfl

theorem get?_cons (k' : κ) (v : α) (m : List (κ × α)) (k : κ) :
 get? ((k', v) :: m) k = if k' = k then some v else get? m k := rfl

theorem get?_insert (m : List (κ × α)) (k : κ) (v : α) (k' : κ) :
 get? (insert m k v) k' = if k = k' then some v else get? m k' := by
 induction m with
 | nil => rfl
 | cons b m ih =>
  obtain ⟨k₀, w⟩ := b
  rw [insert]
  split
  next h =>
   subst h
   simp only [get?_cons]
   split <;> rfl
  next h =>
   rw [get?_cons, ih, get?_cons]
   split
   next h' =>
    subst h'
    rw [if_neg (fun he => h he.symm)]
   · rfl

@[simp] theorem get?_insert_self (m : List (κ × α)) (k : κ) (v : α) :
 get? (insert m k v) k = some v := by rw [get?_insert, if_pos rfl]

variable {k : κ} {m : List (κ × α)} {b : κ × α}

theorem get?_insert_ne (m : List (κ × α)) {k' : κ} (v : α) (h : k ≠ k') :
 get? (insert m k v) k' = get? m k' := by rw [get?_insert, if_neg h]

theorem get?_erase (m : List (κ × α)) (k k' : κ) :
 get? (erase m k) k' = if k = k' then none else get? m k' := by
 induction m with
 | nil => simp [erase]
 | cons b m ih =>
  obtain ⟨k₀, w⟩ := b
  rw [erase] at ih ⊢
  rw [filter_cons]
  split
  next h =>
   have h : k₀ ≠ k := by simpa using h
   rw [get?_cons, ih, get?_cons]
   split
   next h' =>
    subst h'
    rw [if_neg h.symm]
   · rfl
  next h =>
   have h : k₀ = k := by simpa using h
   subst h
   rw [ih, get?_cons]
   split <;> rfl

theorem get?_append (m m' : List (κ × α)) (k : κ) :
 get? (m ++ m') k = (get? m k).or (get? m' k) := by
 induction m with
 | nil => simp
 | cons b m ih =>
  obtain ⟨k₀, w⟩ := b
  rw [cons_append, get?_cons, get?_cons]
  split
  · rfl
  · exact ih

omit [DecidableEq κ] in
@[simp] theorem keys_append (m m' : List (κ × α)) : keys (m ++ m') = keys m ++ keys m' := map_append

omit [DecidableEq κ] in
@[simp] theorem keys_cons (b : κ × α) (m : List (κ × α)) : keys (b :: m) = b.1 :: keys m := rfl

omit [DecidableEq κ] in
@[simp] theorem keys_nil : keys ([] : List (κ × α)) = [] := rfl

theorem mem_keys : k ∈ keys m ↔ (get? m k).isSome := by
 induction m with
 | nil => simp [keys]
 | cons b m ih =>
  obtain ⟨k₀, w⟩ := b
  rw [get?_cons]
  simp only [keys, map_cons, mem_cons] at ih ⊢
  split
  next h =>
   simp [h]
  next h =>
   rw [← ih]
   simp [Ne.symm h]

variable {v : α}

theorem mem_of_get? (h : get? m k = some v) : (k, v) ∈ m := by
 induction m with
 | nil => simp at h
 | cons b m ih =>
  obtain ⟨k', w⟩ := b
  rw [get?_cons] at h
  split at h
  next hk =>
   injection h with h
   exact mem_cons.mpr (.inl (by rw [hk, h]))
  · exact mem_cons_of_mem _ (ih h)

theorem get?_eq_none : get? m k = none ↔ k ∉ keys m := by
 rw [mem_keys]
 cases get? m k <;> simp

theorem mem_insert (h : b ∈ insert m k v) : b = (k, v) ∨ b ∈ m := by
 induction m with
 | nil => exact .inl (mem_singleton.mp h)
 | cons c m ih =>
  obtain ⟨k₀, w⟩ := c
  rw [insert] at h
  split at h
  next hk =>
   rcases mem_cons.mp h with h | h
   · exact .inl (by rw [h, hk])
   · exact .inr (mem_cons_of_mem _ h)
  · rcases mem_cons.mp h with h | h
    · exact .inr (by rw [h]; exact mem_cons_self ..)
    · rcases ih h with h | h
      · exact .inl h
      · exact .inr (mem_cons_of_mem _ h)

/-- Binding a key to what it is bound to. -/
theorem insert_self (h : get? m k = some v) : insert m k v = m := by
 induction m with
 | nil => simp at h
 | cons b m ih =>
  obtain ⟨k₀, w⟩ := b
  rw [get?_cons] at h
  rw [insert]
  split at h
  next hk =>
   injection h with h
   rw [if_pos hk, hk, h]
  next hk =>
   rw [if_neg hk, ih h]

theorem insert_insert (m : List (κ × α)) (k : κ) (v w : α) :
 insert (insert m k v) k w = insert m k w := by
 induction m with
 | nil => simp [insert]
 | cons b m ih =>
  obtain ⟨k₀, u⟩ := b
  rw [insert, insert]
  by_cases hk : k₀ = k
  · simp [hk, insert]
  · simp [hk, insert, ih]

theorem erase_self (h : get? m k = none) : erase m k = m := by
 refine filter_eq_self.mpr fun b hb => ?_
 have hk : k ∉ keys m := get?_eq_none.mp h
 simpa using fun he : b.1 = k => hk (he ▸ mem_map_of_mem hb)

/-- A bound key is bound once: the map is that binding and the others. -/
theorem perm_erase (hd : (keys m).Nodup) (h : get? m k = some v) :
  m.Perm ((k, v) :: erase m k) := by
 induction m with
 | nil => simp at h
 | cons b m ih =>
  obtain ⟨k₀, w⟩ := b
  rw [keys_cons, nodup_cons] at hd
  rw [get?_cons] at h
  split at h
  next hk =>
   injection h with h
   subst hk h
   have hrest : erase m k₀ = m := erase_self (get?_eq_none.mpr hd.1)
   rw [erase, filter_cons_of_neg (by simp)]
   exact (show m.filter _ = m from hrest).symm ▸ List.Perm.refl _
  next hk =>
   rw [erase, filter_cons_of_pos (by simpa using hk)]
   exact ((ih hd.2 h).cons _).trans (List.Perm.swap ..)

theorem mem_erase (h : b ∈ erase m k) : b ∈ m := mem_of_mem_filter h

theorem mem_keys_erase {k' : κ} : k' ∈ keys (erase m k) ↔ k' ∈ keys m ∧ k' ≠ k := by
 rw [mem_keys, mem_keys, get?_erase]
 by_cases h : k = k'
 · simp [h]
 · simp [h, Ne.symm h]

theorem insert_of_not_mem (h : k ∉ keys m) (v : α) : insert m k v = m ++ [(k, v)] := by
 induction m with
 | nil => rfl
 | cons b m ih =>
  obtain ⟨k₀, w⟩ := b
  simp only [keys, map_cons, mem_cons, not_or] at h ih
  rw [insert, if_neg (Ne.symm h.1), ih h.2]
  rfl

/-! ## Distinct keys -/

theorem get?_of_mem (hd : (keys m).Nodup) (h : b ∈ m) : get? m b.1 = some b.2 := by
 induction m with
 | nil => simp at h
 | cons c m ih =>
  rw [keys_cons, nodup_cons] at hd
  rw [get?_cons]
  rcases mem_cons.mp h with rfl | h
  · rw [if_pos rfl]
  · have hne : c.1 ≠ b.1 := fun he => hd.1 (he ▸ mem_map_of_mem h)
    rw [if_neg hne, ih hd.2 h]

theorem keys_insert_of_mem (h : k ∈ keys m) (v : α) : keys (insert m k v) = keys m := by
 induction m with
 | nil => simp at h
 | cons b m ih =>
  rw [insert]
  split
  · rfl
  next hk =>
   rw [keys_cons, mem_cons] at h
   rw [keys_cons, keys_cons, ih (h.resolve_left fun he => hk he.symm)]

theorem nodup_insert (hd : (keys m).Nodup) (k : κ) (v : α) : (keys (insert m k v)).Nodup := by
 by_cases h : k ∈ keys m
 · rw [keys_insert_of_mem h]
   exact hd
 · rw [insert_of_not_mem h, keys_append]
   refine nodup_append.mpr ⟨hd, by simp [keys], ?_⟩
   rintro a ha b hb rfl
   rw [mem_singleton.mp hb] at ha
   exact h ha

theorem nodup_erase (hd : (keys m).Nodup) (k : κ) : (keys (erase m k)).Nodup :=
 hd.sublist (filter_sublist.map Prod.fst)

/-! ## Binding a list -/

/-- The map of some bindings; the last one of a key counts. -/
def ofList (bs : List (κ × α)) : List (κ × α) := bs.foldl (fun m b => insert m b.1 b.2) []

theorem ofList_snoc (bs : List (κ × α)) (b : κ × α) :
 ofList (bs ++ [b]) = insert (ofList bs) b.1 b.2 := by
 rw [ofList, foldl_append]
 rfl

theorem nodup_ofList (bs : List (κ × α)) : (keys (ofList bs)).Nodup := by
 induction bs using List.reverseRecOn with
 | nil => exact nodup_nil
 | append_singleton bs b ih =>
  rw [ofList_snoc]
  exact nodup_insert ih _ _

theorem mem_ofList {bs : List (κ × α)} (h : b ∈ ofList bs) : b ∈ bs := by
 induction bs using List.reverseRecOn with
 | nil => exact h
 | append_singleton bs c ih =>
  rw [ofList_snoc] at h
  rw [mem_append]
  rcases mem_insert h with rfl | h
  · exact .inr (mem_singleton_self _)
  · exact .inl (ih h)

theorem ofList_of_nodup {bs : List (κ × α)} (h : (keys bs).Nodup) : ofList bs = bs := by
 induction bs using List.reverseRecOn with
 | nil => rfl
 | append_singleton bs b ih =>
  rw [keys_append, nodup_append] at h
  rw [ofList_snoc, ih h.1, insert_of_not_mem]
  exact fun hb => h.2.2 _ hb b.1 (by simp [keys]) rfl

theorem insert_map {β : Type} (f : α → β) (m : List (κ × α)) (k : κ) (v : α) :
 (insert m k v).map (fun b => (b.1, f b.2)) = insert (m.map fun b => (b.1, f b.2)) k (f v) := by
 induction m with
 | nil => rfl
 | cons b m ih =>
  rw [map_cons, insert, insert]
  split
  · rfl
  · rw [map_cons, ih]

theorem ofList_map {β : Type} (f : α → β) (bs : List (κ × α)) :
 (ofList bs).map (fun b => (b.1, f b.2)) = ofList (bs.map fun b => (b.1, f b.2)) := by
 induction bs using List.reverseRecOn with
 | nil => rfl
 | append_singleton bs b ih =>
  rw [ofList_snoc, insert_map, ih, map_append, map_singleton, ofList_snoc]

end OrdMap
