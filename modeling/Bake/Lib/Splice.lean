import Mathlib.Data.List.Nodup
import Mathlib.Algebra.GroupWithZero.Nat

/-!
# Replacing regions of a list

Regions in order that share nothing, each with what takes its place. `Replaces` says what
replacing all of them at once comes to: the same gaps in the same order, and nothing else
moved. Replacing them one by one from the back comes to that (`replaces_fromBack`), and so
does what a map of every element makes of both lists (`Replaces.flatMap`).
-/

open List

namespace Splice

variable {α β : Type}

/-- A region of a list, and what takes its place. -/
structure Region (α : Type) where
 start : Nat
 old : List α
 new : List α

/-- The regions are in order between two places and share nothing. -/
def Ordered : Nat → Nat → List (Region α) → Prop
 | low, high, [] => low ≤ high
 | low, high, r :: rs => low ≤ r.start ∧ Ordered (r.start + r.old.length) high rs

inductive Replaces : Nat → List (Region α) → List α → List α → Prop
 | nil (place : Nat) (gap : List α) : Replaces place [] gap gap
 | cons {place : Nat} {gap text text' : List α} {r : Region α} {rs : List (Region α)} :
  r.start = place + gap.length → Replaces (r.start + r.old.length) rs text text' →
  Replaces place (r :: rs) (gap ++ r.old ++ text) (gap ++ r.new ++ text')

/-- One region of a list that begins at `place`, replaced. -/
def replaceOne (place : Nat) (r : Region α) (text : List α) : List α :=
 text.take (r.start - place) ++ r.new ++ text.drop (r.start - place + r.old.length)

def fromBack (place : Nat) (rs : List (Region α)) (text : List α) : List α :=
 rs.foldr (replaceOne place) text

/-- What a region says stands there. -/
def Matches (place : Nat) (text : List α) (r : Region α) : Prop :=
 (text.drop (r.start - place)).take r.old.length = r.old

variable {high low place : Nat} {rs : List (Region α)} {text text' : List α}

theorem Ordered.le (h : Ordered low high rs) : low ≤ high := by
 induction rs generalizing low with
 | nil => exact h
 | cons r rs ih =>
  have := ih h.2
  have := h.1
  omega

theorem Ordered.low_le (h : Ordered low high rs) :
 ∀ r ∈ rs, low ≤ r.start ∧ r.start + r.old.length ≤ high := by
 induction rs generalizing low with
 | nil => simp
 | cons r rs ih =>
  rintro r' hr'
  rcases mem_cons.mp hr' with rfl | hr'
  · exact ⟨h.1, h.2.le⟩
  · have := ih h.2 r' hr'
    have := h.1
    omega

theorem Ordered.pairwise (h : Ordered low high rs) :
 rs.Pairwise fun a b => a.start + a.old.length ≤ b.start := by
 induction rs generalizing low with
 | nil => exact .nil
 | cons r rs ih => exact .cons (fun b hb => (h.2.low_le b hb).1) (ih h.2)

theorem ordered_of_pairwise (hle : low ≤ high)
 (hbetween : ∀ r ∈ rs, low ≤ r.start ∧ r.start + r.old.length ≤ high)
 (hapart : rs.Pairwise fun a b => a.start + a.old.length ≤ b.start) : Ordered low high rs := by
 induction rs generalizing low with
 | nil => exact hle
 | cons r rs ih =>
  obtain ⟨hfirst, hrest⟩ := pairwise_cons.mp hapart
  obtain ⟨hlow, hhigh⟩ := hbetween r (mem_cons_self ..)
  exact ⟨hlow, ih hhigh (fun b hb => ⟨hfirst b hb, (hbetween b (mem_cons_of_mem _ hb)).2⟩) hrest⟩

/-- **Regions that are apart and not empty are in one order only.** -/
theorem Ordered.unique {ts : List (Region α)} (h : Ordered low high rs) (hne : ∀ r ∈ rs, r.old ≠ [])
 (hperm : rs.Perm ts) (hsorted : ts.Pairwise fun a b => a.start ≤ b.start) : rs = ts := by
 have hlt : rs.Pairwise fun a b => a.start < b.start := by
  refine (pairwise_iff_forall_sublist.mpr fun {a b} hab => ?_)
  have hle := pairwise_iff_forall_sublist.mp h.pairwise hab
  have := length_pos_iff.mpr (hne a (hab.subset (mem_cons_self ..)))
  omega
 have hnodup : (rs.map Region.start).Nodup := by
  rw [List.Nodup, pairwise_map]
  exact hlt.imp fun hab => Nat.ne_of_lt hab
 refine hperm.eq_of_pairwise (fun a b ha hb hab hba => ?_) (hlt.imp Nat.le_of_lt) hsorted
 exact inj_on_of_nodup_map hnodup ha (hperm.mem_iff.mpr hb) (Nat.le_antisymm hab hba)

theorem fromBack_cons (place : Nat) (r : Region α) (rs : List (Region α)) (text : List α) :
 fromBack place (r :: rs) text = replaceOne place r (fromBack place rs text) := rfl

theorem replaceOne_at {r : Region α} {gap : List α} (h : r.start = place + gap.length)
 (back : List α) : replaceOne place r (gap ++ r.old ++ back) = gap ++ r.new ++ back := by
 have hstart : r.start - place = gap.length := by omega
 rw [replaceOne, hstart, ← length_append, drop_left, append_assoc gap, take_left]

theorem fromBack_append (front : List α) (text : List α)
 (h : ∀ r ∈ rs, place + front.length ≤ r.start) :
 fromBack place rs (front ++ text) = front ++ fromBack (place + front.length) rs text := by
 induction rs with
 | nil => rfl
 | cons r rs ih =>
  have hr := h r (mem_cons_self ..)
  have hstart : r.start - place = front.length + (r.start - (place + front.length)) := by omega
  rw [fromBack_cons, ih fun r' hr' => h r' (mem_cons_of_mem _ hr'), fromBack_cons,
   replaceOne, replaceOne, hstart, take_length_add_append, Nat.add_assoc,
   drop_length_add_append]
  simp only [append_assoc]

/-- **From the back the places stay right**: one by one comes to all at once. -/
theorem replaces_fromBack (hordered : Ordered place (place + text.length) rs)
 (hmatches : ∀ r ∈ rs, Matches place text r) :
 Replaces place rs text (fromBack place rs text) := by
 induction rs generalizing place text with
 | nil => exact .nil place text
 | cons r rs ih =>
  obtain ⟨hlow, hrest⟩ := hordered
  have hhigh := hrest.le
  obtain ⟨gap, back, htext, hgap⟩ : ∃ gap back, text = gap ++ r.old ++ back
   ∧ r.start = place + gap.length := by
   refine ⟨text.take (r.start - place), text.drop (r.start - place + r.old.length), ?_, ?_⟩
   · have hold := hmatches r (mem_cons_self ..)
     unfold Matches at hold
     conv => lhs; rw [← take_append_drop (r.start - place) text,
      ← take_append_drop r.old.length (text.drop (r.start - place)), hold,
      drop_drop]
     rw [append_assoc]
   · rw [length_take]
     omega
  subst htext
  have hback : fromBack place rs (gap ++ r.old ++ back)
   = gap ++ r.old ++ fromBack (r.start + r.old.length) rs back := by
   rw [fromBack_append, length_append, ← Nat.add_assoc, ← hgap]
   intro r' hr'
   have := (hrest.low_le r' hr').1
   rw [length_append]
   omega
  have hone : fromBack place (r :: rs) (gap ++ r.old ++ back)
   = gap ++ r.new ++ fromBack (r.start + r.old.length) rs back := by
   rw [fromBack_cons, hback, replaceOne_at hgap]
  rw [hone]
  refine .cons hgap (ih ?_ ?_)
  · simp only [length_append] at hrest
    have : r.start + r.old.length + back.length
     = place + (gap.length + r.old.length + back.length) := by omega
    rw [this]
    exact hrest
  · intro r' hr'
    have hlow' := (hrest.low_le r' hr').1
    have hm := hmatches r' (mem_cons_of_mem _ hr')
    have hstart : r'.start - place
     = (gap ++ r.old).length + (r'.start - (r.start + r.old.length)) := by
     rw [length_append]
     omega
    unfold Matches at hm ⊢
    rw [hstart, drop_length_add_append] at hm
    exact hm

theorem Replaces.length (h : Replaces place rs text text') :
 text.length + (rs.map fun r => r.new.length).sum
  = text'.length + (rs.map fun r => r.old.length).sum := by
 induction h with
 | nil place gap => rfl
 | @cons place gap text text' r rs _ _ ih =>
  simp only [length_append, map_cons, sum_cons]
  omega

/-! ## Regions of an image -/

/-- A region of what `f` makes of a list, element by element. -/
def Region.image (f : α → List β) (text : List α) (r : Region α) : Region β where
 start := ((text.take r.start).flatMap f).length
 old := r.old.flatMap f
 new := r.new.flatMap f

/-- **A map of every element replaces the images of the regions**, and nothing else. -/
theorem Replaces.flatMap (f : α → List β) (h : Replaces 0 rs text text') :
 Replaces 0 (rs.map (Region.image f text)) (text.flatMap f) (text'.flatMap f) := by
 -- in the middle of the list, behind `front`
 suffices hmid : ∀ {place : Nat} {rs : List (Region α)} {text text' : List α},
  Replaces place rs text text' → ∀ front : List α, front.length = place →
   Replaces (front.flatMap f).length (rs.map (Region.image f (front ++ text)))
    (text.flatMap f) (text'.flatMap f) from hmid h [] rfl
 intro place rs text text' h
 induction h with
 | nil place gap => exact fun front _ => .nil _ _
 | @cons place gap text text' r rs hstart _ ih =>
  rintro front rfl
  have htake : (front ++ (gap ++ r.old ++ text)).take r.start = front ++ gap := by
   rw [hstart, take_length_add_append, append_assoc, take_left]
  have hfront : (front ++ gap ++ r.old).length = r.start + r.old.length := by
   simp only [length_append]
   omega
  have hwhole : front ++ gap ++ r.old ++ text = front ++ (gap ++ r.old ++ text) := by simp
  have hnext := ih (front ++ gap ++ r.old) hfront
  rw [hwhole] at hnext
  generalize hr : Region.image f (front ++ (gap ++ r.old ++ text)) r = image
  have himage : image.start = (front.flatMap f).length + (gap.flatMap f).length
   ∧ image.old = r.old.flatMap f ∧ image.new = r.new.flatMap f := by
   subst hr
   exact ⟨by rw [Region.image, htake, flatMap_append, length_append], rfl, rfl⟩
  obtain ⟨hs, hold, hnew⟩ := himage
  rw [map_cons, hr, flatMap_append, flatMap_append, flatMap_append, flatMap_append, ← hold, ← hnew]
  refine .cons hs ?_
  rw [hs, hold]
  simpa only [flatMap_append, length_append] using hnext

/-! ## Regions behind a front -/

/-- A region of a list that has got `front` elements in front. -/
def Region.shift (front : Nat) (r : Region α) : Region α := { r with start := front + r.start }

theorem Replaces.shift (front : Nat) (h : Replaces place rs text text') :
 Replaces (front + place) (rs.map (Region.shift front)) text text' := by
 induction h with
 | nil place gap => exact .nil _ _
 | @cons place gap text text' r rs hstart _ ih =>
  refine .cons (r := r.shift front) ?_ ?_
  · rw [Region.shift, hstart, Nat.add_assoc]
  · rw [← Nat.add_assoc] at ih
    exact ih

theorem Replaces.front (front : List α) (h : Replaces 0 rs text text') :
 Replaces 0 (rs.map (Region.shift front.length)) (front ++ text) (front ++ text') := by
 have hshift := h.shift front.length
 generalize rs.map (Region.shift front.length) = rs at hshift
 cases hshift with
 | nil => exact .nil 0 _
 | @cons _ gap text text' r rs hstart hrest =>
  rw [← append_assoc, ← append_assoc, ← append_assoc, ← append_assoc]
  refine .cons ?_ hrest
  rw [hstart, length_append]
  omega

end Splice
