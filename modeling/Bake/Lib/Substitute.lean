import Bake.Lib.Journal
import Mathlib.Data.List.Nodup
import Mathlib.Algebra.GroupWithZero.Nat

/-!
# Substitution

Parts of a list replaced by texts, all at once or one part after the other. Parts between
brackets do not overlap, so the two come to the same exactly where no text that is put in
makes a place for a part that is replaced later (`inTurn_eq`, `untouched_of_eq`).
-/

open List

namespace Substitute

variable {α : Type}

/-- The part has its first and its last element nowhere else, so that no two such parts
overlap. -/
def Bracketed (first last : α) (part : List α) : Prop :=
 ∃ inner, part = first :: (inner ++ [last]) ∧ first ∉ inner ++ [last] ∧ last ∉ inner

structure Distinct (first last : α) (table : List (List α × List α)) : Prop where
 bracketed : ∀ entry ∈ table, Bracketed first last entry.1
 nodup : (table.map Prod.fst).Nodup

variable {first last : α} {table : List (List α × List α)} {entry : List α × List α}
 {part text other front rest new : List α}

theorem Bracketed.head {c : α} (h : Bracketed first last part) (hbegins : part <+: c :: rest) :
 c = first := by
 obtain ⟨inner, rfl, -, -⟩ := h
 exact (cons_prefix_cons.mp hbegins).1.symm

theorem Distinct.of_snoc (h : Distinct first last (table ++ [entry])) :
 Distinct first last table ∧ Bracketed first last entry.1 ∧ entry.1 ∉ table.map Prod.fst := by
 have hnodup := h.nodup
 rw [map_append, nodup_append] at hnodup
 exact ⟨⟨fun e he => h.bracketed e (mem_append_left _ he), hnodup.1⟩,
  h.bracketed entry (by simp), fun hmem => hnodup.2.2 _ hmem _ (by simp) rfl⟩

variable [DecidableEq α]

/-- Every part of the table replaced by its text, all at once from the left, behind `skip`
elements that are passed over: what is put in is not looked at again. -/
def substitute (table : List (List α × List α)) : Nat → List α → List α
 | _, [] => []
 | skip + 1, _ :: text => substitute table skip text
 | 0, c :: text =>
  match table.find? fun entry => entry.1.isPrefixOf (c :: text) with
  | some entry => entry.2 ++ substitute table (entry.1.length - 1) text
  | none => c :: substitute table 0 text

/-- The parts replaced one after the other, each in what the ones before it left. -/
def inTurn (table : List (List α × List α)) (text : List α) : List α :=
 table.foldl (fun text entry => substitute [entry] 0 text) text

/-- How many places `part` has in `text`. -/
def places (part text : List α) : Nat := text.tails.countP part.isPrefixOf

/-- What is put in makes no new place for a part that is replaced later. -/
def Untouched (table : List (List α × List α)) (text : List α) : Prop :=
 History.Valid (fun before entry =>
  places entry.1 (substitute before 0 text) = places entry.1 text) table

theorem substitute_skip (skip : Nat) (text : List α) :
 substitute table skip text = substitute table 0 (text.drop skip) := by
 induction text generalizing skip with
 | nil => simp [substitute]
 | cons c text ih =>
  cases skip with
  | zero => rfl
  | succ skip => exact ih skip

theorem substitute_none (text : List α) : substitute [] 0 text = text := by
 induction text with
 | nil => rfl
 | cons c text ih => rw [substitute, find?_nil, ih]

theorem substitute_cons {c : α} (h : ∀ entry ∈ table, ¬ entry.1 <+: c :: rest) :
 substitute table 0 (c :: rest) = c :: substitute table 0 rest := by
 rw [substitute, find?_eq_none.mpr fun entry hentry => by simpa using h entry hentry]

theorem places_cons (c : α) : places part (c :: rest)
 = places part rest + if part <+: c :: rest then 1 else 0 := by
 simp [places, countP_cons]

theorem places_le_append (part front rest : List α) :
 places part rest ≤ places part (front ++ rest) := by
 induction front with
 | nil => exact Nat.le_refl _
 | cons c front ih =>
  rw [cons_append, places_cons]
  omega

theorem substitute_front (h : places part (front ++ rest) = places part rest) :
 substitute [(part, new)] 0 (front ++ rest) = front ++ substitute [(part, new)] 0 rest := by
 induction front with
 | nil => rfl
 | cons c front ih =>
  rw [cons_append, places_cons] at h
  have hle := places_le_append part front rest
  split at h
  · omega
  next hnot =>
   rw [cons_append, substitute_cons (by simpa using hnot), ih h, cons_append]

theorem Bracketed.eq_of_begins (h : Bracketed first last part)
 (hother : Bracketed first last other) (hbegins : other <+: part ++ rest) : other = part := by
 obtain ⟨inner, rfl, -, hlast⟩ := h
 obtain ⟨inner', rfl, -, hlast'⟩ := hother
 obtain ⟨back, hback⟩ := hbegins
 have heq : inner' ++ last :: back = inner ++ last :: rest := by simpa using hback
 have hfront : ∀ {l s : List α}, last ∉ l → (l ++ last :: s).takeWhile (· ≠ last) = l :=
  fun hl => by
   rw [takeWhile_append_of_pos fun a ha => by simpa using ne_of_mem_of_not_mem ha hl]
   simp
 rw [← hfront hlast', heq, hfront hlast]

theorem places_behind (h : Bracketed first last part) (hfront : first ∉ front) :
 places part (front ++ rest) = places part rest := by
 induction front with
 | nil => rfl
 | cons c front ih =>
  rw [mem_cons, not_or] at hfront
  rw [cons_append, places_cons, ih hfront.2, if_neg fun hp => hfront.1 (h.head hp).symm]
  rfl

theorem places_piece (h : Bracketed first last part) (hother : Bracketed first last other) :
 places part (other ++ rest) = places part rest + if part = other then 1 else 0 := by
 have hiff : part <+: other ++ rest ↔ part = other :=
  ⟨hother.eq_of_begins h, fun heq => heq ▸ prefix_append ..⟩
 obtain ⟨inner, rfl, hfirst, -⟩ := hother
 rw [cons_append, places_cons, places_behind h hfirst, ← cons_append]
 simp only [hiff]

namespace Distinct

theorem substitute_piece (h : Distinct first last table) (hentry : entry ∈ table) :
 substitute table 0 (entry.1 ++ rest) = entry.2 ++ substitute table 0 rest := by
 obtain ⟨inner, hpart, -, -⟩ := h.bracketed entry hentry
 have hfind : table.find? (fun e => e.1.isPrefixOf (entry.1 ++ rest)) = some entry := by
  cases hf : table.find? fun e => e.1.isPrefixOf (entry.1 ++ rest) with
  | none => simpa using find?_eq_none.mp hf entry hentry
  | some e =>
   have hmem := mem_of_find?_eq_some hf
   have hbegins := find?_some hf
   have hkey := (h.bracketed entry hentry).eq_of_begins (h.bracketed e hmem)
    ( isPrefixOf_iff_prefix.mp hbegins)
   rw [inj_on_of_nodup_map h.nodup hmem hentry hkey]
 rw [hpart, cons_append] at hfind ⊢
 rw [substitute, hfind]
 show entry.2 ++ substitute table (entry.1.length - 1) _ = _
 rw [substitute_skip, hpart, length_cons, Nat.add_sub_cancel, drop_left]

theorem substitute_other (h : Distinct first last table) (hpart : Bracketed first last part)
 (hnot : part ∉ table.map Prod.fst) :
 substitute table 0 (part ++ rest) = part ++ substitute table 0 rest := by
 have hbehind : ∀ front : List α, first ∉ front →
  substitute table 0 (front ++ rest) = front ++ substitute table 0 rest := by
  intro front hfront
  induction front with
  | nil => rfl
  | cons c front ih =>
   rw [mem_cons, not_or] at hfront
   rw [cons_append, substitute_cons fun entry hentry hp =>
    hfront.1 ((h.bracketed entry hentry).head hp).symm, ih hfront.2, cons_append]
 have hnone : ∀ entry ∈ table, ¬ entry.1 <+: part ++ rest := fun entry hentry hp =>
  hnot (hpart.eq_of_begins (h.bracketed entry hentry) hp ▸ mem_map_of_mem hentry)
 obtain ⟨inner, rfl, hfirst, -⟩ := hpart
 rw [cons_append] at hnone ⊢
 rw [substitute_cons hnone, hbehind _ hfirst, cons_append]

/-- A text is made of the parts of a table and of what stands between them. -/
theorem pieces_induction {motive : List α → Prop} (h : Distinct first last table)
 (nil : motive []) (plain : ∀ c rest, (∀ entry ∈ table, ¬ entry.1 <+: c :: rest) →
  motive rest → motive (c :: rest))
 (piece : ∀ entry ∈ table, ∀ rest, motive rest → motive (entry.1 ++ rest)) (text : List α) :
 motive text := by
 induction hn : text.length using Nat.strongRecOn generalizing text with
 | ind n ih =>
  cases text with
  | nil => exact nil
  | cons c rest =>
   by_cases hbegins : ∃ entry ∈ table, entry.1 <+: c :: rest
   · obtain ⟨entry, hentry, back, hback⟩ := hbegins
     obtain ⟨inner, hpart, -, -⟩ := h.bracketed entry hentry
     rw [← hback] at hn ⊢
     refine piece entry hentry back (ih back.length ?_ back rfl)
     rw [hpart] at hn
     simp at hn
     omega
   · refine plain c rest (fun entry hentry hp => hbegins ⟨entry, hentry, hp⟩)
      (ih rest.length ?_ rest rfl)
     simp at hn
     omega

/-- **One more part**: it loses no place by the others, it may be replaced after them where it
gained none, and each of its places changes the weight by what stands there then. -/
theorem substitute_snoc (h : Distinct first last (table ++ [entry])) (weigh : α → Nat)
 (text : List α) :
 places entry.1 text ≤ places entry.1 (substitute table 0 text)
 ∧ (places entry.1 (substitute table 0 text) = places entry.1 text →
  substitute [entry] 0 (substitute table 0 text) = substitute (table ++ [entry]) 0 text)
 ∧ ((substitute (table ++ [entry]) 0 text).map weigh).sum
  + places entry.1 text * (entry.1.map weigh).sum
  = ((substitute table 0 text).map weigh).sum + places entry.1 text * (entry.2.map weigh).sum := by
 obtain ⟨htable, hpart, hnot⟩ := h.of_snoc
 have hself : Distinct first last [entry] := ⟨by simpa using hpart, by simp⟩
 induction text using h.pieces_induction with
 | nil =>
  obtain ⟨inner, hinner, -, -⟩ := hpart
  simp [substitute, places, hinner]
 | plain c rest hnone ih =>
  have hplain : ¬ entry.1 <+: c :: rest := hnone entry (by simp)
  rw [substitute_cons fun e he => hnone e (mem_append_left _ he), substitute_cons hnone,
   places_cons, if_neg hplain, Nat.add_zero]
  refine ⟨Nat.le_trans ih.1 (places_le_append _ [c] _), fun heq => ?_, by
   simp only [map_cons, sum_cons]; have := ih.2.2; omega⟩
  have hle := places_le_append entry.1 [c] (substitute table 0 rest)
  rw [singleton_append, heq] at hle
  have hrest := Nat.le_antisymm hle ih.1
  rw [← ih.2.1 hrest]
  exact substitute_front (show places entry.1 ([c] ++ _) = _ from heq.trans hrest.symm)
 | piece e hmem rest ih =>
  rw [h.substitute_piece hmem, places_piece hpart (h.bracketed e hmem)]
  rcases mem_append.mp hmem with he | he
  · have hne : entry.1 ≠ e.1 := fun heq => hnot (heq ▸ mem_map_of_mem he)
    rw [htable.substitute_piece he, if_neg hne, Nat.add_zero]
    have hle := places_le_append entry.1 e.2 (substitute table 0 rest)
    refine ⟨Nat.le_trans ih.1 hle, fun heq => ?_, by
     simp only [map_append, sum_append]; have := ih.2.2; omega⟩
    rw [heq] at hle
    have hrest := Nat.le_antisymm hle ih.1
    rw [← ih.2.1 hrest]
    exact substitute_front (heq.trans hrest.symm)
  · obtain rfl := mem_singleton.mp he
    rw [htable.substitute_other hpart hnot, places_piece hpart hpart, if_pos rfl]
    refine ⟨Nat.succ_le_succ ih.1, fun heq => ?_, ?_⟩
    · rw [hself.substitute_piece (by simp), ih.2.1 (Nat.succ.inj heq)]
    · simp only [map_append, sum_append, Nat.add_mul]
      have := ih.2.2
      omega

theorem inTurn_snoc : inTurn (table ++ [entry]) text = substitute [entry] 0 (inTurn table text) := by
 simp [inTurn]

/-- **In turn is at once** where no text makes a place for a later part. -/
theorem inTurn_eq (h : Distinct first last table) (huntouched : Untouched table text) :
 inTurn table text = substitute table 0 text := by
 induction table using List.reverseRecOn with
 | nil => exact (substitute_none text).symm
 | append_singleton table entry ih =>
  obtain ⟨hbefore, hlast⟩ := History.valid_snoc.mp huntouched
  rw [inTurn_snoc, ih h.of_snoc.1 hbefore]
  exact (h.substitute_snoc (fun _ => 0) text).2.1 hlast

theorem places_le_inTurn (h : Distinct first last (table ++ [entry])) :
 places entry.1 text ≤ places entry.1 (inTurn table text) := by
 induction table using List.reverseRecOn with
 | nil => exact Nat.le_refl _
 | append_singleton table e ih =>
  have hnodup := h.nodup
  have hsub : table ++ [entry] <+ table ++ [e] ++ [entry] := by simp
  have hpair : [e] ++ [entry] <+ table ++ [e] ++ [entry] := by simp
  have hof : ∀ {t}, t <+ table ++ [e] ++ [entry] → Distinct first last t := fun ht =>
   ⟨fun x hx => h.bracketed x (ht.subset hx), (ht.map _).nodup hnodup⟩
  rw [inTurn_snoc]
  exact Nat.le_trans (ih (hof hsub)) ((hof hpair).substitute_snoc (fun _ => 0) _).1

/-- **In turn is only then at once**, where every part is lighter than its text. -/
theorem untouched_of_eq (h : Distinct first last table) (weigh : α → Nat)
 (hheavy : ∀ entry ∈ table, (entry.1.map weigh).sum < (entry.2.map weigh).sum) :
 ((substitute table 0 text).map weigh).sum ≤ ((inTurn table text).map weigh).sum
 ∧ (((inTurn table text).map weigh).sum = ((substitute table 0 text).map weigh).sum →
  Untouched table text) := by
 induction table using List.reverseRecOn with
 | nil => exact ⟨by rw [substitute_none]; exact Nat.le_refl _, fun _ _ _ _ h => by simp at h⟩
 | append_singleton table entry ih =>
  obtain ⟨hle, huntouched⟩ := ih h.of_snoc.1 fun e he => hheavy e (mem_append_left _ he)
  obtain ⟨δ, hδ⟩ := Nat.exists_eq_add_of_lt (hheavy entry (by simp))
  have hself : Distinct first last ([] ++ [entry]) := ⟨by simpa using h.of_snoc.2.1, by simp⟩
  have hat := (h.substitute_snoc weigh text).2.2
  have hin := (hself.substitute_snoc weigh (inTurn table text)).2.2
  have hplaces : places entry.1 text ≤ _ := h.places_le_inTurn
  rw [substitute_none, nil_append] at hin
  rw [inTurn_snoc]
  simp only [hδ, Nat.add_assoc, Nat.mul_add] at hat hin
  have hmul := Nat.mul_le_mul_right (δ + 1) hplaces
  simp only [Nat.mul_add] at hmul
  refine ⟨by omega, fun heq => ?_⟩
  have hsame : ((inTurn table text).map weigh).sum = ((substitute table 0 text).map weigh).sum :=
   by omega
  have hcount : places entry.1 (inTurn table text) = places entry.1 text :=
   Nat.eq_of_mul_eq_mul_right (Nat.succ_pos δ) (by simp only [Nat.succ_eq_add_one, Nat.mul_add]; omega)
  have hbefore := huntouched hsame
  rw [h.of_snoc.1.inTurn_eq hbefore] at hcount
  exact History.valid_snoc.mpr ⟨hbefore, hcount⟩

end Distinct
end Substitute
