import Bake.Lib.Run
import Bake.Tools.EditDiff

/-!
# How edits are applied

The steps of `apply_edits_to_normalized_content` taken apart: what is known of each edit's match
(`matchEdits_ok`), and of the whole where the edits are applied (`apply_ok`).
-/

open List

namespace Bake.Tools

variable {nfkc : List Char → List Char} {content base : List Char} {edits : List Edit}

def editBase (nfkc : List Char → List Char) (content : List Char) (edits : List Edit) :
 List Char :=
 if usesFuzzy nfkc content (normalizeEdits edits) then normalizeForFuzzyMatch nfkc content
 else content

structure Matched (nfkc : List Char → List Char) (base : List Char) (edit : Edit)
 (replacement : Replacement) : Prop where
 found : ∃ found, fuzzyFindText nfkc base edit.oldText = some found
  ∧ replacement.index = found.index ∧ replacement.length = found.matchLength
 counted : countOccurrences nfkc base edit.oldText ≤ 1
 newText : replacement.newText = edit.newText

variable {matched : List Replacement} {R : Edit → Replacement → Prop}

theorem matchEdits_ok {k : Nat} (h : matchEdits nfkc base k edits = .ok matched) :
 List.Forall₂ (Matched nfkc base) edits matched := by
 induction edits generalizing k matched with
 | nil =>
  cases h
  exact .nil
 | cons edit edits ih =>
  rw [matchEdits] at h
  split at h
  next found hfound =>
   simp only at h
   split at h
   · simp at h
   next hcount =>
    obtain ⟨rest, hrest, h⟩ := Except.bind_ok h
    cases h
    exact .cons ⟨⟨found, hfound, rfl, rfl⟩, Nat.not_lt.mp hcount, rfl⟩ (ih hrest)
  · simp at h

theorem exists_match (h : List.Forall₂ R edits matched) {edit : Edit} (hedit : edit ∈ edits) :
 ∃ r ∈ matched, R edit r := by
 induction h with
 | nil => simp at hedit
 | cons hfirst _ ih =>
  rcases mem_cons.mp hedit with rfl | hedit
  · exact ⟨_, mem_cons_self .., hfirst⟩
  · obtain ⟨r, hr, hmatched⟩ := ih hedit
    exact ⟨r, mem_cons_of_mem _ hr, hmatched⟩

theorem exists_edit (h : List.Forall₂ R edits matched) {r : Replacement} (hr : r ∈ matched) :
 ∃ edit ∈ edits, R edit r := by
 induction h with
 | nil => simp at hr
 | cons hfirst _ ih =>
  rcases mem_cons.mp hr with rfl | hr
  · exact ⟨_, mem_cons_self .., hfirst⟩
  · obtain ⟨edit, hedit, hmatched⟩ := ih hr
    exact ⟨edit, mem_cons_of_mem _ hedit, hmatched⟩

theorem fuzzyFindText_some {oldText : List Char} {found : FuzzyMatch}
 (h : fuzzyFindText nfkc base oldText = some found) :
 (Search.find oldText base = some found.index ∧ found.matchLength = oldText.length)
  ∨ (Search.find oldText base = none
   ∧ Search.find (normalizeForFuzzyMatch nfkc oldText) (normalizeForFuzzyMatch nfkc base)
    = some found.index
   ∧ found.matchLength = (normalizeForFuzzyMatch nfkc oldText).length) := by
 rw [fuzzyFindText] at h
 cases hfind : Search.find oldText base with
 | some index =>
  rw [hfind] at h
  cases h
  exact Or.inl ⟨rfl, rfl⟩
 | none =>
  rw [hfind] at h
  obtain ⟨index, hindex, h⟩ := Option.bind_eq_some_iff.mp h
  cases h
  exact Or.inr ⟨rfl, hindex, rfl⟩

variable {rs : List Replacement}

theorem firstOverlap_eq_none :
 firstOverlap rs = none ↔ rs.Pairwise fun a b => a.index + a.length ≤ b.index := by
 induction rs with
 | nil => simp [firstOverlap]
 | cons first rest ih =>
  cases rest with
  | nil => simp [firstOverlap]
  | cons second rest =>
   rw [firstOverlap, pairwise_cons]
   split
   next hover =>
    simp only [reduceCtorEq, false_iff, not_and]
    intro hfirst
    exact absurd (hfirst second (mem_cons_self ..)) (Nat.not_le.mpr hover)
   next hover =>
    rw [ih]
    refine ⟨fun hrest => ⟨fun b hb => ?_, hrest⟩, And.right⟩
    rcases mem_cons.mp hb with rfl | hb
    · exact Nat.not_lt.mp hover
    · have := (pairwise_cons.mp hrest).1 b hb
      omega

theorem firstOverlap_eq_some {a b : Replacement}
 (h : firstOverlap rs = some (a, b)) : a ∈ rs ∧ b ∈ rs ∧ b.index < a.index + a.length := by
 induction rs with
 | nil => simp [firstOverlap] at h
 | cons first rest ih =>
  cases rest with
  | nil => simp [firstOverlap] at h
  | cons second rest =>
   rw [firstOverlap] at h
   split at h
   next hover =>
    injection h with h
    cases h
    exact ⟨by simp, by simp, hover⟩
   · obtain ⟨ha, hb, hover⟩ := ih h
     exact ⟨mem_cons_of_mem _ ha, mem_cons_of_mem _ hb, hover⟩

variable (replacements : List Replacement)

theorem sortByIndex_perm : (sortByIndex replacements).Perm replacements := perm_insertionSort _ _

theorem sortByIndex_sorted : (sortByIndex replacements).Pairwise fun a b => a.index ≤ b.index :=
 pairwise_insertionSort _ replacements

/-! ## The steps of an application -/

def writeMatches (nfkc : List Char → List Char) (content : List Char) (edits : List Edit)
 (matched : List Replacement) : Except EditError (List Char) :=
 if usesFuzzy nfkc content (normalizeEdits edits) then
  applyReplacementsPreservingUnchangedLines content (editBase nfkc content edits)
   (sortByIndex matched)
 else .ok (applyReplacements (editBase nfkc content edits) (sortByIndex matched) 0)

theorem apply_nonempty (hne : ∀ edit ∈ normalizeEdits edits, edit.oldText ≠ []) :
 applyEditsToNormalizedContent nfkc content edits
  = matchEdits nfkc (editBase nfkc content edits) 0 (normalizeEdits edits) >>= fun matched =>
   match firstOverlap (sortByIndex matched) with
   | some (first, second) => .error (.overlapping first.editIndex second.editIndex)
   | none => writeMatches nfkc content edits matched >>= fun newContent =>
    if content = newContent then .error .noChange
    else .ok { baseContent := content, newContent } := by
 have hfirst : (normalizeEdits edits).findIdx? (·.oldText.isEmpty) = none := by
  simpa [findIdx?_eq_none_iff] using hne
 rw [applyEditsToNormalizedContent]
 simp only [hfirst, Except.ite_bind]
 rfl

structure Applies (nfkc : List Char → List Char) (content : List Char) (edits : List Edit)
 (matched : List Replacement) (applied : AppliedEdits) : Prop where
 nonempty : ∀ edit ∈ normalizeEdits edits, edit.oldText ≠ []
 found : matchEdits nfkc (editBase nfkc content edits) 0 (normalizeEdits edits) = .ok matched
 apart : firstOverlap (sortByIndex matched) = none
 written : writeMatches nfkc content edits matched = .ok applied.newContent
 changed : content ≠ applied.newContent
 baseContent : applied.baseContent = content

theorem apply_ok {applied : AppliedEdits} :
 applyEditsToNormalizedContent nfkc content edits = .ok applied
  ↔ ∃ matched, Applies nfkc content edits matched applied := by
 constructor
 · intro h
   have hne : ∀ edit ∈ normalizeEdits edits, edit.oldText ≠ [] := by
    cases hfirst : (normalizeEdits edits).findIdx? (·.oldText.isEmpty) with
    | none => simpa [findIdx?_eq_none_iff] using hfirst
    | some index =>
     rw [applyEditsToNormalizedContent] at h
     simp only [hfirst] at h
     simp at h
   rw [apply_nonempty hne] at h
   obtain ⟨matched, hmatched, h⟩ := Except.bind_ok h
   split at h
   · simp at h
   next hoverlap =>
    obtain ⟨newContent, hwritten, h⟩ := Except.bind_ok h
    split at h
    · simp at h
    · cases h
      exact ⟨matched, hne, hmatched, hoverlap, hwritten, ‹_›, rfl⟩
 · rintro ⟨matched, h⟩
   rw [apply_nonempty h.nonempty, Except.ok_bind _ h.found, h.apart]
   dsimp only
   rw [Except.ok_bind _ h.written, if_neg h.changed, ← h.baseContent]

end Bake.Tools
