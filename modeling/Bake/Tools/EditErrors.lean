import Bake.Tools.EditLines
import Bake.Tools.EditView

/-!
# Why edits are refused

Each error says why: an old text that is not found, that is counted more than once, that
overlaps another's match, or a result that is the content. Two errors speak of the code itself:
the lines of the view are fewer than the content's, or a match is in no line of the view. They
come up where edits that could be applied are found in the normalised view only, and the content
is empty or ends blank: trimming then leaves no last line.
-/

open List

namespace Bake.Tools

variable {nfkc : List Char → List Char} {content base : List Char} {edits : List Edit}

def foundMatches (nfkc : List Char → List Char) (base : List Char) :
 Nat → List Edit → List Replacement
 | _, [] => []
 | index, edit :: edits =>
  match fuzzyFindText nfkc base edit.oldText with
  | some found =>
   { editIndex := index, index := found.index, length := found.matchLength
     newText := edit.newText } :: foundMatches nfkc base (index + 1) edits
  | none => foundMatches nfkc base (index + 1) edits

/-- Every old text is found, and counted once, and no two matches overlap. -/
structure Applicable (nfkc : List Char → List Char) (base : List Char) (edits : List Edit) :
 Prop where
 found : ∀ edit ∈ edits, ∃ found, fuzzyFindText nfkc base edit.oldText = some found
 once : ∀ edit ∈ edits, countOccurrences nfkc base edit.oldText ≤ 1
 apart : (sortByIndex (foundMatches nfkc base 0 edits)).Pairwise
  fun a b => a.index + a.length ≤ b.index

inductive Reason (nfkc : List Char → List Char) (content : List Char) (edits : List Edit) :
 EditError → Prop
 | notFound {k : Nat} {edit : Edit} : (normalizeEdits edits)[k]? = some edit →
  fuzzyFindText nfkc (editBase nfkc content edits) edit.oldText = none →
  Reason nfkc content edits (.notFound k)
 | duplicate {k : Nat} {edit : Edit} : (normalizeEdits edits)[k]? = some edit →
  1 < countOccurrences nfkc (editBase nfkc content edits) edit.oldText →
  Reason nfkc content edits
   (.duplicate k (countOccurrences nfkc (editBase nfkc content edits) edit.oldText))
 | overlapping {a b : Replacement} :
  a ∈ foundMatches nfkc (editBase nfkc content edits) 0 (normalizeEdits edits) →
  b ∈ foundMatches nfkc (editBase nfkc content edits) 0 (normalizeEdits edits) →
  b.index < a.index + a.length →
  Reason nfkc content edits (.overlapping a.editIndex b.editIndex)
 | noChange :
  writeMatches nfkc content edits
   (foundMatches nfkc (editBase nfkc content edits) 0 (normalizeEdits edits)) = .ok content →
  Reason nfkc content edits .noChange

/-! ## The matches -/

theorem matchEdits_found {k : Nat}
 (hfound : ∀ edit ∈ edits, ∃ found, fuzzyFindText nfkc base edit.oldText = some found)
 (honce : ∀ edit ∈ edits, countOccurrences nfkc base edit.oldText ≤ 1) :
 matchEdits nfkc base k edits = .ok (foundMatches nfkc base k edits) := by
 induction edits generalizing k with
 | nil => rfl
 | cons edit edits ih =>
  obtain ⟨found, hedit⟩ := hfound edit (mem_cons_self ..)
  have hcount := honce edit (mem_cons_self ..)
  rw [matchEdits, foundMatches]
  simp only [hedit, gt_iff_lt, Nat.not_lt.mpr hcount, if_false]
  rw [ih (fun e he => hfound e (mem_cons_of_mem _ he)) (fun e he => honce e (mem_cons_of_mem _ he))]
  rfl

variable {matched : List Replacement} {error : EditError} {lines : List (Nat × Nat)}

theorem matchEdits_ok_iff : matchEdits nfkc base 0 edits = .ok matched
  ↔ (∀ edit ∈ edits, ∃ found, fuzzyFindText nfkc base edit.oldText = some found)
   ∧ (∀ edit ∈ edits, countOccurrences nfkc base edit.oldText ≤ 1)
   ∧ matched = foundMatches nfkc base 0 edits := by
 constructor
 · intro h
   have hmatched := matchEdits_ok h
   have hfound : ∀ edit ∈ edits, ∃ found, fuzzyFindText nfkc base edit.oldText = some found := by
    intro edit hedit
    obtain ⟨r, -, hr⟩ := exists_match hmatched hedit
    obtain ⟨found, hf, -⟩ := hr.found
    exact ⟨found, hf⟩
   have honce : ∀ edit ∈ edits, countOccurrences nfkc base edit.oldText ≤ 1 := by
    intro edit hedit
    obtain ⟨r, -, hr⟩ := exists_match hmatched hedit
    exact hr.counted
   rw [matchEdits_found hfound honce] at h
   injection h with h
   exact ⟨hfound, honce, h.symm⟩
 · rintro ⟨hfound, honce, rfl⟩
   exact matchEdits_found hfound honce

theorem matchEdits_error {k : Nat} (h : matchEdits nfkc base k edits = .error error) :
 ∃ j edit, edits[j]? = some edit
  ∧ ((fuzzyFindText nfkc base edit.oldText = none ∧ error = .notFound (k + j))
   ∨ (1 < countOccurrences nfkc base edit.oldText
    ∧ error = .duplicate (k + j) (countOccurrences nfkc base edit.oldText))) := by
 induction edits generalizing k with
 | nil => simp [matchEdits] at h
 | cons edit edits ih =>
  rw [matchEdits] at h
  split at h
  · simp only at h
    split at h
    next hcount =>
     injection h with h
     exact ⟨0, edit, rfl, Or.inr ⟨hcount, h.symm⟩⟩
    · cases hrest : matchEdits nfkc base (k + 1) edits with
      | ok rest =>
       rw [hrest] at h
       simp [bind, Except.bind] at h
      | error e =>
       rw [hrest] at h
       cases h
       obtain ⟨j, edit', hj, hreason⟩ := ih hrest
       refine ⟨j + 1, edit', hj, ?_⟩
       rw [Nat.add_right_comm, Nat.add_assoc] at hreason
       exact hreason
  next hnone =>
   injection h with h
   exact ⟨0, edit, rfl, Or.inl ⟨Option.eq_none_iff_forall_ne_some.mpr hnone, h.symm⟩⟩

/-! ## Writing in the view -/

theorem Matched.inside {edit : Edit} {r : Replacement} (h : Matched nfkc base edit r)
 (hview : normalizeForFuzzyMatch nfkc base = base) (hbase : base ≠ []) :
 r.index < base.length ∧ r.Inside base := by
 obtain ⟨found, hfound, hindex, hlength⟩ := h.found
 have hpos := length_pos_iff.mpr hbase
 -- whichever text it is the place of
 have hplace : ∀ part, Search.find part base = some r.index → r.length = part.length →
  r.index < base.length ∧ r.Inside base := by
  intro part hfind hlen
  have hoccurs := (Search.find_eq_some.mp hfind).1
  have hle := hoccurs.le_length
  unfold Replacement.Inside
  rw [hlen]
  refine ⟨?_, hle⟩
  cases part with
  | nil =>
   have := Search.le_of_find hfind (Search.occursAt_zero.mpr ( nil_prefix))
   omega
  | cons c part =>
   rw [length_cons] at hle
   omega
 rcases fuzzyFindText_some hfound with ⟨hfind, hlen⟩ | ⟨-, hfind, hlen⟩
 · exact hplace _ (by rw [hfind, hindex]) (by rw [hlength, hlen])
 · rw [hview] at hfind
   exact hplace _ (by rw [hfind, hindex]) (by rw [hlength, hlen])

theorem groupLines_inside {rs : List Replacement} (groups : List LineGroup)
 (h : ∀ r ∈ rs, r.index < base.length ∧ r.Inside base) :
 ∃ result, groupLines (lineSpans base) rs groups = .ok result := by
 induction rs generalizing groups with
 | nil => exact ⟨_, rfl⟩
 | cons r rs ih =>
  obtain ⟨hindex, hinside⟩ := h r (mem_cons_self ..)
  obtain ⟨⟨start, stop⟩, hrange⟩ := replacementLineRange_inside hindex hinside
  have ih := fun groups => ih groups fun r' hr' => h r' (mem_cons_of_mem _ hr')
  rw [groupLines, Except.ok_bind _ hrange]
  cases groups with
  | nil => exact ih _
  | cons current before =>
   dsimp only
   split
   · exact ih _
   · exact ih _

/-- **Matches are written in the view** unless the content is empty or ends blank. -/
theorem writeMatches_fuzzy (hn : Nfkc nfkc) (hfuzzy : usesFuzzy nfkc content (normalizeEdits edits))
 (hmatched : List.Forall₂ (Matched nfkc (normalizeForFuzzyMatch nfkc content))
  (normalizeEdits edits) matched) :
 (∃ newContent, writeMatches nfkc content edits matched = .ok newContent)
  ↔ content ≠ [] ∧ ¬ EndsBlank nfkc content := by
 have hbase : editBase nfkc content edits = normalizeForFuzzyMatch nfkc content := by
  rw [editBase, if_pos hfuzzy]
 have hlines := hn.lines_eq content
 rw [writeMatches, if_pos hfuzzy, hbase, applyReplacementsPreservingUnchangedLines,
  lineSpans_length]
 by_cases hblank : EndsBlank nfkc content
 · rw [if_pos (mt hlines.mp (not_not.mpr hblank))]
   simp [hblank]
 rw [if_neg (not_not.mpr (hlines.mpr hblank)), sortByIndex_again]
 by_cases hcontent : content = []
 · -- there is a match, and no line for it
   subst hcontent
   obtain ⟨edit, hedit, -⟩ := any_eq_true.mp hfuzzy
   obtain ⟨r, hr, -⟩ := exists_match hmatched hedit
   rw [hn.view_nil]
   cases hsorted : sortByIndex matched with
   | nil =>
    rw [← (sortByIndex_perm matched).mem_iff, hsorted] at hr
    simp at hr
   | cons first rest => simp [groupLines, replacementLineRange, lineSpans, lineSpansFrom,
    splitLinesWithEndings, bind, Except.bind]
 have hview : normalizeForFuzzyMatch nfkc content ≠ [] := by
  intro hview
  have hcount := hlines.mpr hblank
  rw [hview, splitLinesWithEndings, splitLinesWithEndings, WholeLines.split_nil,
   length_nil, length_eq_zero_iff] at hcount
  exact hcontent (WholeLines.split_eq_nil hcount)
 have hinside : ∀ r ∈ sortByIndex matched,
  r.index < (normalizeForFuzzyMatch nfkc content).length
   ∧ r.Inside (normalizeForFuzzyMatch nfkc content) := fun r hr => by
  obtain ⟨edit, -, hr⟩ := exists_edit hmatched ((sortByIndex_perm matched).mem_iff.mp hr)
  exact hr.inside (hn.view_again content) hview
 obtain ⟨groups, hgroups⟩ := groupLines_inside [] hinside
 rw [Except.ok_bind _ hgroups]
 simp [hcontent, hblank]

theorem replacementLineRange_error {r : Replacement}
 (h : replacementLineRange lines r = .error error) : error = .outsideBase := by
 rw [replacementLineRange] at h
 dsimp only at h
 split at h
 · injection h with h
   exact h.symm
 · split at h
   · injection h with h
     exact h.symm
   · simp at h

theorem groupLines_error {rs : List Replacement} {groups : List LineGroup}
 (h : groupLines lines rs groups = .error error) : error = .outsideBase := by
 induction rs generalizing groups with
 | nil => simp [groupLines] at h
 | cons r rs ih =>
  rw [groupLines] at h
  cases hrange : replacementLineRange lines r with
  | error e =>
   rw [hrange] at h
   injection h with h
   exact h ▸ replacementLineRange_error hrange
  | ok range =>
   rw [hrange, Except.ok_bind _ rfl] at h
   cases groups with
   | nil => exact ih h
   | cons current before =>
    dsimp only at h
    split at h
    · exact ih h
    · exact ih h

theorem writeMatches_error (h : writeMatches nfkc content edits matched = .error error) :
 error = .differentLineCount ∨ error = .outsideBase := by
 rw [writeMatches, applyReplacementsPreservingUnchangedLines] at h
 split at h
 · split at h
   · injection h with h
     exact Or.inl h.symm
   · cases hgroups : groupLines (lineSpans (editBase nfkc content edits))
      (sortByIndex (sortByIndex matched)) [] with
     | error e =>
      rw [hgroups] at h
      injection h with h
      exact Or.inr (h ▸ groupLines_error hgroups)
     | ok groups =>
      rw [hgroups] at h
      simp [bind, Except.bind] at h
 · simp at h

/-! ## The errors -/

theorem normalizeToLf_ne_nil {text : List Char} (h : text ≠ []) : normalizeToLf text ≠ [] := by
 rw [normalizeToLf, ne_eq, map_eq_nil_iff]
 fun_cases replaceCrLf text with
 | case1 => exact absurd rfl h
 | case2 | case3 => simp

theorem applicable_iff : Applicable nfkc base edits
  ↔ matchEdits nfkc base 0 edits = .ok (foundMatches nfkc base 0 edits)
   ∧ firstOverlap (sortByIndex (foundMatches nfkc base 0 edits)) = none := by
 rw [firstOverlap_eq_none]
 constructor
 · exact fun h => ⟨matchEdits_found h.found h.once, h.apart⟩
 · rintro ⟨hmatched, hapart⟩
   obtain ⟨hfound, honce, -⟩ := matchEdits_ok_iff.mp hmatched
   exact ⟨hfound, honce, hapart⟩

theorem nfkc_id : Nfkc id where
 idempotent _ := rfl
 empty := rfl
 lineFeed _ _ := rfl
 line _ h := h
 front _ _ _ := rfl
 folded _ _ := rfl

end Bake.Tools
