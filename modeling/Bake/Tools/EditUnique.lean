import Bake.Lib.TrimLines
import Bake.Tools.EditMatches

/-!
# How often an old text is there

What is known of a match once it has been counted. The count is of the normal form in the
normalised view, from the left and without overlap, whichever way the match was found. So a
text that overlaps itself is counted once, and a verbatim old text is counted with its normal
form only where both texts are in NFKC: then two places of it apart are two places of its normal
form apart (`normal_twice`). An old text that normalises to nothing is counted by the length of
the view.
-/

open List Search

namespace Bake.Tools

open Search (OccursAt OnlyAt)

variable {nfkc : List Char → List Char} {base oldText : List Char}

theorem normalizeForFuzzyMatch_eq (text : List Char) : normalizeForFuzzyMatch nfkc text
  = (TrimLines.trim isJsWhitespace '\n' (nfkc text)).map foldChar := by
 rw [normalizeForFuzzyMatch, ← TrimLines.intercalate_splitOn]
 rfl

/-- Places apart in texts that are in NFKC are places apart in the normalised view. -/
theorem normal_twice (hbase : nfkc base = base) (hold : nfkc oldText = oldText) {i j : Nat}
 (hi : OccursAt oldText base i) (hj : OccursAt oldText base j) (h : i + oldText.length ≤ j) :
 ∃ k l, OccursAt (normalizeForFuzzyMatch nfkc oldText) (normalizeForFuzzyMatch nfkc base) k
  ∧ OccursAt (normalizeForFuzzyMatch nfkc oldText) (normalizeForFuzzyMatch nfkc base) l
  ∧ k + (normalizeForFuzzyMatch nfkc oldText).length ≤ l := by
 obtain ⟨front, mid, back, htext⟩ := hi.twice hj h
 rw [normalizeForFuzzyMatch_eq, normalizeForFuzzyMatch_eq, hbase, hold, htext]
 generalize hview : (TrimLines.trim isJsWhitespace '\n') = view
 have happend : ∀ a b, ∃ between, view (a ++ b) = view a ++ between ++ view b := by
  subst hview
  exact TrimLines.trim_append
 -- everything around the two places, trimmed
 obtain ⟨gap₁, h₁⟩ := happend front (oldText ++ (mid ++ (oldText ++ back)))
 obtain ⟨gap₂, h₂⟩ := happend oldText (mid ++ (oldText ++ back))
 obtain ⟨gap₃, h₃⟩ := happend mid (oldText ++ back)
 obtain ⟨gap₄, h₄⟩ := happend oldText back
 rw [h₁, h₂, h₃, h₄]
 generalize view oldText = part
 refine ⟨((view front ++ gap₁).map foldChar).length,
  ((view front ++ gap₁ ++ part ++ gap₂ ++ view mid ++ gap₃).map foldChar).length, ?_, ?_, ?_⟩
 · have := occursAt_append ((view front ++ gap₁).map foldChar) (part.map foldChar)
    ((gap₂ ++ (view mid ++ gap₃ ++ (part ++ gap₄ ++ view back))).map foldChar)
   simpa only [map_append, append_assoc] using this
 · have := occursAt_append
    ((view front ++ gap₁ ++ part ++ gap₂ ++ view mid ++ gap₃).map foldChar) (part.map foldChar)
    ((gap₄ ++ view back).map foldChar)
   simpa only [map_append, append_assoc] using this
 · simp only [length_map, length_append]
   omega

structure Unambiguous (nfkc : List Char → List Char) (base : List Char) (edit : Edit)
 (replacement : Replacement) : Prop where
 /-- A verbatim match is the first place of the old text, and not empty. -/
 verbatim : (∃ i, OccursAt edit.oldText base i) → OccursAt edit.oldText base replacement.index
   ∧ (∀ i, OccursAt edit.oldText base i → replacement.index ≤ i)
   ∧ replacement.length = edit.oldText.length ∧ 0 < replacement.length
 verbatimOnly : (∃ i, OccursAt edit.oldText base i) → nfkc base = base →
  nfkc edit.oldText = edit.oldText → normalizeForFuzzyMatch nfkc edit.oldText ≠ [] →
  OnlyAt edit.oldText base replacement.index
 /-- Any other match is a place of the normal form in the normalised view. -/
 normal : (¬ ∃ i, OccursAt edit.oldText base i) →
  OccursAt (normalizeForFuzzyMatch nfkc edit.oldText) (normalizeForFuzzyMatch nfkc base)
   replacement.index
   ∧ replacement.length = (normalizeForFuzzyMatch nfkc edit.oldText).length
 normalOnly : (¬ ∃ i, OccursAt edit.oldText base i) →
  normalizeForFuzzyMatch nfkc edit.oldText ≠ [] →
  OnlyAt (normalizeForFuzzyMatch nfkc edit.oldText) (normalizeForFuzzyMatch nfkc base)
   replacement.index ∧ 0 < replacement.length
 /-- Any two places of the normal form in the normalised view overlap. -/
 overlap : normalizeForFuzzyMatch nfkc edit.oldText ≠ [] → ∀ i j,
  OccursAt (normalizeForFuzzyMatch nfkc edit.oldText) (normalizeForFuzzyMatch nfkc base) i →
  OccursAt (normalizeForFuzzyMatch nfkc edit.oldText) (normalizeForFuzzyMatch nfkc base) j →
  j < i + (normalizeForFuzzyMatch nfkc edit.oldText).length
 /-- A blank old text is looked for in at most two UTF-16 units. -/
 blank : normalizeForFuzzyMatch nfkc edit.oldText = [] →
  utf16Units (normalizeForFuzzyMatch nfkc base) ≤ 2

theorem Matched.unambiguous {edit : Edit} {replacement : Replacement}
 (h : Matched nfkc base edit replacement) (hne : edit.oldText ≠ []) :
 Unambiguous nfkc base edit replacement := by
 have hcount := h.counted
 rw [countOccurrences] at hcount
 simp only [List.isEmpty_iff] at hcount
 have hoverlap : normalizeForFuzzyMatch nfkc edit.oldText ≠ [] → ∀ i j,
  OccursAt (normalizeForFuzzyMatch nfkc edit.oldText) (normalizeForFuzzyMatch nfkc base) i →
  OccursAt (normalizeForFuzzyMatch nfkc edit.oldText) (normalizeForFuzzyMatch nfkc base) j →
  j < i + (normalizeForFuzzyMatch nfkc edit.oldText).length := by
  intro hnormal i j hi hj
  rw [if_neg hnormal] at hcount
  exact overlap_of_count_le_one hnormal hcount hi hj
 obtain ⟨found, hfound, hindex, hlength⟩ := h.found
 have hverbatim : (∃ i, OccursAt edit.oldText base i) →
  find edit.oldText base = some replacement.index ∧ replacement.length = edit.oldText.length := by
  rintro ⟨i, hi⟩
  rcases fuzzyFindText_some hfound with ⟨hfind, hlen⟩ | ⟨hnone, -⟩
  · exact ⟨by rw [hfind, hindex], by rw [hlength, hlen]⟩
  · exact absurd hi (find_eq_none.mp hnone i)
 have hother : (¬ ∃ i, OccursAt edit.oldText base i) →
  find (normalizeForFuzzyMatch nfkc edit.oldText) (normalizeForFuzzyMatch nfkc base)
   = some replacement.index
   ∧ replacement.length = (normalizeForFuzzyMatch nfkc edit.oldText).length := by
  intro hnone
  rcases fuzzyFindText_some hfound with ⟨hfind, -⟩ | ⟨-, hfind, hlen⟩
  · exact absurd ⟨_, (find_eq_some.mp hfind).1⟩ hnone
  · exact ⟨by rw [hfind, hindex], by rw [hlength, hlen]⟩
 refine
  { verbatim := fun hi => ?_, verbatimOnly := fun hi hbase hold hnormal => ?_
    normal := fun hnone => ?_, normalOnly := fun hnone hnormal => ?_
    overlap := hoverlap, blank := fun hblank => ?_ }
 · obtain ⟨hfind, hlen⟩ := hverbatim hi
   refine ⟨(find_eq_some.mp hfind).1, fun i => le_of_find hfind, hlen, ?_⟩
   rw [hlen]
   exact length_pos_iff.mpr hne
 · obtain ⟨hfind, -⟩ := hverbatim hi
   have hfirst := (find_eq_some.mp hfind).1
   refine ⟨hfirst, fun j hj => ⟨le_of_find hfind hj, Nat.not_le.mp fun hapart => ?_⟩⟩
   obtain ⟨k, l, hk, hl, hkl⟩ := normal_twice hbase hold hfirst hj hapart
   exact absurd (hoverlap hnormal k l hk hl) (Nat.not_lt.mpr hkl)
 · obtain ⟨hfind, hlen⟩ := hother hnone
   exact ⟨(find_eq_some.mp hfind).1, hlen⟩
 · obtain ⟨hfind, hlen⟩ := hother hnone
   have hfirst := (find_eq_some.mp hfind).1
   refine ⟨⟨hfirst, fun j hj => ⟨le_of_find hfind hj, hoverlap hnormal _ j hfirst hj⟩⟩, ?_⟩
   rw [hlen]
   exact length_pos_iff.mpr hnormal
 · rw [if_pos hblank] at hcount
   omega

/-- **An old text is matched where it is there, once but for overlaps.** Where edits are
applied, each old text was matched at its first place in the base, or, where it does not stand
there, at the first place of its normal form in the normalised view of the base. Unless it
normalises to nothing, two places of the normal form in the view overlap, and so do two places
of a verbatim old text where it and the base are in NFKC. One that normalises to nothing is
matched verbatim or in front of the view, and only where the view is at most two UTF-16 units
long. -/
theorem edits_unambiguous (nfkc : List Char → List Char) (content : List Char)
 (edits : List Edit) (applied : AppliedEdits)
 (h : applyEditsToNormalizedContent nfkc content edits = .ok applied) :
 ∃ matched, matchEdits nfkc (editBase nfkc content edits) 0 (normalizeEdits edits) = .ok matched
  ∧ List.Forall₂ (Unambiguous nfkc (editBase nfkc content edits)) (normalizeEdits edits)
   matched := by
 obtain ⟨matched, happlies⟩ := apply_ok.mp h
 refine ⟨matched, happlies.found, ?_⟩
 have hmatched := matchEdits_ok happlies.found
 have hne := happlies.nonempty
 clear happlies
 generalize normalizeEdits edits = edits at hmatched hne
 induction hmatched with
 | nil => exact .nil
 | cons hfirst _ ih =>
  exact .cons (hfirst.unambiguous (hne _ (mem_cons_self ..)))
   (ih fun edit hedit => hne edit (mem_cons_of_mem _ hedit))

/-! ## What is not refused -/

/-- The match is not empty, and the only place of what was looked for. -/
def Sole (nfkc : List Char → List Char) (base : List Char) (edit : Edit)
 (replacement : Replacement) : Prop :=
 0 < replacement.length ∧ ((∃ i, OccursAt edit.oldText base i) →
   ∀ i, OccursAt edit.oldText base i → i = replacement.index)
  ∧ ((¬ ∃ i, OccursAt edit.oldText base i) →
   ∀ i, OccursAt (normalizeForFuzzyMatch nfkc edit.oldText) (normalizeForFuzzyMatch nfkc base) i →
    i = replacement.index)

/-- One edit is applied, and its match is not the only one. -/
def AppliesAmbiguous (nfkc : List Char → List Char) (content : List Char) (edit : Edit) : Prop :=
 ∃ applied replacement, applyEditsToNormalizedContent nfkc content [edit] = .ok applied
  ∧ matchEdits nfkc (editBase nfkc content [edit]) 0 (normalizeEdits [edit]) = .ok [replacement]
  ∧ ¬ Sole nfkc (editBase nfkc content [edit]) edit replacement

/-- `e` and the combining acute accent behind it composed. -/
def composeAcute : List Char → List Char
 | 'e' :: '\u0301' :: text => 'é' :: composeAcute text
 | c :: text => c :: composeAcute text
 | [] => []

theorem composeAcute_cons {c : Char} {text : List Char}
 (h : ∀ rest, c = 'e' → text = '\u0301' :: rest → False) :
 composeAcute (c :: text) = c :: composeAcute text := by
 rw [composeAcute]
 exact h

theorem composeAcute_head {text rest : List Char} (h : composeAcute text = '\u0301' :: rest) :
 ∃ rest, text = '\u0301' :: rest := by
 fun_cases composeAcute text with
 | case1 text | case3 => simp [composeAcute] at h
 | case2 c text hc =>
  rw [composeAcute_cons hc] at h
  injection h with h
  exact ⟨text, by rw [h]⟩

theorem composeAcute_again (text : List Char) : composeAcute (composeAcute text) = composeAcute text
  ∧ (composeAcute text).count '\n' = text.count '\n' := by
 fun_induction composeAcute text with
 | case1 text ih => exact ⟨by rw [composeAcute_cons (by simp), ih.1], by simpa using ih.2⟩
 | case2 c text hc ih =>
  refine ⟨?_, by rw [count_cons, count_cons, ih.2]⟩
  rw [composeAcute_cons, ih.1]
  intro rest hce hrest
  obtain ⟨rest', hrest'⟩ := composeAcute_head hrest
  exact hc rest' hce hrest'
 | case3 => exact ⟨rfl, rfl⟩

/-- Not refused: a blank old text that is not there, an old text that overlaps itself, one that
is blank and there twice, and one whose second place is composed with what follows it. -/
theorem edits_ambiguous : AppliesAmbiguous id ['a', 'b'] { oldText := [' '], newText := ['x'] }
  ∧ AppliesAmbiguous id ['a', 'a', 'a'] { oldText := ['a', 'a'], newText := ['x'] }
  ∧ AppliesAmbiguous id [' ', ' '] { oldText := [' '], newText := ['x'] }
  ∧ AppliesAmbiguous composeAcute ['e', ' ', 'e', '\u0301']
   { oldText := ['e'], newText := ['x'] }
  ∧ ∀ text, composeAcute (composeAcute text) = composeAcute text
   ∧ (composeAcute text).count '\n' = text.count '\n' := by
 have htwice : ∀ {nfkc base edit} {replacement : Replacement} {i : Nat},
  OccursAt edit.oldText base i → i ≠ replacement.index → ¬ Sole nfkc base edit replacement :=
  fun hi hne hsole => hne (hsole.2.1 ⟨_, hi⟩ _ hi)
 refine ⟨⟨{ baseContent := ['a', 'b'], newContent := ['x', 'a', 'b'] },
  { editIndex := 0, index := 0, length := 0, newText := ['x'] }, rfl, rfl, fun hsole => ?_⟩,
  ⟨{ baseContent := ['a', 'a', 'a'], newContent := ['x', 'a'] },
   { editIndex := 0, index := 0, length := 2, newText := ['x'] }, rfl, rfl, ?_⟩,
  ⟨{ baseContent := [' ', ' '], newContent := ['x', ' '] },
   { editIndex := 0, index := 0, length := 1, newText := ['x'] }, rfl, rfl, ?_⟩,
  ⟨{ baseContent := ['e', ' ', 'e', '\u0301'], newContent := ['x', ' ', 'e', '\u0301'] },
   { editIndex := 0, index := 0, length := 1, newText := ['x'] }, rfl, rfl, ?_⟩,
  composeAcute_again⟩
 · exact absurd hsole.1 (by decide)
 · exact @htwice _ _ _ _ 1 (by unfold OccursAt; decide) (by decide)
 · exact @htwice _ _ _ _ 1 (by unfold OccursAt; decide) (by decide)
 · exact @htwice _ _ _ _ 2 (by unfold OccursAt; decide) (by decide)

/-- One edit of one line, matched in the normalised view. -/
theorem edits_unambiguous_quote :
 applyEditsToNormalizedContent id ['\u2019', 'a', '\n'] [{ oldText := ['\'', 'a'], newText := [] }]
  = .ok { baseContent := ['\u2019', 'a', '\n'], newContent := ['\n'] }
  ∧ ∃ matched, matchEdits id
   (editBase id ['\u2019', 'a', '\n'] [{ oldText := ['\'', 'a'], newText := [] }]) 0
   (normalizeEdits [{ oldText := ['\'', 'a'], newText := [] }]) = .ok matched
   ∧ List.Forall₂ (Unambiguous id
    (editBase id ['\u2019', 'a', '\n'] [{ oldText := ['\'', 'a'], newText := [] }]))
    (normalizeEdits [{ oldText := ['\'', 'a'], newText := [] }]) matched :=
 ⟨rfl, edits_unambiguous _ _ _ _ rfl⟩

end Bake.Tools
