import Bake.Lib.Splice
import Bake.Tools.EditMatches

/-!
# Exact edits

Edits whose old texts all stand in the content are matched there and replaced together.
The sorted matches are regions in order (`firstOverlap_ordered`), so replacing them from
the back is replacing all at once, and regions that share nothing are in one order only,
whatever the order of the edits (`Splice.Ordered.unique`).
-/

open List

namespace Bake.Tools

open Search (OccursAt)
open Splice (Region Ordered Replaces)
open Replacement

def Verbatim (content : List Char) (edits : List Edit) : Prop :=
 ∀ edit ∈ edits, ∃ i, OccursAt (normalizeToLf edit.oldText) content i

def Edit.region (content : List Char) (edit : Edit) : Region Char where
 start := (Search.find (normalizeToLf edit.oldText) content).getD 0
 old := normalizeToLf edit.oldText
 new := normalizeToLf edit.newText

def Replacement.region (base : List Char) (replacement : Replacement) : Region Char where
 start := replacement.index
 old := (base.drop replacement.index).take replacement.length
 new := replacement.newText

def Replacement.Inside (base : List Char) (replacement : Replacement) : Prop :=
 replacement.index + replacement.length ≤ base.length

variable {base : List Char} {replacements : List Replacement}

theorem Replacement.Inside.length {replacement : Replacement} (h : replacement.Inside base) :
 (replacement.region base).old.length = replacement.length := by
 unfold Inside at h
 rw [region, length_take, length_drop]
 omega

theorem applyReplacements_eq (h : ∀ r ∈ replacements, r.Inside base) (content : List Char)
 (offset : Nat) : applyReplacements content replacements offset
  = Splice.fromBack offset (replacements.map (region base)) content := by
 induction replacements with
 | nil => rfl
 | cons r rs ih =>
  have hlength := (h r (mem_cons_self ..)).length
  have ih := ih fun r' hr' => h r' (mem_cons_of_mem _ hr')
  rw [map_cons, Splice.fromBack_cons, ← ih, Splice.replaceOne, hlength]
  rfl

theorem firstOverlap_ordered (hinside : ∀ r ∈ replacements, r.Inside base) :
 firstOverlap replacements = none ↔ Ordered 0 base.length (replacements.map (region base)) := by
 have hends : (replacements.map (region base)).Pairwise
  (fun a b => a.start + a.old.length ≤ b.start)
  ↔ replacements.Pairwise fun a b => a.index + a.length ≤ b.index := by
  rw [pairwise_map]
  refine List.Pairwise.iff_of_mem fun {a b} ha _ => ?_
  rw [(hinside a ha).length]
  rfl
 rw [firstOverlap_eq_none, ← hends]
 refine ⟨Splice.ordered_of_pairwise (Nat.zero_le _) fun region hregion => ?_, Ordered.pairwise⟩
 obtain ⟨r, hr, rfl⟩ := mem_map.mp hregion
 rw [(hinside r hr).length]
 exact ⟨Nat.zero_le _, hinside r hr⟩

/-! ## The matches -/

variable {nfkc : List Char → List Char} {content : List Char}

variable {oldText : List Char}

theorem region_find {i : Nat} (h : OccursAt oldText content i) :
 ∃ index, Search.find oldText content = some index ∧ OccursAt oldText content index := by
 cases hfind : Search.find oldText content with
 | none => exact absurd h (Search.find_eq_none.mp hfind i)
 | some index => exact ⟨index, rfl, (Search.find_eq_some.mp hfind).1⟩

theorem fuzzyFindText_verbatim {index : Nat} (h : Search.find oldText content = some index) :
 fuzzyFindText nfkc content oldText = some { index, matchLength := oldText.length
                                             usedFuzzyMatch := false
                                             contentForReplacement := content } := by
 rw [fuzzyFindText, h]

theorem usesFuzzy_verbatim {edits : List Edit} (h : Verbatim content edits) :
 usesFuzzy nfkc content (normalizeEdits edits) = false := by
 rw [usesFuzzy, any_eq_false]
 intro edit hedit
 obtain ⟨edit', hedit', rfl⟩ := mem_map.mp hedit
 obtain ⟨i, hi⟩ := h edit' hedit'
 obtain ⟨index, hindex, -⟩ := region_find hi
 rw [fuzzyFindText_verbatim hindex]
 simp

def CountedOnce (nfkc : List Char → List Char) (content : List Char) (edits : List Edit) : Prop :=
 ∀ edit ∈ edits, countOccurrences nfkc content (normalizeToLf edit.oldText) ≤ 1

theorem matchEdits_verbatim {edits : List Edit} (h : Verbatim content edits) (k : Nat) :
 (CountedOnce nfkc content edits →
  ∃ matched, matchEdits nfkc content k (normalizeEdits edits) = .ok matched)
 ∧ ∀ matched, matchEdits nfkc content k (normalizeEdits edits) = .ok matched →
  CountedOnce nfkc content edits ∧ (∀ r ∈ matched, r.Inside content)
   ∧ matched.map (region content) = edits.map (Edit.region content) := by
 induction edits generalizing k with
 | nil =>
  refine ⟨fun _ => ⟨[], rfl⟩, fun matched hmatched => ?_⟩
  cases hmatched
  exact ⟨by simp [CountedOnce], by simp, rfl⟩
 | cons edit edits ih =>
  obtain ⟨i, hi⟩ := h edit (mem_cons_self ..)
  obtain ⟨index, hindex, hoccurs⟩ := region_find hi
  obtain ⟨hfits, hall⟩ := ih (fun e he => h e (mem_cons_of_mem _ he)) (k + 1)
  have hfound := @fuzzyFindText_verbatim nfkc _ _ _ hindex
  have hstep : matchEdits nfkc content k (normalizeEdits (edit :: edits))
   = if countOccurrences nfkc content (normalizeToLf edit.oldText) > 1
    then .error (.duplicate k (countOccurrences nfkc content (normalizeToLf edit.oldText)))
    else (matchEdits nfkc content (k + 1) (normalizeEdits edits)).map fun matched =>
     { editIndex := k, index, length := (normalizeToLf edit.oldText).length
       newText := normalizeToLf edit.newText } :: matched := by
   show matchEdits nfkc content k (_ :: normalizeEdits edits) = _
   rw [matchEdits]
   simp only [hfound]
   split
   · rfl
   · cases matchEdits nfkc content (k + 1) (normalizeEdits edits) <;> rfl
  rw [hstep]
  refine ⟨fun hcount => ?_, fun matched hmatched => ?_⟩
  · obtain ⟨matched, hmatched⟩ := hfits fun e he => hcount e (mem_cons_of_mem _ he)
    rw [if_neg (Nat.not_lt.mpr (hcount edit (mem_cons_self ..))), hmatched]
    exact ⟨_, rfl⟩
  split at hmatched
  · simp at hmatched
  next hcount =>
   cases hrest : matchEdits nfkc content (k + 1) (normalizeEdits edits) with
   | error error => rw [hrest] at hmatched; simp [Except.map] at hmatched
   | ok rest =>
    rw [hrest] at hmatched
    cases hmatched
    obtain ⟨hcounted, hinside, hregions⟩ := hall rest hrest
    refine ⟨?_, ?_, ?_⟩
    · intro e he
      rcases mem_cons.mp he with rfl | he
      · exact Nat.not_lt.mp hcount
      · exact hcounted e he
    · intro r hr
      rcases mem_cons.mp hr with rfl | hr
      · exact hoccurs.le_length
      · exact hinside r hr
    · rw [map_cons, map_cons, hregions]
      congr 1
      rw [region, Edit.region, hindex, hoccurs.take]
      rfl

/-! ## The result -/

/-- Where exact edits are replaced: the matches of all edits in order. -/
structure Regions (content : List Char) (edits : List Edit) (regions : List (Region Char)) :
 Prop where
 perm : regions.Perm (edits.map (Edit.region content))
 ordered : Ordered 0 content.length regions
 nonempty : ∀ r ∈ regions, r.old ≠ []

variable {edits : List Edit}

variable {applied : AppliedEdits}

theorem apply_verbatim (h : Verbatim content edits) :
 applyEditsToNormalizedContent nfkc content edits = .ok applied
  ↔ CountedOnce nfkc content edits ∧ content ≠ applied.newContent ∧ applied.baseContent = content
   ∧ ∃ regions, Regions content edits regions
    ∧ applied.newContent = Splice.fromBack 0 regions content := by
 have hmatches := @matchEdits_verbatim nfkc content edits h 0
 have hexact := @usesFuzzy_verbatim nfkc content edits h
 have hbase : editBase nfkc content edits = content := by
  rw [editBase, hexact]
  rfl
 have hsorted : ∀ matched, (∀ r ∈ matched, r.Inside content) →
  ∀ r ∈ sortByIndex matched, r.Inside content := fun matched hinside r hr =>
  hinside r ((sortByIndex_perm matched).mem_iff.mp hr)
 have hperm : ∀ matched, matched.map (region content) = edits.map (Edit.region content) →
  ((sortByIndex matched).map (region content)).Perm
   (edits.map (Edit.region content)) := fun matched hregions => by
  rw [← hregions]
  exact (sortByIndex_perm matched).map _
 rw [apply_ok]
 constructor
 · rintro ⟨matched, happlies⟩
   have hfound := happlies.found
   rw [hbase] at hfound
   obtain ⟨hcounted, hinside, hregions⟩ := hmatches.2 matched hfound
   have hwritten := happlies.written
   rw [writeMatches, hexact, hbase, applyReplacements_eq (hsorted matched hinside)] at hwritten
   injection hwritten with hwritten
   refine ⟨hcounted, happlies.changed, happlies.baseContent, _, ⟨hperm matched hregions,
    (firstOverlap_ordered (hsorted matched hinside)).mp happlies.apart, fun r hr => ?_⟩,
    hwritten.symm⟩
   obtain ⟨edit, hedit, rfl⟩ := mem_map.mp ((hperm matched hregions).mem_iff.mp hr)
   exact happlies.nonempty _ (mem_map_of_mem hedit)
 rintro ⟨hcounted, hchanged, hcontent, regions, hr, hnew⟩
 obtain ⟨matched, hfound⟩ := hmatches.1 hcounted
 obtain ⟨-, hinside, hregions⟩ := hmatches.2 matched hfound
 -- ordered regions are the sorted ones
 have hsame := hr.ordered.unique hr.nonempty (hr.perm.trans (hperm matched hregions).symm) (by
  rw [pairwise_map]
  exact sortByIndex_sorted matched)
 refine ⟨matched, ⟨fun edit hedit => ?_, by rw [hbase, hfound], ?_, ?_, hchanged, hcontent⟩⟩
 · obtain ⟨edit', hedit', rfl⟩ := mem_map.mp hedit
   exact hr.nonempty _ (hr.perm.mem_iff.mpr (mem_map_of_mem hedit'))
 · exact (firstOverlap_ordered (hsorted matched hinside)).mpr (hsame ▸ hr.ordered)
 · rw [writeMatches, hexact, hbase, applyReplacements_eq (hsorted matched hinside), ← hsame,
    ← hnew]
   rfl

theorem Regions.replaces {regions : List (Region Char)} (h : Regions content edits regions)
 (hverbatim : Verbatim content edits) :
 Replaces 0 regions content (Splice.fromBack 0 regions content) := by
 refine Splice.replaces_fromBack (by rw [Nat.zero_add]; exact h.ordered) fun r hr => ?_
 obtain ⟨edit, hedit, rfl⟩ := mem_map.mp (h.perm.mem_iff.mp hr)
 obtain ⟨i, hi⟩ := hverbatim edit hedit
 obtain ⟨index, hindex, hoccurs⟩ := region_find hi
 rw [Splice.Matches, Edit.region, hindex]
 exact hoccurs.take

theorem apply_perm {edits' : List Edit} (h : Verbatim content edits) (hperm : edits'.Perm edits)
 (hok : applyEditsToNormalizedContent nfkc content edits = .ok applied) :
 applyEditsToNormalizedContent nfkc content edits' = .ok applied := by
 have h' : Verbatim content edits' := fun e he => h e (hperm.mem_iff.mp he)
 obtain ⟨hcounted, hchanged, hbase, regions, hregions, hnew⟩ := (apply_verbatim h).mp hok
 refine (apply_verbatim h').mpr ⟨fun e he => hcounted e (hperm.mem_iff.mp he), hchanged, hbase,
  regions, ⟨hregions.perm.trans (hperm.map _).symm, hregions.ordered, hregions.nonempty⟩, hnew⟩

end Bake.Tools
