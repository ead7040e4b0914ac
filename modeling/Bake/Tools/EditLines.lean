import Bake.Tools.EditExact

/-!
# Edits of whole lines

Where some edit is found in the normalised view only, the matches are gathered by the lines of
the view they touch, and each gathered range of lines is written from the view, with its matches
replaced; all other lines are the original's. `Grouped` is what holds of the groups as they are
gathered: each is exactly the lines its matches touch, and each match of a group shares a line
with one in front of it.
-/

open List WholeLines

namespace Bake.Tools

open WholeLines (startOf)
open Splice (Region Ordered Replaces)

variable {base : List Char}

/-! ## The lines a match touches -/

theorem lineSpansFrom_get (offset k : Nat) (lines : List (List Char)) (hk : k < lines.length) :
 (lineSpansFrom offset lines)[k]?
  = some (offset + startOf lines k, offset + startOf lines (k + 1)) := by
 induction lines generalizing offset k with
 | nil => simp at hk
 | cons line lines ih =>
  cases k with
  | zero => simp [lineSpansFrom, startOf]
  | succ k =>
   have hstart : ∀ m, startOf (line :: lines) (m + 1) = line.length + startOf lines m :=
    fun m => by simp [startOf]
   rw [lineSpansFrom, getElem?_cons_succ, ih _ _ (by simpa using hk), hstart, hstart,
    Nat.add_assoc, Nat.add_assoc]

theorem lineSpansFrom_length (offset : Nat) (lines : List (List Char)) :
 (lineSpansFrom offset lines).length = lines.length := by
 induction lines generalizing offset with
 | nil => rfl
 | cons line lines ih => rw [lineSpansFrom, length_cons, ih, length_cons]

theorem lineSpans_get {k : Nat} (hk : k < (splitLinesWithEndings base).length) :
 (lineSpans base)[k]? = some (startOf (splitLinesWithEndings base) k,
  startOf (splitLinesWithEndings base) (k + 1)) := by
 rw [lineSpans, lineSpansFrom_get _ _ _ hk, Nat.zero_add, Nat.zero_add]

theorem lineSpans_length : (lineSpans base).length = (splitLinesWithEndings base).length :=
 lineSpansFrom_length _ _

def Replacement.Touches (lines : List (List Char)) (replacement : Replacement) (k : Nat) : Prop :=
 replacement.index < startOf lines (k + 1)
  ∧ startOf lines k < replacement.index + max replacement.length 1

theorem endLineFrom_spec (stop k : Nat) (spans : List (Nat × Nat)) :
 ∃ passed, endLineFrom stop k spans = k + passed ∧ passed ≤ spans.length
  ∧ (∀ m < passed, ∀ span ∈ spans[m]?, span.2 < stop)
  ∧ ∀ span ∈ spans[passed]?, stop ≤ span.2 := by
 induction spans generalizing k with
 | nil => exact ⟨0, rfl, by simp, by simp, by simp⟩
 | cons span spans ih =>
  rw [endLineFrom]
  split
  next hspan =>
   obtain ⟨passed, heq, hle, hpassed, hstop⟩ := ih (k + 1)
   refine ⟨passed + 1, by rw [heq]; omega, by simpa using hle, ?_, by simpa using hstop⟩
   intro m hm span' hspan'
   cases m with
   | zero =>
    obtain rfl : span = span' := by simpa using hspan'
    exact hspan
   | succ m => exact hpassed m (by omega) span' (by simpa using hspan')
  next hspan =>
   refine ⟨0, rfl, by simp, by simp, fun span' hspan' => ?_⟩
   obtain rfl : span = span' := by simpa using hspan'
   exact Nat.not_lt.mp hspan

structure LineRange (lines : List (List Char)) (replacement : Replacement) (start stop : Nat) :
 Prop where
 lt : start < stop
 le : stop ≤ lines.length
 first : startOf lines start ≤ replacement.index
 inFirst : replacement.index < startOf lines (start + 1)
 last : replacement.index + replacement.length ≤ startOf lines stop
 inLast : stop = start + 1 ∨ startOf lines (stop - 1) < replacement.index + replacement.length

variable {replacement : Replacement} {start stop : Nat}

theorem LineRange.touches {lines : List (List Char)} (h : LineRange lines replacement start stop)
 (k : Nat) : replacement.Touches lines k ↔ start ≤ k ∧ k < stop := by
 have := h.first
 have := h.inFirst
 have := h.last
 have := h.lt
 constructor
 · rintro ⟨hindex, hstop⟩
   refine ⟨le_of_startOf h.first hindex, Nat.not_le.mp fun hle => ?_⟩
   have hend : startOf lines stop ≤ startOf lines k := startOf_mono hle
   have hfirst : startOf lines (start + 1) ≤ startOf lines stop := startOf_mono (by omega)
   omega
 · rintro ⟨hle, hlt⟩
   have hnext : startOf lines (start + 1) ≤ startOf lines (k + 1) := startOf_mono (by omega)
   refine ⟨by omega, ?_⟩
   rcases Nat.eq_or_lt_of_le hle with rfl | hgt
   · omega
   · have hprev : startOf lines k ≤ startOf lines (stop - 1) := startOf_mono (by omega)
     rcases h.inLast with hone | hlast
     · omega
     · omega

theorem replacementLineRange_ok
 (h : replacementLineRange (lineSpans base) replacement = .ok (start, stop)) :
 LineRange (splitLinesWithEndings base) replacement start stop := by
 rw [replacementLineRange] at h
 dsimp only at h
 split at h
 · simp at h
 next startLine hstart =>
  obtain ⟨hlt, hin, -⟩ := findIdx?_eq_some_iff_getElem.mp hstart
  have hline := getElem?_eq_getElem hlt
  rw [lineSpans_length] at hlt
  rw [lineSpans_get hlt] at hline
  rw [← Option.some.inj hline] at hin
  simp only [Bool.and_eq_true, decide_eq_true_eq] at hin
  obtain ⟨passed, hend, -, hpassed, hstop⟩ := endLineFrom_spec
   (replacement.index + replacement.length) startLine ((lineSpans base).drop startLine)
  rw [hend] at h
  split at h
  · simp at h
  next hinside =>
   rw [lineSpans_length, Nat.not_le] at hinside
   injection h with h
   cases h
   refine ⟨by omega, hinside, hin.1, hin.2, ?_, ?_⟩
   · rw [getElem?_drop, lineSpans_get hinside] at hstop
     exact hstop _ rfl
   · cases passed with
     | zero => exact Or.inl rfl
     | succ passed =>
      have := hpassed passed (by omega)
      rw [getElem?_drop, lineSpans_get (by omega)] at this
      exact Or.inr (this _ rfl)

theorem startOf_lines : startOf (splitLinesWithEndings base) (splitLinesWithEndings base).length
 = base.length := by
 rw [startOf_length, splitLinesWithEndings, flatten_split]

theorem exists_line {i : Nat} (h : i < base.length) :
 ∃ k < (splitLinesWithEndings base).length, startOf (splitLinesWithEndings base) k ≤ i
  ∧ i < startOf (splitLinesWithEndings base) (k + 1) := by
 have hex : ∃ k, i < startOf (splitLinesWithEndings base) k := ⟨_, by rw [startOf_lines]; exact h⟩
 have hfind := Nat.find_spec hex
 have hle : Nat.find hex ≤ (splitLinesWithEndings base).length :=
  Nat.find_min' hex (by rw [startOf_lines]; exact h)
 cases hk : Nat.find hex with
 | zero =>
  rw [hk, startOf_zero] at hfind
  exact absurd hfind (Nat.not_lt_zero i)
 | succ k =>
  rw [hk] at hfind hle
  exact ⟨k, hle, Nat.not_lt.mp (Nat.find_min hex (by omega)), hfind⟩

theorem replacementLineRange_inside (hindex : replacement.index < base.length)
 (hinside : replacement.Inside base) :
 ∃ range, replacementLineRange (lineSpans base) replacement = .ok range := by
 obtain ⟨k, hk, hfirst, hnext⟩ := exists_line hindex
 rw [replacementLineRange]
 dsimp only
 cases hstart : (lineSpans base).findIdx? fun span =>
  decide (replacement.index ≥ span.1) && decide (replacement.index < span.2) with
 | none =>
  have hnone := findIdx?_eq_none_iff.mp hstart _ (mem_of_getElem? (lineSpans_get hk))
  simp [hfirst, hnext] at hnone
 | some startLine =>
  obtain ⟨hlt, -, -⟩ := findIdx?_eq_some_iff_getElem.mp hstart
  rw [lineSpans_length] at hlt
  obtain ⟨passed, hend, hle, hpassed, -⟩ := endLineFrom_spec
   (replacement.index + replacement.length) startLine ((lineSpans base).drop startLine)
  rw [length_drop, lineSpans_length] at hle
  dsimp only
  rw [hend, if_neg]
  · exact ⟨_, rfl⟩
  · -- the last line ends where the text ends
    rw [lineSpans_length]
    intro hge
    obtain ⟨last, rfl⟩ : ∃ last, passed = last + 1 := ⟨passed - 1, by omega⟩
    have hlast := hpassed last (by omega)
    rw [getElem?_drop, lineSpans_get (by omega)] at hlast
    have hend := hlast _ rfl
    have hall : startLine + last + 1 = (splitLinesWithEndings base).length := by omega
    rw [hall, startOf_lines] at hend
    unfold Replacement.Inside at hinside
    omega

/-! ## Groups -/

def Replacement.ShareLine (lines : List (List Char)) (a b : Replacement) : Prop :=
 ∃ k, a.Touches lines k ∧ b.Touches lines k

/-- Each match behind the first shares a line with one in front of it. -/
inductive Linked (lines : List (List Char)) : List Replacement → Prop
 | one (r : Replacement) : Linked lines [r]
 | more {rs : List Replacement} {earlier r : Replacement} : Linked lines rs → earlier ∈ rs →
  earlier.ShareLine lines r → Linked lines (rs ++ [r])

variable {rs : List Replacement}

theorem Linked.exists_mem {lines : List (List Char)} (h : Linked lines rs) : ∃ r, r ∈ rs := by
 cases h with
 | one r => exact ⟨r, by simp⟩
 | more _ _ _ => exact ⟨_, mem_append_right _ (mem_singleton_self _)⟩

/-- A group is the lines its matches touch, and holds them. -/
structure LineGroup.Covers (lines : List (List Char)) (group : LineGroup) : Prop where
 lt : group.start < group.stop
 le : group.stop ≤ lines.length
 touched : ∀ k, (∃ r ∈ group.replacements, r.Touches lines k) ↔ group.start ≤ k ∧ k < group.stop
 inside : ∀ r ∈ group.replacements, startOf lines group.start ≤ r.index
  ∧ r.index + r.length ≤ startOf lines group.stop
 linked : Linked lines group.replacements

/-- Groups, the last one first, and the matches they hold. -/
structure Grouped (lines : List (List Char)) (done : List Replacement)
 (groups : List LineGroup) : Prop where
 covers : ∀ group ∈ groups, group.Covers lines
 /-- A group ends in front of the next. -/
 apart : groups.Pairwise fun later earlier => earlier.stop ≤ later.start
 all : groups.reverse.flatMap (·.replacements) = done

variable {lines : List (List Char)} {done : List Replacement} {groups before : List LineGroup}
 {current : LineGroup}

theorem Grouped.fresh (h : Grouped lines done groups)
 (hrange : LineRange lines replacement start stop)
 (hlast : ∀ group ∈ groups, group.stop ≤ start) :
 Grouped lines (done ++ [replacement])
  ({ start, stop, replacements := [replacement] } :: groups) where
 covers := by
  rintro group hgroup
  rcases mem_cons.mp hgroup with rfl | hgroup
  · refine ⟨hrange.lt, hrange.le, fun k => ?_, fun r hr => ?_, .one _⟩
    · simpa using hrange.touches k
    · obtain rfl := mem_singleton.mp hr
      exact ⟨hrange.first, hrange.last⟩
  · exact h.covers group hgroup
 apart := .cons hlast h.apart
 all := by simp [← h.all]

theorem Grouped.join (h : Grouped lines done (current :: before))
 (hrange : LineRange lines replacement start stop) (hfirst : current.start ≤ start)
 (hshare : start < current.stop) :
 Grouped lines (done ++ [replacement]) ({ current with
   stop := max current.stop stop
   replacements := current.replacements ++ [replacement] } :: before) where
 covers := by
  rintro group hgroup
  rcases mem_cons.mp hgroup with rfl | hgroup
  · have hcurrent := h.covers current (mem_cons_self ..)
    refine ⟨hcurrent.lt.trans_le (Nat.le_max_left ..), Nat.max_le.mpr ⟨hcurrent.le, hrange.le⟩,
     fun k => ?_, fun r hr => ?_, ?_⟩
    · have hold := hcurrent.touched k
      have hnew := hrange.touches k
      have := hrange.lt
      simp only [mem_append, mem_singleton, or_and_right, exists_or, exists_eq_left, hold, hnew]
      omega
    · rcases mem_append.mp hr with hr | hr
      · obtain ⟨hlow, hhigh⟩ := hcurrent.inside r hr
        exact ⟨hlow, hhigh.trans (startOf_mono (Nat.le_max_left ..))⟩
      · obtain rfl := mem_singleton.mp hr
        exact ⟨(startOf_mono hfirst).trans hrange.first,
         hrange.last.trans (startOf_mono (Nat.le_max_right ..))⟩
    · obtain ⟨earlier, hearlier, htouches⟩ := (hcurrent.touched start).mpr ⟨hfirst, hshare⟩
      exact hcurrent.linked.more hearlier
       ⟨start, htouches, (hrange.touches start).mpr ⟨Nat.le_refl _, hrange.lt⟩⟩
  · exact h.covers group (mem_cons_of_mem _ hgroup)
 apart := by
  obtain ⟨hbefore, hrest⟩ := pairwise_cons.mp h.apart
  exact .cons hbefore hrest
 all := by
  have := h.all
  simp only [reverse_cons, flatMap_append, flatMap_cons, flatMap_nil, append_nil] at this ⊢
  rw [← append_assoc, this]

/-- **Gathered matches.** Sorted matches are gathered into groups of the lines they touch. -/
theorem groupLines_ok {result : List LineGroup}
 (hgrouped : Grouped (splitLinesWithEndings base) done groups)
 (hsorted : (done ++ rs).Pairwise fun a b => a.index ≤ b.index)
 (h : groupLines (lineSpans base) rs groups = .ok result) :
 ∃ groups', Grouped (splitLinesWithEndings base) (done ++ rs) groups'
  ∧ result = groups'.reverse := by
 induction rs generalizing done groups with
 | nil =>
  rw [groupLines] at h
  injection h with h
  exact ⟨groups, by rwa [append_nil], h.symm⟩
 | cons r rs ih =>
  rw [groupLines] at h
  obtain ⟨⟨start, stop⟩, hok, h⟩ := Except.bind_ok h
  have hrange := replacementLineRange_ok hok
  have hdone : done ++ r :: rs = done ++ [r] ++ rs := by simp
  rw [hdone] at hsorted ⊢
  cases groups with
  | nil => exact ih (hgrouped.fresh hrange (by simp)) hsorted h
  | cons current before =>
   have hcurrent := hgrouped.covers current (mem_cons_self ..)
   dsimp only at h
   split at h
   next hshare =>
    refine ih (hgrouped.join hrange ?_ hshare) hsorted h
    -- the group has a match in front of this one
    obtain ⟨r₀, hr₀⟩ := hcurrent.linked.exists_mem
    have hmem : r₀ ∈ done := by
     rw [← hgrouped.all]
     exact mem_flatMap.mpr ⟨current, by simp, hr₀⟩
    have hle := (pairwise_append.mp (pairwise_append.mp hsorted).1).2.2 r₀ hmem r
     (mem_singleton_self r)
    exact le_of_startOf ((hcurrent.inside r₀ hr₀).1.trans hle) hrange.inFirst
   next hapart =>
    refine ih (hgrouped.fresh hrange fun group hgroup => ?_) hsorted h
    rcases mem_cons.mp hgroup with rfl | hgroup
    · exact Nat.not_lt.mp hapart
    · have := (pairwise_cons.mp hgrouped.apart).1 group hgroup
      have := hcurrent.lt
      omega

/-! ## The text -/

/-- The original's lines from `k` on, with the lines of each group written from the base, the
group's matches replaced. -/
inductive Woven (originalLines : List (List Char)) (base : List Char) :
 Nat → List LineGroup → List Char → Prop
 | rest (k : Nat) : Woven originalLines base k [] (originalLines.drop k).flatten
 | group {k : Nat} {group : LineGroup} {groups : List LineGroup} {edited text : List Char} :
  k ≤ group.start →
  Replaces (startOf (splitLinesWithEndings base) group.start)
   (group.replacements.map (Replacement.region base))
   (((splitLinesWithEndings base).take group.stop).drop group.start).flatten edited →
  Woven originalLines base group.stop groups text →
  Woven originalLines base k (group :: groups)
   (((originalLines.take group.start).drop k).flatten ++ edited ++ text)

theorem splitLines_flatten : (splitLinesWithEndings base).flatten = base := flatten_split _ _

theorem LineGroup.Covers.replaces {group : LineGroup}
 (h : group.Covers (splitLinesWithEndings base))
 (hapart : group.replacements.Pairwise fun a b => a.index + a.length ≤ b.index) :
 Replaces (startOf (splitLinesWithEndings base) group.start)
  (group.replacements.map (Replacement.region base))
  (((splitLinesWithEndings base).take group.stop).drop group.start).flatten
  (applyReplacements ((base.take (startOf (splitLinesWithEndings base) group.stop)).drop
    (startOf (splitLinesWithEndings base) group.start))
   group.replacements (startOf (splitLinesWithEndings base) group.start)) := by
 have htext := take_drop_startOf (splitLinesWithEndings base) (Nat.le_of_lt h.lt)
 rw [splitLines_flatten] at htext
 have hstop : startOf (splitLinesWithEndings base) group.stop ≤ base.length := by
  rw [← startOf_lines]
  exact startOf_mono h.le
 have hstart : startOf (splitLinesWithEndings base) group.start
  ≤ startOf (splitLinesWithEndings base) group.stop := startOf_mono (Nat.le_of_lt h.lt)
 have hinside : ∀ r ∈ group.replacements, r.Inside base := fun r hr => (h.inside r hr).2.trans hstop
 rw [applyReplacements_eq hinside, ← htext]
 refine Splice.replaces_fromBack (Splice.ordered_of_pairwise (Nat.le_add_right ..) ?_ ?_) ?_
 · intro region hregion
   obtain ⟨r, hr, rfl⟩ := mem_map.mp hregion
   have := h.inside r hr
   rw [(hinside r hr).length, length_drop, length_take]
   exact ⟨this.1, by show r.index + r.length ≤ _; omega⟩
 · rw [pairwise_map]
   refine hapart.imp_of_mem fun {a b} ha _ hab => ?_
   rw [(hinside a ha).length]
   exact hab
 · intro region hregion
   obtain ⟨r, hr, rfl⟩ := mem_map.mp hregion
   obtain ⟨hlow, hhigh⟩ := h.inside r hr
   rw [Splice.Matches, (hinside r hr).length]
   show ((_ : List Char).drop (r.index - _)).take _ = (base.drop r.index).take r.length
   rw [drop_drop, Nat.add_sub_cancel' hlow, drop_take, take_take, Nat.min_eq_left (by omega)]

theorem writeGroups_woven {originalLines : List (List Char)} {k : Nat}
 (hcovers : ∀ group ∈ groups, group.Covers (splitLinesWithEndings base))
 (hordered : groups.Pairwise fun earlier later => earlier.stop ≤ later.start)
 (hfirst : ∀ group ∈ groups, k ≤ group.start)
 (hapart : ∀ group ∈ groups, group.replacements.Pairwise fun a b => a.index + a.length ≤ b.index) :
 Woven originalLines base k groups (writeGroups originalLines base (lineSpans base) k groups) := by
 induction groups generalizing k with
 | nil => exact .rest k
 | cons group groups ih =>
  have hgroup := hcovers group (mem_cons_self ..)
  obtain ⟨hnext, hordered⟩ := pairwise_cons.mp hordered
  have hstart : ((lineSpans base).getD group.start (0, 0)).1
   = startOf (splitLinesWithEndings base) group.start := by
   have := hgroup.lt
   have := hgroup.le
   rw [getD_eq_getElem?_getD, lineSpans_get (by omega)]
   rfl
  have hstop : ((lineSpans base).getD (group.stop - 1) (0, 0)).2
   = startOf (splitLinesWithEndings base) group.stop := by
   have := hgroup.lt
   have := hgroup.le
   rw [getD_eq_getElem?_getD, lineSpans_get (by omega)]
   show startOf _ (group.stop - 1 + 1) = _
   rw [Nat.sub_add_cancel (by omega)]
  rw [writeGroups]
  simp only [hstart, hstop]
  exact .group (hfirst group (mem_cons_self ..)) (hgroup.replaces (hapart group (mem_cons_self ..)))
   (ih (fun g hg => hcovers g (mem_cons_of_mem _ hg)) hordered hnext
    (fun g hg => hapart g (mem_cons_of_mem _ hg)))

/-! ## The result -/

theorem sortByIndex_again (rs : List Replacement) : sortByIndex (sortByIndex rs) = sortByIndex rs :=
 (sortByIndex_sorted rs).insertionSort_eq

/-- **Edits found in the normalised view keep the lines they do not touch.** Where some edit is
found there only and the edits are applied, the view has as many lines as the content, and the
matches are gathered into groups in order: each group is exactly the lines its matches touch,
each of its matches shares a line with one in front of it, and no line is in two groups. The new
content is the content's lines, with the lines of each group written from the view and its
matches replaced in them. -/
theorem fuzzy_edits_keep_lines (nfkc : List Char → List Char) (content : List Char)
 (edits : List Edit) (applied : AppliedEdits)
 (hfuzzy : usesFuzzy nfkc content (normalizeEdits edits) = true)
 (h : applyEditsToNormalizedContent nfkc content edits = .ok applied) :
 ∃ base matched groups, base = normalizeForFuzzyMatch nfkc content
  ∧ matchEdits nfkc base 0 (normalizeEdits edits) = .ok matched
  ∧ (splitLinesWithEndings content).length = (splitLinesWithEndings base).length
  ∧ (groups.flatMap (·.replacements)).Perm matched
  ∧ (∀ group ∈ groups, group.Covers (splitLinesWithEndings base))
  ∧ (groups.Pairwise fun earlier later => earlier.stop ≤ later.start)
  ∧ Woven (splitLinesWithEndings content) base 0 groups applied.newContent := by
 obtain ⟨matched, happlies⟩ := apply_ok.mp h
 have hbase : editBase nfkc content edits = normalizeForFuzzyMatch nfkc content := by
  rw [editBase, hfuzzy]
  rfl
 have hfound := happlies.found
 have hwritten := happlies.written
 rw [hbase] at hfound
 rw [writeMatches, hfuzzy, hbase, if_pos rfl, applyReplacementsPreservingUnchangedLines] at hwritten
 split at hwritten
 · simp at hwritten
 next hlines =>
  obtain ⟨result, hgroups, hwritten⟩ := Except.bind_ok hwritten
  injection hwritten with hwritten
  rw [sortByIndex_again] at hgroups
  obtain ⟨groups, hgrouped, rfl⟩ : ∃ groups,
   Grouped (splitLinesWithEndings (normalizeForFuzzyMatch nfkc content)) (sortByIndex matched)
    groups ∧ result = groups.reverse :=
   groupLines_ok ⟨by simp, .nil, rfl⟩ (sortByIndex_sorted matched) hgroups
  rw [lineSpans_length, ne_eq, not_not] at hlines
  have hcovers : ∀ group ∈ groups.reverse,
   group.Covers (splitLinesWithEndings (normalizeForFuzzyMatch nfkc content)) :=
   fun group hgroup => hgrouped.covers group (mem_reverse.mp hgroup)
  have hordered : groups.reverse.Pairwise fun earlier later => earlier.stop ≤ later.start :=
   pairwise_reverse.mpr hgrouped.apart
  refine ⟨_, matched, groups.reverse, rfl, hfound, hlines, ?_, hcovers, hordered, ?_⟩
  · rw [hgrouped.all]
    exact sortByIndex_perm matched
  · rw [← hwritten]
    refine writeGroups_woven hcovers hordered (fun _ _ => Nat.zero_le _) fun group hgroup => ?_
    refine (firstOverlap_eq_none.mp happlies.apart).sublist ?_
    rw [← hgrouped.all]
    rw [flatMap_def]
    exact sublist_flatten_of_mem (mem_map_of_mem hgroup)

/-- The blank behind `b` stays, the one behind `a` does not. -/
theorem fuzzy_edits_keep_lines_quote :
 ∃ groups, Woven (splitLinesWithEndings "\u2019a \nb \n".toList) "'a\nb\n".toList 0 groups
  "c\nb \n".toList := by
 obtain ⟨base, _, groups, hbase, -, -, -, -, -, hwoven⟩ := fuzzy_edits_keep_lines id
  "\u2019a \nb \n".toList [{ oldText := "'a".toList, newText := "c".toList }]
  { baseContent := "\u2019a \nb \n".toList, newContent := "c\nb \n".toList }
  (by decide +kernel) (by decide +kernel)
 have : base = "'a\nb\n".toList := by rw [hbase]; decide +kernel
 exact ⟨groups, this ▸ hwoven⟩

end Bake.Tools
