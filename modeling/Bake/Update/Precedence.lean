import Bake.Update.Version
import Mathlib.Data.Set.List

/-!
# The order of release versions

Semantic versions without build metadata and their precedence, in their own terms: numbers
are natural numbers, a prerelease is a list of identifiers. The release versions are the
texts of these, and `compare_versions` of two texts is the precedence of the versions.
-/

open List Nat Bool

namespace Bake.Update

open Nat (compare_eq_eq compare_eq_gt compare_eq_lt ofDigitChars toDigits)

/-- A prerelease identifier: a number, or letters, digits and hyphens that are no number. -/
inductive Identifier where
 | number (n : Nat)
 | word (chars : List Char) (syntactic : chars.all fun c => c.isAlphanum || c == '-')
  (wordlike : chars.any fun c => !c.isDigit)

/-- A semantic version; a prerelease has at least one identifier. -/
structure SemVer where
 major : Nat
 minor : Nat
 patch : Nat
 pre : Option { identifiers : List Identifier // identifiers ≠ [] }

namespace Identifier

def text : Identifier → List Char
 | number n => toDigits 10 n
 | word chars _ _ => chars

def precedence : Identifier → Identifier → Ordering
 | number m, number n => compare m n
 | number _, word .. => .lt
 | word .., number _ => .gt
 | word left _ _, word right _ _ => compare left right

instance : Std.TransCmp precedence where
 eq_swap {a b} := by
  cases a <;> cases b <;> simp only [precedence]
  all_goals first
   | exact Std.OrientedCmp.eq_swap
   | rfl
 isLE_trans {a b c} hab hbc := by
  cases a <;> cases b <;> cases c <;> simp only [precedence] at *
  all_goals first
   | exact Std.TransCmp.isLE_trans hab hbc
   | simp at *

instance : Std.LawfulEqCmp precedence where
 compare_self {a} := by cases a <;> exact Std.ReflCmp.compare_self
 eq_of_compare {a b} h := by
  cases a <;> cases b <;> simp [precedence] at h <;> simp [h]

end Identifier

namespace SemVer

/-- The three numbers. -/
def core (v : SemVer) : List (List Char) := [v.major, v.minor, v.patch].map (toDigits 10)

def text (v : SemVer) : List Char := ['.'].intercalate v.core ++ match v.pre with
  | none => []
  | some pre => '-' :: ['.'].intercalate (pre.1.map Identifier.text)

/-- A prerelease comes before its release. -/
def prePrecedence : Option { identifiers : List Identifier // identifiers ≠ [] } →
 Option { identifiers : List Identifier // identifiers ≠ [] } → Ordering
 | none, none => .eq
 | none, some _ => .gt
 | some _, none => .lt
 | some left, some right => List.compareLex Identifier.precedence left.1 right.1

def precedence : SemVer → SemVer → Ordering :=
 compareLex (compareOn major) (compareLex (compareOn minor)
  (compareLex (compareOn patch) fun a b => prePrecedence a.pre b.pre))

instance : Std.TransCmp fun a b : SemVer => prePrecedence a.pre b.pre where
 eq_swap {a b} := by
  cases a.pre <;> cases b.pre <;> simp only [prePrecedence]
  all_goals first
   | exact Std.OrientedCmp.eq_swap
   | rfl
 isLE_trans {a b c} hab hbc := by
  cases ha : a.pre <;> cases hb : b.pre <;> cases hc : c.pre <;>
   simp only [ha, hb, hc, prePrecedence] at *
  all_goals first
   | exact Std.TransCmp.isLE_trans hab hbc
   | simp at *

instance : Std.TransCmp precedence := by
 unfold precedence
 infer_instance

theorem eq_of_precedence {a b : SemVer} (h : precedence a b = .eq) : a = b := by
 obtain ⟨major, minor, patch, pre⟩ := a
 obtain ⟨major', minor', patch', pre'⟩ := b
 simp only [precedence, compareLex, compareOn, Ordering.then_eq_eq, compare_eq_eq] at h
 obtain ⟨rfl, rfl, rfl, hpre⟩ := h
 cases pre <;> cases pre' <;> simp only [prePrecedence] at hpre
 · rfl
 · simp at hpre
 · simp at hpre
 · rw [Subtype.ext (Std.LawfulEqCmp.eq_of_compare hpre)]

end SemVer

/-! ## Digits -/

variable {part : List Char} {m n : Nat}

theorem isDigits_toDigits (n : Nat) : isDigits (toDigits 10 n) = true := by
 simp only [isDigits, and_eq_true, not_eq_true', isEmpty_eq_false_iff, all_eq_true]
 exact ⟨toDigits_ne_nil, fun c hc => isDigit_of_mem_toDigits (by decide) (by decide) hc⟩

theorem head_toDigits (hn : 0 < n) : (toDigits 10 n).head? ≠ some '0' := by
 induction n using Nat.strongRecOn with
 | ind n ih =>
  rw [Nat.toDigits_eq_if (by decide)]
  split
  · simp [Nat.ne_of_gt hn]
  · rw [head?_append_of_ne_nil _ Nat.toDigits_ne_nil]
    exact ih (n / 10) (by omega) (by omega)

theorem isNumber_toDigits (n : Nat) : isNumber (toDigits 10 n) = true := by
 rw [isNumber, isDigits_toDigits, Bool.true_and]
 rcases Nat.eq_zero_or_pos n with rfl | hn
 · rfl
 · simp [head_toDigits hn]

theorem digit_cases {c : Char} (h : c.isDigit) : ∃ k < 10, c = k.digitChar := by
 have hrange : 48 ≤ c.toNat ∧ c.toNat ≤ 57 := by
  simp only [Char.isDigit, and_eq_true, decide_eq_true_eq] at h
  exact ⟨h.1, h.2⟩
 refine ⟨c.toNat - 48, by omega, Char.toNat_inj.mp ?_⟩
 rw [toNat_digitChar_of_lt_ten (by omega)]
 omega

theorem toDigits_of_isDigits (h : isDigits part) (hhead : part.head? ≠ some '0') :
 ∃ n, 0 < n ∧ part = toDigits 10 n := by
 simp only [isDigits, and_eq_true, not_eq_true', isEmpty_eq_false_iff] at h
 obtain ⟨hne, hall⟩ := h
 induction part using reverseRecOn with
 | nil => exact absurd rfl hne
 | append_singleton front c ih =>
  rw [all_append, and_eq_true] at hall
  obtain ⟨k, hk, rfl⟩ := digit_cases (by simpa using hall.2)
  by_cases hfront : front = []
  · subst hfront
    refine ⟨k, ?_, (toDigits_of_lt_base hk).symm⟩
    have : k ≠ 0 := by simpa using hhead
    omega
  · obtain ⟨n, hn, rfl⟩ := ih (by rwa [head?_append_of_ne_nil _ hfront] at hhead) hfront hall.1
    refine ⟨10 * n + k, by omega, ?_⟩
    rw [← toDigits_append_toDigits (by decide) hn hk, toDigits_of_lt_base hk]

theorem toDigits_of_isNumber (h : isNumber part) : ∃ n, part = toDigits 10 n := by
 simp only [isNumber, and_eq_true, or_eq_true, beq_iff_eq, bne_iff_ne] at h
 rcases h.2 with rfl | hhead
 · exact ⟨0, rfl⟩
 · obtain ⟨n, -, hn⟩ := toDigits_of_isDigits h.1 hhead
   exact ⟨n, hn⟩

theorem compare_digits {a b : List Char} (ha : ∀ c ∈ a, c.isDigit) (hb : ∀ c ∈ b, c.isDigit)
 (hlen : a.length = b.length) :
 compare a b = compare (ofDigitChars 10 a 0) (ofDigitChars 10 b 0)
  ∧ ofDigitChars 10 a 0 < 10 ^ a.length ∧ ofDigitChars 10 b 0 < 10 ^ a.length := by
 induction a generalizing b with
 | nil =>
  rw [length_eq_zero_iff.mp hlen.symm]
  exact ⟨rfl, by simp, by simp⟩
 | cons c a ih =>
  cases b with
  | nil => simp at hlen
  | cons d b =>
   obtain ⟨i, hi, rfl⟩ := digit_cases (ha _ mem_cons_self)
   obtain ⟨j, hj, rfl⟩ := digit_cases (hb _ mem_cons_self)
   obtain ⟨hcompare, hlta, hltb⟩ := ih (fun c hc => ha c (mem_cons_of_mem _ hc))
    (fun c hc => hb c (mem_cons_of_mem _ hc)) (by simpa using hlen)
   have hlen : b.length = a.length := by simpa using hlen.symm
   have hdigit : ∀ i j : Fin 10, compare (Nat.digitChar i) (Nat.digitChar j) = compare i.1 j.1 := by
    decide
   have hcons : compare (i.digitChar :: a) (j.digitChar :: b)
    = (compare i.digitChar j.digitChar).then (compare a b) := List.compareLex_cons_cons
   rw [hcons, hdigit ⟨i, hi⟩ ⟨j, hj⟩, hcompare,
    Nat.ofDigitChars_cons_digitChar_of_lt_ten hi, Nat.ofDigitChars_cons_digitChar_of_lt_ten hj,
    @Nat.ofDigitChars_eq_ofDigitChars_zero a (10 * 0 + i),
    @Nat.ofDigitChars_eq_ofDigitChars_zero b (10 * 0 + j), hlen]
   simp only [length_cons, Nat.mul_zero, Nat.zero_add, Nat.pow_succ]
   generalize ofDigitChars 10 a 0 = low at *
   generalize ofDigitChars 10 b 0 = low' at *
   generalize 10 ^ a.length = unit at *
   have hstep : ∀ {x y : Nat}, x < y → unit * x + unit ≤ unit * y := fun h => by
    simpa [Nat.mul_succ] using Nat.mul_le_mul_left unit h
   have hi := hstep hi
   have hj := hstep hj
   refine ⟨?_, by omega, by omega⟩
   rcases Nat.lt_trichotomy i j with h | rfl | h
   · have := hstep h
     rw [compare_eq_lt.mpr h]
     exact (compare_eq_lt.mpr (by omega)).symm
   · rw [compare_eq_eq.mpr rfl, Ordering.eq_then]
     rcases Nat.lt_trichotomy low low' with h | rfl | h
     · rw [compare_eq_lt.mpr h, compare_eq_lt.mpr (by omega)]
     · rw [compare_eq_eq.mpr rfl, compare_eq_eq.mpr rfl]
     · rw [compare_eq_gt.mpr h, compare_eq_gt.mpr (by omega)]
   · have := hstep h
     rw [compare_eq_gt.mpr h]
     exact (compare_eq_gt.mpr (by omega)).symm

/-- What `compare_numbers` makes of a number's text: without leading zeros the number has
at most so many digits as it is below that power of ten. -/
theorem dropWhile_toDigits (n : Nat) : (∀ c ∈ (toDigits 10 n).dropWhile (· == '0'), c.isDigit)
  ∧ ofDigitChars 10 ((toDigits 10 n).dropWhile (· == '0')) 0 = n
  ∧ ∀ k, ((toDigits 10 n).dropWhile (· == '0')).length ≤ k ↔ n < 10 ^ k := by
 rcases Nat.eq_zero_or_pos n with rfl | hn
 · exact ⟨fun _ hc => absurd hc List.not_mem_nil, rfl, fun k => ⟨fun _ => Nat.pow_pos (by decide), fun _ => Nat.zero_le k⟩⟩
 have hsame : (toDigits 10 n).dropWhile (· == '0') = toDigits 10 n := by
  have hhead := head_toDigits hn
  cases hd : toDigits 10 n with
  | nil => rfl
  | cons c rest =>
   rw [hd] at hhead
   exact dropWhile_cons_of_neg (by simpa using hhead)
 rw [hsame]
 refine ⟨fun c hc => Nat.isDigit_of_mem_toDigits (by decide) (by decide) hc,
  Nat.ofDigitChars_ten_toDigits, fun k => ?_⟩
 cases k with
 | zero => simp; omega
 | succ k => exact Nat.length_toDigits_le_iff (by decide) (by omega)

theorem compareNumbers_toDigits (m n : Nat) :
 compareNumbers (toDigits 10 m) (toDigits 10 n) = compare m n := by
 obtain ⟨hm, hvalue, hmlen⟩ := dropWhile_toDigits m
 obtain ⟨hn, hvalue', hnlen⟩ := dropWhile_toDigits n
 rw [compareNumbers]
 generalize (toDigits 10 m).dropWhile (· == '0') = a at *
 generalize (toDigits 10 n).dropWhile (· == '0') = b at *
 rcases Nat.lt_trichotomy a.length b.length with h | h | h
 · have hlow := (hmlen a.length).mp (Nat.le_refl _)
   have hhigh := mt (hnlen a.length).mpr (by omega)
   rw [compare_eq_lt.mpr h]
   exact (compare_eq_lt.mpr (by omega)).symm
 · rw [compare_eq_eq.mpr h, Ordering.eq_then, (compare_digits hm hn h).1, hvalue, hvalue']
 · have hlow := (hnlen b.length).mp (Nat.le_refl _)
   have hhigh := mt (hmlen b.length).mpr (by omega)
   rw [compare_eq_gt.mpr h]
   exact (compare_eq_gt.mpr (by omega)).symm

/-! ## Texts -/

namespace Identifier

theorem isDigits_text (identifier : Identifier) : isDigits identifier.text = match identifier with
  | number _ => true
  | word .. => false := by
 cases identifier with
 | number n => exact isDigits_toDigits n
 | word chars syntactic wordlike =>
  obtain ⟨c, hc, hword⟩ := any_eq_true.mp wordlike
  simp only [text, isDigits, and_eq_false_iff]
  exact .inr (all_eq_false.mpr ⟨c, hc, by simpa using hword⟩)

theorem text_syntactic (identifier : Identifier) :
 (!identifier.text.isEmpty && identifier.text.all (fun c => c.isAlphanum || c == '-')
  && (!isDigits identifier.text || isNumber identifier.text)) = true := by
 rw [isDigits_text]
 cases identifier with
 | number n =>
  simp only [text, isNumber_toDigits, Bool.or_true, Bool.and_true, Bool.and_eq_true,
   Bool.not_eq_true', isEmpty_eq_false_iff, all_eq_true]
  refine ⟨toDigits_ne_nil, fun c hc => ?_⟩
  simp [Char.isAlphanum, isDigit_of_mem_toDigits (by decide) (by decide) hc]
 | word chars syntactic wordlike =>
  obtain ⟨c, hc, -⟩ := any_eq_true.mp wordlike
  simp [text, syntactic, ne_nil_of_mem hc]

theorem exists_text (hne : part.isEmpty = false)
 (hall : part.all fun c => c.isAlphanum || c == '-') (hnumber : isDigits part → isNumber part) :
 ∃ identifier : Identifier, identifier.text = part := by
 cases hd : isDigits part with
 | true =>
  obtain ⟨n, rfl⟩ := toDigits_of_isNumber (hnumber hd)
  exact ⟨.number n, rfl⟩
 | false =>
  simp only [isDigits, hne, Bool.not_false, Bool.true_and] at hd
  obtain ⟨c, hc, hword⟩ := all_eq_false.mp hd
  exact ⟨.word part hall (any_eq_true.mpr ⟨c, hc, by simpa using hword⟩), rfl⟩

theorem not_dot (identifier : Identifier) : '.' ∉ identifier.text := fun hdot => by
 have h := text_syntactic identifier
 simp only [and_eq_true, all_eq_true] at h
 exact absurd (h.1.2 '.' hdot) (by decide)

end Identifier

theorem splitVersion_core {core : List Char} (h : '-' ∉ core) (rest : List Char) :
 splitVersion core = (core, none) ∧ splitVersion (core ++ '-' :: rest) = (core, some rest) := by
 have hall : ∀ c ∈ core, (c != '-') = true := fun c hc => by
  simp only [bne_iff_ne]
  exact fun he => h (he ▸ hc)
 simp only [splitVersion, span_eq_takeWhile_dropWhile]
 constructor
 · rw [← append_nil core, takeWhile_append_of_pos hall, dropWhile_append_of_pos hall]
   simp
 · rw [takeWhile_append_of_pos hall, dropWhile_append_of_pos hall]
   simp

namespace SemVer

theorem isNumber_core {v : SemVer} (hp : part ∈ v.core) : isNumber part := by
 obtain ⟨n, -, rfl⟩ := mem_map.mp hp
 exact isNumber_toDigits n

variable (v : SemVer)

theorem core_no_hyphen : '-' ∉ ['.'].intercalate v.core := fun h => by
 have hparts : ∀ part ∈ v.core, '.' ∉ part := fun part hp hdot =>
  absurd (isDigits_chars (isNumber_core hp) hdot) (by decide)
 rcases mem_splitOn '.' h with he | ⟨part, hp, hc⟩
 · exact absurd he (by decide)
 · rw [splitOn_intercalate '.' hparts (by simp [core])] at hp
   exact absurd (isDigits_chars (isNumber_core hp) hc) (by decide)

theorem splitVersion_text : splitVersion v.text = (['.'].intercalate v.core,
 v.pre.map fun pre => ['.'].intercalate (pre.1.map Identifier.text)) := by
 rw [text]
 cases v.pre with
 | none => rw [append_nil, (splitVersion_core v.core_no_hyphen []).1, Option.map_none]
 | some pre => exact (splitVersion_core v.core_no_hyphen _).2

theorem splitOn_core : (['.'].intercalate v.core).splitOn '.' = v.core :=
 splitOn_intercalate '.' (fun part hp hdot =>
  absurd (isDigits_chars (isNumber_core hp) hdot) (by decide)) (by simp [core])

theorem splitOn_pre (pre : { identifiers : List Identifier // identifiers ≠ [] }) :
 (['.'].intercalate (pre.1.map Identifier.text)).splitOn '.' = pre.1.map Identifier.text := by
 refine splitOn_intercalate '.' (fun part hp => ?_) (by simpa using pre.2)
 obtain ⟨identifier, -, rfl⟩ := mem_map.mp hp
 exact identifier.not_dot

theorem isReleaseVersion_iff (value : String) :
 isReleaseVersion value ↔ ∃ v : SemVer, v.text = value.toList := by
 constructor
 · intro h
   simp only [isReleaseVersion, Bool.and_eq_true, beq_iff_eq] at h
   obtain ⟨⟨hlen, hcore⟩, hpre⟩ := h
   obtain ⟨a, b, c, habc⟩ := length_eq_three.mp hlen
   rw [habc] at hcore
   simp only [all_cons, all_nil, Bool.and_true, Bool.and_eq_true] at hcore
   obtain ⟨major, rfl⟩ := toDigits_of_isNumber hcore.1
   obtain ⟨minor, rfl⟩ := toDigits_of_isNumber hcore.2.1
   obtain ⟨patch, rfl⟩ := toDigits_of_isNumber hcore.2.2
   rcases splitVersion_eq value.toList with ⟨core, heq, hv⟩ | ⟨core, pre, heq, hv⟩ <;>
    rw [heq] at habc hpre <;> have hjoin := congrArg ['.'].intercalate habc <;>
    rw [intercalate_splitOn] at hjoin
   · refine ⟨⟨major, minor, patch, none⟩, ?_⟩
     rw [text, append_nil, hv]
     exact hjoin.symm
   have hall : ∀ part ∈ pre.splitOn '.', part ∈ Set.range Identifier.text := fun part hp => by
    have := all_eq_true.mp hpre part hp
    simp only [Bool.and_eq_true, Bool.not_eq_true', Bool.or_eq_true] at this
    exact Identifier.exists_text this.1.1 this.1.2 fun hd => this.2.resolve_left (by simp [hd])
   obtain ⟨identifiers, hmap⟩ : pre.splitOn '.' ∈ Set.range (map Identifier.text) := by
    rwa [Set.range_list_map]
   have hne : identifiers ≠ [] := fun he => splitOn_ne_nil '.' pre (by rw [← hmap, he]; rfl)
   refine ⟨⟨major, minor, patch, some ⟨identifiers, hne⟩⟩, ?_⟩
   have hpre : ['.'].intercalate (identifiers.map Identifier.text) = pre := by
    rw [hmap, intercalate_splitOn]
   rw [hv]
   exact congrArg₂ (· ++ '-' :: ·) hjoin.symm hpre
 · rintro ⟨v, hv⟩
   simp only [isReleaseVersion, ← hv, splitVersion_text, splitOn_core, Bool.and_eq_true]
   refine ⟨⟨rfl, all_eq_true.mpr fun part hp => isNumber_core hp⟩, ?_⟩
   cases v.pre with
   | none => rfl
   | some pre =>
    simp only [Option.map_some, splitOn_pre, all_map, all_eq_true]
    exact fun identifier _ => identifier.text_syntactic

end SemVer

theorem then_eq (order next : Ordering) : (if order = .eq then next else order) = order.then next := by
 cases order <;> rfl

theorem comparePrerelease_text (left right : List Identifier) :
 comparePrerelease (left.map Identifier.text) (right.map Identifier.text)
  = List.compareLex Identifier.precedence left right := by
 induction left generalizing right with
 | nil => cases right <;> rfl
 | cons a left ih =>
  cases right with
  | nil => rfl
  | cons b right =>
   rw [map_cons, map_cons, comparePrerelease, ih, then_eq, List.compareLex_cons_cons]
   congr 1
   rw [a.isDigits_text, b.isDigits_text]
   cases a <;> cases b
   · exact compareNumbers_toDigits ..
   · rfl
   · rfl
   · rfl

theorem compareVersions_text {left right : SemVer} {l r : String} (hl : left.text = l.toList)
 (hr : right.text = r.toList) : compareVersions l r = left.precedence right := by
 have hpart : ∀ n, (((some (toDigits 10 n)).filter isDigits).getD ['0']) = toDigits 10 n :=
  fun n => by rw [Option.filter_some_pos (isDigits_toDigits n), Option.getD_some]
 simp only [compareVersions, ← hl, ← hr, SemVer.splitVersion_text, SemVer.splitOn_core, then_eq]
 simp only [SemVer.core, map_cons, map_nil, compareCores, head?_cons, tail_cons, hpart,
  compareNumbers_toDigits, then_eq, Ordering.then_eq, SemVer.precedence, compareLex, compareOn,
  Ordering.then_assoc]
 congr 3
 cases left.pre <;> cases right.pre
 · rfl
 · rfl
 · rfl
 next pre pre' =>
  simp only [Option.map_some, SemVer.splitOn_pre, comparePrerelease_text]
  rfl

/-- **Release versions are totally ordered.** They are the texts of the semantic versions
without build metadata, their order is the precedence of these, and only the same text is
equal. -/
theorem release_versions_ordered :
 (∀ value : String, isReleaseVersion value ↔ ∃ v : SemVer, v.text = value.toList)
  ∧ (∀ (left right : SemVer) (l r : String), left.text = l.toList → right.text = r.toList →
   compareVersions l r = left.precedence right)
  ∧ ∀ u v w : String, isReleaseVersion u → isReleaseVersion v → isReleaseVersion w →
   (compareVersions u v = .eq ↔ u = v) ∧ compareVersions v u = (compareVersions u v).swap
    ∧ ((compareVersions u v).isLE → (compareVersions v w).isLE → (compareVersions u w).isLE)
    ∧ ((compareVersions u v).isLE ∨ (compareVersions v u).isLE) := by
 refine ⟨SemVer.isReleaseVersion_iff, fun left right l r => compareVersions_text, ?_⟩
 intro u v w hu hv hw
 obtain ⟨a, ha⟩ := (SemVer.isReleaseVersion_iff u).mp hu
 obtain ⟨b, hb⟩ := (SemVer.isReleaseVersion_iff v).mp hv
 obtain ⟨c, hc⟩ := (SemVer.isReleaseVersion_iff w).mp hw
 have hswap : b.precedence a = (a.precedence b).swap := Std.OrientedCmp.eq_swap
 rw [compareVersions_text ha hb, compareVersions_text hb ha, compareVersions_text hb hc,
  compareVersions_text ha hc]
 refine ⟨⟨fun h => ?_, fun h => ?_⟩, hswap, Std.TransCmp.isLE_trans, ?_⟩
 · rw [← String.toList_inj, ← ha, ← hb, SemVer.eq_of_precedence h]
 · subst h
   rw [← compareVersions_text ha hb]
   exact (compareVersions_text ha ha).trans Std.ReflCmp.compare_self
 · rw [hswap]
   cases a.precedence b <;> simp

end Bake.Update
