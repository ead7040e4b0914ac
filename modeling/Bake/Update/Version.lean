import Bake.Ai.Message
import Mathlib.Data.List.TakeDrop

/-!
# Release versions

`version.rs`: the syntax of a release version and the order of two, by the precedence of
semantic versioning: a prerelease comes before its release, numeric identifiers compare as
numbers of any size and before others.
-/

open List

namespace Bake.Update

/-- `value` with its prerelease split off. -/
def splitVersion (value : List Char) : List Char × Option (List Char) :=
 match value.span (· != '-') with
 | (core, []) => (core, none)
 | (core, _ :: pre) => (core, some pre)

def isDigits (part : List Char) : Bool := !part.isEmpty && part.all Char.isDigit

/-- `0`, or digits without a leading zero. -/
def isNumber (part : List Char) : Bool := isDigits part && (part == ['0'] || part.head? != some '0')

def isReleaseVersion (value : String) : Bool :=
 let (core, pre) := splitVersion value.toList
 let parts := core.splitOn '.'
 parts.length == 3 && parts.all isNumber && match pre with
   | none => true
   | some pre => (pre.splitOn '.').all fun identifier =>
    !identifier.isEmpty && identifier.all (fun c => c.isAlphanum || c == '-')
     && (!isDigits identifier || isNumber identifier)

/-- Two runs of digits by value: without leading zeros the shorter is smaller. -/
def compareNumbers (left right : List Char) : Ordering :=
 let left := left.dropWhile (· == '0')
 let right := right.dropWhile (· == '0')
 (compare left.length right.length).then (compare left right)

def comparePrerelease : List (List Char) → List (List Char) → Ordering
 | [], [] => .eq
 | [], _ :: _ => .lt
 | _ :: _, [] => .gt
 | left :: lefts, right :: rights =>
  let order := match isDigits left, isDigits right with
   | true, true => compareNumbers left right
   | true, false => .lt
   | false, true => .gt
   | false, false => compare left right
  if order = .eq then comparePrerelease lefts rights else order

/-- The first parts of two cores; one that is missing or no number is `0`. -/
def compareCores : Nat → List (List Char) → List (List Char) → Ordering
 | 0, _, _ => .eq
 | parts + 1, lefts, rights =>
  let order := compareNumbers ((lefts.head?.filter isDigits).getD ['0'])
   ((rights.head?.filter isDigits).getD ['0'])
  if order = .eq then compareCores parts lefts.tail rights.tail else order

def compareVersions (left right : String) : Ordering :=
 let (leftCore, leftPre) := splitVersion left.toList
 let (rightCore, rightPre) := splitVersion right.toList
 let order := compareCores 3 (leftCore.splitOn '.') (rightCore.splitOn '.')
 if order = .eq then
  match leftPre, rightPre with
  | none, none => .eq
  | none, some _ => .gt
  | some _, none => .lt
  | some left, some right => comparePrerelease (left.splitOn '.') (right.splitOn '.')
 else order

/-! ## The characters of a version -/

theorem mem_splitOn (sep : Char) {c : Char} {text : List Char} (h : c ∈ text) :
 c = sep ∨ ∃ part ∈ text.splitOn sep, c ∈ part := by
 induction text with
 | nil => simp at h
 | cons a rest ih =>
  rw [splitOn_cons_eq_if_modifyHead]
  split
  next ha =>
   rcases mem_cons.mp h with rfl | h
   · exact Or.inl (by simpa using ha)
   · rcases ih h with h | ⟨part, hp, hc⟩
     · exact Or.inl h
     · exact Or.inr ⟨part, mem_cons_of_mem _ hp, hc⟩
  · cases hs : rest.splitOn sep with
    | nil => exact (splitOn_ne_nil _ _ hs).elim
    | cons first parts =>
     rw [hs] at ih
     rw [modifyHead_cons]
     rcases mem_cons.mp h with rfl | h
     · exact Or.inr ⟨_, mem_cons_self, mem_cons_self⟩
     · rcases ih h with h | ⟨part, hp, hc⟩
       · exact Or.inl h
       · rcases mem_cons.mp hp with rfl | hp
         · exact Or.inr ⟨_, mem_cons_self, mem_cons_of_mem _ hc⟩
         · exact Or.inr ⟨part, mem_cons_of_mem _ hp, hc⟩

def isVersionChar (c : Char) : Bool := c.isAlphanum || c == '-' || c == '.'

theorem isDigits_chars {part : List Char} (h : isNumber part) {c : Char} (hc : c ∈ part) :
 c.isDigit := by
 simp only [isNumber, isDigits, Bool.and_eq_true] at h
 exact all_eq_true.mp h.1.2 c hc

theorem splitVersion_eq (value : List Char) :
 (∃ core, splitVersion value = (core, none) ∧ value = core)
  ∨ ∃ core pre, splitVersion value = (core, some pre) ∧ value = core ++ '-' :: pre := by
 have happ := takeWhile_append_dropWhile (p := (· != '-')) (l := value)
 rw [splitVersion, span_eq_takeWhile_dropWhile]
 cases hd : value.dropWhile (· != '-') with
 | nil =>
  refine Or.inl ⟨_, rfl, ?_⟩
  rw [hd, append_nil] at happ
  exact happ.symm
 | cons c pre =>
  have hc : (c != '-') = false := by
   have := head_dropWhile_not (p := (· != '-')) (l := value) (by rw [hd]; simp)
   simpa [hd] using this
  have hc : c = '-' := by simpa using hc
  refine Or.inr ⟨_, pre, rfl, ?_⟩
  rw [hd, hc] at happ
  exact happ.symm

theorem version_chars {value : String} (h : isReleaseVersion value) {c : Char}
 (hc : c ∈ value.toList) : isVersionChar c := by
 have hcore : ∀ core : List Char, ((core.splitOn '.').all isNumber) = true → c ∈ core →
  isVersionChar c := by
  intro core hparts hmem
  rcases mem_splitOn '.' hmem with rfl | ⟨part, hp, hc⟩
  · rfl
  · have := isDigits_chars (all_eq_true.mp hparts part hp) hc
    simp [isVersionChar, Char.isAlphanum, this]
 simp only [isReleaseVersion, Bool.and_eq_true] at h
 rcases splitVersion_eq value.toList with ⟨core, heq, hv⟩ | ⟨core, pre, heq, hv⟩ <;> rw [heq] at h
 · exact hcore core h.1.2 (hv ▸ hc)
 · rw [hv, mem_append, mem_cons] at hc
   rcases hc with hc | rfl | hc
   · exact hcore core h.1.2 hc
   · rfl
   · rcases mem_splitOn '.' hc with rfl | ⟨part, hp, hc⟩
     · rfl
     · have hall := all_eq_true.mp h.2 part hp
       simp only [Bool.and_eq_true, all_eq_true] at hall
       have := hall.1.2 c hc
       simp only [isVersionChar, Bool.or_eq_true] at this ⊢
       exact Or.inl this

theorem version_head {value : String} (h : isReleaseVersion value) :
 ∃ c rest, value.toList = c :: rest ∧ c.isDigit := by
 have hcore : ∀ core : List Char, (core.splitOn '.').length = 3 →
  ((core.splitOn '.').all isNumber) = true → ∃ c rest, core = c :: rest ∧ c.isDigit := by
  intro core hlen hparts
  cases core with
  | nil => simp at hlen
  | cons c rest =>
   refine ⟨c, rest, rfl, ?_⟩
   rw [splitOn_cons_eq_if_modifyHead] at hparts
   split at hparts
   · simp [isNumber, isDigits] at hparts
   · cases hs : rest.splitOn '.' with
     | nil => exact (splitOn_ne_nil _ _ hs).elim
     | cons first parts =>
      rw [hs, modifyHead_cons, all_cons, Bool.and_eq_true] at hparts
      exact isDigits_chars hparts.1 mem_cons_self
 simp only [isReleaseVersion, Bool.and_eq_true, beq_iff_eq] at h
 rcases splitVersion_eq value.toList with ⟨core, heq, hv⟩ | ⟨core, pre, heq, hv⟩ <;> rw [heq] at h
 · exact hv ▸ hcore core h.1.1 h.1.2
 · obtain ⟨c, rest, rfl, hc⟩ := hcore core h.1.1 h.1.2
   exact ⟨c, rest ++ '-' :: pre, hv, hc⟩

example : isReleaseVersion "0.4.0-rc.1" = true
 ∧ compareVersions "0.4.0-rc.2" "0.4.0-rc.10" = .lt := by
 decide +kernel

end Bake.Update
