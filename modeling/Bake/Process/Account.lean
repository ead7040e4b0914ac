import Bake.Process.JobWorld
import Bake.Lib.OrdSum

/-!
# What a record stands for

The members a pid's record counts are processes the job associated under the pid: a held one
is the pid's last, a member that ended is signalled and those counted are no later, and what
vanished has released the pid. So opening the pid, which answers truthfully, counts a process
at most once.
-/

open List

namespace Bake.Process

open Process

/-- How many of a pid's processes have released it. -/
def releasedCount : List Member → Nat
 | [] => 0
 | p :: rest => rest.length + if p.released then 1 else 0

theorem releasedCount_le (ps : List Member) : releasedCount ps ≤ ps.length := by
 cases ps with
 | nil => exact Nat.le_refl _
 | cons p rest =>
  rw [releasedCount, length_cons]
  split <;> omega

/-- A creation time the account holds, if any, is the process's. -/
def Dates (created : Option Nat) (p : Member) : Prop := ∀ c ∈ created, c = p.created

def RecordOk (pid : UInt32) (ps : List Member) : Option (Record Handle) → Nat → Prop
 | none, members => members = 0
 | some .unresolved, members => members = 0 ∧ ps ≠ []
 | some (.live created handle), members =>
  ∃ p rest, ps = p :: rest ∧ p.released = false ∧ handle = (pid, p.created) ∧ Dates created p
   ∧ 0 < members ∧ members ≤ rest.length + 1
 | some (.ended created), members =>
  ∃ p rest, (p :: rest) <:+ ps ∧ p.signalled = true ∧ Dates created p ∧ 0 < members
   ∧ members ≤ rest.length + 1
 | some .vanished, members => 0 < members ∧ members ≤ releasedCount ps

namespace RecordOk

variable {pid : UInt32} {ps rest : List Member} {record : Option (Record Handle)} {members : Nat}
 {p p' : Member}

section

variable (h : RecordOk pid ps record members)

include h

theorem members_le : members ≤ ps.length := by
 cases record with
 | none =>
  have hm : members = 0 := h
  omega
 | some record =>
  cases record with
  | live created handle =>
   obtain ⟨p, rest, rfl, -, -, -, -, hle⟩ := h
   simpa using hle
  | ended created =>
   obtain ⟨p, rest, hsuffix, -, -, -, hle⟩ := h
   have := hsuffix.length_le
   rw [length_cons] at this
   omega
  | vanished => exact Nat.le_trans h.2 (releasedCount_le ps)
  | unresolved =>
   have hm : members = 0 := h.1
   omega

theorem ne_nil (hr : record ≠ none) : ps ≠ [] := by
 rintro rfl
 cases record with
 | none => exact hr rfl
 | some record =>
  cases record with
  | live created handle =>
   obtain ⟨p, rest, hps, -⟩ := h
   simp at hps
  | ended created =>
   obtain ⟨p, rest, hsuffix, -⟩ := h
   exact absurd (suffix_nil.mp hsuffix) (by simp)
  | vanished =>
   have := h.2
   simp [releasedCount] at this
   exact absurd h.1 (by omega)
  | unresolved => exact h.2 rfl

theorem associate (hps : ∀ q ∈ ps.head?, q.released = true) :
 RecordOk pid (p :: ps) record members := by
 cases record with
 | none => exact h
 | some record =>
  cases record with
  | live created handle =>
   obtain ⟨q, rest, rfl, hq, -⟩ := h
   exact absurd (hps q (by simp)) (by simp [hq])
  | ended created =>
   obtain ⟨q, rest, hsuffix, hrest⟩ := h
   exact ⟨q, rest, hsuffix.trans (suffix_cons p ps), hrest⟩
  | vanished =>
   refine ⟨h.1, Nat.le_trans h.2 (Nat.le_trans (releasedCount_le ps) ?_)⟩
   rw [releasedCount]
   exact Nat.le_add_right _ _
  | unresolved => exact ⟨h.1, by simp⟩

end

theorem same (h : RecordOk pid (p :: rest) record members) (hc : p'.created = p.created)
 (hs : p.signalled = true → p'.signalled = true) (hr : p'.released = p.released) :
 RecordOk pid (p' :: rest) record members := by
 cases record with
 | none => exact h
 | some record =>
  cases record with
  | live created handle =>
   obtain ⟨q, tail, heq, hq, hh, hd, hm⟩ := h
   obtain ⟨rfl, rfl⟩ := List.cons.inj heq
   refine ⟨p', rest, rfl, hr.trans hq, by rw [hc]; exact hh, fun c hcr => ?_, hm⟩
   rw [hc]
   exact hd c hcr
  | ended created =>
   obtain ⟨q, tail, hsuffix, hq, hd, hm⟩ := h
   rcases suffix_cons_iff.mp hsuffix with heq | hsuffix
   · obtain ⟨rfl, rfl⟩ := List.cons.inj heq
     refine ⟨p', _, suffix_refl _, hs hq, fun c hcr => ?_, hm⟩
     rw [hc]
     exact hd c hcr
   · exact ⟨q, tail, hsuffix.trans (suffix_cons _ _), hq, hd, hm⟩
  | vanished =>
   refine ⟨h.1, ?_⟩
   have := h.2
   rw [releasedCount] at this ⊢
   rwa [hr]
  | unresolved => exact ⟨h.1, by simp⟩

/-- The pid is released, if the account does not hold its last process. -/
theorem release (h : RecordOk pid (p :: rest) record members) (hc : p'.created = p.created)
 (hs : p'.signalled = p.signalled) (hr : p'.released = true)
 (hheld : ∀ created, record ≠ some (.live created (pid, p.created))) :
 RecordOk pid (p' :: rest) record members := by
 cases record with
 | none => exact h
 | some record =>
  cases record with
  | live created handle =>
   obtain ⟨q, tail, heq, -, hh, -⟩ := h
   obtain ⟨rfl, rfl⟩ := List.cons.inj heq
   exact absurd (by rw [hh]) (hheld created)
  | ended created =>
   obtain ⟨q, tail, hsuffix, hq, hd, hm⟩ := h
   rcases suffix_cons_iff.mp hsuffix with heq | hsuffix
   · obtain ⟨rfl, rfl⟩ := List.cons.inj heq
     refine ⟨p', _, suffix_refl _, hs.trans hq, fun c hcr => ?_, hm⟩
     rw [hc]
     exact hd c hcr
   · exact ⟨q, tail, hsuffix.trans (suffix_cons _ _), hq, hd, hm⟩
  | vanished =>
   refine ⟨h.1, ?_⟩
   have := h.2
   rw [releasedCount] at this ⊢
   rw [if_pos hr]
   split at this <;> omega
  | unresolved => exact ⟨h.1, by simp⟩

theorem finish {created : Option Nat} {handle : Handle}
 (h : RecordOk pid (p :: rest) (some (.live created handle)) members)
 (hs : p.signalled = true) : RecordOk pid (p :: rest) (some (.ended created)) members := by
 obtain ⟨q, tail, heq, -, -, hd, hm⟩ := h
 obtain ⟨rfl, rfl⟩ := List.cons.inj heq
 exact ⟨p, rest, suffix_refl _, hs, hd, hm⟩

end RecordOk

/-! ## Opening a pid -/

/-- What opening a pid may find, where these are its processes. -/
def Answers (pid : UInt32) (ps : List Member) : Opened Handle → Prop
 | .unknown => True
 | .noSuchProcess | .otherProcess => ∀ p ∈ ps.head?, p.released = true
 | .member created handle =>
  ∃ p rest, ps = p :: rest ∧ p.released = false ∧ handle = (pid, p.created) ∧ Dates created p

theorem JobWorld.opened_answers (w : JobWorld) (pid : UInt32) (opening : Opening) :
 Answers pid (w.under pid) (w.opened pid opening) := by
 cases opening with
 | unknown => exact trivial
 | truthful timed other =>
  simp only [JobWorld.opened, JobWorld.current]
  cases hps : w.under pid with
  | nil => cases other <;> simp [Answers]
  | cons p rest =>
   by_cases hp : p.released = true
   · simp only [hp, if_true]
     cases other <;> simp [Answers, hp]
   · have hp' : p.released = false := by simpa using hp
     simp only [hp', Bool.false_eq_true, if_false]
     refine ⟨p, rest, rfl, hp', rfl, fun c hc => ?_⟩
     cases timed with
     | true =>
      have := Option.some.inj hc
      exact this.symm
     | false => simp at hc

section Observed

variable {pid : UInt32} {ps : List Member} {record : Option (Record Handle)}
 {members : Nat} {opened : Opened Handle}

theorem releasedCount_of_released (hps : ps ≠ []) (h : ∀ p ∈ ps.head?, p.released = true) :
 releasedCount ps = ps.length ∧ 0 < ps.length := by
 cases ps with
 | nil => exact absurd rfl hps
 | cons p rest => simp [releasedCount, h p (by simp)]

/-- **What an opening counts** is a process of the pid not counted before. -/
theorem RecordOk.observed (h : RecordOk pid ps record members) (hps : ps ≠ [])
 (hpast : (ps.map (·.created)).Nodup) (ha : Answers pid ps opened) :
 RecordOk pid ps (some (observed record opened).2.1) (members + (observed record opened).1)
  ∧ (observed record opened).2.2 = none := by
 have hlive : ∀ {created : Option Nat} {handle : Handle}, Answers pid ps (.member created handle) →
  members < ps.length → RecordOk pid ps (some (.live created handle)) (members + 1) := by
  intro created handle ha hlt
  obtain ⟨p, rest, rfl, hp, hh, hd⟩ := ha
  exact ⟨p, rest, rfl, hp, hh, hd, Nat.succ_pos _, by simp at hlt; omega⟩
 have hpos : 0 < ps.length := length_pos_of_ne_nil hps
 rcases record with _ | record
 · have hm : members = 0 := h
   subst hm
   cases opened with
   | noSuchProcess | otherProcess =>
    obtain ⟨hr, hr0⟩ := releasedCount_of_released hps ha
    exact ⟨⟨by simp [observed], by simp [observed]; omega⟩, rfl⟩
   | member created handle => exact ⟨hlive ha hpos, rfl⟩
   | unknown => exact ⟨⟨rfl, hps⟩, rfl⟩
 cases record with
 | unresolved =>
  obtain ⟨hm, -⟩ := h
  subst hm
  cases opened with
  | noSuchProcess | otherProcess =>
   obtain ⟨hr, hr0⟩ := releasedCount_of_released hps ha
   exact ⟨⟨by simp [observed], by simp [observed]; omega⟩, rfl⟩
  | member created handle => exact ⟨hlive ha hpos, rfl⟩
  | unknown => exact ⟨⟨rfl, hps⟩, rfl⟩
 | live created handle =>
  obtain ⟨p, rest, hps', hp, hh, hd, hm⟩ := h
  subst hps'
  cases opened with
  | noSuchProcess | otherProcess => exact absurd (ha p (by simp)) (by simp [hp])
  | unknown => exact ⟨⟨p, rest, rfl, hp, hh, hd, hm⟩, rfl⟩
  | member now handle' =>
   obtain ⟨q, tail, heq, -, -, hnow⟩ := ha
   obtain ⟨rfl, rfl⟩ := List.cons.inj heq
   refine ⟨⟨p, rest, rfl, hp, hh, fun c hc => ?_, hm⟩, ?_⟩
   · cases created with
     | none => exact hnow c (by simpa [observed] using hc)
     | some old => exact hd c (by simpa [observed] using hc)
   · cases created with
     | none => simp [observed]
     | some old =>
      cases now with
      | none => simp [observed]
      | some new => simp [observed, hd old rfl, hnow new rfl]
 | ended created =>
  obtain ⟨p, rest, hsuffix, hs, hd, hm0, hm⟩ := h
  cases opened with
  | noSuchProcess | otherProcess =>
   cases created <;> exact ⟨⟨p, rest, hsuffix, hs, hd, hm0, hm⟩, rfl⟩
  | unknown => cases created <;> exact ⟨⟨p, rest, hsuffix, hs, hd, hm0, hm⟩, rfl⟩
  | member now handle =>
   cases created with
   | none => exact ⟨⟨p, rest, hsuffix, hs, hd, hm0, hm⟩, rfl⟩
   | some old =>
    cases now with
    | none => exact ⟨⟨p, rest, hsuffix, hs, hd, hm0, hm⟩, rfl⟩
    | some new =>
     by_cases hne : old = new
     · simp only [observed, hne, ne_eq, not_true, if_false]
       exact ⟨⟨p, rest, hsuffix, hs, hne ▸ hd, hm0, hm⟩, trivial⟩
     · simp only [observed, ne_eq, hne, not_false_eq_true, if_true]
       -- another creation time: the pid's last process is a later one
       refine ⟨hlive ha ?_, trivial⟩
       obtain ⟨q, tail, rfl, -, -, hq⟩ := ha
       rcases suffix_cons_iff.mp hsuffix with heq | hsuffix
       · obtain ⟨rfl, rfl⟩ := List.cons.inj heq
         exact absurd ((hd old rfl).trans (hq new rfl).symm) hne
       · have := hsuffix.length_le
         rw [length_cons] at this ⊢
         omega
 | vanished =>
  obtain ⟨hm0, hm⟩ := h
  cases opened with
  | noSuchProcess
  | otherProcess
  | unknown => exact ⟨⟨hm0, hm⟩, rfl⟩
  | member created handle =>
   refine ⟨hlive ha ?_, rfl⟩
   obtain ⟨q, tail, rfl, hq, -⟩ := ha
   rw [releasedCount, hq] at hm
   simp at hm ⊢
   omega

end Observed

end Bake.Process
