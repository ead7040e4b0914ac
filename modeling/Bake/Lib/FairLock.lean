import Mathlib.Data.List.Nodup

/-!
# A fair lock

A lock that serves in the order of asking: who asks while it is held waits behind the
others, and who lets go hands it to the first that waits. Who waits may give up.
-/

/-- Who has the lock, and who waits for it, first to last. -/
structure FairLock (α : Type) where
 holder : Option α
 waiters : List α

open List

namespace FairLock

variable {α : Type}

def free : FairLock α := { holder := none, waiters := [] }

/-- `c` asks for the lock. -/
def lock (q : FairLock α) (c : α) : FairLock α :=
 match q.holder with
 | none => { q with holder := some c }
 | some _ => { q with waiters := q.waiters ++ [c] }

/-- `c` lets go of the lock, or gives up waiting for it. -/
def leave [DecidableEq α] (q : FairLock α) (c : α) : FairLock α :=
 if q.holder = some c then { holder := q.waiters.head?, waiters := q.waiters.tail }
 else { q with waiters := q.waiters.erase c }

variable {q : FairLock α} {c d : α}

def In (q : FairLock α) (c : α) : Prop := q.holder = some c ∨ c ∈ q.waiters

/-- Nobody waits for a free lock, and nobody is there twice. -/
structure Sound (q : FairLock α) : Prop where
 nodup : q.waiters.Nodup
 apart : ∀ c, q.holder = some c → c ∉ q.waiters
 free : q.holder = none → q.waiters = []

theorem sound_free : (free : FairLock α).Sound :=
 ⟨nodup_nil, fun _ h => absurd h (by simp [FairLock.free]), fun _ => rfl⟩

theorem Sound.lock (h : q.Sound) (hc : ¬ q.In c) : (q.lock c).Sound := by
 unfold FairLock.lock
 split
 next hfree =>
  exact ⟨h.nodup, fun d _ => by simp [h.free hfree], by simp⟩
 next holder hholder =>
  refine ⟨?_, fun d hd hmem => ?_, fun hn => absurd (hholder.symm.trans hn) (by simp)⟩
  · refine nodup_append.mpr ⟨h.nodup, nodup_singleton _, fun a ha b hb => ?_⟩
    rw [mem_singleton] at hb
    rintro rfl
    exact hc (.inr (hb ▸ ha))
  · rcases mem_append.mp hmem with hmem | hmem
    · exact h.apart d hd hmem
    · exact hc (.inl (mem_singleton.mp hmem ▸ hd))

theorem in_lock : (q.lock c).In d ↔ q.In d ∨ d = c := by
 unfold FairLock.lock In
 split
 next hfree =>
  simp only [hfree, Option.some.injEq, reduceCtorEq, false_or]
  rw [eq_comm, or_comm]
 · simp only [mem_append, mem_singleton, or_assoc]

theorem holder_lock (h : q.holder = some d) : (q.lock c).holder = some d := by
 simp only [FairLock.lock, h]

theorem lock_free (h : q.holder = none) : (q.lock c).holder = some c := by
 simp only [FairLock.lock, h]

section

variable [DecidableEq α]

theorem Sound.leave (h : q.Sound) (c : α) : (q.leave c).Sound := by
 unfold FairLock.leave
 split
 · refine ⟨h.nodup.tail, fun d hd => ?_, fun hn => ?_⟩
   · cases hw : q.waiters with
     | nil => simp
     | cons w rest =>
      have hnodup := h.nodup
      rw [hw] at hd hnodup
      have hwd : w = d := by simpa using hd
      rw [← hwd]
      exact (nodup_cons.mp hnodup).1
   · rw [head?_eq_none_iff] at hn
     simp [hn]
 next hne =>
  refine ⟨h.nodup.erase _, fun d hd hmem => h.apart d hd (mem_of_mem_erase hmem), fun hn => ?_⟩
  simp [h.free hn]

theorem Sound.in_leave (h : q.Sound) : (q.leave c).In d ↔ q.In d ∧ d ≠ c := by
 unfold FairLock.leave In
 split
 next hc =>
  have hapart := h.apart c hc
  cases hw : q.waiters with
  | nil => simp [hc, eq_comm]
  | cons w rest =>
   rw [hw] at hapart
   simp only [head?_cons, Option.some.injEq, tail_cons, hc, mem_cons]
   constructor
   · rintro (rfl | hd)
     · exact ⟨.inr (.inl rfl), fun heq => hapart (by simp [heq])⟩
     · exact ⟨.inr (.inr hd), fun heq => hapart (by simp [← heq, hd])⟩
   · rintro ⟨hcd | hd, hne⟩
     · exact absurd hcd.symm hne
     · exact hd.imp Eq.symm id
 next hc =>
  rw [h.nodup.mem_erase_iff]
  constructor
  · rintro (hd | ⟨hne, hd⟩)
    · exact ⟨.inl hd, fun heq => hc (heq ▸ hd)⟩
    · exact ⟨.inr hd, hne⟩
  · rintro ⟨hd | hd, hne⟩
    · exact .inl hd
    · exact .inr ⟨hne, hd⟩

theorem holder_leave (h : q.holder = some d) (hne : d ≠ c) : (q.leave c).holder = some d := by
 have hc : q.holder ≠ some c := fun hc => hne (Option.some.inj (h.symm.trans hc))
 rw [FairLock.leave, if_neg hc]
 exact h

end

end FairLock
