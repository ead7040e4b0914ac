import Bake.Lib.Interleave
import Mathlib.Algebra.Order.BigOperators.Group.List
import Mathlib.Algebra.Order.Ring.Nat
import Bake.Lib.OrdMap

/-!
# The queue of file mutations

`Queue::run`, for any number of calls in any order of their critical sections. A call
resolves its key and registers under the table's lock, waits for the completion it took the
place of, runs its operation, and on return or unwind signals its own completion before it
takes the table's lock again to remove it. Every call of a key waits for the one registered
just before it, or finds all of them done, so that what is done is always a front of the
registrations of a key.
-/

open List Option OrdMap
open OrdMap (get?)

namespace Bake.Tools.FileMutation

/-- `Queue`, and where its locks and condition variables stand. A completion is known by the
number of its registration. -/
structure Queue (κ : Type) where
 /-- `tails`: the last completion of each key. -/
 tails : List (κ × Nat)
 /-- The task that holds the table's lock. -/
 locked : Option Nat
 /-- The key and the task of each registration, in the order of the table's lock. -/
 registered : List (κ × Nat)
 /-- The completions whose flag is set. -/
 done : List Nat
 /-- The completions whose waiters were notified. -/
 notified : List Nat

inductive Place (κ : Type) where
 | calling
 /-- The call holds the table's lock. -/
 | resolving
 /-- Before a look at the flag of the completion before its own. -/
 | waiting (key : κ) (own previous : Nat)
 /-- In the wait on that completion's condition variable. -/
 | parked (key : κ) (own previous : Nat)
 | running (key : κ) (own : Nat)
 /-- `Completion::finish`, before the flag is set. -/
 | finishing (key : κ) (own : Nat)
 /-- `Completion::finish`, before `notify_all`. -/
 | notifying (key : κ) (own : Nat)
 /-- `Release::drop`, before the table's lock is taken. -/
 | releasing (key : κ) (own : Nat)
 /-- The resolution failed or panicked. -/
 | failed
 | ended (key : κ) (own : Nat)

/-- What a section depends on. -/
inductive Choice (κ : Type) where
 | on
 /-- The key that `resolve` gives; none where it fails or panics. -/
 | resolved (key : Option κ)
 /-- The operation returns or panics. -/
 | returned (panicked : Bool)
 /-- A wait ends without a notification. -/
 | woken

variable {κ : Type} [DecidableEq κ]

namespace Queue

def new : Queue κ := { tails := [], locked := none, registered := [], done := [], notified := [] }

/-- The insertion into the table, which gives the completion to wait for. -/
def register (s : Queue κ) (t : Nat) (key : κ) : Queue κ :=
 { s with
   locked := none
   tails := insert s.tails key s.registered.length
   registered := s.registered ++ [(key, t)] }

/-- The section of `Release::drop`: the entry goes if it is still this completion. -/
def release (s : Queue κ) (key : κ) (own : Nat) : Queue κ :=
 { s with
   tails := if get? s.tails key = some own then erase s.tails key else s.tails }

/-- `Queue::run`, one section. -/
def next (s : Queue κ) (t : Nat) : Place κ → Choice κ → Option (Queue κ × Place κ)
 | .calling, .on => if s.locked = none then some ({ s with locked := some t }, .resolving) else none
 | .resolving, .resolved none => some ({ s with locked := none }, .failed)
 | .resolving, .resolved (some key) =>
  some (s.register t key, match get? s.tails key with
   | some previous => .waiting key s.registered.length previous
   | none => .running key s.registered.length)
 | .waiting key own previous, .on =>
  some (s, if previous ∈ s.done then .running key own else .parked key own previous)
 | .parked key own previous, .on =>
  if previous ∈ s.notified then some (s, .waiting key own previous) else none
 | .parked key own previous, .woken => some (s, .waiting key own previous)
 | .running key own, .returned _ => some (s, .finishing key own)
 | .finishing key own, .on => some ({ s with done := own :: s.done }, .notifying key own)
 | .notifying key own, .on => some ({ s with notified := own :: s.notified }, .releasing key own)
 | .releasing key own, .on =>
  if s.locked = none then some (s.release key own, .ended key own) else none
 | _, _ => none

def keyOf (s : Queue κ) (c : Nat) : Option κ := s.registered[c]?.map Prod.fst

def EarlierDone (s : Queue κ) (key : κ) (own : Nat) : Prop :=
 ∀ c < own, s.keyOf c = some key → c ∈ s.done

/-- A registration follows another one of its key, with none between. -/
def Follows (s : Queue κ) (key : κ) (own previous : Nat) : Prop :=
 previous < own ∧ s.keyOf previous = some key ∧ ∀ c, previous < c → c < own → s.keyOf c ≠ some key

/-- What holds of the table and of the completions. -/
structure Sound (s : Queue κ) : Prop where
 done : ∀ c ∈ s.done, c < s.registered.length
 order : ∀ c ∈ s.done, ∀ key, s.keyOf c = some key → s.EarlierDone key c
 notified : ∀ c ∈ s.notified, c ∈ s.done
 /-- An entry is the last registration of its key. -/
 tail : ∀ key c, get? s.tails key = some c →
  s.keyOf c = some key ∧ ∀ c', s.keyOf c' = some key → c' ≤ c
 /-- A key without an entry waits for nothing. -/
 absent : ∀ key, get? s.tails key = none → ∀ c, s.keyOf c = some key → c ∈ s.done

end Queue

/-- The calls as tasks. -/
def program : Interleave.Program (Queue κ) (Place κ) (Choice κ) Empty where
 entry
  | .calling => true
  | _ => false
 next := Queue.next
 act _ e := nomatch e

namespace Place

def own : Place κ → Option (κ × Nat)
 | .waiting key own _ | .parked key own _ | .running key own | .finishing key own
 | .notifying key own | .releasing key own | .ended key own => some (key, own)
 | .calling | .resolving | .failed => none

/-- The operation of the call has ended, and its completion is done. -/
def Over : Place κ → Prop
 | .notifying .. | .releasing .. | .ended .. => True
 | _ => False

/-- The operation of the call has begun. -/
def Started : Place κ → Prop
 | .running .. | .finishing .. => True
 | p => p.Over

/-- The call is no longer in progress. -/
def Idle : Place κ → Prop
 | .failed | .ended .. => True
 | _ => False

def Phase (s : Queue κ) : Place κ → Prop
 | .waiting key own previous | .parked key own previous =>
  own ∉ s.done ∧ s.Follows key own previous
 | .running key own | .finishing key own => own ∉ s.done ∧ s.EarlierDone key own
 | .notifying _ own => own ∈ s.done
 | .releasing _ own => own ∈ s.notified
 | .ended key own => own ∈ s.notified ∧ get? s.tails key ≠ some own
 | .calling | .resolving | .failed => True

end Place

/-- What holds of one call. -/
structure Stands (s : Queue κ) (t : Nat) (p : Place κ) : Prop where
 own : ∀ c key, s.registered[c]? = some (key, t) ↔ p.own = some (key, c)
 locked : p = .resolving → s.locked = some t
 phase : p.Phase s

variable {s s' : Queue κ} {t u : Nat} {p p' : Place κ} {choice : Choice κ} {key : κ} {c own : Nat}

omit [DecidableEq κ] in
theorem keyOf_some (h : s.registered[c]? = some (key, t)) : s.keyOf c = some key :=
 congrArg (Option.map Prod.fst) h

omit [DecidableEq κ] in
theorem keyOf_lt (h : s.keyOf c = some key) : c < s.registered.length := by
 obtain ⟨r, hr, -⟩ := map_eq_some_iff.mp h
 exact (List.getElem_of_getElem? hr).1

omit [DecidableEq κ] in
theorem keyOf_append {more : List (κ × Nat)} (hr : s'.registered = s.registered ++ more)
 (hc : c < s.registered.length) : s'.keyOf c = s.keyOf c := by
 rw [Queue.keyOf, hr, getElem?_append_left hc, Queue.keyOf]

/-! ## What a section leaves to the other calls -/

structure Leaves (s s' : Queue κ) (t : Nat) : Prop where
 registered : ∃ more, s'.registered = s.registered ++ more ∧ ∀ r ∈ more, r.2 = t
 done : ∀ c ∈ s.done, c ∈ s'.done
 own : ∀ c ∈ s'.done, c ∈ s.done ∨ ∃ key, s.registered[c]? = some (key, t)
 notified : ∀ c ∈ s.notified, c ∈ s'.notified
 tails : ∀ key c, get? s'.tails key = some c → get? s.tails key = some c ∨ s.registered.length ≤ c

theorem EarlierDone.later (hl : Leaves s s' t) (hown : own ≤ s.registered.length)
 (h : s.EarlierDone key own) : s'.EarlierDone key own := fun c hc hk => by
 obtain ⟨more, hr, -⟩ := hl.registered
 rw [keyOf_append hr (by omega)] at hk
 exact hl.done c (h c hc hk)

theorem Stands.later (h : Stands s u p) (hl : Leaves s s' t) (hne : u ≠ t)
 (hlocked : p = .resolving → s'.locked = some u) : Stands s' u p := by
 obtain ⟨more, hr, hmore⟩ := hl.registered
 have hlt : ∀ {key own}, p.own = some (key, own) → own < s.registered.length := fun ho =>
  (List.getElem_of_getElem? ((h.own _ _).mpr ho)).1
 -- only the call itself sets its flag
 have hdone : ∀ {key own}, p.own = some (key, own) → own ∉ s.done → own ∉ s'.done := by
  intro key own ho hnot hin
  rcases hl.own own hin with hin | ⟨key', ht⟩
  · exact hnot hin
  · have := (h.own _ _).mpr ho
    rw [ht] at this
    exact hne (Prod.mk.inj (some.inj this)).2.symm
 refine ⟨fun c key => ?_, hlocked, ?_⟩
 · rw [← h.own, hr]
   by_cases hc : c < s.registered.length
   · rw [getElem?_append_left hc]
   · rw [getElem?_append_right (by omega), getElem?_eq_none (Nat.le_of_not_lt hc)]
     exact ⟨fun he => absurd (hmore _ (mem_of_getElem? he)) hne, by simp⟩
 have hphase := h.phase
 cases p with
 | waiting key own previous | parked key own previous =>
  obtain ⟨hnot, hprevious, hkey, hbetween⟩ := hphase
  have := hlt rfl
  refine ⟨hdone rfl hnot, hprevious, ?_, fun c hc ho => ?_⟩
  · rw [keyOf_append hr (by omega)]
    exact hkey
  · rw [keyOf_append hr (by omega)]
    exact hbetween c hc ho
 | running key own | finishing key own =>
  exact ⟨hdone rfl hphase.1, EarlierDone.later hl (Nat.le_of_lt (hlt rfl)) hphase.2⟩
 | notifying key own => exact hl.done _ hphase
 | releasing key own => exact hl.notified _ hphase
 | ended key own =>
  refine ⟨hl.notified _ hphase.1, fun he => ?_⟩
  rcases hl.tails _ _ he with he | hle
  · exact hphase.2 he
  · exact absurd (hlt rfl) (by omega)
 | _ => trivial

/-! ## The sections -/

theorem register_sound (h : s.Sound) (t : Nat) (key : κ) : (s.register t key).Sound := by
 have hr : (s.register t key).registered = s.registered ++ [(key, t)] := rfl
 have hsame : ∀ {c}, c < s.registered.length → (s.register t key).keyOf c = s.keyOf c :=
  fun hc => keyOf_append hr hc
 have hlast : ∀ {c key'}, (s.register t key).keyOf c = some key' → ¬ c < s.registered.length →
  c = s.registered.length ∧ key' = key := by
  intro c key' hk hc
  have hlt := keyOf_lt hk
  rw [hr, length_append, length_singleton] at hlt
  obtain rfl : c = s.registered.length := by omega
  rw [Queue.keyOf, hr, getElem?_append_right (Nat.le_refl _), Nat.sub_self] at hk
  exact ⟨rfl, (some.inj hk).symm⟩
 refine ⟨fun c hc => ?_, fun c hc key' hk c' hlt hk' => ?_, h.notified, fun key' c hc => ?_,
  fun key' hnone c hk => ?_⟩
 · rw [hr, length_append]
   have := h.done c hc
   omega
 · have := h.done c hc
   rw [hsame (by omega)] at hk hk'
   exact h.order c hc key' hk c' hlt hk'
 · rw [Queue.register, get?_insert] at hc
   split at hc
   next he =>
    cases hc
    refine ⟨?_, fun c' hk' => ?_⟩
    · rw [Queue.keyOf, hr, getElem?_append_right (Nat.le_refl _), Nat.sub_self]
      exact congrArg some he
    · have := keyOf_lt hk'
      rw [hr, length_append, length_singleton] at this
      omega
   next hne =>
    obtain ⟨hk, hmax⟩ := h.tail key' c hc
    refine ⟨(hsame (keyOf_lt hk)).trans hk, fun c' hk' => ?_⟩
    by_cases hc' : c' < s.registered.length
    · exact hmax c' (hsame hc' ▸ hk')
    · exact absurd (hlast hk' hc').2.symm hne
 · rw [Queue.register, get?_insert] at hnone
   split at hnone
   · simp at hnone
   next hne =>
    by_cases hc : c < s.registered.length
    · exact h.absent key' hnone c (hsame hc ▸ hk)
    · exact absurd (hlast hk hc).2.symm hne

theorem release_sound (h : s.Sound) (hdone : own ∈ s.done) : (s.release key own).Sound := by
 refine ⟨h.done, h.order, h.notified, fun key' c hc => ?_, fun key' hnone c hk => ?_⟩
 · simp only [Queue.release] at hc
   split at hc
   · rw [get?_erase] at hc
     split at hc
     · simp at hc
     · exact h.tail key' c hc
   · exact h.tail key' c hc
 simp only [Queue.release] at hnone
 split at hnone
 next htail =>
  rw [get?_erase] at hnone
  split at hnone
  next he =>
   subst he
   obtain ⟨hkey, hmax⟩ := h.tail _ _ htail
   rcases Nat.lt_or_eq_of_le (hmax c hk) with hlt | rfl
   · exact h.order own hdone _ hkey c hlt hk
   · exact hdone
  · exact h.absent key' hnone c hk
 · exact h.absent key' hnone c hk

theorem Queue.Follows.earlierDone {previous : Nat} (hs : s.Sound) (h : s.Follows key own previous)
 (hdone : previous ∈ s.done) : s.EarlierDone key own := fun c hc hk => by
 obtain ⟨-, hkey, hbetween⟩ := h
 rcases Nat.lt_trichotomy c previous with hlt | rfl | hgt
 · exact hs.order previous hdone key hkey c hlt hk
 · exact hdone
 · exact absurd hk (hbetween c hgt hc)

/-- **What a section does**: it keeps what holds of the queue and of its own call, and leaves
the other calls theirs. The table's lock is taken when it is free, and given back. -/
theorem next_spec (hs : s.Sound) (hp : Stands s t p) (hn : s.next t p choice = some (s', p')) :
 s'.Sound ∧ Stands s' t p' ∧ Leaves s s' t
 ∧ (∀ u, s.locked = some u → s'.locked = some u ∨ u = t ∧ p = .resolving)
 ∧ ∀ u, s'.locked = some u → u = t ∧ p' = .resolving ∨ s.locked = some u ∧ p ≠ .resolving := by
 have hrefl : Leaves s s t :=
  ⟨⟨[], (append_nil _).symm, by simp⟩, fun _ h => h, fun _ h => .inl h, fun _ h => h,
   fun _ _ h => .inl h⟩
 have hkeep : p ≠ .resolving → (∀ u, s.locked = some u → s.locked = some u ∨ u = t ∧ p = .resolving)
  ∧ ∀ u, s.locked = some u → u = t ∧ p' = .resolving ∨ s.locked = some u ∧ p ≠ .resolving :=
  fun hne => ⟨fun _ h => .inl h, fun _ h => .inr ⟨h, hne⟩⟩
 unfold Queue.next at hn
 split at hn
 · split at hn
   next hfree =>
    cases hn
    exact ⟨⟨hs.done, hs.order, hs.notified, hs.tail, hs.absent⟩, ⟨hp.own, fun _ => rfl, trivial⟩,
     ⟨hrefl.registered, hrefl.done, hrefl.own, hrefl.notified, hrefl.tails⟩,
     fun u hu => absurd (hfree.symm.trans hu) (by simp),
     fun u hu => .inl ⟨(some.inj hu).symm, rfl⟩⟩
   · simp at hn
 · cases hn
   exact ⟨⟨hs.done, hs.order, hs.notified, hs.tail, hs.absent⟩, ⟨hp.own, by simp, trivial⟩,
    ⟨hrefl.registered, hrefl.done, hrefl.own, hrefl.notified, hrefl.tails⟩,
    fun u hu => .inr ⟨some.inj (hu.symm.trans (hp.locked rfl)), rfl⟩,
    fun u hu => absurd hu (by simp)⟩
 next key =>
  cases hn
  have hnone : ∀ c key', s.registered[c]? ≠ some (key', t) := fun c key' he =>
   absurd ((hp.own _ _).mp he) (by simp [Place.own])
  have hown : ∀ c key', (s.register t key).registered[c]? = some (key', t)
   ↔ some (key, s.registered.length) = some (key', c) := by
   intro c key'
   rw [Queue.register]
   by_cases hc : c < s.registered.length
   · rw [getElem?_append_left hc]
     exact ⟨fun he => absurd he (hnone _ _), fun he => by
      obtain ⟨-, rfl⟩ := Prod.mk.inj (some.inj he)
      exact absurd hc (Nat.lt_irrefl _)⟩
   · rw [getElem?_append_right (by omega), getElem?_singleton]
     split
     · rw [show c = s.registered.length by omega]
       simp
     · exact ⟨by simp, fun he => by
        obtain ⟨-, rfl⟩ := Prod.mk.inj (some.inj he)
        omega⟩
  have hnew : s.registered.length ∉ s.done := fun h => Nat.lt_irrefl _ (hs.done _ h)
  have hr : (s.register t key).registered = s.registered ++ [(key, t)] := rfl
  have hleaves : Leaves s (s.register t key) t := by
   refine ⟨⟨[(key, t)], rfl, by simp⟩, fun _ h => h, fun _ h => .inl h, fun _ h => h,
    fun key' c hc => ?_⟩
   rw [Queue.register, get?_insert] at hc
   split at hc
   · exact .inr (Nat.le_of_eq (some.inj hc))
   · exact .inl hc
  refine ⟨register_sound hs t key, ?_, hleaves,
   fun u hu => .inr ⟨some.inj (hu.symm.trans (hp.locked rfl)), rfl⟩,
   fun u hu => absurd hu (by simp [Queue.register])⟩
  cases htail : get? s.tails key with
  | none =>
   exact ⟨hown, by simp, hnew,
    EarlierDone.later hleaves (Nat.le_refl _) fun c _ hk => hs.absent key htail c hk⟩
  | some previous =>
   obtain ⟨hkey, hmax⟩ := hs.tail key previous htail
   refine ⟨hown, by simp, hnew, keyOf_lt hkey, ?_, fun c hlt hc he => ?_⟩
   · rw [keyOf_append hr (keyOf_lt hkey)]
     exact hkey
   · rw [keyOf_append hr hc] at he
     exact absurd (hmax c he) (by omega)
 · cases hn
   have hphase := hp.phase
   refine ⟨hs, ?_, hrefl, fun _ h => .inl h, fun _ h => .inr ⟨h, by simp⟩⟩
   split
   next hin =>
    exact ⟨hp.own, by simp, hphase.1, hphase.2.earlierDone hs hin⟩
   · exact ⟨hp.own, by simp, hphase⟩
 · split at hn
   · cases hn
     exact ⟨hs, ⟨hp.own, by simp, hp.phase⟩, hrefl, hkeep (by simp)⟩
   · simp at hn
 · cases hn
   exact ⟨hs, ⟨hp.own, by simp, hp.phase⟩, hrefl, hkeep (by simp)⟩
 · cases hn
   exact ⟨hs, ⟨hp.own, by simp, hp.phase⟩, hrefl, hkeep (by simp)⟩
 next key own =>
  cases hn
  have hmine : s.registered[own]? = some (key, t) := (hp.own _ _).mpr rfl
  have hearlier := hp.phase.2
  refine ⟨⟨fun c hc => ?_, fun c hc key' hk c' hlt hk' => ?_, fun c hc => .tail _ (hs.notified c hc),
   hs.tail, fun key' hnone c hk => .tail _ (hs.absent key' hnone c hk)⟩,
   ⟨hp.own, by simp, .head _⟩,
   ⟨hrefl.registered, fun c hc => .tail _ hc, fun c hc => ?_, hrefl.notified, hrefl.tails⟩,
   hkeep (by simp)⟩
  · rcases mem_cons.mp hc with rfl | hc
    · exact (List.getElem_of_getElem? hmine).1
    · exact hs.done c hc
  · rcases mem_cons.mp hc with rfl | hc
    · obtain rfl := some.inj ((keyOf_some hmine).symm.trans hk)
      exact .tail _ (hearlier c' hlt hk')
    · exact .tail _ (hs.order c hc key' hk c' hlt hk')
  · rcases mem_cons.mp hc with rfl | hc
    · exact .inr ⟨key, hmine⟩
    · exact .inl hc
 · cases hn
   have hphase := hp.phase
   refine ⟨⟨hs.done, hs.order, fun c hc => ?_, hs.tail, hs.absent⟩, ⟨hp.own, by simp, .head _⟩,
    ⟨hrefl.registered, hrefl.done, hrefl.own, fun c hc => .tail _ hc, hrefl.tails⟩,
    hkeep (by simp)⟩
   rcases mem_cons.mp hc with rfl | hc
   · exact hphase
   · exact hs.notified c hc
 next key own =>
  split at hn
  · cases hn
    have hin : own ∈ s.notified := hp.phase
    refine ⟨release_sound hs (hs.notified _ hin), ⟨hp.own, by simp, hin, ?_⟩,
     ⟨hrefl.registered, hrefl.done, hrefl.own, hrefl.notified, fun key' c hc => ?_⟩,
     hkeep (by simp)⟩
    · simp only [Queue.release]
      split
      · rw [get?_erase, if_pos rfl]
        simp
      · assumption
    · simp only [Queue.release] at hc
      split at hc
      · rw [get?_erase] at hc
        split at hc
        · simp at hc
        · exact .inl hc
      · exact .inl hc
  · simp at hn
 · simp at hn

/-! ## Every order of the sections -/

def after (inputs : List (Interleave.Input (Place κ) (Choice κ) Empty)) :
 Interleave.Config (Queue κ) (Place κ) := program.run .new inputs

/-- What holds of the queue and of all calls: the task of every registration is one of them,
and the table's lock is with a call that resolves. -/
structure Kept (c : Interleave.Config (Queue κ) (Place κ)) : Prop where
 queue : c.shared.Sound
 calls : ∀ t p, c.tasks[t]? = some p → Stands c.shared t p
 tasks : ∀ r ∈ c.shared.registered, r.2 < c.tasks.length
 lock : ∀ t, c.shared.locked = some t → c.tasks[t]? = some .resolving

theorem Kept.step {c : Interleave.Config (Queue κ) (Place κ)} (h : Kept c)
 (i : Interleave.Input (Place κ) (Choice κ) Empty) : Kept (program.step c i) := by
 rcases program.step_cases c i with heq | ⟨p, hp, heq⟩ | ⟨t, p, k, s', p', ht, hn, heq⟩ | ⟨e, -⟩
 · rwa [heq]
 · rw [heq]
   have hcalling : p = .calling := by
    cases p <;> first | rfl | simp [program] at hp
   subst hcalling
   refine ⟨h.queue, fun u q hu => ?_, fun r hr => ?_, fun u hu => ?_⟩
   · by_cases hlt : u < c.tasks.length
     · exact h.calls u q (by rwa [getElem?_append_left hlt] at hu)
     · rw [getElem?_append_right (by omega)] at hu
       obtain rfl := mem_singleton.mp (mem_of_getElem? hu)
       refine ⟨fun c' key => ⟨fun he => ?_, by simp [Place.own]⟩, by simp,
        trivial⟩
       exact absurd (h.tasks _ (mem_of_getElem? he)) hlt
   · rw [length_append]
     have := h.tasks r hr
     omega
   · have := h.lock u hu
     rwa [getElem?_append_left (List.getElem_of_getElem? this).1]
 · rw [heq]
   have hlt : t < c.tasks.length := (List.getElem_of_getElem? ht).1
   obtain ⟨hs, hown, hleaves, hheld, hlock⟩ := next_spec h.queue (h.calls t p ht) hn
   refine ⟨hs, fun u q hu => ?_, fun r hr => ?_, fun u hu => ?_⟩
   · by_cases hut : u = t
     · subst hut
       rw [getElem?_set_self hlt] at hu
       cases hu; exact hown
     · rw [getElem?_set_ne (Ne.symm hut)] at hu
       have hstands := h.calls u q hu
       exact hstands.later hleaves hut fun hq => (hheld u (hstands.locked hq)).resolve_right
        fun he => hut he.1
   · obtain ⟨more, hmore, htask⟩ := hleaves.registered
     rw [length_set]
     rw [hmore] at hr
     rcases mem_append.mp hr with hr | hr
     · exact h.tasks r hr
     · exact htask r hr ▸ hlt
   · rcases hlock u hu with ⟨rfl, rfl⟩ | ⟨hu', hne⟩
     · exact getElem?_set_self hlt
     · have hres := h.lock u hu'
       have hut : u ≠ t := fun he => hne (some.inj ((he ▸ ht).symm.trans hres))
       rwa [getElem?_set_ne (Ne.symm hut)]
 · exact nomatch e

theorem kept_after (inputs : List (Interleave.Input (Place κ) (Choice κ) Empty)) :
 Kept (after inputs) := by
 refine Run.final_invariant Kept (fun c i hc => hc.step i) ⟨?_, by simp, ?_, ?_⟩ inputs
 · exact ⟨by simp [Queue.new], by simp [Queue.new], by simp [Queue.new], by simp [Queue.new],
    by simp [Queue.new, Queue.keyOf]⟩
 · exact fun r hr => absurd hr (by simp [Queue.new])
 · exact fun t ht => absurd ht (by simp [Queue.new])

theorem Place.Started.earlierDone (hs : s.Sound) (hp : Stands s t p) (hstarted : p.Started)
 (ho : p.own = some (key, own)) : s.EarlierDone key own := by
 have hphase := hp.phase
 have hkey := keyOf_some ((hp.own _ _).mpr ho)
 cases p with
 | running key' own' | finishing key' own' =>
  cases ho
  exact hphase.2
 | notifying key' own' =>
  cases ho
  exact hs.order _ hphase _ hkey
 | releasing key' own' =>
  cases ho
  exact hs.order _ (hs.notified _ hphase) _ hkey
 | ended key' own' =>
  cases ho
  exact hs.order _ (hs.notified _ hphase.1) _ hkey
 | _ => exact hstarted.elim

theorem Place.over_of_done (hp : Stands s t p) (ho : p.own = some (key, own))
 (hdone : own ∈ s.done) : p.Over := by
 have hphase := hp.phase
 cases p with
 | waiting | parked | running | finishing =>
  cases ho
  exact absurd hdone hphase.1
 | calling | resolving | failed => simp [Place.own] at ho
 | _ => trivial

/-- **Mutations of one file are a first-in first-out critical section**, whatever the calls,
their keys and the order of their sections. No two operations of a key run at once. When one
has begun, those of the calls that registered before it have ended. A call whose resolution
failed has no registration and no section left, and the table's lock is always with a call
that resolves. A registered call whose predecessors have ended has begun its operation, or its
own next two sections at most begin it. And with no call in progress the table is empty. -/
theorem file_mutations (inputs : List (Interleave.Input (Place κ) (Choice κ) Empty)) :
 let c := after inputs
 (∀ (t u : Nat) (key : κ) (i j : Nat), c.tasks[t]? = some (.running key i) →
  c.tasks[u]? = some (.running key j) → t = u)
 ∧ (∀ (i j : Nat) (key : κ) (t u : Nat) (p : Place κ), i < j → c.shared.registered[i]? = some (key, t) →
  c.shared.registered[j]? = some (key, u) → c.tasks[u]? = some p → p.Started →
  ∃ q, c.tasks[t]? = some q ∧ q.Over)
 ∧ (∀ t : Nat, c.tasks[t]? = some .failed → (∀ r ∈ c.shared.registered, r.2 ≠ t)
  ∧ ∀ choice, c.shared.next t .failed choice = none)
 ∧ (∀ t, c.shared.locked = some t → c.tasks[t]? = some .resolving)
 ∧ (∀ (t : Nat) (p : Place κ) (key : κ) (own : Nat), c.tasks[t]? = some p → p.own = some (key, own) →
  (∀ i < own, ∀ u, c.shared.registered[i]? = some (key, u) → ∃ q, c.tasks[u]? = some q ∧ q.Idle) →
  p.Started ∨ c.shared.next t p .on = some (c.shared, .running key own)
   ∨ ∃ previous, c.shared.next t p .on = some (c.shared, .waiting key own previous)
    ∧ c.shared.next t (.waiting key own previous) .on = some (c.shared, .running key own))
 ∧ ((∀ (t : Nat) (p : Place κ), c.tasks[t]? = some p → p.Idle) → c.shared.tails = []) := by
 intro c
 have h : Kept c := kept_after inputs
 have hshows : ∀ {i key t}, c.shared.registered[i]? = some (key, t) →
  ∃ q, c.tasks[t]? = some q ∧ Stands c.shared t q ∧ q.own = some (key, i) := by
  intro i key t hi
  have hlt := h.tasks _ (mem_of_getElem? hi)
  have hq : c.tasks[t]? = some c.tasks[t] := getElem?_eq_getElem hlt
  exact ⟨_, hq, h.calls t _ hq, ((h.calls t _ hq).own _ _).mp hi⟩
 refine ⟨fun t u key i j ht hu => ?_, fun i j key t u p hij hi hj hu hp => ?_, fun t ht => ?_,
  h.lock, fun t p key own ht ho hidle => ?_, fun hidle => ?_⟩
 · have hmine := ((h.calls _ _ ht).own _ _).mpr rfl
   have hother := ((h.calls _ _ hu).own _ _).mpr rfl
   have hphase := (h.calls _ _ ht).phase
   have hphase' := (h.calls _ _ hu).phase
   rcases Nat.lt_trichotomy i j with hlt | rfl | hgt
   · exact absurd (hphase'.2 i hlt (keyOf_some hmine)) hphase.1
   · exact (Prod.mk.inj (some.inj (hmine.symm.trans hother))).2
   · exact absurd (hphase.2 j hgt (keyOf_some hother)) hphase'.1
 · obtain ⟨q, hq, hstands, hown⟩ := hshows hi
   have hearlier := hp.earlierDone h.queue (h.calls u p hu) (((h.calls u p hu).own _ _).mp hj)
   exact ⟨q, hq, q.over_of_done hstands hown (hearlier i hij (keyOf_some hi))⟩
 · refine ⟨fun r hr he => ?_, fun choice => rfl⟩
   obtain ⟨i, hi⟩ := getElem?_of_mem hr
   have := ((h.calls t _ ht).own i r.1).mp (by rw [hi, ← he])
   simp [Place.own] at this
 · -- the predecessor's call has ended, so its flag is set and its waiters were notified
   have hprevious : ∀ {previous}, c.shared.Follows key own previous →
    previous ∈ c.shared.notified := by
    intro previous hf
    obtain ⟨⟨key', u⟩, hu, hk⟩ := map_eq_some_iff.mp hf.2.1
    obtain rfl : key' = key := hk
    obtain ⟨q, hq, hstands, hown⟩ := hshows hu
    obtain ⟨q', hq', hq''⟩ := hidle previous hf.1 u hu
    cases hq.symm.trans hq'
    have hphase := hstands.phase
    cases q with
    | ended key' own' =>
     obtain ⟨-, rfl⟩ := Prod.mk.inj (some.inj hown)
     exact hphase.1
    | failed => simp [Place.own] at hown
    | _ => exact hq''.elim
   have hphase := (h.calls t p ht).phase
   cases p with
   | waiting key' own' previous =>
    cases ho
    refine .inr (.inl ?_)
    rw [Queue.next, if_pos (h.queue.notified _ (hprevious hphase.2))]
   | parked key' own' previous =>
    cases ho
    have hin := hprevious hphase.2
    refine .inr (.inr ⟨previous, ?_, ?_⟩)
    · rw [Queue.next, if_pos hin]
    · rw [Queue.next, if_pos (h.queue.notified _ hin)]
   | calling | resolving | failed => simp [Place.own] at ho
   | _ => exact .inl trivial
 cases htails : c.shared.tails with
 | nil => rfl
 | cons entry rest =>
  obtain ⟨key, i⟩ := entry
  have hget : get? c.shared.tails key = some i := by
   rw [htails, get?_cons, if_pos rfl]
  obtain ⟨⟨key', u⟩, hu, hk⟩ := map_eq_some_iff.mp (h.queue.tail key i hget).1
  obtain rfl : key' = key := hk
  obtain ⟨q, hq, hstands, hown⟩ := hshows hu
  have hphase := hstands.phase
  have hover := hidle u q hq
  cases q with
  | ended key' own' =>
   cases hown
   exact absurd hget hphase.2
  | failed => simp [Place.own] at hown
  | _ => exact hover.elim

/-! ## No call waits for ever -/

/-- The most sections a call has left, if no wait ends by itself. -/
def Place.left (s : Queue κ) : Place κ → Nat
 | .calling => 9
 | .resolving => 8
 | .waiting _ _ previous => if previous ∈ s.done then 5 else 7
 | .parked .. => 6
 | .running .. => 4
 | .finishing .. => 3
 | .notifying .. => 2
 | .releasing .. => 1
 | .failed | .ended .. => 0

omit [DecidableEq κ] in
theorem sum_left_le (s : Queue κ) (l : List (Place κ)) : (l.map (·.left s)).sum ≤ 9 * l.length := by
 induction l with
 | nil => exact Nat.le_refl _
 | cons p l ih =>
  have hp : p.left s ≤ 9 := by
   unfold Place.left
   split <;> grind
  simp only [map_cons, sum_cons, length_cons]
  omega

/-- A section that is not blocked and no wait that ends by itself. -/
def Moves (c : Interleave.Config (Queue κ) (Place κ)) (i : Interleave.Input (Place κ) (Choice κ) Empty) :
 Prop :=
 ∃ t p choice, i = .run t choice ∧ choice ≠ .woken ∧ c.tasks[t]? = some p
  ∧ (c.shared.next t p choice).isSome

theorem next_left (hs : s.Sound) (hc : choice ≠ .woken) (hn : s.next t p choice = some (s', p')) :
 p'.left s' < p.left s := by
 unfold Queue.next at hn
 split at hn
 · split at hn <;> cases hn
   exact Nat.lt_succ_self 8
 · cases hn
   exact Nat.zero_lt_succ _
 · cases hn
   simp only [Place.left]
   cases get? s.tails _ with
   | none => exact (by decide : 4 < 8)
   | some previous =>
    simp only
    split <;> omega
 next key own previous =>
  cases hn
  by_cases hin : previous ∈ s.done <;> simp [Place.left, hin]
 · split at hn <;> cases hn
   next hin =>
    simp [Place.left, hs.notified _ hin]
 · exact absurd rfl hc
 · cases hn
   exact Nat.lt_succ_self 3
 · cases hn
   exact Nat.lt_succ_self 2
 · cases hn
   exact Nat.lt_succ_self 1
 · split at hn <;> cases hn
   exact Nat.zero_lt_succ _
 · simp at hn

theorem Leaves.left (h : Leaves s s' t) (p : Place κ) : p.left s' ≤ p.left s := by
 cases p with
 | waiting key own previous =>
  simp only [Place.left]
  have := h.done previous
  split <;> split <;> simp_all
 | _ => exact Nat.le_refl _

theorem sum_set_lt {α : Type} {f f' : α → Nat} (hle : ∀ a, f' a ≤ f a) {l : List α} {a b : α}
 (ha : l[t]? = some a) (hlt : f' b < f a) : ((l.set t b).map f').sum < (l.map f).sum := by
 induction l generalizing t with
 | nil => simp at ha
 | cons x l ih =>
  cases t with
  | zero =>
   obtain rfl : x = a := some.inj ha
   exact Nat.add_lt_add_of_lt_of_le hlt (sum_le_sum fun a _ => hle a)
  | succ t => exact Nat.add_lt_add_of_le_of_lt (hle x) (ih ha)

/-- **Where nothing moves, every call is over.** -/
theorem Kept.idle {c : Interleave.Config (Queue κ) (Place κ)} (h : Kept c) (hno : ∀ i, ¬ Moves c i)
 (ht : c.tasks[t]? = some p) : p.Idle := by
 have hb : ∀ {t p} choice, c.tasks[t]? = some p → choice ≠ .woken →
  c.shared.next t p choice = none := fun choice ht hc => by
  by_contra hn
  exact hno _ ⟨_, _, choice, rfl, hc, ht, isSome_iff_ne_none.mpr hn⟩
 have hfree : c.shared.locked = none := by
  cases hl : c.shared.locked with
  | none => rfl
  | some u => exact absurd (hb (.resolved none) (h.lock u hl) (by simp)) (by simp [Queue.next])
 have hrest : ∀ {t : Nat} {p : Place κ}, c.tasks[t]? = some p →
  p.Idle ∨ ∃ key own previous, p = .parked key own previous ∧ previous ∉ c.shared.notified := by
  intro t p ht
  have hon := hb .on ht (by simp)
  cases p with
  | failed | ended => exact .inl trivial
  | parked key own previous =>
   refine .inr ⟨key, own, previous, rfl, fun hin => ?_⟩
   simp [Queue.next, hin] at hon
  | resolving => exact absurd (hb (.resolved none) ht (by simp)) (by simp [Queue.next])
  | running => exact absurd (hb (.returned true) ht (by simp)) (by simp [Queue.next])
  | _ => simp [Queue.next, hfree] at hon
 -- the first of the calls that wait would wait for one that has ended
 have hparked : ∀ own {t previous : Nat} {key : κ},
  c.tasks[t]? ≠ some (.parked key own previous) := by
  intro own
  induction own using Nat.strongRecOn with
  | _ own ih =>
   intro t previous key ht
   obtain ⟨hlt, hkey, -⟩ := (h.calls t _ ht).phase.2
   obtain ⟨⟨key', u⟩, hu, rfl⟩ := map_eq_some_iff.mp hkey
   obtain ⟨q, hq⟩ : ∃ q, c.tasks[u]? = some q :=
    ⟨_, getElem?_eq_getElem (h.tasks _ (mem_of_getElem? hu))⟩
   have hstands := h.calls u q hq
   have hown := (hstands.own _ _).mp hu
   obtain hidle | ⟨key, own', previous', rfl, -⟩ := hrest hq
   · obtain hidle' | ⟨_, _, _, he, hnot⟩ := hrest ht
     · exact hidle'
     cases he
     cases q with
     | ended key own =>
      cases hown
      exact hnot hstands.phase.1
     | failed => simp [Place.own] at hown
     | _ => exact hidle
   · cases hown
     exact ih _ hlt hq
 obtain hidle | ⟨key, own, previous, rfl, -⟩ := hrest ht
 · exact hidle
 · exact absurd ht (hparked own)

end Bake.Tools.FileMutation
