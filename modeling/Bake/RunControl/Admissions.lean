import Bake.RunControl.Causes
import Bake.Lib.Journal
import Mathlib.Data.List.Nodup

/-!
# The shared allowance

The debits of a control are numbered in the order they are reserved, one write at a
time. The slot's lock is held from the look at an empty slot to the end of `reserve`, so
a debit is taken only when every earlier write has its result, and the lock of a write's
observation is held from the poll that completes it to its publication, so each write
has one result. What another task's section leaves to a task that holds one of these
locks, or waits for its own write, is `Leaves`.
-/

open List Option

namespace Bake.RunControl

open ModelCallAdmission

def reserved (log : List Event) : List ModelCallAdmission := log.filterMap fun
  | .reserved admission _ => some admission
  | _ => none

def observed (log : List Event) : List ModelCallAdmission := log.filterMap fun
  | .observed admission => some admission
  | _ => none

@[simp] theorem reserved_append (a b : List Event) : reserved (a ++ b) = reserved a ++ reserved b :=
 filterMap_append

@[simp] theorem observed_append (a b : List Event) : observed (a ++ b) = observed a ++ observed b :=
 filterMap_append

variable {log : List Event} {limits : RunLimits} {observer : Bool} {restored : Nat}

variable {a : ModelCallAdmission}

theorem mem_reserved : a ∈ reserved log ↔ ∃ reserve, .reserved a reserve ∈ log := by
 unfold reserved
 rw [mem_filterMap]
 constructor
 · rintro ⟨e, he, h⟩
   cases e with
   | reserved admission reserve =>
    obtain rfl : admission = a := by simpa using h
    exact ⟨reserve, he⟩
   | _ => simp at h
 · rintro ⟨reserve, h⟩
   exact ⟨_, h, rfl⟩

/-- What must have happened before an event, for a control restored with `restored`
calls. -/
def Allowed (limits : RunLimits) (restored : Nat) (observer : Bool) (before : List Event) :
 Event → Prop
 /- The next ordinal, when it and the reserve fit and every earlier write completed. -/
 | .reserved a reserve =>
  a.ordinal = restored + (reserved before).length + 1
   ∧ (∃ additional, checkedAdd (reserve.getD 0) 1 = some additional
    ∧ limits.callsFit (restored + (reserved before).length) additional)
   ∧ (observer → ∀ b ∈ reserved before, ∃ result, .completed b result ∈ before)
 /- The next debit that was reserved. -/
 | .observed a => observed before ++ [a] <+: reserved before
 /- A write that was handed over, once. -/
 | .completed a _ => a ∈ observed before ∧ ∀ result, .completed a result ∉ before
 /- A debit whose write succeeded, while nothing was ever stored. -/
 | .admitted a =>
  causes before = [] ∧ a ∈ reserved before ∧ (observer → .completed a (.ok ()) ∈ before)
 | .stored _ => True

/-- The debits of a history are numbered from the restored calls on, without a gap. -/
theorem ordinals (h : History.Valid (Allowed limits restored observer) log) :
 (reserved log).map ordinal = List.range' (restored + 1) (reserved log).length := by
 induction log using List.reverseRecOn with
 | nil => rfl
 | append_singleton log e ih =>
  obtain ⟨hvalid, hlast⟩ := History.valid_snoc.mp h
  have ih := ih hvalid
  rw [reserved_append]
  cases e with
  | reserved a reserve =>
   show ((reserved log ++ [a]).map ordinal) = _
   have ha : a.ordinal = restored + (reserved log).length + 1 := hlast.1
   rw [map_append, ih, length_append]
   show _ = List.range' (restored + 1) ((reserved log).length + 1)
   rw [range'_1_concat, map_singleton, ha]
   congr 2
   omega
  | _ =>
   show ((reserved log ++ []).map ordinal) = _
   rw [append_nil, ih]
   exact congrArg (fun l => List.range' _ (List.length l)) (append_nil _).symm

theorem reserved_nodup (h : History.Valid (Allowed limits restored observer) log) :
 (reserved log).Nodup := by
 refine List.Nodup.of_map ordinal ?_
 rw [ordinals h]
 exact nodup_range'

def Place.holdsSlot : Place → Bool
 | .deadline (.reserve _) | .expire (.reserve _) | .read (.reserve _) => true
 | .reserve _ | .exhausted _ | .refused .. => true
 | _ => false

def Place.holdsWrite : Place → Option Nat
 | .polling write _ | .failing write _ _ | .publish write _ _ => some write
 | _ => none

/-- What called `observe` waits for its own debit. -/
def ObserveCall.own? : ObserveCall → Option ModelCallAdmission
 | .own admission => some admission
 | _ => none

def Place.own? : Place → Option (Nat × ModelCallAdmission)
 | .observe write call | .polling write call | .failing write call _ | .publish write call _ =>
  call.own?.map fun admission => (write, admission)
 | _ => none

/-- The debit whose write has succeeded. -/
def Place.succeeded? : Place → Option ModelCallAdmission
 | .deadline (.admitModelCall admission) | .expire (.admitModelCall admission) | .read (.admitModelCall admission) =>
  some admission
 | _ => none

/-- What a task may rely on at its place. -/
structure Place.Relies (s : Inner) (t : Nat) (p : Place) : Prop where
 slot : p.holdsSlot → s.admissionLock = some t ∧ s.admission = none
 write : ∀ w, p.holdsWrite = some w → ∃ pending, s.writes[w]? = some pending
  ∧ pending.lock = some t ∧ pending.result = none ∧ pending.called
 own : ∀ w a, p.own? = some (w, a) → ∃ pending, s.writes[w]? = some pending ∧ pending.admission = a
 succeeded : ∀ a, p.succeeded? = some a → a ∈ reserved s.log
  ∧ (s.observer → ∃ pending ∈ s.writes, pending.admission = a ∧ pending.result = some (.ok ()))

def PendingWrite.Done (pending : PendingWrite) : Prop := pending.result.isSome ∧ pending.called

/-- Every write is over, or every one but the last, which is in the slot. -/
inductive Desk : List PendingWrite → Option Nat → Prop where
 | free {writes : List PendingWrite} : (∀ p ∈ writes, p.Done) → Desk writes none
 | busy {writes : List PendingWrite} {pending : PendingWrite} : (∀ p ∈ writes, p.Done) →
  pending.result = none → pending.future → Desk (writes ++ [pending]) (some writes.length)

/-- What the shared state keeps. -/
structure Inner.Kept (limits : RunLimits) (restored : Nat) (observer : Bool) (s : Inner) : Prop where
 limits_eq : s.limits = limits
 observer_eq : s.observer = observer
 valid : History.Valid (Allowed limits restored observer) s.log
 calls : s.state.calls = restored + (reserved s.log).length
 writes : s.writes.map PendingWrite.admission = if observer then reserved s.log else []
 handed : observed s.log = (s.writes.filter PendingWrite.called).map PendingWrite.admission
 completed : ∀ a result, .completed a result ∈ s.log
  ↔ ∃ pending ∈ s.writes, pending.admission = a ∧ pending.result = some result
 desk : Desk s.writes s.admission

/-- What a section of task `t` leaves to the others. -/
structure Leaves (t : Nat) (s s' : Inner) : Prop where
 observer : s'.observer = s.observer
 log : s.log <+: s'.log
 slot : ∀ u ≠ t, s.admissionLock = some u → s.admission = none →
  s'.admissionLock = some u ∧ s'.admission = none
 writes : ∀ (w : Nat) (pending : PendingWrite), s.writes[w]? = some pending →
  ∃ pending', s'.writes[w]? = some pending' ∧ pending'.admission = pending.admission
   ∧ (∀ result, pending.result = some result → pending'.result = some result)
   ∧ ∀ u ≠ t, pending.lock = some u → pending.result = none → pending.called →
    pending'.lock = some u ∧ pending'.result = none ∧ pending'.called

theorem modify_last {α : Type} (before : List α) (a : α) (f : α → α) :
 (before ++ [a]).modify before.length f = before ++ [f a] := by
 induction before with
 | nil => rfl
 | cons b before ih => simp [ih]

section Relies

variable {s s' : Inner} {t u : Nat} {p p' : Place}

theorem Place.Relies.leaves (h : p.Relies s u) (hl : Leaves t s s') (hne : u ≠ t) :
 p.Relies s' u where
 slot hs := hl.slot u hne (h.slot hs).1 (h.slot hs).2
 write w hw := by
  obtain ⟨pending, hp, hlock, hres, hcalled⟩ := h.write w hw
  obtain ⟨pending', hp', -, -, hkeep⟩ := hl.writes w pending hp
  exact ⟨pending', hp', hkeep u hne hlock hres hcalled⟩
 own w a ho := by
  obtain ⟨pending, hp, ha⟩ := h.own w a ho
  obtain ⟨pending', hp', ha', -⟩ := hl.writes w pending hp
  exact ⟨pending', hp', ha'.trans ha⟩
 succeeded a ha := by
  obtain ⟨hr, ho⟩ := h.succeeded a ha
  obtain ⟨reserve, hmem⟩ := mem_reserved.mp hr
  refine ⟨mem_reserved.mpr ⟨reserve, hl.log.subset hmem⟩, fun hobs => ?_⟩
  obtain ⟨pending, hp, hpa, hpr⟩ := ho (hl.observer ▸ hobs)
  obtain ⟨w, hw⟩ := mem_iff_getElem?.mp hp
  obtain ⟨pending', hp', ha', hr', -⟩ := hl.writes w pending hw
  exact ⟨pending', mem_of_getElem? hp', ha'.trans hpa, hr' _ hpr⟩

theorem relies_of_none (hs : p.holdsSlot = false) (hw : p.holdsWrite = none) (ho : p.own? = none)
 (ha : p.succeeded? = none) : p.Relies s t where
 slot h := absurd (hs.symm.trans h) (by simp)
 write _ h := absurd (hw.symm.trans h) (by simp)
 own _ _ h := absurd (ho.symm.trans h) (by simp)
 succeeded _ h := absurd (ha.symm.trans h) (by simp)

theorem Place.Relies.moved (h : p.Relies s t) (hs : p'.holdsSlot = p.holdsSlot)
 (hw : p'.holdsWrite = p.holdsWrite) (ho : p'.own? = p.own?)
 (ha : p'.succeeded? = p.succeeded?) : p'.Relies s t where
 slot hp := h.slot (hs ▸ hp)
 write w hp := h.write w (hw ▸ hp)
 own w a hp := h.own w a (ho ▸ hp)
 succeeded a hp := h.succeeded a (ha ▸ hp)

theorem Place.Relies.store (h : p.Relies s t) (o : RunOutcome) : p.Relies (s.store o) t where
 slot := h.slot
 write := h.write
 own := h.own
 succeeded a ha := ⟨by simpa [Inner.store, reserved] using (h.succeeded a ha).1, (h.succeeded a ha).2⟩

theorem Leaves.refl (t : Nat) (s : Inner) : Leaves t s s where
 observer := rfl
 log := prefix_refl _
 slot _ _ hl ha := ⟨hl, ha⟩
 writes _ pending hw := ⟨pending, hw, rfl, fun _ h => h, fun _ _ hl hr hc => ⟨hl, hr, hc⟩⟩

theorem Leaves.trans {a b c : Inner} (h : Leaves t a b) (h' : Leaves t b c) : Leaves t a c where
 observer := h'.observer.trans h.observer
 log := h.log.trans h'.log
 slot u hu hl ha := h'.slot u hu (h.slot u hu hl ha).1 (h.slot u hu hl ha).2
 writes w p hw := by
  obtain ⟨q, hq, ha, hr, hkeep⟩ := h.writes w p hw
  obtain ⟨q', hq', ha', hr', hkeep'⟩ := h'.writes w q hq
  refine ⟨q', hq', ha'.trans ha, fun r hpr => hr' r (hr r hpr), fun u hu hl hpr hc => ?_⟩
  obtain ⟨hl, hqr, hc⟩ := hkeep u hu hl hpr hc
  exact hkeep' u hu hl hqr hc

theorem Leaves.store (t : Nat) (s : Inner) (o : RunOutcome) : Leaves t s (s.store o) :=
 { Leaves.refl t s with log := prefix_append .. }

theorem leaves_last {before : List PendingWrite} {pending : PendingWrite} (pending' : PendingWrite)
 (hw : s.writes = before ++ [pending]) (hw' : s'.writes = before ++ [pending'])
 (ha : pending'.admission = pending.admission) (hr : pending.result = none)
 (hl : ∀ u ≠ t, pending.lock ≠ some u) (hobserver : s'.observer = s.observer)
 (hlog : s.log <+: s'.log)
 (hslot : ∀ u ≠ t, s.admissionLock = some u → s.admission = none →
  s'.admissionLock = some u ∧ s'.admission = none) : Leaves t s s' where
 observer := hobserver
 log := hlog
 slot := hslot
 writes w p hp := by
  rw [hw] at hp
  rw [hw']
  by_cases hlt : w < before.length
  · rw [getElem?_append_left hlt] at hp ⊢
    exact ⟨p, hp, rfl, fun _ h => h, fun _ _ hl hr hc => ⟨hl, hr, hc⟩⟩
  · rw [getElem?_append_right (by omega)] at hp ⊢
    obtain ⟨hlen, hget⟩ := List.getElem_of_getElem? hp
    rw [length_singleton] at hlen
    obtain rfl : pending = p := by simpa using hget
    rw [show w - before.length = 0 by omega]
    exact ⟨pending', rfl, ha, fun _ h => absurd h (by simp [hr]),
     fun u hu hlu => absurd hlu (hl u hu)⟩

end Relies

namespace Inner.Kept

variable {limits : RunLimits} {restored : Nat} {observer : Bool} {s : Inner}

theorem store (h : s.Kept limits restored observer) (o : RunOutcome) :
 (s.store o).Kept limits restored observer where
 limits_eq := h.limits_eq
 observer_eq := h.observer_eq
 valid := History.valid_snoc.mpr ⟨h.valid, trivial⟩
 calls := by simpa [Inner.store, reserved] using h.calls
 writes := by simpa [Inner.store, reserved] using h.writes
 handed := by simpa [Inner.store, observed] using h.handed
 completed a r := by simpa [Inner.store] using h.completed a r
 desk := h.desk

theorem last (h : s.Kept limits restored observer) {w : Nat} {pending : PendingWrite}
 (hw : s.writes[w]? = some pending) (hr : pending.result = none) :
 ∃ before, s.writes = before ++ [pending] ∧ w = before.length ∧ s.admission = some w
  ∧ (∀ p ∈ before, p.Done) ∧ pending.future := by
 have hd := h.desk
 have hdone : ∀ p ∈ s.writes, p.Done → p ≠ pending := by
  rintro p - ⟨hp, -⟩ rfl
  simp [hr] at hp
 generalize s.writes = writes at hd hw hdone
 generalize s.admission = slot at hd
 cases hd with
 | free hall =>
  have hm := mem_of_getElem? hw
  exact absurd rfl (hdone pending hm (hall pending hm))
 | @busy before last hall hlast hfuture =>
  by_cases hlt : w < before.length
  · rw [getElem?_append_left hlt] at hw
    have hm := mem_of_getElem? hw
    exact absurd rfl (hdone pending (mem_append_left _ hm) (hall pending hm))
  · rw [getElem?_append_right (by omega)] at hw
    obtain ⟨hlen, hget⟩ := List.getElem_of_getElem? hw
    have hwl : w = before.length := by
     rw [length_singleton] at hlen
     omega
    subst hwl
    obtain rfl : last = pending := by simpa using hget
    exact ⟨before, rfl, rfl, rfl, hall, hfuture⟩

variable {pending : PendingWrite} {w t : Nat}

section

variable (h : s.Kept limits restored observer)

include h

section

variable (hw : s.writes[w]? = some pending)

include hw

section

variable (hr : pending.result = none)

include hr

theorem relock
 (lock : Option Nat) :
 { s with writes := s.writes.modify w fun write => { write with lock } }.Kept
   limits restored observer := by
 obtain ⟨before, hws, rfl, hslot, hdone, hfuture⟩ := h.last hw hr
 rw [hws, modify_last]
 exact {
  limits_eq := h.limits_eq
  observer_eq := h.observer_eq
  valid := h.valid
  calls := h.calls
  writes := by simpa [hws] using h.writes
  handed := by
   have := h.handed
   rw [hws] at this
   rw [this]
   cases hc : pending.called <;> simp [filter_append, hc]
  completed a r := by simpa [hws] using h.completed a r
  desk := hslot ▸ .busy hdone hr hfuture }

theorem leaves_relock
 (hl : ∀ u ≠ t, pending.lock ≠ some u) (lock : Option Nat) :
 Leaves t s { s with writes := s.writes.modify w fun write => { write with lock } } := by
 obtain ⟨before, hws, rfl, -⟩ := h.last hw hr
 refine leaves_last { pending with lock } hws ?_ rfl hr hl rfl
  (prefix_refl _) fun _ _ hl ha => ⟨hl, ha⟩
 show s.writes.modify before.length _ = _
 rw [hws, modify_last]

/-- The observer is called with the one debit that was not handed over. -/
theorem callObserver : (s.callObserver w).Kept limits restored observer := by
 obtain ⟨before, hws, rfl, hslot, hdone, hfuture⟩ := h.last hw hr
 have hbefore : before.filter PendingWrite.called = before :=
  filter_eq_self.mpr fun p hp => (hdone p hp).2
 have hobserver : observer = true := by
  have := h.writes
  rw [hws] at this
  cases observer with
  | true => rfl
  | false => simp at this
 have hreserved : reserved s.log = before.map PendingWrite.admission ++ [pending.admission] := by
  have := h.writes
  rw [hws, hobserver] at this
  simpa using this.symm
 have hhanded : observed s.log = before.map PendingWrite.admission
  ++ if pending.called then [pending.admission] else [] := by
  rw [h.handed, hws, filter_append, hbefore]
  cases hc : pending.called <;> simp [hc]
 unfold Inner.callObserver
 rw [hws, modify_last, ← hws, hw]
 cases hc : pending.called with
 | true => 
  have hsame : ({ pending with called := true } : PendingWrite) = pending := by
   rw [← hc]
  rw [hsame, ← hws]
  simpa [hc, filter_some] using h
 | false =>
  rw [hc] at hhanded
  simp only [filter_some, hc, Bool.not_false, if_true, toList_some, map_cons, map_nil]
  exact {
   limits_eq := h.limits_eq
   observer_eq := h.observer_eq
   valid := History.valid_snoc.mpr ⟨h.valid, by
    show observed s.log ++ _ <+: reserved s.log
    rw [hhanded, hreserved]
    simp⟩
   calls := by simpa [reserved] using h.calls
   writes := by simpa [hws, reserved] using h.writes
   handed := by
    rw [observed_append, hhanded]
    simp [observed, filter_append, hbefore]
   completed a r := by simpa [hws, hr] using h.completed a r
   desk := hslot ▸ .busy hdone hr hfuture }

theorem leaves_callObserver
 (hl : ∀ u ≠ t, pending.lock ≠ some u) :
 Leaves t s (s.callObserver w) := by
 obtain ⟨before, hws, rfl, -⟩ := h.last hw hr
 refine leaves_last { pending with called := true } hws ?_ rfl hr hl rfl
  (prefix_append ..) fun _ _ hl ha => ⟨hl, ha⟩
 show s.writes.modify before.length _ = _
 rw [hws, modify_last]

end

end

theorem reserved_of_write (hm : pending ∈ s.writes) :
 observer = true ∧ s.writes.map PendingWrite.admission = reserved s.log := by
 have hw := h.writes
 cases observer with
 | true => exact ⟨rfl, hw⟩
 | false =>
  have := mem_map_of_mem (f := PendingWrite.admission) hm
  rw [hw] at this
  simp at this

theorem publish (hw : s.writes[w]? = some pending)
 (hr : pending.result = none) (hc : pending.called) (result : Except RunOutcome Unit) :
 (s.publish w result).Kept limits restored observer := by
 obtain ⟨before, hws, rfl, hslot, hdone, hfuture⟩ := h.last hw hr
 have hm : pending ∈ s.writes := mem_of_getElem? hw
 have hmap := (h.reserved_of_write hm).2
 have hbefore : ∀ p ∈ before, p.admission ≠ pending.admission := by
  have hnodup := reserved_nodup h.valid
  rw [← hmap, hws, map_append, nodup_append] at hnodup
  exact fun p hp => hnodup.2.2 _ (mem_map_of_mem hp) _ (by simp)
 have hnot : ∀ r, .completed pending.admission r ∉ s.log := by
  intro r hmem
  obtain ⟨p, hp, ha, hres⟩ := (h.completed _ _).mp hmem
  rw [hws, mem_append, mem_singleton] at hp
  rcases hp with hp | rfl
  · exact hbefore p hp ha
  · simp [hr] at hres
 have hhanded : pending.admission ∈ observed s.log := by
  rw [h.handed]
  exact mem_map_of_mem (mem_filter.mpr ⟨hm, hc⟩)
 unfold Inner.publish
 rw [hws, modify_last, ← hws, hw, if_pos hslot]
 exact {
  limits_eq := h.limits_eq
  observer_eq := h.observer_eq
  valid := History.valid_snoc.mpr ⟨h.valid, hhanded, hnot⟩
  calls := by simpa [reserved] using h.calls
  writes := by simpa [hws, reserved] using h.writes
  handed := by
   have := h.handed
   rw [hws] at this
   simpa [observed, filter_append, hc] using this
  completed a r := by
   have := h.completed a r
   rw [hws] at this
   simp only [toList_some, map_cons, map_nil, mem_append,
    mem_singleton, Event.completed.injEq, this]
   constructor
   · rintro (⟨p, hp | rfl, ha, hres⟩ | ⟨rfl, rfl⟩)
     · exact ⟨p, .inl hp, ha, hres⟩
     · simp [hr] at hres
     · exact ⟨_, .inr rfl, rfl, rfl⟩
   · rintro ⟨p, hp | rfl, ha, hres⟩
     · exact .inl ⟨p, .inl hp, ha, hres⟩
     · exact .inr ⟨ha.symm, (some.inj hres).symm⟩
  desk := .free fun p hp => by
   rcases mem_append.mp hp with hp | hp
   · exact hdone p hp
   · rw [mem_singleton.mp hp]
     exact ⟨rfl, hc⟩ }

theorem leaves_publish (hw : s.writes[w]? = some pending)
 (hr : pending.result = none) (hl : ∀ u ≠ t, pending.lock ≠ some u)
 (hfree : s.admissionLock = none) (result : Except RunOutcome Unit) :
 Leaves t s (s.publish w result) := by
 obtain ⟨before, hws, rfl, -⟩ := h.last hw hr
 refine leaves_last { pending with future := false, result := some result, lock := none } hws ?_
  rfl hr hl rfl (prefix_append ..) fun u _ hl => absurd (hfree.symm.trans hl) (by simp)
 show s.writes.modify before.length _ = _
 rw [hws, modify_last]

theorem debit {call : AdmitCall}
 (hslot : s.admission = none) (hfits : s.fits call.reserve) :
 (s.debit call).Kept limits restored observer := by
 have hdone : ∀ p ∈ s.writes, p.Done := by
  have hd := h.desk
  rw [hslot] at hd
  generalize s.writes = writes at hd
  cases hd with
  | free hall => exact hall
 have hallowed : Allowed limits restored observer s.log
  (.reserved (s.nextAdmission call) call.reserve) := by
  refine ⟨congrArg (· + 1) h.calls, ?_, fun hobs b hb => ?_⟩
  · obtain ⟨additional, ha, hcf⟩ := (Option.any_eq_true ..).mp hfits
    rw [h.limits_eq, h.calls] at hcf
    exact ⟨additional, ha, hcf⟩
  · have hw := h.writes
    rw [hobs, if_pos rfl] at hw
    rw [← hw] at hb
    obtain ⟨p, hp, rfl⟩ := mem_map.mp hb
    obtain ⟨result, hres⟩ := Option.isSome_iff_exists.mp (hdone p hp).1
    exact ⟨result, (h.completed _ _).mpr ⟨p, hp, rfl, hres⟩⟩
 have hcalls : (s.nextAdmission call).ordinal = restored
  + (reserved (s.log ++ [.reserved (s.nextAdmission call) call.reserve])).length := by
  show s.state.calls + 1 = _
  rw [h.calls]
  simp [reserved, Nat.add_assoc]
 have hobserver := h.observer_eq
 unfold Inner.debit
 dsimp only
 cases observer with
 | false =>
  rw [hobserver, if_neg (by simp), if_neg (by simp)]
  exact {
   limits_eq := h.limits_eq
   observer_eq := rfl
   valid := History.valid_snoc.mpr ⟨h.valid, hallowed⟩
   calls := hcalls
   writes := h.writes
   handed := by simpa [observed] using h.handed
   completed a r := by simpa using h.completed a r
   desk := .free hdone }
 | true =>
  rw [hobserver, if_pos rfl, if_pos rfl]
  exact {
   limits_eq := h.limits_eq
   observer_eq := rfl
   valid := History.valid_snoc.mpr ⟨h.valid, hallowed⟩
   calls := hcalls
   writes := by simpa [reserved] using h.writes
   handed := by simpa [observed, filter_append] using h.handed
   completed a r := by
    have := h.completed a r
    simp only [mem_append, mem_singleton, this, reduceCtorEq, or_false]
    constructor
    · rintro ⟨p, hp, ha, hres⟩
      exact ⟨p, .inl hp, ha, hres⟩
    · rintro ⟨p, hp | rfl, ha, hres⟩
      · exact ⟨p, hp, ha, hres⟩
      · simp at hres
   desk := .busy hdone rfl rfl }

end

theorem leaves_debit (hlock : s.admissionLock = some t) (call : AdmitCall) :
 Leaves t s (s.debit call).unlock where
 observer := rfl
 log := prefix_append ..
 slot u hu hl := absurd (some.inj (hlock.symm.trans hl)) (fun he => hu he.symm)
 writes w p hw := by
  refine ⟨p, ?_, rfl, fun _ h => h, fun _ _ hl hr hc => ⟨hl, hr, hc⟩⟩
  show (if s.observer then _ else _)[w]? = _
  split
  · rw [getElem?_append_left (List.getElem_of_getElem? hw).1]
    exact hw
  · exact hw

theorem unlock (h : s.Kept limits restored observer) : s.unlock.Kept limits restored observer :=
 { h with }

theorem leaves_unlock (hlock : s.admissionLock = some t) : Leaves t s s.unlock :=
 { Leaves.refl t s with
   slot := fun _ hu hl => absurd (some.inj (hlock.symm.trans hl)) (fun he => hu he.symm) }

theorem admitted (h : s.Kept limits restored observer)
 (hcauses : causes s.log = []) (hr : a ∈ reserved s.log)
 (hw : observer → ∃ p ∈ s.writes, p.admission = a ∧ p.result = some (.ok ())) :
 { s with log := s.log ++ [Event.admitted a] }.Kept limits restored observer where
 limits_eq := h.limits_eq
 observer_eq := h.observer_eq
 valid := History.valid_snoc.mpr ⟨h.valid, hcauses, hr, fun ho => (h.completed _ _).mpr (hw ho)⟩
 calls := by simpa [reserved] using h.calls
 writes := by simpa [reserved] using h.writes
 handed := by simpa [observed] using h.handed
 completed a r := by simpa using h.completed a r
 desk := h.desk

end Inner.Kept

section Takes

variable {limits : RunLimits} {restored : Nat} {observer : Bool} {s s' : Inner} {t : Nat}
 {p p' : Place}

/-- What a section comes to: the shared state is kept, its task may rely on its next
place, and the others on theirs. -/
structure Keeping (limits : RunLimits) (restored : Nat) (observer : Bool) (t : Nat)
 (s s' : Inner) (p' : Place) : Prop where
 kept : s'.Kept limits restored observer
 relies : p'.Relies s' t
 leaves : Leaves t s s'

theorem keeping_moved (hk : s.Kept limits restored observer) (hr : p'.Relies s t) :
 Keeping limits restored observer t s s p' := ⟨hk, hr, .refl t s⟩

theorem keeping_stored (hk : s.Kept limits restored observer) (hr : p'.Relies s t)
 (hs : s' = s ∨ ∃ o, s' = s.store o) : Keeping limits restored observer t s s' p' := by
 rcases hs with rfl | ⟨o, rfl⟩
 · exact keeping_moved hk hr
 · exact ⟨hk.store o, hr.store o, .store t s o⟩

theorem relies_stops {o : RunOutcome} {required : Bool} {resume : RunOutcome → Place}
 (h : p.stops = some (o, required, resume)) (hr : p.Relies s t) (outcome : RunOutcome) :
 (resume outcome).Relies s t := by
 cases p with
 | expire call =>
  simp only [Place.stops, some.injEq, Prod.mk.injEq] at h
  obtain ⟨-, -, rfl⟩ := h
  cases call <;> exact hr.moved rfl rfl rfl rfl
 | cancel | fail | settle | waitExpired | exhausted | noDebit | failing | cancelDropped =>
  simp only [Place.stops, some.injEq, Prod.mk.injEq] at h
  obtain ⟨-, -, rfl⟩ := h
  exact hr.moved rfl rfl rfl rfl
 | _ => simp [Place.stops] at h

theorem relies_moves (h : Moves s p p') (hr : p.Relies s t) : p'.Relies s t := by
 cases h with
 | deadline call => split <;> cases call <;> exact hr.moved rfl rfl rfl rfl
 | polled | pollFailed => exact hr.moved rfl rfl rfl rfl
 | _ => exact relies_of_none rfl rfl rfl rfl

variable {call : ObserveCall} {result : Except RunOutcome Unit}

theorem relies_resumeObserve (h : ∀ a, call = .own a → result = .ok () → a ∈ reserved s.log
 ∧ (s.observer → ∃ q ∈ s.writes, q.admission = a ∧ q.result = some (.ok ()))) :
 (resumeObserve result call).Relies s t := by
 cases call with
 | drain => exact relies_of_none rfl rfl rfl rfl
 | wait call => cases result <;> exact relies_of_none rfl rfl rfl rfl
 | own a =>
  cases result with
  | error stopped => exact relies_of_none rfl rfl rfl rfl
  | ok =>
   exact {
    slot := by simp [resumeObserve, Place.holdsSlot]
    write := fun _ hw => absurd hw (by simp [resumeObserve, Place.holdsWrite])
    own := fun _ _ ho => absurd ho (by simp [resumeObserve, Place.own?])
    succeeded := fun b hb => by
     obtain rfl : a = b := by simpa [resumeObserve, Place.succeeded?] using hb
     exact h a rfl rfl }

section

variable (hk : s.Kept limits restored observer)

include hk

/-- The reading of the cause: a debit is returned while nothing is stored. -/
theorem keeping_read (hc : s.CausesKept)
 {call : StoppedCall} (hr : (Place.read call).Relies s t) :
 Keeping limits restored observer t s (s.resumeStopped s.state.stopped call).1
  (s.resumeStopped s.state.stopped call).2 := by
 cases call with
 | reserve call =>
  cases s.state.stopped <;> exact keeping_moved hk (hr.moved rfl rfl rfl rfl)
 | admitModelCall a =>
  cases hs : s.state.stopped with
  | some stopped => exact keeping_moved hk (relies_of_none rfl rfl rfl rfl)
  | none =>
   have hcauses : causes s.log = [] := by
    unfold Inner.CausesKept at hc
    rw [hs] at hc
    generalize causes s.log = log at hc
    generalize s.state.stoppedAt = moment at hc
    cases hc
    rfl
   obtain ⟨hmem, hw⟩ := hr.succeeded a rfl
   exact ⟨hk.admitted hcauses hmem fun ho => hw (hk.observer_eq.trans ho),
    relies_of_none rfl rfl rfl rfl,
    { Leaves.refl t s with log := prefix_append .. }⟩
 | settle outcome =>
  cases s.state.stopped <;> cases outcome <;>
   exact keeping_moved hk (relies_of_none rfl rfl rfl rfl)
 | _ =>
  cases s.state.stopped <;> exact keeping_moved hk (relies_of_none rfl rfl rfl rfl)

theorem keeping_reserve {call : AdmitCall}
 (hr : (Place.reserve call).Relies s t) :
 Keeping limits restored observer t s (s.reserve call).1 (s.reserve call).2 := by
 obtain ⟨hlock, hslot⟩ := hr.slot rfl
 unfold Inner.reserve
 split
 · exact keeping_moved hk (hr.moved rfl rfl rfl rfl)
 split
 next hfits =>
  refine ⟨(hk.debit hslot hfits).unlock, ?_, Inner.Kept.leaves_debit hlock call⟩
  have hmem : s.nextAdmission call ∈ reserved (s.debit call).unlock.log := by
   show _ ∈ reserved (s.log ++ _)
   simp [reserved]
  dsimp only
  split
  next hobs =>
   exact {
    slot := by simp [Place.holdsSlot]
    write := fun _ hw => absurd hw (by simp [Place.holdsWrite])
    own := fun w a ho => by
     obtain ⟨rfl, rfl⟩ : s.writes.length = w ∧ s.nextAdmission call = a := by
      simpa [Place.own?, ObserveCall.own?] using ho
     refine ⟨⟨s.nextAdmission call, false, true, none, none⟩, ?_, rfl⟩
     show (if s.observer then _ else _)[s.writes.length]? = _
     rw [if_pos hobs, getElem?_concat_length]
    succeeded := fun _ ha => absurd ha (by simp [Place.succeeded?]) }
  next hobs =>
   exact {
    slot := by simp [Place.holdsSlot]
    write := fun _ hw => absurd hw (by simp [Place.holdsWrite])
    own := fun _ _ ho => absurd ho (by simp [Place.own?])
    succeeded := fun a ha => by
     obtain rfl : s.nextAdmission call = a := by simpa [Place.succeeded?] using ha
     exact ⟨hmem, fun ho => absurd ho hobs⟩ }
 · refine keeping_moved hk ?_
   split <;> exact hr.moved rfl rfl rfl rfl

/-- A poll starts at the one write without a result, or finds the result. -/
theorem keeping_observe {w : Nat}
 (hr : (Place.observe w call).Relies s t) (h : s.startPoll t w call = some (s', p')) :
 Keeping limits restored observer t s s' p' := by
 obtain ⟨pending, hw, hlock, ⟨result, hres, rfl, rfl⟩ | ⟨hres, -, rfl, rfl⟩ | ⟨hres, hf, -⟩⟩ :=
  startPoll_cases h
 · refine keeping_moved hk (relies_resumeObserve fun a ho hok => ?_)
   subst ho
   obtain ⟨q, hq, ha⟩ := hr.own w a rfl
   obtain rfl : pending = q := some.inj (hw.symm.trans hq)
   have hm := mem_of_getElem? hw
   refine ⟨?_, fun _ => ⟨pending, hm, ha, hok ▸ hres⟩⟩
   rw [← (hk.reserved_of_write hm).2, ← ha]
   exact mem_map_of_mem hm
 · have hnot : ∀ u ≠ t, pending.lock ≠ some u := by simp [hlock]
   have hlocked : (s.lockWrite w t).writes[w]? = some { pending with lock := some t } := by
    show (s.writes.modify w _)[w]? = _
    rw [getElem?_modify_eq, hw]
    rfl
   have hkept : (s.lockWrite w t).Kept limits restored observer := hk.relock hw hres (some t)
   have hcalled : ((s.lockWrite w t).callObserver w).writes[w]?
    = some { pending with lock := some t, called := true } := by
    show ((s.lockWrite w t).writes.modify w _)[w]? = _
    rw [getElem?_modify_eq, hlocked]
    rfl
   refine ⟨hkept.callObserver hlocked hres, ?_, (hk.leaves_relock hw hres hnot (some t)).trans
    (hkept.leaves_callObserver hlocked hres fun u hu he => hu (some.inj he).symm)⟩
   exact {
    slot := by simp [Place.holdsSlot]
    write := fun v hv => by
     obtain rfl : w = v := by simpa [Place.holdsWrite] using hv
     exact ⟨_, hcalled, rfl, hres, rfl⟩
    own := fun v a ho => by
     obtain ⟨q, hq, ha⟩ := hr.own v a ho
     obtain rfl : w = v := by
      obtain ⟨-, -, h, -⟩ : ∃ b, call.own? = some b ∧ w = v ∧ b = a := by
       simpa [Place.own?] using ho
      exact h
     obtain rfl : pending = q := some.inj (hw.symm.trans hq)
     exact ⟨_, hcalled, ha⟩
    succeeded := fun _ ha => absurd ha (by simp [Place.succeeded?]) }
 · obtain ⟨-, -, -, -, -, hfuture⟩ := hk.last hw hres
   exact absurd (hf.symm.trans hfuture) (by simp)

theorem keeping_pending {w : Nat}
 (hr : (Place.polling w call).Relies s t) :
 Keeping limits restored observer t s (s.unlockWrite w) (.observe w call) := by
 obtain ⟨pending, hw, hlock, hres, -⟩ := hr.write w rfl
 have hleaves := hk.leaves_relock hw hres (t := t)
  (fun u hu he => hu (some.inj (hlock.symm.trans he)).symm) none
 refine ⟨hk.relock hw hres none, ?_, hleaves⟩
 exact {
  slot := by simp [Place.holdsSlot]
  write := fun _ hv => absurd hv (by simp [Place.holdsWrite])
  own := fun v a ho => by
   obtain ⟨q, hq, ha⟩ := hr.own v a ho
   obtain ⟨q', hq', ha', -⟩ := hleaves.writes v q hq
   exact ⟨q', hq', ha'.trans ha⟩
  succeeded := fun _ ha => absurd ha (by simp [Place.succeeded?]) }

theorem keeping_publish {w : Nat}
 (hr : (Place.publish w call result).Relies s t) (hfree : s.admissionLock = none) :
 Keeping limits restored observer t s (s.publish w result) (resumeObserve result call) := by
 obtain ⟨pending, hw, hlock, hres, hcalled⟩ := hr.write w rfl
 have hkept := hk.publish hw hres hcalled result
 have hpublished : (s.publish w result).writes[w]?
  = some { pending with future := false, result := some result, lock := none } := by
  show (s.writes.modify w _)[w]? = _
  rw [getElem?_modify_eq, hw]
  rfl
 refine ⟨hkept, relies_resumeObserve fun a ho hok => ?_, hk.leaves_publish hw hres
  (fun u hu he => hu (some.inj (hlock.symm.trans he)).symm) hfree result⟩
 subst ho
 obtain ⟨q, hq, ha⟩ := hr.own w a rfl
 obtain rfl : pending = q := some.inj (hw.symm.trans hq)
 have hm := mem_of_getElem? hpublished
 refine ⟨?_, fun _ => ⟨_, hm, ha, congrArg some hok⟩⟩
 rw [← (hkept.reserved_of_write hm).2, ← ha]
 exact mem_map.mpr ⟨_, hm, rfl⟩

theorem keeping_admit (call : AdmitCall)
 (hfree : s.admissionLock = none) :
 Keeping limits restored observer t s (s.lookAtSlot t call).1 (s.lookAtSlot t call).2 := by
 unfold Inner.lookAtSlot
 split
 · exact keeping_moved hk (relies_of_none rfl rfl rfl rfl)
 next hslot =>
  exact {
   kept := { hk with }
   relies := {
    slot := fun _ => ⟨rfl, hslot⟩
    write := fun _ hw => absurd hw (by simp [Place.holdsWrite])
    own := fun _ _ ho => absurd ho (by simp [Place.own?])
    succeeded := fun _ ha => absurd ha (by simp [Place.succeeded?]) }
   leaves := { Leaves.refl t s with
    slot := fun _ _ hl => absurd (hfree.symm.trans hl) (by simp) } }

end

/-- **Every section keeps the allowance**: the shared state, what its own task relies on
and what the others do. -/
theorem keeping_takes (h : Takes s t p s' p') (hk : s.Kept limits restored observer)
 (hc : s.CausesKept) (hr : p.Relies s t) : Keeping limits restored observer t s s' p' := by
 cases h with
 | stop hstops =>
  refine keeping_stored hk (relies_stops hstops hr _) ?_
  unfold Inner.stop
  split
  · exact .inr ⟨_, rfl⟩
  · exact .inl rfl
 | finishInterval outcome =>
  refine keeping_stored hk (relies_of_none rfl rfl rfl rfl) ?_
  unfold Inner.finishInterval
  split
  · exact .inr ⟨_, rfl⟩
  · exact .inl rfl
 | moves hm => exact keeping_moved hk (relies_moves hm hr)
 | read call => exact keeping_read hk hc hr
 | admitModelCall call hfree => exact keeping_admit hk call hfree
 | reserve call => exact keeping_reserve hk hr
 | refused call stopped =>
  refine ⟨hk.unlock, ?_, Inner.Kept.leaves_unlock (hr.slot rfl).1⟩
  unfold answerRefused
  split
  · exact relies_of_none rfl rfl rfl rfl
  · split <;> exact relies_of_none rfl rfl rfl rfl
 | observe hpoll => exact keeping_observe hk hr hpoll
 | pending => exact keeping_pending hk hr
 | publish write call result hfree => exact keeping_publish hk hr hfree

theorem allowanceKept (limits : RunLimits) (restored : Nat) (observer : Bool) :
 program.Keeps (fun s => s.Kept limits restored observer ∧ s.CausesKept)
  fun s t p => p.Relies s t ∧ (p.waited → s.state.stopped.isSome) where
 next hi hj h :=
  have hk := keeping_takes (takes_of_next h) hi.1 hi.2 hj.1
  have hc := causesKept.next hi.2 hj.2 h
  ⟨⟨hk.kept, hc.1⟩, hk.relies, hc.2⟩
 others hi hj h _ _ hne hq :=
  have hk := keeping_takes (takes_of_next h) hi.1 hi.2 hj.1
  ⟨hq.1.leaves hk.leaves hne, causesKept.others hi.2 hj.2 h hne hq.2⟩
 spawn {s t p} hi he := by
  refine ⟨?_, causesKept.spawn (t := t) hi.2 he⟩
  cases p with
  | deadline call =>
   cases call with
   | reserve | admitModelCall | drain | waited => simp [program, Place.entry] at he
   | _ => exact relies_of_none rfl rfl rfl rfl
  | cancel | fail | finishInterval | admitModelCall | drain => exact relies_of_none rfl rfl rfl rfl
  | _ => simp [program, Place.entry] at he
 act hi e := ⟨⟨{ hi.1 with }, hi.2⟩, fun h => ⟨⟨h.1.slot, h.1.write, h.1.own, h.1.succeeded⟩, h.2⟩⟩

theorem kept_restore (limits : RunLimits) (restored : Nat) (observer : Bool) (now : Nat) :
 (restore limits restored observer now).Kept limits restored observer where
 limits_eq := rfl
 observer_eq := rfl
 valid := .nil
 calls := rfl
 writes := by cases observer <;> rfl
 handed := rfl
 completed a result := by simp [restore]
 desk := .free fun p hp => absurd hp (by simp [restore])

/-- What a history of a control with `restored` calls shows of its allowance. -/
structure Allowance (limits : RunLimits) (restored : Nat) (observer : Bool) (log : List Event) :
 Prop where
 /-- The observer is handed the ordinals from `restored + 1` on, in order. -/
 handed : (observed log).map ordinal = List.range' (restored + 1) (observed log).length
 /-- What is handed over was reserved, in that order, and so is every other debit. -/
 reserved : observed log <+: reserved log ∧ (reserved log).map ordinal
  = List.range' (restored + 1) (reserved log).length
 /-- No debit exceeds the maximum. -/
 within : ∀ a ∈ RunControl.reserved log, ∀ maximum, limits.maxModelCalls = some maximum →
  a.ordinal ≤ maximum
 /-- A debit is reserved when every write before it has completed. -/
 serial : ∀ before a reserve after, log = before ++ .reserved a reserve :: after → observer →
  ∀ b ∈ RunControl.reserved before, ∃ result, .completed b result ∈ before
 /-- A debit that leaves `reserve` calls free leaves them free behind it. -/
 reserve : ∀ a reserve, .reserved a (some reserve) ∈ log → limits.callsFit a.ordinal reserve
 /-- A debit is returned when it was reserved and its write succeeded, and nothing was
  ever stored. -/
 admitted : ∀ before a after, log = before ++ .admitted a :: after →
  causes before = [] ∧ a ∈ RunControl.reserved before
   ∧ (observer → .completed a (.ok ()) ∈ before ∧ ∀ o, .completed a (.error o) ∉ log)

end Takes

theorem callsFit_iff (limits : RunLimits) (used additional : Nat) :
 limits.callsFit used additional ↔ used + additional < 2 ^ 64
  ∧ ∀ maximum, limits.maxModelCalls = some maximum → used + additional ≤ maximum := by
 unfold RunLimits.callsFit checkedAdd
 split
 next hlt =>
  cases limits.maxModelCalls with
  | none => exact ⟨fun _ => ⟨hlt, fun _ h => absurd h (by simp)⟩, fun _ => rfl⟩
  | some maximum =>
   refine ⟨fun h => ⟨hlt, fun m hm => some.inj hm ▸ of_decide_eq_true h⟩, fun h => ?_⟩
   exact decide_eq_true (h.2 maximum rfl)
 next hlt =>
  exact ⟨by simp, fun h => absurd h.1 hlt⟩

theorem reserved_fits (h : History.Valid (Allowed limits restored observer) log) {reserve : Option Nat} (hm : .reserved a reserve ∈ log) :
 limits.callsFit a.ordinal (reserve.getD 0) := by
 obtain ⟨before, after, rfl⟩ := append_of_mem hm
 obtain ⟨hordinal, ⟨additional, hadd, hfit⟩, -⟩ := h before _ after rfl
 unfold checkedAdd at hadd
 split at hadd
 · obtain rfl : reserve.getD 0 + 1 = additional := by simpa using hadd
   rw [callsFit_iff] at hfit ⊢
   have hsum : a.ordinal + reserve.getD 0
    = restored + (reserved before).length + (reserve.getD 0 + 1) := by omega
   rw [hsum]
   exact hfit
 · simp at hadd

theorem observed_prefix {s : Inner} (hk : s.Kept limits restored observer) :
 observed s.log <+: reserved s.log := by
 have hd := hk.desk
 have hh := hk.handed
 have hw := hk.writes
 generalize s.writes = writes at hd hh hw
 generalize s.admission = slot at hd
 have hall : ∀ l : List PendingWrite, (∀ p ∈ l, p.Done) → l.filter PendingWrite.called = l :=
  fun l hl => filter_eq_self.mpr fun p hp => (hl p hp).2
 rw [hh]
 cases observer with
 | false =>
  rw [map_eq_nil_iff.mp hw]
  exact nil_prefix
 | true =>
  rw [if_pos rfl] at hw
  rw [← hw]
  refine List.IsPrefix.map _ ?_
  cases hd with
  | free hdone => exact (hall _ hdone).symm ▸ prefix_refl _
  | @busy before last hdone =>
   rw [filter_append, hall _ hdone]
   cases hc : last.called <;> simp [hc]

end Bake.RunControl
