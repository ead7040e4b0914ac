import Bake.Jobs.Lifecycle

/-!
# A finished job is reported, once

A terminal job's report is unclaimed, held for the waits that were pending when it settled,
reserved for a delivery or claimed. A claim is given back where the last of those waits is
dropped, and where the delivery it was reserved for is: the latter also while a wait is still
registered, and then the report may be claimed although a waiter is going to return it. While
that does not happen, whoever waits or has been handed the report is the only one to have it.
-/

open List Bool

namespace Bake.Jobs.JobSystem

open Bake.Ai Bake.Session Bake.Work JobRegistry

variable {j : JobSystem} {r : JobRegistry} {record : Record} {failures issued : List JobId}
 {waits waits' : List Waiter} {closed : Bool} {announcing : Nat}

/-! ## What holds of a claim -/

def waitsOn (waits : List Waiter) (id : JobId) : Nat :=
 waits.countP fun waiter => waiter.registered && decide (waiter.id = id)

/-- What holds of a record's claim, among these waits, in a registry that may be closed and
has announcements to send; a write has failed for the jobs in `failures`. -/
structure ClaimOk (waits : List Waiter) (closed : Bool) (announcing : Nat)
 (failures : List JobId) (record : Record) : Prop where
 waits : record.waiters = waitsOn waits record.id
 live : record.terminal = false → record.claim = .unclaimed ∨ record.claim = .claimed
 held : record.claim = .waiters → 0 < record.waiters
 kept : record.terminal = true → 0 < record.waiters → record.claim ≠ .unclaimed
 handed : record.handed = true → record.claim ≠ .unclaimed
 claimed : record.claim = .claimed ∨ record.claim = .delivery →
  record.handed = true ∨ closed = true ∨ record.id ∈ failures
 announced : record.terminal = true → record.claim = .unclaimed → closed = false →
  record.announced = true ∨ 0 < announcing

/-- What holds of a registry's claims and waits; `issued` are the ids it has given out. -/
structure Reported (r : JobRegistry) (failures issued : List JobId) : Prop where
 claims : ∀ record ∈ r.records, ClaimOk r.waits r.closed r.announcing failures record
 waits : ∀ waiter ∈ r.waits, waiter.id ∈ issued

theorem deliveryClaim_cases (r : JobRegistry) :
 r.deliveryClaim = .delivery ∨ r.deliveryClaim = .claimed := by
 unfold JobRegistry.deliveryClaim
 split
 · exact .inl rfl
 · exact .inr rfl

/-- **A report that is handed to a caller** is claimed by it. -/
theorem claimOk_hand {claim : Claim} (hc : claim = .delivery ∨ claim = .claimed)
 (hw : record.waiters = waitsOn waits record.id) (ht : record.terminal = true) :
 ClaimOk waits closed announcing failures (record.hand claim) := by
 have hclaim : (record.hand claim).claim = .delivery ∨ (record.hand claim).claim = .claimed := by
  unfold Record.hand
  split
  · exact .inr rfl
  · exact hc
 have hne : (record.hand claim).claim ≠ .unclaimed := by
  rcases hclaim with h | h <;> rw [h] <;> simp
 refine ⟨hw, fun hl => absurd (ht.symm.trans hl) (by simp), fun hcl => ?_, fun _ _ => hne,
  fun _ => hne, fun _ => .inl rfl, fun _ hcl => absurd hcl hne⟩
 rcases hclaim with h | h <;> exact absurd (h.symm.trans hcl) (by simp)

theorem claimOk_release (hw : record.waiters = waitsOn waits record.id)
 (hnone : record.terminal = true → record.waiters = 0)
 (hann : closed = false → 0 < announcing) :
 ClaimOk waits closed announcing failures record.release := by
 refine ⟨hw, fun _ => .inl rfl, fun hcl => ?_, fun ht hpos => ?_, fun hh => ?_, fun hcl => ?_,
  fun _ _ ho => .inr (hann ho)⟩
 · simp [Record.release] at hcl
 · rw [show record.release.waiters = 0 from hnone ht] at hpos
   omega
 · simp [Record.release] at hh
 · simp [Record.release] at hcl

theorem claimOk_claimed (hclaim : record.claim = .claimed)
 (hw : record.waiters = waitsOn waits record.id)
 (hwhy : record.handed = true ∨ closed = true ∨ record.id ∈ failures) :
 ClaimOk waits closed announcing failures record where
 waits := hw
 live := fun _ => .inr hclaim
 held := fun hcl => absurd (hclaim.symm.trans hcl) (by simp)
 kept := fun _ _ hcl => absurd (hclaim.symm.trans hcl) (by simp)
 handed := fun _ hcl => absurd (hclaim.symm.trans hcl) (by simp)
 claimed := fun _ => hwhy
 announced := fun _ hcl => absurd (hclaim.symm.trans hcl) (by simp)

theorem ClaimOk.later (h : ClaimOk waits closed announcing failures record)
 (hw : waitsOn waits' record.id = waitsOn waits record.id) {more : Nat}
 (hann : announcing ≤ more) {failures' : List JobId}
 (hf : ∀ id ∈ failures, id ∈ failures') : ClaimOk waits' closed more failures' record where
 waits := h.waits.trans hw.symm
 live := h.live
 held := h.held
 kept := h.kept
 handed := h.handed
 claimed := fun hcl => (h.claimed hcl).imp id (Or.imp id (hf record.id))
 announced := fun ht hcl ho => (h.announced ht hcl ho).imp id fun hpos => Nat.lt_of_lt_of_le hpos hann

/-! ## The waits -/

theorem waitsOn_snoc (waits : List Waiter) (id other : JobId) :
 waitsOn (waits ++ [{ id, registered := true }]) other
  = waitsOn waits other + if id = other then 1 else 0 := by
 rw [waitsOn, waitsOn, countP_append, countP_singleton]
 by_cases h : id = other <;> simp [h]

variable {waiter : Waiter}

theorem waitsOn_unregister {w : Nat} (hw : waits[w]? = some waiter)
 (hreg : waiter.registered = true) (id : JobId) :
 waitsOn (waits.modify w fun waiter => { waiter with registered := false }) id
  + (if waiter.id = id then 1 else 0) = waitsOn waits id := by
 obtain ⟨hlt, hget⟩ := List.getElem_of_getElem? hw
 rw [waitsOn, waitsOn, modify_eq_set_getElem?, hw]
 simp only [Option.map_eq_map, Option.map_some, Option.getD_some, countP_set hlt, hget, hreg, Bool.true_and,
  Bool.false_and, Bool.false_eq_true, if_false, Nat.add_zero, decide_eq_true_eq]
 by_cases h : waiter.id = id
 · have hpos : 0 < waits.countP fun waiter => waiter.registered && decide (waiter.id = id) :=
    countP_pos_iff.mpr ⟨waiter, mem_of_getElem? hw, by simp [hreg, h]⟩
   simp only [h, if_true]
   omega
 · simp only [h, if_false]
   omega

section

variable (h : ClaimOk waits closed announcing failures record)

include h

theorem waits_less {w : Nat}
 (hid : record.id = waiter.id) (hw : waits[w]? = some waiter) (hreg : waiter.registered = true) :
 record.waiters - 1
  = waitsOn (waits.modify w fun waiter => { waiter with registered := false }) record.id
  ∧ 0 < record.waiters := by
 have hsum := waitsOn_unregister hw hreg record.id
 rw [if_pos hid.symm] at hsum
 have hcount := h.waits
 exact ⟨by omega, by omega⟩

theorem claimOk_other {w : Nat}
 (hw : waits[w]? = some waiter) (hreg : waiter.registered = true) (hne : waiter.id ≠ record.id) :
 ClaimOk (waits.modify w fun waiter => { waiter with registered := false }) closed announcing
  failures record := by
 have hsum := waitsOn_unregister hw hreg record.id
 rw [if_neg hne] at hsum
 exact h.later hsum (Nat.le_refl _) fun _ hf => hf

theorem ClaimOk.less
 (hw : record.waiters - 1 = waitsOn waits' record.id)
 (hnot : ¬ (record.waiters - 1 = 0 ∧ record.claim = .waiters)) :
 ClaimOk waits' closed announcing failures { record with waiters := record.waiters - 1 } where
 waits := hw
 live := h.live
 held := fun hc => Nat.pos_of_ne_zero fun hzero => hnot ⟨hzero, hc⟩
 kept := fun ht hpos => h.kept ht (Nat.lt_of_lt_of_le hpos (Nat.sub_le _ _))
 handed := h.handed
 claimed := h.claimed
 announced := h.announced

/-! ## Operations -/

theorem ClaimOk.same {record' : Record}
 (hid : record'.id = record.id) (hterminal : record'.terminal = record.terminal)
 (hclaim : record'.claim = record.claim) (hwaiters : record'.waiters = record.waiters)
 (hhanded : record'.handed = record.handed) (hannounced : record'.announced = record.announced) :
 ClaimOk waits closed announcing failures record' where
 waits := by rw [hwaiters, hid]; exact h.waits
 live := by rw [hterminal, hclaim]; exact h.live
 held := by rw [hclaim, hwaiters]; exact h.held
 kept := by rw [hterminal, hclaim, hwaiters]; exact h.kept
 handed := by rw [hhanded, hclaim]; exact h.handed
 claimed := by rw [hclaim, hhanded, hid]; exact h.claimed
 announced := by rw [hterminal, hclaim, hannounced]; exact h.announced

end

theorem mem_put {record' x : Record} (hx : x ∈ (r.put record').records) :
 x = record' ∨ x ∈ r.records ∧ x.id ≠ record'.id := by
 rw [records_put] at hx
 obtain ⟨old, hold, rfl⟩ := mem_map.mp hx
 split
 · exact .inl rfl
 next hne =>
  exact .inr ⟨hold, hne⟩

section

variable (h : Reported r failures issued)

include h

theorem Reported.put
 (hok : ClaimOk r.waits r.closed r.announcing failures record) :
 Reported (r.put record) failures issued where
 claims := fun x hx => by
  rcases mem_put hx with rfl | ⟨hold, -⟩
  · exact hok
  · exact h.claims x hold
 waits := h.waits

theorem Reported.unregister (w : Nat) :
 ∀ waiter ∈ r.waits.modify w fun waiter => { waiter with registered := false },
  waiter.id ∈ issued := by
 intro waiter hmem
 obtain ⟨e, he⟩ := getElem?_of_mem hmem
 rw [getElem?_modify] at he
 obtain ⟨old, hold, rfl⟩ := Option.map_eq_some_iff.mp he
 have hin := h.waits old (mem_of_getElem? hold)
 split <;> exact hin

theorem Reported.map {f : Record → Record}
 (hf : ∀ record ∈ r.records, ClaimOk r.waits r.closed r.announcing failures (f record)) :
 Reported { r with records := r.records.map f } failures issued where
 claims := fun x hx => by
  obtain ⟨record, hmem, rfl⟩ := mem_map.mp hx
  exact hf record hmem
 waits := h.waits

end

section

variable (h : Reported r failures issued)
include h

variable (id : JobId)

theorem reported_admitted (admission : Except String Unit) :
 Reported (r.admitted id admission) failures issued := by
 unfold admitted
 split
 next record hfind =>
  exact h.put ((h.claims record (find_ok hfind).1).same rfl rfl rfl rfl rfl rfl)
 · exact h

theorem reported_requestStop (cause : StopCause) :
  Reported (r.requestStop id cause) failures issued := by
 unfold requestStop
 split
 swap
 · exact h
 rename_i record hfind
 split
 · exact h
 have hput : ClaimOk r.waits r.closed r.announcing failures (if record.status = .running then
   { record with
     claim := .claimed, handed := true, status := .stopping, stop := some (record.stop.getD cause) }
  else { record with claim := .claimed, handed := true }) := by
  have hw := (h.claims record (find_ok hfind).1).waits
  split
  all_goals exact claimOk_claimed rfl hw (.inl rfl)
 exact ⟨(h.put hput).claims, h.waits⟩

theorem reported_producerReturned : Reported (r.producerReturned id) failures issued := by
 unfold producerReturned
 split
 swap
 · exact h
 rename_i record hfind
 split
 · exact h
 rename_i hlive
 rw [not_eq_true] at hlive
 exact h.put ((h.claims record (find_ok hfind).1).same rfl hlive.symm rfl rfl rfl rfl)

theorem reported_claimFailed {id : JobId} (hin : id ∈ failures) :
 Reported (r.claimFailed id) failures issued := by
 unfold claimFailed
 split
 next record hfind =>
  obtain ⟨hmem, hid, -⟩ := find_ok hfind
  exact h.put (claimOk_claimed rfl (h.claims record hmem).waits (.inr (.inr (hid ▸ hin))))
 · exact h

/-- **A settled report** is held for who waits, or announced. -/
theorem reported_settle (outcome : JobOutcome) (now : Int) :
 Reported (r.settle id outcome now) failures issued := by
 unfold settle
 split
 swap
 · exact h
 rename_i record hfind
 split
 · exact h
 rename_i hlive
 rw [not_eq_true] at hlive
 have hok := h.claims record (find_ok hfind).1
 have hsettled : ClaimOk r.waits r.closed
  (r.announcing + if !r.closed && (settled r.limits record outcome now).claim == .unclaimed
   then 1 else 0) failures (settled r.limits record outcome now) := by
  by_cases hc : record.claim = .claimed
  · exact claimOk_claimed (by simp [settled, hc]) hok.waits (hok.claimed (.inl hc))
  have hnot : record.handed = false := by
   by_contra hh
   rcases hok.live hlive with hun | hcl
   · exact hok.handed (by simpa using hh) hun
   · exact hc hcl
  by_cases hpos : 0 < record.waiters
  · have hclaim : (settled r.limits record outcome now).claim = .waiters := by
     simp [settled, hc, hpos]
    refine ⟨hok.waits, fun hl => ?_, fun _ => hpos, fun _ _ => by rw [hclaim]; simp,
     fun _ => by rw [hclaim]; simp, fun hcl => ?_, fun _ hcl => ?_⟩
    · exact absurd ((terminal_settled _ _ _ _).symm.trans hl) (by simp)
    · rw [hclaim] at hcl
      simp at hcl
    · exact absurd (hclaim.symm.trans hcl) (by simp)
  · have hclaim : (settled r.limits record outcome now).claim = .unclaimed := by
     simp [settled, hc, hpos]
    refine ⟨hok.waits, fun _ => .inl hclaim, fun hcl => ?_, fun _ hw => absurd hw hpos,
     fun hh => absurd (hnot.symm.trans hh) (by simp), fun hcl => ?_, fun _ _ ho => .inr ?_⟩
    · exact absurd (hclaim.symm.trans hcl) (by simp)
    · rw [hclaim] at hcl
      simp at hcl
    · simp [hclaim, ho]
 refine ⟨fun x hx => ?_, h.waits⟩
 rcases mem_put ((evict_sublist _ _).mem hx) with rfl | ⟨hold, -⟩
 · exact hsettled
 · exact (h.claims x hold).later rfl (Nat.le_add_right _ _) fun _ hf => hf

theorem reported_append (gate : Nat) (data : List UInt8) :
 Reported (r.append gate data) failures issued := by
 refine h.map fun record hmem => ?_
 split
 · exact (h.claims record hmem).same rfl rfl rfl rfl rfl rfl
 · exact h.claims record hmem

theorem reported_read : Reported (r.read id).2 failures issued := by
 unfold JobRegistry.read
 split
 · exact h
 rename_i record hfind
 have hok := h.claims record (find_ok hfind).1
 have hread : ∀ stream : Option StreamBuffer, ClaimOk r.waits r.closed r.announcing failures
  (if ({ record with stream } : Record).terminal = true then
   ({ record with stream } : Record).hand r.deliveryClaim
  else { record with stream }) := by
  intro stream
  split
  next hterminal =>
   exact claimOk_hand (deliveryClaim_cases r) hok.waits hterminal
  · exact hok.same rfl rfl rfl rfl rfl rfl
 exact h.put (hread _)

theorem reported_requestKill (reason : Option String) (claim : Bool) :
 Reported (r.requestKill id reason claim).2 failures issued := by
 unfold requestKill
 split
 · exact h
 rename_i record hfind
 have hok := h.claims record (find_ok hfind).1
 split
 next hterminal =>
  split
  · exact h.put (claimOk_hand (deliveryClaim_cases r) hok.waits hterminal)
  · exact h
 rename_i hlive
 rw [not_eq_true] at hlive
 have hkilled : ClaimOk r.waits r.closed r.announcing failures
  (if claim = true then { record with claim := .claimed, handed := true } else record)
  ∧ (if claim = true then { record with claim := .claimed, handed := true } else record).terminal
   = false := by
  split
  · exact ⟨claimOk_claimed rfl hok.waits (.inl rfl), hlive⟩
  · exact ⟨hok, hlive⟩
 generalize (if claim = true then { record with claim := .claimed, handed := true }
  else record) = killed at hkilled ⊢
 dsimp only
 split
 · exact h.put hkilled.1
 · have hput : ClaimOk r.waits r.closed r.announcing failures { killed with
    status := .stopping, stop := some (.kill (reason.map (cut · maxTextBytes))) } :=
    hkilled.1.same rfl hkilled.2.symm rfl rfl rfl rfl
   exact ⟨(h.put hput).claims, h.waits⟩

theorem reported_claimReport : Reported (r.claimReport id).2 failures issued := by
 unfold claimReport
 split
 · exact h
 rename_i record hfind
 split
 next hreportable =>
  rw [Record.reportable, and_eq_true] at hreportable
  exact h.put (claimOk_hand (deliveryClaim_cases r) (h.claims record (find_ok hfind).1).waits
   hreportable.1)
 · exact h

theorem reported_claimUnreported : Reported r.claimUnreported.2 failures issued := by
 unfold claimUnreported
 split
 · exact h
 · refine h.map fun record hmem => ?_
   split
   next hreportable =>
    rw [Record.reportable, and_eq_true] at hreportable
    exact claimOk_hand (deliveryClaim_cases r) (h.claims record hmem).waits hreportable.1
   · exact h.claims record hmem

theorem reported_acknowledge (text : String) : Reported (r.acknowledge text) failures issued := by
 unfold acknowledge
 split
 · exact h
 split
 next record hfind =>
  split
  · exact h.put (claimOk_claimed rfl (h.claims record (find_ok hfind).1).waits (.inl rfl))
  · exact h
 · exact h

/-- **Deliveries are given back** where nobody waits for them any more. -/
theorem reported_releaseDeliveries {pending : List String}
 (hwaited : ∀ record ∈ r.records, abandoned pending record = true → record.waiters = 0) :
 Reported (r.releaseDeliveries pending) failures issued := by
 unfold releaseDeliveries
 split
 · exact h
 refine ⟨fun x hx => ?_, h.waits⟩
 obtain ⟨record, hmem, rfl⟩ := mem_map.mp hx
 have hok := h.claims record hmem
 by_cases hab : abandoned pending record = true
 · rw [if_pos hab]
   refine claimOk_release hok.waits (fun _ => hwaited record hmem hab) fun _ => ?_
   have hany : r.records.any (abandoned pending) = true := any_eq_true.mpr ⟨record, hmem, hab⟩
   simp [hany]
 · rw [if_neg hab]
   exact hok.later rfl (Nat.le_add_right _ _) fun _ hf => hf

theorem reported_announce : Reported r.announce failures issued := by
 unfold announce
 split
 · exact h
 refine ⟨fun x hx => ?_, h.waits⟩
 obtain ⟨record, hmem, rfl⟩ := mem_map.mp hx
 have hok := h.claims record hmem
 exact ⟨hok.waits, hok.live, hok.held, hok.kept, hok.handed, hok.claimed, fun _ _ _ => .inl rfl⟩

theorem reported_post (message : CustomMessage) : Reported (r.post message).2 failures issued := by
 unfold post
 split
 · exact h
 · exact ⟨fun x hx => (h.claims x hx).later rfl (Nat.le_succ _) fun _ hf => hf, h.waits⟩

theorem reported_close : Reported r.close failures issued where
 claims := fun x hx => by
  obtain ⟨record, hmem, rfl⟩ := mem_map.mp hx
  have hw := (h.claims record hmem).waits
  dsimp only
  split
  all_goals exact claimOk_claimed rfl hw (.inr (.inl rfl))
 waits := h.waits

theorem reported_wait {id : JobId} (hissued : ∀ record ∈ r.records, record.id ∈ issued)
 (timeout : Nat) : Reported (r.wait id timeout).2 failures issued := by
 unfold wait
 split
 · exact h
 split
 · exact h
 rename_i record hfind
 obtain ⟨hmem, hid, -⟩ := find_ok hfind
 have hok := h.claims record hmem
 split
 next hterminal =>
  exact h.put (claimOk_hand (deliveryClaim_cases r) hok.waits hterminal)
 rename_i hlive
 rw [not_eq_true] at hlive
 refine ⟨fun x hx => ?_, fun waiter hw => ?_⟩
 · rcases mem_put hx with rfl | ⟨hold, hne⟩
   · refine ⟨?_, hok.live, fun hc => ?_, fun ht => ?_, hok.handed, hok.claimed, fun ht => ?_⟩
     · rw [waitsOn_snoc, if_pos hid.symm]
       exact congrArg (· + 1) hok.waits
     · exact Nat.succ_pos _
     · exact absurd (hlive.symm.trans ht) (by simp)
     · exact absurd (hlive.symm.trans ht) (by simp)
   · refine (h.claims x hold).later ?_ (Nat.le_refl _) fun _ hf => hf
     rw [waitsOn_snoc, if_neg fun heq => hne (heq.symm.trans hid.symm), Nat.add_zero]
 · rcases mem_append.mp hw with hold | hin
   · exact h.waits waiter hold
   · obtain rfl := mem_singleton.mp hin
     exact hid ▸ hissued record hmem

theorem reported_finish (w : Nat) (cancelled onlyTerminal : Bool) :
 Reported (r.finish w cancelled onlyTerminal).2 failures issued := by
 unfold finish
 split
 · exact h
 rename_i waiter hw
 split
 · exact h
 rename_i hreg
 simp only [not_eq_true, not_eq_false'] at hreg
 split
 · exact h
 rename_i record hfind
 obtain ⟨hmem, hid, -⟩ := find_ok hfind
 have hok := h.claims record hmem
 split
 · exact h
 have hwaits := h.unregister w
 have hless := waits_less hok hid hw hreg
 have hother := fun x hx => claimOk_other (h.claims x hx) (w := w) hw hreg
 dsimp only
 split
 next hterminal =>
  refine ⟨fun x hx => ?_, hwaits⟩
  rcases mem_put hx with rfl | ⟨hold, hne⟩
  · exact claimOk_hand (deliveryClaim_cases r) hless.1 hterminal
  · exact hother x hold fun heq => hne (heq.symm.trans hid.symm)
 next hlive =>
  rw [not_eq_true] at hlive
  refine ⟨fun x hx => ?_, hwaits⟩
  rcases mem_put hx with rfl | ⟨hold, hne⟩
  · refine hok.less hless.1 fun hc => ?_
    rcases hok.live hlive with hun | hcl
    · exact absurd (hun.symm.trans hc.2) (by simp)
    · exact absurd (hcl.symm.trans hc.2) (by simp)
  · exact hother x hold fun heq => hne (heq.symm.trans hid.symm)

/-- **The last wait that is dropped** gives the report back. -/
theorem reported_dropWait (hr : RegistrySound r) (w : Nat) :
 Reported (r.dropWait w) failures issued := by
 unfold dropWait
 split
 · exact h
 rename_i waiter hw
 split
 · exact h
 rename_i hreg
 simp only [not_eq_true, not_eq_false'] at hreg
 have hwaits := h.unregister w
 have hother := fun x hx => claimOk_other (h.claims x hx) (w := w) hw hreg
 split
 next hfind =>
  refine ⟨fun x hx => hother x hx fun heq => ?_, hwaits⟩
  have hfound := find_of_mem hr.ids hx (hr.own x hx)
  rw [← heq, hfind] at hfound
  simp at hfound
 rename_i record hfind
 obtain ⟨hmem, hid, -⟩ := find_ok hfind
 have hok := h.claims record hmem
 have hless := waits_less hok hid hw hreg
 dsimp only
 refine ⟨fun x hx => ?_, hwaits⟩
 rcases mem_put ((evict_sublist _ _).mem hx) with rfl | ⟨hold, hne⟩
 · by_cases hrel : (record.waiters - 1 == 0 && record.claim == .waiters) = true
   · rw [if_pos hrel]
     simp only [and_eq_true, beq_iff_eq] at hrel
     refine claimOk_release hless.1 (fun _ => hrel.1) fun ho => ?_
     have hopen : r.closed = false := ho
     simp [hrel.1, hrel.2, hopen]
   · rw [if_neg hrel]
     simp only [and_eq_true, beq_iff_eq] at hrel
     exact (hok.less hless.1 hrel).later rfl (Nat.le_add_right _ _) fun _ hf => hf
 · refine (hother x hold fun heq => hne ?_).later rfl (Nat.le_add_right _ _) fun _ hf => hf
   split
   all_goals exact heq.symm.trans hid.symm

end

/-! ## Runs -/

theorem Reported.more (h : Reported r failures issued) {failures' issued' : List JobId}
 (hf : ∀ id ∈ failures, id ∈ failures') (hi : ∀ id ∈ issued, id ∈ issued') :
 Reported r failures' issued' :=
 ⟨fun x hx => (h.claims x hx).later rfl (Nat.le_refl _) hf, fun w hw => hi _ (h.waits w hw)⟩

theorem Reported.drive (h : Reported j.registry j.failures issued) (hs : Sound j) (d : Nat)
 (answer : DriverAnswer) :
 Reported (j.drive d answer).registry (j.drive d answer).failures issued := by
 unfold JobSystem.drive
 split
 swap
 · exact h
 rename_i driver hd
 have hplace := (hs.drivers d driver hd).place
 have hrecord : ∀ snapshot, Reported (j.record snapshot answer.recorded).2.registry
  (j.record snapshot answer.recorded).2.failures issued := by
  intro snapshot
  rcases j.record_cases snapshot answer.recorded with ⟨-, heq⟩ | ⟨error, heq⟩ | ⟨-, heq⟩
  · rw [heq]
    exact h
  · rw [heq]
    exact h.more (fun _ hin => mem_append_left _ hin) fun _ hin => hin
  · rw [heq]
    exact h
 unfold driveFrom
 unfold PlaceOk at hplace
 cases hp : driver.place with
 | recordingStart started =>
  cases started with
  | ok snapshot => exact hrecord snapshot
  | error error => exact h
 | admitting admission =>
  cases admission with
  | ok _ | error error => exact reported_admitted h driver.id _
 | drainingStart _ _ | spawning | entered _ | calling _ _ | draining _ _ =>
  simp only
  split
  · exact h
  · exact h
 | ready | producing task =>
  simp only
  split
  · exact reported_requestStop h driver.id .shutdown
  · exact h
 | produced outcome => exact reported_producerReturned h driver.id
 | recordingEnd outcome terminal =>
  cases terminal with
  | none => exact h
  | some snapshot =>
   simp only
   have hrecorded := hrecord snapshot
   split
   · exact hrecorded
   · exact hrecorded
 | settling outcome => exact reported_settle h driver.id outcome answer.now
 | failing error =>
  simp only [hp] at hplace
  exact reported_claimFailed h hplace.1
 | failed error =>
  exact reported_settle h driver.id (.failed ("the job journal failed: " ++ error)) answer.now
 | _ => exact h

theorem Reported.start (hs : Sound j) (h : Reported j.registry j.failures (j.drivers.map (·.id)))
 (spec : JobSpec) (spawned : Except Refused Unit) (now : Int) :
 Reported (j.start spec spawned now).registry j.failures (j.drivers.map (·.id)) := by
 have hids := (hs.start spec spawned now).later.ids
 unfold JobSystem.start at hids ⊢
 rcases start_cases j.registry spec j.drivers.length spawned now with
  ⟨error, heq⟩ | ⟨id, record, hid, hrid, -, hlive, hclaim, hwaiters, hhanded, -, -, heq⟩
 · rw [heq]
   exact h
 rw [heq] at hids ⊢
 dsimp only at hids ⊢
 obtain ⟨new, hids, hnew⟩ := hids
 -- the id is none that was given out
 have hfresh : id ∉ j.drivers.map (·.id) := by
  intro hmem
  obtain ⟨driver, hin, hdid⟩ := mem_map.mp hmem
  obtain ⟨d, hd⟩ := getElem?_of_mem hin
  obtain ⟨ids, hk, hle⟩ := (hs.drivers d driver hd).issued
  have hlast := hnew id (by simp at hids; simp [← hids]) ids (hdid ▸ hk)
  rw [hdid] at hle
  omega
 have hkept : ∀ f, (j.registry.modifyKind spec.kind f).waits = j.registry.waits
  ∧ (j.registry.modifyKind spec.kind f).closed = j.registry.closed
  ∧ (j.registry.modifyKind spec.kind f).announcing = j.registry.announcing := by
  intro f
  unfold JobRegistry.modifyKind
  split <;> exact ⟨rfl, rfl, rfl⟩
 obtain ⟨hw, hc, ha⟩ := hkept fun ids => { ids with
  last := ((j.registry.kind? spec.kind).getD { kind := spec.kind, floor := 0, last := 0 }).last + 1 }
 refine ⟨fun x hx => ?_, by rw [hw]; exact h.waits⟩
 rw [hw, hc, ha]
 rcases mem_append.mp hx with hold | hin
 · exact h.claims x hold
 obtain rfl := mem_singleton.mp hin
 refine ⟨?_, fun _ => .inl hclaim, fun hcl => ?_, fun ht => ?_, fun hh => ?_, fun hcl => ?_,
  fun ht => ?_⟩
 · rw [hwaiters, waitsOn, eq_comm, countP_eq_zero]
   intro waiter hmem
   have hne : waiter.id ≠ x.id := fun heqid => hfresh (hrid ▸ heqid ▸ h.waits waiter hmem)
   simp [hne]
 · exact absurd (hclaim.symm.trans hcl) (by simp)
 · exact absurd (hlive.symm.trans ht) (by simp)
 · exact absurd (hhanded.symm.trans hh) (by simp)
 · rw [hclaim] at hcl
   simp at hcl
 · exact absurd (hlive.symm.trans ht) (by simp)

theorem same_useGate (j : JobSystem) (d : Nat) (input : Input) :
 (j.useGate d input).registry = j.registry ∧ (j.useGate d input).failures = j.failures := by
 unfold JobSystem.useGate
 split <;> exact ⟨rfl, rfl⟩

theorem Reported.closeGate (h : Reported j.registry j.failures issued) (k : Nat) :
 Reported (j.closeGate k).registry j.failures issued := by
 unfold JobSystem.closeGate
 split
 · exact h
 · rw [(same_useGate _ _ _).1]
   exact ⟨h.claims, h.waits⟩

/-- Where deliveries are given back, none of them is of a job a wait is registered on. -/
def WaitedKept (j : JobSystem) : JobInput → Prop
 | .releaseDeliveries pending =>
  ∀ record ∈ j.registry.records, abandoned pending record = true → record.waiters = 0
 | _ => True

/-- **Every step that gives back no waited-for delivery** keeps what holds of the claims. -/
theorem Reported.step (hs : Sound j) (h : Reported j.registry j.failures (j.drivers.map (·.id)))
 (i : JobInput) (hkept : WaitedKept j i) :
 Reported (j.step i).registry (j.step i).failures ((j.step i).drivers.map (·.id)) := by
 have hissued : ∀ record ∈ j.registry.records, record.id ∈ j.drivers.map (·.id) := by
  intro record hmem
  obtain ⟨driver, hd, hid, -⟩ := hs.records record hmem
  exact mem_map.mpr ⟨driver, mem_of_getElem? hd, hid⟩
 cases i with
 | attachRecorder =>
  change Reported j.registry.attachRecorder _ _
  unfold JobRegistry.attachRecorder
  split
  · exact h
  · exact ⟨h.claims, h.waits⟩
 | start spec spawned now =>
  obtain ⟨new, hids, -⟩ := (hs.start spec spawned now).later.ids
  have hmore : ∀ id ∈ j.drivers.map (·.id), id ∈ (j.start spec spawned now).drivers.map (·.id) :=
   fun id hin => by
    rw [hids]
    exact mem_append_left _ hin
  refine (h.start hs spec spawned now).more (fun id hin => ?_) hmore
  exact (hs.start spec spawned now).later.failures id hin
 | reserveOrdinals kind through =>
  change Reported (j.registry.reserveOrdinals kind through).2 _ _
  unfold JobRegistry.reserveOrdinals
  split
  · exact h
  · unfold JobRegistry.modifyKind
    split
    all_goals exact ⟨h.claims, h.waits⟩
 | drive d answer =>
  obtain ⟨new, hids, -⟩ := (hs.drive d answer).later.ids
  refine (h.drive hs d answer).more (fun _ hin => hin) fun id hin => ?_
  change id ∈ (j.drive d answer).drivers.map (·.id)
  rw [hids]
  exact mem_append_left _ hin
 | useGate d input =>
  obtain ⟨hregistry, hfailures⟩ := same_useGate j d input
  have hids := (hs.next_useGate (.refl j.registry) d input).ids
  change Reported (j.useGate d input).registry (j.useGate d input).failures
   ((j.useGate d input).drivers.map (·.id))
  change (j.useGate d input).drivers.map (·.id) = _ at hids
  rw [hids, hregistry, hfailures]
  exact h
 | closeGate k =>
  obtain ⟨new, hids, -⟩ := (hs.closeGate k).later.ids
  refine (h.closeGate k).more ((hs.closeGate k).later.failures) fun id hin => ?_
  change id ∈ (j.closeGate k).drivers.map (·.id)
  rw [hids]
  exact mem_append_left _ hin
 | append d data => exact reported_append h d data
 | read id => exact reported_read h id
 | kill id reason => exact reported_requestKill h id reason true
 | stop id => exact reported_requestKill h id (some userStopReason) false
 | wait id timeout => exact reported_wait h hissued timeout
 | wake w => exact reported_finish h w false true
 | timeOut w => exact reported_finish h w false false
 | cancel w => exact reported_finish h w true false
 | dropWait w => exact reported_dropWait h hs.registry w
 | claimReport id => exact reported_claimReport h id
 | claimUnreported => exact reported_claimUnreported h
 | releaseDeliveries pending => exact reported_releaseDeliveries h hkept
 | acknowledge text => exact reported_acknowledge h text
 | announce => exact reported_announce h
 | post message => exact reported_post h message
 | claimMail => exact ⟨h.claims, h.waits⟩
 | close => exact reported_close h
 | pollClose k =>
  change Reported (j.registry.pollClose k) _ _
  unfold JobRegistry.pollClose
  split
  · exact ⟨h.claims, h.waits⟩
  · exact h

/-- The states a session's jobs reach while no waited-for delivery is given back. -/
def ReachableKept (registry : Nat) (limits : JobLimits) : JobSystem → Prop :=
 Run.Reach (· = new registry limits) JobSystem.step WaitedKept

theorem ReachableKept.reported {registry : Nat} {limits : JobLimits}
 (h : ReachableKept registry limits j) :
 Sound j ∧ Reported j.registry j.failures (j.drivers.map (·.id)) := by
 refine Run.Reach.invariant
  (fun j => Sound j ∧ Reported j.registry j.failures (j.drivers.map (·.id))) ?_ ?_ h
 · rintro j rfl
   exact ⟨sound_new registry limits, fun _ hmem => absurd hmem (by simp [new, JobRegistry.new]),
    fun _ hmem => absurd hmem (by simp [new, JobRegistry.new])⟩
 · rintro j i ⟨hs, hr⟩ hkept
   exact ⟨(hs.step i).sound, hr.step hs i hkept⟩

theorem not_claimed (h : RegistrySound r) (hmem : record ∈ r.records)
 (hclaim : record.claim ≠ .unclaimed) : (r.claimReport record.id).1 = .ok false
  ∧ ∀ snapshot ∈ r.claimUnreported.1, snapshot.id ≠ record.id := by
 have hnot : ∀ other ∈ r.records, other.id = record.id → other.reportable = false := by
  intro other hother hid
  obtain rfl := inj_on_of_nodup_map h.ids hother hmem hid
  simp [Record.reportable, hclaim]
 constructor
 · unfold JobRegistry.claimReport
   rw [find_of_mem h.ids hmem (h.own record hmem)]
   simp [hnot record hmem rfl]
 · intro snapshot hs
   unfold JobRegistry.claimUnreported at hs
   split at hs
   · simp at hs
   obtain ⟨other, hother, rfl⟩ := mem_map.mp hs
   obtain ⟨hother, hreportable⟩ := mem_filter.mp hother
   intro hid
   exact absurd ((hnot other hother hid).symm.trans hreportable) (by simp)

/-- A recorded job that is waited for, settles, is read, and whose delivery is given back. -/
def releasedWhileWaited : List JobInput :=
 [.attachRecorder, .start { kind := "bash", label := "make", output := .final } (.ok ()) 1,
  .wait { registry := 0, kind := "bash", ordinal := 1 } 10]
  ++ finishedJob.drop 2
  ++ [.read { registry := 0, kind := "bash", ordinal := 1 }, .releaseDeliveries []]

end Bake.Jobs.JobSystem
