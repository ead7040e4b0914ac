import Bake.Jobs.Drive

/-!
# What the registry does to its records

Every operation finds at most one record and writes to it, or changes all of them alike, or
drops terminal ones; none but a start adds one and none but a settlement makes one terminal.
So a record moves forward only: its status along running, stopping, completing, terminal,
what a terminal one says never, and a report claimed for good stays so.
-/

open List

namespace Bake.Jobs

open Bake.Session JobRegistry

def JobStatus.rank : JobStatus → Nat
 | .running => 0
 | .stopping => 1
 | .completing => 2
 | .completed | .killed | .failed => 3

structure Moved (record record' : Record) : Prop where
 id : record'.id = record.id
 gate : record'.gate = record.gate
 forward : record.status.rank ≤ record'.status.rank
 fixed : record.terminal = true → record'.status = record.status
  ∧ record'.detail = record.detail ∧ record'.finalOutput = record.finalOutput
  ∧ record'.finalOmitted = record.finalOmitted ∧ record'.finishedAt = record.finishedAt
 claimed : record.claim = .claimed → record'.claim = .claimed

theorem Moved.refl (record : Record) : Moved record record :=
 ⟨rfl, rfl, Nat.le_refl _, fun _ => ⟨rfl, rfl, rfl, rfl, rfl⟩, fun h => h⟩

theorem Moved.trans {a b c : Record} (h : Moved a b) (h' : Moved b c) : Moved a c where
 id := h'.id.trans h.id
 gate := h'.gate.trans h.gate
 forward := Nat.le_trans h.forward h'.forward
 fixed := fun ht => by
  obtain ⟨hs, hd, ho, hm, hf⟩ := h.fixed ht
  have ht' : b.terminal = true := by
   rw [Record.terminal, hs]
   exact ht
  obtain ⟨hs', hd', ho', hm', hf'⟩ := h'.fixed ht'
  exact ⟨hs'.trans hs, hd'.trans hd, ho'.trans ho, hm'.trans hm, hf'.trans hf⟩
 claimed := fun hc => h'.claimed (h.claimed hc)

/-- A record later on, settled or live as it was. -/
structure Stayed (record record' : Record) : Prop extends Moved record record' where
 terminal : record'.terminal = record.terminal

theorem Stayed.refl (record : Record) : Stayed record record := ⟨.refl record, rfl⟩

theorem Stayed.trans {a b c : Record} (h : Stayed a b) (h' : Stayed b c) : Stayed a c :=
 ⟨h.toMoved.trans h'.toMoved, h'.terminal.trans h.terminal⟩

variable {record : Record} {records : List Record}

theorem Stayed.of_status {record' : Record} (hid : record'.id = record.id)
 (hgate : record'.gate = record.gate) (hstatus : record'.status = record.status)
 (hdetail : record'.detail = record.detail) (houtput : record'.finalOutput = record.finalOutput)
 (homitted : record'.finalOmitted = record.finalOmitted)
 (hfinished : record'.finishedAt = record.finishedAt)
 (hclaimed : record.claim = .claimed → record'.claim = .claimed) : Stayed record record' :=
 ⟨⟨hid, hgate, by rw [hstatus], fun _ => ⟨hstatus, hdetail, houtput, homitted, hfinished⟩, hclaimed⟩,
  by rw [Record.terminal, hstatus]; rfl⟩

theorem JobStatus.rank_le (status : JobStatus) : status.rank ≤ 3 := by
 cases status <;> simp [JobStatus.rank]

theorem JobStatus.rank_terminal {status : JobStatus} (h : status.isTerminal = true) :
 status.rank = 3 := by
 cases status <;> simp [JobStatus.rank, JobStatus.isTerminal] at h ⊢

theorem JobStatus.rank_live {status : JobStatus} (h : status.isTerminal = false) :
 status.rank ≤ 2 := by
 cases status <;> simp [JobStatus.rank, JobStatus.isTerminal] at h ⊢

theorem Stayed.live {record' : Record} (hid : record'.id = record.id)
 (hgate : record'.gate = record.gate) (hlive : record.terminal = false)
 (hlive' : record'.terminal = false) (hforward : record.status.rank ≤ record'.status.rank)
 (hclaimed : record.claim = .claimed → record'.claim = .claimed) : Stayed record record' :=
 ⟨⟨hid, hgate, hforward, by simp [hlive], hclaimed⟩, hlive'.trans hlive.symm⟩

theorem Record.stayed_hand (record : Record) (claim : Claim) : Stayed record (record.hand claim) :=
 .of_status rfl rfl rfl rfl rfl rfl rfl fun h => by simp [Record.hand, h]

theorem Record.stayed_release (h : record.claim ≠ .claimed) : Stayed record record.release :=
 .of_status rfl rfl rfl rfl rfl rfl rfl fun hc => absurd hc h

/-! ## Lists of records -/

/-- Records later on: each is an earlier one moved, and the live ones are all there. -/
structure RecordsKept (records records' : List Record) : Prop where
 back : ∀ record' ∈ records', ∃ record ∈ records, Stayed record record'
 live : ∀ record ∈ records, record.terminal = false → ∃ record' ∈ records', Stayed record record'
 ids : (records'.map (·.id)).Sublist (records.map (·.id))
 active : (records'.countP fun record => !record.terminal)
  ≤ records.countP fun record => !record.terminal

theorem RecordsKept.refl (records : List Record) : RecordsKept records records :=
 ⟨fun record h => ⟨record, h, .refl record⟩, fun record h _ => ⟨record, h, .refl record⟩,
  .refl _, Nat.le_refl _⟩

theorem RecordsKept.trans {a b c : List Record} (h : RecordsKept a b) (h' : RecordsKept b c) :
 RecordsKept a c where
 back := fun record'' h'' => by
  obtain ⟨record', hmem', hs'⟩ := h'.back record'' h''
  obtain ⟨record, hmem, hs⟩ := h.back record' hmem'
  exact ⟨record, hmem, hs.trans hs'⟩
 live := fun record hmem hlive => by
  obtain ⟨record', hmem', hs⟩ := h.live record hmem hlive
  obtain ⟨record'', hmem'', hs'⟩ := h'.live record' hmem' (hs.terminal.trans hlive)
  exact ⟨record'', hmem'', hs.trans hs'⟩
 ids := h'.ids.trans h.ids
 active := Nat.le_trans h'.active h.active

theorem RecordsKept.map {f : Record → Record} (hf : ∀ record ∈ records, Stayed record (f record)) :
 RecordsKept records (records.map f) where
 back := fun record' h => by
  obtain ⟨record, hmem, rfl⟩ := mem_map.mp h
  exact ⟨record, hmem, hf record hmem⟩
 live := fun record hmem _ => ⟨f record, mem_map_of_mem hmem, hf record hmem⟩
 ids := by
  rw [map_map]
  have heq : records.map ((·.id) ∘ f) = records.map (·.id) :=
   map_congr_left fun record hmem => (hf record hmem).id
  rw [heq]
 active := by
  rw [countP_map]
  refine Nat.le_of_eq (countP_congr fun record hmem => ?_)
  simp [(hf record hmem).terminal]

theorem evictOne_sublist (records : List Record) : (evictOne records).Sublist records := by
 unfold evictOne
 split
 · exact eraseIdx_sublist _ _
 · split
   · exact eraseIdx_sublist _ _
   · exact .refl _

theorem mem_eraseIdx_of_not {p : Record → Bool} {index : Nat} (h : records.findIdx? p = some index)
 (hmem : record ∈ records) (hnot : p record = false) : record ∈ records.eraseIdx index := by
 rw [findIdx?_eq_some_iff_getElem] at h
 obtain ⟨hlt, hp, -⟩ := h
 obtain ⟨i, hi⟩ := getElem?_of_mem hmem
 have hne : i ≠ index := by
  rintro rfl
  obtain ⟨hlt', rfl⟩ := List.getElem_of_getElem? hi
  simp [hnot] at hp
 rcases Nat.lt_or_gt_of_ne hne with hlt' | hlt'
 · exact mem_of_getElem? (getElem?_eraseIdx_of_lt hlt' ▸ hi)
 · refine mem_of_getElem? (i := i - 1) ?_
   rw [getElem?_eraseIdx_of_ge (by omega), Nat.sub_add_cancel (by omega)]
   exact hi

theorem mem_evictOne (hmem : record ∈ records) (hnot : record.evictable = false) :
 record ∈ evictOne records := by
 unfold evictOne
 split
 next index h =>
  exact mem_eraseIdx_of_not h hmem (by simp [hnot])
 · split
   next index h =>
    exact mem_eraseIdx_of_not h hmem hnot
   · exact hmem

variable (max : Nat)

theorem evict_sublist (records : List Record) : (evict max records).Sublist records := by
 unfold evict
 generalize records.countP Record.terminal - max = n
 induction n generalizing records with
 | zero => exact .refl _
 | succ n ih =>
  rw [Function.iterate_succ_apply]
  exact (ih _).trans (evictOne_sublist records)

/-- **A record a wait is registered on stays**, and so does a live one. -/
theorem mem_evict (hmem : record ∈ records) (hnot : record.evictable = false) :
 record ∈ evict max records := by
 unfold evict
 generalize records.countP Record.terminal - max = n
 induction n generalizing records with
 | zero => exact hmem
 | succ n ih =>
  rw [Function.iterate_succ_apply]
  exact ih (mem_evictOne hmem hnot)

theorem RecordsKept.evict (records : List Record) : RecordsKept records (evict max records) where
 back := fun record h => ⟨record, (evict_sublist max records).mem h, .refl record⟩
 live := fun record hmem hlive =>
  ⟨record, mem_evict max hmem (by simp [Record.evictable, hlive]), .refl record⟩
 ids := (evict_sublist max records).map _
 active := (evict_sublist max records).countP_le

/-! ## Finding and writing -/

namespace JobRegistry

variable {r r' : JobRegistry} {id : JobId} {record record' : Record}

theorem find_ok (h : r.find id = .ok record) :
 record ∈ r.records ∧ record.id = id ∧ id.registry = r.registry := by
 unfold find at h
 split at h
 · simp at h
 rename_i hregistry
 split at h
 next record' hfind =>
  cases h
  exact ⟨mem_of_find?_eq_some hfind, by simpa using find?_some hfind,
   not_not.mp hregistry⟩
 · simp at h

theorem find_of_mem (hnodup : (r.records.map (·.id)).Nodup) (hmem : record ∈ r.records)
 (hregistry : record.id.registry = r.registry) : r.find record.id = .ok record := by
 have hfind : r.records.find? (·.id = record.id) = some record := by
  cases h : r.records.find? (·.id = record.id) with
  | none =>
   have := find?_eq_none.mp h record hmem
   simp at this
  | some other =>
   have hid : other.id = record.id := by simpa using find?_some h
   exact congrArg some (inj_on_of_nodup_map hnodup (mem_of_find?_eq_some h) hmem hid)
 simp only [find, hregistry, ne_eq, not_true_eq_false, if_false, hfind]

theorem records_put (r : JobRegistry) (record : Record) : (r.put record).records
 = r.records.map fun old => if old.id = record.id then record else old := rfl

theorem RecordsKept.put (hnodup : (r.records.map (·.id)).Nodup) (hfind : r.find id = .ok record)
 (hstayed : Stayed record record') : RecordsKept r.records (r.put record').records := by
 obtain ⟨hmem, hid, -⟩ := find_ok hfind
 rw [records_put]
 refine .map fun old hold => ?_
 split
 next heq =>
  rw [hstayed.id] at heq
  obtain rfl : old = record := inj_on_of_nodup_map hnodup hold hmem heq
  exact hstayed
 · exact .refl old

/-! ## Operations -/

/-- A registry later on, without a job more and without a job settled: its numbers, its
bounds and its calls of `close` are as they were. -/
structure Kept (r r' : JobRegistry) : Prop where
 registry : r'.registry = r.registry
 limits : r'.limits = r.limits
 recorder : r'.recorder = r.recorder
 kinds : r'.kinds = r.kinds
 closed : r'.closed = r.closed
 closes : r'.closes = r.closes
 records : RecordsKept r.records r'.records

theorem Kept.refl (r : JobRegistry) : Kept r r := ⟨rfl, rfl, rfl, rfl, rfl, rfl, .refl _⟩

theorem Kept.put (hnodup : (r.records.map (·.id)).Nodup) (hfind : r.find id = .ok record)
 (hstayed : Stayed record record') : Kept r (r.put record') :=
 ⟨rfl, rfl, rfl, rfl, rfl, rfl, RecordsKept.put hnodup hfind hstayed⟩

section

variable (hnodup : (r.records.map (·.id)).Nodup)
include hnodup

theorem kept_admitted (id : JobId) (admission : Except String Unit) :
 Kept r (r.admitted id admission) := by
 unfold admitted
 split
 next record hfind =>
  exact .put hnodup hfind (.of_status rfl rfl rfl rfl rfl rfl rfl fun h => h)
 · exact .refl r

theorem kept_requestStop (id : JobId) (cause : StopCause) : Kept r (r.requestStop id cause) := by
 unfold requestStop
 split
 swap
 · exact .refl r
 rename_i record hfind
 split
 · exact .refl r
 rename_i hlive
 rw [Bool.not_eq_true] at hlive
 have hstayed : Stayed record (if record.status = .running then
  { record with
    claim := .claimed, handed := true, status := .stopping, stop := some (record.stop.getD cause) }
  else { record with claim := .claimed, handed := true }) := by
  split
  next hrunning =>
   exact .live rfl rfl hlive rfl (by rw [hrunning]; exact Nat.zero_le _) fun _ => rfl
  · exact .of_status rfl rfl rfl rfl rfl rfl rfl fun _ => rfl
 have h := Kept.put hnodup hfind hstayed
 exact ⟨h.registry, h.limits, h.recorder, h.kinds, h.closed, h.closes, h.records⟩

theorem kept_producerReturned (id : JobId) : Kept r (r.producerReturned id) := by
 unfold producerReturned
 split
 swap
 · exact .refl r
 rename_i record hfind
 split
 · exact .refl r
 rename_i hlive
 rw [Bool.not_eq_true] at hlive
 exact .put hnodup hfind (.live rfl rfl hlive rfl (JobStatus.rank_live hlive) fun h => h)

theorem kept_claimFailed (id : JobId) : Kept r (r.claimFailed id) := by
 unfold claimFailed
 split
 next record hfind =>
  exact .put hnodup hfind (.of_status rfl rfl rfl rfl rfl rfl rfl fun _ => rfl)
 · exact .refl r

theorem kept_read (id : JobId) : Kept r (r.read id).2 := by
 unfold read
 split
 · exact .refl r
 rename_i record hfind
 have hread : ∀ stream : Option StreamBuffer, Stayed record
  (if ({ record with stream } : Record).terminal = true then
   ({ record with stream } : Record).hand r.deliveryClaim
  else { record with stream }) := by
  intro stream
  have htaken : Stayed record { record with stream } :=
   .of_status rfl rfl rfl rfl rfl rfl rfl fun h => h
  split
  · exact htaken.trans (Record.stayed_hand _ _)
  · exact htaken
 exact .put hnodup hfind (hread _)

theorem kept_requestKill (id : JobId) (reason : Option String) (claim : Bool) :
 Kept r (r.requestKill id reason claim).2 := by
 unfold requestKill
 split
 · exact .refl r
 rename_i record hfind
 split
 · split
   · exact .put hnodup hfind (record.stayed_hand _)
   · exact .refl r
 rename_i hlive
 rw [Bool.not_eq_true] at hlive
 have hclaim : Stayed record
  (if claim = true then { record with claim := .claimed, handed := true } else record) := by
  split
  · exact .of_status rfl rfl rfl rfl rfl rfl rfl fun _ => rfl
  · exact .refl record
 generalize (if claim = true then { record with claim := .claimed, handed := true }
  else record) = killed at hclaim ⊢
 dsimp only
 split
 · exact .put hnodup hfind hclaim
 next hrunning =>
  rw [ne_eq, not_not] at hrunning
  refine ⟨rfl, rfl, rfl, rfl, rfl, rfl, RecordsKept.put hnodup hfind (hclaim.trans ?_)⟩
  exact .live rfl rfl (hclaim.terminal.trans hlive) rfl (by rw [hrunning]; exact Nat.zero_le _)
   fun h => h

theorem kept_claimReport (id : JobId) : Kept r (r.claimReport id).2 := by
 unfold claimReport
 split
 · exact .refl r
 rename_i record hfind
 split
 · exact .put hnodup hfind (record.stayed_hand _)
 · exact .refl r

theorem kept_acknowledge (text : String) : Kept r (r.acknowledge text) := by
 unfold acknowledge
 split
 · exact .refl r
 split
 next record hfind =>
  split
  · exact .put hnodup hfind (.of_status rfl rfl rfl rfl rfl rfl rfl fun _ => rfl)
  · exact .refl r
 · exact .refl r

theorem kept_wait (id : JobId) (timeout : Nat) : Kept r (r.wait id timeout).2 := by
 unfold wait
 split
 · exact .refl r
 split
 · exact .refl r
 rename_i record hfind
 split
 · exact .put hnodup hfind (record.stayed_hand _)
 · exact ⟨rfl, rfl, rfl, rfl, rfl, rfl,
    RecordsKept.put hnodup hfind (.of_status rfl rfl rfl rfl rfl rfl rfl fun h => h)⟩

theorem kept_finish (w : Nat) (cancelled onlyTerminal : Bool) :
 Kept r (r.finish w cancelled onlyTerminal).2 := by
 unfold finish
 split
 · exact .refl r
 split
 · exact .refl r
 split
 · exact .refl r
 rename_i record hfind
 have hless : Stayed record { record with waiters := record.waiters - 1 } :=
  .of_status rfl rfl rfl rfl rfl rfl rfl fun h => h
 split
 · exact .refl r
 · simp only
   split
   · exact ⟨rfl, rfl, rfl, rfl, rfl, rfl,
      RecordsKept.put hnodup hfind (hless.trans (Record.stayed_hand _ _))⟩
   · exact ⟨rfl, rfl, rfl, rfl, rfl, rfl, RecordsKept.put hnodup hfind hless⟩

theorem kept_dropWait (w : Nat) : Kept r (r.dropWait w) := by
 unfold dropWait
 split
 · exact .refl r
 split
 · exact .refl r
 split
 · exact ⟨rfl, rfl, rfl, rfl, rfl, rfl, .refl _⟩
 rename_i record hfind
 have hless : Stayed record { record with waiters := record.waiters - 1 } :=
  .of_status rfl rfl rfl rfl rfl rfl rfl fun h => h
 refine ⟨rfl, rfl, rfl, rfl, rfl, rfl,
  (RecordsKept.put hnodup hfind (hless.trans ?_)).trans (.evict _ _)⟩
 split
 next hreleased =>
  simp only [Bool.and_eq_true, beq_iff_eq] at hreleased
  refine Record.stayed_release ?_
  rw [hreleased.2]
  simp
 · exact .refl _

end

theorem kept_append (gate : Nat) (data : List UInt8) : Kept r (r.append gate data) := by
 refine ⟨rfl, rfl, rfl, rfl, rfl, rfl, .map fun record _ => ?_⟩
 split
 · exact .of_status rfl rfl rfl rfl rfl rfl rfl fun h => h
 · exact .refl record

theorem kept_claimUnreported : Kept r r.claimUnreported.2 := by
 unfold claimUnreported
 split
 · exact .refl r
 · refine ⟨rfl, rfl, rfl, rfl, rfl, rfl, .map fun record _ => ?_⟩
   split
   · exact record.stayed_hand _
   · exact .refl record

theorem kept_releaseDeliveries (pending : List String) : Kept r (r.releaseDeliveries pending) := by
 unfold releaseDeliveries
 split
 · exact .refl r
 · refine ⟨rfl, rfl, rfl, rfl, rfl, rfl, .map fun record _ => ?_⟩
   split
   next hab =>
    simp only [abandoned, Bool.and_eq_true, beq_iff_eq] at hab
    exact Record.stayed_release (by rw [hab.1]; simp)
   · exact .refl record

theorem kept_announce : Kept r r.announce := by
 unfold announce
 split
 · exact .refl r
 · refine ⟨rfl, rfl, rfl, rfl, rfl, rfl, .map fun record _ => ?_⟩
   exact .of_status rfl rfl rfl rfl rfl rfl rfl fun h => h

theorem kept_post (message : CustomMessage) : Kept r (r.post message).2 := by
 unfold post
 split
 · exact .refl r
 · exact ⟨rfl, rfl, rfl, rfl, rfl, rfl, .refl _⟩

theorem kept_claimMail : Kept r r.claimMail.2 := ⟨rfl, rfl, rfl, rfl, rfl, rfl, .refl _⟩

theorem recordsKept_close : RecordsKept r.records r.close.records := by
 refine .map fun record _ => ?_
 simp only
 split
 next hrunning =>
  have hlive : record.terminal = false := by rw [Record.terminal, hrunning]; rfl
  exact .live rfl rfl hlive rfl (by rw [hrunning]; exact Nat.zero_le _) fun _ => rfl
 · exact .of_status rfl rfl rfl rfl rfl rfl rfl fun _ => rfl

end JobRegistry

end Bake.Jobs
