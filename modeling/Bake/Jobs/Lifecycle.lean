import Bake.Jobs.Sound
import Bake.Lib.Tables

/-!
# A job's life

A job's driver settles it once, behind the close of its gate and behind the facts its
recorder has made durable. No other step makes a job terminal, and none changes what a
terminal one says.
-/

open List Nat

namespace Bake.Jobs.JobSystem

open Bake.Session Bake.Work JobRegistry

variable {j j' : JobSystem} {d : Nat} {driver driver' : Driver} {record : Record}

/-! ## A settlement -/

theorem terminal_settled (limits : JobLimits) (record : Record) (outcome : JobOutcome) (now : Int) :
 (settled limits record outcome now).terminal = true := by
 simp only [settled, Record.terminal]
 cases outcome.status <;> rfl

theorem moved_settled (limits : JobLimits) (outcome : JobOutcome) (now : Int)
 (hlive : record.terminal = false) : Moved record (settled limits record outcome now) where
 id := rfl
 gate := rfl
 forward := by
  rw [JobStatus.rank_terminal (terminal_settled limits record outcome now)]
  exact record.status.rank_le
 fixed := by simp [hlive]
 claimed := fun hc => by simp [settled, hc]

/-- What a settlement does to the registry: the job's record gets its outcome, and terminal
records may go. -/
structure Settlement (r r' : JobRegistry) (record : Record) (outcome : JobOutcome) (now : Int) :
 Prop where
 registry : r'.registry = r.registry
 limits : r'.limits = r.limits
 recorder : r'.recorder = r.recorder
 kinds : r'.kinds = r.kinds
 closed : r'.closed = r.closed
 closes : r'.closes = r.closes
 back : ∀ x ∈ r'.records, x = settled r.limits record outcome now ∨ x ∈ r.records ∧ x.id ≠ record.id
 live : ∀ x ∈ r.records, x.terminal = false → x.id ≠ record.id → x ∈ r'.records
 ids : (r'.records.map (·.id)).Sublist (r.records.map (·.id))
 active : r'.active ≤ r.active

variable {r : JobRegistry}

theorem settlement {id : JobId} (hfind : r.find id = .ok record) (hlive : record.terminal = false)
 (outcome : JobOutcome) (now : Int) :
 Settlement r (r.settle id outcome now) record outcome now := by
 obtain ⟨hmem, hid, -⟩ := find_ok hfind
 have hids : ((r.put (settled r.limits record outcome now)).records.map (·.id))
  = r.records.map (·.id) := by
  rw [records_put, map_map]
  refine map_congr_left fun old _ => ?_
  simp only [Function.comp_apply]
  split
  next heq =>
   exact heq.symm
  · rfl
 have hactive : ((r.put (settled r.limits record outcome now)).records.countP
  fun record => !record.terminal) ≤ r.active := by
  rw [records_put, countP_map]
  refine countP_mono_left fun old _ hold => ?_
  simp only [Function.comp_apply] at hold
  split at hold
  · simp [terminal_settled] at hold
  · exact hold
 unfold settle
 rw [hfind]
 dsimp only
 rw [if_neg (by simp [hlive])]
 refine ⟨rfl, rfl, rfl, rfl, rfl, rfl, fun x hx => ?_, fun x hx hl hne => ?_, ?_, ?_⟩
 · have hput := (evict_sublist _ _).mem hx
   rw [records_put] at hput
   obtain ⟨old, hold, rfl⟩ := mem_map.mp hput
   split
   · exact .inl rfl
   next hne =>
    exact .inr ⟨hold, hne⟩
 · refine mem_evict _ ?_ (by simp [Record.evictable, hl])
   rw [records_put]
   exact mem_map.mpr ⟨x, hx, if_neg hne⟩
 · have hsub := (evict_sublist r.limits.maxRetained
    (r.put (settled r.limits record outcome now)).records).map (·.id)
   rw [hids] at hsub
   exact hsub
 · exact le_trans (evict_sublist _ _).countP_le hactive

theorem RegistrySound.settle {r' : JobRegistry} (h : RegistrySound r) {outcome : JobOutcome}
 {now : Int} (hs : Settlement r r' record outcome now) (hmem : record ∈ r.records) :
 RegistrySound r' where
 ids := h.ids.sublist hs.ids
 own := fun x hx => by
  rw [hs.registry]
  rcases hs.back x hx with rfl | ⟨hold, -⟩
  · exact h.own record hmem
  · exact h.own x hold
 active := by
  rw [hs.limits]
  exact le_trans hs.active h.active
 kinds := fun kind ids hkind => by
  rw [kind?_of_kinds hs.kinds] at hkind
  exact h.kinds kind ids hkind
 called := by
  rw [hs.closes, hs.closed]
  exact h.called
 resolved := fun k hk => by
  rw [hs.closes] at hk
  exact le_zero.mp (le_trans hs.active (le_of_eq (h.resolved k hk)))

/-- What a job may be settled on: its gate is drained, and its outcome is the one on record, or
failed with the report claimed. -/
structure Due (j : JobSystem) (driver : Driver) (record : Record) (outcome : JobOutcome) : Prop where
 drained : Drained driver.gate
 journaled : record.id ∉ j.failures → j.registry.recorder = true →
  Journaled j record.id outcome.status.toJobStatus
 failed : record.id ∈ j.failures → outcome.status = .failed ∧ record.claim = .claimed

def Settles (j j' : JobSystem) (record : Record) : Prop :=
 ∃ driver outcome now, j.drivers[record.gate]? = some driver ∧ driver.id = record.id
  ∧ Due j driver record outcome ∧ j'.registry = j.registry.settle record.id outcome now

/-- What every step keeps, and does. -/
structure Stepped (j j' : JobSystem) : Prop where
 sound : Sound j'
 later : Later j j'
 live : ∀ record ∈ j.registry.records, record.terminal = false →
  (∃ record' ∈ j'.registry.records, Stayed record record') ∨ Settles j j' record

section

variable (h : Sound j)

include h

theorem Sound.stepped (hn : Next j j') : Stepped j j' :=
 ⟨h.next hn, hn.later, fun record hmem hlive => .inl (hn.records.live record hmem hlive)⟩

/-- **A driver settles its job** once it is due. -/
theorem Sound.settle (hd : j.drivers[d]? = some driver)
 (hlive : driver.place ≠ .done) (outcome : JobOutcome) (now : Int)
 (hdue : ∀ record, j.registry.find driver.id = .ok record → record.gate = d →
  Due j driver record outcome) :
 Stepped j ((j.withRegistry (j.registry.settle driver.id outcome now)).setDriver d
  { driver with place := .done }) := by
 obtain ⟨record, hfind, hid, hgate, hl⟩ := h.found hd hlive
 have hdue := hdue record hfind hgate
 obtain ⟨hmem, -, -⟩ := find_ok hfind
 have hs := settlement hfind hl outcome now
 have hlt := (List.getElem_of_getElem? hd).1
 have hids : (j.drivers.set d { driver with place := .done }).map (·.id) = j.drivers.map (·.id) := by
  refine ext_getElem? fun e => ?_
  rw [getElem?_map, getElem?_map]
  by_cases hed : d = e
  · subst hed
    rw [getElem?_set_self hlt, hd]
    rfl
  · rw [getElem?_set_ne hed]
 have hkind : ∀ kind, (j.registry.settle driver.id outcome now).kind? kind = j.registry.kind? kind :=
  kind?_of_kinds hs.kinds
 refine ⟨⟨h.registry.settle hs hmem, fun e other he => ?_, fun x hx => ?_, ?_, fun id hin => ?_⟩,
  ⟨fun x hx => ?_, ⟨[], by simp only [setDriver, withRegistry, hids, append_nil],
   fun _ hin => absurd hin (by simp)⟩, fun kind ids hk => ?_, fun _ hin => hin,
   fun k hk => ?_, hs.limits⟩,
  fun x hx hxl => ?_⟩
 · -- the drivers
   change (j.drivers.set d { driver with place := .done })[e]? = some other at he
   by_cases hed : d = e
   · subst hed
     rw [getElem?_set_self hlt] at he
     cases he
     have hold := h.drivers d driver hd
     obtain ⟨ids, hk, hle⟩ := hold.issued
     exact ⟨hold.gate, hold.own.trans hs.registry.symm, ⟨ids, (hkind _).trans hk, hle⟩, trivial,
      fun hne => absurd rfl hne⟩
   rw [getElem?_set_ne hed] at he
   have hold := h.drivers e other he
   have hne : other.id ≠ driver.id := fun heq => hed (h.driver_inj hd he heq.symm)
   obtain ⟨ids, hk, hle⟩ := hold.issued
   have hjournal : ((j.withRegistry (j.registry.settle driver.id outcome now)).setDriver d
    { driver with place := .done }).journal = j.journal ++ [] := (append_nil _).symm
   have hplace : PlaceOk ((j.withRegistry (j.registry.settle driver.id outcome now)).setDriver d
    { driver with place := .done }) { other with gate := other.gate } := by
    refine hold.place.later hjournal Iff.rfl hs.recorder (fun x hx _ => ?_) (.refl other.gate)
    rcases hs.back x hx with rfl | ⟨hxold, -⟩
    · exact ⟨record, hmem, moved_settled _ outcome now hl⟩
    · exact ⟨x, hxold, .refl x⟩
   refine ⟨hold.gate, hold.own.trans hs.registry.symm, ⟨ids, (hkind _).trans hk, hle⟩, hplace,
    fun hne' => ?_⟩
   obtain ⟨x, hx, hxid, hxgate, hxl⟩ := hold.live hne'
   exact ⟨x, hs.live x hx hxl (by rw [hxid, hid]; exact hne), hxid, hxgate, hxl⟩
 · -- the records
   rcases hs.back x hx with rfl | ⟨hxold, hne⟩
   · refine ⟨{ driver with place := .done }, ?_, hid.symm, fun _ => ⟨rfl, hdue.drained, ?_, ?_⟩⟩
     · rw [show (settled j.registry.limits record outcome now).gate = d from hgate]
       exact getElem?_set_self hlt
     · exact fun hnot hr => hdue.journaled hnot (hs.recorder.symm.trans hr)
     · intro hin
       obtain ⟨hstatus, hclaim⟩ := hdue.failed hin
       exact ⟨by simp [settled, hstatus, OutcomeStatus.toJobStatus], by simp [settled, hclaim]⟩
   · obtain ⟨other, ho, hoid, ht⟩ := h.records x hxold
     have hed : d ≠ x.gate := by
      rintro rfl
      rw [hd] at ho
      injection ho with ho
      exact hne (by rw [← hoid, ← ho, hid])
     refine ⟨other, (getElem?_set_ne hed).trans ho, hoid, fun hterminal => ?_⟩
     obtain ⟨hdone, hdrained, htold⟩ := ht hterminal
     exact ⟨hdone, hdrained, fun hnot hr => htold.journaled hnot (hs.recorder.symm.trans hr),
      htold.failed⟩
 · change ((j.drivers.set d { driver with place := .done }).map (·.id)).Nodup
   rw [hids]
   exact h.distinct
 · change id ∈ (j.drivers.set d { driver with place := .done }).map (·.id)
   rw [hids]
   exact h.failed id hin
 · rcases hs.back x hx with rfl | ⟨hxold, -⟩
   · exact .inl ⟨record, hmem, moved_settled _ outcome now hl⟩
   · exact .inl ⟨x, hxold, .refl x⟩
 · exact ⟨ids, (hkind kind).trans hk, le_refl _⟩
 · exact (congrArg (fun closes : List Bool => closes[k]?) hs.closes).trans hk
 · by_cases hxid : x.id = record.id
   · obtain rfl : x = record := inj_on_of_nodup_map h.registry.ids hx hmem hxid
     exact .inr ⟨driver, outcome, now, by rw [hgate]; exact hd, hid.symm, hdue, by rw [hid]; rfl⟩
   · exact .inl ⟨x, hs.live x hx hxl hxid, .refl x⟩

/-- **A driver's step** keeps what holds, and settles a job only when it is due. -/
theorem Sound.drive (d : Nat) (answer : DriverAnswer) : Stepped j (j.drive d answer) := by
 unfold JobSystem.drive
 split
 swap
 · exact h.stepped h.next_same
 rename_i driver hd
 have hplace := (h.drivers d driver hd).place
 unfold PlaceOk at hplace
 by_cases hsettling : ∃ outcome, driver.place = .settling outcome
 · obtain ⟨outcome, hp⟩ := hsettling
   simp only [hp] at hplace
   unfold driveFrom
   simp only [hp]
   refine h.settle hd (by simp [hp]) outcome answer.now fun record hfind _ => ?_
   obtain ⟨-, hid, -⟩ := find_ok hfind
   rw [← hid] at hplace
   exact ⟨hplace.2.1, fun _ hr => hplace.2.2 hr, fun hin => absurd hin hplace.1⟩
 by_cases hfailed : ∃ error, driver.place = .failed error
 · obtain ⟨error, hp⟩ := hfailed
   simp only [hp] at hplace
   unfold driveFrom
   simp only [hp]
   refine h.settle hd (by simp [hp]) (.failed ("the job journal failed: " ++ error)) answer.now
    fun record hfind _ => ?_
   obtain ⟨hmem, hid, -⟩ := find_ok hfind
   exact ⟨hplace.2.1, fun hnot => absurd (hid ▸ hplace.1) hnot,
    fun _ => ⟨rfl, hplace.2.2 record hmem hid⟩⟩
 · exact h.stepped (h.next_driveFrom hd (fun outcome hp => hsettling ⟨outcome, hp⟩)
    (fun error hp => hfailed ⟨error, hp⟩) answer)

/-! ## Gates, starts and closes -/

theorem Sound.next_useGate (hkept : Kept j.registry r) (d : Nat) (input : Input) :
 Next j ((j.withRegistry r).useGate d input) := by
 unfold JobSystem.useGate
 split
 swap
 · exact h.next_kept hkept
 rename_i driver hd
 have hold := h.drivers d driver hd
 have hlater := driver.gate.later_step input
 have hjournal : ((j.withRegistry r).setDriver d
  { driver with gate := driver.gate.step input }).journal = j.journal ++ [] :=
  (append_nil _).symm
 refine h.next_set hd hkept ⟨rfl, hold.gate.step input, hlater, Iff.rfl⟩ ?_
 refine hold.place.later hjournal Iff.rfl hkept.recorder (fun record' hmem _ => ?_) hlater
 obtain ⟨record, hrecord, hs⟩ := hkept.records.back record' hmem
 exact ⟨record, hrecord, hs.toMoved⟩

theorem Sound.closeGate (k : Nat) : Stepped j (j.closeGate k) := by
 unfold JobSystem.closeGate
 split
 · exact h.stepped h.next_same
 · exact h.stepped (h.next_useGate
    (r := { j.registry with closing := j.registry.closing.eraseIdx k })
    ⟨rfl, rfl, rfl, rfl, rfl, rfl, .refl _⟩ _ .close)

/-- A recorder is attached while no job is kept, so to jobs started later. -/
theorem Sound.attachRecorder :
 Stepped j (j.withRegistry j.registry.attachRecorder) := by
 unfold JobRegistry.attachRecorder
 split
 · exact h.stepped h.next_same
 rename_i hnot
 have hempty : j.registry.records = [] := by
  simp only [Bool.or_eq_true, not_or, Bool.not_eq_true, Bool.not_eq_false',
   List.isEmpty_iff] at hnot
  exact hnot.1.1
 have hr := h.registry
 have hdone : ∀ (d : Nat) driver, j.drivers[d]? = some driver → driver.place = .done := by
  intro d driver hd
  by_contra hlive
  obtain ⟨record, hmem, -⟩ := (h.drivers d driver hd).live hlive
  rw [hempty] at hmem
  simp at hmem
 refine ⟨⟨⟨hr.ids, hr.own, hr.active, hr.kinds, hr.called, hr.resolved⟩, fun d driver hd => ?_,
  fun record hmem => ?_, h.distinct, h.failed⟩,
  ⟨fun record hmem => .inl ⟨record, hmem, .refl record⟩,
   ⟨[], (append_nil _).symm, fun _ hin => absurd hin (by simp)⟩,
   fun kind ids hk => ⟨ids, hk, le_refl _⟩, fun _ hin => hin, fun _ hk => hk, rfl⟩,
  fun record hmem _ => .inl ⟨record, hmem, .refl record⟩⟩
 · have hold := h.drivers d driver hd
   refine ⟨hold.gate, hold.own, hold.issued, ?_, hold.live⟩
   unfold PlaceOk
   simp only [hdone d driver hd]
 · change record ∈ j.registry.records at hmem
   rw [hempty] at hmem
   simp at hmem

theorem Sound.next_reserveOrdinals (kind : String) (through : Nat) :
 Next j (j.withRegistry (j.registry.reserveOrdinals kind through).2) := by
 unfold JobRegistry.reserveOrdinals
 split
 · exact h.next_same
 let f := fun ids : KindIds =>
  { ids with floor := max ids.floor through, last := max ids.last through }
 have hf : ∀ ids, (f ids).kind = ids.kind := fun _ => rfl
 obtain ⟨hrecords, hnumber, hlimits, hrecorder, -, hcloses⟩ := modifyKind_same j.registry kind f
 refine h.next_registry (h.registry.modifyKind hf ?_) ?_ hnumber hlimits hrecorder
  (kinds_modifyKind hf fun ids _ => le_max_left _ _) fun k hk => ?_
 · have hle := h.registry.floor_le kind
   simp only
   omega
 · rw [hrecords]
   exact .refl _
 · rw [hcloses]
   exact hk

theorem Sound.next_close : Next j (j.withRegistry j.registry.close) := by
 have hr := h.registry
 have hrecords := recordsKept_close (r := j.registry)
 have hclosed : ∀ k : Nat, (j.registry.closes ++ [false])[k]? = some true →
  j.registry.closes[k]? = some true := by
  intro k hk
  rcases OrdMap.getElem?_snoc_some hk with ⟨-, hk⟩ | ⟨-, hk⟩
  · simp at hk
  · exact hk
 refine h.next_registry ⟨hr.ids.sublist hrecords.ids, fun record' hmem => ?_,
  le_trans hrecords.active hr.active, hr.kinds, fun _ => rfl, fun k hk => ?_⟩ hrecords rfl rfl rfl
  (fun kind ids hk => ⟨ids, hk, le_refl _⟩) fun k hk => ?_
 · obtain ⟨record, hmem', hs⟩ := hrecords.back record' hmem
   rw [hs.id]
   exact hr.own record hmem'
 · exact le_zero.mp (le_trans hrecords.active (le_of_eq (hr.resolved k (hclosed k hk))))
 · exact (getElem?_append_left (List.getElem_of_getElem? hk).1).trans hk

theorem Sound.next_pollClose (k : Nat) :
 Next j (j.withRegistry (j.registry.pollClose k)) := by
 unfold JobRegistry.pollClose
 split
 swap
 · exact h.next_same
 rename_i hk
 have hr := h.registry
 refine h.next_registry ⟨hr.ids, hr.own, hr.active, hr.kinds, fun _ => ?_, fun _ _ => hk.2⟩ (.refl _)
  rfl rfl rfl (fun kind ids hk => ⟨ids, hk, le_refl _⟩) fun e he => ?_
 · exact hr.called (ne_nil_of_mem (mem_of_getElem? hk.1))
 · by_cases hke : k = e
   · subst hke
     exact getElem?_set_self (List.getElem_of_getElem? he).1
   · exact (getElem?_set_ne hke).trans he

end

/-- A start admits a job with the next id of its kind, or changes nothing. -/
theorem start_cases (r : JobRegistry) (spec : JobSpec) (gate : Nat) (spawned : Except Refused Unit)
 (now : Int) : (∃ error, r.start spec gate spawned now = (.error error, r)) ∨
 ∃ (id : JobId) (record : Record), let last := ((r.kind? spec.kind).getD
  { kind := spec.kind, floor := 0, last := 0 }).last
  let kept := r.modifyKind spec.kind fun ids => { ids with last := last + 1 }
  id = { registry := r.registry, kind := spec.kind, ordinal := last + 1 }
  ∧ record.id = id ∧ record.gate = gate ∧ record.terminal = false
  ∧ record.claim = .unclaimed ∧ record.waiters = 0 ∧ record.handed = false ∧ r.closed = false ∧ r.active < r.limits.maxActive
  ∧ r.start spec gate spawned now = (.ok id, { kept with records := r.records ++ [record] }) := by
 have hlast : ((r.kind? spec.kind).map (·.last)).getD 0
  = ((r.kind? spec.kind).getD { kind := spec.kind, floor := 0, last := 0 }).last := by
  cases r.kind? spec.kind <;> rfl
 unfold JobRegistry.start
 split
 · exact .inl ⟨_, rfl⟩
 split
 · exact .inl ⟨_, rfl⟩
 split
 · exact .inl ⟨_, rfl⟩
 rename_i hopen
 split
 · exact .inl ⟨_, rfl⟩
 rename_i hfree
 simp only
 split
 · exact .inl ⟨_, rfl⟩
 split
 · exact .inl ⟨_, rfl⟩
 · exact .inl ⟨_, rfl⟩
 rw [hlast, (modifyKind_same r spec.kind _).1]
 exact .inr ⟨_, _, rfl, rfl, rfl, rfl, rfl, rfl, rfl, by simpa using hopen, Nat.lt_of_not_le hfree,
  rfl⟩

/-- **A started job** has an id of its own, behind all its kind has given out. -/
theorem Sound.start (h : Sound j) (spec : JobSpec) (spawned : Except Refused Unit) (now : Int) :
 Stepped j (j.start spec spawned now) := by
 unfold JobSystem.start
 rcases start_cases j.registry spec j.drivers.length spawned now with
  ⟨error, heq⟩ | ⟨id, record, hid, hrid, hgate, hlive, -, -, -, hopen, hfree, heq⟩
 · rw [heq]
   exact h.stepped h.next_same
 rw [heq]
 dsimp only
 let last := ((j.registry.kind? spec.kind).getD { kind := spec.kind, floor := 0, last := 0 }).last
 let f := fun ids : KindIds => { ids with last := last + 1 }
 have hf : ∀ ids, (f ids).kind = ids.kind := fun _ => rfl
 have hr := h.registry
 have hkinds : ∀ kind ids, j.registry.kind? kind = some ids →
  ∃ ids', (j.registry.modifyKind spec.kind f).kind? kind = some ids' ∧ ids.last ≤ ids'.last := by
  refine kinds_modifyKind hf fun ids hk => ?_
  have hl : last = ids.last := by simp only [last, hk, Option.getD_some]
  simp only [f, hl]
  omega
 -- the id is behind every id of its kind
 have hlast : ∀ ids, j.registry.kind? id.kind = some ids → ids.last < id.ordinal := by
  intro ids hk
  rw [hid] at hk ⊢
  dsimp only at hk ⊢
  rw [hk, Option.getD_some]
  omega
 have hnew : id ∉ j.drivers.map (·.id) := by
  intro hmem
  obtain ⟨driver, hin, hdid⟩ := mem_map.mp hmem
  obtain ⟨d, hd⟩ := getElem?_of_mem hin
  obtain ⟨ids, hk, hle⟩ := (h.drivers d driver hd).issued
  rw [hdid] at hk hle
  have := hlast ids hk
  omega
 have hids : ∀ old ∈ j.registry.records, old.id ∈ j.drivers.map (·.id) := by
  intro old hmem
  obtain ⟨driver, hd, hdid, -⟩ := h.records old hmem
  exact mem_map.mpr ⟨driver, mem_of_getElem? hd, hdid⟩
 have hkept : RegistrySound (j.registry.modifyKind spec.kind f) := by
  refine hr.modifyKind hf ?_
  have hle := hr.floor_le spec.kind
  simp only [f, last]
  omega
 obtain ⟨hrecords, hnumber, hlimits, hrecorder, hclosed, hcloses⟩ :=
  modifyKind_same j.registry spec.kind f
 have hnone : j.registry.closes = [] := by
  by_contra hne
  exact absurd (hr.called hne) (by simp [hopen])
 generalize hkeptEq : j.registry.modifyKind spec.kind f = kept at *
 have hkind : ∃ ids, kept.kind? id.kind = some ids ∧ id.ordinal ≤ ids.last := by
  rw [← hkeptEq, kind?_modifyKind _ _ hf, hid]
  exact ⟨_, if_pos rfl, le_refl _⟩
 let first : Driver := { id, gate := .empty, place := .begin }
 let after : JobSystem := { j with
  registry := { kept with records := j.registry.records ++ [record] }
  drivers := j.drivers ++ [first] }
 have hjournal : after.journal = j.journal ++ [] := (append_nil _).symm
 change Stepped j after
 refine ⟨⟨⟨?_, fun old hmem => ?_, ?_, hkept.kinds, ?_, fun k hk => ?_⟩, fun d driver hd => ?_,
  fun old hmem => ?_, ?_, fun id' hin => ?_⟩,
  ⟨fun old hmem => ?_, ⟨[id], by rw [map_append]; rfl, fun id' hin => ?_⟩, hkinds,
   fun _ hin => hin, fun k hk => ?_, hlimits⟩,
  fun old hmem hl => .inl ⟨old, mem_append_left _ hmem, .refl old⟩⟩
 · -- the records' ids
   change ((j.registry.records ++ [record]).map (·.id)).Nodup
   rw [map_append, map_singleton, nodup_append]
   refine ⟨hr.ids, nodup_singleton _, fun a ha b hb => ?_⟩
   obtain ⟨old, hold, rfl⟩ := mem_map.mp ha
   rw [mem_singleton] at hb
   subst hb
   rintro heqid
   exact hnew (hrid ▸ heqid ▸ hids old hold)
 · rw [show kept.registry = j.registry.registry from hnumber]
   rcases mem_append.mp hmem with hold | hin
   · exact hr.own old hold
   · obtain rfl := mem_singleton.mp hin
     rw [hrid, hid]
 · change (j.registry.records ++ [record]).countP (fun record => !record.terminal) ≤ kept.limits.maxActive
   rw [countP_append, hlimits]
   have hone : [record].countP (fun record => !record.terminal) = 1 := by simp [hlive]
   rw [hone]
   exact hfree
 · intro hne
   exact absurd (hcloses.trans hnone) hne
 · change kept.closes[k]? = some true at hk
   rw [hcloses, hnone] at hk
   simp at hk
 · -- the drivers
   change (j.drivers ++ [first])[d]? = some driver at hd
   rcases OrdMap.getElem?_snoc_some hd with ⟨rfl, rfl⟩ | ⟨-, hold⟩
   · refine ⟨WorkGate.sound_empty, ?_, hkind, ?_, fun _ => ⟨record,
      mem_append_right _ (mem_singleton_self _), hrid, hgate, hlive⟩⟩
     · rw [show first.id = _ from hid]
       exact hnumber.symm
     · exact fun hin => hnew (h.failed id hin)
   have hok := h.drivers d driver hold
   obtain ⟨ids, hk, hle⟩ := hok.issued
   obtain ⟨ids', hk', hle'⟩ := hkinds _ ids hk
   refine ⟨hok.gate, hok.own.trans hnumber.symm, ⟨ids', hk', le_trans hle hle'⟩, ?_,
    fun hne => ?_⟩
   · have hplace : PlaceOk after { driver with gate := driver.gate } := by
      refine hok.place.later hjournal Iff.rfl hrecorder (fun x hin hxid => ?_) (.refl driver.gate)
      rcases mem_append.mp hin with hold' | hin
      · exact ⟨x, hold', .refl x⟩
      · obtain rfl := mem_singleton.mp hin
        rw [hrid] at hxid
        exact absurd (hxid ▸ mem_map_of_mem (mem_of_getElem? hold)) hnew
     exact hplace
   · obtain ⟨old, hin, hrest⟩ := hok.live hne
     exact ⟨old, mem_append_left _ hin, hrest⟩
 · -- the records
   rcases mem_append.mp hmem with hold | hin
   · obtain ⟨driver, hd, hdid, ht⟩ := h.records old hold
     refine ⟨driver, (getElem?_append_left (List.getElem_of_getElem? hd).1).trans hd, hdid,
      fun hterminal => ?_⟩
     obtain ⟨hdone, hdrained, htold⟩ := ht hterminal
     exact ⟨hdone, hdrained, fun hnot hrec => htold.journaled hnot (hrecorder.symm.trans hrec),
      htold.failed⟩
   · obtain rfl := mem_singleton.mp hin
     refine ⟨first, ?_, hrid.symm, fun ht => ?_⟩
     · rw [hgate]
       exact getElem?_concat_length
     simp [hlive] at ht
 · change ((j.drivers ++ [first]).map (·.id)).Nodup
   rw [map_append, map_singleton, nodup_append]
   refine ⟨h.distinct, nodup_singleton _, fun a ha b hb => ?_⟩
   rw [mem_singleton] at hb
   subst hb
   rintro rfl
   exact hnew ha
 · change id' ∈ (j.drivers ++ [first]).map (·.id)
   rw [map_append]
   exact mem_append_left _ (h.failed id' hin)
 · rcases mem_append.mp hmem with hold | hin
   · exact .inl ⟨old, hold, .refl old⟩
   · obtain rfl := mem_singleton.mp hin
     exact .inr (by rw [hrid]; exact hnew)
 · rw [mem_singleton] at hin
   subst hin
   exact hlast
 · rw [hnone] at hk
   simp at hk

/-! ## Runs -/

/-- **Every step** keeps what holds, moves jobs forward, and settles them only when due. -/
theorem Sound.step (h : Sound j) (i : JobInput) : Stepped j (j.step i) := by
 have hids := h.registry.ids
 cases i with
 | attachRecorder => exact h.attachRecorder
 | start spec spawned now => exact h.start spec spawned now
 | reserveOrdinals kind through => exact h.stepped (h.next_reserveOrdinals kind through)
 | drive d answer => exact h.drive d answer
 | useGate d input => exact h.stepped (h.next_useGate (.refl j.registry) d input)
 | closeGate k => exact h.closeGate k
 | append d data => exact h.stepped (h.next_kept (kept_append d data))
 | read id => exact h.stepped (h.next_kept (kept_read hids id))
 | kill id reason => exact h.stepped (h.next_kept (kept_requestKill hids id reason true))
 | stop id =>
  exact h.stepped (h.next_kept (kept_requestKill hids id (some userStopReason) false))
 | wait id timeout => exact h.stepped (h.next_kept (kept_wait hids id timeout))
 | wake w => exact h.stepped (h.next_kept (kept_finish hids w false true))
 | timeOut w => exact h.stepped (h.next_kept (kept_finish hids w false false))
 | cancel w => exact h.stepped (h.next_kept (kept_finish hids w true false))
 | dropWait w => exact h.stepped (h.next_kept (kept_dropWait hids w))
 | claimReport id => exact h.stepped (h.next_kept (kept_claimReport hids id))
 | claimUnreported => exact h.stepped (h.next_kept kept_claimUnreported)
 | releaseDeliveries pending => exact h.stepped (h.next_kept (kept_releaseDeliveries pending))
 | acknowledge text => exact h.stepped (h.next_kept (kept_acknowledge hids text))
 | announce => exact h.stepped (h.next_kept kept_announce)
 | post message => exact h.stepped (h.next_kept (kept_post message))
 | claimMail => exact h.stepped (h.next_kept kept_claimMail)
 | close => exact h.stepped h.next_close
 | pollClose k => exact h.stepped (h.next_pollClose k)

theorem Sound.final (h : Sound j) (inputs : List JobInput) :
 Sound (Run.final JobSystem.step j inputs) ∧ Later j (Run.final JobSystem.step j inputs) := by
 refine Run.final_invariant (fun j' => Sound j' ∧ Later j j') (fun j' i hs => ?_) ⟨h, .refl j⟩ inputs
 exact ⟨(hs.1.step i).sound, hs.2.trans (hs.1.step i).later⟩

theorem sound_new (registry : Nat) (limits : JobLimits) : Sound (new registry limits) where
 registry :=
  { ids := nodup_nil
    own := fun _ hmem => absurd hmem (by simp [new, JobRegistry.new])
    active := zero_le _
    kinds := fun _ _ hk => absurd hk (by simp [new, JobRegistry.new, JobRegistry.kind?])
    called := fun hne => absurd rfl hne
    resolved := fun _ hk => absurd hk (by simp [new, JobRegistry.new]) }
 drivers := fun _ _ hd => absurd hd (by simp [new])
 records := fun _ hmem => absurd hmem (by simp [new, JobRegistry.new])
 distinct := nodup_nil
 failed := fun _ hmem => absurd hmem (by simp [new])

theorem Reachable.sound {registry : Nat} {limits : JobLimits} (h : Reachable registry limits j) :
 Sound j ∧ j.registry.limits = limits := by
 refine Run.Reach.invariant (fun j => Sound j ∧ j.registry.limits = limits) ?_ ?_ h
 · rintro j rfl
   exact ⟨sound_new registry limits, rfl⟩
 · rintro j i ⟨hs, hlimits⟩ -
   exact ⟨(hs.step i).sound, (hs.step i).later.limits.trans hlimits⟩

theorem Sound.moved (h : Sound j) (hlater : Later j j') (hmem : record ∈ j.registry.records)
 {record' : Record} (hmem' : record' ∈ j'.registry.records) (hid : record'.id = record.id) :
 Moved record record' := by
 obtain ⟨driver, hd, hdid, -⟩ := h.records record hmem
 rcases hlater.records record' hmem' with ⟨old, hold, hm⟩ | hnot
 · obtain rfl := inj_on_of_nodup_map h.registry.ids hold hmem (hm.id.symm.trans hid)
   exact hm
 · refine absurd (mem_map.mpr ⟨driver, mem_of_getElem? hd, ?_⟩) hnot
   rw [hid]
   exact hdid

theorem Sound.not_returned (h : Sound j) {id : JobId} (hin : id ∈ j.failures)
 {snapshot : JobSnapshot} (hs : snapshot ∈ j.registry.claimUnreported.1) : snapshot.id ≠ id := by
 unfold claimUnreported at hs
 split at hs
 · simp at hs
 obtain ⟨record, hmem, rfl⟩ := mem_map.mp hs
 rw [mem_filter, Record.reportable, Bool.and_eq_true, beq_iff_eq] at hmem
 obtain ⟨hmem, hterminal, hclaim⟩ := hmem
 obtain ⟨driver, -, -, ht⟩ := h.records record hmem
 obtain ⟨-, -, htold⟩ := ht hterminal
 rintro rfl
 exact absurd ((htold.failed hin).2.symm.trans hclaim) (by simp)

theorem quiet_of_drained {gate : WorkGate} (h : gate.Sound) (hdrained : Drained gate) :
 gate.Quiet ∧ gate.Refuses := by
 obtain ⟨k, hk⟩ := hdrained
 exact ⟨h.quiet hk, WorkGate.refuses_closing (h.called (ne_nil_of_mem (mem_of_getElem? hk)))⟩

theorem reserve_kind? (j : JobSystem) {kind : String} (hvalid : validKind kind = true)
 (through : Nat) : ∃ ids, (j.step (.reserveOrdinals kind through)).registry.kind? kind = some ids
  ∧ through ≤ ids.last := by
 simp only [JobSystem.step, withRegistry, JobRegistry.reserveOrdinals, hvalid, Bool.not_true,
  Bool.false_eq_true, if_false]
 have hk := kind?_modifyKind j.registry kind (f := fun ids =>
  { ids with floor := max ids.floor through, last := max ids.last through }) (fun _ => rfl) kind
 exact ⟨_, hk.trans (if_pos rfl), le_max_right _ _⟩

/-- **A job's life.** Whatever happens to a session's jobs and in whatever order, a job's
status only moves forward, and what a terminal job says is said once. A step that ends a live
job settles it with an outcome, behind a quiet gate and, with a recorder, behind the facts of
its start and of that outcome; a job one of whose facts was not written ends failed, and its
report is delivered to no one. No more jobs are live than allowed; ids are given out once, and
above those reserved; and behind a resolved close every job is terminal. -/
theorem job_life {registry : Nat} {limits : JobLimits} (hj : Reachable registry limits j) :
 (∀ inputs, ∀ record ∈ j.registry.records,
  ∀ record' ∈ (Run.final JobSystem.step j inputs).registry.records, record'.id = record.id →
   record.status.rank ≤ record'.status.rank
   ∧ (record.terminal = true → record'.status = record.status ∧ record'.detail = record.detail
    ∧ record'.finalOutput = record.finalOutput ∧ record'.finalOmitted = record.finalOmitted
    ∧ record'.finishedAt = record.finishedAt))
 ∧ (∀ i, ∀ record ∈ j.registry.records, record.terminal = false →
  (∃ record' ∈ (j.step i).registry.records, record'.id = record.id ∧ record'.terminal = false)
  ∨ ∃ driver outcome now, j.drivers[record.gate]? = some driver ∧ driver.id = record.id
   ∧ (j.step i).registry = j.registry.settle record.id outcome now
   ∧ driver.gate.Quiet ∧ driver.gate.Refuses
   ∧ (record.id ∉ j.failures → j.registry.recorder = true →
    Journaled j record.id outcome.status.toJobStatus)
   ∧ (record.id ∈ j.failures → outcome.status = .failed))
 ∧ (∀ record ∈ j.registry.records, record.terminal = true →
  ∃ driver, j.drivers[record.gate]? = some driver ∧ driver.id = record.id
   ∧ driver.gate.Quiet ∧ driver.gate.Refuses
   ∧ (record.id ∉ j.failures → j.registry.recorder = true → Journaled j record.id record.status)
   ∧ (record.id ∈ j.failures → record.status = .failed))
 ∧ (∀ id ∈ j.failures, ∀ inputs,
  ∀ snapshot ∈ (Run.final JobSystem.step j inputs).registry.claimUnreported.1, snapshot.id ≠ id)
 ∧ j.registry.active ≤ limits.maxActive
 ∧ (j.drivers.map (·.id)).Nodup
 ∧ (∀ kind through inputs, validKind kind = true →
  ∃ new, (Run.final JobSystem.step (j.step (.reserveOrdinals kind through)) inputs).drivers.map (·.id)
   = j.drivers.map (·.id) ++ new
   ∧ ∀ id ∈ new, id.kind = kind → through < id.ordinal)
 ∧ ∀ k : Nat, j.registry.closes[k]? = some true → ∀ inputs,
  ∀ record ∈ (Run.final JobSystem.step j inputs).registry.records, record.terminal = true := by
 obtain ⟨h, hlimits⟩ := hj.sound
 refine ⟨fun inputs record hmem record' hmem' hid => ?_, fun i record hmem hlive => ?_,
  fun record hmem hterminal => ?_, fun id hin inputs snapshot hs => ?_, ?_, h.distinct,
  fun kind through inputs hvalid => ?_, fun k hk inputs record hmem => ?_⟩
 · have hm := h.moved (h.final inputs).2 hmem hmem' hid
   exact ⟨hm.forward, hm.fixed⟩
 · rcases (h.step i).live record hmem hlive with ⟨record', hmem', hs⟩ | hsettles
   · exact .inl ⟨record', hmem', hs.id, hs.terminal.trans hlive⟩
   · obtain ⟨driver, outcome, now, hd, hdid, hdue, hregistry⟩ := hsettles
     obtain ⟨hquiet, hrefuses⟩ := quiet_of_drained (h.drivers _ driver hd).gate hdue.drained
     exact .inr ⟨driver, outcome, now, hd, hdid, hregistry, hquiet, hrefuses, hdue.journaled,
      fun hin => (hdue.failed hin).1⟩
 · obtain ⟨driver, hd, hdid, ht⟩ := h.records record hmem
   obtain ⟨-, hdrained, htold⟩ := ht hterminal
   obtain ⟨hquiet, hrefuses⟩ := quiet_of_drained (h.drivers _ driver hd).gate hdrained
   exact ⟨driver, hd, hdid, hquiet, hrefuses, htold.journaled, fun hin => (htold.failed hin).1⟩
 · obtain ⟨hs', hlater⟩ := h.final inputs
   exact hs'.not_returned (hlater.failures id hin) hs
 · rw [← hlimits]
   exact h.registry.active
 · have hstep := h.step (.reserveOrdinals kind through)
   obtain ⟨-, hlater⟩ := hstep.sound.final inputs
   obtain ⟨new, hids, hnew⟩ := hlater.ids
   refine ⟨new, hids, fun id hin hkind => ?_⟩
   obtain ⟨ids, hk, hle⟩ := j.reserve_kind? hvalid through
   exact lt_of_le_of_lt hle (hnew id hin ids (hkind ▸ hk))
 · obtain ⟨hs', hlater⟩ := h.final inputs
   have hactive := hs'.registry.resolved k (hlater.resolved k hk)
   rw [JobRegistry.active, countP_eq_zero] at hactive
   simpa using hactive record hmem

theorem reachable_run (registry : Nat) (limits : JobLimits) (inputs : List JobInput) :
 Reachable registry limits (Run.final JobSystem.step (new registry limits) inputs) :=
 .final_free (fun _ _ => trivial) (.init (by rfl)) inputs

def fewJobs : JobLimits where
 maxActive := 4
 maxRetained := 4
 streamBytes := 64
 finalOutputBytes := 64
 maxWait := 1000

/-- Everything a driver asks goes well, and the producer completes. -/
def wellAnswered : DriverAnswer where
 recorded := .ok ()
 cancelled := false
 runtime := true
 panicked := false
 joined := .ok { status := .completed, detail := none, output := some "done" }
 now := 5

def finishedJob : List JobInput :=
 [.attachRecorder, .start { kind := "bash", label := "make", output := .final } (.ok ()) 1]
  ++ List.replicate 7 (.drive 0 wellAnswered)
  ++ [.useGate 0 (.ended 0), .useGate 0 (.released 0), .useGate 0 (.drop 1)]
  ++ List.replicate 7 (.drive 0 wellAnswered)

theorem job_life_finished :
 let j := Run.final JobSystem.step (new 0 fewJobs) finishedJob
 j.registry.records.map (·.status) = [.completed] ∧ (j.registry.records.map (·.id)).Nodup
  ∧ j.registry.active ≤ 4 :=
 ⟨by decide, by decide, (job_life (reachable_run 0 fewJobs finishedJob)).2.2.2.2.1⟩

end Bake.Jobs.JobSystem
