import Bake.Jobs.Records
import Bake.Work.Quiet

/-!
# What holds of a session's jobs

Until a job's driver is done the job's record is there and live, and what the driver has done
so far is told by where it is: which facts are on record, whether a write has failed, whether
the job's gate is drained. Every step of the driver before it settles its job keeps this, and
so does whatever else happens meanwhile.
-/

open List Option

namespace Bake.Jobs.JobSystem

open Bake.Session Bake.Work JobRegistry
open JobRegistry (kind? modifyKind)

variable {j j' : JobSystem} {d : Nat} {driver driver' : Driver} {record : Record}

/-! ## What holds of a registry -/

structure RegistrySound (r : JobRegistry) : Prop where
 ids : (r.records.map (·.id)).Nodup
 own : ∀ record ∈ r.records, record.id.registry = r.registry
 active : r.active ≤ r.limits.maxActive
 kinds : ∀ kind ids, r.kind? kind = some ids → ids.floor ≤ ids.last
 called : r.closes ≠ [] → r.closed = true
 resolved : ∀ k : Nat, r.closes[k]? = some true → r.active = 0

variable {r : JobRegistry} {gate : WorkGate} {id : JobId} {new : List JobSnapshot}
 {f : KindIds → KindIds}

theorem kind?_of_kinds {r' : JobRegistry} (h : r'.kinds = r.kinds) (kind : String) :
 r'.kind? kind = r.kind? kind := by
 rw [kind?, kind?, h]

theorem RegistrySound.kept {r' : JobRegistry} (h : RegistrySound r) (hkept : Kept r r') :
 RegistrySound r' where
 ids := h.ids.sublist hkept.records.ids
 own := fun record' hmem => by
  obtain ⟨record, hrecord, hs⟩ := hkept.records.back record' hmem
  rw [hs.id, hkept.registry]
  exact h.own record hrecord
 active := by
  rw [hkept.limits]
  exact Nat.le_trans hkept.records.active h.active
 kinds := fun kind ids hkind => by
  rw [kind?_of_kinds hkept.kinds] at hkind
  exact h.kinds kind ids hkind
 called := by
  rw [hkept.closes, hkept.closed]
  exact h.called
 resolved := fun k hk => by
  rw [hkept.closes] at hk
  exact Nat.le_zero.mp (Nat.le_trans hkept.records.active (Nat.le_of_eq (h.resolved k hk)))

/-! ## What holds of a driver -/

def Drained (gate : WorkGate) : Prop := ∃ k : Nat, gate.closes[k]? = some true

def Started (j : JobSystem) (id : JobId) : Prop :=
 ∃ start ∈ j.journal, start.id = id ∧ start.status.isTerminal = false

def Journaled (j : JobSystem) (id : JobId) (status : JobStatus) : Prop :=
 ∃ (a b : Nat) (start fin : JobSnapshot), a < b ∧ j.journal[a]? = some start
  ∧ j.journal[b]? = some fin ∧ start.id = id ∧ start.status.isTerminal = false
  ∧ fin.id = id ∧ fin.status = status

def Fine (j : JobSystem) (id : JobId) : Prop :=
 id ∉ j.failures ∧ (j.registry.recorder = true → Started j id)

/-- What a driver has done, from where it is. -/
def PlaceOk (j : JobSystem) (driver : Driver) : Prop :=
 match driver.place with
 | .begin => driver.id ∉ j.failures
 | .recordingStart (.ok snapshot) =>
  driver.id ∉ j.failures ∧ snapshot.id = driver.id ∧ snapshot.status.isTerminal = false
 | .recordingStart (.error _) => False
 | .admitting (.ok _) => Fine j driver.id
 | .admitting (.error _) => driver.id ∈ j.failures
 | .refusing _ | .drainingStart _ _ => driver.id ∈ j.failures
 | .ready | .spawning | .entered _ | .calling _ _ | .producing _ | .produced _ | .returned _
 | .draining _ _ | .unwound => Fine j driver.id
 | .drained _ => Fine j driver.id ∧ Drained driver.gate
 | .recordingEnd outcome (some snapshot) =>
  Fine j driver.id ∧ Drained driver.gate ∧ snapshot.id = driver.id
   ∧ snapshot.status = outcome.status.toJobStatus
 | .recordingEnd _ none => False
 | .settling outcome =>
  driver.id ∉ j.failures ∧ Drained driver.gate
   ∧ (j.registry.recorder = true → Journaled j driver.id outcome.status.toJobStatus)
 | .failing _ => driver.id ∈ j.failures ∧ Drained driver.gate
 | .failed _ =>
  driver.id ∈ j.failures ∧ Drained driver.gate
   ∧ ∀ record ∈ j.registry.records, record.id = driver.id → record.claim = .claimed
 | .done => True

/-- What holds of a driver: until it is done its job's record is there and live. -/
structure DriverOk (j : JobSystem) (d : Nat) (driver : Driver) : Prop where
 gate : driver.gate.Sound
 own : driver.id.registry = j.registry.registry
 issued : ∃ ids, j.registry.kind? driver.id.kind = some ids ∧ driver.id.ordinal ≤ ids.last
 place : PlaceOk j driver
 live : driver.place ≠ .done → ∃ record ∈ j.registry.records, record.id = driver.id
  ∧ record.gate = d ∧ record.terminal = false

structure Told (j : JobSystem) (record : Record) : Prop where
 journaled : record.id ∉ j.failures → j.registry.recorder = true →
  Journaled j record.id record.status
 failed : record.id ∈ j.failures → record.status = .failed ∧ record.claim = .claimed

/-- What holds of a record: it has a driver, and once it is terminal that is done. -/
def RecordOk (j : JobSystem) (record : Record) : Prop :=
 ∃ driver, j.drivers[record.gate]? = some driver ∧ driver.id = record.id
  ∧ (record.terminal = true → driver.place = .done ∧ Drained driver.gate ∧ Told j record)

/-- What holds of a session's jobs throughout. -/
structure Sound (j : JobSystem) : Prop where
 registry : RegistrySound j.registry
 drivers : ∀ (d : Nat) driver, j.drivers[d]? = some driver → DriverOk j d driver
 records : ∀ record ∈ j.registry.records, RecordOk j record
 distinct : (j.drivers.map (·.id)).Nodup
 failed : ∀ id ∈ j.failures, id ∈ j.drivers.map (·.id)

theorem Sound.driver_inj (h : Sound j) {d e : Nat} {driver driverE : Driver}
 (hd : j.drivers[d]? = some driver) (he : j.drivers[e]? = some driverE)
 (hid : driver.id = driverE.id) : d = e := by
 have hget : ∀ {i : Nat} {x : Driver}, j.drivers[i]? = some x →
  (j.drivers.map (·.id))[i]? = some x.id := fun hi => by
  rw [getElem?_map, hi, map_some]
 have hlt := (List.getElem_of_getElem? (hget hd)).1
 exact (getElem?_inj hlt h.distinct).mp ((hget hd).trans (hid ▸ (hget he).symm))

/-! ## Later on -/

theorem drained_later {gate' : WorkGate} (h : Drained gate) (hlater : gate.Later gate') :
 Drained gate' := h.imp fun k hk => hlater.resolved k hk

theorem Started.later (h : Started j id) (hjournal : j'.journal = j.journal ++ new) :
 Started j' id := by
 obtain ⟨start, hmem, hid⟩ := h
 exact ⟨start, by rw [hjournal]; exact mem_append_left _ hmem, hid⟩

theorem Journaled.later {status : JobStatus} (h : Journaled j id status)
 (hjournal : j'.journal = j.journal ++ new) : Journaled j' id status := by
 obtain ⟨a, b, start, fin, hab, ha, hb, hrest⟩ := h
 have hget : ∀ {i : Nat} {x : JobSnapshot}, j.journal[i]? = some x → j'.journal[i]? = some x := by
  intro i x hi
  rw [hjournal, getElem?_append_left (List.getElem_of_getElem? hi).1]
  exact hi
 exact ⟨a, b, start, fin, hab, hget ha, hget hb, hrest⟩

theorem PlaceOk.later (h : PlaceOk j driver) (hjournal : j'.journal = j.journal ++ new)
 (hfailures : driver.id ∈ j'.failures ↔ driver.id ∈ j.failures)
 (hrecorder : j'.registry.recorder = j.registry.recorder)
 (hrecords : ∀ record' ∈ j'.registry.records, record'.id = driver.id →
  ∃ record ∈ j.registry.records, Moved record record') (hgate : driver.gate.Later gate) :
 PlaceOk j' { driver with gate } := by
 have hfine : Fine j driver.id → Fine j' driver.id := by
  rintro ⟨hnot, hstarted⟩
  refine ⟨fun hmem => hnot (hfailures.mp hmem), fun hr => (hstarted ?_).later hjournal⟩
  rwa [hrecorder] at hr
 have hnotIn : driver.id ∉ j.failures → driver.id ∉ j'.failures :=
  fun hnot hmem => hnot (hfailures.mp hmem)
 unfold PlaceOk at h ⊢
 split at h
 next hplace =>
  simp only [hplace]
  exact hnotIn h
 next hplace =>
  simp only [hplace]
  exact ⟨hnotIn h.1, h.2⟩
 · exact h.elim
 next hplace =>
  simp only [hplace]
  exact hfine h
 next hplace =>
  simp only [hplace]
  exact hfailures.mpr h
 next hplace =>
  simp only [hplace]
  exact hfailures.mpr h
 next hplace =>
  simp only [hplace]
  exact hfailures.mpr h
 iterate 9
  next hplace =>
   simp only [hplace]
   exact hfine h
 next hplace =>
  simp only [hplace]
  exact ⟨hfine h.1, drained_later h.2 hgate⟩
 next hplace =>
  simp only [hplace]
  exact ⟨hfine h.1, drained_later h.2.1 hgate, h.2.2⟩
 · exact h.elim
 next hplace =>
  simp only [hplace]
  exact ⟨hnotIn h.1, drained_later h.2.1 hgate, fun hr => (h.2.2 (hrecorder ▸ hr)).later hjournal⟩
 next hplace =>
  simp only [hplace]
  exact ⟨hfailures.mpr h.1, drained_later h.2 hgate⟩
 next hplace =>
  simp only [hplace]
  refine ⟨hfailures.mpr h.1, drained_later h.2.1 hgate, fun record' hmem hid => ?_⟩
  obtain ⟨record, hrecord, hmoved⟩ := hrecords record' hmem hid
  exact hmoved.claimed (h.2.2 record hrecord (hmoved.id.symm.trans hid))
 next hplace =>
  simp only [hplace]

/-! ## Steps that settle no job -/

/-- What every step does to the jobs that are there: their drivers stay, their records move
forward, and the ids of new ones are behind all that were given out. -/
structure Later (j j' : JobSystem) : Prop where
 records : ∀ record' ∈ j'.registry.records,
  (∃ record ∈ j.registry.records, Moved record record') ∨ record'.id ∉ j.drivers.map (·.id)
 ids : ∃ new, j'.drivers.map (·.id) = j.drivers.map (·.id) ++ new ∧
  ∀ id ∈ new, ∀ ids, j.registry.kind? id.kind = some ids → ids.last < id.ordinal
 kinds : ∀ kind ids, j.registry.kind? kind = some ids →
  ∃ ids', j'.registry.kind? kind = some ids' ∧ ids.last ≤ ids'.last
 failures : ∀ id ∈ j.failures, id ∈ j'.failures
 resolved : ∀ k : Nat, j.registry.closes[k]? = some true → j'.registry.closes[k]? = some true
 limits : j'.registry.limits = j.registry.limits

theorem Later.refl (j : JobSystem) : Later j j where
 records := fun record h => .inl ⟨record, h, .refl record⟩
 ids := ⟨[], (append_nil _).symm, fun _ h => absurd h (by simp)⟩
 kinds := fun _ ids h => ⟨ids, h, Nat.le_refl _⟩
 failures := fun _ h => h
 resolved := fun _ h => h
 limits := rfl

theorem Later.trans {a b c : JobSystem} (h : Later a b) (h' : Later b c) : Later a c where
 records := fun record'' hmem => by
  obtain ⟨new, hids, -⟩ := h.ids
  rcases h'.records record'' hmem with ⟨record', hmem', hm'⟩ | hnot
  · rcases h.records record' hmem' with ⟨record, hrecord, hm⟩ | hnot
    · exact .inl ⟨record, hrecord, hm.trans hm'⟩
    · exact .inr (by rw [hm'.id]; exact hnot)
  · refine .inr fun hin => hnot ?_
    rw [hids]
    exact mem_append_left _ hin
 ids := by
  obtain ⟨new, hids, hnew⟩ := h.ids
  obtain ⟨new', hids', hnew'⟩ := h'.ids
  refine ⟨new ++ new', by rw [hids', hids, append_assoc], fun id hmem ids hkind => ?_⟩
  rcases mem_append.mp hmem with hin | hin
  · exact hnew id hin ids hkind
  · obtain ⟨ids', hkind', hle⟩ := h.kinds id.kind ids hkind
    exact Nat.lt_of_le_of_lt hle (hnew' id hin ids' hkind')
 kinds := fun kind ids hkind => by
  obtain ⟨ids', hkind', hle⟩ := h.kinds kind ids hkind
  obtain ⟨ids'', hkind'', hle'⟩ := h'.kinds kind ids' hkind'
  exact ⟨ids'', hkind'', Nat.le_trans hle hle'⟩
 failures := fun id hmem => h'.failures id (h.failures id hmem)
 resolved := fun k hk => h'.resolved k (h.resolved k hk)
 limits := h'.limits.trans h.limits

/-- A driver after a step that does not settle its job. -/
structure Driven (driver driver' : Driver) : Prop where
 id : driver'.id = driver.id
 gate : driver'.gate.Sound
 later : driver.gate.Later driver'.gate
 done : driver'.place = .done ↔ driver.place = .done

/-- A step that adds no job and settles none. -/
structure Next (j j' : JobSystem) : Prop where
 registry : RegistrySound j'.registry
 records : RecordsKept j.registry.records j'.registry.records
 number : j'.registry.registry = j.registry.registry
 limits : j'.registry.limits = j.registry.limits
 recorder : j'.registry.recorder = j.registry.recorder
 kinds : ∀ kind ids, j.registry.kind? kind = some ids →
  ∃ ids', j'.registry.kind? kind = some ids' ∧ ids.last ≤ ids'.last
 resolved : ∀ k : Nat, j.registry.closes[k]? = some true → j'.registry.closes[k]? = some true
 length : j'.drivers.length = j.drivers.length
 drivers : ∀ (d : Nat) driver, j.drivers[d]? = some driver →
  ∃ driver', j'.drivers[d]? = some driver' ∧ Driven driver driver' ∧ PlaceOk j' driver'
 journal : ∃ new, j'.journal = j.journal ++ new
 failures : ∀ id ∈ j.failures, id ∈ j'.failures
 failed : ∀ id ∈ j'.failures, id ∈ j.failures ∨
  ∃ (d : Nat) (driver : Driver), j.drivers[d]? = some driver ∧ driver.id = id ∧ driver.place ≠ .done

theorem Next.ids (h : Next j j') : j'.drivers.map (·.id) = j.drivers.map (·.id) := by
 refine ext_getElem? fun d => ?_
 rw [getElem?_map, getElem?_map]
 cases hd : j.drivers[d]? with
 | some driver =>
  obtain ⟨driver', hd', hdriven, -⟩ := h.drivers d driver hd
  rw [hd', map_some, map_some, hdriven.id]
 | none =>
  rw [List.getElem?_eq_none_iff] at hd
  rw [List.getElem?_eq_none_iff.mpr (by rw [h.length]; exact hd)]

theorem Next.later (h : Next j j') : Later j j' where
 records := fun record' hmem => by
  obtain ⟨record, hrecord, hs⟩ := h.records.back record' hmem
  exact .inl ⟨record, hrecord, hs.toMoved⟩
 ids := ⟨[], by rw [h.ids, append_nil], fun _ hmem => absurd hmem (by simp)⟩
 kinds := h.kinds
 failures := h.failures
 resolved := h.resolved
 limits := h.limits

theorem Next.told (h : Next j j') (hsound : Sound j) {record' : Record} (hdriver :
 j.drivers[d]? = some driver) (hdone : driver.place = .done) (hid : driver.id = record.id)
 (hs : Stayed record record') (ht : record.terminal = true) (htold : Told j record) :
 Told j' record' := by
 have hfixed := hs.fixed ht
 have hback : record.id ∈ j'.failures → record.id ∈ j.failures := fun hmem => by
  rcases h.failed record.id hmem with hin | ⟨e, other, he, heid, hlive⟩
  · exact hin
  · obtain rfl := hsound.driver_inj he hdriver (heid.trans hid.symm)
    rw [hdriver] at he
    injection he with he
    exact absurd (he ▸ hdone) hlive
 obtain ⟨new, hjournal⟩ := h.journal
 refine ⟨fun hnot hr => ?_, fun hmem => ?_⟩
 · rw [hs.id] at hnot ⊢
   rw [hfixed.1]
   refine (htold.journaled (fun hin => hnot (h.failures _ hin)) ?_).later hjournal
   rw [← h.recorder]
   exact hr
 · rw [hs.id] at hmem
   obtain ⟨hstatus, hclaim⟩ := htold.failed (hback hmem)
   exact ⟨hfixed.1.trans hstatus, hs.claimed hclaim⟩

/-- **A step that adds no job and settles none** keeps what holds. -/
theorem Sound.next (h : Sound j) (hn : Next j j') : Sound j' where
 registry := hn.registry
 drivers := fun d driver' hd' => by
  have hlt : d < j.drivers.length := by
   rw [← hn.length]
   exact (List.getElem_of_getElem? hd').1
  have hd := getElem?_eq_getElem hlt
  generalize j.drivers[d] = driver at hd
  obtain ⟨other, hother, hdriven, hplace⟩ := hn.drivers d driver hd
  rw [hd'] at hother
  cases hother
  have hold := h.drivers d driver hd
  refine ⟨hdriven.gate, by rw [hdriven.id, hn.number]; exact hold.own, ?_, hplace, fun hlive => ?_⟩
  · obtain ⟨ids, hkind, hle⟩ := hold.issued
    obtain ⟨ids', hkind', hle'⟩ := hn.kinds _ _ hkind
    exact ⟨ids', by rw [hdriven.id]; exact hkind', by rw [hdriven.id]; omega⟩
  · obtain ⟨record, hmem, hid, hgate, hl⟩ := hold.live (fun hdone => hlive (hdriven.done.mpr hdone))
    obtain ⟨record', hmem', hs⟩ := hn.records.live record hmem hl
    exact ⟨record', hmem', by rw [hs.id, hid, hdriven.id], hs.gate.trans hgate,
     hs.terminal.trans hl⟩
 records := fun record' hmem' => by
  obtain ⟨record, hmem, hs⟩ := hn.records.back record' hmem'
  obtain ⟨driver, hd, hid, ht⟩ := h.records record hmem
  obtain ⟨driver', hd', hdriven, -⟩ := hn.drivers _ driver hd
  refine ⟨driver', by rw [hs.gate]; exact hd', by rw [hdriven.id, hid, hs.id], fun hterminal => ?_⟩
  rw [hs.terminal] at hterminal
  obtain ⟨hdone, hdrained, htold⟩ := ht hterminal
  exact ⟨hdriven.done.mpr hdone, drained_later hdrained hdriven.later,
   hn.told h hd hdone hid hs hterminal htold⟩
 distinct := by
  rw [hn.ids]
  exact h.distinct
 failed := fun id hmem => by
  rw [hn.ids]
  rcases hn.failed id hmem with hin | ⟨d, driver, hd, hid, -⟩
  · exact h.failed id hin
  · exact mem_map.mpr ⟨driver, mem_of_getElem? hd, hid⟩

theorem Sound.next_registry (h : Sound j) (hsound : RegistrySound r)
 (hrecords : RecordsKept j.registry.records r.records) (hnumber : r.registry = j.registry.registry)
 (hlimits : r.limits = j.registry.limits) (hrecorder : r.recorder = j.registry.recorder)
 (hkinds : ∀ kind ids, j.registry.kind? kind = some ids →
  ∃ ids', r.kind? kind = some ids' ∧ ids.last ≤ ids'.last)
 (hresolved : ∀ k : Nat, j.registry.closes[k]? = some true → r.closes[k]? = some true) :
 Next j (j.withRegistry r) where
 registry := hsound
 records := hrecords
 number := hnumber
 limits := hlimits
 recorder := hrecorder
 kinds := hkinds
 resolved := hresolved
 length := rfl
 drivers := fun d driver hd => by
  have hold := h.drivers d driver hd
  have hjournal : (j.withRegistry r).journal = j.journal ++ [] := (append_nil _).symm
  have hplace : PlaceOk (j.withRegistry r) { driver with gate := driver.gate } := by
   refine hold.place.later hjournal Iff.rfl hrecorder (fun record' hmem _ => ?_) (.refl driver.gate)
   obtain ⟨record, hrecord, hs⟩ := hrecords.back record' hmem
   exact ⟨record, hrecord, hs.toMoved⟩
  exact ⟨driver, hd, ⟨rfl, hold.gate, .refl _, Iff.rfl⟩, hplace⟩
 journal := ⟨[], (append_nil _).symm⟩
 failures := fun _ hmem => hmem
 failed := fun _ hmem => .inl hmem

theorem Sound.next_kept (h : Sound j) (hkept : Kept j.registry r) : Next j (j.withRegistry r) := by
 refine h.next_registry (h.registry.kept hkept) hkept.records hkept.registry hkept.limits
  hkept.recorder (fun kind ids hkind => ⟨ids, ?_, Nat.le_refl _⟩) fun k hk => ?_
 · rw [kind?_of_kinds hkept.kinds]
   exact hkind
 · rw [hkept.closes]
   exact hk

/-! ## The kinds of ids -/

theorem kind?_modifyKind (r : JobRegistry) (kind : String) (hf : ∀ ids, (f ids).kind = ids.kind)
 (k : String) :
 (r.modifyKind kind f).kind? k
  = if k = kind then some (f ((r.kind? kind).getD { kind, floor := 0, last := 0 }))
   else r.kind? k := by
 unfold modifyKind
 split
 next found hfound =>
  rw [hfound, getD_some, kind?]
  rw [kind?] at hfound ⊢
  dsimp only
  rw [find?_map]
  have hp : ((fun ids : KindIds => decide (ids.kind = k)) ∘
   fun ids => if ids.kind = kind then f ids else ids) = fun ids => decide (ids.kind = k) := by
   funext ids
   simp only [Function.comp_apply]
   split
   · rw [hf]
   · rfl
  rw [hp]
  split
  next hk =>
   subst hk
   have hkind : found.kind = k := by simpa using find?_some hfound
   rw [hfound, map_some, if_pos hkind]
  next hk =>
   cases hother : r.kinds.find? fun ids => decide (ids.kind = k) with
   | none => rfl
   | some other =>
    have hkind : other.kind = k := by simpa using find?_some hother
    rw [map_some, if_neg (by rw [hkind]; exact hk)]
 next hnone =>
  rw [hnone, getD_none]
  rw [kind?] at hnone ⊢
  dsimp only
  rw [find?_append]
  split
  next hk =>
   subst hk
   rw [hnone, none_or, find?_cons, hf]
   simp
  next hk =>
   rw [find?_cons_of_neg (by rw [hf]; simpa using fun h => hk h.symm), find?_nil,
    or_none]
   rfl

theorem kinds_modifyKind {kind : String} (hf : ∀ ids, (f ids).kind = ids.kind)
 (hlast : ∀ ids, r.kind? kind = some ids → ids.last ≤ (f ids).last) (k : String) (ids : KindIds)
 (hkind : r.kind? k = some ids) :
 ∃ ids', (r.modifyKind kind f).kind? k = some ids' ∧ ids.last ≤ ids'.last := by
 rw [kind?_modifyKind r kind hf]
 split
 next hk =>
  subst hk
  exact ⟨f ids, by rw [hkind, getD_some], hlast ids hkind⟩
 · exact ⟨ids, hkind, Nat.le_refl _⟩

theorem RegistrySound.floor_le (h : RegistrySound r) (kind : String) :
 ((r.kind? kind).getD { kind, floor := 0, last := 0 }).floor
  ≤ ((r.kind? kind).getD { kind, floor := 0, last := 0 }).last := by
 cases hk : r.kind? kind with
 | none => exact Nat.le_refl _
 | some ids => exact h.kinds kind ids hk

theorem modifyKind_same (r : JobRegistry) (kind : String) (f : KindIds → KindIds) :
 (r.modifyKind kind f).records = r.records ∧ (r.modifyKind kind f).registry = r.registry
  ∧ (r.modifyKind kind f).limits = r.limits ∧ (r.modifyKind kind f).recorder = r.recorder
  ∧ (r.modifyKind kind f).closed = r.closed ∧ (r.modifyKind kind f).closes = r.closes := by
 unfold modifyKind
 split <;> exact ⟨rfl, rfl, rfl, rfl, rfl, rfl⟩

theorem RegistrySound.modifyKind (h : RegistrySound r) {kind : String}
 (hf : ∀ ids, (f ids).kind = ids.kind)
 (hle : (f ((r.kind? kind).getD { kind, floor := 0, last := 0 })).floor
  ≤ (f ((r.kind? kind).getD { kind, floor := 0, last := 0 })).last) :
 RegistrySound (r.modifyKind kind f) := by
 obtain ⟨hrecords, hnumber, hlimits, -, hclosed, hcloses⟩ := modifyKind_same r kind f
 have hactive : (r.modifyKind kind f).active = r.active := by
  rw [JobRegistry.active, hrecords]
  rfl
 refine ⟨by rw [hrecords]; exact h.ids, by rw [hrecords, hnumber]; exact h.own,
  by rw [hactive, hlimits]; exact h.active, fun k ids hkind => ?_,
  by rw [hcloses, hclosed]; exact h.called, by rw [hcloses, hactive]; exact h.resolved⟩
 rw [kind?_modifyKind r kind hf] at hkind
 split at hkind
 · cases hkind
   exact hle
 · exact h.kinds k ids hkind

/-! ## A driver's step -/

theorem Fine.later (h : Fine j id) (hjournal : j'.journal = j.journal ++ new)
 (hfailures : j'.failures = j.failures) (hrecorder : j'.registry.recorder = j.registry.recorder) :
 Fine j' id :=
 ⟨by rw [hfailures]; exact h.1, fun hr => (h.2 (hrecorder ▸ hr)).later hjournal⟩

theorem Sound.found (h : Sound j) (hd : j.drivers[d]? = some driver) (hlive : driver.place ≠ .done) :
 ∃ record, j.registry.find driver.id = .ok record ∧ record.id = driver.id ∧ record.gate = d
  ∧ record.terminal = false := by
 have hold := h.drivers d driver hd
 obtain ⟨record, hmem, hid, hgate, hl⟩ := hold.live hlive
 have hfind := find_of_mem h.registry.ids hmem (h.registry.own record hmem)
 exact ⟨record, by rw [← hid]; exact hfind, hid, hgate, hl⟩

/-- A driver's step: its own place and gate, the registry, and what is written for its job. -/
theorem Sound.next_driver (h : Sound j) (hd : j.drivers[d]? = some driver)
 (hkept : Kept j.registry j'.registry) (hdrivers : j'.drivers = j.drivers.set d driver')
 (hdriven : Driven driver driver') (hplace : PlaceOk j' driver')
 (hjournal : j'.journal = j.journal ++ new) (hfailures : j'.failures = j.failures
  ∨ j'.failures = j.failures ++ [driver.id] ∧ driver.place ≠ .done) : Next j j' where
 registry := h.registry.kept hkept
 records := hkept.records
 number := hkept.registry
 limits := hkept.limits
 recorder := hkept.recorder
 kinds := fun kind ids hkind => ⟨ids, by rw [kind?_of_kinds hkept.kinds]; exact hkind, Nat.le_refl _⟩
 resolved := fun k hk => by rw [hkept.closes]; exact hk
 length := by rw [hdrivers, length_set]
 drivers := fun e other he => by
  by_cases hed : d = e
  · subst hed
    rw [hd] at he
    cases he
    exact ⟨driver', by rw [hdrivers]; exact getElem?_set_self (List.getElem_of_getElem? hd).1,
     hdriven, hplace⟩
  have hold := h.drivers e other he
  have hids : other.id ∈ j'.failures ↔ other.id ∈ j.failures := by
   rcases hfailures with hsame | ⟨hmore, -⟩
   · rw [hsame]
   · rw [hmore, mem_append, mem_singleton]
     exact ⟨fun hin => hin.resolve_right fun hid => hed (h.driver_inj hd he hid.symm), .inl⟩
  have hplaceE : PlaceOk j' { other with gate := other.gate } := by
   refine hold.place.later hjournal hids hkept.recorder (fun record' hmem _ => ?_) (.refl other.gate)
   obtain ⟨record, hrecord, hs⟩ := hkept.records.back record' hmem
   exact ⟨record, hrecord, hs.toMoved⟩
  exact ⟨other, by rw [hdrivers, getElem?_set_ne hed]; exact he,
   ⟨rfl, hold.gate, .refl _, Iff.rfl⟩, hplaceE⟩
 journal := ⟨new, hjournal⟩
 failures := fun id hmem => by
  rcases hfailures with hsame | ⟨hmore, -⟩
  · rw [hsame]
    exact hmem
  · rw [hmore]
    exact mem_append_left _ hmem
 failed := fun id hmem => by
  rcases hfailures with hsame | ⟨hmore, hlive⟩
  · exact .inl (hsame ▸ hmem)
  · rw [hmore, mem_append, mem_singleton] at hmem
    rcases hmem with hin | rfl
    · exact .inl hin
    · exact .inr ⟨d, driver, hd, rfl, hlive⟩

theorem Sound.next_set (h : Sound j) (hd : j.drivers[d]? = some driver) (hkept : Kept j.registry r)
 (hdriven : Driven driver driver')
 (hplace : PlaceOk ((j.withRegistry r).setDriver d driver') driver') :
 Next j ((j.withRegistry r).setDriver d driver') := by
 have hjournal : ((j.withRegistry r).setDriver d driver').journal = j.journal ++ [] :=
  (append_nil _).symm
 exact h.next_driver hd hkept rfl hdriven hplace hjournal (.inl rfl)

theorem Driven.move {place : DriverPlace} (hs : gate.Sound) (hlater : driver.gate.Later gate)
 (hlive : driver.place ≠ .done) (hlive' : place ≠ .done) :
 Driven driver { driver with gate, place } :=
 ⟨rfl, hs, hlater, by simp [hlive, hlive']⟩

theorem later_enter {gate' : WorkGate} (h : gate.enter = some gate') : gate.Later gate' := by
 have hstep := gate.later_step .enter
 rw [WorkGate.step, h] at hstep
 exact hstep

theorem Sound.next_same (h : Sound j) : Next j j := h.next_kept (.refl j.registry)

theorem record_cases (j : JobSystem) (snapshot : JobSnapshot) (answer : Except String Unit) :
 (j.registry.recorder = true
  ∧ j.record snapshot answer = (.ok (), { j with journal := j.journal ++ [snapshot] }))
 ∨ (∃ error, j.record snapshot answer
  = (.error error, { j with failures := j.failures ++ [snapshot.id] }))
 ∨ j.registry.recorder = false ∧ j.record snapshot answer = (.ok (), j) := by
 unfold record
 cases j.registry.recorder with
 | false => exact .inr (.inr ⟨rfl, rfl⟩)
 | true =>
  cases answer with
  | ok _ => exact .inl ⟨rfl, rfl⟩
  | error error => exact .inr (.inl ⟨error, rfl⟩)

theorem claim_claimFailed (h : RegistrySound r) (hmem : record ∈ (r.claimFailed id).records)
 (hid : record.id = id) : record.claim = .claimed := by
 unfold claimFailed at hmem
 split at hmem
 next found hfind =>
  obtain ⟨-, hfid, -⟩ := find_ok hfind
  rw [records_put] at hmem
  obtain ⟨old, -, rfl⟩ := mem_map.mp hmem
  split at hid
  next heq =>
   rw [if_pos heq]
  next hne =>
   exact absurd (hid.trans hfid.symm) hne
 next hfind =>
  have hfound := find_of_mem h.ids hmem (h.own record hmem)
  rw [hid, hfind] at hfound
  simp at hfound

/-- **A driver's step before it settles its job** is one that adds none and settles none. -/
theorem Sound.next_driveFrom (h : Sound j) (hd : j.drivers[d]? = some driver)
 (hsettling : ∀ outcome, driver.place ≠ .settling outcome)
 (hfailed : ∀ error, driver.place ≠ .failed error) (answer : DriverAnswer) :
 Next j (j.driveFrom d driver answer) := by
 have hold := h.drivers d driver hd
 have hplace := hold.place
 have hstill : ∀ {place : DriverPlace}, driver.place ≠ .done → place ≠ .done →
  Driven driver { driver with place } := .move hold.gate (.refl _)
 unfold driveFrom
 unfold PlaceOk at hplace
 cases hp : driver.place with
 | begin =>
  simp only [hp] at hplace ⊢
  obtain ⟨record, hfind, hid, -, hlive⟩ := h.found hd (by simp [hp])
  refine h.next_set hd (.refl _) (hstill (by simp [hp]) (by simp)) ?_
  simp only [hfind, PlaceOk]
  exact ⟨hplace, hid, hlive⟩
 | recordingStart started =>
  cases started with
  | error error =>
   simp only [hp] at hplace
  | ok snapshot =>
   simp only [hp] at hplace ⊢
   obtain ⟨hnot, hid, hlive⟩ := hplace
   rcases j.record_cases snapshot answer.recorded with
    ⟨hrecorder, heq⟩ | ⟨error, heq⟩ | ⟨hrecorder, heq⟩
   · rw [heq]
     refine h.next_driver hd (.refl _) rfl (hstill (by simp [hp]) (by simp)) ?_ rfl (.inl rfl)
     simp only [PlaceOk]
     exact ⟨hnot, fun _ => ⟨snapshot, mem_append_right _ (mem_singleton_self _), hid, hlive⟩⟩
   · rw [heq, hid]
     refine h.next_driver hd (.refl _) rfl (hstill (by simp [hp]) (by simp)) ?_
      (append_nil _).symm (.inr ⟨rfl, by simp [hp]⟩)
     simp only [PlaceOk]
     exact mem_append_right _ (mem_singleton_self _)
   · rw [heq]
     refine h.next_set hd (.refl _) (hstill (by simp [hp]) (by simp)) ?_
     simp only [PlaceOk]
     exact ⟨hnot, fun hr => absurd (hrecorder.symm.trans hr) (by simp)⟩
 | admitting admission =>
  simp only [hp] at hplace ⊢
  have hkept := kept_admitted h.registry.ids driver.id admission
  cases admission with
  | ok _ =>
   refine h.next_set hd hkept (hstill (by simp [hp]) (by simp)) ?_
   simp only [PlaceOk]
   exact hplace.later (append_nil _).symm rfl hkept.recorder
  | error error =>
   refine h.next_set hd hkept (hstill (by simp [hp]) (by simp)) ?_
   simp only [PlaceOk]
   exact hplace
 | refusing error | returned outcome =>
  simp only [hp] at hplace ⊢
  refine h.next_set hd (.refl _)
   (.move hold.gate.close (driver.gate.later_step .close) (by simp [hp]) (by simp)) ?_
  simp only [PlaceOk]
  exact hplace
 | drainingStart error k | draining outcome k =>
  simp only [hp] at hplace ⊢
  split
  next hpolled =>
   refine h.next_set hd (.refl _) (.move (hold.gate.step _) (driver.gate.later_step _)
    (by simp [hp]) (by simp)) ?_
   simp only [PlaceOk]
   exact ⟨hplace, k, hpolled⟩
  · exact h.next_same
 | ready =>
  simp only [hp] at hplace ⊢
  split
  · have hkept := kept_requestStop h.registry.ids driver.id .shutdown
    refine h.next_set hd hkept (hstill (by simp [hp]) (by simp)) ?_
    simp only [PlaceOk]
    exact hplace.later (append_nil _).symm rfl hkept.recorder
  · refine h.next_set hd (.refl _) (hstill (by simp [hp]) (by simp)) ?_
    simp only [PlaceOk]
    exact hplace
 | spawning =>
  simp only [hp] at hplace ⊢
  split
  · refine h.next_set hd (.refl _) (hstill (by simp [hp]) (by simp)) ?_
    simp only [PlaceOk]
    exact hplace
  next gate henter =>
   refine h.next_set hd (.refl _) (.move (hold.gate.enter henter) (later_enter henter)
    (by simp [hp]) (by simp)) ?_
   simp only [PlaceOk]
   exact hplace
 | entered permit =>
  simp only [hp] at hplace ⊢
  split
  · refine h.next_set hd (.refl _) (.move (hold.gate.step _) (driver.gate.later_step _)
     (by simp [hp]) (by simp)) ?_
    simp only [PlaceOk]
    exact hplace
  next gate hspawn =>
   refine h.next_set hd (.refl _) (.move (hold.gate.spawn_root hspawn) (WorkGate.later_spawn hspawn)
    (by simp [hp]) (by simp)) ?_
   simp only [PlaceOk]
   exact hplace
 | calling task permit =>
  simp only [hp] at hplace ⊢
  split
  all_goals
   refine h.next_set hd (.refl _) (.move ((hold.gate.step _).step _)
    ((driver.gate.later_step _).trans (WorkGate.later_step _ _)) (by simp [hp]) (by simp)) ?_
   simp only [PlaceOk]
   exact hplace
 | producing task =>
  simp only [hp] at hplace ⊢
  split
  · exact h.next_kept (kept_requestStop h.registry.ids driver.id .shutdown)
  · refine h.next_set hd (.refl _) (.move (hold.gate.step _) (driver.gate.later_step _)
     (by simp [hp]) (by simp)) ?_
    simp only [PlaceOk]
    exact hplace
 | produced outcome =>
  simp only [hp] at hplace ⊢
  have hkept := kept_producerReturned h.registry.ids driver.id
  refine h.next_set hd hkept (hstill (by simp [hp]) (by simp)) ?_
  simp only [PlaceOk]
  exact hplace.later (append_nil _).symm rfl hkept.recorder
 | drained outcome =>
  simp only [hp] at hplace ⊢
  obtain ⟨record, hfind, hid, -, -⟩ := h.found hd (by simp [hp])
  refine h.next_set hd (.refl _) (hstill (by simp [hp]) (by simp)) ?_
  simp only [hfind, PlaceOk]
  exact ⟨hplace.1, hplace.2, hid, trivial⟩
 | recordingEnd outcome terminal =>
  cases terminal with
  | none => simp only [hp] at hplace
  | some snapshot =>
   simp only [hp] at hplace ⊢
   obtain ⟨hfine, hdrained, hid, hstatus⟩ := hplace
   rcases j.record_cases snapshot answer.recorded with
    ⟨hrecorder, heq⟩ | ⟨error, heq⟩ | ⟨hrecorder, heq⟩
   · rw [heq]
     refine h.next_driver hd (.refl _) rfl (hstill (by simp [hp]) (by simp)) ?_ rfl (.inl rfl)
     simp only [PlaceOk]
     obtain ⟨start, hmem, hsid, hslive⟩ := hfine.2 hrecorder
     obtain ⟨a, ha⟩ := getElem?_of_mem hmem
     have hlt := (List.getElem_of_getElem? ha).1
     refine ⟨hfine.1, hdrained, fun _ => ⟨a, j.journal.length, start, snapshot, hlt, ?_, ?_,
      hsid, hslive, hid, hstatus⟩⟩
     · exact (getElem?_append_left hlt).trans ha
     · exact getElem?_concat_length
   · rw [heq, hid]
     refine h.next_driver hd (.refl _) rfl (hstill (by simp [hp]) (by simp)) ?_
      (append_nil _).symm (.inr ⟨rfl, by simp [hp]⟩)
     simp only [PlaceOk]
     exact ⟨mem_append_right _ (mem_singleton_self _), hdrained⟩
   · rw [heq]
     refine h.next_set hd (.refl _) (hstill (by simp [hp]) (by simp)) ?_
     simp only [PlaceOk]
     exact ⟨hfine.1, hdrained, fun hr => absurd (hrecorder.symm.trans hr) (by simp)⟩
 | settling outcome => exact absurd hp (hsettling outcome)
 | failing error =>
  simp only [hp] at hplace ⊢
  have hkept := kept_claimFailed h.registry.ids driver.id
  refine h.next_set hd hkept (hstill (by simp [hp]) (by simp)) ?_
  simp only [PlaceOk]
  refine ⟨hplace.1, hplace.2, fun record hmem hid => ?_⟩
  exact claim_claimFailed h.registry hmem hid
 | failed error => exact absurd hp (hfailed error)
 | done | unwound => exact h.next_same

end Bake.Jobs.JobSystem
