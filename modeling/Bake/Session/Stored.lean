import Bake.Session.Opens
import Bake.Session.Rechain

/-!
# The file a manager writes to is its session's

A persisted manager that has flushed appends to its session file. The file should
open with the manager's own header. A call that fails can leave a manager that still
counts as flushed at a path whose file is not its session's; which calls those are is
what `HeaderKept` leaves out.
-/

open List

namespace Bake.Session

open Bake.Json SessionManager
open SessionHeader (new)
open FileEntry (fromLine toLine)
open World (mk step takeOver withManager)

/-- The file opens with the header of session `id`: its first parsed line is one, or it
begins with the line written for one. -/
def OpensWith (file : Bytes) (id : String) : Prop :=
 (∃ object verbatim, (parsedLines file).head? = some (.object object verbatim)
  ∧ isValidHeader object = true ∧ strMember object "id" = some id)
 ∨ ∃ header : SessionHeader, isValidHeader header.object = true ∧ header.id = id
  ∧ (FileEntry.header header).LineRead ∧ lineBytes header.toLine <+: file

variable {file : Bytes} {m : SessionManager} {path : String} {env : Env}
 {r : Except SessionError Unit} {entries : List JsonObject} {header : JsonObject}

theorem OpensWith.extends {file' : Bytes} {id : String} (h : OpensWith file id)
 (he : Extends file file') : OpensWith file' id := by
 rcases h with ⟨object, verbatim, hhead, hv, hid⟩ | ⟨header, hv, hid, hr, hp⟩
 · obtain ⟨more, hmore⟩ := he.parsedLines
   refine .inl ⟨object, verbatim, ?_, hv, hid⟩
   rw [hmore, head?_append, hhead]
   rfl
 · exact .inr ⟨header, hv, hid, hr, hp.trans he.isPrefix⟩

def Headed (m : SessionManager) : Prop :=
 ∃ header rest, m.fileEntries = .header header :: rest ∧ isValidHeader header.object = true
  ∧ header.id = m.sessionId ∧ (FileEntry.header header).LineRead

/-- A manager with its file: its first line is its header, and once it has flushed, the
session file opens with that header. -/
structure HeaderStored (w : World) : Prop where
 headed : w.manager.persist = true → Headed w.manager
 stored : w.manager.persist = true → w.manager.flushed = true →
  ∃ path file, w.manager.sessionFile = some path ∧ w.disk path = some file
   ∧ OpensWith file w.manager.sessionId

/-! ## Headers -/

theorem linesOf_cons (line : FileEntry) (entries : List FileEntry) :
 linesOf (line :: entries) = lineBytes line.toLine ++ linesOf entries := rfl

theorem Headed.opensWith (h : Headed m) {entries : List FileEntry} (hne : entries ≠ [])
 (hp : entries <+: m.fileEntries) : OpensWith (linesOf entries) m.sessionId := by
 obtain ⟨header, rest, he, hv, hid, hr⟩ := h
 obtain ⟨line, entries, rfl⟩ := exists_cons_of_ne_nil hne
 obtain rfl : line = .header header := by
  rw [he] at hp
  exact (cons_prefix_cons.mp hp).1
 exact .inr ⟨header, hv, hid, hr, prefix_append ..⟩

theorem Headed.opensWith_take (h : Headed m) {n : Nat}
 (hn : (linesOf (m.fileEntries.take 1)).length ≤ n) :
 OpensWith ((linesOf m.fileEntries).take n) m.sessionId := by
 obtain ⟨header, rest, he, hv, hid, hr⟩ := h
 refine .inr ⟨header, hv, hid, hr, ?_⟩
 rw [he] at hn ⊢
 have hlen : (lineBytes header.toLine).length ≤ n := by
  rw [take_succ_cons, take_zero, linesOf_cons] at hn
  simpa [linesOf, toLine] using hn
 rw [linesOf_cons, take_append]
 exact ⟨_, by rw [take_of_length_le (l := lineBytes (FileEntry.header header).toLine) hlen]; rfl⟩

variable {m' : SessionManager}

theorem Headed.append (h : Headed m) (hp : m.fileEntries <+: m'.fileEntries)
 (hid : m'.sessionId = m.sessionId) : Headed m' := by
 obtain ⟨header, rest, hm, hv, hh, hr⟩ := h
 obtain ⟨more, he⟩ := hp
 exact ⟨header, rest ++ more, by rw [← he, hm, cons_append], hv, hh.trans hid.symm, hr⟩

theorem Headed.same (h : Headed m) (hs : m.SameSession m') : Headed m' :=
 h.append (hs.fileEntries.symm ▸ prefix_refl _) hs.sessionId

theorem newHeader_spec (id timestamp cwd : String) (parent : Option String) :
 isValidHeader (new id timestamp cwd parent).object = true ∧ (new id timestamp cwd parent).id = id
  ∧ (FileEntry.header (new id timestamp cwd parent)).LineRead := by
 have htype : strMember (new id timestamp cwd parent).object "type" = some "session" := by
  simp [new, strMember, OrdMap.get?_cons]
 have hid : strMember (new id timestamp cwd parent).object "id" = some id := by
  simp [new, strMember, OrdMap.get?_cons]
 refine ⟨by simp [isValidHeader, htype, hid], by simp [SessionHeader.id, hid], ?_⟩
 intro node h
 simp [FileEntry.verbatim, new] at h

/-! ## Writes -/

theorem target_eq (h : m.target = some path) : m.sessionFile = some path := by
 unfold target at h
 split at h
 · exact h
 · simp at h

theorem persist_of_target (h : m.target = some path) : m.persist = true := by
 unfold target at h
 split at h
 · assumption
 · simp at h

theorem target_of_persist (h : m.persist = true) : m.target = m.sessionFile := if_pos h

namespace HeaderStored

variable {w : World}

theorem congr (h : HeaderStored w) (he : w.manager.fileEntries <+: m.fileEntries)
 (hm : m.sessionId = w.manager.sessionId ∧ m.sessionFile = w.manager.sessionFile
  ∧ m.persist = w.manager.persist ∧ m.flushed = w.manager.flushed) :
 HeaderStored (w.withManager m) where
 headed hp := (h.headed (hm.2.2.1 ▸ hp)).append he hm.1
 stored hp hf := by
  obtain ⟨path, file, hfile, hdisk, ho⟩ := h.stored (hm.2.2.1 ▸ hp) (hm.2.2.2 ▸ hf)
  exact ⟨path, file, hm.2.1.trans hfile, hdisk, hm.1.symm ▸ ho⟩

theorem extend (h : HeaderStored w) (ht : w.manager.target = some path)
 {disk : Disk} (hd : disk = w.disk
  ∨ ∃ file, Extends ((w.disk path).getD []) file ∧ disk = w.disk.set path file) :
 HeaderStored (w.withDisk disk) where
 headed := h.headed
 stored hp hf := by
  obtain ⟨path', file, hfile, hdisk, ho⟩ := h.stored hp hf
  obtain rfl : path' = path := Option.some.inj (hfile.symm.trans (target_eq ht))
  rcases hd with rfl | ⟨file', he, rfl⟩
  · exact ⟨path', file, hfile, hdisk, ho⟩
  · rw [hdisk] at he
    exact ⟨path', file', hfile, Disk.set_self .., ho.extends he⟩

theorem created (h : HeaderStored w) (ht : w.manager.target = some path)
 {entries : List FileEntry} (hp : entries <+: w.manager.fileEntries)
 (hne : w.manager.fileEntries ≠ [] → entries ≠ []) {disk : Disk} {outcome : WriteOutcome}
 (hc : createNew w.disk path (linesOf entries) outcome = (true, disk)) :
 HeaderStored { manager := { w.manager with flushed := true }, disk } where
 headed := h.headed
 stored hpersist _ := by
  have hh := h.headed hpersist
  obtain ⟨header, rest, he, -⟩ := id hh
  exact ⟨path, _, target_eq ht, createNew_done hc, hh.opensWith (hne (by rw [he]; simp)) hp⟩

theorem unflushed (h : w.manager.persist = true → Headed w.manager)
 (hf : w.manager.flushed = false) : HeaderStored w where
 headed := h
 stored _ h := absurd h (by rw [hf]; simp)

theorem persistLast (h : HeaderStored w) (env : Env) : HeaderStored (w.persistLast env).2 := by
 rcases w.persistLast_cases env with ⟨hw, -⟩ | ⟨path, ht, ⟨-, e, hw⟩ | ⟨-, writer,
  ⟨hf, -, done, disk, hc, hw⟩ | ⟨-, -, hw⟩ | ⟨-, line, done, disk, -, ha, hw⟩⟩⟩ <;> rw [hw]
 · exact h
 · exact h
 · have hl := h.congr (m := { w.manager with writer }) (prefix_refl _) ⟨rfl, rfl, rfl, rfl⟩
   cases done with
   | true => exact hl.created ht (prefix_refl _) (fun hne => hne) hc
   | false => exact .unflushed hl.headed rfl
 · exact h.congr (prefix_refl _) ⟨rfl, rfl, rfl, rfl⟩
 · have hl := h.congr (m := { w.manager with writer }) (prefix_refl _) ⟨rfl, rfl, rfl, rfl⟩
   have hx := append_extends w.disk path (linesOf [line]) env.write
   rw [ha] at hx
   exact hl.extend ht hx

theorem appendEntry (h : HeaderStored w) (env : Env) (id : String) (raw : JsonObject) :
 HeaderStored (w.appendEntry env id raw).2 := by
 rw [World.appendEntry_snd]
 exact (h.congr (m := w.manager.pushEntry id raw) (prefix_append ..)
  ⟨rfl, rfl, rfl, rfl⟩).persistLast env

theorem appendRaw (h : HeaderStored w) (env : Env) (raw : SessionManager → String → JsonObject) :
 HeaderStored (w.appendRaw env raw).2 :=
 h.appendEntry env _ _

theorem persistGroup (h : HeaderStored w) (env : Env) {start : Nat}
 (hs : w.manager.persist = true → 0 < start) (forceCreate : Bool) : HeaderStored (w.persistGroup env start forceCreate).2 := by
 rcases w.persistGroup_cases env start forceCreate with ⟨hw, -⟩ | ⟨path, ht, -, ⟨-, e, -, hw⟩ |
  ⟨-, writer, ⟨hf, disk, -, hw⟩ | ⟨disk, hd, failure, disk', ha, hw⟩⟩⟩ <;> rw [hw]
 · exact h
 · exact h
 · exact .unflushed h.headed hf
 have hl := h.congr (m := { w.manager with writer }) (prefix_refl _) ⟨rfl, rfl, rfl, rfl⟩
 have hx := appendLines_extends disk path
  ((w.manager.fileEntries.drop start).map fun line => linesOf [line]) env.lines
 rw [ha] at hx
 have hbefore : HeaderStored { manager := { w.manager with writer, flushed := true }, disk } := by
  rcases hd with ⟨hf, rfl⟩ | ⟨hf, hc⟩
  · exact h.congr (m := { w.manager with writer, flushed := true }) (prefix_refl _)
     ⟨rfl, rfl, rfl, hf.symm⟩
  · refine hl.created ht ( take_prefix ..) (fun hne hnil => ?_) hc
    rcases take_eq_nil_iff.mp hnil with h0 | h0
    · exact absurd (hs (persist_of_target ht)) (by omega)
    · exact hne h0
 exact hbefore.extend ht hx

end HeaderStored

/-! ## Groups -/

theorem pushGroup_frame (env : Env) (entries : List GroupEntry) : ∀ (m : SessionManager) (k : Nat),
 m.fileEntries <+: (m.pushGroup env k entries).2.2.fileEntries
  ∧ (m.pushGroup env k entries).2.2.sessionId = m.sessionId
  ∧ (m.pushGroup env k entries).2.2.sessionFile = m.sessionFile
  ∧ (m.pushGroup env k entries).2.2.persist = m.persist
  ∧ (m.pushGroup env k entries).2.2.flushed = m.flushed := by
 induction entries with
 | nil => exact fun m k => ⟨prefix_refl _, rfl, rfl, rfl, rfl⟩
 | cons entry rest ih =>
  intro m k
  rw [pushGroup]
  split
  · exact ⟨prefix_refl _, rfl, rfl, rfl, rfl⟩
  next id raw _ =>
   obtain ⟨hp, hs⟩ := ih (m.pushEntry id raw) (k + 1)
   exact ⟨(prefix_append ..).trans hp, hs⟩

variable {w : World}

theorem HeaderStored.keepGroupPrefix (h : HeaderStored w) {start : Nat}
 (hs : w.manager.persist = true → 0 < start) (startIds : Nat) (leaf : Option String)
 (ids : List String) (kept : Nat) :
 HeaderStored (w.withManager (w.manager.keepGroupPrefix start startIds leaf ids kept)) where
 headed hp := by
  obtain ⟨header, rest, he, hv, hid, hr⟩ := h.headed hp
  refine ⟨header, rest.take (start + kept - 1), ?_, hv, hid, hr⟩
  show w.manager.fileEntries.take (start + kept) = _
  obtain ⟨n, hn⟩ : ∃ n, start + kept = n + 1 := ⟨start + kept - 1, by have := hs hp; omega⟩
  rw [he, hn]
  rfl
 stored := h.stored

theorem HeaderStored.appendGroupInner (h : HeaderStored w) (env : Env) (entries : List GroupEntry)
 (forceCreate : Bool) : HeaderStored (w.appendGroupInner env entries forceCreate).2 := by
 have hs : w.manager.persist = true → 0 < w.manager.fileEntries.length := by
  intro hp
  obtain ⟨header, rest, he, -⟩ := h.headed hp
  rw [he]
  simp
 obtain ⟨hp, hframe⟩ := pushGroup_frame env entries w.manager 0
 have hm := h.congr hp hframe
 have hs' : (w.withManager (w.manager.pushGroup env 0 entries).2.2).manager.persist = true →
  0 < w.manager.fileEntries.length := fun hpersist => hs (hframe.2.2.1 ▸ hpersist)
 unfold World.appendGroupInner
 dsimp only
 split
 · exact hm.keepGroupPrefix hs' _ _ _ _
 · split
   · exact hm
   · have hw := hm.persistGroup env hs' forceCreate
     have hsame := World.persistGroup_same (w.withManager (w.manager.pushGroup env 0 entries).2.2)
      env w.manager.fileEntries.length forceCreate
     split <;> rename_i hr <;> rw [hr] at hw hsame
     · exact hw
     · exact hw.keepGroupPrefix (fun h => hs' (hsame.persist ▸ h)) _ _ _ _
     · exact hw.keepGroupPrefix (fun h => hs' (hsame.persist ▸ h)) _ _ _ _

/-! ## Sessions started and loaded -/

variable {w' : World}

theorem startSession_spec {options : NewSessionOptions} (h : w.startSession env options = (r, w')) :
 (r = .ok () ∧ Headed w'.manager ∧ w'.manager.flushed = false ∧ w'.disk = w.disk
  ∧ w'.manager.persist = w.manager.persist ∧ w'.manager.writer = w.manager.writer
  ∧ w'.manager.writerClosed = w.manager.writerClosed)
 ∨ (options.id.isSome ∧ (∃ e, r = .error e) ∧ w' = w) := by
 unfold World.startSession at h
 split at h
 next hid =>
  injection h with hr hw
  refine .inr ⟨?_, ⟨_, hr.symm⟩, hw.symm⟩
  cases ho : options.id with
  | none => rw [ho] at hid; simp at hid
  | some id => rfl
 · cases h
   obtain ⟨hv, hid, hl⟩ := newHeader_spec (options.id.getD env.uuid) (formatIso (env.clock 0))
    w.manager.cwd options.parentSession
   exact .inl ⟨rfl, ⟨_, [], rfl, hv, hid, hl⟩, rfl, rfl, rfl, rfl, rfl⟩

/-- What a call on `w` leaves keeps the invariant: when it succeeds, whatever `w` was. -/
def StoredAfter (w : World) : Result Unit → Prop
 | (.ok (), w') => HeaderStored w'
 | (.error _, w') => HeaderStored w → HeaderStored w'

theorem HeaderStored.newSession (w : World) (env : Env) (options : NewSessionOptions) :
 StoredAfter w (w.newSession env options) := by
 unfold World.newSession
 rcases hr : w.startSession env options with ⟨r, w'⟩
 rcases startSession_spec hr with ⟨rfl, hh, hf, -⟩ | ⟨-, ⟨e, rfl⟩, rfl⟩
 · dsimp only
   split
   · exact HeaderStored.unflushed (fun _ => hh.append (prefix_refl _) rfl) hf
   · exact HeaderStored.unflushed (fun _ => hh) hf
 · exact id

theorem newSession_ok (w : World) (env : Env) (options : NewSessionOptions) (h : options.id = none) :
 ∃ w', w.newSession env options = (.ok (), w') := by
 unfold World.newSession
 rcases hr : w.startSession env options with ⟨r, w'⟩
 rcases startSession_spec hr with ⟨rfl, -⟩ | ⟨hi, -, -⟩
 · exact ⟨_, rfl⟩
 · simp [h] at hi

def FirstIs (header : JsonObject) (entries : List JsonObject) : Prop :=
 ∃ first rest, entries = first :: rest ∧ isSessionLine first = true
  ∧ strMember first "id" = strMember header "id"

variable {object : JsonObject}

theorem isSessionLine_setVersion (h : isSessionLine object = true) (value : Value) :
 isSessionLine (OrdMap.insert object "version" value) = true
  ∧ strMember (OrdMap.insert object "version" value) "id" = strMember object "id" := by
 unfold isSessionLine strMember at h ⊢
 rw [OrdMap.get?_insert_ne _ _ (by decide), OrdMap.get?_insert_ne _ _ (by decide)]
 exact ⟨h, rfl⟩

theorem migrateV1ToV2From_prefix (draws : Nat → Draws) (entries : List JsonObject) :
 ∀ (done : List JsonObject) (ids : List String) (previous : Option String),
  done <+: migrateV1ToV2From draws done ids previous entries := by
 induction entries with
 | nil => exact fun _ _ _ => prefix_refl _
 | cons entry entries ih =>
  intro done ids previous
  rw [migrateV1ToV2From]
  split
  all_goals exact (prefix_append ..).trans (ih _ _ _)

theorem FirstIs.migrateV1ToV2 (h : FirstIs header entries) (draws : Nat → Draws) :
 FirstIs header (migrateV1ToV2 draws entries) := by
 obtain ⟨first, rest, rfl, hs, hid⟩ := h
 obtain ⟨hs', hid'⟩ := isSessionLine_setVersion hs (.number (.ofNat 2))
 obtain ⟨more, hm⟩ := migrateV1ToV2From_prefix draws rest
  [OrdMap.insert first "version" (.number (.ofNat 2))] [] none
 refine ⟨_, more, ?_, hs', hid'.trans hid⟩
 rw [Session.migrateV1ToV2, migrateV1ToV2From, if_pos hs]
 exact hm.symm

theorem FirstIs.migrateV2ToV3 (h : FirstIs header entries) :
 FirstIs header (migrateV2ToV3 entries) := by
 obtain ⟨first, rest, rfl, hs, hid⟩ := h
 obtain ⟨hs', hid'⟩ := isSessionLine_setVersion hs (.number (.ofNat 3))
 refine ⟨_, rest.map migrateV2Line, ?_, hs', hid'.trans hid⟩
 rw [Session.migrateV2ToV3, map_cons, migrateV2Line, if_pos hs]

theorem FirstIs.migrateObjects (h : FirstIs header entries) (draws : Nat → Draws) :
 FirstIs header (migrateObjects draws entries).1 := by
 obtain ⟨first, rest, rfl, hs, hid⟩ := id h
 rw [Session.migrateObjects, find?_cons_of_pos hs]
 dsimp only
 split
 · exact h
 · dsimp only
   split
   · split
     · exact (h.migrateV1ToV2 draws).migrateV2ToV3
     · exact h.migrateV2ToV3
   · split
     · exact h.migrateV1ToV2 draws
     · exact h

theorem objects_head (hne : objects file ≠ []) :
 ∃ object verbatim rest, objects file = (object, verbatim) :: rest
  ∧ (parsedLines file).head? = some (.object object verbatim)
  ∧ isValidHeader object = true := by
 unfold objects at hne ⊢
 split at hne
 next h =>
  rw [if_pos h]
  unfold firstIsHeader at h
  split at h
  next object verbatim hh =>
   obtain ⟨rest, hr⟩ : ∃ rest, parsedLines file = .object object verbatim :: rest :=
    ⟨_, eq_cons_of_mem_head? hh⟩
   exact ⟨object, verbatim, rest.filterMap ParsedLine.object?, by rw [hr]; rfl, hh, h⟩
  · simp at h
 · exact absurd rfl hne

theorem isValidHeader_iff : isValidHeader object = true
  ↔ isSessionLine object = true ∧ ∃ id, strMember object "id" = some id := by
 simp [isValidHeader, isSessionLine, Option.isSome_iff_exists]

/-- What loading the lines of a session file makes of the manager: its entries begin
with the header of the file, under the file's id. -/
theorem loadEntries_headed (w : World) (env : Env) (hne : objects file ≠ [])
 (options : NewSessionOptions) :
 ∃ m : SessionManager, Headed m ∧ OpensWith file m.sessionId
  ∧ m.sessionFile = w.manager.sessionFile ∧ m.persist = w.manager.persist
  ∧ m.flushed = w.manager.flushed
  ∧ ((w.withManager m).Lockable env = w.Lockable env)
  ∧ m.fileEntries = (migrateLines env.draws (objects file)).1.map
   (fun line => fromLine line.1 line.2)
  ∧ w.loadEntries env (objects file) options
   = if (migrateLines env.draws (objects file)).2 then (w.withManager m).rewriteFile env
    else (.ok (), w.withManager m) := by
 obtain ⟨object, verbatim, rest, ho, hhead, hv⟩ := objects_head hne
 obtain ⟨hs, id, hid⟩ := isValidHeader_iff.mp hv
 have hread := objects_lineRead (show (object, verbatim) ∈ objects file by rw [ho]; simp)
 have hfind : (objects file).find? (fun line => isSessionLine line.1) = some (object, verbatim) := by
  rw [ho]
  exact find?_cons_of_pos hs
 refine ⟨{ w.manager with
  sessionId := (strMember object "id").getD ""
  fileEntries := (migrateLines env.draws (objects file)).1.map fun line => fromLine line.1 line.2
  index := buildIndex ((migrateLines env.draws (objects file)).1.map
   fun line => fromLine line.1 line.2) }, ?_, ?_, rfl, rfl, rfl, rfl, rfl, ?_⟩
 · obtain ⟨first, rest', hfirst, hs', hid'⟩ := (show FirstIs object ((objects file).map Prod.fst) by
     rw [ho]; exact ⟨object, _, rfl, hs, rfl⟩).migrateObjects env.draws
   refine ⟨{ object := first, verbatim }, (rest'.zip (rest.map Prod.snd)).map
    fun line => fromLine line.1 line.2, ?_, ?_, ?_, ?_⟩
   · dsimp only [migrateLines]
     rw [hfirst, ho, map_cons, zip_cons_cons, map_cons]
     congr 1
     exact if_pos (by simpa [isSessionLine] using hs')
   · exact isValidHeader_iff.mpr ⟨hs', id, hid'.trans hid⟩
   · simp [SessionHeader.id, hid']
   · have hline : fromLine object verbatim = .header { object, verbatim } :=
      if_pos (by simpa [isSessionLine] using hs)
     rw [hline] at hread
     exact hread
 · exact .inl ⟨object, verbatim, hhead, hv, by simp [hid]⟩
 · unfold World.loadEntries
   rw [hfind]

/-! ## Switching to another file -/

/-- A file is not taken over: its header is not read, or its lock not taken. -/
def World.Refused (w : World) (env : Env) (path : String) (file : Bytes) : Prop :=
 w.manager.persist = true
  ∧ (env.load = .candidate ∨ (isSessionCandidate file = true ∧ ¬ w.Lockable env path))

/-- Taking a path over changes at most the lock held, and fails when the file there is
refused. -/
theorem takeOver_cases (w : World) (env : Env) (path : String) :
 (∃ file, w.disk path = some file ∧ w.Refused env path file
  ∧ ∃ e, w.takeOver env path = (.error e, w))
 ∨ ((∀ file, w.disk path = some file → ¬ w.Refused env path file)
  ∧ ∃ writer, w.takeOver env path = (.ok (), w.withManager { w.manager with writer })
   ∧ ((w.withManager { w.manager with writer }).Lockable env path → w.Lockable env path)) := by
 have hrelease : ∃ writer, takeOver.release w path = w.withManager { w.manager with writer }
  ∧ ((w.withManager { w.manager with writer }).Lockable env path → w.Lockable env path) := by
  unfold takeOver.release
  split
  · refine ⟨none, rfl, ?_⟩
    rintro (h | h | h)
    · exact .inl h
    · simp [withManager, holdsWriter] at h
    · exact .inr (.inr h)
  · exact ⟨w.manager.writer, rfl, id⟩
 obtain ⟨writer, hr, hl⟩ := hrelease
 unfold takeOver
 cases hd : w.disk path with
 | none => exact .inr ⟨fun _ h => absurd h (by simp), writer, by rw [hr], hl⟩
 | some file =>
  dsimp only
  split
  next hp =>
   refine .inr ⟨fun _ _ hf => absurd hf.1 (by simp [hp]), writer, by rw [hr], hl⟩
  next hp =>
   have hp : w.manager.persist = true := by simpa using hp
   split
   next hc =>
    exact .inl ⟨file, rfl, ⟨hp, .inl hc⟩, _, rfl⟩
   next hc =>
    split
    next hs =>
     rcases w.holdWriter_cases env path with ⟨hk, writer, h⟩ | ⟨hk, e, h⟩
     · refine .inr ⟨fun f hf href => ?_, writer, h, fun _ => hk⟩
       exact href.2.elim hc fun hh => hh.2 hk
     · exact .inl ⟨file, rfl, ⟨hp, .inr ⟨hs, hk⟩⟩, e, h⟩
    next hs =>
     refine .inr ⟨fun f hf href => ?_, writer, by rw [hr], hl⟩
     obtain rfl : file = f := by simpa using hf
     exact href.2.elim hc fun hh => hs hh.1

/-- Switching a flushed manager to an existing file goes well: the file is refused; or it
is read, and is empty or a session, and its migration is not cut within the header. -/
def SwitchKept (w : World) (env : Env) (path : String) : Prop :=
 w.manager.persist = true → w.manager.flushed = true → ∀ file, w.disk path = some file →
  w.Refused env path file
  ∨ (env.load = .read ∧ OpensWith file w.manager.sessionId)
  ∨ (env.load ≠ .read ∧ file = [] ∧ env.load ≠ .size)
  ∨ (env.load ≠ .read ∧ objects file ≠ []
   ∧ ((migrateLines env.draws (objects file)).2 = true → w.Lockable env path →
    ∀ n, env.replace = .torn n → (linesOf (((migrateLines env.draws (objects file)).1.map
      fun line => fromLine line.1 line.2).take 1)).length ≤ n))

/-- Whatever a rewrite that fails leaves at a path opens with the manager's header: what
was there, and what it is cut to. -/
def RewriteKept (w : World) (env : Env) (path : String) : Prop :=
 (¬ w.Lockable env path ∨ env.replace = .kept →
  ∃ file, w.disk path = some file ∧ OpensWith file w.manager.sessionId)
 ∧ (w.Lockable env path → ∀ n, env.replace = .torn n →
  (linesOf (w.manager.fileEntries.take 1)).length ≤ n)

/-- What a rewrite of a headed manager leaves: its file opens with its header when the
rewrite is done, and when its failing keeps that. -/
theorem rewriteFile_opens (hh : Headed w.manager) (ht : w.manager.target = some path)
 (hr : w.rewriteFile env = (r, w')) (hold : r = .ok () ∨ RewriteKept w env path) :
 w.manager.SameSession w'.manager ∧ ∃ file, w'.disk path = some file
  ∧ OpensWith file w.manager.sessionId := by
 have hsame := w.rewriteFile_same env
 rw [hr] at hsame
 refine ⟨hsame, ?_⟩
 have hwhole : OpensWith (linesOf w.manager.fileEntries) w.manager.sessionId := by
  obtain ⟨header, rest, he, -⟩ := id hh
  exact hh.opensWith (by rw [he]; simp) (prefix_refl _)
 rcases w.rewriteFile_cases env with ⟨hn, -⟩ | ⟨path', ht', hcase⟩
 · simp [hn] at ht
 obtain rfl : path' = path := Option.some.inj (ht'.symm.trans ht)
 rcases hcase with ⟨hl, e, h⟩ | ⟨hl, writer, h⟩
 · rw [hr] at h
   cases h
   rcases hold with hold | ⟨hold, -⟩
   · simp at hold
   · exact hold (.inl hl)
 rw [hr] at h
 injection h with hr' hw
 subst hw
 cases hrep : env.replace with
 | ok => exact ⟨_, Disk.set_self .., hwhole⟩
 | kept =>
  rw [hrep] at hr'
  rcases hold with hold | ⟨hold, -⟩
  · exact absurd (hr'.symm.trans hold) (by simp)
  · exact hold (.inr hrep)
 | torn n =>
  rw [hrep] at hr'
  rcases hold with hold | ⟨-, hn⟩
  · exact absurd (hr'.symm.trans hold) (by simp)
  · exact ⟨_, Disk.set_self .., hh.opensWith_take (hn hl n hrep)⟩

theorem HeaderStored.rewriteFile (hh : Headed w.manager) (hs : w.manager.sessionFile = some path)
 (hr : w.rewriteFile env = (r, w'))
 (hold : w.manager.persist = true → w.manager.flushed = true → r = .ok () ∨ RewriteKept w env path) :
 HeaderStored w' := by
 have hsame := w.rewriteFile_same env
 have hflushed := w.rewriteFile_flushed env
 rw [hr] at hsame hflushed
 refine ⟨fun _ => hh.same hsame, fun hp hf => ?_⟩
 have hp : w.manager.persist = true := hsame.persist ▸ hp
 obtain ⟨-, file, hd, ho⟩ := rewriteFile_opens hh ((target_of_persist hp).trans hs) hr
  (hold hp (hflushed ▸ hf))
 exact ⟨path, file, hsame.sessionFile.trans hs, hd, hsame.sessionId.symm ▸ ho⟩

theorem HeaderStored.flush_rewritten (hh : Headed w.manager)
 (hs : w.manager.sessionFile = some path) (hr : w.rewriteFile env = (.ok (), w')) :
 HeaderStored (w'.withManager { w'.manager with flushed := true }) := by
 have hsame := w.rewriteFile_same env
 rw [hr] at hsame
 refine ⟨fun _ => (hh.same hsame).append (prefix_refl _) rfl, fun hp _ => ?_⟩
 have hp : w.manager.persist = true := hsame.persist ▸ hp
 obtain ⟨-, file, hd, ho⟩ := rewriteFile_opens hh ((target_of_persist hp).trans hs) hr (.inl rfl)
 exact ⟨path, file, hsame.sessionFile.trans hs, hd, hsame.sessionId.symm ▸ ho⟩

theorem loadObjects_some (file : Bytes) (repair : Repair) :
 (loadObjects (some file) repair).1 = objects file
  ∧ ∃ file', (loadObjects (some file) repair).2 = some file' ∧ Extends file file' := by
 rw [loadObjects]
 split
 next h =>
  exact ⟨rfl, _, rfl, .inr ⟨[], by rw [Lines.separator, if_pos h.2.1]; simp⟩⟩
 · exact ⟨rfl, file, rfl, .inl rfl⟩

theorem HeaderStored.adoptFile (w : World) (env : Env) (path : String)
 (hk : w.manager.persist = true → w.manager.flushed = true → ∀ file, w.disk path = some file →
  (env.load = .read ∧ OpensWith file w.manager.sessionId)
  ∨ (env.load ≠ .read ∧ file = [] ∧ env.load ≠ .size)
  ∨ (env.load ≠ .read ∧ objects file ≠ []
   ∧ ((migrateLines env.draws (objects file)).2 = true → w.Lockable env path →
    ∀ n, env.replace = .torn n → (linesOf (((migrateLines env.draws (objects file)).1.map
      fun line => fromLine line.1 line.2).take 1)).length ≤ n))) :
 StoredAfter w (w.adoptFile env path) := by
 have hkept : HeaderStored w → ∀ file disk, w.disk path = some file →
  (env.load ≠ .read ∨ env.load = .read ∧ disk = w.disk) →
  (env.load ≠ .read → env.load = .size ∨ file ≠ []) → (env.load ≠ .read → objects file = []) →
  HeaderStored ((w.setFile path).withDisk disk) := by
  intro hh file disk hd hread hbad hnone
  refine ⟨fun hp => (hh.headed hp).append (prefix_refl _) rfl, fun hp hf => ?_⟩
  rcases hk hp hf file hd with ⟨hl, ho⟩ | ⟨hl, he, hsz⟩ | ⟨hl, hne, -⟩
  · rcases hread with hread | ⟨-, rfl⟩
    · exact absurd hl hread
    · exact ⟨path, file, rfl, hd, ho⟩
  · exact absurd (hbad hl) (by simp [he, hsz])
  · exact absurd (hnone hl) hne
 unfold World.adoptFile
 dsimp only
 cases hd : w.disk path with
 | none =>
  have hd' : (w.setFile path).disk path = none := hd
  rw [hd']
  dsimp only
  rcases hr : (w.setFile path).startSession env {} with ⟨r, w'⟩
  rcases startSession_spec hr with ⟨rfl, hh', hf', -⟩ | ⟨hi, -, -⟩
  · exact HeaderStored.unflushed (fun _ => hh'.append (prefix_refl _) rfl) hf'
  · simp at hi
 | some file =>
  have hd' : (w.setFile path).disk path = some file := hd
  rw [hd']
  dsimp only
  split
  next hl =>
   exact fun hh => hkept hh file w.disk hd (.inr ⟨hl, rfl⟩) (fun h => absurd hl h) (fun h => absurd hl h)
  next hl =>
   generalize (if (w.setFile path).manager.holdsWriter path then Repair.held else .never) = repair
   obtain ⟨ho, file', hf', hx⟩ := loadObjects_some file repair
   rw [ho, hf']
   dsimp only [Option.getD_some]
   split
   next hnil =>
    split
    next hsz =>
     exact fun hh => hkept hh file _ hd (.inl hl) (fun _ => .inl hsz) (fun _ => hnil)
    split
    next hne =>
     exact fun hh => hkept hh file _ hd (.inl hl) (fun _ => .inr hne) (fun _ => hnil)
    · rcases hr : ((w.setFile path).withDisk _).startSession env {} with ⟨r, w'⟩
      rcases startSession_spec hr with ⟨rfl, hh', hf', -⟩ | ⟨hi, -, -⟩
      · have hset : Headed (w'.setFile path).manager := hh'.append (prefix_refl _) rfl
        dsimp only
        rcases hrw : (w'.setFile path).rewriteFile env with ⟨_ | _, w''⟩
        · exact fun _ => HeaderStored.rewriteFile hset rfl hrw fun _ hf =>
           absurd (hf'.symm.trans hf) (by simp)
        · exact HeaderStored.flush_rewritten hset rfl hrw
      · simp at hi
   next hne =>
    obtain ⟨m, hm, hopen, hfile, hpersist, hflushed, hlock, hentries, hload⟩ :=
     loadEntries_headed ((w.setFile path).withDisk ((w.setFile path).disk.set path file')) env
      hne {}
    have hopen := hopen.extends hx
    rw [hload]
    cases hmig : (migrateLines env.draws (objects file)).2 with
    | false =>
     rw [if_neg (by simp)]
     exact HeaderStored.mk (fun _ => hm.append (prefix_refl _) rfl)
      fun _ _ => ⟨path, file', hfile, Disk.set_self .., hopen⟩
    | true =>
     rw [if_pos rfl]
     rcases hrw : World.rewriteFile (withManager _ m) env with ⟨_ | _, w''⟩
     · refine fun _ => HeaderStored.rewriteFile hm hfile hrw fun hp hf =>
        .inr ⟨fun _ => ⟨file', Disk.set_self .., hopen⟩, fun hlk n hn => ?_⟩
       rw [hlock] at hlk
       rcases hk (hpersist ▸ hp) (hflushed ▸ hf) file hd with ⟨hr, -⟩ | ⟨-, he, -⟩ | ⟨-, -, ht⟩
       · exact absurd hr hl
       · exact absurd (by rw [he]; rfl) hne
       · show (linesOf (m.fileEntries.take 1)).length ≤ n
         rw [hentries]
         exact ht hmig hlk n hn
     · exact HeaderStored.flush_rewritten hm hfile hrw

theorem HeaderStored.setSessionFile (w : World) (env : Env) (path : String)
 (hk : SwitchKept w env path) : StoredAfter w (w.setSessionFile env path) := by
 unfold World.setSessionFile
 rcases takeOver_cases w env path with ⟨file, -, -, e, h⟩ | ⟨hr, writer, h, hl⟩
 · rw [h]
   exact id
 rw [h]
 dsimp only
 have hadopt := HeaderStored.adoptFile (w.withManager { w.manager with writer }) env path
  fun hp hf file hd => by
   rcases hk hp hf file hd with href | hread | hempty | ⟨hl', hne, ht⟩
   · exact absurd href (hr file hd)
   · exact .inl hread
   · exact .inr (.inl hempty)
   · exact .inr (.inr ⟨hl', hne, fun hm hlk => ht hm (hl hlk)⟩)
 revert hadopt
 rcases World.adoptFile _ env path with ⟨_ | _, w'⟩
 · exact fun hadopt hh => hadopt (hh.congr (prefix_refl _) ⟨rfl, rfl, rfl, rfl⟩)
 · exact id

/-! ## Branched sessions -/

namespace SessionManager

def newFile (m : SessionManager) (env : Env) : String :=
 joinPath m.sessionDir (sessionFileName (formatIso (env.clock 0)) env.uuid)

def pathDue (path : List SessionEntry) : Bool :=
 path.any fun entry => isConversation (.entry entry) || isTaskEntry entry

end SessionManager

/-- Branching a flushed manager goes well: the new file is not due, or it is written, at
least past its header. -/
def BranchKept (w : World) (env : Env) (leafId : String) : Prop :=
 w.manager.persist = true → w.manager.flushed = true →
  pathDue (w.manager.branchEntries (some leafId)) = true →
  w.manager.writerClosed = false ∧ (∃ inPlace, env.lock = .taken inPlace)
   ∧ (env.replace = .ok ∨ ∃ n, env.replace = .torn n
    ∧ (lineBytes (new env.uuid (formatIso (env.clock 0)) w.manager.cwd
     w.manager.sessionFile).toLine).length ≤ n)

theorem entries_branched (m : SessionManager) (env : Env) (path : List SessionEntry) :
 (m.branched env path).entries = m.branchedEntries env path := by
 show ((m.branchedEntries env path).map FileEntry.entry).filterMap FileEntry.asEntry = _
 rw [filterMap_map]
 exact filterMap_some

/-- A branched session holds a conversation, or task entries, only when the path does. -/
theorem pathDue_of_branched (m : SessionManager) (env : Env) (path : List SessionEntry)
 (h : ((m.branched env path).hasConversation || (m.branched env path).entries.any isTaskEntry)
  = true) : pathDue path = true := by
 have hconv : (m.branched env path).hasConversation
  = (m.branchedEntries env path).any fun entry => isConversation (.entry entry) := by
  simp [hasConversation, branched, isConversation, FileEntry.asEntry, Function.comp_def]
 rw [entries_branched, hconv] at h
 obtain ⟨copy, hmem, hdue⟩ : ∃ copy ∈ m.branchedEntries env path,
  (isConversation (.entry copy) || isTaskEntry copy) = true := by
  rcases Bool.or_eq_true _ _ ▸ h with h | h
  all_goals
   obtain ⟨copy, hmem, hc⟩ := any_eq_true.mp h
   exact ⟨copy, hmem, by simp [hc]⟩
 rcases mem_append.mp hmem with hmem | hmem
 · obtain ⟨entry, he, -, hcopy⟩ := mem_rechain hmem
   refine any_eq_true.mpr ⟨entry, he, ?_⟩
   simpa [isConversation, FileEntry.asEntry, isTaskEntry, hcopy.messageRole,
    hcopy.entryType, hcopy.2 "customType" (by decide) (by decide)] using hdue
 · have htype := entryType_labelCopies _ copy hmem
   exact absurd hdue (by simp [isConversation, FileEntry.asEntry, isTaskEntry,
    SessionEntry.messageRole, htype])

theorem headed_branched (m : SessionManager) (env : Env) (path : List SessionEntry) :
 Headed (m.branched env path) := by
 obtain ⟨hv, hid, hl⟩ := newHeader_spec env.uuid (formatIso (env.clock 0)) m.cwd
  (if m.persist then m.sessionFile else none)
 exact ⟨_, _, rfl, hv, hid, hl⟩

theorem HeaderStored.createBranchedSession {leafId : String}
 {r : Except SessionError (Option String)} (h : w.createBranchedSession env leafId = (r, w'))
 (hk : r.toBool = true ∨ BranchKept w env leafId ∧ HeaderStored w) : HeaderStored w' := by
 unfold World.createBranchedSession at h
 dsimp only at h
 split at h
 · cases h
   exact hk.elim (by simp [Except.toBool]) And.right
 have hh := headed_branched w.manager env (w.manager.branchEntries (some leafId))
 split at h
 next hp =>
  injection h with hr hw
  subst hw
  exact ⟨fun hp' => absurd hp' (by rw [hp]; simp), fun hp' => absurd hp' (by rw [hp]; simp)⟩
 next hp =>
  have hp : w.manager.persist = true := by simpa [withManager, branched] using hp
  have hs : (w.manager.branched env (w.manager.branchEntries (some leafId))).sessionFile
   = some (w.manager.newFile env) := if_pos hp
  split at h
  next hdue =>
   rcases hrw : (w.withManager (w.manager.branched env
    (w.manager.branchEntries (some leafId)))).rewriteFile env with ⟨_ | _, w''⟩
   · rw [hrw] at h
     cases h
     refine .rewriteFile hh hs hrw fun _ hf => .inr ?_
     obtain ⟨hc, hlock, hrep⟩ := (hk.resolve_left (by simp [Except.toBool])).1 hp hf
      (pathDue_of_branched w.manager env _ (by
       rw [show (withManager w _).manager.flushed = true from hf, Bool.true_and] at hdue
       exact hdue))
     have hl : (w.withManager (w.manager.branched env
      (w.manager.branchEntries (some leafId)))).Lockable env (w.manager.newFile env) :=
      .inr (.inr ⟨hc, hlock⟩)
     refine ⟨fun hkept => ?_, fun _ n hn => ?_⟩
     · rcases hkept with hkept | hkept
       · exact absurd hl hkept
       · rcases hrep with hrep | ⟨n, hrep, -⟩ <;> exact absurd (hrep.symm.trans hkept) (by simp)
     · rcases hrep with hrep | ⟨n', hrep, hlen⟩
       · exact absurd (hrep.symm.trans hn) (by simp)
       · obtain rfl : n' = n := by simpa using hrep.symm.trans hn
         show (lineBytes (new env.uuid (formatIso (env.clock 0)) w.manager.cwd
          (if w.manager.persist then w.manager.sessionFile else none)).toLine ++ []).length ≤ n'
         rw [if_pos hp, append_nil]
         exact hlen
   · rw [hrw] at h
     injection h with hr hw
     subst hw
     exact .flush_rewritten hh hs hrw
  · injection h with hr hw
    subst hw
    exact .unflushed (fun _ => hh.append (prefix_refl _) rfl) rfl

theorem createBranchedSession_disk (w : World) (env : Env) (leafId path : String)
 (hne : path ≠ w.manager.newFile env) :
 (w.createBranchedSession env leafId).2.disk path = w.disk path := by
 unfold World.createBranchedSession
 dsimp only
 split
 · rfl
 split
 · rfl
 next hp =>
  have hp : w.manager.persist = true := by
   simpa [withManager, branched] using hp
  have ht : (w.manager.branched env (w.manager.branchEntries (some leafId))).target
   = some (w.manager.newFile env) :=
   (target_of_persist (m := w.manager.branched env _) hp).trans (if_pos hp)
  split
  · have hdisk : ((w.withManager (w.manager.branched env
     (w.manager.branchEntries (some leafId)))).rewriteFile env).2.disk path = w.disk path := by
     rcases World.rewriteFile_cases (w.withManager (w.manager.branched env
      (w.manager.branchEntries (some leafId)))) env with ⟨-, h⟩ | ⟨path', ht', hcase⟩
     · rw [h]
       rfl
     · obtain rfl : path' = w.manager.newFile env := Option.some.inj (ht'.symm.trans ht)
       rcases hcase with ⟨-, e, h⟩ | ⟨-, writer, h⟩ <;> rw [h]
       · rfl
       · dsimp only
         cases env.replace with
         | kept => rfl
         | ok | torn n => exact Disk.set_ne _ _ hne
    split <;> rename_i hr <;> rw [hr] at hdisk
    · exact hdisk
    · exact hdisk
  · rfl

theorem HeaderStored.branchedCopy (h : HeaderStored w) (env : Env) (leafId : Option String)
 (hk : w.manager.sessionFile ≠ some (w.manager.newFile env)) :
 HeaderStored (w.branchedCopy env leafId).2 := by
 have hcopy : HeaderStored (w.withManager { w.manager with writer := none, writerClosed := false }) :=
  h.congr (prefix_refl _) ⟨rfl, rfl, rfl, rfl⟩
 unfold World.branchedCopy
 dsimp only
 cases leafId with
 | some leafId =>
  dsimp only
  rcases hb : World.createBranchedSession
   (w.withManager { w.manager with writer := none, writerClosed := false }) env leafId
   with ⟨_ | _, copy⟩
  · refine ⟨h.headed, fun hp hf => ?_⟩
    obtain ⟨path, file, hfile, hdisk, ho⟩ := h.stored hp hf
    refine ⟨path, file, hfile, ?_, ho⟩
    have hd := createBranchedSession_disk
     (w.withManager { w.manager with writer := none, writerClosed := false }) env leafId
     path fun he => hk (he ▸ hfile)
    rw [hb] at hd
    exact hd.trans hdisk
  · exact .createBranchedSession hb (.inl rfl)
 | none =>
  dsimp only
  have hn := HeaderStored.newSession
   (w.withManager { w.manager with writer := none, writerClosed := false }) env
   { parentSession := if w.manager.persist then w.manager.sessionFile else none }
  obtain ⟨copy, hr⟩ := newSession_ok
   (w.withManager { w.manager with writer := none, writerClosed := false }) env
   { parentSession := if w.manager.persist then w.manager.sessionFile else none } rfl
  rw [hr] at hn ⊢
  exact hn

/-! ## Runs -/

/-- The calls that keep the file the manager's: a flushed manager switches to a file that is
refused, or empty, or a session; the session it branches to is written; a copy of it
goes to another file. -/
def HeaderKept (w : World) : Op × Env → Prop
 | (.setSessionFile path, env) => SwitchKept w env path
 | (.createBranchedSession leafId, env) => BranchKept w env leafId
 | (.branchedCopy _, env) => w.manager.sessionFile ≠ some (w.manager.newFile env)
 | _ => True

theorem startSession_persist (w : World) (env : Env) (options : NewSessionOptions) :
 (w.startSession env options).2.manager.persist = w.manager.persist := by
 unfold World.startSession
 split <;> rfl

theorem loadEntries_persist (w : World) (env : Env) (lines : List Line) (options : NewSessionOptions) :
 (w.loadEntries env lines options).2.manager.persist = w.manager.persist := by
 have hs := startSession_persist w env options
 unfold World.loadEntries
 split
 · dsimp only
   split
   · exact (World.rewriteFile_same _ env).persist
   · rfl
 · split <;> rename_i hr <;> rw [hr] at hs
   · exact hs
   · exact hs

theorem construct_persist (disk : Disk) (env : Env) (cwd dir : String) (persist : Bool)
 (options : NewSessionOptions) (lines : List Line) (writer : Option WriterLock) :
 (World.construct disk env cwd dir none persist options lines writer).2.manager.persist
  = persist := by
 unfold World.construct
 dsimp only
 split
 · have hs := startSession_persist (mk (mk "" none dir cwd persist false []
    .empty writer false) disk) env options
   unfold World.newSession
   split <;> rename_i hr <;> rw [hr] at hs
   · exact hs
   · split
     · exact hs
     · exact hs
 · exact loadEntries_persist ..

theorem headerStored_opened (h : Opened w) : HeaderStored w := by
 cases h with
 | @file disk env cwd dir path writer _ hc =>
  have hs := HeaderStored.setSessionFile (mk (mk "" none dir cwd true
   false [] .empty writer false) disk) env path
   fun _ hf => absurd hf (by simp)
  rw [show World.setSessionFile _ env path = (.ok (), w) from hc] at hs
  exact hs
 | @create disk env cwd dir options _ hc =>
  have hs := HeaderStored.newSession (mk (mk "" none dir cwd true
   false [] .empty none false) disk) env options
  rw [show World.newSession _ env options = (.ok (), w) from hc] at hs
  exact hs
 | @inMemory disk env cwd options lines _ hc =>
  have hp : w.manager.persist = false := by
   have hp := construct_persist disk env cwd "" false options lines none
   rw [hc] at hp
   exact hp
  exact ⟨by simp [hp], by simp [hp]⟩

theorem headerStored_step (call : Op × Env) (h : HeaderStored w) (hk : HeaderKept w call) :
 HeaderStored (w.step call) := by
 obtain ⟨op, env⟩ := call
 cases op <;> simp only [step, World.perform, Result.failure_snd]
 case appendMessage message =>
  unfold World.appendMessage
  split
  · exact h
  · exact h
  · exact h.appendRaw env _
 case appendContextEdit targetId replacement =>
  unfold World.appendContextEdit
  split
  · exact h
  · exact h.appendEntry env _ _
 case appendLabelChange targetId label =>
  have hr := h.appendRaw env fun m id => m.labelRaw env id targetId label
  unfold World.appendLabelChange
  split
  · exact h
  · split <;> rename_i he <;> rw [he] at hr
    · exact hr
    · exact hr.congr (prefix_refl _) ⟨rfl, rfl, rfl, rfl⟩
 case appendGroup entries => exact h.appendGroupInner env entries false
 case appendDurableGroup entries => exact h.appendGroupInner env entries true
 case branch id =>
  unfold World.branch
  split
  · exact h
  · exact h.congr (prefix_refl _) ⟨rfl, rfl, rfl, rfl⟩
 case resetLeaf => exact h.congr (prefix_refl _) ⟨rfl, rfl, rfl, rfl⟩
 case branchWithSummary branchFromId summary details fromHook usage =>
  unfold World.branchWithSummary
  split
  · exact h
  · exact (h.congr (m := { w.manager with
     index := { w.manager.index with leafId := branchFromId } })
     (prefix_refl _) ⟨rfl, rfl, rfl, rfl⟩).appendRaw env _
 case newSession options =>
  have hn := HeaderStored.newSession w env options
  rcases hr : w.newSession env options with ⟨_ | _, w'⟩ <;> rw [hr] at hn
  · exact hn h
  · exact hn
 case setSessionFile path =>
  have hs := HeaderStored.setSessionFile w env path hk
  rcases hr : w.setSessionFile env path with ⟨_ | _, w'⟩ <;> rw [hr] at hs
  · exact hs h
  · exact hs
 case createBranchedSession leafId => exact .createBranchedSession rfl (.inr ⟨hk, h⟩)
 case branchedCopy leafId => exact h.branchedCopy env leafId hk
 case closeWriter => exact h.congr (prefix_refl _) ⟨rfl, rfl, rfl, rfl⟩
 all_goals exact h.appendRaw env _

/-- **In every run whose flushed managers switch only to empty files and sessions, and
whose branched sessions are written,** the session file of a manager that has flushed
opens with its header. -/
theorem headerStored_reachable {w : World} (h : Run.Reach Opened step HeaderKept w) :
 HeaderStored w :=
 h.invariant HeaderStored (fun _ => headerStored_opened) fun _ call => headerStored_step call

/-- A message, and a branch from it. -/
theorem headerStored_branched :
 HeaderStored (((newWorld fun _ => none).step (.appendMessage [("role", .string "user")], .calm)).step
  (.createBranchedSession "00000001",
   { Env.calm with uuid := "018f0000-0000-7000-8000-000000000001" })) :=
 headerStored_reachable (.step (.step (.init (opened_newWorld fun _ => none)) trivial)
  fun _ _ _ => ⟨by decide +kernel, ⟨false, rfl⟩, .inl rfl⟩)

/-- A file that is no session. -/
def notes : Disk := fun path => if path = "/notes.txt" then some [0x68, 0x0A] else none

/-- **Switching to a file that is no session fails, and leaves the manager writing to
it.** -/
theorem not_headerStored_notes :
 ¬ ∀ w, Run.Reach Opened step (fun _ _ => True) w → HeaderStored w := by
 intro h
 have hs := h _ (.step (i := (.setSessionFile "/notes.txt", .calm))
  (.step (i := (.appendMessage [("role", .string "user")], .calm)) (.init (opened_newWorld notes))
   trivial) trivial)
 obtain ⟨path, file, hfile, hdisk, ho⟩ := hs.stored (by decide +kernel) (by decide +kernel)
 have hpath : some path = some "/notes.txt" := hfile.symm.trans (by decide +kernel)
 cases hpath
 have hbytes : some file = some [0x68, 0x0A] := hdisk.symm.trans (by decide +kernel)
 cases hbytes
 rcases ho with ⟨object, verbatim, hhead, -⟩ | ⟨header, -, -, hr, hp⟩
 · have hnone : (parsedLines [0x68, 0x0A]).head?.isNone = true := by decide +kernel
   rw [hhead] at hnone
   simp at hnone
 · obtain ⟨-, hbrace, -⟩ := FileEntry.toLine_written hr
   obtain ⟨t, ht⟩ : ∃ t, header.toLine = '{' :: t := ⟨_, eq_cons_of_mem_head? hbrace⟩
   obtain ⟨more, hmore⟩ := hp
   rw [lineBytes, ht, Utf8.encode_cons] at hmore
   exact absurd (congrArg List.head? hmore) (by simp [String.utf8EncodeChar])

end Bake.Session
