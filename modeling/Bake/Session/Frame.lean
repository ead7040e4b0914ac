import Bake.Session.Step

/-!
# What a write leaves

Writing touches the disk, the writer lock and the flushed flag, and nothing else of
the manager: the entries and the index are what they were before it, whether it
succeeds or fails. Each function that writes gets one lemma that says everything it
can leave.
-/

namespace Bake.Session

namespace SessionManager

/-- `m'` is `m` with its writer lock and its flushed flag changed at most. -/
def SameSession (m m' : SessionManager) : Prop := ∃ writer flushed, m' = { m with writer, flushed }

namespace SameSession

variable {m m' m'' : SessionManager}

theorem refl (m : SessionManager) : m.SameSession m := ⟨m.writer, m.flushed, rfl⟩

section

variable (h : m.SameSession m')

include h

theorem fileEntries : m'.fileEntries = m.fileEntries := by
 obtain ⟨_, _, rfl⟩ := h; rfl

theorem sessionId : m'.sessionId = m.sessionId := by
 obtain ⟨_, _, rfl⟩ := h; rfl

theorem sessionFile : m'.sessionFile = m.sessionFile := by
 obtain ⟨_, _, rfl⟩ := h; rfl

theorem persist : m'.persist = m.persist := by
 obtain ⟨_, _, rfl⟩ := h; rfl

end

end SameSession

end SessionManager

variable {outcome : WriteOutcome}

theorem createNew_done {disk disk' : Disk} {path : String} {bytes : Bytes}
 (h : createNew disk path bytes outcome = (true, disk')) : disk' path = some bytes := by
 unfold createNew at h
 split at h
 · injection h with ho hd
   have ho : outcome = .ok := by simpa using ho
   subst ho hd
   rename_i hw
   simpa [WriteOutcome.written] using hw.symm
 · simp at h

/-- A creation that fails leaves the file missing, as it was, or cut short. -/
theorem createNew_failed {disk disk' : Disk} {path : String} {bytes : Bytes}
 (h : createNew disk path bytes outcome = (false, disk')) :
 disk' path = disk path ∨ ∃ n, disk' path = some (bytes.take n) := by
 unfold createNew at h
 split at h
 next hw =>
  injection h with ho hd
  subst hd
  refine .inr ?_
  rw [Disk.set_self]
  cases outcome with
  | ok => simp at ho
  | notOpened => simp [WriteOutcome.written] at hw
  | notWritten =>
   cases hw
   exact ⟨0, rfl⟩
  | torn n =>
   cases hw
   exact ⟨n, rfl⟩
  | unsynced =>
   cases hw
   exact ⟨bytes.length, by rw [List.take_length]⟩
 · injection h with _ hd
   exact .inl (congrFun hd.symm path)

namespace World

open SessionManager (SameSession)

variable (w : World) (env : Env)

/-- A path's lock is held, or can be taken. -/
def Lockable (path : String) : Prop := w.manager.persist = false ∨ w.manager.holdsWriter path
  ∨ (w.manager.writerClosed = false ∧ ∃ inPlace, env.lock = .taken inPlace)

/-- Taking a lock succeeds with at most another lock held, or fails and changes
nothing. -/
theorem holdWriter_cases (path : String) : (w.Lockable env path
  ∧ ∃ writer, w.holdWriter env path = (.ok (), w.withManager { w.manager with writer }))
 ∨ (¬ w.Lockable env path ∧ ∃ e, w.holdWriter env path = (.error e, w)) := by
 unfold holdWriter Lockable
 dsimp only
 split
 next h =>
  exact .inl ⟨h.elim .inl fun h => .inr (.inl h), w.manager.writer, rfl⟩
 next h =>
  rw [not_or] at h
  split
  next hc =>
   exact .inr ⟨by simp [h, hc], _, rfl⟩
  next hc =>
   split
   next inPlace hl =>
    exact .inl ⟨.inr (.inr ⟨by simpa using hc, inPlace, hl⟩), _, rfl⟩
   all_goals
    rename_i hl
    exact .inr ⟨by simp [h, hl], _, rfl⟩

theorem rewriteFile_cases : (w.manager.target = none ∧ w.rewriteFile env = (.ok (), w))
 ∨ ∃ path, w.manager.target = some path
  ∧ ((¬ w.Lockable env path ∧ ∃ e, w.rewriteFile env = (.error e, w))
   ∨ (w.Lockable env path ∧ ∃ writer, w.rewriteFile env =
    (if env.replace = .ok then .ok () else .error (.io path),
     { manager := { w.manager with writer }
       disk := (replace w.disk path (linesOf w.manager.fileEntries) env.replace).2 }))) := by
 unfold rewriteFile
 cases ht : w.manager.target with
 | none => exact .inl ⟨rfl, rfl⟩
 | some path =>
  refine .inr ⟨path, rfl, ?_⟩
  dsimp only
  rcases w.holdWriter_cases env path with ⟨hl, writer, h⟩ | ⟨hl, e, h⟩
  · rw [h]
    refine .inr ⟨hl, writer, ?_⟩
    cases env.replace <;> rfl
  · rw [h]
    exact .inl ⟨hl, e, rfl⟩

theorem rewriteFile_same : w.manager.SameSession (w.rewriteFile env).2.manager := by
 rcases w.rewriteFile_cases env with ⟨-, h⟩ | ⟨path, -, ⟨-, e, h⟩ | ⟨-, writer, h⟩⟩ <;> rw [h]
 · exact .refl _
 · exact .refl _
 · exact ⟨writer, w.manager.flushed, rfl⟩

theorem rewriteFile_flushed : (w.rewriteFile env).2.manager.flushed = w.manager.flushed := by
 rcases w.rewriteFile_cases env with ⟨-, h⟩ | ⟨path, -, ⟨-, e, h⟩ | ⟨-, writer, h⟩⟩ <;> rw [h]

/-- What writing the last entry leaves: nothing new, the file created, or the entry
appended. -/
theorem persistLast_cases : (w.persistLast env = (.ok (), w) ∧ (w.manager.target = none
   ∨ (w.manager.flushed = false ∧ w.manager.hasConversation = false)))
 ∨ ∃ path, w.manager.target = some path
  ∧ ((¬ w.Lockable env path ∧ ∃ e, w.persistLast env = (.error e, w))
   ∨ (w.Lockable env path ∧ ∃ writer, (w.manager.flushed = false ∧ w.manager.hasConversation = true
     ∧ ∃ done disk, createNew w.disk path (linesOf w.manager.fileEntries) env.create = (done, disk)
      ∧ w.persistLast env = (if done then .ok () else .error (.io path),
       { manager := { w.manager with writer, flushed := done }, disk }))
    ∨ (w.manager.flushed = true ∧ w.manager.fileEntries.getLast? = none
     ∧ w.persistLast env = (.ok (), w.withManager { w.manager with writer }))
    ∨ (w.manager.flushed = true ∧ ∃ line done disk, w.manager.fileEntries.getLast? = some line
     ∧ append w.disk path (linesOf [line]) env.write = (done, disk)
     ∧ w.persistLast env = (if done then .ok () else .error (.io path),
      { manager := { w.manager with writer }, disk })))) := by
 unfold persistLast
 cases ht : w.manager.target with
 | none => exact .inl ⟨rfl, .inl rfl⟩
 | some path =>
  dsimp only
  by_cases hf : w.manager.flushed = false
  · rw [if_pos hf]
    by_cases hc : w.manager.hasConversation = false
    · rw [if_pos hc]
      exact .inl ⟨rfl, .inr ⟨hf, hc⟩⟩
    rw [if_neg hc]
    refine .inr ⟨path, rfl, ?_⟩
    rcases w.holdWriter_cases env path with ⟨hl, writer, h⟩ | ⟨hl, e, h⟩
    · rw [h]
      dsimp only [withManager, withDisk]
      cases hd : createNew w.disk path (linesOf w.manager.fileEntries) env.create with
      | mk done disk =>
       refine .inr ⟨hl, writer, .inl ⟨hf, by simpa using hc, done, disk, rfl, ?_⟩⟩
       cases done with
       | true => rfl
       | false => simp [hf]
    · rw [h]
      exact .inl ⟨hl, e, rfl⟩
  rw [if_neg hf]
  refine .inr ⟨path, rfl, ?_⟩
  have hf : w.manager.flushed = true := by simpa using hf
  rcases w.holdWriter_cases env path with ⟨hl, writer, h⟩ | ⟨hl, e, h⟩
  · rw [h]
    refine .inr ⟨hl, writer, .inr ?_⟩
    dsimp only [withManager, withDisk]
    cases hg : w.manager.fileEntries.getLast? with
    | none => exact .inl ⟨hf, rfl, rfl⟩
    | some line => exact .inr ⟨hf, line, _, _, rfl, rfl, rfl⟩
  · rw [h]
    exact .inl ⟨hl, e, rfl⟩

theorem persistLast_same : w.manager.SameSession (w.persistLast env).2.manager := by
 rcases w.persistLast_cases env with ⟨h, -⟩ | ⟨path, -, ⟨-, e, h⟩ | ⟨-, writer,
  ⟨-, -, done, disk, -, h⟩ | ⟨-, -, h⟩ | ⟨-, line, done, disk, -, -, h⟩⟩⟩ <;> rw [h]
 · exact .refl _
 · exact .refl _
 · exact ⟨writer, done, rfl⟩
 · exact ⟨writer, w.manager.flushed, rfl⟩
 · exact ⟨writer, w.manager.flushed, rfl⟩

theorem takeOver_same (path : String) : w.manager.SameSession (w.takeOver env path).2.manager := by
 have hr : w.manager.SameSession (takeOver.release w path).manager := by
  unfold takeOver.release
  split
  · exact ⟨none, w.manager.flushed, rfl⟩
  · exact .refl _
 unfold takeOver
 split
 · exact hr
 · split
   · exact hr
   · split
     · exact .refl _
     · split
       · rcases w.holdWriter_cases env path with ⟨-, writer, h⟩ | ⟨-, e, h⟩ <;> rw [h]
         · exact ⟨writer, w.manager.flushed, rfl⟩
         · exact .refl _
       · exact hr

theorem appendEntry_snd (id : String) (raw : Json.JsonObject) : (w.appendEntry env id raw).2
  = ((w.withManager (w.manager.pushEntry id raw)).persistLast env).2 := by
 unfold appendEntry
 split <;> rename_i h <;> rw [h]

/-- A line that is no conversation is written when it is due: its lock is held or can
be taken, and its write, or the file's creation, succeeds. -/
def Written : Prop := ∀ path, w.manager.target = some path →
  (w.manager.flushed = true → w.Lockable env path ∧ env.write = .ok)
  ∧ (w.manager.flushed = false → w.manager.hasConversation = true →
   w.Lockable env path ∧ w.disk path = none ∧ env.create = .ok)

theorem append_fst (disk : Disk) (path : String) (bytes : Bytes) (outcome : WriteOutcome) :
 (append disk path bytes outcome).1 = true ↔ outcome = .ok := by
 unfold append
 cases outcome <;> simp [WriteOutcome.written]

theorem createNew_fst (disk : Disk) (path : String) (bytes : Bytes) (outcome : WriteOutcome) :
 (createNew disk path bytes outcome).1 = true ↔ disk path = none ∧ outcome = .ok := by
 unfold createNew
 cases disk path <;> cases outcome <;> simp [WriteOutcome.written]

theorem persistLast_ok_iff (hne : w.manager.fileEntries ≠ []) :
 (w.persistLast env).1 = .ok () ↔ w.Written env := by
 rcases w.persistLast_cases env with ⟨h, hc⟩ | ⟨path, ht, ⟨hl, e, h⟩ | ⟨hl, writer,
  ⟨hf, hc, done, disk, hd, h⟩ | ⟨-, hg, -⟩ | ⟨hf, line, done, disk, -, hd, h⟩⟩⟩
 · rw [h]
   refine iff_of_true rfl fun path ht => ?_
   rcases hc with hc | ⟨hf, hc⟩
   · simp [hc] at ht
   · simp [hf, hc]
 · rw [h]
   refine iff_of_false (by simp) fun hw => ?_
   cases hf : w.manager.flushed with
   | true => exact hl ((hw path ht).1 hf).1
   | false =>
    cases hc : w.manager.hasConversation with
    | true => exact hl ((hw path ht).2 hf hc).1
    | false =>
     have : w.persistLast env = (.ok (), w) := by simp [persistLast, ht, hf, hc]
     simp [this] at h
 · have hd' := createNew_fst w.disk path (linesOf w.manager.fileEntries) env.create
   rw [hd] at hd'
   rw [h]
   constructor
   · intro hok p hp
     obtain rfl : path = p := by simpa [ht] using hp
     refine ⟨fun h => by simp [hf] at h, fun _ _ => ⟨hl, hd'.mp ?_⟩⟩
     dsimp only at hok
     split at hok
     · assumption
     · simp at hok
   · intro hw
     have hdone : done = true := hd'.mpr ((hw path ht).2 hf hc).2
     simp [hdone]
 · exact absurd (List.getLast?_eq_none_iff.mp hg) hne
 have hd' := append_fst w.disk path (linesOf [line]) env.write
 rw [hd] at hd'
 rw [h]
 constructor
 · intro hok p hp
   obtain rfl : path = p := by simpa [ht] using hp
   refine ⟨fun _ => ⟨hl, hd'.mp ?_⟩, fun h => by simp [hf] at h⟩
   dsimp only at hok
   split at hok
   · assumption
   · simp at hok
 · intro hw
   have hdone : done = true := hd'.mpr ((hw path ht).1 hf).2
   simp [hdone]

theorem appendEntry_same (id : String) (raw : Json.JsonObject) :
 (w.manager.pushEntry id raw).SameSession (w.appendEntry env id raw).2.manager := by
 rw [appendEntry_snd]
 exact persistLast_same (w.withManager (w.manager.pushEntry id raw)) env

/-- What writing a group's entries leaves: nothing new, a failure before its first
line, or what `append_lines` leaves. -/
theorem persistGroup_cases (start : Nat) (forceCreate : Bool) :
 (w.persistGroup env start forceCreate = (none, w) ∧ (w.manager.target = none
   ∨ (w.manager.flushed = false ∧ forceCreate = false ∧ w.manager.hasConversation = false)))
 ∨ ∃ path, w.manager.target = some path
  ∧ (w.manager.flushed = true ∨ forceCreate = true ∨ w.manager.hasConversation = true)
  ∧ ((¬ w.Lockable env path ∧ ∃ e, w.holdWriter env path = (.error e, w)
   ∧ w.persistGroup env start forceCreate = (some (.before e), w))
   ∨ (w.Lockable env path ∧ ∃ writer, (w.manager.flushed = false
     ∧ ∃ disk, createNew w.disk path (linesOf (w.manager.fileEntries.take start)) env.create
      = (false, disk)
      ∧ w.persistGroup env start forceCreate = (some (.before (.io path)),
       { manager := { w.manager with writer }, disk }))
    ∨ ∃ disk, (w.manager.flushed = true ∧ disk = w.disk ∨ w.manager.flushed = false
       ∧ createNew w.disk path (linesOf (w.manager.fileEntries.take start)) env.create
        = (true, disk))
     ∧ ∃ failure disk', appendLines disk path
       ((w.manager.fileEntries.drop start).map fun line => linesOf [line]) env.lines
       = (failure, disk')
      ∧ w.persistGroup env start forceCreate = (failure.map (.at path),
       { manager := { w.manager with writer, flushed := true }, disk := disk' }))) := by
 unfold persistGroup
 cases ht : w.manager.target with
 | none => exact .inl ⟨rfl, .inl rfl⟩
 | some path =>
  dsimp only
  split
  next hc =>
   exact .inl ⟨rfl, .inr hc⟩
  next hc =>
   refine .inr ⟨path, rfl, ?_, ?_⟩
   · cases hf : w.manager.flushed <;> cases hg : forceCreate <;>
      cases hv : w.manager.hasConversation <;> simp_all
   rcases w.holdWriter_cases env path with ⟨hl, writer, h⟩ | ⟨hl, e, h⟩
   · rw [h]
     refine .inr ⟨hl, writer, ?_⟩
     dsimp only [withManager, withDisk]
     by_cases hf : w.manager.flushed = true
     · refine .inr ⟨w.disk, .inl ⟨hf, rfl⟩, ?_⟩
       cases ha : appendLines w.disk path
        ((w.manager.fileEntries.drop start).map fun line => linesOf [line]) env.lines with
       | mk failure disk' => exact ⟨failure, disk', rfl, by simp only [hf, if_true, ha]; rfl⟩
     · have hf : w.manager.flushed = false := by simpa using hf
       cases hd : createNew w.disk path (linesOf (w.manager.fileEntries.take start)) env.create with
       | mk done disk =>
        cases done with
        | true =>
         refine .inr ⟨disk, .inr ⟨hf, rfl⟩, ?_⟩
         cases ha : appendLines disk path
          ((w.manager.fileEntries.drop start).map fun line => linesOf [line])
          env.lines with
         | mk failure disk' => exact ⟨failure, disk', rfl, by simp [hf, -List.map_drop, ha]⟩
        | false => exact .inl ⟨hf, disk, rfl, by simp [hf]⟩
   · rw [h]
     exact .inl ⟨hl, e, rfl, rfl⟩

theorem persistGroup_same (start : Nat) (forceCreate : Bool) :
 w.manager.SameSession (w.persistGroup env start forceCreate).2.manager := by
 rcases w.persistGroup_cases env start forceCreate with ⟨h, -⟩ | ⟨path, -, -, ⟨-, e, -, h⟩ |
  ⟨-, writer, ⟨-, disk, -, h⟩ | ⟨disk, -, failure, disk', -, h⟩⟩⟩ <;> rw [h]
 · exact .refl _
 · exact .refl _
 · exact ⟨writer, w.manager.flushed, rfl⟩
 · exact ⟨writer, true, rfl⟩

end World

end Bake.Session
