import Bake.Session.Group
import Bake.Session.Opens

/-!
# A group append is all, nothing, or a prefix

The entries of a group are written in order, one synced line each. When the append
stops, the manager is cut back to what the file holds for certain: the entries whose
lines were synced. The line it stopped at may be in the file too, whole or in part.
-/

open List

namespace Bake.Session

open Bake.Json SessionManager Lines

/-! ## Writing lines -/

theorem LineFault.written_eq (fault : LineFault) (line : Bytes) :
 ∃ n, fault.written line = line.take n := by
 cases fault with
 | torn n => exact ⟨_, rfl⟩
 | unsynced => exact ⟨line.length, take_length.symm⟩

/-- Lines are written one behind the other, up to the one that fails. -/
theorem writeLines_spec (outcome : LinesOutcome) (lines : List Bytes) : ∀ (file : Bytes) (index : Nat),
 writeLines file index outcome lines = (none, file ++ lines.flatten)
 ∨ ∃ k line failed n, lines[k]? = some line ∧ writeLines file index outcome lines
   = (some ⟨index + k, failed⟩, file ++ ((lines.take k).flatten ++ line.take n)) := by
 induction lines with
 | nil => exact fun file _ => .inl (by simp [writeLines])
 | cons line lines ih =>
  intro file index
  have hnext : writeLines (file ++ line) (index + 1) outcome lines
   = (none, file ++ (line :: lines).flatten)
   ∨ ∃ k line' failed n, (line :: lines)[k]? = some line'
    ∧ writeLines (file ++ line) (index + 1) outcome lines = (some ⟨index + k, failed⟩,
     file ++ (((line :: lines).take k).flatten ++ line'.take n)) := by
   rcases ih (file ++ line) (index + 1) with h | ⟨k, line', failed, n, hk, h⟩
   · exact .inl (by rw [h]; simp)
   · refine .inr ⟨k + 1, line', failed, n, hk, ?_⟩
     rw [h, Nat.add_right_comm, Nat.add_assoc]
     simp
  cases outcome with
  | atLine i fault =>
   rw [writeLines]
   by_cases hi : i = index
   · rw [if_pos hi]
     obtain ⟨n, hn⟩ := fault.written_eq line
     exact .inr ⟨0, line, fault.failed line, n, rfl, by rw [hn]; rfl⟩
   · rw [if_neg hi]
     exact hnext
  | _ => exact hnext

/-- What a group append leaves of a file: all lines; or, when it stops, nothing new, or the
lines synced and the beginning of the next one. -/
theorem appendLines_spec (disk : Disk) (path : String) (lines : List Bytes) (hne : lines ≠ [])
 (outcome : LinesOutcome) :
 (∃ disk', appendLines disk path lines outcome = (none, disk')
  ∧ disk' path = some ((disk path).getD [] ++ (separator ((disk path).getD []) ++ lines.flatten)))
 ∨ ∃ k line failed disk', lines[k]? = some line
  ∧ appendLines disk path lines outcome = (some ⟨k, failed⟩, disk')
  ∧ ((k = 0 ∧ (disk' path).getD [] = (disk path).getD [])
   ∨ ∃ n, (disk' path).getD [] = (disk path).getD []
    ++ (separator ((disk path).getD []) ++ ((lines.take k).flatten ++ line.take n))) := by
 obtain ⟨first, rest, rfl⟩ := exists_cons_of_ne_nil hne
 have hwrite : ∀ outcome : LinesOutcome, outcome ≠ .notOpened → outcome ≠ .notStarted →
  appendLines disk path (first :: rest) outcome
   = ((writeLines ((disk path).getD [] ++ separator ((disk path).getD [])) 0 outcome
    (first :: rest)).1,
    disk.set path (writeLines ((disk path).getD [] ++ separator ((disk path).getD [])) 0
     outcome (first :: rest)).2) := by
  intro outcome h h'
  cases outcome with
  | notOpened => exact absurd rfl h
  | notStarted => exact absurd rfl h'
  | ok | atLine i fault => rfl
 by_cases ho : outcome = .notOpened
 · exact .inr ⟨0, first, .notWritten, disk, rfl, by rw [ho]; rfl, .inl ⟨rfl, rfl⟩⟩
 by_cases hs : outcome = .notStarted
 · exact .inr ⟨0, first, .notWritten, _, rfl, by rw [hs]; rfl, .inl ⟨rfl, by simp⟩⟩
 rw [hwrite outcome ho hs]
 rcases writeLines_spec outcome (first :: rest)
  ((disk path).getD [] ++ separator ((disk path).getD [])) 0 with
  h | ⟨k, line, failed, n, hk, h⟩ <;> rw [h]
 · exact .inl ⟨_, rfl, by rw [Disk.set_self, append_assoc]⟩
 · exact .inr ⟨k, line, failed, _, hk, by rw [Nat.zero_add], .inr ⟨n, by
    rw [Disk.set_self, Option.getD_some, append_assoc]⟩⟩

/-! ## Reading them -/

def readAs (entries : List SessionEntry) : List ParsedLine :=
 entries.filterMap fun entry => parseLine entry.toLine

theorem parsedLines_line {text : List Char} (h : '\n' ∉ text) (rest : Bytes) :
 parsedLines (lineBytes text ++ rest) = (parseLine text).toList ++ parsedLines rest := by
 unfold lineBytes parsedLines
 rw [append_assoc, singleton_append, split_line (newline_not_mem h),
  filterMap_cons, Utf8.lossy_encode]
 cases parseLine text <;> rfl

theorem parsedLines_linesOf {entries : List SessionEntry}
 (h : ∀ entry ∈ entries, (FileEntry.entry entry).LineRead) (rest : Bytes) :
 parsedLines (linesOf (entries.map FileEntry.entry) ++ rest) = readAs entries ++ parsedLines rest := by
 induction entries with
 | nil => rfl
 | cons entry entries ih =>
  have hline := (FileEntry.toLine_written (h entry (mem_cons_self ..))).2.2
  rw [map_cons, linesOf, flatMap_cons, append_assoc, parsedLines_line hline]
  rw [show (entries.map FileEntry.entry).flatMap (fun line => lineBytes line.toLine)
   = linesOf (entries.map FileEntry.entry) from rfl,
   ih fun e he => h e (mem_cons_of_mem _ he)]
  unfold readAs
  rw [filterMap_cons]
  show (parseLine entry.toLine).toList ++ _ = _
  cases parseLine entry.toLine <;> rfl

theorem lineRead_entryOf (pair : String × JsonObject) : (FileEntry.entry (entryOf pair)).LineRead :=
 fun _ h => absurd h (by simp [FileEntry.verbatim, entryOf])

/-! ## The kind of a failure -/

/-- The failure of a group append part-way. -/
def SessionError.isGroupWrite : SessionError → Bool
 | .groupWrite .. => true
 | _ => false

theorem holdWriter_error {w : World} {env : Env} {path : String} {e : SessionError}
 (h : (w.holdWriter env path).1 = .error e) : e.isGroupWrite = false := by
 unfold World.holdWriter at h
 dsimp only at h
 split at h
 · simp at h
 · split at h
   · injection h with h
     exact h ▸ rfl
   · split at h
     · simp at h
     · injection h with h
       exact h ▸ rfl
     · injection h with h
       exact h ▸ rfl

theorem pushGroup_error {env : Env} (entries : List GroupEntry) : ∀ {m : SessionManager} {k : Nat}
 {e : SessionError}, (m.pushGroup env k entries).2.1 = some e → e.isGroupWrite = false := by
 induction entries with
 | nil => intro m k e h; simp [pushGroup] at h
 | cons entry rest ih =>
  intro m k e h
  rw [pushGroup] at h
  cases hg : m.groupEntry env k entry with
  | ok pair =>
   rw [hg] at h
   exact ih h
  | error e' =>
   rw [hg] at h
   cases h
   cases entry with
   | contextEdit targetId replacement =>
    simp only [groupEntry, contextEdit] at hg
    split at hg
    · injection hg with hg
      exact hg ▸ rfl
    · split at hg
      · injection hg with hg
        exact hg ▸ rfl
      · split at hg
        · injection hg with hg
          exact hg ▸ rfl
        · simp at hg
   | _ =>
    simp [groupEntry] at hg

/-! ## The group append -/

namespace World

variable (w w' : World)

/-- A group is written at once: the file is there, or is to be created now. -/
def GroupDue (forceCreate : Bool) : Prop :=
 w.manager.flushed = true ∨ forceCreate = true ∨ w.manager.hasConversation = true

/-- What the file holds before the group: what is there, or, in a file still to be created,
the manager's lines. -/
def groupFile (path : String) : Bytes :=
 if w.manager.flushed then (w.disk path).getD [] else linesOf w.manager.fileEntries

/-- All entries are in memory, one chain from the old leaf to the new one, and in the file
when the group is due. -/
structure GroupStored (forceCreate : Bool) (new : List SessionEntry) : Prop where
 memory : (w.manager.withNew new).SameSession w'.manager
 chained : Chained w.manager.index.leafId new
 bytes : ∀ path, w.manager.target = some path → w.GroupDue forceCreate → new ≠ [] →
  w'.disk path = some (w.groupFile path
   ++ (separator (w.groupFile path) ++ linesOf (new.map FileEntry.entry)))
 lines : ∀ path, w.manager.target = some path → w.GroupDue forceCreate → new ≠ [] →
  parsedLines ((w'.disk path).getD []) = parsedLines (w.groupFile path) ++ readAs new
 later : w.manager.target = none ∨ ¬ w.GroupDue forceCreate → w'.disk = w.disk

/-- Memory is as it was, and the file has no line of the group. -/
structure GroupUntouched : Prop where
 memory : w.manager.SameSession w'.manager
 bytes : ∀ path, w.manager.target = some path → w'.disk path = w.disk path
  ∨ ∃ n, w'.disk path = some ((linesOf w.manager.fileEntries).take n)

/-- The first `k` entries are in memory and in the file, and of the next one at most its
line. -/
structure GroupStopped (path : String) (new : List SessionEntry) (k : Nat) : Prop where
 memory : (w.manager.withNew (new.take k)).SameSession w'.manager
 chained : Chained w.manager.index.leafId new
 bytes : ∃ rest, (w'.disk path).getD [] = w.groupFile path ++ rest
  ∧ ((k = 0 ∧ rest = []) ∨ ∃ entry n, new[k]? = some entry
   ∧ rest = separator (w.groupFile path) ++ (linesOf ((new.take k).map FileEntry.entry)
    ++ (lineBytes entry.toLine).take n))
 lines : ∃ last, parsedLines ((w'.disk path).getD [])
  = parsedLines (w.groupFile path) ++ (readAs (new.take k) ++ last)
  ∧ (last = [] ∨ ∃ entry, new[k]? = some entry ∧ last = readAs [entry])

end World

variable {new : List SessionEntry}

theorem hasConversation_withNew {m : SessionManager}
 (h : ∀ entry ∈ new, entry.entryType ≠ "message") :
 (m.withNew new).hasConversation = m.hasConversation := by
 have hnew : (new.map FileEntry.entry).any isConversation = false := by
  refine any_eq_false.mpr fun line hline => ?_
  obtain ⟨entry, hentry, rfl⟩ := mem_map.mp hline
  simp [isConversation, FileEntry.asEntry, SessionEntry.messageRole, h entry hentry]
 simp only [hasConversation, withNew, any_append, hnew, Bool.or_false]

theorem parsedLines_group (file : Bytes) (hr : ∀ entry ∈ new, (FileEntry.entry entry).LineRead)
 (rest : Bytes) :
 parsedLines (file ++ (separator file ++ (linesOf (new.map FileEntry.entry) ++ rest)))
  = parsedLines file ++ (readAs new ++ parsedLines rest) := by
 rw [parsedLines_append, parsedLines_linesOf hr]

theorem groupLines_spec {w : World} {disk : Disk} {path : String} (hne : new ≠ [])
 (hfile : (disk path).getD [] = w.groupFile path)
 (hr : ∀ entry ∈ new, (FileEntry.entry entry).LineRead) (outcome : LinesOutcome) :
 (∃ disk', appendLines disk path ((new.map FileEntry.entry).map fun line => linesOf [line]) outcome
  = (none, disk')
  ∧ disk' path = some (w.groupFile path
   ++ (separator (w.groupFile path) ++ linesOf (new.map FileEntry.entry)))
  ∧ parsedLines ((disk' path).getD []) = parsedLines (w.groupFile path) ++ readAs new)
 ∨ ∃ k failed disk', k < new.length
  ∧ appendLines disk path ((new.map FileEntry.entry).map fun line => linesOf [line]) outcome
   = (some ⟨k, failed⟩, disk')
  ∧ (∃ rest, (disk' path).getD [] = w.groupFile path ++ rest
   ∧ ((k = 0 ∧ rest = []) ∨ ∃ entry n, new[k]? = some entry
    ∧ rest = separator (w.groupFile path) ++ (linesOf ((new.take k).map FileEntry.entry)
     ++ (lineBytes entry.toLine).take n)))
  ∧ ∃ last, parsedLines ((disk' path).getD [])
   = parsedLines (w.groupFile path) ++ (readAs (new.take k) ++ last)
   ∧ (last = [] ∨ ∃ entry, new[k]? = some entry ∧ last = readAs [entry]) := by
 have hflat : ∀ entries : List SessionEntry,
  ((entries.map FileEntry.entry).map fun line => linesOf [line]).flatten
   = linesOf (entries.map FileEntry.entry) := by
  intro entries
  induction entries with
  | nil => rfl
  | cons entry entries ih =>
   rw [map_cons, map_cons, flatten_cons, ih]
   simp [linesOf]
 rcases appendLines_spec disk path ((new.map FileEntry.entry).map fun line => linesOf [line])
  (by simpa using hne) outcome with ⟨disk', ha, hd⟩ | ⟨k, line, failed, disk', hk, ha, hd⟩
 · rw [hfile, hflat] at hd
   refine .inl ⟨disk', ha, hd, ?_⟩
   have := parsedLines_group (w.groupFile path) hr []
   rw [append_nil, show parsedLines [] = [] from rfl, append_nil] at this
   rw [hd, Option.getD_some, this]
 obtain ⟨entry, hentry, rfl⟩ : ∃ entry, new[k]? = some entry ∧ line = lineBytes entry.toLine := by
  rw [getElem?_map, getElem?_map, Option.map_map, Option.map_eq_some_iff] at hk
  obtain ⟨entry, hentry, hl⟩ := hk
  exact ⟨entry, hentry, by rw [← hl]; simp [linesOf, FileEntry.toLine]⟩
 have hlen : k < new.length := (List.getElem_of_getElem? hentry).1
 rw [hfile] at hd
 refine .inr ⟨k, failed, disk', hlen, ha, ?_, ?_⟩
 · rcases hd with ⟨rfl, hd⟩ | ⟨n, hd⟩
   · exact ⟨[], by rw [hd, append_nil], .inl ⟨rfl, rfl⟩⟩
   · rw [← map_take, ← map_take, hflat] at hd
     exact ⟨_, hd, .inr ⟨entry, n, hentry, rfl⟩⟩
 rcases hd with ⟨rfl, hd⟩ | ⟨n, hd⟩
 · exact ⟨[], by rw [hd]; simp [readAs], .inl rfl⟩
 rw [← map_take, ← map_take, hflat] at hd
 obtain ⟨hv, hhead, hline⟩ := FileEntry.toLine_written (hr entry (mem_of_getElem? hentry))
 have hlast := parsedLines_take hv hhead hline n
 rw [hd, parsedLines_group _ fun e he => hr e (mem_of_mem_take he)]
 refine ⟨_, rfl, ?_⟩
 rw [show entry.toLine = (FileEntry.entry entry).toLine from rfl, hlast]
 split
 · refine .inr ⟨entry, hentry, ?_⟩
   show (parseLine entry.toLine).toList = [entry].filterMap _
   rw [filterMap_cons]
   cases parseLine entry.toLine <;> rfl
 · exact .inl rfl

end Bake.Session
