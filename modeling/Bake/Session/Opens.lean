import Bake.Session.Crash
import Bake.Session.Frame

/-!
# What a session file opens with

A session file belongs to the session its first parsed line names. What is appended
to a file starts on a line of its own, so it never changes what the file opens with,
however the append ends.
-/

namespace Bake.Session

open Bake.Json

/-! ## Files written behind -/

/-- `file'` is `file` as it was, or with something behind it on lines of its own. -/
def Extends (file file' : Bytes) : Prop :=
 file' = file ∨ ∃ rest, file' = file ++ (Lines.separator file ++ rest)

variable {file : Bytes}

theorem Extends.parsedLines {file' : Bytes} (h : Extends file file') :
 ∃ more, parsedLines file' = parsedLines file ++ more := by
 rcases h with rfl | ⟨rest, rfl⟩
 · exact ⟨[], (List.append_nil _).symm⟩
 · exact ⟨_, parsedLines_append file rest⟩

theorem Extends.isPrefix {file' : Bytes} (h : Extends file file') : file <+: file' := by
 rcases h with rfl | ⟨rest, rfl⟩
 · exact List.prefix_refl _
 · exact List.prefix_append ..

theorem extends_take (file bytes : Bytes) (n : Nat) :
 Extends file (file ++ (appendOut file bytes).take n) := by
 unfold appendOut Lines.separator
 split
 next h =>
  cases n with
  | zero => exact .inl (by simp)
  | succ n =>
   refine .inr ⟨bytes.take n, ?_⟩
   rw [Lines.separator, if_pos h]
   rfl
 next h =>
  refine .inr ⟨bytes.take n, ?_⟩
  rw [Lines.separator, if_neg h]
  rfl

theorem append_extends (disk : Disk) (path : String) (bytes : Bytes) (outcome : WriteOutcome) :
 (append disk path bytes outcome).2 = disk ∨ ∃ file, Extends ((disk path).getD []) file
   ∧ (append disk path bytes outcome).2 = disk.set path file := by
 unfold append
 dsimp only
 generalize (disk path).getD [] = file
 cases outcome with
 | notOpened => exact .inl rfl
 | ok | unsynced => exact .inr ⟨_, .inr ⟨bytes, rfl⟩, rfl⟩
 | notWritten => exact .inr ⟨_, .inl (List.append_nil _), rfl⟩
 | torn n => exact .inr ⟨_, extends_take file bytes n, rfl⟩

theorem writeLines_prefix (lines : List Bytes) (outcome : LinesOutcome) : ∀ (file : Bytes)
 (index : Nat), file <+: (writeLines file index outcome lines).2 := by
 induction lines with
 | nil => exact fun _ _ => List.prefix_refl _
 | cons line lines ih =>
  intro file index
  have hnext := (List.prefix_append file line).trans (ih (file ++ line) (index + 1))
  cases outcome with
  | atLine i fault =>
   rw [writeLines]
   split
   · exact List.prefix_append ..
   · exact hnext
  | _ => exact hnext

theorem appendLines_extends (disk : Disk) (path : String) (lines : List Bytes)
 (outcome : LinesOutcome) :
 (appendLines disk path lines outcome).2 = disk ∨ ∃ file, Extends ((disk path).getD []) file
   ∧ (appendLines disk path lines outcome).2 = disk.set path file := by
 unfold appendLines
 generalize (disk path).getD [] = file
 have hwrite : ∃ file', Extends file file'
  ∧ disk.set path (writeLines (file ++ Lines.separator file) 0 outcome lines).2
   = disk.set path file' := by
  obtain ⟨rest, h⟩ := writeLines_prefix lines outcome (file ++ Lines.separator file) 0
  exact ⟨_, .inr ⟨rest, by rw [← h, List.append_assoc]⟩, rfl⟩
 cases outcome with
 | notOpened => exact .inl rfl
 | notStarted => exact .inr ⟨file, .inl rfl, rfl⟩
 | ok | atLine index fault => exact .inr hwrite

/-! ## Lines read -/

/-- The text kept for a line of a file was kept when the line was read. -/
theorem objects_lineRead {line : Line} (h : line ∈ objects file) :
 (FileEntry.fromLine line.1 line.2).LineRead := by
 obtain ⟨object, verbatim⟩ := line
 have hparsed : .object object verbatim ∈ parsedLines file := by
  unfold objects at h
  split at h
  · obtain ⟨parsed, hmem, ho⟩ := List.mem_filterMap.mp h
    cases parsed with
    | other => simp [ParsedLine.object?] at ho
    | object object' verbatim' =>
     simp only [ParsedLine.object?, Option.some.injEq, Prod.mk.injEq] at ho
     rwa [ho.1, ho.2] at hmem
  · simp at h
 obtain ⟨bytes, hbytes, hline⟩ := List.mem_filterMap.mp hparsed
 have hnl : '\n' ∉ Utf8.lossy bytes := by
  intro hn
  obtain ⟨b, hb, hv⟩ := Utf8.mem_lossy_ascii (by decide) (by decide) bytes hn
  have hb' : b = Lines.newline := UInt8.toNat_inj.mp (by rw [hv]; decide)
  exact Lines.newline_not_mem_split file bytes hbytes (hb' ▸ hb)
 have hverbatim : ∃ parsed, parseJsonLine (Utf8.lossy bytes) = some parsed
  ∧ parsed.verbatim = verbatim := by
  unfold parseLine at hline
  split at hline
  · simp at hline
  · split at hline
    · simp at hline
    next parsed hp =>
     refine ⟨parsed, hp, ?_⟩
     split at hline
     · simp at hline
     · split at hline <;> simp at hline
       · exact hline.2
 obtain ⟨parsed, hp, hv⟩ := hverbatim
 intro node hnode
 refine ⟨_, parsed, hnl, hp, ?_⟩
 rw [hv]
 unfold FileEntry.fromLine at hnode
 split at hnode
 · exact hnode
 · split at hnode
   · exact hnode
   · simp [FileEntry.verbatim] at hnode

end Bake.Session
