import Bake.Lib.OrdMap
import Mathlib.Data.List.Infix
import Mathlib.Algebra.GroupWithZero.Nat

/-!
# Unpacking a release archive

`archive.rs`: the archive is read once to check every member and once to write it. What the
first pass refuses leaves the disk as it was; what the second one makes is `into` or lies in
it along a member's path. The first pass adds up the sizes the headers state and the second
one writes the contents, so the bound on what is written holds where no content is longer
than its header says.
-/

open List

namespace Bake.Update.Unpack

open OrdMap (get?)

abbrev Path := List String

/-- `Component` of a member's name; a part that is not valid UTF-8 has no text. -/
inductive Component where
 | normal (part : Option String)
 | curDir
 | parentDir
 | rootDir
 | drive

inductive EntryType where
 | regular
 | continuous
 | directory
 | other
 deriving DecidableEq

/-- A member of the archive: what its header states, and the content the reader gives, all of
it or up to where the stream breaks. -/
structure Entry where
 path : Option (List Component)
 entryType : EntryType
 size : Option Nat
 mode : Option Nat
 content : List UInt8
 whole : Bool

/-- `UpdateError`, by what its text says. -/
inductive UpdateError where
 | unopened
 | unreadable
 | empty
 | unreadableName
 | name (reason : String)
 | notPlain (path : Path)
 | tooLarge (mib : Nat)
 | create (path : Path)
 | write (path : Path)
 | setMode (path : Path)

inductive Node where
 | dir
 | file (content : List UInt8) (mode : Option Nat)

/-- The disk, the content bytes written to it, and what its next calls answer: one that
fails may have written some bytes before. -/
structure World where
 nodes : List (Path × Node)
 copied : Nat
 answers : List (Option Nat)

/-- What opening the archive gives: its members up to one that cannot be read. -/
abbrev Archive := Except UpdateError (List (Option Entry))

def u64Max : Nat := 2 ^ 64 - 1

/-- The loop of `member_path`. -/
def safePath : Path → List Component → Except UpdateError Path
 | safe, [] => .ok safe
 | _, .normal none :: _ => .error (.name "is not valid UTF-8")
 | safe, .normal (some part) :: rest => safePath (safe ++ [part]) rest
 | safe, .curDir :: rest => safePath safe rest
 | _, .parentDir :: _ => .error (.name "leaves the release directory")
 | _, .rootDir :: _ | _, .drive :: _ => .error (.name "is absolute")

def memberPath : Option (List Component) → Except UpdateError Path
 | none => .error .unreadableName
 | some components =>
  match safePath [] components with
  | .ok [] => .error (.name "is empty")
  | result => result

/-- The size the first pass counts; no type but these is unpacked. -/
def Entry.counted (e : Entry) : Option Nat :=
 match e.entryType with
 | .regular | .continuous => some (e.size.getD 0)
 | .directory => some 0
 | .other => none

def readMembers (maxUnpacked : Nat) : Nat → Nat → List (Option Entry) → Except UpdateError Nat
 | count, _, [] => .ok count
 | _, _, none :: _ => .error .unreadable
 | count, total, some e :: rest =>
  match memberPath e.path, e.counted with
  | .error error, _ => .error error
  | .ok path, none => .error (.notPlain path)
  | .ok _, some size =>
   if min (total + size) u64Max > maxUnpacked then
    .error (.tooLarge (maxUnpacked / (1024 * 1024)))
   else readMembers maxUnpacked (count + 1) (min (total + size) u64Max) rest

def World.answer (w : World) : Option Nat := w.answers.head?.join

/-- Behind a call. -/
def World.next (w : World) : World := { w with answers := w.answers.tail }

/-- The steps of `create_dir_all`, the outermost directory first. -/
def createDirs : World → List Path → Bool × World
 | w, [] => (true, w)
 | w, path :: rest =>
  match get? w.nodes path, w.answer with
  | some .dir, _ => createDirs w rest
  | some (.file ..), _ => (false, w)
  | none, some _ => (false, w.next)
  | none, none =>
   createDirs { w.next with nodes := OrdMap.insert w.nodes path .dir } rest

def createDir (w : World) (path : Path) : Except UpdateError Unit × World :=
 match createDirs w path.inits.tail with
 | (true, w) => (.ok (), w)
 | (false, w) => (.error (.create path), w)

/-- `set_mode`. -/
def fileMode (mode : Nat) : Nat := if mode &&& 0o111 = 0 then 0o644 else 0o755

/-- A file is there, with so much of a content copied to it. -/
def World.copy (w : World) (path : Path) (content : List UInt8) (mode : Option Nat) : World :=
 { w with
   nodes := OrdMap.insert w.nodes path (.file content mode)
   copied := w.copied + content.length }

/-- `File::create`, `io::copy` and `set_mode` for a member. -/
def writeFile (w : World) (path : Path) (e : Entry) : Except UpdateError Unit × World :=
 match get? w.nodes path, w.answer with
 | some .dir, _ | _, some _ => (.error (.write path), w.next)
 | _, none =>
  match w.next.answer, e.whole with
  | some written, _ =>
   (.error (.write path), w.next.next.copy path (e.content.take written) none)
  | none, false => (.error .unreadable, w.next.next.copy path e.content none)
  | none, true =>
   match w.next.next.answer with
   | some _ => (.error (.setMode path), w.next.next.copy path e.content none)
   | none => (.ok (), w.next.next.copy path e.content (some (fileMode (e.mode.getD 0o644))))

/-- The body of the loop of `write_members`. -/
def writeMember (into : Path) (w : World) (e : Entry) : Except UpdateError Unit × World :=
 match memberPath e.path with
 | .error error => (.error error, w)
 | .ok relative =>
  if e.entryType = .directory then createDir w (into ++ relative)
  else match createDir w (into ++ relative).dropLast with
   | (.ok (), w) => writeFile w (into ++ relative) e
   | failed => failed

def writeMembers (into : Path) : World → List (Option Entry) → Except UpdateError Unit × World
 | w, [] => (.ok (), w)
 | w, none :: _ => (.error .unreadable, w)
 | w, some e :: rest =>
  match writeMember into w e with
  | (.ok (), w) => writeMembers into w rest
  | failed => failed

def extractWithin (archive : Archive) (into : Path) (maxUnpacked : Nat) (w : World) :
 Except UpdateError Unit × World :=
 match archive with
 | .error error => (.error error, w)
 | .ok entries =>
  match readMembers maxUnpacked 0 0 entries with
  | .error error => (.error error, w)
  | .ok 0 => (.error .empty, w)
  | .ok _ =>
   match createDir w into with
   | (.ok (), w) => writeMembers into w entries
   | failed => failed

/-! ## What is made -/

variable {into path : Path} {entries : List (Option Entry)} {w w' : World} {e : Entry}

/-- What is made at a place: `into` and the directories around it, and what lies in it along
the path of a member, a file only at its end. -/
def Made (into : Path) (entries : List (Option Entry)) (path : Path) (node : Option Node) : Prop :=
 path <+: into ∧ node = some .dir
 ∨ ∃ e relative rest, some e ∈ entries ∧ memberPath e.path = .ok relative ∧ rest <+: relative
  ∧ path = into ++ rest ∧ (node = some .dir ∨ rest = relative ∧ e.entryType ≠ .directory
   ∧ ∃ content mode, node = some (.file content mode))

/-- Nothing else changes on the disk. -/
def Confined (into : Path) (entries : List (Option Entry)) (w w' : World) : Prop :=
 ∀ path, get? w'.nodes path = get? w.nodes path ∨ Made into entries path (get? w'.nodes path)

theorem Confined.trans {w'' : World} (h : Confined into entries w w')
 (h' : Confined into entries w' w'') : Confined into entries w w'' := by
 intro path
 rcases h' path with heq | hmade
 · rw [heq]
   exact h path
 · exact .inr hmade

theorem confined_insert {node : Node} (hmade : Made into entries path (some node))
 (hw : w'.nodes = OrdMap.insert w.nodes path node) : Confined into entries w w' := by
 intro q
 rw [hw]
 by_cases hq : path = q
 · subst hq
   rw [OrdMap.get?_insert_self]
   exact .inr hmade
 · exact .inl (OrdMap.get?_insert_ne _ _ hq)

theorem createDirs_spec (w : World) (paths : List Path)
 (hmade : ∀ path ∈ paths, Made into entries path (some .dir)) :
 Confined into entries w (createDirs w paths).2 ∧ (createDirs w paths).2.copied = w.copied := by
 induction paths generalizing w with
 | nil => exact ⟨fun _ => .inl rfl, rfl⟩
 | cons first rest ih =>
  have hrest := fun v => ih v fun path hpath => hmade path (mem_cons_of_mem _ hpath)
  rw [createDirs]
  split
  · exact hrest w
  · exact ⟨fun _ => .inl rfl, rfl⟩
  · exact ⟨fun _ => .inl rfl, rfl⟩
  · exact ⟨(confined_insert (hmade first mem_cons_self) rfl).trans (hrest _).1, (hrest _).2⟩

theorem createDir_spec (w : World) (hmade : ∀ q, q <+: path → Made into entries q (some .dir)) :
 Confined into entries w (createDir w path).2 ∧ (createDir w path).2.copied = w.copied := by
 have h := createDirs_spec w path.inits.tail fun q hq =>
  hmade q ((mem_inits ..).mp (mem_of_mem_tail hq))
 rw [createDir]
 split <;> (rename_i heq; rw [heq] at h; exact h)

theorem writeFile_spec (w : World)
 (hmade : ∀ content mode, Made into entries path (some (.file content mode))) :
 Confined into entries w (writeFile w path e).2
 ∧ ((writeFile w path e).1 = .ok () →
  (writeFile w path e).2.copied = w.copied + e.content.length) := by
 rw [writeFile]
 split
 · exact ⟨fun _ => .inl rfl, by simp⟩
 · exact ⟨fun _ => .inl rfl, by simp⟩
 · split
   · exact ⟨confined_insert (hmade _ _) rfl, by simp⟩
   · exact ⟨confined_insert (hmade _ _) rfl, by simp⟩
   · split
     · exact ⟨confined_insert (hmade _ _) rfl, by simp⟩
     · exact ⟨confined_insert (hmade _ _) rfl, fun _ => rfl⟩

def Entry.written (e : Entry) : Nat :=
 if e.entryType = .directory then 0 else e.content.length

theorem writeMember_spec (w : World) (hmem : some e ∈ entries) :
 Confined into entries w (writeMember into w e).2
 ∧ ((writeMember into w e).1 = .ok () →
  (writeMember into w e).2.copied = w.copied + e.written) := by
 rw [writeMember]
 cases hpath : memberPath e.path with
 | error error => exact ⟨fun _ => .inl rfl, by simp⟩
 | ok relative =>
  -- a place on the way lies around `into` or in it along the member's path
  have hway : ∀ q, q <+: into ++ relative → Made into entries q (some .dir) := by
   intro q hq
   rcases Nat.le_total q.length into.length with hle | hle
   · exact .inl ⟨prefix_of_prefix_length_le hq ( prefix_append ..) hle, rfl⟩
   · obtain ⟨rest, rfl⟩ := prefix_of_prefix_length_le ( prefix_append into relative) hq hle
     exact .inr ⟨e, relative, rest, hmem, hpath, (prefix_append_right_inj into).mp hq, rfl,
      .inl rfl⟩
  simp only
  split
  next hdir =>
   rw [Entry.written, if_pos hdir]
   exact (createDir_spec w hway).imp id fun h _ => h
  next hdir =>
   have hparent := createDir_spec w fun q hq =>
    hway q (hq.trans ( dropLast_prefix (into ++ relative)))
   rw [Entry.written, if_neg hdir]
   split
   next w' heq =>
    rw [heq] at hparent
    have hfile : ∀ content mode, Made into entries (into ++ relative)
     (some (.file content mode)) := fun content mode => .inr ⟨e, relative, relative,
     hmem, hpath, prefix_refl _, rfl, .inr ⟨rfl, hdir, content, mode, rfl⟩⟩
    obtain ⟨hconfined, hcopied⟩ := writeFile_spec (e := e) w' hfile
    exact ⟨hparent.1.trans hconfined, fun h => (hcopied h).trans (congrArg (· + _) hparent.2)⟩
   next hnot =>
    exact ⟨hparent.1, fun h => (hnot _ (Prod.ext h rfl)).elim⟩

/-! ## What is accepted -/

/-- The sizes the headers of regular members state. -/
def sizes (entries : List (Option Entry)) : Nat :=
 (entries.map fun x => (x.bind Entry.counted).getD 0).sum

theorem writeMembers_spec (rest : List (Option Entry)) (w : World) (hsub : rest ⊆ entries) :
 Confined into entries w (writeMembers into w rest).2
 ∧ ((∀ e, some e ∈ rest → e.written ≤ e.counted.getD 0) → (writeMembers into w rest).1 = .ok () →
  (writeMembers into w rest).2.copied ≤ w.copied + sizes rest) := by
 induction rest generalizing w with
 | nil => exact ⟨fun _ => .inl rfl, fun _ _ => Nat.le_add_right ..⟩
 | cons x rest ih =>
  cases x with
  | none => exact ⟨fun _ => .inl rfl, by simp [writeMembers]⟩
  | some e =>
   have hmember : Confined into entries _ _ ∧ _ := writeMember_spec w (hsub mem_cons_self)
   rw [writeMembers]
   split
   next w' heq =>
    rw [heq] at hmember
    obtain ⟨hrest, hsum⟩ := ih w' fun y hy => hsub (mem_cons_of_mem _ hy)
    refine ⟨hmember.1.trans hrest, fun hle h => ?_⟩
    have hone := hle e mem_cons_self
    have hall := hsum (fun e' he' => hle e' (mem_cons_of_mem _ he')) h
    have hcopied : w'.copied = w.copied + e.written := hmember.2 rfl
    have hsizes : sizes (some e :: rest) = e.counted.getD 0 + sizes rest := by simp [sizes]
    omega
   next hnot =>
    exact ⟨hmember.1, fun _ h => (hnot _ (Prod.ext h rfl)).elim⟩

/-- A member that can be read, has a path in the release, and is a file or a directory. -/
def Plain (x : Option Entry) : Prop := ∃ e relative size,
 x = some e ∧ memberPath e.path = .ok relative ∧ e.counted = some size

/-- No member is refused, and the sizes together are within the bound. -/
structure Accepted (maxUnpacked : Nat) (entries : List (Option Entry)) : Prop where
 members : ∀ x ∈ entries, Plain x
 bounded : min (sizes entries) u64Max ≤ maxUnpacked

theorem readMembers_accepts {maxUnpacked count total n : Nat} {rest : List (Option Entry)}
 (h : readMembers maxUnpacked count total rest = .ok n) (htotal : min total u64Max ≤ maxUnpacked) :
 (∀ x ∈ rest, Plain x) ∧ min (total + sizes rest) u64Max ≤ maxUnpacked := by
 induction rest generalizing count total with
 | nil => exact ⟨by simp, by simpa [sizes] using htotal⟩
 | cons x rest ih =>
  cases x with
  | none => cases h
  | some e =>
   rw [readMembers] at h
   split at h
   · cases h
   · cases h
   next relative size hpath hsize =>
    split at h
    · cases h
    · obtain ⟨hmembers, hbound⟩ := ih h (by omega)
      refine ⟨?_, ?_⟩
      · rintro x (_ | ⟨_, hx⟩)
        · exact ⟨e, relative, size, rfl, hpath, hsize⟩
        · exact hmembers x hx
      · have hsum : sizes (some e :: rest) = size + sizes rest := by simp [sizes, hsize]
        rw [hsum]
        omega

/-- A regular file `a` of one byte. -/
def oneByte (size : Nat) : Entry := ⟨some [.normal (some "a")], .regular, some size, none, [7], true⟩

end Bake.Update.Unpack
