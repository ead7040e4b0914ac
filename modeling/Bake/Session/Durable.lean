import Bake.Session.File

/-!
# Durable writes

An append writes the whole entry with one `write_all`. When the file does not end
in a newline, as after a writer was killed in the middle of one, the entry is
preceded by one, so a torn line stays a line of its own.

A write can fail before the file is opened, behind that, after any of its bytes,
and when it is synced. How it ends is given to each function; the disk it leaves
is what the source leaves there.
-/

namespace Bake.Session

def lineBytes (line : List Char) : Bytes := Utf8.encode line ++ [Lines.newline]

/-- What `append` writes to put `bytes` on a line of their own. -/
def appendOut (file bytes : Bytes) : Bytes := Lines.separator file ++ bytes

/-- The files, by path. -/
abbrev Disk := String → Option Bytes

def Disk.set (disk : Disk) (path : String) (file : Bytes) : Disk :=
 fun p => if p = path then some file else disk p

@[simp] theorem Disk.set_self (disk : Disk) (path : String) (file : Bytes) :
 disk.set path file path = some file := if_pos rfl

theorem Disk.set_ne (disk : Disk) {path p : String} (file : Bytes) (h : p ≠ path) :
 disk.set path file p = disk p := if_neg h

inductive WriteOutcome where
 | ok
 /-- The file is not opened. -/
 | notOpened
 /-- The file is opened, and created when it was missing; nothing is written. -/
 | notWritten
 /-- The first `n` bytes are written. -/
 | torn (n : Nat)
 /-- All bytes are written, and syncing them fails. -/
 | unsynced
deriving DecidableEq

/-- The bytes a write that ends so puts in the file, when it is opened. -/
def WriteOutcome.written (bytes : Bytes) : WriteOutcome → Option Bytes
 | .ok | .unsynced => some bytes
 | .notOpened => none
 | .notWritten => some []
 | .torn n => some (bytes.take n)

/-- `append`: whether it succeeds, and the disk. -/
def append (disk : Disk) (path : String) (bytes : Bytes) (outcome : WriteOutcome) : Bool × Disk :=
 let file := (disk path).getD []
 match outcome.written (appendOut file bytes) with
 | some written => (outcome = .ok, disk.set path (file ++ written))
 | none => (false, disk)

/-- `create_new`: the file must not exist. -/
def createNew (disk : Disk) (path : String) (bytes : Bytes) (outcome : WriteOutcome) :
 Bool × Disk :=
 match disk path, outcome.written bytes with
 | none, some written => (outcome = .ok, disk.set path written)
 | _, _ => (false, disk)

/-- How a rewrite ends. -/
inductive ReplaceOutcome where
 | ok
 /-- It fails, and the file is as it was. -/
 | kept
 /-- It fails in place: the file holds the first `n` of the new bytes. -/
 | torn (n : Nat)
deriving DecidableEq

def replace (disk : Disk) (path : String) (bytes : Bytes) : ReplaceOutcome → Bool × Disk
 | .ok => (true, disk.set path bytes)
 | .kept => (false, disk)
 | .torn n => (false, disk.set path (bytes.take n))

/-! ## Groups of lines -/

/-- What happened to the line a group append stopped at. -/
inductive FailedLine where
 /-- No byte of it reached the file. -/
 | notWritten
 /-- Some of its bytes may be in the file, without its newline. -/
 | torn
 /-- All of its bytes were written but syncing them failed. -/
 | unsynced
deriving DecidableEq, Repr

/-- Why `append_lines` stopped. -/
structure LinesFailure where
 synced : Nat
 line : FailedLine
deriving DecidableEq, Repr

/-- How writing one line fails: after some of its bytes, or when it is synced. -/
inductive LineFault where
 | torn (n : Nat)
 | unsynced
deriving DecidableEq

/-- The bytes of the line in the file: an error of the write leaves at least one
out. -/
def LineFault.written (line : Bytes) : LineFault → Bytes
 | .torn n => line.take (min n (line.length - 1))
 | .unsynced => line

def LineFault.failed (line : Bytes) : LineFault → FailedLine
 | .torn n => if min n (line.length - 1) = 0 then .notWritten else .torn
 | .unsynced => .unsynced

/-- How a group append ends. -/
inductive LinesOutcome where
 | ok
 /-- The file is not opened. -/
 | notOpened
 /-- The file is opened, and created when it was missing; its end is not read, or
  the separating newline not written. -/
 | notStarted
 | atLine (index : Nat) (fault : LineFault)
deriving DecidableEq

/-- The lines from `index` on, behind what the file holds. -/
def writeLines (file : Bytes) (index : Nat) (outcome : LinesOutcome) :
 List Bytes → Option LinesFailure × Bytes
 | [] => (none, file)
 | line :: lines => match outcome with
  | .atLine i fault =>
   if i = index then (some ⟨index, fault.failed line⟩, file ++ fault.written line)
   else writeLines (file ++ line) (index + 1) outcome lines
  | _ => writeLines (file ++ line) (index + 1) outcome lines

/-- `append_lines`: why it stopped, when it did, and the disk. -/
def appendLines (disk : Disk) (path : String) (lines : List Bytes) (outcome : LinesOutcome) :
 Option LinesFailure × Disk :=
 let file := (disk path).getD []
 match outcome with
 | .notOpened => (some ⟨0, .notWritten⟩, disk)
 | .notStarted => (some ⟨0, .notWritten⟩, disk.set path file)
 | outcome =>
  let (failure, file) := writeLines (file ++ Lines.separator file) 0 outcome lines
  (failure, disk.set path file)

end Bake.Session
