import Bake.Lib.Interleave
import Bake.Lib.OrdMap
import Bake.Lib.Utf8

/-!
# A JSON file updated under a lock

`JsonFileStore`: any number of updates of one file, in any number of processes, each a run of
system calls that may fail, with a crash between any two. Each takes the operating system's
lock on a sibling file, removes the temporary files dead writers left, reads the file, applies
its change and replaces the file by renaming a new temporary one over it. The lock is
exclusive and ends with its holder. The path names a file, and what is not JSON text (owners,
permissions, the directory's flush) has no effect but its failures.
-/

namespace Bake.Store

/-- What is at a path. -/
inductive Node where
 | file (bytes : List UInt8)
 /-- A directory, a link or a device. -/
 | other
 deriving DecidableEq

/-- What an operation was done to. -/
inductive Target where
 | dir
 | lockFile
 | data
 | temp (suffix : String)
 deriving DecidableEq

/-- `StoreError`, without the one reported as a value. -/
inductive StoreError where
 | io (operation : String) (target : Target)
 | locked
 | refused (reason : String)
 deriving DecidableEq

structure Updated (Obj : Type) where
 object : Obj
 /-- The file was replaced but its directory could not be flushed. -/
 unsynced : Bool

/-- JSON objects and their texts. A text printed has no byte-order mark, and is read back, if
it is not nested too deep for that, as what was printed. -/
structure Codec (Obj : Type) where
 /-- `serde_json::from_str`, with no object for another value. -/
 fromStr : List Char → Except String (Option Obj)
 toStringPretty : Obj → Except String (List Char)
 empty : Obj
 noMark : ∀ o text, toStringPretty o = .ok text → text.head? ≠ some '\uFEFF'
 roundTrip : ∀ o text o', toStringPretty o = .ok text → fromStr text = .ok (some o') → o' = o

/-- A store's limit and what an update does to the object, with whether that changed it. -/
structure Update (Obj : Type) where
 limit : Nat
 change : Obj → Obj × Bool

variable {Obj : Type}

def fromUtf8 (bytes : List UInt8) : Option (List Char) :=
 if Utf8.encode (Utf8.lossy bytes) = bytes then some (Utf8.lossy bytes) else none

def stripBom (text : List Char) : List Char :=
 match text with
 | '\uFEFF' :: rest => rest
 | text => text

namespace Codec

variable (codec : Codec Obj)

def parseObject (text : List Char) : Except String Obj :=
 match codec.fromStr (stripBom text) with
 | .ok (some object) => .ok object
 | .ok none => .error "expected a JSON object"
 | .error error => .error error

/-- The object of a file's bytes. -/
def read (bytes : List UInt8) : Except String Obj :=
 match fromUtf8 bytes with
 | none => .error "it is not UTF-8"
 | some text => codec.parseObject text

end Codec

inductive Place (Obj : Type) where
 /-- `lock`. -/
 | makeDir (u : Update Obj)
 | openLock (u : Update Obj)
 | tryLock (u : Update Obj)
 /-- `remove_orphans`. -/
 | listOrphans (u : Update Obj)
 | removeOrphans (u : Update Obj) (suffixes : List String)
 /-- `read_current`. -/
 | inspect (u : Update Obj)
 | openData (u : Update Obj)
 | inspectHandle (u : Update Obj) (node : Node)
 | readHandle (u : Update Obj) (bytes : List UInt8)
 | check (u : Update Obj) (bytes : List UInt8)
 /-- `replace`, with whether there is access to keep. -/
 | nameTemp (u : Update Obj) (object : Obj) (text : List Char) (original : Bool)
 | createTemp (u : Update Obj) (object : Obj) (text : List Char) (original : Bool)
  (suffix : String)
 | keepAccess (u : Update Obj) (object : Obj) (text : List Char) (suffix : String)
 | write (u : Update Obj) (object : Obj) (suffix : String) (left : List UInt8)
 | sync (u : Update Obj) (object : Obj) (suffix : String)
 | rename (u : Update Obj) (object : Obj) (suffix : String)
 | syncDir (u : Update Obj) (object : Obj)
 /-- The temporary file's drop. -/
 | dropTemp (u : Update Obj) (suffix : String) (error : StoreError)
 /-- The lock's drop. -/
 | unlock (u : Update Obj) (outcome : Except StoreError (Updated Obj))
 | returned (u : Update Obj) (outcome : Except StoreError (Updated Obj))
 | dead (u : Update Obj)

/-- The temporary file an update has, until it renames or removes it. -/
def Place.temp : Place Obj → Option String
 | .keepAccess _ _ _ suffix | .write _ _ suffix _ | .sync _ _ suffix | .rename _ _ suffix
 | .dropTemp _ suffix _ => some suffix
 | _ => none

/-- How a system call turns out. -/
inductive Answer where
 | go
 | fail
 /-- The caller's check, or the platform, refuses. -/
 | refuse (reason : String)
 /-- The wait for the lock is over. -/
 | timeout
 /-- The entries a directory's listing came to. -/
 | entries (suffixes : List String)
 /-- The random suffix of a name. -/
 | suffix (suffix : String)
 /-- The bytes one write took. -/
 | wrote (count : Nat)
 | crash

/-- The directory. The updates that took the lock and those that renamed their file over the
data, each with its change, are kept in order for the statements. -/
structure Disk (Obj : Type) where
 data : Option Node
 /-- The temporary files by the suffix of their name. -/
 temps : List (String × List UInt8)
 lock : Option Nat
 locked : List Nat
 commits : List (Nat × (Obj → Obj × Bool))

namespace Disk

variable (codec : Codec Obj) (s : Disk Obj)

/-- `update_checked` behind the read: the change, and the text it comes to. -/
def changed (u : Update Obj) (object : Obj) (original : Bool) : Place Obj :=
 if (u.change object).2 then
  match codec.toStringPretty (u.change object).1 with
  | .error error => .unlock u (.error (.refused ("it cannot be serialized: " ++ error)))
  | .ok text =>
   if u.limit < (Utf8.encode text).length then
    .unlock u (.error (.refused
     ("the result would be larger than " ++ toString u.limit ++ " bytes")))
   else .nameTemp u (u.change object).1 text original
 else .unlock u (.ok { object := (u.change object).1, unsynced := false })

def tooLarge (u : Update Obj) : StoreError :=
 .refused ("it is larger than " ++ toString u.limit ++ " bytes")

def notRegular : StoreError := .refused "it is not a regular file"

def release (t : Nat) : Disk Obj := if s.lock = some t then { s with lock := none } else s

/-- One system call of an update. -/
def next (t : Nat) : Place Obj → Answer → Option (Disk Obj × Place Obj)
 | .returned _ _, _ | .dead _, _ => none
 | .makeDir u, .go => some (s, .openLock u)
 | .makeDir u, .fail => some (s, .returned u (.error (.io "create the directory" .dir)))
 | .openLock u, .go => some (s, .tryLock u)
 | .openLock u, .fail => some (s, .returned u (.error (.io "open the lock file" .lockFile)))
 | .tryLock u, .go =>
  -- `WouldBlock` pauses and tries again
  if s.lock = none then
   some ({ s with lock := some t, locked := s.locked ++ [t] }, .listOrphans u)
  else some (s, .tryLock u)
 | .tryLock u, .fail => some (s, .returned u (.error (.io "lock" .lockFile)))
 | .tryLock u, .timeout => some (s, .returned u (.error .locked))
 | .listOrphans u, .entries suffixes => some (s, .removeOrphans u suffixes)
 | .listOrphans u, .fail => some (s, .inspect u)
 | .removeOrphans u [], .go => some (s, .inspect u)
 | .removeOrphans u (suffix :: rest), .go =>
  some ({ s with temps := OrdMap.erase s.temps suffix }, .removeOrphans u rest)
 | .removeOrphans u (_ :: rest), .fail => some (s, .removeOrphans u rest)
 | .inspect u, .go =>
  match s.data with
  | none => some (s, changed codec u codec.empty false)
  | some .other => some (s, .unlock u (.error notRegular))
  | some (.file bytes) =>
   if u.limit < bytes.length then some (s, .unlock u (.error (tooLarge u)))
   else some (s, .openData u)
 | .inspect u, .fail => some (s, .unlock u (.error (.io "inspect" .data)))
 | .openData u, .go =>
  match s.data with
  | none => some (s, .unlock u (.error (.io "open for reading and writing" .data)))
  | some node => some (s, .inspectHandle u node)
 | .openData u, .fail =>
  some (s, .unlock u (.error (.io "open for reading and writing" .data)))
 | .inspectHandle u (.file bytes), .go => some (s, .readHandle u bytes)
 | .inspectHandle u .other, .go => some (s, .unlock u (.error notRegular))
 | .inspectHandle u _, .fail => some (s, .unlock u (.error (.io "inspect" .data)))
 | .readHandle u bytes, .go =>
  -- a handle keeps the bytes of the file it opened
  let bytes := bytes.take (u.limit + 1)
  if u.limit < bytes.length then some (s, .unlock u (.error (tooLarge u)))
  else some (s, .check u bytes)
 | .readHandle u _, .fail => some (s, .unlock u (.error (.io "read" .data)))
 | .check u _, .refuse reason => some (s, .unlock u (.error (.refused reason)))
 | .check u bytes, .go =>
  match codec.read bytes with
  | .error reason => some (s, .unlock u (.error (.refused reason)))
  | .ok object => some (s, changed codec u object true)
 | .nameTemp u object text original, .suffix suffix =>
  some (s, .createTemp u object text original suffix)
 | .nameTemp u _ _ _, .fail =>
  some (s, .unlock u (.error (.io "name a temporary file for" .data)))
 | .createTemp u object text original suffix, .go =>
  if suffix ∈ OrdMap.keys s.temps then
   some (s, .unlock u (.error (.io "create" (.temp suffix))))
  else
   some ({ s with temps := OrdMap.insert s.temps suffix [] },
    if original then .keepAccess u object text suffix
    else .write u object suffix (Utf8.encode text))
 | .createTemp u _ _ _ suffix, .fail =>
  some (s, .unlock u (.error (.io "create" (.temp suffix))))
 | .keepAccess u object text suffix, .go => some (s, .write u object suffix (Utf8.encode text))
 | .keepAccess u _ _ suffix, .fail =>
  some (s, .dropTemp u suffix (.io "set the permissions of" (.temp suffix)))
 | .keepAccess u _ _ suffix, .refuse reason => some (s, .dropTemp u suffix (.refused reason))
 | .write u object suffix [], .go => some (s, .sync u object suffix)
 | .write u object suffix left, .wrote count =>
  match OrdMap.get? s.temps suffix with
  -- a file that was removed takes the bytes under no name
  | none => some (s, .write u object suffix (left.drop count))
  | some written =>
   some ({ s with temps := OrdMap.insert s.temps suffix (written ++ left.take count) },
    .write u object suffix (left.drop count))
 | .write u _ suffix _, .fail => some (s, .dropTemp u suffix (.io "write" (.temp suffix)))
 | .sync u object suffix, .go => some (s, .rename u object suffix)
 | .sync u _ suffix, .fail => some (s, .dropTemp u suffix (.io "flush" (.temp suffix)))
 | .rename u object suffix, .go =>
  match OrdMap.get? s.temps suffix with
  | none => some (s, .dropTemp u suffix (.io "replace" .data))
  | some bytes =>
   some ({ s with
    data := some (.file bytes)
    temps := OrdMap.erase s.temps suffix
    commits := s.commits ++ [(t, u.change)] },
    .syncDir u object)
 | .rename u _ suffix, .fail => some (s, .dropTemp u suffix (.io "replace" .data))
 | .syncDir u object, .go => some (s, .unlock u (.ok { object := object, unsynced := false }))
 | .syncDir u object, .fail => some (s, .unlock u (.ok { object := object, unsynced := true }))
 | .dropTemp u suffix error, .go =>
  some ({ s with temps := OrdMap.erase s.temps suffix }, .unlock u (.error error))
 | .dropTemp u _ error, .fail => some (s, .unlock u (.error error))
 | .unlock u outcome, .go => some (s.release t, .returned u outcome)
 | .makeDir u, .crash | .openLock u, .crash | .tryLock u, .crash | .listOrphans u, .crash
 | .removeOrphans u _, .crash | .inspect u, .crash | .openData u, .crash
 | .inspectHandle u _, .crash | .readHandle u _, .crash | .check u _, .crash
 | .nameTemp u _ _ _, .crash | .createTemp u _ _ _ _, .crash | .keepAccess u _ _ _, .crash
 | .write u _ _ _, .crash | .sync u _ _, .crash | .rename u _ _, .crash | .syncDir u _, .crash
 | .dropTemp u _ _, .crash | .unlock u _, .crash => some (s.release t, .dead u)
 | _, _ => none

end Disk

/-- Updates of one file: each begins by making the directory. -/
def updates (codec : Codec Obj) : Interleave.Program (Disk Obj) (Place Obj) Answer Empty where
 entry
  | .makeDir _ => true
  | _ => false
 next := fun s t place answer => s.next codec t place answer
 act := fun s _ => s

/-- No update has begun. -/
def Begins (start : Option Node) (s : Disk Obj) : Prop :=
 s.data = start ∧ s.lock = none ∧ s.locked = [] ∧ s.commits = []

end Bake.Store
