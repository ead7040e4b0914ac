import Bake.Lib.Run
import Bake.Session.Context
import Bake.Session.Durable
import Bake.Session.Migrate

/-!
# The session manager

A session is an append-only tree: every entry has an id and a parent, the leaf is
the current position, each append adds a child of the leaf and moves the leaf to
it. A persisted session's file is created once it holds a user or assistant
message; from then on each entry is appended as it is added.

What is outside the manager is given to each operation: the clock, the random
source, and how its writes, locks and reads end (`Env`). Paths are resolved.
-/

namespace Bake.Session

open Bake.Json

/-- Why an operation fails. -/
inductive SessionError where
 | io (path : String)
 | notASession (path : String)
 | invalidSessionId
 | entryNotFound (id : String)
 | notOnActiveBranch (id : String)
 | notEditable (id : String)
 | summaryMessage (role : String)
 /-- A group append stopped part-way: the ids written and synced, the group's
  length, and what happened to the next line. -/
 | groupWrite (path : String) (written : List String) (len : Nat) (failed : FailedLine)
 | locked (path : String)
 | writerClosed (path : String)

structure WriterLock where
 sessionFile : String
 /-- The session file itself is locked, so rewrites happen in place. -/
 inPlace : Bool
deriving DecidableEq

/-- The maps over the entries, and the leaf. -/
structure Index where
 /-- Entry ids to their place in the file entries, in first-seen order. -/
 byId : List (String × Nat)
 labelsById : List (String × String)
 labelTimestampsById : List (String × String)
 leafId : Option String
deriving DecidableEq

def Index.empty : Index := ⟨[], [], [], none⟩

structure SessionManager where
 sessionId : String
 sessionFile : Option String
 sessionDir : String
 cwd : String
 persist : Bool
 flushed : Bool
 fileEntries : List FileEntry
 index : Index
 /-- The writer lock of the session file, once taken. -/
 writer : Option WriterLock
 /-- No lock is taken again. -/
 writerClosed : Bool

/-- How taking a writer lock ends. -/
inductive LockOutcome where
 | taken (inPlace : Bool)
 /-- Another writer holds it. -/
 | held
 | failed
deriving DecidableEq

/-- How reading a session file ends. -/
inductive LoadOutcome where
 | ok
 /-- Its size or its header cannot be read. -/
 | candidate
 /-- It cannot be read, or its missing newline not be written. -/
 | read
 /-- Its size cannot be read afterwards. -/
 | size
deriving DecidableEq

/-- What an operation meets outside the manager. -/
structure Env where
 /-- The clock's readings, in milliseconds. -/
 clock : Nat → Int
 /-- What the random source draws for each entry id. -/
 draws : Nat → Draws
 /-- The UUID of a new session. -/
 uuid : String
 lock : LockOutcome
 create : WriteOutcome
 write : WriteOutcome
 lines : LinesOutcome
 replace : ReplaceOutcome
 load : LoadOutcome

structure World where
 manager : SessionManager
 disk : Disk

/-- What an operation returns, and what it leaves. -/
abbrev Result (α : Type) := Except SessionError α × World

structure NewSessionOptions where
 id : Option String := none
 parentSession : Option String := none

def sessionFileName (timestamp id : String) : String :=
 String.ofList (timestamp.toList.map fun c => if c = ':' ∨ c = '.' then '-' else c)
  ++ "_" ++ id ++ ".jsonl"

def joinPath (dir name : String) : String := dir ++ "/" ++ name

def linesOf (entries : List FileEntry) : Bytes := entries.flatMap fun line => lineBytes line.toLine

/-! ## The index -/

def Index.label (index : Index) (target : String) (label : Option String) (timestamp : String) :
 Index :=
 match label with
 | some label => { index with
  labelsById := OrdMap.insert index.labelsById target label
  labelTimestampsById := OrdMap.insert index.labelTimestampsById target timestamp }
 | none => { index with
  labelsById := OrdMap.erase index.labelsById target
  labelTimestampsById := OrdMap.erase index.labelTimestampsById target }

def Index.push (index : Index) (id : String) (place : Nat) : Index :=
 { index with byId := OrdMap.insert index.byId id place, leafId := some id }

def Index.line (index : Index) (line : FileEntry) (place : Nat) : Index :=
 match line.asEntry with
 | none => index
 | some entry =>
  let index := index.push entry.id place
  if entry.entryType ≠ "label" then index
  else match strMember entry.raw "targetId" with
   | none => index
   | some target =>
    if jsTruthy (entry.get "label") then
     index.label target (some (jsToStringMember (entry.get "label")))
      (entry.timestamp.getD "")
    else index.label target none ""

def buildIndex (entries : List FileEntry) : Index :=
 entries.zipIdx.foldl (fun index line => index.line line.1 line.2) Index.empty

namespace SessionManager

def entry (m : SessionManager) (id : String) : Option SessionEntry :=
 (OrdMap.get? m.index.byId id).bind fun place => (m.fileEntries[place]?).bind FileEntry.asEntry

def entries (m : SessionManager) : List SessionEntry := m.fileEntries.filterMap FileEntry.asEntry

def entryIndex (m : SessionManager) : EntryIndex :=
 m.index.byId.filterMap fun b => (m.entry b.1).map fun entry => (b.1, entry)

/-- The entries from the root to `fromId`, or to the leaf, of every type. -/
def branchEntries (m : SessionManager) (fromId : Option String) : List SessionEntry :=
 pathToRoot (((fromId.or m.index.leafId).filter (· ≠ "")).bind m.entry) m.entryIndex

def isConversation (line : FileEntry) : Bool :=
 match line.asEntry.bind SessionEntry.messageRole with
 | some role => role = "user" || role = "assistant"
 | none => false

def hasConversation (m : SessionManager) : Bool := m.fileEntries.any isConversation

/-- The context entries with the messages each contributes. -/
def buildSessionProjection (m : SessionManager) : SessionProjection :=
 projection m.entries (.ofLeaf m.index.leafId) (indexEntries m.entries)

/-- What the agent resumes with. -/
def buildSessionContext (m : SessionManager) : SessionContext :=
 let projection := m.buildSessionProjection
 { messages := projection.messages
   thinkingLevel := projection.thinkingLevel
   model := projection.model }

/-- `next_id`, the `k`-th of an operation. -/
def nextId (m : SessionManager) (env : Env) (k : Nat) : String :=
 generateEntryId (env.draws k) fun candidate => (OrdMap.get? m.index.byId candidate).isSome

/-- The parent a new entry names. -/
def leafValue (m : SessionManager) : Value :=
 match m.index.leafId with
 | some leaf => .string leaf
 | none => .null

/-- The members every entry has, without its type. -/
def baseMembers (m : SessionManager) (env : Env) (k : Nat) (id : String) : JsonObject :=
 [("id", .string id), ("parentId", m.leafValue),
  ("timestamp", .string (formatIso (env.clock k)))]

def base (m : SessionManager) (env : Env) (k : Nat) (entryType id : String) : JsonObject :=
 ("type", .string entryType) :: m.baseMembers env k id

/-- `push_entry`: an entry in memory as a child of the leaf; nothing is written. -/
def pushEntry (m : SessionManager) (id : String) (raw : JsonObject) : SessionManager :=
 { m with
   fileEntries := m.fileEntries ++ [.entry { id, raw }]
   index := m.index.push id m.fileEntries.length }

/-- Whether the lock of a path is held. -/
def holdsWriter (m : SessionManager) (path : String) : Bool :=
 m.writer.any fun writer => writer.sessionFile = path

def target (m : SessionManager) : Option String := if m.persist then m.sessionFile else none

end SessionManager

namespace World

def withManager (w : World) (manager : SessionManager) : World := { w with manager }

def withDisk (w : World) (disk : Disk) : World := { w with disk }

/-- `hold_writer`: take a path's writer lock unless it is already held. -/
def holdWriter (w : World) (env : Env) (path : String) : Result Unit :=
 let m := w.manager
 if m.persist = false ∨ m.holdsWriter path then (.ok (), w)
 else if m.writerClosed then (.error (.writerClosed path), w)
 else match env.lock with
  | .taken inPlace =>
   (.ok (), w.withManager { m with writer := some { sessionFile := path, inPlace } })
  | .held => (.error (.locked path), w)
  | .failed => (.error (.io path), w)

def rewriteFile (w : World) (env : Env) : Result Unit :=
 match w.manager.target with
 | none => (.ok (), w)
 | some path => match w.holdWriter env path with
  | (.error e, w) => (.error e, w)
  | (.ok (), w) =>
   let (done, disk) := replace w.disk path (linesOf w.manager.fileEntries) env.replace
   (if done then .ok () else .error (.io path), w.withDisk disk)

/-- `persist_last`: create the file when it is due, or append the last entry. -/
def persistLast (w : World) (env : Env) : Result Unit :=
 match w.manager.target with
 | none => (.ok (), w)
 | some path =>
  if w.manager.flushed = false then
   if w.manager.hasConversation = false then (.ok (), w)
   else match w.holdWriter env path with
    | (.error e, w) => (.error e, w)
    | (.ok (), w) =>
     let (done, disk) := createNew w.disk path (linesOf w.manager.fileEntries) env.create
     let w := w.withDisk disk
     if done then (.ok (), w.withManager { w.manager with flushed := true })
     else (.error (.io path), w)
  else match w.holdWriter env path with
   | (.error e, w) => (.error e, w)
   | (.ok (), w) => match w.manager.fileEntries.getLast? with
    | none => (.ok (), w)
    | some line =>
     let (done, disk) := append w.disk path (linesOf [line]) env.write
     (if done then .ok () else .error (.io path), w.withDisk disk)

/-- `append_entry`: the entry stays in memory when writing fails. -/
def appendEntry (w : World) (env : Env) (id : String) (raw : JsonObject) : Result String :=
 match (w.withManager (w.manager.pushEntry id raw)).persistLast env with
 | (.ok (), w) => (.ok id, w)
 | (.error e, w) => (.error e, w)

/-! ## Loading -/

/-- `start_session`: nothing is written and no lock released. -/
def startSession (w : World) (env : Env) (options : NewSessionOptions) : Result Unit :=
 if options.id.any fun id => !isValidSessionId id then (.error .invalidSessionId, w)
 else
  let m := w.manager
  let id := options.id.getD env.uuid
  let timestamp := formatIso (env.clock 0)
  (.ok (), w.withManager { m with
   sessionId := id
   fileEntries := [.header (.new id timestamp m.cwd options.parentSession)]
   index := .empty
   flushed := false
   sessionFile :=
    if m.persist then some (joinPath m.sessionDir (sessionFileName timestamp id))
    else m.sessionFile })

/-- `new_session`: the previous file's writer lock is released. -/
def newSession (w : World) (env : Env) (options : NewSessionOptions) : Result Unit :=
 match w.startSession env options with
 | (.error e, w) => (.error e, w)
 | (.ok (), w) =>
  (.ok (), if w.manager.persist then w.withManager { w.manager with writer := none } else w)

/-- `load_entries`: adopt lines, migrated, with the header's identity; lines without
a header get a new one. -/
def loadEntries (w : World) (env : Env) (lines : List Line) (options : NewSessionOptions) :
 Result Unit :=
 match lines.find? fun line => isSessionLine line.1 with
 | some header =>
  let (lines, migrated) := migrateLines env.draws lines
  let fileEntries := lines.map fun line => FileEntry.fromLine line.1 line.2
  let w := w.withManager { w.manager with
   sessionId := (strMember header.1 "id").getD ""
   fileEntries
   index := buildIndex fileEntries }
  if migrated then w.rewriteFile env else (.ok (), w)
 | none => match w.startSession env options with
  | (.error e, w) => (.error e, w)
  | (.ok (), w) =>
   let fileEntries := w.manager.fileEntries
    ++ lines.map fun line => FileEntry.fromLine line.1 line.2
   (.ok (), w.withManager { w.manager with fileEntries, index := buildIndex fileEntries })

/-- How far discovery reads for a header. -/
def maxSessionHeaderScanBytes : Nat := 1024 * 1024

/-- `is_session_candidate`: an empty file, or one whose first parsed line is a valid
header, as far as its header is looked for. -/
def isSessionCandidate (file : Bytes) : Bool :=
 let scanned := file.take maxSessionHeaderScanBytes
 -- past the limit a line counts only with its newline
 let lines := if file.length ≤ maxSessionHeaderScanBytes ∨ !Lines.isOpen scanned then
  Lines.split scanned
  else (Lines.split scanned).dropLast
 match (lines.filterMap fun line => parseLine (Utf8.lossy line)).head? with
 | some (.object object _) => isValidHeader object
 | some .other => false
 | none => file = [] || maxSessionHeaderScanBytes < file.length

/-- Take over a path: its writer lock when it is a session, else none. -/
def takeOver (w : World) (env : Env) (path : String) : Result Unit :=
 match w.disk path with
 | none => (.ok (), release w path)
 | some file =>
  if w.manager.persist = false then (.ok (), release w path)
  else if env.load = .candidate then (.error (.io path), w)
  else if isSessionCandidate file then w.holdWriter env path
  else (.ok (), release w path)
where
 /-- Release the lock of any other file. -/
 release (w : World) (path : String) : World :=
  if w.manager.writer.isSome ∧ !w.manager.holdsWriter path then
   w.withManager { w.manager with writer := none }
  else w

def setFile (w : World) (path : String) : World :=
 w.withManager { w.manager with sessionFile := some path }

def adoptFile (w : World) (env : Env) (path : String) : Result Unit :=
 let w := w.setFile path
 match w.disk path with
 | none => match w.startSession env {} with
  | (.error e, w) => (.error e, w)
  | (.ok (), w) => (.ok (), w.setFile path)
 | some file =>
  if env.load = .read then (.error (.io path), w)
  else
   let repair := if w.manager.holdsWriter path then Repair.held else .never
   let (lines, loaded) := loadObjects (some file) repair
   let w := w.withDisk (w.disk.set path (loaded.getD file))
   if lines = [] then
    if env.load = .size then (.error (.io path), w)
    else if file ≠ [] then (.error (.notASession path), w)
    else match w.startSession env {} with
     | (.error e, w) => (.error e, w)
     | (.ok (), w) => match (w.setFile path).rewriteFile env with
      | (.error e, w) => (.error e, w)
      | (.ok (), w) => (.ok (), w.withManager { w.manager with flushed := true })
   else match w.loadEntries env lines {} with
    | (.error e, w) => (.error e, w)
    | (.ok (), w) => (.ok (), w.withManager { w.manager with flushed := true })

/-- `set_session_file`: an existing session is loaded and migrated, an empty file
gets a header, a missing file becomes the path of a new session. -/
def setSessionFile (w : World) (env : Env) (path : String) : Result Unit :=
 match w.takeOver env path with
 | (.error e, w) => (.error e, w)
 | (.ok (), w) => w.adoptFile env path

/-- `construct`, given a session file or lines, or neither. -/
def construct (disk : Disk) (env : Env) (cwd sessionDir : String) (sessionFile : Option String)
 (persist : Bool) (options : NewSessionOptions) (preloaded : List Line)
 (writer : Option WriterLock) : Result Unit :=
 let w : World := {
  disk
  manager := {
   sessionId := ""
   sessionFile := none
   sessionDir, cwd, persist
   flushed := false
   fileEntries := []
   index := .empty
   writer
   writerClosed := false } }
 match sessionFile with
 | some path => w.setSessionFile env path
 | none => if preloaded = [] then w.newSession env options else w.loadEntries env preloaded options

/-- `close_writer`: release the lock and write nothing more. -/
def closeWriter (w : World) : World :=
 w.withManager { w.manager with writer := none, writerClosed := true }

end World

end Bake.Session
