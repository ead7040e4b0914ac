import Bake.Session.Append

/-!
# Branched sessions

A branched session holds the path from the root to one leaf. Labels are entries of
the tree, and a path's labels are dropped: its other entries are chained past them,
a compaction that kept from a label keeps from the entry after it, and the labels of
the entries that stay are set again by new label entries at the end.
-/

namespace Bake.Session

open Bake.Json

/-- What has been taken of a path. -/
structure Rechained where
 kept : List SessionEntry := []
 /-- For a label dropped, the entry after it. -/
 replacementByLabel : List (String × String) := []
 /-- The labels since the last entry kept. -/
 pendingLabels : List String := []
 parent : Option String := none

/-- An id as a member, `null` for none. -/
def idValue (id : Option String) : Value := (id.map Value.string).getD .null

/-- Where a compaction keeps from once the labels are gone. -/
def redirect (replacementByLabel : List (String × String)) (id : String) (firstKept : Value) :
 Value :=
 match firstKept with
 | .string keptId =>
  if keptId ≠ id then
   ((OrdMap.get? replacementByLabel keptId).map Value.string).getD firstKept
  else firstKept
 | _ => firstKept

/-- An entry's copy behind `parent`. -/
def rechainEntry (replacementByLabel : List (String × String)) (parent : Option String)
 (entry : SessionEntry) : SessionEntry :=
 let copy := entry.setMember "parentId" (idValue parent)
 match copy.get "firstKeptEntryId" with
 | some firstKept =>
  if copy.entryType = "compaction" then
   copy.setMember "firstKeptEntryId" (redirect replacementByLabel entry.id firstKept)
  else copy
 | none => copy

def Rechained.add (taken : Rechained) (entry : SessionEntry) : Rechained :=
 if entry.entryType = "label" then
  { taken with pendingLabels := taken.pendingLabels ++ [entry.id] }
 else
  let replacementByLabel := taken.pendingLabels.foldl
   (fun replaced label => OrdMap.insert replaced label entry.id) taken.replacementByLabel
  { kept := taken.kept ++ [rechainEntry replacementByLabel taken.parent entry]
    replacementByLabel
    pendingLabels := []
    parent := some entry.id }

def rechain (path : List SessionEntry) : List SessionEntry := (path.foldl Rechained.add {}).kept

def labelCopy (id : String) (parent timestamp : Option String) (target label : String) :
 SessionEntry where
 id
 raw :=
  [("type", .string "label"), ("id", .string id), ("parentId", idValue parent),
   ("timestamp", idValue timestamp), ("targetId", .string target), ("label", .string label)]

/-- The labels set again, each behind the last one. `ids` are in use, and `k` ids have
been drawn. -/
def labelCopies (draws : Nat → Draws) (timestamps : List (String × String)) (ids : List String)
 (k : Nat) (parent : Option String) : List (String × String) → List SessionEntry
 | [] => []
 | (target, label) :: rest =>
  let id := generateEntryId (draws k) fun candidate => candidate ∈ ids
  labelCopy id parent (OrdMap.get? timestamps target) target label
   :: labelCopies draws timestamps (id :: ids) (k + 1) (some id) rest

/-- The custom types of `task_documents`. -/
def isTaskEntry (entry : SessionEntry) : Bool :=
 entry.entryType = "custom" &&
  ((entry.get "customType").bind Value.asStr = some "bake.task.document.v1"
   || (entry.get "customType").bind Value.asStr = some "bake.task.verification.v1")

namespace SessionManager

def branchedEntries (m : SessionManager) (env : Env) (path : List SessionEntry) :
 List SessionEntry :=
 let kept := rechain path
 let ids := kept.map SessionEntry.id
 kept ++ labelCopies env.draws m.index.labelTimestampsById ids 0
  ((ids.getLast?).filter (· ≠ "")) (m.index.labelsById.filter fun label => label.1 ∈ ids)

def branched (m : SessionManager) (env : Env) (path : List SessionEntry) : SessionManager :=
 let timestamp := formatIso (env.clock 0)
 let parentSession := if m.persist then m.sessionFile else none
 let fileEntries := .header (.new env.uuid timestamp m.cwd parentSession)
  :: (m.branchedEntries env path).map FileEntry.entry
 { m with
   sessionId := env.uuid
   fileEntries
   index := buildIndex fileEntries
   sessionFile :=
    if m.persist then some (joinPath m.sessionDir (sessionFileName timestamp env.uuid))
    else m.sessionFile
   writer := if m.persist then none else m.writer }

end SessionManager

namespace World

def createBranchedSession (w : World) (env : Env) (leafId : String) : Result (Option String) :=
 let path := w.manager.branchEntries (some leafId)
 if path = [] then (.error (.entryNotFound leafId), w)
 else
  let w := w.withManager (w.manager.branched env path)
  if w.manager.persist = false then (.ok none, w)
  else
   -- acknowledged task entries survive before the first prompt
   let durableTasks := w.manager.flushed && w.manager.entries.any isTaskEntry
   if w.manager.hasConversation || durableTasks then
    match w.rewriteFile env with
    | (.error e, w) => (.error e, w)
    | (.ok (), w) => (.ok w.manager.sessionFile, w.withManager { w.manager with flushed := true })
   else (.ok w.manager.sessionFile, w.withManager { w.manager with flushed := false })

/-- `branched_copy`: the copy, when it is made, in place of the manager. -/
def branchedCopy (w : World) (env : Env) (leafId : Option String) : Result Unit :=
 let copy := w.withManager { w.manager with writer := none, writerClosed := false }
 match leafId with
 | some leafId => match copy.createBranchedSession env leafId with
  | (.error e, copy) => (.error e, w.withDisk copy.disk)
  | (.ok _, copy) => (.ok (), copy)
 | none =>
  let parentSession := if w.manager.persist then w.manager.sessionFile else none
  match copy.newSession env { parentSession } with
  | (.error e, copy) => (.error e, w.withDisk copy.disk)
  | (.ok (), copy) => (.ok (), copy)

end World

end Bake.Session
