import Bake.Lib.Run
import Bake.Update.Version

/-!
# Updates of an install

`update.rs` and the pointers of `layout.rs`: an install root, and the runs that take its lock
one after another, each a sequence of system calls that may fail, with a crash between any
two. What takes many calls (unpacking an archive, removing a directory) goes on piece by
piece. The manifest, the lock, the download and the archive's members are answers; what they
say when they fail is theirs.
-/

namespace Bake.Update

open OrdMap (get?)

inductive UpdateError where
 | manifest (message : String)
 | signature (message : String)
 | network (message : String)
 | artifact (message : String)
 | archive (message : String)
 | version (message : String)
 | selfCheck (message : String)
 | locked (message : String)
 | notInstalled (message : String)
 | platform (message : String)
 | install (message : String)
 deriving DecidableEq

/-! ## The root -/

/-- `Pointer`: how a root records which release is current. -/
inductive Pointer where
 | link
 | file
 deriving DecidableEq

/-- `Name`: which release a pointer names. -/
inductive Name where
 | current
 | previous
 deriving DecidableEq

def Pointer.name : Pointer → Name → String
 | .link, .current => "current"
 | .link, .previous => "previous"
 | .file, .current => "current.txt"
 | .file, .previous => "previous.txt"

inductive FileEntry where
 | link (target : List Char)
 | file (text : List Char)
 | other
 deriving DecidableEq

/-- A directory of `releases`: a release, or the staging directory of a run. -/
inductive Dir (Contents : Type) where
 | release (contents : Contents)
 | staging (unpacked damaged : Option Contents)

/-- The root's own files and the directories of `releases`, by name. -/
structure Root (Contents : Type) where
 path : String
 pointer : Pointer
 files : List (String × FileEntry)
 releases : List (String × Dir Contents)

/-- The last of a path's components, if that is a name. -/
def lastComponent (target : List Char) : Option (List Char) :=
 match ((target.splitOn '/').filter fun part => part != [] && part != ['.']).getLast? with
 | some ['.', '.'] => none
 | last => last

def trim (text : List Char) : List Char :=
 ((text.dropWhile Ai.isWhiteSpace).reverse.dropWhile Ai.isWhiteSpace).reverse

variable {Contents : Type}

namespace Root

variable (root : Root Contents)

/-- What is at `pointer_path`. -/
def entry (name : Name) : Option FileEntry := get? root.files (root.pointer.name name)

/-- What a pointer that can be read says. -/
def text (name : Name) : Option (List Char) :=
 match root.pointer, root.entry name with
 | .link, some (.link target) => lastComponent target
 | .file, some (.file text) => some (trim text)
 | _, _ => none

/-- `Root::version`, where the pointer can be read. -/
def version (name : Name) : Option String :=
 ((root.text name).map String.ofList).filter isReleaseVersion

def pointerPath (name : Name) : String := root.path ++ "/" ++ root.pointer.name name

/-- The path of `Root::release`. -/
def releasePath (version : String) : String := root.path ++ "/releases/" ++ version

def tempName (name : Name) (suffix : String) : String :=
 "." ++ root.pointer.name name ++ "." ++ suffix

/-- What `point_at` writes. -/
def pointed (version : String) : FileEntry :=
 match root.pointer with
 | .link => .link ("releases/".toList ++ version.toList)
 | .file => .file (version.toList ++ ['\r', '\n'])

end Root

def stagingName (suffix : String) : String := ".staging-" ++ suffix

/-- What `sweep` removes of the root, and of `releases`. -/
def isTempPointer (name : String) : Bool :=
 ".current".toList.isPrefixOf name.toList || ".previous".toList.isPrefixOf name.toList

def isStaging (name : String) : Bool := ".staging-".toList.isPrefixOf name.toList

/-! ## The updater -/

/-- `Updater`, with what is in a release's directory and what its own self-check says of the
version and the target. -/
structure Updater (Contents : Type) where
 target : String
 /-- The directory holds `bin/bake`. -/
 executable : Contents → Bool
 /-- An empty directory, which another may be renamed over. -/
 empty : Contents → Bool
 run : Contents → String → String → Except String Unit
 executable_ne : ∀ contents, executable contents → empty contents = false

namespace Updater

variable (up : Updater Contents)

/-- `SelfCheck::check`, on this host's target. -/
def check (contents : Contents) (version : String) : Except String Unit :=
 if up.executable contents then up.run contents version up.target else .error "it has no bin/bake"

def checkDir : Option (Dir Contents) → String → Except String Unit
 | some (.release contents), version => up.check contents version
 | _, _ => .error "it has no bin/bake"

/-- Whether a directory may be renamed over what is at a path. -/
def vacant : Option (Dir Contents) → Bool
 | none => true
 | some (.release contents) => up.empty contents
 | some (.staging _ _) => false

end Updater

/-- `Manifest`: its version, and the platforms it publishes an archive for. -/
structure Manifest where
 version : String
 artifacts : List String
 isVersion : isReleaseVersion version

/-- One call of `update`. -/
structure UpdateRun where
 manifest : Manifest
 force : Option String
 running : String

/-- A command on the root. -/
inductive Request where
 | update (u : UpdateRun)
 | rollback

/-- `Outcome`, of a run that installs or returns. -/
inductive Outcome where
 | upToDate (version : String)
 | updated (old : Option String) (new : String) (pruned : List String)
 | rolledBack (old new : String)
 | noPrevious (current : String)
 deriving DecidableEq

/-- A move of a pointer by `point_at`, with what is left to do behind it. -/
inductive Move where
 | updatePrevious (u : UpdateRun) (old : String)
 | updateCurrent (u : UpdateRun) (old : Option String)
 | rollbackPrevious (current previous : String)
 | rollbackCurrent (current previous : String)

namespace Move

def name : Move → Name
 | .updatePrevious _ _ | .rollbackPrevious _ _ => .previous
 | .updateCurrent _ _ | .rollbackCurrent _ _ => .current

def version : Move → String
 | .updatePrevious _ old => old
 | .updateCurrent u _ => u.manifest.version
 | .rollbackPrevious current _ => current
 | .rollbackCurrent _ previous => previous

end Move

/-- What `sweep` is part of. -/
inductive Sweep where
 | update (u : UpdateRun)
 | rollback (current : String)

inductive Place where
 /-- No run holds the lock, or one died. -/
 | idle
 | fetchManifest (u : UpdateRun)
 | acquireUpdate (u : UpdateRun)
 | readInstalled (u : UpdateRun)
 | nameStaging (u : UpdateRun)
 /-- `stage`. -/
 | findDestination (u : UpdateRun) (suffix : String)
 | checkDestination (u : UpdateRun) (suffix : String)
 | makeAside (u : UpdateRun) (suffix : String)
 | setAside (u : UpdateRun) (suffix : String)
 | makeStaging (u : UpdateRun) (suffix : String)
 | download (u : UpdateRun) (suffix : String)
 | extract (u : UpdateRun) (suffix : String)
 | checkUnpacked (u : UpdateRun) (suffix : String)
 | makeReleases (u : UpdateRun) (suffix : String)
 | moveIn (u : UpdateRun) (suffix : String)
 | removeStaging (u : UpdateRun) (suffix : String) (result : Except UpdateError Unit)
 | readOld (u : UpdateRun)
 | pruneCurrent (u : UpdateRun) (old : Option String)
 | prunePrevious (u : UpdateRun) (old : Option String) (keep : List String)
 | pruneList (u : UpdateRun) (old : Option String) (keep : List String)
 | prune (u : UpdateRun) (old : Option String) (versions pruned : List String)
 | listTemps (k : Sweep)
 | sweepTemps (k : Sweep) (names : List String)
 | listStaging (k : Sweep)
 | sweepStaging (k : Sweep) (names : List String)
 | inspectPointer (m : Move)
 | nameTemp (m : Move)
 | writeTemp (m : Move) (suffix : String)
 | renameTemp (m : Move) (suffix : String)
 | cleanTemp (m : Move) (suffix error : String)
 | acquireRollback
 | readCurrent
 | readPrevious (current : String)
 | rereadCurrent (current previous : String)
 | findExecutable (current previous : String)
 | checkPrevious (current previous : String)
 | finished (outcome : Except UpdateError Outcome)

/-- How a call turns out. -/
inductive Answer (Contents : Type) where
 | ok
 | failed (error : String)
 /-- The lock, the release host or the archive refuses. -/
 | refused (error : UpdateError)
 /-- The names a directory's listing came to. -/
 | names (names : List String)
 /-- The random part of a name. -/
 | suffix (suffix : String)
 /-- Some of a directory is removed, and this is left. -/
 | left (dir : Dir Contents)
 /-- Some of the archive is written. -/
 | wrote (contents : Contents)
 /-- Some of a temporary pointer is written. -/
 | part (text : List Char)

/-! ## Their steps -/

def olderManifest (published installed : String) : UpdateError :=
 .version ("the release manifest publishes Bake " ++ published ++ ", older than the installed "
  ++ installed ++ "; refusing it")

def createFailure (error : String) : UpdateError :=
 .install ("could not create a staging directory: " ++ error)

/-- `update` under the lock, by what is installed. -/
def proceed (u : UpdateRun) (installed : String) : Place :=
 match u.force with
 | some _ => .listTemps (.update u)
 | none =>
  match compareVersions u.manifest.version installed with
  | .gt => .listTemps (.update u)
  | .eq => .finished (.ok (.upToDate installed))
  | .lt => .finished (.error (olderManifest u.manifest.version installed))

def Sweep.swept : Sweep → Place
 | .update u => .nameStaging u
 | .rollback current => .readPrevious current

namespace Root

variable (root : Root Contents)

/-- The start of `point_at`: only a link is looked at. -/
def pointAt (m : Move) : Place :=
 match root.pointer with
 | .link => .inspectPointer m
 | .file => .nameTemp m

def moved : Move → Place
 | .updatePrevious u old => root.pointAt (.updateCurrent u (some old))
 | .updateCurrent u old => .pruneCurrent u old
 | .rollbackPrevious current previous => root.pointAt (.rollbackCurrent current previous)
 | .rollbackCurrent current previous => .finished (.ok (.rolledBack current previous))

def put (name : String) (dir : Dir Contents) : Root Contents :=
 { root with releases := OrdMap.insert root.releases name dir }

def remove (name : String) : Root Contents :=
 { root with releases := OrdMap.erase root.releases name }

/-- A directory with some of it removed. -/
def cut (name : String) (dir : Dir Contents) : Root Contents :=
 match get? root.releases name with
 | some _ => root.put name dir
 | none => root

/-- `create_dir_all` on a staging directory. -/
def makeStaging (suffix : String) : Root Contents :=
 match get? root.releases (stagingName suffix) with
 | some _ => root
 | none => root.put (stagingName suffix) (.staging none none)

def unpacked (suffix : String) : Option Contents :=
 match get? root.releases (stagingName suffix) with
 | some (.staging unpacked _) => unpacked
 | _ => none

/-- The versions `installed` lists, of the names under `releases`. -/
def installed (names : List String) : List String :=
 names.filter fun name => isReleaseVersion name && (get? root.releases name).isSome

def setAside (version suffix : String) : Option (Root Contents) :=
 match get? root.releases version, get? root.releases (stagingName suffix) with
 | some (.release contents), some (.staging unpacked none) =>
  some ((root.remove version).put (stagingName suffix) (.staging unpacked (some contents)))
 | _, _ => none

/-- The rename of the unpacked release into its place. -/
def moveIn (up : Updater Contents) (version suffix : String) : Option (Root Contents) :=
 match up.vacant (get? root.releases version), get? root.releases (stagingName suffix) with
 | true, some (.staging (some contents) damaged) =>
  some ((root.put (stagingName suffix) (.staging none damaged)).put version (.release contents))
 | _, _ => none

def putFile (name : String) (entry : FileEntry) : Root Contents :=
 { root with files := OrdMap.insert root.files name entry }

def removeFile (name : String) : Root Contents :=
 { root with files := OrdMap.erase root.files name }

def rename (name : Name) (suffix : String) : Option (Root Contents) :=
 match get? root.files (root.tempName name suffix) with
 | none => none
 | some entry =>
  some ((root.removeFile (root.tempName name suffix)).putFile (root.pointer.name name) entry)

end Root

/-- `update` with the manifest. -/
def received (up : Updater Contents) (u : UpdateRun) : Place :=
 if up.target ∈ u.manifest.artifacts then
  match u.force with
  | none => .acquireUpdate u
  | some forced =>
   if forced = u.manifest.version then .acquireUpdate u
   else .finished (.error (.version ("the stable channel publishes Bake " ++ u.manifest.version
    ++ ", not " ++ forced)))
 else .finished (.error (.artifact ("Bake " ++ u.manifest.version
  ++ " publishes no archive for " ++ up.target)))

/-- `update` behind `stage`. -/
def staged (u : UpdateRun) : Except UpdateError Unit → Place
 | .error error => .finished (.error error)
 | .ok () => .readOld u

/-- One call of a run. A pointer that cannot be read is taken for one that names nothing. -/
def Root.next (up : Updater Contents) (root : Root Contents) :
 Place → Answer Contents → Option (Root Contents × Place)
 | .fetchManifest u, .ok => some (root, received up u)
 | .fetchManifest _, .refused error => some (root, .finished (.error error))
 | .acquireUpdate u, .ok => some (root, .readInstalled u)
 | .acquireUpdate _, .refused error => some (root, .finished (.error error))
 | .readInstalled u, .ok => some (root, proceed u ((root.version .current).getD u.running))
 | .readInstalled u, .failed _ => some (root, proceed u u.running)
 | .nameStaging u, .suffix suffix => some (root, .findDestination u suffix)
 | .findDestination u suffix, .ok =>
  match get? root.releases u.manifest.version with
  | some _ => some (root, .checkDestination u suffix)
  | none => some (root, .makeStaging u suffix)
 -- `exists` says no of what it cannot look at
 | .findDestination u suffix, .failed _ => some (root, .makeStaging u suffix)
 | .checkDestination u suffix, .ok =>
  match up.checkDir (get? root.releases u.manifest.version) u.manifest.version with
  | .ok () => some (root, .removeStaging u suffix (.ok ()))
  | .error _ => some (root, .makeAside u suffix)
 | .makeAside u suffix, .ok => some (root.makeStaging suffix, .setAside u suffix)
 | .makeAside u suffix, .failed error =>
  some (root, .removeStaging u suffix (.error (createFailure error)))
 | .setAside u suffix, .ok =>
  (root.setAside u.manifest.version suffix).map fun root => (root, .makeStaging u suffix)
 | .setAside u suffix, .failed error =>
  some (root, .removeStaging u suffix (.error (.install ("could not set aside "
   ++ root.releasePath u.manifest.version ++ ": " ++ error))))
 | .makeStaging u suffix, .ok => some (root.makeStaging suffix, .download u suffix)
 | .makeStaging u suffix, .failed error =>
  some (root, .removeStaging u suffix (.error (createFailure error)))
 | .download u suffix, .ok => some (root, .extract u suffix)
 | .download u suffix, .refused error => some (root, .removeStaging u suffix (.error error))
 | .extract u suffix, .wrote contents =>
  match get? root.releases (stagingName suffix) with
  | some (.staging _ damaged) =>
   some (root.put (stagingName suffix) (.staging (some contents) damaged), .extract u suffix)
  | _ => none
 | .extract u suffix, .ok => some (root, .checkUnpacked u suffix)
 | .extract u suffix, .refused error => some (root, .removeStaging u suffix (.error error))
 | .checkUnpacked u suffix, .ok =>
  match up.checkDir ((root.unpacked suffix).map .release) u.manifest.version with
  | .ok () => some (root, .makeReleases u suffix)
  | .error problem =>
   some (root, .removeStaging u suffix (.error (.selfCheck ("the downloaded Bake "
    ++ u.manifest.version ++ " did not run, so the install is unchanged: " ++ problem))))
 | .makeReleases u suffix, .ok => some (root, .moveIn u suffix)
 | .makeReleases u suffix, .failed error =>
  some (root, .removeStaging u suffix (.error (createFailure error)))
 | .moveIn u suffix, .ok =>
  (root.moveIn up u.manifest.version suffix).map fun root =>
   (root, .removeStaging u suffix (.ok ()))
 | .moveIn u suffix, .failed error =>
  some (root, .removeStaging u suffix (.error (.install ("could not move the new release into "
   ++ root.releasePath u.manifest.version ++ ": " ++ error))))
 | .removeStaging u suffix result, .ok =>
  some (root.remove (stagingName suffix), staged u result)
 | .removeStaging u suffix result, .left dir =>
  some (root.cut (stagingName suffix) dir, .removeStaging u suffix result)
 | .removeStaging u _ result, .failed _ => some (root, staged u result)
 | .readOld u, .ok =>
  match root.version .current with
  | some old => some (root, root.pointAt (.updatePrevious u old))
  | none => some (root, root.pointAt (.updateCurrent u none))
 | .readOld u, .failed _ => some (root, root.pointAt (.updateCurrent u none))
 | .pruneCurrent u old, .ok => some (root, .prunePrevious u old (root.version .current).toList)
 | .pruneCurrent u old, .failed _ => some (root, .prunePrevious u old [])
 | .prunePrevious u old keep, .ok =>
  some (root, .pruneList u old (keep ++ (root.version .previous).toList))
 | .prunePrevious u old keep, .failed _ => some (root, .pruneList u old keep)
 | .pruneList u old keep, .names names =>
  some (root, .prune u old ((root.installed names).filter fun version => version ∉ keep) [])
 | .pruneList u old _, .failed _ => some (root, .prune u old [] [])
 | .prune u old [] pruned, .ok =>
  some (root, .finished (.ok (.updated old u.manifest.version
   (pruned.mergeSort fun a b => decide (a ≤ b)))))
 | .prune u old (version :: rest) pruned, .ok =>
  some (root.remove version, .prune u old rest (pruned ++ [version]))
 | .prune u old (version :: rest) pruned, .left dir =>
  some (root.cut version dir, .prune u old (version :: rest) pruned)
 | .prune u old (_ :: rest) pruned, .failed _ => some (root, .prune u old rest pruned)
 | .listTemps k, .names names => some (root, .sweepTemps k (names.filter isTempPointer))
 | .listTemps k, .failed _ => some (root, .listStaging k)
 | .sweepTemps k [], .ok => some (root, .listStaging k)
 | .sweepTemps k (name :: rest), .ok =>
  some (root.removeFile name, .sweepTemps k rest)
 | .sweepTemps k (_ :: rest), .failed _ => some (root, .sweepTemps k rest)
 | .listStaging k, .names names => some (root, .sweepStaging k (names.filter isStaging))
 | .listStaging k, .failed _ => some (root, k.swept)
 | .sweepStaging k [], .ok => some (root, k.swept)
 | .sweepStaging k (name :: rest), .ok => some (root.remove name, .sweepStaging k rest)
 | .sweepStaging k (name :: rest), .left dir =>
  some (root.cut name dir, .sweepStaging k (name :: rest))
 | .sweepStaging k (_ :: rest), .failed _ => some (root, .sweepStaging k rest)
 | .inspectPointer m, .ok =>
  match root.entry m.name with
  | some (.file _) | some .other =>
   some (root, .finished (.error (.install (root.pointerPath m.name
    ++ " exists and is not a Bake-managed link"))))
  | _ => some (root, .nameTemp m)
 | .inspectPointer m, .failed _ => some (root, .nameTemp m)
 | .nameTemp m, .suffix suffix => some (root, .writeTemp m suffix)
 | .writeTemp m suffix, .ok =>
  some (root.putFile (root.tempName m.name suffix) (root.pointed m.version), .renameTemp m suffix)
 | .writeTemp m suffix, .part text =>
  some (root.putFile (root.tempName m.name suffix) (.file text), .writeTemp m suffix)
 | .writeTemp m suffix, .failed error =>
  some (root, .finished (.error (.install ("could not write "
   ++ (root.path ++ "/" ++ root.tempName m.name suffix) ++ ": " ++ error))))
 | .renameTemp m suffix, .ok =>
  (root.rename m.name suffix).map fun root => (root, root.moved m)
 | .renameTemp m suffix, .failed error => some (root, .cleanTemp m suffix error)
 | .cleanTemp m suffix error, .ok =>
  some (root.removeFile (root.tempName m.name suffix),
   .finished (.error (.install ("could not move " ++ root.pointerPath m.name
    ++ " into place: " ++ error))))
 | .cleanTemp m _ error, .failed _ =>
  some (root, .finished (.error (.install ("could not move " ++ root.pointerPath m.name
   ++ " into place: " ++ error))))
 | .acquireRollback, .ok => some (root, .readCurrent)
 | .acquireRollback, .refused error => some (root, .finished (.error error))
 | .readCurrent, .ok =>
  match root.version .current with
  | none => some (root, .finished (.error (.notInstalled (root.path
   ++ " names no current release; install Bake again"))))
  | some current => some (root, .listTemps (.rollback current))
 | .readCurrent, .failed _ =>
  some (root, .finished (.error (.notInstalled (root.path
   ++ " names no current release; install Bake again"))))
 | .readPrevious current, .ok =>
  match root.version .previous with
  | none => some (root, .finished (.ok (.noPrevious current)))
  | some previous => some (root, .rereadCurrent current previous)
 | .readPrevious current, .failed _ => some (root, .finished (.ok (.noPrevious current)))
 | .rereadCurrent current previous, .ok =>
  if root.version .current = some previous then
   some (root, .finished (.ok (.noPrevious current)))
  else some (root, .findExecutable current previous)
 | .rereadCurrent current previous, .failed _ => some (root, .findExecutable current previous)
 | .findExecutable current previous, .ok =>
  match get? root.releases previous with
  | some (.release contents) =>
   if up.executable contents then some (root, .checkPrevious current previous)
   else some (root, .finished (.ok (.noPrevious current)))
  | _ => some (root, .finished (.ok (.noPrevious current)))
 | .findExecutable current _, .failed _ => some (root, .finished (.ok (.noPrevious current)))
 | .checkPrevious current previous, .ok =>
  match up.checkDir (get? root.releases previous) previous with
  | .ok () => some (root, root.pointAt (.rollbackPrevious current previous))
  | .error problem =>
   some (root, .finished (.error (.selfCheck ("the earlier Bake " ++ previous
    ++ " did not run, so the install is unchanged: " ++ problem))))
 | _, _ => none

/-! ## Runs, one after another -/

/-- The root and the run that holds its lock. What `current` held when the run began is kept
for the statements. -/
structure Install (Contents : Type) where
 root : Root Contents
 place : Place
 began : Option FileEntry

inductive Input (Contents : Type) where
 | start (request : Request)
 | answer (answer : Answer Contents)
 | crash

def Request.first : Request → Place
 | .update u => .fetchManifest u
 | .rollback => .acquireRollback

/-- No run is under way. -/
def Place.isFree : Place → Bool
 | .idle | .finished _ => true
 | _ => false

/-- One step: a run that begins where none is under way, one of its calls, or a crash. -/
def Install.step (up : Updater Contents) (s : Install Contents) : Input Contents → Install Contents
 | .start request =>
  if s.place.isFree then
   { s with place := request.first, began := s.root.entry .current }
  else s
 | .answer answer =>
  match s.root.next up s.place answer with
  | some (root, place) => { s with root := root, place := place }
  | none => s
 | .crash => { s with place := .idle }

end Bake.Update
