import Bake.Permissions.Paths

/-!
# Sandbox policies

The mode of one confined execution and the directories it may write under.
-/

namespace Bake.Permissions

open FileTree

/-- `SandboxMode`, narrowest first. -/
inductive SandboxMode where
 | readOnly
 | workspaceWrite
 | dangerFullAccess
 deriving DecidableEq, Repr

namespace SandboxMode

def asStr : SandboxMode → String
 | .readOnly => "read-only"
 | .workspaceWrite => "workspace-write"
 | .dangerFullAccess => "danger-full-access"

/-- `SandboxMode::wider_modes`: the strictly wider modes, narrowest first. -/
def widerModes : SandboxMode → List SandboxMode
 | .readOnly => [.workspaceWrite, .dangerFullAccess]
 | .workspaceWrite => [.dangerFullAccess]
 | .dangerFullAccess => []

def isWidenedBy (mode other : SandboxMode) : Bool := mode.widerModes.contains other

end SandboxMode

structure SandboxPolicy where
 mode : SandboxMode
 workspaceRoot : Path
 sessionId : Option String
 extraWritableRoots : List Path
 deriving DecidableEq

namespace SandboxPolicy

def new (mode : SandboxMode) (workspaceRoot : Path) : SandboxPolicy where
 mode := mode
 workspaceRoot := workspaceRoot
 sessionId := none
 extraWritableRoots := []

def withExtraWritableRoots (policy : SandboxPolicy) (roots : List Path) : SandboxPolicy :=
 { policy with extraWritableRoots := policy.extraWritableRoots ++ roots }

def withMode (policy : SandboxPolicy) (mode : SandboxMode) : SandboxPolicy := { policy with mode }

/-- Paths without the ones that were there before. -/
def pushNew (roots : List Path) : List Path → List Path
 | [] => roots
 | root :: rest => pushNew (if roots.contains root then roots else roots ++ [root]) rest

def writableRoots (policy : SandboxPolicy) (fs : FileSystem) : List Path :=
 if policy.mode ≠ .workspaceWrite then []
 else pushNew [] ([lexical policy.workspaceRoot, canonicalPath fs (absolutePath [⟨"tmp", by decide⟩]),
  canonicalPath fs fs.tempDir] ++ policy.extraWritableRoots.map lexical)

end SandboxPolicy

def sandboxDenialMarker (mode : SandboxMode) : String :=
 "[sandbox: file access denied under " ++ mode.asStr ++ " mode]"

def escalationHintMarker (subject : String) : String :=
 "[sandbox: escalation available — retry this exact " ++ subject
  ++ " once with sandbox_permissions (the narrowest wider mode that suffices) + justification; the approval prompt asks the user]"

end Bake.Permissions
