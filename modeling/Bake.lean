import Bake.Agent.LoopTranscript
import Bake.Agent.NestedClose
import Bake.AgentSession.Bounded
import Bake.AgentSession.MaskingRuns
import Bake.AgentSession.Owner
import Bake.Ai.Parallel
import Bake.Ai.Requests
import Bake.Ai.ToolFold
import Bake.Codemode.Timing
import Bake.Jobs.Recovery
import Bake.Jobs.Report
import Bake.Jobs.Stream
import Bake.Json.Rewrite
import Bake.Mcp.Promises
import Bake.Permissions.EngineGrants
import Bake.Permissions.Listener
import Bake.Permissions.WriteTarget
import Bake.Plugins.VetoCancelled
import Bake.Process.CommandLine
import Bake.Process.Settled
import Bake.RunControl.Admissions
import Bake.Session.Id
import Bake.Session.Stored
import Bake.Session.Unanswered
import Bake.Store.Serialized
import Bake.Tools.EditErrors
import Bake.Tools.EditFile
import Bake.Tools.FullOutput
import Bake.Tools.MutationQueue
import Bake.Tools.NumberedTruth
import Bake.Tools.PatchApplies
import Bake.Tui.Draft
import Bake.Tui.Viewport
import Bake.Update.Archive
import Bake.Update.Precedence
import Bake.Update.Unbroken
