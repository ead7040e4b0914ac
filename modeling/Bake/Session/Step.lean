import Bake.Session.Branched

/-!
# The manager as a machine

The states are a manager with its disk, and a step is one call. A call that fails
leaves what it has done so far, so a run goes on from whatever an error leaves.
-/

namespace Bake.Session

open Bake.Json

/-- One call of a manager. -/
inductive Op where
 | appendMessage (message : AgentMessage)
 | appendThinkingLevelChange (thinkingLevel : String)
 | appendModelChange (provider modelId : String)
 | appendUsage (kind provider model : String) (usage : Value) (note : Option String)
 | appendCompaction (summary : String) (firstKeptEntryId : Option String) (tokensBefore : Nat)
  (details : Option Value) (fromHook : Option Bool) (usage : Option Value)
 | appendCustomEntry (customType : String) (data : Option Value)
 | appendSessionInfo (name : String)
 | appendCustomMessageEntry (customType : String) (content : Value) (display : Bool)
  (details : Option Value)
 | appendContextEdit (targetId : String) (replacement : Option EditContent)
 | appendLabelChange (targetId : String) (label : Option String)
 | appendGroup (entries : List GroupEntry)
 | appendDurableGroup (entries : List GroupEntry)
 | branch (branchFromId : String)
 | resetLeaf
 | branchWithSummary (branchFromId : Option String) (summary : String) (details : Option Value)
  (fromHook : Option Bool) (usage : Option Value)
 | newSession (options : NewSessionOptions)
 | setSessionFile (sessionFile : String)
 | createBranchedSession (leafId : String)
 | branchedCopy (leafId : Option String)
 | closeWriter

def Result.failure {α : Type} (result : Result α) : Option SessionError × World :=
 match result with
 | (.ok _, w) => (none, w)
 | (.error e, w) => (some e, w)

@[simp] theorem Result.failure_snd {α : Type} (result : Result α) :
 (Result.failure result).2 = result.2 := by
 obtain ⟨_ | _, w⟩ := result <;> rfl

namespace World

/-- One call: its failure, and what it leaves. -/
def perform (w : World) (env : Env) : Op → Option SessionError × World
 | .appendMessage message => Result.failure (w.appendMessage env message)
 | .appendThinkingLevelChange level => Result.failure <|
  w.appendRaw env fun m id => m.thinkingLevelChangeRaw env 0 id level
 | .appendModelChange provider modelId => Result.failure <|
  w.appendRaw env fun m id => m.modelChangeRaw env 0 id provider modelId
 | .appendUsage kind provider model usage note => Result.failure <|
  w.appendRaw env fun m id => m.usageRaw env id kind provider model usage note
 | .appendCompaction summary firstKept tokensBefore details fromHook usage => Result.failure <|
  w.appendRaw env fun m id =>
   m.compactionRaw env id summary firstKept tokensBefore details fromHook usage
 | .appendCustomEntry customType data => Result.failure <|
  w.appendRaw env fun m id => m.customRaw env id customType data
 | .appendSessionInfo name => Result.failure <|
  w.appendRaw env fun m id => m.sessionInfoRaw env id name
 | .appendCustomMessageEntry customType content display details => Result.failure <|
  w.appendRaw env fun m id => m.customMessageRaw env id customType content display details
 | .appendContextEdit targetId replacement => Result.failure <|
  w.appendContextEdit env targetId replacement
 | .appendLabelChange targetId label => Result.failure (w.appendLabelChange env targetId label)
 | .appendGroup entries => Result.failure (w.appendGroup env entries)
 | .appendDurableGroup entries => Result.failure (w.appendDurableGroup env entries)
 | .branch id => Result.failure (w.branch id)
 | .resetLeaf => (none, w.resetLeaf)
 | .branchWithSummary from? summary details fromHook usage => Result.failure <|
  w.branchWithSummary env from? summary details fromHook usage
 | .newSession options => Result.failure (w.newSession env options)
 | .setSessionFile path => Result.failure (w.setSessionFile env path)
 | .createBranchedSession leafId => Result.failure (w.createBranchedSession env leafId)
 | .branchedCopy leafId => Result.failure (w.branchedCopy env leafId)
 | .closeWriter => (none, w.closeWriter)

def step (w : World) (call : Op × Env) : World := (w.perform call.2 call.1).2

end World

/-- Nothing fails, and the clock stands at its origin. -/
def Env.calm : Env where
 clock _ := 0
 draws k :=
  { candidates := (List.range 9).map fun n => "0000000" ++ toString (n + 1)
    uuid := "018f0000-0000-7000-8000-00000000000" ++ toString k }
 uuid := "018f0000-0000-7000-8000-000000000000"
 lock := .taken false
 create := .ok
 write := .ok
 lines := .ok
 replace := .ok
 load := .ok

/-- The managers the constructors make. -/
inductive Opened : World → Prop where
 /-- `open`, `continue_recent` and `fork_from`: a file's session. -/
 | file {disk : Disk} {env : Env} {cwd dir path : String} {writer : Option WriterLock} {w : World} :
  World.construct disk env cwd dir (some path) true {} [] writer = (.ok (), w) → Opened w
 | create {disk : Disk} {env : Env} {cwd dir : String} {options : NewSessionOptions} {w : World} :
  World.construct disk env cwd dir none true options [] none = (.ok (), w) → Opened w
 | inMemory {disk : Disk} {env : Env} {cwd : String} {options : NewSessionOptions}
  {lines : List Line} {w : World} :
  World.construct disk env cwd "" none false options lines none = (.ok (), w) → Opened w

/-- A new session where nothing else is on the disk but `disk`. -/
def newWorld (disk : Disk) : World :=
 (World.construct disk .calm "/work" "/sessions" none true {} [] none).2

theorem opened_newWorld (disk : Disk) : Opened (newWorld disk) :=
 @Opened.create disk .calm "/work" "/sessions" {} (newWorld disk) rfl

end Bake.Session
