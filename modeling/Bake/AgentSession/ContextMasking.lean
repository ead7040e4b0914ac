import Bake.Json.Compact
import Bake.Session.Edited

/-!
# Context masking

Old observations of the read-only tools are replaced in the context by a short text. Only
complete batches count: an assistant message and, with nothing but state entries between
them, one result for each of its calls. The newest batches stay, and so does the latest read
of each range. What is replaced is told by context edits at the leaf.
-/

namespace Bake.AgentSession

open Bake.Json Bake.Session Value
open OrdMap (get?)

def retainedBatches : Nat := 8

/-- `REPLACEMENT`. -/
def replacementText : String := "[Older tool output masked.]"

def provenance : String := "bake.contextObservation"

def eligibleName (name : Option String) : Bool :=
 name ∈ [some "read", some "ls", some "find", some "grep"]

/-! ## Provenance -/

def provenanceMarker (name : String) : Value :=
 .object [("version", .number (.ofNat 1)), ("kind", .string name)]

/-- Whether the host marks a result; the tools are those of the request, with whether each
is read-only. -/
def markedByHost (enabled isError : Bool) (tools : List (String × Bool)) (name : String) : Bool :=
 enabled && !isError && eligibleName (some name) && tools.any fun tool => tool.1 = name && tool.2

/-- `observation_details`: the details a finished tool's result gets in place of its own, if
any. -/
def observationDetails (eligible : Bool) (name : String) (details : Option Value) : Option Value :=
 match details with
 | some (.object members) =>
  if eligible then some (.object (OrdMap.insert members provenance (provenanceMarker name)))
  else if (get? members provenance).isSome then
   some (.object (OrdMap.erase members provenance))
  else none
 | none => if eligible then some (.object [(provenance, provenanceMarker name)]) else none
 | some _ => none

def storedDetails (eligible : Bool) (name : String) (details : Option Value) : Option Value :=
 (observationDetails eligible name details).or details

/-- **Only the host marks an observation:** what a tool reports itself is taken out. -/
theorem storedDetails_marked {eligible : Bool} {name : String} {details : Option Value} {marker : Value}
 (h : (storedDetails eligible name details).bind (memberOf · provenance) = some marker) :
 eligible = true ∧ marker = provenanceMarker name := by
 unfold storedDetails observationDetails at h
 split at h
 next members =>
  cases eligible with
  | true =>
   simp only [if_true, Option.some_or, Option.bind_some, memberOf, asObject,
    OrdMap.get?_insert_self] at h
   exact ⟨rfl, (Option.some.inj h).symm⟩
  | false =>
   simp only [Bool.false_eq_true, if_false] at h
   split at h
   · simp [memberOf, asObject, OrdMap.get?_erase] at h
   next hmarked =>
    simp only [Option.none_or, Option.bind_some, memberOf, asObject] at h
    rw [h] at hmarked
    exact absurd rfl hmarked
 · cases eligible with
   | true =>
    simp only [if_true, Option.some_or, Option.bind_some, memberOf, asObject, OrdMap.get?_cons] at h
    exact ⟨rfl, (Option.some.inj h).symm⟩
   | false => simp at h
 next value hvalue =>
  cases value with
  | object members => exact absurd rfl (hvalue members)
  | _ => simp [memberOf, asObject] at h

/-! ## Batches -/

/-- A result of a batch: the entry that shows it, its call and its message. -/
structure Observation where
 entry : ProjectedSessionEntry
 call : Value
 message : AgentMessage

def Observation.id (o : Observation) : String := o.entry.sourceEntry.id

def sameMember : Option Value → Option Value → Bool
 | none, none => true
 | some a, some b => a.beq b
 | _, _ => false

/-- The calls among blocks by id; none when one has no id or a repeated one. -/
def collectCalls (calls : List (String × Value)) : List Value → Option (List (String × Value))
 | [] => some calls
 | block :: rest =>
  if (memberOf block "type").bind asStr ≠ some "toolCall" then collectCalls calls rest
  else match ((memberOf block "id").bind asStr).filter (· ≠ "") with
   | none => none
   | some id =>
    if (get? calls id).isSome then none
    else collectCalls (OrdMap.insert calls id block) rest

def batchCalls (entry : ProjectedSessionEntry) : Option (List (String × Value)) :=
 match entry.messages with
 | [assistant] =>
  if roleOf assistant ≠ some "assistant"
   ∨ strMember assistant "stopReason" ∈ [some "error", some "aborted"] then none
  else match get? assistant "content" with
   | some (.array content) => (collectCalls [] content).filter fun calls => !calls.isEmpty
   | _ => none
 | _ => none

/-- The call a result answers: one of the batch, under its name, and not answered before. -/
def resultCall (calls : List (String × Value)) (seen : List String) (message : AgentMessage) :
 Option (String × Value) :=
 match strMember message "toolCallId" with
 | none => none
 | some id => match get? calls id with
  | none => none
  | some call =>
   if id ∈ seen ∨ sameMember (get? message "toolName") (memberOf call "name") = false
   then none
   else some (id, call)

/-- The results behind a batch's calls, with the ids they answer; none when one answers no
call. -/
def collectResults (calls : List (String × Value)) (seen : List String) :
 List ProjectedSessionEntry → Option (List String × List Observation)
 | [] => some (seen, [])
 | result :: rest =>
  match result.messages with
  -- state entries do not split a batch
  | [] => collectResults calls seen rest
  | [message] =>
   if roleOf message ≠ some "toolResult" then some (seen, [])
   else match resultCall calls seen message with
    | none => none
    | some (id, call) => (collectResults calls (seen ++ [id]) rest).map fun found =>
     (found.1, { entry := result, call, message } :: found.2)
  | _ => some (seen, [])

def batchAt (entry : ProjectedSessionEntry) (rest : List ProjectedSessionEntry) :
 Option (List Observation) :=
 (batchCalls entry).bind fun calls => (collectResults calls [] rest).bind fun found =>
  if found.1.length = calls.length then some found.2 else none

def batchesFrom : List ProjectedSessionEntry → List (List Observation)
 | [] => []
 | entry :: rest => (batchAt entry rest).toList ++ batchesFrom rest

def batches (projection : SessionProjection) : List (List Observation) :=
 batchesFrom projection.entries

/-! ## The plan -/

/-- `attested`: the host's marker names the tool called. -/
def attested (o : Observation) : Bool :=
 match (get? o.message "details").bind (memberOf · provenance) with
 | none => false
 | some marker =>
  match memberOf marker "version" with
  | some (.number n) => n.asU64 = some 1
   && sameMember (memberOf marker "kind") (memberOf o.call "name")
   && eligibleName ((memberOf o.call "name").bind asStr)
  | _ => false

/-- **The marker is the host's word.** With the details stored for it, a result is taken as an
observation exactly when the host ran a read-only tool of the called name without an error and
the feature was on, whatever the tool put into its details, as long as they can hold a marker. -/
theorem attested_iff_marked {o : Observation} {enabled isError : Bool} {tools : List (String × Bool)}
 {name : String} {details : Option Value} (hname : memberOf o.call "name" = some (.string name))
 (hstored : get? o.message "details"
  = storedDetails (markedByHost enabled isError tools name) name details) :
 attested o = (markedByHost enabled isError tools name && details.all fun d => d.asObject.isSome) := by
 unfold attested
 rw [hstored, hname]
 cases hmarked : markedByHost enabled isError tools name with
 | false =>
  split
  · rfl
  next marker hm => exact absurd (storedDetails_marked hm).1 (by simp)
 | true =>
  have heligible : eligibleName (some name) = true := by
   simp only [markedByHost, Bool.and_eq_true] at hmarked
   exact hmarked.1.2
  have hstores : (storedDetails true name details).bind (memberOf · provenance)
    = if details.all fun d => d.asObject.isSome then some (provenanceMarker name) else none := by
   rcases details with _ | d
   · simp [storedDetails, observationDetails, memberOf, asObject, OrdMap.get?_cons]
   cases d <;> simp [storedDetails, observationDetails, memberOf, asObject, OrdMap.get?_insert_self]
  rw [hstores]
  by_cases hobject : details.all fun d => d.asObject.isSome
  · rw [if_pos hobject, hobject]
    simp [memberOf, asObject, provenanceMarker, OrdMap.get?_cons, sameMember, Number.asU64, beq,
    heligible, asStr, Number.ofNat]
  · rw [if_neg hobject]
    simp [hobject]

theorem attested_iff_marked_forged : attested
  { entry := .bare { id := "", raw := [] }, call := .object [("name", .string "bash")],
    message := [("details", .object [])] } = false :=
 @attested_iff_marked _ true false [("bash", false)] "bash"
  (some (.object [(provenance, provenanceMarker "bash")])) rfl rfl

def errorFree (message : AgentMessage) : Bool :=
 match get? message "isError" with
 | some (.bool false) => true
 | _ => false

def unedited (o : Observation) : Bool :=
 sameMember ((o.entry.sourceEntry.get "message").bind (memberOf · "content"))
  (get? o.message "content")

def calledTool (o : Observation) : Option String := (memberOf o.call "name").bind asStr

/-- What an attested unedited read asked for: its path, offset and limit. A missing one is
`null`. -/
def readArgs (o : Observation) : Option (String × Value × Value) :=
 if !attested o || calledTool o ≠ some "read" || !errorFree o.message || !unedited o then none
 else ((memberOf o.call "arguments").bind asObject).bind fun args =>
  (strMember args "path").map fun path =>
   (path, (get? args "offset").getD .null, (get? args "limit").getD .null)

def readKey (floatText : F64 → List Char) (o : Observation) : Option (List Char) :=
 (readArgs o).map fun (path, offset, limit) =>
  compact floatText (.array [.string path, offset, limit])

def latestReads (floatText : F64 → List Char) (observations : List Observation) :
 List (List Char × String) :=
 observations.foldl (fun latest o => match readKey floatText o with
  | some key => OrdMap.insert latest key o.id
  | none => latest) []

def isTextBlock (block : Value) : Bool :=
 (memberOf block "type").bind asStr = some "text"
  && ((memberOf block "text").bind asStr).isSome

def replacementContent : Value := textBlocks replacementText

/-- The bytes of the content an observation is masked from; none when it stays. -/
def maskedBytes (floatText : F64 → List Char) (latest : List (List Char × String)) (o : Observation) :
 Option Nat :=
 if !errorFree o.message || !attested o || o.entry.sourceEntry.entryType ≠ "message" then none
 else if calledTool o = some "read"
  ∧ (readKey floatText o).all (fun key => get? latest key = some o.id) = true then none
 else match get? o.message "content" with
  | some (.array content) =>
   if content.isEmpty || !content.all isTextBlock then none
   -- explicit earlier edits are kept
   else if !unedited o then none
   else
    let oldBytes := compactBytes floatText (.array content)
    if oldBytes ≤ compactBytes floatText replacementContent then none else some oldBytes
  | _ => none

structure Plan where
 edits : List GroupEntry
 removedBytes : Nat

def maskEdit (id : String) : GroupEntry := .contextEdit id (some (.text replacementText))

def Plan.add (floatText : F64 → List Char) (latest : List (List Char × String)) (plan : Plan)
 (o : Observation) : Plan :=
 match maskedBytes floatText latest o with
 | none => plan
 | some oldBytes =>
  let removed := oldBytes - compactBytes floatText replacementContent
  { edits := plan.edits ++ [maskEdit o.id]
    removedBytes := min (plan.removedBytes + removed) (2 ^ 64 - 1) }

def oldObservations (batches : List (List Observation)) : List Observation :=
 (batches.take (batches.length - retainedBatches)).flatten

def plan (floatText : F64 → List Char) (projection : SessionProjection) : Plan :=
 let batches := batches projection
 (oldObservations batches).foldl (Plan.add floatText (latestReads floatText batches.flatten))
  { edits := [], removedBytes := 0 }

def planTargets (floatText : F64 → List Char) (projection : SessionProjection) : List String :=
 ((oldObservations (batches projection)).filter fun o =>
  (maskedBytes floatText (latestReads floatText (batches projection).flatten) o).isSome).map
   Observation.id

theorem plan_edits (floatText : F64 → List Char) (projection : SessionProjection) :
 (plan floatText projection).edits = (planTargets floatText projection).map maskEdit := by
 have key : ∀ (latest : List (List Char × String)) (observations : List Observation) (start : Plan),
  (observations.foldl (Plan.add floatText latest) start).edits = start.edits
   ++ ((observations.filter fun o => (maskedBytes floatText latest o).isSome).map
    Observation.id).map maskEdit := by
  intro latest observations
  induction observations with
  | nil => exact fun start => by simp
  | cons o rest ih =>
   intro start
   rw [List.foldl_cons, ih]
   unfold Plan.add
   cases hm : maskedBytes floatText latest o with
   | none | some bytes => simp [hm]
 exact key _ _ _

end Bake.AgentSession
