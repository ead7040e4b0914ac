import Bake.Session.Edited
import Bake.Session.GroupAppend

/-!
# The omission of a failed attempt

Before a failed response is tried again, context edits leave it and the results of its calls
out of the context. The results are looked up in the projection, behind the attempt and
before the next assistant message; the edits are one group, the attempt's last. A group
append that stops leaves the first of them.
-/

open List

namespace Bake.AgentSession

open Bake.Json Bake.Session

/-! ## The omission -/

def shown (entries : List ProjectedSessionEntry) : List (String × AgentMessage) :=
 entries.flatMap fun entry => entry.messages.map fun message => (entry.sourceEntry.id, message)

def isAssistant (message : AgentMessage) : Bool := roleOf message = some "assistant"

def answers (callIds : List String) (message : AgentMessage) : Bool :=
 roleOf message = some "toolResult" && (strMember message "toolCallId").any callIds.contains

def attemptToolResults (projection : SessionProjection) (attempt : String) (callIds : List String) :
 List String :=
 let behind := (projection.entries.dropWhile fun entry => entry.sourceEntry.id ≠ attempt).drop 1
 (((shown behind).takeWhile fun m => !isAssistant m.2).filter fun m => answers callIds m.2).map
  Prod.fst

/-- The entries an omission leaves out, in the order of their edits. -/
def omissionTargets (projection : SessionProjection) (entryId : Option String)
 (callIds : List String) : List String :=
 (entryId.elim [] fun id => attemptToolResults projection id callIds) ++ entryId.toList

def omissionGroup (targets : List String) : List GroupEntry :=
 targets.map fun id => .contextEdit id none

inductive OmissionFailure where
 /-- The attempt is in the transcript and has no entry. -/
 | noSourceEntry
 | shutDown
 /-- An earlier write failed, so nothing more is written. -/
 | afterGap (error : SessionError)
 | write (error : SessionError)

/-- What an omission works with: the session, the gap its writes have left, and the
transcript of the agent. -/
structure Recorded where
 world : World
 gap : Option SessionError
 transcript : List AgentMessage

/-- `refresh_context`. -/
def Recorded.refresh (r : Recorded) : Recorded :=
 { r with transcript := r.world.manager.buildSessionProjection.messages }

/-- `omit_recovery_attempt`, given whether the session is shut down and whether the
transcript holds the attempt. -/
def Recorded.omitRecoveryAttempt (r : Recorded) (env : Env) (shutDown inTranscript : Bool)
 (callIds : List String) (entryId : Option String) : Option OmissionFailure × Recorded :=
 if entryId = none ∧ inTranscript then (some .noSourceEntry, r)
 else if shutDown then (some .shutDown, r)
 else match r.gap with
  | some error => (some (.afterGap error), r)
  | none =>
   let targets := omissionTargets r.world.manager.buildSessionProjection entryId callIds
   match r.world.appendGroup env (omissionGroup targets) with
   | (.ok _, world) => (none, { r with world }.refresh)
   | (.error error, world) =>
    let r := { r with world, gap := some error }
    match error with
    -- the edits that are synced are refreshed into the transcript
    | .groupWrite _ (_ :: _) _ _ => (some (.write error), r.refresh)
    | _ => (some (.write error), r)

/-! ## Pairs -/

/-- A result follows the assistant message that holds its call, with no other assistant
message between them. -/
def FollowsCall (before : List AgentMessage) (result : AgentMessage) : Prop :=
 ∃ earlier assistant between id, before = earlier ++ assistant :: between
  ∧ isAssistant assistant = true ∧ (∀ message ∈ between, isAssistant message = false)
  ∧ strMember result "toolCallId" = some id ∧ id ∈ callIds assistant

/-- Every tool result follows its call. -/
def Paired (messages : List AgentMessage) : Prop :=
 ∀ before result after, messages = before ++ result :: after →
  roleOf result = some "toolResult" → FollowsCall before result

def callsAfter (calls : List String) (messages : List AgentMessage) : List String :=
 messages.foldl (fun calls message => if isAssistant message then callIds message else calls) calls

/-- Every tool result answers one of the calls of the assistant message before it. -/
def pairedFrom (calls : List String) : List AgentMessage → Prop
 | [] => True
 | message :: rest =>
  (roleOf message = some "toolResult" → answers calls message = true)
  ∧ pairedFrom (callsAfter calls [message]) rest

instance decidablePairedFrom : ∀ calls messages, Decidable (pairedFrom calls messages)
 | _, [] => .isTrue trivial
 | calls, message :: rest =>
  have := decidablePairedFrom (callsAfter calls [message]) rest
  inferInstanceAs (Decidable (_ ∧ _))

theorem callsAfter_append (calls : List String) (a b : List AgentMessage) :
 callsAfter calls (a ++ b) = callsAfter (callsAfter calls a) b := foldl_append ..

variable {messages before : List AgentMessage}

theorem callsAfter_of_not (h : ∀ message ∈ messages, isAssistant message = false)
 (calls : List String) : callsAfter calls messages = calls := by
 induction messages with
 | nil => rfl
 | cons message rest ih =>
  unfold callsAfter
  rw [foldl_cons, if_neg (by simp [h message (mem_cons_self ..)])]
  exact ih fun m hm => h m (mem_cons_of_mem _ hm)

theorem pairedFrom_append {calls : List String} {a b : List AgentMessage} :
 pairedFrom calls (a ++ b) ↔ pairedFrom calls a ∧ pairedFrom (callsAfter calls a) b := by
 induction a generalizing calls with
 | nil => simp [pairedFrom, callsAfter]
 | cons message a ih =>
  rw [cons_append, pairedFrom, ih, pairedFrom, and_assoc,
   show message :: a = [message] ++ a from rfl, callsAfter_append]

theorem answers_iff {calls : List String} {message : AgentMessage} :
 answers calls message = true ↔ roleOf message = some "toolResult"
  ∧ ∃ id, strMember message "toolCallId" = some id ∧ id ∈ calls := by
 unfold answers
 simp [Option.any_eq_true]

/-- The calls a result may answer are those of the last assistant message before it. -/
theorem mem_callsAfter {id : String} :
 id ∈ callsAfter [] before ↔ ∃ earlier assistant between, before = earlier ++ assistant :: between
  ∧ isAssistant assistant = true ∧ (∀ message ∈ between, isAssistant message = false)
  ∧ id ∈ callIds assistant := by
 constructor
 · induction before using List.reverseRecOn with
   | nil => exact by simp [callsAfter]
   | append_singleton before message ih =>
    intro h
    rw [callsAfter_append] at h
    by_cases ha : isAssistant message = true
    · rw [callsAfter, foldl_cons, if_pos ha] at h
      exact ⟨before, message, [], rfl, ha, by simp, h⟩
    · rw [callsAfter_of_not (by simpa using ha)] at h
      obtain ⟨earlier, assistant, between, rfl, hassistant, hbetween, hid⟩ := ih h
      refine ⟨earlier, assistant, between ++ [message], by simp, hassistant, ?_, hid⟩
      intro m hm
      rcases mem_append.mp hm with hm | hm
      · exact hbetween m hm
      · rw [mem_singleton.mp hm]
        simpa using ha
 · rintro ⟨earlier, assistant, between, rfl, ha, hbetween, hid⟩
   rw [callsAfter_append, show assistant :: between = [assistant] ++ between from rfl,
    callsAfter_append, callsAfter_of_not hbetween, callsAfter, foldl_cons, if_pos ha]
   exact hid

theorem followsCall_iff {result : AgentMessage} (hrole : roleOf result = some "toolResult") :
 FollowsCall before result ↔ answers (callsAfter [] before) result = true := by
 rw [answers_iff]
 constructor
 · rintro ⟨earlier, assistant, between, id, hb, ha, hbetween, hid, hcall⟩
   exact ⟨hrole, id, hid, mem_callsAfter.mpr ⟨earlier, assistant, between, hb, ha, hbetween, hcall⟩⟩
 · rintro ⟨-, id, hid, hcall⟩
   obtain ⟨earlier, assistant, between, hb, ha, hbetween, hcall⟩ := mem_callsAfter.mp hcall
   exact ⟨earlier, assistant, between, id, hb, ha, hbetween, hid, hcall⟩

theorem paired_iff : Paired messages ↔ pairedFrom [] messages := by
 have key : ∀ messages gone, pairedFrom (callsAfter [] gone) messages ↔
  ∀ before result after, messages = before ++ result :: after →
   roleOf result = some "toolResult" → FollowsCall (gone ++ before) result := by
  intro messages
  induction messages with
  | nil => exact fun gone => ⟨fun _ before result after h => absurd h (by simp), fun _ => trivial⟩
  | cons message rest ih =>
   intro gone
   rw [pairedFrom, ← callsAfter_append, ih]
   constructor
   · rintro ⟨hfirst, hrest⟩ before result after heq hrole
     cases before with
     | nil =>
      obtain ⟨rfl, -⟩ := List.cons.inj heq
      rw [append_nil, followsCall_iff hrole]
      exact hfirst hrole
     | cons other before =>
      obtain ⟨rfl, hrest'⟩ := List.cons.inj heq
      rw [show gone ++ message :: before = (gone ++ [message]) ++ before by simp]
      exact hrest before result after hrest' hrole
   · intro h
     refine ⟨fun hrole => ?_, fun before result after heq hrole => ?_⟩
     · have := h [] message rest rfl hrole
       rwa [append_nil, followsCall_iff hrole] at this
     · rw [append_assoc, singleton_append]
       exact h (message :: before) result after (by rw [heq]; rfl) hrole
 exact (key messages []).symm

end Bake.AgentSession
