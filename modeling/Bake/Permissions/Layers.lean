import Bake.Permissions.Approval
import Bake.Permissions.SandboxPolicy

/-!
# Policy layers

What a tool call's arguments ask for, and the two shipped layers: the standing mode, and
the escalation of one call. An approval is needed exactly for a strictly wider mode with a
justification: `decide_requireApproval`.
-/

namespace Bake.Permissions

open Bake.Json FileTree

/-! ## Escalation -/

/-- `str::parse` of a sandbox mode. -/
def SandboxMode.parse (value : String) : Option SandboxMode :=
 [SandboxMode.readOnly, .workspaceWrite, .dangerFullAccess].find? fun mode => mode.asStr = value

inductive EscalationCheck where
 /-- The call already has the access. -/
 | noOp
 | widen (mode : SandboxMode)
 | refused (text : String)
 deriving DecidableEq

def checkEscalation (effective : SandboxMode) (requested : String) : EscalationCheck :=
 match SandboxMode.parse requested with
 | some mode => if effective.isWidenedBy mode then .widen mode else .noOp
 | none => .refused ("sandbox escalation to \"" ++ requested
  ++ "\" is not strictly wider than this call's current \"" ++ effective.asStr ++ "\" mode")

/-- Rust's `char::is_whitespace`. -/
def isWhitespace (c : Char) : Bool := (isJsWhitespace c && c ≠ '\uFEFF') || c = '\u0085'

def isJsBlank (text : String) : Bool := text.toList.all fun c => isWhitespace c || c = '\uFEFF'

def validateEscalationArgs (sandboxPermissions justification : Option String) : Except String Unit :=
 match sandboxPermissions, justification with
 | some _, none => .error "invalid escalation: sandbox_permissions requires a justification"
 | none, some _ => .error
  "invalid escalation: justification is only valid together with sandbox_permissions"
 | some _, some text =>
  if isJsBlank text then .error "invalid justification: expected a non-empty sentence" else .ok ()
 | none, none => .ok ()

def escalationReason (mode : SandboxMode) (justification : String) : String :=
 "escalate sandbox to " ++ mode.asStr ++ ": " ++ justification

def EscalationOutcome.refusal (outcome : EscalationOutcome) (subject : String)
 (mode : SandboxMode) : Option String :=
 match outcome with
 | .allowedOnce => none
 | .rejected => some ("the user rejected escalating this " ++ subject ++ " to \"" ++ mode.asStr ++ "\"")
 | .cancelled => some ("approval for escalating to \"" ++ mode.asStr ++ "\" was cancelled")
 | .unavailable => some ("sandbox escalation to \"" ++ mode.asStr
  ++ "\" requires approval, but no approval channel is available")

/-! ## Calls and layers -/

inductive BlankJustification where
 | ignoredAlone
 | checked
 deriving DecidableEq

/-- `ToolCall`, as layers see it. The tools that resolve their calls all have a name. -/
structure ToolCall where
 toolName : String
 named : toolName ≠ ""
 callId : String
 parentToolCallId : Option String
 args : Value
 subject : String
 blankJustification : BlankJustification

/-- `StandingPermissions`: the knobs, the workspace root pinned when it was made, and the
session. -/
structure StandingPermissions where
 sandbox : SandboxMode
 approval : ApprovalPolicy
 workspaceRoot : Path
 sessionId : Option String

def StandingPermissions.policy (standing : StandingPermissions) : SandboxPolicy :=
 { SandboxPolicy.new standing.sandbox standing.workspaceRoot with sessionId := standing.sessionId }

def StandingPermissions.set (standing : StandingPermissions) (sandbox : SandboxMode)
 (approval : ApprovalPolicy) : StandingPermissions :=
 { standing with sandbox, approval }

/-- `ApprovalNeed`: `refusal` is the text for an outcome that grants nothing. -/
structure ApprovalNeed where
 reason : String
 grant : SandboxPolicy
 refusal : EscalationOutcome → String

inductive LayerDecision where
 | pass
 | setPolicy (policy : SandboxPolicy)
 | refuse (text : String)
 | requireApproval (need : ApprovalNeed)

/-- `PolicyLayer`: a layer decides a call by the standing permissions it reads and the
policy so far. -/
structure PolicyLayer where
 name : String
 evaluate : StandingPermissions → ToolCall → Option SandboxPolicy → LayerDecision

def standingModeLayer : PolicyLayer where
 name := "standing-mode"
 evaluate standing _ _ := .setPolicy standing.policy

def escalationArg (args : Value) (key : String) : Except String (Option String) :=
 match args.asObject.bind fun members => OrdMap.get? members key with
 | none | some .null => .ok none
 | some (.string text) => .ok (some text)
 | some _ => .error ("invalid escalation: " ++ key ++ " must be a string")

/-- The justification that is checked: a blank one alone may be ignored. -/
def effectiveJustification (blank : BlankJustification) (requested justification : Option String) :
 Option String :=
 match blank, requested, justification with
 | .ignoredAlone, none, some text => if jsTrim text.toList = [] then none else some text
 | _, _, justification => justification

/-- `EscalationLayer::decide` behind the arguments' types and the policy so far. -/
def decideEscalation (call : ToolCall) (policy : SandboxPolicy)
 (requested justification : Option String) : LayerDecision :=
 if requested.any fun requested => checkEscalation policy.mode requested = .noOp then .pass
 else
  let justification := effectiveJustification call.blankJustification requested justification
  match validateEscalationArgs requested justification with
  | .error text => .refuse text
  | .ok () =>
   match requested, justification with
   | some requested, some justification =>
    match checkEscalation policy.mode requested with
    | .noOp => .pass
    | .refused text => .refuse text
    | .widen mode => .requireApproval
     { reason := escalationReason mode justification
       grant := policy.withMode mode
       refusal := fun outcome => (outcome.refusal call.subject mode).getD "" }
   | _, _ => .pass

/-- `EscalationLayer::decide`. -/
def escalationDecide (call : ToolCall) (policy : Option SandboxPolicy) : LayerDecision :=
 match escalationArg call.args "sandbox_permissions", escalationArg call.args "justification" with
 | .error text, _ => .refuse text
 | .ok _, .error text => .refuse text
 | .ok requested, .ok justification =>
  match policy with
  | none =>
   if requested = none ∧ justification = none then .pass
   else .refuse ("sandbox_permissions is not available in this composition (no sandboxing "
    ++ (if call.subject = "command" then "executor" else "filesystem") ++ " to escalate)")
  | some policy => decideEscalation call policy requested justification

def escalationLayer : PolicyLayer where
 name := "escalation"
 evaluate _ call policy := escalationDecide call policy

/-! ## What they decide -/

theorem SandboxMode.parse_eq_some {value : String} {mode : SandboxMode} :
 SandboxMode.parse value = some mode ↔ mode.asStr = value := by
 constructor
 · intro h
   simpa using List.find?_some h
 · rintro rfl
   cases mode <;> decide

theorem checkEscalation_widen {effective mode : SandboxMode} {requested : String}
 (h : checkEscalation effective requested = .widen mode) :
 mode.asStr = requested ∧ effective.isWidenedBy mode := by
 unfold checkEscalation at h
 split at h
 next m hm =>
  split at h
  next hw =>
   cases h
   exact ⟨SandboxMode.parse_eq_some.mp hm, hw⟩
  · simp at h
 · simp at h

theorem validateEscalationArgs_ok {requested justification : String}
 (h : validateEscalationArgs (some requested) (some justification) = .ok ()) :
 isJsBlank justification = false := by
 simp only [validateEscalationArgs] at h
 split at h
 · simp at h
 next hb =>
  exact Bool.eq_false_iff.mpr hb

structure Escalates (call : ToolCall) (policy : SandboxPolicy) (mode : SandboxMode)
 (justification : String) : Prop where
 named : escalationArg call.args "sandbox_permissions" = .ok (some mode.asStr)
 justified : escalationArg call.args "justification" = .ok (some justification)
 notBlank : isJsBlank justification = false
 wider : policy.mode.isWidenedBy mode

/-- **An approval is needed for a strict widening only**, named by the call and justified,
and what it grants is the policy so far in the wider mode. -/
theorem decide_requireApproval {call : ToolCall} {policy : SandboxPolicy} {need : ApprovalNeed}
 (h : escalationDecide call (some policy) = .requireApproval need) :
 ∃ mode justification, Escalates call policy mode justification
  ∧ need.grant = policy.withMode mode ∧ need.reason = escalationReason mode justification := by
 unfold escalationDecide at h
 split at h
 · simp at h
 · simp at h
 rename_i requested justification hr hj
 dsimp only at h
 unfold decideEscalation at h
 split at h
 · simp at h
 dsimp only at h
 split at h
 · simp at h
 rename_i hok
 split at h
 next requested text _ heff =>
  have hsame : justification = some text := by
   cases hb : call.blankJustification <;> rw [hb] at heff <;> simpa [effectiveJustification] using heff
  split at h
  · simp at h
  · simp at h
  next mode hw =>
   cases h
   obtain ⟨rfl, hwide⟩ := checkEscalation_widen hw
   rw [heff] at hok
   exact ⟨mode, text, ⟨hr, hsame ▸ hj, validateEscalationArgs_ok hok, hwide⟩, rfl, rfl⟩
 · simp at h

theorem decide_ne_setPolicy (call : ToolCall) (policy : Option SandboxPolicy)
 (next : SandboxPolicy) : escalationDecide call policy ≠ .setPolicy next := by
 intro h
 unfold escalationDecide at h
 split at h
 · simp at h
 · simp at h
 split at h
 · split at h <;> simp at h
 unfold decideEscalation at h
 split at h
 · simp at h
 dsimp only at h
 split at h
 · simp at h
 split at h
 · split at h <;> simp at h
 · simp at h

end Bake.Permissions
