import Bake.Json.Value

/-!
# Approval requests

One permission question about a tool call, and the outcomes it may have.
-/

namespace Bake.Permissions

open Bake.Json

inductive EscalationOutcome where
 /-- Granted for this one call. -/
 | allowedOnce
 /-- Refused by the user, or by the `never` policy. -/
 | rejected
 /-- The request was cancelled before an answer. -/
 | cancelled
 /-- No one can answer. -/
 | unavailable
 deriving DecidableEq, Repr

def EscalationOutcome.asStr : EscalationOutcome → String
 | .allowedOnce => "allowed-once"
 | .rejected => "rejected"
 | .cancelled => "cancelled"
 | .unavailable => "unavailable"

inductive ApprovalPolicy where
 | ask
 | never
 deriving DecidableEq, Repr

structure ApprovalRequest where
 toolName : String
 callId : String
 parentToolCallId : Option String
 reason : String
 arguments : Value

end Bake.Permissions
