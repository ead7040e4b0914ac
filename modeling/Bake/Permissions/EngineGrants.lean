import Bake.Permissions.EngineRecords

/-!
# What a call may run under

The standard engine reads the standing mode first and asks for one approval at most. A call
comes back with the policy it read, or with the one it was granted; in the second case its
trace is known whole: the request was written, then the answerer was asked under `ask` and
said `allowed-once`, and that was written before the call went on.
-/

open List

namespace Bake.Permissions

open Bake.Json Bake.Session Interleave FileTree
open ApprovalSession (approvedNext approvedWith approverNext recordAskedNext recordDecidedNext
 resolveNext unwritten)

/-- What an approval is asked for: the call escalates from the policy read first. -/
structure Pending.Asks (p : Pending) (first : StandingPermissions) (mode : SandboxMode)
 (justification : String) : Prop where
 layers : p.layers = []
 escalates : Escalates p.call first.policy mode justification
 grant : p.need.grant = first.policy.withMode mode

/-- What has happened once the request is written. -/
def askedTrace (p : Pending) (id : String) (first second : StandingPermissions) : List Moment :=
 [.evaluated first, .evaluated second, .drew id, .wrote (p.asked id) false]

def grantTrace (p : Pending) (id : String) (first second : StandingPermissions) : List Moment :=
 askedTrace p id first second ++ [.started .ask, .asked, .answered (some .allowedOnce)]

/-- What has happened once the grant is written and returned. -/
def grantedTrace (p : Pending) (id : String) (first second : StandingPermissions) : List Moment :=
 grantTrace p id first second
  ++ [.wrote (.decided id .allowedOnce) false, .approved (some id) (.ok .allowedOnce)]

section Shape

variable (root : Path) (session : Option String)

def Pinned (standing : StandingPermissions) : Prop :=
 standing.workspaceRoot = root ∧ standing.sessionId = session

/-- A policy a call may run under: the one the standing layer read, or a wider one granted. -/
def Allowed (call : ToolCall) (policy : SandboxPolicy) (trace : List Moment) : Prop :=
 ∃ first second, Pinned root session first
  ∧ ((policy = first.policy ∧ trace = [.evaluated first, .evaluated second])
   ∨ ∃ p id mode justification, p.call = call ∧ p.Asks first mode justification
    ∧ policy = first.policy.withMode mode ∧ trace = grantedTrace p id first second)

/-- An approval is being asked for, and `trace` has come behind the layers. -/
def Asking (p : Pending) (task : Task) (trace : StandingPermissions → StandingPermissions → List Moment) :
 Prop :=
 ∃ first second mode justification, Pinned root session first ∧ p.Asks first mode justification
  ∧ task.trace = trace first second

def NoResult (task : Task) : Prop := ∀ id result, .approved id result ∉ task.trace

/-- What has happened to a call, by its stage. -/
def Shape (task : Task) : Prop :=
 match task.stage with
 | .start _ _ => task.trace = []
 | .resolve call _ layers policy =>
  (layers = [standingModeLayer, escalationLayer] ∧ policy = none ∧ task.trace = [])
  ∨ (layers = [escalationLayer] ∧ ∃ first, Pinned root session first ∧ policy = some first.policy
   ∧ task.trace = [.evaluated first])
  ∨ (layers = [] ∧ ∃ final, policy = some final ∧ Allowed root session call final task.trace)
 | .approve p => Asking root session p task fun first second => [.evaluated first, .evaluated second]
 | .recordAsked p id =>
  Asking root session p task fun first second => [.evaluated first, .evaluated second, .drew id]
 | .request p id => ∃ i, id = some i ∧ Asking root session p task (askedTrace p i)
 | .poll p id policy => ∃ i, id = some i
  ∧ Asking root session p task fun first second => askedTrace p i first second ++ [.started policy]
 | .race p id asking => ∃ i, id = some i
  ∧ Asking root session p task fun first second =>
   askedTrace p i first second ++ .started .ask :: (if asking then [.asked] else [])
 | .check p id outcome => ∃ i answer, id = some i ∧ outcome = answer.getD .unavailable
  ∧ Asking root session p task fun first second =>
   askedTrace p i first second ++ [.started .ask, .asked, .answered answer]
 | .recordDecided p id outcome => ∃ i, id = some i ∧ NoResult task
  ∧ (outcome = .allowedOnce → Asking root session p task (grantTrace p i))
 | .approved p result => (∀ id other, .approved id other ∈ task.trace → other = result)
  ∧ (result = .ok .allowedOnce → ∃ i, Asking root session p task (grantedTrace p i))
 | .returned call result =>
  match result with
  | .ok policy => Allowed root session call policy task.trace
  | .error text => ∀ id result, .approved id result ∈ task.trace →
   result ≠ .ok .allowedOnce ∧ ∀ error, result = .error error → text = error

end Shape

variable {root : Path} {session : Option String} {s s' : ApprovalSession} {t : Nat}

/-- The knobs may be switched; the root and the session stay. -/
def Standard (root : Path) (session : Option String) (s : ApprovalSession) : Prop :=
 s.bound = true ∧ Pinned root session s.standing

variable {trace : List Moment}

theorem noResult_of {task : Task} (h : task.trace = trace)
 (hno : ∀ moment ∈ trace, ∀ id result, moment ≠ .approved id result) : NoResult task :=
 fun id result hm => hno _ (h ▸ hm) id result rfl

theorem asked_admitted {p : Pending} {id : String} {aborted : Bool} {e : ApprovalEntry}
 (h : (p.asked id).admitted aborted = some e) : e = p.asked id ∧ aborted = false := by
 cases aborted with
 | true => simp [Pending.asked, ApprovalEntry.admitted] at h
 | false => exact ⟨(Option.some.inj h).symm, rfl⟩

theorem Standard.record (h : Standard root session s) (entry : ApprovalEntry) (cancel : Option Nat)
 (write : Write) : Standard root session (s.record entry cancel write).1 := by
 rcases s.record_cases entry cancel write with ⟨text, heq⟩ | ⟨-, heq⟩ | ⟨stamp, e, -, -, heq⟩ |
  ⟨error, landed, -, -, heq⟩ <;> rw [heq] <;> exact h

theorem recordAskedNext_session (s : ApprovalSession) (p : Pending) (id : String) (write : Write) :
 (s.recordAskedNext p id write).1 = (s.record (p.asked id) p.signal write).1 := by
 unfold recordAskedNext
 generalize s.record (p.asked id) p.signal write = r
 obtain ⟨s', text | _ | e⟩ := r <;> rfl

theorem recordDecidedNext_session (s : ApprovalSession) (p : Pending) (id : String)
 (outcome : EscalationOutcome) (write : Write) :
 (s.recordDecidedNext p id outcome write).1 = (s.record (.decided id outcome) p.signal write).1 := by
 unfold recordDecidedNext
 generalize s.record (.decided id outcome) p.signal write = r
 obtain ⟨s', text | _ | _ | _⟩ := r <;> rfl

theorem Shape.resolve (h : Standard root session s) {call : ToolCall} {signal : Option Nat}
 {layers : List PolicyLayer} {policy : Option SandboxPolicy}
 (hs : Shape root session ⟨.resolve call signal layers policy, trace⟩) :
 Shape root session ⟨(s.resolveNext call signal policy layers).2,
  trace ++ (s.resolveNext call signal policy layers).1⟩ := by
 rcases hs with ⟨rfl, rfl, rfl⟩ | ⟨rfl, first, hpin, rfl, rfl⟩ | ⟨rfl, final, rfl, hallowed⟩
 · -- the standing layer
   exact .inr (.inl ⟨rfl, s.standing, h.2, rfl, rfl⟩)
 · -- the escalation layer
   have hnone : ∀ text : String, Shape root session ⟨.returned call (.error text),
    [.evaluated first, .evaluated s.standing]⟩ := fun text id result hm =>
    absurd hm (by simp)
   unfold resolveNext
   simp only [escalationLayer]
   cases hd : escalationDecide call (some first.policy) with
   | pass =>
    exact .inr (.inr ⟨rfl, first.policy, rfl, first, s.standing, hpin, .inl ⟨rfl, rfl⟩⟩)
   | setPolicy next => exact absurd hd (decide_ne_setPolicy call _ next)
   | refuse text => exact hnone text
   | requireApproval need =>
    obtain ⟨mode, justification, hesc, hgrant, -⟩ := decide_requireApproval hd
    exact ⟨first, s.standing, mode, justification, hpin, ⟨rfl, hesc, hgrant⟩, rfl⟩
 · show Allowed root session call final (trace ++ [])
   rwa [append_nil]

theorem Shape.approved {p : Pending} {result : Except String EscalationOutcome}
 (hs : Shape root session ⟨.approved p result, trace⟩) :
 Shape root session ⟨approvedNext p result, trace⟩ := by
 obtain ⟨hone, hgrant⟩ := hs
 unfold approvedNext
 split
 · obtain ⟨i, first, second, mode, justification, hpin, hasks, htrace⟩ := hgrant rfl
   exact .inr (.inr ⟨hasks.layers, p.need.grant, rfl, first, second, hpin,
    .inr ⟨p, i, mode, justification, rfl, hasks, hasks.grant, htrace⟩⟩)
 next outcome hne =>
  intro id other hm
  obtain rfl := hone id other hm
  exact ⟨fun he => hne (by injection he), fun error he => absurd he (by simp)⟩
 next text =>
  intro id other hm
  obtain rfl := hone id other hm
  exact ⟨by simp, fun error he => by injection he⟩

theorem Shape.recordAsked {p : Pending} {id : String} {trace : List Moment}
 (hs : Shape root session ⟨.recordAsked p id, trace⟩) (write : Write) :
 Shape root session ⟨(s.recordAskedNext p id write).2.2,
  trace ++ (s.recordAskedNext p id write).2.1⟩ := by
 obtain ⟨first, second, mode, justification, hpin, hasks, htrace⟩ := hs
 have htrace : trace = [.evaluated first, .evaluated second, .drew id] := htrace
 subst htrace
 have hrefused : ∀ result : Except String EscalationOutcome, result ≠ .ok .allowedOnce →
  Shape root session ⟨(approvedWith p (some id) result).2,
   [.evaluated first, .evaluated second, .drew id] ++ (approvedWith p (some id) result).1⟩ := by
  intro result hne
  refine ⟨fun i other hm => ?_, fun he => absurd he hne⟩
  simp only [approvedWith, cons_append, nil_append, mem_cons,
   reduceCtorEq, Moment.approved.injEq, not_mem_nil, or_false, false_or] at hm
  exact hm.2
 unfold recordAskedNext
 rcases s.record_cases (p.asked id) p.signal write with ⟨text, heq⟩ | ⟨-, heq⟩ |
  ⟨stamp, e, ha, -, heq⟩ | ⟨error, landed, -, -, heq⟩ <;> rw [heq]
 · exact hrefused _ (by simp)
 · exact hrefused _ (by simp)
 · obtain ⟨rfl, hfired⟩ := asked_admitted ha
   refine ⟨id, rfl, first, second, mode, justification, hpin, hasks, ?_⟩
   dsimp only
   rw [hfired]
   rfl
 · exact hrefused _ (by simp)

theorem Shape.recordDecided {p : Pending} {id : String} {outcome : EscalationOutcome}
 {trace : List Moment} (hs : Shape root session ⟨.recordDecided p (some id) outcome, trace⟩)
 (write : Write) :
 Shape root session ⟨(s.recordDecidedNext p id outcome write).2.2,
  trace ++ (s.recordDecidedNext p id outcome write).2.1⟩ := by
 obtain ⟨i, hi, hno, hgrant⟩ := hs
 obtain rfl : id = i := Option.some.inj hi
 have hno : ∀ id result, .approved id result ∉ trace := hno
 have hrefused : ∀ text : String, Shape root session ⟨.approved p (.error text),
  trace ++ [.approved (some id) (.error text)]⟩ := by
  refine fun text => ⟨fun i other hm => ?_, by simp⟩
  rcases mem_append.mp hm with hm | hm
  · exact absurd hm (hno i other)
  · simp only [mem_singleton, Moment.approved.injEq] at hm
    exact hm.2
 unfold recordDecidedNext
 rcases s.record_cases (.decided id outcome) p.signal write with ⟨text, heq⟩ | ⟨hnone, -⟩ |
  ⟨stamp, e, ha, -, heq⟩ | ⟨error, landed, -, -, heq⟩
 · rw [heq]
   exact hrefused text
 · simp [ApprovalEntry.admitted] at hnone
 · rw [heq]
   cases ha
   refine ⟨fun i other hm => ?_, fun he => ?_⟩
   · rcases mem_append.mp hm with hm | hm
     · exact absurd hm (hno i other)
     · simp only [mem_cons, reduceCtorEq, Moment.approved.injEq, not_mem_nil, or_false,
        false_or] at hm
       exact hm.2
   · -- a grant is written as one only while the signal has not fired
     cases hfired : s.fired p.signal with
     | true =>
      rw [hfired] at he
      simp at he
     | false =>
      rw [hfired] at he
      obtain rfl : outcome = .allowedOnce := by simpa using he
      obtain ⟨first, second, mode, justification, hpin, hasks, htrace⟩ := hgrant rfl
      have htrace : trace = grantTrace p id first second := htrace
      exact ⟨id, first, second, mode, justification, hpin, hasks, by rw [htrace]; rfl⟩
 · rw [heq]
   exact hrefused _

theorem Shape.notGranted {p : Pending} {i : String} {outcome : EscalationOutcome}
 (hne : outcome ≠ .allowedOnce) (hno : ∀ id result, .approved id result ∉ trace) :
 Shape root session ⟨.recordDecided p (some i) outcome, trace ++ []⟩ := by
 rw [append_nil]
 exact ⟨i, rfl, hno, fun he => absurd he hne⟩

theorem Shape.approver {stage stage' : Stage} {moments : List Moment} {choice : EngineChoice}
 (hs : Shape root session ⟨stage, trace⟩)
 (hn : s.approverNext stage choice = some (moments, stage')) :
 Shape root session ⟨stage', trace ++ moments⟩ := by
 unfold approverNext at hn
 split at hn
 · -- the policy is read
   obtain ⟨i, rfl, first, second, mode, justification, hpin, hasks, htrace⟩ := hs
   cases hn
   have htrace : trace = askedTrace _ i first second := htrace
   exact ⟨i, rfl, first, second, mode, justification, hpin, hasks, by rw [htrace]⟩
 next p id policy =>
  obtain ⟨i, rfl, first, second, mode, justification, hpin, hasks, htrace⟩ := hs
  have htrace : trace = askedTrace p i first second ++ [.started policy] := htrace
  have hno : ∀ id result, .approved id result ∉ trace := by
   rw [htrace]
   simp [askedTrace]
  split at hn
  · cases hn
    exact Shape.notGranted (by simp) hno
  split at hn
  · cases hn
    exact Shape.notGranted (by simp) hno
  next hpolicy =>
   cases hn
   obtain rfl : policy = .ask := by
    cases policy with
    | ask => rfl
    | never => exact absurd rfl hpolicy
   exact ⟨i, rfl, first, second, mode, justification, hpin, hasks, by
    show trace ++ [] = _
    rw [htrace, append_nil]
    rfl⟩
 next p id asking answer =>
  obtain ⟨i, rfl, first, second, mode, justification, hpin, hasks, htrace⟩ := hs
  have htrace : trace = askedTrace p i first second
   ++ .started .ask :: (if asking then [.asked] else []) := htrace
  have hasked : trace ++ (if asking then [] else [Moment.asked])
   = askedTrace p i first second ++ [.started .ask, .asked] := by
   rw [htrace]
   cases asking <;> simp
  split at hn
  · cases hn
    refine Shape.notGranted (by simp) ?_
    rw [htrace]
    cases asking <;> simp [askedTrace]
  · dsimp only at hn
    split at hn
    · cases hn
      exact ⟨i, rfl, first, second, mode, justification, hpin, hasks, hasked⟩
    next answer =>
     cases hn
     refine ⟨i, answer, rfl, rfl, first, second, mode, justification, hpin, hasks, ?_⟩
     show trace ++ (_ ++ _) = _
     rw [← append_assoc, hasked]
     simp
 · -- the last look at the signal
   rename_i p id outcome
   obtain ⟨i, answer, rfl, rfl, first, second, mode, justification, hpin, hasks, htrace⟩ := hs
   have htrace : trace = askedTrace p i first second ++ [.started .ask, .asked, .answered answer] :=
    htrace
   cases hn
   refine ⟨i, rfl, ?_, fun he => ?_⟩
   · refine noResult_of (append_nil _) ?_
     rw [htrace]
     simp [askedTrace]
   cases hfired : s.fired p.signal with
   | true =>
    rw [hfired] at he
    simp at he
   | false =>
    rw [hfired] at he
    obtain rfl : answer = some .allowedOnce := by
     cases answer with
     | none => simp at he
     | some outcome =>
      obtain rfl : outcome = .allowedOnce := by simpa using he
      rfl
    refine ⟨first, second, mode, justification, hpin, hasks, ?_⟩
    show trace ++ [] = _
    rw [htrace, append_nil]
    rfl
 · simp at hn

/-- **A call's trace keeps its shape** through every section of the standard engine. -/
theorem Shape.next (h : Standard root session s) {task task' : Task} {choice : EngineChoice}
 (hs : Shape root session task)
 (hn : (engineProgram .standard).next s t task choice = some (s', task')) :
 Standard root session s' ∧ Shape root session task' := by
 obtain ⟨⟨s₁, moments, stage'⟩, hnext, heq⟩ := Option.map_eq_some_iff.mp hn
 cases heq
 obtain ⟨stage, trace⟩ := task
 dsimp only at hnext ⊢
 unfold ApprovalSession.next at hnext
 split at hnext
 · cases hnext
   have htrace : trace = [] := hs
   exact ⟨h, .inl ⟨rfl, rfl, by rw [htrace]; rfl⟩⟩
 · simp only [Option.some.injEq, Prod.mk.injEq] at hnext
   obtain ⟨rfl, hnext⟩ := hnext
   have := Shape.resolve h hs
   rw [hnext] at this
   exact ⟨h, this⟩
 next p id =>
  rw [if_pos h.1] at hnext
  split at hnext
  · simp at hnext
  · cases hnext
    obtain ⟨first, second, mode, justification, hpin, hasks, htrace⟩ := hs
    have htrace : trace = [.evaluated first, .evaluated second] := htrace
    exact ⟨h, first, second, mode, justification, hpin, hasks, by rw [htrace]; rfl⟩
 next p id write =>
  have hstandard := h.record (p.asked id) p.signal write
  have hshape := @Shape.recordAsked root session s p id trace hs write
  rw [← recordAskedNext_session] at hstandard
  rw [Option.some.inj hnext] at hstandard hshape
  exact ⟨hstandard, hshape⟩
 next p id outcome write =>
  have hstandard := h.record (.decided id outcome) p.signal write
  have hshape := @Shape.recordDecided root session s p id outcome trace hs write
  rw [← recordDecidedNext_session] at hstandard
  rw [Option.some.inj hnext] at hstandard hshape
  exact ⟨hstandard, hshape⟩
 next p outcome =>
  obtain ⟨i, hi, -⟩ := hs
  simp at hi
 · cases hnext
   exact ⟨h, (append_nil trace).symm ▸ Shape.approved hs⟩
 · obtain ⟨⟨ms, st'⟩, happrover, heq⟩ := Option.map_eq_some_iff.mp hnext
   simp only [Prod.mk.injEq] at heq
   obtain ⟨rfl, rfl, rfl⟩ := heq
   exact ⟨h, Shape.approver hs happrover⟩

theorem Standard.act (h : Standard root session s) (event : EngineEvent) :
 Standard root session (s.act event) := by
 cases event with
 | gap error | append entry =>
  simp only [ApprovalSession.act]
  split <;> exact h
 | _ => exact h

theorem standard_keeps (root : Path) (session : Option String) :
 (engineProgram .standard).Keeps (Standard root session) fun _ _ => Shape root session where
 next hi hj hn := Shape.next hi hj hn
 others _ _ _ := fun _ hq => hq
 spawn := by
  intro s t task _ he
  obtain ⟨call, signal, rfl⟩ := Task.entry_eq he
  exact rfl
 act hi e := ⟨hi.act e, fun hj => hj⟩

theorem standard_run (standing : StandingPermissions) (aborted : Nat → Bool)
 (others : List SessionEntry) (inputs : List (Input Task EngineChoice EngineEvent)) :
 Program.Holds (Standard standing.workspaceRoot standing.sessionId)
  (fun _ _ => Shape standing.workspaceRoot standing.sessionId)
  ((engineProgram .standard).run (.opened standing true aborted others) inputs) := by
 have hreach : (engineProgram .standard).Reachable
  (fun s => ∃ aborted others, s = .opened standing true aborted others)
  ((engineProgram .standard).run (.opened standing true aborted others) inputs) :=
  Program.reachable_run ⟨aborted, others, rfl⟩ inputs
 refine (standard_keeps _ _).reachable (fun s hs => ?_) hreach
 obtain ⟨aborted, others, rfl⟩ := hs
 exact ⟨rfl, rfl, rfl⟩

/-- **No call runs wider than the standing mode without a recorded grant for it.** In every
run of calls through the standard engine, a call that comes back with a policy keeps the
session's root and id, and either has the mode the standing layer read, or the mode its
arguments name, strictly wider and justified: then its request was written, it started
under `ask`, the answerer was asked and said `allowed-once`, and that answer was written
while the signal had not fired, in this order. A call that comes back with an error leaves no
`allowed-once` among the entries the session keeps; one is in the file only where its write
failed after its line had reached it, which is then what the error says. -/
theorem resolve_granted (shown : Value → String) (standing : StandingPermissions)
 (aborted : Nat → Bool) (others : List SessionEntry)
 (inputs : List (Input Task EngineChoice EngineEvent)) :
 let c := (engineProgram .standard).run (.opened standing true aborted others) inputs
 ∀ task ∈ c.tasks, ∀ call result, task.stage = .returned call result →
  (∀ policy, result = .ok policy →
   policy.workspaceRoot = standing.workspaceRoot ∧ policy.sessionId = standing.sessionId
   ∧ ∃ first second,
    (task.trace = [.evaluated first, .evaluated second] ∧ policy.mode = first.sandbox)
    ∨ ∃ mode justification request,
     escalationArg call.args "sandbox_permissions" = .ok (some mode.asStr)
     ∧ policy.mode = mode ∧ first.sandbox.isWidenedBy mode
     ∧ escalationArg call.args "justification" = .ok (some justification)
     ∧ isJsBlank justification = false
     ∧ request.toolName = call.toolName ∧ request.callId = some call.callId
     ∧ request.sandbox = some mode
     ∧ task.trace = [.evaluated first, .evaluated second, .drew request.id,
      .wrote (.asked request) false, .started .ask, .asked, .answered (some .allowedOnce),
      .wrote (.decided request.id .allowedOnce) false,
      .approved (some request.id) (.ok .allowedOnce)]
     ∧ .asked request ∈ written shown c.shared.entries
     ∧ .decided request.id .allowedOnce ∈ written shown c.shared.entries)
  ∧ ∀ text, result = .error text → ∀ id, .drew id ∈ task.trace →
   .decided id .allowedOnce ∉ written shown c.shared.entries
   ∧ (.decided id .allowedOnce ∈ written shown c.shared.file →
    ∃ error, text = unwritten error ∧ c.shared.gap = some error) := by
 intro c task hm call result hstage
 obtain ⟨t, ht⟩ := mem_iff_getElem?.mp hm
 have hown : Own shown c.shared t task :=
  (engine_run shown .standard standing true aborted others inputs).2 t task ht
 have hshape : Shape standing.workspaceRoot standing.sessionId task :=
  (standard_run standing aborted others inputs).2 t task ht
 unfold Shape at hshape
 rw [hstage] at hshape
 refine ⟨?_, ?_⟩
 · rintro policy rfl
   obtain ⟨first, second, ⟨hroot, hsession⟩, ⟨rfl, htrace⟩ |
    ⟨p, id, mode, justification, rfl, hasks, rfl, htrace⟩⟩ := hshape
   · exact ⟨hroot, hsession, first, second, .inl ⟨htrace, rfl⟩⟩
   · have hesc := hasks.escalates
     refine ⟨hroot, hsession, first, second, .inr ⟨mode, justification,
      { id, toolName := p.call.toolName, callId := some p.call.callId,
        reason := some p.need.reason, sandbox := some p.need.grant.mode }, hesc.named, rfl,
      hesc.wider, hesc.justified, hesc.notBlank, rfl, rfl, ?_, htrace, ?_, ?_⟩⟩
     · rw [hasks.grant]
       rfl
     · exact hown.wrote _ false (by rw [htrace]; simp [grantedTrace, grantTrace, askedTrace, Pending.asked])
     · exact hown.wrote _ false (by rw [htrace]; simp [grantedTrace])
 rintro text rfl id hdrew
 have hclosed := hown.closed id hdrew
 rw [hstage] at hclosed
 rcases hclosed with ⟨asked, ha⟩ | ⟨result, hr⟩
 · simp [Stage.inFlight] at ha
 obtain ⟨hne, htext⟩ := hshape (some id) result hr
 have hsettled := (hown.settled id result hr).2
 have hkept : Kept shown c.shared :=
  (engine_run shown .standard standing true aborted others inputs).1
 cases result with
 | ok outcome =>
  have hnot : .decided id .allowedOnce ∉ written shown c.shared.file := by
   intro hm
   rcases hsettled with ⟨-, hone⟩ | ⟨-, hno⟩
   · exact hne (by rw [hone _ hm])
   · exact hno _ hm rfl
  exact ⟨fun hm => hnot (hkept.mem_file hm), fun hm => absurd hm hnot⟩
 | error error =>
  refine ⟨hsettled.1 .allowedOnce, fun hm => ?_⟩
  obtain ⟨e, hgap, he⟩ := hsettled.2 .allowedOnce hm
  exact ⟨e, (htext error rfl).trans he, hgap⟩

/-- A call refused because its answer was not synced leaves the grant in the file. -/
theorem resolve_unsynced :
 ¬ ∀ task ∈ unsyncedRun.tasks, ∀ call text, task.stage = .returned call (.error text) →
  ∀ id, .drew id ∈ task.trace →
   .decided id .allowedOnce ∉ written (fun _ => "") unsyncedRun.shared.file := by
 intro h
 obtain ⟨task, htasks, hstage, hdrew⟩ : ∃ task, unsyncedRun.tasks = [task]
  ∧ task.stage = .returned buildCall (.error (unwritten "sync failed"))
  ∧ task.trace[2]? = some (.drew "r1") := ⟨_, rfl, rfl, rfl⟩
 rw [htasks] at h
 exact h task (mem_singleton.mpr rfl) _ _ hstage _ (mem_of_getElem? hdrew) (by decide +kernel)

end Bake.Permissions
