import Bake.Agent.NestedAccounts
import Bake.Agent.NestedExclusive

/-!
# Nested calls and their caller

A scope counts the calls in it whose tasks have not ended, a caller's close waits for that
count, and every call resolves once. What the steps of the calls leave in the books is one
of the eight things that can happen to them, so ids stay apart and the record lists calls
in the order they took their places. That is not the order of their admission: a call is
admitted and given its place under different locks, and one admitted behind it may take a
place between.
-/

open List

namespace Bake.Agent.NestedRunner

open Bake.Json Bake.Ai Forest NestedAccounts

variable {pipeline : NestedPipeline} {r r' : NestedRunner} {c : Nat} {call call' : NestedCall}

/-! ## The books -/

/-- How far a call has been entered, from where it is. -/
def stageOf : NestedPlace → CallStage
 | .entered => .entered
 | .numbered => .numbered
 | _ => .recorded

def callAccount (call : NestedCall) : CallAccount where
 scope := call.scope
 id := call.id
 name := call.name
 stage := stageOf call.place
 record := call.record
 finished := call.finished
 child := call.child
 seen := call.seen

def scopeAccount (scope : CallScope) : ScopeAccount where
 root := scope.root
 call := scope.call
 callerId := scope.callerId
 nextId := scope.nextId

def issuedAccount (issued : IssuedCall) : IssuedAccount where
 scope := issued.scope
 taken := issued.stage = .taken
 recorder := issued.recorder

/-- The books of a batch. -/
def accounts (r : NestedRunner) : NestedAccounts where
 issued := r.issued.map issuedAccount
 scopes := r.scopes.map scopeAccount
 calls := r.calls.map callAccount

theorem accounts_calls (hc : r.calls[c]? = some call) :
 r.accounts.calls[c]? = some (callAccount call) := by
 rw [accounts, getElem?_map, hc, Option.map_some]

variable {scope : CallScope}

theorem accounts_scopes {s : Nat} (hs : r.scopes[s]? = some scope) :
 r.accounts.scopes[s]? = some (scopeAccount scope) := by
 rw [accounts, getElem?_map, hs, Option.map_some]

theorem accounts_issued {i : Nat} {issued : IssuedCall} (hi : r.issued[i]? = some issued) :
 r.accounts.issued[i]? = some (issuedAccount issued) := by
 rw [accounts, getElem?_map, hi, Option.map_some]

theorem accounts_setCall (hc : r.calls[c]? = some call) (h : callAccount call' = callAccount call) :
 (r.setCall c call').accounts = r.accounts := by
 simp only [accounts, setCall, OrdMap.map_set_of_eq hc h]

theorem map_modify_of_eq {β γ : Type} {f : β → β} {g : β → γ} (h : ∀ b, g (f b) = g b) (l : List β)
 (k : Nat) : (l.modify k f).map g = l.map g := by
 refine ext_getElem? fun i => ?_
 simp only [getElem?_map, getElem?_modify]
 by_cases hk : k = i <;> cases l[i]? <;> simp [hk, h]

theorem accounts_setScope {s : Nat} {scope' : CallScope} (hs : r.scopes[s]? = some scope)
 (h : scopeAccount scope' = scopeAccount scope) : (r.setScope s scope').accounts = r.accounts := by
 simp only [accounts, setScope, OrdMap.map_set_of_eq hs h]

theorem accounts_setIssued {i : Nat} {issued issued' : IssuedCall} (hi : r.issued[i]? = some issued)
 (h : issuedAccount issued' = issuedAccount issued) :
 (r.setIssued i issued').accounts = r.accounts := by
 simp only [accounts, setIssued, OrdMap.map_set_of_eq hi h]

theorem accounts_modifyScope (k : Nat) {f : CallScope → CallScope}
 (h : ∀ scope, scopeAccount (f scope) = scopeAccount scope) :
 (r.modifyScope k f).accounts = r.accounts := by
 simp only [accounts, modifyScope, map_modify_of_eq h]

theorem Sound.proceedFrom_accounts (h : Sound pipeline r) (hc : r.calls[c]? = some call)
 (hs : r.scopes[call.scope]? = some scope) (answer : NestedAnswer) :
 Step pipeline.jsonBytes r.accounts (r.proceedFrom pipeline c call scope answer).accounts := by
 -- most places are not told apart in the books
 have hstay : ∀ {r₁ : NestedRunner} {place : NestedPlace} {torn : Bool}
  {resolved : Option AgentToolCallOutcome}, r₁.accounts = r.accounts → r₁.calls = r.calls →
  stageOf place = stageOf call.place → Step pipeline.jsonBytes r.accounts
   (r₁.setCall c { call with place, torn, resolved }).accounts := by
  intro r₁ place torn resolved hsame hcalls hstage
  have heq : (r₁.setCall c { call with place, torn, resolved }).accounts = r.accounts :=
   (accounts_setCall (hcalls ▸ hc) (by simp only [callAccount, hstage])).trans hsame
  exact heq ▸ .stay
 cases hplace : call.place with
 | entered =>
  simp only [NestedRunner.proceedFrom, hplace]
  have : Step pipeline.jsonBytes r.accounts _ := Step.number (accounts_calls hc) (accounts_scopes hs)
   (by rw [callAccount, hplace]; rfl)
  simp only [accounts, setScope, setCall, map_set]
  exact this
 | numbered =>
  simp only [NestedRunner.proceedFrom, hplace]
  split
  · exact .stay
  next issued hi =>
   have : Step pipeline.jsonBytes r.accounts _ := Step.record call.args (accounts_calls hc)
    (accounts_scopes hs) (accounts_issued hi) (by rw [callAccount, hplace]; rfl)
   simp only [accounts, setIssued, setCall, map_set]
   exact this
 | recorded =>
  simp only [NestedRunner.proceedFrom, hplace]
  split
  all_goals exact hstay rfl rfl (by rw [hplace]; rfl)
 | site =>
  simp only [NestedRunner.proceedFrom, hplace]
  split
  · exact hstay rfl rfl (by rw [hplace]; rfl)
  split
  · split
    all_goals exact hstay rfl rfl (by rw [hplace]; rfl)
  · exact hstay rfl rfl (by rw [hplace]; rfl)
 | contending =>
  simp only [NestedRunner.proceedFrom, hplace]
  split
  · exact hstay rfl rfl (by rw [hplace]; rfl)
  · refine hstay rfl rfl ?_
    rw [hplace]
    split <;> rfl
 | queued =>
  simp only [NestedRunner.proceedFrom, hplace]
  split
  · exact hstay rfl rfl (by rw [hplace]; rfl)
  split
  · exact hstay rfl rfl (by rw [hplace]; rfl)
  · exact .stay
 | ready =>
  obtain ⟨scope', hscope', hok⟩ := h.calls c call hc
  have hnone : call.child = none := hok.early (by rw [hplace]; rfl)
  simp only [NestedRunner.proceedFrom, hplace]
  split
  · exact hstay rfl rfl (by rw [hplace]; rfl)
  · have : Step pipeline.jsonBytes r.accounts _ := Step.prepare (accounts_calls hc)
     (accounts_scopes hs) (by rw [callAccount, hplace]; simp [stageOf]) hnone
    have hnew : callAccount { call with place := .preparing, child := some r.scopes.length }
     = { callAccount call with child := some r.scopes.length } := by
     simp only [callAccount, hplace, stageOf]
    simp only [accounts, setCall, map_set, map_append, hnew]
    simp only [accounts, length_map] at this
    exact this
 | preparing =>
  simp only [NestedRunner.proceedFrom, hplace]
  split
  · exact hstay rfl rfl (by rw [hplace]; rfl)
  · exact hstay (accounts_modifyScope _ fun _ => rfl) rfl (by rw [hplace]; rfl)
 | executing =>
  simp only [NestedRunner.proceedFrom, hplace]
  exact hstay (accounts_modifyScope _ fun _ => rfl) rfl (by rw [hplace]; rfl)
 | closing =>
  simp only [NestedRunner.proceedFrom, hplace]
  split
  · exact .stay
  split
  · exact hstay (accounts_modifyScope _ fun _ => rfl) rfl (by rw [hplace]; rfl)
  · exact .stay
 | recording outcome =>
  simp only [NestedRunner.proceedFrom, hplace]
  split
  · exact .stay
  next issued hi =>
   have : Step pipeline.jsonBytes r.accounts _ := Step.finish outcome.isError
    (textOf outcome.result) (accounts_calls hc) (accounts_scopes hs) (accounts_issued hi)
    (by rw [callAccount, hplace]; rfl)
   have hnew : callAccount { call with place := .ending outcome, finished := true }
    = { callAccount call with finished := true } := by
    simp only [callAccount, hplace, stageOf]
   simp only [accounts, setIssued, setCall, map_set, hnew]
   exact this
 | leaving =>
  simp only [NestedRunner.proceedFrom, hplace]
  exact hstay (accounts_setScope hs rfl) rfl (by rw [hplace]; rfl)
 | gone =>
  simp only [NestedRunner.proceedFrom, hplace]
  exact .stay
 | _ =>
  simp only [NestedRunner.proceedFrom, hplace]
  exact hstay rfl rfl (by rw [hplace]; rfl)

/-- **Every step of the calls is a step of the books.** -/
theorem Sound.accounts_step (h : Sound pipeline r) (input : NestedInput) :
 Step pipeline.jsonBytes r.accounts (NestedRunner.step pipeline r input).accounts := by
 have hstay : ∀ {r₁ : NestedRunner}, r₁.accounts = r.accounts →
  Step pipeline.jsonBytes r.accounts r₁.accounts := fun heq => heq ▸ .stay
 cases input with
 | issue callerId =>
  have : Step pipeline.jsonBytes r.accounts _ := Step.issue callerId
  simp only [NestedRunner.step, NestedRunner.issue]
  simp only [accounts, length_map] at this
  simp only [accounts, map_append]
  exact this
 | start s name args =>
  simp only [NestedRunner.step, NestedRunner.start]
  split
  · exact .stay
  rename_i scope hs
  split
  · exact .stay
  have : Step pipeline.jsonBytes r.accounts _ := Step.admitted name (accounts_scopes hs)
  have hseen : r.accounts.recorded (scopeAccount scope).root
   = (r.issued[scope.root]?.map fun issued => issued.recorder.started.length).getD 0 := by
   rw [NestedAccounts.recorded, accounts, getElem?_map, Option.map_map]
   rfl
  rw [hseen] at this
  have hcount : scopeAccount { scope with running := scope.running + 1 } = scopeAccount scope := rfl
  simp only [Option.getD_some, accounts, map_append, OrdMap.map_set_of_eq hs hcount]
  exact this
 | proceed c answer =>
  simp only [NestedRunner.step, NestedRunner.proceed]
  split
  · exact .stay
  rename_i call hc
  split
  · exact .stay
  rename_i scope hs
  exact h.proceedFrom_accounts hc hs answer
 | tear c panic =>
  simp only [NestedRunner.step, NestedRunner.tear]
  split
  · exact .stay
  rename_i call hc
  split
  · exact .stay
  split
  swap
  · exact .stay
  rename_i hmay
  have hstage : stageOf (.torn panic) = stageOf call.place := by
   revert hmay
   cases call.place <;> simp [NestedPlace.task, stageOf]
  split
  · refine hstay ((accounts_setCall (r := r.modifyScope _ _) hc ?_).trans
     (accounts_modifyScope _ fun _ => rfl))
    simp only [callAccount, hstage]
  · refine hstay (accounts_setCall hc ?_)
    simp only [callAccount, hstage]
 | settle i =>
  simp only [NestedRunner.step, NestedRunner.settle]
  split
  next issued hi =>
   split
   next hstage =>
    refine hstay ((accounts_setIssued (r := r.modifyScope _ _) hi ?_).trans
     (accounts_modifyScope _ fun _ => rfl))
    simp [issuedAccount, hstage]
   · exact .stay
  · exact .stay
 | closeReturned i =>
  simp only [NestedRunner.step, NestedRunner.closeReturned]
  split
  swap
  · exact .stay
  rename_i issued hi
  split
  swap
  · exact .stay
  rename_i scope hs
  split
  next hmay =>
   refine hstay ((accounts_setIssued (r := r.setScope _ _) hi ?_).trans (accounts_setScope hs rfl))
   simp [issuedAccount, hmay.1]
  · exact .stay
 | takeSummary i =>
  simp only [NestedRunner.step, NestedRunner.takeSummary]
  split
  swap
  · exact .stay
  rename_i issued hi
  split
  · have : Step pipeline.jsonBytes r.accounts _ := Step.take (accounts_issued hi)
    simp only [accounts, setIssued, map_set]
    exact this
  · exact .stay
 | drop i =>
  simp only [NestedRunner.step, NestedRunner.drop]
  split
  swap
  · exact .stay
  rename_i issued hi
  split
  next hstage =>
   refine hstay ((accounts_setIssued (r := r.modifyScope _ _) hi ?_).trans
    (accounts_modifyScope _ fun _ => rfl))
   rcases hstage with hstage | hstage <;> simp [issuedAccount, hstage]
  · exact .stay

end Bake.Agent.NestedRunner
