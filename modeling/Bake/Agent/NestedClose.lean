import Bake.Agent.NestedCalls

/-!
# The close of nested calls

Once a caller's close has returned, its scope has no running call and takes no more, for
good; and a call has an outcome once it has ended, which no later step changes.
-/

open List

namespace Bake.Agent.NestedRunner

open Bake.Json Bake.Ai Forest NestedAccounts

variable {pipeline : NestedPipeline} {r r' : NestedRunner} {c : Nat} {call call' : NestedCall}

/-! ## Closed scopes -/

/-- A scope later on: closed for good, and then drained for good. -/
structure Later (scope scope' : CallScope) : Prop where
 call : scope'.call = scope.call
 closed : scope.closed = true → scope'.closed = true
 drained : scope.closed = true → scope.running = 0 → scope'.running = 0

theorem Later.refl (scope : CallScope) : Later scope scope := ⟨rfl, id, fun _ => id⟩

def ScopesLater (scopes scopes' : List CallScope) : Prop :=
 ∀ (s : Nat) scope, scopes[s]? = some scope → ∃ scope', scopes'[s]? = some scope' ∧ Later scope scope'

theorem ScopesLater.refl (scopes : List CallScope) : ScopesLater scopes scopes :=
 fun _ scope hs => ⟨scope, hs, .refl scope⟩

variable {scopes : List CallScope} {issued : IssuedCall}

theorem ScopesLater.set {k : Nat} {b b' : CallScope} (hk : scopes[k]? = some b)
 (hlater : Later b b') : ScopesLater scopes (scopes.set k b') := by
 intro s scope hs
 rcases getElem?_set_of b' hk hs with ⟨rfl, rfl, hget⟩ | ⟨-, hget⟩
 · exact ⟨b', hget, hlater⟩
 · exact ⟨scope, hget, .refl scope⟩

theorem ScopesLater.modify (k : Nat) {f : CallScope → CallScope}
 (hf : ∀ scope, Later scope (f scope)) : ScopesLater scopes (scopes.modify k f) := by
 intro s scope hs
 refine ⟨if k = s then f scope else scope, ?_, ?_⟩
 · rw [getElem?_modify, hs]
   by_cases hks : k = s <;> simp [hks]
 · split
   · exact hf scope
   · exact .refl scope

theorem ScopesLater.append (scopes : List CallScope) (scope : CallScope) :
 ScopesLater scopes (scopes ++ [scope]) :=
 fun _ old hs => ⟨old, getElem?_snoc hs, .refl old⟩

variable (pipeline c) in
theorem scopesLater_proceedFrom {scope : CallScope} (hs : r.scopes[call.scope]? = some scope)
 (answer : NestedAnswer) :
 ScopesLater r.scopes (r.proceedFrom pipeline c call scope answer).scopes := by
 cases hplace : call.place with
 | entered =>
  simp only [proceedFrom, hplace]
  exact .set hs ⟨rfl, id, fun _ => id⟩
 | ready =>
  simp only [proceedFrom, hplace]
  split
  · exact .refl _
  · exact .append _ _
 | preparing =>
  simp only [proceedFrom, hplace]
  split
  · exact .refl _
  · exact .modify _ fun _ => ⟨rfl, id, fun _ => id⟩
 | executing =>
  simp only [proceedFrom, hplace]
  exact .modify _ fun _ => ⟨rfl, fun _ => rfl, fun _ => id⟩
 | closing =>
  simp only [proceedFrom, hplace]
  split
  · exact .refl _
  split
  · exact .modify _ fun _ => ⟨rfl, id, fun _ => id⟩
  · exact .refl _
 | leaving =>
  simp only [proceedFrom, hplace]
  exact .set hs ⟨rfl, id, fun _ hr => by simp [hr]⟩
 | starting | finalizing => simp only [proceedFrom, hplace]; exact .refl _
 | site =>
  simp only [proceedFrom, hplace]
  split
  · exact .refl _
  split
  · split <;> exact .refl _
  · exact .refl _
 | queued =>
  simp only [proceedFrom, hplace]
  split
  · exact .refl _
  · split <;> exact .refl _
 | recording outcome => simp only [proceedFrom, hplace]; split <;> exact .refl _
 | ending outcome | torn panic | gone => simp only [proceedFrom, hplace]; exact .refl _
 | _ => simp only [proceedFrom, hplace]; split <;> exact .refl _

theorem later_closing (scope : CallScope) :
 Later scope { scope with closed := true, closing := true } :=
 ⟨rfl, fun _ => rfl, fun _ => id⟩

theorem later_aborted (scope : CallScope) : Later scope { scope with aborted := true } :=
 ⟨rfl, id, fun _ => id⟩

variable (pipeline r) in
/-- **A closed scope stays closed, and a drained one drained**, whatever happens. -/
theorem scopesLater_step (input : NestedInput) : ScopesLater r.scopes (step pipeline r input).scopes := by
 cases input with
 | issue callerId => exact .append _ _
 | start s name args =>
  simp only [step, start]
  split
  · exact .refl _
  rename_i scope hs
  split
  · exact .refl _
  next hopen =>
   simp only [Bool.or_eq_true, not_or, Bool.not_eq_true] at hopen
   exact .set hs ⟨rfl, id, by simp [hopen.2]⟩
 | proceed c answer =>
  simp only [step, proceed]
  split
  · exact .refl _
  split
  · exact .refl _
  rename_i scope hs
  exact scopesLater_proceedFrom pipeline _ hs answer
 | tear c panic =>
  simp only [step, tear]
  split
  · exact .refl _
  split
  · exact .refl _
  split
  · split
    · exact .modify _ later_aborted
    · exact .refl _
  · exact .refl _
 | settle i =>
  simp only [step, settle]
  split
  · split
    · exact .modify _ later_closing
    · exact .refl _
  · exact .refl _
 | closeReturned i =>
  simp only [step, closeReturned]
  split
  swap
  · exact .refl _
  split
  swap
  · exact .refl _
  rename_i scope hs
  split
  · exact .set hs (later_aborted scope)
  · exact .refl _
 | takeSummary i =>
  simp only [step, takeSummary]
  split
  · split <;> exact .refl _
  · exact .refl _
 | drop i =>
  simp only [step, drop]
  split
  · split
    · exact .modify _ later_aborted
    · exact .refl _
  · exact .refl _

/-! ## Outcomes -/

/-- A call has an outcome only as it ends, and then it has one. -/
def CallSettled (call : NestedCall) : Prop :=
 (call.resolved.isSome = true → call.place = .leaving ∨ call.place = .gone)
  ∧ (call.place = .gone → call.resolved.isSome = true)

def SettledLater (call call' : NestedCall) : Prop :=
 CallSettled call → CallSettled call' ∧ ∀ outcome, call.resolved = some outcome →
  call'.resolved = some outcome

theorem SettledLater.refl (call : NestedCall) : SettledLater call call := fun h => ⟨h, fun _ => id⟩

theorem SettledLater.move (hplace : call.place ≠ .leaving ∧ call.place ≠ .gone)
 (hresolved : call'.resolved = call.resolved) (hplace' : call'.place ≠ .gone) :
 SettledLater call call' := by
 intro h
 have hnone : call.resolved = none := by
  cases hr : call.resolved with
  | none => rfl
  | some outcome =>
   rcases h.1 (by rw [hr]; rfl) with hp | hp
   · exact absurd hp hplace.1
   · exact absurd hp hplace.2
 refine ⟨⟨fun hs => ?_, fun hp => absurd hp hplace'⟩, fun outcome hr => ?_⟩
 · rw [hresolved, hnone] at hs
   simp at hs
 · rw [hnone] at hr
   simp at hr

theorem SettledLater.leave (hplace : call.place ≠ .leaving ∧ call.place ≠ .gone)
 (hplace' : call'.place = .leaving) : SettledLater call call' := by
 intro h
 refine ⟨⟨fun _ => .inl hplace', fun hp => ?_⟩, fun outcome hr => ?_⟩
 · rw [hplace'] at hp
   simp at hp
 · rcases h.1 (by rw [hr]; rfl) with hp | hp
   · exact absurd hp hplace.1
   · exact absurd hp hplace.2

variable (pipeline) in
theorem proceedFrom_calls (hc : r.calls[c]? = some call) (scope : CallScope) (answer : NestedAnswer) :
 ∃ call', (r.proceedFrom pipeline c call scope answer).calls = r.calls.set c call'
  ∧ SettledLater call call' := by
 have hstay : ∃ call', r.calls = r.calls.set c call' ∧ SettledLater call call' :=
  ⟨call, (OrdMap.set_of_getElem? hc).symm, .refl call⟩
 cases hplace : call.place with
 | numbered | recording outcome =>
  simp only [proceedFrom, hplace]
  split
  · exact hstay
  · exact ⟨_, rfl, .move (by simp [hplace]) rfl (by simp)⟩
 | recorded | ready | preparing =>
  simp only [proceedFrom, hplace]
  split
  all_goals exact ⟨_, rfl, .move (by simp [hplace]) rfl (by simp)⟩
 | site =>
  simp only [proceedFrom, hplace]
  split
  · exact ⟨_, rfl, .move (by simp [hplace]) rfl (by simp)⟩
  split
  · split
    all_goals exact ⟨_, rfl, .move (by simp [hplace]) rfl (by simp)⟩
  · exact ⟨_, rfl, .move (by simp [hplace]) rfl (by simp)⟩
 | contending =>
  simp only [proceedFrom, hplace]
  split
  · exact ⟨_, rfl, .move (by simp [hplace]) rfl (by simp)⟩
  · refine ⟨_, rfl, .move (by simp [hplace]) rfl ?_⟩
    simp only [ne_eq]
    split <;> simp
 | queued =>
  simp only [proceedFrom, hplace]
  split
  · exact ⟨_, rfl, .move (by simp [hplace]) rfl (by simp)⟩
  split
  · exact ⟨_, rfl, .move (by simp [hplace]) rfl (by simp)⟩
  · exact hstay
 | closing =>
  simp only [proceedFrom, hplace]
  split
  · exact hstay
  split
  · exact ⟨_, rfl, .move (by simp [hplace]) rfl (by simp)⟩
  · exact hstay
 | ending outcome | torn panic =>
  simp only [proceedFrom, hplace]
  exact ⟨_, rfl, .leave (by simp [hplace]) rfl⟩
 | leaving =>
  simp only [proceedFrom, hplace]
  refine ⟨_, rfl, fun _ => ⟨⟨fun _ => .inr rfl, fun _ => rfl⟩, fun outcome hr => ?_⟩⟩
  simp [hr]
 | gone =>
  simp only [proceedFrom, hplace]
  exact hstay
 | _ =>
  simp only [proceedFrom, hplace]
  exact ⟨_, rfl, .move (by simp [hplace]) rfl (by simp)⟩

variable (pipeline) in
/-- **A call is there later on, with the outcome it had**, whatever happens. -/
theorem calls_step (input : NestedInput) (hc : r.calls[c]? = some call) :
 ∃ call', (step pipeline r input).calls[c]? = some call' ∧ SettledLater call call' := by
 have hstay : ∃ call', r.calls[c]? = some call' ∧ SettledLater call call' := ⟨call, hc, .refl call⟩
 cases input with
 | issue callerId => exact hstay
 | start s name args =>
  simp only [step, start]
  split
  · exact hstay
  split
  · exact hstay
  · exact ⟨call, getElem?_snoc hc, .refl call⟩
 | proceed d answer =>
  simp only [step, proceed]
  split
  · exact hstay
  rename_i callD hd
  split
  · exact hstay
  rename_i scope hs
  obtain ⟨callD', hcalls, hlater⟩ := proceedFrom_calls pipeline hd scope answer
  rw [hcalls]
  rcases getElem?_set_of callD' hd hc with ⟨rfl, rfl, hget⟩ | ⟨-, hget⟩
  · exact ⟨callD', hget, hlater⟩
  · exact ⟨call, hget, .refl call⟩
 | tear d panic =>
  simp only [step, tear]
  split
  · exact hstay
  rename_i callD hd
  split
  · exact hstay
  split
  swap
  · exact hstay
  rename_i hmay
  have hlive : callD.place ≠ .leaving ∧ callD.place ≠ .gone := by
   refine ⟨fun hp => ?_, fun hp => ?_⟩ <;> simp [hp, NestedPlace.task] at hmay
  have htorn : SettledLater callD { callD with place := .torn panic, torn := true } :=
   .move hlive rfl (by simp)
  have hset : ∃ call', (r.calls.set d { callD with place := .torn panic, torn := true })[c]?
   = some call' ∧ SettledLater call call' := by
   rcases getElem?_set_of { callD with place := .torn panic, torn := true } hd hc with
    ⟨rfl, rfl, hget⟩ | ⟨-, hget⟩
   · exact ⟨_, hget, htorn⟩
   · exact ⟨call, hget, .refl call⟩
  split
  · exact hset
  · exact hset
 | settle i =>
  simp only [step, settle]
  split
  · split <;> exact hstay
  · exact hstay
 | closeReturned i =>
  simp only [step, closeReturned]
  split
  swap
  · exact hstay
  split
  swap
  · exact hstay
  split <;> exact hstay
 | takeSummary i =>
  simp only [step, takeSummary]
  split
  · split <;> exact hstay
  · exact hstay
 | drop i =>
  simp only [step, drop]
  split
  · split <;> exact hstay
  · exact hstay

theorem calls_new (input : NestedInput) (hc : r.calls[c]? = none)
 (hc' : (step pipeline r input).calls[c]? = some call') :
 call'.place = .entered ∧ call'.resolved = none := by
 have hlen : ∀ {calls : List NestedCall}, calls[c]? = some call' →
  calls.length = r.calls.length → call'.place = .entered ∧ call'.resolved = none := by
  intro calls hget heq
  have hlt := (List.getElem_of_getElem? hget).1
  rw [heq] at hlt
  simp [hlt] at hc
 cases input with
 | issue callerId => exact hlen hc' rfl
 | start s name args =>
  simp only [step, start] at hc'
  split at hc'
  · exact hlen hc' rfl
  split at hc'
  · exact hlen hc' rfl
  · rcases OrdMap.getElem?_snoc_some hc' with ⟨-, rfl⟩ | ⟨-, hget⟩
    · exact ⟨rfl, rfl⟩
    · exact absurd (hc.symm.trans hget) (by simp)
 | proceed d answer =>
  simp only [step, proceed] at hc'
  split at hc'
  · exact hlen hc' rfl
  rename_i callD hd
  split at hc'
  · exact hlen hc' rfl
  rename_i scope hs
  obtain ⟨callD', hcalls, -⟩ := proceedFrom_calls pipeline hd scope answer
  exact hlen hc' (by rw [hcalls, length_set])
 | tear d panic =>
  simp only [step, tear] at hc'
  split at hc'
  · exact hlen hc' rfl
  split at hc'
  · exact hlen hc' rfl
  split at hc'
  · split at hc' <;> exact hlen hc' length_set
  · exact hlen hc' rfl
 | settle i =>
  simp only [step, settle] at hc'
  split at hc'
  · split at hc' <;> exact hlen hc' rfl
  · exact hlen hc' rfl
 | closeReturned i =>
  simp only [step, closeReturned] at hc'
  split at hc'
  swap
  · exact hlen hc' rfl
  split at hc'
  swap
  · exact hlen hc' rfl
  split at hc' <;> exact hlen hc' rfl
 | takeSummary i =>
  simp only [step, takeSummary] at hc'
  split at hc'
  · split at hc' <;> exact hlen hc' rfl
  · exact hlen hc' rfl
 | drop i =>
  simp only [step, drop] at hc'
  split at hc'
  · split at hc' <;> exact hlen hc' rfl
  · exact hlen hc' rfl

def Settled (r : NestedRunner) : Prop := ∀ (c : Nat) call, r.calls[c]? = some call → CallSettled call

theorem Settled.step (h : Settled r) (input : NestedInput) :
 Settled (NestedRunner.step pipeline r input) := by
 intro c call' hc'
 cases hc : r.calls[c]? with
 | none =>
  obtain ⟨hplace, hresolved⟩ := calls_new input hc hc'
  exact ⟨by simp [hresolved], by simp [hplace]⟩
 | some call =>
  obtain ⟨call'', hget, hlater⟩ := calls_step pipeline input hc
  obtain rfl : call' = call'' := Option.some.inj (hc'.symm.trans hget)
  exact (hlater (h c call hc)).1

/-! ## Model-issued calls -/

namespace IssuedStage

def settled : IssuedStage → Bool
 | .closing | .closed | .taken => true
 | _ => false

def returned : IssuedStage → Bool
 | .closed | .taken => true
 | _ => false

end IssuedStage

def IssuedOk (scopes : List CallScope) (issued : IssuedCall) : Prop :=
 ∃ scope, scopes[issued.scope]? = some scope ∧ scope.call = none
  ∧ (IssuedStage.settled issued.stage = true → scope.closed = true)
  ∧ (IssuedStage.returned issued.stage = true → scope.running = 0)

variable {issued' : IssuedCall}

theorem IssuedOk.later {scopes' : List CallScope}
 (h : IssuedOk scopes issued) (hlater : ScopesLater scopes scopes')
 (hscope : issued'.scope = issued.scope) (hstage : issued'.stage = issued.stage) :
 IssuedOk scopes' issued' := by
 obtain ⟨scope, hget, hcall, hclosed, hdrained⟩ := h
 obtain ⟨scope', hget', hl⟩ := hlater _ scope hget
 refine ⟨scope', by rw [hscope]; exact hget', hl.call.trans hcall, fun hs => ?_, fun hs => ?_⟩
 · rw [hstage] at hs
   exact hl.closed (hclosed hs)
 · rw [hstage] at hs
   refine hl.drained (hclosed ?_) (hdrained hs)
   revert hs
   cases issued.stage <;> simp [IssuedStage.returned, IssuedStage.settled]

variable (pipeline r c call) in
theorem proceedFrom_issued (scope : CallScope) (answer : NestedAnswer) :
 (r.proceedFrom pipeline c call scope answer).issued = r.issued
 ∨ ∃ i issued recorder, r.issued[i]? = some issued
  ∧ (r.proceedFrom pipeline c call scope answer).issued
   = r.issued.set i { issued with recorder } := by
 cases hplace : call.place with
 | numbered | recording outcome =>
  simp only [proceedFrom, hplace]
  split
  · exact .inl rfl
  next issued hi =>
   exact .inr ⟨_, issued, _, hi, rfl⟩
 | _ =>
  -- no other place has a step that touches a record
  simp only [proceedFrom, hplace]
  repeat' split
  all_goals first | exact .inl rfl | exact .inl trivial

def IssuedSound (r : NestedRunner) : Prop :=
 ∀ (i : Nat) issued, r.issued[i]? = some issued → IssuedOk r.scopes issued

section

variable (h : IssuedSound r)

include h

theorem IssuedSound.change {i : Nat}
 (hi : r.issued[i]? = some issued) (hissued : r'.issued = r.issued.set i issued')
 (hlater : ScopesLater r.scopes r'.scopes)
 (hok : IssuedOk r.scopes issued → IssuedOk r'.scopes issued') : IssuedSound r' := by
 intro j other hj
 rw [hissued] at hj
 rcases OrdMap.getElem?_set_some hj with ⟨rfl, rfl⟩ | ⟨-, hj⟩
 · exact hok (h j issued hi)
 · exact (h j other hj).later hlater rfl rfl

theorem IssuedSound.settle (i : Nat) : IssuedSound (r.settle i) := by
 unfold NestedRunner.settle
 split
 swap
 · exact h
 rename_i issued hi
 split
 swap
 · exact h
 refine h.change hi rfl (.modify _ later_closing) ?_
 rintro ⟨scope, hget, hcall, -, -⟩
 refine ⟨{ scope with closed := true, closing := true }, ?_, hcall, fun _ => rfl,
  by simp [IssuedStage.returned]⟩
 change (r.scopes.modify _ _)[issued.scope]? = _
 rw [getElem?_modify, hget]
 simp

theorem IssuedSound.closeReturned (i : Nat) : IssuedSound (r.closeReturned i) := by
 unfold NestedRunner.closeReturned
 split
 swap
 · exact h
 rename_i issued hi
 split
 swap
 · exact h
 rename_i scope hs
 split
 swap
 · exact h
 rename_i hmay
 refine h.change hi rfl (.set hs (later_aborted scope)) ?_
 rintro ⟨scope', hget, hcall, hclosed, -⟩
 obtain rfl : scope = scope' := Option.some.inj (hs.symm.trans hget)
 refine ⟨_, getElem?_set_self (List.getElem_of_getElem? hs).1, hcall, fun _ => ?_, fun _ => hmay.2⟩
 exact hclosed (by rw [hmay.1]; rfl)

theorem IssuedSound.takeSummary (i : Nat) : IssuedSound (r.takeSummary i) := by
 unfold NestedRunner.takeSummary
 split
 swap
 · exact h
 rename_i issued hi
 split
 swap
 · exact h
 rename_i hstage
 refine h.change hi rfl (.refl _) ?_
 rintro ⟨scope, hget, hcall, hclosed, hdrained⟩
 exact ⟨scope, hget, hcall, fun _ => hclosed (by rw [hstage]; rfl),
  fun _ => hdrained (by rw [hstage]; rfl)⟩

theorem IssuedSound.drop (i : Nat) : IssuedSound (r.drop i) := by
 unfold NestedRunner.drop
 split
 swap
 · exact h
 rename_i issued hi
 split
 swap
 · exact h
 refine h.change hi rfl (.modify _ later_aborted) ?_
 rintro ⟨scope, hget, hcall, -, -⟩
 refine ⟨{ scope with aborted := true }, ?_, hcall, by simp [IssuedStage.settled],
  by simp [IssuedStage.returned]⟩
 change (r.scopes.modify _ _)[issued.scope]? = _
 rw [getElem?_modify, hget]
 simp

theorem IssuedSound.step (input : NestedInput) :
 IssuedSound (NestedRunner.step pipeline r input) := by
 have hlater := scopesLater_step pipeline r input
 have hstay : ∀ (i : Nat) issued, r.issued[i]? = some issued →
  IssuedOk (NestedRunner.step pipeline r input).scopes issued :=
  fun i issued hi => (h i issued hi).later hlater rfl rfl
 intro j other hj
 cases input with
 | issue callerId =>
  rcases OrdMap.getElem?_snoc_some hj with ⟨rfl, rfl⟩ | ⟨-, hj⟩
  · exact ⟨_, getElem?_concat_length, rfl, by simp [IssuedStage.settled],
     by simp [IssuedStage.returned]⟩
  · exact hstay j other hj
 | start s name args =>
  simp only [NestedRunner.step, start] at hj
  split at hj
  · exact hstay j other hj
  split at hj
  all_goals exact hstay j other hj
 | proceed c answer =>
  simp only [NestedRunner.step, proceed] at hj
  split at hj
  · exact hstay j other hj
  rename_i call hc
  split at hj
  · exact hstay j other hj
  rename_i scope hs
  rcases proceedFrom_issued pipeline r c call scope answer with
   heq | ⟨i, issued, recorder, hi, heq⟩
  · rw [heq] at hj
    exact hstay j other hj
  · have hlater := scopesLater_proceedFrom pipeline c hs answer
    have hstep : NestedRunner.step pipeline r (.proceed c answer)
     = r.proceedFrom pipeline c call scope answer := by
     simp only [NestedRunner.step, proceed, hc, hs]
    rw [hstep]
    exact h.change hi heq hlater (fun hok => hok.later hlater rfl rfl) j other hj
 | tear c panic =>
  simp only [NestedRunner.step, tear] at hj
  repeat' split at hj
  all_goals exact hstay j other hj
 | settle i => exact h.settle i j other hj
 | closeReturned i => exact h.closeReturned i j other hj
 | takeSummary i => exact h.takeSummary i j other hj
 | drop i => exact h.drop i j other hj

end

/-! ## Throughout a batch -/

theorem Reachable.accounts (h : Reachable pipeline r) :
 Sound pipeline r ∧ Named r.accounts ∧ Listed pipeline.jsonBytes r.accounts :=
 h.invariant (fun r => Sound pipeline r ∧ Named r.accounts ∧ Listed pipeline.jsonBytes r.accounts)
  (fun _ hr => by rw [hr]; exact ⟨sound_empty, named_empty, listed_empty⟩)
  fun _ input hi _ => by
   have hstep := hi.1.accounts_step input
   exact ⟨hi.1.step input, hi.2.1.step hstep, hi.2.2.step hi.2.1 hstep⟩

theorem Reachable.settled (h : Reachable pipeline r) : Settled r :=
 h.invariant Settled (fun _ hr => by rw [hr]; exact fun c call hc => absurd hc (by simp [empty]))
  fun _ input hi _ => hi.step input

theorem Reachable.issuedSound (h : Reachable pipeline r) : IssuedSound r := h.invariant IssuedSound
  (fun _ hr => by rw [hr]; exact fun i issued hi => absurd hi (by simp [empty]))
  fun _ input hi _ => hi.step input

def rootOf (r : NestedRunner) (call : NestedCall) : Option Nat := r.scopes[call.scope]?.map (·.root)

theorem rootOf_accounts (call : NestedCall) : r.accounts.rootOf (callAccount call) = r.rootOf call := by
 rw [NestedAccounts.rootOf, rootOf, NestedRunner.accounts, getElem?_map, Option.map_map]
 rfl

/-- A scope without a running call, which takes no more. -/
def Shut (pipeline : NestedPipeline) (r : NestedRunner) (s : Nat) : Prop :=
 r.runningCalls s = 0 ∧ ∀ name args, r.start pipeline s name args = none

/-- The close of a scope's executor has returned: of a model-issued call's, or of a call's
that got past it and was not torn. -/
def CloseReturned (r : NestedRunner) (s : Nat) : Prop :=
 (∃ (i : Nat) (issued : IssuedCall), r.issued[i]? = some issued ∧ issued.scope = s
  ∧ IssuedStage.returned issued.stage = true)
 ∨ ∃ (c : Nat) (call : NestedCall) (scope : CallScope), r.calls[c]? = some call
  ∧ call.child = some s ∧ r.scopes[s]? = some scope
  ∧ scope.handed = true ∧ call.torn = false ∧ NestedPlace.guarded call.place = false

theorem start_closed {s : Nat} {scope : CallScope} (hs : r.scopes[s]? = some scope)
 (hclosed : scope.closed = true) (name : String) (args : Value) :
 r.start pipeline s name args = none := by
 simp [start, hs, hclosed]

/-- **A scope whose close has returned stays shut.** -/
theorem CloseReturned.shut (hr : Reachable pipeline r) {s : Nat} (h : CloseReturned r s)
 (inputs : List NestedInput) : Shut pipeline (Run.final (step pipeline) r inputs) s := by
 have hnow : ∃ scope, r.scopes[s]? = some scope ∧ scope.closed = true ∧ scope.running = 0 := by
  rcases h with ⟨i, issued, hi, rfl, hreturned⟩ | ⟨c, call, scope, hc, hchild, hs, hhanded, htorn, hplace⟩
  · obtain ⟨scope, hs, -, hclosed, hdrained⟩ := hr.issuedSound i issued hi
    refine ⟨scope, hs, hclosed ?_, hdrained hreturned⟩
    revert hreturned
    cases issued.stage <;> simp [IssuedStage.returned, IssuedStage.settled]
  · obtain ⟨scopeC, -, hok⟩ := hr.sound.calls c call hc
    obtain ⟨child, hget, -, -, -, -, hgone⟩ := hok.child s hchild
    obtain rfl : scope = child := Option.some.inj (hs.symm.trans hget)
    rcases hgone hhanded with ht | hg | hd
    · simp [htorn] at ht
    · simp [hplace] at hg
    · exact ⟨scope, hs, hd⟩
 obtain ⟨scope, hs, hclosed, hdrained⟩ := Run.final_invariant
  (fun r : NestedRunner => ∃ scope, r.scopes[s]? = some scope ∧ scope.closed = true
   ∧ scope.running = 0) (fun r input ⟨scope, hs, hclosed, hdrained⟩ => by
    obtain ⟨scope', hs', hlater⟩ := scopesLater_step pipeline r input s scope hs
    exact ⟨scope', hs', hlater.closed hclosed, hlater.drained hclosed hdrained⟩) hnow inputs
 have hsound := Reachable.sound (Run.Reach.final_free (fun _ _ => trivial) hr inputs)
 exact ⟨((hsound.scopes s scope hs).running).symm.trans hdrained, start_closed hs hclosed⟩

theorem resolved_final {outcome : AgentToolCallOutcome} (hr : Reachable pipeline r)
 (hc : r.calls[c]? = some call) (ho : call.resolved = some outcome) (inputs : List NestedInput) :
 ∃ call', (Run.final (step pipeline) r inputs).calls[c]? = some call'
  ∧ call'.resolved = some outcome := by
 obtain ⟨-, call', hc', -, ho'⟩ := Run.final_invariant
  (fun r : NestedRunner => Settled r ∧ ∃ call, r.calls[c]? = some call ∧ CallSettled call
   ∧ call.resolved = some outcome) (fun r input ⟨hsettled, call, hc, hcs, ho⟩ => by
    obtain ⟨call', hc', hlater⟩ := calls_step pipeline input hc
    exact ⟨hsettled.step input, call', hc', (hlater hcs).1, (hlater hcs).2 outcome ho⟩)
  ⟨hr.settled, call, hc, hr.settled c call hc, ho⟩ inputs
 exact ⟨call', hc', ho'⟩

/-- **What is below a model-issued call has ended** when its close has returned, but for
what is below a call that was torn. -/
theorem gone_of_returned (hr : Reachable pipeline r) {i : Nat} (hi : r.issued[i]? = some issued)
 (hreturned : IssuedStage.returned issued.stage = true) (hc : r.calls[c]? = some call)
 (hroot : r.rootOf call = some i) (htorn : ¬ TornAbove r c) : call.place.isGone = true := by
 obtain ⟨h, hnamed, -⟩ := hr.accounts
 by_contra hlive
 rw [Bool.not_eq_true] at hlive
 induction hk : call.scope using Nat.strongRecOn generalizing c call with
 | ind k ih =>
  obtain ⟨scope, hs, -⟩ := h.calls c call hc
  have hrootS : scope.root = i := by
   rw [rootOf, hs, Option.map_some, Option.some.injEq] at hroot
   exact hroot
  obtain ⟨issued', -, hissued', -, -, hnone⟩ := (hnamed.scopes _ _ (accounts_scopes hs)).top
  have hissued : issued' = issuedAccount issued := by
   refine Option.some.inj (hissued'.symm.trans ?_)
   rw [scopeAccount, hrootS]
   exact accounts_issued hi
  have hparent : r.parent c = scope.call := by
   rw [NestedRunner.parent, hc, Option.bind_some, hs]
   rfl
  cases hp : scope.call with
  | none =>
   -- a call of the model-issued call's own scope
   have hown : issued.scope = call.scope := by
    have := hnone hp
    rwa [hissued] at this
   obtain ⟨scope', hs', -, -, hdrained⟩ := hr.issuedSound i issued hi
   rw [hown] at hs'
   obtain rfl : scope = scope' := Option.some.inj (hs.symm.trans hs')
   have := h.runningCalls_pos hc hlive hs
   rw [hdrained hreturned] at this
   exact absurd this (Nat.lt_irrefl 0)
  | some p =>
   rw [hp] at hparent
   obtain ⟨callP, scope', scopeP, hcallP, hchild, hscope, hscopeP, hokP⟩ := h.parent hc hparent
   have hguarded : NestedPlace.guarded callP.place = true := by
    rcases h.parent_guarded hc hlive hparent hcallP with ht | hg
    · refine absurd ⟨p, callP, ?_, (Within.refl p).child hparent, hcallP, ht⟩ htorn
      exact fun heq => absurd (h.ranked c p hparent) (heq ▸ Nat.lt_irrefl _)
    · exact hg
   have hliveP : callP.place.isGone = false := by
    revert hguarded
    cases callP.place <;> simp [NestedPlace.guarded, NestedPlace.isGone]
   obtain ⟨-, -, -, hlt, -⟩ := hokP.child _ hchild
   obtain ⟨callA, above, hcallA, -, -, -, -, habove, hrootA⟩ :=
    (hnamed.scopes _ _ (accounts_scopes hs)).above p hp
   have hrootP : r.rootOf callP = some i := by
    obtain rfl : callAccount callP = callA :=
     Option.some.inj ((accounts_calls hcallP).symm.trans hcallA)
    rw [← rootOf_accounts, NestedAccounts.rootOf, habove, Option.map_some, hrootA]
    exact congrArg some hrootS
   exact ih _ (hk ▸ hlt) hcallP hrootP (fun ht => htorn (h.tornAbove_child hparent ht)) hliveP rfl

structure Recorded (pipeline : NestedPipeline) (r : NestedRunner) (i : Nat)
 (recorder : NestedCallRecorder) : Prop where
 /-- The calls below it that have their places, in the order they took them. -/
 once : recorder.started.Nodup
 places : ∀ c call, r.calls[c]? = some call → r.rootOf call = some i →
  (c ∈ recorder.started ↔ call.place ≠ .entered ∧ call.place ≠ .numbered)
 /-- A call comes behind those that had their places when it was admitted. -/
 order : ∀ (j c : Nat) call, recorder.started[j]? = some c → r.calls[c]? = some call → call.seen ≤ j
 none : recorder.snapshot = none → recorder.started = []
 first : ∀ record, recorder.snapshot = some record →
  record.calls.length = min nestedCallLimits.maxCalls recorder.started.length
 entries : ∀ record, recorder.snapshot = some record → ∀ (j : Nat) entry,
  record.calls[j]? = some entry → ∃ c call, recorder.started[j]? = some c
   ∧ r.calls[c]? = some call ∧ r.rootOf call = some i ∧ entry.id = call.id ∧ entry.name = call.name
 bytes : ∀ record, recorder.snapshot = some record →
  (record.calls.map (NestedCallRecorder.recordBytes pipeline.jsonBytes)).sum
   ≤ nestedCallLimits.maxArgumentBytesTotal
   ∧ ∀ entry ∈ record.calls, NestedCallRecorder.recordBytes pipeline.jsonBytes entry
    ≤ nestedCallLimits.maxArgumentBytesPerCall
 complete : ∀ record, recorder.snapshot = some record → record.complete = true →
  recorder.started.length ≤ nestedCallLimits.maxCalls
   ∧ (∀ entry ∈ record.calls, entry.arguments.isSome = true)
   ∧ ∀ c ∈ recorder.started, ∃ call, r.calls[c]? = some call ∧ call.finished = true

theorem snapshot_some {recorder : NestedCallRecorder} {record : NestedToolCalls}
 (h : recorder.snapshot = some record) : record.calls = recorder.calls
  ∧ (record.complete = true → recorder.complete = true
   ∧ ∀ entry ∈ recorder.calls, entry.status ≠ .unfinished) := by
 unfold NestedCallRecorder.snapshot at h
 split at h
 · simp at h
 · cases h
   refine ⟨rfl, fun hcomplete => ?_⟩
   simp only [Bool.and_eq_true, all_eq_true, bne_iff_ne] at hcomplete
   exact hcomplete

theorem stageOf_recorded (place : NestedPlace) :
 stageOf place = .recorded ↔ place ≠ .entered ∧ place ≠ .numbered := by
 cases place <;> simp [stageOf]

/-- **The record of a model-issued call**, until it is taken. -/
theorem Reachable.recorded (hr : Reachable pipeline r) {i : Nat} (hi : r.issued[i]? = some issued)
 (hstage : issued.stage ≠ .taken) : Recorded pipeline r i issued.recorder := by
 obtain ⟨-, -, hlisted⟩ := hr.accounts
 have h := hlisted.records i _ (accounts_issued hi) (by simp [issuedAccount, hstage])
 change ListedIn pipeline.jsonBytes r.accounts i issued.recorder at h
 have hback : ∀ {c : Nat} {account : CallAccount}, r.accounts.calls[c]? = some account →
  ∃ call, r.calls[c]? = some call ∧ callAccount call = account := by
  intro c account hc
  rw [NestedRunner.accounts, getElem?_map, Option.map_eq_some_iff] at hc
  exact hc
 refine ⟨h.nodup, fun c call hc hroot => ?_, fun j c call hj hc => ?_, fun hn => ?_,
  fun record hs => ?_, fun record hs j entry hj => ?_, fun record hs => ?_,
  fun record hs hcomplete => ?_⟩
 · rw [← stageOf_recorded]
   exact (h.recorded c _ (accounts_calls hc) ((rootOf_accounts call).trans hroot)).symm
 · obtain ⟨account, hget, -, hseen, -⟩ := h.listed j c hj
   obtain rfl : callAccount call = account := Option.some.inj ((accounts_calls hc).symm.trans hget)
   exact hseen
 · unfold NestedCallRecorder.snapshot at hn
   split at hn
   next hempty =>
    simp only [Bool.and_eq_true, List.isEmpty_iff] at hempty
    have hlen := (h.kept.complete.mp hempty.2).1
    rw [hempty.1] at hlen
    exact length_eq_zero_iff.mp hlen.symm
   · simp at hn
 · rw [(snapshot_some hs).1]
   exact h.kept.first
 · rw [(snapshot_some hs).1] at hj
   have hlt := (List.getElem_of_getElem? hj).1
   have hfirst := h.kept.first
   have hplace := getElem?_eq_getElem (show j < issued.recorder.started.length by omega)
   obtain ⟨account, hget, hroot, -, -, hentry⟩ := h.listed j _ hplace
   obtain ⟨call, hc, rfl⟩ := hback hget
   obtain ⟨hid, hname, -⟩ := hentry entry hj
   exact ⟨_, call, hplace, hc, (rootOf_accounts call).symm.trans hroot, hid, hname⟩
 · rw [(snapshot_some hs).1]
   exact ⟨h.kept.bytes ▸ h.kept.total, h.kept.perCall⟩
 obtain ⟨hkept, hfinished⟩ := (snapshot_some hs).2 hcomplete
 obtain ⟨hlen, harguments⟩ := h.kept.complete.mp hkept
 have hfirst := h.kept.first
 refine ⟨by omega, ?_, fun c hc => ?_⟩
 · rw [(snapshot_some hs).1]
   exact harguments
 · obtain ⟨j, hj⟩ := getElem?_of_mem hc
   obtain ⟨account, hget, -, -, -, hentry⟩ := h.listed j c hj
   obtain ⟨call, hcall, rfl⟩ := hback hget
   have hlt := (List.getElem_of_getElem? hj).1
   have hrecord := getElem?_eq_getElem (show j < issued.recorder.calls.length by omega)
   obtain ⟨-, -, hstatus⟩ := hentry _ hrecord
   exact ⟨call, hcall, hstatus.mp (hfinished _ (mem_of_getElem? hrecord))⟩

/-- **Nested calls never outlive their caller and are accounted for.** A scope counts the
calls in it whose tasks have not ended; once its close has returned it has none and takes
none, for good; a call that has ended has an outcome, which stays; ids below one
model-issued call differ; and its record lists the first of the calls below it, in the
order they took their places, each behind those that had theirs when it was admitted. -/
theorem nested_calls_accounted (hr : Reachable pipeline r) :
 (∀ (s : Nat) scope, r.scopes[s]? = some scope → scope.running = r.runningCalls s)
 ∧ (∀ (c : Nat) call scope, r.calls[c]? = some call → r.scopes[call.scope]? = some scope →
  call.place.isGone = false → 0 < scope.running)
 ∧ (∀ s, r.CloseReturned s → ∀ inputs, Shut pipeline (Run.final (step pipeline) r inputs) s)
 ∧ (∀ (i : Nat) issued, r.issued[i]? = some issued → IssuedStage.returned issued.stage = true →
  ∀ (c : Nat) call, r.calls[c]? = some call → r.rootOf call = some i → ¬ TornAbove r c →
   call.place.isGone = true)
 ∧ (∀ (c : Nat) call, r.calls[c]? = some call → call.place = .gone → call.resolved.isSome = true)
 ∧ (∀ (c : Nat) call outcome, r.calls[c]? = some call → call.resolved = some outcome →
  ∀ inputs, ∃ call', (Run.final (step pipeline) r inputs).calls[c]? = some call'
   ∧ call'.resolved = some outcome)
 ∧ (∀ (c d : Nat) call callD, r.calls[c]? = some call → r.calls[d]? = some callD → c ≠ d →
  r.rootOf call = r.rootOf callD → call.place ≠ .entered → callD.place ≠ .entered →
  call.id ≠ callD.id)
 ∧ ∀ (i : Nat) issued, r.issued[i]? = some issued → issued.stage ≠ .taken →
  Recorded pipeline r i issued.recorder := by
 obtain ⟨h, hnamed, -⟩ := hr.accounts
 refine ⟨fun s scope hs => (h.scopes s scope hs).running,
  fun c call scope hc hs hlive => h.runningCalls_pos hc hlive hs, fun s hs => hs.shut hr,
  fun i issued hi hreturned c call hc hroot htorn => gone_of_returned hr hi hreturned hc hroot htorn,
  fun c call hc hgone => (hr.settled c call hc).2 hgone,
  fun c call outcome hc ho => resolved_final hr hc ho, ?_, fun i issued hi => hr.recorded hi⟩
 intro c d call callD hc hd hne hroot hs hsD hid
 have hentered : ∀ place, place ≠ NestedPlace.entered → stageOf place ≠ .entered := by
  intro place hp
  cases place <;> simp [stageOf] at hp ⊢
 refine hne (hnamed.distinct (accounts_calls hc) (accounts_calls hd) ?_ (hentered _ hs)
  (hentered _ hsD) hid)
 rw [rootOf_accounts, rootOf_accounts]
 exact hroot

/-- Two calls are admitted one behind the other, and the second takes its place first. -/
def overtakenRun : List NestedInput :=
 [.issue "call", .start 0 "write" .null, .start 0 "read" .null] ++ steps 11 1 ++ steps 14 0
  ++ [.settle 0, .closeReturned 0]

/-- The record taken behind a close need not list the calls in the order of admission. -/
theorem overtaken_record :
 let r := Run.final (step alonePipeline) empty overtakenRun
 Reachable alonePipeline r ∧ r.calls.map (·.name) = ["write", "read"]
  ∧ r.calls.map (·.place.isGone) = [true, true]
  ∧ (r.issued[0]?.bind (·.recorder.snapshot)).map (fun record => record.calls.map (·.name))
   = some ["read", "write"] := by
 exact ⟨reachable_final _, rfl, rfl, rfl⟩

/-- Behind that run another start is refused. -/
theorem nested_calls_accounted_overtaken : Shut alonePipeline (Run.final (step alonePipeline)
  (Run.final (step alonePipeline) empty overtakenRun) [.start 0 "write" .null]) 0 :=
 (nested_calls_accounted (reachable_final overtakenRun)).2.2.1 0 (.inl ⟨0, _, rfl, rfl, rfl⟩)
  [.start 0 "write" .null]

end Bake.Agent.NestedRunner
