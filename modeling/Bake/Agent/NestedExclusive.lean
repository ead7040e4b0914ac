import Bake.Agent.NestedSound

/-!
# Nested calls and the exclusive queue

A call that the loop's rule says must run alone has the queue while its tool runs, unless
it is below a call that has it. A calling tool's close waits for the calls of its scope, so
what runs below a call has that call still running, except behind an abort or a panic,
which drop the caller's tool and its permit before the tasks below it have ended.
-/

namespace Bake.Agent.NestedRunner

open Forest Option

variable {pipeline : NestedPipeline} {r : NestedRunner} {c d e : Nat} {call callD callE : NestedCall}

/-- The call whose tool made a call; none for the calls of a model-issued call's tool. -/
def parent (r : NestedRunner) (c : Nat) : Option Nat :=
 r.calls[c]?.bind fun call => r.scopes[call.scope]?.bind (·.call)

/-- A call that has asked for the queue and has not been given it. -/
def waits (r : NestedRunner) (c : Nat) (call : NestedCall) : Bool :=
 call.place.isQueued && r.queue.holder != some c

/-- A call above `c` was torn. -/
def TornAbove (r : NestedRunner) (c : Nat) : Prop :=
 ∃ e callE, e ≠ c ∧ Within r.parent e c ∧ r.calls[e]? = some callE ∧ callE.torn = true

/-! ## Above a call -/

theorem Sound.parent (h : Sound pipeline r) (hc : r.calls[c]? = some call) {p : Nat}
 (hp : r.parent c = some p) : ∃ callP scope scopeP, r.calls[p]? = some callP
  ∧ callP.child = some call.scope ∧ r.scopes[call.scope]? = some scope
  ∧ r.scopes[callP.scope]? = some scopeP ∧ CallOk pipeline r p callP scopeP := by
 obtain ⟨scope, hscope, -⟩ := h.calls c call hc
 have hcall : scope.call = some p := by
  rw [NestedRunner.parent, hc, bind_some, hscope] at hp
  exact hp
 obtain ⟨callP, hcallP, hchild⟩ := (h.scopes _ scope hscope).call p hcall
 obtain ⟨scopeP, hscopeP, hokP⟩ := h.calls p callP hcallP
 exact ⟨callP, scope, scopeP, hcallP, hchild, hscope, hscopeP, hokP⟩

theorem Sound.ranked (h : Sound pipeline r) :
 Ranked (fun c => (r.calls[c]?.map (·.scope)).getD 0) r.parent := by
 intro c p hp
 cases hc : r.calls[c]? with
 | none =>
  rw [NestedRunner.parent, hc] at hp
  simp at hp
 | some call =>
  obtain ⟨callP, -, scopeP, hcallP, hchild, -, -, hokP⟩ := h.parent hc hp
  obtain ⟨-, -, -, hlt, -⟩ := hokP.child _ hchild
  simpa [hcallP, hc] using hlt

theorem Sound.tornAbove_child (h : Sound pipeline r) {p : Nat} (hp : r.parent c = some p)
 (ht : TornAbove r p) : TornAbove r c := by
 obtain ⟨e, callE, hne, hw, he, htorn⟩ := ht
 refine ⟨e, callE, ?_, hw.child hp, he, htorn⟩
 rintro rfl
 -- a call is not above its own parent
 rcases h.ranked.within hw with heq | hlt
 · exact hne heq
 · exact absurd (h.ranked _ _ hp) (Nat.lt_asymm hlt)

variable {scope : CallScope}

section

variable (h : Sound pipeline r)

include h

theorem Sound.holds_below (he : r.calls[e]? = some callE)
 (halone : mustRunAlone pipeline callE = true) (hw : Within r.parent e c) (hne : c ≠ e)
 (hc : r.calls[c]? = some call) (hs : r.scopes[call.scope]? = some scope) :
 scope.holdsQueue = true := by
 refine hw.induction (Q := fun n => n ≠ e → ∀ callN scopeN, r.calls[n]? = some callN →
  r.scopes[callN.scope]? = some scopeN → scopeN.holdsQueue = true) (fun hn => absurd rfl hn) ?_
  hne call scope hc hs
 intro p n hp _ ih _ callN scopeN hn hsN
 obtain ⟨callP, scope, scopeP, hcallP, hchild, hscope, hscopeP, hokP⟩ := h.parent hn hp
 obtain rfl : scopeN = scope := some.inj (hsN.symm.trans hscope)
 obtain ⟨child, hget, -, -, hholds, -⟩ := hokP.child _ hchild
 obtain rfl : scopeN = child := some.inj (hscope.symm.trans hget)
 by_cases hpe : p = e
 · subst hpe
   obtain rfl : callE = callP := some.inj (he.symm.trans hcallP)
   simp [hholds, halone]
 · simp [hholds, ih hpe callP scopeP hcallP hscopeP]

section

variable (hc : r.calls[c]? = some call)

include hc

section

variable (hlive : call.place.isGone = false)

include hlive

theorem Sound.runningCalls_pos
 (hs : r.scopes[call.scope]? = some scope) :
 0 < scope.running := by
 rw [(h.scopes _ scope hs).running, runningCalls, List.countP_pos_iff]
 exact ⟨call, List.mem_of_getElem? hc, by simp [hlive]⟩

theorem Sound.parent_guarded
 {p : Nat} (hp : r.parent c = some p) {callP : NestedCall}
 (hcallP : r.calls[p]? = some callP) :
 callP.torn = true ∨ NestedPlace.guarded callP.place = true := by
 obtain ⟨callP', scope, scopeP, hcallP', hchild, hscope, -, hokP⟩ := h.parent hc hp
 obtain rfl : callP = callP' := some.inj (hcallP.symm.trans hcallP')
 obtain ⟨child, hget, -, -, -, -, hhanded⟩ := hokP.child _ hchild
 obtain rfl : scope = child := some.inj (hscope.symm.trans hget)
 obtain ⟨scope', hscope', hok⟩ := h.calls c call hc
 obtain rfl : scope = scope' := some.inj (hscope.symm.trans hscope')
 rcases hhanded hok.handed with htorn | hguarded | ⟨-, hdrained⟩
 · exact .inl htorn
 · exact .inr hguarded
 · have := h.runningCalls_pos hc hlive hscope
   omega

/-- **The queue's holder is above a call that need not ask for it**, while none above the
call was torn. -/
theorem Sound.holder_above
 (hs : r.scopes[call.scope]? = some scope)
 (hholds : scope.holdsQueue = true) (htorn : ¬ TornAbove r c) :
 ∃ e, e ≠ c ∧ Within r.parent e c ∧ r.queue.holder = some e := by
 -- the scope of a call's parent is older than its own
 induction hk : call.scope using Nat.strongRecOn generalizing c call scope with
 | ind k ih =>
  have hparent : r.parent c = scope.call := by
   rw [NestedRunner.parent, hc, bind_some, hs]
   rfl
  cases hp : scope.call with
  | none =>
   rw [(h.scopes _ scope hs).top hp] at hholds
   simp at hholds
  | some p =>
   rw [hp] at hparent
   obtain ⟨callP, scope', scopeP, hcallP, hchild, hscope, hscopeP, hokP⟩ := h.parent hc hparent
   obtain rfl : scope = scope' := some.inj (hs.symm.trans hscope)
   obtain ⟨child, hget, -, hlt, hinherits, -⟩ := hokP.child _ hchild
   obtain rfl : scope = child := some.inj (hs.symm.trans hget)
   have hpc : p ≠ c := by
    rintro rfl
    obtain rfl : callP = call := some.inj (hcallP.symm.trans hc)
    omega
   have hguarded : NestedPlace.guarded callP.place = true := by
    rcases h.parent_guarded hc hlive hparent hcallP with ht | hg
    · exact absurd ⟨p, callP, hpc, (Within.refl p).child hparent, hcallP, ht⟩ htorn
    · exact hg
   have hplace : callP.place.isGone = false ∧ callP.place.permitted = true := by
    revert hguarded
    cases callP.place <;>
     simp [NestedPlace.guarded, NestedPlace.isGone, NestedPlace.permitted]
   by_cases habove : scopeP.holdsQueue = true
   · have htornP : ¬ TornAbove r p := fun ht => htorn (h.tornAbove_child hparent ht)
     obtain ⟨e, hne, hw, hholder⟩ := ih _ (hk ▸ hlt) hcallP hplace.1 hscopeP habove htornP rfl
     refine ⟨e, ?_, hw.child hparent, hholder⟩
     rintro rfl
     obtain ⟨scopeE, hscopeE, hokE⟩ := h.calls e call hc
     obtain rfl : scope = scopeE := some.inj (hs.symm.trans hscopeE)
     rw [(hokE.inQueue (.inl hholder)).2.2] at hholds
     simp at hholds
   · rw [Bool.not_eq_true] at habove
     have halone : mustRunAlone pipeline callP = true := by
      rw [hholds, habove, Bool.false_or] at hinherits
      exact hinherits.symm
     exact ⟨p, hpc, (Within.refl p).child hparent, hokP.has hplace.2 halone habove⟩

end

/-! ## Calls that run alone -/

theorem Sound.holder_within
 (hexec : call.place = .executing) (halone : mustRunAlone pipeline call = true)
 (htorn : ¬ TornAbove r c) : ∃ e, Within r.parent e c ∧ r.queue.holder = some e := by
 obtain ⟨scope, hscope, hok⟩ := h.calls c call hc
 cases hholds : scope.holdsQueue with
 | false => exact ⟨c, .refl c, hok.has (by rw [hexec]; rfl) halone hholds⟩
 | true =>
  obtain ⟨e, -, hw, hholder⟩ := h.holder_above hc (by rw [hexec]; rfl) hscope hholds htorn
  exact ⟨e, hw, hholder⟩

end

theorem Sound.holder_moves (he : r.queue.holder = some e) :
 ∃ callE, r.calls[e]? = some callE ∧ callE.place.isGone = false ∧ r.waits e callE = false
  ∧ mustRunAlone pipeline callE = true := by
 obtain ⟨callE, hcallE⟩ : ∃ callE, r.calls[e]? = some callE :=
  ⟨_, List.getElem?_eq_getElem (h.known e (.inl he))⟩
 obtain ⟨scope, -, hok⟩ := h.calls e callE hcallE
 obtain ⟨hplace, halone, -⟩ := hok.inQueue (.inl he)
 refine ⟨callE, hcallE, ?_, by simp [waits, he], halone⟩
 revert hplace
 cases callE.place <;>
  simp [NestedPlace.isQueued, NestedPlace.permitted, NestedPlace.isTorn, NestedPlace.isGone]

end

/-- **Calls that must run alone** are never in their tools at once, except where one is
above the other, both are below one call that has the queue, or one is below a call that
was torn; and nothing waits for the queue but behind a call that has it, has not ended and
does not wait, and below which no call asks for it. -/
theorem exclusive_apart (hr : Reachable pipeline r) :
 (∀ c d call callD, r.calls[c]? = some call → r.calls[d]? = some callD →
  call.place = .executing → callD.place = .executing →
  mustRunAlone pipeline call = true → mustRunAlone pipeline callD = true →
  Within r.parent c d ∨ Within r.parent d c
   ∨ (∃ e, r.queue.holder = some e ∧ e ≠ c ∧ e ≠ d ∧ Within r.parent e c ∧ Within r.parent e d)
   ∨ TornAbove r c ∨ TornAbove r d)
 ∧ (∀ c call, r.calls[c]? = some call → r.waits c call = true →
  ∃ e callE, r.queue.holder = some e ∧ r.calls[e]? = some callE
   ∧ callE.place.isGone = false ∧ r.waits e callE = false)
 ∧ (∀ e callE c call, r.calls[e]? = some callE → mustRunAlone pipeline callE = true →
  c ≠ e → Within r.parent e c → r.calls[c]? = some call → call.place.asking = false) := by
 have h := hr.sound
 refine ⟨fun c d call callD hc hd hexec hexecD halone haloneD => ?_,
  fun c call hc hwaits => ?_, fun e callE c call he halone hne hw hc => ?_⟩
 · by_cases htorn : TornAbove r c
   · exact .inr (.inr (.inr (.inl htorn)))
   by_cases htornD : TornAbove r d
   · exact .inr (.inr (.inr (.inr htornD)))
   obtain ⟨e, hw, hholder⟩ := h.holder_within hc hexec halone htorn
   obtain ⟨e', hw', hholder'⟩ := h.holder_within hd hexecD haloneD htornD
   obtain rfl : e = e' := some.inj (hholder.symm.trans hholder')
   by_cases hec : e = c
   · exact .inl (hec ▸ hw')
   by_cases hed : e = d
   · exact .inr (.inl (hed ▸ hw))
   exact .inr (.inr (.inl ⟨e, hholder, hec, hed, hw, hw'⟩))
 · simp only [waits, Bool.and_eq_true, bne_iff_ne, ne_eq] at hwaits
   obtain ⟨hqueued, hnot⟩ := hwaits
   obtain ⟨scope, -, hok⟩ := h.calls c call hc
   have hin := hok.queued hqueued
   cases hholder : r.queue.holder with
   | none =>
    rcases hin with hin | hin
    · exact absurd hin hnot
    · rw [h.queue.free hholder] at hin
      simp at hin
   | some e =>
    obtain ⟨callE, hcallE, hlive, hmoves, -⟩ := h.holder_moves hholder
    exact ⟨e, callE, rfl, hcallE, hlive, hmoves⟩
 · obtain ⟨scope, hscope, hok⟩ := h.calls c call hc
   have hholds := h.holds_below he halone hw hne hc hscope
   cases hasks : call.place.asking with
   | false => rfl
   | true =>
    rw [(hok.asks hasks).2] at hholds
    simp at hholds

/-! ## Overlaps -/

/-- Two calls that must run alone are in their tools, and neither is above the other. -/
def Overlap (pipeline : NestedPipeline) (r : NestedRunner) (c d : Nat) : Prop :=
 ∃ call callD, r.calls[c]? = some call ∧ r.calls[d]? = some callD
  ∧ call.place = .executing ∧ callD.place = .executing
  ∧ mustRunAlone pipeline call = true ∧ mustRunAlone pipeline callD = true
  ∧ ¬ Within r.parent c d ∧ ¬ Within r.parent d c

/-- A batch that executes one call at a time, with one tool. -/
def alonePipeline : NestedPipeline where
 callable :=
  [{ name := "write"
     description := ""
     parameters := .object []
     constrainedSampling := none
     prepareArguments := false
     executionMode := none
     readOnly := false }]
 toolExecution := .sequential
 maxConcurrentReadTools := none
 runtime := true
 jsonBytes := fun _ => 0
 validateToolArguments := fun _ _ args => .ok args

/-- Nothing is cancelled, and every preparation succeeds. -/
def goOn : NestedAnswer where
 cancelled := false
 site := true
 preparation := .prepared ((findTool alonePipeline.callable "write").getD
  { name := ""
    description := ""
    parameters := .null
    constrainedSampling := none
    prepareArguments := false
    executionMode := none
    readOnly := false }) (.object [])
 outcome := immediate (bareToolCall "" "write") ""

/-- So many steps of a call. -/
def steps (n c : Nat) : List NestedInput := List.replicate n (.proceed c goOn)

/-- A call that has the queue makes two calls at once. -/
def siblingsRun : List NestedInput :=
 [.issue "call", .start 0 "write" .null] ++ steps 8 0
  ++ [.start 1 "write" .null, .start 1 "write" .null] ++ steps 7 1 ++ steps 7 2

/-- A call that has the queue panics while a call below it runs and another waits. -/
def tornRun : List NestedInput :=
 [.issue "call", .start 0 "write" .null] ++ steps 8 0 ++ [.start 1 "write" .null] ++ steps 7 1
  ++ [.start 0 "write" .null] ++ steps 6 2 ++ [.tear 0 (some "boom")] ++ steps 1 0 ++ steps 3 2

theorem reachable_final (inputs : List NestedInput) :
 Reachable alonePipeline (Run.final (step alonePipeline) empty inputs) :=
 Run.Reach.final_free (fun _ _ => trivial) (.init (by rfl)) inputs

theorem not_within {a n : Nat} (hne : a ≠ n)
 (hparent : r.parent n = none ∨ ∃ p, r.parent n = some p ∧ a ≠ p ∧ r.parent p = none) :
 ¬ Within r.parent a n := by
 intro hw
 rcases within_iff.mp hw with heq | ⟨p, hp, hwp⟩
 · exact hne heq
 rcases hparent with hnone | ⟨q, hq, haq, hnone⟩
 · exact absurd (hnone.symm.trans hp) (by simp)
 · obtain rfl : q = p := some.inj (hq.symm.trans hp)
   rcases within_iff.mp hwp with heq | ⟨t, ht, -⟩
   · exact haq heq
   · exact absurd (hnone.symm.trans ht) (by simp)

theorem not_tornAbove (h : (r.calls.all fun call => !call.torn) = true) : ¬ TornAbove r c := by
 rintro ⟨e, callE, -, -, he, htorn⟩
 have := List.all_eq_true.mp h callE (List.mem_of_getElem? he)
 simp [htorn] at this

/-- Below one call that has the queue, and behind one that was torn, calls that must run
alone are in their tools at once. -/
theorem exclusive_overlap :
 (∃ r, Reachable alonePipeline r ∧ Overlap alonePipeline r 1 2 ∧ ¬ TornAbove r 1 ∧ ¬ TornAbove r 2)
 ∧ ∃ r, Reachable alonePipeline r ∧ Overlap alonePipeline r 1 2 ∧ r.queue.holder = some 2 := by
 refine ⟨⟨_, reachable_final siblingsRun, ⟨_, _, rfl, rfl, rfl, rfl, rfl, rfl, ?_, ?_⟩, ?_, ?_⟩,
  ⟨_, reachable_final tornRun, ⟨_, _, rfl, rfl, rfl, rfl, rfl, rfl, ?_, ?_⟩, rfl⟩⟩
 · exact not_within (by omega) (.inr ⟨0, rfl, by omega, rfl⟩)
 · exact not_within (by omega) (.inr ⟨0, rfl, by omega, rfl⟩)
 · exact not_tornAbove rfl
 · exact not_tornAbove rfl
 · exact not_within (by omega) (.inl rfl)
 · exact not_within (by omega) (.inr ⟨0, rfl, by omega, rfl⟩)

/-- While two calls below the one that has the queue run, a third call waits for it. -/
theorem exclusive_apart_waiting :
 let r := Run.final (step alonePipeline) empty
  (siblingsRun ++ [.start 0 "write" .null] ++ steps 6 3)
 ∃ e callE, r.queue.holder = some e ∧ r.calls[e]? = some callE
  ∧ callE.place.isGone = false ∧ r.waits e callE = false :=
 (exclusive_apart (reachable_final _)).2.1 3 _ rfl rfl

end Bake.Agent.NestedRunner
