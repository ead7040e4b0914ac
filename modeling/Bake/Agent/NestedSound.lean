import Bake.Agent.Nested

/-!
# What holds of nested calls throughout

Where a call is tells whether it is at the exclusive queue and whether it has a scope for
its tool's own calls; a scope's count is the calls in it whose tasks have not ended, and a
scope below a call that has the queue counts as having it too. A scope takes calls only
while the tool that was given its executor runs, or behind a call that was torn.
-/

open List Option FairLock

namespace Bake.Agent

open Bake.Json Bake.Ai

/-! ## Places -/

namespace NestedPlace

/-- Past the queue and not yet returned from the pipeline. -/
def permitted : NestedPlace → Bool
 | .ready | .preparing | .executing | .closing | .finalizing => true
 | _ => false

/-- In the pipeline with a scope for the tool's own calls. -/
def inner : NestedPlace → Bool
 | .preparing | .executing | .closing | .finalizing => true
 | _ => false

/-- Before that scope is made. -/
def early : NestedPlace → Bool
 | .entered | .numbered | .recorded | .starting | .site | .contending | .queued | .ready => true
 | _ => false

/-- At the queue: about to ask for it, or waiting. -/
def asking : NestedPlace → Bool
 | .contending | .queued => true
 | _ => false

def isQueued : NestedPlace → Bool
 | .queued => true
 | _ => false

def isClosing : NestedPlace → Bool
 | .closing => true
 | _ => false

/-- Neither at the queue nor in the pipeline behind it. -/
def quiet : NestedPlace → Bool
 | .entered | .numbered | .recorded | .starting | .site | .recording _ | .ending _ | .leaving
 | .gone => true
 | _ => false

def isTorn : NestedPlace → Bool
 | .torn _ => true
 | _ => false

def isGone : NestedPlace → Bool
 | .gone => true
 | _ => false

end NestedPlace

namespace NestedRunner

variable {pipeline : NestedPipeline} {r r' : NestedRunner} {c d : Nat} {call call' : NestedCall}

def mustRunAlone (pipeline : NestedPipeline) (call : NestedCall) : Bool :=
 pipeline.isExclusive (findTool pipeline.callable call.name)

/-! ## What holds of a call and of a scope -/

structure CallOk (pipeline : NestedPipeline) (r : NestedRunner) (c : Nat) (call : NestedCall)
 (scope : CallScope) : Prop where
 handed : scope.handed = true
 asks : call.place.asking = true → mustRunAlone pipeline call = true ∧ scope.holdsQueue = false
 queued : call.place.isQueued = true → r.queue.In c
 has : call.place.permitted = true → mustRunAlone pipeline call = true →
  scope.holdsQueue = false → r.queue.holder = some c
 inQueue : r.queue.In c → (call.place.isQueued || call.place.permitted || call.place.isTorn) = true
   ∧ mustRunAlone pipeline call = true ∧ scope.holdsQueue = false
 early : call.place.early = true → call.child = none
 inner : call.place.inner = true → call.child.isSome = true
 child : ∀ k, call.child = some k → ∃ child, r.scopes[k]? = some child ∧ child.call = some c
  ∧ call.scope < k ∧ child.holdsQueue = (scope.holdsQueue || mustRunAlone pipeline call)
  ∧ (call.place.isClosing = true → child.closed = true)
  ∧ (child.handed = true → call.torn = true ∨ NestedPlace.guarded call.place = true
   ∨ child.closed = true ∧ child.running = 0)

def runningCalls (r : NestedRunner) (s : Nat) : Nat :=
 r.calls.countP fun call => call.scope == s && !call.place.isGone

structure ScopeOk (r : NestedRunner) (s : Nat) (scope : CallScope) : Prop where
 call : ∀ p, scope.call = some p → ∃ call, r.calls[p]? = some call ∧ call.child = some s
 running : scope.running = r.runningCalls s
 top : scope.call = none → scope.holdsQueue = false

/-- What holds of the calls of a batch throughout. -/
structure Sound (pipeline : NestedPipeline) (r : NestedRunner) : Prop where
 queue : r.queue.Sound
 known : ∀ c, r.queue.In c → c < r.calls.length
 calls : ∀ (c : Nat) call, r.calls[c]? = some call →
  ∃ scope, r.scopes[call.scope]? = some scope ∧ CallOk pipeline r c call scope
 scopes : ∀ (s : Nat) scope, r.scopes[s]? = some scope → ScopeOk r s scope

/-- What a step leaves of a scope, for a call that does not take it. -/
structure Follows (d : Nat) (scope scope' : CallScope) : Prop where
 call : scope'.call = scope.call
 holdsQueue : scope'.holdsQueue = scope.holdsQueue
 handed : scope.handed = true → scope'.handed = true
 hands : scope'.handed = true → scope.handed = true ∨ scope.call ≠ some d
 closed : scope.closed = true → scope'.closed = true
 drained : scope.closed = true → scope.running = 0 → scope'.running = 0

theorem Follows.refl (d : Nat) (scope : CallScope) : Follows d scope scope :=
 ⟨rfl, rfl, id, .inl, id, fun _ => id⟩

variable {scope scope' : CallScope}

theorem CallOk.others (h : CallOk pipeline r d call scope) (hscope : Follows d scope scope')
 (hscopes : ∀ (s : Nat) scope, r.scopes[s]? = some scope →
  ∃ scope', r'.scopes[s]? = some scope' ∧ Follows d scope scope')
 (hin : r'.queue.In d ↔ r.queue.In d)
 (hholder : r.queue.holder = some d → r'.queue.holder = some d) :
 CallOk pipeline r' d call scope' where
 handed := hscope.handed h.handed
 asks := by rw [hscope.holdsQueue]; exact h.asks
 queued := fun hq => hin.mpr (h.queued hq)
 has := by rw [hscope.holdsQueue]; exact fun hp ha hh => hholder (h.has hp ha hh)
 inQueue := by rw [hscope.holdsQueue, hin]; exact h.inQueue
 early := h.early
 inner := h.inner
 child := fun k hk => by
  obtain ⟨child, hchild, hcall, hlt, hholds, hclosing, hhanded⟩ := h.child k hk
  obtain ⟨child', hchild', hf⟩ := hscopes k child hchild
  refine ⟨child', hchild', hf.call.trans hcall, hlt, ?_, fun hp => hf.closed (hclosing hp),
   fun hh => ?_⟩
  · rw [hf.holdsQueue, hscope.holdsQueue, hholds]
  · rcases hf.hands hh with hh | hne
    · rcases hhanded hh with ht | hg | ⟨hc, hr⟩
      · exact .inl ht
      · exact .inr (.inl hg)
      · exact .inr (.inr ⟨hf.closed hc, hf.drained hc hr⟩)
    · exact absurd hcall hne

/-- The parts of a step by one call: the other calls follow, and it and the scopes hold. -/
theorem Sound.update (h : Sound pipeline r) (hcalls : r'.calls = r.calls.set c call')
 (hscopes : ∀ d, d ≠ c → ∀ (s : Nat) scope, r.scopes[s]? = some scope →
  ∃ scope', r'.scopes[s]? = some scope' ∧ Follows d scope scope')
 (hqueue : r'.queue.Sound) (hin : ∀ d, d ≠ c → (r'.queue.In d ↔ r.queue.In d))
 (hholder : ∀ d, d ≠ c → r.queue.holder = some d → r'.queue.holder = some d)
 (hlt : c < r.calls.length)
 (hcall : ∃ scope', r'.scopes[call'.scope]? = some scope' ∧ CallOk pipeline r' c call' scope')
 (hok : ∀ (s : Nat) scope', r'.scopes[s]? = some scope' → ScopeOk r' s scope') :
 Sound pipeline r' where
 queue := hqueue
 known := fun d hd => by
  rw [hcalls, length_set]
  by_cases hdc : d = c
  · exact hdc ▸ hlt
  · exact h.known d ((hin d hdc).mp hd)
 calls := fun d callD hd => by
  rw [hcalls] at hd
  by_cases hdc : d = c
  · subst hdc
    rw [getElem?_set_self hlt, some.injEq] at hd
    exact hd ▸ hcall
  · rw [getElem?_set_ne (Ne.symm hdc)] at hd
    obtain ⟨scope, hscope, hold⟩ := h.calls d callD hd
    obtain ⟨scope', hscope', hf⟩ := hscopes d hdc _ scope hscope
    exact ⟨scope', hscope', hold.others hf (hscopes d hdc) (hin d hdc) (hholder d hdc)⟩
 scopes := hok

theorem countP_set_of_eq {β : Type} {p : β → Bool} {l : List β} {i : Nat} {b b' : β}
 (h : l[i]? = some b) (heq : p b' = p b) : (l.set i b').countP p = l.countP p := by
 obtain ⟨hlt, hget⟩ := List.getElem_of_getElem? h
 rw [countP_set hlt, hget, heq]
 by_cases hp : p b = true
 · have hpos : 0 < l.countP p := countP_pos_iff.mpr ⟨b, mem_of_getElem? h, hp⟩
   simp only [hp, if_true]
   omega
 · simp [hp]

theorem ScopeOk.move {s : Nat} (h : ScopeOk r s scope) (hc : r.calls[c]? = some call)
 (hcalls : r'.calls = r.calls.set c call') (hsame : call'.scope = call.scope)
 (hgone : call'.place.isGone = call.place.isGone)
 (hchild : call.child = some s → call'.child = some s) (hf : ∀ d, d ≠ c → Follows d scope scope')
 (hrunning : scope'.running = scope.running) : ScopeOk r' s scope' := by
 have hfollows : scope'.call = scope.call ∧ scope'.holdsQueue = scope.holdsQueue :=
  ⟨(hf (c + 1) (by omega)).call, (hf (c + 1) (by omega)).holdsQueue⟩
 refine ⟨fun p hp => ?_, ?_, fun hn => ?_⟩
 · rw [hfollows.1] at hp
   obtain ⟨callP, hcallP, hchildP⟩ := h.call p hp
   by_cases hpc : p = c
   · subst hpc
     obtain rfl : call = callP := some.inj (hc.symm.trans hcallP)
     refine ⟨call', ?_, hchild hchildP⟩
     rw [hcalls, getElem?_set_self (List.getElem_of_getElem? hc).1]
   · exact ⟨callP, by rw [hcalls, getElem?_set_ne (Ne.symm hpc)]; exact hcallP, hchildP⟩
 · rw [hrunning, h.running, runningCalls, runningCalls, hcalls, countP_set_of_eq hc]
   rw [hsame, hgone]
 · rw [hfollows.2]
   exact h.top (hfollows.1 ▸ hn)

/-- A call moves to another place and does not end; scopes keep their counts. -/
theorem Sound.move (h : Sound pipeline r) (hc : r.calls[c]? = some call)
 (hcalls : r'.calls = r.calls.set c call') (hsame : call'.scope = call.scope)
 (hgone : call'.place.isGone = call.place.isGone)
 (hchild : ∀ s, call.child = some s → call'.child = some s)
 (hlen : r'.scopes.length = r.scopes.length)
 (hscopes : ∀ (s : Nat) scope, r.scopes[s]? = some scope → ∃ scope',
  r'.scopes[s]? = some scope' ∧ (∀ d, d ≠ c → Follows d scope scope')
   ∧ scope'.running = scope.running)
 (hqueue : r'.queue.Sound) (hin : ∀ d, d ≠ c → (r'.queue.In d ↔ r.queue.In d))
 (hholder : ∀ d, d ≠ c → r.queue.holder = some d → r'.queue.holder = some d)
 (hcall : ∃ scope', r'.scopes[call'.scope]? = some scope' ∧ CallOk pipeline r' c call' scope') :
 Sound pipeline r' := by
 refine h.update hcalls (fun d hd s scope hs => ?_) hqueue hin hholder
  (List.getElem_of_getElem? hc).1 hcall fun s scope' hs' => ?_
 · obtain ⟨scope', hs', hf, -⟩ := hscopes s scope hs
   exact ⟨scope', hs', hf d hd⟩
 · have hlt : s < r.scopes.length := hlen ▸ (List.getElem_of_getElem? hs').1
   obtain ⟨scope'', hs'', hf, hrunning⟩ := hscopes s _ (getElem?_eq_getElem hlt)
   obtain rfl : scope' = scope'' := some.inj (hs'.symm.trans hs'')
   exact (h.scopes s _ (getElem?_eq_getElem hlt)).move hc hcalls hsame hgone (hchild s) hf hrunning

theorem CallOk.toQuiet (h : CallOk pipeline r c call scope) (hplace : call'.place.quiet = true)
 (hearly : call'.place.early = true → call.place.early = true) (hname : call'.name = call.name)
 (hsame : call'.scope = call.scope) (hchild : call'.child = call.child) (hout : ¬ r'.queue.In c)
 (hscope : scope'.handed = scope.handed ∧ scope'.holdsQueue = scope.holdsQueue)
 (hunguarded : NestedPlace.guarded call.place = false)
 (htorn : call.torn = true → call'.torn = true)
 (hscopes : ∀ k : Nat, call.scope < k → r'.scopes[k]? = r.scopes[k]?) :
 CallOk pipeline r' c call' scope' := by
 have hquiet : call'.place.asking = false ∧ call'.place.isQueued = false
  ∧ call'.place.permitted = false ∧ call'.place.inner = false
  ∧ call'.place.isClosing = false := by
  revert hplace
  cases call'.place <;> simp [NestedPlace.quiet, NestedPlace.asking, NestedPlace.isQueued,
   NestedPlace.permitted, NestedPlace.inner, NestedPlace.isClosing]
 obtain ⟨hasking, hqueued, hpermitted, hinner, hclosing⟩ := hquiet
 have hrule : mustRunAlone pipeline call' = mustRunAlone pipeline call := by
  rw [mustRunAlone, hname]
  rfl
 refine ⟨hscope.1.trans h.handed, by simp [hasking],
  by simp [hqueued], by simp [hpermitted],
  fun hp => absurd hp hout, fun hp => hchild.trans (h.early (hearly hp)),
  by simp [hinner], fun k hk => ?_⟩
 rw [hchild] at hk
 obtain ⟨child, hget, hcall, hlt, hholds, -, hhanded⟩ := h.child k hk
 refine ⟨child, (hscopes k hlt).trans hget, hcall, hsame ▸ hlt, ?_,
  by simp [hclosing], fun hh => ?_⟩
 · rw [hscope.2, hholds, hrule]
 · rcases hhanded hh with ht | hg | hd
   · exact .inl (htorn ht)
   · simp [hunguarded] at hg
   · exact .inr (.inr hd)

theorem Sound.stay (h : Sound pipeline r) (hc : r.calls[c]? = some call)
 (hs : r.scopes[call.scope]? = some scope) (hcalls : r'.calls = r.calls.set c call')
 (hscopes : r'.scopes = r.scopes) (hqueue : r'.queue = r.queue)
 (hidle : (call.place.isQueued || call.place.permitted || call.place.isTorn) = false)
 (hunguarded : NestedPlace.guarded call.place = false) (hplace : call'.place.quiet = true)
 (hgone : call'.place.isGone = call.place.isGone)
 (hearly : call'.place.early = true → call.place.early = true) (hname : call'.name = call.name)
 (hsame : call'.scope = call.scope) (hchild : call'.child = call.child)
 (htorn : call.torn = true → call'.torn = true) : Sound pipeline r' := by
 obtain ⟨scope₀, hs₀, hok⟩ := h.calls c call hc
 obtain rfl : scope = scope₀ := some.inj (hs.symm.trans hs₀)
 have hout : ¬ r.queue.In c := by
  intro hin
  have := (hok.inQueue hin).1
  rw [hidle] at this
  simp at this
 refine h.move hc hcalls hsame hgone (fun s hs => hchild.trans hs) (by rw [hscopes])
  (fun s scope hs => ⟨scope, by rw [hscopes]; exact hs, fun d _ => .refl d scope, rfl⟩)
  (hqueue ▸ h.queue) (fun d _ => by rw [hqueue]) (fun d _ hd => by rw [hqueue]; exact hd) ?_
 refine ⟨scope, by rw [hscopes, hsame]; exact hs, ?_⟩
 exact hok.toQuiet hplace hearly hname hsame hchild (by rw [hqueue]; exact hout) ⟨rfl, rfl⟩
  hunguarded htorn fun k _ => by rw [hscopes]

theorem Sound.quit (h : Sound pipeline r) (hc : r.calls[c]? = some call)
 (hs : r.scopes[call.scope]? = some scope) (hcalls : r'.calls = r.calls.set c call')
 (hscopes : r'.scopes = r.scopes) (hqueue : r'.queue = r.queue.leave c)
 (hunguarded : NestedPlace.guarded call.place = false) (hplace : call'.place.quiet = true)
 (hgone : call'.place.isGone = call.place.isGone) (hearly : call'.place.early = false)
 (hname : call'.name = call.name) (hsame : call'.scope = call.scope)
 (hchild : call'.child = call.child) (htorn : call.torn = true → call'.torn = true) :
 Sound pipeline r' := by
 obtain ⟨scope₀, hs₀, hok⟩ := h.calls c call hc
 obtain rfl : scope = scope₀ := some.inj (hs.symm.trans hs₀)
 refine h.move hc hcalls hsame hgone (fun s hs => hchild.trans hs) (by rw [hscopes])
  (fun s scope hs => ⟨scope, by rw [hscopes]; exact hs, fun d _ => .refl d scope, rfl⟩)
  (hqueue ▸ h.queue.leave c) (fun d hd => ?_) (fun d hd hh => ?_) ?_
 · rw [hqueue, h.queue.in_leave]
   exact ⟨fun hin => hin.1, fun hin => ⟨hin, hd⟩⟩
 · rw [hqueue]
   exact holder_leave hh hd
 · refine ⟨scope, by rw [hscopes, hsame]; exact hs, ?_⟩
   refine hok.toQuiet hplace (by simp [hearly]) hname hsame hchild ?_
    ⟨rfl, rfl⟩ hunguarded htorn fun k _ => by rw [hscopes]
   rw [hqueue, h.queue.in_leave]
   exact fun hin => hin.2 rfl

/-- What a step may do to the scope of a call's own tool: hand it over, close it, abort it. -/
def Tends (f : CallScope → CallScope) : Prop :=
 ∀ child, (f child).call = child.call ∧ (f child).holdsQueue = child.holdsQueue
  ∧ (f child).running = child.running ∧ (child.handed = true → (f child).handed = true)
  ∧ (child.closed = true → (f child).closed = true)

theorem tends_id : Tends id := fun _ => ⟨rfl, rfl, rfl, id, id⟩

def ChildOk (call : NestedCall) (child : CallScope) : Prop :=
 (call.place.isClosing = true → child.closed = true)
  ∧ (child.handed = true → call.torn = true ∨ NestedPlace.guarded call.place = true
   ∨ child.closed = true ∧ child.running = 0)

section

variable (h : Sound pipeline r)

include h

section

variable (hc : r.calls[c]? = some call)

include hc

section

variable (hs : r.scopes[call.scope]? = some scope)

include hs

/-- A step into the queue or through the pipeline: the call keeps its scope, and the scope
of its own tool may be tended. -/
theorem Sound.go
 {place : NestedPlace} (k : Nat)
 (f : CallScope → CallScope) (torn : Bool)
 (hcalls : r'.calls = r.calls.set c { call with place, torn })
 (hscopes : r'.scopes = r.scopes.modify k f) (hk : call.child = some k ∨ f = id) (hf : Tends f)
 (hqueue : r'.queue.Sound) (hin : ∀ d, d ≠ c → (r'.queue.In d ↔ r.queue.In d))
 (hholder : ∀ d, d ≠ c → r.queue.holder = some d → r'.queue.holder = some d)
 (hgone : place.isGone = call.place.isGone)
 (hasks : place.asking = true → mustRunAlone pipeline call = true ∧ scope.holdsQueue = false)
 (hqueued : place.isQueued = true → r'.queue.In c)
 (hhas : place.permitted = true → mustRunAlone pipeline call = true →
  scope.holdsQueue = false → r'.queue.holder = some c)
 (hinQueue : r'.queue.In c → (place.isQueued || place.permitted || place.isTorn) = true
  ∧ mustRunAlone pipeline call = true ∧ scope.holdsQueue = false)
 (hearly : place.early = true → call.place.early = true)
 (hinner : place.inner = true → call.place.inner = true)
 (hchild : ∀ (j : Nat) child, call.child = some j → r.scopes[j]? = some child →
  ChildOk call child → ChildOk { call with place, torn } (f child)) : Sound pipeline r' := by
 obtain ⟨scope₀, hs₀, hok⟩ := h.calls c call hc
 obtain rfl : scope = scope₀ := some.inj (hs.symm.trans hs₀)
 have hget : ∀ (s : Nat) child, r.scopes[s]? = some child →
  r'.scopes[s]? = some (if k = s then f child else child) := by
  intro s child hchild
  rw [hscopes, getElem?_modify, hchild]
  by_cases hks : k = s <;> simp [hks]
 -- a tended scope is the child's, so no other call's
 have hfollows : ∀ (s : Nat) child, r.scopes[s]? = some child → ∀ d, d ≠ c →
  Follows d child (if k = s then f child else child) := by
  intro s child hchild d hd
  split
  next hks =>
   obtain ⟨hcall, hholds, hrunning, hhanded, hclosed⟩ := hf child
   refine ⟨hcall, hholds, hhanded, fun hh => ?_, hclosed, fun _ hr => hrunning.trans hr⟩
   rcases hk with hk | rfl
   · obtain ⟨child', hchild', hcall', -⟩ := hok.child k hk
     subst hks
     obtain rfl : child = child' := some.inj (hchild.symm.trans hchild')
     exact .inr fun heq => hd (some.inj (heq.symm.trans hcall'))
   · exact .inl hh
  · exact .refl d child
 have hown : (if k = call.scope then f scope else scope) = scope := by
  split
  next hks =>
   rcases hk with hk | rfl
   · obtain ⟨-, -, -, hlt, -⟩ := hok.child k hk
     exact absurd hks (by omega)
   · rfl
  · rfl
 refine h.move hc hcalls rfl hgone (fun s hs => hs) (by rw [hscopes, length_modify])
  (fun s child hchild => ⟨_, hget s child hchild, hfollows s child hchild, ?_⟩) hqueue hin
  hholder ⟨_, hget _ scope hs, ?_⟩
 · split
   · exact (hf child).2.2.1
   · rfl
 rw [hown]
 refine ⟨hok.handed, hasks, hqueued, hhas, hinQueue, fun hp => hok.early (hearly hp),
  fun hp => hok.inner (hinner hp), fun j hj => ?_⟩
 obtain ⟨child, hchildget, hcall, hlt, hholds, hclosing, hhanded⟩ := hok.child j hj
 have hboth : ChildOk { call with place, torn } (if k = j then f child else child) := by
  split
  · exact hchild j child hj hchildget ⟨hclosing, hhanded⟩
  next hne =>
   rcases hk with hk | rfl
   · exact absurd (some.inj (hk.symm.trans hj)) hne
   · exact hchild j child hj hchildget ⟨hclosing, hhanded⟩
 refine ⟨_, hget j child hchildget, ?_, hlt, ?_, hboth.1, hboth.2⟩
 · split
   · exact (hf child).1.trans hcall
   · exact hcall
 · split
   · exact (hf child).2.1.trans hholds
   · exact hholds

/-- A step of a call in its own scope that changes neither what the scope's calls rely on
nor where the call is in the pipeline. -/
theorem Sound.number
 (hplace : call.place = .entered) (callId : String)
 (nextId : Nat) :
 Sound pipeline ((r.setScope call.scope { scope with nextId }).setCall c
  { call with place := .numbered, id := callId }) := by
 obtain ⟨scope₀, hs₀, hok⟩ := h.calls c call hc
 obtain rfl : scope = scope₀ := some.inj (hs.symm.trans hs₀)
 have hlt := (List.getElem_of_getElem? hs).1
 have hout : ¬ r.queue.In c := fun hin => by
  have := (hok.inQueue hin).1
  rw [hplace] at this
  simp [NestedPlace.isQueued, NestedPlace.permitted, NestedPlace.isTorn] at this
 refine h.move hc rfl rfl (by rw [hplace]; rfl) (fun s hs => hs) (by simp [setScope, setCall])
  (fun s child hchild => ?_) h.queue (fun _ _ => Iff.rfl) (fun _ _ hd => hd) ?_
 · by_cases hsc : s = call.scope
   · subst hsc
     obtain rfl : scope = child := some.inj (hs.symm.trans hchild)
     exact ⟨_, getElem?_set_self hlt, fun d _ => ⟨rfl, rfl, id, .inl, id, fun _ => id⟩, rfl⟩
   · exact ⟨child, (getElem?_set_ne (Ne.symm hsc)).trans hchild, fun d _ => .refl d child, rfl⟩
 · refine ⟨_, getElem?_set_self hlt, ?_⟩
   exact hok.toQuiet rfl (fun _ => by rw [hplace]; rfl) rfl rfl rfl hout ⟨rfl, rfl⟩
    (by rw [hplace]; rfl) (fun ht => ht) fun k hk => getElem?_set_ne (by omega)

theorem Sound.end_
 (hplace : call.place = .leaving)
 (resolved : Option AgentToolCallOutcome) :
 Sound pipeline ((r.setScope call.scope { scope with running := scope.running - 1 }).setCall c
  { call with place := .gone, resolved }) := by
 obtain ⟨scope₀, hs₀, hok⟩ := h.calls c call hc
 obtain rfl : scope = scope₀ := some.inj (hs.symm.trans hs₀)
 have hlt := (List.getElem_of_getElem? hs).1
 obtain ⟨hclt, hcget⟩ := List.getElem_of_getElem? hc
 have hout : ¬ r.queue.In c := fun hin => by
  have := (hok.inQueue hin).1
  rw [hplace] at this
  simp [NestedPlace.isQueued, NestedPlace.permitted, NestedPlace.isTorn] at this
 have hfollows : ∀ d, Follows d scope { scope with running := scope.running - 1 } := fun d =>
  ⟨rfl, rfl, id, .inl, id, fun _ hr => by simp [hr]⟩
 refine h.update rfl (fun d _ s child hchild => ?_) h.queue (fun _ _ => Iff.rfl)
  (fun _ _ hd => hd) hclt ⟨_, getElem?_set_self hlt, ?_⟩ fun s child' hchild' => ?_
 · by_cases hsc : s = call.scope
   · subst hsc
     obtain rfl : scope = child := some.inj (hs.symm.trans hchild)
     exact ⟨_, getElem?_set_self hlt, hfollows d⟩
   · exact ⟨child, (getElem?_set_ne (Ne.symm hsc)).trans hchild, .refl d child⟩
 · exact hok.toQuiet rfl (by simp [NestedPlace.early]) rfl rfl rfl hout
    ⟨rfl, rfl⟩ (by rw [hplace]; rfl) (fun ht => ht) fun k hk => getElem?_set_ne (by omega)
 have hcount : (List.countP (fun call => call.scope == s && !call.place.isGone)
  (r.calls.set c { call with place := .gone, resolved }))
  = r.runningCalls s - (if call.scope = s then 1 else 0) := by
  rw [countP_set hclt, hcget, runningCalls]
  simp only [hplace, NestedPlace.isGone, Bool.not_true, Bool.and_false, Bool.false_eq_true,
   if_false, Nat.add_zero, Bool.not_false, Bool.and_true, beq_iff_eq]
 have hcallOf : ∀ (p : Nat) (callP : NestedCall), r.calls[p]? = some callP → callP.child = some s →
  ∃ callP', (r.calls.set c { call with place := .gone, resolved })[p]? = some callP'
   ∧ callP'.child = some s := by
  intro p callP hp hchild
  by_cases hpc : p = c
  · subst hpc
    obtain rfl : call = callP := some.inj (hc.symm.trans hp)
    exact ⟨_, getElem?_set_self hclt, hchild⟩
  · exact ⟨callP, (getElem?_set_ne (Ne.symm hpc)).trans hp, hchild⟩
 by_cases hsc : s = call.scope
 · subst hsc
   have hold := h.scopes _ scope hs
   obtain rfl : { scope with running := scope.running - 1 } = child' :=
    some.inj ((getElem?_set_self hlt).symm.trans hchild')
   refine ⟨fun p hp => ?_, ?_, hold.top⟩
   · obtain ⟨callP, hp', hchild⟩ := hold.call p hp
     exact hcallOf p callP hp' hchild
   · change scope.running - 1 = List.countP _ (r.calls.set c _)
     rw [hcount, if_pos rfl, hold.running]
 · have hget := (getElem?_set_ne (Ne.symm hsc)).symm.trans hchild'
   have hold := h.scopes s child' hget
   refine ⟨fun p hp => ?_, ?_, hold.top⟩
   · obtain ⟨callP, hp', hchild⟩ := hold.call p hp
     exact hcallOf p callP hp' hchild
   · change child'.running = List.countP _ (r.calls.set c _)
     rw [hcount, if_neg (Ne.symm hsc)]
     exact hold.running

theorem Sound.prepare
 (hplace : call.place = .ready) :
 Sound pipeline ({ r with scopes := r.scopes ++ [childScope pipeline scope c call] }.setCall c
  { call with place := .preparing, child := some r.scopes.length }) := by
 obtain ⟨scope₀, hs₀, hok⟩ := h.calls c call hc
 obtain rfl : scope = scope₀ := some.inj (hs.symm.trans hs₀)
 obtain ⟨hclt, -⟩ := List.getElem_of_getElem? hc
 have hold : ∀ (s : Nat) child, r.scopes[s]? = some child →
  (r.scopes ++ [childScope pipeline scope c call])[s]? = some child := fun s child hchild =>
  (getElem?_append_left (List.getElem_of_getElem? hchild).1).trans hchild
 have hnone : call.child = none := hok.early (by rw [hplace]; rfl)
 have hin : r.queue.In c → mustRunAlone pipeline call = true ∧ scope.holdsQueue = false :=
  fun hin => (hok.inQueue hin).2
 refine h.update rfl (fun d _ s child hchild => ⟨child, hold s child hchild, .refl d child⟩)
  h.queue (fun _ _ => Iff.rfl) (fun _ _ hd => hd) hclt ⟨scope, hold _ scope hs, ?_⟩
  fun s child' hchild' => ?_
 · refine ⟨hok.handed, by simp [NestedPlace.asking],
    by simp [NestedPlace.isQueued],
    fun _ hm hh => hok.has (by rw [hplace]; rfl) hm hh, fun hq => ⟨rfl, hin hq⟩,
    by simp [NestedPlace.early], fun _ => rfl, fun k hk => ?_⟩
   obtain rfl : r.scopes.length = k := some.inj hk
   refine ⟨childScope pipeline scope c call, getElem?_concat_length, rfl,
    (List.getElem_of_getElem? hs).1, rfl, by simp [NestedPlace.isClosing],
    by simp [childScope]⟩
 by_cases hlt : s < r.scopes.length
 · have hget := (getElem?_append_left hlt).symm.trans hchild'
   refine (h.scopes s child' hget).move hc rfl rfl (by rw [hplace]; rfl) (fun hn => ?_)
    (fun d _ => .refl d child') rfl
   simp [hnone] at hn
 have hlen := (List.getElem_of_getElem? hchild').1
 obtain rfl : s = r.scopes.length := by
  simp only [setCall, length_append, length_singleton] at hlen
  omega
 obtain rfl : childScope pipeline scope c call = child' :=
  some.inj (getElem?_concat_length.symm.trans hchild')
 refine ⟨fun p hp => ?_, ?_, by simp [childScope]⟩
 · obtain rfl : c = p := some.inj hp
   exact ⟨_, getElem?_set_self hclt, rfl⟩
 -- no call is in a scope that was not there
 have hzero : r.runningCalls r.scopes.length = 0 := by
  refine countP_eq_zero.mpr fun other hother => ?_
  obtain ⟨d, hd⟩ := getElem?_of_mem hother
  obtain ⟨scopeD, hscopeD, -⟩ := h.calls d other hd
  have := (List.getElem_of_getElem? hscopeD).1
  simp only [Bool.and_eq_true, beq_iff_eq, not_and]
  intro heq
  omega
 refine (Eq.trans ?_ hzero).symm
 refine countP_set_of_eq hc ?_
 simp [hplace, NestedPlace.isGone]

end

end

theorem Sound.tend (k : Nat) (f : CallScope → CallScope)
 (hcalls : r'.calls = r.calls) (hqueue : r'.queue = r.queue)
 (hscopes : r'.scopes = r.scopes.modify k f) (hf : Tends f)
 (hhanded : ∀ child, (f child).handed = child.handed) : Sound pipeline r' := by
 have hget : ∀ (s : Nat) child, r.scopes[s]? = some child →
  r'.scopes[s]? = some (if k = s then f child else child) := by
  intro s child hchild
  rw [hscopes, getElem?_modify, hchild]
  by_cases hks : k = s <;> simp [hks]
 have hfollows : ∀ d (s : Nat) child, Follows d child (if k = s then f child else child) := by
  intro d s child
  split
  · obtain ⟨hcall, hholds, hrunning, -, hclosed⟩ := hf child
    exact ⟨hcall, hholds, fun hh => (hhanded child).trans hh,
     fun hh => .inl ((hhanded child).symm.trans hh), hclosed, fun _ hr => hrunning.trans hr⟩
  · exact .refl d child
 refine ⟨hqueue ▸ h.queue, fun d hd => ?_, fun d callD hd => ?_, fun s child' hchild' => ?_⟩
 · rw [hqueue] at hd
   rw [hcalls]
   exact h.known d hd
 · rw [hcalls] at hd
   obtain ⟨scope, hscope, hok⟩ := h.calls d callD hd
   refine ⟨_, hget _ scope hscope, hok.others (hfollows d _ scope)
    (fun s child hchild => ⟨_, hget s child hchild, hfollows d s child⟩) (by rw [hqueue])
    (by rw [hqueue]; exact fun hd => hd)⟩
 have hlt : s < r.scopes.length := by
  have := (List.getElem_of_getElem? hchild').1
  rwa [hscopes, length_modify] at this
 have hchild := getElem?_eq_getElem hlt
 obtain rfl := some.inj ((hget s _ hchild).symm.trans hchild')
 have hold := h.scopes s _ hchild
 refine ⟨fun p hp => ?_, ?_, fun hn => ?_⟩
 · rw [(hfollows 0 s _).call] at hp
   rw [hcalls]
   exact hold.call p hp
 · have hrunning : (if k = s then f r.scopes[s] else r.scopes[s]).running
    = (r.scopes[s]).running := by
    split
    · exact (hf _).2.2.1
    · rfl
   rw [hrunning, hold.running, runningCalls, runningCalls, hcalls]
 · rw [(hfollows 0 s _).holdsQueue]
   exact hold.top ((hfollows 0 s _).call ▸ hn)

end

theorem runningCalls_snoc (hcalls : r'.calls = r.calls ++ [call])
 (hrunning : call.place.isGone = false) (s : Nat) :
 r'.runningCalls s = r.runningCalls s + if call.scope = s then 1 else 0 := by
 simp only [runningCalls, hcalls, countP_append, countP_singleton, hrunning,
  Bool.not_false, Bool.and_true, beq_iff_eq]

theorem Sound.start (h : Sound pipeline r) {s : Nat} {name : String} {args : Value}
 (hs : r.start pipeline s name args = some r') : Sound pipeline r' := by
 unfold NestedRunner.start at hs
 split at hs
 · simp at hs
 rename_i scope hscope
 split at hs
 · simp at hs
 rename_i hopen
 simp only [Bool.or_eq_true, not_or, Bool.not_eq_true', Bool.not_eq_false,
  Bool.not_eq_true, decide_eq_true_eq] at hopen
 obtain ⟨⟨⟨hhanded, -⟩, -⟩, hclosed⟩ := hopen
 cases hs
 have hlt := (List.getElem_of_getElem? hscope).1
 have hfollows : ∀ d, Follows d scope { scope with running := scope.running + 1 } := fun d =>
  ⟨rfl, rfl, id, .inl, id, by simp [hclosed]⟩
 have hget : ∀ (j : Nat) child, r.scopes[j]? = some child → ∃ child',
  (r.scopes.set s { scope with running := scope.running + 1 })[j]? = some child'
   ∧ ∀ d, Follows d child child' := by
  intro j child hchild
  by_cases hjs : j = s
  · subst hjs
    obtain rfl : scope = child := some.inj (hscope.symm.trans hchild)
    exact ⟨_, getElem?_set_self hlt, hfollows⟩
  · exact ⟨child, (getElem?_set_ne (Ne.symm hjs)).trans hchild, fun d => .refl d child⟩
 have hfresh : ¬ r.queue.In r.calls.length := fun hin =>
  absurd (h.known _ hin) (Nat.lt_irrefl _)
 refine ⟨h.queue, fun d hd => ?_, fun d callD hd => ?_, fun j child' hchild' => ?_⟩
 · rw [length_append]
   exact Nat.lt_add_right _ (h.known d hd)
 · by_cases hdlt : d < r.calls.length
   · rw [getElem?_append_left hdlt] at hd
     obtain ⟨scopeD, hscopeD, hok⟩ := h.calls d callD hd
     obtain ⟨scopeD', hscopeD', hf⟩ := hget _ scopeD hscopeD
     exact ⟨scopeD', hscopeD', hok.others (hf d) (fun j child hchild =>
      (hget j child hchild).imp fun _ hj => ⟨hj.1, hj.2 d⟩) Iff.rfl fun hd => hd⟩
   · have hlen := (List.getElem_of_getElem? hd).1
     obtain rfl : d = r.calls.length := by
      simp only [length_append, length_singleton] at hlen
      omega
     rw [getElem?_concat_length, some.injEq] at hd
     subst hd
     exact ⟨_, getElem?_set_self hlt, hhanded, by simp [NestedPlace.asking],
      by simp [NestedPlace.isQueued],
      by simp [NestedPlace.permitted], fun hq => absurd hq hfresh,
      fun _ => rfl, by simp [NestedPlace.inner],
      fun k hk => absurd hk (by simp)⟩
 have hjlt : j < r.scopes.length := by
  have := (List.getElem_of_getElem? hchild').1
  rwa [length_set] at this
 have hchild := getElem?_eq_getElem hjlt
 have hold := h.scopes j _ hchild
 obtain ⟨child'', hget', hf⟩ := hget j _ hchild
 obtain rfl : child' = child'' := some.inj (hchild'.symm.trans hget')
 refine ⟨fun p hp => ?_, ?_, fun hn => ?_⟩
 · rw [(hf 0).call] at hp
   obtain ⟨callP, hcallP, hchildP⟩ := hold.call p hp
   exact ⟨callP, (getElem?_append_left (List.getElem_of_getElem? hcallP).1).trans hcallP, hchildP⟩
 · rw [runningCalls_snoc rfl rfl j, ← hold.running]
   by_cases hjs : s = j
   · subst hjs
     obtain rfl : { scope with running := scope.running + 1 } = child' :=
      some.inj ((getElem?_set_self hlt).symm.trans hchild')
     obtain heq : scope = r.scopes[s] := some.inj (hscope.symm.trans hchild)
     rw [if_pos rfl, ← heq]
   · have heq : r.scopes[j] = child' := some.inj
      (((getElem?_set_ne hjs).trans hchild).symm.trans hchild')
     rw [if_neg hjs, ← heq]
     rfl
 · rw [(hf 0).holdsQueue]
   exact hold.top ((hf 0).call ▸ hn)

theorem Sound.issue (h : Sound pipeline r) (callerId : String) : Sound pipeline (r.issue callerId) := by
 have hold : ∀ (s : Nat) child, r.scopes[s]? = some child →
  (r.issue callerId).scopes[s]? = some child := fun s child hchild =>
  (getElem?_append_left (List.getElem_of_getElem? hchild).1).trans hchild
 refine ⟨h.queue, h.known, fun d callD hd => ?_, fun s child' hchild' => ?_⟩
 · obtain ⟨scope, hscope, hok⟩ := h.calls d callD hd
   exact ⟨scope, hold _ scope hscope, hok.others (.refl d scope)
    (fun j child hchild => ⟨child, hold j child hchild, .refl d child⟩) Iff.rfl fun hd => hd⟩
 by_cases hlt : s < r.scopes.length
 · have hok := h.scopes s child' ((getElem?_append_left hlt).symm.trans hchild')
   exact ⟨hok.call, hok.running, hok.top⟩
 have hlen := (List.getElem_of_getElem? hchild').1
 obtain rfl : s = r.scopes.length := by
  simp only [NestedRunner.issue, length_append, length_singleton] at hlen
  omega
 cases getElem?_concat_length.symm.trans hchild'
 refine ⟨fun p hp => absurd hp (by simp), ?_, fun _ => rfl⟩
 refine (countP_eq_zero.mpr fun other hother => ?_).symm
 obtain ⟨d, hd⟩ := getElem?_of_mem hother
 obtain ⟨scopeD, hscopeD, -⟩ := h.calls d other hd
 have := (List.getElem_of_getElem? hscopeD).1
 simp only [Bool.and_eq_true, beq_iff_eq, not_and]
 intro heq
 omega

theorem child_eq_some (h : call.child.isSome = true) : call.child = some (call.child.getD 0) := by
 obtain ⟨k, hk⟩ := isSome_iff_exists.mp h
 rw [hk]
 rfl

/-- **A call's step keeps what holds.** -/
theorem Sound.proceedFrom (h : Sound pipeline r) (hc : r.calls[c]? = some call)
 (hs : r.scopes[call.scope]? = some scope) (answer : NestedAnswer) :
 Sound pipeline (r.proceedFrom pipeline c call scope answer) := by
 obtain ⟨scope₀, hs₀, hok⟩ := h.calls c call hc
 obtain rfl : scope = scope₀ := some.inj (hs.symm.trans hs₀)
 have hstay : ∀ d, d ≠ c → (r.queue.In d ↔ r.queue.In d) := fun _ _ => Iff.rfl
 have hkeep : ∀ d, d ≠ c → r.queue.holder = some d → r.queue.holder = some d := fun _ _ hd => hd
 cases hplace : call.place with
 | entered =>
  simp only [NestedRunner.proceedFrom, hplace]
  exact h.number hc hs hplace _ _
 | numbered =>
  simp only [NestedRunner.proceedFrom, hplace]
  split
  · exact h
  · exact h.stay hc hs rfl rfl rfl (by rw [hplace]; rfl) (by rw [hplace]; rfl) rfl
     (by rw [hplace]; rfl) (fun _ => by rw [hplace]; rfl) rfl rfl rfl fun ht => ht
 | recorded =>
  simp only [NestedRunner.proceedFrom, hplace]
  split
  · exact h.stay hc hs rfl rfl rfl (by rw [hplace]; rfl) (by rw [hplace]; rfl) rfl
     (by rw [hplace]; rfl) (fun _ => by rw [hplace]; rfl) rfl rfl rfl fun _ => rfl
  · exact h.stay hc hs rfl rfl rfl (by rw [hplace]; rfl) (by rw [hplace]; rfl) rfl
     (by rw [hplace]; rfl) (fun _ => by rw [hplace]; rfl) rfl rfl rfl fun ht => ht
 | starting =>
  simp only [NestedRunner.proceedFrom, hplace]
  exact h.stay hc hs rfl rfl rfl (by rw [hplace]; rfl) (by rw [hplace]; rfl) rfl
   (by rw [hplace]; rfl) (fun _ => by rw [hplace]; rfl) rfl rfl rfl fun ht => ht
 | site =>
  have hout : ¬ r.queue.In c := fun hin => by
   have := (hok.inQueue hin).1
   rw [hplace] at this
   exact absurd this (by simp [NestedPlace.isQueued, NestedPlace.permitted,
    NestedPlace.isTorn])
  simp only [NestedRunner.proceedFrom, hplace]
  split
  · exact h.stay hc hs rfl rfl rfl (by rw [hplace]; rfl) (by rw [hplace]; rfl) rfl
     (by rw [hplace]; rfl) (by simp [NestedPlace.early]) rfl rfl rfl
     fun ht => ht
  split
  · split
    next halone =>
     simp only [Bool.and_eq_true, Bool.not_eq_true'] at halone
     refine h.go hc hs 0 id call.torn rfl (modify_id 0 r.scopes).symm (.inr rfl) tends_id
      h.queue hstay hkeep (by rw [hplace]; rfl) (fun _ => ⟨halone.2, halone.1⟩)
      (by simp [NestedPlace.isQueued])
      (by simp [NestedPlace.permitted]) (fun hin => absurd hin hout)
      (fun _ => by rw [hplace]; rfl) (by simp [NestedPlace.inner])
      fun j child _ _ hchild => ⟨by simp [NestedPlace.isClosing],
       fun hh => ?_⟩
     simpa [hplace, NestedPlace.guarded] using hchild.2 hh
    next hnot =>
     refine h.go hc hs 0 id call.torn rfl (modify_id 0 r.scopes).symm (.inr rfl) tends_id
      h.queue hstay hkeep (by rw [hplace]; rfl)
      (by simp [NestedPlace.asking])
      (by simp [NestedPlace.isQueued])
      (fun _ hm hh => absurd (show (!scope.holdsQueue && mustRunAlone pipeline call) = true by
       rw [hm, hh]; rfl) hnot) (fun hin => absurd hin hout)
      (fun _ => by rw [hplace]; rfl) (by simp [NestedPlace.inner])
      fun j child _ _ hchild => ⟨by simp [NestedPlace.isClosing],
       fun hh => ?_⟩
     simpa [hplace, NestedPlace.guarded] using hchild.2 hh
  · exact h.stay hc hs rfl rfl rfl (by rw [hplace]; rfl) (by rw [hplace]; rfl) rfl
     (by rw [hplace]; rfl) (by simp [NestedPlace.early]) rfl rfl rfl
     fun ht => ht
 | contending =>
  have hout : ¬ r.queue.In c := fun hin => by
   have := (hok.inQueue hin).1
   rw [hplace] at this
   exact absurd this (by simp [NestedPlace.isQueued, NestedPlace.permitted,
    NestedPlace.isTorn])
  have hasks := hok.asks (by rw [hplace]; rfl)
  simp only [NestedRunner.proceedFrom, hplace]
  split
  · exact h.stay hc hs rfl rfl rfl (by rw [hplace]; rfl) (by rw [hplace]; rfl) rfl
     (by rw [hplace]; rfl) (by simp [NestedPlace.early]) rfl rfl rfl
     fun ht => ht
  cases hfree : r.queue.holder with
  | none =>
   simp only [isNone_none, if_true]
   refine h.go hc hs 0 id call.torn rfl (modify_id 0 r.scopes).symm (.inr rfl)
    tends_id (h.queue.lock hout) (fun d hd => ?_) (fun d _ hd => ?_) (by rw [hplace]; rfl)
    (by simp [NestedPlace.asking])
    (by simp [NestedPlace.isQueued])
    (fun _ _ _ => lock_free hfree) (fun _ => ⟨rfl, hasks⟩)
    (fun _ => by rw [hplace]; rfl) (by simp [NestedPlace.inner])
    fun j child _ _ hchild => ⟨by simp [NestedPlace.isClosing],
     fun hh => ?_⟩
   · exact in_lock.trans (or_iff_left hd)
   · exact holder_lock hd
   · simpa [hplace, NestedPlace.guarded] using hchild.2 hh
  | some holder =>
   simp only [isNone_some, Bool.false_eq_true, if_false]
   refine h.go hc hs 0 id call.torn rfl (modify_id 0 r.scopes).symm (.inr rfl)
    tends_id (h.queue.lock hout) (fun d hd => ?_) (fun d _ hd => ?_) (by rw [hplace]; rfl)
    (fun _ => hasks) (fun _ => in_lock.mpr (.inr rfl))
    (by simp [NestedPlace.permitted]) (fun _ => ⟨rfl, hasks⟩)
    (fun _ => by rw [hplace]; rfl) (by simp [NestedPlace.inner])
    fun j child _ _ hchild => ⟨by simp [NestedPlace.isClosing],
     fun hh => ?_⟩
   · exact in_lock.trans (or_iff_left hd)
   · exact holder_lock hd
   · simpa [hplace, NestedPlace.guarded] using hchild.2 hh
 | queued =>
  have hasks := hok.asks (by rw [hplace]; rfl)
  simp only [NestedRunner.proceedFrom, hplace]
  split
  · exact h.quit hc hs rfl rfl rfl (by rw [hplace]; rfl) rfl (by rw [hplace]; rfl) rfl rfl rfl
     rfl fun ht => ht
  split
  next hholder =>
   refine h.go hc hs 0 id call.torn rfl (modify_id 0 r.scopes).symm (.inr rfl) tends_id
    h.queue hstay hkeep (by rw [hplace]; rfl)
    (by simp [NestedPlace.asking])
    (by simp [NestedPlace.isQueued]) (fun _ _ _ => hholder)
    (fun _ => ⟨rfl, hasks⟩) (fun _ => by rw [hplace]; rfl)
    (by simp [NestedPlace.inner])
    fun j child _ _ hchild => ⟨by simp [NestedPlace.isClosing],
     fun hh => ?_⟩
   simpa [hplace, NestedPlace.guarded] using hchild.2 hh
  · exact h
 | ready =>
  simp only [NestedRunner.proceedFrom, hplace]
  split
  · exact h.quit hc hs rfl rfl rfl (by rw [hplace]; rfl) rfl (by rw [hplace]; rfl) rfl rfl rfl
     rfl fun ht => ht
  · exact h.prepare hc hs hplace
 | preparing =>
  have hinner := hok.inner (by rw [hplace]; rfl)
  have hk := child_eq_some hinner
  simp only [NestedRunner.proceedFrom, hplace]
  split
  · exact h.quit hc hs rfl rfl rfl (by rw [hplace]; rfl) rfl (by rw [hplace]; rfl) rfl rfl rfl
     rfl fun ht => ht
  · exact h.go hc hs _ (fun scope => { scope with handed := true }) call.torn rfl rfl (.inl hk)
     (fun _ => ⟨rfl, rfl, rfl, fun _ => rfl, id⟩) h.queue hstay hkeep (by rw [hplace]; rfl)
     (by simp [NestedPlace.asking])
     (by simp [NestedPlace.isQueued])
     (fun _ => hok.has (by rw [hplace]; rfl)) (fun hin => ⟨rfl, (hok.inQueue hin).2⟩)
     (by simp [NestedPlace.early]) (fun _ => by rw [hplace]; rfl)
     fun _ _ _ _ _ => ⟨by simp [NestedPlace.isClosing],
      fun _ => .inr (.inl rfl)⟩
 | executing =>
  have hinner := hok.inner (by rw [hplace]; rfl)
  have hk := child_eq_some hinner
  simp only [NestedRunner.proceedFrom, hplace]
  exact h.go hc hs _ (fun scope => { scope with closed := true, closing := true }) call.torn rfl
   rfl (.inl hk) (fun _ => ⟨rfl, rfl, rfl, id, fun _ => rfl⟩) h.queue hstay hkeep
   (by rw [hplace]; rfl) (by simp [NestedPlace.asking])
   (by simp [NestedPlace.isQueued])
   (fun _ => hok.has (by rw [hplace]; rfl)) (fun hin => ⟨rfl, (hok.inQueue hin).2⟩)
   (by simp [NestedPlace.early]) (fun _ => by rw [hplace]; rfl)
   fun _ _ _ _ _ => ⟨fun _ => rfl, fun _ => .inr (.inl rfl)⟩
 | closing =>
  have hinner := hok.inner (by rw [hplace]; rfl)
  have hk := child_eq_some hinner
  simp only [NestedRunner.proceedFrom, hplace]
  split
  · exact h
  rename_i child hchild
  split
  next hdrained =>
   refine h.go hc hs _ (fun scope => { scope with aborted := true }) call.torn rfl rfl (.inl hk)
    (fun _ => ⟨rfl, rfl, rfl, id, id⟩) h.queue hstay hkeep (by rw [hplace]; rfl)
    (by simp [NestedPlace.asking])
    (by simp [NestedPlace.isQueued])
    (fun _ => hok.has (by rw [hplace]; rfl)) (fun hin => ⟨rfl, (hok.inQueue hin).2⟩)
    (by simp [NestedPlace.early]) (fun _ => by rw [hplace]; rfl)
    fun j child' hj hchild' hold => ⟨by simp [NestedPlace.isClosing],
     fun _ => .inr (.inr ⟨hold.1 (by rw [hplace]; rfl), ?_⟩)⟩
   rw [hj, bind_some, hchild', some.injEq] at hchild
   exact hchild ▸ hdrained
  · exact h
 | finalizing | torn panic =>
  simp only [NestedRunner.proceedFrom, hplace]
  exact h.quit hc hs rfl rfl rfl (by rw [hplace]; rfl) rfl (by rw [hplace]; rfl) rfl rfl rfl
   rfl fun ht => ht
 | recording outcome =>
  simp only [NestedRunner.proceedFrom, hplace]
  split
  · exact h
  · exact h.stay hc hs rfl rfl rfl (by rw [hplace]; rfl) (by rw [hplace]; rfl) rfl
     (by rw [hplace]; rfl) (by simp [NestedPlace.early]) rfl rfl rfl
     fun ht => ht
 | ending outcome =>
  simp only [NestedRunner.proceedFrom, hplace]
  exact h.stay hc hs rfl rfl rfl (by rw [hplace]; rfl) (by rw [hplace]; rfl) rfl
   (by rw [hplace]; rfl) (by simp [NestedPlace.early]) rfl rfl rfl
   fun ht => ht
 | leaving =>
  simp only [NestedRunner.proceedFrom, hplace]
  exact h.end_ hc hs hplace _
 | gone =>
  simp only [NestedRunner.proceedFrom, hplace]
  exact h

theorem Sound.tear (h : Sound pipeline r) (c : Nat) (panic : Option String) :
 Sound pipeline (r.tear c panic) := by
 unfold NestedRunner.tear
 split
 · exact h
 rename_i call hc
 split
 · exact h
 rename_i scope hs
 split
 swap
 · exact h
 rename_i hmay
 obtain ⟨scope₀, hs₀, hok⟩ := h.calls c call hc
 obtain rfl : scope = scope₀ := some.inj (hs.symm.trans hs₀)
 have hgone : (NestedPlace.torn panic).isGone = call.place.isGone := by
  revert hmay
  cases call.place <;> simp [NestedPlace.task, NestedPlace.isGone]
 have hin : r.queue.In c → mustRunAlone pipeline call = true ∧ scope.holdsQueue = false :=
  fun hin => (hok.inQueue hin).2
 have hgo : ∀ (r' : NestedRunner) k f, r'.calls = r.calls.set c { call with place := .torn panic, torn := true } →
  r'.queue = r.queue → r'.scopes = r.scopes.modify k f → (call.child = some k ∨ f = id) →
  Tends f → Sound pipeline r' := by
  intro r' k f hcalls hqueue hscopes hk hf
  exact h.go hc hs k f true hcalls hscopes hk hf (hqueue ▸ h.queue) (fun _ _ => by rw [hqueue])
   (fun _ _ hd => by rw [hqueue]; exact hd) hgone
   (by simp [NestedPlace.asking])
   (by simp [NestedPlace.isQueued])
   (by simp [NestedPlace.permitted])
   (fun hq => ⟨rfl, hin (by rwa [hqueue] at hq)⟩)
   (by simp [NestedPlace.early])
   (by simp [NestedPlace.inner])
   fun _ _ _ _ _ => ⟨by simp [NestedPlace.isClosing], fun _ => .inl rfl⟩
 split
 next hguarded =>
  have hinner : call.place.inner = true := by
   revert hguarded
   cases call.place <;> simp [NestedPlace.guarded, NestedPlace.inner]
  exact hgo _ _ (fun scope => { scope with aborted := true }) rfl rfl rfl
   (.inl (child_eq_some (hok.inner hinner))) fun _ => ⟨rfl, rfl, rfl, id, id⟩
 · exact hgo _ 0 id rfl rfl (modify_id 0 r.scopes).symm (.inr rfl) tends_id

theorem Sound.settle (h : Sound pipeline r) (i : Nat) : Sound pipeline (r.settle i) := by
 unfold NestedRunner.settle
 split
 · split
   · exact h.tend _ (fun scope => { scope with closed := true, closing := true }) rfl rfl rfl
      (fun _ => ⟨rfl, rfl, rfl, id, fun _ => rfl⟩) fun _ => rfl
   · exact h
 · exact h

theorem set_aborted {scopes : List CallScope} {s : Nat} (h : scopes[s]? = some scope) :
 scopes.set s { scope with aborted := true }
  = scopes.modify s fun scope => { scope with aborted := true } := by
 rw [modify_eq_set_getElem?, h]
 rfl

section

variable (h : Sound pipeline r)

include h

theorem Sound.closeReturned (i : Nat) :
 Sound pipeline (r.closeReturned i) := by
 unfold NestedRunner.closeReturned
 split
 swap
 · exact h
 split
 swap
 · exact h
 rename_i scope hscope
 split
 · exact h.tend _ (fun scope => { scope with aborted := true }) rfl rfl (set_aborted hscope)
    (fun _ => ⟨rfl, rfl, rfl, id, id⟩) fun _ => rfl
 · exact h

theorem Sound.takeSummary (i : Nat) : Sound pipeline (r.takeSummary i) := by
 unfold NestedRunner.takeSummary
 split
 · split
   · exact h.tend 0 id rfl rfl (modify_id 0 r.scopes).symm tends_id fun _ => rfl
   · exact h
 · exact h

theorem Sound.drop (i : Nat) : Sound pipeline (r.drop i) := by
 unfold NestedRunner.drop
 split
 · split
   · exact h.tend _ (fun scope => { scope with aborted := true }) rfl rfl rfl
      (fun _ => ⟨rfl, rfl, rfl, id, id⟩) fun _ => rfl
   · exact h
 · exact h

theorem Sound.proceed (c : Nat) (answer : NestedAnswer) :
 Sound pipeline (r.proceed pipeline c answer) := by
 unfold NestedRunner.proceed
 split
 · exact h
 rename_i call hc
 split
 · exact h
 rename_i scope hs
 exact h.proceedFrom hc hs answer

end

theorem sound_empty : Sound pipeline empty where
 queue := sound_free
 known := fun c hc => absurd hc (by simp [FairLock.In, free, empty])
 calls := fun c call hc => absurd hc (by simp [empty])
 scopes := fun s scope hs => absurd hs (by simp [empty])

/-- **What may happen to the calls of a batch keeps what holds.** -/
theorem Sound.step (h : Sound pipeline r) (input : NestedInput) :
 Sound pipeline (step pipeline r input) := by
 cases input with
 | issue callerId => exact h.issue callerId
 | start s name args =>
  rw [NestedRunner.step]
  cases hs : r.start pipeline s name args with
  | none => exact h
  | some r' => exact h.start hs
 | proceed c answer => exact h.proceed c answer
 | tear c panic => exact h.tear c panic
 | settle i => exact h.settle i
 | closeReturned i => exact h.closeReturned i
 | takeSummary i => exact h.takeSummary i
 | drop i => exact h.drop i

theorem Reachable.sound (h : Reachable pipeline r) : Sound pipeline r :=
 h.invariant (Sound pipeline) (fun _ hr => by rw [hr]; exact sound_empty) fun _ input hr _ => hr.step input

end NestedRunner

end Bake.Agent
