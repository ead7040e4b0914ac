import Bake.Mcp.Callers

/-!
# What a connection promises

What holds in every run of the callers and the driver: whose answer is whose, what is written
and in which order, the bounds, and how every request ends with the connection. And what
becomes of a request whose cancellation is queued before a pass: it is never written, unless
the server answers a request that is still in the queue. Such an answer takes the request out
of the map, and its cancellation, which looks there first, leaves it in the queue.
-/

open List

namespace Bake.Mcp

open Connection (acquire begin command deliver drain event finish flush notifying sending)
open Outgoing

variable {V : Type}

/-- A request that has no answer yet. -/
def Place.awaits : Place V → Bool
 | acquire _ | sending _ | waiting _ => true
 | _ => false

/-- The identity of a caller's request. -/
def Place.id? : Place V → Option Nat
 | acquire r | sending r | waiting r => some r.id
 | dropping r _ _ | cancelling r _ _ | releasing r _ => some r.id
 | returned id _ => some id
 | _ => none

/-- The answer a caller goes away with. -/
def Place.answer? : Place V → Option (Answer V)
 | releasing _ answer | returned _ answer => some answer
 | _ => none

abbrev Config (V : Type) := Interleave.Config (Connection V) (Place V)

/-- What is next. -/
abbrev Input (V : Type) := Interleave.Input (Place V) Choice (Signal V)

namespace Connection

/-- A waiting request can only fail with the reason the connection closed, unless the server
answered it before. -/
def Fails (o : Options) (c : Connection V) (t : Nat) (p : Place V) (reason : CloseReason) : Prop :=
 c.next o t p .timeout = none ∧ ∃ p' answer, c.next o t p .go = some (c, p')
  ∧ p'.answer? = some answer ∧ (answer = .error (.closed reason)
   ∨ answer.fromServer ∧ ∃ id, p.id? = some id ∧ (id, answer) ∈ c.delivered)

end Connection

structure Promises (o : Options) (c : Config V) : Prop where
 /-- An answer of the server is what a message says that carries the request's id. -/
 carried : ∀ id answer, (id, answer) ∈ c.shared.delivered → answer.fromServer →
  ∃ f ∈ c.shared.received, ∃ method, c.shared.Made id method ∧ f.Answers id method answer
 returned : ∀ (t id : Nat) answer, c.tasks[t]? = some (.returned id answer) →
  (∃ call, c.shared.requests id = some (call, t))
   ∧ (answer.fromServer → (id, answer) ∈ c.shared.delivered)
 once : (c.shared.delivered.map Prod.fst).Nodup
 /-- A request is written once, and its cancellation once, behind it. -/
 written : c.shared.wireIds.Nodup
 noticed : (c.shared.wire.filterMap notice?).Nodup
 ordered : ∀ (i : Nat) message, c.shared.wire[i]? = some message → ∀ id, message.notice? = some id →
   id ∈ (c.shared.wire.take i).filterMap request?
 cancellable : ∀ id ∈ c.shared.wire.filterMap notice?,
  ∃ method, c.shared.Made id method ∧ method ≠ .initializeConnection
 pending : c.shared.pending.length ≤ o.maxPendingRequests
 queue : c.shared.driver.rank = 0 →
  c.shared.queue.length ≤ o.maxQueuedMessages + o.maxPendingRequests
 cancelled : c.shared.cancelled.length ≤ o.maxPendingRequests
 failed : ∀ reason, c.shared.driver = .done reason → c.shared.close = some reason
  ∧ ∀ (t : Nat) p, c.tasks[t]? = some p → p.awaits → c.shared.Fails o t p reason

/-- A request whose cancellation is queued before a pass, and that is not written yet, is never
written. -/
def Withdrawn (o : Options) (guard : Config V → Input V → Prop) (c : Config V) : Prop :=
 c.shared.driver = .top → ∀ id ∈ c.shared.cancelIds, id ∉ c.shared.wireIds →
  ∀ c', Run.Reach (· = c) (client o).step guard c' → id ∉ c'.shared.wireIds

def Kept (o : Options) (guard : Config V → Input V → Prop) : Prop :=
 ∀ c, Run.Reach (fun c => c.shared = started o ∧ c.tasks = []) (client o).step guard c →
  Promises o c ∧ Withdrawn o guard c

/-- No response is read that carries the id of a request still in the queue. -/
def Heeds (o : Options) (c : Config V) (i : Input V) : Prop :=
 ∀ f number outcome, i = .act (.receive (.frame f)) → c.shared.driver = .select →
  c.shared.room o → f.size ≤ o.maxMessageBytes → f.blank = false →
  f.parsed = .ok (.response (.number number) outcome) → number ∉ c.shared.queuedIds

/-! ## The promises -/

namespace Connection

variable {o : Options} {c c' : Connection V} {id t : Nat}

theorem sound_started : Sound o (started o : Connection V) where
 fresh _ _ := rfl
 trail_made _ h := absurd h (by simp [trail, commandIds, messageIds, started])
 held_made _ h := absurd h (by simp [started])
 replies_made _ h := absurd rfl h
 permits := rfl
 holders := nodup_nil
 trail := nodup_nil
 keys := nodup_nil
 carried _ h := absurd h (by simp [Connection.keys, started])
 permitted _ h := absurd h (by simp [Connection.keys, started])
 commands_held _ h := absurd h (by simp [commandIds, started])
 unanswered _ _ := .inl rfl
 withdrawn _ h := absurd h (by simp [cancelIds, started])
 unlost _ := nofun
 pending _ _ h := absurd h (by simp [started])
 commands _ _ _ h := absurd h (by simp [started])
 sent _ _ h := absurd h (by simp [started])
 settled _ h := absurd h (by simp [started])
 once := nodup_nil
 genuine _ h := absurd h (by simp [started])
 noticed := nodup_nil
 notices _ h := absurd h (by simp [noticeIds, started])
 ordered _ _ h := absurd h (by simp [started])
 cancelled := Nat.zero_le _
 queue _ := Nat.zero_le _
 staged := ⟨rfl, rfl, rfl, nofun, nofun, rfl⟩

namespace Sound

variable (h : Sound o c)

include h

/-- Once the driver is done, a request that waits fails with its reason. -/
theorem fails {p : Place V} (hp : c.Stands t p) (ha : p.awaits) {reason : CloseReason}
 (hd : c.driver = .done reason) : c.Fails o t p reason := by
 have hs := h.staged
 rw [hd] at hs
 have hclose : c.close = some reason := hs.close
 have herror : c.closedError = .error (.closed reason) := by rw [closedError, hclose]; rfl
 cases p with
 | acquire r =>
  have hc : c.permitsClosed = true := hs.permitsClosed
  refine ⟨if_pos hc, _, c.closedError, if_pos hc, rfl, .inl herror⟩
 | sending r =>
  have hc : c.commandsClosed = true := hs.commandsClosed
  refine ⟨if_pos hc, _, c.closedError, if_pos hc, rfl, .inl herror⟩
 | waiting r =>
  obtain ⟨hr, hh, hopen, hw⟩ := hp
  cases hslot : c.replies r.id with
  | waiting =>
   have hcommands : c.commands = [] := hs.commandsDrained (show 5 ≤ 9 by decide)
   have hpending : c.pending = [] := hs.pendingDrained (show 6 ≤ 9 by decide)
   have hin := hw hslot
   rw [commandIds, hcommands, Connection.keys, hpending] at hin
   simp at hin
  | sent answer =>
   have hsent := h.sent _ _ hslot
   refine ⟨by simp only [Connection.next, Connection.waiting, hslot], .releasing r answer,
    answer, by simp only [Connection.next, Connection.waiting, hslot], rfl, ?_⟩
   rcases h.genuine _ hsent with ⟨reason', hc, he⟩ | ⟨f, -, method, -, outcome, -, he⟩
   · refine .inl (he.trans ?_)
     rw [Option.some.inj (hc.symm.trans hclose)]
   · refine .inr ⟨?_, r.id, rfl, hsent⟩
     rw [show answer = _ from he]
     cases outcome <;> rfl
  | closed => exact absurd hslot hopen
  | lost => exact absurd hslot (h.unlost r.id)
 | _ => simp [Place.awaits] at ha

end Sound

end Connection

open Connection in
theorem promises_of_holds {o : Options} {c : Config V}
 (h : Interleave.Program.Holds (Sound o) Stands c) : Promises o c := by
 obtain ⟨hs, hp⟩ := h
 have hnotices : ∀ id ∈ c.shared.wire.filterMap notice?, id ∈ c.shared.noticeIds := by
  intro id hid
  rw [noticeIds, filterMap_append]
  exact mem_append_right _ hid
 exact {
  carried := fun id answer hd hf => by
   rcases hs.genuine _ hd with ⟨reason, -, he⟩ | hg
   · rw [show answer = _ from he] at hf
     simp [Answer.fromServer] at hf
   · exact hg
  returned := fun t id answer ht => by
   obtain ⟨ha, r, rfl, size, hr⟩ := hp t _ ht
   exact ⟨⟨_, hr⟩, ha.delivered⟩
  once := hs.once
  written := by
   have := hs.trail
   rw [Connection.trail, messageIds_eq] at this
   exact (nodup_append.mp (nodup_append.mp this).2.1).2.1
  noticed := by
   have := hs.noticed
   rw [noticeIds, filterMap_append] at this
   exact (nodup_append.mp this).2.1
  ordered := hs.ordered
  cancellable := fun id hid => (hs.notices id (hnotices id hid)).2.2
  pending := by
   have := hs.keys_le
   rwa [Connection.keys, OrdMap.keys, length_map] at this
  queue := fun hz => (hs.queue hz).length_le
  cancelled := hs.cancelled
  failed := fun reason hd => by
   refine ⟨?_, fun t p ht ha => hs.fails (hp t p ht) ha hd⟩
   have := hs.staged.close
   rw [hd] at this
   exact this }

/-! ## Withdrawn requests -/

namespace Connection

variable {o : Options} {c c' : Connection V} {id t : Nat}

/-- While the driver serves, nobody was answered whose request is in the queue. -/
def Queued (c : Connection V) : Prop := c.driver.rank = 0 → ∀ id ∈ c.queuedIds, id ∈ c.keys

/-- A request that will not be written: its cancellation is in the pass at hand, or behind it
nobody waits for the request and it is not in the queue, or the driver finishes. -/
structure Doomed (c : Connection V) (id : Nat) : Prop where
 wire : id ∉ c.wireIds
 why : c.driver.rank ≠ 0 ∨ (c.replies id = .closed ∧ id ∉ c.queuedIds)
  ∨ (c.driver = .top ∧ id ∈ c.cancelIds)
  ∨ ∃ left, c.driver = .pass left ∧ id ∈ c.cancelIds.take left

/-- What a caller's step does to what the driver owns: nothing. -/
structure Apart (c c' : Connection V) : Prop where
 driver : c'.driver = c.driver
 queue : c'.queue = c.queue
 pending : c'.pending = c.pending
 wire : c'.wire = c.wire
 cancels : c.cancels <+: c'.cancels
 closed : ∀ id, c.replies id = .closed → c'.replies id = .closed

theorem Apart.refl : Apart c c := ⟨rfl, rfl, rfl, rfl, prefix_rfl, fun _ h => h⟩

theorem apart_dropReceiver : Apart c (c.dropReceiver id) := by
 refine ⟨rfl, rfl, rfl, rfl, prefix_rfl, fun x hx => ?_⟩
 by_cases he : x = id
 · exact he ▸ Function.update_self ..
 · exact (Function.update_of_ne he _ _).trans hx

theorem Apart.some {d : Connection V} {p p' : Place V} (h : Apart c d)
 (hn : Option.some (d, p) = .some (c', p')) : Apart c c' := by
 obtain ⟨rfl, -⟩ := Prod.mk.inj (Option.some.inj hn)
 exact h

theorem apart_timeout {f : Nat → Place V} {timeout : Option Nat} {p' : Place V}
 (hn : (timeout.map fun after => (c, f after)) = some (c', p')) : Apart c c' := by
 obtain ⟨after, -, he⟩ := Option.map_eq_some_iff.mp hn
 obtain ⟨rfl, -⟩ := Prod.mk.inj he
 exact Apart.refl

theorem apart_next {p p' : Place V} {choice : Choice}
 (hn : c.next o t p choice = some (c', p')) : Apart c c' := by
 cases p with
 | entry call =>
  have hb : Apart c (c.begin o t call).1 := by
   unfold begin
   split <;> exact { (Apart.refl : Apart c c) with }
  cases choice with
  | go => exact hb.some hn
  | timeout => simp [Connection.next] at hn
  | drop => exact Apart.refl.some hn
 | acquire r =>
  cases choice with
  | go =>
   simp only [Connection.next, acquire] at hn
   split at hn
   · exact Apart.refl.some hn
   split at hn
   · simp at hn
   · refine Apart.some ?_ hn
     exact { (Apart.refl : Apart c c) with }
  | timeout =>
   simp only [Connection.next, acquire] at hn
   split at hn
   · simp at hn
   · exact apart_timeout hn
  | drop => exact Apart.refl.some hn
 | sending r =>
  cases choice with
  | go =>
   simp only [Connection.next, sending] at hn
   split at hn
   · exact Apart.refl.some hn
   split at hn
   · refine Apart.some ?_ hn
     exact { (Apart.refl : Apart c c) with }
   · simp at hn
  | timeout =>
   simp only [Connection.next, sending] at hn
   split at hn
   · simp at hn
   · exact apart_timeout hn
  | drop => exact Apart.refl.some hn
 | waiting r =>
  cases choice with
  | go =>
   simp only [Connection.next, Connection.waiting] at hn
   split at hn
   · simp at hn
   · exact Apart.refl.some hn
   · exact Apart.refl.some hn
  | timeout =>
   simp only [Connection.next, Connection.waiting] at hn
   split at hn
   · exact apart_timeout hn
   · simp at hn
  | drop => exact Apart.refl.some hn
 | dropping r reason answer => exact apart_dropReceiver.some hn
 | cancelling r reason answer =>
  refine Apart.some ?_ hn
  unfold Connection.sendCancel
  split
  · exact { (Apart.refl : Apart c c) with }
  · exact { (Apart.refl : Apart c c) with cancels := prefix_append _ _ }
 | releasing r answer =>
  refine Apart.some ?_ hn
  exact { (apart_dropReceiver : Apart c (c.dropReceiver r.id)) with }
 | notifying =>
  cases choice with
  | go =>
   simp only [Connection.next, notifying] at hn
   split at hn
   · exact Apart.refl.some hn
   split at hn
   · refine Apart.some ?_ hn
     exact { (Apart.refl : Apart c c) with }
   · simp at hn
  | timeout => simp [Connection.next, notifying] at hn
  | drop => exact Apart.refl.some hn
 | _ => simp [Connection.next] at hn

theorem Apart.queued (h : Apart c c') (hq : c.Queued) : c'.Queued := by
 intro hz id hid
 rw [Connection.keys, h.pending]
 rw [queuedIds, h.queue] at hid
 exact hq (h.driver ▸ hz) id hid

theorem Apart.doomed (h : Apart c c') (hd : c.Doomed id) : c'.Doomed id := by
 have hcancels : c.cancelIds <+: c'.cancelIds := h.cancels.map Cancel.id
 refine ⟨by rw [wireIds, h.wire]; exact hd.wire, ?_⟩
 rw [h.driver]
 rcases hd.why with hz | ⟨hc, hq⟩ | ⟨ht, hin⟩ | ⟨left, hp, hin⟩
 · exact .inl hz
 · exact .inr (.inl ⟨h.closed id hc, by rw [queuedIds, h.queue]; exact hq⟩)
 · exact .inr (.inr (.inl ⟨ht, hcancels.subset hin⟩))
 · exact .inr (.inr (.inr ⟨left, hp, (hcancels.take left).subset hin⟩))

/-! ### The driver's steps -/

theorem wire_deliver (n : Nat) (answer : Answer V) : (c.deliver n answer).wire = c.wire := by
 unfold deliver
 split <;> rfl

theorem wire_flush (reason : CloseReason) : ∀ id ∈ (c.flush reason).wireIds, id ∈ c.wireIds := by
 unfold flush
 split
 · exact fun _ h => h
 · exact fun _ h => h
 split
 · exact fun _ h => h
 · exact fun _ h => h
 next message rest hno hq =>
  intro id hid
  have hid' : id ∈ (c.wire ++ [message]).filterMap request? := hid
  rw [filterMap_append, mem_append] at hid'
  refine hid'.resolve_right fun hm => ?_
  obtain ⟨m, hm, hr⟩ := mem_filterMap.mp hm
  rw [mem_singleton.mp hm] at hr
  cases message with
  | request n => exact hno n rfl
  | _ => simp [request?] at hr

theorem rank_flush (hz : c.driver.rank ≠ 0) (reason : CloseReason) :
 (c.flush reason).driver.rank ≠ 0 := by
 unfold flush
 split
 · exact hz
 · exact (by decide : (9 : Nat) ≠ 0)
 split
 · exact (by decide : (9 : Nat) ≠ 0)
 · exact hz
 · exact hz

theorem finish_done {stage : Stage} {reason : CloseReason} (hz : c.driver.rank ≠ 0) :
 (c.finish reason stage).driver.rank ≠ 0
  ∧ ∀ id ∈ (c.finish reason stage).wireIds, id ∈ c.wireIds := by
 cases stage with
 | record => exact ⟨(by decide : (2 : Nat) ≠ 0), fun _ h => h⟩
 | closePermits => exact ⟨(by decide : (3 : Nat) ≠ 0), fun _ h => h⟩
 | closeCommands => exact ⟨(by decide : (4 : Nat) ≠ 0), fun _ h => h⟩
 | drainCommands =>
  simp only [finish]
  split
  · exact ⟨(by decide : (5 : Nat) ≠ 0), fun _ h => h⟩
  · rw [Sound.driver_deliver, wireIds, wire_deliver]
    exact ⟨hz, fun _ h => h⟩
  · exact ⟨hz, fun _ h => h⟩
 | drainPending =>
  simp only [finish]
  split
  · exact ⟨(by decide : (6 : Nat) ≠ 0), fun _ h => h⟩
  · exact ⟨hz, fun _ h => h⟩
 | closeCancels => exact ⟨(by decide : (7 : Nat) ≠ 0), fun _ h => h⟩
 | drainCancels =>
  simp only [finish]
  split
  · exact ⟨(by decide : (8 : Nat) ≠ 0), fun _ h => h⟩
  · exact ⟨hz, fun _ h => h⟩
 | flush => exact ⟨rank_flush hz reason, wire_flush reason⟩

/-- Behind `serve` the driver does not come back, and writes no request. -/
theorem finishing_act (hz : c.driver.rank ≠ 0) (signal : Signal V) :
 (c.act o signal).driver.rank ≠ 0 ∧ ∀ id ∈ (c.act o signal).wireIds, id ∈ c.wireIds := by
 have hsame : c.driver.rank ≠ 0 ∧ ∀ id ∈ c.wireIds, id ∈ c.wireIds := ⟨hz, fun _ h => h⟩
 have hselect : c.driver ≠ .select := fun he => hz (he ▸ rfl)
 cases signal with
 | proceed =>
  simp only [Connection.act, Connection.proceed]
  cases hd : c.driver with
  | top | pass left => exact absurd (hd ▸ rfl) hz
  | select => exact absurd hd hselect
  | finishing stage reason => exact finish_done hz
  | done reason => exact hsame
 | stop | command | receive received =>
  rw [Connection.act, if_neg fun h => hselect h.1]
  exact hsame
 | wrote error =>
  simp only [Connection.act, Connection.wrote]
  split
  next hd =>
   exact absurd hd hselect
  · split
    · exact hsame
    · exact ⟨(by decide : (9 : Nat) ≠ 0), fun _ h => h⟩
  · exact hsame
 | cancel =>
  rw [Connection.act, if_neg hselect]
  exact hsame
 | drain index =>
  simp only [Connection.act]
  split
  · unfold drain
    split
    · exact hsame
    · rw [Sound.driver_deliver, wireIds, wire_deliver]
      exact hsame
  · exact hsame
 | deadline =>
  simp only [Connection.act]
  split
  · exact ⟨(by decide : (9 : Nat) ≠ 0), fun _ h => h⟩
  · exact hsame
 | _ => exact hsame

theorem not_mem_withdrawn {queue : List Outgoing}
 (h : (queue.filterMap request?).Nodup) : id ∉ (queue.eraseP fun message =>
  message.request? = some id).filterMap request? := by
 induction queue with
 | nil => simp
 | cons m rest ih =>
  by_cases hm : m.request? = some id
  · rw [filterMap_cons_some hm, nodup_cons] at h
    rw [eraseP_cons_of_pos (by simpa using hm)]
    exact h.1
  · rw [eraseP_cons_of_neg (by simpa using hm)]
    cases hr : m.request? with
    | none =>
     rw [filterMap_cons_none hr] at h ⊢
     exact ih h
    | some n =>
     rw [filterMap_cons_some hr, nodup_cons] at h
     rw [filterMap_cons_some hr, mem_cons, not_or]
     exact ⟨fun he => hm (he ▸ hr), ih h.2⟩

/-- What a message leaves: the queue's requests and the map. -/
structure Same (c c' : Connection V) : Prop where
 queued : c'.queuedIds = c.queuedIds
 pending : c'.pending = c.pending

theorem same_event (e : ClientEvent V) : Same c (c.event o e) := by
 unfold event
 split
 · exact ⟨rfl, rfl⟩
 split <;> exact ⟨rfl, rfl⟩

theorem same_deliver (n : Nat) (answer : Answer V) : Same c (c.deliver n answer) := by
 unfold deliver
 split <;> exact ⟨rfl, rfl⟩

theorem Same.keys (h : Same c c') (hq : ∀ id ∈ c.queuedIds, id ∈ c.keys) :
 ∀ id ∈ c'.queuedIds, id ∈ c'.keys := by
 rw [h.queued, Connection.keys, h.pending]
 exact hq

theorem keys_response {rid : ResponseId} {outcome : Outcome V} {bytes : Nat}
 (hq : ∀ id ∈ c.queuedIds, id ∈ c.keys)
 (hn : ∀ number, rid = .number number → number ∉ c.queuedIds) :
 ∀ id ∈ (c.response o rid outcome bytes).queuedIds, id ∈ (c.response o rid outcome bytes).keys := by
 unfold Connection.response
 split
 · exact (same_event _).keys hq
 rename_i number hnumber
 have hrid : rid = .number number := by
  cases rid with
  | number n => exact congrArg _ (Option.some.inj hnumber)
  | other text => simp [ResponseId.asU64] at hnumber
 split
 · refine (same_deliver _ _).keys fun x hx => ?_
   refine OrdMap.mem_keys_erase.mpr ⟨hq x hx, ?_⟩
   rintro rfl
   exact hn x hrid hx
 split
 · exact hq
 · exact (same_event _).keys hq

theorem keys_incoming {f : Frame V} (hq : ∀ id ∈ c.queuedIds, id ∈ c.keys)
 (hn : ∀ number outcome, f.parsed = .ok (.response (.number number) outcome) →
  number ∉ c.queuedIds) :
 ∀ id ∈ (c.incoming o f).queuedIds, id ∈ (c.incoming o f).keys := by
 unfold Connection.incoming
 split
 · exact (same_event _).keys hq
 next rid outcome hp =>
  refine keys_response hq fun number he => ?_
  subst he
  exact hn number outcome hp
 · exact (same_event _).keys hq
 · unfold serverRequest
   intro x hx
   refine hq x ?_
   split at hx <;> simpa [queuedIds, request?] using hx
 · unfold notification
   split
   · exact hq
   split
   · exact hq
   · exact (same_event _).keys hq

theorem keys_takeCommand (hq : ∀ id ∈ c.queuedIds, id ∈ c.keys) :
 ∀ id ∈ c.takeCommand.queuedIds, id ∈ c.takeCommand.keys := by
 unfold Connection.takeCommand
 split
 · exact hq
 rename_i first rest hc
 cases first with
 | request n method cancellable =>
  by_cases hopen : (c.replies n).isClosed
  · rw [show command { c with commands := rest } (.request n method cancellable)
     = { c with commands := rest } from if_pos hopen]
    exact hq
  rw [show command { c with commands := rest } (.request n method cancellable) = { c with
       commands := rest
       pending := OrdMap.insert c.pending n { method, cancellable }
       queue := c.queue ++ [.request n] } from if_neg hopen]
  intro x hx
  have hx' : x ∈ c.queuedIds ∨ x = n := by
   simpa [queuedIds, request?] using hx
  refine OrdMap.mem_keys.mpr ?_
  rw [OrdMap.get?_insert]
  split
  · rfl
  next hne =>
   exact OrdMap.mem_keys.mp (hq x (hx'.resolve_right fun he => hne he.symm))
 | notify =>
  intro x hx
  exact hq x (by simpa [command, queuedIds, request?] using hx)

theorem keys_startWrite (hq : ∀ id ∈ c.queuedIds, id ∈ c.keys) :
 ∀ id ∈ c.startWrite.queuedIds, id ∈ c.startWrite.keys := by
 unfold Connection.startWrite
 split
 next message rest _ hqueue =>
  intro x hx
  refine hq x ?_
  rw [queuedIds, hqueue]
  exact ((sublist_cons_self message rest).filterMap _).subset hx
 · exact hq

namespace Sound

variable (h : Sound o c)

include h

theorem queued_nodup : c.queuedIds.Nodup := by
 have := h.trail
 rw [Connection.trail, messageIds_eq] at this
 exact (nodup_append.mp (nodup_append.mp this).2.1).1

/-- What was cancelled is in the queue no more, when the queue has nothing that is not in the
map. -/
theorem queued_takeCancel {first : Cancel} {rest : List Cancel}
 (hc : c.cancels = first :: rest) (hq : ∀ id ∈ c.queuedIds, id ∈ c.keys) :
 (∀ id ∈ (c.takeCancel o first rest).queuedIds,
  id ∈ (c.takeCancel o first rest).keys ∧ id ≠ first.id) := by
 have herase : ∀ x ∈ c.queuedIds, x ≠ first.id →
  x ∈ OrdMap.keys (OrdMap.erase c.pending first.id) := fun x hx hne =>
  OrdMap.mem_keys_erase.mpr ⟨hq x hx, hne⟩
 rcases @takeCancel_cases _ o _ _ rest (h.first_closed hc) with
  ⟨hk, heq⟩ | ⟨hin, heq⟩ | ⟨entry, -, hn, heq⟩ <;> rw [heq] <;> intro x hx
 · exact ⟨hq x hx, fun he => hk (he ▸ hq x hx)⟩
 · have hsub : (c.queue.eraseP fun message => message.request? = some first.id).Sublist c.queue :=
    eraseP_sublist
   have hx' := (hsub.filterMap request?).subset hx
   have hne : x ≠ first.id := by
    rintro rfl
    exact not_mem_withdrawn h.queued_nodup hx
   exact ⟨herase x hx' hne, hne⟩
 · have hx' : x ∈ c.queuedIds := by
    by_cases hcan : entry.cancellable
    · simpa [queuedIds, hcan, request?] using hx
    · simpa [queuedIds, hcan] using hx
   have hne : x ≠ first.id := fun he => hn (he ▸ hx')
   exact ⟨herase x hx' hne, hne⟩

theorem queued_act (hq : c.Queued) {signal : Signal V}
 (hh : ∀ f number outcome, signal = .receive (.frame f) → c.driver = .select → c.room o →
  f.size ≤ o.maxMessageBytes → f.blank = false →
  f.parsed = .ok (.response (.number number) outcome) → number ∉ c.queuedIds) :
 (c.act o signal).Queued := by
 intro hz
 have hz' : c.driver.rank = 0 := Classical.not_not.mp fun hn => (finishing_act hn signal).1 hz
 have hq := hq hz'
 cases signal with
 | proceed =>
  simp only [Connection.act, Connection.proceed] at hz ⊢
  cases hd : c.driver with
  | top =>
   dsimp only
   split <;> exact hq
  | pass left =>
   cases left with
   | zero => exact keys_startWrite hq
   | succ left =>
    dsimp only
    split
    · exact keys_startWrite hq
    next hc =>
     exact fun id hid => (h.queued_takeCancel hc hq id hid).1
  | select => exact hq
  | finishing stage reason =>
   rw [hd] at hz'
   cases stage <;> simp [DriverPlace.rank] at hz'
  | done reason =>
   rw [hd] at hz'
   simp [DriverPlace.rank] at hz'
 | stop | deadline =>
  simp only [Connection.act]
  split <;> exact hq
 | wrote error =>
  simp only [Connection.act, Connection.wrote]
  split
  · split <;> exact hq
  · split <;> exact hq
  · exact hq
 | command =>
  simp only [Connection.act]
  split
  · exact keys_takeCommand hq
  · exact hq
 | receive received =>
  simp only [Connection.act]
  split
  next hd =>
   cases received with
   | frame f =>
    simp only [Connection.receive]
    split
    · exact hq
    rename_i hsize
    split
    · exact hq
    next hblank =>
     exact keys_incoming hq fun number outcome hp => hh f number outcome rfl hd.1 hd.2
      (Nat.le_of_not_lt hsize) (Bool.eq_false_iff.mpr hblank) hp
   | endOfStream | failed error => exact hq
  · exact hq
 | cancel =>
  simp only [Connection.act]
  split
  · split
    · exact hq
    next hc =>
     exact fun id hid => (h.queued_takeCancel hc hq id hid).1
  · exact hq
 | drain index =>
  simp only [Connection.act]
  split
  next hd =>
   rw [hd] at hz'
   simp [DriverPlace.rank] at hz'
  · exact hq
 | _ => exact hq

theorem doomed_takeCancel {first : Cancel} {rest : List Cancel}
 (hc : c.cancels = first :: rest) (hq : ∀ id ∈ c.queuedIds, id ∈ c.keys) :
 (c.takeCancel o first rest).replies = c.replies ∧ (c.takeCancel o first rest).wire = c.wire
  ∧ (c.takeCancel o first rest).cancels = rest
  ∧ first.id ∉ (c.takeCancel o first rest).queuedIds := by
 refine ⟨?_, ?_, ?_, fun hid => (h.queued_takeCancel hc hq _ hid).2 rfl⟩ <;>
  rcases @takeCancel_cases _ o _ _ rest (h.first_closed hc) with
   ⟨-, heq⟩ | ⟨-, heq⟩ | ⟨entry, -, -, heq⟩ <;> rw [heq]

omit h in
/-- A step of the driver at the top of the loop or in the pass: its own, or none. -/
theorem act_outside (ht : c.driver = .top ∨ ∃ left, c.driver = .pass left) {signal : Signal V}
 (hp : signal ≠ .proceed) : (c.act o signal).driver = c.driver
  ∧ (c.act o signal).cancels = c.cancels ∧ (c.act o signal).wire = c.wire := by
 have hselect : c.driver ≠ .select := by
  rcases ht with ht | ⟨left, ht⟩ <;> rw [ht] <;> simp
 have hfinish : ∀ stage reason, c.driver ≠ .finishing stage reason := by
  rcases ht with ht | ⟨left, ht⟩ <;> rw [ht] <;> simp
 cases signal with
 | proceed => exact absurd rfl hp
 | stop | command | receive received =>
  rw [Connection.act, if_neg fun h => hselect h.1]
  exact ⟨rfl, rfl, rfl⟩
 | wrote error =>
  simp only [Connection.act, Connection.wrote]
  split
  next hd =>
   exact absurd hd hselect
  next hd =>
   exact absurd hd (hfinish _ _)
  · exact ⟨rfl, rfl, rfl⟩
 | cancel =>
  rw [Connection.act, if_neg hselect]
  exact ⟨rfl, rfl, rfl⟩
 | drain index | deadline =>
  simp only [Connection.act]
  split
  next hd =>
   exact absurd hd (hfinish _ _)
  · exact ⟨rfl, rfl, rfl⟩
 | _ => exact ⟨rfl, rfl, rfl⟩

/-- **A request that is doomed stays so.** -/
theorem doomed_act (hq : c.Queued) (hd : c.Doomed id) (signal : Signal V) :
 (c.act o signal).Doomed id := by
 have hl := @leaves_act _ _ _ id h signal
 rcases hd.why with hz | ⟨hclosed, hn⟩ | hpass
 · obtain ⟨hz', hwire⟩ := @finishing_act _ o _ hz signal
   exact ⟨fun hw => hd.wire (hwire id hw), .inl hz'⟩
 · refine ⟨fun hw => (hl.wire hw).elim hd.wire hn, .inr (.inl ⟨hl.closed_iff.mpr hclosed,
    fun hw => ?_⟩)⟩
   rcases hl.queued hw with hw | ⟨-, hopen⟩
   · exact hn hw
   · exact hopen hclosed
 -- the driver is at the top of the loop or in the pass that takes the cancellation
 have hplace : c.driver = .top ∨ ∃ left, c.driver = .pass left :=
  hpass.imp And.left fun ⟨left, hp, _⟩ => ⟨left, hp⟩
 by_cases hp : signal = .proceed
 swap
 · obtain ⟨hdriver, hcancels, hwire⟩ := @act_outside _ o _ hplace _ hp
   refine ⟨by rw [wireIds, hwire]; exact hd.wire, .inr (.inr ?_)⟩
   rw [hdriver, cancelIds, hcancels]
   exact hpass
 subst hp
 rcases hpass with ⟨htop, hin⟩ | ⟨left, hleft, hin⟩
 · simp only [Connection.act, Connection.proceed, htop]
   split
   · exact ⟨hd.wire, .inl (by decide : (1 : Nat) ≠ 0)⟩
   · refine ⟨hd.wire, .inr (.inr (.inr ⟨o.maxPendingRequests, rfl, ?_⟩))⟩
     have hlen : c.cancelIds.length ≤ o.maxPendingRequests := by
      have := h.permits
      rw [cancelIds, length_map]
      omega
     show id ∈ c.cancelIds.take o.maxPendingRequests
     rw [take_of_length_le hlen]
     exact hin
 have hz : c.driver.rank = 0 := by rw [hleft]; rfl
 cases left with
 | zero => simp at hin
 | succ left =>
  cases hc : c.cancels with
  | nil => simp [cancelIds, hc] at hin
  | cons first rest =>
   obtain ⟨hreplies, hwire, hcancels, hn⟩ := h.doomed_takeCancel hc (hq hz)
   simp only [Connection.act, Connection.proceed, hleft, hc]
   have hw : id ∉ (c.takeCancel o first rest).wireIds := by
    rw [wireIds, hwire]
    exact hd.wire
   rw [cancelIds, hc, map_cons, take_succ_cons, mem_cons] at hin
   rcases hin with rfl | hin
   · refine ⟨hw, .inr (.inl ⟨?_, hn⟩)⟩
     show (c.takeCancel o first rest).replies first.id = .closed
     rw [hreplies]
     exact h.first_closed hc
   · refine ⟨hw, .inr (.inr (.inr ⟨left, rfl, ?_⟩))⟩
     show id ∈ (c.takeCancel o first rest).cancelIds.take left
     rw [cancelIds, hcancels]
     exact hin

end Sound

end Connection

/-! ## Runs -/

open Connection in
/-- What holds in a run that heeds: the invariant, and what the queue has is in the map. -/
structure Holds (o : Options) (c : Config V) : Prop where
 kept : Interleave.Program.Holds (Sound o) Stands c
 queued : c.shared.Queued

open Connection in
theorem Holds.step {o : Options} {c : Config V} (h : Holds o c) {i : Input V}
 (hi : Heeds o c i) : Holds o ((client o).step c i) := by
 refine ⟨(keeps o).step h.kept i, ?_⟩
 cases i with
 | spawn place =>
  simp only [Interleave.Program.step]
  split <;> exact h.queued
 | run t choice =>
  simp only [Interleave.Program.step]
  split
  · exact h.queued
  split
  · exact h.queued
  next hn =>
   exact (apart_next hn).queued h.queued
 | act signal =>
  exact h.kept.1.queued_act h.queued fun f number outcome he => hi f number outcome (congrArg _ he)

open Connection in
theorem Holds.doomed {o : Options} {c : Config V} (h : Holds o c) {id : Nat}
 (hd : c.shared.Doomed id) (i : Input V) : ((client o).step c i).shared.Doomed id := by
 cases i with
 | spawn place =>
  simp only [Interleave.Program.step]
  split <;> exact hd
 | run t choice =>
  simp only [Interleave.Program.step]
  split
  · exact hd
  split
  · exact hd
  next hn =>
   exact (apart_next hn).doomed hd
 | act signal => exact h.kept.1.doomed_act h.queued hd signal

/-- **The request protocol** is kept in every run in which no response is read that carries the
id of a request still in the queue. -/
theorem kept_of_heeds (o : Options) : Kept o (Heeds o : Config V → Input V → Prop) := by
 intro c hreach
 have hholds : Holds o c := by
  refine hreach.invariant (Holds o) (fun c hc => ?_) fun c i h hi => h.step hi
  refine ⟨⟨hc.1 ▸ Connection.sound_started, fun t p ht => ?_⟩, fun _ id hid => ?_⟩
  · rw [hc.2] at ht
    simp at ht
  · rw [hc.1] at hid
    simp [Connection.queuedIds, started] at hid
 refine ⟨promises_of_holds hholds.kept, fun htop id hin hw c' hafter => ?_⟩
 have hall : Holds o c' ∧ c'.shared.Doomed id := by
  refine hafter.invariant (fun d => Holds o d ∧ d.shared.Doomed id) (fun d hd => ?_)
   fun d i h hi => ⟨h.1.step hi, h.1.doomed h.2 i⟩
  subst hd
  exact ⟨hholds, hw, .inr (.inr (.inl ⟨htop, hin⟩))⟩
 exact hall.2.wire

/-- One request at a time, and two messages in the queue. -/
def narrow : Options where
 maxMessageBytes := 64
 maxPendingRequests := 1
 maxQueuedMessages := 2
 maxEvents := 1
 requestTimeout := none
 message_pos := by decide
 pending_pos := by decide
 queued_pos := by decide
 events_pos := by decide

/-- A notification is being written and a request waits behind it; the server answers the
request, and its caller goes away without the answer. -/
def answeredEarly : List (Input Unit) := [.spawn .notifying, .run 0 .go,
  .spawn (.entry { method := .toolsCall, size := 1 }), .run 1 .go, .run 1 .go,
  .act .proceed, .act .proceed, .act .command, .run 1 .go,
  .act .proceed, .act .proceed, .act .command, .act .proceed, .act .proceed,
  .act (.receive (.frame
   { size := 1, blank := false, parsed := .ok (.response (.number 1) (.result ())) })),
  .run 1 .drop, .run 1 .go, .run 1 .go]

def writtenLate : List (Input Unit) :=
 [.act .proceed, .act .proceed, .act .proceed, .act (.wrote none), .act .proceed, .act .proceed]

/-- **A withdrawn request is written** when the server answered it before. -/
theorem not_kept : ¬ Kept narrow (fun _ _ => True : Config Unit → Input Unit → Prop) := by
 intro h
 have hinit : Run.Reach (fun c : Config Unit => c.shared = started narrow ∧ c.tasks = [])
  (client narrow).step (fun _ _ => True) { shared := started narrow, tasks := [] } :=
  .init ⟨rfl, rfl⟩
 have hwithdrawn := (h _ (hinit.final_free (fun _ _ => trivial) answeredEarly)).2
  (by decide) 1 (by decide) (by decide)
 have hself : Run.Reach (· = Run.final (client narrow).step
  { shared := started narrow, tasks := [] } answeredEarly) (client narrow).step
  (fun _ _ => True) (Run.final (client narrow).step
  { shared := started narrow, tasks := [] } answeredEarly) := .init rfl
 exact hwithdrawn _ (hself.final_free (fun _ _ => trivial) writtenLate) (by decide)

end Bake.Mcp
