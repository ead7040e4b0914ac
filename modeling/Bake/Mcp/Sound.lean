import Bake.Mcp.Client
import Mathlib.Data.Finset.Option

/-!
# What a connection keeps

The invariant of `Core` and `Driver`. A request is on the command channel, in the queue or on
the wire, and only once; what is in the map waits for an answer, holds a permit or left it to
its cancellation, and is in the queue or on the wire. The permits bound the map, and with the
map the notices that go past the queue's threshold.
-/

open List
open OrdMap (get?)

namespace Bake.Mcp

variable {V : Type}

/-- How far `finish` is. -/
def DriverPlace.rank : DriverPlace → Nat
 | top | pass _ | select => 0
 | finishing .record _ => 1
 | finishing .closePermits _ => 2
 | finishing .closeCommands _ => 3
 | finishing .drainCommands _ => 4
 | finishing .drainPending _ => 5
 | finishing .closeCancels _ => 6
 | finishing .drainCancels _ => 7
 | finishing .flush _ => 8
 | done _ => 9

/-- Why `serve` returned. -/
def DriverPlace.reason? : DriverPlace → Option CloseReason
 | top | pass _ | select => none
 | finishing _ reason => some reason
 | done reason => some reason

theorem reason?_of_rank {d : DriverPlace} (h : d.rank = 0) : d.reason? = none := by
 cases d with
 | finishing stage reason => cases stage <;> simp [DriverPlace.rank] at h
 | done reason => simp [DriverPlace.rank] at h
 | _ => rfl

namespace Connection

variable (c : Connection V)

def messageIds : List Nat := (c.queue ++ c.wire).filterMap Outgoing.request?

/-- The requests that left their caller. -/
def trail : List Nat := c.commandIds ++ c.messageIds

def keys : List Nat := OrdMap.keys c.pending

def Made (id : Nat) (method : Method) : Prop := ∃ size t, c.requests id = some ({ method, size }, t)

end Connection

/-- What a message of the server answers a request with. -/
def Frame.Answers (f : Frame V) (id : Nat) (method : Method) (answer : Answer V) : Prop :=
 ∃ outcome, f.parsed = .ok (.response (.number id) outcome)
  ∧ answer = Connection.reply method outcome f.size

namespace Connection

/-- An answer is the reason the connection closed, or what a message says that carries the
request's id. -/
def Genuine (c : Connection V) (id : Nat) (answer : Answer V) : Prop :=
 (∃ reason, c.close = some reason ∧ answer = .error (.closed reason))
  ∨ ∃ f ∈ c.received, ∃ method, c.Made id method ∧ f.Answers id method answer

/-- Every request in the map that left the queue may still queue a notice. -/
def Bounded (o : Options) (c : Connection V) : Prop :=
 c.queue.length + (c.keys.toFinset \ c.queuedIds.toFinset).card
  ≤ o.maxQueuedMessages + o.maxPendingRequests

/-- What is closed and drained, as far as `finish` is. -/
structure Staged (driver : DriverPlace) (recorded : Option CloseReason)
 (permits commands cancels : Bool) (queued : List Command) (map : List (Nat × Pending)) :
 Prop where
 close : recorded = if 2 ≤ driver.rank then driver.reason? else none
 permitsClosed : permits = decide (3 ≤ driver.rank)
 commandsClosed : commands = decide (4 ≤ driver.rank)
 commandsDrained : 5 ≤ driver.rank → queued = []
 pendingDrained : 6 ≤ driver.rank → map = []
 cancelsClosed : cancels = decide (7 ≤ driver.rank)

/-- The invariant. -/
structure Sound (o : Options) (c : Connection V) : Prop where
 fresh : ∀ id, c.nextId ≤ id → c.requests id = none
 trail_made : ∀ id ∈ c.trail, c.requests id ≠ none
 held_made : ∀ id ∈ c.held, c.requests id ≠ none
 replies_made : ∀ id, c.replies id ≠ .waiting → c.requests id ≠ none
 permits : c.free + c.held.length + c.cancels.length = o.maxPendingRequests
 holders : (c.held ++ c.cancelIds).Nodup
 trail : c.trail.Nodup
 keys : c.keys.Nodup
 carried : ∀ id ∈ c.keys, id ∈ c.messageIds
 permitted : ∀ id ∈ c.keys, id ∈ c.held ++ c.cancelIds
 commands_held : ∀ id ∈ c.commandIds, c.replies id ≠ .closed → id ∈ c.held
 unanswered : ∀ id, id ∈ c.keys ∨ id ∈ c.commandIds →
  c.replies id = .waiting ∨ c.replies id = .closed
 withdrawn : ∀ id ∈ c.cancelIds, c.replies id = .closed
 unlost : ∀ id, c.replies id ≠ .lost
 pending : ∀ id entry, get? c.pending id = some entry →
  c.Made id entry.method ∧ entry.cancellable = entry.method.cancellable
 commands : ∀ id method cancellable, .request id method cancellable ∈ c.commands →
  c.Made id method ∧ cancellable = method.cancellable
 sent : ∀ id answer, c.replies id = .sent answer → (id, answer) ∈ c.delivered
 settled : ∀ d ∈ c.delivered, c.replies d.1 ≠ .waiting
 once : (c.delivered.map Prod.fst).Nodup
 genuine : ∀ d ∈ c.delivered, c.Genuine d.1 d.2
 noticed : c.noticeIds.Nodup
 notices : ∀ id ∈ c.noticeIds, id ∈ c.wireIds ∧ id ∉ c.keys
  ∧ ∃ method, c.Made id method ∧ method ≠ .initializeConnection
 ordered : ∀ (i : Nat) message, c.wire[i]? = some message → ∀ id, message.notice? = some id →
  id ∈ (c.wire.take i).filterMap Outgoing.request?
 cancelled : c.cancelled.length ≤ o.maxPendingRequests
 queue : c.driver.rank = 0 → c.Bounded o
 staged : Staged c.driver c.close c.permitsClosed c.commandsClosed c.cancelsClosed c.commands
  c.pending

variable {o : Options} {c : Connection V}

/-! ## The bounds -/

theorem length_keys (hkeys : c.keys.Nodup) (hp : ∀ id ∈ c.keys, id ∈ c.held ++ c.cancelIds)
 (hpermits : c.free + c.held.length + c.cancels.length = o.maxPendingRequests) :
 c.keys.length ≤ o.maxPendingRequests := by
 have hle := (subperm_of_subset hkeys hp).length_le
 rw [length_append, cancelIds, length_map] at hle
 omega

theorem bounded_of_length (hkeys : c.keys.length ≤ o.maxPendingRequests)
 (hq : c.queue.length ≤ o.maxQueuedMessages) : c.Bounded o := by
 have hcard : (c.keys.toFinset \ c.queuedIds.toFinset).card ≤ c.keys.length :=
  (Finset.card_le_card Finset.sdiff_subset).trans c.keys.toFinset_card_le
 unfold Bounded
 omega

theorem Bounded.length_le (h : c.Bounded o) :
 c.queue.length ≤ o.maxQueuedMessages + o.maxPendingRequests := by
 unfold Bounded at h
 omega

theorem messageIds_eq : c.messageIds = c.queuedIds ++ c.wireIds := filterMap_append

namespace Sound

variable (h : Sound o c)

include h

theorem keys_le : c.keys.length ≤ o.maxPendingRequests := length_keys h.keys h.permitted h.permits

theorem not_command {id : Nat} (hid : id ∈ c.keys) : id ∉ c.commandIds :=
 fun hc => (nodup_append.mp h.trail).2.2 id hc id (h.carried id hid) rfl

theorem not_cancelled {id : Nat} (hid : id ∈ c.held) : id ∉ c.cancelIds :=
 fun hc => (nodup_append.mp h.holders).2.2 id hid id hc rfl

/-! ## Steps of the driver's own -/

theorem drive {d : DriverPlace} (hr : d.rank = c.driver.rank) (hd : d.reason? = c.driver.reason?) :
 Sound o { c with driver := d } :=
 { h with
   queue := fun hz => h.queue (hr ▸ hz)
   staged := {
    close := by simpa only [hr, hd] using h.staged.close
    permitsClosed := by simpa only [hr] using h.staged.permitsClosed
    commandsClosed := by simpa only [hr] using h.staged.commandsClosed
    commandsDrained := fun hn => h.staged.commandsDrained (hr ▸ hn)
    pendingDrained := fun hn => h.staged.pendingDrained (hr ▸ hn)
    cancelsClosed := by simpa only [hr] using h.staged.cancelsClosed } }

theorem serve (hc : c.driver.rank = 0) {d : DriverPlace} (hd : d.rank = 0) :
 Sound o { c with driver := d } :=
 h.drive (hd.trans hc.symm) ((reason?_of_rank hd).trans (reason?_of_rank hc).symm)

theorem closing (hc : c.driver.rank = 0) (reason : CloseReason) : Sound o (c.closing reason) :=
 { h with
   queue := fun hz => absurd hz (by decide : (1 : Nat) ≠ 0)
   staged := {
    close := show c.close = none by simpa [hc] using h.staged.close
    permitsClosed := show c.permitsClosed = false by simpa [hc] using h.staged.permitsClosed
    commandsClosed := show c.commandsClosed = false by simpa [hc] using h.staged.commandsClosed
    commandsDrained := fun hn => absurd hn (by decide : ¬ 5 ≤ 1)
    pendingDrained := fun hn => absurd hn (by decide : ¬ 6 ≤ 1)
    cancelsClosed := show c.cancelsClosed = false by simpa [hc] using h.staged.cancelsClosed } }

theorem event (e : ClientEvent V) : Sound o (c.event o e) := by
 unfold Connection.event
 split
 · exact h
 split
 · exact { h with }
 · exact { h with }

end Sound

/-! ## The queue -/

theorem written_perm {β : Type} (f : Outgoing → Option β) (message : Outgoing)
 (rest wire : List Outgoing) :
 ((rest ++ (wire ++ [message])).filterMap f).Perm ((message :: rest ++ wire).filterMap f) := by
 refine List.Perm.filterMap f ?_
 rw [← append_assoc, cons_append]
 exact perm_append_singleton message (rest ++ wire)

theorem card_left (c : Connection V) (message : Outgoing) (rest : List Outgoing) :
 (c.keys.toFinset \ (rest.filterMap Outgoing.request?).toFinset).card
  ≤ 1 + (c.keys.toFinset \ ((message :: rest).filterMap Outgoing.request?).toFinset).card := by
 have hsub : c.keys.toFinset \ (rest.filterMap Outgoing.request?).toFinset
  ⊆ message.request?.toFinset
   ∪ (c.keys.toFinset \ ((message :: rest).filterMap Outgoing.request?).toFinset) := by
  intro id hid
  simp only [Finset.mem_sdiff, mem_toFinset, Finset.mem_union, Option.mem_toFinset] at hid ⊢
  by_cases hm : message.request? = some id
  · exact .inl hm
  · refine .inr ⟨hid.1, fun hin => ?_⟩
    obtain ⟨m, hmem, hsome⟩ := mem_filterMap.mp hin
    rcases mem_cons.mp hmem with rfl | hmem
    · exact hm hsome
    · exact hid.2 (mem_filterMap.mpr ⟨m, hmem, hsome⟩)
 have hle := (Finset.card_le_card hsub).trans (Finset.card_union_le _ _)
 have hone : message.request?.toFinset.card ≤ 1 := by
  cases message.request? <;> simp
 omega

namespace Sound

variable (h : Sound o c)

include h

variable {message : Outgoing} {id : Nat} {first : Cancel} {rest : List Cancel}

theorem push (hr : message.request? = none) (hn : message.notice? = none)
 (hroom : c.driver.rank = 0 → c.queue.length < o.maxQueuedMessages) :
 Sound o { c with queue := c.queue ++ [message] } := by
 have hids : (c.queue ++ [message] ++ c.wire).filterMap Outgoing.request? = c.messageIds := by
  simp [messageIds, hr]
 have hnotices : (c.queue ++ [message] ++ c.wire).filterMap Outgoing.notice? = c.noticeIds := by
  simp [noticeIds, hn]
 exact { h with
  trail_made := by rw [Connection.trail, messageIds, hids]; exact h.trail_made
  trail := by rw [Connection.trail, messageIds, hids]; exact h.trail
  carried := by rw [messageIds, hids]; exact h.carried
  noticed := by rw [noticeIds, hnotices]; exact h.noticed
  notices := by rw [noticeIds, hnotices]; exact h.notices
  queue := fun hz => bounded_of_length h.keys_le (by
   have := hroom hz
   simp only [length_append, length_singleton]
   omega) }

theorem write {rest : List Outgoing} (hq : c.queue = message :: rest) :
 Sound o { c with queue := rest, writing := some message, wire := c.wire ++ [message] } := by
 have hids : ((rest ++ (c.wire ++ [message])).filterMap Outgoing.request?).Perm c.messageIds := by
  rw [messageIds, hq]
  exact written_perm _ message rest c.wire
 have hnotices : ((rest ++ (c.wire ++ [message])).filterMap Outgoing.notice?).Perm
  c.noticeIds := by
  rw [noticeIds, hq]
  exact written_perm _ message rest c.wire
 have htrail := hids.append_left c.commandIds
 have hwire : ∀ id ∈ c.wireIds, id ∈ (c.wire ++ [message]).filterMap Outgoing.request? :=
  fun id hid => by
   rw [filterMap_append]
   exact mem_append_left _ hid
 exact { h with
  trail_made := fun id hid => h.trail_made id (htrail.mem_iff.mp hid)
  trail := htrail.nodup_iff.mpr h.trail
  carried := fun id hid => hids.mem_iff.mpr (h.carried id hid)
  noticed := hnotices.nodup_iff.mpr h.noticed
  notices := fun id hid => by
   obtain ⟨hw, hk, hm⟩ := h.notices id (hnotices.mem_iff.mp hid)
   exact ⟨hwire id hw, hk, hm⟩
  ordered := fun i m hm id hid => by
   rcases Nat.lt_trichotomy i c.wire.length with hi | hi | hi
   · rw [getElem?_append_left hi] at hm
     rw [take_append_of_le_length (Nat.le_of_lt hi)]
     exact h.ordered i m hm id hid
   · subst hi
     rw [getElem?_concat_length, Option.some.injEq] at hm
     subst hm
     rw [take_left']
     · refine (h.notices id ?_).1
       rw [noticeIds, hq, cons_append, filterMap_cons_some hid]
       exact mem_cons_self
     · rfl
   · rw [getElem?_eq_none (by simp; omega)] at hm
     simp at hm
  queue := fun hz => by
   have hb := h.queue hz
   have hle := c.card_left message rest
   unfold Bounded at hb ⊢
   rw [queuedIds, hq, length_cons] at hb
   show rest.length + (c.keys.toFinset \ (rest.filterMap Outgoing.request?).toFinset).card ≤ _
   omega }

/-! ## Commands -/

theorem dropCommand {first : Command} {rest : List Command} (hc : c.commands = first :: rest) :
 Sound o { c with commands := rest } := by
 have hsub : (rest.filterMap Command.request?).Sublist c.commandIds := by
  rw [commandIds, hc]
  exact (sublist_cons_self first rest).filterMap _
 have htrail := hsub.append_right c.messageIds
 exact { h with
  trail_made := fun id hid => h.trail_made id (htrail.subset hid)
  trail := h.trail.sublist htrail
  commands_held := fun id hid => h.commands_held id (hsub.subset hid)
  unanswered := fun id hid => h.unanswered id (hid.imp_right fun hm => hsub.subset hm)
  commands := fun id m b hm => h.commands id m b (hc ▸ mem_cons_of_mem first hm)
  staged := { h.staged with
   commandsDrained := fun hn => absurd (h.staged.commandsDrained hn) (by simp [hc]) } }

theorem accept {method : Method} {cancellable : Bool} {rest : List Command}
 (hc : c.commands = .request id method cancellable :: rest) (hopen : c.replies id ≠ .closed)
 (hz : c.driver.rank = 0) (hroom : c.queue.length < o.maxQueuedMessages) :
 Sound o { c with
  commands := rest
  pending := OrdMap.insert c.pending id { method, cancellable }
  queue := c.queue ++ [.request id] } := by
 have hd := h.dropCommand hc
 have hin : id ∈ c.commandIds := by
  rw [commandIds, hc]
  exact mem_cons_self
 have hmsg : id ∉ c.messageIds := fun hm => (nodup_append.mp h.trail).2.2 id hin id hm rfl
 have hnew : id ∉ c.keys := fun hk => hmsg (h.carried id hk)
 have hkeys : ∀ x, x ∈ OrdMap.keys (OrdMap.insert c.pending id { method, cancellable })
  ↔ x ∈ c.keys ∨ x = id := by
  intro x
  rw [OrdMap.insert_of_not_mem hnew, OrdMap.keys_append, mem_append]
  exact or_congr_right mem_singleton
 have hq : (c.queue ++ [Outgoing.request id] ++ c.wire).filterMap Outgoing.request?
  = c.queuedIds ++ id :: c.wireIds := by
  simp [queuedIds, wireIds, Outgoing.request?]
 have hperm : (rest.filterMap Command.request?
  ++ (c.queue ++ [Outgoing.request id] ++ c.wire).filterMap Outgoing.request?).Perm
  c.trail := by
  have hcons : c.trail = id :: (rest.filterMap Command.request? ++ c.messageIds) := by
   rw [Connection.trail, commandIds, hc]
   rfl
  rw [hcons, messageIds_eq, hq, ← append_assoc, ← append_assoc]
  exact perm_middle
 have hcarried : ∀ x, x ∈ c.messageIds ∨ x = id →
  x ∈ (c.queue ++ [Outgoing.request id] ++ c.wire).filterMap Outgoing.request? := by
  intro x hx
  rw [hq, mem_append, mem_cons]
  rw [messageIds_eq, mem_append] at hx
  tauto
 have hnodup : (OrdMap.keys (OrdMap.insert c.pending id { method, cancellable })).Nodup :=
  OrdMap.nodup_insert h.keys id _
 have hpermitted : ∀ x, x ∈ c.keys ∨ x = id → x ∈ c.held ++ c.cancelIds := by
  rintro x (hx | rfl)
  · exact h.permitted x hx
  · exact mem_append_left _ (h.commands_held x hin hopen)
 obtain ⟨hmade, hcan⟩ := h.commands id method cancellable (by rw [hc]; exact mem_cons_self)
 have hwritten : ∀ x ∈ c.noticeIds, x ≠ id := by
  rintro x hx rfl
  exact hmsg (by rw [messageIds_eq]; exact mem_append_right _ (h.notices x hx).1)
 have hnotices : (c.queue ++ [Outgoing.request id] ++ c.wire).filterMap Outgoing.notice?
  = c.noticeIds := by
  rw [noticeIds, append_assoc, filterMap_append, filterMap_append, filterMap_append]
  rfl
 exact { hd with
  trail_made := fun x hx => h.trail_made x (hperm.mem_iff.mp hx)
  trail := hperm.nodup_iff.mpr h.trail
  keys := hnodup
  carried := fun x hx => hcarried x (((hkeys x).mp hx).imp_left (h.carried x))
  permitted := fun x hx => hpermitted x ((hkeys x).mp hx)
  unanswered := fun x hx => by
   rcases hx with hx | hx
   · rcases (hkeys x).mp hx with hx | rfl
     · exact h.unanswered x (.inl hx)
     · exact h.unanswered x (.inr hin)
   · exact hd.unanswered x (.inr hx)
  pending := fun x entry hx => by
   rw [OrdMap.get?_insert] at hx
   split at hx
   next he =>
    subst he
    rw [← Option.some.inj hx]
    exact ⟨hmade, hcan⟩
   · exact h.pending x entry hx
  noticed := by rw [noticeIds, hnotices]; exact h.noticed
  notices := fun x hx => by
   rw [noticeIds, hnotices] at hx
   obtain ⟨hw, hk, hm⟩ := h.notices x hx
   exact ⟨hw, fun hx' => ((hkeys x).mp hx').elim hk (hwritten x hx), hm⟩
  queue := fun _ => bounded_of_length
   (length_keys hnodup (fun x hx => hpermitted x ((hkeys x).mp hx)) h.permits) (by
    simp only [length_append, length_singleton]
    omega)
  staged := { hd.staged with
   pendingDrained := fun hn => absurd (show 6 ≤ c.driver.rank from hn) (by omega) } }

/-! ## Cancellations -/

theorem forget (id : Nat) : Sound o { c with pending := OrdMap.erase c.pending id } := by
 have hsub : ∀ x ∈ OrdMap.keys (OrdMap.erase c.pending id), x ∈ c.keys :=
  fun x hx => (OrdMap.mem_keys_erase.mp hx).1
 exact { h with
  keys := OrdMap.nodup_erase h.keys id
  carried := fun x hx => h.carried x (hsub x hx)
  permitted := fun x hx => h.permitted x (hsub x hx)
  unanswered := fun x hx => h.unanswered x (hx.imp_left (hsub x))
  pending := fun x entry hx => by
   rw [OrdMap.get?_erase] at hx
   split at hx
   · simp at hx
   · exact h.pending x entry hx
  notices := fun x hx => by
   obtain ⟨hw, hk, hm⟩ := h.notices x hx
   exact ⟨hw, fun hx' => hk (hsub x hx'), hm⟩
  queue := fun hz => by
   have hb := h.queue hz
   have hle : ((OrdMap.keys (OrdMap.erase c.pending id)).toFinset \ c.queuedIds.toFinset).card
    ≤ (c.keys.toFinset \ c.queuedIds.toFinset).card := by
    refine Finset.card_le_card (Finset.sdiff_subset_sdiff (fun x hx => ?_) subset_rfl)
    exact mem_toFinset.mpr (hsub x (mem_toFinset.mp hx))
   unfold Bounded at hb ⊢
   exact (Nat.add_le_add_left hle _).trans hb
  staged := { h.staged with
   pendingDrained := fun hn => by rw [h.staged.pendingDrained hn]; rfl } }

theorem withdraw (hk : id ∉ c.keys) :
 Sound o { c with queue := c.queue.eraseP fun message => message.request? = some id } := by
 have hsub : (c.queue.eraseP fun message => message.request? = some id).Sublist c.queue :=
  eraseP_sublist
 have hmsg := (hsub.append_right c.wire).filterMap Outgoing.request?
 have htrail := hmsg.append_left c.commandIds
 have hnotices := (hsub.append_right c.wire).filterMap Outgoing.notice?
 have hother : ∀ x ∈ c.queuedIds, x ≠ id →
  x ∈ (c.queue.eraseP fun message => message.request? = some id).filterMap Outgoing.request? := by
  intro x hx hne
  obtain ⟨m, hm, hr⟩ := mem_filterMap.mp hx
  refine mem_filterMap.mpr ⟨m, (mem_eraseP_of_neg ?_).mpr hm, hr⟩
  simpa [hr] using hne
 exact { h with
  trail_made := fun x hx => h.trail_made x (htrail.subset hx)
  trail := h.trail.sublist htrail
  carried := fun x hx => by
   have hin := h.carried x hx
   rw [messageIds_eq, mem_append] at hin ⊢
   exact hin.imp_left fun hin => hother x hin fun he => hk (he ▸ hx)
  noticed := h.noticed.sublist hnotices
  notices := fun x hx => h.notices x (hnotices.subset hx)
  queue := fun hz => by
   have hb := h.queue hz
   have hle : (c.keys.toFinset \ ((c.queue.eraseP fun message =>
    message.request? = some id).filterMap Outgoing.request?).toFinset).card
    ≤ (c.keys.toFinset \ c.queuedIds.toFinset).card := by
    refine Finset.card_le_card fun x hx => ?_
    rw [Finset.mem_sdiff, mem_toFinset, mem_toFinset] at hx ⊢
    exact ⟨hx.1, fun hin => hx.2 (hother x hin fun he => hk (he ▸ hx.1))⟩
   unfold Bounded at hb ⊢
   exact (Nat.add_le_add hsub.length_le hle).trans hb }

/-- The cancellation of a request that was written, behind its entry. -/
theorem notify {entry : Pending} (he : get? c.pending id = some entry)
 (hq : id ∉ c.queuedIds) (reason : String) :
 Sound o { c with
  pending := OrdMap.erase c.pending id
  cancelled := (if c.cancelled.length = o.maxPendingRequests then c.cancelled.tail
   else c.cancelled) ++ [id]
  queue := if entry.cancellable then c.queue ++ [.cancelled id reason] else c.queue } := by
 have hf := h.forget id
 have hin : id ∈ c.keys := OrdMap.mem_keys.mpr (by rw [he]; rfl)
 have hlist : ((if c.cancelled.length = o.maxPendingRequests then c.cancelled.tail
  else c.cancelled) ++ [id]).length ≤ o.maxPendingRequests := by
  have hle := h.cancelled
  have hpos := o.pending_pos
  rw [length_append, length_singleton]
  split
  · rw [length_tail]
    omega
  · omega
 have hcard : ((OrdMap.keys (OrdMap.erase c.pending id)).toFinset \ c.queuedIds.toFinset).card
  < (c.keys.toFinset \ c.queuedIds.toFinset).card := by
  refine Finset.card_lt_card (Finset.ssubset_iff_subset_ne.mpr ⟨?_, fun heq => ?_⟩)
  · refine Finset.sdiff_subset_sdiff (fun x hx => ?_) subset_rfl
    exact mem_toFinset.mpr (OrdMap.mem_keys_erase.mp (mem_toFinset.mp hx)).1
  · have hmem : id ∈ c.keys.toFinset \ c.queuedIds.toFinset := by
     simpa using ⟨hin, hq⟩
    rw [← heq, Finset.mem_sdiff, mem_toFinset] at hmem
    exact (OrdMap.mem_keys_erase.mp hmem.1).2 rfl
 by_cases hc : entry.cancellable
 · rw [if_pos hc]
   have hids : (c.queue ++ [Outgoing.cancelled id reason] ++ c.wire).filterMap Outgoing.request?
    = c.messageIds := by
    rw [messageIds, append_assoc, filterMap_append, filterMap_append,
    filterMap_append]
    rfl
   have hperm : ((c.queue ++ [Outgoing.cancelled id reason] ++ c.wire).filterMap
    Outgoing.notice?).Perm (id :: c.noticeIds) := by
    rw [noticeIds, append_assoc, filterMap_append, filterMap_append,
    filterMap_append]
    exact perm_middle
   have hwire : id ∈ c.wireIds := by
    have := h.carried id hin
    rw [messageIds_eq, mem_append] at this
    exact this.resolve_left hq
   obtain ⟨hmade, hcan⟩ := h.pending id entry he
   have hnot : entry.method ≠ .initializeConnection := by
    intro hm
    rw [hcan, hm] at hc
    exact absurd hc (by decide)
   exact { hf with
    trail_made := by rw [Connection.trail, messageIds, hids]; exact h.trail_made
    trail := by rw [Connection.trail, messageIds, hids]; exact h.trail
    carried := by rw [messageIds, hids]; exact hf.carried
    noticed := hperm.nodup_iff.mpr (nodup_cons.mpr ⟨fun hn => (h.notices id hn).2.1 hin, h.noticed⟩)
    notices := fun x hx => by
     rcases mem_cons.mp (hperm.mem_iff.mp hx) with rfl | hx
     · exact ⟨hwire, fun hx' => (OrdMap.mem_keys_erase.mp hx').2 rfl, _, hmade, hnot⟩
     · exact hf.notices x hx
    cancelled := hlist
    queue := fun hz => by
     have hb := h.queue hz
     have hqueued : (c.queue ++ [Outgoing.cancelled id reason]).filterMap Outgoing.request?
      = c.queuedIds := by
      rw [queuedIds, filterMap_append]
      exact append_nil _
     unfold Bounded at hb ⊢
     rw [queuedIds, hqueued, length_append, length_singleton]
     exact (by omega : ∀ a b b' n : Nat, a + b ≤ n → b' < b → a + 1 + b' ≤ n) _ _ _ _ hb hcard }
 · rw [if_neg hc]
   exact { hf with cancelled := hlist }

omit h in
/-- What a cancellation does whose request nobody waits for: nothing, it withdraws the request
from the queue, or it notes that it was cancelled. -/
theorem takeCancel_cases (hx : c.replies first.id = .closed) :
 (first.id ∉ c.keys ∧ c.takeCancel o first rest = { c with cancels := rest, free := c.free + 1 })
 ∨ (first.id ∈ c.queuedIds ∧ c.takeCancel o first rest =
  { c with
    cancels := rest
    free := c.free + 1
    pending := OrdMap.erase c.pending first.id
    queue := c.queue.eraseP fun message => message.request? = some first.id })
 ∨ ∃ entry, get? c.pending first.id = some entry ∧ first.id ∉ c.queuedIds
  ∧ c.takeCancel o first rest =
   { c with
     cancels := rest
     free := c.free + 1
     pending := OrdMap.erase c.pending first.id
     cancelled := (if c.cancelled.length = o.maxPendingRequests then c.cancelled.tail
      else c.cancelled) ++ [first.id]
     queue := if entry.cancellable then c.queue ++ [.cancelled first.id first.reason]
      else c.queue } := by
 cases he : get? c.pending first.id with
 | none =>
  refine .inl ⟨OrdMap.get?_eq_none.mp he, ?_⟩
  simp only [Connection.takeCancel, Connection.cancel, he]
 | some entry =>
  by_cases hq : first.id ∈ c.queuedIds
  · refine .inr (.inl ⟨hq, ?_⟩)
    rw [queuedIds] at hq
    simp only [Connection.takeCancel, Connection.cancel, he, dropSender, hx, queuedIds, if_pos hq]
  · refine .inr (.inr ⟨entry, rfl, hq, ?_⟩)
    rw [queuedIds] at hq
    simp only [Connection.takeCancel, Connection.cancel, he, dropSender, hx, queuedIds, if_neg hq]

theorem releaseCancel (hc : c.cancels = first :: rest) (hk : first.id ∉ c.keys) :
 Sound o { c with cancels := rest, free := c.free + 1 } :=
 { h with
   permits := by
    have hp := h.permits
    rw [hc, length_cons] at hp
    show c.free + 1 + c.held.length + rest.length = o.maxPendingRequests
    omega
   holders := by
    have hn := h.holders
    rw [cancelIds, hc] at hn
    exact hn.sublist ((sublist_cons_self first.id (rest.map Cancel.id)).append_left c.held)
   permitted := fun id hid => by
    have hin := h.permitted id hid
    rw [cancelIds, hc, map_cons, mem_append, mem_cons] at hin
    rcases hin with hin | rfl | hin
    · exact mem_append_left _ hin
    · exact absurd hid hk
    · exact mem_append_right _ hin
   withdrawn := fun id hid => h.withdrawn id (by
    rw [cancelIds, hc]
    exact mem_cons_of_mem _ hid) }

theorem first_closed (hc : c.cancels = first :: rest) : c.replies first.id = .closed :=
 h.withdrawn first.id (by
  rw [cancelIds, hc]
  exact mem_cons_self)

theorem takeCancel (hc : c.cancels = first :: rest) : Sound o (c.takeCancel o first rest) := by
 have herase : first.id ∉ OrdMap.keys (OrdMap.erase c.pending first.id) :=
  fun hk => (OrdMap.mem_keys_erase.mp hk).2 rfl
 rcases @takeCancel_cases _ o _ _ rest (h.first_closed hc) with
  ⟨hk, heq⟩ | ⟨-, heq⟩ | ⟨entry, he, hq, heq⟩ <;> rw [heq]
 · exact h.releaseCancel hc hk
 · exact ((h.forget first.id).withdraw herase).releaseCancel hc herase
 · exact (h.notify he hq first.reason).releaseCancel hc herase

/-! ## Answers -/

/-- A reply is sent for a request that is neither on the channel nor in the map. -/
theorem deliver {answer : Answer V} (hk : id ∉ c.keys) (hc : id ∉ c.commandIds)
 (hm : c.requests id ≠ none) (hg : c.Genuine id answer) : Sound o (c.deliver id answer) := by
 unfold Connection.deliver
 split
 case h_2 => exact h
 rename_i hw
 have hother : ∀ x, x ≠ id → Function.update c.replies id (.sent answer) x = c.replies x :=
  fun x hx => Function.update_of_ne hx _ _
 have hself : Function.update c.replies id (.sent answer) id = .sent answer :=
  Function.update_self ..
 have hfresh : ∀ d ∈ c.delivered, d.1 ≠ id := fun d hd he => h.settled d hd (he ▸ hw)
 exact { h with
  replies_made := fun x hx => by
   by_cases he : x = id
   · exact he ▸ hm
   · exact h.replies_made x fun hx' => hx ((hother x he).trans hx')
  unanswered := fun x hx => by
   have he : x ≠ id := by
    rintro rfl
    exact hx.elim hk hc
   exact (h.unanswered x hx).imp (hother x he).trans (hother x he).trans
  commands_held := fun x hx hopen => by
   have he : x ≠ id := by
    rintro rfl
    exact hc hx
   exact h.commands_held x hx fun hx' => hopen ((hother x he).trans hx')
  withdrawn := fun x hx => by
   have hcl := h.withdrawn x hx
   have he : x ≠ id := by
    rintro rfl
    exact absurd (hcl.symm.trans hw) (by simp)
   exact (hother x he).trans hcl
  unlost := fun x hx => by
   by_cases he : x = id
   · subst he
     exact absurd (hself.symm.trans hx) (by simp)
   · exact h.unlost x ((hother x he).symm.trans hx)
  sent := fun x a hx => by
   by_cases he : x = id
   · subst he
     rw [← Slot.sent.inj (hself.symm.trans hx)]
     exact mem_append_right _ (mem_singleton_self _)
   · exact mem_append_left _ (h.sent x a ((hother x he).symm.trans hx))
  settled := fun d hd hx => by
   rcases mem_append.mp hd with hd | hd
   · exact h.settled d hd ((hother d.1 (hfresh d hd)).symm.trans hx)
   · rw [mem_singleton.mp hd] at hx
     exact absurd (hself.symm.trans hx) (by simp)
  once := by
   rw [map_append]
   refine nodup_append.mpr ⟨h.once, nodup_singleton _, ?_⟩
   rintro a ha b hb rfl
   obtain ⟨d, hd, rfl⟩ := mem_map.mp ha
   exact hfresh d hd (mem_singleton.mp hb)
  genuine := fun d hd => by
   rcases mem_append.mp hd with hd | hd
   · exact h.genuine d hd
   · rw [mem_singleton.mp hd]
     exact hg }

theorem made_of_keys (hk : id ∈ c.keys) : c.requests id ≠ none :=
 h.trail_made id (mem_append_right _ (h.carried id hk))

theorem settle {answer : Answer V} (hk : id ∈ c.keys) (hg : c.Genuine id answer) :
 Sound o ({ c with pending := OrdMap.erase c.pending id }.deliver id answer) :=
 (h.forget id).deliver (fun hx => (OrdMap.mem_keys_erase.mp hx).2 rfl) (h.not_command hk)
  (h.made_of_keys hk) hg

theorem response {f : Frame V} (hf : f ∈ c.received) {id : ResponseId} {outcome : Outcome V}
 (hp : f.parsed = .ok (.response id outcome)) : Sound o (c.response o id outcome f.size) := by
 unfold Connection.response
 split
 · exact h.event _
 rename_i number hnumber
 have hid : id = .number number := by
  cases id with
  | number n => exact congrArg _ (Option.some.inj hnumber)
  | other text => simp [ResponseId.asU64] at hnumber
 subst hid
 split
 next entry he =>
  exact h.settle (OrdMap.mem_keys.mpr (by rw [he]; rfl))
   (.inr ⟨f, hf, entry.method, (h.pending number entry he).1, outcome, hp, rfl⟩)
 split
 · exact { h with cancelled := (length_erase_le).trans h.cancelled }
 · exact h.event _

theorem read (f : Frame V) : Sound o { c with received := c.received ++ [f] } :=
 { h with
   genuine := fun d hd => (h.genuine d hd).imp_right fun ⟨g, hg, hm⟩ =>
    ⟨g, mem_append_left _ hg, hm⟩ }

theorem incoming (hroom : c.queue.length < o.maxQueuedMessages) (f : Frame V) :
 Sound o (c.incoming o f) := by
 have hr := h.read f
 have hf : f ∈ c.received ++ [f] := mem_append_right _ (mem_singleton_self f)
 unfold Connection.incoming
 split
 · exact hr.event _
 next id outcome hp =>
  exact hr.response hf hp
 · exact hr.event _
 next id method hp =>
  unfold serverRequest
  split
  all_goals exact hr.push rfl rfl fun _ => hroom
 · unfold notification
   split
   · exact { hr with }
   split
   · exact hr
   · exact hr.event _

/-! ## `serve` -/

omit h in
theorem driver_event (e : ClientEvent V) : (c.event o e).driver = c.driver := by
 unfold Connection.event
 split
 · rfl
 split <;> rfl

omit h in
theorem driver_deliver (id : Nat) (answer : Answer V) :
 (c.deliver id answer).driver = c.driver := by
 unfold Connection.deliver
 split <;> rfl

omit h in
theorem driver_response (id : ResponseId) (outcome : Outcome V) (bytes : Nat) :
 (c.response o id outcome bytes).driver = c.driver := by
 unfold Connection.response
 split
 · exact driver_event _
 split
 · exact driver_deliver _ _
 split
 · rfl
 · exact driver_event _

omit h in
theorem driver_incoming (f : Frame V) : (c.incoming o f).driver = c.driver := by
 unfold Connection.incoming
 split
 · exact driver_event _
 · exact driver_response _ _ _
 · exact driver_event _
 · rfl
 · unfold notification
   split
   · rfl
   split
   · rfl
   · exact driver_event _

theorem receive (hz : c.driver.rank = 0) (hroom : c.queue.length < o.maxQueuedMessages)
 (received : Received V) : Sound o (c.receive o received) := by
 cases received with
 | frame f =>
  simp only [Connection.receive]
  split
  · exact h.closing hz _
  split
  · exact h.serve hz rfl
  · refine (h.incoming hroom f).serve ?_ rfl
    rw [driver_incoming]
    exact hz
 | endOfStream | failed error => exact h.closing hz _

theorem takeCommand (hz : c.driver.rank = 0) (hroom : c.queue.length < o.maxQueuedMessages) :
 Sound o c.takeCommand := by
 unfold Connection.takeCommand
 split
 · exact h
 rename_i first rest hc
 cases first with
 | request id method cancellable =>
  by_cases hopen : (c.replies id).isClosed
  · rw [show Connection.command { c with commands := rest } (.request id method cancellable)
     = { c with commands := rest } from if_pos hopen]
    exact (h.dropCommand hc).serve hz rfl
  · rw [show Connection.command { c with commands := rest } (.request id method cancellable)
     = { c with
         commands := rest
         pending := OrdMap.insert c.pending id { method, cancellable }
         queue := c.queue ++ [.request id] } from if_neg hopen]
    refine (h.accept hc (fun he => hopen ?_) hz hroom).serve hz rfl
    rw [he]
    rfl
 | notify => exact ((h.dropCommand hc).push rfl rfl fun _ => hroom).serve hz rfl

omit h in
theorem driver_startWrite : c.startWrite.driver = c.driver := by
 unfold Connection.startWrite
 split <;> rfl

theorem driver_takeCancel (hc : c.cancels = first :: rest) :
 (c.takeCancel o first rest).driver = c.driver := by
 rcases @takeCancel_cases _ o _ _ rest (h.first_closed hc) with
  ⟨-, heq⟩ | ⟨-, heq⟩ | ⟨entry, -, -, heq⟩ <;> rw [heq]

theorem startWrite : Sound o c.startWrite := by
 unfold Connection.startWrite
 split
 next hq =>
  exact h.write hq
 · exact h

/-! ## `finish` -/

theorem advance {d : DriverPlace} {permits commands cancels : Bool} {close : Option CloseReason}
 (hz : d.rank ≠ 0) (hclose : ∀ reason, c.close = some reason → close = some reason)
 (hs : Staged d close permits commands cancels c.commands c.pending) :
 Sound o { c with
  driver := d, close, permitsClosed := permits, commandsClosed := commands,
  cancelsClosed := cancels } :=
 { h with
   genuine := fun a ha => (h.genuine a ha).imp_left fun ⟨reason, hr, he⟩ =>
    ⟨reason, hclose reason hr, he⟩
   queue := fun he => absurd he hz
   staged := hs }

theorem skip {rest : List Outgoing} (hq : c.queue = message :: rest) (hp : c.pending = [])
 (hz : c.driver.rank ≠ 0) : Sound o { c with queue := rest } := by
 have hsub : rest.Sublist c.queue := hq ▸ sublist_cons_self message rest
 have hmsg := ((hsub.append_right c.wire).filterMap Outgoing.request?).append_left c.commandIds
 have hnotices := (hsub.append_right c.wire).filterMap Outgoing.notice?
 exact { h with
  trail_made := fun id hid => h.trail_made id (hmsg.subset hid)
  trail := h.trail.sublist hmsg
  carried := fun id hid => by
   rw [Connection.keys, hp] at hid
   simp at hid
  noticed := h.noticed.sublist hnotices
  notices := fun id hid => h.notices id (hnotices.subset hid)
  queue := fun he => absurd he hz }

variable {reason : CloseReason}

theorem stop (hd : c.driver = .finishing .flush reason) :
  Sound o { c with driver := .done reason } := by
 have hs := h.staged
 rw [hd] at hs
 exact h.advance (by decide : (9 : Nat) ≠ 0) (fun _ hr => hr)
  ⟨hs.close, hs.permitsClosed, hs.commandsClosed,
   fun _ => hs.commandsDrained (show 5 ≤ 8 by decide),
   fun _ => hs.pendingDrained (show 6 ≤ 8 by decide), hs.cancelsClosed⟩

theorem flush (hd : c.driver = .finishing .flush reason) : Sound o (c.flush reason) := by
 have hs := h.staged
 rw [hd] at hs
 have hp : c.pending = [] := hs.pendingDrained (show 6 ≤ 8 by decide)
 have hdone := h.stop hd
 unfold Connection.flush
 split
 · exact h
 · exact hdone
 split
 · exact hdone
 next hq =>
  exact h.skip hq hp (by rw [hd]; exact (by decide : (8 : Nat) ≠ 0))
 next hq =>
  exact h.write hq

theorem finish {stage : Stage} (hd : c.driver = .finishing stage reason) :
 Sound o (c.finish reason stage) := by
 have hs := h.staged
 rw [hd] at hs
 cases stage with
 | record =>
  have hnone : c.close = none := hs.close
  refine h.advance (by decide : (2 : Nat) ≠ 0) (fun r hr => ?_) ⟨rfl, hs.permitsClosed,
   hs.commandsClosed, fun hn => absurd hn (by decide : ¬ 5 ≤ 2),
   fun hn => absurd hn (by decide : ¬ 6 ≤ 2), hs.cancelsClosed⟩
  exact absurd (hnone.symm.trans hr) (by simp)
 | closePermits =>
  exact h.advance (by decide : (3 : Nat) ≠ 0) (fun _ hr => hr) ⟨hs.close, rfl,
   hs.commandsClosed, fun hn => absurd hn (by decide : ¬ 5 ≤ 3),
   fun hn => absurd hn (by decide : ¬ 6 ≤ 3), hs.cancelsClosed⟩
 | closeCommands =>
  exact h.advance (by decide : (4 : Nat) ≠ 0) (fun _ hr => hr) ⟨hs.close, hs.permitsClosed,
   rfl, fun hn => absurd hn (by decide : ¬ 5 ≤ 4),
   fun hn => absurd hn (by decide : ¬ 6 ≤ 4), hs.cancelsClosed⟩
 | drainCommands =>
  simp only [Connection.finish]
  split
  next hc =>
   exact h.advance (by decide : (5 : Nat) ≠ 0) (fun _ hr => hr) ⟨hs.close, hs.permitsClosed,
    hs.commandsClosed, fun _ => hc, fun hn => absurd hn (by decide : ¬ 6 ≤ 5),
    hs.cancelsClosed⟩
  next id method cancellable rest hc =>
   have htrail := h.trail
   rw [Connection.trail, commandIds, hc] at htrail
   have hnot : id ∉ rest.filterMap Command.request? ++ c.messageIds := (nodup_cons.mp htrail).1
   rw [mem_append, not_or] at hnot
   refine (h.dropCommand hc).deliver (fun hk => hnot.2 (h.carried id hk)) hnot.1 ?_
    (.inl ⟨reason, hs.close, rfl⟩)
   refine h.trail_made id (mem_append_left _ ?_)
   rw [commandIds, hc]
   exact mem_cons_self
  next rest hc =>
   exact (h.dropCommand hc).push rfl rfl fun hz =>
    absurd hz (by rw [hd]; exact (by decide : (4 : Nat) ≠ 0))
 | drainPending =>
  simp only [Connection.finish]
  split
  next hp =>
   exact h.advance (by decide : (6 : Nat) ≠ 0) (fun _ hr => hr) ⟨hs.close, hs.permitsClosed,
    hs.commandsClosed, fun _ => hs.commandsDrained (show 5 ≤ 5 by decide), fun _ => hp,
    hs.cancelsClosed⟩
  · exact h
 | closeCancels =>
  exact h.advance (by decide : (7 : Nat) ≠ 0) (fun _ hr => hr) ⟨hs.close, hs.permitsClosed,
   hs.commandsClosed, fun _ => hs.commandsDrained (show 5 ≤ 6 by decide),
   fun _ => hs.pendingDrained (show 6 ≤ 6 by decide), rfl⟩
 | drainCancels =>
  simp only [Connection.finish]
  split
  · exact h.advance (by decide : (8 : Nat) ≠ 0) (fun _ hr => hr) ⟨hs.close, hs.permitsClosed,
     hs.commandsClosed, fun _ => hs.commandsDrained (show 5 ≤ 7 by decide),
     fun _ => hs.pendingDrained (show 6 ≤ 7 by decide), hs.cancelsClosed⟩
  next hc =>
   refine h.releaseCancel hc fun hk => ?_
   rw [Connection.keys, hs.pendingDrained (show 6 ≤ 7 by decide)] at hk
   simp at hk
 | flush => exact h.flush hd

theorem drain (hd : c.driver = .finishing .drainPending reason)
 (index : Nat) : Sound o (c.drain index reason) := by
 unfold Connection.drain
 split
 · exact h
 next id entry hi =>
  have hs := h.staged
  rw [hd] at hs
  exact h.settle (mem_map_of_mem (mem_of_getElem? hi)) (.inl ⟨reason, hs.close, rfl⟩)

/-! ## A step of the driver -/

theorem proceed : Sound o (c.proceed o) := by
 unfold Connection.proceed
 split
 next hd =>
  have hz : c.driver.rank = 0 := by rw [hd]; rfl
  split
  · exact h.closing hz _
  · exact h.serve hz rfl
 next hd =>
  refine h.startWrite.serve ?_ rfl
  rw [driver_startWrite, hd]
  rfl
 next left hd =>
  split
  · refine h.startWrite.serve ?_ rfl
    rw [driver_startWrite, hd]
    rfl
  next hc =>
   refine (h.takeCancel hc).serve ?_ rfl
   rw [h.driver_takeCancel hc, hd]
   rfl
 · exact h
 next hd =>
  exact h.finish hd
 · exact h

theorem wrote (error : Option (String × String)) : Sound o (c.wrote error) := by
 have hw : Sound o { c with writing := none } := { h with }
 unfold Connection.wrote
 split
 next hd =>
  have hz : c.driver.rank = 0 := by rw [hd]; rfl
  split
  · exact hw.serve hz rfl
  · exact hw.closing hz _
 next hd =>
  split
  · exact hw
  · exact hw.stop hd
 · exact h

/-- **Every step of the driver** keeps the invariant. -/
theorem act (signal : Signal V) : Sound o (c.act o signal) := by
 cases signal with
 | proceed => exact h.proceed
 | stop =>
  simp only [Connection.act]
  split
  next hd =>
   exact h.closing (by rw [hd.1]; rfl) _
  · exact h
 | wrote error => exact h.wrote error
 | command =>
  simp only [Connection.act]
  split
  next hd =>
   exact h.takeCommand (by rw [hd.1]; rfl) (of_decide_eq_true hd.2)
  · exact h
 | receive received =>
  simp only [Connection.act]
  split
  next hd =>
   exact h.receive (by rw [hd.1]; rfl) (of_decide_eq_true hd.2) received
  · exact h
 | cancel =>
  simp only [Connection.act]
  split
  next hd =>
   split
   · exact h
   next hc =>
    refine (h.takeCancel hc).serve ?_ rfl
    rw [h.driver_takeCancel hc, hd]
    rfl
  · exact h
 | drain index =>
  simp only [Connection.act]
  split
  next hd =>
   exact h.drain hd index
  · exact h
 | deadline =>
  simp only [Connection.act]
  split
  next hd =>
   have hw : Sound o { c with writing := none } := { h with }
   exact hw.stop hd
  · exact h
 | _ => exact { h with }

end Sound

end Connection

end Bake.Mcp
