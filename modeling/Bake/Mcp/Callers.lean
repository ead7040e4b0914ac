import Bake.Mcp.Sound

/-!
# The callers of a connection

A caller's steps keep the connection's invariant, and every other step leaves it what it
stands on: its identity is its own, nothing of an unsent request is anywhere, and one that was
sent is on the channel or in the map until a reply is in its slot.
-/

open List Function

namespace Bake.Mcp

open Connection (command notifying sending waiting)
open Command (request?)

variable {V : Type}

def Answer.fromServer : Answer V → Bool
 | .ok _ | .error (.server _ _) | .error (.invalidResponse _ _) => true
 | _ => false

namespace Connection

/-- Nothing of a request has left its caller. -/
structure Unsent (c : Connection V) (id : Nat) : Prop where
 trail : id ∉ c.trail
 cancels : id ∉ c.cancelIds
 reply : c.replies id = .waiting

def Owns (c : Connection V) (t : Nat) (r : Ticket) : Prop :=
 ∃ size, c.requests r.id = some ({ method := r.method, size }, t)

theorem Owns.made {c : Connection V} {t : Nat} {r : Ticket} (h : c.Owns t r) :
 c.requests r.id ≠ none := by
 obtain ⟨size, hs⟩ := h
 exact fun hn => absurd (hs.symm.trans hn) (by simp)

/-- What a caller may say: the answer delivered to it, or why the connection closed. -/
structure Told (c : Connection V) (id : Nat) (answer : Answer V) : Prop where
 delivered : answer.fromServer → (id, answer) ∈ c.delivered
 closed : ∀ reason, answer = .error (.closed reason) → c.close = some reason

def Stands (c : Connection V) (t : Nat) : Place V → Prop
 | .entry _ | .dropped | .notifying | .notified _ => True
 | .acquire r => c.Owns t r ∧ c.Unsent r.id ∧ r.id ∉ c.held
 | .sending r => c.Owns t r ∧ c.Unsent r.id ∧ r.id ∈ c.held
 | .waiting r => c.Owns t r ∧ r.id ∈ c.held ∧ c.replies r.id ≠ .closed
  ∧ (c.replies r.id = .waiting → r.id ∈ c.commandIds ∨ r.id ∈ c.keys)
 | .dropping r _ answer => c.Owns t r ∧ r.id ∈ c.held ∧ ∀ a, answer = some a → c.Told r.id a
 | .cancelling r _ answer => c.Owns t r ∧ r.id ∈ c.held ∧ c.replies r.id = .closed
  ∧ ∀ a, answer = some a → c.Told r.id a
 | .releasing r answer => c.Owns t r ∧ r.id ∈ c.held
  ∧ ((∃ a, c.replies r.id = .sent a) ∨ r.id ∉ c.trail) ∧ c.Told r.id answer
 | .returned id answer => c.Told id answer ∧ ∃ r : Ticket, r.id = id ∧ c.Owns t r

structure Leaves (c c' : Connection V) (id : Nat) : Prop where
 requests : ∀ x, c.requests id = some x → c'.requests id = some x
 held : id ∈ c'.held ↔ id ∈ c.held
 trail : id ∈ c'.trail → id ∈ c.trail
 cancels : id ∈ c'.cancelIds → id ∈ c.cancelIds
 replies : c'.replies id = c.replies id
  ∨ (c.replies id = .waiting ∧ id ∈ c.trail ∧ ∃ a, c'.replies id = .sent a)
 waits : id ∈ c.held → c'.replies id = .waiting → id ∈ c.commandIds ∨ id ∈ c.keys →
  id ∈ c'.commandIds ∨ id ∈ c'.keys
 queued : id ∈ c'.queuedIds → id ∈ c.queuedIds ∨ (id ∈ c.commandIds ∧ c.replies id ≠ .closed)
 wire : id ∈ c'.wireIds → id ∈ c.wireIds ∨ id ∈ c.queuedIds
 delivered : ∀ a, (id, a) ∈ c.delivered → (id, a) ∈ c'.delivered
 close : ∀ reason, c.close = some reason → c'.close = some reason

variable {o : Options} {c c' : Connection V} {id t : Nat}

namespace Leaves

theorem refl : Leaves c c id where
 requests _ h := h
 held := Iff.rfl
 trail h := h
 cancels h := h
 replies := .inl rfl
 waits _ _ h := h
 queued := .inl
 wire := .inl
 delivered _ h := h
 close _ h := h

theorem closed_iff (h : Leaves c c' id) : c'.replies id = .closed ↔ c.replies id = .closed := by
 rcases h.replies with he | ⟨hw, -, a, ha⟩
 · rw [he]
 · rw [hw, ha]
   simp

theorem owns {r : Ticket} (h : Leaves c c' r.id) (hr : c.Owns t r) : c'.Owns t r :=
 hr.imp fun _ hs => h.requests _ hs

theorem unsent (h : Leaves c c' id) (hu : c.Unsent id) : c'.Unsent id where
 trail := fun ht => hu.trail (h.trail ht)
 cancels := fun hc => hu.cancels (h.cancels hc)
 reply := by
  rcases h.replies with he | ⟨-, ht, -⟩
  · exact he.trans hu.reply
  · exact absurd ht hu.trail

theorem told {answer : Answer V} (h : Leaves c c' id) (hs : c.Told id answer) :
 c'.Told id answer where
 delivered := fun hf => h.delivered _ (hs.delivered hf)
 closed := fun reason he => h.close _ (hs.closed reason he)

end Leaves

/-- **A caller stands where it stood** behind every step that leaves its request alone. -/
theorem Stands.leaves {p : Place V} (hp : c.Stands t p)
 (h : ∀ r : Ticket, c.Owns t r → Leaves c c' r.id) : c'.Stands t p := by
 cases p with
 | acquire r =>
  obtain ⟨hr, hu, hh⟩ := hp
  have hl := h r hr
  exact ⟨hl.owns hr, hl.unsent hu, fun hm => hh (hl.held.mp hm)⟩
 | sending r =>
  obtain ⟨hr, hu, hh⟩ := hp
  have hl := h r hr
  exact ⟨hl.owns hr, hl.unsent hu, hl.held.mpr hh⟩
 | waiting r =>
  obtain ⟨hr, hh, hn, hw⟩ := hp
  have hl := h r hr
  refine ⟨hl.owns hr, hl.held.mpr hh, fun hc => hn (hl.closed_iff.mp hc), fun hw' => ?_⟩
  refine hl.waits hh hw' (hw ?_)
  rcases hl.replies with he | ⟨hw, -⟩
  · exact he.symm.trans hw'
  · exact hw
 | dropping r reason answer =>
  obtain ⟨hr, hh, hs⟩ := hp
  have hl := h r hr
  exact ⟨hl.owns hr, hl.held.mpr hh, fun a ha => hl.told (hs a ha)⟩
 | cancelling r reason answer =>
  obtain ⟨hr, hh, hc, hs⟩ := hp
  have hl := h r hr
  exact ⟨hl.owns hr, hl.held.mpr hh, hl.closed_iff.mpr hc, fun a ha => hl.told (hs a ha)⟩
 | releasing r answer =>
  obtain ⟨hr, hh, hs, ha⟩ := hp
  have hl := h r hr
  refine ⟨hl.owns hr, hl.held.mpr hh, ?_, hl.told ha⟩
  refine hs.imp (fun ⟨a, hs⟩ => ?_) fun hn ht => hn (hl.trail ht)
  rcases hl.replies with he | ⟨hw, -⟩
  · exact ⟨a, he.trans hs⟩
  · exact absurd (hw.symm.trans hs) (by simp)
 | returned id answer =>
  obtain ⟨ha, r, rfl, hr⟩ := hp
  exact ⟨(h r hr).told ha, r, rfl, (h r hr).owns hr⟩
 | _ => trivial

namespace Sound

variable (h : Sound o c)

include h

/-! ## A caller's operations -/

theorem begin (call : Call) (t : Nat) : Sound o { c with
 nextId := c.nextId + 1
 requests := update c.requests c.nextId (some (call, t)) } := by
 have hold : ∀ x, c.requests x ≠ none →
  update c.requests c.nextId (some (call, t)) x = c.requests x := by
  intro x hx
  refine update_of_ne (fun he => hx ?_) _ _
  exact h.fresh x (Nat.le_of_eq he.symm)
 have hmade : ∀ x method, c.Made x method → Connection.Made { c with
  nextId := c.nextId + 1
  requests := update c.requests c.nextId (some (call, t)) } x method :=
  fun x method ⟨size, u, hx⟩ =>
   ⟨size, u, (hold x fun hn => absurd (hx.symm.trans hn) (by simp)).trans hx⟩
 have hsome : ∀ x, c.requests x ≠ none → update c.requests c.nextId (some (call, t)) x ≠ none :=
  fun x hx hn => hx ((hold x hx).symm.trans hn)
 exact { h with
  fresh := fun x hx => by
   have hne : x ≠ c.nextId := by
    rintro rfl
    exact absurd (show c.nextId + 1 ≤ c.nextId from hx) (by omega)
   refine (update_of_ne hne _ _).trans (h.fresh x ?_)
   exact Nat.le_of_succ_le hx
  trail_made := fun x hx => hsome x (h.trail_made x hx)
  held_made := fun x hx => hsome x (h.held_made x hx)
  replies_made := fun x hx => hsome x (h.replies_made x hx)
  pending := fun x entry hx => (h.pending x entry hx).imp_left (hmade x _)
  commands := fun x m b hx => (h.commands x m b hx).imp_left (hmade x _)
  genuine := fun d hd => (h.genuine d hd).imp_right fun ⟨f, hf, m, hm, ha⟩ =>
   ⟨f, hf, m, hmade _ m hm, ha⟩
  notices := fun x hx => by
   obtain ⟨hw, hk, m, hm, hi⟩ := h.notices x hx
   exact ⟨hw, hk, m, hmade x m hm, hi⟩ }

theorem acquire (hfree : c.free ≠ 0) (hm : c.requests id ≠ none) (hh : id ∉ c.held)
 (hc : id ∉ c.cancelIds) : Sound o { c with free := c.free - 1, held := c.held ++ [id] } :=
 { h with
   held_made := fun x hx => by
    rcases mem_append.mp hx with hx | hx
    · exact h.held_made x hx
    · exact mem_singleton.mp hx ▸ hm
   permits := by
    have hp := h.permits
    show c.free - 1 + (c.held ++ [id]).length + c.cancels.length = o.maxPendingRequests
    rw [length_append, length_singleton]
    omega
   holders := by
    show (c.held ++ [id] ++ c.cancelIds).Nodup
    rw [append_assoc]
    refine perm_middle.nodup_iff.mpr (nodup_cons.mpr ⟨fun hx => ?_, h.holders⟩)
    exact (mem_append.mp hx).elim hh hc
   permitted := fun x hx => by
    rcases mem_append.mp (h.permitted x hx) with hx | hx
    · exact mem_append_left _ (mem_append_left _ hx)
    · exact mem_append_right _ hx
   commands_held := fun x hx hopen => mem_append_left _ (h.commands_held x hx hopen) }

theorem send {command : Command} (hopen : c.commandsClosed = false)
 (hr : ∀ x m b, command = .request x m b →
  c.Unsent x ∧ x ∈ c.held ∧ c.Made x m ∧ b = m.cancellable) :
 Sound o { c with commands := c.commands ++ [command] } := by
 have hreq : ∀ x, x ∈ (c.commands ++ [command]).filterMap request? →
  x ∈ c.commandIds ∨ (c.Unsent x ∧ x ∈ c.held) := by
  intro x hx
  rw [filterMap_append, mem_append] at hx
  refine hx.imp_right fun hx => ?_
  cases command with
  | request y m b =>
   rw [mem_singleton.mp hx]
   exact ⟨(hr y m b rfl).1, (hr y m b rfl).2.1⟩
  | notify => simp [request?] at hx
 have htrail : ((c.commands ++ [command]).filterMap request? ++ c.messageIds).Nodup := by
  rw [filterMap_append]
  cases command with
  | request y m b =>
   have hperm : (c.commandIds ++ [y] ++ c.messageIds).Perm (y :: c.trail) := by
    rw [append_assoc]
    exact perm_middle
   exact hperm.nodup_iff.mpr (nodup_cons.mpr ⟨(hr y m b rfl).1.trail, h.trail⟩)
  | notify =>
   rw [show [Command.notify].filterMap request? = [] from rfl, append_nil]
   exact h.trail
 have hrank : ¬ 4 ≤ c.driver.rank := by
  intro hn
  have := h.staged.commandsClosed
  rw [hopen, decide_eq_true hn] at this
  simp at this
 exact { h with
  trail_made := fun x hx => by
   rcases mem_append.mp hx with hx | hx
   · rcases hreq x hx with hx | hx
     · exact h.trail_made x (mem_append_left _ hx)
     · exact h.held_made x hx.2
   · exact h.trail_made x (mem_append_right _ hx)
  trail := htrail
  unanswered := fun x hx => by
   rcases hx with hx | hx
   · exact h.unanswered x (.inl hx)
   · rcases hreq x hx with hx | hx
     · exact h.unanswered x (.inr hx)
     · exact .inl hx.1.reply
  commands_held := fun x hx hn => (hreq x hx).elim (fun hx => h.commands_held x hx hn) And.right
  commands := fun x m b hx => by
   rcases mem_append.mp hx with hx | hx
   · exact h.commands x m b hx
   · exact (hr x m b (mem_singleton.mp hx).symm).2.2
  staged := { h.staged with
   commandsDrained := fun hn => absurd (Nat.le_of_succ_le hn) hrank } }

theorem dropReceiver (hm : c.requests id ≠ none) : Sound o (c.dropReceiver id) := by
 have hself : update c.replies id .closed id = .closed := update_self ..
 have hother : ∀ x, x ≠ id → update c.replies id .closed x = c.replies x :=
  fun x hx => update_of_ne hx _ _
 exact { h with
  replies_made := fun x hx => by
   by_cases he : x = id
   · exact he ▸ hm
   · exact h.replies_made x fun hx' => hx ((hother x he).trans hx')
  unanswered := fun x hx => by
   by_cases he : x = id
   · exact .inr (he ▸ hself)
   · exact (h.unanswered x hx).imp (hother x he).trans (hother x he).trans
  commands_held := fun x hx hopen => by
   by_cases he : x = id
   · exact absurd (he ▸ hself) hopen
   · exact h.commands_held x hx fun hx' => hopen ((hother x he).trans hx')
  withdrawn := fun x hx => by
   by_cases he : x = id
   · exact he ▸ hself
   · exact (hother x he).trans (h.withdrawn x hx)
  unlost := fun x hx => by
   by_cases he : x = id
   · subst he
     exact absurd (hself.symm.trans hx) (by simp)
   · exact h.unlost x ((hother x he).symm.trans hx)
  sent := fun x a hx => by
   by_cases he : x = id
   · subst he
     exact absurd (hself.symm.trans hx) (by simp)
   · exact h.sent x a ((hother x he).symm.trans hx)
  settled := fun d hd hx => by
   by_cases he : d.1 = id
   · rw [he] at hx
     exact absurd (hself.symm.trans hx) (by simp)
   · exact h.settled d hd ((hother d.1 he).symm.trans hx) }

omit h in
theorem perm_held (hh : id ∈ c.held) : c.held.Perm (id :: c.held.erase id) := perm_cons_erase hh

theorem release (hh : id ∈ c.held) (hk : id ∉ c.keys) (hc : c.replies id = .closed) :
 Sound o { c with free := c.free + 1, held := c.held.erase id } := by
 have hperm := perm_held hh
 have hsub : (c.held.erase id).Sublist c.held := erase_sublist
 have hkeep : ∀ x ∈ c.held, x ≠ id → x ∈ c.held.erase id :=
  fun x hx hne => (mem_erase_of_ne hne).mpr hx
 exact { h with
  held_made := fun x hx => h.held_made x (hsub.subset hx)
  permits := by
   have hp := h.permits
   have hl := hperm.length_eq
   rw [length_cons] at hl
   show c.free + 1 + (c.held.erase id).length + c.cancels.length = o.maxPendingRequests
   omega
  holders := h.holders.sublist (hsub.append_right c.cancelIds)
  permitted := fun x hx => by
   have hne : x ≠ id := by
    rintro rfl
    exact hk hx
   rcases mem_append.mp (h.permitted x hx) with hx | hx
   · exact mem_append_left _ (hkeep x hx hne)
   · exact mem_append_right _ hx
  commands_held := fun x hx hopen => by
   refine hkeep x (h.commands_held x hx hopen) ?_
   rintro rfl
   exact hopen hc }

variable {r : Ticket} {answer : Answer V} {choice : Choice} {p' : Place V}

theorem sendCancel (hh : r.id ∈ c.held) (hc : c.replies r.id = .closed) (reason : String) :
 Sound o (c.sendCancel r reason) := by
 unfold Connection.sendCancel
 split
 next hclosed =>
  refine h.release hh (fun hk => ?_) hc
  have hrank : 7 ≤ c.driver.rank := by
   have := h.staged.cancelsClosed
   rw [hclosed] at this
   exact of_decide_eq_true this.symm
  rw [Connection.keys, h.staged.pendingDrained (by omega)] at hk
  simp at hk
 have hperm : (c.held.erase r.id ++ (c.cancels ++ [Cancel.mk r.id reason]).map Cancel.id).Perm
  (c.held ++ c.cancelIds) := by
  rw [map_append, ← append_assoc]
  refine (perm_append_singleton r.id _).trans ?_
  exact ((perm_held hh).append_right c.cancelIds).symm
 exact { h with
  held_made := fun x hx => h.held_made x (mem_of_mem_erase hx)
  permits := by
   have hp := h.permits
   have hl := (perm_held hh).length_eq
   rw [length_cons] at hl
   show c.free + (c.held.erase r.id).length + (c.cancels ++ [_]).length = o.maxPendingRequests
   rw [length_append, length_singleton]
   omega
  holders := hperm.nodup_iff.mpr h.holders
  permitted := fun x hx => hperm.mem_iff.mpr (h.permitted x hx)
  commands_held := fun x hx hopen => by
   refine (mem_erase_of_ne ?_).mpr (h.commands_held x hx hopen)
   rintro rfl
   exact hopen hc
  withdrawn := fun x hx => by
   have hx' : x ∈ (c.cancels ++ [Cancel.mk r.id reason]).map Cancel.id := hx
   rw [map_append, mem_append] at hx'
   rcases hx' with hx' | hx'
   · exact h.withdrawn x hx'
   · rw [mem_singleton.mp hx']
     exact hc }

/-! ## What the driver's steps leave -/

omit h in
theorem leaves_event (e : ClientEvent V) : Leaves c (c.event o e) id := by
 unfold Connection.event
 split
 · exact Leaves.refl
 split
 all_goals exact { Leaves.refl with }

omit h in
theorem leaves_push {message : Outgoing} (hr : message.request? = none) :
 Leaves c { c with queue := c.queue ++ [message] } id := by
 have hids : (c.queue ++ [message] ++ c.wire).filterMap Outgoing.request? = c.messageIds := by
  simp [messageIds, hr]
 have hq : (c.queue ++ [message]).filterMap Outgoing.request? = c.queuedIds := by
  simp [queuedIds, hr]
 exact { (Leaves.refl : Leaves c c id) with
  trail := fun ht => by
   rw [Connection.trail, messageIds, hids] at ht
   exact ht
  queued := fun ht => by
   rw [queuedIds, hq] at ht
   exact .inl ht }

omit h in
theorem leaves_write {message : Outgoing} {rest : List Outgoing}
 (hq : c.queue = message :: rest) : Leaves c
  { c with queue := rest, writing := some message, wire := c.wire ++ [message] } id := by
 have hids : ((rest ++ (c.wire ++ [message])).filterMap Outgoing.request?).Perm c.messageIds := by
  rw [messageIds, hq]
  exact written_perm _ message rest c.wire
 exact { (Leaves.refl : Leaves c c id) with
  trail := fun ht => (hids.append_left c.commandIds).mem_iff.mp ht
  queued := fun ht => by
   refine .inl ?_
   rw [queuedIds, hq]
   exact ((sublist_cons_self message rest).filterMap _).subset ht
  wire := fun hw => by
   have hw' : id ∈ (c.wire ++ [message]).filterMap Outgoing.request? := hw
   rw [filterMap_append, mem_append] at hw'
   refine hw'.imp_right fun hm => ?_
   obtain ⟨m, hm, hr⟩ := mem_filterMap.mp hm
   rw [mem_singleton.mp hm] at hr
   rw [queuedIds, hq, filterMap_cons_some hr]
   exact mem_cons_self }

omit h in
theorem leaves_startWrite : Leaves c c.startWrite id := by
 unfold Connection.startWrite
 split
 next hq =>
  exact leaves_write hq
 · exact Leaves.refl

omit h in
theorem leaves_deliver {n : Nat} {pending : List (Nat × Pending)} {commands : List Command}
 (ht : n ∈ c.trail) (hsub : ∀ x ∈ commands.filterMap request?, x ∈ c.commandIds)
 (hkeep : id ≠ n → id ∈ c.commandIds ∨ id ∈ c.keys →
  id ∈ commands.filterMap request? ∨ id ∈ OrdMap.keys pending) :
 Leaves c ({ c with pending := pending, commands := commands }.deliver n answer) id := by
 have htrail : id ∈ commands.filterMap request? ++ c.messageIds → id ∈ c.trail := by
  intro hm
  rcases mem_append.mp hm with hm | hm
  · exact mem_append_left _ (hsub id hm)
  · exact mem_append_right _ hm
 unfold Connection.deliver
 split
 next hw =>
  have hw : c.replies n = .waiting := hw
  have hother : id ≠ n → update c.replies n (.sent answer) id = c.replies id :=
   fun hne => update_of_ne hne _ _
  have hself : update c.replies n (.sent answer) n = .sent answer := update_self ..
  exact { (Leaves.refl : Leaves c c id) with
   trail := htrail
   replies := by
    by_cases he : id = n
    · subst he
      exact .inr ⟨hw, ht, answer, hself⟩
    · exact .inl (hother he)
   waits := fun _ hw' => hkeep fun he => by
    subst he
    exact absurd (hself.symm.trans hw') (by simp)
   delivered := fun a ha => mem_append_left _ ha }
 next hn =>
  exact { (Leaves.refl : Leaves c c id) with
   trail := htrail
   waits := fun _ hw' => hkeep fun he => hn (he ▸ hw') }

theorem leaves_settle {n : Nat} (hk : n ∈ c.keys) :
 Leaves c ({ c with pending := OrdMap.erase c.pending n }.deliver n answer) id :=
 leaves_deliver (mem_append_right _ (h.carried n hk)) (fun _ hx => hx) fun hne hin =>
  hin.imp_right fun hin => OrdMap.mem_keys_erase.mpr ⟨hin, hne⟩

theorem leaves_response (rid : ResponseId) (outcome : Outcome V) (bytes : Nat) :
 Leaves c (c.response o rid outcome bytes) id := by
 unfold Connection.response
 split
 · exact leaves_event _
 split
 next he =>
  exact h.leaves_settle (OrdMap.mem_keys.mpr (by rw [he]; rfl))
 split
 · exact { (Leaves.refl : Leaves _ _ id) with }
 · exact leaves_event _

theorem leaves_incoming (f : Frame V) : Leaves c (c.incoming o f) id := by
 have hread : ∀ {d : Connection V}, Leaves { c with received := c.received ++ [f] } d id →
  Leaves c d id := fun l => { l with }
 unfold Connection.incoming
 split
 · exact hread (leaves_event _)
 · exact hread ((h.read f).leaves_response _ _ _)
 · exact hread (leaves_event _)
 · refine hread ?_
   unfold serverRequest
   split
   all_goals exact leaves_push rfl
 · refine hread ?_
   unfold notification
   split
   · exact { (Leaves.refl : Leaves _ _ id) with }
   split
   · exact Leaves.refl
   · exact leaves_event _

theorem leaves_receive (received : Received V) : Leaves c (c.receive o received) id := by
 cases received with
 | frame f =>
  simp only [Connection.receive]
  split
  · exact { (Leaves.refl : Leaves c c id) with }
  split
  · exact { (Leaves.refl : Leaves c c id) with }
  · exact { h.leaves_incoming f with }
 | endOfStream | failed error => exact { (Leaves.refl : Leaves c c id) with }

omit h in
theorem leaves_dropCommand {first : Command} {rest : List Command} (hc : c.commands = first :: rest)
 (hn : first.request? = some id → c.replies id ≠ .waiting) :
 Leaves c { c with commands := rest } id := by
 have hsub : (rest.filterMap request?).Sublist c.commandIds := by
  rw [commandIds, hc]
  exact (sublist_cons_self first rest).filterMap _
 exact { (Leaves.refl : Leaves c c id) with
  trail := fun ht => (hsub.append_right c.messageIds).subset ht
  waits := fun _ hw hin => by
   refine hin.imp_left fun hin => ?_
   rw [commandIds, hc] at hin
   obtain ⟨m, hm, hr⟩ := mem_filterMap.mp hin
   rcases mem_cons.mp hm with rfl | hm
   · exact absurd hw (hn hr)
   · exact mem_filterMap.mpr ⟨m, hm, hr⟩ }

omit h in
theorem leaves_accept {n : Nat} {method : Method} {cancellable : Bool} {rest : List Command}
 (hc : c.commands = .request n method cancellable :: rest) (hopen : c.replies n ≠ .closed) :
 Leaves c { c with
  commands := rest
  pending := OrdMap.insert c.pending n { method, cancellable }
  queue := c.queue ++ [.request n] } id := by
 have hin : n ∈ c.commandIds := by
  rw [commandIds, hc]
  exact mem_cons_self
 have hqueued : (c.queue ++ [Outgoing.request n]).filterMap Outgoing.request?
  = c.queuedIds ++ [n] := by
  simp [queuedIds, Outgoing.request?]
 have hids : (c.queue ++ [Outgoing.request n] ++ c.wire).filterMap Outgoing.request?
  = c.queuedIds ++ [n] ++ c.wireIds := by
  rw [filterMap_append, hqueued, wireIds]
 have hold : ∀ x ∈ rest.filterMap request?, x ∈ c.commandIds := by
  intro x hx
  rw [commandIds, hc]
  exact mem_cons_of_mem _ hx
 exact { (Leaves.refl : Leaves c c id) with
  trail := fun ht => by
   rw [Connection.trail, messageIds, hids, commandIds, mem_append, mem_append,
    mem_append, mem_singleton] at ht
   rw [Connection.trail, messageIds_eq, mem_append, mem_append]
   rcases ht with ht | (ht | rfl) | ht
   · exact .inl (hold id ht)
   · exact .inr (.inl ht)
   · exact .inl hin
   · exact .inr (.inr ht)
  waits := fun _ _ hw => by
   have hkeys : ∀ x, x ∈ c.keys ∨ x = n →
    x ∈ OrdMap.keys (OrdMap.insert c.pending n { method, cancellable }) := by
    intro x hx
    rw [OrdMap.mem_keys, OrdMap.get?_insert]
    split
    · rfl
    next hne =>
     exact OrdMap.mem_keys.mp (hx.resolve_right fun he => hne he.symm)
   rcases hw with hw | hw
   · rw [commandIds, hc] at hw
     rcases mem_cons.mp hw with rfl | hw
     · exact .inr (hkeys _ (.inr rfl))
     · exact .inl hw
   · exact .inr (hkeys _ (.inl hw))
  queued := fun hq => by
   rw [queuedIds, hqueued, mem_append, mem_singleton] at hq
   rcases hq with hq | rfl
   · exact .inl hq
   · exact .inr ⟨hin, hopen⟩ }

omit h in
theorem leaves_takeCommand : Leaves c c.takeCommand id := by
 unfold Connection.takeCommand
 split
 · exact Leaves.refl
 rename_i first rest hc
 cases first with
 | request n method cancellable =>
  by_cases hopen : (c.replies n).isClosed
  · rw [show command { c with commands := rest } (.request n method cancellable)
     = { c with commands := rest } from if_pos hopen]
    have hl : Leaves c { c with commands := rest } id := leaves_dropCommand hc fun he hw => by
     rw [request?, Option.some.injEq] at he
     rw [he, hw] at hopen
     simp [Slot.isClosed] at hopen
    exact { hl with }
  · rw [show command { c with commands := rest } (.request n method cancellable) = { c with
         commands := rest
         pending := OrdMap.insert c.pending n { method, cancellable }
         queue := c.queue ++ [.request n] } from if_neg hopen]
    have hl := @leaves_accept _ _ id _ _ _ _ hc fun he => hopen (by rw [he]; rfl)
    exact { hl with }
 | notify =>
  have hl : Leaves c { c with commands := rest } id := leaves_dropCommand hc (by simp [request?])
  have hp : Leaves { c with commands := rest }
   { c with commands := rest, queue := c.queue ++ [.initialized] } id := leaves_push rfl
  have hq : Leaves c { c with queue := c.queue ++ [.initialized] } id := leaves_push rfl
  exact { hl with trail := fun ht => hl.trail (hp.trail ht), queued := hq.queued }

theorem leaves_takeCancel {first : Cancel} {rest : List Cancel}
 (hc : c.cancels = first :: rest) : Leaves c (c.takeCancel o first rest) id := by
 have hcancels : id ∈ rest.map Cancel.id → id ∈ c.cancelIds := fun hm => by
  rw [cancelIds, hc]
  exact mem_cons_of_mem _ hm
 have hin : first.id ∈ c.cancelIds := by
  rw [cancelIds, hc]
  exact mem_cons_self
 have hwaits : id ∈ c.held → id ∈ c.commandIds ∨ id ∈ c.keys →
  id ∈ c.commandIds ∨ id ∈ OrdMap.keys (OrdMap.erase c.pending first.id) := by
  intro hh hw
  refine hw.imp_right fun hw => OrdMap.mem_keys_erase.mpr ⟨hw, ?_⟩
  rintro rfl
  exact h.not_cancelled hh hin
 rcases @takeCancel_cases _ o _ _ rest (h.first_closed hc) with
  ⟨-, heq⟩ | ⟨-, heq⟩ | ⟨entry, -, -, heq⟩ <;> rw [heq]
 · exact { (Leaves.refl : Leaves c c id) with cancels := hcancels }
 · have hsub : (c.queue.eraseP fun message => message.request? = some first.id).Sublist c.queue :=
    eraseP_sublist
   exact { (Leaves.refl : Leaves c c id) with
    trail := fun ht => (((hsub.append_right c.wire).filterMap _).append_left _).subset ht
    cancels := hcancels
    waits := fun hh _ hw => hwaits hh hw
    queued := fun hq => .inl ((hsub.filterMap _).subset hq) }
 · by_cases hcan : entry.cancellable
   · rw [if_pos hcan]
     have hp : Leaves c { c with queue := c.queue ++ [.cancelled first.id first.reason] } id :=
      leaves_push rfl
     exact { hp with cancels := hcancels, waits := fun hh _ hw => hwaits hh hw }
   · rw [if_neg hcan]
     exact { (Leaves.refl : Leaves c c id) with
      cancels := hcancels, waits := fun hh _ hw => hwaits hh hw }

theorem leaves_finish {stage : Stage} {reason : CloseReason}
 (hd : c.driver = .finishing stage reason) : Leaves c (c.finish reason stage) id := by
 have hs := h.staged
 rw [hd] at hs
 cases stage with
 | record =>
  have hnone : c.close = none := hs.close
  exact { (Leaves.refl : Leaves c c id) with
   close := fun r hr => absurd (hnone.symm.trans hr) (by simp) }
 | drainCommands =>
  simp only [Connection.finish]
  split
  · exact { (Leaves.refl : Leaves c c id) with }
  next n method cancellable rest hc =>
   have hin : n ∈ c.commandIds := by
    rw [commandIds, hc]
    exact mem_cons_self
   refine leaves_deliver (mem_append_left _ hin) (fun x hx => ?_) fun hne hin => ?_
   · rw [commandIds, hc]
     exact mem_cons_of_mem _ hx
   · refine hin.imp_left fun hin => ?_
     rw [commandIds, hc] at hin
     exact (mem_cons.mp hin).resolve_left hne
  next rest hc =>
   have hl : Leaves c { c with commands := rest } id := leaves_dropCommand hc (by simp [request?])
   have hp : Leaves { c with commands := rest }
    { c with commands := rest, queue := c.queue ++ [.initialized] } id := leaves_push rfl
   have hq : Leaves c { c with queue := c.queue ++ [.initialized] } id := leaves_push rfl
   exact { hl with trail := fun ht => hl.trail (hp.trail ht), queued := hq.queued }
 | drainPending =>
  simp only [Connection.finish]
  split
  · exact { (Leaves.refl : Leaves c c id) with }
  · exact Leaves.refl
 | drainCancels =>
  simp only [Connection.finish]
  split
  · exact { (Leaves.refl : Leaves c c id) with }
  next first rest hc =>
   exact { (Leaves.refl : Leaves c c id) with
    cancels := fun hm => by
     rw [cancelIds, hc]
     exact mem_cons_of_mem _ hm }
 | flush =>
  simp only [Connection.finish, Connection.flush]
  split
  · exact Leaves.refl
  · exact { (Leaves.refl : Leaves c c id) with }
  split
  · exact { (Leaves.refl : Leaves c c id) with }
  next n rest hq =>
   have hsub : rest.Sublist c.queue := hq ▸ sublist_cons_self _ rest
   exact { (Leaves.refl : Leaves c c id) with
    trail := fun ht => (((hsub.append_right c.wire).filterMap _).append_left _).subset ht
    queued := fun hm => .inl ((hsub.filterMap _).subset hm) }
  next hq =>
   exact leaves_write hq
 | _ => exact { (Leaves.refl : Leaves c c id) with }

/-- **Every step of the driver** leaves every request what its caller stands on. -/
theorem leaves_act (signal : Signal V) : Leaves c (c.act o signal) id := by
 cases signal with
 | proceed =>
  simp only [Connection.act]
  unfold Connection.proceed
  split
  · split
    all_goals exact { (Leaves.refl : Leaves c c id) with }
  · exact { (leaves_startWrite : Leaves c _ id) with }
  · split
    · exact { (leaves_startWrite : Leaves c _ id) with }
    next hc =>
     exact { h.leaves_takeCancel hc with }
  · exact Leaves.refl
  next hd =>
   exact h.leaves_finish hd
  · exact Leaves.refl
 | stop | deadline =>
  simp only [Connection.act]
  split
  · exact { (Leaves.refl : Leaves c c id) with }
  · exact Leaves.refl
 | wrote error =>
  simp only [Connection.act]
  unfold Connection.wrote
  split
  · split
    all_goals exact { (Leaves.refl : Leaves c c id) with }
  · split
    all_goals exact { (Leaves.refl : Leaves c c id) with }
  · exact Leaves.refl
 | command =>
  simp only [Connection.act]
  split
  · exact leaves_takeCommand
  · exact Leaves.refl
 | receive received =>
  simp only [Connection.act]
  split
  · exact h.leaves_receive received
  · exact Leaves.refl
 | cancel =>
  simp only [Connection.act]
  split
  · split
    · exact Leaves.refl
    next hc =>
     exact { h.leaves_takeCancel hc with }
  · exact Leaves.refl
 | drain index =>
  simp only [Connection.act]
  split
  · unfold Connection.drain
    split
    · exact Leaves.refl
    next hi =>
     exact h.leaves_settle (mem_map_of_mem (mem_of_getElem? hi))
  · exact Leaves.refl
 | _ => exact { (Leaves.refl : Leaves c c id) with }

/-! ## A caller's step -/

/-- What a caller's step keeps: the invariant, its own place, and what every other request
stands on. -/
structure Stepped (o : Options) (c : Connection V) (t : Nat) (c' : Connection V) (p' : Place V) :
 Prop where
 sound : Sound o c'
 stands : c'.Stands t p'
 others : ∀ u (r : Ticket), u ≠ t → c.Owns u r → Leaves c c' r.id

omit h in
theorem ne_of_owns {u : Nat} {s : Ticket} (hr : c.Owns t r) (hs : c.Owns u s) (hne : u ≠ t) :
 s.id ≠ r.id := by
 obtain ⟨size, hr⟩ := hr
 obtain ⟨size', hs⟩ := hs
 intro he
 rw [he, hr] at hs
 exact hne (congrArg Prod.snd (Option.some.inj hs)).symm

theorem stays {p : Place V} (hp : c.Stands t p) : Stepped o c t c p :=
 ⟨h, hp, fun _ _ _ _ => Leaves.refl⟩

theorem told_closed (hn : 3 ≤ c.driver.rank) : c.Told id c.closedError := by
 obtain ⟨reason, hr⟩ : ∃ reason, c.close = some reason := by
  rw [h.staged.close, if_pos (by omega)]
  cases hd : c.driver with
  | finishing stage reason | done reason => exact ⟨reason, rfl⟩
  | _ => rw [hd] at hn; simp [DriverPlace.rank] at hn
 rw [closedError, hr]
 exact ⟨by simp [Answer.fromServer], fun r he => by
  rw [hr]
  exact congrArg some (RequestError.closed.inj (Answer.error.inj he))⟩

omit h in
theorem told_timeout {method : Method} {after : Nat} : c.Told id (.error (.timeout method after)) :=
 ⟨by simp [Answer.fromServer], fun _ he => by simp at he⟩

theorem rank_of_permitsClosed (hc : c.permitsClosed) : 3 ≤ c.driver.rank := by
 rw [h.staged.permitsClosed] at hc
 exact of_decide_eq_true hc

theorem rank_of_commandsClosed (hc : c.commandsClosed) : 3 ≤ c.driver.rank := by
 rw [h.staged.commandsClosed] at hc
 have : 4 ≤ c.driver.rank := of_decide_eq_true hc
 omega

theorem begins (call : Call) : Stepped o c t (c.begin o t call).1 (c.begin o t call).2 := by
 have hnew : c.requests c.nextId = none := h.fresh _ (Nat.le_refl _)
 have hself : update c.requests c.nextId (some (call, t)) c.nextId = some (call, t) :=
  update_self ..
 have hothers : ∀ u (r : Ticket), u ≠ t → c.Owns u r → Leaves c { c with
  nextId := c.nextId + 1
  requests := update c.requests c.nextId (some (call, t)) } r.id := by
  intro u r _ hr
  exact { (Leaves.refl : Leaves c c r.id) with
   requests := fun x hx => by
    refine (update_of_ne (fun he => ?_) _ _).trans hx
    exact hr.made (he ▸ hnew) }
 have howns : Connection.Owns { c with
  nextId := c.nextId + 1
  requests := update c.requests c.nextId (some (call, t)) } t
  { id := c.nextId, method := call.method } := ⟨call.size, hself⟩
 unfold Connection.begin
 split
 · refine ⟨h.begin call t, ⟨⟨by simp [Answer.fromServer],
    fun _ he => by simp at he⟩, _, rfl, howns⟩, hothers⟩
 · refine ⟨h.begin call t, ⟨howns, ⟨fun ht => h.trail_made _ ht hnew, fun hc => ?_, ?_⟩,
    fun hh => h.held_made _ hh hnew⟩, hothers⟩
   · exact h.replies_made c.nextId (fun hw => absurd (hw.symm.trans (h.withdrawn _ hc)) (by simp))
      hnew
   · exact Classical.not_not.mp fun hw => h.replies_made _ hw hnew

theorem acquires (hp : c.Stands t (.acquire r)) (hn : c.acquire o r choice = some (c', p')) :
 Stepped o c t c' p' := by
 obtain ⟨hr, hu, hh⟩ := hp
 cases choice with
 | go =>
  simp only [Connection.acquire] at hn
  split at hn
  next hc =>
   cases hn
   exact h.stays ⟨h.told_closed (h.rank_of_permitsClosed hc), r, rfl, hr⟩
  split at hn
  · simp at hn
  next hfree =>
   cases hn
   refine ⟨h.acquire hfree hr.made hh hu.cancels, ⟨hr, ⟨hu.trail, hu.cancels, hu.reply⟩,
    mem_append_right _ (mem_singleton_self _)⟩, fun u s hne hs => ?_⟩
   exact { (Leaves.refl : Leaves c c s.id) with
    held := by simp [ne_of_owns hr hs hne]
    waits := fun hm hw hin => hin }
 | timeout =>
  simp only [Connection.acquire] at hn
  split at hn
  · simp at hn
  · obtain ⟨after, -, he⟩ := Option.map_eq_some_iff.mp hn
    cases he
    exact h.stays ⟨told_timeout, r, rfl, hr⟩
 | drop =>
  cases hn
  exact h.stays trivial

omit h in
theorem leaves_send {command : Command} {n : Nat} (hn : ∀ x, command.request? = some x → x = n)
 (hne : id ≠ n) : Leaves c { c with commands := c.commands ++ [command] } id := by
 have hids : id ∈ (c.commands ++ [command]).filterMap request? → id ∈ c.commandIds := by
  intro hm
  rw [filterMap_append, mem_append] at hm
  rcases hm with hm | hm
  · exact hm
  · obtain ⟨m, hm, hr⟩ := mem_filterMap.mp hm
    rw [mem_singleton.mp hm] at hr
    exact absurd (hn id hr) hne
 exact { (Leaves.refl : Leaves c c id) with
  trail := fun ht => (mem_append.mp ht).elim
   (fun hm => mem_append_left _ (hids hm)) (mem_append_right _)
  waits := fun _ _ hin => hin.imp_left fun hin => by
   rw [commandIds, filterMap_append]
   exact mem_append_left _ hin }

theorem sends (hp : c.Stands t (.sending r)) (hn : c.sending o r choice = some (c', p')) :
 Stepped o c t c' p' := by
 obtain ⟨hr, hu, hh⟩ := hp
 cases choice with
 | go =>
  simp only [sending] at hn
  split at hn
  next hc =>
   cases hn
   exact h.stays ⟨hr, hh, .inr hu.trail, h.told_closed (h.rank_of_commandsClosed hc)⟩
  rename_i hopen
  split at hn
  · cases hn
    refine ⟨h.send (Bool.eq_false_iff.mpr hopen) fun x m b he => ?_,
     ⟨hr, hh, ?_, fun _ => .inl ?_⟩, fun u s hne hs =>
      leaves_send (fun x he => (Option.some.inj he).symm) (ne_of_owns hr hs hne)⟩
    · obtain ⟨rfl, rfl, rfl⟩ := Command.request.inj he
      exact ⟨hu, hh, hr.imp fun size hs => ⟨t, hs⟩, rfl⟩
    · exact fun hc => absurd (hu.reply.symm.trans hc) (by simp)
    · rw [commandIds, filterMap_append]
      exact mem_append_right _ mem_cons_self
  · simp at hn
 | timeout =>
  simp only [sending] at hn
  split at hn
  · simp at hn
  · obtain ⟨after, -, he⟩ := Option.map_eq_some_iff.mp hn
    cases he
    exact h.stays ⟨hr, hh, fun a ha => Option.some.inj ha ▸ told_timeout⟩
 | drop =>
  cases hn
  exact h.stays ⟨hr, hh, by simp⟩

theorem waits (hp : c.Stands t (.waiting r)) (hn : c.waiting o r choice = some (c', p')) :
 Stepped o c t c' p' := by
 obtain ⟨hr, hh, hopen, -⟩ := hp
 cases choice with
 | go =>
  simp only [waiting] at hn
  split at hn
  · simp at hn
  next answer hs =>
   cases hn
   have hd := h.sent _ _ hs
   refine h.stays ⟨hr, hh, .inl ⟨answer, hs⟩, fun _ => hd, fun reason he => ?_⟩
   rcases h.genuine _ hd with ⟨reason', hc, he'⟩ | ⟨f, -, m, -, outcome, -, he'⟩
   · rw [show answer = _ from he'] at he
     rw [hc, RequestError.closed.inj (Answer.error.inj he)]
   · rw [show answer = _ from he'] at he
     cases outcome <;> simp [reply] at he
  next hw hs =>
   cases hslot : c.replies r.id with
   | waiting => exact absurd hslot hw
   | sent answer => exact absurd hslot (hs answer)
   | closed => exact absurd hslot hopen
   | lost => exact absurd hslot (h.unlost r.id)
 | timeout =>
  simp only [waiting] at hn
  split at hn
  · obtain ⟨after, -, he⟩ := Option.map_eq_some_iff.mp hn
    cases he
    exact h.stays ⟨hr, hh, fun a ha => Option.some.inj ha ▸ told_timeout⟩
  · simp at hn
 | drop =>
  cases hn
  exact h.stays ⟨hr, hh, by simp⟩

omit h in
theorem leaves_dropReceiver {n : Nat} (hne : id ≠ n) : Leaves c (c.dropReceiver n) id :=
 { (Leaves.refl : Leaves c c id) with
   replies := .inl (update_of_ne hne _ _)
   waits := fun _ _ hin => hin }

theorem drops {reason : String} {answer : Option (Answer V)}
 (hp : c.Stands t (.dropping r reason answer)) :
 Stepped o c t (c.dropReceiver r.id) (.cancelling r reason answer) := by
 obtain ⟨hr, hh, hs⟩ := hp
 exact ⟨h.dropReceiver hr.made, ⟨hr, hh, update_self ..,
  fun a ha => ⟨(hs a ha).delivered, (hs a ha).closed⟩⟩,
  fun u s hne hs => leaves_dropReceiver (ne_of_owns hr hs hne)⟩

theorem cancels {reason : String} {answer : Option (Answer V)}
 (hp : c.Stands t (.cancelling r reason answer)) :
 Stepped o c t (c.sendCancel r reason) (ended r answer) := by
 obtain ⟨hr, hh, hc, hs⟩ := hp
 have hstands : (c.sendCancel r reason).Stands t (ended r answer) := by
  cases answer with
  | none => trivial
  | some a =>
   have ha := hs a rfl
   unfold Connection.sendCancel
   split
   all_goals exact ⟨⟨ha.delivered, ha.closed⟩, r, rfl, hr⟩
 refine ⟨h.sendCancel hh hc reason, hstands, fun u s hne hs => ?_⟩
 have hid := ne_of_owns hr hs hne
 unfold Connection.sendCancel
 split
 · exact { (Leaves.refl : Leaves c c s.id) with
    held := mem_erase_of_ne hid
    waits := fun _ _ hin => hin }
 · exact { (Leaves.refl : Leaves c c s.id) with
    held := mem_erase_of_ne hid
    cancels := fun hm => by
     rw [cancelIds, map_append, mem_append] at hm
     exact hm.resolve_right fun hm => hid (mem_singleton.mp hm)
    waits := fun _ _ hin => hin }

theorem releases (hp : c.Stands t (.releasing r answer)) :
 Stepped o c t { c.dropReceiver r.id with free := c.free + 1, held := c.held.erase r.id }
  (.returned r.id answer) := by
 obtain ⟨hr, hh, hoff, ha⟩ := hp
 have hk : r.id ∉ c.keys := by
  intro hk
  rcases hoff with ⟨a, hs⟩ | hn
  · rcases h.unanswered r.id (.inl hk) with hw | hw
    all_goals exact absurd (hs.symm.trans hw) (by simp)
  · exact hn (mem_append_right _ (h.carried r.id hk))
 refine ⟨(h.dropReceiver hr.made).release hh hk (update_self ..),
  ⟨⟨ha.delivered, ha.closed⟩, r, rfl, hr⟩, fun u s hne hs => ?_⟩
 have hid := ne_of_owns hr hs hne
 exact { (leaves_dropReceiver hid : Leaves c _ s.id) with held := mem_erase_of_ne hid }

theorem notifies (hn : c.notifying o choice = some (c', p')) : Stepped o c t c' p' := by
 cases choice with
 | go =>
  simp only [notifying] at hn
  split at hn
  · cases hn
    exact h.stays trivial
  rename_i hopen
  split at hn
  · cases hn
    refine ⟨h.send (Bool.eq_false_iff.mpr hopen) (by simp), trivial, fun u s hne hs => ?_⟩
    exact @leaves_send _ _ s.id _ (s.id + 1) (by simp [request?]) (by omega)
  · simp at hn
 | timeout => simp [notifying] at hn
 | drop =>
  cases hn
  exact h.stays trivial

/-- **Every step of a caller** keeps the invariant and where every caller stands. -/
theorem next {p : Place V} (hp : c.Stands t p) (hn : c.next o t p choice = some (c', p')) :
 Stepped o c t c' p' := by
 cases p with
 | entry call =>
  cases choice with
  | go =>
   obtain ⟨rfl, rfl⟩ := Prod.mk.inj (Option.some.inj hn)
   exact h.begins call
  | timeout => simp [Connection.next] at hn
  | drop =>
   cases hn
   exact h.stays trivial
 | acquire r => exact h.acquires hp hn
 | sending r => exact h.sends hp hn
 | waiting r => exact h.waits hp hn
 | dropping r reason answer =>
  cases hn
  exact h.drops hp
 | cancelling r reason answer =>
  cases hn
  exact h.cancels hp
 | releasing r answer =>
  cases hn
  exact h.releases hp
 | notifying => exact h.notifies hn
 | _ => simp [Connection.next] at hn

end Sound

theorem keeps (o : Options) : (client o : Interleave.Program (Connection V) (Place V) Choice
 (Signal V)).Keeps (Sound o) Stands where
 next h hp hn := ⟨(h.next hp hn).sound, (h.next hp hn).stands⟩
 others h hp hn := fun hne hq => hq.leaves fun r hr => (h.next hp hn).others _ r hne hr
 spawn := fun {_ _ p} _ he => by cases p <;> trivial
 act h e := ⟨h.act e, fun hq => hq.leaves fun r _ => h.leaves_act e⟩

end Connection

end Bake.Mcp
