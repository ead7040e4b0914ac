import Bake.Permissions.BrokerRuns
import Bake.Lib.Tables

/-!
# What the listener sees

A caller that changed the queue announces it, or leaves that to the caller already
announcing. One task at most is past the first section of `announce`, so one listener call
runs at a time. What was shown last is the queue, unless a task is still to look at it:
before its first section of `announce`, before a snapshot, or in a listener call behind
which it finds the queue changed.
-/

namespace Bake.Permissions

open Interleave Broker
open List (append_assoc append_nil cons_append countP_append countP_pos_iff countP_set foldl_cons
 getElem?_set_ne getElem?_set_self mem_append mem_append_left mem_iff_getElem? mem_of_getElem?
 mem_or_eq_of_mem_set mem_singleton nil_sublist reverseRecOn singleton_append)

variable {s s' : Broker} {p p' : Place} {k : Choice} {c : Config Broker Place} {t : Nat}
 {shown shown' : List (List ApprovalPrompt)}

/-- `pending`: the queue, oldest first. -/
def Broker.pending (s : Broker) : List ApprovalPrompt := s.queue.map Waiting.prompt

/-- The snapshot a section that leads from one place to another gives the listener. -/
def Place.shows : Place → Place → Option (List ApprovalPrompt)
 | .snapshot _, .listening prompts _ => some prompts
 | _, _ => none

/-- The snapshot an input gives the listener, if it starts a call of it. -/
def shownBy (c : Config Broker Place) : Input Place Choice Event → Option (List ApprovalPrompt)
 | .run t choice => do
  let place ← c.tasks[t]?
  let (_, next) ← brokerProgram.next c.shared t place choice
  place.shows next
 | _ => none

/-- The snapshots the listener is given, in the order of its calls. -/
def shownFrom (c : Config Broker Place) :
 List (Input Place Choice Event) → List (List ApprovalPrompt)
 | [] => []
 | i :: rest => (shownBy c i).toList ++ shownFrom (brokerProgram.step c i) rest

def queuesFrom (c : Config Broker Place) :
 List (Input Place Choice Event) → List (List ApprovalPrompt)
 | [] => [c.shared.pending]
 | i :: rest => c.shared.pending :: queuesFrom (brokerProgram.step c i) rest

/-- Not inside `announce`. -/
def Place.outside : Place → Bool
 | .announce _ | .snapshot _ | .listening .. => false
 | _ => true

/-- Past the first section of `announce`. -/
def Place.announces : Place → Bool
 | .snapshot _ | .listening .. => true
 | _ => false

/-- `announce` is called from outside it. -/
def Place.Calm : Place → Prop
 | .announce next | .snapshot next | .listening _ next => next.outside
 | _ => True

/-- The task looks at the queue again. -/
def Place.Due (changed : Bool) : Place → Prop
 | .announce _ | .snapshot _ => True
 | .listening .. => changed
 | _ => False

theorem outside_cases (h : p.outside) :
 p.Calm ∧ p.announces = false ∧ ∀ changed, ¬p.Due changed := by
 cases p <;> simp_all [Place.outside, Place.Calm, Place.announces, Place.Due]

theorem shows_outside (h : p.outside ∨ p'.outside) : p.shows p' = none := by
 unfold Place.shows
 split
 · simp [Place.outside] at h
 · rfl

/-! ## The sections -/

theorem send_eq (s : Broker) (g : Nat) (o : EscalationOutcome) :
 s.send g o = { s with sent := (s.send g o).sent } := by
 unfold send
 split <;> rfl

theorem cancelAll_eq (s : Broker) :
 s.cancelAll = { s with queue := [], sent := s.cancelAll.sent } := by
 have hall : ∀ (queue : List Waiting) (s : Broker),
  queue.foldl (fun s w => s.send w.prompt.generation .cancelled) s = { s with sent :=
       (queue.foldl (fun s w => s.send w.prompt.generation .cancelled) s).sent } := by
  intro queue
  induction queue with
  | nil => exact fun _ => rfl
  | cons w queue ih =>
   intro s
   rw [foldl_cons, ih, send_eq]
 exact hall s.queue { s with queue := [] }

theorem close_eq (s : Broker) :
 s.close = { s with queue := [], sent := s.cancelAll.sent, phase := .closed } := by
 rw [close, cancelAll_eq]

theorem answer_eq {g : Nat} {a : ApprovalAnswer} {settled : Bool}
 (h : s.answer g a = some (s', settled)) :
 ∃ rest sent, s' = { s with queue := rest, sent } := by
 unfold answer at h
 split at h
 · cases h
 split at h
 · cases h
 split at h <;> cases h
 all_goals exact ⟨_, _, send_eq ..⟩

/-- What a section outside `announce` does: it changes nothing the listener is shown, or
leaves the broker not open, or its task goes on to `announce`. -/
structure Quiet (s s' : Broker) (p' : Place) : Prop where
 announcing : s'.announcing = s.announcing
 changed : s'.changed = s.changed
 closed : s.phase = .closed → s'.phase = .closed
 leads : (∃ next, p' = .announce next ∧ next.outside)
  ∨ (p'.outside ∧ (s'.phase = .open → s'.gone = false →
   s.phase = .open ∧ s.gone = false ∧ s'.pending = s.pending))

theorem Quiet.keeps {hungUp : Nat → Bool} (hp : p'.outside) : Quiet s { s with hungUp } p' :=
 ⟨rfl, rfl, id, .inr ⟨hp, fun hopen hgone => ⟨hopen, hgone, rfl⟩⟩⟩

theorem Quiet.calls {queue : List Waiting} {last : Nat} {sent : Nat → Option EscalationOutcome}
 {next : Place} (hnext : next.outside) :
 Quiet s { s with queue, last, sent } (.announce next) :=
 ⟨rfl, rfl, id, .inl ⟨next, rfl, hnext⟩⟩

theorem future_quiet (hn : s.futureNext p k = some (s', p')) : Quiet s s' p' := by
 unfold futureNext at hn
 split at hn
 · split at hn <;> cases hn
   all_goals exact .keeps rfl
 · split at hn <;> cases hn
   all_goals exact .keeps rfl
 · split at hn
   · cases hn
     exact .keeps rfl
   · split at hn <;> cases hn
     all_goals exact .keeps rfl
 · cases hn
   exact .keeps rfl
 · split at hn
   · cases hn
     exact .keeps rfl
   · unfold withdraw at hn
     split at hn
     rename_i hwithdraw
     split at hwithdraw <;> cases hwithdraw <;> cases hn
     · exact .calls rfl
     · exact .keeps rfl
 · cases hn

theorem outside_next (hp : p.outside) (hn : brokerProgram.next s t p k = some (s', p')) :
 Quiet s s' p' := by
 simp only [brokerProgram] at hn
 split at hn
 · cases hn
 unfold next at hn
 split at hn
 · split at hn <;> cases hn
   · exact ⟨rfl, rfl, fun h => by simp_all, .inl ⟨_, rfl, rfl⟩⟩
   · exact .keeps rfl
 · split at hn <;> cases hn
   · exact .keeps rfl
   · obtain ⟨rest, sent, rfl⟩ := answer_eq ‹_›
     exact .calls rfl
 · cases hn
   rw [cancelAll_eq]
   exact .calls rfl
 · cases hn
   rw [close_eq]
   exact ⟨rfl, rfl, fun _ => rfl, .inr ⟨rfl, fun hopen => by cases hopen⟩⟩
 · split at hn <;> cases hn
   all_goals exact .keeps rfl
 · unfold push at hn
   split at hn
   · cases hn
     exact .keeps rfl
   next hpush =>
    split at hpush <;> cases hpush
    cases hn
    exact .calls rfl
 · simp [Place.outside] at hp
 · simp [Place.outside] at hp
 · simp [Place.outside] at hp
 · exact future_quiet hn
 · exact future_quiet hn
 · exact future_quiet hn
 · exact future_quiet hn
 · cases hn

/-- The sections of `announce`, with the places they lead to. -/
inductive Announces (s : Broker) : Place → Broker → Place → Prop
 | left (next : Place) : s.announcing →
  Announces s (.announce next) { s with changed := true } next
 | takes (next : Place) : s.announcing = false →
  Announces s (.announce next) { s with announcing := true } (.snapshot next)
 | shows (next : Place) : s.phase = .open →
  Announces s (.snapshot next) { s with changed := false } (.listening s.pending next)
 | stops (next : Place) : s.phase ≠ .open →
  Announces s (.snapshot next) { s with changed := false, announcing := false } next
 | again (snapshot : List ApprovalPrompt) (next : Place) (value : Bool) : s.changed →
  Announces s (.listening snapshot next) (if value then s else s.close) (.snapshot next)
 | ends (snapshot : List ApprovalPrompt) (next : Place) (value : Bool) : s.changed = false →
  Announces s (.listening snapshot next)
   { if value then s else s.close with announcing := false } next

theorem announces_of_next (hp : p.outside = false)
 (hn : brokerProgram.next s t p k = some (s', p')) : Announces s p s' p' := by
 simp only [brokerProgram] at hn
 split at hn
 · cases hn
 cases p with
 | announce next =>
  cases k with
  | go =>
   simp only [Broker.next, Broker.announceNext] at hn
   split at hn <;> cases hn
   · exact .left _ ‹_›
   · exact .takes _ (by simp_all)
  | _ => simp [Broker.next, Broker.announceNext] at hn
 | snapshot next =>
  cases k with
  | go =>
   simp only [Broker.next, Broker.announceNext] at hn
   split at hn <;> cases hn
   · exact .shows _ ‹_›
   · exact .stops _ ‹_›
  | _ => simp [Broker.next, Broker.announceNext] at hn
 | listening snapshot next =>
  cases k with
  | delivered value =>
   have hclose : s.close.changed = s.changed := by rw [close_eq]
   cases value <;>
    simp only [Broker.next, Broker.announceNext, Bool.false_eq_true, if_false, if_true] at hn <;>
    split at hn <;> rename_i hchanged <;> cases hn
   · exact .again snapshot _ false (hclose ▸ hchanged)
   · exact .ends snapshot _ false (by simpa [hclose] using hchanged)
   · exact .again snapshot _ true hchanged
   · exact .ends snapshot _ true (by simpa using hchanged)
  | _ => simp [Broker.next, Broker.announceNext] at hn
 | _ => simp [Place.outside] at hp

/-! ## The tasks inside `announce` -/

structure Told (c : Config Broker Place) (shown : List (List ApprovalPrompt)) : Prop where
 calm : ∀ p ∈ c.tasks, p.Calm
 /-- The flag says whether a task announces, and there is one at most. -/
 count : c.tasks.countP Place.announces = c.shared.announcing.toNat
 heard : ∀ snapshot next, .listening snapshot next ∈ c.tasks → shown.getLast? = some snapshot
 told : c.shared.phase = .open → c.shared.gone = false → shown.getLast? = some c.shared.pending
   ∨ ∃ p ∈ c.tasks, p.Due c.shared.changed

theorem Told.one (h : Told c shown) {u : Nat} {q : Place} (ht : c.tasks[t]? = some p)
 (hu : c.tasks[u]? = some q) (hp : p.announces) (hq : q.announces) : t = u := by
 by_contra hne
 -- without the one task there is still the other
 have hlt := (List.getElem_of_getElem? ht).1
 have hother : 0 < (c.tasks.set t (.returned true)).countP Place.announces :=
  countP_pos_iff.mpr ⟨q, mem_of_getElem? ((getElem?_set_ne hne).trans hu), hq⟩
 have hcount := h.count
 have hget := (List.getElem_of_getElem? ht).2
 have hle := Bool.toNat_le c.shared.announcing
 rw [countP_set hlt, hget, if_pos hp] at hother
 simp [Place.announces] at hother
 omega

theorem Told.announcing (h : Told c shown) (ht : c.tasks[t]? = some p) (hp : p.announces) :
 c.shared.announcing = true := by
 have hpos : 0 < c.tasks.countP Place.announces := countP_pos_iff.mpr ⟨p, mem_of_getElem? ht, hp⟩
 rw [h.count] at hpos
 cases hflag : c.shared.announcing with
 | true => rfl
 | false => simp [hflag] at hpos

theorem Told.set (h : Told c shown) (ht : c.tasks[t]? = some p) (hcalm : p'.Calm)
 (hcount : s'.announcing.toNat + p.announces.toNat = c.shared.announcing.toNat + p'.announces.toNat)
 (hheard : ∀ snapshot next, p' = .listening snapshot next → shown'.getLast? = some snapshot)
 (hothers : shown' = shown ∨ p.announces)
 (htold : s'.phase = .open → s'.gone = false → shown'.getLast? = some s'.pending
  ∨ p'.Due s'.changed ∨ ∃ u q, u ≠ t ∧ c.tasks[u]? = some q ∧ q.Due s'.changed) :
 Told { shared := s', tasks := c.tasks.set t p' } shown' where
 calm q hq := by
  rcases mem_or_eq_of_mem_set hq with hq | rfl
  · exact h.calm q hq
  · exact hcalm
 count := by
  have hlt := (List.getElem_of_getElem? ht).1
  have hget := (List.getElem_of_getElem? ht).2
  have hpos : p.announces → 0 < c.tasks.countP Place.announces := fun hp =>
   countP_pos_iff.mpr ⟨p, mem_of_getElem? ht, hp⟩
  have hbefore := h.count
  rw [countP_set hlt, hget]
  cases hp : p.announces <;> cases hp' : p'.announces <;>
   simp only [hp, hp', Bool.toNat_true, Bool.toNat_false, forall_const] at hcount hpos <;>
   simp <;> omega
 heard snapshot next hmem := by
  obtain ⟨u, hu⟩ := mem_iff_getElem?.mp hmem
  rcases OrdMap.getElem?_set_some hu with ⟨-, rfl⟩ | ⟨hne, hu⟩
  · exact hheard snapshot next rfl
  · rcases hothers with rfl | hp
    · exact h.heard snapshot next (mem_of_getElem? hu)
    · exact absurd (h.one ht hu hp rfl) (fun he => hne he.symm)
 told hphase hgone := by
  have hlt := (List.getElem_of_getElem? ht).1
  rcases htold hphase hgone with hlast | hdue | ⟨u, q, hne, hu, hdue⟩
  · exact .inl hlast
  · exact .inr ⟨p', mem_of_getElem? (getElem?_set_self hlt), hdue⟩
  · exact .inr ⟨q, mem_of_getElem? ((getElem?_set_ne (Ne.symm hne)).trans hu), hdue⟩

/-- Who is due behind a section that shows nothing and is not due itself. -/
theorem Told.rest (h : Told c shown) (ht : c.tasks[t]? = some p) (hnot : ¬p.Due c.shared.changed)
 (hphase : c.shared.phase = .open) (hgone : c.shared.gone = false)
 (hpending : s'.pending = c.shared.pending) (hchanged : s'.changed = c.shared.changed) :
 shown.getLast? = some s'.pending ∨ p'.Due s'.changed
  ∨ ∃ u q, u ≠ t ∧ c.tasks[u]? = some q ∧ q.Due s'.changed := by
 rw [hpending, hchanged]
 rcases h.told hphase hgone with hlast | ⟨q, hq, hdue⟩
 · exact .inl hlast
 · obtain ⟨u, hu⟩ := mem_iff_getElem?.mp hq
   refine .inr (.inr ⟨u, q, fun he => hnot ?_, hu, hdue⟩)
   subst he
   cases ht.symm.trans hu
   exact hdue

/-! ## The run -/

theorem shownBy_run (ht : c.tasks[t]? = some p)
 (hn : brokerProgram.next c.shared t p k = some (s', p')) :
 shownBy c (.run t k) = p.shows p' := by
 simp [shownBy, ht, hn]

theorem Told.next (h : Told c shown) (ht : c.tasks[t]? = some p)
 (hn : brokerProgram.next c.shared t p k = some (s', p')) :
 Told { shared := s', tasks := c.tasks.set t p' } (shown ++ (shownBy c (.run t k)).toList) := by
 have hcalm := h.calm p (mem_of_getElem? ht)
 rw [shownBy_run ht hn]
 by_cases hp : p.outside
 · obtain ⟨-, hquiet, hdue⟩ := outside_cases hp
   obtain ⟨hannouncing, hchanged, -, hcase⟩ := outside_next hp hn
   rw [shows_outside (.inl hp), Option.toList_none, append_nil]
   rcases hcase with ⟨next, rfl, hnext⟩ | ⟨hp', hsame⟩
   · exact h.set ht hnext (by rw [hannouncing, hquiet]; rfl) (by simp) (.inl rfl)
      fun _ _ => .inr (.inl trivial)
   · obtain ⟨hcalm', hquiet', -⟩ := outside_cases hp'
     refine h.set ht hcalm' (by rw [hannouncing, hquiet, hquiet']) ?_ (.inl rfl) fun hphase hgone => ?_
     · rintro snapshot next rfl
       simp [Place.outside] at hp'
     · obtain ⟨hphase, hgone, hpending⟩ := hsame hphase hgone
       exact h.rest ht (hdue _) hphase hgone hpending hchanged
 cases announces_of_next (by simpa using hp) hn with
 | left next hannouncing =>
  -- another task announces, and will find the queue changed
  have hother : 0 < c.tasks.countP Place.announces := by rw [h.count, hannouncing]; decide
  obtain ⟨q, hq, hannounces⟩ := countP_pos_iff.mp hother
  obtain ⟨u, hu⟩ := mem_iff_getElem?.mp hq
  have hne : u ≠ t := fun he => by
   subst he
   cases ht.symm.trans hu
   simp [Place.announces] at hannounces
  have hdue : q.Due true := by cases q <;> simp_all [Place.announces, Place.Due]
  obtain ⟨hcalm', hquiet, -⟩ := outside_cases hcalm
  change Told _ (shown ++ [])
  rw [append_nil]
  refine h.set ht hcalm' (by rw [hquiet]; rfl) ?_ (.inl rfl) fun _ _ =>
   .inr (.inr ⟨u, q, hne, hu, hdue⟩)
  rintro snapshot next rfl
  simp [Place.Calm, Place.outside] at hcalm
 | takes next hannouncing => 
  change Told _ (shown ++ [])
  rw [append_nil]
  exact h.set ht hcalm (by rw [hannouncing]; rfl) (by simp) (.inl rfl) fun _ _ => .inr (.inl trivial)
 | shows next hphase => 
  refine h.set ht hcalm rfl ?_ (.inr rfl) fun _ _ => .inl ?_
  · rintro snapshot next ⟨⟩
    simp [Place.shows]
  · simp [Place.shows, pending]
 | stops next hphase => 
  obtain ⟨hcalm', hquiet, -⟩ := outside_cases hcalm
  rw [shows_outside (.inr hcalm), Option.toList_none, append_nil]
  refine h.set ht hcalm' (by rw [hquiet, h.announcing ht rfl]; rfl) ?_ (.inl rfl)
   fun hopen => absurd hopen hphase
  rintro snapshot next rfl
  simp [Place.Calm, Place.outside] at hcalm
 | again snapshot next value hchanged =>
  change Told _ (shown ++ [])
  rw [append_nil]
  refine h.set ht hcalm ?_ (by simp) (.inl rfl) fun _ _ => .inr (.inl trivial)
  cases value
  · rw [if_neg (by decide), close_eq]
    rfl
  · rfl
 | ends snapshot next value hchanged =>
  change Told _ (shown ++ [])
  rw [append_nil]
  obtain ⟨hcalm', hquiet, -⟩ := outside_cases hcalm
  refine h.set ht hcalm' (by rw [hquiet, h.announcing ht rfl]; rfl) ?_ (.inl rfl) ?_
  · rintro snapshot next rfl
    simp [Place.Calm, Place.outside] at hcalm
  · cases value with
    | false =>
     rw [if_neg (by decide), close_eq]
     exact fun hopen => by cases hopen
    | true =>
     exact fun hopen hgone => h.rest ht (by simp [Place.Due, hchanged]) hopen hgone rfl rfl

theorem step_run (ht : c.tasks[t]? = some p)
 (hn : brokerProgram.next c.shared t p k = some (s', p')) :
 brokerProgram.step c (.run t k) = { shared := s', tasks := c.tasks.set t p' } := by
 simp [Program.step, ht, hn]

theorem Told.step (h : Told c shown) (i : Input Place Choice Event) :
 Told (brokerProgram.step c i) (shown ++ (shownBy c i).toList) := by
 cases i with
 | spawn place =>
  change Told _ (shown ++ [])
  rw [append_nil, Program.step]
  split
  next hentry =>
   have hplace : place.outside := by cases place <;> simp_all [brokerProgram, Place.entry, Place.outside]
   obtain ⟨hcalm, hquiet, -⟩ := outside_cases hplace
   refine ⟨fun p hp => ?_, ?_, fun snapshot next hmem => ?_, fun hphase hgone => ?_⟩
   · rcases mem_append.mp hp with hp | hp
     · exact h.calm p hp
     · exact mem_singleton.mp hp ▸ hcalm
   · rw [countP_append, h.count]
     simp [hquiet]
   · rcases mem_append.mp hmem with hmem | hmem
     · exact h.heard snapshot next hmem
     · cases mem_singleton.mp hmem
       simp [Place.outside] at hplace
   · exact (h.told hphase hgone).imp_right (Exists.imp fun p => And.imp_left (mem_append_left _))
  · exact h
 | run t k =>
  cases ht : c.tasks[t]? with
  | none => simpa [Program.step, shownBy, ht] using h
  | some p =>
   cases hn : brokerProgram.next c.shared t p k with
   | none => simpa [Program.step, shownBy, ht, hn] using h
   | some next =>
    rw [step_run ht hn]
    exact h.next ht hn
 | act e =>
  change Told _ (shown ++ [])
  rw [append_nil]
  cases e with
  | abort signal => exact ⟨h.calm, h.count, h.heard, h.told⟩
  | dropBroker => exact ⟨h.calm, h.count, h.heard, fun _ hgone => by cases hgone⟩

theorem shownFrom_concat (c : Config Broker Place) (inputs : List (Input Place Choice Event))
 (i : Input Place Choice Event) : shownFrom c (inputs ++ [i])
  = shownFrom c inputs ++ (shownBy (Run.final brokerProgram.step c inputs) i).toList := by
 induction inputs generalizing c with
 | nil => simp [shownFrom, Run.final]
 | cons j rest ih =>
  rw [cons_append, shownFrom, shownFrom, ih, append_assoc]
  rfl

def fresh (aborted : Nat → Bool) : Config Broker Place :=
 { shared := new aborted, tasks := [] }

theorem told_after (aborted : Nat → Bool) (inputs : List (Input Place Choice Event)) :
 Told (after aborted inputs) (shownFrom (fresh aborted) inputs) := by
 induction inputs using reverseRecOn with
 | nil => exact ⟨by simp [after, Program.run, Run.final], rfl, by simp [after, Program.run, Run.final],
  fun hopen => by cases hopen⟩
 | append_singleton inputs i ih =>
  rw [after_snoc, shownFrom_concat]
  exact ih.step i

theorem Told.shows (h : Told c shown) {i : Input Place Choice Event} {prompts : List ApprovalPrompt}
 (hshown : shownBy c i = some prompts) : prompts = c.shared.pending := by
 cases i with
 | run t k =>
  obtain ⟨p, ht, hshown⟩ := Option.bind_eq_some_iff.mp hshown
  obtain ⟨⟨s', p'⟩, hn, hshown⟩ := Option.bind_eq_some_iff.mp hshown
  have hcalm := h.calm p (mem_of_getElem? ht)
  by_cases hp : p.outside
  · simp [shows_outside (.inl hp)] at hshown
  · cases announces_of_next (by simpa using hp) hn with
    | shows next _ => exact (Option.some.inj hshown).symm
    | stops next _ => simp [shows_outside (.inr hcalm)] at hshown
    | _ => cases hshown
 | _ => cases hshown

theorem Told.sublist (h : Told c shown) (inputs : List (Input Place Choice Event)) :
 (shownFrom c inputs).Sublist (queuesFrom c inputs) := by
 induction inputs generalizing c shown with
 | nil => exact nil_sublist _
 | cons i rest ih =>
  rw [shownFrom, queuesFrom]
  cases hshown : shownBy c i with
  | none => exact (ih (h.step i)).cons _
  | some prompts => exact h.shows hshown ▸ (ih (h.step i)).cons_cons _

theorem closed_step (i : Input Place Choice Event) (h : c.shared.phase = .closed) :
 (brokerProgram.step c i).shared.phase = .closed := by
 rcases brokerProgram.step_cases c i with heq | ⟨p, -, heq⟩ | ⟨t, p, k, s', p', -, hn, heq⟩ | ⟨e, heq⟩ <;>
  rw [heq]
 · exact h
 · exact h
 · by_cases hp : p.outside
   · exact (outside_next hp hn).closed h
   · cases announces_of_next (by simpa using hp) hn with
     | shows next hopen => simp [h] at hopen
     | again snapshot next value _ | ends snapshot next value _ =>
      cases value
      · rw [if_neg (by decide), close_eq]
      · exact h
     | _ => exact h
 · cases e <;> exact h

theorem closed_after {aborted : Nat → Bool} {inputs : List (Input Place Choice Event)}
 (h : (after aborted inputs).shared.phase = .closed) (more : List (Input Place Choice Event)) :
 (after aborted (inputs ++ more)).shared.phase = .closed
  ∧ (after aborted (inputs ++ more)).shared.queue = [] := by
 have hclosed : (after aborted (inputs ++ more)).shared.phase = .closed := by
  induction more using reverseRecOn with
  | nil => rwa [append_nil]
  | append_singleton more i ih =>
   rw [← append_assoc, after_snoc]
   exact closed_step i ih
 refine ⟨hclosed, ?_⟩
 by_contra hne
 have hopen := (after_holds aborted (inputs ++ more)).1.connected hne
 simp [hclosed] at hopen

/-- **The listener sees the queue in order and to its end**, in every run: one call of it at
a time, with the snapshot shown last; the snapshots are queues there were, in their order;
while the broker is open and nobody is inside `announce`, the last of them is the queue.
Behind a call that fails the broker is closed for good, with an empty queue. -/
theorem listener_told (aborted : Nat → Bool) (inputs : List (Input Place Choice Event)) :
 let c := after aborted inputs
 let shown := shownFrom (fresh aborted) inputs
 (∀ (t u : Nat) (prompts prompts' : List ApprovalPrompt) (next next' : Place),
  c.tasks[t]? = some (.listening prompts next) →
  c.tasks[u]? = some (.listening prompts' next') → t = u)
  ∧ (∀ prompts next, .listening prompts next ∈ c.tasks → shown.getLast? = some prompts)
  ∧ shown.Sublist (queuesFrom (fresh aborted) inputs)
  ∧ (c.shared.phase = .open → c.shared.gone = false → (∀ p ∈ c.tasks, p.outside) →
   shown.getLast? = some c.shared.pending)
  ∧ ∀ (t : Nat) (prompts : List ApprovalPrompt) (next : Place),
   c.tasks[t]? = some (.listening prompts next) → c.shared.gone = false →
   ∀ more, let c' := after aborted (inputs ++ .run t (.delivered false) :: more)
    c'.shared.phase = .closed ∧ c'.shared.queue = [] := by
 intro c shown
 have h := told_after aborted inputs
 refine ⟨fun t u _ _ _ _ ht hu => h.one ht hu rfl rfl, h.heard, (told_after aborted []).sublist inputs, ?_, ?_⟩
 · intro hopen hgone hall
   refine (h.told hopen hgone).resolve_right fun ⟨p, hp, hdue⟩ => ?_
   exact (outside_cases (hall p hp)).2.2 _ hdue
 intro t prompts next ht hgone more
 have hnext : ∃ s p, brokerProgram.next c.shared t (.listening prompts next) (.delivered false)
  = some (s, p) ∧ s.phase = .closed := by
  simp only [brokerProgram, hgone, Bool.false_and, Bool.false_eq_true, if_false, Broker.next,
   Broker.announceNext]
  split
  all_goals exact ⟨_, _, rfl, by rw [close_eq]⟩
 obtain ⟨s, p, hn, hphase⟩ := hnext
 have hclosed : (after aborted (inputs ++ [.run t (.delivered false)])).shared.phase = .closed := by
  rw [after_snoc, step_run ht hn]
  exact hphase
 have := closed_after hclosed more
 rwa [append_assoc, singleton_append] at this

end Bake.Permissions
