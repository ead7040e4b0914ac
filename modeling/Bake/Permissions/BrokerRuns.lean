import Bake.Permissions.Broker

/-!
# Every order of the broker's sections

What holds of the queue and of each request whatever the order: the queue is sorted by
generation and holds nobody who was answered, and a request's channel is written once. A
grant is traced back to the section that sent it and to the last look at the signal.
-/

open Or Interleave.Program Nat
open List (append_assoc append_nil eraseP_map erase_eq_eraseP' erase_sublist foldl_append
 getElem?_append_left getElem?_append_right getElem?_set_ne getElem?_set_self map_append map_cons
 map_eq_nil_iff mem_append mem_cons_of_mem mem_cons_self mem_of_getElem? mem_singleton
 pairwise_append pairwise_cons sublist_cons_self sublist_nil)

namespace Bake.Permissions

open Broker (new send)

/-! ## What a task's place says -/

/-- The generation of the request a task waits for. -/
def Place.generation : Place → Option Nat
 | .idle g _ | .channel g _ | .check g _ _ | .leave g _ _ | .departed g _ _ => some g
 | .announce next | .snapshot next | .listening _ next => next.generation
 | _ => none

def Place.signal : Place → Option (Option Nat)
 | .request _ cancel | .push _ cancel => some cancel
 | .idle _ cancel | .channel _ cancel | .check _ cancel _ | .leave _ cancel _
 | .departed _ cancel _ => some cancel
 | .announce next | .snapshot next | .listening _ next => next.signal
 | _ => none

/-- The outcome of a future, fixed by the last look of the poll that completes it. -/
def Place.outcome : Place → Option EscalationOutcome
 | .leave _ _ outcome | .departed _ _ outcome => outcome
 | .ready outcome => some outcome
 | .announce next | .snapshot next | .listening _ next => next.outcome
 | _ => none

def Place.Dropped : Place → Prop
 | .leave _ _ outcome | .departed _ _ outcome => outcome = none
 | .announce next | .snapshot next | .listening _ next => next.Dropped
 | _ => False

/-- The future of the request of a generation is over: it has returned, or was dropped. -/
def Place.IsOver (generation : Nat) : Place → Prop
 | .departed g _ _ => g = generation
 | .announce next | .snapshot next | .listening _ next => next.IsOver generation
 | _ => False

/-! ## The queue and the channels -/

structure Queued (s : Broker) : Prop where
 sorted : s.generations.Pairwise (· < ·)
 handedOut : ∀ g ∈ s.generations, g ≤ s.last
 waiting : ∀ g ∈ s.generations, s.sent g = none
 connected : s.queue ≠ [] → s.phase = .open
 unsent : ∀ g, s.last < g → s.sent g = none
 gone : s.gone = true → s.queue = []

/-- One state of the broker behind another: nobody comes back to the queue, and what was
sent stays so. -/
structure Later (s s' : Broker) : Prop where
 last : s.last ≤ s'.last
 queue : ∀ g ≤ s.last, g ∈ s'.generations → g ∈ s.generations
 sent : ∀ g o, s.sent g = some o → s'.sent g = some o

theorem Later.refl (s : Broker) : Later s s := ⟨le_refl _, fun _ _ h => h, fun _ _ h => h⟩

def Place.Sound (s : Broker) : Place → Prop
 | .idle g _ | .channel g _ => g ≤ s.last
 | .check g _ o => g ≤ s.last ∧ (o = .cancelled ∨ s.sent g = some o)
 | .leave g _ outcome =>
  g ≤ s.last ∧ (outcome = some .allowedOnce → s.sent g = some .allowedOnce)
 | .departed g _ outcome =>
  g ≤ s.last ∧ (outcome = some .allowedOnce → s.sent g = some .allowedOnce) ∧ g ∉ s.generations
 | .announce next | .snapshot next | .listening _ next => next.Sound s
 | _ => True

variable {p p' : Place} {s s' : Broker} {g t : Nat} {k : Choice}
 {c : Interleave.Config Broker Place}

theorem Place.Sound.later (hl : Later s s') (h : p.Sound s) : p.Sound s' := by
 induction p with
 | idle g cancel | channel g cancel => exact le_trans h hl.last
 | check g cancel answer =>
  exact ⟨le_trans h.1 hl.last, h.2.imp id fun h => hl.sent _ _ h⟩
 | leave g cancel outcome =>
  exact ⟨le_trans h.1 hl.last, fun he => hl.sent _ _ (h.2 he)⟩
 | departed g cancel outcome =>
  exact ⟨le_trans h.1 hl.last, fun he => hl.sent _ _ (h.2.1 he),
   fun hmem => h.2.2 (hl.queue g h.1 hmem)⟩
 | announce next ih | snapshot next ih | listening shown next ih => exact ih h
 | _ => trivial

theorem Place.Sound.handedOut (h : p.Sound s) (hg : p.generation = some g) : g ≤ s.last := by
 induction p with
 | idle g' cancel | channel g' cancel => cases hg; exact h
 | check g' cancel answer | leave g' cancel outcome | departed g' cancel outcome =>
  cases hg; exact h.1
 | announce next ih | snapshot next ih | listening shown next ih => exact ih h hg
 | _ => simp [Place.generation] at hg

theorem Place.Sound.departed (h : p.Sound s) (hg : p.IsOver g) : g ∉ s.generations := by
 induction p with
 | departed g' cancel outcome => exact (show g' = g from hg) ▸ h.2.2
 | announce next ih | snapshot next ih | listening shown next ih => exact ih h hg
 | _ => simp [Place.IsOver] at hg

/-! ## The sections -/

theorem send_fields (s : Broker) (g : Nat) (o : EscalationOutcome) :
 (s.send g o).queue = s.queue ∧ (s.send g o).phase = s.phase ∧ (s.send g o).last = s.last
  ∧ (s.send g o).gone = s.gone ∧ ∀ g', g' ≠ g → (s.send g o).sent g' = s.sent g' := by
 unfold send
 split
 · exact ⟨rfl, rfl, rfl, rfl, fun _ _ => rfl⟩
 · exact ⟨rfl, rfl, rfl, rfl, fun g' hne => if_neg hne⟩

theorem send_sent (s : Broker) (g : Nat) (o : EscalationOutcome) :
 (s.send g o).sent g = s.sent g ∨ (s.send g o).sent g = some o := by
 unfold send
 split
 · exact inl rfl
 · exact inr (if_pos rfl)

/-- What becomes of a broker whose queue is settled: only queued requests are sent anything,
and that is `cancelled`. -/
theorem cancelAll_spec (s : Broker) :
 s.cancelAll.queue = [] ∧ s.cancelAll.phase = s.phase ∧ s.cancelAll.last = s.last
  ∧ ∀ g, s.cancelAll.sent g = s.sent g
   ∨ (g ∈ s.generations ∧ s.cancelAll.sent g = some .cancelled) := by
 have hall : ∀ (queue : List Waiting) (s : Broker),
  let s' := queue.foldl (fun s w => s.send w.prompt.generation .cancelled) s
  s'.queue = s.queue ∧ s'.phase = s.phase ∧ s'.last = s.last ∧ ∀ g, s'.sent g = s.sent g
    ∨ (g ∈ queue.map (fun w => w.prompt.generation) ∧ s'.sent g = some .cancelled) := by
  intro queue
  induction queue with
  | nil => exact fun s => ⟨rfl, rfl, rfl, fun _ => inl rfl⟩
  | cons w queue ih =>
   intro s
   obtain ⟨hqueue, hphase, hlast, -, hsent⟩ := send_fields s w.prompt.generation .cancelled
   obtain ⟨hq, hp, hl, hs⟩ := ih (s.send w.prompt.generation .cancelled)
   refine ⟨hq.trans hqueue, hp.trans hphase, hl.trans hlast, fun g => ?_⟩
   rcases hs g with h | ⟨hmem, h⟩
   · by_cases hg : g = w.prompt.generation
     · subst hg
       exact (send_sent s w.prompt.generation .cancelled).imp (h.trans ·) fun h' =>
        ⟨mem_cons_self .., h.trans h'⟩
     · exact inl (h.trans (hsent g hg))
   · exact inr ⟨mem_cons_of_mem _ hmem, h⟩
 exact hall s.queue { s with queue := [] }

section

variable (h : Queued s)

include h

theorem Queued.cancelAll : Queued s.cancelAll ∧ Later s s.cancelAll := by
 obtain ⟨hqueue, -, hlast, hsent⟩ := cancelAll_spec s
 have hnone : s.cancelAll.generations = [] := by rw [Broker.generations, hqueue]; rfl
 refine ⟨⟨?_, ?_, ?_, ?_, ?_, fun _ => hqueue⟩, ⟨le_of_eq hlast.symm, ?_, ?_⟩⟩
 · rw [hnone]
   exact .nil
 · simp [hnone]
 · simp [hnone]
 · exact fun hne => absurd hqueue hne
 · intro g hg
   rw [hlast] at hg
   rcases hsent g with h' | ⟨hmem, -⟩
   · rw [h', h.unsent g hg]
   · exact absurd (h.handedOut g hmem) (by omega)
 · simp [hnone]
 · intro g o hs
   rcases hsent g with h' | ⟨hmem, -⟩
   · rw [h', hs]
   · exact absurd (h.waiting g hmem) (by rw [hs]; simp)

theorem Queued.close : Queued s.close ∧ Later s s.close := by
 obtain ⟨hq, hl⟩ := h.cancelAll
 have hqueue := (cancelAll_spec s).1
 exact ⟨⟨hq.sorted, hq.handedOut, hq.waiting, fun hne => absurd hqueue hne, hq.unsent,
  fun _ => hqueue⟩, ⟨hl.last, hl.queue, hl.sent⟩⟩

theorem Queued.shorter
 (hqueue : s'.generations.Sublist s.generations) (hphase : s'.phase = s.phase)
 (hgone : s'.gone = s.gone) (hlast : s'.last = s.last)
 (hsent : ∀ g ∈ s'.generations, s'.sent g = s.sent g)
 (hunsent : ∀ g, s.last < g → s'.sent g = s.sent g)
 (hkept : ∀ g o, s.sent g = some o → s'.sent g = some o) : Queued s' ∧ Later s s' := by
 have hnil : s.queue = [] → s'.queue = [] := by
  intro hnil
  have hnone : s.generations = [] := by rw [Broker.generations, hnil]; rfl
  rw [hnone] at hqueue
  exact map_eq_nil_iff.mp (sublist_nil.mp hqueue)
 refine ⟨⟨h.sorted.sublist hqueue, fun g hg => ?_, fun g hg => ?_, fun hne => ?_, fun g hg => ?_,
  fun hg => hnil (h.gone (hgone ▸ hg))⟩, ⟨le_of_eq hlast.symm, fun g _ hg => hqueue.subset hg, hkept⟩⟩
 · rw [hlast]
   exact h.handedOut g (hqueue.subset hg)
 · rw [hsent g hg]
   exact h.waiting g (hqueue.subset hg)
 · rw [hphase]
   exact h.connected fun h => hne (hnil h)
 · rw [hlast] at hg
   rw [hunsent g hg, h.unsent g hg]

/-- **An answer settles the front of the queue alone**, and only one that names it. -/
theorem Queued.answer {a : ApprovalAnswer} {settled : Bool}
 (ha : s.answer g a = some (s', settled)) :
 Queued s' ∧ Later s s' ∧ s.generations.head? = some g ∧ s.phase = .open
  ∧ (∀ g', g' ≠ g → s'.sent g' = s.sent g')
  ∧ (s'.sent g = some .allowedOnce → a = .allowOnce) := by
 unfold Broker.answer at ha
 split at ha
 · simp at ha
 next front rest hqueue =>
  split at ha
  · simp at ha
  next hg =>
   rw [ne_eq, not_not] at hg
   have hgens : s.generations = g :: rest.map (fun w => w.prompt.generation) := by
    rw [Broker.generations, hqueue, map_cons, hg]
   have hmem : g ∈ s.generations := by rw [hgens]; exact mem_cons_self ..
   have hsorted := h.sorted
   rw [hgens, pairwise_cons] at hsorted
   -- the one send of this section, and what is sent
   obtain ⟨o, heq, hallow⟩ : ∃ o, s' = ({ s with queue := rest } : Broker).send g o
    ∧ (o = .allowedOnce → a = .allowOnce) := by
    dsimp only at ha
    split at ha
    · injection ha with ha
      injection ha with ha
      exact ⟨_, ha.symm, by simp⟩
    · injection ha with ha
      injection ha with ha
      refine ⟨_, ha.symm, fun he => ?_⟩
      cases a <;> first | rfl | simp [ApprovalAnswer.outcome] at he
   obtain ⟨hq, hp, hl, hgone, hs⟩ := send_fields { s with queue := rest } g o
   rw [← heq] at hq hp hl hgone hs
   have hrest : s'.generations = rest.map (fun w => w.prompt.generation) := by
    rw [Broker.generations, hq]
   obtain ⟨hqueued, hlater⟩ := h.shorter
    (by rw [hrest, hgens]; exact sublist_cons_self ..) hp hgone hl
    (fun g' hg' => hs g' (by
     rw [hrest] at hg'
     exact ne_of_gt (hsorted.1 g' hg')))
    (fun g' hg' => hs g' (by have := h.handedOut g hmem; omega))
    (fun g' o' hs' => by
     rw [hs g' (by rintro rfl; rw [h.waiting g' hmem] at hs'; exact absurd hs' (by simp))]
     exact hs')
   refine ⟨hqueued, hlater, by rw [hgens]; rfl, h.connected (by rw [hqueue]; simp),
    fun g' hg' => hs g' hg', fun hsent => ?_⟩
   have hwaiting : ({ s with queue := rest } : Broker).sent g = none := h.waiting g hmem
   rcases send_sent { s with queue := rest } g o with hs' | hs' <;> rw [← heq, hsent] at hs'
   · rw [hwaiting] at hs'
     simp at hs'
   · exact hallow (Option.some.inj hs').symm

theorem Queued.push {request : ApprovalRequest} {cancel : Option Nat}
 (hgone : s.gone = false) (hp : s.push request cancel = some (s', g)) :
 Queued s' ∧ Later s s' ∧ g = s.last + 1 ∧ s'.last = g ∧ s'.sent = s.sent := by
 unfold Broker.push at hp
 split at hp
 next hopen =>
  injection hp with hp
  cases hp
  have hgens : ∀ w : Waiting, (s.queue ++ [w]).map (fun w => w.prompt.generation)
   = s.generations ++ [w.prompt.generation] := by
   intro w
   rw [map_append]
   rfl
  refine ⟨⟨?_, ?_, ?_, ?_, ?_, fun hg => ?_⟩, ⟨le_succ _, ?_, fun _ _ h => h⟩, rfl, rfl, rfl⟩
  · rw [Broker.generations, hgens, pairwise_append]
    refine ⟨h.sorted, by simp, fun g hg g' hg' => ?_⟩
    obtain rfl : g' = s.last + 1 := by simpa using hg'
    exact lt_succ_of_le (h.handedOut g hg)
  · intro g hg
    rw [Broker.generations, hgens, mem_append] at hg
    rcases hg with hg | hg
    · exact le_succ_of_le (h.handedOut g hg)
    · obtain rfl : g = s.last + 1 := by simpa using hg
      exact le_refl _
  · intro g hg
    rw [Broker.generations, hgens, mem_append] at hg
    rcases hg with hg | hg
    · exact h.waiting g hg
    · obtain rfl : g = s.last + 1 := by simpa using hg
      exact h.unsent _ (lt_succ_self _)
  · exact fun _ => hopen.1
  · exact fun g hg => h.unsent g (lt_of_succ_lt hg)
  · exact absurd hg (by rw [hgone]; simp)
  · intro g hg hmem
    rw [Broker.generations, hgens, mem_append] at hmem
    rcases hmem with hmem | hmem
    · exact hmem
    · obtain rfl : g = s.last + 1 := by simpa using hmem
      exact absurd hg (by omega)
 · simp at hp

theorem Queued.withdraw (g : Nat) :
 Queued (s.withdraw g).1 ∧ Later s (s.withdraw g).1 ∧ g ∉ (s.withdraw g).1.generations
  ∧ (s.withdraw g).1.sent = s.sent ∧ (s.withdraw g).1.last = s.last := by
 unfold Broker.withdraw
 split
 · have hgens : (s.queue.eraseP fun w => w.prompt.generation == g).map
    (fun w => w.prompt.generation) = s.generations.erase g := by
    rw [Broker.generations, erase_eq_eraseP', eraseP_map]
    rfl
   obtain ⟨hq, hl⟩ := @Queued.shorter s
    { s with queue := s.queue.eraseP fun w => w.prompt.generation == g } h
    (by rw [Broker.generations, hgens]; exact erase_sublist) rfl rfl rfl
    (fun _ _ => rfl) (fun _ _ => rfl) (fun _ _ h => h)
   refine ⟨hq, hl, ?_, rfl, rfl⟩
   rw [Broker.generations, hgens]
   have hnodup : s.generations.Nodup := h.sorted.imp ne_of_lt
   exact hnodup.not_mem_erase
 next hnone =>
  exact ⟨h, .refl s, hnone, rfl, rfl⟩

/-! ## One section of one task -/

theorem Queued.same (hqueue : s'.queue = s.queue)
 (hphase : s.queue ≠ [] → s'.phase = .open) (hlast : s'.last = s.last)
 (hsent : s'.sent = s.sent) (hgone : s'.gone = s.gone) : Queued s' ∧ Later s s' := by
 have hgens : s'.generations = s.generations := by rw [Broker.generations, hqueue]; rfl
 constructor
 · constructor
   · rw [hgens]
     exact h.sorted
   · rw [hgens, hlast]
     exact h.handedOut
   · rw [hgens, hsent]
     exact h.waiting
   · rw [hqueue]
     exact hphase
   · rw [hlast, hsent]
     exact h.unsent
   · rw [hgone, hqueue]
     exact h.gone
 · exact ⟨le_of_eq hlast.symm, fun g _ hg => hgens ▸ hg, fun g o ho => by rw [hsent]; exact ho⟩

end

/-- What a section of a task does: the queue stays in order, and what the task's place says
of its request stays true. A channel that grants is written by an answer to the front of the
queue; a future's outcome is fixed at its last look at the signal. -/
structure Stepped (s : Broker) (p : Place) (k : Choice) (s' : Broker) (p' : Place) : Prop where
 queued : Queued s'
 later : Later s s'
 sound : p'.Sound s'
 /-- A task goes on with its own request, and a new one has a generation of its own. -/
 generation : p'.generation = p.generation
  ∨ (p.generation = none ∧ p'.generation = some (s.last + 1) ∧ s'.last = s.last + 1)
 signal : ∀ cancel, p'.signal = some cancel → p.signal = some cancel
 granted : ∀ g, s'.sent g = some .allowedOnce → s.sent g = some .allowedOnce
  ∨ (p = .answer g .allowOnce ∧ k = .go ∧ s.generations.head? = some g ∧ s.phase = .open)
 kept : ∀ o, p.outcome = some o → p'.outcome = some o
 decided : p'.outcome = some .allowedOnce → p.outcome = some .allowedOnce
  ∨ ∃ g cancel, p = .check g cancel .allowedOnce ∧ k = .go ∧ s.fired cancel = false
 dropped : p'.Dropped → p.Dropped ∨ ∃ hangsUp, k = .drop hangsUp

theorem Stepped.quiet (h : Queued s' ∧ Later s s') (hsound : p'.Sound s')
 (hgeneration : p'.generation = p.generation)
 (hsignal : ∀ cancel, p'.signal = some cancel → p.signal = some cancel)
 (hgranted : ∀ g, s'.sent g = some .allowedOnce → s.sent g = some .allowedOnce)
 (houtcome : p'.outcome = p.outcome)
 (hdropped : p'.Dropped → p.Dropped ∨ ∃ hangsUp, k = .drop hangsUp) : Stepped s p k s' p' where
 queued := h.1
 later := h.2
 sound := hsound
 generation := inl hgeneration
 signal := hsignal
 granted g hg := inl (hgranted g hg)
 kept _ ho := houtcome.trans ho
 decided ho := inl (houtcome.symm.trans ho)
 dropped := hdropped

theorem cancelAll_granted (h : s.cancelAll.sent g = some .allowedOnce) :
 s.sent g = some .allowedOnce := by
 rcases (cancelAll_spec s).2.2.2 g with h' | ⟨-, h'⟩
 · rw [← h', h]
 · rw [h'] at h
   simp at h

section

variable (h : Queued s)

include h

theorem announceNext_stepped (hp : p.Sound s)
 (hn : s.announceNext p k = some (s', p')) : Stepped s p k s' p' := by
 unfold Broker.announceNext at hn
 split at hn
 next next =>
  split at hn <;> obtain ⟨rfl, rfl⟩ := hn
  · have hsame := @Queued.same s { s with changed := true } h rfl h.connected rfl rfl rfl
    exact .quiet hsame (Place.Sound.later hsame.2 hp) rfl (fun _ h => h) (fun _ h => h) rfl inl
  · have hsame := @Queued.same s { s with announcing := true } h rfl h.connected rfl rfl rfl
    exact .quiet hsame (Place.Sound.later hsame.2 hp) rfl (fun _ h => h) (fun _ h => h) rfl inl
 next next =>
  split at hn <;> obtain ⟨rfl, rfl⟩ := hn
  · have hsame := @Queued.same s { s with changed := false } h rfl h.connected rfl rfl rfl
    exact .quiet hsame (Place.Sound.later hsame.2 hp) rfl (fun _ h => h) (fun _ h => h) rfl inl
  · have hsame := @Queued.same s { s with changed := false, announcing := false } h rfl
     h.connected rfl rfl rfl
    exact .quiet hsame (Place.Sound.later hsame.2 hp) rfl (fun _ h => h) (fun _ h => h) rfl inl
 next shown next value =>
  -- the listener has answered, and closes the broker or not
  obtain ⟨s1, hs1, hkept, hgranted⟩ : ∃ s1, s1 = (if value then s else s.close)
   ∧ (Queued s1 ∧ Later s s1)
   ∧ ∀ g, s1.sent g = some .allowedOnce → s.sent g = some .allowedOnce := by
   refine ⟨_, rfl, ?_⟩
   split
   · exact ⟨⟨h, .refl s⟩, fun _ h => h⟩
   · exact ⟨h.close, fun g hg => cancelAll_granted hg⟩
  dsimp only at hn
  rw [← hs1] at hn
  split at hn <;> obtain ⟨rfl, rfl⟩ := hn
  · exact .quiet hkept (Place.Sound.later hkept.2 hp) rfl (fun _ h => h) hgranted rfl inl
  · have hsame := @Queued.same s1 { s1 with announcing := false } hkept.1 rfl
     hkept.1.connected rfl rfl rfl
    have hlater : Later s { s1 with announcing := false } :=
     ⟨hkept.2.last, hkept.2.queue, hkept.2.sent⟩
    exact .quiet ⟨hsame.1, hlater⟩ (Place.Sound.later hlater hp) rfl (fun _ h => h) hgranted rfl inl
 · simp at hn

theorem Queued.hangUp (g : Nat) :
 Queued (s.hangUp g) ∧ Later s (s.hangUp g) := h.same rfl h.connected rfl rfl rfl

theorem futureNext_stepped (hp : p.Sound s) (hn : s.futureNext p k = some (s', p')) :
 Stepped s p k s' p' := by
 unfold Broker.futureNext at hn
 split at hn
 next g cancel hangsUp =>
  obtain ⟨rfl, rfl⟩ := hn
  have hkept : Queued (if hangsUp then s.hangUp g else s)
   ∧ Later s (if hangsUp then s.hangUp g else s) := by
   split
   · exact h.hangUp g
   · exact ⟨h, .refl s⟩
  refine .quiet hkept ⟨?_, by simp⟩ rfl (fun _ h => h) (fun g' hg' => ?_) rfl
   (fun _ => inr ⟨hangsUp, rfl⟩)
  · exact le_trans (show g ≤ s.last from hp) hkept.2.last
  · split at hg' <;> exact hg'
 next g cancel =>
  split at hn <;> obtain ⟨rfl, rfl⟩ := hn
  · exact {
     queued := (h.hangUp g).1
     later := (h.hangUp g).2
     sound := ⟨hp, by simp⟩
     generation := inl rfl
     signal := fun _ h => h
     granted := fun _ h => inl h
     kept := fun _ ho => absurd ho (by simp [Place.outcome])
     decided := by simp [Place.outcome]
     dropped := by simp [Place.Dropped] }
  · exact .quiet ⟨h, .refl s⟩ hp rfl (fun _ h => h) (fun _ h => h) rfl inl
 next g cancel =>
  split at hn
  next answer hanswer =>
   obtain ⟨rfl, rfl⟩ := hn
   exact .quiet ⟨h, .refl s⟩ ⟨hp, inr hanswer⟩ rfl (fun _ h => h) (fun _ h => h) rfl inl
  · split at hn <;> obtain ⟨rfl, rfl⟩ := hn
    · exact .quiet ⟨h, .refl s⟩ ⟨hp, inl rfl⟩ rfl (fun _ h => h) (fun _ h => h) rfl inl
    · exact .quiet ⟨h, .refl s⟩ hp rfl (fun _ h => h) (fun _ h => h) rfl inl
 next g cancel answer =>
  obtain ⟨rfl, rfl⟩ := hn
  refine {
   queued := (h.hangUp g).1
   later := (h.hangUp g).2
   sound := ⟨hp.1, fun he => ?_⟩
   generation := inl rfl
   signal := fun _ h => h
   granted := fun _ h => inl h
   kept := fun _ ho => absurd ho (by simp [Place.outcome])
   decided := fun he => ?_
   dropped := by simp [Place.Dropped] }
  · split at he
    · simp at he
    · cases he
      exact hp.2.resolve_left (by simp)
  · simp only [Place.outcome] at he
    split at he
    · simp at he
    next hfired =>
     cases he
     exact inr ⟨g, cancel, rfl, rfl, by simpa using hfired⟩
 next g cancel outcome =>
  split at hn
  next hgone =>
   obtain ⟨rfl, rfl⟩ := hn
   have hempty : s.generations = [] := by rw [Broker.generations, h.gone hgone]; rfl
   exact .quiet ⟨h, .refl s⟩ ⟨hp.1, hp.2, by simp [hempty]⟩ rfl (fun _ h => h) (fun _ h => h) rfl inl
  · obtain ⟨hq, hl, hmem, hsent, hlast⟩ := h.withdraw g
    have hover : (Place.departed g cancel outcome).Sound (s.withdraw g).1 :=
     ⟨le_trans hp.1 hl.last, fun he => hl.sent _ _ (hp.2 he), hmem⟩
    have hgranted : ∀ g', (s.withdraw g).1.sent g' = some .allowedOnce
     → s.sent g' = some .allowedOnce := fun g' hg' => by rw [← hsent]; exact hg'
    obtain ⟨rfl, rfl⟩ := hn
    split
    all_goals exact .quiet ⟨hq, hl⟩ hover rfl (fun _ h => h) hgranted rfl inl
 · simp at hn

/-- **One section of one task.** -/
theorem next_stepped (hp : p.Sound s) (hgone : p.holdsBroker = true → s.gone = false)
 (hn : s.next p k = some (s', p')) : Stepped s p k s' p' := by
 unfold Broker.next at hn
 split at hn
 · split at hn <;> obtain ⟨rfl, rfl⟩ := hn
   · have hsame := @Queued.same s { s with phase := .open } h rfl (fun _ => rfl) rfl rfl rfl
     exact .quiet hsame trivial rfl (fun _ h => h) (fun _ h => h) rfl inl
   · exact .quiet ⟨h, .refl s⟩ trivial rfl (fun _ h => h) (fun _ h => h) rfl inl
 next g answer =>
  split at hn
  · obtain ⟨rfl, rfl⟩ := hn
    exact .quiet ⟨h, .refl s⟩ trivial rfl (fun _ h => h) (fun _ h => h) rfl inl
  next s1 settled hanswer =>
   obtain ⟨rfl, rfl⟩ := hn
   obtain ⟨hq, hl, hhead, hopen, hothers, hsent⟩ := h.answer hanswer
   exact {
    queued := hq
    later := hl
    sound := trivial
    generation := inl rfl
    signal := fun _ h => h
    granted := fun g' hg' => by
     by_cases hne : g' = g
     · subst hne
       exact inr ⟨by rw [hsent hg'], rfl, hhead, hopen⟩
     · exact inl (by rw [← hothers g' hne]; exact hg')
    kept := fun _ ho => absurd ho (by simp [Place.outcome])
    decided := by simp [Place.outcome]
    dropped := inl }
 · obtain ⟨rfl, rfl⟩ := hn
   exact .quiet h.cancelAll trivial rfl (fun _ h => h) (fun _ => cancelAll_granted) rfl inl
 · obtain ⟨rfl, rfl⟩ := hn
   exact .quiet h.close trivial rfl (fun _ h => h) (fun _ => cancelAll_granted) rfl inl
 · split at hn <;> obtain ⟨rfl, rfl⟩ := hn
   · exact {
      queued := h
      later := .refl _
      sound := trivial
      generation := inl rfl
      signal := fun _ h => absurd h (by simp [Place.signal])
      granted := fun _ h => inl h
      kept := fun _ ho => absurd ho (by simp [Place.outcome])
      decided := by simp [Place.outcome]
      dropped := inl }
   · exact .quiet ⟨h, .refl s⟩ trivial rfl (fun _ h => h) (fun _ h => h) rfl inl
 next request cancel =>
  split at hn
  · obtain ⟨rfl, rfl⟩ := hn
    exact {
     queued := h
     later := .refl _
     sound := trivial
     generation := inl rfl
     signal := fun _ h => absurd h (by simp [Place.signal])
     granted := fun _ h => inl h
     kept := fun _ ho => absurd ho (by simp [Place.outcome])
     decided := by simp [Place.outcome]
     dropped := inl }
  next s1 g hpush =>
   obtain ⟨rfl, rfl⟩ := hn
   obtain ⟨hq, hl, hg, hlast, hsent⟩ := h.push (hgone rfl) hpush
   exact {
    queued := hq
    later := hl
    sound := le_of_eq hlast.symm
    generation := inr ⟨rfl, by rw [← hg]; rfl, hlast.trans hg⟩
    signal := fun _ h => h
    granted := fun g' hg' => inl (by rw [← hsent]; exact hg')
    kept := fun _ ho => absurd ho (by simp [Place.outcome])
    decided := by simp [Place.outcome]
    dropped := inl }
 · exact announceNext_stepped h hp hn
 · exact announceNext_stepped h hp hn
 · exact announceNext_stepped h hp hn
 · exact futureNext_stepped h hp hn
 · exact futureNext_stepped h hp hn
 · exact futureNext_stepped h hp hn
 · exact futureNext_stepped h hp hn
 · simp at hn

/-! ## Every run -/

theorem brokerProgram_next (hp : p.Sound s)
 (hn : brokerProgram.next s t p k = some (s', p')) : Stepped s p k s' p' := by
 simp only [brokerProgram] at hn
 split at hn
 · simp at hn
 next hgone =>
  refine next_stepped h hp (fun hholds => ?_) hn
  cases hg : s.gone with
  | false => rfl
  | true => exact absurd (by rw [hg, hholds]; rfl) hgone

theorem Queued.act (e : Event) : Queued (s.act e) ∧ Later s (s.act e) := by
 cases e with
 | abort signal => exact h.same rfl h.connected rfl rfl rfl
 | dropBroker =>
  exact ⟨⟨.nil, by simp [Broker.act, Broker.generations],
   by simp [Broker.act, Broker.generations], fun hne => absurd rfl hne, h.unsent,
   fun _ => rfl⟩, ⟨le_refl _, by simp [Broker.act, Broker.generations], fun _ _ h => h⟩⟩

end

theorem broker_keeps : brokerProgram.Keeps Queued fun s _ p => p.Sound s where
 next h hp hn := ⟨(brokerProgram_next h hp hn).queued, (brokerProgram_next h hp hn).sound⟩
 others h hp hn _ _ _ hq := hq.later (brokerProgram_next h hp hn).later
 spawn {s t p} _ hentry := by
  cases p <;> trivial
 act h e := ⟨(h.act e).1, fun hp => hp.later (h.act e).2⟩

theorem queued_new (aborted : Nat → Bool) : Queued (new aborted) :=
 ⟨.nil, by simp [new, Broker.generations], fun _ _ => rfl, fun hne => absurd rfl hne,
  fun _ _ => rfl, fun _ => rfl⟩

/-- What a run comes to. -/
abbrev after (aborted : Nat → Bool) (inputs : List (Interleave.Input Place Choice Event)) :
 Interleave.Config Broker Place :=
 brokerProgram.run (new aborted) inputs

variable (aborted : Nat → Bool) (inputs : List (Interleave.Input Place Choice Event))

theorem after_holds :
 Interleave.Program.Holds Queued (fun s _ p => p.Sound s) (after aborted inputs) := by
 refine broker_keeps.reachable (fun s hs => ?_)
  (@reachable_run _ _ _ _ brokerProgram (· = new aborted) _ rfl inputs)
 rw [hs]
 exact queued_new aborted

/-- One step of a run: nothing, a section of the task that is run, or what leaves every task
where it is. -/
theorem step_cases (hc : Interleave.Program.Holds Queued (fun s _ p => p.Sound s) c)
 (i : Interleave.Input Place Choice Event) :
 (∃ t k p s' p', i = .run t k ∧ c.tasks[t]? = some p ∧ Stepped c.shared p k s' p'
  ∧ brokerProgram.step c i = { shared := s', tasks := c.tasks.set t p' })
 ∨ ∃ s' more, brokerProgram.step c i = { shared := s', tasks := c.tasks ++ more }
  ∧ (∀ p ∈ more, p.generation = none ∧ p.outcome = none ∧ ¬ p.Dropped)
  ∧ s'.sent = c.shared.sent := by
 cases i with
 | spawn p =>
  right
  by_cases hp : brokerProgram.entry p
  · refine ⟨c.shared, [p], if_pos hp, fun q hq => ?_, rfl⟩
    obtain rfl := mem_singleton.mp hq
    cases q <;> first
     | exact ⟨rfl, rfl, id⟩
     | simp [brokerProgram, Place.entry] at hp
  · exact ⟨c.shared, [], by rw [append_nil]; exact if_neg hp, by simp, rfl⟩
 | run t k =>
  cases hp : c.tasks[t]? with
  | none =>
   right
   refine ⟨c.shared, [], ?_, by simp, rfl⟩
   simp only [step, hp, append_nil]
  | some p =>
   cases hn : brokerProgram.next c.shared t p k with
   | none =>
    right
    refine ⟨c.shared, [], ?_, by simp, rfl⟩
    simp only [step, hp, hn, append_nil]
   | some q =>
    left
    refine ⟨t, k, p, q.1, q.2, rfl, hp, brokerProgram_next hc.1 (hc.2 t p hp) hn, ?_⟩
    simp only [step, hp, hn]
 | act e =>
  right
  refine ⟨c.shared.act e, [], by rw [append_nil]; rfl, by simp, ?_⟩
  cases e <;> rfl

/-- A task later in a run: it goes on with its own request, and an outcome is final. -/
structure Onward (p q : Place) : Prop where
 generation : ∀ g, p.generation = some g → q.generation = some g
 signal : ∀ cancel, q.signal = some cancel → p.signal = some cancel
 outcome : ∀ o, p.outcome = some o → q.outcome = some o

theorem Stepped.onward (h : Stepped s p k s' p') : Onward p p' where
 generation g hg := by
  rcases h.generation with he | ⟨hnone, -⟩
  · exact he.trans hg
  · exact absurd hnone (by rw [hg]; simp)
 signal := h.signal
 outcome := h.kept

theorem onward_step (hc : Interleave.Program.Holds Queued (fun s _ p => p.Sound s) c)
 (i : Interleave.Input Place Choice Event) (hp : c.tasks[t]? = some p) :
 ∃ q, (brokerProgram.step c i).tasks[t]? = some q ∧ Onward p q := by
 have hlt := (List.getElem_of_getElem? hp).1
 rcases step_cases hc i with ⟨u, k, p', s', q, -, hu, hstep, heq⟩ | ⟨s', more, heq, -, -⟩ <;>
  rw [heq]
 · by_cases hut : u = t
   · subst hut
     cases hu.symm.trans hp
     exact ⟨q, getElem?_set_self hlt, hstep.onward⟩
   · exact ⟨p, by rw [getElem?_set_ne hut]; exact hp, fun _ h => h, fun _ h => h,
      fun _ h => h⟩
 · exact ⟨p, by rw [getElem?_append_left hlt]; exact hp, fun _ h => h, fun _ h => h,
    fun _ h => h⟩

theorem after_append (more : List (Interleave.Input Place Choice Event)) :
 after aborted (inputs ++ more) = Run.final brokerProgram.step (after aborted inputs) more :=
 foldl_append ..

theorem after_snoc (i : Interleave.Input Place Choice Event) :
 after aborted (inputs ++ [i]) = brokerProgram.step (after aborted inputs) i :=
 after_append aborted inputs [i]

/-- **An outcome is final**, and a task keeps its request, in every run that goes on. -/
theorem onward (hp : (after aborted inputs).tasks[t]? = some p)
 (more : List (Interleave.Input Place Choice Event)) :
 ∃ q, (after aborted (inputs ++ more)).tasks[t]? = some q ∧ Onward p q := by
 induction more generalizing inputs p with
 | nil => exact ⟨p, by rw [append_nil]; exact hp, fun _ h => h, fun _ h => h, fun _ h => h⟩
 | cons i more ih =>
  obtain ⟨q, hq, hpq⟩ := onward_step (after_holds aborted inputs) i hp
  rw [← after_snoc] at hq
  obtain ⟨r, hr, hqr⟩ := ih (inputs ++ [i]) hq
  rw [append_assoc] at hr
  exact ⟨r, hr, fun g hg => hqr.generation g (hpq.generation g hg),
   fun c hc => hpq.signal c (hqr.signal c hc), fun o ho => hqr.outcome o (hpq.outcome o ho)⟩

theorem distinct {u : Nat} {q : Place} (hp : (after aborted inputs).tasks[t]? = some p)
 (hpg : p.generation = some g) (hq : (after aborted inputs).tasks[u]? = some q)
 (hqg : q.generation = some g) : t = u := by
 induction inputs using List.reverseRecOn generalizing t u p q g with
 | nil => simp [after, run, Run.final] at hp
 | append_singleton inputs i ih =>
  have hc := after_holds aborted inputs
  rw [after_snoc] at hp hq
  rcases step_cases hc i with ⟨v, k, p', s', q', -, hv, hstep, heq⟩ | ⟨s', more, heq, hmore, -⟩
  · have hlt := (List.getElem_of_getElem? hv).1
    rw [heq] at hp hq
    -- a place of this moment is one of the moment before, or the place of the task that
    -- was run
    have hplace : ∀ {w : Nat} {r : Place}, ((after aborted inputs).tasks.set v q')[w]? = some r →
     r.generation = some g →
     (∃ r', (after aborted inputs).tasks[w]? = some r' ∧ r'.generation = some g)
     ∨ (w = v ∧ g = (after aborted inputs).shared.last + 1) := by
     intro w r hw hg
     by_cases hwv : v = w
     · subst hwv
       rw [getElem?_set_self hlt] at hw
       cases hw
       rcases hstep.generation with he | ⟨-, he, -⟩
       · exact inl ⟨p', hv, he.symm.trans hg⟩
       · exact inr ⟨rfl, Option.some.inj (hg.symm.trans he)⟩
     · rw [getElem?_set_ne hwv] at hw
       exact inl ⟨r, hw, hg⟩
    have hold : ∀ {w : Nat} {r : Place}, (after aborted inputs).tasks[w]? = some r →
     r.generation = some g → g ≤ (after aborted inputs).shared.last := fun hw hg =>
     (hc.2 _ _ hw).handedOut hg
    rcases hplace hp hpg with ⟨p1, hp1, hg1⟩ | ⟨rfl, hnew⟩ <;>
     rcases hplace hq hqg with ⟨q1, hq1, hg2⟩ | ⟨rfl, hnew'⟩
    · exact ih hp1 hg1 hq1 hg2
    · have := hold hp1 hg1
      omega
    · have := hold hq1 hg2
      omega
    · rfl
  · rw [heq] at hp hq
    have hplace : ∀ {w : Nat} {r : Place}, ((after aborted inputs).tasks ++ more)[w]? = some r →
     r.generation = some g → (after aborted inputs).tasks[w]? = some r := by
     intro w r hw hg
     by_cases hlt : w < (after aborted inputs).tasks.length
     · rwa [getElem?_append_left hlt] at hw
     · rw [getElem?_append_right (not_lt.mp hlt)] at hw
       have hnone := (hmore r (mem_of_getElem? hw)).1
       exact absurd hnone (by rw [hg]; simp)
    exact ih (hplace hp hpg) hpg (hplace hq hqg) hqg

/-- **A channel that grants was written by an answer** that named its request while this was
the front of the queue and the broker open. -/
theorem granted_by_answer (h : (after aborted inputs).shared.sent g = some .allowedOnce) :
 ∃ before u rest, inputs = before ++ .run u .go :: rest
  ∧ (after aborted before).tasks[u]? = some (.answer g .allowOnce)
  ∧ (after aborted before).shared.generations.head? = some g
  ∧ (after aborted before).shared.phase = .open := by
 obtain ⟨before, i, rest, rfl, hnot, hnow⟩ := Run.final_began
  (Q := fun c : Interleave.Config Broker Place => c.shared.sent g = some .allowedOnce)
  (by simp [new]) h
 have hc := after_holds aborted before
 rcases step_cases hc i with ⟨u, k, p, s', p', rfl, hu, hstep, heq⟩ | ⟨s', more, heq, -, hsent⟩
 · have hnow' : s'.sent g = some .allowedOnce := by
    have := hnow
    rw [show brokerProgram.step (Run.final brokerProgram.step _ before) (.run u k) = _ from heq]
     at this
    exact this
   rcases hstep.granted g hnow' with hbefore | ⟨rfl, rfl, hhead, hopen⟩
   · exact absurd hbefore hnot
   · exact ⟨before, u, rest, rfl, hu, hhead, hopen⟩
 · have hnow' : s'.sent g = some .allowedOnce := by
    have := hnow
    rw [show brokerProgram.step (Run.final brokerProgram.step _ before) i = _ from heq] at this
    exact this
   rw [hsent] at hnow'
   exact absurd hnow' hnot

/-- Where a call first is as no call begins: its own step led there. -/
theorem first_step {Q : Place → Prop}
 (hfresh : ∀ q, q.generation = none ∧ q.outcome = none ∧ ¬ q.Dropped → ¬ Q q)
 (hp : (after aborted inputs).tasks[t]? = some p) (hQ : Q p) :
 ∃ before k rest p0 s' q, inputs = before ++ .run t k :: rest
  ∧ (after aborted before).tasks[t]? = some p0 ∧ ¬ Q p0 ∧ Q q
  ∧ Stepped (after aborted before).shared p0 k s' q := by
 obtain ⟨before, i, rest, rfl, hnot, q, hq, hqQ⟩ := Run.final_began
  (Q := fun c : Interleave.Config Broker Place => ∃ q, c.tasks[t]? = some q ∧ Q q)
  (by simp) ⟨p, hp, hQ⟩
 have hq' : (brokerProgram.step (after aborted before) i).tasks[t]? = some q := hq
 rcases step_cases (after_holds aborted before) i with
  ⟨u, k, p0, s', p', rfl, hu, hstep, heq⟩ | ⟨s', more, heq, hmore, -⟩
 · rw [heq] at hq'
   by_cases hut : u = t
   · subst hut
     rw [getElem?_set_self (List.getElem_of_getElem? hu).1] at hq'
     cases hq'
     exact ⟨before, k, rest, p0, s', q, rfl, hu, fun h => hnot ⟨p0, hu, h⟩, hqQ, hstep⟩
   · rw [getElem?_set_ne hut] at hq'
     exact absurd ⟨q, hq', hqQ⟩ hnot
 · rw [heq] at hq'
   by_cases hlt : t < (after aborted before).tasks.length
   · rw [getElem?_append_left hlt] at hq'
     exact absurd ⟨q, hq', hqQ⟩ hnot
   · rw [getElem?_append_right (not_lt.mp hlt)] at hq'
     exact absurd hqQ (hfresh q (hmore q (mem_of_getElem? hq')))

/-- **A future that grants decided so at its last look** at its signal, which had not fired. -/
theorem granted_unaborted (hp : (after aborted inputs).tasks[t]? = some p)
 (ho : p.outcome = some .allowedOnce) :
 ∃ before rest g cancel, inputs = before ++ .run t .go :: rest
  ∧ (after aborted before).tasks[t]? = some (.check g cancel .allowedOnce)
  ∧ (after aborted before).shared.fired cancel = false
  ∧ p.generation = some g ∧ ∀ c, p.signal = some c → c = cancel := by
 obtain ⟨before, k, rest, p0, s', q, rfl, hu, hnot, hqo, hstep⟩ :=
  first_step aborted inputs (Q := fun q => q.outcome = some .allowedOnce)
   (fun q h => by simp [h.2.1]) hp ho
 rcases hstep.decided hqo with hbefore | ⟨g, cancel, rfl, rfl, hfired⟩
 · exact absurd hbefore hnot
 · obtain ⟨r, hr, hon⟩ := onward aborted before hu (.run t .go :: rest)
   cases hr.symm.trans hp
   exact ⟨before, rest, g, cancel, rfl, hu, hfired, hon.generation g rfl,
    fun c hc => (Option.some.inj (hon.signal c hc)).symm⟩

theorem dropped_unpolled (hp : (after aborted inputs).tasks[t]? = some p) (hd : p.Dropped) :
 ∃ before hangsUp rest, inputs = before ++ .run t (.drop hangsUp) :: rest := by
 obtain ⟨before, k, rest, p0, s', q, rfl, -, hnot, hqd, hstep⟩ :=
  first_step aborted inputs (fun _ h => h.2.2) hp hd
 rcases hstep.dropped hqd with hbefore | ⟨hangsUp, rfl⟩
 · exact absurd hbefore hnot
 · exact ⟨before, hangsUp, rest, rfl⟩

theorem Place.IsOver.outcome (h : p.IsOver g) : (∃ o, p.outcome = some o) ∨ p.Dropped := by
 induction p with
 | departed g' cancel outcome =>
  cases outcome with
  | none => exact inr rfl
  | some o => exact inl ⟨o, rfl⟩
 | announce next ih | snapshot next ih | listening shown next ih => exact ih h
 | _ => simp [Place.IsOver] at h

theorem Place.Sound.granted (h : p.Sound s) (hg : p.generation = some g)
 (ho : p.outcome = some .allowedOnce) : s.sent g = some .allowedOnce := by
 induction p with
 | leave g' cancel outcome => cases hg; exact h.2 ho
 | departed g' cancel outcome => cases hg; exact h.2.1 ho
 | announce next ih | snapshot next ih | listening shown next ih => exact ih h hg ho
 | ready outcome => simp [Place.generation] at hg
 | _ => simp [Place.outcome] at ho

/-- **The approval broker is safe in every order of its sections.** The queue is sorted by
generation and holds no request that was answered or whose future is over; no two futures
have one generation; a future that is over has an outcome unless it was dropped, and an
outcome, once there, stays the one outcome of its future; a grant
was sent by an answer that named the request's own generation while it was the front of the
queue and the broker open, and the future's last look at its signal found it had not fired;
and an answer that names another generation changes nothing. -/
theorem approval_broker_safe : (after aborted inputs).shared.generations.Pairwise (· < ·)
 ∧ (∀ g ∈ (after aborted inputs).shared.generations, (after aborted inputs).shared.sent g = none
   ∧ ∀ (t : Nat) p, (after aborted inputs).tasks[t]? = some p → ¬ p.IsOver g)
 ∧ (∀ (t u : Nat) p q g, (after aborted inputs).tasks[t]? = some p →
  (after aborted inputs).tasks[u]? = some q → p.generation = some g →
  q.generation = some g → t = u)
 ∧ (∀ (t : Nat) p g, (after aborted inputs).tasks[t]? = some p → p.IsOver g →
  (∃ o, p.outcome = some o)
   ∨ ∃ before hangsUp rest, inputs = before ++ .run t (.drop hangsUp) :: rest)
 ∧ (∀ (t : Nat) p o more, (after aborted inputs).tasks[t]? = some p → p.outcome = some o →
  ∃ q, (after aborted (inputs ++ more)).tasks[t]? = some q ∧ q.outcome = some o)
 ∧ (∀ (t : Nat) p, (after aborted inputs).tasks[t]? = some p → p.outcome = some .allowedOnce →
  ∃ g, p.generation = some g ∧ (∃ before u rest, inputs = before ++ .run u .go :: rest
    ∧ (after aborted before).tasks[u]? = some (.answer g .allowOnce)
    ∧ (after aborted before).shared.generations.head? = some g
    ∧ (after aborted before).shared.phase = .open)
   ∧ ∃ before rest cancel, inputs = before ++ .run t .go :: rest
    ∧ (after aborted before).tasks[t]? = some (.check g cancel .allowedOnce)
    ∧ (after aborted before).shared.fired cancel = false
    ∧ ∀ c, p.signal = some c → c = cancel)
 ∧ ∀ (t : Nat) g a, (after aborted inputs).tasks[t]? = some (.answer g a) →
  (after aborted inputs).shared.generations.head? ≠ some g →
  (after aborted inputs).shared.gone = false →
  after aborted (inputs ++ [.run t .go]) = { (after aborted inputs) with
   tasks := (after aborted inputs).tasks.set t (.returned false) } := by
 have hc := after_holds aborted inputs
 refine ⟨hc.1.sorted, fun g hg => ⟨hc.1.waiting g hg, fun t p hp hover => ?_⟩, ?_, ?_, ?_, ?_, ?_⟩
 · exact (hc.2 t p hp).departed hover hg
 · exact fun t u p q g hp hq hpg hqg => distinct aborted inputs hp hpg hq hqg
 · exact fun t p g hp hover => hover.outcome.imp id (dropped_unpolled aborted inputs hp)
 · intro t p o more hp ho
   obtain ⟨q, hq, hon⟩ := onward aborted inputs hp more
   exact ⟨q, hq, hon.outcome o ho⟩
 · intro t p hp ho
   obtain ⟨before, rest, g, cancel, heq, hcheck, hfired, hg, hsignal⟩ :=
    granted_unaborted aborted inputs hp ho
   exact ⟨g, hg, granted_by_answer aborted inputs ((hc.2 t p hp).granted hg ho),
    before, rest, cancel, heq, hcheck, hfired, hsignal⟩
 intro t g a hp hhead hgone
 have hnone : (after aborted inputs).shared.answer g a = none := by
  unfold Broker.answer
  split
  · rfl
  next front rest hqueue =>
   refine if_pos fun he => hhead ?_
   rw [Broker.generations, hqueue, ← he]
   rfl
 have hnext : brokerProgram.next (after aborted inputs).shared t (.answer g a) .go
  = some ((after aborted inputs).shared, .returned false) := by
  simp only [brokerProgram, hgone, Bool.false_and, Bool.false_eq_true, if_false, Broker.next,
   hnone]
 rw [after_snoc]
 simp only [step, hp, hnext]

end Bake.Permissions
