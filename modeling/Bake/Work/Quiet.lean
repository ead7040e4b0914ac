import Bake.Work.Tree

/-!
# A closed gate is quiet

The count is the number of live permits, so a close resolves when nothing admitted is
left, and with nothing left nothing can make another. Every step keeps the count, the
tree, and, once the gate is closing, that all its tasks are cancelled.
-/

open List

namespace Bake.Work.WorkGate

open BlockingTask

variable {g g' : WorkGate}

/-! ### Counting -/

/-- What holds of a gate throughout: its tree, its count, and what closing brought. -/
structure Sound (g : WorkGate) : Prop extends g.Grown where
 counted : g.permits = g.livePermits
 shut : g.closing = true → ∀ n, g.alive n = true → g.cancelled n = true
 called : g.closes ≠ [] → g.closing = true
 resolved : ∀ k : Nat, g.closes[k]? = some true → g.permits = 0

theorem countP_snoc {β : Type} {q : β → Bool} (l : List β) {a : β} (ha : q a = true) :
 (l ++ [a]).countP q = l.countP q + 1 := by
 rw [countP_append, countP_singleton, if_pos ha]

variable {node : Option Nat} {p : Nat} {task : OwnedTask} {runtime : Bool}

theorem held_of_permit? (h : g.permit? p = some node) :
 g.held[p]? = some (some node) := Option.join_eq_some_iff.mp h

theorem mem_holders_permit {n : Nat} (h : g.permit? p = some (some n)) : n ∈ g.holders :=
 mem_holders.mpr (.inl (mem_of_getElem? (held_of_permit? h)))

variable {t : Nat}

theorem mem_holders_task (h : g.tasks[t]? = some task)
 (hlive : (task.live || task.handle) = true) : t ∈ g.holders :=
 mem_holders.mpr (.inr (.inl (by simp [holdsNode, h, hlive])))

theorem livePermits_pos_held (h : g.permit? p = some node) : 0 < g.livePermits := by
 have hpos : 0 < g.held.countP Option.isSome :=
  countP_pos_iff.mpr ⟨_, mem_of_getElem? (held_of_permit? h), rfl⟩
 rw [livePermits]
 omega

theorem livePermits_pos_task (h : g.tasks[t]? = some task) (hlive : task.live = true) :
 0 < g.livePermits := by
 have hpos : 0 < g.tasks.countP OwnedTask.live := countP_pos_iff.mpr ⟨_, mem_of_getElem? h, hlive⟩
 rw [livePermits]
 omega

variable {closure : BlockingTask}

theorem livePermits_pos_blocking {c : Nat}
 (h : g.blocking[c]? = some closure) (hlive : closure.live = true) : 0 < g.livePermits := by
 have hpos : 0 < g.blocking.countP live := countP_pos_iff.mpr ⟨_, mem_of_getElem? h, hlive⟩
 rw [livePermits]
 omega

theorem Sound.unresolved (h : g.Sound) (hlive : 0 < g.livePermits) (k : Nat) :
 g.closes[k]? ≠ some true := by
 intro hk
 have := h.resolved k hk
 rw [h.counted] at this
 omega

theorem Sound.keep (h : g.Sound) (hnodes : g'.nodes = g.nodes) (hroots : g'.roots = g.roots)
 (htasks : g'.tasks.length = g.tasks.length) (hclosing : g'.closing = g.closing)
 (hholders : ∀ m ∈ g'.holders, g.alive m = true) (hcounted : g'.permits = g'.livePermits)
 (hcloses : g'.closes = g.closes ∨ g.closing = true)
 (hresolved : ∀ k : Nat, g'.closes[k]? = some true → g'.permits = 0) : g'.Sound := by
 have hgrown := h.toGrown.keep hnodes hroots htasks hholders
 have hcalled : g'.closes ≠ [] → g'.closing = true := by
  intro hne
  rw [hclosing]
  rcases hcloses with heq | hc
  · exact h.called (heq ▸ hne)
  · exact hc
 refine { hgrown with
  counted := hcounted, shut := fun hc n hn => ?_, called := hcalled, resolved := hresolved }
 have hparent : g'.parent = g.parent := by funext n; simp only [parent, hnodes]
 have hcancelled : g'.cancelled n = g.cancelled n := by simp only [cancelled, hnodes]
 obtain ⟨m, hm, hw⟩ := (alive_iff hgrown.ordered).mp hn
 rw [hparent] at hw
 rw [hcancelled]
 exact h.shut (hclosing ▸ hc) n (alive_within h.ordered (hholders m hm) hw)

theorem sound_empty : empty.Sound where
 ordered := fun n p hp => absurd hp (by simp [empty, parent])
 tasks := rfl
 known := fun m hm => absurd hm (by simp [empty, holders])
 roots := ⟨nodup_nil, fun r hr => absurd hr (by simp [empty])⟩
 children := fun p => ⟨by simp [empty, children], fun c hc => absurd hc (by simp [empty, children])⟩
 tracked := fun n hn => absurd hn (by simp [empty, alive, holders])
 passed := fun n p hn => absurd hn (by simp [empty, alive, holders])
 counted := rfl
 shut := by simp [empty]
 called := fun hne => absurd rfl hne
 resolved := fun k hk => absurd hk (by simp [empty])

/-! ### One step -/

section

variable (h : g.Sound)

include h

theorem Sound.enter (he : g.enter = some g') : g'.Sound := by
 simp only [WorkGate.enter] at he
 split at he
 · simp at he
 rename_i hopen
 cases he
 refine h.keep rfl rfl rfl rfl (fun m hm => ?_) ?_ (.inl rfl) fun k hk => ?_
 · refine alive_holder h.ordered ?_
   rw [mem_holders] at hm ⊢
   rcases hm with hm | hm
   · rcases mem_append.mp hm with hm | hm
     · exact .inl hm
     · simp at hm
   · exact .inr hm
 · have := h.counted
   simp only [livePermits] at this ⊢
   rw [countP_snoc _ rfl]
   omega
 · exact absurd (h.called (ne_nil_of_mem (mem_of_getElem? hk))) hopen

theorem Sound.share (hp : g.permit? p = some node) : (g.share node).Sound := by
 refine h.keep rfl rfl rfl rfl (fun m hm => ?_) ?_ (.inl rfl) fun k hk => ?_
 · refine alive_holder h.ordered ?_
   rw [mem_holders] at hm
   rcases hm with hm | hm
   · rcases mem_append.mp hm with hm | hm
     · exact mem_holders.mpr (.inl hm)
     · have heq : node = some m := by simpa [eq_comm] using hm
       exact mem_holders_permit (heq ▸ hp)
   · exact mem_holders.mpr (.inr hm)
 · have := h.counted
   simp only [WorkGate.share, livePermits] at this ⊢
   rw [countP_snoc _ rfl]
   omega
 · exact absurd hk (h.unresolved (livePermits_pos_held hp) k)

theorem Sound.spawn (hp : g.permit? p = some node)
 (hs : g.spawn node runtime = .ok g') : g'.Sound := by
 have hgrown := h.toGrown.spawn (fun n hn => mem_holders_permit (hn ▸ hp)) hs
 have hspawned := spawn_ok hs
 refine { hgrown with
  counted := ?_, shut := fun hc => ?_, called := fun hne => ?_, resolved := fun k hk => ?_ }
 · have := h.counted
   simp only [livePermits, hspawned.permits, hspawned.tasks, hspawned.held,
    hspawned.blocking] at this ⊢
   rw [countP_snoc g.held rfl, countP_snoc g.tasks rfl]
   omega
 · rw [hspawned.closing] at hc
   simp at hc
 · rw [hspawned.closes] at hne
   exact absurd (h.called hne) (by simp [hspawned.opened])
 · rw [hspawned.closes] at hk
   exact absurd hk (h.unresolved (livePermits_pos_held hp) k)

theorem Sound.spawn_root (hs : g.spawn none runtime = .ok g') : g'.Sound := by
 have hgrown := h.toGrown.spawn (fun n hn => absurd hn (by simp)) hs
 have hspawned := spawn_ok hs
 have hnone : g'.closes = [] := by
  rw [hspawned.closes]
  by_contra hne
  exact absurd (h.called hne) (by simp [hspawned.opened])
 refine { hgrown with
  counted := ?_, shut := fun hc => ?_, called := fun hne => absurd hnone hne,
  resolved := fun k hk => absurd hk (by simp [hnone]) }
 · have := h.counted
   simp only [livePermits, hspawned.permits, hspawned.tasks, hspawned.held,
    hspawned.blocking] at this ⊢
   rw [countP_snoc g.held rfl, countP_snoc g.tasks rfl]
   omega
 · rw [hspawned.closing] at hc
   simp at hc

theorem Sound.spawnBlocking (hp : g.permit? p = some node)
 (hs : g.spawnBlocking node runtime = .ok g') : g'.Sound := by
 simp only [WorkGate.spawnBlocking] at hs
 split at hs
 · simp at hs
 cases hs
 refine h.keep rfl rfl rfl rfl (fun m hm => ?_) ?_ (.inl rfl) fun k hk => ?_
 · refine alive_holder h.ordered ?_
   rw [mem_holders] at hm
   rcases hm with hm | hm | ⟨closure, hmem, hlive, hm⟩
   · exact mem_holders.mpr (.inl hm)
   · exact mem_holders.mpr (.inr (.inl hm))
   · rcases mem_append.mp hmem with hmem | hmem
     · exact mem_holders.mpr (.inr (.inr ⟨closure, hmem, hlive, hm⟩))
     · rw [mem_singleton] at hmem
       subst hmem
       simp only at hm
       exact mem_holders_permit (hm ▸ hp)
 · have := h.counted
   simp only [livePermits] at this ⊢
   rw [countP_snoc g.blocking rfl]
   omega
 · exact absurd hk (h.unresolved (livePermits_pos_held hp) k)

theorem Sound.drop (hp : g.permit? p = some node) :
 ({ g.release with held := g.held.set p none } : WorkGate).Sound := by
 have hheld := held_of_permit? hp
 refine h.keep rfl rfl rfl rfl (fun m hm => ?_) ?_ (.inl rfl) fun k hk => ?_
 · refine alive_holder h.ordered ?_
   rw [mem_holders] at hm ⊢
   rcases hm with hm | hm
   · rcases mem_or_eq_of_mem_set hm with hm | hm
     · exact .inl hm
     · simp at hm
   · exact .inr hm
 · have hpos := livePermits_pos_held hp
   obtain ⟨hlt, hget⟩ := List.getElem_of_getElem? hheld
   have := h.counted
   have hcount : 0 < g.held.countP Option.isSome :=
    countP_pos_iff.mpr ⟨_, mem_of_getElem? hheld, rfl⟩
   simp only [release, livePermits, countP_set hlt, hget] at this ⊢
   simp only [Option.isSome_some, Option.isSome_none, if_true, Bool.false_eq_true, if_false]
   omega
 · exact absurd hk (h.unresolved (livePermits_pos_held hp) k)

/-- A task at another stage, or with another handle: its permit is counted while it is
live, and its node is held while its permit or its handle is. -/
theorem Sound.setTask (permits : Nat) {task' : OwnedTask}
 (ht : g.tasks[t]? = some task)
 (hholds : (task'.live || task'.handle) = true → (task.live || task.handle) = true)
 (hpermits : permits + task.live.toNat = g.permits + task'.live.toNat)
 (hunresolved : task.live = true ∨ permits = g.permits) :
 ({ g with permits, tasks := g.tasks.set t task' } : WorkGate).Sound := by
 obtain ⟨hlt, hget⟩ := List.getElem_of_getElem? ht
 refine h.keep rfl rfl (by simp) rfl (fun m hm => ?_) ?_ (.inl rfl) fun k hk => ?_
 · refine alive_holder h.ordered ?_
   rw [mem_holders] at hm ⊢
   rcases hm with hm | hm | hm
   · exact .inl hm
   · refine .inr (.inl ?_)
     by_cases hmt : m = t
     · subst hmt
       simp only [holdsNode, getElem?_set_self hlt, Option.any_some] at hm
       simp only [holdsNode, ht, Option.any_some]
       exact hholds hm
     · simp only [holdsNode, getElem?_set_ne (Ne.symm hmt)] at hm
       exact hm
   · exact .inr (.inr hm)
 · have hcount : task.live = true → 0 < g.tasks.countP OwnedTask.live := fun hlive =>
    countP_pos_iff.mpr ⟨_, mem_of_getElem? ht, hlive⟩
   have := h.counted
   simp only [livePermits, countP_set hlt, hget] at this ⊢
   cases hl : task.live <;> cases hl' : task'.live <;>
    simp only [hl, hl', Bool.toNat_true, Bool.toNat_false, if_true, if_false,
     Bool.false_eq_true, forall_true_left] at hpermits hcount ⊢ <;> omega
 · rcases hunresolved with hlive | heq
   · exact absurd hk (h.unresolved (livePermits_pos_task ht hlive) k)
   · exact heq.trans (h.resolved k hk)

theorem Sound.setClosure (permits : Nat) {c : Nat} {stage : Stage}
 (hc : g.blocking[c]? = some closure) (hlive : closure.live = true)
 (hpermits : permits + 1 = g.permits + (live { closure with stage }).toNat) :
 ({ g with permits, blocking := g.blocking.set c { closure with stage } } : WorkGate).Sound := by
 obtain ⟨hlt, hget⟩ := List.getElem_of_getElem? hc
 refine h.keep rfl rfl rfl rfl (fun m hm => ?_) ?_ (.inl rfl) fun k hk => ?_
 · refine alive_holder h.ordered ?_
   rw [mem_holders] at hm ⊢
   rcases hm with hm | hm | ⟨other, hmem, hl, hm⟩
   · exact .inl hm
   · exact .inr (.inl hm)
   · refine .inr (.inr ?_)
     rcases mem_or_eq_of_mem_set hmem with hmem | rfl
     · exact ⟨other, hmem, hl, hm⟩
     · exact ⟨closure, mem_of_getElem? hc, hlive, hm⟩
 · have hcount : 0 < g.blocking.countP live :=
    countP_pos_iff.mpr ⟨_, mem_of_getElem? hc, hlive⟩
   have := h.counted
   simp only [livePermits, countP_set hlt, hget, hlive, if_true] at this ⊢
   cases hl : live { closure with stage } <;>
    simp only [hl, Bool.toNat_true, Bool.toNat_false, if_true, if_false,
     Bool.false_eq_true] at hpermits ⊢ <;> omega
 · exact absurd hk (h.unresolved (livePermits_pos_blocking hc hlive) k)

theorem Sound.cancel (ht : g.tasks[t]? = some task)
 (hhandle : task.handle = true) : (g.cancel t).Sound ∧ (g.cancel t).cancelled t = true := by
 have halive : g.alive t = true := alive_holder h.ordered (mem_holders_task ht (by simp [hhandle]))
 have hapart : g.Apart [t] := by
  refine ⟨nodup_singleton _, fun s hs => ?_⟩
  rw [mem_singleton] at hs
  subst hs
  exact ⟨halive, fun u hu _ => (mem_singleton.mp hu).symm⟩
 obtain ⟨hgrown, hstart, hkept⟩ := h.toGrown.cancelTree hapart
 refine ⟨{ hgrown with
  counted := ?_, shut := fun hc n hn => ?_, called := fun hne => ?_, resolved := fun k hk => ?_ },
  hstart t (by simp)⟩
 · simpa only [WorkGate.cancel, permits_cancelTree, livePermits_cancelTree] using h.counted
 · rw [WorkGate.cancel, closing_cancelTree] at hc
   rw [WorkGate.cancel, alive_cancelTree] at hn
   exact hkept n (h.shut hc n hn)
 · rw [WorkGate.cancel, closes_cancelTree] at hne
   rw [WorkGate.cancel, closing_cancelTree]
   exact h.called hne
 · rw [WorkGate.cancel, closes_cancelTree] at hk
   rw [WorkGate.cancel, permits_cancelTree]
   exact h.resolved k hk

/-- **Closing cancels every task** there is. -/
theorem Sound.close : g.close.Sound := by
 have hclosing : ({ g with closing := true } : WorkGate).Grown :=
  h.toGrown.keep rfl rfl rfl fun m hm => alive_holder h.ordered hm
 have hapart : ({ g with closing := true } : WorkGate).Apart (g.roots.filter g.alive) := by
  refine ⟨h.roots.1.filter _, fun s hs => ?_⟩
  refine ⟨(mem_filter.mp hs).2, fun t ht hw => ?_⟩
  -- a root is below nothing but itself
  have hroot := (h.roots.2 t (mem_filter.mp ht).1).2
  rcases Forest.within_iff.mp hw with rfl | ⟨p, hp, -⟩
  · rfl
  · exact absurd (hroot.symm.trans hp) (by simp)
 obtain ⟨hgrown, hstart, hkept⟩ := hclosing.cancelTree hapart
 have hshut : ∀ n, g.alive n = true →
  (({ g with closing := true } : WorkGate).cancelTree (g.roots.filter g.alive)).cancelled n
   = true := by
  intro n
  induction n using Nat.strongRecOn with
  | ind n ih =>
   intro hn
   cases hp : g.parent n with
   | none => exact hstart n (mem_filter.mpr ⟨(h.tracked n hn).1 hp, hn⟩)
   | some p =>
    have hpn : g.alive p = true := alive_within h.ordered hn (.child (.refl p) hp)
    refine hgrown.passed n p ?_ ?_ (ih p (h.ordered n p hp) hpn)
    · rw [alive_cancelTree]
      exact hn
    · rw [parent_cancelTree]
      exact hp
 have hgrown' : g.close.Grown := hgrown.keep rfl rfl rfl fun m hm => alive_holder hgrown.ordered hm
 refine { hgrown' with
  counted := ?_, shut := fun _ n hn => ?_, called := fun _ => closing_cancelTree _,
  resolved := fun k hk => ?_ }
 · have hcount : g.close.livePermits = g.livePermits :=
    livePermits_cancelTree (g := { g with closing := true }) (g.roots.filter g.alive)
   have hpermits : g.close.permits = g.permits :=
    permits_cancelTree (g := { g with closing := true }) (g.roots.filter g.alive)
   rw [hcount, hpermits, h.counted]
 · have halive : g.close.alive n = g.alive n :=
    alive_cancelTree (g := { g with closing := true }) (g.roots.filter g.alive) n
   rw [halive] at hn
   exact hshut n hn
 · have hpermits : g.close.permits = g.permits :=
    permits_cancelTree (g := { g with closing := true }) (g.roots.filter g.alive)
   have hk' : g.closes[k]? = some true := by
    simp only [WorkGate.close] at hk
    by_cases hlt : k < g.closes.length
    · rwa [getElem?_append_left hlt] at hk
    · rw [getElem?_append_right (by omega)] at hk
      have := mem_of_getElem? hk
      simp at this
   exact hpermits.trans (h.resolved k hk')

theorem Sound.stageTask (t : Nat) (before after : Stage) (handle : Bool → Bool)
 (hbefore : before ≠ .gone) (hafter : after ≠ .gone) :
 (g.stageTask t before after handle).Sound := by
 unfold WorkGate.stageTask
 split
 next task ht =>
  split
  next hstage =>
   have hlive : task.live = true := by simp [OwnedTask.live, hstage, hbefore]
   have hlive' : OwnedTask.live { stage := after, handle := handle task.handle } = true := by
    simp [OwnedTask.live, hafter]
   refine h.setTask g.permits ht (fun _ => by simp [hlive]) ?_ (.inl hlive)
   rw [hlive, hlive']
  · exact h
 · exact h

theorem Sound.stageClosure (c : Nat) (before after : Stage)
 (hbefore : before ≠ .gone) (hafter : after ≠ .gone) :
 (g.stageClosure c before after).Sound := by
 unfold WorkGate.stageClosure
 split
 next closure hc =>
  split
  next hstage =>
   have hlive' : live { closure with stage := after } = true := by
    simp [live, hafter]
   refine h.setClosure g.permits hc (by simp [live, hstage, hbefore]) ?_
   rw [hlive']
   rfl
  · exact h
 · exact h

/-- **Every step keeps a gate sound.** -/
theorem Sound.step (i : Input) : (g.step i).Sound := by
 cases i with
 | enter =>
  cases he : g.enter with
  | none => simpa [WorkGate.step, he] using h
  | some g' => simpa [WorkGate.step, he] using h.enter he
 | share p =>
  cases hp : g.permit? p with
  | none => simpa [WorkGate.step, hp] using h
  | some node => simpa [WorkGate.step, hp] using h.share hp
 | spawn p runtime =>
  cases hp : g.permit? p with
  | none => simpa [WorkGate.step, hp] using h
  | some node =>
   cases hs : g.spawn node runtime with
   | error e => simpa [WorkGate.step, hp, hs, Except.toOption] using h
   | ok g' => simpa [WorkGate.step, hp, hs, Except.toOption] using h.spawn hp hs
 | spawnBlocking p runtime =>
  cases hp : g.permit? p with
  | none => simpa [WorkGate.step, hp] using h
  | some node =>
   cases hs : g.spawnBlocking node runtime with
   | error e => simpa [WorkGate.step, hp, hs, Except.toOption] using h
   | ok g' => simpa [WorkGate.step, hp, hs, Except.toOption] using h.spawnBlocking hp hs
 | drop p =>
  cases hp : g.permit? p with
  | none => simpa [WorkGate.step, hp] using h
  | some node => simpa [WorkGate.step, hp] using h.drop hp
 | returned t => exact h.stageTask t .calling .running (fun _ => true) (by decide) (by decide)
 | panicked t => exact h.stageTask t .calling .ended id (by decide) (by decide)
 | ended t => exact h.stageTask t .running .ended id (by decide) (by decide)
 | released t =>
  simp only [WorkGate.step]
  split
  next handle ht =>
   have hpos := livePermits_pos_task ht rfl
   refine h.setTask (g.permits - 1) ht (fun _ => rfl) ?_ (.inl rfl)
   rw [← h.counted] at hpos
   simp only [OwnedTask.live, show (Stage.ended != .gone) = true from rfl,
    show (Stage.gone != .gone) = false from rfl, Bool.toNat_true, Bool.toNat_false]
   omega
  · exact h
 | dropHandle t =>
  simp only [WorkGate.step]
  split
  next stage ht =>
   exact h.setTask g.permits ht (fun _ => by simp) rfl (.inr rfl)
  · exact h
 | cancel t =>
  simp only [WorkGate.step]
  split
  next stage ht =>
   exact (h.cancel ht rfl).1
  · exact h
 | closureEnded c => exact h.stageClosure c .running .ended (by decide) (by decide)
 | closureReleased c =>
  simp only [WorkGate.step]
  split
  next node hc =>
   have hpos := livePermits_pos_blocking hc rfl
   rw [← h.counted] at hpos
   refine h.setClosure (g.permits - 1) hc rfl ?_
   simp only [live, show (Stage.gone != .gone) = false from rfl, Bool.toNat_false]
   omega
  · exact h
 | close => exact h.close
 | poll k =>
  simp only [WorkGate.step]
  split
  next hk =>
   simp only [Bool.and_eq_true, decide_eq_true_eq, beq_iff_eq] at hk
   have hclosing := h.called (ne_nil_of_mem (mem_of_getElem? hk.1))
   refine h.keep rfl rfl rfl rfl (fun m hm => alive_holder h.ordered hm) h.counted
    (.inr hclosing) fun _ _ => hk.2
  · exact h

end

/-! ### Runs -/

/-- What stays, whatever happens next: closing, cancellations, and resolved closes. -/
structure Later (g g' : WorkGate) : Prop where
 closing : g.closing = true → g'.closing = true
 cancelled : ∀ n, g.cancelled n = true → g'.cancelled n = true
 resolved : ∀ k : Nat, g.closes[k]? = some true → g'.closes[k]? = some true

theorem Later.refl (g : WorkGate) : Later g g := ⟨id, fun _ => id, fun _ => id⟩

theorem Later.trans {a b c : WorkGate} (h : Later a b) (h' : Later b c) : Later a c where
 closing := h'.closing ∘ h.closing
 cancelled := fun n => h'.cancelled n ∘ h.cancelled n
 resolved := fun k => h'.resolved k ∘ h.resolved k

theorem Later.same (hnodes : g'.nodes = g.nodes) (hclosing : g'.closing = g.closing)
 (hcloses : g'.closes = g.closes) : Later g g' where
 closing := by rw [hclosing]; exact id
 cancelled := fun n => by simp only [WorkGate.cancelled, hnodes]; exact id
 resolved := fun k => by rw [hcloses]; exact id

theorem cancelled_lt {n : Nat} (h : g.cancelled n = true) : n < g.nodes.length := by
 simp only [cancelled, Option.any_eq_true] at h
 obtain ⟨node, hnode, -⟩ := h
 exact (List.getElem_of_getElem? hnode).1

theorem later_cancelTree (start : List Nat) : Later g (g.cancelTree start) where
 closing := by rw [closing_cancelTree]; exact id
 cancelled := fun _ hn => (cancelled_cancelTree start (cancelled_lt hn)).mpr (.inl hn)
 resolved := fun k => by rw [closes_cancelTree]; exact id

theorem later_spawn (hs : g.spawn node runtime = .ok g') : Later g g' := by
 have hspawned := spawn_ok hs
 refine ⟨by simp [hspawned.opened], fun n hn => ?_, fun k hk => ?_⟩
 · exact (hspawned.old n (cancelled_lt hn)).2.1.trans hn
 · exact (congrArg (fun l : List Bool => l[k]?) hspawned.closes).trans hk

theorem later_step (g : WorkGate) (i : Input) : Later g (g.step i) := by
 cases i with
 | enter =>
  simp only [WorkGate.step, WorkGate.enter]
  split
  · exact .refl g
  · exact .same rfl rfl rfl
 | spawn p runtime =>
  simp only [WorkGate.step]
  split
  next node hp =>
   cases hs : g.spawn node runtime with
   | error e => exact .refl g
   | ok g' => exact later_spawn hs
  · exact .refl g
 | spawnBlocking p runtime =>
  simp only [WorkGate.step]
  split
  next node hp =>
   simp only [WorkGate.spawnBlocking]
   split
   · exact .refl g
   · exact .same rfl rfl rfl
  · exact .refl g
 | returned t | panicked t | ended t =>
  simp only [WorkGate.step, WorkGate.stageTask]
  split
  · split
    · exact .same rfl rfl rfl
    · exact .refl g
  · exact .refl g
 | cancel t =>
  simp only [WorkGate.step]
  split
  · exact later_cancelTree [t]
  · exact .refl g
 | closureEnded c =>
  simp only [WorkGate.step, WorkGate.stageClosure]
  split
  · split
    · exact .same rfl rfl rfl
    · exact .refl g
  · exact .refl g
 | close =>
  have h := later_cancelTree (g := { g with closing := true }) (g.roots.filter g.alive)
  refine ⟨fun _ => closing_cancelTree _, h.cancelled, fun k hk => ?_⟩
  have hlt := (List.getElem_of_getElem? hk).1
  exact (getElem?_append_left hlt).trans hk
 | poll k =>
  simp only [WorkGate.step]
  split
  · refine ⟨id, fun _ => id, fun j hj => ?_⟩
    by_cases hjk : k = j
    · subst hjk
      exact getElem?_set_self (List.getElem_of_getElem? hj).1
    · exact (getElem?_set_ne hjk).trans hj
  · exact .refl g
 | _ =>
  simp only [WorkGate.step]
  split
  · exact .same rfl rfl rfl
  · exact .refl g

theorem Sound.final (h : g.Sound) (inputs : List Input) :
 (Run.final WorkGate.step g inputs).Sound ∧ Later g (Run.final WorkGate.step g inputs) := by
 refine Run.final_invariant (fun g' => g'.Sound ∧ Later g g') (fun s i hs => ?_) ⟨h, .refl g⟩ inputs
 exact ⟨hs.1.step i, hs.2.trans (later_step s i)⟩

theorem sound_reachable (h : Reachable g) : g.Sound :=
 Run.Reach.invariant Sound (fun _ heq => by rw [heq]; exact sound_empty)
  (fun _ i hs _ => hs.step i) h

theorem reachable_run (inputs : List Input) : Reachable (Run.final step empty inputs) :=
 Run.Reach.final_free (fun _ _ => trivial) (.init (by rfl)) inputs

/-- A gate that admits nothing: no permit, and no task from any permit. -/
def Refuses (g : WorkGate) : Prop :=
 g.enter = none ∧ ∀ node runtime g', g.spawn node runtime ≠ .ok g'

/-- No admitted task, closure or permit is alive. -/
def Quiet (g : WorkGate) : Prop :=
 (∀ task ∈ g.tasks, task.live = false) ∧ (∀ closure ∈ g.blocking, closure.live = false)
  ∧ ∀ p, g.permit? p = none

theorem refuses_closing (h : g.closing = true) : g.Refuses := by
 refine ⟨by simp [enter, h], fun node runtime g' hs => ?_⟩
 exact absurd (spawn_ok hs).opened (by simp [h])

theorem Sound.quiet (h : g.Sound) {k : Nat} (hk : g.closes[k]? = some true) : g.Quiet := by
 have hnone : ¬ 0 < g.livePermits := fun hpos => h.unresolved hpos k hk
 refine ⟨fun task ht => ?_, fun closure hc => ?_, fun p => ?_⟩
 · obtain ⟨t, ht⟩ := getElem?_of_mem ht
   by_contra hlive
   exact hnone (livePermits_pos_task ht (by simpa using hlive))
 · obtain ⟨c, hc⟩ := getElem?_of_mem hc
   by_contra hlive
   exact hnone (livePermits_pos_blocking hc (by simpa using hlive))
 · cases hp : g.permit? p with
   | none => rfl
   | some node => exact absurd (livePermits_pos_held hp) hnone

end Bake.Work.WorkGate
