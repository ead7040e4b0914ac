import Bake.AgentSession.Activity

/-!
# The session's context has one owner

At most one call at a time is a prompt's run, a manual compaction or a navigation: it
`operates`. `Place.Owned` says what such a call may rely on, the whole activity among it, so
that its flags are its own to clear. One claim is not made with a look at the activity,
`compact`'s behind its abort: the results are about runs in which it finds the session idle.
-/

open Bool Option Or
open List (countP_append countP_eq_zero countP_pos_iff countP_set countP_singleton
 getElem?_append_left getElem?_append_right getElem?_set_ne getElem?_set_self mem_append_left
 mem_iff_getElem? mem_of_getElem? mem_set)

namespace Bake.AgentSession

open Core

/-! ## What a call holds -/

/-- The automatic compaction's flag is set. -/
def Recovery.isBusy : Recovery → Bool
 | .busy | .unregistered => true
 | .none | .registered | .cleared | .waiting => false

def Recovery.Registered (s : Core) (t : Nat) : Recovery → Prop
 | .registered | .busy | .cleared => s.autoCompactionAbort = some t
 | .waiting => s.retryAbort = some t
 | .none | .unregistered => True

namespace Place

def runs : Place → Bool
 | .promptSpawn _ _ | .running _ _ _ | .unwound _ _ _ | .drainAgent _ _ _ | .drainCommits _ _
 | .release _ _ => true
 | _ => false

def compacts : Place → Bool
 | .compactBegin | .compacting | .compactEnd => true
 | _ => false

def navigates : Place → Bool
 | .navigateBegin | .navigating | .navigateEnd => true
 | _ => false

def autoCompacts : Place → Bool
 | .running _ _ recovery | .unwound _ _ recovery | .drainAgent _ _ recovery => recovery.isBusy
 | _ => false

def commits : Place → Bool
 | .committing => true
 | _ => false

def operates (p : Place) : Bool := p.runs || p.compacts || p.navigates

/-- The run's execution and its control. -/
def execution : Place → Option (Nat × Nat)
 | .promptSpawn c id | .running c id _ | .unwound c id _ | .drainAgent c id _
 | .drainCommits c id | .release c id => some (id, c.control)
 | _ => none

/-- The activity while the call operates, or while none does. -/
def activity (p : Place) (contextCommits : Nat) : Activity where
 run := p.runs
 manualCompaction := p.compacts
 autoCompaction := p.autoCompacts
 contextCommits := contextCommits
 navigation := p.navigates

/-- The abort controller a call registered is in its slot. -/
def Registered (s : Core) (t : Nat) : Place → Prop
 | .running _ _ recovery | .unwound _ _ recovery | .drainAgent _ _ recovery =>
  recovery.Registered s t
 | .compacting => s.compactionAbort = some t
 | .navigating => s.branchSummaryAbort = some t
 | _ => True

end Place

structure Core.Shows (s : Core) (p : Place) : Prop where
 activity : s.activity = p.activity s.activity.contextCommits
 current : s.current = p.execution.map Prod.fst
 control : s.runControl = p.execution.map Prod.snd

/-- What a run may rely on. Its execution's identity is used once. -/
structure Core.Runs (s : Core) (c : Prompt) (id : Nat) (auto : Bool) : Prop where
 activity : s.activity = {
  run := true, autoCompaction := auto, contextCommits := s.activity.contextCommits }
 current : s.current = some id
 control : s.runControl = some c.control
 known : id ≤ s.nextId

/-- What a compaction or a navigation may rely on. -/
structure Core.Holds (s : Core) (manual navigation : Bool) : Prop where
 activity : s.activity = {
  manualCompaction := manual, navigation := navigation
  contextCommits := s.activity.contextCommits }
 current : s.current = none
 control : s.runControl = none

/-- What a call may rely on where it stands. -/
def Place.Owned (s : Core) (t : Nat) : Place → Prop
 | .promptSpawn c id | .drainCommits c id | .release c id => s.Runs c id false
 | .running c id recovery | .unwound c id recovery | .drainAgent c id recovery =>
  s.Runs c id recovery.isBusy ∧ recovery.Registered s t
 | .publish _ id | .interrupted _ id => id ≤ s.nextId ∧ s.current ≠ some id
 | .compactBegin | .compactEnd => s.Holds true false
 | .compacting => s.Holds true false ∧ s.compactionAbort = some t
 | .navigateBegin | .navigateEnd => s.Holds false true
 | .navigating => s.Holds false true ∧ s.branchSummaryAbort = some t
 | _ => True

/-- What a call leaves that does not operate: all but the number of commits. -/
structure Core.Same (s s' : Core) : Prop where
 activity : s'.activity = { s.activity with contextCommits := s'.activity.contextCommits }
 current : s'.current = s.current
 control : s'.runControl = s.runControl
 nextId : s'.nextId = s.nextId
 retry : s'.retryAbort = s.retryAbort
 compaction : s'.compactionAbort = s.compactionAbort
 autoCompaction : s'.autoCompactionAbort = s.autoCompactionAbort
 branchSummary : s'.branchSummaryAbort = s.branchSummaryAbort

/-- What a claim may rely on: automatic compaction is part of a run, and an idle session has
no execution. -/
structure Core.Claimable (s : Core) : Prop where
 auto : s.activity.autoCompaction → s.activity.run
 idle : s.activity.idle → s.current = none ∧ s.runControl = none

/-- What one step of a call does. -/
structure Takes (s : Core) (t : Nat) (p : Place) (s' : Core) (p' : Place) : Prop where
 owned : p'.Owned s' t
 begins : p.operates = false → p'.operates → s.activity.idle
 quiet : p.operates = false → p'.operates = false → s.Same s'
 ends : p.operates → p'.operates = false → s'.Shows .returned
 commits : s'.activity.contextCommits + p.commits.toNat
  = s.activity.contextCommits + p'.commits.toNat
 grows : s.nextId ≤ s'.nextId
 current : s'.current = s.current ∨ s'.current = none ∨ s'.current = some (s.nextId + 1)
 refused : ∀ error, p' = .refused error → s' = s

/-! ## One step -/

variable {s s' : Core} {t : Nat} {p p' : Place}

theorem Core.Same.refl (s : Core) : s.Same s := ⟨rfl, rfl, rfl, rfl, rfl, rfl, rfl, rfl⟩

theorem Place.Owned.shows (h : p.Owned s t) (ho : p.operates) : s.Shows p := by
 cases p with
 | running c id recovery | unwound c id recovery | drainAgent c id recovery =>
  exact ⟨h.1.activity, h.1.current, h.1.control⟩
 | promptSpawn c id | drainCommits c id | release c id => exact ⟨h.activity, h.current, h.control⟩
 | compactBegin | compactEnd | navigateBegin | navigateEnd =>
  exact ⟨h.activity, h.current, h.control⟩
 | compacting | navigating => exact ⟨h.1.activity, h.1.current, h.1.control⟩
 | _ => exact absurd ho false_ne_true

theorem Place.Owned.registered (h : p.Owned s t) : p.Registered s t := by
 cases p with
 | running _ _ _ | unwound _ _ _ | drainAgent _ _ _ | compacting | navigating => exact h.2
 | _ => trivial

theorem Core.Shows.busy (h : s.Shows p) (ho : p.operates) : s.activity.idle = false := by
 rw [h.activity]
 simp only [Place.operates, or_eq_true] at ho
 rcases ho with (ho | ho) | ho <;> simp [Activity.idle, Place.activity, ho]

theorem Activity.idle_eq {a : Activity} (h : a.idle) : a = {} := by
 obtain ⟨run, manual, auto, commits, navigation⟩ := a
 simp only [idle, and_eq_true, not_eq_true', beq_iff_eq] at h
 obtain ⟨⟨⟨⟨rfl, rfl⟩, rfl⟩, rfl⟩, rfl⟩ := h
 rfl

theorem Core.Claimable.holds (h : s.Claimable) (hi : s.activity.idle) : s.Holds false false := by
 obtain ⟨hcurrent, hcontrol⟩ := h.idle hi
 exact ⟨by rw [Activity.idle_eq hi], hcurrent, hcontrol⟩

/-! ## The kinds of steps -/

theorem Takes.free (ho : p.operates = false) (ho' : p'.operates = false)
 (hc : p.commits = p'.commits) (hs : s.Same s')
 (hn : s'.activity.contextCommits = s.activity.contextCommits) (howned : p'.Owned s' t)
 (hr : ∀ error, p' = .refused error → s' = s) : Takes s t p s' p' where
 owned := howned
 begins := fun _ h => absurd (h.symm.trans ho') (by simp)
 quiet := fun _ _ => hs
 ends := fun h => absurd (h.symm.trans ho) (by simp)
 commits := by rw [hn, hc]
 grows := Nat.le_of_eq hs.nextId.symm
 current := inl hs.current
 refused := hr

theorem Takes.work (ho : p.operates) (ho' : p'.operates)
 (howned : p'.Owned s' t) (hn : s'.activity.contextCommits = s.activity.contextCommits)
 (hid : s'.nextId = s.nextId) (hcurrent : s'.current = s.current) : Takes s t p s' p' where
 owned := howned
 begins := fun h => absurd (h.symm.trans ho) (by simp)
 quiet := fun h => absurd (h.symm.trans ho) (by simp)
 ends := fun _ h => absurd (h.symm.trans ho') (by simp)
 commits := by
  have hfalse : ∀ q : Place, q.operates → q.commits = false := by
   intro q hq
   cases q <;> first | rfl | exact absurd hq false_ne_true
  rw [hn, hfalse p ho, hfalse p' ho']
 grows := Nat.le_of_eq hid.symm
 current := inl hcurrent
 refused := fun error he => by
  subst he
  exact absurd ho' false_ne_true

theorem Takes.start (ho : p.operates = false) (hc : p.commits = false) (ho' : p'.operates)
 (hi : s.activity.idle) (howned : p'.Owned s' t)
 (hn : s'.activity.contextCommits = s.activity.contextCommits) (hid : s.nextId ≤ s'.nextId)
 (hcurrent : s'.current = s.current ∨ s'.current = some (s.nextId + 1)) :
 Takes s t p s' p' where
 owned := howned
 begins := fun _ _ => hi
 quiet := fun _ h => absurd (h.symm.trans ho') (by simp)
 ends := fun h => absurd (h.symm.trans ho) (by simp)
 commits := by
  have hc' : p'.commits = false := by
   cases p' <;> first | rfl | exact absurd ho' false_ne_true
  rw [hn, hc, hc']
 grows := hid
 current := hcurrent.imp id inr
 refused := fun error he => by
  subst he
  exact absurd ho' false_ne_true

theorem Takes.finish (ho : p.operates) (hc' : p'.commits = false)
 (howned : p'.Owned s' t) (hshows : s'.Shows .returned)
 (hn : s'.activity.contextCommits = s.activity.contextCommits) (hid : s'.nextId = s.nextId)
 (hr : ∀ error, p' ≠ .refused error) : Takes s t p s' p' where
 owned := howned
 begins := fun h => absurd (h.symm.trans ho) (by simp)
 quiet := fun h => absurd (h.symm.trans ho) (by simp)
 ends := fun _ _ => hshows
 commits := by
  have hc : p.commits = false := by
   cases p <;> first | rfl | exact absurd ho false_ne_true
  rw [hn, hc, hc']
 grows := Nat.le_of_eq hid.symm
 current := inr (inl hshows.current)
 refused := fun error he => absurd he (hr error)

variable {answer : Answer} {c : Interleave.Config Core Place}

theorem recover_runs {c : Prompt} {id : Nat} {recovery : Recovery} {r : Core × Recovery}
 (h : s.Runs c id recovery.isBusy) (hreg : recovery.Registered s t)
 (hn : s.recover t recovery answer = some r) :
 (r.1.Runs c id r.2.isBusy ∧ r.2.Registered r.1 t)
  ∧ r.1.activity.contextCommits = s.activity.contextCommits
  ∧ r.1.nextId = s.nextId ∧ r.1.current = s.current := by
 obtain ⟨ha, hcurrent, hcontrol, hknown⟩ := h
 have hauto : ∀ auto, ({ s.activity with autoCompaction := auto } : Activity)
  = { run := true, autoCompaction := auto, contextCommits := s.activity.contextCommits } :=
  fun auto => congrArg (fun a : Activity => { a with autoCompaction := auto }) ha
 cases recovery with
 | none =>
  cases answer with
  | compact | retry =>
   cases hn; exact ⟨⟨⟨ha, hcurrent, hcontrol, hknown⟩, rfl⟩, rfl, rfl, rfl⟩
  | _ => simp [recover] at hn
 | registered =>
  cases answer with
  | go =>
   exact some.inj hn ▸ ⟨⟨⟨hauto true, hcurrent, hcontrol, hknown⟩, hreg⟩, rfl, rfl, rfl⟩
  | stop =>
   cases hn; exact ⟨⟨⟨ha, hcurrent, hcontrol, hknown⟩, trivial⟩, rfl, rfl, rfl⟩
  | _ => simp [recover] at hn
 | busy =>
  cases answer with
  | go =>
   cases hn; exact ⟨⟨⟨ha, hcurrent, hcontrol, hknown⟩, trivial⟩, rfl, rfl, rfl⟩
  | stop =>
   exact some.inj hn ▸ ⟨⟨⟨hauto false, hcurrent, hcontrol, hknown⟩, hreg⟩, rfl, rfl, rfl⟩
  | _ => simp [recover] at hn
 | unregistered =>
  cases answer with
  | go =>
   exact some.inj hn ▸ ⟨⟨⟨hauto false, hcurrent, hcontrol, hknown⟩, trivial⟩, rfl, rfl, rfl⟩
  | _ => simp [recover] at hn
 | cleared | waiting =>
  cases answer with
  | go =>
   cases hn; exact ⟨⟨⟨ha, hcurrent, hcontrol, hknown⟩, trivial⟩, rfl, rfl, rfl⟩
  | _ => simp [recover] at hn

theorem Takes.recover {c : Prompt} {id : Nat} {recovery : Recovery} {r : Core × Recovery}
 (h : s.Runs c id recovery.isBusy ∧ recovery.Registered s t)
 (hn : s.recover t recovery answer = some r) (ho : p.operates) (ho' : p'.operates)
 (hp : r.1.Runs c id r.2.isBusy ∧ r.2.Registered r.1 t → p'.Owned r.1 t) : Takes s t p r.1 p' := by
 obtain ⟨howned, hcommits, hid, hcurrent⟩ := recover_runs h.1 h.2 hn
 exact .work ho ho' (hp howned) hcommits hid hcurrent

theorem releaseExecution_shows {c : Prompt} {id : Nat} (h : s.Runs c id false) :
 (s.releaseExecution id).Shows .returned
  ∧ (s.releaseExecution id).activity.contextCommits = s.activity.contextCommits
  ∧ (s.releaseExecution id).nextId = s.nextId := by
 rw [releaseExecution, if_pos h.current]
 exact ⟨⟨congrArg (fun a : Activity => { a with run := false }) h.activity, rfl, rfl⟩, rfl, rfl⟩

theorem promptRefusal_none {streaming : Bool} (h : s.Claimable)
 (hr : s.promptRefusal streaming = none) : s.activity.idle := by
 unfold promptRefusal at hr
 by_cases hcommits : s.activity.contextCommits ≠ 0
 · simp [hcommits] at hr
 rw [if_neg hcommits] at hr
 by_cases hmanual : s.activity.manualCompaction
 · simp [hmanual] at hr
 rw [if_neg hmanual] at hr
 by_cases hnavigation : s.activity.navigation
 · simp [hnavigation] at hr
 rw [if_neg hnavigation] at hr
 by_cases hrun : (s.activity.run || streaming) = true
 · simp [hrun] at hr
 have hrun : ¬ s.activity.run := fun hr => hrun (by rw [hr, Bool.true_or])
 have hauto : ¬ s.activity.autoCompaction := fun ha => hrun (h.auto ha)
 simp [Activity.idle, hrun, hmanual, hauto, hnavigation, Decidable.not_not.mp hcommits]

theorem claimRefusal_none {streaming : Bool} {whileStreaming whileBusy : String}
 (hr : s.claimRefusal streaming whileStreaming whileBusy = none) : s.activity.idle := by
 unfold claimRefusal at hr
 split at hr
 · simp at hr
 · split at hr
   · assumption
   · simp at hr

theorem setManual_begins (h : s.Holds false false) : (s.setManual true).Holds true false :=
 ⟨congrArg (fun a : Activity => { a with manualCompaction := true }) h.activity, h.current,
  h.control⟩

theorem setManual_ends (h : s.Holds true false) : (s.setManual false).Shows .returned :=
 ⟨congrArg (fun a : Activity => { a with manualCompaction := false }) h.activity, h.current,
  h.control⟩

theorem setNavigation_begins (h : s.Holds false false) : (s.setNavigation true).Holds false true :=
 ⟨congrArg (fun a : Activity => { a with navigation := true }) h.activity, h.current, h.control⟩

theorem setNavigation_ends (h : s.Holds false true) : (s.setNavigation false).Shows .returned :=
 ⟨congrArg (fun a : Activity => { a with navigation := false }) h.activity, h.current, h.control⟩

theorem Takes.same (ho : p.operates = false) (ho' : p'.operates = false)
 (hc : p.commits = p'.commits) (howned : p'.Owned s t) : Takes s t p s p' :=
 .free ho ho' hc (.refl s) rfl howned fun _ _ => rfl

theorem Takes.stay (ho : p.operates) (ho' : p'.operates) (howned : p'.Owned s t) :
 Takes s t p s p' :=
 .work ho ho' howned rfl rfl rfl

theorem Takes.complete (ho : p.operates = false) (hc : p.commits = false) (id : Nat) :
 Takes s t p { s with completed := s.completed ++ [id] } .returned :=
 .free ho rfl hc ⟨rfl, rfl, rfl, rfl, rfl, rfl, rfl, rfl⟩ rfl trivial fun _ h => by simp at h

theorem aborted_owned (compact : Bool) : (aborted compact).Owned s t := by
 cases compact <;> trivial

theorem Takes.afterAbort (ho : p.operates = false) (hc : p.commits = false) (compact : Bool) :
 Takes s t p s (aborted compact) := by
 refine .same ho ?_ ?_ (aborted_owned compact)
 · cases compact <;> rfl
 · cases compact <;> exact hc

section

variable {c : Prompt} {id : Nat} {recovery : Recovery} {answer : Answer} {r : Core × Place}

theorem nextRunning_cases (hn : s.nextRunning t c id recovery answer = some r) :
 (recovery = .none ∧ r = (s, .drainAgent c id .none)) ∨ r = (s, .unwound c id recovery)
  ∨ ∃ r', s.recover t recovery answer = some r' ∧ r = (r'.1, .running c id r'.2) := by
 unfold nextRunning at hn
 split at hn
 · exact inl ⟨rfl, (some.inj hn).symm⟩
 · exact inr (inl (some.inj hn).symm)
 · obtain ⟨r', hr, hp⟩ := map_eq_some_iff.mp hn
   exact inr (inr ⟨r', hr, hp.symm⟩)

theorem nextUnwound_cases (hcurrent : s.current = some id)
 (hn : s.nextUnwound t c id recovery answer = some r) :
 r = (s, .drainAgent c id recovery)
  ∨ ∃ r', s.recover t recovery answer = some r' ∧ r = (r'.1, .unwound c id r'.2) := by
 unfold nextUnwound at hn
 split at hn
 · rw [if_pos hcurrent] at hn
   exact inl (some.inj hn).symm
 · obtain ⟨r', hr, hp⟩ := map_eq_some_iff.mp hn
   exact inr ⟨r', hr, hp.symm⟩

theorem nextDrain_cases (hn : s.nextDrain t c id recovery answer = some r) :
 (recovery = .none ∧ r = (s, .drainCommits c id)) ∨ r = (s, .unwound c id recovery)
  ∨ ∃ r', s.recover t recovery answer = some r' ∧ r = (r'.1, .drainAgent c id r'.2) := by
 unfold nextDrain at hn
 split at hn
 · exact inl ⟨rfl, (some.inj hn).symm⟩
 · exact inr (inl (some.inj hn).symm)
 · obtain ⟨r', hr, hp⟩ := map_eq_some_iff.mp hn
   exact inr (inr ⟨r', hr, hp.symm⟩)

end

/-- **One step of a call**, with a look at the activity where `compact` claims it. -/
theorem next_takes (h : p.Owned s t) (hclaim : s.Claimable)
 (hcount : p.commits.toNat ≤ s.activity.contextCommits)
 (hguard : p = .compactClaim → s.activity.idle) {r : Core × Place}
 (hn : s.next t p answer = some r) : Takes s t p r.1 r.2 := by
 cases p with
 | promptClaim c streaming =>
  cases answer with
  | go =>
   rw [next] at hn
   split at hn
   · cases hn; exact .same rfl rfl rfl trivial
   next hnone =>
    have hidle := promptRefusal_none hclaim hnone
    have hholds := hclaim.holds hidle
    cases hn
    refine .start rfl rfl rfl hidle ?_ rfl (Nat.le_succ _) (inr rfl)
    exact ⟨congrArg (fun a : Activity => { a with run := true }) hholds.activity, rfl, rfl,
     Nat.le_refl _⟩
  | _ => simp [next] at hn
 | promptSpawn c id =>
  cases answer with
  | go => cases hn; exact .stay rfl rfl ⟨h, trivial⟩
  | closed _ => cases hn; exact .stay rfl rfl h
  | _ => simp [next] at hn
 | running c id recovery =>
  rcases nextRunning_cases hn with ⟨rfl, rfl⟩ | rfl | ⟨r', hr, rfl⟩
  · exact .stay rfl rfl h
  · exact .stay rfl rfl h
  · exact .recover h hr rfl rfl fun h => h
 | unwound c id recovery =>
  rcases nextUnwound_cases h.1.current hn with rfl | ⟨r', hr, rfl⟩
  · exact .stay rfl rfl h
  · exact .recover h hr rfl rfl fun h => h
 | drainAgent c id recovery =>
  rcases nextDrain_cases hn with ⟨rfl, rfl⟩ | rfl | ⟨r', hr, rfl⟩
  · exact .stay rfl rfl h.1
  · exact .stay rfl rfl h
  · exact .recover h hr rfl rfl fun h => h
 | drainCommits c id =>
  cases answer with
  | go =>
   rw [next] at hn
   split at hn
   · cases hn; exact .stay rfl rfl h
   · simp at hn
  | lose => cases hn; exact .stay rfl rfl ⟨h, trivial⟩
  | _ => simp [next] at hn
 | release c id =>
  cases answer with
  | go =>
   obtain ⟨hshows, hcommits, hid⟩ := releaseExecution_shows h
   cases hn
   refine .finish rfl rfl ⟨hid ▸ h.known, ?_⟩ hshows hcommits hid fun _ => by simp
   rw [hshows.current]
   simp [Place.execution]
  | _ => simp [next] at hn
 | publish c id =>
  cases answer with
  | go => cases hn; exact .complete rfl rfl id
  | lose => cases hn; exact .same rfl rfl rfl h
  | _ => simp [next] at hn
 | interrupted c id =>
  cases answer with
  | go =>
   rw [next, if_neg h.2] at hn
   cases hn; exact .complete rfl rfl id
  | _ => simp [next] at hn
 | abortEntry compact =>
  cases answer with
  | go =>
   rw [next] at hn
   split at hn <;> cases hn <;> exact .free rfl rfl rfl
    ⟨rfl, rfl, rfl, rfl, rfl, rfl, rfl, rfl⟩ rfl trivial fun _ h => by simp at h
  | _ => simp [next] at hn
 | waitExecution compact id | waitIdle compact =>
  cases answer with
  | go =>
   rw [next] at hn
   split at hn
   · cases hn; exact .afterAbort rfl rfl compact
   · simp at hn
  | lose => cases hn; exact .same rfl rfl rfl trivial
  | _ => simp [next] at hn
 | waitAgent compact =>
  cases answer with
  | go | lose => cases hn; exact .same rfl rfl rfl trivial
  | _ => simp [next] at hn
 | compactClaim =>
  cases answer with
  | go =>
   have hidle := hguard rfl
   cases hn; exact .start rfl rfl rfl hidle
    (setManual_begins (hclaim.holds hidle)) rfl (Nat.le_refl _) (inl rfl)
  | _ => simp [next] at hn
 | whenIdleClaim streaming =>
  cases answer with
  | go =>
   rw [next] at hn
   split at hn
   · cases hn; exact .same rfl rfl rfl trivial
   next hnone =>
    have hidle := claimRefusal_none hnone
    cases hn; exact .start rfl rfl rfl hidle
     (setManual_begins (hclaim.holds hidle)) rfl (Nat.le_refl _) (inl rfl)
  | _ => simp [next] at hn
 | compactBegin =>
  cases answer with
  | go =>
   cases hn; exact .work rfl rfl ⟨⟨h.activity, h.current, h.control⟩, rfl⟩ rfl rfl rfl
  | lose =>
   exact some.inj hn ▸ .finish rfl rfl trivial (setManual_ends h) rfl rfl fun _ => by simp
  | _ => simp [next] at hn
 | compacting =>
  cases answer with
  | go =>
   cases hn; exact .work rfl rfl ⟨h.1.activity, h.1.current, h.1.control⟩ rfl rfl rfl
  | lose =>
   exact some.inj hn ▸ .finish rfl rfl trivial (setManual_ends h.1) rfl rfl fun _ => by simp
  | _ => simp [next] at hn
 | compactEnd =>
  cases answer with
  | go | lose =>
   exact some.inj hn ▸ .finish rfl rfl trivial (setManual_ends h) rfl rfl fun _ => by simp
  | _ => simp [next] at hn
 | navigateClaim streaming =>
  cases answer with
  | go =>
   rw [next] at hn
   split at hn
   · cases hn; exact .same rfl rfl rfl trivial
   next hnone =>
    have hidle := claimRefusal_none hnone
    cases hn; exact .start rfl rfl rfl hidle
     (setNavigation_begins (hclaim.holds hidle)) rfl (Nat.le_refl _) (inl rfl)
  | _ => simp [next] at hn
 | navigateBegin =>
  cases answer with
  | go =>
   cases hn; exact .work rfl rfl ⟨⟨h.activity, h.current, h.control⟩, rfl⟩ rfl rfl rfl
  | _ => simp [next] at hn
 | navigating =>
  cases answer with
  | go =>
   cases hn; exact .work rfl rfl ⟨h.1.activity, h.1.current, h.1.control⟩ rfl rfl rfl
  | _ => simp [next] at hn
 | navigateEnd =>
  cases answer with
  | go =>
   exact some.inj hn ▸ .finish rfl rfl trivial (setNavigation_ends h) rfl rfl fun _ => by simp
  | _ => simp [next] at hn
 | commitEntry =>
  cases answer with
  | closed error => cases hn; exact .same rfl rfl rfl trivial
  | go =>
   cases hn; exact ⟨trivial, fun _ h => absurd h false_ne_true,
    fun _ _ => ⟨rfl, rfl, rfl, rfl, rfl, rfl, rfl, rfl⟩,
    fun h => absurd h false_ne_true, rfl, Nat.le_refl _, inl rfl,
    fun _ h => by simp at h⟩
  | _ => simp [next] at hn
 | committing =>
  cases answer with
  | go =>
   cases hn; exact ⟨trivial, fun _ h => absurd h false_ne_true,
    fun _ _ => ⟨rfl, rfl, rfl, rfl, rfl, rfl, rfl, rfl⟩,
    fun h => absurd h false_ne_true, Nat.sub_add_cancel hcount, Nat.le_refl _,
    inl rfl, fun _ h => by simp at h⟩
  | _ => simp [next] at hn
 | refused _ | returned => simp [next] at hn
 | _ =>
  cases answer with
  | closed error | reads streaming => cases hn; exact .same rfl rfl rfl trivial
  | _ => simp [next] at hn

/-! ## The other calls -/

section

variable {u : Nat} {q : Place}

section

variable (hs : s.Same s')

include hs

theorem Core.Same.runs {c : Prompt} {id : Nat} {auto : Bool}
 (h : s.Runs c id auto) : s'.Runs c id auto := by
 refine ⟨?_, hs.current.trans h.current, hs.control.trans h.control, hs.nextId ▸ h.known⟩
 have ha := congrArg (fun a : Activity =>
  { a with contextCommits := s'.activity.contextCommits }) h.activity
 exact hs.activity.trans ha

theorem Core.Same.holds {manual navigation : Bool}
 (h : s.Holds manual navigation) : s'.Holds manual navigation := by
 refine ⟨?_, hs.current.trans h.current, hs.control.trans h.control⟩
 have ha := congrArg (fun a : Activity =>
  { a with contextCommits := s'.activity.contextCommits }) h.activity
 exact hs.activity.trans ha

theorem Core.Same.shows (h : s.Shows p) : s'.Shows p := by
 refine ⟨?_, hs.current.trans h.current, hs.control.trans h.control⟩
 have ha := congrArg (fun a : Activity =>
  { a with contextCommits := s'.activity.contextCommits }) h.activity
 exact hs.activity.trans ha

theorem Core.Same.registered {recovery : Recovery}
 (h : recovery.Registered s u) : recovery.Registered s' u := by
 cases recovery with
 | waiting => exact hs.retry.trans h
 | none | unregistered => trivial
 | _ => exact hs.autoCompaction.trans h

theorem Core.Same.owned (ho : q.operates) (h : q.Owned s u) : q.Owned s' u := by
 cases q with
 | promptSpawn _ _ | drainCommits _ _ | release _ _ => exact hs.runs h
 | running _ _ _ | unwound _ _ _ | drainAgent _ _ _ => exact ⟨hs.runs h.1, hs.registered h.2⟩
 | compactBegin | compactEnd | navigateBegin | navigateEnd => exact hs.holds h
 | compacting => exact ⟨hs.holds h.1, hs.compaction.trans h.2⟩
 | navigating => exact ⟨hs.holds h.1, hs.branchSummary.trans h.2⟩
 | _ => exact absurd ho false_ne_true

end

theorem Takes.other (h : Takes s t p s' p') (hq : q.Owned s u)
 (hone : q.operates → p.operates = false ∧ p'.operates = false) : q.Owned s' u := by
 by_cases ho : q.operates
 · exact (h.quiet (hone ho).1 (hone ho).2).owned ho hq
 cases q with
 | publish c id | interrupted c id =>
  obtain ⟨hid, hcurrent⟩ := hq
  refine ⟨Nat.le_trans hid h.grows, ?_⟩
  rcases h.current with heq | heq | heq <;> rw [heq]
  · exact hcurrent
  · exact nofun
  · -- an identity that was given is not given again
    intro he
    have := some.inj he
    omega
 | promptSpawn _ _ | drainCommits _ _ | release _ _ | running _ _ _ | unwound _ _ _
 | drainAgent _ _ _ | compactBegin | compactEnd | compacting | navigateBegin | navigating
 | navigateEnd => exact absurd rfl ho
 | _ => trivial

end

/-! ## Runs -/

/-- What holds of every state of a run. -/
structure Holds (c : Interleave.Config Core Place) : Prop where
 owned : ∀ (t : Nat) (p : Place), c.tasks[t]? = some p → p.Owned c.shared t
 single : ∀ (t u : Nat) (p q : Place), c.tasks[t]? = some p → c.tasks[u]? = some q →
  p.operates → q.operates → t = u
 free : (∀ p ∈ c.tasks, p.operates = false) → c.shared.Shows .returned
 commits : c.shared.activity.contextCommits = c.tasks.countP Place.commits

namespace Holds

variable {c : Interleave.Config Core Place}

theorem shows (h : Holds c) :
 (∃ (t : Nat) (p : Place), c.tasks[t]? = some p ∧ p.operates ∧ c.shared.Shows p)
  ∨ (∀ p ∈ c.tasks, p.operates = false) ∧ c.shared.Shows .returned := by
 by_cases hex : ∃ p ∈ c.tasks, p.operates
 · obtain ⟨p, hmem, ho⟩ := hex
   obtain ⟨t, ht⟩ := mem_iff_getElem?.mp hmem
   exact inl ⟨t, p, ht, ho, (h.owned t p ht).shows ho⟩
 · have hno : ∀ p ∈ c.tasks, p.operates = false :=
    fun p hp => eq_false_iff.mpr fun ho => hex ⟨p, hp, ho⟩
   exact inr ⟨hno, h.free hno⟩

theorem claimable (h : Holds c) : c.shared.Claimable := by
 rcases h.shows with ⟨t, p, ht, ho, hs⟩ | ⟨-, hs⟩
 · refine ⟨fun ha => ?_, fun hi => absurd (hi.symm.trans (hs.busy ho)) (by simp)⟩
   rw [hs.activity] at ha ⊢
   cases p <;> first | rfl | exact absurd ha false_ne_true
 · refine ⟨fun ha => ?_, fun _ => ⟨hs.current, hs.control⟩⟩
   rw [hs.activity] at ha
   exact absurd ha false_ne_true

theorem count (h : Holds c) (ht : c.tasks[t]? = some p) :
 p.commits.toNat ≤ c.shared.activity.contextCommits := by
 rw [h.commits]
 cases hp : p.commits with
 | false => exact Nat.zero_le _
 | true => exact countP_pos_iff.mpr ⟨p, mem_of_getElem? ht, hp⟩

theorem spawn (h : Holds c) (hp : calls.entry p) : Holds { c with tasks := c.tasks ++ [p] } := by
 have hidle : p.operates = false ∧ p.commits = false ∧ ∀ t, p.Owned c.shared t := by
  cases p <;> first | exact ⟨rfl, rfl, fun _ => trivial⟩ | exact absurd hp false_ne_true
 have hget : ∀ (t : Nat) (q : Place), (c.tasks ++ [p])[t]? = some q →
  c.tasks[t]? = some q ∨ q = p := by
  intro t q ht
  by_cases hlt : t < c.tasks.length
  · exact inl (by rwa [getElem?_append_left hlt] at ht)
  · rw [getElem?_append_right (Nat.le_of_not_lt hlt)] at ht
    exact inr (by simpa using mem_of_getElem? ht)
 refine ⟨fun t q ht => ?_, fun t u q q' ht hu hq hq' => ?_, fun hno => h.free fun q hq => ?_, ?_⟩
 · rcases hget t q ht with ht | rfl
   · exact h.owned t q ht
   · exact hidle.2.2 t
 · rcases hget t q ht with ht | rfl
   · rcases hget u q' hu with hu | rfl
     · exact h.single t u q q' ht hu hq hq'
     · exact absurd (hq'.symm.trans hidle.1) (by simp)
   · exact absurd (hq.symm.trans hidle.1) (by simp)
 · exact hno q (mem_append_left _ hq)
 · rw [countP_append, countP_singleton, hidle.2.1, h.commits]
   rfl

theorem run (h : Holds c) (ht : c.tasks[t]? = some p)
 (hk : Takes c.shared t p s' p') : Holds { shared := s', tasks := c.tasks.set t p' } := by
 have hlt : t < c.tasks.length := (List.getElem_of_getElem? ht).1
 have hget : ∀ (u : Nat) (q : Place), (c.tasks.set t p')[u]? = some q →
  (u = t ∧ q = p') ∨ (u ≠ t ∧ c.tasks[u]? = some q) := by
  intro u q hu
  by_cases hut : u = t
  · subst hut
    rw [getElem?_set_self hlt] at hu
    exact inl ⟨rfl, (some.inj hu).symm⟩
  · rw [getElem?_set_ne (fun he => hut he.symm)] at hu
    exact inr ⟨hut, hu⟩
 -- where another call operates, this one neither did nor does
 have hone : ∀ (u : Nat) (q : Place), u ≠ t → c.tasks[u]? = some q → q.operates →
  p.operates = false ∧ p'.operates = false := by
  intro u q hut hu hq
  have hp : p.operates = false := eq_false_iff.mpr fun ho => hut (h.single u t q p hu ht hq ho)
  refine ⟨hp, eq_false_iff.mpr fun ho => ?_⟩
  have hbusy := ((h.owned u q hu).shows hq).busy hq
  exact absurd ((hk.begins hp ho).symm.trans hbusy) (by simp)
 refine ⟨fun u q hu => ?_, fun u v q q' hu hv hq hq' => ?_, fun hno => ?_, ?_⟩
 · rcases hget u q hu with ⟨rfl, rfl⟩ | ⟨hut, hu⟩
   · exact hk.owned
   · exact hk.other (h.owned u q hu) (hone u q hut hu)
 · rcases hget u q hu with ⟨rfl, rfl⟩ | ⟨hut, hold⟩
   · rcases hget v q' hv with ⟨rfl, -⟩ | ⟨hvt, hold⟩
     · rfl
     · exact absurd ((hone v q' hvt hold hq').2.symm.trans hq) (by simp)
   · rcases hget v q' hv with ⟨-, rfl⟩ | ⟨hvt, hold'⟩
     · exact absurd ((hone u q hut hold hq).2.symm.trans hq') (by simp)
     · exact h.single u v q q' hold hold' hq hq'
 · have hp' : p'.operates = false := hno p' (mem_set hlt p')
   by_cases hp : p.operates
   · exact hk.ends hp hp'
   · have hp : p.operates = false := eq_false_iff.mpr hp
     refine (hk.quiet hp hp').shows (h.free fun q hq => ?_)
     obtain ⟨u, hu⟩ := mem_iff_getElem?.mp hq
     by_cases hut : u = t
     · subst hut
       rw [ht] at hu
       cases hu; exact hp
     · refine hno q (mem_of_getElem? (i := u) ?_)
       rwa [getElem?_set_ne (fun he => hut he.symm)]
 · have hget := (List.getElem_of_getElem? ht).2
   have hcount := hk.commits
   have hpos := h.count ht
   rw [h.commits] at hcount hpos
   show s'.activity.contextCommits = (c.tasks.set t p').countP Place.commits
   rw [countP_set hlt, hget]
   cases hp : p.commits <;> cases hp' : p'.commits <;> rw [hp, hp'] at hcount <;>
    rw [hp] at hpos <;> simp only [toNat_true, toNat_false] at hcount hpos <;>
    simp only [false_eq_true, if_true, if_false] <;> omega

end Holds

/-- `compact` finds the session idle when it sets its flag. -/
def FindsIdle (c : Interleave.Config Core Place) (i : Interleave.Input Place Answer Empty) : Prop :=
 ∀ t answer, i = .run t answer → c.tasks[t]? = some .compactClaim → c.shared.activity.idle

/-- **A step of the scheduler.** -/
theorem Holds.step (h : Holds c) {i : Interleave.Input Place Answer Empty} (hg : FindsIdle c i) :
 Holds (calls.step c i) := by
 cases i with
 | spawn p =>
  rw [Interleave.Program.step]
  split
  next hp =>
   exact h.spawn hp
  · exact h
 | run t answer =>
  simp only [Interleave.Program.step]
  split
  · exact h
  next p ht =>
   split
   · exact h
   next s' p' hn =>
    refine h.run ht (next_takes (h.owned t p ht) h.claimable (h.count ht) ?_ hn)
    rintro rfl
    exact hg t answer rfl ht
 | act e => exact e.elim

/-! ## One owner -/

/-- What is promised of a state: one operation at a time, each flag, the execution and its
control those of what is in progress, and each abort controller in its slot. -/
structure OneOwner (c : Interleave.Config Core Place) : Prop where
 single : ∀ (t u : Nat) (p q : Place), c.tasks[t]? = some p → c.tasks[u]? = some q →
  p.operates → q.operates → t = u
 run : c.shared.activity.run ↔ ∃ p ∈ c.tasks, p.runs
 manualCompaction : c.shared.activity.manualCompaction ↔ ∃ p ∈ c.tasks, p.compacts
 autoCompaction : c.shared.activity.autoCompaction ↔ ∃ p ∈ c.tasks, p.autoCompacts
 navigation : c.shared.activity.navigation ↔ ∃ p ∈ c.tasks, p.navigates
 contextCommits : c.shared.activity.contextCommits = c.tasks.countP Place.commits
 idle : c.shared.activity.idle ↔ ∀ p ∈ c.tasks, p.operates = false ∧ p.commits = false
 current : ∀ id, c.shared.current = some id ↔
  ∃ p ∈ c.tasks, ∃ control, p.execution = some (id, control)
 control : ∀ control, c.shared.runControl = some control ↔
  ∃ p ∈ c.tasks, ∃ id, p.execution = some (id, control)
 registered : ∀ (t : Nat) (p : Place), c.tasks[t]? = some p → p.Registered c.shared t

/-- What is promised of a call's step: an operation begins in an idle session, a refused call
changes nothing, and a commit that ends was counted. -/
structure Fair (s : Core) (p : Place) (s' : Core) (p' : Place) : Prop where
 begins : p.operates = false → p'.operates → s.activity.idle
 refused : ∀ error, p' = .refused error → s' = s
 counted : p = .committing → 0 < s.activity.contextCommits

/-- The session's context has one owner at a time, as far as the runs of a guard go. -/
def SolelyOwned (guard : Interleave.Config Core Place →
 Interleave.Input Place Answer Empty → Prop) : Prop :=
 ∀ c, Run.Reach (fun c => c.shared = opened ∧ c.tasks = []) calls.step guard c →
  OneOwner c ∧ ∀ (t : Nat) (p : Place) answer s' p', c.tasks[t]? = some p →
   guard c (.run t answer) → c.shared.next t p answer = some (s', p') →
   Fair c.shared p s' p'

namespace Holds

variable {c : Interleave.Config Core Place}

theorem flag_iff (h : Holds c) (flag : Core → Bool) {holds : Place → Bool}
 (hshows : ∀ p, c.shared.Shows p → flag c.shared = holds p)
 (hop : ∀ p, holds p → p.operates) : flag c.shared ↔ ∃ p ∈ c.tasks, holds p := by
 constructor
 · intro hf
   rcases h.shows with ⟨t, p, ht, -, hs⟩ | ⟨-, hs⟩
   · exact ⟨p, mem_of_getElem? ht, (hshows p hs).symm.trans hf⟩
   · exact absurd (hop _ ((hshows _ hs).symm.trans hf)) false_ne_true
 · rintro ⟨p, hmem, hp⟩
   obtain ⟨t, ht⟩ := mem_iff_getElem?.mp hmem
   exact (hshows p ((h.owned t p ht).shows (hop p hp))).trans hp

theorem execution_iff {α : Type} (h : Holds c) (field : Core → Option α) {of : Nat × Nat → α}
 (hshows : ∀ p, c.shared.Shows p → field c.shared = p.execution.map of) (a : α) :
 field c.shared = some a ↔ ∃ p ∈ c.tasks, ∃ e, p.execution = some e ∧ of e = a := by
 constructor
 · intro hf
   rcases h.shows with ⟨t, p, ht, -, hs⟩ | ⟨-, hs⟩
   · rw [hshows p hs] at hf
     obtain ⟨e, he, ha⟩ := map_eq_some_iff.mp hf
     exact ⟨p, mem_of_getElem? ht, e, he, ha⟩
   · rw [hshows _ hs] at hf
     exact absurd hf nofun
 · rintro ⟨p, hmem, e, he, rfl⟩
   obtain ⟨t, ht⟩ := mem_iff_getElem?.mp hmem
   have ho : p.operates := by
    cases p <;> first | rfl | exact absurd he nofun
   rw [hshows p ((h.owned t p ht).shows ho), he]
   rfl

theorem oneOwner (h : Holds c) : OneOwner c := by
 refine ⟨h.single, ?_, ?_, ?_, ?_, h.commits, ?_, fun id => ?_, fun control => ?_,
  fun t p ht => (h.owned t p ht).registered⟩
 · refine h.flag_iff (fun s => s.activity.run) (fun p hs => congrArg Activity.run hs.activity)
    fun p hp => ?_
   rw [Place.operates, hp]
   rfl
 · refine h.flag_iff (fun s => s.activity.manualCompaction)
    (fun p hs => congrArg Activity.manualCompaction hs.activity) fun p hp => ?_
   rw [Place.operates, hp, Bool.or_true]
   rfl
 · refine h.flag_iff (fun s => s.activity.autoCompaction)
    (fun p hs => congrArg Activity.autoCompaction hs.activity) fun p hp => ?_
   cases p <;> first | rfl | exact absurd hp Bool.false_ne_true
 · refine h.flag_iff (fun s => s.activity.navigation)
    (fun p hs => congrArg Activity.navigation hs.activity) fun p hp => ?_
   rw [Place.operates, hp, Bool.or_true]
 · constructor
   · intro hi p hmem
     refine ⟨Bool.eq_false_iff.mpr fun ho => ?_, Bool.eq_false_iff.mpr fun hp => ?_⟩
     · obtain ⟨t, ht⟩ := mem_iff_getElem?.mp hmem
       exact absurd (hi.symm.trans (((h.owned t p ht).shows ho).busy ho)) (by simp)
     · have hpos : 0 < c.shared.activity.contextCommits :=
        h.commits ▸ countP_pos_iff.mpr ⟨p, hmem, hp⟩
       rw [Activity.idle_eq hi] at hpos
       exact absurd hpos (by decide)
   · intro hno
     have hcount : c.shared.activity.contextCommits = 0 := by
      rw [h.commits, countP_eq_zero]
      exact fun p hmem => by rw [(hno p hmem).2]; exact Bool.false_ne_true
     rw [(h.free fun p hmem => (hno p hmem).1).activity, hcount]
     rfl
 · have hiff := h.execution_iff (fun s => s.current) (fun p hs => hs.current) id
   exact hiff.trans ⟨fun ⟨p, hmem, e, he, ha⟩ => ⟨p, hmem, e.2, ha ▸ he⟩,
    fun ⟨p, hmem, control, he⟩ => ⟨p, hmem, (id, control), he, rfl⟩⟩
 · have hiff := h.execution_iff (fun s => s.runControl) (fun p hs => hs.control) control
   exact hiff.trans ⟨fun ⟨p, hmem, e, he, ha⟩ => ⟨p, hmem, e.1, ha ▸ he⟩,
    fun ⟨p, hmem, id, he⟩ => ⟨p, hmem, (id, control), he, rfl⟩⟩

end Holds

theorem holds_opened : Holds { shared := opened, tasks := [] } :=
 ⟨fun t p ht => absurd ht (by simp), fun t u p q ht => absurd ht (by simp),
  fun _ => ⟨rfl, rfl, rfl⟩, rfl⟩

/-- **The session's context has one owner at a time** in every run in which `compact` finds the
session idle when it sets its flag. -/
theorem solelyOwned_of_findsIdle {c : Interleave.Config Core Place}
 (hreach : Run.Reach (fun c => c.shared = opened ∧ c.tasks = []) calls.step FindsIdle c) :
 OneOwner c ∧ ∀ (t : Nat) (p : Place) answer s' p', c.tasks[t]? = some p →
  FindsIdle c (.run t answer) → c.shared.next t p answer = some (s', p') →
  Fair c.shared p s' p' := by
 have hholds : Holds c := by
  refine hreach.invariant Holds (fun c hc => ?_) fun c i h hg => h.step hg
  obtain ⟨shared, tasks⟩ := c
  obtain ⟨rfl, rfl⟩ := hc
  exact holds_opened
 refine ⟨hholds.oneOwner, fun t p answer s' p' ht hg hn => ?_⟩
 have hk := next_takes (hholds.owned t p ht) hholds.claimable (hholds.count ht)
  (fun hp => hg t answer rfl (hp ▸ ht)) hn
 exact ⟨hk.begins, hk.refused, fun hp => by subst hp; exact hholds.count ht⟩

theorem findsIdle_run (h : c.tasks[t]? ≠ some .compactClaim) : FindsIdle c (.run t answer) :=
 fun _ _ he hp => absurd ((Interleave.Input.run.inj he).1 ▸ hp) h

/-- A prompt runs and `compact` waits for it. -/
def compactWaits : List (Interleave.Input Place Answer Empty) :=
 [.spawn (.promptEntry { control := 0, deliveryOnly := false }),
  .run 0 (.reads false), .run 0 .go, .run 0 .go, .spawn (.abortEntry true), .run 1 .go]

theorem solelyOwned_of_findsIdle_compactWaits : OneOwner (calls.run opened compactWaits) := by
 have hinit : Run.Reach (fun c => c.shared = opened ∧ c.tasks = []) calls.step FindsIdle
  { shared := opened, tasks := [] } := .init ⟨rfl, rfl⟩
 refine (solelyOwned_of_findsIdle (@Run.Reach.final _ _ _ _ _ _ hinit compactWaits ?_)).1
 exact ⟨nofun, findsIdle_run (by decide), findsIdle_run (by decide), findsIdle_run (by decide),
  nofun, findsIdle_run (by decide), trivial⟩

/-! ## Two compactions behind one run -/

/-- A prompt runs; two calls of `compact` abort it and wait for it; both go on. -/
def bothCompact : List (Interleave.Input Place Answer Empty) :=
 [.spawn (.promptEntry { control := 0, deliveryOnly := false }),
  .run 0 (.reads false), .run 0 .go, .run 0 .go,
  .spawn (.abortEntry true), .spawn (.abortEntry true), .run 1 .go, .run 2 .go,
  .run 0 .go, .run 0 .go, .run 0 .go, .run 0 .go, .run 0 .go,
  .run 1 .go, .run 2 .go, .run 1 .go, .run 2 .go]

/-- **Two manual compactions at once**: both calls waited for the same run, and neither looks
at the activity again. -/
theorem not_solelyOwned : ¬ SolelyOwned fun _ _ => True := by
 intro h
 have hinit : Run.Reach (fun c => c.shared = opened ∧ c.tasks = []) calls.step
  (fun _ _ => True) { shared := opened, tasks := [] } := .init ⟨rfl, rfl⟩
 have hone := (h _ (hinit.final_free (fun _ _ => trivial) bothCompact)).1.single 1 2
  .compactBegin .compactBegin (by decide) (by decide) rfl rfl
 exact absurd hone (by decide)

end Bake.AgentSession
