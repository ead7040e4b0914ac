import Bake.Codemode.Numbered

/-!
# A run is decided by its answers

Given the answers by number, the thread can take one step or none: what it does depends on
nothing else. A run that is not stopped is some number of such steps from the start, so of two
runs whose numbers stand for the same answers, one is a beginning of the other.
-/

open List

namespace Bake.Codemode

open Answer

variable {σ τ ρ κ ω ε : Type}

/-! ## Answers by number -/

/-- `given` has the answers accepted. -/
def Gives (given : UInt32 → Option (Answer τ ρ)) (accepted : List (Answer τ ρ)) : Prop :=
 ∀ a ∈ accepted, given a.seq = some a

/-- Two owners number the answers alike: a number stands for one answer of one call, with one
clock and one result. -/
def SameNumbers (a b : List (Answer τ ρ)) : Prop := ∀ x ∈ a, ∀ y ∈ b, x.seq = y.seq → x = y

/-- Two owners answer the calls alike: a call gets one answer, under one number. -/
def SameCalls (a b : List (Answer τ ρ)) : Prop := ∀ x ∈ a, ∀ y ∈ b, x.id = y.id → x = y

variable {a : List (Answer τ ρ)} {clock : τ} {given : UInt32 → Option (Answer τ ρ)}
 {machine : Machine σ τ ρ κ ω ε} {r : ScriptRun σ τ ρ κ ω ε}

theorem SameCalls.symm {b : List (Answer τ ρ)} (h : SameCalls a b) : SameCalls b a :=
 fun x hx y hy hid => (h y hy x hx hid.symm).symm

def byNumber (a : List (Answer τ ρ)) (n : UInt32) : Option (Answer τ ρ) := a.find? (·.seq = n)

theorem byNumber_of_mem (hd : (a.map seq).Nodup) {x : Answer τ ρ} (hx : x ∈ a) :
 byNumber a x.seq = some x := by
 cases hf : byNumber a x.seq with
 | none => exact absurd (decide_eq_true rfl) (find?_eq_none.mp hf x hx)
 | some y =>
  have hy : y.seq = x.seq := by simpa using find?_some hf
  exact congrArg some (inj_on_of_nodup_map hd (mem_of_find?_eq_some hf) hx hy)

theorem gives_byNumber (hd : (a.map seq).Nodup) : Gives (byNumber a) a :=
 fun _ hx => byNumber_of_mem hd hx

theorem mem_of_byNumber {n : UInt32} {x : Answer τ ρ} (h : byNumber a n = some x) :
 x ∈ a ∧ x.seq = n := ⟨mem_of_find?_eq_some h, by simpa using find?_some h⟩

theorem exists_gives {b : List (Answer τ ρ)} (ha : (a.map seq).Nodup)
 (hb : (b.map seq).Nodup) (h : SameNumbers a b) :
 Gives (fun n => (byNumber a n).or (byNumber b n)) a
  ∧ Gives (fun n => (byNumber a n).or (byNumber b n)) b := by
 refine ⟨fun x hx => ?_, fun y hy => ?_⟩
 · dsimp only
   rw [byNumber_of_mem ha hx, Option.some_or]
 · dsimp only
   cases hf : byNumber a y.seq with
   | none => rw [Option.none_or, byNumber_of_mem hb hy]
   | some x =>
    have hx : x.seq = y.seq := by simpa using find?_some hf
    rw [Option.some_or, h x (mem_of_find?_eq_some hf) y hy hx]

variable [LinearOrder τ]

/-! ## The thread by itself -/

/-- The thread's next step, with the answers by number; none when it waits for one. -/
def Script.advance (machine : Machine σ τ ρ κ ω ε) (given : UInt32 → Option (Answer τ ρ))
 (s : Script σ τ ρ κ ω ε) : Script σ τ ρ κ ω ε :=
 match s.phase with
 | .turn (.call what bytes rest) => match s.refusal bytes false with
  | some failure => s.finish (.refused failure)
  | none => s.issue what bytes rest
 | .turn (.output item rest) => s.emit item rest
 | .turn (.done result) => s.finish (.reported result s.currentSeq s.issued)
 | .turn (.fail result) => s.finish (.failed result)
 | .turn (.wait vm) => s.rest vm
 | .idle vm =>
  -- past the last number there is no next one
  if s.nextSeq = s.currentSeq then s
  else match given s.nextSeq with
   | some a => s.apply machine vm a
   | none => s
 | .ended outcome => s.conclude outcome
 | .gone _ => s

/-- The thread after some steps. -/
def Script.after (machine : Machine σ τ ρ κ ω ε) (clock : τ)
 (given : UInt32 → Option (Answer τ ρ)) : Nat → Script σ τ ρ κ ω ε
 | 0 => .start machine clock
 | n + 1 => (Script.after machine clock given n).advance machine given

theorem Script.events_advance (machine : Machine σ τ ρ κ ω ε)
 (given : UInt32 → Option (Answer τ ρ)) (s : Script σ τ ρ κ ω ε) :
 s.events <+: (s.advance machine given).events := by
 unfold Script.advance
 split
 · split
   · exact prefix_refl _
   · exact prefix_append ..
 · exact prefix_append ..
 · exact prefix_refl _
 · exact prefix_refl _
 · exact prefix_append ..
 · split
   · exact prefix_refl _
   · split <;> exact prefix_refl _
 · exact prefix_append ..
 · exact prefix_refl _

theorem Script.events_after {m n : Nat} (h : m ≤ n) :
 (Script.after machine clock given m).events <+: (Script.after machine clock given n).events := by
 induction h with
 | refl => exact prefix_refl _
 | step _ ih => exact ih.trans (Script.events_advance ..)

theorem Script.after_stays {m n : Nat} (h : m ≤ n)
 (hstay : (Script.after machine clock given m).advance machine given
  = Script.after machine clock given m) :
 Script.after machine clock given n = Script.after machine clock given m := by
 induction h with
 | refl => rfl
 | step _ ih =>
  rw [Script.after, ih]
  exact hstay

/-! ## Every run -/

section

variable {machine : Machine σ τ ρ κ ω ε} {clock : τ} {answers : List (Answer τ ρ)}
 {r : ScriptRun σ τ ρ κ ω ε} {given : UInt32 → Option (Answer τ ρ)}

theorem Sound.refusal_eq (h : Sound clock answers r) (bytes : Nat) :
 r.script.refusal bytes (decide (r.script.callId ∈ r.book.pending)) = r.script.refusal bytes false := by
 unfold Script.refusal
 by_cases hle : maxNumber.toNat < r.script.nextId
 · rw [if_pos hle, if_pos hle]
 · rw [decide_eq_false (h.callId_not_mem (by omega))]

/-- The answer the thread would apply has been accepted. -/
def Script.UpIn (s : Script σ τ ρ κ ω ε) (given : UInt32 → Option (Answer τ ρ))
 (accepted : List (Answer τ ρ)) : Prop :=
 ∀ vm a, s.phase = .idle vm → s.nextSeq ≠ s.currentSeq → given s.nextSeq = some a → a ∈ accepted

/-- The thread's step is its step by itself, or the receipt of a command. -/
theorem Sound.scriptStep_eq (h : Sound clock answers r) (hs : r.stopped = none)
 (hs' : (r.scriptStep machine).stopped = none) (hg : Gives given r.accepted) :
 (r.scriptStep machine).script = r.script
  ∨ ((r.scriptStep machine).script = r.script.advance machine given
   ∧ r.script.UpIn given r.accepted) := by
 unfold ScriptRun.scriptStep at hs' ⊢
 unfold Script.advance Script.UpIn
 split
 next what bytes rest hphase =>
  refine .inr ?_
  simp only [hphase]
  unfold ScriptRun.hostCall
  rw [h.refusal_eq]
  cases r.script.refusal bytes false <;> exact ⟨rfl, nofun⟩
 next hphase =>
  exact .inr (by rw [hphase]; exact ⟨rfl, nofun⟩)
 next hphase =>
  exact .inr (by rw [hphase, hs]; exact ⟨rfl, nofun⟩)
 next hphase =>
  exact .inr (by rw [hphase]; exact ⟨rfl, nofun⟩)
 next hphase =>
  exact .inr (by rw [hphase]; exact ⟨rfl, nofun⟩)
 next vm hphase =>
  rw [hphase] at hs' ⊢
  dsimp only at hs' ⊢
  split
  next a ha =>
   refine .inr ?_
   obtain ⟨hseq, hnumber⟩ := h.seq_up hphase ha
   have hat := h.at_
   rw [hphase] at hat
   have hne : r.script.nextSeq ≠ r.script.currentSeq := by
    intro he
    have hn := hat.1
    rw [← he, ← hseq, hnumber] at hn
    omega
   have hmem : a ∈ r.accepted := h.mem_accepted.mpr
    (.inr (.inl (mem_map_of_mem (f := Prod.snd) (OrdMap.mem_of_get? ha))))
   have hgiven := hg a hmem
   rw [hseq] at hgiven
   rw [if_neg hne, hgiven]
   exact ⟨rfl, fun _ b _ _ hb => Option.some.inj hb ▸ hmem⟩
  next hnone =>
   rw [hnone] at hs'
   refine .inl ?_
   unfold ScriptRun.receive at hs' ⊢
   split
   · rfl
   next hc =>
    rw [hc] at hs'
    simp at hs'
   · rw [hs]
 next hphase =>
  exact .inr (by rw [hphase]; exact ⟨rfl, nofun⟩)
 · exact .inl rfl

end

theorem scriptStep_frame (machine : Machine σ τ ρ κ ω ε) (r : ScriptRun σ τ ρ κ ω ε) :
 (r.scriptStep machine).accepted = r.accepted
  ∧ ((r.scriptStep machine).stopped = none → r.stopped = none) := by
 unfold ScriptRun.scriptStep
 split
 · unfold ScriptRun.hostCall
   split <;> exact ⟨rfl, id⟩
 · exact ⟨rfl, id⟩
 · exact ⟨rfl, id⟩
 · exact ⟨rfl, id⟩
 · exact ⟨rfl, id⟩
 · split
   · exact ⟨rfl, id⟩
   · unfold ScriptRun.receive
     split
     · exact ⟨rfl, id⟩
     · exact ⟨rfl, by simp⟩
     · split <;> exact ⟨rfl, id⟩
 · exact ⟨rfl, id⟩
 · exact ⟨rfl, id⟩

/-- The answers applied in the first steps are of calls reported before. -/
def Timely (machine : Machine σ τ ρ κ ω ε) (clock : τ) (given : UInt32 → Option (Answer τ ρ))
 (n : Nat) : Prop :=
 ∀ k < n, ∀ vm a, (Script.after machine clock given k).phase = .idle vm →
  (Script.after machine clock given k).nextSeq ≠ (Script.after machine clock given k).currentSeq →
  given (Script.after machine clock given k).nextSeq = some a →
  a.id.toNat ∈ calledIds (Script.after machine clock given k).events

/-- What a run that is not stopped has done, the thread does by itself. -/
def Replays (machine : Machine σ τ ρ κ ω ε) (clock : τ) (r : ScriptRun σ τ ρ κ ω ε) : Prop :=
 r.stopped = none → ∀ given, Gives given r.accepted →
  ∃ n, r.script = Script.after machine clock given n ∧ Timely machine clock given n

theorem Replays.step {answers : List (Answer τ ρ)} (hr : Replays machine clock r)
 (h : Sound clock answers r) (input : Input τ ρ) :
 Replays machine clock (r.step machine input) := by
 intro hs' given hg'
 cases input with
 | answer seq now id result =>
  have hstill : (r.answerInOrder seq now id result).2.script = r.script
   ∧ (r.answerInOrder seq now id result).2.stopped = r.stopped
   ∧ ∀ a ∈ r.accepted, a ∈ (r.answerInOrder seq now id result).2.accepted := by
   unfold ScriptRun.answerInOrder
   repeat' split
   all_goals first | exact ⟨rfl, rfl, fun _ ha => ha⟩ | exact ⟨rfl, rfl, fun _ ha => mem_append_left _ ha⟩
  obtain ⟨n, hn, ht⟩ := hr (hstill.2.1 ▸ hs') given fun a ha => hg' a (hstill.2.2 a ha)
  exact ⟨n, hstill.1.trans hn, ht⟩
 | stop reason => simp [ScriptRun.step] at hs'
 | stopCommand =>
  unfold ScriptRun.step at hs' hg' ⊢
  dsimp only at hs' hg' ⊢
  split at hs'
  next hsome =>
   rw [show r.stopped = none from hs'] at hsome
   simp at hsome
  next hnot =>
   rw [if_neg hnot] at hg' ⊢
   exact hr hs' given hg'
 | script =>
  obtain ⟨haccepted, hstopped⟩ := scriptStep_frame machine r
  have hs := hstopped hs'
  have hg : Gives given r.accepted := haccepted ▸ hg'
  obtain ⟨n, hn, ht⟩ := hr hs given hg
  rcases h.scriptStep_eq hs hs' hg with heq | ⟨heq, hup⟩
  · exact ⟨n, heq.trans hn, ht⟩
  · refine ⟨n + 1, by rw [Script.after, ← hn]; exact heq, fun k hk vm a hphase hne ha => ?_⟩
    rcases Nat.lt_succ_iff_lt_or_eq.mp hk with hk | rfl
    · exact ht k hk vm a hphase hne ha
    · rw [← hn] at hphase hne ha ⊢
      exact h.mem_calledIds (hup vm a hphase hne ha)
 | interrupt =>
  have hstill : r.stopped = none → r.interrupted = r := by
   intro hs
   unfold ScriptRun.interrupted
   rw [hs]
  have hs : r.stopped = none := by
   cases hs : r.stopped with
   | none => rfl
   | some reason =>
    have hsame : r.interrupted.stopped = r.stopped := by
     unfold ScriptRun.interrupted
     split <;> rfl
    rw [show r.interrupted.stopped = none from hs', hs] at hsame
    simp at hsame
  show ∃ n, r.interrupted.script = _ ∧ _
  rw [hstill hs]
  exact hr hs given (by rw [← hstill hs]; exact hg')

theorem replays_reachable (hr : ScriptRun.Reachable machine clock r) : Replays machine clock r := by
 have key := hr.invariant (fun r => (∃ answers, Sound clock answers r) ∧ Replays machine clock r)
  (by rintro _ rfl; exact ⟨⟨[], sound_start machine clock⟩, fun _ _ _ => ⟨0, rfl, nofun⟩⟩)
  fun _ input ⟨⟨_, h⟩, hreplays⟩ _ => ⟨h.step input, hreplays.step h input⟩
 exact key.2

/-! ## Two runs -/

def Finished (r : ScriptRun σ τ ρ κ ω ε) : Prop := ∃ outcome, r.script.phase = .gone outcome

def Waits (r : ScriptRun σ τ ρ κ ω ε) : Prop :=
 (∃ vm, r.script.phase = .idle vm) ∧ OrdMap.get? r.early r.script.nextSeq = none ∧ r.commands = []

/-- The run has nothing left to do. -/
def Rests (r : ScriptRun σ τ ρ κ ω ε) : Prop := Finished r ∨ Waits r

def Answered (r : ScriptRun σ τ ρ κ ω ε) : Prop :=
 ∀ id what, .call id what ∈ r.script.events → ∃ a ∈ r.accepted, a.id = id

structure Agree (r r' : ScriptRun σ τ ρ κ ω ε) : Prop where
 /-- Numbered alike, one has reported a beginning of what the other has. -/
 comparable : SameNumbers r.accepted r'.accepted →
  r.script.events <+: r'.script.events ∨ r'.script.events <+: r.script.events
 /-- Finished, they have reported the same. -/
 finished : SameNumbers r.accepted r'.accepted → Finished r → Finished r' →
  r.script.events = r'.script.events
 /-- With the same answers accepted and nothing left to do, they have reported the same. -/
 rested : Rests r → Rests r' → (∀ a, a ∈ r.accepted ↔ a ∈ r'.accepted) →
  r.script.events = r'.script.events
 /-- With every call answered, and with the same answer in both, they have reported the same. -/
 answered : SameCalls r.accepted r'.accepted → Answered r → Answered r' → Rests r → Rests r' →
  r.script.events = r'.script.events

section

variable {machine : Machine σ τ ρ κ ω ε} {clock : τ} {r r' : ScriptRun σ τ ρ κ ω ε}

theorem Finished.advance (h : Finished r) (given : UInt32 → Option (Answer τ ρ)) :
 r.script.advance machine given = r.script := by
 obtain ⟨outcome, ho⟩ := h
 unfold Script.advance
 rw [ho]

variable {answers : List (Answer τ ρ)} {given : UInt32 → Option (Answer τ ρ)}

/-- No answer with the next number was accepted where the thread waits. -/
theorem Sound.waits_none (h : Sound clock answers r) (hw : Waits r)
 (hne : r.script.nextSeq ≠ r.script.currentSeq) : ∀ a ∈ r.accepted, a.seq ≠ r.script.nextSeq := by
 obtain ⟨⟨vm, hphase⟩, hearly, hcommands⟩ := hw
 have hat := h.at_
 rw [hphase] at hat
 intro a ha hseq
 rcases h.mem_accepted.mp ha with ha | ha | ha
 · have hrange := h.numbered.mem.mp ⟨a, ha, rfl⟩
   have hnext := hat.2
   have hbound := r.script.currentSeq.toNat_lt
   rw [← hseq, maxNumber_toNat] at hnext
   rw [hat.1] at hbound
   have hlast : a.seq = r.script.currentSeq := UInt32.toNat_inj.mp (by rw [hat.1]; omega)
   exact hne (hseq.symm.trans hlast)
 · obtain ⟨b, hb, rfl⟩ := mem_map.mp ha
   have hkey : b.1 = r.script.nextSeq := (h.early b hb).symm.trans hseq
   have hget := OrdMap.get?_of_mem h.early_nodup hb
   rw [hkey, hearly] at hget
   simp at hget
 · rw [hcommands] at ha
   simp at ha

theorem Sound.waits_advance (h : Sound clock answers r) (hw : Waits r)
 (hg : ∀ n a, given n = some a → a ∈ r.accepted ∧ a.seq = n) :
 r.script.advance machine given = r.script := by
 obtain ⟨⟨vm, hphase⟩, -⟩ := id hw
 unfold Script.advance
 rw [hphase]
 dsimp only
 split
 · rfl
 next hne =>
  cases hgiven : given r.script.nextSeq with
  | none => rfl
  | some a =>
   obtain ⟨ha, hseq⟩ := hg _ a hgiven
   exact absurd hseq (h.waits_none hw hne a ha)

theorem Sound.rests_advance (h : Sound clock answers r) (hr : Rests r)
 (hg : ∀ n a, given n = some a → a ∈ r.accepted ∧ a.seq = n) :
 r.script.advance machine given = r.script :=
 hr.elim (·.advance given) (h.waits_advance · hg)

theorem Script.after_eq {m n : Nat}
 (hm : (Script.after machine clock given m).advance machine given = Script.after machine clock given m)
 (hn : (Script.after machine clock given n).advance machine given = Script.after machine clock given n) :
 Script.after machine clock given m = Script.after machine clock given n := by
 rcases Nat.le_total m n with hle | hle
 · exact (Script.after_stays hle hm).symm
 · exact Script.after_stays hle hn

/-! ### Calls answered alike -/

theorem Script.advance_congr {s : Script σ τ ρ κ ω ε} {given' : UInt32 → Option (Answer τ ρ)}
 (h : ∀ vm, s.phase = .idle vm → s.nextSeq ≠ s.currentSeq → given s.nextSeq = given' s.nextSeq) :
 s.advance machine given = s.advance machine given' := by
 unfold Script.advance
 split
 · rfl
 · rfl
 · rfl
 · rfl
 · rfl
 next vm hphase =>
  by_cases he : s.nextSeq = s.currentSeq
  · rw [if_pos he, if_pos he]
  · rw [if_neg he, if_neg he, h vm hphase he]
 · rfl
 · rfl

theorem Timely.byNumber_eq {k n : Nat} (ht : Timely machine clock given n) (hk : k < n)
 (hgiven : ∀ n a, given n = some a → a ∈ r.accepted ∧ a.seq = n)
 (hused : (r'.accepted.map seq).Nodup) (hsame : SameCalls r.accepted r'.accepted)
 (hall : Answered r') (hevents : (Script.after machine clock given k).events <+: r'.script.events)
 {vm : σ} {a : Answer τ ρ} (hphase : (Script.after machine clock given k).phase = .idle vm)
 (hne : (Script.after machine clock given k).nextSeq ≠ (Script.after machine clock given k).currentSeq)
 (ha : given (Script.after machine clock given k).nextSeq = some a) :
 byNumber r'.accepted (Script.after machine clock given k).nextSeq = some a := by
 obtain ⟨what, hwhat⟩ := mem_calledIds_iff.mp (ht k hk vm a hphase hne ha)
 obtain ⟨b, hb, hid⟩ := hall a.id what (hevents.subset hwhat)
 obtain ⟨hmem, hseq⟩ := hgiven _ a ha
 rw [← hseq, hsame a hmem b hb hid.symm]
 exact byNumber_of_mem hused hb

/-- Two runs with every call answered, and answered alike, do the same by themselves. -/
theorem answered_after (hu : (r.accepted.map seq).Nodup) (hu' : (r'.accepted.map seq).Nodup)
 (hsame : SameCalls r.accepted r'.accepted) (hall : Answered r) (hall' : Answered r') {n n' : Nat}
 (hn : r.script = Script.after machine clock (byNumber r.accepted) n)
 (hn' : r'.script = Script.after machine clock (byNumber r'.accepted) n')
 (ht : Timely machine clock (byNumber r.accepted) n)
 (ht' : Timely machine clock (byNumber r'.accepted) n') {k : Nat} (hk : k ≤ n) (hk' : k ≤ n') :
 Script.after machine clock (byNumber r.accepted) k
  = Script.after machine clock (byNumber r'.accepted) k := by
 induction k with
 | zero => rfl
 | succ k ih =>
  have heq := ih (by omega) (by omega)
  have hevents : (Script.after machine clock (byNumber r.accepted) k).events <+: r'.script.events := by
   rw [heq, hn']
   exact Script.events_after (by omega)
  have hevents' : (Script.after machine clock (byNumber r'.accepted) k).events <+: r.script.events := by
   rw [← heq, hn]
   exact Script.events_after (by omega)
  rw [Script.after, Script.after, ← heq]
  refine Script.advance_congr fun vm hphase hne => ?_
  cases hgiven : byNumber r.accepted (Script.after machine clock (byNumber r.accepted) k).nextSeq with
  | some a =>
   exact (ht.byNumber_eq hk (fun _ _ h => mem_of_byNumber h) hu' hsame hall' hevents hphase hne
    hgiven).symm
  | none =>
   cases hgiven' : byNumber r'.accepted (Script.after machine clock (byNumber r.accepted) k).nextSeq with
   | none => rfl
   | some b =>
    rw [heq] at hgiven hgiven' hphase hne
    have hb := ht'.byNumber_eq hk' (fun _ _ h => mem_of_byNumber h) hu hsame.symm hall hevents'
     hphase hne hgiven'
    rw [hb] at hgiven
    simp at hgiven

theorem answered_rests (h : Sound clock answers r) (hu' : (r'.accepted.map seq).Nodup)
 (hsame : SameCalls r.accepted r'.accepted) (hall : Answered r) (hall' : Answered r') {n n' : Nat}
 (hn : r.script = Script.after machine clock (byNumber r.accepted) n)
 (hn' : r'.script = Script.after machine clock (byNumber r'.accepted) n')
 (ht : Timely machine clock (byNumber r.accepted) n)
 (ht' : Timely machine clock (byNumber r'.accepted) n') (hrest : Rests r) (hle : n ≤ n') :
 r.script.events = r'.script.events := by
 have heq := answered_after h.used hu' hsame hall hall' hn hn' ht ht' (Nat.le_refl n) hle
 rcases Nat.eq_or_lt_of_le hle with rfl | hlt
 · rw [hn, heq, hn']
 have hat : Script.after machine clock (byNumber r'.accepted) n = r.script := by rw [hn, heq]
 have hstay : r.script.advance machine (byNumber r'.accepted) = r.script := by
  rcases hrest with hf | hw
  · exact hf.advance _
  refine (Script.advance_congr fun vm hphase hne => ?_).trans
   (h.waits_advance hw fun _ _ ha => mem_of_byNumber ha)
  have hnone : byNumber r.accepted r.script.nextSeq = none := by
   cases ha : byNumber r.accepted r.script.nextSeq with
   | none => rfl
   | some a => exact absurd (mem_of_byNumber ha).2 (h.waits_none hw hne a (mem_of_byNumber ha).1)
  rw [hnone]
  cases hb : byNumber r'.accepted r.script.nextSeq with
  | none => rfl
  | some b =>
   rw [← hat] at hphase hne hb hnone
   rw [ht'.byNumber_eq hlt (fun _ _ h => mem_of_byNumber h) h.used hsame.symm hall
    ⟨[], by rw [append_nil, hat]⟩ hphase hne hb] at hnone
   simp at hnone
 rw [hn', Script.after_stays hle (by rw [hat]; exact hstay), hat]

/-- **Runs whose owners agree report the same.** -/
theorem agree (hr : ScriptRun.Reachable machine clock r) (hr' : ScriptRun.Reachable machine clock r')
 (hs : r.stopped = none) (hs' : r'.stopped = none) : Agree r r' := by
 obtain ⟨answers, h⟩ := exists_sound hr
 obtain ⟨answers', h'⟩ := exists_sound hr'
 have hreplays := replays_reachable hr hs
 have hreplays' := replays_reachable hr' hs'
 let given := fun n => (byNumber r.accepted n).or (byNumber r'.accepted n)
 refine ⟨fun hsame => ?_, fun hsame hf hf' => ?_, fun hrest hrest' hall => ?_,
  fun hsame hall hall' hrest hrest' => ?_⟩
 · obtain ⟨hg, hg'⟩ := exists_gives h.used h'.used hsame
   obtain ⟨m, hm, -⟩ := hreplays given hg
   obtain ⟨n, hn, -⟩ := hreplays' given hg'
   rw [hm, hn]
   exact (Nat.le_total m n).imp Script.events_after Script.events_after
 · obtain ⟨hg, hg'⟩ := exists_gives h.used h'.used hsame
   obtain ⟨m, hm, -⟩ := hreplays given hg
   obtain ⟨n, hn, -⟩ := hreplays' given hg'
   have hstay : r.script.advance machine given = r.script := hf.advance given
   have hstay' : r'.script.advance machine given = r'.script := hf'.advance given
   rw [hm] at hstay ⊢
   rw [hn] at hstay' ⊢
   rw [Script.after_eq hstay hstay']
 · have hg' : Gives (byNumber r.accepted) r'.accepted :=
    fun a ha => byNumber_of_mem h.used ((hall a).mpr ha)
   obtain ⟨m, hm, -⟩ := hreplays _ (gives_byNumber h.used)
   obtain ⟨n, hn, -⟩ := hreplays' _ hg'
   have hstay : r.script.advance machine (byNumber r.accepted) = r.script :=
    h.rests_advance hrest fun _ _ ha => mem_of_byNumber ha
   have hstay' : r'.script.advance machine (byNumber r.accepted) = r'.script :=
    h'.rests_advance hrest' fun _ _ ha =>
     ⟨(hall _).mp (mem_of_byNumber ha).1, (mem_of_byNumber ha).2⟩
   rw [hm] at hstay ⊢
   rw [hn] at hstay' ⊢
   rw [Script.after_eq hstay hstay']
 · obtain ⟨n, hn, ht⟩ := hreplays _ (gives_byNumber h.used)
   obtain ⟨n', hn', ht'⟩ := hreplays' _ (gives_byNumber h'.used)
   rcases Nat.le_total n n' with hle | hle
   · exact answered_rests h h'.used hsame hall hall' hn hn' ht ht' hrest hle
   · exact (answered_rests h' h.used hsame.symm hall' hall hn' hn ht' ht hrest' hle).symm

end

end Bake.Codemode
