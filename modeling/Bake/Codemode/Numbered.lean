import Bake.Codemode.Run
import Mathlib.Data.List.Range

/-!
# Answers by number

What is accepted is applied, buffered or on its way, each in one place, because a number is
used once. The answers applied have the numbers from one on, so the thread waits exactly for
the first number that was not given.
-/

open List OrdMap

namespace Bake.Codemode

open ScriptRun (start)

/-! ## Numbers -/

theorem maxNumber_toNat : maxNumber.toNat = 2 ^ 32 - 1 := rfl

theorem nextNumber_toNat (n : UInt32) : (nextNumber n).toNat = min (n.toNat + 1) maxNumber.toNat := by
 have hlt := n.toNat_lt
 unfold nextNumber
 by_cases h : n = maxNumber
 · subst h
   rfl
 · rw [if_neg h]
   have hne : n.toNat ≠ maxNumber.toNat := fun he => h (UInt32.toNat_inj.mp he)
   rw [maxNumber_toNat] at hne ⊢
   rw [UInt32.toNat_add, show (1 : UInt32).toNat = 1 from rfl]
   omega

theorem ofNat_toNat {n : Nat} (h : n ≤ maxNumber.toNat) : (UInt32.ofNat n).toNat = n := by
 rw [maxNumber_toNat] at h
 exact UInt32.toNat_ofNat_of_lt' (by simp only [UInt32.size]; omega)

def Numbered {τ ρ : Type} (answers : List (Answer τ ρ)) : Prop :=
 answers.map (·.seq.toNat) = List.range' 1 answers.length

theorem Numbered.snoc {τ ρ : Type} {answers : List (Answer τ ρ)} (h : Numbered answers)
 {a : Answer τ ρ} (ha : a.seq.toNat = answers.length + 1) : Numbered (answers ++ [a]) := by
 unfold Numbered at h ⊢
 rw [map_append, h, length_append, length_singleton, range'_1_concat,
  map_singleton, ha, Nat.add_comm]

theorem Numbered.mem {τ ρ : Type} {answers : List (Answer τ ρ)} (h : Numbered answers) {n : Nat} :
 (∃ a ∈ answers, a.seq.toNat = n) ↔ 1 ≤ n ∧ n ≤ answers.length := by
 have hmem : n ∈ answers.map (·.seq.toNat) ↔ 1 ≤ n ∧ n ≤ answers.length := by
  rw [h, mem_range'_1]
  omega
 rw [← hmem, mem_map]

theorem Numbered.getElem? {τ ρ : Type} {answers : List (Answer τ ρ)} (h : Numbered answers) {i : Nat}
 {a : Answer τ ρ} (ha : answers[i]? = some a) : a.seq.toNat = i + 1 := by
 have hget : (answers.map (·.seq.toNat))[i]? = some a.seq.toNat := by rw [getElem?_map, ha]; rfl
 have hlt := (List.getElem_of_getElem? ha).1
 rw [h, getElem?_range' hlt] at hget
 have heq := Option.some.inj hget
 omega

def deliveries {τ ρ : Type} [LinearOrder τ] (clock : τ) : List (Answer τ ρ) → List (Delivery τ ρ)
 | [] => []
 | a :: rest =>
  { seq := a.seq, clock := max clock a.clock, id := a.id, result := a.result }
    :: deliveries (max clock a.clock) rest

def latest {τ ρ : Type} [LinearOrder τ] (clock : τ) (answers : List (Answer τ ρ)) : τ :=
 answers.foldl (fun clock a => max clock a.clock) clock

theorem deliveries_snoc {τ ρ : Type} [LinearOrder τ] (clock : τ) (answers : List (Answer τ ρ))
 (a : Answer τ ρ) : deliveries clock (answers ++ [a]) = deliveries clock answers
  ++ [{ seq := a.seq, clock := max (latest clock answers) a.clock, id := a.id,
        result := a.result }] := by
 induction answers generalizing clock with
 | nil => rfl
 | cons b rest ih => exact congrArg (List.cons _) (ih (max clock b.clock))

theorem latest_snoc {τ ρ : Type} [LinearOrder τ] (clock : τ) (answers : List (Answer τ ρ))
 (a : Answer τ ρ) : latest clock (answers ++ [a]) = max (latest clock answers) a.clock := by
 unfold latest
 rw [foldl_concat]

/-! ## The invariant -/

variable {σ τ ρ κ ω ε : Type}

def calledIds (events : List (Event κ ω ε)) : List Nat :=
 events.filterMap fun event => match event with
  | .call id _ => some id.toNat
  | _ => none

theorem mem_calledIds_iff {events : List (Event κ ω ε)} {id : UInt32} :
 id.toNat ∈ calledIds events ↔ ∃ what, .call id what ∈ events := by
 unfold calledIds
 rw [mem_filterMap]
 constructor
 · rintro ⟨event, he, hid⟩
   cases event with
   | call other what =>
    obtain rfl : other = id := UInt32.toNat_inj.mp (Option.some.inj hid)
    exact ⟨what, he⟩
   | _ => simp at hid
 · rintro ⟨what, he⟩
   exact ⟨_, he, rfl⟩

theorem calledIds_append (a b : List (Event κ ω ε)) : calledIds (a ++ b) = calledIds a ++ calledIds b :=
 filterMap_append ..

/-- Where the thread is in the numbers, with `n` answers applied. -/
def Phase.At (s : Script σ τ ρ κ ω ε) (n : Nat) : Phase σ κ ω ε → Prop
 | .turn _ => s.currentSeq.toNat = n
  ∧ (s.currentSeq = 0 → s.nextSeq.toNat = 1) ∧ (s.currentSeq ≠ 0 → s.nextSeq = s.currentSeq)
 | .idle _ => s.currentSeq.toNat = n ∧ s.nextSeq.toNat = min (n + 1) maxNumber.toNat
 | .ended _ | .gone _ => True

structure Sound [LinearOrder τ] (clock : τ) (answers : List (Answer τ ρ))
 (r : ScriptRun σ τ ρ κ ω ε) : Prop where
 places : (answers ++ (r.early.map Prod.snd ++ r.commands.filterMap Command.answer?)).Perm r.accepted
 early : ∀ b ∈ r.early, b.2.seq = b.1
 delivered : r.book.delivered = r.accepted.map Answer.seq
 /-- A number is used once, and zero is none. -/
 used : (r.accepted.map Answer.seq).Nodup
 positive : ∀ a ∈ r.accepted, a.seq ≠ 0
 numbered : Numbered answers
 applied : r.script.applied = deliveries clock answers
 clock : r.script.clock = latest clock answers
 at_ : r.script.phase.At r.script answers.length
 /-- Calls have the ids from one on. -/
 called : calledIds r.script.events = List.range' 1 (r.script.nextId - 1)
 counted : 1 ≤ r.script.nextId ∧ r.script.nextId ≤ maxNumber.toNat + 1
 answered : ∀ a ∈ r.accepted, 1 ≤ a.id.toNat ∧ a.id.toNat < r.script.nextId
 /-- A call waits from its event to its answer. -/
 pending : ∀ id, id ∈ r.book.pending ↔ (1 ≤ id.toNat ∧ id.toNat < r.script.nextId)
  ∧ ∀ a ∈ r.accepted, a.id ≠ id
 once : r.book.pending.Nodup
 finished : r.book.finished = true ↔ ∃ outcome, r.script.phase = .gone outcome

section

variable [LinearOrder τ] {machine : Machine σ τ ρ κ ω ε} {clock : τ} {answers : List (Answer τ ρ)}
 {r : ScriptRun σ τ ρ κ ω ε}

theorem sound_start (machine : Machine σ τ ρ κ ω ε) (clock : τ) :
 Sound clock [] (start machine clock) where
 places := .refl _
 early := by simp [start]
 delivered := rfl
 used := nodup_nil
 positive := by simp [start]
 numbered := rfl
 applied := rfl
 clock := rfl
 at_ := ⟨rfl, fun _ => rfl, fun h => absurd rfl h⟩
 called := rfl
 counted := ⟨Nat.le_refl _, by show 1 ≤ _; omega⟩
 answered := by simp [start]
 pending := fun id => by
  simp only [start, Script.start, not_mem_nil, false_iff, not_and]
  omega
 once := nodup_nil
 finished := by simp [start, Script.start]

namespace Sound

theorem callId_not_mem (h : Sound clock answers r) (hle : r.script.nextId ≤ maxNumber.toNat) :
 r.script.callId ∉ r.book.pending := by
 rw [h.pending, Script.callId, ofNat_toNat hle]
 exact fun hp => absurd hp.1.2 (Nat.lt_irrefl _)

variable {a : Answer τ ρ}

section

variable (h : Sound clock answers r)

include h

theorem mem_calledIds (ha : a ∈ r.accepted) :
 a.id.toNat ∈ calledIds r.script.events := by
 have hrange := h.answered a ha
 rw [h.called, mem_range'_1]
 omega

theorem mem_accepted : a ∈ r.accepted ↔ a ∈ answers
 ∨ a ∈ r.early.map Prod.snd ∨ .answer a ∈ r.commands := by
 rw [← h.places.mem_iff, mem_append, mem_append, mem_filterMap]
 refine or_congr_right (or_congr_right ⟨?_, fun hc => ⟨_, hc, rfl⟩⟩)
 rintro ⟨command, hc, ha⟩
 cases command with
 | answer b => cases ha; exact hc
 | stop => simp [Command.answer?] at ha

theorem eq_of_seq {b : Answer τ ρ} (ha : a ∈ r.accepted)
 (hb : b ∈ r.accepted) (hseq : a.seq = b.seq) : a = b :=
 inj_on_of_nodup_map h.used ha hb hseq

theorem places_nodup :
 ((answers ++ (r.early.map Prod.snd ++ r.commands.filterMap Command.answer?)).map
  Answer.seq).Nodup := (h.places.map _).nodup_iff.mpr h.used

/-! ### Answers -/

theorem answer (seq : UInt32) (now : Option τ) (id : UInt32) (result : ρ) :
 Sound clock answers (r.answerInOrder seq now id result).2 := by
 unfold ScriptRun.answerInOrder
 by_cases hfinished : r.book.finished = true
 · rw [if_pos hfinished]
   exact h
 rw [if_neg hfinished]
 cases now with
 | none => exact h
 | some reading =>
  dsimp only
  split
  · exact h
  next hseq =>
   obtain ⟨hzero, hunused⟩ := not_or.mp hseq
   split
   · exact h
   next hid =>
    have hid : id ∈ r.book.pending := Decidable.not_not.mp hid
    dsimp only
    rw [h.delivered] at hunused
    refine ⟨?_, h.early, ?_, ?_, ?_, h.numbered, h.applied, h.clock, h.at_, h.called, h.counted,
     ?_, ?_, h.once.erase id, h.finished⟩
    · dsimp only
      rw [filterMap_append, ← append_assoc, ← append_assoc]
      refine List.Perm.append_right _ ?_
      rw [append_assoc]
      exact h.places
    · dsimp only
      rw [h.delivered, map_append]
      rfl
    · dsimp only
      rw [map_append, nodup_append]
      refine ⟨h.used, nodup_singleton _, ?_⟩
      intro s hs t ht he
      obtain rfl : t = seq := mem_singleton.mp ht
      exact hunused (he ▸ hs)
    · intro a ha
      rcases mem_append.mp ha with ha | ha
      · exact h.positive a ha
      · rw [mem_singleton.mp ha]
        exact hzero
    · intro a ha
      rcases mem_append.mp ha with ha | ha
      · exact h.answered a ha
      · rw [mem_singleton.mp ha]
        exact ((h.pending id).mp hid).1
    intro other
    dsimp only
    rw [h.once.mem_erase_iff, h.pending other]
    constructor
    · rintro ⟨hne, hrange, hall⟩
      refine ⟨hrange, fun a ha => ?_⟩
      rcases mem_append.mp ha with ha | ha
      · exact hall a ha
      · rw [mem_singleton.mp ha]
        exact Ne.symm hne
    · rintro ⟨hrange, hall⟩
      exact ⟨fun he => hall _ (mem_append_right _ (mem_singleton_self _)) he.symm, hrange,
       fun a ha => hall a (mem_append_left _ ha)⟩

/-! ### The thread -/

theorem finish (hgone : r.book.finished = false) (outcome : Outcome ε) :
 Sound clock answers { r with script := r.script.finish outcome } where
 places := h.places
 early := h.early
 delivered := h.delivered
 used := h.used
 positive := h.positive
 numbered := h.numbered
 applied := h.applied
 clock := h.clock
 at_ := trivial
 called := h.called
 counted := h.counted
 answered := h.answered
 pending := h.pending
 once := h.once
 finished := by simp [hgone, Script.finish]

theorem not_finished (hphase : ∀ outcome, r.script.phase ≠ .gone outcome) :
 r.book.finished = false := by
 rw [← Bool.not_eq_true, h.finished]
 rintro ⟨outcome, ho⟩
 exact hphase outcome ho

theorem hostCall {what : κ} {bytes : Nat} {rest : Turn σ κ ω ε}
 (hphase : r.script.phase = .turn (.call what bytes rest)) :
 Sound clock answers (r.hostCall what bytes rest) := by
 have hgone := h.not_finished (by rw [hphase]; nofun)
 unfold ScriptRun.hostCall
 split
 · exact h.finish hgone _
 next hrefusal =>
  have hle : r.script.nextId ≤ maxNumber.toNat := by
   unfold Script.refusal at hrefusal
   split at hrefusal
   · simp at hrefusal
   · omega
  have hid : r.script.callId.toNat = r.script.nextId := ofNat_toNat hle
  have hat := h.at_
  rw [hphase] at hat
  refine ⟨h.places, h.early, h.delivered, h.used, h.positive, h.numbered, h.applied, h.clock, hat,
   ?_, ⟨by show 1 ≤ r.script.nextId + 1; omega, by show r.script.nextId + 1 ≤ _; omega⟩,
   fun a ha => (h.answered a ha).imp_right Nat.lt_succ_of_lt, ?_,
   nodup_cons.mpr ⟨h.callId_not_mem hle, h.once⟩, ?_⟩
  · show calledIds (r.script.events ++ [_]) = List.range' 1 (r.script.nextId + 1 - 1)
    rw [calledIds_append, h.called]
    show List.range' 1 _ ++ [r.script.callId.toNat] = _
    have hn := h.counted.1
    rw [hid, show r.script.nextId + 1 - 1 = r.script.nextId - 1 + 1 by omega, range'_1_concat]
    congr 2
    omega
  · intro id
    show id ∈ r.script.callId :: r.book.pending ↔ (_ ∧ id.toNat < r.script.nextId + 1) ∧ _
    rw [mem_cons, h.pending id]
    constructor
    · rintro (rfl | ⟨hrange, hall⟩)
      · have hn := h.counted.1
        refine ⟨⟨by omega, by omega⟩, fun a ha he => ?_⟩
        have hlt := (h.answered a ha).2
        rw [he, hid] at hlt
        exact Nat.lt_irrefl _ hlt
      · exact ⟨⟨hrange.1, by omega⟩, hall⟩
    · rintro ⟨⟨hone, hlt⟩, hall⟩
      by_cases he : id.toNat = r.script.nextId
      · exact .inl (UInt32.toNat_inj.mp (he.trans hid.symm))
      · exact .inr ⟨⟨hone, by omega⟩, hall⟩
  · simp [hgone, Script.issue]

theorem turn (hgone : r.book.finished = false) {phase : Phase σ κ ω ε}
 {events : List (Event κ ω ε)} {nextSeq : UInt32}
 (hphase : ∀ outcome, phase ≠ .gone outcome) (hcalled : calledIds events = [])
 (hat : phase.At { r.script with phase, nextSeq } answers.length) :
 Sound clock answers { r with
  script := { r.script with phase, nextSeq, events := r.script.events ++ events } } where
 places := h.places
 early := h.early
 delivered := h.delivered
 used := h.used
 positive := h.positive
 numbered := h.numbered
 applied := h.applied
 clock := h.clock
 at_ := by cases phase <;> exact hat
 called := by
  show calledIds (r.script.events ++ events) = _
  rw [calledIds_append, hcalled, append_nil]
  exact h.called
 counted := h.counted
 answered := h.answered
 pending := h.pending
 once := h.once
 finished := by
  simp only [hgone, Bool.false_eq_true, false_iff]
  rintro ⟨outcome, ho⟩
  exact hphase outcome ho

theorem receive (hgone : r.book.finished = false) :
 Sound clock answers r.receive := by
 unfold ScriptRun.receive
 split
 · exact h
 next commands hc =>
  have hstop := h.finish hgone (.stopped (r.stopped.getD .aborted))
  refine ⟨?_, h.early, h.delivered, h.used, h.positive, h.numbered, h.applied, h.clock, hstop.at_,
   h.called, h.counted, h.answered, h.pending, h.once, hstop.finished⟩
  have hp := h.places
  rw [hc] at hp
  exact hp
 next a commands hc =>
  split
  · exact h.finish hgone _
  have hp := h.places
  rw [hc, show (Command.answer a :: commands).filterMap Command.answer?
   = a :: commands.filterMap Command.answer? from rfl] at hp
  have hd := h.places_nodup
  rw [hc, show (Command.answer a :: commands).filterMap Command.answer?
   = a :: commands.filterMap Command.answer? from rfl] at hd
  have hnew : a.seq ∉ OrdMap.keys r.early := by
   intro hk
   obtain ⟨b, hb, hkey⟩ := mem_map.mp hk
   rw [map_append, nodup_append] at hd
   have hd := hd.2.1
   rw [map_append, nodup_append] at hd
   refine hd.2.2 a.seq ?_ a.seq (mem_map.mpr ⟨a, mem_cons_self .., rfl⟩) rfl
   exact mem_map.mpr ⟨b.2, mem_map_of_mem hb, (h.early b hb).trans hkey⟩
  refine ⟨?_, ?_, h.delivered, h.used, h.positive, h.numbered, h.applied, h.clock, h.at_,
   h.called, h.counted, h.answered, h.pending, h.once, h.finished⟩
  · dsimp only
    rw [OrdMap.insert_of_not_mem hnew, map_append]
    simpa using hp
  · intro b hb
    rw [OrdMap.insert_of_not_mem hnew, mem_append, mem_singleton] at hb
    rcases hb with hb | rfl
    · exact h.early b hb
    · rfl

theorem early_nodup : (keys r.early).Nodup := by
 have hd := h.places_nodup
 rw [map_append, nodup_append] at hd
 have hd := hd.2.1
 rw [map_append, nodup_append, map_map] at hd
 have hkeys : keys r.early = r.early.map (Answer.seq ∘ Prod.snd) :=
  map_congr_left fun b hb => (h.early b hb).symm
 rw [hkeys]
 exact hd.1

theorem seq_up {vm : σ} (hphase : r.script.phase = .idle vm)
 (ha : get? r.early r.script.nextSeq = some a) :
 a.seq = r.script.nextSeq ∧ a.seq.toNat = answers.length + 1 := by
 have hmem := mem_of_get? ha
 have hseq : a.seq = r.script.nextSeq := h.early _ hmem
 have hat : r.script.nextSeq.toNat = min (answers.length + 1) maxNumber.toNat := by
  have hat := h.at_
  rw [hphase] at hat
  exact hat.2
 refine ⟨hseq, ?_⟩
 rw [hseq, hat, Nat.min_eq_left]
 by_contra hlt
 -- past the last number, the next one is used
 have hlast : r.script.nextSeq.toNat = maxNumber.toNat := by omega
 obtain ⟨b, hb, hbseq⟩ := h.numbered.mem.mpr
  (show 1 ≤ maxNumber.toNat ∧ maxNumber.toNat ≤ answers.length by
   rw [maxNumber_toNat] at hlt ⊢
   omega)
 have hd := h.places_nodup
 rw [map_append, nodup_append] at hd
 refine hd.2.2 b.seq (mem_map_of_mem hb) a.seq ?_
  (UInt32.toNat_inj.mp (hbseq.trans (hlast.symm.trans (congrArg _ hseq.symm))))
 exact mem_map_of_mem (mem_append_left _ (mem_map_of_mem hmem))

theorem apply {vm : σ} (hphase : r.script.phase = .idle vm)
 (ha : get? r.early r.script.nextSeq = some a) :
 Sound clock (answers ++ [a]) { r with
  early := erase r.early r.script.nextSeq, script := r.script.apply machine vm a } := by
 obtain ⟨hseq, hnumber⟩ := h.seq_up hphase ha
 have hgone := h.not_finished (by rw [hphase]; nofun)
 have hperm := (perm_erase h.early_nodup ha).map Prod.snd
 refine ⟨?_, fun b hb => h.early b (mem_erase hb), h.delivered, h.used, h.positive,
  h.numbered.snoc hnumber, ?_, ?_, ?_, h.called, h.counted, h.answered, h.pending, h.once, ?_⟩
 · refine List.Perm.trans ?_ h.places
   dsimp only
   rw [append_assoc]
   refine List.Perm.append_left _ ?_
   rw [singleton_append, ← cons_append]
   exact List.Perm.append_right _ hperm.symm
 · show r.script.applied ++ [_] = _
   rw [deliveries_snoc, h.applied, h.clock, hseq]
 · show max r.script.clock a.clock = _
   rw [latest_snoc, h.clock]
 · show r.script.nextSeq.toNat = (answers ++ [a]).length ∧ _
   rw [length_append, length_singleton, ← hseq]
   refine ⟨hnumber, fun h0 => ?_, fun _ => rfl⟩
   have h0 : a.seq = 0 := h0 ▸ hseq
   exact absurd (hnumber.symm.trans (congrArg UInt32.toNat h0)) (by simp)
 · simp [hgone, Script.apply]

theorem scriptStep :
 ∃ answers', Sound clock answers' (r.scriptStep machine) := by
 unfold ScriptRun.scriptStep
 split
 next hphase =>
  exact ⟨answers, h.hostCall hphase⟩
 next item rest hphase =>
  have hat := h.at_
  rw [hphase] at hat
  exact ⟨answers, h.turn (h.not_finished (by rw [hphase]; nofun)) nofun rfl hat⟩
 next hphase =>
  exact ⟨answers, h.finish (h.not_finished (by rw [hphase]; nofun)) _⟩
 next hphase =>
  exact ⟨answers, h.finish (h.not_finished (by rw [hphase]; nofun)) _⟩
 next vm hphase =>
  have hat := h.at_
  rw [hphase] at hat
  obtain ⟨hcurrent, hfirst, hlater⟩ := hat
  refine ⟨answers, h.turn (h.not_finished (by rw [hphase]; nofun)) nofun rfl ?_⟩
  refine ⟨hcurrent, ?_⟩
  show UInt32.toNat (if r.script.currentSeq = 0 then _ else _) = _
  by_cases hzero : r.script.currentSeq = 0
  · rw [if_pos hzero, hfirst hzero, ← hcurrent, hzero, maxNumber_toNat]
    decide
  · rw [if_neg hzero, nextNumber_toNat, hlater hzero, hcurrent]
 next vm hphase =>
  split
  next a ha =>
   exact ⟨answers ++ [a], h.apply hphase ha⟩
  · exact ⟨answers, h.receive (h.not_finished (by rw [hphase]; nofun))⟩
 next outcome hphase =>
  refine ⟨answers, h.places, h.early, h.delivered, h.used, h.positive, h.numbered, h.applied, h.clock,
   trivial, ?_, h.counted, h.answered, h.pending, h.once, by simp [Script.conclude]⟩
  show calledIds (r.script.events ++ [_]) = _
  rw [calledIds_append, h.called]
  exact append_nil _
 · exact ⟨answers, h⟩

theorem interrupted : Sound clock answers r.interrupted := by
 unfold ScriptRun.interrupted
 split
 next hphase =>
  exact h.finish (h.not_finished (by rw [hphase]; nofun)) _
 next hphase =>
  exact h.finish (h.not_finished (by rw [hphase]; nofun)) _
 · exact h

/-- **Every step keeps the answers in their places.** -/
theorem step (input : Input τ ρ) :
 ∃ answers', Sound clock answers' (r.step machine input) := by
 cases input with
 | answer seq now id result => exact ⟨answers, h.answer seq now id result⟩
 | stop reason =>
  exact ⟨answers, h.places, h.early, h.delivered, h.used, h.positive, h.numbered, h.applied,
   h.clock, h.at_, h.called, h.counted, h.answered, h.pending, h.once, h.finished⟩
 | stopCommand =>
  refine ⟨answers, ?_⟩
  unfold ScriptRun.step
  dsimp only
  split
  · refine ⟨?_, h.early, h.delivered, h.used, h.positive, h.numbered, h.applied, h.clock, h.at_,
     h.called, h.counted, h.answered, h.pending, h.once, h.finished⟩
    dsimp only
    rw [filterMap_append, show [Command.stop].filterMap Command.answer?
     = ([] : List (Answer τ ρ)) from rfl, append_nil]
    exact h.places
  · exact h
 | script => exact h.scriptStep
 | interrupt => exact ⟨answers, h.interrupted⟩

end

end Sound

theorem exists_sound (hr : ScriptRun.Reachable machine clock r) : ∃ answers, Sound clock answers r :=
 hr.invariant (fun r => ∃ answers, Sound clock answers r)
  (fun _ hs => hs ▸ ⟨[], sound_start machine clock⟩)
  fun _ input ⟨_, h⟩ _ => h.step input

end

end Bake.Codemode
