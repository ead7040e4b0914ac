import Bake.Codemode.Progress
import Mathlib.Order.Bounds.Basic
import Mathlib.Order.Nat

/-!
# Runs do not depend on when answers arrive

What an answer must be to be accepted, what has been applied, that what is accepted comes to be
applied, and that the order in which answers arrive is not seen.
-/

open List

namespace Bake.Codemode

variable {σ τ ρ κ ω ε : Type} [LinearOrder τ]

/-! ## What is accepted -/

/-- The call is reported and has no answer. -/
def Waiting (r : ScriptRun σ τ ρ κ ω ε) (id : UInt32) : Prop :=
 (∃ what, .call id what ∈ r.script.events) ∧ ∀ a ∈ r.accepted, a.id ≠ id

/-- An answer can be accepted: its number is none and unused, its clock is finite and its call
waits. -/
def Acceptable (r : ScriptRun σ τ ρ κ ω ε) (seq : UInt32) (now : Option τ) (id : UInt32) : Prop :=
 seq ≠ 0 ∧ (∀ a ∈ r.accepted, a.seq ≠ seq) ∧ now.isSome ∧ Waiting r id

/-- What `answer_in_order` does to a run. -/
structure Accepts (r : ScriptRun σ τ ρ κ ω ε) (seq : UInt32) (now : Option τ) (id : UInt32) (result : ρ) :
 Prop where
 /-- Refused, an answer changes nothing. -/
 refused : ∀ e, (r.answerInOrder seq now id result).1 = .error e →
  (r.answerInOrder seq now id result).2 = r
 /-- Before the end it is refused unless it can be accepted. -/
 accepted : ¬ Finished r → ((r.answerInOrder seq now id result).1 = .ok () ↔ Acceptable r seq now id)
 /-- Accepted, it is the latest. -/
 added : ¬ Finished r → ∀ clock, now = some clock → (r.answerInOrder seq now id result).1 = .ok () →
  (r.answerInOrder seq now id result).2.accepted = r.accepted ++ [⟨seq, clock, id, result⟩]

section

variable {clock : τ} {answers : List (Answer τ ρ)} {r : ScriptRun σ τ ρ κ ω ε}

theorem Sound.waiting_iff (h : Sound clock answers r) {id : UInt32} :
 id ∈ r.book.pending ↔ Waiting r id := by
 rw [h.pending id, Waiting, ← mem_calledIds_iff, h.called, mem_range'_1]
 refine and_congr_left fun _ => ⟨fun hr => ⟨hr.1, by omega⟩, fun hr => ⟨hr.1, by omega⟩⟩

theorem Sound.accepts (h : Sound clock answers r) (seq : UInt32) (now : Option τ) (id : UInt32) (result : ρ) :
 Accepts r seq now id result := by
 have hfinished : ¬ Finished r → ¬ r.book.finished = true := fun hf hb => hf (h.finished.mp hb)
 have hused : seq ∈ r.book.delivered ↔ ∃ a ∈ r.accepted, a.seq = seq := by
  rw [h.delivered, mem_map]
 refine ⟨fun e he => ?_, fun hf => ?_, fun hf clock' hnow hok => ?_⟩
 · unfold ScriptRun.answerInOrder at he ⊢
   by_cases hb : r.book.finished = true
   · rw [if_pos hb]
   rw [if_neg hb] at he ⊢
   cases now with
   | none => rfl
   | some reading =>
    dsimp only at he ⊢
    by_cases hseq : seq = 0 ∨ seq ∈ r.book.delivered
    · rw [if_pos hseq]
    · rw [if_neg hseq] at he ⊢
      by_cases hid : id ∉ r.book.pending
      · rw [if_pos hid]
      · rw [if_neg hid] at he
        simp at he
 · unfold ScriptRun.answerInOrder Acceptable
   rw [if_neg (hfinished hf)]
   cases now with
   | none => simp
   | some reading =>
    dsimp only
    by_cases hseq : seq = 0 ∨ seq ∈ r.book.delivered
    · rw [if_pos hseq]
      refine ⟨nofun, fun ⟨hzero, hall, _⟩ => ?_⟩
      rcases hseq with hseq | hseq
      · exact absurd hseq hzero
      · obtain ⟨a, ha, hs⟩ := hused.mp hseq
        exact absurd hs (hall a ha)
    · rw [if_neg hseq]
      obtain ⟨hzero, hunused⟩ := not_or.mp hseq
      by_cases hid : id ∈ r.book.pending
      · rw [if_neg (not_not_intro hid)]
        exact ⟨fun _ => ⟨hzero, fun a ha hs => hunused (hused.mpr ⟨a, ha, hs⟩), rfl,
         h.waiting_iff.mp hid⟩, fun _ => rfl⟩
      · rw [if_pos hid]
        exact ⟨nofun, fun ⟨_, _, _, hw⟩ => absurd (h.waiting_iff.mpr hw) hid⟩
 subst hnow
 unfold ScriptRun.answerInOrder at hok ⊢
 rw [if_neg (hfinished hf)] at hok ⊢
 dsimp only at hok ⊢
 split
 next hseq =>
  rw [if_pos hseq] at hok
  simp at hok
 next hseq =>
  rw [if_neg hseq] at hok
  split
  next hid =>
   rw [if_pos hid] at hok
   simp at hok
  · rfl

/-! ## What is applied -/

/-- The clocks a delivery's reading is the latest of. -/
def clocksUpTo (clock : τ) (accepted : List (Answer τ ρ)) (n : Nat) : Set τ :=
 {t | t = clock ∨ ∃ a ∈ accepted, a.seq.toNat ≤ n ∧ a.clock = t}

/-- The deliveries are accepted answers with the numbers from one on, in this order, each under
the latest clock of the start and of the answers so far. -/
def InOrder (clock : τ) (r : ScriptRun σ τ ρ κ ω ε) : Prop := ∀ i d, r.script.applied[i]? = some d →
  (∃ a ∈ r.accepted, a.seq = d.seq ∧ a.id = d.id ∧ a.result = d.result)
   ∧ d.seq.toNat = i + 1 ∧ IsGreatest (clocksUpTo clock r.accepted (i + 1)) d.clock

theorem isGreatest_latest (clock : τ) (answers : List (Answer τ ρ)) :
 IsGreatest {t | t = clock ∨ ∃ a ∈ answers, a.clock = t} (latest clock answers) := by
 induction answers using List.reverseRecOn with
 | nil =>
  refine ⟨.inl rfl, ?_⟩
  rintro t (rfl | ⟨a, ha, -⟩)
  · exact le_refl _
  · simp at ha
 | append_singleton answers a ih =>
  rw [latest_snoc]
  refine ⟨?_, ?_⟩
  · rcases le_total (latest clock answers) a.clock with hle | hle
    · rw [max_eq_right hle]
      exact .inr ⟨a, by simp, rfl⟩
    · rw [max_eq_left hle]
      exact ih.1.imp_right fun ⟨b, hb, hclock⟩ => ⟨b, mem_append_left _ hb, hclock⟩
  · rintro t (rfl | ⟨b, hb, rfl⟩)
    · exact (ih.2 (.inl rfl)).trans (le_max_left _ _)
    · rcases mem_append.mp hb with hb | hb
      · exact (ih.2 (.inr ⟨b, hb, rfl⟩)).trans (le_max_left _ _)
      · rw [mem_singleton.mp hb]
        exact le_max_right _ _

theorem getElem?_deliveries (clock : τ) (answers : List (Answer τ ρ)) (i : Nat) :
 (deliveries clock answers)[i]? = answers[i]?.map fun a =>
  { seq := a.seq, clock := latest clock (answers.take (i + 1)), id := a.id, result := a.result } := by
 induction answers generalizing clock i with
 | nil => rfl
 | cons a rest ih =>
  cases i with
  | zero => rfl
  | succ i => exact ih (max clock a.clock) i

theorem Sound.mem_take (h : Sound clock answers r) {i : Nat} (hi : i < answers.length) {b : Answer τ ρ} :
 b ∈ answers.take (i + 1) ↔ b ∈ r.accepted ∧ b.seq.toNat ≤ i + 1 := by
 constructor
 · intro hb
   obtain ⟨j, hj⟩ := mem_iff_getElem?.mp hb
   have hlt : j < i + 1 := by
    by_contra hle
    rw [getElem?_take_eq_none (by omega)] at hj
    simp at hj
   rw [getElem?_take_of_lt hlt] at hj
   have hseq := h.numbered.getElem? hj
   exact ⟨h.mem_accepted.mpr (.inl (mem_of_getElem? hj)), by omega⟩
 · rintro ⟨hb, hle⟩
   have hpos : 1 ≤ b.seq.toNat := Nat.one_le_iff_ne_zero.mpr fun h0 => h.positive b hb (UInt32.toNat_inj.mp h0)
   obtain ⟨c, hc, hseq⟩ := h.numbered.mem.mpr ⟨hpos, by omega⟩
   obtain rfl : c = b := h.eq_of_seq (h.mem_accepted.mpr (.inl hc)) hb (UInt32.toNat_inj.mp hseq)
   obtain ⟨j, hj⟩ := mem_iff_getElem?.mp hc
   have hindex := h.numbered.getElem? hj
   refine mem_iff_getElem?.mpr ⟨j, ?_⟩
   rw [getElem?_take_of_lt (by omega), hj]

/-- **The deliveries are in order.** -/
theorem Sound.in_order (h : Sound clock answers r) : InOrder clock r := by
 intro i d hd
 rw [h.applied, getElem?_deliveries, Option.map_eq_some_iff] at hd
 obtain ⟨a, ha, rfl⟩ := hd
 refine ⟨⟨a, h.mem_accepted.mpr (.inl (mem_of_getElem? ha)), rfl, rfl, rfl⟩,
  h.numbered.getElem? ha, ?_⟩
 have hset : clocksUpTo clock r.accepted (i + 1)
  = {t | t = clock ∨ ∃ a ∈ answers.take (i + 1), a.clock = t} := by
  ext t
  refine or_congr_right (exists_congr fun b => ?_)
  rw [h.mem_take (List.getElem_of_getElem? ha).1, and_assoc]
 rw [hset]
 exact isGreatest_latest _ _

end

/-! ## The run -/

/-- What holds of every run, stopped or not. -/
structure Ordered (machine : Machine σ τ ρ κ ω ε) (clock : τ) (r : ScriptRun σ τ ρ κ ω ε) : Prop where
 accepts : ∀ seq now id result, Accepts r seq now id result
 in_order : InOrder clock r
 /-- An answer whose smaller numbers are accepted comes to be applied, unless the run ends,
  however the thread's steps and other inputs alternate. -/
 progress : ∀ a ∈ r.accepted, Filled a.seq.toNat r.accepted →
  ∀ schedule, Schedule.Recurs (· = .script) schedule → ∃ n, Finished (r.under machine schedule n)
   ∨ ∃ d ∈ (r.under machine schedule n).script.applied,
    d.seq = a.seq ∧ d.id = a.id ∧ d.result = a.result

section

variable {machine : Machine σ τ ρ κ ω ε} {clock : τ} {r : ScriptRun σ τ ρ κ ω ε}

theorem ScriptRun.Reachable.under (hr : Reachable machine clock r) (schedule : Nat → Input τ ρ) (n : Nat) :
 Reachable machine clock (r.under machine schedule n) :=
 Schedule.under_invariant (Reachable machine clock) (fun _ _ h => Run.Reach.step h trivial) hr schedule n

theorem accepted_under (machine : Machine σ τ ρ κ ω ε) (r : ScriptRun σ τ ρ κ ω ε)
 (schedule : Nat → Input τ ρ) (n : Nat) : r.accepted <+: (r.under machine schedule n).accepted :=
 Schedule.under_invariant (fun s : ScriptRun σ τ ρ κ ω ε => r.accepted <+: s.accepted)
  (fun s input h => h.trans (accepted_step machine s input)) (prefix_refl _) schedule n

theorem Sound.exists_delivery {answers : List (Answer τ ρ)} (h : Sound clock answers r)
 {a : Answer τ ρ} (ha : a ∈ r.accepted) (hle : a.seq.toNat ≤ r.script.applied.length) :
 ∃ d ∈ r.script.applied, d.seq = a.seq ∧ d.id = a.id ∧ d.result = a.result := by
 have hpos : 1 ≤ a.seq.toNat := Nat.one_le_iff_ne_zero.mpr fun h0 => h.positive a ha (UInt32.toNat_inj.mp h0)
 have hlt : a.seq.toNat - 1 < r.script.applied.length := by omega
 have hd : r.script.applied[a.seq.toNat - 1]? = some r.script.applied[a.seq.toNat - 1] :=
  getElem?_eq_getElem hlt
 obtain ⟨⟨b, hb, hseq, hid, hresult⟩, hnumber, -⟩ := h.in_order _ _ hd
 obtain rfl : b = a := h.eq_of_seq hb ha (UInt32.toNat_inj.mp (by rw [hseq, hnumber]; omega))
 exact ⟨_, getElem_mem hlt, hseq.symm, hid.symm, hresult.symm⟩

theorem ordered (hr : ScriptRun.Reachable machine clock r) : Ordered machine clock r := by
 obtain ⟨answers, h⟩ := exists_sound hr
 refine ⟨h.accepts, h.in_order, fun a ha hfilled schedule hs => ?_⟩
 obtain ⟨n, hn⟩ := reaches hr hfilled hs
 obtain ⟨answers', h'⟩ := exists_sound (hr.under schedule n)
 exact ⟨n, hn.imp_right fun hle =>
  h'.exists_delivery ((accepted_under machine r schedule n).subset ha) hle⟩

end

def twoCalls : Machine Bool Nat Nat Unit (Nat × Nat) Unit where
 first := .call () 0 (.call () 0 (.wait false))
 deliver second d := .output (d.clock, d.result) (if second then .done () else .wait true)

def twoAnswers (a b : Input Nat Nat) : ScriptRun Bool Nat Nat Unit (Nat × Nat) Unit :=
 Run.final (ScriptRun.step twoCalls) (ScriptRun.start twoCalls 1)
  ([.script, .script, .script, a, b] ++ List.replicate 11 .script)

theorem reachable_twoAnswers (a b : Input Nat Nat) :
 ScriptRun.Reachable twoCalls 1 (twoAnswers a b) :=
 have hstart : ScriptRun.Reachable twoCalls 1 (ScriptRun.start twoCalls 1) := .init rfl
 hstart.final_free (fun _ _ => trivial) _

end Bake.Codemode
