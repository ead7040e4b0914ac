import Mathlib.Data.List.Basic

/-!
# Awaiting several futures in order

`join_all`: the futures of a list are polled in passes, each pass in list order. A future
is started by its first poll, and with a bound only so many are started and not finished.
When no started future is left the outputs are handed out in list order.

A section of a join is one look at the future of its index: the future is skipped, started,
found ready or polled, and a poll may find the future pending. Behind the last index the
task is polled again, from the first.
-/

open List Option

namespace Bake.Agent

variable {φ τ ε α : Type}

/-- The state of `join_all`, and the index its pass has come to. -/
structure Join (φ τ : Type) where
 futures : List φ
 outputs : List (Option τ)
 started : Nat
 active : Nat
 index : Nat

inductive Joined (φ τ ε : Type) where
 | going (effects : List ε) (join : Join φ τ)
 | ready (outputs : List τ)

/-- A join before its first pass. -/
def Join.begin (futures : List φ) : Join φ τ :=
 { futures, outputs := futures.map fun _ => none, started := 0, active := 0, index := 0 }

/-- One section of `join_all`: a future is `ready` with a value, or takes a section of its
own by `poll`; no answer is a poll that finds it pending. -/
def Join.next (limit : Nat) (ready : φ → Option τ) (poll : φ → α → Option (List ε × φ))
 (join : Join φ τ) (answer : Option α) : Option (Joined φ τ ε) :=
 match join.futures[join.index]?, join.outputs[join.index]? with
 | some _, some (some _) => some (.going [] { join with index := join.index + 1 })
 | some future, some none =>
  if join.index = join.started then
   if join.active = limit then
    -- The bound ends the pass.
    some (.going [] { join with index := join.futures.length })
   else
    some (.going [] { join with started := join.started + 1, active := join.active + 1 })
  else
   match ready future with
   | some value =>
    some (.going []
     { join with
       outputs := join.outputs.set join.index (some value)
       active := join.active - 1
       index := join.index + 1 })
   | none =>
    match answer with
    | none => some (.going [] { join with index := join.index + 1 })
    | some answer =>
     (poll future answer).map fun (effects, future) =>
      .going effects { join with futures := join.futures.set join.index future }
 | _, _ =>
  if 0 < join.active then some (.going [] { join with index := 0 })
  else some (.ready (join.outputs.filterMap id))

/-- What holds of a join: each future has its property and each output its own, the futures
that have not started have no output, and the active ones are those started without one. -/
structure Join.Sound (P : Nat → φ → Prop) (Q : Nat → τ → Prop) (join : Join φ τ) : Prop where
 length : join.outputs.length = join.futures.length
 futures : ∀ i f, join.futures[i]? = some f → P i f
 outputs : ∀ i t, join.outputs[i]? = some (some t) → Q i t
 unstarted : ∀ i, join.started ≤ i → i < join.futures.length → join.outputs[i]? = some none
 started : join.started ≤ join.futures.length
 active : join.active = (join.outputs.take join.started).countP isNone
 index : join.index ≤ join.started ∨ (join.index = join.futures.length ∧ 0 < join.active)

variable {P : Nat → φ → Prop} {Q : Nat → τ → Prop}

theorem Join.Sound.begin {futures : List φ} (h : ∀ i f, futures[i]? = some f → P i f) :
 (Join.begin futures : Join φ τ).Sound P Q where
 length := by simp [Join.begin]
 futures := h
 outputs i t ht := by
  rw [Join.begin, getElem?_map] at ht
  obtain ⟨f, -, hf⟩ := map_eq_some_iff.mp ht
  simp at hf
 unstarted i _ hi := by
  simp only [Join.begin, getElem?_map] at hi ⊢
  rw [getElem?_eq_getElem hi]
  rfl
 started := Nat.zero_le _
 active := by simp [Join.begin]
 index := .inl (Nat.le_refl _)

variable {join : Join φ τ}

theorem Join.Sound.index_le (h : join.Sound P Q) (hlt : join.index < join.futures.length) :
 join.index ≤ join.started := by
 rcases h.index with hle | ⟨heq, -⟩
 · exact hle
 · omega

theorem Join.Sound.start (h : join.Sound P Q)
 (hlt : join.index < join.futures.length) (heq : join.index = join.started) :
 ({ join with started := join.started + 1, active := join.active + 1 } : Join φ τ).Sound P Q where
 length := h.length
 futures := h.futures
 outputs := h.outputs
 unstarted i hi hl := h.unstarted i (by simp only at hi; omega) hl
 started := by simp only; omega
 active := by
  have hnone : join.outputs[join.started]? = some none := h.unstarted _ (Nat.le_refl _) (heq ▸ hlt)
  rw [take_add_one, hnone, countP_append, ← h.active]
  rfl
 index := .inl (by simp only; omega)

theorem Join.Sound.output (h : join.Sound P Q) {value : τ} (hlt : join.index < join.started)
 (hnone : join.outputs[join.index]? = some none) (hq : Q join.index value) :
 ({ join with
  outputs := join.outputs.set join.index (some value)
  active := join.active - 1
  index := join.index + 1 } : Join φ τ).Sound P Q where
 length := by rw [length_set, h.length]
 futures := h.futures
 outputs i t ht := by
  simp only [getElem?_set] at ht
  split at ht
  next heq =>
   split at ht
   · exact heq ▸ some.inj (some.inj ht) ▸ hq
   · simp at ht
  · exact h.outputs i t ht
 unstarted i hi hl := by
  simp only at hi ⊢
  rw [getElem?_set_ne (by omega)]
  exact h.unstarted i hi hl
 started := h.started
 active := by
  obtain ⟨hl, hget⟩ := List.getElem_of_getElem? hnone
  have hin : join.index < (join.outputs.take join.started).length := by
   rw [length_take]
   omega
  simp only
  rw [take_set, countP_set hin, getElem_take, hget, ← h.active]
  simp
 index := .inl (by simp only; omega)

/-- Every started future of a join that ends its pass with none active has an output. -/
theorem Join.Sound.complete (h : join.Sound P Q) (hge : join.futures.length ≤ join.index)
 (hactive : ¬ 0 < join.active) : ∃ values : List τ, join.outputs = values.map some := by
 have hstarted : join.started = join.futures.length := by
  rcases h.index with hle | ⟨-, hpos⟩
  · exact Nat.le_antisymm h.started (Nat.le_trans hge hle)
  · exact absurd hpos hactive
 have hcount : join.outputs.countP isNone = 0 := by
  have := h.active
  rw [hstarted, ← h.length, take_length] at this
  omega
 have hsome : ∀ o ∈ join.outputs, ∃ t, o = some t := fun o ho =>
  isSome_iff_exists.mp (by
   have := countP_eq_zero.mp hcount o ho
   cases o <;> simp_all)
 generalize join.outputs = outputs at hsome
 induction outputs with
 | nil => exact ⟨[], rfl⟩
 | cons o rest ih =>
  obtain ⟨t, rfl⟩ := hsome _ mem_cons_self
  obtain ⟨values, rfl⟩ := ih fun o ho => hsome o (mem_cons_of_mem _ ho)
  exact ⟨t :: values, rfl⟩

/-- **A section of a join** keeps what holds of it, and a join that is ready has one output
for each future, in order, whatever was polled when. -/
theorem Join.next_spec {limit : Nat} (hlimit : 0 < limit) {ready : φ → Option τ}
 {poll : φ → α → Option (List ε × φ)} {E : List ε → Prop} (hnil : E [])
 (hready : ∀ {i f t}, P i f → ready f = some t → Q i t)
 (hpoll : ∀ {i f a es f'}, P i f → poll f a = some (es, f') → P i f' ∧ E es) (h : join.Sound P Q)
 {answer : Option α} {r : Joined φ τ ε} (hr : join.next limit ready poll answer = some r) :
 (∃ es join', r = .going es join' ∧ E es ∧ join'.Sound P Q
  ∧ join'.futures.length = join.futures.length)
  ∨ ∃ values, r = .ready values ∧ values.length = join.futures.length
   ∧ ∀ i t, values[i]? = some t → Q i t := by
 unfold Join.next at hr
 split at hr
 · -- the future has its output already
   rename_i hf ho
   have hlt := (List.getElem_of_getElem? hf).1
   have hle := h.index_le hlt
   have hne : join.index ≠ join.started := by
    intro heq
    rw [h.unstarted _ (by omega) hlt] at ho
    simp at ho
   exact .inl ⟨_, _, (some.inj hr).symm, hnil,
    { h with index := .inl (by simp only; omega) }, rfl⟩
 next future hf ho =>
  have hlt := (List.getElem_of_getElem? hf).1
  have hle := h.index_le hlt
  split at hr
  next heq =>
   split at hr
   next hbound =>
    exact .inl ⟨_, _, (some.inj hr).symm, hnil,
     { h with index := .inr ⟨rfl, by simp only; omega⟩ }, rfl⟩
   · exact .inl ⟨_, _, (some.inj hr).symm, hnil, h.start hlt heq, rfl⟩
  next hne =>
   split at hr
   next value hvalue =>
    exact .inl ⟨_, _, (some.inj hr).symm, hnil,
     h.output (by omega) ho (hready (h.futures _ _ hf) hvalue), rfl⟩
   split at hr
   · exact .inl ⟨_, _, (some.inj hr).symm, hnil,
      { h with index := .inl (by simp only; omega) }, rfl⟩
   · obtain ⟨⟨es, future'⟩, hp, rfl⟩ := map_eq_some_iff.mp hr
     obtain ⟨hP, hE⟩ := hpoll (h.futures _ _ hf) hp
     refine .inl ⟨_, _, rfl, hE, ?_, by simp⟩
     refine ⟨by simp [h.length], fun i f hfi => ?_, h.outputs,
      fun i hi hl => h.unstarted i hi (by simpa using hl), by simpa using h.started,
      h.active, .inl hle⟩
     by_cases heq : join.index = i
     · rw [← heq, getElem?_set_self hlt, some.injEq] at hfi
       exact heq ▸ hfi ▸ hP
     · rw [getElem?_set_ne heq] at hfi
       exact h.futures i f hfi
 next hother hother' =>
  have hge : join.futures.length ≤ join.index := by
   by_contra hlt
   have hin : join.index < join.outputs.length := by rw [h.length]; omega
   have hf := getElem?_eq_getElem (Nat.lt_of_not_le hlt)
   cases ho : join.outputs[join.index]? with
   | none => exact absurd (List.getElem?_eq_none_iff.mp ho) (by omega)
   | some o =>
    cases o with
    | none => exact hother' _ hf ho
    | some t => exact hother _ _ hf ho
  split at hr
  next hpos =>
   exact .inl ⟨_, _, (some.inj hr).symm, hnil,
    { h with index := .inl (Nat.zero_le _) }, rfl⟩
  next hzero =>
   obtain ⟨values, hvalues⟩ := h.complete hge hzero
   have hid : join.outputs.filterMap id = values := by
    rw [hvalues, filterMap_map]
    exact filterMap_some
   refine .inr ⟨_, (some.inj hr).symm, ?_, fun i t ht => ?_⟩
   · rw [hid, ← h.length, hvalues, length_map]
   · rw [hid] at ht
     exact h.outputs i t (by rw [hvalues, getElem?_map, ht]; rfl)

end Bake.Agent
