import Bake.Plugins.Veto
import Mathlib.Data.List.Induction
import Mathlib.Data.List.Nodup

/-!
# No way past a plugin

Along every run a dispatch is behind the plugins that let its call through and at the first one
that has not: each of those answered Continue to this call and was then found without a failure.
-/

namespace Bake.Plugins

open VetoDispatcher
open VetoState (act fail step)

variable {d : VetoDispatcher} {inputs : List Input}

theorem after_append (d : VetoDispatcher) (inputs more : List Input) :
 d.after (inputs ++ more) = Run.final (step d) (d.after inputs) more :=
 List.foldl_append ..

theorem after_snoc (d : VetoDispatcher) (inputs : List Input) (i : Input) :
 d.after (inputs ++ [i]) = (d.after inputs).step d i := after_append d inputs [i]

/-! ## Failures stay -/

variable {s : VetoState}

variable {id : String} {f : Failure}

theorem fail_of_some (h : s.failure id = some f)
 (new : Option (String × Failure)) : s.fail new id = some f := by
 cases new with
 | none => exact h
 | some e =>
  unfold fail
  dsimp only
  split
  · rw [h, Option.getD_some]
  · exact h

theorem failure_step (h : s.failure id = some f) (i : Input) :
  (s.step d i).failure id = some f := by
 cases i with
 | dispatch c call =>
  unfold step
  dsimp only
  split <;> exact h
 | act c move =>
  unfold step act
  dsimp only
  split
  · exact h
  · exact fail_of_some h _
 | abort signal => exact h

theorem failure_stays (h : (d.after inputs).failure id = some f)
 (more : List Input) : (d.after (inputs ++ more)).failure id = some f := by
 rw [after_append]
 exact Run.final_invariant (fun s : VetoState => s.failure id = some f)
  (fun _ i hs => failure_step hs i) h more

theorem failure_initial {slot : Registered} (hs : slot ∈ d.slots)
 (hp : slot.plugin = .blocked f) : (d.after inputs).failure slot.id = some f := by
 refine @failure_stays d [] slot.id f ?_ inputs
 show (d.slots.find? (·.id = slot.id)).bind Registered.initial = some f
 have hfind : d.slots.find? (·.id = slot.id) = some slot := by
  cases hf : d.slots.find? (·.id = slot.id) with
  | none => exact absurd (decide_eq_true rfl) (List.find?_eq_none.mp hf slot hs)
  | some other =>
   have hid : other.id = slot.id := by simpa using List.find?_some hf
   exact congrArg some (List.inj_on_of_nodup_map d.distinct (List.mem_of_find?_eq_some hf) hs hid)
 rw [hfind, Option.bind_some, Registered.initial, hp]

/-! ## Answers -/

def Answer.toWasm : Answer → WasmAnswer
 | .veto answer => .veto answer
 | .failed failure => .failed failure

/-- The answer of a plugin that a step brings. -/
def VetoDispatcher.heard (d : VetoDispatcher) : Phase → Move → Option (Registered × WasmAnswer)
 | .calling slot _, .called (some message) => some (slot, .failed (panicked message))
 | .polling slot _, .polled poll => (d.answerOf poll).map fun answer => (slot, answer.toWasm)
 | .asking slot _, .answered answer => some (slot, answer)
 | _, _ => none

/-- The step brings the call this answer of this plugin. -/
def Answers (d : VetoDispatcher) (inputs : List Input) (c : Nat) (move : Move) (slot : Registered)
 (answer : WasmAnswer) : Prop :=
 ∃ call phase, (d.after inputs).calls c = some ⟨call, phase⟩ ∧ d.heard phase move = some (slot, answer)

/-- The plugin gave this answer to this very call. -/
def Heard (d : VetoDispatcher) (inputs : List Input) (c : Nat) (slot : Registered)
 (answer : WasmAnswer) : Prop :=
 ∃ before move onward, inputs = before ++ .act c move :: onward ∧ Answers d before c move slot answer

/-- The plugin answered Continue to this very call, and had no failure at a moment after. -/
def Passed (d : VetoDispatcher) (inputs : List Input) (c : Nat) (slot : Registered) : Prop :=
 ∃ before move between onward, inputs = before ++ .act c move :: (between ++ onward)
  ∧ Answers d before c move slot (.veto .continues)
  ∧ (d.after (before ++ .act c move :: between)).failure slot.id = none

section

variable {c : Nat} {slot : Registered} {answer : WasmAnswer} {move : Move}

theorem Heard.append (h : Heard d inputs c slot answer) (more : List Input) :
 Heard d (inputs ++ more) c slot answer := by
 obtain ⟨before, move, onward, rfl, ha⟩ := h
 exact ⟨before, move, onward ++ more, by rw [List.append_assoc, List.cons_append], ha⟩

theorem Passed.append (h : Passed d inputs c slot) (more : List Input) :
 Passed d (inputs ++ more) c slot := by
 obtain ⟨before, move, between, onward, rfl, ha, hf⟩ := h
 refine ⟨before, move, between, onward ++ more, ?_, ha, hf⟩
 rw [List.append_assoc, List.cons_append, List.append_assoc]

theorem Answers.now (h : Answers d inputs c move slot answer) :
 Heard d (inputs ++ [.act c move]) c slot answer := ⟨inputs, move, [], rfl, h⟩

theorem Heard.passed (h : Heard d inputs c slot (.veto .continues))
 (hf : (d.after inputs).failure slot.id = none) : Passed d inputs c slot := by
 obtain ⟨before, move, onward, rfl, ha⟩ := h
 exact ⟨before, move, onward, [], by rw [List.append_nil], ha, hf⟩

end

/-! ## Where a dispatch is -/

/-- The plugins before this one let the call through. -/
def AtSlot (d : VetoDispatcher) (inputs : List Input) (c : Nat) (call : ToolCall) (slot : Registered)
 (rest : List Registered) : Prop :=
 ∃ done, d.listed call.toolName = done ++ slot :: rest ∧ ∀ p ∈ done, Passed d inputs c p

/-- Why a plugin blocks a call. -/
def Why (d : VetoDispatcher) (inputs : List Input) (c : Nat) (slot : Registered) (terminate : Bool) :
 Outcome → Prop
 | .blocked reason => Heard d inputs c slot (.veto (.block reason terminate))
 | .failed f true => (d.after inputs).failure slot.id = some f
 | .failed f false => (Heard d inputs c slot (.failed f) ∨ ∃ reason terminate,
  Heard d inputs c slot (.veto (.block reason terminate)) ∧ maxReasonBytes < reason.utf8ByteSize
   ∧ f = invalidReturn reason)
  ∧ ((d.after inputs).failure slot.id).isSome
 | .unchecked message => Heard d inputs c slot (.unchecked message)

/-- The decision is this plugin's about this call. -/
structure Stops (d : VetoDispatcher) (inputs : List Input) (c : Nat) (call : ToolCall)
 (slot : Registered) (v : VetoDecision) : Prop where
 plugin : v.plugin = slot.id
 toolCallId : v.toolCallId = call.toolCallId
 toolName : v.toolName = call.toolName
 why : Why d inputs c slot v.terminate v.outcome

/-- What holds of a dispatch by where it is. -/
def At (d : VetoDispatcher) (inputs : List Input) (c : Nat) (call : ToolCall) : Phase → Prop
 | .top rest => ∃ done, d.listed call.toolName = done ++ rest ∧ ∀ p ∈ done, Passed d inputs c p
 | .calling slot rest | .waiting slot rest | .polling slot rest | .entering slot rest
 | .asking slot rest => AtSlot d inputs c call slot rest
 | .heard slot rest answer => AtSlot d inputs c call slot rest ∧ Heard d inputs c slot answer
 | .recording slot f => (∃ rest, AtSlot d inputs c call slot rest)
  ∧ Heard d inputs c slot (.failed f) ∧ ((d.after inputs).failure slot.id).isSome
 | .returned .continues => ∀ p ∈ d.listed call.toolName, Passed d inputs c p
 | .returned (.blocked v) => ∃ slot rest, AtSlot d inputs c call slot rest
  ∧ Stops d inputs c call slot v
 | .returned .cancelled | .dropped => True

section

variable {c : Nat} {call : ToolCall} {slot : Registered} {rest : List Registered} {phase : Phase}

theorem AtSlot.append (h : AtSlot d inputs c call slot rest) (more : List Input) :
 AtSlot d (inputs ++ more) c call slot rest := by
 obtain ⟨done, hd, hp⟩ := h
 exact ⟨done, hd, fun p hm => (hp p hm).append more⟩

theorem isSome_failure (h : ((d.after inputs).failure id).isSome) (more : List Input) :
 ((d.after (inputs ++ more)).failure id).isSome := by
 obtain ⟨f, hf⟩ := Option.isSome_iff_exists.mp h
 rw [failure_stays hf more]
 rfl

theorem Why.append {terminate : Bool} {outcome : Outcome} (h : Why d inputs c slot terminate outcome)
 (more : List Input) : Why d (inputs ++ more) c slot terminate outcome := by
 cases outcome with
 | blocked reason | unchecked message => exact Heard.append h more
 | failed f earlier =>
  cases earlier with
  | true => exact failure_stays h more
  | false =>
   refine ⟨h.1.imp (·.append more) ?_, isSome_failure h.2 more⟩
   rintro ⟨reason, terminate, hh, hsize, hf⟩
   exact ⟨reason, terminate, hh.append more, hsize, hf⟩

theorem At.append (h : At d inputs c call phase) (more : List Input) :
 At d (inputs ++ more) c call phase := by
 cases phase with
 | top rest =>
  obtain ⟨done, hd, hp⟩ := h
  exact ⟨done, hd, fun p hm => (hp p hm).append more⟩
 | calling slot rest | waiting slot rest | polling slot rest | entering slot rest
 | asking slot rest => exact AtSlot.append h more
 | heard slot rest answer => exact ⟨h.1.append more, h.2.append more⟩
 | recording slot f =>
  obtain ⟨⟨rest, hat⟩, hh, hf⟩ := h
  exact ⟨⟨rest, hat.append more⟩, hh.append more, isSome_failure hf more⟩
 | returned result =>
  cases result with
  | continues => exact fun p hm => (h p hm).append more
  | cancelled => trivial
  | blocked v =>
   obtain ⟨slot, rest, hat, hs⟩ := h
   exact ⟨slot, rest, hat.append more, hs.plugin, hs.toolCallId, hs.toolName, hs.why.append more⟩
 | dropped => trivial

theorem AtSlot.passed (h : AtSlot d inputs c call slot rest) (hp : Passed d inputs c slot) :
 At d inputs c call (.top rest) := by
 obtain ⟨done, hd, hall⟩ := h
 refine ⟨done ++ [slot], by rw [hd, List.append_assoc]; rfl, fun p hm => ?_⟩
 rcases List.mem_append.mp hm with hm | hm
 · exact hall p hm
 · rw [List.mem_singleton.mp hm]
   exact hp

/-! ## One step -/

theorem failure_act (move : Move) (hc : (d.after inputs).calls c = some ⟨call, phase⟩) :
 (d.after (inputs ++ [.act c move])).failure = (d.after inputs).fail
  (d.next (d.after inputs).failure ((d.after inputs).abortedFor call) call phase move).2 := by
 rw [after_snoc]
 unfold step act
 dsimp only
 rw [hc]

theorem fail_set (s : VetoState) (id : String) (f : Failure) :
 (s.fail (some (id, f)) id).isSome := by
 unfold fail
 dsimp only
 rw [if_pos rfl]
 rfl

variable {move : Move}

section

variable (hat : AtSlot d inputs c call slot rest)

include hat

theorem at_earlier
 (hf : (d.after inputs).failure slot.id = some f) : At d inputs c call (earlier slot call f) :=
 ⟨slot, rest, hat, rfl, rfl, rfl, hf⟩

theorem at_failed {unrecorded : Option String}
 (hh : Heard d inputs c slot (.failed f)) (hf : ((d.after inputs).failure slot.id).isSome) :
 At d inputs c call (failed slot call f unrecorded) :=
 ⟨slot, rest, hat, rfl, rfl, rfl, .inl hh, hf⟩

theorem at_take {answer : Answer}
 (ha : Answers d inputs c move slot answer.toWasm)
 (hfailure : (d.after (inputs ++ [.act c move])).failure = (d.after inputs).fail
  (take (d.after inputs).failure call slot rest answer).2) :
 At d (inputs ++ [.act c move]) c call (take (d.after inputs).failure call slot rest answer).1 := by
 have hat := hat.append [.act c move]
 have hh := ha.now
 cases answer with
 | veto answer =>
  cases answer with
  | continues =>
   cases hf : (d.after inputs).failure slot.id with
   | some f =>
    rw [take, hf]
    exact at_earlier hat (failure_stays hf _)
   | none =>
    rw [take, hf] at hfailure ⊢
    refine hat.passed (hh.passed ?_)
    rw [hfailure]
    exact hf
  | block reason terminate =>
   rw [take] at hfailure ⊢
   split
   next hsize =>
    rw [if_pos hsize] at hfailure
    refine ⟨slot, rest, hat, rfl, rfl, rfl, .inr ⟨reason, terminate, hh, hsize, rfl⟩, ?_⟩
    rw [hfailure]
    exact fail_set _ _ _
   · exact ⟨slot, rest, hat, rfl, rfl, rfl, hh⟩
 | failed f =>
  refine at_failed hat hh ?_
  rw [hfailure]
  exact fail_set _ _ _

theorem at_takeWasm {answer : WasmAnswer}
 (hh : Heard d inputs c slot answer)
 (hfailure : (d.after (inputs ++ [.act c move])).failure = (d.after inputs).fail
  (takeWasm (d.after inputs).failure call slot rest answer).2) :
 At d (inputs ++ [.act c move]) c call (takeWasm (d.after inputs).failure call slot rest answer).1 := by
 have hat := hat.append [.act c move]
 cases answer with
 | veto answer =>
  cases answer with
  | continues =>
   cases hf : (d.after inputs).failure slot.id with
   | some f =>
    rw [takeWasm, hf]
    exact at_earlier hat (failure_stays hf _)
   | none =>
    rw [takeWasm, hf]
    exact hat.passed ((hh.passed hf).append _)
  | block reason terminate => exact ⟨slot, rest, hat, rfl, rfl, rfl, hh.append _⟩
 | unchecked message => exact ⟨slot, rest, hat, rfl, rfl, rfl, hh.append _⟩
 | failed f =>
  rw [takeWasm] at hfailure ⊢
  split
  next hrecord =>
   rw [if_pos hrecord] at hfailure
   refine ⟨⟨rest, hat⟩, hh.append _, ?_⟩
   rw [hfailure]
   exact fail_set _ _ _
  next hrecord =>
   rw [if_neg hrecord] at hfailure
   refine at_failed hat (hh.append _) ?_
   rw [hfailure]
   exact fail_set _ _ _
 | cancelled => trivial

end

/-- **A dispatch's step** keeps what holds of it. -/
theorem at_next (hc : (d.after inputs).calls c = some ⟨call, phase⟩) (h : At d inputs c call phase)
 (move : Move) : At d (inputs ++ [.act c move]) c call
  (d.next (d.after inputs).failure ((d.after inputs).abortedFor call) call phase move).1 := by
 have hfailure := failure_act move hc
 have hsame : At d (inputs ++ [.act c move]) c call phase := h.append _
 cases phase with
 | top rest =>
  cases move with
  | proceed =>
   cases rest with
   | nil =>
    obtain ⟨done, hd, hp⟩ := hsame
    rw [List.append_nil] at hd
    exact fun p hm => hp p (hd ▸ hm)
   | cons slot rest =>
    rw [next] at hfailure ⊢
    split
    · trivial
    split
    next f hf =>
     exact at_earlier hsame (failure_stays hf _)
    next hnone =>
     split
     · exact hsame
     · exact hsame
     next f hp =>
      obtain ⟨done, hd, -⟩ := h
      have hmem : slot ∈ d.slots := (List.mem_filter.mp
       (hd ▸ List.mem_append_right _ (List.mem_cons_self ..))).1
      rw [failure_initial hmem hp] at hnone
      simp at hnone
  | drop => cases rest <;> trivial
  | _ =>
   cases rest <;> exact hsame
 | calling slot rest =>
  cases move with
  | called panic =>
   cases panic with
   | none => exact hsame
   | some message => exact at_take h ⟨call, _, hc, rfl⟩ hfailure
  | drop => trivial
  | _ => exact hsame
 | waiting slot rest =>
  cases move with
  | proceed =>
   rw [next]
   split
   · trivial
   · exact hsame
  | drop => trivial
  | _ => exact hsame
 | polling slot rest =>
  cases move with
  | polled poll =>
   rw [next] at hfailure ⊢
   split
   · exact hsame
   next answer ha =>
    rw [ha] at hfailure
    refine at_take h ⟨call, _, hc, ?_⟩ hfailure
    rw [heard, ha]
    rfl
  | drop => trivial
  | _ => exact hsame
 | entering slot rest =>
  cases move with
  | entered granted =>
   rw [next]
   split
   · exact hsame
   · trivial
  | drop => trivial
  | _ => exact hsame
 | asking slot rest =>
  cases move with
  | answered a => exact ⟨hsame, Answers.now ⟨call, _, hc, rfl⟩⟩
  | drop => trivial
  | _ => exact hsame
 | heard slot rest answer =>
  cases move with
  | proceed =>
   rw [next] at hfailure ⊢
   split
   · trivial
   next hclear =>
    rw [if_neg hclear] at hfailure
    exact at_takeWasm h.1 h.2 hfailure
  | drop => trivial
  | _ => exact hsame
 | recording slot f =>
  cases move with
  | recorded unrecorded =>
   obtain ⟨⟨rest, hat⟩, hh, hf⟩ := hsame
   exact at_failed hat hh hf
  | drop => trivial
  | _ => exact hsame
 | returned result =>
  cases move <;> exact hsame
 | dropped =>
  cases move <;> trivial

end

/-! ## Every run -/

theorem calls_dispatch {c : Nat} {call : ToolCall} {k : Nat} {e : Dispatching}
 (h : (s.step d (.dispatch c call)).calls k = some e) :
 s.calls k = some e ∨ (k = c ∧ s.calls c = none ∧ e = ⟨call, .top (d.listed call.toolName)⟩) := by
 unfold step at h
 dsimp only at h
 split at h
 · exact .inl h
 next hnew =>
  dsimp only at h
  split at h
  next hk =>
   exact .inr ⟨hk, by simpa using hnew, (Option.some.inj h).symm⟩
  · exact .inl h

theorem calls_act {c : Nat} {move : Move} {k : Nat} {e : Dispatching}
 (h : (s.act d c move).calls k = some e) : (k ≠ c ∧ s.calls k = some e)
  ∨ (k = c ∧ ∃ phase, s.calls c = some ⟨e.call, phase⟩
   ∧ e.phase = (d.next s.failure (s.abortedFor e.call) e.call phase move).1) := by
 unfold act at h
 split at h
 next hnone =>
  refine .inl ⟨fun hk => ?_, h⟩
  rw [hk, hnone] at h
  simp at h
 next call phase hc =>
  dsimp only at h
  split at h
  next hk =>
   cases h
   exact .inr ⟨hk, phase, hc, rfl⟩
  next hk =>
   exact .inl ⟨hk, h⟩

/-- **Every dispatch of a run** is behind the plugins that let its call through. -/
theorem at_after (d : VetoDispatcher) (inputs : List Input) {c : Nat} {call : ToolCall} {phase : Phase}
 (hc : (d.after inputs).calls c = some ⟨call, phase⟩) : At d inputs c call phase := by
 induction inputs using List.reverseRecOn generalizing c call phase with
 | nil => simp [VetoDispatcher.after, VetoDispatcher.start, Run.final] at hc
 | append_singleton inputs i ih =>
  rw [after_snoc] at hc
  cases i with
  | dispatch c' call' =>
   rcases calls_dispatch hc with h | ⟨rfl, -, h⟩
   · exact (ih h).append _
   · cases h
     exact ⟨[], rfl, fun _ hm => absurd hm (by simp)⟩
  | act c' move =>
   rcases calls_act hc with ⟨-, h⟩ | ⟨rfl, phase', h, hp⟩
   · exact (ih h).append _
   · dsimp only at h hp
     rw [hp]
     exact at_next h (ih h) move
  | abort signal => exact (ih hc).append _

/-- What a run shows, and what it shows after more of it. -/
structure FailsClosed (d : VetoDispatcher) (inputs more : List Input) : Prop where
 /-- A call goes on only past every plugin that lists its tool. -/
 continues : ∀ c call, (d.after inputs).calls c = some ⟨call, .returned .continues⟩ →
  ∀ p ∈ d.listed call.toolName, Passed d inputs c p
 /-- A block is of the first plugin that did not let the call through. -/
 blocks : ∀ c call v, (d.after inputs).calls c = some ⟨call, .returned (.blocked v)⟩ →
  ∃ before slot onward, d.listed call.toolName = before ++ slot :: onward
   ∧ (∀ p ∈ before, Passed d inputs c p) ∧ Stops d inputs c call slot v
 /-- A failure is set at most once. -/
 once : ∀ id f, (d.after inputs).failure id = some f → (d.after (inputs ++ more)).failure id = some f
 /-- A call dispatched after a failure of a plugin that lists its tool does not go on. -/
 later : ∀ slot f c call result, ((d.after inputs).failure slot.id = some f) →
  (d.after inputs).calls c = none → slot ∈ d.listed call.toolName →
  (d.after (inputs ++ more)).calls c = some ⟨call, .returned result⟩ →
  result = .cancelled ∨ ∃ v, result = .blocked v

theorem calls_stay {c : Nat} (hc : ((d.after inputs).calls c).isSome) (more : List Input) :
 ((d.after (inputs ++ more)).calls c).isSome := by
 rw [after_append]
 refine Run.final_invariant (fun s : VetoState => (s.calls c).isSome) (fun s i hs => ?_) hc more
 cases i with
 | dispatch k call =>
  unfold step
  dsimp only
  split
  · exact hs
  · dsimp only
    split
    · rfl
    · exact hs
 | act k move =>
  unfold step act
  dsimp only
  split
  · exact hs
  · dsimp only
    split
    · rfl
    · exact hs
 | abort signal => exact hs

theorem fails_closed (d : VetoDispatcher) (inputs more : List Input) : FailsClosed d inputs more := by
 refine ⟨fun c call hc => at_after d inputs hc, fun c call v hc => ?_,
  fun id f hf => failure_stays hf more, fun slot f c call result hf hnone hmem hc => ?_⟩
 · obtain ⟨slot, rest, ⟨done, hd, hp⟩, hs⟩ := at_after d inputs hc
   exact ⟨done, slot, rest, hd, hp, hs⟩
 cases result with
 | cancelled => exact .inl rfl
 | blocked v => exact .inr ⟨v, rfl⟩
 | continues =>
  obtain ⟨before, move, between, onward, heq, ⟨_, phase, hthere, -⟩, hclear⟩ :=
   at_after d (inputs ++ more) hc slot hmem
  -- the answer came behind the failure, so the failure was there
  rcases List.append_eq_append_iff.mp heq with ⟨past, rfl, -⟩ | ⟨past, rfl, -⟩
  · have hstay := failure_stays hf (past ++ .act c move :: between)
    rw [← List.append_assoc, hclear] at hstay
    simp at hstay
  · have hsome := @calls_stay d before c (by rw [hthere]; rfl) past
    rw [hnone] at hsome
    simp at hsome

end Bake.Plugins
