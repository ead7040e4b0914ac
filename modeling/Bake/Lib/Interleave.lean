import Bake.Lib.Run

/-!
# Interleaved tasks

Tasks that share a state and take turns: one critical section of one task at a time, in
any order, for any number of tasks, each started at an entry whenever its caller likes.
A blocked section does nothing. Between two sections the environment may act.

A property of the shared state, together with one of each task's place, is an
invariant of every run when a section keeps both for its own task, leaves every other
task's place true, and when an entry and the environment do. The second rule compares
two moments of one run: what every section adds up to, from any state reached.
-/

namespace Interleave

/-- A shared state and the places of the tasks over it. -/
structure Config (σ π : Type) where
 shared : σ
 tasks : List π

/-- What happens next: a task is started, a task takes its next section, or the
environment acts. -/
inductive Input (π κ ε : Type) where
 | spawn (place : π)
 | run (task : Nat) (choice : κ)
 | act (event : ε)

/-- The places a task may start at, the section at each place, and the environment. A
section depends on the task's number and on a choice the program does not make; it is
`none` while it is blocked. -/
structure Program (σ π κ ε : Type) where
 entry : π → Bool
 next : σ → Nat → π → κ → Option (σ × π)
 act : σ → ε → σ

variable {σ π κ ε : Type}

namespace Program

variable (P : Program σ π κ ε)

def step (c : Config σ π) : Input π κ ε → Config σ π
 | .spawn place => if P.entry place then { c with tasks := c.tasks ++ [place] } else c
 | .run task choice =>
  match c.tasks[task]? with
  | none => c
  | some place =>
   match P.next c.shared task place choice with
   | none => c
   | some (shared, place) => { shared, tasks := c.tasks.set task place }
 | .act event => { c with shared := P.act c.shared event }

/-- The configurations reached when no task has started yet in the first one. -/
def Reachable (init : σ → Prop) : Config σ π → Prop :=
 Run.Reach (fun c => init c.shared ∧ c.tasks = []) P.step fun _ _ => True

def run (s : σ) (inputs : List (Input π κ ε)) : Config σ π :=
 Run.final P.step { shared := s, tasks := [] } inputs

def After (c : Config σ π) : Config σ π → Prop := Run.Reach (· = c) P.step fun _ _ => True

/-- A property of the shared state and one of a task's place that every step keeps. -/
structure Keeps (I : σ → Prop) (J : σ → Nat → π → Prop) : Prop where
 next : ∀ {s t p k s' p'}, I s → J s t p → P.next s t p k = some (s', p') → I s' ∧ J s' t p'
 others : ∀ {s t p k s' p'}, I s → J s t p → P.next s t p k = some (s', p') →
  ∀ {u q}, u ≠ t → J s u q → J s' u q
 spawn : ∀ {s t p}, I s → P.entry p → J s t p
 act : ∀ {s}, I s → ∀ e, I (P.act s e) ∧ ∀ {t p}, J s t p → J (P.act s e) t p

def Holds (I : σ → Prop) (J : σ → Nat → π → Prop) (c : Config σ π) : Prop :=
 I c.shared ∧ ∀ t p, c.tasks[t]? = some p → J c.shared t p

variable {P} {I : σ → Prop} {J : σ → Nat → π → Prop}

/-- What a step does: nothing, one more task at an entry, one section, or an act. -/
theorem step_cases (c : Config σ π) (i : Input π κ ε) : P.step c i = c
 ∨ (∃ p, P.entry p ∧ P.step c i = { c with tasks := c.tasks ++ [p] })
 ∨ (∃ t p k s' p', c.tasks[t]? = some p ∧ P.next c.shared t p k = some (s', p')
  ∧ P.step c i = { shared := s', tasks := c.tasks.set t p' })
 ∨ ∃ e, P.step c i = { c with shared := P.act c.shared e } := by
 cases i with
 | spawn p =>
  by_cases hp : P.entry p
  · exact .inr (.inl ⟨p, hp, if_pos hp⟩)
  · exact .inl (if_neg hp)
 | run t k =>
  cases hp : c.tasks[t]? with
  | none => exact .inl (by simp only [step, hp])
  | some p =>
   cases hn : P.next c.shared t p k with
   | none => exact .inl (by simp only [step, hp, hn])
   | some q =>
    exact .inr (.inr (.inl ⟨t, p, k, q.1, q.2, hp, hn, by simp only [step, hp, hn]⟩))
 | act e => exact .inr (.inr (.inr ⟨e, rfl⟩))

/-- A step keeps what sections, entries and acts keep. -/
theorem Keeps.step (h : P.Keeps I J) {c : Config σ π} (hc : Holds I J c) (i : Input π κ ε) :
 Holds I J (P.step c i) := by
 obtain ⟨hi, hj⟩ := hc
 rcases P.step_cases c i with heq | ⟨p, hp, heq⟩ | ⟨t, p, k, s', p', ht, hn, heq⟩ | ⟨e, heq⟩ <;>
  rw [heq]
 · exact ⟨hi, hj⟩
 · refine ⟨hi, fun u q hu => ?_⟩
   by_cases hlt : u < c.tasks.length
   · rw [List.getElem?_append_left hlt] at hu
     exact hj u q hu
   · rw [List.getElem?_append_right (by omega)] at hu
     have hq : q = p := by
      have := List.mem_of_getElem? hu
      simpa using this
     subst hq
     exact h.spawn hi hp
 · refine ⟨(h.next hi (hj t p ht) hn).1, fun u q hu => ?_⟩
   by_cases hut : u = t
   · subst hut
     have hlt : u < c.tasks.length := (List.getElem_of_getElem? ht).1
     rw [List.getElem?_set_self hlt, Option.some.injEq] at hu
     exact hu ▸ (h.next hi (hj u p ht) hn).2
   · rw [List.getElem?_set_ne (fun he => hut he.symm)] at hu
     exact h.others hi (hj t p ht) hn hut (hj u q hu)
 · exact ⟨(h.act hi e).1, fun u q hu => (h.act hi e).2 (hj u q hu)⟩

theorem reachable_run {init : σ → Prop} {s : σ} (hs : init s) (inputs : List (Input π κ ε)) :
 P.Reachable init (P.run s inputs) :=
 Run.Reach.final_free (fun _ _ => trivial) (.init ⟨hs, rfl⟩) inputs

/-- **What every step keeps holds in every run**, for the shared state and for every
task in it. -/
theorem Keeps.reachable (h : P.Keeps I J) {init : σ → Prop} (hinit : ∀ s, init s → I s)
 {c : Config σ π} (hc : P.Reachable init c) : Holds I J c := by
 refine Run.Reach.invariant (Holds I J) (fun c hc => ⟨hinit _ hc.1, fun t p ht => ?_⟩)
  (fun c i hc _ => h.step hc i) hc
 rw [hc.2] at ht
 simp at ht

/-- **Two moments of a run** are related by what every section and every act add up
to. -/
theorem Keeps.later (h : P.Keeps I J) {R : σ → σ → Prop} (hrefl : ∀ s, R s s)
 (htrans : ∀ {a b c}, R a b → R b c → R a c)
 (hnext : ∀ {s t p k s' p'}, I s → J s t p → P.next s t p k = some (s', p') → R s s')
 (hact : ∀ {s}, I s → ∀ e, R s (P.act s e)) {c c' : Config σ π} (hc : Holds I J c)
 (hcc : P.After c c') : R c.shared c'.shared := by
 have hall : Holds I J c' ∧ R c.shared c'.shared := by
  refine Run.Reach.invariant (fun c' => Holds I J c' ∧ R c.shared c'.shared) (fun d hd => ?_)
   (fun d i hd _ => ⟨h.step hd.1 i, htrans hd.2 ?_⟩) hcc
  · subst hd
    exact ⟨hc, hrefl _⟩
  obtain ⟨⟨hi, hj⟩, -⟩ := hd
  rcases P.step_cases d i with heq | ⟨p, -, heq⟩ | ⟨t, p, k, s', p', ht, hn, heq⟩ | ⟨e, heq⟩ <;>
   rw [heq]
  · exact hrefl _
  · exact hrefl _
  · exact hnext hi (hj t p ht) hn
  · exact hact hi e
 exact hall.2

end Program

end Interleave
