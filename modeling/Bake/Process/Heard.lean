import Bake.Process.JobWorld

/-!
# What the messages of one pid tell

The messages queued for a pid stand in the order of its processes, each process's exit behind
its new-process messages. So a message that follows an exit is about a later process than the
one counted before it, and a count of such messages never passes the processes associated.
Where no message is lost, it reaches them.
-/

open List

namespace Bake.Process

open Option

/-- Where a message of its pid stands among all there can be. -/
def Note.key (note : Note) : Nat := 2 * note.rank + if note.isExit then 1 else 0

theorem Note.key_le (note : Note) : 2 * note.rank ≤ note.key ∧ note.key ≤ 2 * note.rank + 1 := by
 unfold Note.key
 split <;> omega

/-- One message is queued before another: a process has one exit message, its last. -/
def Note.Before (a b : Note) : Prop := a.key ≤ b.key ∧ (a.isExit = true → a.key < b.key)

/-- The `rank`-th process's new-process message was queued. -/
def ToldAt (ps : List Member) (rank : Nat) : Prop :=
 rank < ps.length ∨ rank = ps.length ∧ ∃ p ∈ ps.head?, p.told = true

/-- The `rank`-th process's exit message was queued. -/
def ExitAt (ps : List Member) (rank : Nat) : Prop :=
 rank < ps.length ∨ rank = ps.length ∧ ∃ p ∈ ps.head?, p.exit = .queued

/-- No message of the processes is lost so far. -/
def Lossless (ps : List Member) : Prop :=
 ∀ p ∈ ps, p.exit ≠ .lost ∧ (p.exit ≠ .pending → p.told = true)

/-- What was taken of a pid's messages reached the process `rank`: no more were counted than
there are processes up to it, and what is still queued is about it or later ones. While the
account is good and no message is lost, each process up to it was counted. -/
structure Heard (good : Prop) (ps : List Member) (mail : List Note) (recorded exited : Bool)
 (messages rank : Nat) : Prop where
 bound : messages ≤ rank
 top : rank ≤ ps.length
 fresh : recorded = false → rank = 0 ∧ exited = false
 ahead : ∀ note ∈ mail, 0 < note.rank ∧ note.rank ≤ ps.length ∧ rank ≤ note.rank
  ∧ (exited = true → rank < note.rank)
 spent : exited = true → rank = ps.length → ∀ p ∈ ps.head?, p.exit ≠ .pending
 ends : ∀ note ∈ mail, note.isExit = true → note.rank = ps.length →
  ∀ p ∈ ps.head?, p.exit ≠ .pending
 order : mail.Pairwise Note.Before
 full : good → Lossless ps → messages = rank ∧ (recorded = true → 0 < rank)
  ∧ (∀ r, rank < r → ToldAt ps r → { isExit := false, rank := r } ∈ mail)
  ∧ ∀ r, 0 < r → rank ≤ r → (exited = true → rank < r) → ExitAt ps r →
   { isExit := true, rank := r } ∈ mail

namespace Heard

variable {good : Prop} {ps : List Member} {mail : List Note} {recorded exited : Bool} {messages rank : Nat}

theorem nil : Heard good [] [] false false 0 0 where
 bound := Nat.le_refl _
 top := Nat.le_refl _
 fresh := fun _ => ⟨rfl, rfl⟩
 ahead := fun _ h => absurd h (by simp)
 spent := by simp
 ends := fun _ h => absurd h (by simp)
 order := List.Pairwise.nil
 full := fun _ _ => by
  refine ⟨rfl, by simp, fun r hr ht => ?_, fun r hr _ _ ht => ?_⟩
  all_goals
   rcases ht with h | ⟨-, p, hp, -⟩
   · simp at h
   · simp at hp

/-! ## What is queued -/

theorem associate (h : Heard good ps mail recorded exited messages rank) {p : Member}
 (hp : p.told = false ∧ p.exit = .pending) (hps : ∀ q ∈ ps.head?, q.exit ≠ .pending) :
 Heard good (p :: ps) mail recorded exited messages rank where
 bound := h.bound
 top := Nat.le_succ_of_le h.top
 fresh := h.fresh
 ahead := fun note hn => by
  obtain ⟨h0, h1, h2, h3⟩ := h.ahead note hn
  exact ⟨h0, Nat.le_succ_of_le h1, h2, h3⟩
 spent := fun _ hr => by
  have := h.top
  rw [length_cons] at hr
  omega
 ends := fun note hn _ hr => by
  have := (h.ahead note hn).2.1
  rw [length_cons] at hr
  omega
 order := h.order
 full := fun hg hl => by
  have hl' : Lossless ps := fun q hq => hl q (mem_cons_of_mem _ hq)
  obtain ⟨hm, hr0, hnew, hexit⟩ := h.full hg hl'
  -- what was told of the new process's predecessor had to be told
  have hlast : ∀ r, r = ps.length → 0 < r → (∃ q ∈ ps.head?, q.told = true)
   ∧ ∃ q ∈ ps.head?, q.exit = .queued := by
   intro r hr h0
   cases ps with
   | nil => exact absurd (hr ▸ h0) (by simp)
   | cons q rest =>
    have hq := hps q (by simp)
    obtain ⟨hlost, htold⟩ := hl' q mem_cons_self
    refine ⟨⟨q, by simp, htold hq⟩, q, by simp, ?_⟩
    cases hx : q.exit with
    | pending => exact absurd hx hq
    | queued => rfl
    | lost => exact absurd hx hlost
  refine ⟨hm, hr0, fun r hr ht => ?_, fun r h0 hr he ht => ?_⟩
  · refine hnew r hr ?_
    rcases ht with ht | ⟨-, q, hq, htold⟩
    · rw [length_cons] at ht
      rcases Nat.lt_or_eq_of_le (Nat.lt_succ_iff.mp ht) with hlt | heq
      · exact .inl hlt
      · exact .inr ⟨heq, (hlast r heq (by omega)).1⟩
    · rw [head?_cons, mem_some_iff] at hq
      subst hq
      simp [hp.1] at htold
  · refine hexit r h0 hr he ?_
    rcases ht with ht | ⟨-, q, hq, hqueued⟩
    · rw [length_cons] at ht
      rcases Nat.lt_or_eq_of_le (Nat.lt_succ_iff.mp ht) with hlt | heq
      · exact .inl hlt
      · exact .inr ⟨heq, (hlast r heq h0).2⟩
    · rw [head?_cons, mem_some_iff] at hq
      subst hq
      simp [hp.2] at hqueued

variable {p p' : Member} {rest : List Member}

section

variable (h : Heard good (p :: rest) mail recorded exited messages rank)

include h

theorem same (ht : p'.told = p.told)
 (he : p'.exit = p.exit) : Heard good (p' :: rest) mail recorded exited messages rank where
 bound := h.bound
 top := h.top
 fresh := h.fresh
 ahead := h.ahead
 spent := fun h1 h2 q hq => by
  rw [head?_cons, mem_some_iff] at hq
  subst hq
  rw [he]
  exact h.spent h1 h2 p (by simp)
 ends := fun note hn hx hr q hq => by
  rw [head?_cons, mem_some_iff] at hq
  subst hq
  rw [he]
  exact h.ends note hn hx hr p (by simp)
 order := h.order
 full := fun hg hl => by
  have hl' : Lossless (p :: rest) := fun q hq => by
   rcases mem_cons.mp hq with rfl | hq
   · rw [← ht, ← he]
     exact hl p' mem_cons_self
   · exact hl q (mem_cons_of_mem _ hq)
  obtain ⟨hm, hr0, hnew, hexit⟩ := h.full hg hl'
  refine ⟨hm, hr0, fun r hr hta => hnew r hr ?_, fun r h0 hr hx hea => hexit r h0 hr hx ?_⟩
  · simpa [ToldAt, ht] using hta
  · simpa [ExitAt, he] using hea

theorem before_last
 (hp : p.exit = .pending) : ∀ note ∈ mail, note.rank < rest.length + 1 ∨ note.isExit = false := by
 intro note hn
 by_cases hx : note.isExit = true
 · left
   rcases Nat.lt_or_eq_of_le (h.ahead note hn).2.1 with hlt | heq
   · exact hlt
   · exact absurd hp (h.ends note hn hx heq p (by simp))
 · exact .inr (by simpa using hx)

/-- A note about the last process is behind all others. -/
theorem sent
 (hp : p.exit = .pending) (isExit : Bool) :
 (∀ note ∈ mail ++ [⟨isExit, rest.length + 1⟩], 0 < note.rank ∧ note.rank ≤ rest.length + 1
  ∧ rank ≤ note.rank ∧ (exited = true → rank < note.rank))
 ∧ (mail ++ [Note.mk isExit (rest.length + 1)]).Pairwise Note.Before := by
 constructor
 · intro note hn
   rcases mem_append.mp hn with hn | hn
   · exact h.ahead note hn
   · rw [mem_singleton] at hn
     subst hn
     refine ⟨Nat.succ_pos _, Nat.le_refl _, h.top, fun hx => ?_⟩
     rcases Nat.lt_or_eq_of_le h.top with hlt | heq
     · exact hlt
     · exact absurd hp (h.spent hx heq p (by simp))
 · rw [pairwise_append]
   refine ⟨h.order, pairwise_singleton _ _, fun a ha b hb => ?_⟩
   rw [mem_singleton] at hb
   subst hb
   have hle := (h.ahead a ha).2.1
   rw [length_cons] at hle
   rcases h.before_last hp a ha with hlt | hx
   · refine ⟨?_, fun _ => ?_⟩ <;> simp only [Note.key] <;> split <;> split <;> simp <;> omega
   · refine ⟨?_, by simp [hx]⟩
     simp only [Note.key, hx]
     cases isExit <;> simp <;> omega

end

theorem lossless_pending (hp : p.exit = .pending) (hl : Lossless (p' :: rest)) :
 Lossless (p :: rest) := fun q hq => by
 rcases mem_cons.mp hq with rfl | hq
 · exact ⟨by simp [hp], fun hne => absurd hp hne⟩
 · exact hl q (mem_cons_of_mem _ hq)

section

variable (h : Heard good (p :: rest) mail recorded exited messages rank)

include h

theorem announce
 (hp : p.exit = .pending) (he : p'.exit = .pending) :
 Heard good (p' :: rest) (mail ++ [{ isExit := false, rank := rest.length + 1 }]) recorded exited
  messages rank where
 bound := h.bound
 top := h.top
 fresh := h.fresh
 ahead := (h.sent hp _).1
 spent := fun h1 h2 => absurd hp (h.spent h1 h2 p (by simp))
 ends := fun note hn hx hr => by
  rcases mem_append.mp hn with hn | hn
  · exact absurd hp (h.ends note hn hx hr p (by simp))
  · rw [mem_singleton] at hn
    subst hn
    simp at hx
 order := (h.sent hp _).2
 full := fun hg hl => by
  obtain ⟨hm, hr0, hnew, hexit⟩ := h.full hg (lossless_pending hp hl)
  refine ⟨hm, hr0, fun r hr hta => ?_, fun r h0 hr hx hea => ?_⟩
  · rcases hta with hlt | ⟨heq, -⟩
    · exact mem_append_left _ (hnew r hr (.inl hlt))
    · rw [heq]
      exact mem_append_right _ (by simp)
  · rcases hea with hlt | ⟨-, q, hq, hqueued⟩
    · exact mem_append_left _ (hexit r h0 hr hx (.inl hlt))
    · rw [head?_cons, mem_some_iff] at hq
      subst hq
      simp [he] at hqueued

theorem exit
 (hp : p.exit = .pending) (ht : p'.told = p.told) (he : p'.exit = .queued) :
 Heard good (p' :: rest) (mail ++ [{ isExit := true, rank := rest.length + 1 }]) recorded exited
  messages rank where
 bound := h.bound
 top := h.top
 fresh := h.fresh
 ahead := (h.sent hp _).1
 spent := fun _ _ q hq => by
  rw [head?_cons, mem_some_iff] at hq
  subst hq
  simp [he]
 ends := fun _ _ _ _ q hq => by
  rw [head?_cons, mem_some_iff] at hq
  subst hq
  simp [he]
 order := (h.sent hp _).2
 full := fun hg hl => by
  obtain ⟨hm, hr0, hnew, hexit⟩ := h.full hg (lossless_pending hp hl)
  refine ⟨hm, hr0, fun r hr hta => ?_, fun r h0 hr hx hea => ?_⟩
  · exact mem_append_left _ (hnew r hr (by simpa [ToldAt, ht] using hta))
  · rcases hea with hlt | ⟨heq, -⟩
    · exact mem_append_left _ (hexit r h0 hr hx (.inl hlt))
    · rw [heq]
      exact mem_append_right _ (by simp)

theorem lose (he : p'.exit = .lost) :
 Heard good (p' :: rest) mail recorded exited messages rank where
 bound := h.bound
 top := h.top
 fresh := h.fresh
 ahead := h.ahead
 spent := fun _ _ q hq => by
  rw [head?_cons, mem_some_iff] at hq
  subst hq
  simp [he]
 ends := fun _ _ _ _ q hq => by
  rw [head?_cons, mem_some_iff] at hq
  subst hq
  simp [he]
 order := h.order
 full := fun hg hl => absurd he (hl p' mem_cons_self).1

end

/-! ## What is taken -/

theorem place_le {note : Note} (h : Heard good ps (note :: mail) recorded exited messages rank)
 {other : Note} (hmem : other ∈ note :: mail) : note.key ≤ other.key := by
 rcases mem_cons.mp hmem with rfl | hmem
 · exact Nat.le_refl _
 · exact ((pairwise_cons.mp h.order).1 other hmem).1

/-- **A new-process message** is counted when it is the pid's first or follows an exit, and
is then about a process not counted before. -/
theorem takeNew {r : Nat}
 (h : Heard good ps ({ isExit := false, rank := r } :: mail) recorded exited messages rank) :
 ∃ rank', Heard good ps mail true false (messages + if !recorded || exited then 1 else 0) rank' := by
 obtain ⟨hr0, hrn, hrr, hrx⟩ := h.ahead _ mem_cons_self
 dsimp only at hr0 hrn hrr hrx
 have hrest : ∀ note ∈ mail, note ∈ ({ isExit := false, rank := r } : Note) :: mail :=
  fun note hn => mem_cons_of_mem _ hn
 have hkey : ∀ note ∈ mail, r ≤ note.rank := fun note hn => by
  have hle := h.place_le (hrest note hn)
  have := note.key_le
  simp [Note.key] at hle this
  omega
 by_cases hc : (!recorded || exited) = true
 · -- the count goes up to the message's process
   have hlt : rank < r := by
    rcases Bool.or_eq_true _ _ ▸ hc with hrec | hex
    · have := (h.fresh (by simpa using hrec)).1
      omega
    · exact hrx hex
   have hbound := h.bound
   refine ⟨r, ?_⟩
   rw [if_pos hc]
   exact
    { bound := by omega
      top := hrn
      fresh := by simp
      ahead := fun note hn => by
       obtain ⟨h0, h1, -, -⟩ := h.ahead note (hrest note hn)
       exact ⟨h0, h1, hkey note hn, by simp⟩
      spent := by simp
      ends := fun note hn => h.ends note (hrest note hn)
      order := (pairwise_cons.mp h.order).2
      full := fun hg hl => by
       obtain ⟨hm, -, hnew, hexit⟩ := h.full hg hl
       have hr : r = rank + 1 := by
        by_contra hne
        have hin := hnew (rank + 1) (by omega) (.inl (by omega))
        have hle := h.place_le hin
        simp [Note.key] at hle
        omega
       refine ⟨by omega, fun _ => hr0, fun r' hr' hta => ?_, fun r' h0 hr' _ hea => ?_⟩
       · rcases mem_cons.mp (hnew r' (by omega) hta) with heq | hmem
         · exact absurd (congrArg Note.rank heq) (by simp; omega)
         · exact hmem
       · rcases mem_cons.mp (hexit r' h0 (by omega) (fun _ => by omega) hea) with heq | hmem
         · exact absurd (congrArg Note.isExit heq) (by simp)
         · exact hmem }
 -- another message of a process told before, or of one whose predecessor's exit is lost
 have hrec : recorded = true ∧ exited = false := by
  revert hc
  cases recorded <;> cases exited <;> simp
 refine ⟨rank, ?_⟩
 rw [if_neg hc]
 exact
  { bound := h.bound
    top := h.top
    fresh := by simp
    ahead := fun note hn => by
     obtain ⟨h0, h1, h2, -⟩ := h.ahead note (hrest note hn)
     exact ⟨h0, h1, h2, by simp⟩
    spent := by simp
    ends := fun note hn => h.ends note (hrest note hn)
    order := (pairwise_cons.mp h.order).2
    full := fun hg hl => by
     obtain ⟨hm, hpos, hnew, hexit⟩ := h.full hg hl
     have hrank := hpos hrec.1
     have hr : r = rank := by
      by_contra hne
      have hin := hexit rank hrank (Nat.le_refl _) (by simp [hrec.2]) (.inl (by omega))
      have hle := h.place_le hin
      simp [Note.key] at hle
      omega
     refine ⟨hm, fun _ => hrank, fun r' hr' hta => ?_, fun r' h0 hr' _ hea => ?_⟩
     · rcases mem_cons.mp (hnew r' hr' hta) with heq | hmem
       · exact absurd (congrArg Note.rank heq) (by simp; omega)
       · exact hmem
     · rcases mem_cons.mp
        (hexit r' h0 hr' (by simp [hrec.2]) hea) with heq | hmem
       · exact absurd (congrArg Note.isExit heq) (by simp)
       · exact hmem }

/-- **An exit message** of a recorded pid reaches its process. -/
theorem takeExit {r : Nat}
 (h : Heard good ps ({ isExit := true, rank := r } :: mail) true exited messages rank) :
 Heard good ps mail true true messages r := by
 obtain ⟨hr0, hrn, hrr, hrx⟩ := h.ahead _ mem_cons_self
 dsimp only at hr0 hrn hrr hrx
 have hrest : ∀ note ∈ mail, note ∈ ({ isExit := true, rank := r } : Note) :: mail :=
  fun note hn => mem_cons_of_mem _ hn
 have hkey : ∀ note ∈ mail, r < note.rank := fun note hn => by
  have hlt := ((pairwise_cons.mp h.order).1 note hn).2 rfl
  have := note.key_le
  simp [Note.key] at hlt this
  omega
 have hbound := h.bound
 exact
  { bound := by omega
    top := hrn
    fresh := by simp
    ahead := fun note hn => by
     obtain ⟨h0, h1, -, -⟩ := h.ahead note (hrest note hn)
     exact ⟨h0, h1, Nat.le_of_lt (hkey note hn), fun _ => hkey note hn⟩
    spent := fun _ hr => h.ends _ mem_cons_self rfl hr
    ends := fun note hn => h.ends note (hrest note hn)
    order := (pairwise_cons.mp h.order).2
    full := fun hg hl => by
     obtain ⟨hm, -, hnew, hexit⟩ := h.full hg hl
     have hr : r = rank := by
      by_contra hne
      have htold : ToldAt ps (rank + 1) := by
       rcases Nat.lt_or_eq_of_le (show rank + 1 ≤ ps.length by omega) with hlt | heq
       · exact .inl hlt
       · refine .inr ⟨heq, ?_⟩
         cases ps with
         | nil => simp at heq
         | cons p rest =>
          have hexited := h.ends _ mem_cons_self rfl (by
           show r = (p :: rest).length
           omega) p (by simp)
          exact ⟨p, by simp, (hl p mem_cons_self).2 hexited⟩
      have hle := h.place_le (hnew (rank + 1) (by omega) htold)
      simp [Note.key] at hle
      omega
     refine ⟨by omega, fun _ => hr0, fun r' hr' hta => ?_, fun r' h0 hr' hx hea => ?_⟩
     · rcases mem_cons.mp (hnew r' (by omega) hta) with heq | hmem
       · exact absurd (congrArg Note.isExit heq) (by simp)
       · exact hmem
     · have hlt := hx rfl
       rcases mem_cons.mp (hexit r' h0 (by omega) (fun _ => by omega) hea) with heq | hmem
       · exact absurd (congrArg Note.rank heq) (by simp; omega)
       · exact hmem }

/-- An exit message of a pid not recorded is dropped: with no message lost there is none. -/
theorem dropExit {r : Nat}
 (h : Heard good ps ({ isExit := true, rank := r } :: mail) false exited messages rank) :
 Heard good ps mail false exited messages rank := by
 obtain ⟨hr0, hrn, -, -⟩ := h.ahead _ mem_cons_self
 dsimp only at hr0 hrn
 obtain ⟨hrank, hexited⟩ := h.fresh rfl
 exact
  { bound := h.bound
    top := h.top
    fresh := h.fresh
    ahead := fun note hn => h.ahead note (mem_cons_of_mem _ hn)
    spent := h.spent
    ends := fun note hn => h.ends note (mem_cons_of_mem _ hn)
    order := (pairwise_cons.mp h.order).2
    full := fun hg hl => by
     obtain ⟨-, -, hnew, -⟩ := h.full hg hl
     exfalso
     have htold : ToldAt ps 1 := by
      rcases Nat.lt_or_eq_of_le (show 1 ≤ ps.length by omega) with hlt | heq
      · exact .inl hlt
      · refine .inr ⟨heq, ?_⟩
        cases ps with
        | nil => simp at heq
        | cons p rest =>
         have hended := h.ends _ mem_cons_self rfl (by
          show r = (p :: rest).length
          omega) p (by simp)
         exact ⟨p, by simp, (hl p mem_cons_self).2 hended⟩
     have hle := h.place_le (hnew 1 (by omega) htold)
     simp [Note.key] at hle
     omega }

theorem drop {note : Note} (h : Heard good ps (note :: mail) recorded exited messages rank) :
 Heard False ps mail recorded exited messages rank where
 bound := h.bound
 top := h.top
 fresh := h.fresh
 ahead := fun note hn => h.ahead note (mem_cons_of_mem _ hn)
 spent := h.spent
 ends := fun note hn => h.ends note (mem_cons_of_mem _ hn)
 order := (pairwise_cons.mp h.order).2
 full := fun hg => hg.elim

theorem weaken {good' : Prop} (h : Heard good ps mail recorded exited messages rank)
 (hg : good' → good) : Heard good' ps mail recorded exited messages rank where
 bound := h.bound
 top := h.top
 fresh := h.fresh
 ahead := h.ahead
 spent := h.spent
 ends := h.ends
 order := h.order
 full := fun hg' => h.full (hg hg')

theorem all (h : Heard good ps [] recorded exited messages rank) (hg : good)
 (hl : ∀ p ∈ ps, p.told = true ∧ p.exit ≠ .lost) : messages = ps.length := by
 obtain ⟨hm, -, hnew, -⟩ := h.full hg fun p hp => ⟨(hl p hp).2, fun _ => (hl p hp).1⟩
 have htop := h.top
 by_contra hne
 have htold : ToldAt ps ps.length := by
  cases ps with
  | nil => exact absurd (show messages = 0 by simp at htop; omega) hne
  | cons p rest => exact .inr ⟨rfl, p, by simp, (hl p mem_cons_self).1⟩
 exact absurd (hnew ps.length (by omega) htold) (by simp)

end Heard

end Bake.Process
