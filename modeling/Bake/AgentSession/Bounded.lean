import Mathlib.Data.List.Flatten
import Bake.AgentSession.Recovery

/-!
# Failure recovery is bounded

In a row of failed responses the one recovery is used at most once, because only another kind
of response gives it back, and the retries between are counted: a failed response that is not
retried resets their count, but then only the recovery continues the loop. So a row is at
most the retries, the recovery, the retries again and a last request, and each of them but
the last was left out of the context before the next one.
-/

open List Nat

namespace Bake.AgentSession

open Bake.Ai Bake.Json Bake.Session Continuation

/-! ## Rows of failures -/

/-- Whether a response failed, or was cut off with nothing to run. -/
def Response.failing (r : Response) : Bool :=
 r.stopReason = .error || (r.stopReason = .length && r.callIds = [])

def Response.ends (r : Response) : Bool :=
 r.stopReason = .error || r.stopReason = .aborted || r.callIds = []

def Continuation.isRetry : Continuation → Bool
 | .retry _ => true
 | _ => false

def Continuation.isRecovery : Continuation → Bool
 | .recovery _ => true
 | _ => false

/-- The failed response is out of the context: its entry shows nothing, and the transcript is
what the session shows; one without an entry was not in the transcript. -/
def Omission.LeavesOut (o : Omission) : Prop :=
 match o.entryId with
 | some id => o.after.transcript = o.after.world.manager.buildSessionProjection.messages
  ∧ ∀ entry ∈ o.after.world.manager.buildSessionProjection.entries,
   entry.sourceEntry.id = id → entry.messages = []
 | none => ∃ env, o.before.omitRecoveryAttempt env false false o.response.callIds none
  = (none, o.after)

def OmitsBefore (response : Response) (next : Continuation) : Prop :=
 ∃ o : Omission, (next = .retry o ∨ next = .recovery o) ∧ o.response = response ∧ o.LeavesOut

/-- The retries since the last recovery, in the row of failures the rounds begin with. -/
def retriesSince : List Round → Nat
 | [] => 0
 | round :: rest =>
  if round.response.failing = false then 0
  else if round.next.isRecovery then 0
  else retriesSince rest + if round.next.isRetry then 1 else 0

/-- Whether the row of failures the rounds begin with has a recovery. -/
def recovered : List Round → Bool
 | [] => false
 | round :: rest => round.response.failing && (round.next.isRecovery || recovered rest)

/-- Every failed response was left out before it was tried again; its retries are counted,
and it is the first recovery of its row. -/
def SoundRounds (m : Nat) : List Round → Prop
 | [] => True
 | round :: rest => SoundRounds m rest ∧ (round.response.failing = true →
  OmitsBefore round.response round.next
  ∧ (round.next.isRetry = true → retriesSince rest < m)
  ∧ (round.next.isRecovery = true → recovered rest = false))

namespace SoundRounds

variable {m : Nat}

theorem suffix {later rest : List Round} (h : SoundRounds m (later ++ rest)) : SoundRounds m rest := by
 induction later with
 | nil => exact h
 | cons _ _ ih => exact ih h.1

theorem retriesSince_le {rounds : List Round} (h : SoundRounds m rounds) : retriesSince rounds ≤ m := by
 induction rounds with
 | nil => exact zero_le _
 | cons round rest ih =>
  unfold retriesSince
  split
  · exact zero_le _
  next hf =>
   split
   · exact zero_le _
   · by_cases hr : round.next.isRetry = true
     · rw [if_pos hr]
       exact (h.2 (by simpa using hf)).2.1 hr
     · rw [if_neg hr]
       exact ih h.1

theorem countP_le {block earlier : List Round} (hf : ∀ round ∈ block, round.response.failing = true)
 (hn : ∀ round ∈ block, round.next.isRecovery = false) :
 block.countP (fun round => round.next.isRetry) ≤ retriesSince (block ++ earlier) := by
 induction block with
 | nil => exact Nat.zero_le _
 | cons round block ih =>
  have hrest := ih (fun r hr => hf r (mem_cons_of_mem _ hr)) fun r hr => hn r (mem_cons_of_mem _ hr)
  have hfailing : ¬ round.response.failing = false := by simp [hf round (mem_cons_self ..)]
  have hrecovery : ¬ round.next.isRecovery = true := by simp [hn round (mem_cons_self ..)]
  rw [countP_cons, cons_append, retriesSince, if_neg hfailing, if_neg hrecovery]
  exact Nat.add_le_add_right hrest _

theorem recovered_of_mem {block earlier : List Round}
 (hf : ∀ round ∈ block, round.response.failing = true) {round : Round} (hr : round ∈ block)
 (hn : round.next.isRecovery = true) : recovered (block ++ earlier) = true := by
 induction block with
 | nil => simp at hr
 | cons first block ih =>
  rw [cons_append, recovered, hf first (mem_cons_self ..), Bool.true_and]
  rcases mem_cons.mp hr with rfl | hr
  · rw [hn, Bool.true_or]
  · rw [ih (fun r hr => hf r (mem_cons_of_mem _ hr)) hr, Bool.or_true]

theorem recovery_first {a b earlier : List Round} {round : Round}
 (h : SoundRounds m (a ++ round :: b ++ earlier))
 (hf : ∀ other ∈ a ++ round :: b, other.response.failing = true)
 (hn : round.next.isRecovery = true) :
 (∀ other ∈ a, other.next.isRecovery = false) ∧ ∀ other ∈ b, other.next.isRecovery = false := by
 have hround := hf round (by simp)
 have hb : ∀ other ∈ b, other.response.failing = true := fun other ho => hf other (by simp [ho])
 rw [append_assoc, cons_append] at h
 have hrecovered := (h.suffix.2 hround).2.2 hn
 refine ⟨fun other ho => ?_, fun other ho => ?_⟩
 · obtain ⟨newer, older, rfl⟩ := append_of_mem ho
   rw [append_assoc, cons_append] at h
   cases hother : other.next.isRecovery with
   | false => rfl
   | true =>
    have hnone := (h.suffix.2 (hf other (by simp))).2.2 hother
    have holder : ∀ r ∈ older ++ [round], r.response.failing = true := by
     intro r hr
     refine hf r ?_
     rcases mem_append.mp hr with hr | hr
     · simp [hr]
     · simp [mem_singleton.mp hr]
    have hsome := @recovered_of_mem (older ++ [round]) (b ++ earlier) holder round (by simp) hn
    rw [append_assoc, singleton_append] at hsome
    exact absurd (hnone.symm.trans hsome) (by simp)
 · cases hother : other.next.isRecovery with
   | false => rfl
   | true => exact absurd (hrecovered.symm.trans (recovered_of_mem hb ho hother)) (by simp)

end SoundRounds

/-- Whether there is at most one recovery, with at most `m` retries before and after it. -/
def AtMostOneRecovery (m : Nat) (continuations : List Continuation) : Prop :=
 ((∀ next ∈ continuations, next.isRecovery = false) ∧ continuations.countP isRetry ≤ m)
 ∨ ∃ a recovery b, continuations = a ++ recovery :: b ∧ recovery.isRecovery = true
  ∧ (∀ next ∈ a ++ b, next.isRecovery = false)
  ∧ a.countP isRetry ≤ m ∧ b.countP isRetry ≤ m

variable {m : Nat} {earlier later row : List (Response × Option Continuation)}

theorem SoundRounds.atMostOneRecovery {block earlier : List Round}
 (h : SoundRounds m (block ++ earlier)) (hf : ∀ round ∈ block, round.response.failing = true) :
 AtMostOneRecovery m (block.map Round.next) := by
 have hcount : ∀ {block earlier : List Round}, SoundRounds m (block ++ earlier) →
  (∀ round ∈ block, round.response.failing = true) →
  (∀ round ∈ block, round.next.isRecovery = false) →
  (block.map Round.next).countP isRetry ≤ m := by
  intro block earlier h hf hn
  rw [countP_map]
  exact le_trans (countP_le hf hn) h.retriesSince_le
 by_cases hn : ∀ round ∈ block, round.next.isRecovery = false
 · refine .inl ⟨fun next hnext => ?_, hcount h hf hn⟩
   obtain ⟨round, hround, rfl⟩ := mem_map.mp hnext
   exact hn round hround
 push Not at hn
 obtain ⟨round, hround, hrecovery⟩ := hn
 have hrecovery : round.next.isRecovery = true := by simpa using hrecovery
 obtain ⟨a, b, rfl⟩ := append_of_mem hround
 obtain ⟨ha, hb⟩ := h.recovery_first hf hrecovery
 refine .inr ⟨a.map Round.next, round.next, b.map Round.next, by simp, hrecovery, ?_, ?_, ?_⟩
 · intro next hnext
   rw [← map_append] at hnext
   obtain ⟨other, hother, rfl⟩ := mem_map.mp hnext
   rcases mem_append.mp hother with ho | ho
   · exact ha other ho
   · exact hb other ho
 · rw [append_assoc] at h
   exact hcount h (fun other ho => hf other (by simp [ho])) ha
 · rw [append_assoc, cons_append] at h
   exact hcount h.suffix.1 (fun other ho => hf other (by simp [ho])) hb

theorem AtMostOneRecovery.length_le {continuations : List Continuation}
 (h : AtMostOneRecovery m continuations)
 (hk : ∀ next ∈ continuations, next.isRetry = true ∨ next.isRecovery = true) :
 continuations.length ≤ 2 * m + 1 := by
 have hretries : ∀ nexts : List Continuation, (∀ next ∈ nexts, next ∈ continuations) →
  (∀ next ∈ nexts, next.isRecovery = false) →
  nexts.length = nexts.countP isRetry := by
  intro nexts hmem hn
  refine (countP_eq_length.mpr fun next hnext => ?_).symm
  exact (hk next (hmem next hnext)).resolve_right (by simp [hn next hnext])
 rcases h with ⟨hn, hle⟩ | ⟨a, recovery, b, rfl, -, hn, ha, hb⟩
 · rw [hretries continuations (fun _ h => h) hn]
   omega
 · have hla := hretries a (fun _ h => by simp [h]) fun next h => hn next (by simp [h])
   have hlb := hretries b (fun _ h => by simp [h]) fun next h => hn next (by simp [h])
   rw [length_append, length_cons]
   omega

/-! ## The history of a loop -/

def Round.shown (round : Round) : Response × Option Continuation := (round.response, some round.next)

/-- The responses of a loop, the latest first, with what made the next request follow. -/
def Loop.history (s : Loop) : List (Response × Option Continuation) :=
 s.current.toList.map (fun response => (response, none)) ++ s.rounds.map Round.shown

structure BoundedRow (m : Nat) (row : List (Response × Option Continuation)) : Prop where
 requests : row.length ≤ 2 * m + 2
 continuations : AtMostOneRecovery m (row.filterMap Prod.snd)
 /-- Each is left out of the context before the next request. -/
 omitted : ∀ response next, (response, some next) ∈ row → OmitsBefore response next

variable {s : Loop}

/-- A part of the history is a part of the rounds, behind the latest response at most. -/
theorem Loop.history_part (h : s.history = later ++ row ++ earlier) :
 ∃ (first : List Response) (newer block older : List Round), first.length ≤ 1
  ∧ s.rounds = newer ++ block ++ older
  ∧ row = first.map (fun response => (response, none)) ++ block.map Round.shown := by
 have hrounds : ∀ {later row earlier : List (Response × Option Continuation)},
  s.rounds.map Round.shown = later ++ row ++ earlier →
  ∃ newer block older, s.rounds = newer ++ block ++ older ∧ row = block.map Round.shown := by
  intro later row earlier h
  obtain ⟨front, older, hs, hfront, -⟩ := map_eq_append_iff.mp h
  obtain ⟨newer, block, rfl, -, hrow⟩ := map_eq_append_iff.mp hfront
  exact ⟨newer, block, older, hs, hrow.symm⟩
 unfold Loop.history at h
 cases hc : s.current with
 | none =>
  rw [hc] at h
  obtain ⟨newer, block, older, hs, rfl⟩ := hrounds h
  exact ⟨[], newer, block, older, zero_le 1, hs, rfl⟩
 | some response =>
  rw [hc] at h
  cases later with
  | cons first later =>
   obtain ⟨newer, block, older, hs, rfl⟩ := hrounds (List.cons.inj h).2
   exact ⟨[], newer, block, older, zero_le 1, hs, rfl⟩
  | nil =>
   cases row with
   | nil => exact ⟨[], [], [], s.rounds, zero_le 1, rfl, rfl⟩
   | cons first row =>
    obtain ⟨hfirst, hrest⟩ := List.cons.inj h
    obtain ⟨newer, block, older, hs, rfl⟩ := @hrounds [] row earlier hrest
    exact ⟨[response], newer, block, older, le_refl 1, hs, by rw [← hfirst]; rfl⟩

theorem SoundRounds.boundedRow (hs : SoundRounds m s.rounds)
 (h : s.history = later ++ row ++ earlier) (hf : ∀ x ∈ row, x.1.failing = true) :
 BoundedRow m row := by
 obtain ⟨first, newer, block, older, hfirst, hrounds, rfl⟩ := Loop.history_part h
 have hfailing : ∀ round ∈ block, round.response.failing = true := fun round hround =>
  hf round.shown (mem_append_right _ (mem_map_of_mem hround))
 rw [hrounds, append_assoc] at hs
 have hblock : SoundRounds m (block ++ older) := hs.suffix
 have homits : ∀ round ∈ block, OmitsBefore round.response round.next := by
  intro round hround
  obtain ⟨a, b, rfl⟩ := append_of_mem hround
  rw [append_assoc, cons_append] at hblock
  exact (hblock.suffix.2 (hfailing round hround)).1
 have hnexts : (first.map (fun response => (response, (none : Option Continuation)))
  ++ block.map Round.shown).filterMap Prod.snd = block.map Round.next := by
  rw [filterMap_append, filterMap_map, filterMap_map,
   show (Prod.snd ∘ Round.shown) = fun round => some round.next from rfl, filterMap_eq_map']
  simp
 have hone := hblock.atMostOneRecovery hfailing
 refine ⟨?_, by rw [hnexts]; exact hone, fun response next hmem => ?_⟩
 · have hkinds : ∀ next ∈ block.map Round.next, next.isRetry = true ∨ next.isRecovery = true := by
    intro next hnext
    obtain ⟨round, hround, rfl⟩ := mem_map.mp hnext
    obtain ⟨o, ho, -⟩ := homits round hround
    rcases ho with ho | ho <;> simp [ho, isRetry, isRecovery]
   have hlength := hone.length_le hkinds
   rw [length_map] at hlength
   rw [length_append, length_map, length_map]
   omega
 · rcases mem_append.mp hmem with hmem | hmem
   · obtain ⟨_, -, heq⟩ := mem_map.mp hmem
     exact absurd (Prod.mk.inj heq).2 (by simp)
   · obtain ⟨round, hround, heq⟩ := mem_map.mp hmem
     obtain ⟨rfl, hnext⟩ := Prod.mk.inj heq
     cases hnext; exact homits round hround

/-! ## What an iteration meets -/

/-- What an iteration may meet: at most `m` retries are set, nothing else continues the loop,
and the session is one whose draws are new. -/
structure Allowed (m : Nat) (a : Meets) : Prop where
 retries : a.retry.maxRetries ≤ m
 queued : a.queued = false
 notices : a.notices = false
 stopHook : a.stopHook ≠ .ok true
 session : Reached a.recorded.world
 draws : a.recorded.world.manager.FreshDraws a.env 0
  (a.recorded.world.manager.buildSessionProjection.messages.length + 1)

theorem length_omissionTargets (projection : SessionProjection) (entryId : Option String)
 (calls : List String) :
 (omissionTargets projection entryId calls).length
  ≤ (projection.entries.flatMap ProjectedSessionEntry.messages).length + 1 := by
 unfold omissionTargets
 cases entryId with
 | none => simp
 | some id =>
  rw [length_append, Option.elim_some, ← shown_messages, length_map]
  refine Nat.add_le_add_right ?_ 1
  unfold attemptToolResults
  dsimp only
  rw [length_map]
  refine Nat.le_trans (length_filter_le ..) (Nat.le_trans (takeWhile_sublist _).length_le ?_)
  have hsub := ((drop_sublist 1 _).trans (dropWhile_sublist
   (fun entry : ProjectedSessionEntry => decide (entry.sourceEntry.id ≠ id)))
   : List.Sublist _ projection.entries)
  exact (hsub.flatMap _).length_le

variable {response : Response}

theorem omitAttempt_leavesOut {a : Meets} (ha : Allowed m a)
 {entryId : Option String} {o : Omission} (h : Loop.omitAttempt a response entryId = .ok o) :
 o.response = response ∧ o.LeavesOut := by
 unfold Loop.omitAttempt at h
 have hdraws : a.recorded.world.manager.FreshDraws a.env 0 (omissionTargets
  a.recorded.world.manager.buildSessionProjection entryId response.callIds).length :=
  freshDraws_le ha.draws (length_omissionTargets ..)
 have hleaves := omitRecoveryAttempt_leaves a.recorded a.env a.shutDown a.inTranscript
  response.callIds entryId hdraws
 split at h
 · simp at h
 next after hok =>
  cases h
  refine ⟨rfl, ?_⟩
  unfold Omission.LeavesOut
  cases entryId with
  | none =>
   refine ⟨a.env, ?_⟩
   cases ht : a.inTranscript with
   | true => simp [Recorded.omitRecoveryAttempt, ht] at hok
   | false =>
    cases hs : a.shutDown with
    | true => simp [Recorded.omitRecoveryAttempt, ht, hs] at hok
    | false =>
     rw [ht, hs] at hok
     exact hok
  | some id =>
   rw [hok] at hleaves
   obtain ⟨pairs, hbuilt, hsame, htranscript, -⟩ := hleaves
   refine ⟨htranscript, ?_⟩
   have hprojection := projection_editsReached ha.session.indexed hbuilt hdraws pairs.length
   have hafter : after.world.manager.buildSessionProjection
    = (editsReached a.recorded.world.manager pairs pairs.length).buildSessionProjection := by
    obtain ⟨writer, flushed, hm⟩ := hsame
    rw [hm]
    rfl
   have hlength : pairs.length = (omissionTargets a.recorded.world.manager.buildSessionProjection
    (some id) response.callIds).length := by
    rw [hbuilt.length, omissionGroup, length_map]
   intro entry hentry hid
   dsimp only at hentry
   rw [hafter, hprojection, hlength, take_length] at hentry
   rcases mem_append.mp hentry with hentry | hentry
   · obtain ⟨other, -, rfl⟩ := mem_map.mp hentry
     rw [ProjectedSessionEntry.without_sourceEntry] at hid
     rw [ProjectedSessionEntry.without, if_pos]
     rw [hid]
     exact mem_append_right _ (mem_singleton.mpr rfl)
   · obtain ⟨other, -, rfl⟩ := mem_map.mp hentry
     rfl

/-! ## One iteration -/

structure SameRounds (s s' : Loop) : Prop where
 rounds : s'.rounds = s.rounds
 current : s'.current = s.current
 ended : s'.ended = s.ended

theorem SameRounds.refl (s : Loop) : SameRounds s s := ⟨rfl, rfl, rfl⟩

theorem SameRounds.trans {s' s'' : Loop} (h : SameRounds s s') (h' : SameRounds s' s'') :
 SameRounds s s'' :=
 ⟨h'.rounds.trans h.rounds, h'.current.trans h.current, h'.ended.trans h.ended⟩

/-- The loop goes on by the recovery of `response`, not used before. -/
def ByRecovery (s s' : Loop) (response : Response) (next : Continuation) : Prop :=
 (∃ o, next = .recovery o ∧ o.response = response ∧ o.LeavesOut)
 ∧ s.overflowRecoveryAttempted = false ∧ s'.overflowRecoveryAttempted = true

/-- The loop goes on by a retry of `response`, an error, counted. -/
def ByRetry (m : Nat) (s s' : Loop) (response : Response) (next : Continuation) : Prop :=
 (∃ o, next = .retry o ∧ o.response = response ∧ o.LeavesOut)
 ∧ response.stopReason = .error ∧ s.retryAttempt < m ∧ s'.retryAttempt = s.retryAttempt + 1
 ∧ s'.overflowRecoveryAttempted = s.overflowRecoveryAttempted

theorem decideCompaction_willRetry {p : Classify} {input : CheckInput} {reason : CompactionReason}
 (h : input.decideCompaction p = .run reason true) : input.overflowRecoveryAttempted = false := by
 unfold CheckInput.decideCompaction at h
 split at h
 · simp at h
 split at h
 · simp at h
 split at h
 · simp at h
 · split at h
   · split at h
     · simp at h
     · split at h
       · simp at h
       next hflag =>
        simpa using hflag
   · unfold CheckInput.thresholdDecision at h
     dsimp only at h
     repeat' split at h
     all_goals simp at h

theorem error_of_retryable {p : Classify} {model : Option Model}
 (h : p.isRetryableError response model = true) : response.stopReason = .error := by
 unfold Classify.isRetryableError at h
 rw [Bool.and_eq_true] at h
 have h := h.2
 unfold Classify.isRetryableAssistantError at h
 split at h
 · simp only [Bool.and_eq_true, decide_eq_true_eq] at h
   exact h.1.1
 · simp at h

section Iteration

variable {m : Nat} {a : Meets} (ha : Allowed m a) (p : Classify)
include ha

theorem prepareRetry_spec (s : Loop) (response : Response) (entryId : Option String) :
 SameRounds s (s.prepareRetry a response entryId).2
 ∧ (s.prepareRetry a response entryId).2.lastAssistant = s.lastAssistant
 ∧ (s.prepareRetry a response entryId).2.overflowRecoveryAttempted = s.overflowRecoveryAttempted
 ∧ ∀ o, (s.prepareRetry a response entryId).1 = .ok (some o) → o.response = response ∧ o.LeavesOut
  ∧ s.retryAttempt < m
  ∧ (s.prepareRetry a response entryId).2.retryAttempt = s.retryAttempt + 1 := by
 unfold Loop.prepareRetry
 split
 · exact ⟨.refl s, rfl, rfl, fun o h => absurd h (by simp)⟩
 split
 · exact ⟨.refl s, rfl, rfl, fun o h => absurd h (by simp)⟩
 next hmax =>
  dsimp only
  split
  · exact ⟨⟨rfl, rfl, rfl⟩, rfl, rfl, fun o h => absurd h (by simp)⟩
  · split
    · exact ⟨⟨rfl, rfl, rfl⟩, rfl, rfl, fun o h => absurd h (by simp)⟩
    next omission homit =>
     split
     · exact ⟨⟨rfl, rfl, rfl⟩, rfl, rfl, fun o h => absurd h (by simp)⟩
     · refine ⟨⟨rfl, rfl, rfl⟩, rfl, rfl, fun o h => ?_⟩
       obtain rfl : omission = o := by simpa using h
       obtain ⟨hresponse, hleaves⟩ := omitAttempt_leavesOut ha homit
       have := ha.retries
       exact ⟨hresponse, hleaves, by omega, rfl⟩

theorem checkCompaction_spec (s : Loop) (response : Response) (entryId : Option String) :
 SameRounds s (s.checkCompaction p a response entryId).2
 ∧ (s.checkCompaction p a response entryId).2.lastAssistant = s.lastAssistant
 ∧ ∀ next, (s.checkCompaction p a response entryId).1 = .ok (some next) →
  ByRecovery s (s.checkCompaction p a response entryId).2 response next := by
 unfold Loop.checkCompaction
 split
 · split
   · exact ⟨.refl s, rfl, fun next h => absurd h (by simp)⟩
   split
   · exact ⟨.refl s, rfl, fun next h => absurd h (by simp)⟩
   dsimp only
   split
   · exact ⟨.refl s, rfl, fun next h => absurd h (by simp)⟩
   · exact ⟨.refl s, rfl, fun next h => absurd h (by simp)⟩
   next hdecision =>
    have hunused := decideCompaction_willRetry hdecision
    split
    · exact ⟨⟨rfl, rfl, rfl⟩, rfl, fun next h => absurd h (by simp)⟩
    next omission homit =>
     split
     · exact ⟨⟨rfl, rfl, rfl⟩, rfl, fun next h => absurd h (by simp)⟩
     next continues _ =>
      refine ⟨⟨rfl, rfl, rfl⟩, rfl, fun next h => ?_⟩
      cases continues with
      | false => simp at h
      | true =>
       obtain rfl : .recovery omission = next := by simpa using h
       obtain ⟨hresponse, hleaves⟩ := omitAttempt_leavesOut ha homit
       exact ⟨⟨omission, rfl, hresponse, hleaves⟩, hunused, rfl⟩
   · split
     · exact ⟨.refl s, rfl, fun next h => absurd h (by simp)⟩
     next continues hcompaction =>
      refine ⟨.refl s, rfl, fun next h => ?_⟩
      have : continues = false := by
       unfold Loop.runAutoCompaction at hcompaction
       rw [ha.queued] at hcompaction
       split at hcompaction <;> simp_all
      rw [this] at h
      simp at h
 · exact ⟨.refl s, rfl, fun next h => absurd h (by simp)⟩

theorem settleResponse_spec (s : Loop) (response : Response) (entryId : Option String) :
 SameRounds s (s.settleResponse p a response entryId).2
 ∧ (s.settleResponse p a response entryId).2.lastAssistant = s.lastAssistant
 ∧ ∀ next, (s.settleResponse p a response entryId).1 = .ok (some next) →
  ByRecovery s (s.settleResponse p a response entryId).2 response next := by
 unfold Loop.settleResponse
 split
 · exact ⟨⟨rfl, rfl, rfl⟩, rfl, fun next h => absurd h (by simp)⟩
 dsimp only
 generalize hs : (if response.stopReason = .error then { s with retryAttempt := 0 } else s) = s₁
 have hsame : SameRounds s s₁ ∧ s₁.lastAssistant = s.lastAssistant
  ∧ s₁.overflowRecoveryAttempted = s.overflowRecoveryAttempted := by
  rw [← hs]
  split
  · exact ⟨⟨rfl, rfl, rfl⟩, rfl, rfl⟩
  · exact ⟨.refl s, rfl, rfl⟩
 obtain ⟨hrounds, hlast, hflag⟩ := hsame
 obtain ⟨hchecked, hlast', hnext⟩ := checkCompaction_spec ha p s₁ response entryId
 rcases hcheck : s₁.checkCompaction p a response entryId with ⟨⟨⟩ | next | next, s₂⟩
 all_goals
  rw [hcheck] at hchecked hlast' hnext
  refine ⟨hrounds.trans hchecked, hlast'.trans hlast, fun next h => ?_⟩
 · simp at h
 · rw [ha.queued] at h
   simp at h
 next continued =>
  dsimp only at h
  split at h
  · simp at h
  · obtain rfl : continued = next := by simpa using h
    obtain ⟨homission, hunused, hused⟩ := hnext continued rfl
    exact ⟨homission, hflag ▸ hunused, hused⟩

theorem handlePostAgentRun_spec (s : Loop) : SameRounds s (s.handlePostAgentRun p a).2
 ∧ (s.handlePostAgentRun p a).2.lastAssistant = none
 ∧ ∀ next, (s.handlePostAgentRun p a).1 = .ok (some next) →
  ∃ response entryId, s.lastAssistant = some (response, entryId)
   ∧ (ByRecovery s (s.handlePostAgentRun p a).2 response next
    ∨ ByRetry m s (s.handlePostAgentRun p a).2 response next) := by
 unfold Loop.handlePostAgentRun
 dsimp only
 generalize hs : ({ s with lastAssistant := none } : Loop) = s₁
 have hrounds : SameRounds s s₁ := hs ▸ ⟨rfl, rfl, rfl⟩
 have hlast : s₁.lastAssistant = none := hs ▸ rfl
 have hretries : s₁.retryAttempt = s.retryAttempt := hs ▸ rfl
 have hflag : s₁.overflowRecoveryAttempted = s.overflowRecoveryAttempted := hs ▸ rfl
 split
 · exact ⟨hrounds.trans ⟨rfl, rfl, rfl⟩, hlast, fun next h => absurd h (by simp)⟩
 split
 · refine ⟨hrounds, hlast, fun next h => ?_⟩
   rw [ha.queued] at h
   simp at h
 next response entryId hresponse =>
  have hsettle : ∀ s₂ : Loop, SameRounds s₁ s₂ → s₂.lastAssistant = s₁.lastAssistant →
   s₂.overflowRecoveryAttempted = s₁.overflowRecoveryAttempted →
   SameRounds s (s₂.settleResponse p a response entryId).2
   ∧ (s₂.settleResponse p a response entryId).2.lastAssistant = none
   ∧ ∀ next, (s₂.settleResponse p a response entryId).1 = .ok (some next) →
    ∃ response' entryId', s.lastAssistant = some (response', entryId')
     ∧ (ByRecovery s (s₂.settleResponse p a response entryId).2 response' next
      ∨ ByRetry m s (s₂.settleResponse p a response entryId).2 response' next) := by
   intro s₂ hsame hlast₂ hflag₂
   obtain ⟨hrounds', hlast', hnext⟩ := settleResponse_spec ha p s₂ response entryId
   refine ⟨(hrounds.trans hsame).trans hrounds', hlast'.trans (hlast₂.trans hlast),
    fun next h => ?_⟩
   obtain ⟨homission, hunused, hused⟩ := hnext next h
   exact ⟨response, entryId, hresponse, .inl ⟨homission, by rw [← hflag, ← hflag₂, hunused], hused⟩⟩
  split
  next hretryable =>
   obtain ⟨hsame, hlast₂, hflag₂, hnext⟩ := prepareRetry_spec ha s₁ response entryId
   rcases hretry : s₁.prepareRetry a response entryId with ⟨⟨⟩ | omission | omission, s₂⟩
   all_goals
    rw [hretry] at hsame hlast₂ hflag₂ hnext
    dsimp only at hsame hlast₂ hflag₂ hnext ⊢
   · exact ⟨hrounds.trans hsame, hlast₂.trans hlast, fun next h => absurd h (by simp)⟩
   · exact hsettle s₂ hsame hlast₂ hflag₂
   · split
     · exact ⟨(hrounds.trans hsame).trans ⟨rfl, rfl, rfl⟩, hlast₂.trans hlast,
        fun next h => absurd h (by simp)⟩
     · refine ⟨hrounds.trans hsame, hlast₂.trans hlast, fun next h => ?_⟩
       obtain rfl : .retry omission = next := by simpa using h
       obtain ⟨ho, hleaves, hlt, hcount⟩ := hnext omission rfl
       refine ⟨response, entryId, hresponse, .inr ⟨⟨omission, rfl, ho, hleaves⟩, ?_, ?_, ?_, ?_⟩⟩
       · exact error_of_retryable hretryable
       · exact hretries ▸ hlt
       · exact hcount.trans (by rw [hretries])
       · exact hflag₂.trans hflag
  · exact hsettle s₁ (.refl s₁) rfl rfl

theorem iterate_cases (s : Loop) :
 ((s.iterate p a).ended = true ∧ (s.iterate p a).rounds = s.rounds)
 ∨ ∃ next response entryId s', s.iterate p a = s'.proceed next ∧ SameRounds s s'
  ∧ s'.lastAssistant = none ∧ s.lastAssistant = some (response, entryId)
  ∧ (ByRecovery s s' response next ∨ ByRetry m s s' response next) := by
 unfold Loop.iterate
 split
 · exact .inl ⟨rfl, rfl⟩
 obtain ⟨hrounds, hlast, hnext⟩ := handlePostAgentRun_spec ha p s
 rcases hhandle : s.handlePostAgentRun p a with ⟨⟨⟩ | next | next, s'⟩
 all_goals
  rw [hhandle] at hrounds hlast hnext
  dsimp only at hrounds hlast hnext ⊢
 · exact .inl ⟨rfl, hrounds.rounds⟩
 · rw [ha.queued, ha.notices]
   simp only [Bool.false_eq_true, if_false]
   split
   · exact .inl ⟨rfl, hrounds.rounds⟩
   · split
     next hhook =>
      exact absurd hhook ha.stopHook
     · exact .inl ⟨rfl, hrounds.rounds⟩
 · split
   · exact .inl ⟨rfl, hrounds.rounds⟩
   · obtain ⟨response, entryId, hresponse, hby⟩ := hnext next rfl
     exact .inr ⟨next, response, entryId, s', rfl, hrounds, hlast, hresponse, hby⟩

end Iteration

/-! ## Runs -/

/-- What holds of the counters while the loop runs. -/
structure Live (s : Loop) : Prop where
 /-- The recovery of the row of failures is remembered, unless it was broken. -/
 recovers : (∀ r, s.current = some r → r.failing = true) → recovered s.rounds = true →
  s.overflowRecoveryAttempted = true
 /-- The retries since the last recovery are counted, while all responses are errors. -/
 counts : (∀ r, s.current = some r → r.stopReason = .error) → retriesSince s.rounds ≤ s.retryAttempt
 last : ∀ r, s.current = some r → ∃ id, s.lastAssistant = some (r, id)
 /-- Between the turns of a run the row of failures is broken. -/
 turning : s.current = none → s.lastAssistant ≠ none →
  retriesSince s.rounds = 0 ∧ recovered s.rounds = false

structure Loop.Sound (m : Nat) (s : Loop) : Prop where
 rounds : SoundRounds m s.rounds
 live : s.ended = false → Live s

/-- The start of a loop: nothing was answered, whatever was counted before. -/
structure Loop.Started (s : Loop) : Prop where
 rounds : s.rounds = []
 current : s.current = none
 lastAssistant : s.lastAssistant = none
 ended : s.ended = false

/-- What can happen to a running loop: the user's messages come before its first request,
each request has one response, and an iteration meets what is allowed. -/
def Loop.Guard (m : Nat) (s : Loop) (event : Loop.Event) : Prop :=
 s.ended = false ∧ match event with
  | .user => s.rounds = [] ∧ s.current = none
  | .respond _ _ => s.current = none
  | .turn => ∃ r, s.current = some r ∧ r.ends = false
  | .iterate a => Allowed m a

variable {r : Response}

theorem not_failing_of_not_ends (h : r.ends = false) : r.failing = false := by
 unfold Response.ends at h
 simp only [Bool.or_eq_false_iff, decide_eq_false_iff_not] at h
 unfold Response.failing
 simp [h.1.1, h.2]

theorem failing_of_error (h : r.stopReason = .error) : r.failing = true := by
 simp [Response.failing, h]

theorem stopReason_of_failing (h : r.failing = true) :
 r.stopReason = .error ∨ r.stopReason = .length := by
 unfold Response.failing at h
 simp only [Bool.or_eq_true, Bool.and_eq_true, decide_eq_true_eq] at h
 exact h.imp_right And.left

namespace Loop.Sound

variable {m : Nat} {s : Loop}

theorem user (h : Loop.Sound m s) (hlive : s.ended = false) (hr : s.rounds = []) :
 Loop.Sound m { s with overflowRecoveryAttempted := false } := by
 have hl := h.live hlive
 refine ⟨h.rounds, fun _ => ⟨fun _ hrec => ?_, hl.counts, hl.last, hl.turning⟩⟩
 have hrec : recovered s.rounds = true := hrec
 rw [hr] at hrec
 simp [recovered] at hrec

theorem respond (h : Loop.Sound m s) (hlive : s.ended = false) (hc : s.current = none)
 (response : Response) (entryId : Option String) :
 Loop.Sound m { s.trackMessage response entryId with current := some response } := by
 have hl := h.live hlive
 refine ⟨h.rounds, fun _ => ⟨fun hf hrec => ?_, fun he => ?_, fun r hr => ?_, fun hn => ?_⟩⟩
 · have hbefore := hl.recovers (by simp [hc]) hrec
   show (if response.stopReason = .error ∨ response.stopReason = .length then
    s.overflowRecoveryAttempted else false) = true
   rw [if_pos (stopReason_of_failing (hf response rfl)), hbefore]
 · show retriesSince s.rounds ≤ if response.stopReason = .error then s.retryAttempt else 0
   rw [if_pos (he response rfl)]
   exact hl.counts (by simp [hc])
 · cases hr
   exact ⟨entryId, rfl⟩
 · simp at hn

theorem turn (h : Loop.Sound m s)
 (hc : s.current = some r) (hends : r.ends = false) : Loop.Sound m (s.proceed .turn) := by
 have hf := not_failing_of_not_ends hends
 have hrounds : (s.proceed .turn).rounds = { response := r, next := .turn } :: s.rounds := by
  simp [Loop.proceed, hc]
 have hsince : retriesSince (s.proceed .turn).rounds = 0 := by rw [hrounds]; simp [retriesSince, hf]
 have hrec : recovered (s.proceed .turn).rounds = false := by rw [hrounds]; simp [recovered, hf]
 refine ⟨?_, fun _ => ⟨fun _ hrec' => ?_, fun _ => ?_, fun r hr => ?_, fun _ _ => ⟨hsince, hrec⟩⟩⟩
 · rw [hrounds]
   exact ⟨h.rounds, fun hfailing => absurd (hf.symm.trans hfailing) (by simp)⟩
 · exact absurd (hrec.symm.trans hrec') (by simp)
 · rw [hsince]
   exact zero_le _
 · simp [Loop.proceed] at hr

theorem proceed (h : Loop.Sound m s) (hlive : s.ended = false) {s' : Loop} {next : Continuation} {entryId : Option String} (hsame : SameRounds s s')
 (hnone : s'.lastAssistant = none) (hlast : s.lastAssistant = some (response, entryId))
 (hby : ByRecovery s s' response next ∨ ByRetry m s s' response next) :
 Loop.Sound m (s'.proceed next) := by
 have hl := h.live hlive
 have hlast' : (s'.proceed next).lastAssistant = none := hnone
 cases hc : s.current with
 | none =>
  have hrounds : (s'.proceed next).rounds = s.rounds := by
   simp [Loop.proceed, hsame.current, hsame.rounds, hc]
  obtain ⟨hsince, hrec⟩ := hl.turning hc (by simp [hlast])
  refine ⟨by rw [hrounds]; exact h.rounds, fun _ => ⟨fun _ hrec' => ?_, fun _ => ?_,
   fun r hr => ?_, fun _ hl' => absurd hlast' hl'⟩⟩
  · rw [hrounds, hrec] at hrec'
    simp at hrec'
  · rw [hrounds, hsince]
    exact zero_le _
  · simp [Loop.proceed] at hr
 | some r =>
  obtain ⟨id, hid⟩ := hl.last r hc
  obtain rfl : response = r := (Prod.mk.inj (Option.some.inj (hlast.symm.trans hid))).1
  have hrounds : (s'.proceed next).rounds = { response, next } :: s.rounds := by
   simp [Loop.proceed, hsame.current, hsame.rounds, hc]
  have hcurrent : ∀ other, s.current = some other → other = response := fun other ho =>
   (Option.some.inj (hc.symm.trans ho)).symm
  have hidle : ∀ r, (s'.proceed next).current = some r → ∃ id,
   (s'.proceed next).lastAssistant = some (r, id) := fun r hr =>
   absurd hr (by simp [Loop.proceed])
  rcases hby with ⟨⟨o, rfl, ho, hleaves⟩, hunused, hused⟩ |
   ⟨⟨o, rfl, ho, hleaves⟩, herror, hlt, hcount, hflag⟩
  · refine ⟨?_, fun _ => ⟨fun _ _ => hused, fun _ => ?_, hidle, fun _ hl' => absurd hlast' hl'⟩⟩
    · rw [hrounds]
      refine ⟨h.rounds, fun hf => ⟨⟨o, .inr rfl, ho, hleaves⟩, by simp [isRetry], fun _ => ?_⟩⟩
      cases hrec : recovered s.rounds with
      | false => rfl
      | true =>
       have hflag := hl.recovers (fun other hother => hcurrent other hother ▸ hf) hrec
       exact absurd (hunused.symm.trans hflag) (by simp)
    · have hzero : retriesSince (s'.proceed (.recovery o)).rounds = 0 := by
       rw [hrounds]
       simp [retriesSince, isRecovery]
      rw [hzero]
      exact zero_le _
  have hf := failing_of_error herror
  have hle := hl.counts fun other hother => hcurrent other hother ▸ herror
  refine ⟨?_, fun _ => ⟨fun _ hrec => ?_, fun _ => ?_, hidle, fun _ hl' => absurd hlast' hl'⟩⟩
  · rw [hrounds]
    exact ⟨h.rounds, fun _ => ⟨⟨o, .inl rfl, ho, hleaves⟩, fun _ => by omega,
     by simp [isRecovery]⟩⟩
  · rw [hrounds] at hrec
    have hrec : recovered s.rounds = true := by
     simpa [recovered, hf, isRecovery] using hrec
    exact hflag.trans (hl.recovers (fun other hother => hcurrent other hother ▸ hf) hrec)
  · have hsince : retriesSince (s'.proceed (.retry o)).rounds = retriesSince s.rounds + 1 := by
     rw [hrounds]
     simp [retriesSince, hf, isRecovery, isRetry]
    rw [hsince]
    show retriesSince s.rounds + 1 ≤ s'.retryAttempt
    omega

end Loop.Sound

theorem sound_step (p : Classify) (event : Loop.Event) (h : Loop.Sound m s) (hg : s.Guard m event) :
 Loop.Sound m (s.step p event) := by
 obtain ⟨hlive, hg⟩ := hg
 cases event with
 | user => exact h.user hlive hg.1
 | respond response entryId => exact h.respond hlive hg response entryId
 | turn =>
  obtain ⟨r, hc, hends⟩ := hg
  exact h.turn hc hends
 | iterate a =>
  show Loop.Sound m (s.iterate p a)
  rcases iterate_cases hg p s with ⟨hended, hrounds⟩ |
   ⟨next, response, entryId, s', heq, hsame, hnone, hlast, hby⟩
  · exact ⟨hrounds ▸ h.rounds, fun he => absurd (hended.symm.trans he) (by simp)⟩
  · rw [heq]
    exact h.proceed hlive hsame hnone hlast hby

def literalTexts : Classify where
 overflow _ := false
 nonOverflow _ := false
 bodylessOverflow _ := false
 retryable text := text = "overloaded"
 nonRetryable _ := false
 nearlyFull _ _ := false
 contextTokens _ := 0
 stampedBy _ _ := false

def overloaded : Response where
 message :=
  { content := [], api := "", provider := "", model := "", responseModel := none
    responseId := none, stopReason := .error, errorMessage := some "overloaded"
    rawStopReason := none, timestamp := 0 }
 usage := { input := 0, output := 0, cacheRead := 0, cacheWrite := 0, totalTokens := 0 }

/-- One retry is left, and nothing else happens. -/
def oneRetry : Meets where
 failed := false
 cancelled := false
 halted := false
 aborted _ := false
 model := none
 retry := { enabled := true, maxRetries := 1 }
 settings := .ok { enabled := false, reserveTokens := 0, keepRecentTokens := 0, thresholdPercent := none }
 masked := .ok ()
 background := .ok ()
 assistantEntryId := .ok none
 recorded := { world := answeredWorld, gap := none, transcript := [] }
 env := .calm
 shutDown := false
 inTranscript := false
 waitAborted := false
 compaction := .notCompacted
 queued := false
 notices := false
 stopHook := .ok false

theorem allowed_oneRetry : Allowed 1 oneRetry := by
 refine ⟨le_refl 1, rfl, rfl, nofun, reached_final answeredCall (by decide), ?_⟩
 have hlength : answeredWorld.manager.buildSessionProjection.messages.length + 1 = 4 := by
  decide +kernel
 show answeredWorld.manager.FreshDraws .calm 0
  (answeredWorld.manager.buildSessionProjection.messages.length + 1)
 rw [hlength]
 have hdistinct : ∀ j < 4, ∀ i < j, (Env.calm.draws j).uuid ≠ (Env.calm.draws i).uuid
  ∧ (Env.calm.draws j).uuid ∉ (Env.calm.draws i).candidates := by decide +kernel
 have hunused : ∀ i < 4, (Env.calm.draws i).uuid ∉ OrdMap.keys answeredWorld.manager.index.byId := by
  decide +kernel
 exact ⟨fun i _ hi => hunused i hi, fun i j _ hij hj => hdistinct j hj i hij⟩

/-- Two errors, the second behind a retry. -/
def retriedLoop : Loop := Run.final (Loop.step literalTexts)
  { retryAttempt := 0, overflowRecoveryAttempted := false, lastAssistant := none, rounds := []
    current := none, ended := false }
  [.respond overloaded (some "00000002"), .iterate oneRetry, .respond overloaded none]

end Bake.AgentSession
