import Bake.AgentSession.Omission

/-!
# An omission keeps calls and results together

The results go first and the attempt last, so wherever the edits stop, no result is left
whose call is gone. All of them leave exactly the attempt and the results of its calls out.
What an omission cut short has left out is not found again when it is done once more, and
both together leave out the same.
-/

open List

namespace Bake.AgentSession

open Bake.Json Bake.Session ProjectedSessionEntry
open Prod (fst snd)

/-! ## What is shown -/

theorem shown_append (a b : List ProjectedSessionEntry) : shown (a ++ b) = shown a ++ shown b :=
 flatMap_append ..

theorem shown_cons (entry : ProjectedSessionEntry) (rest : List ProjectedSessionEntry) :
 shown (entry :: rest)
  = (entry.messages.map fun message => (entry.sourceEntry.id, message)) ++ shown rest :=
 flatMap_cons

theorem shown_messages (entries : List ProjectedSessionEntry) :
 (shown entries).map snd = entries.flatMap messages := by
 unfold shown
 rw [map_flatMap]
 refine congrArg (List.flatMap · entries) (funext fun entry => ?_)
 rw [map_map]
 exact map_id' _

variable {entries : List ProjectedSessionEntry} {calls : List String}
 {l : List (String × AgentMessage)}

variable {message : AgentMessage}

theorem mem_shown {id : String} : (id, message) ∈ shown entries
  ↔ ∃ entry ∈ entries, entry.sourceEntry.id = id ∧ message ∈ entry.messages := by
 simp [shown, and_comm]

theorem shown_without (entries : List ProjectedSessionEntry) (ids : List String) :
 shown (entries.map (without ids)) = (shown entries).filter fun m => m.1 ∉ ids := by
 induction entries with
 | nil => rfl
 | cons entry rest ih =>
  rw [map_cons, shown_cons, shown_cons, filter_append, ← ih]
  congr 1
  unfold without
  by_cases hid : entry.sourceEntry.id ∈ ids
  · rw [if_pos hid]
    simp [hid]
  · rw [if_neg hid]
    refine (filter_eq_self.mpr fun m hm => ?_).symm
    obtain ⟨_, -, rfl⟩ := mem_map.mp hm
    simpa using hid

theorem shown_edits (edits : List SessionEntry) : shown (edits.map bare) = [] := by
 refine flatMap_eq_nil_iff.mpr fun entry he => ?_
 obtain ⟨_, -, rfl⟩ := mem_map.mp he
 rfl

theorem nodup_shown (hd : (entries.map fun entry => entry.sourceEntry.id).Nodup)
 (hsingle : ∀ entry ∈ entries, entry.messages.length ≤ 1) :
 ((shown entries).map fst).Nodup := by
 induction entries with
 | nil => exact nodup_nil
 | cons entry rest ih =>
  rw [map_cons, nodup_cons] at hd
  rw [shown_cons, map_append, nodup_append, map_map]
  refine ⟨?_, ih hd.2 fun e he => hsingle e (mem_cons_of_mem _ he), ?_⟩
  · have hlen := hsingle entry (mem_cons_self ..)
    match entry.messages, hlen with
    | [], _ => exact nodup_nil
    | [message], _ => exact nodup_singleton _
  · intro id hid other hother heq
    obtain ⟨_, -, rfl⟩ := mem_map.mp hid
    obtain ⟨⟨_, message⟩, hm, rfl⟩ := mem_map.mp hother
    obtain ⟨e, he, hid', -⟩ := mem_shown.mp hm
    exact hd.1 (mem_map.mpr ⟨e, he, hid'.trans heq.symm⟩)

/-! ## Where the attempt is -/

structure AttemptAt (entries : List ProjectedSessionEntry) (entry : ProjectedSessionEntry)
 (attempt : AgentMessage) (before after : List ProjectedSessionEntry) : Prop where
 split : entries = before ++ entry :: after
 only : entry.messages = [attempt]
 assistant : isAssistant attempt = true
 distinct : (entries.map fun entry => entry.sourceEntry.id).Nodup
 single : ∀ other ∈ after, other.messages.length ≤ 1

def between (after : List ProjectedSessionEntry) : List (String × AgentMessage) :=
 (shown after).takeWhile fun m => !isAssistant m.2

def onward (after : List ProjectedSessionEntry) : List (String × AgentMessage) :=
 (shown after).dropWhile fun m => !isAssistant m.2

theorem between_onward (after : List ProjectedSessionEntry) :
 shown after = between after ++ onward after := takeWhile_append_dropWhile.symm

def results (calls : List String) (after : List ProjectedSessionEntry) : List String :=
 ((between after).filter fun m => answers calls m.2).map fst

theorem isAssistant_between {after : List ProjectedSessionEntry} {m : String × AgentMessage}
 (h : m ∈ between after) : isAssistant m.2 = false := by
 simpa using mem_takeWhile_imp h

theorem onward_head (after : List ProjectedSessionEntry) :
 onward after = [] ∨ ∃ m rest, onward after = m :: rest ∧ isAssistant m.2 = true := by
 unfold onward
 cases hd : (shown after).dropWhile fun m => !isAssistant m.2 with
 | nil => exact .inl rfl
 | cons m rest =>
  refine .inr ⟨m, rest, rfl, ?_⟩
  have := head?_dropWhile_not (fun m : String × AgentMessage => !isAssistant m.2) (shown after)
  rw [hd] at this
  simpa using this

namespace AttemptAt

variable {entries : List ProjectedSessionEntry} {entry : ProjectedSessionEntry}
 {attempt : AgentMessage} {before after : List ProjectedSessionEntry}

theorem shown_eq (h : AttemptAt entries entry attempt before after) :
 shown entries = shown before ++ (entry.sourceEntry.id, attempt) :: shown after := by
 rw [h.split, shown_append, shown_cons, h.only]
 rfl

theorem nodup_after (h : AttemptAt entries entry attempt before after) :
 ((shown after).map fst).Nodup := by
 have hd := h.distinct
 rw [h.split, map_append, nodup_append, map_cons, nodup_cons] at hd
 exact nodup_shown hd.2.1.2 h.single

variable {m : String × AgentMessage} {calls : List String}

theorem after_ne (h : AttemptAt entries entry attempt before after) (hm : m ∈ shown after) :
 m.1 ≠ entry.sourceEntry.id ∧ ∀ other ∈ before, m.1 ≠ other.sourceEntry.id := by
 have hd := h.distinct
 rw [h.split, map_append, nodup_append, map_cons, nodup_cons] at hd
 obtain ⟨e, he, hid, -⟩ := mem_shown.mp hm
 have hmem := mem_map_of_mem (f := fun entry : ProjectedSessionEntry => entry.sourceEntry.id) he
 refine ⟨fun heq => hd.2.1.1 (by rw [← heq, ← hid]; exact hmem), fun other ho heq => ?_⟩
 exact hd.2.2 _ (mem_map_of_mem ho) _ (mem_cons_of_mem _ hmem) (hid.trans heq).symm

theorem before_ne (h : AttemptAt entries entry attempt before after) {other : ProjectedSessionEntry}
 (ho : other ∈ before) : other.sourceEntry.id ≠ entry.sourceEntry.id := by
 have hd := h.distinct
 rw [h.split, map_append, nodup_append, map_cons] at hd
 exact hd.2.2 _ (mem_map_of_mem ho) _ (mem_cons_self ..)

theorem attemptToolResults_eq {projection : SessionProjection}
 (h : AttemptAt projection.entries entry attempt before after) (calls : List String) :
 attemptToolResults projection entry.sourceEntry.id calls = results calls after := by
 unfold attemptToolResults
 rw [h.split, dropWhile_append_of_pos fun other ho => by simpa using h.before_ne ho,
  dropWhile_cons_of_neg (by simp)]
 rfl

section

variable (h : AttemptAt entries entry attempt before after)

include h

theorem mem_results (hm : m ∈ shown after) :
 m.1 ∈ results calls after ↔ m ∈ between after ∧ answers calls m.2 = true := by
 constructor
 · intro hid
   obtain ⟨other, hother, heq⟩ := mem_map.mp hid
   obtain ⟨hbetween, hanswers⟩ := mem_filter.mp hother
   have hshown : other ∈ shown after := between_onward after ▸ mem_append_left _ hbetween
   obtain rfl := inj_on_of_nodup_map h.nodup_after hshown hm heq
   exact ⟨hbetween, hanswers⟩
 · exact fun hm => mem_map_of_mem (mem_filter.mpr hm)

theorem results_ne {id : String}
 (hid : id ∈ results calls after) : id ≠ entry.sourceEntry.id
  ∧ ∀ other ∈ before, id ≠ other.sourceEntry.id := by
 obtain ⟨m, hm, rfl⟩ := mem_map.mp hid
 refine h.after_ne ?_
 rw [between_onward]
 exact mem_append_left _ (mem_of_mem_filter hm)

theorem onward_not_results
 (hm : m ∈ onward after) : m.1 ∉ results calls after := by
 intro hid
 have hshown : m ∈ shown after := between_onward after ▸ mem_append_right _ hm
 obtain ⟨hbetween, -⟩ := (h.mem_results hshown).mp hid
 have hd := h.nodup_after
 rw [between_onward, map_append, nodup_append] at hd
 exact hd.2.2 _ (mem_map_of_mem hbetween) _ (mem_map_of_mem hm) rfl

theorem shown_some {ids : List String}
 (hids : ∀ id ∈ ids, id ∈ results calls after) :
 (shown entries).filter (fun m => m.1 ∉ ids) = shown before ++ (entry.sourceEntry.id, attempt)
   :: (((between after).filter fun m => m.1 ∉ ids) ++ onward after) := by
 rw [h.shown_eq, filter_append, filter_cons, between_onward after, filter_append]
 have hbefore : (shown before).filter (fun m => m.1 ∉ ids) = shown before := by
  refine filter_eq_self.mpr fun m hm => decide_eq_true fun hid => ?_
  obtain ⟨other, ho, heq, -⟩ := mem_shown.mp hm
  exact (h.results_ne (hids _ hid)).2 other ho heq.symm
 have honward : (onward after).filter (fun m => m.1 ∉ ids) = onward after :=
  filter_eq_self.mpr fun m hm => decide_eq_true fun hid =>
   h.onward_not_results hm (hids _ hid)
 have hentry : entry.sourceEntry.id ∉ ids := fun hid => (h.results_ne (hids _ hid)).1 rfl
 rw [hbefore, honward, if_pos (decide_eq_true hentry)]

theorem shown_all (calls : List String) :
 (shown entries).filter (fun m => m.1 ∉ results calls after ++ [entry.sourceEntry.id])
  = shown before ++ (((between after).filter fun m => !answers calls m.2) ++ onward after) := by
 have hsplit : (shown entries).filter (fun m => m.1 ∉ results calls after ++ [entry.sourceEntry.id])
  = ((shown entries).filter fun m => m.1 ∉ results calls after).filter
   fun m => m.1 ≠ entry.sourceEntry.id := by
  rw [filter_filter]
  refine filter_congr fun m _ => ?_
  simp [and_comm]
 have hresults : (between after).filter (fun m => m.1 ∉ results calls after)
  = (between after).filter fun m => !answers calls m.2 := by
  refine filter_congr fun m hm => ?_
  have hshown : m ∈ shown after := between_onward after ▸ mem_append_left _ hm
  have hresult : m.1 ∈ results calls after ↔ _ := h.mem_results hshown
  by_cases ha : answers calls m.2 = true <;> simp [hresult, hm, ha]
 rw [hsplit, h.shown_some fun _ hid => hid, filter_append, filter_cons_of_neg (by simp),
  hresults]
 congr 1
 · refine filter_eq_self.mpr fun m hm => decide_eq_true ?_
   obtain ⟨other, ho, heq, -⟩ := mem_shown.mp hm
   exact heq ▸ h.before_ne ho
 · refine filter_eq_self.mpr fun m hm => decide_eq_true ?_
   refine (h.after_ne ?_).1
   rw [between_onward]
   rcases mem_append.mp hm with hm | hm
   · exact mem_append_left _ (mem_of_mem_filter hm)
   · exact mem_append_right _ hm

end

end AttemptAt

/-! ## Pairs stay together -/

theorem pairedFrom_filter {kept : String × AgentMessage → Bool}
 (h : ∀ m ∈ l, kept m = false → isAssistant m.2 = false) (hp : pairedFrom calls (l.map snd)) :
 pairedFrom calls ((l.filter kept).map snd) := by
 induction l generalizing calls with
 | nil => trivial
 | cons m rest ih =>
  have hrest := ih (fun other ho => h other (mem_cons_of_mem _ ho)) hp.2
  cases hk : kept m with
  | true =>
   rw [filter_cons_of_pos hk]
   exact ⟨hp.1, hrest⟩
  | false =>
   rw [filter_cons_of_neg (by simp [hk])]
   rwa [callsAfter_of_not (by simpa using h m (mem_cons_self ..) hk)] at hrest

theorem pairedFrom_unanswered (hl : ∀ m ∈ l, isAssistant m.2 = false)
 (hp : pairedFrom calls (l.map snd)) (calls' : List String) :
 pairedFrom calls' ((l.filter fun m => !answers calls m.2).map snd) := by
 induction l with
 | nil => trivial
 | cons m rest ih =>
  have hm : ∀ calls, callsAfter calls [m.2] = calls := fun calls =>
   callsAfter_of_not (by simpa using hl m (mem_cons_self ..)) calls
  have hrest := hp.2
  rw [hm] at hrest
  have hih := ih (fun other ho => hl other (mem_cons_of_mem _ ho)) hrest
  cases ha : answers calls m.2 with
  | true =>
   rw [filter_cons_of_neg (by simp [ha])]
   exact hih
  | false =>
   rw [filter_cons_of_pos (by simp [ha])]
   refine ⟨fun hrole => absurd (hp.1 hrole) (by simp [ha]), ?_⟩
   rw [hm]
   exact hih

theorem pairedFrom_assistant (ha : isAssistant message = true)
 (calls' : List String) {rest : List AgentMessage} (h : pairedFrom calls (message :: rest)) :
 pairedFrom calls' (message :: rest) := by
 have hrole : roleOf message = some "assistant" := of_decide_eq_true ha
 refine ⟨fun hr => absurd (hrole.symm.trans hr) (by simp), ?_⟩
 have := h.2
 unfold callsAfter at this ⊢
 rw [foldl_cons, if_pos ha] at this ⊢
 exact this

namespace AttemptAt

variable {entries : List ProjectedSessionEntry} {entry : ProjectedSessionEntry}
 {attempt : AgentMessage} {before after : List ProjectedSessionEntry}

theorem paired_some (h : AttemptAt entries entry attempt before after) {ids : List String}
 (hids : ∀ id ∈ ids, id ∈ results calls after) (hp : Paired ((shown entries).map snd)) :
 Paired (((shown entries).filter fun m => m.1 ∉ ids).map snd) := by
 rw [paired_iff] at hp ⊢
 refine pairedFrom_filter (fun m hm hk => ?_) hp
 have hid : m.1 ∈ ids := by simpa using hk
 have hresult := hids _ hid
 rw [h.shown_eq, mem_append, mem_cons] at hm
 rcases hm with hm | rfl | hm
 · obtain ⟨other, ho, heq, -⟩ := mem_shown.mp hm
   exact absurd heq.symm ((h.results_ne hresult).2 other ho)
 · exact absurd rfl (h.results_ne hresult).1
 · exact isAssistant_between ((h.mem_results hm).mp hresult).1

theorem paired_all (h : AttemptAt entries entry attempt before after)
 (hp : Paired ((shown entries).map snd)) :
 Paired (((shown entries).filter fun m =>
  m.1 ∉ results (callIds attempt) after ++ [entry.sourceEntry.id]).map snd) := by
 rw [paired_iff] at hp ⊢
 rw [h.shown_all]
 rw [h.shown_eq, map_append, map_cons, pairedFrom_append, pairedFrom,
  between_onward after, map_append, pairedFrom_append] at hp
 obtain ⟨hbefore, -, hbetween, honward⟩ := hp
 have hcalls : callsAfter (callsAfter [] ((shown before).map snd)) [attempt] = callIds attempt := by
  rw [callsAfter, foldl_cons, if_pos h.assistant]
  rfl
 rw [hcalls] at hbetween honward
 rw [map_append, map_append, pairedFrom_append, pairedFrom_append]
 refine ⟨hbefore, ?_, ?_⟩
 · exact pairedFrom_unanswered (fun m hm => isAssistant_between hm) hbetween _
 · rcases onward_head after with hnil | ⟨m, rest, heq, ha⟩
   · rw [hnil]
     trivial
   · rw [heq] at honward ⊢
     exact pairedFrom_assistant ha _ honward

end AttemptAt

/-! ## Once more -/

theorem takeWhile_filter {α : Type} {l : List α} {p kept : α → Bool}
 (h : ∀ a ∈ l, kept a = false → p a = true) :
 (l.filter kept).takeWhile p = (l.takeWhile p).filter kept := by
 induction l with
 | nil => rfl
 | cons a rest ih =>
  have hrest := ih fun b hb => h b (mem_cons_of_mem _ hb)
  cases hk : kept a with
  | true =>
   rw [filter_cons_of_pos hk, takeWhile_cons, takeWhile_cons, hrest]
   cases p a with
   | true => exact (filter_cons_of_pos hk).symm
   | false => rfl
  | false =>
   rw [filter_cons_of_neg (by simp [hk]), takeWhile_cons_of_pos
    (h a (mem_cons_self ..) hk), filter_cons_of_neg (by simp [hk]), hrest]

namespace AttemptAt

variable {projection : SessionProjection} {entry : ProjectedSessionEntry}
 {attempt : AgentMessage} {before after : List ProjectedSessionEntry}

/-- **Looked up again** after some of them were left out, the results are the others. -/
theorem attemptToolResults_again (h : AttemptAt projection.entries entry attempt before after)
 {ids : List String} (hids : ∀ id ∈ ids, id ∈ results calls after ++ [entry.sourceEntry.id])
 (edits : List SessionEntry) (id : String) :
 id ∈ attemptToolResults ((projection.without ids).behind edits) entry.sourceEntry.id calls
  ↔ id ∈ results calls after ∧ id ∉ ids := by
 let after' := after.map (without ids) ++ edits.map bare
 have hfound : attemptToolResults ((projection.without ids).behind edits) entry.sourceEntry.id calls
  = results calls after' := by
  unfold attemptToolResults SessionProjection.behind SessionProjection.without
  dsimp only
  rw [h.split, map_append, append_assoc, dropWhile_append_of_pos, map_cons,
   cons_append, dropWhile_cons_of_neg (by simp)]
  · rfl
  · intro other ho
    obtain ⟨e, he, rfl⟩ := mem_map.mp ho
    simpa using h.before_ne he
 have hshown : shown after' = (shown after).filter fun m => m.1 ∉ ids := by
  rw [shown_append, shown_without, shown_edits, append_nil]
 have hbetween : between after' = (between after).filter fun m => m.1 ∉ ids := by
  unfold between
  rw [hshown]
  refine takeWhile_filter fun m hm hk => ?_
  have hid := hids m.1 (by simpa using hk)
  rcases mem_append.mp hid with hid | hid
  · simp [isAssistant_between ((h.mem_results hm).mp hid).1]
  · exact absurd (mem_singleton.mp hid) (h.after_ne hm).1
 rw [hfound]
 unfold results
 rw [hbetween]
 constructor
 · intro hid
   obtain ⟨m, hm, rfl⟩ := mem_map.mp hid
   obtain ⟨hm, ha⟩ := mem_filter.mp hm
   obtain ⟨hm, hk⟩ := mem_filter.mp hm
   exact ⟨mem_map_of_mem (mem_filter.mpr ⟨hm, ha⟩), by simpa using hk⟩
 · rintro ⟨hid, hk⟩
   obtain ⟨m, hm, rfl⟩ := mem_map.mp hid
   obtain ⟨hm, ha⟩ := mem_filter.mp hm
   exact mem_map_of_mem (mem_filter.mpr ⟨mem_filter.mpr ⟨hm, by simpa using hk⟩, ha⟩)

/-- **An omission cut short and done again** leaves out what it leaves out at once. -/
theorem without_again (h : AttemptAt projection.entries entry attempt before after)
 {ids : List String} (hids : ∀ id ∈ ids, id ∈ results calls after ++ [entry.sourceEntry.id])
 (edits : List SessionEntry) :
 ((projection.without ids).behind edits).without (omissionTargets
  ((projection.without ids).behind edits) (some entry.sourceEntry.id) calls)
  = (projection.without (results calls after ++ [entry.sourceEntry.id])).behind edits := by
 have htargets : ∀ id, id ∈ omissionTargets ((projection.without ids).behind edits)
  (some entry.sourceEntry.id) calls
  ↔ (id ∈ results calls after ∧ id ∉ ids) ∨ id = entry.sourceEntry.id := by
  intro id
  unfold omissionTargets
  rw [mem_append, Option.elim_some, h.attemptToolResults_again hids edits]
  simp
 generalize omissionTargets _ _ calls = targets at htargets
 have hentry : ∀ other : ProjectedSessionEntry, (other.without ids).without targets
  = other.without (results calls after ++ [entry.sourceEntry.id]) := by
  intro other
  rw [without_without]
  refine without_congr ?_
  have hid := hids other.sourceEntry.id
  rw [mem_append, mem_singleton] at hid
  rw [mem_append, mem_append, mem_singleton, htargets]
  by_cases hi : other.sourceEntry.id ∈ ids
  · exact iff_of_true (.inl hi) (hid hi)
  · simp [hi]
 have hbare : ∀ other : SessionEntry, (bare other).without targets = .bare other := by
  intro other
  unfold without
  split <;> rfl
 have hentries : ((projection.entries.map (without ids)) ++ edits.map bare).map (without targets)
  = projection.entries.map (without (results calls after ++ [entry.sourceEntry.id]))
   ++ edits.map bare := by
  rw [map_append, map_map, map_map]
  congr 1
  · exact map_congr_left fun other _ => hentry other
  · exact map_congr_left fun other _ => hbare other
 unfold SessionProjection.behind SessionProjection.without
 dsimp only
 rw [hentries, flatMap_append, messages_bare, append_nil]

end AttemptAt

end Bake.AgentSession
